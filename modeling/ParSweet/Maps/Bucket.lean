import ParSweet.Concurrent.Segment
import ParSweet.Maps.Operations

/-! The chains of `LockHashMap`, and the map they represent.

The nodes of all buckets live in one heap. A `Bucket` is the chain from one bucket's
head: its keys belong there and are all different. The chains together are a map
(`MapInv`). A thread touches a head only while it holds the mutex of the bucket, and a
node only while it holds the mutex of the bucket its key belongs to (`Effect`), so that
nobody else's chain changes. -/
namespace ParSweet.Maps
open Concurrent

abbrev NodeId := ℕ

/-- `LockHashMap::Node` -/
structure Node (K V : Type*) where
  key : K
  value : V
  next : Option NodeId

/-- `size` is the number of nodes created; a node that has been destroyed is gone from
`node`. `mutex b` is the thread that holds the mutex of bucket `b`. -/
structure Store (τ K V : Type*) where
  size : ℕ
  node : NodeId → Option (Node K V)
  head : Int → Option NodeId
  mutex : Int → Option τ

namespace Store
variable {τ K V : Type*}

def initial : Store τ K V := ⟨0, fun _ => none, fun _ => none, fun _ => none⟩

/-- Locking a free mutex; on a held one there is nothing to take. -/
def tryAcquire (s : Store τ K V) (me : τ) (b : Int) : Option (Store τ K V) :=
  match s.mutex b with
  | none => some {s with mutex := Function.update s.mutex b (some me)}
  | some _ => none

def release (s : Store τ K V) (b : Int) : Store τ K V :=
  {s with mutex := Function.update s.mutex b none}

/-- A new node without a successor, numbered `size`. -/
def create (s : Store τ K V) (key : K) (value : V) : Store τ K V :=
  {s with size := s.size + 1, node := Function.update s.node s.size (some ⟨key, value, none⟩)}

def setHead (s : Store τ K V) (b : Int) (n : Option NodeId) : Store τ K V :=
  {s with head := Function.update s.head b n}

def setNode (s : Store τ K V) (n : NodeId) (x : Node K V) : Store τ K V :=
  {s with node := Function.update s.node n (some x)}

/-- `nodeHead->head = n`, or `prev->next = n` if there is a `prev`; nothing if that would
dereference a null pointer. -/
def relink (s : Store τ K V) (b : Int) (prev : Option NodeId) (n : Option NodeId) : Option (Store τ K V) :=
  match prev with
  | none => some (s.setHead b n)
  | some p => (s.node p).map fun y => s.setNode p {y with next := n}

/-- In C++ an unlinked node is destroyed: the store to a `unique_ptr` destroys the node it
held, here the one whose `next` has been moved there. -/
def dispose (L : Lang) (s : Store τ K V) (n : NodeId) : Store τ K V :=
  match L with
  | .cpp => {s with node := Function.update s.node n none}
  | .java => s

variable {L : Lang} {s : Store τ K V} {n m : NodeId}

@[simp] theorem dispose_size : (s.dispose L n).size = s.size := by cases L <;> rfl

@[simp] theorem dispose_head : (s.dispose L n).head = s.head := by cases L <;> rfl

@[simp] theorem dispose_mutex : (s.dispose L n).mutex = s.mutex := by cases L <;> rfl

theorem dispose_other (h : m ≠ n) : (s.dispose L n).node m = s.node m := by
  cases L
  · exact Function.update_of_ne h _ _
  · rfl

end Store

/-! ### Looking up a key in a chain -/

/-- What a chain is made of: the nodes' numbers with the keys and values they carry. -/
abbrev Entry (K V : Type*) := NodeId × K × V

section Lookup
variable {K V : Type*} [BEq K] {l pre post : List (Entry K V)} {k k' : K} {v v' : V} {n : NodeId}

/-- The value of a key in a chain. -/
def lookup (k : K) (l : List (Entry K V)) : Option V :=
  (l.find? fun e => e.2.1 == k).map fun e => e.2.2

/-- No entry has the key. -/
def Absent (k : K) (l : List (Entry K V)) : Prop := ∀ e ∈ l, (e.2.1 == k) = false

theorem lookup_append : lookup k (l ++ post) = (lookup k l).or (lookup k post) := by
  simp only [lookup, List.find?_append]
  cases List.find? (fun e => e.2.1 == k) l <;> rfl

theorem lookup_cons : lookup k ((n, k', v) :: l) = if k' == k then some v else lookup k l := by
  by_cases h : (k' == k) = true <;> simp [lookup, h]

theorem lookup_eq_none : lookup k l = none ↔ Absent k l := by
  simp [lookup, Absent]

/-- The key of an entry behind entries with other keys. -/
theorem lookup_hit (hpre : Absent k pre) (hk : (k' == k) = true) :
    lookup k (pre ++ (n, k', v) :: post) = some v := by
  rw [lookup_append, lookup_eq_none.mpr hpre, lookup_cons, if_pos hk]
  rfl

variable [EquivBEq K]

theorem Absent.congr (h : Absent k l) (hk : (k == k') = true) : Absent k' l := fun e he =>
  (BEq.congr_right hk).symm.trans (h e he)

/-- Storing a value puts it under the entry's key. -/
theorem lookup_store (hpre : Absent k pre) (hk : (k' == k) = true) (j : K) :
    lookup j (pre ++ (n, k', v') :: post) =
      if k == j then some v' else lookup j (pre ++ (n, k', v) :: post) := by
  by_cases hj : (k == j) = true
  · rw [if_pos hj, lookup_hit (hpre.congr hj) (PartialEquivBEq.trans hk hj)]
  · have hj' : ¬ (k' == j) = true := fun h => hj (PartialEquivBEq.trans (PartialEquivBEq.symm hk) h)
    rw [if_neg hj, lookup_append, lookup_append, lookup_cons, lookup_cons, if_neg hj', if_neg hj']

/-- A new entry at the end of a chain that does not have its key. -/
theorem lookup_link (hl : Absent k l) (j : K) :
    lookup j (l ++ [(n, k, v)]) = if k == j then some v else lookup j l := by
  rw [lookup_append, lookup_cons]
  by_cases hj : (k == j) = true
  · rw [if_pos hj, if_pos hj, lookup_eq_none.mpr (hl.congr hj)]
    rfl
  · simp [if_neg hj, lookup]

/-- An entry taken out of a chain that has its key nowhere else. -/
theorem lookup_unlink (hpre : Absent k pre) (hpost : Absent k post) (hk : (k' == k) = true) (j : K) :
    lookup j (pre ++ post) = if k == j then none else lookup j (pre ++ (n, k', v) :: post) := by
  by_cases hj : (k == j) = true
  · rw [if_pos hj, lookup_append, lookup_eq_none.mpr (hpre.congr hj), lookup_eq_none.mpr (hpost.congr hj)]
    rfl
  · have hj' : ¬ (k' == j) = true := fun h => hj (PartialEquivBEq.trans (PartialEquivBEq.symm hk) h)
    rw [if_neg hj, lookup_append, lookup_append, lookup_cons, if_neg hj']

end Lookup

/-! ### Buckets -/

variable {τ K V : Type*} [BEq K] {index : K → Int} {s s' : Store τ K V} {M : K → Option V} {b b' : Int}
  {l l' pre post : List (Entry K V)} {k : K} {v : V} {n : NodeId} {x : Node K V}

/-- The links from `o` lead through the entries of `l` to the end. -/
def Chain (s : Store τ K V) (o : Option NodeId) (l : List (Entry K V)) : Prop :=
  Segment (fun x : Node K V => (x.key, x.value)) Node.next s.node o l none

/-- The chain of bucket `b` is `l`, and `l` is as the chain of a bucket should be. -/
structure Bucket (index : K → Int) (s : Store τ K V) (b : Int) (l : List (Entry K V)) : Prop where
  chain : Chain s (s.head b) l
  nodup : (l.map Prod.fst).Nodup
  own : ∀ e ∈ l, index e.2.1 = b
  distinct : l.Pairwise fun e e' => (e.2.1 == e'.2.1) = false

/-- The chains of all buckets together represent the map `M`. -/
structure MapInv (index : K → Int) (s : Store τ K V) (M : K → Option V) : Prop where
  unused : ∀ n, s.size ≤ n → s.node n = none
  bucket : ∀ b, ∃ l, Bucket index s b l ∧ ∀ k, index k = b → M k = lookup k l

theorem Bucket.unique (h : Bucket index s b l) (h' : Bucket index s b l') : l = l' :=
  Segment.unique h.chain h'.chain

/-- The map on the keys of one bucket. -/
theorem MapInv.lookup_eq (h : MapInv index s M) (hb : Bucket index s b l) (hk : index k = b) :
    M k = lookup k l := by
  obtain ⟨l', hb', hM⟩ := h.bucket b
  rw [hb.unique hb', hM k hk]

theorem Bucket.node_of_mem (h : Bucket index s b l) {e : Entry K V} (he : e ∈ l) :
    ∃ x, s.node e.1 = some x ∧ x.key = e.2.1 ∧ x.value = e.2.2 := by
  obtain ⟨n, k, v⟩ := e
  obtain ⟨x, hx, hc⟩ := Segment.node_of_mem h.chain he
  exact ⟨x, hx, congrArg Prod.fst hc, congrArg Prod.snd hc⟩

/-- The number of a new node is on no chain. -/
theorem MapInv.ne_size (h : MapInv index s M) (hb : Bucket index s b l) {e : Entry K V} (he : e ∈ l) :
    e.1 ≠ s.size := by
  intro hn
  obtain ⟨x, hx, _⟩ := hb.node_of_mem he
  rw [hn, h.unused _ (Nat.le_refl _)] at hx
  cases hx

theorem initial_mapInv (index : K → Int) : MapInv index (Store.initial : Store τ K V) fun _ => none where
  unused := fun _ _ => rfl
  bucket := fun _ => ⟨[], ⟨rfl, List.nodup_nil, nofun, List.Pairwise.nil⟩, fun _ _ => rfl⟩

/-! ### What a step does to the store -/

/-- A step that keeps to bucket `b`: its mutex, its head and the nodes whose keys belong
there. New nodes may appear. -/
structure Within (index : K → Int) (b : Int) (s s' : Store τ K V) : Prop where
  mutex : ∀ c, c ≠ b → s'.mutex c = s.mutex c
  head : ∀ c, c ≠ b → s'.head c = s.head c
  node : ∀ n x, s.node n = some x → index x.key ≠ b → s'.node n = some x

/-- What a thread `u` may do: nothing, or a step in a bucket whose mutex nobody else holds. -/
def Effect (index : K → Int) (u : τ) (s s' : Store τ K V) : Prop :=
  s' = s ∨ ∃ b, (∀ t, t ≠ u → s.mutex b ≠ some t) ∧ Within index b s s'

omit [BEq K] in
theorem Effect.same {u : τ} : Effect index u s s := .inl rfl

omit [BEq K] in
theorem Effect.held {u : τ} (hm : s.mutex b = some u) (hw : Within index b s s') : Effect index u s s' :=
  .inr ⟨b, fun _ hne ht => hne (Option.some.inj (ht.symm.trans hm)), hw⟩

omit [BEq K] in
theorem Effect.acquire {u : τ} (h : s.tryAcquire u b = some s') :
    Effect index u s s' ∧ s'.mutex b = some u ∧ s'.size = s.size ∧ s'.head = s.head ∧ s'.node = s.node := by
  cases hm : s.mutex b with
  | some t => simp [Store.tryAcquire, hm] at h
  | none =>
    simp only [Store.tryAcquire, hm, Option.some.injEq] at h
    subst h
    exact ⟨.inr ⟨b, fun t _ => by rw [hm]; nofun, fun c hc => Function.update_of_ne hc _ _, fun _ _ => rfl,
      fun _ _ hx _ => hx⟩, Function.update_self .., rfl, rfl, rfl⟩

omit [BEq K] in
theorem Effect.release {u : τ} (hm : s.mutex b = some u) : Effect index u s (s.release b) :=
  .held hm ⟨fun _ hc => Function.update_of_ne hc _ _, fun _ _ => rfl, fun _ _ hx _ => hx⟩

/-- The other buckets stay as they are. -/
theorem Bucket.stable (h : Bucket index s b l) (hw : Within index b' s s') (hb : b ≠ b') :
    Bucket index s' b l where
  chain := by
    rw [Chain, hw.head b hb]
    refine Segment.congr h.chain fun n a ha => ?_
    obtain ⟨x, hx, hk, _⟩ := h.node_of_mem ha
    rw [hx]
    exact hw.node n x hx (by rwa [hk, h.own _ ha])
  nodup := h.nodup
  own := h.own
  distinct := h.distinct

/-- What a thread may rely on while it holds a mutex. -/
theorem Effect.keeps {t u : τ} (he : Effect index u s s') (hne : t ≠ u) (hm : s.mutex b = some t) :
    s'.mutex b = some t ∧ (∀ l, Bucket index s b l → Bucket index s' b l) ∧
      ∀ n x, s.node n = some x → index x.key = b → s'.node n = some x := by
  rcases he with rfl | ⟨c, hc, hw⟩
  · exact ⟨hm, fun _ h => h, fun _ _ h _ => h⟩
  · have hbc : b ≠ c := fun h => hc t hne (h ▸ hm)
    exact ⟨(hw.mutex b hbc).trans hm, fun _ h => h.stable hw hbc, fun n x hx hb =>
      hw.node n x hx (hb ▸ hbc)⟩

/-- A step in bucket `b` that makes the map `M'` out of `M`. -/
theorem MapInv.step {M' : K → Option V} (h : MapInv index s M) (hw : Within index b s s')
    (l' : List (Entry K V)) (hunused : ∀ n, s'.size ≤ n → s'.node n = none) (hb : Bucket index s' b l')
    (hl : ∀ k, index k = b → M' k = lookup k l') (hM : ∀ k, index k ≠ b → M' k = M k) :
    MapInv index s' M' := by
  refine ⟨hunused, fun c => ?_⟩
  by_cases hc : c = b
  · subst hc
    exact ⟨l', hb, hl⟩
  · obtain ⟨l, hl', hlM⟩ := h.bucket c
    exact ⟨l, hl'.stable hw hc, fun k hk => by rw [hM k (hk ▸ hc), hlM k hk]⟩

/-- Mutexes are no part of the map. -/
theorem Bucket.congr (h : Bucket index s b l) (hhead : s'.head = s.head) (hnode : s'.node = s.node) :
    Bucket index s' b l :=
  ⟨by rw [Chain, hhead, hnode]; exact h.chain, h.nodup, h.own, h.distinct⟩

theorem MapInv.congr (h : MapInv index s M) (hsize : s'.size = s.size) (hhead : s'.head = s.head)
    (hnode : s'.node = s.node) : MapInv index s' M where
  unused := fun n hn => by rw [hnode]; exact h.unused n (hsize ▸ hn)
  bucket := fun b => (h.bucket b).imp fun _ hl => ⟨hl.1.congr hhead hnode, hl.2⟩

/-! ### The four ways to change a chain -/

variable {pre post : List (Entry K V)} {k' : K} {v' : V}

/-- A change that leaves alone every node there was, but for some of the bucket's own. -/
theorem Bucket.within (h : Bucket index s b l) (hmutex : s'.mutex = s.mutex)
    (hhead : ∀ c, c ≠ b → s'.head c = s.head c)
    (hnode : ∀ n x, s.node n = some x → (∀ e ∈ l, n ≠ e.1) → s'.node n = some x) :
    Within index b s s' where
  mutex := fun c _ => by rw [hmutex]
  head := hhead
  node := fun n x hx hi => hnode n x hx fun e he hn => by
    obtain ⟨y, hy, hk, _⟩ := h.node_of_mem he
    obtain rfl := Option.some.inj (hx.symm.trans (hn ▸ hy))
    exact hi (hk ▸ h.own e he)

/-- `put`, of a key that is not there, to an empty bucket. -/
theorem MapInv.put_first [EquivBEq K] (h : MapInv index s M) (hb : Bucket index s (index k) [])
    (hindex : ∀ j, (k == j) = true → index j = index k) :
    MapInv index ((s.create k v).setHead (index k) (some s.size))
        (fun j => if k == j then some v else M j) ∧
      Within index (index k) s ((s.create k v).setHead (index k) (some s.size)) := by
  have hw : Within index (index k) s ((s.create k v).setHead (index k) (some s.size)) :=
    hb.within rfl (fun c hc => Function.update_of_ne hc _ _) fun n x hx _ => by
      have hn : n ≠ s.size := fun hn => by
        rw [hn, h.unused _ (Nat.le_refl _)] at hx
        cases hx
      exact (Function.update_of_ne hn _ _).trans hx
  refine ⟨h.step hw [(s.size, k, v)] (fun n hn => ?_) ⟨?_, ?_, ?_, ?_⟩ (fun j hj => ?_) fun j hj => ?_, hw⟩
  · have hn : s.size + 1 ≤ n := hn
    exact (Function.update_of_ne (show n ≠ s.size by omega) _ _).trans (h.unused n (by omega))
  · exact ⟨Function.update_self .., _, Function.update_self .., rfl, rfl⟩
  · exact List.nodup_singleton _
  · simp
  · exact List.pairwise_singleton _ _
  · rw [lookup_cons, h.lookup_eq hb hj]
  · rw [if_neg fun hk => hj (hindex j hk)]

/-- `put`, of a key that is not there, behind the last node. -/
theorem MapInv.put_last [EquivBEq K] (h : MapInv index s M)
    (hb : Bucket index s (index k) (pre ++ [(n, k', v')])) (habsent : Absent k (pre ++ [(n, k', v')]))
    (hx : s.node n = some x) (hindex : ∀ j, (k == j) = true → index j = index k) :
    MapInv index ((s.create k v).setNode n {x with next := some s.size})
        (fun j => if k == j then some v else M j) ∧
      Within index (index k) s ((s.create k v).setNode n {x with next := some s.size}) := by
  obtain ⟨x', hx', hk', hv'⟩ := hb.node_of_mem (e := (n, k', v')) (by simp)
  obtain rfl := Option.some.inj (hx.symm.trans hx')
  have hne : ∀ {e}, e ∈ pre ++ [(n, k', v')] → e.1 ≠ s.size := fun he => h.ne_size hb he
  have hw : Within index (index k) s ((s.create k v).setNode n {x with next := some s.size}) :=
    hb.within rfl (fun _ _ => rfl) fun m y hy hm => by
      have hms : m ≠ s.size := fun hms => by
        rw [hms, h.unused _ (Nat.le_refl _)] at hy
        cases hy
      have hmn : m ≠ n := hm (n, k', v') (by simp)
      simpa [Store.setNode, Store.create, hmn, hms] using hy
  refine ⟨h.step hw (pre ++ [(n, k', v')] ++ [(s.size, k, v)]) (fun m hm => ?_) ⟨?_, ?_, ?_, ?_⟩
    (fun j hj => ?_) fun j hj => ?_, hw⟩
  · have hm : s.size + 1 ≤ m := hm
    have hmn : m ≠ n := fun hmn => by
      rw [← hmn, h.unused m (by omega)] at hx
      cases hx
    simpa [Store.setNode, Store.create, hmn, show m ≠ s.size by omega] using h.unused m (by omega)
  · exact Segment.link (x := ⟨k, v, none⟩) (y := {x with next := some s.size}) hb.chain hb.nodup
      (fun m c hm => hne hm) (Prod.ext hk' hv') rfl rfl
  · rw [List.map_append]
    refine hb.nodup.append (List.nodup_singleton _) (List.disjoint_singleton.mpr fun hm => ?_)
    obtain ⟨e, he, hes⟩ := List.mem_map.mp hm
    exact hne he hes
  · intro e he
    rcases List.mem_append.mp he with he | he
    · exact hb.own e he
    · obtain rfl := List.mem_singleton.mp he
      rfl
  · refine List.pairwise_append.mpr ⟨hb.distinct, List.pairwise_singleton _ _, fun e he e' he' => ?_⟩
    obtain rfl := List.mem_singleton.mp he'
    exact habsent e he
  · rw [lookup_link habsent, h.lookup_eq hb hj]
  · rw [if_neg fun hk => hj (hindex j hk)]

/-- `put` of a key that is there. -/
theorem MapInv.put_value [EquivBEq K] (h : MapInv index s M)
    (hb : Bucket index s (index k) (pre ++ (n, k', v') :: post)) (hpre : Absent k pre) (hk : (k' == k) = true)
    (hx : s.node n = some x) (hindex : ∀ j, (k == j) = true → index j = index k) :
    MapInv index (s.setNode n {x with value := v}) (fun j => if k == j then some v else M j) ∧
      Within index (index k) s (s.setNode n {x with value := v}) := by
  obtain ⟨x', hx', hk', hv'⟩ := hb.node_of_mem (e := (n, k', v')) (by simp)
  obtain rfl := Option.some.inj (hx.symm.trans hx')
  have hw : Within index (index k) s (s.setNode n {x with value := v}) :=
    hb.within rfl (fun _ _ => rfl) fun m y hy hm =>
      (Function.update_of_ne (hm (n, k', v') (by simp)) _ _).trans hy
  have hchain : Chain (s.setNode n {x with value := v}) (s.head (index k)) (pre ++ (n, k', v) :: post) :=
    Segment.store hb.chain hb.nodup hx (Prod.ext hk' rfl) rfl
  refine ⟨h.step hw (pre ++ (n, k', v) :: post) (fun m hm => ?_) ⟨hchain, ?_, ?_, ?_⟩
    (fun j hj => ?_) fun j hj => ?_, hw⟩
  · have hmn : m ≠ n := fun hmn => by
      rw [← hmn, h.unused m hm] at hx
      cases hx
    exact (Function.update_of_ne hmn _ _).trans (h.unused m hm)
  · simpa using hb.nodup
  · have hown := hb.own
    simp only [List.forall_mem_append, List.forall_mem_cons] at hown ⊢
    exact hown
  · have hd := hb.distinct
    simp only [List.pairwise_append, List.pairwise_cons, List.forall_mem_cons] at hd ⊢
    exact hd
  · rw [lookup_store (v := v') hpre hk, h.lookup_eq hb hj]
  · rw [if_neg fun hk => hj (hindex j hk)]

/-- Taking a node out of its chain, whatever becomes of the node itself. -/
theorem Bucket.relink (h : Bucket index s b (pre ++ (n, k', v') :: post)) (hx : s.node n = some x) :
    ∃ s₁, s.relink b (pre.getLast?.map Prod.fst) x.next = some s₁ ∧ s₁.size = s.size ∧
      s₁.mutex = s.mutex ∧ (∀ c, c ≠ b → s₁.head c = s.head c) ∧
      (∀ m, (∀ e ∈ pre, m ≠ e.1) → s₁.node m = s.node m) ∧
      ∀ L, Chain (s₁.dispose L n) (s₁.head b) (pre ++ post) := by
  obtain ⟨hpren, hpost, _⟩ := fst_ne_of_nodup h.nodup
  rcases List.eq_nil_or_concat pre with rfl | ⟨pre, ⟨p, kp, vp⟩, rfl⟩
  · refine ⟨s.setHead b x.next, rfl, rfl, rfl, fun c hc => Function.update_of_ne hc _ _, fun _ _ => rfl,
      fun L => ?_⟩
    obtain ⟨x', hx', _, _, hrest⟩ := Segment.split h.chain
    obtain rfl := Option.some.inj (hx.symm.trans hx')
    rw [show (s.setHead b x.next).head b = x.next from Function.update_self ..]
    exact hrest.congr fun m a hm => Store.dispose_other (hpost m a hm)
  · rw [List.concat_eq_append, List.append_assoc] at h
    obtain ⟨y, hy, hky, hvy⟩ := h.node_of_mem (e := (p, kp, vp)) (by simp)
    obtain ⟨hpre, hpost', _⟩ := fst_ne_of_nodup h.nodup
    have hnp : n ≠ p := hpost' n (k', v') (by simp)
    refine ⟨s.setNode p {y with next := x.next}, by simp [Store.relink, hy], rfl, rfl, fun _ _ => rfl,
      fun m hm => Function.update_of_ne (hm (p, kp, vp) (by simp)) _ _, fun L => ?_⟩
    rw [List.concat_eq_append, List.append_assoc]
    refine Segment.unlink (y := {y with next := x.next}) h.chain hx ?_ (Prod.ext hky hvy) rfl fun m c hm => ?_
    · rw [Store.dispose_other hnp.symm]
      exact Function.update_self ..
    · rcases List.mem_append.mp hm with hm | hm
      · rw [Store.dispose_other (hpren m c (by simp [hm]))]
        exact Function.update_of_ne (hpre m c hm) _ _
      · rw [Store.dispose_other (hpost m c hm)]
        exact Function.update_of_ne (hpost' m c (List.mem_cons_of_mem _ hm)) _ _

/-- `del` of a key that is there. -/
theorem MapInv.del [EquivBEq K] (L : Lang) (h : MapInv index s M)
    (hb : Bucket index s (index k) (pre ++ (n, k', v') :: post)) (hpre : Absent k pre) (hk : (k' == k) = true)
    (hx : s.node n = some x) (hindex : ∀ j, (k == j) = true → index j = index k) :
    ∃ s₁, s.relink (index k) (pre.getLast?.map Prod.fst) x.next = some s₁ ∧
      MapInv index (s₁.dispose L n) (fun j => if k == j then none else M j) ∧
      Within index (index k) s (s₁.dispose L n) ∧ (s₁.dispose L n).mutex = s.mutex ∧
      (L = .java → (s₁.dispose L n).node n = some x) := by
  obtain ⟨hpren, _, _⟩ := fst_ne_of_nodup hb.nodup
  obtain ⟨s₁, hs₁, hsize, hmutex, hhead, hnode, hchain⟩ := hb.relink hx
  have hother : ∀ m, (∀ e ∈ pre ++ (n, k', v') :: post, m ≠ e.1) → (s₁.dispose L n).node m = s.node m := by
    intro m hm
    rw [Store.dispose_other (hm (n, k', v') (by simp)), hnode m fun e he => hm e (List.mem_append_left _ he)]
  have hw : Within index (index k) s (s₁.dispose L n) :=
    hb.within (by rw [Store.dispose_mutex, hmutex]) (by simpa using hhead) fun m y hy hm =>
      (hother m hm).trans hy
  have hsub : (pre ++ post).Sublist (pre ++ (n, k', v') :: post) :=
    List.Sublist.append_left (List.sublist_cons_self ..) _
  have hpost : Absent k post := fun e he => Bool.of_not_eq_true fun hek => by
    have hd := ((List.pairwise_append.mp hb.distinct).2.1)
    have := (List.pairwise_cons.mp hd).1 e he
    rw [PartialEquivBEq.trans hk (PartialEquivBEq.symm hek)] at this
    cases this
  refine ⟨s₁, hs₁, h.step hw (pre ++ post) (fun m hm => ?_) ⟨?_, ?_, ?_, ?_⟩ (fun j hj => ?_) fun j hj => ?_,
    hw, by rw [Store.dispose_mutex, hmutex], ?_⟩
  · have hm : s.size ≤ m := by simpa [hsize] using hm
    rw [hother m fun e he hme => ?_, h.unused m hm]
    obtain ⟨y, hy, _⟩ := hb.node_of_mem he
    rw [← hme, h.unused m hm] at hy
    cases hy
  · rw [Store.dispose_head]
    exact hchain L
  · exact hb.nodup.sublist (hsub.map _)
  · exact fun e he => hb.own e (hsub.subset he)
  · exact hb.distinct.sublist hsub
  · rw [lookup_unlink (n := n) (v := v') hpre hpost hk, h.lookup_eq hb hj]
  · rw [if_neg fun hk => hj (hindex j hk)]
  · rintro rfl
    rw [← hx]
    exact hnode n fun e he hne => hpren e.1 e.2 he hne.symm

/-! ### Calls in a bucket -/

variable {me u : τ} {prev : Option NodeId} {c : NodeId}

/-- A call for `k` stands at a node of the bucket, and `k` is not in front of it. -/
structure Cursor (index : K → Int) (s : Store τ K V) (me : τ) (k : K) (prev : Option NodeId) (c : NodeId)
    (k' : K) (v' : V) : Prop where
  held : s.mutex (index k) = some me
  chain : ∃ pre post, Bucket index s (index k) (pre ++ (c, k', v') :: post) ∧ Absent k pre ∧
    prev = pre.getLast?.map Prod.fst

theorem Cursor.stable {index : K → Int} (h : Cursor index s me k prev c k' v') (hne : me ≠ u)
    (he : Effect index u s s') : Cursor index s' me k prev c k' v' where
  held := (he.keeps hne h.held).1
  chain := by
    obtain ⟨pre, post, hb, h'⟩ := h.chain
    exact ⟨pre, post, (he.keeps hne h.held).2.1 _ hb, h'⟩

theorem Cursor.node {index : K → Int} (h : Cursor index s me k prev c k' v') :
    ∃ x, s.node c = some x ∧ x.key = k' ∧ x.value = v' := by
  obtain ⟨pre, post, hb, _⟩ := h.chain
  exact hb.node_of_mem (e := (c, k', v')) (by simp)

/-- The map at the key the cursor has found. -/
theorem Cursor.lookup_eq {index : K → Int} (h : Cursor index s me k prev c k' v') (hinv : MapInv index s M)
    (hk : (k' == k) = true) : M k = some v' := by
  obtain ⟨pre, post, hb, hpre, _⟩ := h.chain
  rw [hinv.lookup_eq hb rfl, lookup_hit hpre hk]

/-- No mutex is held. -/
def Free (s : Store τ K V) : Prop := ∀ b, s.mutex b = none

/-- No mutex but that of bucket `b` is held. -/
def FreeBut (b : Int) (s : Store τ K V) : Prop := ∀ c, c ≠ b → s.mutex c = none

end ParSweet.Maps
