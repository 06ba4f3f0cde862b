import ParSweet.Maps.Bucket
import ParSweet.Sets.MathematicalSet

/-! `LockHashSet` of the C++ suite: a mutex and an unsorted chain of nodes for every bucket,
as in the hash map, but a node has no value beside its `val`. Its chains are therefore
those of a map that takes every element to the node's own (`asMap`), and what is known of
the map's buckets is known of these. -/
namespace ParSweet.Sets.LockHashSet
open Concurrent
open Maps (Entry Bucket MapInv Cursor Absent Free FreeBut)

variable {τ T : Type*} [BEq T]

/-! ### The index -/

/-- `hash % (NumBuckets - 1)`, on `usize`; dividing by zero is not defined. -/
def indexOfHash (NumBuckets : BitVec 64) (hash : Int) : Option Int :=
  if NumBuckets - 1 = 0 then none else some (hash % (NumBuckets - 1).toNat)

def getBucketIndex (H : Hash .cpp T) (NumBuckets : BitVec 64) (val : T) : Option Int :=
  indexOfHash NumBuckets (H.hash val)

/-- The bucket of an element whose index is defined. -/
def bucketOf (H : Hash .cpp T) (NumBuckets : BitVec 64) (val : T) : Int :=
  (getBucketIndex H NumBuckets val).getD 0

variable {H : Hash .cpp T} {NumBuckets : BitVec 64}

theorem indexOfHash_one (hash : Int) : indexOfHash 1 hash = none := rfl

theorem indexOfHash_eq (hN : 2 ≤ NumBuckets.toNat) (hash : Int) :
    indexOfHash NumBuckets hash = some (hash % (NumBuckets.toNat - 1 : ℕ)) := by
  have hsub : (NumBuckets - 1).toNat = NumBuckets.toNat - 1 := by bv_omega
  have hne : NumBuckets - 1 ≠ 0 := fun h => by
    rw [h] at hsub
    simp at hsub
    omega
  rw [indexOfHash, if_neg hne, hsub]

/-- With two buckets or more every index is defined, and the last bucket is never selected. -/
theorem indexOfHash_lt (hN : 2 ≤ NumBuckets.toNat) (hash : Int) :
    ∃ i, indexOfHash NumBuckets hash = some i ∧ 0 ≤ i ∧ i < NumBuckets.toNat - 1 := by
  have h₀ := Int.emod_nonneg hash (b := (NumBuckets.toNat - 1 : ℕ)) (by omega)
  have h₁ := Int.emod_lt_of_pos hash (b := (NumBuckets.toNat - 1 : ℕ)) (by omega)
  exact ⟨_, indexOfHash_eq hN hash, h₀, by omega⟩

/-- Every other bucket is. -/
theorem indexOfHash_self (hN : 2 ≤ NumBuckets.toNat) {i : ℕ} (hi : i < NumBuckets.toNat - 1) :
    indexOfHash NumBuckets i = some (i : Int) := by
  rw [indexOfHash_eq hN, Int.emod_eq_of_lt (Int.natCast_nonneg i) (by omega)]

theorem getBucketIndex_isSome (hN : 2 ≤ NumBuckets.toNat) (val : T) :
    ∃ i, getBucketIndex H NumBuckets val = some i := by
  obtain ⟨i, hi, _⟩ := indexOfHash_lt hN (H.hash val)
  exact ⟨i, hi⟩

theorem bucketOf_lt (hN : 2 ≤ NumBuckets.toNat) (val : T) : bucketOf H NumBuckets val < NumBuckets.toNat := by
  obtain ⟨i, hi, _, hlt⟩ := indexOfHash_lt hN (H.hash val)
  rw [bucketOf, getBucketIndex, hi, Option.getD_some]
  omega

/-- Equal elements have one bucket. -/
theorem bucketOf_eq (t u : T) (h : (t == u) = true) : bucketOf H NumBuckets u = bucketOf H NumBuckets t := by
  rw [bucketOf, bucketOf, getBucketIndex, getBucketIndex, H.respects t u h]

/-! ### The code -/

/-- Where a call stands. -/
inductive Pc (T : Type*) where
  /-- `getBucketIndex(val)` -/
  | getIndex
  /-- `getNodeHead(index, headLock)` -/
  | lock
  /-- `h = nodeHead->head` -/
  | readHead
  /-- `nodeHead->head = std::make_unique<MyNode>(val)`, in `add`. -/
  | storeHead
  /-- `current->val == val` -/
  | visit (prev : Option NodeId) (current : NodeId)
  /-- `current->next` -/
  | advance (current : NodeId)
  /-- `current->next = std::make_unique<MyNode>(val)`, in `add`. -/
  | storeNext (current : NodeId)
  /-- `return current->val`, in `getEqual`. -/
  | readVal (current : NodeId)
  /-- `prev->next = current->next`, or `nodeHead->head = current->next`, in `remove`. -/
  | unlink (prev : Option NodeId) (current : NodeId)
  | unlock (r : SetRes T)
  | returned (r : SetRes T)
  /-- The index is not defined or out of bounds, or a null pointer has been dereferenced. -/
  | fault

/-- The local state of a call. -/
structure Local (T : Type*) where
  op : SetOp T
  pc : Pc T

/-- One atomic step of a call. The store is the hash map's; its nodes have a `val` for a key,
and no value. -/
def step (H : Hash .cpp T) (NumBuckets : BitVec 64) (me : τ) (s : Maps.Store τ T Unit) (l : Local T)
    (_ : Unit) : Option (Maps.Store τ T Unit × Local T) :=
  let goto (s : Maps.Store τ T Unit) (pc : Pc T) : Option (Maps.Store τ T Unit × Local T) :=
    some (s, {l with pc := pc})
  let val := l.op.element
  let index := bucketOf H NumBuckets val
  match l.pc with
  | .getIndex =>
    match getBucketIndex H NumBuckets val with
    | none => goto s .fault
    | some _ => goto s .lock
  | .lock =>
    if index < NumBuckets.toNat then
      match s.tryAcquire me index with
      | some s' => goto s' .readHead
      | none => none
    else goto s .fault
  | .readHead =>
    match s.head index with
    | some h => goto s (.visit none h)
    | none =>
      match l.op with
      | .add _ => goto s .storeHead
      | op => goto s (.unlock (op.answer none))
  | .storeHead => goto ((s.create val ()).setHead index (some s.size)) (.unlock (.flag true))
  | .visit prev current =>
    match s.node current with
    | none => goto s .fault
    | some x =>
      if x.key == val then
        match l.op with
        | .add _ => goto s (.unlock (.flag false))
        | .remove _ => goto s (.unlink prev current)
        | .contains _ => goto s (.unlock (.flag true))
        | .getEqual _ => goto s (.readVal current)
      else goto s (.advance current)
  | .advance current =>
    match s.node current with
    | none => goto s .fault
    | some x =>
      match x.next with
      | some n => goto s (.visit (some current) n)
      | none =>
        match l.op with
        | .add _ => goto s (.storeNext current)
        | op => goto s (.unlock (op.answer none))
  | .storeNext current =>
    match s.node current with
    | none => goto s .fault
    | some x => goto ((s.create val ()).setNode current {x with next := some s.size}) (.unlock (.flag true))
  | .readVal current =>
    match s.node current with
    | none => goto s .fault
    | some x => goto s (.unlock (.found (some x.key)))
  | .unlink prev current =>
    match s.node current with
    | none => goto s .fault
    | some x =>
      match s.relink index prev x.next with
      | none => goto s .fault
      | some s' => goto (s'.dispose .cpp current) (.unlock (.flag true))
  | .unlock r => goto (s.release index) (.returned r)
  | .returned _ => none
  | .fault => none

/-- The set as an object: any thread may call any operation at any time. -/
def implementation (τ : Type*) (H : Hash .cpp T) (NumBuckets : BitVec 64) :
    Implementation τ (SetOp T) (SetRes T) (Maps.Store τ T Unit) (Local T) Unit where
  store := .initial
  start := fun op => ⟨op, .getIndex⟩
  step := step H NumBuckets
  result := fun l =>
    match l.pc with
    | .returned r => some r
    | _ => none

/-! ### The chains as those of a map -/

section AsMap
omit [BEq T]

/-- Every node carries its `val` as a value, too. -/
def withValue (x : Maps.Node T Unit) : Maps.Node T T := ⟨x.key, x.key, x.next⟩

def asMap (s : Maps.Store τ T Unit) : Maps.Store τ T T :=
  ⟨s.size, fun n => (s.node n).map withValue, s.head, s.mutex⟩

variable {s s' : Maps.Store τ T Unit} {me : τ} {prev : Option NodeId} {c : NodeId} {b : Int}
  {x : Maps.Node T Unit}

theorem asMap_node (hx : s.node c = some x) : (asMap s).node c = some (withValue x) := by
  simp [asMap, hx]

theorem node_of_asMap {y : Maps.Node T T} (hy : (asMap s).node c = some y) :
    ∃ x, s.node c = some x ∧ y = withValue x := by
  obtain ⟨x, hx, hxy⟩ := Option.map_eq_some_iff.mp hy
  exact ⟨x, hx, hxy.symm⟩

theorem asMap_tryAcquire (h : s.tryAcquire me b = some s') : (asMap s).tryAcquire me b = some (asMap s') := by
  cases hm : s.mutex b with
  | some t => simp [Maps.Store.tryAcquire, hm] at h
  | none =>
    simp only [Maps.Store.tryAcquire, hm, Option.some.injEq] at h
    subst h
    simp [Maps.Store.tryAcquire, asMap, hm]

/-- Where one node is changed. -/
theorem asMap_update (s : Maps.Store τ T Unit) (n : NodeId) (o : Option (Maps.Node T Unit)) :
    (fun m => (Function.update s.node n o m).map withValue) =
      Function.update (asMap s).node n (o.map withValue) := by
  funext m
  by_cases hm : m = n
  · subst hm
    simp
  · simp [hm, asMap]

theorem asMap_create (s : Maps.Store τ T Unit) (t : T) : asMap (s.create t ()) = (asMap s).create t t := by
  exact congrArg (fun node => (⟨s.size + 1, node, s.head, s.mutex⟩ : Maps.Store τ T T))
    (asMap_update s s.size (some ⟨t, (), none⟩))

theorem asMap_setNode (s : Maps.Store τ T Unit) (n : NodeId) (x : Maps.Node T Unit) :
    asMap (s.setNode n x) = (asMap s).setNode n (withValue x) := by
  exact congrArg (fun node => (⟨s.size, node, s.head, s.mutex⟩ : Maps.Store τ T T))
    (asMap_update s n (some x))

theorem asMap_dispose (s : Maps.Store τ T Unit) (n : NodeId) :
    asMap (s.dispose .cpp n) = (asMap s).dispose .cpp n := by
  exact congrArg (fun node => (⟨s.size, node, s.head, s.mutex⟩ : Maps.Store τ T T)) (asMap_update s n none)

/-- What is relinked in the map is relinked in the set. -/
theorem relink_of_asMap {s₁ : Maps.Store τ T T} {o : Option NodeId} (h : (asMap s).relink b prev o = some s₁) :
    ∃ s', s.relink b prev o = some s' ∧ s₁ = asMap s' := by
  cases prev with
  | none => exact ⟨s.setHead b o, rfl, (Option.some.inj h).symm⟩
  | some p =>
    obtain ⟨y, hy, rfl⟩ := Option.map_eq_some_iff.mp h
    obtain ⟨x, hx, rfl⟩ := node_of_asMap hy
    refine ⟨s.setNode p {x with next := o}, by simp [Maps.Store.relink, hx], ?_⟩
    rw [asMap_setNode]
    rfl

end AsMap

/-- The node a call stands at carries its `val`. -/
theorem cursor_node {s : Maps.Store τ T Unit} {me : τ} {index : T → Int} {prev : Option NodeId} {c : NodeId}
    {t k' v' : T} (h : Cursor index (asMap s) me t prev c k' v') :
    ∃ x, s.node c = some x ∧ x.key = k' ∧ x.key = v' := by
  obtain ⟨y, hy, hk, hv⟩ := h.node
  obtain ⟨x, hx, rfl⟩ := node_of_asMap hy
  exact ⟨x, hx, hk, hv⟩

/-! ### The outline -/

variable {s s' : Maps.Store τ T Unit} {M : T → Option T} {me u : τ} {op : SetOp T} {prev : Option NodeId}
  {c : NodeId} {l : List (Entry T T)}

/-- What a call knows before its operation has taken effect. -/
def PendingAt (H : Hash .cpp T) (NumBuckets : BitVec 64) (s : Maps.Store τ T Unit) (me : τ) (op : SetOp T) :
    Pc T → Prop :=
  let index := bucketOf H NumBuckets
  let t := op.element
  fun
  | .getIndex => True
  | .lock => True
  | .readHead => s.mutex (index t) = some me
  | .storeHead => op = .add t ∧ s.mutex (index t) = some me ∧ Bucket index (asMap s) (index t) []
  | .visit prev c => ∃ k' v', Cursor index (asMap s) me t prev c k' v'
  | .advance c => ∃ prev k' v', Cursor index (asMap s) me t prev c k' v' ∧ (k' == t) = false
  | .storeNext c => op = .add t ∧ s.mutex (index t) = some me ∧ ∃ pre k' v',
      Bucket index (asMap s) (index t) (pre ++ [(c, k', v')]) ∧ Absent t (pre ++ [(c, k', v')])
  | .readVal c => op = .getEqual t ∧ ∃ prev k' v', Cursor index (asMap s) me t prev c k' v' ∧ (k' == t) = true
  | .unlink prev c => op = .remove t ∧ ∃ k' v', Cursor index (asMap s) me t prev c k' v' ∧ (k' == t) = true
  | .fault => NumBuckets.toNat < 2
  | _ => False

/-- What a call knows once its operation has taken effect with answer `r`. -/
def DoneAt (H : Hash .cpp T) (NumBuckets : BitVec 64) (s : Maps.Store τ T Unit) (me : τ) (op : SetOp T)
    (r : SetRes T) : Pc T → Prop
  | .unlock r' => r' = r ∧ s.mutex (bucketOf H NumBuckets op.element) = some me
  | .returned r' => r' = r
  | _ => False

section Stable
variable (hne : me ≠ u) (he : Maps.Effect (bucketOf H NumBuckets) u (asMap s) (asMap s'))
include hne he

theorem pending_stable {pc : Pc T} (h : PendingAt H NumBuckets s me op pc) :
    PendingAt H NumBuckets s' me op pc := by
  have hkeeps : s.mutex (bucketOf H NumBuckets op.element) = some me → _ := fun hm => he.keeps hne hm
  cases pc with
  | getIndex => trivial
  | lock => trivial
  | readHead => exact (hkeeps h).1
  | storeHead => exact ⟨h.1, (hkeeps h.2.1).1, (hkeeps h.2.1).2.1 _ h.2.2⟩
  | visit prev c =>
    obtain ⟨k', v', hc⟩ := h
    exact ⟨k', v', hc.stable hne he⟩
  | advance c =>
    obtain ⟨prev, k', v', hc, hk⟩ := h
    exact ⟨prev, k', v', hc.stable hne he, hk⟩
  | storeNext c =>
    obtain ⟨hop, hm, pre, k', v', hb, hk⟩ := h
    exact ⟨hop, (hkeeps hm).1, pre, k', v', (hkeeps hm).2.1 _ hb, hk⟩
  | readVal c =>
    obtain ⟨hop, prev, k', v', hc, hk⟩ := h
    exact ⟨hop, prev, k', v', hc.stable hne he, hk⟩
  | unlink prev c =>
    obtain ⟨hop, k', v', hc, hk⟩ := h
    exact ⟨hop, k', v', hc.stable hne he, hk⟩
  | fault => exact h
  | _ => exact h.elim

theorem done_stable {pc : Pc T} {r : SetRes T} (h : DoneAt H NumBuckets s me op r pc) :
    DoneAt H NumBuckets s' me op r pc := by
  cases pc with
  | unlock r' => exact ⟨h.1, (he.keeps hne h.2).1⟩
  | returned r' => exact h
  | _ => exact h.elim

end Stable

/-! ### The steps -/

section Steps
variable [EquivBEq T] (hinv : MapInv (bucketOf H NumBuckets) (asMap s) M)
include hinv

/-- An operation that finds its element absent, and is no `add`, changes nothing. -/
theorem take_absent (hb : Bucket (bucketOf H NumBuckets) (asMap s) (bucketOf H NumBuckets op.element) l)
    (hl : Absent op.element l) (hop : op ≠ .add op.element) : oneOfEach op M = (op.answer none, M) := by
  have hM : M op.element = none := by rw [hinv.lookup_eq hb rfl, Maps.lookup_eq_none.mpr hl]
  cases op with
  | add t => exact absurd rfl hop
  | remove t =>
    rw [oneOfEach, hM, Prod.mk.injEq]
    refine ⟨rfl, funext fun j => ?_⟩
    by_cases hj : (t == j) = true
    · rw [if_pos hj, hinv.lookup_eq hb (bucketOf_eq t j hj), Maps.lookup_eq_none.mpr (hl.congr hj)]
    · rw [if_neg hj]
  | contains t => rw [oneOfEach, hM]
  | getEqual t => rw [oneOfEach, hM]

/-- What a step of a call comes to whose operation had not taken effect. -/
abbrev Progress (H : Hash .cpp T) (NumBuckets : BitVec 64) (me : τ) (op : SetOp T) (M : T → Option T)
    (s s' : Maps.Store τ T Unit) (l' : Local T) : Prop :=
  Maps.Effect (bucketOf H NumBuckets) me (asMap s) (asMap s') ∧ l'.op = op ∧
    ((MapInv (bucketOf H NumBuckets) (asMap s') M ∧ PendingAt H NumBuckets s' me op l'.pc) ∨
      ∃ r M', oneOfEach op M = (r, M') ∧ MapInv (bucketOf H NumBuckets) (asMap s') M' ∧
        DoneAt H NumBuckets s' me op r l'.pc)

/-- The head of the bucket is loaded: it is empty, or the call goes on to its first node. -/
theorem readHead_step {l' : Local T} (h : PendingAt H NumBuckets s me op .readHead)
    (hstep : step H NumBuckets me s ⟨op, .readHead⟩ () = some (s', l')) :
    Progress H NumBuckets me op M s s' l' := by
  have hm : s.mutex (bucketOf H NumBuckets op.element) = some me := h
  obtain ⟨l, hb, _⟩ := hinv.bucket (bucketOf H NumBuckets op.element)
  cases l with
  | nil =>
    have hhead : s.head (bucketOf H NumBuckets op.element) = none := hb.chain
    cases op with
    | add t =>
      simp only [step, hhead, Option.some.injEq, Prod.mk.injEq] at hstep
      obtain ⟨rfl, rfl⟩ := hstep
      exact ⟨.same, rfl, .inl ⟨hinv, rfl, hm, hb⟩⟩
    | _ =>
      simp only [step, hhead, Option.some.injEq, Prod.mk.injEq] at hstep
      obtain ⟨rfl, rfl⟩ := hstep
      exact ⟨.same, rfl, .inr ⟨_, _, take_absent hinv hb (by simp [Absent]) (by simp), hinv, rfl, hm⟩⟩
  | cons e l =>
    obtain ⟨n, k', v'⟩ := e
    have hhead : s.head (bucketOf H NumBuckets op.element) = some n := hb.chain.1
    simp only [step, hhead, Option.some.injEq, Prod.mk.injEq] at hstep
    obtain ⟨rfl, rfl⟩ := hstep
    exact ⟨.same, rfl, .inl ⟨hinv, k', v', hm, [], l, hb, by simp [Absent], rfl⟩⟩

omit [EquivBEq T] in
/-- A node is visited: its `val` is equal, and what is done about it depends on the operation, or
it is not. -/
theorem visit_step {l' : Local T} (h : PendingAt H NumBuckets s me op (.visit prev c))
    (hstep : step H NumBuckets me s ⟨op, .visit prev c⟩ () = some (s', l')) :
    Progress H NumBuckets me op M s s' l' := by
  obtain ⟨k', v', hc⟩ := h
  obtain ⟨x, hx, rfl, rfl⟩ := cursor_node hc
  by_cases hk : (x.key == op.element) = true
  · have hM := hc.lookup_eq hinv hk
    cases op with
    | add t =>
      simp only [step, hx, if_pos hk, Option.some.injEq, Prod.mk.injEq] at hstep
      obtain ⟨rfl, rfl⟩ := hstep
      exact ⟨.same, rfl, .inr ⟨_, _, oneOfEach_present hM (by simp), hinv, rfl, hc.held⟩⟩
    | remove t =>
      simp only [step, hx, if_pos hk, Option.some.injEq, Prod.mk.injEq] at hstep
      obtain ⟨rfl, rfl⟩ := hstep
      exact ⟨.same, rfl, .inl ⟨hinv, rfl, _, _, hc, hk⟩⟩
    | contains t =>
      simp only [step, hx, if_pos hk, Option.some.injEq, Prod.mk.injEq] at hstep
      obtain ⟨rfl, rfl⟩ := hstep
      exact ⟨.same, rfl, .inr ⟨_, _, oneOfEach_present hM (by simp), hinv, rfl, hc.held⟩⟩
    | getEqual t =>
      simp only [step, hx, if_pos hk, Option.some.injEq, Prod.mk.injEq] at hstep
      obtain ⟨rfl, rfl⟩ := hstep
      exact ⟨.same, rfl, .inl ⟨hinv, rfl, _, _, _, hc, hk⟩⟩
  · simp only [step, hx, if_neg hk, Option.some.injEq, Prod.mk.injEq] at hstep
    obtain ⟨rfl, rfl⟩ := hstep
    exact ⟨.same, rfl, .inl ⟨hinv, _, _, _, hc, Bool.of_not_eq_true hk⟩⟩

/-- The next node is loaded: there is one, or the element is absent. -/
theorem advance_step {l' : Local T} (h : PendingAt H NumBuckets s me op (.advance c))
    (hstep : step H NumBuckets me s ⟨op, .advance c⟩ () = some (s', l')) :
    Progress H NumBuckets me op M s s' l' := by
  obtain ⟨prev, k', v', hc, hk⟩ := h
  obtain ⟨x, hx, _⟩ := cursor_node hc
  obtain ⟨pre, post, hb, hpre, _⟩ := hc.chain
  obtain ⟨y, hy, _, _, hrest⟩ := Segment.split hb.chain
  obtain rfl : withValue x = y := Option.some.inj ((asMap_node hx).symm.trans hy)
  have hpre' : Absent op.element (pre ++ [(c, k', v')]) := by
    simpa [Absent, or_imp, forall_and] using ⟨fun n k v he => hpre (n, k, v) he, hk⟩
  cases post with
  | nil =>
    have hnext : x.next = none := hrest
    cases op with
    | add t =>
      simp only [step, hx, hnext, Option.some.injEq, Prod.mk.injEq] at hstep
      obtain ⟨rfl, rfl⟩ := hstep
      exact ⟨.same, rfl, .inl ⟨hinv, rfl, hc.held, pre, k', v', hb, hpre'⟩⟩
    | _ =>
      simp only [step, hx, hnext, Option.some.injEq, Prod.mk.injEq] at hstep
      obtain ⟨rfl, rfl⟩ := hstep
      exact ⟨.same, rfl, .inr ⟨_, _, take_absent hinv hb hpre' (by simp), hinv, rfl, hc.held⟩⟩
  | cons e post =>
    obtain ⟨n, k₁, v₁⟩ := e
    have hnext : x.next = some n := hrest.1
    simp only [step, hx, hnext, Option.some.injEq, Prod.mk.injEq] at hstep
    obtain ⟨rfl, rfl⟩ := hstep
    refine ⟨.same, rfl, .inl ⟨hinv, k₁, v₁, hc.held, pre ++ [(c, k', v')], post, ?_, hpre', by simp⟩⟩
    simpa using hb

/-- One step of a call whose operation has not taken effect. -/
theorem pending_step {pc : Pc T} {l' : Local T} (h : PendingAt H NumBuckets s me op pc)
    (hstep : step H NumBuckets me s ⟨op, pc⟩ () = some (s', l')) : Progress H NumBuckets me op M s s' l' := by
  cases pc with
  | getIndex =>
    cases hi : getBucketIndex H NumBuckets op.element with
    | none =>
      simp only [step, hi, Option.some.injEq, Prod.mk.injEq] at hstep
      obtain ⟨rfl, rfl⟩ := hstep
      refine ⟨.same, rfl, .inl ⟨hinv, Nat.lt_of_not_le fun hN => ?_⟩⟩
      obtain ⟨i, hi'⟩ := getBucketIndex_isSome (H := H) hN op.element
      rw [hi] at hi'
      cases hi'
    | some i =>
      simp only [step, hi, Option.some.injEq, Prod.mk.injEq] at hstep
      obtain ⟨rfl, rfl⟩ := hstep
      exact ⟨.same, rfl, .inl ⟨hinv, trivial⟩⟩
  | lock =>
    by_cases hi : bucketOf H NumBuckets op.element < NumBuckets.toNat
    · simp only [step, if_pos hi] at hstep
      cases ha : s.tryAcquire me (bucketOf H NumBuckets op.element) with
      | none => simp [ha] at hstep
      | some s₁ =>
        simp only [ha, Option.some.injEq, Prod.mk.injEq] at hstep
        obtain ⟨rfl, rfl⟩ := hstep
        obtain ⟨he, hm, hsize, hhead, hnode⟩ := Maps.Effect.acquire (asMap_tryAcquire ha)
        exact ⟨he, rfl, .inl ⟨hinv.congr hsize hhead hnode, hm⟩⟩
    · simp only [step, if_neg hi, Option.some.injEq, Prod.mk.injEq] at hstep
      obtain ⟨rfl, rfl⟩ := hstep
      exact ⟨.same, rfl, .inl ⟨hinv, Nat.lt_of_not_le fun hN => hi (bucketOf_lt hN op.element)⟩⟩
  | readHead => exact readHead_step hinv h hstep
  | storeHead =>
    obtain ⟨hop, hm, hb⟩ := h
    cases op with
    | add t =>
      have hM : M t = none := hinv.lookup_eq hb rfl
      simp only [step, Option.some.injEq, Prod.mk.injEq] at hstep
      obtain ⟨rfl, rfl⟩ := hstep
      obtain ⟨hinv', hw⟩ := hinv.put_first (v := t) hb (bucketOf_eq t)
      have hs : asMap ((s.create t ()).setHead (bucketOf H NumBuckets t) (some s.size)) =
          ((asMap s).create t t).setHead (bucketOf H NumBuckets t) (some s.size) := by
        rw [← asMap_create]
        rfl
      exact ⟨.held hm (hs ▸ hw), rfl, .inr ⟨_, _, oneOfEach_add hM, hs ▸ hinv', rfl, hm⟩⟩
    | _ => cases hop
  | visit prev c => exact visit_step hinv h hstep
  | advance c => exact advance_step hinv h hstep
  | storeNext c =>
    obtain ⟨hop, hm, pre, k', v', hb, hpre⟩ := h
    cases op with
    | add t =>
      have hM : M t = none := (hinv.lookup_eq hb rfl).trans (Maps.lookup_eq_none.mpr hpre)
      obtain ⟨y, hy, _⟩ := hb.node_of_mem (e := (c, k', v')) (by simp)
      obtain ⟨x, hx, rfl⟩ := node_of_asMap hy
      simp only [step, hx, Option.some.injEq, Prod.mk.injEq] at hstep
      obtain ⟨rfl, rfl⟩ := hstep
      obtain ⟨hinv', hw⟩ := hinv.put_last (v := t) hb hpre hy (bucketOf_eq t)
      have hs : asMap ((s.create t ()).setNode c {x with next := some s.size}) =
          ((asMap s).create t t).setNode c {withValue x with next := some s.size} := by
        rw [asMap_setNode, asMap_create]
        rfl
      exact ⟨.held hm (hs ▸ hw), rfl, .inr ⟨_, _, oneOfEach_add hM, hs ▸ hinv', rfl, hm⟩⟩
    | _ => cases hop
  | readVal c =>
    obtain ⟨hop, prev, k', v', hc, hk⟩ := h
    cases op with
    | getEqual t =>
      have hM := hc.lookup_eq hinv hk
      obtain ⟨x, hx, _, hv⟩ := cursor_node hc
      simp only [step, hx, Option.some.injEq, Prod.mk.injEq] at hstep
      obtain ⟨rfl, rfl⟩ := hstep
      refine ⟨.same, rfl, .inr ⟨_, _, oneOfEach_present hM (by simp), hinv, ?_, hc.held⟩⟩
      rw [hv]
      rfl
    | _ => cases hop
  | unlink prev c =>
    obtain ⟨hop, k', v', hc, hk⟩ := h
    cases op with
    | remove t =>
      have hM : M t = some v' := hc.lookup_eq hinv hk
      obtain ⟨x, hx, _⟩ := cursor_node hc
      obtain ⟨pre, post, hb, hpre, rfl⟩ := hc.chain
      obtain ⟨s₁, hs₁, hinv', hw, hmutex, _⟩ := hinv.del .cpp hb hpre hk (asMap_node hx) (bucketOf_eq t)
      obtain ⟨s₂, hs₂, rfl⟩ := relink_of_asMap hs₁
      have hs₂' : s.relink (bucketOf H NumBuckets (SetOp.remove t).element) (pre.getLast?.map Prod.fst)
          x.next = some s₂ := hs₂
      simp only [step, hx, hs₂', Option.some.injEq, Prod.mk.injEq] at hstep
      obtain ⟨rfl, rfl⟩ := hstep
      have hheld : (asMap (s₂.dispose .cpp c)).mutex (bucketOf H NumBuckets t) = some me := by
        rw [asMap_dispose, hmutex]
        exact hc.held
      refine ⟨.held hc.held (asMap_dispose s₂ c ▸ hw), rfl, .inr ⟨_, _, ?_, asMap_dispose s₂ c ▸ hinv', rfl,
        hheld⟩⟩
      rw [oneOfEach, show M (SetOp.remove t).element = some v' from hM]
      rfl
    | _ => cases hop
  | fault => simp [step] at hstep
  | _ => exact h.elim

end Steps

/-- One step of a call whose operation has taken effect. -/
theorem done_step {pc : Pc T} {r : SetRes T} {l' : Local T}
    (hinv : MapInv (bucketOf H NumBuckets) (asMap s) M) (h : DoneAt H NumBuckets s me op r pc)
    (hstep : step H NumBuckets me s ⟨op, pc⟩ () = some (s', l')) :
    Maps.Effect (bucketOf H NumBuckets) me (asMap s) (asMap s') ∧ l'.op = op ∧
      MapInv (bucketOf H NumBuckets) (asMap s') M ∧ DoneAt H NumBuckets s' me op r l'.pc := by
  cases pc with
  | unlock r' =>
    obtain ⟨rfl, hm⟩ := h
    simp only [step, Option.some.injEq, Prod.mk.injEq] at hstep
    obtain ⟨rfl, rfl⟩ := hstep
    exact ⟨Maps.Effect.release (s := asMap s) hm, rfl, hinv.congr rfl rfl rfl, rfl⟩
  | returned r' => simp [step] at hstep
  | _ => exact h.elim

/-- The proof outline of the set. -/
def outline [EquivBEq T] (τ : Type*) (H : Hash .cpp T) (NumBuckets : BitVec 64) :
    Outline (implementation τ H NumBuckets) (Spec.ofFun (oneOfEach (T := T)) fun _ => none) where
  Inv := fun s M => MapInv (bucketOf H NumBuckets) (asMap s) M
  Guarantee := fun u s s' => Maps.Effect (bucketOf H NumBuckets) u (asMap s) (asMap s')
  Pending := fun me op s l => l.op = op ∧ PendingAt H NumBuckets s me op l.pc
  Done := fun me r s l => DoneAt H NumBuckets s me l.op r l.pc
  initial := Maps.initial_mapInv _
  start := fun _ _ _ _ _ => ⟨rfl, trivial⟩
  pending_step := by
    rintro me op s M ⟨_, pc⟩ c s' l' hinv ⟨rfl, h⟩ hstep
    obtain ⟨he, hop, ⟨hinv', h'⟩ | ⟨r, M', hap, hinv', hd⟩⟩ := pending_step hinv h hstep
    · exact ⟨he, .inl ⟨hinv', hop, h'⟩⟩
    · exact ⟨he, .inr ⟨r, M', hap, hinv', by rw [hop]; exact hd⟩⟩
  done_step := by
    rintro me r s M ⟨op, pc⟩ c s' l' hinv h hstep
    obtain ⟨he, hop, hinv', h'⟩ := done_step hinv h hstep
    exact ⟨he, hinv', by rw [hop]; exact h'⟩
  pending_result := by
    rintro me op s ⟨_, pc⟩ ⟨rfl, h⟩
    cases pc with
    | returned r => exact h.elim
    | _ => rfl
  done_result := by
    rintro me r r' s ⟨op, pc⟩ h hr
    cases pc with
    | returned r₁ => exact (Option.some.inj hr).symm.trans h
    | _ => cases hr
  pending_stable := fun _ _ _ _ _ _ _ hne _ he h => ⟨h.1, pending_stable hne he h.2⟩
  done_stable := fun _ _ _ _ _ _ _ hne _ he h => done_stable hne he h

/-! ### A call alone -/

theorem deterministic (H : Hash .cpp T) (NumBuckets : BitVec 64) (me : τ) :
    (implementation τ H NumBuckets).Deterministic me where
  step := fun _ _ _ _ => rfl
  stop := fun s l c r hr => by
    obtain ⟨op, pc⟩ := l
    cases pc with
    | returned r => rfl
    | _ => cases hr

/-- A call about to unlock its bucket returns. -/
theorem returns_unlock (hfree : FreeBut (bucketOf H NumBuckets op.element) s) (r : SetRes T) :
    (implementation τ H NumBuckets).Returns me Free s ⟨op, .unlock r⟩ := by
  refine ⟨s.release _, ⟨op, .returned r⟩, r, .single ⟨(), rfl⟩, rfl, fun c => ?_⟩
  by_cases hc : c = bucketOf H NumBuckets op.element
  · rw [hc]
    exact Function.update_self ..
  · exact (Function.update_of_ne hc _ _).trans (hfree c hc)

variable {pre post : List (Entry T T)} {k' v' : T}

/-- A call that has found its element returns. -/
theorem returns_hit {x : Maps.Node T Unit}
    (hb : Bucket (bucketOf H NumBuckets) (asMap s) (bucketOf H NumBuckets op.element)
      (pre ++ (c, k', v') :: post))
    (hx : s.node c = some x) (hk : (x.key == op.element) = true)
    (hfree : FreeBut (bucketOf H NumBuckets op.element) s) :
    (implementation τ H NumBuckets).Returns me Free s ⟨op, .visit (pre.getLast?.map Prod.fst) c⟩ := by
  cases op with
  | add t =>
    exact .step () (s, ⟨.add t, .unlock (.flag false)⟩) (by simp only [implementation, step, hx, if_pos hk])
      (returns_unlock hfree _)
  | contains t =>
    exact .step () (s, ⟨.contains t, .unlock (.flag true)⟩)
      (by simp only [implementation, step, hx, if_pos hk]) (returns_unlock hfree _)
  | getEqual t =>
    exact .step () (s, ⟨.getEqual t, .readVal c⟩) (by simp only [implementation, step, hx, if_pos hk])
      (.step () (s, ⟨.getEqual t, .unlock (.found (some x.key))⟩) (by simp only [implementation, step, hx])
        (returns_unlock hfree _))
  | remove t =>
    obtain ⟨s₁, hs₁, _, hmutex, _⟩ := hb.relink (asMap_node hx)
    obtain ⟨s₂, hs₂, rfl⟩ := relink_of_asMap hs₁
    have hs₂' : s.relink (bucketOf H NumBuckets (SetOp.remove t).element) (pre.getLast?.map Prod.fst)
        x.next = some s₂ := hs₂
    have hfree' : FreeBut (bucketOf H NumBuckets t) (s₂.dispose .cpp c) := fun d hd =>
      (congrFun hmutex d).trans (hfree d hd)
    exact .step () (s, ⟨.remove t, .unlink (pre.getLast?.map Prod.fst) c⟩)
      (by simp only [implementation, step, hx, if_pos hk])
      (.step () (s₂.dispose .cpp c, ⟨.remove t, .unlock (.flag true)⟩)
        (by simp only [implementation, step, hx, hs₂']) (returns_unlock hfree' _))

/-- A call on its way along the chain returns. -/
theorem returns_visit (pre : List (Entry T T))
    (hb : Bucket (bucketOf H NumBuckets) (asMap s) (bucketOf H NumBuckets op.element)
      (pre ++ (c, k', v') :: post))
    (hfree : FreeBut (bucketOf H NumBuckets op.element) s) :
    (implementation τ H NumBuckets).Returns me Free s ⟨op, .visit (pre.getLast?.map Prod.fst) c⟩ := by
  induction post generalizing pre c k' v' with
  | nil =>
    obtain ⟨y, hy, _, _, hrest⟩ := Segment.split hb.chain
    obtain ⟨x, hx, rfl⟩ := node_of_asMap hy
    by_cases hk : (x.key == op.element) = true
    · exact returns_hit hb hx hk hfree
    · have hnext : x.next = none := hrest
      refine .step () (s, ⟨op, .advance c⟩) (by simp only [implementation, step, hx, if_neg hk]) ?_
      cases op with
      | add t =>
        exact .step () (s, ⟨.add t, .storeNext c⟩) (by simp only [implementation, step, hx, hnext])
          (.step () ((s.create t ()).setNode c {x with next := some s.size}, _)
            (by simp only [implementation, step, hx]; rfl)
            (returns_unlock (s := (s.create t ()).setNode c {x with next := some s.size}) hfree _))
      | _ =>
        exact .step () (s, _) (by simp only [implementation, step, hx, hnext]; rfl) (returns_unlock hfree _)
  | cons e post ih =>
    obtain ⟨n, k₁, v₁⟩ := e
    obtain ⟨y, hy, _, _, hrest⟩ := Segment.split hb.chain
    obtain ⟨x, hx, rfl⟩ := node_of_asMap hy
    by_cases hk : (x.key == op.element) = true
    · exact returns_hit hb hx hk hfree
    · have hnext : x.next = some n := hrest.1
      have hb' : Bucket (bucketOf H NumBuckets) (asMap s) (bucketOf H NumBuckets op.element)
          ((pre ++ [(c, k', v')]) ++ (n, k₁, v₁) :: post) := by simpa using hb
      have hrec := ih _ hb'
      rw [List.getLast?_concat, Option.map_some] at hrec
      exact .step () (s, ⟨op, .advance c⟩) (by simp only [implementation, step, hx, if_neg hk])
        (.step () (s, ⟨op, .visit (some c) n⟩) (by simp only [implementation, step, hx, hnext]) hrec)

/-- A call that runs alone returns, if its index is in bounds. -/
theorem returns_alone (hN : 2 ≤ NumBuckets.toNat) (hinv : MapInv (bucketOf H NumBuckets) (asMap s) M)
    (hfree : Free s) (me : τ) (op : SetOp T) :
    (implementation τ H NumBuckets).Returns me Free s ⟨op, .getIndex⟩ := by
  let s₁ : Maps.Store τ T Unit :=
    {s with mutex := Function.update s.mutex (bucketOf H NumBuckets op.element) (some me)}
  have hfree₁ : FreeBut (bucketOf H NumBuckets op.element) s₁ := fun c hc =>
    (Function.update_of_ne hc _ _).trans (hfree c)
  obtain ⟨i, hi⟩ := getBucketIndex_isSome (H := H) hN op.element
  refine .step () (s, ⟨op, .lock⟩) (by simp only [implementation, step, hi]) (.step () (s₁, ⟨op, .readHead⟩)
    (by simp [implementation, step, bucketOf_lt hN, Maps.Store.tryAcquire, hfree _, s₁]) ?_)
  obtain ⟨l, hb, _⟩ := hinv.bucket (bucketOf H NumBuckets op.element)
  have hb₁ : Bucket _ (asMap s₁) (bucketOf H NumBuckets op.element) l := hb.congr rfl rfl
  cases l with
  | nil =>
    have hhead : s₁.head (bucketOf H NumBuckets op.element) = none := hb₁.chain
    cases op with
    | add t =>
      exact .step () (s₁, ⟨.add t, .storeHead⟩) (by simp only [implementation, step, hhead])
        (.step () ((s₁.create t ()).setHead (bucketOf H NumBuckets t) (some s₁.size), _)
          (by simp only [implementation, step]; rfl)
          (returns_unlock (s := (s₁.create t ()).setHead _ (some s₁.size)) hfree₁ _))
    | _ =>
      exact .step () (s₁, _) (by simp only [implementation, step, hhead]; rfl) (returns_unlock hfree₁ _)
  | cons e l =>
    obtain ⟨n, k', v'⟩ := e
    have hhead : s₁.head (bucketOf H NumBuckets op.element) = some n := hb₁.chain.1
    exact .step () (s₁, ⟨op, .visit none n⟩) (by simp only [implementation, step, hhead])
      (returns_visit [] hb₁ hfree₁)

/-- No step leads back to the computation of the index. -/
theorem step_passes {d : Maps.Store τ T Unit × Local T} {l : Local T}
    (hstep : step H NumBuckets me s l () = some d) (op : SetOp T) : d.2 ≠ ⟨op, .getIndex⟩ := by
  obtain ⟨s', l'⟩ := d
  obtain ⟨_, pc⟩ := l
  rintro rfl
  cases pc <;> simp only [step] at hstep <;> grind

/-- **A call that runs alone comes to its end**, if its index is in bounds. -/
theorem ends_alone (hN : 2 ≤ NumBuckets.toNat) (hinv : MapInv (bucketOf H NumBuckets) (asMap s) M)
    (hfree : Free s) (me : τ) (op : SetOp T) :
    (implementation τ H NumBuckets).Ends me ⟨op, .getIndex⟩ Free s ⟨op, .getIndex⟩ :=
  (deterministic H NumBuckets me).ends (fun _ _ _ _ h => step_passes h op)
    (returns_alone hN hinv hfree me op)

/-- With two buckets or more the set is the mathematical one. -/
theorem computes [EquivBEq T] (H : Hash .cpp T) (hN : 2 ≤ NumBuckets.toNat) (me : τ) (ops : List (SetOp T)) :
    (implementation τ H NumBuckets).Computes me (oneOfEach (T := T)) (fun _ => none) ops :=
  (outline τ H NumBuckets).computes (Q := Free)
    (fun op _ _ _ hinv hfree => ends_alone hN hinv hfree me op) fun _ => rfl

/-! ### The number of buckets -/

/-- What is expected of a set with `NumBuckets` buckets: every index is defined and in bounds, every
bucket is the index of some `usize`, and the results are those of the mathematical set. -/
structure UsesItsBuckets (NumBuckets : BitVec 64) : Prop where
  index : ∀ hash : Int, 0 ≤ hash → hash ≤ Lang.cpp.tailKey →
    ∃ i, indexOfHash NumBuckets hash = some i ∧ 0 ≤ i ∧ i < NumBuckets.toNat
  selected : ∀ i : ℕ, i < NumBuckets.toNat →
    ∃ hash : Int, 0 ≤ hash ∧ hash ≤ Lang.cpp.tailKey ∧ indexOfHash NumBuckets hash = some (i : Int)
  results : ∀ (τ T : Type) [BEq T] [EquivBEq T] (H : Hash .cpp T) (me : τ) (ops : List (SetOp T)),
    (implementation τ H NumBuckets).Computes me (oneOfEach (T := T)) (fun _ => none) ops

/-- The last bucket is nobody's. -/
theorem last_not_selected (hN : 1 ≤ NumBuckets.toNat) (hash : Int) :
    indexOfHash NumBuckets hash ≠ some ((NumBuckets.toNat - 1 : ℕ) : Int) := by
  intro hlast
  by_cases hN' : 2 ≤ NumBuckets.toNat
  · obtain ⟨i, hi, _, hlt⟩ := indexOfHash_lt hN' hash
    rw [hlast, Option.some.injEq] at hi
    omega
  · have hone : NumBuckets = 1 := by bv_omega
    rw [hone, indexOfHash_one] at hlast
    cases hlast

/-- **One bucket is never used, whatever their number.** If there are two or more, everything else
is as expected; with one, no index is defined. -/
theorem lockHashSet_leaves_last_bucket (NumBuckets : BitVec 64) (hN : 1 ≤ NumBuckets.toNat) :
    ¬ UsesItsBuckets NumBuckets ∧ (NumBuckets = 1 → ∀ hash, indexOfHash NumBuckets hash = none) ∧
      (2 ≤ NumBuckets.toNat →
        (∀ hash, ∃ i, indexOfHash NumBuckets hash = some i ∧ 0 ≤ i ∧ i < NumBuckets.toNat) ∧
        (∀ i : ℕ, (∃ hash : Int, 0 ≤ hash ∧ hash ≤ Lang.cpp.tailKey ∧
          indexOfHash NumBuckets hash = some (i : Int)) ↔ i + 1 < NumBuckets.toNat) ∧
        ∀ (τ T : Type) [BEq T] [EquivBEq T] (H : Hash .cpp T) (me : τ) (ops : List (SetOp T)),
          (implementation τ H NumBuckets).Computes me (oneOfEach (T := T)) (fun _ => none) ops) := by
  refine ⟨fun h => ?_, ?_, fun hN' => ⟨fun hash => ?_, fun i => ⟨?_, fun hi => ?_⟩, ?_⟩⟩
  · obtain ⟨hash, _, _, hi⟩ := h.selected (NumBuckets.toNat - 1) (by omega)
    exact last_not_selected hN hash hi
  · rintro rfl hash
    exact indexOfHash_one hash
  · obtain ⟨i, hi, h₀, hlt⟩ := indexOfHash_lt hN' hash
    exact ⟨i, hi, h₀, by omega⟩
  · rintro ⟨hash, _, _, hi⟩
    obtain ⟨j, hj, _, hlt⟩ := indexOfHash_lt hN' hash
    rw [hi, Option.some.injEq] at hj
    omega
  · have hmax : (i : Int) ≤ Lang.cpp.tailKey := by
      have := NumBuckets.isLt
      rw [Lang.tailKey]
      omega
    exact ⟨i, Int.natCast_nonneg i, hmax, indexOfHash_self hN' (by omega)⟩
  · intro τ T _ _ H me ops
    exact computes H hN' me ops

theorem lockHashSet_leaves_last_bucket_sixteen :
    ¬ UsesItsBuckets 16 ∧ ((16 : BitVec 64) = 1 → ∀ hash, indexOfHash 16 hash = none) ∧
      (2 ≤ (16 : BitVec 64).toNat →
        (∀ hash, ∃ i, indexOfHash 16 hash = some i ∧ 0 ≤ i ∧ i < (16 : BitVec 64).toNat) ∧
        (∀ i : ℕ, (∃ hash : Int, 0 ≤ hash ∧ hash ≤ Lang.cpp.tailKey ∧
          indexOfHash 16 hash = some (i : Int)) ↔ i + 1 < (16 : BitVec 64).toNat) ∧
        ∀ (τ T : Type) [BEq T] [EquivBEq T] (H : Hash .cpp T) (me : τ) (ops : List (SetOp T)),
          (implementation τ H 16).Computes me (oneOfEach (T := T)) (fun _ => none) ops) :=
  lockHashSet_leaves_last_bucket 16 (by decide)

/-- Of the sixteen buckets there are by default, the one with index 15 is never used. -/
theorem default_leaves_bucket_fifteen : ¬ UsesItsBuckets 16 := by
  intro h
  obtain ⟨hash, _, _, hi⟩ := h.selected 15 (by decide)
  exact last_not_selected (by decide) hash hi

end ParSweet.Sets.LockHashSet
