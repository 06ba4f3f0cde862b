import ParSweet.Sets.ListInvariant

/-! What one step may do to the list.

`Effect` lists everything an atomic step of a thread does to the store: locking,
unlocking, marking, linking a new node behind a locked node of the list, and
unlinking a locked node behind another. Every effect preserves the invariant
(`Effect.listInv`), and an effect is also all that a thread has to fear from the
others: the second half of the file is what they leave alone. -/
namespace ParSweet.Sets
open Concurrent

variable {τ T : Type*}

/-! ### Reading a changed store -/

namespace Store
variable {s s' : Store τ T} {me : τ} {n m p c e : NodeId} {succ : Option NodeId} {v : AtomicNode T}

theorem tryAcquire_eq_some :
    s.tryAcquire me n = some s' ↔
      s.mutex n = none ∧ s' = {s with mutex := Function.update s.mutex n (some me)} := by
  unfold tryAcquire
  cases s.mutex n <;> simp [eq_comm]

theorem tryAcquire_held (h : s.tryAcquire me n = some s') : s'.mutex n = some me := by
  obtain ⟨_, rfl⟩ := tryAcquire_eq_some.mp h
  simp

theorem tryAcquire_keeps (h : s.tryAcquire me n = some s') (hm : s.mutex m = some me) :
    s'.mutex m = some me := by
  obtain ⟨_, rfl⟩ := tryAcquire_eq_some.mp h
  by_cases hmn : m = n
  · subst hmn
    simp
  · simpa [hmn] using hm

theorem tryAcquire_node (h : s.tryAcquire me n = some s') : s'.node = s.node := by
  obtain ⟨_, rfl⟩ := tryAcquire_eq_some.mp h
  rfl

/-- The store as the list sees it: everything but marks and mutexes. -/
theorem congr_node (hn : s'.node = s.node) :
    s'.next = s.next ∧ s'.Live = s.Live ∧ s'.sortKey = s.sortKey ∧ s'.elements = s.elements := by
  have h1 : s'.next = s.next := by
    funext n
    simp only [next, hn]
  have h2 : s'.Live = s.Live := by
    funext n
    simp only [Live, h1]
  refine ⟨h1, h2, ?_, ?_⟩
  · funext n
    simp only [sortKey, hn]
  · simp only [elements, h2, hn]

theorem next_setNext : (s.setNext p (some e)).next = Links.unlink s.next p e := by
  funext n
  by_cases hn : n = p
  · subst hn
    simp [next, setNext, Links.unlink]
  · simp [next, setNext, Links.unlink, hn]

theorem next_publish (hv : v.next = some c) (hp : p ≠ s.size) :
    (s.publish p v).next = Links.link s.next p s.size c := by
  funext n
  by_cases hn : n = p
  · subst hn
    simp [next, publish, Links.link]
  · by_cases hm : n = s.size
    · subst hm
      simp [next, publish, Links.link, hn, hv]
    · simp [next, publish, Links.link, hn, hm]

/-- Only the successor of `p` changes. -/
theorem node_setNext (n : NodeId) :
    ((s.setNext p succ).node n).key = (s.node n).key ∧
      ((s.setNext p succ).node n).value = (s.node n).value := by
  by_cases hn : n = p
  · subst hn
    simp [setNext]
  · simp [setNext, hn]

/-- Linking changes no old node but for the successor of `p`. -/
theorem node_publish (hn : n ≠ s.size) :
    ((s.publish p v).node n).key = (s.node n).key ∧
      ((s.publish p v).node n).value = (s.node n).value := by
  by_cases hp : n = p
  · subst hp
    simp [publish]
  · simp [publish, hp, hn]

theorem node_publish_new (hp : p ≠ s.size) : (s.publish p v).node s.size = v := by
  simp [publish, hp.symm]

theorem sortKey_setNext : (s.setNext p succ).sortKey = s.sortKey := by
  funext n
  simp only [sortKey, (node_setNext n).1]

theorem sortKey_publish (hn : n ≠ s.size) : (s.publish p v).sortKey n = s.sortKey n := by
  simp only [sortKey, (node_publish hn).1]

theorem sortKey_publish_new (hp : p ≠ s.size) (hs : 2 ≤ s.size) :
    (s.publish p v).sortKey s.size = elementKey v.key := by
  have hh : s.size ≠ head := fun h => by rw [h] at hs; exact absurd hs (by decide)
  have ht : s.size ≠ tail := fun h => by rw [h] at hs; exact absurd hs (by decide)
  rw [sortKey_element hh ht, node_publish_new hp]

end Store

/-! ### The effects -/

variable [BEq T] {L : Lang}

/-- What one step of `me` may do. -/
inductive Effect (H : Hash L T) (markable : Bool) (me : τ) : Store τ T → Store τ T → Prop where
  | same {s} : Effect H markable me s s
  | acquire {s n s'} : s.tryAcquire me n = some s' → Effect H markable me s s'
  | release {s n} : s.mutex n = some me → Effect H markable me s (s.release n)
  | mark {s n} : Effect H markable me s (s.mark n)
  | link {s p c t} : s.mutex p = some me → s.Live p → s.next p = some c →
      s.sortKey p ≤ elementKey (H.hash t) → elementKey (H.hash t) < s.sortKey c →
      ¬ Member t s.elements →
      Effect H markable me s (s.publish p ⟨H.hash t, some t, some c⟩)
  | unlink {s p c e} : s.mutex p = some me → s.mutex c = some me → s.Live p →
      s.next p = some c → s.next c = some e → (markable = true → s.deleted c = true) →
      Effect H markable me s (s.setNext p (some e))

/-! ### Every effect preserves the invariant -/

section Preserve
variable {H : Hash L T} {markable : Bool} {s s' : Store τ T} {me : τ} {p c e n : NodeId} {t : T}

/-- Locks do not matter to the list, and a mark only to the node it is put on. -/
theorem ListInv.congr (h : ListInv H markable s) (hsize : s'.size = s.size) (hnode : s'.node = s.node)
    (hdel : ∀ n, s'.deleted n = false → s.deleted n = false) : ListInv H markable s' := by
  obtain ⟨h1, h2, h3, _⟩ := Store.congr_node hnode
  exact {
    bounded := by rw [h1, hsize]; exact h.bounded
    sorted := by rw [h1, h3]; exact h.sorted
    head_node := by rw [hnode]; exact h.head_node
    tail_node := by rw [hnode]; exact h.tail_node
    element := by rw [hnode, hsize]; exact h.element
    tail_live := by rw [h2]; exact h.tail_live
    next_none := by rw [h1, hsize]; exact h.next_none
    distinct := by rw [h2, hnode]; exact h.distinct
    marked := fun hm n hn hd => by
      rw [h2]
      exact h.marked hm n (hsize ▸ hn) (hdel n hd) }

theorem ListInv.two_le (h : ListInv H markable s) : 2 ≤ s.size := by
  have : 1 < s.size := h.live_lt h.tail_live
  omega

/-- The list after linking a new node holding `t` between `p` and `c`. -/
theorem ListInv.live_publish (h : ListInv H markable s) (hl : s.Live p) (hpc : s.next p = some c) :
    (s.publish p ⟨H.hash t, some t, some c⟩).Live n ↔ s.Live n ∨ n = s.size := by
  have hp : p ≠ s.size := (h.live_lt hl).ne
  unfold Store.Live
  rw [Store.next_publish rfl hp]
  exact Links.live_link h.bounded hpc hl

theorem ListInv.live_setNext (h : ListInv H markable s) (hl : s.Live p) (hpc : s.next p = some c)
    (hce : s.next c = some e) : (s.setNext p (some e)).Live n ↔ s.Live n ∧ n ≠ c := by
  have hc : c ≠ head := fun he => Store.not_before_head (he ▸ h.sorted.ordered hpc)
  unfold Store.Live
  rw [Store.next_setNext]
  exact Links.live_unlink hpc hce h.sorted hl hc

theorem ListInv.publish [EquivBEq T] (h : ListInv H markable s) (hl : s.Live p) (hpc : s.next p = some c)
    (hpk : s.sortKey p ≤ elementKey (H.hash t)) (hck : elementKey (H.hash t) < s.sortKey c)
    (hnew : ¬ Member t s.elements) : ListInv H markable (s.publish p ⟨H.hash t, some t, some c⟩) := by
  have hplt := h.live_lt hl
  have hclt := (h.bounded.lt hpc).2
  have hp : p ≠ s.size := hplt.ne
  have hlive : ∀ n, _ ↔ _ := fun n => h.live_publish (t := t) (n := n) hl hpc
  have hold : ∀ n, n < s.size → n ≠ s.size := fun n hn => hn.ne
  have hnext := Store.next_publish (s := s) (p := p) (v := ⟨H.hash t, some t, some c⟩) rfl hp
  have hnewkey := Store.sortKey_publish_new (v := ⟨H.hash t, some t, some c⟩) hp h.two_le
  have hnewval := Store.node_publish_new (v := ⟨H.hash t, some t, some c⟩) hp
  -- The new element is equal to none of the list's.
  have hfresh : ∀ n u, s.Live n → (some u == some t) = true → ¬ (some u == (s.node n).value) = true := by
    intro n u hn hut hun
    refine hnew ((h.mem_elements_iff (t := t)).mpr ⟨n, hn, ?_⟩)
    obtain ⟨hh, htl, _⟩ := h.key_of_hit (h.live_lt hn) hun
    obtain ⟨x, hx, _⟩ := h.element n (h.live_lt hn) hh htl
    rw [hx] at hun ⊢
    have hut' : (u == t) = true := hut
    have hux : (u == x) = true := hun
    exact (BEq.trans (BEq.symm hut') hux : (t == x) = true)
  exact {
    bounded := by
      rw [hnext]
      exact Links.bounded_link h.bounded hpc
    sorted := by
      rw [hnext]
      refine Links.sorted_link h.bounded hpc
        (h.sorted.key_congr h.bounded fun n hn => Store.sortKey_publish hn.ne) hl ?_ ?_
      · rw [Links.Before, Store.sortKey_publish hp, hnewkey]
        rcases hpk.lt_or_eq with hlt | heq
        · exact .inl hlt
        · exact .inr ⟨heq, hplt⟩
      · rw [Links.Before, Store.sortKey_publish hclt.ne, hnewkey]
        exact .inl hck
    head_node := by
      have := Store.node_publish (p := p) (v := ⟨H.hash t, some t, some c⟩) h.bounded.head_lt.ne
      rw [this.1, this.2]
      exact h.head_node
    tail_node := by
      have := Store.node_publish (p := p) (v := ⟨H.hash t, some t, some c⟩) (h.live_lt h.tail_live).ne
      rw [this.1, this.2]
      exact h.tail_node
    element := fun n hn hh ht => by
      rcases Nat.lt_succ_iff_lt_or_eq.mp hn with hn | rfl
      · rw [(Store.node_publish hn.ne).1, (Store.node_publish hn.ne).2]
        exact h.element n hn hh ht
      · rw [hnewval]
        exact ⟨t, rfl, rfl⟩
    tail_live := (hlive tail).mpr (.inl h.tail_live)
    next_none := fun n hn => by
      rw [hnext]
      by_cases hnp : n = p
      · subst hnp
        have := (h.next_none n hplt).not.mp (by rw [hpc]; simp)
        simp [Links.link_pred, this]
      · rcases Nat.lt_succ_iff_lt_or_eq.mp hn with hn | rfl
        · rw [Links.link_other hnp hn.ne]
          exact h.next_none n hn
        · rw [Links.link_new hp.symm]
          simp [(h.live_lt h.tail_live).ne']
    distinct := fun n m u hn hm hun hum => by
      have hval : ∀ k, s.Live k → ((s.publish p ⟨H.hash t, some t, some c⟩).node k).value =
          (s.node k).value := fun k hk => (Store.node_publish (h.live_lt hk).ne).2
      rcases (hlive n).mp hn with hn | rfl <;> rcases (hlive m).mp hm with hm | rfl
      · rw [hval n hn] at hun
        rw [hval m hm] at hum
        exact h.distinct n m u hn hm hun hum
      · rw [hval n hn] at hun
        rw [hnewval] at hum
        exact absurd hun (hfresh n u hn hum)
      · rw [hnewval] at hun
        rw [hval m hm] at hum
        exact absurd hum (hfresh m u hm hun)
      · rfl
    marked := fun hm n hn hd => by
      rcases Nat.lt_succ_iff_lt_or_eq.mp hn with hn | rfl
      · refine (hlive n).mpr (.inl (h.marked hm n hn ?_))
        simpa [Store.publish, hn.ne] using hd
      · exact (hlive s.size).mpr (.inr rfl) }

theorem ListInv.setNext (h : ListInv H markable s) (hl : s.Live p) (hpc : s.next p = some c)
    (hce : s.next c = some e) (hdel : markable = true → s.deleted c = true) :
    ListInv H markable (s.setNext p (some e)) := by
  have hlive : ∀ n, _ ↔ _ := fun n => h.live_setNext (n := n) hl hpc hce
  have hnext := Store.next_setNext (s := s) (p := p) (e := e)
  have hc : c ≠ head := fun he => Store.not_before_head (he ▸ h.sorted.ordered hpc)
  have hct : c ≠ tail := by
    rintro rfl
    rw [(h.next_none tail (h.live_lt h.tail_live)).mpr rfl] at hce
    cases hce
  have hval : ∀ n, ((s.setNext p (some e)).node n).value = (s.node n).value :=
    fun n => (Store.node_setNext n).2
  exact {
    bounded := by
      rw [hnext]
      exact Links.bounded_unlink hpc hce h.bounded
    sorted := by
      rw [hnext, Store.sortKey_setNext]
      exact Links.sorted_unlink hpc hce h.sorted hl hc
    head_node := by
      rw [(Store.node_setNext head).1, hval]
      exact h.head_node
    tail_node := by
      rw [(Store.node_setNext tail).1, hval]
      exact h.tail_node
    element := fun n hn hh ht => by
      rw [(Store.node_setNext n).1, hval]
      exact h.element n hn hh ht
    tail_live := (hlive tail).mpr ⟨h.tail_live, hct.symm⟩
    next_none := fun n hn => by
      rw [hnext]
      by_cases hnp : n = p
      · subst hnp
        have := (h.next_none n hn).not.mp (by rw [hpc]; simp)
        simp [Links.unlink_pred, this]
      · rw [Links.unlink_other hnp]
        exact h.next_none n hn
    distinct := fun n m u hn hm hun hum => by
      rw [hval] at hun hum
      exact h.distinct n m u ((hlive n).mp hn).1 ((hlive m).mp hm).1 hun hum
    marked := fun hm n hn hd => by
      refine (hlive n).mpr ⟨h.marked hm n hn hd, ?_⟩
      rintro rfl
      rw [show s.deleted n = false from hd] at hdel
      exact absurd (hdel hm) (by decide) }

/-- **Every effect preserves the invariant.** -/
theorem Effect.listInv [EquivBEq T] (he : Effect H markable me s s') (h : ListInv H markable s) :
    ListInv H markable s' := by
  cases he with
  | same => exact h
  | acquire ha =>
    obtain ⟨_, rfl⟩ := Store.tryAcquire_eq_some.mp ha
    exact h.congr rfl rfl fun _ hd => hd
  | release _ => exact h.congr rfl rfl fun _ hd => hd
  | @mark n =>
    refine h.congr rfl rfl fun m hd => ?_
    by_cases hm : m = n
    · subst hm
      simp [Store.mark] at hd
    · simpa [Store.mark, hm] using hd
  | link _ hl hpc hpk hck hnew => exact h.publish hl hpc hpk hck hnew
  | unlink _ _ hl hpc hce hdel => exact h.setNext hl hpc hce hdel

/-! ### What an effect does to the elements -/

theorem ListInv.elements_publish (h : ListInv H markable s) (hl : s.Live p) (hpc : s.next p = some c) :
    (s.publish p ⟨H.hash t, some t, some c⟩).elements = insert t s.elements := by
  have hp : p ≠ s.size := (h.live_lt hl).ne
  ext x
  simp only [Store.elements, Set.mem_ofPred_eq, Set.mem_insert_iff]
  constructor
  · rintro ⟨n, hn, hx⟩
    rcases (h.live_publish (t := t) hl hpc).mp hn with hn | rfl
    · rw [(Store.node_publish (h.live_lt hn).ne).2] at hx
      exact .inr ⟨n, hn, hx⟩
    · rw [Store.node_publish_new hp, Option.some.injEq] at hx
      exact .inl hx.symm
  · rintro (rfl | ⟨n, hn, hx⟩)
    · exact ⟨s.size, (h.live_publish hl hpc).mpr (.inr rfl), by rw [Store.node_publish_new hp]⟩
    · refine ⟨n, (h.live_publish hl hpc).mpr (.inl hn), ?_⟩
      rw [(Store.node_publish (h.live_lt hn).ne).2]
      exact hx

theorem ListInv.elements_setNext (h : ListInv H markable s) (hl : s.Live p) (hpc : s.next p = some c)
    (hce : s.next c = some e) (ht : (some t == (s.node c).value) = true) :
    (s.setNext p (some e)).elements = {x ∈ s.elements | (t == x) = false} := by
  ext x
  simp only [Store.elements, Set.mem_ofPred_eq]
  constructor
  · rintro ⟨n, hn, hx⟩
    rw [(Store.node_setNext n).2] at hx
    obtain ⟨hn, hne⟩ := (h.live_setNext hl hpc hce).mp hn
    refine ⟨⟨n, hn, hx⟩, ?_⟩
    by_contra hne'
    refine hne (h.distinct n c t hn (hl.tail hpc) ?_ ht)
    rw [hx]
    exact Bool.of_not_eq_false hne'
  · rintro ⟨⟨n, hn, hx⟩, hne⟩
    refine ⟨n, (h.live_setNext hl hpc hce).mpr ⟨hn, ?_⟩, by rw [(Store.node_setNext n).2]; exact hx⟩
    rintro rfl
    rw [hx] at ht
    rw [show (t == x) = true from ht] at hne
    cases hne

end Preserve

/-! ### What the others leave alone -/

namespace Effect
variable {H : Hash L T} {markable : Bool} {s s' : Store τ T} {me u : τ} {n x y : NodeId} {t : T}

theorem size_le (he : Effect H markable u s s') : s.size ≤ s'.size := by
  cases he with
  | acquire ha =>
    obtain ⟨_, rfl⟩ := Store.tryAcquire_eq_some.mp ha
    exact le_rfl
  | link => exact Nat.le_succ _
  | _ => exact le_rfl

/-- Keys and values are constant. -/
theorem node_eq (he : Effect H markable u s s') (hn : n < s.size) :
    (s'.node n).key = (s.node n).key ∧ (s'.node n).value = (s.node n).value := by
  cases he with
  | acquire ha =>
    obtain ⟨_, rfl⟩ := Store.tryAcquire_eq_some.mp ha
    exact ⟨rfl, rfl⟩
  | link => exact Store.node_publish hn.ne
  | unlink => exact Store.node_setNext n
  | _ => exact ⟨rfl, rfl⟩

/-- So they are over many steps. -/
theorem key_eq (he : Relation.ReflTransGen (Effect H markable u) s s') (hn : n < s.size) :
    n < s'.size ∧ (s'.node n).key = (s.node n).key := by
  induction he with
  | refl => exact ⟨hn, rfl⟩
  | tail _ he ih => exact ⟨ih.1.trans_le he.size_le, (he.node_eq ih.1).1.trans ih.2⟩

theorem sortKey_eq (he : Effect H markable u s s') (hn : n < s.size) : s'.sortKey n = s.sortKey n := by
  simp only [Store.sortKey, (he.node_eq hn).1]

theorem before (he : Effect H markable u s s') (hx : x < s.size) (hy : y < s.size) (h : s.Before x y) :
    s'.Before x y :=
  Links.Before.congr h (he.sortKey_eq hx) (he.sortKey_eq hy)

/-- A mark stays. -/
theorem deleted (he : Effect H markable u s s') (hn : n < s.size) (hd : s.deleted n = true) :
    s'.deleted n = true := by
  cases he with
  | acquire ha =>
    obtain ⟨_, rfl⟩ := Store.tryAcquire_eq_some.mp ha
    exact hd
  | @mark m =>
    by_cases hm : n = m
    · subst hm
      simp [Store.mark]
    · simpa [Store.mark, hm] using hd
  | link => simpa [Store.publish, hn.ne] using hd
  | _ => exact hd

/-- A held mutex stays held. -/
theorem mutex (he : Effect H markable u s s') (hne : me ≠ u) (hm : s.mutex n = some me) :
    s'.mutex n = some me := by
  cases he with
  | @acquire m _ ha =>
    obtain ⟨hfree, rfl⟩ := Store.tryAcquire_eq_some.mp ha
    have hnm : n ≠ m := fun h => by subst h; rw [hm] at hfree; cases hfree
    simpa [hnm] using hm
  | @release m hr =>
    have hnm : n ≠ m := fun h => by subst h; rw [hm] at hr; exact hne (Option.some.inj hr)
    simpa [Store.release, hnm] using hm
  | _ => exact hm

/-- The successor of a locked node is its holder's to change. -/
theorem next_eq (he : Effect H markable u s s') (hne : me ≠ u) (hm : s.mutex n = some me)
    (hn : n < s.size) : s'.next n = s.next n := by
  cases he with
  | acquire ha =>
    obtain ⟨_, rfl⟩ := Store.tryAcquire_eq_some.mp ha
    rfl
  | @link p c t hp =>
    have hnp : n ≠ p := fun h => by subst h; rw [hm] at hp; exact hne (Option.some.inj hp)
    simp [Store.next, Store.publish, hnp, hn.ne]
  | @unlink p c e hp =>
    have hnp : n ≠ p := fun h => by subst h; rw [hm] at hp; exact hne (Option.some.inj hp)
    simp [Store.next, Store.setNext, hnp]
  | _ => rfl

/-- A locked node stays in the list. -/
theorem live (he : Effect H markable u s s') (h : ListInv H markable s) (hne : me ≠ u)
    (hm : s.mutex n = some me) (hl : s.Live n) : s'.Live n := by
  cases he with
  | acquire ha =>
    obtain ⟨_, rfl⟩ := Store.tryAcquire_eq_some.mp ha
    exact hl
  | link _ hp hpc => exact (h.live_publish hp hpc).mpr (.inl hl)
  | @unlink p c e _ hc hp hpc hce =>
    refine (h.live_setNext hp hpc hce).mpr ⟨hl, ?_⟩
    rintro rfl
    rw [hm] at hc
    exact hne (Option.some.inj hc)
  | _ => exact hl

/-- No step opens a way between old nodes. -/
theorem reaches (he : Effect H markable u s s') (h : ListInv H markable s) (hx : x < s.size)
    (hy : y < s.size) (hr : Links.Reaches s'.next x y) : Links.Reaches s.next x y := by
  cases he with
  | acquire ha =>
    obtain ⟨_, rfl⟩ := Store.tryAcquire_eq_some.mp ha
    exact hr
  | link _ hp hpc =>
    rw [Store.next_publish rfl (h.live_lt hp).ne] at hr
    rcases Links.reaches_link h.bounded hpc hx hr with hr | ⟨rfl, _⟩
    · exact hr
    · exact absurd hy (lt_irrefl _)
  | unlink _ _ _ hpc hce =>
    rw [Store.next_setNext] at hr
    exact Links.reaches_unlink hpc hce hr
  | _ => exact hr

/-- A node of the list that holds something equal to `t` was there before, or it
is the newest node and has the hash of `t` as its key. -/
theorem hit [EquivBEq T] (he : Effect H markable u s s') (h : ListInv H markable s) (hl : s'.Live n)
    (ht : (some t == (s'.node n).value) = true) :
    (s.Live n ∧ (some t == (s.node n).value) = true) ∨
      (n = s.size ∧ s'.sortKey n = elementKey (H.hash t)) := by
  have h' := he.listInv h
  have hold : s.Live n → (s.Live n ∧ (some t == (s.node n).value) = true) := fun hn =>
    ⟨hn, by rw [← (he.node_eq (h.live_lt hn)).2]; exact ht⟩
  cases he with
  | acquire ha =>
    obtain ⟨_, rfl⟩ := Store.tryAcquire_eq_some.mp ha
    exact .inl (hold hl)
  | link _ hp hpc =>
    rcases (h.live_publish hp hpc).mp hl with hn | rfl
    · exact .inl (hold hn)
    · exact .inr ⟨rfl, (h'.key_of_hit (h'.live_lt hl) ht).2.2⟩
  | unlink _ _ hp hpc hce => exact .inl (hold ((h.live_setNext hp hpc hce).mp hl).1)
  | _ => exact .inl (hold hl)

end Effect

end ParSweet.Sets
