import ParSweet.Sets.Operations

/-! What holds of the list at all times.

`ListInv` is the invariant of the store, whatever set uses it and whatever its
threads are doing: the list runs sorted from the head to the tail, every other
node carries an element under its hash, and no two nodes of the list carry equal
elements. -/
namespace ParSweet.Sets
open Concurrent

variable {τ T : Type*}

/-! ### Keys in the order of the list -/

/-- An element's key among the sentinels'. -/
def elementKey (k : Int) : WithBot (WithTop Int) := ((k : WithTop Int) : WithBot (WithTop Int))

@[simp] theorem elementKey_le {a b : Int} : elementKey a ≤ elementKey b ↔ a ≤ b := by
  simp [elementKey]

@[simp] theorem elementKey_lt {a b : Int} : elementKey a < elementKey b ↔ a < b := by
  simp [elementKey]

namespace Store
variable {s : Store τ T} {n p c : NodeId}

theorem sortKey_head : s.sortKey head = ⊥ := by simp [sortKey]

theorem sortKey_tail : s.sortKey tail = ((⊤ : WithTop Int) : WithBot (WithTop Int)) := by
  simp [sortKey, tail, head]

theorem sortKey_element (hh : n ≠ head) (ht : n ≠ tail) : s.sortKey n = elementKey (s.node n).key := by
  simp [sortKey, hh, ht, elementKey]

theorem head_le (k : Int) : s.sortKey head ≤ elementKey k := by
  rw [sortKey_head]
  exact bot_le

theorem lt_tail (k : Int) : elementKey k < s.sortKey tail := by
  rw [sortKey_tail]
  exact WithBot.coe_lt_coe.mpr (WithTop.coe_lt_top k)

/-- Nothing comes before the head. -/
theorem not_before_head : ¬ s.Before n head := by
  rintro (h | ⟨_, h⟩)
  · rw [sortKey_head] at h
    exact not_lt_bot h
  · exact Nat.not_lt_zero n h

/-- Nothing with a key comes behind the tail. -/
theorem not_tail_before (h : n ≠ tail) : ¬ s.Before tail n := by
  rintro (h' | ⟨h', hlt⟩)
  · by_cases hh : n = head
    · subst hh
      rw [sortKey_head] at h'
      exact not_lt_bot h'
    · rw [sortKey_element hh h] at h'
      exact (h'.trans (lt_tail _)).ne rfl
  · rw [sortKey_tail] at h'
    have hh : n ≠ head := fun he => by subst he; exact Nat.not_lt_zero _ hlt
    rw [sortKey_element hh h] at h'
    exact (lt_tail (s := s) (s.node n).key).ne (by rw [sortKey_tail]; exact h'.symm)

end Store

/-! ### The invariant -/

section Invariant
variable [BEq T] {L : Lang}

/-- The list at all times. With `markable`, the nodes out of the list are marked. -/
structure ListInv (H : Hash L T) (markable : Bool) (s : Store τ T) : Prop where
  bounded : Links.Bounded s.next head s.size
  sorted : Links.Sorted s.next s.sortKey head
  head_node : (s.node head).key = L.headKey ∧ (s.node head).value = none
  tail_node : (s.node tail).key = L.tailKey ∧ (s.node tail).value = none
  element : ∀ n, n < s.size → n ≠ head → n ≠ tail →
    ∃ x, (s.node n).value = some x ∧ (s.node n).key = H.hash x
  tail_live : s.Live tail
  next_none : ∀ n, n < s.size → (s.next n = none ↔ n = tail)
  /-- No two nodes of the list hold equal elements. -/
  distinct : ∀ n m t, s.Live n → s.Live m → (some t == (s.node n).value) = true →
    (some t == (s.node m).value) = true → n = m
  marked : markable = true → ∀ n, n < s.size → s.deleted n = false → s.Live n

theorem initial_listInv (H : Hash L T) (markable : Bool) :
    ListInv H markable (Store.initial L : Store τ T) := by
  have hnext : ∀ n, (Store.initial L : Store τ T).next n = if n = head then some tail else none := by
    intro n
    by_cases hn : n = head <;> simp [Store.next, Store.initial, hn]
  have hcases : ∀ {a b}, (Store.initial L : Store τ T).next a = some b → a = head ∧ b = tail := by
    intro a b h
    rw [hnext] at h
    by_cases ha : a = head
    · rw [if_pos ha] at h
      exact ⟨ha, (Option.some.inj h).symm⟩
    · rw [if_neg ha] at h
      cases h
  have htail : (Store.initial L : Store τ T).Live tail :=
    Links.Reaches.refl.tail (by rw [hnext, if_pos rfl])
  have hsize : ∀ n, n < (Store.initial L : Store τ T).size → n = head ∨ n = tail := by
    intro n hn
    simp only [Store.initial] at hn
    simp only [head, tail]
    omega
  have hlive : ∀ {n}, (Store.initial L : Store τ T).Live n → n = head ∨ n = tail := by
    intro n hn
    rcases hn.of_next (by rw [hnext, if_pos rfl]) with rfl | h
    · exact .inl rfl
    · exact .inr (h.of_none (by rw [hnext]; rfl)).symm
  have hvalue : ∀ n, ((Store.initial L : Store τ T).node n).value = none := by
    intro n
    by_cases hn : n = head <;> simp [Store.initial, hn]
  exact {
    bounded := ⟨Nat.zero_lt_two, fun h => by
      obtain ⟨rfl, rfl⟩ := hcases h
      exact ⟨Nat.zero_lt_two, Nat.one_lt_two⟩⟩
    sorted := ⟨fun h => by
        obtain ⟨rfl, rfl⟩ := hcases h
        exact .inl ((Store.head_le 0).trans_lt (Store.lt_tail 0)),
      fun h hl hlt => by
        obtain ⟨rfl, rfl⟩ := hcases h
        rcases hlive hl with rfl | rfl
        · exact absurd rfl hlt.ne
        · exact .inl rfl⟩
    head_node := ⟨by simp [Store.initial], hvalue _⟩
    tail_node := ⟨by simp [Store.initial, head, tail], hvalue _⟩
    element := fun n hn hh ht => by rcases hsize n hn with h | h <;> contradiction
    tail_live := htail
    next_none := fun n hn => by
      rcases hsize n hn with rfl | rfl <;> simp [hnext, head, tail]
    distinct := fun n m t _ _ h => by simp [hvalue] at h
    marked := fun _ n hn _ => by
      rcases hsize n hn with rfl | rfl
      · exact .refl
      · exact htail }

omit [BEq T] in
theorem initial_elements : (Store.initial L : Store τ T).elements = ∅ := by
  ext x
  simp only [Store.elements, Set.mem_ofPred_eq, Set.mem_empty_iff_false, iff_false]
  rintro ⟨n, _, hx⟩
  by_cases hn : n = head <;> simp [Store.initial, hn] at hx

namespace ListInv
variable {H : Hash L T} {markable : Bool} {s : Store τ T} {n p c : NodeId} {t : T}

theorem live_lt (h : ListInv H markable s) (hl : s.Live n) : n < s.size := h.bounded.live_lt hl

/-- A node that holds something equal to `t` has the hash of `t` as its key. -/
theorem key_of_hit (h : ListInv H markable s) (hn : n < s.size)
    (ht : (some t == (s.node n).value) = true) :
    n ≠ head ∧ n ≠ tail ∧ s.sortKey n = elementKey (H.hash t) := by
  have hh : n ≠ head := by
    rintro rfl
    rw [h.head_node.2] at ht
    cases ht
  have htl : n ≠ tail := by
    rintro rfl
    rw [h.tail_node.2] at ht
    cases ht
  obtain ⟨x, hx, hk⟩ := h.element n hn hh htl
  rw [hx] at ht
  exact ⟨hh, htl, by rw [Store.sortKey_element hh htl, hk, H.respects t x ht]⟩

/-- A node of the list between the sentinels holds one of its elements. -/
theorem exists_element (h : ListInv H markable s) (hl : s.Live n) (hh : n ≠ head) (ht : n ≠ tail) :
    ∃ x ∈ s.elements, (s.node n).value = some x ∧ (s.node n).key = H.hash x := by
  obtain ⟨x, hx, hk⟩ := h.element n (h.live_lt hl) hh ht
  exact ⟨x, ⟨n, hl, hx⟩, hx, hk⟩

theorem mem_elements_iff (h : ListInv H markable s) :
    Member t s.elements ↔ ∃ n, s.Live n ∧ (some t == (s.node n).value) = true := by
  constructor
  · rintro ⟨x, ⟨n, hl, hx⟩, he⟩
    exact ⟨n, hl, by rw [hx]; exact he⟩
  · rintro ⟨n, hl, he⟩
    obtain ⟨hh, htl, _⟩ := h.key_of_hit (h.live_lt hl) he
    obtain ⟨x, hx, _⟩ := h.element n (h.live_lt hl) hh htl
    rw [hx] at he
    exact ⟨x, ⟨n, hl, hx⟩, he⟩

end ListInv

end Invariant

end ParSweet.Sets
