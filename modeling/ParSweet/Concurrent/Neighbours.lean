import Mathlib.Data.List.Nodup

/-! Neighbours in a queue without repetitions: who stands right behind whom, what
joining at the end and leaving at the front do to it, and that nobody has two
neighbours on one side. -/
namespace ParSweet.Concurrent

variable {ι : Type*}

/-- `i` stands right behind `j`. -/
def Behind : List ι → ι → ι → Prop
  | x :: y :: q, j, i => (x = j ∧ y = i) ∨ Behind (y :: q) j i
  | _, _, _ => False

variable {q : List ι} {i i' j j' x : ι}

theorem behind_cons : Behind (x :: q) j i ↔ (x = j ∧ q.head? = some i) ∨ Behind q j i := by
  cases q with
  | nil => simp [Behind]
  | cons y q => simp [Behind]

theorem Behind.left_mem (h : Behind q j i) : j ∈ q := by
  induction q with
  | nil => exact h.elim
  | cons x q ih =>
    rcases behind_cons.mp h with ⟨rfl, _⟩ | h
    · exact List.mem_cons_self
    · exact List.mem_cons_of_mem x (ih h)

theorem Behind.right_mem (h : Behind q j i) : i ∈ q.tail := by
  induction q with
  | nil => exact h.elim
  | cons x q ih =>
    rcases behind_cons.mp h with ⟨_, hi⟩ | h
    · exact List.mem_of_mem_head? hi
    · exact List.mem_of_mem_tail (ih h)

/-- Everybody but the first stands behind somebody. -/
theorem first_or_behind (h : i ∈ q) : q.head? = some i ∨ ∃ j, Behind q j i := by
  induction q with
  | nil => cases h
  | cons x q ih =>
    rcases List.mem_cons.mp h with rfl | h
    · exact .inl rfl
    · rcases ih h with hi | ⟨j, hj⟩
      · exact .inr ⟨x, behind_cons.mpr (.inl ⟨rfl, hi⟩)⟩
      · exact .inr ⟨j, behind_cons.mpr (.inr hj)⟩

/-- Somebody stands behind everybody but the last. -/
theorem last_or_behind (h : i ∈ q) : q.getLast? = some i ∨ ∃ j, Behind q i j := by
  induction q with
  | nil => cases h
  | cons x q ih =>
    cases q with
    | nil =>
      obtain rfl : i = x := List.mem_singleton.mp h
      exact .inl rfl
    | cons y q =>
      rcases List.mem_cons.mp h with rfl | h
      · exact .inr ⟨y, .inl ⟨rfl, rfl⟩⟩
      · rw [List.getLast?_cons_cons]
        exact (ih h).imp id fun ⟨j, hj⟩ => ⟨j, .inr hj⟩

/-- Joining at the end. -/
theorem behind_concat : Behind (q ++ [x]) j i ↔ Behind q j i ∨ (q.getLast? = some j ∧ x = i) := by
  induction q with
  | nil => simp [Behind]
  | cons y q ih =>
    rw [List.cons_append, behind_cons, ih, behind_cons]
    cases q with
    | nil => simp [Behind]
    | cons z q => simp [List.getLast?_cons_cons, or_assoc]

section Nodup
variable (hq : q.Nodup)
include hq

theorem Behind.right_unique (h : Behind q j i) (h' : Behind q j i') : i = i' := by
  induction q with
  | nil => exact h.elim
  | cons x q ih =>
    rw [List.nodup_cons] at hq
    rcases behind_cons.mp h with ⟨rfl, hi⟩ | h <;> rcases behind_cons.mp h' with ⟨hx, hi'⟩ | h'
    · exact Option.some.inj (hi.symm.trans hi')
    · exact absurd h'.left_mem hq.1
    · subst hx
      exact absurd h.left_mem hq.1
    · exact ih hq.2 h h'

/-- Nobody stands behind the last. -/
theorem Behind.not_last (h : Behind q j i) : q.getLast? ≠ some j := by
  induction q with
  | nil => exact h.elim
  | cons x q ih =>
    rw [List.nodup_cons] at hq
    rcases behind_cons.mp h with ⟨rfl, hi⟩ | h
    · cases q with
      | nil => cases hi
      | cons y q =>
        rw [List.getLast?_cons_cons]
        exact fun hl => hq.1 (List.mem_of_mem_getLast? hl)
    · cases q with
      | nil => exact h.elim
      | cons y q =>
        rw [List.getLast?_cons_cons]
        exact ih hq.2 h

/-- The first stands behind nobody. -/
theorem Behind.not_first (h : Behind q j i) : q.head? ≠ some i := by
  cases q with
  | nil => exact h.elim
  | cons x q =>
    rw [List.nodup_cons] at hq
    rintro ⟨⟩
    exact hq.1 h.right_mem

/-- Who is first and last is alone. -/
theorem eq_singleton (hfirst : q.head? = some i) (hlast : q.getLast? = some i) : q = [i] := by
  cases q with
  | nil => cases hfirst
  | cons x q =>
    obtain rfl : x = i := Option.some.inj hfirst
    rw [List.nodup_cons] at hq
    cases q with
    | nil => rfl
    | cons y q =>
      rw [List.getLast?_cons_cons] at hlast
      exact absurd (List.mem_of_mem_getLast? hlast) hq.1

end Nodup

end ParSweet.Concurrent
