import Mathlib.Logic.Function.Basic
import Mathlib.Tactic.TypeStar

/-! Who is where: places with at most one occupant, and occupants in at most one place,
recorded on both sides. -/
namespace ParSweet

variable {π ι : Type*} {occupant : π → Option ι} {place : ι → Option π} {p q : π} {i : ι}

/-- The two records are the same. -/
def Placed (occupant : π → Option ι) (place : ι → Option π) : Prop :=
  ∀ p i, occupant p = some i ↔ place i = some p

namespace Placed

theorem empty : Placed (fun _ : π => (none : Option ι)) fun _ => none := fun _ _ => by simp

section Update
variable [DecidableEq π] [DecidableEq ι]

/-- Somebody new takes a free place. -/
theorem put (h : Placed occupant place) (hp : occupant p = none) (hi : place i = none) :
    Placed (Function.update occupant p (some i)) (Function.update place i (some p)) := fun q j => by
  by_cases hj : j = i
  · subst hj
    by_cases hq : q = p
    · simp [hq]
    · have : occupant q ≠ some j := fun hqj => by
        rw [h, hi] at hqj
        cases hqj
      simp [hq, Ne.symm hq, this]
  · by_cases hq : q = p
    · subst hq
      have : place j ≠ some q := fun hjq => by
        rw [← h, hp] at hjq
        cases hjq
      simp [hj, Ne.symm hj, this]
    · simp [hj, hq, h q j]

/-- Somebody leaves. -/
theorem remove (h : Placed occupant place) (hi : place i = some p) :
    Placed (Function.update occupant p none) (Function.update place i none) := fun q j => by
  have hp : occupant p = some i := (h p i).mpr hi
  by_cases hj : j = i
  · subst hj
    by_cases hq : q = p
    · simp [hq]
    · have : occupant q ≠ some j := fun hqj => by
        rw [h, hi] at hqj
        exact hq (Option.some.inj hqj).symm
      simp [hq, this]
  · by_cases hq : q = p
    · subst hq
      have : place j ≠ some q := fun hjq => by
        rw [← h, hp] at hjq
        exact hj (Option.some.inj hjq).symm
      simp [hj, this]
    · simp [hj, hq, h q j]

/-- Somebody moves to a free place. -/
theorem move (h : Placed occupant place) (hi : place i = some p) (hq : occupant q = none) :
    Placed (Function.update (Function.update occupant p none) q (some i))
      (Function.update place i (some q)) := by
  have hpq : q ≠ p := fun hqp => by
    rw [hqp, (h p i).mpr hi] at hq
    cases hq
  have := (h.remove hi).put (p := q) (i := i) (by rw [Function.update_of_ne hpq, hq]) (Function.update_self ..)
  rwa [Function.update_idem] at this

end Update

end Placed

end ParSweet
