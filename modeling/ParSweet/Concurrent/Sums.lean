import Mathlib.Algebra.Order.BigOperators.Group.Finset

/-! Sums over all participants, of whom one moves. -/
namespace ParSweet.Concurrent

variable {τ : Type*} [Fintype τ] [DecidableEq τ] {f g : τ → ℕ} {t : τ} {a b c : ℕ}

/-- One summand has become smaller, and each of the others larger by no more than `c`. -/
theorem sum_add_lt (hother : ∀ u, u ≠ t → g u ≤ f u + c) (hself : g t + a < f t + b) :
    ∑ u, g u + a < ∑ u, f u + b + Fintype.card τ * c := by
  have hg := Finset.add_sum_erase Finset.univ g (Finset.mem_univ t)
  have hf := Finset.add_sum_erase Finset.univ f (Finset.mem_univ t)
  have hle : ∑ u ∈ Finset.univ.erase t, g u ≤ ∑ u ∈ Finset.univ.erase t, (f u + c) :=
    Finset.sum_le_sum fun u hu => hother u (Finset.ne_of_mem_erase hu)
  have hc : ∑ u ∈ Finset.univ.erase t, (f u + c) ≤ ∑ u ∈ Finset.univ.erase t, f u + Fintype.card τ * c := by
    rw [Finset.sum_add_distrib, Finset.sum_const_nat fun _ _ => rfl]
    exact Nat.add_le_add_left (Nat.mul_le_mul_right c ((Finset.card_erase_le).trans_eq Finset.card_univ)) _
  omega

/-- One summand has become smaller, the others no larger. -/
theorem sum_lt (hother : ∀ u, u ≠ t → g u ≤ f u) (hself : g t < f t) : ∑ u, g u < ∑ u, f u := by
  simpa using sum_add_lt (a := 0) (b := 0) (c := 0) hother hself

/-- One summand has become smaller by more than the others have become larger. -/
theorem sum_lt_of_one (hother : ∀ u, u ≠ t → g u ≤ f u + c) (hself : g t + Fintype.card τ * c < f t) :
    ∑ u, g u < ∑ u, f u := by
  have := sum_add_lt (a := Fintype.card τ * c) (b := 0) hother hself
  omega

/-- Only one summand has changed. -/
theorem sum_add_eq (hother : ∀ u, u ≠ t → g u = f u) : ∑ u, g u + f t = ∑ u, f u + g t := by
  have hg := Finset.add_sum_erase Finset.univ g (Finset.mem_univ t)
  have hf := Finset.add_sum_erase Finset.univ f (Finset.mem_univ t)
  have heq : ∑ u ∈ Finset.univ.erase t, g u = ∑ u ∈ Finset.univ.erase t, f u :=
    Finset.sum_congr rfl fun u hu => hother u (Finset.ne_of_mem_erase hu)
  omega

end ParSweet.Concurrent
