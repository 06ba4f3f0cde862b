import Mathlib.Logic.Function.Basic
import Mathlib.Tactic.TypeStar
import ParSweet.Counter

/-! `ThreadId` of both suites: a counter and, for every thread, the id it has drawn from it. -/
namespace ParSweet.Locks

/-- `0` is the id of a thread that has not drawn one. -/
structure ThreadId (τ : Type*) (w : ℕ) where
  idCounter : BitVec w
  id : τ → BitVec w

namespace ThreadId
variable {τ : Type*} {w : ℕ}

def initial : ThreadId τ w := ⟨1, fun _ => 0⟩

/-- What `get()` does; it returns the id that the thread has then. The thread's own id is
not shared, so drawing from the counter is its only access that others can see. -/
def get [DecidableEq τ] (i : ThreadId τ w) (t : τ) : ThreadId τ w :=
  if i.id t = 0 then ⟨i.idCounter + 1, Function.update i.id t i.idCounter⟩ else i

/-- The ids drawn are the first `n` numbers, each of them once. -/
structure Issued (i : ThreadId τ w) (n : ℕ) : Prop where
  lt : n < 2 ^ w
  counter : i.idCounter = BitVec.ofNat w (n + 1)
  drawn : ∀ t, i.id t ≠ 0 → ∃ k < n, i.id t = BitVec.ofNat w (k + 1)
  injective : ∀ t u, i.id t ≠ 0 → i.id t = i.id u → t = u

variable {i : ThreadId τ w} {n : ℕ} {t u : τ}

theorem issued_initial : Issued (initial : ThreadId τ w) 0 where
  lt := Nat.two_pow_pos w
  counter := rfl
  drawn := fun _ h => absurd rfl h
  injective := fun _ _ h => absurd rfl h

/-- The next id is not `0`, and nobody has it. -/
theorem Issued.fresh (h : Issued i n) (hn : n + 1 < 2 ^ w) :
    i.idCounter ≠ 0 ∧ ∀ t, i.id t ≠ 0 → i.id t ≠ i.idCounter := by
  have htoNat : ∀ k ≤ n, (BitVec.ofNat w (k + 1)).toNat = k + 1 := fun k hk => by
    rw [BitVec.toNat_ofNat, Nat.mod_eq_of_lt (by omega)]
  refine ⟨fun he => ?_, fun t ht he => ?_⟩
  · have := congrArg BitVec.toNat he
    rw [h.counter, htoNat n (Nat.le_refl n)] at this
    simp at this
  · obtain ⟨k, hk, hid⟩ := h.drawn t ht
    have := congrArg BitVec.toNat he
    rw [hid, h.counter, htoNat k (Nat.le_of_lt hk), htoNat n (Nat.le_refl n)] at this
    omega

variable [DecidableEq τ]

theorem get_of_ne_zero (h : i.id t ≠ 0) : i.get t = i := if_neg h

theorem get_of_eq_zero (h : i.id t = 0) :
    i.get t = ⟨i.idCounter + 1, Function.update i.id t i.idCounter⟩ := if_pos h

/-- Drawing an id. -/
theorem Issued.get (h : Issued i n) (ht : i.id t = 0) (hn : n + 1 < 2 ^ w) : Issued (i.get t) (n + 1) := by
  obtain ⟨hne, hnew⟩ := h.fresh hn
  rw [get_of_eq_zero ht]
  refine ⟨hn, ?_, fun u hu => ?_, fun u v hu he => ?_⟩
  · rw [ofNat_succ, ← h.counter]
  · dsimp only at hu ⊢
    by_cases hut : u = t
    · subst hut
      rw [Function.update_self]
      exact ⟨n, Nat.lt_succ_self n, h.counter⟩
    · rw [Function.update_of_ne hut] at hu ⊢
      obtain ⟨k, hk, hid⟩ := h.drawn u hu
      exact ⟨k, Nat.lt_succ_of_lt hk, hid⟩
  · dsimp only at hu he
    by_cases hut : u = t
    · by_cases hvt : v = t
      · exact hut.trans hvt.symm
      · subst hut
        rw [Function.update_self, Function.update_of_ne hvt] at he
        exact absurd he.symm (hnew v (he ▸ hne))
    · rw [Function.update_of_ne hut] at hu he
      by_cases hvt : v = t
      · subst hvt
        rw [Function.update_self] at he
        exact absurd he (hnew u hu)
      · rw [Function.update_of_ne hvt] at he
        exact h.injective u v hu he

/-- `assert(id != 0)` holds. -/
theorem Issued.get_ne_zero (h : Issued i n) (hn : i.id t = 0 → n + 1 < 2 ^ w) : (i.get t).id t ≠ 0 := by
  by_cases ht : i.id t = 0
  · rw [get_of_eq_zero ht]
    simpa using (h.fresh (hn ht)).1
  · rwa [get_of_ne_zero ht]

/-- An id once drawn stays. -/
theorem get_id_of_ne_zero (h : i.id u ≠ 0) : (i.get t).id u = i.id u := by
  by_cases ht : i.id t = 0
  · have hut : u ≠ t := fun hut => h (hut ▸ ht)
    rw [get_of_eq_zero ht]
    exact Function.update_of_ne hut ..
  · rw [get_of_ne_zero ht]

end ThreadId

end ParSweet.Locks
