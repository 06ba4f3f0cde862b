import Mathlib.Algebra.BigOperators.Group.List.Basic
import Mathlib.Algebra.Field.Rat
import Mathlib.Data.List.Sort
import Mathlib.Tactic.FieldSimp
import Mathlib.Tactic.Ring

/-! `Stat` of `psweet_stats.py`, from which the table of the benchmarks is made.

Measurements are added one at a time, `trim()` sorts them and cuts entries off at both ends,
and `stats()` sums up what is left. The order in which measurements come does not matter
(`measure_perm`), and the two sums are the mean and the population variance (`stats_eq`).

A tenth of the entries is to go at each end, but `trim()` cuts only where that is more than one:
lists of ten to nineteen measurements keep their outliers (`psweetStats_correct_iff`). -/
namespace ParSweet.PsweetStats

/-! ### Slices -/

section Slice
variable {α : Type*} {xs : List α} {k : ℕ}

/-- The place that an index of a slice stands for: a negative one counts from the end, and no
place is outside of the list. -/
def sliceIndex (length : ℕ) (i : ℤ) : ℕ := if i < 0 then (length + i).toNat else min i.toNat length

/-- `xs[i:j]` -/
def slice (xs : List α) (i j : ℤ) : List α :=
  (xs.take (sliceIndex xs.length j)).drop (sliceIndex xs.length i)

/-- `xs[k:-k]`, where `k` is not `0`. -/
theorem slice_ends (hk : 0 < k) (hlen : 2 * k ≤ xs.length) :
    slice xs k (-k) = (xs.take (xs.length - k)).drop k := by
  have hfirst : sliceIndex xs.length k = k := by
    rw [sliceIndex, if_neg (by omega)]
    omega
  have hlast : sliceIndex xs.length (-k) = xs.length - k := by
    rw [sliceIndex, if_pos (by omega)]
    omega
  rw [slice, hfirst, hlast]

/-- What `xs[k:-k]` leaves out. -/
theorem ends_append (xs : List α) (k : ℕ) (hlen : 2 * k ≤ xs.length) :
    xs.take k ++ (xs.take (xs.length - k)).drop k ++ xs.drop (xs.length - k) = xs := by
  have hfront : xs.take k = (xs.take (xs.length - k)).take k := by
    rw [List.take_take, Nat.min_eq_left (by omega)]
  rw [hfront, List.take_append_drop, List.take_append_drop]

end Slice

/-! ### `Stat` -/

structure Stat where
  values : List ℤ
  trimmed : Bool

/-- `Stat()` -/
def Stat.new : Stat := ⟨[], false⟩

/-- `add(v)`; without a result, the assertion has failed. -/
def Stat.add (s : Stat) (v : ℤ) : Option Stat :=
  if s.trimmed then none else some {s with values := s.values ++ [v]}

/-- `trim()` -/
def Stat.trim (s : Stat) : Option Stat :=
  if s.trimmed then none
  else
    let values := s.values.insertionSort (· ≤ ·)
    let n := values.length / 10
    some ⟨if n > 1 then slice values n (-n) else values, true⟩

/-- What `stats()` returns, with the deviation as what stands under its root. -/
structure Stats where
  avg : ℚ
  variance : ℚ
  n : ℕ

/-- One round of the loop over the values, on `val`, `val2` and `n`. -/
def count (acc : ℚ × ℚ × ℕ) (v : ℤ) : ℚ × ℚ × ℕ := (acc.1 + v, acc.2.1 + v ^ 2, acc.2.2 + 1)

/-- `stats()` -/
def Stat.stats (s : Stat) : Stats :=
  let (val, val2, n) := s.values.foldl count (0, 0, 0)
  let n := if n = 0 then 1 else n
  let avg := val / n
  let avg2 := val2 / n
  ⟨avg, avg2 - avg ^ 2, n⟩

/-- The measurements are added in turn, and then trimmed. -/
def measure (ms : List ℤ) : Option Stat := do
  let s ← ms.foldlM Stat.add .new
  s.trim

/-! ### The mean and the variance -/

def mean (vs : List ℤ) : ℚ := (vs.map fun v : ℤ => (v : ℚ)).sum / vs.length

/-- The population variance. -/
def variance (vs : List ℤ) : ℚ := (vs.map fun v : ℤ => ((v : ℚ) - mean vs) ^ 2).sum / vs.length

theorem foldl_count (vs : List ℤ) (val val2 : ℚ) (n : ℕ) :
    vs.foldl count (val, val2, n) =
      (val + (vs.map fun v : ℤ => (v : ℚ)).sum, val2 + (vs.map fun v : ℤ => (v : ℚ) ^ 2).sum, n + vs.length) := by
  induction vs generalizing val val2 n with
  | nil => simp
  | cons v vs ih =>
    rw [List.foldl_cons, count, ih]
    simp only [List.map_cons, List.sum_cons, List.length_cons, Prod.mk.injEq]
    exact ⟨by ring, by ring, by omega⟩

/-- The sum of the squared distances from `c`. -/
theorem sum_sq_sub (vs : List ℤ) (c : ℚ) :
    (vs.map fun v : ℤ => ((v : ℚ) - c) ^ 2).sum =
      (vs.map fun v : ℤ => (v : ℚ) ^ 2).sum - 2 * c * (vs.map fun v : ℤ => (v : ℚ)).sum + vs.length * c ^ 2 := by
  induction vs with
  | nil => simp
  | cons v vs ih =>
    simp only [List.map_cons, List.sum_cons, List.length_cons, Nat.cast_add, Nat.cast_one, ih]
    ring

/-- **The two sums are enough**: `stats()` returns the mean, the population variance and the
number of the values. -/
theorem stats_eq (s : Stat) (h : s.values ≠ []) :
    s.stats = ⟨mean s.values, variance s.values, s.values.length⟩ := by
  have hlen : s.values.length ≠ 0 := fun h0 => h (List.length_eq_zero_iff.mp h0)
  have hq : (s.values.length : ℚ) ≠ 0 := Nat.cast_ne_zero.mpr hlen
  have hvar : variance s.values =
      (s.values.map fun v : ℤ => (v : ℚ) ^ 2).sum / s.values.length - mean s.values ^ 2 := by
    rw [variance, sum_sq_sub, mean]
    field_simp
    ring
  simp only [Stat.stats, foldl_count, zero_add, if_neg hlen, hvar]
  rfl

/-! ### What is left after `trim()` -/

theorem foldlM_add (ms vs : List ℤ) : ms.foldlM Stat.add ⟨vs, false⟩ = some ⟨vs ++ ms, false⟩ := by
  induction ms generalizing vs with
  | nil => simp
  | cons m ms ih =>
    rw [List.foldlM_cons]
    show ms.foldlM Stat.add ⟨vs ++ [m], false⟩ = _
    rw [ih, List.append_assoc]
    rfl

/-- How many of `m` entries `trim()` cuts off at each end. -/
def cut (m : ℕ) : ℕ := if m / 10 > 1 then m / 10 else 0

theorem two_cut_le (m : ℕ) : 2 * cut m ≤ m := by
  unfold cut
  split <;> omega

/-- The values that are left. -/
def left (ms : List ℤ) : List ℤ :=
  ((ms.insertionSort (· ≤ ·)).take (ms.length - cut ms.length)).drop (cut ms.length)

/-- No assertion fails, and what is left is the middle of the sorted list. -/
theorem measure_eq (ms : List ℤ) : measure ms = some ⟨left ms, true⟩ := by
  have hadd : ms.foldlM Stat.add .new = some ⟨ms, false⟩ := foldlM_add ms []
  have hlen : (ms.insertionSort (· ≤ ·)).length = ms.length := List.length_insertionSort ..
  rw [measure, hadd]
  show Stat.trim ⟨ms, false⟩ = _
  simp only [Stat.trim, Bool.false_eq_true, if_false, hlen, left, cut]
  split
  · rw [slice_ends (by omega) (by omega), hlen]
  · rw [Nat.sub_zero, List.drop_zero, ← hlen, List.take_length]

/-- **The order of the measurements does not matter.** -/
theorem measure_perm {ms ms' : List ℤ} (h : ms'.Perm ms) : measure ms' = measure ms := by
  have hsorted : ms'.insertionSort (· ≤ ·) = ms.insertionSort (· ≤ ·) :=
    ((List.perm_insertionSort _ ms').trans (h.trans (List.perm_insertionSort _ ms).symm)).eq_of_pairwise'
      (List.pairwise_insertionSort _ ms') (List.pairwise_insertionSort _ ms)
  rw [measure_eq, measure_eq, left, left, hsorted, h.length_eq]

/-- `vs` is `ms` in ascending order without its `k` smallest and its `k` largest entries. -/
def Trimmed (k : ℕ) (ms vs : List ℤ) : Prop :=
  ∃ low high, (low ++ vs ++ high).Perm ms ∧ (low ++ vs ++ high).Pairwise (· ≤ ·) ∧
    low.length = k ∧ high.length = k

theorem Trimmed.length {k : ℕ} {ms vs : List ℤ} (h : Trimmed k ms vs) : vs.length + 2 * k = ms.length := by
  obtain ⟨low, high, hperm, _, hlow, hhigh⟩ := h
  have := hperm.length_eq
  simp only [List.length_append] at this
  omega

theorem left_trimmed (ms : List ℤ) : Trimmed (cut ms.length) ms (left ms) := by
  have hlen : (ms.insertionSort (· ≤ ·)).length = ms.length := List.length_insertionSort ..
  have hcut := two_cut_le ms.length
  have happend : (ms.insertionSort (· ≤ ·)).take (cut ms.length) ++ left ms ++
      (ms.insertionSort (· ≤ ·)).drop (ms.length - cut ms.length) = ms.insertionSort (· ≤ ·) := by
    have := ends_append (ms.insertionSort (· ≤ ·)) (cut ms.length) (by omega)
    rwa [hlen] at this
  refine ⟨(ms.insertionSort (· ≤ ·)).take (cut ms.length), (ms.insertionSort (· ≤ ·)).drop (ms.length - cut ms.length),
    ?_, ?_, ?_, ?_⟩
  · rw [happend]
    exact List.perm_insertionSort _ ms
  · rw [happend]
    exact List.pairwise_insertionSort _ ms
  · rw [List.length_take, hlen]
    omega
  · rw [List.length_drop, hlen]
    omega

/-! ### The trimmed statistics -/

/-- What is asked of the statistics of the measurements `ms`: a tenth of them is cut off at each
end, `stats()` is about the values that are left, and another order changes nothing. -/
def Correct (ms : List ℤ) : Prop :=
  ∃ s, measure ms = some s ∧ Trimmed (ms.length / 10) ms s.values ∧
    s.stats = ⟨mean s.values, variance s.values, s.values.length⟩ ∧ ∀ ms', ms'.Perm ms → measure ms' = some s

/-- **The statistics are the trimmed ones exactly where there are fewer than ten measurements, or
at least twenty**: where a tenth of them is a single one, it is not cut off. -/
theorem psweetStats_correct_iff (ms : List ℤ) (h : ms ≠ []) : Correct ms ↔ ms.length < 10 ∨ 20 ≤ ms.length := by
  have hlength := (left_trimmed ms).length
  have hms : ms.length ≠ 0 := fun h0 => h (List.length_eq_zero_iff.mp h0)
  constructor
  · rintro ⟨s, hs, htrim, _⟩
    rw [measure_eq, Option.some.injEq] at hs
    subst hs
    have := htrim.length
    by_contra hbetween
    have hcut : cut ms.length = 0 := by
      rw [cut, if_neg (by omega)]
    simp only at this
    omega
  · intro hlen
    have hcut : cut ms.length = ms.length / 10 := by
      unfold cut
      split <;> omega
    have hleft : left ms ≠ [] := fun h0 => by
      rw [h0, List.length_nil] at hlength
      omega
    refine ⟨⟨left ms, true⟩, measure_eq ms, ?_, stats_eq _ hleft, fun ms' hperm => ?_⟩
    · rw [← hcut]
      exact left_trimmed ms
    · rw [measure_perm hperm, measure_eq]

/-- Of twenty measurements two go at each end, and with them the two outliers. -/
theorem psweetStats_correct_iff_twenty :
    Correct (1000 :: 900 :: List.replicate 18 1) ∧ left (1000 :: 900 :: List.replicate 18 1) = List.replicate 16 1 :=
  ⟨(psweetStats_correct_iff (1000 :: 900 :: List.replicate 18 1) (by decide)).mpr (.inr (by decide)), by decide⟩

/-- Nine measurements of one millisecond and an outlier, which stays. -/
theorem outlier_of_ten : ¬ Correct (1000 :: List.replicate 9 1) := by
  rintro ⟨s, hs, htrim, _⟩
  have hleft : left (1000 :: List.replicate 9 1) = List.replicate 9 1 ++ [1000] := by decide
  rw [measure_eq, hleft, Option.some.injEq] at hs
  subst hs
  exact absurd htrim.length (by decide)

end ParSweet.PsweetStats
