import Mathlib.Data.List.Count
import ParSweet.Concurrent.System

/-! Barriers that hold their participants together, round after round.

`system` is the barrier as one would wish it to be: participants call and then arrive, in
any order, and when all have arrived all are released at once and may return. Whoever is
released may return, call and arrive again while others have not returned yet; nobody is
released again before they have. So no participant is ever more than a round ahead of
another (`keepsRounds`). -/
namespace ParSweet.Concurrent

/-- What is seen of a barrier. -/
inductive BarrierEvent (ι : Type*) where
  | call (i : ι)
  | ret (i : ι)
  deriving DecidableEq

variable {ι : Type*}

/-- No return before as many calls of everybody, and no two numbers of returns more than one
apart. -/
def KeepsRounds [DecidableEq ι] (es : List (BarrierEvent ι)) : Prop :=
  (∀ i j, es.count (.ret i) ≤ es.count (.call j)) ∧ ∀ i j, es.count (.ret i) ≤ es.count (.ret j) + 1

namespace RoundBarrier

/-- Where a participant stands. -/
inductive Phase where
  | outside
  | called
  | arrived
  | released
  deriving DecidableEq

/-- `rounds` is how many times everybody has been released. -/
structure State (ι : Type*) where
  rounds : ℕ
  phase : ι → Phase

inductive Step [DecidableEq ι] : State ι → Option (BarrierEvent ι) → State ι → Prop where
  | call {a i} : a.phase i = .outside →
      Step a (some (.call i)) {a with phase := Function.update a.phase i .called}
  | arrive {a i} : a.phase i = .called →
      Step a none {a with phase := Function.update a.phase i .arrived}
  | release {a} : (∀ i, a.phase i = .arrived) → Step a none ⟨a.rounds + 1, fun _ => .released⟩
  | ret {a i} : a.phase i = .released →
      Step a (some (.ret i)) {a with phase := Function.update a.phase i .outside}

def system (ι : Type*) [DecidableEq ι] : System (State ι) (BarrierEvent ι) where
  initial := ⟨0, fun _ => .outside⟩
  step := Step

/-- How often a participant has called and returned by the end of `n` rounds, by where it stands. -/
def Counted (n calls rets : ℕ) : Phase → Prop
  | .outside => calls = n ∧ rets = n
  | .called => calls = n + 1 ∧ rets = n
  | .arrived => calls = n + 1 ∧ rets = n
  | .released => calls = n ∧ rets + 1 = n

variable [DecidableEq ι] {es : List (BarrierEvent ι)} {a : State ι} {p : Phase} {n calls rets : ℕ}

theorem Counted.bounds (h : Counted n calls rets p) : rets ≤ n ∧ n ≤ calls ∧ calls ≤ rets + 1 := by
  cases p <;> simp only [Counted] at h <;> omega

/-- **Everybody's calls and returns are those of the rounds so far**, up to the round under way. -/
theorem run_counted (h : (system ι).Run es a) (i : ι) :
    Counted a.rounds (es.count (.call i)) (es.count (.ret i)) (a.phase i) := by
  induction h with
  | refl => exact ⟨rfl, rfl⟩
  | step _ hstep ih =>
    cases hstep with
    | @call j hj =>
      by_cases hij : i = j
      · subst hij
        rw [hj] at ih
        simpa [Counted] using ih
      · simpa [hij, Ne.symm hij] using ih
    | @arrive j hj =>
      by_cases hij : i = j
      · subst hij
        rw [hj] at ih
        simpa [Counted] using ih
      · simpa [hij] using ih
    | release hall =>
      rw [hall i] at ih
      simpa [Counted] using ih
    | @ret j hj =>
      by_cases hij : i = j
      · subst hij
        rw [hj] at ih
        simpa [Counted] using ih
      · simpa [hij, Ne.symm hij] using ih

/-- **The ideal barrier keeps its participants together.** -/
theorem keepsRounds (h : (system ι).Run es a) : KeepsRounds es := by
  refine ⟨fun i j => ?_, fun i j => ?_⟩
  · have hi := (run_counted h i).bounds
    have hj := (run_counted h j).bounds
    omega
  · have hi := (run_counted h i).bounds
    have hj := (run_counted h j).bounds
    omega

end RoundBarrier

end ParSweet.Concurrent
