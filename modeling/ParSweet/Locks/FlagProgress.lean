import ParSweet.Concurrent.Fairness
import ParSweet.Concurrent.Sums
import ParSweet.Locks.BackoffLock

/-! Threads that count under a flag get to their end.

None of the flag locks is fair to a caller: one thread may take the flag again and again while
another spins. But a thread that counts has finitely many rounds, so whoever overtakes runs out of
them. The steps that are left of all threads' rounds are the measure (`State.left`); while nobody
holds the flag, whoever is in `lock()` comes nearer to its exchange as well (`Arrives`). -/
namespace ParSweet.Locks.FlagLock
open Concurrent

variable {τ ρ : Type*}

/-- A loop that keeps to `P`, where it never gets stuck, and that comes to its exchange after at
most `K` operations if it does not see the flag up. -/
structure Acquire.Arrives (A : Acquire ρ) (P : ρ → Prop) (rank : ρ → ℕ) (K : ℕ) : Prop where
  keeps : A.Keeps P
  le : ∀ p, rank p ≤ K
  load : ∀ p next, A.op p = .load next → rank (next false) < rank p
  pause : ∀ p next choice q, A.op p = .pause next → next choice = some q → P p → rank q < rank p
  goesOn : ∀ p next, A.op p = .pause next → P p → ∃ choice q, next choice = some q

/-- What is left of a thread's rounds. -/
def Thread.left (CountTo : ℕ) (x : Thread ρ) : ℕ :=
  match x.pc with
  | .loop => 6 * (CountTo - x.c) + 1
  | .lock _ => 6 * (CountTo - (x.c + 1)) + 6
  | .read => 6 * (CountTo - (x.c + 1)) + 5
  | .write _ => 6 * (CountTo - (x.c + 1)) + 4
  | .unlock => 6 * (CountTo - (x.c + 1)) + 3
  | .next => 6 * (CountTo - (x.c + 1)) + 2
  | .done => 0

/-- How far a thread in `lock()` is from its exchange. -/
def Thread.away (rank : ρ → ℕ) (x : Thread ρ) : ℕ :=
  match x.pc with
  | .lock p => rank p
  | _ => 0

section Measure
variable [Fintype τ]

def State.left (CountTo : ℕ) (s : State τ ρ) : ℕ := ∑ t, (s.thread t).left CountTo

def State.away (rank : ρ → ℕ) (s : State τ ρ) : ℕ := ∑ t, (s.thread t).away rank

/-- Nobody comes nearer to an exchange while the flag is up. -/
def State.measure (CountTo : ℕ) (rank : ρ → ℕ) (K : ℕ) (s : State τ ρ) : ℕ :=
  s.left CountTo * (Fintype.card τ * K + 1) + if s.aBool then Fintype.card τ * K else s.away rank

variable {CountTo K : ℕ} {rank : ρ → ℕ} {s s' : State τ ρ}

theorem State.away_le (hle : ∀ p, rank p ≤ K) (s : State τ ρ) : s.away rank ≤ Fintype.card τ * K := by
  refine (Finset.sum_le_card_nsmul Finset.univ _ K fun t _ => ?_).trans (le_of_eq (by simp [Finset.card_univ]))
  unfold Thread.away
  split
  · exact hle _
  · exact Nat.zero_le K

/-- A step of a round makes the measure smaller, wherever it leaves the flag. -/
theorem State.measure_lt_of_left (hle : ∀ p, rank p ≤ K) (hleft : s'.left CountTo < s.left CountTo) :
    s'.measure CountTo rank K < s.measure CountTo rank K := by
  have hsecond : (if s'.aBool then Fintype.card τ * K else s'.away rank) ≤ Fintype.card τ * K := by
    split
    · exact Nat.le_refl _
    · exact s'.away_le hle
  have hfirst := Nat.mul_le_mul_right (Fintype.card τ * K + 1) (Nat.succ_le_of_lt hleft)
  rw [Nat.succ_mul] at hfirst
  unfold measure
  omega

variable [DecidableEq τ] {t : τ} {x : Thread ρ}

/-- One summand is smaller, the others are as they were. -/
theorem sum_update_lt (f : Thread ρ → ℕ) (thread : τ → Thread ρ) (h : f x < f (thread t)) :
    ∑ u, f (Function.update thread t x u) < ∑ u, f (thread u) := by
  refine sum_lt (t := t) (fun u hu => ?_) (by rwa [Function.update_self])
  rw [Function.update_of_ne hu]

theorem sum_update_eq (f : Thread ρ → ℕ) (thread : τ → Thread ρ) (h : f x = f (thread t)) :
    ∑ u, f (Function.update thread t x u) = ∑ u, f (thread u) := by
  refine Finset.sum_congr rfl fun u _ => ?_
  by_cases hu : u = t
  · rw [hu, Function.update_self, h]
  · rw [Function.update_of_ne hu]

end Measure

/-! ### Every step but those of a waiting loop is one of a round -/

section Step
variable [DecidableEq τ] [Fintype τ] {A : Acquire ρ} {P : ρ → Prop} {rank : ρ → ℕ} {CountTo K : ℕ} {s s' : State τ ρ}
  {t : τ}

/-- Either a round comes nearer to its end, or `t` stays in `lock()` and touches nothing; if the
flag is down, `t` has come nearer to its exchange. -/
theorem Stepped.less_or_spins (hA : A.Arrives P rank K) (hs : s.Meets P) (h : Stepped A CountTo s t s') :
    s'.left CountTo < s.left CountTo ∨ ∃ p q, (s.thread t).pc = .lock p ∧ s' = s.goto t (.lock q) ∧
      (s.aBool = false → rank q < rank p) := by
  cases h with
  | loop hp =>
    refine .inl (sum_update_lt (Thread.left CountTo) s.thread ?_)
    simp only [Thread.left, hp]
    split_ifs with hc
    · simp only
      omega
    · simp only
      omega
  | load hp hop =>
    refine .inr ⟨_, _, hp, rfl, fun hflag => ?_⟩
    rw [hflag]
    exact hA.load _ _ hop
  | again hp hop hflag => exact .inr ⟨_, _, hp, rfl, fun hdown => by rw [hflag] at hdown; cases hdown⟩
  | pause hp hop hq => exact .inr ⟨_, _, hp, rfl, fun _ => hA.pause _ _ _ _ hop hq (hs t _ hp)⟩
  | next hp =>
    refine .inl (sum_update_lt (Thread.left CountTo) s.thread ?_)
    simp only [Thread.left, hp]
    omega
  | take hp | read hp | write hp | unlock hp =>
    refine .inl (sum_update_lt (Thread.left CountTo) s.thread ?_)
    simp only [Thread.left, hp]
    omega

/-- A thread that spins has the rounds left that it had. -/
theorem left_spin {p q : ρ} (hp : (s.thread t).pc = .lock p) : (s.goto t (.lock q)).left CountTo = s.left CountTo :=
  sum_update_eq (Thread.left CountTo) s.thread (by simp only [Thread.left, hp])

theorem away_spin {p q : ρ} (hp : (s.thread t).pc = .lock p) (hrank : rank q < rank p) :
    (s.goto t (.lock q)).away rank < s.away rank :=
  sum_update_lt (Thread.away rank) s.thread (by simpa only [Thread.away, hp] using hrank)

/-- Some step of `t` is possible. -/
def Can (M : Machine (State τ ρ) (Action τ) Empty) (s : State τ ρ) (t : τ) : Prop :=
  ∃ choice, (M.next s ⟨t, choice⟩).isSome

omit [Fintype τ] in
/-- A thread that is not done has a step. -/
theorem Acquire.Arrives.can (hA : A.Arrives P rank K) (hs : s.Meets P) {counter : BitVec 64}
    (ht : (s.thread t).pc ≠ .done) : Can (machine τ A CountTo counter) s t := by
  cases hp : (s.thread t).pc with
  | lock p =>
    cases hop : A.op p with
    | load next => exact ⟨0, by simp [machine, step, hp, hop]⟩
    | exchange again =>
      refine ⟨0, ?_⟩
      simp only [machine, step, hp, hop]
      split <;> rfl
    | pause next =>
      obtain ⟨choice, q, hq⟩ := hA.goesOn p next hop (hs t p hp)
      exact ⟨choice, by simp [machine, step, hp, hop, hq]⟩
  | done => exact absurd hp ht
  | _ => exact ⟨0, by simp [machine, step, hp]⟩

end Step

/-! ### The end -/

/-- Under every schedule that leaves out nobody for good who has a step, there comes the moment
from which on every thread has returned from its `CountTo` rounds and the counter has grown by
all of them. -/
def Ends [Fintype τ] [DecidableEq τ] (M : Machine (State τ ρ) (Action τ) Empty) (CountTo : ℕ) : Prop :=
  ∀ sched, M.Fair Action.t (Can M) sched → ∃ m, ∀ n, m ≤ n →
    (∀ t, ((M.state sched n).thread t).pc = .done) ∧
      (M.state sched n).counter = M.initial.counter + BitVec.ofNat 64 (Fintype.card τ * CountTo)

section End
variable [DecidableEq τ] [Fintype τ] {A : Acquire ρ} {P : ρ → Prop} {rank : ρ → ℕ} {CountTo K : ℕ}
  {counter : BitVec 64} {sched : ℕ → Action τ}

/-- **Sooner or later all threads are done.** Whoever holds the flag helps; while it is down,
everybody does who is not done. -/
theorem Acquire.Arrives.leadsTo_done (hA : A.Arrives P rank K)
    (hfair : (machine τ A CountTo counter).Fair Action.t (Can (machine τ A CountTo counter)) sched) :
    (machine τ A CountTo counter).LeadsTo sched (fun _ _ => True) fun _ s => ∀ t, (s.thread t).pc = .done := by
  have hleads : (machine τ A CountTo counter).LeadsTo sched (fun _ s => ∃ t, (s.thread t).pc ≠ .done)
      fun _ s => ∀ t, (s.thread t).pc = .done := by
    refine .of_helper (fun _ s => s.measure CountTo rank K)
      (fun _ s t => (s.thread t).pc ≠ .done ∧ (s.aBool = true → (s.thread t).pc.Inside)) hfair ?_ ?_ ?_
    · rintro es s hrun ⟨t, ht⟩
      obtain ⟨h, hs⟩ := reachable_exact ⟨es, hrun⟩
      cases hflag : s.aBool with
      | false => exact ⟨t, ht, by simp⟩
      | true =>
        obtain ⟨u, hu, _⟩ := hs.flag_iff.mp hflag
        refine ⟨u, fun hdone => ?_, fun _ => hu⟩
        rw [hdone] at hu
        exact hu
    · rintro es s t hrun - ⟨ht, _⟩
      exact hA.can (hA.keeps.reachable ⟨es, hrun⟩) ht
    · rintro es s a l s' hrun - hstep
      by_cases hgoal : ∀ t, (s'.thread t).pc = .done
      · exact .goal hgoal
      · rcases (step_cases hstep).less_or_spins hA (hA.keeps.reachable ⟨es, hrun⟩) with hless | ⟨p, q, hp, rfl, hrank⟩
        · exact .less (not_forall.mp hgoal) (State.measure_lt_of_left hA.le hless)
        · cases hflag : s.aBool with
          | false =>
            refine .less (not_forall.mp hgoal) ?_
            have hdown : (s.goto a.t (.lock q)).aBool = false := hflag
            have haway := away_spin hp (hrank hflag)
            simp only [State.measure, hflag, hdown, left_spin hp]
            simpa using haway
          | true =>
            have hup : (s.goto a.t (.lock q)).aBool = true := hflag
            refine .keep (not_forall.mp hgoal) (by simp [State.measure, hflag, hup, left_spin hp]) ?_
            rintro u ⟨hu, hinside⟩
            have hne : a.t ≠ u := by
              rintro rfl
              have := hinside hflag
              rw [hp] at this
              exact this
            have hpc : (s.goto a.t (.lock q)).thread u = s.thread u := Function.update_of_ne hne.symm _ _
            exact ⟨hne, by rw [hpc]; exact ⟨hu, hinside⟩⟩
  intro n _
  by_cases hdone : ∀ t, (((machine τ A CountTo counter).state sched n).thread t).pc = .done
  · exact ⟨n, le_rfl, hdone⟩
  · exact hleads n (not_forall.mp hdone)

omit [Fintype τ] in
theorem step_done {s : State τ ρ} {a : Action τ} (hdone : (s.thread a.t).pc = .done) : step A CountTo s a = none := by
  simp only [step, hdone]

omit [Fintype τ] in
/-- When all are done, nothing happens any more. -/
theorem done_stays {m n : ℕ} (hmn : m ≤ n) (hdone : ∀ t, (((machine τ A CountTo counter).state sched m).thread t).pc = .done) :
    (machine τ A CountTo counter).state sched n = (machine τ A CountTo counter).state sched m := by
  induction n, hmn using Nat.le_induction with
  | base => rfl
  | succ n _ ih =>
    rcases (machine τ A CountTo counter).course_succ sched n with ⟨_, hstate, _⟩ | ⟨l, hnext, _⟩
    · exact hstate.trans ih
    · rw [ih] at hnext
      have hnone : step A CountTo _ (sched n) = none := step_done (hdone (sched n).t)
      exact absurd (hnext.symm.trans hnone) nofun

theorem Acquire.Arrives.ends (hA : A.Arrives P rank K) : Ends (machine τ A CountTo counter) CountTo := by
  intro sched hfair
  obtain ⟨m, _, hdone⟩ := hA.leadsTo_done hfair 0 trivial
  refine ⟨m, fun n hn => ?_⟩
  rw [done_stays hn hdone]
  exact ⟨hdone, (losesNothing τ A CountTo counter).grown _ ⟨_, (machine τ A CountTo counter).course_run sched m⟩ hdone⟩

end End

/-! ### The loops -/

/-- What a loop keeps when it counts its failed attempts, it keeps. -/
theorem Acquire.Keeps.of_counting {A : Acquire ρ} {Q : ρ × ℕ → Prop} (h : A.counting.Keeps Q) :
    A.Keeps fun p => ∃ n, Q (p, n) where
  start := ⟨0, h.start⟩
  load := fun p _ aBool hop ⟨n, hp⟩ => ⟨n, h.load (p, n) _ aBool (A.counting_op hop n) hp⟩
  exchange := fun p _ hop ⟨n, hp⟩ => ⟨n + 1, h.exchange (p, n) _ (A.counting_op hop n) hp⟩
  pause := fun p _ choice q hop hq ⟨n, hp⟩ =>
    ⟨n, h.pause (p, n) _ choice (q, n) (A.counting_op hop n) (by rw [hq]; rfl) hp⟩

/-- How far a place in the loop of the back-off lock is from the exchange. -/
def away : BackoffLock.Pc → ℕ
  | .exchange _ => 0
  | .load _ => 1
  | .yield _ | .sleep .. => 2
  | .draw _ => 3

/-- The back-off never gets stuck while the double of its cap is an `int`. -/
theorem Loop.arrives {A : Acquire ρ} {place : BackoffLock.Pc → ρ} {MinDelay MaxDelay : ℤ} {rank : ρ → ℕ}
    (hL : Loop A place MinDelay MaxDelay) (hmin : 1 ≤ MinDelay) (hle : MinDelay ≤ MaxDelay) (hmax : MaxDelay < 2 ^ 30)
    (hrank : ∀ pc, rank (place pc) = away pc) (hbound : ∀ p, rank p ≤ 3)
    (hload : ∀ p next, A.op p = .load next → rank (next false) < rank p) :
    A.Arrives (fun p => ∃ n pc, p = place pc ∧ At MinDelay MaxDelay n pc) rank 3 where
  keeps := (hL.keeps_at hmin hle hmax).of_counting
  le := hbound
  load := hload
  pause := by
    rintro p next choice q hop hq ⟨n, pc, rfl, hp⟩
    cases pc with
    | load delayLimit => simp [hL.load] at hop
    | exchange delayLimit => simp [hL.exchange] at hop
    | yield delayLimit =>
      rw [hL.yield] at hop
      cases hop
      cases hq
      simp [hrank, away]
    | draw delayLimit =>
      obtain ⟨k, rfl, rfl⟩ := hp
      obtain ⟨_, hdraw, hnext⟩ := hL.draw (limit MinDelay MaxDelay k)
      rw [hdraw] at hop
      cases hop
      have hlimit : limit MinDelay MaxDelay k ≤ MaxDelay := limit_le k
      rw [(hnext (limit_pos hmin hle k) (by omega)).2 choice q hq, hrank, hrank]
      simp [away]
    | sleep delay delayLimit =>
      rw [hL.sleep] at hop
      cases hop
      cases hq
      simp [hrank, away]
  goesOn := by
    rintro p next hop ⟨n, pc, rfl, hp⟩
    cases pc with
    | load delayLimit => simp [hL.load] at hop
    | exchange delayLimit => simp [hL.exchange] at hop
    | yield delayLimit =>
      rw [hL.yield] at hop
      cases hop
      exact ⟨0, _, rfl⟩
    | draw delayLimit =>
      obtain ⟨k, rfl, rfl⟩ := hp
      obtain ⟨_, hdraw, hnext⟩ := hL.draw (limit MinDelay MaxDelay k)
      rw [hdraw] at hop
      cases hop
      have hlimit : limit MinDelay MaxDelay k ≤ MaxDelay := limit_le k
      exact ⟨0, (hnext (limit_pos hmin hle k) (by omega)).1⟩
    | sleep delay delayLimit =>
      rw [hL.sleep] at hop
      cases hop
      exact ⟨0, _, rfl⟩

end FlagLock

namespace TASLock
open FlagLock

def away : Pc → ℕ
  | .exchange => 0
  | .yield => 1

theorem arrives : lock.Arrives (fun _ => True) away 1 where
  keeps := ⟨trivial, fun _ _ _ _ _ => trivial, fun _ _ _ _ => trivial, fun _ _ _ _ _ _ _ => trivial⟩
  le := fun p => by cases p <;> simp [away]
  load := fun p _ hop => by cases p <;> cases hop
  pause := fun p _ _ _ hop hq _ => by cases p <;> cases hop; cases hq; simp [away]
  goesOn := fun p _ hop _ => by cases p <;> cases hop; exact ⟨0, _, rfl⟩

end TASLock

namespace TTASLock
open FlagLock

def away : Pc → ℕ
  | .exchange => 0
  | .load => 1
  | .yield => 2

theorem arrives : lock.Arrives (fun _ => True) away 2 where
  keeps := ⟨trivial, fun _ _ _ _ _ => trivial, fun _ _ _ _ => trivial, fun _ _ _ _ _ _ _ => trivial⟩
  le := fun p => by cases p <;> simp [away]
  load := fun p _ hop => by cases p <;> cases hop; simp [away]
  pause := fun p _ _ _ hop hq _ => by cases p <;> cases hop; cases hq; simp [away]
  goesOn := fun p _ hop _ => by cases p <;> cases hop; exact ⟨0, _, rfl⟩

end TTASLock

namespace JavaBackoffLock
open FlagLock

def away : Pc → ℕ
  | .exchange _ | .thrown => 0
  | .load _ => 1
  | .yield _ | .sleep .. => 2
  | .draw _ => 3

end JavaBackoffLock

namespace FlagLock
open Concurrent

variable {MinDelay MaxDelay : ℤ}

theorem backoffLock_arrives (hmin : 1 ≤ MinDelay) (hle : MinDelay ≤ MaxDelay) (hmax : MaxDelay < 2 ^ 30) :
    ∃ P, (BackoffLock.lock MinDelay MaxDelay).Arrives P away 3 :=
  ⟨_, (BackoffLock.loop MinDelay MaxDelay).arrives hmin hle hmax (fun _ => rfl)
    (fun p => by cases p <;> simp [away]) fun p _ hop => by cases p <;> cases hop; simp [away]⟩

theorem javaBackoffLock_arrives (hmin : 1 ≤ MinDelay) (hle : MinDelay ≤ MaxDelay) (hmax : MaxDelay < 2 ^ 30) :
    ∃ P, (JavaBackoffLock.lock MinDelay MaxDelay).Arrives P JavaBackoffLock.away 3 :=
  ⟨_, (JavaBackoffLock.loop MinDelay MaxDelay).arrives hmin hle hmax (fun pc => by cases pc <;> rfl)
    (fun p => by cases p <;> simp [JavaBackoffLock.away]) fun p _ hop => by
      cases p <;> cases hop; simp [JavaBackoffLock.away]⟩

/-- **The threads that count under a flag lock all end, with nothing lost**, if the back-off's
legal delays stay so. -/
theorem flagLocks_end (τ : Type*) [DecidableEq τ] [Fintype τ] (CountTo : ℕ) (counter : BitVec 64)
    (hmin : 1 ≤ MinDelay) (hle : MinDelay ≤ MaxDelay) (hmax : MaxDelay < 2 ^ 30) :
    Ends (machine τ TASLock.lock CountTo counter) CountTo ∧
      Ends (machine τ TTASLock.lock CountTo counter) CountTo ∧
      Ends (machine τ (BackoffLock.lock MinDelay MaxDelay) CountTo counter) CountTo ∧
      Ends (machine τ (JavaBackoffLock.lock MinDelay MaxDelay) CountTo counter) CountTo := by
  obtain ⟨_, hcpp⟩ := backoffLock_arrives hmin hle hmax
  obtain ⟨_, hjava⟩ := javaBackoffLock_arrives hmin hle hmax
  exact ⟨TASLock.arrives.ends, TTASLock.arrives.ends, hcpp.ends, hjava.ends⟩

/-- Two threads as in the suite's test, the delays at their defaults. -/
theorem flagLocks_end_two :
    Ends (machine (Fin 2) TASLock.lock 20000 0) 20000 ∧
      Ends (machine (Fin 2) TTASLock.lock 20000 0) 20000 ∧
      Ends (machine (Fin 2) (BackoffLock.lock 1 17) 20000 0) 20000 ∧
      Ends (machine (Fin 2) (JavaBackoffLock.lock 1 17) 20000 0) 20000 :=
  flagLocks_end (Fin 2) 20000 0 (by decide) (by decide) (by decide)

end FlagLock
end ParSweet.Locks
