import Mathlib.Algebra.BigOperators.Group.Finset.Basic
import Mathlib.Data.Fintype.BigOperators
import ParSweet.Concurrent.System
import ParSweet.Counter

/-! `TASLock`, `TTASLock` and `BackoffLock` of the C++ suite, and threads that count under
one of them.

The three are one flag, `aBool`, with three loops that take it (`Acquire`). Every thread
runs the loop of `work`: it takes the lock, reads the counter, writes it back one higher
and stores `false` into the flag. The flag shows whether there is a thread between its
exchange and its store, the copy such a thread has made of the counter is the counter, and
the counter is what the rounds of all threads add up to (`Exact`). -/
namespace ParSweet.Locks.FlagLock
open Concurrent

/-- What the loop of a `lock()` does next. -/
inductive Op (ρ : Type*) where
  /-- `aBool.load()` -/
  | load (next : Bool → ρ)
  /-- `aBool.exchange(true)`; if the flag was set, the loop goes on at `again`. -/
  | exchange (again : ρ)
  /-- Nothing that touches the flag: a yield, a sleep, or a number drawn at random. What is
  undefined is not a step. -/
  | pause (next : ℤ → Option ρ)

/-- The loop of a `lock()`. -/
structure Acquire (ρ : Type*) where
  start : ρ
  op : ρ → Op ρ

/-- Where a thread stands. -/
inductive Pc (ρ : Type*) where
  /-- `c < CountTo` -/
  | loop
  /-- In `lock()`. -/
  | lock (p : ρ)
  /-- `++counter` reads the counter ... -/
  | read
  /-- ... and writes it. -/
  | write (counter : BitVec 64)
  /-- `aBool.store(false)` -/
  | unlock
  /-- `++c` -/
  | next
  /-- `work` has returned. -/
  | done

structure Thread (ρ : Type*) where
  pc : Pc ρ
  c : ℕ

structure State (τ ρ : Type*) where
  aBool : Bool
  counter : BitVec 64
  thread : τ → Thread ρ

/-- The next atomic step of `t`; `choice` is the number it draws if it draws one. -/
structure Action (τ : Type*) where
  t : τ
  choice : ℤ

variable {τ ρ : Type*} [DecidableEq τ]

def State.goto (s : State τ ρ) (t : τ) (pc : Pc ρ) : State τ ρ :=
  {s with thread := Function.update s.thread t {s.thread t with pc := pc}}

def step (A : Acquire ρ) (CountTo : ℕ) (s : State τ ρ) (a : Action τ) : Option (Option Empty × State τ ρ) :=
  let t := a.t
  match (s.thread t).pc with
  | .loop => some (none, s.goto t (if (s.thread t).c < CountTo then .lock A.start else .done))
  | .lock p =>
    match A.op p with
    | .load next => some (none, s.goto t (.lock (next s.aBool)))
    | .exchange again =>
      if s.aBool then some (none, s.goto t (.lock again))
      else some (none, {s with aBool := true}.goto t .read)
    | .pause next => (next a.choice).map fun p => (none, s.goto t (.lock p))
  | .read => some (none, s.goto t (.write s.counter))
  | .write counter => some (none, {s with counter := counter + 1}.goto t .unlock)
  | .unlock => some (none, {s with aBool := false}.goto t .next)
  | .next => some (none, {s with thread := Function.update s.thread t ⟨.loop, (s.thread t).c + 1⟩})
  | .done => none

/-- The lock, the counter and the threads. -/
def machine (τ : Type*) [DecidableEq τ] (A : Acquire ρ) (CountTo : ℕ) (counter : BitVec 64) :
    Machine (State τ ρ) (Action τ) Empty where
  initial := ⟨false, counter, fun _ => ⟨.loop, 0⟩⟩
  next := step A CountTo

end FlagLock

/-! ### The three loops -/

namespace TASLock
open FlagLock

inductive Pc where
  /-- `while (aBool.exchange(true))` -/
  | exchange
  /-- `std::this_thread::yield()` -/
  | yield

def lock : Acquire Pc where
  start := .exchange
  op := fun
    | .exchange => .exchange .yield
    | .yield => .pause fun _ => some .exchange

end TASLock

namespace TTASLock
open FlagLock

inductive Pc where
  /-- `!aBool.load()` -/
  | load
  /-- `!aBool.exchange(true)` -/
  | exchange
  /-- `std::this_thread::yield()` -/
  | yield

def lock : Acquire Pc where
  start := .load
  op := fun
    | .load => .load fun aBool => if aBool then .yield else .exchange
    | .exchange => .exchange .yield
    | .yield => .pause fun _ => some .load

end TTASLock

namespace BackoffLock
open FlagLock

inductive Pc where
  /-- `while (aBool.load())` -/
  | load (delayLimit : ℤ)
  /-- `std::this_thread::yield()` -/
  | yield (delayLimit : ℤ)
  /-- `if (!aBool.exchange(true))` -/
  | exchange (delayLimit : ℤ)
  /-- `getRand(0, delayLimit)` -/
  | draw (delayLimit : ℤ)
  /-- `std::this_thread::sleep_for(delay)` -/
  | sleep (delay delayLimit : ℤ)

def lock (MinDelay MaxDelay : ℤ) : Acquire Pc where
  start := .load MinDelay
  op := fun
    | .load delayLimit => .load fun aBool => if aBool then .yield delayLimit else .exchange delayLimit
    | .yield delayLimit => .pause fun _ => some (.load delayLimit)
    | .exchange delayLimit => .exchange (.draw delayLimit)
    | .draw delayLimit => .pause fun delay =>
      -- a number from an empty range and an overflow of `2 * delayLimit` are undefined
      if 0 ≤ delay ∧ delay ≤ delayLimit ∧ 2 * delayLimit ≤ 2147483647 then
        some (.sleep delay (min MaxDelay (2 * delayLimit)))
      else none
    | .sleep _ delayLimit => .pause fun _ => some (.load delayLimit)

end BackoffLock

namespace FlagLock
open Concurrent

/-! ### What a step can do -/

section Step
variable {τ ρ : Type*} [DecidableEq τ] {A : Acquire ρ} {CountTo : ℕ} {s s' : State τ ρ}

/-- What a step of `t` leads to. -/
inductive Stepped (A : Acquire ρ) (CountTo : ℕ) (s : State τ ρ) (t : τ) : State τ ρ → Prop where
  | loop : (s.thread t).pc = .loop →
      Stepped A CountTo s t (s.goto t (if (s.thread t).c < CountTo then .lock A.start else .done))
  | load {p next} : (s.thread t).pc = .lock p → A.op p = .load next →
      Stepped A CountTo s t (s.goto t (.lock (next s.aBool)))
  /-- The exchange fails ... -/
  | again {p again} : (s.thread t).pc = .lock p → A.op p = .exchange again → s.aBool = true →
      Stepped A CountTo s t (s.goto t (.lock again))
  /-- ... or takes the flag. -/
  | take {p again} : (s.thread t).pc = .lock p → A.op p = .exchange again → s.aBool = false →
      Stepped A CountTo s t ({s with aBool := true}.goto t .read)
  | pause {p next choice q} : (s.thread t).pc = .lock p → A.op p = .pause next → next choice = some q →
      Stepped A CountTo s t (s.goto t (.lock q))
  | read : (s.thread t).pc = .read → Stepped A CountTo s t (s.goto t (.write s.counter))
  | write {v} : (s.thread t).pc = .write v → Stepped A CountTo s t ({s with counter := v + 1}.goto t .unlock)
  | unlock : (s.thread t).pc = .unlock → Stepped A CountTo s t ({s with aBool := false}.goto t .next)
  | next : (s.thread t).pc = .next →
      Stepped A CountTo s t {s with thread := Function.update s.thread t ⟨.loop, (s.thread t).c + 1⟩}

theorem step_cases {a : Action τ} {l : Option Empty} (hstep : step A CountTo s a = some (l, s')) :
    Stepped A CountTo s a.t s' := by
  unfold step at hstep
  cases hp : (s.thread a.t).pc with
  | lock p =>
    simp only [hp] at hstep
    cases hop : A.op p with
    | load next =>
      simp only [hop, Option.some.injEq, Prod.mk.injEq] at hstep
      obtain ⟨_, rfl⟩ := hstep
      exact .load hp hop
    | exchange again =>
      simp only [hop] at hstep
      split at hstep
      · next hflag =>
        simp only [Option.some.injEq, Prod.mk.injEq] at hstep
        obtain ⟨_, rfl⟩ := hstep
        exact .again hp hop hflag
      · next hflag =>
        simp only [Option.some.injEq, Prod.mk.injEq] at hstep
        obtain ⟨_, rfl⟩ := hstep
        exact .take hp hop (Bool.of_not_eq_true hflag)
    | pause next =>
      simp only [hop, Option.map_eq_some_iff, Prod.mk.injEq] at hstep
      obtain ⟨q, hq, _, rfl⟩ := hstep
      exact .pause hp hop hq
  | loop =>
    simp only [hp, Option.some.injEq, Prod.mk.injEq] at hstep
    obtain ⟨_, rfl⟩ := hstep
    exact .loop hp
  | read =>
    simp only [hp, Option.some.injEq, Prod.mk.injEq] at hstep
    obtain ⟨_, rfl⟩ := hstep
    exact .read hp
  | write v =>
    simp only [hp, Option.some.injEq, Prod.mk.injEq] at hstep
    obtain ⟨_, rfl⟩ := hstep
    exact .write hp
  | unlock =>
    simp only [hp, Option.some.injEq, Prod.mk.injEq] at hstep
    obtain ⟨_, rfl⟩ := hstep
    exact .unlock hp
  | next =>
    simp only [hp, Option.some.injEq, Prod.mk.injEq] at hstep
    obtain ⟨_, rfl⟩ := hstep
    exact .next hp
  | done => simp [hp] at hstep

end Step

/-! ### Who is inside, and what the rounds add up to -/

variable {τ ρ : Type*}

/-- Between the exchange that has taken the flag and the store that gives it back. -/
def Pc.Inside : Pc ρ → Prop
  | .read | .write _ | .unlock => True
  | _ => False

/-- The rounds whose increment has been written. -/
def Thread.counted (x : Thread ρ) : ℕ :=
  match x.pc with
  | .unlock | .next => x.c + 1
  | _ => x.c

def total [Fintype τ] (thread : τ → Thread ρ) : ℕ := ∑ t, (thread t).counted

/-- A thread begins no round beyond the last, and ends only after it. -/
def Thread.Within (CountTo : ℕ) (x : Thread ρ) : Prop :=
  match x.pc with
  | .loop => x.c ≤ CountTo
  | .done => x.c = CountTo
  | _ => x.c < CountTo

/-- The flag shows the holder `h`, and the counter is exact. -/
structure Exact [Fintype τ] (CountTo : ℕ) (counter : BitVec 64) (h : Option τ) (s : State τ ρ) : Prop where
  flag : s.aBool = h.isSome
  inside : ∀ t, (s.thread t).pc.Inside ↔ h = some t
  copy : ∀ t v, (s.thread t).pc = .write v → v = s.counter
  counter : s.counter = counter + BitVec.ofNat 64 (total s.thread)
  within : ∀ t, (s.thread t).Within CountTo

variable [DecidableEq τ] [Fintype τ] {s s' : State τ ρ} {t u : τ} {x : Thread ρ} {pc : Pc ρ} {h : Option τ} {CountTo : ℕ}
  {counter : BitVec 64} {A : Acquire ρ}

theorem total_update (thread : τ → Thread ρ) :
    total (Function.update thread t x) + (thread t).counted = total thread + x.counted := by
  have hrest : ∑ u ∈ Finset.univ.erase t, (Function.update thread t x u).counted =
      ∑ u ∈ Finset.univ.erase t, (thread u).counted :=
    Finset.sum_congr rfl fun u hu => by rw [Function.update_of_ne (Finset.ne_of_mem_erase hu)]
  have hnew := Finset.add_sum_erase Finset.univ (fun u => (Function.update thread t x u).counted) (Finset.mem_univ t)
  have hold := Finset.add_sum_erase Finset.univ (fun u => (thread u).counted) (Finset.mem_univ t)
  rw [hrest, Function.update_self] at hnew
  rw [total, total]
  omega

/-- A step of `t`, after which it stands at `x` and `h'` is the holder. -/
theorem Exact.update (hs : Exact CountTo counter h s) {aBool : Bool} {n : BitVec 64} {h' : Option τ}
    (hflag : aBool = h'.isSome) (hself : x.pc.Inside ↔ h' = some t) (hother : ∀ u, u ≠ t → (h = some u ↔ h' = some u))
    (hcopy : ∀ v, x.pc = .write v → v = n) (hstale : ∀ u, u ≠ t → ∀ v, (s.thread u).pc = .write v → v = n)
    (hcounter : n = counter + BitVec.ofNat 64 (total (Function.update s.thread t x))) (hwithin : x.Within CountTo) :
    Exact CountTo counter h' ⟨aBool, n, Function.update s.thread t x⟩ where
  flag := hflag
  inside := (Function.forall_update_iff s.thread fun u y => y.pc.Inside ↔ h' = some u).mpr
    ⟨hself, fun u hu => (hs.inside u).trans (hother u hu)⟩
  copy := (Function.forall_update_iff s.thread fun _ y => ∀ v, y.pc = .write v → v = n).mpr ⟨hcopy, hstale⟩
  counter := hcounter
  within := (Function.forall_update_iff s.thread fun _ y => y.Within CountTo).mpr
    ⟨hwithin, fun u _ => hs.within u⟩

/-- A step that writes no increment adds nothing to the total. -/
theorem Exact.counter_eq (hs : Exact CountTo counter h s) (hcounted : x.counted = (s.thread t).counted) :
    s.counter = counter + BitVec.ofNat 64 (total (Function.update s.thread t x)) := by
  have := total_update (t := t) (x := x) s.thread
  rw [show total (Function.update s.thread t x) = total s.thread by omega]
  exact hs.counter

/-- A step of `t` that touches neither the flag nor the counter. -/
theorem Exact.move (hs : Exact CountTo counter h s) (hin : x.pc.Inside ↔ (s.thread t).pc.Inside)
    (hcopy : ∀ v, x.pc = .write v → v = s.counter) (hcounted : x.counted = (s.thread t).counted)
    (hwithin : x.Within CountTo) :
    Exact CountTo counter h {s with thread := Function.update s.thread t x} :=
  hs.update hs.flag (hin.trans (hs.inside t)) (fun _ _ => Iff.rfl) hcopy (fun u _ => hs.copy u)
    (hs.counter_eq hcounted) hwithin

omit [DecidableEq τ] in
/-- Nobody is inside while the flag is not set. -/
theorem Exact.holder_eq_none (hs : Exact CountTo counter h s) (hflag : s.aBool = false) : h = none := by
  rw [hs.flag] at hflag
  exact Option.isNone_iff_eq_none.mp (by simpa using hflag)

/-- The exchange that takes the flag. -/
theorem Exact.exchange (hs : Exact CountTo counter h s) (hflag : s.aBool = false) {p : ρ}
    (hp : (s.thread t).pc = .lock p) : Exact CountTo counter (some t) ({s with aBool := true}.goto t .read) := by
  obtain rfl := hs.holder_eq_none hflag
  have hwithin := hs.within t
  simp only [Thread.Within, hp] at hwithin
  refine hs.update rfl (by simp [Pc.Inside]) (fun u hu => ?_) (fun v hv => ?_) (fun u _ => hs.copy u)
    (hs.counter_eq ?_) hwithin
  · simpa using Ne.symm hu
  · cases hv
  · simp [Thread.counted, hp]

/-- The increment is written, from a copy that is not stale. -/
theorem Exact.write (hs : Exact CountTo counter h s) {v : BitVec 64} (hp : (s.thread t).pc = .write v) :
    Exact CountTo counter h ({s with counter := v + 1}.goto t .unlock) := by
  have hwithin := hs.within t
  have htotal := total_update (t := t) (x := ⟨.unlock, (s.thread t).c⟩) s.thread
  simp only [Thread.Within, Thread.counted, hp] at hwithin htotal
  obtain rfl := hs.copy t v hp
  have hheld : h = some t := (hs.inside t).mp (by rw [hp]; trivial)
  refine hs.update hs.flag (by simp [Pc.Inside, hheld]) (fun _ _ => Iff.rfl) (fun v hv => ?_)
    (fun u hu v hv => ?_) ?_ hwithin
  · cases hv
  · -- nobody else has a copy
    have := (hs.inside u).mp (by rw [hv]; trivial)
    exact absurd (Option.some.inj (this.symm.trans hheld)) hu
  · rw [show total (Function.update s.thread t ⟨.unlock, (s.thread t).c⟩) = total s.thread + 1 by omega,
      ofNat_succ, ← BitVec.add_assoc, ← hs.counter]

/-- The store that gives the flag back. -/
theorem Exact.unlock (hs : Exact CountTo counter h s) (hp : (s.thread t).pc = .unlock) :
    Exact CountTo counter none ({s with aBool := false}.goto t .next) := by
  have hwithin := hs.within t
  simp only [Thread.Within, hp] at hwithin
  have hheld : h = some t := (hs.inside t).mp (by rw [hp]; trivial)
  refine hs.update rfl (by simp [Pc.Inside]) (fun u hu => ?_) (fun v hv => ?_) (fun u _ => hs.copy u)
    (hs.counter_eq ?_) hwithin
  · simpa [hheld] using Ne.symm hu
  · cases hv
  · simp [Thread.counted, hp]

/-- A thread in `lock()` that stays there. -/
theorem Exact.spin (hs : Exact CountTo counter h s) {p q : ρ} (hp : (s.thread t).pc = .lock p) :
    Exact CountTo counter h (s.goto t (.lock q)) := by
  have hwithin := hs.within t
  refine hs.move (x := ⟨.lock q, (s.thread t).c⟩) (by rw [hp]; rfl) (fun v hv => ?_) (by simp [Thread.counted, hp]) ?_
  · cases hv
  · simpa [Thread.Within, hp] using hwithin

/-- **Every step keeps the flag and the counter exact**, whatever the loop that takes the flag. -/
theorem Exact.step (hs : Exact CountTo counter h s) {a : Action τ} {l : Option Empty}
    (hstep : step A CountTo s a = some (l, s')) : ∃ h', Exact CountTo counter h' s' := by
  have hwithin := hs.within a.t
  cases step_cases hstep with
  | loop hp =>
    simp only [Thread.Within, hp] at hwithin
    refine ⟨h, hs.move ?_ (fun v hv => ?_) ?_ ?_⟩
    · rw [hp]
      split_ifs <;> rfl
    · split_ifs at hv
    · split_ifs <;> simp [Thread.counted, hp]
    · split_ifs with hc
      · exact hc
      · exact Nat.le_antisymm hwithin (Nat.le_of_not_lt hc)
  | load hp _ => exact ⟨h, hs.spin hp⟩
  | again hp _ _ => exact ⟨h, hs.spin hp⟩
  | take hp _ hflag => exact ⟨some a.t, hs.exchange hflag hp⟩
  | pause hp _ _ => exact ⟨h, hs.spin hp⟩
  | read hp =>
    refine ⟨h, hs.move (by rw [hp]; rfl) (fun v hv => (Pc.write.inj hv).symm) (by simp [Thread.counted, hp]) ?_⟩
    simpa [Thread.Within, hp] using hwithin
  | write hp => exact ⟨h, hs.write hp⟩
  | unlock hp => exact ⟨none, hs.unlock hp⟩
  | next hp =>
    simp only [Thread.Within, hp] at hwithin
    exact ⟨h, hs.move (by rw [hp]; rfl) (fun v hv => by cases hv) (by simp [Thread.counted, hp]) hwithin⟩

/-- In every reachable state. -/
theorem reachable_exact (hs : (machine τ A CountTo counter).system.Reachable s) :
    ∃ h, Exact CountTo counter h s := by
  refine hs.invariant (S := (machine τ A CountTo counter).system)
    (I := fun s => ∃ h, Exact CountTo counter h s) ⟨none, ?_⟩ ?_
  · refine ⟨rfl, fun t => iff_of_false id (by simp), fun t v hv => ?_, ?_, fun t => Nat.zero_le _⟩
    · cases hv
    · simp [machine, total, Thread.counted, Machine.system]
  · rintro s l s' ⟨h, hs⟩ ⟨a, hstep⟩
    exact hs.step hstep

/-! ### No update is lost -/

/-- What is asked of a lock that `T` threads count under, `CountTo` rounds each: the flag is set
just when there is one thread between its exchange and its store, and when all threads are
done the counter has grown by `T * CountTo`, of which a `usize` keeps the remainder. -/
structure LosesNothing (M : Machine (State τ ρ) (Action τ) Empty) (CountTo : ℕ) : Prop where
  flag : ∀ s, M.system.Reachable s → (s.aBool = true ↔ ∃! t, (s.thread t).pc.Inside)
  grown : ∀ s, M.system.Reachable s → (∀ t, (s.thread t).pc = .done) →
    s.counter = M.initial.counter + BitVec.ofNat 64 (Fintype.card τ * CountTo)
  exact : ∀ s, M.system.Reachable s → (∀ t, (s.thread t).pc = .done) →
    M.initial.counter.toNat + Fintype.card τ * CountTo < 2 ^ 64 →
    s.counter.toNat = M.initial.counter.toNat + Fintype.card τ * CountTo

omit [DecidableEq τ] in
theorem Exact.flag_iff (hs : Exact CountTo counter h s) : s.aBool = true ↔ ∃! t, (s.thread t).pc.Inside := by
  simp only [hs.flag, hs.inside, Option.isSome_iff_exists]
  constructor
  · rintro ⟨t, ht⟩
    exact ⟨t, ht, fun u hu => Option.some.inj (hu.symm.trans ht)⟩
  · exact fun ⟨t, ht, _⟩ => ⟨t, ht⟩

omit [DecidableEq τ] in
/-- When all are done, every thread has counted all its rounds. -/
theorem Exact.total_eq (hs : Exact CountTo counter h s) (hdone : ∀ t, (s.thread t).pc = .done) :
    total s.thread = Fintype.card τ * CountTo := by
  have hcounted : ∀ t, (s.thread t).counted = CountTo := fun t => by
    have := hs.within t
    simpa [Thread.Within, Thread.counted, hdone t] using this
  simp [total, hcounted]

theorem losesNothing (τ : Type*) [DecidableEq τ] [Fintype τ] (A : Acquire ρ) (CountTo : ℕ) (counter : BitVec 64) :
    LosesNothing (machine τ A CountTo counter) CountTo := by
  have hgrown : ∀ s, (machine τ A CountTo counter).system.Reachable s → (∀ t, (s.thread t).pc = .done) →
      s.counter = counter + BitVec.ofNat 64 (Fintype.card τ * CountTo) := fun s hr hdone => by
    obtain ⟨h, hs⟩ := reachable_exact hr
    rw [← hs.total_eq hdone]
    exact hs.counter
  refine ⟨fun s hr => ?_, hgrown, fun s hr hdone hlt => ?_⟩
  · obtain ⟨h, hs⟩ := reachable_exact hr
    exact hs.flag_iff
  · have hlt : counter.toNat + Fintype.card τ * CountTo < 2 ^ 64 := hlt
    rw [hgrown s hr hdone, BitVec.toNat_add, BitVec.toNat_ofNat, Nat.add_mod_mod, Nat.mod_eq_of_lt hlt]
    rfl

/-- **No update is lost under any of the three locks.** -/
theorem flagLocks_loseNothing (τ : Type*) [DecidableEq τ] [Fintype τ] (CountTo : ℕ) (counter : BitVec 64) :
    LosesNothing (machine τ TASLock.lock CountTo counter) CountTo ∧
      LosesNothing (machine τ TTASLock.lock CountTo counter) CountTo ∧
      ∀ MinDelay MaxDelay, LosesNothing (machine τ (BackoffLock.lock MinDelay MaxDelay) CountTo counter) CountTo :=
  ⟨losesNothing τ _ CountTo counter, losesNothing τ _ CountTo counter, fun _ _ => losesNothing τ _ CountTo counter⟩

end FlagLock

end ParSweet.Locks
