import Mathlib.Data.Fintype.Card
import ParSweet.Concurrent.RoundBarrier
import ParSweet.Counter
import ParSweet.Hash

/-! `Barrier` of both suites.

`nThreads` participants call `sync()` again and again. The last of a round resets `count`,
advances `march` and wakes the others, in Java before it gives the lock up and in C++
after; the others wait until `march` is no longer the value they have found. A waiting
thread may wake at any time. The ideal barrier follows every turn (`Related.turn`): a thread
that has not left a round keeps the next from being completed, so `march` is either the
value it has found or the next one, whether it has wrapped or not. -/
namespace ParSweet.Barrier
open Concurrent

/-- Where a thread stands. -/
inductive Pc where
  /-- Outside `sync()`. -/
  | idle
  /-- `std::unique_lock lock(mutex)` -/
  | lock
  /-- `++count` -/
  | incr
  /-- `check = march` -/
  | readMarch
  /-- `count == nThreads` -/
  | test (check : BitVec 32)
  /-- `count = 0` -/
  | reset
  /-- `++march` -/
  | advance
  /-- `cond.signalAll()`, in Java. -/
  | signalAll
  /-- `lock.unlock()`, in C++. -/
  | unlock
  /-- `cond.notify_all()`, in C++. -/
  | notifyAll
  /-- `check != march` -/
  | loop (check : BitVec 32)
  /-- `cond.wait(lock)`: the mutex is released and the thread joins those who wait. -/
  | wait (check : BitVec 32)
  /-- Waiting. -/
  | waiting (check : BitVec 32)
  /-- Woken, it takes the mutex again. -/
  | relock (check : BitVec 32)
  /-- The mutex is released and `sync()` returns. -/
  | leave
  /-- A signed `int` has overflowed, which is undefined in C++. -/
  | overflow
  deriving DecidableEq

/-- The threads that wait on the condition are those that stand at `waiting`. -/
structure State (τ : Type*) where
  mutex : Option τ
  count : BitVec 32
  march : BitVec 32
  pc : τ → Pc

inductive Action (τ : Type*) where
  | call (t : τ)
  /-- The next atomic step of `t`. -/
  | turn (t : τ)
  /-- `t` stops waiting for no reason. -/
  | wake (t : τ)

variable {τ : Type*} [DecidableEq τ]

def State.goto (s : State τ) (t : τ) (pc : Pc) : State τ := {s with pc := Function.update s.pc t pc}

@[simp] theorem State.goto_pc (s : State τ) (t u : τ) (pc : Pc) :
    (s.goto t pc).pc u = if u = t then pc else s.pc u := Function.update_apply ..

/-- A waiting thread is woken. -/
def Pc.woken : Pc → Pc
  | .waiting check => .relock check
  | pc => pc

/-- `++i` of an `int`: it wraps in Java and may not overflow in C++. -/
def increment : Lang → BitVec 32 → Option (BitVec 32)
  | .java, i => some (i + 1)
  | .cpp, i => if i.toInt = 2147483647 then none else some (i + 1)

def step (L : Lang) (nThreads : ℕ) (s : State τ) : Action τ → Option (Option (BarrierEvent τ) × State τ)
  | .call t => if s.pc t = .idle then some (some (.call t), s.goto t .lock) else none
  | .wake t =>
    match s.pc t with
    | .waiting check => some (none, s.goto t (.relock check))
    | _ => none
  | .turn t =>
    match s.pc t with
    | .lock => if s.mutex = none then some (none, {s with mutex := some t}.goto t .incr) else none
    | .incr =>
      match increment L s.count with
      | some count => some (none, {s with count := count}.goto t .readMarch)
      | none => some (none, s.goto t .overflow)
    | .readMarch => some (none, s.goto t (.test s.march))
    | .test check =>
      some (none, s.goto t (if s.count = BitVec.ofNat 32 nThreads then .reset else .loop check))
    | .reset => some (none, {s with count := 0}.goto t .advance)
    | .advance =>
      match increment L s.march with
      | some march =>
        some (none, {s with march := march}.goto t (match L with | .cpp => .unlock | .java => .signalAll))
      | none => some (none, s.goto t .overflow)
    | .signalAll => some (none, {s with pc := fun u => (s.pc u).woken}.goto t .leave)
    | .unlock => some (none, {s with mutex := none}.goto t .notifyAll)
    | .notifyAll => some (some (.ret t), {s with pc := fun u => (s.pc u).woken}.goto t .idle)
    | .loop check => some (none, s.goto t (if check = s.march then .wait check else .leave))
    | .wait check => some (none, {s with mutex := none}.goto t (.waiting check))
    | .relock check =>
      if s.mutex = none then some (none, {s with mutex := some t}.goto t (.loop check)) else none
    | .leave => some (some (.ret t), {s with mutex := none}.goto t .idle)
    | .idle => none
    | .waiting _ => none
    | .overflow => none

/-- The barrier and its threads. -/
def machine (τ : Type*) [DecidableEq τ] (L : Lang) (nThreads : ℕ) :
    Machine (State τ) (Action τ) (BarrierEvent τ) where
  initial := ⟨none, 0, 0, fun _ => .idle⟩
  next := step L nThreads

/-! ### What a step can do -/

/-- What a step shows and leads to. -/
inductive Stepped (L : Lang) (nThreads : ℕ) (s : State τ) : Option (BarrierEvent τ) → State τ → Prop where
  | call {t} : s.pc t = .idle → Stepped L nThreads s (some (.call t)) (s.goto t .lock)
  | wake {t check} : s.pc t = .waiting check → Stepped L nThreads s none (s.goto t (.relock check))
  | lock {t} : s.pc t = .lock → s.mutex = none → Stepped L nThreads s none ({s with mutex := some t}.goto t .incr)
  | incr {t count} : s.pc t = .incr → increment L s.count = some count →
      Stepped L nThreads s none ({s with count := count}.goto t .readMarch)
  | incrOverflow {t} : s.pc t = .incr → increment L s.count = none → Stepped L nThreads s none (s.goto t .overflow)
  | readMarch {t} : s.pc t = .readMarch → Stepped L nThreads s none (s.goto t (.test s.march))
  | test {t check} : s.pc t = .test check →
      Stepped L nThreads s none (s.goto t (if s.count = BitVec.ofNat 32 nThreads then .reset else .loop check))
  | reset {t} : s.pc t = .reset → Stepped L nThreads s none ({s with count := 0}.goto t .advance)
  | advance {t march} : s.pc t = .advance → increment L s.march = some march →
      Stepped L nThreads s none ({s with march := march}.goto t (match L with | .cpp => .unlock | .java => .signalAll))
  | advanceOverflow {t} : s.pc t = .advance → increment L s.march = none →
      Stepped L nThreads s none (s.goto t .overflow)
  | signalAll {t} : s.pc t = .signalAll →
      Stepped L nThreads s none ({s with pc := fun u => (s.pc u).woken}.goto t .leave)
  | unlock {t} : s.pc t = .unlock → Stepped L nThreads s none ({s with mutex := none}.goto t .notifyAll)
  | notifyAll {t} : s.pc t = .notifyAll →
      Stepped L nThreads s (some (.ret t)) ({s with pc := fun u => (s.pc u).woken}.goto t .idle)
  | loop {t check} : s.pc t = .loop check →
      Stepped L nThreads s none (s.goto t (if check = s.march then .wait check else .leave))
  | wait {t check} : s.pc t = .wait check → Stepped L nThreads s none ({s with mutex := none}.goto t (.waiting check))
  | relock {t check} : s.pc t = .relock check → s.mutex = none →
      Stepped L nThreads s none ({s with mutex := some t}.goto t (.loop check))
  | leave {t} : s.pc t = .leave → Stepped L nThreads s (some (.ret t)) ({s with mutex := none}.goto t .idle)

theorem step_cases {L : Lang} {nThreads : ℕ} {s s' : State τ} {x : Action τ} {l : Option (BarrierEvent τ)}
    (hstep : step L nThreads s x = some (l, s')) : Stepped L nThreads s l s' := by
  cases x with
  | call t =>
    simp only [step] at hstep
    split_ifs at hstep with hp
    simp only [Option.some.injEq, Prod.mk.injEq] at hstep
    obtain ⟨rfl, rfl⟩ := hstep
    exact .call hp
  | wake t =>
    cases hp : s.pc t <;> simp only [step, hp, reduceCtorEq, Option.some.injEq, Prod.mk.injEq] at hstep
    obtain ⟨rfl, rfl⟩ := hstep
    exact .wake hp
  | turn t =>
    cases hp : s.pc t with
    | idle => simp [step, hp] at hstep
    | waiting check => simp [step, hp] at hstep
    | overflow => simp [step, hp] at hstep
    | lock =>
      simp only [step, hp] at hstep
      split_ifs at hstep with hfree
      simp only [Option.some.injEq, Prod.mk.injEq] at hstep
      obtain ⟨rfl, rfl⟩ := hstep
      exact .lock hp hfree
    | incr =>
      cases hcount : increment L s.count with
      | some count =>
        simp only [step, hp, hcount, Option.some.injEq, Prod.mk.injEq] at hstep
        obtain ⟨rfl, rfl⟩ := hstep
        exact .incr hp hcount
      | none =>
        simp only [step, hp, hcount, Option.some.injEq, Prod.mk.injEq] at hstep
        obtain ⟨rfl, rfl⟩ := hstep
        exact .incrOverflow hp hcount
    | advance =>
      cases hmarch : increment L s.march with
      | some march =>
        simp only [step, hp, hmarch, Option.some.injEq, Prod.mk.injEq] at hstep
        obtain ⟨rfl, rfl⟩ := hstep
        exact .advance hp hmarch
      | none =>
        simp only [step, hp, hmarch, Option.some.injEq, Prod.mk.injEq] at hstep
        obtain ⟨rfl, rfl⟩ := hstep
        exact .advanceOverflow hp hmarch
    | readMarch =>
      simp only [step, hp, Option.some.injEq, Prod.mk.injEq] at hstep
      obtain ⟨rfl, rfl⟩ := hstep
      exact .readMarch hp
    | test check =>
      simp only [step, hp, Option.some.injEq, Prod.mk.injEq] at hstep
      obtain ⟨rfl, rfl⟩ := hstep
      exact .test hp
    | reset =>
      simp only [step, hp, Option.some.injEq, Prod.mk.injEq] at hstep
      obtain ⟨rfl, rfl⟩ := hstep
      exact .reset hp
    | signalAll =>
      simp only [step, hp, Option.some.injEq, Prod.mk.injEq] at hstep
      obtain ⟨rfl, rfl⟩ := hstep
      exact .signalAll hp
    | unlock =>
      simp only [step, hp, Option.some.injEq, Prod.mk.injEq] at hstep
      obtain ⟨rfl, rfl⟩ := hstep
      exact .unlock hp
    | notifyAll =>
      simp only [step, hp, Option.some.injEq, Prod.mk.injEq] at hstep
      obtain ⟨rfl, rfl⟩ := hstep
      exact .notifyAll hp
    | loop check =>
      simp only [step, hp, Option.some.injEq, Prod.mk.injEq] at hstep
      obtain ⟨rfl, rfl⟩ := hstep
      exact .loop hp
    | wait check =>
      simp only [step, hp, Option.some.injEq, Prod.mk.injEq] at hstep
      obtain ⟨rfl, rfl⟩ := hstep
      exact .wait hp
    | leave =>
      simp only [step, hp, Option.some.injEq, Prod.mk.injEq] at hstep
      obtain ⟨rfl, rfl⟩ := hstep
      exact .leave hp
    | relock check =>
      simp only [step, hp] at hstep
      split_ifs at hstep with hfree
      simp only [Option.some.injEq, Prod.mk.injEq] at hstep
      obtain ⟨rfl, rfl⟩ := hstep
      exact .relock hp hfree

/-! ### The ideal barrier -/

/-- The thread has the mutex. -/
def Pc.Holding : Pc → Prop
  | .incr | .readMarch | .test _ | .reset | .advance | .signalAll | .unlock | .loop _ | .wait _ | .leave => True
  | _ => False

/-- A thread that has found `check` and has not left the round, or has been released from it. -/
def InRound (check march : BitVec 32) (p : RoundBarrier.Phase) : Prop :=
  (p = .arrived ∧ check = march) ∨ (p = .released ∧ check + 1 = march)

/-- Where a thread stands in the code against where it stands in the ideal barrier. -/
def At (march : BitVec 32) : Pc → RoundBarrier.Phase → Prop
  | .idle, p => p = .outside
  | .lock, p => p = .called
  | .incr, p => p = .called
  | .readMarch, p => p = .arrived
  | .test check, p => p = .arrived ∧ check = march
  | .reset, p => p = .arrived
  | .advance, p => p = .arrived
  | .signalAll, p => p = .released
  | .unlock, p => p = .released
  | .notifyAll, p => p = .released
  | .loop check, p => InRound check march p
  | .wait check, p => InRound check march p
  | .waiting check, p => InRound check march p
  | .relock check, p => InRound check march p
  | .leave, p => p = .released
  | .overflow, _ => False

/-- How many have arrived. -/
def arrived [Fintype τ] (a : RoundBarrier.State τ) : ℕ :=
  (Finset.univ.filter fun t => a.phase t = .arrived).card

/-- The barrier as the ideal one: `march` is the number of rounds, and `count` that of the
threads that have arrived, except between the two statements that end a round. -/
structure Related [Fintype τ] (s : State τ) (a : RoundBarrier.State τ) : Prop where
  mutex : ∀ t, s.mutex = some t ↔ (s.pc t).Holding
  march : s.march = BitVec.ofNat 32 a.rounds
  count : (∀ t, s.pc t ≠ .advance) → s.count = BitVec.ofNat 32 (arrived a)
  zero : ∀ t, s.pc t = .advance → s.count = 0
  full : ∀ t, s.pc t = .reset ∨ s.pc t = .advance → ∀ u, a.phase u = .arrived
  thread : ∀ t, At s.march (s.pc t) (a.phase t)

variable [Fintype τ] {s s' : State τ} {a a' : RoundBarrier.State τ} {t u : τ} {pc : Pc} {L : Lang}
  {l : Option (BarrierEvent τ)} {x : Action τ} {es : List (BarrierEvent τ)}

omit [DecidableEq τ] in
theorem Related.at_of_pc (h : Related s a) (hp : s.pc t = pc) : At s.march pc (a.phase t) := hp ▸ h.thread t

omit [DecidableEq τ] in
/-- One thread has the mutex at a time. -/
theorem Related.holder_eq (h : Related s a) (ht : (s.pc t).Holding) (hu : (s.pc u).Holding) : u = t :=
  Option.some.inj (((h.mutex u).mpr hu).symm.trans ((h.mutex t).mpr ht))

/-! ### The mutex -/

/-- A turn of `t` that neither takes nor releases the mutex. -/
theorem Related.mutex_keep (h : Related s a) (hh : pc.Holding ↔ (s.pc t).Holding) (u : τ) :
    s.mutex = some u ↔ (if u = t then pc else s.pc u).Holding := by
  rw [h.mutex]
  split_ifs with hut
  · rw [hut, hh]
  · rfl

theorem Related.mutex_acquire (h : Related s a) (hfree : s.mutex = none) (hh : pc.Holding) (u : τ) :
    some t = some u ↔ (if u = t then pc else s.pc u).Holding := by
  split_ifs with hut
  · simp [hut, hh]
  · have : ¬ (s.pc u).Holding := fun hu => by
      rw [← h.mutex, hfree] at hu
      cases hu
    simp [Ne.symm hut, this]

theorem Related.mutex_release (h : Related s a) (ht : (s.pc t).Holding) (hh : ¬ pc.Holding) (u : τ) :
    none = some u ↔ (if u = t then pc else s.pc u).Holding := by
  split_ifs with hut
  · simp [hh]
  · have : ¬ (s.pc u).Holding := fun hu => hut (h.holder_eq ht hu)
    simp [this]

/-! ### The turns -/

/-- After a turn of `t`, everybody else stands where they stood. -/
theorem Related.thread_update (h : Related s a) {p : RoundBarrier.Phase} (hself : At s.march pc p) (u : τ) :
    At s.march (if u = t then pc else s.pc u) (Function.update a.phase t p u) := by
  rw [← Function.update_apply]
  exact update_rel (R := fun _ => At s.march) hself (fun u _ => h.thread u) u

theorem arrived_update {p : RoundBarrier.Phase} {n : ℕ} (ht : a.phase t ≠ .arrived) (hp : p ≠ .arrived) :
    arrived ⟨n, Function.update a.phase t p⟩ = arrived a := by
  refine congrArg Finset.card (Finset.filter_congr fun u _ => ?_)
  by_cases hut : u = t
  · subst hut
    simp [ht, hp]
  · simp [hut]

/-- A turn of `t` that is neither its arrival nor one of the two statements that end a round. -/
theorem Related.move (h : Related s a) {m : Option τ} {p : RoundBarrier.Phase}
    (hmutex : ∀ u, m = some u ↔ (if u = t then pc else s.pc u).Holding)
    (hpc : pc ≠ .reset ∧ pc ≠ .advance) (ht : s.pc t ≠ .advance)
    (hp : p = a.phase t ∨ a.phase t ≠ .arrived ∧ p ≠ .arrived) (hself : At s.march pc p) :
    Related ({s with mutex := m}.goto t pc) {a with phase := Function.update a.phase t p} where
  mutex := fun u => by
    rw [State.goto_pc]
    exact hmutex u
  march := h.march
  count := fun hall => by
    have harr : arrived {a with phase := Function.update a.phase t p} = arrived a := by
      rcases hp with rfl | ⟨hne, hp⟩
      · rw [Function.update_eq_self]
      · exact arrived_update hne hp
    rw [harr]
    refine h.count fun u hu => ?_
    by_cases hut : u = t
    · exact ht (hut ▸ hu)
    · exact hall u (by rw [State.goto_pc, if_neg hut]; exact hu)
  zero := fun u hu => by
    rw [State.goto_pc] at hu
    split_ifs at hu with hut
    · exact absurd hu hpc.2
    · exact h.zero u hu
  full := fun u hu v => by
    rw [State.goto_pc] at hu
    split_ifs at hu with hut
    · exact absurd hu (not_or.mpr hpc)
    · have hfull := h.full u hu
      dsimp only
      rcases hp with rfl | ⟨hne, _⟩
      · rw [Function.update_eq_self]
        exact hfull v
      · exact absurd (hfull t) hne
  thread := fun u => by
    rw [State.goto_pc]
    exact h.thread_update hself u

/-- A turn of `t` in which the ideal barrier does nothing. -/
theorem Related.stay (h : Related s a) {m : Option τ}
    (hmutex : ∀ u, m = some u ↔ (if u = t then pc else s.pc u).Holding)
    (hpc : pc ≠ .reset ∧ pc ≠ .advance) (ht : s.pc t ≠ .advance) (hself : At s.march pc (a.phase t)) :
    ∃ b, (RoundBarrier.system τ).Path a [] b ∧ Related ({s with mutex := m}.goto t pc) b := by
  have := h.move hmutex hpc ht (.inl rfl) hself
  rw [Function.update_eq_self] at this
  exact ⟨a, .refl, this⟩

theorem woken_holding : pc.woken.Holding ↔ pc.Holding := by
  cases pc <;> rfl

theorem woken_at {march : BitVec 32} {p : RoundBarrier.Phase} : At march pc.woken p ↔ At march pc p := by
  cases pc <;> rfl

theorem woken_eq_reset : pc.woken = .reset ↔ pc = .reset := by
  cases pc <;> simp [Pc.woken]

theorem woken_eq_advance : pc.woken = .advance ↔ pc = .advance := by
  cases pc <;> simp [Pc.woken]

omit [DecidableEq τ] in
/-- Those who wait are woken. -/
theorem Related.woken (h : Related s a) : Related {s with pc := fun u => (s.pc u).woken} a where
  mutex := fun t => by simp only [woken_holding, h.mutex]
  march := h.march
  count := fun hall => h.count fun t ht => hall t (woken_eq_advance.mpr ht)
  zero := fun t ht => h.zero t (woken_eq_advance.mp ht)
  full := fun t ht => h.full t (ht.imp woken_eq_reset.mp woken_eq_advance.mp)
  thread := fun t => woken_at.mpr (h.thread t)

omit [DecidableEq τ] in
/-- While a thread has the mutex and does not stand between the two statements, `count` is exact. -/
theorem Related.count_eq (h : Related s a) (ht : (s.pc t).Holding) (hne : s.pc t ≠ .advance) :
    s.count = BitVec.ofNat 32 (arrived a) :=
  h.count fun u hu => by
    obtain rfl := h.holder_eq ht (u := u) (by rw [hu]; trivial)
    exact hne hu

omit [DecidableEq τ] in
theorem arrived_le : arrived a ≤ Fintype.card τ := Finset.card_le_univ _

omit [DecidableEq τ] in
theorem arrived_lt (ht : a.phase t ≠ .arrived) : arrived a < Fintype.card τ :=
  Finset.card_lt_univ_of_notMem (x := t) (by simp [ht])

omit [DecidableEq τ] in
theorem all_arrived (h : arrived a = Fintype.card τ) (t : τ) : a.phase t = .arrived := by
  have := (Finset.card_eq_iff_eq_univ _).mp h
  have ht := Finset.mem_univ t
  rw [← this] at ht
  simpa using ht

theorem increment_ofNat {n : ℕ} (h : L = .cpp → n + 1 < 2 ^ 31) :
    increment L (BitVec.ofNat 32 n) = some (BitVec.ofNat 32 (n + 1)) := by
  cases L with
  | java => rw [increment, ofNat_succ]
  | cpp =>
    have hlt := h rfl
    have := toInt_ofNat_of_lt (n := n) (by omega)
    rw [increment, if_neg (by omega), ofNat_succ]

omit [DecidableEq τ] in
/-- `++count` by a thread that arrives. -/
theorem Related.increment_count (h : Related s a) (hcard : Fintype.card τ < 2 ^ 31) (hp : s.pc t = .incr) :
    increment L s.count = some (BitVec.ofNat 32 (arrived a + 1)) := by
  have hcalled : a.phase t = .called := h.at_of_pc hp
  have hlt : arrived a < Fintype.card τ := arrived_lt (t := t) (by simp [hcalled])
  rw [h.count_eq (t := t) (by rw [hp]; trivial) (by simp [hp])]
  exact increment_ofNat fun _ => by omega

theorem arrived_insert {n : ℕ} (ht : a.phase t ≠ .arrived) :
    arrived ⟨n, Function.update a.phase t .arrived⟩ = arrived a + 1 := by
  rw [arrived, arrived, ← Finset.card_insert_of_notMem (a := t) (by simp [ht])]
  congr 1
  ext u
  by_cases hut : u = t
  · subst hut
    simp
  · simp [hut]

/-- `++count`: `t` arrives. -/
theorem Related.arrive (h : Related s a) (hp : s.pc t = .incr) :
    Related ({s with count := BitVec.ofNat 32 (arrived a + 1)}.goto t .readMarch)
      {a with phase := Function.update a.phase t .arrived} := by
  have hhold : (s.pc t).Holding := by rw [hp]; trivial
  have hcalled : a.phase t = .called := h.at_of_pc hp
  have hne : a.phase t ≠ .arrived := by simp [hcalled]
  -- nobody else has the mutex, so nobody is about to end the round
  have hother : ∀ u, s.pc u ≠ .reset ∧ s.pc u ≠ .advance := fun u => by
    have hincr : (s.pc u).Holding → s.pc u = .incr := fun hu => h.holder_eq hhold hu ▸ hp
    constructor <;> intro hu <;> cases hu.symm.trans (hincr (by rw [hu]; trivial))
  have hpc : ∀ u, (if u = t then Pc.readMarch else s.pc u) ≠ .reset ∧
      (if u = t then Pc.readMarch else s.pc u) ≠ .advance := fun u => by
    split_ifs
    · simp
    · exact hother u
  have hself : At s.march .readMarch .arrived := rfl
  refine ⟨fun u => ?_, h.march, fun _ => ?_, fun u hu => ?_, fun u hu => ?_, fun u => ?_⟩
  · rw [State.goto_pc]
    exact h.mutex_keep (by rw [hp]; rfl) u
  · rw [arrived_insert hne]
    rfl
  · rw [State.goto_pc] at hu
    exact absurd hu (hpc u).2
  · rw [State.goto_pc] at hu
    exact absurd hu (not_or.mpr (hpc u))
  · rw [State.goto_pc]
    exact h.thread_update hself u

omit [DecidableEq τ] in
/-- `count == nThreads` holds: everybody has arrived. -/
theorem Related.test_full (h : Related s a) {check : BitVec 32} (hcard : Fintype.card τ < 2 ^ 31)
    (hp : s.pc t = .test check) (hcount : s.count = BitVec.ofNat 32 (Fintype.card τ)) (u : τ) :
    a.phase u = .arrived := by
  have hcount' := h.count_eq (t := t) (by rw [hp]; trivial) (by rw [hp]; simp)
  have hle : arrived a ≤ Fintype.card τ := arrived_le
  have := congrArg BitVec.toNat (hcount'.symm.trans hcount)
  rw [BitVec.toNat_ofNat, BitVec.toNat_ofNat, Nat.mod_eq_of_lt (by omega), Nat.mod_eq_of_lt (by omega)] at this
  exact all_arrived this u

/-- The last thread to arrive ends the round. -/
theorem Related.goto_reset (h : Related s a) {check : BitVec 32} (hp : s.pc t = .test check)
    (hfull : ∀ u, a.phase u = .arrived) : Related (s.goto t .reset) a := by
  have hhold : (s.pc t).Holding := by rw [hp]; trivial
  have hcount := h.count_eq hhold (by rw [hp]; simp)
  refine ⟨fun u => ?_, h.march, fun _ => hcount, fun u hu => ?_, fun u _ v => hfull v, fun u => ?_⟩
  · rw [State.goto_pc]
    exact h.mutex_keep (by rw [hp]; rfl) u
  · rw [State.goto_pc] at hu
    split_ifs at hu
    exact h.zero u hu
  · rw [State.goto_pc]
    split_ifs
    · exact hfull u
    · exact h.thread u

/-- `count = 0` -/
theorem Related.zero_count (h : Related s a) (hp : s.pc t = .reset) :
    Related ({s with count := 0}.goto t .advance) a := by
  have hfull := h.full t (.inl hp)
  refine ⟨fun u => ?_, h.march, fun hall => ?_, fun _ _ => rfl, fun u _ v => hfull v, fun u => ?_⟩
  · rw [State.goto_pc]
    exact h.mutex_keep (by rw [hp]; rfl) u
  · exact absurd (by simp) (hall t)
  · rw [State.goto_pc]
    split_ifs
    · exact hfull u
    · exact h.thread u

/-- A thread without the mutex is released from the round it has arrived in. -/
theorem At.release {march : BitVec 32} (h : At march pc .arrived) (hh : ¬ pc.Holding) :
    At (march + 1) pc .released := by
  have hround : ∀ check, InRound check march .arrived → InRound check (march + 1) .released := by
    rintro check (⟨_, rfl⟩ | ⟨he, _⟩)
    · exact .inr ⟨rfl, rfl⟩
    · cases he
  cases pc with
  | waiting check => exact hround check h
  | relock check => exact hround check h
  | idle => cases h
  | lock => cases h
  | notifyAll => cases h
  | overflow => exact h
  | _ => exact absurd trivial hh

/-- `++march`: everybody is released. -/
theorem Related.release (h : Related s a) (hp : s.pc t = .advance) (hpc : pc.Holding ∧ pc ≠ .reset ∧ pc ≠ .advance)
    (hself : ∀ march, At march pc .released) :
    Related ({s with march := BitVec.ofNat 32 (a.rounds + 1)}.goto t pc) ⟨a.rounds + 1, fun _ => .released⟩ := by
  have hhold : (s.pc t).Holding := by rw [hp]; trivial
  have hother : ∀ u, u ≠ t → ¬ (s.pc u).Holding := fun u hut hu => hut (h.holder_eq hhold hu)
  have hnone : arrived (⟨a.rounds + 1, fun _ => .released⟩ : RoundBarrier.State τ) = 0 := by simp [arrived]
  refine ⟨fun u => ?_, rfl, fun _ => ?_, fun u hu => ?_, fun u hu => ?_, fun u => ?_⟩
  · rw [State.goto_pc]
    exact h.mutex_keep (iff_of_true hpc.1 hhold) u
  · rw [hnone]
    exact h.zero t hp
  · rw [State.goto_pc] at hu
    split_ifs at hu with hut
    · exact absurd hu hpc.2.2
    · exact absurd (hu ▸ trivial) (hother u hut)
  · rw [State.goto_pc] at hu
    split_ifs at hu with hut
    · exact absurd hu (not_or.mpr hpc.2)
    · exact absurd (by rcases hu with hu | hu <;> rw [hu] <;> trivial) (hother u hut)
  · rw [State.goto_pc]
    split_ifs with hut
    · exact hself _
    · have hat := h.thread u
      rw [h.full t (.inr hp) u] at hat
      have := hat.release (hother u hut)
      rwa [h.march, ← ofNat_succ] at this

/-- **The ideal barrier follows every turn** of a thread, if `march` does not overflow in C++. -/
theorem Related.turn (hcard : Fintype.card τ < 2 ^ 31) (h : Related s a)
    (hrounds : L = .cpp → (∀ t, a.phase t = .arrived) → a.rounds + 1 < 2 ^ 31)
    (hstep : step L (Fintype.card τ) s x = some (l, s')) :
    ∃ b, (RoundBarrier.system τ).Path a l.toList b ∧ Related s' b := by
  cases step_cases hstep with
  | @call t hp =>
    have hout : a.phase t = .outside := h.at_of_pc hp
    refine ⟨_, System.Path.single (.call hout), ?_⟩
    exact h.move (h.mutex_keep (by rw [hp]; rfl)) (by simp) (by simp [hp]) (.inr (by simp [hout])) rfl
  | @wake t check hp =>
    have hround : InRound _ s.march (a.phase t) := h.at_of_pc hp
    exact h.stay (h.mutex_keep (by rw [hp]; rfl)) (by simp) (by simp [hp]) hround
  | @lock t hp hfree =>
    have hcalled : a.phase t = .called := h.at_of_pc hp
    exact h.stay (h.mutex_acquire hfree trivial) (by simp) (by simp [hp]) hcalled
  | @incr t count hp hcount =>
    have hcalled : a.phase t = .called := h.at_of_pc hp
    obtain rfl := Option.some.inj (hcount.symm.trans (h.increment_count hcard hp))
    exact ⟨_, System.Path.single (.arrive hcalled), h.arrive hp⟩
  | incrOverflow hp hcount =>
    rw [h.increment_count hcard hp] at hcount
    cases hcount
  | readMarch hp => exact h.stay (h.mutex_keep (by rw [hp]; rfl)) (by simp) (by simp [hp]) ⟨h.at_of_pc hp, rfl⟩
  | test hp =>
    split_ifs with hcount
    · exact ⟨a, .refl, h.goto_reset hp (h.test_full hcard hp hcount)⟩
    · exact h.stay (h.mutex_keep (by rw [hp]; rfl)) (by simp) (by simp [hp]) (.inl (h.at_of_pc hp))
  | reset hp => exact ⟨a, .refl, h.zero_count hp⟩
  | @advance t march hp hmarch =>
    have hfull := h.full t (.inr hp)
    rw [h.march, increment_ofNat fun hL : L = .cpp => hrounds hL hfull] at hmarch
    obtain rfl := Option.some.inj hmarch
    refine ⟨_, System.Path.single (.release hfull), h.release hp ?_ fun march => ?_⟩
    · cases L <;> exact ⟨trivial, by simp⟩
    · cases L <;> rfl
  | @advanceOverflow t hp hmarch =>
    rw [h.march, increment_ofNat fun hL : L = .cpp => hrounds hL (h.full t (.inr hp))] at hmarch
    cases hmarch
  | @signalAll t hp =>
    have hpw : (s.pc t).woken = .signalAll := by rw [hp]; rfl
    have hrel : a.phase t = .released := h.at_of_pc hp
    exact h.woken.stay (h.woken.mutex_keep (by dsimp only; rw [hpw]; rfl)) (by simp) (by simp [hpw]) hrel
  | @unlock t hp =>
    have hrel : a.phase t = .released := h.at_of_pc hp
    exact h.stay (h.mutex_release (by rw [hp]; trivial) id) (by simp) (by simp [hp]) hrel
  | @notifyAll t hp =>
    have hpw : (s.pc t).woken = .notifyAll := by rw [hp]; rfl
    have hrel : a.phase t = .released := h.at_of_pc hp
    refine ⟨_, System.Path.single (.ret hrel), ?_⟩
    exact h.woken.move (h.woken.mutex_keep (by dsimp only; rw [hpw]; rfl)) (by simp) (by simp [hpw])
      (.inr (by simp [hrel])) rfl
  | @loop t check hp =>
    have hround : InRound check s.march (a.phase t) := h.at_of_pc hp
    split_ifs with hcheck
    · exact h.stay (h.mutex_keep (by rw [hp]; rfl)) (by simp) (by simp [hp]) hround
    · -- another value of `march` is that of the next round
      have hrel := hround.resolve_left fun hin => hcheck hin.2
      exact h.stay (h.mutex_keep (by rw [hp]; rfl)) (by simp) (by simp [hp]) hrel.1
  | @wait t check hp =>
    have hround : InRound check s.march (a.phase t) := h.at_of_pc hp
    exact h.stay (h.mutex_release (by rw [hp]; trivial) id) (by simp) (by simp [hp]) hround
  | @relock t check hp hfree =>
    have hround : InRound check s.march (a.phase t) := h.at_of_pc hp
    exact h.stay (h.mutex_acquire hfree trivial) (by simp) (by simp [hp]) hround
  | @leave t hp =>
    have hrel : a.phase t = .released := h.at_of_pc hp
    refine ⟨_, System.Path.single (.ret hrel), ?_⟩
    exact h.move (h.mutex_release (by rw [hp]; trivial) id) (by simp) (by simp [hp])
      (.inr (by simp [hrel])) rfl

omit [DecidableEq τ] in
theorem related_initial : Related (⟨none, 0, 0, fun _ => .idle⟩ : State τ) ⟨0, fun _ => .outside⟩ where
  mutex := fun t => iff_of_false (fun h => by cases h) id
  march := rfl
  count := fun _ => by simp [arrived]
  zero := fun t ht => by cases ht
  full := fun t ht => by rcases ht with ht | ht <;> cases ht
  thread := fun _ => rfl

/-- In every run, of fewer than `2 ^ 31` rounds in C++, the barrier is the ideal one. -/
theorem run_related (hcard : Fintype.card τ < 2 ^ 31) (hrun : (machine τ L (Fintype.card τ)).system.Run es s)
    (hrounds : L = .cpp → ∃ t, es.count (.call t) < 2 ^ 31) :
    ∃ a, (RoundBarrier.system τ).Run es a ∧ Related s a := by
  refine hrun.simulate (S := (machine τ L (Fintype.card τ)).system)
    (P := fun es => L = .cpp → ∃ t, es.count (.call t) < 2 ^ 31) (fun es fs hlt hL => ?_) Related
    related_initial ?_ hrounds
  · obtain ⟨t, ht⟩ := hlt hL
    rw [List.count_append] at ht
    exact ⟨t, by omega⟩
  · rintro es s a l s' hlt ha h ⟨x, hstep⟩
    refine h.turn hcard (fun hL hall => ?_) hstep
    -- when all have arrived, each has called once more than there have been rounds
    obtain ⟨t, ht⟩ := hlt hL
    have hcounted := RoundBarrier.run_counted ha t
    rw [hall t] at hcounted
    have := hcounted.1
    rw [List.count_append] at ht
    omega

/-- **A barrier keeps its rounds separate**: no participant returns from a call before all
have called as often, and none is more than one call ahead. Nothing is asked of the length
of the run in Java; in C++ it has fewer than `2 ^ 31` rounds, and no `int` overflows. -/
theorem barrier_keepsRounds (τ : Type*) [DecidableEq τ] [Fintype τ] (L : Lang)
    (hcard : Fintype.card τ < 2 ^ 31) (es : List (BarrierEvent τ)) (s : State τ)
    (hrun : (machine τ L (Fintype.card τ)).system.Run es s)
    (hrounds : L = .cpp → ∃ t, es.count (.call t) < 2 ^ 31) :
    KeepsRounds es ∧ ∀ t, s.pc t ≠ .overflow := by
  obtain ⟨a, ha, h⟩ := run_related hcard hrun hrounds
  exact ⟨RoundBarrier.keepsRounds ha, fun t ht => h.at_of_pc ht⟩

/-- Two threads, one round. -/
theorem barrier_keepsRounds_two :
    KeepsRounds [BarrierEvent.call (0 : Fin 2), .call 1, .ret 1, .ret 0] := by
  obtain ⟨s, hrun⟩ := Machine.exec_run (M := machine (Fin 2) .cpp 2)
    [.call 0, .turn 0, .turn 0, .turn 0, .turn 0, .turn 0, .turn 0, .call 1, .turn 1, .turn 1, .turn 1,
      .turn 1, .turn 1, .turn 1, .turn 1, .turn 1, .turn 0, .turn 0, .turn 0]
    [.call 0, .call 1, .ret 1, .ret 0] rfl
  exact (barrier_keepsRounds (Fin 2) .cpp (by decide) _ s hrun fun _ => ⟨0, by decide⟩).1

end ParSweet.Barrier
