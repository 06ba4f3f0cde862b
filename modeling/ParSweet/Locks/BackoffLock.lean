import ParSweet.Locks.FlagLock

/-! The back-off of `BackoffLock`, in both languages: the limit of the random delay doubles
with every failed attempt, up to a cap.

The doubling comes before the capping, in an `int`. `Acquire.counting` is a loop that also
counts its failed attempts, which changes nothing about its steps (`reachable_counting`);
`Visits` is where its runs stand after how many of them. While the cap is below `2 ^ 30` the
limit is what it would be over the integers. From there on some run of two threads gets to a
limit whose double is no `int`: C++ leaves that undefined, Java goes on with a negative limit
and the next draw throws (`backOff_iff_cap_lt`). -/
namespace ParSweet.Locks

/-! ### The loop of the Java suite

Its threads count as those of the C++ suite do. -/

namespace JavaBackoffLock
open FlagLock

inductive Pc where
  /-- `while (aBool.get())` -/
  | load (delayLimit : ℤ)
  /-- `Thread.yield()` -/
  | yield (delayLimit : ℤ)
  /-- `if (!aBool.getAndSet(true))` -/
  | exchange (delayLimit : ℤ)
  /-- `ThreadLocalRandom.current().nextInt(0, delayLimit)` -/
  | draw (delayLimit : ℤ)
  /-- `Thread.sleep(delay)` -/
  | sleep (delay delayLimit : ℤ)
  /-- `nextInt` has thrown an `IllegalArgumentException`, and with it `lock()`. -/
  | thrown

def lock (minDelay maxDelay : ℤ) : Acquire Pc where
  start := .load minDelay
  op := fun
    | .load delayLimit => .load fun aBool => if aBool then .yield delayLimit else .exchange delayLimit
    | .yield delayLimit => .pause fun _ => some (.load delayLimit)
    | .exchange delayLimit => .exchange (.draw delayLimit)
    | .draw delayLimit => .pause fun delay =>
      if delayLimit ≤ 0 then some .thrown
      else if 0 ≤ delay ∧ delay < delayLimit then
        -- the product of two `int`s wraps around
        some (.sleep delay (min maxDelay ((2 * delayLimit).bmod (2 ^ 32))))
      else none
    | .sleep _ delayLimit => .pause fun _ => some (.load delayLimit)
    | .thrown => .pause fun _ => none

end JavaBackoffLock

namespace FlagLock
open Concurrent

/-! ### A loop that counts its failed attempts -/

section Counting
variable {τ ρ ρ' : Type*} [DecidableEq τ] {A : Acquire ρ} {s : State τ ρ} {CountTo : ℕ} {counter : BitVec 64}

/-- The operation of a loop that counts its failed exchanges, of which there have been `n`. -/
def Op.counting (n : ℕ) : Op ρ → Op (ρ × ℕ)
  | .load next => .load fun aBool => (next aBool, n)
  | .exchange again => .exchange (again, n + 1)
  | .pause next => .pause fun choice => (next choice).map fun q => (q, n)

/-- The same loop, which also counts the exchanges of this `lock()` that have failed. -/
def Acquire.counting (A : Acquire ρ) : Acquire (ρ × ℕ) where
  start := (A.start, 0)
  op := fun p => (A.op p.1).counting p.2

theorem Acquire.counting_op {p : ρ} {op : Op ρ} (hop : A.op p = op) (n : ℕ) :
    A.counting.op (p, n) = op.counting n := by
  rw [← hop]
  rfl

def Pc.map (f : ρ → ρ') : Pc ρ → Pc ρ'
  | .loop => .loop
  | .lock p => .lock (f p)
  | .read => .read
  | .write counter => .write counter
  | .unlock => .unlock
  | .next => .next
  | .done => .done

def Thread.map (f : ρ → ρ') (x : Thread ρ) : Thread ρ' := ⟨x.pc.map f, x.c⟩

def State.map (f : ρ → ρ') (s : State τ ρ) : State τ ρ' := ⟨s.aBool, s.counter, fun t => (s.thread t).map f⟩

theorem map_update (f : ρ → ρ') (thread : τ → Thread ρ) (t : τ) (x : Thread ρ) :
    (fun u => (Function.update thread t x u).map f) = Function.update (fun u => (thread u).map f) t (x.map f) :=
  funext fun u => Function.apply_update (fun _ y => y.map f) thread t x u

theorem State.goto_map (f : ρ → ρ') (s : State τ ρ) (t : τ) (pc : Pc ρ) :
    (s.goto t pc).map f = (s.map f).goto t (pc.map f) := by
  simp only [goto, map, map_update]
  rfl

/-- **The counting changes nothing**: without the count, the steps are those of the loop. -/
theorem step_counting (A : Acquire ρ) (CountTo : ℕ) (s : State τ (ρ × ℕ)) (a : Action τ) :
    (step A.counting CountTo s a).map (fun r => (r.1, r.2.map Prod.fst)) = step A CountTo (s.map Prod.fst) a := by
  have hpc : ((s.map Prod.fst).thread a.t).pc = (s.thread a.t).pc.map Prod.fst := rfl
  cases hp : (s.thread a.t).pc with
  | lock p =>
    rw [hp] at hpc
    cases hop : A.op p.1 with
    | load next =>
      simp only [step, hp, hpc, Pc.map, hop, A.counting_op hop, Op.counting, Option.map_some, State.goto_map]
      rfl
    | exchange again =>
      have hflag : (s.map Prod.fst).aBool = s.aBool := rfl
      simp only [step, hp, hpc, Pc.map, hop, A.counting_op hop, Op.counting, hflag]
      split
      · simp only [Option.map_some, State.goto_map, Pc.map]
      · simp only [Option.map_some, State.goto_map, Pc.map]
        rfl
    | pause next =>
      simp only [step, hp, hpc, Pc.map, hop, A.counting_op hop, Op.counting, Option.map_map, Function.comp_def,
        State.goto_map]
  | loop =>
    have hpc' : ((s.map Prod.fst).thread a.t).pc = .loop := hpc.trans (congrArg (Pc.map Prod.fst) hp)
    simp only [step, hp, hpc', Option.map_some, State.goto_map, apply_ite (Pc.map Prod.fst)]
    rfl
  | next =>
    rw [hp] at hpc
    simp only [step, hp, hpc, Pc.map, Option.map_some]
    exact congrArg (fun thread => some (none, (⟨s.aBool, s.counter, thread⟩ : State τ ρ))) (map_update ..)
  | done =>
    rw [hp] at hpc
    simp only [step, hp, hpc, Pc.map, Option.map_none]
  | _ =>
    rw [hp] at hpc
    simp only [step, hp, hpc, Pc.map, Option.map_some, State.goto_map]
    rfl

/-- The states that the loop reaches are those that the counting loop reaches, without the count. -/
theorem reachable_counting : (machine τ A CountTo counter).system.Reachable s ↔
    ∃ s', (machine τ A.counting CountTo counter).system.Reachable s' ∧ s'.map Prod.fst = s := by
  constructor
  · intro h
    refine h.invariant (S := (machine τ A CountTo counter).system)
      (I := fun s => ∃ s', (machine τ A.counting CountTo counter).system.Reachable s' ∧ s'.map Prod.fst = s)
      ⟨_, ⟨[], .refl⟩, rfl⟩ ?_
    rintro _ l t ⟨s, hs, rfl⟩ ⟨a, hstep⟩
    obtain ⟨r, hr, heq⟩ := Option.map_eq_some_iff.mp ((step_counting A CountTo s a).trans hstep)
    exact ⟨r.2, hs.path (.single ⟨a, hr⟩), congrArg Prod.snd heq⟩
  · rintro ⟨s', h, rfl⟩
    refine h.invariant (S := (machine τ A.counting CountTo counter).system)
      (I := fun s' => (machine τ A CountTo counter).system.Reachable (s'.map Prod.fst)) ⟨[], .refl⟩ ?_
    rintro s l t hs ⟨a, hstep⟩
    have hnext : step A CountTo (s.map Prod.fst) a = some (l, t.map Prod.fst) := by
      have hstep : step A.counting CountTo s a = some (l, t) := hstep
      rw [← step_counting, hstep, Option.map_some]
    exact hs.path (.single (S := (machine τ A CountTo counter).system) ⟨a, hnext⟩)

end Counting

/-! ### What is asked of the back-off -/

/-- Some run has a thread at `p` in a `lock()` after `n` exchanges of that call have failed. -/
def Acquire.Visits {ρ : Type*} (A : Acquire ρ) (p : ρ) (n : ℕ) : Prop :=
  ∃ (τ : Type) (_ : DecidableEq τ) (CountTo : ℕ) (counter : BitVec 64) (s : State τ (ρ × ℕ)) (t : τ),
    (machine τ A.counting CountTo counter).system.Reachable s ∧ (s.thread t).pc = .lock (p, n)

/-- The limit after `n` failed attempts, over the integers. -/
def limit (MinDelay MaxDelay : ℤ) (n : ℕ) : ℤ := min MaxDelay (MinDelay * 2 ^ n)

/-- At `draw delayLimit` a number is drawn for the attempt that has just failed: the limit is the one
after the attempts before it, and a legal one. Nowhere does `lock()` stop short. -/
structure BacksOff {ρ : Type*} (A : Acquire ρ) (draw : ℤ → ρ) (MinDelay MaxDelay : ℤ) : Prop where
  limit : ∀ delayLimit n, A.Visits (draw delayLimit) n → ∃ k, n = k + 1 ∧ delayLimit = limit MinDelay MaxDelay k
  legal : ∀ delayLimit n, A.Visits (draw delayLimit) n → 0 < delayLimit ∧ delayLimit ≤ MaxDelay
  goesOn : ∀ p n next, A.Visits p n → A.op p = .pause next → ∃ choice q, next choice = some q

section Visits
variable {τ ρ : Type*} {A : Acquire ρ}

/-- Wherever a thread stands in `lock()`, `P` holds. -/
def State.Meets (P : ρ → Prop) (s : State τ ρ) : Prop := ∀ t p, (s.thread t).pc = .lock p → P p

variable [DecidableEq τ] {P : ρ → Prop} {s s' : State τ ρ} {t : τ} {CountTo : ℕ} {counter : BitVec 64}

/-- Only the thread that moves can come to a place where `P` does not hold. -/
theorem State.Meets.update (hs : s.Meets P) {aBool : Bool} {x : Thread ρ} (hx : ∀ p, x.pc = .lock p → P p) :
    State.Meets P ⟨aBool, counter, Function.update s.thread t x⟩ :=
  (Function.forall_update_iff s.thread fun _ y => ∀ p, y.pc = .lock p → P p).mpr ⟨hx, fun u _ => hs u⟩

/-- A thread that goes on in `lock()`. -/
theorem State.Meets.lock (hs : s.Meets P) {p : ρ} (hp : P p) : (s.goto t (.lock p)).Meets P :=
  hs.update fun _ hq => Pc.lock.inj hq ▸ hp

/-- A thread that is not in `lock()` any more. -/
theorem State.Meets.leave (hs : s.Meets P) {x : Thread ρ} (hx : ∀ p, x.pc ≠ .lock p) {aBool : Bool} :
    State.Meets P ⟨aBool, counter, Function.update s.thread t x⟩ :=
  hs.update fun p hp => absurd hp (hx p)

/-- `P` holds where the loop starts, and each of its operations leads from `P` to `P`. -/
structure Acquire.Keeps (A : Acquire ρ) (P : ρ → Prop) : Prop where
  start : P A.start
  load : ∀ p next aBool, A.op p = .load next → P p → P (next aBool)
  exchange : ∀ p again, A.op p = .exchange again → P p → P again
  pause : ∀ p next choice q, A.op p = .pause next → next choice = some q → P p → P q

theorem State.Meets.step (hP : A.Keeps P) (hs : s.Meets P) {a : Action τ} {l : Option Empty}
    (hstep : step A CountTo s a = some (l, s')) : s'.Meets P := by
  cases step_cases hstep with
  | loop hp =>
    split
    · exact hs.lock hP.start
    · exact hs.leave fun p => by simp
  | load hp hop => exact hs.lock (hP.load _ _ s.aBool hop (hs a.t _ hp))
  | again hp hop _ => exact hs.lock (hP.exchange _ _ hop (hs a.t _ hp))
  | pause hp hop hq => exact hs.lock (hP.pause _ _ _ _ hop hq (hs a.t _ hp))
  | _ => exact hs.leave fun p => by simp

/-- **What the operations of the loop keep holds wherever a run stands in it.** -/
theorem Acquire.Keeps.reachable (hP : A.Keeps P) (h : (machine τ A CountTo counter).system.Reachable s) : s.Meets P := by
  refine h.invariant (S := (machine τ A CountTo counter).system) (I := State.Meets P) ?_ ?_
  · intro t p hp
    cases hp
  · rintro s l s' hs ⟨a, hstep⟩
    exact hs.step hP hstep

variable {Q : ρ → ℕ → Prop}

/-- What the operations keep if each failed exchange is one more. -/
theorem Acquire.keeps_counting (hstart : Q A.start 0)
    (hload : ∀ p n next aBool, A.op p = .load next → Q p n → Q (next aBool) n)
    (hexchange : ∀ p n again, A.op p = .exchange again → Q p n → Q again (n + 1))
    (hpause : ∀ p n next choice q, A.op p = .pause next → next choice = some q → Q p n → Q q n) :
    A.counting.Keeps fun p => Q p.1 p.2 where
  start := hstart
  load := by
    intro ⟨p, n⟩ next aBool hop hp
    cases hop' : A.op p with
    | load next' =>
      rw [A.counting_op hop'] at hop
      cases hop
      exact hload p n next' aBool hop' hp
    | _ =>
      rw [A.counting_op hop'] at hop
      cases hop
  exchange := by
    intro ⟨p, n⟩ again hop hp
    cases hop' : A.op p with
    | exchange again' =>
      rw [A.counting_op hop'] at hop
      cases hop
      exact hexchange p n again' hop' hp
    | _ =>
      rw [A.counting_op hop'] at hop
      cases hop
  pause := by
    intro ⟨p, n⟩ next choice q hop hq hp
    cases hop' : A.op p with
    | pause next' =>
      rw [A.counting_op hop'] at hop
      cases hop
      obtain ⟨r, hr, rfl⟩ := Option.map_eq_some_iff.mp hq
      exact hpause p n next' choice r hop' hr hp
    | _ =>
      rw [A.counting_op hop'] at hop
      cases hop

theorem Acquire.Visits.of_keeps {p : ρ} {n : ℕ} (h : A.Visits p n) (hQ : A.counting.Keeps fun p => Q p.1 p.2) : Q p n := by
  obtain ⟨τ, _, CountTo, counter, s, t, hs, hp⟩ := h
  exact hQ.reachable hs t (p, n) hp

end Visits

/-! ### Below the overflow -/

section Limit
variable {MinDelay MaxDelay : ℤ}

theorem limit_zero (hle : MinDelay ≤ MaxDelay) : limit MinDelay MaxDelay 0 = MinDelay := by
  rw [limit, pow_zero, mul_one]
  exact min_eq_right hle

/-- Doubled and capped, a limit is the next one. -/
theorem limit_succ (hmax : 0 ≤ MaxDelay) (n : ℕ) :
    min MaxDelay (2 * limit MinDelay MaxDelay n) = limit MinDelay MaxDelay (n + 1) := by
  have hpow : MinDelay * 2 ^ (n + 1) = 2 * (MinDelay * 2 ^ n) := by
    rw [pow_succ, ← mul_assoc, mul_comm]
  rw [limit, limit, hpow]
  omega

theorem limit_pos (hmin : 1 ≤ MinDelay) (hle : MinDelay ≤ MaxDelay) (n : ℕ) : 0 < limit MinDelay MaxDelay n := by
  have hpow : 0 < MinDelay * 2 ^ n := Int.mul_pos (by omega) (Int.pow_pos (by decide))
  apply lt_min
  · omega
  · exact hpow

example : (List.range 7).map (limit 1 17) = [1, 2, 4, 8, 16, 17, 17] := by decide

theorem limit_le (n : ℕ) : limit MinDelay MaxDelay n ≤ MaxDelay := min_le_left ..

/-- A cap that is not below `2 ^ 30` lets a limit grow so far that its double is no `int`. -/
theorem exists_limit (hmin : 1 ≤ MinDelay) (hmax : 2 ^ 30 ≤ MaxDelay) :
    ∃ n, 2 ^ 30 ≤ limit MinDelay MaxDelay n ∧ ∀ k, k < n → limit MinDelay MaxDelay k < 2 ^ 30 := by
  have h : ∃ n, 2 ^ 30 ≤ limit MinDelay MaxDelay n := by
    refine ⟨30, le_min hmax ?_⟩
    omega
  exact ⟨Nat.find h, Nat.find_spec h, fun k hk => not_le.mp (Nat.find_min h hk)⟩

end Limit

/-! ### Two threads, one of which is always late -/

section Late
variable {ρ : Type*} {A : Acquire ρ}

/-- `x` is the thread that waits, `y` the one that takes the flag in between. -/
def duo (aBool : Bool) (counter : BitVec 64) (x y : Thread ρ) : State Bool ρ := ⟨aBool, counter, fun t => cond t x y⟩

theorem update_cond_true {α : Type*} (x y z : α) :
    Function.update (fun t => cond t x y) true z = fun t => cond t z y := by
  funext t
  cases t <;> rfl

theorem update_cond_false {α : Type*} (x y z : α) :
    Function.update (fun t => cond t x y) false z = fun t => cond t x z := by
  funext t
  cases t <;> rfl

/-- While `x` is between its load and its exchange, `y` takes the flag, and it gives the flag back
before `x` tries again. -/
theorem attempt {CountTo c k : ℕ} {counter₀ counter : BitVec 64} {p again retry : ρ} {next first : Bool → ρ}
    (hload : A.op p = .load next) (hexchange : A.op (next false) = .exchange again) (hstart : A.op A.start = .load first)
    (hfirst : A.op (first false) = .exchange retry) (hc : c < CountTo) :
    (machine Bool A CountTo counter₀).system.Path (duo false counter ⟨.lock p, k⟩ ⟨.loop, c⟩) []
      (duo false (counter + 1) ⟨.lock again, k⟩ ⟨.loop, c + 1⟩) := by
  have hexec : (machine Bool A CountTo counter₀).exec (duo false counter ⟨.lock p, k⟩ ⟨.loop, c⟩)
      -- `x` sees no flag, `y` takes it, `x` fails, `y` counts and gives the flag back
      [⟨true, 0⟩, ⟨false, 0⟩, ⟨false, 0⟩, ⟨false, 0⟩, ⟨true, 0⟩, ⟨false, 0⟩, ⟨false, 0⟩, ⟨false, 0⟩, ⟨false, 0⟩] =
        some ([], duo false (counter + 1) ⟨.lock again, k⟩ ⟨.loop, c + 1⟩) := by
    simp [Machine.exec, machine, step, State.goto, duo, update_cond_true, update_cond_false, hload, hexchange, hstart,
      hfirst, hc]
  exact Machine.exec_path hexec

/-- `x` has failed `n` times in its first `lock()` and stands at `p`; each time `y` was in between. -/
def Acquire.Contends (A : Acquire ρ) (CountTo : ℕ) (p : ρ) (n : ℕ) : Prop :=
  ∃ counter, (machine Bool A.counting CountTo 0).system.Reachable (duo false counter ⟨.lock (p, n), 0⟩ ⟨.loop, n⟩)

variable {CountTo n : ℕ} {p q again retry : ρ} {next first : Bool → ρ}

theorem Acquire.Contends.visits (h : A.Contends CountTo p n) : A.Visits p n :=
  let ⟨_, h⟩ := h
  ⟨Bool, inferInstance, CountTo, 0, _, true, h, rfl⟩

theorem Acquire.contends_start (hc : 0 < CountTo) : A.Contends CountTo A.start 0 := by
  have hthread : (fun _ : Bool => (⟨.loop, 0⟩ : Thread (ρ × ℕ))) = fun t => cond t ⟨.loop, 0⟩ ⟨.loop, 0⟩ := by
    funext t
    cases t <;> rfl
  have hexec : (machine Bool A.counting CountTo 0).exec (machine Bool A.counting CountTo 0).initial [⟨true, 0⟩] =
      some ([], duo false 0 ⟨.lock (A.start, 0), 0⟩ ⟨.loop, 0⟩) := by
    simp [Machine.exec, machine, step, State.goto, duo, hthread, update_cond_true, hc, Acquire.counting]
  exact ⟨0, [], Machine.exec_path hexec⟩

theorem Acquire.Contends.attempt (h : A.Contends CountTo p n) (hload : A.op p = .load next)
    (hexchange : A.op (next false) = .exchange again) (hstart : A.op A.start = .load first)
    (hfirst : A.op (first false) = .exchange retry) (hc : n < CountTo) : A.Contends CountTo again (n + 1) := by
  obtain ⟨counter, h⟩ := h
  exact ⟨counter + 1, h.path (FlagLock.attempt (A.counting_op hload n) (A.counting_op hexchange n)
    (A.counting_op hstart 0) (A.counting_op hfirst 0) hc)⟩

theorem Acquire.Contends.pause {next : ℤ → Option ρ} (h : A.Contends CountTo p n) (choice : ℤ)
    (hop : A.op p = .pause next) (hq : next choice = some q) : A.Contends CountTo q n := by
  obtain ⟨counter, h⟩ := h
  have hexec : (machine Bool A.counting CountTo 0).exec (duo false counter ⟨.lock (p, n), 0⟩ ⟨.loop, n⟩)
      [⟨true, choice⟩] = some ([], duo false counter ⟨.lock (q, n), 0⟩ ⟨.loop, n⟩) := by
    simp [Machine.exec, machine, step, State.goto, duo, update_cond_true, A.counting_op hop n, Op.counting, hq]
  exact ⟨counter, h.path (Machine.exec_path hexec)⟩

end Late

/-! ### The loop that both languages have -/

/-- The limit at a place after `n` failed attempts; a draw still has that of the attempt before. -/
def At (MinDelay MaxDelay : ℤ) (n : ℕ) : BackoffLock.Pc → Prop
  | .draw delayLimit => ∃ k, n = k + 1 ∧ delayLimit = limit MinDelay MaxDelay k
  | .load delayLimit | .yield delayLimit | .exchange delayLimit | .sleep _ delayLimit =>
    delayLimit = limit MinDelay MaxDelay n

/-- A loop whose places are, up to a name, those of the C++ suite's. The limit doubles while its
double is an `int`, and zero is among the numbers that can be drawn. -/
structure Loop {ρ : Type*} (A : Acquire ρ) (place : BackoffLock.Pc → ρ) (MinDelay MaxDelay : ℤ) : Prop where
  injective : Function.Injective place
  start : A.start = place (.load MinDelay)
  load : ∀ delayLimit, A.op (place (.load delayLimit)) =
    .load fun aBool => place (if aBool then .yield delayLimit else .exchange delayLimit)
  yield : ∀ delayLimit, A.op (place (.yield delayLimit)) = .pause fun _ => some (place (.load delayLimit))
  exchange : ∀ delayLimit, A.op (place (.exchange delayLimit)) = .exchange (place (.draw delayLimit))
  sleep : ∀ delay delayLimit, A.op (place (.sleep delay delayLimit)) = .pause fun _ => some (place (.load delayLimit))
  draw : ∀ delayLimit, ∃ next, A.op (place (.draw delayLimit)) = .pause next ∧
    (0 < delayLimit → delayLimit < 2 ^ 30 → (∃ q, next 0 = some q) ∧
      ∀ delay q, next delay = some q → q = place (.sleep delay (min MaxDelay (2 * delayLimit))))

section Loop
variable {ρ : Type*} {A : Acquire ρ} {place : BackoffLock.Pc → ρ} {MinDelay MaxDelay : ℤ}

/-- While the cap is below `2 ^ 30`, the limit is the one over the integers at every place. -/
theorem Loop.keeps_at (hL : Loop A place MinDelay MaxDelay) (hmin : 1 ≤ MinDelay) (hle : MinDelay ≤ MaxDelay)
    (hmax : MaxDelay < 2 ^ 30) :
    A.counting.Keeps fun p => ∃ pc, p.1 = place pc ∧ At MinDelay MaxDelay p.2 pc := by
  apply Acquire.keeps_counting (Q := fun p n => ∃ pc, p = place pc ∧ At MinDelay MaxDelay n pc)
  · exact ⟨.load MinDelay, hL.start, (limit_zero hle).symm⟩
  · intro p n next aBool hop hp
    obtain ⟨pc, rfl, hp⟩ := hp
    cases pc with
    | load delayLimit =>
      rw [hL.load] at hop
      cases hop
      refine ⟨_, rfl, ?_⟩
      cases aBool <;> exact hp
    | yield delayLimit => simp [hL.yield] at hop
    | exchange delayLimit => simp [hL.exchange] at hop
    | draw delayLimit =>
      obtain ⟨_, hdraw, _⟩ := hL.draw delayLimit
      simp [hdraw] at hop
    | sleep delay delayLimit => simp [hL.sleep] at hop
  · intro p n again hop hp
    obtain ⟨pc, rfl, hp⟩ := hp
    cases pc with
    | exchange delayLimit =>
      rw [hL.exchange] at hop
      cases hop
      exact ⟨.draw delayLimit, rfl, n, rfl, hp⟩
    | load delayLimit => simp [hL.load] at hop
    | yield delayLimit => simp [hL.yield] at hop
    | draw delayLimit =>
      obtain ⟨_, hdraw, _⟩ := hL.draw delayLimit
      simp [hdraw] at hop
    | sleep delay delayLimit => simp [hL.sleep] at hop
  · intro p n next choice q hop hq hp
    obtain ⟨pc, rfl, hp⟩ := hp
    cases pc with
    | load delayLimit => simp [hL.load] at hop
    | yield delayLimit =>
      rw [hL.yield] at hop
      cases hop
      cases hq
      exact ⟨.load delayLimit, rfl, hp⟩
    | exchange delayLimit => simp [hL.exchange] at hop
    | draw delayLimit =>
      obtain ⟨k, rfl, rfl⟩ := hp
      obtain ⟨_, hdraw, hnext⟩ := hL.draw (limit MinDelay MaxDelay k)
      rw [hdraw] at hop
      cases hop
      have hlimit : limit MinDelay MaxDelay k ≤ MaxDelay := limit_le k
      have hq := (hnext (limit_pos hmin hle k) (by omega)).2 choice q hq
      exact ⟨_, hq, limit_succ (by omega) k⟩
    | sleep delay delayLimit =>
      rw [hL.sleep] at hop
      cases hop
      cases hq
      exact ⟨.load delayLimit, rfl, hp⟩

theorem Loop.backsOff (hL : Loop A place MinDelay MaxDelay) (hmin : 1 ≤ MinDelay) (hle : MinDelay ≤ MaxDelay)
    (hmax : MaxDelay < 2 ^ 30) : BacksOff A (fun delayLimit => place (.draw delayLimit)) MinDelay MaxDelay := by
  have hat : ∀ p n, A.Visits p n → ∃ pc, p = place pc ∧ At MinDelay MaxDelay n pc :=
    fun p n h => h.of_keeps (Q := fun p n => ∃ pc, p = place pc ∧ At MinDelay MaxDelay n pc)
      (hL.keeps_at hmin hle hmax)
  have hlimit : ∀ delayLimit n, A.Visits (place (.draw delayLimit)) n →
      ∃ k, n = k + 1 ∧ delayLimit = limit MinDelay MaxDelay k := by
    intro delayLimit n h
    obtain ⟨pc, hpc, hat⟩ := hat _ n h
    rw [← hL.injective hpc] at hat
    exact hat
  refine ⟨hlimit, fun delayLimit n h => ?_, fun p n next h hop => ?_⟩
  · obtain ⟨k, _, rfl⟩ := hlimit delayLimit n h
    exact ⟨limit_pos hmin hle k, limit_le k⟩
  · obtain ⟨pc, rfl, hp⟩ := hat p n h
    cases pc with
    | load delayLimit => simp [hL.load] at hop
    | exchange delayLimit => simp [hL.exchange] at hop
    | yield delayLimit =>
      rw [hL.yield] at hop
      cases hop
      exact ⟨0, _, rfl⟩
    | draw delayLimit =>
      obtain ⟨k, rfl, rfl⟩ := hp
      obtain ⟨_, hdraw, hnext⟩ := hL.draw (limit MinDelay MaxDelay k)
      rw [hdraw] at hop
      cases hop
      have hlimit : limit MinDelay MaxDelay k ≤ MaxDelay := limit_le k
      exact ⟨0, (hnext (limit_pos hmin hle k) (by omega)).1⟩
    | sleep delay delayLimit =>
      rw [hL.sleep] at hop
      cases hop
      exact ⟨0, _, rfl⟩

/-- One more attempt of the late thread. -/
theorem Loop.attempt (hL : Loop A place MinDelay MaxDelay) {CountTo n : ℕ} {delayLimit : ℤ}
    (h : A.Contends CountTo (place (.load delayLimit)) n) (hc : n < CountTo) :
    A.Contends CountTo (place (.draw delayLimit)) (n + 1) := by
  have hstart : A.op A.start = .load fun aBool => place (if aBool then .yield MinDelay else .exchange MinDelay) := by
    rw [hL.start, hL.load]
  exact h.attempt (hL.load delayLimit) (hL.exchange delayLimit) hstart (hL.exchange MinDelay) hc

/-- The late thread gets to every limit whose predecessors can be doubled. -/
theorem Loop.contends (hL : Loop A place MinDelay MaxDelay) (hmin : 1 ≤ MinDelay) (hle : MinDelay ≤ MaxDelay)
    {CountTo n : ℕ} (hc : n < CountTo) (hlt : ∀ k, k < n → limit MinDelay MaxDelay k < 2 ^ 30) :
    A.Contends CountTo (place (.load (limit MinDelay MaxDelay n))) n := by
  induction n with
  | zero =>
    rw [limit_zero hle, ← hL.start]
    exact A.contends_start hc
  | succ n ih =>
    have hload := ih (by omega) fun k hk => hlt k (by omega)
    obtain ⟨next, hdraw, hnext⟩ := hL.draw (limit MinDelay MaxDelay n)
    obtain ⟨⟨q, hq⟩, hsleep⟩ := hnext (limit_pos hmin hle n) (hlt n (by omega))
    have hattempt := (hL.attempt hload (by omega)).pause 0 hdraw hq
    rw [hsleep 0 q hq, limit_succ (by omega)] at hattempt
    exact hattempt.pause 0 (hL.sleep ..) rfl

/-- When the cap is not below `2 ^ 30`, the late thread draws from a limit whose double is no `int`. -/
theorem Loop.exists_contends (hL : Loop A place MinDelay MaxDelay) (hmin : 1 ≤ MinDelay) (hle : MinDelay ≤ MaxDelay)
    (hmax : 2 ^ 30 ≤ MaxDelay) : ∃ delayLimit n, 2 ^ 30 ≤ delayLimit ∧ delayLimit ≤ MaxDelay ∧
      A.Contends (n + 1) (place (.draw delayLimit)) n := by
  obtain ⟨n, hn, hlt⟩ := exists_limit hmin hmax
  have hload : A.Contends (n + 2) (place (.load (limit MinDelay MaxDelay n))) n := hL.contends hmin hle (by omega) hlt
  exact ⟨_, n + 1, hn, limit_le n, hL.attempt hload (by omega)⟩

end Loop

end FlagLock

namespace BackoffLock
open FlagLock

variable {MinDelay MaxDelay : ℤ}

theorem loop (MinDelay MaxDelay : ℤ) : Loop (lock MinDelay MaxDelay) id MinDelay MaxDelay where
  injective := Function.injective_id
  start := rfl
  load := fun _ => rfl
  yield := fun _ => rfl
  exchange := fun _ => rfl
  sleep := fun _ _ => rfl
  draw := by
    intro delayLimit
    refine ⟨_, rfl, fun hpos hlt => ⟨⟨_, if_pos ?_⟩, fun delay q hq => ?_⟩⟩
    · omega
    · split at hq
      · cases hq
        rfl
      · cases hq

/-- Some run comes to a draw after which the doubling is undefined. -/
theorem not_backsOff (hmin : 1 ≤ MinDelay) (hle : MinDelay ≤ MaxDelay) (hmax : 2 ^ 30 ≤ MaxDelay) :
    ¬ BacksOff (lock MinDelay MaxDelay) Pc.draw MinDelay MaxDelay := by
  intro hb
  obtain ⟨delayLimit, n, hlimit, _, h⟩ := (loop MinDelay MaxDelay).exists_contends hmin hle hmax
  obtain ⟨delay, q, hq⟩ := hb.goesOn _ n _ h.visits rfl
  split at hq
  · omega
  · cases hq

end BackoffLock

namespace JavaBackoffLock
open FlagLock

variable {minDelay maxDelay : ℤ}

/-- The same place in the loop of the Java suite. -/
def place : BackoffLock.Pc → Pc
  | .load delayLimit => .load delayLimit
  | .yield delayLimit => .yield delayLimit
  | .exchange delayLimit => .exchange delayLimit
  | .draw delayLimit => .draw delayLimit
  | .sleep delay delayLimit => .sleep delay delayLimit

/-- Below `2 ^ 30` the product of two `int`s does not wrap around. -/
theorem bmod_double {delayLimit : ℤ} (hpos : 0 < delayLimit) (hlt : delayLimit < 2 ^ 30) :
    (2 * delayLimit).bmod (2 ^ 32) = 2 * delayLimit := by
  apply Int.bmod_eq_of_le <;> omega

theorem loop (minDelay maxDelay : ℤ) : Loop (lock minDelay maxDelay) place minDelay maxDelay where
  injective := by
    intro p q h
    cases p <;> cases q <;> cases h <;> rfl
  start := rfl
  load := fun delayLimit => congrArg Op.load (funext fun aBool => by cases aBool <;> rfl)
  yield := fun _ => rfl
  exchange := fun _ => rfl
  sleep := fun _ _ => rfl
  draw := by
    intro delayLimit
    refine ⟨_, rfl, fun hpos hlt => ⟨⟨_, (if_neg ?_).trans (if_pos ⟨le_rfl, hpos⟩)⟩, fun delay q hq => ?_⟩⟩
    · omega
    · rw [if_neg (by omega), bmod_double hpos hlt] at hq
      split at hq
      · cases hq
        rfl
      · cases hq

/-- From `2 ^ 30` on it wraps around to a negative number. -/
theorem bmod_double_neg {delayLimit : ℤ} (hge : 2 ^ 30 ≤ delayLimit) (hlt : delayLimit < 2 ^ 31) :
    (2 * delayLimit).bmod (2 ^ 32) < 0 := by
  rw [Int.bmod_def]
  split <;> omega

/-- In some run the next draw is from that number, and throws. -/
theorem exists_visits_thrown (hmin : 1 ≤ minDelay) (hle : minDelay ≤ maxDelay) (hmax : 2 ^ 30 ≤ maxDelay)
    (hint : maxDelay < 2 ^ 31) : ∃ n, (lock minDelay maxDelay).Visits .thrown n := by
  obtain ⟨delayLimit, n, hge, hlimit, h⟩ := (loop minDelay maxDelay).exists_contends hmin hle hmax
  have hneg : min maxDelay ((2 * delayLimit).bmod (2 ^ 32)) < 0 :=
    lt_of_le_of_lt (min_le_right ..) (bmod_double_neg hge (by omega))
  have hsleep := h.pause 0 rfl ((if_neg (by omega)).trans (if_pos (by omega)))
  have hload := hsleep.pause 0 rfl rfl
  have hdraw := (loop minDelay maxDelay).attempt hload (by omega)
  have hthrown := hdraw.pause 0 rfl (if_pos hneg.le)
  exact ⟨n + 1, hthrown.visits⟩

theorem not_backsOff (hmin : 1 ≤ minDelay) (hle : minDelay ≤ maxDelay) (hmax : 2 ^ 30 ≤ maxDelay)
    (hint : maxDelay < 2 ^ 31) : ¬ BacksOff (lock minDelay maxDelay) Pc.draw minDelay maxDelay := by
  intro hb
  obtain ⟨n, h⟩ := exists_visits_thrown hmin hle hmax hint
  obtain ⟨_, q, hq⟩ := hb.goesOn .thrown n _ h rfl
  cases hq

end JavaBackoffLock

/-! ### The condition -/

namespace FlagLock

/-- **The back-off is as asked just when the double of the cap is an `int`**, in both languages. -/
theorem backOff_iff_cap_lt {MinDelay MaxDelay : ℤ} (hmin : 1 ≤ MinDelay) (hle : MinDelay ≤ MaxDelay)
    (hint : MaxDelay < 2 ^ 31) :
    (BacksOff (BackoffLock.lock MinDelay MaxDelay) BackoffLock.Pc.draw MinDelay MaxDelay ↔ MaxDelay < 2 ^ 30) ∧
      (BacksOff (JavaBackoffLock.lock MinDelay MaxDelay) JavaBackoffLock.Pc.draw MinDelay MaxDelay ↔
        MaxDelay < 2 ^ 30) := by
  refine ⟨⟨fun hb => ?_, (BackoffLock.loop MinDelay MaxDelay).backsOff hmin hle⟩,
    fun hb => ?_, (JavaBackoffLock.loop MinDelay MaxDelay).backsOff hmin hle⟩
  · by_contra hmax
    exact BackoffLock.not_backsOff hmin hle (not_lt.mp hmax) hb
  · by_contra hmax
    exact JavaBackoffLock.not_backsOff hmin hle (not_lt.mp hmax) hint hb

/-- The defaults. -/
theorem backOff_iff_cap_lt_seventeen :
    (BacksOff (BackoffLock.lock 1 17) BackoffLock.Pc.draw 1 17 ↔ (17 : ℤ) < 2 ^ 30) ∧
      (BacksOff (JavaBackoffLock.lock 1 17) JavaBackoffLock.Pc.draw 1 17 ↔ (17 : ℤ) < 2 ^ 30) :=
  backOff_iff_cap_lt (by decide) (by decide) (by decide)

theorem backOff_fails_at_cap :
    ¬ BacksOff (BackoffLock.lock (2 ^ 30) (2 ^ 30)) BackoffLock.Pc.draw (2 ^ 30) (2 ^ 30) ∧
      ¬ BacksOff (JavaBackoffLock.lock (2 ^ 30) (2 ^ 30)) JavaBackoffLock.Pc.draw (2 ^ 30) (2 ^ 30) :=
  ⟨BackoffLock.not_backsOff (by decide) le_rfl le_rfl, JavaBackoffLock.not_backsOff (by decide) le_rfl le_rfl (by decide)⟩

end FlagLock

end ParSweet.Locks
