import Mathlib.Data.Nat.Find
import ParSweet.Concurrent.RingLock
import ParSweet.Counter

/-! `ALock` of the Java suite.

Every thread calls `lock()` and `unlock()` in turn. `tail` is an `int`: after `2 ^ 31` draws
it is negative, `%` gives a remainder with its sign, and `flags[slot]` throws. As long as
every draw finds `tail` non-negative, or a multiple of the number of slots, the slots are
those of the ring lock and the lock is that ring lock (`simulation`). -/
namespace ParSweet.Locks.JavaALock
open Concurrent

/-- Where a thread stands. -/
inductive Pc where
  /-- Outside. Next it calls `lock()`, which begins with
  `tail.getAndIncrement() % flags.length`. -/
  | idle
  /-- `mySlotIndex.set(slot)` -/
  | setSlot (slot : ℤ)
  /-- `!flags[slot].get()` -/
  | spin (slot : ℤ)
  /-- `flags[slot].set(false)` -/
  | clear (slot : ℤ)
  /-- `lock()` has returned. Next it calls `unlock()`, which begins with
  `mySlotIndex.get()` and the computation of `next`. -/
  | critical
  /-- `flags[next].set(true)` -/
  | raise (next : ℤ)
  /-- An exception has left `lock()` or `unlock()`. -/
  | thrown
  deriving DecidableEq

/-- `mySlotIndex` has a value of its own for each thread, `null` at first. -/
structure State (τ : Type*) where
  tail : BitVec 32
  flags : ℕ → Bool
  mySlotIndex : τ → Option ℤ
  pc : τ → Pc

/-- `flags[i]` exists. -/
abbrev InBounds (threadCount : ℕ) (i : ℤ) : Prop := 0 ≤ i ∧ i < threadCount

variable {τ : Type*} [DecidableEq τ]

def State.goto (s : State τ) (t : τ) (pc : Pc) : State τ := {s with pc := Function.update s.pc t pc}

/-- `flags[i].set(b)` -/
def State.setFlag (s : State τ) (i : ℤ) (b : Bool) : State τ :=
  {s with flags := Function.update s.flags i.toNat b}

/-- The next atomic step of a thread. A slot is less than the length of an array away from
zero, so `slot + 1` does not overflow. -/
def step (threadCount : ℕ) (s : State τ) (t : τ) : Option (Option (LockEvent τ) × State τ) :=
  match s.pc t with
  | .idle =>
    some (some (.enqueue t),
      {s with tail := s.tail + 1}.goto t (.setSlot (s.tail.toInt.tmod threadCount)))
  | .setSlot slot =>
    some (none,
      {s with mySlotIndex := Function.update s.mySlotIndex t (some slot)}.goto t (.spin slot))
  | .spin slot =>
    if InBounds threadCount slot then
      if s.flags slot.toNat then some (none, s.goto t (.clear slot)) else some (none, s)
    else some (none, s.goto t .thrown)
  | .clear slot =>
    if InBounds threadCount slot then
      some (some (.enter t), (s.setFlag slot false).goto t .critical)
    else some (none, s.goto t .thrown)
  | .critical =>
    match s.mySlotIndex t with
    | some slot => some (none, s.goto t (.raise ((slot + 1).tmod threadCount)))
    -- unboxing null
    | none => some (none, s.goto t .thrown)
  | .raise next =>
    if InBounds threadCount next then
      some (some (.leave t), (s.setFlag next true).goto t .idle)
    else some (none, s.goto t .thrown)
  | .thrown => none

/-- The lock and its threads; the actions are the threads' turns. -/
def machine (τ : Type*) [DecidableEq τ] (threadCount : ℕ) : Machine (State τ) τ (LockEvent τ) where
  initial := ⟨0, fun i => decide (i = 0), fun _ => none, fun _ => .idle⟩
  next := step threadCount

/-- What is asked of the lock: draw number `k` picks slot `k` modulo `threadCount`, no call
throws, and at most one thread is in the critical section. -/
structure Works (threadCount : ℕ) (S : System (State τ) (LockEvent τ)) : Prop where
  draw : ∀ es s t s', S.Run es s → S.step s (some (.enqueue t)) s' →
    ∃ slot, s'.pc t = .setSlot slot ∧ InBounds threadCount slot ∧
      slot = ((enqueued es).length % threadCount : ℕ)
  noThrow : ∀ s, S.Reachable s → ∀ t, s.pc t ≠ .thrown
  exclusive : ∀ s, S.Reachable s → ∀ t u, s.pc t = .critical → s.pc u = .critical → t = u

/-! ### The slots -/

/-- The remainder of this value of `tail` is not negative. -/
def Regular (threadCount : ℕ) (tail : BitVec 32) : Prop :=
  0 ≤ tail.toInt ∨ (threadCount : ℤ) ∣ tail.toInt

variable {N d k : ℕ}

theorem Regular.dvd {n : ℕ} {tail : BitVec 32} (h : Regular N tail) (htail : tail.toInt = -(n + 1 : ℕ)) :
    N ∣ n + 1 := by
  rw [Regular, htail, Int.dvd_neg, Int.natCast_dvd_natCast] at h
  exact h.resolve_left (by omega)

/-- If this draw and all before it are regular, it picks the slot that an unbounded counter
would give. -/
theorem slot_eq (h : ∀ e ≤ d, Regular N (BitVec.ofNat 32 e)) :
    (BitVec.ofNat 32 d).toInt.tmod N = (d % N : ℕ) := by
  rcases Nat.lt_trichotomy d (2 ^ 31) with hlt | rfl | hgt
  · rw [toInt_ofNat_of_lt hlt]
    exact (Int.ofNat_tmod d N).symm
  · have hdvd : N ∣ 2 ^ 31 := (h _ le_rfl).dvd (n := 2 ^ 31 - 1) (by decide)
    have hneg : (BitVec.ofNat 32 (2 ^ 31)).toInt = -(2 ^ 31 : ℕ) := by decide
    rw [hneg, Int.tmod_eq_zero_of_dvd (Int.dvd_neg.mpr (Int.natCast_dvd_natCast.mpr hdvd)),
      Nat.mod_eq_zero_of_dvd hdvd]
    rfl
  · -- two multiples of `N` that follow each other
    have hdvd : N ∣ 2 ^ 31 := (h _ hgt.le).dvd (n := 2 ^ 31 - 1) (by decide)
    have hdvd' : N ∣ 2 ^ 31 - 1 := (h _ hgt).dvd (n := 2 ^ 31 - 2) (by decide)
    obtain rfl : N = 1 := Nat.dvd_one.mp (by simpa using Nat.dvd_sub hdvd hdvd')
    simp [Int.tmod_one, Nat.mod_one]

/-! ### The ring lock -/

variable {s s' : State τ} {a a' : RingLock.State τ} {t u : τ} {l : Option (LockEvent τ)}
  {es : List (LockEvent τ)}

/-- Where a thread stands in the code, and the value of its `mySlotIndex`, against where it
stands on the ring. -/
def At (N : ℕ) (mySlotIndex : Option ℤ) : Pc → RingLock.Phase → Prop
  | .idle, p => p = .rest
  | .setSlot slot, p => ∃ k < N, slot = k ∧ p = .waiting k
  | .spin slot, p => ∃ k < N, slot = k ∧ p = .waiting k ∧ mySlotIndex = some slot
  | .clear slot, p => ∃ k < N, slot = k ∧ p = .seen k ∧ mySlotIndex = some slot
  | .critical, p => ∃ k < N, p = .inside k ∧ mySlotIndex = some (k : ℤ)
  | .raise next, p => ∃ k, next = ((k + 1) % N : ℕ) ∧ p = .inside k
  | .thrown, _ => False

/-- The lock as a ring lock, all of whose draws so far have been regular. -/
structure Related (N : ℕ) (s : State τ) (a : RingLock.State τ) : Prop where
  tail : s.tail = BitVec.ofNat 32 a.tail
  flags : s.flags = a.flags
  regular : ∀ d < a.tail, Regular N (BitVec.ofNat 32 d)
  thread : ∀ t, At N (s.mySlotIndex t) (s.pc t) (a.phase t)

omit [DecidableEq τ] in
theorem inBounds_of_lt (h : k < N) : InBounds N (k : ℤ) := ⟨Int.natCast_nonneg k, Int.ofNat_lt.mpr h⟩

/-- After a turn of `t`, everybody else stands where they stood. -/
theorem Related.thread_turn (h : Related N s a) {pc : Pc} {p : RingLock.Phase}
    (hpc : s'.pc = Function.update s.pc t pc)
    (hslot : ∀ u, u ≠ t → s'.mySlotIndex u = s.mySlotIndex u)
    (hself : At N (s'.mySlotIndex t) pc p) (u : τ) :
    At N (s'.mySlotIndex u) (s'.pc u) (Function.update a.phase t p u) := by
  rw [hpc]
  refine update_rel (R := fun u => At N (s'.mySlotIndex u)) hself (fun u hu => ?_) u
  rw [hslot u hu]
  exact h.thread u

/-- A turn that is no step of the ring. -/
theorem Related.stay (h : Related N s a) (pc : Pc) (my : τ → Option ℤ)
    (hslot : ∀ u, u ≠ t → my u = s.mySlotIndex u) (hself : At N (my t) pc (a.phase t)) :
    ∃ b, (RingLock.system τ N).Path a [] b ∧ Related N ({s with mySlotIndex := my}.goto t pc) b := by
  have hthread : ∀ u, At N (my u) (({s with mySlotIndex := my}.goto t pc).pc u)
      (Function.update a.phase t (a.phase t) u) :=
    h.thread_turn rfl hslot hself
  rw [Function.update_eq_self] at hthread
  exact ⟨a, .refl, h.tail, h.flags, h.regular, hthread⟩

/-- A turn that is a step of the ring. -/
theorem Related.move (h : Related N s a) {pc : Pc} {p : RingLock.Phase}
    (hstep : RingLock.Step N a l a') (hphase : a'.phase = Function.update a.phase t p)
    (hpc : s'.pc = Function.update s.pc t pc) (hslot : s'.mySlotIndex = s.mySlotIndex)
    (htail : s'.tail = BitVec.ofNat 32 a'.tail) (hflags : s'.flags = a'.flags)
    (hregular : ∀ d < a'.tail, Regular N (BitVec.ofNat 32 d)) (hself : At N (s.mySlotIndex t) pc p) :
    ∃ b, (RingLock.system τ N).Path a l.toList b ∧ Related N s' b := by
  refine ⟨a', System.Path.single hstep, htail, hflags, hregular, ?_⟩
  rw [hphase]
  exact h.thread_turn hpc (fun u _ => by rw [hslot]) (by rwa [hslot])

omit [DecidableEq τ] in
/-- With a regular draw, the draws up to the next are regular. -/
theorem Related.regular_succ (h : Related N s a) (hreg : Regular N s.tail) :
    ∀ d < a.tail + 1, Regular N (BitVec.ofNat 32 d) := fun d hd => by
  rcases Nat.lt_succ_iff_lt_or_eq.mp hd with hd | rfl
  · exact h.regular d hd
  · rwa [← h.tail]

omit [DecidableEq τ] in
/-- A regular draw picks the slot of the ring. -/
theorem Related.slot (h : Related N s a) (hreg : Regular N s.tail) :
    s.tail.toInt.tmod N = (a.tail % N : ℕ) := by
  rw [h.tail]
  exact slot_eq fun e he => h.regular_succ hreg e (Nat.lt_succ_of_le he)

/-- What a draw does. -/
theorem step_enqueue (hstep : step N s u = some (some (.enqueue t), s')) :
    s'.pc t = .setSlot (s.tail.toInt.tmod N) := by
  simp only [step] at hstep
  cases hp : s.pc u with
  | idle =>
    simp only [hp, Option.some.injEq, Prod.mk.injEq, LockEvent.enqueue.injEq] at hstep
    obtain ⟨rfl, rfl⟩ := hstep
    exact Function.update_self ..
  | setSlot slot => simp [hp] at hstep
  | spin slot =>
    simp only [hp] at hstep
    split_ifs at hstep <;> simp at hstep
  | clear slot =>
    simp only [hp] at hstep
    split_ifs at hstep <;> simp at hstep
  | critical => cases hmy : s.mySlotIndex u <;> simp [hp, hmy] at hstep
  | raise next =>
    simp only [hp] at hstep
    split_ifs at hstep <;> simp at hstep
  | thrown => simp [hp] at hstep

/-- **The ring follows every turn** of a thread, if a draw is regular. -/
theorem Related.turn (hN : 1 ≤ N) (h : Related N s a)
    (hreg : ∀ t, l = some (.enqueue t) → Regular N s.tail) (hstep : step N s t = some (l, s')) :
    ∃ b, (RingLock.system τ N).Path a l.toList b ∧ Related N s' b := by
  have hat := h.thread t
  cases hp : s.pc t with
  | idle =>
    rw [hp] at hat
    simp only [step, hp, Option.some.injEq, Prod.mk.injEq] at hstep
    obtain ⟨rfl, rfl⟩ := hstep
    have hreg := hreg t rfl
    refine h.move (.draw hat) rfl rfl rfl ?_ h.flags (h.regular_succ hreg)
      ⟨a.tail % N, Nat.mod_lt _ hN, h.slot hreg, rfl⟩
    rw [ofNat_succ, ← h.tail]
    rfl
  | setSlot slot =>
    rw [hp] at hat
    obtain ⟨k, hk, hslot, hx⟩ := hat
    simp only [step, hp, Option.some.injEq, Prod.mk.injEq] at hstep
    obtain ⟨rfl, rfl⟩ := hstep
    exact h.stay (.spin slot) _ (fun u hu => Function.update_of_ne hu ..)
      ⟨k, hk, hslot, hx, Function.update_self ..⟩
  | spin slot =>
    rw [hp] at hat
    obtain ⟨k, hk, rfl, hx, hmy⟩ := hat
    by_cases hf : s.flags k = true
    · simp only [step, hp, if_pos (inBounds_of_lt hk), Int.toNat_natCast, if_pos hf, Option.some.injEq,
        Prod.mk.injEq] at hstep
      obtain ⟨rfl, rfl⟩ := hstep
      exact h.move (.see hx (h.flags ▸ hf)) rfl rfl rfl h.tail h.flags h.regular ⟨k, hk, rfl, rfl, hmy⟩
    · simp only [step, hp, if_pos (inBounds_of_lt hk), Int.toNat_natCast, if_neg hf, Option.some.injEq,
        Prod.mk.injEq] at hstep
      obtain ⟨rfl, rfl⟩ := hstep
      exact ⟨a, .refl, h⟩
  | clear slot =>
    rw [hp] at hat
    obtain ⟨k, hk, rfl, hx, hmy⟩ := hat
    simp only [step, hp, if_pos (inBounds_of_lt hk), Option.some.injEq, Prod.mk.injEq] at hstep
    obtain ⟨rfl, rfl⟩ := hstep
    refine h.move (.clear hx) rfl rfl rfl h.tail ?_ h.regular ⟨k, hk, rfl, hmy⟩
    simp only [State.goto, State.setFlag, h.flags, Int.toNat_natCast]
  | critical =>
    rw [hp] at hat
    obtain ⟨k, hk, hx, hmy⟩ := hat
    simp only [step, hp, hmy, Option.some.injEq, Prod.mk.injEq] at hstep
    obtain ⟨rfl, rfl⟩ := hstep
    exact h.stay _ s.mySlotIndex (fun _ _ => rfl) ⟨k, (Int.ofNat_tmod (k + 1) N).symm, hx⟩
  | raise next =>
    rw [hp] at hat
    obtain ⟨k, rfl, hx⟩ := hat
    have hb : InBounds N (((k + 1) % N : ℕ) : ℤ) := inBounds_of_lt (Nat.mod_lt _ hN)
    simp only [step, hp, if_pos hb, Option.some.injEq, Prod.mk.injEq] at hstep
    obtain ⟨rfl, rfl⟩ := hstep
    refine h.move (.pass hx) rfl rfl rfl h.tail ?_ h.regular rfl
    simp only [State.goto, State.setFlag, h.flags, Int.toNat_natCast]
  | thrown =>
    rw [hp] at hat
    exact hat.elim

/-- Every draw is regular. -/
def Allowed (threadCount : ℕ) (s : State τ) (l : Option (LockEvent τ)) : Prop :=
  ∀ t, l = some (.enqueue t) → Regular threadCount s.tail

/-- **The lock is a ring lock as long as its draws are regular.** -/
def simulation (τ : Type*) [DecidableEq τ] (hN : 1 ≤ N) :
    System.Simulation ((machine τ N).system.guard (Allowed N)) (RingLock.system τ N) where
  Rel := Related N
  initial := ⟨rfl, rfl, fun _ hd => absurd hd (Nat.not_lt_zero _), fun _ => rfl⟩
  step := fun _ _ _ _ h ⟨⟨_, hstep⟩, hreg⟩ => h.turn hN hreg hstep

/-- **The lock works as long as its draws find `tail` non-negative or a multiple of the number
of slots.** -/
theorem java_alock_works {τ : Type*} [DecidableEq τ] [Fintype τ] (N : ℕ) (hN : 1 ≤ N)
    (hcard : Fintype.card τ ≤ N) :
    Works N ((machine τ N).system.guard (Allowed N)) := by
  have hn : ∀ l : List τ, l.Nodup → l.length ≤ N := fun l hl => hl.length_le_card.trans hcard
  refine ⟨fun es s t s' hrun hstep => ?_, fun s hs t ht => ?_, fun s hs t u ht hu => ?_⟩
  · obtain ⟨a, ha, h⟩ := (simulation τ hN).run hrun
    obtain ⟨⟨u, hstep⟩, hreg⟩ := hstep
    have hslot := h.slot (hreg t rfl)
    refine ⟨_, step_enqueue hstep, ?_, ?_⟩
    · rw [hslot]
      exact inBounds_of_lt (Nat.mod_lt _ hN)
    · rw [hslot, RingLock.run_tail hn ha]
  · obtain ⟨a, _, h⟩ := (simulation τ hN).reachable hs
    have hat := h.thread t
    rw [ht] at hat
    exact hat
  · obtain ⟨a, ha, h⟩ := (simulation τ hN).reachable hs
    have hinside : ∀ t, s.pc t = .critical → ∃ slot, a.phase t = .inside slot := fun t ht => by
      have hat := h.thread t
      rw [ht] at hat
      obtain ⟨k, _, hx, _⟩ := hat
      exact ⟨k, hx⟩
    exact (RingLock.excludesInOrder hn).1 a ha t u (hinside t ht) (hinside u hu)

/-- Two threads on two slots. -/
theorem java_alock_works_two : Works 2 ((machine (Fin 2) 2).system.guard (Allowed 2)) :=
  java_alock_works 2 (by decide) (by decide)

/-! ### Past the change of sign -/

/-- A negative slot leads into an exception. -/
theorem draw_throws (ht : s.pc t = .idle) (hreg : ¬ Regular N s.tail) :
    ∃ s', (machine τ N).system.Path s [.enqueue t] s' ∧ s'.pc t = .thrown := by
  have hneg : ¬ InBounds N (s.tail.toInt.tmod N) := fun hb => hreg ((tmod_nonneg_iff ..).mp hb.1)
  have hexec : (machine τ N).exec s [t, t, t] = some ([.enqueue t],
      { s with
        tail := s.tail + 1
        mySlotIndex := Function.update s.mySlotIndex t (some (s.tail.toInt.tmod N))
        pc := Function.update s.pc t .thrown }) := by
    simp [Machine.exec, machine, step, ht, State.goto, hneg]
  exact ⟨_, Machine.exec_path hexec, Function.update_self ..⟩

/-- A thread on its own that draws a slot with its flag raised locks and unlocks. -/
theorem round {m : ℕ} (ht : s.pc t = .idle) (hslot : s.tail.toInt.tmod N = k) (hk : k < N)
    (hflag : s.flags k = true) (hnext : ((k : ℤ) + 1).tmod N = m) (hm : m < N) :
    (machine τ N).system.Path s [.enqueue t, .enter t, .leave t]
      { tail := s.tail + 1
        flags := Function.update (Function.update s.flags k false) m true
        mySlotIndex := Function.update s.mySlotIndex t (some (k : ℤ))
        pc := Function.update s.pc t .idle } := by
  have hexec : (machine τ N).exec s [t, t, t, t, t, t] = some ([.enqueue t, .enter t, .leave t],
      { tail := s.tail + 1
        flags := Function.update (Function.update s.flags k false) m true
        mySlotIndex := Function.update s.mySlotIndex t (some (k : ℤ))
        pc := Function.update s.pc t .idle }) := by
    simp [Machine.exec, machine, step, InBounds, ht, hslot, hk, hflag, hnext, hm, State.goto,
      State.setFlag]
  exact Machine.exec_path hexec

/-- Until the slots go wrong, a thread can lock and unlock again and again. -/
theorem rounds (t : τ) (hN : 1 ≤ N) (n : ℕ)
    (h : ∀ d < n, (BitVec.ofNat 32 d).toInt.tmod N = (d % N : ℕ)) :
    ∃ es s, (machine τ N).system.Run es s ∧ (enqueued es).length = n ∧ s.tail = BitVec.ofNat 32 n ∧
      s.flags (n % N) = true ∧ s.pc t = .idle := by
  induction n with
  | zero => exact ⟨[], _, .refl, rfl, rfl, by simp [Machine.system, machine], rfl⟩
  | succ n ih =>
    obtain ⟨es, s, hrun, hlen, htail, hflag, ht⟩ := ih fun d hd => h d (Nat.lt_succ_of_lt hd)
    have hslot : s.tail.toInt.tmod N = (n % N : ℕ) := htail ▸ h n (Nat.lt_succ_self n)
    have hnext : (((n % N : ℕ) : ℤ) + 1).tmod N = ((n + 1) % N : ℕ) := by
      rw [← Nat.mod_add_mod n N 1]
      exact (Int.ofNat_tmod _ N).symm
    have hround := round ht hslot (Nat.mod_lt _ hN) hflag hnext (Nat.mod_lt _ hN)
    refine ⟨_, _, System.Path.trans hrun hround, ?_, ?_, Function.update_self .., Function.update_self ..⟩
    · rw [enqueued_append, List.length_append, hlen]
      rfl
    · rw [ofNat_succ, ← htail]

/-- Once a draw would pick another slot than an unbounded counter, the lock does not work. -/
theorem not_works (t : τ) (hN : 1 ≤ N) (n : ℕ) (h : (BitVec.ofNat 32 n).toInt.tmod N ≠ (n % N : ℕ)) :
    ¬ Works N (machine τ N).system := by
  intro hworks
  -- the first draw that goes wrong comes after rounds that do not
  have hex : ∃ n, (BitVec.ofNat 32 n).toInt.tmod N ≠ (n % N : ℕ) := ⟨n, h⟩
  obtain ⟨es, s, hrun, hlen, htail, _, ht⟩ := rounds t hN (Nat.find hex) fun d hd =>
    not_not.mp (Nat.find_min hex hd)
  obtain ⟨s', hstep⟩ : ∃ s', step N s t = some (some (.enqueue t), s') := ⟨_, by simp only [step, ht]; rfl⟩
  obtain ⟨slot, hslot, _, hk⟩ := hworks.draw es s t s' hrun ⟨t, hstep⟩
  rw [step_enqueue hstep, Pc.setSlot.injEq, htail] at hslot
  rw [hlen, ← hslot] at hk
  exact Nat.find_spec hex hk

/-- **A lock with three slots fails**: draw number `2 ^ 31` finds `tail` at `-2 ^ 31`. -/
theorem java_alock_fails : ¬ Works 3 (machine (Fin 1) 3).system :=
  not_works 0 (by decide) (2 ^ 31) (by decide)

end ParSweet.Locks.JavaALock
