import Mathlib.Data.List.Perm.Subperm
import ParSweet.Concurrent.RingLock
import ParSweet.Counter
import ParSweet.Locks.ThreadLocal

/-! `ALock` and `OptimizedALock` of the C++ suite.

Every thread calls `lock()` and `unlock()` in turn. `mySlotIndex` keeps the slot a thread
has drawn from `lock()` to `unlock()`, at the index that belongs to the thread's id. As
long as no two threads share an index and `tail` has not wrapped, the lock is the ring
lock of its threads (`Related.turn`). -/
namespace ParSweet.Locks.ALock
open Concurrent

/-- Where a thread stands. -/
inductive Pc where
  /-- Outside. Next it calls `lock()`, which begins with
  `tail.fetch_add(1) % ThreadCount`. -/
  | idle
  /-- `mySlotIndex.set(slot)` -/
  | setSlot (slot : ℕ) (p : ThreadLocal.Put)
  /-- `!flags[slot]` -/
  | spin (slot : ℕ)
  /-- `flags[slot] = false` -/
  | clear (slot : ℕ)
  /-- `lock()` has returned. Next it calls `unlock()`. -/
  | critical
  /-- `mySlotIndex.get()` -/
  | getSlot (g : ThreadLocal.Get)
  /-- `flags[(slot + 1) % ThreadCount] = true` -/
  | raise (slot : ℕ)
  deriving DecidableEq

structure State (τ : Type*) where
  tail : BitVec 64
  flags : ℕ → Bool
  mySlotIndex : ThreadLocal ℕ ℕ
  pc : τ → Pc

variable {τ : Type*} [DecidableEq τ]

def State.goto (s : State τ) (t : τ) (pc : Pc) : State τ := {s with pc := Function.update s.pc t pc}

/-- `flags[slot] = b` -/
def State.setFlag (s : State τ) (slot : ℕ) (b : Bool) : State τ :=
  {s with flags := Function.update s.flags slot b}

/-- The next atomic step of a thread. -/
def step (ThreadCount : ℕ) (threadId : τ → ℕ) (s : State τ) (t : τ) :
    Option (Option (LockEvent τ) × State τ) :=
  let idx := threadId t % ThreadCount
  match s.pc t with
  | .idle =>
    some (some (.enqueue t),
      {s with tail := s.tail + 1}.goto t (.setSlot (s.tail.toNat % ThreadCount) .mark))
  | .setSlot slot p =>
    match p.step s.mySlotIndex idx slot with
    | (l, some p') => some (none, {s with mySlotIndex := l}.goto t (.setSlot slot p'))
    | (l, none) => some (none, {s with mySlotIndex := l}.goto t (.spin slot))
  | .spin slot => if s.flags slot then some (none, s.goto t (.clear slot)) else some (none, s)
  | .clear slot => some (some (.enter t), (s.setFlag slot false).goto t .critical)
  | .critical => some (none, s.goto t (.getSlot .test))
  | .getSlot g =>
    match g.step s.mySlotIndex idx with
    | (l, .inl g') => some (none, {s with mySlotIndex := l}.goto t (.getSlot g'))
    | (l, .inr slot) => some (none, {s with mySlotIndex := l}.goto t (.raise slot))
  | .raise slot =>
    some (some (.leave t), (s.setFlag ((slot + 1) % ThreadCount) true).goto t .idle)

/-- The lock and its threads; the actions are the threads' turns. -/
def machine (ThreadCount : ℕ) (threadId : τ → ℕ) : Machine (State τ) τ (LockEvent τ) where
  initial := ⟨0, fun i => decide (i = 0), .empty, fun _ => .idle⟩
  next := step ThreadCount threadId

/-! ### The ring lock -/

variable {N : ℕ} {threadId : τ → ℕ} {s s' : State τ} {a a' : RingLock.State τ} {t u : τ}
  {l : Option (LockEvent τ)} {es : List (LockEvent τ)}

/-- Where a thread stands in the code against where it stands on the ring. -/
def At (N : ℕ) (threadId : τ → ℕ) (s : State τ) (t : τ) : Pc → RingLock.Phase → Prop
  | .idle, p => p = .rest
  | .setSlot slot put, p => p = .waiting slot ∧
      (put = .store → s.mySlotIndex.setArr (threadId t % N) = true)
  | .spin slot, p => p = .waiting slot ∧ s.mySlotIndex.Holds (threadId t % N) slot
  | .clear slot, p => p = .seen slot ∧ s.mySlotIndex.Holds (threadId t % N) slot
  | .critical, p => ∃ slot, p = .inside slot ∧ s.mySlotIndex.Holds (threadId t % N) slot
  | .getSlot g, p => (g = .test ∨ g = .read) ∧
      ∃ slot, p = .inside slot ∧ s.mySlotIndex.Holds (threadId t % N) slot
  | .raise slot, p => p = .inside slot

/-- The lock as a ring lock. -/
structure Related (N : ℕ) (threadId : τ → ℕ) (s : State τ) (a : RingLock.State τ) : Prop where
  tail : s.tail = BitVec.ofNat 64 a.tail
  flags : s.flags = a.flags
  thread : ∀ t, At N threadId s t (s.pc t) (a.phase t)

omit [DecidableEq τ] in
theorem At.congr {pc : Pc} {p : RingLock.Phase} (h : At N threadId s u pc p)
    (hslot : s.mySlotIndex.Agrees s'.mySlotIndex (threadId u % N)) : At N threadId s' u pc p := by
  cases pc <;> simp only [At, ThreadLocal.Holds, hslot.1, hslot.2] at h ⊢ <;> exact h

/-- After a turn of `t`, everybody else stands where they stood. -/
theorem Related.thread_turn (h : Related N threadId s a)
    (hids : ∀ t u, threadId t % N = threadId u % N → t = u) {pc : Pc} {p : RingLock.Phase}
    (hpc : s'.pc = Function.update s.pc t pc)
    (hslot : ∀ i, i ≠ threadId t % N → s.mySlotIndex.Agrees s'.mySlotIndex i)
    (hself : At N threadId s' t pc p) (u : τ) :
    At N threadId s' u (s'.pc u) (Function.update a.phase t p u) := by
  rw [hpc]
  refine update_rel (R := At N threadId s') hself (fun u hu => ?_) u
  exact (h.thread u).congr (hslot _ fun he => hu (hids u t he))

/-- A turn that is no step of the ring. -/
theorem Related.stay (h : Related N threadId s a)
    (hids : ∀ t u, threadId t % N = threadId u % N → t = u) (pc : Pc) (l : ThreadLocal ℕ ℕ)
    (hslot : ∀ i, i ≠ threadId t % N → s.mySlotIndex.Agrees l i)
    (hself : At N threadId {s with mySlotIndex := l} t pc (a.phase t)) :
    ∃ b, (RingLock.system τ N).Path a [] b ∧ Related N threadId ({s with mySlotIndex := l}.goto t pc) b := by
  have hthread : ∀ u, At N threadId ({s with mySlotIndex := l}.goto t pc) u
      (({s with mySlotIndex := l}.goto t pc).pc u) (Function.update a.phase t (a.phase t) u) :=
    h.thread_turn hids rfl hslot (hself.congr .rfl)
  rw [Function.update_eq_self] at hthread
  exact ⟨a, .refl, h.tail, h.flags, hthread⟩

/-- A turn that is a step of the ring. -/
theorem Related.move (h : Related N threadId s a)
    (hids : ∀ t u, threadId t % N = threadId u % N → t = u) {pc : Pc} {p : RingLock.Phase}
    (hstep : RingLock.Step N a l a') (hphase : a'.phase = Function.update a.phase t p)
    (hpc : s'.pc = Function.update s.pc t pc) (hslot : s'.mySlotIndex = s.mySlotIndex)
    (htail : s'.tail = BitVec.ofNat 64 a'.tail) (hflags : s'.flags = a'.flags)
    (hself : At N threadId s' t pc p) :
    ∃ b, (RingLock.system τ N).Path a l.toList b ∧ Related N threadId s' b := by
  refine ⟨a', System.Path.single hstep, htail, hflags, ?_⟩
  rw [hphase]
  exact h.thread_turn hids hpc (fun i _ => by rw [hslot]; exact .rfl) hself

/-- **The ring follows every turn** of a thread, as long as `tail` has not wrapped. -/
theorem Related.turn (h : Related N threadId s a)
    (hids : ∀ t u, threadId t % N = threadId u % N → t = u)
    (htail : ∀ t, l = some (.enqueue t) → a.tail < 2 ^ 64)
    (hstep : step N threadId s t = some (l, s')) :
    ∃ b, (RingLock.system τ N).Path a l.toList b ∧ Related N threadId s' b := by
  have hat := h.thread t
  cases hp : s.pc t with
  | idle =>
    rw [hp] at hat
    simp only [step, hp, Option.some.injEq, Prod.mk.injEq] at hstep
    obtain ⟨rfl, rfl⟩ := hstep
    have htoNat : s.tail.toNat = a.tail := by
      rw [h.tail, BitVec.toNat_ofNat, Nat.mod_eq_of_lt (htail t rfl)]
    refine h.move hids (.draw hat) rfl rfl rfl ?_ h.flags ⟨by rw [htoNat], fun hput => ?_⟩
    · rw [ofNat_succ, ← h.tail]
      rfl
    · cases hput
  | setSlot slot put =>
    rw [hp] at hat
    obtain ⟨hx, hset⟩ := hat
    cases put with
    | mark =>
      simp only [step, hp, ThreadLocal.Put.step, Option.some.injEq, Prod.mk.injEq] at hstep
      obtain ⟨rfl, rfl⟩ := hstep
      exact h.stay hids (.setSlot slot .store) _ (fun _ hi => ThreadLocal.agrees_mark hi)
        ⟨hx, fun _ => Function.update_self ..⟩
    | store =>
      simp only [step, hp, ThreadLocal.Put.step, Option.some.injEq, Prod.mk.injEq] at hstep
      obtain ⟨rfl, rfl⟩ := hstep
      exact h.stay hids (.spin slot) _ (fun _ hi => ThreadLocal.agrees_store hi)
        ⟨hx, hset rfl, Function.update_self ..⟩
  | spin slot =>
    rw [hp] at hat
    obtain ⟨hx, hk⟩ := hat
    by_cases hf : s.flags slot = true
    · simp only [step, hp, if_pos hf, Option.some.injEq, Prod.mk.injEq] at hstep
      obtain ⟨rfl, rfl⟩ := hstep
      exact h.move hids (.see hx (h.flags ▸ hf)) rfl rfl rfl h.tail h.flags ⟨rfl, hk⟩
    · simp only [step, hp, if_neg hf, Option.some.injEq, Prod.mk.injEq] at hstep
      obtain ⟨rfl, rfl⟩ := hstep
      exact ⟨a, .refl, h⟩
  | clear slot =>
    rw [hp] at hat
    obtain ⟨hx, hk⟩ := hat
    simp only [step, hp, Option.some.injEq, Prod.mk.injEq] at hstep
    obtain ⟨rfl, rfl⟩ := hstep
    exact h.move hids (.clear hx) rfl rfl rfl h.tail (by rw [← h.flags]; rfl) ⟨slot, rfl, hk⟩
  | critical =>
    rw [hp] at hat
    simp only [step, hp, Option.some.injEq, Prod.mk.injEq] at hstep
    obtain ⟨rfl, rfl⟩ := hstep
    exact h.stay hids (.getSlot .test) s.mySlotIndex (fun _ _ => .rfl) ⟨.inl rfl, hat⟩
  | getSlot g =>
    rw [hp] at hat
    obtain ⟨hg, slot, hx, hk⟩ := hat
    rcases hg with rfl | rfl
    · simp only [step, hp, ThreadLocal.Get.step, hk.1, if_true, Option.some.injEq, Prod.mk.injEq] at hstep
      obtain ⟨rfl, rfl⟩ := hstep
      exact h.stay hids (.getSlot .read) s.mySlotIndex (fun _ _ => .rfl) ⟨.inr rfl, slot, hx, hk⟩
    · simp only [step, hp, ThreadLocal.Get.step, hk.2, Option.some.injEq, Prod.mk.injEq] at hstep
      obtain ⟨rfl, rfl⟩ := hstep
      exact h.stay hids (.raise slot) s.mySlotIndex (fun _ _ => .rfl) hx
  | raise slot =>
    rw [hp] at hat
    simp only [step, hp, Option.some.injEq, Prod.mk.injEq] at hstep
    obtain ⟨rfl, rfl⟩ := hstep
    exact h.move hids (.pass hat) rfl rfl rfl h.tail (by rw [← h.flags]; rfl) rfl

omit [DecidableEq τ] in
/-- There are no more threads than ids modulo `N`. -/
theorem length_le (hN : 1 ≤ N) (hids : ∀ t u, threadId t % N = threadId u % N → t = u) (l : List τ)
    (hl : l.Nodup) : l.length ≤ N := by
  have hnodup : (l.map fun t => threadId t % N).Nodup := hl.map fun t u => hids t u
  have hsub : l.map (fun t => threadId t % N) ⊆ List.range N := fun i hi => by
    obtain ⟨t, _, rfl⟩ := List.mem_map.mp hi
    exact List.mem_range.mpr (Nat.mod_lt _ hN)
  simpa using (hnodup.subperm hsub).length_le

theorem excludesInOrderBelow (hN : 1 ≤ N) (hids : ∀ t u, threadId t % N = threadId u % N → t = u) :
    ExcludesInOrderBelow (2 ^ 64) (machine N threadId).system fun s t => s.pc t = .critical := by
  intro es s hrun hcalls
  have hn := length_le hN hids
  have hprefix : ∀ es fs : List (LockEvent τ), (enqueued (es ++ fs)).length < 2 ^ 64 →
      (enqueued es).length < 2 ^ 64 := fun es fs hlt => by
    rw [enqueued_append, List.length_append] at hlt
    omega
  obtain ⟨a, ha, h⟩ := hrun.simulate (S := (machine N threadId).system)
    (A := RingLock.system τ N) (P := fun es => (enqueued es).length < 2 ^ 64) hprefix (Related N threadId)
    ⟨rfl, rfl, fun _ => rfl⟩ (fun es s a l s' hlt ha h ⟨t, hstep⟩ => by
      refine h.turn hids (fun u hl => ?_) hstep
      subst hl
      rw [enqueued_append, List.length_append] at hlt
      rw [RingLock.run_tail hn ha]
      simpa [enqueued, LockEvent.enqueued?] using Nat.lt_of_succ_lt hlt) hcalls
  obtain ⟨hexcl, horder⟩ := RingLock.excludesInOrder hn
  have hinside : ∀ t, s.pc t = .critical → ∃ slot, a.phase t = .inside slot := fun t ht => by
    have hat := h.thread t
    rw [ht] at hat
    exact hat.imp fun _ hx => hx.1
  exact ⟨fun t u ht hu => hexcl a ⟨es, ha⟩ t u (hinside t ht) (hinside u hu), horder es a ha⟩

end ParSweet.Locks.ALock

namespace ParSweet.Locks.OptimizedALock
open Concurrent

variable {τ : Type*} [DecidableEq τ]

/-- The flags stand in cells of their own; `*flags[slot]` is the flag in its cell, and the
code is otherwise that of `ALock`. -/
def machine (ThreadCount : ℕ) (threadId : τ → ℕ) : Machine (ALock.State τ) τ (LockEvent τ) :=
  ALock.machine ThreadCount threadId

end ParSweet.Locks.OptimizedALock

namespace ParSweet.Locks.ALock
open Concurrent

/-- **Both locks exclude, first come, first served**, for any number of slots, in runs with
fewer than `2 ^ 64` calls of `lock()`, if the threads' ids are distinct modulo the number of
slots. -/
theorem alock_excludesInOrder {τ : Type*} [DecidableEq τ] (N : ℕ) (hN : 1 ≤ N) (threadId : τ → ℕ)
    (hids : ∀ t u, threadId t % N = threadId u % N → t = u) :
    ExcludesInOrderBelow (2 ^ 64) (machine N threadId).system (fun s t => s.pc t = .critical) ∧
      ExcludesInOrderBelow (2 ^ 64) (OptimizedALock.machine N threadId).system
        fun s t => s.pc t = .critical :=
  ⟨excludesInOrderBelow hN hids, excludesInOrderBelow hN hids⟩

/-- Three threads on three slots. -/
theorem alock_excludesInOrder_full :
    ExcludesInOrderBelow (2 ^ 64) (machine 3 fun t : Fin 3 => t.val + 1).system
        (fun s t => s.pc t = .critical) ∧
      ExcludesInOrderBelow (2 ^ 64) (OptimizedALock.machine 3 fun t : Fin 3 => t.val + 1).system
        fun s t => s.pc t = .critical :=
  alock_excludesInOrder 3 (by decide) (fun t : Fin 3 => t.val + 1) (by decide)

end ParSweet.Locks.ALock
