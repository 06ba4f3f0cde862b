import ParSweet.Concurrent.OwnerLock
import ParSweet.Hash
import ParSweet.Locks.ThreadId

/-! `IdLock` and `TIdLock` of both suites: `turn` is the id of the thread that holds the
lock, or `0`.

A thread may call `lock()` and `unlock()` whenever it is in neither, whether it holds the
lock or not. In C++ a `compare_exchange_weak` may fail for no reason and `unlock()` spins
until its exchange succeeds; in Java `unlock()` tries once and asserts that it worked, which
changes nothing in the lock. The ideal lock with an owner follows every turn
(`Related.turn`). -/
namespace ParSweet

/-- The width of `ThreadId`'s counter: `usize`, or `int`. -/
def Lang.idBits : Lang → ℕ
  | .cpp => 64
  | .java => 32

namespace Locks.IdLock
open Concurrent

inductive Method where
  | lock
  | unlock
  deriving DecidableEq

/-- Where a thread stands. -/
inductive Pc (w : ℕ) where
  /-- In neither method. -/
  | idle
  /-- `ThreadId::get()`, with which both methods begin. -/
  | getId (m : Method)
  /-- `turn.load() == 0`, in `lock()` of `TIdLock` only. -/
  | test (ticket : BitVec w)
  /-- `turn.compare_exchange_weak(zero, ticket)` -/
  | take (ticket : BitVec w)
  /-- `turn.compare_exchange_weak(dummy, 0)` -/
  | giveBack (ticket : BitVec w)
  deriving DecidableEq

structure State (τ : Type*) (w : ℕ) where
  ids : ThreadId τ w
  turn : BitVec w
  pc : τ → Pc w

inductive Action (τ : Type*) where
  /-- `t` calls a method. -/
  | call (t : τ) (m : Method)
  /-- The next atomic step of `t`. -/
  | turn (t : τ)
  /-- The same, where it is an exchange that fails for no reason. -/
  | spurious (t : τ)

/-- The thread that takes the step. -/
def Action.thread {τ : Type*} : Action τ → τ
  | .call t _ => t
  | .turn t => t
  | .spurious t => t

variable {τ : Type*} [DecidableEq τ] {w : ℕ}

def State.goto (s : State τ w) (t : τ) (pc : Pc w) : State τ w := {s with pc := Function.update s.pc t pc}

/-- The beginning of the loop of `lock()`; `tests` tells `TIdLock` from `IdLock`. -/
def again (tests : Bool) (ticket : BitVec w) : Pc w := if tests then .test ticket else .take ticket

def step (L : Lang) (tests : Bool) (s : State τ w) :
    Action τ → Option (Option (OwnerEvent τ) × State τ w)
  | .call t m => if s.pc t = .idle then some (none, s.goto t (.getId m)) else none
  | .turn t =>
    match s.pc t with
    | .idle => none
    | .getId m =>
      let ids := s.ids.get t
      let ticket := ids.id t
      let pc := match m with
        | .lock => again tests ticket
        | .unlock => .giveBack ticket
      some (if s.ids.id t = 0 then some (.issue t) else none, {s with ids := ids}.goto t pc)
    | .test ticket => some (none, s.goto t (if s.turn = 0 then .take ticket else .test ticket))
    | .take ticket =>
      if s.turn = 0 then some (some (.acquire t), {s with turn := ticket}.goto t .idle)
      else some (none, s.goto t (again tests ticket))
    | .giveBack ticket =>
      if s.turn = ticket then some (some (.release t), {s with turn := 0}.goto t .idle)
      else
        match L with
        | .cpp => some (none, s)
        | .java => some (none, s.goto t .idle)
  | .spurious t =>
    match L, s.pc t with
    | .cpp, .take ticket => some (none, s.goto t (again tests ticket))
    | .cpp, .giveBack _ => some (none, s)
    | _, _ => none

/-- The lock and its threads. -/
def lockMachine (τ : Type*) [DecidableEq τ] (L : Lang) (tests : Bool) :
    Machine (State τ L.idBits) (Action τ) (OwnerEvent τ) where
  initial := ⟨.initial, 0, fun _ => .idle⟩
  next := step L tests

def machine (τ : Type*) [DecidableEq τ] (L : Lang) : Machine (State τ L.idBits) (Action τ) (OwnerEvent τ) :=
  lockMachine τ L false

/-- `t` is in a call of `unlock()`. -/
def InUnlock (s : State τ w) (t : τ) : Prop :=
  s.pc t = .getId .unlock ∨ ∃ ticket, s.pc t = .giveBack ticket

/-- What is asked of a lock with ids, in every run that gives fewer ids than the counter has
values: `turn` is `0` just when nobody holds the lock, and else the id of the one thread
that does, and a step that a thread takes in `unlock()` without holding the lock leaves
`turn` alone. -/
structure OwnershipSafe {L : Lang} (M : Machine (State τ L.idBits) (Action τ) (OwnerEvent τ)) : Prop where
  free : ∀ es s, M.system.Run es s → (issued es).length < 2 ^ L.idBits →
    (s.turn = 0 ↔ ∀ t, ¬ Holds es t)
  held : ∀ es s, M.system.Run es s → (issued es).length < 2 ^ L.idBits → s.turn ≠ 0 →
    ∃ t, s.turn = s.ids.id t ∧ ∀ u, Holds es u ↔ u = t
  unlock : ∀ es s a l s', M.system.Run es s → M.next s a = some (l, s') →
    (issued (es ++ l.toList)).length < 2 ^ L.idBits → InUnlock s a.thread → ¬ Holds es a.thread →
    s'.turn = s.turn

/-! ### The ideal lock -/

/-- The ticket a thread has at hand. -/
def Pc.ticket? : Pc w → Option (BitVec w)
  | .idle => none
  | .getId _ => none
  | .test ticket => some ticket
  | .take ticket => some ticket
  | .giveBack ticket => some ticket

/-- The lock as the ideal lock: `turn` is the holder's id, and a ticket at hand is the
thread's own id. -/
structure Related (s : State τ w) (a : OwnerLock.State τ) : Prop where
  ids : s.ids.Issued a.issued
  free : a.holder = none → s.turn = 0
  held : ∀ t, a.holder = some t → s.turn = s.ids.id t ∧ s.ids.id t ≠ 0
  ticket : ∀ t ticket, (s.pc t).ticket? = some ticket → ticket = s.ids.id t ∧ s.ids.id t ≠ 0

variable {s s' : State τ w} {a : OwnerLock.State τ} {t u : τ} {L : Lang} {tests : Bool} {pc : Pc w}
  {ticket : BitVec w} {l : Option (OwnerEvent τ)} {x : Action τ}

theorem ticket?_again : (again tests ticket).ticket? = some ticket := by
  cases tests <;> rfl

omit [DecidableEq τ] in
/-- Nobody but the holder has the id that `turn` shows. -/
theorem Related.holder_eq (h : Related s a) (ht : s.ids.id t ≠ 0) (hturn : s.turn = s.ids.id t) :
    a.holder = some t := by
  cases ho : a.holder with
  | none => exact absurd (hturn.symm.trans (h.free ho)) ht
  | some u =>
    obtain ⟨hu, hne⟩ := h.held u ho
    rw [h.ids.injective u t hne (hu.symm.trans hturn)]

omit [DecidableEq τ] in
theorem Related.free_iff (h : Related s a) : s.turn = 0 ↔ a.holder = none := by
  refine ⟨fun hturn => ?_, h.free⟩
  cases ho : a.holder with
  | none => rfl
  | some u =>
    obtain ⟨hu, hne⟩ := h.held u ho
    exact absurd (hu.symm.trans hturn) hne

/-- A turn that only moves `t` on. -/
theorem Related.goto (h : Related s a) (hpc : ∀ ticket, pc.ticket? = some ticket →
    ticket = s.ids.id t ∧ s.ids.id t ≠ 0) : Related (s.goto t pc) a where
  ids := h.ids
  free := h.free
  held := h.held
  ticket := (Function.forall_update_iff s.pc fun u p => ∀ ticket, p.ticket? = some ticket →
    ticket = s.ids.id u ∧ s.ids.id u ≠ 0).mpr ⟨hpc, fun u _ => h.ticket u⟩

/-- Back to the beginning of the loop of `lock()`. -/
theorem Related.again (h : Related s a) (ht : ticket = s.ids.id t ∧ s.ids.id t ≠ 0) :
    Related (s.goto t (again tests ticket)) a :=
  h.goto fun ticket' hx => by
    rw [ticket?_again, Option.some.injEq] at hx
    exact hx ▸ ht

/-- Taking the lock. -/
theorem Related.take (h : Related s a) (ht : ticket = s.ids.id t ∧ s.ids.id t ≠ 0) :
    Related ({s with turn := ticket}.goto t .idle) {a with holder := some t} := by
  have hrel : Related {s with turn := ticket} {a with holder := some t} :=
    ⟨h.ids, fun ho => (by cases ho), fun u hu => Option.some.inj hu ▸ ht, h.ticket⟩
  exact hrel.goto fun _ hx => by cases hx

/-- Giving the lock back. -/
theorem Related.giveBack (h : Related s a) :
    Related ({s with turn := 0}.goto t .idle) {a with holder := none} := by
  have hrel : Related {s with turn := 0} {a with holder := none} :=
    ⟨h.ids, fun _ => rfl, fun u hu => (by cases hu), h.ticket⟩
  exact hrel.goto fun _ hx => by cases hx

/-- After `get()`, the caller has an id of its own and everybody else's is what it was. -/
theorem Related.getId (h : Related s a) (hn : s.ids.id t = 0 → a.issued + 1 < 2 ^ w) :
    (OwnerLock.system τ).Path a (if s.ids.id t = 0 then some (OwnerEvent.issue t) else none).toList
        ⟨if s.ids.id t = 0 then a.issued + 1 else a.issued, a.holder⟩ ∧
      Related {s with ids := s.ids.get t}
        ⟨if s.ids.id t = 0 then a.issued + 1 else a.issued, a.holder⟩ := by
  by_cases ht : s.ids.id t = 0
  · -- a thread without an id neither holds the lock nor has a ticket
    simp only [if_pos ht]
    refine ⟨System.Path.single .issue, h.ids.get ht (hn ht), h.free, fun u hu => ?_, fun u ticket hu => ?_⟩
    · obtain ⟨hturn, hne⟩ := h.held u hu
      dsimp only
      rw [ThreadId.get_id_of_ne_zero hne]
      exact ⟨hturn, hne⟩
    · obtain ⟨htick, hne⟩ := h.ticket u ticket hu
      dsimp only
      rw [ThreadId.get_id_of_ne_zero hne]
      exact ⟨htick, hne⟩
  · simp only [if_neg ht, ThreadId.get_of_ne_zero ht]
    exact ⟨.refl, h⟩

/-- **The ideal lock follows every turn** of a thread, as long as the ids have not run out. -/
theorem Related.turn {s s' : State τ L.idBits} (h : Related s a)
    (hn : ∀ t, l = some (.issue t) → a.issued + 1 < 2 ^ L.idBits)
    (hstep : step L tests s x = some (l, s')) :
    ∃ b, (OwnerLock.system τ).Path a l.toList b ∧ Related s' b := by
  cases x with
  | call t m =>
    simp only [step] at hstep
    split_ifs at hstep with hp
    simp only [Option.some.injEq, Prod.mk.injEq] at hstep
    obtain ⟨rfl, rfl⟩ := hstep
    exact ⟨a, .refl, h.goto fun _ hx => by cases hx⟩
  | turn t =>
    cases hp : s.pc t with
    | idle => simp [step, hp] at hstep
    | getId m =>
      simp only [step, hp, Option.some.injEq, Prod.mk.injEq] at hstep
      obtain ⟨rfl, rfl⟩ := hstep
      have hn' : s.ids.id t = 0 → a.issued + 1 < 2 ^ L.idBits := fun ht => hn t (if_pos ht)
      obtain ⟨hpath, hrel⟩ := h.getId hn'
      refine ⟨_, hpath, hrel.goto fun ticket hx => ?_⟩
      cases m with
      | lock =>
        rw [ticket?_again, Option.some.injEq] at hx
        exact ⟨hx.symm, h.ids.get_ne_zero hn'⟩
      | unlock =>
        rw [Pc.ticket?, Option.some.injEq] at hx
        exact ⟨hx.symm, h.ids.get_ne_zero hn'⟩
    | test ticket =>
      simp only [step, hp, Option.some.injEq, Prod.mk.injEq] at hstep
      obtain ⟨rfl, rfl⟩ := hstep
      refine ⟨a, .refl, h.goto fun ticket' hx => h.ticket t ticket' ?_⟩
      rw [hp, ← hx]
      split_ifs <;> rfl
    | take ticket =>
      have htick := h.ticket t ticket (by rw [hp]; rfl)
      by_cases hturn : s.turn = 0
      · simp only [step, hp, if_pos hturn, Option.some.injEq, Prod.mk.injEq] at hstep
        obtain ⟨rfl, rfl⟩ := hstep
        exact ⟨_, System.Path.single (.acquire (h.free_iff.mp hturn)), h.take htick⟩
      · simp only [step, hp, if_neg hturn, Option.some.injEq, Prod.mk.injEq] at hstep
        obtain ⟨rfl, rfl⟩ := hstep
        exact ⟨a, .refl, h.again htick⟩
    | giveBack ticket =>
      have htick := h.ticket t ticket (by rw [hp]; rfl)
      by_cases hturn : s.turn = ticket
      · simp only [step, hp, if_pos hturn, Option.some.injEq, Prod.mk.injEq] at hstep
        obtain ⟨rfl, rfl⟩ := hstep
        have hheld := h.holder_eq htick.2 (hturn.trans htick.1)
        exact ⟨_, System.Path.single (.release hheld), h.giveBack⟩
      · simp only [step, hp, if_neg hturn] at hstep
        cases L with
        | cpp =>
          simp only [Option.some.injEq, Prod.mk.injEq] at hstep
          obtain ⟨rfl, rfl⟩ := hstep
          exact ⟨a, .refl, h⟩
        | java =>
          simp only [Option.some.injEq, Prod.mk.injEq] at hstep
          obtain ⟨rfl, rfl⟩ := hstep
          exact ⟨a, .refl, h.goto fun _ hx => by cases hx⟩
  | spurious t =>
    cases L with
    | java => simp [step] at hstep
    | cpp =>
      cases hp : s.pc t with
      | idle => simp [step, hp] at hstep
      | getId m => simp [step, hp] at hstep
      | test ticket => simp [step, hp] at hstep
      | take ticket =>
        simp only [step, hp, Option.some.injEq, Prod.mk.injEq] at hstep
        obtain ⟨rfl, rfl⟩ := hstep
        exact ⟨a, .refl, h.again (h.ticket t ticket (by rw [hp]; rfl))⟩
      | giveBack ticket =>
        simp only [step, hp, Option.some.injEq, Prod.mk.injEq] at hstep
        obtain ⟨rfl, rfl⟩ := hstep
        exact ⟨a, .refl, h⟩

/-- In `unlock()`, only the exchange of the thread with the id in `turn` changes it. -/
theorem step_unlock {s s' : State τ L.idBits} (hin : InUnlock s x.thread)
    (hstep : step L tests s x = some (l, s')) : s'.turn = s.turn ∨ s.pc x.thread = .giveBack s.turn := by
  cases x with
  | call t m =>
    simp only [step] at hstep
    split_ifs at hstep
    simp only [Option.some.injEq, Prod.mk.injEq] at hstep
    exact .inl (hstep.2 ▸ rfl)
  | turn t =>
    rcases hin with hp | ⟨ticket, hp⟩ <;> dsimp only [Action.thread] at hp
    · simp only [step, hp, Option.some.injEq, Prod.mk.injEq] at hstep
      exact .inl (hstep.2 ▸ rfl)
    · by_cases hturn : s.turn = ticket
      · exact .inr (hturn ▸ hp)
      · simp only [step, hp, if_neg hturn] at hstep
        cases L <;> simp only [Option.some.injEq, Prod.mk.injEq] at hstep <;> exact .inl (hstep.2 ▸ rfl)
  | spurious t =>
    rcases hin with hp | ⟨ticket, hp⟩ <;> dsimp only [Action.thread] at hp
    · cases L <;> simp [step, hp] at hstep
    · cases L with
      | java => simp [step] at hstep
      | cpp =>
        simp only [step, hp, Option.some.injEq, Prod.mk.injEq] at hstep
        exact .inl (hstep.2 ▸ rfl)

/-- In every run, the lock is as the events say. -/
theorem run_related {s : State τ L.idBits} {es : List (OwnerEvent τ)}
    (h : (lockMachine τ L tests).system.Run es s) (hes : (issued es).length < 2 ^ L.idBits) :
    ∃ a, (OwnerLock.system τ).Run es a ∧ Related s a := by
  refine h.simulate (S := (lockMachine τ L tests).system)
    (P := fun es => (issued es).length < 2 ^ L.idBits) (fun es fs hlt => ?_) Related ?_ ?_ hes
  · rw [issued_append, List.length_append] at hlt
    omega
  · exact ⟨ThreadId.issued_initial, fun _ => rfl, fun _ ht => (by cases ht), fun _ _ ht => (by cases ht)⟩
  · rintro es s a l s' hlt ha hrel ⟨x, hstep⟩
    refine hrel.turn (fun t hl => ?_) hstep
    subst hl
    rw [OwnerLock.run_issued ha]
    simpa [issued_append, issued, OwnerEvent.issued?] using hlt

theorem ownershipSafe (L : Lang) (tests : Bool) : OwnershipSafe (lockMachine τ L tests) where
  free := fun es s hrun hes => by
    obtain ⟨a, ha, h⟩ := run_related hrun hes
    simp only [h.free_iff, OwnerLock.run_holds ha, Option.eq_none_iff_forall_ne_some]
  held := fun es s hrun hes hturn => by
    obtain ⟨a, ha, h⟩ := run_related hrun hes
    obtain ⟨t, ht⟩ := Option.ne_none_iff_exists'.mp fun ho => hturn (h.free ho)
    refine ⟨t, (h.held t ht).1, fun u => ?_⟩
    rw [OwnerLock.run_holds ha, ht, Option.some.injEq, eq_comm]
  unlock := fun es s x l s' hrun hstep hes hin hholds => by
    rw [issued_append, List.length_append] at hes
    obtain ⟨a, ha, h⟩ := run_related hrun (Nat.lt_of_le_of_lt (Nat.le_add_right ..) hes)
    refine (step_unlock hin hstep).resolve_right fun hp => hholds ?_
    obtain ⟨hturn, hne⟩ := h.ticket x.thread s.turn (by rw [hp]; rfl)
    exact (OwnerLock.run_holds ha _).mpr (h.holder_eq hne hturn)

end Locks.IdLock

namespace Locks.TIdLock
open Concurrent

def machine (τ : Type*) [DecidableEq τ] (L : Lang) :
    Machine (IdLock.State τ L.idBits) (IdLock.Action τ) (OwnerEvent τ) :=
  IdLock.lockMachine τ L true

end Locks.TIdLock

namespace Locks.IdLock

/-- **Both locks are safe for their owner in both suites**, whatever their threads call. -/
theorem idLocks_ownershipSafe (τ : Type*) [DecidableEq τ] (L : Lang) :
    OwnershipSafe (machine τ L) ∧ OwnershipSafe (TIdLock.machine τ L) :=
  ⟨ownershipSafe L false, ownershipSafe L true⟩

end Locks.IdLock

end ParSweet
