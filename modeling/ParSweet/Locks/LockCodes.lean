import ParSweet.Concurrent.LockCode
import ParSweet.Locks.ALock
import ParSweet.Locks.CLHLock
import ParSweet.Locks.FlagLock
import ParSweet.Locks.IdLock
import ParSweet.Locks.Progress

/-! The locks of the suites as mutexes of something else.

Each of the ten lets in one thread at a time, of threads that lock and unlock in turn: what
stands under a client's mutexes may be any of them (`suiteLocks_exclude`). The ids of the
threads are given here, because they belong to the threads and not to the one lock. -/
namespace ParSweet.Locks.FlagLock
open Concurrent

/-! ### One flag -/

/-- Where a thread stands. -/
inductive Stand (ρ : Type*) where
  /-- Outside. Next it calls `lock()`. -/
  | idle
  /-- In `lock()`. -/
  | lock (p : ρ)
  /-- `lock()` has returned. Next it calls `unlock()`, which is `aBool.store(false)`. -/
  | critical

def Stand.phase {ρ : Type*} : Stand ρ → Phase
  | .idle => .outside
  | .lock _ => .locking
  | .critical => .inside

structure Flag (τ ρ : Type*) where
  aBool : Bool
  pc : τ → Stand ρ

variable {τ ρ : Type*} [DecidableEq τ]

def Flag.goto (s : Flag τ ρ) (t : τ) (pc : Stand ρ) : Flag τ ρ := {s with pc := Function.update s.pc t pc}

/-- The next atomic step of a thread that locks and unlocks in turn. -/
def turn (A : Acquire ρ) (s : Flag τ ρ) (a : Action τ) : Option (Option Empty × Flag τ ρ) :=
  let t := a.t
  match s.pc t with
  | .idle => some (none, s.goto t (.lock A.start))
  | .lock p =>
    match A.op p with
    | .load next => some (none, s.goto t (.lock (next s.aBool)))
    | .exchange again =>
      if s.aBool then some (none, s.goto t (.lock again))
      else some (none, {s with aBool := true}.goto t .critical)
    | .pause next => (next a.choice).map fun p => (none, s.goto t (.lock p))
  | .critical => some (none, {s with aBool := false}.goto t .idle)

/-- The lock with the loop `A`. -/
def lockCode (τ : Type*) [DecidableEq τ] (A : Acquire ρ) : LockCode τ (Flag τ ρ) (Action τ) Empty where
  machine := ⟨⟨false, fun _ => .idle⟩, turn A⟩
  thread := Action.t
  phase := fun s t => (s.pc t).phase

variable {A : Acquire ρ} {s s' : Flag τ ρ} {a : Action τ} {l : Option Empty}

/-- What a step of `t` leads to. -/
inductive Turned (A : Acquire ρ) (s : Flag τ ρ) (t : τ) : Flag τ ρ → Prop where
  | begin : s.pc t = .idle → Turned A s t (s.goto t (.lock A.start))
  | again {p q} : s.pc t = .lock p → Turned A s t (s.goto t (.lock q))
  | take {p} : s.pc t = .lock p → s.aBool = false → Turned A s t ({s with aBool := true}.goto t .critical)
  | unlock : s.pc t = .critical → Turned A s t ({s with aBool := false}.goto t .idle)

theorem turn_cases (h : turn A s a = some (l, s')) : Turned A s a.t s' := by
  unfold turn at h
  cases hp : s.pc a.t with
  | idle =>
    simp only [hp, Option.some.injEq, Prod.mk.injEq] at h
    exact h.2 ▸ .begin hp
  | critical =>
    simp only [hp, Option.some.injEq, Prod.mk.injEq] at h
    exact h.2 ▸ .unlock hp
  | lock p =>
    simp only [hp] at h
    cases hop : A.op p with
    | load next =>
      simp only [hop, Option.some.injEq, Prod.mk.injEq] at h
      exact h.2 ▸ .again hp
    | exchange again =>
      simp only [hop] at h
      split at h
      · simp only [Option.some.injEq, Prod.mk.injEq] at h
        exact h.2 ▸ .again hp
      · next hflag =>
        simp only [Option.some.injEq, Prod.mk.injEq] at h
        exact h.2 ▸ .take hp (Bool.of_not_eq_true hflag)
    | pause next =>
      simp only [hop, Option.map_eq_some_iff, Prod.mk.injEq] at h
      obtain ⟨q, _, _, rfl⟩ := h
      exact .again hp

/-- While a thread is inside, the flag is up and nobody else is. -/
def Guarded (s : Flag τ ρ) : Prop := ∀ t, s.pc t = .critical → s.aBool = true ∧ ∀ u, s.pc u = .critical → u = t

theorem Flag.goto_pc (s : Flag τ ρ) (t u : τ) (pc : Stand ρ) :
    (s.goto t pc).pc u = if u = t then pc else s.pc u := Function.update_apply ..

theorem Guarded.turned {t : τ} (h : Guarded s) (hturn : Turned A s t s') : Guarded s' := by
  intro u hu
  cases hturn with
  | begin hp | again hp =>
    rw [Flag.goto_pc] at hu
    split at hu
    · cases hu
    · refine ⟨(h u hu).1, fun v hv => (h u hu).2 v ?_⟩
      rw [Flag.goto_pc] at hv
      split at hv
      · cases hv
      · exact hv
  | take hp hflag =>
    have hnone : ∀ v, s.pc v ≠ .critical := fun v hv => by
      have := (h v hv).1
      rw [hflag] at this
      cases this
    have honly : ∀ v, ({s with aBool := true}.goto t .critical).pc v = .critical → v = t := by
      intro v hv
      rw [Flag.goto_pc] at hv
      split at hv
      · assumption
      · exact absurd hv (hnone v)
    exact ⟨rfl, fun v hv => (honly v hv).trans (honly u hu).symm⟩
  | unlock hp =>
    rw [Flag.goto_pc] at hu
    split at hu
    · cases hu
    · next hut => exact absurd ((h t hp).2 u hu) hut

theorem Turned.leads {t : τ} (hturn : Turned A s t s') :
    ∃ p, s'.pc = Function.update s.pc t p ∧ (s.pc t).phase.Leads p.phase := by
  cases hturn with
  | begin hp => exact ⟨_, rfl, by rw [hp]; exact .inl rfl⟩
  | again hp => exact ⟨_, rfl, by rw [hp]; exact .inl rfl⟩
  | take hp _ => exact ⟨_, rfl, by rw [hp]; exact .inr rfl⟩
  | unlock hp => exact ⟨_, rfl, by rw [hp]; exact .inr (.inr rfl)⟩

theorem Stand.eq_critical {x : Stand ρ} (h : x.phase = .inside) : x = .critical := by
  cases x <;> first | rfl | cases h

theorem excludes (A : Acquire ρ) : (lockCode τ A).Excludes := by
  refine .of_pc Flag.pc Stand.phase (fun _ _ => rfl) (fun _ => rfl) (fun _ _ _ _ _ h => (turn_cases h).leads) ?_
  intro s hs t u ht hu
  have hinv : Guarded s := hs.invariant (S := (lockCode τ A).machine.system) (I := Guarded) (fun t ht => by cases ht)
    fun s l s' hs ⟨a, ha⟩ => hs.turned (turn_cases ha)
  exact (hinv u (Stand.eq_critical hu)).2 t (Stand.eq_critical ht)

end ParSweet.Locks.FlagLock

namespace ParSweet.Locks.IdLock
open Concurrent

/-! ### The id of the holder -/

variable {τ : Type*} [DecidableEq τ] {w : ℕ}

/-- The next atomic step of a thread that locks and unlocks in turn; the flag is set where an
exchange fails for no reason. -/
def turn (L : Lang) (tests : Bool) (s : State τ w) (a : τ × Bool) : Option (Option (OwnerEvent τ) × State τ w) :=
  match s.pc a.1 with
  | .idle => step L tests s (.call a.1 (if s.turn = s.ids.id a.1 then .unlock else .lock))
  | _ => step L tests s (if a.2 then .spurious a.1 else .turn a.1)

/-- Where a thread stands; it holds the lock if `turn` is its id. -/
def Pc.phase (holds : Prop) [Decidable holds] : Pc w → Phase
  | .idle => if holds then .inside else .outside
  | .getId .lock | .test _ | .take _ => .locking
  | .getId .unlock | .giveBack _ => if holds then .inside else .unlocking

/-- The lock of threads that have their ids. -/
def lockCode (L : Lang) (tests : Bool) (ids : ThreadId τ L.idBits) :
    LockCode τ (State τ L.idBits) (τ × Bool) (OwnerEvent τ) where
  machine := ⟨⟨ids, 0, fun _ => .idle⟩, turn L tests⟩
  thread := Prod.fst
  phase := fun s t => (s.pc t).phase (s.turn = s.ids.id t)

/-- Every thread has an id of its own. -/
structure OwnIds (ids : ThreadId τ w) : Prop where
  ne_zero : ∀ t, ids.id t ≠ 0
  injective : Function.Injective ids.id

/-- Every ticket at hand is the thread's own id. -/
structure Ticketed (ids : ThreadId τ w) (s : State τ w) : Prop where
  same : s.ids = ids
  ticket : ∀ t k, (s.pc t).ticket? = some k → k = ids.id t

variable {L : Lang} {tests : Bool} {ids : ThreadId τ w} {s s' : State τ w} {t u : τ} {a : τ × Bool}
  {l : Option (OwnerEvent τ)}

/-- What a step of `t` leads to. -/
inductive Turned (ids : ThreadId τ w) (s : State τ w) (t : τ) : State τ w → Prop where
  | call : s.pc t = .idle → Turned ids s t (s.goto t (.getId (if s.turn = ids.id t then .unlock else .lock)))
  /-- In `lock()`. -/
  | again {pc} : (∀ h [Decidable h], (s.pc t).phase h = .locking) → (∀ h [Decidable h], pc.phase h = .locking) →
      (∀ k, pc.ticket? = some k → k = ids.id t) → Turned ids s t (s.goto t pc)
  | take : (∀ h [Decidable h], (s.pc t).phase h = .locking) → s.turn = 0 →
      Turned ids s t ({s with turn := ids.id t}.goto t .idle)
  /-- In `unlock()`. -/
  | getId : s.pc t = .getId .unlock → Turned ids s t (s.goto t (.giveBack (ids.id t)))
  | giveBack {k} : s.pc t = .giveBack k → s.turn = ids.id t → Turned ids s t ({s with turn := 0}.goto t .idle)
  /-- The exchange has failed. -/
  | stay {k} : s.pc t = .giveBack k → Turned ids s t s
  | leave {k} : s.pc t = .giveBack k → s.turn ≠ ids.id t → Turned ids s t (s.goto t .idle)

omit [DecidableEq τ] in
theorem phase_again (ticket : BitVec w) (h : Prop) [Decidable h] : (again tests ticket).phase h = .locking := by
  cases tests <;> rfl

theorem turn_cases (hids : OwnIds ids) (h : Ticketed ids s) (hturn : turn L tests s a = some (l, s')) :
    Turned ids s a.1 s' := by
  obtain ⟨t, spurious⟩ := a
  have hget : s.ids.get t = s.ids := ThreadId.get_of_ne_zero (h.same ▸ hids.ne_zero t)
  have hagain : ∀ k, (again tests (ids.id t)).ticket? = some k → k = ids.id t := fun k hk => by
    rw [ticket?_again, Option.some.injEq] at hk
    exact hk.symm
  cases hp : s.pc t with
  | idle =>
    simp only [turn, hp, step, if_true, Option.some.injEq, Prod.mk.injEq] at hturn
    obtain ⟨_, rfl⟩ := hturn
    rw [h.same]
    exact .call hp
  | getId m =>
    cases spurious with
    | true => cases L <;> simp [turn, hp, step] at hturn
    | false =>
      simp only [turn, hp, step, hget, Bool.false_eq_true, if_false, Option.some.injEq, Prod.mk.injEq] at hturn
      obtain ⟨_, rfl⟩ := hturn
      rw [show s.ids.id t = ids.id t by rw [h.same]]
      cases m with
      | lock => exact .again (fun _ _ => by rw [hp]; rfl) (fun _ _ => phase_again _ _) hagain
      | unlock => exact .getId hp
  | test k =>
    cases spurious with
    | true => cases L <;> simp [turn, hp, step] at hturn
    | false =>
      obtain rfl := h.ticket t k (by rw [hp]; rfl)
      simp only [turn, hp, step, Bool.false_eq_true, if_false, Option.some.injEq, Prod.mk.injEq] at hturn
      obtain ⟨_, rfl⟩ := hturn
      refine .again (fun _ _ => by rw [hp]; rfl) (fun _ _ => ?_) fun k hk => ?_
      · split <;> rfl
      · split at hk <;> exact (Option.some.inj hk).symm
  | take k =>
    obtain rfl := h.ticket t k (by rw [hp]; rfl)
    have hlocking : ∀ h [Decidable h], (s.pc t).phase h = .locking := fun _ _ => by rw [hp]; rfl
    cases spurious with
    | true =>
      cases L with
      | java => simp [turn, hp, step] at hturn
      | cpp =>
        simp only [turn, hp, step, if_true, Option.some.injEq, Prod.mk.injEq] at hturn
        obtain ⟨_, rfl⟩ := hturn
        exact .again hlocking (fun _ _ => phase_again _ _) hagain
    | false =>
      simp only [turn, hp, step, Bool.false_eq_true, if_false] at hturn
      split at hturn
      · next hfree =>
        simp only [Option.some.injEq, Prod.mk.injEq] at hturn
        obtain ⟨_, rfl⟩ := hturn
        exact .take hlocking hfree
      · simp only [Option.some.injEq, Prod.mk.injEq] at hturn
        obtain ⟨_, rfl⟩ := hturn
        exact .again hlocking (fun _ _ => phase_again _ _) hagain
  | giveBack k =>
    obtain rfl := h.ticket t k (by rw [hp]; rfl)
    cases spurious with
    | true =>
      cases L with
      | java => simp [turn, hp, step] at hturn
      | cpp =>
        simp only [turn, hp, step, if_true, Option.some.injEq, Prod.mk.injEq] at hturn
        obtain ⟨_, rfl⟩ := hturn
        exact .stay hp
    | false =>
      simp only [turn, hp, step, Bool.false_eq_true, if_false] at hturn
      split at hturn
      · next hheld =>
        simp only [Option.some.injEq, Prod.mk.injEq] at hturn
        obtain ⟨_, rfl⟩ := hturn
        exact .giveBack hp hheld
      · next hheld =>
        cases L with
        | cpp =>
          simp only [Option.some.injEq, Prod.mk.injEq] at hturn
          obtain ⟨_, rfl⟩ := hturn
          exact .stay hp
        | java =>
          simp only [Option.some.injEq, Prod.mk.injEq] at hturn
          obtain ⟨_, rfl⟩ := hturn
          exact .leave hp hheld

theorem State.goto_pc (s : State τ w) (t u : τ) (pc : Pc w) :
    (s.goto t pc).pc u = if u = t then pc else s.pc u := Function.update_apply ..

theorem Ticketed.goto (h : Ticketed ids s) {pc : Pc w} (hpc : ∀ k, pc.ticket? = some k → k = ids.id t) (v : BitVec w) :
    Ticketed ids ({s with turn := v}.goto t pc) where
  same := h.same
  ticket := fun u k hk => by
    rw [State.goto_pc] at hk
    split at hk
    · next hu => exact hu ▸ hpc k hk
    · exact h.ticket u k hk

theorem Ticketed.turned (h : Ticketed ids s) (hturn : Turned ids s t s') : Ticketed ids s' := by
  cases hturn with
  | call _ => exact h.goto (fun k hk => by cases hk) s.turn
  | again _ _ hpc => exact h.goto hpc s.turn
  | take _ _ => exact h.goto (fun k hk => by cases hk) (ids.id t)
  | getId _ =>
    have hown : ∀ k, (Pc.giveBack (ids.id t)).ticket? = some k → k = ids.id t := fun k hk => (Option.some.inj hk).symm
    exact h.goto hown s.turn
  | giveBack _ _ => exact h.goto (fun k hk => by cases hk) 0
  | stay _ => exact h
  | leave _ _ => exact h.goto (fun k hk => by cases hk) s.turn

/-- A thread goes its way through `lock()` and `unlock()`. -/
theorem Turned.leads (hids : OwnIds ids) (h : Turned ids s t s') :
    ((s.pc t).phase (s.turn = ids.id t)).Leads ((s'.pc t).phase (s'.turn = ids.id t)) := by
  cases h with
  | call hp =>
    rw [hp, State.goto_pc, if_pos rfl]
    by_cases hheld : s.turn = ids.id t
    · simp [Pc.phase, Phase.Leads, State.goto, hheld]
    · simp [Pc.phase, Phase.Leads, hheld]
  | again hp hpc _ =>
    rw [hp, State.goto_pc, if_pos rfl, hpc]
    exact .inl rfl
  | take hp _ =>
    rw [hp, State.goto_pc, if_pos rfl]
    exact .inr (if_pos rfl)
  | getId hp =>
    rw [hp, State.goto_pc, if_pos rfl]
    show Phase.Leads (if s.turn = ids.id t then .inside else .unlocking) (if s.turn = ids.id t then .inside else .unlocking)
    split <;> exact .inl rfl
  | giveBack hp hheld =>
    rw [hp, State.goto_pc, if_pos rfl]
    show Phase.Leads (if s.turn = ids.id t then .inside else .unlocking) (if 0 = ids.id t then .inside else .outside)
    rw [if_pos hheld, if_neg (hids.ne_zero t).symm]
    exact .inr (.inr rfl)
  | stay hp =>
    rw [hp]
    show Phase.Leads (if s.turn = ids.id t then .inside else .unlocking) (if s.turn = ids.id t then .inside else .unlocking)
    split <;> exact .inl rfl
  | leave hp hheld =>
    rw [hp, State.goto_pc, if_pos rfl]
    show Phase.Leads (if s.turn = ids.id t then .inside else .unlocking) (if s.turn = ids.id t then .inside else .outside)
    rw [if_neg hheld, if_neg hheld]
    exact .inr rfl

/-- Where the others stand does not change. -/
theorem Turned.others (hids : OwnIds ids) (h : Turned ids s t s') (hu : u ≠ t) :
    s'.pc u = s.pc u ∧ (s'.turn = ids.id u ↔ s.turn = ids.id u) := by
  cases h with
  | call _ | again _ _ _ | getId _ | leave _ _ => exact ⟨by rw [State.goto_pc, if_neg hu], Iff.rfl⟩
  | take _ hfree =>
    refine ⟨by rw [State.goto_pc, if_neg hu], iff_of_false (fun he => hu (hids.injective he).symm) fun he => ?_⟩
    exact hids.ne_zero u (he.symm.trans hfree)
  | giveBack _ hheld =>
    refine ⟨by rw [State.goto_pc, if_neg hu], iff_of_false (fun he => hids.ne_zero u he.symm) fun he => ?_⟩
    exact hu (hids.injective (he.symm.trans hheld))
  | stay _ => exact ⟨rfl, Iff.rfl⟩

omit [DecidableEq τ] in
/-- Whoever is inside has its id in `turn`. -/
theorem holds_of_inside {pc : Pc w} {holds : Prop} [Decidable holds] (h : pc.phase holds = .inside) : holds := by
  by_contra hnot
  cases pc with
  | idle | giveBack _ => simp [Pc.phase, hnot] at h
  | getId m => cases m <;> simp [Pc.phase, hnot] at h
  | test _ | take _ => cases h

theorem excludes {ids : ThreadId τ L.idBits} (hids : OwnIds ids) : (lockCode L tests ids).Excludes := by
  have hticketed : ∀ s, (lockCode L tests ids).machine.system.Reachable s → Ticketed ids s := by
    intro s hs
    refine hs.invariant (S := (lockCode L tests ids).machine.system) (I := Ticketed ids) ⟨rfl, fun t k hk => by cases hk⟩ ?_
    intro s l s' h ⟨a, hnext⟩
    exact h.turned (turn_cases hids h hnext)
  refine ⟨fun t => ?_, fun s a l s' hs hnext => ?_, fun s a l s' u hs hnext hu => ?_, fun s hs t u ht hu => ?_⟩
  · exact if_neg (hids.ne_zero t).symm
  · have h := hticketed s hs
    have hturn := turn_cases hids h hnext
    have hleads := hturn.leads hids
    show ((s.pc a.1).phase (s.turn = s.ids.id a.1)).Leads ((s'.pc a.1).phase (s'.turn = s'.ids.id a.1))
    simpa only [h.same, (h.turned hturn).same] using hleads
  · have h := hticketed s hs
    have hturn := turn_cases hids h hnext
    obtain ⟨hpc, hheld⟩ := hturn.others hids hu
    show (s'.pc u).phase (s'.turn = s'.ids.id u) = (s.pc u).phase (s.turn = s.ids.id u)
    simp only [h.same, (h.turned hturn).same, hpc, hheld]
  · have h := hticketed s hs
    refine hids.injective ?_
    rw [← h.same]
    exact (holds_of_inside ht).symm.trans (holds_of_inside hu)

end ParSweet.Locks.IdLock

namespace ParSweet.Locks.ALock
open Concurrent

/-! ### Slots with flags -/

variable {τ : Type*} [DecidableEq τ] {N : ℕ} {threadId : τ → ℕ} {s s' : State τ} {t : τ} {l : Option (LockEvent τ)}

def Pc.phase : Pc → Phase
  | .idle => .outside
  | .setSlot _ _ | .spin _ | .clear _ => .locking
  | .critical => .inside
  | .getSlot _ | .raise _ => .unlocking

/-- The lock, called fewer than `2 ^ 64` times. -/
def lockCode (ThreadCount : ℕ) (threadId : τ → ℕ) :
    LockCode τ (State τ × List (LockEvent τ)) τ (LockEvent τ) where
  machine := (machine ThreadCount threadId).below (2 ^ 64)
  thread := id
  phase := fun s t => (s.1.pc t).phase

theorem step_leads (h : step N threadId s t = some (l, s')) :
    ∃ p, s'.pc = Function.update s.pc t p ∧ (s.pc t).phase.Leads p.phase := by
  unfold step at h
  cases hp : s.pc t with
  | idle =>
    simp only [hp, Option.some.injEq, Prod.mk.injEq] at h
    obtain ⟨_, rfl⟩ := h
    exact ⟨_, rfl, .inl rfl⟩
  | setSlot slot put =>
    cases put <;> simp only [hp, ThreadLocal.Put.step, Option.some.injEq, Prod.mk.injEq] at h <;>
      obtain ⟨_, rfl⟩ := h <;> exact ⟨_, rfl, .inl rfl⟩
  | spin slot =>
    simp only [hp] at h
    split at h <;> simp only [Option.some.injEq, Prod.mk.injEq] at h <;> obtain ⟨_, rfl⟩ := h
    · exact ⟨_, rfl, .inl rfl⟩
    · exact ⟨.spin slot, by rw [← hp, Function.update_eq_self], .inl rfl⟩
  | clear slot =>
    simp only [hp, Option.some.injEq, Prod.mk.injEq] at h
    obtain ⟨_, rfl⟩ := h
    exact ⟨_, rfl, .inr rfl⟩
  | critical =>
    simp only [hp, Option.some.injEq, Prod.mk.injEq] at h
    obtain ⟨_, rfl⟩ := h
    exact ⟨_, rfl, .inr (.inl rfl)⟩
  | getSlot g =>
    simp only [hp] at h
    split at h <;> simp only [Option.some.injEq, Prod.mk.injEq] at h <;> obtain ⟨_, rfl⟩ := h
    · exact ⟨_, rfl, .inl rfl⟩
    · exact ⟨_, rfl, .inl rfl⟩
  | raise slot =>
    simp only [hp, Option.some.injEq, Prod.mk.injEq] at h
    obtain ⟨_, rfl⟩ := h
    exact ⟨_, rfl, .inr rfl⟩

theorem Pc.eq_critical {p : Pc} (h : p.phase = .inside) : p = .critical := by
  cases p <;> first | rfl | cases h

theorem excludes (hN : 1 ≤ N) (hids : ∀ t u, threadId t % N = threadId u % N → t = u) :
    (lockCode N threadId).Excludes := by
  refine .of_pc (fun s => s.1.pc) Pc.phase (fun _ _ => rfl) (fun _ => rfl) ?_ ?_
  · intro s t l s' _ h
    exact step_leads (Machine.below_next h).1
  · intro s hs t u ht hu
    obtain ⟨hrun, hcalls⟩ := Machine.below_run (by decide) hs
    exact (excludesInOrderBelow hN hids s.2 s.1 hrun hcalls).1 t u (Pc.eq_critical ht) (Pc.eq_critical hu)

end ParSweet.Locks.ALock

namespace ParSweet.Locks.CLHLock
open Concurrent

/-! ### A queue of nodes, in the C++ suite -/

variable {τ : Type*} [DecidableEq τ] {MaxThreads : ℕ} {ids : τ → ℕ} {s s' : State τ} {t u : τ}
  {l : Option (LockEvent τ)}

def Pc.phase : Pc → Phase
  | .idle | .fault => .outside
  | .isSet | .allocate | .setNode _ _ | .getNode _ | .raise _ | .swap _ | .setPredecessor _ _ | .spin _ => .locking
  | .critical | .getOwn _ | .lower _ => .inside
  | .getPredecessor _ | .adopt _ _ | .forget _ => .unlocking

def phaseOf : Option Thread → Phase
  | some b => b.pc.phase
  | none => .outside

/-- The lock of threads that live all the time and have their ids. -/
def lockCode (MaxThreads : ℕ) (ids : τ → ℕ) : LockCode τ (State τ) τ (LockEvent τ) where
  machine :=
    { initial := {(machine τ MaxThreads).initial with thread := fun t => some ⟨ids t, .idle⟩}
      next := fun s t => next MaxThreads s (.turn t) }
  thread := id
  phase := fun s t => phaseOf (s.thread t)

/-- What a step of a thread with an id leads to. -/
theorem turn_leads {id : ℕ} {pc : Pc} (hid : id ≠ 0) (hb : s.thread t = some ⟨id, pc⟩)
    (h : turn MaxThreads s t id pc = some (l, s')) :
    ∃ p, s'.thread = Function.update s.thread t (some ⟨id, p⟩) ∧ (p ≠ .fault → pc.phase.Leads p.phase) := by
  cases pc with
  | idle =>
    simp only [turn, if_neg hid, Option.some.injEq, Prod.mk.injEq] at h
    obtain ⟨_, rfl⟩ := h
    exact ⟨_, rfl, fun _ => .inl rfl⟩
  | isSet =>
    simp only [turn, Option.some.injEq, Prod.mk.injEq] at h
    obtain ⟨_, rfl⟩ := h
    refine ⟨_, rfl, fun _ => ?_⟩
    split <;> exact .inl rfl
  | allocate | raise _ | swap _ =>
    simp only [turn, Option.some.injEq, Prod.mk.injEq] at h
    obtain ⟨_, rfl⟩ := h
    exact ⟨_, rfl, fun _ => .inl rfl⟩
  | setNode _ put | setPredecessor _ put | adopt _ put | forget put =>
    cases put <;> simp only [turn, ThreadLocal.Put.step, Option.some.injEq, Prod.mk.injEq] at h <;>
      obtain ⟨_, rfl⟩ := h <;> first | exact ⟨_, rfl, fun _ => .inl rfl⟩ | exact ⟨_, rfl, fun _ => .inr rfl⟩
  | getNode g | getOwn g | getPredecessor g =>
    simp only [turn] at h
    split at h <;> simp only [Option.some.injEq, Prod.mk.injEq] at h <;> obtain ⟨_, rfl⟩ := h <;>
      first | exact ⟨_, rfl, fun _ => .inl rfl⟩ | exact ⟨_, rfl, fun hp => absurd rfl hp⟩
  | spin predecessor =>
    simp only [turn] at h
    split at h <;> simp only [Option.some.injEq, Prod.mk.injEq] at h <;> obtain ⟨_, rfl⟩ := h
    · exact ⟨.spin predecessor, by rw [← hb, Function.update_eq_self], fun _ => .inl rfl⟩
    · exact ⟨_, rfl, fun _ => .inr rfl⟩
  | critical =>
    simp only [turn, Option.some.injEq, Prod.mk.injEq] at h
    obtain ⟨_, rfl⟩ := h
    exact ⟨_, rfl, fun _ => .inl rfl⟩
  | lower _ =>
    simp only [turn, Option.some.injEq, Prod.mk.injEq] at h
    obtain ⟨_, rfl⟩ := h
    exact ⟨_, rfl, fun _ => .inr (.inl rfl)⟩
  | fault => cases h

/-- The threads have their ids, and the lock is the queue of their slots. -/
structure Queued (MaxThreads : ℕ) (ids : τ → ℕ) (s : State τ) : Prop where
  alive : ∀ t, ∃ pc, s.thread t = some ⟨ids t, pc⟩
  queue : ∃ a, (ClhQueue.system ℕ (0 : QNode)).Reachable a ∧ Related MaxThreads s a

omit [DecidableEq τ] in
theorem slotsDistinct (hids : ∀ t u, ids t % MaxThreads = ids u % MaxThreads → t = u)
    (halive : ∀ t, ∃ pc, s.thread t = some ⟨ids t, pc⟩) (hne : ∀ t, ids t ≠ 0) : SlotsDistinct MaxThreads s := by
  intro t u _ h
  obtain ⟨p, hp⟩ := halive t
  obtain ⟨q, hq⟩ := halive u
  simp only [State.getIdx, hp, hq, if_neg (hne t), if_neg (hne u), Option.some.injEq] at h
  exact hids t u h

theorem queued_initial : Queued MaxThreads ids (lockCode MaxThreads ids).machine.initial where
  alive := fun _ => ⟨.idle, rfl⟩
  queue := by
    refine ⟨_, ⟨[], .refl⟩, rfl, rfl, (@initial_related τ _ MaxThreads).unused,
      fun t b hb _ => ?_, fun t b hb _ => ?_, fun _ _ => .inl ⟨rfl, rfl⟩⟩
    · obtain rfl := Option.some.inj hb
      exact .inl ⟨rfl, rfl⟩
    · obtain rfl := Option.some.inj hb
      exact .inl rfl

section Ids
variable (hne : ∀ t, ids t ≠ 0) (hids : ∀ t u, ids t % MaxThreads = ids u % MaxThreads → t = u)
include hne hids

theorem Queued.turn (h : Queued MaxThreads ids s) (hnext : next MaxThreads s (.turn t) = some (l, s')) :
    ∃ pc p, s.thread t = some ⟨ids t, pc⟩ ∧ s'.thread = Function.update s.thread t (some ⟨ids t, p⟩) ∧
      pc.phase.Leads p.phase ∧ Queued MaxThreads ids s' := by
  obtain ⟨pc, hb⟩ := h.alive t
  have hturn : CLHLock.turn MaxThreads s t (ids t) pc = some (l, s') := by
    rw [← hnext, next, hb]
  obtain ⟨p, hthread, hleads⟩ := turn_leads (hne t) hb hturn
  have halive : ∀ u, ∃ pc, s'.thread u = some ⟨ids u, pc⟩ := by
    intro u
    rw [hthread]
    by_cases hu : u = t
    · subst hu
      exact ⟨p, Function.update_self ..⟩
    · rw [Function.update_of_ne hu]
      exact h.alive u
  obtain ⟨a, ha, hrel⟩ := h.queue
  obtain ⟨b, hpath, hrel'⟩ := hrel.turn hb hturn (slotsDistinct hids halive hne)
  have hfault : p ≠ .fault := by
    intro hp
    have hat := hrel'.thread t ⟨ids t, p⟩ (by rw [hthread, Function.update_self]) (hne t)
    rw [hp] at hat
    exact hat
  exact ⟨pc, p, hb, hthread, hleads hfault, halive, b, ha.path hpath, hrel'⟩

theorem excludes : (lockCode MaxThreads ids).Excludes := by
  have hqueued : ∀ s, (lockCode MaxThreads ids).machine.system.Reachable s → Queued MaxThreads ids s := by
    intro s hs
    refine hs.invariant (S := (lockCode MaxThreads ids).machine.system) (I := Queued MaxThreads ids)
      queued_initial ?_
    intro s l s' h ⟨t, hnext⟩
    obtain ⟨_, _, _, _, _, h'⟩ := h.turn hne hids hnext
    exact h'
  refine .of_pc State.thread phaseOf (fun _ _ => rfl) (fun _ => rfl) ?_ ?_
  · intro s t l s' hs hnext
    obtain ⟨pc, p, hb, hthread, hleads, _⟩ := (hqueued s hs).turn hne hids hnext
    refine ⟨_, hthread, ?_⟩
    show (phaseOf (s.thread t)).Leads p.phase
    rw [hb]
    exact hleads
  · intro s hs t u ht hu
    obtain ⟨a, ha, hrel⟩ := (hqueued s hs).queue
    have hinside : ∀ t, phaseOf (s.thread t) = .inside → ∃ q n, a.phase (ids t % MaxThreads) = .inside q n := by
      intro t ht
      obtain ⟨pc, hb⟩ := (hqueued s hs).alive t
      have hat := hrel.thread t _ hb (hne t)
      rw [hb] at ht
      cases pc with
      | critical =>
        obtain ⟨q, n, _, _, hx⟩ := hat
        exact ⟨q, n, hx⟩
      | getOwn g =>
        obtain ⟨_, q, n, _, _, hx⟩ := hat
        exact ⟨q, n, hx⟩
      | lower q =>
        obtain ⟨n, _, hx⟩ := hat
        exact ⟨q, n, hx⟩
      | _ => cases ht
    obtain ⟨q, n, hx⟩ := hinside t ht
    obtain ⟨k, m, hy⟩ := hinside u hu
    exact hids t u (ClhQueue.inside_unique ha hx hy)

end Ids

end ParSweet.Locks.CLHLock

namespace ParSweet.Locks
open Concurrent

/-! ### The suite -/

variable {τ : Type*} {N_THREADS_ALLOC : ℕ} {ids : ThreadId τ 64}

/-- The threads have ids, and every thread a slot of its own. -/
structure OwnSlots (N_THREADS_ALLOC : ℕ) (ids : ThreadId τ 64) : Prop where
  alloc_pos : 1 ≤ N_THREADS_ALLOC
  ne_zero : ∀ t, ids.id t ≠ 0
  slots : ∀ t u, (ids.id t).toNat % N_THREADS_ALLOC = (ids.id u).toNat % N_THREADS_ALLOC → t = u

theorem OwnSlots.injective (h : OwnSlots N_THREADS_ALLOC ids) : Function.Injective ids.id := fun t u he =>
  h.slots t u (by rw [he])

theorem OwnSlots.ownIds (h : OwnSlots N_THREADS_ALLOC ids) : IdLock.OwnIds ids := ⟨h.ne_zero, h.injective⟩

theorem OwnSlots.toFin_injective (h : OwnSlots N_THREADS_ALLOC ids) : Function.Injective fun t => (ids.id t).toFin :=
  fun _ _ he => h.injective (BitVec.toFin_inj.mp he)

variable [DecidableEq τ]

/-- The code of `MCSLock`, whose slots are those of `ThreadLocal`. -/
def MCSLock.lockCode (MaxThreads : ℕ) (ids : τ → ℕ) : LockCode τ (MCSLock.State τ ℕ) τ (LockEvent τ) :=
  (MCSLock.code τ ℕ).lockCode (MCSLock.machine .cpp fun t => ids t % MaxThreads)

def TwoCounterLock.lockCode (τ : Type*) [DecidableEq τ] : LockCode τ (TwoCounterLock.State τ 64) τ (LockEvent τ) :=
  (TwoCounterLock.code τ 64).lockCode (TwoCounterLock.machine τ 64)

/-- **Every lock of the C++ suite excludes**; `OptimizedALock` is `ALock`. -/
theorem suiteLocks_exclude (h : OwnSlots N_THREADS_ALLOC ids) :
    (ALock.lockCode N_THREADS_ALLOC fun t => (ids.id t).toNat).Excludes ∧
      (FlagLock.lockCode τ (BackoffLock.lock 1 17)).Excludes ∧
      (CLHLock.lockCode N_THREADS_ALLOC fun t => (ids.id t).toNat).Excludes ∧
      (IdLock.lockCode .cpp false ids).Excludes ∧
      (MCSLock.lockCode N_THREADS_ALLOC fun t => (ids.id t).toNat).Excludes ∧
      (FlagLock.lockCode τ TASLock.lock).Excludes ∧
      (IdLock.lockCode .cpp true ids).Excludes ∧
      (FlagLock.lockCode τ TTASLock.lock).Excludes ∧
      (TwoCounterLock.lockCode τ).Excludes := by
  have hne : ∀ t, (ids.id t).toNat ≠ 0 := fun t ht => h.ne_zero t (BitVec.eq_of_toNat_eq ht)
  have hslot : Function.Injective fun t => (ids.id t).toNat % N_THREADS_ALLOC := fun t u => h.slots t u
  refine ⟨ALock.excludes h.alloc_pos h.slots, FlagLock.excludes _, CLHLock.excludes hne h.slots, IdLock.excludes h.ownIds,
    (MCSLock.code_reads hslot).excludes (MCSLock.keepsOrder hslot), FlagLock.excludes _, IdLock.excludes h.ownIds,
    FlagLock.excludes _, ?_⟩
  -- There are no more threads than tickets.
  have := Fintype.ofInjective _ h.toFin_injective
  have hcard : Fintype.card τ ≤ 2 ^ 64 := by simpa using Fintype.card_le_of_injective _ h.toFin_injective
  exact TwoCounterLock.code_reads.excludes (TwoCounterLock.keepsOrder hcard)

end ParSweet.Locks
