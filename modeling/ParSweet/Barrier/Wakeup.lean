import ParSweet.Barrier

/-! No wake-up of a `Barrier` is lost, however many threads call `sync()` and however many
rounds they complete.

A thread goes to sleep only while it has the mutex and finds `march` as it was, so nobody
can have advanced it in between; and whoever advances it has the notify still ahead. In C++
the notify comes after the mutex has been released, so that there may be several such
threads at a time, and sleepers of the next round that they wake for nothing. -/
namespace ParSweet.Barrier
open Concurrent

/-- The thread has advanced `march`, and its notify is still ahead. -/
def Pc.NotifyPending : Pc → Prop
  | .signalAll | .unlock | .notifyAll => True
  | _ => False

/-- Nobody sleeps through a round: `march` is what a thread about to sleep has found, and
what a sleeping thread has found if no notify is pending. -/
structure NoneLost {τ : Type*} (s : State τ) : Prop where
  mutex : ∀ t, (s.pc t).Holding → s.mutex = some t
  wait : ∀ t check, s.pc t = .wait check → check = s.march
  waiting : ∀ t check, s.pc t = .waiting check → check = s.march ∨ ∃ u, (s.pc u).NotifyPending

variable {τ : Type*} {s s' : State τ} {t u : τ} {pc : Pc} {L : Lang} {nThreads : ℕ}
  {l : Option (BarrierEvent τ)} {x : Action τ} {m : Option τ}

/-- While `t` has the mutex nobody else has it. -/
theorem NoneLost.not_holding (h : NoneLost s) (ht : s.mutex = some t) (hu : u ≠ t) : ¬ (s.pc u).Holding :=
  fun hh => hu (Option.some.inj ((h.mutex u hh).symm.trans ht))

variable [DecidableEq τ]

/-- A step of `t` that leaves `march` alone and, if `t` has a notify ahead, the notify too. -/
theorem NoneLost.move (h : NoneLost s) {n : BitVec 32} (hself : pc.Holding → m = some t)
    (hother : ∀ u, u ≠ t → (s.pc u).Holding → m = some u) (hwait : ∀ check, pc = .wait check → check = s.march)
    (hwaiting : ∀ check, pc = .waiting check → check = s.march)
    (hpending : (s.pc t).NotifyPending → pc.NotifyPending) :
    NoneLost ({s with mutex := m, count := n}.goto t pc) where
  mutex := (Function.forall_update_iff s.pc fun u p => p.Holding → m = some u).mpr ⟨hself, hother⟩
  wait := (Function.forall_update_iff s.pc fun _ p => ∀ check, p = .wait check → check = s.march).mpr
    ⟨hwait, fun u _ => h.wait u⟩
  waiting := by
    have hstill : (∃ u, (s.pc u).NotifyPending) → ∃ u, (Function.update s.pc t pc u).NotifyPending := by
      rintro ⟨u, hu⟩
      refine ⟨u, ?_⟩
      by_cases hut : u = t
      · subst hut
        rw [Function.update_self]
        exact hpending hu
      · rwa [Function.update_of_ne hut]
    exact (Function.forall_update_iff s.pc fun _ p => ∀ check, p = .waiting check →
      check = s.march ∨ ∃ u, (Function.update s.pc t pc u).NotifyPending).mpr
      ⟨fun check hc => .inl (hwaiting check hc), fun u _ check hc => (h.waiting u check hc).imp id hstill⟩

/-- A step that keeps to one side of the mutex. -/
theorem NoneLost.keep (h : NoneLost s) {n : BitVec 32} (hh : pc.Holding → (s.pc t).Holding)
    (hwait : ∀ check, pc = .wait check → check = s.march) (hwaiting : ∀ check, pc ≠ .waiting check)
    (hpending : ¬ (s.pc t).NotifyPending) : NoneLost ({s with count := n}.goto t pc) :=
  h.move (m := s.mutex) (fun hp => h.mutex t (hh hp)) (fun u _ => h.mutex u) hwait
    (fun check hc => absurd hc (hwaiting check)) fun hp => absurd hp hpending

/-- `t` takes the mutex. -/
theorem NoneLost.acquire (h : NoneLost s) (hfree : s.mutex = none) (hwait : ∀ check, pc ≠ .wait check)
    (hwaiting : ∀ check, pc ≠ .waiting check) (hpending : ¬ (s.pc t).NotifyPending) :
    NoneLost ({s with mutex := some t}.goto t pc) :=
  h.move (fun _ => rfl) (fun u _ hu => by rw [h.mutex u hu] at hfree; cases hfree)
    (fun check hc => absurd hc (hwait check)) (fun check hc => absurd hc (hwaiting check))
    fun hp => absurd hp hpending

/-- `t` releases the mutex. -/
theorem NoneLost.release (h : NoneLost s) (ht : (s.pc t).Holding) (hh : ¬ pc.Holding)
    (hwaiting : ∀ check, pc = .waiting check → check = s.march)
    (hpending : (s.pc t).NotifyPending → pc.NotifyPending) : NoneLost ({s with mutex := none}.goto t pc) :=
  h.move (fun hp => absurd hp hh) (fun _ hu hp => absurd hp (h.not_holding (h.mutex t ht) hu))
    (fun _ hc => absurd (hc ▸ trivial) hh) hwaiting hpending

theorem woken_ne_waiting (check : BitVec 32) : pc.woken ≠ .waiting check := by
  cases pc <;> simp [Pc.woken]

theorem woken_eq_wait {check : BitVec 32} : pc.woken = .wait check ↔ pc = .wait check := by
  cases pc <;> simp [Pc.woken]

/-- After a notify nobody sleeps. -/
theorem NoneLost.notify (h : NoneLost s) (hh : pc.Holding → (s.pc t).Holding)
    (hpc : ∀ check, pc ≠ .wait check ∧ pc ≠ .waiting check) :
    NoneLost ({s with pc := fun u => (s.pc u).woken}.goto t pc) where
  mutex := (Function.forall_update_iff (fun u => (s.pc u).woken) fun u p => p.Holding → s.mutex = some u).mpr
    ⟨fun hp => h.mutex t (hh hp), fun u _ hu => h.mutex u (woken_holding.mp hu)⟩
  wait := (Function.forall_update_iff (fun u => (s.pc u).woken) fun _ p => ∀ check, p = .wait check →
    check = s.march).mpr ⟨fun check hc => absurd hc (hpc check).1, fun u _ check hc =>
      h.wait u check (woken_eq_wait.mp hc)⟩
  waiting := fun _ check hu => by
    rw [State.goto_pc] at hu
    split_ifs at hu
    · exact absurd hu (hpc check).2
    · exact absurd hu (woken_ne_waiting check)

/-- `++march`: nobody is about to sleep, and whoever sleeps will be notified. -/
theorem NoneLost.advance (h : NoneLost s) {march : BitVec 32} (ht : (s.pc t).Holding) (hh : pc.NotifyPending) :
    NoneLost ({s with march := march}.goto t pc) := by
  have hmutex := h.mutex t ht
  have hwait : ∀ u, u ≠ t → ∀ check, s.pc u ≠ .wait check := fun u hu check hc =>
    h.not_holding hmutex hu (by rw [hc]; trivial)
  refine ⟨?_, ?_, fun u check _ => .inr ⟨t, by rwa [State.goto_pc, if_pos rfl]⟩⟩
  · exact (Function.forall_update_iff s.pc fun u p => p.Holding → s.mutex = some u).mpr
      ⟨fun _ => hmutex, fun u _ => h.mutex u⟩
  · exact (Function.forall_update_iff s.pc fun _ p => ∀ check, p = .wait check → check = march).mpr
      ⟨fun check hc => by rw [hc] at hh; exact hh.elim, fun u hu check hc => absurd hc (hwait u hu check)⟩

/-- **No step loses a wake-up.** -/
theorem NoneLost.step (h : NoneLost s) (hstep : step L nThreads s x = some (l, s')) : NoneLost s' := by
  cases step_cases hstep with
  | call hp => exact h.keep (n := s.count) False.elim (by simp) (by simp) (by rw [hp]; exact id)
  | wake hp => exact h.keep (n := s.count) False.elim (by simp) (by simp) (by rw [hp]; exact id)
  | lock hp hfree => exact h.acquire hfree (by simp) (by simp) (by rw [hp]; exact id)
  | incr hp _ => exact h.keep (fun _ => by rw [hp]; trivial) (by simp) (by simp) (by rw [hp]; exact id)
  | incrOverflow hp _ => exact h.keep (n := s.count) False.elim (by simp) (by simp) (by rw [hp]; exact id)
  | readMarch hp =>
    exact h.keep (n := s.count) (fun _ => by rw [hp]; trivial) (by simp) (by simp) (by rw [hp]; exact id)
  | test hp =>
    refine h.keep (n := s.count) (fun _ => by rw [hp]; trivial) ?_ ?_ (by rw [hp]; exact id)
    · split_ifs <;> simp
    · split_ifs <;> simp
  | reset hp => exact h.keep (fun _ => by rw [hp]; trivial) (by simp) (by simp) (by rw [hp]; exact id)
  | advance hp _ =>
    refine h.advance (by rw [hp]; trivial) ?_
    cases L <;> trivial
  | advanceOverflow hp _ => exact h.keep (n := s.count) False.elim (by simp) (by simp) (by rw [hp]; exact id)
  | signalAll hp => exact h.notify (fun _ => by rw [hp]; trivial) (by simp)
  | unlock hp => exact h.release (by rw [hp]; trivial) id (by simp) fun _ => trivial
  | notifyAll hp => exact h.notify False.elim (by simp)
  | loop hp =>
    refine h.keep (n := s.count) (fun _ => by rw [hp]; trivial) (fun check' hc => ?_) ?_ (by rw [hp]; exact id)
    · -- it goes to sleep only for the `march` it has found
      split_ifs at hc with hcheck
      rw [← Pc.wait.inj hc, hcheck]
    · split_ifs <;> simp
  | @wait t check hp =>
    refine h.release (by rw [hp]; trivial) id (fun check' hc => ?_) fun hn => by rw [hp] at hn; exact hn.elim
    rw [← Pc.waiting.inj hc]
    exact h.wait t check hp
  | relock hp hfree => exact h.acquire hfree (by simp) (by simp) (by rw [hp]; exact id)
  | leave hp => exact h.release (by rw [hp]; trivial) id (by simp) fun hn => by rw [hp] at hn; exact hn.elim

/-- **No wake-up is lost**: in every reachable state of either suite's barrier, whatever
`nThreads` is and however many threads there are, a thread that waits has found the `march`
that still is, or there is a thread that has advanced `march` and has its notify ahead. -/
theorem barrier_loses_no_wakeup (τ : Type*) [DecidableEq τ] (L : Lang) (nThreads : ℕ) (s : State τ)
    (hs : (machine τ L nThreads).system.Reachable s) (t : τ) (check : BitVec 32)
    (ht : s.pc t = .waiting check) : check = s.march ∨ ∃ u, (s.pc u).NotifyPending := by
  have h : NoneLost s := by
    refine hs.invariant (S := (machine τ L nThreads).system)
      ⟨fun t ht => ht.elim, fun t _ ht => (by cases ht), fun t _ ht => (by cases ht)⟩ ?_
    rintro s l s' h ⟨x, hstep⟩
    exact h.step hstep
  exact h.waiting t check ht

/-- The first of two threads sleeps, the second has advanced `march` and still has the mutex. -/
theorem barrier_loses_no_wakeup_two : ∃ s, (machine (Fin 2) .cpp 2).system.Reachable s ∧ s.march = 1 ∧
    (0 = s.march ∨ ∃ u, (s.pc u).NotifyPending) := by
  obtain ⟨s, hs, hp, hmarch⟩ := Machine.exec_reachable (M := machine (Fin 2) .cpp 2)
    (P := fun s => s.pc 0 = .waiting 0 ∧ s.march = 1)
    [.call 0, .turn 0, .turn 0, .turn 0, .turn 0, .turn 0, .turn 0, .call 1, .turn 1, .turn 1, .turn 1,
      .turn 1, .turn 1, .turn 1] (by decide)
  exact ⟨s, hs, hmarch, barrier_loses_no_wakeup (Fin 2) .cpp 2 s hs 0 0 hp⟩

end ParSweet.Barrier
