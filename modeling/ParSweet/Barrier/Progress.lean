import ParSweet.Barrier.Wakeup
import ParSweet.Concurrent.Fairness
import ParSweet.Concurrent.Sums

/-! A call of `sync()` returns once everybody has called as often.

The mutex is fair to nobody: a thread may find it taken whenever it looks. But until `t`
has returned, the others can pass through one more round at most, so they run out of steps
and the mutex is free. What is left of all threads' rounds is the measure; a notify is
paid for in advance, since it gives all who wait a few steps to take. A spurious wake-up is paid for by
nobody: those have to come to an end. -/
namespace ParSweet.Barrier
open Concurrent

variable {τ : Type*}

/-- Whose action it is. -/
def Action.thread : Action τ → τ
  | .call t => t
  | .turn t => t
  | .wake t => t

/-- Where a thread stands in the ideal barrier. -/
def Pc.phase (march : BitVec 32) : Pc → RoundBarrier.Phase
  | .idle => .outside
  | .lock | .incr => .called
  | .readMarch | .test _ | .reset | .advance => .arrived
  | .signalAll | .unlock | .notifyAll | .leave | .overflow => .released
  | .loop check | .wait check | .waiting check | .relock check => if check = march then .arrived else .released

theorem InRound.phase_eq {check march : BitVec 32} {p : RoundBarrier.Phase} (h : InRound check march p) :
    (if check = march then RoundBarrier.Phase.arrived else .released) = p := by
  rcases h with ⟨rfl, heq⟩ | ⟨rfl, hmarch⟩
  · rw [if_pos heq]
  · have hne : check ≠ march := by
      intro heq
      rw [← heq] at hmarch
      bv_omega
    rw [if_neg hne]

theorem At.phase_eq {march : BitVec 32} {pc : Pc} {p : RoundBarrier.Phase} (h : At march pc p) : pc.phase march = p := by
  cases pc with
  | test check => exact h.1.symm
  | loop check | wait check | waiting check | relock check => exact InRound.phase_eq h
  | overflow => exact h.elim
  | _ => exact Eq.symm h

/-! ### What is left of a round -/

/-- How many phases are left until a thread can go no further without another release. -/
def phasesLeft : RoundBarrier.Phase → ℕ
  | .released => 3
  | .outside => 2
  | .called => 1
  | .arrived => 0

/-- The steps left in a phase, of `n` threads; those that a notify gives to the others are counted with it. -/
def Pc.stepsLeft (n : ℕ) : Pc → ℕ
  | .idle | .waiting _ | .overflow => 0
  | .incr | .advance | .wait _ | .leave => 1
  | .lock | .reset | .loop _ => 2
  | .test _ | .relock _ => 3
  | .readMarch => 4
  | .notifyAll => 3 * n + 1
  | .signalAll | .unlock => 3 * n + 2

def Pc.weight (n : ℕ) (march : BitVec 32) (pc : Pc) : ℕ := (3 * n + 5) * phasesLeft (pc.phase march) + pc.stepsLeft n

/-- What is left until `t` has returned: its release, and everybody's steps. -/
def State.left [Fintype τ] (s : State τ) (t : τ) : ℕ :=
  (if (s.pc t).phase s.march = .released then 0 else Fintype.card τ * (4 * (3 * Fintype.card τ + 5))) +
    ∑ u, (s.pc u).weight (Fintype.card τ) s.march

theorem stepsLeft_le (n : ℕ) (pc : Pc) : pc.stepsLeft n ≤ 3 * n + 4 := by
  cases pc <;> simp only [Pc.stepsLeft] <;> omega

theorem woken_phase {march : BitVec 32} (pc : Pc) : pc.woken.phase march = pc.phase march := by
  cases pc <;> rfl

theorem woken_stepsLeft (n : ℕ) (pc : Pc) : pc.woken.stepsLeft n ≤ pc.stepsLeft n + 3 := by
  cases pc <;> simp [Pc.woken, Pc.stepsLeft]

theorem woken_weight (n : ℕ) (march : BitVec 32) (pc : Pc) : pc.woken.weight n march ≤ pc.weight n march + 3 := by
  have := woken_stepsLeft n pc
  simp only [Pc.weight, woken_phase]
  omega

variable [DecidableEq τ] [Fintype τ] {s s' : State τ} {a a' : RoundBarrier.State τ} {t u : τ} {pc : Pc} {L : Lang}
  {l : Option (BarrierEvent τ)} {x : Action τ}

omit [DecidableEq τ] in
theorem Related.phase_eq (h : Related s a) (u : τ) : (s.pc u).phase s.march = a.phase u := (h.thread u).phase_eq

/-- A step of `u` that leaves `march` alone, and `t` where it stood in its round. -/
theorem left_lt_of_goto {m : Option τ} {n : BitVec 32}
    (hphase : u = t → (pc.phase s.march = .released ↔ (s.pc t).phase s.march = .released))
    (hless : pc.weight (Fintype.card τ) s.march < (s.pc u).weight (Fintype.card τ) s.march) :
    State.left ({s with mutex := m, count := n}.goto u pc) t < s.left t := by
  have hsum : ∑ v, ((Function.update s.pc u pc) v).weight (Fintype.card τ) s.march <
      ∑ v, (s.pc v).weight (Fintype.card τ) s.march := by
    refine sum_lt (t := u) (fun v hv => ?_) (by rwa [Function.update_self])
    rw [Function.update_of_ne hv]
  have hahead : ((Function.update s.pc u pc) t).phase s.march = .released ↔ (s.pc t).phase s.march = .released := by
    by_cases hut : u = t
    · subst hut
      rw [Function.update_self]
      exact hphase rfl
    · rw [Function.update_of_ne (Ne.symm hut)]
  unfold State.left
  simp only [State.goto, hahead]
  omega

/-- A notify by `u`. -/
theorem left_lt_of_notify (hphase : u = t → (pc.phase s.march = .released ↔ (s.pc t).phase s.march = .released))
    (hless : pc.weight (Fintype.card τ) s.march + Fintype.card τ * 3 < (s.pc u).weight (Fintype.card τ) s.march) :
    State.left ({s with pc := fun v => (s.pc v).woken}.goto u pc) t < s.left t := by
  have hsum : ∑ v, ((Function.update (fun v => (s.pc v).woken) u pc) v).weight (Fintype.card τ) s.march <
      ∑ v, (s.pc v).weight (Fintype.card τ) s.march := by
    refine sum_lt_of_one (t := u) (c := 3) (fun v hv => ?_) (by rwa [Function.update_self])
    rw [Function.update_of_ne hv]
    exact woken_weight ..
  have hahead : ((Function.update (fun v => (s.pc v).woken) u pc) t).phase s.march = .released ↔
      (s.pc t).phase s.march = .released := by
    by_cases hut : u = t
    · subst hut
      rw [Function.update_self]
      exact hphase rfl
    · rw [Function.update_of_ne (Ne.symm hut), woken_phase]
  unfold State.left
  simp only [State.goto, hahead]
  omega

omit [DecidableEq τ] in
/-- `++march` takes a phase from everybody. -/
theorem left_lt_of_release (hwas : ∀ u, (s.pc u).phase s.march = .arrived)
    (hnow : ∀ u, (s'.pc u).phase s'.march = .released) : s'.left t < s.left t := by
  have hle : ∀ u, (s'.pc u).weight (Fintype.card τ) s'.march ≤ 4 * (3 * Fintype.card τ + 5) - 1 := by
    intro u
    have := stepsLeft_le (Fintype.card τ) (s'.pc u)
    simp only [Pc.weight, hnow u, phasesLeft]
    omega
  have hsum : ∑ u, (s'.pc u).weight (Fintype.card τ) s'.march ≤
      Fintype.card τ * (4 * (3 * Fintype.card τ + 5) - 1) :=
    (Finset.sum_le_sum fun u _ => hle u).trans_eq (Finset.sum_const_nat fun _ _ => rfl)
  have hpos : 0 < Fintype.card τ := Fintype.card_pos_iff.mpr ⟨t⟩
  have hlt : Fintype.card τ * (4 * (3 * Fintype.card τ + 5) - 1) < Fintype.card τ * (4 * (3 * Fintype.card τ + 5)) :=
    Nat.mul_lt_mul_of_pos_left (by omega) hpos
  unfold State.left
  rw [if_pos (hnow t), if_neg (by simp [hwas t])]
  omega

omit [Fintype τ] in
/-- A turn moves the thread whose it is. -/
theorem turn_moves {nThreads : ℕ} (hstep : step L nThreads s (.turn u) = some (l, s')) : s'.pc u ≠ s.pc u := by
  cases hp : s.pc u <;> simp only [step, hp, reduceCtorEq, Option.some.injEq, Prod.mk.injEq] at hstep <;>
    grind [State.goto_pc]

omit [Fintype τ] in
/-- Only `wake` wakes a single thread. -/
theorem not_wakes {nThreads : ℕ} {check : BitVec 32} (hstep : step L nThreads s x = some (l, s.goto t (.relock check)))
    (hp : s.pc t = .waiting check) (hx : x ≠ .wake t) : False := by
  cases x with
  | call u =>
    simp only [step] at hstep
    split_ifs at hstep with hidle
    simp only [Option.some.injEq, Prod.mk.injEq] at hstep
    have hpc := congrArg (fun s : State τ => s.pc u) hstep.2
    simp only [State.goto_pc, if_true] at hpc
    split_ifs at hpc with hut
    simp [hidle] at hpc
  | wake u =>
    have hut : t ≠ u := fun h => hx (by rw [h])
    cases hu : s.pc u <;> simp only [step, hu, reduceCtorEq, Option.some.injEq, Prod.mk.injEq] at hstep
    have hpc := congrArg (fun s : State τ => s.pc t) hstep.2
    simp [State.goto_pc, hut, hp] at hpc
  | turn u =>
    have hmoved := turn_moves hstep
    rw [State.goto_pc] at hmoved
    split_ifs at hmoved with hut
    · subst hut
      simp [step, hp] at hstep
    · exact hmoved rfl

omit [DecidableEq τ] in
theorem Related.not_overflow (h : Related s a) (u : τ) : s.pc u ≠ .overflow := fun hp => h.at_of_pc hp

theorem increment_eq {i j : BitVec 32} (h : increment L i = some j) : j = i + 1 := by
  cases L with
  | java => exact (Option.some.inj h).symm
  | cpp =>
    simp only [increment] at h
    split_ifs at h
    exact (Option.some.inj h).symm

/-- After `++march` everybody is released. -/
theorem Related.phase_advance (h : Related s a) (hp : s.pc u = .advance) (hpc : ∀ march, pc.phase march = .released)
    (v : τ) : ((Function.update s.pc u pc) v).phase (s.march + 1) = .released := by
  by_cases hvu : v = u
  · rw [hvu, Function.update_self]
    exact hpc _
  · rw [Function.update_of_ne hvu]
    have hat := h.thread v
    rw [h.full u (.inr hp) v] at hat
    have hfree : ¬ (s.pc v).Holding := fun hv => hvu (h.holder_eq (by rw [hp]; trivial) hv)
    exact (hat.release hfree).phase_eq

/-- **Every step but a spurious wake-up brings `t` nearer to its return.** -/
theorem Related.left_lt (h : Related s a) (h' : Related s' a') (hstep : step L (Fintype.card τ) s x = some (l, s'))
    (hx : ∀ u, x ≠ .wake u) (ht : s.pc t ≠ .idle) : s'.pc t = .idle ∨ s'.left t < s.left t := by
  have hloop : ∀ u check, s.pc u = .test check → check = s.march := fun u check hp => (h.at_of_pc hp).2
  cases step_cases hstep with
  | @call u hp =>
    refine .inr (left_lt_of_goto (n := s.count) (fun hut => absurd (hut ▸ hp) ht) ?_)
    simp only [hp, Pc.weight, Pc.phase, phasesLeft, Pc.stepsLeft]
    omega
  | wake hp => exact (not_wakes hstep hp (hx _)).elim
  | @lock u hp _ =>
    refine .inr (left_lt_of_goto (n := s.count) (fun hut => by simp [← hut, hp, Pc.phase]) ?_)
    simp only [hp, Pc.weight, Pc.phase, phasesLeft, Pc.stepsLeft]
    omega
  | @incr u count hp _ =>
    refine .inr (left_lt_of_goto (fun hut => by simp [← hut, hp, Pc.phase]) ?_)
    simp only [hp, Pc.weight, Pc.phase, phasesLeft, Pc.stepsLeft]
    omega
  | @incrOverflow u hp _ => exact absurd (by simp) (h'.not_overflow u)
  | @readMarch u hp =>
    refine .inr (left_lt_of_goto (n := s.count) (fun hut => by simp [← hut, hp, Pc.phase]) ?_)
    simp only [hp, Pc.weight, Pc.phase, phasesLeft, Pc.stepsLeft]
    omega
  | @test u check hp =>
    have hcheck := hloop u check hp
    refine .inr (left_lt_of_goto (n := s.count) (fun hut => ?_) ?_)
    · split_ifs <;> simp [← hut, hp, Pc.phase, hcheck]
    · split_ifs <;> simp only [hp, Pc.weight, Pc.phase, phasesLeft, Pc.stepsLeft, hcheck, if_true] <;> omega
  | @reset u hp =>
    refine .inr (left_lt_of_goto (fun hut => by simp [← hut, hp, Pc.phase]) ?_)
    simp only [hp, Pc.weight, Pc.phase, phasesLeft, Pc.stepsLeft]
    omega
  | @advance u march hp hmarch =>
    have hfull := h.full u (.inr hp)
    obtain rfl := increment_eq hmarch
    refine .inr (left_lt_of_release (fun v => (h.phase_eq v).trans (hfull v)) ?_)
    exact h.phase_advance hp fun march => by cases L <;> rfl
  | @advanceOverflow u hp _ => exact absurd (by simp) (h'.not_overflow u)
  | @signalAll u hp =>
    refine .inr (left_lt_of_notify (fun hut => by simp [← hut, hp, Pc.phase]) ?_)
    simp only [hp, Pc.weight, Pc.phase, phasesLeft, Pc.stepsLeft]
    omega
  | @unlock u hp =>
    refine .inr (left_lt_of_goto (n := s.count) (fun hut => by simp [← hut, hp, Pc.phase]) ?_)
    simp only [hp, Pc.weight, Pc.phase, phasesLeft, Pc.stepsLeft]
    omega
  | @notifyAll u hp =>
    by_cases hut : u = t
    · exact .inl (by simp [hut])
    · refine .inr (left_lt_of_notify (fun h => absurd h hut) ?_)
      simp only [hp, Pc.weight, Pc.phase, phasesLeft, Pc.stepsLeft]
      omega
  | @loop u check hp =>
    refine .inr (left_lt_of_goto (n := s.count) (fun hut => ?_) ?_)
    · split_ifs with hcheck <;> simp [← hut, hp, Pc.phase, hcheck]
    · split_ifs with hcheck <;> simp only [hp, Pc.weight, Pc.phase, phasesLeft, Pc.stepsLeft, hcheck, if_true, if_false] <;> omega
  | @wait u check hp =>
    refine .inr (left_lt_of_goto (n := s.count) (fun hut => by simp [← hut, hp, Pc.phase]) ?_)
    simp only [hp, Pc.weight, Pc.phase, phasesLeft, Pc.stepsLeft]
    omega
  | @relock u check hp _ =>
    refine .inr (left_lt_of_goto (n := s.count) (fun hut => by simp [← hut, hp, Pc.phase]) ?_)
    simp only [hp, Pc.weight, Pc.phase, phasesLeft, Pc.stepsLeft]
    omega
  | @leave u hp =>
    by_cases hut : u = t
    · exact .inl (by simp [hut])
    · refine .inr (left_lt_of_goto (n := s.count) (fun h => absurd h hut) ?_)
      simp only [hp, Pc.weight, Pc.phase, phasesLeft, Pc.stepsLeft]
      omega

/-! ### Somebody can go on -/

/-- `t` can take a turn. -/
def CanTurn (L : Lang) (nThreads : ℕ) (s : State τ) (t : τ) : Prop := (step L nThreads s (.turn t)).isSome

omit [Fintype τ] in
theorem canTurn_of_holding {nThreads : ℕ} (h : (s.pc t).Holding) : CanTurn L nThreads s t := by
  unfold CanTurn
  cases hp : s.pc t with
  | idle | lock | notifyAll | waiting | relock | overflow => exact absurd h (by rw [hp]; exact id)
  | incr | advance =>
    simp only [step, hp]
    split <;> rfl
  | _ => simp only [step, hp, Option.isSome_some]

omit [Fintype τ] in
theorem canTurn_of_free {nThreads : ℕ} (hfree : s.mutex = none) (hidle : s.pc t ≠ .idle)
    (hwaiting : ∀ check, s.pc t ≠ .waiting check) (hoverflow : s.pc t ≠ .overflow) : CanTurn L nThreads s t := by
  by_cases hh : (s.pc t).Holding
  · exact canTurn_of_holding hh
  · unfold CanTurn
    cases hp : s.pc t with
    | idle => exact absurd hp hidle
    | waiting check => exact absurd hp (hwaiting check)
    | overflow => exact absurd hp hoverflow
    | lock | relock check | notifyAll => simp only [step, hp, hfree, if_true, Option.isSome_some]
    | _ => exact (hh (by rw [hp]; trivial)).elim

/-- It has arrived and may be the one that ends the round. -/
def Pc.Ending : Pc → Prop
  | .readMarch | .test _ | .reset | .advance => True
  | _ => False

/-- When all have arrived, somebody is about to end the round. -/
def SomeoneEnds (s : State τ) : Prop := (∀ u, (s.pc u).phase s.march = .arrived) → ∃ u, (s.pc u).Ending

omit [Fintype τ] in
theorem someoneEnds_of_phase (hphase : pc.phase s.march ≠ .arrived) : SomeoneEnds (s.goto t pc) := by
  intro hall
  have ht := hall t
  rw [State.goto_pc, if_pos rfl] at ht
  exact absurd ht hphase

omit [Fintype τ] in
theorem someoneEnds_of_ending (h : pc.Ending) : SomeoneEnds (s.goto t pc) :=
  fun _ => ⟨t, by rwa [State.goto_pc, if_pos rfl]⟩

omit [Fintype τ] in
/-- A step of `u` which does not change where it stands in its round. -/
theorem SomeoneEnds.goto (h : SomeoneEnds s) {m : Option τ} {n : BitVec 32} (hu : ¬ (s.pc u).Ending)
    (hphase : pc.phase s.march = .arrived → (s.pc u).phase s.march = .arrived) :
    SomeoneEnds ({s with mutex := m, count := n}.goto u pc) := by
  intro hall
  have hbefore : ∀ v, (s.pc v).phase s.march = .arrived := by
    intro v
    have hv := hall v
    rw [State.goto_pc] at hv
    split_ifs at hv with hvu
    · rw [hvu]
      exact hphase hv
    · exact hv
  obtain ⟨v, hv⟩ := h hbefore
  have hvu : v ≠ u := fun hvu => hu (hvu ▸ hv)
  exact ⟨v, by rwa [State.goto_pc, if_neg hvu]⟩

theorem SomeoneEnds.step (h : SomeoneEnds s) (hrel : Related s a) (hstep : step L (Fintype.card τ) s x = some (l, s')) :
    SomeoneEnds s' := by
  cases step_cases hstep with
  | @call u hp => exact someoneEnds_of_phase (by simp [Pc.phase])
  | wake hp => exact h.goto (n := s.count) (by rw [hp]; exact id) (by rw [hp]; exact id)
  | @lock u hp _ => exact someoneEnds_of_phase (by simp [Pc.phase])
  | @incr u count hp _ => exact someoneEnds_of_ending trivial
  | @incrOverflow u hp _ => exact someoneEnds_of_phase (by simp [Pc.phase])
  | @readMarch u hp => exact someoneEnds_of_ending trivial
  | @test u check hp =>
    split_ifs with hcount
    · exact someoneEnds_of_ending trivial
    · -- not everybody has arrived, or `count` would say so
      intro hall
      have harrived : ∀ v, a.phase v = .arrived := by
        intro v
        by_cases hvu : v = u
        · rw [hvu]
          exact (hrel.at_of_pc hp).1
        · have hv := hall v
          rw [State.goto_pc, if_neg hvu] at hv
          exact (hrel.phase_eq v).symm.trans hv
      have hcard : arrived a = Fintype.card τ := by simp [arrived, harrived]
      have := hrel.count_eq (t := u) (by rw [hp]; trivial) (by simp [hp])
      exact absurd (hcard ▸ this) hcount
  | @reset u hp => exact someoneEnds_of_ending trivial
  | @advance u march hp hmarch =>
    cases L <;> exact someoneEnds_of_phase (by simp [Pc.phase])
  | @advanceOverflow u hp _ => exact someoneEnds_of_phase (by simp [Pc.phase])
  | @signalAll u hp => exact someoneEnds_of_phase (by simp [Pc.phase])
  | @unlock u hp => exact someoneEnds_of_phase (by simp [Pc.phase])
  | @notifyAll u hp => exact someoneEnds_of_phase (by simp [Pc.phase])
  | @loop u check hp =>
    refine h.goto (n := s.count) (by rw [hp]; exact id) ?_
    split_ifs with hcheck <;> simp [hp, Pc.phase, hcheck]
  | @wait u check hp => exact h.goto (n := s.count) (by rw [hp]; exact id) (by rw [hp]; exact id)
  | @relock u check hp _ => exact h.goto (n := s.count) (by rw [hp]; exact id) (by rw [hp]; exact id)
  | @leave u hp => exact someoneEnds_of_phase (by simp [Pc.phase])

omit [DecidableEq τ] [Fintype τ] in
theorem someoneEnds_initial [Nonempty τ] : SomeoneEnds (⟨none, 0, 0, fun _ => .idle⟩ : State τ) :=
  fun hall => absurd (hall (Classical.arbitrary τ)) (by simp [Pc.phase])

omit [Fintype τ] in
/-- Only `call` shows a call. -/
theorem call_of_event {nThreads : ℕ} (hstep : step L nThreads s x = some (some (.call u), s')) :
    x = .call u ∧ s.pc u = .idle := by
  cases x with
  | call v =>
    simp only [step] at hstep
    split_ifs at hstep with hp
    simp only [Option.some.injEq, Prod.mk.injEq, BarrierEvent.call.injEq] at hstep
    exact ⟨by rw [hstep.1], hstep.1 ▸ hp⟩
  | wake v => cases hp : s.pc v <;> simp [step, hp] at hstep
  | turn v =>
    cases hp : s.pc v <;> simp only [step, hp] at hstep <;> (try split at hstep) <;> simp at hstep

/-- It can take a turn, or is outside and has not called as often as is asked. -/
def Helps (L : Lang) (k : ℕ) (es : List (BarrierEvent τ)) (s : State τ) (u : τ) : Prop :=
  CanTurn L (Fintype.card τ) s u ∨ (s.pc u = .idle ∧ es.count (.call u) < k)

/-- **While `t` is in `sync()`, somebody can go on or has still to call.** -/
theorem exists_helps {es : List (BarrierEvent τ)} (ha : (RoundBarrier.system τ).Run es a) (h : Related s a)
    (hlost : NoneLost s) (hends : SomeoneEnds s) (ht : s.pc t ≠ .idle) : ∃ u, Helps L (es.count (.call t)) es s u := by
  by_contra hnone
  have hturn : ∀ u, ¬ CanTurn L (Fintype.card τ) s u := fun u hu => hnone ⟨u, .inl hu⟩
  have hfree : s.mutex = none := by
    cases hm : s.mutex with
    | none => rfl
    | some u => exact absurd (canTurn_of_holding ((h.mutex u).mp hm)) (hturn u)
  -- so all stand outside or wait
  have hstand : ∀ u, s.pc u = .idle ∨ ∃ check, s.pc u = .waiting check := by
    intro u
    by_contra hu
    rw [not_or, not_exists] at hu
    exact hturn u (canTurn_of_free hfree hu.1 hu.2 (h.not_overflow u))
  have hpending : ¬ ∃ u, (s.pc u).NotifyPending := by
    intro ⟨u, hu⟩
    rcases hstand u with hp | ⟨check, hp⟩ <;> rw [hp] at hu <;> exact hu
  have hwaits : ∀ u check, s.pc u = .waiting check → a.phase u = .arrived := by
    intro u check hp
    have hcheck := (hlost.waiting u check hp).resolve_right hpending
    rw [← h.phase_eq, hp]
    exact if_pos hcheck
  have htarrived : a.phase t = .arrived := by
    obtain ⟨check, hp⟩ := (hstand t).resolve_left ht
    exact hwaits t check hp
  -- nobody is outside, since whoever is has still to call
  have hall : ∀ u, (s.pc u).phase s.march = .arrived := by
    intro u
    rw [h.phase_eq]
    rcases hstand u with hp | ⟨check, hp⟩
    · have hout : a.phase u = .outside := h.at_of_pc hp
      have hcu := RoundBarrier.run_counted ha u
      have hct := RoundBarrier.run_counted ha t
      rw [hout] at hcu
      rw [htarrived] at hct
      simp only [RoundBarrier.Counted] at hcu hct
      exact absurd ⟨u, .inr ⟨hp, by omega⟩⟩ hnone
    · exact hwaits u check hp
  obtain ⟨u, hu⟩ := hends hall
  rcases hstand u with hp | ⟨check, hp⟩ <;> rw [hp] at hu <;> exact hu

/-! ### Fair schedules -/

/-- What `sync()` is for: under every weakly fair schedule whose spurious wake-ups come to an end
(and in which some thread calls fewer than `2 ^ 31` times, in C++), a call returns if and
only if everybody calls as often. -/
def SyncReturns (τ : Type*) [DecidableEq τ] [Fintype τ] (L : Lang) : Prop :=
  ∀ sched : ℕ → Action τ, (machine τ L (Fintype.card τ)).Fair Action.thread (CanTurn L (Fintype.card τ)) sched →
    (∃ n₀, ∀ n, n₀ ≤ n → ∀ u, sched n ≠ .wake u) →
    (L = .cpp → ∃ u, ∀ n, ((machine τ L (Fintype.card τ)).shown sched n).count (.call u) < 2 ^ 31) →
    ∀ t n, ((machine τ L (Fintype.card τ)).state sched n).pc t ≠ .idle →
      ((∃ m, n ≤ m ∧ ((machine τ L (Fintype.card τ)).state sched m).pc t = .idle) ↔
        ∀ u, ∃ m, ((machine τ L (Fintype.card τ)).shown sched n).count (.call t) ≤
          ((machine τ L (Fintype.card τ)).shown sched m).count (.call u))

section Course
variable {sched : ℕ → Action τ} (hcard : Fintype.card τ < 2 ^ 31)
  (hrounds : L = .cpp → ∃ u, ∀ n, ((machine τ L (Fintype.card τ)).shown sched n).count (.call u) < 2 ^ 31)

theorem course_noneLost (n : ℕ) : NoneLost ((machine τ L (Fintype.card τ)).state sched n) := by
  have hinitial : NoneLost (machine τ L (Fintype.card τ)).initial :=
    ⟨fun t ht => False.elim ht, fun t _ ht => (by cases ht), fun t _ ht => (by cases ht)⟩
  refine ((machine τ L (Fintype.card τ)).course_run sched n).invariant hinitial ?_
  intro s l s' h ⟨x, hstep⟩
  exact h.step hstep

include hcard hrounds

theorem course_related (n : ℕ) : ∃ a, (RoundBarrier.system τ).Run ((machine τ L (Fintype.card τ)).shown sched n) a ∧
    Related ((machine τ L (Fintype.card τ)).state sched n) a := by
  refine run_related hcard ((machine τ L (Fintype.card τ)).course_run sched n) fun hL => ?_
  obtain ⟨u, hu⟩ := hrounds hL
  exact ⟨u, hu n⟩

theorem course_someoneEnds [Nonempty τ] (n : ℕ) : SomeoneEnds ((machine τ L (Fintype.card τ)).state sched n) := by
  induction n with
  | zero => exact someoneEnds_initial
  | succ n ih =>
    obtain ⟨a, _, h⟩ := course_related hcard hrounds n
    rcases (machine τ L (Fintype.card τ)).course_succ sched n with ⟨_, hstate, _⟩ | ⟨l, hnext, _⟩
    · rw [hstate]
      exact ih
    · exact ih.step h hnext

end Course

/-- While `t` stays in `sync()` it calls no more. -/
theorem course_calls {sched : ℕ → Action τ} {n m : ℕ} (hnm : n ≤ m)
    (hbusy : ∀ k, n ≤ k → ((machine τ L (Fintype.card τ)).state sched k).pc t ≠ .idle) :
    ((machine τ L (Fintype.card τ)).shown sched m).count (.call t) =
      ((machine τ L (Fintype.card τ)).shown sched n).count (.call t) := by
  induction m, hnm using Nat.le_induction with
  | base => rfl
  | succ m hm ih =>
    rcases (machine τ L (Fintype.card τ)).course_succ sched m with ⟨hshown, _, _⟩ | ⟨l, hnext, hshown⟩
    · rw [hshown, ih]
    · have hl : l ≠ some (.call t) := by
        intro hl
        rw [hl] at hnext
        exact hbusy m hm (call_of_event hnext).2
      have hcount : l.toList.count (.call t) = 0 :=
        List.count_eq_zero.mpr fun hmem => hl (Option.mem_toList.mp hmem)
      rw [hshown, List.count_append, hcount, ih, Nat.add_zero]

/-- **A call of `sync()` returns if and only if everybody calls as often**, however often the mutex goes
to others and whatever wake-ups come late. -/
theorem barrier_sync_returns (τ : Type*) [DecidableEq τ] [Fintype τ] (L : Lang) (hcard : Fintype.card τ < 2 ^ 31) :
    SyncReturns τ L := by
  intro sched hfair ⟨n₀, hquiet⟩ hrounds t n ht
  have : Nonempty τ := ⟨t⟩
  constructor
  · intro ⟨m, hm, hidle⟩ u
    refine ⟨m, ?_⟩
    obtain ⟨a, ha, h⟩ := course_related hcard hrounds m
    have hle := (machine τ L (Fintype.card τ)).shown_count_le sched hm (e := .call t)
    have hout : a.phase t = .outside := h.at_of_pc hidle
    have hct := RoundBarrier.run_counted ha t
    have hcu := (RoundBarrier.run_counted ha u).bounds
    rw [hout] at hct
    simp only [RoundBarrier.Counted] at hct
    omega
  · intro hcall
    by_contra hnever
    have hbusy : ∀ m, n ≤ m → ((machine τ L (Fintype.card τ)).state sched m).pc t ≠ .idle :=
      fun m hm hidle => hnever ⟨m, hm, hidle⟩
    have hk : ∀ m, n ≤ m → ((machine τ L (Fintype.card τ)).shown sched m).count (.call t) =
        ((machine τ L (Fintype.card τ)).shown sched n).count (.call t) := fun m hm => course_calls hm hbusy
    generalize ((machine τ L (Fintype.card τ)).shown sched n).count (.call t) = k at hk hcall
    -- once nobody wakes for no reason
    have hreturns : ∃ m, max n n₀ ≤ m ∧ ((machine τ L (Fintype.card τ)).state sched m).pc t = .idle := by
      refine Machine.eventually_of_helper (machine τ L (Fintype.card τ)) sched Action.thread
        (fun _ s => s.pc t ≠ .idle) (fun _ s => s.pc t = .idle) (fun _ s => s.left t) (Helps L k) (fun m hm hw => ?_)
        (fun u n₁ hn₁ hhelps => ?_) (fun m l hm hw hnext => ?_) (Nat.le_refl _) (hbusy _ (Nat.le_max_left n n₀))
      · obtain ⟨a, ha, h⟩ := course_related hcard hrounds m
        have := exists_helps (L := L) ha h (course_noneLost m) (course_someoneEnds hcard hrounds m) hw
        rwa [hk m (Nat.le_trans (Nat.le_max_left n n₀) hm)] at this
      · by_cases hout : ∃ m, n₁ ≤ m ∧ ((machine τ L (Fintype.card τ)).state sched m).pc u = .idle ∧
            ((machine τ L (Fintype.card τ)).shown sched m).count (.call u) < k
        · -- `u` calls again
          obtain ⟨m, hm, hp, hlt⟩ := hout
          obtain ⟨m', hm'⟩ := hcall u
          obtain ⟨j, hj, s', hnext⟩ := Machine.exists_shown (Nat.le_refl _) (Nat.lt_of_lt_of_le hlt hm')
          exact ⟨j, Nat.le_trans hm hj, by rw [(call_of_event hnext).1]; rfl, by rw [hnext]; rfl⟩
        · exact hfair u n₁ fun m hm => (hhelps m hm).2.resolve_right fun h => hout ⟨m, hm, h⟩
      · obtain ⟨a, _, h⟩ := course_related hcard hrounds m
        obtain ⟨a', _, h'⟩ := course_related hcard hrounds (m + 1)
        rcases h.left_lt h' hnext (hquiet m (Nat.le_trans (Nat.le_max_right n n₀) hm)) hw with hidle | hlt
        · exact .goal hidle
        · exact .less (hbusy (m + 1) (by omega)) hlt
    obtain ⟨m, hm, hidle⟩ := hreturns
    exact hbusy m (Nat.le_trans (Nat.le_max_left n n₀) hm) hidle

/-- Two threads. -/
theorem barrier_sync_returns_two : SyncReturns (Fin 2) .cpp := barrier_sync_returns (Fin 2) .cpp (by decide)

end ParSweet.Barrier
