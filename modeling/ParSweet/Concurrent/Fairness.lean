import Mathlib.Data.List.Count
import Mathlib.Data.Nat.Init
import ParSweet.Concurrent.System

/-! Schedules without end, and what happens under a fair one.

A schedule names an action for every moment; an action that is not possible when its
moment comes changes nothing. A schedule is `Fair` to a participant that it does not
leave out for good while that participant has to go on. What happens sooner or later
under a fair schedule is proved by one rule (`eventually_of_helper`): as long as the goal
has not come, somebody helps, and whoever helps goes on helping until a measure has
become smaller. -/
namespace ParSweet.Concurrent.Machine

variable {σ α ε τ : Type*}

/-- Trying an action. -/
def attempt (M : Machine σ α ε) (s : σ) (a : α) : Option ε × σ := (M.next s a).getD (none, s)

/-- The events that the first `n` actions of a schedule show, and the state they lead to. -/
def course (M : Machine σ α ε) (sched : ℕ → α) : ℕ → List ε × σ
  | 0 => ([], M.initial)
  | n + 1 =>
    let p := M.course sched n
    let q := M.attempt p.2 (sched n)
    (p.1 ++ q.1.toList, q.2)

def shown (M : Machine σ α ε) (sched : ℕ → α) (n : ℕ) : List ε := (M.course sched n).1

def state (M : Machine σ α ε) (sched : ℕ → α) (n : ℕ) : σ := (M.course sched n).2

/-- `t` takes a step at moment `n`. -/
def Moves (M : Machine σ α ε) (who : α → τ) (sched : ℕ → α) (n : ℕ) (t : τ) : Prop :=
  who (sched n) = t ∧ (M.next (M.state sched n) (sched n)).isSome

/-- Whoever has to go on from some moment on, takes a step at that moment or later. -/
def Fair (M : Machine σ α ε) (who : α → τ) (Must : σ → τ → Prop) (sched : ℕ → α) : Prop :=
  ∀ t n, (∀ m, n ≤ m → Must (M.state sched m) t) → ∃ m, n ≤ m ∧ M.Moves who sched m t

/-- Whenever `W` holds, `G` holds then or later. -/
def LeadsTo (M : Machine σ α ε) (sched : ℕ → α) (W G : List ε → σ → Prop) : Prop :=
  ∀ n, W (M.shown sched n) (M.state sched n) → ∃ m, n ≤ m ∧ G (M.shown sched m) (M.state sched m)

variable (M : Machine σ α ε) (sched : ℕ → α)

/-- What one moment does: nothing, or a step. -/
theorem course_succ (n : ℕ) :
    (M.shown sched (n + 1) = M.shown sched n ∧ M.state sched (n + 1) = M.state sched n ∧
        M.next (M.state sched n) (sched n) = none) ∨
      ∃ l, M.next (M.state sched n) (sched n) = some (l, M.state sched (n + 1)) ∧
        M.shown sched (n + 1) = M.shown sched n ++ l.toList := by
  simp only [shown, state, course, attempt]
  cases hnext : M.next (M.course sched n).2 (sched n) with
  | none => exact .inl ⟨by simp, rfl, rfl⟩
  | some p => exact .inr ⟨p.1, rfl, rfl⟩

/-- A schedule leads through a run. -/
theorem course_run (n : ℕ) : M.system.Run (M.shown sched n) (M.state sched n) := by
  induction n with
  | zero => exact .refl
  | succ n ih =>
    rcases M.course_succ sched n with ⟨hshown, hstate, _⟩ | ⟨l, hnext, hshown⟩
    · rw [hshown, hstate]
      exact ih
    · rw [hshown]
      exact .step ih ⟨sched n, hnext⟩

/-- What has been shown stays shown. -/
theorem shown_count_le [DecidableEq ε] {e : ε} {n m : ℕ} (hnm : n ≤ m) :
    (M.shown sched n).count e ≤ (M.shown sched m).count e := by
  induction m, hnm using Nat.le_induction with
  | base => exact Nat.le_refl _
  | succ m _ ih =>
    rcases M.course_succ sched m with ⟨hshown, _, _⟩ | ⟨l, _, hshown⟩
    · rw [hshown]
      exact ih
    · rw [hshown, List.count_append]
      omega

variable {M sched} {W G H : List ε → σ → Prop}

theorem LeadsTo.trans (h : M.LeadsTo sched W G) (h' : M.LeadsTo sched G H) : M.LeadsTo sched W H := by
  intro n hn
  obtain ⟨m, hm, hg⟩ := h n hn
  obtain ⟨k, hk, hh⟩ := h' m hg
  exact ⟨k, Nat.le_trans hm hk, hh⟩

theorem LeadsTo.of_imp (h : ∀ es s, M.system.Run es s → W es s → G es s) : M.LeadsTo sched W G :=
  fun n hn => ⟨n, Nat.le_refl n, h _ _ (M.course_run sched n) hn⟩

theorem LeadsTo.or {W' : List ε → σ → Prop} (h : M.LeadsTo sched W G) (h' : M.LeadsTo sched W' G) :
    M.LeadsTo sched (fun es s => W es s ∨ W' es s) G :=
  fun n hn => hn.elim (h n) (h' n)

/-- Every schedule that gives everybody a turn again and again is fair, if whoever has to go on can. -/
theorem fair_of_turns {who : α → τ} {Must : σ → τ → Prop} (hturns : ∀ t n, ∃ m, n ≤ m ∧ who (sched m) = t)
    (hcan : ∀ s a, M.system.Reachable s → Must s (who a) → (M.next s a).isSome) : M.Fair who Must sched := by
  intro t n hmust
  obtain ⟨m, hm, hwho⟩ := hturns t n
  refine ⟨m, hm, hwho, hcan _ _ ⟨_, M.course_run sched m⟩ ?_⟩
  rw [hwho]
  exact hmust m hm

/-- What a step does for those who wait: their goal comes, or they wait on with a smaller
measure, or the step was nobody's that helps and all who help still do. -/
inductive Progress (who : α → τ) (W G : List ε → σ → Prop) (μ : List ε → σ → ℕ)
    (Helps : List ε → σ → τ → Prop) (es : List ε) (s : σ) (a : α) (fs : List ε) (t : σ) : Prop where
  | goal : G fs t → Progress who W G μ Helps es s a fs t
  | less : W fs t → μ fs t < μ es s → Progress who W G μ Helps es s a fs t
  | keep : W fs t → μ fs t ≤ μ es s → (∀ u, Helps es s u → who a ≠ u ∧ Helps fs t u) →
      Progress who W G μ Helps es s a fs t

/-- **The helper rule**, from the moment `n₀` on: the goal comes, if somebody always helps, whoever
helps for ever takes a step, and no step makes the measure larger or lets go of a helper with
the measure as it is. -/
theorem eventually_of_helper (M : Machine σ α ε) (sched : ℕ → α) (who : α → τ) (W G : List ε → σ → Prop)
    (μ : List ε → σ → ℕ) (Helps : List ε → σ → τ → Prop) {n₀ n : ℕ}
    (hhelper : ∀ m, n₀ ≤ m → W (M.shown sched m) (M.state sched m) → ∃ t, Helps (M.shown sched m) (M.state sched m) t)
    (hmoves : ∀ t n, n₀ ≤ n → (∀ m, n ≤ m → W (M.shown sched m) (M.state sched m) ∧
      Helps (M.shown sched m) (M.state sched m) t) → ∃ m, n ≤ m ∧ M.Moves who sched m t)
    (hstep : ∀ m l, n₀ ≤ m → W (M.shown sched m) (M.state sched m) →
      M.next (M.state sched m) (sched m) = some (l, M.state sched (m + 1)) →
      Progress who W G μ Helps (M.shown sched m) (M.state sched m) (sched m) (M.shown sched m ++ l.toList)
        (M.state sched (m + 1)))
    (hn₀ : n₀ ≤ n) (hn : W (M.shown sched n) (M.state sched n)) :
    ∃ m, n ≤ m ∧ G (M.shown sched m) (M.state sched m) := by
  generalize hk : μ (M.shown sched n) (M.state sched n) = k
  -- the measure cannot become smaller for ever
  induction k using Nat.strongRecOn generalizing n with
  | ind k ih =>
    obtain ⟨t, ht⟩ := hhelper n hn₀ hn
    by_contra hnever
    have hgoal : ∀ m, n ≤ m → ¬ G (M.shown sched m) (M.state sched m) := fun m hm hg => hnever ⟨m, hm, hg⟩
    have hmore : ∀ m, n ≤ m → W (M.shown sched m) (M.state sched m) →
        k ≤ μ (M.shown sched m) (M.state sched m) := by
      intro m hm hw
      by_contra hlt
      obtain ⟨j, hj, hg⟩ := ih _ (Nat.not_le.mp hlt) (Nat.le_trans hn₀ hm) hw rfl
      exact hgoal j (Nat.le_trans hm hj) hg
    -- so the helper that there is goes on helping for ever, and never takes a step
    have hstay : ∀ m, n ≤ m → W (M.shown sched m) (M.state sched m) ∧
        μ (M.shown sched m) (M.state sched m) ≤ k ∧ Helps (M.shown sched m) (M.state sched m) t := by
      intro m hm
      induction m, hm using Nat.le_induction with
      | base => exact ⟨hn, Nat.le_of_eq hk, ht⟩
      | succ m hm hrec =>
        obtain ⟨hw, hle, hh⟩ := hrec
        rcases M.course_succ sched m with ⟨hshown, hstate, _⟩ | ⟨l, hnext, hshown⟩
        · rw [hshown, hstate]
          exact ⟨hw, hle, hh⟩
        · have hprogress := hstep m l (Nat.le_trans hn₀ hm) hw hnext
          rw [← hshown] at hprogress
          cases hprogress with
          | goal hg => exact absurd hg (hgoal (m + 1) (by omega))
          | less hw' hlt =>
            have := hmore (m + 1) (by omega) hw'
            omega
          | keep hw' hle' hkeep => exact ⟨hw', Nat.le_trans hle' hle, (hkeep t hh).2⟩
    obtain ⟨m, hm, hwho, hcan⟩ := hmoves t n hn₀ fun m hm => ⟨(hstay m hm).1, (hstay m hm).2.2⟩
    obtain ⟨hw, hle, hh⟩ := hstay m hm
    rcases M.course_succ sched m with ⟨_, _, hnone⟩ | ⟨l, hnext, hshown⟩
    · rw [hnone] at hcan
      cases hcan
    · have hprogress := hstep m l (Nat.le_trans hn₀ hm) hw hnext
      rw [← hshown] at hprogress
      cases hprogress with
      | goal hg => exact hgoal (m + 1) (by omega) hg
      | less hw' hlt =>
        have := hmore (m + 1) (by omega) hw'
        omega
      | keep _ _ hkeep => exact (hkeep t hh).1 hwho

/-- The helper rule where fairness makes those who help go on. -/
theorem LeadsTo.of_helper {who : α → τ} {Must : σ → τ → Prop} (μ : List ε → σ → ℕ)
    (Helps : List ε → σ → τ → Prop) (hfair : M.Fair who Must sched)
    (hhelper : ∀ es s, M.system.Run es s → W es s → ∃ t, Helps es s t)
    (hmust : ∀ es s t, M.system.Run es s → W es s → Helps es s t → Must s t)
    (hstep : ∀ es s a l t, M.system.Run es s → W es s → M.next s a = some (l, t) →
      Progress who W G μ Helps es s a (es ++ l.toList) t) : M.LeadsTo sched W G :=
  fun n hn => eventually_of_helper M sched who W G μ Helps (fun m _ hw => hhelper _ _ (M.course_run sched m) hw)
    (fun t n _ hstay => hfair t n fun m hm =>
      hmust _ _ t (M.course_run sched m) (hstay m hm).1 (hstay m hm).2)
    (fun m _ _ hw hnext => hstep _ _ _ _ _ (M.course_run sched m) hw hnext) (Nat.zero_le n) hn

/-- An event that is shown more often later is shown in between. -/
theorem exists_shown [DecidableEq ε] {e : ε} {k n m : ℕ} (hn : (M.shown sched n).count e ≤ k)
    (hm : k < (M.shown sched m).count e) :
    ∃ j, n ≤ j ∧ ∃ s, M.next (M.state sched j) (sched j) = some (some e, s) := by
  by_contra hnever
  have hle : ∀ j, n ≤ j → (M.shown sched j).count e ≤ k := by
    intro j hj
    induction j, hj using Nat.le_induction with
    | base => exact hn
    | succ j hj ih =>
      rcases M.course_succ sched j with ⟨hshown, _, _⟩ | ⟨l, hnext, hshown⟩
      · rw [hshown]
        exact ih
      · have hl : l ≠ some e := fun hl => hnever ⟨j, hj, _, hl ▸ hnext⟩
        rw [hshown, List.count_append]
        have : l.toList.count e = 0 := List.count_eq_zero.mpr fun hmem => hl (Option.mem_toList.mp hmem)
        omega
  rcases Nat.le_total n m with hnm | hmn
  · have := hle m hnm
    omega
  · have := M.shown_count_le sched (e := e) hmn
    omega

end ParSweet.Concurrent.Machine
