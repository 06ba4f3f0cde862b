import ParSweet.ToySoldiersSim.LiveCount

/-! What dead soldiers do in `ToySoldiersSim`.

`run()` asks for the life of its soldier, and `step()` does not ask again before it moves or
attacks. What has started by the time a soldier falls is carried out (`dead_soldier_attacks`),
and nothing else is (`dead_soldiers_rest`), unless its life is brought down so far that it
wraps around. -/
namespace ParSweet.ToySoldiersSim.Calls
open Concurrent

variable {τ : Type*} {G : Grid} {hash : Place G → ℤ} {idCounter : BitVec 32} {int : ℤ → ℤ} {k : ℕ} {me : τ}
  {st st' : Board τ G} {l l' : Local G} {d : Direction}

/-- The next step of a call is one in which `run()` of soldier `k` moves it or attacks another. -/
def Performs (k : ℕ) (l : Local G) : Prop :=
  l.caller = .run k .move ∧ (∃ w, l.pc = .swap w) ∨ l.caller = .run k .attack ∧ ∃ j, j ≠ k ∧ l.pc = .decrement j

/-- Where `run()` has found that its soldier lives, up to where it moves or attacks. -/
def RunAt.Acts : RunAt → Pc G → Prop
  | .life, .returned (.life n) => 0 < n
  | .position, _ | .look _ _ _, _ => True
  | .attack, .decrementLock _ | .attack, .decrement _ => True
  | .move, .moveLock _ | .move, .choose _ | .move, .swapFirst _ | .move, .swapSecond _ | .move, .swap _ => True
  | _, _ => False

def Acting (k : ℕ) (l : Local G) : Prop := ∃ a, l.caller = .run k a ∧ a.Acts l.pc

theorem Acting.eq {i : ℕ} {a : RunAt} {pc : Pc G} (h : Acting k ⟨.run i a, pc⟩) : k = i := by
  obtain ⟨_, hcaller, _⟩ := h
  cases hcaller
  rfl

theorem not_acting_outside {pc : Pc G} : ¬ Acting k ⟨.outside, pc⟩ := by
  intro ⟨_, hcaller, _⟩
  cases hcaller

theorem Performs.acting (h : Performs k l) : Acting k l := by
  rcases h with ⟨hcaller, w, hpc⟩ | ⟨hcaller, j, _, hpc⟩
  · refine ⟨.move, hcaller, ?_⟩
    rw [hpc]
    trivial
  · refine ⟨.attack, hcaller, ?_⟩
    rw [hpc]
    trivial

/-! ### The steps -/

/-- `run()` asks for the life of its own soldier. -/
def Own (l : Local G) : Prop :=
  ∀ i, l.caller = .run i .life → l.pc = .lifeLock i ∨ l.pc = .lifeReturn i ∨ ∃ res, l.pc = .returned res

/-- A method that `run()` has called returns to it. -/
theorem caller_of_step (hstep : step int hash me st l d = some (st', l')) :
    (∃ op, l.pc = .begin op ∧ l' = op.entry) ∨
      (∃ i a res, l = ⟨.run i a, .returned res⟩ ∧ l' = resume G st.equals i a res) ∨
      l'.caller = l.caller ∧ ∀ a : RunAt, a ≠ .life → a.Acts l'.pc → a.Acts l.pc := by
  obtain ⟨caller, pc⟩ := l
  cases pc with
  | begin op =>
    simp only [step] at hstep
    split_ifs at hstep
    cases hstep
    exact .inl ⟨op, rfl, rfl⟩
  | returned res =>
    cases caller with
    | outside => cases hstep
    | run i a =>
      cases hstep
      exact .inr (.inl ⟨i, a, res, rfl, rfl⟩)
  | addLock r c | setLock t o next | decrementLock k | countLock k | lifeLock k | occupantLock t | positionLock k
  | moveLock m | deployLock | wake | swapFirst w | swapSecond w =>
    obtain ⟨_, _, heq⟩ := Option.map_eq_some_iff.mp hstep
    cases heq
    refine .inr (.inr ⟨rfl, fun a ha h => ?_⟩)
    cases a <;> trivial
  | construct r c | clear k | choose m =>
    simp only [step] at hstep
    split at hstep
    all_goals
      cases hstep
      refine .inr (.inr ⟨rfl, fun a ha h => ?_⟩)
      cases a <;> trivial
  | decrement j | deployTest =>
    cases hstep
    refine .inr (.inr ⟨rfl, fun a ha h => ?_⟩)
    split_ifs at h <;> cases a <;> trivial
  | setUnlock t next =>
    cases hstep
    refine .inr (.inr ⟨rfl, fun a ha h => ?_⟩)
    cases next <;> cases a <;> trivial
  | _ =>
    cases hstep
    refine .inr (.inr ⟨rfl, fun a ha h => ?_⟩)
    cases a <;> trivial

theorem caller_lookAt (i j : ℕ) (r c : ℤ) (dirs : List Direction) : (lookAt G i r c dirs).caller ≠ .run j .life :=
  lookAt_induction (P := fun l => l.caller ≠ .run j .life) i r c dirs (fun _ => by simp) (by simp) fun _ _ => by simp

theorem own_resume (equals : ℕ → ℕ → Bool) (i : ℕ) (a : RunAt) (res : Res) : Own (resume G equals i a res) := by
  intro j hj
  unfold resume at hj ⊢
  split at hj
  · split_ifs at hj
    cases hj
  · exact (caller_lookAt _ _ _ _ _ hj).elim
  · split_ifs at hj
    · exact (caller_lookAt _ _ _ _ _ hj).elim
    · cases hj
  · exact (caller_lookAt _ _ _ _ _ hj).elim
  · cases hj
    exact .inl rfl
  · cases hj
    exact .inl rfl
  · cases hj

theorem Own.step (h : Own l) (hstep : step int hash me st l d = some (st', l')) : Own l' := by
  rcases caller_of_step hstep with ⟨op, _, rfl⟩ | ⟨i, a, res, _, rfl⟩ | ⟨hcaller, _⟩
  · intro i hi
    cases op <;> cases hi
    exact .inl rfl
  · exact own_resume _ i a res
  · intro i hi
    rw [hcaller] at hi
    obtain ⟨caller, pc⟩ := l
    rcases h i hi with hpc | hpc | ⟨res, hpc⟩
    · subst hpc
      obtain ⟨_, _, heq⟩ := Option.map_eq_some_iff.mp hstep
      cases heq
      exact .inr (.inl rfl)
    · subst hpc
      cases hstep
      exact .inr (.inr ⟨_, rfl⟩)
    · subst hpc
      cases hi
      cases hstep
      exact own_resume _ _ _ _ i ‹_›

theorem acting_lookAt {i : ℕ} {r c : ℤ} {dirs : List Direction} : Acting k (lookAt G i r c dirs) → k = i :=
  lookAt_induction (P := fun l => Acting k l → k = i) i r c dirs (fun _ => Acting.eq)
    (fun h => absurd h not_acting_outside) fun _ _ => Acting.eq

/-- `run()` goes on to move or to attack only if its soldier lives. -/
theorem acting_resume {equals : ℕ → ℕ → Bool} {i : ℕ} {a : RunAt} {res : Res} (h : Acting k (resume G equals i a res)) :
    Acting k (⟨.run i a, .returned res⟩ : Local G) := by
  unfold resume at h
  split at h
  · split_ifs at h with hlife
    · obtain rfl := h.eq
      exact ⟨.life, rfl, hlife⟩
    · exact absurd h not_acting_outside
  · obtain rfl := acting_lookAt h
    exact ⟨.position, rfl, trivial⟩
  · split_ifs at h
    · obtain rfl := acting_lookAt h
      exact ⟨_, rfl, trivial⟩
    · obtain rfl := h.eq
      exact ⟨_, rfl, trivial⟩
  · obtain rfl := acting_lookAt h
    exact ⟨_, rfl, trivial⟩
  · obtain ⟨_, hcaller, hacts⟩ := h
    cases hcaller
    exact hacts.elim
  · obtain ⟨_, hcaller, hacts⟩ := h
    cases hcaller
    exact hacts.elim
  · exact absurd h not_acting_outside

/-- **Nobody starts to act for a soldier without life.** -/
theorem Acting.of_step (hown : Own l) (hstep : step int hash me st l d = some (st', l')) (h : Acting k l') :
    Acting k l ∨ 0 < st'.roll.life k := by
  rcases caller_of_step hstep with ⟨op, _, rfl⟩ | ⟨i, a, res, rfl, rfl⟩ | ⟨hcaller, hacts⟩
  · cases op with
    | run i =>
      obtain ⟨_, hcaller, hacts⟩ := h
      cases hcaller
      exact hacts.elim
    | _ => exact absurd h not_acting_outside
  · exact .inl (acting_resume h)
  · obtain ⟨a, ha, h⟩ := h
    rw [hcaller] at ha
    by_cases hlife : a = .life
    · subst hlife
      obtain ⟨caller, pc⟩ := l
      rcases hown k ha with hpc | hpc | ⟨res, hpc⟩
      · subst hpc
        obtain ⟨_, _, heq⟩ := Option.map_eq_some_iff.mp hstep
        cases heq
        exact h.elim
      · subst hpc
        cases hstep
        exact .inr h
      · subst hpc
        cases ha
        cases hstep
        exact .inl (acting_resume ⟨_, ‹_›, h⟩)
    · exact .inl ⟨a, ha, hacts a hlife h⟩

/-- Nobody comes back to life. -/
theorem dead_of_step (hstep : step int hash me st l d = some (st', l')) (hk : st.dead k = true) :
    st'.dead k = true := by
  obtain ⟨caller, pc⟩ := l
  cases pc with
  | addLock r c | setLock t o next | decrementLock k | countLock k | lifeLock k | occupantLock t | positionLock k
  | moveLock m | deployLock | wake | swapFirst w | swapSecond w =>
    obtain ⟨_, ha, heq⟩ := Option.map_eq_some_iff.mp hstep
    cases heq
    obtain ⟨_, rfl⟩ := acquire_eq_some.mp ha
    exact hk
  | begin op =>
    simp only [step] at hstep
    split_ifs at hstep
    cases hstep
    exact hk
  | construct r c | clear k | choose m =>
    simp only [step] at hstep
    split at hstep <;> cases hstep <;> exact hk
  | returned res =>
    cases caller with
    | outside => cases hstep
    | run i a =>
      cases hstep
      exact hk
  | decrementReturn j =>
    cases hstep
    simp only [Board.decrementReturn]
    split_ifs
    · simp [Function.update_apply, hk]
    · exact hk
  | _ =>
    cases hstep
    exact hk

/-! ### Runs -/

variable [DecidableEq τ] {s s' : Implementation.State τ (Board τ G) (Local G)}
  {es : List (Concurrent.Event τ (Op G) Res)}

/-- The `decrementLife()` that has brought a soldier's life to 0 does not return while a thread acts
for that soldier. -/
def Spares (s s' : Implementation.State τ (Board τ G) (Local G)) : Prop :=
  ∀ k, s.store.dead k = false → s'.store.dead k = true → ∀ t l, s.pc t = some l → ¬ Acting k l

/-- What is asked of a step: it spares whoever falls, and no `--life` wraps around. -/
def Keeps (int : ℤ → ℤ) (s s' : Implementation.State τ (Board τ G) (Local G)) : Prop := Spares s s' ∧ Lessens int s s'

/-- Once a soldier is dead, its `run()` neither moves it nor attacks anybody. -/
def DeadRest (S : System (Implementation.State τ (Board τ G) (Local G)) (Concurrent.Event τ (Op G) Res)) : Prop :=
  ∀ k s es s', S.Reachable s → s.store.dead k = true → S.Path s es s' → ∀ t l, s'.pc t = some l → ¬ Performs k l

theorem dead_of_path (h : (simulation τ G hash idCounter int).system.Path s es s') (hk : s.store.dead k = true) :
    s'.store.dead k = true := by
  refine h.invariant (I := fun s => s.store.dead k = true) (fun s e s' hk hstep => ?_) hk
  rcases Implementation.step_cases hstep with
    ⟨t, op, ht, -, rfl⟩ | ⟨t, l, d, st, l', ht, hst, -, rfl⟩ | ⟨t, l, res, ht, hres, -, rfl⟩
  · exact hk
  · exact dead_of_step hst hk
  · exact hk

/-- Nobody acts for a dead soldier. -/
structure Rest (s : Implementation.State τ (Board τ G) (Local G)) : Prop where
  own : ∀ t l, s.pc t = some l → Own l
  rest : ∀ k, s.store.dead k = true → ∀ t l, s.pc t = some l → ¬ Acting k l

/-- A call begins or ends. -/
theorem Rest.update (h : Rest s) {t : τ} {p : Option (Local G)} (hp : ∀ l, p = some l → l.caller = .outside) :
    Rest {s with pc := Function.update s.pc t p} where
  own := Implementation.forall_update (fun l hl i hi => by rw [hp l hl] at hi; cases hi) fun u l _ hu => h.own u l hu
  rest := fun k hk => Implementation.forall_update (fun l hl ⟨a, ha, _⟩ => by rw [hp l hl] at ha; cases ha)
    fun u l _ hu => h.rest k hk u l hu

theorem Rest.step (h : Rest s) {t : τ} (ht : s.pc t = some l) (hstep : step int hash t s.store l d = some (st, l'))
    (hspares : Spares s ⟨st, Function.update s.pc t (some l')⟩) (hlife : ∀ k, st.dead k = true → st.roll.life k ≤ 0) :
    Rest ⟨st, Function.update s.pc t (some l')⟩ where
  own := Implementation.forall_update (fun k hk => Option.some.inj hk ▸ (h.own t l ht).step hstep)
    fun u k _ hu => h.own u k hu
  rest := fun k hk => by
    -- whoever has just fallen nobody has been acting for
    have hbefore : ∀ u l, s.pc u = some l → ¬ Acting k l := by
      cases hdead : s.store.dead k with
      | false => exact hspares k hdead hk
      | true => exact h.rest k hdead
    refine Implementation.forall_update (fun l₁ hl₁ hacting => ?_) fun u l₁ _ hu => hbefore u l₁ hu
    obtain rfl := Option.some.inj hl₁
    rcases hacting.of_step (h.own t l ht) hstep with hl | hpos
    · exact hbefore t l ht hl
    · exact absurd (hlife k hk) hpos.not_ge

theorem rest_of_reachable (hs : ((simulation τ G hash idCounter int).system.along (Keeps int)).Reachable s) :
    Rest s := by
  refine hs.invariant_of (I := Rest) (fun _ h => h) ⟨fun _ _ ht => (by cases ht), fun _ _ _ _ ht => (by cases ht)⟩
    fun s e s' hs h hkeeps => ?_
  have hinv : Inv s' := inv_of_reachable ((hs.path (.single hkeeps)).along_imp fun _ _ => And.right)
  obtain ⟨hstep, hspares, _⟩ := hkeeps
  rcases Implementation.step_cases hstep with
    ⟨t, op, ht, -, rfl⟩ | ⟨t, l, d, st, l', ht, hst, -, rfl⟩ | ⟨t, l, res, ht, hres, -, rfl⟩
  · exact h.update fun l hl => Option.some.inj hl ▸ rfl
  · exact h.step ht hst hspares fun k hk => (hinv.dead k hk).2
  · exact h.update fun l hl => by cases hl

/-- **A dead soldier does nothing** in a run in which nobody has been acting for it when it fell and
no life wraps around. -/
theorem dead_soldiers_rest (τ : Type*) [DecidableEq τ] (hash : Place G → ℤ) (idCounter : BitVec 32) :
    DeadRest ((simulation τ G hash idCounter int32).system.along (Keeps int32)) := by
  intro k s es s' hs hk hpath t l ht hperforms
  have hk' : s'.store.dead k = true := dead_of_path hpath.of_along hk
  exact (rest_of_reachable (hs.path hpath)).rest k hk' t l ht hperforms.acting

/-- Steps with which nobody falls spare everybody. -/
theorem path_spares (h : ((simulation τ G hash idCounter int).system.along (Lessens int)).Path s es s')
    (hdead : ∀ k, s'.store.dead k = true → s.store.dead k = true) :
    ((simulation τ G hash idCounter int).system.along (Keeps int)).Path s es s' := by
  induction h with
  | refl => exact .refl
  | @step es t e u hpath hstep ih =>
    have hkeep : ∀ k, t.store.dead k = true → u.store.dead k = true := fun k => dead_of_path (.single hstep.1)
    refine (ih fun k hk => hdead k (hkeep k hk)).step ⟨hstep.1, fun k halive hk => ?_, hstep.2⟩
    rw [dead_of_path hpath.of_along (hdead k hk)] at halive
    cases halive

/-- A `--life` that is ahead does not wrap around. -/
def Pc.mild (life : ℕ → ℤ) : Pc G → Bool
  | .decrement k => int32 (life k - 1) = life k - 1
  | _ => true

/-- No thread stands before a `--life` that wraps around. -/
def Mild (s : Implementation.State (Fin 2) (Board (Fin 2) G) (Local G)) : Prop :=
  ∀ t, (s.pc t).all (fun l => l.pc.mild s.store.roll.life) = true

instance (s : Implementation.State (Fin 2) (Board (Fin 2) G) (Local G)) : Decidable (Mild s) :=
  inferInstanceAs (Decidable (∀ t, (s.pc t).all (fun l => l.pc.mild s.store.roll.life) = true))

/-- With no thread before such a `--life`, none is carried out. -/
theorem Mild.lessens {s s' : Implementation.State (Fin 2) (Board (Fin 2) G) (Local G)} (h : Mild s) :
    Lessens int32 s s' := by
  intro t l k ht hpc _
  have hmild := h t
  rw [ht] at hmild
  simpa [hpc, Pc.mild] using hmild

/-- Java's `int`, and a thread for each of two soldiers. -/
abbrev duel : Implementation (Fin 2) (Op ⟨1, 2⟩) Res (Board (Fin 2) ⟨1, 2⟩) (Local ⟨1, 2⟩) Direction :=
  twoTiles (Fin 2) int32

/-- Steps that are carried out one after the other between mild states. -/
theorem path_lessens {s s' : Implementation.State (Fin 2) (Board (Fin 2) ⟨1, 2⟩) (Local ⟨1, 2⟩)}
    {as : List (Implementation.Action (Fin 2) (Op ⟨1, 2⟩) Direction)}
    {es : List (Concurrent.Event (Fin 2) (Op ⟨1, 2⟩) Res)} (hs : Mild s)
    (h : (duel.machine.within Mild).exec s as = some (es, s')) :
    (duel.system.along (Lessens int32)).Path s es s' ∧ Mild s' := by
  have hpath := Machine.exec_path h
  rw [Machine.system_within] at hpath
  exact hpath.along_of_within (fun _ _ hmild => hmild.lessens) hs

/-- Two soldiers side by side. -/
def placed : List (Implementation.Action (Fin 2) (Op ⟨1, 2⟩) Direction) :=
  .call 0 (.addSoldier 0 0) :: List.replicate 8 (.run 0 .NORTH) ++ .ret 0 :: .call 0 (.addSoldier 0 1) ::
    List.replicate 8 (.run 0 .NORTH) ++ [.ret 0]

/-- Soldier 1 strikes soldier 0 down, and the thread that is to run that one finds out. -/
theorem dead_soldiers_rest_fallen :
    ∃ s s' : Implementation.State (Fin 2) (Board (Fin 2) ⟨1, 2⟩) (Local ⟨1, 2⟩), s.store.dead 0 = true ∧
      s'.pc 0 = some ⟨.run 0 .life, .returned (.life 0)⟩ ∧ ∀ t l, s'.pc t = some l → ¬ Performs 0 l := by
  have hexec : ∃ es s s' fs s'', (duel.machine.within Mild).exec duel.machine.initial (placed ++ .call 1 (.run 1) ::
      List.replicate 33 (.run 1 .NORTH)) = some (es, s) ∧
      duel.machine.next s (.run 1 .NORTH) = some (none, s') ∧ Mild s' ∧
      (duel.machine.within Mild).exec s' (.call 0 (.run 0) :: List.replicate 3 (.run 0 .NORTH)) = some (fs, s'') ∧
      (∀ k, s.store.dead k = true → duel.store.dead k = true) ∧ s.pc 0 = none ∧
      s.pc 1 = some ⟨.run 1 .attack, .decrementReturn 0⟩ ∧ s'.store.dead = Function.update (fun _ => false) 0 true ∧
      s''.store.dead = s'.store.dead ∧ s''.pc 0 = some ⟨.run 0 .life, .returned (.life 0)⟩ :=
    ⟨_, _, _, _, _, rfl, rfl, Fin.forall_fin_two.mpr ⟨rfl, rfl⟩, rfl, fun _ hk => hk, rfl, rfl, rfl, rfl, rfl⟩
  obtain ⟨es, s, s', fs, s'', hbefore, hfall, hmild', hafter, halive, hpc₀, hpc₁, hdead, hdead', hpc⟩ := hexec
  have hspares : Spares s s' := by
    intro k _ hk
    obtain rfl : k = 0 := by
      by_contra hne
      rw [hdead, Function.update_of_ne hne] at hk
      cases hk
    refine Fin.forall_fin_two.mpr ⟨fun l hl => ?_, fun l hl => ?_⟩
    · rw [hpc₀] at hl
      cases hl
    · rw [hpc₁] at hl
      cases hl
      intro ⟨_, hcaller, _⟩
      cases hcaller
  obtain ⟨hpath₀, hmild⟩ := path_lessens (fun _ => rfl) hbefore
  have hreach : (duel.system.along (Keeps int32)).Reachable s' :=
    ⟨_, (path_spares hpath₀ halive).step (l := none) ⟨⟨.run 1 .NORTH, hfall⟩, hspares, hmild.lessens⟩⟩
  have hpath : (duel.system.along (Keeps int32)).Path s' fs s'' :=
    path_spares (path_lessens hmild' hafter).1 fun k hk => by rwa [hdead'] at hk
  have hfallen : s'.store.dead 0 = true := by rw [hdead, Function.update_self]
  exact ⟨s', s'', hfallen, hpc, dead_soldiers_rest (Fin 2) _ 0 0 s' fs s'' hreach hfallen hpath⟩

/-- Soldier 0 has seen soldier 1 when that one strikes it down, and strikes back. -/
theorem dead_soldier_attacks : ¬ DeadRest duel.system := by
  intro h
  have hexec : ∃ es s fs s', duel.machine.exec duel.machine.initial (placed ++ .call 0 (.run 0) ::
      List.replicate 10 (.run 0 .NORTH) ++ .call 1 (.run 1) :: List.replicate 34 (.run 1 .NORTH)) = some (es, s) ∧
      duel.machine.exec s [.run 0 .NORTH] = some (fs, s') ∧ s.store.dead 0 = true ∧
      s'.pc 0 = some ⟨.run 0 .attack, .decrement 1⟩ := ⟨_, _, _, _, rfl, rfl, rfl, rfl⟩
  obtain ⟨es, s, fs, s', hbefore, hafter, hdead, hpc⟩ := hexec
  refine h 0 s fs s' ⟨es, Machine.exec_path hbefore⟩ hdead (Machine.exec_path hafter) 0 _ hpc ?_
  exact .inr ⟨rfl, 1, Nat.one_ne_zero, rfl⟩

end ParSweet.ToySoldiersSim.Calls
