import Mathlib.Data.List.Basic
import Mathlib.Logic.Function.Basic

/-! Systems that take one atomic step at a time.

A step may show an event. A `Path` is any finite sequence of steps together with
the events it shows, oldest first; a `Run` is a path from the initial state. Two
rules carry everything that is proved about runs: an invariant that every step
preserves holds in every state a run reaches (`Run.invariant`), and a relation
that every step preserves, matching events one for one, turns a run of one
system into a run of another (`Simulation.run`). -/
namespace ParSweet.Concurrent

/-- An initial state and atomic steps, each of which shows at most one event. -/
structure System (σ ε : Type*) where
  initial : σ
  step : σ → Option ε → σ → Prop

namespace System
variable {σ ε α : Type*}

/-- Finitely many steps, with the events they show, oldest first. -/
inductive Path (S : System σ ε) (s : σ) : List ε → σ → Prop where
  | refl : Path S s [] s
  | step {es t l u} : Path S s es t → S.step t l u → Path S s (es ++ l.toList) u

/-- The runs from the initial state. -/
def Run (S : System σ ε) (es : List ε) (s : σ) : Prop := S.Path S.initial es s

/-- The states some run ends in. -/
def Reachable (S : System σ ε) (s : σ) : Prop := ∃ es, S.Run es s

variable {S : System σ ε} {s t u : σ} {es fs : List ε}

theorem Path.single {l : Option ε} (h : S.step s l t) : S.Path s l.toList t := by
  simpa using Path.refl.step h

theorem Path.trans (h : S.Path s es t) (h' : S.Path t fs u) : S.Path s (es ++ fs) u := by
  induction h' with
  | refl => simpa using h
  | step _ hs ih => simpa only [List.append_assoc] using ih.step hs

/-- What a path shows first, it has shown on the way. -/
theorem Path.split (h : S.Path s (es ++ fs) t) : ∃ u, S.Path s es u ∧ S.Path u fs t := by
  generalize hgs : es ++ fs = gs at h
  induction h generalizing fs with
  | refl =>
    obtain ⟨rfl, rfl⟩ := List.append_eq_nil_iff.mp hgs
    exact ⟨s, .refl, .refl⟩
  | @step gs t l v hpath hstep ih =>
    cases l with
    | none =>
      obtain ⟨u, hu, hv⟩ := ih (hgs.trans (List.append_nil gs))
      exact ⟨u, hu, by simpa using hv.step hstep⟩
    | some e =>
      rcases List.eq_nil_or_concat fs with rfl | ⟨fs', e', rfl⟩
      · rw [List.append_nil] at hgs
        exact ⟨v, hgs ▸ hpath.step hstep, .refl⟩
      · rw [List.concat_eq_append, ← List.append_assoc] at hgs
        obtain ⟨rfl, he⟩ := List.append_inj' hgs rfl
        obtain rfl : e' = e := (List.cons.inj he).1
        obtain ⟨u, hu, hv⟩ := ih rfl
        exact ⟨u, hu, by simpa using hv.step hstep⟩

/-- A path that shows one event shows it in one of its steps. -/
theorem Path.exists_step {e : ε} (h : S.Path s [e] t) : ∃ u v, S.Path s [] u ∧ S.step u (some e) v ∧ S.Path v [] t := by
  generalize hes : [e] = es at h
  induction h with
  | refl => cases hes
  | @step es u l t hpath hlast ih =>
    cases l with
    | none =>
      obtain ⟨v, w, hv, hstep, hw⟩ := ih (hes.trans (List.append_nil es))
      exact ⟨v, w, hv, hstep, hw.step hlast⟩
    | some e' =>
      obtain ⟨hnil, he⟩ := List.append_inj' (show [] ++ [e] = es ++ [e'] from hes) rfl
      subst hnil
      obtain rfl : e = e' := (List.cons.inj he).1
      exact ⟨u, t, hpath, hlast, .refl⟩

/-- The invariant rule for steps that show nothing. -/
theorem Path.silent {I : σ → Prop} (hstep : ∀ s t, I s → S.step s none t → I t) (h : S.Path s [] t) (hs : I s) :
    I t := by
  generalize hes : ([] : List ε) = es at h
  induction h with
  | refl => exact hs
  | @step es u l t _ hlast ih =>
    obtain ⟨hnil, hl⟩ := List.append_eq_nil_iff.mp hes.symm
    cases l with
    | none => exact hstep u t (ih hnil.symm) hlast
    | some e => cases hl

/-- A path whose every step preserves `I` preserves `I`. -/
theorem Path.invariant {I : σ → Prop} (hstep : ∀ s l t, I s → S.step s l t → I t)
    (h : S.Path s es t) (hs : I s) : I t := by
  induction h with
  | refl => exact hs
  | step _ hstep' ih => exact hstep _ _ _ ih hstep'

/-- **The invariant rule**: true at the start and preserved by every step, `I`
holds at the end of every run. -/
theorem Run.invariant {I : σ → Prop} (h0 : I S.initial) (hstep : ∀ s l t, I s → S.step s l t → I t)
    (h : S.Run es s) : I s :=
  Path.invariant hstep h h0

/-- The invariant rule for what a state has to do with the events that led to it. -/
theorem Run.invariant_events {I : List ε → σ → Prop} (h0 : I [] S.initial)
    (hstep : ∀ es s l t, I es s → S.step s l t → I (es ++ l.toList) t) (h : S.Run es s) : I es s := by
  induction h with
  | refl => exact h0
  | step _ hs ih => exact hstep _ _ _ _ ih hs

theorem Reachable.invariant {I : σ → Prop} (h0 : I S.initial)
    (hstep : ∀ s l t, I s → S.step s l t → I t) (h : S.Reachable s) : I s :=
  let ⟨_, hr⟩ := h
  hr.invariant h0 hstep

theorem Reachable.path (h : S.Reachable s) (h' : S.Path s es t) : S.Reachable t :=
  let ⟨_, hr⟩ := h
  ⟨_, Path.trans hr h'⟩

/-- The invariant rule for a property that the steps preserve between states already
known to meet `J`. -/
theorem Reachable.invariant_of {I J : σ → Prop} (hJ : ∀ s, S.Reachable s → J s) (h0 : I S.initial)
    (hstep : ∀ s l t, J s → I s → S.step s l t → I t) (h : S.Reachable s) : I s := by
  obtain ⟨es, h⟩ := h
  have key : S.Reachable s ∧ I s := by
    refine h.invariant (I := fun s => S.Reachable s ∧ I s) ⟨⟨[], .refl⟩, h0⟩ ?_
    rintro s l t ⟨hr, hi⟩ ht
    exact ⟨hr.path (.single ht), hstep s l t (hJ s hr) hi ht⟩
  exact key.2

/-- The same system confined to the states that meet `P`: a step into any other
state is not taken. -/
def within (S : System σ ε) (P : σ → Prop) : System σ ε where
  initial := S.initial
  step := fun s l t => S.step s l t ∧ P t

/-- The same system confined to the steps that meet `C`. -/
def guard (S : System σ ε) (C : σ → Option ε → Prop) : System σ ε where
  initial := S.initial
  step := fun s l t => S.step s l t ∧ C s l

/-- The same system confined to the steps between states that `C` relates. -/
def along (S : System σ ε) (C : σ → σ → Prop) : System σ ε where
  initial := S.initial
  step := fun s l t => S.step s l t ∧ C s t

theorem Path.of_along {C : σ → σ → Prop} (h : (S.along C).Path s es t) : S.Path s es t := by
  induction h with
  | refl => exact .refl
  | step _ hs ih => exact ih.step hs.1

theorem Reachable.of_along {C : σ → σ → Prop} (h : (S.along C).Reachable s) : S.Reachable s :=
  let ⟨es, hr⟩ := h
  ⟨es, Path.of_along hr⟩

/-- Where every step is one along which `C` holds, nothing is given up. -/
theorem Reachable.along_of {C : σ → σ → Prop} (hC : ∀ s l t, S.step s l t → C s t) (h : S.Reachable s) :
    (S.along C).Reachable s := by
  obtain ⟨es, h⟩ := h
  induction h with
  | refl => exact ⟨[], .refl⟩
  | step _ hs ih => exact ih.path (.single ⟨hs, hC _ _ _ hs⟩)

theorem Path.along_imp {C D : σ → σ → Prop} (hCD : ∀ s t, C s t → D s t) (h : (S.along C).Path s es t) :
    (S.along D).Path s es t := by
  induction h with
  | refl => exact .refl
  | step _ hs ih => exact ih.step ⟨hs.1, hCD _ _ hs.2⟩

theorem Reachable.along_imp {C D : σ → σ → Prop} (hCD : ∀ s t, C s t → D s t) (h : (S.along C).Reachable s) :
    (S.along D).Reachable s :=
  let ⟨es, hr⟩ := h
  ⟨es, Path.along_imp hCD hr⟩

/-- Every step between states that meet `P` is one along which `C` holds. -/
theorem Path.along_of_within {P : σ → Prop} {C : σ → σ → Prop} (hC : ∀ s t, P s → C s t) (hs : P s)
    (h : (S.within P).Path s es t) : (S.along C).Path s es t ∧ P t := by
  induction h with
  | refl => exact ⟨.refl, hs⟩
  | step _ hstep ih => exact ⟨ih.1.step ⟨hstep.1, hC _ _ ih.2⟩, hstep.2⟩

/-- Every step of `S` is matched by steps of `A` that show the same events. -/
structure Simulation (S : System σ ε) (A : System α ε) where
  Rel : σ → α → Prop
  initial : Rel S.initial A.initial
  step : ∀ s a l t, Rel s a → S.step s l t → ∃ b, A.Path a l.toList b ∧ Rel t b

variable {A : System α ε}

/-- What is matched step by step is matched path by path. -/
theorem Simulation.path (sim : Simulation S A) {a : α} (h : S.Path s es t) (hs : sim.Rel s a) :
    ∃ b, A.Path a es b ∧ sim.Rel t b := by
  induction h with
  | refl => exact ⟨a, .refl, hs⟩
  | step _ hstep ih =>
    obtain ⟨b, hpath, hrel⟩ := ih
    obtain ⟨c, hpath', hrel'⟩ := sim.step _ b _ _ hrel hstep
    exact ⟨c, Path.trans hpath hpath', hrel'⟩

/-- **The simulation rule**: every run of the simulated system is, event for
event, a run of the other, ending in a related state. -/
theorem Simulation.run (sim : Simulation S A) (h : S.Run es s) : ∃ a, A.Run es a ∧ sim.Rel s a :=
  sim.path h sim.initial

theorem Simulation.reachable (sim : Simulation S A) (h : S.Reachable s) : ∃ a, A.Reachable a ∧ sim.Rel s a :=
  let ⟨es, hr⟩ := h
  let ⟨a, ha, hrel⟩ := sim.run hr
  ⟨a, ⟨es, ha⟩, hrel⟩

/-- A simulation may rely on everything that is known of the states it relates to. -/
def Simulation.ofReachable (Rel : σ → α → Prop) (initial : Rel S.initial A.initial)
    (step : ∀ s a l t, A.Reachable a → Rel s a → S.step s l t → ∃ b, A.Path a l.toList b ∧ Rel t b) :
    Simulation S A where
  Rel := fun s a => A.Reachable a ∧ Rel s a
  initial := ⟨⟨[], .refl⟩, initial⟩
  step := fun s a l t ⟨hr, hrel⟩ hstep =>
    let ⟨b, hpath, hrel'⟩ := step s a l t hr hrel hstep
    ⟨b, hpath, hr.path hpath, hrel'⟩

/-- The simulation rule where it holds up to some limit only: `P` is a condition on the
events shown that holds of the beginning of whatever it holds of. -/
theorem Run.simulate {P : List ε → Prop} (hP : ∀ es fs, P (es ++ fs) → P es) (Rel : σ → α → Prop)
    (initial : Rel S.initial A.initial)
    (step : ∀ es s a l t, P (es ++ l.toList) → A.Run es a → Rel s a → S.step s l t →
      ∃ b, A.Path a l.toList b ∧ Rel t b)
    (h : S.Run es s) (hes : P es) : ∃ a, A.Run es a ∧ Rel s a := by
  induction h with
  | refl => exact ⟨A.initial, .refl, initial⟩
  | @step es t l u _ hstep ih =>
    obtain ⟨a, hrun, hrel⟩ := ih (hP es _ hes)
    obtain ⟨b, hpath, hrel'⟩ := step es t a l u hes hrun hrel hstep
    exact ⟨b, Path.trans hrun hpath, hrel'⟩

/-- Simulations compose. -/
def Simulation.comp {β : Type*} {B : System β ε} (sim : Simulation S A) (sim' : Simulation A B) :
    Simulation S B where
  Rel := fun s b => ∃ a, sim.Rel s a ∧ sim'.Rel a b
  initial := ⟨A.initial, sim.initial, sim'.initial⟩
  step := by
    rintro s b l t ⟨a, hs, ha⟩ hstep
    obtain ⟨a', hpath, hs'⟩ := sim.step s a l t hs hstep
    obtain ⟨b', hpath', ha'⟩ := sim'.path hpath ha
    exact ⟨b', hpath', a', hs', ha'⟩

end System

/-- A system given by a function: each action, chosen from outside, determines
the step or is not possible. -/
structure Machine (σ α ε : Type*) where
  initial : σ
  next : σ → α → Option (Option ε × σ)

namespace Machine
variable {σ α ε : Type*}

def system (M : Machine σ α ε) : System σ ε where
  initial := M.initial
  step := fun s l t => ∃ a, M.next s a = some (l, t)

/-- Taking a list of actions one after the other. -/
def exec (M : Machine σ α ε) (s : σ) : List α → Option (List ε × σ)
  | [] => some ([], s)
  | a :: rest =>
    match M.next s a with
    | none => none
    | some (l, t) => (M.exec t rest).map fun p => (l.toList ++ p.1, p.2)

/-- A list of actions that can be taken is a path. -/
theorem exec_path {M : Machine σ α ε} {s t : σ} {as : List α} {es : List ε}
    (h : M.exec s as = some (es, t)) : M.system.Path s es t := by
  induction as generalizing s es with
  | nil =>
    simp only [exec, Option.some.injEq, Prod.mk.injEq] at h
    obtain ⟨rfl, rfl⟩ := h
    exact .refl
  | cons a rest ih =>
    rw [exec] at h
    cases hn : M.next s a with
    | none => rw [hn] at h; cases h
    | some p =>
      obtain ⟨l, s'⟩ := p
      rw [hn] at h
      obtain ⟨q, hq, he⟩ := Option.map_eq_some_iff.mp h
      cases he
      exact (System.Path.single (S := M.system) ⟨a, hn⟩).trans (ih hq)

/-- The events that a list of actions shows are those of a run. -/
theorem exec_run {M : Machine σ α ε} (as : List α) (es : List ε)
    (h : (M.exec M.initial as).map Prod.fst = some es) : ∃ s, M.system.Run es s := by
  obtain ⟨p, hexec, rfl⟩ := Option.map_eq_some_iff.mp h
  exact ⟨p.2, exec_path hexec⟩

/-- A property of the state that a list of actions leads to is one of a reachable state. -/
theorem exec_reachable {M : Machine σ α ε} {P : σ → Prop} [DecidablePred P] (as : List α)
    (h : (M.exec M.initial as).any (fun p => decide (P p.2)) = true) : ∃ s, M.system.Reachable s ∧ P s := by
  cases hexec : M.exec M.initial as with
  | none => simp [hexec] at h
  | some p => exact ⟨p.2, ⟨p.1, exec_path hexec⟩, by simpa [hexec] using h⟩

/-- Taking the actions, some step meets `B`. -/
def Meets (M : Machine σ α ε) (B : σ → α → σ → Prop) (s : σ) (as : List α) : Prop :=
  ∃ before a after es t l u, as = before ++ a :: after ∧ M.exec s before = some (es, t) ∧
    M.next t a = some (l, u) ∧ B t a u

/-- The invariant rule for a property that only steps that meet `B` break. -/
theorem exec_invariant {M : Machine σ α ε} {B : σ → α → σ → Prop} {I : σ → Prop} {s t : σ} {as : List α}
    {es : List ε} (hstep : ∀ s a l t, I s → M.next s a = some (l, t) → B s a t ∨ I t) (hs : I s)
    (h : M.exec s as = some (es, t)) : M.Meets B s as ∨ I t := by
  induction as generalizing s es with
  | nil =>
    simp only [exec, Option.some.injEq, Prod.mk.injEq] at h
    obtain ⟨rfl, rfl⟩ := h
    exact .inr hs
  | cons a rest ih =>
    rw [exec] at h
    cases hn : M.next s a with
    | none => rw [hn] at h; cases h
    | some p =>
      obtain ⟨l, u⟩ := p
      rw [hn] at h
      obtain ⟨q, hq, he⟩ := Option.map_eq_some_iff.mp h
      cases he
      rcases hstep s a l u hs hn with hb | hu
      · exact .inl ⟨[], a, rest, [], s, l, u, rfl, rfl, hn, hb⟩
      · refine (ih hu hq).imp_left ?_
        intro ⟨before, b, after, fs, v, k, w, hrest, hexec, hnext, hb⟩
        refine ⟨a :: before, b, after, l.toList ++ fs, v, k, w, by rw [hrest, List.cons_append], ?_, hnext, hb⟩
        rw [exec, hn]
        exact Option.map_eq_some_iff.mpr ⟨_, hexec, rfl⟩

/-- The same machine confined to the states that meet `P`. -/
def within (M : Machine σ α ε) (P : σ → Prop) [DecidablePred P] : Machine σ α ε where
  initial := M.initial
  next := fun s a => (M.next s a).filter fun p => decide (P p.2)

theorem system_within (M : Machine σ α ε) (P : σ → Prop) [DecidablePred P] :
    (M.within P).system = M.system.within P := by
  simp only [system, within, System.within, System.mk.injEq, true_and]
  funext s l t
  simp [Option.filter_eq_some_iff]

/-- The same machine confined to the steps that meet `C`. -/
def guard (M : Machine σ α ε) (C : σ → Option ε → Prop) [∀ s, DecidablePred (C s)] : Machine σ α ε where
  initial := M.initial
  next := fun s a => (M.next s a).filter fun p => decide (C s p.1)

theorem system_guard (M : Machine σ α ε) (C : σ → Option ε → Prop) [∀ s, DecidablePred (C s)] :
    (M.guard C).system = M.system.guard C := by
  simp only [system, guard, System.guard, System.mk.injEq, true_and]
  funext s l t
  simp [Option.filter_eq_some_iff]

end Machine

/-! ### Participants that move one at a time -/

/-- Participants that stand in a relation two by two still do when one of them has moved on both
sides. -/
theorem update_rel {ι α β : Type*} [DecidableEq ι] {R : ι → α → β → Prop} {f : ι → α} {g : ι → β} {i : ι}
    {x : α} {y : β} (hself : R i x y) (hother : ∀ j, j ≠ i → R j (f j) (g j)) (j : ι) :
    R j (Function.update f i x j) (Function.update g i y j) := by
  by_cases hj : j = i
  · subst hj
    rwa [Function.update_self, Function.update_self]
  · rw [Function.update_of_ne hj, Function.update_of_ne hj]
    exact hother j hj

end ParSweet.Concurrent
