import Mathlib.Logic.Relation
import ParSweet.Concurrent.System

/-! Objects that are called by many threads at once, and what it means for one
to be linearizable.

An `Implementation` keeps one shared store and one local state per running call;
every local step is one atomic step on the store. Any number of threads call it,
each any sequence of operations, in any interleaving: those are the runs of
`Implementation.machine`, and what they show is the calls and the returns.

The specification is the `atomicObject` of a sequential specification: between
its call and its return every operation takes effect in one step on one shared
value, and nothing else touches the value. An implementation is `Linearizable`
when every sequence of calls and returns it shows is one the atomic object shows. -/
namespace ParSweet.Concurrent

/-- A sequential specification: `apply op a r a'` says that `op` on the value `a`
may answer `r` and leave `a'`. -/
structure Spec (Op Res A : Type*) where
  initial : A
  apply : Op → A → Res → A → Prop

/-- What a client sees. -/
inductive Event (τ Op Res : Type*) where
  | call (t : τ) (op : Op)
  | ret (t : τ) (r : Res)

/-! ### The atomic object -/

/-- Where a thread stands with its current operation. -/
inductive Status (Op Res : Type*) where
  | idle
  | pending (op : Op)
  | done (r : Res)

namespace AtomicObject
variable {τ Op Res A : Type*} [DecidableEq τ]

structure State (τ Op Res A : Type*) where
  value : A
  status : τ → Status Op Res

/-- A call, the one step in which a pending operation takes effect, and a return. -/
inductive Step (S : Spec Op Res A) :
    State τ Op Res A → Option (Event τ Op Res) → State τ Op Res A → Prop where
  | call {s t op} : s.status t = .idle →
      Step S s (some (.call t op)) {s with status := Function.update s.status t (.pending op)}
  | take {s t op r a} : s.status t = .pending op → S.apply op s.value r a →
      Step S s none ⟨a, Function.update s.status t (.done r)⟩
  | ret {s t r} : s.status t = .done r →
      Step S s (some (.ret t r)) {s with status := Function.update s.status t .idle}

/-- The atomic object of a sequential specification. -/
def system (S : Spec Op Res A) : System (State τ Op Res A) (Event τ Op Res) where
  initial := ⟨S.initial, fun _ => .idle⟩
  step := Step S

/-- While nobody else is in a call, an operation answers what it may answer on the value. -/
theorem apply_of_path {S : Spec Op Res A} {s s' : State τ Op Res A} {t : τ} {op : Op} {r : Res}
    (hidle : ∀ u, s.status u = .idle) (h : (system S).Path s ([.call t op] ++ [.ret t r]) s') :
    ∃ a, S.apply op s.value r a := by
  obtain ⟨m, hcall, hret⟩ := h.split
  obtain ⟨u, v, hu, hstep, hv⟩ := hcall.exists_step
  obtain ⟨w, x, hw, hlast, _⟩ := hret.exists_step
  -- before the call nothing can take effect ...
  have hbefore : u = s := by
    refine hu.silent (I := fun u => u = s) (fun y z hy hyz => ?_) rfl
    subst hy
    cases hyz with
    | take hp _ => rw [hidle] at hp; cases hp
  subst hbefore
  -- ... and after it only the operation can, and once
  have hafter : w = v ∨ ∃ r a, S.apply op u.value r a ∧ w.status = Function.update u.status t (.done r) := by
    have hpath := hv.trans hw
    cases hstep with
    | call _ =>
      refine hpath.silent (I := fun w => w = _ ∨ ∃ r a, S.apply op u.value r a ∧
        w.status = Function.update u.status t (.done r)) (fun y z hy hyz => ?_) (.inl rfl)
      cases hyz with
      | @take u' op' r' a hp hap =>
        rcases hy with rfl | ⟨r, a', _, hy⟩
        · by_cases hu : u' = t
          · subst hu
            obtain rfl : op = op' := by simpa using hp
            exact .inr ⟨r', a, hap, Function.update_idem ..⟩
          · simp [hu, hidle] at hp
        · rw [hy] at hp
          by_cases hu : u' = t
          · simp [hu] at hp
          · simp [hu, hidle] at hp
  cases hlast with
  | ret hdone =>
    rcases hafter with rfl | ⟨r', a, hap, hw⟩
    · cases hstep with
      | call _ => simp at hdone
    · rw [hw, Function.update_self] at hdone
      obtain rfl : r' = r := by cases hdone; rfl
      exact ⟨a, hap⟩

end AtomicObject

/-! ### Implementations -/

/-- An object's code: its store, what a call starts with, its atomic steps (`χ` is
whatever the environment may choose) and the local states in which it returns. -/
structure Implementation (τ Op Res σ loc χ : Type*) where
  store : σ
  start : Op → loc
  step : τ → σ → loc → χ → Option (σ × loc)
  result : loc → Option Res

namespace Implementation
variable {τ Op Res σ loc χ A : Type*} [DecidableEq τ]

structure State (τ σ loc : Type*) where
  store : σ
  /-- The local state of the call a thread is in, if it is in one. -/
  pc : τ → Option loc

inductive Action (τ Op χ : Type*) where
  | call (t : τ) (op : Op)
  | run (t : τ) (c : χ)
  | ret (t : τ)

def next (I : Implementation τ Op Res σ loc χ) (s : State τ σ loc) :
    Action τ Op χ → Option (Option (Event τ Op Res) × State τ σ loc)
  | .call t op =>
    match s.pc t with
    | none => some (some (.call t op), {s with pc := Function.update s.pc t (some (I.start op))})
    | some _ => none
  | .run t c =>
    match s.pc t with
    | none => none
    | some l => (I.step t s.store l c).map fun p =>
        (none, ⟨p.1, Function.update s.pc t (some p.2)⟩)
  | .ret t =>
    match s.pc t with
    | none => none
    | some l => (I.result l).map fun r =>
        (some (.ret t r), {s with pc := Function.update s.pc t none})

def machine (I : Implementation τ Op Res σ loc χ) :
    Machine (State τ σ loc) (Action τ Op χ) (Event τ Op Res) where
  initial := ⟨I.store, fun _ => none⟩
  next := I.next

def system (I : Implementation τ Op Res σ loc χ) : System (State τ σ loc) (Event τ Op Res) :=
  I.machine.system

/-- The three kinds of step, read off `next` once. -/
theorem step_cases {I : Implementation τ Op Res σ loc χ} {s s' : State τ σ loc}
    {l : Option (Event τ Op Res)} (h : I.system.step s l s') :
    (∃ t op, s.pc t = none ∧ l = some (.call t op) ∧
      s' = {s with pc := Function.update s.pc t (some (I.start op))}) ∨
    (∃ t loc c st loc', s.pc t = some loc ∧ I.step t s.store loc c = some (st, loc') ∧ l = none ∧
      s' = ⟨st, Function.update s.pc t (some loc')⟩) ∨
    (∃ t loc r, s.pc t = some loc ∧ I.result loc = some r ∧ l = some (.ret t r) ∧
      s' = {s with pc := Function.update s.pc t none}) := by
  obtain ⟨a, ha⟩ := h
  simp only [machine] at ha
  cases a with
  | call t op =>
    cases hp : s.pc t with
    | none =>
      simp only [next, hp, Option.some.injEq, Prod.mk.injEq] at ha
      exact .inl ⟨t, op, hp, ha.1.symm, ha.2.symm⟩
    | some loc => simp [next, hp] at ha
  | run t c =>
    cases hp : s.pc t with
    | none => simp [next, hp] at ha
    | some loc =>
      simp only [next, hp, Option.map_eq_some_iff, Prod.mk.injEq] at ha
      obtain ⟨⟨st, loc'⟩, hst, hl, hs⟩ := ha
      exact .inr (.inl ⟨t, loc, c, st, loc', hp, hst, hl.symm, hs.symm⟩)
  | ret t =>
    cases hp : s.pc t with
    | none => simp [next, hp] at ha
    | some loc =>
      simp only [next, hp, Option.map_eq_some_iff, Prod.mk.injEq] at ha
      obtain ⟨r, hr, hl, hs⟩ := ha
      exact .inr (.inr ⟨t, loc, r, hp, hr, hl.symm, hs.symm⟩)

section Update
variable {P : τ → loc → Prop} {pcs : τ → Option loc} {t : τ} {p : Option loc}

/-- What holds wherever a call stands still does when `t` has got to where it holds. -/
theorem forall_update (hself : ∀ l, p = some l → P t l) (hothers : ∀ u l, u ≠ t → pcs u = some l → P u l) (u : τ)
    (l : loc) (hu : Function.update pcs t p u = some l) : P u l := by
  by_cases hut : u = t
  · subst hut
    rw [Function.update_self] at hu
    exact hself l hu
  · rw [Function.update_of_ne hut] at hu
    exact hothers u l hut hu

/-- Some call stands at `P` after a step of `t` if one did before and it was not that of `t`, or still does. -/
theorem exists_update (h : ∃ u l, pcs u = some l ∧ P u l)
    (hkeep : ∀ l, pcs t = some l → P t l → ∃ l', p = some l' ∧ P t l') :
    ∃ u l, Function.update pcs t p u = some l ∧ P u l := by
  obtain ⟨u, l, hu, hl⟩ := h
  by_cases hut : u = t
  · subst hut
    obtain ⟨l', hp, hl'⟩ := hkeep l hu hl
    exact ⟨u, l', by rw [Function.update_self, hp], hl'⟩
  · exact ⟨u, l, by rw [Function.update_of_ne hut, hu], hl⟩

end Update

/-! What the calls of a run are about. -/

section About
variable {I J : Implementation τ Op Res σ loc χ} {Own : τ → Op → Prop} {Asks : τ → loc → Prop} {s s' : State τ σ loc}

/-- `Asks` holds of a call that has just been made if the operation meets `Own`, and stays true of it. -/
structure About (I : Implementation τ Op Res σ loc χ) (Own : τ → Op → Prop) (Asks : τ → loc → Prop) : Prop where
  start : ∀ t op, Own t op → Asks t (I.start op)
  step : ∀ t st l c st' l', Asks t l → I.step t st l c = some (st', l') → Asks t l'

theorem About.system_step {e : Option (Event τ Op Res)} (hI : I.About Own Asks)
    (h : ∀ t l, s.pc t = some l → Asks t l) (hstep : I.system.step s e s')
    (hcall : ∀ t op, e = some (.call t op) → Own t op) : ∀ t l, s'.pc t = some l → Asks t l := by
  rcases step_cases hstep with
    ⟨t, op, _, rfl, rfl⟩ | ⟨t, x, c, st, y, hpc, hst, _, rfl⟩ | ⟨t, x, r, _, _, _, rfl⟩
  · refine forall_update (fun l hl => ?_) fun u l _ hu => h u l hu
    cases hl
    exact hI.start t op (hcall t op rfl)
  · refine forall_update (fun l hl => ?_) fun u l _ hu => h u l hu
    cases hl
    exact hI.step t s.store x c st y (h t x hpc) hst
  · exact forall_update (fun l hl => nomatch hl) fun u l _ hu => h u l hu

/-- `I` does what `J` does in calls of which `Asks` holds. -/
structure SameOn (I J : Implementation τ Op Res σ loc χ) (Asks : τ → loc → Prop) : Prop where
  store : I.store = J.store
  start : I.start = J.start
  step : ∀ t st l c, Asks t l → I.step t st l c = J.step t st l c
  result : I.result = J.result

theorem SameOn.next (hIJ : I.SameOn J Asks) (h : ∀ t l, s.pc t = some l → Asks t l) (a : Action τ Op χ) :
    I.next s a = J.next s a := by
  cases a with
  | call t op => simp only [Implementation.next, hIJ.start]
  | run t c =>
    cases hpc : s.pc t with
    | none => simp only [Implementation.next, hpc]
    | some l => simp only [Implementation.next, hpc, hIJ.step t s.store l c (h t l hpc)]
  | ret t => simp only [Implementation.next, hIJ.result]

end About

/-- **Linearizability**: whatever calls and returns a run shows, the atomic object
shows them too, so that each operation can be taken to happen at one moment
between its call and its return. -/
def Linearizable (I : Implementation τ Op Res σ loc χ) (S : Spec Op Res A) : Prop :=
  ∀ es s, I.system.Run es s → ∃ a, (AtomicObject.system S).Run es a

/-! ### Calls that run alone -/

/-- Steps of one call, while nobody else takes any. -/
def Alone (I : Implementation τ Op Res σ loc χ) (me : τ) : σ × loc → σ × loc → Prop :=
  Relation.ReflTransGen fun a b => ∃ c, I.step me a.1 a.2 c = some b

/-- A call of `op` on the store `s` may run alone to its end, answering `r` and
leaving `s'`. -/
def Answers (I : Implementation τ Op Res σ loc χ) (me : τ) (s : σ) (op : Op) (r : Res) (s' : σ) :
    Prop :=
  ∃ l, I.Alone me (s, I.start op) (s', l) ∧ I.result l = some r

variable {I : Implementation τ Op Res σ loc χ} {me : τ}

omit [DecidableEq τ] in
theorem Alone.step {a b : σ × loc} (h : I.Alone me a b) (c : χ) (d : σ × loc)
    (hstep : I.step me b.1 b.2 c = some d) : I.Alone me a d :=
  Relation.ReflTransGen.tail h ⟨c, hstep⟩

omit [DecidableEq τ] in
/-- A part of the code that takes steps of its own. -/
theorem Alone.lift {β : Type*} {r : β → β → Prop} {x y : β} (f : β → σ × loc)
    (hf : ∀ x y, r x y → ∃ c, I.step me (f x).1 (f x).2 c = some (f y))
    (h : Relation.ReflTransGen r x y) : I.Alone me (f x) (f y) := by
  induction h with
  | refl => exact .refl
  | tail _ hr ih => exact ih.tail (hf _ _ hr)

theorem Alone.path {a b : σ × loc} (h : I.Alone me a b) (pc : τ → Option loc) :
    I.system.Path ⟨a.1, Function.update pc me (some a.2)⟩ []
      ⟨b.1, Function.update pc me (some b.2)⟩ := by
  induction h with
  | refl => exact .refl
  | @tail b b' _ hstep ih =>
    obtain ⟨c, hc⟩ := hstep
    exact System.Path.step (l := none) ih ⟨.run me c, by simp [machine, next, hc]⟩

/-- A call alone is a call and a return, wherever the others stand. -/
theorem Answers.path {s s' : σ} {op : Op} {r : Res} (h : I.Answers me s op r s')
    {pc : τ → Option loc} (hpc : pc me = none) :
    I.system.Path ⟨s, pc⟩ [.call me op, .ret me r] ⟨s', pc⟩ := by
  obtain ⟨l, hl, hr⟩ := h
  have hcall : I.system.step ⟨s, pc⟩ (some (.call me op))
      ⟨s, Function.update pc me (some (I.start op))⟩ :=
    ⟨.call me op, by simp [machine, next, hpc]⟩
  refine System.Path.step (l := some (.ret me r)) ((System.Path.single hcall).trans (hl.path pc))
    ⟨.ret me, ?_⟩
  simp [machine, next, hr, ← hpc]

end Implementation

end ParSweet.Concurrent
