import Mathlib.Data.Fintype.Basic
import ParSweet.Concurrent.Independent

/-! Threads that run programs against an object.

A program calls an operation and goes on with the answer, or ends. `Program.alone` is what it
comes to when its calls are the only ones; the rules for pre- and postconditions are about
that (`Ensures`). Among other threads' calls nothing changes if the calls are independent: in
every run, whatever has an outline lets every program end with what it ends with alone
(`Linearizable.ends_as_alone`). -/
namespace ParSweet.Concurrent

variable {τ Op Res σ loc χ A α β S S' : Type*}

inductive Program (Op Res α : Type*) where
  | ret (x : α)
  | call (op : Op) (next : Res → Program Op Res α)

namespace Program

def bind (p : Program Op Res α) (q : α → Program Op Res β) : Program Op Res β :=
  match p with
  | .ret x => q x
  | .call op next => .call op fun r => (next r).bind q

/-- What the program ends with, and the value it leaves, if nobody else calls. -/
def alone (f : Op → A → Res × A) (a : A) : Program Op Res α → α × A
  | .ret x => (x, a)
  | .call op next => (next (f op a).1).alone f (f op a).2

/-- The operations it calls then. -/
def trace (f : Op → A → Res × A) (a : A) : Program Op Res α → List Op
  | .ret _ => []
  | .call op next => op :: (next (f op a).1).trace f (f op a).2

/-- What is left of the program after these answers ... -/
def resume : Program Op Res α → List Res → Program Op Res α
  | .call _ next, r :: rs => (next r).resume rs
  | p, _ => p

/-- ... and what it has called to get them. -/
def asked : Program Op Res α → List Res → List Op
  | .call op next, r :: rs => op :: (next r).asked rs
  | _, _ => []

variable {f : Op → A → Res × A} {a : A} {p : Program Op Res α} {rs : List Res} {op : Op}
  {next : Res → Program Op Res α} {x : α}

theorem resume_nil (p : Program Op Res α) : p.resume [] = p := by
  cases p <;> rfl

theorem asked_nil (p : Program Op Res α) : p.asked [] = [] := by
  cases p <;> rfl

theorem alone_bind (q : α → Program Op Res β) :
    (p.bind q).alone f a = (q (p.alone f a).1).alone f (p.alone f a).2 := by
  induction p generalizing a with
  | ret x => rfl
  | call op next ih => exact ih _

/-- One more answer to a program that waits for it. -/
theorem resume_concat (r : Res) (h : p.resume rs = .call op next) :
    p.resume (rs ++ [r]) = next r ∧ p.asked (rs ++ [r]) = p.asked rs ++ [op] := by
  induction rs generalizing p with
  | nil =>
    rw [resume_nil] at h
    subst h
    exact ⟨resume_nil _, by simp [asked, asked_nil]⟩
  | cons r' rs ih =>
    cases p with
    | ret x => cases h
    | call op' next' =>
      obtain ⟨hresume, hasked⟩ := ih h
      exact ⟨hresume, congrArg (op' :: ·) hasked⟩

/-- While its answers are those it gets alone, so is its next call. -/
theorem asked_initial (hrs : rs = results f a (p.asked rs)) (h : p.resume rs = .call op next) :
    p.asked rs ++ [op] <+: p.trace f a := by
  induction rs generalizing p a with
  | nil =>
    rw [resume_nil] at h
    subst h
    exact ⟨_, by rw [asked_nil]; rfl⟩
  | cons r rs ih =>
    cases p with
    | ret x => cases h
    | call op' next' =>
      obtain ⟨rfl, hrs⟩ := List.cons.inj hrs
      exact List.prefix_cons_inj op' |>.mpr (ih hrs h)

/-- And so is what it ends with. -/
theorem alone_of_resume (hrs : rs = results f a (p.asked rs)) (h : p.resume rs = .ret x) :
    p.alone f a = (x, valueAfter f a (p.asked rs)) := by
  induction rs generalizing p a with
  | nil =>
    rw [resume_nil] at h
    subst h
    rfl
  | cons r rs ih =>
    cases p with
    | ret y =>
      obtain rfl : y = x := by cases h; rfl
      rfl
    | call op' next' =>
      obtain ⟨rfl, hrs⟩ := List.cons.inj hrs
      exact ih hrs h

/-! ### Code that can return early -/

/-- Going on unless the code so far has returned from the whole. -/
def andThen (p : Program Op Res (Option S)) (q : S → Program Op Res (Option S')) : Program Op Res (Option S') :=
  p.bind fun x =>
    match x with
    | none => .ret none
    | some x => q x

/-- `for (int i = from; i < from + n; ++i)` -/
def forLoop (body : ℕ → S → Program Op Res (Option S)) : ℕ → ℕ → S → Program Op Res (Option S)
  | _, 0, x => .ret (some x)
  | i, n + 1, x => (body i x).andThen (forLoop body (i + 1) n)

/-- Whatever it is answered, the program calls only operations that meet `Own`. -/
def Keeps (Own : Op → Prop) : Program Op Res α → Prop
  | .ret _ => True
  | .call op next => Own op ∧ ∀ r, (next r).Keeps Own

variable {Own : Op → Prop}

theorem Keeps.trace (h : p.Keeps Own) : ∀ op ∈ p.trace f a, Own op := by
  induction p generalizing a with
  | ret x => exact fun _ h => nomatch h
  | call op next ih =>
    intro op' hop'
    rcases List.mem_cons.mp hop' with rfl | hop'
    · exact h.1
    · exact ih _ (h.2 _) op' hop'

theorem Keeps.imp {Own' : Op → Prop} (h : p.Keeps Own) (hown : ∀ op, Own op → Own' op) : p.Keeps Own' := by
  induction p with
  | ret x => trivial
  | call op next ih => exact ⟨hown op h.1, fun r => ih r (h.2 r)⟩

theorem Keeps.bind {q : α → Program Op Res β} (h : p.Keeps Own) (hq : ∀ x, (q x).Keeps Own) : (p.bind q).Keeps Own := by
  induction p with
  | ret x => exact hq x
  | call op next ih => exact ⟨h.1, fun r => ih r (h.2 r)⟩

theorem Keeps.andThen {p : Program Op Res (Option S)} {q : S → Program Op Res (Option S')} (h : p.Keeps Own)
    (hq : ∀ x, (q x).Keeps Own) : (p.andThen q).Keeps Own :=
  h.bind fun x => by
    cases x with
    | none => trivial
    | some x => exact hq x

theorem Keeps.forLoop {body : ℕ → S → Program Op Res (Option S)} {i n : ℕ} {x : S}
    (h : ∀ j x, i ≤ j → j < i + n → (body j x).Keeps Own) : (forLoop body i n x).Keeps Own := by
  induction n generalizing i x with
  | zero => trivial
  | succ n ih =>
    exact (h i x (Nat.le_refl i) (by omega)).andThen fun y => ih fun j x hij hj => h j x (by omega) (by omega)

/-- Run alone on a value that meets `P` the program does not return early, and what it goes on with
and the value it leaves meet `Q`. -/
def Ensures (f : Op → A → Res × A) (P : A → Prop) (p : Program Op Res (Option S)) (Q : S → A → Prop) : Prop :=
  ∀ a, P a → ∃ x b, p.alone f a = (some x, b) ∧ Q x b

namespace Ensures
variable {P P' : A → Prop} {Q Q' : S → A → Prop} {R : S' → A → Prop}

theorem ret {x : S} (h : ∀ a, P a → Q x a) : Ensures f P (.ret (some x)) Q := fun a ha => ⟨x, a, rfl, h a ha⟩

theorem andThen {p : Program Op Res (Option S)} {q : S → Program Op Res (Option S')} (h : Ensures f P p Q)
    (hq : ∀ x, Ensures f (Q x) (q x) R) : Ensures f P (p.andThen q) R := by
  intro a ha
  obtain ⟨x, b, hp, hb⟩ := h a ha
  obtain ⟨y, c, hc, hr⟩ := hq x b hb
  refine ⟨y, c, ?_, hr⟩
  rw [Program.andThen, alone_bind, hp]
  exact hc

theorem weaken {p : Program Op Res (Option S)} (h : Ensures f P p Q) (hP : ∀ a, P' a → P a)
    (hQ : ∀ x a, Q x a → Q' x a) : Ensures f P' p Q' := by
  intro a ha
  obtain ⟨x, b, hp, hb⟩ := h a (hP a ha)
  exact ⟨x, b, hp, hQ x b hb⟩

/-- **The loop rule**: what holds before the `i`-th round holds, one further, after it. -/
theorem forLoop {body : ℕ → S → Program Op Res (Option S)} {I : ℕ → S → A → Prop} {i n : ℕ} {x : S}
    (h : ∀ j x, i ≤ j → j < i + n → Ensures f (I j x) (body j x) (I (j + 1))) :
    Ensures f (I i x) (forLoop body i n x) (I (i + n)) := by
  induction n generalizing i x with
  | zero => exact .ret fun a ha => ha
  | succ n ih =>
    refine (h i x (Nat.le_refl i) (by omega)).andThen fun y => ?_
    have := ih (i := i + 1) (x := y) fun j x hij hj => h j x (by omega) (by omega)
    rwa [show i + 1 + n = i + (n + 1) by omega] at this

end Ensures

end Program

/-! ### Threads with programs -/

namespace Client
variable [DecidableEq τ]

structure State (τ Op Res σ loc α : Type*) where
  object : Implementation.State τ σ loc
  /-- What is left of a thread's program; while it is in a call, the call is the next of it. -/
  program : τ → Program Op Res α

inductive Action (τ χ : Type*) where
  | call (t : τ)
  | run (t : τ) (c : χ)
  | ret (t : τ)

def next (I : Implementation τ Op Res σ loc χ) (s : State τ Op Res σ loc α) :
    Action τ χ → Option (Option (Event τ Op Res) × State τ Op Res σ loc α)
  | .call t =>
    match s.program t with
    | .ret _ => none
    | .call op _ => (I.next s.object (.call t op)).map fun p => (p.1, {s with object := p.2})
  | .run t c => (I.next s.object (.run t c)).map fun p => (p.1, {s with object := p.2})
  | .ret t =>
    match s.program t, I.next s.object (.ret t) with
    | .call _ next, some (some (.ret _ r), object) =>
      some (some (.ret t r), ⟨object, Function.update s.program t (next r)⟩)
    | _, _ => none

/-- Every thread runs its program. -/
def machine (I : Implementation τ Op Res σ loc χ) (start : τ → Program Op Res α) :
    Machine (State τ Op Res σ loc α) (Action τ χ) (Event τ Op Res) where
  initial := ⟨⟨I.store, fun _ => none⟩, start⟩
  next := next I

variable {I : Implementation τ Op Res σ loc χ} {start : τ → Program Op Res α} {s s' : State τ Op Res σ loc α}
  {es : List (Event τ Op Res)}

/-- The kinds of step. -/
theorem step_cases {l : Option (Event τ Op Res)} (h : (machine I start).system.step s l s') :
    (∃ t op next, s.program t = .call op next ∧ s.object.pc t = none ∧ l = some (.call t op) ∧
      I.system.step s.object l s'.object ∧ s'.object.pc = Function.update s.object.pc t (some (I.start op)) ∧
      s'.program = s.program) ∨
    (∃ t x y, s.object.pc t = some x ∧ l = none ∧ I.system.step s.object l s'.object ∧
      s'.object.pc = Function.update s.object.pc t (some y) ∧ s'.program = s.program) ∨
    ∃ t op next r, s.program t = .call op next ∧ (∃ x, s.object.pc t = some x) ∧ l = some (.ret t r) ∧
      I.system.step s.object l s'.object ∧ s'.object.pc = Function.update s.object.pc t none ∧
      s'.program = Function.update s.program t (next r) := by
  obtain ⟨a, ha⟩ := h
  cases a with
  | call t =>
    simp only [machine, next] at ha
    cases hp : s.program t with
    | ret x => simp [hp] at ha
    | call op k =>
      simp only [hp, Option.map_eq_some_iff, Prod.mk.injEq] at ha
      obtain ⟨⟨l', o⟩, hnext, rfl, rfl⟩ := ha
      have hstep : I.system.step s.object l' o := ⟨.call t op, hnext⟩
      cases hpc : s.object.pc t with
      | none =>
        simp only [Implementation.next, hpc, Option.some.injEq, Prod.mk.injEq] at hnext
        obtain ⟨rfl, rfl⟩ := hnext
        exact .inl ⟨t, op, k, hp, hpc, rfl, hstep, rfl, rfl⟩
      | some x => simp [Implementation.next, hpc] at hnext
  | run t c =>
    simp only [machine, next, Option.map_eq_some_iff, Prod.mk.injEq] at ha
    obtain ⟨⟨l', o⟩, hnext, rfl, rfl⟩ := ha
    have hstep : I.system.step s.object l' o := ⟨.run t c, hnext⟩
    cases hpc : s.object.pc t with
    | none => simp [Implementation.next, hpc] at hnext
    | some x =>
      simp only [Implementation.next, hpc, Option.map_eq_some_iff, Prod.mk.injEq] at hnext
      obtain ⟨⟨st, y⟩, _, rfl, rfl⟩ := hnext
      exact .inr (.inl ⟨t, x, y, hpc, rfl, hstep, rfl, rfl⟩)
  | ret t =>
    simp only [machine, next] at ha
    cases hp : s.program t with
    | ret x => simp [hp] at ha
    | call op k =>
      cases hpc : s.object.pc t with
      | none => simp [hp, Implementation.next, hpc] at ha
      | some x =>
        cases hr : I.result x with
        | none => simp [hp, Implementation.next, hpc, hr] at ha
        | some r =>
          have hnext : I.next s.object (.ret t) =
              some (some (.ret t r), {s.object with pc := Function.update s.object.pc t none}) := by
            simp [Implementation.next, hpc, hr]
          simp only [hp, hnext, Option.some.injEq, Prod.mk.injEq] at ha
          obtain ⟨rfl, rfl⟩ := ha
          exact .inr (.inr ⟨t, op, k, r, hp, ⟨x, hpc⟩, rfl, ⟨.ret t, hnext⟩, rfl, rfl⟩)

/-- What the threads show is what the object shows. -/
theorem run_object (h : (machine I start).system.Run es s) : I.system.Run es s.object := by
  induction h with
  | refl => exact .refl
  | step _ hstep ih =>
    rcases step_cases hstep with ⟨_, _, _, _, _, _, h, _⟩ | ⟨_, _, _, _, _, h, _⟩ | ⟨_, _, _, _, _, _, _, h, _⟩ <;>
      exact ih.step h

/-- Where a thread stands in its program, by the calls it has made and the answers it has got. -/
def Stands (p₀ p : Program Op Res α) (calls : List Op) (rets : List Res) : Option loc → Prop
  | none => p = p₀.resume rets ∧ calls = p₀.asked rets
  | some _ => ∃ op next, p = .call op next ∧ p = p₀.resume rets ∧ calls = p₀.asked rets ++ [op]

theorem run_stands (h : (machine I start).system.Run es s) (t : τ) :
    Stands (start t) (s.program t) (callsOf t es) (retsOf t es) (s.object.pc t) := by
  refine h.invariant_events (S := (machine I start).system)
    (I := fun es s => ∀ t, Stands (start t) (s.program t) (callsOf t es) (retsOf t es) (s.object.pc t)) ?_ ?_ t
  · exact fun t => ⟨(Program.resume_nil _).symm, (Program.asked_nil _).symm⟩
  · intro es s l s' ih hstep t
    have ht := ih t
    rcases step_cases hstep with ⟨u, op, next, hp, hpc, rfl, _, hpc', hp'⟩ | ⟨u, x, y, hpc, rfl, _, hpc', hp'⟩ |
      ⟨u, op, next, r, hp, ⟨x, hpc⟩, rfl, _, hpc', hp'⟩
    · by_cases hu : u = t
      · subst hu
        rw [hpc, hp] at ht
        rw [hpc', hp', Function.update_self, hp]
        exact ⟨op, next, rfl, by simpa using ht.1, by simpa using ht.2⟩
      · rw [hpc', hp', Function.update_of_ne (Ne.symm hu)]
        simpa [hu] using ht
    · by_cases hu : u = t
      · subst hu
        rw [hpc] at ht
        rw [hpc', hp', Function.update_self]
        show Stands _ _ (callsOf u (es ++ [])) (retsOf u (es ++ [])) (some x)
        rwa [List.append_nil]
      · rw [hpc', hp', Function.update_of_ne (Ne.symm hu)]
        simpa using ht
    · by_cases hu : u = t
      · subst hu
        rw [hpc] at ht
        obtain ⟨op', next', hcall, hresume, hcalls⟩ := ht
        obtain ⟨rfl, rfl⟩ : op' = op ∧ next' = next := by simpa using hcall.symm.trans hp
        obtain ⟨hnext, hasked⟩ := Program.resume_concat r (hresume.symm.trans hcall)
        rw [hpc', hp', Function.update_self, Function.update_self]
        exact ⟨by simpa using hnext.symm, by simpa using hcalls.trans hasked.symm⟩
      · rw [hpc', hp', Function.update_of_ne (Ne.symm hu), Function.update_of_ne (Ne.symm hu)]
        simpa [hu] using ht

/-- A thread whose program is over stands in no call. -/
theorem idle_of_ret {t : τ} {x : α} (h : (machine I start).system.Run es s) (hx : s.program t = .ret x) :
    s.object.pc t = none := by
  have hstands := run_stands h t
  cases hpc : s.object.pc t with
  | none => rfl
  | some y =>
    rw [hpc, hx] at hstands
    obtain ⟨_, _, hcall, _⟩ := hstands
    cases hcall

theorem reachable_object (h : (machine I start).system.Reachable s) : I.system.Reachable s.object :=
  let ⟨es, hrun⟩ := h
  ⟨es, run_object hrun⟩

section About
variable {J : Implementation τ Op Res σ loc χ} {Own : τ → Op → Prop} {Asks : τ → loc → Prop}

/-- If the programs keep to operations of their own, so does what is left of them, and their calls are
about those. -/
theorem keeps_about (hI : I.About Own Asks) (hown : ∀ t, (start t).Keeps (Own t))
    (h : (machine I start).system.Reachable s) :
    (∀ t, (s.program t).Keeps (Own t)) ∧ ∀ t l, s.object.pc t = some l → Asks t l := by
  refine h.invariant (I := fun s => (∀ t, (s.program t).Keeps (Own t)) ∧ ∀ t l, s.object.pc t = some l → Asks t l)
    ⟨hown, fun _ _ hl => by cases hl⟩ (fun s e s' hs hstep => ?_)
  obtain ⟨hkeep, hasks⟩ := hs
  rcases step_cases hstep with ⟨t, op, next, hp, _, rfl, hobj, _, hp'⟩ | ⟨t, x, y, _, rfl, hobj, _, hp'⟩ |
    ⟨t, op, next, r, hp, _, rfl, hobj, _, hp'⟩
  · have hop : Own t op := by
      have := hkeep t
      rw [hp] at this
      exact this.1
    refine ⟨by rwa [hp'], hI.system_step hasks hobj fun u op' he => ?_⟩
    cases he
    exact hop
  · exact ⟨by rwa [hp'], hI.system_step hasks hobj fun _ _ he => nomatch he⟩
  · refine ⟨fun u => ?_, hI.system_step hasks hobj fun _ _ he => nomatch he⟩
    rw [hp']
    by_cases hu : u = t
    · subst hu
      have := hkeep u
      rw [hp] at this
      rw [Function.update_self]
      exact this.2 r
    · rw [Function.update_of_ne hu]
      exact hkeep u

/-- Two objects that do the same in calls about these operations are the same to the programs. -/
theorem reachable_same (hIJ : I.SameOn J Asks) (hI : I.About Own Asks) (hown : ∀ t, (start t).Keeps (Own t))
    (h : (machine I start).system.Reachable s) : (machine J start).system.Reachable s := by
  refine h.invariant_of (J := fun s => ∀ t l, s.object.pc t = some l → Asks t l)
    (fun s hs => (keeps_about hI hown hs).2) ⟨[], ?_⟩ (fun s l s' hasks hs hstep => hs.path (.single (l := l) ?_))
  · show (machine J start).system.Run [] ⟨⟨I.store, fun _ => none⟩, start⟩
    rw [hIJ.store]
    exact .refl
  · obtain ⟨a, ha⟩ := hstep
    have ha : Client.next I s a = some (l, s') := ha
    have hnext : ∀ b, I.next s.object b = J.next s.object b := hIJ.next hasks
    refine ⟨a, ?_⟩
    show Client.next J s a = some (l, s')
    cases a <;> simpa only [Client.next, hnext] using ha

end About

end Client

/-! ### One thread after the other -/

namespace Client
variable [DecidableEq τ] {I : Implementation τ Op Res σ loc χ} {start : τ → Program Op Res α} {t : τ}
  {pc : τ → Option loc} {prog : τ → Program Op Res α} {op : Op} {next : Res → Program Op Res α}

theorem path_alone {x y : σ × loc} (h : I.Alone t x y) (pc : τ → Option loc) (prog : τ → Program Op Res α) :
    (machine I start).system.Path ⟨⟨x.1, Function.update pc t (some x.2)⟩, prog⟩ []
      ⟨⟨y.1, Function.update pc t (some y.2)⟩, prog⟩ := by
  induction h with
  | refl => exact .refl
  | @tail y z _ hstep ih =>
    obtain ⟨c, hc⟩ := hstep
    exact System.Path.step (l := none) ih ⟨.run t c, by simp [machine, Client.next, Implementation.next, hc]⟩

/-- A call alone, by a thread that has come to it. -/
theorem path_answers {st st' : σ} {r : Res} (h : I.Answers t st op r st') (hpc : pc t = none)
    (hprog : prog t = .call op next) :
    (machine I start).system.Path ⟨⟨st, pc⟩, prog⟩ [.call t op, .ret t r]
      ⟨⟨st', pc⟩, Function.update prog t (next r)⟩ := by
  obtain ⟨l, hl, hr⟩ := h
  have hcall : (machine I start).system.step ⟨⟨st, pc⟩, prog⟩ (some (.call t op))
      ⟨⟨st, Function.update pc t (some (I.start op))⟩, prog⟩ :=
    ⟨.call t, by simp [machine, Client.next, hprog, Implementation.next, hpc]⟩
  refine System.Path.step (l := some (.ret t r)) ((System.Path.single hcall).trans (path_alone hl pc prog))
    ⟨.ret t, ?_⟩
  simp only [machine, Client.next, hprog, Implementation.next, Function.update_self, hr, Option.map_some,
    Function.update_idem]
  rw [← hpc, Function.update_eq_self]

variable {S : Spec Op Res A} (P : Outline I S) {Q : σ → Prop} {Own : τ → Op → Prop}
  (h : ∀ t op s a, Own t op → P.Inv s a → Q s → ∃ r s', I.Answers t s op r s' ∧ Q s')
include h

/-- A thread can come to the end of its program while nobody else moves. -/
theorem path_ret {st : σ} {a : A} (hinv : P.Inv st a) (hq : Q st) (hpc : pc t = none) (hown : (prog t).Keeps (Own t)) :
    ∃ es st' b x, (machine I start).system.Path ⟨⟨st, pc⟩, prog⟩ es ⟨⟨st', pc⟩, Function.update prog t (.ret x)⟩ ∧
      P.Inv st' b ∧ Q st' := by
  generalize hp : prog t = p at hown
  induction p generalizing st a prog with
  | ret x => exact ⟨[], st, a, x, by rw [← hp, Function.update_eq_self]; exact .refl, hinv, hq⟩
  | call op next ih =>
    obtain ⟨r, st₁, hr, hq₁⟩ := h t op st a hown.1 hinv hq
    obtain ⟨b, _, hinv₁, _⟩ := P.answers hinv hr
    have hself : Function.update prog t (next r) t = next r := Function.update_self ..
    obtain ⟨es, st', b', x, hpath, hinv', hq'⟩ := ih r hinv₁ hq₁ hself (hown.2 r)
    rw [Function.update_idem] at hpath
    exact ⟨_, st', b', x, (path_answers hr hpc hp).trans hpath, hinv', hq'⟩

/-- **All programs can come to their ends**, if calls that run alone return. -/
theorem exists_ret [Fintype τ] (hQ : Q I.store) (hown : ∀ t, (start t).Keeps (Own t)) :
    ∃ s, (machine I start).system.Reachable s ∧ ∀ t, ∃ x, s.program t = .ret x := by
  have key : ∀ l : List τ, ∃ st prog b, (machine I start).system.Reachable ⟨⟨st, fun _ => none⟩, prog⟩ ∧
      P.Inv st b ∧ Q st ∧ ∀ t, (t ∈ l → ∃ x, prog t = .ret x) ∧ (prog t).Keeps (Own t) := by
    intro l
    induction l with
    | nil =>
      refine ⟨I.store, start, S.initial, ⟨[], .refl⟩, P.initial, hQ, fun t => ⟨fun ht => ?_, hown t⟩⟩
      exact absurd ht List.not_mem_nil
    | cons t l ih =>
      obtain ⟨st, prog, b, hr, hinv, hq, hl⟩ := ih
      obtain ⟨es, st', b', x, hpath, hinv', hq'⟩ : ∃ es st' b x,
          (machine I start).system.Path ⟨⟨st, fun _ => none⟩, prog⟩ es
            ⟨⟨st', fun _ => none⟩, Function.update prog t (.ret x)⟩ ∧ P.Inv st' b ∧ Q st' :=
        path_ret P h hinv hq rfl (hl t).2
      refine ⟨st', _, b', hr.path hpath, hinv', hq', fun u => ?_⟩
      by_cases hut : u = t
      · rw [hut, Function.update_self]
        exact ⟨fun _ => ⟨x, rfl⟩, trivial⟩
      · rw [Function.update_of_ne hut]
        exact ⟨fun hu => (hl u).1 ((List.mem_cons.mp hu).resolve_left hut), (hl u).2⟩
  obtain ⟨st, prog, _, hr, _, _, hl⟩ := key Finset.univ.toList
  exact ⟨_, hr, fun t => (hl t).1 (by simp)⟩

end Client

/-! ### Among others as alone -/

section Alone
variable [DecidableEq τ] {f : Op → A → Res × A} {a₀ : A} {Own : τ → Op → Prop} {Same : τ → A → A → Prop}
  {es : List (Event τ Op Res)}

/-- What every thread sees of the atomic object while all keep to their own operations. -/
theorem AtomicObject.run_seen {s : AtomicObject.State τ Op Res A} (hind : Independent f Own Same)
    (h : (AtomicObject.system (Spec.ofFun f a₀)).Run es s) (hown : ∀ t, ∀ op ∈ callsOf t es, Own t op) (t : τ) :
    AtomicObject.Seen f a₀ Same t (callsOf t es) (retsOf t es) s.value (s.status t) := by
  refine h.invariant_events (S := AtomicObject.system (Spec.ofFun f a₀))
    (I := fun es s => (∀ t, ∀ op ∈ callsOf t es, Own t op) →
      ∀ t, AtomicObject.Seen f a₀ Same t (callsOf t es) (retsOf t es) s.value (s.status t)) ?_ ?_ hown t
  · exact fun _ t => ⟨rfl, hind.refl t a₀⟩
  · intro es s l s' ih hstep hown
    have hown' : ∀ t, ∀ op ∈ callsOf t es, Own t op := fun t op hop => hown t op (by simp [hop])
    exact AtomicObject.seen_step hind (ih hown') hown' hstep

variable {I : Implementation τ Op Res σ loc χ} {start : τ → Program Op Res α} {s : Client.State τ Op Res σ loc α}
  {a : AtomicObject.State τ Op Res A} {t : τ}

namespace Implementation.Linearizable

/-- What a thread that stands in no call has seen. -/
theorem seen (ha : (AtomicObject.system (Spec.ofFun f a₀)).Run es a) (h : (Client.machine I start).system.Run es s)
    (hind : Independent f Own Same) (hown : ∀ t, ∀ op ∈ callsOf t es, Own t op) (hpc : s.object.pc t = none) :
    retsOf t es = results f a₀ ((start t).asked (retsOf t es)) ∧ s.program t = (start t).resume (retsOf t es) ∧
      Same t a.value (valueAfter f a₀ ((start t).asked (retsOf t es))) := by
  have hidle : a.status t = .idle :=
    ((AtomicObject.run_callsOnce ha t).iff (Implementation.run_callsOnce (Client.run_object h) t)).mpr hpc
  have hseen := AtomicObject.run_seen hind ha hown t
  have hstands := Client.run_stands h t
  rw [hpc] at hstands
  rw [hidle, hstands.2] at hseen
  exact ⟨hseen.1, hstands.1, hseen.2⟩

/-- Threads whose programs alone would keep to their own operations do so. -/
theorem calls_initial (hI : I.Linearizable (Spec.ofFun f a₀))
    (hind : Independent f (fun t op => op ∈ (start t).trace f a₀) Same)
    (h : (Client.machine I start).system.Run es s) (t : τ) : callsOf t es <+: (start t).trace f a₀ := by
  have key : (Client.machine I start).system.Run es s ∧ ∀ t, callsOf t es <+: (start t).trace f a₀ := by
    refine h.invariant_events (S := (Client.machine I start).system)
      (I := fun es s => (Client.machine I start).system.Run es s ∧ ∀ t, callsOf t es <+: (start t).trace f a₀) ?_ ?_
    · exact ⟨.refl, fun t => List.nil_prefix⟩
    · rintro es s l s' ⟨hrun, ih⟩ hstep
      refine ⟨hrun.step hstep, fun t => ?_⟩
      rcases Client.step_cases hstep with
        ⟨u, op, next, hp, hpc, rfl, _⟩ | ⟨_, _, _, _, rfl, _⟩ | ⟨_, _, _, _, _, _, rfl, _⟩
      · by_cases hu : u = t
        · -- the answers so far are those it gets alone, so is the operation it calls next
          subst hu
          obtain ⟨a, ha⟩ := hI es s.object (Client.run_object hrun)
          obtain ⟨hrets, hresume, _⟩ := seen ha hrun hind (fun t op hop => (ih t).subset hop) hpc
          have hstands := Client.run_stands hrun u
          rw [hpc] at hstands
          have := Program.asked_initial hrets (hresume.symm.trans hp)
          simpa [hstands.2] using this
        · simpa [hu] using ih t
      · simpa using ih t
      · simpa using ih t
  exact key.2 t

/-- **A program ends with what it ends with alone**, whatever the interleaving, and the value looks to
its thread as it does then. -/
theorem alone_at (hI : I.Linearizable (Spec.ofFun f a₀))
    (hind : Independent f (fun t op => op ∈ (start t).trace f a₀) Same)
    (h : (Client.machine I start).system.Run es s) (ha : (AtomicObject.system (Spec.ofFun f a₀)).Run es a)
    {x : α} (hx : s.program t = .ret x) : x = ((start t).alone f a₀).1 ∧ Same t a.value ((start t).alone f a₀).2 := by
  have hpc : s.object.pc t = none := Client.idle_of_ret h hx
  obtain ⟨hrets, hresume, hsame⟩ := seen ha h hind (fun t op hop => (hI.calls_initial hind h t).subset hop) hpc
  rw [Program.alone_of_resume hrets (hresume.symm.trans hx)]
  exact ⟨rfl, hsame⟩

theorem ends_as_alone (hI : I.Linearizable (Spec.ofFun f a₀))
    (hind : Independent f (fun t op => op ∈ (start t).trace f a₀) Same)
    (h : (Client.machine I start).system.Run es s) {x : α} (hx : s.program t = .ret x) :
    x = ((start t).alone f a₀).1 := by
  obtain ⟨a, ha⟩ := hI es s.object (Client.run_object h)
  exact (hI.alone_at hind h ha hx).1

/-- **When all programs are over**, an operation answers what it answers on a value that looks to every
thread as it has left it alone. -/
theorem answers_after (hI : I.Linearizable (Spec.ofFun f a₀))
    (hind : Independent f (fun t op => op ∈ (start t).trace f a₀) Same)
    (h : (Client.machine I start).system.Run es s) (hret : ∀ t, ∃ x, s.program t = .ret x) {u : τ} {op : Op} {r : Res}
    {o : σ} (ho : I.Answers u s.object.store op r o) :
    ∃ value, (f op value).1 = r ∧ ∀ t, Same t value ((start t).alone f a₀).2 := by
  have hpc : s.object.pc = fun _ => none := by
    funext t
    obtain ⟨x, hx⟩ := hret t
    exact Client.idle_of_ret h hx
  have hrun : I.system.Run (es ++ [.call u op, .ret u r]) ⟨o, s.object.pc⟩ :=
    (Client.run_object h).trans (ho.path (by rw [hpc]))
  obtain ⟨b, hb⟩ := hI _ _ hrun
  obtain ⟨a, ha, hlast⟩ := hb.split
  have hidle : ∀ t, a.status t = .idle := fun t =>
    ((AtomicObject.run_callsOnce ha t).iff (Implementation.run_callsOnce (Client.run_object h) t)).mpr (by rw [hpc])
  obtain ⟨c, hc⟩ := AtomicObject.apply_of_path hidle hlast
  refine ⟨a.value, congrArg Prod.fst hc, fun t => ?_⟩
  obtain ⟨x, hx⟩ := hret t
  exact (hI.alone_at hind h ha hx).2

end Implementation.Linearizable

end Alone

end ParSweet.Concurrent
