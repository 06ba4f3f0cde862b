import ParSweet.Concurrent.Outline

/-! Calls made one after the other, each running alone.

Where an operation's answer and effect are functions of the value (`Spec.ofFun`), the
answers of a whole sequence are `results`; an outline says that every sequence of calls
gets them (`Outline.calls_results`). That such a sequence exists, that is, that every call
returns, is for the implementation to show, call by call (`Outline.exists_calls`). -/
namespace ParSweet.Concurrent

variable {τ Op Res σ loc χ A : Type*}

/-- The specification given by a function. -/
def Spec.ofFun (f : Op → A → Res × A) (a : A) : Spec Op Res A where
  initial := a
  apply := fun op a r b => f op a = (r, b)

/-- The object whose calls do what `f` does in one step. -/
def Implementation.atomic (f : Op → A → Res × A) (a : A) : Implementation τ Op Res A (Op ⊕ Res) Unit where
  store := a
  start := .inl
  step := fun _ a l _ =>
    match l with
    | .inl op => some ((f op a).2, .inr (f op a).1)
    | .inr _ => none
  result := fun l =>
    match l with
    | .inl _ => none
    | .inr r => some r

/-- It knows whether it has taken effect. -/
def Outline.atomic (f : Op → A → Res × A) (a : A) :
    Outline (Implementation.atomic f a : Implementation τ Op Res A _ Unit) (Spec.ofFun f a) where
  Inv := fun s b => s = b
  Guarantee := fun _ _ _ => True
  Pending := fun _ op _ l => l = .inl op
  Done := fun _ r _ l => l = .inr r
  initial := rfl
  start := fun _ _ _ _ _ => rfl
  pending_step := fun _ op s b l _ s' l' hinv hl hstep => by
    subst hinv hl
    cases hstep
    exact ⟨trivial, .inr ⟨_, _, rfl, rfl, rfl⟩⟩
  done_step := fun _ r s b l _ s' l' _ hl hstep => by
    subst hl
    cases hstep
  pending_result := fun _ _ _ _ hl => by rw [hl]; rfl
  done_result := fun _ r r' _ _ hl hr => by
    subst hl
    exact (Option.some.inj hr).symm
  pending_stable := fun _ _ _ _ _ _ _ _ _ _ h => h
  done_stable := fun _ _ _ _ _ _ _ _ _ _ h => h

theorem Implementation.atomic_linearizable [DecidableEq τ] {f : Op → A → Res × A} {a : A} :
    (Implementation.atomic f a : Implementation τ Op Res A _ Unit).Linearizable (Spec.ofFun f a) :=
  (Outline.atomic f a).linearizable

/-- The answers to operations one after the other. -/
def results (f : Op → A → Res × A) : A → List Op → List Res
  | _, [] => []
  | a, op :: ops => (f op a).1 :: results f (f op a).2 ops

namespace Implementation

/-- `me` calls the operations one after the other and gets these answers. -/
inductive Calls (I : Implementation τ Op Res σ loc χ) (me : τ) : σ → List Op → List Res → σ → Prop where
  | nil {s} : Calls I me s [] [] s
  | cons {s op r s₁ ops rs s'} : I.Answers me s op r s₁ → Calls I me s₁ ops rs s' →
      Calls I me s (op :: ops) (r :: rs) s'

variable {I : Implementation τ Op Res σ loc χ} {me : τ} {s : σ}

/-- A call at `l` may run alone to its end, and leave a store that meets `P`. -/
def Returns (I : Implementation τ Op Res σ loc χ) (me : τ) (P : σ → Prop) (s : σ) (l : loc) : Prop :=
  ∃ s' l' r, I.Alone me (s, l) (s', l') ∧ I.result l' = some r ∧ P s'

theorem Returns.step {P : σ → Prop} {l : loc} (c : χ) (d : σ × loc) (hstep : I.step me s l c = some d)
    (h : I.Returns me P d.1 d.2) : I.Returns me P s l := by
  obtain ⟨s', l', r, hl, h⟩ := h
  exact ⟨s', l', r, Relation.ReflTransGen.head ⟨c, hstep⟩ hl, h⟩

theorem Returns.answers {P : σ → Prop} {op : Op} (h : I.Returns me P s (I.start op)) :
    ∃ r s', I.Answers me s op r s' ∧ P s' := by
  obtain ⟨s', l', r, hl, hr, hs'⟩ := h
  exact ⟨r, s', ⟨l', hl, hr⟩, hs'⟩

/-! ### Code that leaves nothing open -/

/-- A call of `me` that runs alone has one way to go, and none once it returns. -/
structure Deterministic (I : Implementation τ Op Res σ loc χ) (me : τ) : Prop where
  step : ∀ s l c c', I.step me s l c = I.step me s l c'
  stop : ∀ s l c r, I.result l = some r → I.step me s l c = none

namespace Deterministic
variable (D : I.Deterministic me)
include D

/-- Wherever a call gets alone, it is on the way to the end it can get to. -/
theorem alone {x y z : σ × loc} {r : Res} (hy : I.Alone me x y) (hz : I.Alone me x z)
    (hr : I.result z.2 = some r) : I.Alone me y z := by
  have hunique : Relator.RightUnique fun a b : σ × loc => ∃ c, I.step me a.1 a.2 c = some b := by
    rintro a b b' ⟨c, hc⟩ ⟨c', hc'⟩
    rw [D.step a.1 a.2 c c', hc'] at hc
    exact (Option.some.inj hc).symm
  rcases Relation.ReflTransGen.total_of_right_unique hunique hy hz with h | h
  · exact h
  · obtain rfl | ⟨b, ⟨c, hc⟩, _⟩ := Relation.ReflTransGen.cases_head h
    · exact .refl
    · rw [D.stop z.1 z.2 c r hr] at hc
      cases hc

theorem answers_unique {op : Op} {r r' : Res} {s₁ s₂ : σ} (h : I.Answers me s op r s₁)
    (h' : I.Answers me s op r' s₂) : r = r' ∧ s₁ = s₂ := by
  obtain ⟨l, hl, hr⟩ := h
  obtain ⟨l', hl', hr'⟩ := h'
  obtain he | ⟨b, ⟨c, hc⟩, _⟩ := Relation.ReflTransGen.cases_head (D.alone hl hl' hr')
  · cases he
    exact ⟨Option.some.inj (hr.symm.trans hr'), rfl⟩
  · rw [D.stop s₁ l c r hr] at hc
    cases hc

end Deterministic

end Implementation

namespace Outline
variable {I : Implementation τ Op Res σ loc χ} {S : Spec Op Res A} {f : Op → A → Res × A} {a₀ a : A}
  {me : τ} {s s' : σ} {ops : List Op} {rs : List Res}

/-- **Calls one after the other** get the answers of the specification. -/
theorem calls_results (P : Outline I (Spec.ofFun f a₀)) (hinv : P.Inv s a) (h : I.Calls me s ops rs s') :
    rs = results f a ops ∧ ∃ b, P.Inv s' b := by
  induction h generalizing a with
  | nil => exact ⟨rfl, a, hinv⟩
  | @cons s op r s₁ ops rs s' hr _ ih =>
    obtain ⟨b, hb, hinv', _⟩ := P.answers hinv hr
    have hb : f op a = (r, b) := hb
    obtain ⟨hrs, hend⟩ := ih hinv'
    exact ⟨by rw [results, hb, hrs], hend⟩

/-- If every operation is answered and leaves the store ready (`Q`) for the next, every sequence of
operations is answered. -/
theorem exists_calls (P : Outline I S) {Q : σ → Prop}
    (h : ∀ op ∈ ops, ∀ s a, P.Inv s a → Q s → ∃ r s', I.Answers me s op r s' ∧ Q s')
    (hinv : P.Inv s a) (hs : Q s) : ∃ rs s', I.Calls me s ops rs s' := by
  induction ops generalizing s a with
  | nil => exact ⟨[], s, .nil⟩
  | cons op ops ih =>
    obtain ⟨r, s₁, hr, hs₁⟩ := h op List.mem_cons_self s a hinv hs
    obtain ⟨b, _, hinv₁, _⟩ := P.answers hinv hr
    obtain ⟨rs, s', hrs⟩ := ih (fun op hop => h op (List.mem_cons_of_mem _ hop)) hinv₁ hs₁
    exact ⟨r :: rs, s', .cons hr hrs⟩

section Deterministic
variable (P : Outline I S) (D : I.Deterministic me) {Q : σ → Prop}
include D

/-- Then every sequence of calls leaves the store ready. -/
theorem calls_ready (h : ∀ op ∈ ops, ∀ s a, P.Inv s a → Q s → ∃ r s', I.Answers me s op r s' ∧ Q s')
    (hinv : P.Inv s a) (hs : Q s) (hc : I.Calls me s ops rs s') : (∃ b, P.Inv s' b) ∧ Q s' := by
  induction hc generalizing a with
  | nil => exact ⟨⟨a, hinv⟩, hs⟩
  | @cons s op r s₁ ops rs s' hr _ ih =>
    obtain ⟨r', s₂, hr', hs₂⟩ := h op List.mem_cons_self s a hinv hs
    obtain ⟨_, rfl⟩ := D.answers_unique hr hr'
    obtain ⟨b, _, hinv₁, _⟩ := P.answers hinv hr
    exact ih (fun op hop => h op (List.mem_cons_of_mem _ hop)) hinv₁ hs₂

/-- And a call returns from wherever it gets. -/
theorem calls_returns (h : ∀ op ∈ ops, ∀ s a, P.Inv s a → Q s → ∃ r s', I.Answers me s op r s' ∧ Q s')
    (hinv : P.Inv s a) (hs : Q s) {pre post : List Op} {op : Op} (hops : ops = pre ++ op :: post)
    (hc : I.Calls me s pre rs s') {x : σ × loc} (hx : I.Alone me (s', I.start op) x) :
    I.Returns me Q x.1 x.2 := by
  subst hops
  obtain ⟨⟨b, hb⟩, hs'⟩ :=
    P.calls_ready D (fun op hop => h op (List.mem_append_left _ hop)) hinv hs hc
  obtain ⟨r, s₂, ⟨l, hl, hr⟩, hs₂⟩ := h op (by simp) s' b hb hs'
  exact ⟨s₂, l, r, D.alone hx hl hr, hr, hs₂⟩

end Deterministic

end Outline

end ParSweet.Concurrent
