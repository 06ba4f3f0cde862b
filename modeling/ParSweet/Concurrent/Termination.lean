import ParSweet.Concurrent.Calls

/-! Calls that come to an end whatever is chosen for them.

`Returns` says that a call alone may get to its end; `Ends` says that it must, that it is
never stuck on the way, and that it never gets back to where it started. An object
`Computes` a function of the value if its calls, made one after the other, all end and
answer what the function answers. -/
namespace ParSweet.Concurrent

variable {τ Op Res σ loc χ A : Type*}

namespace Implementation

/-- Whatever is chosen, a call of `me` alone comes from `l` to its end, never passes `start`, and
leaves a store that meets `P`. -/
inductive Ends (I : Implementation τ Op Res σ loc χ) (me : τ) (start : loc) (P : σ → Prop) :
    σ → loc → Prop where
  | returned {s l r} : I.result l = some r → (∀ c, I.step me s l c = none) → P s → Ends I me start P s l
  | step {s l} : I.result l = none → (∃ c d, I.step me s l c = some d) →
      (∀ c d, I.step me s l c = some d → d.2 ≠ start) →
      (∀ c d, I.step me s l c = some d → Ends I me start P d.1 d.2) → Ends I me start P s l

/-- A step with one outcome, whatever is chosen. -/
structure Forced (I : Implementation τ Op Res σ loc χ) (me : τ) (start : loc) (x y : σ × loc) : Prop where
  result : I.result x.2 = none
  step : ∀ c, I.step me x.1 x.2 c = some y
  passes : y.2 ≠ start

variable {I : Implementation τ Op Res σ loc χ} {me : τ} {start : loc} {P : σ → Prop} {s s' : σ} {l l' : loc}

/-- Only the steps after the first have to stay off `start`. -/
theorem Ends.forced [Nonempty χ] {x y : σ × loc} (h : I.Forced me start x y)
    (hy : I.Ends me start P y.1 y.2) : I.Ends me start P x.1 x.2 := by
  have hy' : ∀ c d, I.step me x.1 x.2 c = some d → d = y := fun c d hd =>
    (Option.some.inj ((h.step c).symm.trans hd)).symm
  refine .step h.result (Nonempty.elim ‹_› fun c => ⟨c, y, h.step c⟩) (fun c d hd => ?_) fun c d hd => ?_
  · rw [hy' c d hd]
    exact h.passes
  · rw [hy' c d hd]
    exact hy

theorem Ends.surely [Nonempty χ] {x y : σ × loc} (h : Relation.ReflTransGen (I.Forced me start) x y)
    (hy : I.Ends me start P y.1 y.2) : I.Ends me start P x.1 x.2 := by
  induction h using Relation.ReflTransGen.head_induction_on with
  | refl => exact hy
  | head hf _ ih => exact .forced hf ih

/-- What is forced is possible. -/
theorem alone_of_forced [Nonempty χ] {x y : σ × loc} (h : Relation.ReflTransGen (I.Forced me start) x y) :
    I.Alone me x y := by
  obtain ⟨c⟩ := ‹Nonempty χ›
  induction h with
  | refl => exact .refl
  | tail _ hf ih => exact ih.tail ⟨c, hf.step c⟩

/-- Wherever the call gets, it comes to its end from there. -/
theorem Ends.alone (h : I.Ends me start P s l) (hx : I.Alone me (s, l) (s', l')) : I.Ends me start P s' l' := by
  generalize hfrom : (s, l) = x at hx
  generalize hto : (s', l') = y at hx
  induction hx generalizing s' l' with
  | refl =>
    subst hfrom
    cases hto
    exact h
  | @tail y z _ hstep ih =>
    subst hto
    obtain ⟨c, hc⟩ := hstep
    have hy : I.Ends me start P y.1 y.2 := ih rfl
    cases hy with
    | returned _ hstop _ =>
      rw [hstop c] at hc
      cases hc
    | step _ _ _ hnext => exact hnext c _ hc

/-- Every answer of the call leaves a store that meets `P`. -/
theorem Ends.answers {op : Op} {r : Res} (h : I.Ends me start P s (I.start op)) (hr : I.Answers me s op r s') :
    P s' := by
  obtain ⟨l, hl, hres⟩ := hr
  cases h.alone hl with
  | returned _ _ hs' => exact hs'
  | step hnone =>
    rw [hres] at hnone
    cases hnone

/-- There is an answer. -/
theorem Ends.returns (h : I.Ends me start P s l) : I.Returns me P s l := by
  induction h with
  | @returned s l r hr _ hs => exact ⟨s, l, r, .refl, hr, hs⟩
  | step _ hex _ _ ih =>
    obtain ⟨c, d, hd⟩ := hex
    exact .step c d hd (ih c d hd)

theorem Ends.mono {Q : σ → Prop} (h : I.Ends me start P s l) (hPQ : ∀ s, P s → Q s) :
    I.Ends me start Q s l := by
  induction h with
  | returned hr hstop hs => exact .returned hr hstop (hPQ _ hs)
  | step hr hex hpass _ ih => exact .step hr hex hpass ih

/-- Code that leaves nothing open comes to the end it may get to, if no step goes back to `start`. -/
theorem Deterministic.ends (D : I.Deterministic me) (hpass : ∀ s l c d, I.step me s l c = some d → d.2 ≠ start)
    (h : I.Returns me P s l) : I.Ends me start P s l := by
  obtain ⟨s', l', r, hl, hr, hs'⟩ := h
  have hend : I.Ends me start P s' l' := .returned hr (fun c => D.stop s' l' c r hr) hs'
  generalize hfrom : (s, l) = x at hl
  generalize hto : (s', l') = y at hl
  induction hl using Relation.ReflTransGen.head_induction_on generalizing s l with
  | refl =>
    subst hfrom
    cases hto
    exact hend
  | @head x y hstep _ ih =>
    subst hfrom
    obtain ⟨c, hc⟩ := hstep
    refine .step ?_ ⟨c, y, hc⟩ (hpass s l) fun c' d hd => ?_
    · cases hres : I.result l with
      | none => rfl
      | some r' =>
        rw [D.stop s l c r' hres] at hc
        cases hc
    · rw [D.step s l c' c, hc, Option.some.injEq] at hd
      subst hd
      exact ih rfl

/-- Calls of `me` on the new object, one after the other, all come to their ends, none of them
starting over, and answer what `f` answers from `a₀` on. -/
structure Computes (I : Implementation τ Op Res σ loc χ) (me : τ) (f : Op → A → Res × A) (a₀ : A)
    (ops : List Op) : Prop where
  calls : ∃ s, I.Calls me I.store ops (results f a₀ ops) s
  answers : ∀ rs s, I.Calls me I.store ops rs s → rs = results f a₀ ops
  ends : ∀ pre op post rs s, ops = pre ++ op :: post → I.Calls me I.store pre rs s →
    I.Ends me (I.start op) (fun _ => True) s (I.start op)

end Implementation

namespace Outline
variable {I : Implementation τ Op Res σ loc χ} {f : Op → A → Res × A} {a₀ a : A} {me : τ} {s s' : σ}
  {ops : List Op} {rs : List Res}

/-- Calls that end with the store ready for the next leave it ready. -/
theorem calls_ends (P : Outline I (Spec.ofFun f a₀)) {Q : σ → Prop}
    (h : ∀ op ∈ ops, ∀ s a, P.Inv s a → Q s → I.Ends me (I.start op) Q s (I.start op))
    (hinv : P.Inv s a) (hs : Q s) (hc : I.Calls me s ops rs s') : (∃ b, P.Inv s' b) ∧ Q s' := by
  induction hc generalizing a with
  | nil => exact ⟨⟨a, hinv⟩, hs⟩
  | @cons s op r s₁ ops rs s' hr _ ih =>
    have hs₁ : Q s₁ := (h op List.mem_cons_self s a hinv hs).answers hr
    obtain ⟨b, _, hinv₁, _⟩ := P.answers hinv hr
    exact ih (fun op hop => h op (List.mem_cons_of_mem _ hop)) hinv₁ hs₁

/-- **An object with an outline computes its specification**, if every call alone comes to its end
and leaves the store ready for the next. -/
theorem computes (P : Outline I (Spec.ofFun f a₀)) {Q : σ → Prop}
    (h : ∀ op ∈ ops, ∀ s a, P.Inv s a → Q s → I.Ends me (I.start op) Q s (I.start op))
    (hQ : Q I.store) : I.Computes me f a₀ ops where
  calls := by
    obtain ⟨rs, s, hc⟩ := P.exists_calls
      (fun op hop s a hinv hs => (h op hop s a hinv hs).returns.answers) P.initial hQ
    have hrs : rs = results f a₀ ops := (P.calls_results P.initial hc).1
    exact ⟨s, hrs ▸ hc⟩
  answers := fun rs s hc => (P.calls_results P.initial hc).1
  ends := fun pre op post rs s hops hc => by
    subst hops
    obtain ⟨⟨b, hb⟩, hs⟩ :=
      P.calls_ends (fun op hop => h op (List.mem_append_left _ hop)) P.initial hQ hc
    exact (h op (by simp) s b hb hs).mono fun _ _ => trivial

end Outline

end ParSweet.Concurrent
