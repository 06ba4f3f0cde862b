import ParSweet.Concurrent.Calls

/-! Threads that keep to operations of their own.

If a thread's operations read and change nothing that the others' do (`Independent`), then
whatever is interleaved, the answers it gets are those it would get alone: the atomic object
answers every thread as if nobody else were there (`AtomicObject.rets_initial`), and so does
whatever has an outline (`Outline.undisturbed`). -/
namespace ParSweet.Concurrent

variable {τ Op Res σ loc χ A : Type*}

/-! ### What one thread does in a run -/

section Projection
variable [DecidableEq τ] {t u : τ} {op : Op} {r : Res} {es fs : List (Event τ Op Res)}

/-- The operations `t` has called. -/
def callsOf (t : τ) (es : List (Event τ Op Res)) : List Op :=
  es.filterMap fun
    | .call u op => if u = t then some op else none
    | .ret _ _ => none

/-- The answers `t` has got. -/
def retsOf (t : τ) (es : List (Event τ Op Res)) : List Res :=
  es.filterMap fun
    | .call _ _ => none
    | .ret u r => if u = t then some r else none

@[simp] theorem callsOf_append : callsOf t (es ++ fs) = callsOf t es ++ callsOf t fs :=
  List.filterMap_append

@[simp] theorem retsOf_append : retsOf t (es ++ fs) = retsOf t es ++ retsOf t fs :=
  List.filterMap_append

@[simp] theorem callsOf_call :
    callsOf t [(.call u op : Event τ Op Res)] = if u = t then [op] else [] := by
  by_cases h : u = t <;> simp [callsOf, h]

@[simp] theorem retsOf_call : retsOf t [(.call u op : Event τ Op Res)] = [] := rfl

@[simp] theorem callsOf_ret : callsOf t [(.ret u r : Event τ Op Res)] = [] := rfl

@[simp] theorem retsOf_ret : retsOf t [(.ret u r : Event τ Op Res)] = if u = t then [r] else [] := by
  by_cases h : u = t <;> simp [retsOf, h]

/-- A thread has called as often as it has been answered, or once more while it is in a call. -/
def CallsOnce (t : τ) (es : List (Event τ Op Res)) (outside : Prop) : Prop :=
  (outside ∧ (callsOf t es).length = (retsOf t es).length) ∨
    (¬ outside ∧ (callsOf t es).length = (retsOf t es).length + 1)

theorem CallsOnce.call {p q : Prop} (h : CallsOnce t es p) (hp : p) (hq : ¬ q) :
    CallsOnce t (es ++ [.call t op]) q := by
  rcases h with ⟨_, h⟩ | ⟨hn, _⟩
  · exact .inr ⟨hq, by simp [h]⟩
  · exact absurd hp hn

theorem CallsOnce.ret {p q : Prop} (h : CallsOnce t es p) (hp : ¬ p) (hq : q) : CallsOnce t (es ++ [.ret t r]) q := by
  rcases h with ⟨hn, _⟩ | ⟨_, h⟩
  · exact absurd hn hp
  · exact .inl ⟨hq, by simp [h]⟩

/-- By the calls and returns alone. -/
theorem CallsOnce.iff {p q : Prop} (h : CallsOnce t es p) (h' : CallsOnce t es q) : p ↔ q := by
  rcases h with ⟨hp, h⟩ | ⟨hp, h⟩ <;> rcases h' with ⟨hq, h'⟩ | ⟨hq, h'⟩
  · exact iff_of_true hp hq
  · omega
  · omega
  · exact iff_of_false hp hq

theorem AtomicObject.run_callsOnce {S : Spec Op Res A} {a : AtomicObject.State τ Op Res A}
    (h : (AtomicObject.system S).Run es a) (t : τ) : CallsOnce t es (a.status t = .idle) := by
  refine h.invariant_events (S := AtomicObject.system S) (I := fun es a => ∀ t, CallsOnce t es (a.status t = .idle))
    (fun t => .inl ⟨rfl, rfl⟩) (fun es a l b ih hstep t => ?_) t
  cases hstep with
  | @call u op hidle =>
    by_cases hu : u = t
    · subst hu
      exact (ih u).call hidle (by simp)
    · simpa [CallsOnce, hu, Ne.symm hu] using ih t
  | @take u op r b hpending _ =>
    by_cases hu : u = t
    · subst hu
      simpa [CallsOnce, hpending] using ih u
    · simpa [CallsOnce, Ne.symm hu] using ih t
  | @ret u r hdone =>
    by_cases hu : u = t
    · subst hu
      exact (ih u).ret (by simp [hdone]) (by simp)
    · simpa [CallsOnce, hu, Ne.symm hu] using ih t

theorem Implementation.run_callsOnce {I : Implementation τ Op Res σ loc χ} {s : Implementation.State τ σ loc}
    (h : I.system.Run es s) (t : τ) : CallsOnce t es (s.pc t = none) := by
  refine h.invariant_events (S := I.system) (I := fun es s => ∀ t, CallsOnce t es (s.pc t = none))
    (fun t => .inl ⟨rfl, rfl⟩) (fun es s l s' ih hstep t => ?_) t
  rcases Implementation.step_cases hstep with
    ⟨u, op, hpc, rfl, rfl⟩ | ⟨u, x, c, st, y, hpc, _, rfl, rfl⟩ | ⟨u, x, r, hpc, _, rfl, rfl⟩
  · by_cases hu : u = t
    · subst hu
      exact (ih u).call hpc (by simp)
    · simpa [CallsOnce, hu, Ne.symm hu] using ih t
  · by_cases hu : u = t
    · subst hu
      simpa [CallsOnce, hpc] using ih u
    · simpa [CallsOnce, Ne.symm hu] using ih t
  · by_cases hu : u = t
    · subst hu
      exact (ih u).ret (by simp [hpc]) (by simp)
    · simpa [CallsOnce, hu, Ne.symm hu] using ih t

end Projection

/-! ### Operations one after the other -/

/-- The value after the operations. -/
def valueAfter (f : Op → A → Res × A) (a : A) (ops : List Op) : A := ops.foldl (fun a op => (f op a).2) a

variable {f : Op → A → Res × A} {a a₀ : A} {ops ops' : List Op}

theorem results_append : results f a (ops ++ ops') = results f a ops ++ results f (valueAfter f a ops) ops' := by
  induction ops generalizing a with
  | nil => rfl
  | cons op ops ih => simp only [List.cons_append, results, valueAfter, List.foldl_cons, ih]

theorem valueAfter_concat (op : Op) : valueAfter f a (ops ++ [op]) = (f op (valueAfter f a ops)).2 := by
  rw [valueAfter, List.foldl_concat]
  rfl

theorem results_initial (h : ops <+: ops') : results f a ops <+: results f a ops' := by
  obtain ⟨post, rfl⟩ := h
  exact ⟨_, results_append.symm⟩

/-! ### Independence -/

/-- `Same t` relates the values that look the same to `t`: its own operations answer the same on
both and leave them the same, and the others' leave a value that looks as before. -/
structure Independent (f : Op → A → Res × A) (Own : τ → Op → Prop) (Same : τ → A → A → Prop) : Prop where
  refl : ∀ t a, Same t a a
  own : ∀ t op a b, Own t op → Same t a b → (f op a).1 = (f op b).1 ∧ Same t (f op a).2 (f op b).2
  other : ∀ t u op a b, u ≠ t → Own u op → Same t a b → Same t (f op a).2 b

namespace AtomicObject
variable [DecidableEq τ] {t : τ} {es : List (Event τ Op Res)} {s : State τ Op Res A}
  {Own : τ → Op → Prop} {Same : τ → A → A → Prop}

/-- How the value looks to `t`, and what `t` has been answered, where it stands as it does. -/
def Seen (f : Op → A → Res × A) (a₀ : A) (Same : τ → A → A → Prop) (t : τ) (calls : List Op)
    (rets : List Res) (a : A) : Status Op Res → Prop
  | .idle => rets = results f a₀ calls ∧ Same t a (valueAfter f a₀ calls)
  | .pending op => ∃ ops, calls = ops ++ [op] ∧ rets = results f a₀ ops ∧ Same t a (valueAfter f a₀ ops)
  | .done r => rets ++ [r] = results f a₀ calls ∧ Same t a (valueAfter f a₀ calls)

omit [DecidableEq τ] in
/-- It goes by how the value looks to `t`. -/
theorem Seen.other {calls : List Op} {rets : List Res} {b : A} {q : Status Op Res}
    (h : Seen f a₀ Same t calls rets a q) (hsame : ∀ c, Same t a c → Same t b c) :
    Seen f a₀ Same t calls rets b q := by
  cases q with
  | idle => exact ⟨h.1, hsame _ h.2⟩
  | pending op =>
    obtain ⟨ops, hops, hrets, hs⟩ := h
    exact ⟨ops, hops, hrets, hsame _ hs⟩
  | done r => exact ⟨h.1, hsame _ h.2⟩

omit [DecidableEq τ] in
theorem Seen.rets {calls : List Op} {rets : List Res} {q : Status Op Res}
    (h : Seen f a₀ Same t calls rets a q) : rets <+: results f a₀ calls := by
  cases q with
  | idle => exact ⟨[], (List.append_nil rets).trans h.1⟩
  | pending op =>
    obtain ⟨ops, rfl, rfl, _⟩ := h
    exact results_initial ⟨[op], rfl⟩
  | done r =>
    rw [← h.1]
    exact ⟨[r], rfl⟩

/-- A step of the atomic object. -/
theorem seen_step {s' : State τ Op Res A} {l : Option (Event τ Op Res)} (hind : Independent f Own Same)
    (h : ∀ t, Seen f a₀ Same t (callsOf t es) (retsOf t es) s.value (s.status t))
    (hown : ∀ t, ∀ op ∈ callsOf t es, Own t op) (hstep : Step (Spec.ofFun f a₀) s l s') (t : τ) :
    Seen f a₀ Same t (callsOf t (es ++ l.toList)) (retsOf t (es ++ l.toList)) s'.value (s'.status t) := by
  cases hstep with
  | @call u op hidle =>
    by_cases hu : u = t
    · subst hu
      have hseen := h u
      rw [hidle] at hseen
      simp only [Option.toList_some, callsOf_append, callsOf_call, if_true, retsOf_append, retsOf_call,
        List.append_nil, Function.update_self]
      exact ⟨_, rfl, hseen⟩
    · simpa [hu, Ne.symm hu] using h t
  | @take u op r b hpending hap =>
    have hap : f op s.value = (r, b) := hap
    simp only [Option.toList_none, List.append_nil]
    have hcalls := h u
    rw [hpending] at hcalls
    obtain ⟨ops, hops, hrets, hsame⟩ := hcalls
    have hop : Own u op := hown u op (by simp [hops])
    by_cases hu : u = t
    · subst hu
      obtain ⟨hr, hsame'⟩ := hind.own u op _ _ hop hsame
      rw [hap] at hr hsame'
      simp only [Function.update_self]
      refine ⟨?_, ?_⟩
      · rw [hops, results_append, hrets]
        simp [results, ← hr]
      · rw [hops, valueAfter_concat]
        exact hsame'
    · rw [Function.update_of_ne (Ne.symm hu)]
      refine (h t).other fun c hc => ?_
      have := hind.other t u op _ _ hu hop hc
      rwa [hap] at this
  | @ret u r hdone =>
    by_cases hu : u = t
    · subst hu
      have hseen := h u
      rw [hdone] at hseen
      simpa [Seen] using hseen
    · simpa [hu, Ne.symm hu] using h t

/-- **Every thread is answered as if it were alone.** -/
theorem rets_initial (hind : Independent f Own Same) (h : (system (Spec.ofFun f a₀)).Run es s)
    (hown : ∀ t, ∀ op ∈ callsOf t es, Own t op) (t : τ) : retsOf t es <+: results f a₀ (callsOf t es) := by
  have hstart : ∀ t, Seen f a₀ Same t (callsOf t ([] : List (Event τ Op Res))) [] a₀ .idle := fun t =>
    ⟨rfl, hind.refl t a₀⟩
  have key := h.invariant_events (S := system (Spec.ofFun f a₀))
    (I := fun es s => (∀ t, ∀ op ∈ callsOf t es, Own t op) →
      ∀ t, Seen f a₀ Same t (callsOf t es) (retsOf t es) s.value (s.status t))
    (fun _ => hstart) fun es s l s' ih hstep hown => by
      have hown' : ∀ t, ∀ op ∈ callsOf t es, Own t op := fun t op hop => hown t op (by simp [hop])
      exact seen_step hind (ih hown') hown' hstep
  exact (key hown t).rets

end AtomicObject

/-! ### Objects with an outline -/

namespace Implementation

/-- Threads that keep to their scripts get the answers they get alone: whatever `t` has been
answered when it has called some of its script, among the others or not, is what running its
script by itself on a new object answers. -/
structure Undisturbed [DecidableEq τ] (I : Implementation τ Op Res σ loc χ) (script : τ → List Op) : Prop where
  alone : ∀ t, ∃ rs s, I.Calls t I.store (script t) rs s
  same : ∀ es s, I.system.Run es s → (∀ t, callsOf t es <+: script t) →
    ∀ t rs s', I.Calls t I.store (script t) rs s' → retsOf t es <+: rs

end Implementation

theorem Outline.undisturbed [DecidableEq τ] {I : Implementation τ Op Res σ loc χ} {script : τ → List Op}
    {Same : τ → A → A → Prop} (P : Outline I (Spec.ofFun f a₀))
    (hind : Independent f (fun t op => op ∈ script t) Same)
    (halone : ∀ t, ∃ rs s, I.Calls t I.store (script t) rs s) : I.Undisturbed script where
  alone := halone
  same := fun es s hrun hscript t rs s' hc => by
    obtain ⟨a, ha, _⟩ := P.simulation.run hrun
    rw [(P.calls_results P.initial hc).1]
    have hrets : retsOf t es <+: results f a₀ (callsOf t es) :=
      AtomicObject.rets_initial hind ha (fun u op hop => (hscript u).subset hop) t
    exact hrets.trans (results_initial (hscript t))

end ParSweet.Concurrent
