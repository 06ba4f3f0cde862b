import ParSweet.Concurrent.Calls

/-! Objects made of many equal ones.

A `Routing` turns every operation into an operation of one of the parts, and the part's
answer into an answer. Parts do not share anything, so an outline of a part is an outline
of the whole (`Outline.route`), whose value is the family of the parts' values. To say
what such a family means, an outline can be moved to a specification that simulates its
own (`Outline.refine`). -/
namespace ParSweet.Concurrent

variable {ι τ Op Res Op' Res' σ loc χ A B : Type*}

/-- Where an operation goes, as what, and what becomes of the answer. An operation that
goes nowhere never returns. -/
structure Routing (ι Op Res Op' Res' : Type*) where
  index : Op → Option ι
  inner : Op → Op'
  outer : Op → Res' → Res

variable [DecidableEq ι] (R : Routing ι Op Res Op' Res')

/-- One object for every index. -/
def Implementation.route (I : Implementation τ Op' Res' σ loc χ) :
    Implementation τ Op Res (ι → σ) (Op × loc) χ where
  store := fun _ => I.store
  start := fun op => (op, I.start (R.inner op))
  step := fun me s l c =>
    match R.index l.1 with
    | none => none
    | some i => (I.step me (s i) l.2 c).map fun p => (Function.update s i p.1, l.1, p.2)
  result := fun l =>
    match R.index l.1 with
    | none => none
    | some _ => (I.result l.2).map (R.outer l.1)

def Spec.route (S : Spec Op' Res' A) : Spec Op Res (ι → A) where
  initial := fun _ => S.initial
  apply := fun op a r b => ∃ i r' x, R.index op = some i ∧ S.apply (R.inner op) (a i) r' x ∧
    r = R.outer op r' ∧ b = Function.update a i x

variable {R} {I : Implementation τ Op' Res' σ loc χ} {S : Spec Op' Res' A}

/-- A step of the whole is a step of one part. -/
theorem Implementation.route_step {me : τ} {s s' : ι → σ} {l l' : Op × loc} {c : χ}
    (h : (I.route R).step me s l c = some (s', l')) :
    ∃ i x l₁, R.index l.1 = some i ∧ I.step me (s i) l.2 c = some (x, l₁) ∧
      s' = Function.update s i x ∧ l' = (l.1, l₁) := by
  simp only [Implementation.route] at h
  cases hi : R.index l.1 with
  | none => simp [hi] at h
  | some i =>
    simp only [hi, Option.map_eq_some_iff, Prod.mk.injEq] at h
    obtain ⟨⟨x, l₁⟩, hstep, rfl, rfl⟩ := h
    exact ⟨i, x, l₁, rfl, hstep, rfl, rfl⟩

/-- A call of the whole stays one of its operation, and is in a part what it is there. -/
theorem Implementation.About.route {Own : τ → Op → Prop} {Own' : τ → Op' → Prop} {Asks : τ → loc → Prop}
    (h : I.About Own' Asks) (hown : ∀ t op, Own t op → Own' t (R.inner op)) :
    (I.route R).About Own fun t l => Own t l.1 ∧ Asks t l.2 where
  start := fun t op hop => ⟨hop, h.start t _ (hown t op hop)⟩
  step := fun t s l c s' l' hl hstep => by
    obtain ⟨i, x, l₁, _, hpart, _, rfl⟩ := Implementation.route_step hstep
    exact ⟨hl.1, h.step t (s i) l.2 c x l₁ hl.2 hpart⟩

theorem Implementation.SameOn.route {J : Implementation τ Op' Res' σ loc χ} {Asks : τ → loc → Prop}
    {Asks' : τ → Op × loc → Prop} (h : I.SameOn J Asks) (hasks : ∀ t l, Asks' t l → Asks t l.2) :
    (I.route R).SameOn (J.route R) Asks' where
  store := by simp only [Implementation.route, h.store]
  start := by simp only [Implementation.route, h.start]
  step := fun t s l c hl => by
    simp only [Implementation.route]
    cases R.index l.1 with
    | none => rfl
    | some i => simp only [h.step t (s i) l.2 c (hasks t l hl)]
  result := by simp only [Implementation.route, h.result]

/-- A call that a part answers alone is one that the whole answers alone. -/
theorem Implementation.Answers.route {me : τ} {s : ι → σ} {op : Op} {i : ι} {r : Res'} {x : σ}
    (h : I.Answers me (s i) (R.inner op) r x) (hi : R.index op = some i) :
    (I.route R).Answers me s op (R.outer op r) (Function.update s i x) := by
  obtain ⟨l, hl, hr⟩ := h
  refine ⟨(op, l), ?_, by simp [Implementation.route, hi, hr]⟩
  have hstep : ∀ y z : σ × loc, (∃ c, I.step me y.1 y.2 c = some z) →
      ∃ c, (I.route R).step me (Function.update s i y.1) (op, y.2) c =
        some (Function.update s i z.1, (op, z.2)) := by
    rintro y z ⟨c, hc⟩
    exact ⟨c, by simp [Implementation.route, hi, hc]⟩
  have halone := Implementation.Alone.lift (fun y : σ × loc => (Function.update s i y.1, (op, y.2))) hstep hl
  rwa [Function.update_eq_self] at halone

/-- A whole made of deterministic parts is deterministic. -/
theorem Implementation.Deterministic.route {me : τ} (D : I.Deterministic me) (R : Routing ι Op Res Op' Res') :
    (I.route R).Deterministic me where
  step := fun s l c c' => by
    simp only [Implementation.route]
    cases hi : R.index l.1 with
    | none => rfl
    | some i => simp only [D.step (s i) l.2 c c']
  stop := fun s l c r hr => by
    simp only [Implementation.route] at hr ⊢
    cases hi : R.index l.1 with
    | none => rfl
    | some i =>
      simp only [hi, Option.map_eq_some_iff] at hr
      obtain ⟨r', hr', _⟩ := hr
      simp only [D.stop (s i) l.2 c r' hr', Option.map_none]

namespace Outline

/-- **An outline of the parts is an outline of the whole.** -/
def route (P : Outline I S) (R : Routing ι Op Res Op' Res') : Outline (I.route R) (S.route R) where
  Inv := fun s a => ∀ i, P.Inv (s i) (a i)
  Guarantee := fun t s s' => ∀ i, s' i = s i ∨ P.Guarantee t (s i) (s' i)
  Pending := fun t op s l => l.1 = op ∧ ∀ i, R.index op = some i → P.Pending t (R.inner op) (s i) l.2
  Done := fun t r s l => ∃ i r', R.index l.1 = some i ∧ r = R.outer l.1 r' ∧ P.Done t r' (s i) l.2
  initial := fun _ => P.initial
  start := fun t op s a hinv => ⟨rfl, fun i _ => P.start t _ (s i) (a i) (hinv i)⟩
  pending_step := by
    rintro t _ s a ⟨op, l⟩ c s' l' hinv ⟨rfl, hp⟩ hstep
    obtain ⟨i, x, l₁, hi, hpart, rfl, rfl⟩ := Implementation.route_step hstep
    obtain ⟨hg, h⟩ := P.pending_step t _ (s i) (a i) l c x l₁ (hinv i) (hp i hi) hpart
    have hother : ∀ {b : A}, P.Inv x b → ∀ j, P.Inv (Function.update s i x j) (Function.update a i b j) := by
      intro b hb j
      by_cases hj : j = i
      · subst hj
        simpa using hb
      · simpa [hj] using hinv j
    refine ⟨fun j => ?_, ?_⟩
    · by_cases hj : j = i
      · subst hj
        simpa using .inr hg
      · simp [hj]
    · rcases h with ⟨hinv', hp'⟩ | ⟨r, b, hap, hinv', hd⟩
      · refine .inl ⟨fun j => ?_, rfl, fun j hj => ?_⟩
        · simpa using hother hinv' j
        · obtain rfl := Option.some.inj (hi.symm.trans hj)
          simpa using hp'
      · exact .inr ⟨_, _, ⟨i, r, b, hi, hap, rfl, rfl⟩, hother hinv', i, r, hi, rfl, by simpa using hd⟩
  done_step := by
    rintro t r s a ⟨op, l⟩ c s' l' hinv ⟨i, r', hi, rfl, hd⟩ hstep
    obtain ⟨j, x, l₁, hj, hpart, rfl, rfl⟩ := Implementation.route_step hstep
    obtain rfl := Option.some.inj (hi.symm.trans hj)
    obtain ⟨hg, hinv', hd'⟩ := P.done_step t r' (s i) (a i) l c x l₁ (hinv i) hd hpart
    refine ⟨fun j => ?_, fun j => ?_, i, r', hi, rfl, by simpa using hd'⟩
    · by_cases hj : j = i
      · subst hj
        simpa using .inr hg
      · simp [hj]
    · by_cases hj : j = i
      · subst hj
        simpa using hinv'
      · simpa [hj] using hinv j
  pending_result := by
    rintro t _ s ⟨op, l⟩ ⟨rfl, hp⟩
    cases hi : R.index op with
    | none => simp [Implementation.route, hi]
    | some i => simp [Implementation.route, hi, P.pending_result t _ (s i) l (hp i hi)]
  done_result := by
    rintro t r r₁ s ⟨op, l⟩ ⟨i, r', hi, rfl, hd⟩ hr
    simp only [Implementation.route, hi, Option.map_eq_some_iff] at hr
    obtain ⟨r₂, hr₂, rfl⟩ := hr
    rw [P.done_result t r' r₂ (s i) l hd hr₂]
  pending_stable := by
    rintro t u op s a s' l hne hinv hg ⟨hop, hp⟩
    refine ⟨hop, fun i hi => ?_⟩
    rcases hg i with h | h
    · rw [h]
      exact hp i hi
    · exact P.pending_stable t u _ (s i) (a i) (s' i) _ hne (hinv i) h (hp i hi)
  done_stable := by
    rintro t u r s a s' l hne hinv hg ⟨i, r', hi, hr, hd⟩
    refine ⟨i, r', hi, hr, ?_⟩
    rcases hg i with h | h
    · rw [h]
      exact hd
    · exact P.done_stable t u _ (s i) (a i) (s' i) _ hne (hinv i) h hd

/-- Nor does a call that goes to a part stand there at a fault of the parts. -/
theorem Avoids.route {P : Outline I S} {fault : loc → Prop} (h : P.Avoids fault) (R : Routing ι Op Res Op' Res') :
    (P.route R).Avoids fun l => R.index l.1 ≠ none ∧ fault l.2 where
  pending := fun t op s l hp hf => by
    obtain ⟨i, hi⟩ := Option.ne_none_iff_exists'.mp hf.1
    exact h.pending t _ (s i) l.2 (hp.2 i (by rw [← hp.1, hi])) hf.2
  done := fun t r s l hd hf => by
    obtain ⟨i, r', _, _, hd⟩ := hd
    exact h.done t r' (s i) l.2 hd hf.2

/-- An outline against one specification is one against any other that can follow it. -/
def refine {I : Implementation τ Op Res σ loc χ} {S : Spec Op Res A} (P : Outline I S) (T : Spec Op Res B)
    (Rep : A → B → Prop) (initial : Rep S.initial T.initial)
    (apply : ∀ op a b r a', Rep a b → S.apply op a r a' → ∃ b', T.apply op b r b' ∧ Rep a' b') :
    Outline I T where
  Inv := fun s b => ∃ a, P.Inv s a ∧ Rep a b
  Guarantee := P.Guarantee
  Pending := P.Pending
  Done := P.Done
  initial := ⟨S.initial, P.initial, initial⟩
  start := fun t op s _ ⟨a, hinv, _⟩ => P.start t op s a hinv
  pending_step := by
    rintro t op s b l c s' l' ⟨a, hinv, hrep⟩ hp hstep
    obtain ⟨hg, ⟨hinv', hp'⟩ | ⟨r, a', hap, hinv', hd⟩⟩ := P.pending_step t op s a l c s' l' hinv hp hstep
    · exact ⟨hg, .inl ⟨⟨a, hinv', hrep⟩, hp'⟩⟩
    · obtain ⟨b', hb', hrep'⟩ := apply op a b r a' hrep hap
      exact ⟨hg, .inr ⟨r, b', hb', ⟨a', hinv', hrep'⟩, hd⟩⟩
  done_step := by
    rintro t r s b l c s' l' ⟨a, hinv, hrep⟩ hd hstep
    obtain ⟨hg, hinv', hd'⟩ := P.done_step t r s a l c s' l' hinv hd hstep
    exact ⟨hg, ⟨a, hinv', hrep⟩, hd'⟩
  pending_result := P.pending_result
  done_result := P.done_result
  pending_stable := fun t u op s _ s' l hne ⟨a, hinv, _⟩ hg hp => P.pending_stable t u op s a s' l hne hinv hg hp
  done_stable := fun t u r s _ s' l hne ⟨a, hinv, _⟩ hg hd => P.done_stable t u r s a s' l hne hinv hg hd

end Outline

end ParSweet.Concurrent
