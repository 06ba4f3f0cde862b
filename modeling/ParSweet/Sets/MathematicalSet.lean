import ParSweet.Concurrent.Routing
import ParSweet.Concurrent.Termination
import ParSweet.Sets.Operations

/-! The mathematical set as a function: for every element, the one equal to it that is in
the set, if there is one. -/
namespace ParSweet.Sets
open Concurrent

/-- What an operation answers when `old` is the element equal to its own, if there is one. -/
def SetOp.answer {T : Type*} (old : Option T) : SetOp T → SetRes T
  | .add _ => .flag old.isNone
  | .remove _ => .flag old.isSome
  | .contains _ => .flag old.isSome
  | .getEqual _ => .found old

variable {T : Type*} [BEq T]

/-- An operation on the set in which `M t` is the element equal to `t`. -/
def oneOfEach (op : SetOp T) (M : T → Option T) : SetRes T × (T → Option T) :=
  (op.answer (M op.element),
    match op with
    | .add t => if (M t).isNone then fun u => if t == u then some t else M u else M
    | .remove t => fun u => if t == u then none else M u
    | .contains _ => M
    | .getEqual _ => M)

/-- An operation that finds its element, and is no `remove`, changes nothing. -/
theorem oneOfEach_present {op : SetOp T} {M : T → Option T} {x : T} (hM : M op.element = some x)
    (hop : op ≠ .remove op.element) : oneOfEach op M = (op.answer (some x), M) := by
  cases op with
  | add t => rw [oneOfEach, hM, if_neg (by rw [show M t = some x from hM]; simp)]
  | remove t => exact absurd rfl hop
  | contains t => rw [oneOfEach, hM]
  | getEqual t => rw [oneOfEach, hM]

theorem oneOfEach_add {M : T → Option T} {t : T} (hM : M t = none) :
    oneOfEach (.add t) M = (.flag true, fun u => if t == u then some t else M u) := by
  simp [oneOfEach, SetOp.answer, SetOp.element, hM]

/-- `M` finds what is in `A`. -/
def Finds (M : T → Option T) (A : Set T) : Prop := ∀ t x, M t = some x ↔ x ∈ A ∧ (t == x) = true

variable {M : T → Option T} {A B : Set T} {t x : T} {op : SetOp T} {r : SetRes T}

theorem finds_empty : Finds (fun _ => none) (∅ : Set T) := fun _ _ => by simp

theorem Finds.isSome_iff (h : Finds M A) : (M t).isSome = true ↔ Member t A := by
  rw [Option.isSome_iff_exists]
  exact exists_congr fun x => h t x

theorem Finds.eq_none_iff (h : Finds M A) : M t = none ↔ ¬ Member t A := by
  rw [← h.isSome_iff, Option.not_isSome_iff_eq_none]

theorem Finds.add [EquivBEq T] (h : Finds M A) (hnew : ¬ Member t A) :
    Finds (fun u => if t == u then some t else M u) (insert t A) := by
  intro u x
  by_cases hu : (t == u) = true
  · have hxA : x ∈ A → ¬ (u == x) = true := fun hx hux => hnew ⟨x, hx, PartialEquivBEq.trans hu hux⟩
    simp only [if_pos hu, Option.some.injEq, Set.mem_insert_iff]
    constructor
    · rintro rfl
      exact ⟨.inl rfl, PartialEquivBEq.symm hu⟩
    · rintro ⟨hx | hx, hux⟩
      · exact hx.symm
      · exact absurd hux (hxA hx)
  · simp only [if_neg hu, h u x, Set.mem_insert_iff]
    refine ⟨fun hx => ⟨.inr hx.1, hx.2⟩, ?_⟩
    rintro ⟨hx | hx, hux⟩
    · exact absurd (PartialEquivBEq.symm (hx ▸ hux)) hu
    · exact ⟨hx, hux⟩

theorem Finds.remove [EquivBEq T] (h : Finds M A) :
    Finds (fun u => if t == u then none else M u) {x ∈ A | (t == x) = false} := by
  intro u x
  by_cases hu : (t == u) = true
  · simp only [if_pos hu, Set.mem_ofPred_eq, reduceCtorEq, false_iff]
    rintro ⟨⟨_, hx⟩, hux⟩
    rw [PartialEquivBEq.trans hu hux] at hx
    cases hx
  · simp only [if_neg hu, h u x, Set.mem_ofPred_eq]
    refine ⟨fun hx => ⟨⟨hx.1, Bool.of_not_eq_true fun htx => ?_⟩, hx.2⟩, fun hx => ⟨hx.1.1, hx.2⟩⟩
    exact hu (PartialEquivBEq.trans htx (PartialEquivBEq.symm hx.2))

/-- Nothing is removed where nothing is. -/
theorem Finds.remove_missing [EquivBEq T] (h : Finds M A) (hnot : ¬ Member t A) :
    Finds (fun u => if t == u then none else M u) A := by
  intro u x
  by_cases hu : (t == u) = true
  · simp only [if_pos hu, reduceCtorEq, false_iff]
    rintro ⟨hx, hux⟩
    exact hnot ⟨x, hx, PartialEquivBEq.trans hu hux⟩
  · simp only [if_neg hu, h u x]

/-- **Every answer of the set of elements is that of the function.** -/
theorem Finds.apply [EquivBEq T] (h : Finds M A) (hap : SetApply op A r B) :
    ∃ M', oneOfEach op M = (r, M') ∧ Finds M' B := by
  cases hap with
  | @contains t b _ hb =>
    have hM : (M t).isSome = b := Bool.eq_iff_iff.mpr (h.isSome_iff.trans hb.symm)
    exact ⟨M, by simp [oneOfEach, SetOp.answer, SetOp.element, hM], h⟩
  | @getEqual t x _ hx htx =>
    exact ⟨M, by simp [oneOfEach, SetOp.answer, SetOp.element, (h t x).mpr ⟨hx, htx⟩], h⟩
  | getEqualMissing hnot =>
    exact ⟨M, by simp [oneOfEach, SetOp.answer, SetOp.element, h.eq_none_iff.mpr hnot], h⟩
  | add hnot =>
    exact ⟨_, oneOfEach_add (h.eq_none_iff.mpr hnot), h.add hnot⟩
  | @addPresent t _ hmem =>
    obtain ⟨x, hx⟩ := Option.isSome_iff_exists.mp (h.isSome_iff.mpr hmem)
    exact ⟨M, by simp [oneOfEach, SetOp.answer, SetOp.element, hx], h⟩
  | remove hmem =>
    exact ⟨_, by simp [oneOfEach, SetOp.answer, SetOp.element, h.isSome_iff.mpr hmem], h.remove⟩
  | removeMissing hnot =>
    exact ⟨_, by simp [oneOfEach, SetOp.answer, SetOp.element, h.eq_none_iff.mpr hnot],
      h.remove_missing hnot⟩

variable {τ σ loc χ : Type*} {I : Implementation τ (SetOp T) (SetRes T) σ loc χ}

/-- An outline for the set of elements is one for the function. -/
def outlineOneOfEach [EquivBEq T] (P : Outline I (setSpec (T := T))) :
    Outline I (Spec.ofFun (oneOfEach (T := T)) fun _ => none) :=
  P.refine _ (fun A M => Finds M A) finds_empty fun _ _ _ _ _ h hap => h.apply hap

/-- A set with an outline computes the function, if every call alone comes to its end and leaves the
store ready for the next. -/
theorem computes_oneOfEach [EquivBEq T] (P : Outline I (setSpec (T := T))) {me : τ} {Q : σ → Prop}
    (h : ∀ op s A, P.Inv s A → Q s → I.Ends me (I.start op) Q s (I.start op)) (hQ : Q I.store)
    (ops : List (SetOp T)) : I.Computes me (oneOfEach (T := T)) (fun _ => none) ops :=
  (outlineOneOfEach P).computes (fun op _ s _ ⟨A, hinv, _⟩ hs => h op s A hinv hs) hQ

end ParSweet.Sets
