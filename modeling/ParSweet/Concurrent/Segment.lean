import Mathlib.Data.List.Nodup
import Mathlib.Logic.Function.Basic

/-! Singly linked lists in a heap.

`node` gives every address in use its node; `content` is what a node carries and
`next` its link. A `Segment` is a way from one link to another together with the
addresses and contents along it. Segments are joined and split at will
(`segment_append`), and a change of the heap elsewhere leaves them alone
(`Segment.congr`); storing into, linking behind and unlinking a node come down to
`Segment.rewire`. -/
namespace ParSweet.Concurrent

/-- The links lead from `o` through the nodes of `l` to `o'`. -/
def Segment {ν α : Type*} (content : ν → α) (next : ν → Option ℕ) (node : ℕ → Option ν) :
    Option ℕ → List (ℕ × α) → Option ℕ → Prop
  | o, [], o' => o = o'
  | o, (n, a) :: l, o' =>
    o = some n ∧ ∃ x, node n = some x ∧ content x = a ∧ Segment content next node (next x) l o'

variable {ν α : Type*} {content : ν → α} {next : ν → Option ℕ} {node node' : ℕ → Option ν}
  {o o' : Option ℕ} {l l₁ l₂ l' : List (ℕ × α)} {n : ℕ} {a : α} {x y : ν}

theorem segment_append : Segment content next node o (l₁ ++ l₂) o' ↔
    ∃ m, Segment content next node o l₁ m ∧ Segment content next node m l₂ o' := by
  induction l₁ generalizing o with
  | nil => simp [Segment]
  | cons e l ih =>
    obtain ⟨n, a⟩ := e
    simp only [List.cons_append, Segment, ih]
    constructor
    · rintro ⟨ho, x, hx, ha, m, h₁, h₂⟩
      exact ⟨m, ⟨ho, x, hx, ha, h₁⟩, h₂⟩
    · rintro ⟨m, ⟨ho, x, hx, ha, h₁⟩, h₂⟩
      exact ⟨ho, x, hx, ha, m, h₁, h₂⟩

/-- A segment cut at one of its nodes. -/
theorem Segment.split (h : Segment content next node o (l₁ ++ (n, a) :: l₂) o') :
    ∃ x, node n = some x ∧ content x = a ∧ Segment content next node o l₁ (some n) ∧
      Segment content next node (next x) l₂ o' := by
  obtain ⟨_, h₁, rfl, x, hx, ha, h₂⟩ := segment_append.mp h
  exact ⟨x, hx, ha, h₁, h₂⟩

theorem Segment.node_of_mem (h : Segment content next node o l o') (he : (n, a) ∈ l) :
    ∃ x, node n = some x ∧ content x = a := by
  obtain ⟨l₁, l₂, rfl⟩ := List.append_of_mem he
  obtain ⟨x, hx, ha, _⟩ := h.split
  exact ⟨x, hx, ha⟩

/-- Only the nodes on the segment matter. -/
theorem Segment.congr (h : Segment content next node o l o')
    (hl : ∀ n a, (n, a) ∈ l → node' n = node n) : Segment content next node' o l o' := by
  induction l generalizing o with
  | nil => exact h
  | cons e l ih =>
    obtain ⟨n, a⟩ := e
    obtain ⟨ho, x, hx, ha, h⟩ := h
    exact ⟨ho, x, (hl n a List.mem_cons_self).trans hx, ha,
      ih h fun m b hm => hl m b (List.mem_cons_of_mem _ hm)⟩

/-- From one link there is one way to the end. -/
theorem Segment.unique (h : Segment content next node o l none)
    (h' : Segment content next node o l' none) : l = l' := by
  induction l generalizing o l' with
  | nil =>
    obtain rfl : o = none := h
    cases l' with
    | nil => rfl
    | cons e l' => cases h'.1
  | cons e l ih =>
    obtain ⟨n, a⟩ := e
    obtain ⟨rfl, x, hx, rfl, h⟩ := h
    cases l' with
    | nil => cases h'
    | cons e' l' =>
      obtain ⟨n', a'⟩ := e'
      obtain ⟨hn, x', hx', rfl, h'⟩ := h'
      obtain rfl := Option.some.inj hn
      obtain rfl := Option.some.inj (hx.symm.trans hx')
      rw [ih h h']

/-- A segment continued at a node that has been changed: its link now leads elsewhere. -/
theorem Segment.rewire (h : Segment content next node o l₁ (some n))
    (hl : ∀ m b, (m, b) ∈ l₁ → node' m = node m) (hn : node' n = some y)
    (h' : Segment content next node' (next y) l₂ o') :
    Segment content next node' o (l₁ ++ (n, content y) :: l₂) o' :=
  segment_append.mpr ⟨some n, h.congr hl, rfl, y, hn, rfl, h'⟩

/-! ### Changing one node -/

/-- The addresses along a segment do not repeat: those before a node, the node itself
and those behind it are different ones. -/
theorem fst_ne_of_nodup (h : ((l₁ ++ (n, a) :: l₂).map Prod.fst).Nodup) :
    (∀ m b, (m, b) ∈ l₁ → m ≠ n) ∧ (∀ m b, (m, b) ∈ l₂ → m ≠ n) ∧
      ∀ m b k c, (m, b) ∈ l₁ → (k, c) ∈ l₂ → m ≠ k := by
  rw [List.map_append, List.map_cons, List.nodup_append] at h
  obtain ⟨_, h₂, h₃⟩ := h
  have hmem : ∀ {l : List (ℕ × α)} {m b}, (m, b) ∈ l → m ∈ l.map Prod.fst := fun hm =>
    List.mem_map.mpr ⟨_, hm, rfl⟩
  refine ⟨fun m b hm => h₃ _ (hmem hm) _ List.mem_cons_self, fun m b hm he => ?_,
    fun m b k c hm hk => h₃ _ (hmem hm) _ (List.mem_cons_of_mem _ (hmem hk))⟩
  exact (List.nodup_cons.mp h₂).1 (he ▸ hmem hm)

/-- Storing into a node, its link left as it is. -/
theorem Segment.store {b : α} (h : Segment content next node o (l₁ ++ (n, a) :: l₂) o')
    (hnd : ((l₁ ++ (n, a) :: l₂).map Prod.fst).Nodup) (hx : node n = some x) (hy : content y = b)
    (hyn : next y = next x) :
    Segment content next (Function.update node n (some y)) o (l₁ ++ (n, b) :: l₂) o' := by
  obtain ⟨x', hx', _, h₁, h₂⟩ := h.split
  obtain rfl := Option.some.inj (hx.symm.trans hx')
  obtain ⟨hn₁, hn₂, _⟩ := fst_ne_of_nodup hnd
  rw [← hy]
  refine h₁.rewire (fun m c hm => Function.update_of_ne (hn₁ m c hm) _ _) (Function.update_self ..) ?_
  rw [hyn]
  exact h₂.congr fun m c hm => Function.update_of_ne (hn₂ m c hm) _ _

/-- Linking a new node `m` behind the last one. -/
theorem Segment.link {m : ℕ} (h : Segment content next node o (l₁ ++ [(n, a)]) none)
    (hnd : ((l₁ ++ [(n, a)]).map Prod.fst).Nodup) (hm : ∀ k b, (k, b) ∈ l₁ ++ [(n, a)] → k ≠ m)
    (hy : content y = a) (hyn : next y = some m) (hxn : next x = none) :
    Segment content next (Function.update (Function.update node m (some x)) n (some y)) o
      (l₁ ++ [(n, a)] ++ [(m, content x)]) none := by
  obtain ⟨_, _, _, h₁, _⟩ := h.split
  obtain ⟨hn₁, _, _⟩ := fst_ne_of_nodup hnd
  have hmn : m ≠ n := (hm n a (by simp)).symm
  rw [List.append_assoc, List.singleton_append, ← hy]
  refine h₁.rewire (fun k b hk => ?_) (Function.update_self ..) ⟨hyn, x, ?_, rfl, hxn⟩
  · rw [Function.update_of_ne (hn₁ k b hk),
      Function.update_of_ne (hm k b (List.mem_append_left _ hk))]
  · rw [Function.update_of_ne hmn, Function.update_self]

/-- Unlinking a node behind `p`: `p` takes over its link, and nothing else of the segment
changes. -/
theorem Segment.unlink {p : ℕ} {b : α} (h : Segment content next node o (l₁ ++ (p, b) :: (n, a) :: l₂) o')
    (hx : node n = some x) (hp : node' p = some y) (hy : content y = b) (hyn : next y = next x)
    (hother : ∀ m c, (m, c) ∈ l₁ ++ l₂ → node' m = node m) :
    Segment content next node' o (l₁ ++ (p, b) :: l₂) o' := by
  obtain ⟨_, _, _, h₁, _, x', hx', _, h₂⟩ := h.split
  obtain rfl := Option.some.inj (hx.symm.trans hx')
  rw [← hy]
  refine h₁.rewire (fun m c hm => hother m c (List.mem_append_left _ hm)) hp ?_
  rw [hyn]
  exact h₂.congr fun m c hm => hother m c (List.mem_append_right _ hm)

end ParSweet.Concurrent
