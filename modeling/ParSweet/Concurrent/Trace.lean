import Mathlib.Data.List.Basic

/-! Properties of a run that can be read off its events. -/
namespace ParSweet.Concurrent

variable {ε : Type*} {es pre post : List ε} {e x : ε} {P : List ε → ε → Prop}

/-- Every event stands in `P` to the events before it. -/
def Always (P : List ε → ε → Prop) (es : List ε) : Prop :=
  ∀ pre e post, es = pre ++ e :: post → P pre e

/-- An event of a trace that has just grown is the new one or an earlier one. -/
theorem concat_eq_append_cons : es ++ [e] = pre ++ x :: post ↔
    (pre = es ∧ x = e ∧ post = []) ∨ ∃ post', post = post' ++ [e] ∧ es = pre ++ x :: post' := by
  constructor
  · intro h
    rcases List.eq_nil_or_concat post with rfl | ⟨post', y, rfl⟩
    · obtain ⟨hpre, hx⟩ := List.append_inj' h rfl
      exact .inl ⟨hpre.symm, (List.singleton_injective hx).symm, rfl⟩
    · rw [List.concat_eq_append, ← List.cons_append, ← List.append_assoc] at h
      obtain ⟨hes, hy⟩ := List.append_inj' h rfl
      obtain rfl : e = y := List.singleton_injective hy
      exact .inr ⟨post', List.concat_eq_append .., hes⟩
  · rintro (⟨rfl, rfl, rfl⟩ | ⟨post', rfl, rfl⟩)
    · rfl
    · rw [List.append_assoc, List.cons_append]

theorem always_nil : Always P [] := fun pre e post h => by
  cases pre <;> cases h

theorem always_concat : Always P (es ++ [e]) ↔ Always P es ∧ P es e := by
  constructor
  · intro h
    refine ⟨fun pre x post hes => ?_, h es e [] rfl⟩
    exact h pre x (post ++ [e]) (concat_eq_append_cons.mpr (.inr ⟨post, rfl, hes⟩))
  · rintro ⟨hes, he⟩ pre x post h
    rcases concat_eq_append_cons.mp h with ⟨rfl, rfl, _⟩ | ⟨post', _, h⟩
    · exact he
    · exact hes pre x post' h

theorem always_iff_take : Always P es ↔ ∀ n e, es[n]? = some e → P (es.take n) e := by
  constructor
  · intro h n e he
    obtain ⟨hn, rfl⟩ := List.getElem?_eq_some_iff.mp he
    refine h _ _ (es.drop (n + 1)) ?_
    rw [← List.drop_eq_getElem_cons hn, List.take_append_drop]
  · rintro h pre e post rfl
    have := h pre.length e (by simp)
    rwa [List.take_left] at this

/-- A trace that has grown by one event at most. -/
theorem always_append_toList {l : Option ε} :
    Always P (es ++ l.toList) ↔ Always P es ∧ ∀ e, l = some e → P es e := by
  cases l with
  | none => simp
  | some e => simp [always_concat]

end ParSweet.Concurrent
