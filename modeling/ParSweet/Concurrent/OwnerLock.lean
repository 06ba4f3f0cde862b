import ParSweet.Concurrent.System
import ParSweet.Concurrent.Trace

/-! Locks that know who holds them.

What is seen of such a lock is who is given an identity, who takes the lock and who gives
it back. `system` is the lock as one would wish it to be: it is taken when nobody holds it,
and given back by its holder only. Who holds it can be told from the events alone
(`run_holds`). -/
namespace ParSweet.Concurrent

/-- What is seen of a lock with an owner. -/
inductive OwnerEvent (τ : Type*) where
  /-- `t` is given an identity. -/
  | issue (t : τ)
  /-- `t` takes the lock. -/
  | acquire (t : τ)
  /-- `t` gives the lock back. -/
  | release (t : τ)
  deriving DecidableEq

variable {τ : Type*}

def OwnerEvent.issued? : OwnerEvent τ → Option τ
  | .issue t => some t
  | _ => none

/-- The threads that have been given an identity, in order. -/
def issued (es : List (OwnerEvent τ)) : List τ := es.filterMap OwnerEvent.issued?

/-- `t` has taken the lock and not given it back since. -/
def Holds (es : List (OwnerEvent τ)) (t : τ) : Prop :=
  ∃ pre post, es = pre ++ .acquire t :: post ∧ .release t ∉ post

theorem issued_append (es fs : List (OwnerEvent τ)) : issued (es ++ fs) = issued es ++ issued fs :=
  List.filterMap_append

theorem not_holds_nil (t : τ) : ¬ Holds [] t := by
  rintro ⟨pre, post, h, _⟩
  cases pre <;> cases h

theorem holds_concat {es : List (OwnerEvent τ)} {e : OwnerEvent τ} {t : τ} :
    Holds (es ++ [e]) t ↔ e = .acquire t ∨ (Holds es t ∧ e ≠ .release t) := by
  constructor
  · rintro ⟨pre, post, h, hpost⟩
    rcases concat_eq_append_cons.mp h with ⟨_, he, _⟩ | ⟨post', rfl, hes⟩
    · exact .inl he.symm
    · rw [List.mem_append, not_or, List.mem_singleton] at hpost
      exact .inr ⟨⟨pre, post', hes, hpost.1⟩, Ne.symm hpost.2⟩
  · rintro (rfl | ⟨⟨pre, post, rfl, hpost⟩, he⟩)
    · exact ⟨es, [], rfl, List.not_mem_nil⟩
    · refine ⟨pre, post ++ [e], by simp, fun hm => ?_⟩
      rcases List.mem_append.mp hm with hm | hm
      · exact hpost hm
      · exact he (List.mem_singleton.mp hm).symm

namespace OwnerLock

/-- How many identities have been given, and who holds the lock. -/
structure State (τ : Type*) where
  issued : ℕ
  holder : Option τ

inductive Step : State τ → Option (OwnerEvent τ) → State τ → Prop where
  | issue {a t} : Step a (some (.issue t)) {a with issued := a.issued + 1}
  | acquire {a t} : a.holder = none → Step a (some (.acquire t)) {a with holder := some t}
  | release {a t} : a.holder = some t → Step a (some (.release t)) {a with holder := none}

def system (τ : Type*) : System (State τ) (OwnerEvent τ) where
  initial := ⟨0, none⟩
  step := Step

variable {es : List (OwnerEvent τ)} {a : State τ}

theorem run_issued (h : (system τ).Run es a) : a.issued = (issued es).length := by
  induction h with
  | refl => rfl
  | step _ hstep ih =>
    rw [issued_append, List.length_append, ← ih]
    cases hstep with
    | issue => rfl
    | acquire => rfl
    | release => rfl

/-- **The holder is whoever has taken the lock and not given it back.** -/
theorem run_holds (h : (system τ).Run es a) (t : τ) : Holds es t ↔ a.holder = some t := by
  induction h with
  | refl => exact iff_of_false (not_holds_nil t) (by simp [system])
  | step _ hstep ih =>
    cases hstep with
    | issue =>
      rw [Option.toList_some, holds_concat, ih]
      simp
    | acquire hfree =>
      rw [Option.toList_some, holds_concat, ih, hfree]
      simp
    | release hheld =>
      rw [Option.toList_some, holds_concat, ih, hheld]
      simp

end OwnerLock

end ParSweet.Concurrent
