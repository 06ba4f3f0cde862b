import ParSweet.Concurrent.AtomicObject

/-! Mutexes held in the course of a call.

`held` says at which local states a call holds which mutexes. Where every step accounts for
the one mutex it takes or lets go of (`MutexStep`), a mutex is held by a thread exactly if
that thread's call stands where it holds it (`Accounts.held_iff`): so no two threads stand
where both hold the same (`Accounts.exclusive`). -/
namespace ParSweet.Concurrent

variable {τ Op Res σ loc χ ν : Type*} [DecidableEq τ] [DecidableEq ν]

/-- What one step of `me` does to the holders, going from a local state that holds the mutexes
`held` to one that holds `held'`. -/
inductive MutexStep (me : τ) : (ν → Option τ) → (ν → Prop) → (ν → Option τ) → (ν → Prop) → Prop where
  | keep {holder held held'} : (∀ n, held' n ↔ held n) → MutexStep me holder held holder held'
  | take {holder held held' n} : holder n = none → (∀ k, held' k ↔ k = n ∨ held k) →
      MutexStep me holder held (Function.update holder n (some me)) held'
  | drop {holder held held' n} : held n → (∀ k, held' k ↔ k ≠ n ∧ held k) →
      MutexStep me holder held (Function.update holder n none) held'

/-- The steps of an object account for the mutexes its calls hold. -/
structure Accounts (I : Implementation τ Op Res σ loc χ) (holder : σ → ν → Option τ) (held : loc → ν → Prop) :
    Prop where
  initial : ∀ n, holder I.store n = none
  start : ∀ op n, ¬ held (I.start op) n
  step : ∀ me s l c s' l', I.step me s l c = some (s', l') →
    MutexStep me (holder s) (held l) (holder s') (held l')
  result : ∀ l r n, I.result l = some r → ¬ held l n

namespace Accounts
variable {I : Implementation τ Op Res σ loc χ} {holder : σ → ν → Option τ} {held : loc → ν → Prop}
  {s : Implementation.State τ σ loc}

/-- The holders are those whose calls say so. -/
def Agree (holder : ν → Option τ) (held : loc → ν → Prop) (pc : τ → Option loc) : Prop :=
  ∀ n t, holder n = some t ↔ ∃ l, pc t = some l ∧ held l n

/-- A step of a call keeps the accounts. -/
theorem agree_step {held₀ : ν → Prop} {m m' : ν → Option τ} {pc : τ → Option loc} {me : τ} {l l' : loc}
    (h : Agree m held pc) (hl : pc me = some l) (hheld : ∀ n, held₀ n ↔ held l' n)
    (hstep : MutexStep me m (held l) m' held₀) : Agree m' held (Function.update pc me (some l')) := by
  have hme : ∀ n, m n = some me ↔ held l n := fun n => by
    rw [h n me, hl]
    simp
  intro n t
  by_cases ht : t = me
  · subst ht
    have hnew : (∃ k, Function.update pc t (some l') t = some k ∧ held k n) ↔ held₀ n := by
      rw [Function.update_self, hheld]
      simp
    rw [hnew]
    cases hstep with
    | keep hkeep => rw [hkeep, hme]
    | @take _ n' hfree htake =>
      rw [htake]
      by_cases hn : n = n'
      · subst hn
        simp
      · rw [Function.update_of_ne hn, hme]
        simp [hn]
    | @drop _ n' hn' hdrop =>
      rw [hdrop]
      by_cases hn : n = n'
      · subst hn
        simp
      · rw [Function.update_of_ne hn, hme]
        simp [hn]
  · rw [Function.update_of_ne ht, ← h n t]
    cases hstep with
    | keep _ => rfl
    | @take _ n' hfree _ =>
      by_cases hn : n = n'
      · subst hn
        rw [Function.update_self, hfree]
        simp [Ne.symm ht]
      · rw [Function.update_of_ne hn]
    | @drop _ n' hn' _ =>
      by_cases hn : n = n'
      · subst hn
        rw [Function.update_self, (hme n).mpr hn']
        simp [Ne.symm ht]
      · rw [Function.update_of_ne hn]

omit [DecidableEq ν] in
/-- A call that begins or ends holds nothing. -/
theorem agree_update {m : ν → Option τ} {pc : τ → Option loc} {me : τ} {p : Option loc} (h : Agree m held pc)
    (hold : ∀ l n, pc me = some l → ¬ held l n) (hnew : ∀ l n, p = some l → ¬ held l n) :
    Agree m held (Function.update pc me p) := by
  intro n t
  rw [h n t]
  by_cases ht : t = me
  · subst ht
    rw [Function.update_self]
    constructor
    · intro ⟨l, hl, hn⟩
      exact absurd hn (hold l n hl)
    · intro ⟨l, hl, hn⟩
      exact absurd hn (hnew l n hl)
  · rw [Function.update_of_ne ht]

/-- **A mutex is held by a thread exactly if the thread's call stands where it holds it.** -/
theorem held_iff (h : Accounts I holder held) (hs : I.system.Reachable s) : Agree (holder s.store) held s.pc := by
  refine hs.invariant (S := I.system) (I := fun s => Agree (holder s.store) held s.pc) (fun n t => ?_) ?_
  · refine iff_of_false (fun hn => ?_) fun ⟨l, hl, _⟩ => ?_
    · rw [show holder I.system.initial.store n = none from h.initial n] at hn
      cases hn
    · cases hl
  · intro s e s' hi hstep
    rcases Implementation.step_cases hstep with
      ⟨t, op, ht, -, rfl⟩ | ⟨t, l, c, st, l', ht, hst, -, rfl⟩ | ⟨t, l, r, ht, hr, -, rfl⟩
    · refine agree_update hi (fun l n hl => ?_) fun l n hl => ?_
      · rw [ht] at hl
        cases hl
      · obtain rfl := Option.some.inj hl
        exact h.start op n
    · exact agree_step hi ht (fun _ => Iff.rfl) (h.step t s.store l c st l' hst)
    · refine agree_update hi (fun l₁ n hl => ?_) fun l₁ n hl => ?_
      · obtain rfl : l = l₁ := Option.some.inj (ht.symm.trans hl)
        exact h.result l r n hr
      · cases hl

/-- No two threads stand where both hold the same mutex. -/
theorem exclusive (h : Accounts I holder held) (hs : I.system.Reachable s) {t u : τ} {l k : loc} {n : ν}
    (ht : s.pc t = some l) (hu : s.pc u = some k) (hn : held l n) (hn' : held k n) : t = u := by
  have hholds := (h.held_iff hs n t).mpr ⟨l, ht, hn⟩
  have hholds' := (h.held_iff hs n u).mpr ⟨k, hu, hn'⟩
  exact Option.some.inj (hholds.symm.trans hholds')

end Accounts

end ParSweet.Concurrent
