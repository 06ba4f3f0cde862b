import Mathlib.Logic.Relation
import ParSweet.Concurrent.Outline

/-! Mutexes taken in one order.

A `Locking` says which mutexes an object has, who holds them, which one a call is
about to take, and in which order the mutexes stand. The object is `DeadlockFree` if
its threads respect that order: nobody waits for itself through any number of others.
An object with a proof outline is, once each step is known to account for the mutexes
its thread holds (`Disciplined.deadlockFree`). -/
namespace ParSweet.Concurrent

variable {τ Op Res σ loc χ A ν : Type*}

/-- The mutexes of an object. -/
structure Locking (τ σ loc ν : Type*) where
  holder : σ → ν → Option τ
  /-- The mutex a call's next step takes. -/
  wants : loc → Option ν
  /-- The call has ended with an exception. -/
  Thrown : loc → Prop
  /-- The mutexes there are. -/
  Made : σ → ν → Prop
  Before : σ → ν → ν → Prop

namespace Locking
variable (K : Locking τ σ loc ν)

/-- A thread waits for the one that holds the mutex it is about to take. -/
def WaitsFor (s : Implementation.State τ σ loc) (t u : τ) : Prop :=
  ∃ l n, s.pc t = some l ∧ K.wants l = some n ∧ K.holder s.store n = some u

variable [DecidableEq τ]

/-- The object under threads that go on after a call that has thrown. -/
def system (I : Implementation τ Op Res σ loc χ) :
    System (Implementation.State τ σ loc) (Event τ Op Res) where
  initial := I.system.initial
  step := fun s e s' => I.system.step s e s' ∨
    ∃ t l, s.pc t = some l ∧ K.Thrown l ∧ e = none ∧ s' = {s with pc := Function.update s.pc t none}

/-- No deadlock, because of the order. -/
structure DeadlockFree (I : Implementation τ Op Res σ loc χ) : Prop where
  /-- Waiting for a mutex is waiting for its holder. -/
  blocks : ∀ t s l n c, K.wants l = some n → (I.step t s l c = none ↔ ∃ u, K.holder s n = some u)
  /-- Nobody waits for itself, through any number of others. -/
  acyclic : ∀ s, (K.system I).Reachable s → ∀ t, ¬ Relation.TransGen (K.WaitsFor s) t t
  /-- Mutexes are taken in ascending order. -/
  ascending : ∀ s, (K.system I).Reachable s → ∀ t l n m, s.pc t = some l → K.wants l = some n →
    K.holder s.store m = some t → K.Before s.store m n
  total : ∀ s m n, m ≠ n → K.Before s m n ∨ K.Before s n m
  /-- The order of two mutexes never changes. -/
  fixed : ∀ s, (K.system I).Reachable s → ∀ es s', (K.system I).Path s es s' → ∀ m n,
    K.Made s.store m → K.Made s.store n → K.Before s.store m n → K.Before s'.store m n

omit [DecidableEq τ] in
/-- Waiting in order goes one way only. -/
theorem acyclic_of_ascending {s : Implementation.State τ σ loc}
    (hirrefl : ∀ n, ¬ K.Before s.store n n)
    (htrans : ∀ x y z, K.Before s.store x y → K.Before s.store y z → K.Before s.store x z)
    (hasc : ∀ t l n m, s.pc t = some l → K.wants l = some n → K.holder s.store m = some t →
      K.Before s.store m n) (t : τ) : ¬ Relation.TransGen (K.WaitsFor s) t t := by
  -- Along a chain of waiting threads, the mutexes they want ascend.
  have hchain : ∀ u, Relation.TransGen (K.WaitsFor s) t u → ∀ l n l' n', s.pc t = some l →
      K.wants l = some n → s.pc u = some l' → K.wants l' = some n' → K.Before s.store n n' := by
    intro u h
    induction h with
    | single h =>
      intro l n l' n' hl hn hl' hn'
      obtain ⟨l₁, n₁, hl₁, hn₁, hheld⟩ := h
      obtain rfl : l₁ = l := Option.some.inj (hl₁.symm.trans hl)
      obtain rfl : n₁ = n := Option.some.inj (hn₁.symm.trans hn)
      exact hasc _ l' n' _ hl' hn' hheld
    | tail _ h ih =>
      intro l n l' n' hl hn hl' hn'
      obtain ⟨l₁, n₁, hl₁, hn₁, hheld⟩ := h
      exact htrans n n₁ n' (ih l n l₁ n₁ hl hn hl₁ hn₁) (hasc _ l' n' _ hl' hn' hheld)
  intro h
  obtain ⟨u, ⟨l, n, hl, hn, _⟩, _⟩ := Relation.TransGen.head'_iff.mp h
  exact hirrefl n (hchain t h l n l n hl hn hl hn)

/-! ### Objects with a proof outline -/

variable {I : Implementation τ Op Res σ loc χ} {S : Spec Op Res A}

/-- What the outline says of a call, whether its operation has taken effect or not. -/
def Annotates (P : Outline I S) (t : τ) (s : σ) (l : loc) : Prop :=
  (∃ op, P.Pending t op s l) ∨ ∃ r, P.Done t r s l

/-- What there is to show of one call. `Holds` accounts for the mutexes it holds. -/
structure Disciplined (P : Outline I S) (Holds : loc → ν → Prop) : Prop where
  blocks : ∀ t s l n c, K.wants l = some n → (I.step t s l c = none ↔ ∃ u, K.holder s n = some u)
  initial : ∀ n, K.holder I.store n = none
  /-- Nobody takes a mutex for somebody else. -/
  others : ∀ t u s s' n, P.Guarantee t s s' → u ≠ t → K.holder s' n = some u → K.holder s n = some u
  own : ∀ t s a l c s' l', P.Inv s a → Annotates P t s l → Annotates P t s' l' →
    I.step t s l c = some (s', l') → (∀ n, K.holder s n = some t → Holds l n) → ∀ n, K.holder s' n = some t → Holds l' n
  /-- A call that is over holds nothing. -/
  released : ∀ l, (∃ r, I.result l = some r) ∨ K.Thrown l → ∀ n, ¬ Holds l n
  ascending : ∀ t s a l n m, P.Inv s a → Annotates P t s l → K.wants l = some n → Holds l m →
    K.Before s m n
  irrefl : ∀ s n, ¬ K.Before s n n
  trans : ∀ s x y z, K.Before s x y → K.Before s y z → K.Before s x z
  total : ∀ s m n, m ≠ n → K.Before s m n ∨ K.Before s n m
  fixed : ∀ t s s' m n, P.Guarantee t s s' → K.Made s m → K.Made s n →
    K.Made s' m ∧ (K.Before s m n → K.Before s' m n)

/-- Every mutex that is held is held by a call that accounts for it. -/
def Owned (Holds : loc → ν → Prop) (s : Implementation.State τ σ loc) : Prop :=
  ∀ t n, K.holder s.store n = some t → ∃ l, s.pc t = some l ∧ Holds l n

variable {K} {P : Outline I S} {Holds : loc → ν → Prop} {s s' : Implementation.State τ σ loc}
  {e : Option (Event τ Op Res)}

/-- A step keeps the outline's annotations, whether or not it goes on after an exception. -/
theorem rel_step {a : AtomicObject.State τ Op Res A} (h : P.Rel s a) (hstep : (K.system I).step s e s') :
    ∃ b, P.Rel s' b := by
  rcases hstep with hstep | ⟨t, l, hl, _, _, rfl⟩
  · obtain ⟨b, _, hb⟩ := P.simulation.step s a e s' h hstep
    exact ⟨b, hb⟩
  · have hnone : P.Annotated t s.store none .idle := trivial
    exact ⟨_, P.rel_update h h.inv (.inl rfl) hnone⟩

theorem exists_rel (P : Outline I S) (h : (K.system I).Reachable s) : ∃ a, P.Rel s a :=
  h.invariant (S := K.system I) (I := fun s => ∃ a, P.Rel s a) ⟨_, P.simulation.initial⟩
    fun _ _ _ ⟨_, ha⟩ hstep => rel_step ha hstep

omit [DecidableEq τ] in
/-- Whoever is inside a call is annotated. -/
theorem annotates {a : AtomicObject.State τ Op Res A} (h : P.Rel s a) {t : τ} {l : loc}
    (hl : s.pc t = some l) : Annotates P t s.store l := by
  have hat : P.Annotated t s.store (some l) (a.status t) := hl ▸ h.thread t
  exact hat.of_some.imp (fun ⟨op, _, h⟩ => ⟨op, h⟩) fun ⟨r, _, h⟩ => ⟨r, h⟩

omit [DecidableEq τ] in
/-- A step of a call is a step of the outline. -/
theorem Annotates.step {a : A} {t : τ} {st st' : σ} {l l' : loc} {c : χ} (h : Annotates P t st l)
    (hinv : P.Inv st a) (hstep : I.step t st l c = some (st', l')) :
    P.Guarantee t st st' ∧ Annotates P t st' l' := by
  rcases h with ⟨op, h⟩ | ⟨r, h⟩
  · obtain ⟨hg, ⟨_, h'⟩ | ⟨r, b, _, _, h'⟩⟩ := P.pending_step t op st a l c st' l' hinv h hstep
    · exact ⟨hg, .inl ⟨op, h'⟩⟩
    · exact ⟨hg, .inr ⟨r, h'⟩⟩
  · obtain ⟨hg, _, h'⟩ := P.done_step t r st a l c st' l' hinv h hstep
    exact ⟨hg, .inr ⟨r, h'⟩⟩

/-- What a step does to the store. -/
theorem store_step {a : AtomicObject.State τ Op Res A} (h : P.Rel s a) (hstep : (K.system I).step s e s') :
    s'.store = s.store ∨ ∃ t, P.Guarantee t s.store s'.store := by
  rcases hstep with hstep | ⟨t, l, _, _, _, rfl⟩
  · rcases Implementation.step_cases hstep with
      ⟨t, op, hpc, rfl, rfl⟩ | ⟨t, loc, c, st, loc', hpc, hst, rfl, rfl⟩ | ⟨t, loc, r, hpc, hr, rfl, rfl⟩
    · exact .inl rfl
    · exact .inr ⟨t, ((annotates h hpc).step h.inv hst).1⟩
    · exact .inl rfl
  · exact .inl rfl

namespace Disciplined

/-- A call that begins or ends holds nothing. -/
theorem owned_update {t : τ} {pc : Option loc} (h : K.Owned Holds s)
    (hfree : ∀ n, K.holder s.store n ≠ some t) : K.Owned Holds {s with pc := Function.update s.pc t pc} := by
  intro u n hn
  have hut : u ≠ t := fun he => hfree n (he ▸ hn)
  obtain ⟨l, hl, hh⟩ := h u n hn
  exact ⟨l, by simpa [hut] using hl, hh⟩

theorem owned_step (D : K.Disciplined P Holds) {a : AtomicObject.State τ Op Res A} (h : P.Rel s a)
    (ho : K.Owned Holds s) (hstep : (K.system I).step s e s') : K.Owned Holds s' := by
  rcases hstep with hstep | ⟨t, l, hl, hthrown, _, rfl⟩
  · rcases Implementation.step_cases hstep with
      ⟨t, op, hpc, rfl, rfl⟩ | ⟨t, loc, c, st, loc', hpc, hst, rfl, rfl⟩ | ⟨t, loc, r, hpc, hr, rfl, rfl⟩
    · refine owned_update ho fun n hn => ?_
      obtain ⟨l, hl, _⟩ := ho t n hn
      rw [hpc] at hl
      cases hl
    · obtain ⟨hg, hat'⟩ := (annotates h hpc).step h.inv hst
      intro u n hn
      by_cases hut : u = t
      · subst hut
        refine ⟨loc', by simp, D.own u s.store a.value loc c st loc' h.inv (annotates h hpc) hat' hst
          (fun m hm => ?_) n hn⟩
        obtain ⟨l, hl, hh⟩ := ho u m hm
        rw [hpc, Option.some.injEq] at hl
        exact hl ▸ hh
      · obtain ⟨l, hl, hh⟩ := ho u n (D.others t u s.store st n hg hut hn)
        exact ⟨l, by simpa [hut] using hl, hh⟩
    · refine owned_update ho fun n hn => ?_
      obtain ⟨l, hl, hh⟩ := ho t n hn
      rw [hpc, Option.some.injEq] at hl
      exact D.released l (.inl ⟨r, hl ▸ hr⟩) n hh
  · refine owned_update ho fun n hn => ?_
    obtain ⟨l', hl', hh⟩ := ho t n hn
    rw [hl, Option.some.injEq] at hl'
    exact D.released l' (.inr (hl' ▸ hthrown)) n hh

theorem owned (D : K.Disciplined P Holds) (h : (K.system I).Reachable s) : K.Owned Holds s := by
  refine h.invariant_of (fun s hs => exists_rel P hs) (fun t n hn => ?_)
    fun s e s' ⟨a, ha⟩ ho hstep => D.owned_step ha ho hstep
  rw [show K.holder (K.system I).initial.store n = none from D.initial n] at hn
  cases hn

/-- The order of the mutexes there are is the same at the end of a path. -/
theorem fixed_path (D : K.Disciplined P Holds) {es : List (Event τ Op Res)} {m n : ν}
    (hs : (K.system I).Reachable s) (h : (K.system I).Path s es s') (hm : K.Made s.store m)
    (hn : K.Made s.store n) (hb : K.Before s.store m n) :
    K.Made s'.store m ∧ K.Made s'.store n ∧ K.Before s'.store m n := by
  induction h with
  | refl => exact ⟨hm, hn, hb⟩
  | @step es s₁ e s₂ hpath hstep ih =>
    obtain ⟨hm₁, hn₁, hb₁⟩ := ih
    obtain ⟨a, ha⟩ := exists_rel P (hs.path hpath)
    rcases store_step ha hstep with heq | ⟨t, hg⟩
    · rw [heq]
      exact ⟨hm₁, hn₁, hb₁⟩
    · exact ⟨(D.fixed t _ _ m n hg hm₁ hn₁).1, (D.fixed t _ _ n m hg hn₁ hm₁).1,
        (D.fixed t _ _ m n hg hm₁ hn₁).2 hb₁⟩

/-- **Threads that take their mutexes in order never deadlock.** -/
theorem deadlockFree (D : K.Disciplined P Holds) : K.DeadlockFree I := by
  have hasc : ∀ s, (K.system I).Reachable s → ∀ t l n m, s.pc t = some l → K.wants l = some n →
      K.holder s.store m = some t → K.Before s.store m n := by
    intro s hs t l n m hl hn hm
    obtain ⟨a, ha⟩ := exists_rel P hs
    obtain ⟨l', hl', hh⟩ := D.owned hs t m hm
    obtain rfl : l = l' := Option.some.inj (hl.symm.trans hl')
    exact D.ascending t s.store a.value l n m ha.inv (annotates ha hl) hn hh
  exact {
    blocks := D.blocks
    acyclic := fun s hs => K.acyclic_of_ascending (D.irrefl s.store) (D.trans s.store) (hasc s hs)
    ascending := hasc
    total := D.total
    fixed := fun s hs es s' hpath m n hm hn hb => (D.fixed_path hs hpath hm hn hb).2.2 }

end Disciplined

end Locking

end ParSweet.Concurrent
