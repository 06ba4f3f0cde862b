import ParSweet.Concurrent.AtomicObject

/-! Proof outlines: linearizability proved one thread at a time.

An `Outline` annotates an implementation. `Inv` relates the store to the abstract
value; `Pending` and `Done` say what a thread knows at each local state, before
and after its operation has taken effect; `Guarantee` bounds what one step of a
thread may do to the store. A thread's own step re-establishes its annotation, and
no guarantee of another thread destroys it. Nothing else is needed: the outline is
a simulation by the atomic object (`Outline.simulation`), and its annotations hold
in every reachable state (`Outline.reachable`). -/
namespace ParSweet.Concurrent

variable {τ Op Res σ loc χ A : Type*}

structure Outline (I : Implementation τ Op Res σ loc χ) (S : Spec Op Res A) where
  Inv : σ → A → Prop
  Guarantee : τ → σ → σ → Prop
  Pending : τ → Op → σ → loc → Prop
  Done : τ → Res → σ → loc → Prop
  initial : Inv I.store S.initial
  start : ∀ t op s a, Inv s a → Pending t op s (I.start op)
  /-- A step of a pending operation keeps it pending, or is the one at which it
  takes effect. -/
  pending_step : ∀ t op s a l c s' l', Inv s a → Pending t op s l → I.step t s l c = some (s', l') →
    Guarantee t s s' ∧ ((Inv s' a ∧ Pending t op s' l') ∨
      ∃ r b, S.apply op a r b ∧ Inv s' b ∧ Done t r s' l')
  done_step : ∀ t r s a l c s' l', Inv s a → Done t r s l → I.step t s l c = some (s', l') →
    Guarantee t s s' ∧ Inv s' a ∧ Done t r s' l'
  /-- No operation returns before it has taken effect, and it returns its answer. -/
  pending_result : ∀ t op s l, Pending t op s l → I.result l = none
  done_result : ∀ t r r' s l, Done t r s l → I.result l = some r' → r' = r
  pending_stable : ∀ t u op s a s' l, t ≠ u → Inv s a → Guarantee u s s' →
    Pending t op s l → Pending t op s' l
  done_stable : ∀ t u r s a s' l, t ≠ u → Inv s a → Guarantee u s s' →
    Done t r s l → Done t r s' l

namespace Outline
variable {I : Implementation τ Op Res σ loc χ} {S : Spec Op Res A} (P : Outline I S)

/-- What the outline says of a thread: its local state against its status. -/
def Annotated (t : τ) (s : σ) : Option loc → Status Op Res → Prop
  | none, .idle => True
  | some l, .pending op => P.Pending t op s l
  | some l, .done r => P.Done t r s l
  | _, _ => False

variable {P} {t u : τ} {s s' : σ} {a : A} {pc : Option loc} {q : Status Op Res}

theorem Annotated.stable (h : P.Annotated t s pc q) (hne : t ≠ u) (hinv : P.Inv s a)
    (hg : P.Guarantee u s s') : P.Annotated t s' pc q := by
  cases pc <;> cases q <;> simp only [Annotated] at h ⊢
  · exact P.pending_stable t u _ s a s' _ hne hinv hg h
  · exact P.done_stable t u _ s a s' _ hne hinv hg h

theorem Annotated.of_none (h : P.Annotated t s none q) : q = .idle := by
  cases q <;> simp_all [Annotated]

/-- A thread inside a call is pending or done. -/
theorem Annotated.of_some {l : loc} (h : P.Annotated t s (some l) q) :
    (∃ op, q = .pending op ∧ P.Pending t op s l) ∨ ∃ r, q = .done r ∧ P.Done t r s l := by
  cases q with
  | idle => exact h.elim
  | pending op => exact .inl ⟨op, rfl, h⟩
  | done r => exact .inr ⟨r, rfl, h⟩

variable (P)

/-- The annotations hold of every thread, and the store represents the value. -/
structure Rel (s : Implementation.State τ σ loc) (a : AtomicObject.State τ Op Res A) : Prop where
  inv : P.Inv s.store a.value
  thread : ∀ t, P.Annotated t s.store (s.pc t) (a.status t)

variable [DecidableEq τ]

/-- After a step of `t`, everybody else's annotation is the old one carried over. -/
theorem rel_update {s : Implementation.State τ σ loc} {a : AtomicObject.State τ Op Res A}
    (h : P.Rel s a) {t : τ} {st : σ} {b : A} {pc : Option loc} {q : Status Op Res}
    (hinv : P.Inv st b) (hg : st = s.store ∨ P.Guarantee t s.store st)
    (hself : P.Annotated t st pc q) :
    P.Rel ⟨st, Function.update s.pc t pc⟩ ⟨b, Function.update a.status t q⟩ := by
  refine ⟨hinv, update_rel (R := fun u => P.Annotated u st) hself fun u hu => ?_⟩
  rcases hg with rfl | hg
  · exact h.thread u
  · exact (h.thread u).stable hu h.inv hg

/-- **An outline is a simulation by the atomic object**: a call is a call, a return
is a return, and an internal step is the operation taking effect or nothing. -/
def simulation : System.Simulation I.system
    (AtomicObject.system S : System (AtomicObject.State τ Op Res A) (Event τ Op Res)) where
  Rel := P.Rel
  initial := ⟨P.initial, fun _ => trivial⟩
  step := by
    intro s a l s' h hstep
    rcases Implementation.step_cases hstep with
      ⟨t, op, hpc, rfl, rfl⟩ | ⟨t, loc, c, st, loc', hpc, hst, rfl, rfl⟩ | ⟨t, loc, r, hpc, hr, rfl, rfl⟩
    · have hidle : a.status t = .idle := Annotated.of_none (hpc ▸ h.thread t)
      exact ⟨_, System.Path.single (.call hidle),
        P.rel_update h h.inv (.inl rfl) (P.start t op s.store a.value h.inv)⟩
    · rcases (hpc ▸ h.thread t : P.Annotated t s.store (some loc) _).of_some with
        ⟨op, hq, hp⟩ | ⟨r, hq, hd⟩
      · obtain ⟨hg, ⟨hinv, hp'⟩ | ⟨r, b, hap, hinv, hd⟩⟩ :=
          P.pending_step t op s.store a.value loc c st loc' h.inv hp hst
        · refine ⟨a, .refl, ?_⟩
          have : P.Rel _ ⟨a.value, Function.update a.status t (.pending op)⟩ :=
            P.rel_update h hinv (.inr hg) (show P.Annotated t st (some loc') _ from hp')
          rwa [← hq, Function.update_eq_self] at this
        · exact ⟨_, System.Path.single (.take hq hap), P.rel_update h hinv (.inr hg) hd⟩
      · obtain ⟨hg, hinv, hd'⟩ := P.done_step t r s.store a.value loc c st loc' h.inv hd hst
        refine ⟨a, .refl, ?_⟩
        have : P.Rel _ ⟨a.value, Function.update a.status t (.done r)⟩ :=
          P.rel_update h hinv (.inr hg) (show P.Annotated t st (some loc') _ from hd')
        rwa [← hq, Function.update_eq_self] at this
    · rcases (hpc ▸ h.thread t : P.Annotated t s.store (some loc) _).of_some with
        ⟨op, hq, hp⟩ | ⟨r', hq, hd⟩
      · rw [P.pending_result t op s.store loc hp] at hr
        cases hr
      · obtain rfl := P.done_result t r' r s.store loc hd hr
        exact ⟨_, System.Path.single (.ret hq), P.rel_update h h.inv (.inl rfl) trivial⟩

include P in
theorem linearizable : I.Linearizable S := by
  intro es s hrun
  obtain ⟨a, ha, _⟩ := P.simulation.run hrun
  exact ⟨a, ha⟩

/-- In every reachable state the store represents some value and every running
call stands at a local state its annotation describes. -/
theorem reachable {s : Implementation.State τ σ loc} (h : I.system.Reachable s) :
    ∃ a, P.Inv s.store a ∧ ∀ t l, s.pc t = some l →
      (∃ op, P.Pending t op s.store l) ∨ ∃ r, P.Done t r s.store l := by
  obtain ⟨es, hrun⟩ := h
  obtain ⟨a, _, hrel⟩ := P.simulation.run hrun
  refine ⟨a.value, hrel.inv, fun t l hl => ?_⟩
  rcases (hl ▸ hrel.thread t : P.Annotated t s.store (some l) _).of_some with
    ⟨op, _, hp⟩ | ⟨r, _, hd⟩
  · exact .inl ⟨op, hp⟩
  · exact .inr ⟨r, hd⟩

/-- The annotations put no call at a fault. -/
structure Avoids (fault : loc → Prop) : Prop where
  pending : ∀ t op s l, P.Pending t op s l → ¬ fault l
  done : ∀ t r s l, P.Done t r s l → ¬ fault l

variable {P} in
theorem Avoids.never {fault : loc → Prop} (h : P.Avoids fault) {s : Implementation.State τ σ loc}
    (hs : I.system.Reachable s) {t : τ} {l : loc} (hl : s.pc t = some l) : ¬ fault l := by
  obtain ⟨_, _, hthread⟩ := P.reachable hs
  rcases hthread t l hl with ⟨op, hp⟩ | ⟨r, hd⟩
  · exact h.pending t op s.store l hp
  · exact h.done t r s.store l hd

/-- A step of a call is within the guarantee of its thread. -/
theorem step_guarantee {s : Implementation.State τ σ loc} {t : τ} {l l' : loc} {c : χ} {st : σ}
    (h : I.system.Reachable s) (hl : s.pc t = some l) (hstep : I.step t s.store l c = some (st, l')) :
    P.Guarantee t s.store st := by
  obtain ⟨a, hinv, hthread⟩ := P.reachable h
  rcases hthread t l hl with ⟨op, hp⟩ | ⟨r, hd⟩
  · exact (P.pending_step t op s.store a l c st l' hinv hp hstep).1
  · exact (P.done_step t r s.store a l c st l' hinv hd hstep).1

/-- Each step is within the guarantee of the thread that takes it, or leaves the store alone. -/
theorem store_step {s s' : Implementation.State τ σ loc} {l : Option (Event τ Op Res)} (h : I.system.Reachable s)
    (hstep : I.system.step s l s') : s'.store = s.store ∨ ∃ t, P.Guarantee t s.store s'.store := by
  obtain ⟨a, hinv, hthread⟩ := P.reachable h
  rcases Implementation.step_cases hstep with ⟨t, op, _, _, rfl⟩ | ⟨t, loc, c, st, loc', hpc, hst, _, rfl⟩ |
    ⟨t, loc, r, _, _, _, rfl⟩
  · exact .inl rfl
  · rcases hthread t loc hpc with ⟨op, hp⟩ | ⟨r, hd⟩
    · exact .inr ⟨t, (P.pending_step t op s.store a loc c st loc' hinv hp hst).1⟩
    · exact .inr ⟨t, (P.done_step t r s.store a loc c st loc' hinv hd hst).1⟩
  · exact .inl rfl

omit [DecidableEq τ] in
/-- A call that runs alone is annotated all along: it is pending, and the value is the one it
began with, or it has taken effect. -/
theorem alone {me : τ} {s : σ} {a : A} {op : Op} {x : σ × loc} (hinv : P.Inv s a)
    (h : I.Alone me (s, I.start op) x) : Relation.ReflTransGen (P.Guarantee me) s x.1 ∧
      ((P.Inv x.1 a ∧ P.Pending me op x.1 x.2) ∨
        ∃ r b, S.apply op a r b ∧ P.Inv x.1 b ∧ P.Done me r x.1 x.2) := by
  induction h with
  | refl => exact ⟨.refl, .inl ⟨hinv, P.start me op s a hinv⟩⟩
  | @tail x y _ hstep ih =>
    obtain ⟨c, hc⟩ := hstep
    obtain ⟨hg, ⟨hi, hp⟩ | ⟨r, b, hap, hi, hd⟩⟩ := ih
    · obtain ⟨hg', ⟨hi', hp'⟩ | ⟨r, b, hap, hi', hd⟩⟩ := P.pending_step me op x.1 a x.2 c y.1 y.2 hi hp hc
      · exact ⟨hg.tail hg', .inl ⟨hi', hp'⟩⟩
      · exact ⟨hg.tail hg', .inr ⟨r, b, hap, hi', hd⟩⟩
    · obtain ⟨hg', hi', hd'⟩ := P.done_step me r x.1 b x.2 c y.1 y.2 hi hd hc
      exact ⟨hg.tail hg', .inr ⟨r, b, hap, hi', hd'⟩⟩

omit [DecidableEq τ] in
/-- A call that runs alone does what the specification says. -/
theorem answers {me : τ} {s s' : σ} {a : A} {op : Op} {r : Res} (hinv : P.Inv s a)
    (h : I.Answers me s op r s') :
    ∃ b, S.apply op a r b ∧ P.Inv s' b ∧ Relation.ReflTransGen (P.Guarantee me) s s' := by
  obtain ⟨l, hl, hr⟩ := h
  obtain ⟨hg, ⟨_, hp⟩ | ⟨r', b, hap, hi, hd⟩⟩ := P.alone hinv hl
  · rw [P.pending_result me op s' l hp] at hr
    cases hr
  · obtain rfl := P.done_result me r' r s' l hd hr
    exact ⟨b, hap, hi, hg⟩

end Outline

end ParSweet.Concurrent
