import ParSweet.Sets.LazySet
import ParSweet.Sets.OptimisticSet

/-! Why the validation of the optimistic and of the lazy set fails.

From the start of an iteration on, the pair the walk stands on is in the list and
adjacent (`Paired`), and in the optimistic set the second walk is on its way to the
predecessor. Only a store to a `next` field of the list ends that (`Relinks`), and while
it lasts no check fails. In the lazy set the checks read marks too: a marked node that is
still in the list is locked by the removal that has marked it (`MarksOwned`). -/
namespace ParSweet.Sets
open Concurrent

variable {τ T loc χ : Type*} [DecidableEq τ]

/-- Another thread than `me` stores to the `next` field of a node in the list. -/
def Relinks (me : τ) (s : Implementation.State τ (Store τ T) loc) (a : Implementation.Action τ (SetOp T) χ)
    (s' : Implementation.State τ (Store τ T) loc) : Prop :=
  (∃ u choice, a = .run u choice ∧ u ≠ me) ∧ ∃ n, s.store.Live n ∧ s'.store.next n ≠ s.store.next n

/-- If a thread's validation has failed, another thread has relinked the list since the iteration
began. -/
def FailsOnlyIfRelinked (I : Implementation τ (SetOp T) (SetRes T) (Store τ T) loc χ)
    (Begins Failed : loc → Prop) : Prop :=
  ∀ me s as es s' l l', I.system.Reachable s → s.pc me = some l → Begins l →
    I.machine.exec s as = some (es, s') → s'.pc me = some l' → Failed l' → I.machine.Meets (Relinks me) s as

/-! ### A call on its track -/

/-- Only other threads' stores can throw a call off its track. -/
structure Tracked (I : Implementation τ (SetOp T) (SetRes T) (Store τ T) loc χ) (me : τ)
    (OnTrack : Store τ T → loc → Prop) : Prop where
  start : ∀ op s, OnTrack s (I.start op)
  own : ∀ s l choice s' l', I.system.Reachable s → s.pc me = some l → OnTrack s.store l →
    I.step me s.store l choice = some (s', l') → OnTrack s' l'
  others : ∀ s s' l, OnTrack s l → (∀ n, s.Live n → s'.next n = s.next n) → OnTrack s' l

section Tracks
variable {I : Implementation τ (SetOp T) (SetRes T) (Store τ T) loc χ} {me : τ} {OnTrack : Store τ T → loc → Prop}

/-- One step of whatever thread. -/
theorem Tracked.next (h : Tracked I me OnTrack) {s s' : Implementation.State τ (Store τ T) loc}
    {a : Implementation.Action τ (SetOp T) χ} {e : Option (Event τ (SetOp T) (SetRes T))}
    (hs : I.system.Reachable s) (hl : ∀ l, s.pc me = some l → OnTrack s.store l)
    (hstep : I.machine.next s a = some (e, s')) :
    Relinks me s a s' ∨ ∀ l, s'.pc me = some l → OnTrack s'.store l := by
  by_cases hlink : Relinks me s a s'
  · exact .inl hlink
  refine .inr fun l' hl' => ?_
  simp only [Implementation.machine] at hstep
  cases a with
  | call u op =>
    cases hp : s.pc u with
    | some l => simp [Implementation.next, hp] at hstep
    | none =>
      simp only [Implementation.next, hp, Option.some.injEq, Prod.mk.injEq] at hstep
      obtain ⟨rfl, rfl⟩ := hstep
      by_cases hu : me = u
      · subst hu
        obtain rfl : I.start op = l' := by simpa using hl'
        exact h.start op s.store
      · exact hl l' (by simpa [hu] using hl')
  | ret u =>
    cases hp : s.pc u with
    | none => simp [Implementation.next, hp] at hstep
    | some l =>
      simp only [Implementation.next, hp, Option.map_eq_some_iff, Prod.mk.injEq] at hstep
      obtain ⟨_, _, _, rfl⟩ := hstep
      by_cases hu : me = u
      · subst hu
        simp at hl'
      · exact hl l' (by simpa [hu] using hl')
  | run u choice =>
    cases hp : s.pc u with
    | none => simp [Implementation.next, hp] at hstep
    | some l =>
      simp only [Implementation.next, hp, Option.map_eq_some_iff, Prod.mk.injEq] at hstep
      obtain ⟨⟨st, l₁⟩, hst, _, rfl⟩ := hstep
      by_cases hu : me = u
      · subst hu
        obtain rfl : l₁ = l' := by simpa using hl'
        exact h.own s l choice st l₁ hs hp (hl l hp) hst
      · have hl₀ : OnTrack s.store l' := hl l' (by simpa [hu] using hl')
        refine h.others s.store st l' hl₀ fun n hn => ?_
        by_contra hne
        exact hlink ⟨⟨u, choice, rfl, fun he => hu he.symm⟩, n, hn, hne⟩

/-- **A call on its track stays there** until another thread relinks the list. -/
theorem Tracked.failsOnlyIfRelinked {Begins Failed : loc → Prop} (h : ∀ me, Tracked I me OnTrack)
    (hbegins : ∀ s l, Begins l → OnTrack s l) (hfailed : ∀ s l, Failed l → ¬ OnTrack s l) :
    FailsOnlyIfRelinked I Begins Failed := by
  intro me s as es s' l l' hs hl hbegin hexec hl' hfail
  have hgo := I.machine.exec_invariant (B := Relinks me)
    (I := fun s => I.system.Reachable s ∧ ∀ l, s.pc me = some l → OnTrack s.store l)
    (fun s a e s' hi hnext => (h me).next hi.1 hi.2 hnext |>.imp_right fun ht =>
      ⟨hi.1.path (.single ⟨a, hnext⟩), ht⟩)
    ⟨hs, fun l₁ hl₁ => by
      obtain rfl : l = l₁ := Option.some.inj (hl.symm.trans hl₁)
      exact hbegins s.store l hbegin⟩ hexec
  exact hgo.resolve_right fun hi => hfailed s'.store l' hfail (hi.2 l' hl')

end Tracks

/-! ### The walk -/

/-- The two nodes are a pair of the list. -/
def Paired (s : Store τ T) (p c : NodeId) : Prop := s.Live p ∧ s.next p = some c

variable {s s' : Store τ T} {me u : τ} {p c check n : NodeId}

omit [DecidableEq τ] in
theorem live_congr (h : s.Live n) (hs : ∀ n, s.Live n → s'.next n = s.next n) : s'.Live n := Links.Reaches.congr h hs

omit [DecidableEq τ] in
theorem Paired.congr (h : Paired s p c) (hs : ∀ n, s.Live n → s'.next n = s.next n) : Paired s' p c :=
  ⟨live_congr h.1 hs, (hs p h.1).trans h.2⟩

/-- The pair the walk stands on. -/
def Walk.OnTrack (s : Store τ T) : Walk → Prop
  | .start => True
  | .test p c | .advance p c | .lock p c _ => Paired s p c

/-- The pair a step of the walk leads to. -/
def Walked.OnTrack (s : Store τ T) : Walked → Prop
  | .on w => w.OnTrack s
  | .locked p c => Paired s p c
  | .fault => True

omit [DecidableEq τ] in
theorem Walk.OnTrack.congr {w : Walk} (h : w.OnTrack s) (hs : ∀ n, s.Live n → s'.next n = s.next n) : w.OnTrack s' := by
  cases w with
  | start => trivial
  | _ => exact Paired.congr h hs

section Walks
variable [BEq T] {L : Lang} {H : Hash L T} {t : T} {choice : Bool} {r : Walked}

omit [DecidableEq τ] [BEq T] in
theorem tryAcquire_mutex (h : s.tryAcquire me n = some s') : ∃ m, s' = {s with mutex := m} :=
  ⟨_, (Store.tryAcquire_eq_some.mp h).2⟩

omit [DecidableEq τ] [BEq T] in
theorem lockBoth_mutex {held held' : Held} (h : lockBoth L me s p c choice held = some (s', held')) :
    ∃ m, s' = {s with mutex := m} := by
  cases held with
  | neither =>
    simp only [lockBoth] at h
    split at h <;> obtain ⟨_, ha, heq⟩ := Option.map_eq_some_iff.mp h <;> cases heq <;>
      exact tryAcquire_mutex ha
  | predecessor =>
    cases ha : s.tryAcquire me c with
    | some s₁ =>
      simp only [lockBoth, ha, Option.some.injEq, Prod.mk.injEq] at h
      obtain ⟨rfl, _⟩ := h
      exact tryAcquire_mutex ha
    | none =>
      cases L <;> simp only [lockBoth, ha, Option.some.injEq, Prod.mk.injEq, reduceCtorEq] at h
      obtain ⟨rfl, _⟩ := h
      exact ⟨_, rfl⟩
  | current =>
    cases ha : s.tryAcquire me p with
    | some s₁ =>
      simp only [lockBoth, ha, Option.some.injEq, Prod.mk.injEq] at h
      obtain ⟨rfl, _⟩ := h
      exact tryAcquire_mutex ha
    | none =>
      simp only [lockBoth, ha, Option.some.injEq, Prod.mk.injEq] at h
      obtain ⟨rfl, _⟩ := h
      exact ⟨_, rfl⟩
  | both => simp [lockBoth] at h

omit [DecidableEq τ] in
/-- The walk changes nothing but mutexes. -/
theorem walk_mutex {w : Walk} (h : w.step H me s t choice = some (s', r)) : ∃ m, s' = {s with mutex := m} := by
  cases w with
  | lock p c held =>
    simp only [Walk.step, Option.map_eq_some_iff, Prod.mk.injEq] at h
    obtain ⟨_, hl, rfl, _⟩ := h
    exact lockBoth_mutex hl
  | _ =>
    simp only [Walk.step] at h
    split at h <;> cases h <;> exact ⟨_, rfl⟩

omit [DecidableEq τ] in
/-- One step of the walk stays on pairs of the list. -/
theorem Walk.OnTrack.step {w : Walk} (h : w.OnTrack s) (hstep : w.step H me s t choice = some (s', r)) : r.OnTrack s' := by
  cases w with
  | start =>
    simp only [Walk.step] at hstep
    split at hstep <;> cases hstep
    · exact ⟨.refl, ‹_›⟩
    · trivial
  | test p c =>
    simp only [Walk.step] at hstep
    split at hstep <;> cases hstep <;> exact h
  | advance p c =>
    simp only [Walk.step] at hstep
    split at hstep <;> cases hstep
    · exact ⟨h.1.tail h.2, ‹_›⟩
    · trivial
  | lock p c held =>
    simp only [Walk.step, Option.map_eq_some_iff, Prod.mk.injEq] at hstep
    obtain ⟨⟨s₁, held'⟩, hl, rfl, rfl⟩ := hstep
    obtain ⟨m, rfl⟩ := lockBoth_mutex hl
    split_ifs <;> exact h

end Walks

/-! ### The optimistic set -/

namespace OptimisticSet
variable [BEq T] {L : Lang} {H : Hash L T} {op : SetOp T} {next : Option NodeId} {choice : Bool}

/-- The validation has failed: the pair is on its way to be unlocked, or a null pointer was met. -/
def Failed (l : Local T) : Prop :=
  match l.pc with
  | .unlockCurrent _ _ none | .unlockPredecessor _ none | .throwCurrent _ _ | .throwPredecessor _ | .fault => True
  | _ => False

/-- An iteration that nothing has disturbed. -/
def OnTrack (L : Lang) (s : Store τ T) (l : Local T) : Prop :=
  match l.pc with
  | .walk w => w.OnTrack s
  | .check p c => Paired s p c
  | .validate p c check next => Paired s p c ∧ s.Live check ∧ Links.Reaches s.next check p ∧
      (L = .cpp → next = s.next check)
  | .validateNext p c check next => Paired s p c ∧ s.Live check ∧
      ∃ d, s.next check = some d ∧ Links.Reaches s.next d p ∧ (L = .cpp → next = some d)
  | .recheck p c check => Paired s p c ∧ check = p
  | .callback _ _ _ | .unlockCurrent _ _ (some _) | .unlockPredecessor _ (some _) | .returned _ => True
  | _ => False

omit [DecidableEq τ] [BEq T] in
theorem onTrack_congr {l : Local T} (h : OnTrack L s l) (hs : ∀ n, s.Live n → s'.next n = s.next n) :
    OnTrack L s' l := by
  obtain ⟨op, pc⟩ := l
  cases pc with
  | walk w => exact Walk.OnTrack.congr h hs
  | check p c => exact Paired.congr h hs
  | validate p c check next =>
    obtain ⟨hp, hl, hr, hn⟩ := h
    exact ⟨hp.congr hs, live_congr hl hs, hr.congr fun n hn => hs n (hl.trans hn), fun hL => (hn hL).trans (hs check hl).symm⟩
  | validateNext p c check next =>
    obtain ⟨hp, hl, d, hd, hr, hn⟩ := h
    exact ⟨hp.congr hs, live_congr hl hs, d, (hs check hl).trans hd, hr.congr fun n hn => hs n ((hl.tail hd).trans hn), hn⟩
  | recheck p c check => exact ⟨h.1.congr hs, h.2⟩
  | unlockCurrent p c exit => cases exit <;> exact h
  | unlockPredecessor p exit => cases exit <;> exact h
  | _ => exact h

omit [DecidableEq τ] in
/-- **The second walk ends exactly at the predecessor**, and so the validation succeeds. -/
theorem onTrack_step [EquivBEq T] {pc : Pc T} {l' : Local T} (hinv : ListInv H false s)
    (hat : PendingAt H s me op pc ∨ ∃ r, DoneAt s me r pc) (h : OnTrack L s ⟨op, pc⟩)
    (hstep : step H me s ⟨op, pc⟩ choice = some (s', l')) : OnTrack L s' l' := by
  cases pc with
  | walk w =>
    rcases step_walk hstep with ⟨w', hw, rfl⟩ | ⟨p, c, hw, rfl⟩ | ⟨hw, rfl⟩
    · exact Walk.OnTrack.step h hw
    · exact Walk.OnTrack.step h hw
    · rcases hat with hp | ⟨r, hd⟩
      · exact (walk_step hinv hp hw).2.2.elim
      · exact hd.elim
  | check p c =>
    have hp : Paired s p c := h
    cases L
    all_goals
      simp only [step, Option.some.injEq, Prod.mk.injEq] at hstep
      obtain ⟨rfl, rfl⟩ := hstep
    · exact ⟨hp, .refl, hp.1, fun _ => rfl⟩
    · exact ⟨hp, .refl, hp.1, fun hL => Lang.noConfusion hL⟩
  | validate p c check next =>
    obtain ⟨hp, hl, hr, hnext⟩ := h
    have hsucc : ∀ {d}, s.next check = some d → successor L s check next = some d := fun hd => by
      cases L
      · exact (hnext rfl).trans hd
      · exact hd
    rcases Relation.ReflTransGen.cases_head hr with rfl | ⟨d, hd, hr⟩
    · -- At the predecessor the values are those of the same node.
      have hval : ((s.node c).value != (s.node c).value) = false := by
        cases (s.node c).value with
        | none => rfl
        | some x => exact (congrArg not (BEq.rfl (a := x)) : (!(x == x)) = false)
      simp only [step, lt_irrefl, if_false, if_true, hsucc hp.2, hval, Bool.false_eq_true, Option.some.injEq,
        Prod.mk.injEq] at hstep
      obtain ⟨rfl, rfl⟩ := hstep
      exact ⟨hp, rfl⟩
    · rw [validate_goes_on me op choice hinv hl hd hr hp.2 (hsucc hd), Option.some.injEq, Prod.mk.injEq] at hstep
      obtain ⟨rfl, rfl⟩ := hstep
      exact ⟨hp, hl, d, hd, hr, fun hL => (hnext hL).trans hd⟩
  | validateNext p c check next =>
    obtain ⟨hp, hl, d, hd, hr, hnext⟩ := h
    have hsucc : successor L s check next = some d := by
      cases L
      · exact hnext rfl
      · exact hd
    cases L
    all_goals
      simp only [step, hsucc, Option.some.injEq, Prod.mk.injEq] at hstep
      obtain ⟨rfl, rfl⟩ := hstep
    · exact ⟨hp, hl.tail hd, hr, fun _ => rfl⟩
    · exact ⟨hp, hl.tail hd, hr, fun hL => Lang.noConfusion hL⟩
  | recheck p c check =>
    obtain ⟨hp, rfl⟩ := h
    simp only [step, show (s.node check).next = some c from hp.2, and_self, if_true, Option.some.injEq,
      Prod.mk.injEq] at hstep
    obtain ⟨_, rfl⟩ := hstep
    trivial
  | callback p c cb =>
    rcases step_callback hstep with ⟨cb', hcb, rfl⟩ | ⟨r, hcb, rfl⟩
    all_goals
      trivial
  | unlockCurrent p c exit =>
    cases exit with
    | none => exact h.elim
    | some r =>
      cases hstep
      trivial
  | unlockPredecessor p exit =>
    cases exit with
    | none => exact h.elim
    | some r =>
      cases hstep
      trivial
  | returned r => simp [step] at hstep
  | _ => exact h.elim

omit [DecidableEq τ] [BEq T] in
theorem Failed.not_onTrack {l : Local T} (hf : Failed l) : ¬ OnTrack L s l := by
  obtain ⟨op, pc⟩ := l
  intro h
  cases pc with
  | unlockCurrent p c exit => cases exit <;> contradiction
  | unlockPredecessor p exit => cases exit <;> contradiction
  | throwCurrent p c | throwPredecessor p | fault => exact h
  | _ => exact hf

theorem tracked [EquivBEq T] (H : Hash L T) (me : τ) : Tracked (implementation τ H) me (OnTrack L) where
  start := fun _ _ => trivial
  own := fun s l choice s' l' hs hl h hstep => by
    obtain ⟨_, ⟨hinv, _⟩, hthread⟩ := (outline τ H).reachable hs
    obtain ⟨op, pc⟩ := l
    refine onTrack_step hinv ?_ h hstep
    rcases hthread me _ hl with ⟨_, rfl, hp⟩ | ⟨r, hd⟩
    · exact .inl hp
    · exact .inr ⟨r, hd⟩
  others := fun _ _ _ h hs => onTrack_congr h hs

end OptimisticSet

/-! ### The lazy set -/

namespace LazySet
variable [BEq T] {L : Lang} {H : Hash L T} {op : SetOp T} {choice : Bool}

/-- The check has failed: the pair is on its way to be unlocked, or a null pointer was met. -/
def Failed (l : Local T) : Prop :=
  match l.pc with
  | .unlockCurrent _ _ none | .unlockPredecessor _ none | .fault => True
  | _ => False

/-- An iteration that nothing has disturbed. -/
def OnTrack (s : Store τ T) (l : Local T) : Prop :=
  match l.pc with
  | .walk w => w.OnTrack s
  | .checkPredecessor p c | .checkCurrent p c | .checkNext p c => Paired s p c
  | .callback _ _ _ | .unlockCurrent _ _ (some _) | .unlockPredecessor _ (some _) | .returned _ => True
  | _ => False

omit [DecidableEq τ] [BEq T] in
theorem onTrack_congr {l : Local T} (h : OnTrack s l) (hs : ∀ n, s.Live n → s'.next n = s.next n) :
    OnTrack s' l := by
  obtain ⟨op, pc⟩ := l
  cases pc with
  | walk w => exact Walk.OnTrack.congr h hs
  | checkPredecessor p c | checkCurrent p c | checkNext p c => exact Paired.congr h hs
  | unlockCurrent p c exit => cases exit <;> exact h
  | unlockPredecessor p exit => cases exit <;> exact h
  | _ => exact h

/-- A call is about to unlink `n`, which it has marked. -/
def Unlinks (n : NodeId) (l : Local T) : Prop := ∃ p cb, l.pc = .callback p n cb ∧ cb.Unlinks

omit [DecidableEq τ] in
/-- What is marked in the list after a step was marked before and is nothing the call is about to
unlink, or is what it is about to unlink. -/
theorem marked_step {pc : Pc T} {l' : Local T} (hinv : ListInv H true s)
    (hat : PendingAt H s me op pc ∨ ∃ r, DoneAt s me r pc) (hstep : step H me s ⟨op, pc⟩ choice = some (s', l'))
    (hl : s'.Live n) (hd : s'.deleted n = true) :
    (s.Live n ∧ s.deleted n = true ∧ ¬ Unlinks n ⟨op, pc⟩) ∨ Unlinks n l' := by
  cases pc with
  | walk w =>
    rcases step_walk hstep with ⟨w', hw, rfl⟩ | ⟨p, c, hw, rfl⟩ | ⟨hw, rfl⟩
    all_goals
      obtain ⟨m, rfl⟩ := walk_mutex hw
      exact .inl ⟨hl, hd, by simp [Unlinks]⟩
  | checkPredecessor p c | checkCurrent p c | checkNext p c =>
    simp only [step] at hstep
    split at hstep <;> cases hstep <;> exact .inl ⟨hl, hd, by simp [Unlinks]⟩
  | callback p c cb =>
    obtain ⟨hr, hcb⟩ := hat.resolve_right fun hd => hd.elim fun _ h => h
    rcases step_callback hstep with ⟨cb', hcs, rfl⟩ | ⟨r, hcs, rfl⟩
    all_goals
      rcases callback_marked hinv hr hcb hcs hl hd with ⟨hl', hd', hne⟩ | ⟨rfl, _, heq, hu⟩
      · refine .inl ⟨hl', hd', ?_⟩
        rintro ⟨_, _, heq, hu⟩
        cases heq
        exact hne hu rfl
      · cases heq <;> exact .inr ⟨p, _, rfl, hu⟩
  | unlockCurrent p c exit =>
    cases hstep
    exact .inl ⟨hl, hd, by simp [Unlinks]⟩
  | unlockPredecessor p exit =>
    cases exit <;> cases hstep <;> exact .inl ⟨hl, hd, by simp [Unlinks]⟩
  | returned r | fault => simp [step] at hstep

/-- Wherever a call stands, it is before or past its effect. -/
theorem at_of_reachable [EquivBEq T] {s : Implementation.State τ (Store τ T) (Local T)} {pc : Pc T}
    (hs : (implementation τ H).system.Reachable s) (hl : s.pc me = some ⟨op, pc⟩) :
    ListInv H true s.store ∧ (PendingAt H s.store me op pc ∨ ∃ r, DoneAt s.store me r pc) := by
  obtain ⟨_, ⟨hinv, _⟩, hthread⟩ := (outline τ H).reachable hs
  rcases hthread me _ hl with ⟨_, rfl, hp⟩ | ⟨r, hr⟩
  · exact ⟨hinv, .inl hp⟩
  · exact ⟨hinv, .inr ⟨r, hr⟩⟩

/-- Every marked node of the list is about to be unlinked by the call that has marked it. -/
def MarksOwned (s : Implementation.State τ (Store τ T) (Local T)) : Prop :=
  ∀ n, s.store.Live n → s.store.deleted n = true → ∃ u l, s.pc u = some l ∧ Unlinks n l

theorem marksOwned [EquivBEq T] (H : Hash L T) {s : Implementation.State τ (Store τ T) (Local T)}
    (hs : (implementation τ H).system.Reachable s) : MarksOwned s := by
  refine System.Reachable.invariant_of (I := MarksOwned) (fun _ hs => hs) ?_ ?_ hs
  · intro n _ hd
    cases hd
  intro s e s' hs hi hstep n hl hd
  rcases Implementation.step_cases hstep with ⟨t, op, ht, -, rfl⟩ | ⟨t, l, choice, st, l', ht, hst, -, rfl⟩ |
    ⟨t, l, r, ht, hres, -, rfl⟩
  · obtain ⟨u, k, hu, hk⟩ := hi n hl hd
    have hut : u ≠ t := fun he => by rw [he, ht] at hu; cases hu
    exact ⟨u, k, by simpa [hut] using hu, hk⟩
  · obtain ⟨op, pc⟩ := l
    obtain ⟨hinv, hat⟩ := at_of_reachable hs ht
    rcases marked_step hinv hat hst hl hd with ⟨hl', hd', hnot⟩ | hk
    · obtain ⟨u, k, hu, hk⟩ := hi n hl' hd'
      have hut : u ≠ t := by
        rintro rfl
        obtain rfl : k = ⟨op, pc⟩ := Option.some.inj (hu.symm.trans ht)
        exact hnot hk
      exact ⟨u, k, by simpa [hut] using hu, hk⟩
    · exact ⟨t, l', by simp, hk⟩
  · obtain ⟨u, k, hu, p, cb, hk, hcb⟩ := hi n hl hd
    have hut : u ≠ t := by
      rintro rfl
      obtain rfl : k = l := Option.some.inj (hu.symm.trans ht)
      simp [implementation, hk] at hres
    exact ⟨u, k, by simpa [hut] using hu, p, cb, hk, hcb⟩

/-- **A node of the list whose mutex one holds oneself is not marked** where one is not in a
callback. -/
theorem not_marked [EquivBEq T] {s : Implementation.State τ (Store τ T) (Local T)} {l : Local T}
    (hs : (implementation τ H).system.Reachable s) (hl : s.pc me = some l) (hlive : s.store.Live n)
    (hheld : s.store.mutex n = some me) (hnot : ∀ p c cb, l.pc ≠ .callback p c cb) : s.store.deleted n = false := by
  refine Bool.of_not_eq_true fun hd => ?_
  obtain ⟨_, _, hthread⟩ := (outline τ H).reachable hs
  obtain ⟨u, ⟨op, _⟩, hu, p, cb, rfl, hcb⟩ := marksOwned H hs n hlive hd
  have hready : Ready H s.store u op.element p n := by
    rcases hthread u _ hu with ⟨_, rfl, hp⟩ | ⟨r, hr⟩
    · exact hp.1
    · exact hr.elim
  obtain rfl : u = me := Option.some.inj (hready.sec.curr_held.symm.trans hheld)
  obtain rfl := Option.some.inj (hu.symm.trans hl)
  exact hnot p n cb rfl

theorem onTrack_step [EquivBEq T] {s : Implementation.State τ (Store τ T) (Local T)} {pc : Pc T} {l' : Local T}
    (hs : (implementation τ H).system.Reachable s) (hl : s.pc me = some ⟨op, pc⟩) (h : OnTrack s.store ⟨op, pc⟩)
    (hstep : step H me s.store ⟨op, pc⟩ choice = some (s', l')) : OnTrack s' l' := by
  obtain ⟨hinv, hat⟩ := at_of_reachable hs hl
  cases pc with
  | walk w =>
    rcases step_walk hstep with ⟨w', hw, rfl⟩ | ⟨p, c, hw, rfl⟩ | ⟨hw, rfl⟩
    · exact Walk.OnTrack.step h hw
    · exact Walk.OnTrack.step h hw
    · rcases hat with hp | ⟨r, hd⟩
      · exact (walk_step hinv hp hw).2.2.elim
      · exact hd.elim
  | checkPredecessor p c =>
    obtain ⟨_, _, hlock⟩ := hat.resolve_right fun hd => hd.elim fun _ h => h
    have hclean := not_marked hs hl h.1 hlock.pred_held (by simp)
    simp only [step, hclean, Bool.false_eq_true, if_false, Option.some.injEq, Prod.mk.injEq] at hstep
    obtain ⟨rfl, rfl⟩ := hstep
    exact h
  | checkCurrent p c =>
    obtain ⟨_, _, hlock, _⟩ := hat.resolve_right fun hd => hd.elim fun _ h => h
    have hclean := not_marked hs hl (h.1.tail h.2) hlock.curr_held (by simp)
    simp only [step, hclean, Bool.false_eq_true, if_false, Option.some.injEq, Prod.mk.injEq] at hstep
    obtain ⟨rfl, rfl⟩ := hstep
    exact h
  | checkNext p c =>
    simp only [step, show (s.store.node p).next = some c from h.2, if_true, Option.some.injEq, Prod.mk.injEq] at hstep
    obtain ⟨_, rfl⟩ := hstep
    trivial
  | callback p c cb =>
    rcases step_callback hstep with ⟨cb', hcb, rfl⟩ | ⟨r, hcb, rfl⟩
    all_goals
      trivial
  | unlockCurrent p c exit =>
    cases exit with
    | none => exact h.elim
    | some r =>
      cases hstep
      trivial
  | unlockPredecessor p exit =>
    cases exit with
    | none => exact h.elim
    | some r =>
      cases hstep
      trivial
  | returned r => simp [step] at hstep
  | fault => exact h.elim

omit [DecidableEq τ] [BEq T] in
theorem Failed.not_onTrack {l : Local T} (hf : Failed l) : ¬ OnTrack s l := by
  obtain ⟨op, pc⟩ := l
  intro h
  cases pc with
  | unlockCurrent p c exit => cases exit <;> contradiction
  | unlockPredecessor p exit => cases exit <;> contradiction
  | fault => exact h
  | _ => exact hf

theorem tracked [EquivBEq T] (H : Hash L T) (me : τ) : Tracked (implementation τ H) me OnTrack where
  start := fun _ _ => trivial
  own := fun _ _ _ _ _ hs hl h hstep => onTrack_step hs hl h hstep
  others := fun _ _ _ h hs => onTrack_congr h hs

end LazySet

/-- **Validation fails only because of real interference**, in the optimistic and in the lazy set. -/
theorem validation_fails_only_if_relinked [BEq T] [EquivBEq T] {L : Lang} (H : Hash L T) :
    FailsOnlyIfRelinked (OptimisticSet.implementation τ H) (fun l => l.pc = .walk .start) OptimisticSet.Failed ∧
      FailsOnlyIfRelinked (LazySet.implementation τ H) (fun l => l.pc = .walk .start) LazySet.Failed := by
  constructor
  · refine Tracked.failsOnlyIfRelinked (OptimisticSet.tracked H) ?_ fun s l => OptimisticSet.Failed.not_onTrack
    rintro s ⟨op, _⟩ rfl
    trivial
  · refine Tracked.failsOnlyIfRelinked (LazySet.tracked H) ?_ fun s l => LazySet.Failed.not_onTrack
    rintro s ⟨op, _⟩ rfl
    trivial


/-- While one thread walks the empty list, another adds an element to it. -/
theorem validation_fails_only_if_relinked_by_add :
    let I := OptimisticSet.implementation ℕ (residueHash .cpp)
    let s : Implementation.State ℕ (Store ℕ ℕ) (OptimisticSet.Local ℕ) :=
      ⟨I.store, Function.update (fun _ => none) 0 (some (I.start (.contains 3)))⟩
    let as : List (Implementation.Action ℕ (SetOp ℕ) Bool) :=
      List.replicate 2 (.run 0 true) ++ .call 1 (.add 3) :: List.replicate 13 (.run 1 true) ++
        List.replicate 7 (.run 0 true)
    (∃ es s' l', I.machine.exec s as = some (es, s') ∧ s'.pc 0 = some l' ∧ OptimisticSet.Failed l') ∧
      I.machine.Meets (Relinks 0) s as := by
  intro I s as
  have hexec : ∃ es s', I.machine.exec s as = some (es, s') ∧
      s'.pc 0 = some ⟨.contains 3, .unlockCurrent head tail none⟩ := ⟨_, _, rfl, rfl⟩
  obtain ⟨es, s', hexec, hpc⟩ := hexec
  have hs : I.system.Reachable s := ⟨_, .single ⟨.call 0 (.contains 3), rfl⟩⟩
  refine ⟨⟨es, s', _, hexec, hpc, trivial⟩, ?_⟩
  exact (validation_fails_only_if_relinked (residueHash .cpp)).1 0 s as es s' _ _ hs rfl rfl hexec hpc trivial

end ParSweet.Sets
