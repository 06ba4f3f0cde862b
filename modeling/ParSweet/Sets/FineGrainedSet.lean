import ParSweet.Concurrent.Termination
import ParSweet.Sets.Alone

/-! `FineGrainedSet`: hand-over-hand locking. The walk holds the mutexes of the pair
it stands on, and locks the next node before (C++) or after (Java) it lets go of the
node it leaves behind. -/
namespace ParSweet.Sets.FineGrainedSet
open Concurrent

/-- The variables of `find`. `predecessorLock` and `currentLock` are the nodes whose
mutexes the two `unique_lock`s own; Java has no such variables and unlocks the nodes
themselves. -/
structure Frame where
  predecessor : NodeId
  current : NodeId
  predecessorLock : NodeId
  currentLock : NodeId

/-- Where a call stands in `find`. -/
inductive Pc (T : Type*) where
  /-- `head->mutex` -/
  | lockHead
  /-- `predecessor->next` -/
  | loadFirst
  /-- The mutex of the node just loaded. -/
  | lockFirst (current : NodeId)
  /-- `current = predecessor->next`, loaded once more in C++. -/
  | readFirst (locked : NodeId)
  /-- The loop condition; it loads `current->next`. -/
  | test (f : Frame)
  /-- `predecessor.unlock()`, in Java. -/
  | unlockPassed (f : Frame)
  /-- `predecessor = current; current = current->next`, and in C++ the swap of the
  two locks. -/
  | advance (f : Frame)
  /-- `current->mutex` -/
  | lockNext (f : Frame)
  /-- The assignment to `currentLock`, which releases the mutex it owned. -/
  | assign (f : Frame)
  | callback (f : Frame) (cb : Callback T)
  | unlockCurrent (f : Frame) (r : SetRes T)
  | unlockPredecessor (f : Frame) (r : SetRes T)
  | returned (r : SetRes T)
  /-- A null pointer has been dereferenced. -/
  | fault

/-- The local state of a call. -/
structure Local (T : Type*) where
  op : SetOp T
  pc : Pc T

variable {τ T : Type*} [BEq T] {L : Lang}

/-- One atomic step of `find`. -/
def step (H : Hash L T) (me : τ) (s : Store τ T) (l : Local T) (_ : Unit) :
    Option (Store τ T × Local T) :=
  let goto (s : Store τ T) (pc : Pc T) : Option (Store τ T × Local T) := some (s, {l with pc := pc})
  match l.pc with
  | .lockHead =>
    match s.tryAcquire me head with
    | some s' => goto s' .loadFirst
    | none => none
  | .loadFirst =>
    match (s.node head).next with
    | some current => goto s (.lockFirst current)
    | none => goto s .fault
  | .lockFirst current =>
    match s.tryAcquire me current, L with
    | some s', .cpp => goto s' (.readFirst current)
    | some s', .java => goto s' (.test ⟨head, current, head, current⟩)
    | none, _ => none
  | .readFirst locked =>
    match (s.node head).next with
    | some current => goto s (.test ⟨head, current, head, locked⟩)
    | none => goto s .fault
  | .test f =>
    if (s.node f.current).next.isSome && keepWalking H l.op.element (s.node f.current) then
      match L with
      | .cpp => goto s (.advance f)
      | .java => goto s (.unlockPassed f)
    else goto s (.callback f .enter)
  | .unlockPassed f => goto (s.release f.predecessor) (.advance f)
  | .advance f =>
    match (s.node f.current).next, L with
    | some next, .cpp => goto s (.lockNext ⟨f.current, next, f.currentLock, f.predecessorLock⟩)
    | some next, .java => goto s (.lockNext ⟨f.current, next, f.current, next⟩)
    | none, _ => goto s .fault
  | .lockNext f =>
    match s.tryAcquire me f.current, L with
    | some s', .cpp => goto s' (.assign f)
    | some s', .java => goto s' (.test f)
    | none, _ => none
  | .assign f => goto (s.release f.currentLock) (.test {f with currentLock := f.current})
  | .callback f cb =>
    match cb.step H false s l.op f.predecessor f.current with
    | (s', .inl cb') => goto s' (.callback f cb')
    | (s', .inr r) => goto s' (.unlockCurrent f r)
  | .unlockCurrent f r => goto (s.release f.currentLock) (.unlockPredecessor f r)
  | .unlockPredecessor f r => goto (s.release f.predecessorLock) (.returned r)
  | .returned _ => none
  | .fault => none

/-- The set as an object: any thread may call any operation at any time. -/
def implementation (τ : Type*) (H : Hash L T) :
    Implementation τ (SetOp T) (SetRes T) (Store τ T) (Local T) Unit where
  store := .initial L
  start := fun op => ⟨op, .lockHead⟩
  step := step H
  result := fun l =>
    match l.pc with
    | .returned r => some r
    | _ => none

/-! ### The outline -/

variable {H : Hash L T} {s s' : Store τ T} {me u : τ} {op : SetOp T} {t : T} {f : Frame}

/-- What a step of a callback leads to. -/
theorem step_callback {f : Frame} {cb : Callback T} {l' : Local T}
    (hstep : step H me s ⟨op, .callback f cb⟩ () = some (s', l')) :
    (∃ cb', cb.step H false s op f.predecessor f.current = (s', .inl cb') ∧ l' = ⟨op, .callback f cb'⟩) ∨
      ∃ r, cb.step H false s op f.predecessor f.current = (s', .inr r) ∧ l' = ⟨op, .unlockCurrent f r⟩ := by
  rcases hcs : cb.step H false s op f.predecessor f.current with ⟨s₁, cb' | r⟩
  all_goals
    simp only [step, hcs, Option.some.injEq, Prod.mk.injEq] at hstep
    obtain ⟨rfl, rfl⟩ := hstep
  · exact .inl ⟨cb', rfl, rfl⟩
  · exact .inr ⟨r, rfl, rfl⟩

/-- The two locks own the mutexes of the pair. -/
def Frame.Aligned (f : Frame) : Prop := f.predecessorLock = f.predecessor ∧ f.currentLock = f.current

/-- The walk stands on a pair of the list and holds both its mutexes. -/
structure Standing (H : Hash L T) (s : Store τ T) (me : τ) (t : T) (f : Frame) : Prop where
  pos : Position H s t f.predecessor f.current
  sec : Secured s me f.predecessor f.current
  aligned : f.Aligned

/-- The walk is about to leave `predecessor` behind. In Java it has let go of it. -/
structure Leaving (H : Hash L T) (s : Store τ T) (me : τ) (t : T) (f : Frame) : Prop where
  pos : Position H s t f.predecessor f.current
  live : s.Live f.current
  curr_held : s.mutex f.current = some me
  not_tail : f.current ≠ tail
  keep : keepWalking H t (s.node f.current) = true
  pred_held : L = .cpp → s.mutex f.predecessor = some me ∧ f.Aligned

/-- The walk has moved on to a pair of which it holds the first mutex. In C++
`currentLock` still owns the mutex of the node left behind. -/
structure Entering (H : Hash L T) (s : Store τ T) (me : τ) (t : T) (f : Frame) : Prop where
  pos : Position H s t f.predecessor f.current
  live : s.Live f.predecessor
  pred_held : s.mutex f.predecessor = some me
  adjacent : s.next f.predecessor = some f.current
  pred_lock : f.predecessorLock = f.predecessor
  passed : L = .cpp → s.mutex f.currentLock = some me ∧ f.currentLock ≠ f.predecessor ∧
    f.currentLock ≠ f.current
  curr_lock : L = .java → f.currentLock = f.current

/-- What a call knows before its operation has taken effect. -/
def PendingAt (H : Hash L T) (s : Store τ T) (me : τ) (op : SetOp T) : Pc T → Prop
  | .lockHead => True
  | .loadFirst => s.mutex head = some me
  | .lockFirst c => s.mutex head = some me ∧ s.next head = some c
  | .readFirst c => s.mutex head = some me ∧ s.mutex c = some me ∧ s.next head = some c
  | .test f => Standing H s me op.element f
  | .unlockPassed f => Standing H s me op.element f ∧ L = .java ∧ f.current ≠ tail ∧
      keepWalking H op.element (s.node f.current) = true
  | .advance f => Leaving H s me op.element f
  | .lockNext f => Entering H s me op.element f
  | .assign f => Entering H s me op.element f ∧ L = .cpp ∧ s.mutex f.current = some me
  | .callback f cb => Ready H s me op.element f.predecessor f.current ∧ f.Aligned ∧
      CallbackAt H false s op f.current cb
  | _ => False

/-- What a call knows once its operation has taken effect with answer `r`. -/
def DoneAt (s : Store τ T) (me : τ) (r : SetRes T) : Pc T → Prop
  | .unlockCurrent f r' => r' = r ∧ f.Aligned ∧ Locked s me f.predecessor f.current
  | .unlockPredecessor f r' => r' = r ∧ s.mutex f.predecessorLock = some me
  | .returned r' => r' = r
  | _ => False

section Stable
variable [EquivBEq T] (hinv : ListInv H false s) (hne : me ≠ u) (he : Effect H false u s s')
include hinv hne he

theorem Standing.stable (h : Standing H s me t f) : Standing H s' me t f :=
  ⟨h.pos.stable hinv he, h.sec.stable hinv hne he, h.aligned⟩

theorem Leaving.stable (h : Leaving H s me t f) : Leaving H s' me t f where
  pos := h.pos.stable hinv he
  live := he.live hinv hne h.curr_held h.live
  curr_held := he.mutex hne h.curr_held
  not_tail := h.not_tail
  keep := by rw [he.keepWalking_eq h.pos.curr_lt]; exact h.keep
  pred_held := fun hL => ⟨he.mutex hne (h.pred_held hL).1, (h.pred_held hL).2⟩

theorem Entering.stable (h : Entering H s me t f) : Entering H s' me t f where
  pos := h.pos.stable hinv he
  live := he.live hinv hne h.pred_held h.live
  pred_held := he.mutex hne h.pred_held
  adjacent := by rw [he.next_eq hne h.pred_held h.pos.pred_lt]; exact h.adjacent
  pred_lock := h.pred_lock
  passed := fun hL => ⟨he.mutex hne (h.passed hL).1, (h.passed hL).2⟩
  curr_lock := h.curr_lock

theorem pending_stable {pc : Pc T} (h : PendingAt H s me op pc) : PendingAt H s' me op pc := by
  cases pc with
  | lockHead => trivial
  | loadFirst => exact he.mutex hne h
  | lockFirst c =>
    exact ⟨he.mutex hne h.1, by rw [he.next_eq hne h.1 hinv.bounded.head_lt]; exact h.2⟩
  | readFirst c =>
    exact ⟨he.mutex hne h.1, he.mutex hne h.2.1,
      by rw [he.next_eq hne h.1 hinv.bounded.head_lt]; exact h.2.2⟩
  | test f => exact Standing.stable hinv hne he h
  | unlockPassed f =>
    obtain ⟨hst, hL, hct, hk⟩ := h
    exact ⟨hst.stable hinv hne he, hL, hct, by rw [he.keepWalking_eq hst.pos.curr_lt]; exact hk⟩
  | advance f => exact Leaving.stable hinv hne he h
  | lockNext f => exact Entering.stable hinv hne he h
  | assign f => exact ⟨h.1.stable hinv hne he, h.2.1, he.mutex hne h.2.2⟩
  | callback f cb => exact ⟨h.1.stable hinv hne he, h.2.1, h.2.2.stable h.1 hne he⟩
  | _ => exact h.elim

end Stable

theorem done_stable {r : SetRes T} {pc : Pc T} (h : DoneAt s me r pc) (hne : me ≠ u)
    (he : Effect H false u s s') : DoneAt s' me r pc := by
  cases pc with
  | unlockCurrent f r' => exact ⟨h.1, h.2.1, h.2.2.stable hne he⟩
  | unlockPredecessor f r' => exact ⟨h.1, he.mutex hne h.2⟩
  | _ => exact h

/-! ### The steps -/

/-- One step of a call whose operation has not taken effect. -/
theorem pending_step [EquivBEq T] {pc : Pc T} {l' : Local T} (hinv : ListInv H false s)
    (h : PendingAt H s me op pc) (hstep : step H me s ⟨op, pc⟩ () = some (s', l')) :
    Effect H false me s s' ∧ l'.op = op ∧
      ((s'.elements = s.elements ∧ PendingAt H s' me op l'.pc) ∨
        ∃ r, SetApply op s.elements r s'.elements ∧ DoneAt s' me r l'.pc) := by
  cases pc with
  | lockHead =>
    cases ha : s.tryAcquire me head with
    | none => simp [step, ha] at hstep
    | some s₁ =>
      simp only [step, ha, Option.some.injEq, Prod.mk.injEq] at hstep
      obtain ⟨rfl, rfl⟩ := hstep
      exact ⟨.acquire ha, rfl, .inl ⟨(Store.congr_node (Store.tryAcquire_node ha)).2.2.2,
        Store.tryAcquire_held ha⟩⟩
  | loadFirst =>
    obtain ⟨c, hc⟩ := hinv.exists_next hinv.bounded.head_lt (by decide)
    simp only [step, show (s.node head).next = some c from hc, Option.some.injEq,
      Prod.mk.injEq] at hstep
    obtain ⟨rfl, rfl⟩ := hstep
    exact ⟨.same, rfl, .inl ⟨rfl, h, hc⟩⟩
  | lockFirst c =>
    obtain ⟨hheld, hc⟩ := h
    cases ha : s.tryAcquire me c with
    | none => simp [step, ha] at hstep
    | some s₁ =>
      have he : Effect H false me s s₁ := .acquire ha
      obtain ⟨hnext, _, _, hel⟩ := Store.congr_node (Store.tryAcquire_node ha)
      have hheld' := Store.tryAcquire_keeps ha hheld
      have hc' : s₁.next head = some c := by rw [hnext]; exact hc
      cases L
      all_goals
        simp only [step, ha, Option.some.injEq, Prod.mk.injEq] at hstep
        obtain ⟨rfl, rfl⟩ := hstep
      · exact ⟨he, rfl, .inl ⟨hel, hheld', Store.tryAcquire_held ha, hc'⟩⟩
      · exact ⟨he, rfl, .inl ⟨hel, .start (he.listInv hinv) hc',
          ⟨hheld', Store.tryAcquire_held ha, .refl, hc'⟩, rfl, rfl⟩⟩
  | readFirst c =>
    obtain ⟨hheld, hheld', hc⟩ := h
    simp only [step, show (s.node head).next = some c from hc, Option.some.injEq,
      Prod.mk.injEq] at hstep
    obtain ⟨rfl, rfl⟩ := hstep
    exact ⟨.same, rfl, .inl ⟨rfl, .start hinv hc, ⟨hheld, hheld', .refl, hc⟩, rfl, rfl⟩⟩
  | test f =>
    have hst : Standing H s me op.element f := h
    by_cases hk : ((s.node f.current).next.isSome && keepWalking H op.element (s.node f.current)) = true
    · obtain ⟨hsome, hk'⟩ := Bool.and_eq_true_iff.mp hk
      obtain ⟨d, hd⟩ := Option.isSome_iff_exists.mp hsome
      cases L
      all_goals
        simp only [step, if_pos hk, Option.some.injEq, Prod.mk.injEq] at hstep
        obtain ⟨rfl, rfl⟩ := hstep
      · exact ⟨.same, rfl, .inl ⟨rfl, hst.pos, hst.sec.live.tail hst.sec.adjacent, hst.sec.curr_held,
          hinv.ne_tail hd, hk', fun _ => ⟨hst.sec.pred_held, hst.aligned⟩⟩⟩
      · exact ⟨.same, rfl, .inl ⟨rfl, hst, rfl, hinv.ne_tail hd, hk'⟩⟩
    · simp only [step, if_neg hk, Option.some.injEq, Prod.mk.injEq] at hstep
      obtain ⟨rfl, rfl⟩ := hstep
      exact ⟨.same, rfl, .inl ⟨rfl, ⟨hst.pos, hst.sec,
        hinv.stopped hst.pos.curr_lt (Bool.of_not_eq_true hk)⟩, hst.aligned, trivial⟩⟩
  | unlockPassed f =>
    obtain ⟨hst, rfl, hct, hk⟩ := h
    simp only [step, Option.some.injEq, Prod.mk.injEq] at hstep
    obtain ⟨rfl, rfl⟩ := hstep
    have he : Effect H false me s (s.release f.predecessor) := .release hst.sec.pred_held
    exact ⟨he, rfl, .inl ⟨Store.release_elements, hst.pos.stable hinv he,
      hst.sec.live.tail hst.sec.adjacent, Store.release_other hst.pos.order.ne.symm hst.sec.curr_held,
      hct, hk, nofun⟩⟩
  | advance f =>
    have hl : Leaving H s me op.element f := h
    obtain ⟨d, hd⟩ := hinv.exists_next hl.pos.curr_lt hl.not_tail
    have pos := hl.pos.advance hinv hl.keep hd
    cases L
    all_goals
      simp only [step, show (s.node f.current).next = some d from hd, Option.some.injEq,
        Prod.mk.injEq] at hstep
      obtain ⟨rfl, rfl⟩ := hstep
    · obtain ⟨hheld, hp, hc⟩ := hl.pred_held rfl
      refine ⟨.same, rfl, .inl ⟨rfl, pos, hl.live, hl.curr_held, hd, hc, fun _ => ?_, nofun⟩⟩
      rw [hp]
      exact ⟨hheld, hl.pos.order.ne, (hl.pos.order.trans pos.order).ne⟩
    · exact ⟨.same, rfl, .inl ⟨rfl, pos, hl.live, hl.curr_held, hd, rfl, nofun, fun _ => rfl⟩⟩
  | lockNext f =>
    have hen : Entering H s me op.element f := h
    cases ha : s.tryAcquire me f.current with
    | none => simp [step, ha] at hstep
    | some s₁ =>
      have he : Effect H false me s s₁ := .acquire ha
      obtain ⟨hnext, hlive, _, hel⟩ := Store.congr_node (Store.tryAcquire_node ha)
      have hcurr := Store.tryAcquire_held ha
      have hpred := Store.tryAcquire_keeps ha hen.pred_held
      have hlive' : s₁.Live f.predecessor := by rw [hlive]; exact hen.live
      have hadj : s₁.next f.predecessor = some f.current := by rw [hnext]; exact hen.adjacent
      have pos := hen.pos.stable hinv he
      cases L
      all_goals
        simp only [step, ha, Option.some.injEq, Prod.mk.injEq] at hstep
        obtain ⟨rfl, rfl⟩ := hstep
      · exact ⟨he, rfl, .inl ⟨hel, ⟨pos, hlive', hpred, hadj, hen.pred_lock,
          fun h => ⟨Store.tryAcquire_keeps ha (hen.passed h).1, (hen.passed h).2⟩, nofun⟩, rfl, hcurr⟩⟩
      · exact ⟨he, rfl, .inl ⟨hel, pos, ⟨hpred, hcurr, hlive', hadj⟩, hen.pred_lock,
          hen.curr_lock rfl⟩⟩
  | assign f =>
    obtain ⟨hen, rfl, hcurr⟩ := h
    obtain ⟨hold, hnp, hnc⟩ := hen.passed rfl
    simp only [step, Option.some.injEq, Prod.mk.injEq] at hstep
    obtain ⟨rfl, rfl⟩ := hstep
    have he : Effect H false me s (s.release f.currentLock) := .release hold
    exact ⟨he, rfl, .inl ⟨Store.release_elements, hen.pos.stable hinv he,
      ⟨Store.release_other hnp.symm hen.pred_held, Store.release_other hnc.symm hcurr, hen.live,
        hen.adjacent⟩, hen.pred_lock, rfl⟩⟩
  | callback f cb =>
    obtain ⟨hr, hal, hcb⟩ := h
    rcases step_callback hstep with ⟨cb', hcs, rfl⟩ | ⟨r, hcs, rfl⟩
    · obtain ⟨he, hel, hr', hcb'⟩ := callback_step hinv hr hcb hcs
      exact ⟨he, rfl, .inl ⟨hel, hr', hal, hcb'⟩⟩
    · obtain ⟨he, hap, hlock⟩ := callback_step hinv hr hcb hcs
      exact ⟨he, rfl, .inr ⟨r, hap, rfl, hal, hlock⟩⟩
  | _ => exact h.elim

/-- One step of a call whose operation has taken effect. -/
theorem done_step {pc : Pc T} {r : SetRes T} {l' : Local T}
    (h : DoneAt s me r pc) (hstep : step H me s ⟨op, pc⟩ () = some (s', l')) :
    Effect H false me s s' ∧ s'.elements = s.elements ∧ DoneAt s' me r l'.pc := by
  cases pc with
  | unlockCurrent f r' =>
    obtain ⟨rfl, hal, hlock⟩ := h
    simp only [step, Option.some.injEq, Prod.mk.injEq] at hstep
    obtain ⟨rfl, rfl⟩ := hstep
    obtain ⟨he, hel, hheld⟩ := hlock.unlockCurrent
    rw [← hal.1] at hheld
    rw [hal.2]
    exact ⟨he, hel, rfl, hheld⟩
  | unlockPredecessor f r' =>
    obtain ⟨rfl, hheld⟩ := h
    simp only [step, Option.some.injEq, Prod.mk.injEq] at hstep
    obtain ⟨rfl, rfl⟩ := hstep
    exact ⟨.release hheld, Store.release_elements, rfl⟩
  | returned r' => simp [step] at hstep
  | _ => exact h.elim

/-- The proof outline of the fine-grained set. -/
def outline [EquivBEq T] (τ : Type*) (H : Hash L T) : Outline (implementation τ H) (setSpec (T := T)) where
  Inv := fun s A => ListInv H false s ∧ A = s.elements
  Guarantee := Effect H false
  Pending := fun me op s l => l.op = op ∧ PendingAt H s me op l.pc
  Done := fun me r s l => DoneAt s me r l.pc
  initial := ⟨initial_listInv H false, initial_elements.symm⟩
  start := fun _ _ _ _ _ => ⟨rfl, trivial⟩
  pending_step := by
    rintro me op s A ⟨_, pc⟩ c s' l' ⟨hinv, rfl⟩ ⟨rfl, h⟩ hstep
    obtain ⟨he, hop, ⟨hel, h'⟩ | ⟨r, hap, hd⟩⟩ := pending_step hinv h hstep
    · exact ⟨he, .inl ⟨⟨he.listInv hinv, hel.symm⟩, hop, h'⟩⟩
    · exact ⟨he, .inr ⟨r, _, hap, ⟨he.listInv hinv, rfl⟩, hd⟩⟩
  done_step := by
    rintro me r s A ⟨op, pc⟩ c s' l' ⟨hinv, rfl⟩ h hstep
    obtain ⟨he, hel, h'⟩ := done_step h hstep
    exact ⟨he, ⟨he.listInv hinv, hel.symm⟩, h'⟩
  pending_result := by
    rintro me op s ⟨_, pc⟩ ⟨rfl, h⟩
    cases pc with
    | returned r => exact h.elim
    | _ => rfl
  done_result := by
    rintro me r r' s ⟨op, pc⟩ h hr
    cases pc with
    | returned r₁ => exact (Option.some.inj hr).symm.trans h
    | _ => cases hr
  pending_stable := fun me u op s A s' l hne hinv he h =>
    ⟨h.1, pending_stable hinv.1 hne he h.2⟩
  done_stable := fun me u r s A s' l hne _ he h => done_stable h hne he

/-- What is known of every call in every reachable state. -/
theorem call_known [EquivBEq T] [DecidableEq τ] (H : Hash L T)
    {s : Implementation.State τ (Store τ T) (Local T)}
    (h : (implementation τ H).system.Reachable s) {t : τ} {l : Local T} (hl : s.pc t = some l) :
    ListInv H false s.store ∧ (PendingAt H s.store t l.op l.pc ∨ ∃ r, DoneAt s.store t r l.pc) := by
  obtain ⟨_, ⟨hinv, _⟩, hthread⟩ := (outline τ H).reachable h
  refine ⟨hinv, ?_⟩
  rcases hthread t l hl with ⟨op, rfl, hp⟩ | ⟨r, hd⟩
  · exact .inl hp
  · exact .inr ⟨r, hd⟩

theorem avoids_fault [EquivBEq T] (H : Hash L T) : (outline τ H).Avoids fun l => l.pc = .fault where
  pending := fun t op s l hp hf => by
    obtain ⟨_, hp⟩ := hp
    rw [hf] at hp
    exact hp
  done := fun t r s l hd hf => by
    have hd : DoneAt s t r l.pc := hd
    rw [hf] at hd
    exact hd

/-- No call ever dereferences a null pointer. -/
theorem never_faults [EquivBEq T] [DecidableEq τ] (H : Hash L T)
    {s : Implementation.State τ (Store τ T) (Local T)}
    (h : (implementation τ H).system.Reachable s) {t : τ} {l : Local T} (hl : s.pc t = some l) :
    l.pc ≠ .fault :=
  (avoids_fault H).never h hl

/-- Wherever a callback runs, it may trust the pair it has been given. -/
theorem callback_ready [EquivBEq T] [DecidableEq τ] (H : Hash L T)
    {s : Implementation.State τ (Store τ T) (Local T)}
    (h : (implementation τ H).system.Reachable s) {t : τ} {l : Local T} (hl : s.pc t = some l)
    {cb : Callback T} (hcb : l.pc = .callback f cb) :
    Ready H s.store t l.op.element f.predecessor f.current := by
  rcases (call_known H h hl).2 with hp | ⟨r, hd⟩
  · rw [hcb] at hp
    exact hp.1
  · rw [hcb] at hd
    exact hd.elim

/-! ### A call alone -/

/-- The callback, as part of the call. -/
theorem alone_callback {x y : Store τ T × Callback T}
    (h : Relation.ReflTransGen (Callback.Moves H false op f.predecessor f.current) x y) :
    (implementation τ H).Alone me (x.1, ⟨op, .callback f x.2⟩) (y.1, ⟨op, .callback f y.2⟩) := by
  refine Implementation.Alone.lift (fun x : Store τ T × Callback T =>
    (x.1, (⟨op, .callback f x.2⟩ : Local T))) (fun x y hx => ?_) h
  rw [Callback.Moves] at hx
  exact ⟨(), by simp [implementation, step, hx]⟩

/-- A call whose walk has stopped at a pair of the list returns. -/
theorem returns_callback [EquivBEq T] {p c : NodeId} (hinv : ListInv H false s) (hq : Quiet s) (me : τ)
    (pos : Position H s op.element p c) (hs : Stopped H s op.element c) (hl : s.Live p)
    (hn : s.next p = some c) :
    (implementation τ H).Returns me Quiet (s.lockPair me p c) ⟨op, .callback ⟨p, c, p, c⟩ .enter⟩ := by
  obtain ⟨s₂, cb₂, s₃, r, hcb, hend, hm, hclean⟩ :=
    callback_alone (hq.lockPair_inv hinv pos.order.ne).1 (hq.lockPair_ready hinv pos hs hl hn)
      (show CallbackAt H false _ op c .enter from trivial) hq.marked_lockPair
  refine ⟨(s₃.release c).release p, ⟨op, .returned r⟩, r, ?_, rfl, hq.unlockPair hm hclean⟩
  have h : (implementation τ H).Alone me _ (s₂, ⟨op, .callback ⟨p, c, p, c⟩ cb₂⟩) :=
    alone_callback (f := ⟨p, c, p, c⟩) hcb
  exact ((h.step () (s₃, ⟨op, .unlockCurrent ⟨p, c, p, c⟩ r⟩) (by simp [implementation, step, hend])).step ()
    (s₃.release c, ⟨op, .unlockPredecessor ⟨p, c, p, c⟩ r⟩) rfl).step () _ rfl

omit [BEq T] in
/-- Hand over hand: the next node's mutex is free, and once the one left behind is
unlocked, in whichever order, the walk holds those of the next pair. -/
theorem lockPair_next (hq : Quiet s) (me : τ) {p c d : NodeId} (hpc : p ≠ c) (hpd : p ≠ d) (hcd : c ≠ d) :
    (∃ s₁, (s.lockPair me p c).tryAcquire me d = some s₁ ∧ s₁.release p = s.lockPair me c d) ∧
      ((s.lockPair me p c).release p).tryAcquire me d = some (s.lockPair me c d) := by
  have hd : (s.lockPair me p c).mutex d = none := by
    simp [Store.lockPair, hpd.symm, hcd.symm, hq.free d]
  have hd' : ((s.lockPair me p c).release p).mutex d = none := by
    simp [Store.release, hpd.symm, hd]
  have heq : Function.update (Function.update (s.lockPair me p c).mutex d (some me)) p none =
      (s.lockPair me c d).mutex := by
    funext n
    by_cases hnp : n = p
    · subst hnp
      simp [Store.lockPair, hpc, hpd, hq.free n]
    · simp [Store.lockPair, Function.update_apply, hnp]
  refine ⟨⟨_, Store.tryAcquire_eq_some.mpr ⟨hd, rfl⟩, ?_⟩, Store.tryAcquire_eq_some.mpr ⟨hd', ?_⟩⟩
  · exact congrArg (fun m => ({s with mutex := m} : Store τ T)) heq
  · rw [Function.update_comm hpd.symm] at heq
    exact congrArg (fun m => ({s with mutex := m} : Store τ T)) heq.symm

/-- A call on its way along the list returns. -/
theorem returns_test [EquivBEq T] (hinv : ListInv H false s) (hq : Quiet s) (me : τ) (op : SetOp T) {c : NodeId}
    (hr : Links.Reaches s.next c tail) : ∀ p, Position H s op.element p c → s.Live p → s.next p = some c →
      (implementation τ H).Returns me Quiet (s.lockPair me p c) ⟨op, .test ⟨p, c, p, c⟩⟩ := by
  -- The way from the current node to the tail gets shorter.
  induction hr using Relation.ReflTransGen.head_induction_on with
  | refl =>
    intro p pos hl hn
    have hnone : (s.node tail).next = none := (hinv.next_none tail (hinv.live_lt hinv.tail_live)).mpr rfl
    exact .step () (s.lockPair me p tail, ⟨op, .callback ⟨p, tail, p, tail⟩ .enter⟩)
      (by simp [implementation, step, Store.lockPair, hnone]) (returns_callback hinv hq me pos (.inl rfl) hl hn)
  | @head c d hd _ ih =>
    intro p pos hl hn
    have hd' : (s.node c).next = some d := hd
    by_cases hk : keepWalking H op.element (s.node c) = true
    · have pos' := pos.advance hinv hk hd
      have hrec := ih c pos' (hl.tail hn) hd
      have hpd : p ≠ d := (pos.order.trans pos'.order).ne
      obtain ⟨⟨s₁, hs₁, hs₁'⟩, hs₂⟩ := lockPair_next hq me pos.order.ne hpd pos'.order.ne
      cases L
      · exact .step () (s.lockPair me p c, ⟨op, .advance ⟨p, c, p, c⟩⟩)
          (by simp [implementation, step, Store.lockPair, hd', hk])
          (.step () (s.lockPair me p c, ⟨op, .lockNext ⟨c, d, c, p⟩⟩)
            (by simp [implementation, step, Store.lockPair, hd'])
            (.step () (s₁, ⟨op, .assign ⟨c, d, c, p⟩⟩) (by simp [implementation, step, hs₁])
              (.step () (s.lockPair me c d, ⟨op, .test ⟨c, d, c, d⟩⟩)
                (by simp [implementation, step, hs₁']) hrec)))
      · exact .step () (s.lockPair me p c, ⟨op, .unlockPassed ⟨p, c, p, c⟩⟩)
          (by simp [implementation, step, Store.lockPair, hd', hk])
          (.step () ((s.lockPair me p c).release p, ⟨op, .advance ⟨p, c, p, c⟩⟩) rfl
            (.step () ((s.lockPair me p c).release p, ⟨op, .lockNext ⟨c, d, c, d⟩⟩)
              (by simp [implementation, step, Store.release, Store.lockPair, hd'])
              (.step () (s.lockPair me c d, ⟨op, .test ⟨c, d, c, d⟩⟩)
                (by simp [implementation, step, hs₂]) hrec)))
    · exact .step () (s.lockPair me p c, ⟨op, .callback ⟨p, c, p, c⟩ .enter⟩)
        (by simp [implementation, step, Store.lockPair, hk])
        (returns_callback hinv hq me pos (.inr (Bool.of_not_eq_true hk)) hl hn)

/-- **A call that runs alone returns.** -/
theorem returns_alone [EquivBEq T] (hinv : ListInv H false s) (hq : Quiet s) (me : τ) (op : SetOp T) :
    (implementation τ H).Returns me Quiet s ⟨op, .lockHead⟩ := by
  obtain ⟨c, hc⟩ := hinv.exists_next hinv.bounded.head_lt (by decide)
  have hc' : (s.node head).next = some c := hc
  have hrest := returns_test hinv hq me op ((hinv.tail_live.of_next hc).resolve_left (by decide)) head
    (.start hinv hc) .refl hc
  have hch : c ≠ head := (hinv.sorted.ordered hc).ne.symm
  let s₁ : Store τ T := {s with mutex := Function.update s.mutex head (some me)}
  have hs₁ : s.tryAcquire me head = some s₁ := Store.tryAcquire_eq_some.mpr ⟨hq.free head, rfl⟩
  have hs₂ : s₁.tryAcquire me c = some (s.lockPair me head c) :=
    Store.tryAcquire_eq_some.mpr ⟨by simp [s₁, hch, hq.free c], rfl⟩
  refine .step () (s₁, ⟨op, .loadFirst⟩) (by simp [implementation, step, hs₁])
    (.step () (s₁, ⟨op, .lockFirst c⟩) (by simp [implementation, step, s₁, hc']) ?_)
  cases L
  · exact .step () (s.lockPair me head c, ⟨op, .readFirst c⟩) (by simp [implementation, step, hs₂])
      (.step () (s.lockPair me head c, ⟨op, .test ⟨head, c, head, c⟩⟩)
        (by simp [implementation, step, Store.lockPair, hc']) hrest)
  · exact .step () (s.lockPair me head c, ⟨op, .test ⟨head, c, head, c⟩⟩)
      (by simp [implementation, step, hs₂]) hrest

theorem answers_alone [EquivBEq T] (hinv : ListInv H false s) (hq : Quiet s) (me : τ) (op : SetOp T) :
    ∃ r s', (implementation τ H).Answers me s op r s' ∧ Quiet s' :=
  (returns_alone hinv hq me op).answers

/-- Nothing is left open. -/
theorem deterministic (H : Hash L T) (me : τ) : (implementation τ H).Deterministic me where
  step := fun _ _ _ _ => rfl
  stop := fun s l c r hr => by
    obtain ⟨op, pc⟩ := l
    cases pc with
    | returned r => rfl
    | _ => cases hr

/-- No step leads back to the head's mutex. -/
theorem step_passes {d : Store τ T × Local T} {l : Local T} (hstep : step H me s l () = some d) (op : SetOp T) :
    d.2 ≠ ⟨op, .lockHead⟩ := by
  obtain ⟨s', l'⟩ := d
  obtain ⟨_, pc⟩ := l
  rintro rfl
  cases pc <;> simp only [step] at hstep <;> grind

/-- **A call that runs alone comes to its end.** -/
theorem ends_alone [EquivBEq T] (hinv : ListInv H false s) (hq : Quiet s) (me : τ) (op : SetOp T) :
    (implementation τ H).Ends me ⟨op, .lockHead⟩ Quiet s ⟨op, .lockHead⟩ :=
  (deterministic H me).ends (fun _ _ _ _ h => step_passes h op) (returns_alone hinv hq me op)

/-- **The fine-grained set is linearizable**, whatever the hash function, and its
callbacks run on a locked and adjacent pair of the list whose current node decides
whether the element is in the set. -/
theorem fineGrainedSet_linearizable [EquivBEq T] [DecidableEq τ] (H : Hash .cpp T) :
    (implementation τ H).Linearizable setSpec ∧
      ∀ s, (implementation τ H).system.Reachable s → ∀ t l, s.pc t = some l →
        l.pc ≠ .fault ∧ ∀ f cb, l.pc = .callback f cb →
          s.store.mutex f.predecessor = some t ∧ s.store.mutex f.current = some t ∧
          s.store.Live f.predecessor ∧ s.store.Live f.current ∧
          s.store.next f.predecessor = some f.current ∧
          (Member l.op.element s.store.elements ↔
            (some l.op.element == (s.store.node f.current).value) = true) := by
  refine ⟨(outline τ H).linearizable, fun s hs t l hl => ⟨never_faults H hs hl, fun f cb hcb => ?_⟩⟩
  have hr := callback_ready H hs hl hcb
  exact ⟨hr.sec.pred_held, hr.sec.curr_held, hr.sec.live, hr.sec.live.tail hr.sec.adjacent,
    hr.sec.adjacent, hr.member_iff (call_known H hs hl).1⟩

theorem fineGrainedSet_linearizable_residue :
    (implementation ℕ (residueHash .cpp)).Linearizable setSpec ∧
      ∀ s, (implementation ℕ (residueHash .cpp)).system.Reachable s → ∀ t l, s.pc t = some l →
        l.pc ≠ .fault ∧ ∀ f cb, l.pc = .callback f cb →
          s.store.mutex f.predecessor = some t ∧ s.store.mutex f.current = some t ∧
          s.store.Live f.predecessor ∧ s.store.Live f.current ∧
          s.store.next f.predecessor = some f.current ∧
          (Member l.op.element s.store.elements ↔
            (some l.op.element == (s.store.node f.current).value) = true) :=
  fineGrainedSet_linearizable (residueHash .cpp)

end ParSweet.Sets.FineGrainedSet
