import ParSweet.Concurrent.Termination
import ParSweet.Sets.Alone

/-! `LazySet`: the walk holds no lock, and the pair it ends at is checked once both
mutexes are held: neither node is marked, and they are still adjacent. A removal
marks its node before it unlinks it. -/
namespace ParSweet.Sets.LazySet
open Concurrent

/-- Where a call stands in `find`. `exit` is the callback's answer, or nothing when
the check has failed and the outer loop starts over. -/
inductive Pc (T : Type*) where
  | walk (w : Walk)
  /-- `!predecessor->deleted` -/
  | checkPredecessor (predecessor current : NodeId)
  /-- `!current->deleted` -/
  | checkCurrent (predecessor current : NodeId)
  /-- `predecessor->next == current` -/
  | checkNext (predecessor current : NodeId)
  | callback (predecessor current : NodeId) (cb : Callback T)
  | unlockCurrent (predecessor current : NodeId) (exit : Option (SetRes T))
  | unlockPredecessor (predecessor : NodeId) (exit : Option (SetRes T))
  | returned (r : SetRes T)
  /-- A null pointer has been dereferenced. -/
  | fault

/-- The local state of a call. -/
structure Local (T : Type*) where
  op : SetOp T
  pc : Pc T

variable {τ T : Type*} [BEq T] {L : Lang}

/-- One atomic step of `find`; `choice` is for `std::lock`. -/
def step (H : Hash L T) (me : τ) (s : Store τ T) (l : Local T) (choice : Bool) :
    Option (Store τ T × Local T) :=
  let goto (s : Store τ T) (pc : Pc T) : Option (Store τ T × Local T) := some (s, {l with pc := pc})
  match l.pc with
  | .walk w =>
    match w.step H me s l.op.element choice with
    | some (s', .on w') => goto s' (.walk w')
    | some (s', .locked predecessor current) => goto s' (.checkPredecessor predecessor current)
    | some (s', .fault) => goto s' .fault
    | none => none
  | .checkPredecessor predecessor current =>
    if s.deleted predecessor then goto s (.unlockCurrent predecessor current none)
    else goto s (.checkCurrent predecessor current)
  | .checkCurrent predecessor current =>
    if s.deleted current then goto s (.unlockCurrent predecessor current none)
    else goto s (.checkNext predecessor current)
  | .checkNext predecessor current =>
    if (s.node predecessor).next = some current then goto s (.callback predecessor current .enter)
    else goto s (.unlockCurrent predecessor current none)
  | .callback predecessor current cb =>
    match cb.step H true s l.op predecessor current with
    | (s', .inl cb') => goto s' (.callback predecessor current cb')
    | (s', .inr r) => goto s' (.unlockCurrent predecessor current (some r))
  | .unlockCurrent predecessor current exit =>
    goto (s.release current) (.unlockPredecessor predecessor exit)
  | .unlockPredecessor predecessor exit =>
    match exit with
    | none => goto (s.release predecessor) (.walk .start)
    | some r => goto (s.release predecessor) (.returned r)
  | .returned _ => none
  | .fault => none

/-- The set as an object: any thread may call any operation at any time. -/
def implementation (τ : Type*) (H : Hash L T) :
    Implementation τ (SetOp T) (SetRes T) (Store τ T) (Local T) Bool where
  store := .initial L
  start := fun op => ⟨op, .walk .start⟩
  step := step H
  result := fun l =>
    match l.pc with
    | .returned r => some r
    | _ => none

/-! ### The outline -/

variable {H : Hash L T} {s s' : Store τ T} {me u : τ} {op : SetOp T}

/-- What a step of the walk leads to. -/
theorem step_walk {w : Walk} {l' : Local T} {choice : Bool} (hstep : step H me s ⟨op, .walk w⟩ choice = some (s', l')) :
    (∃ w', w.step H me s op.element choice = some (s', .on w') ∧ l' = ⟨op, .walk w'⟩) ∨
      (∃ p c, w.step H me s op.element choice = some (s', .locked p c) ∧ l' = ⟨op, .checkPredecessor p c⟩) ∨
      w.step H me s op.element choice = some (s', .fault) ∧ l' = ⟨op, .fault⟩ := by
  rcases hw : w.step H me s op.element choice with _ | ⟨s₁, w' | ⟨p, c⟩ | _⟩
  · simp [step, hw] at hstep
  all_goals
    simp only [step, hw, Option.some.injEq, Prod.mk.injEq] at hstep
    obtain ⟨rfl, rfl⟩ := hstep
  · exact .inl ⟨w', rfl, rfl⟩
  · exact .inr (.inl ⟨p, c, rfl, rfl⟩)
  · exact .inr (.inr ⟨rfl, rfl⟩)

/-- What a step of a callback leads to. -/
theorem step_callback {p c : NodeId} {cb : Callback T} {l' : Local T} {choice : Bool}
    (hstep : step H me s ⟨op, .callback p c cb⟩ choice = some (s', l')) :
    (∃ cb', cb.step H true s op p c = (s', .inl cb') ∧ l' = ⟨op, .callback p c cb'⟩) ∨
      ∃ r, cb.step H true s op p c = (s', .inr r) ∧ l' = ⟨op, .unlockCurrent p c (some r)⟩ := by
  rcases hcs : cb.step H true s op p c with ⟨s₁, cb' | r⟩
  all_goals
    simp only [step, hcs, Option.some.injEq, Prod.mk.injEq] at hstep
    obtain ⟨rfl, rfl⟩ := hstep
  · exact .inl ⟨cb', rfl, rfl⟩
  · exact .inr ⟨r, rfl, rfl⟩

/-- What a call knows before its operation has taken effect. -/
def PendingAt (H : Hash L T) (s : Store τ T) (me : τ) (op : SetOp T) : Pc T → Prop
  | .walk w => WalkAt H s me op.element w
  | .checkPredecessor p c => Position H s op.element p c ∧ Stopped H s op.element c ∧ Locked s me p c
  | .checkCurrent p c => Position H s op.element p c ∧ Stopped H s op.element c ∧ Locked s me p c ∧
      s.Live p
  | .checkNext p c => Position H s op.element p c ∧ Stopped H s op.element c ∧ Locked s me p c ∧
      s.Live p
  | .callback p c cb => Ready H s me op.element p c ∧ CallbackAt H true s op c cb
  | .unlockCurrent p c exit => exit = none ∧ Locked s me p c
  | .unlockPredecessor p exit => exit = none ∧ s.mutex p = some me
  | .returned _ => False
  | .fault => False

/-- What a call knows once its operation has taken effect with answer `r`. -/
def DoneAt (s : Store τ T) (me : τ) (r : SetRes T) : Pc T → Prop
  | .unlockCurrent p c exit => exit = some r ∧ Locked s me p c
  | .unlockPredecessor p exit => exit = some r ∧ s.mutex p = some me
  | .returned r' => r' = r
  | _ => False

theorem pending_stable [EquivBEq T] {pc : Pc T} (h : PendingAt H s me op pc) (hinv : ListInv H true s)
    (hne : me ≠ u) (he : Effect H true u s s') : PendingAt H s' me op pc := by
  cases pc with
  | walk w => exact WalkAt.stable h hinv hne he
  | checkPredecessor p c =>
    obtain ⟨pos, hs, hlock⟩ := h
    exact ⟨pos.stable hinv he, hs.stable pos.curr_lt he, hlock.stable hne he⟩
  | checkCurrent p c | checkNext p c =>
    obtain ⟨pos, hs, hlock, hl⟩ := h
    exact ⟨pos.stable hinv he, hs.stable pos.curr_lt he, hlock.stable hne he,
      he.live hinv hne hlock.pred_held hl⟩
  | callback p c cb => exact ⟨h.1.stable hinv hne he, h.2.stable h.1 hne he⟩
  | unlockCurrent p c exit => exact ⟨h.1, h.2.stable hne he⟩
  | unlockPredecessor p exit => exact ⟨h.1, he.mutex hne h.2⟩
  | returned r => exact h
  | fault => exact h

theorem done_stable {r : SetRes T} {pc : Pc T} (h : DoneAt s me r pc) (hne : me ≠ u)
    (he : Effect H true u s s') : DoneAt s' me r pc := by
  cases pc with
  | unlockCurrent p c exit => exact ⟨h.1, h.2.stable hne he⟩
  | unlockPredecessor p exit => exact ⟨h.1, he.mutex hne h.2⟩
  | _ => exact h

/-- One step of a call whose operation has not taken effect. -/
theorem pending_step [EquivBEq T] {pc : Pc T} {choice : Bool} {l' : Local T} (hinv : ListInv H true s)
    (h : PendingAt H s me op pc) (hstep : step H me s ⟨op, pc⟩ choice = some (s', l')) :
    Effect H true me s s' ∧ l'.op = op ∧
      ((s'.elements = s.elements ∧ PendingAt H s' me op l'.pc) ∨
        ∃ r, SetApply op s.elements r s'.elements ∧ DoneAt s' me r l'.pc) := by
  cases pc with
  | walk w =>
    rcases step_walk hstep with ⟨w', hw, rfl⟩ | ⟨p, c, hw, rfl⟩ | ⟨hw, rfl⟩
    all_goals
      obtain ⟨he, hel, hat⟩ := walk_step hinv h hw
    · exact ⟨he, rfl, .inl ⟨hel, hat⟩⟩
    · exact ⟨he, rfl, .inl ⟨hel, hat⟩⟩
    · exact hat.elim
  | checkPredecessor p c =>
    obtain ⟨pos, hs, hlock⟩ := h
    by_cases hd : s.deleted p = true
    · simp only [step, if_pos hd, Option.some.injEq, Prod.mk.injEq] at hstep
      obtain ⟨rfl, rfl⟩ := hstep
      exact ⟨.same, rfl, .inl ⟨rfl, rfl, hlock⟩⟩
    · simp only [step, if_neg hd, Option.some.injEq, Prod.mk.injEq] at hstep
      obtain ⟨rfl, rfl⟩ := hstep
      exact ⟨.same, rfl, .inl ⟨rfl, pos, hs, hlock,
        hinv.marked rfl p pos.pred_lt (Bool.of_not_eq_true hd)⟩⟩
  | checkCurrent p c =>
    obtain ⟨pos, hs, hlock, hl⟩ := h
    by_cases hd : s.deleted c = true
    · simp only [step, if_pos hd, Option.some.injEq, Prod.mk.injEq] at hstep
      obtain ⟨rfl, rfl⟩ := hstep
      exact ⟨.same, rfl, .inl ⟨rfl, rfl, hlock⟩⟩
    · simp only [step, if_neg hd, Option.some.injEq, Prod.mk.injEq] at hstep
      obtain ⟨rfl, rfl⟩ := hstep
      exact ⟨.same, rfl, .inl ⟨rfl, pos, hs, hlock, hl⟩⟩
  | checkNext p c =>
    obtain ⟨pos, hs, hlock, hl⟩ := h
    by_cases hn : (s.node p).next = some c
    · simp only [step, if_pos hn, Option.some.injEq, Prod.mk.injEq] at hstep
      obtain ⟨rfl, rfl⟩ := hstep
      exact ⟨.same, rfl, .inl ⟨rfl, ⟨pos, ⟨hlock.pred_held, hlock.curr_held, hl, hn⟩, hs⟩, trivial⟩⟩
    · simp only [step, if_neg hn, Option.some.injEq, Prod.mk.injEq] at hstep
      obtain ⟨rfl, rfl⟩ := hstep
      exact ⟨.same, rfl, .inl ⟨rfl, rfl, hlock⟩⟩
  | callback p c cb =>
    obtain ⟨hr, hcb⟩ := h
    rcases step_callback hstep with ⟨cb', hcs, rfl⟩ | ⟨r, hcs, rfl⟩
    · obtain ⟨he, hel, hr', hcb'⟩ := callback_step hinv hr hcb hcs
      exact ⟨he, rfl, .inl ⟨hel, hr', hcb'⟩⟩
    · obtain ⟨he, hap, hlock⟩ := callback_step hinv hr hcb hcs
      exact ⟨he, rfl, .inr ⟨r, hap, rfl, hlock⟩⟩
  | unlockCurrent p c exit =>
    obtain ⟨rfl, hlock⟩ := h
    simp only [step, Option.some.injEq, Prod.mk.injEq] at hstep
    obtain ⟨rfl, rfl⟩ := hstep
    obtain ⟨he, hel, hheld⟩ := hlock.unlockCurrent
    exact ⟨he, rfl, .inl ⟨hel, rfl, hheld⟩⟩
  | unlockPredecessor p exit =>
    obtain ⟨rfl, hheld⟩ := h
    simp only [step, Option.some.injEq, Prod.mk.injEq] at hstep
    obtain ⟨rfl, rfl⟩ := hstep
    exact ⟨.release hheld, rfl, .inl ⟨Store.release_elements, trivial⟩⟩
  | returned r => exact h.elim
  | fault => exact h.elim

/-- One step of a call whose operation has taken effect. -/
theorem done_step {pc : Pc T} {r : SetRes T} {choice : Bool} {l' : Local T}
    (h : DoneAt s me r pc) (hstep : step H me s ⟨op, pc⟩ choice = some (s', l')) :
    Effect H true me s s' ∧ s'.elements = s.elements ∧ DoneAt s' me r l'.pc := by
  cases pc with
  | unlockCurrent p c exit =>
    obtain ⟨rfl, hlock⟩ := h
    simp only [step, Option.some.injEq, Prod.mk.injEq] at hstep
    obtain ⟨rfl, rfl⟩ := hstep
    obtain ⟨he, hel, hheld⟩ := hlock.unlockCurrent
    exact ⟨he, hel, rfl, hheld⟩
  | unlockPredecessor p exit =>
    obtain ⟨rfl, hheld⟩ := h
    simp only [step, Option.some.injEq, Prod.mk.injEq] at hstep
    obtain ⟨rfl, rfl⟩ := hstep
    exact ⟨.release hheld, Store.release_elements, rfl⟩
  | returned r' => simp [step] at hstep
  | _ => exact h.elim

/-- The proof outline of the lazy set. -/
def outline [EquivBEq T] (τ : Type*) (H : Hash L T) : Outline (implementation τ H) (setSpec (T := T)) where
  Inv := fun s A => ListInv H true s ∧ A = s.elements
  Guarantee := Effect H true
  Pending := fun me op s l => l.op = op ∧ PendingAt H s me op l.pc
  Done := fun me r s l => DoneAt s me r l.pc
  initial := ⟨initial_listInv H true, initial_elements.symm⟩
  start := fun _ _ _ _ _ => ⟨rfl, trivial⟩
  pending_step := by
    rintro me op s A ⟨_, pc⟩ c s' l' ⟨hinv, rfl⟩ ⟨rfl, h⟩ hstep
    obtain ⟨he, hop, ⟨hel, h'⟩ | ⟨r, hap, hd⟩⟩ := pending_step hinv h hstep
    · exact ⟨he, .inl ⟨⟨he.listInv hinv, hel.symm⟩, hop, h'⟩⟩
    · exact ⟨he, .inr ⟨r, _, hap, ⟨he.listInv hinv, rfl⟩, hd⟩⟩
  done_step := by
    rintro me r s A ⟨op, pc⟩ c s' l' ⟨hinv, rfl⟩ h hstep
    obtain ⟨he, hel, h'⟩ := done_step h hstep
    exact ⟨he, ⟨he.listInv hinv, hel.symm⟩, h'⟩
  pending_result := by
    rintro me op s ⟨_, pc⟩ ⟨rfl, h⟩
    cases pc with
    | returned r => exact h.elim
    | _ => rfl
  done_result := by
    rintro me r r' s ⟨op, pc⟩ h hr
    cases pc with
    | returned r₁ => exact (Option.some.inj hr).symm.trans h
    | _ => cases hr
  pending_stable := fun me u op s A s' l hne hinv he h =>
    ⟨h.1, pending_stable h.2 hinv.1 hne he⟩
  done_stable := fun me u r s A s' l hne _ he h => done_stable h hne he

theorem avoids_fault [EquivBEq T] (H : Hash L T) : (outline τ H).Avoids fun l => l.pc = .fault where
  pending := fun t op s l hp hf => by
    obtain ⟨_, hp⟩ := hp
    rw [hf] at hp
    exact hp
  done := fun t r s l hd hf => by
    have hd : DoneAt s t r l.pc := hd
    rw [hf] at hd
    exact hd

/-- No call ever dereferences a null pointer. -/
theorem never_faults [EquivBEq T] [DecidableEq τ] (H : Hash L T)
    {s : Implementation.State τ (Store τ T) (Local T)}
    (h : (implementation τ H).system.Reachable s) {t : τ} {l : Local T} (hl : s.pc t = some l) :
    l.pc ≠ .fault :=
  (avoids_fault H).never h hl

/-! ### A call alone -/

/-- Steps of a call that are none of `std::lock`'s choices, and do not start over. -/
abbrev Surely (H : Hash L T) (me : τ) (op : SetOp T) : Store τ T × Local T → Store τ T × Local T → Prop :=
  Relation.ReflTransGen ((implementation τ H).Forced me ⟨op, .walk .start⟩)

theorem forced {l l' : Local T} (hresult : (implementation τ H).result l = none)
    (hstep : ∀ c, step H me s l c = some (s', l')) (hpass : l'.pc ≠ .walk .start) :
    (implementation τ H).Forced me ⟨op, .walk .start⟩ (s, l) (s', l') where
  result := hresult
  step := hstep
  passes := fun h => hpass (congrArg Local.pc h)

theorem walks (H : Hash L T) (me : τ) (op : SetOp T) :
    Walks (implementation τ H) H me op.element (fun w => ⟨op, .walk w⟩) fun p c => ⟨op, .checkPredecessor p c⟩ where
  result := fun _ => rfl
  on := fun h => by simp only [implementation, step, h]
  stop := fun h => by simp only [implementation, step, h]
  start := fun _ h => Pc.walk.inj (congrArg Local.pc h)
  passes := by simp

/-- The callback, as part of the call. -/
theorem surely_callback {p c : NodeId} {x y : Store τ T × Callback T}
    (h : Relation.ReflTransGen (Callback.Moves H true op p c) x y) :
    Surely H me op (x.1, ⟨op, .callback p c x.2⟩) (y.1, ⟨op, .callback p c y.2⟩) := by
  induction h with
  | refl => exact .refl
  | tail _ hcb ih =>
    rw [Callback.Moves] at hcb
    exact ih.tail (forced rfl (fun _ => by simp only [step, hcb]) (by simp))

/-- **A call that runs alone comes to its end**, without starting over. -/
theorem ends_alone [EquivBEq T] (hinv : ListInv H true s) (hq : Quiet s) (me : τ) (op : SetOp T) :
    (implementation τ H).Ends me ⟨op, .walk .start⟩ Quiet s ⟨op, .walk .start⟩ := by
  obtain ⟨p, c, hwalk, pos, hs, hl, hn⟩ := walk_alone hinv me op.element
  have hr : Ready H (s.lockPair me p c) me op.element p c := hq.lockPair_ready hinv pos hs hl hn
  obtain ⟨s₂, cb₂, s₃, r, hcb, hend, hm, hclean⟩ :=
    callback_alone (hq.lockPair_inv hinv pos.order.ne).1 hr (show CallbackAt H true _ op c .enter from trivial)
      hq.marked_lockPair
  have hlast : (implementation τ H).Ends me ⟨op, .walk .start⟩ Quiet s₃
      ⟨op, .unlockCurrent p c (some r)⟩ :=
    .forced (y := (s₃.release c, ⟨op, .unlockPredecessor p (some r)⟩)) (forced rfl (fun _ => rfl) (by simp))
      (.forced (y := ((s₃.release c).release p, ⟨op, .returned r⟩)) (forced rfl (fun _ => rfl) (by simp))
        (.returned rfl (fun _ => rfl) (hq.unlockPair hm hclean)))
  have hcallback : (implementation τ H).Ends me ⟨op, .walk .start⟩ Quiet (s.lockPair me p c)
      ⟨op, .callback p c .enter⟩ :=
    .surely (surely_callback hcb)
      (.forced (y := (s₃, ⟨op, .unlockCurrent p c (some r)⟩))
        (forced rfl (fun _ => by simp only [step, hend]) (by simp)) hlast)
  -- Nothing is marked, and the pair is adjacent.
  have hcheck₁ : ∀ choice, step H me (s.lockPair me p c) ⟨op, .checkPredecessor p c⟩ choice =
      some (s.lockPair me p c, ⟨op, .checkCurrent p c⟩) := fun _ => by
    simp [step, Store.lockPair, hq.unmarked p hl]
  have hcheck₂ : ∀ choice, step H me (s.lockPair me p c) ⟨op, .checkCurrent p c⟩ choice =
      some (s.lockPair me p c, ⟨op, .checkNext p c⟩) := fun _ => by
    simp [step, Store.lockPair, hq.unmarked c (hl.tail hn)]
  have hcheck₃ : ∀ choice, step H me (s.lockPair me p c) ⟨op, .checkNext p c⟩ choice =
      some (s.lockPair me p c, ⟨op, .callback p c .enter⟩) := fun _ => by
    simp [step, Store.lockPair, show (s.node p).next = some c from hn]
  exact (walks H me op).ends hq pos.order.ne hwalk (.forced (forced rfl hcheck₁ (by simp))
    (.forced (forced rfl hcheck₂ (by simp)) (.forced (forced rfl hcheck₃ (by simp)) hcallback)))

theorem answers_alone [EquivBEq T] (hinv : ListInv H true s) (hq : Quiet s) (me : τ) (op : SetOp T) :
    ∃ r s', (implementation τ H).Answers me s op r s' ∧ Quiet s' :=
  (ends_alone hinv hq me op).returns.answers

/-- **The lazy set is linearizable**, whatever the hash function: any collisions,
and any keys, the sentinels' own included. -/
theorem lazySet_linearizable [EquivBEq T] [DecidableEq τ] (H : Hash .cpp T) :
    (implementation τ H).Linearizable setSpec ∧
      ∀ s, (implementation τ H).system.Reachable s → ∀ t l, s.pc t = some l → l.pc ≠ .fault :=
  ⟨(outline τ H).linearizable, fun _ hs _ _ hl => never_faults H hs hl⟩

theorem lazySet_linearizable_residue :
    (implementation ℕ (residueHash .cpp)).Linearizable setSpec ∧
      ∀ s, (implementation ℕ (residueHash .cpp)).system.Reachable s →
        ∀ t l, s.pc t = some l → l.pc ≠ .fault :=
  lazySet_linearizable (residueHash .cpp)

end ParSweet.Sets.LazySet
