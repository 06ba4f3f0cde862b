import ParSweet.Concurrent.Termination
import ParSweet.Sets.Alone

/-! `OptimisticSet`: the walk holds no lock and nothing is ever marked. Once both
mutexes are held, a second walk from the head looks for the predecessor again, and
the pair is good if it is found and still points to the current node. -/
namespace ParSweet.Sets.OptimisticSet
open Concurrent

/-- Where a call stands in `find`. `exit` is the callback's answer, or nothing when
the validation has failed and the outer loop starts over. -/
inductive Pc (T : Type*) where
  | walk (w : Walk)
  /-- `check = head`, and in C++ `next = check->next`. -/
  | check (predecessor current : NodeId)
  /-- The condition of the validation loop. Java keeps no `next`: it reads
  `check.next` where C++ reads its variable. -/
  | validate (predecessor current check : NodeId) (next : Option NodeId)
  /-- `check = next; next = check->next`, or `check = check.next`. -/
  | validateNext (predecessor current check : NodeId) (next : Option NodeId)
  /-- `check != predecessor || predecessor->next != current` -/
  | recheck (predecessor current check : NodeId)
  | callback (predecessor current : NodeId) (cb : Callback T)
  | unlockCurrent (predecessor current : NodeId) (exit : Option (SetRes T))
  | unlockPredecessor (predecessor : NodeId) (exit : Option (SetRes T))
  | returned (r : SetRes T)
  /-- `finally { current.unlock(); ...`, on a `NullPointerException`. -/
  | throwCurrent (predecessor current : NodeId)
  /-- `... predecessor.unlock(); }` -/
  | throwPredecessor (predecessor : NodeId)
  /-- A null pointer has been dereferenced; in Java, the call has thrown. -/
  | fault

/-- The local state of a call. -/
structure Local (T : Type*) where
  op : SetOp T
  pc : Pc T

variable {τ T : Type*} [BEq T] {L : Lang}

/-- The node whose value the condition of the validation loop compares: the
variable `next` in C++, `check.next` read anew in Java. -/
def successor (L : Lang) (s : Store τ T) (check : NodeId) (next : Option NodeId) : Option NodeId :=
  match L with
  | .cpp => next
  | .java => (s.node check).next

/-- Where a null successor leads in the validation loop: Java throws, and unlocks both
nodes on its way out. -/
def nullSuccessor (L : Lang) (predecessor current : NodeId) : Pc T :=
  match L with
  | .cpp => .fault
  | .java => .throwCurrent predecessor current

/-- One atomic step of `find`; `choice` is for `std::lock`. -/
def step (H : Hash L T) (me : τ) (s : Store τ T) (l : Local T) (choice : Bool) :
    Option (Store τ T × Local T) :=
  let goto (s : Store τ T) (pc : Pc T) : Option (Store τ T × Local T) := some (s, {l with pc := pc})
  match l.pc with
  | .walk w =>
    match w.step H me s l.op.element choice with
    | some (s', .on w') => goto s' (.walk w')
    | some (s', .locked predecessor current) => goto s' (.check predecessor current)
    | some (s', .fault) => goto s' .fault
    | none => none
  | .check predecessor current =>
    match L with
    | .cpp => goto s (.validate predecessor current head (s.node head).next)
    | .java => goto s (.validate predecessor current head none)
  | .validate predecessor current check next =>
    let goOn := goto s (.validateNext predecessor current check next)
    let stop := goto s (.recheck predecessor current check)
    if (s.node check).key < (s.node predecessor).key then goOn
    else if (s.node check).key = (s.node predecessor).key then
      match successor L s check next with
      | none => goto s (nullSuccessor L predecessor current)
      | some n => if (s.node n).value != (s.node current).value then goOn else stop
    else stop
  | .validateNext predecessor current check next =>
    match successor L s check next, L with
    | none, _ => goto s (nullSuccessor L predecessor current)
    | some n, .cpp => goto s (.validate predecessor current n (s.node n).next)
    | some n, .java => goto s (.validate predecessor current n none)
  | .recheck predecessor current check =>
    if check = predecessor ∧ (s.node predecessor).next = some current then
      goto s (.callback predecessor current .enter)
    else goto s (.unlockCurrent predecessor current none)
  | .callback predecessor current cb =>
    match cb.step H false s l.op predecessor current with
    | (s', .inl cb') => goto s' (.callback predecessor current cb')
    | (s', .inr r) => goto s' (.unlockCurrent predecessor current (some r))
  | .unlockCurrent predecessor current exit =>
    goto (s.release current) (.unlockPredecessor predecessor exit)
  | .unlockPredecessor predecessor exit =>
    match exit with
    | none => goto (s.release predecessor) (.walk .start)
    | some r => goto (s.release predecessor) (.returned r)
  | .returned _ => none
  | .throwCurrent predecessor current => goto (s.release current) (.throwPredecessor predecessor)
  | .throwPredecessor predecessor => goto (s.release predecessor) .fault
  | .fault => none

/-- The set as an object: any thread may call any operation at any time. -/
def implementation (τ : Type*) (H : Hash L T) :
    Implementation τ (SetOp T) (SetRes T) (Store τ T) (Local T) Bool where
  store := .initial L
  start := fun op => ⟨op, .walk .start⟩
  step := step H
  result := fun l =>
    match l.pc with
    | .returned r => some r
    | _ => none

/-! ### The outline -/

/-- No two different elements share the tail sentinel's key. -/
def MaxUnique (H : Hash L T) : Prop :=
  ∀ v w, H.hash v = L.tailKey → H.hash w = L.tailKey → (v == w) = true

variable {H : Hash L T} {s s' : Store τ T} {me u : τ} {op : SetOp T} {t : T} {p c check : NodeId}
  {next : Option NodeId}

/-- What a step of the walk leads to. -/
theorem step_walk {w : Walk} {l' : Local T} {choice : Bool} (hstep : step H me s ⟨op, .walk w⟩ choice = some (s', l')) :
    (∃ w', w.step H me s op.element choice = some (s', .on w') ∧ l' = ⟨op, .walk w'⟩) ∨
      (∃ p c, w.step H me s op.element choice = some (s', .locked p c) ∧ l' = ⟨op, .check p c⟩) ∨
      w.step H me s op.element choice = some (s', .fault) ∧ l' = ⟨op, .fault⟩ := by
  rcases hw : w.step H me s op.element choice with _ | ⟨s₁, w' | ⟨p, c⟩ | _⟩
  · simp [step, hw] at hstep
  all_goals
    simp only [step, hw, Option.some.injEq, Prod.mk.injEq] at hstep
    obtain ⟨rfl, rfl⟩ := hstep
  · exact .inl ⟨w', rfl, rfl⟩
  · exact .inr (.inl ⟨p, c, rfl, rfl⟩)
  · exact .inr (.inr ⟨rfl, rfl⟩)

/-- What a step of a callback leads to. -/
theorem step_callback {p c : NodeId} {cb : Callback T} {l' : Local T} {choice : Bool}
    (hstep : step H me s ⟨op, .callback p c cb⟩ choice = some (s', l')) :
    (∃ cb', cb.step H false s op p c = (s', .inl cb') ∧ l' = ⟨op, .callback p c cb'⟩) ∨
      ∃ r, cb.step H false s op p c = (s', .inr r) ∧ l' = ⟨op, .unlockCurrent p c (some r)⟩ := by
  rcases hcs : cb.step H false s op p c with ⟨s₁, cb' | r⟩
  all_goals
    simp only [step, hcs, Option.some.injEq, Prod.mk.injEq] at hstep
    obtain ⟨rfl, rfl⟩ := hstep
  · exact .inl ⟨cb', rfl, rfl⟩
  · exact .inr ⟨r, rfl, rfl⟩

/-- What the second walk knows: a predecessor that has left the list before it was
locked is out of its reach. -/
structure Validating (L : Lang) (s : Store τ T) (p check : NodeId) (next : Option NodeId) : Prop where
  check_lt : check < s.size
  next_lt : ∀ n, next = some n → n < s.size
  check_reach : s.Live p ∨ ¬ Links.Reaches s.next check p
  next_reach : ∀ n, next = some n → s.Live p ∨ ¬ Links.Reaches s.next n p
  next_none : L = .cpp → next = none → check = tail

/-- What a call knows before its operation has taken effect. A null pointer can
only be met when different elements share the tail's key. -/
def PendingAt (H : Hash L T) (s : Store τ T) (me : τ) (op : SetOp T) : Pc T → Prop
  | .walk w => WalkAt H s me op.element w
  | .check p c => Position H s op.element p c ∧ Stopped H s op.element c ∧ Locked s me p c
  | .validate p c check next => Position H s op.element p c ∧ Stopped H s op.element c ∧
      Locked s me p c ∧ Validating L s p check next
  | .validateNext p c check next => Position H s op.element p c ∧ Stopped H s op.element c ∧
      Locked s me p c ∧ Validating L s p check next ∧ (s.node check).key ≤ (s.node p).key
  | .recheck p c check => Position H s op.element p c ∧ Stopped H s op.element c ∧
      Locked s me p c ∧ (check = p → s.Live p)
  | .callback p c cb => Ready H s me op.element p c ∧ CallbackAt H false s op c cb
  | .unlockCurrent p c exit => exit = none ∧ Locked s me p c
  | .unlockPredecessor p exit => exit = none ∧ s.mutex p = some me
  | .returned _ => False
  | .throwCurrent p c => ¬ MaxUnique H ∧ Locked s me p c
  | .throwPredecessor p => ¬ MaxUnique H ∧ s.mutex p = some me
  | .fault => ¬ MaxUnique H

/-- What a call knows once its operation has taken effect with answer `r`. -/
def DoneAt (s : Store τ T) (me : τ) (r : SetRes T) : Pc T → Prop
  | .unlockCurrent p c exit => exit = some r ∧ Locked s me p c
  | .unlockPredecessor p exit => exit = some r ∧ s.mutex p = some me
  | .returned r' => r' = r
  | _ => False

theorem Validating.stable (h : Validating L s p check next) (hinv : ListInv H false s)
    (hp : p < s.size) (hheld : s.mutex p = some me) (hne : me ≠ u) (he : Effect H false u s s') :
    Validating L s' p check next where
  check_lt := h.check_lt.trans_le he.size_le
  next_lt := fun n hn => (h.next_lt n hn).trans_le he.size_le
  check_reach := h.check_reach.imp (he.live hinv hne hheld) fun hr hr' =>
    hr (he.reaches hinv h.check_lt hp hr')
  next_reach := fun n hn => (h.next_reach n hn).imp (he.live hinv hne hheld) fun hr hr' =>
    hr (he.reaches hinv (h.next_lt n hn) hp hr')
  next_none := h.next_none

theorem pending_stable [EquivBEq T] {pc : Pc T} (h : PendingAt H s me op pc) (hinv : ListInv H false s)
    (hne : me ≠ u) (he : Effect H false u s s') : PendingAt H s' me op pc := by
  cases pc with
  | walk w => exact WalkAt.stable h hinv hne he
  | check p c =>
    obtain ⟨pos, hs, hlock⟩ := h
    exact ⟨pos.stable hinv he, hs.stable pos.curr_lt he, hlock.stable hne he⟩
  | validate p c check next =>
    obtain ⟨pos, hs, hlock, hv⟩ := h
    exact ⟨pos.stable hinv he, hs.stable pos.curr_lt he, hlock.stable hne he,
      hv.stable hinv pos.pred_lt hlock.pred_held hne he⟩
  | validateNext p c check next =>
    obtain ⟨pos, hs, hlock, hv, hk⟩ := h
    refine ⟨pos.stable hinv he, hs.stable pos.curr_lt he, hlock.stable hne he,
      hv.stable hinv pos.pred_lt hlock.pred_held hne he, ?_⟩
    rw [(he.node_eq hv.check_lt).1, (he.node_eq pos.pred_lt).1]
    exact hk
  | recheck p c check =>
    obtain ⟨pos, hs, hlock, hl⟩ := h
    exact ⟨pos.stable hinv he, hs.stable pos.curr_lt he, hlock.stable hne he,
      fun hc => he.live hinv hne hlock.pred_held (hl hc)⟩
  | callback p c cb => exact ⟨h.1.stable hinv hne he, h.2.stable h.1 hne he⟩
  | unlockCurrent p c exit => exact ⟨h.1, h.2.stable hne he⟩
  | unlockPredecessor p exit => exact ⟨h.1, he.mutex hne h.2⟩
  | throwCurrent p c => exact ⟨h.1, h.2.stable hne he⟩
  | throwPredecessor p => exact ⟨h.1, he.mutex hne h.2⟩
  | returned r => exact h
  | fault => exact h

theorem done_stable {r : SetRes T} {pc : Pc T} (h : DoneAt s me r pc) (hne : me ≠ u)
    (he : Effect H false u s s') : DoneAt s' me r pc := by
  cases pc with
  | unlockCurrent p c exit => exact ⟨h.1, h.2.stable hne he⟩
  | unlockPredecessor p exit => exact ⟨h.1, he.mutex hne h.2⟩
  | _ => exact h

/-! ### The second walk -/

/-- It starts at the head. -/
theorem Validating.start (hinv : ListInv H false s) (hnext : next = none ∨ next = s.next head)
    (hL : L = .cpp → next = s.next head) : Validating L s p head next where
  check_lt := hinv.bounded.head_lt
  next_lt := fun n hn => by
    rcases hnext with rfl | rfl
    · cases hn
    · exact (hinv.bounded.lt hn).2
  check_reach := Classical.em _
  next_reach := fun n hn => by
    rcases hnext with rfl | rfl
    · cases hn
    · exact (Classical.em (s.Live p)).imp id fun hl hr => hl (hr.step hn)
  next_none := fun hcpp hn => by
    rw [hL hcpp] at hn
    exact (hinv.next_none head hinv.bounded.head_lt).mp hn

/-- It goes on to a node it has got from `check`. -/
theorem Validating.advance {n : NodeId} {next' : Option NodeId} (hinv : ListInv H false s)
    (hn : n < s.size) (hr : s.Live p ∨ ¬ Links.Reaches s.next n p)
    (hnext : next' = none ∨ next' = s.next n) (hL : L = .cpp → next' = s.next n) :
    Validating L s p n next' where
  check_lt := hn
  next_lt := fun m hm => by
    rcases hnext with rfl | rfl
    · cases hm
    · exact (hinv.bounded.lt hm).2
  check_reach := hr
  next_reach := fun m hm => by
    rcases hnext with rfl | rfl
    · cases hm
    · exact hr.imp id fun hl hr' => hl (hr'.step hm)
  next_none := fun hcpp hm => by
    rw [hL hcpp] at hm
    exact (hinv.next_none n hn).mp hm

/-- The node it gets from `check`. -/
theorem Validating.successor {n : NodeId} (h : Validating L s p check next) (hinv : ListInv H false s)
    (hn : successor L s check next = some n) :
    n < s.size ∧ (s.Live p ∨ ¬ Links.Reaches s.next n p) := by
  cases L with
  | cpp => exact ⟨h.next_lt n hn, h.next_reach n hn⟩
  | java =>
    have hn' : s.next check = some n := hn
    exact ⟨(hinv.bounded.lt hn').2, h.check_reach.imp id fun hl hr => hl (hr.step hn')⟩

/-- Only the tail has nothing behind it. -/
theorem Validating.successor_none (h : Validating L s p check next) (hinv : ListInv H false s)
    (hn : OptimisticSet.successor L s check next = none) : check = tail := by
  cases L with
  | cpp => exact h.next_none rfl hn
  | java => exact (hinv.next_none check h.check_lt).mp hn

/-- A predecessor whose key is as large as the tail's holds an element that shares
the tail's key with the one looked for, and differs from it. -/
theorem not_maxUnique (hinv : ListInv H false s) (pos : Position H s t p c)
    (hk : L.tailKey ≤ (s.node p).key) : ¬ MaxUnique H := by
  intro hmax
  by_cases hh : p = head
  · subst hh
    rw [hinv.head_node.1] at hk
    cases L <;> exact absurd hk (by decide)
  · have ht : p ≠ tail := by
      rintro rfl
      exact absurd pos.pred_le (Store.lt_tail _).not_ge
    obtain ⟨x, hx, hkx⟩ := hinv.element p pos.pred_lt hh ht
    have hle := pos.pred_le
    rw [Store.sortKey_element hh ht, elementKey_le] at hle
    have hxmax : H.hash x = L.tailKey := le_antisymm (H.upper x) (hkx ▸ hk)
    have htmax : H.hash t = L.tailKey := le_antisymm (H.upper t) (hk.trans hle)
    have hmiss := pos.pred_miss
    rw [hx, show (some t == some x) = (t == x) from rfl, hmax t x htmax hxmax] at hmiss
    cases hmiss

/-- Where the validation loop would look past the tail. -/
theorem Validating.fault (h : Validating L s p check next) (hinv : ListInv H false s)
    (pos : Position H s t p c) (hk : (s.node check).key ≤ (s.node p).key)
    (hn : OptimisticSet.successor L s check next = none) : ¬ MaxUnique H := by
  have hc := h.successor_none hinv hn
  subst hc
  rw [hinv.tail_node.1] at hk
  exact not_maxUnique hinv pos hk

theorem nullSuccessor_at (hlock : Locked s me p c) (hmax : ¬ MaxUnique H) :
    PendingAt H s me op (nullSuccessor L p c) := by
  cases L
  · exact hmax
  · exact ⟨hmax, hlock⟩

/-! ### The steps -/

/-- One step of a call whose operation has not taken effect. -/
theorem pending_step [EquivBEq T] {pc : Pc T} {choice : Bool} {l' : Local T} (hinv : ListInv H false s)
    (h : PendingAt H s me op pc) (hstep : step H me s ⟨op, pc⟩ choice = some (s', l')) :
    Effect H false me s s' ∧ l'.op = op ∧
      ((s'.elements = s.elements ∧ PendingAt H s' me op l'.pc) ∨
        ∃ r, SetApply op s.elements r s'.elements ∧ DoneAt s' me r l'.pc) := by
  cases pc with
  | walk w =>
    rcases step_walk hstep with ⟨w', hw, rfl⟩ | ⟨p, c, hw, rfl⟩ | ⟨hw, rfl⟩
    all_goals
      obtain ⟨he, hel, hat⟩ := walk_step hinv h hw
    · exact ⟨he, rfl, .inl ⟨hel, hat⟩⟩
    · exact ⟨he, rfl, .inl ⟨hel, hat⟩⟩
    · exact hat.elim
  | check p c =>
    obtain ⟨pos, hs, hlock⟩ := h
    cases L
    all_goals
      simp only [step, Option.some.injEq, Prod.mk.injEq] at hstep
      obtain ⟨rfl, rfl⟩ := hstep
    · exact ⟨.same, rfl, .inl ⟨rfl, pos, hs, hlock, .start hinv (.inr rfl) fun _ => rfl⟩⟩
    · exact ⟨.same, rfl, .inl ⟨rfl, pos, hs, hlock, .start hinv (.inl rfl) nofun⟩⟩
  | validate p c check next =>
    obtain ⟨pos, hs, hlock, hv⟩ := h
    have hstop : check = p → s.Live p := by
      rintro rfl
      exact hv.check_reach.resolve_right fun h => h .refl
    rcases lt_trichotomy (s.node check).key (s.node p).key with hk | hk | hk
    · simp only [step, if_pos hk, Option.some.injEq, Prod.mk.injEq] at hstep
      obtain ⟨rfl, rfl⟩ := hstep
      exact ⟨.same, rfl, .inl ⟨rfl, pos, hs, hlock, hv, hk.le⟩⟩
    · rcases hn : successor L s check next with _ | n
      · simp only [step, if_neg hk.not_lt, if_pos hk, hn, Option.some.injEq, Prod.mk.injEq] at hstep
        obtain ⟨rfl, rfl⟩ := hstep
        exact ⟨.same, rfl, .inl ⟨rfl, nullSuccessor_at hlock (hv.fault hinv pos hk.le hn)⟩⟩
      · by_cases hval : ((s.node n).value != (s.node c).value) = true
        · simp only [step, if_neg hk.not_lt, if_pos hk, hn, if_pos hval, Option.some.injEq,
            Prod.mk.injEq] at hstep
          obtain ⟨rfl, rfl⟩ := hstep
          exact ⟨.same, rfl, .inl ⟨rfl, pos, hs, hlock, hv, hk.le⟩⟩
        · simp only [step, if_neg hk.not_lt, if_pos hk, hn, if_neg hval, Option.some.injEq,
            Prod.mk.injEq] at hstep
          obtain ⟨rfl, rfl⟩ := hstep
          exact ⟨.same, rfl, .inl ⟨rfl, pos, hs, hlock, hstop⟩⟩
    · simp only [step, if_neg hk.not_gt, if_neg hk.ne', Option.some.injEq, Prod.mk.injEq] at hstep
      obtain ⟨rfl, rfl⟩ := hstep
      exact ⟨.same, rfl, .inl ⟨rfl, pos, hs, hlock, hstop⟩⟩
  | validateNext p c check next =>
    obtain ⟨pos, hs, hlock, hv, hk⟩ := h
    rcases hn : successor L s check next with _ | n
    · simp only [step, hn, Option.some.injEq, Prod.mk.injEq] at hstep
      obtain ⟨rfl, rfl⟩ := hstep
      exact ⟨.same, rfl, .inl ⟨rfl, nullSuccessor_at hlock (hv.fault hinv pos hk hn)⟩⟩
    · obtain ⟨hlt, hreach⟩ := hv.successor hinv hn
      cases L
      all_goals
        simp only [step, hn, Option.some.injEq, Prod.mk.injEq] at hstep
        obtain ⟨rfl, rfl⟩ := hstep
      · exact ⟨.same, rfl, .inl ⟨rfl, pos, hs, hlock,
          .advance hinv hlt hreach (.inr rfl) fun _ => rfl⟩⟩
      · exact ⟨.same, rfl, .inl ⟨rfl, pos, hs, hlock, .advance hinv hlt hreach (.inl rfl) nofun⟩⟩
  | recheck p c check =>
    obtain ⟨pos, hs, hlock, hl⟩ := h
    by_cases hn : check = p ∧ (s.node p).next = some c
    · simp only [step, if_pos hn, Option.some.injEq, Prod.mk.injEq] at hstep
      obtain ⟨rfl, rfl⟩ := hstep
      exact ⟨.same, rfl, .inl ⟨rfl,
        ⟨pos, ⟨hlock.pred_held, hlock.curr_held, hl hn.1, hn.2⟩, hs⟩, trivial⟩⟩
    · simp only [step, if_neg hn, Option.some.injEq, Prod.mk.injEq] at hstep
      obtain ⟨rfl, rfl⟩ := hstep
      exact ⟨.same, rfl, .inl ⟨rfl, rfl, hlock⟩⟩
  | callback p c cb =>
    obtain ⟨hr, hcb⟩ := h
    rcases step_callback hstep with ⟨cb', hcs, rfl⟩ | ⟨r, hcs, rfl⟩
    · obtain ⟨he, hel, hr', hcb'⟩ := callback_step hinv hr hcb hcs
      exact ⟨he, rfl, .inl ⟨hel, hr', hcb'⟩⟩
    · obtain ⟨he, hap, hlock⟩ := callback_step hinv hr hcb hcs
      exact ⟨he, rfl, .inr ⟨r, hap, rfl, hlock⟩⟩
  | unlockCurrent p c exit =>
    obtain ⟨rfl, hlock⟩ := h
    simp only [step, Option.some.injEq, Prod.mk.injEq] at hstep
    obtain ⟨rfl, rfl⟩ := hstep
    obtain ⟨he, hel, hheld⟩ := hlock.unlockCurrent
    exact ⟨he, rfl, .inl ⟨hel, rfl, hheld⟩⟩
  | unlockPredecessor p exit =>
    obtain ⟨rfl, hheld⟩ := h
    simp only [step, Option.some.injEq, Prod.mk.injEq] at hstep
    obtain ⟨rfl, rfl⟩ := hstep
    exact ⟨.release hheld, rfl, .inl ⟨Store.release_elements, trivial⟩⟩
  | throwCurrent p c =>
    obtain ⟨hmax, hlock⟩ := h
    simp only [step, Option.some.injEq, Prod.mk.injEq] at hstep
    obtain ⟨rfl, rfl⟩ := hstep
    obtain ⟨he, hel, hheld⟩ := hlock.unlockCurrent
    exact ⟨he, rfl, .inl ⟨hel, hmax, hheld⟩⟩
  | throwPredecessor p =>
    obtain ⟨hmax, hheld⟩ := h
    simp only [step, Option.some.injEq, Prod.mk.injEq] at hstep
    obtain ⟨rfl, rfl⟩ := hstep
    exact ⟨.release hheld, rfl, .inl ⟨Store.release_elements, hmax⟩⟩
  | returned r => exact h.elim
  | fault => simp [step] at hstep

/-- One step of a call whose operation has taken effect. -/
theorem done_step {pc : Pc T} {r : SetRes T} {choice : Bool} {l' : Local T}
    (h : DoneAt s me r pc) (hstep : step H me s ⟨op, pc⟩ choice = some (s', l')) :
    Effect H false me s s' ∧ s'.elements = s.elements ∧ DoneAt s' me r l'.pc := by
  cases pc with
  | unlockCurrent p c exit =>
    obtain ⟨rfl, hlock⟩ := h
    simp only [step, Option.some.injEq, Prod.mk.injEq] at hstep
    obtain ⟨rfl, rfl⟩ := hstep
    obtain ⟨he, hel, hheld⟩ := hlock.unlockCurrent
    exact ⟨he, hel, rfl, hheld⟩
  | unlockPredecessor p exit =>
    obtain ⟨rfl, hheld⟩ := h
    simp only [step, Option.some.injEq, Prod.mk.injEq] at hstep
    obtain ⟨rfl, rfl⟩ := hstep
    exact ⟨.release hheld, Store.release_elements, rfl⟩
  | returned r' => simp [step] at hstep
  | _ => exact h.elim

/-- The proof outline of the optimistic set. -/
def outline [EquivBEq T] (τ : Type*) (H : Hash L T) : Outline (implementation τ H) (setSpec (T := T)) where
  Inv := fun s A => ListInv H false s ∧ A = s.elements
  Guarantee := Effect H false
  Pending := fun me op s l => l.op = op ∧ PendingAt H s me op l.pc
  Done := fun me r s l => DoneAt s me r l.pc
  initial := ⟨initial_listInv H false, initial_elements.symm⟩
  start := fun _ _ _ _ _ => ⟨rfl, trivial⟩
  pending_step := by
    rintro me op s A ⟨_, pc⟩ c s' l' ⟨hinv, rfl⟩ ⟨rfl, h⟩ hstep
    obtain ⟨he, hop, ⟨hel, h'⟩ | ⟨r, hap, hd⟩⟩ := pending_step hinv h hstep
    · exact ⟨he, .inl ⟨⟨he.listInv hinv, hel.symm⟩, hop, h'⟩⟩
    · exact ⟨he, .inr ⟨r, _, hap, ⟨he.listInv hinv, rfl⟩, hd⟩⟩
  done_step := by
    rintro me r s A ⟨op, pc⟩ c s' l' ⟨hinv, rfl⟩ h hstep
    obtain ⟨he, hel, h'⟩ := done_step h hstep
    exact ⟨he, ⟨he.listInv hinv, hel.symm⟩, h'⟩
  pending_result := by
    rintro me op s ⟨_, pc⟩ ⟨rfl, h⟩
    cases pc with
    | returned r => exact h.elim
    | _ => rfl
  done_result := by
    rintro me r r' s ⟨op, pc⟩ h hr
    cases pc with
    | returned r₁ => exact (Option.some.inj hr).symm.trans h
    | _ => cases hr
  pending_stable := fun me u op s A s' l hne hinv he h =>
    ⟨h.1, pending_stable h.2 hinv.1 hne he⟩
  done_stable := fun me u r s A s' l hne _ he h => done_stable h hne he

theorem avoids_fault [EquivBEq T] (hmax : MaxUnique H) : (outline τ H).Avoids fun l => l.pc = .fault where
  pending := fun t op s l hp hf => by
    obtain ⟨_, hp⟩ := hp
    rw [hf] at hp
    exact hp hmax
  done := fun t r s l hd hf => by
    have hd : DoneAt s t r l.pc := hd
    rw [hf] at hd
    exact hd

/-- Where no two different elements share the tail's key, no call dereferences a
null pointer. -/
theorem never_faults [EquivBEq T] [DecidableEq τ] (hmax : MaxUnique H)
    {s : Implementation.State τ (Store τ T) (Local T)}
    (h : (implementation τ H).system.Reachable s) {t : τ} {l : Local T} (hl : s.pc t = some l) :
    l.pc ≠ .fault :=
  (avoids_fault hmax).never h hl

/-! ### The elements that are asked for -/

/-- No two different ones of these elements share the tail sentinel's key. -/
def MaxUniqueOn (H : Hash L T) (E : T → Prop) : Prop :=
  ∀ v w, E v → E w → H.hash v = L.tailKey → H.hash w = L.tailKey → (v == w) = true

/-- A call stays one of its operation. -/
theorem step_op {l l' : Local T} {choice : Bool} (hstep : step H me s l choice = some (s', l')) : l'.op = l.op := by
  obtain ⟨op, pc⟩ := l
  cases pc with
  | walk w =>
    rcases step_walk hstep with ⟨_, _, rfl⟩ | ⟨_, _, _, rfl⟩ | ⟨_, rfl⟩ <;> rfl
  | callback p c cb =>
    rcases step_callback hstep with ⟨_, _, rfl⟩ | ⟨_, _, rfl⟩ <;> rfl
  | _ =>
    simp only [step] at hstep
    grind

theorem about_element (H : Hash L T) (E : T → Prop) :
    (implementation τ H).About (fun _ op => E op.element) fun _ l => E l.op.element where
  start := fun _ _ h => h
  step := fun _ _ _ _ _ _ h hstep => by rwa [step_op hstep]

/-- A call asks for the hash of its element only. -/
theorem sameOn {H' : Hash L T} {E : T → Prop} (h : ∀ v, E v → H.hash v = H'.hash v) :
    (implementation τ H).SameOn (implementation τ H') fun _ l => E l.op.element where
  store := rfl
  start := rfl
  step := fun me s l choice hl => by
    obtain ⟨op, pc⟩ := l
    have hop : H.hash op.element = H'.hash op.element := h op.element hl
    cases pc with
    | walk w => simp only [implementation, step, Walk.step_congr hop]
    | callback p c cb => simp only [implementation, step, Callback.step_congr hop]
    | validateNext p c check next =>
      simp only [implementation, step]
      cases successor L s check next <;> cases L <;> rfl
    | _ => cases L <;> rfl
  result := rfl

/-- What the hash function does to other elements can be had without a second one at the tail's key. -/
theorem exists_maxUnique [EquivBEq T] {E : T → Prop} (h : MaxUniqueOn H E) :
    ∃ H' : Hash L T, MaxUnique H' ∧ ∀ v, E v → H.hash v = H'.hash v := by
  classical
  let asked := fun x => ∃ v, E v ∧ (v == x) = true
  have hends : L.headKey < L.tailKey := by cases L <;> decide
  let H' : Hash L T :=
    { hash := fun x => if asked x then H.hash x else L.headKey
      lower := fun x => by
        split
        · exact H.lower x
        · exact le_refl _
      upper := fun x => by
        split
        · exact H.upper x
        · exact hends.le
      respects := fun a b hab => by
        have hasked : asked a ↔ asked b :=
          exists_congr fun v => and_congr_right fun _ => by rw [BEq.congr_right hab]
        simp only [hasked, H.respects a b hab] }
  refine ⟨H', fun v w hv hw => ?_, fun v hv => (if_pos ⟨v, hv, BEq.rfl⟩).symm⟩
  have hmax : ∀ x, H'.hash x = L.tailKey → ∃ v, E v ∧ (v == x) = true ∧ H.hash v = L.tailKey := by
    intro x hx
    by_cases hax : asked x
    · have hx : H.hash x = L.tailKey := (if_pos hax).symm.trans hx
      obtain ⟨v, hv, hvx⟩ := hax
      exact ⟨v, hv, hvx, (H.respects v x hvx).trans hx⟩
    · exact absurd ((if_neg hax).symm.trans hx) hends.ne
  obtain ⟨v', hv', hvv, hkv⟩ := hmax v hv
  obtain ⟨w', hw', hww, hkw⟩ := hmax w hw
  have heq : (v' == w') = true := h v' w' hv' hw' hkv hkw
  exact PartialEquivBEq.trans (PartialEquivBEq.symm hvv) (PartialEquivBEq.trans heq hww)

/-! ### A call alone -/

/-- Steps of a call that are none of `std::lock`'s choices, and do not start over. -/
abbrev Surely (H : Hash L T) (me : τ) (op : SetOp T) : Store τ T × Local T → Store τ T × Local T → Prop :=
  Relation.ReflTransGen ((implementation τ H).Forced me ⟨op, .walk .start⟩)

theorem forced {l l' : Local T} (hresult : (implementation τ H).result l = none)
    (hstep : ∀ c, step H me s l c = some (s', l')) (hpass : l'.pc ≠ .walk .start) :
    (implementation τ H).Forced me ⟨op, .walk .start⟩ (s, l) (s', l') where
  result := hresult
  step := hstep
  passes := fun h => hpass (congrArg Local.pc h)

theorem walks (H : Hash L T) (me : τ) (op : SetOp T) :
    Walks (implementation τ H) H me op.element (fun w => ⟨op, .walk w⟩) fun p c => ⟨op, .check p c⟩ where
  result := fun _ => rfl
  on := fun h => by simp only [implementation, step, h]
  stop := fun h => by simp only [implementation, step, h]
  start := fun _ h => Pc.walk.inj (congrArg Local.pc h)
  passes := by simp

/-- The callback, as part of the call. -/
theorem surely_callback {x y : Store τ T × Callback T}
    (h : Relation.ReflTransGen (Callback.Moves H false op p c) x y) :
    Surely H me op (x.1, ⟨op, .callback p c x.2⟩) (y.1, ⟨op, .callback p c y.2⟩) := by
  induction h with
  | refl => exact .refl
  | tail _ hcb ih =>
    rw [Callback.Moves] at hcb
    exact ih.tail (forced rfl (fun _ => by simp only [step, hcb]) (by simp))

/-- Keys do not fall along the list. -/
theorem key_le_of_before (hinv : ListInv H false s) (hp : p < s.size) (hc : c < s.size)
    (hct : c ≠ tail) (h : s.Before p c) : (s.node p).key ≤ (s.node c).key := by
  have hch : c ≠ head := fun he => Store.not_before_head (he ▸ h)
  have hpt : p ≠ tail := fun he => Store.not_tail_before hct (he ▸ h)
  by_cases hph : p = head
  · subst hph
    obtain ⟨x, _, hx⟩ := hinv.element c hc hch hct
    rw [hinv.head_node.1, hx]
    exact H.lower x
  · have hle := Links.Before.key_le h
    rw [Store.sortKey_element hph hpt, Store.sortKey_element hch hct] at hle
    exact elementKey_le.mp hle

/-- In front of the predecessor, the second walk goes on. -/
theorem validate_goes_on [EquivBEq T] {d : NodeId} (me : τ) (op : SetOp T) (choice : Bool) (hinv : ListInv H false s)
    (hl : s.Live check) (hd : s.next check = some d) (hr : Links.Reaches s.next d p) (hpc : s.next p = some c)
    (hsucc : successor L s check next = some d) :
    step H me s ⟨op, .validate p c check next⟩ choice =
      some (s, ⟨op, .validateNext p c check next⟩) := by
  have hdl : s.Live d := hl.tail hd
  have hpl : s.Live p := hdl.trans hr
  have hpt : p ≠ tail := hinv.ne_tail hpc
  have hcp : s.Before check p := by
    rcases hinv.sorted.before hr with rfl | hb
    · exact hinv.sorted.ordered hd
    · exact (hinv.sorted.ordered hd).trans hb
  rcases (key_le_of_before hinv (hinv.live_lt hl) (hinv.live_lt hpl) hpt hcp).lt_or_eq with hk | hk
  · simp only [step, if_pos hk]
  · have hdt : d ≠ tail := by
      rintro rfl
      rcases hinv.sorted.before hr with h | h
      · exact hpt h.symm
      · exact Store.not_tail_before hpt h
    obtain ⟨x, hx, _⟩ := hinv.element d (hinv.live_lt hdl) (hinv.ne_head hd) hdt
    have hval : ((s.node d).value != (s.node c).value) = true := by
      by_contra hne
      have heq : (some x == (s.node c).value) = true := by
        rw [← hx]
        simpa [bne] using hne
      have hdc : d = c := hinv.distinct d c x hdl (hpl.tail hpc) (by rw [hx]; exact BEq.rfl (a := x)) heq
      subst hdc
      rcases hinv.sorted.before hr with h | h
      · exact (hinv.sorted.ordered hpc).ne h.symm
      · exact h.asymm (hinv.sorted.ordered hpc)
    simp only [step, if_neg hk.not_lt, if_pos hk, hsucc, if_pos hval]

/-- **With nobody else about, the second walk finds the predecessor.** -/
theorem surely_validate [EquivBEq T] (hinv : ListInv H false s) (hl : s.Live p) (hpc : s.next p = some c) :
    Surely H me op (s, ⟨op, .check p c⟩) (s, ⟨op, .recheck p c p⟩) := by
  have hrest : ∀ check, Links.Reaches s.next check p → s.Live check →
      ∀ next, (L = .cpp → next = s.next check) →
        Surely H me op (s, ⟨op, .validate p c check next⟩) (s, ⟨op, .recheck p c p⟩) := by
    intro check hr
    induction hr using Relation.ReflTransGen.head_induction_on with
    | refl =>
      intro _ next hnext
      have hsucc : successor L s p next = some c := by
        cases L
        · exact (hnext rfl).trans hpc
        · exact hpc
      have hval : ((s.node c).value != (s.node c).value) = false := by
        cases (s.node c).value with
        | none => rfl
        | some x => exact (congrArg not (BEq.rfl (a := x)) : (!(x == x)) = false)
      exact .single (forced rfl (fun _ => by simp [step, hsucc, hval]) (by simp))
    | @head check d hd hr ih =>
      intro hlc next hnext
      have hsucc : successor L s check next = some d := by
        cases L
        · exact (hnext rfl).trans hd
        · exact hd
      have hgo := fun choice => validate_goes_on me op choice hinv hlc hd hr hpc hsucc
      cases L
      · have hnext' : ∀ choice, step H me s ⟨op, .validateNext p c check next⟩ choice =
            some (s, ⟨op, .validate p c d (s.next d)⟩) := fun _ => by simp [step, hsucc, Store.next]
        exact .head (forced rfl hgo (by simp))
          (.head (forced rfl hnext' (by simp)) (ih (hlc.tail hd) _ fun _ => rfl))
      · have hnext' : ∀ choice, step H me s ⟨op, .validateNext p c check next⟩ choice =
            some (s, ⟨op, .validate p c d none⟩) := fun _ => by simp [step, hsucc]
        exact .head (forced rfl hgo (by simp))
          (.head (forced rfl hnext' (by simp)) (ih (hlc.tail hd) _ fun h => Lang.noConfusion h))
  cases L
  · exact .head (forced rfl (fun _ => rfl) (by simp)) (hrest head hl .refl _ fun _ => rfl)
  · exact .head (forced rfl (fun _ => rfl) (by simp)) (hrest head hl .refl _ fun h => Lang.noConfusion h)

/-- **A call that runs alone comes to its end**, without starting over. -/
theorem ends_alone [EquivBEq T] (hinv : ListInv H false s) (hq : Quiet s) (me : τ) (op : SetOp T) :
    (implementation τ H).Ends me ⟨op, .walk .start⟩ Quiet s ⟨op, .walk .start⟩ := by
  obtain ⟨p, c, hwalk, pos, hs, hl, hn⟩ := walk_alone hinv me op.element
  have hinv' : ListInv H false (s.lockPair me p c) := (hq.lockPair_inv hinv pos.order.ne).1
  have hr : Ready H (s.lockPair me p c) me op.element p c := hq.lockPair_ready hinv pos hs hl hn
  obtain ⟨s₂, cb₂, s₃, r, hcb, hend, hm, hclean⟩ :=
    callback_alone hinv' hr (show CallbackAt H false _ op c .enter from trivial) hq.marked_lockPair
  have hrecheck : ∀ choice, step H me (s.lockPair me p c) ⟨op, .recheck p c p⟩ choice =
      some (s.lockPair me p c, ⟨op, .callback p c .enter⟩) := fun _ => by
    simp [step, Store.lockPair, show (s.node p).next = some c from hn]
  have hlast : (implementation τ H).Ends me ⟨op, .walk .start⟩ Quiet s₃
      ⟨op, .unlockCurrent p c (some r)⟩ :=
    .forced (y := (s₃.release c, ⟨op, .unlockPredecessor p (some r)⟩)) (forced rfl (fun _ => rfl) (by simp))
      (.forced (y := ((s₃.release c).release p, ⟨op, .returned r⟩)) (forced rfl (fun _ => rfl) (by simp))
        (.returned rfl (fun _ => rfl) (hq.unlockPair hm hclean)))
  have hcallback : (implementation τ H).Ends me ⟨op, .walk .start⟩ Quiet (s.lockPair me p c)
      ⟨op, .callback p c .enter⟩ :=
    .surely (surely_callback hcb)
      (.forced (y := (s₃, ⟨op, .unlockCurrent p c (some r)⟩))
        (forced rfl (fun _ => by simp only [step, hend]) (by simp)) hlast)
  have hcheck : (implementation τ H).Ends me ⟨op, .walk .start⟩ Quiet (s.lockPair me p c)
      ⟨op, .check p c⟩ :=
    .surely (surely_validate hinv' hr.sec.live hr.sec.adjacent)
      (.forced (y := (s.lockPair me p c, ⟨op, .callback p c .enter⟩)) (forced rfl hrecheck (by simp)) hcallback)
  exact (walks H me op).ends hq pos.order.ne hwalk hcheck

theorem answers_alone [EquivBEq T] (hinv : ListInv H false s) (hq : Quiet s) (me : τ) (op : SetOp T) :
    ∃ r s', (implementation τ H).Answers me s op r s' ∧ Quiet s' :=
  (ends_alone hinv hq me op).returns.answers

/-! ### The null successor -/

/-- Wherever a thread is about to compare `next->value` in the validation loop,
there is a node to read it from. -/
def NullSafe (L : Lang) (s : Implementation.State τ (Store τ T) (Local T)) : Prop :=
  ∀ t l p c check next, s.pc t = some l → l.pc = .validate p c check next →
    (s.store.node check).key = (s.store.node p).key → successor L s.store check next ≠ none

theorem nullSafe_of_maxUnique [EquivBEq T] [DecidableEq τ] (hmax : MaxUnique H)
    {s : Implementation.State τ (Store τ T) (Local T)} (h : (implementation τ H).system.Reachable s) :
    NullSafe L s := by
  intro t l p c check next hl hpc hk hnone
  obtain ⟨_, ⟨hinv, _⟩, hthread⟩ := (outline τ H).reachable h
  rcases hthread t l hl with ⟨op, _, hp⟩ | ⟨r, hd⟩
  · rw [hpc] at hp
    obtain ⟨pos, _, _, hv⟩ := hp
    exact hv.fault hinv pos hk.le hnone hmax
  · rw [show (outline τ H).Done t r s.store l = DoneAt s.store t r l.pc from rfl, hpc] at hd
    exact hd

/-- A walk that looks for an element sharing the tail's key with the only other
element of the list ends between that one and the tail. -/
theorem stops_behind_only [EquivBEq T] {v w : T} (hinv : ListInv H false s) (hel : s.elements = {v})
    (hv : H.hash v = L.tailKey) (hw : H.hash w = L.tailKey) (hne : (v == w) = false)
    (hs : Stopped H s w c) (hl : s.Live p) (hn : s.next p = some c) :
    c = tail ∧ (s.node p).key = L.tailKey := by
  have hkey : ∀ n, s.Live n → n ≠ head → n ≠ tail →
      (s.node n).value = some v ∧ (s.node n).key = L.tailKey := by
    intro n hln hh ht
    obtain ⟨x, hx, hval, hk⟩ := hinv.exists_element hln hh ht
    rw [hel, Set.mem_singleton_iff] at hx
    subst hx
    exact ⟨hval, hk.trans hv⟩
  have hct : c = tail := by
    by_contra hct
    obtain ⟨hval, hk⟩ := hkey c (hl.tail hn) (hinv.ne_head hn) hct
    have hgo : keepWalking H w (s.node c) = true := by
      refine keepWalking_iff.mpr ⟨by rw [hk, hw], fun _ => ?_⟩
      rw [hval]
      exact (BEq.comm : (w == v) = (v == w)).trans hne
    rw [hs.resolve_left hct] at hgo
    cases hgo
  have hph : p ≠ head := by
    rintro rfl
    obtain ⟨n, hln, hval⟩ : v ∈ s.elements := by rw [hel]; rfl
    have hh : n ≠ head := by
      rintro rfl
      rw [hinv.head_node.2] at hval
      cases hval
    have ht : n ≠ tail := by
      rintro rfl
      rw [hinv.tail_node.2] at hval
      cases hval
    have hbefore : s.Before head n := (hinv.sorted.before hln).resolve_left hh.symm
    rcases hinv.sorted.gap hl hn hln hbefore with h | h
    · exact ht (h.trans hct)
    · exact Store.not_tail_before ht (hct ▸ h)
  exact ⟨hct, (hkey p hl hph (hinv.ne_tail hn)).2⟩

/-- On the empty list, the second walk for a predecessor with the tail's key runs
onto the tail and looks past it. -/
theorem alone_validate_past [EquivBEq T] (hinv : ListInv H false s) (hel : s.elements = ∅)
    (hk : (s.node p).key = L.tailKey) :
    (implementation τ H).Alone me (s, ⟨op, .check p c⟩) (s, ⟨op, .validate p c tail none⟩) := by
  have hhead : (s.node head).next = some tail := hinv.head_next hel
  have htail : (s.node tail).next = none := (hinv.next_none tail (hinv.live_lt hinv.tail_live)).mpr rfl
  have hlt : (s.node head).key < (s.node p).key := by
    rw [hinv.head_node.1, hk]
    cases L <;> decide
  cases L
  · have h₁ : (implementation τ H).Alone me (s, ⟨op, .check p c⟩)
        (s, ⟨op, .validate p c head (some tail)⟩) := .single ⟨true, by simp [implementation, step, hhead]⟩
    exact (h₁.step true (s, ⟨op, .validateNext p c head (some tail)⟩)
        (by simp [implementation, step, hlt])).step true _
      (by simp [implementation, step, successor, htail])
  · have h₁ : (implementation τ H).Alone me (s, ⟨op, .check p c⟩)
        (s, ⟨op, .validate p c head none⟩) := .single ⟨true, by simp [implementation, step]⟩
    exact (h₁.step true (s, ⟨op, .validateNext p c head none⟩)
        (by simp [implementation, step, hlt])).step true _
      (by simp [implementation, step, successor, hhead])

/-- **Two different elements that share the tail's key lead to the null successor**:
a thread walks to the node of the one, looking for the other; before it has locked
the node, another thread removes it; the validation then looks for a node that is no
longer there, and has no key to stop it at the tail. -/
theorem exists_null_successor [EquivBEq T] {v w : T} (hv : H.hash v = L.tailKey)
    (hw : H.hash w = L.tailKey) (hne : (v == w) = false) :
    ∃ s, (implementation Bool H).system.Reachable s ∧ ¬ NullSafe L s := by
  let I := implementation Bool H
  have hinv₀ : ListInv H false (Store.initial L : Store Bool T) := initial_listInv H false
  -- `add(v)` by the first thread.
  obtain ⟨r₁, s₁, ha₁, hq₁⟩ := answers_alone hinv₀ initial_quiet true (.add v)
  obtain ⟨_, hap₁, ⟨hinv₁, rfl⟩, _⟩ := (outline Bool H).answers ⟨hinv₀, rfl⟩ ha₁
  have hel₁ : s₁.elements = {v} := by
    have hempty : (Store.initial L : Store Bool T).elements = ∅ := initial_elements
    rw [hempty] at hap₁
    rcases hap₁.add_cases with ⟨_, _, h⟩ | ⟨h, _⟩
    · rw [h, insert_empty_eq]
    · exact absurd h not_member_empty
  -- `contains(w)` by the same thread, as far as the pair it is about to lock.
  obtain ⟨p, c, hwalk, pos, hs, hl, hn⟩ := walk_alone hinv₁ true w
  obtain ⟨rfl, hk⟩ := stops_behind_only hinv₁ hel₁ hv hw hne hs hl hn
  -- `remove(v)` by the second thread.
  obtain ⟨r₂, s₂, ha₂, hq₂⟩ := answers_alone hinv₁ hq₁ false (.remove v)
  obtain ⟨_, hap₂, ⟨hinv₂, rfl⟩, hg⟩ := (outline Bool H).answers ⟨hinv₁, rfl⟩ ha₂
  have hel₂ : s₂.elements = ∅ := by
    rw [hel₁] at hap₂
    rcases hap₂.remove_cases with ⟨_, _, h⟩ | ⟨h, _⟩
    · rw [h]
      ext x
      simp only [Set.mem_ofPred_eq, Set.mem_singleton_iff, Set.mem_empty_iff_false, iff_false]
      rintro ⟨rfl, hx⟩
      rw [BEq.rfl] at hx
      cases hx
    · exact absurd ⟨v, rfl, BEq.rfl⟩ h
  -- The first thread locks its pair and validates it.
  have hinv₃ : ListInv H false (s₂.lockPair true p tail) := (hq₂.lockPair_inv hinv₂ pos.order.ne).1
  have hk₃ : ((s₂.lockPair true p tail).node p).key = L.tailKey := (Effect.key_eq hg pos.pred_lt).2.trans hk
  have hlook : I.Alone true (s₂, ⟨.contains w, .walk (.lock p tail .neither)⟩)
      (s₂.lockPair true p tail, ⟨.contains w, .validate p tail tail none⟩) :=
    ((walks H true (.contains w)).alone_lock hq₂ pos.order.ne).trans (alone_validate_past hinv₃ hel₂ hk₃)
  -- The three parts as one run.
  have hcall : I.system.step ⟨s₁, fun _ => none⟩ (some (.call true (.contains w)))
      ⟨s₁, Function.update (fun _ => none) true (some ⟨.contains w, .walk .start⟩)⟩ :=
    ⟨.call true (.contains w), rfl⟩
  have hwait : I.system.Path ⟨s₁, fun _ => none⟩ _
      ⟨s₁, Function.update (fun _ => none) true (some ⟨.contains w, .walk (.lock p tail .neither)⟩)⟩ :=
    (System.Path.single hcall).trans
      ((Implementation.alone_of_forced ((walks H true (.contains w)).surely hwalk)).path _)
  have hadd : I.system.Path ⟨.initial L, fun _ => none⟩ _ ⟨s₁, fun _ => none⟩ := ha₁.path rfl
  have hrun := (hadd.trans hwait).trans ((ha₂.path (by simp)).trans (hlook.path _))
  refine ⟨_, ⟨_, hrun⟩, fun hsafe => ?_⟩
  refine hsafe true ⟨.contains w, .validate p tail tail none⟩ p tail tail none (by simp) rfl ?_ ?_
  · exact hinv₃.tail_node.1.trans hk₃.symm
  · cases L
    · rfl
    · exact (hinv₃.next_none tail (hinv₃.live_lt hinv₃.tail_live)).mpr rfl

/-- **The validation never looks past the tail exactly if no two different elements
share the tail's key.** -/
theorem validation_nullSafe_iff [EquivBEq T] (H : Hash L T) :
    (∀ (τ : Type) [DecidableEq τ] (s), (implementation τ H).system.Reachable s → NullSafe L s) ↔
      MaxUnique H := by
  constructor
  · intro hsafe v w hv hw
    by_contra hne
    obtain ⟨s, hs, hnull⟩ := exists_null_successor hv hw (Bool.of_not_eq_true hne)
    exact hnull (hsafe Bool s hs)
  · intro hmax τ _ s hs
    exact nullSafe_of_maxUnique hmax hs

theorem validation_nullSafe_iff_residue :
    (∀ (τ : Type) [DecidableEq τ] (s),
      (implementation τ (residueHash .java)).system.Reachable s → NullSafe .java s) ↔
      MaxUnique (residueHash .java) :=
  validation_nullSafe_iff (residueHash .java)

/-- In both suites a set of numbers that all share the tail's key meets the null
successor. -/
theorem validation_null_successor :
    (∃ s, (implementation Bool (maxHash .cpp)).system.Reachable s ∧ ¬ NullSafe .cpp s) ∧
      ∃ s, (implementation Bool (maxHash .java)).system.Reachable s ∧ ¬ NullSafe .java s :=
  ⟨exists_null_successor (v := 0) (w := 1) rfl rfl rfl,
    exists_null_successor (v := 0) (w := 1) rfl rfl rfl⟩

/-- **The optimistic set is linearizable** for every hash function that never takes
the tail's key, however many elements collide. -/
theorem optimisticSet_linearizable [EquivBEq T] [DecidableEq τ] (H : Hash .cpp T)
    (hmax : ∀ t, H.hash t ≠ Lang.cpp.tailKey) :
    (implementation τ H).Linearizable setSpec ∧
      ∀ s, (implementation τ H).system.Reachable s → ∀ t l, s.pc t = some l → l.pc ≠ .fault :=
  ⟨(outline τ H).linearizable, fun _ hs _ _ hl =>
    never_faults (fun v _ hv => absurd hv (hmax v)) hs hl⟩

theorem optimisticSet_linearizable_residue :
    (implementation ℕ (residueHash .cpp)).Linearizable setSpec ∧
      ∀ s, (implementation ℕ (residueHash .cpp)).system.Reachable s →
        ∀ t l, s.pc t = some l → l.pc ≠ .fault :=
  optimisticSet_linearizable (residueHash .cpp) fun t => by
    simp only [residueHash, Lang.tailKey]
    omega

end ParSweet.Sets.OptimisticSet
