import ParSweet.Sets.Callback

/-! The unlocked walk of the optimistic and the lazy set: from the head to the pair
at which the loop stops, and then on to both mutexes of that pair. Everything on
it may be out of date by the time it is locked; what is left of it is a `Position`
at which the walk has stopped. -/
namespace ParSweet.Sets
open Concurrent

variable {τ T : Type*} [BEq T] {L : Lang}

/-! ### Locking a pair of nodes -/

/-- Which of the two mutexes a thread holds. -/
inductive Held where
  | neither
  | predecessor
  | current
  | both
  deriving DecidableEq

/-- One step towards both mutexes. In C++ this is `std::lock`: it locks one of the
two, whichever it likes (`first`), tries the other, and lets go of the one it has
when the other is busy. In Java it is `predecessor.lock(); current.lock()`. -/
def lockBoth (L : Lang) (me : τ) (s : Store τ T) (predecessor current : NodeId) (first : Bool) :
    Held → Option (Store τ T × Held)
  | .neither =>
    if L = .java ∨ first then (s.tryAcquire me predecessor).map fun s' => (s', .predecessor)
    else (s.tryAcquire me current).map fun s' => (s', .current)
  | .predecessor =>
    match s.tryAcquire me current, L with
    | some s', _ => some (s', .both)
    | none, .cpp => some (s.release predecessor, .neither)
    | none, .java => none
  | .current =>
    match s.tryAcquire me predecessor with
    | some s' => some (s', .both)
    | none => some (s.release current, .neither)
  | .both => none

/-! ### The walk -/

inductive Walk where
  /-- `predecessor = head; current = predecessor->next` -/
  | start
  /-- The loop condition; it loads `current->next`. -/
  | test (predecessor current : NodeId)
  /-- `predecessor = current; current = current->next` -/
  | advance (predecessor current : NodeId)
  | lock (predecessor current : NodeId) (held : Held)

/-- What a step of the walk leads to. -/
inductive Walked where
  | on (w : Walk)
  /-- Both mutexes are held. -/
  | locked (predecessor current : NodeId)
  /-- A null pointer has been dereferenced. -/
  | fault

/-- One atomic step of the walk for `t`; `choice` is for `std::lock`. -/
def Walk.step (H : Hash L T) (me : τ) (s : Store τ T) (t : T) (choice : Bool) :
    Walk → Option (Store τ T × Walked)
  | .start =>
    match (s.node head).next with
    | some current => some (s, .on (.test head current))
    | none => some (s, .fault)
  | .test predecessor current =>
    if (s.node current).next.isSome && keepWalking H t (s.node current) then
      some (s, .on (.advance predecessor current))
    else some (s, .on (.lock predecessor current .neither))
  | .advance _ current =>
    match (s.node current).next with
    | some next => some (s, .on (.test current next))
    | none => some (s, .fault)
  | .lock predecessor current held =>
    (lockBoth L me s predecessor current choice held).map fun p =>
      (p.1, if p.2 = .both then .locked predecessor current
        else .on (.lock predecessor current p.2))

theorem Walk.step_congr {H H' : Hash L T} {t : T} (h : H.hash t = H'.hash t) (w : Walk) (me : τ) (s : Store τ T)
    (choice : Bool) : w.step H me s t choice = w.step H' me s t choice := by
  cases w with
  | test p c => simp only [Walk.step, keepWalking_congr h]
  | _ => rfl

variable {H : Hash L T} {markable : Bool} {s s' : Store τ T} {me u : τ} {t : T} {p c : NodeId}

/-! ### What is known on the walk -/

/-- What a thread holds on its way to both mutexes. -/
def HeldAt (s : Store τ T) (me : τ) (p c : NodeId) : Held → Prop
  | .neither => True
  | .predecessor => s.mutex p = some me
  | .current => s.mutex c = some me
  | .both => s.mutex p = some me ∧ s.mutex c = some me

theorem HeldAt.stable {held : Held} (h : HeldAt s me p c held) (hne : me ≠ u)
    (he : Effect H markable u s s') : HeldAt s' me p c held := by
  cases held with
  | neither => trivial
  | predecessor => exact he.mutex hne h
  | current => exact he.mutex hne h
  | both => exact ⟨he.mutex hne h.1, he.mutex hne h.2⟩

/-- One step towards both mutexes changes nothing but them. -/
theorem lockBoth_step {first : Bool} {held held' : Held} (h : HeldAt s me p c held)
    (hstep : lockBoth L me s p c first held = some (s', held')) :
    Effect H markable me s s' ∧ s'.node = s.node ∧ HeldAt s' me p c held' := by
  cases held with
  | neither =>
    by_cases hf : L = .java ∨ first = true
    · simp only [lockBoth, if_pos hf, Option.map_eq_some_iff, Prod.mk.injEq] at hstep
      obtain ⟨_, ha, rfl, rfl⟩ := hstep
      exact ⟨.acquire ha, Store.tryAcquire_node ha, Store.tryAcquire_held ha⟩
    · simp only [lockBoth, if_neg hf, Option.map_eq_some_iff, Prod.mk.injEq] at hstep
      obtain ⟨_, ha, rfl, rfl⟩ := hstep
      exact ⟨.acquire ha, Store.tryAcquire_node ha, Store.tryAcquire_held ha⟩
  | predecessor =>
    cases ha : s.tryAcquire me c with
    | some s₁ =>
      simp only [lockBoth, ha, Option.some.injEq, Prod.mk.injEq] at hstep
      obtain ⟨rfl, rfl⟩ := hstep
      exact ⟨.acquire ha, Store.tryAcquire_node ha, Store.tryAcquire_keeps ha h, Store.tryAcquire_held ha⟩
    | none =>
      cases L with
      | cpp =>
        simp only [lockBoth, ha, Option.some.injEq, Prod.mk.injEq] at hstep
        obtain ⟨rfl, rfl⟩ := hstep
        exact ⟨.release h, rfl, trivial⟩
      | java => simp [lockBoth, ha] at hstep
  | current =>
    cases ha : s.tryAcquire me p with
    | some s₁ =>
      simp only [lockBoth, ha, Option.some.injEq, Prod.mk.injEq] at hstep
      obtain ⟨rfl, rfl⟩ := hstep
      exact ⟨.acquire ha, Store.tryAcquire_node ha, Store.tryAcquire_held ha, Store.tryAcquire_keeps ha h⟩
    | none =>
      simp only [lockBoth, ha, Option.some.injEq, Prod.mk.injEq] at hstep
      obtain ⟨rfl, rfl⟩ := hstep
      exact ⟨.release h, rfl, trivial⟩
  | both => simp [lockBoth] at hstep

/-- What a call knows on its walk for `t`. -/
def WalkAt (H : Hash L T) (s : Store τ T) (me : τ) (t : T) : Walk → Prop
  | .start => True
  | .test p c => Position H s t p c
  | .advance p c => Position H s t p c ∧ c ≠ tail ∧ keepWalking H t (s.node c) = true
  | .lock p c held => Position H s t p c ∧ Stopped H s t c ∧ HeldAt s me p c held

/-- What is known where a step of the walk leads: never a null pointer. -/
def WalkedAt (H : Hash L T) (s : Store τ T) (me : τ) (t : T) : Walked → Prop
  | .on w => WalkAt H s me t w
  | .locked p c => Position H s t p c ∧ Stopped H s t c ∧ Locked s me p c
  | .fault => False

theorem WalkAt.stable [EquivBEq T] {w : Walk} (h : WalkAt H s me t w) (hinv : ListInv H markable s)
    (hne : me ≠ u) (he : Effect H markable u s s') : WalkAt H s' me t w := by
  cases w with
  | start => trivial
  | test p c => exact Position.stable h hinv he
  | advance p c =>
    obtain ⟨pos, hct, hk⟩ := h
    exact ⟨pos.stable hinv he, hct, by rw [he.keepWalking_eq pos.curr_lt]; exact hk⟩
  | lock p c held =>
    obtain ⟨pos, hs, hheld⟩ := h
    exact ⟨pos.stable hinv he, hs.stable pos.curr_lt he, hheld.stable hne he⟩

/-- **One step of the walk**: it stays on it or ends with both mutexes of a pair at
which it has stopped; it never runs off the list, and the set does not change. -/
theorem walk_step [EquivBEq T] {w : Walk} {choice : Bool} {r : Walked} (hinv : ListInv H markable s)
    (h : WalkAt H s me t w) (hstep : w.step H me s t choice = some (s', r)) :
    Effect H markable me s s' ∧ s'.elements = s.elements ∧ WalkedAt H s' me t r := by
  cases w with
  | start =>
    obtain ⟨c, hc⟩ := hinv.exists_next hinv.bounded.head_lt (by decide)
    simp only [Walk.step, show (s.node head).next = some c from hc, Option.some.injEq,
      Prod.mk.injEq] at hstep
    obtain ⟨rfl, rfl⟩ := hstep
    exact ⟨.same, rfl, Position.start hinv hc⟩
  | test p c =>
    have pos : Position H s t p c := h
    by_cases hk : ((s.node c).next.isSome && keepWalking H t (s.node c)) = true
    · simp only [Walk.step, if_pos hk, Option.some.injEq, Prod.mk.injEq] at hstep
      obtain ⟨rfl, rfl⟩ := hstep
      obtain ⟨hsome, hk⟩ := Bool.and_eq_true_iff.mp hk
      obtain ⟨d, hd⟩ := Option.isSome_iff_exists.mp hsome
      exact ⟨.same, rfl, pos, hinv.ne_tail hd, hk⟩
    · simp only [Walk.step, if_neg hk, Option.some.injEq, Prod.mk.injEq] at hstep
      obtain ⟨rfl, rfl⟩ := hstep
      exact ⟨.same, rfl, pos, hinv.stopped pos.curr_lt (Bool.of_not_eq_true hk), trivial⟩
  | advance p c =>
    obtain ⟨pos, hct, hk⟩ := h
    obtain ⟨d, hd⟩ := hinv.exists_next pos.curr_lt hct
    simp only [Walk.step, show (s.node c).next = some d from hd, Option.some.injEq,
      Prod.mk.injEq] at hstep
    obtain ⟨rfl, rfl⟩ := hstep
    exact ⟨.same, rfl, pos.advance hinv hk hd⟩
  | lock p c held =>
    obtain ⟨pos, hs, hheld⟩ := h
    simp only [Walk.step, Option.map_eq_some_iff, Prod.mk.injEq] at hstep
    obtain ⟨⟨s₁, held'⟩, hl, rfl, rfl⟩ := hstep
    obtain ⟨he, hnode, hheld'⟩ := lockBoth_step hheld hl
    have pos' := pos.stable hinv he
    have hs' := hs.stable pos.curr_lt he
    refine ⟨he, (Store.congr_node hnode).2.2.2, ?_⟩
    by_cases hb : held' = .both
    · subst hb
      exact ⟨pos', hs', hheld'.1, hheld'.2, pos.order.ne⟩
    · simp only [if_neg hb]
      exact ⟨pos', hs', hheld'⟩

end ParSweet.Sets
