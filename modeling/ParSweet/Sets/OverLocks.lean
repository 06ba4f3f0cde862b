import ParSweet.Concurrent.LockCode
import ParSweet.Sets.HandOverHand
import ParSweet.Sets.Linearizable

/-! `FineGrainedSet` of the C++ suite over any lock.

The set is given its mutex type. Hand over hand, a walk takes no mutex it holds and gives up
none it does not (`tidy`), so that any lock that excludes will do.

The store keeps its nodes, and their locks, for ever. In C++ a removed node goes with the last
pointer to it, and a walk that has passed it holds none while it is in the lock's `unlock()`:
from the moment at which that lets the next thread in, the node may be removed and destroyed.
Of the suite's locks only `CLHLock` still uses its own fields then, so it is none for this set;
what `MCSLock` writes afterwards is the thread's queue node, which stays. -/
namespace ParSweet.Sets.FineGrainedSet
open Concurrent

variable {τ T : Type*} [BEq T] {H : Hash .cpp T} {s : Store τ T} {me : τ}

/-- What the next step of a call does with the mutex of a node. -/
def Local.touch (l : Local T) : Touch (Local T) NodeId :=
  match l.pc with
  | .lockHead => .takes head {l with pc := .loadFirst}
  | .lockFirst current => .takes current {l with pc := .readFirst current}
  | .lockNext f => .takes f.current {l with pc := .assign f}
  | .unlockPassed f => .gives f.predecessor {l with pc := .advance f}
  | .assign f => .gives f.currentLock {l with pc := .test {f with currentLock := f.current}}
  | .unlockCurrent f r => .gives f.currentLock {l with pc := .unlockPredecessor f r}
  | .unlockPredecessor f r => .gives f.predecessorLock {l with pc := .returned r}
  | _ => .leaves

/-- A callback does not look at the mutexes. -/
theorem callback_put (h : NodeId → Option τ) (op : SetOp T) (p c : NodeId) (cb : Callback T) :
    cb.step H false {s with mutex := h} op p c =
      ({(cb.step H false s op p c).1 with mutex := h}, (cb.step H false s op p c).2) := by
  cases cb with
  | enter => cases op <;> simp only [Callback.step] <;> split <;> rfl
  | _ => rfl

omit [BEq T] in
theorem tryAcquire_of_free {n : NodeId} (h : s.mutex n = none) :
    s.tryAcquire me n = some {s with mutex := Function.update s.mutex n (some me)} := by
  rw [Store.tryAcquire, h]

theorem step_takes {l l' : Local T} {n : NodeId} (htouch : l.touch = .takes n l') (hfree : s.mutex n = none) :
    step H me s l () = some ({s with mutex := Function.update s.mutex n (some me)}, l') := by
  obtain ⟨op, pc⟩ := l
  cases pc with
  | lockHead | lockFirst current | lockNext f =>
    cases htouch
    simp only [step, tryAcquire_of_free hfree]
  | _ => cases htouch

theorem step_gives {l l' : Local T} {n : NodeId} (htouch : l.touch = .gives n l') :
    step H me s l () = some (s.release n, l') := by
  obtain ⟨op, pc⟩ := l
  cases pc with
  | unlockPassed f | assign f | unlockCurrent f r | unlockPredecessor f r =>
    cases htouch
    rfl
  | _ => cases htouch

theorem step_leaves {l : Local T} (h : NodeId → Option τ) (htouch : l.touch = .leaves) :
    step H me {s with mutex := h} l () = (step H me s l ()).map fun p => ({p.1 with mutex := h}, p.2) := by
  obtain ⟨op, pc⟩ := l
  cases pc with
  | loadFirst | readFirst _ | test _ | advance _ =>
    simp only [step]
    split <;> rfl
  | callback f cb =>
    rcases hcs : cb.step H false s op f.predecessor f.current with ⟨s₁, cb' | r⟩ <;> simp [step, callback_put, hcs]
  | returned r | fault => rfl
  | _ => cases htouch

/-- The set and its mutexes. -/
def guarded (τ : Type*) (H : Hash .cpp T) : Guarded (implementation τ H) NodeId where
  holder := Store.mutex
  put := fun s h => {s with mutex := h}
  touch := Local.touch
  put_holder := fun _ => rfl
  put_put := fun _ _ _ => rfl
  holder_put := fun _ _ => rfl
  takes := fun _ _ _ _ _ _ => step_takes
  gives := fun _ _ _ _ _ _ => step_gives
  leaves := fun _ _ h _ _ => step_leaves h

omit [BEq T] in
theorem wants_of_takes {l l' : Local T} {n : NodeId} (htouch : l.touch = .takes n l') : l.pc.wants = some n := by
  obtain ⟨op, pc⟩ := l
  cases pc with
  | lockHead | lockFirst current | lockNext f =>
    cases htouch
    rfl
  | _ => cases htouch

/-- What a call gives up, it holds. -/
theorem held_of_gives {op : SetOp T} {pc : Pc T} {l' : Local T} {n : NodeId}
    (hat : PendingAt H s me op pc ∨ ∃ r, DoneAt s me r pc) (htouch : Local.touch ⟨op, pc⟩ = .gives n l') :
    s.mutex n = some me := by
  cases pc with
  | unlockPassed f => exact Lang.noConfusion (hat.resolve_right fun hd => hd.elim fun _ h => h).2.1
  | assign f =>
    cases htouch
    obtain ⟨hp, _⟩ := hat.resolve_right fun hd => hd.elim fun _ h => h
    exact (hp.passed rfl).1
  | unlockCurrent f r =>
    cases htouch
    obtain ⟨_, _, haligned, hlocked⟩ := hat.resolve_left id
    rw [haligned.2]
    exact hlocked.curr_held
  | unlockPredecessor f r =>
    cases htouch
    obtain ⟨_, _, hheld⟩ := hat.resolve_left id
    exact hheld
  | _ => cases htouch

theorem tidy [EquivBEq T] [DecidableEq τ] (H : Hash .cpp T) : (guarded τ H).Tidy where
  takes := fun s hs t l n l' hl htouch hheld => by
    obtain ⟨hinv, hat⟩ := call_known H hs hl
    obtain ⟨k, hk, hown⟩ := owned hs t n hheld
    obtain rfl : l = k := Option.some.inj (hl.symm.trans hk)
    exact Links.Before.ne (owns_before hinv hat (leads hs hl) (wants_of_takes htouch) hown) rfl
  gives := fun s hs t l n l' hl htouch => held_of_gives (call_known H hs hl).2 htouch

/-- **Over any lock that excludes, the set is the mathematical set.** -/
theorem overLocks [EquivBEq T] [DecidableEq τ] {κ α ε : Type*} (H : Hash .cpp T) {C : LockCode τ κ α ε}
    (hx : C.Excludes) : IsSet ((guarded τ H).onLocks C) (Guarded.Stand.On fun l => l.pc = .fault) where
  linearizable := Guarded.linearizable hx (tidy H) (fun _ => rfl) (outlineOneOfEach (outline τ H)).linearizable
  noFault := fun _ hs _ _ hl => Guarded.never hx (tidy H) (fun _ => rfl) (fun _ ha _ _ => never_faults H ha) hs hl

end ParSweet.Sets.FineGrainedSet
