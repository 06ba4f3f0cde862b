import ParSweet.Concurrent.LockOrder
import ParSweet.Sets.FineGrainedSet
import ParSweet.Sets.LazySet
import ParSweet.Sets.OptimisticSet

/-! The Java list sets cannot deadlock.

Java's threads wait for one node at a time, holding others. They take the nodes in
the order of the list, which is an order on all nodes ever linked: a successor read
from a node stands behind it in that order, even where the node has left the list. -/
namespace ParSweet.Sets
open Concurrent

variable {τ T : Type*} [BEq T] {H : Hash .java T} {s s' : Store τ T} {me u : τ} {n m p c : NodeId}
  {markable : Bool}

/-- The nodes' mutexes, in the order of the list. -/
def locking {loc : Type*} (wants : loc → Option NodeId) (Thrown : loc → Prop) :
    Locking τ (Store τ T) loc NodeId where
  holder := Store.mutex
  wants := wants
  Thrown := Thrown
  Made := fun s n => n < s.size
  Before := Store.Before

/-! ### Steps and mutexes -/

omit [BEq T] in
theorem Store.tryAcquire_eq_none : s.tryAcquire me n = none ↔ ∃ u, s.mutex n = some u := by
  unfold tryAcquire
  cases s.mutex n <;> simp

omit [BEq T] in
/-- Taking a mutex adds it to those held. -/
theorem Store.held_of_tryAcquire (h : s.tryAcquire me n = some s') (hm : s'.mutex m = some me) :
    m = n ∨ s.mutex m = some me := by
  obtain ⟨_, rfl⟩ := tryAcquire_eq_some.mp h
  by_cases hmn : m = n
  · exact .inl hmn
  · exact .inr (by simpa [hmn] using hm)

omit [BEq T] in
/-- Giving one back takes it away. -/
theorem Store.held_of_release (hm : (s.release n).mutex m = some me) : m ≠ n ∧ s.mutex m = some me := by
  have hmn : m ≠ n := by
    rintro rfl
    simp [release] at hm
  exact ⟨hmn, by simpa [release, hmn] using hm⟩

omit [BEq T] in
/-- Of the two held, one is left. -/
theorem Store.held_of_release_of_two (h : ∀ n, s.mutex n = some me → n = p ∨ n = c)
    (hm : (s.release c).mutex m = some me) : m = p := by
  obtain ⟨hne, hm⟩ := held_of_release hm
  exact (h m hm).resolve_right hne

omit [BEq T] in
/-- Of the one held, none is left. -/
theorem Store.not_held_of_release (h : ∀ n, s.mutex n = some me → n = p) :
    (s.release p).mutex m ≠ some me := by
  intro hm
  obtain ⟨hne, hm⟩ := held_of_release hm
  exact hne (h m hm)

/-- Nobody takes a mutex for somebody else. -/
theorem Effect.mutex_of {L : Lang} {H : Hash L T} (he : Effect H markable me s s') (hne : u ≠ me) (hm : s'.mutex n = some u) :
    s.mutex n = some u := by
  cases he with
  | @acquire k _ ha =>
    obtain ⟨_, rfl⟩ := Store.tryAcquire_eq_some.mp ha
    by_cases hk : n = k
    · subst hk
      simp only [Function.update_self, Option.some.injEq] at hm
      exact absurd hm.symm hne
    · simpa [hk] using hm
  | release _ => exact (Store.held_of_release hm).2
  | same => exact hm
  | mark => exact hm
  | link => exact hm
  | unlink => exact hm

/-! ### The walk -/

/-- The mutexes held on the walk. -/
def Walk.Holds : Walk → NodeId → Prop
  | .lock p _ .predecessor, n => n = p
  | .lock _ c .current, n => n = c
  | .lock p c .both, n => n = p ∨ n = c
  | _, _ => False

def Walked.Holds : Walked → NodeId → Prop
  | .on w, n => w.Holds n
  | .locked p c, n => n = p ∨ n = c
  | .fault, _ => True

/-- The mutex that the walk is about to take: the predecessor's, then the current
node's. -/
def Walk.wants : Walk → Option NodeId
  | .lock p _ .neither => some p
  | .lock _ c .predecessor => some c
  | _ => none

theorem walk_blocks {w : Walk} {t : T} {choice : Bool} (hn : w.wants = some n) :
    w.step H me s t choice = none ↔ ∃ u, s.mutex n = some u := by
  have hmutex : s.tryAcquire me n = none ↔ ∃ u, s.mutex n = some u := Store.tryAcquire_eq_none
  rw [← hmutex]
  cases w with
  | lock p c held =>
    cases held with
    | neither =>
      obtain rfl : p = n := Option.some.inj hn
      simp [Walk.step, lockBoth]
    | predecessor =>
      obtain rfl : c = n := Option.some.inj hn
      cases ha : s.tryAcquire me c <;> simp [Walk.step, lockBoth, ha]
    | _ => cases hn
  | _ => cases hn

theorem walk_own {w : Walk} {t : T} {choice : Bool} {r : Walked}
    (hstep : w.step H me s t choice = some (s', r)) (h : ∀ n, s.mutex n = some me → w.Holds n)
    (hn : s'.mutex n = some me) : r.Holds n := by
  cases w with
  | start =>
    simp only [Walk.step] at hstep
    split at hstep <;> obtain ⟨rfl, rfl⟩ := Prod.mk.inj (Option.some.inj hstep)
    · exact h n hn
    · trivial
  | test p c =>
    simp only [Walk.step] at hstep
    split at hstep <;> obtain ⟨rfl, rfl⟩ := Prod.mk.inj (Option.some.inj hstep) <;> exact h n hn
  | advance p c =>
    simp only [Walk.step] at hstep
    split at hstep <;> obtain ⟨rfl, rfl⟩ := Prod.mk.inj (Option.some.inj hstep)
    · exact h n hn
    · trivial
  | lock p c held =>
    simp only [Walk.step, Option.map_eq_some_iff, Prod.mk.injEq] at hstep
    obtain ⟨⟨s₁, held'⟩, hl, rfl, rfl⟩ := hstep
    cases held with
    | neither =>
      simp only [lockBoth, true_or, if_true, Option.map_eq_some_iff, Prod.mk.injEq] at hl
      obtain ⟨_, ha, rfl, rfl⟩ := hl
      exact (Store.held_of_tryAcquire ha hn).resolve_right fun hm => h n hm
    | predecessor =>
      cases ha : s.tryAcquire me c with
      | none => simp [lockBoth, ha] at hl
      | some s₂ =>
        simp only [lockBoth, ha, Option.some.injEq, Prod.mk.injEq] at hl
        obtain ⟨rfl, rfl⟩ := hl
        exact (Store.held_of_tryAcquire ha hn).symm.imp (h n) id
    | current =>
      cases ha : s.tryAcquire me p with
      | none =>
        simp only [lockBoth, ha, Option.some.injEq, Prod.mk.injEq] at hl
        obtain ⟨rfl, rfl⟩ := hl
        obtain ⟨hne, hm⟩ := Store.held_of_release hn
        exact absurd (h n hm) hne
      | some s₂ =>
        simp only [lockBoth, ha, Option.some.injEq, Prod.mk.injEq] at hl
        obtain ⟨rfl, rfl⟩ := hl
        exact (Store.held_of_tryAcquire ha hn).imp id (h n)
    | both => simp [lockBoth] at hl

/-- The walk wants the current node's mutex while it holds the predecessor's. -/
theorem walk_ascending {w : Walk} {t : T} (h : WalkAt H s me t w) (hn : w.wants = some n)
    (hm : w.Holds m) : s.Before m n := by
  cases w with
  | lock p c held =>
    cases held with
    | predecessor =>
      obtain rfl : c = n := Option.some.inj hn
      obtain rfl : m = p := hm
      exact h.1.order
    | neither => exact hm.elim
    | _ => cases hn
  | _ => cases hn

/-! ### What the three sets have in common -/

/-- What is left to show of a set. -/
theorem disciplined {loc χ A : Type*} {I : Implementation τ (SetOp T) (SetRes T) (Store τ T) loc χ}
    {S : Spec (SetOp T) (SetRes T) A} (P : Outline I S) (wants : loc → Option NodeId) (Thrown : loc → Prop)
    (Holds : loc → NodeId → Prop) (hstore : I.store = .initial .java)
    (hguarantee : ∀ t s s', P.Guarantee t s s' → Effect H markable t s s')
    (hblocks : ∀ t s l n c, wants l = some n → (I.step t s l c = none ↔ ∃ u, s.mutex n = some u))
    (hown : ∀ t s a l c s' l', P.Inv s a → Locking.Annotates P t s l → Locking.Annotates P t s' l' →
      I.step t s l c = some (s', l') → (∀ n, s.mutex n = some t → Holds l n) →
      ∀ n, s'.mutex n = some t → Holds l' n)
    (hreleased : ∀ l, (∃ r, I.result l = some r) ∨ Thrown l → ∀ n, ¬ Holds l n)
    (hascending : ∀ t s a l n m, P.Inv s a → Locking.Annotates P t s l → wants l = some n → Holds l m →
      s.Before m n) : (locking wants Thrown).Disciplined P Holds where
  blocks := hblocks
  initial := fun n => by simp [locking, hstore, Store.initial]
  others := fun t u s s' n hg hne hn => (hguarantee t s s' hg).mutex_of hne hn
  own := hown
  released := hreleased
  ascending := hascending
  irrefl := fun s n hb => (show Links.Before s.sortKey n n from hb).ne rfl
  trans := fun s x y z hxy hyz => (show Links.Before s.sortKey x y from hxy).trans hyz
  total := fun s m n hne => Links.before_total s.sortKey hne
  fixed := fun t s s' m n hg hm hn =>
    ⟨Nat.lt_of_lt_of_le hm (hguarantee t s s' hg).size_le, (hguarantee t s s' hg).before hm hn⟩

/-! ### The lazy set -/

namespace LazySet

/-- The mutexes a call holds. -/
def Pc.Holds : Pc T → NodeId → Prop
  | .walk w, n => w.Holds n
  | .checkPredecessor p c, n => n = p ∨ n = c
  | .checkCurrent p c, n => n = p ∨ n = c
  | .checkNext p c, n => n = p ∨ n = c
  | .callback p c _, n => n = p ∨ n = c
  | .unlockCurrent p c _, n => n = p ∨ n = c
  | .unlockPredecessor p _, n => n = p
  | .returned _, _ => False
  | .fault, _ => False

def Pc.wants : Pc T → Option NodeId
  | .walk w => w.wants
  | _ => none

theorem step_blocks {l : Local T} {choice : Bool} (hn : l.pc.wants = some n) :
    step H me s l choice = none ↔ ∃ u, s.mutex n = some u := by
  obtain ⟨op, pc⟩ := l
  cases pc with
  | walk w =>
    have hwalk : w.step H me s op.element choice = none ↔ ∃ u, s.mutex n = some u := walk_blocks hn
    rw [← hwalk]
    simp only [step]
    rcases w.step H me s op.element choice with _ | ⟨s₁, w' | ⟨p, c⟩ | _⟩ <;> simp
  | _ => cases hn

theorem step_own {l l' : Local T} {choice : Bool} (hfault : l'.pc ≠ .fault)
    (hstep : step H me s l choice = some (s', l')) (h : ∀ n, s.mutex n = some me → l.pc.Holds n)
    (hn : s'.mutex n = some me) : l'.pc.Holds n := by
  obtain ⟨op, pc⟩ := l
  cases pc with
  | walk w =>
    rcases step_walk hstep with ⟨w', hw, rfl⟩ | ⟨p, c, hw, rfl⟩ | ⟨hw, rfl⟩
    · exact walk_own hw h hn
    · exact walk_own hw h hn
    · exact absurd rfl hfault
  | checkPredecessor p c =>
    simp only [step] at hstep
    split at hstep <;> obtain ⟨rfl, rfl⟩ := Prod.mk.inj (Option.some.inj hstep) <;> exact h n hn
  | checkCurrent p c =>
    simp only [step] at hstep
    split at hstep <;> obtain ⟨rfl, rfl⟩ := Prod.mk.inj (Option.some.inj hstep) <;> exact h n hn
  | checkNext p c =>
    simp only [step] at hstep
    split at hstep <;> obtain ⟨rfl, rfl⟩ := Prod.mk.inj (Option.some.inj hstep) <;> exact h n hn
  | callback p c cb =>
    rcases step_callback hstep with ⟨cb', hcs, rfl⟩ | ⟨r, hcs, rfl⟩
    all_goals
      exact h n (callback_mutex hcs ▸ hn)
  | unlockCurrent p c exit =>
    obtain ⟨rfl, rfl⟩ := Prod.mk.inj (Option.some.inj hstep)
    exact Store.held_of_release_of_two h hn
  | unlockPredecessor p exit =>
    cases exit <;> obtain ⟨rfl, rfl⟩ := Prod.mk.inj (Option.some.inj hstep) <;>
      exact (Store.not_held_of_release h hn).elim
  | returned r => cases hstep
  | fault => cases hstep

variable [EquivBEq T] [DecidableEq τ]

omit [DecidableEq τ] in
theorem inOrder (H : Hash .java T) :
    (locking (fun l => l.pc.wants) fun l => l.pc = .fault).Disciplined (outline τ H) fun l => l.pc.Holds := by
  refine disciplined (outline τ H) _ _ (fun l => l.pc.Holds) rfl (fun _ _ _ h => h)
    (fun t s l n c hn => step_blocks hn) (fun t s a l c s' l' _ _ hat' hstep h n hn => ?_) ?_ ?_
  · refine step_own (fun hf => ?_) hstep h hn
    obtain ⟨op, hp⟩ | ⟨r, hd⟩ := hat'
    · exact (hf ▸ hp.2 : PendingAt H s' t op .fault)
    · exact (hf ▸ hd : DoneAt s' t r .fault)
  · rintro ⟨op, pc⟩ (⟨r, hr⟩ | hf) n
    · cases pc with
      | returned r => exact id
      | _ => cases hr
    · rw [show pc = .fault from hf]
      exact id
  · rintro t s a ⟨op, pc⟩ n m _ hat hn hm
    cases pc with
    | walk w =>
      obtain ⟨op', hp⟩ | ⟨r, hd⟩ := hat
      · exact walk_ascending hp.2 hn hm
      · exact hd.elim
    | _ => cases hn

theorem deadlockFree (H : Hash .java T) :
    (locking (fun l => l.pc.wants) fun l => l.pc = .fault).DeadlockFree (implementation τ H) :=
  (inOrder H).deadlockFree

end LazySet

/-! ### The optimistic set -/

namespace OptimisticSet

/-- The mutexes a call holds; one that has thrown has unlocked both. -/
def Pc.Holds : Pc T → NodeId → Prop
  | .walk w, n => w.Holds n
  | .check p c, n => n = p ∨ n = c
  | .validate p c _ _, n => n = p ∨ n = c
  | .validateNext p c _ _, n => n = p ∨ n = c
  | .recheck p c _, n => n = p ∨ n = c
  | .callback p c _, n => n = p ∨ n = c
  | .unlockCurrent p c _, n => n = p ∨ n = c
  | .unlockPredecessor p _, n => n = p
  | .returned _, _ => False
  | .throwCurrent p c, n => n = p ∨ n = c
  | .throwPredecessor p, n => n = p
  | .fault, _ => False

def Pc.wants : Pc T → Option NodeId
  | .walk w => w.wants
  | _ => none

theorem step_blocks {l : Local T} {choice : Bool} (hn : l.pc.wants = some n) :
    step H me s l choice = none ↔ ∃ u, s.mutex n = some u := by
  obtain ⟨op, pc⟩ := l
  cases pc with
  | walk w =>
    have hwalk : w.step H me s op.element choice = none ↔ ∃ u, s.mutex n = some u := walk_blocks hn
    rw [← hwalk]
    simp only [step]
    rcases w.step H me s op.element choice with _ | ⟨s₁, w' | ⟨p, c⟩ | _⟩ <;> simp
  | _ => cases hn

theorem step_own [EquivBEq T] {l l' : Local T} {choice : Bool} (hinv : ListInv H false s)
    (hwalk : ∀ w, l.pc = .walk w → WalkAt H s me l.op.element w)
    (hstep : step H me s l choice = some (s', l')) (h : ∀ n, s.mutex n = some me → l.pc.Holds n)
    (hn : s'.mutex n = some me) : l'.pc.Holds n := by
  obtain ⟨op, pc⟩ := l
  cases pc with
  | walk w =>
    rcases step_walk hstep with ⟨w', hw, rfl⟩ | ⟨p, c, hw, rfl⟩ | ⟨hw, rfl⟩
    · exact walk_own hw h hn
    · exact walk_own hw h hn
    · exact (walk_step hinv (hwalk w rfl) hw).2.2.elim
  | check p c =>
    obtain ⟨rfl, rfl⟩ := Prod.mk.inj (Option.some.inj hstep)
    exact h n hn
  | validate p c check next =>
    simp only [step] at hstep
    repeat' split at hstep
    all_goals
      obtain ⟨rfl, rfl⟩ := Prod.mk.inj (Option.some.inj hstep)
      exact h n hn
  | validateNext p c check next =>
    simp only [step] at hstep
    split at hstep <;> obtain ⟨rfl, rfl⟩ := Prod.mk.inj (Option.some.inj hstep) <;> exact h n hn
  | recheck p c check =>
    simp only [step] at hstep
    split at hstep <;> obtain ⟨rfl, rfl⟩ := Prod.mk.inj (Option.some.inj hstep) <;> exact h n hn
  | callback p c cb =>
    rcases step_callback hstep with ⟨cb', hcs, rfl⟩ | ⟨r, hcs, rfl⟩
    all_goals
      exact h n (callback_mutex hcs ▸ hn)
  | unlockCurrent p c exit =>
    obtain ⟨rfl, rfl⟩ := Prod.mk.inj (Option.some.inj hstep)
    exact Store.held_of_release_of_two h hn
  | unlockPredecessor p exit =>
    cases exit <;> obtain ⟨rfl, rfl⟩ := Prod.mk.inj (Option.some.inj hstep) <;>
      exact (Store.not_held_of_release h hn).elim
  | throwCurrent p c =>
    obtain ⟨rfl, rfl⟩ := Prod.mk.inj (Option.some.inj hstep)
    exact Store.held_of_release_of_two h hn
  | throwPredecessor p =>
    obtain ⟨rfl, rfl⟩ := Prod.mk.inj (Option.some.inj hstep)
    exact (Store.not_held_of_release h hn).elim
  | returned r => cases hstep
  | fault => cases hstep

variable [EquivBEq T] [DecidableEq τ]

omit [DecidableEq τ] in
theorem inOrder (H : Hash .java T) :
    (locking (fun l => l.pc.wants) fun l => l.pc = .fault).Disciplined (outline τ H) fun l => l.pc.Holds := by
  refine disciplined (outline τ H) _ _ (fun l => l.pc.Holds) rfl (fun _ _ _ h => h)
    (fun t s l n c hn => step_blocks hn) (fun t s a l c s' l' hinv hat _ hstep h n hn => ?_)
    ?_ ?_
  · refine step_own hinv.1 (fun w hw => ?_) hstep h hn
    obtain ⟨op, hop, hp⟩ | ⟨r, hd⟩ := hat
    · rw [hw] at hp
      exact hop ▸ hp
    · exact (hw ▸ hd : DoneAt s t r (.walk w)).elim
  · rintro ⟨op, pc⟩ (⟨r, hr⟩ | hf) n
    · cases pc with
      | returned r => exact id
      | _ => cases hr
    · rw [show pc = .fault from hf]
      exact id
  · rintro t s a ⟨op, pc⟩ n m _ hat hn hm
    cases pc with
    | walk w =>
      obtain ⟨op', hp⟩ | ⟨r, hd⟩ := hat
      · exact walk_ascending hp.2 hn hm
      · exact hd.elim
    | _ => cases hn

theorem deadlockFree (H : Hash .java T) :
    (locking (fun l => l.pc.wants) fun l => l.pc = .fault).DeadlockFree (implementation τ H) :=
  (inOrder H).deadlockFree

end OptimisticSet

/-! ### The fine-grained set -/

namespace FineGrainedSet

/-- The mutexes a call holds. -/
def Pc.Holds : Pc T → NodeId → Prop
  | .lockHead, _ => False
  | .loadFirst, n => n = head
  | .lockFirst _, n => n = head
  | .readFirst c, n => n = head ∨ n = c
  | .test f, n => n = f.predecessorLock ∨ n = f.currentLock
  | .unlockPassed f, n => n = f.predecessorLock ∨ n = f.currentLock
  | .advance f, n => n = f.current
  | .lockNext f, n => n = f.predecessorLock
  | .assign f, n => n = f.predecessorLock ∨ n = f.currentLock ∨ n = f.current
  | .callback f _, n => n = f.predecessorLock ∨ n = f.currentLock
  | .unlockCurrent f _, n => n = f.predecessorLock ∨ n = f.currentLock
  | .unlockPredecessor f _, n => n = f.predecessorLock
  | .returned _, _ => False
  | .fault, _ => False

def Pc.wants : Pc T → Option NodeId
  | .lockHead => some head
  | .lockFirst c => some c
  | .lockNext f => some f.current
  | _ => none

theorem step_blocks {l : Local T} (hn : l.pc.wants = some n) :
    step H me s l () = none ↔ ∃ u, s.mutex n = some u := by
  have hmutex : s.tryAcquire me n = none ↔ ∃ u, s.mutex n = some u := Store.tryAcquire_eq_none
  rw [← hmutex]
  obtain ⟨op, pc⟩ := l
  cases pc with
  | lockHead =>
    obtain rfl : head = n := Option.some.inj hn
    cases ha : s.tryAcquire me head <;> simp [step, ha]
  | lockFirst c =>
    obtain rfl : c = n := Option.some.inj hn
    cases ha : s.tryAcquire me c <;> simp [step, ha]
  | lockNext f =>
    obtain rfl : f.current = n := Option.some.inj hn
    cases ha : s.tryAcquire me f.current <;> simp [step, ha]
  | _ => cases hn

/-- In Java the walk unlocks the nodes it has locked; nothing is assigned to a lock. -/
def Pc.Aligned : Pc T → Prop
  | .unlockPassed f => f.Aligned
  | .lockNext f => f.currentLock = f.current
  | .assign _ => False
  | _ => True

theorem PendingAt.pc_aligned {op : SetOp T} {pc : Pc T} (h : PendingAt H s me op pc) : pc.Aligned := by
  cases pc with
  | unlockPassed f => exact h.1.aligned
  | lockNext f => exact h.curr_lock rfl
  | assign f => exact Lang.noConfusion h.2.1
  | _ => trivial

omit [BEq T] in
theorem DoneAt.pc_aligned {r : SetRes T} {pc : Pc T} (h : DoneAt s me r pc) : pc.Aligned := by
  cases pc with
  | unlockPassed f => exact h.elim
  | lockNext f => exact h.elim
  | assign f => exact h.elim
  | _ => trivial

theorem step_own {l l' : Local T} (hal : l.pc.Aligned) (hfault : l'.pc ≠ .fault)
    (hstep : step H me s l () = some (s', l')) (h : ∀ n, s.mutex n = some me → l.pc.Holds n)
    (hn : s'.mutex n = some me) : l'.pc.Holds n := by
  obtain ⟨op, pc⟩ := l
  cases pc with
  | lockHead =>
    cases ha : s.tryAcquire me head with
    | none => simp [step, ha] at hstep
    | some s₁ =>
      simp only [step, ha, Option.some.injEq, Prod.mk.injEq] at hstep
      obtain ⟨rfl, rfl⟩ := hstep
      exact (Store.held_of_tryAcquire ha hn).resolve_right fun hm => h n hm
  | loadFirst =>
    simp only [step] at hstep
    split at hstep <;> obtain ⟨rfl, rfl⟩ := Prod.mk.inj (Option.some.inj hstep)
    · exact h n hn
    · exact absurd rfl hfault
  | lockFirst c =>
    cases ha : s.tryAcquire me c with
    | none => simp [step, ha] at hstep
    | some s₁ =>
      simp only [step, ha, Option.some.injEq, Prod.mk.injEq] at hstep
      obtain ⟨rfl, rfl⟩ := hstep
      exact (Store.held_of_tryAcquire ha hn).symm.imp (h n) id
  | readFirst c =>
    simp only [step] at hstep
    split at hstep <;> obtain ⟨rfl, rfl⟩ := Prod.mk.inj (Option.some.inj hstep)
    · exact h n hn
    · exact absurd rfl hfault
  | test f =>
    simp only [step] at hstep
    split at hstep <;> obtain ⟨rfl, rfl⟩ := Prod.mk.inj (Option.some.inj hstep) <;> exact h n hn
  | unlockPassed f =>
    obtain ⟨rfl, rfl⟩ := Prod.mk.inj (Option.some.inj hstep)
    obtain ⟨hne, hm⟩ := Store.held_of_release hn
    obtain ⟨hp, hc⟩ : f.Aligned := hal
    exact ((h n hm).resolve_left (hp ▸ hne)).trans hc
  | advance f =>
    cases hd : (s.node f.current).next with
    | none =>
      simp only [step, hd, Option.some.injEq, Prod.mk.injEq] at hstep
      obtain ⟨rfl, rfl⟩ := hstep
      exact absurd rfl hfault
    | some d =>
      simp only [step, hd, Option.some.injEq, Prod.mk.injEq] at hstep
      obtain ⟨rfl, rfl⟩ := hstep
      exact h n hn
  | lockNext f =>
    cases ha : s.tryAcquire me f.current with
    | none => simp [step, ha] at hstep
    | some s₁ =>
      simp only [step, ha, Option.some.injEq, Prod.mk.injEq] at hstep
      obtain ⟨rfl, rfl⟩ := hstep
      have hc : f.currentLock = f.current := hal
      exact (Store.held_of_tryAcquire ha hn).symm.imp (h n) fun he => he.trans hc.symm
  | assign f => exact hal.elim
  | callback f cb =>
    rcases step_callback hstep with ⟨cb', hcs, rfl⟩ | ⟨r, hcs, rfl⟩
    all_goals
      exact h n (callback_mutex hcs ▸ hn)
  | unlockCurrent f r =>
    obtain ⟨rfl, rfl⟩ := Prod.mk.inj (Option.some.inj hstep)
    exact Store.held_of_release_of_two h hn
  | unlockPredecessor f r =>
    obtain ⟨rfl, rfl⟩ := Prod.mk.inj (Option.some.inj hstep)
    exact (Store.not_held_of_release h hn).elim
  | returned r => cases hstep
  | fault => cases hstep

theorem ascending {op : SetOp T} {pc : Pc T} (hinv : ListInv H false s) (h : PendingAt H s me op pc)
    (hn : pc.wants = some n) (hm : pc.Holds m) : s.Before m n := by
  cases pc with
  | lockHead => exact hm.elim
  | lockFirst c =>
    obtain rfl : c = n := Option.some.inj hn
    obtain rfl : m = head := hm
    exact hinv.sorted.ordered h.2
  | lockNext f =>
    obtain rfl : f.current = n := Option.some.inj hn
    obtain rfl : m = f.predecessorLock := hm
    have hen : Entering H s me op.element f := h
    rw [hen.pred_lock]
    exact hen.pos.order
  | _ => cases hn

variable [EquivBEq T] [DecidableEq τ]

omit [DecidableEq τ] in
theorem inOrder (H : Hash .java T) :
    (locking (fun l => l.pc.wants) fun l => l.pc = .fault).Disciplined (outline τ H) fun l => l.pc.Holds := by
  refine disciplined (outline τ H) _ _ (fun l => l.pc.Holds) rfl (fun _ _ _ h => h)
    (fun t s l n c hn => step_blocks hn) (fun t s a l c s' l' _ hat hat' hstep h n hn => ?_)
    ?_ ?_
  · refine step_own ?_ (fun hf => ?_) hstep h hn
    · obtain ⟨op, hp⟩ | ⟨r, hd⟩ := hat
      · exact hp.2.pc_aligned
      · exact DoneAt.pc_aligned hd
    · obtain ⟨op, hp⟩ | ⟨r, hd⟩ := hat'
      · exact (hf ▸ hp.2 : PendingAt H s' t op .fault)
      · exact (hf ▸ hd : DoneAt s' t r .fault)
  · rintro ⟨op, pc⟩ (⟨r, hr⟩ | hf) n
    · cases pc with
      | returned r => exact id
      | _ => cases hr
    · rw [show pc = .fault from hf]
      exact id
  · rintro t s a ⟨op, pc⟩ n m hinv (⟨op', hp⟩ | ⟨r, hd⟩) hn hm
    · exact ascending hinv.1 hp.2 hn hm
    · cases pc with
      | lockHead => exact hd.elim
      | lockFirst c => exact hd.elim
      | lockNext f => exact hd.elim
      | _ => cases hn

theorem deadlockFree (H : Hash .java T) :
    (locking (fun l => l.pc.wants) fun l => l.pc = .fault).DeadlockFree (implementation τ H) :=
  (inOrder H).deadlockFree

end FineGrainedSet

/-- **The Java list sets cannot deadlock**, whatever the hash codes: nobody ever waits
for itself through any number of others, because all take the nodes in one order. -/
theorem javaSets_deadlockFree [EquivBEq T] [DecidableEq τ] (H : Hash .java T) :
    (locking (fun l => l.pc.wants) fun l => l.pc = .fault).DeadlockFree
        (FineGrainedSet.implementation τ H) ∧
      (locking (fun l => l.pc.wants) fun l => l.pc = .fault).DeadlockFree
        (OptimisticSet.implementation τ H) ∧
      (locking (fun l => l.pc.wants) fun l => l.pc = .fault).DeadlockFree
        (LazySet.implementation τ H) :=
  ⟨FineGrainedSet.deadlockFree H, OptimisticSet.deadlockFree H, LazySet.deadlockFree H⟩

theorem javaSets_deadlockFree_residue :
    (locking (fun l => l.pc.wants) fun l => l.pc = .fault).DeadlockFree
        (FineGrainedSet.implementation ℕ (residueHash .java)) ∧
      (locking (fun l => l.pc.wants) fun l => l.pc = .fault).DeadlockFree
        (OptimisticSet.implementation ℕ (residueHash .java)) ∧
      (locking (fun l => l.pc.wants) fun l => l.pc = .fault).DeadlockFree
        (LazySet.implementation ℕ (residueHash .java)) :=
  javaSets_deadlockFree (residueHash .java)

end ParSweet.Sets
