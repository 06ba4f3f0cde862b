import ParSweet.Sets.FineGrainedSet
import ParSweet.Sets.LazySet
import ParSweet.Sets.OptimisticSet

/-! The Java sets when an element's `equals` or the lock supplier throws.

Where a step of `find` or of a callback runs such foreign code, the call may go over to
its `finally` blocks (`throwing`). Up to there it has only taken and let go of mutexes, and
the `finally` blocks let go of those it still holds; once a callback has begun to change
the list, nothing throws any more (`ThrowsEarly`). So a call that ends with an exception
leaves everything as it was (`FailsClean`). -/
namespace ParSweet.Sets
open Concurrent

variable {τ T loc χ : Type*}

/-! ### Exceptions -/

/-- The `finally` blocks that are left. -/
inductive Unwind where
  /-- `current.unlock()` -/
  | unlockCurrent (predecessor current : NodeId)
  /-- `predecessor.unlock()` -/
  | unlockPredecessor (predecessor : NodeId)
  /-- The call has ended with the exception. -/
  | thrown

/-- A call runs, or an exception is on its way out of it. -/
inductive Throwing (loc : Type*) where
  | running (l : loc)
  | unwinding (u : Unwind)

/-- The set `I` in which foreign code may throw: `handler` says at which steps there is any, and
which `finally` blocks the exception leads to. The choice `none` is for it to throw. -/
def throwing (I : Implementation τ (SetOp T) (SetRes T) (Store τ T) loc χ)
    (handler : Store τ T → loc → Option Unwind) :
    Implementation τ (SetOp T) (SetRes T) (Store τ T) (Throwing loc) (Option χ) where
  store := I.store
  start := fun op => .running (I.start op)
  step := fun me s l choice =>
    match l, choice with
    | .running l, some c => (I.step me s l c).map fun p => (p.1, .running p.2)
    | .running l, none => (handler s l).map fun u => (s, .unwinding u)
    | .unwinding (.unlockCurrent predecessor current), _ =>
      some (s.release current, .unwinding (.unlockPredecessor predecessor))
    | .unwinding (.unlockPredecessor predecessor), _ => some (s.release predecessor, .unwinding .thrown)
    | .unwinding .thrown, _ => none
  result := fun
    | .running l => I.result l
    | .unwinding _ => none

/-- The steps of one call, among those of others, who may do what they like except with the
mutexes the call holds. -/
def Among (I : Implementation τ (SetOp T) (SetRes T) (Store τ T) loc χ) (me : τ) :
    Store τ T × loc → Store τ T × loc → Prop :=
  Relation.ReflTransGen fun x y => (∃ c, I.step me x.1 x.2 c = some y) ∨
    (y.2 = x.2 ∧ ∀ n, y.1.mutex n = some me ↔ x.1.mutex n = some me)

/-- A call of `me` that ends with an exception, having begun with no mutex held, leaves everything
as it was if it runs alone; among others it has changed no node, no link and no mark in any of
its steps, and holds no mutex. -/
structure FailsClean (I : Implementation τ (SetOp T) (SetRes T) (Store τ T) (Throwing loc) χ) (me : τ) :
    Prop where
  alone : ∀ op s s', (∀ n, s.mutex n ≠ some me) → I.Alone me (s, I.start op) (s', .unwinding .thrown) → s' = s
  unlocked : ∀ op s s', (∀ n, s.mutex n ≠ some me) → Among I me (s, I.start op) (s', .unwinding .thrown) →
    ∀ n, s'.mutex n ≠ some me
  untouched : ∀ op s x y s', (∀ n, s.mutex n ≠ some me) → Among I me (s, I.start op) x →
    (∃ c, I.step me x.1 x.2 c = some y) → Among I me y (s', .unwinding .thrown) →
    y.1.size = x.1.size ∧ y.1.node = x.1.node ∧ y.1.deleted = x.1.deleted

/-! ### What a call holds -/

variable {s s' : Store τ T} {me : τ} {n p c : NodeId} {ns : List NodeId}

/-- The mutexes `me` holds are those of these nodes. -/
def Holds (s : Store τ T) (me : τ) (ns : List NodeId) : Prop :=
  ns.Nodup ∧ ∀ n, s.mutex n = some me ↔ n ∈ ns

theorem Holds.acquire (h : Holds s me ns) (ha : s.tryAcquire me n = some s') : Holds s' me (n :: ns) := by
  obtain ⟨hfree, rfl⟩ := Store.tryAcquire_eq_some.mp ha
  refine ⟨List.nodup_cons.mpr ⟨fun hn => ?_, h.1⟩, fun m => ?_⟩
  · rw [(h.2 n).mpr hn] at hfree
    cases hfree
  · by_cases hm : m = n
    · subst hm
      simp
    · simpa [hm] using h.2 m

theorem Holds.release (h : Holds s me (n :: ns)) : Holds (s.release n) me ns := by
  obtain ⟨hn, hnd⟩ := List.nodup_cons.mp h.1
  refine ⟨hnd, fun m => ?_⟩
  by_cases hm : m = n
  · subst hm
    simpa [Store.release] using hn
  · simpa [Store.release, hm] using h.2 m

/-- The order does not matter. -/
theorem Holds.swap (h : Holds s me [p, c]) : Holds s me [c, p] :=
  ⟨(List.Perm.swap c p []).nodup_iff.mp h.1, fun n => (h.2 n).trans (List.Perm.swap c p []).mem_iff⟩

/-- Nobody else takes it away. -/
theorem Holds.among (h : Holds s me ns) (hs : ∀ n, s'.mutex n = some me ↔ s.mutex n = some me) :
    Holds s' me ns :=
  ⟨h.1, fun n => (hs n).trans (h.2 n)⟩

/-- A change to free mutexes and mutexes of `me`, and to nothing else. -/
structure OnlyMutexes (me : τ) (s s' : Store τ T) : Prop where
  size : s'.size = s.size
  node : s'.node = s.node
  deleted : s'.deleted = s.deleted
  mutex : ∀ n, s'.mutex n = s.mutex n ∨
    ((s.mutex n = none ∨ s.mutex n = some me) ∧ (s'.mutex n = none ∨ s'.mutex n = some me))

theorem OnlyMutexes.refl : OnlyMutexes me s s := ⟨rfl, rfl, rfl, fun _ => .inl rfl⟩

theorem OnlyMutexes.trans {s'' : Store τ T} (h : OnlyMutexes me s s') (h' : OnlyMutexes me s' s'') :
    OnlyMutexes me s s'' where
  size := h'.size.trans h.size
  node := h'.node.trans h.node
  deleted := h'.deleted.trans h.deleted
  mutex := fun n => by
    have h₁ := h.mutex n
    have h₂ := h'.mutex n
    grind

theorem OnlyMutexes.acquire (ha : s.tryAcquire me n = some s') : OnlyMutexes me s s' := by
  obtain ⟨hfree, rfl⟩ := Store.tryAcquire_eq_some.mp ha
  refine ⟨rfl, rfl, rfl, fun m => ?_⟩
  by_cases hm : m = n
  · subst hm
    simp [hfree]
  · simp [hm]

theorem OnlyMutexes.release (h : Holds s me (n :: ns)) : OnlyMutexes me s (s.release n) := by
  refine ⟨rfl, rfl, rfl, fun m => ?_⟩
  by_cases hm : m = n
  · subst hm
    exact .inr ⟨.inr ((h.2 m).mpr List.mem_cons_self), .inl (by simp [Store.release])⟩
  · simp [Store.release, hm]

/-- Who holds nothing before and after has changed nothing. -/
theorem OnlyMutexes.eq (h : OnlyMutexes me s s') (hs : Holds s me []) (hs' : Holds s' me []) : s' = s := by
  have hm : s'.mutex = s.mutex := by
    funext n
    have h₀ := hs.2 n
    have h₁ := hs'.2 n
    have h₂ := h.mutex n
    simp only [List.not_mem_nil, iff_false] at h₀ h₁
    grind
  cases s
  cases s'
  obtain ⟨rfl, rfl, rfl, _⟩ := h
  cases hm
  rfl

/-! ### Throwing early -/

/-- The mutexes held where an exception is on its way out. -/
def Unwind.Holding (s : Store τ T) (me : τ) : Unwind → Prop
  | .unlockCurrent p c => Holds s me [p, c]
  | .unlockPredecessor p => Holds s me [p]
  | .thrown => Holds s me []

/-- `Holding` says which mutexes a call holds until it is `Committed`: until then it has changed
nothing else, and from then on nothing throws. -/
structure ThrowsEarly (I : Implementation τ (SetOp T) (SetRes T) (Store τ T) loc χ)
    (handler : Store τ T → loc → Option Unwind) (me : τ) (Holding : Store τ T → loc → Prop)
    (Committed : loc → Prop) : Prop where
  start : ∀ op s, Holds s me [] → Holding s (I.start op)
  among : ∀ s s' l, Holding s l → (∀ n, s'.mutex n = some me ↔ s.mutex n = some me) → Holding s' l
  step : ∀ s l c s' l', Holding s l → I.step me s l c = some (s', l') →
    Committed l' ∨ (Holding s' l' ∧ OnlyMutexes me s s')
  committed : ∀ s l c s' l', Committed l → I.step me s l c = some (s', l') → Committed l'
  handler : ∀ s l u, handler s l = some u → ¬ Committed l ∧ (Holding s l → u.Holding s me)

section Clean
variable {I : Implementation τ (SetOp T) (SetRes T) (Store τ T) loc χ} {handler : Store τ T → loc → Option Unwind}
  {Holding : Store τ T → loc → Prop} {Committed : loc → Prop} {x y : Store τ T × Throwing loc}

/-- The call is committed. -/
def Throwing.Past (Committed : loc → Prop) : Throwing loc → Prop
  | .running l => Committed l
  | .unwinding _ => False

/-- The call is committed, or holds what it should. -/
def Throwing.At (Holding : Store τ T → loc → Prop) (Committed : loc → Prop) (s : Store τ T) (me : τ) :
    Throwing loc → Prop
  | .running l => Committed l ∨ Holding s l
  | .unwinding u => u.Holding s me

variable (E : ThrowsEarly I handler me Holding Committed)
include E

/-- **One step of a call**: unless it is committed then, only mutexes have changed. -/
theorem ThrowsEarly.at_step {c : Option χ} (h : x.2.At Holding Committed x.1 me)
    (hstep : (throwing I handler).step me x.1 x.2 c = some y) :
    y.2.At Holding Committed y.1 me ∧ (y.2.Past Committed ∨ OnlyMutexes me x.1 y.1) := by
  obtain ⟨s, l⟩ := x
  cases l with
  | running l =>
    cases c with
    | some c =>
      obtain ⟨⟨s', l'⟩, hl, rfl⟩ := Option.map_eq_some_iff.mp hstep
      have hdone : Committed l' ∨ (Holding s' l' ∧ OnlyMutexes me s s') := by
        rcases h with h | h
        · exact .inl (E.committed s l c s' l' h hl)
        · exact E.step s l c s' l' h hl
      rcases hdone with h' | ⟨h', hm⟩
      · exact ⟨.inl h', .inl h'⟩
      · exact ⟨.inr h', .inr hm⟩
    | none =>
      obtain ⟨u, hu, rfl⟩ := Option.map_eq_some_iff.mp hstep
      obtain ⟨hnot, hhold⟩ := E.handler s l u hu
      exact ⟨hhold (h.resolve_left hnot), .inr .refl⟩
  | unwinding u =>
    cases u with
    | unlockCurrent p n =>
      have h : Holds s me [p, n] := h
      obtain rfl := Option.some.inj hstep
      exact ⟨h.swap.release, .inr (.release h.swap)⟩
    | unlockPredecessor p =>
      have h : Holds s me [p] := h
      obtain rfl := Option.some.inj hstep
      exact ⟨h.release, .inr (.release h)⟩
    | thrown => cases hstep

/-- Once committed, always committed. -/
theorem ThrowsEarly.past (h : x.2.Past Committed) (hx : Among (throwing I handler) me x y) :
    y.2.Past Committed := by
  induction hx with
  | refl => exact h
  | @tail y z _ hstep ih =>
    rcases hstep with ⟨c, hc⟩ | ⟨hsame, _⟩
    · obtain ⟨s, l⟩ := y
      cases l with
      | unwinding u => exact ih.elim
      | running l =>
        cases c with
        | none =>
          obtain ⟨u, hu, rfl⟩ := Option.map_eq_some_iff.mp hc
          exact ((E.handler s l u hu).1 ih).elim
        | some c =>
          obtain ⟨⟨s', l'⟩, hl, rfl⟩ := Option.map_eq_some_iff.mp hc
          exact E.committed s l c s' l' ih hl
    · rw [hsame]
      exact ih

theorem ThrowsEarly.at_among (h : x.2.At Holding Committed x.1 me) (hx : Among (throwing I handler) me x y) :
    y.2.At Holding Committed y.1 me := by
  induction hx with
  | refl => exact h
  | @tail y z _ hstep ih =>
    rcases hstep with ⟨c, hc⟩ | ⟨hsame, hm⟩
    · exact (E.at_step ih hc).1
    · obtain ⟨s, l⟩ := y
      obtain ⟨s', l'⟩ := z
      obtain rfl : l' = l := hsame
      cases l' with
      | running l => exact ih.imp id fun h => E.among s s' l h hm
      | unwinding u => cases u <;> exact Holds.among ih hm

/-- **Code that throws early fails clean.** -/
theorem ThrowsEarly.failsClean : FailsClean (throwing I handler) me := by
  have hnone : ∀ {s : Store τ T}, (∀ n, s.mutex n ≠ some me) → Holds s me [] := fun h =>
    ⟨List.nodup_nil, fun n => iff_of_false (h n) List.not_mem_nil⟩
  have hstart : ∀ op s, (∀ n, s.mutex n ≠ some me) →
      ((throwing I handler).start op).At Holding Committed s me := fun op s h => .inr (E.start op s (hnone h))
  refine ⟨fun op s s' h halone => ?_, fun op s s' h hamong n hn => ?_, fun op s x y s' h hx hstep hy => ?_⟩
  · have hall : ∀ {z}, (throwing I handler).Alone me (s, (throwing I handler).start op) z →
        z.2.At Holding Committed z.1 me ∧ (z.2.Past Committed ∨ OnlyMutexes me s z.1) := by
      intro z hz
      induction hz with
      | refl => exact ⟨hstart op s h, .inr .refl⟩
      | @tail y z _ hstep ih =>
        obtain ⟨c, hc⟩ := hstep
        obtain ⟨hat, hdone⟩ := E.at_step ih.1 hc
        refine ⟨hat, ?_⟩
        rcases ih.2 with hpast | hm
        · exact .inl (E.past hpast (.single (.inl ⟨c, hc⟩)))
        · exact hdone.imp id hm.trans
    obtain ⟨hat, hpast | hm⟩ := hall halone
    · exact hpast.elim
    · exact hm.eq (hnone h) hat
  · have hend : Holds s' me [] := E.at_among (hstart op s h) hamong
    exact List.not_mem_nil ((hend.2 n).mp hn)
  · obtain ⟨c, hc⟩ := hstep
    rcases (E.at_step (E.at_among (hstart op s h) hx) hc).2 with hpast | hm
    · exact (E.past hpast hy).elim
    · exact ⟨hm.size, hm.node, hm.deleted⟩

end Clean

/-! ### The three sets -/

section Sets
variable [BEq T] {H : Hash .java T}

/-- Whether the loop condition of `find` compares elements: `key == current.key` is reached and holds. -/
def compares (H : Hash .java T) (t : T) (current : AtomicNode T) : Bool :=
  current.next.isSome && decide (current.key ≤ H.hash t) && decide (H.hash t = current.key)

/-- Only its first step compares elements and makes a node. -/
theorem Callback.step_ne_enter {markable : Bool} {op : SetOp T} {cb : Callback T} :
    cb.step H markable s op p c ≠ (s', .inl .enter) := by
  cases cb with
  | enter =>
    cases op with
    | contains t | getEqual t => simp [Callback.step]
    | add t => by_cases hit : (some t == (s.node c).value) = true <;> simp [Callback.step, hit]
    | remove t => by_cases hit : (some t == (s.node c).value) = true <;> cases markable <;> simp [Callback.step, hit]
  | _ => simp [Callback.step]

/-- What the unlocked walk holds: nothing, until it locks the predecessor. -/
def WalkHolds (s : Store τ T) (me : τ) : Walk → Prop
  | .start | .test _ _ | .advance _ _ | .lock _ _ .neither => Holds s me []
  | .lock p _ .predecessor => Holds s me [p]
  | .lock _ _ .current | .lock _ _ .both => False

omit [BEq T] in
theorem WalkHolds.among {w : Walk} (h : WalkHolds s me w) (hs : ∀ n, s'.mutex n = some me ↔ s.mutex n = some me) :
    WalkHolds s' me w := by
  cases w with
  | lock p c held =>
    cases held with
    | neither | predecessor => exact Holds.among h hs
    | current | both => exact h
  | _ => exact Holds.among h hs

/-- One step of the walk changes nothing but mutexes, and ends with both. -/
theorem WalkHolds.step {w : Walk} {t : T} {choice : Bool} {r : Walked} (h : WalkHolds s me w)
    (hstep : w.step H me s t choice = some (s', r)) :
    OnlyMutexes me s s' ∧
      match r with
      | .on w' => WalkHolds s' me w'
      | .locked p c => Holds s' me [p, c]
      | .fault => Holds s' me [] := by
  cases w with
  | start =>
    simp only [Walk.step] at hstep
    split at hstep <;> cases hstep <;> exact ⟨.refl, h⟩
  | test p c =>
    simp only [Walk.step] at hstep
    split at hstep <;> cases hstep <;> exact ⟨.refl, h⟩
  | advance p c =>
    simp only [Walk.step] at hstep
    split at hstep <;> cases hstep <;> exact ⟨.refl, h⟩
  | lock p c held =>
    cases held with
    | neither =>
      have h : Holds s me [] := h
      simp only [Walk.step, lockBoth, true_or, if_true, Option.map_map, Option.map_eq_some_iff] at hstep
      obtain ⟨s₁, ha, heq⟩ := hstep
      cases heq
      exact ⟨.acquire ha, h.acquire ha⟩
    | predecessor =>
      have h : Holds s me [p] := h
      simp only [Walk.step, lockBoth] at hstep
      cases ha : s.tryAcquire me c with
      | none => simp [ha] at hstep
      | some s₁ =>
        simp only [ha, Option.map_some, if_true, Option.some.injEq, Prod.mk.injEq] at hstep
        obtain ⟨rfl, rfl⟩ := hstep
        exact ⟨.acquire ha, (h.acquire ha).swap⟩
    | current | both => exact h.elim

/-! #### `FineGrainedSet` -/

namespace FineGrainedSet

/-- The `finally` blocks around the loop and the callback. -/
def handler (H : Hash .java T) (s : Store τ T) (l : Local T) : Option Unwind :=
  match l.pc with
  | .test f =>
    if compares H l.op.element (s.node f.current) then some (.unlockCurrent f.predecessor f.current) else none
  | .callback f .enter => some (.unlockCurrent f.predecessor f.current)
  | _ => none

/-- The callback is past its comparison. -/
def Committed (l : Local T) : Prop :=
  match l.pc with
  | .callback _ .enter => False
  | .callback _ _ | .unlockCurrent _ _ | .unlockPredecessor _ _ | .returned _ => True
  | _ => False

def Holding (s : Store τ T) (me : τ) (l : Local T) : Prop :=
  match l.pc with
  | .lockHead => Holds s me []
  | .loadFirst | .lockFirst _ => Holds s me [head]
  | .test f | .unlockPassed f | .callback f _ => f.Aligned ∧ Holds s me [f.predecessor, f.current]
  | .advance f => Holds s me [f.current]
  | .lockNext f => f.Aligned ∧ Holds s me [f.predecessor]
  | .readFirst _ | .assign _ => False
  | .unlockCurrent _ _ | .unlockPredecessor _ _ | .returned _ | .fault => True

/-- A callback has made its comparison in its first step. -/
theorem committed_callback {op : SetOp T} {f : Frame} {cb : Callback T} {l' : Local T}
    (hstep : step H me s ⟨op, .callback f cb⟩ () = some (s', l')) : Committed l' := by
  rcases step_callback hstep with ⟨cb', hcb, rfl⟩ | ⟨r, hcb, rfl⟩
  · cases cb' with
    | enter => exact absurd hcb Callback.step_ne_enter
    | _ => trivial
  · trivial

theorem holding_step {l l' : Local T} (h : Holding s me l) (hstep : step H me s l () = some (s', l')) :
    Committed l' ∨ (Holding s' me l' ∧ OnlyMutexes me s s') := by
  obtain ⟨op, pc⟩ := l
  cases pc with
  | lockHead =>
    have h : Holds s me [] := h
    cases ha : s.tryAcquire me head with
    | none => simp [step, ha] at hstep
    | some s₁ =>
      simp only [step, ha, Option.some.injEq, Prod.mk.injEq] at hstep
      obtain ⟨rfl, rfl⟩ := hstep
      exact .inr ⟨h.acquire ha, .acquire ha⟩
  | loadFirst =>
    simp only [step] at hstep
    split at hstep <;> cases hstep
    · exact .inr ⟨h, .refl⟩
    · exact .inr ⟨trivial, .refl⟩
  | lockFirst n =>
    have h : Holds s me [head] := h
    cases ha : s.tryAcquire me n with
    | none => simp [step, ha] at hstep
    | some s₁ =>
      simp only [step, ha, Option.some.injEq, Prod.mk.injEq] at hstep
      obtain ⟨rfl, rfl⟩ := hstep
      exact .inr ⟨⟨⟨rfl, rfl⟩, (h.acquire ha).swap⟩, .acquire ha⟩
  | test f =>
    simp only [step] at hstep
    split at hstep <;> cases hstep <;> exact .inr ⟨h, .refl⟩
  | unlockPassed f =>
    obtain ⟨_, hheld⟩ := h
    cases hstep
    exact .inr ⟨hheld.release, .release hheld⟩
  | advance f =>
    simp only [step] at hstep
    cases hn : (s.node f.current).next with
    | some d =>
      simp only [hn, Option.some.injEq, Prod.mk.injEq] at hstep
      obtain ⟨rfl, rfl⟩ := hstep
      exact .inr ⟨⟨⟨rfl, rfl⟩, h⟩, .refl⟩
    | none =>
      simp only [hn, Option.some.injEq, Prod.mk.injEq] at hstep
      obtain ⟨rfl, rfl⟩ := hstep
      exact .inr ⟨trivial, .refl⟩
  | lockNext f =>
    obtain ⟨haligned, hheld⟩ := h
    cases ha : s.tryAcquire me f.current with
    | none => simp [step, ha] at hstep
    | some s₁ =>
      simp only [step, ha, Option.some.injEq, Prod.mk.injEq] at hstep
      obtain ⟨rfl, rfl⟩ := hstep
      exact .inr ⟨⟨haligned, (hheld.acquire ha).swap⟩, .acquire ha⟩
  | callback f cb => exact .inl (committed_callback hstep)
  | unlockCurrent f r | unlockPredecessor f r =>
    cases hstep
    exact .inl trivial
  | readFirst n | assign f => exact h.elim
  | returned r | fault => simp [step] at hstep

theorem committed_step {l l' : Local T} (h : Committed l) (hstep : step H me s l () = some (s', l')) :
    Committed l' := by
  obtain ⟨op, pc⟩ := l
  cases pc with
  | callback f cb => exact committed_callback hstep
  | unlockCurrent f r | unlockPredecessor f r =>
    cases hstep
    trivial
  | returned r => simp [step] at hstep
  | _ => exact h.elim

theorem throwsEarly : ThrowsEarly (implementation τ H) (handler H) me (fun s l => Holding s me l) Committed where
  start := fun _ _ h => h
  among := fun s s' l h hs => by
    obtain ⟨op, pc⟩ := l
    cases pc with
    | lockHead | loadFirst | lockFirst n | advance f => exact Holds.among h hs
    | test f | unlockPassed f | callback f cb | lockNext f => exact ⟨h.1, h.2.among hs⟩
    | _ => exact h
  step := fun _ _ _ _ _ => holding_step
  committed := fun _ _ _ _ _ => committed_step
  handler := fun s l u hu => by
    obtain ⟨op, pc⟩ := l
    cases pc with
    | test f =>
      simp only [handler] at hu
      split at hu <;> cases hu
      exact ⟨id, fun h => h.2⟩
    | callback f cb =>
      cases cb <;> cases hu
      exact ⟨id, fun h => h.2⟩
    | _ => cases hu

end FineGrainedSet

/-! #### `OptimisticSet` -/

namespace OptimisticSet

/-- The walk stands outside of the `try`; the validation and the callback in it. -/
def handler (H : Hash .java T) (s : Store τ T) (l : Local T) : Option Unwind :=
  match l.pc with
  | .walk (.test _ current) => if compares H l.op.element (s.node current) then some .thrown else none
  | .validate predecessor current check _ =>
    if (s.node check).key = (s.node predecessor).key ∧ (s.node check).next.isSome then
      some (.unlockCurrent predecessor current)
    else none
  | .callback predecessor current .enter => some (.unlockCurrent predecessor current)
  | _ => none

/-- The callback is past its comparison. -/
def Committed (l : Local T) : Prop :=
  match l.pc with
  | .callback _ _ .enter => False
  | .callback _ _ _ | .unlockCurrent _ _ (some _) | .unlockPredecessor _ (some _) | .returned _ => True
  | _ => False

def Holding (s : Store τ T) (me : τ) (l : Local T) : Prop :=
  match l.pc with
  | .walk w => WalkHolds s me w
  | .check p c | .validate p c _ _ | .validateNext p c _ _ | .recheck p c _ | .callback p c _
  | .unlockCurrent p c _ | .throwCurrent p c => Holds s me [p, c]
  | .unlockPredecessor p _ | .throwPredecessor p => Holds s me [p]
  | .returned _ | .fault => Holds s me []

/-- A callback has made its comparison in its first step. -/
theorem committed_callback {op : SetOp T} {cb : Callback T} {l' : Local T} {choice : Bool}
    (hstep : step H me s ⟨op, .callback p c cb⟩ choice = some (s', l')) : Committed l' := by
  rcases step_callback hstep with ⟨cb', hcb, rfl⟩ | ⟨r, hcb, rfl⟩
  · cases cb' with
    | enter => exact absurd hcb Callback.step_ne_enter
    | _ => trivial
  · trivial

theorem holding_step {l l' : Local T} {choice : Bool} (h : Holding s me l)
    (hstep : step H me s l choice = some (s', l')) :
    Committed l' ∨ (Holding s' me l' ∧ OnlyMutexes me s s') := by
  obtain ⟨op, pc⟩ := l
  cases pc with
  | walk w =>
    rcases step_walk hstep with ⟨w', hw, rfl⟩ | ⟨p, c, hw, rfl⟩ | ⟨hw, rfl⟩
    all_goals
      obtain ⟨hm, hheld⟩ := WalkHolds.step h hw
      exact .inr ⟨hheld, hm⟩
  | check p c =>
    cases hstep
    exact .inr ⟨h, .refl⟩
  | validate p c check next =>
    simp only [step] at hstep
    repeat' split at hstep
    all_goals cases hstep; exact .inr ⟨h, .refl⟩
  | validateNext p c check next =>
    simp only [step] at hstep
    split at hstep <;> cases hstep <;> exact .inr ⟨h, .refl⟩
  | recheck p c check =>
    simp only [step] at hstep
    split at hstep <;> cases hstep <;> exact .inr ⟨h, .refl⟩
  | callback p c cb => exact .inl (committed_callback hstep)
  | unlockCurrent p c exit | throwCurrent p c =>
    have h : Holds s me [p, c] := h
    cases hstep
    exact .inr ⟨h.swap.release, .release h.swap⟩
  | unlockPredecessor p exit =>
    have h : Holds s me [p] := h
    cases exit with
    | none | some r =>
      cases hstep
      exact .inr ⟨h.release, .release h⟩
  | throwPredecessor p =>
    have h : Holds s me [p] := h
    cases hstep
    exact .inr ⟨h.release, .release h⟩
  | returned r | fault => simp [step] at hstep

theorem committed_step {l l' : Local T} {choice : Bool} (h : Committed l)
    (hstep : step H me s l choice = some (s', l')) : Committed l' := by
  obtain ⟨op, pc⟩ := l
  cases pc with
  | callback p c cb => exact committed_callback hstep
  | unlockCurrent p c exit =>
    cases exit with
    | none => exact h.elim
    | some r =>
      cases hstep
      trivial
  | unlockPredecessor p exit =>
    cases exit with
    | none => exact h.elim
    | some r =>
      cases hstep
      trivial
  | returned r => simp [step] at hstep
  | _ => exact h.elim

theorem throwsEarly : ThrowsEarly (implementation τ H) (handler H) me (fun s l => Holding s me l) Committed where
  start := fun _ _ h => h
  among := fun s s' l h hs => by
    obtain ⟨op, pc⟩ := l
    cases pc with
    | walk w => exact WalkHolds.among h hs
    | _ => exact Holds.among h hs
  step := fun _ _ _ _ _ => holding_step
  committed := fun _ _ _ _ _ => committed_step
  handler := fun s l u hu => by
    obtain ⟨op, pc⟩ := l
    cases pc with
    | walk w =>
      cases w <;> simp only [handler] at hu
      case test p c =>
        split at hu <;> cases hu
        exact ⟨id, id⟩
      all_goals cases hu
    | validate p c check next =>
      simp only [handler] at hu
      split at hu <;> cases hu
      exact ⟨id, id⟩
    | callback p c cb =>
      cases cb <;> cases hu
      exact ⟨id, id⟩
    | _ => cases hu

end OptimisticSet

/-! #### `LazySet` -/

namespace LazySet

/-- The walk stands outside of the `try`; the callback in it. -/
def handler (H : Hash .java T) (s : Store τ T) (l : Local T) : Option Unwind :=
  match l.pc with
  | .walk (.test _ current) => if compares H l.op.element (s.node current) then some .thrown else none
  | .callback predecessor current .enter => some (.unlockCurrent predecessor current)
  | _ => none

/-- The callback is past its comparison. -/
def Committed (l : Local T) : Prop :=
  match l.pc with
  | .callback _ _ .enter => False
  | .callback _ _ _ | .unlockCurrent _ _ (some _) | .unlockPredecessor _ (some _) | .returned _ => True
  | _ => False

def Holding (s : Store τ T) (me : τ) (l : Local T) : Prop :=
  match l.pc with
  | .walk w => WalkHolds s me w
  | .checkPredecessor p c | .checkCurrent p c | .checkNext p c | .callback p c _
  | .unlockCurrent p c _ => Holds s me [p, c]
  | .unlockPredecessor p _ => Holds s me [p]
  | .returned _ | .fault => Holds s me []

/-- A callback has made its comparison in its first step. -/
theorem committed_callback {op : SetOp T} {cb : Callback T} {l' : Local T} {choice : Bool}
    (hstep : step H me s ⟨op, .callback p c cb⟩ choice = some (s', l')) : Committed l' := by
  rcases step_callback hstep with ⟨cb', hcb, rfl⟩ | ⟨r, hcb, rfl⟩
  · cases cb' with
    | enter => exact absurd hcb Callback.step_ne_enter
    | _ => trivial
  · trivial

theorem holding_step {l l' : Local T} {choice : Bool} (h : Holding s me l)
    (hstep : step H me s l choice = some (s', l')) :
    Committed l' ∨ (Holding s' me l' ∧ OnlyMutexes me s s') := by
  obtain ⟨op, pc⟩ := l
  cases pc with
  | walk w =>
    rcases step_walk hstep with ⟨w', hw, rfl⟩ | ⟨p, c, hw, rfl⟩ | ⟨hw, rfl⟩
    all_goals
      obtain ⟨hm, hheld⟩ := WalkHolds.step h hw
      exact .inr ⟨hheld, hm⟩
  | checkPredecessor p c | checkCurrent p c | checkNext p c =>
    simp only [step] at hstep
    split at hstep <;> cases hstep <;> exact .inr ⟨h, .refl⟩
  | callback p c cb => exact .inl (committed_callback hstep)
  | unlockCurrent p c exit =>
    have h : Holds s me [p, c] := h
    cases hstep
    exact .inr ⟨h.swap.release, .release h.swap⟩
  | unlockPredecessor p exit =>
    have h : Holds s me [p] := h
    cases exit with
    | none | some r =>
      cases hstep
      exact .inr ⟨h.release, .release h⟩
  | returned r | fault => simp [step] at hstep

theorem committed_step {l l' : Local T} {choice : Bool} (h : Committed l)
    (hstep : step H me s l choice = some (s', l')) : Committed l' := by
  obtain ⟨op, pc⟩ := l
  cases pc with
  | callback p c cb => exact committed_callback hstep
  | unlockCurrent p c exit =>
    cases exit with
    | none => exact h.elim
    | some r =>
      cases hstep
      trivial
  | unlockPredecessor p exit =>
    cases exit with
    | none => exact h.elim
    | some r =>
      cases hstep
      trivial
  | returned r => simp [step] at hstep
  | _ => exact h.elim

theorem throwsEarly : ThrowsEarly (implementation τ H) (handler H) me (fun s l => Holding s me l) Committed where
  start := fun _ _ h => h
  among := fun s s' l h hs => by
    obtain ⟨op, pc⟩ := l
    cases pc with
    | walk w => exact WalkHolds.among h hs
    | _ => exact Holds.among h hs
  step := fun _ _ _ _ _ => holding_step
  committed := fun _ _ _ _ _ => committed_step
  handler := fun s l u hu => by
    obtain ⟨op, pc⟩ := l
    cases pc with
    | walk w =>
      cases w <;> simp only [handler] at hu
      case test p c =>
        split at hu <;> cases hu
        exact ⟨id, id⟩
      all_goals cases hu
    | callback p c cb =>
      cases cb <;> cases hu
      exact ⟨id, id⟩
    | _ => cases hu

end LazySet

/-- **Every call of a Java set that ends with an exception fails clean.** -/
theorem java_sets_fail_clean (H : Hash .java T) (me : τ) :
    FailsClean (throwing (FineGrainedSet.implementation τ H) (FineGrainedSet.handler H)) me ∧
      FailsClean (throwing (OptimisticSet.implementation τ H) (OptimisticSet.handler H)) me ∧
      FailsClean (throwing (LazySet.implementation τ H) (LazySet.handler H)) me :=
  ⟨FineGrainedSet.throwsEarly.failsClean, OptimisticSet.throwsEarly.failsClean,
    LazySet.throwsEarly.failsClean⟩

/-- `add` on the empty list, where the lock supplier throws. -/
example (t : T) : ∃ s', (throwing (LazySet.implementation Bool H) (LazySet.handler H)).Alone true
    (.initial .java, .running ⟨.add t, .walk .start⟩) (s', .unwinding .thrown) :=
  ⟨_, .head ⟨some true, rfl⟩ (.head ⟨some true, rfl⟩ (.head ⟨some true, rfl⟩ (.head ⟨some true, rfl⟩
    (.head ⟨some true, rfl⟩ (.head ⟨some true, rfl⟩ (.head ⟨some true, rfl⟩
      (.head ⟨none, rfl⟩ (.head ⟨none, rfl⟩ (.head ⟨none, rfl⟩ .refl)))))))))⟩

end Sets

end ParSweet.Sets
