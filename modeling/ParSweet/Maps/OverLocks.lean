import ParSweet.Locks.LockCodes
import ParSweet.Maps.CallsEnd
import ParSweet.Sets.OverLocks

/-! The hash tables of the C++ suite over any lock.

They are given their mutex type, as `FineGrainedSet` is. A call takes the mutex of its bucket
once, and gives it up once (`tidy`). So the benched hash tables may have any lock of the suite
for a mutex, and the list any but `CLHLock` (`suiteLocks_serve`). -/
namespace ParSweet.Maps
open Concurrent

variable {τ K V : Type*} {s : Store τ K V} {b : Int}

namespace Store

theorem tryAcquire_of_free (me : τ) (h : s.mutex b = none) :
    s.tryAcquire me b = some {s with mutex := Function.update s.mutex b (some me)} := by
  rw [tryAcquire, h]

/-- The links have nothing to do with the mutexes. -/
theorem relink_put (s : Store τ K V) (h : Int → Option τ) (b : Int) (prev n : Option NodeId) :
    ({s with mutex := h} : Store τ K V).relink b prev n = (s.relink b prev n).map fun s' => {s' with mutex := h} := by
  cases prev with
  | none => rfl
  | some p =>
    simp only [relink, Option.map_map]
    rfl

end Store

theorem ChainCalls.not_held {Op Res loc : Type*} [DecidableEq τ] {I : Implementation τ Op Res (Store τ K V) loc Unit}
    (C : ChainCalls I) (hfault : NeverFaults I fun l => C.place l = .fault)
    {s : Implementation.State τ (Store τ K V) loc} (hs : I.system.Reachable s) {t : τ} {l : loc} (hl : s.pc t = some l)
    (hp : C.place l = .lock) (n : Int) : s.store.mutex n ≠ some t := by
  intro hheld
  obtain ⟨k, hk, hlocked, _⟩ := C.owned hfault hs t n hheld
  obtain rfl : l = k := Option.some.inj (hl.symm.trans hk)
  rw [hp] at hlocked
  exact hlocked

namespace LockHashMap
variable [BEq K] {L : Lang} {H : Hash L K} {NumBuckets : ℕ} {me : τ} {l l' : Local K V} {n : Int}

/-- What the next step of a call does with the mutex of a bucket. -/
def Local.touch (H : Hash L K) (NumBuckets : ℕ) (l : Local K V) : Touch (Local K V) Int :=
  let index := getBucketIndexOfKey H NumBuckets l.op.key
  match l.pc with
  | .lock => if 0 ≤ index ∧ index < NumBuckets then .takes index {l with pc := .readHead} else .leaves
  | .unlock r => .gives index {l with pc := .returned r}
  | _ => .leaves

theorem touch_takes (htouch : l.touch H NumBuckets = .takes n l') :
    l.pc = .lock ∧ n = getBucketIndexOfKey H NumBuckets l.op.key ∧ (0 ≤ n ∧ n < NumBuckets) ∧
      l' = {l with pc := .readHead} := by
  obtain ⟨op, pc⟩ := l
  cases pc with
  | lock =>
    simp only [Local.touch] at htouch
    split at htouch <;> cases htouch
    exact ⟨rfl, rfl, ‹_›, rfl⟩
  | _ => cases htouch

theorem touch_gives (htouch : l.touch H NumBuckets = .gives n l') :
    ∃ r, l.pc = .unlock r ∧ n = getBucketIndexOfKey H NumBuckets l.op.key ∧ l' = {l with pc := .returned r} := by
  obtain ⟨op, pc⟩ := l
  cases pc with
  | lock =>
    simp only [Local.touch] at htouch
    split at htouch <;> cases htouch
  | unlock r =>
    cases htouch
    exact ⟨r, rfl, rfl, rfl⟩
  | _ => cases htouch

theorem step_leaves (h : Int → Option τ) (htouch : l.touch H NumBuckets = .leaves) :
    step H NumBuckets me {s with mutex := h} l () =
      (step H NumBuckets me s l ()).map fun p => ({p.1 with mutex := h}, p.2) := by
  obtain ⟨op, pc⟩ := l
  cases pc with
  | lock =>
    simp only [Local.touch] at htouch
    split at htouch
    · cases htouch
    · next hi => simp only [step, if_neg hi, Option.map_some]
  | unlock r => cases htouch
  | storeHead value | returned r | fault => rfl
  | unlink prev current =>
    cases hx : s.node current with
    | none => simp only [step, hx, Option.map_some]
    | some x =>
      cases hr : s.relink (getBucketIndexOfKey H NumBuckets op.key) prev x.next with
      | none => simp only [step, hx, Store.relink_put, hr, Option.map_none, Option.map_some]
      | some s' => cases L <;> simp only [step, hx, Store.relink_put, hr, Option.map_some] <;> rfl
  | _ =>
    simp only [step]
    repeat' split
    all_goals rfl

/-- The map and its mutexes. -/
def guarded (τ V : Type*) (H : Hash L K) (NumBuckets : ℕ) : Guarded (implementation τ V H NumBuckets) Int where
  holder := Store.mutex
  put := fun s h => {s with mutex := h}
  touch := Local.touch H NumBuckets
  put_holder := fun _ => rfl
  put_put := fun _ _ _ => rfl
  holder_put := fun _ _ => rfl
  takes := fun t s l n l' _ htouch hfree => by
    obtain ⟨op, pc⟩ := l
    obtain ⟨rfl, rfl, hi, rfl⟩ := touch_takes htouch
    simp only [implementation, step, if_pos hi, Store.tryAcquire_of_free t hfree]
  gives := fun t s l n l' _ htouch => by
    obtain ⟨op, pc⟩ := l
    obtain ⟨r, rfl, rfl, rfl⟩ := touch_gives htouch
    rfl
  leaves := fun _ _ h _ _ => step_leaves h

theorem tidy [EquivBEq K] [DecidableEq τ] (hindex : ∀ k, 0 ≤ getBucketIndexOfKey H NumBuckets k) (hN : 2 ≤ NumBuckets) :
    (guarded τ V H NumBuckets).Tidy where
  takes := fun s hs t l n l' hl htouch =>
    (chainCalls τ V H NumBuckets).not_held (neverFaults hindex hN) hs hl (congrArg Pc.place (touch_takes htouch).1) n
  gives := fun s hs t l n l' hl htouch => by
    obtain ⟨op, pc⟩ := l
    obtain ⟨r, rfl, rfl, _⟩ := touch_gives htouch
    obtain ⟨_, _, hthread⟩ := (outline τ V H NumBuckets).reachable hs
    rcases hthread t _ hl with ⟨_, _, hp⟩ | ⟨_, _, hheld⟩
    · exact hp.elim
    · exact hheld

end LockHashMap

end ParSweet.Maps

namespace ParSweet.Sets.LockHashSet
open Concurrent Maps

variable {τ T : Type*} [BEq T] {H : Hash .cpp T} {NumBuckets : BitVec 64} {s : Maps.Store τ T Unit} {me : τ}
  {l l' : Local T} {n : Int}

/-- What the next step of a call does with the mutex of a bucket. -/
def Local.touch (H : Hash .cpp T) (NumBuckets : BitVec 64) (l : Local T) : Touch (Local T) Int :=
  let index := bucketOf H NumBuckets l.op.element
  match l.pc with
  | .lock => if index < NumBuckets.toNat then .takes index {l with pc := .readHead} else .leaves
  | .unlock r => .gives index {l with pc := .returned r}
  | _ => .leaves

theorem touch_takes (htouch : l.touch H NumBuckets = .takes n l') :
    l.pc = .lock ∧ n = bucketOf H NumBuckets l.op.element ∧ n < NumBuckets.toNat ∧ l' = {l with pc := .readHead} := by
  obtain ⟨op, pc⟩ := l
  cases pc with
  | lock =>
    simp only [Local.touch] at htouch
    split at htouch <;> cases htouch
    exact ⟨rfl, rfl, ‹_›, rfl⟩
  | _ => cases htouch

theorem touch_gives (htouch : l.touch H NumBuckets = .gives n l') :
    ∃ r, l.pc = .unlock r ∧ n = bucketOf H NumBuckets l.op.element ∧ l' = {l with pc := .returned r} := by
  obtain ⟨op, pc⟩ := l
  cases pc with
  | lock =>
    simp only [Local.touch] at htouch
    split at htouch <;> cases htouch
  | unlock r =>
    cases htouch
    exact ⟨r, rfl, rfl, rfl⟩
  | _ => cases htouch

theorem step_leaves (h : Int → Option τ) (htouch : l.touch H NumBuckets = .leaves) :
    step H NumBuckets me {s with mutex := h} l () =
      (step H NumBuckets me s l ()).map fun p => ({p.1 with mutex := h}, p.2) := by
  obtain ⟨op, pc⟩ := l
  cases pc with
  | lock =>
    simp only [Local.touch] at htouch
    split at htouch
    · cases htouch
    · next hi => simp only [step, if_neg hi, Option.map_some]
  | unlock r => cases htouch
  | storeHead | returned r | fault => rfl
  | unlink prev current =>
    cases hx : s.node current with
    | none => simp only [step, hx, Option.map_some]
    | some x =>
      cases hr : s.relink (bucketOf H NumBuckets op.element) prev x.next with
      | none => simp only [step, hx, Store.relink_put, hr, Option.map_none, Option.map_some]
      | some s' =>
        simp only [step, hx, Store.relink_put, hr, Option.map_some]
        rfl
  | _ =>
    simp only [step]
    repeat' split
    all_goals rfl

/-- The set and its mutexes. -/
def guarded (τ : Type*) (H : Hash .cpp T) (NumBuckets : BitVec 64) : Guarded (implementation τ H NumBuckets) Int where
  holder := Maps.Store.mutex
  put := fun s h => {s with mutex := h}
  touch := Local.touch H NumBuckets
  put_holder := fun _ => rfl
  put_put := fun _ _ _ => rfl
  holder_put := fun _ _ => rfl
  takes := fun t s l n l' _ htouch hfree => by
    obtain ⟨op, pc⟩ := l
    obtain ⟨rfl, rfl, hi, rfl⟩ := touch_takes htouch
    simp only [implementation, step, if_pos hi, Store.tryAcquire_of_free t hfree]
  gives := fun t s l n l' _ htouch => by
    obtain ⟨op, pc⟩ := l
    obtain ⟨r, rfl, rfl, rfl⟩ := touch_gives htouch
    rfl
  leaves := fun _ _ h _ _ => step_leaves h

theorem tidy [EquivBEq T] [DecidableEq τ] (H : Hash .cpp T) (hN : 2 ≤ NumBuckets.toNat) :
    (guarded τ H NumBuckets).Tidy where
  takes := fun s hs t l n l' hl htouch =>
    (chainCalls τ H NumBuckets).not_held (neverFaults H hN) hs hl (congrArg Pc.place (touch_takes htouch).1) n
  gives := fun s hs t l n l' hl htouch => by
    obtain ⟨op, pc⟩ := l
    obtain ⟨r, rfl, rfl, _⟩ := touch_gives htouch
    obtain ⟨_, _, hthread⟩ := (outline τ H NumBuckets).reachable hs
    rcases hthread t _ hl with ⟨_, _, hp⟩ | ⟨_, _, hheld⟩
    · exact hp.elim
    · exact hheld

end ParSweet.Sets.LockHashSet

namespace ParSweet.Maps
open Concurrent Sets Locks

variable {τ κ α ε : Type*} {K V : Type*} [BEq K]

/-- What the benchmarks ask of a lock: it will do for the mutexes of the hash tables, which live as long
as the tables do ... -/
structure ServesTables (K V : Type*) [BEq K] [DecidableEq τ] (C : LockCode τ κ α ε) : Prop where
  lockHashSet : ∀ (H : Hash .cpp K) (NumBuckets : BitVec 64), 2 ≤ NumBuckets.toNat →
    IsSet ((LockHashSet.guarded τ H NumBuckets).onLocks C) (Guarded.Stand.On fun l => l.pc = .fault)
  lockHashMap : ∀ (H : Hash .cpp K) (NumBuckets : ℕ), 2 ≤ NumBuckets →
    ((LockHashMap.guarded τ V H NumBuckets).onLocks C).Linearizable (LockHashMap.mapSpec .cpp K V) ∧
      NeverFaults ((LockHashMap.guarded τ V H NumBuckets).onLocks C) (Guarded.Stand.On fun l => l.pc = .fault)

/-- ... and for those of the nodes of a list, that go with the nodes. -/
structure Serves (K V : Type*) [BEq K] [DecidableEq τ] (C : LockCode τ κ α ε) : Prop extends ServesTables K V C where
  fineGrainedSet : ∀ H : Hash .cpp K,
    IsSet ((FineGrainedSet.guarded τ H).onLocks C) (Guarded.Stand.On fun l => l.pc = .fault)

variable [EquivBEq K] [DecidableEq τ]

/-- A lock that excludes will do for the tables ... -/
theorem ServesTables.of_excludes {C : LockCode τ κ α ε} (hx : C.Excludes) : ServesTables K V C where
  lockHashSet := fun H NumBuckets hN =>
    { linearizable :=
        Guarded.linearizable hx (LockHashSet.tidy H hN) (fun _ => rfl) (LockHashSet.outline τ H NumBuckets).linearizable
      noFault := fun _ hs _ _ hl => Guarded.never hx (LockHashSet.tidy H hN) (fun _ => rfl)
        (fun _ ha _ _ => LockHashSet.never_faults H hN ha) hs hl }
  lockHashMap := fun H NumBuckets hN => by
    have htidy : (LockHashMap.guarded τ V H NumBuckets).Tidy := LockHashMap.tidy (fun _ => index_nonneg) hN
    refine ⟨Guarded.linearizable hx htidy (fun _ => rfl) (LockHashMap.outline τ V H NumBuckets).linearizable, ?_⟩
    intro s hs t x hl
    refine Guarded.never hx htidy (fun _ => rfl) (fun a ha u l hu hf => ?_) hs hl
    exact LockHashMap.fault_outOfBounds ha hu hf ⟨index_nonneg, index_lt hN⟩

/-- ... and for the nodes of a list, as long as they stay. -/
theorem Serves.of_excludes {C : LockCode τ κ α ε} (hx : C.Excludes) : Serves K V C where
  toServesTables := .of_excludes hx
  fineGrainedSet := fun H => FineGrainedSet.overLocks H hx

/-- **Each of the suite's locks will do for a mutex** of the hash tables, and each but `CLHLock` for one of
the hand over hand set: they are linearizable and dereference no null pointer, whatever the
threads do, as long as the threads have slots of their own, and no one `ALock` is locked `2 ^ 64` times. -/
theorem suiteLocks_serve {N_THREADS_ALLOC : ℕ} {ids : ThreadId τ 64} (h : OwnSlots N_THREADS_ALLOC ids) (K V : Type*)
    [BEq K] [EquivBEq K] :
    Serves K V (ALock.lockCode N_THREADS_ALLOC fun t => (ids.id t).toNat) ∧
      Serves K V (FlagLock.lockCode τ (BackoffLock.lock 1 17)) ∧
      ServesTables K V (CLHLock.lockCode N_THREADS_ALLOC fun t => (ids.id t).toNat) ∧
      Serves K V (IdLock.lockCode .cpp false ids) ∧
      Serves K V (MCSLock.lockCode N_THREADS_ALLOC fun t => (ids.id t).toNat) ∧
      Serves K V (FlagLock.lockCode τ TASLock.lock) ∧
      Serves K V (IdLock.lockCode .cpp true ids) ∧
      Serves K V (FlagLock.lockCode τ TTASLock.lock) ∧
      Serves K V (TwoCounterLock.lockCode τ) := by
  obtain ⟨ha, hbackoff, hclh, hid, hmcs, htas, htid, httas, htwo⟩ := suiteLocks_exclude h
  exact ⟨.of_excludes ha, .of_excludes hbackoff, .of_excludes hclh, .of_excludes hid, .of_excludes hmcs,
    .of_excludes htas, .of_excludes htid, .of_excludes httas, .of_excludes htwo⟩

/-- Three threads with the ids 1, 2 and 3, and slots for four. -/
theorem suiteLocks_serve_three : Serves ℕ ℕ (MCSLock.lockCode 4 fun t : Fin 3 => t.1 + 1) ∧
    Serves ℕ ℕ (ALock.lockCode 4 fun t : Fin 3 => t.1 + 1) := by
  have hslots : OwnSlots 4 (⟨4, fun t : Fin 3 => BitVec.ofNat 64 (t.1 + 1)⟩ : ThreadId (Fin 3) 64) :=
    ⟨by decide, by decide, by decide⟩
  have hids : (fun t : Fin 3 => (BitVec.ofNat 64 (t.1 + 1)).toNat) = fun t => t.1 + 1 := by decide
  have h := suiteLocks_serve hslots ℕ ℕ
  simp only [hids] at h
  exact ⟨h.2.2.2.2.1, h.1⟩

end ParSweet.Maps
