import ParSweet.Maps.Disjoint
import ParSweet.Maps.JavaSetBasedMap

/-! The maps of both suites under concurrent calls.

A map made of sets is as linearizable as its sets are, but it is another map than `LockHashMap`: the
first value put under a key stays. In Java it also keeps its answers to itself. -/
namespace ParSweet.Maps
open Concurrent Sets

variable {τ K V : Type*} [BEq K] [EquivBEq K] [DecidableEq τ]

/-- **`SetBasedMap` of the C++ suite is linearizable** over each of the list sets, whose first value wins, and
no call dereferences a null pointer, over `OptimisticSet` if no key has the tail's hash. -/
theorem setBasedMap_linearizable (H : Hash .cpp K) {NumBuckets : ℕ} (hN : 2 ≤ NumBuckets) :
    let firstWins := Spec.ofFun (SetBasedMap.firstWins (K := K) (V := V)) fun _ => none
    ((SetBasedMap.fineGrained τ V H NumBuckets).Linearizable firstWins ∧
      NeverFaults (SetBasedMap.fineGrained τ V H NumBuckets) fun l => l.2.pc = .fault) ∧
    ((SetBasedMap.lazy τ V H NumBuckets).Linearizable firstWins ∧
      NeverFaults (SetBasedMap.lazy τ V H NumBuckets) fun l => l.2.pc = .fault) ∧
    ((SetBasedMap.optimistic τ V H NumBuckets).Linearizable firstWins ∧
      ((∀ k, H.hash k ≠ Lang.cpp.tailKey) →
        NeverFaults (SetBasedMap.optimistic τ V H NumBuckets) fun l => l.2.pc = .fault)) := by
  refine ⟨⟨?_, SetBasedMap.neverFaults hN (FineGrainedSet.avoids_fault _)⟩,
    ⟨?_, SetBasedMap.neverFaults hN (LazySet.avoids_fault _)⟩, ?_, fun hmax =>
      SetBasedMap.neverFaults hN (OptimisticSet.avoids_fault fun v _ hv => absurd hv (hmax v.key))⟩
  · exact (SetBasedMap.outline (FineGrainedSet.outline τ _) H NumBuckets).linearizable
  · exact (SetBasedMap.outline (LazySet.outline τ _) H NumBuckets).linearizable
  · exact (SetBasedMap.outline (OptimisticSet.outline τ _) H NumBuckets).linearizable

theorem setBasedMap_linearizable_residue :
    let firstWins := Spec.ofFun (SetBasedMap.firstWins (K := ℕ) (V := ℕ)) fun _ => none
    ((SetBasedMap.fineGrained ℕ ℕ (residueHash .cpp) 16).Linearizable firstWins ∧
      NeverFaults (SetBasedMap.fineGrained ℕ ℕ (residueHash .cpp) 16) fun l => l.2.pc = .fault) ∧
    ((SetBasedMap.lazy ℕ ℕ (residueHash .cpp) 16).Linearizable firstWins ∧
      NeverFaults (SetBasedMap.lazy ℕ ℕ (residueHash .cpp) 16) fun l => l.2.pc = .fault) ∧
    ((SetBasedMap.optimistic ℕ ℕ (residueHash .cpp) 16).Linearizable firstWins ∧
      ((∀ k, (residueHash .cpp).hash k ≠ Lang.cpp.tailKey) →
        NeverFaults (SetBasedMap.optimistic ℕ ℕ (residueHash .cpp) 16) fun l => l.2.pc = .fault)) :=
  setBasedMap_linearizable (residueHash .cpp) (by decide)

/-- **The Java maps are linearizable**, `LockHashMap` as a `java.util.Map`, whose calls throw only for keys that
have no bucket, and `SetBasedMap`, over each of its sets, as the map that keeps the first value and
answers only `get`. -/
theorem javaMaps_linearizable (τ V : Type*) [DecidableEq τ] (H : Hash .java K) :
    ((LockHashMap.implementation τ V H LockHashMap.N_BUCKETS).Linearizable (LockHashMap.mapSpec .java K V) ∧
      ∀ s, (LockHashMap.implementation τ V H LockHashMap.N_BUCKETS).system.Reachable s → ∀ t l, s.pc t = some l →
        l.pc = .fault → ¬ (0 ≤ H.hash l.op.key ∨ 15 ∣ H.hash l.op.key)) ∧
    let keepsFirst := Spec.ofFun (JavaSetBasedMap.keepsFirst (K := K) (V := V)) fun _ => none
    (JavaSetBasedMap.implementation (FineGrainedSet.implementation τ (SetBasedMap.hashNode V H)) H).Linearizable
        keepsFirst ∧
      (JavaSetBasedMap.implementation (OptimisticSet.implementation τ (SetBasedMap.hashNode V H)) H).Linearizable
        keepsFirst ∧
      (JavaSetBasedMap.implementation (LazySet.implementation τ (SetBasedMap.hashNode V H)) H).Linearizable
        keepsFirst := by
  refine ⟨⟨(LockHashMap.outline τ V H _).linearizable, fun s hs t l hl hf hk => ?_⟩, ?_, ?_, ?_⟩
  · exact LockHashMap.fault_outOfBounds hs hl hf ⟨LockHashMap.index_nonneg_iff.mpr hk, index_lt (by decide)⟩
  · exact (JavaSetBasedMap.outline (FineGrainedSet.outline τ _) H).linearizable
  · exact (JavaSetBasedMap.outline (OptimisticSet.outline τ _) H).linearizable
  · exact (JavaSetBasedMap.outline (LazySet.outline τ _) H).linearizable

theorem javaMaps_linearizable_integer :
    ((LockHashMap.implementation ℕ ℕ LockHashMap.integerHash LockHashMap.N_BUCKETS).Linearizable
        (LockHashMap.mapSpec .java (BitVec 32) ℕ) ∧
      ∀ s, (LockHashMap.implementation ℕ ℕ LockHashMap.integerHash LockHashMap.N_BUCKETS).system.Reachable s →
        ∀ t l, s.pc t = some l → l.pc = .fault →
          ¬ (0 ≤ LockHashMap.integerHash.hash l.op.key ∨ 15 ∣ LockHashMap.integerHash.hash l.op.key)) ∧
    let keepsFirst := Spec.ofFun (JavaSetBasedMap.keepsFirst (K := BitVec 32) (V := ℕ)) fun _ => none
    (JavaSetBasedMap.implementation (FineGrainedSet.implementation ℕ (SetBasedMap.hashNode ℕ LockHashMap.integerHash))
        LockHashMap.integerHash).Linearizable keepsFirst ∧
      (JavaSetBasedMap.implementation (OptimisticSet.implementation ℕ (SetBasedMap.hashNode ℕ LockHashMap.integerHash))
        LockHashMap.integerHash).Linearizable keepsFirst ∧
      (JavaSetBasedMap.implementation (LazySet.implementation ℕ (SetBasedMap.hashNode ℕ LockHashMap.integerHash))
        LockHashMap.integerHash).Linearizable keepsFirst :=
  javaMaps_linearizable ℕ ℕ LockHashMap.integerHash

end ParSweet.Maps
