import ParSweet.Sets.FineGrainedSet
import ParSweet.Sets.LazySet
import ParSweet.Sets.LockHashSet
import ParSweet.Sets.OptimisticSet

/-! The sets of both suites under concurrent calls, against one specification: the mathematical
set as a function (`oneOfEach`). -/
namespace ParSweet.Sets
open Concurrent

variable {τ T : Type*} [BEq T]

/-- With two buckets or more every index is that of a bucket. -/
theorem LockHashSet.never_faults [EquivBEq T] [DecidableEq τ] (H : Hash .cpp T) {NumBuckets : BitVec 64}
    (hN : 2 ≤ NumBuckets.toNat) {s : Implementation.State τ (Maps.Store τ T Unit) (Local T)}
    (h : (implementation τ H NumBuckets).system.Reachable s) {t : τ} {l : Local T} (hl : s.pc t = some l) :
    l.pc ≠ .fault := by
  obtain ⟨_, _, hthread⟩ := (outline τ H NumBuckets).reachable h
  intro hf
  rcases hthread t l hl with ⟨op, _, hp⟩ | ⟨r, hd⟩
  · rw [hf] at hp
    exact absurd hN (Nat.not_le.mpr hp)
  · have hd : DoneAt H NumBuckets s.store t l.op r l.pc := hd
    rw [hf] at hd
    exact hd

/-- What is asked of a set under concurrent calls: it shows what the mathematical set shows, and
no call gets to where a null pointer has been dereferenced or an index was out of bounds. -/
structure IsSet {σ loc χ : Type*} [DecidableEq τ] (I : Implementation τ (SetOp T) (SetRes T) σ loc χ)
    (fault : loc → Prop) : Prop where
  linearizable : I.Linearizable (Spec.ofFun (oneOfEach (T := T)) fun _ => none)
  noFault : ∀ s, I.system.Reachable s → ∀ t l, s.pc t = some l → ¬ fault l

/-- **The sets are interchangeable under concurrent calls**: those of the Java suite, and the hash set of
the C++ suite from two buckets on, are all the one mathematical set; that no call on the
optimistic one dereferences a null pointer needs that no two elements have the tail's key. -/
theorem sets_linearizable [EquivBEq T] [DecidableEq τ] {NumBuckets : BitVec 64} (hN : 2 ≤ NumBuckets.toNat)
    (H : Hash .java T) (H' : Hash .cpp T) :
    IsSet (FineGrainedSet.implementation τ H) (fun l => l.pc = .fault) ∧
      ((OptimisticSet.implementation τ H).Linearizable (Spec.ofFun (oneOfEach (T := T)) fun _ => none) ∧
        (OptimisticSet.MaxUnique H → IsSet (OptimisticSet.implementation τ H) fun l => l.pc = .fault)) ∧
      IsSet (LazySet.implementation τ H) (fun l => l.pc = .fault) ∧
      IsSet (LockHashSet.implementation τ H' NumBuckets) (fun l => l.pc = .fault) := by
  have hoptimistic : (OptimisticSet.implementation τ H).Linearizable
      (Spec.ofFun (oneOfEach (T := T)) fun _ => none) :=
    (outlineOneOfEach (OptimisticSet.outline τ H)).linearizable
  refine ⟨⟨?_, fun _ hs _ _ hl => FineGrainedSet.never_faults H hs hl⟩, ⟨hoptimistic, fun hmax => ?_⟩,
    ⟨?_, fun _ hs _ _ hl => LazySet.never_faults H hs hl⟩, ?_, fun _ hs _ _ hl => LockHashSet.never_faults H' hN hs hl⟩
  · exact (outlineOneOfEach (FineGrainedSet.outline τ H)).linearizable
  · exact ⟨hoptimistic, fun _ hs _ _ hl => OptimisticSet.never_faults hmax hs hl⟩
  · exact (outlineOneOfEach (LazySet.outline τ H)).linearizable
  · exact (LockHashSet.outline τ H' NumBuckets).linearizable

/-- Numbers that collide modulo 16. -/
theorem sets_linearizable_residue :
    IsSet (FineGrainedSet.implementation ℕ (residueHash .java)) (fun l => l.pc = .fault) ∧
      IsSet (OptimisticSet.implementation ℕ (residueHash .java)) (fun l => l.pc = .fault) ∧
      IsSet (LazySet.implementation ℕ (residueHash .java)) (fun l => l.pc = .fault) ∧
      IsSet (LockHashSet.implementation ℕ (residueHash .cpp) 16) (fun l => l.pc = .fault) := by
  obtain ⟨hfine, ⟨_, hoptimistic⟩, hrest⟩ := @sets_linearizable ℕ ℕ _ _ _ 16 (by decide) (residueHash .java)
    (residueHash .cpp)
  refine ⟨hfine, hoptimistic fun v w hv => ?_, hrest⟩
  simp only [residueHash, Lang.tailKey] at hv
  omega

end ParSweet.Sets
