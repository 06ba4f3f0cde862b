import ParSweet.Sets.FineGrainedSet
import ParSweet.Sets.LazySet
import ParSweet.Sets.LockHashSet
import ParSweet.Sets.OptimisticSet

/-! The four C++ sets, called by one thread. Two representations and three ways through a
list come to the same: every call ends, none of the walks starts over, and the answers are
those of the mathematical set. -/
namespace ParSweet.Sets
open Concurrent

variable {τ T : Type*} [BEq T] [EquivBEq T]

theorem FineGrainedSet.computes {L : Lang} (H : Hash L T) (me : τ) (ops : List (SetOp T)) :
    (FineGrainedSet.implementation τ H).Computes me (oneOfEach (T := T)) (fun _ => none) ops :=
  computes_oneOfEach (FineGrainedSet.outline τ H) (Q := Quiet)
    (fun op _ _ hinv hq => FineGrainedSet.ends_alone hinv.1 hq me op) initial_quiet ops

theorem OptimisticSet.computes {L : Lang} (H : Hash L T) (me : τ) (ops : List (SetOp T)) :
    (OptimisticSet.implementation τ H).Computes me (oneOfEach (T := T)) (fun _ => none) ops :=
  computes_oneOfEach (OptimisticSet.outline τ H) (Q := Quiet)
    (fun op _ _ hinv hq => OptimisticSet.ends_alone hinv.1 hq me op) initial_quiet ops

theorem LazySet.computes {L : Lang} (H : Hash L T) (me : τ) (ops : List (SetOp T)) :
    (LazySet.implementation τ H).Computes me (oneOfEach (T := T)) (fun _ => none) ops :=
  computes_oneOfEach (LazySet.outline τ H) (Q := Quiet)
    (fun op _ _ hinv hq => LazySet.ends_alone hinv.1 hq me op) initial_quiet ops

/-- **One thread cannot tell the four sets apart**, nor any of them from the mathematical set:
whatever the hash function, its calls all end, without starting over, and are answered alike. -/
theorem cpp_sets_agree (H : Hash .cpp T) (NumBuckets : BitVec 64) (hN : 2 ≤ NumBuckets.toNat) (me : τ)
    (ops : List (SetOp T)) :
    (FineGrainedSet.implementation τ H).Computes me (oneOfEach (T := T)) (fun _ => none) ops ∧
      (OptimisticSet.implementation τ H).Computes me (oneOfEach (T := T)) (fun _ => none) ops ∧
      (LazySet.implementation τ H).Computes me (oneOfEach (T := T)) (fun _ => none) ops ∧
      (LockHashSet.implementation τ H NumBuckets).Computes me (oneOfEach (T := T)) (fun _ => none) ops :=
  ⟨FineGrainedSet.computes H me ops, OptimisticSet.computes H me ops, LazySet.computes H me ops,
    LockHashSet.computes H hN me ops⟩

/-- Two buckets, and elements that all have the tail sentinel's key. -/
theorem cpp_sets_agree_max :
    (FineGrainedSet.implementation Unit (maxHash .cpp)).Computes () oneOfEach (fun _ => none)
        [.add 1, .add 2, .remove 1, .getEqual 2] ∧
      (OptimisticSet.implementation Unit (maxHash .cpp)).Computes () oneOfEach (fun _ => none)
        [.add 1, .add 2, .remove 1, .getEqual 2] ∧
      (LazySet.implementation Unit (maxHash .cpp)).Computes () oneOfEach (fun _ => none)
        [.add 1, .add 2, .remove 1, .getEqual 2] ∧
      (LockHashSet.implementation Unit (maxHash .cpp) 2).Computes () oneOfEach (fun _ => none)
        [.add 1, .add 2, .remove 1, .getEqual 2] :=
  cpp_sets_agree (maxHash .cpp) 2 (by decide) () _

example : results oneOfEach (fun _ => none) [SetOp.add 1, .add 2, .remove 1, .getEqual 2, .contains 1] =
    [.flag true, .flag true, .flag true, .found (some 2), .flag false] := by decide

end ParSweet.Sets
