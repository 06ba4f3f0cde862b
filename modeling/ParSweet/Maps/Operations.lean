import ParSweet.Concurrent.Calls
import ParSweet.Hash

/-! The operations of the maps and what they mean. -/
namespace ParSweet.Maps

/-- `outValue` is what the variable passed to `get` holds before the call, if anything; Java
has no such parameter, and calls `del` `remove`. -/
inductive MapOp (K V : Type*) where
  | put (key : K) (value : V)
  | get (key : K) (outValue : Option V)
  | del (key : K)

/-- The key an operation is about. -/
def MapOp.key {K V : Type*} : MapOp K V → K
  | .put key _ => key
  | .get key _ => key
  | .del key => key

/-- In C++ `put` and `del` answer with a flag, and `get` with a flag and what `outValue`
holds then; in Java all three answer with a value or `null`. -/
inductive MapRes (V : Type*) where
  | flag (b : Bool)
  | got (b : Bool) (outValue : Option V)
  | value (v : Option V)
  deriving DecidableEq

/-- What an operation of a map answers when `old` is the value of its key, if it has one. -/
def MapOp.answer {K V : Type*} (L : Lang) (old : Option V) : MapOp K V → MapRes V
  | .put _ _ =>
    match L with
    | .cpp => .flag true
    | .java => .value old
  | .get _ outValue =>
    match L with
    | .cpp => .got old.isSome (old.or outValue)
    | .java => .value old
  | .del _ =>
    match L with
    | .cpp => .flag old.isSome
    | .java => .value old

variable {K V : Type*} [BEq K]

/-- The mathematical map: the last value put wins. -/
def lastWins (L : Lang) (op : MapOp K V) (M : K → Option V) : MapRes V × (K → Option V) :=
  (op.answer L (M op.key),
    match op with
    | .put key value => fun x => if key == x then some value else M x
    | .get _ _ => M
    | .del key => fun x => if key == x then none else M x)

/-- `hash % (NumBuckets - 1)`; the remainder of a negative hash is not positive. -/
def getBucketIndexOfKey {L : Lang} (H : Hash L K) (NumBuckets : ℕ) (key : K) : Int :=
  (H.hash key).tmod (NumBuckets - 1)

variable {L : Lang} {H : Hash L K} {NumBuckets : ℕ} {k k' : K}

/-- Equal keys have one bucket. -/
theorem index_eq (h : (k == k') = true) :
    getBucketIndexOfKey H NumBuckets k = getBucketIndexOfKey H NumBuckets k' := by
  rw [getBucketIndexOfKey, getBucketIndexOfKey, H.respects k k' h]

/-- With two buckets or more, every index is below their number, and in C++ none is negative. -/
theorem index_lt (hN : 2 ≤ NumBuckets) : getBucketIndexOfKey H NumBuckets k < NumBuckets := by
  have := Int.tmod_lt_of_pos (H.hash k) (b := (NumBuckets : Int) - 1) (by omega)
  rw [getBucketIndexOfKey]
  omega

theorem index_nonneg {H : Hash .cpp K} : 0 ≤ getBucketIndexOfKey H NumBuckets k :=
  Int.tmod_nonneg _ (H.lower k)

end ParSweet.Maps
