import Mathlib.Data.Nat.Notation
import Mathlib.Tactic.TypeStar

/-! The two suites and their hash functions. Hash values are `usize` in C++ and
`int` in Java; both are read as integers. The list sets give their sentinels the
keys at the two ends of the range. -/
namespace ParSweet

/-- The two suites. -/
inductive Lang where
  | cpp
  | java
  deriving DecidableEq

/-- The head sentinel's key: `0`, or `Integer.MIN_VALUE`. -/
def Lang.headKey : Lang → Int
  | .cpp => 0
  | .java => -2147483648

/-- The tail sentinel's key: `SIZE_MAX`, or `Integer.MAX_VALUE`. -/
def Lang.tailKey : Lang → Int
  | .cpp => 18446744073709551615
  | .java => 2147483647

/-- A hash function of the language that respects equality. -/
structure Hash (L : Lang) (T : Type*) [BEq T] where
  hash : T → Int
  lower : ∀ t, L.headKey ≤ hash t
  upper : ∀ t, hash t ≤ L.tailKey
  respects : ∀ a b, (a == b) = true → hash a = hash b

/-- A hash function with many collisions: the last hexadecimal digit. -/
def residueHash (L : Lang) : Hash L ℕ where
  hash := fun n => n % 16
  lower := fun n => by cases L <;> simp only [Lang.headKey] <;> omega
  upper := fun n => by cases L <;> simp only [Lang.tailKey] <;> omega
  respects := fun a b h => by rw [eq_of_beq h]

/-- The hash function all of whose values are the tail sentinel's key. -/
def maxHash (L : Lang) : Hash L ℕ where
  hash := fun _ => L.tailKey
  lower := fun _ => by cases L <;> decide
  upper := fun _ => Int.le_refl _
  respects := fun _ _ _ => rfl

end ParSweet
