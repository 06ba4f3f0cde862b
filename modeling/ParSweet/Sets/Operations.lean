import Mathlib.Data.Set.Insert
import ParSweet.Concurrent.AtomicObject
import ParSweet.Sets.Node

/-! The operations of the sets, what they mean, and the code the three list sets
have in common: the loop condition of `find` and the callbacks `find` is given. -/
namespace ParSweet.Sets
open Concurrent

inductive SetOp (T : Type*) where
  | add (t : T)
  | remove (t : T)
  | contains (t : T)
  | getEqual (t : T)

/-- The element an operation is about. -/
def SetOp.element {T : Type*} : SetOp T → T
  | .add t => t
  | .remove t => t
  | .contains t => t
  | .getEqual t => t

/-- `add`, `remove` and `contains` answer with a flag, `getEqual` with the stored
element or nothing. -/
inductive SetRes (T : Type*) where
  | flag (b : Bool)
  | found (x : Option T)
  deriving DecidableEq

/-! ### The mathematical set -/

section Meaning
variable {T : Type*} [BEq T]

/-- An element equal to `t` is in the set. -/
def Member (t : T) (A : Set T) : Prop := ∃ x ∈ A, (t == x) = true

/-- The operations on a mathematical set of elements up to `==`. -/
inductive SetApply : SetOp T → Set T → SetRes T → Set T → Prop where
  | contains {t b A} : (b = true ↔ Member t A) → SetApply (.contains t) A (.flag b) A
  | getEqual {t x A} : x ∈ A → (t == x) = true → SetApply (.getEqual t) A (.found (some x)) A
  | getEqualMissing {t A} : ¬ Member t A → SetApply (.getEqual t) A (.found none) A
  | add {t A} : ¬ Member t A → SetApply (.add t) A (.flag true) (insert t A)
  | addPresent {t A} : Member t A → SetApply (.add t) A (.flag false) A
  | remove {t A} : Member t A → SetApply (.remove t) A (.flag true) {x ∈ A | (t == x) = false}
  | removeMissing {t A} : ¬ Member t A → SetApply (.remove t) A (.flag false) A

theorem SetApply.add_cases {t : T} {A B : Set T} {r : SetRes T} (h : SetApply (.add t) A r B) :
    (¬ Member t A ∧ r = .flag true ∧ B = insert t A) ∨ (Member t A ∧ r = .flag false ∧ B = A) := by
  cases h with
  | add h => exact .inl ⟨h, rfl, rfl⟩
  | addPresent h => exact .inr ⟨h, rfl, rfl⟩

theorem SetApply.remove_cases {t : T} {A B : Set T} {r : SetRes T} (h : SetApply (.remove t) A r B) :
    (Member t A ∧ r = .flag true ∧ B = {x ∈ A | (t == x) = false}) ∨
      (¬ Member t A ∧ r = .flag false ∧ B = A) := by
  cases h with
  | remove h => exact .inl ⟨h, rfl, rfl⟩
  | removeMissing h => exact .inr ⟨h, rfl, rfl⟩

theorem not_member_empty {t : T} : ¬ Member t (∅ : Set T) := fun ⟨_, h, _⟩ => h.elim

/-- The sets start empty. -/
def setSpec : Spec (SetOp T) (SetRes T) (Set T) := ⟨∅, SetApply⟩

end Meaning

section Code
variable {τ T : Type*} [BEq T] {L : Lang}

/-! ### The loop condition of `find`

`current->next && current->key <= key && (key != current->key || t != current->value)`;
the load of `current->next` stays with the machine. -/

def keepWalking (H : Hash L T) (t : T) (current : AtomicNode T) : Bool :=
  decide (current.key ≤ H.hash t) && (decide (H.hash t ≠ current.key) || some t != current.value)

/-! ### The callbacks -/

/-- Where a callback stands. -/
inductive Callback (T : Type*) where
  | enter
  /-- `newNode` is made; next, `predecessor->next` is loaded for it. -/
  | addLoad (newNode : AtomicNode T)
  | addStore (newNode : AtomicNode T) (succ : Option NodeId)
  | addLink (newNode : AtomicNode T)
  /-- `current->deleted = true`, in the lazy set. -/
  | mark
  | removeLoad
  | removeStore (succ : Option NodeId)

/-- One step of the callback of `op` on a pair of nodes: it goes on, or is over
with the operation's answer. In Java `newNode.next = current` needs no load;
`markable` is the lazy set. -/
def Callback.step (H : Hash L T) (markable : Bool) (s : Store τ T) (op : SetOp T)
    (predecessor current : NodeId) : Callback T → Store τ T × (Callback T ⊕ SetRes T)
  | .enter =>
    let value := (s.node current).value
    match op with
    | .contains t => (s, .inr (.flag (some t == value)))
    | .getEqual t => (s, .inr (.found (if some t == value then value else none)))
    | .add t =>
      if some t == value then (s, .inr (.flag false))
      else
        let newNode : AtomicNode T := ⟨H.hash t, some t, none⟩
        match L with
        | .cpp => (s, .inl (.addLoad newNode))
        | .java => (s, .inl (.addStore newNode (some current)))
    | .remove t =>
      if some t == value then (s, .inl (if markable then .mark else .removeLoad))
      else (s, .inr (.flag false))
  | .addLoad newNode => (s, .inl (.addStore newNode (s.node predecessor).next))
  | .addStore newNode succ => (s, .inl (.addLink {newNode with next := succ}))
  | .addLink newNode => (s.publish predecessor newNode, .inr (.flag true))
  | .mark => (s.mark current, .inl .removeLoad)
  | .removeLoad => (s, .inl (.removeStore (s.node current).next))
  | .removeStore succ => (s.setNext predecessor succ, .inr (.flag true))

theorem keepWalking_congr {H H' : Hash L T} {t : T} (h : H.hash t = H'.hash t) (n : AtomicNode T) :
    keepWalking H t n = keepWalking H' t n := by
  simp only [keepWalking, h]

theorem Callback.step_congr {H H' : Hash L T} {op : SetOp T} (h : H.hash op.element = H'.hash op.element)
    (cb : Callback T) (markable : Bool) (s : Store τ T) (p c : NodeId) :
    cb.step H markable s op p c = cb.step H' markable s op p c := by
  cases cb with
  | enter =>
    cases op with
    | add t =>
      have h : H.hash t = H'.hash t := h
      cases L <;> simp only [Callback.step, h]
    | _ => rfl
  | _ => rfl

end Code

end ParSweet.Sets
