import Mathlib.Data.Int.ConditionallyCompleteOrder
import Mathlib.Order.ConditionallyCompleteLattice.Basic
import Mathlib.Order.WithBot
import ParSweet.Concurrent.Links
import ParSweet.Hash

/-! The nodes of the list sets, and the store they live in.

A node is known by its number: 0 is the head sentinel, 1 the tail sentinel, and
every other node gets the next number when it is linked into the list. Until then
a new node is private to the thread that made it and lives in that thread's local
state. -/
namespace ParSweet.Sets
open Concurrent

abbrev NodeId := ℕ

def head : NodeId := 0

def tail : NodeId := 1

/-- `AtomicNode`; the sentinels hold no value. -/
structure AtomicNode (T : Type*) where
  key : Int
  value : Option T
  next : Option NodeId

/-- All nodes ever linked. `deleted` is the extra field of `AtomicMarkableNode`,
which only the lazy set reads or writes; `mutex n` is the thread that holds the
lock of `n`. -/
structure Store (τ T : Type*) where
  size : ℕ
  node : NodeId → AtomicNode T
  deleted : NodeId → Bool
  mutex : NodeId → Option τ

namespace Store
variable {τ T : Type*}

/-- The empty list: the head sentinel, whose successor is the tail sentinel. -/
def initial (L : Lang) : Store τ T where
  size := 2
  node := fun n => if n = head then ⟨L.headKey, none, some tail⟩ else ⟨L.tailKey, none, none⟩
  deleted := fun _ => false
  mutex := fun _ => none

def next (s : Store τ T) (n : NodeId) : Option NodeId := (s.node n).next

/-- Locking a free mutex; on a held one there is nothing to take. -/
def tryAcquire (s : Store τ T) (me : τ) (n : NodeId) : Option (Store τ T) :=
  match s.mutex n with
  | none => some {s with mutex := Function.update s.mutex n (some me)}
  | some _ => none

def release (s : Store τ T) (n : NodeId) : Store τ T :=
  {s with mutex := Function.update s.mutex n none}

/-- `n->next = succ`. -/
def setNext (s : Store τ T) (n : NodeId) (succ : Option NodeId) : Store τ T :=
  {s with node := Function.update s.node n {s.node n with next := succ}}

/-- `p->next = newNode`: the private node becomes part of the store, with the next
number. -/
def publish (s : Store τ T) (p : NodeId) (newNode : AtomicNode T) : Store τ T where
  size := s.size + 1
  node := Function.update (Function.update s.node s.size newNode) p
    {s.node p with next := some s.size}
  deleted := Function.update s.deleted s.size false
  mutex := s.mutex

/-- `n->deleted = true`. -/
def mark (s : Store τ T) (n : NodeId) : Store τ T :=
  {s with deleted := Function.update s.deleted n true}

/-- The node is in the list: the head reaches it. -/
def Live (s : Store τ T) (n : NodeId) : Prop := Links.Reaches s.next head n

/-- The elements of the list. -/
def elements (s : Store τ T) : Set T := {x | ∃ n, s.Live n ∧ (s.node n).value = some x}

/-- Where a node belongs: the head first, the tail last, all others by their key. -/
def sortKey (s : Store τ T) (n : NodeId) : WithBot (WithTop Int) :=
  if n = head then ⊥ else if n = tail then ((⊤ : WithTop Int) : WithBot (WithTop Int))
    else (((s.node n).key : WithTop Int) : WithBot (WithTop Int))

/-- The order of the list on all nodes ever linked. -/
def Before (s : Store τ T) : NodeId → NodeId → Prop := Links.Before s.sortKey

end Store

end ParSweet.Sets
