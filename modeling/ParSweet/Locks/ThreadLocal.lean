import Mathlib.Logic.Function.Basic
import Mathlib.Tactic.TypeStar

/-! `ThreadLocal<T, MaxThreads>` of the C++ suite: two arrays with a slot for each
thread index, and the single reads and writes its methods are made of. -/
namespace ParSweet.Locks

structure ThreadLocal (κ α : Type*) where
  setArr : κ → Bool
  dataArr : κ → α

namespace ThreadLocal
variable {κ α : Type*} [DecidableEq κ] [Inhabited α]

/-- Nothing is set. -/
def empty : ThreadLocal κ α := ⟨fun _ => false, fun _ => default⟩

/-- `setArr[idx] = true` -/
def mark (l : ThreadLocal κ α) (idx : κ) : ThreadLocal κ α :=
  {l with setArr := Function.update l.setArr idx true}

/-- `dataArr[idx] = val` -/
def store (l : ThreadLocal κ α) (idx : κ) (val : α) : ThreadLocal κ α :=
  {l with dataArr := Function.update l.dataArr idx val}

/-- Where a thread stands in `get()`. -/
inductive Get where
  /-- `!setArr[idx]` -/
  | test
  /-- `dataArr[idx] = T()` -/
  | clear
  /-- `setArr[idx] = true` -/
  | mark
  /-- Reading through the reference that `get()` returns. -/
  | read
  deriving DecidableEq

/-- One access of `get()`: it goes on, or has read the value. -/
def Get.step (l : ThreadLocal κ α) (idx : κ) : Get → ThreadLocal κ α × (Get ⊕ α)
  | .test => (l, .inl (if l.setArr idx then .read else .clear))
  | .clear => (l.store idx default, .inl .mark)
  | .mark => (l.mark idx, .inl .read)
  | .read => (l, .inr (l.dataArr idx))

/-- Where a thread stands in `set(val)`. -/
inductive Put where
  /-- `setArr[idx] = true` -/
  | mark
  /-- `dataArr[idx] = val` -/
  | store
  deriving DecidableEq

/-- One access of `set(val)`: it goes on, or is over. -/
def Put.step (l : ThreadLocal κ α) (idx : κ) (val : α) : Put → ThreadLocal κ α × Option Put
  | .mark => (l.mark idx, some .store)
  | .store => (l.store idx val, none)

/-- The slot holds `val`. -/
def Holds (l : ThreadLocal κ α) (idx : κ) (val : α) : Prop := l.setArr idx = true ∧ l.dataArr idx = val

/-- Two thread-locals agree on a slot. -/
def Agrees (l l' : ThreadLocal κ α) (idx : κ) : Prop :=
  l'.setArr idx = l.setArr idx ∧ l'.dataArr idx = l.dataArr idx

variable {l l' : ThreadLocal κ α} {idx idx' : κ} {val val' : α}

omit [DecidableEq κ] [Inhabited α] in
theorem Agrees.rfl : l.Agrees l idx := ⟨Eq.refl _, Eq.refl _⟩

omit [Inhabited α] in
theorem agrees_mark (h : idx' ≠ idx) : l.Agrees (l.mark idx) idx' := ⟨by simp [mark, h], Eq.refl _⟩

omit [Inhabited α] in
theorem agrees_store (h : idx' ≠ idx) : l.Agrees (l.store idx val) idx' :=
  ⟨Eq.refl _, by simp [store, h]⟩

end ThreadLocal

end ParSweet.Locks
