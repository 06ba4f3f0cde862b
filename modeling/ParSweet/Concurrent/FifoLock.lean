import ParSweet.Concurrent.System

/-! Locks that let threads in one at a time and in the order in which they queued.

`FifoLock.system` is the lock as one would wish it to be: threads queue, the first
of the queue enters when nobody is inside, and whoever is inside leaves. A lock
whose steps are matched by it, in its own order of queueing, excludes and keeps that
order (`excludesInOrder`). -/
namespace ParSweet.Concurrent

/-- What is seen of a queue lock. -/
inductive LockEvent (τ : Type*) where
  /-- `t` has taken its place in the queue. -/
  | enqueue (t : τ)
  /-- `lock()` returns. -/
  | enter (t : τ)
  /-- The lock is given up. -/
  | leave (t : τ)
  deriving DecidableEq

namespace LockEvent
variable {τ : Type*}

def enqueued? : LockEvent τ → Option τ
  | .enqueue t => some t
  | _ => none

def entered? : LockEvent τ → Option τ
  | .enter t => some t
  | _ => none

/-- The same event, of `f t` instead of `t`. -/
def map {ι : Type*} (f : τ → ι) : LockEvent τ → LockEvent ι
  | .enqueue t => .enqueue (f t)
  | .enter t => .enter (f t)
  | .leave t => .leave (f t)

/-- What an event does to the queue of those who have queued and not left. -/
def toQueue [DecidableEq τ] (q : List τ) : LockEvent τ → List τ
  | .enqueue t => q ++ [t]
  | .enter _ => q
  | .leave t => q.erase t

end LockEvent

variable {σ τ : Type*}

/-- The threads that have queued, in order. -/
def enqueued (es : List (LockEvent τ)) : List τ := es.filterMap LockEvent.enqueued?

/-- The threads that have entered, in order. -/
def entered (es : List (LockEvent τ)) : List τ := es.filterMap LockEvent.entered?

/-- Mutual exclusion, in every reachable state, and first come, first served, over
every run: the threads that have entered are the first of those that have queued. -/
def ExcludesInOrder (S : System σ (LockEvent τ)) (Inside : σ → τ → Prop) : Prop :=
  (∀ s, S.Reachable s → ∀ t u, Inside s t → Inside s u → t = u) ∧
    ∀ es s, S.Run es s → entered es <+: enqueued es

/-- The same of every run with fewer than `n` calls of `lock()`. -/
def ExcludesInOrderBelow (n : ℕ) (S : System σ (LockEvent τ)) (Inside : σ → τ → Prop) : Prop :=
  ∀ es s, S.Run es s → (enqueued es).length < n →
    (∀ t u, Inside s t → Inside s u → t = u) ∧ entered es <+: enqueued es

/-- The threads that have queued and not left, oldest first. -/
def queue [DecidableEq τ] (es : List (LockEvent τ)) : List τ := es.foldl LockEvent.toQueue []

theorem enqueued_append (es fs : List (LockEvent τ)) : enqueued (es ++ fs) = enqueued es ++ enqueued fs :=
  List.filterMap_append

namespace FifoLock

structure State (τ : Type*) where
  inside : Option τ
  waiting : List τ

inductive Step : State τ → Option (LockEvent τ) → State τ → Prop where
  | enqueue {o q t} : Step ⟨o, q⟩ (some (.enqueue t)) ⟨o, q ++ [t]⟩
  | enter {t q} : Step ⟨none, t :: q⟩ (some (.enter t)) ⟨some t, q⟩
  | leave {t q} : Step ⟨some t, q⟩ (some (.leave t)) ⟨none, q⟩

def system (τ : Type*) : System (State τ) (LockEvent τ) where
  initial := ⟨none, []⟩
  step := Step

variable {es : List (LockEvent τ)} {a : State τ}

/-- Those who wait are those who have queued and not entered yet. -/
theorem run_waiting (h : (system τ).Run es a) : entered es ++ a.waiting = enqueued es := by
  induction h with
  | refl => rfl
  | step _ hstep ih =>
    simp only [entered, enqueued] at ih ⊢
    cases hstep with
    | enqueue => simp [List.filterMap_cons, LockEvent.entered?, LockEvent.enqueued?, ← ih]
    | enter => simp [List.filterMap_cons, LockEvent.entered?, LockEvent.enqueued?, ← ih]
    | leave => simp [List.filterMap_cons, LockEvent.entered?, LockEvent.enqueued?, ← ih]

/-- Whoever is inside and those who wait, in the order of the queue. -/
def State.queue (a : State τ) : List τ := a.inside.toList ++ a.waiting

theorem State.mem_queue {t : τ} : t ∈ a.queue ↔ a.inside = some t ∨ t ∈ a.waiting := by
  simp [queue]

/-- Another one queues behind all. -/
theorem State.queue_concat (t : τ) : State.queue ⟨a.inside, a.waiting ++ [t]⟩ = a.queue ++ [t] :=
  (List.append_assoc ..).symm

theorem path_queue [DecidableEq τ] {b : State τ} (h : (system τ).Path a es b) :
    es.foldl LockEvent.toQueue a.queue = b.queue := by
  induction h with
  | refl => rfl
  | step _ hstep ih =>
    rw [List.foldl_append, ih]
    cases hstep with
    | enqueue => exact List.append_assoc ..
    | enter => rfl
    | leave => exact List.erase_cons_head ..

/-- **A lock that the ideal lock simulates excludes, and keeps the order.** -/
theorem excludesInOrder {S : System σ (LockEvent τ)} {Inside : σ → τ → Prop}
    (sim : System.Simulation S (system τ))
    (hin : ∀ s a t, sim.Rel s a → Inside s t → a.inside = some t) : ExcludesInOrder S Inside := by
  refine ⟨fun s hs t u ht hu => ?_, fun es s hs => ?_⟩
  · obtain ⟨es, hs⟩ := hs
    obtain ⟨a, _, hrel⟩ := sim.run hs
    exact Option.some.inj ((hin s a t hrel ht).symm.trans (hin s a u hrel hu))
  · obtain ⟨a, ha, _⟩ := sim.run hs
    exact ⟨a.waiting, run_waiting ha⟩

end FifoLock

end ParSweet.Concurrent
