import ParSweet.Locks.JavaCLHLock
import ParSweet.Locks.MCSProgress
import ParSweet.Locks.TwoCounterLock

/-! Calls of the queue locks return, and nobody is overtaken.

The first of the queue of a `TwoCounterLock` or of the Java `CLHLock` is never held up: its ticket
is the one being served, its predecessor's flag is down. -/
namespace ParSweet.Locks.TwoCounterLock
open Concurrent

variable {τ : Type*} {w : ℕ} [DecidableEq τ]

def Pc.stage : Pc w → Stage
  | .idle => .idle
  | .spin _ => .waiting
  | .critical => .holding

def Pc.rank : Pc w → ℕ
  | .idle => 0
  | .critical => 1
  | .spin _ => 2

def code (τ : Type*) (w : ℕ) : QueueCode (State τ w) τ (Pc w) := ⟨State.pc, Pc.stage, Pc.rank⟩

theorem code_reads : (code τ w).Reads (machine τ w) where
  initial := fun _ => rfl
  step := fun es s t l s' _ hstep => by
    simp only [machine, step] at hstep
    show ∃ p, (code τ w).Turn t (s.pc t) l p ∧ s'.pc = Function.update s.pc t p
    cases hp : s.pc t with
    | idle =>
      simp only [hp, Option.some.injEq, Prod.mk.injEq] at hstep
      obtain ⟨rfl, rfl⟩ := hstep
      exact ⟨.spin s.ticketCounter, .inr ⟨.inl rfl, .enqueue (.inl rfl)⟩, rfl⟩
    | spin ticket =>
      simp only [hp] at hstep
      split_ifs at hstep
      · simp only [Option.some.injEq, Prod.mk.injEq] at hstep
        obtain ⟨rfl, rfl⟩ := hstep
        exact ⟨.spin ticket, .inl ⟨rfl, rfl, .inl rfl⟩, by rw [← hp, Function.update_eq_self]⟩
      · simp only [Option.some.injEq, Prod.mk.injEq] at hstep
        obtain ⟨rfl, rfl⟩ := hstep
        exact ⟨.critical, .inr ⟨.inr Nat.one_lt_two, .enter⟩, rfl⟩
    | critical =>
      simp only [hp, Option.some.injEq, Prod.mk.injEq] at hstep
      obtain ⟨rfl, rfl⟩ := hstep
      exact ⟨.idle, .inr ⟨.inr Nat.zero_lt_one, .leave (.inr rfl)⟩, rfl⟩
  can := fun es s t _ => by
    simp only [machine, step]
    split
    · rfl
    · split <;> rfl
    · rfl

section First
variable [Fintype τ] (hcard : Fintype.card τ ≤ 2 ^ w)
include hcard

theorem keepsOrder : KeepsOrder (machine τ w) :=
  Concurrent.keepsOrder ((simulation τ w hcard).comp (TicketLock.simulation τ))

/-- The ticket of the first of the queue is the one being served. -/
theorem first_goes_on {es : List (LockEvent τ)} {s s' : State τ w} {t : τ} {q : List τ} {l : Option (LockEvent τ)}
    (hrun : (machine τ w).system.Run es s) (hq : queue es = t :: q) (hstep : step s t = some (l, s')) :
    s'.pc t ≠ s.pc t := by
  obtain ⟨f, hf, a, ⟨_, h⟩, hqueued⟩ := ((simulation τ w hcard).comp (TicketLock.simulation τ)).run hrun
  have hfirst : f.queue[0]? = some t := by
    rw [← FifoLock.run_queue hf, hq]
    rfl
  have hticket : a.ticket t = some a.served := (hqueued.ticket t a.served).mpr ⟨0, rfl, hfirst⟩
  have hat := h.thread t
  unfold step at hstep
  cases hp : s.pc t with
  | idle =>
    simp only [hp, Option.some.injEq, Prod.mk.injEq] at hstep
    obtain ⟨_, rfl⟩ := hstep
    simp [State.goto]
  | critical =>
    simp only [hp, Option.some.injEq, Prod.mk.injEq] at hstep
    obtain ⟨_, rfl⟩ := hstep
    simp [State.goto]
  | spin ticket =>
    rw [hp] at hat
    obtain ⟨k, hk, rfl⟩ := hat
    obtain rfl : k = a.served := Option.some.inj ((TicketLock.ticket_waiting hk).symm.trans hticket)
    simp only [hp, h.current, ne_eq, not_true_eq_false, if_false, Option.some.injEq, Prod.mk.injEq] at hstep
    obtain ⟨_, rfl⟩ := hstep
    simp [State.goto]

/-- **Every call of `lock()` and `unlock()` returns** under every fair schedule, across any number
of wraps of the counters. -/
theorem twoCounterLock_callsReturn : (code τ w).CallsReturn (machine τ w) :=
  code_reads.callsReturn_of_first (keepsOrder hcard) fun _ _ _ _ _ _ hrun hq hstep =>
    first_goes_on hcard hrun hq hstep

end First

/-- Four threads on counters of two bits. -/
theorem twoCounterLock_callsReturn_full : (code (Fin 4) 2).CallsReturn (machine (Fin 4) 2) :=
  twoCounterLock_callsReturn (by decide)

end ParSweet.Locks.TwoCounterLock

namespace ParSweet.Locks.JavaCLHLock
open Concurrent

variable {τ : Type*} [DecidableEq τ]

def Pc.stage : Pc → Stage
  | .idle | .fault => .idle
  | .raise _ | .swap _ => .before
  | .setPredecessor _ | .spin _ => .waiting
  | .critical | .lower _ => .holding
  | .adopt | .forget => .after

def Pc.rank : Pc → ℕ
  | .idle | .fault => 0
  | .forget => 1
  | .adopt => 2
  | .lower _ => 3
  | .critical => 4
  | .spin _ => 5
  | .setPredecessor _ => 6
  | .swap _ => 7
  | .raise _ => 8

def code (τ : Type*) : QueueCode (State τ) τ Pc := ⟨State.pc, Pc.stage, Pc.rank⟩

omit [DecidableEq τ] in
/-- A turn that goes on. -/
theorem turn_of_goes {t : τ} {p q : Pc} {l : Option (LockEvent τ)} (hrank : p = .idle ∨ q.rank < p.rank)
    (hgoes : Stage.Goes t p.stage l q.stage) : (code τ).Turn t p l q :=
  .inr ⟨hrank.imp (fun hp => by rw [hp]; rfl) id, hgoes⟩

theorem State.goto_pc (s : State τ) (t u : τ) (pc : Pc) :
    (s.goto t pc).pc u = if u = t then pc else s.pc u := Function.update_apply ..

/-- Only a null pointer keeps a thread from taking its turn. -/
theorem next_isSome {s : State τ} {t : τ} (h : s.pc t ≠ .fault) : (next s t).isSome := by
  unfold next
  split <;> first | rfl | grind

theorem code_reads : (code τ).Reads (machine τ) where
  initial := fun _ => rfl
  step := fun es s t l s' hrun hstep => by
    obtain ⟨a, _, h⟩ := (simulation τ).run hrun
    have hat := h.thread t
    simp only [machine, next] at hstep
    show ∃ p, (code τ).Turn t (s.pc t) l p ∧ s'.pc = Function.update s.pc t p
    cases hp : s.pc t with
    | idle =>
      rw [hp] at hat
      rcases hat with ⟨hnode, _⟩ | ⟨q, hnode, _⟩ <;>
        simp only [hp, State.getNode, hnode, Option.some.injEq, Prod.mk.injEq] at hstep <;>
        obtain ⟨rfl, rfl⟩ := hstep <;>
        exact ⟨_, turn_of_goes (.inl rfl) .begin, rfl⟩
    | critical =>
      rw [hp] at hat
      obtain ⟨q, p, hnode, _, _⟩ := hat
      simp only [hp, State.getNode, hnode, Option.some.injEq, Prod.mk.injEq] at hstep
      obtain ⟨rfl, rfl⟩ := hstep
      exact ⟨.lower q, turn_of_goes (.inr (by simp [Pc.rank])) (.within (by simp [Pc.stage])), rfl⟩
    | spin p =>
      simp only [hp] at hstep
      split_ifs at hstep
      · simp only [Option.some.injEq, Prod.mk.injEq] at hstep
        obtain ⟨rfl, rfl⟩ := hstep
        exact ⟨.spin p, .inl ⟨rfl, rfl, .inl rfl⟩, by rw [← hp, Function.update_eq_self]⟩
      · simp only [Option.some.injEq, Prod.mk.injEq] at hstep
        obtain ⟨rfl, rfl⟩ := hstep
        exact ⟨.critical, turn_of_goes (.inr (by simp [Pc.rank])) .enter, rfl⟩
    | raise q =>
      simp only [hp, Option.some.injEq, Prod.mk.injEq] at hstep
      obtain ⟨rfl, rfl⟩ := hstep
      exact ⟨.swap q, turn_of_goes (.inr (by simp [Pc.rank])) (.within (by simp [Pc.stage])), rfl⟩
    | swap q =>
      simp only [hp, Option.some.injEq, Prod.mk.injEq] at hstep
      obtain ⟨rfl, rfl⟩ := hstep
      exact ⟨.setPredecessor s.tail, turn_of_goes (.inr (by simp [Pc.rank])) (.enqueue (.inr rfl)), rfl⟩
    | setPredecessor p =>
      simp only [hp, Option.some.injEq, Prod.mk.injEq] at hstep
      obtain ⟨rfl, rfl⟩ := hstep
      exact ⟨.spin p, turn_of_goes (.inr (by simp [Pc.rank])) (.within (by simp [Pc.stage])), rfl⟩
    | lower q =>
      simp only [hp, Option.some.injEq, Prod.mk.injEq] at hstep
      obtain ⟨rfl, rfl⟩ := hstep
      exact ⟨.adopt, turn_of_goes (.inr (by simp [Pc.rank])) (.leave (.inl rfl)), rfl⟩
    | adopt =>
      simp only [hp, Option.some.injEq, Prod.mk.injEq] at hstep
      obtain ⟨rfl, rfl⟩ := hstep
      exact ⟨.forget, turn_of_goes (.inr (by simp [Pc.rank])) (.within (by simp [Pc.stage])), rfl⟩
    | forget =>
      simp only [hp, Option.some.injEq, Prod.mk.injEq] at hstep
      obtain ⟨rfl, rfl⟩ := hstep
      exact ⟨.idle, turn_of_goes (.inr (by simp [Pc.rank])) .back, rfl⟩
    | fault => simp [hp] at hstep
  can := fun es s t hrun => by
    obtain ⟨a, _, h⟩ := (simulation τ).run hrun
    have hat := h.thread t
    refine next_isSome fun hp => ?_
    rw [hp] at hat
    exact hat

theorem keepsOrder : KeepsOrder (machine τ) :=
  Concurrent.keepsOrder ((simulation τ).comp (ClhQueue.simulation τ 0))

/-- The first of the queue stands behind the node that nobody owns, whose flag is down. -/
theorem first_goes_on {es : List (LockEvent τ)} {s s' : State τ} {t : τ} {q : List τ} {l : Option (LockEvent τ)}
    (hrun : (machine τ).system.Run es s) (hq : queue es = t :: q) (hstep : next s t = some (l, s')) :
    s'.pc t ≠ s.pc t := by
  obtain ⟨f, hf, a, h, m, hqueued⟩ := ((simulation τ).comp (ClhQueue.simulation τ 0)).run hrun
  have hat := h.thread t
  cases hp : s.pc t with
  | spin p =>
    rw [hp] at hat
    obtain ⟨k, _, _, hx⟩ := hat
    have hdown : s.locked p = false := by
      rw [← h.locked]
      exact hqueued.first_free ((FifoLock.run_queue hf).symm.trans hq) hx
    simp only [next, hp, hdown, Bool.false_eq_true, if_false, Option.some.injEq, Prod.mk.injEq] at hstep
    obtain ⟨_, rfl⟩ := hstep
    simp [State.goto]
  | _ =>
    simp only [next, hp] at hstep
    grind [State.goto_pc]

/-- **Every call of `lock()` and `unlock()` returns** under every fair schedule. -/
theorem java_clhLock_callsReturn : (code τ).CallsReturn (machine τ) :=
  code_reads.callsReturn_of_first keepsOrder fun _ _ _ _ _ _ hrun hq hstep => first_goes_on hrun hq hstep

end ParSweet.Locks.JavaCLHLock

namespace ParSweet.Locks
open Concurrent

/-- **Nobody is overtaken at the queue locks**: while a thread waits at an `MCSLock`, a
`TwoCounterLock` or a Java `CLHLock`, those that enter had queued before it, each of them once. -/
theorem queueLocks_noOvertaking (τ κ : Type*) [DecidableEq τ] [DecidableEq κ] [Fintype τ] (L : Lang)
    (slot : τ → κ) (hslot : Function.Injective slot) (w : ℕ) (hcard : Fintype.card τ ≤ 2 ^ w) :
    QueueCode.NoOvertaking (MCSLock.machine L slot).system ∧
      QueueCode.NoOvertaking (JavaCLHLock.machine τ).system ∧
        QueueCode.NoOvertaking (TwoCounterLock.machine τ w).system :=
  ⟨(MCSLock.code_reads hslot).noOvertaking (MCSLock.keepsOrder hslot),
    JavaCLHLock.code_reads.noOvertaking JavaCLHLock.keepsOrder,
    TwoCounterLock.code_reads.noOvertaking (TwoCounterLock.keepsOrder hcard)⟩

/-- Four threads, with slots of their own and counters of two bits. -/
theorem queueLocks_noOvertaking_four :
    QueueCode.NoOvertaking (MCSLock.machine .java (id : Fin 4 → Fin 4)).system ∧
      QueueCode.NoOvertaking (JavaCLHLock.machine (Fin 4)).system ∧
        QueueCode.NoOvertaking (TwoCounterLock.machine (Fin 4) 2).system :=
  queueLocks_noOvertaking (Fin 4) (Fin 4) .java id Function.injective_id 2 (by decide)

end ParSweet.Locks
