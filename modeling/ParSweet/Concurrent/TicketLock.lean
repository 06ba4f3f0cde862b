import Mathlib.Data.Fintype.Card
import Mathlib.Data.List.Nodup
import ParSweet.Concurrent.FifoLock

/-! Locks that hand out numbered tickets.

To queue, a participant draws the next number; it enters when its number is being
served, and on leaving has the next one served. The numbers never run out here, which
is what real counters are compared with. The tickets outstanding are consecutive, one
for every participant in the queue, so the ideal lock simulates this one (`simulation`),
and there are never more of them than there are participants (`tail_le`). -/
namespace ParSweet.Concurrent.TicketLock

variable {ι : Type*}

/-- Where a participant stands. -/
inductive Phase where
  | rest
  | waiting (ticket : ℕ)
  | inside
  deriving DecidableEq

/-- `tail` is the next ticket to be drawn and `served` the one being served. -/
structure State (ι : Type*) where
  tail : ℕ
  served : ℕ
  phase : ι → Phase

inductive Step [DecidableEq ι] : State ι → Option (LockEvent ι) → State ι → Prop where
  | draw {s i} : s.phase i = .rest →
      Step s (some (.enqueue i))
        {s with tail := s.tail + 1, phase := Function.update s.phase i (.waiting s.tail)}
  | enter {s i} : s.phase i = .waiting s.served →
      Step s (some (.enter i)) {s with phase := Function.update s.phase i .inside}
  | leave {s i} : s.phase i = .inside →
      Step s (some (.leave i))
        {s with served := s.served + 1, phase := Function.update s.phase i .rest}

def system (ι : Type*) [DecidableEq ι] : System (State ι) (LockEvent ι) where
  initial := ⟨0, 0, fun _ => .rest⟩
  step := Step

/-! ### The queue -/

/-- The ticket of a participant in the queue; whoever is inside is being served. -/
def State.ticket (s : State ι) (i : ι) : Option ℕ :=
  match s.phase i with
  | .rest => none
  | .waiting k => some k
  | .inside => some s.served

/-- The queue as the ideal lock has it: the tickets outstanding, one after the other. -/
structure Queued (s : State ι) (a : FifoLock.State ι) : Prop where
  tail : s.tail = s.served + a.queue.length
  ticket : ∀ i k, s.ticket i = some k ↔ ∃ j, k = s.served + j ∧ a.queue[j]? = some i
  inside : ∀ i, a.inside = some i ↔ s.phase i = .inside

variable {s s' : State ι} {a : FifoLock.State ι} {i : ι} {k : ℕ} {es : List (LockEvent ι)}

theorem ticket_waiting (h : s.phase i = .waiting k) : s.ticket i = some k := by
  rw [State.ticket, h]

theorem ticket_inside (h : s.phase i = .inside) : s.ticket i = some s.served := by
  rw [State.ticket, h]

/-- Whoever is being served is the first of the queue. -/
theorem Queued.head (h : Queued s a) (hi : s.ticket i = some s.served) : a.queue[0]? = some i := by
  obtain ⟨j, hj, hq⟩ := (h.ticket i s.served).mp hi
  obtain rfl : j = 0 := by omega
  exact hq

/-- Nobody has two tickets, or two places in the queue. -/
theorem Queued.nodup (h : Queued s a) : a.queue.Nodup := by
  rw [List.nodup_iff_getElem?_ne_getElem?]
  intro j l hjl hl he
  obtain ⟨i, hi⟩ : ∃ i, a.queue[j]? = some i := ⟨_, List.getElem?_eq_getElem (by omega)⟩
  have hj := (h.ticket i (s.served + j)).mpr ⟨j, rfl, hi⟩
  have hl := (h.ticket i (s.served + l)).mpr ⟨l, rfl, he ▸ hi⟩
  have : s.served + j = s.served + l := Option.some.inj (hj.symm.trans hl)
  omega

section Steps
variable [DecidableEq ι]

theorem ticket_update {s : State ι} {p : Phase} {tail served : ℕ} (j : ι) :
    (⟨tail, served, Function.update s.phase i p⟩ : State ι).ticket j =
      if j = i then (⟨tail, served, fun _ => p⟩ : State ι).ticket j
      else (⟨tail, served, s.phase⟩ : State ι).ticket j := by
  by_cases hj : j = i
  · subst hj
    simp [State.ticket]
  · simp [State.ticket, hj]

theorem Queued.draw (h : Queued s a) (hi : s.phase i = .rest) :
    Queued {s with tail := s.tail + 1, phase := Function.update s.phase i (.waiting s.tail)}
      ⟨a.inside, a.waiting ++ [i]⟩ := by
  have hq : FifoLock.State.queue ⟨a.inside, a.waiting ++ [i]⟩ = a.queue ++ [i] := FifoLock.State.queue_concat i
  have hout : ∀ j, a.queue[j]? ≠ some i := fun j hj => by
    have := (h.ticket i _).mpr ⟨j, rfl, hj⟩
    rw [State.ticket, hi] at this
    cases this
  refine ⟨?_, fun x k => ?_, fun x => ?_⟩
  · have := h.tail
    simp only [hq, List.length_append, List.length_singleton]
    omega
  · rw [ticket_update, hq]
    by_cases hx : x = i
    · subst hx
      rw [if_pos rfl]
      constructor
      · intro hk
        obtain rfl : s.tail = k := Option.some.inj hk
        exact ⟨a.queue.length, h.tail, by simp⟩
      · rintro ⟨j, rfl, hj⟩
        have hjl : j = a.queue.length := by
          by_contra hne
          rcases Nat.lt_or_ge j a.queue.length with hlt | hge
          · rw [List.getElem?_append_left hlt] at hj
            exact hout j hj
          · rw [List.getElem?_eq_none (by simp; omega)] at hj
            cases hj
        rw [hjl, ← h.tail]
        rfl
    · rw [if_neg hx, show (⟨s.tail + 1, s.served, s.phase⟩ : State ι).ticket x = s.ticket x from rfl,
        h.ticket]
      refine exists_congr fun j => and_congr_right fun _ => ?_
      rcases Nat.lt_trichotomy j a.queue.length with hlt | rfl | hgt
      · rw [List.getElem?_append_left hlt]
      · simp [Ne.symm hx]
      · rw [List.getElem?_eq_none (by omega), List.getElem?_eq_none (by simp; omega)]
  · by_cases hx : x = i
    · subst hx
      have : a.inside ≠ some x := fun hin => by
        rw [h.inside, hi] at hin
        cases hin
      simpa using this
    · simp [hx, h.inside]

/-- Entering, at the front of the queue. -/
theorem Queued.enter (h : Queued s a) (hi : s.phase i = .waiting s.served) :
    ∃ q, a = ⟨none, i :: q⟩ ∧ Queued {s with phase := Function.update s.phase i .inside} ⟨some i, q⟩ := by
  have hhead := h.head (ticket_waiting hi)
  obtain ⟨o, q⟩ := a
  cases o with
  | some x =>
    obtain rfl : x = i := Option.some.inj hhead
    rw [(h.inside x).mp rfl] at hi
    cases hi
  | none =>
    cases q with
    | nil => cases hhead
    | cons x q =>
      obtain rfl : x = i := Option.some.inj hhead
      refine ⟨q, rfl, h.tail, fun y k => ?_, fun y => ?_⟩
      · have hy : ({s with phase := Function.update s.phase x .inside} : State ι).ticket y = s.ticket y := by
          rw [ticket_update]
          by_cases hyx : y = x
          · subst hyx
            rw [if_pos rfl, ticket_waiting hi]
            rfl
          · rw [if_neg hyx]
        rw [hy]
        exact h.ticket y k
      · by_cases hyx : y = x
        · subst hyx
          simp
        · have := h.inside y
          simpa [hyx, Ne.symm hyx] using this

/-- Leaving: the next ticket is served. -/
theorem Queued.leave (h : Queued s a) (hi : s.phase i = .inside) :
    ∃ q, a = ⟨some i, q⟩ ∧
      Queued {s with served := s.served + 1, phase := Function.update s.phase i .rest} ⟨none, q⟩ := by
  obtain ⟨o, q⟩ := a
  obtain rfl : o = some i := (h.inside i).mpr hi
  have hiq : i ∉ q := (List.nodup_cons.mp h.nodup).1
  refine ⟨q, rfl, ?_, fun x k => ?_, fun x => ?_⟩
  · have := h.tail
    simp only [FifoLock.State.queue, Option.toList_some, Option.toList_none, List.length_append, List.length_singleton,
      List.length_nil] at this ⊢
    omega
  · rw [ticket_update]
    by_cases hx : x = i
    · subst hx
      rw [if_pos rfl]
      refine iff_of_false (by simp [State.ticket]) ?_
      rintro ⟨j, _, hj⟩
      exact hiq (List.mem_of_getElem? hj)
    · have hin : s.phase x ≠ .inside := fun hin => hx (Option.some.inj ((h.inside x).mpr hin)).symm
      have hsame : (⟨s.tail, s.served + 1, s.phase⟩ : State ι).ticket x = s.ticket x := by
        cases hp : s.phase x with
        | rest => simp only [State.ticket, hp]
        | waiting m => simp only [State.ticket, hp]
        | inside => exact absurd hp hin
      rw [if_neg hx, hsame, h.ticket]
      dsimp only
      constructor
      · rintro ⟨j, rfl, hj⟩
        cases j with
        | zero => exact absurd (Option.some.inj hj).symm hx
        | succ j => exact ⟨j, by omega, hj⟩
      · rintro ⟨j, rfl, hj⟩
        exact ⟨j + 1, by omega, hj⟩
  · by_cases hx : x = i
    · subst hx
      simp
    · have := h.inside x
      simpa [hx, Ne.symm hx] using this

/-- **The ideal lock simulates the ticket lock.** -/
def simulation (ι : Type*) [DecidableEq ι] : System.Simulation (system ι) (FifoLock.system ι) where
  Rel := Queued
  initial := ⟨rfl, fun i k => by simp [system, FifoLock.system, State.ticket, FifoLock.State.queue], fun i => by
    simp [system, FifoLock.system]⟩
  step := by
    intro s a l s' h hstep
    cases hstep with
    | draw hi => exact ⟨_, System.Path.single .enqueue, h.draw hi⟩
    | enter hi =>
      obtain ⟨q, rfl, h'⟩ := h.enter hi
      exact ⟨_, System.Path.single .enter, h'⟩
    | leave hi =>
      obtain ⟨q, rfl, h'⟩ := h.leave hi
      exact ⟨_, System.Path.single .leave, h'⟩

theorem excludesInOrder (ι : Type*) [DecidableEq ι] :
    ExcludesInOrder (system ι) fun s i => s.phase i = .inside :=
  FifoLock.excludesInOrder (simulation ι) fun _ _ i h hi => (h.inside i).mpr hi

/-! ### What counters may rely on -/

/-- Two numbers less than `n` apart are the same if their remainders are. -/
theorem eq_of_mod_eq {n m k : ℕ} (hle : m ≤ k) (hlt : k < m + n) (hmod : m % n = k % n) : k = m := by
  have hdvd : n ∣ k - m := Nat.dvd_of_mod_eq_zero (Nat.sub_mod_eq_zero_of_mod_eq hmod.symm)
  have := Nat.eq_zero_of_dvd_of_lt hdvd (by omega)
  omega

/-- Tickets are drawn one by one. -/
theorem run_tail (h : (system ι).Run es s) : s.tail = (enqueued es).length := by
  induction h with
  | refl => rfl
  | step _ hstep ih =>
    simp only [enqueued] at ih ⊢
    cases hstep with
    | draw => simp [LockEvent.enqueued?, ih]
    | enter => simpa [List.filterMap_cons, LockEvent.enqueued?] using ih
    | leave => simpa [List.filterMap_cons, LockEvent.enqueued?] using ih

variable (h : (system ι).Reachable s)
include h

/-- A ticket outstanding lies between the one served and the next. -/
theorem ticket_range (hi : s.ticket i = some k) : s.served ≤ k ∧ k < s.tail := by
  obtain ⟨a, _, hq⟩ := (simulation ι).reachable h
  obtain ⟨j, rfl, hj⟩ := (hq.ticket i k).mp hi
  have hlt : j < a.queue.length := (List.getElem?_eq_some_iff.mp hj).1
  have := hq.tail
  omega

/-- Nobody is inside while somebody with the ticket being served waits. -/
theorem not_inside (hi : s.phase i = .waiting s.served) (x : ι) : s.phase x ≠ .inside := by
  obtain ⟨a, _, hq⟩ := (simulation ι).reachable h
  intro hx
  have hxi : x = i := Option.some.inj ((hq.head (ticket_inside hx)).symm.trans (hq.head (ticket_waiting hi)))
  rw [hxi, hi] at hx
  cases hx

/-- There are no more tickets outstanding than participants. -/
theorem tail_le {n : ℕ} (hn : ∀ l : List ι, l.Nodup → l.length ≤ n) : s.tail ≤ s.served + n := by
  obtain ⟨a, _, hq⟩ := (simulation ι).reachable h
  have := hq.tail
  have := hn a.queue hq.nodup
  omega

end Steps

end ParSweet.Concurrent.TicketLock
