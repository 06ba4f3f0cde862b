import ParSweet.Concurrent.TicketLock
import ParSweet.Counter

/-! `TwoCounterLock`, of both suites, with counters of `w` bits: 64 in C++, 32 in Java.

Every thread calls `lock()` and `unlock()` in turn, any number of times. Tickets are
compared modulo `2 ^ w`; as long as there are no more threads than numbers, those
outstanding are all different, however often the counters have wrapped, and the lock is
the ticket lock of its threads (`simulation`). -/
namespace ParSweet.Locks.TwoCounterLock
open Concurrent

/-- Where a thread stands. -/
inductive Pc (w : ℕ) where
  /-- Outside. Next it calls `lock()`, which begins with `ticketCounter.fetch_add(1)`. -/
  | idle
  /-- `currentTicket.load() != ticket` -/
  | spin (ticket : BitVec w)
  /-- `lock()` has returned. Next it calls `unlock()`, which is
  `currentTicket.fetch_add(1)`. -/
  | critical
  deriving DecidableEq

structure State (τ : Type*) (w : ℕ) where
  currentTicket : BitVec w
  ticketCounter : BitVec w
  pc : τ → Pc w

variable {τ : Type*} {w : ℕ} [DecidableEq τ]

def State.goto (s : State τ w) (t : τ) (pc : Pc w) : State τ w := {s with pc := Function.update s.pc t pc}

/-- The next atomic step of a thread. -/
def step (s : State τ w) (t : τ) : Option (Option (LockEvent τ) × State τ w) :=
  match s.pc t with
  | .idle =>
    some (some (.enqueue t), {s with ticketCounter := s.ticketCounter + 1}.goto t (.spin s.ticketCounter))
  | .spin ticket =>
    if s.currentTicket ≠ ticket then some (none, s) else some (some (.enter t), s.goto t .critical)
  | .critical => some (some (.leave t), {s with currentTicket := s.currentTicket + 1}.goto t .idle)

/-- The lock and its threads; the actions are the threads' turns. -/
def machine (τ : Type*) [DecidableEq τ] (w : ℕ) : Machine (State τ w) τ (LockEvent τ) where
  initial := ⟨0, 0, fun _ => .idle⟩
  next := step

/-! ### The ticket lock -/

variable {s s' : State τ w} {a a' : TicketLock.State τ} {t : τ} {l : Option (LockEvent τ)}

/-- Where a thread stands in the code against where it stands with its ticket. -/
def At (w : ℕ) : Pc w → TicketLock.Phase → Prop
  | .idle, p => p = .rest
  | .spin ticket, p => ∃ k, p = .waiting k ∧ ticket = BitVec.ofNat w k
  | .critical, p => p = .inside

/-- The counters are those of the ticket lock, modulo `2 ^ w`. -/
structure Related (s : State τ w) (a : TicketLock.State τ) : Prop where
  current : s.currentTicket = BitVec.ofNat w a.served
  counter : s.ticketCounter = BitVec.ofNat w a.tail
  thread : ∀ t, At w (s.pc t) (a.phase t)

/-- After a turn of `t`, everybody else stands where they stood. -/
theorem Related.turn (h : Related s a) {pc : Pc w} {p : TicketLock.Phase}
    (hstep : TicketLock.Step a l a') (hphase : a'.phase = Function.update a.phase t p)
    (hpc : s'.pc = Function.update s.pc t pc) (hcurrent : s'.currentTicket = BitVec.ofNat w a'.served)
    (hcounter : s'.ticketCounter = BitVec.ofNat w a'.tail) (hself : At w pc p) :
    ∃ b, (TicketLock.system τ).Path a l.toList b ∧ Related s' b := by
  refine ⟨a', System.Path.single hstep, hcurrent, hcounter, fun u => ?_⟩
  rw [hpc, hphase]
  exact update_rel (R := fun _ => At w) hself (fun u _ => h.thread u) u

/-- A spinning thread sees its ticket exactly when the ticket is being served. -/
theorem served_eq [Fintype τ] (hcard : Fintype.card τ ≤ 2 ^ w) (hr : (TicketLock.system τ).Reachable a)
    {k : ℕ} (hk : a.phase t = .waiting k) (heq : BitVec.ofNat w a.served = BitVec.ofNat w k) :
    k = a.served := by
  obtain ⟨hle, hlt⟩ := TicketLock.ticket_range hr (TicketLock.ticket_waiting hk)
  have hspan := TicketLock.tail_le hr (n := 2 ^ w) fun l hl => hl.length_le_card.trans hcard
  have hmod : a.served % 2 ^ w = k % 2 ^ w := by
    simpa only [BitVec.toNat_ofNat] using congrArg BitVec.toNat heq
  exact TicketLock.eq_of_mod_eq hle (by omega) hmod

/-- **The lock is the ticket lock of its threads.** -/
def simulation (τ : Type*) [DecidableEq τ] [Fintype τ] (w : ℕ) (hcard : Fintype.card τ ≤ 2 ^ w) :
    System.Simulation (machine τ w).system (TicketLock.system τ) :=
  .ofReachable Related ⟨rfl, rfl, fun _ => rfl⟩ <| by
    rintro s a l s' hr h ⟨t, hstep⟩
    have hat := h.thread t
    simp only [machine, step] at hstep
    cases hp : s.pc t with
    | idle =>
      rw [hp] at hat
      simp only [hp, Option.some.injEq, Prod.mk.injEq] at hstep
      obtain ⟨rfl, rfl⟩ := hstep
      refine h.turn (.draw hat) rfl rfl h.current ?_ ⟨a.tail, rfl, h.counter⟩
      rw [ofNat_succ, ← h.counter]
      rfl
    | spin ticket =>
      rw [hp] at hat
      obtain ⟨k, hk, rfl⟩ := hat
      by_cases heq : s.currentTicket = BitVec.ofNat w k
      · simp only [hp, heq, ne_eq, not_true_eq_false, if_false, Option.some.injEq, Prod.mk.injEq] at hstep
        obtain ⟨rfl, rfl⟩ := hstep
        obtain rfl := served_eq hcard hr hk (h.current.symm.trans heq)
        exact h.turn (.enter hk) rfl rfl h.current h.counter rfl
      · simp only [hp, ne_eq, heq, not_false_eq_true, if_true, Option.some.injEq, Prod.mk.injEq] at hstep
        obtain ⟨rfl, rfl⟩ := hstep
        exact ⟨a, .refl, h⟩
    | critical =>
      rw [hp] at hat
      simp only [hp, Option.some.injEq, Prod.mk.injEq] at hstep
      obtain ⟨rfl, rfl⟩ := hstep
      refine h.turn (.leave hat) rfl rfl ?_ h.counter rfl
      rw [ofNat_succ, ← h.current]
      rfl

/-- **The lock excludes, first come, first served**, across any number of wraps of its
counters, if there are no more threads than a counter has values. -/
theorem twoCounterLock_excludesInOrder (τ : Type*) [DecidableEq τ] [Fintype τ] (w : ℕ)
    (hcard : Fintype.card τ ≤ 2 ^ w) :
    ExcludesInOrder (machine τ w).system fun s t => s.pc t = .critical := by
  refine FifoLock.excludesInOrder ((simulation τ w hcard).comp (TicketLock.simulation τ)) ?_
  rintro s f t ⟨a, ⟨_, h⟩, hq⟩ hp
  have hat := h.thread t
  rw [hp] at hat
  exact (hq.inside t).mpr hat

/-- Four threads on counters of two bits. -/
theorem twoCounterLock_excludesInOrder_full :
    ExcludesInOrder (machine (Fin 4) 2).system fun s t => s.pc t = .critical :=
  twoCounterLock_excludesInOrder (Fin 4) 2 (by decide)

end ParSweet.Locks.TwoCounterLock
