import ParSweet.Concurrent.TicketLock

/-! Ticket locks on a ring of flags.

The ticket drawn, modulo the size of the ring, is the flag to wait at. Whoever finds it
raised clears it, in a second step, and is inside; on leaving it raises the next flag.
There is one token: the raised flag, seen or not, or the participant inside. As long as
the ring has a flag for every participant, a flag is waited at by one of them at a time,
and the ring is a ticket lock (`simulation`). -/
namespace ParSweet.Concurrent.RingLock

variable {ι : Type*}

/-- Where a participant stands. -/
inductive Phase where
  | rest
  | waiting (slot : ℕ)
  /-- It has found its flag raised and not cleared it yet. -/
  | seen (slot : ℕ)
  | inside (slot : ℕ)

structure State (ι : Type*) where
  tail : ℕ
  flags : ℕ → Bool
  phase : ι → Phase

inductive Step [DecidableEq ι] (N : ℕ) : State ι → Option (LockEvent ι) → State ι → Prop where
  | draw {s i} : s.phase i = .rest →
      Step N s (some (.enqueue i))
        {s with tail := s.tail + 1, phase := Function.update s.phase i (.waiting (s.tail % N))}
  | see {s i slot} : s.phase i = .waiting slot → s.flags slot = true →
      Step N s none {s with phase := Function.update s.phase i (.seen slot)}
  | clear {s i slot} : s.phase i = .seen slot →
      Step N s (some (.enter i))
        {s with
          flags := Function.update s.flags slot false
          phase := Function.update s.phase i (.inside slot) }
  | pass {s i slot} : s.phase i = .inside slot →
      Step N s (some (.leave i))
        {s with
          flags := Function.update s.flags ((slot + 1) % N) true
          phase := Function.update s.phase i .rest }

/-- The first flag is raised. -/
def system (ι : Type*) [DecidableEq ι] (N : ℕ) : System (State ι) (LockEvent ι) where
  initial := ⟨0, fun slot => decide (slot = 0), fun _ => .rest⟩
  step := Step N

/-! ### The ticket lock -/

/-- Where a participant stands on the ring against where it stands with its ticket. -/
def At (N served : ℕ) : Phase → TicketLock.Phase → Prop
  | .rest, p => p = .rest
  | .waiting slot, p => ∃ k, p = .waiting k ∧ slot = k % N
  | .seen slot, p => p = .waiting served ∧ slot = served % N
  | .inside slot, p => p = .inside ∧ slot = served % N

/-- The ring as a ticket lock: the flag of the ticket being served is raised until the
participant with that ticket is inside, and no other flag ever is. -/
structure Related (N : ℕ) (s : State ι) (a : TicketLock.State ι) : Prop where
  tail : s.tail = a.tail
  flags : ∀ slot, s.flags slot = true ↔ slot = a.served % N ∧ ∀ i, a.phase i ≠ .inside
  thread : ∀ i, At N a.served (s.phase i) (a.phase i)

variable {N : ℕ} {s s' : State ι} {a : TicketLock.State ι} {i j : ι} {slot : ℕ} {es : List (LockEvent ι)}

theorem Related.at_of_phase (h : Related N s a) {p : Phase} (hp : s.phase i = p) :
    At N a.served p (a.phase i) := hp ▸ h.thread i

variable [DecidableEq ι]

/-- A step of `i` that leaves the ticket being served alone: nobody else is concerned. -/
theorem Related.thread_update (h : Related N s a) {p : Phase} {q : TicketLock.Phase}
    (hself : At N a.served p q) (j : ι) :
    At N a.served (Function.update s.phase i p j) (Function.update a.phase i q j) :=
  update_rel (R := fun _ => At N a.served) hself (fun j _ => h.thread j) j

theorem Related.draw (h : Related N s a) (hi : s.phase i = .rest) :
    Related N {s with tail := s.tail + 1, phase := Function.update s.phase i (.waiting (s.tail % N))}
      {a with tail := a.tail + 1, phase := Function.update a.phase i (.waiting a.tail)} where
  tail := by simp only [h.tail]
  flags := fun slot => by
    have hrest : a.phase i = .rest := h.at_of_phase hi
    rw [h.flags]
    refine and_congr_right fun _ => forall_congr' fun j => ?_
    by_cases hj : j = i
    · subst hj
      simp [hrest]
    · simp [hj]
  thread := h.thread_update ⟨a.tail, rfl, by rw [h.tail]⟩

/-- A raised flag is seen by the participant with the ticket being served. -/
theorem Related.see (h : Related N s a) (hr : (TicketLock.system ι).Reachable a)
    (hn : ∀ l : List ι, l.Nodup → l.length ≤ N) (hi : s.phase i = .waiting slot)
    (hflag : s.flags slot = true) : Related N {s with phase := Function.update s.phase i (.seen slot)} a := by
  obtain ⟨k, hk, rfl⟩ := h.at_of_phase hi
  obtain ⟨hslot, _⟩ := (h.flags _).mp hflag
  obtain ⟨hle, hlt⟩ := TicketLock.ticket_range hr (TicketLock.ticket_waiting hk)
  have hspan := TicketLock.tail_le hr hn
  obtain rfl := TicketLock.eq_of_mod_eq hle (by omega) hslot.symm
  refine ⟨h.tail, h.flags, fun j => ?_⟩
  have := h.thread_update (i := i) (p := .seen (a.served % N)) ⟨hk, rfl⟩ j
  rwa [Function.update_eq_self] at this

theorem Related.clear (h : Related N s a) (hi : s.phase i = .seen slot) :
    Related N
      {s with
        flags := Function.update s.flags slot false
        phase := Function.update s.phase i (.inside slot) }
      {a with phase := Function.update a.phase i .inside} where
  tail := h.tail
  flags := fun x => by
    obtain ⟨_, hslot⟩ := h.at_of_phase hi
    refine iff_of_false ?_ fun hx => hx.2 i (Function.update_self ..)
    by_cases hx : x = slot
    · simp [hx]
    · simp [hx, h.flags, ← hslot]
  thread := h.thread_update ⟨rfl, (h.at_of_phase hi).2⟩

theorem Related.pass (h : Related N s a) (hr : (TicketLock.system ι).Reachable a)
    (hi : s.phase i = .inside slot) :
    Related N
      {s with
        flags := Function.update s.flags ((slot + 1) % N) true
        phase := Function.update s.phase i .rest }
      {a with served := a.served + 1, phase := Function.update a.phase i .rest} := by
  obtain ⟨hin, rfl⟩ := h.at_of_phase hi
  have honly : ∀ j, a.phase j = .inside → j = i := fun j hj =>
    (TicketLock.excludesInOrder ι).1 a hr j i hj hin
  have hnext : (a.served % N + 1) % N = (a.served + 1) % N := Nat.mod_add_mod ..
  refine ⟨h.tail, fun x => ?_, fun j => ?_⟩
  · have hnobody : ∀ j, Function.update a.phase i .rest j ≠ .inside := fun j hj => by
      by_cases hji : j = i
      · subst hji
        simp at hj
      · rw [Function.update_of_ne hji] at hj
        exact hji (honly j hj)
    rw [and_iff_left hnobody]
    by_cases hx : x = (a.served + 1) % N
    · simp [hx, hnext]
    · have : s.flags x ≠ true := fun hf => ((h.flags x).mp hf).2 i hin
      simp [hx, hnext, this]
  · by_cases hj : j = i
    · subst hj
      simp [At]
    · simp only [Function.update_of_ne hj]
      cases hp : s.phase j with
      | rest => exact h.at_of_phase hp
      | waiting m => exact h.at_of_phase hp
      | seen m => exact absurd hin (TicketLock.not_inside hr (h.at_of_phase hp).1 i)
      | inside m => exact absurd (honly j (h.at_of_phase hp).1) hj

/-- **The ring is a ticket lock**, if it has a flag for every participant. -/
def simulation (hn : ∀ l : List ι, l.Nodup → l.length ≤ N) :
    System.Simulation (system ι N) (TicketLock.system ι) :=
  .ofReachable (Related N)
    ⟨rfl, fun slot => by simp [system, TicketLock.system], fun _ => rfl⟩ <| by
    intro s a l s' hr h hstep
    cases hstep with
    | draw hi => exact ⟨_, System.Path.single (.draw (h.at_of_phase hi)), h.draw hi⟩
    | see hi hflag => exact ⟨a, .refl, h.see hr hn hi hflag⟩
    | clear hi => exact ⟨_, System.Path.single (.enter (h.at_of_phase hi).1), h.clear hi⟩
    | pass hi => exact ⟨_, System.Path.single (.leave (h.at_of_phase hi).1), h.pass hr hi⟩

theorem excludesInOrder (hn : ∀ l : List ι, l.Nodup → l.length ≤ N) :
    ExcludesInOrder (system ι N) fun s i => ∃ slot, s.phase i = .inside slot := by
  refine FifoLock.excludesInOrder ((simulation hn).comp (TicketLock.simulation ι)) ?_
  rintro s f i ⟨a, ⟨_, h⟩, hq⟩ ⟨slot, hp⟩
  exact (hq.inside i).mpr (h.at_of_phase hp).1

/-- Tickets are drawn one by one. -/
theorem run_tail (hn : ∀ l : List ι, l.Nodup → l.length ≤ N) (h : (system ι N).Run es s) :
    s.tail = (enqueued es).length := by
  obtain ⟨a, ha, _, hrel⟩ := (simulation hn).run h
  exact hrel.tail.trans (TicketLock.run_tail ha)

end ParSweet.Concurrent.RingLock
