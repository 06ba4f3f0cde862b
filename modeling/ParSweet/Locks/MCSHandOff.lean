import ParSweet.Locks.MCSLock

/-! Who passes the lock on.

Between a successor's swap and its link, the predecessor that leaves can only wait for
the link, and the successor for its flag. Somebody is always responsible for the next
step (`never_loses_handoff`): the first of the queue, or the successor that the first
waits for, which has swapped its node and not linked it yet. -/
namespace ParSweet.Locks.MCSLock
open Concurrent

variable {τ κ : Type*} [DecidableEq τ] [DecidableEq κ]
variable {L : Lang} {slot : τ → κ} {s s' : State τ κ} {a : McsQueue.State τ QNode} {t u : τ} {q : QNode}

/-- `lock()` or `unlock()` has begun and not returned. -/
def Pc.Pending (pc : Pc) : Prop := pc ≠ .idle ∧ pc ≠ .critical

instance : DecidablePred Pc.Pending := fun _ => inferInstanceAs (Decidable (_ ∧ _))

/-- The thread's next step is a turn of a waiting loop that fails. -/
def FailingSpin (s : State τ κ) (t : τ) : Prop :=
  (∃ qNode, s.pc t = .spin qNode ∧ s.locked qNode = true) ∨
    ∃ qNode, s.pc t = .awaitNext qNode ∧ s.next qNode = none

/-- The thread is inside `lock()` or `unlock()` and gets on with it. -/
def GetsOn (L : Lang) (slot : τ → κ) (s : State τ κ) (t : τ) : Prop :=
  (s.pc t).Pending ∧ ¬ FailingSpin s t ∧ (step L slot s t).isSome

/-- Whoever awaits its successor's link has been told that it has a successor. -/
def Awaits (s : State τ κ) : Prop := ∀ t q, s.pc t = .awaitNext q → s.tail ≠ some q

omit [DecidableEq κ] in
theorem State.goto_pc (s : State τ κ) (t u : τ) (pc : Pc) :
    (s.goto t pc).pc u = if u = t then pc else s.pc u := Function.update_apply ..

/-- What a turn does to the tail, and how a thread comes to await its successor. -/
theorem step_tail {l : Option (LockEvent τ)} (h : step L slot s t = some (l, s')) :
    (∀ u, u ≠ t → s'.pc u = s.pc u) ∧
      (s'.tail = s.tail ∨ s'.tail = none ∨ ∃ q, s.pc t = .swap q ∧ s'.tail = some q) ∧
      ∀ q, s'.pc t = .awaitNext q →
        s'.tail = s.tail ∧ (s.pc t = .awaitNext q ∨ (s.pc t = .compareExchange q ∧ s.tail ≠ some q)) := by
  have hget : (s.initialGet (slot t)).1.pc = s.pc ∧ (s.initialGet (slot t)).1.tail = s.tail := by
    unfold State.initialGet
    split <;> exact ⟨rfl, rfl⟩
  unfold step at h
  split at h <;> grind [State.goto_pc, State.goto, State.setLocked, State.setNext, State.create]

omit [DecidableEq τ] [DecidableEq κ] in
/-- The nodes of two threads are different. -/
theorem Related.ne_of_keeps (h : Related slot s a) {q' : QNode} (hq : Keeps slot s a t q)
    (hq' : Keeps slot s a u q') (hut : u ≠ t) : q ≠ q' := fun he =>
  hut (h.own u t q' hq'.2 (he ▸ hq.2))

theorem Related.awaits (h : Related slot s a) (hw : Awaits s) {l : Option (LockEvent τ)}
    (hstep : step L slot s t = some (l, s')) : Awaits s' := by
  obtain ⟨hpc, htail, hself⟩ := step_tail hstep
  intro u q hu
  by_cases hut : u = t
  · subst hut
    obtain ⟨heq, hp | ⟨_, hne⟩⟩ := hself q hu
    · rw [heq]
      exact hw u q hp
    · rw [heq]
      exact hne
  · rw [hpc u hut] at hu
    rcases htail with heq | heq | ⟨q', hp, heq⟩
    · rw [heq]
      exact hw u q hu
    · simp [heq]
    · rw [heq]
      have hat := h.thread u
      have hat' := h.thread t
      rw [hu] at hat
      rw [hp] at hat'
      exact fun he => h.ne_of_keeps hat'.2 hat.2 hut (Option.some.inj he)

theorem awaits (hslot : Function.Injective slot) (h : (machine L slot).system.Reachable s) : Awaits s := by
  refine h.invariant_of (fun s hs => (simulation L slot hslot).reachable hs) nofun ?_
  rintro s l s' ⟨a, _, hrel⟩ hw ⟨t, hstep⟩
  exact hrel.awaits hw hstep

/-- Only a null pointer keeps a thread from taking its turn. -/
theorem step_isSome (h : s.pc t ≠ .fault) : (step L slot s t).isSome := by
  unfold step
  split <;> first | rfl | grind

omit [DecidableEq τ] [DecidableEq κ] in
theorem At.not_fault (h : At slot s a t (s.pc t)) : s.pc t ≠ .fault := fun hp => by
  rw [hp] at h
  exact h

omit [DecidableEq τ] [DecidableEq κ] in
/-- A thread that the queue knows of and that is not in the critical section is in
`lock()` or in `unlock()`. -/
theorem At.pending (h : At slot s a t (s.pc t)) (hrest : a.phase t ≠ .rest)
    (hcritical : s.pc t ≠ .critical) : (s.pc t).Pending := by
  refine ⟨fun hp => ?_, hcritical⟩
  rw [hp] at h
  exact hrest h.1

omit [DecidableEq τ] [DecidableEq κ] in
/-- Whom the queue sees neither spinning nor inside, waits for nobody. -/
theorem At.not_failingSpin (h : At slot s a t (s.pc t)) (hwaits : a.phase t ≠ .spinning)
    (hinside : a.phase t ≠ .inside) : ¬ FailingSpin s t := by
  rintro (⟨q, hp, _⟩ | ⟨q, hp, _⟩) <;> rw [hp] at h
  · exact hwaits h.1
  · exact hinside h.1

omit [DecidableEq τ] [DecidableEq κ] in
theorem At.not_critical (h : At slot s a t (s.pc t)) (hinside : a.phase t ≠ .inside) :
    s.pc t ≠ .critical := fun hp => by
  rw [hp] at h
  exact hinside h.1

/-- A thread that is in the queue, and that the queue sees neither spinning nor inside,
gets on. -/
theorem At.getsOn (h : At slot s a t (s.pc t)) (hrest : a.phase t ≠ .rest)
    (hwaits : a.phase t ≠ .spinning) (hinside : a.phase t ≠ .inside) : GetsOn L slot s t :=
  ⟨h.pending hrest (h.not_critical hinside), h.not_failingSpin hwaits hinside, step_isSome h.not_fault⟩

/-- The successor that has not linked itself yet gets on with it. -/
theorem Related.getsOn_of_unlinked (h : Related slot s a) {f : FifoLock.State τ}
    (hq : McsQueue.Queued a f) {p n : QNode} (hb : Behind f.queue u t)
    (hu : a.node u = some p) (ht : a.node t = some n) (hp : s.next p = none) : GetsOn L slot s t := by
  have hphase : a.phase t = .swapped (some p) ∨ a.phase t = .raising p ∨ a.phase t = .linking p := by
    rcases hq.behind u t p n hb hu ht with ⟨_, hj | hj | ⟨hj, _⟩⟩ | ⟨hj, _⟩
    · exact .inl hj
    · exact .inr (.inl hj)
    · exact .inr (.inr hj)
    · rw [h.next, hp] at hj
      cases hj
  refine (h.thread t).getsOn ?_ ?_ ?_ <;> rcases hphase with hx | hx | hx <;> simp [hx]

/-- Inside `unlock()`, a thread that waits for its successor's link has a successor
that is about to link itself. -/
theorem Related.exists_getsOn_of_awaitNext (h : Related slot s a) {f : FifoLock.State τ}
    (hq : McsQueue.Queued a f) (hw : Awaits s) (hp : s.pc t = .awaitNext q) (hn : s.next q = none) :
    ∃ u, GetsOn L slot s u := by
  have hat := h.thread t
  rw [hp] at hat
  have hmem : t ∈ f.queue := hq.mem_iff.mpr (.inr (by rw [hat.1]; trivial))
  have hlast : f.queue.getLast? ≠ some t := fun hl => by
    have htail := hq.tail
    rw [hl, Option.bind_some, hat.2.2, h.tail] at htail
    exact hw t q hp htail
  obtain ⟨u, hu⟩ := (last_or_behind hmem).resolve_left hlast
  obtain ⟨n, hun⟩ := hq.exists_node (List.mem_of_mem_tail hu.right_mem)
  exact ⟨u, h.getsOn_of_unlinked hq hu hat.2.2 hun hn⟩

/-- The first of the queue is inside, or somebody gets on: the first itself, or the
successor it waits for. -/
theorem Related.first_getsOn (h : Related slot s a) {f : FifoLock.State τ} (hq : McsQueue.Queued a f)
    (hw : Awaits s) (hfirst : f.queue.head? = some t) :
    s.pc t = .critical ∨ ∃ u, GetsOn L slot s u := by
  obtain ⟨n, hn⟩ := hq.exists_node (List.mem_of_mem_head? hfirst)
  have hat := h.thread t
  rcases hq.first t n hfirst hn with hx | ⟨hx, hl⟩ | hx | ⟨k, hx, _⟩
  · exact .inr ⟨t, hat.getsOn (by simp [hx]) (by simp [hx]) (by simp [hx])⟩
  · -- The flag of a first that spins is down.
    have hspin : ¬ FailingSpin s t := by
      rintro (⟨q, hp, hlocked⟩ | ⟨q, hp, _⟩) <;> rw [hp] at hat
      · obtain rfl : q = n := Option.some.inj (hat.2.2.symm.trans hn)
        rw [← h.locked, hl] at hlocked
        cases hlocked
      · exact absurd (hx.symm.trans hat.1) (by simp)
    exact .inr ⟨t, hat.pending (by simp [hx]) (hat.not_critical (by simp [hx])), hspin,
      step_isSome hat.not_fault⟩
  · by_cases hp : s.pc t = .critical
    · exact .inl hp
    · refine .inr ?_
      by_cases hf : FailingSpin s t
      · rcases hf with ⟨q, hp, _⟩ | ⟨q, hp, hnext⟩
        · rw [hp] at hat
          exact absurd (hx.symm.trans hat.1) (by simp)
        · exact h.exists_getsOn_of_awaitNext hq hw hp hnext
      · exact ⟨t, hat.pending (by simp [hx]) hp, hf, step_isSome hat.not_fault⟩
  · exact .inr ⟨t, hat.getsOn (by simp [hx]) (by simp [hx]) (by simp [hx])⟩

/-- **No hand-off is lost**: whenever some thread is inside `lock()` or `unlock()`,
some thread is in the critical section, or inside `lock()` or `unlock()` with a next
step that is no failing spin. -/
theorem never_loses_handoff (L : Lang) (slot : τ → κ) (hslot : Function.Injective slot)
    (h : (machine L slot).system.Reachable s) (hpending : (s.pc t).Pending) :
    ∃ u, s.pc u = .critical ∨ GetsOn L slot s u := by
  obtain ⟨f, _, a, hrel, hq⟩ :=
    ((simulation L slot hslot).comp (McsQueue.simulation τ QNode)).reachable h
  cases hfirst : f.queue.head? with
  | some u =>
    rcases hrel.first_getsOn hq (awaits hslot h) hfirst with hp | ⟨v, hv⟩
    · exact ⟨u, .inl hp⟩
    · exact ⟨v, .inr hv⟩
  | none =>
    have hout : t ∉ f.queue := by
      rw [List.head?_eq_none_iff.mp hfirst]
      exact List.not_mem_nil
    rw [hq.mem_iff, not_or] at hout
    have hat := hrel.thread t
    have hwaits : a.phase t ≠ .spinning := fun hx => hout.1 (by rw [hx]; trivial)
    have hinside : a.phase t ≠ .inside := fun hx => hout.2 (by rw [hx]; trivial)
    exact ⟨t, .inr ⟨hpending, hat.not_failingSpin hwaits hinside, step_isSome hat.not_fault⟩⟩

/-- The first thread awaits its successor's link, and the second is about to make it. -/
theorem never_loses_handoff_two :
    ∃ s, (machine .java (id : Fin 2 → Fin 2)).system.Reachable s ∧
      (s.pc 0 = .awaitNext 0 ∧ s.next 0 = none) ∧ ∃ u, s.pc u = .critical ∨ GetsOn .java id s u := by
  obtain ⟨s, hs, hp⟩ := Machine.exec_reachable (M := machine .java (id : Fin 2 → Fin 2))
    (P := fun s => s.pc 0 = .awaitNext 0 ∧ s.next 0 = none) [0, 0, 0, 1, 1, 0, 0, 0] (by decide)
  exact ⟨s, hs, hp, never_loses_handoff .java id Function.injective_id hs (by rw [hp.1]; decide)⟩

end ParSweet.Locks.MCSLock
