import ParSweet.Concurrent.QueueLock
import ParSweet.Locks.MCSHandOff

/-! Calls of `MCSLock` return.

The first of the queue is held up only by a successor that has swapped its node and not linked it
yet, and such a successor waits for nobody. So those up to a thread that waits always have one among
them that goes on, and a thread that awaits its successor's link gets it. -/
namespace ParSweet.Locks.MCSLock
open Concurrent

def Pc.stage : Pc → Stage
  | .idle | .fault => .idle
  | .allocate | .setNode .. | .getNode _ | .swap _ => .before
  | .branch .. | .raise .. | .link .. | .spin _ => .waiting
  | .critical | .getOwn _ | .checkNext _ | .compareExchange _ | .awaitNext _ | .loadNext _ | .lower .. => .holding
  | .clearNext _ => .after

/-- The accesses that are left of `get()`. -/
def getRank : ThreadLocal.Get → ℕ
  | .read => 0
  | .mark => 1
  | .clear => 2
  | .test => 3

def Pc.rank : Pc → ℕ
  | .idle | .fault => 0
  | .clearNext _ => 1
  | .lower .. => 2
  | .loadNext _ => 3
  | .awaitNext _ => 4
  | .compareExchange _ => 5
  | .checkNext _ => 6
  | .getOwn g => 7 + getRank g
  | .critical => 11
  | .spin _ => 12
  | .link .. => 13
  | .raise .. => 14
  | .branch .. => 15
  | .swap _ => 16
  | .getNode g => 17 + getRank g
  | .setNode _ .store => 21
  | .setNode _ .mark => 22
  | .allocate => 23

variable {τ κ : Type*}

def code (τ κ : Type*) : QueueCode (State τ κ) τ Pc := ⟨State.pc, Pc.stage, Pc.rank⟩

/-- A turn that goes on. -/
theorem turn_of_goes {t : τ} {p q : Pc} {l : Option (LockEvent τ)} (hrank : p = .idle ∨ q.rank < p.rank)
    (hgoes : Stage.Goes t p.stage l q.stage) : (code τ κ).Turn t p l q :=
  .inr ⟨hrank.imp (fun hp => by rw [hp]; rfl) id, hgoes⟩

variable [DecidableEq τ] [DecidableEq κ] {L : Lang} {slot : τ → κ} {s s' : State τ κ} {t : τ}
  {l : Option (LockEvent τ)}

omit [DecidableEq κ] in
/-- A turn that ends at `q`. -/
theorem exists_turn {p q : Pc} {r : State τ κ} (hpc : r.pc = s.pc) (hrank : p = .idle ∨ q.rank < p.rank)
    (hgoes : Stage.Goes t p.stage l q.stage) :
    ∃ q', (code τ κ).Turn t p l q' ∧ (r.goto t q).pc = Function.update s.pc t q' :=
  ⟨q, turn_of_goes hrank hgoes, by rw [← hpc]; rfl⟩

omit [DecidableEq τ] in
theorem initialGet_pc (s : State τ κ) (i : κ) : (s.initialGet i).1.pc = s.pc := by
  unfold State.initialGet
  split <;> rfl

/-- **What a turn does to a thread's place**, if it does not find a null pointer. -/
theorem step_turn (hstep : step L slot s t = some (l, s')) (hfault : s'.pc t ≠ .fault) :
    ∃ p, (code τ κ).Turn t (s.pc t) l p ∧ s'.pc = Function.update s.pc t p := by
  have hget := initialGet_pc s (slot t)
  cases hp : s.pc t with
  | idle =>
    cases L with
    | cpp =>
      simp only [step, hp] at hstep
      split_ifs at hstep <;> simp only [Option.some.injEq, Prod.mk.injEq] at hstep <;> obtain ⟨rfl, rfl⟩ := hstep <;>
        exact exists_turn rfl (.inl rfl) .begin
    | java =>
      simp only [step, hp] at hstep
      split at hstep <;> simp only [Option.some.injEq, Prod.mk.injEq] at hstep <;> obtain ⟨rfl, rfl⟩ := hstep
      · next q heq =>
        rw [heq] at hget
        exact exists_turn hget (.inl rfl) .begin
      · simp [State.goto] at hfault
  | allocate =>
    simp only [step, hp, Option.some.injEq, Prod.mk.injEq] at hstep
    obtain ⟨rfl, rfl⟩ := hstep
    exact exists_turn rfl (.inr (by simp [Pc.rank])) (.within (by simp [Pc.stage]))
  | setNode q put =>
    cases put with
    | mark =>
      simp only [step, hp, ThreadLocal.Put.step, Option.some.injEq, Prod.mk.injEq] at hstep
      obtain ⟨rfl, rfl⟩ := hstep
      exact exists_turn rfl (.inr (by simp [Pc.rank])) (.within (by simp [Pc.stage]))
    | store =>
      simp only [step, hp, ThreadLocal.Put.step, Option.some.injEq, Prod.mk.injEq] at hstep
      obtain ⟨rfl, rfl⟩ := hstep
      exact exists_turn rfl (.inr (by simp [Pc.rank, getRank])) (.within (by simp [Pc.stage]))
  | getNode g =>
    cases g with
    | test =>
      simp only [step, hp, ThreadLocal.Get.step, Option.some.injEq, Prod.mk.injEq] at hstep
      obtain ⟨rfl, rfl⟩ := hstep
      exact exists_turn rfl (.inr (by split <;> simp [Pc.rank, getRank])) (.within (by simp [Pc.stage]))
    | clear | mark =>
      simp only [step, hp, ThreadLocal.Get.step, Option.some.injEq, Prod.mk.injEq] at hstep
      obtain ⟨rfl, rfl⟩ := hstep
      exact exists_turn rfl (.inr (by simp [Pc.rank, getRank])) (.within (by simp [Pc.stage]))
    | read =>
      cases hdata : s.myNode.dataArr (slot t) with
      | none =>
        simp only [step, hp, ThreadLocal.Get.step, hdata, Option.some.injEq, Prod.mk.injEq] at hstep
        obtain ⟨rfl, rfl⟩ := hstep
        simp [State.goto] at hfault
      | some q =>
        simp only [step, hp, ThreadLocal.Get.step, hdata, Option.some.injEq, Prod.mk.injEq] at hstep
        obtain ⟨rfl, rfl⟩ := hstep
        exact exists_turn rfl (.inr (by simp [Pc.rank, getRank])) (.within (by simp [Pc.stage]))
  | swap q =>
    simp only [step, hp, Option.some.injEq, Prod.mk.injEq] at hstep
    obtain ⟨rfl, rfl⟩ := hstep
    exact exists_turn rfl (.inr (by simp [Pc.rank])) (.enqueue (.inr rfl))
  | branch q predecessor =>
    cases predecessor with
    | none =>
      simp only [step, hp, Option.some.injEq, Prod.mk.injEq] at hstep
      obtain ⟨rfl, rfl⟩ := hstep
      exact exists_turn rfl (.inr (by simp [Pc.rank])) .enter
    | some p =>
      simp only [step, hp, Option.some.injEq, Prod.mk.injEq] at hstep
      obtain ⟨rfl, rfl⟩ := hstep
      exact exists_turn rfl (.inr (by simp [Pc.rank])) (.within (by simp [Pc.stage]))
  | raise q p =>
    simp only [step, hp, Option.some.injEq, Prod.mk.injEq] at hstep
    obtain ⟨rfl, rfl⟩ := hstep
    exact exists_turn rfl (.inr (by simp [Pc.rank])) (.within (by simp [Pc.stage]))
  | link q p =>
    simp only [step, hp, Option.some.injEq, Prod.mk.injEq] at hstep
    obtain ⟨rfl, rfl⟩ := hstep
    exact exists_turn rfl (.inr (by simp [Pc.rank])) (.within (by simp [Pc.stage]))
  | spin q =>
    simp only [step, hp] at hstep
    split_ifs at hstep <;> simp only [Option.some.injEq, Prod.mk.injEq] at hstep <;> obtain ⟨rfl, rfl⟩ := hstep
    · exact ⟨.spin q, .inl ⟨rfl, rfl, .inl rfl⟩, by rw [← hp, Function.update_eq_self]⟩
    · exact exists_turn rfl (.inr (by simp [Pc.rank])) .enter
  | critical =>
    cases L with
    | cpp =>
      simp only [step, hp, Option.some.injEq, Prod.mk.injEq] at hstep
      obtain ⟨rfl, rfl⟩ := hstep
      exact exists_turn rfl (.inr (by simp [Pc.rank, getRank])) (.within (by simp [Pc.stage]))
    | java =>
      simp only [step, hp] at hstep
      split at hstep <;> simp only [Option.some.injEq, Prod.mk.injEq] at hstep <;> obtain ⟨rfl, rfl⟩ := hstep
      · next q heq =>
        rw [heq] at hget
        exact exists_turn hget (.inr (by simp [Pc.rank])) (.within (by simp [Pc.stage]))
      · simp [State.goto] at hfault
  | getOwn g =>
    cases g with
    | test =>
      simp only [step, hp, ThreadLocal.Get.step, Option.some.injEq, Prod.mk.injEq] at hstep
      obtain ⟨rfl, rfl⟩ := hstep
      exact exists_turn rfl (.inr (by split <;> simp [Pc.rank, getRank])) (.within (by simp [Pc.stage]))
    | clear | mark =>
      simp only [step, hp, ThreadLocal.Get.step, Option.some.injEq, Prod.mk.injEq] at hstep
      obtain ⟨rfl, rfl⟩ := hstep
      exact exists_turn rfl (.inr (by simp [Pc.rank, getRank])) (.within (by simp [Pc.stage]))
    | read =>
      cases hdata : s.myNode.dataArr (slot t) with
      | none =>
        simp only [step, hp, ThreadLocal.Get.step, hdata, Option.some.injEq, Prod.mk.injEq] at hstep
        obtain ⟨rfl, rfl⟩ := hstep
        simp [State.goto] at hfault
      | some q =>
        simp only [step, hp, ThreadLocal.Get.step, hdata, Option.some.injEq, Prod.mk.injEq] at hstep
        obtain ⟨rfl, rfl⟩ := hstep
        exact exists_turn rfl (.inr (by simp [Pc.rank, getRank])) (.within (by simp [Pc.stage]))
  | checkNext q =>
    simp only [step, hp] at hstep
    split at hstep <;> simp only [Option.some.injEq, Prod.mk.injEq] at hstep <;> obtain ⟨rfl, rfl⟩ := hstep <;>
      exact exists_turn rfl (.inr (by simp [Pc.rank])) (.within (by simp [Pc.stage]))
  | compareExchange q =>
    simp only [step, hp] at hstep
    split_ifs at hstep <;> simp only [Option.some.injEq, Prod.mk.injEq] at hstep <;> obtain ⟨rfl, rfl⟩ := hstep
    · exact exists_turn rfl (.inr (by simp [Pc.rank])) (.leave (.inr rfl))
    · exact exists_turn rfl (.inr (by simp [Pc.rank])) (.within (by simp [Pc.stage]))
  | awaitNext q =>
    simp only [step, hp] at hstep
    split at hstep <;> simp only [Option.some.injEq, Prod.mk.injEq] at hstep <;> obtain ⟨rfl, rfl⟩ := hstep
    · exact ⟨.awaitNext q, .inl ⟨rfl, rfl, .inr rfl⟩, by rw [← hp, Function.update_eq_self]⟩
    · exact exists_turn rfl (.inr (by simp [Pc.rank])) (.within (by simp [Pc.stage]))
  | loadNext q =>
    simp only [step, hp] at hstep
    split at hstep <;> simp only [Option.some.injEq, Prod.mk.injEq] at hstep <;> obtain ⟨rfl, rfl⟩ := hstep
    · exact exists_turn rfl (.inr (by simp [Pc.rank])) (.within (by simp [Pc.stage]))
    · simp [State.goto] at hfault
  | lower q n =>
    simp only [step, hp, Option.some.injEq, Prod.mk.injEq] at hstep
    obtain ⟨rfl, rfl⟩ := hstep
    exact exists_turn rfl (.inr (by simp [Pc.rank])) (.leave (.inl rfl))
  | clearNext q =>
    simp only [step, hp, Option.some.injEq, Prod.mk.injEq] at hstep
    obtain ⟨rfl, rfl⟩ := hstep
    exact exists_turn rfl (.inr (by simp [Pc.rank])) .back
  | fault => simp [step, hp] at hstep

section Private
variable (hslot : Function.Injective slot)
include hslot

theorem keepsOrder : KeepsOrder (machine L slot) :=
  Concurrent.keepsOrder ((simulation L slot hslot).comp (McsQueue.simulation τ QNode))

theorem code_reads : (code τ κ).Reads (machine L slot) where
  initial := fun _ => rfl
  step := fun es s t l s' hrun hstep => by
    obtain ⟨a, _, h⟩ := (simulation L slot hslot).run (hrun.step ⟨t, hstep⟩)
    exact step_turn hstep (h.thread t).not_fault
  can := fun es s t hrun => by
    obtain ⟨a, _, h⟩ := (simulation L slot hslot).run hrun
    exact step_isSome (h.thread t).not_fault

end Private

/-! ### Who is held up, and who helps -/

/-- It has swapped its node for the tail and not linked it to its predecessor's yet. -/
def Pc.Unlinked : Pc → Prop
  | .branch .. | .raise .. | .link .. => True
  | _ => False

/-- It awaits a link that has not been made. -/
def Awaiting (s : State τ κ) (t : τ) : Prop := ∃ q, s.pc t = .awaitNext q ∧ s.next q = none

/-- What a turn does to the links. -/
theorem step_links (hstep : step L slot s t = some (l, s')) :
    s'.next = s.next ∨ s'.next = (s.initialGet (slot t)).1.next ∨ s'.next = s.create.next ∨
      (∃ q p, s.pc t = .link q p ∧ s'.next = (s.setNext p (some q)).next) ∨
        ∃ q, s.pc t = .clearNext q ∧ s'.next = (s.setNext q none).next := by
  unfold step at hstep
  split at hstep <;> grind [State.goto, State.setLocked]

/-- Only its own thread unlinks a node. -/
theorem step_next (hstep : step L slot s t = some (l, s')) {n : QNode} (hn : s.next n ≠ none)
    (hn' : s'.next n = none) : s.pc t = .clearNext n ∨ n = s.size := by
  rw [or_iff_not_imp_right]
  intro hsize
  have hcreate : s.create.next n = s.next n := by simp [State.create, State.setNext, State.setLocked, hsize]
  have hget : (s.initialGet (slot t)).1.next n = s.next n := by
    unfold State.initialGet
    split
    · rfl
    · exact hcreate
  rcases step_links hstep with he | he | he | ⟨q, p, _, he⟩ | ⟨q, hp, he⟩ <;> rw [he] at hn'
  · exact absurd hn' hn
  · exact absurd (hget.symm.trans hn') hn
  · exact absurd (hcreate.symm.trans hn') hn
  · by_cases hnp : n = p
    · simp [State.setNext, hnp] at hn'
    · simp only [State.setNext, Function.update_of_ne hnp] at hn'
      exact absurd hn' hn
  · by_cases hnq : n = q
    · rw [hnq, hp]
    · simp only [State.setNext, Function.update_of_ne hnq] at hn'
      exact absurd hn' hn

variable {a : McsQueue.State τ QNode} {f : FifoLock.State τ} {u : τ} {q : List τ} {es : List (LockEvent τ)}

omit [DecidableEq τ] [DecidableEq κ] in
/-- Whom the queue sees between its swap and its link is there. -/
theorem At.unlinked (h : At slot s a t (s.pc t)) {p : QNode}
    (hphase : a.phase t = .swapped (some p) ∨ a.phase t = .raising p ∨ a.phase t = .linking p) :
    (s.pc t).Unlinked := by
  cases hp : s.pc t <;> rw [hp] at h
  case branch | raise | link => trivial
  case fault => exact h.elim
  all_goals rw [h.1] at hphase; simp at hphase

/-- Whoever awaits its successor's link is the first, and the second is about to make the link. -/
theorem second_unlinked (hslot : Function.Injective slot) (hrun : (machine L slot).system.Run es s)
    (hwait : Awaiting s t) : ∃ u q, queue es = t :: u :: q ∧ (s.pc u).Unlinked := by
  obtain ⟨n, hp, hnext⟩ := hwait
  obtain ⟨f, hf, a, h, hq⟩ := ((simulation L slot hslot).comp (McsQueue.simulation τ QNode)).run hrun
  have hat := h.thread t
  rw [hp] at hat
  obtain ⟨_, hhead⟩ := hq.of_holds (i := t) (by rw [hat.1]; trivial)
  have hlast : f.queue.getLast? ≠ some t := fun hl => by
    have htail := hq.tail
    rw [hl, Option.bind_some, hat.2.2, h.tail] at htail
    exact awaits hslot ⟨es, hrun⟩ t n hp htail
  obtain ⟨u, hu⟩ := (last_or_behind (List.mem_of_mem_head? hhead)).resolve_left hlast
  obtain ⟨m, hm⟩ := hq.exists_node (List.mem_of_mem_tail hu.right_mem)
  have hphase : a.phase u = .swapped (some n) ∨ a.phase u = .raising n ∨ a.phase u = .linking n := by
    rcases hq.behind t u n m hu hat.2.2 hm with ⟨_, hj | hj | ⟨hj, _⟩⟩ | ⟨hj, _⟩
    · exact .inl hj
    · exact .inr (.inl hj)
    · exact .inr (.inr hj)
    · rw [h.next, hnext] at hj
      cases hj
  rw [FifoLock.run_queue hf]
  cases hfq : f.queue with
  | nil =>
    rw [hfq] at hhead
    cases hhead
  | cons x q =>
    rw [hfq] at hhead hu
    obtain rfl : x = t := Option.some.inj hhead
    have hnodup : (x :: q).Nodup := hfq ▸ hq.nodup
    rcases behind_cons.mp hu with ⟨_, hsecond⟩ | hu
    · obtain ⟨q', rfl⟩ := List.head?_eq_some_iff.mp hsecond
      exact ⟨u, q', rfl, (h.thread u).unlinked hphase⟩
    · exact absurd hu.left_mem (List.nodup_cons.mp hnodup).1

omit [DecidableEq τ] in
/-- An access of `set` leads on ... -/
theorem put_leads_on (m : ThreadLocal κ (Option QNode)) (i : κ) (q : Option QNode) (p : ThreadLocal.Put) :
    (p.step m i q).2 ≠ some p := by
  cases p <;> simp [ThreadLocal.Put.step]

omit [DecidableEq τ] in
/-- ... and so does one of `get`. -/
theorem get_leads_on (m : ThreadLocal κ (Option QNode)) (i : κ) (g : ThreadLocal.Get) : (g.step m i).2 ≠ .inl g := by
  cases g <;> simp only [ThreadLocal.Get.step] <;> (try split) <;> simp

/-- Only in a waiting loop that fails does a thread stay where it is. -/
theorem failingSpin_of_stay (hstep : step L slot s t = some (l, s')) (hpc : s'.pc t = s.pc t) : FailingSpin s t := by
  have hput := put_leads_on s.myNode (slot t)
  have hget := get_leads_on s.myNode (slot t)
  unfold step at hstep
  split at hstep <;> grind [State.goto_pc, FailingSpin]

/-- The first of the queue goes on, unless it awaits a link. -/
theorem first_goes_on (hslot : Function.Injective slot) (hrun : (machine L slot).system.Run es s)
    (hq : queue es = t :: q) (hwait : ¬ Awaiting s t) (hstep : step L slot s t = some (l, s')) :
    s'.pc t ≠ s.pc t := by
  intro hpc
  rcases failingSpin_of_stay hstep hpc with ⟨n, hp, hlocked⟩ | hawait
  · obtain ⟨f, hf, a, h, hqueued⟩ := ((simulation L slot hslot).comp (McsQueue.simulation τ QNode)).run hrun
    have hat := h.thread t
    rw [hp] at hat
    have hhead : f.queue.head? = some t := by
      rw [← FifoLock.run_queue hf, hq]
      rfl
    have hfirst := hqueued.first t n hhead hat.2.2
    simp [McsQueue.First, hat.1, h.locked, hlocked] at hfirst
  · exact hwait hawait

/-- A link that has been made is not taken back by others. -/
theorem not_awaiting_step (hslot : Function.Injective slot) (hrun : (machine L slot).system.Run es s) (hut : u ≠ t)
    (hwait : ¬ Awaiting s t) (hstep : step L slot s u = some (l, s')) (hpc : s'.pc t = s.pc t) : ¬ Awaiting s' t := by
  rintro ⟨n, hp, hnext⟩
  rw [hpc] at hp
  obtain ⟨a, _, h⟩ := (simulation L slot hslot).run hrun
  have hat := h.thread t
  rw [hp] at hat
  rcases step_next hstep (fun hn => hwait ⟨n, hp, hn⟩) hnext with hclear | rfl
  · have hat' := h.thread u
    rw [hclear] at hat'
    exact h.ne_of_keeps hat.2 hat'.2 hut rfl
  · exact h.unused _ (Nat.le_refl _) t hat.2.2

/-- Whoever has not linked its node yet helps, and so does the first of the queue, unless it
awaits a link. -/
def Helps (es : List (LockEvent τ)) (s : State τ κ) (t : τ) : Prop :=
  (s.pc t).Unlinked ∨ ((∃ q, queue es = t :: q) ∧ ¬ Awaiting s t)

theorem rank_holding {p : Pc} (h : p.stage = .holding) : p.rank ≤ 11 := by
  cases p with
  | getOwn g => cases g <;> simp [Pc.rank, getRank]
  | critical | checkNext q | compareExchange q | awaitNext q | loadNext q | lower q n => simp [Pc.rank]
  | _ => cases h

section Fair
variable (hslot : Function.Injective slot) {sched : ℕ → τ} (hfair : (machine L slot).Fair id (code τ κ).Busy sched)
include hslot hfair

/-- Those who wait enter. -/
theorem waiting_passes (t : τ) : (machine L slot).LeadsTo sched (fun _ s => (s.pc t).stage = .waiting)
    fun _ s => (code τ κ).Passed t .waiting s := by
  have hreads := code_reads (L := L) hslot
  refine hreads.passes_queued hfair (keepsOrder hslot) (.inl rfl) Helps (fun es s hrun ht => ?_)
    (fun es s u l s' hrun hhelps hstep => ?_) fun es s u v l s' hrun hhelps hvu hstep => ?_
  · have hin : t ∈ queue es := ((hreads.queue hrun).2 t).mpr (.inl ht)
    obtain ⟨u, q, hq⟩ := List.exists_cons_of_ne_nil (List.ne_nil_of_mem hin)
    by_cases hwait : Awaiting s u
    · -- the first does not wait for the lock, so the second is not behind `t`
      obtain ⟨v, q', hq', hunlinked⟩ := second_unlinked hslot hrun hwait
      have hut : u ≠ t := by
        rintro rfl
        obtain ⟨n, hp, _⟩ := hwait
        have ht : (s.pc u).stage = .waiting := ht
        rw [hp] at ht
        cases ht
      refine ⟨v, ?_, .inl hunlinked⟩
      rw [QueueCode.upTo, hq', List.takeWhile_cons, if_pos (by simpa using hut)]
      by_cases hvt : v = t <;> simp [hvt]
    · exact ⟨u, QueueCode.first_mem_upTo hq, .inr ⟨⟨q, hq⟩, hwait⟩⟩
  · rcases hhelps with hunlinked | ⟨⟨q, hq⟩, hwait⟩
    · intro hpc
      rcases failingSpin_of_stay hstep hpc with ⟨n, hp, _⟩ | ⟨n, hp, _⟩ <;> rw [hp] at hunlinked <;> exact hunlinked
    · exact first_goes_on hslot hrun hq hwait hstep
  · have hpc : s'.pc u = s.pc u := hreads.others hrun hstep hvu.symm
    rcases hhelps with hunlinked | ⟨⟨q, hq⟩, hwait⟩
    · exact .inl (by rwa [hpc])
    · obtain ⟨q', hq'⟩ := hreads.first_stays (keepsOrder hslot) hrun hq hvu hstep
      exact .inr ⟨⟨q ++ q', hq'⟩, not_awaiting_step hslot hrun hvu hwait hstep hpc⟩

/-- Whoever holds the lock and does not await a link goes on until it has left, or does. -/
theorem holding_goes_on (t : τ) (n : ℕ) : (machine L slot).LeadsTo sched
    (fun _ s => (s.pc t).stage = .holding ∧ ¬ Awaiting s t ∧ (s.pc t).rank ≤ n)
    fun _ s => (code τ κ).Passed t .holding s ∨ (Awaiting s t ∧ (s.pc t).rank < n) := by
  have hreads := code_reads (L := L) hslot
  refine .of_helper (fun _ s => (s.pc t).rank) (fun _ _ u => u = t) hfair (fun _ _ _ _ => ⟨t, rfl⟩) ?_ ?_
  · rintro es s u - ⟨ht, _⟩ rfl
    show (s.pc u).stage ≠ .idle
    rw [ht]
    nofun
  · rintro es s u l s' hrun ⟨ht, hwait, hn⟩ hstep
    by_cases hut : u = t
    · subst hut
      rcases hreads.turn hrun hstep with ⟨_, hpc, _⟩ | ⟨hrank, hgoes⟩
      · rcases failingSpin_of_stay hstep hpc with ⟨q, hp, _⟩ | hawait
        · rw [hp] at ht
          cases ht
        · exact absurd hawait hwait
      · have hless : (s'.pc u).rank < (s.pc u).rank := hrank.resolve_left fun hidle => by
          rw [show (s.pc u).stage = .idle from hidle] at ht
          cases ht
        by_cases hx : (s'.pc u).stage = .holding
        · by_cases hawait : Awaiting s' u
          · exact .goal (.inr ⟨hawait, Nat.lt_of_lt_of_le hless hn⟩)
          · exact .less ⟨hx, hawait, by omega⟩ hless
        · exact .goal (.inl ⟨hx, l, ht ▸ hgoes⟩)
    · have hpc : s'.pc t = s.pc t := hreads.others hrun hstep (Ne.symm hut)
      refine .keep ⟨by rw [hpc, ht], not_awaiting_step hslot hrun hut hwait hstep hpc, by rwa [hpc]⟩ (by rw [hpc]) ?_
      rintro v rfl
      exact ⟨hut, rfl⟩

/-- The link that a thread awaits is made. -/
theorem awaiting_ends (t : τ) : (machine L slot).LeadsTo sched (fun _ s => Awaiting s t)
    fun _ s => (s.pc t).stage = .holding ∧ ¬ Awaiting s t ∧ (s.pc t).rank ≤ 4 := by
  have hreads := code_reads (L := L) hslot
  refine .of_helper (fun es s => (queue es)[1]?.elim 0 fun u => (s.pc u).rank)
    (fun es _ u => ∃ q, queue es = t :: u :: q) hfair (fun es s hrun hwait => ?_) ?_ ?_
  · obtain ⟨u, q, hq, _⟩ := second_unlinked hslot hrun hwait
    exact ⟨u, q, hq⟩
  · rintro es s u hrun - ⟨q, hq⟩ hidle
    have := ((hreads.queue hrun).2 u).mp (by simp [hq])
    simp [hidle, Stage.Queued] at this
  · intro es s v l s' hrun hwait hstep
    obtain ⟨u, q, hq, hunlinked⟩ := second_unlinked hslot hrun hwait
    obtain ⟨n, hp, hnext⟩ := id hwait
    by_cases hvt : v = t
    · subst hvt
      have hut : v ≠ u := by
        have hnodup := (hreads.queue hrun).1
        rw [hq] at hnodup
        exact fun he => (List.nodup_cons.mp hnodup).1 (he ▸ List.mem_cons_self)
      simp only [machine, step, hp, hnext, Option.some.injEq, Prod.mk.injEq] at hstep
      obtain ⟨rfl, rfl⟩ := hstep
      simp only [Option.toList_none, List.append_nil]
      refine .keep hwait (Nat.le_refl _) ?_
      rintro w ⟨q', hq'⟩
      obtain ⟨rfl, _⟩ : u = w ∧ q = q' := by simpa using hq.symm.trans hq'
      exact ⟨hut, q, hq⟩
    · have hpc : s'.pc t = s.pc t := hreads.others hrun hstep (Ne.symm hvt)
      by_cases hwait' : Awaiting s' t
      · obtain ⟨q', hq'⟩ := hreads.first_stays (keepsOrder hslot) hrun hq hvt hstep
        rw [List.cons_append] at hq'
        by_cases hvu : v = u
        · subst hvu
          refine .less hwait' ?_
          rcases hreads.turn hrun hstep with ⟨_, hstay, _⟩ | ⟨hrank, _⟩
          · rcases failingSpin_of_stay hstep hstay with ⟨m, hm, _⟩ | ⟨m, hm, _⟩ <;> rw [hm] at hunlinked <;>
              exact hunlinked.elim
          · have hless : (s'.pc v).rank < (s.pc v).rank := hrank.resolve_left fun hidle => by
              have := ((hreads.queue hrun).2 v).mp (by simp [hq])
              simp [hidle, Stage.Queued] at this
            simpa [hq, hq'] using hless
        · have hpcu : s'.pc u = s.pc u := hreads.others hrun hstep (Ne.symm hvu)
          refine .keep hwait' (by simp [hq, hq', hpcu]) ?_
          rintro w ⟨q'', hq''⟩
          obtain ⟨rfl, _⟩ : u = w ∧ q = q'' := by simpa using hq.symm.trans hq''
          exact ⟨hvu, _, hq'⟩
      · rw [hp] at hpc
        exact .goal ⟨by rw [hpc]; rfl, hwait', by rw [hpc]; exact Nat.le_refl 4⟩

/-- Those who hold the lock leave. -/
theorem holding_passes (t : τ) : (machine L slot).LeadsTo sched (fun _ s => (s.pc t).stage = .holding)
    fun _ s => (code τ κ).Passed t .holding s := by
  have hlinked : (machine L slot).LeadsTo sched
      (fun _ s => (s.pc t).stage = .holding ∧ ¬ Awaiting s t ∧ (s.pc t).rank ≤ 4)
      fun _ s => (code τ κ).Passed t .holding s := by
    refine (holding_goes_on hslot hfair t 4).trans (.of_imp ?_)
    rintro es s - (hpassed | ⟨⟨n, hp, _⟩, hlt⟩)
    · exact hpassed
    · rw [hp] at hlt
      exact absurd hlt (Nat.lt_irrefl 4)
  have hawaits := (awaiting_ends hslot hfair t).trans hlinked
  intro n hn
  by_cases hwait : Awaiting ((machine L slot).state sched n) t
  · exact hawaits n hwait
  · obtain ⟨m, hm, hp | ⟨hp, _⟩⟩ := holding_goes_on hslot hfair t 11 n ⟨hn, hwait, rank_holding hn⟩
    · exact ⟨m, hm, hp⟩
    · obtain ⟨k, hk, hp⟩ := hawaits m hp
      exact ⟨k, Nat.le_trans hm hk, hp⟩

end Fair

/-- **Every call of `lock()` and `unlock()` returns** under every fair schedule. -/
theorem mcsLock_callsReturn (L : Lang) (slot : τ → κ) (hslot : Function.Injective slot) :
    (code τ κ).CallsReturn (machine L slot) :=
  (code_reads hslot).callsReturn (fun _ hfair t => waiting_passes hslot hfair t) fun _ hfair t =>
    holding_passes hslot hfair t

/-- Three threads with slots of their own. -/
theorem mcsLock_callsReturn_three :
    (code (Fin 3) (Fin 3)).CallsReturn (machine .cpp (id : Fin 3 → Fin 3)) :=
  mcsLock_callsReturn .cpp id Function.injective_id

end ParSweet.Locks.MCSLock
