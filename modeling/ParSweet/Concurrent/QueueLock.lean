import Mathlib.Algebra.GroupWithZero.Nat
import Mathlib.Algebra.Order.BigOperators.Group.List
import Mathlib.Algebra.Order.Group.Nat
import Mathlib.Data.List.Induction
import Mathlib.Data.List.Nodup
import Mathlib.Data.List.TakeWhile
import Mathlib.Data.Nat.Find
import ParSweet.Concurrent.Fairness
import ParSweet.Concurrent.FifoLock

/-! Code whose threads stand in a queue.

`QueueCode` says how the code of a lock is read: where each thread stands, and what that
means for the queue. Of any code read that way whose runs are those of the ideal lock, two
things follow. While a thread waits, those that enter are some that queued before it, each of
them once (`Reads.noOvertaking`); and if the first of the queue is never held up, every call
returns under every fair schedule (`Reads.callsReturn_of_first`). -/
namespace ParSweet.Concurrent

variable {σ τ π : Type*}

/-- Where a thread stands with a lock. -/
inductive Stage where
  | idle
  /-- In `lock()`, and not in the queue yet. -/
  | before
  /-- In the queue. -/
  | waiting
  /-- It has entered, and not left the queue. -/
  | holding
  /-- In `unlock()`, and out of the queue. -/
  | after
  deriving DecidableEq

namespace Stage

def Queued (x : Stage) : Prop := x = .waiting ∨ x = .holding

/-- What a thread may do next, and what it shows of it. -/
inductive Goes (t : τ) : Stage → Option (LockEvent τ) → Stage → Prop where
  | within {x} : x ≠ .idle → Goes t x none x
  | begin : Goes t .idle none .before
  | enqueue {x} : x = .idle ∨ x = .before → Goes t x (some (.enqueue t)) .waiting
  | enter : Goes t .waiting (some (.enter t)) .holding
  | leave {x} : x = .after ∨ x = .idle → Goes t .holding (some (.leave t)) x
  | back : Goes t .after none .idle

end Stage

/-- How code is read: where a thread stands, in which stage that is, and how far it is from
having left the lock again. -/
structure QueueCode (σ τ π : Type*) where
  pc : σ → τ → π
  stage : π → Stage
  rank : π → ℕ

namespace QueueCode

/-- A turn of `t`: a waiting loop goes round once, or `t` goes on. -/
def Turn (C : QueueCode σ τ π) (t : τ) (p : π) (l : Option (LockEvent τ)) (q : π) : Prop :=
  (l = none ∧ q = p ∧ (C.stage p).Queued) ∨
    ((C.stage p = .idle ∨ C.rank q < C.rank p) ∧ Stage.Goes t (C.stage p) l (C.stage q))

/-- The machine's threads are where `C` says, and never stuck. -/
structure Reads [DecidableEq τ] (C : QueueCode σ τ π) (M : Machine σ τ (LockEvent τ)) : Prop where
  initial : ∀ t, C.stage (C.pc M.initial t) = .idle
  step : ∀ es s t l s', M.system.Run es s → M.next s t = some (l, s') →
    ∃ p, C.Turn t (C.pc s t) l p ∧ C.pc s' = Function.update (C.pc s) t p
  can : ∀ es s t, M.system.Run es s → (M.next s t).isSome

end QueueCode

/-- The ideal lock shows whatever the machine shows. -/
def KeepsOrder (M : Machine σ τ (LockEvent τ)) : Prop :=
  ∀ es s, M.system.Run es s → ∃ f, (FifoLock.system τ).Run es f

theorem keepsOrder {M : Machine σ τ (LockEvent τ)} (sim : System.Simulation M.system (FifoLock.system τ)) :
    KeepsOrder M := fun _ _ hrun => (sim.run hrun).imp fun _ h => h.1

namespace FifoLock
variable {es : List (LockEvent τ)} {e : LockEvent τ} {f : State τ}

/-- Every step of the ideal lock shows an event. -/
theorem run_concat (h : (system τ).Run (es ++ [e]) f) : ∃ g, (system τ).Run es g ∧ Step g (some e) f := by
  generalize hfs : es ++ [e] = fs at h
  cases h with
  | refl => simp at hfs
  | @step es' g l _ hrun hstep =>
    obtain ⟨e', rfl⟩ : ∃ e', l = some e' := by cases hstep <;> exact ⟨_, rfl⟩
    obtain ⟨rfl, he⟩ := List.append_inj' hfs rfl
    obtain rfl : e = e' := (List.cons.inj he).1
    exact ⟨g, hrun, hstep⟩

variable [DecidableEq τ]

theorem run_queue (h : (system τ).Run es f) : queue es = f.queue := path_queue h

/-- Whoever leaves is the first of the queue. -/
theorem leave_first {t : τ} (h : (system τ).Run (es ++ [.leave t]) f) : ∃ q, queue es = t :: q := by
  obtain ⟨g, hg, hstep⟩ := run_concat h
  cases hstep
  exact ⟨_, run_queue hg⟩

end FifoLock

namespace QueueCode
variable [DecidableEq τ] {C : QueueCode σ τ π} {M : Machine σ τ (LockEvent τ)} {es : List (LockEvent τ)} {s s' : σ}
  {t u : τ} {l : Option (LockEvent τ)}

theorem Reads.turn (h : C.Reads M) (hrun : M.system.Run es s) (hstep : M.next s t = some (l, s')) :
    C.Turn t (C.pc s t) l (C.pc s' t) := by
  obtain ⟨p, hturn, hpc⟩ := h.step _ _ _ _ _ hrun hstep
  rwa [hpc, Function.update_self]

theorem Reads.others (h : C.Reads M) (hrun : M.system.Run es s) (hstep : M.next s t = some (l, s')) (hu : u ≠ t) :
    C.pc s' u = C.pc s u := by
  obtain ⟨p, _, hpc⟩ := h.step _ _ _ _ _ hrun hstep
  rw [hpc, Function.update_of_ne hu]

theorem queue_append (es fs : List (LockEvent τ)) : queue (es ++ fs) = fs.foldl LockEvent.toQueue (queue es) :=
  List.foldl_append ..

/-- The queue holds those that stand in it, each of them once. -/
theorem Reads.queue (h : C.Reads M) (hrun : M.system.Run es s) :
    (queue es).Nodup ∧ ∀ t, t ∈ queue es ↔ (C.stage (C.pc s t)).Queued := by
  refine hrun.invariant_events (I := fun es s => M.system.Run es s ∧ (Concurrent.queue es).Nodup ∧
    ∀ t, t ∈ Concurrent.queue es ↔ (C.stage (C.pc s t)).Queued) ?_ ?_ |>.2
  · refine ⟨.refl, List.nodup_nil, fun t => ?_⟩
    simp [Concurrent.queue, Stage.Queued, show C.stage (C.pc M.system.initial t) = .idle from h.initial t]
  · rintro es s l s' ⟨hrun, hnodup, hmem⟩ ⟨t, hstep⟩
    have hself := hmem t
    have hother : ∀ u, u ≠ t → (u ∈ Concurrent.queue es ↔ (C.stage (C.pc s' u)).Queued) := fun u hu => by
      rw [hmem, h.others hrun hstep hu]
    refine ⟨hrun.step ⟨t, hstep⟩, ?_⟩
    -- it is enough to say what becomes of the thread that moves
    rcases h.turn hrun hstep with ⟨rfl, hpc, _⟩ | ⟨_, hgoes⟩
    · simp only [Option.toList_none, List.append_nil]
      refine ⟨hnodup, fun u => ?_⟩
      by_cases hu : u = t
      · rw [hu, hpc, hself]
      · exact hother u hu
    · generalize hx : C.stage (C.pc s t) = x at hgoes hself
      generalize hy : C.stage (C.pc s' t) = y at hgoes
      have hsame : (x.Queued ↔ y.Queued) → ∀ u, u ∈ Concurrent.queue es ↔ (C.stage (C.pc s' u)).Queued := by
        intro hxy u
        by_cases hu : u = t
        · rw [hu, hself, hxy, hy]
        · exact hother u hu
      cases hgoes with
      | within _ =>
        simp only [Option.toList_none, List.append_nil]
        exact ⟨hnodup, hsame Iff.rfl⟩
      | begin =>
        simp only [Option.toList_none, List.append_nil]
        exact ⟨hnodup, hsame (by simp [Stage.Queued])⟩
      | back =>
        simp only [Option.toList_none, List.append_nil]
        exact ⟨hnodup, hsame (by simp [Stage.Queued])⟩
      | enter => exact queue_append es _ ▸ ⟨hnodup, hsame (by simp [Stage.Queued])⟩
      | enqueue hout =>
        have ht : t ∉ Concurrent.queue es := fun ht => by
          rcases hout with rfl | rfl <;> simpa [Stage.Queued] using hself.mp ht
        rw [queue_append]
        refine ⟨hnodup.append (List.nodup_singleton t) (List.disjoint_singleton.mpr ht), fun u => ?_⟩
        by_cases hu : u = t
        · subst hu
          simp [LockEvent.toQueue, hy, Stage.Queued]
        · simpa [LockEvent.toQueue, hu] using hother u hu
      | leave hout =>
        rw [queue_append]
        refine ⟨hnodup.erase t, fun u => ?_⟩
        simp only [Option.toList_some, List.foldl_cons, List.foldl_nil, LockEvent.toQueue, hnodup.mem_erase_iff]
        by_cases hu : u = t
        · subst hu
          rcases hout with rfl | rfl <;> simp [hy, Stage.Queued]
        · simpa [hu] using hother u hu

/-! ### Nobody is overtaken twice -/

omit [DecidableEq τ] in
theorem entered_append (es fs : List (LockEvent τ)) : entered (es ++ fs) = entered es ++ entered fs :=
  List.filterMap_append

/-- While a thread waits, those that enter are some of those that queued before it, in their order
and each of them once. -/
def NoOvertaking (S : System σ (LockEvent τ)) : Prop :=
  ∀ es t fs s, S.Run (es ++ .enqueue t :: fs) s → .enter t ∉ fs →
    (Concurrent.queue es).Nodup ∧ entered fs <:+: Concurrent.queue es

/-- **Nobody is overtaken**, by anybody that queues later or by anybody twice. -/
theorem Reads.noOvertaking (h : C.Reads M) (horder : KeepsOrder M) : NoOvertaking M.system := by
  intro es t fs s hrun hwait
  obtain ⟨_, hes, _⟩ := System.Path.split hrun
  obtain ⟨f, hf⟩ := horder _ _ hrun
  obtain ⟨g, hg, _⟩ := System.Path.split hf
  refine ⟨(h.queue hes).1, ?_⟩
  -- those that enter, and those that are left, are those that waited, then `t`, then the rest
  have hlater : entered fs ++ f.waiting = g.waiting ++ t :: enqueued fs := by
    have hall := FifoLock.run_waiting hf
    rw [enqueued_append, ← FifoLock.run_waiting hg, entered_append, List.append_assoc, List.append_assoc] at hall
    exact List.append_cancel_left hall
  have hprefix : entered fs <+: g.waiting := by
    rcases List.append_eq_append_iff.mp hlater with ⟨as, has, _⟩ | ⟨as, has, hrest⟩
    · exact ⟨as, has.symm⟩
    · cases as with
      | nil => exact ⟨[], by rw [has, List.append_nil, List.append_nil]⟩
      | cons u as =>
        obtain rfl : t = u := (List.cons.inj hrest).1
        obtain ⟨e, he, hent⟩ := List.mem_filterMap.mp (show t ∈ entered fs by rw [has]; simp)
        cases e with
        | enter u =>
          obtain rfl : u = t := Option.some.inj hent
          exact absurd he hwait
        | enqueue u => cases hent
        | leave u => cases hent
  rw [FifoLock.run_queue hg, FifoLock.State.queue]
  obtain ⟨as, has⟩ := hprefix
  exact ⟨g.inside.toList, as, by rw [List.append_assoc, has]⟩

/-! ### Every call returns -/

/-- The queue up to `t`. -/
def upTo (es : List (LockEvent τ)) (t : τ) : List τ := (Concurrent.queue es).takeWhile (· ≠ t) ++ [t]

/-- How far those up to `t` are from having left. -/
def distance (C : QueueCode σ τ π) (t : τ) (es : List (LockEvent τ)) (s : σ) : ℕ :=
  ((upTo es t).map fun u => C.rank (C.pc s u)).sum

/-- It is in `lock()`, in `unlock()` or in between. -/
def Busy (C : QueueCode σ τ π) (s : σ) (t : τ) : Prop := C.stage (C.pc s t) ≠ .idle

/-- `t` has gone on from the stage `x` to the next. -/
def Passed (C : QueueCode σ τ π) (t : τ) (x : Stage) (s : σ) : Prop :=
  C.stage (C.pc s t) ≠ x ∧ ∃ l, Stage.Goes t x l (C.stage (C.pc s t))

theorem mem_queue_of_upTo (ht : t ∈ Concurrent.queue es) (hu : u ∈ upTo es t) : u ∈ Concurrent.queue es := by
  rcases List.mem_append.mp hu with hu | hu
  · exact (List.takeWhile_sublist _).subset hu
  · rwa [List.mem_singleton.mp hu]

theorem first_mem_upTo {q : List τ} (hq : Concurrent.queue es = u :: q) : u ∈ upTo es t := by
  rw [upTo, hq, List.takeWhile_cons]
  by_cases hu : u = t <;> simp [hu]

theorem upTo_enqueue (ht : t ∈ Concurrent.queue es) : upTo (es ++ [.enqueue u]) t = upTo es t := by
  rw [upTo, queue_append, List.foldl_cons, List.foldl_nil, LockEvent.toQueue, List.takeWhile_append, if_neg, upTo]
  intro hlen
  -- `t` stops the walk
  have hall := (List.takeWhile_prefix (· ≠ t)).eq_of_length hlen
  have hmem : t ∈ (Concurrent.queue es).takeWhile (· ≠ t) := hall.symm ▸ ht
  simpa using List.mem_takeWhile_imp hmem

/-- Who stands up to `t` changes only when somebody leaves. -/
theorem upTo_goes {x y : Stage} (ht : t ∈ Concurrent.queue es) (hgoes : Stage.Goes u x l y)
    (hl : l ≠ some (.leave u)) : upTo (es ++ l.toList) t = upTo es t := by
  cases hgoes with
  | enqueue _ => exact upTo_enqueue ht
  | leave _ => exact absurd rfl hl
  | _ => simp [upTo, queue_append, LockEvent.toQueue]

theorem upTo_leave {q : List τ} (hq : Concurrent.queue es = u :: q) (hu : u ≠ t) :
    upTo es t = u :: upTo (es ++ [.leave u]) t := by
  rw [upTo, upTo, queue_append, hq, List.foldl_cons, List.foldl_nil, LockEvent.toQueue, List.erase_cons_head,
    List.takeWhile_cons, if_pos (by simpa using hu), List.cons_append]

/-- Until the first of the queue leaves, all stay where they are. -/
theorem Reads.first_stays (h : C.Reads M) (horder : KeepsOrder M) (hrun : M.system.Run es s) {q : List τ}
    (hq : Concurrent.queue es = t :: q) (hut : u ≠ t) (hstep : M.next s u = some (l, s')) :
    ∃ q', Concurrent.queue (es ++ l.toList) = t :: (q ++ q') := by
  have hnot : l ≠ some (.leave u) := by
    rintro rfl
    obtain ⟨f, hf⟩ := horder _ _ (hrun.step ⟨u, hstep⟩)
    obtain ⟨q', hq'⟩ := FifoLock.leave_first hf
    exact hut (List.cons.inj (hq'.symm.trans hq)).1
  rcases h.turn hrun hstep with ⟨rfl, _, _⟩ | ⟨_, hgoes⟩
  · exact ⟨[], by simpa using hq⟩
  · generalize C.stage (C.pc s u) = x at hgoes
    generalize C.stage (C.pc s' u) = y at hgoes
    cases hgoes with
    | leave _ => exact absurd rfl hnot
    | enqueue _ => exact ⟨[u], by simp [queue_append, LockEvent.toQueue, hq]⟩
    | _ => exact ⟨[], by simpa [queue_append, LockEvent.toQueue] using hq⟩

/-- **What a turn does for `t`**, which stands in the queue: `t` passes on, or those up to `t` get
nearer to having left, or it was a turn of nobody among them, or of a waiting loop. -/
theorem Reads.distance_step (h : C.Reads M) (horder : KeepsOrder M) (hrun : M.system.Run es s) {x : Stage}
    (hx : x.Queued) (ht : C.stage (C.pc s t) = x) (hstep : M.next s u = some (l, s')) :
    C.Passed t x s' ∨ (C.stage (C.pc s' t) = x ∧ (C.distance t (es ++ l.toList) s' < C.distance t es s ∨
      (C.distance t (es ++ l.toList) s' ≤ C.distance t es s ∧ upTo (es ++ l.toList) t = upTo es t ∧
        (u ∈ upTo es t → C.pc s' u = C.pc s u)))) := by
  have hin : t ∈ Concurrent.queue es := ((h.queue hrun).2 t).mpr (ht ▸ hx)
  have hbusy : ∀ v ∈ upTo es t, C.stage (C.pc s v) ≠ .idle := fun v hv hidle => by
    have := ((h.queue hrun).2 v).mp (mem_queue_of_upTo hin hv)
    simp [hidle, Stage.Queued] at this
  rcases h.turn hrun hstep with ⟨rfl, hpc, _⟩ | ⟨hrank, hgoes⟩
  · have hsame : ∀ v, C.pc s' v = C.pc s v := fun v => by
      by_cases hv : v = u
      · rw [hv, hpc]
      · exact h.others hrun hstep hv
    simp only [Option.toList_none, List.append_nil, distance, hsame]
    exact .inr ⟨ht, .inr ⟨Nat.le_refl _, trivial, fun _ => trivial⟩⟩
  · have hle : ∀ v ∈ upTo es t, C.rank (C.pc s' v) ≤ C.rank (C.pc s v) := fun v hv => by
      by_cases hvu : v = u
      · subst hvu
        exact Nat.le_of_lt (hrank.resolve_left (hbusy v hv))
      · rw [h.others hrun hstep hvu]
    have hstage : u ≠ t → C.stage (C.pc s' t) = x := fun hut => by rw [h.others hrun hstep hut.symm, ht]
    by_cases hl : l = some (.leave u)
    · -- whoever leaves is the first, so it is `t` or was ahead of it
      subst hl
      obtain ⟨f, hf⟩ := horder _ _ (hrun.step ⟨u, hstep⟩)
      obtain ⟨q, hq⟩ := FifoLock.leave_first hf
      by_cases hut : u = t
      · subst hut
        refine .inl ⟨fun hx' => ?_, _, ht ▸ hgoes⟩
        rw [hx', ht] at hgoes
        cases hgoes with
        | leave hy => simp at hy
      · have hup : upTo es t = u :: upTo (es ++ [.leave u]) t := upTo_leave hq hut
        refine .inr ⟨hstage hut, .inl ?_⟩
        have hu := hrank.resolve_left (hbusy u (hup ▸ List.mem_cons_self))
        have hrest : C.distance t (es ++ [.leave u]) s' ≤ C.distance t (es ++ [.leave u]) s :=
          List.sum_le_sum fun v hv => hle v (hup ▸ List.mem_cons_of_mem u hv)
        have hsum : C.distance t es s = C.rank (C.pc s u) + C.distance t (es ++ [.leave u]) s := by
          rw [distance, hup, List.map_cons, List.sum_cons, distance]
        simp only [Option.toList_some]
        omega
    · have hup : upTo (es ++ l.toList) t = upTo es t := upTo_goes hin hgoes hl
      rw [distance, hup, distance]
      by_cases hu : u ∈ upTo es t
      · have hless := List.sum_lt_sum (fun v => C.rank (C.pc s' v)) (fun v => C.rank (C.pc s v)) hle
          ⟨u, hu, hrank.resolve_left (hbusy u hu)⟩
        by_cases hx' : C.stage (C.pc s' t) = x
        · exact .inr ⟨hx', .inl hless⟩
        · obtain rfl : u = t := not_not.mp fun hut => hx' (hstage hut)
          exact .inl ⟨hx', l, ht ▸ hgoes⟩
      · refine .inr ⟨hstage fun hut => hu ?_, .inr ⟨List.sum_le_sum hle, rfl, fun hu' => absurd hu' hu⟩⟩
        rw [hut]
        exact List.mem_append_right _ (List.mem_singleton_self t)

section Fair
variable {sched : ℕ → τ} {x : Stage} (h : C.Reads M) (hfair : M.Fair id C.Busy sched)
include h hfair

/-- Outside the queue nobody waits for anybody. -/
theorem Reads.passes_outside (hx : x = .before ∨ x = .after) :
    M.LeadsTo sched (fun _ s => C.stage (C.pc s t) = x) fun _ s => C.Passed t x s := by
  refine .of_helper (fun _ s => C.rank (C.pc s t)) (fun _ _ u => u = t) hfair (fun _ _ _ _ => ⟨t, rfl⟩) ?_ ?_
  · rintro es s u - ht rfl
    show C.stage (C.pc s u) ≠ .idle
    rw [ht]
    rcases hx with rfl | rfl <;> nofun
  · intro es s u l s' hrun ht hstep
    by_cases hut : u = t
    · subst hut
      rcases h.turn hrun hstep with ⟨_, _, hq⟩ | ⟨hrank, hgoes⟩
      · rw [ht] at hq
        rcases hx with rfl | rfl <;> simp [Stage.Queued] at hq
      · rw [ht] at hrank hgoes
        by_cases hx' : C.stage (C.pc s' u) = x
        · exact .less hx' (hrank.resolve_left (by rcases hx with rfl | rfl <;> nofun))
        · exact .goal ⟨hx', l, hgoes⟩
    · have hpc := h.others hrun hstep (Ne.symm hut)
      refine .keep (by rw [hpc, ht]) (by rw [hpc]) ?_
      rintro v rfl
      exact ⟨hut, rfl⟩

/-- In the queue, whoever stands up to `t` and is not held up helps it on. -/
theorem Reads.passes_queued (horder : KeepsOrder M) (hx : x.Queued) (Helps : List (LockEvent τ) → σ → τ → Prop)
    (hhelper : ∀ es s, M.system.Run es s → C.stage (C.pc s t) = x → ∃ u, u ∈ upTo es t ∧ Helps es s u)
    (hgo : ∀ es s u l s', M.system.Run es s → Helps es s u → M.next s u = some (l, s') → C.pc s' u ≠ C.pc s u)
    (hkeep : ∀ es s u v l s', M.system.Run es s → Helps es s u → v ≠ u → M.next s v = some (l, s') →
      Helps (es ++ l.toList) s' u) :
    M.LeadsTo sched (fun _ s => C.stage (C.pc s t) = x) fun _ s => C.Passed t x s := by
  refine .of_helper (C.distance t) (fun es s u => u ∈ upTo es t ∧ Helps es s u) hfair hhelper ?_ ?_
  · rintro es s u hrun ht ⟨hu, _⟩ hidle
    have hin : t ∈ Concurrent.queue es := ((h.queue hrun).2 t).mpr (ht ▸ hx)
    have := ((h.queue hrun).2 u).mp (mem_queue_of_upTo hin hu)
    simp [hidle, Stage.Queued] at this
  · intro es s u l s' hrun ht hstep
    rcases h.distance_step horder hrun hx ht hstep with hpassed | ⟨hx', hless | ⟨hle, hup, hstay⟩⟩
    · exact .goal hpassed
    · exact .less hx' hless
    · refine .keep hx' hle ?_
      rintro v ⟨hv, hhelps⟩
      have hne : u ≠ v := by
        rintro rfl
        exact hgo _ _ _ _ _ hrun hhelps hstep (hstay hv)
      exact ⟨hne, by rwa [hup], hkeep _ _ _ _ _ _ hrun hhelps hne hstep⟩

end Fair

/-- Every call of `lock()` and of `unlock()` returns, whatever the others do, under every schedule
that is fair to those that are in one of the two or in between; and where everybody's turn comes
again and again, so does everybody. -/
structure CallsReturn (C : QueueCode σ τ π) (M : Machine σ τ (LockEvent τ)) : Prop where
  lock : ∀ sched, M.Fair id C.Busy sched → ∀ t,
    M.LeadsTo sched (fun _ s => C.stage (C.pc s t) = .before ∨ C.stage (C.pc s t) = .waiting)
      fun _ s => C.stage (C.pc s t) = .holding
  unlock : ∀ sched, M.Fair id C.Busy sched → ∀ t,
    M.LeadsTo sched (fun _ s => C.stage (C.pc s t) = .holding ∨ C.stage (C.pc s t) = .after)
      fun _ s => C.stage (C.pc s t) = .idle
  again : ∀ sched, (∀ t n, ∃ m, n ≤ m ∧ sched m = t) → ∀ t n, ∃ m, n ≤ m ∧
    C.stage (C.pc (M.state sched m) t) = .holding

omit [DecidableEq τ] in
theorem passed_before (h : C.Passed t .before s) : C.stage (C.pc s t) = .waiting := by
  obtain ⟨hne, l, hgoes⟩ := h
  generalize C.stage (C.pc s t) = y at hne hgoes
  cases hgoes with
  | within _ => exact absurd rfl hne
  | enqueue _ => rfl

omit [DecidableEq τ] in
theorem passed_waiting (h : C.Passed t .waiting s) : C.stage (C.pc s t) = .holding := by
  obtain ⟨hne, l, hgoes⟩ := h
  generalize C.stage (C.pc s t) = y at hne hgoes
  cases hgoes with
  | within _ => exact absurd rfl hne
  | enqueue hx => simp at hx
  | enter => rfl

omit [DecidableEq τ] in
theorem passed_holding (h : C.Passed t .holding s) :
    C.stage (C.pc s t) = .after ∨ C.stage (C.pc s t) = .idle := by
  obtain ⟨hne, l, hgoes⟩ := h
  generalize C.stage (C.pc s t) = y at hne hgoes
  cases hgoes with
  | within _ => exact absurd rfl hne
  | enqueue hx => simp at hx
  | leave hy => exact hy

omit [DecidableEq τ] in
theorem passed_after (h : C.Passed t .after s) : C.stage (C.pc s t) = .idle := by
  obtain ⟨hne, l, hgoes⟩ := h
  generalize C.stage (C.pc s t) = y at hne hgoes
  cases hgoes with
  | within _ => exact absurd rfl hne
  | enqueue hx => simp at hx
  | back => rfl

/-- A schedule on which everybody's turn comes again and again is fair. -/
theorem Reads.fair (h : C.Reads M) {sched : ℕ → τ} (hturns : ∀ t n, ∃ m, n ≤ m ∧ sched m = t) :
    M.Fair id C.Busy sched :=
  Machine.fair_of_turns hturns fun s t hs _ =>
    let ⟨es, hrun⟩ := hs
    h.can es s t hrun

/-- A thread outside calls `lock()` when its turn comes. -/
theorem Reads.begins (h : C.Reads M) {sched : ℕ → τ} (hturns : ∀ t n, ∃ m, n ≤ m ∧ sched m = t) (t : τ) (n : ℕ)
    (hn : C.stage (C.pc (M.state sched n) t) = .idle) : ∃ m, n ≤ m ∧
      (C.stage (C.pc (M.state sched m) t) = .before ∨ C.stage (C.pc (M.state sched m) t) = .waiting) := by
  have hex := hturns t n
  obtain ⟨hle, hturn⟩ := Nat.find_spec hex
  -- until then nobody else moves it
  have hidle : ∀ m, n ≤ m → m ≤ Nat.find hex → C.stage (C.pc (M.state sched m) t) = .idle := by
    intro m hm
    induction m, hm using Nat.le_induction with
    | base => exact fun _ => hn
    | succ m hm ih =>
      intro hlt
      have hne : sched m ≠ t := fun he => Nat.find_min hex hlt ⟨hm, he⟩
      rcases M.course_succ sched m with ⟨_, hstate, _⟩ | ⟨l, hnext, _⟩
      · rw [hstate]
        exact ih (by omega)
      · rw [h.others (M.course_run sched m) hnext hne.symm]
        exact ih (by omega)
  refine ⟨Nat.find hex + 1, by omega, ?_⟩
  have hrun := M.course_run sched (Nat.find hex)
  rcases M.course_succ sched (Nat.find hex) with ⟨_, _, hnone⟩ | ⟨l, hnext, _⟩
  · have := h.can _ _ (sched (Nat.find hex)) hrun
    rw [hnone] at this
    cases this
  · rw [hturn] at hnext
    have hat := hidle _ hle (Nat.le_refl _)
    rcases h.turn hrun hnext with ⟨_, _, hq⟩ | ⟨_, hgoes⟩
    · rw [hat] at hq
      simp [Stage.Queued] at hq
    · rw [hat] at hgoes
      generalize C.stage (C.pc (M.state sched (Nat.find hex + 1)) t) = y at hgoes
      cases hgoes with
      | within hx => exact absurd rfl hx
      | begin => exact .inl rfl
      | enqueue _ => exact .inr rfl

/-- It is enough that those in the queue pass on. -/
theorem Reads.callsReturn (h : C.Reads M)
    (hwaiting : ∀ sched, M.Fair id C.Busy sched → ∀ t,
      M.LeadsTo sched (fun _ s => C.stage (C.pc s t) = .waiting) fun _ s => C.Passed t .waiting s)
    (hholding : ∀ sched, M.Fair id C.Busy sched → ∀ t,
      M.LeadsTo sched (fun _ s => C.stage (C.pc s t) = .holding) fun _ s => C.Passed t .holding s) :
    CallsReturn C M := by
  have hlock : ∀ sched, M.Fair id C.Busy sched → ∀ t,
      M.LeadsTo sched (fun _ s => C.stage (C.pc s t) = .before ∨ C.stage (C.pc s t) = .waiting)
        fun _ s => C.stage (C.pc s t) = .holding := by
    intro sched hfair t
    have hwait := (hwaiting sched hfair t).trans (.of_imp fun _ _ _ => passed_waiting)
    have hbefore := (h.passes_outside hfair (t := t) (.inl rfl)).trans (.of_imp fun _ _ _ => passed_before)
    exact .or (hbefore.trans hwait) hwait
  have hunlock : ∀ sched, M.Fair id C.Busy sched → ∀ t,
      M.LeadsTo sched (fun _ s => C.stage (C.pc s t) = .holding ∨ C.stage (C.pc s t) = .after)
        fun _ s => C.stage (C.pc s t) = .idle := by
    intro sched hfair t
    have hafter := (h.passes_outside hfair (t := t) (.inr rfl)).trans (.of_imp fun _ _ _ => passed_after)
    have hleave := (hholding sched hfair t).trans (.of_imp fun _ _ _ => passed_holding)
    exact .or (hleave.trans (.or hafter (.of_imp fun _ _ _ hp => hp))) hafter
  refine ⟨hlock, hunlock, fun sched hturns t n => ?_⟩
  have hfair := h.fair hturns
  have hidle : ∀ n, C.stage (C.pc (M.state sched n) t) = .idle →
      ∃ m, n ≤ m ∧ C.stage (C.pc (M.state sched m) t) = .holding := fun n hn => by
    obtain ⟨m, hm, hp⟩ := h.begins hturns t n hn
    obtain ⟨k, hk, hp⟩ := hlock sched hfair t m hp
    exact ⟨k, Nat.le_trans hm hk, hp⟩
  cases hp : C.stage (C.pc (M.state sched n) t) with
  | idle => exact hidle n hp
  | before => exact hlock sched hfair t n (.inl hp)
  | waiting => exact hlock sched hfair t n (.inr hp)
  | holding => exact ⟨n, Nat.le_refl n, hp⟩
  | after =>
    obtain ⟨m, hm, hp⟩ := hunlock sched hfair t n (.inr hp)
    obtain ⟨k, hk, hp⟩ := hidle m hp
    exact ⟨k, Nat.le_trans hm hk, hp⟩

/-- **Every call returns, if the first of the queue is never held up.** -/
theorem Reads.callsReturn_of_first (h : C.Reads M) (horder : KeepsOrder M)
    (hfirst : ∀ es s t q l s', M.system.Run es s → Concurrent.queue es = t :: q → M.next s t = some (l, s') →
      C.pc s' t ≠ C.pc s t) : CallsReturn C M := by
  have hpass : ∀ {x : Stage}, x.Queued → ∀ sched, M.Fair id C.Busy sched → ∀ t,
      M.LeadsTo sched (fun _ s => C.stage (C.pc s t) = x) fun _ s => C.Passed t x s := by
    intro x hx sched hfair t
    refine h.passes_queued hfair horder hx (fun es _ u => ∃ q, Concurrent.queue es = u :: q) ?_ ?_ ?_
    · intro es s hrun ht
      have hin : t ∈ Concurrent.queue es := ((h.queue hrun).2 t).mpr (ht ▸ hx)
      obtain ⟨u, q, hq⟩ := List.exists_cons_of_ne_nil (List.ne_nil_of_mem hin)
      exact ⟨u, first_mem_upTo hq, q, hq⟩
    · rintro es s u l s' hrun ⟨q, hq⟩ hstep
      exact hfirst es s u q l s' hrun hq hstep
    · rintro es s u v l s' hrun ⟨q, hq⟩ hvu hstep
      obtain ⟨q', hq'⟩ := h.first_stays horder hrun hq hvu hstep
      exact ⟨q ++ q', hq'⟩
  exact h.callsReturn (hpass (.inl rfl)) (hpass (.inr rfl))

end QueueCode

end ParSweet.Concurrent
