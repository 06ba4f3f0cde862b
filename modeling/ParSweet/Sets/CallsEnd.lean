import ParSweet.Concurrent.CallsEnd
import ParSweet.Sets.Interference
import ParSweet.Sets.LockOrder

/-! The calls of the Java list sets come to their end.

A walk goes forward in the order of the list, and only so many nodes can ever stand ahead
of it: those that there are, and those that the open calls still link (`Store.ahead`). Once
it holds its pair of nodes, a call of the optimistic or of the lazy set starts over only if
another call has relinked the list meanwhile, which every call does at most once. -/
namespace ParSweet.Sets
open Concurrent

variable {τ T : Type*} {s s' : Store τ T} {m n c d N : ℕ}

/-! ### How far along the list a node stands -/

namespace Store

open Classical in
/-- The nodes before `n`, in the list or not. -/
noncomputable def passed (s : Store τ T) (n : NodeId) : ℕ := ((Finset.range s.size).filter fun m => s.Before m n).card

/-- The nodes that may stand behind `n` when there are `N`. -/
noncomputable def ahead (N : ℕ) (s : Store τ T) (n : NodeId) : ℕ := N - s.passed n

theorem passed_le : s.passed n ≤ s.size := by
  classical
  unfold passed
  exact (Finset.card_filter_le _ _).trans_eq (Finset.card_range s.size)

theorem passed_lt (h : s.Before m n) (hm : m < s.size) : s.passed m < s.passed n := by
  classical
  unfold passed
  refine Finset.card_lt_card (Finset.ssubset_iff_of_subset (fun k hk => ?_) |>.mpr ⟨m, ?_, ?_⟩)
  · rw [Finset.mem_filter] at hk ⊢
    exact ⟨hk.1, Links.Before.trans hk.2 h⟩
  · exact Finset.mem_filter.mpr ⟨Finset.mem_range.mpr hm, h⟩
  · intro hk
    exact Links.Before.ne (Finset.mem_filter.mp hk).2 rfl

theorem ahead_congr (hsize : s'.size = s.size) (hnode : s'.node = s.node) : s'.ahead N n = s.ahead N n := by
  have hkey : s'.sortKey = s.sortKey := by
    funext k
    simp only [sortKey, hnode]
  have hpassed : s'.passed n = s.passed n := by
    classical
    unfold passed
    rw [hsize]
    exact congrArg Finset.card (Finset.filter_congr fun m _ => by rw [Before, Before, hkey])
  rw [ahead, ahead, hpassed]

theorem ahead_le : s.ahead N n ≤ N := Nat.sub_le _ _

variable [BEq T] {L : Lang} {H : Hash L T} {markable : Bool}

/-- One node on. -/
theorem ahead_lt (hinv : ListInv H markable s) (hc : c < s.size) (hN : s.size ≤ N) (hnext : s.next c = some d) :
    s.ahead N d < s.ahead N c := by
  have hlt := passed_lt (hinv.sorted.ordered hnext) hc
  have hle : s.passed d ≤ s.size := passed_le
  unfold ahead
  omega

end Store

variable [BEq T] {L : Lang} {H : Hash L T} {markable : Bool} {me u : τ} {t : T} {op : SetOp T} {choice : Bool}

/-- No effect takes a node back. -/
theorem Effect.ahead_le (he : Effect H markable u s s') (hn : n < s.size) : s'.ahead N n ≤ s.ahead N n := by
  have hpassed : s.passed n ≤ s'.passed n := by
    classical
    unfold Store.passed
    refine Finset.card_le_card fun m hm => ?_
    rw [Finset.mem_filter, Finset.mem_range] at hm ⊢
    exact ⟨hm.1.trans_le he.size_le, he.before hm.1 hn hm.2⟩
  unfold Store.ahead
  omega

/-! ### The walk -/

/-- The steps left of a walk, where there are `N` nodes at the end. -/
noncomputable def Walk.cost (N : ℕ) (s : Store τ T) : Walk → ℕ
  | .start => 2 * N + 6
  | .test _ c => 2 * s.ahead N c + 5
  | .advance _ c => 2 * s.ahead N c + 4
  | .lock _ _ .current => 4
  | .lock _ _ .neither => 3
  | .lock _ _ .predecessor => 2
  | .lock _ _ .both => 1

noncomputable def Walked.cost (N : ℕ) (s : Store τ T) : Walked → ℕ
  | .on w => w.cost N s
  | .locked _ _ | .fault => 0

omit [BEq T] in
theorem Walk.cost_pos (w : Walk) : 0 < w.cost N s := by
  cases w with
  | lock p c held => cases held <;> simp [cost]
  | _ => simp [cost]

omit [BEq T] in
theorem Walk.cost_congr {w : Walk} (hsize : s'.size = s.size) (hnode : s'.node = s.node) : w.cost N s' = w.cost N s := by
  cases w with
  | lock p c held => cases held <;> rfl
  | _ => simp only [cost, Store.ahead_congr hsize hnode]

theorem Walk.cost_le {w : Walk} (h : WalkAt H s me t w) (he : Effect H markable u s s') : w.cost N s' ≤ w.cost N s := by
  cases w with
  | start => exact Nat.le_refl _
  | test p c =>
    have := he.ahead_le (N := N) h.curr_lt
    simp only [cost]
    omega
  | advance p c =>
    have := he.ahead_le (N := N) h.1.curr_lt
    simp only [cost]
    omega
  | lock p c held => cases held <;> exact Nat.le_refl _

/-- In Java each step of a walk comes nearer to its end. -/
theorem Walk.cost_lt {H : Hash .java T} {w : Walk} {r : Walked} (hinv : ListInv H markable s) (h : WalkAt H s me t w)
    (hN : s.size ≤ N) (hstep : w.step H me s t choice = some (s', r)) : r.cost N s' < w.cost N s := by
  have hsame : s'.size = s.size ∧ s'.node = s.node := by
    obtain ⟨_, rfl⟩ := walk_mutex hstep
    exact ⟨rfl, rfl⟩
  have hcost : r.cost N s' = r.cost N s := by
    cases r with
    | on w' => exact Walk.cost_congr hsame.1 hsame.2
    | _ => rfl
  rw [hcost]
  cases w with
  | start =>
    simp only [step] at hstep
    split at hstep <;> cases hstep
    · have := Store.ahead_le (N := N) (s := s) (n := ‹NodeId›)
      simp only [Walked.cost, cost]
      omega
    · exact cost_pos _
  | test p c =>
    simp only [step] at hstep
    split at hstep <;> cases hstep
    · simp only [Walked.cost, cost]
      omega
    · simp only [Walked.cost, cost]
      omega
  | advance p c =>
    simp only [step] at hstep
    split at hstep <;> cases hstep
    · have := Store.ahead_lt hinv h.1.curr_lt hN ‹_›
      simp only [Walked.cost, cost]
      omega
    · exact cost_pos _
  | lock p c held =>
    simp only [step, Option.map_eq_some_iff, Prod.mk.injEq] at hstep
    obtain ⟨⟨s₁, held'⟩, hl, rfl, rfl⟩ := hstep
    cases held with
    | neither =>
      simp only [lockBoth, true_or, if_true, Option.map_eq_some_iff, Prod.mk.injEq] at hl
      obtain ⟨_, _, _, rfl⟩ := hl
      simp [Walked.cost, cost]
    | predecessor =>
      cases ha : s.tryAcquire me c with
      | none => simp [lockBoth, ha] at hl
      | some s₂ =>
        simp only [lockBoth, ha, Option.some.injEq, Prod.mk.injEq] at hl
        simp [Walked.cost, cost, ← hl.2]
    | current =>
      cases ha : s.tryAcquire me p with
      | none =>
        simp only [lockBoth, ha, Option.some.injEq, Prod.mk.injEq] at hl
        simp [Walked.cost, cost, ← hl.2]
      | some s₂ =>
        simp only [lockBoth, ha, Option.some.injEq, Prod.mk.injEq] at hl
        simp [Walked.cost, cost, ← hl.2]
    | both => simp [lockBoth] at hl

/-- In Java a walk that cannot go on wants a mutex. -/
theorem Walk.wants_of_stuck {H : Hash .java T} {w : Walk} (hboth : ∀ p c, w ≠ .lock p c .both)
    (hstuck : w.step H me s t choice = none) : ∃ n, w.wants = some n := by
  cases w with
  | start =>
    simp only [step] at hstuck
    split at hstuck <;> cases hstuck
  | test p c =>
    simp only [step] at hstuck
    split at hstuck <;> cases hstuck
  | advance p c =>
    simp only [step] at hstuck
    split at hstuck <;> cases hstuck
  | lock p c held =>
    cases held with
    | neither => exact ⟨p, rfl⟩
    | predecessor => exact ⟨c, rfl⟩
    | current =>
      cases ha : s.tryAcquire me p <;> simp [step, lockBoth, ha] at hstuck
    | both => exact absurd rfl (hboth p c)

/-- Once it holds both, the walk is over. -/
theorem Walk.not_both {w w' : Walk} (hstep : w.step H me s t choice = some (s', .on w')) (p c : NodeId) : w' ≠ .lock p c .both := by
  rintro rfl
  cases w with
  | lock p' c' held =>
    simp only [step, Option.map_eq_some_iff, Prod.mk.injEq] at hstep
    obtain ⟨⟨s₁, held'⟩, _, _, heq⟩ := hstep
    split_ifs at heq with hheld
    cases heq
    exact hheld rfl
  | _ =>
    simp only [step] at hstep
    split at hstep <;> cases hstep

/-! ### The callback -/

/-- Its first step only reads. -/
theorem callback_enter {p : NodeId} {r : Callback T ⊕ SetRes T} (h : Callback.enter.step H markable s op p c = (s', r)) :
    s' = s := by
  have hs := congrArg Prod.fst h
  cases op <;> simp only [Callback.step] at hs <;> (try split at hs) <;> (try cases L) <;> exact hs.symm

/-- A callback that goes on has not touched the list. -/
theorem callback_same {cb cb' : Callback T} {p : NodeId} (h : cb.step H markable s op p c = (s', .inl cb')) :
    s'.size = s.size ∧ s'.node = s.node := by
  cases cb with
  | enter =>
    rw [callback_enter h]
    exact ⟨rfl, rfl⟩
  | addLink v | removeStore succ => simp [Callback.step] at h
  | _ =>
    simp only [Callback.step, Prod.mk.injEq] at h
    rw [← h.1]
    exact ⟨rfl, rfl⟩

/-- One that ends has linked at most one node. -/
theorem callback_size {cb : Callback T} {p : NodeId} {r : SetRes T} (h : cb.step H markable s op p c = (s', .inr r)) :
    s'.size ≤ s.size + 1 := by
  cases cb with
  | enter =>
    rw [callback_enter h]
    exact Nat.le_succ _
  | addLink v | removeStore succ =>
    simp only [Callback.step, Prod.mk.injEq] at h
    rw [← h.1]
    first
      | exact Nat.le_refl _
      | exact Nat.le_succ _
  | _ => simp [Callback.step] at h

/-! ### The lazy set -/

namespace LazySet

/-- The steps left of a call. -/
noncomputable def Pc.cost (N : ℕ) (s : Store τ T) : Pc T → ℕ
  | .walk w => w.cost N s + 12
  | .checkPredecessor _ _ => 11
  | .checkCurrent _ _ => 10
  | .checkNext _ _ => 9
  | .callback _ _ cb => cb.rank + 3
  | .unlockCurrent _ _ _ => 3
  | .unlockPredecessor _ _ => 2
  | .returned _ => 1
  | .fault => 0

/-- The call has still to take its effect. -/
def Pc.Owes : Pc T → Prop
  | .unlockCurrent _ _ (some _) | .unlockPredecessor _ (some _) | .returned _ => False
  | _ => True

noncomputable def budget (τ T : Type*) : Budget (Store τ T) (Local T) where
  cost := fun N s l => l.pc.cost N s
  again := fun N => 2 * N + 17
  Steady := OnTrack
  Owes := fun l => l.pc.Owes
  room := Store.size

theorem step_effect {l l' : Local T} (hstep : step H me s l choice = some (s', l')) :
    (s'.size = s.size ∧ s'.node = s.node ∧ (l'.pc.Owes → l.pc.Owes)) ∨ (s'.size ≤ s.size + 1 ∧ ¬ l'.pc.Owes ∧ l.pc.Owes) := by
  obtain ⟨op, pc⟩ := l
  cases pc with
  | walk w =>
    rcases step_walk hstep with ⟨w', hw, rfl⟩ | ⟨p, c, hw, rfl⟩ | ⟨hw, rfl⟩
    all_goals
      obtain ⟨_, rfl⟩ := walk_mutex hw
      exact .inl ⟨rfl, rfl, fun _ => trivial⟩
  | checkPredecessor p c | checkCurrent p c | checkNext p c =>
    simp only [step] at hstep
    split at hstep <;> cases hstep <;> exact .inl ⟨rfl, rfl, fun _ => trivial⟩
  | callback p c cb =>
    rcases step_callback hstep with ⟨cb', hcb, rfl⟩ | ⟨r, hcb, rfl⟩
    · obtain ⟨hsize, hnode⟩ := callback_same hcb
      exact .inl ⟨hsize, hnode, fun _ => trivial⟩
    · exact .inr ⟨callback_size hcb, id, trivial⟩
  | unlockCurrent p c exit =>
    cases hstep
    cases exit <;> exact .inl ⟨rfl, rfl, id⟩
  | unlockPredecessor p exit => cases exit <;> cases hstep <;> exact .inl ⟨rfl, rfl, id⟩
  | returned r | fault => simp [step] at hstep

/-- A call comes nearer to its end, or starts over because its check has failed. -/
theorem step_cost {H : Hash .java T} {op : SetOp T} {pc : Pc T} {l' : Local T} (hinv : ListInv H true s)
    (hat : PendingAt H s me op pc ∨ ∃ r, DoneAt s me r pc) (hN : s.size ≤ N)
    (hstep : step H me s ⟨op, pc⟩ choice = some (s', l')) :
    l'.pc.cost N s' < pc.cost N s ∨ ∃ p, pc = .unlockPredecessor p none ∧ l'.pc = .walk .start := by
  cases pc with
  | walk w =>
    have hwalk : WalkAt H s me op.element w := hat.resolve_right fun hd => hd.elim fun _ h => h
    left
    rcases step_walk hstep with ⟨w', hw, rfl⟩ | ⟨p, c, hw, rfl⟩ | ⟨hw, rfl⟩
    all_goals
      have hless := Walk.cost_lt hinv hwalk hN hw
      simp only [Pc.cost, Walked.cost] at hless ⊢
      omega
  | checkPredecessor p c | checkCurrent p c | checkNext p c =>
    left
    simp only [step] at hstep
    split at hstep <;> cases hstep <;> simp [Pc.cost, Callback.rank]
  | callback p c cb =>
    left
    rcases step_callback hstep with ⟨cb', hcb, rfl⟩ | ⟨r, hcb, rfl⟩
    · have hrank := Callback.step_rank hcb
      simp only [Pc.cost]
      omega
    · cases cb <;> simp [Pc.cost, Callback.rank]
  | unlockCurrent p c exit =>
    cases hstep
    exact .inl (Nat.lt_succ_self _)
  | unlockPredecessor p exit =>
    cases exit <;> cases hstep
    · exact .inr ⟨p, rfl, rfl⟩
    · exact .inl (Nat.lt_succ_self _)
  | returned r | fault => simp [step] at hstep

theorem Pc.cost_le {pc : Pc T} (hat : PendingAt H s me op pc ∨ ∃ r, DoneAt s me r pc) (he : Effect H true u s s') :
    pc.cost N s' ≤ pc.cost N s := by
  cases pc with
  | walk w =>
    have hwalk : WalkAt H s me op.element w := hat.resolve_right fun hd => hd.elim fun _ h => h
    exact Nat.add_le_add_right (Walk.cost_le hwalk he) 12
  | _ => exact Nat.le_refl _

variable [EquivBEq T] [DecidableEq τ]

theorem budget_kept (H : Hash .java T) : (budget τ T).Kept (implementation τ H) where
  own := by
    intro N s t l c st l' hs hl hstep hN
    obtain ⟨op, pc⟩ := l
    obtain ⟨hinv, hat⟩ := at_of_reachable hs hl
    rcases step_cost hinv hat hN hstep with hless | ⟨p, rfl, hstart⟩
    · exact .inl ⟨hless, fun h => (tracked H t).own s ⟨op, pc⟩ c st l' hs hl h hstep⟩
    · refine .inr ⟨?_, id, ?_⟩
      · show l'.pc.cost N st < Pc.cost N s.store (.unlockPredecessor p none) + (2 * N + 17)
        rw [hstart]
        simp only [Pc.cost, Walk.cost]
        omega
      · show OnTrack st l'
        rw [OnTrack, hstart]
        trivial
  others := by
    intro N s t l c st l' u k hs hl hstep _ hk
    obtain ⟨op, pc⟩ := k
    exact Pc.cost_le (at_of_reachable hs hk).2 ((outline τ H).step_guarantee hs hl hstep)
  effect := by
    intro s t l c st l' _ _ hstep
    rcases step_effect hstep with ⟨hsize, hnode, howes⟩ | heffect
    · refine .inl ⟨hsize.le, howes, fun k hk => onTrack_congr hk fun n _ => ?_⟩
      rw [Store.next, Store.next, hnode]
    · exact .inr heffect

omit [EquivBEq T] in
/-- The walk ends when it holds both mutexes. -/
theorem not_both {s : Implementation.State τ (Store τ T) (Local T)} (hs : (implementation τ H).system.Reachable s)
    {l : Local T} (hl : s.pc me = some l) (p c : NodeId) : l.pc ≠ .walk (.lock p c .both) := by
  refine Implementation.local_of_reachable (I := implementation τ H) (P := fun l => l.pc ≠ .walk (.lock p c .both))
    (fun op => by simp [implementation]) ?_ hs me l hl
  intro t s l choice s' l' _ hstep heq
  obtain ⟨op, pc⟩ := l
  have hstep : step H t s ⟨op, pc⟩ choice = some (s', l') := hstep
  cases pc with
  | walk w =>
    rcases step_walk hstep with ⟨w', hw, rfl⟩ | ⟨p, c, hw, rfl⟩ | ⟨hw, rfl⟩
    · exact Walk.not_both hw p c (Pc.walk.inj heq)
    · cases heq
    · cases heq
  | checkPredecessor p c | checkCurrent p c | checkNext p c =>
    simp only [step] at hstep
    split at hstep <;> cases hstep <;> cases heq
  | callback p c cb =>
    rcases step_callback hstep with ⟨cb', _, rfl⟩ | ⟨r, _, rfl⟩ <;> cases heq
  | unlockCurrent p c exit =>
    cases hstep
    cases heq
  | unlockPredecessor p exit => cases exit <;> cases hstep <;> cases heq
  | returned r | fault => simp [step] at hstep

theorem wants_of_stuck {H : Hash .java T} {s : Implementation.State τ (Store τ T) (Local T)}
    (hs : (implementation τ H).system.Reachable s) {l : Local T} (hl : s.pc me = some l)
    (hstuck : ∀ c, (implementation τ H).step me s.store l c = none) (hres : (implementation τ H).result l = none) :
    ∃ n, l.pc.wants = some n := by
  obtain ⟨op, pc⟩ := l
  have hboth := not_both hs hl
  have hstep : step H me s.store ⟨op, pc⟩ true = none := hstuck true
  cases pc with
  | walk w =>
    have hwalk : w.step H me s.store op.element true = none := by
      simp only [step] at hstep
      split at hstep
      · cases hstep
      · cases hstep
      · cases hstep
      · assumption
    exact Walk.wants_of_stuck (fun p c hw => hboth p c (by rw [hw])) hwalk
  | checkPredecessor p c | checkCurrent p c | checkNext p c =>
    simp only [step] at hstep
    split at hstep <;> cases hstep
  | callback p c cb =>
    simp only [step] at hstep
    split at hstep <;> cases hstep
  | unlockCurrent p c exit => cases hstep
  | unlockPredecessor p exit => cases exit <;> cases hstep
  | returned r => cases hres
  | fault =>
    obtain ⟨_, hp | ⟨r, hd⟩⟩ := at_of_reachable hs hl
    · exact hp.elim
    · exact hd.elim

theorem callsEnd [Fintype τ] (H : Hash .java T) : (implementation τ H).CallsEnd where
  bounded := fun _ hs => (budget_kept H).bounded hs
  goesOn := fun _ hs => (inOrder H).goesOn hs fun _ _ hl => wants_of_stuck hs hl

end LazySet

/-! ### The optimistic set -/

namespace OptimisticSet

/-- The steps left of a call. -/
noncomputable def Pc.cost (N : ℕ) (s : Store τ T) : Pc T → ℕ
  | .walk w => w.cost N s + (2 * N + 13)
  | .check _ _ => 2 * N + 13
  | .validate _ _ n _ => 2 * s.ahead N n + 12
  | .validateNext _ _ n _ => 2 * s.ahead N n + 11
  | .recheck _ _ _ => 10
  | .callback _ _ cb => cb.rank + 3
  | .unlockCurrent _ _ _ => 3
  | .unlockPredecessor _ _ => 2
  | .returned _ => 1
  | .throwCurrent _ _ => 2
  | .throwPredecessor _ => 1
  | .fault => 0

/-- The call has still to take its effect. -/
def Pc.Owes : Pc T → Prop
  | .unlockCurrent _ _ (some _) | .unlockPredecessor _ (some _) | .returned _ => False
  | _ => True

noncomputable def budget (τ T : Type*) : Budget (Store τ T) (Local T) where
  cost := fun N s l => l.pc.cost N s
  again := fun N => 4 * N + 18
  Steady := OnTrack .java
  Owes := fun l => l.pc.Owes
  room := Store.size

theorem step_effect {l l' : Local T} (hstep : step H me s l choice = some (s', l')) :
    (s'.size = s.size ∧ s'.node = s.node ∧ (l'.pc.Owes → l.pc.Owes)) ∨ (s'.size ≤ s.size + 1 ∧ ¬ l'.pc.Owes ∧ l.pc.Owes) := by
  obtain ⟨op, pc⟩ := l
  cases pc with
  | walk w =>
    rcases step_walk hstep with ⟨w', hw, rfl⟩ | ⟨p, c, hw, rfl⟩ | ⟨hw, rfl⟩
    all_goals
      obtain ⟨_, rfl⟩ := walk_mutex hw
      exact .inl ⟨rfl, rfl, fun _ => trivial⟩
  | check p c => cases L <;> cases hstep <;> exact .inl ⟨rfl, rfl, fun _ => trivial⟩
  | validate p c check next =>
    simp only [step] at hstep
    repeat' split at hstep
    all_goals
      cases hstep
      exact .inl ⟨rfl, rfl, fun _ => trivial⟩
  | validateNext p c check next =>
    simp only [step] at hstep
    split at hstep <;> cases hstep <;> exact .inl ⟨rfl, rfl, fun _ => trivial⟩
  | recheck p c check =>
    simp only [step] at hstep
    split at hstep <;> cases hstep <;> exact .inl ⟨rfl, rfl, fun _ => trivial⟩
  | callback p c cb =>
    rcases step_callback hstep with ⟨cb', hcb, rfl⟩ | ⟨r, hcb, rfl⟩
    · obtain ⟨hsize, hnode⟩ := callback_same hcb
      exact .inl ⟨hsize, hnode, fun _ => trivial⟩
    · exact .inr ⟨callback_size hcb, id, trivial⟩
  | unlockCurrent p c exit =>
    cases hstep
    cases exit <;> exact .inl ⟨rfl, rfl, id⟩
  | unlockPredecessor p exit => cases exit <;> cases hstep <;> exact .inl ⟨rfl, rfl, id⟩
  | throwCurrent p c | throwPredecessor p =>
    cases hstep
    exact .inl ⟨rfl, rfl, id⟩
  | returned r | fault => simp [step] at hstep

/-- A call comes nearer to its end, or starts over because its validation has failed. -/
theorem step_cost {H : Hash .java T} {op : SetOp T} {pc : Pc T} {l' : Local T} (hinv : ListInv H false s)
    (hat : PendingAt H s me op pc ∨ ∃ r, DoneAt s me r pc) (hN : s.size ≤ N)
    (hstep : step H me s ⟨op, pc⟩ choice = some (s', l')) :
    l'.pc.cost N s' < pc.cost N s ∨ ∃ p, pc = .unlockPredecessor p none ∧ l'.pc = .walk .start := by
  cases pc with
  | walk w =>
    have hwalk : WalkAt H s me op.element w := hat.resolve_right fun hd => hd.elim fun _ h => h
    left
    rcases step_walk hstep with ⟨w', hw, rfl⟩ | ⟨p, c, hw, rfl⟩ | ⟨hw, rfl⟩
    all_goals
      have hless := Walk.cost_lt hinv hwalk hN hw
      simp only [Pc.cost, Walked.cost] at hless ⊢
      omega
  | check p c =>
    cases hstep
    have := Store.ahead_le (N := N) (s := s) (n := head)
    left
    simp only [Pc.cost]
    omega
  | validate p c check next =>
    left
    simp only [step] at hstep
    repeat' split at hstep
    all_goals
      cases hstep
      simp only [Pc.cost, nullSuccessor]
      omega
  | validateNext p c check next =>
    obtain ⟨_, _, _, hv, _⟩ := hat.resolve_right fun hd => hd.elim fun _ h => h
    left
    cases hsucc : (s.node check).next with
    | none =>
      simp only [step, successor, hsucc] at hstep
      cases hstep
      simp only [Pc.cost, nullSuccessor]
      omega
    | some d =>
      simp only [step, successor, hsucc] at hstep
      cases hstep
      have := Store.ahead_lt hinv hv.check_lt hN hsucc
      simp only [Pc.cost]
      omega
  | recheck p c check =>
    left
    simp only [step] at hstep
    split at hstep <;> cases hstep <;> simp [Pc.cost, Callback.rank]
  | callback p c cb =>
    left
    rcases step_callback hstep with ⟨cb', hcb, rfl⟩ | ⟨r, hcb, rfl⟩
    · have hrank := Callback.step_rank hcb
      simp only [Pc.cost]
      omega
    · cases cb <;> simp [Pc.cost, Callback.rank]
  | unlockCurrent p c exit =>
    cases hstep
    exact .inl (Nat.lt_succ_self _)
  | unlockPredecessor p exit =>
    cases exit <;> cases hstep
    · exact .inr ⟨p, rfl, rfl⟩
    · exact .inl (Nat.lt_succ_self _)
  | throwCurrent p c | throwPredecessor p =>
    cases hstep
    exact .inl (Nat.lt_succ_self _)
  | returned r | fault => simp [step] at hstep

theorem Pc.cost_le {pc : Pc T} (hat : PendingAt H s me op pc ∨ ∃ r, DoneAt s me r pc) (he : Effect H false u s s') :
    pc.cost N s' ≤ pc.cost N s := by
  cases pc with
  | walk w =>
    have hwalk : WalkAt H s me op.element w := hat.resolve_right fun hd => hd.elim fun _ h => h
    exact Nat.add_le_add_right (Walk.cost_le hwalk he) _
  | validate p c check next =>
    obtain ⟨_, _, _, hv⟩ := hat.resolve_right fun hd => hd.elim fun _ h => h
    have := he.ahead_le (N := N) hv.check_lt
    simp only [cost]
    omega
  | validateNext p c check next =>
    obtain ⟨_, _, _, hv, _⟩ := hat.resolve_right fun hd => hd.elim fun _ h => h
    have := he.ahead_le (N := N) hv.check_lt
    simp only [cost]
    omega
  | _ => exact Nat.le_refl _

variable [EquivBEq T] [DecidableEq τ]

/-- Wherever a call stands, it is before or past its effect. -/
theorem at_of_reachable {s : Implementation.State τ (Store τ T) (Local T)} {pc : Pc T}
    (hs : (implementation τ H).system.Reachable s) (hl : s.pc me = some ⟨op, pc⟩) :
    ListInv H false s.store ∧ (PendingAt H s.store me op pc ∨ ∃ r, DoneAt s.store me r pc) := by
  obtain ⟨_, ⟨hinv, _⟩, hthread⟩ := (outline τ H).reachable hs
  rcases hthread me _ hl with ⟨_, rfl, hp⟩ | ⟨r, hr⟩
  · exact ⟨hinv, .inl hp⟩
  · exact ⟨hinv, .inr ⟨r, hr⟩⟩

theorem budget_kept (H : Hash .java T) : (budget τ T).Kept (implementation τ H) where
  own := by
    intro N s t l c st l' hs hl hstep hN
    obtain ⟨op, pc⟩ := l
    obtain ⟨hinv, hat⟩ := at_of_reachable hs hl
    rcases step_cost hinv hat hN hstep with hless | ⟨p, rfl, hstart⟩
    · exact .inl ⟨hless, fun h => (tracked H t).own s ⟨op, pc⟩ c st l' hs hl h hstep⟩
    · refine .inr ⟨?_, id, ?_⟩
      · show l'.pc.cost N st < Pc.cost N s.store (.unlockPredecessor p none) + (4 * N + 18)
        rw [hstart]
        simp only [Pc.cost, Walk.cost]
        omega
      · show OnTrack .java st l'
        rw [OnTrack, hstart]
        trivial
  others := by
    intro N s t l c st l' u k hs hl hstep _ hk
    obtain ⟨op, pc⟩ := k
    exact Pc.cost_le (at_of_reachable hs hk).2 ((outline τ H).step_guarantee hs hl hstep)
  effect := by
    intro s t l c st l' _ _ hstep
    rcases step_effect hstep with ⟨hsize, hnode, howes⟩ | heffect
    · refine .inl ⟨hsize.le, howes, fun k hk => onTrack_congr hk fun n _ => ?_⟩
      rw [Store.next, Store.next, hnode]
    · exact .inr heffect

omit [EquivBEq T] in
/-- The walk ends when it holds both mutexes. -/
theorem not_both {H : Hash .java T} {s : Implementation.State τ (Store τ T) (Local T)} (hs : (implementation τ H).system.Reachable s)
    {l : Local T} (hl : s.pc me = some l) (p c : NodeId) : l.pc ≠ .walk (.lock p c .both) := by
  refine Implementation.local_of_reachable (I := implementation τ H) (P := fun l => l.pc ≠ .walk (.lock p c .both))
    (fun op => by simp [implementation]) ?_ hs me l hl
  intro t s l choice s' l' _ hstep heq
  obtain ⟨op, pc⟩ := l
  have hstep : step H t s ⟨op, pc⟩ choice = some (s', l') := hstep
  cases pc with
  | walk w =>
    rcases step_walk hstep with ⟨w', hw, rfl⟩ | ⟨p, c, hw, rfl⟩ | ⟨hw, rfl⟩
    · exact Walk.not_both hw p c (Pc.walk.inj heq)
    · cases heq
    · cases heq
  | check p c =>
    cases hstep
    cases heq
  | validate p c check next =>
    simp only [step] at hstep
    repeat' split at hstep
    all_goals
      cases hstep
      cases heq
  | validateNext p c check next =>
    simp only [step] at hstep
    split at hstep <;> cases hstep <;> cases heq
  | recheck p c check =>
    simp only [step] at hstep
    split at hstep <;> cases hstep <;> cases heq
  | callback p c cb =>
    rcases step_callback hstep with ⟨cb', _, rfl⟩ | ⟨r, _, rfl⟩ <;> cases heq
  | unlockPredecessor p exit => cases exit <;> cases hstep <;> cases heq
  | unlockCurrent p c exit | throwCurrent p c | throwPredecessor p =>
    cases hstep
    cases heq
  | returned r | fault => simp [step] at hstep

theorem wants_of_stuck {H : Hash .java T} (hmax : MaxUnique H) {s : Implementation.State τ (Store τ T) (Local T)}
    (hs : (implementation τ H).system.Reachable s) {l : Local T} (hl : s.pc me = some l)
    (hstuck : ∀ c, (implementation τ H).step me s.store l c = none) (hres : (implementation τ H).result l = none) :
    ∃ n, l.pc.wants = some n := by
  obtain ⟨op, pc⟩ := l
  have hboth := not_both hs hl
  have hstep : step H me s.store ⟨op, pc⟩ true = none := hstuck true
  cases pc with
  | walk w =>
    have hwalk : w.step H me s.store op.element true = none := by
      simp only [step] at hstep
      split at hstep
      · cases hstep
      · cases hstep
      · cases hstep
      · assumption
    exact Walk.wants_of_stuck (fun p c hw => hboth p c (by rw [hw])) hwalk
  | validate p c check next =>
    simp only [step] at hstep
    repeat' split at hstep
    all_goals cases hstep
  | validateNext p c check next | recheck p c check | callback p c cb =>
    simp only [step] at hstep
    split at hstep <;> cases hstep
  | unlockPredecessor p exit => cases exit <;> cases hstep
  | check p c | unlockCurrent p c exit | throwCurrent p c | throwPredecessor p => cases hstep
  | returned r => cases hres
  | fault => exact absurd rfl (never_faults hmax hs hl)

theorem callsEnd [Fintype τ] (H : Hash .java T) (hmax : MaxUnique H) : (implementation τ H).CallsEnd where
  bounded := fun _ hs => (budget_kept H).bounded hs
  goesOn := fun _ hs => (inOrder H).goesOn hs fun _ _ hl => wants_of_stuck hmax hs hl

end OptimisticSet

end ParSweet.Sets
