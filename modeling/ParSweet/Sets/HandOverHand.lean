import ParSweet.Sets.CallsEnd

/-! The calls of the fine-grained sets come to their end.

A walk hand over hand never starts over. In C++ it locks the next node before it lets go of
the one it leaves behind, so that it holds three mutexes for a moment; it still takes them
in the order of the list, since the node left behind stands before the pair (`Leads`). -/
namespace ParSweet.Sets
open Concurrent

variable {τ T : Type*} [BEq T] {s s' : Store τ T} {me u : τ}

namespace FineGrainedSet

section Steps
variable {L : Lang} {H : Hash L T} {op : SetOp T} {N : ℕ}

/-- The steps left of a call. -/
noncomputable def Pc.cost (N : ℕ) (s : Store τ T) : Pc T → ℕ
  | .lockHead => 5 * N + 15
  | .loadFirst => 5 * N + 14
  | .lockFirst _ => 5 * N + 13
  | .readFirst _ => 5 * N + 12
  | .test f => 5 * s.ahead N f.current + 11
  | .unlockPassed f => 5 * s.ahead N f.current + 10
  | .advance f => 5 * s.ahead N f.current + 9
  | .lockNext f => 5 * s.ahead N f.current + 13
  | .assign f => 5 * s.ahead N f.current + 12
  | .callback _ cb => cb.rank + 3
  | .unlockCurrent _ _ => 3
  | .unlockPredecessor _ _ => 2
  | .returned _ => 1
  | .fault => 0

/-- The call has still to take its effect. -/
def Pc.Owes : Pc T → Prop
  | .unlockCurrent _ _ | .unlockPredecessor _ _ | .returned _ => False
  | _ => True

/-- Nobody ever starts over. -/
noncomputable def budget (τ T : Type*) : Budget (Store τ T) (Local T) where
  cost := fun N s l => l.pc.cost N s
  again := fun _ => 0
  Steady := fun _ _ => True
  Owes := fun l => l.pc.Owes
  room := Store.size

theorem step_effect {l l' : Local T} (hstep : step H me s l () = some (s', l')) :
    (s'.size = s.size ∧ s'.node = s.node ∧ (l'.pc.Owes → l.pc.Owes)) ∨ (s'.size ≤ s.size + 1 ∧ ¬ l'.pc.Owes ∧ l.pc.Owes) := by
  have hacquire : ∀ {n s₁}, s.tryAcquire me n = some s₁ → s₁.size = s.size ∧ s₁.node = s.node := by
    intro n s₁ ha
    obtain ⟨_, rfl⟩ := Store.tryAcquire_eq_some.mp ha
    exact ⟨rfl, rfl⟩
  obtain ⟨op, pc⟩ := l
  cases pc with
  | lockHead =>
    left
    simp only [step] at hstep
    split at hstep <;> cases hstep
    exact ⟨(hacquire ‹_›).1, (hacquire ‹_›).2, id⟩
  | lockFirst c =>
    left
    simp only [step] at hstep
    split at hstep <;> cases hstep <;> exact ⟨(hacquire ‹_›).1, (hacquire ‹_›).2, id⟩
  | lockNext f =>
    left
    simp only [step] at hstep
    split at hstep <;> cases hstep <;> exact ⟨(hacquire ‹_›).1, (hacquire ‹_›).2, id⟩
  | loadFirst | readFirst c | advance f =>
    left
    simp only [step] at hstep
    split at hstep <;> cases hstep <;> exact ⟨rfl, rfl, id⟩
  | test f =>
    left
    simp only [step] at hstep
    split at hstep
    · cases L <;> cases hstep <;> exact ⟨rfl, rfl, id⟩
    · cases hstep
      exact ⟨rfl, rfl, id⟩
  | callback f cb =>
    rcases step_callback hstep with ⟨cb', hcb, rfl⟩ | ⟨r, hcb, rfl⟩
    · obtain ⟨hsize, hnode⟩ := callback_same hcb
      exact .inl ⟨hsize, hnode, id⟩
    · exact .inr ⟨callback_size hcb, id, trivial⟩
  | unlockPassed f | assign f | unlockCurrent f r | unlockPredecessor f r =>
    cases hstep
    exact .inl ⟨rfl, rfl, id⟩
  | returned r | fault => simp [step] at hstep

/-- A call comes nearer to its end. -/
theorem step_cost {op : SetOp T} {pc : Pc T} {l' : Local T} (hinv : ListInv H false s)
    (hat : PendingAt H s me op pc ∨ ∃ r, DoneAt s me r pc) (hN : s.size ≤ N)
    (hstep : step H me s ⟨op, pc⟩ () = some (s', l')) : l'.pc.cost N s' < pc.cost N s := by
  have hahead : ∀ n, s.ahead N n ≤ N := fun n => Store.ahead_le
  have hacquire : ∀ {n s₁}, s.tryAcquire me n = some s₁ → ∀ k, s₁.ahead N k = s.ahead N k := by
    intro n s₁ ha k
    obtain ⟨_, rfl⟩ := Store.tryAcquire_eq_some.mp ha
    exact Store.ahead_congr rfl rfl
  cases pc with
  | lockHead =>
    simp only [step] at hstep
    split at hstep <;> cases hstep
    exact Nat.lt_succ_self _
  | loadFirst =>
    simp only [step] at hstep
    split at hstep <;> cases hstep <;> simp [Pc.cost]
  | lockFirst c =>
    have := hahead c
    simp only [step] at hstep
    split at hstep <;> cases hstep <;> simp only [Pc.cost, hacquire ‹_›] <;> omega
  | readFirst c =>
    simp only [step] at hstep
    split at hstep <;> cases hstep
    · have := hahead ‹NodeId›
      simp only [Pc.cost]
      omega
    · simp [Pc.cost]
  | test f =>
    simp only [step] at hstep
    split at hstep
    · cases L <;> cases hstep <;> simp only [Pc.cost] <;> omega
    · cases hstep
      simp only [Pc.cost, Callback.rank]
      omega
  | unlockPassed f =>
    cases hstep
    exact Nat.lt_succ_self _
  | advance f =>
    have hpos : Leaving H s me op.element f := hat.resolve_right fun hd => hd.elim fun _ h => h
    cases hnext : (s.node f.current).next with
    | none =>
      simp only [step, hnext] at hstep
      cases hstep
      exact Nat.succ_pos _
    | some d =>
      have := Store.ahead_lt hinv hpos.pos.curr_lt hN hnext
      simp only [step, hnext] at hstep
      cases L <;> cases hstep <;> simp only [Pc.cost] <;> omega
  | lockNext f =>
    simp only [step] at hstep
    split at hstep <;> cases hstep <;> simp only [Pc.cost, hacquire ‹_›] <;> omega
  | assign f =>
    cases hstep
    exact Nat.lt_succ_self _
  | callback f cb =>
    rcases step_callback hstep with ⟨cb', hcb, rfl⟩ | ⟨r, hcb, rfl⟩
    · have hrank := Callback.step_rank hcb
      simp only [Pc.cost]
      omega
    · cases cb <;> simp [Pc.cost, Callback.rank]
  | unlockCurrent f r | unlockPredecessor f r =>
    cases hstep
    exact Nat.lt_succ_self _
  | returned r | fault => simp [step] at hstep

theorem Pc.cost_le {pc : Pc T} (hat : PendingAt H s me op pc ∨ ∃ r, DoneAt s me r pc) (he : Effect H false u s s') :
    pc.cost N s' ≤ pc.cost N s := by
  have hahead : ∀ {p c : NodeId}, Position H s op.element p c → s'.ahead N c ≤ s.ahead N c := fun pos =>
    he.ahead_le pos.curr_lt
  cases pc with
  | test f =>
    have hp : Standing H s me op.element f := hat.resolve_right fun hd => hd.elim fun _ h => h
    have := hahead hp.pos
    simp only [cost]
    omega
  | unlockPassed f =>
    obtain ⟨hp, _⟩ := hat.resolve_right fun hd => hd.elim fun _ h => h
    have := hahead hp.pos
    simp only [cost]
    omega
  | advance f =>
    have hp : Leaving H s me op.element f := hat.resolve_right fun hd => hd.elim fun _ h => h
    have := hahead hp.pos
    simp only [cost]
    omega
  | lockNext f =>
    have hp : Entering H s me op.element f := hat.resolve_right fun hd => hd.elim fun _ h => h
    have := hahead hp.pos
    simp only [cost]
    omega
  | assign f =>
    obtain ⟨hp, _⟩ := hat.resolve_right fun hd => hd.elim fun _ h => h
    have := hahead hp.pos
    simp only [cost]
    omega
  | _ => exact Nat.le_refl _

variable [EquivBEq T] [DecidableEq τ]

theorem budget_kept (H : Hash L T) : (budget τ T).Kept (implementation τ H) where
  own := by
    intro N s t l c st l' hs hl hstep hN
    obtain ⟨hinv, hat⟩ := call_known H hs hl
    exact .inl ⟨step_cost hinv hat hN hstep, id⟩
  others := by
    intro N s t l c st l' u k hs hl hstep _ hk
    exact Pc.cost_le (call_known H hs hk).2 ((outline τ H).step_guarantee hs hl hstep)
  effect := by
    intro s t l c st l' _ _ hstep
    rcases step_effect hstep with ⟨hsize, _, howes⟩ | heffect
    · exact .inl ⟨hsize.le, howes, fun _ => id⟩
    · exact .inr heffect

theorem wants_of_stuck {s : Implementation.State τ (Store τ T) (Local T)}
    (hs : (implementation τ H).system.Reachable s) {l : Local T} (hl : s.pc me = some l)
    (hstuck : (implementation τ H).step me s.store l () = none) (hres : (implementation τ H).result l = none) :
    ∃ n, l.pc.wants = some n ∧ ∃ u, s.store.mutex n = some u := by
  have hfault := never_faults H hs hl
  obtain ⟨op, pc⟩ := l
  have hstep : step H me s.store ⟨op, pc⟩ () = none := hstuck
  cases pc with
  | lockHead | lockFirst c | lockNext f =>
    simp only [step] at hstep
    split at hstep
    all_goals first
      | exact ⟨_, rfl, Store.tryAcquire_eq_none.mp ‹_›⟩
      | cases hstep
  | loadFirst | readFirst c | advance f | callback f cb =>
    simp only [step] at hstep
    split at hstep <;> cases hstep
  | test f =>
    simp only [step] at hstep
    split at hstep
    · cases L <;> cases hstep
    · cases hstep
  | unlockPassed f | assign f | unlockCurrent f r | unlockPredecessor f r => cases hstep
  | returned r => cases hres
  | fault => exact absurd rfl hfault

end Steps

/-! ### The mutexes in C++ -/

section Order
variable {H : Hash .cpp T} {n m : NodeId}

/-- The mutexes a call holds in C++: those that its two `unique_lock`s own, and one more
while it is assigned. -/
def Pc.Owns : Pc T → NodeId → Prop
  | .lockHead, _ => False
  | .loadFirst, n => n = head
  | .lockFirst _, n => n = head
  | .readFirst c, n => n = head ∨ n = c
  | .test f, n => n = f.predecessorLock ∨ n = f.currentLock
  | .unlockPassed f, n => n = f.predecessorLock ∨ n = f.currentLock
  | .advance f, n => n = f.predecessorLock ∨ n = f.currentLock
  | .lockNext f, n => n = f.predecessorLock ∨ n = f.currentLock
  | .assign f, n => n = f.predecessorLock ∨ n = f.currentLock ∨ n = f.current
  | .callback f _, n => n = f.predecessorLock ∨ n = f.currentLock
  | .unlockCurrent f _, n => n = f.predecessorLock ∨ n = f.currentLock
  | .unlockPredecessor f _, n => n = f.predecessorLock
  | .returned _, _ => False
  | .fault, _ => False

theorem step_owns {op : SetOp T} {pc : Pc T} {l' : Local T}
    (hat : PendingAt H s me op pc ∨ ∃ r, DoneAt s me r pc) (hfault : l'.pc ≠ .fault)
    (hstep : step H me s ⟨op, pc⟩ () = some (s', l')) (h : ∀ n, s.mutex n = some me → pc.Owns n)
    (hn : s'.mutex n = some me) : l'.pc.Owns n := by
  cases pc with
  | lockHead =>
    simp only [step] at hstep
    split at hstep <;> cases hstep
    exact (Store.held_of_tryAcquire ‹_› hn).resolve_right fun hm => h n hm
  | loadFirst =>
    simp only [step] at hstep
    split at hstep <;> cases hstep
    · exact h n hn
    · exact absurd rfl hfault
  | lockFirst c =>
    cases ha : s.tryAcquire me c with
    | none => simp [step, ha] at hstep
    | some s₁ =>
      simp only [step, ha] at hstep
      cases hstep
      exact (Store.held_of_tryAcquire ha hn).symm.imp (h n) id
  | readFirst c =>
    simp only [step] at hstep
    split at hstep <;> cases hstep
    · exact h n hn
    · exact absurd rfl hfault
  | test f =>
    simp only [step] at hstep
    split at hstep <;> cases hstep <;> exact h n hn
  | unlockPassed f => exact Lang.noConfusion (hat.resolve_right fun hd => hd.elim fun _ h => h).2.1
  | advance f =>
    cases hd : (s.node f.current).next with
    | none =>
      simp only [step, hd] at hstep
      cases hstep
      exact absurd rfl hfault
    | some d =>
      simp only [step, hd] at hstep
      cases hstep
      exact (h n hn).symm
  | lockNext f =>
    cases ha : s.tryAcquire me f.current with
    | none => simp [step, ha] at hstep
    | some s₁ =>
      simp only [step, ha] at hstep
      cases hstep
      rcases Store.held_of_tryAcquire ha hn with heq | hm
      · exact .inr (.inr heq)
      · exact (h n hm).imp_right .inl
  | assign f =>
    cases hstep
    obtain ⟨hne, hm⟩ := Store.held_of_release hn
    exact (h n hm).imp_right fun h => h.resolve_left hne
  | callback f cb =>
    rcases step_callback hstep with ⟨cb', hcs, rfl⟩ | ⟨r, hcs, rfl⟩
    all_goals
      exact h n (callback_mutex hcs ▸ hn)
  | unlockCurrent f r =>
    cases hstep
    exact Store.held_of_release_of_two h hn
  | unlockPredecessor f r =>
    cases hstep
    exact (Store.not_held_of_release h hn).elim
  | returned r | fault => simp [step] at hstep

/-- While the walk is about to let go of it, the node left behind stands before the pair. -/
def Leads (s : Store τ T) : Pc T → Prop
  | .lockNext f | .assign f => f.currentLock < s.size ∧ s.Before f.currentLock f.predecessor
  | _ => True

theorem Leads.stable {pc : Pc T} {op : SetOp T} (h : Leads s pc) (hat : PendingAt H s me op pc ∨ ∃ r, DoneAt s me r pc)
    (he : Effect H false u s s') : Leads s' pc := by
  cases pc with
  | lockNext f =>
    have hp : Entering H s me op.element f := hat.resolve_right fun hd => hd.elim fun _ h => h
    exact ⟨h.1.trans_le he.size_le, he.before h.1 hp.pos.pred_lt h.2⟩
  | assign f =>
    obtain ⟨hp, _⟩ := hat.resolve_right fun hd => hd.elim fun _ h => h
    exact ⟨h.1.trans_le he.size_le, he.before h.1 hp.pos.pred_lt h.2⟩
  | _ => trivial

theorem Leads.step {op : SetOp T} {pc : Pc T} {l' : Local T} (h : Leads s pc)
    (hat : PendingAt H s me op pc ∨ ∃ r, DoneAt s me r pc) (hstep : step H me s ⟨op, pc⟩ () = some (s', l')) :
    Leads s' l'.pc := by
  cases pc with
  | advance f =>
    have hp : Leaving H s me op.element f := hat.resolve_right fun hd => hd.elim fun _ h => h
    obtain ⟨_, hpred, _⟩ := hp.pred_held rfl
    cases hd : (s.node f.current).next with
    | none =>
      simp only [FineGrainedSet.step, hd] at hstep
      cases hstep
      trivial
    | some d =>
      simp only [FineGrainedSet.step, hd] at hstep
      cases hstep
      rw [Leads, hpred]
      exact ⟨hp.pos.pred_lt, hp.pos.order⟩
  | lockNext f =>
    cases ha : s.tryAcquire me f.current with
    | none => simp [FineGrainedSet.step, ha] at hstep
    | some s₁ =>
      simp only [FineGrainedSet.step, ha] at hstep
      cases hstep
      obtain ⟨_, rfl⟩ := Store.tryAcquire_eq_some.mp ha
      exact h
  | callback f cb => rcases step_callback hstep with ⟨cb', _, rfl⟩ | ⟨r, _, rfl⟩ <;> trivial
  | lockHead | loadFirst | lockFirst c | readFirst c | test f =>
    simp only [FineGrainedSet.step] at hstep
    split at hstep <;> cases hstep <;> trivial
  | unlockPassed f => exact Lang.noConfusion (hat.resolve_right fun hd => hd.elim fun _ h => h).2.1
  | assign f | unlockCurrent f r | unlockPredecessor f r =>
    cases hstep
    trivial
  | returned r | fault => simp [FineGrainedSet.step] at hstep

variable [EquivBEq T] [DecidableEq τ]

theorem leads {s : Implementation.State τ (Store τ T) (Local T)} (hs : (implementation τ H).system.Reachable s) {l : Local T}
    (hl : s.pc me = some l) : Leads s.store l.pc := by
  refine System.Reachable.invariant_of (I := fun s => ∀ t l, s.pc t = some l → Leads s.store l.pc) (fun _ hs => hs) ?_ ?_ hs me l hl
  · intro t l hl
    cases hl
  intro s e s' hs hi hstep
  rcases Implementation.step_cases hstep with ⟨t, op, _, -, rfl⟩ | ⟨t, l, c, st, l', ht, hst, -, rfl⟩ |
    ⟨t, l, r, _, _, -, rfl⟩
  · refine Implementation.forall_update (P := fun (_ : τ) (l : Local T) => Leads s.store l.pc) (fun l hl => ?_) fun u l _ hu => hi u l hu
    obtain rfl := Option.some.inj hl
    trivial
  · refine Implementation.forall_update (P := fun (_ : τ) (l : Local T) => Leads st l.pc) (fun l₁ hl₁ => ?_) fun u k _ hu => ?_
    · obtain rfl := Option.some.inj hl₁
      exact (hi t l ht).step (call_known H hs ht).2 hst
    · exact (hi u k hu).stable (call_known H hs hu).2 ((outline τ H).step_guarantee hs ht hst)
  · refine Implementation.forall_update (P := fun (_ : τ) (l : Local T) => Leads s.store l.pc) (fun l hl => ?_) fun u l _ hu => hi u l hu
    cases hl

theorem owned {s : Implementation.State τ (Store τ T) (Local T)} (hs : (implementation τ H).system.Reachable s) :
    (locking (fun l : Local T => l.pc.wants) fun l => l.pc = .fault).Owned (fun l => l.pc.Owns) s := by
  refine Locking.owned_of_reachable (K := locking (fun l : Local T => l.pc.wants) fun l => l.pc = .fault)
    (fun n => rfl) ?_ ?_ ?_ hs
  · intro s t l c st l' u n hs hl hstep hut hn
    exact Effect.mutex_of ((outline τ H).step_guarantee hs hl hstep) hut hn
  · intro s t l c st l' hs hl hstep h n hn
    have hs' : (implementation τ H).system.Reachable ⟨st, Function.update s.pc t (some l')⟩ :=
      hs.path (.single (l := none) ⟨.run t c, by simp [Implementation.machine, Implementation.next, hl, hstep]⟩)
    exact step_owns (call_known H hs hl).2 (never_faults H hs' (t := t) (Function.update_self ..)) hstep h hn
  · intro l r hr n
    obtain ⟨op, pc⟩ := l
    cases pc with
    | returned r => exact id
    | _ => cases hr

omit [EquivBEq T] [DecidableEq τ] in
theorem owns_before {op : SetOp T} {pc : Pc T} (hinv : ListInv H false s) (hat : PendingAt H s me op pc ∨ ∃ r, DoneAt s me r pc)
    (hleads : Leads s pc) (hn : pc.wants = some n) (hm : pc.Owns m) : s.Before m n := by
  cases pc with
  | lockHead => exact hm.elim
  | lockFirst c =>
    obtain ⟨_, hnext⟩ := hat.resolve_right fun hd => hd.elim fun _ h => h
    obtain rfl : c = n := Option.some.inj hn
    obtain rfl : m = head := hm
    exact hinv.sorted.ordered hnext
  | lockNext f =>
    have hp : Entering H s me op.element f := hat.resolve_right fun hd => hd.elim fun _ h => h
    obtain rfl : f.current = n := Option.some.inj hn
    rcases hm with rfl | rfl
    · rw [hp.pred_lock]
      exact hp.pos.order
    · exact Links.Before.trans hleads.2 hp.pos.order
  | _ => cases hn

theorem cpp_callsEnd [Fintype τ] (H : Hash .cpp T) : (implementation τ H).CallsEnd where
  bounded := fun _ hs => (budget_kept H).bounded hs
  goesOn := by
    intro s hs hopen
    refine Locking.goesOn_of_owned (owned hs) (fun n hn => Links.Before.ne hn rfl)
      (fun x y z hxy hyz => Links.Before.trans hxy hyz) ?_ ?_ hopen
    · intro t l n m hl hn hm
      obtain ⟨hinv, hat⟩ := call_known H hs hl
      obtain ⟨k, hk, hown⟩ := owned hs t m hm
      obtain rfl : l = k := Option.some.inj (hl.symm.trans hk)
      exact owns_before hinv hat (leads hs hl) hn hown
    · exact fun t l hl hstuck hres => wants_of_stuck hs hl (hstuck ()) hres

end Order

theorem java_callsEnd [EquivBEq T] [DecidableEq τ] [Fintype τ] (H : Hash .java T) : (implementation τ H).CallsEnd where
  bounded := fun _ hs => (budget_kept H).bounded hs
  goesOn := fun _ hs => (inOrder H).goesOn hs fun _ _ hl hstuck hres =>
    (wants_of_stuck hs hl (hstuck ()) hres).imp fun _ h => h.1

end FineGrainedSet

/-- **Every call of a Java list set returns**, in whatever order the threads go on, unless new calls
are begun again and again: nobody waits for ever, and nobody starts over for ever. So does every call
of the C++ set that does without `std::lock`. -/
theorem listSets_callsEnd [EquivBEq T] [DecidableEq τ] [Fintype τ] :
    (∀ H : Hash .java T, (FineGrainedSet.implementation τ H).CallsEnd ∧ (LazySet.implementation τ H).CallsEnd ∧
      (OptimisticSet.MaxUnique H → (OptimisticSet.implementation τ H).CallsEnd)) ∧
      ∀ H : Hash .cpp T, (FineGrainedSet.implementation τ H).CallsEnd :=
  ⟨fun H => ⟨FineGrainedSet.java_callsEnd H, LazySet.callsEnd H, OptimisticSet.callsEnd H⟩, FineGrainedSet.cpp_callsEnd⟩

theorem listSets_callsEnd_residue :
    ((FineGrainedSet.implementation (Fin 2) (residueHash .java)).CallsEnd ∧
      (LazySet.implementation (Fin 2) (residueHash .java)).CallsEnd ∧
      (OptimisticSet.implementation (Fin 2) (residueHash .java)).CallsEnd) ∧
      (FineGrainedSet.implementation (Fin 2) (residueHash .cpp)).CallsEnd := by
  have h := @listSets_callsEnd (Fin 2) ℕ _ _ _ _
  obtain ⟨hfine, hlazy, hoptimistic⟩ := h.1 (residueHash .java)
  refine ⟨⟨hfine, hlazy, hoptimistic fun v w hv _ => ?_⟩, h.2 (residueHash .cpp)⟩
  simp only [residueHash, Lang.tailKey] at hv
  omega

end ParSweet.Sets
