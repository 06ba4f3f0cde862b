import ParSweet.Sets.Interference

/-! Why an unlocked walk of the optimistic or of the lazy set never gets lost.

A node that has left the list keeps its successor for good (`Effect.frozen`): only the `next`
field of a node in the list is ever written. In the lazy set a node counts as removed from the
moment it is marked, and then its mutex is held until it has left the list
(`LazySet.next_of_marked`). The list stays sorted under all of this, removed nodes included,
so whatever node a walk stands on, it goes on to larger nodes and ends at the tail. -/
namespace ParSweet.Sets
open Concurrent

variable {τ T loc χ : Type*}

/-- The `next` fields lead from `n` to the tail, by finitely many nodes, each of which comes
before all that follow it. -/
def LeadsToTail (s : Store τ T) (n : NodeId) : Prop :=
  ∃ ns : List NodeId, (n :: ns).getLast (List.cons_ne_nil n ns) = tail ∧
    (n :: ns).IsChain (fun a b => s.next a = some b) ∧ (n :: ns).Pairwise s.Before

variable [BEq T] {L : Lang} {H : Hash L T} {markable : Bool} {s s' : Store τ T} {u : τ} {n : NodeId}

theorem ListInv.leadsToTail (h : ListInv H markable s) (hn : n < s.size) : LeadsToTail s n :=
  h.sorted.exists_chain h.bounded (fun _ hm ht => h.exists_next hm ht) hn

/-- **A node that has left the list keeps its successor**, and does not come back. -/
theorem Effect.frozen (he : Effect H markable u s s') (h : ListInv H markable s) (hn : n < s.size)
    (hl : ¬ s.Live n) : ¬ s'.Live n ∧ s'.next n = s.next n := by
  cases he with
  | acquire ha =>
    obtain ⟨_, rfl⟩ := Store.tryAcquire_eq_some.mp ha
    exact ⟨hl, rfl⟩
  | @link p c t _ hp hpc =>
    have hnp : n ≠ p := fun he => hl (he ▸ hp)
    refine ⟨fun hl' => ?_, ?_⟩
    · rcases (h.live_publish hp hpc).mp hl' with hl' | rfl
      · exact hl hl'
      · exact lt_irrefl _ hn
    · rw [Store.next_publish rfl (h.live_lt hp).ne]
      exact Links.link_other hnp hn.ne
  | @unlink p c e _ _ hp hpc hce =>
    have hnp : n ≠ p := fun he => hl (he ▸ hp)
    refine ⟨fun hl' => hl ((h.live_setNext hp hpc hce).mp hl').1, ?_⟩
    rw [Store.next_setNext]
    exact Links.unlink_other hnp
  | _ => exact ⟨hl, rfl⟩

/-- From `s` to `s'`, removed nodes stay, stay removed and keep their `next` fields. -/
def Freezes (Removed : Store τ T → NodeId → Prop) (s s' : Store τ T) : Prop :=
  ∀ n < s.size, Removed s n → n < s'.size ∧ Removed s' n ∧ s'.next n = s.next n

variable [DecidableEq τ]

/-- What is asked of a set whose walks hold no locks, in every reachable state and over every
run. `Removed` says when a node counts as removed, `Knows` what nodes a call has in its
variables. -/
structure NeverLost (I : Implementation τ (SetOp T) (SetRes T) (Store τ T) loc χ) (H : Hash L T)
    (Removed : Store τ T → NodeId → Prop) (Knows : NodeId → loc → Prop) : Prop where
  held : ∀ s, I.system.Reachable s → ∀ t l n, s.pc t = some l → Knows n l → n < s.store.size
  /-- The key by which a node is ordered is the hash of the element it was made for. -/
  key : ∀ s, I.system.Reachable s → ∀ n < s.store.size, n ≠ head → n ≠ tail →
    ∃ x, (s.store.node n).value = some x ∧ (s.store.node n).key = H.hash x
  leads : ∀ s, I.system.Reachable s → ∀ n < s.store.size, LeadsToTail s.store n
  unlinked : ∀ s, I.system.Reachable s → ∀ n < s.store.size, ¬ s.store.Live n → Removed s.store n
  frozen : ∀ s es s', I.system.Reachable s → I.system.Path s es s' → Freezes Removed s.store s'.store

omit [BEq T] in
/-- What each step leaves frozen stays frozen over every run. -/
theorem freezes_path {I : Implementation τ (SetOp T) (SetRes T) (Store τ T) loc χ} {Removed : Store τ T → NodeId → Prop}
    (hstep : ∀ s l s', I.system.Reachable s → I.system.step s l s' → Freezes Removed s.store s'.store)
    {s s' : Implementation.State τ (Store τ T) loc} {es : List (Event τ (SetOp T) (SetRes T))}
    (hs : I.system.Reachable s) (h : I.system.Path s es s') : Freezes Removed s.store s'.store := by
  induction h with
  | refl => exact fun n hn hr => ⟨hn, hr, rfl⟩
  | step hpath hlast ih =>
    intro n hn hr
    obtain ⟨hn', hr', hnext⟩ := ih n hn hr
    obtain ⟨hn'', hr'', hnext'⟩ := hstep _ _ _ (hs.path hpath) hlast n hn' hr'
    exact ⟨hn'', hr'', hnext'.trans hnext⟩

/-- A walk has the node in its variables. -/
def Walk.Knows (n : NodeId) : Walk → Prop
  | .start => False
  | .test p c | .advance p c | .lock p c _ => n = p ∨ n = c

omit [DecidableEq τ] in
theorem WalkAt.knows_lt {me : τ} {t : T} {w : Walk} (h : WalkAt H s me t w) (hn : w.Knows n) : n < s.size := by
  have hpos : ∀ {p c}, Position H s t p c → n = p ∨ n = c → n < s.size := fun pos hn => by
    rcases hn with rfl | rfl
    · exact pos.pred_lt
    · exact pos.curr_lt
  cases w with
  | start => exact hn.elim
  | test p c => exact hpos h hn
  | advance p c => exact hpos h.1 hn
  | lock p c held => exact hpos h.1 hn

/-! ### The optimistic set -/

namespace OptimisticSet

/-- A call has the node in the variables of one of its two walks. -/
def Knows (n : NodeId) (l : Local T) : Prop :=
  match l.pc with
  | .walk w => w.Knows n
  | .validate _ _ check next | .validateNext _ _ check next => n = check ∨ next = some n
  | _ => False

omit [DecidableEq τ] in
theorem knows_lt {me : τ} {op : SetOp T} {l : Local T} (h : PendingAt H s me op l.pc) (hn : Knows n l) : n < s.size := by
  have hvalidating : ∀ {p check next}, Validating L s p check next → n = check ∨ next = some n → n < s.size :=
    fun hv hn => by
      rcases hn with rfl | hn
      · exact hv.check_lt
      · exact hv.next_lt n hn
  obtain ⟨op', pc⟩ := l
  cases pc with
  | walk w => exact WalkAt.knows_lt h hn
  | validate p c check next => exact hvalidating h.2.2.2 hn
  | validateNext p c check next => exact hvalidating h.2.2.2.1 hn
  | _ => exact hn.elim

theorem neverLost [EquivBEq T] (H : Hash L T) :
    NeverLost (implementation τ H) H (fun s n => ¬ s.Live n) Knows where
  held := fun s hs t l n hl hn => by
    obtain ⟨_, _, hthread⟩ := (outline τ H).reachable hs
    rcases hthread t l hl with ⟨op, _, hp⟩ | ⟨r, hd⟩
    · exact knows_lt hp hn
    · obtain ⟨op, pc⟩ := l
      cases pc with
      | walk w => exact hd.elim
      | validate p c check next | validateNext p c check next => exact hd.elim
      | _ => exact hn.elim
  key := fun s hs => by
    obtain ⟨_, ⟨hinv, _⟩, _⟩ := (outline τ H).reachable hs
    exact hinv.element
  leads := fun s hs n hn => by
    obtain ⟨_, ⟨hinv, _⟩, _⟩ := (outline τ H).reachable hs
    exact hinv.leadsToTail hn
  unlinked := fun _ _ _ _ hl => hl
  frozen := fun s es s' hs hpath => by
    refine freezes_path (fun s l s' hs hstep n hn hl => ?_) hs hpath
    obtain ⟨_, ⟨hinv, _⟩, _⟩ := (outline τ H).reachable hs
    rcases (outline τ H).store_step hs hstep with heq | ⟨u, he⟩
    · rw [heq]
      exact ⟨hn, hl, rfl⟩
    · have he : Effect H false u s.store s'.store := he
      exact ⟨hn.trans_le he.size_le, he.frozen hinv hn hl⟩

end OptimisticSet

/-! ### The lazy set -/

namespace LazySet

/-- A call has the node in the variables of its walk. -/
def Knows (n : NodeId) (l : Local T) : Prop :=
  match l.pc with
  | .walk w => w.Knows n
  | _ => False

omit [DecidableEq τ] in
/-- The callback that has marked a node does not write its `next` field. -/
theorem callback_next {op : SetOp T} {p : NodeId} {cb : Callback T} {r : Callback T ⊕ SetRes T}
    (hcb : cb.Unlinks) (hne : p ≠ n) (hstep : cb.step H true s op p n = (s', r)) : s'.next n = s.next n := by
  cases cb with
  | removeLoad =>
    simp only [Callback.step, Prod.mk.injEq] at hstep
    rw [← hstep.1]
  | removeStore succ =>
    simp only [Callback.step, Prod.mk.injEq] at hstep
    rw [← hstep.1]
    simp [Store.next, Store.setNext, hne.symm]
  | _ => exact hcb.elim

/-- **The `next` field of a marked node is not written**: in the list its mutex is held by the
removal that has marked it, and out of the list nobody writes to it. -/
theorem next_of_marked [EquivBEq T] {s s' : Implementation.State τ (Store τ T) (Local T)}
    {l : Option (Event τ (SetOp T) (SetRes T))} (hs : (implementation τ H).system.Reachable s)
    (hstep : (implementation τ H).system.step s l s') (hn : n < s.store.size) (hd : s.store.deleted n = true) :
    s'.store.next n = s.store.next n := by
  obtain ⟨_, ⟨hinv, _⟩, hthread⟩ := (outline τ H).reachable hs
  by_cases hl : s.store.Live n
  · obtain ⟨u, ⟨op, _⟩, hu, p, cb, rfl, hcb⟩ := marksOwned H hs n hl hd
    have hready : Ready H s.store u op.element p n := by
      rcases hthread u _ hu with ⟨_, rfl, hp⟩ | ⟨r, hr⟩
      · exact hp.1
      · exact hr.elim
    rcases Implementation.step_cases hstep with ⟨t, op', _, _, rfl⟩ | ⟨t, k, choice, st, k', ht, hst, _, rfl⟩ |
      ⟨t, k, r, _, _, _, rfl⟩
    · rfl
    · by_cases htu : u = t
      · subst htu
        obtain rfl := Option.some.inj (hu.symm.trans ht)
        have hst : step H u s.store ⟨op, .callback p n cb⟩ choice = some (st, k') := hst
        rcases step_callback hst with ⟨cb', hcs, rfl⟩ | ⟨r, hcs, rfl⟩
        all_goals
          exact callback_next hcb hready.pos.order.ne hcs
      · have he : Effect H true t s.store st := by
          rcases hthread t k ht with ⟨op', hp⟩ | ⟨r, hdone⟩
          · exact ((outline τ H).pending_step t op' s.store _ k choice st k' ⟨hinv, rfl⟩ hp hst).1
          · exact ((outline τ H).done_step t r s.store _ k choice st k' ⟨hinv, rfl⟩ hdone hst).1
        exact he.next_eq htu hready.sec.curr_held hn
    · rfl
  · rcases (outline τ H).store_step hs hstep with heq | ⟨u, he⟩
    · rw [heq]
    · exact (Effect.frozen (show Effect H true u s.store s'.store from he) hinv hn hl).2

theorem neverLost [EquivBEq T] (H : Hash L T) :
    NeverLost (implementation τ H) H (fun s n => s.deleted n = true) Knows where
  held := fun s hs t l n hl hn => by
    obtain ⟨op, pc⟩ := l
    cases pc with
    | walk w =>
      rcases (at_of_reachable hs hl).2 with hp | ⟨r, hd⟩
      · exact WalkAt.knows_lt hp hn
      · exact hd.elim
    | _ => exact hn.elim
  key := fun s hs => by
    obtain ⟨_, ⟨hinv, _⟩, _⟩ := (outline τ H).reachable hs
    exact hinv.element
  leads := fun s hs n hn => by
    obtain ⟨_, ⟨hinv, _⟩, _⟩ := (outline τ H).reachable hs
    exact hinv.leadsToTail hn
  unlinked := fun s hs n hn hl => by
    obtain ⟨_, ⟨hinv, _⟩, _⟩ := (outline τ H).reachable hs
    exact Bool.of_not_eq_false fun hd => hl (hinv.marked rfl n hn hd)
  frozen := fun s es s' hs hpath => by
    refine freezes_path (fun s l s' hs hstep n hn hd => ?_) hs hpath
    have hnext := next_of_marked hs hstep hn hd
    rcases (outline τ H).store_step hs hstep with heq | ⟨u, he⟩
    · rw [heq]
      exact ⟨hn, hd, rfl⟩
    · have he : Effect H true u s.store s'.store := he
      exact ⟨hn.trans_le he.size_le, he.deleted hn hd, hnext⟩

end LazySet

/-- **Unlocked walks never get lost**, in the optimistic and in the lazy set: every node ever
linked leads to the tail, in the order of the list, and a removed node's `next` field is final.
In the lazy set a node is removed when it is marked, before it has left the list. -/
theorem walks_never_lost [EquivBEq T] (H : Hash L T) :
    NeverLost (OptimisticSet.implementation τ H) H (fun s n => ¬ s.Live n) OptimisticSet.Knows ∧
      NeverLost (LazySet.implementation τ H) H (fun s n => s.deleted n = true) LazySet.Knows :=
  ⟨OptimisticSet.neverLost H, LazySet.neverLost H⟩

theorem walks_never_lost_residue :
    NeverLost (OptimisticSet.implementation ℕ (residueHash .cpp)) (residueHash .cpp) (fun s n => ¬ s.Live n)
        OptimisticSet.Knows ∧
      NeverLost (LazySet.implementation ℕ (residueHash .cpp)) (residueHash .cpp) (fun s n => s.deleted n = true)
        LazySet.Knows :=
  walks_never_lost (residueHash .cpp)

end ParSweet.Sets
