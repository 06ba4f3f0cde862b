import ParSweet.Locks.CLHLock
import ParSweet.Locks.JavaCLHLock

/-! The nodes of both `CLHLock`s: none is lost, and none has two owners.

A thread owns the node in its `myNode`, but once it has lowered that node's flag it owns its
predecessor's, which `unlock()` is about to put there. That is what a participant of the CLH queue
owns, so the queue has the rest to say (`ClhQueue.Queued.path`): each step leaves a single node to
nobody, the one the queue begins at. -/
namespace ParSweet.Locks
open Concurrent

/-- What is asked of a lock, at the end of every run. -/
def KeepsNodes {σ τ : Type*} [DecidableEq τ] (S : System σ (LockEvent τ)) (size tail : σ → ℕ) (Created : σ → τ → Prop)
    (owned predecessor : σ → τ → Option ℕ) : Prop :=
  ∀ es s, S.Run es s →
    ClhQueue.NodesKept (size s) (tail s) (Created s) (owned s) (predecessor s) (queue es)

/-! ### Java -/

namespace JavaCLHLock
variable {τ : Type*}

/-- The thread has created a node: `myNode` has made it, on the thread's first use. -/
def State.Created (s : State τ) (t : τ) : Prop := s.myNode t ≠ none

/-- The node a thread owns. -/
def State.owned (s : State τ) (t : τ) : Option QNode :=
  match s.pc t with
  -- behind `qNode.locked = false`, and `myNode` is not set yet
  | .adopt => s.myPredecessor t
  | _ => (s.myNode t).join

/-- The node a thread has got from the tail. -/
def State.predecessor (s : State τ) (t : τ) : Option QNode :=
  match s.pc t with
  | .setPredecessor predecessor | .spin predecessor => some predecessor
  | _ => s.myPredecessor t

variable {s s' : State τ} {a : ClhQueue.State τ QNode} {t : τ}

/-- What a thread owns is what it owns in the queue. -/
theorem Related.owned_eq (h : Related s a) (t : τ) : s.owned t = (a.phase t).owned := by
  have hat := h.thread t
  unfold State.owned
  generalize s.pc t = pc at hat ⊢
  cases pc with
  | idle =>
    rcases hat with ⟨hnode, hx⟩ | ⟨q, hnode, hx⟩ <;> simp [hnode, hx, ClhQueue.Phase.owned]
  | raise q | swap q => simp [hat.1, hat.2, ClhQueue.Phase.owned]
  | setPredecessor p =>
    obtain ⟨q, hnode, hx⟩ := hat
    simp [hnode, hx, ClhQueue.Phase.owned]
  | spin p =>
    obtain ⟨q, hnode, _, hx⟩ := hat
    simp [hnode, hx, ClhQueue.Phase.owned]
  | critical =>
    obtain ⟨q, p, hnode, _, hx⟩ := hat
    simp [hnode, hx, ClhQueue.Phase.owned]
  | lower q =>
    obtain ⟨p, hnode, _, hx⟩ := hat
    simp [hnode, hx, ClhQueue.Phase.owned]
  | adopt =>
    obtain ⟨q, p, hpred, hx⟩ := hat
    simp [hpred, hx, ClhQueue.Phase.owned]
  | forget =>
    obtain ⟨q, hnode, hx⟩ := hat
    simp [hnode, hx, ClhQueue.Phase.owned]
  | fault => exact hat.elim

/-- A thread in the queue has what it has got from the tail. -/
theorem Related.predecessor_eq (h : Related s a) {n p : QNode} (hplace : (a.phase t).place = some (n, p)) :
    s.predecessor t = some p := by
  have hat := h.thread t
  unfold State.predecessor
  generalize s.pc t = pc at hat ⊢
  cases pc with
  | idle => rcases hat with ⟨_, hx⟩ | ⟨q, _, hx⟩ <;> simp [hx, ClhQueue.Phase.place] at hplace
  | raise q | swap q => simp [hat.2, ClhQueue.Phase.place] at hplace
  | setPredecessor k =>
    obtain ⟨q, _, hx⟩ := hat
    rw [hx] at hplace
    cases hplace
    rfl
  | spin k =>
    obtain ⟨q, _, _, hx⟩ := hat
    rw [hx] at hplace
    cases hplace
    rfl
  | critical =>
    obtain ⟨q, k, _, hpred, hx⟩ := hat
    rw [hx] at hplace
    cases hplace
    exact hpred
  | lower q =>
    obtain ⟨k, _, hpred, hx⟩ := hat
    rw [hx] at hplace
    cases hplace
    exact hpred
  | adopt =>
    obtain ⟨q, k, _, hx⟩ := hat
    rw [hx] at hplace
    cases hplace
  | forget =>
    obtain ⟨q, _, hx⟩ := hat
    rw [hx] at hplace
    cases hplace
  | fault => exact hat.elim

/-- A thread in one of its calls has created a node. -/
def Settled (s : State τ) : Prop := ∀ t, s.pc t ≠ .idle → s.Created t

theorem Related.created_iff (h : Related s a) (hs : Settled s) (t : τ) : s.Created t ↔ s.owned t ≠ none := by
  have hat := h.thread t
  have hcreated := hs t
  unfold State.owned State.Created at *
  generalize s.pc t = pc at hat hcreated ⊢
  cases pc with
  | idle => rcases hat with ⟨hnode, _⟩ | ⟨q, hnode, _⟩ <;> simp [hnode]
  | adopt =>
    obtain ⟨q, p, hpred, _⟩ := hat
    simpa [hpred] using hcreated
  | raise q | swap q => simp [hat.1]
  | setPredecessor p | forget =>
    obtain ⟨q, hnode, _⟩ := hat
    simp [hnode]
  | spin p | lower p =>
    obtain ⟨q, hnode, _⟩ := hat
    simp [hnode]
  | critical =>
    obtain ⟨q, p, hnode, _⟩ := hat
    simp [hnode]
  | fault => exact hat.elim

variable [DecidableEq τ]

/-- What a turn of `t` does to the nodes: if it creates one, `t` owns it. -/
structure Turned (s s' : State τ) (t : τ) : Prop where
  created : s'.Created t
  new : ∀ n, n < s'.size → n < s.size ∨ s'.owned t = some n
  others : ∀ u, u ≠ t → s'.pc u = s.pc u ∧ s'.myNode u = s.myNode u

omit [DecidableEq τ] in
/-- A turn that leaves `myNode` and the number of nodes alone. -/
theorem Turned.keep (hcreated : s.Created t) (hsize : s'.size = s.size) (hnode : s'.myNode = s.myNode)
    (hpc : ∀ u, u ≠ t → s'.pc u = s.pc u) : Turned s s' t where
  created := by
    rw [State.Created, hnode]
    exact hcreated
  new := fun n hn => .inl (hsize ▸ hn)
  others := fun u hu => ⟨hpc u hu, congrFun hnode u⟩

/-- `myNode.get()`, and going on at `pc`. -/
theorem turned_getNode {s₁ : State τ} {qNode : Option QNode} {pc : Pc} (hget : s.getNode t = (s₁, qNode))
    (hpc : pc ≠ .adopt) : Turned s (s₁.goto t pc) t := by
  cases hnode : s.myNode t with
  | some q =>
    simp only [State.getNode, hnode, Prod.mk.injEq] at hget
    obtain ⟨rfl, _⟩ := hget
    exact .keep (by simp [State.Created, hnode]) rfl rfl fun u hu => by simp [State.goto, hu]
  | none =>
    simp only [State.getNode, hnode, Prod.mk.injEq] at hget
    obtain ⟨rfl, _⟩ := hget
    refine ⟨by simp [State.Created, State.goto], fun n hn => ?_, fun u hu => by simp [State.goto, State.setLocked, hu]⟩
    have hn : n < s.size + 1 := hn
    rcases Nat.lt_succ_iff_lt_or_eq.mp hn with hn | rfl
    · exact .inl hn
    · refine .inr ?_
      simp only [State.owned, State.goto, Function.update_self]
      cases pc <;> rfl

theorem turned {l : Option (LockEvent τ)} (hs : Settled s) (hstep : next s t = some (l, s')) : Turned s s' t := by
  have hcreated := hs t
  cases hp : s.pc t with
  | idle | critical =>
    rcases hget : s.getNode t with ⟨s₁, _ | qNode⟩
    all_goals
      simp only [next, hp, hget, Option.some.injEq, Prod.mk.injEq] at hstep
      obtain ⟨_, rfl⟩ := hstep
      exact turned_getNode hget (by simp)
  | spin p =>
    simp only [next, hp] at hstep
    split at hstep <;> cases hstep
    · exact .keep (hcreated (by simp [hp])) rfl rfl fun u hu => rfl
    · exact .keep (hcreated (by simp [hp])) rfl rfl fun u hu => by simp [State.goto, hu]
  | adopt =>
    simp only [next, hp, Option.some.injEq, Prod.mk.injEq] at hstep
    obtain ⟨_, rfl⟩ := hstep
    exact ⟨by simp [State.Created, State.goto], fun n hn => .inl hn, fun u hu => by simp [State.goto, hu]⟩
  | fault => simp [next, hp] at hstep
  | _ =>
    simp only [next, hp, Option.some.injEq, Prod.mk.injEq] at hstep
    obtain ⟨_, rfl⟩ := hstep
    exact .keep (hcreated (by simp [hp])) rfl rfl fun u hu => by simp [State.goto, State.setLocked, hu]

theorem Settled.turn {l : Option (LockEvent τ)} (hs : Settled s) (hstep : next s t = some (l, s')) : Settled s' := by
  have ht := turned hs hstep
  intro u hu
  by_cases hut : u = t
  · exact hut ▸ ht.created
  · obtain ⟨hpc, hnode⟩ := ht.others u hut
    rw [State.Created, hnode]
    exact hs u (hpc ▸ hu)

/-! ### The run -/

/-- The lock, its queue and the node the queue begins at, after the events `es`. -/
structure Accounted (es : List (LockEvent τ)) (s : State τ) (a : ClhQueue.State τ QNode) (f : FifoLock.State τ)
    (m : QNode) : Prop where
  related : Related s a
  queued : ClhQueue.Queued a f m
  inUse : ∀ n, n < s.size → ClhQueue.InUse a m n
  settled : Settled s
  queue : queue es = f.queue

/-- **No turn loses a node.** -/
theorem Accounted.turn {es : List (LockEvent τ)} {f : FifoLock.State τ} {m : QNode} {l : Option (LockEvent τ)}
    (h : Accounted es s a f m) (hstep : next s t = some (l, s')) :
    ∃ b g k, Accounted (es ++ l.toList) s' b g k := by
  obtain ⟨b, hpath, hrelated⟩ := h.related.turn rfl hstep
  obtain ⟨g, k, hfifo, hqueued, hkept⟩ := h.queued.path hpath
  refine ⟨b, g, k, hrelated, hqueued, fun n hn => ?_, h.settled.turn hstep, ?_⟩
  · rcases (turned h.settled hstep).new n hn with hn | hown
    · exact hkept n (h.inUse n hn)
    · exact .inr ⟨t, (hrelated.owned_eq t).symm.trans hown⟩
  · rw [Concurrent.queue, List.foldl_append, ← Concurrent.queue, h.queue, FifoLock.path_queue hfifo]

theorem run_accounted {es : List (LockEvent τ)} (h : (machine τ).system.Run es s) :
    ∃ a f m, Accounted es s a f m := by
  refine h.invariant_events (I := fun es s => ∃ a f m, Accounted es s a f m) ?_ ?_
  · refine ⟨_, _, 0, (simulation τ).initial, ClhQueue.initial_queued 0, fun n hn => .inl ?_, fun t ht => absurd rfl ht, rfl⟩
    exact Nat.lt_one_iff.mp hn
  · rintro es s l s' ⟨a, f, m, h⟩ ⟨t, hstep⟩
    exact h.turn hstep

/-- A node that is in use has been created. -/
theorem Accounted.lt_size {es : List (LockEvent τ)} {f : FifoLock.State τ} {m n : QNode} (h : Accounted es s a f m)
    (hn : ClhQueue.InUse a m n) : n < s.size := by
  by_contra hlt
  exact h.queued.not_inUse (h.related.unused n (Nat.le_of_not_lt hlt)) hn

theorem keepsNodes (τ : Type*) [DecidableEq τ] :
    KeepsNodes (machine τ).system State.size State.tail State.Created State.owned State.predecessor := by
  intro es s hrun
  obtain ⟨a, f, m, h⟩ := run_accounted hrun
  have howned : s.owned = fun t => (a.phase t).owned := funext h.related.owned_eq
  refine .of_owned (m := m) (fun n => ⟨fun hn => ?_, fun hn => ?_⟩) ?_ ?_ (h.related.created_iff h.settled) ?_
  · rw [howned]
    exact h.inUse n hn
  · rw [howned] at hn
    exact h.lt_size hn
  · rw [howned]
    exact h.queued.unowned
  · rw [howned]
    exact h.queued.distinct
  · have hfront := h.queued.front
    rw [h.queue]
    cases hq : f.queue with
    | nil =>
      rw [hq] at hfront
      exact hfront.trans h.related.tail
    | cons i q =>
      rw [hq] at hfront
      obtain ⟨n, hn⟩ := hfront
      exact h.related.predecessor_eq hn

end JavaCLHLock

/-! ### C++ -/

namespace CLHLock
variable {τ : Type*}

/-- The thread has created a node: it is about to put it into its slot, or has done so. -/
def State.Created (MaxThreads : ℕ) (s : State τ) (t : τ) : Prop :=
  match s.thread t with
  | none => False
  | some ⟨id, pc⟩ =>
    match pc with
    | .setNode _ _ => True
    | _ => id ≠ 0 ∧ s.myNode.setArr (id % MaxThreads) = true

/-- The node a thread owns. -/
def State.owned (MaxThreads : ℕ) (s : State τ) (t : τ) : Option QNode :=
  match s.thread t with
  | none => none
  | some ⟨id, pc⟩ =>
    match pc with
    -- the new node is not in the slot yet
    | .setNode qNode _ => some qNode
    -- behind `qNode->locked = false`, and `myNode` is not set yet
    | .getPredecessor _ => s.myPredecessor.dataArr (id % MaxThreads)
    | .adopt predecessor _ => predecessor
    | _ => if id ≠ 0 ∧ s.myNode.setArr (id % MaxThreads) then s.myNode.dataArr (id % MaxThreads) else none

/-- The node a thread has got from the tail. -/
def State.predecessor (MaxThreads : ℕ) (s : State τ) (t : τ) : Option QNode :=
  match s.thread t with
  | none => none
  | some ⟨id, pc⟩ =>
    match pc with
    | .setPredecessor predecessor _ | .spin predecessor => some predecessor
    | _ => s.myPredecessor.dataArr (id % MaxThreads)

/-- A step after which every thread still has its slot to itself: none has got a slot that another
one uses, and none has exited, which would leave its slot to a later one. -/
def KeepsPrivate (MaxThreads : ℕ) (s s' : State τ) : Prop :=
  SlotsDistinct MaxThreads s' ∧ ∀ t, s.thread t ≠ none → s'.thread t ≠ none

variable {MaxThreads : ℕ} {s s' : State τ} {a : ClhQueue.State ℕ QNode} {t u : τ} {i id : ℕ}

/-- What `ClhQueue` does not need to know of the slot of a thread at `pc`. -/
def Settled (s : State τ) (i : ℕ) : Pc → Prop
  | .lower q => s.myNode.Holds i (some q)
  | .getPredecessor _ | .adopt _ _ => s.myNode.setArr i = true
  | _ => True

theorem getIdx_eq {pc : Pc} (hb : s.thread t = some ⟨id, pc⟩) (hid : id ≠ 0) :
    s.getIdx MaxThreads t = some (id % MaxThreads) := by
  simp [State.getIdx, hb, hid]

theorem exists_of_getIdx (h : s.getIdx MaxThreads t = some i) :
    ∃ id pc, s.thread t = some ⟨id, pc⟩ ∧ id ≠ 0 ∧ id % MaxThreads = i := by
  unfold State.getIdx at h
  split at h
  · rename_i b hb
    split_ifs at h with hid
    exact ⟨b.id, b.pc, hb, hid, Option.some.inj h⟩
  · cases h

/-- What a thread owns is what its slot owns in the queue. -/
theorem Related.owned_eq (h : Related MaxThreads s a) {pc : Pc} (hb : s.thread t = some ⟨id, pc⟩) (hid : id ≠ 0)
    (hs : Settled s (id % MaxThreads) pc) : s.owned MaxThreads t = (a.phase (id % MaxThreads)).owned := by
  have hat := h.thread t _ hb hid
  have hholds : ∀ {q}, s.myNode.Holds (id % MaxThreads) (some q) →
      (if id ≠ 0 ∧ s.myNode.setArr (id % MaxThreads) then s.myNode.dataArr (id % MaxThreads) else none) = some q :=
    fun hq => by rw [if_pos ⟨hid, hq.1⟩, hq.2]
  simp only [State.owned, hb]
  cases pc with
  | idle | isSet =>
    rcases hat with ⟨hset, hx⟩ | ⟨q, hq, hx⟩
    · simp [hset, hx, ClhQueue.Phase.owned]
    · simp only [hx, ClhQueue.Phase.owned]
      exact hholds hq
  | allocate =>
    obtain ⟨hset, hx⟩ := hat
    simp [hset, hx, ClhQueue.Phase.owned]
  | setNode q p =>
    rw [hat.1]
    rfl
  | raise q | swap q =>
    rw [hat.2]
    exact hholds hat.1
  | getNode g | setPredecessor n p | spin n =>
    obtain ⟨_, q, hq, hx⟩ := hat
    rw [hx]
    exact hholds hq
  | critical =>
    obtain ⟨q, n, hq, _, hx⟩ := hat
    rw [hx]
    exact hholds hq
  | getOwn g =>
    obtain ⟨_, q, n, hq, _, hx⟩ := hat
    rw [hx]
    exact hholds hq
  | lower q =>
    obtain ⟨n, _, hx⟩ := hat
    rw [hx]
    exact hholds hs
  | getPredecessor g =>
    obtain ⟨_, q, n, hn, hx⟩ := hat
    rw [hx]
    exact hn.2
  | adopt p put =>
    obtain ⟨_, q, n, rfl, hx⟩ := hat
    rw [hx]
    rfl
  | forget p =>
    obtain ⟨q, hq, hx⟩ := hat
    rw [hx]
    exact hholds hq
  | fault => exact hat.elim

/-- A thread whose slot is in the queue has what it has got from the tail. -/
theorem Related.predecessor_eq (h : Related MaxThreads s a) {pc : Pc} (hb : s.thread t = some ⟨id, pc⟩) (hid : id ≠ 0)
    {n p : QNode} (hplace : (a.phase (id % MaxThreads)).place = some (n, p)) :
    s.predecessor MaxThreads t = some p := by
  have hat := h.thread t _ hb hid
  simp only [State.predecessor, hb]
  cases pc with
  | idle | isSet => rcases hat with ⟨_, hx⟩ | ⟨q, _, hx⟩ <;> simp [hx, ClhQueue.Phase.place] at hplace
  | allocate | raise q | swap q => simp [hat.2, ClhQueue.Phase.place] at hplace
  | setNode q p => simp [hat.1, ClhQueue.Phase.place] at hplace
  | getNode g =>
    obtain ⟨_, q, _, hx⟩ := hat
    rw [hx] at hplace
    cases hplace
  | setPredecessor k put | spin k =>
    obtain ⟨_, q, _, hx⟩ := hat
    rw [hx] at hplace
    cases hplace
    rfl
  | critical =>
    obtain ⟨q, k, _, hk, hx⟩ := hat
    rw [hx] at hplace
    cases hplace
    exact hk.2
  | getOwn g =>
    obtain ⟨_, q, k, _, hk, hx⟩ := hat
    rw [hx] at hplace
    cases hplace
    exact hk.2
  | lower q =>
    obtain ⟨k, hk, hx⟩ := hat
    rw [hx] at hplace
    cases hplace
    exact hk.2
  | getPredecessor g =>
    obtain ⟨_, q, k, _, hx⟩ := hat
    rw [hx] at hplace
    cases hplace
  | adopt p put =>
    obtain ⟨_, q, k, _, hx⟩ := hat
    rw [hx] at hplace
    cases hplace
  | forget p =>
    obtain ⟨q, _, hx⟩ := hat
    rw [hx] at hplace
    cases hplace
  | fault => exact hat.elim

theorem Related.created_iff (h : Related MaxThreads s a) {pc : Pc} (hb : s.thread t = some ⟨id, pc⟩) (hid : id ≠ 0)
    (hs : Settled s (id % MaxThreads) pc) : s.Created MaxThreads t ↔ s.owned MaxThreads t ≠ none := by
  rw [h.owned_eq hb hid hs]
  have hat := h.thread t _ hb hid
  simp only [State.Created, hb]
  cases pc with
  | idle | isSet =>
    rcases hat with ⟨hset, hx⟩ | ⟨q, hq, hx⟩
    · simp [hset, hx, ClhQueue.Phase.owned]
    · simp [hid, hq.1, hx, ClhQueue.Phase.owned]
  | allocate => simp [hat.1, hat.2, ClhQueue.Phase.owned]
  | setNode q p => simp [hat.1, ClhQueue.Phase.owned]
  | raise q | swap q => simp [hid, hat.1.1, hat.2, ClhQueue.Phase.owned]
  | getNode g | setPredecessor n p | spin n =>
    obtain ⟨_, q, hq, hx⟩ := hat
    simp [hid, hq.1, hx, ClhQueue.Phase.owned]
  | critical =>
    obtain ⟨q, n, hq, _, hx⟩ := hat
    simp [hid, hq.1, hx, ClhQueue.Phase.owned]
  | getOwn g =>
    obtain ⟨_, q, n, hq, _, hx⟩ := hat
    simp [hid, hq.1, hx, ClhQueue.Phase.owned]
  | lower q =>
    obtain ⟨n, _, hx⟩ := hat
    simp [hid, hs.1, hx, ClhQueue.Phase.owned]
  | getPredecessor g =>
    obtain ⟨_, q, n, hn, hx⟩ := hat
    simp [hid, show s.myNode.setArr (id % MaxThreads) = true from hs, hx, ClhQueue.Phase.owned]
  | adopt p put =>
    obtain ⟨_, q, n, _, hx⟩ := hat
    simp [hid, show s.myNode.setArr (id % MaxThreads) = true from hs, hx, ClhQueue.Phase.owned]
  | forget p =>
    obtain ⟨q, hq, hx⟩ := hat
    simp [hid, hq.1, hx, ClhQueue.Phase.owned]
  | fault => exact hat.elim

variable [DecidableEq τ]

/-- A turn of `t`, which stands at `pc` then: what it does to the slots, and to the nodes. -/
structure TurnTo (MaxThreads : ℕ) (s s' : State τ) (t : τ) (id : ℕ) (pc : Pc) : Prop where
  thread : s'.thread = Function.update s.thread t (some ⟨id, pc⟩)
  settled : Settled s' (id % MaxThreads) pc
  new : ∀ n, n < s'.size → n < s.size ∨ pc = .setNode n .mark
  node : ∀ j, id = 0 ∨ j ≠ id % MaxThreads → s.myNode.Agrees s'.myNode j

/-- A turn that creates no node. -/
theorem TurnTo.goto {s₁ : State τ} {pc : Pc} (hid : id ≠ 0) (hthread : s₁.thread = s.thread) (hsize : s₁.size = s.size)
    (hsettled : Settled s₁ (id % MaxThreads) pc) (hnode : ∀ j, j ≠ id % MaxThreads → s.myNode.Agrees s₁.myNode j) :
    TurnTo MaxThreads s (s₁.goto t id pc) t id pc := by
  refine ⟨?_, ?_, fun n hn => .inl (hsize ▸ hn), fun j hj => hnode j (hj.resolve_left hid)⟩
  · simp [State.goto, hthread]
  · cases pc <;> exact hsettled

theorem Related.turnTo (h : Related MaxThreads s a) {pc : Pc} {l : Option (LockEvent τ)}
    (hb : s.thread t = some ⟨id, pc⟩) (hid : id ≠ 0) (hs : Settled s (id % MaxThreads) pc)
    (hstep : CLHLock.turn MaxThreads s t id pc = some (l, s')) : ∃ pc', TurnTo MaxThreads s s' t id pc' := by
  have hat := h.thread t _ hb hid
  cases pc with
  | idle =>
    simp only [CLHLock.turn, if_neg hid, Option.some.injEq, Prod.mk.injEq] at hstep
    obtain ⟨_, rfl⟩ := hstep
    exact ⟨_, .goto hid rfl rfl trivial fun _ _ => .rfl⟩
  | isSet =>
    simp only [CLHLock.turn, Option.some.injEq, Prod.mk.injEq] at hstep
    obtain ⟨_, rfl⟩ := hstep
    split
    · exact ⟨_, .goto hid rfl rfl trivial fun _ _ => .rfl⟩
    · exact ⟨_, .goto hid rfl rfl trivial fun _ _ => .rfl⟩
  | allocate =>
    simp only [CLHLock.turn, Option.some.injEq, Prod.mk.injEq] at hstep
    obtain ⟨_, rfl⟩ := hstep
    refine ⟨_, rfl, trivial, fun n hn => ?_, fun _ _ => .rfl⟩
    rcases Nat.lt_succ_iff_lt_or_eq.mp hn with hn | rfl
    · exact .inl hn
    · exact .inr rfl
  | setNode q p =>
    cases p
    all_goals
      simp only [CLHLock.turn, ThreadLocal.Put.step, Option.some.injEq, Prod.mk.injEq] at hstep
      obtain ⟨_, rfl⟩ := hstep
    · exact ⟨_, .goto hid rfl rfl trivial fun _ hj => ThreadLocal.agrees_mark hj⟩
    · exact ⟨_, .goto hid rfl rfl trivial fun _ hj => ThreadLocal.agrees_store hj⟩
  | getNode g =>
    obtain ⟨hg, q, hq, _⟩ := hat
    rcases hg with rfl | rfl
    · simp only [CLHLock.turn, ThreadLocal.Get.step, Option.some.injEq, Prod.mk.injEq] at hstep
      obtain ⟨_, rfl⟩ := hstep
      exact ⟨_, .goto hid rfl rfl trivial fun _ _ => .rfl⟩
    · simp only [CLHLock.turn, ThreadLocal.Get.step, hq.2, Option.some.injEq, Prod.mk.injEq] at hstep
      obtain ⟨_, rfl⟩ := hstep
      exact ⟨_, .goto hid rfl rfl trivial fun _ _ => .rfl⟩
  | raise q | swap q | critical =>
    simp only [CLHLock.turn, Option.some.injEq, Prod.mk.injEq] at hstep
    obtain ⟨_, rfl⟩ := hstep
    exact ⟨_, .goto hid rfl rfl trivial fun _ _ => .rfl⟩
  | setPredecessor n p | forget p =>
    cases p
    all_goals
      simp only [CLHLock.turn, ThreadLocal.Put.step, Option.some.injEq, Prod.mk.injEq] at hstep
      obtain ⟨_, rfl⟩ := hstep
      exact ⟨_, .goto hid rfl rfl trivial fun _ _ => .rfl⟩
  | spin n =>
    simp only [CLHLock.turn] at hstep
    split at hstep <;> cases hstep
    · exact ⟨.spin n, by rw [← hb, Function.update_eq_self], trivial, fun n hn => .inl hn, fun _ _ => .rfl⟩
    · exact ⟨_, .goto hid rfl rfl trivial fun _ _ => .rfl⟩
  | getOwn g =>
    obtain ⟨hg, q, n, hq, _⟩ := hat
    rcases hg with rfl | rfl
    · simp only [CLHLock.turn, ThreadLocal.Get.step, Option.some.injEq, Prod.mk.injEq] at hstep
      obtain ⟨_, rfl⟩ := hstep
      exact ⟨_, .goto hid rfl rfl trivial fun _ _ => .rfl⟩
    · simp only [CLHLock.turn, ThreadLocal.Get.step, hq.2, Option.some.injEq, Prod.mk.injEq] at hstep
      obtain ⟨_, rfl⟩ := hstep
      exact ⟨_, .goto hid rfl rfl hq fun _ _ => .rfl⟩
  | lower q =>
    simp only [CLHLock.turn, Option.some.injEq, Prod.mk.injEq] at hstep
    obtain ⟨_, rfl⟩ := hstep
    exact ⟨_, .goto hid rfl rfl hs.1 fun _ _ => .rfl⟩
  | getPredecessor g =>
    obtain ⟨hg, _⟩ := hat
    rcases hg with rfl | rfl
    all_goals
      simp only [CLHLock.turn, ThreadLocal.Get.step, Option.some.injEq, Prod.mk.injEq] at hstep
      obtain ⟨_, rfl⟩ := hstep
      exact ⟨_, .goto hid rfl rfl hs fun _ _ => .rfl⟩
  | adopt p put =>
    cases put
    all_goals
      simp only [CLHLock.turn, ThreadLocal.Put.step, Option.some.injEq, Prod.mk.injEq] at hstep
      obtain ⟨_, rfl⟩ := hstep
    · exact ⟨_, .goto hid rfl rfl (Function.update_self ..) fun _ hj => ThreadLocal.agrees_mark hj⟩
    · exact ⟨_, .goto hid rfl rfl trivial fun _ hj => ThreadLocal.agrees_store hj⟩
  | fault => exact hat.elim

/-- What a turn shows, it shows of its thread. -/
theorem turn_event {pc : Pc} {e : LockEvent τ} (hstep : turn MaxThreads s t id pc = some (some e, s')) :
    e.map (fun _ => t) = e := by
  cases pc with
  | swap q | lower q =>
    simp only [turn, Option.some.injEq, Prod.mk.injEq] at hstep
    obtain ⟨rfl, _⟩ := hstep
    rfl
  | spin p =>
    simp only [turn] at hstep
    split at hstep <;> cases hstep
    rfl
  | idle =>
    simp only [turn] at hstep
    split at hstep <;> cases hstep
  | setNode q p | setPredecessor q p | adopt q p | forget p =>
    cases p <;> simp [turn, ThreadLocal.Put.step] at hstep
  | getNode g | getOwn g =>
    cases g <;> simp only [turn, ThreadLocal.Get.step] at hstep
    case read => split at hstep <;> cases hstep
    all_goals cases hstep
  | getPredecessor g => cases g <;> simp [turn, ThreadLocal.Get.step] at hstep
  | _ => simp [turn] at hstep

/-- A thread without an id shows nothing, and gets one, or is refused. -/
theorem Related.turnTo_first (h : Related MaxThreads s a) {pc : Pc} {l : Option (LockEvent τ)}
    (hb : s.thread t = some ⟨0, pc⟩) (hstep : CLHLock.turn MaxThreads s t 0 pc = some (l, s')) :
    l = none ∧ ∃ c pc', TurnTo MaxThreads s s' t c pc' := by
  rcases h.fresh t _ hb rfl with rfl | rfl
  · simp only [CLHLock.turn, if_true, Option.some.injEq, Prod.mk.injEq] at hstep
    obtain ⟨rfl, rfl⟩ := hstep
    refine ⟨rfl, s.idCounter, _, rfl, ?_, fun n hn => .inl hn, fun _ _ => .rfl⟩
    split <;> trivial
  · simp [CLHLock.turn] at hstep

/-! ### The run -/

/-- The lock, the queue of its slots and the node the queue begins at, after the events `es`. -/
structure Accounted (MaxThreads : ℕ) (es : List (LockEvent τ)) (s : State τ) (a : ClhQueue.State ℕ QNode)
    (f : FifoLock.State ℕ) (m : QNode) : Prop where
  slots : SlotsDistinct MaxThreads s
  related : Related MaxThreads s a
  queued : ClhQueue.Queued a f m
  inUse : ∀ n, n < s.size → ClhQueue.InUse a m n
  settled : ∀ t id pc, s.thread t = some ⟨id, pc⟩ → id ≠ 0 → Settled s (id % MaxThreads) pc
  /-- A slot that has been set is that of a thread. -/
  manned : ∀ i, s.myNode.setArr i = true → ∃ t, s.getIdx MaxThreads t = some i
  queue : (queue es).map (s.getIdx MaxThreads) = f.queue.map some

/-- A thread keeps its slot over a turn. -/
theorem TurnTo.getIdx {c : ℕ} {pc pc' : Pc} (h : TurnTo MaxThreads s s' t c pc') (hb : s.thread t = some ⟨id, pc⟩)
    (hid : id = 0 ∨ c = id) (hu : s.getIdx MaxThreads u = some i) : s'.getIdx MaxThreads u = some i := by
  by_cases hut : u = t
  · subst hut
    obtain ⟨id', pc₁, hb', hid', hi⟩ := exists_of_getIdx hu
    obtain ⟨rfl, rfl⟩ := Thread.mk.inj (Option.some.inj (hb.symm.trans hb'))
    obtain rfl := hid.resolve_left hid'
    rw [← hi]
    exact getIdx_eq (by rw [h.thread, Function.update_self]) hid'
  · unfold State.getIdx at hu ⊢
    rwa [h.thread, Function.update_of_ne hut]

/-- The same thread leaves the queue of the threads and that of their slots. -/
theorem map_erase {q : List τ} {r : List ℕ} {idx : τ → Option ℕ} (hq : q.map idx = r.map some) (ht : idx t = some i)
    (hinj : ∀ u, idx u = some i → u = t) : (q.erase t).map idx = (r.erase i).map some := by
  induction q generalizing r with
  | nil =>
    obtain rfl := List.map_eq_nil_iff.mp hq.symm
    rfl
  | cons u q ih =>
    obtain ⟨j, r, rfl, hj, hr⟩ := List.map_eq_cons_iff.mp hq.symm
    by_cases hut : u = t
    · subst hut
      obtain rfl : j = i := Option.some.inj (hj.trans ht)
      rw [List.erase_cons_head, List.erase_cons_head, hr]
    · have hji : j ≠ i := fun he => hut (hinj u (by rw [← hj, he]))
      rw [List.erase_cons_tail (by simpa using hut), List.erase_cons_tail (by simpa using hji), List.map_cons,
        List.map_cons, ih hr.symm, hj]

/-- The queue of the threads, as that of their slots. -/
theorem map_toQueue {q : List τ} {r : List ℕ} {idx : τ → Option ℕ} {e : LockEvent τ} (hq : q.map idx = r.map some)
    (he : e.map (fun _ => t) = e) (ht : idx t = some i) (hinj : ∀ u, idx u = some i → u = t) :
    (e.toQueue q).map idx = ((e.map fun _ => i).toQueue r).map some := by
  cases e with
  | enqueue u =>
    obtain rfl : t = u := LockEvent.enqueue.inj he
    simp [LockEvent.toQueue, LockEvent.map, hq, ht]
  | enter u => exact hq
  | leave u =>
    obtain rfl : t = u := LockEvent.leave.inj he
    exact map_erase hq ht hinj

omit [DecidableEq τ] in
/-- What is settled of a slot stays so while its `myNode` does. -/
theorem Settled.congr {pc : Pc} (hagrees : s.myNode.Agrees s'.myNode i) (hs : Settled s i pc) : Settled s' i pc := by
  cases pc <;> simp only [Settled, ThreadLocal.Holds, hagrees.1, hagrees.2] at hs ⊢ <;> exact hs

section Accounts
variable {es : List (LockEvent τ)} {f : FifoLock.State ℕ} {m n : QNode} {c : ℕ} {pc : Pc}

/-- What is settled of every slot after a turn. -/
theorem Accounted.settled_turn (h : Accounted MaxThreads es s a f m) (ht : TurnTo MaxThreads s s' t c pc)
    (hslots : SlotsDistinct MaxThreads s') {pc' : Pc} (hu : s'.thread u = some ⟨id, pc'⟩) (hid : id ≠ 0) :
    Settled s' (id % MaxThreads) pc' := by
  have hb : s'.thread t = some ⟨c, pc⟩ := by rw [ht.thread, Function.update_self]
  by_cases hut : u = t
  · subst hut
    obtain ⟨rfl, rfl⟩ := Thread.mk.inj (Option.some.inj (hb.symm.trans hu))
    exact ht.settled
  · have hslot : c = 0 ∨ id % MaxThreads ≠ c % MaxThreads := by
      by_cases hc : c = 0
      · exact .inl hc
      · exact .inr fun he => hut (hslots.eq hu hb hid hc he)
    have hu' : s.thread u = some ⟨id, pc'⟩ := by rwa [ht.thread, Function.update_of_ne hut] at hu
    exact (h.settled u id pc' hu' hid).congr (ht.node _ hslot)

/-- A slot that is set after a turn is that of a thread. -/
theorem Accounted.manned_turn (h : Accounted MaxThreads es s a f m) (ht : TurnTo MaxThreads s s' t c pc)
    (hidx : ∀ u i, s.getIdx MaxThreads u = some i → s'.getIdx MaxThreads u = some i) (hi : s'.myNode.setArr i = true) :
    ∃ u, s'.getIdx MaxThreads u = some i := by
  by_cases hti : c = 0 ∨ i ≠ c % MaxThreads
  · obtain ⟨u, hu⟩ := h.manned i ((ht.node i hti).1 ▸ hi)
    exact ⟨u, hidx u i hu⟩
  · obtain ⟨hc, hi⟩ := not_or.mp hti
    exact ⟨t, by rw [not_not.mp hi]; exact getIdx_eq (by rw [ht.thread, Function.update_self]) hc⟩

/-- The threads in the queue keep their slots. -/
theorem Accounted.queue_keep (h : Accounted MaxThreads es s a f m)
    (hidx : ∀ u i, s.getIdx MaxThreads u = some i → s'.getIdx MaxThreads u = some i) :
    (Concurrent.queue es).map (s'.getIdx MaxThreads) = f.queue.map some := by
  rw [← h.queue]
  refine List.map_congr_left fun u hu => ?_
  have hmem : s.getIdx MaxThreads u ∈ f.queue.map some := h.queue ▸ List.mem_map_of_mem hu
  obtain ⟨i, _, hi⟩ := List.mem_map.mp hmem
  rw [← hi, hidx u i hi.symm]

/-- **No turn loses a node.** -/
theorem Accounted.turn {l : Option (LockEvent τ)} (h : Accounted MaxThreads es s a f m) (hb : s.thread t = some ⟨id, pc⟩)
    (hstep : CLHLock.turn MaxThreads s t id pc = some (l, s')) (hslots : SlotsDistinct MaxThreads s') :
    ∃ b g k, Accounted MaxThreads (es ++ l.toList) s' b g k := by
  obtain ⟨b, hpath, hrelated⟩ := h.related.turn hb hstep hslots
  obtain ⟨g, k, hfifo, hqueued, hkept⟩ := h.queued.path hpath
  obtain ⟨c, pc', hid, ht⟩ : ∃ c pc', ((id = 0 ∧ l = none) ∨ (id ≠ 0 ∧ c = id)) ∧ TurnTo MaxThreads s s' t c pc' := by
    by_cases hid : id = 0
    · subst hid
      obtain ⟨hl, c, pc', ht⟩ := h.related.turnTo_first hb hstep
      exact ⟨c, pc', .inl ⟨rfl, hl⟩, ht⟩
    · obtain ⟨pc', ht⟩ := h.related.turnTo hb hid (h.settled t id pc hb hid) hstep
      exact ⟨id, pc', .inr ⟨hid, rfl⟩, ht⟩
  have hb' : s'.thread t = some ⟨c, pc'⟩ := by rw [ht.thread, Function.update_self]
  have hidx : ∀ u i, s.getIdx MaxThreads u = some i → s'.getIdx MaxThreads u = some i := fun u i hu =>
    ht.getIdx hb (hid.imp And.left And.right) hu
  refine ⟨b, g, k, hslots, hrelated, hqueued, fun n hn => ?_, fun u id' pc₁ hu hid' => h.settled_turn ht hslots hu hid',
    fun i hi => h.manned_turn ht hidx hi, ?_⟩
  · rcases ht.new n hn with hn | rfl
    · exact hkept n (h.inUse n hn)
    · have hc : c ≠ 0 := fun hc => by rcases hrelated.fresh t _ hb' hc with h | h <;> cases h
      exact .inr ⟨c % MaxThreads, by rw [(hrelated.thread t _ hb' hc).1]; rfl⟩
  · have hold := h.queue_keep hidx
    have hg := FifoLock.path_queue hfifo
    rcases hid with ⟨_, rfl⟩ | ⟨hid, rfl⟩
    · rw [← hg]
      simpa using hold
    · cases l with
      | none =>
        rw [← hg]
        simpa using hold
      | some e =>
        have hti : s'.getIdx MaxThreads t = some (c % MaxThreads) := getIdx_eq hb' hid
        rw [← hg, Concurrent.queue, List.foldl_append]
        exact map_toQueue hold (turn_event hstep) hti fun u hu =>
          (hslots t u (by rw [hti]; simp) (hti.trans hu.symm)).symm

end Accounts

/-- A new thread has no slot yet. -/
theorem Accounted.start {es : List (LockEvent τ)} {f : FifoLock.State ℕ} {m : QNode} (h : Accounted MaxThreads es s a f m)
    (hb : s.thread t = none) : Accounted MaxThreads es {s.goto t 0 .idle with live := s.live + 1} a f m := by
  have hidx : State.getIdx MaxThreads {s.goto t 0 .idle with live := s.live + 1} = s.getIdx MaxThreads := by
    funext u
    by_cases hut : u = t
    · subst hut
      simp [State.getIdx, State.goto, hb]
    · simp [State.getIdx, State.goto, hut]
  refine ⟨?_, h.related.start hb, h.queued, h.inUse, fun u id pc hu hid => ?_, fun i hi => ?_, ?_⟩
  · unfold SlotsDistinct
    rw [hidx]
    exact h.slots
  · have hut : u ≠ t := fun hut => by
      subst hut
      simp only [State.goto, Function.update_self, Option.some.injEq, Thread.mk.injEq] at hu
      exact hid hu.1.symm
    have hu : s.thread u = some ⟨id, pc⟩ := by simpa [State.goto, hut] using hu
    have hsettled := h.settled u id pc hu hid
    cases pc <;> exact hsettled
  · rw [hidx]
    exact h.manned i hi
  · rw [hidx]
    exact h.queue

/-- In every run in which the threads keep their slots to themselves. -/
theorem run_accounted {es : List (LockEvent τ)}
    (h : ((machine τ MaxThreads).system.along (KeepsPrivate MaxThreads)).Run es s) :
    ∃ a f m, Accounted MaxThreads es s a f m := by
  refine h.invariant_events (I := fun es s => ∃ a f m, Accounted MaxThreads es s a f m) ?_ ?_
  · refine ⟨_, _, 0, fun _ _ h => absurd rfl h, initial_related, ClhQueue.initial_queued 0, fun n hn => .inl ?_,
      fun t id pc ht => (by cases ht), fun i hi => (by cases hi), rfl⟩
    exact Nat.lt_one_iff.mp hn
  · rintro es s l s' ⟨a, f, m, h⟩ ⟨⟨act, hstep⟩, hslots, hlive⟩
    cases act with
    | start t =>
      simp only [machine, next] at hstep
      split at hstep
      · rename_i hb
        split_ifs at hstep
        cases hstep
        exact ⟨a, f, m, by simpa using h.start hb⟩
      · cases hstep
    | exit t =>
      simp only [machine, next] at hstep
      split at hstep
      · rename_i id hb
        cases hstep
        exact absurd (by simp) (hlive t (by rw [hb]; simp))
      · cases hstep
    | turn t =>
      simp only [machine, next] at hstep
      split at hstep
      · rename_i id pc hb
        exact h.turn hb hstep hslots
      · cases hstep

section Accounts
variable {es : List (LockEvent τ)} {f : FifoLock.State ℕ} {m n : QNode}

/-- A node that is in use has been created. -/
theorem Accounted.lt_size (h : Accounted MaxThreads es s a f m) (hn : ClhQueue.InUse a m n) : n < s.size := by
  by_contra hlt
  exact h.queued.not_inUse (h.related.unused n (Nat.le_of_not_lt hlt)) hn

/-- A thread without an id has no node. -/
theorem Accounted.no_id (h : Accounted MaxThreads es s a f m) (ht : s.getIdx MaxThreads t = none) :
    ¬ s.Created MaxThreads t ∧ s.owned MaxThreads t = none := by
  cases hb : s.thread t with
  | none => simp [State.Created, State.owned, hb]
  | some b =>
    obtain ⟨id, pc⟩ := b
    have hid : id = 0 := by
      by_contra hid
      rw [getIdx_eq hb hid] at ht
      cases ht
    subst hid
    rcases h.related.fresh t _ hb rfl with hpc | hpc
    all_goals
      obtain rfl : pc = _ := hpc
      simp [State.Created, State.owned, hb]

/-- What a thread with a slot owns is what the slot owns. -/
theorem Accounted.owned_eq (h : Accounted MaxThreads es s a f m) (ht : s.getIdx MaxThreads t = some i) :
    s.owned MaxThreads t = (a.phase i).owned := by
  obtain ⟨id, pc, hb, hid, rfl⟩ := exists_of_getIdx ht
  exact h.related.owned_eq hb hid (h.settled t id pc hb hid)

theorem Accounted.exists_slot (h : Accounted MaxThreads es s a f m) (ht : s.owned MaxThreads t = some n) :
    ∃ i, s.getIdx MaxThreads t = some i ∧ (a.phase i).owned = some n := by
  cases hi : s.getIdx MaxThreads t with
  | none =>
    rw [(h.no_id hi).2] at ht
    cases ht
  | some i => exact ⟨i, rfl, (h.owned_eq hi).symm.trans ht⟩

/-- A slot that owns a node has a thread. -/
theorem Accounted.exists_owner (h : Accounted MaxThreads es s a f m) (hi : (a.phase i).owned = some n) :
    ∃ t, s.owned MaxThreads t = some n := by
  by_cases hman : ∃ t, s.getIdx MaxThreads t = some i
  · obtain ⟨t, ht⟩ := hman
    exact ⟨t, (h.owned_eq ht).trans hi⟩
  · have hvacant : Vacant MaxThreads s i := fun t b hb hid he => absurd ⟨t, he ▸ getIdx_eq hb hid⟩ hman
    rcases h.related.slot i hvacant with ⟨_, hx⟩ | ⟨q, hq, _⟩
    · rw [hx] at hi
      cases hi
    · exact absurd (h.manned i hq.1) hman

end Accounts

theorem keepsNodes (τ : Type*) [DecidableEq τ] (MaxThreads : ℕ) :
    KeepsNodes ((machine τ MaxThreads).system.along (KeepsPrivate MaxThreads)) State.size State.tail
      (State.Created MaxThreads) (State.owned MaxThreads) (State.predecessor MaxThreads) := by
  intro es s hrun
  obtain ⟨a, f, m, h⟩ := run_accounted hrun
  refine .of_owned (m := m) (fun n => ⟨fun hn => ?_, fun hn => h.lt_size ?_⟩) (fun t ht => ?_) (fun t u n ht hu => ?_)
    (fun t => ?_) ?_
  · exact (h.inUse n hn).imp_right fun ⟨i, hi⟩ => h.exists_owner hi
  · exact hn.imp_right fun ⟨t, ht⟩ => (h.exists_slot ht).imp fun i hi => hi.2
  · obtain ⟨i, _, hi⟩ := h.exists_slot ht
    exact h.queued.unowned i hi
  · obtain ⟨i, hti, hi⟩ := h.exists_slot ht
    obtain ⟨j, huj, hj⟩ := h.exists_slot hu
    obtain rfl := h.queued.distinct i j n hi hj
    exact h.slots t u (by rw [hti]; simp) (hti.trans huj.symm)
  · cases hi : s.getIdx MaxThreads t with
    | none =>
      obtain ⟨hcreated, howned⟩ := h.no_id hi
      exact iff_of_false hcreated (by simp [howned])
    | some i =>
      obtain ⟨id, pc, hb, hid, _⟩ := exists_of_getIdx hi
      exact h.related.created_iff hb hid (h.settled t id pc hb hid)
  · have hfront := h.queued.front
    have hqueue := h.queue
    cases hq : queue es with
    | nil =>
      rw [hq] at hqueue
      rw [List.map_eq_nil_iff.mp hqueue.symm] at hfront
      exact hfront.trans h.related.tail
    | cons t q =>
      rw [hq] at hqueue
      obtain ⟨i, r, hr, hi, _⟩ := List.map_eq_cons_iff.mp hqueue.symm
      rw [hr] at hfront
      obtain ⟨n, hn⟩ := hfront
      obtain ⟨id, pc, hb, hid, rfl⟩ := exists_of_getIdx hi.symm
      exact h.related.predecessor_eq hb hid hn

end CLHLock

/-- **`CLHLock` neither loses nor shares a node**, in both suites, whatever the number of threads
and the order of their steps: with the threads' own thread-locals in Java, and in C++ as long as
every thread has its slot to itself. -/
theorem clhLock_keepsNodes (τ : Type*) [DecidableEq τ] :
    KeepsNodes (JavaCLHLock.machine τ).system JavaCLHLock.State.size JavaCLHLock.State.tail JavaCLHLock.State.Created
        JavaCLHLock.State.owned JavaCLHLock.State.predecessor ∧
      ∀ MaxThreads, KeepsNodes ((CLHLock.machine τ MaxThreads).system.along (CLHLock.KeepsPrivate MaxThreads))
        CLHLock.State.size CLHLock.State.tail (CLHLock.State.Created MaxThreads) (CLHLock.State.owned MaxThreads)
        (CLHLock.State.predecessor MaxThreads) :=
  ⟨JavaCLHLock.keepsNodes τ, CLHLock.keepsNodes τ⟩

end ParSweet.Locks
