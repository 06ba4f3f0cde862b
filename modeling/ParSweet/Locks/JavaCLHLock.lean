import ParSweet.Concurrent.ClhQueue

/-! `CLHLock` of the Java suite.

Every thread calls `lock()` and `unlock()` in turn, any number of times. Nodes are
numbered in the order in which they are created; node 0 is the one the lock begins
with. The lock is the CLH queue with the threads as its participants
(`simulation`). -/
namespace ParSweet.Locks.JavaCLHLock
open Concurrent

abbrev QNode := ℕ

/-- Where a thread stands. -/
inductive Pc where
  /-- Outside. Next it calls `lock()`, whose first step is `myNode.get()`. -/
  | idle
  /-- `qNode.locked = true` -/
  | raise (qNode : QNode)
  /-- `tail.getAndSet(qNode)` -/
  | swap (qNode : QNode)
  /-- `myPredecessor.set(predecessor)` -/
  | setPredecessor (predecessor : QNode)
  /-- `predecessor.locked` -/
  | spin (predecessor : QNode)
  /-- `lock()` has returned. Next it calls `unlock()`, whose first step is
  `myNode.get()`. -/
  | critical
  /-- `qNode.locked = false` -/
  | lower (qNode : QNode)
  /-- `myNode.set(myPredecessor.get())` -/
  | adopt
  /-- `myPredecessor.set(null)` -/
  | forget
  /-- `NullPointerException` -/
  | fault

/-- `size` is the number of nodes created. A thread that has not used `myNode` yet
has nothing there, not even `null`. -/
structure State (τ : Type*) where
  size : ℕ
  tail : QNode
  locked : QNode → Bool
  myNode : τ → Option (Option QNode)
  myPredecessor : τ → Option QNode
  pc : τ → Pc

variable {τ : Type*} [DecidableEq τ]

def State.goto (s : State τ) (t : τ) (pc : Pc) : State τ := {s with pc := Function.update s.pc t pc}

/-- `qNode.locked = b`. -/
def State.setLocked (s : State τ) (qNode : QNode) (b : Bool) : State τ :=
  {s with locked := Function.update s.locked qNode b}

/-- `myNode.get()`, which makes the thread's first node if it has none. -/
def State.getNode (s : State τ) (t : τ) : State τ × Option QNode :=
  match s.myNode t with
  | some qNode => (s, qNode)
  | none =>
    ({s.setLocked s.size false with
      size := s.size + 1
      myNode := Function.update s.myNode t (some (some s.size)) }, some s.size)

/-- The next atomic step of a thread. -/
def next (s : State τ) (t : τ) : Option (Option (LockEvent τ) × State τ) :=
  match s.pc t with
  | .idle =>
    match s.getNode t with
    | (s', some qNode) => some (none, s'.goto t (.raise qNode))
    | (s', none) => some (none, s'.goto t .fault)
  | .raise qNode => some (none, (s.setLocked qNode true).goto t (.swap qNode))
  | .swap qNode =>
    some (some (.enqueue t), {s with tail := qNode}.goto t (.setPredecessor s.tail))
  | .setPredecessor predecessor =>
    some (none, {s with
      myPredecessor := Function.update s.myPredecessor t (some predecessor) }.goto t (.spin predecessor))
  | .spin predecessor =>
    if s.locked predecessor then some (none, s) else some (some (.enter t), s.goto t .critical)
  | .critical =>
    match s.getNode t with
    | (s', some qNode) => some (none, s'.goto t (.lower qNode))
    | (s', none) => some (none, s'.goto t .fault)
  | .lower qNode => some (some (.leave t), (s.setLocked qNode false).goto t .adopt)
  | .adopt =>
    some (none, {s with
      myNode := Function.update s.myNode t (some (s.myPredecessor t)) }.goto t .forget)
  | .forget =>
    some (none, {s with
      myPredecessor := Function.update s.myPredecessor t none }.goto t .idle)
  | .fault => none

/-- The lock and its threads; the actions are the threads' turns. -/
def machine (τ : Type*) [DecidableEq τ] : Machine (State τ) τ (LockEvent τ) where
  initial := ⟨1, 0, fun _ => false, fun _ => none, fun _ => none, fun _ => .idle⟩
  next := next

/-! ### The threads as participants of the queue -/

/-- A thread's place in the code, its two thread-locals and its phase in the queue. -/
def At (myNode : Option (Option QNode)) (myPredecessor : Option QNode) (x : ClhQueue.Phase QNode) :
    Pc → Prop
  | .idle => (myNode = none ∧ x = .fresh) ∨ ∃ q, myNode = some (some q) ∧ x = .rest q
  | .raise q => myNode = some (some q) ∧ x = .rest q
  | .swap q => myNode = some (some q) ∧ x = .armed q
  | .setPredecessor p => ∃ q, myNode = some (some q) ∧ x = .waiting q p
  | .spin p => ∃ q, myNode = some (some q) ∧ myPredecessor = some p ∧ x = .waiting q p
  | .critical => ∃ q p, myNode = some (some q) ∧ myPredecessor = some p ∧ x = .inside q p
  | .lower q => ∃ p, myNode = some (some q) ∧ myPredecessor = some p ∧ x = .inside q p
  | .adopt => ∃ q p, myPredecessor = some p ∧ x = .leaving q p
  | .forget => ∃ q, myNode = some (some q) ∧ x = .rest q
  | .fault => False

/-- The lock as a CLH queue. -/
structure Related (s : State τ) (a : ClhQueue.State τ QNode) : Prop where
  tail : a.tail = s.tail
  locked : a.locked = s.locked
  unused : ∀ n, s.size ≤ n → ClhQueue.Unused a n
  thread : ∀ t, At (s.myNode t) (s.myPredecessor t) (a.phase t) (s.pc t)

variable {s s' : State τ} {a a' : ClhQueue.State τ QNode} {t : τ}

/-- After a turn of `t`, nobody else has moved. -/
theorem Related.thread_turn (h : Related s a) {x : ClhQueue.Phase QNode}
    (hother : ∀ u, u ≠ t → s'.myNode u = s.myNode u ∧ s'.myPredecessor u = s.myPredecessor u ∧
      s'.pc u = s.pc u)
    (hself : At (s'.myNode t) (s'.myPredecessor t) x (s'.pc t)) (u : τ) :
    At (s'.myNode u) (s'.myPredecessor u) (Function.update a.phase t x u) (s'.pc u) := by
  by_cases hu : u = t
  · subst hu
    rwa [Function.update_self]
  · obtain ⟨h₁, h₂, h₃⟩ := hother u hu
    rw [Function.update_of_ne hu, h₁, h₂, h₃]
    exact h.thread u

/-- A turn that is no step of the queue. -/
theorem Related.stay (h : Related s a) (hsize : s'.size = s.size) (htail : s'.tail = s.tail)
    (hlocked : s'.locked = s.locked)
    (hother : ∀ u, u ≠ t → s'.myNode u = s.myNode u ∧ s'.myPredecessor u = s.myPredecessor u ∧
      s'.pc u = s.pc u)
    (hself : At (s'.myNode t) (s'.myPredecessor t) (a.phase t) (s'.pc t)) :
    ∃ b, (ClhQueue.system τ 0).Path a [] b ∧ Related s' b := by
  refine ⟨a, .refl, h.tail.trans htail.symm, h.locked.trans hlocked.symm, hsize ▸ h.unused, fun u => ?_⟩
  have := h.thread_turn hother hself u
  rwa [Function.update_eq_self] at this

/-- A turn that is a step of the queue by a participant with a node. -/
theorem Related.move (h : Related s a) {l : Option (LockEvent τ)} {x : ClhQueue.Phase QNode}
    (hstep : ClhQueue.Step a l a') (hold : a.phase t ≠ .fresh)
    (hphase : a'.phase = Function.update a.phase t x) (hsize : s'.size = s.size)
    (htail : a'.tail = s'.tail) (hlocked : a'.locked = s'.locked)
    (hother : ∀ u, u ≠ t → s'.myNode u = s.myNode u ∧ s'.myPredecessor u = s.myPredecessor u ∧
      s'.pc u = s.pc u)
    (hself : At (s'.myNode t) (s'.myPredecessor t) x (s'.pc t)) :
    ∃ b, (ClhQueue.system τ 0).Path a l.toList b ∧ Related s' b := by
  refine ⟨a', System.Path.single hstep, htail, hlocked, fun n hn => ?_, fun u => ?_⟩
  · refine (h.unused n (hsize ▸ hn)).step hstep fun i hi => ?_
    have hit : i ≠ t := fun he => hold (he ▸ hi)
    rw [hphase, Function.update_of_ne hit, hi]
    nofun
  · rw [hphase]
    exact h.thread_turn hother hself u

/-- A thread's first use of `myNode` gives it a node. -/
theorem Related.create (h : Related s a) (hnode : s.myNode t = none) (hx : a.phase t = .fresh) :
    ∃ b, (ClhQueue.system τ 0).Path a [] b ∧
      Related ({s.setLocked s.size false with
        size := s.size + 1
        myNode := Function.update s.myNode t (some (some s.size)) }.goto t (.raise s.size)) b := by
  have hcreate := ClhQueue.Step.create hx (h.unused s.size (Nat.le_refl _))
  refine ⟨_, System.Path.single (l := none) hcreate, h.tail, ?_, fun n hn => ?_, fun u => ?_⟩
  · rw [h.locked]
    rfl
  · have hn : s.size + 1 ≤ n := hn
    refine (h.unused n (by omega)).step hcreate fun i hi => ?_
    by_cases hit : i = t
    · subst hit
      simp only [Function.update_self]
      exact fun he => Nat.ne_of_lt hn (ClhQueue.Phase.rest.inj he)
    · simp [hit, hi]
  · refine h.thread_turn (t := t) (fun u hu => ?_) ?_ u
    · simp [State.goto, State.setLocked, hu]
    · simp [At, State.goto]

/-- **The queue follows every turn** of a thread. -/
theorem Related.turn (h : Related s a) {pc : Pc} {l : Option (LockEvent τ)} (hp : s.pc t = pc)
    (hstep : next s t = some (l, s')) :
    ∃ b, (ClhQueue.system τ 0).Path a l.toList b ∧ Related s' b := by
  have hat : At (s.myNode t) (s.myPredecessor t) (a.phase t) pc := hp ▸ h.thread t
  simp only [next, hp] at hstep
  cases pc with
  | idle =>
    rcases hat with ⟨hnode, hx⟩ | ⟨q, hnode, hx⟩
    · simp only [State.getNode, hnode, Option.some.injEq, Prod.mk.injEq] at hstep
      obtain ⟨rfl, rfl⟩ := hstep
      exact h.create hnode hx
    · simp only [State.getNode, hnode, Option.some.injEq, Prod.mk.injEq] at hstep
      obtain ⟨rfl, rfl⟩ := hstep
      refine h.stay (t := t) rfl rfl rfl (fun u hu => by simp [State.goto, hu]) ?_
      simpa [State.goto, At] using ⟨hnode, hx⟩
  | raise q =>
    obtain ⟨hnode, hx⟩ := hat
    simp only [Option.some.injEq, Prod.mk.injEq] at hstep
    obtain ⟨rfl, rfl⟩ := hstep
    refine h.move (.arm hx) (by rw [hx]; nofun) rfl rfl h.tail ?_
      (fun u hu => by simp [State.goto, State.setLocked, hu]) ?_
    · rw [h.locked]
      rfl
    · simpa [State.goto, State.setLocked, At] using hnode
  | swap q =>
    obtain ⟨hnode, hx⟩ := hat
    simp only [Option.some.injEq, Prod.mk.injEq] at hstep
    obtain ⟨rfl, rfl⟩ := hstep
    refine h.move (.swap hx) (by rw [hx]; nofun) rfl rfl rfl h.locked
      (fun u hu => by simp [State.goto, hu]) ?_
    simpa [State.goto, At, h.tail] using hnode
  | setPredecessor p =>
    obtain ⟨q, hnode, hx⟩ := hat
    simp only [Option.some.injEq, Prod.mk.injEq] at hstep
    obtain ⟨rfl, rfl⟩ := hstep
    refine h.stay (t := t) rfl rfl rfl (fun u hu => by simp [State.goto, hu]) ?_
    simpa [State.goto, At] using ⟨q, hnode, hx⟩
  | spin p =>
    obtain ⟨q, hnode, hpred, hx⟩ := hat
    by_cases hl : s.locked p = true
    · simp only [if_pos hl, Option.some.injEq, Prod.mk.injEq] at hstep
      obtain ⟨rfl, rfl⟩ := hstep
      exact ⟨a, .refl, h⟩
    · simp only [if_neg hl, Option.some.injEq, Prod.mk.injEq] at hstep
      obtain ⟨rfl, rfl⟩ := hstep
      refine h.move (.enter hx (by rw [h.locked]; exact Bool.of_not_eq_true hl)) (by rw [hx]; nofun)
        rfl rfl h.tail h.locked (fun u hu => by simp [State.goto, hu]) ?_
      simpa [State.goto, At] using ⟨hnode, hpred⟩
  | critical =>
    obtain ⟨q, p, hnode, hpred, hx⟩ := hat
    simp only [State.getNode, hnode, Option.some.injEq, Prod.mk.injEq] at hstep
    obtain ⟨rfl, rfl⟩ := hstep
    refine h.stay (t := t) rfl rfl rfl (fun u hu => by simp [State.goto, hu]) ?_
    simpa [State.goto, At] using ⟨hnode, p, hpred, hx⟩
  | lower q =>
    obtain ⟨p, hnode, hpred, hx⟩ := hat
    simp only [Option.some.injEq, Prod.mk.injEq] at hstep
    obtain ⟨rfl, rfl⟩ := hstep
    refine h.move (.release hx) (by rw [hx]; nofun) rfl rfl h.tail ?_
      (fun u hu => by simp [State.goto, State.setLocked, hu]) ?_
    · rw [h.locked]
      rfl
    · simpa [State.goto, State.setLocked, At] using hpred
  | adopt =>
    obtain ⟨q, p, hpred, hx⟩ := hat
    simp only [Option.some.injEq, Prod.mk.injEq] at hstep
    obtain ⟨rfl, rfl⟩ := hstep
    refine h.move (.adopt hx) (by rw [hx]; nofun) rfl rfl h.tail h.locked
      (fun u hu => by simp [State.goto, hu]) ?_
    simpa [State.goto, At] using hpred
  | forget =>
    obtain ⟨q, hnode, hx⟩ := hat
    simp only [Option.some.injEq, Prod.mk.injEq] at hstep
    obtain ⟨rfl, rfl⟩ := hstep
    refine h.stay (t := t) rfl rfl rfl (fun u hu => by simp [State.goto, hu]) ?_
    simpa [State.goto, At] using .inr ⟨q, hnode, hx⟩
  | fault =>
    exact hat.elim

/-- **The lock is the CLH queue of its threads.** -/
def simulation (τ : Type*) [DecidableEq τ] :
    System.Simulation (machine τ).system (ClhQueue.system τ (0 : QNode)) where
  Rel := Related
  initial := ⟨rfl, rfl, fun _ hn => ⟨Nat.pos_iff_ne_zero.mp hn, fun _ => ⟨nofun, nofun⟩⟩,
    fun _ => .inl ⟨rfl, rfl⟩⟩
  step := fun _ _ _ _ h ⟨_, hstep⟩ => h.turn rfl hstep

/-- **The Java CLH lock excludes, first come, first served.** -/
theorem java_clh_excludesInOrder (τ : Type*) [DecidableEq τ] :
    ExcludesInOrder (machine τ).system fun s t => s.pc t = .critical := by
  refine FifoLock.excludesInOrder ((simulation τ).comp (ClhQueue.simulation τ 0)) ?_
  rintro s f t ⟨a, h, m, hq⟩ hp
  have hat := h.thread t
  rw [hp] at hat
  obtain ⟨q, p, _, _, hx⟩ := hat
  exact (hq.holds t).mpr ⟨q, p, hx⟩

end ParSweet.Locks.JavaCLHLock
