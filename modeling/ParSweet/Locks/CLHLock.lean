import Mathlib.Algebra.Group.Nat.Defs
import Mathlib.Data.Fintype.Basic
import Mathlib.Data.Set.Subsingleton
import ParSweet.Concurrent.ClhQueue
import ParSweet.Locks.ThreadLocal

/-! `CLHLock` of the C++ suite, with its `ThreadLocal`s and `ThreadId`.

Threads start and exit at any time, at most `MaxThreads` of them live at once, and
every live thread calls `lock()` and `unlock()` in turn. A thread's id is the next
of `ThreadId` when it first needs one, and its slot in `myNode` and `myPredecessor`
is the id modulo `MaxThreads`: ids go on growing, so that a thread may find its slot
in use by another live thread. While that does not happen, the slots are the
participants of a CLH queue (`Related`), each kept by the threads it belongs to one
after the other. -/
namespace ParSweet.Locks.CLHLock
open Concurrent

abbrev QNode := ℕ

/-- Where a thread stands. -/
inductive Pc where
  /-- Outside. Next it calls `lock()`, which begins with `ThreadId::get()`. -/
  | idle
  /-- `myNode.isSet()` -/
  | isSet
  /-- `new clh::QNode()` -/
  | allocate
  /-- `myNode.set(qNode)` -/
  | setNode (qNode : QNode) (p : ThreadLocal.Put)
  /-- `myNode.get()`, in `lock()`. -/
  | getNode (g : ThreadLocal.Get)
  /-- `qNode->locked = true` -/
  | raise (qNode : QNode)
  /-- `tail.exchange(qNode)` -/
  | swap (qNode : QNode)
  /-- `myPredecessor.set(predecessor)` -/
  | setPredecessor (predecessor : QNode) (p : ThreadLocal.Put)
  /-- `predecessor->locked` -/
  | spin (predecessor : QNode)
  /-- `lock()` has returned. Next it calls `unlock()`. -/
  | critical
  /-- `myNode.get()`, in `unlock()`. -/
  | getOwn (g : ThreadLocal.Get)
  /-- `qNode->locked = false` -/
  | lower (qNode : QNode)
  /-- `myPredecessor.get()` -/
  | getPredecessor (g : ThreadLocal.Get)
  /-- `myNode.set(predecessor)` -/
  | adopt (predecessor : Option QNode) (p : ThreadLocal.Put)
  /-- `myPredecessor.set(nullptr)` -/
  | forget (p : ThreadLocal.Put)
  /-- A null pointer has been dereferenced, or the assertion in `ThreadId::get()` has
  failed. -/
  | fault
  deriving DecidableEq

/-- A live thread. `id` is `ThreadId::id`, 0 until its first use. -/
structure Thread where
  id : ℕ
  pc : Pc

/-- `size` is the number of nodes created, `live` the number of live threads;
`idCounter` is a `usize`. -/
structure State (τ : Type*) where
  size : ℕ
  tail : QNode
  locked : QNode → Bool
  idCounter : ℕ
  myNode : ThreadLocal ℕ (Option QNode)
  myPredecessor : ThreadLocal ℕ (Option QNode)
  thread : τ → Option Thread
  live : ℕ

variable {τ : Type*} [DecidableEq τ]

/-- The thread `t`, whose id is `id`, goes on at `pc`. -/
def State.goto (s : State τ) (t : τ) (id : ℕ) (pc : Pc) : State τ :=
  {s with thread := Function.update s.thread t (some ⟨id, pc⟩)}

/-- `qNode->locked = b`. -/
def State.setLocked (s : State τ) (qNode : QNode) (b : Bool) : State τ :=
  {s with locked := Function.update s.locked qNode b}

/-- The next atomic step of a thread at `pc`. -/
def turn (MaxThreads : ℕ) (s : State τ) (t : τ) (id : ℕ) :
    Pc → Option (Option (LockEvent τ) × State τ)
  | .idle =>
    if id = 0 then
      let s' := {s with idCounter := (s.idCounter + 1) % 2 ^ 64}
      some (none, s'.goto t s.idCounter (if s.idCounter = 0 then .fault else .isSet))
    else some (none, s.goto t id .isSet)
  | .isSet =>
    some (none, s.goto t id (if s.myNode.setArr (id % MaxThreads) then .getNode .test else .allocate))
  | .allocate =>
    some (none, {s.setLocked s.size false with size := s.size + 1}.goto t id (.setNode s.size .mark))
  | .setNode qNode p =>
    match p.step s.myNode (id % MaxThreads) (some qNode) with
    | (l, some p') => some (none, {s with myNode := l}.goto t id (.setNode qNode p'))
    | (l, none) => some (none, {s with myNode := l}.goto t id (.getNode .test))
  | .getNode g =>
    match g.step s.myNode (id % MaxThreads) with
    | (l, .inl g') => some (none, {s with myNode := l}.goto t id (.getNode g'))
    | (l, .inr (some qNode)) => some (none, {s with myNode := l}.goto t id (.raise qNode))
    | (l, .inr none) => some (none, {s with myNode := l}.goto t id .fault)
  | .raise qNode => some (none, (s.setLocked qNode true).goto t id (.swap qNode))
  | .swap qNode =>
    some (some (.enqueue t), {s with tail := qNode}.goto t id (.setPredecessor s.tail .mark))
  | .setPredecessor predecessor p =>
    match p.step s.myPredecessor (id % MaxThreads) (some predecessor) with
    | (l, some p') => some (none, {s with myPredecessor := l}.goto t id (.setPredecessor predecessor p'))
    | (l, none) => some (none, {s with myPredecessor := l}.goto t id (.spin predecessor))
  | .spin predecessor =>
    if s.locked predecessor then some (none, s) else some (some (.enter t), s.goto t id .critical)
  | .critical => some (none, s.goto t id (.getOwn .test))
  | .getOwn g =>
    match g.step s.myNode (id % MaxThreads) with
    | (l, .inl g') => some (none, {s with myNode := l}.goto t id (.getOwn g'))
    | (l, .inr (some qNode)) => some (none, {s with myNode := l}.goto t id (.lower qNode))
    | (l, .inr none) => some (none, {s with myNode := l}.goto t id .fault)
  | .lower qNode => some (some (.leave t), (s.setLocked qNode false).goto t id (.getPredecessor .test))
  | .getPredecessor g =>
    match g.step s.myPredecessor (id % MaxThreads) with
    | (l, .inl g') => some (none, {s with myPredecessor := l}.goto t id (.getPredecessor g'))
    | (l, .inr p) => some (none, {s with myPredecessor := l}.goto t id (.adopt p .mark))
  | .adopt predecessor p =>
    match p.step s.myNode (id % MaxThreads) predecessor with
    | (l, some p') => some (none, {s with myNode := l}.goto t id (.adopt predecessor p'))
    | (l, none) => some (none, {s with myNode := l}.goto t id (.forget .mark))
  | .forget p =>
    match p.step s.myPredecessor (id % MaxThreads) none with
    | (l, some p') => some (none, {s with myPredecessor := l}.goto t id (.forget p'))
    | (l, none) => some (none, {s with myPredecessor := l}.goto t id .idle)
  | .fault => none

inductive Action (τ : Type*) where
  /-- A new thread, while fewer than `MaxThreads` are alive. -/
  | start (t : τ)
  /-- A thread ends, outside of `lock()` and `unlock()`. -/
  | exit (t : τ)
  | turn (t : τ)

def next (MaxThreads : ℕ) (s : State τ) : Action τ → Option (Option (LockEvent τ) × State τ)
  | .start t =>
    match s.thread t with
    | none =>
      if s.live < MaxThreads then some (none, {s.goto t 0 .idle with live := s.live + 1}) else none
    | some _ => none
  | .exit t =>
    match s.thread t with
    | some ⟨_, .idle⟩ =>
      some (none, {s with thread := Function.update s.thread t none, live := s.live - 1})
    | _ => none
  | .turn t =>
    match s.thread t with
    | some ⟨id, pc⟩ => turn MaxThreads s t id pc
    | none => none

/-- The lock and its threads, of which none is alive at first. -/
def machine (τ : Type*) [DecidableEq τ] (MaxThreads : ℕ) : Machine (State τ) (Action τ) (LockEvent τ) where
  initial := ⟨1, 0, fun _ => false, 1, .empty, .empty, fun _ => none, 0⟩
  next := next MaxThreads

/-- The thread is between the return of `lock()` and the call of `unlock()`. -/
def Inside (s : State τ) (t : τ) : Prop := (s.thread t).map Thread.pc = some .critical

instance (s : State τ) (t : τ) : Decidable (Inside s t) := inferInstanceAs (Decidable (_ = _))

/-- `getIdx()` of a live thread that has an id. -/
def State.getIdx (MaxThreads : ℕ) (s : State τ) (t : τ) : Option ℕ :=
  match s.thread t with
  | some b => if b.id = 0 then none else some (b.id % MaxThreads)
  | none => none

/-- No two live threads share a slot. -/
def SlotsDistinct (MaxThreads : ℕ) (s : State τ) : Prop :=
  ∀ t u, s.getIdx MaxThreads t ≠ none → s.getIdx MaxThreads t = s.getIdx MaxThreads u → t = u

instance [Fintype τ] (MaxThreads : ℕ) (s : State τ) : Decidable (SlotsDistinct MaxThreads s) :=
  inferInstanceAs (Decidable (∀ _ _, _))

/-! ### The slots as participants of the queue -/

variable {MaxThreads : ℕ} {s s' : State τ} {a a' : ClhQueue.State ℕ QNode} {t u : τ} {i id : ℕ}

omit [DecidableEq τ] in
theorem SlotsDistinct.eq (h : SlotsDistinct MaxThreads s) {b c : Thread} (hb : s.thread t = some b)
    (hc : s.thread u = some c) (hb0 : b.id ≠ 0) (hc0 : c.id ≠ 0)
    (hi : b.id % MaxThreads = c.id % MaxThreads) : t = u :=
  h t u (by simp [State.getIdx, hb, hb0]) (by simp [State.getIdx, hb, hc, hb0, hc0, hi])

/-- A slot nobody is using: it is empty, or it holds the node it owns. -/
def Rest (s : State τ) (a : ClhQueue.State ℕ QNode) (i : ℕ) : Prop :=
  (s.myNode.setArr i = false ∧ a.phase i = .fresh) ∨
    ∃ q, s.myNode.Holds i (some q) ∧ a.phase i = .rest q

/-- Where the thread that uses slot `i` stands in the code against where the slot
stands in the queue. -/
def At (s : State τ) (a : ClhQueue.State ℕ QNode) (i : ℕ) : Pc → Prop
  | .idle => Rest s a i
  | .isSet => Rest s a i
  | .allocate => s.myNode.setArr i = false ∧ a.phase i = .fresh
  | .setNode q p => a.phase i = .rest q ∧ (p = .store → s.myNode.setArr i = true)
  | .getNode g => (g = .test ∨ g = .read) ∧ ∃ q, s.myNode.Holds i (some q) ∧ a.phase i = .rest q
  | .raise q => s.myNode.Holds i (some q) ∧ a.phase i = .rest q
  | .swap q => s.myNode.Holds i (some q) ∧ a.phase i = .armed q
  | .setPredecessor n p => (p = .store → s.myPredecessor.setArr i = true) ∧
      ∃ q, s.myNode.Holds i (some q) ∧ a.phase i = .waiting q n
  | .spin n => s.myPredecessor.Holds i (some n) ∧
      ∃ q, s.myNode.Holds i (some q) ∧ a.phase i = .waiting q n
  | .critical => ∃ q n, s.myNode.Holds i (some q) ∧ s.myPredecessor.Holds i (some n) ∧
      a.phase i = .inside q n
  | .getOwn g => (g = .test ∨ g = .read) ∧ ∃ q n, s.myNode.Holds i (some q) ∧
      s.myPredecessor.Holds i (some n) ∧ a.phase i = .inside q n
  | .lower q => ∃ n, s.myPredecessor.Holds i (some n) ∧ a.phase i = .inside q n
  | .getPredecessor g => (g = .test ∨ g = .read) ∧ ∃ q n, s.myPredecessor.Holds i (some n) ∧
      a.phase i = .leaving q n
  | .adopt p put => (put = .store → s.myNode.setArr i = true) ∧
      ∃ q n, p = some n ∧ a.phase i = .leaving q n
  | .forget _ => ∃ q, s.myNode.Holds i (some q) ∧ a.phase i = .rest q
  | .fault => False

omit [DecidableEq τ] in
/-- Only the slot itself and its phase matter. -/
theorem At.congr {pc : Pc} (h : At s a i pc) (hnode : s.myNode.Agrees s'.myNode i)
    (hpred : s.myPredecessor.Agrees s'.myPredecessor i) (hphase : a'.phase i = a.phase i) :
    At s' a' i pc := by
  cases pc <;> simp only [At, Rest, ThreadLocal.Holds, hnode.1, hnode.2, hpred.1, hpred.2, hphase] at h ⊢ <;>
    exact h

omit [DecidableEq τ] in
theorem Rest.congr (h : Rest s a i) (hnode : s.myNode.Agrees s'.myNode i)
    (hphase : a'.phase i = a.phase i) : Rest s' a' i := by
  simp only [Rest, ThreadLocal.Holds, hnode.1, hnode.2, hphase] at h ⊢
  exact h

/-- Every thread that uses slot `i` is outside. -/
def Vacant (MaxThreads : ℕ) (s : State τ) (i : ℕ) : Prop :=
  ∀ t b, s.thread t = some b → b.id ≠ 0 → b.id % MaxThreads = i → b.pc = .idle

/-- The lock as a CLH queue of its slots. -/
structure Related (MaxThreads : ℕ) (s : State τ) (a : ClhQueue.State ℕ QNode) : Prop where
  tail : a.tail = s.tail
  locked : a.locked = s.locked
  unused : ∀ n, s.size ≤ n → ClhQueue.Unused a n
  thread : ∀ t b, s.thread t = some b → b.id ≠ 0 → At s a (b.id % MaxThreads) b.pc
  /-- A thread without an id has not done anything yet, or its id was refused. -/
  fresh : ∀ t b, s.thread t = some b → b.id = 0 → b.pc = .idle ∨ b.pc = .fault
  slot : ∀ i, Vacant MaxThreads s i → Rest s a i

/-- What a turn of `t` on its own slot leaves alone. -/
structure Turned (MaxThreads : ℕ) (s s' : State τ) (a a' : ClhQueue.State ℕ QNode) (t : τ) (b b' : Thread) :
    Prop where
  before : s.thread t = some b
  after : s'.thread = Function.update s.thread t (some b')
  id_ne : b'.id ≠ 0
  same_id : b.id = 0 ∨ b.id = b'.id
  node : ∀ j, j ≠ b'.id % MaxThreads → s.myNode.Agrees s'.myNode j
  predecessor : ∀ j, j ≠ b'.id % MaxThreads → s.myPredecessor.Agrees s'.myPredecessor j
  phase : ∀ j, j ≠ b'.id % MaxThreads → a'.phase j = a.phase j

/-- After a turn, every other slot is as it was. -/
theorem Related.of_turned (h : Related MaxThreads s a) (b b' : Thread) (ht : Turned MaxThreads s s' a a' t b b')
    (hslots : SlotsDistinct MaxThreads s') (htail : a'.tail = s'.tail) (hlocked : a'.locked = s'.locked)
    (hunused : ∀ n, s'.size ≤ n → ClhQueue.Unused a' n)
    (hself : At s' a' (b'.id % MaxThreads) b'.pc) : Related MaxThreads s' a' := by
  have hself' : s'.thread t = some b' := by rw [ht.after, Function.update_self]
  have hother : ∀ u, u ≠ t → s'.thread u = s.thread u := fun u hu => by
    rw [ht.after, Function.update_of_ne hu]
  refine ⟨htail, hlocked, hunused, fun u c hu hc => ?_, fun u c hu hc => ?_, fun j hj => ?_⟩
  · by_cases hut : u = t
    · subst hut
      obtain rfl := Option.some.inj (hself'.symm.trans hu)
      exact hself
    · have hne : c.id % MaxThreads ≠ b'.id % MaxThreads := fun he =>
        hut (hslots.eq hu hself' hc ht.id_ne he)
      rw [hother u hut] at hu
      exact (h.thread u c hu hc).congr (ht.node _ hne) (ht.predecessor _ hne) (ht.phase _ hne)
  · by_cases hut : u = t
    · subst hut
      obtain rfl := Option.some.inj (hself'.symm.trans hu)
      exact absurd hc ht.id_ne
    · exact h.fresh u c (hother u hut ▸ hu) hc
  · by_cases hjt : j = b'.id % MaxThreads
    · have hidle := hj t b' hself' ht.id_ne hjt.symm
      rw [hidle] at hself
      rw [hjt]
      exact hself
    · refine (h.slot j fun u c hu hc hcj => ?_).congr (ht.node j hjt) (ht.phase j hjt)
      by_cases hut : u = t
      · subst hut
        obtain rfl := Option.some.inj (ht.before.symm.trans hu)
        rcases ht.same_id with h0 | hsame
        · exact absurd h0 hc
        · exact absurd (hcj.symm.trans (by rw [hsame])) hjt
      · exact hj u c ((hother u hut).trans hu) hc hcj

/-- The queue can follow to `s'`. -/
def Follows (MaxThreads : ℕ) (a : ClhQueue.State ℕ QNode) (s' : State τ) : Prop :=
  ∃ es b, (ClhQueue.system ℕ (0 : QNode)).Path a es b ∧ Related MaxThreads s' b

/-- The queue can follow to `s'`, showing `es`. -/
def Shows (MaxThreads : ℕ) (a : ClhQueue.State ℕ QNode) (es : List (LockEvent ℕ)) (s' : State τ) : Prop :=
  ∃ b, (ClhQueue.system ℕ (0 : QNode)).Path a es b ∧ Related MaxThreads s' b

/-- A turn that is no step of the queue. -/
theorem Related.stay (h : Related MaxThreads s a) {pc : Pc} (hb : s.thread t = some ⟨id, pc⟩)
    (hid : id ≠ 0) (pc' : Pc) (l₁ l₂ : ThreadLocal ℕ (Option QNode))
    (hslots : SlotsDistinct MaxThreads ({s with myNode := l₁, myPredecessor := l₂}.goto t id pc'))
    (h₁ : ∀ j, j ≠ id % MaxThreads → s.myNode.Agrees l₁ j)
    (h₂ : ∀ j, j ≠ id % MaxThreads → s.myPredecessor.Agrees l₂ j)
    (hself : At {s with myNode := l₁, myPredecessor := l₂} a (id % MaxThreads) pc') :
    Shows MaxThreads a [] ({s with myNode := l₁, myPredecessor := l₂}.goto t id pc') :=
  ⟨a, .refl, h.of_turned (t := t) ⟨id, pc⟩ ⟨id, pc'⟩
    ⟨hb, rfl, hid, .inr rfl, h₁, h₂, fun _ _ => rfl⟩ hslots h.tail h.locked h.unused
    (hself.congr .rfl .rfl rfl)⟩

/-- A turn that leaves both thread-locals as they are, too. -/
theorem Related.goOn (h : Related MaxThreads s a) {pc : Pc} (hb : s.thread t = some ⟨id, pc⟩)
    (hid : id ≠ 0) (pc' : Pc) (hslots : SlotsDistinct MaxThreads (s.goto t id pc'))
    (hself : At s a (id % MaxThreads) pc') : Shows MaxThreads a [] (s.goto t id pc') :=
  h.stay hb hid pc' s.myNode s.myPredecessor hslots (fun _ _ => .rfl) (fun _ _ => .rfl) hself

/-- A turn that is a step of the queue by a slot with a node. -/
theorem Related.move (h : Related MaxThreads s a) {pc : Pc} (hb : s.thread t = some ⟨id, pc⟩)
    (hid : id ≠ 0) {l : Option (LockEvent ℕ)} {x : ClhQueue.Phase QNode}
    (hstep : ClhQueue.Step a l a') (pc' : Pc) (hslots : SlotsDistinct MaxThreads (s'.goto t id pc'))
    (hphase : a'.phase = Function.update a.phase (id % MaxThreads) x)
    (hold : a.phase (id % MaxThreads) ≠ .fresh) (hsize : s'.size = s.size) (htail : a'.tail = s'.tail)
    (hlocked : a'.locked = s'.locked) (hthread : s'.thread = s.thread)
    (h₁ : ∀ j, j ≠ id % MaxThreads → s.myNode.Agrees s'.myNode j)
    (h₂ : ∀ j, j ≠ id % MaxThreads → s.myPredecessor.Agrees s'.myPredecessor j)
    (hself : At s' a' (id % MaxThreads) pc') : Shows MaxThreads a l.toList (s'.goto t id pc') := by
  have hother : ∀ j, j ≠ id % MaxThreads → a'.phase j = a.phase j := fun j hj => by
    rw [hphase, Function.update_of_ne hj]
  refine ⟨a', System.Path.single hstep, h.of_turned (t := t) ⟨id, pc⟩ ⟨id, pc'⟩
    ⟨hb, ?_, hid, .inr rfl, h₁, h₂, hother⟩ hslots htail hlocked (fun n hn => ?_)
    (hself.congr .rfl .rfl rfl)⟩
  · simp [State.goto, hthread]
  · have hn : s.size ≤ n := hsize ▸ hn
    refine (h.unused n hn).step hstep fun j hj => ?_
    have hji : j ≠ id % MaxThreads := fun he => hold (he ▸ hj)
    rw [hother j hji, hj]
    nofun

/-- The turn that makes a slot's first node. -/
theorem Related.create (h : Related MaxThreads s a) {pc : Pc} (hb : s.thread t = some ⟨id, pc⟩)
    (hid : id ≠ 0) (hx : a.phase (id % MaxThreads) = .fresh)
    (hslots : SlotsDistinct MaxThreads
      ({s.setLocked s.size false with size := s.size + 1}.goto t id (.setNode s.size .mark))) :
    Shows MaxThreads a []
      ({s.setLocked s.size false with size := s.size + 1}.goto t id (.setNode s.size .mark)) := by
  have hcreate := ClhQueue.Step.create hx (h.unused s.size (Nat.le_refl _))
  refine ⟨_, System.Path.single (l := none) hcreate,
    h.of_turned (t := t) ⟨id, pc⟩ ⟨id, .setNode s.size .mark⟩
      ⟨hb, rfl, hid, .inr rfl, fun _ _ => .rfl, fun _ _ => .rfl, fun j hj => Function.update_of_ne hj _ _⟩
      hslots h.tail ?_ (fun n hn => ?_) ⟨Function.update_self .., nofun⟩⟩
  · rw [h.locked]
    rfl
  · have hn : s.size + 1 ≤ n := hn
    refine (h.unused n (by omega)).step hcreate fun j hj => ?_
    by_cases hji : j = id % MaxThreads
    · subst hji
      simp only [Function.update_self]
      exact fun he => Nat.ne_of_lt hn (ClhQueue.Phase.rest.inj he)
    · simp [hji, hj]

/-- A thread's first id: its slot is not in use, or the two would share it. -/
theorem Related.first_id (h : Related MaxThreads s a) (hb : s.thread t = some ⟨0, .idle⟩) (hid : id ≠ 0)
    (c : ℕ) (hslots : SlotsDistinct MaxThreads ({s with idCounter := c}.goto t id .isSet)) :
    Shows MaxThreads a [] ({s with idCounter := c}.goto t id .isSet) := by
  refine ⟨a, .refl, h.of_turned (t := t) ⟨0, .idle⟩ ⟨id, .isSet⟩
    ⟨hb, rfl, hid, .inl rfl, fun _ _ => .rfl, fun _ _ => .rfl, fun _ _ => rfl⟩ hslots h.tail h.locked
    h.unused ?_⟩
  refine Rest.congr (h.slot (id % MaxThreads) fun u c hu hc hcu => ?_) .rfl rfl
  have hut : u ≠ t := by
    rintro rfl
    obtain rfl := Option.some.inj (hb.symm.trans hu)
    exact hc rfl
  refine absurd (hslots.eq (b := c) (c := ⟨id, .isSet⟩) ?_ ?_ hc hid hcu) hut
  · simpa [State.goto, hut] using hu
  · simp [State.goto]

/-- A thread that comes, goes or fails without an id, or goes from outside. -/
theorem Related.of_slotless (h : Related MaxThreads s a) {b' : Option Thread}
    (hthread : s'.thread = Function.update s.thread t b') (htail : s'.tail = s.tail)
    (hlocked : s'.locked = s.locked) (hsize : s'.size = s.size) (hnode : s'.myNode = s.myNode)
    (hpred : s'.myPredecessor = s.myPredecessor)
    (hold : ∀ b, s.thread t = some b → b.id ≠ 0 → b.pc = .idle)
    (hnew : ∀ b, b' = some b → b.id = 0 ∧ (b.pc = .idle ∨ b.pc = .fault)) : Related MaxThreads s' a := by
  have hnode' : ∀ j, s.myNode.Agrees s'.myNode j := fun j => hnode ▸ .rfl
  have hpred' : ∀ j, s.myPredecessor.Agrees s'.myPredecessor j := fun j => hpred ▸ .rfl
  have hself : s'.thread t = b' := by rw [hthread, Function.update_self]
  have hother : ∀ u, u ≠ t → s'.thread u = s.thread u := fun u hu => by
    rw [hthread, Function.update_of_ne hu]
  refine ⟨h.tail.trans htail.symm, h.locked.trans hlocked.symm, hsize ▸ h.unused, fun u c hu hc => ?_,
    fun u c hu hc => ?_, fun j hj => ?_⟩
  · by_cases hut : u = t
    · subst hut
      exact absurd (hnew c (hself.symm.trans hu)).1 hc
    · exact (h.thread u c (hother u hut ▸ hu) hc).congr (hnode' _) (hpred' _) rfl
  · by_cases hut : u = t
    · subst hut
      exact (hnew c (hself.symm.trans hu)).2
    · exact h.fresh u c (hother u hut ▸ hu) hc
  · refine (h.slot j fun u c hu hc hcj => ?_).congr (hnode' j) rfl
    by_cases hut : u = t
    · subst hut
      exact hold c hu hc
    · exact hj u c ((hother u hut).trans hu) hc hcj

/-- The queue follows a thread that has no id yet: it gets one, or is refused. -/
theorem Related.turn_first (h : Related MaxThreads s a) {pc : Pc} {l : Option (LockEvent τ)}
    (hb : s.thread t = some ⟨0, pc⟩) (hstep : CLHLock.turn MaxThreads s t 0 pc = some (l, s'))
    (hslots : SlotsDistinct MaxThreads s') : Shows MaxThreads a (l.toList.map (.map fun _ => i)) s' := by
  rcases h.fresh t _ hb rfl with rfl | rfl
  · simp only [CLHLock.turn, if_true, Option.some.injEq, Prod.mk.injEq] at hstep
    obtain ⟨rfl, rfl⟩ := hstep
    by_cases hc : s.idCounter = 0
    · simp only [hc] at hslots ⊢
      refine ⟨a, .refl, h.of_slotless (t := t) rfl rfl rfl rfl rfl rfl (fun b hb' hne => ?_) ?_⟩
      · obtain rfl := Option.some.inj (hb.symm.trans hb')
        exact absurd rfl hne
      · rintro b ⟨⟩
        exact ⟨rfl, .inr rfl⟩
    · simp only [if_neg hc] at hslots ⊢
      exact h.first_id hb hc _ hslots
  · simp [CLHLock.turn] at hstep

/-- **The queue follows every turn** that leaves no two live threads with one slot, and what the
turn shows of the thread it shows of the slot. -/
theorem Related.turn (h : Related MaxThreads s a) {pc : Pc} {l : Option (LockEvent τ)}
    (hb : s.thread t = some ⟨id, pc⟩) (hstep : turn MaxThreads s t id pc = some (l, s'))
    (hslots : SlotsDistinct MaxThreads s') :
    Shows MaxThreads a (l.toList.map (.map fun _ => id % MaxThreads)) s' := by
  by_cases hid : id = 0
  · subst hid
    exact h.turn_first hb hstep hslots
  have hat : At s a (id % MaxThreads) pc := h.thread t _ hb hid
  cases pc with
  | idle =>
    simp only [CLHLock.turn, if_neg hid, Option.some.injEq, Prod.mk.injEq] at hstep
    obtain ⟨rfl, rfl⟩ := hstep
    exact h.goOn hb hid .isSet hslots hat
  | isSet =>
    simp only [CLHLock.turn, Option.some.injEq, Prod.mk.injEq] at hstep
    obtain ⟨rfl, rfl⟩ := hstep
    rcases hat with ⟨hset, hx⟩ | ⟨q, hq, hx⟩
    · simp only [hset, Bool.false_eq_true, if_false] at hslots ⊢
      exact h.goOn hb hid .allocate hslots ⟨hset, hx⟩
    · simp only [hq.1, if_true] at hslots ⊢
      exact h.goOn hb hid (.getNode .test) hslots ⟨.inl rfl, q, hq, hx⟩
  | allocate =>
    simp only [CLHLock.turn, Option.some.injEq, Prod.mk.injEq] at hstep
    obtain ⟨rfl, rfl⟩ := hstep
    exact h.create hb hid hat.2 hslots
  | setNode q p =>
    obtain ⟨hx, hset⟩ := hat
    cases p with
    | mark =>
      simp only [CLHLock.turn, ThreadLocal.Put.step, Option.some.injEq, Prod.mk.injEq] at hstep
      obtain ⟨rfl, rfl⟩ := hstep
      exact h.stay hb hid (.setNode q .store) _ s.myPredecessor hslots
        (fun _ hj => ThreadLocal.agrees_mark hj) (fun _ _ => .rfl) ⟨hx, fun _ => Function.update_self ..⟩
    | store =>
      simp only [CLHLock.turn, ThreadLocal.Put.step, Option.some.injEq, Prod.mk.injEq] at hstep
      obtain ⟨rfl, rfl⟩ := hstep
      exact h.stay hb hid (.getNode .test) _ s.myPredecessor hslots
        (fun _ hj => ThreadLocal.agrees_store hj) (fun _ _ => .rfl)
        ⟨.inl rfl, q, ⟨hset rfl, Function.update_self ..⟩, hx⟩
  | getNode g =>
    obtain ⟨hg, q, hq, hx⟩ := hat
    rcases hg with rfl | rfl
    · simp only [CLHLock.turn, ThreadLocal.Get.step, hq.1, if_true, Option.some.injEq,
        Prod.mk.injEq] at hstep
      obtain ⟨rfl, rfl⟩ := hstep
      exact h.goOn hb hid (.getNode .read) hslots ⟨.inr rfl, q, hq, hx⟩
    · simp only [CLHLock.turn, ThreadLocal.Get.step, hq.2, Option.some.injEq, Prod.mk.injEq] at hstep
      obtain ⟨rfl, rfl⟩ := hstep
      exact h.goOn hb hid (.raise q) hslots ⟨hq, hx⟩
  | raise q =>
    obtain ⟨hq, hx⟩ := hat
    simp only [CLHLock.turn, Option.some.injEq, Prod.mk.injEq] at hstep
    obtain ⟨rfl, rfl⟩ := hstep
    exact h.move hb hid (.arm hx) (.swap q) hslots rfl (by rw [hx]; nofun) rfl h.tail
      (by rw [h.locked]; rfl) rfl (fun _ _ => .rfl) (fun _ _ => .rfl) ⟨hq, Function.update_self ..⟩
  | swap q =>
    obtain ⟨hq, hx⟩ := hat
    simp only [CLHLock.turn, Option.some.injEq, Prod.mk.injEq] at hstep
    obtain ⟨rfl, rfl⟩ := hstep
    exact h.move hb hid (.swap hx) (.setPredecessor s.tail .mark) hslots rfl (by rw [hx]; nofun) rfl
      rfl h.locked rfl (fun _ _ => .rfl) (fun _ _ => .rfl)
      ⟨nofun, q, hq, by rw [h.tail]; exact Function.update_self ..⟩
  | setPredecessor n p =>
    obtain ⟨hset, q, hq, hx⟩ := hat
    cases p with
    | mark =>
      simp only [CLHLock.turn, ThreadLocal.Put.step, Option.some.injEq, Prod.mk.injEq] at hstep
      obtain ⟨rfl, rfl⟩ := hstep
      exact h.stay hb hid (.setPredecessor n .store) s.myNode _ hslots (fun _ _ => .rfl)
        (fun _ hj => ThreadLocal.agrees_mark hj) ⟨fun _ => Function.update_self .., q, hq, hx⟩
    | store =>
      simp only [CLHLock.turn, ThreadLocal.Put.step, Option.some.injEq, Prod.mk.injEq] at hstep
      obtain ⟨rfl, rfl⟩ := hstep
      exact h.stay hb hid (.spin n) s.myNode _ hslots (fun _ _ => .rfl)
        (fun _ hj => ThreadLocal.agrees_store hj) ⟨⟨hset rfl, Function.update_self ..⟩, q, hq, hx⟩
  | spin n =>
    obtain ⟨hn, q, hq, hx⟩ := hat
    by_cases hl : s.locked n = true
    · simp only [CLHLock.turn, if_pos hl, Option.some.injEq, Prod.mk.injEq] at hstep
      obtain ⟨rfl, rfl⟩ := hstep
      exact ⟨a, .refl, h⟩
    · simp only [CLHLock.turn, if_neg hl, Option.some.injEq, Prod.mk.injEq] at hstep
      obtain ⟨rfl, rfl⟩ := hstep
      exact h.move hb hid (.enter hx (by rw [h.locked]; exact Bool.of_not_eq_true hl)) .critical hslots
        rfl (by rw [hx]; nofun) rfl h.tail h.locked rfl (fun _ _ => .rfl) (fun _ _ => .rfl)
        ⟨q, n, hq, hn, Function.update_self ..⟩
  | critical =>
    obtain ⟨q, n, hq, hn, hx⟩ := hat
    simp only [CLHLock.turn, Option.some.injEq, Prod.mk.injEq] at hstep
    obtain ⟨rfl, rfl⟩ := hstep
    exact h.goOn hb hid (.getOwn .test) hslots ⟨.inl rfl, q, n, hq, hn, hx⟩
  | getOwn g =>
    obtain ⟨hg, q, n, hq, hn, hx⟩ := hat
    rcases hg with rfl | rfl
    · simp only [CLHLock.turn, ThreadLocal.Get.step, hq.1, if_true, Option.some.injEq,
        Prod.mk.injEq] at hstep
      obtain ⟨rfl, rfl⟩ := hstep
      exact h.goOn hb hid (.getOwn .read) hslots ⟨.inr rfl, q, n, hq, hn, hx⟩
    · simp only [CLHLock.turn, ThreadLocal.Get.step, hq.2, Option.some.injEq, Prod.mk.injEq] at hstep
      obtain ⟨rfl, rfl⟩ := hstep
      exact h.goOn hb hid (.lower q) hslots ⟨n, hn, hx⟩
  | lower q =>
    obtain ⟨n, hn, hx⟩ := hat
    simp only [CLHLock.turn, Option.some.injEq, Prod.mk.injEq] at hstep
    obtain ⟨rfl, rfl⟩ := hstep
    exact h.move hb hid (.release hx) (.getPredecessor .test) hslots rfl (by rw [hx]; nofun) rfl h.tail
      (by rw [h.locked]; rfl) rfl (fun _ _ => .rfl) (fun _ _ => .rfl)
      ⟨.inl rfl, q, n, hn, Function.update_self ..⟩
  | getPredecessor g =>
    obtain ⟨hg, q, n, hn, hx⟩ := hat
    rcases hg with rfl | rfl
    · simp only [CLHLock.turn, ThreadLocal.Get.step, hn.1, if_true, Option.some.injEq,
        Prod.mk.injEq] at hstep
      obtain ⟨rfl, rfl⟩ := hstep
      exact h.goOn hb hid (.getPredecessor .read) hslots ⟨.inr rfl, q, n, hn, hx⟩
    · simp only [CLHLock.turn, ThreadLocal.Get.step, Option.some.injEq, Prod.mk.injEq] at hstep
      obtain ⟨rfl, rfl⟩ := hstep
      exact h.goOn hb hid (.adopt _ .mark) hslots ⟨nofun, q, n, hn.2, hx⟩
  | adopt n p =>
    obtain ⟨hset, q, n, rfl, hx⟩ := hat
    cases p with
    | mark =>
      simp only [CLHLock.turn, ThreadLocal.Put.step, Option.some.injEq, Prod.mk.injEq] at hstep
      obtain ⟨rfl, rfl⟩ := hstep
      exact h.stay hb hid (.adopt (some n) .store) _ s.myPredecessor hslots
        (fun _ hj => ThreadLocal.agrees_mark hj) (fun _ _ => .rfl)
        ⟨fun _ => Function.update_self .., q, n, rfl, hx⟩
    | store =>
      simp only [CLHLock.turn, ThreadLocal.Put.step, Option.some.injEq, Prod.mk.injEq] at hstep
      obtain ⟨rfl, rfl⟩ := hstep
      exact h.move hb hid (.adopt hx) (.forget .mark) hslots rfl (by rw [hx]; nofun) rfl h.tail h.locked
        rfl (fun _ hj => ThreadLocal.agrees_store hj) (fun _ _ => .rfl)
        ⟨n, ⟨hset rfl, Function.update_self ..⟩, Function.update_self ..⟩
  | forget p =>
    obtain ⟨q, hq, hx⟩ := hat
    cases p with
    | mark =>
      simp only [CLHLock.turn, ThreadLocal.Put.step, Option.some.injEq, Prod.mk.injEq] at hstep
      obtain ⟨rfl, rfl⟩ := hstep
      exact h.stay hb hid (.forget .store) s.myNode _ hslots (fun _ _ => .rfl)
        (fun _ hj => ThreadLocal.agrees_mark hj) ⟨q, hq, hx⟩
    | store =>
      simp only [CLHLock.turn, ThreadLocal.Put.step, Option.some.injEq, Prod.mk.injEq] at hstep
      obtain ⟨rfl, rfl⟩ := hstep
      exact h.stay hb hid .idle s.myNode _ hslots (fun _ _ => .rfl)
        (fun _ hj => ThreadLocal.agrees_store hj) (.inr ⟨q, hq, hx⟩)
  | fault => exact hat.elim

/-- A new thread. -/
theorem Related.start (h : Related MaxThreads s a) (hb : s.thread t = none) :
    Related MaxThreads {s.goto t 0 .idle with live := s.live + 1} a := by
  refine h.of_slotless (t := t) rfl rfl rfl rfl rfl rfl (fun b hb' => ?_) ?_
  · rw [hb] at hb'
    cases hb'
  · rintro b ⟨⟩
    exact ⟨rfl, .inl rfl⟩

/-- **The queue follows every step** of the lock and its threads. -/
theorem Related.step (h : Related MaxThreads s a) {l : Option (LockEvent τ)}
    (hstep : (machine τ MaxThreads).system.step s l s') (hslots : SlotsDistinct MaxThreads s') :
    Follows MaxThreads a s' := by
  obtain ⟨act, hstep⟩ := hstep
  cases act with
  | start t =>
    simp only [machine, next] at hstep
    cases hb : s.thread t with
    | none =>
      simp only [hb] at hstep
      by_cases hlive : s.live < MaxThreads
      · simp only [if_pos hlive, Option.some.injEq, Prod.mk.injEq] at hstep
        obtain ⟨rfl, rfl⟩ := hstep
        exact ⟨[], a, .refl, h.start hb⟩
      · simp [hlive] at hstep
    | some b => simp [hb] at hstep
  | exit t =>
    simp only [machine, next] at hstep
    cases hb : s.thread t with
    | none => simp [hb] at hstep
    | some b =>
      obtain ⟨id, pc⟩ := b
      cases pc with
      | idle =>
        simp only [hb, Option.some.injEq, Prod.mk.injEq] at hstep
        obtain ⟨rfl, rfl⟩ := hstep
        refine ⟨[], a, .refl, h.of_slotless (t := t) rfl rfl rfl rfl rfl rfl (fun b hb' _ => ?_) nofun⟩
        obtain rfl := Option.some.inj (hb.symm.trans hb')
        rfl
      | _ => simp [hb] at hstep
  | turn t =>
    simp only [machine, next] at hstep
    cases hb : s.thread t with
    | none => simp [hb] at hstep
    | some b =>
      simp only [hb] at hstep
      exact ⟨_, h.turn hb hstep hslots⟩

theorem initial_related :
    Related MaxThreads (machine τ MaxThreads).initial (ClhQueue.system ℕ (0 : QNode)).initial where
  tail := rfl
  locked := rfl
  unused := fun _ hn => ⟨Nat.pos_iff_ne_zero.mp hn, fun _ => ⟨nofun, nofun⟩⟩
  thread := fun _ _ => nofun
  fresh := fun _ _ => nofun
  slot := fun _ _ => .inl ⟨rfl, rfl⟩

/-- While no two live threads share a slot, the lock is the CLH queue of the slots. -/
theorem reachable_related (h : ((machine τ MaxThreads).system.within (SlotsDistinct MaxThreads)).Reachable s) :
    SlotsDistinct MaxThreads s ∧ ∃ a, (ClhQueue.system ℕ (0 : QNode)).Reachable a ∧ Related MaxThreads s a := by
  refine h.invariant (I := fun s => SlotsDistinct MaxThreads s ∧
    ∃ a, (ClhQueue.system ℕ (0 : QNode)).Reachable a ∧ Related MaxThreads s a) ⟨fun _ _ h => absurd rfl h, _,
    ⟨[], .refl⟩, initial_related⟩ ?_
  rintro s l s' ⟨_, a, hreach, hrel⟩ ⟨hstep, hslots⟩
  obtain ⟨es, b, hpath, hrel'⟩ := hrel.step hstep hslots
  exact ⟨hslots, b, hreach.path hpath, hrel'⟩

/-- **Mutual exclusion**: in a run that never has two live threads with one slot, at most
one thread at a time is between the return of `lock()` and the call of `unlock()`. -/
theorem clh_exclusion (h : ((machine τ MaxThreads).system.within (SlotsDistinct MaxThreads)).Reachable s) :
    {t | Inside s t}.Subsingleton := by
  obtain ⟨hslots, a, hreach, hrel⟩ := reachable_related h
  -- A thread inside has an id, and its slot is inside in the queue.
  have hslot : ∀ t, Inside s t → ∃ b q n, s.thread t = some b ∧ b.id ≠ 0 ∧
      a.phase (b.id % MaxThreads) = .inside q n := by
    intro t ht
    obtain ⟨b, hb, hpc⟩ := Option.map_eq_some_iff.mp ht
    have hid : b.id ≠ 0 := fun hid => by
      rcases hrel.fresh t b hb hid with h' | h' <;> rw [hpc] at h' <;> cases h'
    have hat := hrel.thread t b hb hid
    rw [hpc] at hat
    obtain ⟨q, n, _, _, hx⟩ := hat
    exact ⟨b, q, n, hb, hid, hx⟩
  intro t ht u hu
  obtain ⟨b, q, n, hb, hid, hx⟩ := hslot t ht
  obtain ⟨c, k, m, hc, hid', hy⟩ := hslot u hu
  exact hslots.eq hb hc hid hid' (ClhQueue.inside_unique hreach hx hy)

/-- `n` turns of one thread. -/
def turns (t : τ) (n : ℕ) : List (Action τ) := List.replicate n (.turn t)

/-- Two slots; thread 0 goes through the lock and exits, and thread 2, started after it,
gets its slot and enters. -/
theorem clh_exclusion_reuse : ∃ s : State (Fin 3),
    ((machine (Fin 3) 2).system.within (SlotsDistinct 2)).Reachable s ∧ Inside s 2 ∧
      {t | Inside s t}.Subsingleton := by
  obtain ⟨s, hs, hin⟩ := ((machine (Fin 3) 2).within (SlotsDistinct 2)).exec_reachable
    (P := fun s => Inside s 2) ([.start 0, .start 1] ++ turns 0 22 ++ turns 1 12 ++ [.exit 0, .start 2] ++
      turns 2 8 ++ turns 1 10 ++ turns 2 1) (by decide +kernel)
  rw [Machine.system_within] at hs
  exact ⟨s, hs, hin, clh_exclusion hs⟩

/-- Two slots, and never more than two live threads. Thread 0 has id 1 and pauses; thread 1
has id 2, goes through the lock and exits; thread 2 has id 3 and with it thread 0's slot.
While thread 0 is inside, thread 2 raises the flag of thread 0's node. Thread 0 lowers it
and leaves the slot to its predecessor's node; thread 2 enters behind the lowered flag, and
thread 0, with its new node, enters too. -/
theorem clh_two_inside : ∃ s, (machine ℕ 2).system.Reachable s ∧ Inside s 0 ∧ Inside s 2 :=
  (machine ℕ 2).exec_reachable ([.start 0, .turn 0, .start 1] ++ turns 1 22 ++ [.exit 1, .start 2] ++
    turns 0 11 ++ turns 2 5 ++ turns 0 10 ++ turns 2 4 ++ turns 0 9) (by decide +kernel)

end ParSweet.Locks.CLHLock
