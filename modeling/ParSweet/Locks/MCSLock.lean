import ParSweet.Concurrent.McsQueue
import ParSweet.Hash
import ParSweet.Locks.ThreadLocal

/-! `MCSLock`, of both suites.

Every thread calls `lock()` and `unlock()` in turn, any number of times. Nodes are
numbered in the order in which they are created. In C++ a thread keeps its node in
the slot of `myNode` that belongs to its id, and reaches it by single reads and writes
of the slot; in Java `myNode` belongs to the thread, and `get()` is one step. As long
as no two threads share a slot, the lock is the MCS queue of its threads
(`simulation`). -/
namespace ParSweet.Locks.MCSLock
open Concurrent

abbrev QNode := ℕ

/-- Where a thread stands. -/
inductive Pc where
  /-- Outside. Next it calls `lock()`, which begins with `myNode.isSet()` in C++ and
  with `myNode.get()` in Java. -/
  | idle
  /-- `new QNode()` -/
  | allocate
  /-- `myNode.set(qNode)` -/
  | setNode (qNode : QNode) (p : ThreadLocal.Put)
  /-- `myNode.get()`, in `lock()`. -/
  | getNode (g : ThreadLocal.Get)
  /-- `tail.exchange(qNode)` -/
  | swap (qNode : QNode)
  /-- `if (predecessor)` -/
  | branch (qNode : QNode) (predecessor : Option QNode)
  /-- `qNode->locked = true` -/
  | raise (qNode predecessor : QNode)
  /-- `predecessor->next = qNode` -/
  | link (qNode predecessor : QNode)
  /-- `qNode->locked` -/
  | spin (qNode : QNode)
  /-- `lock()` has returned. Next it calls `unlock()`, which begins with
  `myNode.get()`. -/
  | critical
  /-- `myNode.get()`, in `unlock()`. -/
  | getOwn (g : ThreadLocal.Get)
  /-- `if (!qNode->next)` -/
  | checkNext (qNode : QNode)
  /-- `tail.compare_exchange_strong(qNode, nullptr)` -/
  | compareExchange (qNode : QNode)
  /-- `while (!qNode->next)` -/
  | awaitNext (qNode : QNode)
  /-- The load of `qNode->next` in `qNode->next->locked = false`. -/
  | loadNext (qNode : QNode)
  /-- The store to `locked` in it. -/
  | lower (qNode next : QNode)
  /-- `qNode->next = nullptr` -/
  | clearNext (qNode : QNode)
  /-- A null pointer where a node is needed. -/
  | fault
  deriving DecidableEq

/-- `size` is the number of nodes created. -/
structure State (τ κ : Type*) where
  size : ℕ
  tail : Option QNode
  locked : QNode → Bool
  next : QNode → Option QNode
  myNode : ThreadLocal κ (Option QNode)
  pc : τ → Pc

variable {τ κ : Type*} [DecidableEq τ] [DecidableEq κ]

namespace State

def goto (s : State τ κ) (t : τ) (pc : Pc) : State τ κ := {s with pc := Function.update s.pc t pc}

/-- `qNode->locked = b`. -/
def setLocked (s : State τ κ) (qNode : QNode) (b : Bool) : State τ κ :=
  {s with locked := Function.update s.locked qNode b}

/-- `qNode->next = n`. -/
def setNext (s : State τ κ) (qNode : QNode) (n : Option QNode) : State τ κ :=
  {s with next := Function.update s.next qNode n}

/-- `new QNode()`; the new node is number `size`. -/
def create (s : State τ κ) : State τ κ :=
  {(s.setLocked s.size false).setNext s.size none with size := s.size + 1}

/-- `myNode.get()` in Java, which makes the thread's node if it has none. -/
def initialGet (s : State τ κ) (idx : κ) : State τ κ × Option QNode :=
  if s.myNode.setArr idx then (s, s.myNode.dataArr idx)
  else ({s.create with myNode := (s.myNode.mark idx).store idx (some s.size)}, some s.size)

end State

/-- The next atomic step of a thread. -/
def step (L : Lang) (slot : τ → κ) (s : State τ κ) (t : τ) :
    Option (Option (LockEvent τ) × State τ κ) :=
  match s.pc t with
  | .idle =>
    match L with
    | .cpp =>
      if s.myNode.setArr (slot t) then some (none, s.goto t (.getNode .test))
      else some (none, s.goto t .allocate)
    | .java =>
      match s.initialGet (slot t) with
      | (s', some qNode) => some (none, s'.goto t (.swap qNode))
      | (s', none) => some (none, s'.goto t .fault)
  | .allocate => some (none, s.create.goto t (.setNode s.size .mark))
  | .setNode qNode p =>
    match p.step s.myNode (slot t) (some qNode) with
    | (l, some p') => some (none, {s with myNode := l}.goto t (.setNode qNode p'))
    | (l, none) => some (none, {s with myNode := l}.goto t (.getNode .test))
  | .getNode g =>
    match g.step s.myNode (slot t) with
    | (l, .inl g') => some (none, {s with myNode := l}.goto t (.getNode g'))
    | (l, .inr (some qNode)) => some (none, {s with myNode := l}.goto t (.swap qNode))
    | (l, .inr none) => some (none, {s with myNode := l}.goto t .fault)
  | .swap qNode =>
    some (some (.enqueue t), {s with tail := some qNode}.goto t (.branch qNode s.tail))
  | .branch qNode predecessor =>
    match predecessor with
    | some predecessor => some (none, s.goto t (.raise qNode predecessor))
    | none => some (some (.enter t), s.goto t .critical)
  | .raise qNode predecessor =>
    some (none, (s.setLocked qNode true).goto t (.link qNode predecessor))
  | .link qNode predecessor => some (none, (s.setNext predecessor (some qNode)).goto t (.spin qNode))
  | .spin qNode =>
    if s.locked qNode then some (none, s) else some (some (.enter t), s.goto t .critical)
  | .critical =>
    match L with
    | .cpp => some (none, s.goto t (.getOwn .test))
    | .java =>
      match s.initialGet (slot t) with
      | (s', some qNode) => some (none, s'.goto t (.checkNext qNode))
      | (s', none) => some (none, s'.goto t .fault)
  | .getOwn g =>
    match g.step s.myNode (slot t) with
    | (l, .inl g') => some (none, {s with myNode := l}.goto t (.getOwn g'))
    | (l, .inr (some qNode)) => some (none, {s with myNode := l}.goto t (.checkNext qNode))
    | (l, .inr none) => some (none, {s with myNode := l}.goto t .fault)
  | .checkNext qNode =>
    match s.next qNode with
    | none => some (none, s.goto t (.compareExchange qNode))
    | some _ => some (none, s.goto t (.loadNext qNode))
  | .compareExchange qNode =>
    if s.tail = some qNode then some (some (.leave t), {s with tail := none}.goto t .idle)
    else some (none, s.goto t (.awaitNext qNode))
  | .awaitNext qNode =>
    match s.next qNode with
    | none => some (none, s)
    | some _ => some (none, s.goto t (.loadNext qNode))
  | .loadNext qNode =>
    match s.next qNode with
    | some next => some (none, s.goto t (.lower qNode next))
    | none => some (none, s.goto t .fault)
  | .lower qNode next => some (some (.leave t), (s.setLocked next false).goto t (.clearNext qNode))
  | .clearNext qNode => some (none, (s.setNext qNode none).goto t .idle)
  | .fault => none

/-- The lock and its threads; the actions are the threads' turns. -/
def machine (L : Lang) (slot : τ → κ) : Machine (State τ κ) τ (LockEvent τ) where
  initial := ⟨0, none, fun _ => false, fun _ => none, .empty, fun _ => .idle⟩
  next := step L slot

/-! ### The threads as participants of the queue -/

variable {L : Lang} {slot : τ → κ} {s s' : State τ κ} {a a' : McsQueue.State τ QNode} {t u : τ}
  {q : QNode}

/-- The thread's node, found in its slot. -/
def Keeps (slot : τ → κ) (s : State τ κ) (a : McsQueue.State τ QNode) (t : τ) (q : QNode) : Prop :=
  s.myNode.Holds (slot t) (some q) ∧ a.node t = some q

/-- Where a thread stands in the code against where it stands in the queue. -/
def At (slot : τ → κ) (s : State τ κ) (a : McsQueue.State τ QNode) (t : τ) : Pc → Prop
  | .idle => a.phase t = .rest ∧
      ((s.myNode.setArr (slot t) = false ∧ a.node t = none) ∨ ∃ q, Keeps slot s a t q)
  | .allocate => a.phase t = .rest ∧ s.myNode.setArr (slot t) = false ∧ a.node t = none
  | .setNode q p => a.phase t = .rest ∧ a.node t = some q ∧ (p = .store → s.myNode.setArr (slot t) = true)
  | .getNode g => a.phase t = .rest ∧ (g = .test ∨ g = .read) ∧ ∃ q, Keeps slot s a t q
  | .swap q => a.phase t = .rest ∧ Keeps slot s a t q
  | .branch q p => a.phase t = .swapped p ∧ Keeps slot s a t q
  | .raise q p => a.phase t = .raising p ∧ Keeps slot s a t q
  | .link q p => a.phase t = .linking p ∧ Keeps slot s a t q
  | .spin q => a.phase t = .spinning ∧ Keeps slot s a t q
  | .critical => a.phase t = .inside ∧ ∃ q, Keeps slot s a t q
  | .getOwn g => a.phase t = .inside ∧ (g = .test ∨ g = .read) ∧ ∃ q, Keeps slot s a t q
  | .checkNext q => a.phase t = .inside ∧ Keeps slot s a t q
  | .compareExchange q => a.phase t = .inside ∧ Keeps slot s a t q
  | .awaitNext q => a.phase t = .inside ∧ Keeps slot s a t q
  | .loadNext q => a.phase t = .inside ∧ Keeps slot s a t q ∧ s.next q ≠ none
  | .lower q n => a.phase t = .handing n ∧ Keeps slot s a t q
  | .clearNext q => a.phase t = .unlinking ∧ Keeps slot s a t q
  | .fault => False

omit [DecidableEq τ] [DecidableEq κ] in
theorem At.congr {pc : Pc} (h : At slot s a u pc) (hslot : s.myNode.Agrees s'.myNode (slot u))
    (hnode : a'.node u = a.node u) (hphase : a'.phase u = a.phase u)
    (hnext : ∀ q, a.node u = some q → s.next q ≠ none → s'.next q ≠ none) : At slot s' a' u pc := by
  have hkeeps : ∀ {q}, Keeps slot s a u q → Keeps slot s' a' u q := fun h =>
    ⟨⟨hslot.1.trans h.1.1, hslot.2.trans h.1.2⟩, hnode.trans h.2⟩
  cases pc <;> simp only [At, hphase, hslot.1, hnode] at h ⊢
  case idle => exact ⟨h.1, h.2.imp id fun ⟨q, hq⟩ => ⟨q, hkeeps hq⟩⟩
  case allocate => exact h
  case setNode => exact h
  case getNode => exact ⟨h.1, h.2.1, h.2.2.imp fun _ => hkeeps⟩
  case critical => exact ⟨h.1, h.2.imp fun _ => hkeeps⟩
  case getOwn => exact ⟨h.1, h.2.1, h.2.2.imp fun _ => hkeeps⟩
  case loadNext => exact ⟨h.1, hkeeps h.2.1, hnext _ h.2.1.2 h.2.2⟩
  all_goals exact ⟨h.1, hkeeps h.2⟩

omit [DecidableEq κ] in
theorem At.goto {pc : Pc} (h : At slot s a t pc) : At slot (s.goto t pc) a t ((s.goto t pc).pc t) := by
  rw [show (s.goto t pc).pc t = pc from Function.update_self ..]
  exact h.congr .rfl rfl rfl fun _ _ hn => hn

/-- The lock as an MCS queue. -/
structure Related (slot : τ → κ) (s : State τ κ) (a : McsQueue.State τ QNode) : Prop where
  tail : a.tail = s.tail
  locked : a.locked = s.locked
  next : a.next = s.next
  unused : ∀ n, s.size ≤ n → ∀ t, a.node t ≠ some n
  own : ∀ t u n, a.node t = some n → a.node u = some n → t = u
  thread : ∀ t, At slot s a t (s.pc t)

omit [DecidableEq κ] in
/-- After a turn of `t`, everybody else stands where they stood. -/
theorem Related.thread_turn (h : Related slot s a) (hslot : Function.Injective slot)
    (hpc : ∀ u, u ≠ t → s'.pc u = s.pc u) (hmine : ∀ i, i ≠ slot t → s.myNode.Agrees s'.myNode i)
    (hnode : ∀ u, u ≠ t → a'.node u = a.node u) (hphase : ∀ u, u ≠ t → a'.phase u = a.phase u)
    (hnext : ∀ u q, u ≠ t → a.node u = some q → s.next q ≠ none → s'.next q ≠ none)
    (hself : At slot s' a' t (s'.pc t)) (u : τ) : At slot s' a' u (s'.pc u) := by
  by_cases hu : u = t
  · exact hu ▸ hself
  · rw [hpc u hu]
    exact (h.thread u).congr (hmine _ fun he => hu (hslot he)) (hnode u hu) (hphase u hu)
      fun q => hnext u q hu

omit [DecidableEq κ] in
/-- A turn that is no step of the queue. -/
theorem Related.stay (h : Related slot s a) (hslot : Function.Injective slot) (pc : Pc)
    (l : ThreadLocal κ (Option QNode)) (hmine : ∀ i, i ≠ slot t → s.myNode.Agrees l i)
    (hself : At slot {s with myNode := l} a t pc) :
    ∃ b, (McsQueue.system τ QNode).Path a [] b ∧ Related slot ({s with myNode := l}.goto t pc) b := by
  refine ⟨a, .refl, h.tail, h.locked, h.next, h.unused, h.own, ?_⟩
  exact h.thread_turn hslot (fun u hu => by simp [State.goto, hu]) hmine (fun _ _ => rfl)
    (fun _ _ => rfl) (fun _ _ _ _ hn => hn) hself.goto

omit [DecidableEq κ] in
/-- A turn that leaves the thread's slot as it is, too. -/
theorem Related.goOn (h : Related slot s a) (hslot : Function.Injective slot) (pc : Pc)
    (hself : At slot s a t pc) :
    ∃ b, (McsQueue.system τ QNode).Path a [] b ∧ Related slot (s.goto t pc) b :=
  h.stay hslot pc s.myNode (fun _ _ => .rfl) hself

omit [DecidableEq κ] in
/-- A turn that is a step of the queue by a participant with a node. -/
theorem Related.move (h : Related slot s a) (hslot : Function.Injective slot)
    {l : Option (LockEvent τ)} {x : McsQueue.Phase QNode} (hstep : McsQueue.Step a l a') (pc : Pc)
    (htail : a'.tail = s'.tail) (hlocked : a'.locked = s'.locked) (hnext : a'.next = s'.next)
    (hnode : a'.node = a.node) (hphase : a'.phase = Function.update a.phase t x)
    (hsize : s'.size = s.size) (hmine : s'.myNode = s.myNode) (hpc : s'.pc = s.pc)
    (hlinks : ∀ u q, u ≠ t → a.node u = some q → s.next q ≠ none → s'.next q ≠ none)
    (hself : At slot s' a' t pc) :
    ∃ b, (McsQueue.system τ QNode).Path a l.toList b ∧ Related slot (s'.goto t pc) b := by
  refine ⟨a', System.Path.single hstep, htail, hlocked, hnext, ?_, ?_, ?_⟩
  · rw [hnode]
    exact fun n hn => h.unused n (hsize ▸ hn)
  · rw [hnode]
    exact h.own
  · refine h.thread_turn (t := t) hslot (fun u hu => ?_) (fun i _ => ?_) (fun u _ => by rw [hnode])
      (fun u hu => by rw [hphase, Function.update_of_ne hu]) hlinks hself.goto
    · simp [State.goto, hu, hpc]
    · simp only [State.goto, hmine]
      exact .rfl

omit [DecidableEq κ] in
/-- A turn that makes the thread's node. -/
theorem Related.create (h : Related slot s a) (hslot : Function.Injective slot) (pc : Pc)
    (l : ThreadLocal κ (Option QNode)) (hmine : ∀ i, i ≠ slot t → s.myNode.Agrees l i)
    (hrest : a.phase t = .rest) (hnone : a.node t = none)
    (hself : ∀ a' : McsQueue.State τ QNode, a'.phase t = .rest → a'.node t = some s.size →
      At slot {s.create with myNode := l} a' t pc) :
    ∃ b, (McsQueue.system τ QNode).Path a [] b ∧
      Related slot ({s.create with myNode := l}.goto t pc) b := by
  refine ⟨_, System.Path.single (l := none) (.create hrest hnone (h.unused s.size (Nat.le_refl _))),
    h.tail, ?_, ?_, fun n hn u => ?_, fun u v n hu hv => ?_, ?_⟩
  · rw [h.locked]
    rfl
  · rw [h.next]
    rfl
  · have hn : s.size + 1 ≤ n := hn
    by_cases hut : u = t
    · subst hut
      simp only [Function.update_self]
      exact fun he => Nat.ne_of_lt hn (Option.some.inj he)
    · simp only [Function.update_of_ne hut]
      exact h.unused n (by omega) u
  · by_cases hut : u = t <;> by_cases hvt : v = t
    · rw [hut, hvt]
    · subst hut
      simp only [Function.update_self, Function.update_of_ne hvt, Option.some.injEq] at hu hv
      exact absurd hv (h.unused n (hu ▸ Nat.le_refl _) v)
    · subst hvt
      simp only [Function.update_self, Function.update_of_ne hut, Option.some.injEq] at hu hv
      exact absurd hu (h.unused n (hv ▸ Nat.le_refl _) u)
    · simp only [Function.update_of_ne hut, Function.update_of_ne hvt] at hu hv
      exact h.own u v n hu hv
  · refine h.thread_turn (t := t) hslot (fun u hu => ?_) hmine
      (fun u hu => Function.update_of_ne hu _ _) (fun _ _ => rfl) (fun u q _ hq hn => ?_)
      (At.goto (hself _ ?_ ?_))
    · simp [State.goto, State.create, State.setLocked, State.setNext, hu]
    · have hqs : q ≠ s.size := fun he => h.unused q (he ▸ Nat.le_refl _) u hq
      simpa [State.goto, State.create, State.setLocked, State.setNext, hqs] using hn
    · exact hrest
    · exact Function.update_self ..

/-- **The queue follows every turn** of a thread. -/
theorem Related.turn (h : Related slot s a) (hslot : Function.Injective slot) {pc : Pc}
    {l : Option (LockEvent τ)} (hp : s.pc t = pc) (hstep : step L slot s t = some (l, s')) :
    ∃ b, (McsQueue.system τ QNode).Path a l.toList b ∧ Related slot s' b := by
  have hat : At slot s a t pc := hp ▸ h.thread t
  simp only [step, hp] at hstep
  cases pc with
  | idle =>
    obtain ⟨hx, ⟨hset, hnone⟩ | ⟨q, hk⟩⟩ := hat
    · cases L
      · simp only [hset, Bool.false_eq_true, if_false, Option.some.injEq, Prod.mk.injEq] at hstep
        obtain ⟨rfl, rfl⟩ := hstep
        exact h.goOn hslot .allocate ⟨hx, hset, hnone⟩
      · simp only [State.initialGet, hset, Bool.false_eq_true, if_false, Option.some.injEq,
          Prod.mk.injEq] at hstep
        obtain ⟨rfl, rfl⟩ := hstep
        refine h.create hslot (.swap s.size) ((s.myNode.mark (slot t)).store (slot t) (some s.size))
          (fun i hi => ?_) hx hnone fun a' hx' hn' => ⟨hx', ⟨?_, ?_⟩, hn'⟩
        · exact ⟨by simp [ThreadLocal.mark, ThreadLocal.store, hi],
            by simp [ThreadLocal.mark, ThreadLocal.store, hi]⟩
        · simp [ThreadLocal.mark, ThreadLocal.store]
        · simp [ThreadLocal.store]
    · obtain ⟨⟨hset, hdata⟩, hn⟩ := id hk
      cases L
      · simp only [hset, if_true, Option.some.injEq, Prod.mk.injEq] at hstep
        obtain ⟨rfl, rfl⟩ := hstep
        exact h.goOn hslot (.getNode .test) ⟨hx, .inl rfl, q, hk⟩
      · simp only [State.initialGet, hset, if_true, hdata, Option.some.injEq, Prod.mk.injEq] at hstep
        obtain ⟨rfl, rfl⟩ := hstep
        exact h.goOn hslot (.swap q) ⟨hx, hk⟩
  | allocate =>
    obtain ⟨hx, hset, hnone⟩ := hat
    simp only [Option.some.injEq, Prod.mk.injEq] at hstep
    obtain ⟨rfl, rfl⟩ := hstep
    exact h.create hslot (.setNode s.size .mark) s.myNode (fun _ _ => .rfl) hx hnone
      fun a' hx' hn' => ⟨hx', hn', fun h => ThreadLocal.Put.noConfusion h⟩
  | setNode q put =>
    obtain ⟨hx, hn, hset⟩ := hat
    cases put with
    | mark =>
      simp only [ThreadLocal.Put.step, Option.some.injEq, Prod.mk.injEq] at hstep
      obtain ⟨rfl, rfl⟩ := hstep
      exact h.stay hslot (.setNode q .store) _ (fun _ hi => ThreadLocal.agrees_mark hi)
        ⟨hx, hn, fun _ => Function.update_self ..⟩
    | store =>
      simp only [ThreadLocal.Put.step, Option.some.injEq, Prod.mk.injEq] at hstep
      obtain ⟨rfl, rfl⟩ := hstep
      exact h.stay hslot (.getNode .test) _ (fun _ hi => ThreadLocal.agrees_store hi)
        ⟨hx, .inl rfl, q, ⟨hset rfl, Function.update_self ..⟩, hn⟩
  | getNode g =>
    obtain ⟨hx, hg, q, hk⟩ := hat
    obtain ⟨⟨hset, hdata⟩, hn⟩ := id hk
    rcases hg with rfl | rfl
    · simp only [ThreadLocal.Get.step, hset, if_true, Option.some.injEq, Prod.mk.injEq] at hstep
      obtain ⟨rfl, rfl⟩ := hstep
      exact h.goOn hslot (.getNode .read) ⟨hx, .inr rfl, q, hk⟩
    · simp only [ThreadLocal.Get.step, hdata, Option.some.injEq, Prod.mk.injEq] at hstep
      obtain ⟨rfl, rfl⟩ := hstep
      exact h.goOn hslot (.swap q) ⟨hx, hk⟩
  | swap q =>
    obtain ⟨hx, hk⟩ := hat
    simp only [Option.some.injEq, Prod.mk.injEq] at hstep
    obtain ⟨rfl, rfl⟩ := hstep
    exact h.move hslot (.swap hx hk.2) (.branch q s.tail) rfl h.locked h.next rfl rfl rfl rfl rfl
      (fun _ _ _ _ hn => hn) ⟨by simp [h.tail], hk⟩
  | branch q p =>
    obtain ⟨hx, hk⟩ := hat
    cases p with
    | some p =>
      simp only [Option.some.injEq, Prod.mk.injEq] at hstep
      obtain ⟨rfl, rfl⟩ := hstep
      exact h.move hslot (.wait hx) (.raise q p) h.tail h.locked h.next rfl rfl rfl rfl rfl
        (fun _ _ _ _ hn => hn) ⟨Function.update_self .., hk⟩
    | none =>
      simp only [Option.some.injEq, Prod.mk.injEq] at hstep
      obtain ⟨rfl, rfl⟩ := hstep
      exact h.move hslot (.enterFirst hx) .critical h.tail h.locked h.next rfl rfl rfl rfl rfl
        (fun _ _ _ _ hn => hn) ⟨Function.update_self .., q, hk⟩
  | raise q p =>
    obtain ⟨hx, hk⟩ := hat
    simp only [Option.some.injEq, Prod.mk.injEq] at hstep
    obtain ⟨rfl, rfl⟩ := hstep
    exact h.move hslot (.raise hx hk.2) (.link q p) h.tail (by rw [h.locked]; rfl) h.next rfl rfl
      rfl rfl rfl (fun _ _ _ _ hn => hn) ⟨Function.update_self .., hk⟩
  | link q p =>
    obtain ⟨hx, hk⟩ := hat
    simp only [Option.some.injEq, Prod.mk.injEq] at hstep
    obtain ⟨rfl, rfl⟩ := hstep
    refine h.move hslot (.link hx hk.2) (.spin q) h.tail h.locked (by rw [h.next]; rfl) rfl rfl
      rfl rfl rfl (fun _ q' _ _ hn => ?_) ⟨Function.update_self .., hk⟩
    by_cases hq : q' = p
    · subst hq
      simp [State.setNext]
    · simpa [State.setNext, hq] using hn
  | spin q =>
    obtain ⟨hx, hk⟩ := hat
    by_cases hl : s.locked q = true
    · simp only [if_pos hl, Option.some.injEq, Prod.mk.injEq] at hstep
      obtain ⟨rfl, rfl⟩ := hstep
      exact ⟨a, .refl, h⟩
    · simp only [if_neg hl, Option.some.injEq, Prod.mk.injEq] at hstep
      obtain ⟨rfl, rfl⟩ := hstep
      exact h.move hslot (.enter hx hk.2 (by rw [h.locked]; exact Bool.of_not_eq_true hl)) .critical
        h.tail h.locked h.next rfl rfl rfl rfl rfl (fun _ _ _ _ hn => hn)
        ⟨Function.update_self .., q, hk⟩
  | critical =>
    obtain ⟨hx, q, hk⟩ := hat
    cases L with
    | cpp =>
      simp only [Option.some.injEq, Prod.mk.injEq] at hstep
      obtain ⟨rfl, rfl⟩ := hstep
      exact h.goOn hslot (.getOwn .test) ⟨hx, .inl rfl, q, hk⟩
    | java =>
      simp only [State.initialGet, hk.1.1, if_true, hk.1.2, Option.some.injEq, Prod.mk.injEq] at hstep
      obtain ⟨rfl, rfl⟩ := hstep
      exact h.goOn hslot (.checkNext q) ⟨hx, hk⟩
  | getOwn g =>
    obtain ⟨hx, hg, q, hk⟩ := hat
    rcases hg with rfl | rfl
    · simp only [ThreadLocal.Get.step, hk.1.1, if_true, Option.some.injEq, Prod.mk.injEq] at hstep
      obtain ⟨rfl, rfl⟩ := hstep
      exact h.goOn hslot (.getOwn .read) ⟨hx, .inr rfl, q, hk⟩
    · simp only [ThreadLocal.Get.step, hk.1.2, Option.some.injEq, Prod.mk.injEq] at hstep
      obtain ⟨rfl, rfl⟩ := hstep
      exact h.goOn hslot (.checkNext q) ⟨hx, hk⟩
  | checkNext q =>
    obtain ⟨hx, hk⟩ := hat
    cases hn : s.next q with
    | none =>
      simp only [hn, Option.some.injEq, Prod.mk.injEq] at hstep
      obtain ⟨rfl, rfl⟩ := hstep
      exact h.goOn hslot (.compareExchange q) ⟨hx, hk⟩
    | some n =>
      simp only [hn, Option.some.injEq, Prod.mk.injEq] at hstep
      obtain ⟨rfl, rfl⟩ := hstep
      exact h.goOn hslot (.loadNext q) ⟨hx, hk, by simp [hn]⟩
  | compareExchange q =>
    obtain ⟨hx, hk⟩ := hat
    by_cases ht : s.tail = some q
    · simp only [if_pos ht, Option.some.injEq, Prod.mk.injEq] at hstep
      obtain ⟨rfl, rfl⟩ := hstep
      exact h.move hslot (.close hx hk.2 (h.tail.trans ht)) .idle rfl h.locked h.next rfl rfl rfl rfl
        rfl (fun _ _ _ _ hn => hn) ⟨Function.update_self .., .inr ⟨q, hk⟩⟩
    · simp only [if_neg ht, Option.some.injEq, Prod.mk.injEq] at hstep
      obtain ⟨rfl, rfl⟩ := hstep
      exact h.goOn hslot (.awaitNext q) ⟨hx, hk⟩
  | awaitNext q =>
    obtain ⟨hx, hk⟩ := hat
    cases hn : s.next q with
    | none =>
      simp only [hn, Option.some.injEq, Prod.mk.injEq] at hstep
      obtain ⟨rfl, rfl⟩ := hstep
      exact ⟨a, .refl, h⟩
    | some n =>
      simp only [hn, Option.some.injEq, Prod.mk.injEq] at hstep
      obtain ⟨rfl, rfl⟩ := hstep
      exact h.goOn hslot (.loadNext q) ⟨hx, hk, by simp [hn]⟩
  | loadNext q =>
    obtain ⟨hx, hk, hne⟩ := hat
    obtain ⟨n, hn⟩ := Option.ne_none_iff_exists'.mp hne
    simp only [hn, Option.some.injEq, Prod.mk.injEq] at hstep
    obtain ⟨rfl, rfl⟩ := hstep
    exact h.move hslot (.look hx hk.2 (by rw [h.next]; exact hn)) (.lower q n) h.tail h.locked h.next
      rfl rfl rfl rfl rfl (fun _ _ _ _ hn => hn) ⟨Function.update_self .., hk⟩
  | lower q n =>
    obtain ⟨hx, hk⟩ := hat
    simp only [Option.some.injEq, Prod.mk.injEq] at hstep
    obtain ⟨rfl, rfl⟩ := hstep
    exact h.move hslot (.handOver hx) (.clearNext q) h.tail (by rw [h.locked]; rfl) h.next rfl rfl
      rfl rfl rfl (fun _ _ _ _ hn => hn) ⟨Function.update_self .., hk⟩
  | clearNext q =>
    obtain ⟨hx, hk⟩ := hat
    simp only [Option.some.injEq, Prod.mk.injEq] at hstep
    obtain ⟨rfl, rfl⟩ := hstep
    refine h.move hslot (.unlink hx hk.2) .idle h.tail h.locked (by rw [h.next]; rfl) rfl rfl
      rfl rfl rfl (fun u q' hu hq' hn => ?_) ⟨Function.update_self .., .inr ⟨q, hk⟩⟩
    have hqq : q' ≠ q := fun he => hu (h.own u t q (he ▸ hq') hk.2)
    simpa [State.setNext, hqq] using hn
  | fault =>
    exact hat.elim

/-- **The lock is the MCS queue of its threads.** -/
def simulation (L : Lang) (slot : τ → κ) (hslot : Function.Injective slot) :
    System.Simulation (machine L slot).system (McsQueue.system τ QNode) where
  Rel := Related slot
  initial := ⟨rfl, rfl, rfl, nofun, nofun, fun _ => ⟨rfl, .inl ⟨rfl, rfl⟩⟩⟩
  step := fun _ _ _ _ h ⟨_, hstep⟩ => h.turn hslot rfl hstep

/-- A thread's null pointers are never met. -/
theorem never_faults {L : Lang} (hslot : Function.Injective slot) (h : (machine L slot).system.Reachable s)
    (t : τ) : s.pc t ≠ .fault := by
  obtain ⟨es, h⟩ := h
  obtain ⟨a, _, hrel⟩ := (simulation L slot hslot).run h
  intro hp
  have hat := hrel.thread t
  rw [hp] at hat
  exact hat

/-- The lock excludes, first come, first served, as long as no two threads share a
slot. -/
theorem excludesInOrder (L : Lang) (slot : τ → κ) (hslot : Function.Injective slot) :
    ExcludesInOrder (machine L slot).system fun s t => s.pc t = .critical := by
  refine FifoLock.excludesInOrder ((simulation L slot hslot).comp (McsQueue.simulation τ QNode)) ?_
  rintro s f t ⟨a, h, hq⟩ hp
  have hat := h.thread t
  rw [hp] at hat
  exact (hq.holds t).mpr (by rw [hat.1]; trivial)

/-- **The MCS lock excludes, first come, first served**: in Java always, in C++
whenever the threads' ids are distinct modulo the size of `myNode`. -/
theorem mcs_excludesInOrder (τ : Type*) [DecidableEq τ] :
    ExcludesInOrder (machine .java (id : τ → τ)).system (fun s t => s.pc t = .critical) ∧
      ∀ (MaxThreads : ℕ) (threadId : τ → ℕ),
        (∀ t u, threadId t % MaxThreads = threadId u % MaxThreads → t = u) →
        ExcludesInOrder (machine .cpp fun t => threadId t % MaxThreads).system
          fun s t => s.pc t = .critical :=
  ⟨excludesInOrder .java id Function.injective_id, fun _ _ hids => excludesInOrder .cpp _ hids⟩

theorem mcs_excludesInOrder_four :
    ExcludesInOrder (machine .java (id : Fin 4 → Fin 4)).system (fun s t => s.pc t = .critical) ∧
      ExcludesInOrder (machine .cpp fun t : Fin 4 => (t.val + 1) % 4).system
        fun s t => s.pc t = .critical :=
  ⟨(mcs_excludesInOrder (Fin 4)).1, (mcs_excludesInOrder (Fin 4)).2 4 (fun t => t.val + 1) (by decide)⟩

end ParSweet.Locks.MCSLock
