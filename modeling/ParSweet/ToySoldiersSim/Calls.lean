import ParSweet.Concurrent.Mutexes
import ParSweet.ToySoldiersSim

/-! `ToySoldiersSim` lock by lock.

Any number of threads call the methods of the simulation, the `run()` of any soldier among
them. Taking a lock, letting go of it, and whatever is read or written in between are steps
of their own. A soldier that is being added can be seen on its tile before it is counted. -/
namespace ParSweet.ToySoldiersSim.Calls
open Concurrent

/-- The tiles there are. -/
abbrev Place (G : Grid) := {t : Tile // G.inBounds t.1 t.2}

variable {τ : Type*} {G : Grid}

def getRC (G : Grid) (row col : ℤ) : Option (Place G) :=
  match h : G.getRC row col with
  | some t => some ⟨t, inBounds_of_getRC h⟩
  | none => none

theorem val_of_getRC {row col : ℤ} {t : Place G} (h : getRC G row col = some t) : t.val = (row, col) := by
  unfold getRC at h
  split at h
  · obtain rfl := Option.some.inj h
    exact (getRC_eq_some ‹_›).2
  · cases h

/-- `countLock`, and the locks of the soldiers and of the tiles. -/
inductive Lock (G : Grid) where
  | count
  | soldier (k : ℕ)
  | tile (t : Place G)
  deriving DecidableEq

/-- A move of a soldier away from a tile, in one of `dirs`. -/
structure Move (G : Grid) where
  soldier : ℕ
  here : Place G
  dirs : Direction → Option (Place G)
  distinct : ∀ d t, dirs d = some t → t ≠ here

/-- `this.swapOccupants(other)` in the course of a move. -/
structure Swap (G : Grid) where
  soldier : ℕ
  this : Place G
  other : Place G
  distinct : this ≠ other

inductive Op (G : Grid) where
  | addSoldier (r c : ℤ)
  | decrementLife (k : ℕ)
  | getLife (k : ℕ)
  | getOccupant (t : Place G)
  | setOccupant (t : Place G) (occupant : Option ℕ)
  /-- The block at the end of `step()`. -/
  | move (m : Move G)
  | deploy
  | run (i : ℕ)

inductive Res where
  | soldier (k : ℕ)
  | life (life : ℤ)
  | occupant (occupant : Option ℕ)
  | position (r c : ℤ)
  | void
  /-- A `NullPointerException` -/
  | thrown
  deriving DecidableEq

/-- What goes on when `setOccupant` has returned. -/
inductive Then where
  | added (k : ℕ)
  | fell (k : ℕ)
  | void

/-- Where a call stands. -/
inductive Pc (G : Grid) where
  | begin (op : Op G)
  /-- `addSoldier`: `countLock.lock()` -/
  | addLock (r c : ℤ)
  /-- `new Soldier(r, c)`, to begin with its fields -/
  | construct (r c : ℤ)
  /-- `soldierCount++` -/
  | increment (k : ℕ)
  /-- `finally { countLock.unlock(); }` -/
  | addUnlock (res : Res)
  /-- `setOccupant`: `lock.lock()` -/
  | setLock (t : Place G) (occupant : Option ℕ) (next : Then)
  /-- `this.occupant = occupant` -/
  | setStore (t : Place G) (occupant : Option ℕ) (next : Then)
  | setUnlock (t : Place G) (next : Then)
  /-- `decrementLife`: `lock.lock()` -/
  | decrementLock (k : ℕ)
  /-- `--life` -/
  | decrement (k : ℕ)
  /-- `decrementSoldierCount`: `countLock.lock()` -/
  | countLock (k : ℕ)
  /-- `soldierCount--` -/
  | countDown (k : ℕ)
  /-- `if (soldierCount <= 1) countCond.signalAll()` -/
  | countSignal (k : ℕ)
  | countUnlock (k : ℕ)
  /-- `getRC(row, col).setOccupant(null)` -/
  | clear (k : ℕ)
  /-- `return life`, and the lock is released. -/
  | decrementReturn (k : ℕ)
  | decrementThrow (k : ℕ)
  /-- `getLife`: `lock.lock()` -/
  | lifeLock (k : ℕ)
  | lifeReturn (k : ℕ)
  /-- `getOccupant`: `lock.lock()` -/
  | occupantLock (t : Place G)
  | occupantReturn (t : Place G)
  /-- `step`: `lock.lock()` before `r = row; c = col;` -/
  | positionLock (k : ℕ)
  | positionReturn (k : ℕ)
  /-- `step`: `lock.lock()` before a move -/
  | moveLock (m : Move G)
  /-- `d = random.nextInt(4); headingTo = dirs[d];` -/
  | choose (m : Move G)
  /-- `swapOccupants`: the first of the two locks -/
  | swapFirst (w : Swap G)
  | swapSecond (w : Swap G)
  | swap (w : Swap G)
  /-- `lock.unlock()` -/
  | unlockThis (w : Swap G)
  /-- `other.lock.unlock()` -/
  | unlockOther (w : Swap G)
  /-- `row = headingTo.r; col = headingTo.c;` -/
  | setPosition (w : Swap G)
  | moveUnlock (k : ℕ)
  /-- `deploy`: `countLock.lock()` -/
  | deployLock
  /-- `soldierCount > 1` -/
  | deployTest
  /-- `countCond.awaitUninterruptibly()`, to begin with letting go of the lock -/
  | await
  /-- It takes the lock again. -/
  | wake
  | deployUnlock
  | returned (res : Res)

/-! ### `run()` -/

/-- What `run()` of a soldier is waiting for. -/
inductive RunAt where
  /-- `getLife()` -/
  | life
  /-- The first block of `step()` -/
  | position
  /-- `there.getOccupant()`, with the rest of `dirs` to come -/
  | look (r c : ℤ) (rest : List Direction)
  /-- `toAttack.decrementLife()` -/
  | attack
  /-- The last block of `step()` -/
  | move
  deriving DecidableEq

/-- Who has called: somebody from outside, or `run()` of soldier `i`. -/
inductive Caller where
  | outside
  | run (i : ℕ) (at_ : RunAt)
  deriving DecidableEq

/-- The local state of a call. -/
structure Local (G : Grid) where
  caller : Caller
  pc : Pc G

/-- The move `step()` makes from its position. -/
def stepMove (i : ℕ) {r c : ℤ} {here : Place G} (h : getRC G r c = some here) : Move G where
  soldier := i
  here := here
  dirs := fun d => getRC G (r + d.r) (c + d.c)
  distinct := fun d t ht he => by
    have hrc := (val_of_getRC ht).symm.trans ((congrArg Subtype.val he).trans (val_of_getRC h))
    have hr : r + d.r = r := congrArg Prod.fst hrc
    have hc : c + d.c = c := congrArg Prod.snd hrc
    cases d <;> simp [Direction.r, Direction.c] at hr hc

/-- The loop over `dirs`; a soldier that sees nobody moves. -/
def lookAt (G : Grid) (i : ℕ) (r c : ℤ) : List Direction → Local G
  | [] =>
    match h : getRC G r c with
    | some _ => ⟨.run i .move, .moveLock (stepMove i h)⟩
    | none => ⟨.outside, .returned .thrown⟩
  | d :: rest =>
    match getRC G (r + d.r) (c + d.c) with
    | some there => ⟨.run i (.look r c rest), .occupantLock there⟩
    | none => lookAt G i r c rest

/-- `run()` goes on with what it has got; `equals` compares soldiers. -/
def resume (G : Grid) (equals : ℕ → ℕ → Bool) (i : ℕ) : RunAt → Res → Local G
  | .life, .life life => if life > 0 then ⟨.run i .position, .positionLock i⟩ else ⟨.outside, .returned .void⟩
  | .position, .position r c => lookAt G i r c directions
  | .look r c rest, .occupant (some whoIsThere) =>
    if equals whoIsThere i then lookAt G i r c rest else ⟨.run i .attack, .decrementLock whoIsThere⟩
  | .look r c rest, .occupant none => lookAt G i r c rest
  | .attack, .life _ => ⟨.run i .life, .lifeLock i⟩
  | .move, .void => ⟨.run i .life, .lifeLock i⟩
  | _, _ => ⟨.outside, .returned .thrown⟩

/-! ### The steps -/

/-- What is counted. `shown` are the soldiers that have stood on a tile, the only ones anybody else
can have got hold of; `counted` and `fallen` are those for which `soldierCount++` and
`soldierCount--` have been executed. -/
structure Roll where
  soldierCount : BitVec 32
  created : ℕ
  life : ℕ → ℤ
  shown : ℕ → Bool
  counted : List ℕ
  fallen : List ℕ

/-- The simulation. `dead` are the soldiers for which a `decrementLife()` that has brought their life
to 0 has returned; nothing reads it. -/
structure Board (τ : Type*) (G : Grid) where
  roll : Roll
  occupant : Place G → Option ℕ
  idCounter : BitVec 32
  row : ℕ → ℤ
  col : ℕ → ℤ
  id : ℕ → BitVec 32
  holder : Lock G → Option τ
  dead : ℕ → Bool

/-- No soldiers yet. -/
def empty (idCounter : BitVec 32) : Board τ G where
  roll := ⟨0, 0, fun _ => 0, fun _ => false, [], []⟩
  occupant := fun _ => none
  idCounter := idCounter
  row := fun _ => 0
  col := fun _ => 0
  id := fun _ => 0
  holder := fun _ => none
  dead := fun _ => false

/-- The fields of a new soldier. -/
def Roll.construct (r : Roll) : Roll :=
  {r with created := r.created + 1, life := Function.update r.life r.created 2}

def Roll.reveal (r : Roll) : Option ℕ → Roll
  | some k => {r with shown := Function.update r.shown k true}
  | none => r

def Roll.increment (r : Roll) (k : ℕ) : Roll :=
  {r with soldierCount := r.soldierCount + 1, counted := k :: r.counted}

def Roll.countDown (r : Roll) (k : ℕ) : Roll :=
  {r with soldierCount := r.soldierCount - 1, fallen := k :: r.fallen}

/-- `int n` is what a variable of type `int` that should be `n` holds. -/
def Roll.decrement (int : ℤ → ℤ) (r : Roll) (k : ℕ) : Roll :=
  {r with life := Function.update r.life k (int (r.life k - 1))}

namespace Board

def equals (s : Board τ G) (i k : ℕ) : Bool := i = k ∨ s.id i = s.id k

def construct (s : Board τ G) (r c : ℤ) : Board τ G :=
  { s with
    roll := s.roll.construct
    row := Function.update s.row s.roll.created r
    col := Function.update s.col s.roll.created c
    id := Function.update s.id s.roll.created s.idCounter
    idCounter := s.idCounter + 1 }

def setOccupant (s : Board τ G) (t : Place G) (occupant : Option ℕ) : Board τ G :=
  {s with roll := s.roll.reveal occupant, occupant := Function.update s.occupant t occupant}

/-- `this.swapOccupants(other)` with both locks held. -/
def swapOccupants (s : Board τ G) (this other : Place G) : Board τ G :=
  {s with occupant := Function.update (Function.update s.occupant this (s.occupant other)) other (s.occupant this)}

def setPosition (s : Board τ G) (k : ℕ) (t : Place G) : Board τ G :=
  {s with row := Function.update s.row k t.val.1, col := Function.update s.col k t.val.2}

def release (s : Board τ G) (n : Lock G) : Board τ G := {s with holder := Function.update s.holder n none}

def acquire (s : Board τ G) (me : τ) (n : Lock G) : Option (Board τ G) :=
  if s.holder n = none then some {s with holder := Function.update s.holder n (some me)} else none

/-- The `decrementLife()` that has brought a life to 0 returns. -/
def decrementReturn (s : Board τ G) (k : ℕ) : Board τ G :=
  {s.release (.soldier k) with dead := if s.roll.life k = 0 then Function.update s.dead k true else s.dead}

end Board

/-- The soldiers a call is about are known to its caller. -/
def Op.known (shown : ℕ → Bool) : Op G → Bool
  | .decrementLife k | .getLife k | .run k => shown k
  | .setOccupant _ (some k) => shown k
  | .move m => shown m.soldier
  | _ => true

/-- The first statement of a method. -/
def Op.entry : Op G → Local G
  | .addSoldier r c => ⟨.outside, .addLock r c⟩
  | .decrementLife k => ⟨.outside, .decrementLock k⟩
  | .getLife k => ⟨.outside, .lifeLock k⟩
  | .getOccupant t => ⟨.outside, .occupantLock t⟩
  | .setOccupant t occupant => ⟨.outside, .setLock t occupant .void⟩
  | .move m => ⟨.outside, .moveLock m⟩
  | .deploy => ⟨.outside, .deployLock⟩
  | .run i => ⟨.run i .life, .lifeLock i⟩

/-- What follows on `setOccupant`. -/
def Then.next : Then → Pc G
  | .added k => .increment k
  | .fell k => .decrementReturn k
  | .void => .returned .void

/-- The lock `swapOccupants` takes first: `this`'s if its hash code is the smaller one. -/
def Swap.first (hash : Place G → ℤ) (w : Swap G) : Place G := if hash w.this < hash w.other then w.this else w.other

def Swap.second (hash : Place G → ℤ) (w : Swap G) : Place G := if hash w.this < hash w.other then w.other else w.this

/-- One atomic step of a call; `d` is what `random.nextInt(4)` gives, where it is asked. -/
def step (int : ℤ → ℤ) (hash : Place G → ℤ) (me : τ) (s : Board τ G) (l : Local G) (d : Direction) :
    Option (Board τ G × Local G) :=
  let goto (s : Board τ G) (pc : Pc G) : Option (Board τ G × Local G) := some (s, {l with pc := pc})
  let lock (n : Lock G) (pc : Pc G) : Option (Board τ G × Local G) :=
    (s.acquire me n).map fun s' => (s', {l with pc := pc})
  match l.pc with
  | .begin op => if op.known s.roll.shown then some (s, op.entry) else none
  | .addLock r c => lock .count (.construct r c)
  | .construct r c =>
    match getRC G r c with
    | some t => goto (s.construct r c) (.setLock t (some s.roll.created) (.added s.roll.created))
    | none => goto (s.construct r c) (.addUnlock .thrown)
  | .increment k => goto {s with roll := s.roll.increment k} (.addUnlock (.soldier k))
  | .addUnlock res => goto (s.release .count) (.returned res)
  | .setLock t occupant next => lock (.tile t) (.setStore t occupant next)
  | .setStore t occupant next => goto (s.setOccupant t occupant) (.setUnlock t next)
  | .setUnlock t next => goto (s.release (.tile t)) next.next
  | .decrementLock k => lock (.soldier k) (.decrement k)
  | .decrement k =>
    goto {s with roll := s.roll.decrement int k}
      (if int (s.roll.life k - 1) = 0 then .countLock k else .decrementReturn k)
  | .countLock k => lock .count (.countDown k)
  | .countDown k => goto {s with roll := s.roll.countDown k} (.countSignal k)
  | .countSignal k => goto s (.countUnlock k)
  | .countUnlock k => goto (s.release .count) (.clear k)
  | .clear k =>
    match getRC G (s.row k) (s.col k) with
    | some t => goto s (.setLock t none (.fell k))
    | none => goto s (.decrementThrow k)
  | .decrementReturn k => goto (s.decrementReturn k) (.returned (.life (s.roll.life k)))
  | .decrementThrow k => goto (s.release (.soldier k)) (.returned .thrown)
  | .lifeLock k => lock (.soldier k) (.lifeReturn k)
  | .lifeReturn k => goto (s.release (.soldier k)) (.returned (.life (s.roll.life k)))
  | .occupantLock t => lock (.tile t) (.occupantReturn t)
  | .occupantReturn t => goto (s.release (.tile t)) (.returned (.occupant (s.occupant t)))
  | .positionLock k => lock (.soldier k) (.positionReturn k)
  | .positionReturn k => goto (s.release (.soldier k)) (.returned (.position (s.row k) (s.col k)))
  | .moveLock m => lock (.soldier m.soldier) (.choose m)
  | .choose m =>
    match h : m.dirs d with
    | some headingTo => goto s (.swapFirst ⟨m.soldier, headingTo, m.here, m.distinct d headingTo h⟩)
    | none => goto s (.choose m)
  | .swapFirst w => lock (.tile (w.first hash)) (.swapSecond w)
  | .swapSecond w => lock (.tile (w.second hash)) (.swap w)
  | .swap w => goto (s.swapOccupants w.this w.other) (.unlockThis w)
  | .unlockThis w => goto (s.release (.tile w.this)) (.unlockOther w)
  | .unlockOther w => goto (s.release (.tile w.other)) (.setPosition w)
  | .setPosition w => goto (s.setPosition w.soldier w.this) (.moveUnlock w.soldier)
  | .moveUnlock k => goto (s.release (.soldier k)) (.returned .void)
  | .deployLock => lock .count .deployTest
  | .deployTest => goto s (if s.roll.soldierCount.toInt > 1 then .await else .deployUnlock)
  | .await => goto (s.release .count) .wake
  | .wake => lock .count .deployTest
  | .deployUnlock => goto (s.release .count) (.returned .void)
  | .returned res =>
    match l.caller with
    | .outside => none
    | .run i a => some (s, resume G s.equals i a res)

/-- The simulation as an object: any thread may call any method at any time. `hash` is
`System.identityHashCode` of the tiles' locks, and a wait for `countCond` may end at any time.
With `int32` for `int`, `life` is what it is in Java; with `id` it is an exact integer. -/
def simulation (τ : Type*) (G : Grid) (hash : Place G → ℤ) (idCounter : BitVec 32) (int : ℤ → ℤ) :
    Implementation τ (Op G) Res (Board τ G) (Local G) Direction where
  store := empty idCounter
  start := fun op => ⟨.outside, .begin op⟩
  step := step int hash
  result := fun l =>
    match l.caller, l.pc with
    | .outside, .returned res => some res
    | _, _ => none

/-! ### The locks -/

/-- The lock a call's next step takes. -/
def Pc.wants (hash : Place G → ℤ) : Pc G → Option (Lock G)
  | .addLock _ _ | .countLock _ | .deployLock | .wake => some .count
  | .setLock t _ _ | .occupantLock t => some (.tile t)
  | .decrementLock k | .lifeLock k | .positionLock k => some (.soldier k)
  | .moveLock m => some (.soldier m.soldier)
  | .swapFirst w => some (.tile (w.first hash))
  | .swapSecond w => some (.tile (w.second hash))
  | _ => none

/-- The locks of the method that has called `setOccupant`. -/
def Then.held : Then → List (Lock G)
  | .added _ => [.count]
  | .fell k => [.soldier k]
  | .void => []

/-- The locks a call holds. -/
def Pc.held (hash : Place G → ℤ) : Pc G → List (Lock G)
  | .construct _ _ | .increment _ | .addUnlock _ | .deployTest | .await | .deployUnlock => [.count]
  | .setLock _ _ next => next.held
  | .setStore t _ next | .setUnlock t next => .tile t :: next.held
  | .decrement k | .countLock k | .clear k | .decrementReturn k | .decrementThrow k | .lifeReturn k
  | .positionReturn k | .moveUnlock k => [.soldier k]
  | .countDown k | .countSignal k | .countUnlock k => [.count, .soldier k]
  | .occupantReturn t => [.tile t]
  | .choose m => [.soldier m.soldier]
  | .swapFirst w | .setPosition w => [.soldier w.soldier]
  | .swapSecond w => [.tile (w.first hash), .soldier w.soldier]
  | .swap w | .unlockThis w => [.tile w.this, .tile w.other, .soldier w.soldier]
  | .unlockOther w => [.tile w.other, .soldier w.soldier]
  | _ => []

section Locks
variable {hash : Place G → ℤ} {idCounter : BitVec 32} {int : ℤ → ℤ} {me : τ} {s s' : Board τ G} {l l' : Local G}
  {n : Lock G} {d : Direction}

theorem acquire_eq_some : s.acquire me n = some s' ↔
    s.holder n = none ∧ s' = {s with holder := Function.update s.holder n (some me)} := by
  unfold Board.acquire
  split_ifs with h <;> simp [h, eq_comm]

/-- The loop over `dirs` gets to a tile to look at, or to a move. -/
theorem lookAt_induction {P : Local G → Prop} (i : ℕ) (r c : ℤ) (dirs : List Direction)
    (hmove : ∀ m, P ⟨.run i .move, .moveLock m⟩) (hthrown : P ⟨.outside, .returned .thrown⟩)
    (hlook : ∀ rest there, P ⟨.run i (.look r c rest), .occupantLock there⟩) : P (lookAt G i r c dirs) := by
  induction dirs with
  | nil =>
    unfold lookAt
    split
    · exact hmove _
    · exact hthrown
  | cons d rest ih =>
    unfold lookAt
    split
    · exact hlook rest _
    · exact ih

/-- Wherever the loop over `dirs` gets, it holds nothing yet. -/
theorem held_lookAt (i : ℕ) (r c : ℤ) (dirs : List Direction) : (lookAt G i r c dirs).pc.held hash = [] :=
  lookAt_induction (P := fun l => l.pc.held hash = []) i r c dirs (fun _ => rfl) rfl fun _ _ => rfl

theorem held_resume (equals : ℕ → ℕ → Bool) (i : ℕ) (a : RunAt) (res : Res) :
    (resume G equals i a res).pc.held hash = [] := by
  unfold resume
  split
  · split_ifs <;> rfl
  · exact held_lookAt ..
  · split_ifs
    · exact held_lookAt ..
    · rfl
  · exact held_lookAt ..
  all_goals rfl

/-- Taking a lock. -/
theorem mutexStep_acquire {held held' : List (Lock G)} (ha : s.acquire me n = some s') (h : held' = n :: held) :
    MutexStep me s.holder (· ∈ held) s'.holder (· ∈ held') := by
  obtain ⟨hfree, rfl⟩ := acquire_eq_some.mp ha
  subst h
  exact .take hfree fun _ => List.mem_cons

/-- Letting go of one. -/
theorem mutexStep_release {held : List (Lock G)} (hn : n ∉ held) :
    MutexStep me s.holder (· ∈ n :: held) (s.release n).holder (· ∈ held) := by
  refine .drop List.mem_cons_self fun k => ?_
  constructor
  · intro hk
    exact ⟨fun he => hn (he ▸ hk), List.mem_cons_of_mem n hk⟩
  · intro ⟨hne, hk⟩
    exact (List.mem_cons.mp hk).resolve_left hne

/-- **Every step accounts for the locks.** -/
theorem accounts (τ : Type*) (hash : Place G → ℤ) (idCounter : BitVec 32) (int : ℤ → ℤ) :
    Accounts (simulation τ G hash idCounter int) Board.holder fun l n => n ∈ l.pc.held hash where
  initial := fun _ => rfl
  start := fun _ _ => List.not_mem_nil
  result := fun l res n hres => by
    obtain ⟨caller, pc⟩ := l
    cases pc with
    | returned r => exact List.not_mem_nil
    | _ => cases caller <;> cases hres
  step := fun me s l d s' l' hstep => by
    obtain ⟨caller, pc⟩ := l
    cases pc with
    | begin op =>
      simp only [simulation, step] at hstep
      split_ifs at hstep
      cases hstep
      cases op <;> exact .keep fun _ => Iff.rfl
    | addLock r c | setLock t o next | decrementLock k | countLock k | lifeLock k | occupantLock t | positionLock k
    | moveLock m | deployLock | wake | swapFirst w =>
      obtain ⟨s₁, ha, heq⟩ := Option.map_eq_some_iff.mp hstep
      cases heq
      exact mutexStep_acquire ha rfl
    | swapSecond w =>
      obtain ⟨s₁, ha, heq⟩ := Option.map_eq_some_iff.mp hstep
      cases heq
      obtain ⟨hfree, rfl⟩ := acquire_eq_some.mp ha
      refine .take hfree fun k => ?_
      unfold Pc.held Swap.first Swap.second
      split_ifs <;> grind
    | construct r c =>
      simp only [simulation, step] at hstep
      split at hstep <;> cases hstep <;> exact .keep fun _ => Iff.rfl
    | decrement k =>
      cases hstep
      split_ifs <;> exact .keep fun _ => Iff.rfl
    | clear k =>
      simp only [simulation, step] at hstep
      split at hstep <;> cases hstep <;> exact .keep fun _ => Iff.rfl
    | choose m =>
      simp only [simulation, step] at hstep
      split at hstep <;> cases hstep <;> exact .keep fun _ => Iff.rfl
    | deployTest =>
      cases hstep
      split_ifs <;> exact .keep fun _ => Iff.rfl
    | increment k | setStore t o next | countDown k | countSignal k | swap w | setPosition w =>
      cases hstep
      exact .keep fun _ => Iff.rfl
    | addUnlock res | decrementReturn k | decrementThrow k | lifeReturn k | occupantReturn t | positionReturn k
    | moveUnlock k | deployUnlock | await =>
      cases hstep
      exact mutexStep_release List.not_mem_nil
    | countUnlock k =>
      cases hstep
      exact mutexStep_release (by simp)
    | setUnlock t next =>
      cases hstep
      cases next with
      | added k | fell k => exact mutexStep_release (by simp [Then.held])
      | void => exact mutexStep_release List.not_mem_nil
    | unlockThis w =>
      cases hstep
      exact mutexStep_release (by simp [w.distinct])
    | unlockOther w =>
      cases hstep
      exact mutexStep_release (by simp)
    | returned res =>
      cases caller with
      | outside => cases hstep
      | run i a =>
        cases hstep
        refine .keep fun n => ?_
        rw [held_resume]
        exact Iff.rfl

end Locks

/-! ### A soldier is added -/

section Add
variable {hash : Place G → ℤ} {idCounter : BitVec 32} {int : ℤ → ℤ} {me : τ} {s : Board τ G} {n : Lock G} {k : ℕ}

theorem acquire_free (me : τ) (h : s.holder n = none) :
    s.acquire me n = some {s with holder := Function.update s.holder n (some me)} := if_pos h

theorem getRC_place (p : Place G) : getRC G p.val.1 p.val.2 = some p := by
  unfold getRC
  split
  · rename_i t h
    rw [getRC_of_inBounds p.2, Option.some.injEq] at h
    exact congrArg some (Subtype.ext h.symm)
  · rename_i h
    rw [getRC_of_inBounds p.2] at h
    cases h

/-- The board once a soldier has been added with nobody else about. -/
def Board.add (s : Board τ G) (me : τ) (p : Place G) : Board τ G :=
  let s₁ : Board τ G := {s with holder := Function.update s.holder .count (some me)}
  let s₂ : Board τ G := s₁.construct p.val.1 p.val.2
  let s₃ : Board τ G := {s₂ with holder := Function.update s₂.holder (.tile p) (some me)}
  let s₄ : Board τ G := (s₃.setOccupant p (some s.roll.created)).release (.tile p)
  ({s₄ with roll := s₄.roll.increment s.roll.created} : Board τ G).release .count

theorem holder_add (h : ∀ n, s.holder n = none) (p : Place G) (n : Lock G) : (s.add me p).holder n = none := by
  simp only [Board.add, Board.release, Board.setOccupant, Board.construct, Function.update_apply, h]
  split_ifs <;> rfl

theorem shown_add (p : Place G) : (s.add me p).roll.shown k = (decide (k = s.roll.created) || s.roll.shown k) := by
  by_cases hk : k = s.roll.created <;>
    simp [Board.add, Board.release, Board.setOccupant, Board.construct, Roll.construct, Roll.reveal, Roll.increment, hk]

/-- Adding a soldier with nobody else about. -/
theorem answers_add (h : ∀ n, s.holder n = none) (p : Place G) :
    (simulation τ G hash idCounter int).Answers me s (.addSoldier p.val.1 p.val.2) (.soldier s.roll.created)
      (s.add me p) := by
  refine ⟨⟨.outside, .returned (.soldier s.roll.created)⟩, ?_, rfl⟩
  have hcount : s.acquire me .count = some {s with holder := Function.update s.holder .count (some me)} :=
    acquire_free me (h .count)
  have htile : (({s with holder := Function.update s.holder .count (some me)} : Board τ G).construct
      p.val.1 p.val.2).holder (.tile p) = none := by simp [Board.construct, h]
  refine .head ⟨.NORTH, rfl⟩ ?_
  refine .head ⟨.NORTH, congrArg (Option.map _) hcount⟩ ?_
  refine .head ⟨.NORTH, by simp only [simulation, step, getRC_place]; rfl⟩ ?_
  refine .head ⟨.NORTH, congrArg (Option.map _) (acquire_free me htile)⟩ ?_
  refine .head ⟨.NORTH, rfl⟩ ?_
  refine .head ⟨.NORTH, rfl⟩ ?_
  refine .head ⟨.NORTH, rfl⟩ ?_
  exact .single ⟨.NORTH, rfl⟩

end Add

end ParSweet.ToySoldiersSim.Calls
