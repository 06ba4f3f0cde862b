import Mathlib.Algebra.Order.Group.Int
import Mathlib.Data.List.Nodup
import ParSweet.Concurrent.System
import ParSweet.Placement

/-! `ToySoldiersSim` of the Java suite: the board and the soldiers that run on it.

Soldiers are numbered in the order in which they are added, and each has a thread, which
runs `run()`. A step of it looks around from the position it has read, tile by tile, and then
attacks whom it has found or moves to any of the four tiles next to that position. The
soldier's own lock is held over the move and the lock of the soldier attacked over
`decrementLife()`; what these do to a tile, and `getOccupant()`, is atomic. Since nobody
looks again before moving, the tile moved to need not be free any more, nor the soldier
alive: then `swapOccupants` displaces somebody whose `row` and `col` stay what they were. As
long as that does not happen, the board and the soldiers agree (`Inv.turn`). -/
namespace ParSweet.ToySoldiersSim
open Concurrent

/-- Row and column. -/
abbrev Tile := ℤ × ℤ

inductive Direction where
  | NORTH
  | SOUTH
  | EAST
  | WEST
  deriving DecidableEq

def Direction.r : Direction → ℤ
  | .NORTH => -1
  | .SOUTH => 1
  | .EAST => 0
  | .WEST => 0

def Direction.c : Direction → ℤ
  | .NORTH => 0
  | .SOUTH => 0
  | .EAST => 1
  | .WEST => -1

/-- The order of `dirs`. -/
def directions : List Direction := [.NORTH, .SOUTH, .EAST, .WEST]

structure Grid where
  rows : ℤ
  cols : ℤ

def Grid.inBounds (G : Grid) (row col : ℤ) : Prop :=
  row ≥ 0 ∧ row ≤ G.rows - 1 ∧ col ≥ 0 ∧ col ≤ G.cols - 1

instance (G : Grid) (row col : ℤ) : Decidable (G.inBounds row col) :=
  inferInstanceAs (Decidable (_ ∧ _ ∧ _ ∧ _))

def Grid.getRC (G : Grid) (row col : ℤ) : Option Tile :=
  if G.inBounds row col then some (max 0 (min row (G.rows - 1)), max 0 (min col (G.cols - 1))) else none

def Direction.getRelative (d : Direction) (G : Grid) (r c : ℤ) : Option Tile := G.getRC (r + d.r) (c + d.c)

/-- Where a soldier's thread stands. -/
inductive Pc where
  /-- `getLife() > 0` -/
  | getLife
  /-- `r = row; c = col;` -/
  | position
  /-- The loop over `dirs`: `there.getOccupant()` -/
  | scan (r c : ℤ) (dirs : List Direction)
  /-- `toAttack.decrementLife()`, to begin with its `lock.lock()` -/
  | attack (toAttack : ℕ)
  /-- `--life` -/
  | decrement (toAttack : ℕ)
  /-- `decrementSoldierCount()` -/
  | count (toAttack : ℕ)
  /-- `getRC(row, col).setOccupant(null)` -/
  | clear (toAttack : ℕ)
  /-- `return life`, and the lock is released. -/
  | release (toAttack : ℕ)
  /-- `lock.lock()` before a move -/
  | lockSelf (r c : ℤ)
  /-- `d = random.nextInt(4)` -/
  | choose (r c : ℤ)
  /-- `headingTo.swapOccupants(here)` -/
  | swap (r c : ℤ) (headingTo : Tile)
  /-- `row = headingTo.r; col = headingTo.c;` -/
  | setPos (headingTo : Tile)
  /-- `lock.unlock()` after a move -/
  | unlockSelf
  /-- `run()` has returned. -/
  | done
  /-- A `NullPointerException` has left `run()`. -/
  | thrown
  deriving DecidableEq

/-- The soldiers are the numbers below `created`; `lock` tells whose thread has a soldier's
lock. `life` is an exact integer: where the board stays in order, it does not leave the range of
an `int` (`Lives.decrement`). -/
structure State where
  occupant : Tile → Option ℕ
  soldierCount : BitVec 32
  idCounter : BitVec 32
  created : ℕ
  row : ℕ → ℤ
  col : ℕ → ℤ
  life : ℕ → ℤ
  id : ℕ → BitVec 32
  lock : ℕ → Option ℕ
  pc : ℕ → Pc

/-- What is seen of a run. -/
inductive Event where
  /-- Soldier `i` has the tiles swap their occupants. -/
  | swap (i : ℕ) (here headingTo : Tile)
  /-- `decrementLife()` of soldier `k` returns `life` to soldier `i`. -/
  | attacked (i k : ℕ) (life : ℤ)
  deriving DecidableEq

def State.goto (s : State) (i : ℕ) (pc : Pc) : State := {s with pc := Function.update s.pc i pc}

def State.setLock (s : State) (k : ℕ) (holder : Option ℕ) : State :=
  {s with lock := Function.update s.lock k holder}

def State.setOccupant (s : State) (t : Tile) (occupant : Option ℕ) : State :=
  {s with occupant := Function.update s.occupant t occupant}

/-- `this.swapOccupants(other)` -/
def State.swapOccupants (s : State) (this other : Tile) : State :=
  (s.setOccupant this (s.occupant other)).setOccupant other (s.occupant this)

/-- `i.equals(k)` -/
def State.equals (s : State) (i k : ℕ) : Prop := i = k ∨ s.id i = s.id k

instance (s : State) (i k : ℕ) : Decidable (s.equals i k) := inferInstanceAs (Decidable (_ ∨ _))

/-- An empty board. -/
def empty (idCounter : BitVec 32) : State :=
  ⟨fun _ => none, 0, idCounter, 0, fun _ => 0, fun _ => 0, fun _ => 0, fun _ => 0, fun _ => none,
    fun _ => .getLife⟩

/-- `addSoldier(r, c)`, which throws outside the grid. -/
def addSoldier (G : Grid) (s : State) (p : ℤ × ℤ) : Option State :=
  (G.getRC p.1 p.2).map fun t =>
    { s.setOccupant t (some s.created) with
      soldierCount := s.soldierCount + 1
      idCounter := s.idCounter + 1
      created := s.created + 1
      row := Function.update s.row s.created p.1
      col := Function.update s.col s.created p.2
      life := Function.update s.life s.created 2
      id := Function.update s.id s.created s.idCounter }

/-- The next atomic step of the thread of soldier `i`; `d` is what `random.nextInt(4)` gives,
where it is asked. -/
def turn (G : Grid) (s : State) (i : ℕ) (d : Direction) : Option (Option Event × State) :=
  match s.pc i with
  | .getLife =>
    if s.lock i = none then some (none, s.goto i (if s.life i > 0 then .position else .done)) else none
  | .position =>
    if s.lock i = none then some (none, s.goto i (.scan (s.row i) (s.col i) directions)) else none
  | .scan r c [] => some (none, s.goto i (.lockSelf r c))
  | .scan r c (dir :: dirs) =>
    match dir.getRelative G r c with
    | none => some (none, s.goto i (.scan r c dirs))
    | some there =>
      match s.occupant there with
      | none => some (none, s.goto i (.scan r c dirs))
      | some whoIsThere =>
        if s.equals whoIsThere i then some (none, s.goto i (.scan r c dirs))
        else some (none, s.goto i (.attack whoIsThere))
  | .attack k =>
    if s.lock k = none then some (none, (s.setLock k (some i)).goto i (.decrement k)) else none
  | .decrement k =>
    some (none, {s with life := Function.update s.life k (s.life k - 1)}.goto i
      (if s.life k - 1 = 0 then .count k else .release k))
  | .count k => some (none, {s with soldierCount := s.soldierCount - 1}.goto i (.clear k))
  | .clear k =>
    match G.getRC (s.row k) (s.col k) with
    | some t => some (none, (s.setOccupant t none).goto i (.release k))
    | none => some (none, (s.setLock k none).goto i .thrown)
  | .release k => some (some (.attacked i k (s.life k)), (s.setLock k none).goto i .getLife)
  | .lockSelf r c =>
    if s.lock i = none then some (none, (s.setLock i (some i)).goto i (.choose r c)) else none
  | .choose r c =>
    match d.getRelative G r c with
    | none => some (none, s)
    | some headingTo => some (none, s.goto i (.swap r c headingTo))
  | .swap r c headingTo =>
    match G.getRC r c with
    | some here =>
      some (some (.swap i here headingTo), (s.swapOccupants headingTo here).goto i (.setPos headingTo))
    | none => some (none, (s.setLock i none).goto i .thrown)
  | .setPos headingTo =>
    some (none, { s with
      row := Function.update s.row i headingTo.1
      col := Function.update s.col i headingTo.2 }.goto i .unlockSelf)
  | .unlockSelf => some (none, (s.setLock i none).goto i .getLife)
  | .done => none
  | .thrown => none

/-- The soldiers' threads, from a board on which they have been added. -/
def machine (G : Grid) (s₀ : State) : Machine State (ℕ × Direction) Event where
  initial := s₀
  next := fun s x => if x.1 < s.created then turn G s x.1 x.2 else none

/-- No soldier's lock is held. -/
def Quiet (s : State) : Prop := ∀ i < s.created, s.lock i = none

/-- The living are each on one tile, the one at their own position, and the dead on none. -/
def Consistent (s : State) : Prop :=
  ∀ i < s.created, (s.life i > 0 → ∀ t, s.occupant t = some i ↔ t = (s.row i, s.col i)) ∧
    (s.life i ≤ 0 → ∀ t, s.occupant t ≠ some i)

/-- A swap displaces nobody: the tile moved to is free, and on the other is the soldier that
moves, or nobody. -/
def Undisturbed (s : State) : Option Event → Prop
  | some (.swap i here headingTo) =>
    s.occupant headingTo = none ∧ (s.occupant here = some i ∨ s.occupant here = none)
  | _ => True

instance (s : State) : DecidablePred (Undisturbed s)
  | some (.swap _ _ _) => inferInstanceAs (Decidable (_ ∧ (_ ∨ _)))
  | some (.attacked _ _ _) => isTrue trivial
  | none => isTrue trivial

/-! ### The invariant -/

/-- The soldier whose lock the thread of soldier `i` has. -/
def Pc.held (i : ℕ) : Pc → Option ℕ
  | .decrement k => some k
  | .count k => some k
  | .clear k => some k
  | .release k => some k
  | .choose _ _ => some i
  | .swap _ _ _ => some i
  | .setPos _ => some i
  | .unlockSelf => some i
  | _ => none

/-- Where a soldier with this `life` and position is on the board, by where the thread that
has its lock stands, if any: it has still to be removed when it has fallen, and has moved on
already when its position is about to be set. -/
def placeOf (holder : Option Pc) (life : ℤ) (position : Tile) : Option Tile :=
  match holder with
  | some (.count _) => some position
  | some (.clear _) => some position
  | some (.setPos headingTo) => if 0 < life then some headingTo else none
  | _ => if 0 < life then some position else none

def State.place (s : State) (k : ℕ) : Option Tile :=
  placeOf ((s.lock k).map s.pc) (s.life k) (s.row k, s.col k)

/-- What holds of the thread of soldier `i` by where it stands. -/
def At (G : Grid) (s : State) (i : ℕ) : Pc → Prop
  | .scan r c _ => r = s.row i ∧ c = s.col i
  | .lockSelf r c => r = s.row i ∧ c = s.col i
  | .choose r c => r = s.row i ∧ c = s.col i
  | .swap r c headingTo => r = s.row i ∧ c = s.col i ∧ G.inBounds headingTo.1 headingTo.2
  | .setPos headingTo => G.inBounds headingTo.1 headingTo.2
  | .count k => s.life k = 0
  | .clear k => s.life k = 0
  | _ => True

/-- The locks are held by those who stand inside the blocks, and every soldier is where it
should be. -/
structure Inv (G : Grid) (s : State) : Prop where
  held : ∀ k i, s.lock k = some i ↔ (s.pc i).held i = some k
  bounds : ∀ k < s.created, G.inBounds (s.row k) (s.col k)
  tiles : ∀ t k, s.occupant t = some k → G.inBounds t.1 t.2
  thread : ∀ i, At G s i (s.pc i)
  board : Placed s.occupant s.place

variable {G : Grid} {s s' : State} {i k : ℕ} {pc : Pc} {l : Option Event} {d : Direction}

theorem Inv.at_of_pc (h : Inv G s) (hp : s.pc i = pc) : At G s i pc := hp ▸ h.thread i

/-- **When no lock is held, board and soldiers agree.** -/
theorem Inv.consistent (h : Inv G s) (hq : Quiet s) : Consistent s := by
  intro k hk
  have hplace : s.place k = if 0 < s.life k then some (s.row k, s.col k) else none := by
    rw [State.place, hq k hk]
    rfl
  refine ⟨fun hlife t => ?_, fun hlife t ht => ?_⟩
  · rw [h.board, hplace, if_pos hlife, Option.some.injEq, eq_comm]
  · rw [h.board, hplace, if_neg (by omega)] at ht
    cases ht

theorem getRC_of_inBounds {r c : ℤ} (h : G.inBounds r c) : G.getRC r c = some (r, c) := by
  obtain ⟨h₁, h₂, h₃, h₄⟩ := h
  rw [Grid.getRC, if_pos ⟨h₁, h₂, h₃, h₄⟩, min_eq_left h₂, min_eq_left h₄, max_eq_right h₁, max_eq_right h₃]

theorem getRC_eq_some {r c : ℤ} {t : Tile} (h : G.getRC r c = some t) : G.inBounds r c ∧ t = (r, c) := by
  by_cases hb : G.inBounds r c
  · rw [getRC_of_inBounds hb, Option.some.injEq] at h
    exact ⟨hb, h.symm⟩
  · rw [Grid.getRC, if_neg hb] at h
    cases h

theorem inBounds_of_getRC {r c : ℤ} {t : Tile} (h : G.getRC r c = some t) : G.inBounds t.1 t.2 := by
  obtain ⟨hb, rfl⟩ := getRC_eq_some h
  exact hb

/-- A soldier whose lock the thread of `i` does not have is where it was after a step of `i`. -/
theorem place_eq {j : ℕ} (hpc : s'.pc = Function.update s.pc i pc) (hlock : s'.lock j = s.lock j)
    (hne : s.lock j ≠ some i) (hlife : s'.life j = s.life j) (hrow : s'.row j = s.row j)
    (hcol : s'.col j = s.col j) : s'.place j = s.place j := by
  have hholder : (s'.lock j).map s'.pc = (s.lock j).map s.pc := by
    rw [hlock]
    cases ho : s.lock j with
    | none => rfl
    | some x =>
      have hx : x ≠ i := fun hx => hne (hx ▸ ho)
      rw [Option.map_some, Option.map_some, hpc, Function.update_of_ne hx]
  rw [State.place, hholder, hlife, hrow, hcol, State.place]

/-- A thread that has no lock goes on without one. -/
theorem Inv.goto (h : Inv G s) (hheld : (s.pc i).held i = none) (hheld' : pc.held i = none) (hat : At G s i pc) :
    Inv G (s.goto i pc) where
  held := fun k => (Function.forall_update_iff s.pc fun j p => s.lock k = some j ↔ p.held j = some k).mpr
    ⟨by rw [h.held, hheld, hheld'], fun j _ => h.held k j⟩
  bounds := h.bounds
  tiles := h.tiles
  thread := (Function.forall_update_iff s.pc (At G s)).mpr ⟨hat, fun j _ => h.thread j⟩
  board := by
    have hplace : (s.goto i pc).place = s.place := funext fun k => by
      refine place_eq rfl rfl (fun hk => ?_) rfl rfl rfl
      rw [h.held, hheld] at hk
      cases hk
    rw [hplace]
    exact h.board

/-- What holds of a thread that takes no part in a step: its soldier's position stays, and so does
the `life` of the soldier whose lock it has. -/
theorem At.congr (h : At G s i pc) (hrow : s'.row i = s.row i) (hcol : s'.col i = s.col i)
    (hlife : ∀ k, pc.held i = some k → s'.life k = s.life k) : At G s' i pc := by
  cases pc with
  | count k => exact (hlife k rfl).trans h
  | clear k => exact (hlife k rfl).trans h
  | scan r c dirs => rwa [At, hrow, hcol]
  | lockSelf r c => rwa [At, hrow, hcol]
  | choose r c => rwa [At, hrow, hcol]
  | swap r c headingTo => rwa [At, hrow, hcol]
  | setPos headingTo => exact h
  | _ => trivial

/-- A step of the thread of `i` that concerns soldier `k`, whose lock it has before or after. -/
theorem Inv.update (h : Inv G s) (hpc : s'.pc = Function.update s.pc i pc)
    (hfree : s.lock k = none ∨ s.lock k = some i) (hheld : ∀ j, (s.pc i).held i = some j → j = k)
    (hheld' : ∀ j, pc.held i = some j → j = k)
    (hlock : s'.lock = Function.update s.lock k (if pc.held i = some k then some i else none))
    (hcreated : s'.created = s.created) (hlife : ∀ j, j ≠ k → s'.life j = s.life j)
    (hpos : ∀ j, j ≠ k ∨ j ≠ i → s'.row j = s.row j ∧ s'.col j = s.col j)
    (hbounds : k < s.created → G.inBounds (s'.row k) (s'.col k))
    (htiles : ∀ t j, s'.occupant t = some j → G.inBounds t.1 t.2) (hat : At G s' i pc)
    (hboard : Placed s'.occupant (Function.update s.place k
      (placeOf (if pc.held i = some k then some pc else none) (s'.life k) (s'.row k, s'.col k)))) :
    Inv G s' := by
  have hother : ∀ j, j ≠ i → s'.pc j = s.pc j := fun j hj => by rw [hpc, Function.update_of_ne hj]
  have hself : s'.pc i = pc := by rw [hpc, Function.update_self]
  -- nobody but `i` has the lock of `k`
  have hmine : ∀ j, j ≠ i → (s.pc j).held j ≠ some k := fun j hj hk => by
    rw [← h.held] at hk
    rcases hfree with hf | hf
    · rw [hf] at hk
      cases hk
    · exact hj (Option.some.inj (hk.symm.trans hf))
  refine ⟨fun m j => ?_, fun m hm => ?_, htiles, fun j => ?_, ?_⟩
  · by_cases hj : j = i
    · subst hj
      rw [hself, hlock]
      by_cases hm : m = k
      · subst hm
        rw [Function.update_self]
        split_ifs with hp
        · simp [hp]
        · simp [hp]
      · rw [Function.update_of_ne hm, h.held]
        exact iff_of_false (fun hp => hm (hheld m hp)) fun hp => hm (hheld' m hp)
    · rw [hother j hj, hlock]
      by_cases hm : m = k
      · subst hm
        rw [Function.update_self]
        refine iff_of_false (fun hp => ?_) (hmine j hj)
        split_ifs at hp with hk
        exact hj (Option.some.inj hp).symm
      · rw [Function.update_of_ne hm]
        exact h.held m j
  · rw [hcreated] at hm
    by_cases hmk : m = k
    · subst hmk
      exact hbounds hm
    · obtain ⟨hrow, hcol⟩ := hpos m (.inl hmk)
      rw [hrow, hcol]
      exact h.bounds m hm
  · by_cases hj : j = i
    · subst hj
      rwa [hself]
    · rw [hother j hj]
      obtain ⟨hrow, hcol⟩ := hpos j (.inr hj)
      exact (h.thread j).congr hrow hcol fun m hm => hlife m fun hmk => hmine j hj (hmk ▸ hm)
  · have hplace : s'.place = Function.update s.place k
        (placeOf (if pc.held i = some k then some pc else none) (s'.life k) (s'.row k, s'.col k)) := by
      funext m
      by_cases hm : m = k
      · subst hm
        rw [Function.update_self, State.place, hlock, Function.update_self]
        split_ifs
        · rw [Option.map_some, hself]
        · rfl
      · obtain ⟨hrow, hcol⟩ := hpos m (.inl hm)
        rw [Function.update_of_ne hm]
        refine place_eq hpc (by rw [hlock, Function.update_of_ne hm]) (fun hi => ?_) (hlife m hm) hrow hcol
        rw [h.held] at hi
        exact hm (hheld m hi)
    rwa [hplace]

/-- Such a step that leaves the board and the positions alone, and the soldier where it is. -/
theorem Inv.keep (h : Inv G s) (hpc : s'.pc = Function.update s.pc i pc)
    (hfree : s.lock k = none ∨ s.lock k = some i) (hheld : ∀ j, (s.pc i).held i = some j → j = k)
    (hheld' : ∀ j, pc.held i = some j → j = k)
    (hlock : s'.lock = Function.update s.lock k (if pc.held i = some k then some i else none))
    (hcreated : s'.created = s.created) (hlife : ∀ j, j ≠ k → s'.life j = s.life j)
    (hrow : s'.row = s.row) (hcol : s'.col = s.col) (hoccupant : s'.occupant = s.occupant) (hat : At G s' i pc)
    (hplace : placeOf (if pc.held i = some k then some pc else none) (s'.life k) (s.row k, s.col k) =
      s.place k) : Inv G s' := by
  refine h.update hpc hfree hheld hheld' hlock hcreated hlife (fun j _ => ?_) (fun hk => ?_) ?_ hat ?_
  · rw [hrow, hcol]
    exact ⟨rfl, rfl⟩
  · rw [hrow, hcol]
    exact h.bounds k hk
  · rw [hoccupant]
    exact h.tiles
  · rw [hrow, hcol, hplace, Function.update_eq_self, hoccupant]
    exact h.board

theorem place_of_free (hlock : s.lock k = none) : s.place k = placeOf none (s.life k) (s.row k, s.col k) := by
  rw [State.place, hlock]
  rfl

theorem place_of_held (hlock : s.lock k = some i) (hp : s.pc i = pc) :
    s.place k = placeOf (some pc) (s.life k) (s.row k, s.col k) := by
  rw [State.place, hlock, Option.map_some, hp]

/-- Taking a lock. -/
theorem Inv.acquire (h : Inv G s) (hheld : (s.pc i).held i = none) (hfree : s.lock k = none)
    (hheld' : pc.held i = some k) (hat : At G s i pc)
    (hplace : ∀ life t, placeOf (some pc) life t = placeOf none life t) :
    Inv G ((s.setLock k (some i)).goto i pc) := by
  refine h.keep rfl (.inl hfree) (fun j hj => ?_) (fun j hj => ?_) ?_ rfl (fun _ _ => rfl) rfl rfl rfl hat ?_
  · rw [hheld] at hj
    cases hj
  · exact Option.some.inj (hj.symm.trans hheld')
  · rw [if_pos hheld']
    rfl
  · rw [if_pos hheld', hplace, place_of_free hfree]
    rfl

/-- Releasing a lock. -/
theorem Inv.release {pc' : Pc} (h : Inv G s) (hp : s.pc i = pc) (hheld : pc.held i = some k)
    (hheld' : pc'.held i = none) (hat : At G s i pc')
    (hplace : ∀ life t, placeOf (some pc) life t = placeOf none life t) :
    Inv G ((s.setLock k none).goto i pc') := by
  have hlock : s.lock k = some i := (h.held k i).mpr (hp ▸ hheld)
  refine h.keep rfl (.inr hlock) (fun j hj => ?_) (fun j hj => ?_) ?_ rfl (fun _ _ => rfl) rfl rfl rfl hat ?_
  · rw [hp, hheld] at hj
    exact (Option.some.inj hj).symm
  · rw [hheld'] at hj
    cases hj
  · rw [hheld', if_neg (by simp)]
    rfl
  · rw [hheld', if_neg (by simp), place_of_held hlock hp, hplace]
    rfl

/-- Going on with a lock. -/
theorem Inv.hold {pc' : Pc} (h : Inv G s) (hp : s.pc i = pc) (hheld : pc.held i = some k)
    (hheld' : pc'.held i = some k) (hpc : s'.pc = Function.update s.pc i pc') (hlock : s'.lock = s.lock)
    (hcreated : s'.created = s.created) (hlife : ∀ j, j ≠ k → s'.life j = s.life j)
    (hpos : ∀ j, j ≠ k ∨ j ≠ i → s'.row j = s.row j ∧ s'.col j = s.col j)
    (hbounds : k < s.created → G.inBounds (s'.row k) (s'.col k))
    (htiles : ∀ t j, s'.occupant t = some j → G.inBounds t.1 t.2) (hat : At G s' i pc')
    (hboard : Placed s'.occupant
      (Function.update s.place k (placeOf (some pc') (s'.life k) (s'.row k, s'.col k)))) : Inv G s' := by
  have hmine : s.lock k = some i := (h.held k i).mpr (hp ▸ hheld)
  refine h.update hpc (.inr hmine) (fun j hj => ?_) (fun j hj => ?_) ?_ hcreated hlife hpos hbounds htiles hat ?_
  · rw [hp, hheld] at hj
    exact (Option.some.inj hj).symm
  · exact Option.some.inj (hj.symm.trans hheld')
  · rw [hlock, if_pos hheld', ← hmine, Function.update_eq_self]
  · rwa [if_pos hheld']

/-- Going on with a lock without touching the board or a position, the soldier staying where it is. -/
theorem Inv.hold_place {pc' : Pc} (h : Inv G s) (hp : s.pc i = pc) (hheld : pc.held i = some k)
    (hheld' : pc'.held i = some k) (hpc : s'.pc = Function.update s.pc i pc') (hlock : s'.lock = s.lock)
    (hcreated : s'.created = s.created) (hlife : ∀ j, j ≠ k → s'.life j = s.life j)
    (hrow : s'.row = s.row) (hcol : s'.col = s.col) (hoccupant : s'.occupant = s.occupant) (hat : At G s' i pc')
    (hplace : placeOf (some pc') (s'.life k) (s.row k, s.col k) =
      placeOf (some pc) (s.life k) (s.row k, s.col k)) : Inv G s' := by
  have hmine : s.lock k = some i := (h.held k i).mpr (hp ▸ hheld)
  refine h.hold hp hheld hheld' hpc hlock hcreated hlife (fun j _ => ?_) (fun hk => ?_) ?_ hat ?_
  · rw [hrow, hcol]
    exact ⟨rfl, rfl⟩
  · rw [hrow, hcol]
    exact h.bounds k hk
  · rw [hoccupant]
    exact h.tiles
  · rw [hrow, hcol, hplace, ← place_of_held hmine hp, Function.update_eq_self, hoccupant]
    exact h.board

/-- A soldier that has fallen is taken off its tile. -/
theorem Inv.clear (h : Inv G s) (hp : s.pc i = .clear k) :
    G.getRC (s.row k) (s.col k) = some (s.row k, s.col k) ∧
      Inv G ((s.setOccupant (s.row k, s.col k) none).goto i (.release k)) := by
  have hmine : s.lock k = some i := (h.held k i).mpr (by rw [hp]; rfl)
  have hlife : s.life k = 0 := h.at_of_pc hp
  have hplace : s.place k = some (s.row k, s.col k) := place_of_held hmine hp
  have hnone : placeOf (some (.release k)) (s.life k) (s.row k, s.col k) = none := by simp [placeOf, hlife]
  refine ⟨getRC_of_inBounds (h.tiles _ k ((h.board ..).mpr hplace)), ?_⟩
  refine h.hold hp rfl rfl rfl rfl rfl (fun _ _ => rfl) (fun _ _ => ⟨rfl, rfl⟩) (h.bounds k) (fun t j ht => ?_)
    trivial ?_
  · have ht : Function.update s.occupant (s.row k, s.col k) none t = some j := ht
    rw [Function.update_apply] at ht
    split_ifs at ht
    exact h.tiles t j ht
  · have hboard := h.board.remove hplace
    rwa [← hnone] at hboard

theorem swapOccupants_of_some {this other : Tile} (hthis : s.occupant this = none)
    (hother : s.occupant other = some i) : (s.swapOccupants this other).occupant =
      Function.update (Function.update s.occupant other none) this (some i) := by
  have hne : this ≠ other := fun he => by
    rw [he, hother] at hthis
    cases hthis
  simp only [State.swapOccupants, State.setOccupant, hthis, hother]
  exact Function.update_comm hne ..

theorem swapOccupants_of_none {this other : Tile} (hthis : s.occupant this = none)
    (hother : s.occupant other = none) : (s.swapOccupants this other).occupant = s.occupant := by
  have hupdate : ∀ t, s.occupant t = none → Function.update s.occupant t none = s.occupant := fun t ht => by
    rw [← ht, Function.update_eq_self]
  simp only [State.swapOccupants, State.setOccupant, hthis, hother, hupdate]

/-- A soldier moves to a free tile, or one that has fallen to no effect. -/
theorem Inv.swap {r c : ℤ} {headingTo : Tile} (h : Inv G s) (hp : s.pc i = .swap r c headingTo)
    (hfree : s.occupant headingTo = none) (hhere : s.occupant (r, c) = some i ∨ s.occupant (r, c) = none) :
    Inv G ((s.swapOccupants headingTo (r, c)).goto i (.setPos headingTo)) := by
  have hmine : s.lock i = some i := (h.held i i).mpr (by rw [hp]; rfl)
  obtain ⟨rfl, rfl, hin⟩ := h.at_of_pc hp
  have hplace : s.place i = if 0 < s.life i then some (s.row i, s.col i) else none := place_of_held hmine hp
  have hplace' : placeOf (some (.setPos headingTo)) (s.life i) (s.row i, s.col i) =
      if 0 < s.life i then some headingTo else none := rfl
  by_cases hlife : 0 < s.life i
  · rw [if_pos hlife] at hplace hplace'
    have hocc := swapOccupants_of_some hfree ((h.board ..).mpr hplace)
    refine h.hold hp rfl rfl rfl rfl rfl (fun _ _ => rfl) (fun _ _ => ⟨rfl, rfl⟩) (h.bounds i) (fun t j ht => ?_)
      hin ?_
    · have ht : (s.swapOccupants headingTo (s.row i, s.col i)).occupant t = some j := ht
      rw [hocc, Function.update_apply, Function.update_apply] at ht
      split_ifs at ht with htile
      · exact htile ▸ hin
      · exact h.tiles t j ht
    · have hboard := h.board.move hplace hfree
      rwa [← hocc, ← hplace'] at hboard
  · rw [if_neg hlife] at hplace hplace'
    have hnone : s.occupant (s.row i, s.col i) = none := hhere.resolve_left fun hi => by
      rw [h.board, hplace] at hi
      cases hi
    have hocc := swapOccupants_of_none hfree hnone
    have htiles : ∀ t j, (s.swapOccupants headingTo (s.row i, s.col i)).occupant t = some j →
        G.inBounds t.1 t.2 := by
      rw [hocc]
      exact h.tiles
    refine h.hold hp rfl rfl rfl rfl rfl (fun _ _ => rfl) (fun _ _ => ⟨rfl, rfl⟩) (h.bounds i) htiles hin ?_
    have hboard := h.board
    rwa [← hocc, ← Function.update_eq_self i s.place, hplace, ← hplace'] at hboard

/-- The position of a soldier is set to where it has moved. -/
theorem Inv.setPos {headingTo : Tile} (h : Inv G s) (hp : s.pc i = .setPos headingTo) :
    Inv G ({ s with
      row := Function.update s.row i headingTo.1
      col := Function.update s.col i headingTo.2 }.goto i .unlockSelf) := by
  have hmine : s.lock i = some i := (h.held i i).mpr (by rw [hp]; rfl)
  have hin : G.inBounds headingTo.1 headingTo.2 := h.at_of_pc hp
  have hplace : s.place i = placeOf (some .unlockSelf) (s.life i) headingTo := place_of_held hmine hp
  refine h.hold hp rfl rfl rfl rfl rfl (fun _ _ => rfl) (fun j hj => ?_) (fun _ => ?_) h.tiles trivial ?_
  · have hji : j ≠ i := by simpa using hj
    exact ⟨Function.update_of_ne hji .., Function.update_of_ne hji ..⟩
  · simpa [State.goto] using hin
  · simp only [State.goto, Function.update_self]
    rw [← hplace, Function.update_eq_self]
    exact h.board

/-- Looking at the next tile, a soldier goes on to the one after it or attacks whom it sees. -/
theorem turn_scan {r c : ℤ} {dir : Direction} {dirs : List Direction} (hp : s.pc i = .scan r c (dir :: dirs))
    (hstep : turn G s i d = some (l, s')) :
    ∃ pc, (pc = .scan r c dirs ∨ ∃ k t, s.occupant t = some k ∧ pc = .attack k) ∧ s' = s.goto i pc := by
  simp only [turn, hp] at hstep
  cases hthere : dir.getRelative G r c with
  | none =>
    simp only [hthere, Option.some.injEq, Prod.mk.injEq] at hstep
    exact ⟨_, .inl rfl, hstep.2.symm⟩
  | some there =>
    cases hwho : s.occupant there with
    | none =>
      simp only [hthere, hwho, Option.some.injEq, Prod.mk.injEq] at hstep
      exact ⟨_, .inl rfl, hstep.2.symm⟩
    | some whoIsThere =>
      simp only [hthere, hwho] at hstep
      split_ifs at hstep
      · simp only [Option.some.injEq, Prod.mk.injEq] at hstep
        exact ⟨_, .inl rfl, hstep.2.symm⟩
      · simp only [Option.some.injEq, Prod.mk.injEq] at hstep
        exact ⟨_, .inr ⟨_, _, hwho, rfl⟩, hstep.2.symm⟩

/-- **Every step keeps the invariant**, if a swap displaces nobody. -/
theorem Inv.turn (h : Inv G s) (hi : i < s.created) (hl : Undisturbed s l)
    (hstep : turn G s i d = some (l, s')) : Inv G s' := by
  cases hp : s.pc i with
  | getLife =>
    simp only [ToySoldiersSim.turn, hp] at hstep
    split_ifs at hstep
    · simp only [Option.some.injEq, Prod.mk.injEq] at hstep
      obtain ⟨rfl, rfl⟩ := hstep
      exact h.goto (by rw [hp]; rfl) rfl trivial
    · simp only [Option.some.injEq, Prod.mk.injEq] at hstep
      obtain ⟨rfl, rfl⟩ := hstep
      exact h.goto (by rw [hp]; rfl) rfl trivial
  | position =>
    simp only [ToySoldiersSim.turn, hp] at hstep
    split_ifs at hstep
    simp only [Option.some.injEq, Prod.mk.injEq] at hstep
    obtain ⟨rfl, rfl⟩ := hstep
    exact h.goto (by rw [hp]; rfl) rfl ⟨rfl, rfl⟩
  | scan r c dirs =>
    have hat : r = s.row i ∧ c = s.col i := h.at_of_pc hp
    cases dirs with
    | nil =>
      simp only [ToySoldiersSim.turn, hp, Option.some.injEq, Prod.mk.injEq] at hstep
      obtain ⟨rfl, rfl⟩ := hstep
      exact h.goto (by rw [hp]; rfl) rfl hat
    | cons dir dirs =>
      obtain ⟨pc, hpc, rfl⟩ := turn_scan hp hstep
      rcases hpc with rfl | ⟨k, _, _, rfl⟩
      · exact h.goto (by rw [hp]; rfl) rfl hat
      · exact h.goto (by rw [hp]; rfl) rfl trivial
  | attack k =>
    simp only [ToySoldiersSim.turn, hp] at hstep
    split_ifs at hstep with hfree
    simp only [Option.some.injEq, Prod.mk.injEq] at hstep
    obtain ⟨rfl, rfl⟩ := hstep
    exact h.acquire (by rw [hp]; rfl) hfree rfl trivial fun _ _ => rfl
  | decrement k =>
    simp only [ToySoldiersSim.turn, hp, Option.some.injEq, Prod.mk.injEq] at hstep
    obtain ⟨rfl, rfl⟩ := hstep
    have hlife : ∀ j, j ≠ k → Function.update s.life k (s.life k - 1) j = s.life j := fun j hj =>
      Function.update_of_ne hj ..
    have hself : Function.update s.life k (s.life k - 1) k = s.life k - 1 := Function.update_self ..
    split_ifs with hzero
    · -- it falls, and is still on its tile
      have hone : 0 < s.life k := by omega
      exact h.hold_place hp rfl rfl rfl rfl rfl hlife rfl rfl rfl (hself.trans hzero) (by simp [placeOf, hone])
    · have hiff : 1 < s.life k ↔ 0 < s.life k := by omega
      refine h.hold_place hp rfl rfl rfl rfl rfl hlife rfl rfl rfl trivial ?_
      simp [State.goto, placeOf, hiff]
  | count k =>
    have hlife : s.life k = 0 := h.at_of_pc hp
    simp only [ToySoldiersSim.turn, hp, Option.some.injEq, Prod.mk.injEq] at hstep
    obtain ⟨rfl, rfl⟩ := hstep
    exact h.hold_place hp rfl rfl rfl rfl rfl (fun _ _ => rfl) rfl rfl rfl hlife rfl
  | clear k =>
    obtain ⟨hrc, hinv⟩ := h.clear hp
    simp only [ToySoldiersSim.turn, hp, hrc, Option.some.injEq, Prod.mk.injEq] at hstep
    obtain ⟨rfl, rfl⟩ := hstep
    exact hinv
  | release k =>
    simp only [ToySoldiersSim.turn, hp, Option.some.injEq, Prod.mk.injEq] at hstep
    obtain ⟨rfl, rfl⟩ := hstep
    exact h.release hp rfl rfl trivial fun _ _ => rfl
  | lockSelf r c =>
    have hat : r = s.row i ∧ c = s.col i := h.at_of_pc hp
    simp only [ToySoldiersSim.turn, hp] at hstep
    split_ifs at hstep with hfree
    simp only [Option.some.injEq, Prod.mk.injEq] at hstep
    obtain ⟨rfl, rfl⟩ := hstep
    exact h.acquire (by rw [hp]; rfl) hfree rfl hat fun _ _ => rfl
  | choose r c =>
    have hat : r = s.row i ∧ c = s.col i := h.at_of_pc hp
    cases ht : d.getRelative G r c with
    | none =>
      simp only [ToySoldiersSim.turn, hp, ht, Option.some.injEq, Prod.mk.injEq] at hstep
      obtain ⟨rfl, rfl⟩ := hstep
      exact h
    | some headingTo =>
      simp only [ToySoldiersSim.turn, hp, ht, Option.some.injEq, Prod.mk.injEq] at hstep
      obtain ⟨rfl, rfl⟩ := hstep
      exact h.hold_place hp rfl rfl rfl rfl rfl (fun _ _ => rfl) rfl rfl rfl
        ⟨hat.1, hat.2, inBounds_of_getRC ht⟩ rfl
  | swap r c headingTo =>
    obtain ⟨hr, hc, _⟩ : At G s i (.swap r c headingTo) := h.at_of_pc hp
    have hrc : G.getRC r c = some (r, c) := getRC_of_inBounds (hr ▸ hc ▸ h.bounds i hi)
    simp only [ToySoldiersSim.turn, hp, hrc, Option.some.injEq, Prod.mk.injEq] at hstep
    obtain ⟨rfl, rfl⟩ := hstep
    exact h.swap hp hl.1 hl.2
  | setPos headingTo =>
    simp only [ToySoldiersSim.turn, hp, Option.some.injEq, Prod.mk.injEq] at hstep
    obtain ⟨rfl, rfl⟩ := hstep
    exact h.setPos hp
  | unlockSelf =>
    simp only [ToySoldiersSim.turn, hp, Option.some.injEq, Prod.mk.injEq] at hstep
    obtain ⟨rfl, rfl⟩ := hstep
    exact h.release hp rfl rfl trivial fun _ _ => rfl
  | done => simp [ToySoldiersSim.turn, hp] at hstep
  | thrown => simp [ToySoldiersSim.turn, hp] at hstep

/-! ### The soldiers are added -/

/-- Soldiers have been added on these tiles, and none has taken a step. -/
structure Gathered (G : Grid) (places : List Tile) (s : State) : Prop where
  inv : Inv G s
  lock : ∀ k, s.lock k = none
  pc : ∀ i, s.pc i = .getLife
  life : ∀ k, s.created ≤ k → s.life k = 0
  occupied : ∀ t k, s.occupant t = some k → t ∈ places

variable {places : List Tile} {t : Tile}

theorem gathered_empty (idCounter : BitVec 32) : Gathered G [] (empty idCounter) := by
  refine ⟨⟨fun k i => ?_, fun k hk => absurd hk (Nat.not_lt_zero k), fun t k ht => ?_, fun _ => trivial, ?_⟩,
    fun _ => rfl, fun _ => rfl, fun _ _ => rfl, fun t k ht => ?_⟩
  · exact iff_of_false (by simp [empty]) (by simp [empty, Pc.held])
  · cases ht
  · exact .empty
  · cases ht

/-- One more soldier, on a tile of its own. -/
theorem Gathered.add (h : Gathered G places s) (ht : t ∉ places) (hadd : addSoldier G s t = some s') :
    Gathered G (places ++ [t]) s' := by
  obtain ⟨t', hrc, rfl⟩ := Option.map_eq_some_iff.mp hadd
  obtain ⟨hin, rfl⟩ := getRC_eq_some hrc
  have hfree : s.occupant t = none := Option.eq_none_iff_forall_ne_some.mpr fun k hk => ht (h.occupied t k hk)
  have hplace : ∀ k, s.place k = placeOf none (s.life k) (s.row k, s.col k) := fun k => place_of_free (h.lock k)
  have hnone : s.place s.created = none := by
    rw [hplace, h.life _ le_rfl]
    rfl
  have hocc : ∀ u k, Function.update s.occupant t (some s.created) u = some k → u = t ∨ s.occupant u = some k :=
    fun u k hu => by
      rw [Function.update_apply] at hu
      split_ifs at hu with hut
      · exact .inl hut
      · exact .inr hu
  refine ⟨⟨h.inv.held, fun k hk => ?_, fun u k hu => ?_, fun i => ?_, ?_⟩, h.lock, h.pc, fun k hk => ?_,
    fun u k hu => ?_⟩
  · by_cases hk' : k = s.created
    · subst hk'
      simpa using hin
    · dsimp only
      rw [Function.update_of_ne hk', Function.update_of_ne hk']
      exact h.inv.bounds k (Nat.lt_of_le_of_ne (Nat.le_of_lt_succ hk) hk')
  · rcases hocc u k hu with rfl | hu
    · exact hin
    · exact h.inv.tiles u k hu
  · dsimp only [State.setOccupant]
    rw [h.pc]
    trivial
  · have hboard := h.inv.board.put hfree hnone
    convert hboard using 1
    · rfl
    · funext k
      simp only [State.place, State.setOccupant, h.lock, Option.map_none]
      by_cases hk : k = s.created
      · subst hk
        simp [placeOf]
      · simp only [Function.update_of_ne hk, hplace]
  · dsimp only at hk ⊢
    rw [Function.update_of_ne (by omega)]
    exact h.life k (by omega)
  · rcases hocc u k hu with rfl | hu
    · exact List.mem_append_right _ (List.mem_singleton_self _)
    · exact List.mem_append_left _ (h.occupied u k hu)

theorem Gathered.add_all (h : Gathered G places s) (ts : List Tile) (hnodup : (places ++ ts).Nodup)
    (hadd : ts.foldlM (addSoldier G) s = some s') : Gathered G (places ++ ts) s' := by
  induction ts generalizing places s with
  | nil =>
    cases hadd
    rwa [List.append_nil]
  | cons t ts ih =>
    rw [List.foldlM_cons] at hadd
    obtain ⟨s₁, hs₁, hadd⟩ := Option.bind_eq_some_iff.mp hadd
    rw [List.append_cons] at hnodup ⊢
    refine ih (h.add (fun ht => ?_) hs₁) hnodup hadd
    obtain ⟨hleft, _, _⟩ := List.nodup_append.mp hnodup
    exact (List.nodup_append.mp hleft).2.2 t ht t (List.mem_singleton_self t) rfl

/-- **Board and soldiers agree whenever no lock is held**, in every run whose swaps displace
nobody, however many soldiers have been added on different tiles. -/
theorem board_consistent (G : Grid) (idCounter : BitVec 32) (places : List Tile) (s₀ : State)
    (hadd : places.foldlM (addSoldier G) (empty idCounter) = some s₀) (hnodup : places.Nodup) (s : State)
    (hs : ((machine G s₀).system.guard Undisturbed).Reachable s) (hq : Quiet s) : Consistent s := by
  have h₀ : Inv G s₀ := ((gathered_empty idCounter).add_all places hnodup hadd).inv
  have h : Inv G s := hs.invariant (I := Inv G) h₀ ?_
  · exact h.consistent hq
  rintro s l s' h ⟨⟨⟨i, d⟩, hstep⟩, hl⟩
  simp only [machine] at hstep
  split_ifs at hstep with hi
  exact h.turn hi hl hstep

/-- Two soldiers at the ends of a row of three tiles, of which the first moves to the middle. -/
theorem board_consistent_two : ∃ s₀ s,
    [((0 : ℤ), (0 : ℤ)), (0, 2)].foldlM (addSoldier ⟨1, 3⟩) (empty 0) = some s₀ ∧
      0 < s.life 0 ∧ s.occupant (0, 1) = some 0 ∧ Consistent s := by
  obtain ⟨s₀, hadd⟩ := Option.isSome_iff_exists.mp
    (show ([((0 : ℤ), (0 : ℤ)), (0, 2)].foldlM (addSoldier ⟨1, 3⟩) (empty 0)).isSome = true from rfl)
  obtain ⟨s, hs, hq, hlife, hocc⟩ := Machine.exec_reachable (M := (machine ⟨1, 3⟩ s₀).guard Undisturbed)
    (P := fun s => (∀ i < s.created, s.lock i = none) ∧ 0 < s.life 0 ∧ s.occupant (0, 1) = some 0)
    (List.replicate 12 (0, .EAST)) (by
      obtain rfl := Option.some.inj (hadd.symm.trans rfl)
      decide)
  rw [Machine.system_guard] at hs
  exact ⟨s₀, s, hadd, hlife, hocc, board_consistent ⟨1, 3⟩ 0 _ s₀ hadd (by decide) s hs hq⟩

/-! ### What happens otherwise -/

/-- **Two soldiers meet**: both have seen the tile between them free. One moves there, and the
other then swaps with it, which leaves the first at a tile that is not at its position. -/
theorem board_disturbed : ∃ s₀,
    [((0 : ℤ), (0 : ℤ)), (0, 2)].foldlM (addSoldier ⟨1, 3⟩) (empty 0) = some s₀ ∧
      ∃ s, (machine ⟨1, 3⟩ s₀).system.Reachable s ∧ Quiet s ∧ ¬ Consistent s := by
  obtain ⟨s₀, hadd⟩ := Option.isSome_iff_exists.mp
    (show ([((0 : ℤ), (0 : ℤ)), (0, 2)].foldlM (addSoldier ⟨1, 3⟩) (empty 0)).isSome = true from rfl)
  refine ⟨s₀, hadd, ?_⟩
  obtain ⟨s, hs, hq, hcreated, hlife, hocc⟩ := Machine.exec_reachable (M := machine ⟨1, 3⟩ s₀)
    (P := fun s => (∀ i < s.created, s.lock i = none) ∧ 0 < s.created ∧ 0 < s.life 0 ∧
      s.occupant (s.row 0, s.col 0) ≠ some 0)
    (List.replicate 7 (0, .EAST) ++ List.replicate 7 (1, .WEST) ++ List.replicate 5 (0, .EAST) ++
      List.replicate 5 (1, .WEST)) (by
        obtain rfl := Option.some.inj (hadd.symm.trans rfl)
        decide)
  exact ⟨s, hs, hq, fun hc => hocc (((hc 0 hcreated).1 hlife _).mpr rfl)⟩

end ParSweet.ToySoldiersSim
