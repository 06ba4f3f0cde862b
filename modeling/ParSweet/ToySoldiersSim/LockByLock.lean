import ParSweet.ToySoldiersSim.Calls
import ParSweet.ToySoldiersSim.Lives

/-! What the soldiers' threads do lock by lock, they do block by block.

Soldiers are added, and a thread for each then calls its `run()`. However the steps of these
calls fall between one another, the board and the soldiers are in a state that the blocks of
`ToySoldiersSim.turn`, taken one at a time, get to as well (`Follows.step`): a block takes
effect where its last access is that others can see. The lives are Java's `int`s here and
exact integers there, which is the same as long as there are no more than `2 ^ 31` soldiers. -/
namespace ParSweet.ToySoldiersSim.Calls
open Concurrent

variable {G : Grid} {hash : Place G → ℤ} {idCounter : BitVec 32} {i j k : ℕ}

/-! ### The soldiers are added and run -/

/-- Soldiers are added one after the other, with nobody else about. -/
def Board.addAll (b : Board ℕ G) (ps : List (Place G)) : Board ℕ G := ps.foldl (fun b p => b.add 0 p) b

/-- Thread `i` calls `run()` of soldier `i`, and nobody calls anything else. -/
def RunsOwn (s : Implementation.State ℕ (Board ℕ G) (Local G)) : Option (Concurrent.Event ℕ (Op G) Res) → Prop
  | some (.call t op) => op = .run t ∧ t < s.store.roll.created
  | _ => True

/-- Whichever thread goes on, a swap displaces nobody. -/
def Undisturbed (s s' : Implementation.State ℕ (Board ℕ G) (Local G)) : Prop :=
  ∀ t l w, s.pc t = some l → l.pc = .swap w → s'.pc t ≠ some l →
    s.store.occupant w.this = none ∧
      (s.store.occupant w.other = some w.soldier ∨ s.store.occupant w.other = none)

/-! ### The two boards -/

/-- The soldiers and the tiles are the same. -/
structure Agrees (b : Board ℕ G) (c : ToySoldiersSim.State) : Prop where
  created : b.roll.created = c.created
  soldierCount : b.roll.soldierCount = c.soldierCount
  life : b.roll.life = c.life
  row : b.row = c.row
  col : b.col = c.col
  id : b.id = c.id
  idCounter : b.idCounter = c.idCounter
  occupant : ∀ p : Place G, b.occupant p = c.occupant p.val

section Agrees
variable {b : Board ℕ G} {c c' : ToySoldiersSim.State} (h : Agrees b c)
include h

/-- Who has which lock, and where the threads stand, is not part of it. -/
theorem Agrees.locks {holder : Lock G → Option ℕ} {dead : ℕ → Bool} {lock : ℕ → Option ℕ}
    {pc : ℕ → ToySoldiersSim.Pc} :
    Agrees {b with holder := holder, dead := dead} {c with lock := lock, pc := pc} :=
  ⟨h.created, h.soldierCount, h.life, h.row, h.col, h.id, h.idCounter, h.occupant⟩

theorem Agrees.equals (i k : ℕ) : b.equals i k = true ↔ c.equals i k := by
  unfold Board.equals
  rw [h.id, decide_eq_true_iff]
  exact Iff.rfl

end Agrees

/-- A tile is given another occupant. -/
theorem update_occupant {f : Place G → Option ℕ} {g : Tile → Option ℕ} (hfg : ∀ p : Place G, f p = g p.val)
    (t : Place G) (o : Option ℕ) (p : Place G) : Function.update f t o p = Function.update g t.val o p.val := by
  by_cases hp : p = t
  · subst hp
    rw [Function.update_self, Function.update_self]
  · have hval : p.val ≠ t.val := fun he => hp (Subtype.ext he)
    rw [Function.update_of_ne hp, Function.update_of_ne hval]
    exact hfg p

/-! ### Where a call stands in the blocks -/

/-- The thread of soldier `i` has no block open; `run()` has returned, and may be called again, only once
the life is used up. -/
def Idle (c : ToySoldiersSim.State) (i : ℕ) (pc : ToySoldiersSim.Pc) : Prop :=
  pc = .getLife ∨ pc = .done ∧ c.life i ≤ 0

/-- The tiles around. -/
def Move.Around (m : Move G) : Prop := ∀ d, (m.dirs d).map Subtype.val = d.getRelative G m.here.val.1 m.here.val.2

/-- A call of `run()` of soldier `i`, and where its thread stands when blocks are taken at a time. -/
inductive Shows (c : ToySoldiersSim.State) (i : ℕ) : Local G → ToySoldiersSim.Pc → Prop where
  | begin {pc} : Idle c i pc → Shows c i ⟨.outside, .begin (.run i)⟩ pc
  | lifeLock {pc} : Idle c i pc → Shows c i ⟨.run i .life, .lifeLock i⟩ pc
  | lifeReturn {pc} : Idle c i pc → Shows c i ⟨.run i .life, .lifeReturn i⟩ pc
  | living {n} : n > 0 → Shows c i ⟨.run i .life, .returned (.life n)⟩ .position
  | fallen {n} : ¬ n > 0 → c.life i ≤ 0 → Shows c i ⟨.run i .life, .returned (.life n)⟩ .done
  | returned : c.life i ≤ 0 → Shows c i ⟨.outside, .returned .void⟩ .done
  | positionLock : Shows c i ⟨.run i .position, .positionLock i⟩ .position
  | positionReturn : Shows c i ⟨.run i .position, .positionReturn i⟩ .position
  | position {r col} : Shows c i ⟨.run i .position, .returned (.position r col)⟩ (.scan r col directions)
  | occupantLock {r col dir rest there} : dir.getRelative G r col = some there.val →
      Shows c i ⟨.run i (.look r col rest), .occupantLock there⟩ (.scan r col (dir :: rest))
  | occupantReturn {r col dir rest there} : dir.getRelative G r col = some there.val →
      Shows c i ⟨.run i (.look r col rest), .occupantReturn there⟩ (.scan r col (dir :: rest))
  | nobody {r col rest} : Shows c i ⟨.run i (.look r col rest), .returned (.occupant none)⟩ (.scan r col rest)
  | itself {r col rest} {k : ℕ} : c.equals k i →
      Shows c i ⟨.run i (.look r col rest), .returned (.occupant (some k))⟩ (.scan r col rest)
  | somebody {r col rest} {k : ℕ} : ¬ c.equals k i →
      Shows c i ⟨.run i (.look r col rest), .returned (.occupant (some k))⟩ (.attack k)
  | decrementLock {k : ℕ} : Shows c i ⟨.run i .attack, .decrementLock k⟩ (.attack k)
  | decrement {k : ℕ} : Shows c i ⟨.run i .attack, .decrement k⟩ (.decrement k)
  | countLock {k : ℕ} : Shows c i ⟨.run i .attack, .countLock k⟩ (.count k)
  | countDown {k : ℕ} : Shows c i ⟨.run i .attack, .countDown k⟩ (.count k)
  | countSignal {k : ℕ} : Shows c i ⟨.run i .attack, .countSignal k⟩ (.clear k)
  | countUnlock {k : ℕ} : Shows c i ⟨.run i .attack, .countUnlock k⟩ (.clear k)
  | clear {k : ℕ} : Shows c i ⟨.run i .attack, .clear k⟩ (.clear k)
  | clearLock {k : ℕ} {t} : t.val = (c.row k, c.col k) →
      Shows c i ⟨.run i .attack, .setLock t none (.fell k)⟩ (.clear k)
  | clearStore {k : ℕ} {t} : t.val = (c.row k, c.col k) →
      Shows c i ⟨.run i .attack, .setStore t none (.fell k)⟩ (.clear k)
  | clearUnlock {k : ℕ} {t} : Shows c i ⟨.run i .attack, .setUnlock t (.fell k)⟩ (.release k)
  | decrementReturn {k : ℕ} : Shows c i ⟨.run i .attack, .decrementReturn k⟩ (.release k)
  | attacked {n} : Shows c i ⟨.run i .attack, .returned (.life n)⟩ .getLife
  | moveLock {m} : m.soldier = i → m.Around →
      Shows c i ⟨.run i .move, .moveLock m⟩ (.lockSelf m.here.val.1 m.here.val.2)
  | choose {m} : m.soldier = i → m.Around → Shows c i ⟨.run i .move, .choose m⟩ (.choose m.here.val.1 m.here.val.2)
  | swapFirst {w} : w.soldier = i →
      Shows c i ⟨.run i .move, .swapFirst w⟩ (.swap w.other.val.1 w.other.val.2 w.this.val)
  | swapSecond {w} : w.soldier = i →
      Shows c i ⟨.run i .move, .swapSecond w⟩ (.swap w.other.val.1 w.other.val.2 w.this.val)
  | swap {w} : w.soldier = i → Shows c i ⟨.run i .move, .swap w⟩ (.swap w.other.val.1 w.other.val.2 w.this.val)
  | unlockThis {w} : w.soldier = i → Shows c i ⟨.run i .move, .unlockThis w⟩ (.setPos w.this.val)
  | unlockOther {w} : w.soldier = i → Shows c i ⟨.run i .move, .unlockOther w⟩ (.setPos w.this.val)
  | setPosition {w} : w.soldier = i → Shows c i ⟨.run i .move, .setPosition w⟩ (.setPos w.this.val)
  | moveUnlock : Shows c i ⟨.run i .move, .moveUnlock i⟩ .unlockSelf
  | moved : Shows c i ⟨.run i .move, .returned .void⟩ .getLife

section Shows
variable {c c' : ToySoldiersSim.State} {l : Local G} {pc : ToySoldiersSim.Pc}

theorem Idle.held (h : Idle c i pc) : pc.held i = none := by
  rcases h with rfl | ⟨rfl, _⟩
  · rfl
  · rfl

/-- A block that has a soldier's lock has it lock by lock too. -/
theorem Shows.held (h : Shows c i l pc) (hk : pc.held i = some k) : Lock.soldier k ∈ l.pc.held hash := by
  cases h with
  | begin hidle | lifeLock hidle | lifeReturn hidle =>
    rw [hidle.held] at hk
    cases hk
  | choose hm _ | swapFirst hm | swapSecond hm | swap hm | unlockThis hm | unlockOther hm | setPosition hm =>
    subst hm
    cases hk
    simp [Calls.Pc.held]
  | _ =>
    first
    | cases hk; simp [Calls.Pc.held, Then.held]
    | cases hk

/-- What other threads do to a state that the call relies on. -/
theorem Shows.mono (h : Shows c i l pc) (hid : c'.id = c.id) (hlife : c'.life i ≤ c.life i)
    (hpos : ∀ k, Lock.soldier k ∈ l.pc.held hash → c'.row k = c.row k ∧ c'.col k = c.col k) : Shows c' i l pc := by
  have hidle : ∀ {pc}, Idle c i pc → Idle c' i pc := fun h =>
    h.imp_right fun ⟨hdone, hzero⟩ => ⟨hdone, hlife.trans hzero⟩
  have hequals : ∀ k, c'.equals k i ↔ c.equals k i := fun k => by
    unfold State.equals
    rw [hid]
  cases h with
  | begin h => exact .begin (hidle h)
  | lifeLock h => exact .lifeLock (hidle h)
  | lifeReturn h => exact .lifeReturn (hidle h)
  | fallen h hzero => exact .fallen h (hlife.trans hzero)
  | returned hzero => exact .returned (hlife.trans hzero)
  | itself h => exact .itself ((hequals _).mpr h)
  | somebody h => exact .somebody ((hequals _).not.mpr h)
  | @clearLock k t ht =>
    obtain ⟨hrow, hcol⟩ := hpos k (by simp [Calls.Pc.held, Then.held])
    exact .clearLock (by rw [ht, hrow, hcol])
  | @clearStore k t ht =>
    obtain ⟨hrow, hcol⟩ := hpos k (by simp [Calls.Pc.held, Then.held])
    exact .clearStore (by rw [ht, hrow, hcol])
  | _ => constructor <;> assumption

end Shows

/-! ### The steps -/

section Step
variable {s₀ c c' c'' : ToySoldiersSim.State} {b b' : Board ℕ G} {l l' : Local G} {pc : ToySoldiersSim.Pc}
  {ev : Option ToySoldiersSim.Event} {d : Direction}

/-- The blocks, in runs whose swaps displace nobody. -/
def blockwise (G : Grid) (s₀ : ToySoldiersSim.State) : System ToySoldiersSim.State ToySoldiersSim.Event :=
  (machine G s₀).system.guard ToySoldiersSim.Undisturbed

theorem blockwise_single (hi : i < c.created) (hturn : turn G c i d = some (ev, c'))
    (hev : ToySoldiersSim.Undisturbed c ev) : (blockwise G s₀).Path c ev.toList c' :=
  .single ⟨⟨(i, d), by simp [machine, hi, hturn]⟩, hev⟩

/-- What blocks of the thread of `i` leave as it is. -/
structure Leaves (hash : Place G → ℤ) (l : Local G) (i : ℕ) (c c' : ToySoldiersSim.State) : Prop where
  pc : ∀ j, j ≠ i → c'.pc j = c.pc j
  created : c'.created = c.created
  id : c'.id = c.id
  life : ∀ k, c'.life k ≤ c.life k
  pos : ∀ k, (k = i → Lock.soldier i ∉ l.pc.held hash) → c'.row k = c.row k ∧ c'.col k = c.col k

/-- A step of the thread of `i` completes some blocks, or none. -/
def Completes (s₀ : ToySoldiersSim.State) (hash : Place G → ℤ) (i : ℕ) (c : ToySoldiersSim.State) (l : Local G)
    (b' : Board ℕ G) (l' : Local G) : Prop :=
  ∃ es c', (blockwise G s₀).Path c es c' ∧ Agrees b' c' ∧ Shows c' i l' (c'.pc i) ∧ Leaves hash l i c c'

theorem leaves_goto (pc : ToySoldiersSim.Pc) (lock : ℕ → Option ℕ) (soldierCount : BitVec 32)
    (occupant : Tile → Option ℕ) :
    Leaves hash l i c ({c with lock := lock, soldierCount := soldierCount, occupant := occupant}.goto i pc) where
  pc := fun _ hj => Function.update_of_ne hj ..
  created := rfl
  id := rfl
  life := fun _ => le_rfl
  pos := fun _ _ => ⟨rfl, rfl⟩

/-- None. -/
theorem completes_none (hag : Agrees b' c) (hpc : c.pc i = pc) (h : Shows c i l' pc) : Completes s₀ hash i c l b' l' :=
  ⟨[], c, .refl, hag, hpc ▸ h, fun _ _ => rfl, rfl, rfl, fun _ => le_rfl, fun _ _ => ⟨rfl, rfl⟩⟩

/-- Nor does taking a lock, where no block takes it. -/
theorem completes_acquire {n : Lock G} {l₁ : Local G} (hag : Agrees b c) (hpc : c.pc i = pc) (h : Shows c i l₁ pc)
    (hstep : (b.acquire i n).map (fun b₁ => (b₁, l₁)) = some (b', l')) : Completes s₀ hash i c l b' l' := by
  obtain ⟨_, ha, heq⟩ := Option.map_eq_some_iff.mp hstep
  cases heq
  obtain ⟨_, rfl⟩ := acquire_eq_some.mp ha
  exact completes_none hag.locks hpc h

/-- One. -/
theorem completes_one (hi : i < c.created) (hturn : turn G c i d = some (ev, c'.goto i pc))
    (hev : ToySoldiersSim.Undisturbed c ev) (hag : Agrees b' (c'.goto i pc)) (h : Shows (c'.goto i pc) i l' pc)
    (hleaves : Leaves hash l i c (c'.goto i pc)) : Completes s₀ hash i c l b' l' := by
  refine ⟨_, _, blockwise_single hi hturn hev, hag, ?_, hleaves⟩
  have hpc : (c'.goto i pc).pc i = pc := Function.update_self ..
  rw [hpc]
  exact h

theorem map_getRC (row col : ℤ) : (getRC G row col).map Subtype.val = G.getRC row col := by
  unfold getRC
  split
  · rename_i t h
    exact h.symm
  · rename_i h
    exact h.symm

theorem around_stepMove {r col : ℤ} {here : Place G} (h : getRC G r col = some here) : (stepMove i h).Around := by
  intro d
  have hval := val_of_getRC h
  show (getRC G (r + d.r) (col + d.c)).map Subtype.val = G.getRC (here.val.1 + d.r) (here.val.2 + d.c)
  rw [map_getRC, hval]

/-- The loop over `dirs` passes over what is no tile. -/
theorem lookAt_path (s₀ : ToySoldiersSim.State) {r col : ℤ} (hin : G.inBounds r col) (dirs : List Direction)
    (hi : i < c.created) (hpc : c.pc i = .scan r col dirs) : ∃ pc, (blockwise G s₀).Path c [] (c.goto i pc) ∧
      Shows (c.goto i pc) i (lookAt G i r col dirs) pc := by
  induction dirs generalizing c with
  | nil =>
    unfold lookAt
    split
    · rename_i here hhere
      have hval := val_of_getRC hhere
      have hturn : turn G c i .NORTH = some (none, c.goto i (.lockSelf r col)) := by simp only [turn, hpc]
      refine ⟨_, blockwise_single hi hturn trivial, ?_⟩
      have hmove := Shows.moveLock (c := c.goto i (.lockSelf r col)) (m := stepMove i hhere) rfl (around_stepMove hhere)
      have hr : (stepMove i hhere).here.val = (r, col) := hval
      rwa [hr] at hmove
    · rename_i hnone
      have hrc := map_getRC (G := G) r col
      rw [hnone, getRC_of_inBounds hin] at hrc
      cases hrc
  | cons dir rest ih =>
    unfold lookAt
    have hrel := map_getRC (G := G) (r + dir.r) (col + dir.c)
    split
    · rename_i there hthere
      rw [hthere] at hrel
      refine ⟨.scan r col (dir :: rest), ?_, .occupantLock hrel.symm⟩
      have hsame : c.goto i (.scan r col (dir :: rest)) = c := by
        rw [← hpc, State.goto, Function.update_eq_self]
      rw [hsame]
      exact .refl
    · rename_i hnone
      rw [hnone] at hrel
      have hrel' : dir.getRelative G r col = none := hrel.symm
      have hturn : turn G c i .NORTH = some (none, c.goto i (.scan r col rest)) := by simp only [turn, hpc, hrel']
      obtain ⟨pc, hpath, hshows⟩ := ih (c := c.goto i (.scan r col rest)) hi (Function.update_self ..)
      have htwice : (c.goto i (.scan r col rest)).goto i pc = c.goto i pc := by
        simp only [State.goto, Function.update_idem]
      rw [htwice] at hpath hshows
      exact ⟨pc, (blockwise_single hi hturn trivial).trans hpath, hshows⟩

/-- `run()` goes on with the loop over `dirs`. -/
theorem completes_lookAt {r col : ℤ} {dirs : List Direction} (hinv : ToySoldiersSim.Inv G c) (hi : i < c.created)
    (hag : Agrees b c) (hpc : c.pc i = .scan r col dirs) : Completes s₀ hash i c l b (lookAt G i r col dirs) := by
  obtain ⟨rfl, rfl⟩ : r = c.row i ∧ col = c.col i := hinv.at_of_pc hpc
  obtain ⟨pc, hpath, hshows⟩ := lookAt_path s₀ (hinv.bounds i hi) dirs hi hpc
  refine ⟨[], _, hpath, hag.locks, ?_, leaves_goto ..⟩
  have hpc' : (c.goto i pc).pc i = pc := Function.update_self ..
  rw [hpc']
  exact hshows

/-- **Every step completes blocks or none.** -/
theorem Shows.step (s₀ : ToySoldiersSim.State) (hinv : ToySoldiersSim.Inv G c) (hlives : Lives c) (hi : i < c.created)
    (hag : Agrees b c)
    (hfree : ∀ k, (Lock.soldier k ∈ l.pc.held hash ∨ b.holder (.soldier k) = none) → (c.pc i).held i ≠ some k →
      c.lock k = none)
    (hund : ∀ w, l.pc = .swap w → b.occupant w.this = none ∧
      (b.occupant w.other = some w.soldier ∨ b.occupant w.other = none))
    (h : Shows c i l (c.pc i)) (hstep : step int32 hash i b l d = some (b', l')) :
    Completes s₀ hash i c l b' l' := by
  generalize hpc : c.pc i = pc at h hfree
  cases h with
  | begin hidle =>
    simp only [Calls.step] at hstep
    split_ifs at hstep
    cases hstep
    exact completes_none hag hpc (.lifeLock hidle)
  | lifeLock hidle =>
    exact completes_acquire hag hpc (.lifeReturn hidle) hstep
  | lifeReturn hidle =>
    have hlock : c.lock i = none := hfree i (.inl (List.mem_singleton_self _)) (by rw [hidle.held]; simp)
    cases hstep
    rw [hag.life]
    rcases hidle with rfl | ⟨rfl, hzero⟩
    · have hturn : turn G c i d = some (none, c.goto i (if c.life i > 0 then .position else .done)) := by
        simp only [turn, hpc, if_pos hlock]
      split_ifs at hturn with hlife
      · exact completes_one hi hturn trivial hag.locks (.living hlife) (leaves_goto ..)
      · exact completes_one hi hturn trivial hag.locks (.fallen hlife (not_lt.mp hlife)) (leaves_goto ..)
    · exact completes_none hag.locks hpc (.fallen (not_lt.mpr hzero) hzero)
  | living hlife =>
    cases hstep
    simp only [resume, if_pos hlife]
    exact completes_none hag hpc .positionLock
  | fallen hlife hzero =>
    cases hstep
    simp only [resume, if_neg hlife]
    exact completes_none hag hpc (.returned hzero)
  | returned => cases hstep
  | positionLock =>
    exact completes_acquire hag hpc .positionReturn hstep
  | positionReturn =>
    have hlock : c.lock i = none := hfree i (.inl (List.mem_singleton_self _)) (by simp [ToySoldiersSim.Pc.held])
    cases hstep
    rw [hag.row, hag.col]
    have hturn : turn G c i d = some (none, c.goto i (.scan (c.row i) (c.col i) directions)) := by
      simp only [turn, hpc, if_pos hlock]
    exact completes_one hi hturn trivial hag.locks .position (leaves_goto ..)
  | position =>
    cases hstep
    exact completes_lookAt hinv hi hag hpc
  | occupantLock hrel =>
    exact completes_acquire hag hpc (.occupantReturn hrel) hstep
  | @occupantReturn r col dir rest there hrel =>
    cases hstep
    rw [hag.occupant]
    cases ho : c.occupant there.val with
    | none =>
      have hturn : turn G c i d = some (none, c.goto i (.scan r col rest)) := by simp only [turn, hpc, hrel, ho]
      exact completes_one hi hturn trivial hag.locks .nobody (leaves_goto ..)
    | some k =>
      by_cases heq : c.equals k i
      · have hturn : turn G c i d = some (none, c.goto i (.scan r col rest)) := by
          simp only [turn, hpc, hrel, ho, if_pos heq]
        exact completes_one hi hturn trivial hag.locks (.itself heq) (leaves_goto ..)
      · have hturn : turn G c i d = some (none, c.goto i (.attack k)) := by
          simp only [turn, hpc, hrel, ho, if_neg heq]
        exact completes_one hi hturn trivial hag.locks (.somebody heq) (leaves_goto ..)
  | nobody =>
    cases hstep
    exact completes_lookAt hinv hi hag hpc
  | itself heq =>
    cases hstep
    simp only [resume, if_pos ((hag.equals _ _).mpr heq)]
    exact completes_lookAt hinv hi hag hpc
  | somebody heq =>
    cases hstep
    simp only [resume, if_neg (mt (hag.equals _ _).mp heq)]
    exact completes_none hag hpc .decrementLock
  | @decrementLock k =>
    obtain ⟨_, ha, heq⟩ := Option.map_eq_some_iff.mp hstep
    cases heq
    obtain ⟨hholder, rfl⟩ := acquire_eq_some.mp ha
    have hlock : c.lock k = none := hfree k (.inr hholder) (by simp [ToySoldiersSim.Pc.held])
    have hturn : turn G c i d = some (none, (c.setLock k (some i)).goto i (.decrement k)) := by
      simp only [turn, hpc, if_pos hlock]
    exact completes_one hi hturn trivial hag.locks .decrement (leaves_goto ..)
  | @decrement k =>
    have hint : int32 (c.life k - 1) = c.life k - 1 := hlives.decrement hi hpc
    simp only [Calls.step, hag.life, hint] at hstep
    cases hstep
    have hturn : turn G c i d = some (none, {c with life := Function.update c.life k (c.life k - 1)}.goto i
        (if c.life k - 1 = 0 then .count k else .release k)) := by
      simp only [turn, hpc]
    refine completes_one hi hturn trivial {hag with life := ?_} ?_
      ⟨fun _ hj => Function.update_of_ne hj .., rfl, rfl, fun j => ?_, fun _ _ => ⟨rfl, rfl⟩⟩
    · show Function.update b.roll.life k (int32 (b.roll.life k - 1)) = Function.update c.life k (c.life k - 1)
      rw [hag.life, hint]
    · split_ifs
      · exact .countLock
      · exact .decrementReturn
    · show Function.update c.life k (c.life k - 1) j ≤ c.life j
      rw [Function.update_apply]
      split_ifs with hjk
      · subst hjk
        omega
      · exact le_rfl
  | countLock =>
    exact completes_acquire hag hpc .countDown hstep
  | @countDown k =>
    cases hstep
    have hturn : turn G c i d = some (none, {c with soldierCount := c.soldierCount - 1}.goto i (.clear k)) := by
      simp only [turn, hpc]
    refine completes_one hi hturn trivial {hag with soldierCount := ?_} .countSignal (leaves_goto ..)
    show b.roll.soldierCount - 1 = c.soldierCount - 1
    rw [hag.soldierCount]
  | countSignal =>
    cases hstep
    exact completes_none hag hpc .countUnlock
  | countUnlock =>
    cases hstep
    exact completes_none hag.locks hpc .clear
  | @clear k =>
    have hrc := map_getRC (G := G) (c.row k) (c.col k)
    rw [(hinv.clear hpc).1] at hrc
    simp only [Calls.step, hag.row, hag.col] at hstep
    split at hstep
    · rename_i t ht
      cases hstep
      exact completes_none hag hpc (.clearLock (val_of_getRC ht))
    · rename_i hnone
      rw [hnone] at hrc
      cases hrc
  | clearLock ht =>
    exact completes_acquire hag hpc (.clearStore ht) hstep
  | @clearStore k t ht =>
    cases hstep
    have hturn : turn G c i d = some (none, (c.setOccupant (c.row k, c.col k) none).goto i (.release k)) := by
      simp only [turn, hpc, (hinv.clear hpc).1]
    refine completes_one hi hturn trivial {hag with occupant := ?_} .clearUnlock (leaves_goto ..)
    rw [← ht]
    exact update_occupant hag.occupant t none
  | clearUnlock =>
    cases hstep
    exact completes_none hag.locks hpc .decrementReturn
  | @decrementReturn k =>
    cases hstep
    have hturn : turn G c i d = some (some (.attacked i k (c.life k)), (c.setLock k none).goto i .getLife) := by
      simp only [turn, hpc]
    exact completes_one hi hturn trivial hag.locks .attacked (leaves_goto ..)
  | attacked =>
    cases hstep
    exact completes_none hag hpc (.lifeLock (.inl rfl))
  | @moveLock m hm haround =>
    subst hm
    obtain ⟨_, ha, heq⟩ := Option.map_eq_some_iff.mp hstep
    cases heq
    obtain ⟨hholder, rfl⟩ := acquire_eq_some.mp ha
    have hlock : c.lock m.soldier = none := hfree _ (.inr hholder) (by simp [ToySoldiersSim.Pc.held])
    have hturn : turn G c m.soldier d = some (none,
        (c.setLock m.soldier (some m.soldier)).goto m.soldier (.choose m.here.val.1 m.here.val.2)) := by
      simp only [turn, hpc, if_pos hlock]
    exact completes_one hi hturn trivial hag.locks (.choose rfl haround) (leaves_goto ..)
  | @choose m hm haround =>
    subst hm
    have hrel := haround d
    simp only [Calls.step] at hstep
    split at hstep
    · rename_i headingTo hdir
      cases hstep
      rw [hdir] at hrel
      have hturn : turn G c m.soldier d = some (none,
          c.goto m.soldier (.swap m.here.val.1 m.here.val.2 headingTo.val)) := by
        simp only [turn, hpc, ← hrel, Option.map_some]
      exact completes_one hi hturn trivial hag.locks (.swapFirst rfl) (leaves_goto ..)
    · cases hstep
      exact completes_none hag hpc (.choose rfl haround)
  | swapFirst hm =>
    exact completes_acquire hag hpc (.swapSecond hm) hstep
  | swapSecond hm =>
    exact completes_acquire hag hpc (.swap hm) hstep
  | @swap w hm =>
    subst hm
    obtain ⟨hthis, hother⟩ := hund w rfl
    cases hstep
    have hturn : turn G c w.soldier d = some (some (.swap w.soldier w.other.val w.this.val),
        (c.swapOccupants w.this.val w.other.val).goto w.soldier (.setPos w.this.val)) := by
      simp only [turn, hpc, getRC_of_inBounds w.other.2]
    rw [hag.occupant] at hthis
    rw [hag.occupant] at hother
    refine completes_one hi hturn ⟨hthis, hother⟩ {hag with occupant := ?_} (.unlockThis rfl) (leaves_goto ..)
    show ∀ p, Function.update (Function.update b.occupant w.this (b.occupant w.other)) w.other (b.occupant w.this) p = _
    rw [hag.occupant w.this, hag.occupant w.other]
    exact update_occupant (update_occupant hag.occupant w.this _) w.other _
  | unlockThis hm =>
    cases hstep
    exact completes_none hag.locks hpc (.unlockOther hm)
  | unlockOther hm =>
    cases hstep
    exact completes_none hag.locks hpc (.setPosition hm)
  | @setPosition w hm =>
    subst hm
    cases hstep
    have hturn : turn G c w.soldier d = some (none, { c with
        row := Function.update c.row w.soldier w.this.val.1
        col := Function.update c.col w.soldier w.this.val.2 }.goto w.soldier .unlockSelf) := by
      simp only [turn, hpc]
    refine completes_one hi hturn trivial {hag with row := ?_, col := ?_} .moveUnlock
      ⟨fun _ hj => Function.update_of_ne hj .., rfl, rfl, fun _ => le_rfl, fun k hk => ?_⟩
    · show Function.update b.row w.soldier w.this.val.1 = Function.update c.row w.soldier w.this.val.1
      rw [hag.row]
    · show Function.update b.col w.soldier w.this.val.2 = Function.update c.col w.soldier w.this.val.2
      rw [hag.col]
    · -- the thread has the lock of its soldier
      have hne : k ≠ w.soldier := fun he => hk he (List.mem_singleton_self _)
      exact ⟨Function.update_of_ne hne .., Function.update_of_ne hne ..⟩
  | moveUnlock =>
    cases hstep
    have hturn : turn G c i d = some (none, (c.setLock i none).goto i .getLife) := by simp only [turn, hpc]
    exact completes_one hi hturn trivial hag.locks .moved (leaves_goto ..)
  | moved =>
    cases hstep
    exact completes_none hag hpc (.lifeLock (.inl rfl))

end Step

/-! ### Runs -/

section Runs
variable {s₀ c c' : ToySoldiersSim.State} {f f' : Implementation.State ℕ (Board ℕ G) (Local G)} {l : Local G}
  {es : List ToySoldiersSim.Event} {ps : List (Place G)}

/-- The calls of `run()` lock by lock, in runs whose swaps displace nobody. -/
def lockwise (G : Grid) (hash : Place G → ℤ) (idCounter : BitVec 32) :
    System (Implementation.State ℕ (Board ℕ G) (Local G)) (Concurrent.Event ℕ (Op G) Res) :=
  ((simulation ℕ G hash idCounter int32).system.guard RunsOwn).along Undisturbed

/-- The blocks have got the board and every thread to where they are. -/
structure Follows (f : Implementation.State ℕ (Board ℕ G) (Local G)) (c : ToySoldiersSim.State) : Prop where
  agrees : Agrees f.store c
  idle : ∀ i, f.pc i = none → Idle c i (c.pc i)
  running : ∀ i l, f.pc i = some l → i < c.created ∧ Shows c i l (c.pc i)

/-- A swap leads on. -/
theorem pc_of_swap {me : ℕ} {b b' : Board ℕ G} {l' : Local G} {d : Direction} {w : Swap G} (hpc : l.pc = .swap w)
    (hstep : step int32 hash me b l d = some (b', l')) : l'.pc ≠ .swap w := by
  obtain ⟨caller, pc⟩ := l
  subst hpc
  cases hstep
  simp

/-- Whoever has a soldier's lock in the blocks has it lock by lock. -/
theorem Follows.holder (h : Follows f c) (hf : (simulation ℕ G hash idCounter int32).system.Reachable f)
    (hinv : ToySoldiersSim.Inv G c) (hlock : c.lock k = some j) : f.store.holder (.soldier k) = some j := by
  have hheld : (c.pc j).held j = some k := (hinv.held k j).mp hlock
  cases hj : f.pc j with
  | none =>
    rw [(h.idle j hj).held] at hheld
    cases hheld
  | some l =>
    exact ((accounts ℕ hash idCounter int32).held_iff hf _ j).mpr ⟨l, hj, (h.running j l hj).2.held hheld⟩

/-- A lock that the thread of `i` has or can take lock by lock it can take in the blocks. -/
theorem Follows.free (h : Follows f c) (hf : (simulation ℕ G hash idCounter int32).system.Reachable f)
    (hinv : ToySoldiersSim.Inv G c) (hl : f.pc i = some l)
    (hk : Lock.soldier k ∈ l.pc.held hash ∨ f.store.holder (.soldier k) = none) (hnot : (c.pc i).held i ≠ some k) :
    c.lock k = none := by
  by_contra hlock
  obtain ⟨j, hlock⟩ := Option.ne_none_iff_exists'.mp hlock
  have hholder := h.holder hf hinv hlock
  rcases hk with hk | hk
  · have hmine := ((accounts ℕ hash idCounter int32).held_iff hf _ i).mpr ⟨l, hl, hk⟩
    obtain rfl : i = j := Option.some.inj (hmine.symm.trans hholder)
    exact hnot ((hinv.held k i).mp hlock)
  · rw [hk] at hholder
    cases hholder

theorem path_of_lockwise {es : List (Concurrent.Event ℕ (Op G) Res)} (h : (lockwise G hash idCounter).Path f es f') :
    (simulation ℕ G hash idCounter int32).system.Path f es f' := by
  induction h with
  | refl => exact .refl
  | step _ hstep ih => exact ih.step hstep.1.1

theorem inv_of_path (h : (blockwise G s₀).Path c es c') (hc : ToySoldiersSim.Inv G c ∧ Lives c) :
    ToySoldiersSim.Inv G c' ∧ Lives c' := by
  refine h.invariant (I := fun c => ToySoldiersSim.Inv G c ∧ Lives c) (fun c l c' hc hstep => ?_) hc
  obtain ⟨⟨⟨i, d⟩, hnext⟩, hl⟩ := hstep
  simp only [machine] at hnext
  split_ifs at hnext with hi
  exact ⟨hc.1.turn hi hl hnext, hc.2.turn hc.1 hi hnext⟩

/-- **The step lemma**: however the steps fall, the blocks follow. -/
theorem Follows.step (s₀ : ToySoldiersSim.State) {e : Option (Concurrent.Event ℕ (Op G) Res)} (h : Follows f c)
    (hf : (simulation ℕ G hash idCounter int32).system.Reachable f) (hc : ToySoldiersSim.Inv G c ∧ Lives c)
    (hstep : (lockwise G hash idCounter).step f e f') : ∃ es c', (blockwise G s₀).Path c es c' ∧ Follows f' c' := by
  obtain ⟨⟨hstep, hruns⟩, hund⟩ := hstep
  rcases Implementation.step_cases hstep with
    ⟨t, op, ht, rfl, rfl⟩ | ⟨t, l, d, b, l', ht, hst, -, rfl⟩ | ⟨t, l, res, ht, hres, -, rfl⟩
  · -- `run()` is called
    obtain ⟨rfl, hlt⟩ := hruns
    refine ⟨[], c, .refl, h.agrees, ?_, ?_⟩
    · exact (Function.forall_update_iff f.pc fun j o => o = none → Idle c j (c.pc j)).mpr
        ⟨fun hnone => (by cases hnone), fun j _ => h.idle j⟩
    · refine Implementation.forall_update (fun k hk => ?_) fun j k _ hj => h.running j k hj
      obtain rfl := Option.some.inj hk
      exact ⟨h.agrees.created ▸ hlt, .begin (h.idle t ht)⟩
  · -- a step of a call
    obtain ⟨hi, hshows⟩ := h.running t l ht
    have hmoved : ∀ w, l.pc = .swap w → f.store.occupant w.this = none ∧
        (f.store.occupant w.other = some w.soldier ∨ f.store.occupant w.other = none) := by
      intro w hw
      refine hund t l w ht hw fun hsame => ?_
      have hnew : Function.update f.pc t (some l') t = some l := hsame
      rw [Function.update_self, Option.some.injEq] at hnew
      exact pc_of_swap hw hst (hnew ▸ hw)
    obtain ⟨es, c', hpath, hag, hshows', hleaves⟩ := hshows.step s₀ hc.1 hc.2 hi h.agrees
      (fun k hk hnot => h.free hf hc.1 ht hk hnot) hmoved hst
    have hidle : ∀ {j pc}, Idle c j pc → Idle c' j pc := fun {j pc} hj =>
      hj.imp_right fun ⟨hdone, hzero⟩ => ⟨hdone, (hleaves.life j).trans hzero⟩
    refine ⟨es, c', hpath, hag, ?_, ?_⟩
    · refine (Function.forall_update_iff f.pc fun j o => o = none → Idle c' j (c'.pc j)).mpr
        ⟨fun hnone => (by cases hnone), fun j hj hnone => ?_⟩
      rw [hleaves.pc j hj]
      exact hidle (h.idle j hnone)
    · refine Implementation.forall_update (fun k hk => ?_) fun j k hjt hj => ?_
      · obtain rfl := Option.some.inj hk
        exact ⟨hleaves.created ▸ hi, hshows'⟩
      · obtain ⟨hlt, hj'⟩ := h.running j k hj
        rw [hleaves.pc j hjt, hleaves.created]
        refine ⟨hlt, hj'.mono hleaves.id (hleaves.life j) fun m (hm : Lock.soldier m ∈ k.pc.held hash) =>
          hleaves.pos m ?_⟩
        -- nobody else has the lock of `m`
        rintro rfl hmine
        exact hjt ((accounts ℕ hash idCounter int32).exclusive hf hj ht hm hmine)
  · -- `run()` has returned
    obtain ⟨hi, hshows⟩ := h.running t l ht
    have hdone : Idle c t (c.pc t) := by
      generalize c.pc t = pc at hshows
      cases hshows with
      | returned hzero => exact .inr ⟨rfl, hzero⟩
      | _ => cases hres
    refine ⟨[], c, .refl, h.agrees, ?_, ?_⟩
    · exact (Function.forall_update_iff f.pc fun j o => o = none → Idle c j (c.pc j)).mpr
        ⟨fun _ => hdone, fun j _ => h.idle j⟩
    · exact Implementation.forall_update (fun k hk => by cases hk) fun j k _ hj => h.running j k hj

/-- The blocks follow a whole run. -/
theorem Follows.path (s₀ : ToySoldiersSim.State) {es : List (Concurrent.Event ℕ (Op G) Res)} (h : Follows f c)
    (hf : (simulation ℕ G hash idCounter int32).system.Reachable f) (hc : ToySoldiersSim.Inv G c ∧ Lives c)
    (hpath : (lockwise G hash idCounter).Path f es f') : ∃ es c', (blockwise G s₀).Path c es c' ∧ Follows f' c' := by
  induction hpath with
  | refl => exact ⟨[], c, .refl, h⟩
  | step hbefore hstep ih =>
    obtain ⟨fs, c₁, hpath₁, h₁⟩ := ih
    have hf₁ := hf.path (path_of_lockwise hbefore)
    obtain ⟨gs, c₂, hpath₂, h₂⟩ := h₁.step s₀ hf₁ (inv_of_path hpath₁ hc) hstep
    exact ⟨fs ++ gs, c₂, hpath₁.trans hpath₂, h₂⟩

/-! ### From the first soldier on -/

theorem agrees_empty (idCounter : BitVec 32) :
    Agrees (empty idCounter : Board ℕ G) (ToySoldiersSim.empty idCounter) :=
  ⟨rfl, rfl, rfl, rfl, rfl, rfl, rfl, fun _ => rfl⟩

/-- A soldier is added to both. -/
theorem Agrees.add {b : Board ℕ G} (h : Agrees b c) (p : Place G) (hadd : addSoldier G c p.val = some c') :
    Agrees (b.add 0 p) c' := by
  obtain ⟨t, hrc, rfl⟩ := Option.map_eq_some_iff.mp hadd
  obtain ⟨_, rfl⟩ := getRC_eq_some hrc
  refine ⟨?_, ?_, ?_, ?_, ?_, ?_, ?_, ?_⟩
  · exact congrArg (· + 1) h.created
  · exact congrArg (· + 1) h.soldierCount
  · show Function.update b.roll.life b.roll.created 2 = Function.update c.life c.created 2
    rw [h.life, h.created]
  · show Function.update b.row b.roll.created p.val.1 = Function.update c.row c.created p.val.1
    rw [h.row, h.created]
  · show Function.update b.col b.roll.created p.val.2 = Function.update c.col c.created p.val.2
    rw [h.col, h.created]
  · show Function.update b.id b.roll.created b.idCounter = Function.update c.id c.created c.idCounter
    rw [h.id, h.created, h.idCounter]
  · exact congrArg (· + 1) h.idCounter
  · show ∀ q, Function.update b.occupant p (some b.roll.created) q = _
    rw [h.created]
    exact update_occupant h.occupant p _

/-- Soldiers are added to both, one after the other. -/
theorem Agrees.addAll {b : Board ℕ G} (h : Agrees b c) (ps : List (Place G)) :
    ∃ c', (ps.map Subtype.val).foldlM (addSoldier G) c = some c' ∧ Agrees (b.addAll ps) c' ∧
      c'.created = c.created + ps.length := by
  induction ps generalizing b c with
  | nil => exact ⟨c, rfl, h, rfl⟩
  | cons p ps ih =>
    obtain ⟨c₁, hc₁⟩ : ∃ c₁, addSoldier G c p.val = some c₁ := by
      unfold addSoldier
      rw [getRC_of_inBounds p.2]
      exact ⟨_, rfl⟩
    obtain ⟨c', hadd, hag, hcreated⟩ := ih (h.add p hc₁)
    have hone : c₁.created = c.created + 1 := by
      obtain ⟨_, _, rfl⟩ := Option.map_eq_some_iff.mp hc₁
      rfl
    refine ⟨c', ?_, hag, ?_⟩
    · rw [List.map_cons, List.foldlM_cons, hc₁]
      exact hadd
    · rw [hcreated, hone, List.length_cons]
      omega

theorem reachable_addAll {b : Board ℕ G}
    (hb : (simulation ℕ G hash idCounter int32).system.Reachable ⟨b, fun _ => none⟩)
    (hfree : ∀ n, b.holder n = none) (ps : List (Place G)) :
    (simulation ℕ G hash idCounter int32).system.Reachable ⟨b.addAll ps, fun _ => none⟩ := by
  induction ps generalizing b with
  | nil => exact hb
  | cons p ps ih => exact ih (hb.path ((answers_add hfree p).path rfl)) (holder_add hfree p)

/-- The living are each on one tile, the one at their own position, and the dead on none. -/
def Consistent (b : Board ℕ G) : Prop :=
  ∀ i < b.roll.created,
    (b.roll.life i > 0 → ∃ p : Place G, p.val = (b.row i, b.col i) ∧ ∀ q, b.occupant q = some i ↔ q = p) ∧
      (b.roll.life i ≤ 0 → ∀ q, b.occupant q ≠ some i)

/-- Where no lock of a soldier is held, the boards are consistent together. -/
theorem Follows.consistent (h : Follows f c) (hf : (simulation ℕ G hash idCounter int32).system.Reachable f)
    (hinv : ToySoldiersSim.Inv G c) (hquiet : ∀ k, f.store.holder (.soldier k) = none) : Consistent f.store := by
  have hfree : Quiet c := by
    intro k _
    by_contra hlock
    obtain ⟨j, hlock⟩ := Option.ne_none_iff_exists'.mp hlock
    have hholder := h.holder hf hinv hlock
    rw [hquiet] at hholder
    cases hholder
  intro i hi
  rw [h.agrees.created] at hi
  obtain ⟨hliving, hdead⟩ := hinv.consistent hfree i hi
  rw [h.agrees.life, h.agrees.row, h.agrees.col]
  refine ⟨fun hlife => ⟨⟨(c.row i, c.col i), hinv.bounds i hi⟩, rfl, fun q => ?_⟩, fun hlife q => ?_⟩
  · rw [h.agrees.occupant, hliving hlife]
    exact ⟨fun hq => Subtype.ext hq, fun hq => congrArg Subtype.val hq⟩
  · rw [h.agrees.occupant]
    exact hdead hlife q.val

/-- **The calls of `run()` lock by lock are blocks taken one at a time**: in every run whose swaps
displace nobody, whatever the order in which the locks are taken, blocks taken one at a time get the
same board, and every thread to where its call stands. Whenever no soldier's lock is held, the board
and the soldiers agree. -/
theorem lockwise_refines (hash : Place G → ℤ) (idCounter : BitVec 32) (ps : List (Place G)) (hnodup : ps.Nodup)
    (hfew : ps.length ≤ 2 ^ 31) :
    ∃ s₀, (ps.map Subtype.val).foldlM (addSoldier G) (ToySoldiersSim.empty idCounter) = some s₀ ∧
      ∀ es f, (lockwise G hash idCounter).Path ⟨(empty idCounter).addAll ps, fun _ => none⟩ es f →
        (∃ c, (blockwise G s₀).Reachable c ∧ Follows f c) ∧
          ((∀ k, f.store.holder (.soldier k) = none) → Consistent f.store) := by
  obtain ⟨s₀, hadd, hag, hcreated⟩ := (agrees_empty (G := G) idCounter).addAll ps
  refine ⟨s₀, hadd, fun es f hpath => ?_⟩
  have hplaces : (ps.map Subtype.val).Nodup := hnodup.map Subtype.val_injective
  have hgathered := (gathered_empty idCounter).add_all _ hplaces hadd
  have hlives : Lives s₀ := by
    refine lives_of_nonneg ?_ (life_added _ hadd fun _ => ⟨le_rfl, show (0 : ℤ) ≤ 2 by decide⟩)
    rw [hcreated]
    exact (Nat.zero_add _).symm ▸ hfew
  have hf : (simulation ℕ G hash idCounter int32).system.Reachable ⟨(empty idCounter).addAll ps, fun _ => none⟩ :=
    reachable_addAll ⟨[], .refl⟩ (fun _ => rfl) ps
  have hfollows : Follows ⟨(empty idCounter).addAll ps, fun _ => none⟩ s₀ :=
    ⟨hag, fun i _ => .inl (hgathered.pc i), fun i l hl => by cases hl⟩
  obtain ⟨fs, c, hc, hend⟩ := hfollows.path s₀ hf ⟨hgathered.inv, hlives⟩ hpath
  have hinv : ToySoldiersSim.Inv G c := (inv_of_path hc ⟨hgathered.inv, hlives⟩).1
  exact ⟨⟨c, ⟨fs, hc⟩, hend⟩, hend.consistent (hf.path (path_of_lockwise hpath)) hinv⟩

/-! ### A move -/

/-- A swap that is ahead displaces nobody. -/
def Pc.undisturbed (b : Board ℕ G) : Pc G → Bool
  | .swap w => b.occupant w.this = none && (b.occupant w.other = some w.soldier || b.occupant w.other = none)
  | _ => true

/-- None of thread 0 does. -/
def Fair (f : Implementation.State ℕ (Board ℕ G) (Local G)) : Prop :=
  (f.pc 0).all (fun l => l.pc.undisturbed f.store) = true

instance (f : Implementation.State ℕ (Board ℕ G) (Local G)) : Decidable (Fair f) :=
  inferInstanceAs (Decidable ((f.pc 0).all (fun l => l.pc.undisturbed f.store) = true))

theorem run_cases {e : Option (Concurrent.Event ℕ (Op G) Res)} {t : ℕ} {d : Direction}
    (h : (simulation ℕ G hash idCounter int32).machine.next f (.run t d) = some (e, f')) :
    ∃ l l' b, f.pc t = some l ∧ e = none ∧ f' = ⟨b, Function.update f.pc t (some l')⟩ := by
  cases hpc : f.pc t with
  | none => simp [Implementation.machine, Implementation.next, hpc] at h
  | some l =>
    simp only [Implementation.machine, Implementation.next, hpc] at h
    obtain ⟨p, _, heq⟩ := Option.map_eq_some_iff.mp h
    cases heq
    exact ⟨l, p.2, p.1, rfl, rfl, rfl⟩

/-- What thread 0 does alone, with swaps that displace nobody. -/
theorem lockwise_alone {es : List (Concurrent.Event ℕ (Op G) Res)} (as : List Direction)
    (hothers : ∀ t, t ≠ 0 → f.pc t = none) (hf : Fair f)
    (h : ((simulation ℕ G hash idCounter int32).machine.within Fair).exec f (as.map (.run 0)) = some (es, f')) :
    (lockwise G hash idCounter).Path f es f' ∧ ∀ t, t ≠ 0 → f'.pc t = none := by
  induction as generalizing f es with
  | nil =>
    cases h
    exact ⟨.refl, hothers⟩
  | cons d as ih =>
    rw [List.map_cons, Machine.exec] at h
    cases hn : ((simulation ℕ G hash idCounter int32).machine.within Fair).next f (.run 0 d) with
    | none => rw [hn] at h; cases h
    | some p =>
      obtain ⟨e, f₁⟩ := p
      rw [hn] at h
      obtain ⟨q, hq, he⟩ := Option.map_eq_some_iff.mp h
      cases he
      obtain ⟨hnext, hfair⟩ := Option.filter_eq_some_iff.mp hn
      obtain ⟨l, l', b, hpc, rfl, rfl⟩ := run_cases hnext
      have hund : Undisturbed f ⟨b, Function.update f.pc 0 (some l')⟩ := by
        intro t k w hk hw _
        obtain rfl : t = 0 := by
          by_contra ht
          rw [hothers t ht] at hk
          cases hk
        unfold Fair at hf
        rw [hk] at hf
        simpa [hw, Pc.undisturbed] using hf
      have hstep : (lockwise G hash idCounter).step f none ⟨b, Function.update f.pc 0 (some l')⟩ :=
        ⟨⟨⟨_, hnext⟩, trivial⟩, hund⟩
      have hothers' : ∀ t, t ≠ 0 → Function.update f.pc 0 (some l') t = none := fun t ht => by
        rw [Function.update_of_ne ht]
        exact hothers t ht
      obtain ⟨hpath, hend⟩ := ih hothers' (of_decide_eq_true hfair) hq
      exact ⟨(System.Path.single hstep).trans hpath, hend⟩

/-- Two soldiers at the ends of a row of three tiles, and thread 0 has called `run()`. -/
def corridor : Implementation.State ℕ (Board ℕ ⟨1, 3⟩) (Local ⟨1, 3⟩) where
  store := (empty 0).addAll [⟨(0, 0), by decide⟩, ⟨(0, 2), by decide⟩]
  pc := Function.update (fun _ => none) 0 (some ⟨.outside, .begin (.run 0)⟩)

/-- The first of them moves to the middle. -/
theorem lockwise_refines_move : ∃ f : Implementation.State ℕ (Board ℕ ⟨1, 3⟩) (Local ⟨1, 3⟩),
    f.store.occupant ⟨(0, 1), by decide⟩ = some 0 ∧ Consistent f.store := by
  have hexec : ∃ es f, ((simulation ℕ ⟨1, 3⟩ (fun p => p.val.2) 0 int32).machine.within Fair).exec corridor
      ((List.replicate 19 .EAST).map (.run 0)) = some (es, f) ∧ f.store.occupant ⟨(0, 1), by decide⟩ = some 0 ∧
      f.pc 0 = some ⟨.run 0 .move, .returned .void⟩ := ⟨_, _, rfl, rfl, rfl⟩
  obtain ⟨es, f, hexec, hocc, hpc⟩ := hexec
  have hothers : ∀ t, t ≠ 0 → corridor.pc t = none := fun t ht => by
    show Function.update (fun _ => none) 0 _ t = none
    rw [Function.update_of_ne ht]
  obtain ⟨hpath, hothers'⟩ := lockwise_alone _ hothers rfl hexec
  have hstep : (lockwise ⟨1, 3⟩ (fun p => p.val.2) 0).step ⟨corridor.store, fun _ => none⟩
      (some (.call 0 (.run 0))) corridor :=
    ⟨⟨⟨.call 0 (.run 0), rfl⟩, rfl, by decide⟩, fun t l w ht => by cases ht⟩
  have hcall := System.Path.single hstep
  have hstore : (simulation ℕ ⟨1, 3⟩ (fun p => p.val.2) 0 int32).system.Reachable ⟨corridor.store, fun _ => none⟩ :=
    reachable_addAll ⟨[], .refl⟩ (fun _ => rfl) _
  have hf := hstore.path (path_of_lockwise (hcall.trans hpath))
  -- nobody has a lock any more
  have hquiet : ∀ k, f.store.holder (.soldier k) = none := by
    intro k
    by_contra hholder
    obtain ⟨t, hholder⟩ := Option.ne_none_iff_exists'.mp hholder
    obtain ⟨l, hl, hheld⟩ := ((accounts ℕ _ 0 int32).held_iff hf _ t).mp hholder
    by_cases ht : t = 0
    · subst ht
      obtain rfl := Option.some.inj (hpc.symm.trans hl)
      exact absurd hheld List.not_mem_nil
    · rw [hothers' t ht] at hl
      cases hl
  obtain ⟨_, _, hruns⟩ := lockwise_refines (G := ⟨1, 3⟩) (fun p => p.val.2) 0
    [⟨(0, 0), by decide⟩, ⟨(0, 2), by decide⟩] (by decide) (by decide)
  exact ⟨f, hocc, (hruns _ f (hcall.trans hpath)).2 hquiet⟩

end Runs

end ParSweet.ToySoldiersSim.Calls
