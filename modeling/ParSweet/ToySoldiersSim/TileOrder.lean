import ParSweet.Concurrent.LockOrder
import ParSweet.Counter
import ParSweet.ToySoldiersSim.Calls

/-! When `ToySoldiersSim` cannot deadlock.

A soldier's lock is taken before `countLock`, and both before a tile's; two tiles' locks are
taken in the order of their hash codes. That settles it where different tiles' locks have
different hash codes (`acyclic_of_injective`). Two with the same are taken in the order
"`other` first" by both sides of a swap, and then two soldiers can block each other
(`deadlock`). -/
namespace ParSweet.ToySoldiersSim.Calls
open Concurrent

variable {τ : Type*} [DecidableEq τ] {G : Grid} {hash : Place G → ℤ} {idCounter : BitVec 32}
  {int : ℤ → ℤ}

/-- The order of the locks. -/
def Before (hash : Place G → ℤ) : Lock G → Lock G → Prop
  | .soldier _, .count | .soldier _, .tile _ | .count, .tile _ => True
  | .tile a, .tile b => hash a < hash b
  | _, _ => False

def locking (τ : Type*) (hash : Place G → ℤ) : Locking τ (Board τ G) (Local G) (Lock G) where
  holder := Board.holder
  wants := fun l => l.pc.wants hash
  Thrown := fun _ => False
  Made := fun _ _ => True
  Before := fun _ => Before hash

/-- Nobody waits for itself, through any number of others. -/
def Acyclic (s : Implementation.State τ (Board τ G) (Local G)) (hash : Place G → ℤ) : Prop :=
  ∀ t, ¬ Relation.TransGen ((locking τ hash).WaitsFor s) t t

/-- Waiting for a lock is waiting for its holder: whoever is about to take one is stopped exactly
while somebody has it. -/
def Blocks (I : Implementation τ (Op G) Res (Board τ G) (Local G) Direction) (hash : Place G → ℤ) : Prop :=
  ∀ me s l n d, (locking τ hash).wants l = some n → (I.step me s l d = none ↔ ∃ u, (locking τ hash).holder s n = some u)

omit [DecidableEq τ] in
theorem blocks (hash : Place G → ℤ) (idCounter : BitVec 32) (int : ℤ → ℤ) :
    Blocks (simulation τ G hash idCounter int) hash := by
  intro me s l n d hn
  have hblock : s.acquire me n = none ↔ ∃ u, s.holder n = some u := by
    unfold Board.acquire
    rw [← Option.ne_none_iff_exists']
    split_ifs with h <;> simp [h]
  show step int hash me s l d = none ↔ ∃ u, s.holder n = some u
  rw [← hblock]
  obtain ⟨caller, pc⟩ := l
  cases pc with
  | addLock r c | setLock t o next | decrementLock k | countLock k | lifeLock k | occupantLock t | positionLock k
  | moveLock m | deployLock | wake | swapFirst w | swapSecond w =>
    obtain rfl := Option.some.inj hn
    exact Option.map_eq_none_iff
  | _ => cases hn

theorem before_irrefl (n : Lock G) : ¬ Before hash n n := by
  cases n <;> simp [Before]

theorem before_trans (x y z : Lock G) (h : Before hash x y) (h' : Before hash y z) : Before hash x z := by
  cases x <;> cases y <;> cases z <;> simp only [Before] at h h' ⊢
  exact h.trans h'

/-- **Locks are taken in order**, the second of two tiles' if their hash codes differ. -/
theorem Pc.ascending (hinj : Function.Injective hash) {pc : Pc G} {n m : Lock G} (hn : pc.wants hash = some n)
    (hm : m ∈ pc.held hash) : Before hash m n := by
  cases pc with
  | swapSecond w =>
    obtain rfl : Lock.tile (w.second hash) = n := Option.some.inj hn
    simp only [Pc.held, List.mem_cons, List.not_mem_nil, or_false] at hm
    rcases hm with rfl | rfl
    · show hash (w.first hash) < hash (w.second hash)
      unfold Swap.first Swap.second
      split_ifs with h
      · exact h
      · have hne : hash w.other ≠ hash w.this := fun he => w.distinct (hinj he).symm
        omega
    · trivial
  | swapFirst w =>
    obtain rfl : Lock.tile (w.first hash) = n := Option.some.inj hn
    obtain rfl := List.mem_singleton.mp hm
    trivial
  | setLock t o next =>
    obtain rfl : Lock.tile t = n := Option.some.inj hn
    cases next with
    | added k | fell k =>
      obtain rfl := List.mem_singleton.mp hm
      trivial
    | void => exact absurd hm List.not_mem_nil
  | countLock k =>
    obtain rfl : Lock.count = n := Option.some.inj hn
    obtain rfl := List.mem_singleton.mp hm
    trivial
  | addLock r c | decrementLock k | lifeLock k | occupantLock t | positionLock k | moveLock m | deployLock | wake =>
    exact absurd hm List.not_mem_nil
  | _ => cases hn

/-- **No deadlock**, if no two tiles' locks share a hash code. -/
theorem acyclic_of_injective (hinj : Function.Injective hash) {s : Implementation.State τ (Board τ G) (Local G)}
    (hs : (simulation τ G hash idCounter int).system.Reachable s) : Acyclic s hash := by
  refine (locking τ hash).acyclic_of_ascending before_irrefl before_trans fun t l n m hl hn hm => ?_
  obtain ⟨l', hl', hheld⟩ := ((accounts τ hash idCounter int).held_iff hs m t).mp hm
  obtain rfl : l = l' := Option.some.inj (hl.symm.trans hl')
  exact Pc.ascending hinj hn hheld

/-! ### Two hash codes that are the same -/

variable {s : Board τ G} {me t u : τ} {n : Lock G} {k : ℕ}

/-- The move that swaps with any of its locks. -/
def Swap.move (w : Swap G) : Move G where
  soldier := w.soldier
  here := w.other
  dirs := fun _ => some w.this
  distinct := fun _ _ h he => w.distinct ((Option.some.inj h).trans he)

/-- The board when `me` has the first two locks of its move. -/
def Board.enter (hash : Place G → ℤ) (s : Board τ G) (me : τ) (w : Swap G) : Board τ G :=
  let soldier : Lock G → Option τ := Function.update s.holder (.soldier w.soldier) (some me)
  {s with holder := Function.update soldier (.tile (w.first hash)) (some me)}

omit [DecidableEq τ] in
/-- A move gets to where it waits for the second tile. -/
theorem alone_enter {w : Swap G} (hshown : s.roll.shown w.soldier = true)
    (hsoldier : s.holder (.soldier w.soldier) = none) (htile : s.holder (.tile (w.first hash)) = none) :
    (simulation τ G hash idCounter int).Alone me (s, ⟨.outside, .begin (.move w.move)⟩)
      (s.enter hash me w, ⟨.outside, .swapSecond w⟩) := by
  have hfirst : ({s with holder := Function.update s.holder (.soldier w.soldier) (some me)} : Board τ G).holder
      (.tile (w.first hash)) = none := by simp [htile]
  refine .head ⟨.NORTH, if_pos hshown⟩ ?_
  refine .head ⟨.NORTH, congrArg (Option.map _) (acquire_free me hsoldier)⟩ ?_
  refine .head ⟨.NORTH, rfl⟩ ?_
  exact .single ⟨.NORTH, congrArg (Option.map _) (acquire_free me hfirst)⟩

/-- **Two soldiers block each other**: they swap the same two tiles, each from its own side, and
the hash codes of the tiles' locks are the same. -/
theorem deadlock {p q : Place G} (hpq : p ≠ q) (hhash : hash p = hash q) (htu : t ≠ u) :
    ∃ s, (simulation τ G hash idCounter int).system.Reachable s ∧ ¬ Acyclic s hash := by
  let I := simulation τ G hash idCounter int
  let w : Swap G := ⟨0, p, q, hpq⟩
  let v : Swap G := ⟨1, q, p, hpq.symm⟩
  have hw : w.first hash = q ∧ w.second hash = p := by simp [Swap.first, Swap.second, w, hhash]
  have hv : v.first hash = p ∧ v.second hash = q := by simp [Swap.first, Swap.second, v, hhash]
  -- two soldiers are added
  let s₁ : Board τ G := (empty idCounter).add t p
  let s₂ : Board τ G := s₁.add t p
  have hfree₁ : ∀ n, s₁.holder n = none := holder_add (fun _ => rfl) p
  have hfree₂ : ∀ n, s₂.holder n = none := holder_add hfree₁ p
  have hadd : I.system.Reachable ⟨s₂, fun _ => none⟩ :=
    ⟨_, System.Path.trans ((answers_add (fun _ => rfl) p).path rfl) ((answers_add hfree₁ p).path rfl)⟩
  have hshown : s₂.roll.shown 0 = true ∧ s₂.roll.shown 1 = true := by
    simp only [s₂, s₁, shown_add]
    exact ⟨rfl, rfl⟩
  -- the first move takes the lock of `q`
  let s₃ : Board τ G := s₂.enter hash t w
  let pc : τ → Option (Local G) := Function.update (fun _ => none) t (some ⟨.outside, .swapSecond w⟩)
  have hfirst : I.system.Reachable ⟨s₃, pc⟩ := by
    have hcall : I.system.step ⟨s₂, fun _ => none⟩ (some (.call t (.move w.move)))
        ⟨s₂, Function.update (fun _ => none) t (some ⟨.outside, .begin (.move w.move)⟩)⟩ := ⟨.call t _, rfl⟩
    exact (hadd.path (.single hcall)).path
      ((alone_enter hshown.1 (hfree₂ _) (hfree₂ _)).path (fun _ => none))
  -- the second that of `p`
  have hpcu : pc u = none := by simp [pc, Ne.symm htu]
  have hsecond : I.system.Reachable ⟨s₃.enter hash u v, Function.update pc u (some ⟨.outside, .swapSecond v⟩)⟩ := by
    have hcall : I.system.step ⟨s₃, pc⟩ (some (.call u (.move v.move)))
        ⟨s₃, Function.update pc u (some ⟨.outside, .begin (.move v.move)⟩)⟩ :=
      ⟨.call u (.move v.move), by simp [I, simulation, Implementation.machine, Implementation.next, hpcu]⟩
    refine (hfirst.path (.single hcall)).path ((alone_enter hshown.2 ?_ ?_).path pc)
    · show s₃.holder (.soldier 1) = none
      simp [s₃, Board.enter, hfree₂, w]
    · show s₃.holder (.tile (v.first hash)) = none
      simp [s₃, Board.enter, hfree₂, hw.1, hv.1, hpq]
  refine ⟨_, hsecond, fun hacyclic => hacyclic t ?_⟩
  have ht : (locking τ hash).WaitsFor
      ⟨s₃.enter hash u v, Function.update pc u (some ⟨.outside, .swapSecond v⟩)⟩ t u := by
    refine ⟨⟨.outside, .swapSecond w⟩, .tile p, by simp [pc, htu], congrArg (some ∘ Lock.tile) hw.2, ?_⟩
    simp [locking, Board.enter, hv.1]
  have hu : (locking τ hash).WaitsFor
      ⟨s₃.enter hash u v, Function.update pc u (some ⟨.outside, .swapSecond v⟩)⟩ u t := by
    refine ⟨⟨.outside, .swapSecond v⟩, .tile q, by simp, congrArg (some ∘ Lock.tile) hv.2, ?_⟩
    simp [locking, Board.enter, s₃, hv.1, hw.1, Ne.symm hpq]
  exact .tail (.single ht) hu

/-- **The simulation cannot deadlock exactly if no two tiles' locks share a hash code**: those who
wait are stopped by those they wait for, and nobody waits for itself. -/
theorem acyclic_iff_injective [Nontrivial τ] (hash : Place G → ℤ) (idCounter : BitVec 32) (int : ℤ → ℤ) :
    Blocks (simulation τ G hash idCounter int) hash ∧
      ((∀ s, (simulation τ G hash idCounter int).system.Reachable s → Acyclic s hash) ↔
        Function.Injective hash) := by
  refine ⟨blocks hash idCounter int, fun h p q hhash => ?_, fun hinj s hs => acyclic_of_injective hinj hs⟩
  by_contra hpq
  obtain ⟨t, u, htu⟩ := exists_pair_ne τ
  obtain ⟨s, hs, hcycle⟩ := deadlock hpq hhash htu
  exact hcycle (h s hs)

/-- The same two swaps where the hash codes of the tiles are the numbers of their columns: the second
waits for the first. -/
theorem acyclic_iff_injective_columns :
    ∃ (s : Implementation.State ℕ (Board ℕ ⟨1, 2⟩) (Local ⟨1, 2⟩)) (w v : Swap ⟨1, 2⟩),
      w.this = v.other ∧ w.other = v.this ∧ s.pc 0 = some ⟨.outside, .swapSecond w⟩ ∧
        s.pc 1 = some ⟨.outside, .swapFirst v⟩ ∧ Acyclic s fun p => p.val.2 := by
  let I := simulation ℕ ⟨1, 2⟩ (fun p => p.val.2) 0 int32
  let p : Place ⟨1, 2⟩ := ⟨(0, 0), by decide⟩
  let q : Place ⟨1, 2⟩ := ⟨(0, 1), by decide⟩
  have hpq : p ≠ q := by decide
  let w : Swap ⟨1, 2⟩ := ⟨0, q, p, hpq.symm⟩
  let v : Swap ⟨1, 2⟩ := ⟨1, p, q, hpq⟩
  let add : ℤ → List (Implementation.Action ℕ (Op ⟨1, 2⟩) Direction) := fun c =>
    .call 0 (.addSoldier 0 c) :: List.replicate 8 (.run 0 .NORTH) ++ [.ret 0]
  have hexec : ∃ es s, I.machine.exec I.machine.initial (add 0 ++ add 1 ++ .call 0 (.move w.move) ::
      List.replicate 4 (.run 0 .NORTH) ++ .call 1 (.move v.move) :: List.replicate 3 (.run 1 .NORTH)) = some (es, s) ∧
      s.pc 0 = some ⟨.outside, .swapSecond w⟩ ∧ s.pc 1 = some ⟨.outside, .swapFirst v⟩ := ⟨_, _, rfl, rfl, rfl⟩
  obtain ⟨es, s, hexec, hpc₀, hpc₁⟩ := hexec
  have hinj : Function.Injective fun p : Place ⟨1, 2⟩ => p.val.2 := by
    intro x y hcol
    have hx : x.val.1 = 0 := le_antisymm x.2.2.1 x.2.1
    have hy : y.val.1 = 0 := le_antisymm y.2.2.1 y.2.1
    exact Subtype.ext (Prod.ext (hx.trans hy.symm) hcol)
  have hacyclic : Acyclic s fun p => p.val.2 :=
    (acyclic_iff_injective (fun p : Place ⟨1, 2⟩ => p.val.2) 0 int32).2.mpr hinj s ⟨es, Machine.exec_path hexec⟩
  exact ⟨s, w, v, rfl, rfl, hpc₀, hpc₁, hacyclic⟩

/-- Two tiles with the same hash code. -/
theorem deadlock_two : ∃ s,
    (simulation ℕ ⟨1, 2⟩ (fun _ => 7) 0 int32).system.Reachable s ∧ ¬ Acyclic s fun _ : Place ⟨1, 2⟩ => 7 := by
  have hne : (⟨(0, 0), by decide⟩ : Place ⟨1, 2⟩) ≠ ⟨(0, 1), by decide⟩ := by decide
  exact deadlock hne rfl Nat.zero_ne_one

end ParSweet.ToySoldiersSim.Calls
