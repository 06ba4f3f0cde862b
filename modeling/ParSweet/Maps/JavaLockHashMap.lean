import ParSweet.Counter
import ParSweet.Maps.LockHashMap

/-! `LockHashMap` of the Java suite, called by one thread.

The remainder of a negative `hashCode()` is not positive, and where it is negative there is
no such bucket: the call throws before it has done anything. On all other keys the calls are
those of `java.util.Map`. -/
namespace ParSweet.Maps.LockHashMap
open Concurrent

def N_BUCKETS : ℕ := 16

variable {τ K V : Type*} [BEq K] {H : Hash .java K} {me : τ} {ops : List (MapOp K V)} {op : MapOp K V}

/-- The operations, called one after the other on an empty map, all return what a
mathematical map answers, and none throws. -/
structure Correct (H : Hash .java K) (me : τ) (ops : List (MapOp K V)) : Prop where
  noThrow : ∀ pre op post rs s x, ops = pre ++ op :: post →
    (implementation τ V H N_BUCKETS).Calls me .initial pre rs s →
    (implementation τ V H N_BUCKETS).Alone me (s, ⟨op, .lock⟩) x → x.2.pc ≠ .fault
  returns : ∃ rs s, (implementation τ V H N_BUCKETS).Calls me .initial ops rs s
  answers : ∀ rs s, (implementation τ V H N_BUCKETS).Calls me .initial ops rs s →
    rs = results (lastWins .java) (fun _ => none) ops

/-- The remainder is negative only for a negative hash that 15 does not divide. -/
theorem index_nonneg_iff {k : K} :
    0 ≤ getBucketIndexOfKey H N_BUCKETS k ↔ 0 ≤ H.hash k ∨ 15 ∣ H.hash k :=
  tmod_nonneg_iff (H.hash k) 15

/-- A key whose index is negative makes the call throw at once. -/
theorem alone_throws {s : Store τ K V} {x : Store τ K V × Local K V}
    (hneg : ¬ 0 ≤ getBucketIndexOfKey H N_BUCKETS op.key)
    (h : (implementation τ V H N_BUCKETS).Alone me (s, ⟨op, .lock⟩) x) :
    x = (s, ⟨op, .lock⟩) ∨ x = (s, ⟨op, .fault⟩) := by
  induction h with
  | refl => exact .inl rfl
  | tail _ hstep ih =>
    obtain ⟨_, hstep⟩ := hstep
    rcases ih with rfl | rfl
    · simp only [implementation, step, hneg, false_and, if_false, Option.some.injEq] at hstep
      exact .inr hstep.symm
    · simp [implementation, step] at hstep

/-- So a call with such a key never returns. -/
theorem Correct.index_nonneg (h : Correct H me ops) : ∀ op ∈ ops, 0 ≤ getBucketIndexOfKey H N_BUCKETS op.key := by
  obtain ⟨rs, s, hcalls⟩ := h.returns
  clear h
  generalize Store.initial = s₀ at hcalls
  induction hcalls with
  | nil => nofun
  | @cons s op r s₁ ops rs s' hr _ ih =>
    refine List.forall_mem_cons.mpr ⟨?_, ih⟩
    by_contra hneg
    obtain ⟨l, hl, hres⟩ := hr
    rcases alone_throws hneg hl with he | he <;> cases he <;> cases hres

/-- **On keys with a bucket the calls are those of the map.** -/
theorem correct_of_index [EquivBEq K] (h : ∀ op ∈ ops, 0 ≤ getBucketIndexOfKey H N_BUCKETS op.key) :
    Correct H me ops where
  noThrow := by
    rintro pre op post rs s x rfl hcalls hx hf
    obtain ⟨_, M, hinv⟩ := (outline τ V H N_BUCKETS).calls_results (initial_mapInv _) hcalls
    have hx : (implementation τ V H N_BUCKETS).Alone me (s, (implementation τ V H N_BUCKETS).start op) x := hx
    obtain ⟨_, ⟨_, hop, hp⟩ | ⟨r, _, _, _, hd⟩⟩ := (outline τ V H N_BUCKETS).alone hinv hx
    · rw [hf] at hp
      exact hp ⟨h op (by simp), index_lt (by decide)⟩
    · rw [show (outline τ V H N_BUCKETS).Done me r x.1 x.2 = DoneAt H N_BUCKETS x.1 me x.2.op r x.2.pc from rfl,
        hf] at hd
      exact hd.elim
  returns := (outline τ V H N_BUCKETS).exists_calls (fun op hop s M hinv hfree =>
      answers_alone hinv hfree me op (h op hop) (index_lt (by decide))) (initial_mapInv _) fun _ => rfl
  answers := fun rs s hcalls =>
    ((outline τ V H N_BUCKETS).calls_results (initial_mapInv _) hcalls).1

/-- **The Java map is a `java.util.Map`** for a sequence of calls if and only if every key in
it has a hash that is not negative or a multiple of 15. -/
theorem java_lockHashMap_correct_iff [EquivBEq K] (H : Hash .java K) (me : τ) (ops : List (MapOp K V)) :
    Correct H me ops ↔ ∀ op ∈ ops, 0 ≤ H.hash op.key ∨ 15 ∣ H.hash op.key :=
  ⟨fun h op hop => index_nonneg_iff.mp (h.index_nonneg op hop), fun h =>
    correct_of_index fun op hop => index_nonneg_iff.mpr (h op hop)⟩

/-- `Integer`, whose hash code is its value. -/
def integerHash : Hash .java (BitVec 32) where
  hash := BitVec.toInt
  lower := BitVec.le_toInt
  upper := fun k => Int.le_of_lt_add_one BitVec.toInt_lt
  respects := fun _ _ h => by rw [eq_of_beq h]

theorem java_lockHashMap_correct_integer :
    Correct integerHash 0 [.put 7 1, .put (-15) 2, .put 22 3, .get 7 none, .del (-15)] :=
  (java_lockHashMap_correct_iff integerHash 0 _).mpr (by decide)

/-- `put(-1, 7)` throws: the index is -1. -/
theorem java_put_negative :
    (implementation ℕ ℕ integerHash N_BUCKETS).Alone 0 (.initial, ⟨.put (-1) 7, .lock⟩)
        (.initial, ⟨.put (-1) 7, .fault⟩) ∧
      ¬ Correct integerHash 0 [.put (-1) 7] :=
  ⟨.single ⟨(), rfl⟩, fun h => absurd (h.index_nonneg _ List.mem_cons_self) (by decide)⟩

end ParSweet.Maps.LockHashMap
