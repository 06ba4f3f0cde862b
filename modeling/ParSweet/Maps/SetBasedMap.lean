import ParSweet.Concurrent.Routing
import ParSweet.Maps.Operations
import ParSweet.Sets.Operations

/-! `SetBasedMap` of the C++ suite, over any set: a set of nodes for every bucket, two nodes
being equal when their keys are.

A set does not take an element that is equal to one it has, so `put` does not change the
value of a key: the map is one whose first value wins (`outline`). -/
namespace ParSweet.Maps.SetBasedMap
open Concurrent Sets

/-- A node that was made from a key alone has no value. -/
structure SetBasedMapNode (K V : Type*) where
  key : K
  value : Option V

section Node
variable {K V : Type*} [BEq K]

instance : BEq (SetBasedMapNode K V) := ⟨fun a b => a.key == b.key⟩

instance [EquivBEq K] : EquivBEq (SetBasedMapNode K V) where
  rfl := fun {a} => BEq.refl a.key
  symm := fun {a b} (h : (a.key == b.key) = true) => (PartialEquivBEq.symm h : (b.key == a.key) = true)
  trans := fun {a b c} (h : (a.key == b.key) = true) (h' : (b.key == c.key) = true) =>
    (PartialEquivBEq.trans h h' : (a.key == c.key) = true)

/-- `std::hash<SetBasedMapNode<K, V>>` -/
def hashNode {L : Lang} (V : Type*) (H : Hash L K) : Hash L (SetBasedMapNode K V) where
  hash := fun n => H.hash n.key
  lower := fun n => H.lower n.key
  upper := fun n => H.upper n.key
  respects := fun a b h => H.respects a.key b.key h

end Node

/-! ### What the sets of nodes mean -/

section Binds
variable {ι K V : Type*} [BEq K] {index : K → Option ι} {a : ι → Set (SetBasedMapNode K V)}
  {M : K → Option (Option V)} {i : ι} {k : K} {v : Option V}

/-- The nodes in the sets bind keys to what they carry: a value, or nothing. -/
structure Binds (index : K → Option ι) (a : ι → Set (SetBasedMapNode K V)) (M : K → Option (Option V)) :
    Prop where
  own : ∀ i n, n ∈ a i → index n.key = some i
  value : ∀ i n, n ∈ a i → M n.key = some n.value
  node : ∀ k, M k ≠ none → ∃ i n, index k = some i ∧ n ∈ a i ∧ (k == n.key) = true
  respects : ∀ k k', (k == k') = true → M k = M k'

theorem binds_empty : Binds index (fun _ => (∅ : Set (SetBasedMapNode K V))) fun _ => none where
  own := fun _ _ => nofun
  value := fun _ _ => nofun
  node := fun _ h => absurd rfl h
  respects := fun _ _ _ => rfl

/-- A node with the key is in the bucket's set if and only if the key is bound. -/
theorem Binds.member_iff (h : Binds index a M) (hi : index k = some i) :
    Member (⟨k, v⟩ : SetBasedMapNode K V) (a i) ↔ (M k).isSome := by
  constructor
  · rintro ⟨n, hn, hk⟩
    rw [h.respects k n.key hk, h.value i n hn]
    rfl
  · intro hM
    obtain ⟨j, n, hj, hn, hk⟩ := h.node k (Option.isSome_iff_ne_none.mp hM)
    obtain rfl := Option.some.inj (hi.symm.trans hj)
    exact ⟨n, hn, hk⟩

variable [DecidableEq ι] [EquivBEq K] (hindex : ∀ k k', (k == k') = true → index k = index k')
include hindex

/-- A new key: its node is added to its bucket's set. -/
theorem Binds.put (h : Binds index a M) (hi : index k = some i) (hM : M k = none) :
    Binds index (Function.update a i (insert ⟨k, v⟩ (a i))) fun x => if k == x then some v else M x where
  own := fun j n hn => by
    by_cases hj : j = i
    · subst hj
      rw [Function.update_self] at hn
      rcases hn with rfl | hn
      · exact hi
      · exact h.own j n hn
    · rw [Function.update_of_ne hj] at hn
      exact h.own j n hn
  value := fun j n hn => by
    have hold : ∀ j, n ∈ a j → (if k == n.key then some v else M n.key) = some n.value := by
      intro j hn
      have hk : ¬ (k == n.key) = true := fun hk => by
        have := h.value j n hn
        rw [← h.respects k n.key hk, hM] at this
        cases this
      rw [if_neg hk]
      exact h.value j n hn
    by_cases hj : j = i
    · subst hj
      rw [Function.update_self] at hn
      rcases hn with rfl | hn
      · simp
      · exact hold j hn
    · rw [Function.update_of_ne hj] at hn
      exact hold j hn
  node := fun x hx => by
    by_cases hk : (k == x) = true
    · exact ⟨i, ⟨k, v⟩, (hindex k x hk).symm.trans hi, by simp, PartialEquivBEq.symm hk⟩
    · rw [if_neg hk] at hx
      obtain ⟨j, n, hj, hn, hxn⟩ := h.node x hx
      refine ⟨j, n, hj, ?_, hxn⟩
      by_cases hji : j = i
      · subst hji
        simp [hn]
      · simpa [hji] using hn
  respects := fun x y hxy => by rw [BEq.congr_right hxy, h.respects x y hxy]

/-- Equal keys leave together. -/
theorem Binds.del (h : Binds index a M) (hi : index k = some i) :
    Binds index (Function.update a i {x ∈ a i | ((⟨k, v⟩ : SetBasedMapNode K V) == x) = false})
      fun x => if k == x then none else M x := by
  -- What is left in any of the sets was there, under another key.
  have hleft : ∀ j n, n ∈ Function.update a i {x ∈ a i | ((⟨k, v⟩ : SetBasedMapNode K V) == x) = false} j →
      n ∈ a j ∧ ¬ (k == n.key) = true := by
    intro j n hn
    by_cases hj : j = i
    · subst hj
      rw [Function.update_self] at hn
      exact ⟨hn.1, Bool.eq_false_iff.mp hn.2⟩
    · rw [Function.update_of_ne hj] at hn
      refine ⟨hn, fun hk => hj (Option.some.inj ?_)⟩
      rw [← h.own j n hn, ← hi, hindex k n.key hk]
  refine ⟨fun j n hn => h.own j n (hleft j n hn).1, fun j n hn => ?_, fun x hx => ?_, fun x y hxy => ?_⟩
  · obtain ⟨hn, hk⟩ := hleft j n hn
    rw [if_neg hk]
    exact h.value j n hn
  · have hk : ¬ (k == x) = true := fun hk => hx (if_pos hk)
    rw [if_neg hk] at hx
    obtain ⟨j, n, hj, hn, hxn⟩ := h.node x hx
    refine ⟨j, n, hj, ?_, hxn⟩
    by_cases hji : j = i
    · subst hji
      rw [Function.update_self]
      exact ⟨hn, Bool.eq_false_iff.mpr fun hkn => hk (PartialEquivBEq.trans hkn (PartialEquivBEq.symm hxn))⟩
    · simpa [hji] using hn
  · rw [BEq.congr_right hxy, h.respects x y hxy]

end Binds

/-! ### The map -/

variable {τ K V σ loc χ : Type*} [BEq K]

/-- The bucket of a key; there is none if the index is out of bounds. -/
def bucketOf (H : Hash .cpp K) (NumBuckets : ℕ) (key : K) : Option (Fin NumBuckets) :=
  let index := getBucketIndexOfKey H NumBuckets key
  if h : 0 ≤ index ∧ index < NumBuckets then some ⟨index.toNat, by omega⟩ else none

/-- `put` adds a node to its bucket's set, `get` looks for an equal one and stores its value,
`del` removes it. -/
def routing (V : Type*) (H : Hash .cpp K) (NumBuckets : ℕ) :
    Routing (Fin NumBuckets) (MapOp K V) (MapRes V) (SetOp (SetBasedMapNode K V))
      (SetRes (SetBasedMapNode K V)) where
  index := fun op => bucketOf H NumBuckets op.key
  inner := fun
    | .put key value => .add ⟨key, some value⟩
    | .get key _ => .getEqual ⟨key, none⟩
    | .del key => .remove ⟨key, none⟩
  outer := fun
    | .get _ outValue, r =>
      match r with
      | .found (some n) => .got true n.value
      | _ => .got false outValue
    | _, r =>
      match r with
      | .flag b => .flag b
      | .found n => .flag n.isSome

/-- The map over the set `I`. -/
def implementation (I : Implementation τ (SetOp (SetBasedMapNode K V)) (SetRes (SetBasedMapNode K V)) σ loc χ)
    (H : Hash .cpp K) (NumBuckets : ℕ) :
    Implementation τ (MapOp K V) (MapRes V) (Fin NumBuckets → σ) (MapOp K V × loc) χ :=
  I.route (routing V H NumBuckets)

/-! ### The first value wins -/

/-- The mathematical map in which `put` of a key that is there does nothing. -/
def firstWins (op : MapOp K V) (M : K → Option V) : MapRes V × (K → Option V) :=
  match op with
  | .put key value =>
    if (M key).isNone then (.flag true, fun x => if key == x then some value else M x) else (.flag false, M)
  | .get key outValue => (.got (M key).isSome ((M key).or outValue), M)
  | .del key => (.flag (M key).isSome, fun x => if key == x then none else M x)

variable {H : Hash .cpp K} {NumBuckets : ℕ} {M : K → Option V} {a : Fin NumBuckets → Set (SetBasedMapNode K V)}
  {i : Fin NumBuckets} {k : K} {v : Option V}

/-- The nodes in the sets represent the map. -/
structure Represents (H : Hash .cpp K) (a : Fin NumBuckets → Set (SetBasedMapNode K V)) (M : K → Option V) :
    Prop where
  own : ∀ i n, n ∈ a i → bucketOf H NumBuckets n.key = some i
  value : ∀ i n, n ∈ a i → n.value ≠ none ∧ M n.key = n.value
  node : ∀ k, M k ≠ none → ∃ i n, bucketOf H NumBuckets k = some i ∧ n ∈ a i ∧ (k == n.key) = true
  respects : ∀ k k', (k == k') = true → M k = M k'

theorem bucketOf_eq (k k' : K) (h : (k == k') = true) : bucketOf H NumBuckets k = bucketOf H NumBuckets k' := by
  simp only [bucketOf, index_eq h]

/-- A map of values is one of nodes none of which is without a value. -/
theorem represents_iff : Represents H a M ↔ Binds (bucketOf H NumBuckets) a fun k => (M k).map some := by
  constructor
  · exact fun h => ⟨h.own, fun i n hn => by
      obtain ⟨hv, hM⟩ := h.value i n hn
      obtain ⟨v, hv⟩ := Option.ne_none_iff_exists'.mp hv
      rw [hM, hv, Option.map_some], fun k hk => h.node k fun hM => hk (by rw [hM, Option.map_none]),
      fun k k' hk => by rw [h.respects k k' hk]⟩
  · intro h
    refine ⟨h.own, fun i n hn => ?_, fun k hk => h.node k fun hM => hk (Option.map_eq_none_iff.mp hM),
      fun k k' hk => Option.map_injective (Option.some_injective V) (h.respects k k' hk)⟩
    obtain ⟨v, hM, hv⟩ := Option.map_eq_some_iff.mp (h.value i n hn)
    rw [← hv, hM]
    exact ⟨Option.some_ne_none v, rfl⟩

theorem Represents.member_iff (h : Represents H a M) (hi : bucketOf H NumBuckets k = some i) :
    Member (⟨k, v⟩ : SetBasedMapNode K V) (a i) ↔ (M k).isSome := by
  rw [(represents_iff.mp h).member_iff hi, Option.isSome_map]

theorem Represents.put [EquivBEq K] {value : V} (h : Represents H a M) (hi : bucketOf H NumBuckets k = some i)
    (hM : M k = none) :
    Represents H (Function.update a i (insert ⟨k, some value⟩ (a i)))
      fun x => if k == x then some value else M x := by
  have := (represents_iff.mp h).put bucketOf_eq (v := some value) hi (by rw [hM, Option.map_none])
  simpa only [represents_iff, apply_ite (Option.map some), Option.map_some] using this

theorem Represents.del [EquivBEq K] (h : Represents H a M) (hi : bucketOf H NumBuckets k = some i) :
    Represents H (Function.update a i {x ∈ a i | ((⟨k, v⟩ : SetBasedMapNode K V) == x) = false})
      fun x => if k == x then none else M x := by
  have := (represents_iff.mp h).del bucketOf_eq (v := v) hi
  simpa only [represents_iff, apply_ite (Option.map some), Option.map_none] using this

/-- **Every answer of the sets is the map's**, and what the sets then hold is its next value. -/
theorem Represents.apply [EquivBEq K] {op : MapOp K V} {r : MapRes V}
    {a' : Fin NumBuckets → Set (SetBasedMapNode K V)} (h : Represents H a M)
    (hap : (Spec.route (routing V H NumBuckets) setSpec).apply op a r a') :
    ∃ M', firstWins op M = (r, M') ∧ Represents H a' M' := by
  obtain ⟨i, r', x, hi, hap, rfl, rfl⟩ := hap
  have hap : SetApply ((routing V H NumBuckets).inner op) (a i) r' x := hap
  cases op with
  | put k value =>
    have hi : bucketOf H NumBuckets k = some i := hi
    rcases hap.add_cases with ⟨hmem, rfl, rfl⟩ | ⟨hmem, rfl, rfl⟩
    · have hM : M k = none := by simpa [h.member_iff hi] using hmem
      exact ⟨_, by simp [firstWins, hM, routing], h.put hi hM⟩
    · have hM : (M k).isSome = true := (h.member_iff hi).mp hmem
      rw [Function.update_eq_self]
      refine ⟨M, ?_, h⟩
      have : (M k).isNone = false := by simpa [Option.isSome_iff_ne_none] using hM
      simp [firstWins, this, routing]
  | get k out =>
    have hi : bucketOf H NumBuckets k = some i := hi
    cases hap with
    | @getEqual _ n _ hn hk =>
      obtain ⟨hv, hM⟩ := h.value i n hn
      have hMk : M k = n.value := (h.respects k n.key hk).trans hM
      rw [Function.update_eq_self]
      refine ⟨M, ?_, h⟩
      obtain ⟨v, hv⟩ := Option.ne_none_iff_exists'.mp hv
      simp [firstWins, routing, hMk, hv]
    | getEqualMissing hmem =>
      have hM : M k = none := by simpa [h.member_iff hi] using hmem
      rw [Function.update_eq_self]
      exact ⟨M, by simp [firstWins, routing, hM], h⟩
  | del k =>
    have hi : bucketOf H NumBuckets k = some i := hi
    rcases hap.remove_cases with ⟨hmem, rfl, rfl⟩ | ⟨hmem, rfl, rfl⟩
    · have hM : (M k).isSome = true := (h.member_iff hi).mp hmem
      exact ⟨_, by simp [firstWins, routing, hM], h.del hi⟩
    · have hM : M k = none := by simpa [h.member_iff hi] using hmem
      rw [Function.update_eq_self]
      refine ⟨M, ?_, h⟩
      simp only [firstWins, routing, hM, Option.isSome_none, Prod.mk.injEq, true_and]
      funext x
      by_cases hx : (k == x) = true
      · rw [if_pos hx, ← h.respects k x hx, hM]
      · rw [if_neg hx]

theorem represents_empty :
    Represents H (fun _ : Fin NumBuckets => (∅ : Set (SetBasedMapNode K V))) fun _ => none :=
  represents_iff.mpr binds_empty

variable {I : Implementation τ (SetOp (SetBasedMapNode K V)) (SetRes (SetBasedMapNode K V)) σ loc χ}

/-- **Over any set with an outline, the map is the one whose first value wins.** -/
def outline [EquivBEq K] (P : Outline I setSpec) (H : Hash .cpp K) (NumBuckets : ℕ) :
    Outline (implementation I H NumBuckets) (Spec.ofFun firstWins fun _ => none) :=
  (P.route (routing V H NumBuckets)).refine _ (Represents H) represents_empty
    fun _ _ _ _ _ h hap => h.apply hap

end ParSweet.Maps.SetBasedMap
