import ParSweet.Maps.Interchange
import ParSweet.Maps.JavaLockHashMap

/-! `SetBasedMap` of the Java suite, over any of the three sets, called by one thread.

Its `put` and `remove` answer `null`, whatever they find, and `put` does not change the
value of a key that is there. That is `java.util.Map` as long as there is nothing to
answer, and no old value in the way of the last one. -/
namespace ParSweet.Sets
open Concurrent

variable {τ T : Type*} [BEq T] {H : Hash .java T} {me : τ}

/-! ### Java leaves nothing open -/

/-- Java locks the predecessor first. -/
theorem walk_choice {w : Walk} {s : Store τ T} {t : T} (c c' : Bool) :
    w.step H me s t c = w.step H me s t c' := by
  cases w with
  | lock p n held => cases held <;> simp [Walk.step, lockBoth]
  | _ => rfl

theorem LazySet.deterministic (H : Hash .java T) (me : τ) : (LazySet.implementation τ H).Deterministic me where
  step := fun s l c c' => by
    obtain ⟨op, pc⟩ := l
    cases pc with
    | walk w => simp only [implementation, step, walk_choice c c']
    | _ => rfl
  stop := fun s l c r hr => by
    obtain ⟨op, pc⟩ := l
    cases pc with
    | returned r => rfl
    | _ => cases hr

theorem OptimisticSet.deterministic (H : Hash .java T) (me : τ) :
    (OptimisticSet.implementation τ H).Deterministic me where
  step := fun s l c c' => by
    obtain ⟨op, pc⟩ := l
    cases pc with
    | walk w => simp only [implementation, step, walk_choice c c']
    | _ => rfl
  stop := fun s l c r hr => by
    obtain ⟨op, pc⟩ := l
    cases pc with
    | returned r => rfl
    | _ => cases hr

end ParSweet.Sets

namespace ParSweet.Maps.JavaSetBasedMap
open Concurrent Sets SetBasedMap

def N_BUCKETS : ℕ := 16

variable {τ K V σ loc χ : Type*} [BEq K]

/-- The bucket of a key; there is none if the index is out of bounds, and the call throws. -/
def bucketOf (H : Hash .java K) (key : K) : Option (Fin N_BUCKETS) :=
  let index := getBucketIndexOfKey H N_BUCKETS key
  if h : 0 ≤ index ∧ index < N_BUCKETS then some ⟨index.toNat, by omega⟩ else none

/-- `put` adds a node to its bucket's set, `get` looks for an equal one, `remove` removes it.
A value that is `none` is `null`. -/
def routing (V : Type*) (H : Hash .java K) :
    Routing (Fin N_BUCKETS) (MapOp K (Option V)) (MapRes V) (SetOp (SetBasedMapNode K V))
      (SetRes (SetBasedMapNode K V)) where
  index := fun op => bucketOf H op.key
  inner := fun
    | .put key value => .add ⟨key, value⟩
    | .get key _ => .getEqual ⟨key, none⟩
    | .del key => .remove ⟨key, none⟩
  outer := fun
    | .get _ _, r =>
      match r with
      | .found (some n) => .value n.value
      | _ => .value none
    | _, _ => .value none

/-- The map over the set `I`. -/
def implementation (I : Implementation τ (SetOp (SetBasedMapNode K V)) (SetRes (SetBasedMapNode K V)) σ loc χ)
    (H : Hash .java K) :
    Implementation τ (MapOp K (Option V)) (MapRes V) (Fin N_BUCKETS → σ) (MapOp K (Option V) × loc) χ :=
  I.route (routing V H)

/-! ### What the calls should do, and what they do -/

/-- `java.util.Map`: the last value put is bound, and every call answers what the key was
bound to, or `null`. -/
def javaMap (op : MapOp K (Option V)) (M : K → Option (Option V)) : MapRes V × (K → Option (Option V)) :=
  (.value (M op.key).join, (lastWins .java op M).2)

/-- The first value put stays, and only `get` answers anything but `null`. -/
def keepsFirst (op : MapOp K (Option V)) (M : K → Option (Option V)) : MapRes V × (K → Option (Option V)) :=
  match op with
  | .put key value => (.value none, if (M key).isNone then fun x => if key == x then some value else M x else M)
  | .get key _ => (.value (M key).join, M)
  | .del key => (.value none, fun x => if key == x then none else M x)

variable {H : Hash .java K} {M M' : K → Option (Option V)} {a : Fin N_BUCKETS → Set (SetBasedMapNode K V)}

theorem bucketOf_eq (k k' : K) (h : (k == k') = true) : bucketOf H k = bucketOf H k' := by
  simp only [bucketOf, index_eq h]

/-- **Every answer of the sets is the one of the map that keeps the first value.** -/
theorem binds_apply [EquivBEq K] {op : MapOp K (Option V)} {r : MapRes V}
    {a' : Fin N_BUCKETS → Set (SetBasedMapNode K V)} (h : Binds (bucketOf H) a M)
    (hap : (Spec.route (routing V H) setSpec).apply op a r a') :
    ∃ M', keepsFirst op M = (r, M') ∧ Binds (bucketOf H) a' M' := by
  obtain ⟨i, r', x, hi, hap, rfl, rfl⟩ := hap
  have hap : SetApply ((routing V H).inner op) (a i) r' x := hap
  cases op with
  | put k value =>
    have hi : bucketOf H k = some i := hi
    rcases hap.add_cases with ⟨hmem, rfl, rfl⟩ | ⟨hmem, rfl, rfl⟩
    · have hM : M k = none := by simpa [h.member_iff hi] using hmem
      exact ⟨_, by simp [keepsFirst, hM, routing], h.put bucketOf_eq hi hM⟩
    · have hM : (M k).isNone = false := by simpa [h.member_iff hi, Option.isSome_iff_ne_none] using hmem
      rw [Function.update_eq_self]
      exact ⟨M, by simp [keepsFirst, hM, routing], h⟩
  | get k out =>
    have hi : bucketOf H k = some i := hi
    cases hap with
    | @getEqual _ n _ hn hk =>
      rw [Function.update_eq_self]
      exact ⟨M, by simp [keepsFirst, routing, h.respects k n.key hk, h.value i n hn], h⟩
    | getEqualMissing hmem =>
      have hM : M k = none := by simpa [h.member_iff hi] using hmem
      rw [Function.update_eq_self]
      exact ⟨M, by simp [keepsFirst, routing, hM], h⟩
  | del k =>
    have hi : bucketOf H k = some i := hi
    rcases hap.remove_cases with ⟨hmem, rfl, rfl⟩ | ⟨hmem, rfl, rfl⟩
    · exact ⟨_, by simp [keepsFirst, routing], h.del bucketOf_eq hi⟩
    · have hM : M k = none := by simpa [h.member_iff hi] using hmem
      rw [Function.update_eq_self]
      refine ⟨M, ?_, h⟩
      simp only [keepsFirst, routing, Prod.mk.injEq, true_and]
      funext x
      by_cases hx : (k == x) = true
      · rw [if_pos hx, ← h.respects k x hx, hM]
      · rw [if_neg hx]

variable {I : Implementation τ (SetOp (SetBasedMapNode K V)) (SetRes (SetBasedMapNode K V)) σ loc χ}

/-- **Over any set with an outline, the map is the one that keeps the first value.** -/
def outline [EquivBEq K] (P : Outline I setSpec) (H : Hash .java K) :
    Outline (implementation I H) (Spec.ofFun keepsFirst fun _ => none) :=
  (P.route (routing V H)).refine _ (Binds (bucketOf H)) binds_empty fun _ _ _ _ _ h hap => binds_apply h hap

/-! ### Where the two agree -/

variable {vs : K → List (Option V)} {op : MapOp K (Option V)} {ops : List (MapOp K (Option V))} {k : K}

/-- `vs` are the values put under the key since it was last removed. -/
def Agrees (vs : List (Option V)) : MapOp K (Option V) → Prop
  | .get _ _ => vs.head?.join = vs.getLast?.join
  | _ => vs.getLast?.join = none

/-- Every `put` and every `remove` finds its key without a value, and wherever a key is looked
up, the first and the last value put since its last removal are the same; `vs` are the values
before `ops`. -/
def NothingBefore (vs : K → List (Option V)) (ops : List (MapOp K (Option V))) : Prop :=
  ∀ i op, ops[i]? = some op → Agrees ((ops.take i).foldl (track op.key) (vs op.key)) op

theorem nothingBefore_cons : NothingBefore vs (op :: ops) ↔
    Agrees (vs op.key) op ∧ NothingBefore (fun k => track k (vs k) op) ops := by
  constructor
  · exact fun h => ⟨h 0 op rfl, fun i op hi => h (i + 1) op hi⟩
  · rintro ⟨h₀, h⟩ i op' hi
    cases i with
    | zero => exact Option.some.inj hi ▸ h₀
    | succ i => exact h i op' hi

theorem nothingBefore_nil : NothingBefore vs [] := fun _ _ hi => nomatch hi

/-- The values under every key, and what the two maps make of them. -/
structure Tracks (vs : K → List (Option V)) (M M' : K → Option (Option V)) : Prop where
  last : ∀ k, M k = (vs k).getLast?
  first : ∀ k, M' k = (vs k).head?
  respects : ∀ k k', (k == k') = true → vs k = vs k'

theorem Tracks.step [EquivBEq K] (h : Tracks vs M M') (op : MapOp K (Option V)) :
    Tracks (fun k => track k (vs k) op) (javaMap op M).2 (keepsFirst op M').2 where
  last := fun x => by
    cases op with
    | put key value => by_cases hx : (key == x) = true <;> simp [javaMap, lastWins, track, hx, h.last x]
    | get key out => exact h.last x
    | del key => by_cases hx : (key == x) = true <;> simp [javaMap, lastWins, track, hx, h.last x]
  first := fun x => by
    cases op with
    | put key value =>
      by_cases hx : (key == x) = true
      · have hkey := h.first key
        rw [h.respects key x hx] at hkey
        cases hvs : vs x with
        | nil => simp [keepsFirst, track, hx, hkey, hvs]
        | cons w ws => simp [keepsFirst, track, hx, hkey, hvs, h.first x]
      · cases hkey : M' key <;> simp [keepsFirst, track, hx, hkey, h.first x]
    | get key out => exact h.first x
    | del key => by_cases hx : (key == x) = true <;> simp [keepsFirst, track, hx, h.first x]
  respects := fun x y hxy => by
    cases op with
    | put key value => simp only [track, BEq.congr_right hxy, h.respects x y hxy]
    | get key out => exact h.respects x y hxy
    | del key => simp only [track, BEq.congr_right hxy, h.respects x y hxy]

theorem Tracks.answer_eq_iff (h : Tracks vs M M') :
    (keepsFirst op M').1 = (javaMap op M).1 ↔ Agrees (vs op.key) op := by
  cases op with
  | put key value => simpa [keepsFirst, javaMap, Agrees, h.last, MapOp.key] using eq_comm
  | get key out => simp [keepsFirst, javaMap, Agrees, h.last, h.first, MapOp.key]
  | del key => simpa [keepsFirst, javaMap, Agrees, h.last, MapOp.key] using eq_comm

/-- **The two maps answer the same** if and only if nothing is ever in the way. -/
theorem results_eq_iff [EquivBEq K] (h : Tracks vs M M') :
    results keepsFirst M' ops = results javaMap M ops ↔ NothingBefore vs ops := by
  induction ops generalizing vs M M' with
  | nil => exact ⟨fun _ => nothingBefore_nil, fun _ => rfl⟩
  | cons op ops ih =>
    rw [nothingBefore_cons, ← ih (h.step op), ← h.answer_eq_iff]
    simp [results]

/-! ### The calls of one thread -/

/-- One thread calls the operations on an empty map: all of them return, from wherever they get
to, and answer what a `java.util.Map` answers. -/
structure Correct (I : Implementation τ (SetOp (SetBasedMapNode K V)) (SetRes (SetBasedMapNode K V)) σ loc χ)
    (H : Hash .java K) (me : τ) (ops : List (MapOp K (Option V))) : Prop where
  returns : ∃ rs s, (implementation I H).Calls me (implementation I H).store ops rs s
  goesOn : ∀ pre op post rs s x, ops = pre ++ op :: post →
    (implementation I H).Calls me (implementation I H).store pre rs s →
    (implementation I H).Alone me (s, (implementation I H).start op) x →
    (implementation I H).Returns me (fun _ => True) x.1 x.2
  answers : ∀ rs s, (implementation I H).Calls me (implementation I H).store ops rs s →
    rs = results javaMap (fun _ => none) ops

theorem exists_bucket (hk : 0 ≤ H.hash k) : ∃ i, bucketOf H k = some i := by
  have h₀ : 0 ≤ getBucketIndexOfKey H N_BUCKETS k := Int.tmod_nonneg _ hk
  have h₁ : getBucketIndexOfKey H N_BUCKETS k < N_BUCKETS := index_lt (by decide)
  exact ⟨_, dif_pos ⟨h₀, h₁⟩⟩

theorem correct_iff [EquivBEq K] {me : τ} (P : Outline I setSpec) (D : I.Deterministic me) {Q : σ → Prop}
    (h : ∀ s A op, P.Inv s A → Q s → ∃ r s', I.Answers me s op r s' ∧ Q s') (h₀ : Q I.store)
    (hops : ∀ op ∈ ops, 0 ≤ H.hash op.key) : Correct I H me ops ↔ NothingBefore (fun _ => []) ops := by
  have hready : ∀ op ∈ ops, ∀ s M, (outline P H).Inv s M → (∀ i, Q (s i)) →
      ∃ r s', (implementation I H).Answers me s op r s' ∧ ∀ i, Q (s' i) := by
    rintro op hop s M ⟨a, hinv, _⟩ hq
    obtain ⟨i, hi⟩ := exists_bucket (hops op hop)
    obtain ⟨r, x, hr, hx⟩ := h (s i) (a i) ((routing V H).inner op) (hinv i) (hq i)
    refine ⟨_, _, hr.route hi, fun j => ?_⟩
    by_cases hj : j = i
    · subst hj
      simpa using hx
    · simpa [hj] using hq j
  have hinit : (outline P H).Inv (implementation I H).store fun _ => none := (outline P H).initial
  have hresults : ∀ {rs s}, (implementation I H).Calls me (implementation I H).store ops rs s →
      rs = results keepsFirst (fun _ => none) ops := fun hc => ((outline P H).calls_results hinit hc).1
  have hcalls := (outline P H).exists_calls hready hinit fun _ => h₀
  have htracks : Tracks (fun _ : K => ([] : List (Option V))) (fun _ => none) fun _ => none :=
    ⟨fun _ => rfl, fun _ => rfl, fun _ _ _ => rfl⟩
  rw [← results_eq_iff htracks]
  constructor
  · intro hc
    obtain ⟨rs, s, hrs⟩ := hcalls
    rw [← hresults hrs]
    exact hc.answers rs s hrs
  · intro hsame
    refine ⟨hcalls, fun pre op post rs s x hpre hc hx => ?_, fun rs s hrs => (hresults hrs).trans hsame⟩
    obtain ⟨s', l', r, hl, hr, _⟩ :=
      (outline P H).calls_returns (D.route (routing V H)) hready hinit (fun _ => h₀) hpre hc hx
    exact ⟨s', l', r, hl, hr, trivial⟩

section Sets
variable [EquivBEq K] {me : τ} (hops : ∀ op ∈ ops, 0 ≤ H.hash op.key)
include hops

theorem fineGrained_iff : Correct (FineGrainedSet.implementation τ (hashNode V H)) H me ops ↔
    NothingBefore (fun _ => []) ops :=
  correct_iff (FineGrainedSet.outline τ _) (FineGrainedSet.deterministic _ me) (Q := Quiet)
    (fun _ _ op hinv hq => FineGrainedSet.answers_alone hinv.1 hq me op) initial_quiet hops

theorem optimistic_iff : Correct (OptimisticSet.implementation τ (hashNode V H)) H me ops ↔
    NothingBefore (fun _ => []) ops :=
  correct_iff (OptimisticSet.outline τ _) (OptimisticSet.deterministic _ me) (Q := Quiet)
    (fun _ _ op hinv hq => OptimisticSet.answers_alone hinv.1 hq me op) initial_quiet hops

theorem lazy_iff : Correct (LazySet.implementation τ (hashNode V H)) H me ops ↔
    NothingBefore (fun _ => []) ops :=
  correct_iff (LazySet.outline τ _) (LazySet.deterministic _ me) (Q := Quiet)
    (fun _ _ op hinv hq => LazySet.answers_alone hinv.1 hq me op) initial_quiet hops

end Sets

/-- **The Java map is a `java.util.Map`** for a sequence of calls on keys with hashes that are
not negative, over any of the three sets, if and only if every `put` and every `remove` finds
its key without a value, and for every `get` the first and the last value put under the key
since it was last removed are the same. -/
theorem java_setBasedMap_correct_iff [EquivBEq K] (H : Hash .java K) (me : τ)
    (ops : List (MapOp K (Option V))) (hops : ∀ op ∈ ops, 0 ≤ H.hash op.key) :
    (Correct (FineGrainedSet.implementation τ (hashNode V H)) H me ops ↔
        NothingBefore (fun _ => []) ops) ∧
      (Correct (OptimisticSet.implementation τ (hashNode V H)) H me ops ↔
        NothingBefore (fun _ => []) ops) ∧
      (Correct (LazySet.implementation τ (hashNode V H)) H me ops ↔ NothingBefore (fun _ => []) ops) :=
  ⟨fineGrained_iff hops, optimistic_iff hops, lazy_iff hops⟩

theorem java_setBasedMap_correct_integer :
    Correct (LazySet.implementation ℕ (hashNode ℕ LockHashMap.integerHash)) LockHashMap.integerHash 0
      [.put 7 (some 1), .put 22 (some 2), .get 7 none, .del 3, .get 22 none] :=
  (java_setBasedMap_correct_iff LockHashMap.integerHash 0 _ (by decide)).2.2.mpr (by
    simp [nothingBefore_cons, nothingBefore_nil, track, Agrees, MapOp.key])

/-- `put(1, 1); put(1, 2)` answers `null` and `get(1)` then 1, whatever the set; and so does
`put(1, 1); remove(1)` answer `null`. -/
theorem java_put_keeps_first :
    (¬ Correct (FineGrainedSet.implementation ℕ (hashNode ℕ LockHashMap.integerHash)) LockHashMap.integerHash 0
        [.put 1 (some 1), .put 1 (some 2), .get 1 none] ∧
      ¬ Correct (OptimisticSet.implementation ℕ (hashNode ℕ LockHashMap.integerHash)) LockHashMap.integerHash 0
        [.put 1 (some 1), .put 1 (some 2), .get 1 none] ∧
      ¬ Correct (LazySet.implementation ℕ (hashNode ℕ LockHashMap.integerHash)) LockHashMap.integerHash 0
        [.put 1 (some 1), .put 1 (some 2), .get 1 none]) ∧
    ¬ Correct (LazySet.implementation ℕ (hashNode ℕ LockHashMap.integerHash)) LockHashMap.integerHash 0
      [.put 1 (some 1), .del 1] := by
  have hput : ¬ NothingBefore (fun _ => [])
      [MapOp.put (1 : BitVec 32) (some 1), .put 1 (some 2), .get 1 (none : Option (Option ℕ))] :=
    fun h => by simpa [Agrees, track, MapOp.key] using h 1 (.put 1 (some 2)) rfl
  have hdel : ¬ NothingBefore (fun _ => []) [MapOp.put (1 : BitVec 32) (some (1 : ℕ)), .del 1] :=
    fun h => by simpa [Agrees, track, MapOp.key] using h 1 (.del 1) rfl
  exact ⟨⟨fun h => hput ((fineGrained_iff (by decide)).mp h), fun h => hput ((optimistic_iff (by decide)).mp h),
    fun h => hput ((lazy_iff (by decide)).mp h)⟩, fun h => hdel ((lazy_iff (by decide)).mp h)⟩

end ParSweet.Maps.JavaSetBasedMap
