import ParSweet.Maps.LockHashMap
import ParSweet.Maps.SetBasedMap
import ParSweet.Sets.FineGrainedSet
import ParSweet.Sets.LazySet
import ParSweet.Sets.OptimisticSet

/-! The two C++ maps side by side, called by one thread.

In `LockHashMap` the last value put wins, in `SetBasedMap` the first. The two can be told
apart by a `get` if and only if it is of a key for which, since the key was last deleted,
the first and the last value put are not the same. -/
namespace ParSweet.Maps
open Concurrent Sets

variable {τ K V : Type*} [BEq K]

/-- What the caller of a map compares: the answers of `get` and `del`. -/
def observed : List (MapOp K V) → List (MapRes V) → List (MapRes V)
  | .put _ _ :: ops, _ :: rs => observed ops rs
  | _ :: ops, r :: rs => r :: observed ops rs
  | _, _ => []

/-- The values put under `k` since it was last deleted, oldest first. -/
def track (k : K) (vs : List V) : MapOp K V → List V
  | .put key value => if key == k then vs ++ [value] else vs
  | .get _ _ => vs
  | .del key => if key == k then [] else vs

/-- Wherever `k` is looked up, the first and the last value put since its last deletion are
the same; `vs` are the values before `ops`. -/
def FirstIsLast (vs : K → List V) (ops : List (MapOp K V)) : Prop :=
  ∀ i k out, ops[i]? = some (.get k out) →
    ((ops.take i).foldl (track k) (vs k)).head? = ((ops.take i).foldl (track k) (vs k)).getLast?

variable {vs : K → List V} {op : MapOp K V} {ops : List (MapOp K V)} {M M' : K → Option V} {k : K} {v : V}

theorem firstIsLast_cons : FirstIsLast vs (op :: ops) ↔
    (∀ k out, op = .get k out → (vs k).head? = (vs k).getLast?) ∧
      FirstIsLast (fun k => track k (vs k) op) ops := by
  constructor
  · exact fun h => ⟨fun k out hop => h 0 k out (by rw [hop]; rfl), fun i k out hi => h (i + 1) k out hi⟩
  · rintro ⟨h₀, h⟩ i k out hi
    cases i with
    | zero => exact h₀ k out (Option.some.inj hi)
    | succ i => exact h i k out hi

theorem firstIsLast_nil : FirstIsLast vs [] := fun _ _ _ hi => nomatch hi

/-- The values under every key, and what the two maps make of them. -/
structure Tracks (vs : K → List V) (M M' : K → Option V) : Prop where
  last : ∀ k, M k = (vs k).getLast?
  first : ∀ k, M' k = (vs k).head?
  respects : ∀ k k', (k == k') = true → vs k = vs k'

theorem Tracks.step [EquivBEq K] (h : Tracks vs M M') (op : MapOp K V) :
    Tracks (fun k => track k (vs k) op) (lastWins .cpp op M).2 (SetBasedMap.firstWins op M').2 where
  last := fun x => by
    cases op with
    | put key value => by_cases hx : (key == x) = true <;> simp [lastWins, track, hx, h.last x]
    | get key out => exact h.last x
    | del key => by_cases hx : (key == x) = true <;> simp [lastWins, track, hx, h.last x]
  first := fun x => by
    cases op with
    | put key value =>
      by_cases hx : (key == x) = true
      · have hkey := h.first key
        rw [h.respects key x hx] at hkey
        cases hvs : vs x with
        | nil => simp [SetBasedMap.firstWins, track, hx, hkey, hvs]
        | cons w ws => simp [SetBasedMap.firstWins, track, hx, hkey, hvs, h.first x]
      · cases hkey : M' key <;> simp [SetBasedMap.firstWins, track, hx, hkey, h.first x]
    | get key out => exact h.first x
    | del key => by_cases hx : (key == x) = true <;> simp [SetBasedMap.firstWins, track, hx, h.first x]
  respects := fun x y hxy => by
    cases op with
    | put key value => simp only [track, BEq.congr_right hxy, h.respects x y hxy]
    | get key out => exact h.respects x y hxy
    | del key => simp only [track, BEq.congr_right hxy, h.respects x y hxy]

/-- A lookup tells the two maps apart if the first and the last value are not the same. -/
theorem Tracks.get_eq_iff (h : Tracks vs M M') {out : Option V} :
    (lastWins .cpp (.get k out) M).1 = (SetBasedMap.firstWins (.get k out) M').1 ↔
      (vs k).head? = (vs k).getLast? := by
  simp only [lastWins, SetBasedMap.firstWins, MapOp.answer, MapOp.key, h.last k, h.first k]
  cases vs k with
  | nil => simp
  | cons w ws => simpa using eq_comm

/-- A deletion does not. -/
theorem Tracks.del_eq (h : Tracks vs M M') :
    (lastWins .cpp (.del k) M).1 = (SetBasedMap.firstWins (.del k) M').1 := by
  simp only [lastWins, SetBasedMap.firstWins, MapOp.answer, MapOp.key, h.last k, h.first k]
  cases vs k <;> simp

/-- **Where the first value wins and where the last value wins one observes the same** if and
only if the two are the same wherever a key is looked up. -/
theorem observed_eq_iff [EquivBEq K] (h : Tracks vs M M') :
    observed ops (results (lastWins .cpp) M ops) = observed ops (results SetBasedMap.firstWins M' ops) ↔
      FirstIsLast vs ops := by
  induction ops generalizing vs M M' with
  | nil => exact ⟨fun _ => firstIsLast_nil, fun _ => rfl⟩
  | cons op ops ih =>
    rw [firstIsLast_cons, ← ih (h.step op)]
    cases op with
    | put key value => simp [results, observed]
    | get key out => simp [results, observed, h.get_eq_iff]
    | del key => simp [results, observed, h.del_eq]

/-! ### The two maps -/

/-- One thread makes the calls of `ops` on a fresh map `I`, and another time on a fresh map
`J`: all calls return, and `get` and `del` answer the same. -/
structure Interchangeable {σ σ' loc loc' χ χ' : Type*}
    (I : Implementation τ (MapOp K V) (MapRes V) σ loc χ)
    (J : Implementation τ (MapOp K V) (MapRes V) σ' loc' χ') (me : τ) (ops : List (MapOp K V)) : Prop where
  left : ∃ rs s, I.Calls me I.store ops rs s
  right : ∃ rs s, J.Calls me J.store ops rs s
  same : ∀ rs s qs t, I.Calls me I.store ops rs s → J.Calls me J.store ops qs t →
    observed ops rs = observed ops qs

variable {H : Hash .cpp K} {NumBuckets : ℕ} {me : τ} {σ loc χ : Type*}
  {I : Implementation τ (SetOp (SetBasedMap.SetBasedMapNode K V)) (SetRes (SetBasedMap.SetBasedMapNode K V)) σ loc χ}

theorem LockHashMap.exists_calls [EquivBEq K] (hN : 2 ≤ NumBuckets) :
    ∃ rs s, (LockHashMap.implementation τ V H NumBuckets).Calls me .initial ops rs s :=
  (LockHashMap.outline τ V H NumBuckets).exists_calls (fun op _ _ _ hinv hfree =>
    LockHashMap.answers_alone hinv hfree me op index_nonneg (index_lt hN))
    (initial_mapInv _) fun _ => rfl

/-- If a set's calls return when they run alone, so do the map's. -/
theorem SetBasedMap.exists_calls [EquivBEq K] (P : Outline I setSpec) {Q : σ → Prop} (hN : 2 ≤ NumBuckets)
    (h : ∀ s A op, P.Inv s A → Q s → ∃ r s', I.Answers me s op r s' ∧ Q s') (h₀ : Q I.store) :
    ∃ rs s, (SetBasedMap.implementation I H NumBuckets).Calls me (fun _ => I.store) ops rs s := by
  refine (SetBasedMap.outline P H NumBuckets).exists_calls (Q := fun s => ∀ i, Q (s i))
    (fun op _ s M ⟨a, hinv, _⟩ hfit => ?_) (SetBasedMap.outline P H NumBuckets).initial fun _ => h₀
  obtain ⟨i, hi⟩ : ∃ i, SetBasedMap.bucketOf H NumBuckets op.key = some i := by
    simp [SetBasedMap.bucketOf, index_nonneg, index_lt hN]
  obtain ⟨r, x, hr, hx⟩ := h (s i) (a i) ((SetBasedMap.routing V H NumBuckets).inner op) (hinv i) (hfit i)
  refine ⟨_, _, hr.route hi, fun j => ?_⟩
  by_cases hj : j = i
  · subst hj
    simpa using hx
  · simpa [hj] using hfit j

theorem interchangeable_iff [EquivBEq K] (P : Outline I setSpec) {Q : σ → Prop} (hN : 2 ≤ NumBuckets)
    (h : ∀ s A op, P.Inv s A → Q s → ∃ r s', I.Answers me s op r s' ∧ Q s') (h₀ : Q I.store) :
    Interchangeable (LockHashMap.implementation τ V H NumBuckets)
        (SetBasedMap.implementation I H NumBuckets) me ops ↔
      FirstIsLast (fun _ => []) ops := by
  have hlast : ∀ {rs s}, (LockHashMap.implementation τ V H NumBuckets).Calls me .initial ops rs s →
      rs = results (lastWins .cpp) (fun _ => none) ops := fun hc =>
    ((LockHashMap.outline τ V H NumBuckets).calls_results (initial_mapInv _) hc).1
  have hfirst : ∀ {rs s}, (SetBasedMap.implementation I H NumBuckets).Calls me (fun _ => I.store) ops rs s →
      rs = results SetBasedMap.firstWins (fun _ => none) ops := fun hc =>
    ((SetBasedMap.outline P H NumBuckets).calls_results (SetBasedMap.outline P H NumBuckets).initial hc).1
  have htracks : Tracks (fun _ : K => ([] : List V)) (fun _ => none) fun _ => none :=
    ⟨fun _ => rfl, fun _ => rfl, fun _ _ _ => rfl⟩
  rw [← observed_eq_iff htracks]
  constructor
  · rintro ⟨⟨rs, s, hl⟩, ⟨qs, t, hr⟩, hsame⟩
    rw [← hlast hl, ← hfirst hr]
    exact hsame rs s qs t hl hr
  · intro hsame
    refine ⟨LockHashMap.exists_calls hN, SetBasedMap.exists_calls P hN h h₀, fun rs s qs t hl hr => ?_⟩
    rw [hlast hl, hfirst hr, hsame]

/-- `SetBasedMap<K, V, FineGrainedSet>` -/
abbrev SetBasedMap.fineGrained (τ V : Type*) (H : Hash .cpp K) (NumBuckets : ℕ) :=
  SetBasedMap.implementation (FineGrainedSet.implementation τ (SetBasedMap.hashNode V H)) H NumBuckets

/-- `SetBasedMap<K, V, OptimisticSet>` -/
abbrev SetBasedMap.optimistic (τ V : Type*) (H : Hash .cpp K) (NumBuckets : ℕ) :=
  SetBasedMap.implementation (OptimisticSet.implementation τ (SetBasedMap.hashNode V H)) H NumBuckets

/-- `SetBasedMap<K, V, LazySet>` -/
abbrev SetBasedMap.lazy (τ V : Type*) (H : Hash .cpp K) (NumBuckets : ℕ) :=
  SetBasedMap.implementation (LazySet.implementation τ (SetBasedMap.hashNode V H)) H NumBuckets

theorem fineGrained_iff [EquivBEq K] (hN : 2 ≤ NumBuckets) :
    Interchangeable (LockHashMap.implementation τ V H NumBuckets) (SetBasedMap.fineGrained τ V H NumBuckets)
      me ops ↔ FirstIsLast (fun _ => []) ops :=
  interchangeable_iff (FineGrainedSet.outline τ _) hN (Q := Quiet)
    (fun _ _ op hinv hq => FineGrainedSet.answers_alone hinv.1 hq me op) initial_quiet

theorem optimistic_iff [EquivBEq K] (hN : 2 ≤ NumBuckets) :
    Interchangeable (LockHashMap.implementation τ V H NumBuckets) (SetBasedMap.optimistic τ V H NumBuckets)
      me ops ↔ FirstIsLast (fun _ => []) ops :=
  interchangeable_iff (OptimisticSet.outline τ _) hN (Q := Quiet)
    (fun _ _ op hinv hq => OptimisticSet.answers_alone hinv.1 hq me op) initial_quiet

theorem lazy_iff [EquivBEq K] (hN : 2 ≤ NumBuckets) :
    Interchangeable (LockHashMap.implementation τ V H NumBuckets) (SetBasedMap.lazy τ V H NumBuckets)
      me ops ↔ FirstIsLast (fun _ => []) ops :=
  interchangeable_iff (LazySet.outline τ _) hN (Q := Quiet)
    (fun _ _ op hinv hq => LazySet.answers_alone hinv.1 hq me op) initial_quiet

/-- **The two maps are interchangeable** for a sequence of calls, over any of the three sets,
if and only if for every `get` in it the first and the last value put under the key since it
was last deleted are the same. -/
theorem maps_interchangeable_iff [EquivBEq K] (H : Hash .cpp K) (hN : 2 ≤ NumBuckets) (me : τ)
    (ops : List (MapOp K V)) :
    (Interchangeable (LockHashMap.implementation τ V H NumBuckets) (SetBasedMap.fineGrained τ V H NumBuckets)
      me ops ↔ FirstIsLast (fun _ => []) ops) ∧
    (Interchangeable (LockHashMap.implementation τ V H NumBuckets) (SetBasedMap.optimistic τ V H NumBuckets)
      me ops ↔ FirstIsLast (fun _ => []) ops) ∧
    (Interchangeable (LockHashMap.implementation τ V H NumBuckets) (SetBasedMap.lazy τ V H NumBuckets)
      me ops ↔ FirstIsLast (fun _ => []) ops) :=
  ⟨fineGrained_iff hN, optimistic_iff hN, lazy_iff hN⟩

theorem maps_interchangeable_iff_residue :
    Interchangeable (LockHashMap.implementation ℕ ℕ (residueHash .cpp) 16)
      (SetBasedMap.lazy ℕ ℕ (residueHash .cpp) 16) 0
      [.put 1 5, .put 17 6, .get 1 none, .del 1, .put 1 7, .get 1 none] :=
  (maps_interchangeable_iff (residueHash .cpp) (by decide) 0 _).2.2.mpr (by
    simp [firstIsLast_cons, firstIsLast_nil, track])

/-- `put(1, 1); put(1, 2); get(1, out)` gives 2 in the one map and 1 in the other, whatever its
set. -/
theorem maps_differ_after_second_put :
    ¬ Interchangeable (LockHashMap.implementation ℕ ℕ (residueHash .cpp) 16)
      (SetBasedMap.fineGrained ℕ ℕ (residueHash .cpp) 16) 0 [.put 1 1, .put 1 2, .get 1 none] ∧
    ¬ Interchangeable (LockHashMap.implementation ℕ ℕ (residueHash .cpp) 16)
      (SetBasedMap.optimistic ℕ ℕ (residueHash .cpp) 16) 0 [.put 1 1, .put 1 2, .get 1 none] ∧
    ¬ Interchangeable (LockHashMap.implementation ℕ ℕ (residueHash .cpp) 16)
      (SetBasedMap.lazy ℕ ℕ (residueHash .cpp) 16) 0 [.put 1 1, .put 1 2, .get 1 none] := by
  have hdiffer : ¬ FirstIsLast (fun _ => []) [MapOp.put 1 1, .put 1 2, .get 1 (none : Option ℕ)] :=
    fun h => absurd (h 2 1 none rfl) (by decide)
  exact ⟨fun h => hdiffer ((fineGrained_iff (by decide)).mp h),
    fun h => hdiffer ((optimistic_iff (by decide)).mp h), fun h => hdiffer ((lazy_iff (by decide)).mp h)⟩

end ParSweet.Maps
