import ParSweet.Maps.Linearizable
import ParSweet.Sets.TestSets
import ParSweet.TestTokens

/-! The test programs of the maps: `testA` of `TestMaps.cpp` and `ControllerA` of `TestMaps.java`.

They put every token under itself. No token is put again before it is removed, so it makes no
difference whether the first or the last value wins. -/
namespace ParSweet.Maps.TestMaps
open Concurrent Program Sets TestTokens

variable {τ K V : Type*}

/-! ### The programs -/

section Programs
variable [BEq K]

/-- What `testA` of `TestMaps.cpp` checks; the thread's variable `out` is passed on from call to call. -/
def checks (token : ℕ → K) : Checks (MapOp K K) (MapRes K) (Option K) where
  put := fun i out => .call (.put (token i) (token i)) fun
    | .flag true => .ret (some out)
    | _ => .ret none
  find := fun i out => .call (.get (token i) out) fun
    | .got true out => if (out == some (token i)) = true then .ret (some out) else .ret none
    | _ => .ret none
  take := fun i out => .call (.del (token i)) fun _ => .ret (some out)
  takeLater := fun i out => .call (.del (token i)) fun
    | .flag true => .ret (some out)
    | _ => .ret none
  miss := fun i out => .call (.get (token i) out) fun
    | .got false out => .ret (some out)
    | _ => .ret none

/-- What `ControllerA` of `TestMaps.java` asserts; `value` is what a token is as a value. -/
def javaChecks (value : K → V) (token : ℕ → K) : Checks (MapOp K V) (MapRes K) Unit where
  put := fun i _ => .call (.put (token i) (value (token i))) fun _ => .ret (some ())
  find := fun i _ => .call (.get (token i) none) fun
    | .value v => if (v == some (token i)) = true then .ret (some ()) else .ret none
    | _ => .ret none
  take := fun i _ => .call (.del (token i)) fun _ => .ret (some ())
  takeLater := fun i _ => .call (.del (token i)) fun _ => .ret (some ())
  miss := fun i _ => .call (.get (token i) none) fun
    | .value none => .ret (some ())
    | _ => .ret none

end Programs

/-! ### One thread alone -/

/-- What the maps have in common while no key is put twice. -/
structure Stores [BEq K] (f : MapOp K V → (K → Option V) → MapRes K × (K → Option V)) : Prop where
  put : ∀ k v M, M k = none → (f (.put k v) M).2 = fun x => if k == x then some v else M x
  get : ∀ k out M, (f (.get k out) M).2 = M
  del : ∀ k M, (f (.del k) M).2 = fun x => if k == x then none else M x

/-- The tokens with `p` are bound, to what they are as a value, the others are not. -/
def Holds (value : K → V) (token : ℕ → K) (WorkSize : ℕ) (p : ℕ → Prop) (M : K → Option V) : Prop :=
  ∀ j, j < WorkSize → (p j → M (token j) = some (value (token j))) ∧ (¬ p j → M (token j) = none)

section Alone
variable [BEq K] {f : MapOp K V → (K → Option V) → MapRes K × (K → Option V)} {value : K → V} {token : ℕ → K}
  {WorkSize i : ℕ} {p : ℕ → Prop} {M : K → Option V}

omit [BEq K] in
theorem Holds.congr {q : ℕ → Prop} (hpq : ∀ j, j < WorkSize → (p j ↔ q j)) (h : Holds value token WorkSize p M) :
    Holds value token WorkSize q M := fun j hj =>
  ⟨fun hq => (h j hj).1 ((hpq j hj).mpr hq), fun hq => (h j hj).2 fun hp => hq ((hpq j hj).mp hp)⟩

variable (hf : Stores f) (htoken : ∀ i j, i < WorkSize → j < WorkSize → ((token i == token j) = true ↔ i = j))
include hf htoken

theorem Holds.put (h : Holds value token WorkSize p M) (hi : i < WorkSize) (hp : ¬ p i) :
    Holds value token WorkSize (fun j => j = i ∨ p j) (f (.put (token i) (value (token i))) M).2 := by
  rw [hf.put _ _ _ ((h i hi).2 hp)]
  intro j hj
  by_cases hij : i = j
  · subst hij
    simp [(htoken i i hi hi).mpr rfl]
  · have hne : ¬ (token i == token j) = true := fun he => hij ((htoken i j hi hj).mp he)
    simpa only [if_neg hne, Ne.symm hij, false_or] using h j hj

theorem Holds.del (h : Holds value token WorkSize p M) (hi : i < WorkSize) :
    Holds value token WorkSize (fun j => j ≠ i ∧ p j) (f (.del (token i)) M).2 := by
  rw [hf.del]
  intro j hj
  by_cases hij : i = j
  · subst hij
    simp [(htoken i i hi hi).mpr rfl]
  · have hne : ¬ (token i == token j) = true := fun he => hij ((htoken i j hi hj).mp he)
    simpa only [if_neg hne, ne_eq, Ne.symm hij, not_false_eq_true, true_and] using h j hj

end Alone

/-! ### The maps -/

section Maps
variable [BEq K] {token : ℕ → K} {WorkSize : ℕ}

theorem lastWins_stores (L : Lang) : Stores (lastWins L (K := K) (V := K)) :=
  ⟨fun _ _ _ _ => rfl, fun _ _ _ => rfl, fun _ _ => rfl⟩

theorem firstWins_stores : Stores (SetBasedMap.firstWins (K := K) (V := K)) :=
  ⟨fun k v M hM => by simp [SetBasedMap.firstWins, hM], fun _ _ _ => rfl, fun _ _ => rfl⟩

theorem keepsFirst_stores : Stores (JavaSetBasedMap.keepsFirst (K := K) (V := K)) :=
  ⟨fun k v M hM => by simp [JavaSetBasedMap.keepsFirst, hM], fun _ _ _ => rfl, fun _ _ => rfl⟩

variable [LawfulBEq K] (htoken : ∀ i j, i < WorkSize → j < WorkSize → ((token i == token j) = true ↔ i = j))
include htoken

/-- The checks of the C++ test pass if the flags are as they should be. -/
theorem checks_sound {f : MapOp K K → (K → Option K) → MapRes K × (K → Option K)} (hf : Stores f)
    (hput : ∀ k v M, M k = none → (f (.put k v) M).1 = .flag true)
    (hget : ∀ k out M, (f (.get k out) M).1 = .got (M k).isSome ((M k).or out))
    (hdel : ∀ k M, (f (.del k) M).1 = .flag (M k).isSome) :
    Sound (checks token) f (Holds id token WorkSize) WorkSize where
  congr := fun p q M hpq h => h.congr hpq
  put := fun p i out hi hp M h => by
    refine ⟨out, _, ?_, h.put hf htoken hi hp⟩
    simp [checks, alone, hput _ _ _ ((h i hi).2 hp)]
  find := fun p i out hi hp M h => by
    refine ⟨some (token i), _, ?_, h⟩
    simp [checks, alone, hget, hf.get, (h i hi).1 hp]
  take := fun p i out hi _ M h => ⟨out, _, rfl, h.del hf htoken hi⟩
  takeLater := fun p i out hi hp M h => by
    refine ⟨out, _, ?_, h.del hf htoken hi⟩
    simp [checks, alone, hdel, (h i hi).1 hp]
  miss := fun p i out hi hp M h => by
    refine ⟨out, _, ?_, h⟩
    simp [checks, alone, hget, hf.get, (h i hi).2 hp]

/-- The assertions of the Java test hold if `get` answers what is bound. -/
theorem javaChecks_sound {value : K → V} {f : MapOp K V → (K → Option V) → MapRes K × (K → Option V)} (hf : Stores f)
    (hget : ∀ k M, M k = some (value k) → (f (.get k none) M).1 = .value (some k))
    (hnone : ∀ k M, M k = none → (f (.get k none) M).1 = .value none) :
    Sound (javaChecks value token) f (Holds value token WorkSize) WorkSize where
  congr := fun p q M hpq h => h.congr hpq
  put := fun p i _ hi hp M h => ⟨(), _, rfl, h.put hf htoken hi hp⟩
  find := fun p i _ hi hp M h => by
    refine ⟨(), _, ?_, h⟩
    simp [javaChecks, alone, hget _ _ ((h i hi).1 hp), hf.get]
  take := fun p i _ hi _ M h => ⟨(), _, rfl, h.del hf htoken hi⟩
  takeLater := fun p i _ hi _ M h => ⟨(), _, rfl, h.del hf htoken hi⟩
  miss := fun p i _ hi hp M h => by
    refine ⟨(), _, ?_, h⟩
    simp [javaChecks, alone, hnone _ _ ((h i hi).2 hp), hf.get]

end Maps

/-! ### Tokens of one's own -/

section Own
variable [BEq K] {WorkSize : ℕ}

theorem checks_keepTo (WorkSize : ℕ) (token : ℕ → K) :
    KeepsTo (checks token) (fun op => ∃ i, i < WorkSize ∧ op.key = token i) WorkSize where
  put := fun i out hi => ⟨⟨i, hi, rfl⟩, fun r => by dsimp only; split <;> trivial⟩
  find := fun i out hi => ⟨⟨i, hi, rfl⟩, fun r => by
    dsimp only
    split
    · split <;> trivial
    · trivial⟩
  take := fun i out hi => ⟨⟨i, hi, rfl⟩, fun r => trivial⟩
  takeLater := fun i out hi => ⟨⟨i, hi, rfl⟩, fun r => by dsimp only; split <;> trivial⟩
  miss := fun i out hi => ⟨⟨i, hi, rfl⟩, fun r => by dsimp only; split <;> trivial⟩

theorem javaChecks_keepTo (WorkSize : ℕ) (value : K → V) (token : ℕ → K) :
    KeepsTo (javaChecks value token) (fun op => ∃ i, i < WorkSize ∧ op.key = token i) WorkSize where
  put := fun i _ hi => ⟨⟨i, hi, rfl⟩, fun r => trivial⟩
  find := fun i _ hi => ⟨⟨i, hi, rfl⟩, fun r => by
    dsimp only
    split
    · split <;> trivial
    · trivial⟩
  take := fun i _ hi => ⟨⟨i, hi, rfl⟩, fun r => trivial⟩
  takeLater := fun i _ hi => ⟨⟨i, hi, rfl⟩, fun r => trivial⟩
  miss := fun i _ hi => ⟨⟨i, hi, rfl⟩, fun r => by dsimp only; split <;> trivial⟩

variable {token : τ → ℕ → K} {S : Type*} {c : τ → Checks (MapOp K V) (MapRes K) S} {x : S}
  {f : MapOp K V → (K → Option V) → MapRes K × (K → Option V)}

/-- Threads with different tokens have no key in common. -/
theorem disjointKeys (hd : Distinct WorkSize token)
    (hkeep : ∀ t, KeepsTo (c t) (fun op => ∃ i, i < WorkSize ∧ op.key = token t i) WorkSize) :
    DisjointKeys fun t => (testA (c t) WorkSize x).trace f fun _ => none := by
  intro t u hne op hop op' hop'
  obtain ⟨i, hi, he⟩ := ((hkeep t).testA x).trace op hop
  obtain ⟨j, hj, he'⟩ := ((hkeep u).testA x).trace op' hop'
  rw [he, he']
  exact Bool.eq_false_iff.mpr fun heq => hne ((hd t u i j hi hj).mp heq).1

end Own

theorem keepsFirst_independent [BEq K] {script : τ → List (MapOp K (Option V))} (h : DisjointKeys script) :
    Independent (JavaSetBasedMap.keepsFirst (V := V)) (fun t op => op ∈ script t) (SameKeys script) where
  refl := fun _ _ _ _ => rfl
  own := fun t op M M' hop hsame => by
    have hkey := hsame op hop
    cases op with
    | put k v =>
      have hkey : M k = M' k := hkey
      refine ⟨rfl, fun x hx => ?_⟩
      by_cases hk : (M' k).isNone = true
      · simp only [JavaSetBasedMap.keepsFirst, hkey, if_pos hk, hsame x hx]
      · simp only [JavaSetBasedMap.keepsFirst, hkey, if_neg hk, hsame x hx]
    | get k out =>
      have hkey : M k = M' k := hkey
      exact ⟨by simp only [JavaSetBasedMap.keepsFirst, hkey], hsame⟩
    | del k => exact ⟨rfl, fun x hx => by simp only [JavaSetBasedMap.keepsFirst, hsame x hx]⟩
  other := fun t u op M M' hne hop hsame x hx => by
    have hkey : ¬ (op.key == x.key) = true := Bool.eq_false_iff.mp (h u t hne op hop x hx)
    cases op with
    | put k v =>
      by_cases hk : (M k).isNone = true
      · simp only [JavaSetBasedMap.keepsFirst, if_pos hk]
        exact (if_neg hkey).trans (hsame x hx)
      · simp only [JavaSetBasedMap.keepsFirst, if_neg hk]
        exact hsame x hx
    | get k out => exact hsame x hx
    | del k => exact (if_neg hkey).trans (hsame x hx)

/-! ### The tests -/

/-- If a part answers alone, so does the whole. -/
theorem route_answers {ι Op Res Op' Res' σ loc χ : Type*} [DecidableEq ι] {R : Routing ι Op Res Op' Res'}
    {I : Implementation τ Op' Res' σ loc χ} {Q : σ → Prop} {me : τ} {s : ι → σ} {op : Op} {i : ι}
    (hi : R.index op = some i) (h : ∃ r x, I.Answers me (s i) (R.inner op) r x ∧ Q x) (hq : ∀ j, Q (s j)) :
    ∃ r s', (I.route R).Answers me s op r s' ∧ ∀ j, Q (s' j) := by
  obtain ⟨r, x, hr, hx⟩ := h
  refine ⟨_, _, hr.route hi, fun j => ?_⟩
  by_cases hj : j = i
  · subst hj
    simpa using hx
  · simpa [hj] using hq j

/-- A call of a map made of sets has gone wrong if its key has no bucket, or the set's call has. -/
def faultIn {ι loc : Type*} (bucket : K → Option ι) (fault : loc → Prop) (l : MapOp K V × loc) : Prop :=
  bucket l.1.key = none ∨ fault l.2

section Routed
variable {ι Op Res Op' Res' α σ loc χ A T : Type*} [DecidableEq ι] [DecidableEq τ] {Own : τ → Op → Prop}
  {start : τ → Program Op Res α}

/-- No call of the programs goes wrong in a part if none does there and their operations have one. -/
theorem route_never {R : Routing ι Op Res Op' Res'} {I : Implementation τ Op' Res' σ loc χ} {S : Spec Op' Res' A}
    {P : Outline I S} {fault : loc → Prop} (h : P.Avoids fault) (hindex : ∀ t op, Own t op → R.index op ≠ none)
    (hown : ∀ t, (start t).Keeps (Own t)) {s : Client.State τ Op Res (ι → σ) (Op × loc) α}
    (hs : (Client.machine (I.route R) start).system.Reachable s) {t : τ} {l : Op × loc} (hl : s.object.pc t = some l) :
    ¬ (R.index l.1 = none ∨ fault l.2) := by
  have hall : I.About (fun _ _ => True) fun _ _ => True :=
    ⟨fun _ _ _ => trivial, fun _ _ _ _ _ _ _ _ => trivial⟩
  have habout : (I.route R).About Own fun t l => Own t l.1 ∧ True := hall.route fun _ _ _ => trivial
  have hi : R.index l.1 ≠ none := hindex t l.1 ((Client.keeps_about habout hown hs).2 t l hl).1
  rintro (hnone | hf)
  · exact hi hnone
  · exact (h.route R).never (Client.reachable_object hs) hl ⟨hi, hf⟩

/-- In the optimistic set none does if no two different elements the programs ask for have the tail's key. -/
theorem route_optimistic_never [BEq T] [EquivBEq T] {R : Routing ι Op Res (SetOp T) (SetRes T)} {L : Lang}
    {H : Hash L T} {E : T → Prop} (hE : OptimisticSet.MaxUniqueOn H E)
    (hinner : ∀ t op, Own t op → E (R.inner op).element)
    (hindex : ∀ t op, Own t op → R.index op ≠ none) (hown : ∀ t, (start t).Keeps (Own t))
    {s : Client.State τ Op Res (ι → Sets.Store τ T) (Op × OptimisticSet.Local T) α}
    (hs : (Client.machine ((OptimisticSet.implementation τ H).route R) start).system.Reachable s) {t : τ}
    {l : Op × OptimisticSet.Local T} (hl : s.object.pc t = some l) : ¬ (R.index l.1 = none ∨ l.2.pc = .fault) := by
  obtain ⟨H', hmax, hsame⟩ := OptimisticSet.exists_maxUnique hE
  have hs' : (Client.machine ((OptimisticSet.implementation τ H').route R) start).system.Reachable s :=
    Client.reachable_same ((OptimisticSet.sameOn hsame).route fun _ _ h => h.2)
      ((OptimisticSet.about_element H E).route hinner) hown hs
  exact route_never (OptimisticSet.avoids_fault hmax) hindex hown hs' hl

end Routed

/-- A token is not negative. -/
theorem intToken_nonneg {Threads WorkSize : ℕ} (hsize : Threads * WorkSize ≤ 2 ^ 31) (t : Fin Threads) {i : ℕ}
    (hi : i < WorkSize) : 0 ≤ (intToken Threads t i).toInt := by
  have hlt := token_lt hsize t hi
  rw [BitVec.toInt_eq_toNat_of_lt (by rw [intToken_toNat (hsize.trans (by decide)) t hi]; omega)]
  exact Int.natCast_nonneg _

section Tests
variable {Threads WorkSize : ℕ} (hsize : Threads * WorkSize ≤ 2 ^ 31)

/-- The operations on a thread's own tokens. -/
def OwnToken (WorkSize : ℕ) (t : Fin Threads) (op : MapOp (BitVec 32) V) : Prop :=
  ∃ i, i < WorkSize ∧ op.key = intToken Threads t i

theorem test_keeps (t : Fin Threads) (out : Option (BitVec 32)) :
    (testA (checks (intToken Threads t)) WorkSize out).Keeps (OwnToken WorkSize t) :=
  (checks_keepTo WorkSize _).testA out

theorem javaTest_keeps (value : BitVec 32 → V) (t : Fin Threads) :
    (testA (javaChecks value (intToken Threads t)) WorkSize ()).Keeps (OwnToken WorkSize t) :=
  (javaChecks_keepTo WorkSize value _).testA ()

theorem exists_cppBucket (H : Hash .cpp (BitVec 32)) {NumBuckets : ℕ} (hN : 2 ≤ NumBuckets) (k : BitVec 32) :
    ∃ i, SetBasedMap.bucketOf H NumBuckets k = some i := by
  simp [SetBasedMap.bucketOf, index_nonneg, index_lt hN]

include hsize

theorem tokens_distinct : Distinct WorkSize fun (t : Fin Threads) => intToken Threads t :=
  intToken_distinct (hsize.trans (by decide))

theorem own_token (t : Fin Threads) (i j : ℕ) (hi : i < WorkSize) (hj : j < WorkSize) :
    (intToken Threads t i == intToken Threads t j) = true ↔ i = j :=
  (tokens_distinct hsize).own t hi hj

theorem exists_javaBucket {t : Fin Threads} {op : MapOp (BitVec 32) V} (h : OwnToken WorkSize t op) :
    ∃ i, JavaSetBasedMap.bucketOf LockHashMap.integerHash op.key = some i := by
  obtain ⟨j, hj, hkey⟩ := h
  exact JavaSetBasedMap.exists_bucket (by rw [hkey]; exact intToken_nonneg hsize t hj)

theorem lockHashMap_passes (H : Hash .cpp (BitVec 32)) {NumBuckets : ℕ} (hN : 2 ≤ NumBuckets)
    (out : Option (BitVec 32)) :
    Passes (LockHashMap.implementation (Fin Threads) (BitVec 32) H NumBuckets) (fun l => l.pc = .fault)
      fun t => testA (checks (intToken Threads t)) WorkSize out :=
  passes_of_sound (LockHashMap.outline _ _ H NumBuckets) (Q := Free)
    (fun t op _ _ _ hinv hfree => LockHashMap.answers_alone hinv hfree t op index_nonneg (index_lt hN)) (fun _ => rfl)
    (fun _ => checks_keepTo WorkSize _)
    (fun t => checks_sound (own_token hsize t) (lastWins_stores .cpp) (fun _ _ _ _ => rfl) (fun _ _ _ => rfl)
      fun _ _ => rfl) (fun _ _ _ => ⟨False.elim, fun _ => rfl⟩)
    (lastWins_independent .cpp (disjointKeys (tokens_distinct hsize) fun _ => checks_keepTo WorkSize _))
    fun _ hs _ _ hl hf =>
      LockHashMap.fault_outOfBounds (Client.reachable_object hs) hl hf ⟨index_nonneg, index_lt hN⟩

section SetBased
variable {σ loc χ : Type*}
  {I : Implementation (Fin Threads) (SetOp (SetBasedMap.SetBasedMapNode (BitVec 32) (BitVec 32)))
    (SetRes (SetBasedMap.SetBasedMapNode (BitVec 32) (BitVec 32))) σ loc χ} {Q : σ → Prop} (P : Outline I setSpec)
  (halone : ∀ t op s a, P.Inv s a → Q s → ∃ r s', I.Answers t s op r s' ∧ Q s') (hQ : Q I.store) {fault : loc → Prop}
include P halone hQ

theorem setBasedMap_passes (H : Hash .cpp (BitVec 32)) {NumBuckets : ℕ} (hN : 2 ≤ NumBuckets) (out : Option (BitVec 32))
    (hfault : ∀ s, (Client.machine (SetBasedMap.implementation I H NumBuckets) fun t =>
        testA (checks (intToken Threads t)) WorkSize out).system.Reachable s →
      ∀ t l, s.object.pc t = some l → ¬ faultIn (SetBasedMap.bucketOf H NumBuckets) fault l) :
    Passes (SetBasedMap.implementation I H NumBuckets) (faultIn (SetBasedMap.bucketOf H NumBuckets) fault)
      fun t => testA (checks (intToken Threads t)) WorkSize out := by
  refine passes_of_sound (SetBasedMap.outline P H NumBuckets) (Q := fun s => ∀ i, Q (s i)) ?_ (fun _ => hQ)
    (fun t => checks_keepTo WorkSize _)
    (fun t => checks_sound (own_token hsize t) firstWins_stores (fun k v M hM => by simp [SetBasedMap.firstWins, hM])
      (fun _ _ _ => rfl) fun _ _ => rfl) (fun _ _ _ => ⟨False.elim, fun _ => rfl⟩)
    (firstWins_independent (disjointKeys (tokens_distinct hsize) fun t => checks_keepTo WorkSize _)) hfault
  intro t op s M _ hinv hq
  obtain ⟨a, hinv, _⟩ := hinv
  obtain ⟨i, hi⟩ := exists_cppBucket H hN op.key
  exact route_answers hi (halone t _ _ _ (hinv i) (hq i)) hq

theorem javaSetBasedMap_passes
    (hfault : ∀ s, (Client.machine (JavaSetBasedMap.implementation I LockHashMap.integerHash) fun t =>
        testA (javaChecks some (intToken Threads t)) WorkSize ()).system.Reachable s →
      ∀ t l, s.object.pc t = some l → ¬ faultIn (JavaSetBasedMap.bucketOf LockHashMap.integerHash) fault l) :
    Passes (JavaSetBasedMap.implementation I LockHashMap.integerHash)
      (faultIn (JavaSetBasedMap.bucketOf LockHashMap.integerHash) fault)
      fun t => testA (javaChecks some (intToken Threads t)) WorkSize () := by
  refine passes_of_sound (JavaSetBasedMap.outline P LockHashMap.integerHash) (Q := fun s => ∀ i, Q (s i)) ?_
    (fun _ => hQ) (fun t => javaChecks_keepTo WorkSize _ _)
    (fun t => javaChecks_sound (own_token hsize t) keepsFirst_stores
      (fun k M hM => by simp [JavaSetBasedMap.keepsFirst, hM]) fun k M hM => by
        simp [JavaSetBasedMap.keepsFirst, hM]) (fun _ _ _ => ⟨False.elim, fun _ => rfl⟩)
    (keepsFirst_independent (disjointKeys (tokens_distinct hsize) fun t => javaChecks_keepTo WorkSize _ _)) hfault
  intro t op s M hown hinv hq
  obtain ⟨a, hinv, _⟩ := hinv
  obtain ⟨i, hi⟩ := exists_javaBucket hsize hown
  exact route_answers hi (halone t _ _ _ (hinv i) (hq i)) hq

end SetBased

theorem javaLockHashMap_passes :
    Passes (LockHashMap.implementation (Fin Threads) (BitVec 32) LockHashMap.integerHash LockHashMap.N_BUCKETS)
      (fun l => l.pc = .fault) fun t => testA (javaChecks id (intToken Threads t)) WorkSize () := by
  have hindex : ∀ (t : Fin Threads) (op : MapOp (BitVec 32) (BitVec 32)), OwnToken WorkSize t op →
      0 ≤ getBucketIndexOfKey LockHashMap.integerHash LockHashMap.N_BUCKETS op.key := by
    intro t op hop
    obtain ⟨j, hj, hkey⟩ := hop
    refine LockHashMap.index_nonneg_iff.mpr (.inl ?_)
    rw [hkey]
    exact intToken_nonneg hsize t hj
  refine passes_of_sound (LockHashMap.outline _ _ LockHashMap.integerHash LockHashMap.N_BUCKETS) (Q := Free) ?_
    (fun _ => rfl) (fun t => javaChecks_keepTo WorkSize _ _)
    (fun t => javaChecks_sound (own_token hsize t) (lastWins_stores .java)
      (fun k M hM => by simp [lastWins, MapOp.answer, MapOp.key, hM]) fun k M hM => by
        simp [lastWins, MapOp.answer, MapOp.key, hM]) (fun _ _ _ => ⟨False.elim, fun _ => rfl⟩)
    (lastWins_independent .java (disjointKeys (tokens_distinct hsize) fun t => javaChecks_keepTo WorkSize _ _)) ?_
  · intro t op s M hown hinv hfree
    exact LockHashMap.answers_alone hinv hfree t op (hindex t op hown) (index_lt (by decide))
  · intro s hs t l hl hf
    have hown := (Client.keeps_about (LockHashMap.about_op (OwnToken WorkSize)) (javaTest_keeps id) hs).2 t l hl
    exact LockHashMap.fault_outOfBounds (Client.reachable_object hs) hl hf ⟨hindex t l.op hown, index_lt (by decide)⟩

end Tests

/-- **The tests of the maps never fail**, in either suite, whatever the interleaving, the number of
threads, the hash function and what `out` holds at first, as long as the tokens are `int`s, and in
C++ over the optimistic set if no two of them have the tail's key. -/
theorem testMaps_pass (Threads WorkSize : ℕ) (hsize : Threads * WorkSize ≤ 2 ^ 31) (H : Hash .cpp (BitVec 32))
    (out : Option (BitVec 32)) :
    let test := fun t : Fin Threads => testA (checks (intToken Threads t)) WorkSize out
    let tokens := IsToken WorkSize fun t : Fin Threads => intToken Threads t
    let javaTest := fun t : Fin Threads => testA (javaChecks id (intToken Threads t)) WorkSize ()
    let javaTest' := fun t : Fin Threads => testA (javaChecks some (intToken Threads t)) WorkSize ()
    let bucket := SetBasedMap.bucketOf H 16
    let H' := LockHashMap.integerHash
    let node := SetBasedMap.hashNode (BitVec 32) H'
    let bucket' := JavaSetBasedMap.bucketOf H'
    (Passes (LockHashMap.implementation (Fin Threads) (BitVec 32) H 16) (fun l => l.pc = .fault) test ∧
      Passes (SetBasedMap.fineGrained (Fin Threads) (BitVec 32) H 16) (faultIn bucket fun l => l.pc = .fault) test ∧
      (OptimisticSet.MaxUniqueOn H tokens →
        Passes (SetBasedMap.optimistic (Fin Threads) (BitVec 32) H 16) (faultIn bucket fun l => l.pc = .fault) test) ∧
      Passes (SetBasedMap.lazy (Fin Threads) (BitVec 32) H 16) (faultIn bucket fun l => l.pc = .fault) test) ∧
    Passes (LockHashMap.implementation (Fin Threads) (BitVec 32) H' LockHashMap.N_BUCKETS) (fun l => l.pc = .fault)
        javaTest ∧
      Passes (JavaSetBasedMap.implementation (FineGrainedSet.implementation (Fin Threads) node) H')
        (faultIn bucket' fun l => l.pc = .fault) javaTest' ∧
      Passes (JavaSetBasedMap.implementation (OptimisticSet.implementation (Fin Threads) node) H')
        (faultIn bucket' fun l => l.pc = .fault) javaTest' ∧
      Passes (JavaSetBasedMap.implementation (LazySet.implementation (Fin Threads) node) H')
        (faultIn bucket' fun l => l.pc = .fault) javaTest' := by
  intro test tokens javaTest javaTest' bucket H' node bucket'
  have hbucket : ∀ (t : Fin Threads) (op : MapOp (BitVec 32) (BitVec 32)), OwnToken WorkSize t op →
      bucket op.key ≠ none := fun t op _ => Option.ne_none_iff_exists'.mpr (exists_cppBucket H (by decide) op.key)
  have hbucket' : ∀ (t : Fin Threads) (op : MapOp (BitVec 32) (Option (BitVec 32))), OwnToken WorkSize t op →
      bucket' op.key ≠ none := fun t op hop => Option.ne_none_iff_exists'.mpr (exists_javaBucket hsize hop)
  have hnode : ∀ (t : Fin Threads) (op : MapOp (BitVec 32) (BitVec 32)), OwnToken WorkSize t op →
      tokens ((SetBasedMap.routing (BitVec 32) H 16).inner op).element.key := by
    intro t op hop
    obtain ⟨j, hj, hkey⟩ := hop
    refine ⟨t, j, hj, ?_⟩
    cases op <;> exact hkey
  have hunique : OptimisticSet.MaxUnique node := by
    intro v w hv hw
    show (v.key == w.key) = true
    exact beq_iff_eq.mpr (BitVec.eq_of_toInt_eq (hv.trans hw.symm))
  refine ⟨⟨lockHashMap_passes hsize H (by decide) out, ?_, fun hmax => ?_, ?_⟩,
    javaLockHashMap_passes hsize, ?_, ?_, ?_⟩
  · exact setBasedMap_passes hsize (FineGrainedSet.outline _ _) (Q := Quiet)
      (fun t op _ _ hinv hq => FineGrainedSet.answers_alone hinv.1 hq t op) initial_quiet H (by decide) out
      fun s hs t l hl => route_never (FineGrainedSet.avoids_fault _) hbucket (test_keeps · out) hs hl
  · exact setBasedMap_passes hsize (OptimisticSet.outline _ _) (Q := Quiet)
      (fun t op _ _ hinv hq => OptimisticSet.answers_alone hinv.1 hq t op) initial_quiet H (by decide) out
      fun s hs t l hl => route_optimistic_never (E := fun n => tokens n.key) (fun v w => hmax v.key w.key)
        hnode hbucket (test_keeps · out) hs hl
  · exact setBasedMap_passes hsize (LazySet.outline _ _) (Q := Quiet)
      (fun t op _ _ hinv hq => LazySet.answers_alone hinv.1 hq t op) initial_quiet H (by decide) out
      fun s hs t l hl => route_never (LazySet.avoids_fault _) hbucket (test_keeps · out) hs hl
  · exact javaSetBasedMap_passes hsize (FineGrainedSet.outline _ _) (Q := Quiet)
      (fun t op _ _ hinv hq => FineGrainedSet.answers_alone hinv.1 hq t op) initial_quiet
      fun s hs t l hl => route_never (FineGrainedSet.avoids_fault _) hbucket' (javaTest_keeps some) hs hl
  · exact javaSetBasedMap_passes hsize (OptimisticSet.outline _ _) (Q := Quiet)
      (fun t op _ _ hinv hq => OptimisticSet.answers_alone hinv.1 hq t op) initial_quiet
      fun s hs t l hl => route_never (OptimisticSet.avoids_fault hunique) hbucket' (javaTest_keeps some) hs hl
  · exact javaSetBasedMap_passes hsize (LazySet.outline _ _) (Q := Quiet)
      (fun t op _ _ hinv hq => LazySet.answers_alone hinv.1 hq t op) initial_quiet
      fun s hs t l hl => route_never (LazySet.avoids_fault _) hbucket' (javaTest_keeps some) hs hl

/-- The numbers of the test programs, and numbers that are their own hash. -/
theorem testMaps_pass_twelve :
    let test := fun t : Fin 12 => testA (checks (intToken 12 t)) 83 (some 0)
    let javaTest := fun t : Fin 12 => testA (javaChecks id (intToken 12 t)) 83 ()
    let javaTest' := fun t : Fin 12 => testA (javaChecks some (intToken 12 t)) 83 ()
    let H := TestSets.intHash
    let bucket := SetBasedMap.bucketOf H 16
    let H' := LockHashMap.integerHash
    let node := SetBasedMap.hashNode (BitVec 32) H'
    let bucket' := JavaSetBasedMap.bucketOf H'
    (Passes (LockHashMap.implementation (Fin 12) (BitVec 32) H 16) (fun l => l.pc = .fault) test ∧
      Passes (SetBasedMap.fineGrained (Fin 12) (BitVec 32) H 16) (faultIn bucket fun l => l.pc = .fault) test ∧
      Passes (SetBasedMap.optimistic (Fin 12) (BitVec 32) H 16) (faultIn bucket fun l => l.pc = .fault) test ∧
      Passes (SetBasedMap.lazy (Fin 12) (BitVec 32) H 16) (faultIn bucket fun l => l.pc = .fault) test) ∧
    Passes (LockHashMap.implementation (Fin 12) (BitVec 32) H' LockHashMap.N_BUCKETS) (fun l => l.pc = .fault)
        javaTest ∧
      Passes (JavaSetBasedMap.implementation (FineGrainedSet.implementation (Fin 12) node) H')
        (faultIn bucket' fun l => l.pc = .fault) javaTest' ∧
      Passes (JavaSetBasedMap.implementation (OptimisticSet.implementation (Fin 12) node) H')
        (faultIn bucket' fun l => l.pc = .fault) javaTest' ∧
      Passes (JavaSetBasedMap.implementation (LazySet.implementation (Fin 12) node) H')
        (faultIn bucket' fun l => l.pc = .fault) javaTest' := by
  intro test javaTest javaTest' H bucket H' node bucket'
  obtain ⟨⟨hmap, hfine, hoptimistic, hlazy⟩, hjava⟩ := testMaps_pass 12 83 (by decide) TestSets.intHash (some 0)
  exact ⟨⟨hmap, hfine, hoptimistic (TestSets.maxUniqueOn_of_injective TestSets.intHash_injective _), hlazy⟩, hjava⟩

end ParSweet.Maps.TestMaps
