import Std.Data.String.ToNat
import ParSweet.Maps.JavaLockHashMap
import ParSweet.Sets.Linearizable
import ParSweet.TestTokens

/-! The test programs of the sets: `testA` of `TestSets.cpp`, the controllers of
`TestSets.java`.

Every thread adds, looks up and removes tokens of its own, and checks every answer. What a set
answers about one thread's tokens depends on that thread's calls alone, so whatever the
interleaving, a test returns what its threads get alone: every check passes. -/
namespace ParSweet.Sets.TestSets
open Concurrent Program TestTokens

variable {τ T : Type*}

/-! ### The programs -/

/-- `x = op; if (!x) { return false; }`, or `assert x;`, which throws. -/
def testX (op : SetOp T) : Program (SetOp T) (SetRes T) (Option Unit) :=
  .call op fun
    | .flag true => .ret (some ())
    | _ => .ret none

/-- `x = op; if (x) { return false; }` -/
def testNotX (op : SetOp T) : Program (SetOp T) (SetRes T) (Option Unit) :=
  .call op fun
    | .flag false => .ret (some ())
    | _ => .ret none

def checks (token : ℕ → T) : Checks (SetOp T) (SetRes T) Unit where
  put := fun i _ => testX (.add (token i))
  find := fun i _ => testX (.contains (token i))
  take := fun i _ => testX (.remove (token i))
  takeLater := fun i _ => testX (.remove (token i))
  miss := fun i _ => testNotX (.contains (token i))

/-- What one thread does, whose `i`-th token is `token i`. Without an early return it ends with
`some ()`. -/
def testA (WorkSize : ℕ) (token : ℕ → T) : Program (SetOp T) (SetRes T) (Option Unit) :=
  TestTokens.testA (checks token) WorkSize ()

/-- `String.format("%d_%d", threadId, n)` -/
def mkString (threadId n : ℕ) : String := toString threadId ++ "_" ++ toString n

/-- What one thread of `ControllerC.mutate` does: `draw` are the numbers its seed makes it draw. -/
def mutate (WORK_SIZE threadId : ℕ) (draw : ℕ → ℕ) : Program (SetOp String) (SetRes String) (Option Unit) :=
  forLoop (fun i _ =>
    .call (.add (mkString threadId (draw (2 * i)))) fun _ =>
    .call (.remove (mkString threadId (draw (2 * i + 1)))) fun _ =>
    .ret (some ())) 0 WORK_SIZE ()

/-! ### One thread alone -/

section Alone
variable [BEq T] {P Q : (T → Option T) → Prop} {op : SetOp T}

theorem testX_ensures (h : ∀ M, P M → (oneOfEach op M).1 = .flag true ∧ Q (oneOfEach op M).2) :
    Ensures (oneOfEach (T := T)) P (testX op) fun _ => Q := by
  intro M hM
  obtain ⟨hr, hq⟩ := h M hM
  exact ⟨(), (oneOfEach op M).2, by simp [testX, alone, hr], hq⟩

theorem testNotX_ensures (h : ∀ M, P M → (oneOfEach op M).1 = .flag false ∧ Q (oneOfEach op M).2) :
    Ensures (oneOfEach (T := T)) P (testNotX op) fun _ => Q := by
  intro M hM
  obtain ⟨hr, hq⟩ := h M hM
  exact ⟨(), (oneOfEach op M).2, by simp [testNotX, alone, hr], hq⟩

/-- The tokens with `p` are in the set, the others are not. -/
def Holds (token : ℕ → T) (WorkSize : ℕ) (p : ℕ → Prop) (M : T → Option T) : Prop :=
  ∀ j, j < WorkSize → ((M (token j)).isSome = true ↔ p j)

variable {token : ℕ → T} {WorkSize i : ℕ} {p : ℕ → Prop} {M : T → Option T}

section Own
variable (htoken : ∀ i j, i < WorkSize → j < WorkSize → ((token i == token j) = true ↔ i = j))
include htoken

theorem Holds.add (h : Holds token WorkSize p M) (hi : i < WorkSize) (hp : ¬ p i) :
    (oneOfEach (.add (token i)) M).1 = .flag true ∧
      Holds token WorkSize (fun j => j = i ∨ p j) (oneOfEach (.add (token i)) M).2 := by
  have hM : M (token i) = none := by
    rw [← Option.not_isSome_iff_eq_none, h i hi]
    exact hp
  rw [oneOfEach_add hM]
  refine ⟨rfl, fun j hj => ?_⟩
  by_cases hij : i = j
  · subst hij
    simp [(htoken i i hi hi).mpr rfl]
  · have hne : ¬ (token i == token j) = true := fun he => hij ((htoken i j hi hj).mp he)
    simp only [if_neg hne, h j hj, Ne.symm hij, false_or]

theorem Holds.remove (h : Holds token WorkSize p M) (hi : i < WorkSize) (hp : p i) :
    (oneOfEach (.remove (token i)) M).1 = .flag true ∧
      Holds token WorkSize (fun j => j ≠ i ∧ p j) (oneOfEach (.remove (token i)) M).2 := by
  have hM := (h i hi).mpr hp
  refine ⟨by simp [oneOfEach, SetOp.answer, SetOp.element, hM], fun j hj => ?_⟩
  by_cases hij : i = j
  · subst hij
    simp [oneOfEach, (htoken i i hi hi).mpr rfl]
  · have hne : ¬ (token i == token j) = true := fun he => hij ((htoken i j hi hj).mp he)
    simp only [oneOfEach, if_neg hne, h j hj, ne_eq, Ne.symm hij, not_false_eq_true, true_and]

/-- The checks of the sets pass. -/
theorem checks_sound : Sound (checks token) (oneOfEach (T := T)) (Holds token WorkSize) WorkSize where
  congr := fun p q M hpq h j hj => (h j hj).trans (hpq j hj)
  put := fun p i _ hi hp => testX_ensures fun M h => h.add htoken hi hp
  find := fun p i _ hi hp => testX_ensures fun M h => by
    have hM := (h i hi).mpr hp
    exact ⟨by simp [oneOfEach, SetOp.answer, SetOp.element, hM], h⟩
  take := fun p i _ hi hp => testX_ensures fun M h => h.remove htoken hi hp
  takeLater := fun p i _ hi hp => testX_ensures fun M h => h.remove htoken hi hp
  miss := fun p i _ hi hp => testNotX_ensures fun M h => by
    have hM : (M (token i)).isSome = false := Bool.eq_false_iff.mpr fun hM => hp ((h i hi).mp hM)
    exact ⟨by simp [oneOfEach, SetOp.answer, SetOp.element, hM], h⟩

end Own
end Alone

/-! ### Tokens of one's own -/

theorem testX_keeps {Own : SetOp T → Prop} {op : SetOp T} (h : Own op) : (testX op).Keeps Own := by
  refine ⟨h, fun r => ?_⟩
  dsimp only
  split <;> trivial

theorem testNotX_keeps {Own : SetOp T → Prop} {op : SetOp T} (h : Own op) : (testNotX op).Keeps Own := by
  refine ⟨h, fun r => ?_⟩
  dsimp only
  split <;> trivial

theorem checks_keepTo (WorkSize : ℕ) (token : ℕ → T) :
    KeepsTo (checks token) (fun op => ∃ i, i < WorkSize ∧ op.element = token i) WorkSize where
  put := fun i _ hi => testX_keeps ⟨i, hi, rfl⟩
  find := fun i _ hi => testX_keeps ⟨i, hi, rfl⟩
  take := fun i _ hi => testX_keeps ⟨i, hi, rfl⟩
  takeLater := fun i _ hi => testX_keeps ⟨i, hi, rfl⟩
  miss := fun i _ hi => testNotX_keeps ⟨i, hi, rfl⟩

theorem mutate_keeps (WORK_SIZE threadId : ℕ) (draw : ℕ → ℕ) :
    (mutate WORK_SIZE threadId draw).Keeps fun op => ∃ n, op.element = mkString threadId n :=
  Keeps.forLoop fun _ _ _ _ => ⟨⟨_, rfl⟩, fun _ => ⟨⟨_, rfl⟩, fun _ => trivial⟩⟩

section Independent
variable [BEq T] {Own : τ → SetOp T → Prop} {Region : τ → T → Prop}

/-- The sets find the same for the elements of the region. -/
def SameIn (Region : τ → T → Prop) (t : τ) (M M' : T → Option T) : Prop := ∀ x, Region t x → M x = M' x

/-- What is done about one element says nothing about another. -/
theorem oneOfEach_independent (hown : ∀ t op, Own t op → Region t op.element)
    (hdisjoint : ∀ t u, t ≠ u → ∀ x y, Region t x → Region u y → (x == y) = false) :
    Independent (oneOfEach (T := T)) Own (SameIn Region) where
  refl := fun _ _ _ _ => rfl
  own := fun t op M M' hop hsame => by
    have hM := hsame _ (hown t op hop)
    refine ⟨congrArg (fun old => op.answer old) hM, fun x hx => ?_⟩
    cases op with
    | add e =>
      have hM : M e = M' e := hM
      by_cases hnone : (M' e).isNone = true
      · simp only [oneOfEach, hM, if_pos hnone, hsame x hx]
      · simp only [oneOfEach, hM, if_neg hnone, hsame x hx]
    | remove e => simp only [oneOfEach, hsame x hx]
    | contains e => exact hsame x hx
    | getEqual e => exact hsame x hx
  other := fun t u op M M' hne hop hsame x hx => by
    have hneq : ¬ (op.element == x) = true :=
      Bool.eq_false_iff.mp (hdisjoint u t hne _ x (hown u op hop) hx)
    cases op with
    | add e =>
      by_cases hnone : (M e).isNone = true
      · simp only [oneOfEach, if_pos hnone]
        exact (if_neg hneq).trans (hsame x hx)
      · simp only [oneOfEach, if_neg hnone]
        exact hsame x hx
    | remove e => exact (if_neg hneq).trans (hsame x hx)
    | contains e => exact hsame x hx
    | getEqual e => exact hsame x hx

end Independent

/-! ### The tests -/

/-- **The checks of `testA` all pass**, on whatever has an outline and never faults. -/
theorem testA_passes {σ loc χ : Type*} [BEq T] [Fintype τ] [DecidableEq τ]
    {I : Implementation τ (SetOp T) (SetRes T) σ loc χ} {WorkSize : ℕ} {token : τ → ℕ → T} {Q : σ → Prop}
    {fault : loc → Prop} (P : Outline I (Spec.ofFun (oneOfEach (T := T)) fun _ => none))
    (halone : ∀ t op s a, P.Inv s a → Q s → ∃ r s', I.Answers t s op r s' ∧ Q s') (hQ : Q I.store)
    (hd : Distinct WorkSize token)
    (hfault : ∀ s, (Client.machine I fun t => testA WorkSize (token t)).system.Reachable s →
      ∀ t l, s.object.pc t = some l → ¬ fault l) : Passes I fault fun t => testA WorkSize (token t) := by
  have hkeep := fun t => checks_keepTo WorkSize (token t)
  have hind : Independent (oneOfEach (T := T)) _ (SameIn fun t x => ∃ i, i < WorkSize ∧ x = token t i) :=
    oneOfEach_independent (fun t => ((hkeep t).testA ()).trace (f := oneOfEach (T := T)) (a := fun _ => none)) (by
      rintro t u hne _ _ ⟨i, hi, rfl⟩ ⟨j, hj, rfl⟩
      exact Bool.eq_false_iff.mpr fun heq => hne ((hd t u i j hi hj).mp heq).1)
  exact passes_of_sound P (fun t op s a _ => halone t op s a) hQ hkeep
    (fun t => checks_sound fun i j hi hj => hd.own t hi hj) (fun t j _ => by simp) hind hfault

/-- No call on the optimistic set dereferences a null pointer if no two different ones of the elements
that the programs call for have the tail's key. -/
theorem optimistic_never_faults [BEq T] [EquivBEq T] [DecidableEq τ] {L : Lang} {H : Hash L T} {E : T → Prop}
    (hE : OptimisticSet.MaxUniqueOn H E) {α : Type*} {start : τ → Program (SetOp T) (SetRes T) α}
    (hown : ∀ t, (start t).Keeps fun op => E op.element)
    {s : Client.State τ (SetOp T) (SetRes T) (Store τ T) (OptimisticSet.Local T) α}
    (hs : (Client.machine (OptimisticSet.implementation τ H) start).system.Reachable s) {t : τ}
    {l : OptimisticSet.Local T} (hl : s.object.pc t = some l) : l.pc ≠ .fault := by
  obtain ⟨H', hmax, hsame⟩ := OptimisticSet.exists_maxUnique hE
  have hs' : (Client.machine (OptimisticSet.implementation τ H') start).system.Reachable s :=
    Client.reachable_same (OptimisticSet.sameOn hsame) (OptimisticSet.about_element H E) hown hs
  exact OptimisticSet.never_faults hmax (Client.reachable_object hs') hl

section Sets
variable [BEq T] [EquivBEq T] [Fintype τ] [DecidableEq τ] {L : Lang} {WorkSize : ℕ} {token : τ → ℕ → T}
  (hd : Distinct WorkSize token)
include hd

theorem fineGrained_passes (H : Hash L T) :
    Passes (FineGrainedSet.implementation τ H) (fun l => l.pc = .fault) fun t => testA WorkSize (token t) := by
  refine testA_passes (outlineOneOfEach (FineGrainedSet.outline τ H)) (Q := Quiet) (fun t op s M hinv hq => ?_)
    initial_quiet hd fun s hs t l hl => FineGrainedSet.never_faults H (Client.reachable_object hs) hl
  obtain ⟨A, hinv, _⟩ := hinv
  exact FineGrainedSet.answers_alone hinv.1 hq t op

theorem optimistic_passes (H : Hash L T) (hmax : OptimisticSet.MaxUniqueOn H (IsToken WorkSize token)) :
    Passes (OptimisticSet.implementation τ H) (fun l => l.pc = .fault) fun t => testA WorkSize (token t) := by
  have hown : ∀ t, (testA WorkSize (token t)).Keeps fun op => IsToken WorkSize token op.element :=
    fun t => ((checks_keepTo WorkSize (token t)).testA ()).imp fun op hop => ⟨t, hop⟩
  refine testA_passes (outlineOneOfEach (OptimisticSet.outline τ H)) (Q := Quiet) (fun t op s M hinv hq => ?_)
    initial_quiet hd fun s hs t l hl => optimistic_never_faults hmax hown hs hl
  obtain ⟨A, hinv, _⟩ := hinv
  exact OptimisticSet.answers_alone hinv.1 hq t op

theorem lazy_passes (H : Hash L T) :
    Passes (LazySet.implementation τ H) (fun l => l.pc = .fault) fun t => testA WorkSize (token t) := by
  refine testA_passes (outlineOneOfEach (LazySet.outline τ H)) (Q := Quiet) (fun t op s M hinv hq => ?_)
    initial_quiet hd fun s hs t l hl => LazySet.never_faults H (Client.reachable_object hs) hl
  obtain ⟨A, hinv, _⟩ := hinv
  exact LazySet.answers_alone hinv.1 hq t op

theorem lockHash_passes (H : Hash .cpp T) {NumBuckets : BitVec 64} (hN : 2 ≤ NumBuckets.toNat) :
    Passes (LockHashSet.implementation τ H NumBuckets) (fun l => l.pc = .fault) fun t => testA WorkSize (token t) :=
  testA_passes (LockHashSet.outline τ H NumBuckets) (Q := Maps.Free)
    (fun t op _ _ hinv hq => (LockHashSet.ends_alone hN hinv hq t op).returns.answers) (fun _ => rfl) hd
    fun _ hs _ _ hl => LockHashSet.never_faults H hN (Client.reachable_object hs) hl

end Sets

/-- A string tells its two numbers. -/
theorem mkString_inj {a b c d : ℕ} : mkString a b = mkString c d ↔ a = c ∧ b = d := by
  constructor
  · intro h
    have hlist := congrArg String.toList h
    have hscore : "_".toList = ['_'] := rfl
    simp only [mkString, String.toList_append, Nat.toString_eq_repr, Nat.toList_repr, List.append_assoc, hscore,
      List.singleton_append] at hlist
    -- there is no underscore in a number
    obtain ⟨hac, _, hbd⟩ := (List.append_cons_inj_of_notMem Nat.underscore_not_in_toDigits
      Nat.underscore_not_in_toDigits).mp hlist
    refine ⟨Nat.repr_injective ?_, Nat.repr_injective ?_⟩
    · rw [Nat.repr_eq_ofList_toDigits, hac, ← Nat.repr_eq_ofList_toDigits]
    · rw [Nat.repr_eq_ofList_toDigits, hbd, ← Nat.repr_eq_ofList_toDigits]
  · rintro ⟨rfl, rfl⟩
    rfl

theorem mkString_distinct {Threads WorkSize : ℕ} : Distinct WorkSize fun (t : Fin Threads) => mkString t := by
  intro t u i j _ _
  rw [beq_iff_eq]
  exact mkString_inj.trans (and_congr_left' Fin.val_inj)

/-- **`testA` of the C++ suite never fails**, whatever the interleaving, the number of threads and the
hash function, as long as the tokens are `int`s, and on the optimistic set if no two of them have
the tail's key. -/
theorem testSets_pass (Threads WorkSize : ℕ) (hsize : Threads * WorkSize ≤ 2 ^ 31) (H : Hash .cpp (BitVec 32)) :
    let test := fun t : Fin Threads => testA WorkSize (intToken Threads t)
    let tokens := IsToken WorkSize fun t : Fin Threads => intToken Threads t
    Passes (LockHashSet.implementation (Fin Threads) H 16) (fun l => l.pc = .fault) test ∧
      Passes (FineGrainedSet.implementation (Fin Threads) H) (fun l => l.pc = .fault) test ∧
      (OptimisticSet.MaxUniqueOn H tokens →
        Passes (OptimisticSet.implementation (Fin Threads) H) (fun l => l.pc = .fault) test) ∧
      Passes (LazySet.implementation (Fin Threads) H) (fun l => l.pc = .fault) test := by
  have hd : Distinct WorkSize fun t : Fin Threads => intToken Threads t := intToken_distinct (hsize.trans (by decide))
  exact ⟨lockHash_passes hd H (by decide), fineGrained_passes hd H, optimistic_passes hd H, lazy_passes hd H⟩

/-- `std::hash<int>`: the number itself, as a `usize`. -/
def intHash : Hash .cpp (BitVec 32) where
  hash := fun k => (k.signExtend 64).toNat
  lower := fun k => Int.natCast_nonneg _
  upper := fun k => by
    have := (k.signExtend 64).isLt
    simp only [Lang.tailKey]
    omega
  respects := fun a b h => by rw [eq_of_beq h]

/-- Different elements with different hashes share no key. -/
theorem maxUniqueOn_of_injective [BEq T] [ReflBEq T] {L : Lang} {H : Hash L T} (h : Function.Injective H.hash)
    (E : T → Prop) : OptimisticSet.MaxUniqueOn H E := fun v w _ _ hv hw => by
  rw [h (hv.trans hw.symm)]
  exact BEq.rfl

theorem intHash_injective : Function.Injective intHash.hash := by
  intro v w h
  have hext : v.signExtend 64 = w.signExtend 64 := BitVec.eq_of_toNat_eq (Int.ofNat.inj h)
  have hint := congrArg BitVec.toInt hext
  rw [BitVec.toInt_signExtend_of_le (by decide), BitVec.toInt_signExtend_of_le (by decide)] at hint
  exact BitVec.eq_of_toInt_eq hint

/-- The numbers of the test program. -/
theorem testSets_pass_twelve :
    let test := fun t : Fin 12 => testA 83 (intToken 12 t)
    Passes (LockHashSet.implementation (Fin 12) intHash 16) (fun l => l.pc = .fault) test ∧
      Passes (FineGrainedSet.implementation (Fin 12) intHash) (fun l => l.pc = .fault) test ∧
      Passes (OptimisticSet.implementation (Fin 12) intHash) (fun l => l.pc = .fault) test ∧
      Passes (LazySet.implementation (Fin 12) intHash) (fun l => l.pc = .fault) test := by
  obtain ⟨hhash, hfine, hoptimistic, hlazy⟩ := testSets_pass 12 83 (by decide) intHash
  exact ⟨hhash, hfine, hoptimistic (maxUniqueOn_of_injective intHash_injective _), hlazy⟩

/-- **Nor do `ControllerA` and `ControllerB`** of the Java suite, the first as long as its tokens do not come
round to the same `int`, the second, on strings, for any amount of work; on the optimistic set if
no two tokens have the tail's key. -/
theorem javaTestSets_pass (THREADS WORK_SIZE : ℕ) (H : Hash .java (BitVec 32)) (H' : Hash .java String) :
    let testA := fun t : Fin THREADS => testA WORK_SIZE (intToken THREADS t)
    let testB := fun t : Fin THREADS => TestSets.testA WORK_SIZE (mkString t)
    (THREADS * WORK_SIZE ≤ 2 ^ 32 →
      Passes (FineGrainedSet.implementation (Fin THREADS) H) (fun l => l.pc = .fault) testA ∧
      (OptimisticSet.MaxUniqueOn H (IsToken WORK_SIZE fun t : Fin THREADS => intToken THREADS t) →
        Passes (OptimisticSet.implementation (Fin THREADS) H) (fun l => l.pc = .fault) testA) ∧
      Passes (LazySet.implementation (Fin THREADS) H) (fun l => l.pc = .fault) testA) ∧
    Passes (FineGrainedSet.implementation (Fin THREADS) H') (fun l => l.pc = .fault) testB ∧
      (OptimisticSet.MaxUniqueOn H' (IsToken WORK_SIZE fun t : Fin THREADS => mkString t) →
        Passes (OptimisticSet.implementation (Fin THREADS) H') (fun l => l.pc = .fault) testB) ∧
      Passes (LazySet.implementation (Fin THREADS) H') (fun l => l.pc = .fault) testB := by
  refine ⟨fun hsize => ?_, ?_⟩
  · have hd := intToken_distinct hsize
    exact ⟨fineGrained_passes hd H, optimistic_passes hd H, lazy_passes hd H⟩
  · exact ⟨fineGrained_passes mkString_distinct H', optimistic_passes mkString_distinct H',
      lazy_passes mkString_distinct H'⟩

/-- `31 * h + c` -/
def hashChar (h : BitVec 32) (c : Char) : BitVec 32 := 31 * h + BitVec.ofNat 32 c.toNat

/-- `String.hashCode()`, of characters that are one `char` each. -/
def stringHash : Hash .java String where
  hash := fun s => (s.toList.foldl hashChar 0).toInt
  lower := fun _ => BitVec.le_toInt _
  upper := fun _ => Int.le_of_lt_add_one BitVec.toInt_lt
  respects := fun _ _ h => by rw [eq_of_beq h]

/-- The hash of a few small characters stays small. -/
theorem foldl_hashChar_lt {cs : List Char} (hc : ∀ c ∈ cs, c.toNat ≤ 150) {h : BitVec 32}
    (hlt : (h.toNat + 5) * 31 ^ cs.length < 2 ^ 31) : (cs.foldl hashChar h).toNat + 5 < 2 ^ 31 := by
  induction cs generalizing h with
  | nil => simpa using hlt
  | cons c cs ih =>
    have hc₀ : c.toNat ≤ 150 := hc c List.mem_cons_self
    have hpow : 0 < 31 ^ cs.length := Nat.pow_pos (by decide)
    rw [List.length_cons, Nat.pow_succ'] at hlt
    have hsmall : (h.toNat + 5) * 31 < 2 ^ 31 :=
      lt_of_le_of_lt (Nat.mul_le_mul_left _ (Nat.le_mul_of_pos_right 31 hpow)) hlt
    have hnext : (hashChar h c).toNat = 31 * h.toNat + c.toNat := by
      have h31 : (31 : BitVec 32).toNat = 31 := rfl
      rw [hashChar, BitVec.toNat_add, BitVec.toNat_mul, BitVec.toNat_ofNat, h31]
      omega
    refine ih (fun d hd => hc d (List.mem_cons_of_mem c hd)) (lt_of_le_of_lt ?_ hlt)
    rw [← Nat.mul_assoc]
    refine Nat.mul_le_mul_right _ ?_
    omega

/-- The strings of the test program are too short to have the tail's key. -/
theorem stringHash_mkString {t i : ℕ} (ht : t < 100) (hi : i < 100) :
    stringHash.hash (mkString t i) ≠ Lang.java.tailKey := by
  have hchars : (mkString t i).toList = Nat.toDigits 10 t ++ '_' :: Nat.toDigits 10 i := by
    simp [mkString, Nat.toString_eq_repr, Nat.toList_repr]
  have hlen : (mkString t i).toList.length ≤ 5 := by
    have h := (Nat.length_toDigits_le_iff (b := 10) (k := 2) (by decide) (by decide)).mpr ht
    have h' := (Nat.length_toDigits_le_iff (b := 10) (k := 2) (by decide) (by decide)).mpr hi
    rw [hchars, List.length_append, List.length_cons]
    omega
  have hdigit : ∀ {n : ℕ} {c : Char}, c ∈ Nat.toDigits 10 n → c.toNat ≤ 150 := by
    intro n c hc
    have hc : c.isDigit = true := Nat.isDigit_of_mem_toDigits (by decide) (by decide) hc
    exact (Char.isDigit_iff_toNat.mp hc).2.trans (by decide)
  have hsmall : ∀ c ∈ (mkString t i).toList, c.toNat ≤ 150 := by
    intro c hc
    rw [hchars, List.mem_append, List.mem_cons] at hc
    rcases hc with hc | rfl | hc
    · exact hdigit hc
    · decide
    · exact hdigit hc
  have hpow : 31 ^ (mkString t i).toList.length ≤ 31 ^ 5 := Nat.pow_le_pow_right (by decide) hlen
  have hlt : ((mkString t i).toList.foldl hashChar 0).toNat + 5 < 2 ^ 31 :=
    foldl_hashChar_lt hsmall (show (0 + 5) * 31 ^ (mkString t i).toList.length < 2 ^ 31 by omega)
  show (((mkString t i).toList.foldl hashChar 0).toInt : Int) ≠ 2147483647
  rw [BitVec.toInt_eq_toNat_of_lt (by omega)]
  omega

theorem javaTestSets_pass_twelve :
    let testA := fun t : Fin 12 => testA 83 (intToken 12 t)
    let testB := fun t : Fin 12 => TestSets.testA 83 (mkString t)
    (Passes (FineGrainedSet.implementation (Fin 12) Maps.LockHashMap.integerHash) (fun l => l.pc = .fault) testA ∧
      Passes (OptimisticSet.implementation (Fin 12) Maps.LockHashMap.integerHash) (fun l => l.pc = .fault) testA ∧
      Passes (LazySet.implementation (Fin 12) Maps.LockHashMap.integerHash) (fun l => l.pc = .fault) testA) ∧
    Passes (FineGrainedSet.implementation (Fin 12) stringHash) (fun l => l.pc = .fault) testB ∧
      Passes (OptimisticSet.implementation (Fin 12) stringHash) (fun l => l.pc = .fault) testB ∧
      Passes (LazySet.implementation (Fin 12) stringHash) (fun l => l.pc = .fault) testB := by
  obtain ⟨hA, hfine, hoptimistic, hlazy⟩ := javaTestSets_pass 12 83 Maps.LockHashMap.integerHash stringHash
  obtain ⟨hfineA, hoptimisticA, hlazyA⟩ := hA (by decide)
  refine ⟨⟨hfineA, hoptimisticA (maxUniqueOn_of_injective (fun v w => BitVec.eq_of_toInt_eq) _), hlazyA⟩,
    hfine, hoptimistic ?_, hlazy⟩
  intro v w hv _ hkey
  obtain ⟨t, i, hi, rfl⟩ := hv
  exact absurd hkey (stringHash_mkString (by omega) (by omega))

/-! ### `ControllerC` -/

/-- The thread that waits for the others calls nothing. -/
def mutateAll (THREADS WORK_SIZE : ℕ) (draw : Fin THREADS → ℕ → ℕ) :
    Option (Fin THREADS) → Program (SetOp String) (SetRes String) (Option Unit)
  | none => .ret (some ())
  | some t => mutate WORK_SIZE t (draw t)

/-- The strings of a thread; to nobody's the thread that waits may look. -/
def Region {THREADS : ℕ} : Option (Fin THREADS) → String → Prop
  | none, x => ∀ (t : Fin THREADS) n, x ≠ mkString t n
  | some t, x => ∃ n, x = mkString t n

theorem region_disjoint {THREADS : ℕ} {t u : Option (Fin THREADS)} (hne : t ≠ u) {x y : String} (hx : Region t x)
    (hy : Region u y) : (x == y) = false := by
  refine beq_eq_false_iff_ne.mpr fun heq => ?_
  subst heq
  cases t with
  | none =>
    cases u with
    | none => exact hne rfl
    | some u =>
      obtain ⟨n, rfl⟩ := hy
      exact hx u n rfl
  | some t =>
    obtain ⟨n, rfl⟩ := hx
    cases u with
    | none => exact hy t n rfl
    | some u =>
      obtain ⟨m, he⟩ := hy
      exact hne (congrArg some (Fin.ext (mkString_inj.mp he).1))

theorem exists_region {THREADS : ℕ} (x : String) : ∃ t : Option (Fin THREADS), Region t x := by
  by_cases h : ∃ (t : Fin THREADS) (n : ℕ), x = mkString t n
  · obtain ⟨t, n, hx⟩ := h
    exact ⟨some t, n, hx⟩
  · exact ⟨none, fun t n hx => h ⟨t, n, hx⟩⟩

section Mutate
variable {THREADS WORK_SIZE : ℕ} {draw : Fin THREADS → ℕ → ℕ} {σ loc χ σ' loc' χ' : Type*}
  {I : Implementation (Option (Fin THREADS)) (SetOp String) (SetRes String) σ loc χ}
  {I' : Implementation (Option (Fin THREADS)) (SetOp String) (SetRes String) σ' loc' χ'}

/-- When all have returned, `contains` finds a string or not as its thread alone leaves it. -/
theorem mutateAll_contains (hI : I.Linearizable (Spec.ofFun (oneOfEach (T := String)) fun _ => none))
    {s : Client.State (Option (Fin THREADS)) (SetOp String) (SetRes String) σ loc (Option Unit)}
    (hs : (Client.machine I (mutateAll THREADS WORK_SIZE draw)).system.Reachable s)
    (hret : ∀ t, ∃ x, s.program t = .ret x) {u t : Option (Fin THREADS)} {e : String} {r : SetRes String} {o : σ}
    (hr : I.Answers u s.object.store (.contains e) r o) (ht : Region t e) :
    r = .flag (((mutateAll THREADS WORK_SIZE draw t).alone (oneOfEach (T := String)) fun _ => none).2 e).isSome := by
  obtain ⟨es, hrun⟩ := hs
  have hown : ∀ t op, op ∈ (mutateAll THREADS WORK_SIZE draw t).trace (oneOfEach (T := String)) (fun _ => none) →
      Region t op.element := by
    intro t op hop
    cases t with
    | none => cases hop
    | some t => exact (mutate_keeps WORK_SIZE t (draw t)).trace op hop
  have hind := oneOfEach_independent hown fun t u hne x y hx hy => region_disjoint hne hx hy
  obtain ⟨M, hM, hsame⟩ := hI.answers_after hind hrun hret hr
  have hMe : M e = _ := hsame t e ht
  rw [← hM, ← hMe]
  rfl

/-- What is asked of a set when `ControllerC` compares it with a reference: after every thread has
drawn the same numbers for both, whatever the two interleavings, `contains` answers the same
on both. -/
def MutatesAlike (I : Implementation (Option (Fin THREADS)) (SetOp String) (SetRes String) σ loc χ)
    (I' : Implementation (Option (Fin THREADS)) (SetOp String) (SetRes String) σ' loc' χ') (WORK_SIZE : ℕ) : Prop :=
  ∀ draw s s', (Client.machine I (mutateAll THREADS WORK_SIZE draw)).system.Reachable s →
    (Client.machine I' (mutateAll THREADS WORK_SIZE draw)).system.Reachable s' →
    (∀ t, ∃ x, s.program t = .ret x) → (∀ t, ∃ x, s'.program t = .ret x) →
    ∀ e r r' o o', I.Answers none s.object.store (.contains e) r o →
      I'.Answers none s'.object.store (.contains e) r' o' → r = r'

theorem mutatesAlike (hI : I.Linearizable (Spec.ofFun (oneOfEach (T := String)) fun _ => none))
    (hI' : I'.Linearizable (Spec.ofFun (oneOfEach (T := String)) fun _ => none)) : MutatesAlike I I' WORK_SIZE := by
  intro draw s s' hs hs' hret hret' e r r' o o' hr hr'
  obtain ⟨t, ht⟩ : ∃ t : Option (Fin THREADS), Region t e := exists_region e
  exact (mutateAll_contains hI hs hret hr ht).trans (mutateAll_contains hI' hs' hret' hr' ht).symm

end Mutate

/-- **`ControllerC` finds the sets as it finds its reference**, which is any set that is linearizable,
and whatever numbers are drawn. -/
theorem controllerC_passes {THREADS : ℕ} {σ loc χ : Type*} (WORK_SIZE : ℕ) (H : Hash .java String)
    (referenceImpl : Implementation (Option (Fin THREADS)) (SetOp String) (SetRes String) σ loc χ)
    (hreference : referenceImpl.Linearizable (Spec.ofFun (oneOfEach (T := String)) fun _ => none)) :
    MutatesAlike (FineGrainedSet.implementation (Option (Fin THREADS)) H) referenceImpl WORK_SIZE ∧
      MutatesAlike (OptimisticSet.implementation (Option (Fin THREADS)) H) referenceImpl WORK_SIZE ∧
      MutatesAlike (LazySet.implementation (Option (Fin THREADS)) H) referenceImpl WORK_SIZE :=
  ⟨mutatesAlike (outlineOneOfEach (FineGrainedSet.outline _ H)).linearizable hreference,
    mutatesAlike (outlineOneOfEach (OptimisticSet.outline _ H)).linearizable hreference,
    mutatesAlike (outlineOneOfEach (LazySet.outline _ H)).linearizable hreference⟩

/-- A set whose every call takes effect at once. -/
def atomicSet (τ : Type*) :
    Implementation τ (SetOp String) (SetRes String) (String → Option String) (SetOp String ⊕ SetRes String) Unit :=
  .atomic (oneOfEach (T := String)) fun _ => none

/-- The numbers of the test program, and a reference whose calls take effect at once. -/
theorem controllerC_passes_twelve :
    MutatesAlike (FineGrainedSet.implementation (Option (Fin 12)) stringHash) (atomicSet (Option (Fin 12))) 83 ∧
      MutatesAlike (OptimisticSet.implementation (Option (Fin 12)) stringHash) (atomicSet (Option (Fin 12))) 83 ∧
      MutatesAlike (LazySet.implementation (Option (Fin 12)) stringHash) (atomicSet (Option (Fin 12))) 83 :=
  controllerC_passes 83 stringHash (atomicSet (Option (Fin 12))) Implementation.atomic_linearizable

end ParSweet.Sets.TestSets
