import ParSweet.Concurrent.Program
import ParSweet.Counter

/-! What `testA` does with its tokens, in the tests of the sets and of the maps of both suites.

A thread puts each of its tokens in, finds it, takes it out and misses it; then it does the
four things with all of them in four loops. The tests differ in what they check on the way
(`Checks`). If the checks pass on their own, so does the whole (`Sound.ensures`). -/
namespace ParSweet.TestTokens
open Concurrent Program

variable {τ T Op Res S A : Type*}

/-- What a test does with its `i`-th token; `none` is its early return. -/
structure Checks (Op Res S : Type*) where
  put : ℕ → S → Program Op Res (Option S)
  find : ℕ → S → Program Op Res (Option S)
  /-- Taking it out in the first loop ... -/
  take : ℕ → S → Program Op Res (Option S)
  /-- ... and in the fourth. -/
  takeLater : ℕ → S → Program Op Res (Option S)
  miss : ℕ → S → Program Op Res (Option S)

def testA (c : Checks Op Res S) (WorkSize : ℕ) (x : S) : Program Op Res (Option S) :=
  (forLoop (fun i x =>
    (c.put i x).andThen fun x => (c.find i x).andThen fun x => (c.take i x).andThen fun x => c.miss i x)
    0 WorkSize x).andThen fun x =>
  (forLoop c.put 0 WorkSize x).andThen fun x =>
  (forLoop c.find 0 WorkSize x).andThen fun x =>
  (forLoop c.takeLater 0 WorkSize x).andThen fun x =>
  forLoop c.miss 0 WorkSize x

/-- `i * Threads + threadId`, an `int`. -/
def intToken (Threads threadId i : ℕ) : BitVec 32 :=
  BitVec.ofNat 32 i * BitVec.ofNat 32 Threads + BitVec.ofNat 32 threadId

/-! ### One thread alone -/

/-- With `p` the tokens that are in, every check passes and puts in or takes out its own. -/
structure Sound (c : Checks Op Res S) (f : Op → A → Res × A) (Holds : (ℕ → Prop) → A → Prop) (WorkSize : ℕ) :
    Prop where
  congr : ∀ p q a, (∀ j, j < WorkSize → (p j ↔ q j)) → Holds p a → Holds q a
  put : ∀ p i x, i < WorkSize → ¬ p i → Ensures f (Holds p) (c.put i x) fun _ => Holds fun j => j = i ∨ p j
  find : ∀ p i x, i < WorkSize → p i → Ensures f (Holds p) (c.find i x) fun _ => Holds p
  take : ∀ p i x, i < WorkSize → p i → Ensures f (Holds p) (c.take i x) fun _ => Holds fun j => j ≠ i ∧ p j
  takeLater : ∀ p i x, i < WorkSize → p i →
    Ensures f (Holds p) (c.takeLater i x) fun _ => Holds fun j => j ≠ i ∧ p j
  miss : ∀ p i x, i < WorkSize → ¬ p i → Ensures f (Holds p) (c.miss i x) fun _ => Holds p

variable {c : Checks Op Res S} {f : Op → A → Res × A} {Holds : (ℕ → Prop) → A → Prop} {WorkSize : ℕ}

/-- **Alone, no check fails.** -/
theorem Sound.ensures (h : Sound c f Holds WorkSize) (x : S) :
    Ensures f (Holds fun _ => False) (testA c WorkSize x) fun _ => Holds fun _ => False := by
  have hfirst : ∀ x, Ensures f (Holds fun _ => False)
      (forLoop (fun i x =>
        (c.put i x).andThen fun x => (c.find i x).andThen fun x => (c.take i x).andThen fun x => c.miss i x)
        0 WorkSize x) fun _ => Holds fun _ => False := by
    refine fun x => .forLoop (I := fun _ _ => Holds fun _ => False) fun i x _ hi => ?_
    have hi : i < WorkSize := by omega
    refine (h.put _ i x hi id).andThen fun x => (h.find _ i x hi (.inl rfl)).andThen fun x => ?_
    refine (h.take _ i x hi (.inl rfl)).andThen fun x => ?_
    refine (h.miss _ i x hi fun hm => hm.1 rfl).weaken (fun _ ha => ha) fun _ a => h.congr _ _ a fun j _ => ?_
    exact ⟨fun ⟨hne, hj⟩ => hj.elim hne id, False.elim⟩
  have hput : ∀ x, Ensures f (Holds fun _ => False) (forLoop c.put 0 WorkSize x)
      fun _ => Holds fun j => j < WorkSize := by
    intro x
    have hloop : Ensures f (Holds fun j => j < 0) (forLoop c.put 0 WorkSize x)
        fun _ => Holds fun j => j < 0 + WorkSize :=
      .forLoop (I := fun i _ => Holds fun j => j < i) fun i x _ hi =>
        (h.put _ i x (by omega) (by omega)).weaken (fun _ ha => ha) fun _ a => h.congr _ _ a fun j _ => by omega
    refine hloop.weaken (fun a => h.congr _ _ a fun j _ => ?_) fun _ a => h.congr _ _ a fun j _ => ?_
    · simp
    · simp
  have hfind : ∀ x, Ensures f (Holds fun j => j < WorkSize) (forLoop c.find 0 WorkSize x)
      fun _ => Holds fun j => j < WorkSize :=
    fun x => .forLoop (I := fun _ _ => Holds fun j => j < WorkSize) fun i x _ hi =>
      h.find _ i x (by omega) (by omega)
  have htake : ∀ x, Ensures f (Holds fun j => j < WorkSize) (forLoop c.takeLater 0 WorkSize x)
      fun _ => Holds fun _ => False := by
    intro x
    have hloop : Ensures f (Holds fun j => 0 ≤ j) (forLoop c.takeLater 0 WorkSize x)
        fun _ => Holds fun j => 0 + WorkSize ≤ j :=
      .forLoop (I := fun i _ => Holds fun j => i ≤ j) fun i x _ hi =>
        (h.takeLater _ i x (by omega) (Nat.le_refl i)).weaken (fun _ ha => ha)
          fun _ a => h.congr _ _ a fun j _ => by omega
    refine hloop.weaken (fun a => h.congr _ _ a fun j hj => ?_) fun _ a => h.congr _ _ a fun j hj => ?_
    · simp [hj]
    · simp [hj]
  have hmiss : ∀ x, Ensures f (Holds fun _ => False) (forLoop c.miss 0 WorkSize x) fun _ => Holds fun _ => False :=
    fun x => .forLoop (I := fun _ _ => Holds fun _ => False) fun i x _ hi => h.miss _ i x (by omega) id
  exact (hfirst x).andThen fun x => (hput x).andThen fun x => (hfind x).andThen fun x => (htake x).andThen hmiss

/-! ### Tokens of one's own -/

/-- The checks of the `i`-th token call only what meets `Own`. -/
structure KeepsTo (c : Checks Op Res S) (Own : Op → Prop) (WorkSize : ℕ) : Prop where
  put : ∀ i x, i < WorkSize → (c.put i x).Keeps Own
  find : ∀ i x, i < WorkSize → (c.find i x).Keeps Own
  take : ∀ i x, i < WorkSize → (c.take i x).Keeps Own
  takeLater : ∀ i x, i < WorkSize → (c.takeLater i x).Keeps Own
  miss : ∀ i x, i < WorkSize → (c.miss i x).Keeps Own

theorem KeepsTo.testA {Own : Op → Prop} (h : KeepsTo c Own WorkSize) (x : S) : (testA c WorkSize x).Keeps Own := by
  refine (Keeps.forLoop fun i x _ hi => ?_).andThen fun x => ?_
  · exact (h.put i x (by omega)).andThen fun x => (h.find i x (by omega)).andThen fun x =>
      (h.take i x (by omega)).andThen fun x => h.miss i x (by omega)
  · exact (Keeps.forLoop fun i x _ hi => h.put i x (by omega)).andThen fun x =>
      (Keeps.forLoop fun i x _ hi => h.find i x (by omega)).andThen fun x =>
      (Keeps.forLoop fun i x _ hi => h.takeLater i x (by omega)).andThen fun x =>
      Keeps.forLoop fun i x _ hi => h.miss i x (by omega)

/-! ### Among other threads -/

/-- What is asked of an object that the threads test: whatever the interleaving, no thread returns
early and no call stands at a fault, and the test can come to its end. -/
structure Passes {σ loc χ : Type*} [DecidableEq τ] (I : Implementation τ Op Res σ loc χ) (fault : loc → Prop)
    (test : τ → Program Op Res (Option S)) : Prop where
  never : ∀ s, (Client.machine I test).system.Reachable s → ∀ t, s.program t ≠ .ret none
  noFault : ∀ s, (Client.machine I test).system.Reachable s → ∀ t l, s.object.pc t = some l → ¬ fault l
  ends : ∃ s, (Client.machine I test).system.Reachable s ∧ ∀ t, ∃ x, s.program t = .ret (some x)

/-- **The checks pass on whatever has an outline**, if no thread's calls concern the others, calls
that run alone return, and none faults. -/
theorem passes_of_sound {σ loc χ : Type*} [Fintype τ] [DecidableEq τ] {I : Implementation τ Op Res σ loc χ} {a₀ : A}
    {c : τ → Checks Op Res S} {x : S} {Holds : τ → (ℕ → Prop) → A → Prop} {Same : τ → A → A → Prop}
    {Own : τ → Op → Prop} {Q : σ → Prop} {fault : loc → Prop} (P : Outline I (Spec.ofFun f a₀))
    (halone : ∀ t op s a, Own t op → P.Inv s a → Q s → ∃ r s', I.Answers t s op r s' ∧ Q s') (hQ : Q I.store)
    (hkeep : ∀ t, KeepsTo (c t) (Own t) WorkSize) (hsound : ∀ t, Sound (c t) f (Holds t) WorkSize)
    (hempty : ∀ t, Holds t (fun _ => False) a₀)
    (hind : Independent f (fun t op => op ∈ (testA (c t) WorkSize x).trace f a₀) Same)
    (hfault : ∀ s, (Client.machine I fun t => testA (c t) WorkSize x).system.Reachable s →
      ∀ t l, s.object.pc t = some l → ¬ fault l) :
    Passes I fault fun t => testA (c t) WorkSize x := by
  have hnever : ∀ s, (Client.machine I fun t => testA (c t) WorkSize x).system.Reachable s →
      ∀ t, s.program t ≠ .ret none := by
    rintro s ⟨es, hrun⟩ t hnone
    have hret := P.linearizable.ends_as_alone hind hrun hnone
    obtain ⟨y, M, hM, _⟩ := (hsound t).ensures x a₀ (hempty t)
    rw [hM] at hret
    cases hret
  refine ⟨hnever, hfault, ?_⟩
  obtain ⟨s, hs, hret⟩ := Client.exists_ret P halone hQ fun t => (hkeep t).testA x
  refine ⟨s, hs, fun t => ?_⟩
  obtain ⟨y, hy⟩ := hret t
  cases y with
  | none => exact absurd hy (hnever s hs t)
  | some y => exact ⟨y, hy⟩

/-! ### Tokens of the tests -/

/-- No token is that of two threads, or that of two rounds. -/
def Distinct [BEq T] (WorkSize : ℕ) (token : τ → ℕ → T) : Prop :=
  ∀ t u i j, i < WorkSize → j < WorkSize → ((token t i == token u j) = true ↔ t = u ∧ i = j)

/-- What the threads put in. -/
def IsToken (WorkSize : ℕ) (token : τ → ℕ → T) (x : T) : Prop := ∃ t i, i < WorkSize ∧ x = token t i

theorem Distinct.own [BEq T] {token : τ → ℕ → T} (h : Distinct WorkSize token) (t : τ) {i j : ℕ} (hi : i < WorkSize)
    (hj : j < WorkSize) : (token t i == token t j) = true ↔ i = j :=
  (h t t i j hi hj).trans (and_iff_right rfl)

section IntToken
variable {Threads WorkSize i : ℕ}

theorem token_lt {bound : ℕ} (hsize : Threads * WorkSize ≤ bound) (t : Fin Threads) (hi : i < WorkSize) :
    i * Threads + t < bound := by
  have := Nat.mul_le_mul_right Threads (Nat.succ_le_of_lt hi)
  rw [Nat.succ_mul, Nat.mul_comm WorkSize] at this
  omega

variable (hsize : Threads * WorkSize ≤ 2 ^ 32)
include hsize

/-- The tokens do not wrap around. -/
theorem intToken_toNat (t : Fin Threads) (hi : i < WorkSize) : (intToken Threads t i).toNat = i * Threads + t := by
  rw [intToken, ← BitVec.ofNat_mul, ← BitVec.ofNat_add, BitVec.toNat_ofNat]
  exact Nat.mod_eq_of_lt (token_lt hsize t hi)

/-- So they are different. -/
theorem intToken_distinct : Distinct WorkSize fun (t : Fin Threads) => intToken Threads t := by
  intro t u i j hi hj
  rw [beq_iff_eq]
  constructor
  · intro heq
    have hnat : i * Threads + t = j * Threads + u := by
      rw [← intToken_toNat hsize t hi, ← intToken_toNat hsize u hj]
      exact congrArg BitVec.toNat heq
    have hdiv : i = j := by
      have := congrArg (· / Threads) hnat
      simpa [Nat.add_comm (_ * Threads), Nat.add_mul_div_right _ _ (Fin.pos t), Nat.div_eq_of_lt t.isLt,
        Nat.div_eq_of_lt u.isLt] using this
    subst hdiv
    exact ⟨Fin.ext (by omega), rfl⟩
  · rintro ⟨rfl, rfl⟩
    rfl

end IntToken

end ParSweet.TestTokens
