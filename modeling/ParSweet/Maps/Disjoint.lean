import ParSweet.Concurrent.Independent
import ParSweet.Maps.Interchange

/-! Threads that use no key in common, on the two C++ maps.

What the maps answer for a key depends on what was done under that key alone. So threads
whose scripts share no key are independent on either mathematical map, whichever value
wins, and get on the code what they would get alone. -/
namespace ParSweet.Maps
open Concurrent Sets

variable {τ K V : Type*} [BEq K] {script : τ → List (MapOp K V)}

/-- No key is used by two threads. -/
def DisjointKeys (script : τ → List (MapOp K V)) : Prop :=
  ∀ t u, t ≠ u → ∀ op ∈ script t, ∀ op' ∈ script u, (op.key == op'.key) = false

/-- The maps have the same under the keys the thread uses. -/
def SameKeys (script : τ → List (MapOp K V)) (t : τ) (M M' : K → Option V) : Prop :=
  ∀ op ∈ script t, M op.key = M' op.key

theorem lastWins_independent (L : Lang) (h : DisjointKeys script) :
    Independent (lastWins L) (fun t op => op ∈ script t) (SameKeys script) where
  refl := fun _ _ _ _ => rfl
  own := fun t op M M' hop hsame => by
    refine ⟨?_, fun x hx => ?_⟩
    · exact congrArg (fun old => op.answer L old) (hsame op hop)
    · cases op with
      | get k out => exact hsame x hx
      | _ => simp only [lastWins, hsame x hx]
  other := fun t u op M M' hne hop hsame x hx => by
    have hkey : (op.key == x.key) = false := h u t hne op hop x hx
    cases op with
    | get k out => exact hsame x hx
    | _ =>
      have hk : ¬ (_ == x.key) = true := Bool.eq_false_iff.mp hkey
      exact (if_neg hk).trans (hsame x hx)

theorem firstWins_independent (h : DisjointKeys script) :
    Independent SetBasedMap.firstWins (fun t op => op ∈ script t) (SameKeys script) where
  refl := fun _ _ _ _ => rfl
  own := fun t op M M' hop hsame => by
    have hkey := hsame op hop
    cases op with
    | put k v =>
      have hkey : M k = M' k := hkey
      by_cases hk : (M' k).isNone = true
      · simp only [SetBasedMap.firstWins, hkey, if_pos hk, true_and]
        exact fun x hx => by simp only [hsame x hx]
      · simp only [SetBasedMap.firstWins, hkey, if_neg hk, true_and]
        exact hsame
    | get k out =>
      have hkey : M k = M' k := hkey
      simp only [SetBasedMap.firstWins, hkey, true_and]
      exact hsame
    | del k =>
      have hkey : M k = M' k := hkey
      simp only [SetBasedMap.firstWins, hkey, true_and]
      exact fun x hx => by simp only [hsame x hx]
  other := fun t u op M M' hne hop hsame x hx => by
    have hkey : ¬ (op.key == x.key) = true := Bool.eq_false_iff.mp (h u t hne op hop x hx)
    cases op with
    | put k v =>
      by_cases hk : (M k).isNone = true
      · simp only [SetBasedMap.firstWins, if_pos hk]
        exact (if_neg hkey).trans (hsame x hx)
      · simp only [SetBasedMap.firstWins, if_neg hk]
        exact hsame x hx
    | get k out => exact hsame x hx
    | del k => exact (if_neg hkey).trans (hsame x hx)

/-! ### The maps -/

variable {H : Hash .cpp K} {NumBuckets : ℕ} {σ loc χ : Type*}
  {I : Implementation τ (SetOp (SetBasedMap.SetBasedMapNode K V)) (SetRes (SetBasedMap.SetBasedMapNode K V)) σ loc χ}

/-- No call stands where it has dereferenced a null pointer or left the bounds of an array. -/
def NeverFaults {Op Res : Type*} [DecidableEq τ] (I : Implementation τ Op Res σ loc χ) (fault : loc → Prop) :
    Prop :=
  ∀ s, I.system.Reachable s → ∀ t l, s.pc t = some l → ¬ fault l

section Maps
variable [EquivBEq K] [DecidableEq τ] (hN : 2 ≤ NumBuckets)
include hN

omit [EquivBEq K] in
/-- No call in one of the buckets stands at a fault if none of a set does. -/
theorem SetBasedMap.neverFaults {P : Outline I setSpec} {fault : loc → Prop} (h : P.Avoids fault) :
    NeverFaults (SetBasedMap.implementation I H NumBuckets) fun l => fault l.2 := by
  intro s hs t l hl hf
  have hi : SetBasedMap.bucketOf H NumBuckets l.1.key ≠ none := by
    simp [SetBasedMap.bucketOf, index_nonneg, index_lt hN]
  exact (h.route (SetBasedMap.routing V H NumBuckets)).never hs hl ⟨hi, hf⟩

variable (h : DisjointKeys script)
include h

theorem LockHashMap.undisturbed : (LockHashMap.implementation τ V H NumBuckets).Undisturbed script ∧
    NeverFaults (LockHashMap.implementation τ V H NumBuckets) fun l => l.pc = .fault :=
  ⟨(LockHashMap.outline τ V H NumBuckets).undisturbed (lastWins_independent .cpp h)
      fun _ => LockHashMap.exists_calls hN,
    fun _ hs _ _ hl hf => LockHashMap.fault_outOfBounds hs hl hf ⟨index_nonneg, index_lt hN⟩⟩

theorem SetBasedMap.undisturbed (P : Outline I setSpec) {Q : σ → Prop}
    (hreturns : ∀ me s A op, P.Inv s A → Q s → ∃ r s', I.Answers me s op r s' ∧ Q s') (hQ : Q I.store) :
    (SetBasedMap.implementation I H NumBuckets).Undisturbed script :=
  (SetBasedMap.outline P H NumBuckets).undisturbed (firstWins_independent h)
    fun t => SetBasedMap.exists_calls P hN (hreturns t) hQ

theorem SetBasedMap.fineGrained_undisturbed : (SetBasedMap.fineGrained τ V H NumBuckets).Undisturbed script ∧
    NeverFaults (SetBasedMap.fineGrained τ V H NumBuckets) fun l => l.2.pc = .fault :=
  ⟨SetBasedMap.undisturbed hN h (FineGrainedSet.outline τ _) (Q := Quiet)
    (fun me _ _ op hinv hq => FineGrainedSet.answers_alone hinv.1 hq me op) initial_quiet,
    SetBasedMap.neverFaults hN (FineGrainedSet.avoids_fault _)⟩

theorem SetBasedMap.lazy_undisturbed : (SetBasedMap.lazy τ V H NumBuckets).Undisturbed script ∧
    NeverFaults (SetBasedMap.lazy τ V H NumBuckets) fun l => l.2.pc = .fault :=
  ⟨SetBasedMap.undisturbed hN h (LazySet.outline τ _) (Q := Quiet)
    (fun me _ _ op hinv hq => LazySet.answers_alone hinv.1 hq me op) initial_quiet,
    SetBasedMap.neverFaults hN (LazySet.avoids_fault _)⟩

theorem SetBasedMap.optimistic_undisturbed : (SetBasedMap.optimistic τ V H NumBuckets).Undisturbed script ∧
    ((∀ k, H.hash k ≠ Lang.cpp.tailKey) →
      NeverFaults (SetBasedMap.optimistic τ V H NumBuckets) fun l => l.2.pc = .fault) :=
  ⟨SetBasedMap.undisturbed hN h (OptimisticSet.outline τ _) (Q := Quiet)
    (fun me _ _ op hinv hq => OptimisticSet.answers_alone hinv.1 hq me op) initial_quiet,
    fun hmax => SetBasedMap.neverFaults hN (OptimisticSet.avoids_fault fun v _ hv => absurd hv (hmax v.key))⟩

end Maps

/-- **Threads that use no key in common do not notice each other** on either map, over any of
the three sets: whatever the interleaving, and even where their keys share buckets and hash
values, every call that returns answers what it answers when its thread runs its script alone
on a new map. -/
theorem disjoint_keys_undisturbed [EquivBEq K] [DecidableEq τ] (H : Hash .cpp K) (hN : 2 ≤ NumBuckets)
    (script : τ → List (MapOp K V)) (h : DisjointKeys script) :
    ((LockHashMap.implementation τ V H NumBuckets).Undisturbed script ∧
      NeverFaults (LockHashMap.implementation τ V H NumBuckets) fun l => l.pc = .fault) ∧
    ((SetBasedMap.fineGrained τ V H NumBuckets).Undisturbed script ∧
      NeverFaults (SetBasedMap.fineGrained τ V H NumBuckets) fun l => l.2.pc = .fault) ∧
    ((SetBasedMap.lazy τ V H NumBuckets).Undisturbed script ∧
      NeverFaults (SetBasedMap.lazy τ V H NumBuckets) fun l => l.2.pc = .fault) ∧
    ((SetBasedMap.optimistic τ V H NumBuckets).Undisturbed script ∧
      ((∀ k, H.hash k ≠ Lang.cpp.tailKey) →
        NeverFaults (SetBasedMap.optimistic τ V H NumBuckets) fun l => l.2.pc = .fault)) :=
  ⟨LockHashMap.undisturbed hN h, SetBasedMap.fineGrained_undisturbed hN h, SetBasedMap.lazy_undisturbed hN h,
    SetBasedMap.optimistic_undisturbed hN h⟩

/-- Two threads whose keys 1 and 17 share bucket and hash value. -/
theorem disjoint_keys_undisturbed_residue :
    (SetBasedMap.lazy Bool ℕ (residueHash .cpp) 16).Undisturbed
      fun t => if t then [.put 1 5, .get 1 none] else [.put 17 6, .del 17, .get 17 (some 0)] :=
  (disjoint_keys_undisturbed (residueHash .cpp) (by decide)
    (fun t : Bool => if t then [.put 1 5, .get 1 none] else [.put 17 6, .del 17, .get 17 (some 0)]) (by
      intro t u hne
      cases t <;> cases u <;> simp [MapOp.key] at hne ⊢)).2.2.1.1

end ParSweet.Maps
