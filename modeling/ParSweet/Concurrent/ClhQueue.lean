import Mathlib.Data.List.Nodup
import Mathlib.Data.Set.Finite.Basic
import Mathlib.Logic.Function.Basic
import ParSweet.Concurrent.FifoLock

/-! The CLH queue.

Every participant owns a node. To queue, it raises its node's flag and swaps the
node for the tail; what it gets is its predecessor's node, and it enters when that
node's flag is down. To leave, it lowers its own node's flag and takes over its
predecessor's node. The queue is nowhere stored: each participant knows only the
node in front of it.

There is always exactly one node that nobody owns. The queue begins at it: whoever
is first waits, or has waited, for that node, everybody else for the node of the one
in front (`Queued`). From this the ideal lock simulates the queue (`simulation`). -/
namespace ParSweet.Concurrent.ClhQueue

variable {ι ν : Type*}

/-- Where a participant stands. -/
inductive Phase (ν : Type*) where
  /-- It has no node yet. -/
  | fresh
  | rest (node : ν)
  /-- The flag is up, the node not in the queue. -/
  | armed (node : ν)
  | waiting (node predecessor : ν)
  | inside (node predecessor : ν)
  /-- The flag is down again, and the predecessor's node not taken over. -/
  | leaving (node predecessor : ν)

namespace Phase

/-- The node a participant owns. One that has lowered its flag owns its
predecessor's. -/
def owned : Phase ν → Option ν
  | .fresh => none
  | .rest n => some n
  | .armed n => some n
  | .waiting n _ => some n
  | .inside n _ => some n
  | .leaving _ p => some p

/-- The node whose flag a participant keeps up. -/
def raised : Phase ν → Option ν
  | .armed n => some n
  | .waiting n _ => some n
  | .inside n _ => some n
  | _ => none

/-- A participant's place in the queue: its node and the one in front. -/
def place : Phase ν → Option (ν × ν)
  | .waiting n p => some (n, p)
  | .inside n p => some (n, p)
  | _ => none

theorem raised_of_place {x : Phase ν} {n p : ν} (h : x.place = some (n, p)) : x.raised = some n := by
  cases x <;> simp_all [place, raised]

theorem owned_of_raised {x : Phase ν} {n : ν} (h : x.raised = some n) : x.owned = some n := by
  cases x <;> simp_all [raised, owned]

end Phase

structure State (ι ν : Type*) where
  tail : ν
  locked : ν → Bool
  phase : ι → Phase ν

/-- A node nobody has anything to do with. -/
def Unused (s : State ι ν) (n : ν) : Prop :=
  n ≠ s.tail ∧ ∀ i, (s.phase i).owned ≠ some n ∧ ∀ k, (s.phase i).place ≠ some (k, n)

inductive Step [DecidableEq ι] [DecidableEq ν] : State ι ν → Option (LockEvent ι) → State ι ν → Prop where
  | create {s i n} : s.phase i = .fresh → Unused s n →
      Step s none ⟨s.tail, Function.update s.locked n false, Function.update s.phase i (.rest n)⟩
  | arm {s i n} : s.phase i = .rest n →
      Step s none ⟨s.tail, Function.update s.locked n true, Function.update s.phase i (.armed n)⟩
  | swap {s i n} : s.phase i = .armed n →
      Step s (some (.enqueue i)) ⟨n, s.locked, Function.update s.phase i (.waiting n s.tail)⟩
  | enter {s i n p} : s.phase i = .waiting n p → s.locked p = false →
      Step s (some (.enter i)) ⟨s.tail, s.locked, Function.update s.phase i (.inside n p)⟩
  | release {s i n p} : s.phase i = .inside n p →
      Step s (some (.leave i))
        ⟨s.tail, Function.update s.locked n false, Function.update s.phase i (.leaving n p)⟩
  | adopt {s i n p} : s.phase i = .leaving n p →
      Step s none ⟨s.tail, s.locked, Function.update s.phase i (.rest p)⟩

/-- The queue is empty and `n₀` is nobody's. -/
def system (ι : Type*) [DecidableEq ι] [DecidableEq ν] (n₀ : ν) : System (State ι ν) (LockEvent ι) where
  initial := ⟨n₀, fun _ => false, fun _ => .fresh⟩
  step := Step

/-! ### Chains of places -/

/-- From the node `m` the participants `q`, in this order, lead to the node `e`. -/
def Chain (place : ι → Option (ν × ν)) : ν → List ι → ν → Prop
  | m, [], e => m = e
  | m, i :: q, e => ∃ n, place i = some (n, m) ∧ Chain place n q e

section Chain
variable {place place' : ι → Option (ν × ν)} {m e n p : ν} {q : List ι} {i : ι}

theorem Chain.congr (h : Chain place m q e) (hp : ∀ i ∈ q, place' i = place i) :
    Chain place' m q e := by
  induction q generalizing m with
  | nil => exact h
  | cons i q ih =>
    obtain ⟨n, hi, hq⟩ := h
    exact ⟨n, (hp i List.mem_cons_self).trans hi, ih hq fun j hj => hp j (List.mem_cons_of_mem i hj)⟩

theorem Chain.concat (h : Chain place m q e) (hi : place i = some (n, e)) :
    Chain place m (q ++ [i]) n := by
  induction q generalizing m with
  | nil =>
    obtain rfl : m = e := h
    exact ⟨n, hi, rfl⟩
  | cons j q ih =>
    obtain ⟨k, hj, hq⟩ := h
    exact ⟨k, hj, ih hq⟩

/-- Whoever is in the queue waits for the node it begins at, as the first, or for
the node of somebody else in it. -/
theorem Chain.predecessor (h : Chain place m q e) (hq : i ∈ q) (hi : place i = some (n, p)) :
    (p = m ∧ q.head? = some i) ∨ ∃ j ∈ q, ∃ k, place j = some (p, k) := by
  induction q generalizing m with
  | nil => cases hq
  | cons j q ih =>
    obtain ⟨k, hj, hrest⟩ := h
    rcases List.mem_cons.mp hq with rfl | hq
    · rw [hi, Option.some.injEq, Prod.mk.injEq] at hj
      exact .inl ⟨hj.2, rfl⟩
    · rcases ih hrest hq with ⟨rfl, _⟩ | ⟨l, hl, k', hk'⟩
      · exact .inr ⟨j, List.mem_cons_self, m, hj⟩
      · exact .inr ⟨l, List.mem_cons_of_mem j hl, k', hk'⟩

end Chain

/-! ### The queue and the ideal lock -/

/-- The queue as the ideal lock has it, beginning at the node `m` that nobody owns. -/
structure Queued (s : State ι ν) (a : FifoLock.State ι) (m : ν) : Prop where
  chain : Chain (fun i => (s.phase i).place) m a.queue s.tail
  nodup : a.queue.Nodup
  waits : ∀ i, i ∈ a.waiting ↔ ∃ n p, s.phase i = .waiting n p
  holds : ∀ i, a.inside = some i ↔ ∃ n p, s.phase i = .inside n p
  free : s.locked m = false
  unowned : ∀ i, (s.phase i).owned ≠ some m
  raised : ∀ i n, (s.phase i).raised = some n → s.locked n = true
  distinct : ∀ i j n, (s.phase i).owned = some n → (s.phase j).owned = some n → i = j

variable {s : State ι ν} {a : FifoLock.State ι} {m n p : ν} {i : ι}

/-- Whoever is inside is the first of the queue, and stands behind the free node. -/
theorem Queued.of_inside (h : Queued s a m) (hi : s.phase i = .inside n p) :
    a.inside = some i ∧ p = m ∧ Chain (fun j => (s.phase j).place) n a.waiting s.tail := by
  have hin : a.inside = some i := (h.holds i).mpr ⟨n, p, hi⟩
  have hc := h.chain
  rw [FifoLock.State.queue, hin] at hc
  obtain ⟨k, hk, hq⟩ := hc
  simp only [hi, Phase.place, Option.some.injEq, Prod.mk.injEq] at hk
  obtain ⟨rfl, rfl⟩ := hk
  exact ⟨hin, rfl, hq⟩

/-- The first of the queue, if it waits, waits for the free node. -/
theorem Queued.first_free (h : Queued s a m) {q : List ι} (hq : a.queue = i :: q)
    (hi : s.phase i = .waiting n p) : s.locked p = false := by
  have hchain := h.chain
  rw [hq] at hchain
  obtain ⟨k, hk, _⟩ := hchain
  simp only [hi, Phase.place, Option.some.injEq, Prod.mk.injEq] at hk
  rw [hk.2]
  exact h.free

/-- Nobody but the first of an unoccupied lock sees its predecessor's flag down. -/
theorem Queued.of_unlocked (h : Queued s a m) (hi : s.phase i = .waiting n p) (hp : s.locked p = false) :
    p = m ∧ a.inside = none ∧ ∃ q, a.waiting = i :: q := by
  have hmem : i ∈ a.waiting := (h.waits i).mpr ⟨n, p, hi⟩
  rcases h.chain.predecessor (List.mem_append_right _ hmem) (n := n) (p := p) (by simp [hi, Phase.place]) with
    ⟨rfl, hhead⟩ | ⟨j, _, k, hj⟩
  · cases hin : a.inside with
    | some j =>
      rw [FifoLock.State.queue, hin] at hhead
      obtain rfl : j = i := Option.some.inj hhead
      obtain ⟨k, l, hk⟩ := (h.holds j).mp hin
      rw [hi] at hk
      cases hk
    | none =>
      rw [FifoLock.State.queue, hin] at hhead
      refine ⟨rfl, rfl, ?_⟩
      cases hq : a.waiting with
      | nil =>
        rw [hq] at hmem
        cases hmem
      | cons j q =>
        rw [hq] at hhead
        exact ⟨q, by rw [Option.some.inj hhead]⟩
  · rw [h.raised j p (Phase.raised_of_place hj)] at hp
    cases hp

/-! ### The steps -/

variable [DecidableEq ι]

/-- A step that leaves its participant the node it owns. -/
theorem owned_update {x : Phase ν} (h : x.owned = (s.phase i).owned) (j : ι) :
    (Function.update s.phase i x j).owned = (s.phase j).owned := by
  by_cases hji : j = i
  · subst hji
    rwa [Function.update_self]
  · rw [Function.update_of_ne hji]

/-- A step that changes the place of nobody. -/
theorem Queued.keep (h : Queued s a m) {x : Phase ν} {locked : ν → Bool}
    (hold : (s.phase i).place = none) (hnew : x.place = none)
    (hown : x.owned = some n) (hn : n ≠ m) (hfresh : ∀ j, j ≠ i → (s.phase j).owned ≠ some n)
    (hlocked : ∀ k, k ≠ n → locked k = s.locked k) (hraised : x.raised = some n → locked n = true) :
    Queued ⟨s.tail, locked, Function.update s.phase i x⟩ a m where
  chain := h.chain.congr fun j hj => by
    by_cases hji : j = i
    · subst hji
      simp [hold, hnew]
    · simp [hji]
  nodup := h.nodup
  waits := fun j => by
    rw [h.waits]
    by_cases hji : j = i
    · subst hji
      simp only [Function.update_self]
      constructor
      · rintro ⟨k, p, hk⟩
        rw [hk] at hold
        cases hold
      · rintro ⟨k, p, rfl⟩
        cases hnew
    · simp [hji]
  holds := fun j => by
    rw [h.holds]
    by_cases hji : j = i
    · subst hji
      simp only [Function.update_self]
      constructor
      · rintro ⟨k, p, hk⟩
        rw [hk] at hold
        cases hold
      · rintro ⟨k, p, rfl⟩
        cases hnew
    · simp [hji]
  free := (hlocked m hn.symm).trans h.free
  unowned := fun j => by
    by_cases hji : j = i
    · subst hji
      simpa [hown] using hn
    · simpa [hji] using h.unowned j
  raised := fun j k hk => by
    by_cases hji : j = i
    · subst hji
      simp only [Function.update_self] at hk
      have hkn : k = n := Option.some.inj ((Phase.owned_of_raised hk).symm.trans hown)
      subst hkn
      exact hraised hk
    · simp only [Function.update_of_ne hji] at hk
      have hkn : k ≠ n := fun he => hfresh j hji (he ▸ Phase.owned_of_raised hk)
      exact (hlocked k hkn).trans (h.raised j k hk)
  distinct := fun j k l hj hk => by
    by_cases hji : j = i <;> by_cases hki : k = i
    · rw [hji, hki]
    · subst hji
      simp only [Function.update_self, Function.update_of_ne hki] at hj hk
      rw [hown, Option.some.injEq] at hj
      exact absurd (hj ▸ hk) (hfresh k hki)
    · subst hki
      simp only [Function.update_self, Function.update_of_ne hji] at hj hk
      rw [hown, Option.some.injEq] at hk
      exact absurd (hk ▸ hj) (hfresh j hji)
    · simp only [Function.update_of_ne hji, Function.update_of_ne hki] at hj hk
      exact h.distinct j k l hj hk

theorem Queued.swap (h : Queued s a m) (hi : s.phase i = .armed n) :
    Queued ⟨n, s.locked, Function.update s.phase i (.waiting n s.tail)⟩
      ⟨a.inside, a.waiting ++ [i]⟩ m := by
  have hout : i ∉ a.queue := by
    intro hmem
    rcases FifoLock.State.mem_queue.mp hmem with hin | hq
    · obtain ⟨k, p, hk⟩ := (h.holds i).mp hin
      rw [hi] at hk
      cases hk
    · obtain ⟨k, p, hk⟩ := (h.waits i).mp hq
      rw [hi] at hk
      cases hk
  have hne : ∀ j ∈ a.queue, j ≠ i := fun j hj he => hout (he ▸ hj)
  have hown : (Phase.waiting n s.tail).owned = (s.phase i).owned := by rw [hi]; rfl
  exact {
    chain := by
      rw [FifoLock.State.queue_concat]
      refine Chain.concat (h.chain.congr fun j hj => ?_) ?_
      · simp [hne j hj]
      · simp [Phase.place]
    nodup := by
      rw [FifoLock.State.queue_concat]
      exact h.nodup.append (List.nodup_singleton i) (List.disjoint_singleton.mpr hout)
    waits := fun j => by
      by_cases hji : j = i
      · subst hji
        simp
      · simp [hji, h.waits]
    holds := fun j => by
      rw [h.holds]
      by_cases hji : j = i
      · subst hji
        simp [hi]
      · simp [hji]
    free := h.free
    unowned := fun j => by
      rw [owned_update hown]
      exact h.unowned j
    raised := fun j k hk => by
      by_cases hji : j = i
      · subst hji
        simp only [Function.update_self] at hk
        exact h.raised j k (by rw [hi]; exact hk)
      · exact h.raised j k (by simpa [hji] using hk)
    distinct := fun j k l hj hk => by
      rw [owned_update hown] at hj hk
      exact h.distinct j k l hj hk }

theorem Queued.enter (h : Queued s a m) (hi : s.phase i = .waiting n p) (hp : s.locked p = false) :
    ∃ q, a = ⟨none, i :: q⟩ ∧
      Queued ⟨s.tail, s.locked, Function.update s.phase i (.inside n p)⟩ ⟨some i, q⟩ m := by
  obtain ⟨rfl, hin, q, hq⟩ := h.of_unlocked hi hp
  obtain ⟨_, _⟩ := a
  obtain rfl := hin
  obtain rfl := hq
  have hiq : i ∉ q := (List.nodup_cons.mp h.nodup).1
  have hown : (Phase.inside n p).owned = (s.phase i).owned := by rw [hi]; rfl
  refine ⟨q, rfl, {
    chain := h.chain.congr fun j _ => ?_
    nodup := h.nodup
    waits := fun j => ?_
    holds := fun j => ?_
    free := h.free
    unowned := fun j => ?_
    raised := fun j k hk => ?_
    distinct := fun j k l hj hk => ?_ }⟩
  · by_cases hji : j = i
    · subst hji
      simp [hi, Phase.place]
    · simp [hji]
  · by_cases hji : j = i
    · subst hji
      simp [hiq]
    · have := h.waits j
      simpa [hji] using this
  · by_cases hji : j = i
    · subst hji
      simp
    · have := h.holds j
      simpa [hji, Ne.symm hji] using this
  · rw [owned_update hown]
    exact h.unowned j
  · by_cases hji : j = i
    · subst hji
      simp only [Function.update_self] at hk
      exact h.raised j k (by rw [hi]; exact hk)
    · exact h.raised j k (by simpa [hji] using hk)
  · rw [owned_update hown] at hj hk
    exact h.distinct j k l hj hk

theorem Queued.release [DecidableEq ν] (h : Queued s a m) (hi : s.phase i = .inside n p) :
    ∃ q, a = ⟨some i, q⟩ ∧
      Queued ⟨s.tail, Function.update s.locked n false, Function.update s.phase i (.leaving n p)⟩
        ⟨none, q⟩ n := by
  obtain ⟨hin, rfl, hchain⟩ := h.of_inside hi
  obtain ⟨_, q⟩ := a
  obtain rfl := hin
  have hwait : ∀ j, j ∈ q → j ≠ i := by
    rintro j hj rfl
    obtain ⟨k, l, hk⟩ := (h.waits j).mp hj
    rw [hi] at hk
    cases hk
  have hown : (s.phase i).owned = some n := by rw [hi]; rfl
  have hother : ∀ j, j ≠ i → (s.phase j).owned ≠ some n := fun j hji hj => hji (h.distinct j i n hj hown)
  have hnp : n ≠ p := fun he => h.unowned i (he ▸ hown)
  refine ⟨q, rfl, {
    chain := hchain.congr fun j hj => ?_
    nodup := (List.nodup_append.mp h.nodup).2.1
    waits := fun j => ?_
    holds := fun j => ?_
    free := by simp
    unowned := fun j => ?_
    raised := fun j k hk => ?_
    distinct := fun j k l hj hk => ?_ }⟩
  · simp [hwait j hj]
  · by_cases hji : j = i
    · subst hji
      simpa using fun hj => (hwait j hj rfl).elim
    · have := h.waits j
      simpa [hji] using this
  · by_cases hji : j = i
    · subst hji
      simp
    · have := h.holds j
      simpa [hji, Ne.symm hji] using this
  · by_cases hji : j = i
    · subst hji
      simpa [Phase.owned] using hnp.symm
    · simpa [hji] using hother j hji
  · by_cases hji : j = i
    · subst hji
      simp [Phase.raised] at hk
    · simp only [Function.update_of_ne hji] at hk
      have hkn : k ≠ n := fun he => hother j hji (he ▸ Phase.owned_of_raised hk)
      simpa [hkn] using h.raised j k hk
  · by_cases hji : j = i <;> by_cases hki : k = i
    · rw [hji, hki]
    · subst hji
      simp only [Function.update_self, Function.update_of_ne hki, Phase.owned, Option.some.injEq] at hj hk
      exact absurd (hj ▸ hk) (h.unowned k)
    · subst hki
      simp only [Function.update_self, Function.update_of_ne hji, Phase.owned, Option.some.injEq] at hj hk
      exact absurd (hk ▸ hj) (h.unowned j)
    · simp only [Function.update_of_ne hji, Function.update_of_ne hki] at hj hk
      exact h.distinct j k l hj hk

omit [DecidableEq ι] in
/-- The node the queue begins at is not an unused one. -/
theorem Queued.ne_unused (h : Queued s a m) (hn : Unused s n) : n ≠ m := by
  rintro rfl
  have hc := h.chain
  cases hq : a.queue with
  | nil =>
    rw [hq] at hc
    exact hn.1 hc
  | cons i q =>
    rw [hq] at hc
    obtain ⟨k, hk, _⟩ := hc
    exact (hn.2 i).2 k hk

/-- The node is owned, or it is the node the queue begins at. -/
def InUse (s : State ι ν) (m n : ν) : Prop := n = m ∨ ∃ i, (s.phase i).owned = some n

omit [DecidableEq ι] in
theorem Queued.not_inUse (h : Queued s a m) (hn : Unused s n) : ¬ InUse s m n := by
  intro huse
  rcases huse with rfl | ⟨i, hi⟩
  · exact h.ne_unused hn rfl
  · exact (hn.2 i).1 hi

/-- A step of `i` that gives up no node but for another that `i` owns then, or that the queue
begins at then. -/
theorem InUse.update {x : Phase ν} {tail m' : ν} {locked : ν → Bool} (h : InUse s m n)
    (hfree : InUse ⟨tail, locked, Function.update s.phase i x⟩ m' m)
    (hown : ∀ k, (s.phase i).owned = some k → InUse ⟨tail, locked, Function.update s.phase i x⟩ m' k) :
    InUse ⟨tail, locked, Function.update s.phase i x⟩ m' n := by
  rcases h with rfl | ⟨j, hj⟩
  · exact hfree
  · by_cases hji : j = i
    · subst hji
      exact hown n hj
    · exact .inr ⟨j, by simpa [hji] using hj⟩

/-- A step that leaves its participant what it owns loses no node. -/
theorem InUse.keep {x : Phase ν} {tail : ν} {locked : ν → Bool} (h : InUse s m n)
    (hown : ∀ k, (s.phase i).owned = some k → x.owned = some k) :
    InUse ⟨tail, locked, Function.update s.phase i x⟩ m n :=
  h.update (.inl rfl) fun k hk => .inr ⟨i, by simpa using hown k hk⟩

/-- **The ideal lock follows every step of the queue, and no node is lost.** -/
theorem Queued.step [DecidableEq ν] {t : State ι ν} {l : Option (LockEvent ι)} (h : Queued s a m) (hstep : Step s l t) :
    ∃ b m', (FifoLock.system ι).Path a l.toList b ∧ Queued t b m' ∧ ∀ n, InUse s m n → InUse t m' n := by
  cases hstep with
  | @create i n hi hn =>
    refine ⟨a, m, .refl, h.keep (by rw [hi]; rfl) rfl rfl (h.ne_unused hn) (fun j _ => (hn.2 j).1)
      (fun k hk => Function.update_of_ne hk _ _) (by simp [Phase.raised]), fun k hk => hk.keep fun k hk => ?_⟩
    rw [hi] at hk
    cases hk
  | @arm i n hi =>
    have hown : (s.phase i).owned = some n := by rw [hi]; rfl
    exact ⟨a, m, .refl, h.keep (by rw [hi]; rfl) rfl rfl (fun he => h.unowned i (he ▸ hown))
      (fun j hj hjn => hj (h.distinct j i n hjn hown)) (fun k hk => Function.update_of_ne hk _ _)
      fun _ => Function.update_self .., fun k hk => hk.keep fun k hk => hown.symm.trans hk⟩
  | @swap i n hi => exact ⟨_, m, System.Path.single .enqueue, h.swap hi, fun k hk => hk.keep fun k hk => by rwa [hi] at hk⟩
  | @enter i n p hi hp =>
    obtain ⟨q, rfl, h'⟩ := h.enter hi hp
    exact ⟨_, m, System.Path.single .enter, h', fun k hk => hk.keep fun k hk => by rwa [hi] at hk⟩
  | @release i n p hi =>
    obtain ⟨_, rfl, _⟩ := h.of_inside hi
    obtain ⟨q, rfl, h'⟩ := h.release hi
    -- the node the queue began at is the releasing participant's now, and its own the next one's
    refine ⟨_, n, System.Path.single .leave, h', fun k hk => hk.update (.inr ⟨i, ?_⟩) fun k hk => .inl ?_⟩
    · simp [Phase.owned]
    · rw [hi] at hk
      exact (Option.some.inj hk).symm
  | @adopt i n p hi =>
    have hown : (s.phase i).owned = some p := by rw [hi]; rfl
    exact ⟨a, m, .refl, h.keep (by rw [hi]; rfl) rfl rfl (fun he => h.unowned i (he ▸ hown))
      (fun j hj hjn => hj (h.distinct j i p hjn hown)) (fun _ _ => rfl) (by simp [Phase.raised]),
      fun k hk => hk.keep fun k hk => hown.symm.trans hk⟩

/-- Over many steps. -/
theorem Queued.path [DecidableEq ν] {n₀ : ν} {t : State ι ν} {es : List (LockEvent ι)} (h : Queued s a m)
    (hpath : (system ι n₀).Path s es t) :
    ∃ b m', (FifoLock.system ι).Path a es b ∧ Queued t b m' ∧ ∀ n, InUse s m n → InUse t m' n := by
  induction hpath with
  | refl => exact ⟨a, m, .refl, h, fun _ hn => hn⟩
  | step _ hstep ih =>
    obtain ⟨b, m', hb, hq, hn⟩ := ih
    obtain ⟨c, m'', hc, hq', hn'⟩ := hq.step hstep
    exact ⟨c, m'', System.Path.trans hb hc, hq', fun n h => hn' n (hn n h)⟩

theorem initial_queued [DecidableEq ν] (n₀ : ν) : Queued (system ι n₀).initial (FifoLock.system ι).initial n₀ where
  chain := rfl
  nodup := List.nodup_nil
  waits := fun i => by simp [system, FifoLock.system]
  holds := fun i => by simp [system, FifoLock.system]
  free := rfl
  unowned := fun i => by simp [system, Phase.owned]
  raised := fun i n hn => by cases hn
  distinct := fun i j n hn => by cases hn

/-- **The ideal lock simulates the CLH queue.** -/
def simulation (ι : Type*) [DecidableEq ι] [DecidableEq ν] (n₀ : ν) :
    System.Simulation (system ι n₀) (FifoLock.system ι) where
  Rel := fun s a => ∃ m, Queued s a m
  initial := ⟨n₀, initial_queued n₀⟩
  step := by
    rintro s a l t ⟨m, h⟩ hstep
    obtain ⟨b, m', hpath, hq, _⟩ := h.step hstep
    exact ⟨b, hpath, m', hq⟩

/-! ### Unused nodes -/

/-- An unused node stays unused until somebody is given it. -/
theorem Unused.step [DecidableEq ν] {t : State ι ν} {l : Option (LockEvent ι)} (hn : Unused s n)
    (hstep : Step s l t) (hgiven : ∀ i, s.phase i = .fresh → t.phase i ≠ .rest n) : Unused t n := by
  -- A participant's phase after the step, and what it has to do with nodes.
  have hphase : ∀ {i x}, x.owned ≠ some n → (∀ k, x.place ≠ some (k, n)) →
      ∀ j, (Function.update s.phase i x j).owned ≠ some n ∧
        ∀ k, (Function.update s.phase i x j).place ≠ some (k, n) := by
    intro i x hown hplace j
    by_cases hji : j = i
    · subst hji
      simp only [Function.update_self]
      exact ⟨hown, hplace⟩
    · simp only [Function.update_of_ne hji]
      exact hn.2 j
  cases hstep with
  | @create i m hi _ =>
    refine ⟨hn.1, hphase (fun hm => ?_) nofun⟩
    obtain rfl : m = n := Option.some.inj hm
    exact hgiven i hi (Function.update_self ..)
  | @arm i m hi =>
    have := hn.2 i
    rw [hi] at this
    exact ⟨hn.1, hphase this.1 this.2⟩
  | @swap i m hi =>
    have := hn.2 i
    rw [hi] at this
    refine ⟨fun he => this.1 (by rw [he]; rfl), hphase this.1 fun k hk => hn.1 ?_⟩
    exact (Prod.mk.inj (Option.some.inj hk)).2.symm
  | @enter i m p hi _ =>
    have := hn.2 i
    rw [hi] at this
    exact ⟨hn.1, hphase this.1 this.2⟩
  | @release i m p hi =>
    have := hn.2 i
    rw [hi] at this
    refine ⟨hn.1, hphase (fun hp => this.2 m ?_) nofun⟩
    rw [Phase.place, Option.some.inj hp]
  | @adopt i m p hi =>
    have := hn.2 i
    rw [hi] at this
    exact ⟨hn.1, hphase this.1 nofun⟩

/-- At most one participant is inside. -/
theorem inside_unique [DecidableEq ν] {n₀ : ν} (h : (system ι n₀).Reachable s) {j : ι} {n p k l : ν}
    (hi : s.phase i = .inside n p) (hj : s.phase j = .inside k l) : i = j := by
  obtain ⟨es, h⟩ := h
  obtain ⟨a, _, m, hq⟩ := (simulation ι n₀).run h
  exact Option.some.inj (((hq.holds i).mpr ⟨n, p, hi⟩).symm.trans ((hq.holds j).mpr ⟨k, l, hj⟩))

/-! ### Nodes neither lost nor shared -/

/-- What is asked of the nodes of a lock of which `size` have been created. `Created` says who has
created one, `owned` which node one owns, `predecessor` which one has got from the tail, and
`queue` who is queued, oldest first. -/
structure NodesKept (size tail : ℕ) (Created : ι → Prop) (owned predecessor : ι → Option ℕ) (queue : List ι) : Prop where
  /-- There is one node more than there are participants that have created one. -/
  count : ∃ F : Finset ι, (∀ i, i ∈ F ↔ Created i) ∧ size = F.card + 1
  owns : ∀ i, Created i ↔ owned i ≠ none
  created : ∀ i n, owned i = some n → n < size
  distinct : ∀ i j n, owned i = some n → owned j = some n → i = j
  /-- A single node is nobody's: the tail, or the one that the oldest in the queue has got. -/
  free : ∃ m, (∀ n, n = m ↔ n < size ∧ ∀ i, owned i ≠ some n) ∧
    match queue with
    | [] => m = tail
    | i :: _ => predecessor i = some m

section Nodes
variable {size tail m : ℕ} {Created : ι → Prop} {owned predecessor : ι → Option ℕ} {queue : List ι}

omit [DecidableEq ι] in
/-- Where every node but one has an owner, there is one more of them than there are owners. -/
theorem exists_owners (hin : ∀ n, n < size ↔ n = m ∨ ∃ i, owned i = some n) (hm : ∀ i, owned i ≠ some m)
    (hdistinct : ∀ i j n, owned i = some n → owned j = some n → i = j) :
    ∃ F : Finset ι, (∀ i, i ∈ F ↔ owned i ≠ none) ∧ size = F.card + 1 := by
  -- the node of an owner
  have hnode : ∀ i, owned i ≠ none → owned i = some ((owned i).getD 0) := fun i hi => by
    obtain ⟨n, hn⟩ := Option.ne_none_iff_exists'.mp hi
    rw [hn, Option.getD_some]
  have hmaps : ∀ i, owned i ≠ none → (owned i).getD 0 ∈ (Finset.range size).erase m := fun i hi => by
    refine Finset.mem_erase.mpr ⟨fun he => hm i (he ▸ hnode i hi), Finset.mem_range.mpr ?_⟩
    exact (hin _).mpr (.inr ⟨i, hnode i hi⟩)
  have hinj : ∀ i, owned i ≠ none → ∀ j, owned j ≠ none → (owned i).getD 0 = (owned j).getD 0 → i = j :=
    fun i hi j hj he => hdistinct i j _ (hnode i hi) (he ▸ hnode j hj)
  have hfinite : {i | owned i ≠ none}.Finite :=
    Set.Finite.of_injOn (fun i hi => Finset.mem_coe.mpr (hmaps i hi)) (fun i hi j hj => hinj i hi j hj)
      (Finset.finite_toSet ((Finset.range size).erase m))
  refine ⟨hfinite.toFinset, fun i => hfinite.mem_toFinset, ?_⟩
  have hcard : hfinite.toFinset.card = ((Finset.range size).erase m).card := by
    refine Finset.card_bij (fun i _ => (owned i).getD 0) (fun i hi => hmaps i (hfinite.mem_toFinset.mp hi))
      (fun i hi j hj => hinj i (hfinite.mem_toFinset.mp hi) j (hfinite.mem_toFinset.mp hj)) fun n hn => ?_
    obtain ⟨hne, hlt⟩ := Finset.mem_erase.mp hn
    obtain ⟨i, hi⟩ := ((hin n).mp (Finset.mem_range.mp hlt)).resolve_left hne
    exact ⟨i, hfinite.mem_toFinset.mpr (by simp [hi]), by rw [hi, Option.getD_some]⟩
  have hlt : m < size := (hin m).mpr (.inl rfl)
  rw [hcard, Finset.card_erase_of_mem (Finset.mem_range.mpr hlt), Finset.card_range]
  omega

omit [DecidableEq ι] in
theorem NodesKept.of_owned (hin : ∀ n, n < size ↔ n = m ∨ ∃ i, owned i = some n) (hm : ∀ i, owned i ≠ some m)
    (hdistinct : ∀ i j n, owned i = some n → owned j = some n → i = j) (howns : ∀ i, Created i ↔ owned i ≠ none)
    (hfront :
      match queue with
      | [] => m = tail
      | i :: _ => predecessor i = some m) :
    NodesKept size tail Created owned predecessor queue where
  count := by
    obtain ⟨F, hF, hcard⟩ := exists_owners hin hm hdistinct
    exact ⟨F, fun i => (hF i).trans (howns i).symm, hcard⟩
  owns := howns
  created := fun i n hi => (hin n).mpr (.inr ⟨i, hi⟩)
  distinct := hdistinct
  free := by
    refine ⟨m, fun n => ⟨?_, fun h => ?_⟩, hfront⟩
    · rintro rfl
      exact ⟨(hin n).mpr (.inl rfl), hm⟩
    · refine ((hin n).mp h.1).resolve_right ?_
      rintro ⟨i, hi⟩
      exact h.2 i hi

end Nodes

omit [DecidableEq ι] in
/-- The node the queue begins at is the tail, or what the first of the queue has got from the tail. -/
theorem Queued.front (h : Queued s a m) :
    match a.queue with
    | [] => m = s.tail
    | i :: _ => ∃ n, (s.phase i).place = some (n, m) := by
  have hchain : Chain (fun i => (s.phase i).place) m a.queue s.tail := h.chain
  cases hq : a.queue with
  | nil =>
    rw [hq] at hchain
    exact hchain
  | cons i q =>
    rw [hq] at hchain
    obtain ⟨n, hn, _⟩ := hchain
    exact ⟨n, hn⟩

end ParSweet.Concurrent.ClhQueue
