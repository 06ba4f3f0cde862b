import Mathlib.Logic.Function.Basic
import ParSweet.Concurrent.FifoLock
import ParSweet.Concurrent.Neighbours

/-! The MCS queue.

Every participant has one node for good. To queue, it swaps its node for the tail.
The first one enters at once; everybody else raises its own flag, links its node
behind its predecessor's and waits for the flag to go down. To leave, a participant
without a successor takes its node off the tail; one with a successor lowers the
successor's flag and unlinks itself.

Between the swap and the link a successor is in the queue without being found there.
`Queued` says what the queue looks like with any number of its links missing; from it
the ideal lock simulates the queue (`simulation`). -/
namespace ParSweet.Concurrent.McsQueue

variable {ι ν : Type*}

/-- Where a participant stands. -/
inductive Phase (ν : Type*) where
  | rest
  /-- It has swapped its node for the tail and not looked at what it got. -/
  | swapped (predecessor : Option ν)
  /-- It is about to raise its flag. -/
  | raising (predecessor : ν)
  /-- It is about to link its node. -/
  | linking (predecessor : ν)
  | spinning
  | inside
  /-- It has found its successor's node and is about to lower the flag there. -/
  | handing (successor : ν)
  /-- It has left the queue and not unlinked its node yet. -/
  | unlinking

/-- It is in the queue and has not entered. -/
def Phase.Waits : Phase ν → Prop
  | .swapped _ => True
  | .raising _ => True
  | .linking _ => True
  | .spinning => True
  | _ => False

/-- It has entered and not given up the lock. -/
def Phase.Holds : Phase ν → Prop
  | .inside => True
  | .handing _ => True
  | _ => False

structure State (ι ν : Type*) where
  tail : Option ν
  locked : ν → Bool
  next : ν → Option ν
  node : ι → Option ν
  phase : ι → Phase ν

inductive Step [DecidableEq ι] [DecidableEq ν] :
    State ι ν → Option (LockEvent ι) → State ι ν → Prop where
  | create {s i n} : s.phase i = .rest → s.node i = none → (∀ j, s.node j ≠ some n) →
      Step s none {s with
        locked := Function.update s.locked n false
        next := Function.update s.next n none
        node := Function.update s.node i (some n) }
  | swap {s i n} : s.phase i = .rest → s.node i = some n →
      Step s (some (.enqueue i)) {s with
        tail := some n
        phase := Function.update s.phase i (.swapped s.tail) }
  | enterFirst {s i} : s.phase i = .swapped none →
      Step s (some (.enter i)) {s with phase := Function.update s.phase i .inside}
  | wait {s i p} : s.phase i = .swapped (some p) →
      Step s none {s with phase := Function.update s.phase i (.raising p)}
  | raise {s i n p} : s.phase i = .raising p → s.node i = some n →
      Step s none {s with
        locked := Function.update s.locked n true
        phase := Function.update s.phase i (.linking p) }
  | link {s i n p} : s.phase i = .linking p → s.node i = some n →
      Step s none {s with
        next := Function.update s.next p (some n)
        phase := Function.update s.phase i .spinning }
  | enter {s i n} : s.phase i = .spinning → s.node i = some n → s.locked n = false →
      Step s (some (.enter i)) {s with phase := Function.update s.phase i .inside}
  | close {s i n} : s.phase i = .inside → s.node i = some n → s.tail = some n →
      Step s (some (.leave i)) {s with
        tail := none
        phase := Function.update s.phase i .rest }
  | look {s i n k} : s.phase i = .inside → s.node i = some n → s.next n = some k →
      Step s none {s with phase := Function.update s.phase i (.handing k)}
  | handOver {s i k} : s.phase i = .handing k →
      Step s (some (.leave i)) {s with
        locked := Function.update s.locked k false
        phase := Function.update s.phase i .unlinking }
  | unlink {s i n} : s.phase i = .unlinking → s.node i = some n →
      Step s none {s with
        next := Function.update s.next n none
        phase := Function.update s.phase i .rest }

/-- Nobody has a node, and the queue is empty. -/
def system (ι ν : Type*) [DecidableEq ι] [DecidableEq ν] : System (State ι ν) (LockEvent ι) where
  initial := ⟨none, fun _ => false, fun _ => none, fun _ => none, fun _ => .rest⟩
  step := Step

/-! ### The queue and the ideal lock -/

/-- How the first of the queue stands, with its node `n`. -/
def First (s : State ι ν) (i : ι) (n : ν) : Prop :=
  s.phase i = .swapped none ∨ (s.phase i = .spinning ∧ s.locked n = false) ∨
    s.phase i = .inside ∨ ∃ k, s.phase i = .handing k ∧ s.next n = some k

/-- How somebody with node `n` stands behind the node `p`: not linked yet, or linked
and waiting. -/
def Joined (s : State ι ν) (p : ν) (i : ι) (n : ν) : Prop :=
  (s.next p = none ∧ (s.phase i = .swapped (some p) ∨ s.phase i = .raising p ∨
      (s.phase i = .linking p ∧ s.locked n = true))) ∨
    (s.next p = some n ∧ s.phase i = .spinning ∧ s.locked n = true)

/-- The queue as the ideal lock has it. -/
structure Queued (s : State ι ν) (a : FifoLock.State ι) : Prop where
  nodup : a.queue.Nodup
  waits : ∀ i, i ∈ a.waiting ↔ (s.phase i).Waits
  holds : ∀ i, a.inside = some i ↔ (s.phase i).Holds
  own : ∀ i j n, s.node i = some n → s.node j = some n → i = j
  has_node : ∀ i, s.node i = none → s.phase i = .rest
  first : ∀ i n, a.queue.head? = some i → s.node i = some n → First s i n
  behind : ∀ j i p n, Behind a.queue j i → s.node j = some p → s.node i = some n → Joined s p i n
  tail : s.tail = a.queue.getLast?.bind s.node
  last : ∀ i n, a.queue.getLast? = some i → s.node i = some n → s.next n = none
  out : ∀ i n, i ∉ a.queue → s.node i = some n → s.phase i ≠ .unlinking → s.next n = none

variable {s s' : State ι ν} {a a' : FifoLock.State ι} {i j : ι} {n p k : ν}

theorem Queued.mem_iff (h : Queued s a) : i ∈ a.queue ↔ (s.phase i).Waits ∨ (s.phase i).Holds := by
  rw [FifoLock.State.mem_queue, h.waits, h.holds, or_comm]

/-- Whoever is in the queue has a node. -/
theorem Queued.exists_node (h : Queued s a) (hi : i ∈ a.queue) : ∃ n, s.node i = some n := by
  refine Option.ne_none_iff_exists'.mp fun hn => ?_
  rw [h.mem_iff, h.has_node i hn] at hi
  exact hi.elim id id

/-- Whoever is inside is the first. -/
theorem Queued.of_holds (h : Queued s a) (hi : (s.phase i).Holds) :
    a.inside = some i ∧ a.queue.head? = some i := by
  have hin := (h.holds i).mpr hi
  exact ⟨hin, by rw [FifoLock.State.queue, hin]; rfl⟩

/-- Whoever could not have been linked to anybody stands behind nobody. -/
theorem Queued.not_behind (h : Queued s a) (hn : s.node i = some n) (hfree : ∀ p, ¬ Joined s p i n) (j : ι) :
    ¬ Behind a.queue j i := fun hj =>
  let ⟨p, hp⟩ := h.exists_node hj.left_mem
  hfree p (h.behind j i p n hj hp hn)

/-- Whoever waits and stands behind nobody is the first, and nobody is inside. -/
theorem Queued.of_waits (h : Queued s a) (hi : (s.phase i).Waits) (hfirst : ∀ j, ¬ Behind a.queue j i) :
    ∃ q, a = ⟨none, i :: q⟩ := by
  have hmem : i ∈ a.waiting := (h.waits i).mpr hi
  have hhead := (first_or_behind (FifoLock.State.mem_queue.mpr (.inr hmem))).resolve_right fun ⟨j, hj⟩ => hfirst j hj
  obtain ⟨o, q⟩ := a
  cases o with
  | some j =>
    obtain rfl : j = i := Option.some.inj hhead
    have hholds := (h.holds j).mp rfl
    cases hp : s.phase j <;> rw [hp] at hi hholds <;> first | exact hi.elim | exact hholds.elim
  | none =>
    cases q with
    | nil => cases hmem
    | cons j q =>
      obtain rfl : j = i := Option.some.inj hhead
      exact ⟨q, rfl⟩

theorem First.congr (h : First s i n) (hp : s'.phase i = s.phase i) (hl : s'.locked n = s.locked n)
    (hn : s'.next n = s.next n) : First s' i n := by
  unfold First at h ⊢
  rwa [hp, hl, hn]

theorem Joined.congr (h : Joined s p i n) (hp : s'.phase i = s.phase i) (hl : s'.locked n = s.locked n)
    (hn : s'.next p = s.next p) : Joined s' p i n := by
  unfold Joined at h ⊢
  rwa [hp, hl, hn]

/-! ### The steps -/

section Steps
variable [DecidableEq ι]

theorem update_iff {P : Phase ν → Prop} {R : ι → Prop} {x : Phase ν} (h : ∀ j, R j ↔ P (s.phase j))
    (hx : P x ↔ P (s.phase i)) (j : ι) : R j ↔ P (Function.update s.phase i x j) := by
  by_cases hji : j = i
  · subst hji
    rw [Function.update_self, hx, h]
  · rw [Function.update_of_ne hji, h]

/-- A step of somebody in the queue that stays there. It touches its own flag and, if
anything, links itself to its predecessor. -/
theorem Queued.move (h : Queued s a) {x : Phase ν} {locked : ν → Bool} {next : ν → Option ν}
    (hn : s.node i = some n) (hq : a'.queue = a.queue)
    (hwaits : ∀ j, j ∈ a'.waiting ↔ (Function.update s.phase i x j).Waits)
    (hholds : ∀ j, a'.inside = some j ↔ (Function.update s.phase i x j).Holds)
    (hlocked : ∀ m, m ≠ n → locked m = s.locked m)
    (hnext : ∀ m, next m = s.next m ∨ ∃ j, Behind a.queue j i ∧ s.node j = some m ∧ s.next m = none)
    (hmoved : x ≠ .unlinking → s.phase i ≠ .unlinking)
    (hfirst : a.queue.head? = some i →
      First {s with locked := locked, next := next, phase := Function.update s.phase i x} i n)
    (hbehind : ∀ j p, Behind a.queue j i → s.node j = some p →
      Joined {s with locked := locked, next := next, phase := Function.update s.phase i x} p i n) :
    Queued {s with locked := locked, next := next, phase := Function.update s.phase i x} a' where
  nodup := hq ▸ h.nodup
  waits := hwaits
  holds := hholds
  own := h.own
  has_node := fun j hj => by
    have hji : j ≠ i := by
      rintro rfl
      rw [hn] at hj
      cases hj
    simpa [hji] using h.has_node j hj
  first := fun j m hj hm => by
    rw [hq] at hj
    by_cases hji : j = i
    · subst hji
      rw [hn, Option.some.injEq] at hm
      exact hm ▸ hfirst hj
    · have hmn : m ≠ n := fun he => hji (h.own j i n (he ▸ hm) hn)
      have hphase : Function.update s.phase i x j = s.phase j := Function.update_of_ne hji _ _
      rcases hnext m with hsame | ⟨l, hl, hlm, hnone⟩
      · exact (h.first j m hj hm).congr hphase (hlocked m hmn) hsame
      · unfold First
        simp only [hphase, hlocked m hmn]
        rcases h.first j m hj hm with hf | hf | hf | ⟨k, _, hk⟩
        · exact .inl hf
        · exact .inr (.inl hf)
        · exact .inr (.inr (.inl hf))
        · rw [hnone] at hk
          cases hk
  behind := fun j l p m hjl hp hm => by
    rw [hq] at hjl
    by_cases hli : l = i
    · subst hli
      rw [hn, Option.some.injEq] at hm
      exact hm ▸ hbehind j p hjl hp
    · have hmn : m ≠ n := fun he => hli (h.own l i n (he ▸ hm) hn)
      refine (h.behind j l p m hjl hp hm).congr (Function.update_of_ne hli _ _) (hlocked m hmn) ?_
      rcases hnext p with hsame | ⟨j', hj', hp', _⟩
      · exact hsame
      · obtain rfl := h.own j j' p hp hp'
        exact absurd (hjl.right_unique h.nodup hj') hli
  tail := by rw [hq]; exact h.tail
  last := fun j m hj hm => by
    rw [hq] at hj
    rcases hnext m with hsame | ⟨l, hl, hlm, _⟩
    · exact hsame.trans (h.last j m hj hm)
    · obtain rfl := h.own j l m hm hlm
      exact absurd hj (hl.not_last h.nodup)
  out := fun j m hj hm hu => by
    rw [hq] at hj
    have hu' : s.phase j ≠ .unlinking := by
      by_cases hji : j = i
      · subst hji
        exact hmoved (by simpa using hu)
      · simpa [hji] using hu
    rcases hnext m with hsame | ⟨l, hl, hlm, _⟩
    · exact hsame.trans (h.out j m hj hm hu')
    · obtain rfl := h.own j l m hm hlm
      exact absurd hl.left_mem hj

/-- Entering, at the front of the queue. -/
theorem Queued.enter (h : Queued s a) (hn : s.node i = some n) (hi : (s.phase i).Waits)
    (hfirst : ∀ j, ¬ Behind a.queue j i) :
    ∃ q, a = ⟨none, i :: q⟩ ∧
      Queued {s with phase := Function.update s.phase i .inside} ⟨some i, q⟩ := by
  obtain ⟨q, rfl⟩ := h.of_waits hi hfirst
  have hiq : i ∉ q := (List.nodup_cons.mp h.nodup).1
  refine ⟨q, rfl, h.move hn rfl (fun j => ?_) (fun j => ?_) (fun _ _ => rfl) (fun _ => .inl rfl)
    (fun _ hu => by rw [hu] at hi; exact hi) (fun _ => .inr (.inr (.inl (Function.update_self ..))))
    fun j p hj _ => absurd hj (hfirst j)⟩
  · by_cases hji : j = i
    · subst hji
      simpa [Phase.Waits] using hiq
    · have := h.waits j
      simpa [hji] using this
  · by_cases hji : j = i
    · subst hji
      simp [Phase.Holds]
    · have := h.holds j
      simpa [hji, Ne.symm hji] using this

theorem Queued.swap (h : Queued s a) (hi : s.phase i = .rest) (hn : s.node i = some n) :
    Queued {s with tail := some n, phase := Function.update s.phase i (.swapped s.tail)}
      ⟨a.inside, a.waiting ++ [i]⟩ := by
  have hout : i ∉ a.queue := fun hmem => by
    rw [h.mem_iff, hi] at hmem
    exact hmem.elim id id
  have hq : FifoLock.State.queue ⟨a.inside, a.waiting ++ [i]⟩ = a.queue ++ [i] := FifoLock.State.queue_concat i
  have hphase : ∀ j ∈ a.queue, Function.update s.phase i (.swapped s.tail) j = s.phase j :=
    fun j hj => Function.update_of_ne (fun he : j = i => hout (he ▸ hj)) _ _
  exact {
    nodup := by
      rw [hq]
      exact h.nodup.append (List.nodup_singleton i) (List.disjoint_singleton.mpr hout)
    waits := fun j => by
      by_cases hji : j = i
      · subst hji
        simp [Phase.Waits]
      · simp [hji, h.waits]
    holds := update_iff h.holds (by rw [hi]; exact Iff.rfl)
    own := h.own
    has_node := fun j hj => by
      have hji : j ≠ i := by
        rintro rfl
        rw [hn] at hj
        cases hj
      simpa [hji] using h.has_node j hj
    first := fun j m hj hm => by
      rw [hq] at hj
      cases hqa : a.queue with
      | nil =>
        rw [hqa] at hj
        obtain rfl : i = j := Option.some.inj hj
        refine .inl ?_
        simp [h.tail, hqa]
      | cons l q =>
        rw [hqa] at hj
        obtain rfl : l = j := Option.some.inj hj
        have hl : l ∈ a.queue := by rw [hqa]; exact List.mem_cons_self
        exact (h.first l m (by rw [hqa]; rfl) hm).congr (hphase l hl) rfl rfl
    behind := fun j l p m hjl hp hm => by
      rw [hq, behind_concat] at hjl
      rcases hjl with hjl | ⟨hj, rfl⟩
      · exact (h.behind j l p m hjl hp hm).congr (hphase l (List.mem_of_mem_tail hjl.right_mem)) rfl rfl
      · refine .inl ⟨h.last j p hj hp, .inl ?_⟩
        simp only [Function.update_self, h.tail, hj]
        exact congrArg Phase.swapped hp
    tail := by simp [hq, hn]
    last := fun j m hj hm => by
      rw [hq, List.getLast?_concat, Option.some.injEq] at hj
      subst hj
      exact h.out i m hout hm (by rw [hi]; nofun)
    out := fun j m hj hm hu => by
      rw [hq] at hj
      have hji : j ≠ i := fun he => hj (by simp [he])
      exact h.out j m (fun hmem => hj (List.mem_append_left _ hmem)) hm (by simpa [hji] using hu) }

/-- Somebody links its node to its predecessor's. -/
theorem Queued.link [DecidableEq ν] (h : Queued s a) (hi : s.phase i = .linking p) (hn : s.node i = some n) :
    Queued {s with
      next := Function.update s.next p (some n)
      phase := Function.update s.phase i .spinning } a := by
  have hmem : i ∈ a.queue := h.mem_iff.mpr (.inl (by rw [hi]; trivial))
  have hjoin : ∀ j p', Behind a.queue j i → s.node j = some p' →
      s.next p' = none ∧ p' = p ∧ s.locked n = true := by
    intro j p' hj hp'
    have := h.behind j i p' n hj hp' hn
    simp only [Joined, hi] at this
    rcases this with ⟨hnone, h₁ | h₁ | ⟨h₁, hl⟩⟩ | ⟨_, h₁, _⟩
    · cases h₁
    · cases h₁
    · cases h₁
      exact ⟨hnone, rfl, hl⟩
    · cases h₁
  have hnot : a.queue.head? ≠ some i := fun hf => by
    have := h.first i n hf hn
    simp [First, hi] at this
  refine h.move hn rfl (update_iff h.waits (by rw [hi]; exact Iff.rfl))
    (update_iff h.holds (by rw [hi]; exact Iff.rfl)) (fun _ _ => rfl) (fun m => ?_)
    (fun _ => by rw [hi]; nofun) (fun hf => absurd hf hnot) fun j p' hj hp' => ?_
  · by_cases hm : m = p
    · subst hm
      obtain ⟨j, hj⟩ := (first_or_behind hmem).resolve_left hnot
      obtain ⟨p', hp'⟩ := h.exists_node hj.left_mem
      obtain ⟨hnone, rfl, _⟩ := hjoin j p' hj hp'
      exact .inr ⟨j, hj, hp', hnone⟩
    · exact .inl (Function.update_of_ne hm _ _)
  · obtain ⟨_, rfl, hl⟩ := hjoin j p' hj hp'
    exact .inr ⟨Function.update_self .., Function.update_self .., hl⟩

/-- Leaving an otherwise empty queue. -/
theorem Queued.close (h : Queued s a) (hi : s.phase i = .inside) (hn : s.node i = some n)
    (htail : s.tail = some n) :
    a = ⟨some i, []⟩ ∧
      Queued {s with tail := none, phase := Function.update s.phase i .rest} ⟨none, []⟩ := by
  obtain ⟨hin, hhead⟩ := h.of_holds (i := i) (by rw [hi]; trivial)
  have hlast : a.queue.getLast? = some i := by
    have ht := h.tail
    rw [htail] at ht
    obtain ⟨l, hl, hln⟩ := Option.bind_eq_some_iff.mp ht.symm
    rw [hl, h.own l i n hln hn]
  have hq := eq_singleton h.nodup hhead hlast
  obtain ⟨o, q⟩ := a
  obtain rfl : o = some i := hin
  obtain rfl : q = [] := (List.cons.inj hq).2
  have hrest : ∀ j, j ≠ i → ¬ (s.phase j).Waits ∧ ¬ (s.phase j).Holds := fun j hj =>
    ⟨fun hw => List.not_mem_nil ((h.waits j).mpr hw), fun hh => hj (Option.some.inj ((h.holds j).mpr hh)).symm⟩
  refine ⟨rfl, {
    nodup := List.nodup_nil
    waits := fun j => ?_
    holds := fun j => ?_
    own := h.own
    has_node := fun j hj => ?_
    first := nofun
    behind := nofun
    tail := rfl
    last := nofun
    out := fun j m _ hm hu => ?_ }⟩
  · by_cases hji : j = i
    · subst hji
      simp [Phase.Waits]
    · simpa [hji] using (hrest j hji).1
  · by_cases hji : j = i
    · subst hji
      simp [Phase.Holds]
    · simpa [hji] using (hrest j hji).2
  · by_cases hji : j = i
    · subst hji
      simp
    · simpa [hji] using h.has_node j hj
  · by_cases hji : j = i
    · subst hji
      exact h.last j m hlast hm
    · have hj : j ∉ FifoLock.State.queue ⟨some i, []⟩ := fun hmem => by
        rcases h.mem_iff.mp hmem with hw | hh
        · exact (hrest j hji).1 hw
        · exact (hrest j hji).2 hh
      exact h.out j m hj hm (by simpa [hji] using hu)

/-- Leaving the lock to the next in the queue. -/
theorem Queued.handOver [DecidableEq ν] (h : Queued s a) (hi : s.phase i = .handing k) :
    ∃ q, a = ⟨some i, q⟩ ∧
      Queued {s with
        locked := Function.update s.locked k false
        phase := Function.update s.phase i .unlinking } ⟨none, q⟩ := by
  obtain ⟨hin, hhead⟩ := h.of_holds (i := i) (by rw [hi]; trivial)
  obtain ⟨n, hn⟩ := h.exists_node (List.mem_of_mem_head? hhead)
  have hnk : s.next n = some k := by
    rcases h.first i n hhead hn with hf | ⟨hf, _⟩ | hf | ⟨k', hf, hk⟩
    · rw [hi] at hf
      cases hf
    · rw [hi] at hf
      cases hf
    · rw [hi] at hf
      cases hf
    · rw [hi] at hf
      cases hf
      exact hk
  obtain ⟨o, q⟩ := a
  obtain rfl : o = some i := hin
  -- The successor has linked itself, so it is there, spinning.
  cases q with
  | nil =>
    have := h.last i n rfl hn
    rw [hnk] at this
    cases this
  | cons l q =>
    have hil : Behind (FifoLock.State.queue ⟨some i, l :: q⟩) i l := behind_cons.mpr (.inl ⟨rfl, rfl⟩)
    obtain ⟨m, hm⟩ := h.exists_node (i := l) (List.mem_of_mem_tail hil.right_mem)
    obtain ⟨rfl, hspin⟩ : k = m ∧ s.phase l = .spinning := by
      rcases h.behind i l n m hil hn hm with ⟨hnone, _⟩ | ⟨hlink, hp, _⟩
      · rw [hnk] at hnone
        cases hnone
      · exact ⟨Option.some.inj (hnk.symm.trans hlink), hp⟩
    have hnodup : (i :: l :: q).Nodup := h.nodup
    have hil' : l ≠ i := fun he => (List.nodup_cons.mp hnodup).1 (he ▸ List.mem_cons_self)
    refine ⟨l :: q, rfl, {
      nodup := (List.nodup_cons.mp hnodup).2
      waits := update_iff h.waits (by rw [hi]; exact Iff.rfl)
      holds := fun j => ?_
      own := h.own
      has_node := fun j hj => ?_
      first := fun j m' hj hm' => ?_
      behind := fun j x p m' hjx hp hm' => ?_
      tail := h.tail
      last := fun j m' hj hm' => h.last j m' hj hm'
      out := fun j m' hj hm' hu => ?_ }⟩
    · by_cases hji : j = i
      · subst hji
        simp [Phase.Holds]
      · have := h.holds j
        simpa [hji, Ne.symm hji] using this
    · have hji : j ≠ i := by
        rintro rfl
        exact Option.some_ne_none n (hn.symm.trans hj)
      simpa [hji] using h.has_node j hj
    · obtain rfl : l = j := Option.some.inj hj
      obtain rfl : k = m' := Option.some.inj (hm.symm.trans hm')
      exact .inr (.inl ⟨by simpa [hil'] using hspin, Function.update_self ..⟩)
    · have hx : x ∈ q := hjx.right_mem
      have hxl : x ≠ l := fun he => (List.nodup_cons.mp (List.nodup_cons.mp hnodup).2).1 (he ▸ hx)
      have hxi : x ≠ i := fun he => (List.nodup_cons.mp hnodup).1 (he ▸ List.mem_cons_of_mem l hx)
      have hmk : m' ≠ k := fun he => hxl (h.own x l k (he ▸ hm') hm)
      exact (h.behind j x p m' (behind_cons.mpr (.inr hjx)) hp hm').congr (Function.update_of_ne hxi _ _)
        (Function.update_of_ne hmk _ _) rfl
    · have hji : j ≠ i := by
        rintro rfl
        exact hu (Function.update_self ..)
      refine h.out j m' (fun hmem => hj ?_) hm' (by simpa [hji] using hu)
      exact (List.mem_cons.mp hmem).resolve_left hji

/-- A step of somebody outside the queue that touches nothing but its own node. -/
theorem Queued.outside (h : Queued s a) {locked : ν → Bool} {next : ν → Option ν}
    (hi : ¬ (s.phase i).Waits ∧ ¬ (s.phase i).Holds) (hn : ∀ j, j ≠ i → s.node j ≠ some n)
    (hlocked : ∀ m, m ≠ n → locked m = s.locked m) (hnext : ∀ m, m ≠ n → next m = s.next m)
    (hnone : next n = none) :
    Queued {s with
      locked := locked
      next := next
      node := Function.update s.node i (some n)
      phase := Function.update s.phase i .rest } a := by
  have hout : i ∉ a.queue := fun hmem => (h.mem_iff.mp hmem).elim hi.1 hi.2
  have hne : ∀ j ∈ a.queue, j ≠ i := fun j hj he => hout (he ▸ hj)
  have hold : ∀ {j m}, j ≠ i → Function.update s.node i (some n) j = some m → s.node j = some m ∧ m ≠ n := by
    intro j m hji hm
    rw [Function.update_of_ne hji] at hm
    exact ⟨hm, fun he => hn j hji (he ▸ hm)⟩
  exact {
    nodup := h.nodup
    waits := update_iff h.waits (iff_of_false id hi.1)
    holds := update_iff h.holds (iff_of_false id hi.2)
    own := fun j l m hj hl => by
      by_cases hji : j = i <;> by_cases hli : l = i
      · rw [hji, hli]
      · subst hji
        simp only [Function.update_self, Option.some.injEq] at hj
        exact absurd hj.symm (hold hli hl).2
      · subst hli
        simp only [Function.update_self, Option.some.injEq] at hl
        exact absurd hl.symm (hold hji hj).2
      · exact h.own j l m (hold hji hj).1 (hold hli hl).1
    has_node := fun j hj => by
      by_cases hji : j = i
      · subst hji
        simp
      · simp only [Function.update_of_ne hji] at hj ⊢
        exact h.has_node j hj
    first := fun j m hj hm => by
      have hji := hne j (List.mem_of_mem_head? hj)
      obtain ⟨hm', hmn⟩ := hold hji hm
      exact (h.first j m hj hm').congr (Function.update_of_ne hji _ _) (hlocked m hmn) (hnext m hmn)
    behind := fun j l p m hjl hp hm => by
      have hji := hne j hjl.left_mem
      have hli := hne l (List.mem_of_mem_tail hjl.right_mem)
      obtain ⟨hp', hpn⟩ := hold hji hp
      obtain ⟨hm', hmn⟩ := hold hli hm
      exact (h.behind j l p m hjl hp' hm').congr (Function.update_of_ne hli _ _) (hlocked m hmn)
        (hnext p hpn)
    tail := by
      rw [h.tail]
      cases hq : a.queue.getLast? with
      | none => rfl
      | some j => simp [hne j (List.mem_of_mem_getLast? hq)]
    last := fun j m hj hm => by
      obtain ⟨hm', hmn⟩ := hold (hne j (List.mem_of_mem_getLast? hj)) hm
      exact (hnext m hmn).trans (h.last j m hj hm')
    out := fun j m hj hm hu => by
      by_cases hji : j = i
      · subst hji
        obtain rfl : n = m := by simpa using hm
        exact hnone
      · obtain ⟨hm', hmn⟩ := hold hji hm
        exact (hnext m hmn).trans (h.out j m hj hm' (by simpa [hji] using hu)) }

end Steps

/-- **The ideal lock simulates the MCS queue.** -/
def simulation (ι ν : Type*) [DecidableEq ι] [DecidableEq ν] :
    System.Simulation (system ι ν) (FifoLock.system ι) where
  Rel := Queued
  initial := {
    nodup := List.nodup_nil
    waits := fun i => by simp [system, FifoLock.system, Phase.Waits]
    holds := fun i => by simp [system, FifoLock.system, Phase.Holds]
    own := nofun
    has_node := fun _ _ => rfl
    first := nofun
    behind := nofun
    tail := rfl
    last := nofun
    out := nofun }
  step := by
    intro s a l t h hstep
    cases hstep with
    | @create i n hi hnone hn =>
      have hp : Function.update s.phase i .rest = s.phase := by rw [← hi, Function.update_eq_self]
      refine ⟨a, .refl, ?_⟩
      have := h.outside (i := i) (n := n) (by rw [hi]; exact ⟨id, id⟩) (fun j _ => hn j)
        (fun m hm => Function.update_of_ne hm false s.locked)
        (fun m hm => Function.update_of_ne hm none s.next) (Function.update_self ..)
      rwa [hp] at this
    | swap hi hn => exact ⟨_, System.Path.single .enqueue, h.swap hi hn⟩
    | @enterFirst i hi =>
      have hw : (s.phase i).Waits := by rw [hi]; trivial
      obtain ⟨n, hn⟩ := h.exists_node (h.mem_iff.mpr (.inl hw))
      obtain ⟨q, rfl, h'⟩ := h.enter hn hw (h.not_behind hn fun p => by simp [Joined, hi])
      exact ⟨_, System.Path.single .enter, h'⟩
    | @enter i n hi hn hl =>
      have hw : (s.phase i).Waits := by rw [hi]; trivial
      obtain ⟨q, rfl, h'⟩ := h.enter hn hw (h.not_behind hn fun p => by simp [Joined, hi, hl])
      exact ⟨_, System.Path.single .enter, h'⟩
    | @wait i p hi =>
      obtain ⟨n, hn⟩ := h.exists_node (h.mem_iff.mpr (.inl (by rw [hi]; trivial)))
      refine ⟨a, .refl, h.move hn rfl (update_iff h.waits (by rw [hi]; exact Iff.rfl))
        (update_iff h.holds (by rw [hi]; exact Iff.rfl)) (fun _ _ => rfl) (fun _ => .inl rfl)
        (fun _ => by rw [hi]; nofun) (fun hf => ?_) fun j p' hj hp' => ?_⟩
      · have := h.first i n hf hn
        simp [First, hi] at this
      · have := h.behind j i p' n hj hp' hn
        simpa [Joined, hi] using this
    | @raise i n p hi hn =>
      refine ⟨a, .refl, h.move hn rfl (update_iff h.waits (by rw [hi]; exact Iff.rfl))
        (update_iff h.holds (by rw [hi]; exact Iff.rfl)) (fun m hm => Function.update_of_ne hm _ _)
        (fun _ => .inl rfl) (fun _ => by rw [hi]; nofun) (fun hf => ?_) fun j p' hj hp' => ?_⟩
      · have := h.first i n hf hn
        simp [First, hi] at this
      · have := h.behind j i p' n hj hp' hn
        simpa [Joined, hi] using this
    | link hi hn => exact ⟨a, .refl, h.link hi hn⟩
    | close hi hn ht =>
      obtain ⟨rfl, h'⟩ := h.close hi hn ht
      exact ⟨_, System.Path.single .leave, h'⟩
    | @look i n k hi hn hk =>
      obtain ⟨_, hhead⟩ := h.of_holds (i := i) (by rw [hi]; trivial)
      exact ⟨a, .refl, h.move hn rfl (update_iff h.waits (by rw [hi]; exact Iff.rfl))
        (update_iff h.holds (by rw [hi]; exact Iff.rfl)) (fun _ _ => rfl) (fun _ => .inl rfl)
        (fun _ => by rw [hi]; nofun) (fun _ => .inr (.inr (.inr ⟨k, Function.update_self .., hk⟩)))
        fun j p hj _ => absurd hhead (hj.not_first h.nodup)⟩
    | handOver hi =>
      obtain ⟨q, rfl, h'⟩ := h.handOver hi
      exact ⟨_, System.Path.single .leave, h'⟩
    | @unlink i n hi hn =>
      have hnode : Function.update s.node i (some n) = s.node := by rw [← hn, Function.update_eq_self]
      refine ⟨a, .refl, ?_⟩
      have := h.outside (i := i) (n := n) (by rw [hi]; exact ⟨id, id⟩)
        (fun j hj hjn => hj (h.own j i n hjn hn)) (fun _ _ => rfl)
        (fun m hm => Function.update_of_ne hm none s.next) (Function.update_self ..)
      rwa [hnode] at this

end ParSweet.Concurrent.McsQueue
