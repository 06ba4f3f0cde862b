import ParSweet.Maps.Bucket

/-! `LockHashMap` of both suites: a mutex and an unsorted chain of nodes for every bucket.
A call holds the mutex of its key's bucket from its first step to its last, and walks the
chain node by node. -/
namespace ParSweet.Maps.LockHashMap
open Concurrent

/-- Where a call stands. -/
inductive Pc (V : Type*) where
  /-- `getNodeHead(index, headLock)`, or `getNodeHead(index)` and `nodeHead.lock.lock()`. -/
  | lock
  /-- `h = nodeHead->head` -/
  | readHead
  /-- `nodeHead->head = node`, in `put`. -/
  | storeHead (value : V)
  /-- `current->key == key` -/
  | visit (prev : Option NodeId) (current : NodeId)
  /-- `current->next` -/
  | advance (current : NodeId)
  /-- `current->next = node`, in `put`. -/
  | storeNext (current : NodeId) (value : V)
  /-- `old = current.value`, in `put` in Java. -/
  | readOld (current : NodeId) (value : V)
  /-- `current->value = value`, in `put`. -/
  | storeValue (current : NodeId) (value : V) (old : Option V)
  /-- `current->value`, in `get`. -/
  | readValue (current : NodeId)
  /-- `prev->next = current->next`, or `nodeHead->head = current->next`. -/
  | unlink (prev : Option NodeId) (current : NodeId)
  /-- `return current.value`, in `remove` in Java. -/
  | readRemoved (current : NodeId)
  | unlock (r : MapRes V)
  | returned (r : MapRes V)
  /-- A null pointer has been dereferenced or an index was out of bounds. -/
  | fault

/-- The local state of a call. -/
structure Local (K V : Type*) where
  op : MapOp K V
  pc : Pc V

variable {τ K V : Type*} [BEq K] {L : Lang}

/-- One atomic step of a call. -/
def step (H : Hash L K) (NumBuckets : ℕ) (me : τ) (s : Store τ K V) (l : Local K V) (_ : Unit) :
    Option (Store τ K V × Local K V) :=
  let goto (s : Store τ K V) (pc : Pc V) : Option (Store τ K V × Local K V) := some (s, {l with pc := pc})
  let index := getBucketIndexOfKey H NumBuckets l.op.key
  match l.pc with
  | .lock =>
    if 0 ≤ index ∧ index < NumBuckets then
      match s.tryAcquire me index with
      | some s' => goto s' .readHead
      | none => none
    else goto s .fault
  | .readHead =>
    match s.head index with
    | some h => goto s (.visit none h)
    | none =>
      match l.op with
      | .put _ value => goto s (.storeHead value)
      | op => goto s (.unlock (op.answer L none))
  | .storeHead value =>
    goto ((s.create l.op.key value).setHead index (some s.size)) (.unlock (l.op.answer L none))
  | .visit prev current =>
    match s.node current with
    | none => goto s .fault
    | some x =>
      if x.key == l.op.key then
        match l.op with
        | .put _ value =>
          match L with
          | .cpp => goto s (.storeValue current value none)
          | .java => goto s (.readOld current value)
        | .get _ _ => goto s (.readValue current)
        | .del _ => goto s (.unlink prev current)
      else goto s (.advance current)
  | .advance current =>
    match s.node current with
    | none => goto s .fault
    | some x =>
      match x.next with
      | some n => goto s (.visit (some current) n)
      | none =>
        match l.op with
        | .put _ value => goto s (.storeNext current value)
        | op => goto s (.unlock (op.answer L none))
  | .storeNext current value =>
    match s.node current with
    | none => goto s .fault
    | some x => goto ((s.create l.op.key value).setNode current {x with next := some s.size})
        (.unlock (l.op.answer L none))
  | .readOld current value =>
    match s.node current with
    | none => goto s .fault
    | some x => goto s (.storeValue current value (some x.value))
  | .storeValue current value old =>
    match s.node current with
    | none => goto s .fault
    | some x => goto (s.setNode current {x with value := value}) (.unlock (l.op.answer L old))
  | .readValue current =>
    match s.node current with
    | none => goto s .fault
    | some x => goto s (.unlock (l.op.answer L (some x.value)))
  | .unlink prev current =>
    match s.node current with
    | none => goto s .fault
    | some x =>
      match s.relink index prev x.next, L with
      | none, _ => goto s .fault
      | some s', .cpp => goto (s'.dispose .cpp current) (.unlock (.flag true))
      | some s', .java => goto (s'.dispose .java current) (.readRemoved current)
  | .readRemoved current =>
    match s.node current with
    | none => goto s .fault
    | some x => goto s (.unlock (.value (some x.value)))
  | .unlock r => goto (s.release index) (.returned r)
  | .returned _ => none
  | .fault => none

/-- The map as an object: any thread may call any operation at any time. -/
def implementation (τ V : Type*) (H : Hash L K) (NumBuckets : ℕ) :
    Implementation τ (MapOp K V) (MapRes V) (Store τ K V) (Local K V) Unit where
  store := .initial
  start := fun op => ⟨op, .lock⟩
  step := step H NumBuckets
  result := fun l =>
    match l.pc with
    | .returned r => some r
    | _ => none

/-- The mathematical map that starts empty. -/
def mapSpec (L : Lang) (K V : Type*) [BEq K] : Spec (MapOp K V) (MapRes V) (K → Option V) :=
  .ofFun (lastWins L) fun _ => none

/-! ### The outline -/

variable {H : Hash L K} {NumBuckets : ℕ} {s s' : Store τ K V} {M : K → Option V} {me u : τ}
  {op : MapOp K V} {prev : Option NodeId} {c : NodeId} {k k' : K} {v v' : V}

/-- What a call knows before its operation has taken effect. -/
def PendingAt (H : Hash L K) (NumBuckets : ℕ) (s : Store τ K V) (me : τ) (op : MapOp K V) : Pc V → Prop :=
  let index := getBucketIndexOfKey H NumBuckets
  let k := op.key
  fun
  | .lock => True
  | .readHead => s.mutex (index k) = some me
  | .storeHead value => op = .put k value ∧ s.mutex (index k) = some me ∧ Bucket index s (index k) []
  | .visit prev c => ∃ k' v', Cursor index s me k prev c k' v'
  | .advance c => ∃ prev k' v', Cursor index s me k prev c k' v' ∧ (k' == k) = false
  | .storeNext c value => op = .put k value ∧ s.mutex (index k) = some me ∧ ∃ pre k' v',
      Bucket index s (index k) (pre ++ [(c, k', v')]) ∧ Absent k (pre ++ [(c, k', v')])
  | .readOld c value => L = .java ∧ op = .put k value ∧
      ∃ prev k' v', Cursor index s me k prev c k' v' ∧ (k' == k) = true
  | .storeValue c value old => op = .put k value ∧
      ∃ prev k' v', Cursor index s me k prev c k' v' ∧ (k' == k) = true ∧ (L = .java → old = some v')
  | .readValue c => (∃ out, op = .get k out) ∧
      ∃ prev k' v', Cursor index s me k prev c k' v' ∧ (k' == k) = true
  | .unlink prev c => op = .del k ∧
      ∃ k' v', Cursor index s me k prev c k' v' ∧ (k' == k) = true
  | .fault => ¬ (0 ≤ index k ∧ index k < NumBuckets)
  | _ => False

/-- What a call knows once its operation has taken effect with answer `r`. -/
def DoneAt (H : Hash L K) (NumBuckets : ℕ) (s : Store τ K V) (me : τ) (op : MapOp K V) (r : MapRes V) :
    Pc V → Prop :=
  let index := getBucketIndexOfKey H NumBuckets
  let k := op.key
  fun
  | .readRemoved c => s.mutex (index k) = some me ∧
      ∃ x, s.node c = some x ∧ index x.key = index k ∧ r = .value (some x.value)
  | .unlock r' => r' = r ∧ s.mutex (index k) = some me
  | .returned r' => r' = r
  | _ => False

theorem pending_stable {pc : Pc V} (h : PendingAt H NumBuckets s me op pc) (hne : me ≠ u)
    (he : Effect (getBucketIndexOfKey H NumBuckets) u s s') : PendingAt H NumBuckets s' me op pc := by
  cases pc with
  | lock => trivial
  | readHead => exact (he.keeps hne h).1
  | storeHead value => exact ⟨h.1, (he.keeps hne h.2.1).1, (he.keeps hne h.2.1).2.1 _ h.2.2⟩
  | visit prev c =>
    obtain ⟨k', v', hc⟩ := h
    exact ⟨k', v', hc.stable hne he⟩
  | advance c =>
    obtain ⟨prev, k', v', hc, hk⟩ := h
    exact ⟨prev, k', v', hc.stable hne he, hk⟩
  | storeNext c value =>
    obtain ⟨hop, hm, pre, k', v', hb, hk⟩ := h
    exact ⟨hop, (he.keeps hne hm).1, pre, k', v', (he.keeps hne hm).2.1 _ hb, hk⟩
  | readOld c value =>
    obtain ⟨hL, hop, prev, k', v', hc, hk⟩ := h
    exact ⟨hL, hop, prev, k', v', hc.stable hne he, hk⟩
  | storeValue c value old =>
    obtain ⟨hop, prev, k', v', hc, hk⟩ := h
    exact ⟨hop, prev, k', v', hc.stable hne he, hk⟩
  | readValue c =>
    obtain ⟨hop, prev, k', v', hc, hk⟩ := h
    exact ⟨hop, prev, k', v', hc.stable hne he, hk⟩
  | unlink prev c =>
    obtain ⟨hop, k', v', hc, hk⟩ := h
    exact ⟨hop, k', v', hc.stable hne he, hk⟩
  | fault => exact h
  | _ => exact h.elim

theorem done_stable {pc : Pc V} {r : MapRes V} (h : DoneAt H NumBuckets s me op r pc) (hne : me ≠ u)
    (he : Effect (getBucketIndexOfKey H NumBuckets) u s s') : DoneAt H NumBuckets s' me op r pc := by
  cases pc with
  | readRemoved c =>
    obtain ⟨hm, x, hx, hi, hr⟩ := h
    exact ⟨(he.keeps hne hm).1, x, (he.keeps hne hm).2.2 c x hx hi, hi, hr⟩
  | unlock r' => exact ⟨h.1, (he.keeps hne h.2).1⟩
  | returned r' => exact h
  | _ => exact h.elim

/-! ### The steps -/

/-- The keys of `put` and `del` share a bucket with all keys equal to them. -/
theorem index_of_eq [EquivBEq K] (k : K) (j : K) (h : (k == j) = true) :
    getBucketIndexOfKey H NumBuckets j = getBucketIndexOfKey H NumBuckets k :=
  index_eq (PartialEquivBEq.symm h)

/-- An operation that finds its key absent, and is no `put`, changes nothing. -/
theorem take_absent [EquivBEq K] {l : List (Entry K V)}
    (hinv : MapInv (getBucketIndexOfKey H NumBuckets) s M)
    (hb : Bucket (getBucketIndexOfKey H NumBuckets) s (getBucketIndexOfKey H NumBuckets op.key) l)
    (hl : Absent op.key l) (hop : ∀ k v, op ≠ .put k v) : lastWins L op M = (op.answer L none, M) := by
  have hM : M op.key = none := by rw [hinv.lookup_eq hb rfl, lookup_eq_none.mpr hl]
  cases op with
  | put k v => exact absurd rfl (hop k v)
  | get k out => rw [lastWins, hM]
  | del k =>
    rw [lastWins, hM, Prod.mk.injEq]
    refine ⟨rfl, funext fun j => ?_⟩
    by_cases hj : (k == j) = true
    · rw [if_pos hj, hinv.lookup_eq hb (index_of_eq k j hj), lookup_eq_none.mpr (hl.congr hj)]
    · rw [if_neg hj]

/-- What a step of a call comes to whose operation had not taken effect: it still has
not, or it has just now, as on the mathematical map. -/
abbrev Progress (H : Hash L K) (NumBuckets : ℕ) (me : τ) (op : MapOp K V) (M : K → Option V)
    (s s' : Store τ K V) (l' : Local K V) : Prop :=
  Effect (getBucketIndexOfKey H NumBuckets) me s s' ∧ l'.op = op ∧
    ((MapInv (getBucketIndexOfKey H NumBuckets) s' M ∧ PendingAt H NumBuckets s' me op l'.pc) ∨
      ∃ r M', lastWins L op M = (r, M') ∧ MapInv (getBucketIndexOfKey H NumBuckets) s' M' ∧
        DoneAt H NumBuckets s' me op r l'.pc)

/-- The head of the bucket is loaded: it is empty, or the call goes on to its first node. -/
theorem readHead_step [EquivBEq K] {l' : Local K V} (hinv : MapInv (getBucketIndexOfKey H NumBuckets) s M)
    (h : PendingAt H NumBuckets s me op .readHead)
    (hstep : step H NumBuckets me s ⟨op, .readHead⟩ () = some (s', l')) :
    Progress H NumBuckets me op M s s' l' := by
  have hm : s.mutex (getBucketIndexOfKey H NumBuckets op.key) = some me := h
  obtain ⟨l, hb, _⟩ := hinv.bucket (getBucketIndexOfKey H NumBuckets op.key)
  cases l with
  | nil =>
    have hhead : s.head (getBucketIndexOfKey H NumBuckets op.key) = none := hb.chain
    cases op with
    | put k v =>
      simp only [step, hhead, Option.some.injEq, Prod.mk.injEq] at hstep
      obtain ⟨rfl, rfl⟩ := hstep
      exact ⟨.same, rfl, .inl ⟨hinv, rfl, hm, hb⟩⟩
    | _ =>
      simp only [step, hhead, Option.some.injEq, Prod.mk.injEq] at hstep
      obtain ⟨rfl, rfl⟩ := hstep
      exact ⟨.same, rfl, .inr ⟨_, _, take_absent hinv hb nofun nofun, hinv, rfl, hm⟩⟩
  | cons e l =>
    obtain ⟨n, k', v'⟩ := e
    have hhead : s.head (getBucketIndexOfKey H NumBuckets op.key) = some n := hb.chain.1
    simp only [step, hhead, Option.some.injEq, Prod.mk.injEq] at hstep
    obtain ⟨rfl, rfl⟩ := hstep
    exact ⟨.same, rfl, .inl ⟨hinv, k', v', hm, [], l, hb, nofun, rfl⟩⟩

/-- A node is visited: it has the key, and what is done about it depends on the
operation, or it has not. -/
theorem visit_step [EquivBEq K] {l' : Local K V} (hinv : MapInv (getBucketIndexOfKey H NumBuckets) s M)
    (h : PendingAt H NumBuckets s me op (.visit prev c))
    (hstep : step H NumBuckets me s ⟨op, .visit prev c⟩ () = some (s', l')) :
    Progress H NumBuckets me op M s s' l' := by
  obtain ⟨k', v', hc⟩ := h
  obtain ⟨x, hx, rfl, rfl⟩ := hc.node
  by_cases hk : (x.key == op.key) = true
  · cases op with
    | put k v =>
      cases L
      all_goals
        simp only [step, hx, if_pos hk, Option.some.injEq, Prod.mk.injEq] at hstep
        obtain ⟨rfl, rfl⟩ := hstep
      · exact ⟨.same, rfl, .inl ⟨hinv, rfl, _, _, _, hc, hk, nofun⟩⟩
      · exact ⟨.same, rfl, .inl ⟨hinv, rfl, rfl, _, _, _, hc, hk⟩⟩
    | get k out =>
      simp only [step, hx, if_pos hk, Option.some.injEq, Prod.mk.injEq] at hstep
      obtain ⟨rfl, rfl⟩ := hstep
      exact ⟨.same, rfl, .inl ⟨hinv, ⟨out, rfl⟩, _, _, _, hc, hk⟩⟩
    | del k =>
      simp only [step, hx, if_pos hk, Option.some.injEq, Prod.mk.injEq] at hstep
      obtain ⟨rfl, rfl⟩ := hstep
      exact ⟨.same, rfl, .inl ⟨hinv, rfl, _, _, hc, hk⟩⟩
  · simp only [step, hx, if_neg hk, Option.some.injEq, Prod.mk.injEq] at hstep
    obtain ⟨rfl, rfl⟩ := hstep
    exact ⟨.same, rfl, .inl ⟨hinv, _, _, _, hc, Bool.of_not_eq_true hk⟩⟩

/-- The next node is loaded: there is one, or the key is absent. -/
theorem advance_step [EquivBEq K] {l' : Local K V} (hinv : MapInv (getBucketIndexOfKey H NumBuckets) s M)
    (h : PendingAt H NumBuckets s me op (.advance c))
    (hstep : step H NumBuckets me s ⟨op, .advance c⟩ () = some (s', l')) :
    Progress H NumBuckets me op M s s' l' := by
  obtain ⟨prev, k', v', hc, hk⟩ := h
  obtain ⟨x, hx, _⟩ := hc.node
  obtain ⟨pre, post, hb, hpre, _⟩ := hc.chain
  obtain ⟨x', hx', _, _, hrest⟩ := Segment.split hb.chain
  obtain rfl := Option.some.inj (hx.symm.trans hx')
  have hpre' : Absent op.key (pre ++ [(c, k', v')]) := by
    simpa [Absent, or_imp, forall_and] using ⟨fun n k v he => hpre (n, k, v) he, hk⟩
  cases post with
  | nil =>
    have hnext : x.next = none := hrest
    cases op with
    | put k v =>
      simp only [step, hx, hnext, Option.some.injEq, Prod.mk.injEq] at hstep
      obtain ⟨rfl, rfl⟩ := hstep
      exact ⟨.same, rfl, .inl ⟨hinv, rfl, hc.held, pre, k', v', hb, hpre'⟩⟩
    | _ =>
      simp only [step, hx, hnext, Option.some.injEq, Prod.mk.injEq] at hstep
      obtain ⟨rfl, rfl⟩ := hstep
      exact ⟨.same, rfl, .inr ⟨_, _, take_absent hinv hb hpre' (by simp), hinv, rfl, hc.held⟩⟩
  | cons e post =>
    obtain ⟨n, k₁, v₁⟩ := e
    have hnext : x.next = some n := hrest.1
    simp only [step, hx, hnext, Option.some.injEq, Prod.mk.injEq] at hstep
    obtain ⟨rfl, rfl⟩ := hstep
    refine ⟨.same, rfl, .inl ⟨hinv, k₁, v₁, hc.held, pre ++ [(c, k', v')], post, ?_, hpre', by simp⟩⟩
    simpa using hb

/-- The node with the key is unlinked. -/
theorem unlink_step [EquivBEq K] {l' : Local K V} (hinv : MapInv (getBucketIndexOfKey H NumBuckets) s M)
    (h : PendingAt H NumBuckets s me op (.unlink prev c))
    (hstep : step H NumBuckets me s ⟨op, .unlink prev c⟩ () = some (s', l')) :
    Progress H NumBuckets me op M s s' l' := by
  obtain ⟨hop, k', v', hc, hk⟩ := h
  cases op with
  | del k =>
    have hM := hc.lookup_eq hinv hk
    obtain ⟨x, hx, hkx, hv⟩ := hc.node
    obtain ⟨pre, post, hb, hpre, rfl⟩ := hc.chain
    obtain ⟨s₁, hs₁, hinv', hw, hmutex, hkept⟩ := hinv.del L hb hpre hk hx (index_of_eq k)
    have hheld : (s₁.dispose L c).mutex (getBucketIndexOfKey H NumBuckets k) = some me := by
      rw [hmutex]
      exact hc.held
    have hs₁' : s.relink (getBucketIndexOfKey H NumBuckets (MapOp.del (V := V) k).key)
        (pre.getLast?.map Prod.fst) x.next = some s₁ := hs₁
    cases L
    all_goals
      simp only [step, hx, hs₁', Option.some.injEq, Prod.mk.injEq] at hstep
      obtain ⟨rfl, rfl⟩ := hstep
    · exact ⟨.held hc.held hw, rfl, .inr ⟨_, _, by rw [lastWins, hM]; rfl, hinv', rfl, hheld⟩⟩
    · refine ⟨.held hc.held hw, rfl, .inr ⟨_, _, by rw [lastWins, hM]; rfl, hinv', hheld, x, hkept rfl, ?_, ?_⟩⟩
      · rw [hkx]
        exact index_eq hk
      · rw [hv]
        rfl
  | _ => cases hop

/-- One step of a call whose operation has not taken effect. -/
theorem pending_step [EquivBEq K] {pc : Pc V} {l' : Local K V}
    (hinv : MapInv (getBucketIndexOfKey H NumBuckets) s M) (h : PendingAt H NumBuckets s me op pc)
    (hstep : step H NumBuckets me s ⟨op, pc⟩ () = some (s', l')) :
    Progress H NumBuckets me op M s s' l' := by
  cases pc with
  | lock =>
    by_cases hi : 0 ≤ getBucketIndexOfKey H NumBuckets op.key ∧
        getBucketIndexOfKey H NumBuckets op.key < NumBuckets
    · simp only [step, if_pos hi] at hstep
      split at hstep
      · rename_i s₁ ha
        simp only [Option.some.injEq, Prod.mk.injEq] at hstep
        obtain ⟨rfl, rfl⟩ := hstep
        obtain ⟨he, hm, hsize, hhead, hnode⟩ := Effect.acquire ha
        exact ⟨he, rfl, .inl ⟨hinv.congr hsize hhead hnode, hm⟩⟩
      · cases hstep
    · simp only [step, if_neg hi, Option.some.injEq, Prod.mk.injEq] at hstep
      obtain ⟨rfl, rfl⟩ := hstep
      exact ⟨.same, rfl, .inl ⟨hinv, hi⟩⟩
  | readHead => exact readHead_step hinv h hstep
  | storeHead value =>
    obtain ⟨hop, hm, hb⟩ := h
    cases op with
    | put k value' =>
      obtain rfl := (MapOp.put.inj hop).2
      have hM : M k = none := hinv.lookup_eq hb rfl
      simp only [step, Option.some.injEq, Prod.mk.injEq] at hstep
      obtain ⟨rfl, rfl⟩ := hstep
      obtain ⟨hinv', hw⟩ := hinv.put_first (v := value') hb (index_of_eq k)
      exact ⟨.held hm hw, rfl, .inr ⟨_, _, by rw [lastWins, MapOp.key, hM], hinv', rfl, hm⟩⟩
    | _ => cases hop
  | visit prev c => exact visit_step hinv h hstep
  | advance c => exact advance_step hinv h hstep
  | storeNext c value =>
    obtain ⟨hop, hm, pre, k', v', hb, hpre⟩ := h
    cases op with
    | put k value' =>
      obtain rfl := (MapOp.put.inj hop).2
      have hM : M k = none := (hinv.lookup_eq hb rfl).trans (lookup_eq_none.mpr hpre)
      obtain ⟨x, hx, _⟩ := hb.node_of_mem (e := (c, k', v')) (by simp)
      simp only [step, show s.node c = some x from hx, Option.some.injEq, Prod.mk.injEq] at hstep
      obtain ⟨rfl, rfl⟩ := hstep
      obtain ⟨hinv', hw⟩ := hinv.put_last (v := value') hb hpre hx (index_of_eq k)
      exact ⟨.held hm hw, rfl, .inr ⟨_, _, by rw [lastWins, MapOp.key, hM], hinv', rfl, hm⟩⟩
    | _ => cases hop
  | readOld c value =>
    obtain ⟨hL, hop, prev, k', v', hc, hk⟩ := h
    obtain ⟨x, hx, _, hv⟩ := hc.node
    simp only [step, hx, Option.some.injEq, Prod.mk.injEq] at hstep
    obtain ⟨rfl, rfl⟩ := hstep
    exact ⟨.same, rfl, .inl ⟨hinv, hop, prev, k', v', hc, hk, fun _ => by rw [hv]⟩⟩
  | storeValue c value old =>
    obtain ⟨hop, prev, k', v', hc, hk, hold⟩ := h
    cases op with
    | put k value' =>
      obtain rfl := (MapOp.put.inj hop).2
      have hM := hc.lookup_eq hinv hk
      obtain ⟨x, hx, _⟩ := hc.node
      obtain ⟨pre, post, hb, hpre, _⟩ := hc.chain
      simp only [step, hx, Option.some.injEq, Prod.mk.injEq] at hstep
      obtain ⟨rfl, rfl⟩ := hstep
      obtain ⟨hinv', hw⟩ := hinv.put_value (v := value') hb hpre hk hx (index_of_eq k)
      refine ⟨.held hc.held hw, rfl, .inr ⟨_, _, ?_, hinv', rfl, hc.held⟩⟩
      rw [lastWins, hM]
      cases L
      · rfl
      · rw [hold rfl]
        rfl
    | _ => cases hop
  | readValue c =>
    obtain ⟨⟨out, hop⟩, prev, k', v', hc, hk⟩ := h
    cases op with
    | get k out' =>
      have hM := hc.lookup_eq hinv hk
      obtain ⟨x, hx, _, hv⟩ := hc.node
      simp only [step, hx, Option.some.injEq, Prod.mk.injEq] at hstep
      obtain ⟨rfl, rfl⟩ := hstep
      exact ⟨.same, rfl, .inr ⟨_, _, by rw [lastWins, hM, hv], hinv, rfl, hc.held⟩⟩
    | _ => cases hop
  | unlink prev c => exact unlink_step hinv h hstep
  | fault => simp [step] at hstep
  | _ => exact h.elim

/-- One step of a call whose operation has taken effect. -/
theorem done_step {pc : Pc V} {r : MapRes V} {l' : Local K V}
    (hinv : MapInv (getBucketIndexOfKey H NumBuckets) s M) (h : DoneAt H NumBuckets s me op r pc)
    (hstep : step H NumBuckets me s ⟨op, pc⟩ () = some (s', l')) :
    Effect (getBucketIndexOfKey H NumBuckets) me s s' ∧ l'.op = op ∧
      MapInv (getBucketIndexOfKey H NumBuckets) s' M ∧ DoneAt H NumBuckets s' me op r l'.pc := by
  cases pc with
  | readRemoved c =>
    obtain ⟨hm, x, hx, _, rfl⟩ := h
    simp only [step, hx, Option.some.injEq, Prod.mk.injEq] at hstep
    obtain ⟨rfl, rfl⟩ := hstep
    exact ⟨.same, rfl, hinv, rfl, hm⟩
  | unlock r' =>
    obtain ⟨rfl, hm⟩ := h
    simp only [step, Option.some.injEq, Prod.mk.injEq] at hstep
    obtain ⟨rfl, rfl⟩ := hstep
    exact ⟨.release hm, rfl, hinv.congr rfl rfl rfl, rfl⟩
  | returned r' => simp [step] at hstep
  | _ => exact h.elim

/-- The proof outline of the map. -/
def outline [EquivBEq K] (τ V : Type*) (H : Hash L K) (NumBuckets : ℕ) :
    Outline (implementation τ V H NumBuckets) (mapSpec L K V) where
  Inv := MapInv (getBucketIndexOfKey H NumBuckets)
  Guarantee := Effect (getBucketIndexOfKey H NumBuckets)
  Pending := fun me op s l => l.op = op ∧ PendingAt H NumBuckets s me op l.pc
  Done := fun me r s l => DoneAt H NumBuckets s me l.op r l.pc
  initial := initial_mapInv _
  start := fun _ _ _ _ _ => ⟨rfl, trivial⟩
  pending_step := by
    rintro me op s M ⟨_, pc⟩ c s' l' hinv ⟨rfl, h⟩ hstep
    obtain ⟨he, hop, ⟨hinv', h'⟩ | ⟨r, M', hap, hinv', hd⟩⟩ := pending_step hinv h hstep
    · exact ⟨he, .inl ⟨hinv', hop, h'⟩⟩
    · exact ⟨he, .inr ⟨r, M', hap, hinv', by rw [hop]; exact hd⟩⟩
  done_step := by
    rintro me r s M ⟨op, pc⟩ c s' l' hinv h hstep
    obtain ⟨he, hop, hinv', h'⟩ := done_step hinv h hstep
    exact ⟨he, hinv', by rw [hop]; exact h'⟩
  pending_result := by
    rintro me op s ⟨_, pc⟩ ⟨rfl, h⟩
    cases pc with
    | returned r => exact h.elim
    | _ => rfl
  done_result := by
    rintro me r r' s ⟨op, pc⟩ h hr
    cases pc with
    | returned r₁ => exact (Option.some.inj hr).symm.trans h
    | _ => cases hr
  pending_stable := fun _ _ _ _ _ _ _ hne _ he h => ⟨h.1, pending_stable h.2 hne he⟩
  done_stable := fun _ _ _ _ _ _ _ hne _ he h => done_stable h hne he

/-- A call faults only when its key's index is out of bounds: no null pointer is ever
dereferenced. -/
theorem fault_outOfBounds [EquivBEq K] [DecidableEq τ]
    {s : Implementation.State τ (Store τ K V) (Local K V)}
    (h : (implementation τ V H NumBuckets).system.Reachable s) {t : τ} {l : Local K V} (hl : s.pc t = some l)
    (hf : l.pc = .fault) : ¬ (0 ≤ getBucketIndexOfKey H NumBuckets l.op.key ∧
      getBucketIndexOfKey H NumBuckets l.op.key < NumBuckets) := by
  obtain ⟨_, _, hthread⟩ := (outline τ V H NumBuckets).reachable h
  rcases hthread t l hl with ⟨op, rfl, hp⟩ | ⟨r, hd⟩
  · rw [hf] at hp
    exact hp
  · rw [show (outline τ V H NumBuckets).Done t r s.store l = DoneAt H NumBuckets s.store t l.op r l.pc from rfl,
      hf] at hd
    exact hd.elim

/-- A call stays one of its operation. -/
theorem step_op {me : τ} {l l' : Local K V} (hstep : step H NumBuckets me s l () = some (s', l')) : l'.op = l.op := by
  obtain ⟨op, pc⟩ := l
  cases pc with
  | _ =>
    simp only [step] at hstep
    grind

theorem about_op (Own : τ → MapOp K V → Prop) :
    (implementation τ V H NumBuckets).About Own fun t l => Own t l.op where
  start := fun _ _ h => h
  step := fun _ _ _ _ _ _ h hstep => by rwa [step_op hstep]

/-! ### A call alone -/

section Alone
variable {index : K → Int} {pre post : List (Entry K V)}

/-- A call about to unlock its bucket returns. -/
theorem returns_unlock (op : MapOp K V) (hfree : FreeBut (getBucketIndexOfKey H NumBuckets op.key) s)
    (r : MapRes V) :
    (implementation τ V H NumBuckets).Returns me Free s ⟨op, .unlock r⟩ := by
  refine ⟨s.release _, ⟨op, .returned r⟩, r, .single ⟨(), rfl⟩, rfl, fun c => ?_⟩
  by_cases hc : c = getBucketIndexOfKey H NumBuckets op.key
  · rw [hc]
    exact Function.update_self ..
  · exact (Function.update_of_ne hc _ _).trans (hfree c hc)

/-- A call that has found its key returns. -/
theorem returns_hit {x : Node K V}
    (hb : Bucket index s (getBucketIndexOfKey H NumBuckets op.key) (pre ++ (c, k', v') :: post))
    (hx : s.node c = some x) (hk : (x.key == op.key) = true)
    (hfree : FreeBut (getBucketIndexOfKey H NumBuckets op.key) s) :
    (implementation τ V H NumBuckets).Returns me Free s ⟨op, .visit (pre.getLast?.map Prod.fst) c⟩ := by
  cases op with
  | put k v =>
    have hstore : ∀ old, (implementation τ V H NumBuckets).Returns me Free s
        ⟨.put k v, .storeValue c v old⟩ := fun old =>
      .step () (s.setNode c {x with value := v}, _) (by simp only [implementation, step, hx]; rfl)
        (returns_unlock (s := s.setNode c {x with value := v}) (.put k v) hfree _)
    cases L
    · exact .step () (s, ⟨.put k v, .storeValue c v none⟩)
        (by simp only [implementation, step, hx, if_pos hk]) (hstore _)
    · exact .step () (s, ⟨.put k v, .readOld c v⟩) (by simp only [implementation, step, hx, if_pos hk])
        (.step () (s, ⟨.put k v, .storeValue c v (some x.value)⟩) (by simp only [implementation, step, hx])
          (hstore _))
  | get k out =>
    exact .step () (s, ⟨.get k out, .readValue c⟩) (by simp only [implementation, step, hx, if_pos hk])
      (.step () (s, _) (by simp only [implementation, step, hx]; rfl) (returns_unlock _ hfree _))
  | del k =>
    obtain ⟨s₁, hs₁, _, hmutex, _, hnode, _⟩ := hb.relink hx
    have hfree' : FreeBut (getBucketIndexOfKey H NumBuckets k) (s₁.dispose L c) := fun d hd => by
      rw [Store.dispose_mutex, hmutex]
      exact hfree d hd
    have hs₁' : s.relink (getBucketIndexOfKey H NumBuckets (MapOp.del (V := V) k).key)
        (pre.getLast?.map Prod.fst) x.next = some s₁ := hs₁
    refine .step () (s, ⟨.del k, .unlink (pre.getLast?.map Prod.fst) c⟩)
      (by simp only [implementation, step, hx, if_pos hk]) ?_
    cases L
    · exact .step () (s₁.dispose .cpp c, ⟨.del k, .unlock (.flag true)⟩)
        (by simp only [implementation, step, hx, hs₁']) (returns_unlock _ hfree' _)
    · have hx' : (s₁.dispose .java c).node c = some x :=
        (hnode c fun e he hc => (fst_ne_of_nodup hb.nodup).1 e.1 e.2 he hc.symm).trans hx
      exact .step () (s₁.dispose .java c, ⟨.del k, .readRemoved c⟩)
        (by simp only [implementation, step, hx, hs₁'])
        (.step () (s₁.dispose .java c, ⟨.del k, .unlock (.value (some x.value))⟩)
          (by simp only [implementation, step, hx']) (returns_unlock _ hfree' _))

/-- A call on its way along the chain returns. -/
theorem returns_visit (pre : List (Entry K V))
    (hb : Bucket index s (getBucketIndexOfKey H NumBuckets op.key) (pre ++ (c, k', v') :: post))
    (hfree : FreeBut (getBucketIndexOfKey H NumBuckets op.key) s) :
    (implementation τ V H NumBuckets).Returns me Free s ⟨op, .visit (pre.getLast?.map Prod.fst) c⟩ := by
  induction post generalizing pre c k' v' with
  | nil =>
    obtain ⟨x, hx, _, _, hrest⟩ := Segment.split hb.chain
    by_cases hk : (x.key == op.key) = true
    · exact returns_hit hb hx hk hfree
    · have hnext : x.next = none := hrest
      refine .step () (s, ⟨op, .advance c⟩) (by simp only [implementation, step, hx, if_neg hk]) ?_
      cases op with
      | put k v =>
        exact .step () (s, ⟨.put k v, .storeNext c v⟩) (by simp only [implementation, step, hx, hnext])
          (.step () ((s.create k v).setNode c {x with next := some s.size}, _)
            (by simp only [implementation, step, hx]; rfl)
            (returns_unlock (s := (s.create k v).setNode c {x with next := some s.size}) (.put k v) hfree _))
      | _ =>
        exact .step () (s, _) (by simp only [implementation, step, hx, hnext]; rfl) (returns_unlock _ hfree _)
  | cons e post ih =>
    obtain ⟨n, k₁, v₁⟩ := e
    obtain ⟨x, hx, _, _, hrest⟩ := Segment.split hb.chain
    by_cases hk : (x.key == op.key) = true
    · exact returns_hit hb hx hk hfree
    · have hnext : x.next = some n := hrest.1
      have hb' : Bucket index s (getBucketIndexOfKey H NumBuckets op.key)
          ((pre ++ [(c, k', v')]) ++ (n, k₁, v₁) :: post) := by simpa using hb
      have hrec := ih _ hb'
      rw [List.getLast?_concat, Option.map_some] at hrec
      exact .step () (s, ⟨op, .advance c⟩) (by simp only [implementation, step, hx, if_neg hk])
        (.step () (s, ⟨op, .visit (some c) n⟩) (by simp only [implementation, step, hx, hnext]) hrec)

/-- **A call that runs alone returns**, if its index is in bounds. -/
theorem answers_alone (hinv : MapInv (getBucketIndexOfKey H NumBuckets) s M) (hfree : Free s) (me : τ)
    (op : MapOp K V) (h0 : 0 ≤ getBucketIndexOfKey H NumBuckets op.key)
    (hN : getBucketIndexOfKey H NumBuckets op.key < NumBuckets) :
    ∃ r s', (implementation τ V H NumBuckets).Answers me s op r s' ∧ Free s' := by
  let s₁ : Store τ K V :=
    {s with mutex := Function.update s.mutex (getBucketIndexOfKey H NumBuckets op.key) (some me)}
  have hfree₁ : FreeBut (getBucketIndexOfKey H NumBuckets op.key) s₁ := fun c hc =>
    (Function.update_of_ne hc _ _).trans (hfree c)
  have hlock : (implementation τ V H NumBuckets).step me s ⟨op, .lock⟩ () = some (s₁, ⟨op, .readHead⟩) := by
    simp [implementation, step, h0, hN, Store.tryAcquire, hfree _, s₁]
  refine Implementation.Returns.answers (.step () _ hlock ?_)
  obtain ⟨l, hb, _⟩ := hinv.bucket (getBucketIndexOfKey H NumBuckets op.key)
  have hb₁ : Bucket _ s₁ (getBucketIndexOfKey H NumBuckets op.key) l := hb.congr rfl rfl
  cases l with
  | nil =>
    have hhead : s₁.head (getBucketIndexOfKey H NumBuckets op.key) = none := hb₁.chain
    cases op with
    | put k v =>
      exact .step () (s₁, ⟨.put k v, .storeHead v⟩) (by simp only [implementation, step, hhead])
        (.step () ((s₁.create k v).setHead (getBucketIndexOfKey H NumBuckets k) (some s₁.size), _)
          (by simp only [implementation, step]; rfl)
          (returns_unlock (s := (s₁.create k v).setHead _ (some s₁.size)) (.put k v) hfree₁ _))
    | _ =>
      exact .step () (s₁, _) (by simp only [implementation, step, hhead]; rfl) (returns_unlock _ hfree₁ _)
  | cons e l =>
    obtain ⟨n, k', v'⟩ := e
    have hhead : s₁.head (getBucketIndexOfKey H NumBuckets op.key) = some n := hb₁.chain.1
    exact .step () (s₁, ⟨op, .visit none n⟩) (by simp only [implementation, step, hhead])
      (returns_visit [] hb₁ hfree₁)

end Alone

/-- **The C++ map is linearizable**: whatever the hash function and the number of buckets, its
operations are those of a mathematical map, and every index is in bounds. -/
theorem lockHashMap_linearizable [EquivBEq K] [DecidableEq τ] (H : Hash .cpp K) (hN : 2 ≤ NumBuckets) :
    (implementation τ V H NumBuckets).Linearizable (mapSpec .cpp K V) ∧
      ∀ s, (implementation τ V H NumBuckets).system.Reachable s → ∀ t l, s.pc t = some l → l.pc ≠ .fault :=
  ⟨(outline τ V H NumBuckets).linearizable, fun _ hs _ _ hl hf =>
    fault_outOfBounds hs hl hf ⟨index_nonneg, index_lt hN⟩⟩

theorem lockHashMap_linearizable_residue :
    (implementation ℕ ℕ (residueHash .cpp) 16).Linearizable (mapSpec .cpp ℕ ℕ) ∧
      ∀ s, (implementation ℕ ℕ (residueHash .cpp) 16).system.Reachable s →
        ∀ t l, s.pc t = some l → l.pc ≠ .fault :=
  lockHashMap_linearizable (residueHash .cpp) (by decide)

end ParSweet.Maps.LockHashMap
