import ParSweet.Maps.Linearizable
import ParSweet.Sets.HandOverHand
import ParSweet.Sets.Linearizable

/-! The calls of the hash tables and of the maps made of sets come to their end.

A new node has a number above those of all nodes before it, and a chain grows at its end
only: along the links the numbers ascend (`Store.Ascends`). A call goes along the chain of one
bucket, while it holds the mutex of that bucket and no other (`ChainCalls`); so nobody disturbs
it, and only so many nodes are ahead of it. -/
namespace ParSweet.Maps
open Concurrent

variable {τ K V : Type*}

/-! ### How far along its chain a node stands -/

namespace Store
variable {s s' : Store τ K V} {n : NodeId} {b : Int} {x y : Node K V} {prev : Option NodeId}

/-- The links lead to nodes that were created later. -/
structure Ascends (s : Store τ K V) : Prop where
  created : ∀ (n : ℕ) x, s.node n = some x → n < s.size
  next : ∀ (n : ℕ) x (c : ℕ), s.node n = some x → x.next = some c → n < c ∧ c < s.size

theorem initial_ascends : (initial : Store τ K V).Ascends where
  created := fun _ _ hx => by cases hx
  next := fun _ _ _ hx => by cases hx

theorem Ascends.congr (h : s.Ascends) (hsize : s'.size = s.size) (hnode : s'.node = s.node) : s'.Ascends where
  created := fun n x hx => by
    rw [hsize]
    exact h.created n x (hnode ▸ hx)
  next := fun n x c hx hc => by
    rw [hsize]
    exact h.next n x c (hnode ▸ hx) hc

theorem node_setNode (s : Store τ K V) (n m : NodeId) (y : Node K V) :
    (s.setNode n y).node m = if m = n then some y else s.node m := Function.update_apply ..

theorem node_create (s : Store τ K V) (key : K) (value : V) (m : NodeId) :
    (s.create key value).node m = if m = s.size then some ⟨key, value, none⟩ else s.node m := Function.update_apply ..

theorem Ascends.create (h : s.Ascends) (key : K) (value : V) : (s.create key value).Ascends where
  created := fun m z hz => by
    rw [node_create] at hz
    split at hz
    · next hm => exact hm ▸ Nat.lt_succ_self _
    · exact Nat.lt_succ_of_lt (h.created m z hz)
  next := fun m z d hz hd => by
    rw [node_create] at hz
    split at hz
    · cases hz
      cases hd
    · exact (h.next m z d hz hd).imp_right Nat.lt_succ_of_lt

theorem Ascends.setNode (h : s.Ascends) (hn : n < s.size) (hnext : ∀ d, y.next = some d → n < d ∧ d < s.size) :
    (s.setNode n y).Ascends where
  created := fun m z hz => by
    rw [node_setNode] at hz
    split at hz
    · next hm => exact hm ▸ hn
    · exact h.created m z hz
  next := fun m z d hz hd => by
    rw [node_setNode] at hz
    split at hz
    · next hm =>
      cases hz
      exact hm ▸ hnext d hd
    · exact h.next m z d hz hd

/-- A node is unlinked: whoever led to it leads to where it did. -/
theorem Ascends.relink (h : s.Ascends) (hx : s.node n = some x) (hprev : ∀ p, prev = some p → p < n)
    (hrelink : s.relink b prev x.next = some s') : s'.Ascends := by
  cases prev with
  | none =>
    cases hrelink
    exact h.congr rfl rfl
  | some p =>
    obtain ⟨y, hy, rfl⟩ := Option.map_eq_some_iff.mp hrelink
    refine h.setNode (h.created p y hy) fun d hd => ?_
    obtain ⟨hlt, hsize⟩ := h.next n x d hx hd
    exact ⟨(hprev p rfl).trans hlt, hsize⟩

theorem Ascends.dispose (h : s.Ascends) (L : Lang) (n : NodeId) : (s.dispose L n).Ascends := by
  have hkept : ∀ {m z}, (s.dispose L n).node m = some z → s.node m = some z := by
    intro m z hz
    cases L with
    | java => exact hz
    | cpp =>
      have hne : m ≠ n := by
        rintro rfl
        simp [Store.dispose] at hz
      exact (dispose_other hne).symm.trans hz
  refine ⟨fun m z hz => ?_, fun m z d hz hd => ?_⟩
  · rw [dispose_size]
    exact h.created m z (hkept hz)
  · rw [dispose_size]
    exact h.next m z d (hkept hz) hd

theorem relink_same {o : Option NodeId} (h : s.relink b prev o = some s') : s'.size = s.size ∧ s'.mutex = s.mutex := by
  cases prev with
  | none =>
    cases h
    exact ⟨rfl, rfl⟩
  | some p =>
    obtain ⟨_, _, rfl⟩ := Option.map_eq_some_iff.mp h
    exact ⟨rfl, rfl⟩

theorem mutex_release (s : Store τ K V) (b n : Int) : (s.release b).mutex n = if n = b then none else s.mutex n :=
  Function.update_apply ..

/-- A mutex has been taken, and nothing else has happened. -/
theorem of_tryAcquire {me : τ} (h : s.tryAcquire me b = some s') :
    s' = {s with mutex := Function.update s.mutex b (some me)} := by
  cases hm : s.mutex b with
  | some t => simp [tryAcquire, hm] at h
  | none =>
    simp only [tryAcquire, hm, Option.some.injEq] at h
    exact h.symm

theorem mutex_of_tryAcquire {me : τ} (h : s.tryAcquire me b = some s') (n : Int) :
    s'.mutex n = if n = b then some me else s.mutex n := by
  rw [of_tryAcquire h]
  exact Function.update_apply ..

end Store

/-! ### Calls that go along a chain -/

/-- Where a call of a hash table stands. -/
inductive Place where
  | start
  | lock
  | readHead
  | visit (prev : Option NodeId) (current : NodeId)
  | advance (current : NodeId)
  | unlink (prev : Option NodeId) (current : NodeId)
  /-- So many steps before it unlocks. -/
  | finish (k : ℕ)
  | returned
  | fault
  deriving DecidableEq

namespace Place

/-- The steps of a call that are left, where there are `N` nodes. -/
def cost (N : ℕ) : Place → ℕ
  | .start => 2 * N + 9
  | .lock => 2 * N + 8
  | .readHead => 2 * N + 7
  | .visit _ c => 2 * (N - c) + 6
  | .advance c => 2 * (N - c) + 5
  | .unlink _ _ => 4
  | .finish k => k + 2
  | .returned => 1
  | .fault => 0

/-- The call may still create a node. -/
def Owes : Place → Prop
  | .finish 0 | .returned | .fault => False
  | _ => True

/-- The call has come from a node that was created earlier. -/
def Forward : Place → Prop
  | .visit (some p) c | .unlink (some p) c => p < c
  | _ => True

/-- The call holds the mutex. -/
def Locked : Place → Prop
  | .start | .lock | .returned | .fault => False
  | _ => True

variable {s s' : Store τ K V} {me u : τ} {b : Int} {p q : Place} {N : ℕ}

/-- What a step of a call in bucket `b` does. -/
inductive Move (me : τ) (b : Int) (s : Store τ K V) : Store τ K V → Place → Place → Prop where
  | start : Move me b s s .start .lock
  | lock {s₁} : s.tryAcquire me b = some s₁ → Move me b s s₁ .lock .readHead
  | first {c} : Move me b s s .readHead (.visit none c)
  | empty {k} : k ≤ 1 → Move me b s s .readHead (.finish k)
  | other {prev c} : Move me b s s (.visit prev c) (.advance c)
  | found {prev c k} : k ≤ 2 → Move me b s s (.visit prev c) (.finish k)
  | delete {prev c} : Move me b s s (.visit prev c) (.unlink prev c)
  | next {c x d} : s.node c = some x → x.next = some d → Move me b s s (.advance c) (.visit (some c) d)
  | last {c k} : k ≤ 1 → Move me b s s (.advance c) (.finish k)
  | read {k} : Move me b s s (.finish (k + 1)) (.finish k)
  | store {c x v k} : s.node c = some x → Move me b s (s.setNode c {x with value := v}) (.finish (k + 1)) (.finish k)
  | storeHead {key v} : Move me b s ((s.create key v).setHead b (some s.size)) (.finish 1) (.finish 0)
  | storeNext {key v c x} : s.node c = some x →
      Move me b s ((s.create key v).setNode c {x with next := some s.size}) (.finish 1) (.finish 0)
  | unlink {L prev c x s₁ k} : s.node c = some x → s.relink b prev x.next = some s₁ → k ≤ 1 →
      Move me b s (s₁.dispose L c) (.unlink prev c) (.finish k)
  | unlock : Move me b s (s.release b) (.finish 0) .returned
  | fault {place} : place ≠ .fault → Move me b s s place .fault

/-- A step along a chain in which the numbers ascend. -/
theorem Move.ascends (h : Move me b s s' p q) (hs : s.Ascends) (hp : p.Forward) : s'.Ascends ∧ q.Forward := by
  cases h with
  | start | empty _ | other | found _ | last _ | read | fault _ | first => exact ⟨hs, trivial⟩
  | @delete prev c => exact ⟨hs, by cases prev <;> exact hp⟩
  | next hx hd => exact ⟨hs, (hs.next _ _ _ hx hd).1⟩
  | lock ha =>
    rw [Store.of_tryAcquire ha]
    exact ⟨hs.congr rfl rfl, trivial⟩
  | unlock => exact ⟨hs.congr rfl rfl, trivial⟩
  | store hx => exact ⟨hs.setNode (hs.created _ _ hx) fun d hd => hs.next _ _ d hx hd, trivial⟩
  | storeHead => exact ⟨(hs.create _ _).congr rfl rfl, trivial⟩
  | storeNext hx =>
    have hc := hs.created _ _ hx
    refine ⟨(hs.create _ _).setNode (Nat.lt_succ_of_lt hc) fun d hd => ?_, trivial⟩
    cases hd
    exact ⟨hc, Nat.lt_succ_self _⟩
  | @unlink L prev c x s₁ k hx hrelink _ =>
    refine ⟨(hs.relink hx (fun p hprev => ?_) hrelink).dispose L c, trivial⟩
    subst hprev
    exact hp

theorem Move.cost_lt (h : Move me b s s' p q) (hs : s.Ascends) (hN : s.size ≤ N) : q.cost N < p.cost N := by
  cases h with
  | next hx hd =>
    have := hs.next _ _ _ hx hd
    simp only [cost]
    omega
  | fault hp =>
    cases p with
    | fault => exact absurd rfl hp
    | _ => simp [cost]
  | _ =>
    simp only [cost]
    omega

/-- Only one of a call's steps creates a node, and it is the last before the call unlocks. -/
theorem Move.effect (h : Move me b s s' p q) : (s'.size = s.size ∧ (q.Owes → p.Owes)) ∨
    (s'.size = s.size + 1 ∧ ¬ q.Owes ∧ p.Owes) := by
  cases h with
  | lock ha =>
    rw [Store.of_tryAcquire ha]
    exact .inl ⟨rfl, fun _ => trivial⟩
  | storeHead | storeNext _ => exact .inr ⟨rfl, id, trivial⟩
  | unlink _ hrelink _ => exact .inl ⟨by rw [Store.dispose_size, (Store.relink_same hrelink).1], fun _ => trivial⟩
  | unlock | fault _ => exact .inl ⟨rfl, False.elim⟩
  | _ => exact .inl ⟨rfl, fun _ => trivial⟩

/-- A thread takes no mutex for another. -/
theorem Move.others (h : Move me b s s' p q) (hu : u ≠ me) {n : Int} (hn : s'.mutex n = some u) : s.mutex n = some u := by
  cases h with
  | lock ha =>
    rw [Store.mutex_of_tryAcquire ha] at hn
    split at hn
    · exact absurd (Option.some.inj hn).symm hu
    · exact hn
  | unlock =>
    rw [Store.mutex_release] at hn
    split at hn
    · cases hn
    · exact hn
  | unlink _ hrelink _ => rwa [Store.dispose_mutex, (Store.relink_same hrelink).2] at hn
  | _ => exact hn

/-- A call that has done no wrong holds the mutex of its bucket or none. -/
theorem Move.own (h : Move me b s s' p q) (hq : q ≠ .fault) (hown : ∀ n, s.mutex n = some me → p.Locked ∧ n = b) {n : Int}
    (hn : s'.mutex n = some me) : q.Locked ∧ n = b := by
  cases h with
  | start => exact absurd (hown n hn).1 id
  | other | found _ | delete | next _ _ | last _ | read | first | empty _ | storeHead | store _ | storeNext _ =>
    exact (hown n hn).imp_left fun _ => trivial
  | lock ha =>
    rw [Store.mutex_of_tryAcquire ha] at hn
    split at hn
    · exact ⟨trivial, ‹_›⟩
    · exact absurd (hown n hn).1 id
  | unlock =>
    rw [Store.mutex_release] at hn
    split at hn
    · cases hn
    · exact absurd (hown n hn).2 ‹_›
  | unlink _ hrelink _ =>
    rw [Store.dispose_mutex, (Store.relink_same hrelink).2] at hn
    exact (hown n hn).imp_left fun _ => trivial
  | fault _ => exact absurd rfl hq

end Place

/-- An object whose calls go along the chain of one bucket each, while they hold its mutex. -/
structure ChainCalls {Op Res loc : Type*} (I : Implementation τ Op Res (Store τ K V) loc Unit) where
  place : loc → Place
  bucket : loc → Int
  initial : I.store = .initial
  start : ∀ op, place (I.start op) = .start ∨ place (I.start op) = .lock
  step : ∀ me s l s' l', I.step me s l () = some (s', l') →
    bucket l' = bucket l ∧ Place.Move me (bucket l) s s' (place l) (place l')
  /-- All there is to wait for is the mutex. -/
  stuck : ∀ me s l, I.step me s l () = none → I.result l = none → place l ≠ .fault →
    place l = .lock ∧ ∃ u, s.mutex (bucket l) = some u
  result : ∀ l r, I.result l = some r → place l = .returned

namespace ChainCalls
variable {Op Res loc : Type*} [DecidableEq τ] {I : Implementation τ Op Res (Store τ K V) loc Unit} (C : ChainCalls I)
  {s : Implementation.State τ (Store τ K V) loc}

/-- The mutexes of the buckets; nobody takes a second one. -/
def locking : Locking τ (Store τ K V) loc Int where
  holder := Store.mutex
  wants := fun l => if C.place l = .lock then some (C.bucket l) else none
  Thrown := fun l => C.place l = .fault
  Made := fun _ _ => True
  Before := fun _ _ _ => False

/-- The mutex a call holds. -/
def Holds (l : loc) (n : Int) : Prop := (C.place l).Locked ∧ n = C.bucket l

theorem ascends (hs : I.system.Reachable s) : s.store.Ascends ∧ ∀ t l, s.pc t = some l → (C.place l).Forward := by
  refine hs.invariant (S := I.system) (I := fun s => s.store.Ascends ∧ ∀ t l, s.pc t = some l → (C.place l).Forward)
    ⟨?_, fun t l hl => by cases hl⟩ ?_
  · show I.store.Ascends
    rw [C.initial]
    exact Store.initial_ascends
  intro s e s' ⟨hs, hi⟩ hnext
  rcases Implementation.step_cases hnext with ⟨t, op, -, -, rfl⟩ | ⟨t, l, c, st, l', ht, hst, -, rfl⟩ | ⟨t, l, r, -, -, -, rfl⟩
  · refine ⟨hs, Implementation.forall_update (P := fun (_ : τ) l => (C.place l).Forward) (fun l hl => ?_) fun u l _ hu => hi u l hu⟩
    obtain rfl := Option.some.inj hl
    rcases C.start op with hp | hp <;> rw [hp] <;> trivial
  · obtain ⟨_, hmove⟩ := C.step t s.store l st l' hst
    obtain ⟨hs', hforward⟩ := hmove.ascends hs (hi t l ht)
    refine ⟨hs', Implementation.forall_update (P := fun (_ : τ) l => (C.place l).Forward) (fun l hl => ?_) fun u l _ hu => hi u l hu⟩
    exact Option.some.inj hl ▸ hforward
  · refine ⟨hs, Implementation.forall_update (P := fun (_ : τ) l => (C.place l).Forward) (fun l hl => ?_) fun u l _ hu => hi u l hu⟩
    cases hl

/-- A mutex that is held is held by a call in its bucket. -/
theorem owned (hfault : NeverFaults I fun l => C.place l = .fault) (hs : I.system.Reachable s) :
    C.locking.Owned C.Holds s := by
  refine Locking.owned_of_reachable (K := C.locking) (fun n => ?_) ?_ ?_ ?_ hs
  · show I.store.mutex n = none
    rw [C.initial]
    rfl
  · intro s t l c st l' u n _ _ hstep hut hn
    exact (C.step t s.store l st l' hstep).2.others hut hn
  · intro s t l c st l' hs hl hstep h n hn
    have hs' : I.system.Reachable ⟨st, Function.update s.pc t (some l')⟩ :=
      hs.path (.single (l := none) ⟨.run t c, by simp [Implementation.machine, Implementation.next, hl, hstep]⟩)
    obtain ⟨hbucket, hmove⟩ := C.step t s.store l st l' hstep
    rw [Holds, hbucket]
    exact hmove.own (hfault _ hs' t l' (Function.update_self ..)) h hn
  · intro l r hr n ⟨hlocked, _⟩
    rw [C.result l r hr] at hlocked
    exact hlocked

def budget : Budget (Store τ K V) loc where
  cost := fun N _ l => (C.place l).cost N
  again := fun _ => 0
  Steady := fun _ _ => True
  Owes := fun l => (C.place l).Owes
  room := Store.size

theorem budget_kept : C.budget.Kept I where
  own := fun N s t l c st l' hs _ hstep hN =>
    .inl ⟨(C.step t s.store l st l' hstep).2.cost_lt (C.ascends hs).1 hN, id⟩
  others := fun _ _ _ _ _ _ _ _ _ _ _ _ _ _ => Nat.le_refl _
  effect := fun s t l c st l' _ _ hstep => by
    rcases (C.step t s.store l st l' hstep).2.effect with ⟨hsize, howes⟩ | ⟨hsize, hnot, howes⟩
    · exact .inl ⟨hsize.le, howes, fun _ => id⟩
    · exact .inr ⟨hsize.le, hnot, howes⟩

/-- **The calls come to their end**, where none of them goes wrong. -/
theorem callsEnd [Fintype τ] (hfault : NeverFaults I fun l => C.place l = .fault) : I.CallsEnd where
  bounded := fun _ hs => C.budget_kept.bounded hs
  goesOn := by
    intro s hs hopen
    refine Locking.goesOn_of_owned (C.owned hfault hs) (fun _ => id) (fun _ _ _ h _ => h) ?_ ?_ hopen
    · intro t l n m hl hn hm
      obtain ⟨k, hk, hlocked, _⟩ := C.owned hfault hs t m hm
      obtain rfl : l = k := Option.some.inj (hl.symm.trans hk)
      simp only [locking] at hn
      split at hn
      · next hp =>
        rw [hp] at hlocked
        exact hlocked
      · cases hn
    · intro t l hl hstep hres
      obtain ⟨hp, hu⟩ := C.stuck t s.store l (hstep ()) hres (hfault s hs t l hl)
      exact ⟨C.bucket l, if_pos hp, hu⟩

end ChainCalls

/-! ### The hash tables -/

namespace LockHashMap
variable [BEq K] {L : Lang}

def Pc.place : Pc V → Place
  | .lock => .lock
  | .readHead => .readHead
  | .visit prev current => .visit prev current
  | .advance current => .advance current
  | .unlink prev current => .unlink prev current
  | .readOld _ _ => .finish 2
  | .storeHead _ | .storeNext _ _ | .storeValue _ _ _ | .readValue _ | .readRemoved _ => .finish 1
  | .unlock _ => .finish 0
  | .returned _ => .returned
  | .fault => .fault

theorem step_move {H : Hash L K} {NumBuckets : ℕ} {s s' : Store τ K V} {me : τ} {l l' : Local K V}
    (hstep : step H NumBuckets me s l () = some (s', l')) :
    l'.op = l.op ∧ Place.Move me (getBucketIndexOfKey H NumBuckets l.op.key) s s' l.pc.place l'.pc.place := by
  obtain ⟨op, pc⟩ := l
  cases pc with
  | lock =>
    simp only [step] at hstep
    repeat' split at hstep
    all_goals cases hstep
    · exact ⟨rfl, .lock ‹_›⟩
    · exact ⟨rfl, .fault (by simp [Pc.place])⟩
  | readHead =>
    simp only [step] at hstep
    repeat' split at hstep
    all_goals cases hstep
    · exact ⟨rfl, .first⟩
    · exact ⟨rfl, .empty (Nat.le_refl 1)⟩
    · exact ⟨rfl, .empty (Nat.zero_le 1)⟩
  | storeHead value =>
    cases hstep
    exact ⟨rfl, .storeHead⟩
  | visit prev current =>
    simp only [step] at hstep
    repeat' split at hstep
    all_goals cases hstep
    · exact ⟨rfl, .fault (by simp [Pc.place])⟩
    · exact ⟨rfl, .found (Nat.le_succ 1)⟩
    · exact ⟨rfl, .found (Nat.le_refl 2)⟩
    · exact ⟨rfl, .found (Nat.le_succ 1)⟩
    · exact ⟨rfl, .delete⟩
    · exact ⟨rfl, .other⟩
  | advance current =>
    simp only [step] at hstep
    repeat' split at hstep
    all_goals cases hstep
    · exact ⟨rfl, .fault (by simp [Pc.place])⟩
    · exact ⟨rfl, .next ‹_› ‹_›⟩
    · exact ⟨rfl, .last (Nat.le_refl 1)⟩
    · exact ⟨rfl, .last (Nat.zero_le 1)⟩
  | storeNext current value =>
    simp only [step] at hstep
    split at hstep <;> cases hstep
    · exact ⟨rfl, .fault (by simp [Pc.place])⟩
    · exact ⟨rfl, .storeNext ‹_›⟩
  | readOld current value | readValue current | readRemoved current =>
    simp only [step] at hstep
    split at hstep <;> cases hstep
    · exact ⟨rfl, .fault (by simp [Pc.place])⟩
    · exact ⟨rfl, .read⟩
  | storeValue current value old =>
    simp only [step] at hstep
    split at hstep <;> cases hstep
    · exact ⟨rfl, .fault (by simp [Pc.place])⟩
    · exact ⟨rfl, .store ‹_›⟩
  | unlink prev current =>
    simp only [step] at hstep
    repeat' split at hstep
    all_goals cases hstep
    · exact ⟨rfl, .fault (by simp [Pc.place])⟩
    · exact ⟨rfl, .fault (by simp [Pc.place])⟩
    · exact ⟨rfl, .unlink ‹_› ‹_› (Nat.zero_le 1)⟩
    · exact ⟨rfl, .unlink ‹_› ‹_› (Nat.le_refl 1)⟩
  | unlock r =>
    cases hstep
    exact ⟨rfl, .unlock⟩
  | returned r | fault => cases hstep

/-- A call of `LockHashMap` goes along the chain of its key's bucket. -/
def chainCalls (τ V : Type*) (H : Hash L K) (NumBuckets : ℕ) : ChainCalls (implementation τ V H NumBuckets) where
  place := fun l => l.pc.place
  bucket := fun l => getBucketIndexOfKey H NumBuckets l.op.key
  initial := rfl
  start := fun _ => .inr rfl
  step := fun me s l s' l' hstep => by
    obtain ⟨hop, hmove⟩ := step_move hstep
    exact ⟨by rw [hop], hmove⟩
  stuck := fun me s l hstep hres hfault => by
    obtain ⟨op, pc⟩ := l
    have hstep : step H NumBuckets me s ⟨op, pc⟩ () = none := hstep
    cases pc with
    | lock =>
      refine ⟨rfl, ?_⟩
      simp only [step] at hstep
      split at hstep
      · cases hm : s.mutex (getBucketIndexOfKey H NumBuckets op.key) with
        | some u => exact ⟨u, rfl⟩
        | none => simp [Store.tryAcquire, hm] at hstep
      · cases hstep
    | returned r => cases hres
    | fault => exact absurd rfl hfault
    | storeHead value | unlock r => cases hstep
    | _ =>
      simp only [step] at hstep
      repeat' split at hstep
      all_goals cases hstep
  result := fun l r hr => by
    obtain ⟨op, pc⟩ := l
    cases pc with
    | returned r => rfl
    | _ => cases hr

end LockHashMap

end ParSweet.Maps

namespace ParSweet.Sets.LockHashSet
open Concurrent Maps

variable {τ T : Type*} [BEq T] {H : Hash .cpp T} {NumBuckets : BitVec 64} {s s' : Maps.Store τ T Unit} {me : τ}
  {l l' : Local T}

def Pc.place : Pc T → Place
  | .getIndex => .start
  | .lock => .lock
  | .readHead => .readHead
  | .visit prev current => .visit prev current
  | .advance current => .advance current
  | .unlink prev current => .unlink prev current
  | .storeHead | .storeNext _ | .readVal _ => .finish 1
  | .unlock _ => .finish 0
  | .returned _ => .returned
  | .fault => .fault

theorem step_move (hstep : step H NumBuckets me s l () = some (s', l')) :
    l'.op = l.op ∧ Place.Move me (bucketOf H NumBuckets l.op.element) s s' l.pc.place l'.pc.place := by
  obtain ⟨op, pc⟩ := l
  cases pc with
  | getIndex =>
    simp only [step] at hstep
    split at hstep <;> cases hstep
    · exact ⟨rfl, .fault (by simp [Pc.place])⟩
    · exact ⟨rfl, .start⟩
  | lock =>
    simp only [step] at hstep
    repeat' split at hstep
    all_goals cases hstep
    · exact ⟨rfl, .lock ‹_›⟩
    · exact ⟨rfl, .fault (by simp [Pc.place])⟩
  | readHead =>
    simp only [step] at hstep
    repeat' split at hstep
    all_goals cases hstep
    · exact ⟨rfl, .first⟩
    · exact ⟨rfl, .empty (Nat.le_refl 1)⟩
    · exact ⟨rfl, .empty (Nat.zero_le 1)⟩
  | storeHead =>
    cases hstep
    exact ⟨rfl, .storeHead⟩
  | visit prev current =>
    simp only [step] at hstep
    repeat' split at hstep
    all_goals cases hstep
    · exact ⟨rfl, .fault (by simp [Pc.place])⟩
    · exact ⟨rfl, .found (Nat.zero_le 2)⟩
    · exact ⟨rfl, .delete⟩
    · exact ⟨rfl, .found (Nat.zero_le 2)⟩
    · exact ⟨rfl, .found (Nat.le_succ 1)⟩
    · exact ⟨rfl, .other⟩
  | advance current =>
    simp only [step] at hstep
    repeat' split at hstep
    all_goals cases hstep
    · exact ⟨rfl, .fault (by simp [Pc.place])⟩
    · exact ⟨rfl, .next ‹_› ‹_›⟩
    · exact ⟨rfl, .last (Nat.le_refl 1)⟩
    · exact ⟨rfl, .last (Nat.zero_le 1)⟩
  | storeNext current =>
    simp only [step] at hstep
    split at hstep <;> cases hstep
    · exact ⟨rfl, .fault (by simp [Pc.place])⟩
    · exact ⟨rfl, .storeNext ‹_›⟩
  | readVal current =>
    simp only [step] at hstep
    split at hstep <;> cases hstep
    · exact ⟨rfl, .fault (by simp [Pc.place])⟩
    · exact ⟨rfl, .read⟩
  | unlink prev current =>
    simp only [step] at hstep
    repeat' split at hstep
    all_goals cases hstep
    · exact ⟨rfl, .fault (by simp [Pc.place])⟩
    · exact ⟨rfl, .fault (by simp [Pc.place])⟩
    · exact ⟨rfl, .unlink ‹_› ‹_› (Nat.zero_le 1)⟩
  | unlock r =>
    cases hstep
    exact ⟨rfl, .unlock⟩
  | returned r | fault => cases hstep

/-- So does a call of `LockHashSet`. -/
def chainCalls (τ : Type*) (H : Hash .cpp T) (NumBuckets : BitVec 64) : ChainCalls (implementation τ H NumBuckets) where
  place := fun l => l.pc.place
  bucket := fun l => bucketOf H NumBuckets l.op.element
  initial := rfl
  start := fun _ => .inl rfl
  step := fun me s l s' l' hstep => by
    obtain ⟨hop, hmove⟩ := step_move hstep
    exact ⟨by rw [hop], hmove⟩
  stuck := fun me s l hstep hres hfault => by
    obtain ⟨op, pc⟩ := l
    have hstep : step H NumBuckets me s ⟨op, pc⟩ () = none := hstep
    cases pc with
    | lock =>
      refine ⟨rfl, ?_⟩
      simp only [step] at hstep
      split at hstep
      · cases hm : s.mutex (bucketOf H NumBuckets op.element) with
        | some u => exact ⟨u, rfl⟩
        | none => simp [Maps.Store.tryAcquire, hm] at hstep
      · cases hstep
    | returned r => cases hres
    | fault => exact absurd rfl hfault
    | storeHead | unlock r => cases hstep
    | _ =>
      simp only [step] at hstep
      repeat' split at hstep
      all_goals cases hstep
  result := fun l r hr => by
    obtain ⟨op, pc⟩ := l
    cases pc with
    | returned r => rfl
    | _ => cases hr

theorem neverFaults [EquivBEq T] [DecidableEq τ] (H : Hash .cpp T) (hN : 2 ≤ NumBuckets.toNat) :
    NeverFaults (implementation τ H NumBuckets) fun l => l.pc.place = .fault := by
  intro s hs t l hl hf
  obtain ⟨op, pc⟩ := l
  have hpc : pc ≠ .fault := never_faults H hN hs hl
  cases pc with
  | fault => exact hpc rfl
  | _ => cases hf

end ParSweet.Sets.LockHashSet

namespace ParSweet.Maps
open Concurrent Sets

variable {τ K V : Type*} [BEq K] {L : Lang} {NumBuckets : ℕ}

theorem SetBasedMap.routed (H : Hash .cpp K) (hN : 2 ≤ NumBuckets) (op : MapOp K V) :
    (SetBasedMap.routing V H NumBuckets).index op ≠ none := by
  simp [SetBasedMap.routing, SetBasedMap.bucketOf, index_nonneg, index_lt hN]

theorem JavaSetBasedMap.routed {H : Hash .java K} (hindex : ∀ k, 0 ≤ H.hash k ∨ 15 ∣ H.hash k)
    (op : MapOp K (Option V)) : (JavaSetBasedMap.routing V H).index op ≠ none := by
  have hlt : getBucketIndexOfKey H JavaSetBasedMap.N_BUCKETS op.key < JavaSetBasedMap.N_BUCKETS := index_lt (by decide)
  have hnonneg : 0 ≤ getBucketIndexOfKey H JavaSetBasedMap.N_BUCKETS op.key := LockHashMap.index_nonneg_iff.mpr (hindex op.key)
  simp [JavaSetBasedMap.routing, JavaSetBasedMap.bucketOf, hlt, hnonneg]

variable [EquivBEq K] [DecidableEq τ]

theorem LockHashMap.neverFaults {H : Hash L K} (hindex : ∀ k, 0 ≤ getBucketIndexOfKey H NumBuckets k)
    (hN : 2 ≤ NumBuckets) :
    NeverFaults (LockHashMap.implementation τ V H NumBuckets) fun l => l.pc.place = .fault := by
  intro s hs t l hl hf
  obtain ⟨op, pc⟩ := l
  have hpc : pc ≠ .fault := fun hp => fault_outOfBounds hs hl hp ⟨hindex op.key, index_lt hN⟩
  cases pc with
  | fault => exact hpc rfl
  | _ => cases hf

/-- **Every call of a hash table or of a map made of sets returns**, in whatever order the threads go on, unless
new calls are begun again and again: in Java where each key has a bucket, in C++ over the set that
does without `std::lock`. -/
theorem hashTables_callsEnd (τ K V : Type*) [BEq K] [EquivBEq K] [DecidableEq τ] [Fintype τ] :
    (∀ (H : Hash .cpp K) (NumBuckets : ℕ), 2 ≤ NumBuckets →
      (LockHashMap.implementation τ V H NumBuckets).CallsEnd ∧ (SetBasedMap.fineGrained τ V H NumBuckets).CallsEnd) ∧
    (∀ (H : Hash .cpp K) (NumBuckets : BitVec 64), 2 ≤ NumBuckets.toNat →
      (LockHashSet.implementation τ H NumBuckets).CallsEnd) ∧
    ∀ H : Hash .java K, (∀ k, 0 ≤ H.hash k ∨ 15 ∣ H.hash k) →
      (LockHashMap.implementation τ V H LockHashMap.N_BUCKETS).CallsEnd ∧
      (JavaSetBasedMap.implementation (FineGrainedSet.implementation τ (SetBasedMap.hashNode V H)) H).CallsEnd ∧
      (JavaSetBasedMap.implementation (LazySet.implementation τ (SetBasedMap.hashNode V H)) H).CallsEnd ∧
      (OptimisticSet.MaxUnique H →
        (JavaSetBasedMap.implementation (OptimisticSet.implementation τ (SetBasedMap.hashNode V H)) H).CallsEnd) := by
  refine ⟨fun H NumBuckets hN => ⟨?_, ?_⟩, fun H NumBuckets hN => ?_, fun H hindex => ⟨?_, ?_, ?_, fun hmax => ?_⟩⟩
  · exact (LockHashMap.chainCalls τ V H NumBuckets).callsEnd (LockHashMap.neverFaults (fun _ => index_nonneg) hN)
  · exact (FineGrainedSet.cpp_callsEnd _).route (SetBasedMap.routed H hN)
  · exact (LockHashSet.chainCalls τ H NumBuckets).callsEnd (LockHashSet.neverFaults H hN)
  · have hnonneg := fun k => LockHashMap.index_nonneg_iff.mpr (hindex k)
    exact (LockHashMap.chainCalls τ V H _).callsEnd (LockHashMap.neverFaults hnonneg (by decide))
  · exact (FineGrainedSet.java_callsEnd _).route (JavaSetBasedMap.routed hindex)
  · exact (LazySet.callsEnd _).route (JavaSetBasedMap.routed hindex)
  · have hnodes : OptimisticSet.MaxUnique (SetBasedMap.hashNode V H) := fun v w hv hw => hmax v.key w.key hv hw
    exact (OptimisticSet.callsEnd _ hnodes).route (JavaSetBasedMap.routed hindex)

/-- Two threads, and keys that collide modulo 16. -/
theorem hashTables_callsEnd_residue :
    ((LockHashMap.implementation (Fin 2) ℕ (residueHash .cpp) 16).CallsEnd ∧
      (SetBasedMap.fineGrained (Fin 2) ℕ (residueHash .cpp) 16).CallsEnd) ∧
    (LockHashSet.implementation (Fin 2) (residueHash .cpp) 16).CallsEnd ∧
    (LockHashMap.implementation (Fin 2) ℕ (residueHash .java) LockHashMap.N_BUCKETS).CallsEnd := by
  have h := hashTables_callsEnd (Fin 2) ℕ ℕ
  refine ⟨h.1 (residueHash .cpp) 16 (by decide), h.2.1 (residueHash .cpp) 16 (by decide),
    (h.2.2 (residueHash .java) fun k => .inl ?_).1⟩
  show (0 : Int) ≤ k % 16
  omega

end ParSweet.Maps
