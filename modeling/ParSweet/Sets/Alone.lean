import ParSweet.Concurrent.Termination
import ParSweet.Sets.Walk

/-! Calls that run alone.

A store on which no call is running is `Quiet`: no mutex is held and no node of the
list is marked. From there a walk with nobody else about reaches a pair of the list
at which it stops, both its mutexes are free, and the callback comes to its end; it
leaves the store quiet again. -/
namespace ParSweet.Sets
open Concurrent

variable {τ T : Type*} [BEq T] {L : Lang}

/-- No call is running. -/
structure Quiet (s : Store τ T) : Prop where
  free : ∀ n, s.mutex n = none
  unmarked : ∀ n, s.Live n → s.deleted n = false

omit [BEq T] in
theorem initial_quiet : Quiet (Store.initial L : Store τ T) := ⟨fun _ => rfl, fun _ _ => rfl⟩

variable {H : Hash L T} {markable : Bool} {s s' : Store τ T} {me : τ} {op : SetOp T} {t : T}
  {p c : NodeId}

/-! ### The walk -/

/-- A step of the walk that only moves it. -/
def Walk.Moves (H : Hash L T) (me : τ) (s : Store τ T) (t : T) (w w' : Walk) : Prop :=
  w.step H me s t true = some (s, .on w')

/-- No step leads back to the head. -/
theorem Walk.step_ne_start {w w' : Walk} {choice : Bool} (h : w.step H me s t choice = some (s', .on w')) :
    w' ≠ .start := by
  rintro rfl
  cases w with
  | lock p c held =>
    obtain ⟨q, _, hq⟩ := Option.map_eq_some_iff.mp h
    grind
  | _ =>
    simp only [Walk.step] at h
    grind

/-- What only moves the walk is none of `std::lock`'s choices. -/
theorem Walk.Moves.any_choice {w w' : Walk} (h : Walk.Moves H me s t w w') (choice : Bool) :
    w.step H me s t choice = some (s, .on w') := by
  cases w with
  | lock p c held =>
    cases held with
    | neither =>
      -- A mutex that has just been taken was free before.
      simp only [Walk.Moves, Walk.step, lockBoth, or_true, if_true, Option.map_map, Option.map_eq_some_iff,
        Function.comp_apply, Prod.mk.injEq] at h
      obtain ⟨s₁, ha, rfl, _⟩ := h
      have hfree := (Store.tryAcquire_eq_some.mp ha).1
      rw [Store.tryAcquire_held ha] at hfree
      cases hfree
    | _ => exact h
  | _ => exact h

/-- **A walk that runs alone stops** at a pair of the list. -/
theorem walk_alone (hinv : ListInv H markable s) (me : τ) (t : T) :
    ∃ p c, Relation.ReflTransGen (Walk.Moves H me s t) .start (.lock p c .neither) ∧
      Position H s t p c ∧ Stopped H s t c ∧ s.Live p ∧ s.next p = some c := by
  -- The way from the current node to the tail gets shorter.
  have hrest : ∀ c, Links.Reaches s.next c tail → ∀ p, Position H s t p c → s.Live p →
      s.next p = some c → ∃ p' c',
        Relation.ReflTransGen (Walk.Moves H me s t) (.test p c) (.lock p' c' .neither) ∧
          Position H s t p' c' ∧ Stopped H s t c' ∧ s.Live p' ∧ s.next p' = some c' := by
    intro c hr
    induction hr using Relation.ReflTransGen.head_induction_on with
    | refl =>
      intro p pos hl hn
      have hnone : (s.node tail).next = none := (hinv.next_none tail (hinv.live_lt hinv.tail_live)).mpr rfl
      exact ⟨p, tail, .single (by simp [Walk.Moves, Walk.step, hnone]), pos, .inl rfl, hl, hn⟩
    | @head c d hd _ ih =>
      intro p pos hl hn
      have hd' : (s.node c).next = some d := hd
      by_cases hk : keepWalking H t (s.node c) = true
      · obtain ⟨p', c', hw, h⟩ := ih c (pos.advance hinv hk hd) (hl.tail hn) hd
        have htest : Walk.Moves H me s t (.test p c) (.advance p c) := by
          simp [Walk.Moves, Walk.step, hd', hk]
        have hadvance : Walk.Moves H me s t (.advance p c) (.test c d) := by
          simp [Walk.Moves, Walk.step, hd']
        exact ⟨p', c', .head htest (.head hadvance hw), h⟩
      · exact ⟨p, c, .single (by simp [Walk.Moves, Walk.step, hk]), pos,
          .inr (Bool.of_not_eq_true hk), hl, hn⟩
  obtain ⟨c, hc⟩ := hinv.exists_next hinv.bounded.head_lt (by decide)
  have hct : Links.Reaches s.next c tail :=
    (hinv.tail_live.of_next hc).resolve_left (by decide)
  obtain ⟨p', c', hw, h⟩ := hrest c hct head (.start hinv hc) .refl hc
  have hstart : Walk.Moves H me s t .start (.test head c) := by
    simp [Walk.Moves, Walk.step, show (s.node head).next = some c from hc]
  exact ⟨p', c', .head hstart hw, h⟩

/-- Both mutexes of a pair taken. -/
def Store.lockPair (s : Store τ T) (me : τ) (p c : NodeId) : Store τ T :=
  {s with mutex := Function.update (Function.update s.mutex p (some me)) c (some me)}

/-- On a quiet store the two mutexes are there for the taking. -/
theorem Quiet.lock (hq : Quiet s) (H : Hash L T) (me : τ) (t : T) (hne : p ≠ c) :
    ∃ s₁, (Walk.lock p c .neither).step H me s t true = some (s₁, .on (.lock p c .predecessor)) ∧
      (Walk.lock p c .predecessor).step H me s₁ t true = some (s.lockPair me p c, .locked p c) := by
  refine ⟨{s with mutex := Function.update s.mutex p (some me)}, ?_, ?_⟩
  · simp [Walk.step, lockBoth, Store.tryAcquire, hq.free p]
  · simp [Walk.step, lockBoth, Store.tryAcquire, hq.free c, hne.symm, Store.lockPair]

/-- So they are in whichever order they are taken. -/
theorem Quiet.lock_any (hq : Quiet s) (H : Hash L T) (me : τ) (t : T) (hne : p ≠ c) (choice : Bool) :
    ∃ s₁ held, (Walk.lock p c .neither).step H me s t choice = some (s₁, .on (.lock p c held)) ∧
      ∀ choice', (Walk.lock p c held).step H me s₁ t choice' = some (s.lockPair me p c, .locked p c) := by
  by_cases hfirst : L = .java ∨ choice = true
  · refine ⟨{s with mutex := Function.update s.mutex p (some me)}, .predecessor, ?_, fun choice' => ?_⟩
    · simp [Walk.step, lockBoth, hfirst, Store.tryAcquire, hq.free p]
    · simp [Walk.step, lockBoth, Store.tryAcquire, hq.free c, hne.symm, Store.lockPair]
  · refine ⟨{s with mutex := Function.update s.mutex c (some me)}, .current, ?_, fun choice' => ?_⟩
    · simp [Walk.step, lockBoth, hfirst, Store.tryAcquire, hq.free c]
    · simp [Walk.step, lockBoth, Store.tryAcquire, hq.free p, hne, Store.lockPair, Function.update_comm hne]

/-- Locking the pair leaves the list as it is. -/
theorem Quiet.lockPair_inv [EquivBEq T] (hq : Quiet s) (hinv : ListInv H markable s) (hne : p ≠ c) :
    ListInv H markable (s.lockPair me p c) ∧
      ∀ {t}, Position H s t p c → Position H (s.lockPair me p c) t p c := by
  have h₁ : Effect H markable me s {s with mutex := Function.update s.mutex p (some me)} :=
    .acquire (Store.tryAcquire_eq_some.mpr ⟨hq.free p, rfl⟩)
  have h₂ : Effect H markable me {s with mutex := Function.update s.mutex p (some me)}
      (s.lockPair me p c) :=
    .acquire (Store.tryAcquire_eq_some.mpr ⟨by simp [hne.symm, hq.free c], rfl⟩)
  have hinv₁ := h₁.listInv hinv
  exact ⟨h₂.listInv hinv₁, fun pos => (pos.stable hinv h₁).stable hinv₁ h₂⟩

theorem Quiet.lockPair_ready [EquivBEq T] (hq : Quiet s) (hinv : ListInv H markable s)
    (pos : Position H s t p c) (hs : Stopped H s t c) (hl : s.Live p) (hn : s.next p = some c) :
    Ready H (s.lockPair me p c) me t p c where
  pos := (hq.lockPair_inv hinv pos.order.ne).2 pos
  sec := ⟨by simp [Store.lockPair, pos.order.ne], by simp [Store.lockPair], hl, hn⟩
  stop := hs

/-! ### Calls that begin with the walk -/

section Walks
variable {Op Res loc : Type*} {I : Implementation τ Op Res (Store τ T) loc Bool} {walk : Walk → loc}
  {locked : NodeId → NodeId → loc}

/-- A call that walks, `walk w` being where it stands on the walk, and then stands at `locked`. -/
structure Walks (I : Implementation τ Op Res (Store τ T) loc Bool) (H : Hash L T) (me : τ) (t : T) (walk : Walk → loc)
    (locked : NodeId → NodeId → loc) : Prop where
  result : ∀ w, I.result (walk w) = none
  on : ∀ {s s' w w' choice}, w.step H me s t choice = some (s', .on w') →
    I.step me s (walk w) choice = some (s', walk w')
  stop : ∀ {s s' w p c choice}, w.step H me s t choice = some (s', .locked p c) →
    I.step me s (walk w) choice = some (s', locked p c)
  start : ∀ w, walk w = walk .start → w = .start
  passes : ∀ p c, locked p c ≠ walk .start

/-- The walk is none of `std::lock`'s choices, and does not start over. -/
theorem Walks.surely (W : Walks I H me t walk locked) {w w' : Walk}
    (h : Relation.ReflTransGen (Walk.Moves H me s t) w w') :
    Relation.ReflTransGen (I.Forced me (walk .start)) (s, walk w) (s, walk w') := by
  induction h with
  | refl => exact .refl
  | tail _ hw ih =>
    refine ih.tail ⟨W.result _, fun c => W.on (hw.any_choice c), fun hstart => ?_⟩
    exact Walk.step_ne_start hw (W.start _ hstart)

/-- On a quiet store both mutexes of the pair are free. -/
theorem Walks.alone_lock (W : Walks I H me t walk locked) (hq : Quiet s) (hne : p ≠ c) :
    I.Alone me (s, walk (.lock p c .neither)) (s.lockPair me p c, locked p c) := by
  obtain ⟨s₁, hlock₁, hlock₂⟩ := hq.lock H me t hne
  have h₁ : I.Alone me (s, walk (.lock p c .neither)) (s₁, walk (.lock p c .predecessor)) := .single ⟨true, W.on hlock₁⟩
  exact h₁.step true _ (W.stop hlock₂)

/-- Whichever of the two mutexes comes first, the call goes on to what follows on the walk. -/
theorem Walks.ends (W : Walks I H me t walk locked) {P : Store τ T → Prop} (hq : Quiet s) (hne : p ≠ c)
    (hwalk : Relation.ReflTransGen (Walk.Moves H me s t) .start (.lock p c .neither))
    (h : I.Ends me (walk .start) P (s.lockPair me p c) (locked p c)) :
    I.Ends me (walk .start) P s (walk .start) := by
  refine .surely (W.surely hwalk) ?_
  have hfirst : ∀ choice, ∃ s₁ held, I.step me s (walk (.lock p c .neither)) choice = some (s₁, walk (.lock p c held)) ∧
      ∀ choice', I.step me s₁ (walk (.lock p c held)) choice' = some (s.lockPair me p c, locked p c) := by
    intro choice
    obtain ⟨s₁, held, h₁, h₂⟩ := hq.lock_any H me t hne choice
    exact ⟨s₁, held, W.on h₁, fun choice' => W.stop (h₂ choice')⟩
  obtain ⟨s₁, held, h₁, _⟩ := hfirst true
  refine .step (W.result _) ⟨true, _, h₁⟩ (fun choice d hd => ?_) fun choice d hd => ?_
  all_goals
    obtain ⟨s₂, held₂, h₂, hnext⟩ := hfirst choice
    obtain rfl := Option.some.inj (h₂.symm.trans hd)
  · intro hstart
    cases W.start _ hstart
  · exact .forced ⟨W.result _, hnext, W.passes p c⟩ h

end Walks

omit [BEq T] in
/-- Unlocking the pair makes the store quiet again. -/
theorem Quiet.unlockPair (hq : Quiet s) (hm : s'.mutex = (s.lockPair me p c).mutex)
    (hd : ∀ n, s'.Live n → s'.deleted n = false) : Quiet ((s'.release c).release p) where
  free := fun n => by
    by_cases hp : n = p
    · simp [Store.release, hp]
    · by_cases hc : n = c
      · subst hc
        simp [Store.release, hp]
      · simp [Store.release, hp, hc, hm, Store.lockPair, hq.free n]
  unmarked := hd

/-! ### The callback -/

/-- How far a callback is from its end. -/
def Callback.rank : Callback T → ℕ
  | .enter => 4
  | .addLoad _ => 3
  | .addStore _ _ => 2
  | .addLink _ => 1
  | .mark => 3
  | .removeLoad => 2
  | .removeStore _ => 1

theorem Callback.step_rank {cb cb' : Callback T}
    (h : cb.step H markable s op p c = (s', .inl cb')) : cb'.rank < cb.rank := by
  cases cb with
  | enter =>
    cases op with
    | contains t => simp [Callback.step] at h
    | getEqual t => simp [Callback.step] at h
    | add t =>
      by_cases hit : (some t == (s.node c).value) = true
      · simp [Callback.step, hit] at h
      · simp only [Callback.step, hit] at h
        cases L <;> cases (Prod.mk.inj h).2 <;> simp [Callback.rank]
    | remove t =>
      by_cases hit : (some t == (s.node c).value) = true
      · simp only [Callback.step, hit, if_true, Prod.mk.injEq, Sum.inl.injEq] at h
        obtain ⟨_, rfl⟩ := h
        cases markable <;> simp [Callback.rank]
      · simp [Callback.step, hit] at h
  | addLink v => simp [Callback.step] at h
  | removeStore succ => simp [Callback.step] at h
  | _ =>
    simp only [Callback.step, Prod.mk.injEq, Sum.inl.injEq] at h
    obtain ⟨_, rfl⟩ := h
    simp [Callback.rank]

/-- The node a callback has marked is about to be unlinked. -/
def Callback.Unlinks : Callback T → Prop
  | .removeLoad => True
  | .removeStore _ => True
  | _ => False

/-- Nothing of the list is marked, but for the node the callback is unlinking. -/
def MarkedAt (s : Store τ T) (c : NodeId) (cb : Callback T) : Prop :=
  ∀ n, s.Live n → s.deleted n = true → n = c ∧ cb.Unlinks

omit [BEq T] in
theorem Quiet.marked_lockPair (hq : Quiet s) : MarkedAt (s.lockPair me p c) c .enter := by
  intro n hl hd
  rw [show (s.lockPair me p c).deleted n = false from hq.unmarked n hl] at hd
  cases hd

/-- Callbacks leave the mutexes alone. -/
theorem callback_mutex {cb : Callback T} {r : Callback T ⊕ SetRes T} (hstep : cb.step H markable s op p c = (s', r)) :
    s'.mutex = s.mutex := by
  have hs := congrArg Prod.fst hstep
  subst hs
  cases cb with
  | enter =>
    cases op <;> simp only [Callback.step]
    · split
      · rfl
      · cases L <;> rfl
    · split <;> rfl
  | _ => rfl

/-- What is marked in the list after a step of a callback was marked before and is not about to be
unlinked by it, or is the node it is about to unlink. -/
theorem callback_marked {cb : Callback T} {r : Callback T ⊕ SetRes T} {n : NodeId} (hinv : ListInv H markable s)
    (hr : Ready H s me op.element p c) (hcb : CallbackAt H markable s op c cb)
    (hstep : cb.step H markable s op p c = (s', r)) (hl : s'.Live n) (hd : s'.deleted n = true) :
    (s.Live n ∧ s.deleted n = true ∧ (cb.Unlinks → n ≠ c)) ∨ (n = c ∧ ∃ cb', r = .inl cb' ∧ cb'.Unlinks) := by
  cases cb with
  | enter =>
    have hs : s' = s := by
      have := congrArg Prod.fst hstep
      cases op <;> simp only [Callback.step] at this <;> (try split at this) <;>
        (try cases L) <;> exact this.symm
    subst hs
    exact .inl ⟨hl, hd, False.elim⟩
  | addLoad v | addStore v succ =>
    simp only [Callback.step, Prod.mk.injEq] at hstep
    obtain ⟨rfl, rfl⟩ := hstep
    exact .inl ⟨hl, hd, False.elim⟩
  | addLink v =>
    simp only [Callback.step, Prod.mk.injEq] at hstep
    obtain ⟨rfl, rfl⟩ := hstep
    obtain ⟨t, rfl, rfl, _⟩ := hcb
    rcases (hinv.live_publish hr.sec.live hr.sec.adjacent).mp hl with hl | rfl
    · exact .inl ⟨hl, by simpa [Store.publish, (hinv.live_lt hl).ne] using hd, False.elim⟩
    · simp [Store.publish] at hd
  | mark =>
    simp only [Callback.step, Prod.mk.injEq] at hstep
    obtain ⟨rfl, rfl⟩ := hstep
    by_cases hn : n = c
    · exact .inr ⟨hn, .removeLoad, rfl, trivial⟩
    · exact .inl ⟨hl, by simpa [Store.mark, hn] using hd, False.elim⟩
  | removeLoad =>
    simp only [Callback.step, Prod.mk.injEq] at hstep
    obtain ⟨rfl, rfl⟩ := hstep
    by_cases hn : n = c
    · exact .inr ⟨hn, _, rfl, trivial⟩
    · exact .inl ⟨hl, hd, fun _ => hn⟩
  | removeStore succ =>
    simp only [Callback.step, Prod.mk.injEq] at hstep
    obtain ⟨rfl, rfl⟩ := hstep
    obtain ⟨_, _, hnext, hne⟩ := hcb
    obtain ⟨e, rfl⟩ := Option.ne_none_iff_exists'.mp hne
    obtain ⟨hl, hnc⟩ := (hinv.live_setNext hr.sec.live hr.sec.adjacent hnext).mp hl
    exact .inl ⟨hl, hd, fun _ => hnc⟩

/-- One step of a callback that nobody disturbs, as far as marks are concerned. -/
theorem callback_marks {cb : Callback T} {r : Callback T ⊕ SetRes T} (hinv : ListInv H markable s)
    (hr : Ready H s me op.element p c) (hcb : CallbackAt H markable s op c cb)
    (hm : MarkedAt s c cb) (hstep : cb.step H markable s op p c = (s', r)) :
    match r with
    | .inl cb' => MarkedAt s' c cb'
    | .inr _ => ∀ n, s'.Live n → s'.deleted n = false := by
  have hmarked : ∀ n, s'.Live n → s'.deleted n = true → n = c ∧ ∃ cb', r = .inl cb' ∧ cb'.Unlinks := by
    intro n hl hd
    refine (callback_marked hinv hr hcb hstep hl hd).resolve_left ?_
    intro ⟨hl', hd', hne⟩
    obtain ⟨hn, hu⟩ := hm n hl' hd'
    exact hne hu hn
  cases r with
  | inl cb' =>
    intro n hl hd
    obtain ⟨hn, _, heq, hu⟩ := hmarked n hl hd
    cases heq
    exact ⟨hn, hu⟩
  | inr res =>
    refine fun n hl => Bool.of_not_eq_true fun hd => ?_
    obtain ⟨_, _, heq, _⟩ := hmarked n hl hd
    cases heq

/-- A step of the callback that does not end it. -/
def Callback.Moves (H : Hash L T) (markable : Bool) (op : SetOp T) (p c : NodeId)
    (a b : Store τ T × Callback T) : Prop :=
  a.2.step H markable a.1 op p c = (b.1, .inl b.2)

/-- **A callback comes to its end**, and leaves no mark in the list. -/
theorem callback_alone [EquivBEq T] {cb : Callback T} (hinv : ListInv H markable s)
    (hr : Ready H s me op.element p c) (hcb : CallbackAt H markable s op c cb)
    (hm : MarkedAt s c cb) :
    ∃ s₁ cb₁ s' r, Relation.ReflTransGen (Callback.Moves H markable op p c) (s, cb) (s₁, cb₁) ∧
      cb₁.step H markable s₁ op p c = (s', .inr r) ∧ s'.mutex = s.mutex ∧
      ∀ n, s'.Live n → s'.deleted n = false := by
  induction hk : cb.rank using Nat.strong_induction_on generalizing s cb with
  | _ k ih =>
    rcases hstep : cb.step H markable s op p c with ⟨s₁, cb₁ | r⟩
    · have hmutex := callback_mutex hstep
      have hm₁ : MarkedAt s₁ c cb₁ := callback_marks hinv hr hcb hm hstep
      obtain ⟨he, _, hr₁, hcb₁⟩ := callback_step hinv hr hcb hstep
      obtain ⟨s₂, cb₂, s', r, hmoves, hlast, hmutex', hclean⟩ :=
        ih cb₁.rank (hk ▸ Callback.step_rank hstep) (he.listInv hinv) hr₁ hcb₁ hm₁ rfl
      have hfirst : Callback.Moves H markable op p c (s, cb) (s₁, cb₁) := hstep
      exact ⟨s₂, cb₂, s', r, .head hfirst hmoves, hlast, hmutex'.trans hmutex, hclean⟩
    · exact ⟨s, cb, s₁, r, .refl, hstep, callback_mutex hstep, callback_marks hinv hr hcb hm hstep⟩

end ParSweet.Sets
