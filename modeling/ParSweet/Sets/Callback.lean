import ParSweet.Sets.Find

/-! The callbacks.

Whatever its discipline, `find` runs its callback on a pair that is locked, in the
list, adjacent, and at which the walk has stopped (`Ready`). From there on the
callback's steps are annotated one by one (`CallbackAt`); the step that ends it is
the moment its operation takes effect (`callback_step`). -/
namespace ParSweet.Sets
open Concurrent

variable {τ T : Type*} [BEq T] {L : Lang}
variable {H : Hash L T} {markable : Bool} {s s' : Store τ T} {me u : τ} {op : SetOp T} {p c : NodeId}

/-- What `find` promises its callback. -/
structure Ready (H : Hash L T) (s : Store τ T) (me : τ) (t : T) (p c : NodeId) : Prop where
  pos : Position H s t p c
  sec : Secured s me p c
  stop : Stopped H s t c

/-- Both mutexes are held, and they are two. -/
structure Locked (s : Store τ T) (me : τ) (p c : NodeId) : Prop where
  pred_held : s.mutex p = some me
  curr_held : s.mutex c = some me
  ne : p ≠ c

theorem Ready.locked {t : T} (h : Ready H s me t p c) : Locked s me p c :=
  ⟨h.sec.pred_held, h.sec.curr_held, h.pos.order.ne⟩

theorem Ready.member_iff {t : T} (h : Ready H s me t p c) (hinv : ListInv H markable s) :
    Member t s.elements ↔ (some t == (s.node c).value) = true :=
  h.pos.member_iff hinv h.sec.live h.sec.adjacent h.stop

theorem Ready.stable [EquivBEq T] {t : T} (h : Ready H s me t p c) (hinv : ListInv H markable s)
    (hne : me ≠ u) (he : Effect H markable u s s') : Ready H s' me t p c :=
  ⟨h.pos.stable hinv he, h.sec.stable hinv hne he, h.stop.stable h.pos.curr_lt he⟩

omit [BEq T] in
/-- The lemma for a store that differs in marks only. -/
theorem Secured.congr (h : Secured s me p c) (hnode : s'.node = s.node) (hm : s'.mutex = s.mutex) :
    Secured s' me p c := by
  obtain ⟨hnext, hlive, _, _⟩ := Store.congr_node hnode
  exact ⟨by rw [hm]; exact h.pred_held, by rw [hm]; exact h.curr_held, by rw [hlive]; exact h.live,
    by rw [hnext]; exact h.adjacent⟩

theorem Locked.stable (h : Locked s me p c) (hne : me ≠ u) (he : Effect H markable u s s') :
    Locked s' me p c :=
  ⟨he.mutex hne h.pred_held, he.mutex hne h.curr_held, h.ne⟩

omit [BEq T] in
theorem Store.release_other {n m : NodeId} (hne : m ≠ n) (h : s.mutex m = some me) :
    (s.release n).mutex m = some me := by
  simpa [Store.release, hne] using h

omit [BEq T] in
theorem Store.release_elements {n : NodeId} : (s.release n).elements = s.elements :=
  (Store.congr_node rfl).2.2.2

/-- Unlocking the current node leaves the predecessor locked. -/
theorem Locked.unlockCurrent (h : Locked s me p c) :
    Effect H markable me s (s.release c) ∧ (s.release c).elements = s.elements ∧
      (s.release c).mutex p = some me :=
  ⟨.release h.curr_held, Store.release_elements, Store.release_other h.ne h.pred_held⟩

/-! ### Inside a callback -/

/-- What is known at each point of a callback on a pair it may trust. -/
def CallbackAt (H : Hash L T) (markable : Bool) (s : Store τ T) (op : SetOp T) (c : NodeId) :
    Callback T → Prop
  | .enter => True
  | .addLoad v => ∃ t, op = .add t ∧ v = ⟨H.hash t, some t, none⟩ ∧ (some t == (s.node c).value) = false
  | .addStore v succ => ∃ t, op = .add t ∧ v = ⟨H.hash t, some t, none⟩ ∧ succ = some c ∧
      (some t == (s.node c).value) = false
  | .addLink v => ∃ t, op = .add t ∧ v = ⟨H.hash t, some t, some c⟩ ∧
      (some t == (s.node c).value) = false
  | .mark => ∃ t, op = .remove t ∧ (some t == (s.node c).value) = true
  | .removeLoad => (∃ t, op = .remove t ∧ (some t == (s.node c).value) = true) ∧
      (markable = true → s.deleted c = true)
  | .removeStore succ => (∃ t, op = .remove t ∧ (some t == (s.node c).value) = true) ∧
      (markable = true → s.deleted c = true) ∧ s.next c = succ ∧ succ ≠ none

/-- Nobody else changes what a callback knows. -/
theorem CallbackAt.stable [EquivBEq T] {cb : Callback T} (h : CallbackAt H markable s op c cb)
    (hr : Ready H s me op.element p c) (hne : me ≠ u) (he : Effect H markable u s s') :
    CallbackAt H markable s' op c cb := by
  have hval := (he.node_eq hr.pos.curr_lt).2
  have hdel : (markable = true → s.deleted c = true) → markable = true → s'.deleted c = true :=
    fun hd hm => he.deleted hr.pos.curr_lt (hd hm)
  cases cb <;> simp only [CallbackAt, hval] at h ⊢
  case addLoad => exact h
  case addStore => exact h
  case addLink => exact h
  case mark => exact h
  case removeLoad => exact ⟨h.1, hdel h.2⟩
  case removeStore succ =>
    exact ⟨h.1, hdel h.2.1, by rw [he.next_eq hne hr.sec.curr_held hr.pos.curr_lt]; exact h.2.2.1, h.2.2.2⟩

/-- Where the walk stops without finding `t`, the current node belongs behind it. -/
theorem Ready.lt_of_miss {t : T} (h : Ready H s me t p c) (hinv : ListInv H markable s)
    (hmiss : (some t == (s.node c).value) = false) : elementKey (H.hash t) < s.sortKey c := by
  by_cases hct : c = tail
  · subst hct
    exact Store.lt_tail _
  · rw [Store.sortKey_element (hinv.ne_head h.sec.adjacent) hct]
    refine elementKey_lt.mpr (lt_of_not_ge fun hle => ?_)
    have := keepWalking_iff.mpr ⟨hle, fun _ => hmiss⟩
    rw [h.stop.resolve_left hct] at this
    cases this

/-- **One step of a callback on a pair it may trust**: it goes on and nothing has
happened to the set, or it ends, and its operation takes effect in that step. -/
theorem callback_step [EquivBEq T] {cb : Callback T} {r : Callback T ⊕ SetRes T}
    (hinv : ListInv H markable s) (hr : Ready H s me op.element p c)
    (hcb : CallbackAt H markable s op c cb)
    (hstep : cb.step H markable s op p c = (s', r)) :
    Effect H markable me s s' ∧
      match r with
      | .inl cb' => s'.elements = s.elements ∧ Ready H s' me op.element p c ∧
          CallbackAt H markable s' op c cb'
      | .inr res => SetApply op s.elements res s'.elements ∧ Locked s' me p c := by
  have hmem := hr.member_iff hinv
  cases cb with
  | enter =>
    cases op with
    | contains t =>
      simp only [Callback.step, Prod.mk.injEq] at hstep
      obtain ⟨rfl, rfl⟩ := hstep
      exact ⟨.same, .contains hmem.symm, hr.locked⟩
    | getEqual t =>
      simp only [Callback.step, Prod.mk.injEq] at hstep
      obtain ⟨rfl, rfl⟩ := hstep
      refine ⟨.same, ?_, hr.locked⟩
      by_cases hit : (some t == (s.node c).value) = true
      · obtain ⟨hh, ht, _⟩ := hinv.key_of_hit hr.pos.curr_lt hit
        obtain ⟨x, hx, _⟩ := hinv.element c hr.pos.curr_lt hh ht
        rw [if_pos hit, hx]
        exact .getEqual ⟨c, hr.sec.live.tail hr.sec.adjacent, hx⟩ (by rw [hx] at hit; exact hit)
      · rw [if_neg hit]
        exact .getEqualMissing (fun hm => hit (hmem.mp hm))
    | add t =>
      by_cases hit : (some t == (s.node c).value) = true
      · simp only [Callback.step, hit, if_true, Prod.mk.injEq] at hstep
        obtain ⟨rfl, rfl⟩ := hstep
        exact ⟨.same, .addPresent (hmem.mpr hit), hr.locked⟩
      · simp only [Callback.step, hit] at hstep
        cases L <;> obtain ⟨rfl, rfl⟩ := Prod.mk.inj hstep
        · exact ⟨.same, rfl, hr, t, rfl, rfl, Bool.of_not_eq_true hit⟩
        · exact ⟨.same, rfl, hr, t, rfl, rfl, rfl, Bool.of_not_eq_true hit⟩
    | remove t =>
      by_cases hit : (some t == (s.node c).value) = true
      · simp only [Callback.step, hit, if_true, Prod.mk.injEq] at hstep
        obtain ⟨rfl, rfl⟩ := hstep
        refine ⟨.same, rfl, hr, ?_⟩
        cases markable
        · exact ⟨⟨t, rfl, hit⟩, fun h => absurd h (by decide)⟩
        · exact ⟨t, rfl, hit⟩
      · simp only [Callback.step, hit] at hstep
        obtain ⟨rfl, rfl⟩ := Prod.mk.inj hstep
        exact ⟨.same, .removeMissing (fun hm => hit (hmem.mp hm)), hr.locked⟩
  | addLoad v =>
    simp only [Callback.step, Prod.mk.injEq] at hstep
    obtain ⟨rfl, rfl⟩ := hstep
    obtain ⟨t, hop, hv, hmiss⟩ := hcb
    exact ⟨.same, rfl, hr, t, hop, hv, hr.sec.adjacent, hmiss⟩
  | addStore v succ =>
    simp only [Callback.step, Prod.mk.injEq] at hstep
    obtain ⟨rfl, rfl⟩ := hstep
    obtain ⟨t, hop, rfl, rfl, hmiss⟩ := hcb
    exact ⟨.same, rfl, hr, t, hop, rfl, hmiss⟩
  | addLink v =>
    simp only [Callback.step, Prod.mk.injEq] at hstep
    obtain ⟨rfl, rfl⟩ := hstep
    obtain ⟨t, rfl, rfl, hmiss⟩ := hcb
    have hnew : ¬ Member t s.elements := fun hm => by
      rw [show (some t == (s.node c).value) = true from hmem.mp hm] at hmiss
      cases hmiss
    refine ⟨.link hr.sec.pred_held hr.sec.live hr.sec.adjacent hr.pos.pred_le
      (hr.lt_of_miss hinv hmiss) hnew, ?_, hr.locked.pred_held, hr.locked.curr_held, hr.locked.ne⟩
    rw [hinv.elements_publish hr.sec.live hr.sec.adjacent]
    exact .add hnew
  | mark =>
    simp only [Callback.step, Prod.mk.injEq] at hstep
    obtain ⟨rfl, rfl⟩ := hstep
    have he : Effect H markable me s (s.mark c) := .mark
    refine ⟨he, (Store.congr_node rfl).2.2.2, ⟨hr.pos.stable hinv he, hr.sec.congr rfl rfl,
      hr.stop.stable hr.pos.curr_lt he⟩, hcb, fun _ => ?_⟩
    simp [Store.mark]
  | removeLoad =>
    simp only [Callback.step, Prod.mk.injEq] at hstep
    obtain ⟨rfl, rfl⟩ := hstep
    obtain ⟨⟨t, rfl, hit⟩, hdel⟩ := hcb
    obtain ⟨_, ht, _⟩ := hinv.key_of_hit hr.pos.curr_lt hit
    exact ⟨.same, rfl, hr, ⟨t, rfl, hit⟩, hdel, rfl, fun hn => ht ((hinv.next_none c hr.pos.curr_lt).mp hn)⟩
  | removeStore succ =>
    simp only [Callback.step, Prod.mk.injEq] at hstep
    obtain ⟨rfl, rfl⟩ := hstep
    obtain ⟨⟨t, rfl, hit⟩, hdel, hnext, hne⟩ := hcb
    obtain ⟨e, rfl⟩ := Option.ne_none_iff_exists'.mp hne
    refine ⟨.unlink hr.sec.pred_held hr.sec.curr_held hr.sec.live hr.sec.adjacent hnext hdel, ?_,
      hr.locked.pred_held, hr.locked.curr_held, hr.locked.ne⟩
    rw [hinv.elements_setNext hr.sec.live hr.sec.adjacent hnext hit]
    exact .remove (hmem.mpr hit)

end ParSweet.Sets
