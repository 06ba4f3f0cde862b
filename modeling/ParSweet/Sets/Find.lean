import ParSweet.Sets.Effect

/-! What `find` knows on its way, and why its callback may trust it.

A walk that holds no lock may stand on nodes that have left the list. What stays
true is `Position`: everything equal to `t` that is in the list, now or at any
later time, lies behind the pair the walk stands on. Once the pair is locked, in
the list and adjacent (`Secured`), that settles whether `t` is in the list
(`Position.member_iff`). -/
namespace ParSweet.Sets
open Concurrent

variable {τ T : Type*} [BEq T] {L : Lang}

/-! ### Positions -/

/-- What `find` knows of the pair it stands on, locked or not. -/
structure Position (H : Hash L T) (s : Store τ T) (t : T) (p c : NodeId) : Prop where
  pred_lt : p < s.size
  curr_lt : c < s.size
  order : s.Before p c
  pred_le : s.sortKey p ≤ elementKey (H.hash t)
  pred_miss : (some t == (s.node p).value) = false
  behind : ∀ n, s.Live n → (some t == (s.node n).value) = true → s.Before p n
  notPassed : s.sortKey c ≤ elementKey (H.hash t) →
    ∀ n, s.Live n → (some t == (s.node n).value) = true → n = c ∨ s.Before c n

/-- The walk has no reason to go on from `c`. -/
def Stopped (H : Hash L T) (s : Store τ T) (t : T) (c : NodeId) : Prop :=
  c = tail ∨ keepWalking H t (s.node c) = false

/-- The pair is locked by `me`, in the list, and adjacent. -/
structure Secured (s : Store τ T) (me : τ) (p c : NodeId) : Prop where
  pred_held : s.mutex p = some me
  curr_held : s.mutex c = some me
  live : s.Live p
  adjacent : s.next p = some c

variable {H : Hash L T} {markable : Bool} {s s' : Store τ T} {me u : τ} {t : T} {p c d n : NodeId}

theorem keepWalking_iff {v : AtomicNode T} :
    keepWalking H t v = true ↔ v.key ≤ H.hash t ∧ (H.hash t = v.key → (some t == v.value) = false) := by
  unfold keepWalking
  by_cases hk : H.hash t = v.key <;> simp [hk, bne]

theorem ListInv.ne_head (h : ListInv H markable s) (hn : s.next p = some c) : c ≠ head :=
  fun he => Store.not_before_head (he ▸ h.sorted.ordered hn)

theorem ListInv.ne_tail (h : ListInv H markable s) (hn : s.next p = some c) : p ≠ tail := by
  rintro rfl
  rw [(h.next_none tail (h.live_lt h.tail_live)).mpr rfl] at hn
  cases hn

/-- Only the tail has no successor. -/
theorem ListInv.exists_next (h : ListInv H markable s) (hc : c < s.size) (ht : c ≠ tail) :
    ∃ d, s.next c = some d :=
  Option.ne_none_iff_exists'.mp fun hn => ht ((h.next_none c hc).mp hn)

/-- The empty list. -/
theorem ListInv.head_next (h : ListInv H markable s) (he : s.elements = ∅) : s.next head = some tail := by
  obtain ⟨d, hd⟩ := h.exists_next h.bounded.head_lt (by decide)
  by_cases hdt : d = tail
  · rw [hd, hdt]
  · obtain ⟨x, hx, _⟩ := h.exists_element (Links.Reaches.refl.tail hd) (h.ne_head hd) hdt
    rw [he] at hx
    exact hx.elim

/-- Reading the successor of a node everything equal to `t` lies behind, the walk
passes none of it. The node need not be in the list. -/
theorem ListInv.read_next (h : ListInv H markable s) (hn : s.next p = some c)
    (hbehind : ∀ n, s.Live n → (some t == (s.node n).value) = true → s.Before p n)
    (hle : s.sortKey c ≤ elementKey (H.hash t)) (hl : s.Live n)
    (ht : (some t == (s.node n).value) = true) : n = c ∨ s.Before c n := by
  rcases h.sorted.skip hn hl (hbehind n hl ht) with hc | hc | hc
  · exact .inl hc
  · exact .inr hc
  · rw [(h.key_of_hit (h.live_lt hl) ht).2.2] at hc
    exact absurd hle hc.not_ge

/-- The walk starts at the head. -/
theorem Position.start (h : ListInv H markable s) (hn : s.next head = some c) :
    Position H s t head c := by
  have hbehind : ∀ n, s.Live n → (some t == (s.node n).value) = true → s.Before head n := by
    intro n hl ht
    refine .inl ?_
    rw [(h.key_of_hit (h.live_lt hl) ht).2.2, Store.sortKey_head]
    exact WithBot.bot_lt_coe _
  exact {
    pred_lt := h.bounded.head_lt
    curr_lt := (h.bounded.lt hn).2
    order := h.sorted.ordered hn
    pred_le := Store.head_le _
    pred_miss := by rw [h.head_node.2]; rfl
    behind := hbehind
    notPassed := fun hle n hl ht => h.read_next hn hbehind hle hl ht }

/-- The walk goes on to the successor it reads. -/
theorem Position.advance (pos : Position H s t p c) (h : ListInv H markable s)
    (hk : keepWalking H t (s.node c) = true) (hn : s.next c = some d) : Position H s t c d := by
  have hh : c ≠ head := fun he => Store.not_before_head (he ▸ pos.order)
  have ht : c ≠ tail := h.ne_tail hn
  obtain ⟨hle, hval⟩ := keepWalking_iff.mp hk
  have hckey : s.sortKey c ≤ elementKey (H.hash t) := by
    rw [Store.sortKey_element hh ht]
    exact elementKey_le.mpr hle
  have hmiss : (some t == (s.node c).value) = false := by
    by_contra hhit
    obtain ⟨_, _, hkey⟩ := h.key_of_hit pos.curr_lt (Bool.of_not_eq_false hhit)
    rw [Store.sortKey_element hh ht] at hkey
    have heq : (s.node c).key = H.hash t :=
      le_antisymm hle (elementKey_le.mp hkey.ge)
    exact hhit (hval heq.symm)
  have hbehind : ∀ n, s.Live n → (some t == (s.node n).value) = true → s.Before c n := by
    intro n hl hit
    rcases pos.notPassed hckey n hl hit with rfl | hb
    · rw [hmiss] at hit
      cases hit
    · exact hb
  exact {
    pred_lt := pos.curr_lt
    curr_lt := (h.bounded.lt hn).2
    order := h.sorted.ordered hn
    pred_le := hckey
    pred_miss := hmiss
    behind := hbehind
    notPassed := fun hle n hl hit => h.read_next hn hbehind hle hl hit }

/-- The loop condition read at `c`. -/
theorem ListInv.stopped (h : ListInv H markable s) (hc : c < s.size)
    (hk : ((s.node c).next.isSome && keepWalking H t (s.node c)) = false) : Stopped H s t c := by
  rcases Bool.and_eq_false_iff.mp hk with hn | hk
  · exact .inl ((h.next_none c hc).mp (Option.not_isSome_iff_eq_none.mp (by rw [Store.next, hn]; decide)))
  · exact .inr hk

/-- **A locked, adjacent pair of the list at which the walk stops decides whether
`t` is in the list**: it is exactly if it is the current node's element. -/
theorem Position.member_iff (pos : Position H s t p c) (h : ListInv H markable s) (hl : s.Live p)
    (hn : s.next p = some c) (hs : Stopped H s t c) :
    Member t s.elements ↔ (some t == (s.node c).value) = true := by
  rw [h.mem_elements_iff]
  refine ⟨?_, fun hit => ⟨c, hl.tail hn, hit⟩⟩
  rintro ⟨n, hln, hit⟩
  obtain ⟨_, hnt, hkey⟩ := h.key_of_hit (h.live_lt hln) hit
  rcases h.sorted.gap hl hn hln (pos.behind n hln hit) with rfl | hcn
  · exact hit
  · rcases hs with rfl | hk
    · exact absurd hcn (Store.not_tail_before hnt)
    · by_contra hmiss
      have hct : c ≠ tail := fun he => Store.not_tail_before hnt (he ▸ hcn)
      have hch : c ≠ head := h.ne_head hn
      have hle := hcn.key_le
      rw [hkey, Store.sortKey_element hch hct] at hle
      have := keepWalking_iff.mpr ⟨elementKey_le.mp hle, fun _ => Bool.of_not_eq_true hmiss⟩
      rw [hk] at this
      cases this

/-! ### What the others leave of it -/

section Stable
variable [EquivBEq T]

/-- A new node equal to `t` goes behind every pair of a walk that looks for `t`. -/
theorem Effect.before_hit (he : Effect H markable u s s') (h : ListInv H markable s) (hp : p < s.size)
    (hle : s.sortKey p ≤ elementKey (H.hash t)) (hl : s'.Live n)
    (hit : (some t == (s'.node n).value) = true) :
    (s.Live n ∧ (some t == (s.node n).value) = true) ∨ s'.Before p n := by
  rcases he.hit h hl hit with hold | ⟨rfl, hkey⟩
  · exact .inl hold
  · refine .inr ?_
    rw [Store.Before, Links.Before, hkey, he.sortKey_eq hp]
    rcases hle.lt_or_eq with hlt | heq
    · exact .inl hlt
    · exact .inr ⟨heq, hp⟩

theorem Position.stable (pos : Position H s t p c) (h : ListInv H markable s)
    (he : Effect H markable u s s') : Position H s' t p c where
  pred_lt := pos.pred_lt.trans_le he.size_le
  curr_lt := pos.curr_lt.trans_le he.size_le
  order := he.before pos.pred_lt pos.curr_lt pos.order
  pred_le := by rw [he.sortKey_eq pos.pred_lt]; exact pos.pred_le
  pred_miss := by rw [(he.node_eq pos.pred_lt).2]; exact pos.pred_miss
  behind := fun n hl hit => by
    rcases he.before_hit h pos.pred_lt pos.pred_le hl hit with ⟨hl', hit'⟩ | hb
    · exact he.before pos.pred_lt (h.live_lt hl') (pos.behind n hl' hit')
    · exact hb
  notPassed := fun hle n hl hit => by
    rw [he.sortKey_eq pos.curr_lt] at hle
    rcases he.before_hit h pos.curr_lt hle hl hit with ⟨hl', hit'⟩ | hb
    · rcases pos.notPassed hle n hl' hit' with rfl | hb
      · exact .inl rfl
      · exact .inr (he.before pos.curr_lt (h.live_lt hl') hb)
    · exact .inr hb

end Stable

/-- The loop condition reads nothing that changes. -/
theorem Effect.keepWalking_eq (he : Effect H markable u s s') (hc : c < s.size) :
    keepWalking H t (s'.node c) = keepWalking H t (s.node c) := by
  unfold keepWalking
  rw [(he.node_eq hc).1, (he.node_eq hc).2]

theorem Stopped.stable (hs : Stopped H s t c) (hc : c < s.size) (he : Effect H markable u s s') :
    Stopped H s' t c := by
  rcases hs with hs | hs
  · exact .inl hs
  · exact .inr (by rw [he.keepWalking_eq hc]; exact hs)

theorem Secured.stable (sec : Secured s me p c) (h : ListInv H markable s) (hne : me ≠ u)
    (he : Effect H markable u s s') : Secured s' me p c where
  pred_held := he.mutex hne sec.pred_held
  curr_held := he.mutex hne sec.curr_held
  live := he.live h hne sec.pred_held sec.live
  adjacent := by rw [he.next_eq hne sec.pred_held (h.live_lt sec.live)]; exact sec.adjacent

end ParSweet.Sets
