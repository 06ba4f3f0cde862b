import Mathlib.Data.Fintype.EquivFin
import Mathlib.Data.List.Chain
import Mathlib.Logic.Relation
import Mathlib.Logic.Function.Basic
import Mathlib.Order.Lattice
import Mathlib.Order.Nat
import Mathlib.Order.WellFounded

/-! Sorted linked lists under concurrent insertion and removal.

Nodes are numbers given out in order of insertion, `next` is the successor field
of every node that was ever inserted, and a node is in the list when the head
reaches it. The list is sorted by key and, among equal keys, by age (`Before`).

Removed nodes keep their successor, so a walk that stands on one still gets
somewhere. What it may rely on there is `Sorted.skip`: no successor, current or
frozen, jumps over a node of the list whose key is at least the successor's.
Linking a new node (`link`) and unlinking one (`unlink`) preserve this, and what
they do to reachability is `reaches_link` and `reaches_unlink`. -/
namespace ParSweet.Concurrent.Links

/-- `b` can be reached from `a` along successors. -/
def Reaches (next : ℕ → Option ℕ) : ℕ → ℕ → Prop :=
  Relation.ReflTransGen fun a b => next a = some b

/-- The order of the list: by key, and among equal keys by age. -/
def Before {κ : Type*} [LT κ] (key : ℕ → κ) (a b : ℕ) : Prop :=
  key a < key b ∨ (key a = key b ∧ a < b)

/-! ### The order -/

section Order
variable {κ : Type*} [LinearOrder κ] {key key' : ℕ → κ} {a b c : ℕ}

theorem Before.ne (h : Before key a b) : a ≠ b := by
  rintro rfl
  rcases h with h | ⟨_, h⟩
  · exact lt_irrefl _ h
  · exact lt_irrefl _ h

theorem Before.trans (h : Before key a b) (h' : Before key b c) : Before key a c := by
  rcases h with h | ⟨he, h⟩ <;> rcases h' with h' | ⟨he', h'⟩
  · exact .inl (h.trans h')
  · exact .inl (he' ▸ h)
  · exact .inl (he ▸ h')
  · exact .inr ⟨he.trans he', h.trans h'⟩

theorem Before.asymm (h : Before key a b) : ¬ Before key b a := fun h' => (h.trans h').ne rfl

theorem Before.key_le (h : Before key a b) : key a ≤ key b := by
  rcases h with h | ⟨h, _⟩
  · exact h.le
  · exact h.le

/-- Two different nodes are in order one way or the other. -/
theorem before_total (key : ℕ → κ) (hne : a ≠ b) : Before key a b ∨ Before key b a := by
  rcases lt_trichotomy (key a) (key b) with h | h | h
  · exact .inl (.inl h)
  · rcases Nat.lt_or_gt_of_ne hne with h' | h'
    · exact .inl (.inr ⟨h, h'⟩)
    · exact .inr (.inr ⟨h.symm, h'⟩)
  · exact .inr (.inl h)

theorem Before.congr (h : Before key a b) (ha : key' a = key a) (hb : key' b = key b) :
    Before key' a b := by
  unfold Before at h ⊢
  rwa [ha, hb]

end Order

/-! ### Reachability -/

section Reach
variable {next : ℕ → Option ℕ} {a b c : ℕ}

theorem Reaches.refl : Reaches next a a := Relation.ReflTransGen.refl

theorem Reaches.tail (h : Reaches next a b) (hn : next b = some c) : Reaches next a c :=
  Relation.ReflTransGen.tail h hn

theorem Reaches.step (hn : next a = some b) (h : Reaches next b c) : Reaches next a c :=
  Relation.ReflTransGen.head hn h

/-- From `a` one gets to another node only over the successor of `a`. -/
theorem Reaches.of_next (h : Reaches next a c) (hn : next a = some b) : a = c ∨ Reaches next b c := by
  rcases Relation.ReflTransGen.cases_head h with rfl | ⟨d, hd, hr⟩
  · exact .inl rfl
  · rw [hn, Option.some.injEq] at hd
    exact .inr (hd ▸ hr)

/-- A node without successor reaches itself only. -/
theorem Reaches.of_none (h : Reaches next a c) (hn : next a = none) : a = c := by
  rcases Relation.ReflTransGen.cases_head h with rfl | ⟨d, hd, _⟩
  · rfl
  · rw [hn] at hd
    cases hd

/-- What is reached is reached still if no node on the way has got another successor. -/
theorem Reaches.congr {next' : ℕ → Option ℕ} (h : Reaches next a b)
    (heq : ∀ c, Reaches next a c → next' c = next c) : Reaches next' a b := by
  induction h with
  | refl => exact .refl
  | tail hr hn ih => exact ih.tail ((heq _ hr).trans hn)

/-- Successors are unique, so reachability from one node is a chain. -/
theorem Reaches.total (h : Reaches next a b) (h' : Reaches next a c) :
    Reaches next b c ∨ Reaches next c b := by
  refine Relation.ReflTransGen.total_of_right_unique ?_ h h'
  intro x y z hy hz
  exact Option.some.inj (hy.symm.trans hz)

end Reach

/-! ### Sorted lists -/

variable {κ : Type*} [LinearOrder κ]

/-- What holds of the successor fields at all times. -/
structure Sorted (next : ℕ → Option ℕ) (key : ℕ → κ) (head : ℕ) : Prop where
  ordered : ∀ {a b}, next a = some b → Before key a b
  /-- No successor, not even a removed node's, jumps over a node of the list that
  belongs behind it. -/
  skip : ∀ {a b n}, next a = some b → Reaches next head n → Before key a n →
    n = b ∨ Before key b n ∨ key n < key b

/-- Every node in use is older than `m`. -/
structure Bounded (next : ℕ → Option ℕ) (head m : ℕ) : Prop where
  head_lt : head < m
  lt : ∀ {a b}, next a = some b → a < m ∧ b < m

variable {next : ℕ → Option ℕ} {key key' : ℕ → κ} {head a b c e m n p x y : ℕ}

theorem Sorted.before (h : Sorted next key head) (hr : Reaches next a b) : a = b ∨ Before key a b := by
  induction hr with
  | refl => exact .inl rfl
  | tail _ hn ih =>
    rcases ih with rfl | ih
    · exact .inr (h.ordered hn)
    · exact .inr (ih.trans (h.ordered hn))

/-- Between a node of the list and its successor there is no other node of the list. -/
theorem Sorted.gap (h : Sorted next key head) (ha : Reaches next head a) (hn : next a = some b)
    (hl : Reaches next head n) (hlt : Before key a n) : n = b ∨ Before key b n := by
  rcases ha.total hl with hr | hr
  · rcases hr.of_next hn with rfl | hr'
    · exact absurd rfl hlt.ne
    · rcases h.before hr' with rfl | hb
      · exact .inl rfl
      · exact .inr hb
  · rcases h.before hr with rfl | hb
    · exact absurd rfl hlt.ne
    · exact absurd hb hlt.asymm

/-- A node of the list has one predecessor in the list. -/
theorem Sorted.pred_unique (h : Sorted next key head) (ha : Reaches next head a)
    (hb : Reaches next head b) (hac : next a = some c) (hbc : next b = some c) : a = b := by
  by_contra hne
  rcases before_total key hne with hlt | hlt
  · rcases h.gap ha hac hb hlt with rfl | hcb
    · exact (h.ordered hbc).ne rfl
    · exact hcb.asymm (h.ordered hbc)
  · rcases h.gap hb hbc ha hlt with rfl | hca
    · exact (h.ordered hac).ne rfl
    · exact hca.asymm (h.ordered hac)

theorem Bounded.reaches_lt (h : Bounded next head m) (hx : x < m) (hr : Reaches next x y) : y < m := by
  induction hr with
  | refl => exact hx
  | tail _ hn _ => exact (h.lt hn).2

theorem Bounded.live_lt (h : Bounded next head m) (hr : Reaches next head y) : y < m :=
  h.reaches_lt h.head_lt hr

/-- Only the keys of nodes in use matter. -/
theorem Sorted.key_congr (h : Sorted next key head) (hb : Bounded next head m)
    (hk : ∀ a, a < m → key' a = key a) : Sorted next key' head where
  ordered := fun hn => (h.ordered hn).congr (hk _ (hb.lt hn).1) (hk _ (hb.lt hn).2)
  skip := fun {a b n} hn hl hlt => by
    have ha := hk a (hb.lt hn).1
    have hb' := hk b (hb.lt hn).2
    have hn' := hk n (hb.live_lt hl)
    rcases h.skip hn hl (hlt.congr ha.symm hn'.symm) with rfl | h' | h'
    · exact .inl rfl
    · exact .inr (.inl (h'.congr hb' hn'))
    · exact .inr (.inr (by rwa [hb', hn']))

/-! ### Chains -/

/-- **Every walk ends**: where only `e` has no successor, finitely many successors lead from any
node to `e`, and each of the nodes on the way comes before all that follow it. -/
theorem Sorted.exists_chain (h : Sorted next key head) (hb : Bounded next head m)
    (hend : ∀ n, n < m → n ≠ e → ∃ d, next n = some d) (hn : n < m) :
    ∃ ns : List ℕ, (n :: ns).getLast (List.cons_ne_nil n ns) = e ∧
      (n :: ns).IsChain (fun a b => next a = some b) ∧ (n :: ns).Pairwise (Before key) := by
  have : IsTrans (Fin m) (fun a b => Before key b a) := ⟨fun _ _ _ hab hbc => hbc.trans hab⟩
  have : Std.Irrefl (fun a b : Fin m => Before key b a) := ⟨fun _ ha => ha.ne rfl⟩
  have hwf : WellFounded (fun a b : Fin m => Before key b a) := Finite.wellFounded_of_trans_of_irrefl _
  suffices ∀ n : Fin m, ∃ ns : List ℕ, (n.1 :: ns).getLast (List.cons_ne_nil n.1 ns) = e ∧
      (n.1 :: ns).IsChain (fun a b => next a = some b) from by
    obtain ⟨ns, hlast, hchain⟩ := this ⟨n, hn⟩
    have : Trans (Before key) (Before key) (Before key) := ⟨Before.trans⟩
    exact ⟨ns, hlast, hchain, (hchain.imp fun _ _ hn => h.ordered hn).pairwise⟩
  intro n
  -- the nodes behind `n` are fewer and fewer
  induction n using hwf.induction with
  | _ n ih =>
    by_cases hne : n.1 = e
    · exact ⟨[], hne, List.isChain_singleton n.1⟩
    · obtain ⟨d, hd⟩ := hend n.1 n.2 hne
      obtain ⟨ns, hlast, hchain⟩ := ih ⟨d, (hb.lt hd).2⟩ (h.ordered hd)
      exact ⟨d :: ns, by rwa [List.getLast_cons_cons], List.isChain_cons_cons.mpr ⟨hd, hchain⟩⟩

/-! ### Linking a new node -/

/-- The new node `m` between `p` and `c`. -/
def link (next : ℕ → Option ℕ) (p m c : ℕ) : ℕ → Option ℕ :=
  Function.update (Function.update next m (some c)) p (some m)

theorem link_pred : link next p m c p = some m := by simp [link]

theorem link_new (h : m ≠ p) : link next p m c m = some c := by simp [link, h]

theorem link_other (hp : a ≠ p) (hm : a ≠ m) : link next p m c a = next a := by simp [link, hp, hm]

/-- A successor after linking: an old one, or one of the two new ones. -/
theorem link_cases (hmp : m ≠ p) (h : link next p m c a = some b) :
    (a = p ∧ b = m) ∨ (a = m ∧ b = c) ∨ (a ≠ p ∧ a ≠ m ∧ next a = some b) := by
  by_cases hp : a = p
  · subst hp
    rw [link_pred, Option.some.injEq] at h
    exact .inl ⟨rfl, h.symm⟩
  · by_cases hm : a = m
    · subst hm
      rw [link_new hmp, Option.some.injEq] at h
      exact .inr (.inl ⟨rfl, h.symm⟩)
    · rw [link_other hp hm] at h
      exact .inr (.inr ⟨hp, hm, h⟩)

section Link
variable (hb : Bounded next head m) (hpc : next p = some c)
include hb hpc

/-- Linking opens no way to an old node. -/
theorem reaches_link (hx : x < m) (hr : Reaches (link next p m c) x y) :
    Reaches next x y ∨ (y = m ∧ Reaches next x p) := by
  have hmp : m ≠ p := (hb.lt hpc).1.ne'
  induction hr with
  | refl => exact .inl .refl
  | @tail y z _ hn ih =>
    rcases link_cases hmp hn with ⟨rfl, rfl⟩ | ⟨rfl, rfl⟩ | ⟨_, hym, hn'⟩
    · rcases ih with ih | ⟨h, _⟩
      · exact .inr ⟨rfl, ih⟩
      · exact absurd h.symm hmp
    · rcases ih with ih | ⟨_, ih⟩
      · exact absurd (hb.reaches_lt hx ih) (lt_irrefl _)
      · exact .inl (ih.tail hpc)
    · rcases ih with ih | ⟨h, _⟩
      · exact .inl (ih.tail hn')
      · exact absurd h hym

/-- Linking closes no way between old nodes. -/
theorem reaches_link_of (hx : x < m) (hr : Reaches next x y) : Reaches (link next p m c) x y := by
  have hmp : m ≠ p := (hb.lt hpc).1.ne'
  induction hr with
  | refl => exact .refl
  | @tail y z hxy hn ih =>
    by_cases hy : y = p
    · subst hy
      obtain rfl := Option.some.inj (hpc.symm.trans hn)
      exact (ih.tail link_pred).tail (link_new hmp)
    · have hym : y ≠ m := (hb.reaches_lt hx hxy).ne
      exact ih.tail (by rw [link_other hy hym]; exact hn)

/-- After linking, the list is the old one and the new node. -/
theorem live_link (hp : Reaches next head p) :
    Reaches (link next p m c) head n ↔ Reaches next head n ∨ n = m := by
  constructor
  · intro h
    rcases reaches_link hb hpc hb.head_lt h with h | ⟨h, _⟩
    · exact .inl h
    · exact .inr h
  · rintro (h | rfl)
    · exact reaches_link_of hb hpc hb.head_lt h
    · exact (reaches_link_of hb hpc hb.head_lt hp).tail link_pred

theorem bounded_link : Bounded (link next p m c) head (m + 1) where
  head_lt := hb.head_lt.trans (Nat.lt_succ_self m)
  lt := fun {a b} hn => by
    have hp := hb.lt hpc
    rcases link_cases hp.1.ne' hn with ⟨rfl, rfl⟩ | ⟨rfl, rfl⟩ | ⟨_, _, hn'⟩
    · omega
    · omega
    · have := hb.lt hn'
      omega

/-- Linking in order keeps the list sorted. The new node is the youngest, so no
old successor with its key or a smaller one lies behind it. -/
theorem sorted_link (h : Sorted next key head) (hp : Reaches next head p)
    (hpm : Before key p m) (hmc : Before key m c) : Sorted (link next p m c) key head where
  ordered := fun {a b} hn => by
    rcases link_cases hpm.ne.symm hn with ⟨rfl, rfl⟩ | ⟨rfl, rfl⟩ | ⟨_, _, hn'⟩
    · exact hpm
    · exact hmc
    · exact h.ordered hn'
  skip := fun {a b n} hn hl hlt => by
    rcases (live_link hb hpc hp).mp hl with hold | rfl
    · rcases link_cases hpm.ne.symm hn with ⟨rfl, rfl⟩ | ⟨rfl, rfl⟩ | ⟨_, _, hn'⟩
      · rcases h.gap hp hpc hold hlt with rfl | hcn
        · exact .inr (.inl hmc)
        · exact .inr (.inl (hmc.trans hcn))
      · rcases h.gap hp hpc hold (hpm.trans hlt) with rfl | hcn
        · exact .inl rfl
        · exact .inr (.inl hcn)
      · exact h.skip hn' hold hlt
    · rcases lt_trichotomy (key b) (key n) with hk | hk | hk
      · exact .inr (.inl (.inl hk))
      · have hbn : b < n + 1 := ((bounded_link hb hpc).lt hn).2
        rcases Nat.lt_or_ge b n with h' | h'
        · exact .inr (.inl (.inr ⟨hk, h'⟩))
        · exact .inl (by omega)
      · exact .inr (.inr hk)

end Link

/-! ### Unlinking a node -/

/-- The successor of `p` out of the list: `p` points past it, to `e`. -/
def unlink (next : ℕ → Option ℕ) (p e : ℕ) : ℕ → Option ℕ := Function.update next p (some e)

theorem unlink_pred : unlink next p e p = some e := by simp [unlink]

theorem unlink_other (hp : a ≠ p) : unlink next p e a = next a := by simp [unlink, hp]

theorem unlink_cases (h : unlink next p e a = some b) :
    (a = p ∧ b = e) ∨ (a ≠ p ∧ next a = some b) := by
  by_cases hp : a = p
  · subst hp
    rw [unlink_pred, Option.some.injEq] at h
    exact .inl ⟨rfl, h.symm⟩
  · rw [unlink_other hp] at h
    exact .inr ⟨hp, h⟩

section Unlink
variable (hpc : next p = some c) (hce : next c = some e)
include hpc hce

/-- Unlinking opens no way. -/
theorem reaches_unlink (hr : Reaches (unlink next p e) x y) : Reaches next x y := by
  induction hr with
  | refl => exact .refl
  | tail _ hn ih =>
    rcases unlink_cases hn with ⟨rfl, rfl⟩ | ⟨_, hn'⟩
    · exact (ih.tail hpc).tail hce
    · exact ih.tail hn'

/-- After unlinking, the list is the old one without the node. -/
theorem live_unlink (h : Sorted next key head) (hp : Reaches next head p) (hc : c ≠ head) :
    Reaches (unlink next p e) head n ↔ Reaches next head n ∧ n ≠ c := by
  have hpne : p ≠ c := (h.ordered hpc).ne
  constructor
  · intro hr
    refine ⟨reaches_unlink hpc hce hr, ?_⟩
    rcases Relation.ReflTransGen.cases_tail hr with rfl | ⟨a, hra, hn⟩
    · exact hc.symm
    · have ha := reaches_unlink hpc hce hra
      rcases unlink_cases hn with ⟨rfl, rfl⟩ | ⟨hap, hn'⟩
      · exact (h.ordered hce).ne.symm
      · rintro rfl
        exact hap (h.pred_unique ha hp hn' hpc)
  · rintro ⟨hr, hne⟩
    -- On the way to the removed node its predecessor has already been reached.
    suffices (n ≠ c → Reaches (unlink next p e) head n) ∧ (n = c → Reaches (unlink next p e) head p) from
      this.1 hne
    clear hne
    induction hr with
    | refl => exact ⟨fun _ => .refl, fun h => absurd h.symm hc⟩
    | @tail a n hra hn ih =>
      refine ⟨fun hne => ?_, fun heq => ?_⟩
      · by_cases hac : a = c
        · subst hac
          obtain rfl := Option.some.inj (hce.symm.trans hn)
          exact (ih.2 rfl).tail unlink_pred
        · by_cases hap : a = p
          · subst hap
            exact absurd (Option.some.inj (hn.symm.trans hpc)) hne
          · exact (ih.1 hac).tail (by rw [unlink_other hap]; exact hn)
      · subst heq
        obtain rfl := h.pred_unique hra hp hn hpc
        exact ih.1 hpne

theorem bounded_unlink (hb : Bounded next head m) : Bounded (unlink next p e) head m where
  head_lt := hb.head_lt
  lt := fun {a b} hn => by
    rcases unlink_cases hn with ⟨rfl, rfl⟩ | ⟨_, hn'⟩
    · exact ⟨(hb.lt hpc).1, (hb.lt hce).2⟩
    · exact hb.lt hn'

theorem sorted_unlink (h : Sorted next key head) (hp : Reaches next head p) (hc : c ≠ head) :
    Sorted (unlink next p e) key head where
  ordered := fun {a b} hn => by
    rcases unlink_cases hn with ⟨rfl, rfl⟩ | ⟨_, hn'⟩
    · exact (h.ordered hpc).trans (h.ordered hce)
    · exact h.ordered hn'
  skip := fun {a b n} hn hl hlt => by
    obtain ⟨hold, hnc⟩ := (live_unlink hpc hce h hp hc).mp hl
    rcases unlink_cases hn with ⟨rfl, rfl⟩ | ⟨_, hn'⟩
    · rcases h.gap hp hpc hold hlt with rfl | hcn
      · exact absurd rfl hnc
      · rcases h.gap (hp.tail hpc) hce hold hcn with rfl | hen
        · exact .inl rfl
        · exact .inr (.inl hen)
    · exact h.skip hn' hold hlt

end Unlink

end ParSweet.Concurrent.Links
