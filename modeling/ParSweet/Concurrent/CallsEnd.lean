import Mathlib.Data.Fintype.Order
import ParSweet.Concurrent.LockOrder
import ParSweet.Concurrent.Routing
import ParSweet.Concurrent.Sums

/-! Calls that come to their end.

The calls of an object end (`CallsEnd`) if only so many steps can be taken before a new
call is begun, and if some open call can go on as long as there is one. The second is
freedom from deadlock: whoever cannot go on waits for a mutex, and nobody waits for itself
(`Locking.goesOn`). For the first, what is left of every call is counted (`Budget`). A call
that others disturb may have to start over; it is paid for by whoever disturbs it, and a
call disturbs others only once, when it takes effect. Where the calls of each part end, so
do those of a whole made of such parts (`CallsEnd.route`). -/
namespace ParSweet.Concurrent

/-! ### Lists of actions that use something up -/

namespace Machine
variable {σ α ε : Type*} {M : Machine σ α ε}

theorem exec_cons {s s' : σ} {a : α} {rest : List α} {es : List ε} :
    M.exec s (a :: rest) = some (es, s') ↔
      ∃ e s₁ fs, M.next s a = some (e, s₁) ∧ M.exec s₁ rest = some (fs, s') ∧ es = e.toList ++ fs := by
  rw [exec]
  cases hn : M.next s a with
  | none => simp
  | some p =>
    obtain ⟨e, s₁⟩ := p
    simp only [Option.map_eq_some_iff, Prod.mk.injEq, Option.some.injEq]
    constructor
    · intro h
      obtain ⟨q, hrest, hes, rfl⟩ := h
      exact ⟨e, s₁, q.1, ⟨rfl, rfl⟩, hrest, hes.symm⟩
    · intro h
      obtain ⟨_, _, fs, ⟨rfl, rfl⟩, hrest, hes⟩ := h
      exact ⟨(fs, s'), hrest, hes.symm, rfl⟩

/-- Each action uses something up, so there are no more of them than there was at first. -/
theorem exec_length_le (J : σ → Prop) {K : α → Prop} {μ : σ → ℕ}
    (hstep : ∀ s a e s', J s → K a → M.next s a = some (e, s') → J s' ∧ μ s' < μ s) {s s' : σ}
    {as : List α} {es : List ε} (hs : J s) (hall : ∀ a ∈ as, K a) (h : M.exec s as = some (es, s')) :
    as.length ≤ μ s := by
  induction as generalizing s es with
  | nil => exact Nat.zero_le _
  | cons a rest ih =>
    obtain ⟨e, s₁, fs, hn, hrest, _⟩ := exec_cons.mp h
    obtain ⟨hs₁, hless⟩ := hstep s a e s₁ hs (hall a List.mem_cons_self) hn
    have hle := ih hs₁ (fun b hb => hall b (List.mem_cons_of_mem a hb)) hrest
    rw [List.length_cons]
    omega

end Machine

namespace Implementation
variable {τ Op Res σ loc χ : Type*} [DecidableEq τ]

/-- The action goes on with a call that has begun. -/
def Action.Continues : Action τ Op χ → Prop
  | .call _ _ => False
  | .run _ _ | .ret _ => True

/-- **All calls come to their end**, in whatever order the threads go on. -/
structure CallsEnd (I : Implementation τ Op Res σ loc χ) : Prop where
  /-- Only so many steps can be taken before a new call is begun. -/
  bounded : ∀ s, I.system.Reachable s → ∃ N, ∀ as es s', (∀ a ∈ as, a.Continues) →
    I.machine.exec s as = some (es, s') → as.length ≤ N
  /-- While a call is open, some call can go on. -/
  goesOn : ∀ s, I.system.Reachable s → (∃ t, s.pc t ≠ none) → ∃ a, Action.Continues a ∧ (I.machine.next s a).isSome

variable {I : Implementation τ Op Res σ loc χ}

/-- What a call starts with, and a step does not lead away from, holds of all calls. -/
theorem local_of_reachable {P : loc → Prop} (hstart : ∀ op, P (I.start op))
    (hstep : ∀ t s l c s' l', P l → I.step t s l c = some (s', l') → P l') {s : State τ σ loc}
    (hs : I.system.Reachable s) (t : τ) (l : loc) (hl : s.pc t = some l) : P l := by
  refine hs.invariant (S := I.system) (I := fun s => ∀ t l, s.pc t = some l → P l) (fun t l hl => ?_) ?_ t l hl
  · cases hl
  · intro s e s' hi hnext
    rcases step_cases hnext with ⟨t, op, -, -, rfl⟩ | ⟨t, l, c, st, l', ht, hst, -, rfl⟩ | ⟨t, l, r, -, -, -, rfl⟩
    · exact forall_update (fun l hl => Option.some.inj hl ▸ hstart op) fun u l _ hu => hi u l hu
    · exact forall_update (fun l₁ hl₁ => Option.some.inj hl₁ ▸ hstep t s.store l c st l' (hi t l ht) hst)
        fun u l _ hu => hi u l hu
    · exact forall_update (fun l hl => by cases hl) fun u l _ hu => hi u l hu

end Implementation

/-! ### Somebody can go on -/

namespace Locking
variable {τ Op Res σ loc χ A ν : Type*} [DecidableEq τ] {K : Locking τ σ loc ν} {I : Implementation τ Op Res σ loc χ}
  {s : Implementation.State τ σ loc}

/-- If whoever is stuck waits for somebody else's open call, and nobody for itself, then some open call is not stuck. -/
theorem goesOn [Finite τ] (hacyclic : ∀ t, ¬ Relation.TransGen (K.WaitsFor s) t t)
    (hstuck : ∀ t l, s.pc t = some l → (∀ c, I.step t s.store l c = none) → I.result l = none →
      ∃ u, K.WaitsFor s t u ∧ s.pc u ≠ none) (hopen : ∃ t, s.pc t ≠ none) :
    ∃ a : Implementation.Action τ Op χ, a.Continues ∧ (I.machine.next s a).isSome := by
  by_contra hnone
  have hwaits : ∀ t, s.pc t ≠ none → ∃ u, K.WaitsFor s t u ∧ s.pc u ≠ none := by
    intro t ht
    obtain ⟨l, hl⟩ := Option.ne_none_iff_exists'.mp ht
    refine hstuck t l hl (fun c => ?_) ?_
    · cases hstep : I.step t s.store l c with
      | none => rfl
      | some p => exact absurd ⟨.run t c, trivial, by simp [Implementation.machine, Implementation.next, hl, hstep]⟩ hnone
    · cases hres : I.result l with
      | none => rfl
      | some r => exact absurd ⟨.ret t, trivial, by simp [Implementation.machine, Implementation.next, hl, hres]⟩ hnone
  -- Among finitely many, somebody waits for nobody.
  have : IsTrans τ (Relation.TransGen (flip (K.WaitsFor s))) := ⟨fun _ _ _ => Relation.TransGen.trans⟩
  have : Std.Irrefl (Relation.TransGen (flip (K.WaitsFor s))) := ⟨fun t ht => hacyclic t (Relation.transGen_swap.mp ht)⟩
  have hwf : WellFounded (Relation.TransGen (flip (K.WaitsFor s))) := Finite.wellFounded_of_trans_of_irrefl _
  obtain ⟨t, ht, hlast⟩ := hwf.has_min {t | s.pc t ≠ none} hopen
  obtain ⟨u, hu, hpc⟩ := hwaits t ht
  exact hlast u hpc (.single hu)

variable {S : Spec Op Res A} {P : Outline I S} {Holds : loc → ν → Prop}

/-- The same where every mutex that is held is held by an open call, and mutexes are taken in one order. -/
theorem goesOn_of_owned [Finite τ] (howned : K.Owned Holds s) (hirrefl : ∀ n, ¬ K.Before s.store n n)
    (htrans : ∀ x y z, K.Before s.store x y → K.Before s.store y z → K.Before s.store x z)
    (hascending : ∀ t l n m, s.pc t = some l → K.wants l = some n → K.holder s.store m = some t → K.Before s.store m n)
    (hstuck : ∀ t l, s.pc t = some l → (∀ c, I.step t s.store l c = none) → I.result l = none →
      ∃ n, K.wants l = some n ∧ ∃ u, K.holder s.store n = some u) (hopen : ∃ t, s.pc t ≠ none) :
    ∃ a : Implementation.Action τ Op χ, a.Continues ∧ (I.machine.next s a).isSome := by
  refine Locking.goesOn (K.acyclic_of_ascending hirrefl htrans hascending) (fun t l hl hstep hres => ?_) hopen
  obtain ⟨n, hn, u, hu⟩ := hstuck t l hl hstep hres
  obtain ⟨k, hk, _⟩ := howned u n hu
  exact ⟨u, ⟨l, n, hl, hn, hu⟩, by rw [hk]; simp⟩

/-- Every mutex that is held is held by a call that accounts for it, if each step accounts for its own. -/
theorem owned_of_reachable (hinitial : ∀ n, K.holder I.store n = none)
    (hothers : ∀ (s : Implementation.State τ σ loc) t l c st l' u n, I.system.Reachable s → s.pc t = some l →
      I.step t s.store l c = some (st, l') → u ≠ t → K.holder st n = some u → K.holder s.store n = some u)
    (hown : ∀ (s : Implementation.State τ σ loc) t l c st l', I.system.Reachable s → s.pc t = some l →
      I.step t s.store l c = some (st, l') → (∀ n, K.holder s.store n = some t → Holds l n) →
      ∀ n, K.holder st n = some t → Holds l' n)
    (hreleased : ∀ l r, I.result l = some r → ∀ n, ¬ Holds l n) (hs : I.system.Reachable s) : K.Owned Holds s := by
  refine System.Reachable.invariant_of (I := K.Owned Holds) (fun _ hs => hs) ?_ ?_ hs
  · intro t n hn
    rw [show K.holder I.system.initial.store n = none from hinitial n] at hn
    cases hn
  intro s e s' hs ho hstep
  have hheld : ∀ {t l}, s.pc t = some l → ∀ n, K.holder s.store n = some t → Holds l n := by
    intro t l hl n hn
    obtain ⟨k, hk, hh⟩ := ho t n hn
    rw [hl, Option.some.injEq] at hk
    exact hk ▸ hh
  rcases Implementation.step_cases hstep with ⟨t, op, ht, -, rfl⟩ | ⟨t, l, c, st, l', ht, hst, -, rfl⟩ |
    ⟨t, l, r, ht, hr, -, rfl⟩
  · refine Disciplined.owned_update ho fun n hn => ?_
    obtain ⟨k, hk, _⟩ := ho t n hn
    rw [ht] at hk
    cases hk
  · intro u n hn
    by_cases hut : u = t
    · subst hut
      exact ⟨l', Function.update_self .., hown s u l c st l' hs ht hst (hheld ht) n hn⟩
    · obtain ⟨k, hk, hh⟩ := ho u n (hothers s t l c st l' u n hs ht hst hut hn)
      exact ⟨k, (Function.update_of_ne hut _ _).trans hk, hh⟩
  · exact Disciplined.owned_update ho fun n hn => hreleased l r hr n (hheld ht n hn)

/-- What is reachable without exceptions is reachable with them. -/
theorem reachable (hs : I.system.Reachable s) : (K.system I).Reachable s := by
  refine hs.invariant (S := I.system) (I := fun s => (K.system I).Reachable s) ⟨[], .refl⟩ ?_
  intro s e s' hs hstep
  exact hs.path (.single (.inl hstep))

/-- **Whoever keeps to the order of the mutexes does not end up waiting for each other.** -/
theorem Disciplined.goesOn [Finite τ] [Nonempty χ] (D : K.Disciplined P Holds) (hs : I.system.Reachable s)
    (hwants : ∀ t l, s.pc t = some l → (∀ c, I.step t s.store l c = none) → I.result l = none → ∃ n, K.wants l = some n)
    (hopen : ∃ t, s.pc t ≠ none) : ∃ a : Implementation.Action τ Op χ, a.Continues ∧ (I.machine.next s a).isSome := by
  have hs := reachable (K := K) hs
  refine goesOn_of_owned (D.owned hs) (D.irrefl s.store) (D.trans s.store) (D.deadlockFree.ascending s hs)
    (fun t l hl hstep hres => ?_) hopen
  obtain ⟨n, hn⟩ := hwants t l hl hstep hres
  exact ⟨n, hn, (D.blocks t s.store l n (Classical.arbitrary χ) hn).mp (hstep _)⟩

end Locking

/-! ### Only so many steps -/

/-- What there is left to do of a call, where the store has room for `n` things. -/
structure Budget (σ loc : Type*) where
  /-- The steps of the call, if nobody disturbs it. -/
  cost : ℕ → σ → loc → ℕ
  /-- What a disturbance may cost. -/
  again : ℕ → ℕ
  /-- Nobody has disturbed the call since it has started over. -/
  Steady : σ → loc → Prop
  /-- The call has still to take its effect. -/
  Owes : loc → Prop
  room : σ → ℕ

namespace Budget
variable {τ Op Res σ loc χ : Type*} (B : Budget σ loc) (n : ℕ)

open Classical in
noncomputable def extra (s : σ) (l : loc) : ℕ := if B.Steady s l then 0 else B.again n

noncomputable def price (s : Implementation.State τ σ loc) (t : τ) : ℕ :=
  match s.pc t with
  | none => 0
  | some l => B.cost n s.store l + B.extra n s.store l + 1

open Classical in
noncomputable def debt (s : Implementation.State τ σ loc) (t : τ) : ℕ := if ∃ l, s.pc t = some l ∧ B.Owes l then 1 else 0

noncomputable def owed [Fintype τ] (s : Implementation.State τ σ loc) : ℕ := ∑ t, B.debt s t

/-- What is left of all calls. An effect that is owed may disturb everybody. -/
noncomputable def left [Fintype τ] (s : Implementation.State τ σ loc) : ℕ :=
  ∑ t, B.price n s t + B.owed s * (Fintype.card τ * B.again n)

/-- Each step has its price, and only an effect disturbs others or takes room. -/
structure Kept [DecidableEq τ] (I : Implementation τ Op Res σ loc χ) : Prop where
  /-- The call comes nearer to its end, or it was disturbed and starts over. -/
  own : ∀ n s t l c st l', I.system.Reachable s → s.pc t = some l → I.step t s.store l c = some (st, l') →
    B.room s.store ≤ n → (B.cost n st l' < B.cost n s.store l ∧ (B.Steady s.store l → B.Steady st l')) ∨
      (B.cost n st l' < B.cost n s.store l + B.again n ∧ ¬ B.Steady s.store l ∧ B.Steady st l')
  others : ∀ n s t l c st l' u k, I.system.Reachable s → s.pc t = some l → I.step t s.store l c = some (st, l') →
    u ≠ t → s.pc u = some k → B.cost n st k ≤ B.cost n s.store k
  effect : ∀ s t l c st l', I.system.Reachable s → s.pc t = some l → I.step t s.store l c = some (st, l') →
    (B.room st ≤ B.room s.store ∧ (B.Owes l' → B.Owes l) ∧ ∀ k, B.Steady s.store k → B.Steady st k) ∨
      (B.room st ≤ B.room s.store + 1 ∧ ¬ B.Owes l' ∧ B.Owes l)

variable {B n} {s s' : Implementation.State τ σ loc} {t u : τ} {l l' : loc} {st : σ}

theorem extra_le : B.extra n st l ≤ B.again n := by
  unfold extra
  split
  · exact Nat.zero_le _
  · exact Nat.le_refl _

theorem extra_of_steady (h : B.Steady st l) : B.extra n st l = 0 := if_pos h

theorem extra_of_not_steady (h : ¬ B.Steady st l) : B.extra n st l = B.again n := if_neg h

theorem extra_mono {st' : σ} (h : B.Steady st l → B.Steady st' l') : B.extra n st' l' ≤ B.extra n st l := by
  by_cases hs : B.Steady st l
  · rw [extra_of_steady (h hs)]
    exact Nat.zero_le _
  · rw [extra_of_not_steady hs]
    exact extra_le

theorem extra_add_lt {st' : σ} (h : (B.cost n st' l' < B.cost n st l ∧ (B.Steady st l → B.Steady st' l')) ∨
    (B.cost n st' l' < B.cost n st l + B.again n ∧ ¬ B.Steady st l ∧ B.Steady st' l')) :
    B.cost n st' l' + B.extra n st' l' < B.cost n st l + B.extra n st l := by
  rcases h with ⟨hless, hsteady⟩ | ⟨hless, hnot, hsteady⟩
  · have := extra_mono (n := n) hsteady
    omega
  · rw [extra_of_steady hsteady, extra_of_not_steady hnot]
    omega

theorem price_none (h : s.pc t = none) : B.price n s t = 0 := by
  simp only [price, h]

theorem price_some (h : s.pc t = some l) : B.price n s t = B.cost n s.store l + B.extra n s.store l + 1 := by
  simp only [price, h]

theorem debt_some (h : s.pc t = some l) (ho : B.Owes l) : B.debt s t = 1 := if_pos ⟨l, h, ho⟩

theorem debt_some_not (h : s.pc t = some l) (ho : ¬ B.Owes l) : B.debt s t = 0 := by
  refine if_neg fun ⟨k, hk, hok⟩ => ho ?_
  rw [h, Option.some.injEq] at hk
  rwa [hk]

theorem debt_none (h : s.pc t = none) : B.debt s t = 0 := by
  refine if_neg fun ⟨k, hk, _⟩ => ?_
  rw [h] at hk
  cases hk

theorem debt_le : B.debt s t ≤ 1 := by
  unfold debt
  split
  · exact Nat.le_refl _
  · exact Nat.zero_le _

/-- What a call owes does not depend on anything else. -/
theorem debt_congr (h : s'.pc t = s.pc t) : B.debt s' t = B.debt s t := by
  unfold debt
  rw [h]

variable [Fintype τ] [DecidableEq τ] {I : Implementation τ Op Res σ loc χ} {a : Implementation.Action τ Op χ}
  {e : Option (Event τ Op Res)}

/-- One thread has moved. -/
theorem owed_update (s : Implementation.State τ σ loc) (st : σ) (p : Option loc) :
    B.owed ⟨st, Function.update s.pc t p⟩ + B.debt s t = B.owed s + B.debt ⟨st, Function.update s.pc t p⟩ t :=
  sum_add_eq fun _ hu => debt_congr (Function.update_of_ne hu _ _)

/-- A step of a call. -/
theorem left_run (h : B.Kept I) (hs : I.system.Reachable s) (hl : s.pc t = some l) {c : χ}
    (hstep : I.step t s.store l c = some (st, l')) (hroom : B.room s.store + B.owed s ≤ n) :
    B.room st + B.owed ⟨st, Function.update s.pc t (some l')⟩ ≤ n ∧
      B.left n ⟨st, Function.update s.pc t (some l')⟩ < B.left n s := by
  have hnew : (⟨st, Function.update s.pc t (some l')⟩ : Implementation.State τ σ loc).pc t = some l' :=
    Function.update_self ..
  have hown : B.price n ⟨st, Function.update s.pc t (some l')⟩ t < B.price n s t := by
    rw [price_some hnew, price_some hl]
    exact Nat.succ_lt_succ (extra_add_lt (h.own n s t l c st l' hs hl hstep (by omega)))
  have hsum := owed_update (B := B) (t := t) s st (some l')
  have hothers : ∀ {d : ℕ}, (∀ k, B.extra n st k ≤ B.extra n s.store k + d) → ∀ u, u ≠ t →
      B.price n ⟨st, Function.update s.pc t (some l')⟩ u ≤ B.price n s u + d := by
    intro d hextra u hu
    have hpc : (⟨st, Function.update s.pc t (some l')⟩ : Implementation.State τ σ loc).pc u = s.pc u :=
      Function.update_of_ne hu _ _
    cases hk : s.pc u with
    | none =>
      rw [price_none (hpc.trans hk)]
      exact Nat.zero_le _
    | some k =>
      rw [price_some (hpc.trans hk), price_some hk]
      have := h.others n s t l c st l' u k hs hl hstep hu hk
      have := hextra k
      show B.cost n st k + B.extra n st k + 1 ≤ _
      omega
  unfold left
  rcases h.effect s t l c st l' hs hl hstep with ⟨hsame, howes, hsteady⟩ | ⟨hmore, hnot, howes⟩
  · have hdebt : B.debt ⟨st, Function.update s.pc t (some l')⟩ t ≤ B.debt s t := by
      by_cases ho : B.Owes l'
      · rw [debt_some hl (howes ho)]
        exact debt_le
      · rw [debt_some_not hnew ho]
        exact Nat.zero_le _
    have hprice : ∑ u, B.price n ⟨st, Function.update s.pc t (some l')⟩ u < ∑ u, B.price n s u :=
      sum_lt (hothers (d := 0) fun k => extra_mono (hsteady k)) hown
    have howed := Nat.mul_le_mul_right (Fintype.card τ * B.again n)
      (show B.owed ⟨st, Function.update s.pc t (some l')⟩ ≤ B.owed s by omega)
    exact ⟨by omega, by omega⟩
  · -- The effect has been paid for in advance.
    rw [debt_some_not hnew hnot, debt_some hl howes] at hsum
    have hprice := sum_add_lt (a := 0) (b := 0)
      (hothers (d := B.again n) fun k => extra_le.trans (Nat.le_add_left _ _)) hown
    have howed : B.owed s = B.owed ⟨st, Function.update s.pc t (some l')⟩ + 1 := by omega
    rw [howed, Nat.succ_mul]
    exact ⟨by omega, by omega⟩

/-- A return. -/
theorem left_ret (hl : s.pc t = some l) (hroom : B.room s.store + B.owed s ≤ n) :
    B.room s.store + B.owed {s with pc := Function.update s.pc t none} ≤ n ∧
      B.left n {s with pc := Function.update s.pc t none} < B.left n s := by
  have hnew : ({s with pc := Function.update s.pc t none} : Implementation.State τ σ loc).pc t = none :=
    Function.update_self ..
  have hsum := owed_update (B := B) (t := t) s s.store none
  rw [debt_none hnew] at hsum
  have hprice : ∑ u, B.price n {s with pc := Function.update s.pc t none} u < ∑ u, B.price n s u := by
    refine sum_lt (t := t) (fun u hu => ?_) ?_
    · simp only [price, Function.update_of_ne hu, Nat.le_refl]
    · rw [price_none hnew, price_some hl]
      omega
  have howed := Nat.mul_le_mul_right (Fintype.card τ * B.again n)
    (show B.owed {s with pc := Function.update s.pc t none} ≤ B.owed s by omega)
  unfold left
  exact ⟨by omega, by omega⟩

/-- Every action but a call uses up something of what is left. -/
theorem left_next (h : B.Kept I) (hs : I.system.Reachable s) (hroom : B.room s.store + B.owed s ≤ n)
    (ha : a.Continues) (hnext : I.machine.next s a = some (e, s')) :
    B.room s'.store + B.owed s' ≤ n ∧ B.left n s' < B.left n s := by
  cases a with
  | call t op => exact ha.elim
  | run t c =>
    cases hl : s.pc t with
    | none => simp [Implementation.machine, Implementation.next, hl] at hnext
    | some l =>
      simp only [Implementation.machine, Implementation.next, hl, Option.map_eq_some_iff, Prod.mk.injEq] at hnext
      obtain ⟨⟨st, l'⟩, hstep, _, rfl⟩ := hnext
      exact left_run h hs hl hstep hroom
  | ret t =>
    cases hl : s.pc t with
    | none => simp [Implementation.machine, Implementation.next, hl] at hnext
    | some l =>
      simp only [Implementation.machine, Implementation.next, hl, Option.map_eq_some_iff, Prod.mk.injEq] at hnext
      obtain ⟨_, _, _, rfl⟩ := hnext
      exact left_ret hl hroom

/-- **A budget bounds the steps that can be taken** before a new call is begun. -/
theorem Kept.bounded (h : B.Kept I) (hs : I.system.Reachable s) : ∃ N, ∀ (as : List (Implementation.Action τ Op χ)) es s',
    (∀ a ∈ as, a.Continues) → I.machine.exec s as = some (es, s') → as.length ≤ N := by
  refine ⟨B.left (B.room s.store + B.owed s) s, fun as es s' hall hexec => ?_⟩
  refine Machine.exec_length_le
    (fun s₁ => I.system.Reachable s₁ ∧ B.room s₁.store + B.owed s₁ ≤ B.room s.store + B.owed s) ?_ ⟨hs, Nat.le_refl _⟩
    hall hexec
  intro s₁ a e s₂ hs₁ ha hnext
  obtain ⟨hroom, hless⟩ := left_next h hs₁.1 hs₁.2 ha hnext
  exact ⟨⟨hs₁.1.path (.single ⟨a, hnext⟩), hroom⟩, hless⟩

end Budget

/-! ### Objects made of many -/

namespace Implementation
variable {ι τ Op Res Op' Res' σ loc χ : Type*} [DecidableEq ι] [DecidableEq τ]
  {R : Routing ι Op Res Op' Res'} {I : Implementation τ Op' Res' σ loc χ} {i : ι} {t : τ} {a : Action τ Op χ}

/-- One of the parts, and the calls that are in it. -/
def part (R : Routing ι Op Res Op' Res') (i : ι) (s : State τ (ι → σ) (Op × loc)) : State τ σ loc where
  store := s.store i
  pc := fun t => (s.pc t).bind fun l => if R.index l.1 = some i then some l.2 else none

variable {s s' : State τ (ι → σ) (Op × loc)} {e : Option (Event τ Op Res)}

omit [DecidableEq τ] in
theorem part_pc {op : Op} {l : loc} (hl : s.pc t = some (op, l)) (hi : R.index op = some i) :
    (part R i s).pc t = some l := by
  simp only [part, hl, Option.bind_some, if_pos hi]

/-- One thread has moved. -/
theorem part_update (st : ι → σ) (p : Option (Op × loc)) (s : State τ (ι → σ) (Op × loc)) :
    part R i ⟨st, Function.update s.pc t p⟩ =
      ⟨st i, Function.update (part R i s).pc t (p.bind fun l => if R.index l.1 = some i then some l.2 else none)⟩ := by
  simp only [part, State.mk.injEq, true_and]
  funext u
  by_cases hu : u = t
  · subst hu
    rw [Function.update_self, Function.update_self]
  · rw [Function.update_of_ne hu, Function.update_of_ne hu]

/-- A call that is in another part, or in none, is not seen in this one. -/
theorem part_other {st : ι → σ} (op : Op) {p : Option (Op × loc)} (hi : R.index op ≠ some i) (hstore : st i = s.store i)
    (hbefore : ∀ l, s.pc t = some l → l.1 = op) (hafter : ∀ l, p = some l → l.1 = op) :
    part R i ⟨st, Function.update s.pc t p⟩ = part R i s := by
  have hnone : ∀ q : Option (Op × loc), (∀ l, q = some l → l.1 = op) →
      (q.bind fun l => if R.index l.1 = some i then some l.2 else none) = none := by
    intro q hq
    cases q with
    | none => rfl
    | some l => rw [Option.bind_some, hq l rfl, if_neg hi]
  rw [part_update, hnone p hafter, hstore]
  have hpc : (part R i s).pc t = none := hnone _ hbefore
  rw [← hpc, Function.update_eq_self]
  rfl

/-- An action that can be taken is one in a part; only a call may be in none. -/
theorem part_next (h : (I.route R).machine.next s a = some (e, s')) :
    ∃ o : Option ι, (∀ j, o ≠ some j → part R j s' = part R j s) ∧ (a.Continues → o ≠ none) ∧
      ∀ i, o = some i → ∃ (b : Action τ Op' χ) (d : Option (Event τ Op' Res')), (a.Continues → b.Continues) ∧
        I.machine.next (part R i s) b = some (d, part R i s') := by
  cases a with
  | call t op =>
    cases hl : s.pc t with
    | some l => simp [machine, next, hl] at h
    | none =>
      simp only [machine, next, hl, Option.some.injEq, Prod.mk.injEq] at h
      obtain ⟨_, rfl⟩ := h
      refine ⟨R.index op, fun j hj => ?_, False.elim, fun i hi => ?_⟩
      · refine part_other op hj rfl (fun l hl' => ?_) fun l hl' => ?_
        · rw [hl] at hl'
          cases hl'
        · cases hl'
          rfl
      · have hpc : (part R i s).pc t = none := by simp only [part, hl, Option.bind_none]
        refine ⟨.call t (R.inner op), some (.call t (R.inner op)), False.elim, ?_⟩
        simp only [machine, next, hpc, part_update, Option.bind_some, route, if_pos hi]
        rfl
  | run t c =>
    cases hl : s.pc t with
    | none => simp [machine, next, hl] at h
    | some l =>
      simp only [machine, next, hl, Option.map_eq_some_iff, Prod.mk.injEq] at h
      obtain ⟨⟨st, l'⟩, hstep, _, rfl⟩ := h
      obtain ⟨i, x, l₁, hi, hpart, rfl, rfl⟩ := route_step hstep
      obtain ⟨op, l⟩ := l
      refine ⟨some i, fun j hj => ?_, fun _ => Option.some_ne_none i, fun k hk => ?_⟩
      · refine part_other op (fun hk => hj (hi.symm.trans hk)) ?_ (fun l hl' => ?_) fun l hl' => ?_
        · exact Function.update_of_ne (fun hji => hj (congrArg some hji.symm)) _ _
        · rw [hl] at hl'
          cases hl'
          rfl
        · cases hl'
          rfl
      · obtain rfl := Option.some.inj hk
        refine ⟨.run t c, none, id, ?_⟩
        simp only [machine, next, part_pc hl hi, part_update, Option.bind_some, if_pos hi, Function.update_self]
        rw [show I.step t (part R i s).store l c = some (x, l₁) from hpart]
        rfl
  | ret t =>
    cases hl : s.pc t with
    | none => simp [machine, next, hl] at h
    | some l =>
      obtain ⟨op, l⟩ := l
      simp only [machine, next, hl, Option.map_eq_some_iff, Prod.mk.injEq] at h
      obtain ⟨r, hr, _, rfl⟩ := h
      simp only [route] at hr
      cases hi : R.index op with
      | none => simp [hi] at hr
      | some i =>
        simp only [hi, Option.map_eq_some_iff] at hr
        obtain ⟨r', hr', _⟩ := hr
        refine ⟨some i, fun j hj => ?_, fun _ => Option.some_ne_none i, fun k hk => ?_⟩
        · refine part_other op (fun hk => hj (hi.symm.trans hk)) rfl (fun l hl' => ?_) fun l hl' => by cases hl'
          rw [hl] at hl'
          cases hl'
          rfl
        · obtain rfl := Option.some.inj hk
          refine ⟨.ret t, some (.ret t r'), id, ?_⟩
          simp only [machine, next, part_pc hl hi, hr', Option.map_some, part_update, Option.bind_none]
          rfl

theorem part_reachable (hs : (I.route R).system.Reachable s) (i : ι) : I.system.Reachable (part R i s) := by
  refine hs.invariant (S := (I.route R).system) (I := fun s => I.system.Reachable (part R i s)) ⟨[], .refl⟩ ?_
  intro s e s' hs ⟨a, hnext⟩
  obtain ⟨o, hothers, _, hown⟩ := part_next hnext
  by_cases ho : o = some i
  · obtain ⟨b, d, _, hb⟩ := hown i ho
    exact hs.path (.single ⟨b, hb⟩)
  · rw [hothers i ho]
    exact hs

/-- A list of actions that begin no call is one in each part. -/
theorem part_exec [Fintype ι] {as : List (Action τ Op χ)} {es : List (Event τ Op Res)} (hall : ∀ a ∈ as, a.Continues)
    (h : (I.route R).machine.exec s as = some (es, s')) : ∃ bs : ι → List (Action τ Op' χ),
      (∀ i, ∀ b ∈ bs i, b.Continues) ∧ (∀ i, ∃ ds, I.machine.exec (part R i s) (bs i) = some (ds, part R i s')) ∧
        ∑ i, (bs i).length = as.length := by
  induction as generalizing s es with
  | nil =>
    simp only [Machine.exec, Option.some.injEq, Prod.mk.injEq] at h
    obtain ⟨_, rfl⟩ := h
    exact ⟨fun _ => [], fun _ _ hb => absurd hb List.not_mem_nil, fun _ => ⟨[], rfl⟩, by simp⟩
  | cons a rest ih =>
    obtain ⟨e, s₁, fs, hn, hrest, _⟩ := Machine.exec_cons.mp h
    obtain ⟨bs, hcont, hexec, hlength⟩ := ih (fun b hb => hall b (List.mem_cons_of_mem a hb)) hrest
    obtain ⟨o, hothers, hsome, hown⟩ := part_next hn
    have ha := hall a List.mem_cons_self
    obtain ⟨i, rfl⟩ := Option.ne_none_iff_exists'.mp (hsome ha)
    obtain ⟨b, d, hb, hbn⟩ := hown i rfl
    refine ⟨Function.update bs i (b :: bs i), fun j => ?_, fun j => ?_, ?_⟩
    · by_cases hj : j = i
      · subst hj
        rw [Function.update_self]
        exact List.forall_mem_cons.mpr ⟨hb ha, hcont j⟩
      · rw [Function.update_of_ne hj]
        exact hcont j
    · obtain ⟨ds, hds⟩ := hexec j
      by_cases hj : j = i
      · subst hj
        rw [Function.update_self]
        exact ⟨d.toList ++ ds, Machine.exec_cons.mpr ⟨d, _, ds, hbn, hds, rfl⟩⟩
      · rw [Function.update_of_ne hj]
        refine ⟨ds, ?_⟩
        rw [← hothers j fun ho => hj (Option.some.inj ho).symm]
        exact hds
    · have hsum := sum_add_eq (f := fun j => (bs j).length) (g := fun j => (Function.update bs i (b :: bs i) j).length)
        (t := i) fun j hj => by rw [Function.update_of_ne hj]
      rw [Function.update_self, List.length_cons] at hsum
      rw [List.length_cons]
      omega

/-- What can be done in a part can be done in the whole. -/
theorem next_of_part {b : Action τ Op' χ} (hb : b.Continues) (h : (I.machine.next (part R i s) b).isSome) :
    ∃ a : Action τ Op χ, a.Continues ∧ ((I.route R).machine.next s a).isSome := by
  have hcall : ∀ {t l}, (part R i s).pc t = some l → ∃ op, s.pc t = some (op, l) ∧ R.index op = some i := by
    intro t l hl
    obtain ⟨⟨op, l'⟩, hpc, heq⟩ := Option.bind_eq_some_iff.mp hl
    split at heq
    · next hi =>
      cases heq
      exact ⟨op, hpc, hi⟩
    · cases heq
  cases b with
  | call t op => exact hb.elim
  | run t c =>
    cases hl : (part R i s).pc t with
    | none => simp [machine, next, hl] at h
    | some l =>
      obtain ⟨op, hpc, hi⟩ := hcall hl
      simp only [machine, next, hl, Option.isSome_map] at h
      refine ⟨.run t c, trivial, ?_⟩
      simp only [machine, next, hpc, route, hi, Option.isSome_map]
      exact h
  | ret t =>
    cases hl : (part R i s).pc t with
    | none => simp [machine, next, hl] at h
    | some l =>
      obtain ⟨op, hpc, hi⟩ := hcall hl
      simp only [machine, next, hl, Option.isSome_map] at h
      refine ⟨.ret t, trivial, ?_⟩
      simp only [machine, next, hpc, route, hi, Option.isSome_map]
      exact h

/-- **The calls of a whole end if those of its parts do**, and there are only so many parts. -/
theorem CallsEnd.route [Fintype ι] (h : I.CallsEnd) (hrouted : ∀ op, R.index op ≠ none) : (I.route R).CallsEnd where
  bounded := fun s hs => by
    choose N hN using fun i => h.bounded (part R i s) (part_reachable hs i)
    refine ⟨∑ i, N i, fun as es s' hall hexec => ?_⟩
    obtain ⟨bs, hcont, hexec, hlength⟩ := part_exec hall hexec
    rw [← hlength]
    refine Finset.sum_le_sum fun i _ => ?_
    obtain ⟨ds, hds⟩ := hexec i
    exact hN i (bs i) ds _ (hcont i) hds
  goesOn := fun s hs ⟨t, ht⟩ => by
    obtain ⟨⟨op, l⟩, hl⟩ := Option.ne_none_iff_exists'.mp ht
    obtain ⟨i, hi⟩ := Option.ne_none_iff_exists'.mp (hrouted op)
    obtain ⟨b, hb, hnext⟩ := h.goesOn (part R i s) (part_reachable hs i) ⟨t, by rw [part_pc hl hi]; exact Option.some_ne_none l⟩
    exact next_of_part hb hnext

end Implementation
end ParSweet.Concurrent
