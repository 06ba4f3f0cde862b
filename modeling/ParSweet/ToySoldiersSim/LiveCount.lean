import Mathlib.Data.List.Perm.Subperm
import ParSweet.Counter
import ParSweet.ToySoldiersSim.Calls

/-! The live count of `ToySoldiersSim`.

`life` is under a soldier's lock and `soldierCount` under `countLock`, and a soldier stands
between the two twice: on its tile and not yet counted, and fallen and not yet counted out.
Each time a thread stands with it, and holds a lock (`Inv.arriving`, `Inv.falling`). Who
counts a soldier out has had to wait until it was counted.

`soldierCount` is an `int`, and there may be `2 ^ 31` soldiers: it is the number of those
counted and not yet counted out as long as these are fewer (`live_count_exact_iff`), and
negative when there are as many (`live_count_wraps`). -/
namespace ParSweet.ToySoldiersSim.Calls
open Concurrent

variable {τ : Type*} {G : Grid} {hash : Place G → ℤ} {idCounter : BitVec 32} {int : ℤ → ℤ} {r : Roll}
  {j k : ℕ} {pc : Pc G}

/-! ### The roll -/

/-- The counts are those of the soldiers counted and counted out. -/
structure Roll.Valid (r : Roll) : Prop where
  fresh : ∀ k, r.created ≤ k → r.shown k = false
  count : r.soldierCount = BitVec.ofInt 32 (r.counted.length - r.fallen.length)
  counted_nodup : r.counted.Nodup
  fallen_nodup : r.fallen.Nodup
  counted_shown : ∀ k ∈ r.counted, r.shown k = true
  fallen_counted : ∀ k ∈ r.fallen, k ∈ r.counted
  fallen_life : ∀ k ∈ r.fallen, r.life k ≤ 0

namespace Roll.Valid

theorem lt_created (h : r.Valid) (hk : r.shown k = true) : k < r.created := by
  by_contra hge
  rw [h.fresh k (Nat.le_of_not_lt hge)] at hk
  cases hk

/-- Whoever has been counted out had been counted. -/
theorem length_le (h : r.Valid) : r.fallen.length ≤ r.counted.length :=
  (List.subperm_of_subset h.fallen_nodup h.fallen_counted).length_le

/-- The count, where an `int` can hold it. -/
theorem toInt_count (h : r.Valid) (hlt : r.counted.length < r.fallen.length + 2 ^ 31) :
    r.soldierCount.toInt = r.counted.length - r.fallen.length := by
  have hle := h.length_le
  rw [h.count]
  exact int32_of_range (by omega) (by omega)

/-- **At most one of those counted lives** where at most one has not been counted out. -/
theorem living_unique (h : r.Valid) (hlen : r.counted.length ≤ r.fallen.length + 1) (hj : j ∈ r.counted)
    (hk : k ∈ r.counted) (hjlife : 0 < r.life j) (hklife : 0 < r.life k) : j = k := by
  by_contra hjk
  have hfallen : ∀ i, 0 < r.life i → i ∉ r.fallen := fun i hi hf => absurd (h.fallen_life i hf) (by omega)
  have hnodup : (j :: k :: r.fallen).Nodup :=
    List.nodup_cons.mpr ⟨by simp [hjk, hfallen j hjlife], List.nodup_cons.mpr ⟨hfallen k hklife, h.fallen_nodup⟩⟩
  have hsub : j :: k :: r.fallen ⊆ r.counted := by
    intro i hi
    rcases List.mem_cons.mp hi with rfl | hi
    · exact hj
    · rcases List.mem_cons.mp hi with rfl | hi
      · exact hk
      · exact h.fallen_counted i hi
  have hle := (List.subperm_of_subset hnodup hsub).length_le
  simp only [List.length_cons] at hle
  omega

theorem construct (h : r.Valid) : r.construct.Valid where
  fresh := fun k hk => h.fresh k (Nat.le_of_succ_le hk)
  count := h.count
  counted_nodup := h.counted_nodup
  fallen_nodup := h.fallen_nodup
  counted_shown := h.counted_shown
  fallen_counted := h.fallen_counted
  fallen_life := fun k hk => by
    have hlt := h.lt_created (h.counted_shown k (h.fallen_counted k hk))
    simpa [Roll.construct, hlt.ne] using h.fallen_life k hk

theorem reveal (h : r.Valid) (hk : k < r.created) : (r.reveal (some k)).Valid where
  fresh := fun j hj => by
    have hjk : j ≠ k := by
      rintro rfl
      exact absurd hk (Nat.not_lt.mpr hj)
    simpa [Roll.reveal, hjk] using h.fresh j hj
  count := h.count
  counted_nodup := h.counted_nodup
  fallen_nodup := h.fallen_nodup
  counted_shown := fun j hj => by
    by_cases hjk : j = k
    · simp [Roll.reveal, hjk]
    · simpa [Roll.reveal, hjk] using h.counted_shown j hj
  fallen_counted := h.fallen_counted
  fallen_life := h.fallen_life

theorem increment (h : r.Valid) (hk : k ∉ r.counted) (hshown : r.shown k = true) : (r.increment k).Valid where
  fresh := h.fresh
  count := by
    have hcast : ((k :: r.counted).length : ℤ) - r.fallen.length = (r.counted.length - r.fallen.length) + 1 := by
      rw [List.length_cons]
      omega
    show r.soldierCount + 1 = BitVec.ofInt 32 ((k :: r.counted).length - r.fallen.length)
    rw [hcast, BitVec.ofInt_add, h.count]
    rfl
  counted_nodup := List.nodup_cons.mpr ⟨hk, h.counted_nodup⟩
  fallen_nodup := h.fallen_nodup
  counted_shown := fun j hj => by
    rcases List.mem_cons.mp hj with rfl | hj
    · exact hshown
    · exact h.counted_shown j hj
  fallen_counted := fun j hj => List.mem_cons_of_mem k (h.fallen_counted j hj)
  fallen_life := h.fallen_life

theorem decrement (h : r.Valid) : (r.decrement id k).Valid where
  fresh := h.fresh
  count := h.count
  counted_nodup := h.counted_nodup
  fallen_nodup := h.fallen_nodup
  counted_shown := h.counted_shown
  fallen_counted := h.fallen_counted
  fallen_life := fun j hj => by
    have hlife := h.fallen_life j hj
    simp only [Roll.decrement, id, Function.update_apply]
    split_ifs with hjk
    · subst hjk
      omega
    · exact hlife

theorem countDown (h : r.Valid) (hk : k ∈ r.counted) (hnot : k ∉ r.fallen) (hlife : r.life k ≤ 0) :
    (r.countDown k).Valid where
  fresh := h.fresh
  count := by
    have hcast : (r.counted.length : ℤ) - r.fallen.length = (r.counted.length - (k :: r.fallen).length) + 1 := by
      rw [List.length_cons]
      omega
    show r.soldierCount - 1 = BitVec.ofInt 32 (r.counted.length - (k :: r.fallen).length)
    rw [h.count, hcast, BitVec.ofInt_add]
    exact BitVec.add_sub_cancel ..
  counted_nodup := h.counted_nodup
  fallen_nodup := List.nodup_cons.mpr ⟨hnot, h.fallen_nodup⟩
  counted_shown := h.counted_shown
  fallen_counted := fun j hj => by
    rcases List.mem_cons.mp hj with rfl | hj
    · exact hk
    · exact h.fallen_counted j hj
  fallen_life := fun j hj => by
    rcases List.mem_cons.mp hj with rfl | hj
    · exact hlife
    · exact h.fallen_life j hj

end Roll.Valid

/-- A `--life` that does not wrap around is that of an exact integer. -/
theorem Roll.decrement_eq (h : int (r.life k - 1) = r.life k - 1) : r.decrement int k = r.decrement id k := by
  unfold Roll.decrement
  rw [h, id]

/-! ### The calls -/

/-- `soldierCount++` for `k` is ahead, which stands on its tile already. -/
def Pc.Arriving (k : ℕ) : Pc G → Prop
  | .setUnlock _ (.added j) | .increment j => j = k
  | _ => False

/-- `soldierCount--` for `k` is ahead. -/
def Pc.Falling (k : ℕ) : Pc G → Prop
  | .countLock j | .countDown j => j = k
  | _ => False

/-- What is known when `setOccupant(occupant)` is called. -/
def Then.At (r : Roll) (occupant : Option ℕ) : Then → Prop
  | .added k => occupant = some k ∧ k < r.created ∧ r.shown k = false ∧ 0 < r.life k
  | .fell k => occupant = none ∧ r.shown k = true
  | .void => ∀ k, occupant = some k → r.shown k = true

/-- What is known once it has been set. -/
def Then.After (r : Roll) : Then → Prop
  | .added k => k ∉ r.counted ∧ r.shown k = true
  | .fell k => r.shown k = true
  | .void => True

/-- The soldier a call returns. -/
def Res.Known (shown : ℕ → Bool) : Res → Prop
  | .occupant o => ∀ k, o = some k → shown k = true
  | _ => True

/-- What a call knows where it stands. -/
def At (r : Roll) : Pc G → Prop
  | .setLock _ occupant next | .setStore _ occupant next => next.At r occupant
  | .setUnlock _ next => next.After r
  | .increment k => k ∉ r.counted ∧ r.shown k = true
  | .addUnlock res | .returned res => res.Known r.shown
  | .decrementLock k | .decrement k | .countSignal k | .countUnlock k | .clear k | .decrementReturn k =>
    r.shown k = true
  | .countLock k | .countDown k => r.shown k = true ∧ r.life k = 0 ∧ k ∉ r.fallen
  | .deployUnlock => r.soldierCount.toInt ≤ 1
  | _ => True

theorem Pc.Falling.at (h : pc.Falling k) (hat : At r pc) : r.shown k = true ∧ r.life k = 0 ∧ k ∉ r.fallen := by
  cases pc <;> simp only [Pc.Falling] at h
  all_goals
    subst h
    exact hat

/-- Where a call arrives with a soldier it has `countLock`. -/
theorem Pc.Arriving.held (h : pc.Arriving k) : Lock.count ∈ pc.held hash := by
  cases pc <;> simp only [Pc.Arriving] at h
  case increment j => exact List.mem_singleton_self _
  case setUnlock t next =>
    cases next <;> simp only at h
    exact List.mem_cons_of_mem _ (List.mem_singleton_self _)

/-- Where it is about to count one out it has the soldier's lock. -/
theorem Pc.Falling.held (h : pc.Falling k) : Lock.soldier k ∈ pc.held hash := by
  cases pc <;> simp only [Pc.Falling] at h
  all_goals
    subst h
    simp [Pc.held]

section Stable
variable (hat : At r pc)
include hat

/-- A new soldier is nobody's business. -/
theorem At.construct (hv : r.Valid) : At r.construct pc := by
  have hlife : ∀ {i}, i < r.created → r.construct.life i = r.life i := fun hi =>
    Function.update_of_ne hi.ne ..
  have hset : ∀ {o : Option ℕ} {next : Then}, next.At r o → next.At r.construct o := by
    intro o next h
    cases next with
    | added i => exact ⟨h.1, Nat.lt_succ_of_lt h.2.1, h.2.2.1, by rw [hlife h.2.1]; exact h.2.2.2⟩
    | fell i | void => exact h
  cases pc with
  | setLock t o next | setStore t o next => exact hset hat
  | countLock i | countDown i => exact ⟨hat.1, (hlife (hv.lt_created hat.1)).trans hat.2.1, hat.2.2⟩
  | _ => exact hat

/-- A soldier is put on its tile by who has `countLock`. -/
theorem At.reveal (hcount : Lock.count ∉ pc.held hash) : At (r.reveal (some k)) pc := by
  have hshown : ∀ {i}, r.shown i = true → (r.reveal (some k)).shown i = true := by
    intro i hi
    simp only [Roll.reveal, Function.update_apply]
    split_ifs
    · rfl
    · exact hi
  cases pc with
  | setLock t o next | setStore t o next =>
    cases next with
    | added i => exact absurd (by simp [Pc.held, Then.held]) hcount
    | fell i => exact ⟨hat.1, hshown hat.2⟩
    | void => exact fun i hi => hshown (hat i hi)
  | setUnlock t next =>
    cases next with
    | added i => exact ⟨hat.1, hshown hat.2⟩
    | fell i => exact hshown hat
    | void => trivial
  | increment i => exact ⟨hat.1, hshown hat.2⟩
  | decrementLock i | decrement i | countSignal i | countUnlock i | clear i | decrementReturn i => exact hshown hat
  | countLock i | countDown i => exact ⟨hshown hat.1, hat.2⟩
  | addUnlock res =>
    exact absurd (List.mem_singleton_self _) hcount
  | returned res =>
    cases res with
    | occupant o => exact fun i hi => hshown (hat i hi)
    | _ => trivial
  | _ => exact hat

theorem At.increment (hcount : Lock.count ∉ pc.held hash) : At (r.increment k) pc := by
  cases pc with
  | setUnlock t next =>
    cases next with
    | added i => exact absurd (by simp [Pc.held, Then.held]) hcount
    | fell i | void => exact hat
  | increment i | deployUnlock => exact absurd (List.mem_singleton_self _) hcount
  | _ => exact hat

theorem At.decrement (hshown : r.shown k = true) (hsoldier : Lock.soldier k ∉ pc.held hash) :
    At (r.decrement id k) pc := by
  have hset : ∀ {o : Option ℕ} {next : Then}, next.At r o → next.At (r.decrement id k) o := by
    intro o next h
    cases next with
    | added i =>
      have hik : i ≠ k := by
        rintro rfl
        rw [h.2.2.1] at hshown
        cases hshown
      exact ⟨h.1, h.2.1, h.2.2.1, by simpa [Roll.decrement, hik] using h.2.2.2⟩
    | fell i | void => exact h
  cases pc with
  | setLock t o next | setStore t o next => exact hset hat
  | countLock i | countDown i =>
    have hik : i ≠ k := by
      rintro rfl
      exact hsoldier (by simp [Pc.held])
    exact ⟨hat.1, by simpa [Roll.decrement, hik] using hat.2.1, hat.2.2⟩
  | _ => exact hat

theorem At.countDown (hcount : Lock.count ∉ pc.held hash) (hsoldier : Lock.soldier k ∉ pc.held hash) :
    At (r.countDown k) pc := by
  cases pc with
  | countLock i | countDown i =>
    have hik : i ≠ k := by
      rintro rfl
      exact hsoldier (by simp [Pc.held])
    exact ⟨hat.1, hat.2.1, by simpa [Roll.countDown, hik] using hat.2.2⟩
  | deployUnlock => exact absurd (List.mem_singleton_self _) hcount
  | _ => exact hat

end Stable

/-! ### The invariant -/

/-- Soldiers on tiles have been shown, and one that is not counted, or has fallen and is not counted
out, has a thread that stands just before that. -/
structure Inv (s : Implementation.State τ (Board τ G) (Local G)) : Prop where
  roll : s.store.roll.Valid
  thread : ∀ t l, s.pc t = some l → At s.store.roll l.pc
  occupant : ∀ p k, s.store.occupant p = some k → s.store.roll.shown k = true
  arriving : ∀ k, s.store.roll.shown k = true → k ∈ s.store.roll.counted ∨ ∃ t l, s.pc t = some l ∧ l.pc.Arriving k
  falling : ∀ k, s.store.roll.shown k = true → s.store.roll.life k ≤ 0 →
    k ∈ s.store.roll.fallen ∨ ∃ t l, s.pc t = some l ∧ l.pc.Falling k
  dead : ∀ k, s.store.dead k = true → s.store.roll.shown k = true ∧ s.store.roll.life k ≤ 0

variable [DecidableEq τ] {s : Implementation.State τ (Board τ G) (Local G)} {st : Board τ G} {t : τ} {l l' : Local G}
  {d : Direction}

/-- A step of a call that changes the roll. -/
theorem Inv.change (h : Inv s) (ht : s.pc t = some l) (hroll : st.roll.Valid) (hat : At st.roll l'.pc)
    (hothers : ∀ u k, u ≠ t → s.pc u = some k → At st.roll k.pc)
    (hocc : ∀ p k, st.occupant p = some k → st.roll.shown k = true)
    (harr : ∀ k, st.roll.shown k = true → k ∈ st.roll.counted ∨ l'.pc.Arriving k ∨
      (s.store.roll.shown k = true ∧ (k ∈ s.store.roll.counted → k ∈ st.roll.counted) ∧ ¬ l.pc.Arriving k))
    (hfall : ∀ k, st.roll.shown k = true → st.roll.life k ≤ 0 → k ∈ st.roll.fallen ∨ l'.pc.Falling k ∨
      (s.store.roll.shown k = true ∧ s.store.roll.life k ≤ 0 ∧ (k ∈ s.store.roll.fallen → k ∈ st.roll.fallen) ∧
        ¬ l.pc.Falling k))
    (hdead : ∀ k, st.dead k = true → st.roll.shown k = true ∧ st.roll.life k ≤ 0) :
    Inv ⟨st, Function.update s.pc t (some l')⟩ where
  roll := hroll
  thread := Implementation.forall_update (fun k hk => Option.some.inj hk ▸ hat) hothers
  occupant := hocc
  arriving := fun k hk => by
    rcases harr k hk with hc | ha | ⟨hshown, hc, hnot⟩
    · exact .inl hc
    · exact .inr ⟨t, l', Function.update_self .., ha⟩
    · refine (h.arriving k hshown).imp hc fun he => Implementation.exists_update he fun k' hk' ha => ?_
      obtain rfl : l = k' := Option.some.inj (ht.symm.trans hk')
      exact absurd ha hnot
  falling := fun k hk hlife => by
    rcases hfall k hk hlife with hc | ha | ⟨hshown, hlife', hc, hnot⟩
    · exact .inl hc
    · exact .inr ⟨t, l', Function.update_self .., ha⟩
    · refine (h.falling k hshown hlife').imp hc fun he => Implementation.exists_update he fun k' hk' ha => ?_
      obtain rfl : l = k' := Option.some.inj (ht.symm.trans hk')
      exact absurd ha hnot
  dead := hdead

/-- A step of a call that leaves the roll alone. -/
theorem Inv.quiet (h : Inv s) (ht : s.pc t = some l) (hroll : st.roll = s.store.roll)
    (hocc : ∀ p k, st.occupant p = some k → s.store.roll.shown k = true)
    (hdead : ∀ k, st.dead k = true → s.store.roll.shown k = true ∧ s.store.roll.life k ≤ 0)
    (hat : At s.store.roll l'.pc) (harr : ∀ k, l.pc.Arriving k → l'.pc.Arriving k)
    (hfall : ∀ k, l.pc.Falling k → l'.pc.Falling k) : Inv ⟨st, Function.update s.pc t (some l')⟩ := by
  have hmove : ∀ {P Q : Prop}, (P → Q) → Q ∨ ¬ P := fun himp => (Classical.em _).imp_left himp
  rw [← hroll] at hocc hdead hat
  refine h.change ht (hroll ▸ h.roll) hat (fun u k _ hu => hroll ▸ h.thread u k hu) hocc (fun k hk => ?_)
    (fun k hk hlife => ?_) hdead
  · rw [hroll] at hk ⊢
    exact .inr ((hmove (harr k)).imp_right fun hnot => ⟨hk, id, hnot⟩)
  · rw [hroll] at hk hlife ⊢
    exact .inr ((hmove (hfall k)).imp_right fun hnot => ⟨hk, hlife, id, hnot⟩)

/-- A call begins or ends. -/
theorem Inv.update (h : Inv s) {p : Option (Local G)}
    (hold : ∀ l k, s.pc t = some l → ¬ l.pc.Arriving k ∧ ¬ l.pc.Falling k)
    (hnew : ∀ l, p = some l → At s.store.roll l.pc) : Inv {s with pc := Function.update s.pc t p} where
  roll := h.roll
  thread := Implementation.forall_update hnew fun u k _ hu => h.thread u k hu
  occupant := h.occupant
  arriving := fun k hk => (h.arriving k hk).imp id fun he =>
    Implementation.exists_update he fun l hl ha => absurd ha (hold l k hl).1
  falling := fun k hk hlife => (h.falling k hk hlife).imp id fun he =>
    Implementation.exists_update he fun l hl hf => absurd hf (hold l k hl).2
  dead := h.dead

omit [DecidableEq τ] in
theorem at_lookAt (r : Roll) (i : ℕ) (row col : ℤ) (dirs : List Direction) : At r (lookAt G i row col dirs).pc :=
  lookAt_induction (P := fun l => At r l.pc) i row col dirs (fun _ => trivial) trivial fun _ _ => trivial

omit [DecidableEq τ] in
/-- Whom `run()` attacks, it has seen on a tile. -/
theorem at_resume {equals : ℕ → ℕ → Bool} {i : ℕ} {a : RunAt} {res : Res} (h : res.Known r.shown) :
    At r (resume G equals i a res).pc := by
  unfold resume
  split
  · split_ifs <;> trivial
  · exact at_lookAt ..
  · split_ifs
    · exact at_lookAt ..
    · exact h _ rfl
  · exact at_lookAt ..
  all_goals trivial

omit [DecidableEq τ] in
theorem reveal_eq {o : Option ℕ} (h : ∀ k, o = some k → r.shown k = true) : r.reveal o = r := by
  cases o with
  | none => rfl
  | some k => simp [Roll.reveal, (h k rfl).symm]

/-- **Every step keeps the invariant**, one on which `--life` does not wrap around. -/
theorem Inv.step (h : Inv s) (hs : (simulation τ G hash idCounter int).system.Reachable s) (ht : s.pc t = some l)
    (hint : ∀ k, l.pc = .decrement k → int (s.store.roll.life k - 1) = s.store.roll.life k - 1)
    (hstep : step int hash t s.store l d = some (st, l')) : Inv ⟨st, Function.update s.pc t (some l')⟩ := by
  have hat : At s.store.roll l.pc := h.thread t l ht
  -- whoever else stands anywhere has none of the locks
  have hfree : ∀ {n : Lock G}, n ∈ l.pc.held hash → ∀ u k, u ≠ t → s.pc u = some k → n ∉ k.pc.held hash :=
    fun hn u k hut hu hn' => hut ((accounts τ hash idCounter int).exclusive hs hu ht hn' hn)
  obtain ⟨caller, pc⟩ := l
  cases pc with
  | begin op =>
    simp only [Calls.step] at hstep
    split_ifs at hstep with hknown
    cases hstep
    refine h.quiet ht rfl h.occupant h.dead ?_ (fun _ => False.elim) fun _ => False.elim
    cases op with
    | decrementLife k => exact hknown
    | setOccupant p o =>
      rintro k rfl
      exact hknown
    | _ => trivial
  | addLock r c | setLock p o next | decrementLock k | countLock k | lifeLock k | occupantLock p | positionLock k
  | moveLock m | deployLock | wake | swapFirst w | swapSecond w =>
    obtain ⟨s₁, ha, heq⟩ := Option.map_eq_some_iff.mp hstep
    cases heq
    obtain ⟨_, rfl⟩ := acquire_eq_some.mp ha
    exact h.quiet ht rfl h.occupant h.dead hat (fun _ => id) fun _ => id
  | construct r c =>
    have hconstruct : ∀ l', l'.caller = caller → At s.store.roll.construct l'.pc →
        Inv ⟨s.store.construct r c, Function.update s.pc t (some l')⟩ := by
      intro l' _ hat'
      refine h.change ht h.roll.construct hat' (fun u k _ hu => (h.thread u k hu).construct h.roll) h.occupant
        (fun k hk => .inr (.inr ⟨hk, id, id⟩)) (fun k hk hlife => .inr (.inr ⟨hk, ?_, id, id⟩)) fun k hk => ?_
      · have hne : k ≠ s.store.roll.created := (h.roll.lt_created hk).ne
        simpa [Board.construct, Roll.construct, hne] using hlife
      · obtain ⟨hshown, hlife⟩ := h.dead k hk
        have hne : k ≠ s.store.roll.created := (h.roll.lt_created hshown).ne
        exact ⟨hshown, by simpa [Board.construct, Roll.construct, hne] using hlife⟩
    simp only [Calls.step] at hstep
    split at hstep
    · cases hstep
      refine hconstruct _ rfl ⟨rfl, Nat.lt_succ_self _, h.roll.fresh _ le_rfl, ?_⟩
      simp [Roll.construct]
    · cases hstep
      exact hconstruct _ rfl trivial
  | increment k =>
    cases hstep
    obtain ⟨hk, hshown⟩ := hat
    refine h.change ht (h.roll.increment hk hshown) trivial
      (fun u k' hut hu => (h.thread u k' hu).increment (hfree (List.mem_singleton_self _) u k' hut hu)) h.occupant
      (fun j hj => ?_) (fun j hj hlife => .inr (.inr ⟨hj, hlife, id, id⟩)) h.dead
    by_cases hjk : k = j
    · exact .inl (List.mem_cons.mpr (.inl hjk.symm))
    · exact .inr (.inr ⟨hj, List.mem_cons_of_mem k, hjk⟩)
  | setStore p o next =>
    cases hstep
    have hput : ∀ {q : Place G} {k : ℕ}, Function.update s.store.occupant p o q = some k →
        o = some k ∨ s.store.occupant q = some k := by
      intro q k hq
      rw [Function.update_apply] at hq
      split_ifs at hq
      · exact .inl hq
      · exact .inr hq
    have hkept : (∀ k, o = some k → s.store.roll.shown k = true) → At s.store.roll (.setUnlock p next : Pc G) →
        (∀ k, ¬ (Pc.setStore p o next).Arriving k) →
        Inv ⟨s.store.setOccupant p o, Function.update s.pc t (some ⟨caller, .setUnlock p next⟩)⟩ := by
      intro ho hat' hnot
      refine h.quiet ht (reveal_eq ho) (fun q k hq => ?_) h.dead hat' (fun k hk => absurd hk (hnot k)) fun _ => id
      exact (hput hq).elim (ho k) (h.occupant q k)
    cases next with
    | fell k =>
      obtain ⟨rfl, hshown⟩ := hat
      exact hkept (fun k hk => by cases hk) hshown fun _ => id
    | void => exact hkept hat trivial fun _ => id
    | added k =>
      obtain ⟨rfl, hlt, hfresh, hlife⟩ := hat
      have hmine : Lock.count ∈ (Pc.setStore p (some k) (.added k) : Pc G).held hash := by simp [Pc.held, Then.held]
      have hshown : ∀ {j}, (s.store.roll.reveal (some k)).shown j = true ↔ j = k ∨ s.store.roll.shown j = true := by
        intro j
        simp only [Roll.reveal, Function.update_apply]
        split_ifs with hjk <;> simp [hjk]
      have hnot : k ∉ s.store.roll.counted := fun hc => by
        rw [h.roll.counted_shown k hc] at hfresh
        cases hfresh
      refine h.change ht (h.roll.reveal hlt) ⟨hnot, hshown.mpr (.inl rfl)⟩
        (fun u k' hut hu => (h.thread u k' hu).reveal (hfree hmine u k' hut hu)) (fun q j hq => hshown.mpr ?_)
        (fun j hj => ?_) (fun j hj hjlife => ?_) fun j hj => ⟨hshown.mpr (.inr (h.dead j hj).1), (h.dead j hj).2⟩
      · exact (hput hq).imp (fun he => (Option.some.inj he).symm) (h.occupant q j)
      · rcases hshown.mp hj with rfl | hj
        · exact .inr (.inl rfl)
        · exact .inr (.inr ⟨hj, id, id⟩)
      · rcases hshown.mp hj with rfl | hj
        · exact absurd hjlife hlife.not_ge
        · exact .inr (.inr ⟨hj, hjlife, id, id⟩)
  | setUnlock p next =>
    cases hstep
    cases next with
    | added k | fell k | void => exact h.quiet ht rfl h.occupant h.dead hat (fun _ => id) fun _ => id
  | decrement k =>
    simp only [Calls.step, Roll.decrement_eq (hint k rfl), hint k rfl] at hstep
    cases hstep
    have hshown : s.store.roll.shown k = true := hat
    have hself : (s.store.roll.decrement id k).life k = s.store.roll.life k - 1 := Function.update_self ..
    have hother : ∀ {j}, j ≠ k → (s.store.roll.decrement id k).life j = s.store.roll.life j := fun hj =>
      Function.update_of_ne hj ..
    refine h.change ht h.roll.decrement ?_
      (fun u k' hut hu => (h.thread u k' hu).decrement hshown (hfree (List.mem_singleton_self _) u k' hut hu))
      h.occupant (fun j hj => .inr (.inr ⟨hj, id, id⟩)) (fun j hj hlife => ?_) fun j hj => ?_
    · split_ifs with hzero
      · exact ⟨hshown, hself.trans hzero, fun hf => by have := h.roll.fallen_life k hf; omega⟩
      · exact hshown
    · by_cases hjk : j = k
      · subst hjk
        rw [hself] at hlife
        by_cases hzero : s.store.roll.life j - 1 = 0
        · rw [if_pos hzero]
          exact .inr (.inl rfl)
        · exact .inr (.inr ⟨hj, by omega, id, id⟩)
      · exact .inr (.inr ⟨hj, (hother hjk).symm.le.trans hlife, id, id⟩)
    · obtain ⟨hj', hlife⟩ := h.dead j hj
      refine ⟨hj', ?_⟩
      by_cases hjk : j = k
      · subst hjk
        rw [hself]
        omega
      · rw [hother hjk]
        exact hlife
  | countDown k =>
    cases hstep
    obtain ⟨hshown, hlife, hnot⟩ := hat
    -- who had `countLock` before has counted it
    have hcounted : k ∈ s.store.roll.counted := by
      rcases h.arriving k hshown with hc | ⟨u, k', hu, ha⟩
      · exact hc
      · by_cases hut : u = t
        · subst hut
          obtain rfl := Option.some.inj (ht.symm.trans hu)
          exact ha.elim
        · exact absurd ha.held (hfree (by simp [Pc.held]) u k' hut hu)
    refine h.change ht (h.roll.countDown hcounted hnot hlife.le) hshown
      (fun u k' hut hu => (h.thread u k' hu).countDown (hfree (by simp [Pc.held]) u k' hut hu)
        (hfree (by simp [Pc.held]) u k' hut hu))
      h.occupant (fun j hj => .inr (.inr ⟨hj, id, id⟩)) (fun j hj hjlife => ?_) h.dead
    by_cases hjk : k = j
    · exact .inl (List.mem_cons.mpr (.inl hjk.symm))
    · exact .inr (.inr ⟨hj, hjlife, List.mem_cons_of_mem k, hjk⟩)
  | addUnlock res | countSignal k | countUnlock k =>
    cases hstep
    exact h.quiet ht rfl h.occupant h.dead hat (fun _ => id) fun _ => id
  | clear k =>
    simp only [Calls.step] at hstep
    split at hstep
    · cases hstep
      exact h.quiet ht rfl h.occupant h.dead ⟨rfl, hat⟩ (fun _ => id) fun _ => id
    · cases hstep
      exact h.quiet ht rfl h.occupant h.dead trivial (fun _ => id) fun _ => id
  | decrementReturn k =>
    cases hstep
    refine h.quiet ht rfl h.occupant (fun j hj => ?_) trivial (fun _ => id) fun _ => id
    simp only [Board.decrementReturn] at hj
    split_ifs at hj with hlife
    · by_cases hjk : j = k
      · subst hjk
        exact ⟨hat, hlife.le⟩
      · exact h.dead j (by simpa [hjk] using hj)
    · exact h.dead j hj
  | occupantReturn p =>
    cases hstep
    exact h.quiet ht rfl h.occupant h.dead (h.occupant p) (fun _ => id) fun _ => id
  | decrementThrow k | lifeReturn k | positionReturn k | unlockThis w | unlockOther w | setPosition w | moveUnlock k
  | deployUnlock | await =>
    cases hstep
    exact h.quiet ht rfl h.occupant h.dead trivial (fun _ => id) fun _ => id
  | choose m =>
    simp only [Calls.step] at hstep
    split at hstep <;> cases hstep <;> exact h.quiet ht rfl h.occupant h.dead trivial (fun _ => id) fun _ => id
  | swap w =>
    cases hstep
    refine h.quiet ht rfl (fun p k hk => ?_) h.dead trivial (fun _ => id) fun _ => id
    simp only [Board.swapOccupants, Function.update_apply] at hk
    split_ifs at hk
    · exact h.occupant _ k hk
    · exact h.occupant _ k hk
    · exact h.occupant p k hk
  | deployTest =>
    cases hstep
    split_ifs with hcount
    · exact h.quiet ht rfl h.occupant h.dead trivial (fun _ => id) fun _ => id
    · exact h.quiet ht rfl h.occupant h.dead (not_lt.mp hcount) (fun _ => id) fun _ => id
  | returned res =>
    cases caller with
    | outside => cases hstep
    | run i a =>
      cases hstep
      exact h.quiet ht rfl h.occupant h.dead (at_resume hat) (fun _ => False.elim) fun _ => False.elim

theorem inv_empty (idCounter : BitVec 32) (int : ℤ → ℤ) : Inv (simulation τ G hash idCounter int).system.initial where
  roll := ⟨fun _ _ => rfl, rfl, List.nodup_nil, List.nodup_nil, by simp [Implementation.system, Implementation.machine,
    Machine.system, simulation, empty], fun _ h => h, by simp [Implementation.system, Implementation.machine,
    Machine.system, simulation, empty]⟩
  thread := fun t l h => by cases h
  occupant := fun p k h => by cases h
  arriving := fun k h => by cases h
  falling := fun k h => by cases h
  dead := fun k h => by cases h

/-- Whichever thread goes on, a `--life` makes the life one less. -/
def Lessens (int : ℤ → ℤ) (s s' : Implementation.State τ (Board τ G) (Local G)) : Prop :=
  ∀ t l k, s.pc t = some l → l.pc = .decrement k → s'.pc t ≠ some l →
    int (s.store.roll.life k - 1) = s.store.roll.life k - 1

omit [DecidableEq τ] in
/-- `--life` leads on. -/
theorem pc_of_decrement {me : τ} {b b' : Board τ G} (hpc : l.pc = .decrement k)
    (hstep : step int hash me b l d = some (b', l')) : l'.pc ≠ .decrement k := by
  obtain ⟨caller, pc⟩ := l
  subst hpc
  cases hstep
  dsimp only
  split_ifs <;> simp

theorem inv_of_reachable (hs : ((simulation τ G hash idCounter int).system.along (Lessens int)).Reachable s) :
    Inv s := by
  have hinitial : Inv (simulation τ G hash idCounter int).system.initial := inv_empty idCounter int
  refine hs.invariant_of (I := Inv) (J := (simulation τ G hash idCounter int).system.Reachable)
    (fun _ => System.Reachable.of_along) hinitial fun s e s' hs h hstep => ?_
  obtain ⟨hstep, hlessens⟩ := hstep
  rcases Implementation.step_cases hstep with
    ⟨t, op, ht, -, rfl⟩ | ⟨t, l, d, st, l', ht, hst, -, rfl⟩ | ⟨t, l, res, ht, hres, -, rfl⟩
  · refine h.update (fun l k hl => ?_) fun l hl => ?_
    · rw [ht] at hl
      cases hl
    · obtain rfl := Option.some.inj hl
      trivial
  · refine h.step hs ht (fun k hpc => hlessens t l k ht hpc fun hsame => ?_) hst
    have hnew : Function.update s.pc t (some l') t = some l := hsame
    rw [Function.update_self, Option.some.injEq] at hnew
    exact pc_of_decrement hpc hst (hnew ▸ hpc)
  · refine h.update (fun l₁ k hl => ?_) fun l₁ hl => by cases hl
    obtain rfl : l = l₁ := Option.some.inj (ht.symm.trans hl)
    obtain ⟨caller, pc⟩ := l
    cases pc with
    | returned r => exact ⟨id, id⟩
    | _ => cases caller <;> cases hres

/-! ### The count -/

/-- What there is to say of the live count. -/
structure ExactCount (s : Implementation.State τ (Board τ G) (Local G)) : Prop where
  /-- The count is that of the soldiers counted and not counted out. -/
  count : s.store.roll.soldierCount.toInt = s.store.roll.counted.length - s.store.roll.fallen.length
  nonneg : 0 ≤ s.store.roll.soldierCount.toInt
  counted_once : s.store.roll.counted.Nodup
  fallen_once : s.store.roll.fallen.Nodup
  fallen_counted : ∀ k ∈ s.store.roll.fallen, k ∈ s.store.roll.counted
  /-- Only soldiers without life have been counted out. -/
  fallen_life : ∀ k ∈ s.store.roll.fallen, s.store.roll.life k ≤ 0
  /-- One without life has been counted out, or is about to be. -/
  out : ∀ k, s.store.roll.shown k = true → s.store.roll.life k ≤ 0 →
    k ∈ s.store.roll.fallen ∨ ∃ t l, s.pc t = some l ∧ l.pc.Falling k
  /-- Until it is, it keeps the life 0, for whoever has brought it there has its lock. -/
  first : ∀ t l k, s.pc t = some l → l.pc.Falling k →
    s.store.roll.life k = 0 ∧ k ∉ s.store.roll.fallen ∧ s.store.holder (.soldier k) = some t
  /-- When `deploy()` has left its loop, at most one of those counted lives. -/
  deployed : ∀ t l, s.pc t = some l → l.pc = .deployUnlock → ∀ j ∈ s.store.roll.counted, ∀ k ∈ s.store.roll.counted,
    0 < s.store.roll.life j → 0 < s.store.roll.life k → j = k

/-- **The live count is exact, and `deploy()` does not return early**, exactly as long as fewer
than `2 ^ 31` soldiers are counted and not counted out. -/
theorem live_count_exact_iff (τ : Type*) [DecidableEq τ] (hash : Place G → ℤ) (idCounter : BitVec 32)
    (s : Implementation.State τ (Board τ G) (Local G)) (hs : (simulation τ G hash idCounter id).system.Reachable s) :
    ExactCount s ↔ s.store.roll.counted.length < s.store.roll.fallen.length + 2 ^ 31 := by
  have h : Inv s := inv_of_reachable (hs.along_of fun _ _ _ _ _ _ _ _ _ _ => rfl)
  constructor
  · intro hcount
    have hlt := BitVec.toInt_lt (x := s.store.roll.soldierCount)
    rw [hcount.count] at hlt
    omega
  · intro hlt
    have hcount := h.roll.toInt_count hlt
    have hle := h.roll.length_le
    refine ⟨hcount, by omega, h.roll.counted_nodup, h.roll.fallen_nodup, h.roll.fallen_counted, h.roll.fallen_life,
      h.falling, fun t l k ht hf => ?_, fun t l ht hl j hj k hk => ?_⟩
    · obtain ⟨_, hlife, hnot⟩ := hf.at (h.thread t l ht)
      exact ⟨hlife, hnot, ((accounts τ hash idCounter id).held_iff hs _ t).mpr ⟨l, ht, hf.held⟩⟩
    · have hone : s.store.roll.soldierCount.toInt ≤ 1 := by
        have hat := h.thread t l ht
        rwa [hl] at hat
      exact h.roll.living_unique (by omega) hj hk

/-- A simulation with two tiles. -/
abbrev twoTiles (τ : Type*) (int : ℤ → ℤ) :
    Implementation τ (Op ⟨1, 2⟩) Res (Board τ ⟨1, 2⟩) (Local ⟨1, 2⟩) Direction :=
  simulation τ ⟨1, 2⟩ (fun p => p.val.2) 0 int

/-- Two soldiers, one of which has been counted out, when `deploy()` leaves its loop. -/
theorem live_count_exact_iff_two :
    ∃ s : Implementation.State ℕ (Board ℕ ⟨1, 2⟩) (Local ⟨1, 2⟩), ExactCount s ∧ s.store.roll.counted = [1, 0] ∧
      s.store.roll.fallen = [0] ∧ s.pc 0 = some ⟨.outside, .deployUnlock⟩ := by
  let call : ℕ → ℕ → Op ⟨1, 2⟩ → List (Implementation.Action ℕ (Op ⟨1, 2⟩) Direction) := fun t n op =>
    .call t op :: List.replicate n (.run t .NORTH) ++ [.ret t]
  have hexec : ∃ es s, (twoTiles ℕ id).machine.exec (twoTiles ℕ id).machine.initial (call 0 8 (.addSoldier 0 0) ++
      call 0 8 (.addSoldier 0 1) ++ call 1 4 (.decrementLife 0) ++ call 1 12 (.decrementLife 0) ++
      [.call 0 .deploy, .run 0 .NORTH, .run 0 .NORTH, .run 0 .NORTH]) = some (es, s) ∧
      s.store.roll.counted = [1, 0] ∧ s.store.roll.fallen = [0] ∧
      s.pc 0 = some ⟨.outside, .deployUnlock⟩ := ⟨_, _, rfl, rfl, rfl, rfl⟩
  obtain ⟨es, s, hexec, hs⟩ := hexec
  have hexact : ExactCount s := (live_count_exact_iff ℕ _ 0 s ⟨es, Machine.exec_path hexec⟩).mpr <| by
    rw [hs.1, hs.2.1]
    decide
  exact ⟨s, hexact, hs⟩

/-! ### What happens otherwise -/

/-- Any number of soldiers are added to one tile, one after the other. -/
theorem crowd (hash : Place G → ℤ) (idCounter : BitVec 32) (int : ℤ → ℤ) (me : τ) (p : Place G) (n : ℕ) :
    ∃ b : Board τ G,
      (simulation τ G hash idCounter int).system.Reachable ⟨b, fun _ => none⟩ ∧ (∀ m, b.holder m = none) ∧
      b.roll.soldierCount = BitVec.ofNat 32 n := by
  induction n with
  | zero => exact ⟨empty idCounter, ⟨[], .refl⟩, fun _ => rfl, rfl⟩
  | succ n ih =>
    obtain ⟨b, hb, hfree, hcount⟩ := ih
    refine ⟨b.add me p, hb.path ((answers_add hfree p).path rfl), holder_add hfree p, ?_⟩
    rw [ofNat_succ, ← hcount]
    rfl

/-- **`2 ^ 31` soldiers are too many**: the count of the living is negative. -/
theorem live_count_wraps : ¬ ∀ s, (simulation (Fin 1) ⟨1, 1⟩ (fun _ => 0) 0 id).system.Reachable s →
    ExactCount s := by
  intro h
  obtain ⟨b, hb, _, hcount⟩ := crowd (G := ⟨1, 1⟩) (fun _ => 0) 0 id (0 : Fin 1) ⟨(0, 0), by decide⟩ (2 ^ 31)
  have hnonneg := (h _ hb).nonneg
  rw [hcount] at hnonneg
  exact absurd hnonneg (by decide)

end ParSweet.ToySoldiersSim.Calls
