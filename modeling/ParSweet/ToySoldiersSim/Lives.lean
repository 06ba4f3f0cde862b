import Mathlib.Data.Finset.Card
import Mathlib.Data.Finset.Range
import Mathlib.Tactic.Common
import ParSweet.Counter
import ParSweet.ToySoldiersSim

/-! The lives of the soldiers are `int`s.

A soldier that has fallen can still be hit by those that have seen it before. It is seen by
nobody any more once its life is below 0, so each thread hits it once at most, and where
there are no more than `2 ^ 31` soldiers no `--life` wraps around (`Lives.decrement`). -/
namespace ParSweet.ToySoldiersSim

variable {G : Grid} {s s' : State} {i k : ℕ} {t : Tile} {l : Option Event} {d : Direction}

/-- A thread that is about to take a life from `k`. -/
def Pc.Attacks (k : ℕ) (pc : Pc) : Prop := pc = .attack k ∨ pc = .decrement k

instance (k : ℕ) (pc : Pc) : Decidable (pc.Attacks k) := inferInstanceAs (Decidable (_ ∨ _))

def State.attackers (s : State) (k : ℕ) : Finset ℕ := (Finset.range s.created).filter fun i => (s.pc i).Attacks k

/-- No life is above 2, and one that is used up has all the threads that are going to take one more. -/
structure Lives (s : State) : Prop where
  few : s.created ≤ 2 ^ 31
  le : ∀ k, s.life k ≤ 2
  ge : ∀ k, s.life k ≤ 0 → ((s.attackers k).card : ℤ) ≤ s.created + s.life k

theorem card_attackers_le (s : State) (k : ℕ) : (s.attackers k).card ≤ s.created := by
  have h := Finset.card_filter_le (Finset.range s.created) fun i => (s.pc i).Attacks k
  rwa [Finset.card_range] at h

/-- **`--life` does not wrap around.** -/
theorem Lives.decrement (h : Lives s) (hi : i < s.created) (hp : s.pc i = .decrement k) :
    int32 (s.life k - 1) = s.life k - 1 := by
  have hle := h.le k
  have hfew := h.few
  refine int32_of_range ?_ (by omega)
  by_cases hlife : s.life k ≤ 0
  · have hmem : i ∈ s.attackers k := Finset.mem_filter.mpr ⟨Finset.mem_range.mpr hi, .inr hp⟩
    have hpos : 0 < (s.attackers k).card := Finset.card_pos.mpr ⟨i, hmem⟩
    have hge := h.ge k hlife
    omega
  · omega

/-- Who is on the board lives, or is being taken off it. -/
theorem pos_of_placeOf {holder : Option Pc} {life : ℤ} {position : Tile} (h : placeOf holder life position = some t) :
    0 < life ∨ ∃ k, holder = some (.count k) ∨ holder = some (.clear k) := by
  unfold placeOf at h
  split at h
  · exact .inr ⟨_, .inl rfl⟩
  · exact .inr ⟨_, .inr rfl⟩
  · split_ifs at h with hlife
    exact .inl hlife
  · split_ifs at h with hlife
    exact .inl hlife

/-- Who can be seen on a tile has not been hit after its fall. -/
theorem Inv.life_nonneg (h : Inv G s) (ho : s.occupant t = some k) : 0 ≤ s.life k := by
  have hplace : s.place k = some t := (h.board ..).mp ho
  rcases pos_of_placeOf hplace with hpos | ⟨k', hholder⟩
  · exact hpos.le
  · -- whoever takes `k` off its tile has seen its life get to 0
    have hzero : ∀ pc, (s.lock k).map s.pc = some pc → pc = .count k' ∨ pc = .clear k' → s.life k = 0 := by
      intro pc hpc hcount
      obtain ⟨j, hlock, hp⟩ := Option.map_eq_some_iff.mp hpc
      have hmine : pc.held j = some k := hp ▸ (h.held k j).mp hlock
      have hat := h.at_of_pc hp
      rcases hcount with rfl | rfl
      · obtain rfl : k' = k := Option.some.inj hmine
        exact hat
      · obtain rfl : k' = k := Option.some.inj hmine
        exact hat
    rcases hholder with hholder | hholder
    · exact (hzero _ hholder (.inl rfl)).ge
    · exact (hzero _ hholder (.inr rfl)).ge

/-- A step that takes no life: whoever is attacked has been seen. -/
theorem Lives.keep (h : Lives s) (hcreated : s'.created = s.created) (hlife : s'.life = s.life)
    (hattacks : ∀ j k, (s'.pc j).Attacks k → (s.pc j).Attacks k ∨ 0 ≤ s.life k) : Lives s' where
  few := hcreated ▸ h.few
  le := by
    rw [hlife]
    exact h.le
  ge := fun k hk => by
    rw [hlife] at hk ⊢
    rw [hcreated]
    by_cases hzero : s.life k = 0
    · have hall := card_attackers_le s' k
      rw [hcreated] at hall
      omega
    · have hsub : s'.attackers k ⊆ s.attackers k := by
        intro j hj
        obtain ⟨hlt, hj⟩ := Finset.mem_filter.mp hj
        refine Finset.mem_filter.mpr ⟨hcreated ▸ hlt, (hattacks j k hj).resolve_right fun hnonneg => ?_⟩
        omega
      have hcard := Finset.card_le_card hsub
      have hge := h.ge k hk
      omega

/-- A step of the thread of `i` that takes no life. -/
theorem Lives.keep_pc (h : Lives s) {pc : Pc} (hcreated : s'.created = s.created) (hlife : s'.life = s.life)
    (hpc : s'.pc = Function.update s.pc i pc) (hattacks : ∀ k, pc.Attacks k → s.pc i = .attack k ∨ 0 ≤ s.life k) :
    Lives s' := by
  refine h.keep hcreated hlife ?_
  rw [hpc]
  refine (Function.forall_update_iff s.pc fun j p => ∀ k, p.Attacks k → (s.pc j).Attacks k ∨ 0 ≤ s.life k).mpr
    ⟨fun k hk => (hattacks k hk).imp_left .inl, fun j _ k hk => .inl hk⟩

/-- Nobody has been hit below 0 yet. -/
theorem lives_of_nonneg (hfew : s.created ≤ 2 ^ 31) (h : ∀ k, 0 ≤ s.life k ∧ s.life k ≤ 2) : Lives s where
  few := hfew
  le := fun k => (h k).2
  ge := fun k hk => by
    have hall := card_attackers_le s k
    have hnonneg := (h k).1
    omega

/-- Soldiers are added with the life 2. -/
theorem life_added (ps : List Tile) (hadd : ps.foldlM (addSoldier G) s = some s')
    (h : ∀ k, 0 ≤ s.life k ∧ s.life k ≤ 2) : ∀ k, 0 ≤ s'.life k ∧ s'.life k ≤ 2 := by
  induction ps generalizing s with
  | nil =>
    cases hadd
    exact h
  | cons p ps ih =>
    rw [List.foldlM_cons] at hadd
    obtain ⟨s₁, hs₁, hadd⟩ := Option.bind_eq_some_iff.mp hadd
    refine ih hadd ?_
    obtain ⟨t, _, rfl⟩ := Option.map_eq_some_iff.mp hs₁
    exact (Function.forall_update_iff s.life fun _ n => 0 ≤ n ∧ n ≤ 2).mpr ⟨by decide, fun k _ => h k⟩

/-- A life is taken. -/
theorem Lives.take {pc : Pc} (h : Lives s) (hi : i < s.created) (hp : s.pc i = .decrement k) (hpc : ∀ j, ¬ pc.Attacks j)
    (hcreated : s'.created = s.created) (hlife : s'.life = Function.update s.life k (s.life k - 1))
    (hpc' : s'.pc = Function.update s.pc i pc) : Lives s' := by
  have hsub : ∀ m, s'.attackers m ⊆ (s.attackers m).erase i := by
    intro m j hj
    obtain ⟨hlt, hj⟩ := Finset.mem_filter.mp hj
    have hji : j ≠ i := by
      rintro rfl
      rw [hpc', Function.update_self] at hj
      exact hpc m hj
    rw [hpc', Function.update_of_ne hji] at hj
    exact Finset.mem_erase.mpr ⟨hji, Finset.mem_filter.mpr ⟨hcreated ▸ hlt, hj⟩⟩
  refine ⟨hcreated ▸ h.few, fun m => ?_, fun m hm => ?_⟩
  · have hle := h.le m
    rw [hlife, Function.update_apply]
    split_ifs with hmk
    · subst hmk
      omega
    · exact hle
  · have hcard := Finset.card_le_card (hsub m)
    rw [hcreated]
    rw [hlife] at hm ⊢
    by_cases hmk : m = k
    · subst hmk
      rw [Function.update_self] at hm ⊢
      have hmem : i ∈ s.attackers m := Finset.mem_filter.mpr ⟨Finset.mem_range.mpr hi, .inr hp⟩
      rw [Finset.card_erase_of_mem hmem] at hcard
      have hpos : 0 < (s.attackers m).card := Finset.card_pos.mpr ⟨i, hmem⟩
      have hall := card_attackers_le s m
      by_cases hone : s.life m ≤ 0
      · have hge := h.ge m hone
        omega
      · omega
    · rw [Function.update_of_ne hmk] at hm ⊢
      have hge := h.ge m hm
      have herase := Finset.card_le_card (Finset.erase_subset i (s.attackers m))
      omega

/-- **Every step keeps the lives in their range.** -/
theorem Lives.turn (h : Lives s) (hinv : Inv G s) (hi : i < s.created) (hstep : turn G s i d = some (l, s')) :
    Lives s' := by
  have hquiet : ∀ {pc : Pc}, (∀ k, pc ≠ .attack k) → (∀ k, pc ≠ .decrement k) → ∀ k, pc.Attacks k →
      s.pc i = .attack k ∨ 0 ≤ s.life k := by
    intro pc hattack hdecrement k hk
    rcases hk with hk | hk
    · exact absurd hk (hattack k)
    · exact absurd hk (hdecrement k)
  cases hp : s.pc i with
  | getLife =>
    simp only [ToySoldiersSim.turn, hp] at hstep
    split_ifs at hstep <;> cases hstep <;> exact h.keep_pc rfl rfl rfl (hquiet (by simp) (by simp))
  | position =>
    simp only [ToySoldiersSim.turn, hp] at hstep
    split_ifs at hstep
    cases hstep
    exact h.keep_pc rfl rfl rfl (hquiet (by simp) (by simp))
  | scan r c dirs =>
    cases dirs with
    | nil =>
      simp only [ToySoldiersSim.turn, hp] at hstep
      cases hstep
      exact h.keep_pc rfl rfl rfl (hquiet (by simp) (by simp))
    | cons dir dirs =>
      obtain ⟨pc, hpc, rfl⟩ := turn_scan hp hstep
      rcases hpc with rfl | ⟨k, t, ho, rfl⟩
      · exact h.keep_pc rfl rfl rfl (hquiet (by simp) (by simp))
      · refine h.keep_pc rfl rfl rfl fun m hm => .inr ?_
        rcases hm with hm | hm
        · cases hm
          exact hinv.life_nonneg ho
        · cases hm
  | attack k =>
    simp only [ToySoldiersSim.turn, hp] at hstep
    split_ifs at hstep
    cases hstep
    refine h.keep_pc rfl rfl rfl fun m hm => .inl ?_
    rcases hm with hm | hm
    · cases hm
    · cases hm
      exact hp
  | decrement k =>
    simp only [ToySoldiersSim.turn, hp] at hstep
    cases hstep
    refine h.take hi hp (fun m hm => ?_) rfl rfl rfl
    split_ifs at hm <;> rcases hm with hm | hm <;> cases hm
  | clear k =>
    simp only [ToySoldiersSim.turn, hp] at hstep
    split at hstep <;> cases hstep <;> exact h.keep_pc rfl rfl rfl (hquiet (by simp) (by simp))
  | choose r c =>
    simp only [ToySoldiersSim.turn, hp] at hstep
    split at hstep <;> cases hstep
    · exact h
    · exact h.keep_pc rfl rfl rfl (hquiet (by simp) (by simp))
  | swap r c headingTo =>
    simp only [ToySoldiersSim.turn, hp] at hstep
    split at hstep <;> cases hstep <;> exact h.keep_pc rfl rfl rfl (hquiet (by simp) (by simp))
  | lockSelf r c =>
    simp only [ToySoldiersSim.turn, hp] at hstep
    split_ifs at hstep
    cases hstep
    exact h.keep_pc rfl rfl rfl (hquiet (by simp) (by simp))
  | count k | release k | setPos headingTo | unlockSelf =>
    simp only [ToySoldiersSim.turn, hp] at hstep
    cases hstep
    exact h.keep_pc rfl rfl rfl (hquiet (by simp) (by simp))
  | done => simp [ToySoldiersSim.turn, hp] at hstep
  | thrown => simp [ToySoldiersSim.turn, hp] at hstep

end ParSweet.ToySoldiersSim
