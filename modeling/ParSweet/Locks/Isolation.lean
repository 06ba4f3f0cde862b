import ParSweet.Concurrent.System
import ParSweet.Concurrent.Trace
import ParSweet.Locks.ThreadId
import ParSweet.Locks.ThreadLocal

/-! What the threads that share a `ThreadLocal` of the C++ suite see of each other.

Threads start, call `get()`, `isSet()` and `set()` any number of times, and exit. A thread
gets its id at its first call and has the slot `id % MaxThreads`; nothing clears the slot
when the thread exits, and `MaxThreads` ids later another thread has it. Threads whose ids
differ modulo `MaxThreads` see their own values only (`threadLocal_isolated`), and a thread
that starts after another has exited may find that one's value (`threadLocal_shares`). -/
namespace ParSweet.Locks.Isolation
open Concurrent

variable {τ α : Type*}

inductive Call (α : Type*) where
  | get
  | isSet
  | set (val : α)

/-- Where a thread stands. -/
inductive Pc (α : Type*) where
  /-- It has not started. -/
  | absent
  /-- It runs, outside the methods. -/
  | idle
  /-- `ThreadId::get() % MaxThreads` -/
  | getIdx (c : Call α)
  | get (idx : ℕ) (g : ThreadLocal.Get)
  /-- `setArr[idx]` -/
  | isSet (idx : ℕ)
  | set (idx : ℕ) (val : α) (p : ThreadLocal.Put)
  /-- `assert(id != 0)` has failed. -/
  | aborted
  | exited

structure State (τ α : Type*) where
  ids : ThreadId τ 64
  slots : ThreadLocal ℕ α
  pc : τ → Pc α

inductive Action (τ α : Type*) where
  | start (t : τ)
  | exit (t : τ)
  | call (t : τ) (c : Call α)
  /-- The next atomic step of a call. -/
  | turn (t : τ)

/-- What is seen of a run: the writes, and what the calls return. -/
inductive Event (τ α : Type*) where
  | start (t : τ)
  | exit (t : τ)
  /-- `setArr[idx] = true` -/
  | mark (t : τ) (idx : ℕ)
  /-- `dataArr[idx] = T()` -/
  | clear (t : τ) (idx : ℕ)
  /-- `dataArr[idx] = val`, with which `set(val)` returns. -/
  | set (t : τ) (idx : ℕ) (val : α)
  /-- `val` is read through the reference that `get()` returns. -/
  | got (t : τ) (idx : ℕ) (val : α)
  /-- `isSet()` returns `b`. -/
  | isSet (t : τ) (idx : ℕ) (b : Bool)

section Machine
variable [DecidableEq τ]

def State.goto (s : State τ α) (t : τ) (pc : Pc α) : State τ α := {s with pc := Function.update s.pc t pc}

/-- The first access of a call, with the slot's index. -/
def Call.begin (idx : ℕ) : Call α → Pc α
  | .get => .get idx .test
  | .isSet => .isSet idx
  | .set val => .set idx val .mark

/-- The write that an access of `get()` makes. -/
def getEvent (t : τ) (idx : ℕ) : ThreadLocal.Get → Option (Event τ α)
  | .test => none
  | .clear => some (.clear t idx)
  | .mark => some (.mark t idx)
  | .read => none

/-- The slot of a thread, `getIdx()`. -/
def State.slot (s : State τ α) (MaxThreads : ℕ) (t : τ) : ℕ := (s.ids.id t).toNat % MaxThreads

/-- No two threads that have an id have it congruent modulo `MaxThreads`. A thread draws its id
in its first call of a method and keeps it. -/
def SlotsOwn (MaxThreads : ℕ) (s : State τ α) : Prop :=
  ∀ t u, s.ids.id t ≠ 0 → s.ids.id u ≠ 0 →
    (s.ids.id t).toNat % MaxThreads = (s.ids.id u).toNat % MaxThreads → t = u

variable [Inhabited α]

def step (MaxThreads : ℕ) (s : State τ α) : Action τ α → Option (Option (Event τ α) × State τ α)
  | .start t =>
    match s.pc t with
    | .absent => some (some (.start t), s.goto t .idle)
    | _ => none
  | .exit t =>
    match s.pc t with
    | .idle => some (some (.exit t), s.goto t .exited)
    | _ => none
  | .call t c =>
    match s.pc t with
    | .idle => some (none, s.goto t (.getIdx c))
    | _ => none
  | .turn t =>
    match s.pc t with
    | .getIdx c =>
      let s := {s with ids := s.ids.get t}
      some (none, s.goto t (if s.ids.id t = 0 then .aborted else c.begin (s.slot MaxThreads t)))
    | .get idx g =>
      match g.step s.slots idx with
      | (l, .inl g') => some (getEvent t idx g, {s with slots := l}.goto t (.get idx g'))
      | (l, .inr val) => some (some (.got t idx val), {s with slots := l}.goto t .idle)
    | .isSet idx => some (some (.isSet t idx (s.slots.setArr idx)), s.goto t .idle)
    | .set idx val p =>
      match p.step s.slots idx val with
      | (l, some p') => some (some (.mark t idx), {s with slots := l}.goto t (.set idx val p'))
      | (l, none) => some (some (.set t idx val), {s with slots := l}.goto t .idle)
    | _ => none

/-- One `ThreadLocal` and its threads. What `new T[MaxThreads]` holds before it is written
may be anything. -/
def machine (τ : Type*) [DecidableEq τ] (MaxThreads : ℕ) (garbage : ℕ → α) :
    Machine (State τ α) (Action τ α) (Event τ α) where
  initial := ⟨.initial, ⟨fun _ => false, garbage⟩, fun _ => .absent⟩
  next := step MaxThreads

end Machine

/-! ### What is asked -/

section Trace

/-- The value that `t` last passed to `set()`. -/
def lastSet [DecidableEq τ] (es : List (Event τ α)) (t : τ) : Option α :=
  es.foldl (fun o e => match e with
    | .set u _ val => if u = t then some val else o
    | _ => o) none

/-- The thread that last wrote `dataArr[idx]`. -/
def lastStore (es : List (Event τ α)) (idx : ℕ) : Option τ :=
  es.foldl (fun o e => match e with
    | .clear u i => if i = idx then some u else o
    | .set u i _ => if i = idx then some u else o
    | _ => o) none

/-- `t` has called `set()` or `get()`. -/
def HasCalled (es : List (Event τ α)) (t : τ) : Prop :=
  ∃ idx val, .set t idx val ∈ es ∨ .got t idx val ∈ es

/-- A thread sees its own values only: what a call returns against the events before. -/
def Own [DecidableEq τ] [Inhabited α] (pre : List (Event τ α)) : Event τ α → Prop
  | .isSet t _ b => b = true → HasCalled pre t
  | .got t _ val => val = (lastSet pre t).getD default
  | _ => True

def Event.start? : Event τ α → Bool
  | .start _ => true
  | _ => false

def Event.exit? : Event τ α → Bool
  | .exit _ => true
  | _ => false

/-- At most `n` threads are alive at any moment. -/
def AliveAtMost (n : ℕ) (es : List (Event τ α)) : Prop :=
  ∀ k, (es.take k).countP Event.start? ≤ (es.take k).countP Event.exit? + n

variable {es : List (Event τ α)} {e : Event τ α} {t : τ} {idx : ℕ}

theorem lastSet_concat [DecidableEq τ] : lastSet (es ++ [e]) t =
    match e with
    | .set u _ val => if u = t then some val else lastSet es t
    | _ => lastSet es t := by
  rw [lastSet, List.foldl_append]
  rfl

theorem lastStore_concat : lastStore (es ++ [e]) idx =
    match e with
    | .clear u i => if i = idx then some u else lastStore es idx
    | .set u i _ => if i = idx then some u else lastStore es idx
    | _ => lastStore es idx := by
  rw [lastStore, List.foldl_append]
  rfl

/-- What has been written once stays written. -/
theorem lastStore_isSome_concat (h : (lastStore es idx).isSome) : (lastStore (es ++ [e]) idx).isSome := by
  rw [lastStore_concat]
  cases e with
  | clear u i => dsimp only; split_ifs <;> first | rfl | exact h
  | set u i val => dsimp only; split_ifs <;> first | rfl | exact h
  | start | exit | mark | got | isSet => exact h

theorem HasCalled.concat (h : HasCalled es t) : HasCalled (es ++ [e]) t := by
  obtain ⟨idx, val, h⟩ := h
  exact ⟨idx, val, h.imp (List.mem_append_left _) (List.mem_append_left _)⟩

theorem hasCalled_concat (h : HasCalled (es ++ [e]) t) :
    HasCalled es t ∨ ∃ idx val, e = .set t idx val ∨ e = .got t idx val := by
  obtain ⟨idx, val, h⟩ := h
  simp only [List.mem_append, List.mem_singleton] at h
  rcases h with (h | h) | (h | h)
  · exact .inl ⟨idx, val, .inl h⟩
  · exact .inr ⟨idx, val, .inl h.symm⟩
  · exact .inl ⟨idx, val, .inr h⟩
  · exact .inr ⟨idx, val, .inr h.symm⟩

end Trace

/-! ### The invariant -/

variable [DecidableEq τ] [Inhabited α]

/-- What holds of a thread by where it stands. -/
def At (N : ℕ) (es : List (Event τ α)) (s : State τ α) (t : τ) : Pc α → Prop
  | .get idx g => s.ids.id t ≠ 0 ∧ idx = s.slot N t ∧ (g = .clear ∨ g = .mark → lastSet es t = none) ∧
      (g = .mark ∨ g = .read → (lastStore es idx).isSome)
  | .isSet idx => s.ids.id t ≠ 0 ∧ idx = s.slot N t
  | .set idx _ p => s.ids.id t ≠ 0 ∧ idx = s.slot N t ∧ (p = .store → .mark t idx ∈ es)
  | _ => True

/-- The thread has set the flag of its slot in the call it is in. -/
def Marking : Pc α → Prop
  | .get _ g => g = .read
  | .set _ _ p => p = .store
  | _ => False

/-- The slots are what the writes seen so far have made them, each thread writes to its own
slot only, and the last value it wrote there is its own. -/
structure Inv (N : ℕ) (es : List (Event τ α)) (s : State τ α) : Prop where
  marked : ∀ idx, s.slots.setArr idx = true ↔ ∃ u, .mark u idx ∈ es
  stored : ∀ t idx, lastStore es idx = some t → s.slots.dataArr idx = (lastSet es t).getD default
  mark_own : ∀ t idx, .mark t idx ∈ es → s.ids.id t ≠ 0 ∧ idx = s.slot N t
  store_own : ∀ t idx, lastStore es idx = some t → s.ids.id t ≠ 0 ∧ idx = s.slot N t
  set_marked : ∀ t, lastSet es t ≠ none → .mark t (s.slot N t) ∈ es
  called : ∀ t idx, .mark t idx ∈ es → HasCalled es t ∨ Marking (s.pc t)
  called_stored : ∀ t, HasCalled es t → s.ids.id t ≠ 0 ∧ (lastStore es (s.slot N t)).isSome
  thread : ∀ t, At N es s t (s.pc t)

variable {N : ℕ} {es : List (Event τ α)} {s s' : State τ α} {e : Event τ α} {t u : τ} {pc : Pc α}
  {idx : ℕ} {val : α}

/-- An event that is no write to a slot. -/
def Event.Quiet : Event τ α → Prop
  | .start _ => True
  | .exit _ => True
  | .got _ _ _ => True
  | .isSet _ _ _ => True
  | _ => False

omit [DecidableEq τ] [Inhabited α] in
theorem Event.Quiet.mem_iff (h : e.Quiet) : .mark t idx ∈ es ++ [e] ↔ .mark t idx ∈ es := by
  rw [List.mem_append, List.mem_singleton, or_iff_left]
  intro he
  subst he
  exact h

omit [Inhabited α] in
theorem At.concat (h : At N es s u pc) (hids : s'.ids = s.ids)
    (hset : lastSet (es ++ [e]) u = lastSet es u) : At N (es ++ [e]) s' u pc := by
  cases pc <;> simp only [At, State.slot, hids, hset] at h ⊢
  · exact ⟨h.1, h.2.1, h.2.2.1, fun hg => lastStore_isSome_concat (h.2.2.2 hg)⟩
  · exact h
  · exact ⟨h.1, h.2.1, fun hp => List.mem_append_left _ (h.2.2 hp)⟩

/-- A turn of `t`: everybody else stands where they stood. -/
theorem Inv.thread_turn (h : Inv N es s) (hids : s'.ids = s.ids)
    (hset : ∀ u, u ≠ t → lastSet (es ++ [e]) u = lastSet es u) (hpc : At N (es ++ [e]) s' t pc) (u : τ) :
    At N (es ++ [e]) (s'.goto t pc) u (Function.update s.pc t pc u) := by
  refine (Function.forall_update_iff s.pc (At N (es ++ [e]) (s'.goto t pc))).mpr ⟨hpc, fun u hut => ?_⟩ u
  exact (h.thread u).concat hids (hset u hut)

/-- A thread that is not just setting its flag has called `set()` or `get()` if it ever has. -/
theorem Inv.hasCalled (h : Inv N es s) (hp : s.pc t = pc) (hm : ¬ Marking pc) (hmark : .mark t idx ∈ es) :
    HasCalled es t :=
  (h.called t idx hmark).resolve_right (hp ▸ hm)

/-- A turn that only moves `t` on. -/
theorem Inv.goto (h : Inv N es s) (hpc : At N es s t pc)
    (hcalled : ∀ idx, .mark t idx ∈ es → HasCalled es t ∨ Marking pc) : Inv N es (s.goto t pc) where
  marked := h.marked
  stored := h.stored
  mark_own := h.mark_own
  store_own := h.store_own
  set_marked := h.set_marked
  called := (Function.forall_update_iff s.pc fun u p => ∀ idx, .mark u idx ∈ es → HasCalled es u ∨ Marking p).mpr
    ⟨hcalled, fun u _ => h.called u⟩
  called_stored := h.called_stored
  thread := (Function.forall_update_iff s.pc (At N es s)).mpr ⟨hpc, fun u _ => h.thread u⟩

/-- An event that is no write. What a `get()` returns has been stored before. -/
theorem Inv.quiet (h : Inv N es s) (he : e.Quiet)
    (hgot : ∀ u idx val, e = .got u idx val → s.ids.id u ≠ 0 ∧ (lastStore es (s.slot N u)).isSome) :
    Inv N (es ++ [e]) s := by
  have hset : ∀ t, lastSet (es ++ [e]) t = lastSet es t := fun t => by
    rw [lastSet_concat]
    cases e <;> first | rfl | exact he.elim
  have hstore : ∀ idx, lastStore (es ++ [e]) idx = lastStore es idx := fun idx => by
    rw [lastStore_concat]
    cases e <;> first | rfl | exact he.elim
  refine ⟨?_, ?_, ?_, ?_, ?_, fun t idx ht => ?_, fun t ht => ?_, fun t => ?_⟩
  · simpa only [he.mem_iff] using h.marked
  · simpa only [hstore, hset] using h.stored
  · simpa only [he.mem_iff] using h.mark_own
  · simpa only [hstore] using h.store_own
  · simpa only [hset, he.mem_iff] using h.set_marked
  · exact (h.called t idx (he.mem_iff.mp ht)).imp_left HasCalled.concat
  · rw [hstore]
    rcases hasCalled_concat ht with ht | ⟨idx, val, rfl | heq⟩
    · exact h.called_stored t ht
    · exact he.elim
    · exact hgot t idx val heq
  · have hat := h.thread t
    cases hp : s.pc t <;> simp only [hp, At, hset, hstore, he.mem_iff] at hat ⊢ <;> exact hat

/-- A turn with such an event, of a thread that is not just setting its flag. -/
theorem Inv.quiet_goto (h : Inv N es s) (he : e.Quiet) (hgot : ∀ u idx val, e ≠ .got u idx val)
    {pc' : Pc α} (hp : s.pc t = pc) (hm : ¬ Marking pc)
    (hat : At N (es ++ [e]) s t pc') : Inv N (es ++ [e]) (s.goto t pc') :=
  (h.quiet he fun u idx val heq => absurd heq (hgot u idx val)).goto hat fun _ hi =>
    .inl (h.hasCalled hp hm (he.mem_iff.mp hi)).concat

/-- `setArr[idx] = true` -/
theorem Inv.mark (h : Inv N es s) (hid : s.ids.id t ≠ 0) (hidx : idx = s.slot N t)
    (hpc : At N (es ++ [.mark t idx]) s t pc) (hm : Marking pc) :
    Inv N (es ++ [.mark t idx]) ({s with slots := s.slots.mark idx}.goto t pc) where
  marked := fun i => by
    have := h.marked i
    by_cases hi : i = idx
    · subst hi
      simp [State.goto, ThreadLocal.mark]
    · simp [State.goto, ThreadLocal.mark, hi, this]
  stored := fun u i hu => by
    rw [lastStore_concat] at hu
    rw [lastSet_concat]
    exact h.stored u i hu
  mark_own := fun u i hu => by
    rcases List.mem_append.mp hu with hu | hu
    · exact h.mark_own u i hu
    · obtain ⟨rfl, rfl⟩ : u = t ∧ i = idx := by simpa using hu
      exact ⟨hid, hidx⟩
  store_own := fun u i hu => by
    rw [lastStore_concat] at hu
    exact h.store_own u i hu
  set_marked := fun u hu => by
    rw [lastSet_concat] at hu
    exact List.mem_append_left _ (h.set_marked u hu)
  called := by
    refine (Function.forall_update_iff s.pc fun u p => ∀ i, .mark u i ∈ es ++ [.mark t idx] →
      HasCalled (es ++ [.mark t idx]) u ∨ Marking p).mpr ⟨fun _ _ => .inr hm, fun u hut i hu => ?_⟩
    have hu : .mark u i ∈ es := by simpa [hut] using hu
    exact (h.called u i hu).imp_left HasCalled.concat
  called_stored := fun u hu => by
    rcases hasCalled_concat hu with hu | ⟨i, val, heq | heq⟩
    · exact ⟨(h.called_stored u hu).1, lastStore_isSome_concat (h.called_stored u hu).2⟩
    · cases heq
    · cases heq
  thread := h.thread_turn rfl (fun _ _ => lastSet_concat) hpc

/-- `dataArr[idx] = val`, where `val` is what the thread itself expects to find there from then on. -/
theorem Inv.store (h : Inv N es s) (hid : s.ids.id t ≠ 0) (hidx : idx = s.slot N t)
    (hstore : ∀ i, lastStore (es ++ [e]) i = if idx = i then some t else lastStore es i)
    (hset : ∀ u, u ≠ t → lastSet (es ++ [e]) u = lastSet es u)
    (hmark : ∀ u i, .mark u i ∈ es ++ [e] ↔ .mark u i ∈ es)
    (hval : val = (lastSet (es ++ [e]) t).getD default)
    (hmarked : lastSet (es ++ [e]) t ≠ none → .mark t idx ∈ es)
    (hcalls : ∀ u, HasCalled (es ++ [e]) u → HasCalled es u ∨ u = t)
    (hpc : At N (es ++ [e]) s t pc)
    (hcalled : ∀ i, .mark t i ∈ es → HasCalled (es ++ [e]) t ∨ Marking pc) :
    Inv N (es ++ [e]) ({s with slots := s.slots.store idx val}.goto t pc) where
  marked := fun i => by
    simp only [hmark]
    exact h.marked i
  stored := fun u i hu => by
    rw [hstore] at hu
    split_ifs at hu with hi
    · subst hi
      obtain rfl := Option.some.inj hu
      exact (Function.update_self ..).trans hval
    · have hut : u ≠ t := fun hut => hi (hidx.trans (hut ▸ (h.store_own u i hu).2.symm))
      rw [hset u hut, ← h.stored u i hu]
      exact Function.update_of_ne (Ne.symm hi) ..
  mark_own := fun u i hu => h.mark_own u i ((hmark u i).mp hu)
  store_own := fun u i hu => by
    rw [hstore] at hu
    split_ifs at hu with hi
    · subst hi
      obtain rfl := Option.some.inj hu
      exact ⟨hid, hidx⟩
    · exact h.store_own u i hu
  set_marked := fun u hu => by
    rw [hmark]
    by_cases hut : u = t
    · subst hut
      have := hmarked hu
      rwa [hidx] at this
    · rw [hset u hut] at hu
      exact h.set_marked u hu
  called := by
    simp only [hmark]
    exact (Function.forall_update_iff s.pc fun u p => ∀ i, .mark u i ∈ es → HasCalled (es ++ [e]) u ∨ Marking p).mpr
      ⟨hcalled, fun u _ i hu => (h.called u i hu).imp_left HasCalled.concat⟩
  called_stored := fun u hu => by
    rcases hcalls u hu with hu | rfl
    · exact ⟨(h.called_stored u hu).1, lastStore_isSome_concat (h.called_stored u hu).2⟩
    · refine ⟨hid, ?_⟩
      show (lastStore (es ++ [e]) (s.slot N u)).isSome
      rw [hstore, if_pos hidx]
      rfl
  thread := h.thread_turn rfl hset hpc

/-- `ThreadId::get()` -/
theorem Inv.getId (h : Inv N es s) : Inv N es {s with ids := s.ids.get t} := by
  have hslot : ∀ u, s.ids.id u ≠ 0 →
      ({s with ids := s.ids.get t} : State τ α).slot N u = s.slot N u := fun u hu => by
    simp only [State.slot, ThreadId.get_id_of_ne_zero hu]
  have hid : ∀ u, s.ids.id u ≠ 0 → (s.ids.get t).id u ≠ 0 := fun u hu => by
    rwa [ThreadId.get_id_of_ne_zero hu]
  refine ⟨h.marked, h.stored, fun u i hu => ?_, fun u i hu => ?_, fun u hu => ?_, h.called, fun u hu => ?_, fun u => ?_⟩
  · obtain ⟨hne, hi⟩ := h.mark_own u i hu
    exact ⟨hid u hne, by rwa [hslot u hne]⟩
  · obtain ⟨hne, hi⟩ := h.store_own u i hu
    exact ⟨hid u hne, by rwa [hslot u hne]⟩
  · have hmark := h.set_marked u hu
    rwa [hslot u (h.mark_own u _ hmark).1]
  · obtain ⟨hne, hsome⟩ := h.called_stored u hu
    exact ⟨hid u hne, by rwa [hslot u hne]⟩
  · have hat := h.thread u
    dsimp only
    cases hp : s.pc u <;> simp only [hp, At] at hat ⊢ <;>
      exact ⟨hid u hat.1, by rw [hslot u hat.1]; exact hat.2⟩

omit [DecidableEq τ] [Inhabited α] in
/-- Only the thread itself writes to its slot. -/
theorem SlotsOwn.writer (hown : SlotsOwn N s) (ht : s.ids.id t ≠ 0) (hidx : idx = s.slot N t)
    (hu : s.ids.id u ≠ 0 ∧ idx = s.slot N u) : u = t :=
  hown u t hu.1 ht (hu.2.symm.trans hidx)

/-- Only the thread itself sets the flag of its slot, and it has called `set()` or `get()` then. -/
theorem Inv.flag_own (h : Inv N es s) (hown : SlotsOwn N s) (ht : s.ids.id t ≠ 0)
    (hidx : idx = s.slot N t) (hp : s.pc t = pc) (hm : ¬ Marking pc) (hf : s.slots.setArr idx = true) :
    HasCalled es t := by
  obtain ⟨u, hu⟩ := (h.marked idx).mp hf
  obtain rfl := hown.writer ht hidx (h.mark_own u idx hu)
  exact h.hasCalled hp hm hu

/-- A turn of a call. -/
theorem Inv.turn {l : Option (Event τ α)} (h : Inv N es s)
    (hown : SlotsOwn N s) (hstep : step N s (.turn t) = some (l, s')) :
    Inv N (es ++ l.toList) s' ∧ ∀ e, l = some e → Own es e := by
  have hat := h.thread t
  cases hp : s.pc t with
  | absent => simp [step, hp] at hstep
  | idle => simp [step, hp] at hstep
  | aborted => simp [step, hp] at hstep
  | exited => simp [step, hp] at hstep
  | getIdx c =>
    simp only [step, hp, Option.some.injEq, Prod.mk.injEq] at hstep
    obtain ⟨rfl, rfl⟩ := hstep
    simp only [Option.toList_none, List.append_nil]
    refine ⟨h.getId.goto ?_ fun i hi => .inl (h.hasCalled hp id hi), fun _ he => by cases he⟩
    split_ifs with hid
    · trivial
    · cases c with
      | get =>
        refine ⟨hid, rfl, fun hg => ?_, fun hg => ?_⟩
        · rcases hg with hg | hg <;> cases hg
        · rcases hg with hg | hg <;> cases hg
      | isSet => exact ⟨hid, rfl⟩
      | set val => exact ⟨hid, rfl, fun h => by cases h⟩
  | isSet idx =>
    rw [hp] at hat
    obtain ⟨hid, hidx⟩ := hat
    simp only [step, hp, Option.some.injEq, Prod.mk.injEq] at hstep
    obtain ⟨rfl, rfl⟩ := hstep
    refine ⟨h.quiet_goto (e := .isSet t idx (s.slots.setArr idx)) trivial (fun _ _ _ he => by cases he)
      hp id trivial, fun e he => ?_⟩
    cases he
    exact h.flag_own hown hid hidx hp id
  | get idx g =>
    rw [hp] at hat
    obtain ⟨hid, hidx, hnone, hsome⟩ := hat
    cases g with
    | test =>
      simp only [step, hp, ThreadLocal.Get.step, getEvent, Option.some.injEq, Prod.mk.injEq] at hstep
      obtain ⟨rfl, rfl⟩ := hstep
      rw [Option.toList_none, List.append_nil]
      refine ⟨h.goto ⟨hid, hidx, fun hg => ?_, fun hg => ?_⟩ fun i hi =>
        .inl (h.hasCalled hp (fun hg => by cases hg) hi), fun _ he => by cases he⟩
      · -- the flag is not set, so the thread has set nothing
        have hf : s.slots.setArr idx ≠ true := fun hf => by
          rw [if_pos hf] at hg
          rcases hg with hg | hg <;> cases hg
        by_contra hset
        exact hf ((h.marked idx).mpr ⟨t, hidx ▸ h.set_marked t hset⟩)
      · -- the flag is set, so the thread has stored a value
        have hf : s.slots.setArr idx = true := by
          by_contra hf
          rw [if_neg hf] at hg
          rcases hg with hg | hg <;> cases hg
        have hcalled := h.flag_own hown hid hidx hp (fun hm => by cases hm) hf
        rw [hidx]
        exact (h.called_stored t hcalled).2
    | clear =>
      simp only [step, hp, ThreadLocal.Get.step, getEvent, Option.some.injEq, Prod.mk.injEq] at hstep
      obtain ⟨rfl, rfl⟩ := hstep
      have hnone : lastSet (es ++ [.clear t idx]) t = none := by
        rw [lastSet_concat]
        exact hnone (.inl rfl)
      refine ⟨h.store hid hidx (fun i => lastStore_concat) (fun u _ => lastSet_concat) (fun u i => by simp)
        (by rw [hnone]; rfl) (fun hset => absurd hnone hset) (fun u hu => ?_)
        ⟨hid, hidx, fun _ => hnone, fun _ => ?_⟩ fun i hi => ?_, fun e he => by cases he; trivial⟩
      · rcases hasCalled_concat hu with hu | ⟨i, val, heq | heq⟩
        · exact .inl hu
        · cases heq
        · cases heq
      · rw [lastStore_concat]
        simp
      · exact .inl (h.hasCalled hp (fun hg => by cases hg) hi).concat
    | mark =>
      simp only [step, hp, ThreadLocal.Get.step, getEvent, Option.some.injEq, Prod.mk.injEq] at hstep
      obtain ⟨rfl, rfl⟩ := hstep
      refine ⟨h.mark hid hidx ⟨hid, hidx, fun hg => ?_, fun _ => ?_⟩ rfl, fun e he => by cases he; trivial⟩
      · rcases hg with hg | hg <;> cases hg
      · exact lastStore_isSome_concat (hsome (.inl rfl))
    | read =>
      simp only [step, hp, ThreadLocal.Get.step, Option.some.injEq, Prod.mk.injEq] at hstep
      obtain ⟨rfl, rfl⟩ := hstep
      have hquiet : Event.Quiet (.got t idx (s.slots.dataArr idx) : Event τ α) := trivial
      have hstored : (lastStore es idx).isSome := hsome (.inr rfl)
      refine ⟨(h.quiet hquiet fun u i val he => ?_).goto trivial fun i _ =>
        .inl ⟨idx, s.slots.dataArr idx, .inr ?_⟩, fun e he => ?_⟩
      · cases he
        exact ⟨hid, hidx ▸ hstored⟩
      · exact List.mem_append_right _ (List.mem_singleton_self _)
      · cases he
        obtain ⟨u, hu⟩ := Option.isSome_iff_exists.mp hstored
        obtain rfl := hown.writer hid hidx (h.store_own u idx hu)
        exact h.stored u idx hu
  | set idx val p =>
    rw [hp] at hat
    obtain ⟨hid, hidx, hmark⟩ := hat
    cases p with
    | mark =>
      simp only [step, hp, ThreadLocal.Put.step, Option.some.injEq, Prod.mk.injEq] at hstep
      obtain ⟨rfl, rfl⟩ := hstep
      exact ⟨h.mark hid hidx ⟨hid, hidx, fun _ => by simp⟩ rfl, fun e he => by cases he; trivial⟩
    | store =>
      simp only [step, hp, ThreadLocal.Put.step, Option.some.injEq, Prod.mk.injEq] at hstep
      obtain ⟨rfl, rfl⟩ := hstep
      have hset : lastSet (es ++ [.set t idx val]) t = some val := by
        rw [lastSet_concat]
        exact if_pos rfl
      refine ⟨h.store hid hidx (fun i => lastStore_concat) (fun u hu => ?_) (fun u i => by simp)
        (by rw [hset]; rfl) (fun _ => hmark rfl) (fun u hu => ?_) trivial fun i _ => .inl ?_,
        fun e he => by cases he; trivial⟩
      · rw [lastSet_concat]
        exact if_neg (Ne.symm hu)
      · rcases hasCalled_concat hu with hu | ⟨i, val, heq | heq⟩
        · exact .inl hu
        · cases heq
          exact .inr rfl
        · cases heq
      · exact ⟨idx, val, .inl (List.mem_append_right _ (List.mem_singleton_self _))⟩

/-- **A step keeps the invariant, and what it shows is the thread's own.** -/
theorem Inv.step {l : Option (Event τ α)} {x : Action τ α} (h : Inv N es s)
    (hown : SlotsOwn N s) (hstep : step N s x = some (l, s')) :
    Inv N (es ++ l.toList) s' ∧ ∀ e, l = some e → Own es e := by
  cases x with
  | turn t => exact h.turn hown hstep
  | start t =>
    cases hp : s.pc t <;> simp only [Isolation.step, hp, reduceCtorEq, Option.some.injEq, Prod.mk.injEq] at hstep
    obtain ⟨rfl, rfl⟩ := hstep
    exact ⟨h.quiet_goto (e := .start t) trivial (fun _ _ _ he => by cases he) hp id trivial,
      fun e he => by cases he; trivial⟩
  | exit t =>
    cases hp : s.pc t <;> simp only [Isolation.step, hp, reduceCtorEq, Option.some.injEq, Prod.mk.injEq] at hstep
    obtain ⟨rfl, rfl⟩ := hstep
    exact ⟨h.quiet_goto (e := .exit t) trivial (fun _ _ _ he => by cases he) hp id trivial,
      fun e he => by cases he; trivial⟩
  | call t c =>
    cases hp : s.pc t <;> simp only [Isolation.step, hp, reduceCtorEq, Option.some.injEq, Prod.mk.injEq] at hstep
    obtain ⟨rfl, rfl⟩ := hstep
    rw [Option.toList_none, List.append_nil]
    exact ⟨h.goto trivial fun i hi => .inl (h.hasCalled hp id hi), fun _ he => by cases he⟩

theorem inv_initial (N : ℕ) (garbage : ℕ → α) : Inv N [] (machine τ N garbage).initial where
  marked := fun i => by simp [machine]
  stored := fun t i h => by cases h
  mark_own := fun t i h => by cases h
  store_own := fun t i h => by cases h
  set_marked := fun t h => absurd rfl h
  called := fun t i h => by cases h
  called_stored := fun t ⟨_, _, h⟩ => by rcases h with h | h <;> cases h
  thread := fun _ => trivial

/-- A step is `ThreadId::get()` or leaves the ids alone. -/
theorem step_ids {l : Option (Event τ α)} {x : Action τ α} (hstep : step N s x = some (l, s')) :
    s'.ids = s.ids ∨ ∃ u, s'.ids = s.ids.get u := by
  cases x with
  | turn u =>
    cases hp : s.pc u with
    | getIdx c =>
      simp only [step, hp, Option.some.injEq, Prod.mk.injEq] at hstep
      obtain ⟨rfl, rfl⟩ := hstep
      exact .inr ⟨u, rfl⟩
    | get idx g =>
      cases g <;> simp only [step, hp, ThreadLocal.Get.step, Option.some.injEq, Prod.mk.injEq] at hstep <;>
        exact .inl (congrArg State.ids hstep.2).symm
    | set idx val p =>
      cases p <;> simp only [step, hp, ThreadLocal.Put.step, Option.some.injEq, Prod.mk.injEq] at hstep <;>
        exact .inl (congrArg State.ids hstep.2).symm
    | isSet idx =>
      simp only [step, hp, Option.some.injEq, Prod.mk.injEq] at hstep
      exact .inl (congrArg State.ids hstep.2).symm
    | absent | idle | aborted | exited => simp [step, hp] at hstep
  | start u | exit u | call u c =>
    cases hp : s.pc u <;> simp only [step, hp, reduceCtorEq, Option.some.injEq, Prod.mk.injEq] at hstep
    exact .inl (congrArg State.ids hstep.2).symm

/-- Threads keep their ids, so their slots were their own before. -/
theorem SlotsOwn.of_step {l : Option (Event τ α)} {x : Action τ α} (hown : SlotsOwn N s')
    (hstep : step N s x = some (l, s')) : SlotsOwn N s := by
  have hid : ∀ t, s.ids.id t ≠ 0 → s'.ids.id t = s.ids.id t := fun t ht => by
    rcases step_ids hstep with hids | ⟨u, hids⟩
    · rw [hids]
    · rw [hids, ThreadId.get_id_of_ne_zero ht]
  intro t u ht hu heq
  apply hown t u
  · rwa [hid t ht]
  · rwa [hid u hu]
  · rwa [hid t ht, hid u hu]

/-- **Threads with slots of their own see their own values only.** -/
theorem threadLocal_isolated (N : ℕ) (garbage : ℕ → α) (es : List (Event τ α)) (s : State τ α)
    (hrun : (machine τ N garbage).system.Run es s) (hown : SlotsOwn N s) : Always Own es := by
  have hinv : SlotsOwn N s → Inv N es s ∧ Always Own es := by
    refine hrun.invariant_events (S := (machine τ N garbage).system)
      (I := fun es s => SlotsOwn N s → Inv N es s ∧ Always Own es)
      (fun _ => ⟨inv_initial N garbage, always_nil⟩) ?_
    rintro es s l s' ih ⟨x, hstep⟩ hown'
    have hown := hown'.of_step hstep
    obtain ⟨hinv, halways⟩ := ih hown
    obtain ⟨hinv', he⟩ := hinv.step hown hstep
    exact ⟨hinv', always_append_toList.mpr ⟨halways, he⟩⟩
  exact (hinv hown).2

/-- Two threads on two slots: the first sets `5` and reads it back, the second finds its slot
unset. -/
theorem threadLocal_isolated_two : Always Own
    [Event.start (0 : Fin 2), .start 1, .mark 0 1, .set 0 1 5, .got 0 1 5, .isSet 1 0 false] := by
  have hexec : ∃ s, (machine (Fin 2) 2 fun _ => 7).exec (machine (Fin 2) 2 fun _ => 7).initial
      [.start 0, .start 1, .call 0 (.set 5), .turn 0, .turn 0, .turn 0, .call 0 .get, .turn 0, .turn 0,
        .turn 0, .call 1 .isSet, .turn 1, .turn 1] = some
      ([.start 0, .start 1, .mark 0 1, .set 0 1 5, .got 0 1 5, .isSet 1 0 false], s) ∧ SlotsOwn 2 s :=
    ⟨_, rfl, by unfold SlotsOwn; decide⟩
  obtain ⟨s, hexec, hown⟩ := hexec
  exact threadLocal_isolated 2 (fun _ => 7) _ s (Machine.exec_path hexec) hown

/-! ### What happens without it -/

/-- What is asked for any number of threads over time, at most `MaxThreads` of them alive at
any moment. -/
def Isolates (τ : Type*) [DecidableEq τ] (MaxThreads : ℕ) (garbage : ℕ → α) : Prop :=
  ∀ es s, (machine τ MaxThreads garbage).system.Run es s → AliveAtMost MaxThreads es → Always Own es

/-- **Threads share**: with one slot, a thread sets `5` and exits, and the next finds the slot
set. -/
theorem threadLocal_shares : ¬ Isolates (Fin 2) 1 (fun _ => 0) := by
  intro h
  obtain ⟨s, hrun⟩ := Machine.exec_run (M := machine (Fin 2) 1 fun _ => 0)
    [.start 0, .call 0 (.set 5), .turn 0, .turn 0, .turn 0, .exit 0, .start 1, .call 1 .isSet, .turn 1,
      .turn 1]
    [.start 0, .mark 0 0, .set 0 0 5, .exit 0, .start 1, .isSet 1 0 true] rfl
  have hown := h _ s hrun fun k => by
    rcases k with _ | _ | _ | _ | _ | _ | k <;> simp [List.countP_cons, Event.start?, Event.exit?]
  simpa [Own, HasCalled] using always_iff_take.mp hown 5 _ rfl

end ParSweet.Locks.Isolation
