import ParSweet.Concurrent.AtomicObject
import ParSweet.Concurrent.QueueLock

/-! Objects whose mutexes are code.

An `Implementation` takes a mutex in one step, and gives it up in one. A lock takes many:
a thread goes on in `lock()` until it is inside, and in `unlock()` until it is outside
again (`LockCode`). With any lock that lets in one thread at a time in place of its mutexes
(`Guarded.onLocks`), an object does nothing it did not do before (`Guarded.simulation`): a
mutex is held by the thread that is inside of its lock, from the return of `lock()` to the
step of `unlock()` that gives it up. -/
namespace ParSweet.Concurrent

/-! ### Locks -/

/-- Where a thread stands with a lock. -/
inductive Phase where
  /-- In neither method, and not holding the lock. -/
  | outside
  | locking
  /-- `lock()` has returned, and `unlock()` has not given up the lock. -/
  | inside
  /-- `unlock()` has given it up. -/
  | unlocking
  deriving DecidableEq

/-- From where to where a step of a thread leads. -/
def Phase.Leads : Phase → Phase → Prop
  | .outside, q | .locking, q => q = .locking ∨ q = .inside
  | .inside, q => q = .inside ∨ q = .unlocking ∨ q = .outside
  | .unlocking, q => q = .unlocking ∨ q = .outside

/-- The code of a lock: a machine whose threads call `lock()` and `unlock()` in turn. -/
structure LockCode (τ κ α ε : Type*) where
  machine : Machine κ α ε
  /-- Whose step it is. -/
  thread : α → τ
  phase : κ → τ → Phase

namespace LockCode
variable {τ κ α ε : Type*} (C : LockCode τ κ α ε)

/-- **Mutual exclusion**, of threads that lock and unlock in turn. -/
structure Excludes : Prop where
  outside : ∀ t, C.phase C.machine.initial t = .outside
  leads : ∀ k a l k', C.machine.system.Reachable k → C.machine.next k a = some (l, k') →
    (C.phase k (C.thread a)).Leads (C.phase k' (C.thread a))
  others : ∀ k a l k' u, C.machine.system.Reachable k → C.machine.next k a = some (l, k') → u ≠ C.thread a →
    C.phase k' u = C.phase k u
  one : ∀ k, C.machine.system.Reachable k → ∀ t u, C.phase k t = .inside → C.phase k u = .inside → t = u

/-- A step moves the thread that takes it, and the phases are those of where the threads stand. -/
theorem Excludes.of_pc [DecidableEq τ] {C : LockCode τ κ α ε} {π : Type*} (pc : κ → τ → π) (f : π → Phase)
    (hphase : ∀ k t, C.phase k t = f (pc k t)) (houtside : ∀ t, f (pc C.machine.initial t) = .outside)
    (hstep : ∀ k a l k', C.machine.system.Reachable k → C.machine.next k a = some (l, k') →
      ∃ p, pc k' = Function.update (pc k) (C.thread a) p ∧ (f (pc k (C.thread a))).Leads (f p))
    (hone : ∀ k, C.machine.system.Reachable k → ∀ t u, f (pc k t) = .inside → f (pc k u) = .inside → t = u) :
    C.Excludes where
  outside := fun t => (hphase _ t).trans (houtside t)
  leads := fun k a l k' hk hnext => by
    obtain ⟨p, hpc, hleads⟩ := hstep k a l k' hk hnext
    rw [hphase, hphase, hpc, Function.update_self]
    exact hleads
  others := fun k a l k' u hk hnext hu => by
    obtain ⟨p, hpc, _⟩ := hstep k a l k' hk hnext
    rw [hphase, hphase, hpc, Function.update_of_ne hu]
  one := fun k hk t u ht hu => hone k hk t u (hphase k t ▸ ht) (hphase k u ▸ hu)

/-- The step `a` of `t` with the lock `n`. -/
def turn {ν : Type*} [DecidableEq τ] [DecidableEq ν] (ks : ν → κ) (n : ν) (t : τ) (a : α) : Option (ν → κ) :=
  if C.thread a = t then (C.machine.next (ks n) a).map fun p => Function.update ks n p.2 else none

end LockCode

/-! ### Locks whose threads queue -/

def Stage.phase : Stage → Phase
  | .idle => .outside
  | .before | .waiting => .locking
  | .holding => .inside
  | .after => .unlocking

namespace QueueCode
variable {σ τ π : Type*} [DecidableEq τ] {C : QueueCode σ τ π} {M : Machine σ τ (LockEvent τ)}
  {es : List (LockEvent τ)} {s : σ} {t : τ}

/-- The queue is a lock. -/
def lockCode (C : QueueCode σ τ π) (M : Machine σ τ (LockEvent τ)) : LockCode τ σ τ (LockEvent τ) where
  machine := M
  thread := id
  phase := fun s t => (C.stage (C.pc s t)).phase

/-- Whoever has entered and not left is the one inside of the ideal lock. -/
theorem Reads.inside (h : C.Reads M) (hrun : M.system.Run es s)
    (ht : C.stage (C.pc s t) = .holding) {f : FifoLock.State τ} (hf : (FifoLock.system τ).Run es f) :
    f.inside = some t := by
  refine (hrun.invariant_events (I := fun es s => M.system.Run es s ∧ ∀ f, (FifoLock.system τ).Run es f →
    ∀ t, C.stage (C.pc s t) = .holding → f.inside = some t) ⟨.refl, fun f _ t ht => ?_⟩ ?_).2 f hf t ht
  · rw [show C.stage (C.pc M.system.initial t) = .idle from h.initial t] at ht
    cases ht
  intro es s l s' ⟨hrun, ih⟩ ⟨u, hstep⟩
  refine ⟨hrun.step ⟨u, hstep⟩, fun f hf t ht => ?_⟩
  rcases h.turn hrun hstep with ⟨rfl, hpc, _⟩ | ⟨_, hgoes⟩
  · rw [Option.toList_none, List.append_nil] at hf
    refine ih f hf t ?_
    by_cases htu : t = u
    · rw [htu, ← hpc, ← htu, ht]
    · rwa [← h.others hrun hstep htu]
  · generalize hx : C.stage (C.pc s u) = x at hgoes
    generalize hy : C.stage (C.pc s' u) = y at hgoes
    -- whoever has not just entered was inside before
    have hbefore : ∀ {g}, (FifoLock.system τ).Run es g → (t = u → x = .holding) → g.inside = some t := by
      intro g hg hself
      refine ih g hg t ?_
      by_cases htu : t = u
      · rw [htu, hx, hself htu]
      · rwa [← h.others hrun hstep htu]
    have hself : t = u → y = .holding := fun htu => by rw [← hy, ← htu, ht]
    cases hgoes with
    | within _ =>
      rw [Option.toList_none, List.append_nil] at hf
      exact hbefore hf hself
    | begin | back =>
      rw [Option.toList_none, List.append_nil] at hf
      exact hbefore hf fun htu => by cases hself htu
    | enqueue _ =>
      obtain ⟨k, hk, hlast⟩ := FifoLock.run_concat hf
      cases hlast
      have hin := hbefore hk fun htu => by cases hself htu
      exact hin
    | enter =>
      obtain ⟨k, hk, hlast⟩ := FifoLock.run_concat hf
      cases hlast
      by_cases htu : t = u
      · rw [htu]
      · cases hbefore hk fun he => absurd he htu
    | leave hout =>
      obtain ⟨k, hk, hlast⟩ := FifoLock.run_concat hf
      cases hlast
      by_cases htu : t = u
      · rcases hout with rfl | rfl <;> cases hself htu
      · have hin := hbefore hk fun he => absurd he htu
        exact absurd (Option.some.inj hin).symm htu

/-- **A lock that keeps the order of a queue excludes.** -/
theorem Reads.excludes (h : C.Reads M) (horder : KeepsOrder M) : (C.lockCode M).Excludes where
  outside := fun t => by
    show (C.stage (C.pc M.initial t)).phase = .outside
    rw [h.initial]
    rfl
  leads := fun s t l s' hs hstep => by
    obtain ⟨es, hrun⟩ := hs
    show (C.stage (C.pc s t)).phase.Leads (C.stage (C.pc s' t)).phase
    rcases h.turn hrun hstep with ⟨_, hpc, hq⟩ | ⟨_, hgoes⟩
    · rw [hpc]
      rcases hq with hq | hq <;> rw [hq]
      · exact .inl rfl
      · exact .inl rfl
    · generalize C.stage (C.pc s t) = x at hgoes
      generalize C.stage (C.pc s' t) = y at hgoes
      cases hgoes with
      | @within x hx =>
        cases x with
        | idle => exact absurd rfl hx
        | before | waiting | holding | after => exact .inl rfl
      | begin => exact .inl rfl
      | enqueue hx =>
        rcases hx with rfl | rfl
        · exact .inl rfl
        · exact .inl rfl
      | enter => exact .inr rfl
      | leave hy =>
        rcases hy with rfl | rfl
        · exact .inr (.inl rfl)
        · exact .inr (.inr rfl)
      | back => exact .inr rfl
  others := fun s t l s' u ⟨es, hrun⟩ hstep hu => by
    show (C.stage (C.pc s' u)).phase = (C.stage (C.pc s u)).phase
    rw [h.others hrun hstep hu]
  one := fun s ⟨es, hrun⟩ t u ht hu => by
    have hholding : ∀ x : Stage, x.phase = .inside → x = .holding := by
      intro x hx
      cases x <;> first | rfl | cases hx
    obtain ⟨f, hf⟩ := horder _ _ hrun
    have hin := h.inside hrun (hholding _ ht) hf
    exact Option.some.inj (hin.symm.trans (h.inside hrun (hholding _ hu) hf))

end QueueCode

/-! ### Locks for so many calls -/

namespace Machine
variable {σ τ : Type*} {M : Machine σ τ (LockEvent τ)} {n : ℕ} {s : σ × List (LockEvent τ)}

/-- The same lock, as long as `lock()` is called fewer than `n` times. -/
def below (M : Machine σ τ (LockEvent τ)) (n : ℕ) : Machine (σ × List (LockEvent τ)) τ (LockEvent τ) where
  initial := (M.initial, [])
  next := fun s t =>
    match M.next s.1 t with
    | none => none
    | some (l, s') =>
      if (enqueued (s.2 ++ l.toList)).length < n then some (l, s', s.2 ++ l.toList) else none

theorem below_next {s' : σ × List (LockEvent τ)} {t : τ} {l : Option (LockEvent τ)}
    (h : (M.below n).next s t = some (l, s')) :
    M.next s.1 t = some (l, s'.1) ∧ s'.2 = s.2 ++ l.toList ∧ (enqueued s'.2).length < n := by
  simp only [below] at h
  cases hn : M.next s.1 t with
  | none => simp [hn] at h
  | some p =>
    obtain ⟨l₁, x⟩ := p
    simp only [hn] at h
    split at h
    · next hlt =>
      simp only [Option.some.injEq, Prod.mk.injEq] at h
      obtain ⟨rfl, rfl⟩ := h
      exact ⟨rfl, rfl, hlt⟩
    · cases h

/-- What it shows is what the lock shows. -/
theorem below_run (hn : 0 < n) (h : (M.below n).system.Reachable s) :
    M.system.Run s.2 s.1 ∧ (enqueued s.2).length < n := by
  refine h.invariant (S := (M.below n).system)
    (I := fun s => M.system.Run s.2 s.1 ∧ (enqueued s.2).length < n) ⟨.refl, hn⟩ ?_
  rintro s l s' ⟨hrun, _⟩ ⟨t, hstep⟩
  obtain ⟨hnext, hes, hlt⟩ := below_next hstep
  exact ⟨hes ▸ hrun.step ⟨t, hnext⟩, hlt⟩

end Machine

/-! ### Objects over locks -/

/-- What a call's next step does with a mutex, and where the call goes on. -/
inductive Touch (loc ν : Type*) where
  | takes (n : ν) (l : loc)
  | gives (n : ν) (l : loc)
  | leaves

variable {τ Op Res σ loc χ ν κ α ε A : Type*} [DecidableEq τ] [DecidableEq ν]

/-- An object's mutexes are free to be something else: only the steps that take one or give
one up have to do with them. -/
structure Guarded (I : Implementation τ Op Res σ loc χ) (ν : Type*) [DecidableEq ν] where
  holder : σ → ν → Option τ
  /-- The store with these holders instead. -/
  put : σ → (ν → Option τ) → σ
  touch : loc → Touch loc ν
  put_holder : ∀ s, put s (holder s) = s
  put_put : ∀ s h h', put (put s h) h' = put s h'
  holder_put : ∀ s h, holder (put s h) = h
  takes : ∀ t s l n l' c, touch l = .takes n l' → holder s n = none →
    I.step t s l c = some (put s (Function.update (holder s) n (some t)), l')
  gives : ∀ t s l n l' c, touch l = .gives n l' →
    I.step t s l c = some (put s (Function.update (holder s) n none), l')
  leaves : ∀ t s h l c, touch l = .leaves → I.step t (put s h) l c = (I.step t s l c).map fun p => (put p.1 h, p.2)

namespace Guarded
variable {I : Implementation τ Op Res σ loc χ} (G : Guarded I ν) (C : LockCode τ κ α ε)

/-- No call takes a mutex that its thread holds, or gives up one that it does not. -/
structure Tidy : Prop where
  takes : ∀ s, I.system.Reachable s → ∀ t l n l', s.pc t = some l → G.touch l = .takes n l' →
    G.holder s.store n ≠ some t
  gives : ∀ s, I.system.Reachable s → ∀ t l n l', s.pc t = some l → G.touch l = .gives n l' →
    G.holder s.store n = some t

/-- Where a call stands. -/
inductive Stand (loc ν : Type*) where
  | on (l : loc)
  /-- In `lock()`; the call goes on at `l`. -/
  | locking (n : ν) (l : loc)
  | unlocking (n : ν) (l : loc)

/-- The call is in no lock, and at `P`. -/
def Stand.On (P : loc → Prop) : Stand loc ν → Prop
  | .on l => P l
  | .locking _ _ | .unlocking _ _ => False

/-- The object with a lock for every mutex; the mutexes themselves are left alone. -/
def onLocks : Implementation τ Op Res (σ × (ν → κ)) (Stand loc ν) (χ × α) where
  store := (I.store, fun _ => C.machine.initial)
  start := fun op => .on (I.start op)
  step := fun t s x c =>
    match x with
    | .on l =>
      match G.touch l with
      | .takes n l' => some (s, .locking n l')
      | .gives n l' => some (s, .unlocking n l')
      | .leaves => (I.step t s.1 l c.1).map fun p => ((p.1, s.2), .on p.2)
    | .locking n l =>
      if C.phase (s.2 n) t = .inside then some (s, .on l)
      else (C.turn s.2 n t c.2).map fun ks => ((s.1, ks), .locking n l)
    | .unlocking n l =>
      if C.phase (s.2 n) t = .outside then some (s, .on l)
      else (C.turn s.2 n t c.2).map fun ks => ((s.1, ks), .unlocking n l)
  result := fun
    | .on l => I.result l
    | .locking _ _ | .unlocking _ _ => none

/-! ### The object it stands for -/

/-- Where a call stands over locks, and where it stands on the mutexes. -/
def At (ks : ν → κ) (t : τ) : Option (Stand loc ν) → Option loc → Prop
  | none, q => q = none
  | some (.on l), q => q = some l
  | some (.locking n l), q => ∃ k, q = some k ∧ G.touch k = .takes n l
  | some (.unlocking n l), q =>
    if C.phase (ks n) t = .inside then ∃ k, q = some k ∧ G.touch k = .gives n l else q = some l

/-- What a call has to do with the lock `n`, and how its thread stands with it. -/
def Stands (n : ν) : Option (Stand loc ν) → Phase → Prop
  | some (.locking m _), x => if m = n then x ≠ .unlocking else x = .outside ∨ x = .inside
  | some (.unlocking m _), x => if m = n then x ≠ .locking else x = .outside ∨ x = .inside
  | _, x => x = .outside ∨ x = .inside

/-- The call is in `lock()` of `n`. -/
def InLock (n : ν) : Option (Stand loc ν) → Prop
  | some (.locking m _) => m = n
  | _ => False

/-- The object over locks as the object on mutexes. -/
structure Rel (s : Implementation.State τ (σ × (ν → κ)) (Stand loc ν)) (a : Implementation.State τ σ loc) :
    Prop where
  store : a.store = G.put s.store.1 (G.holder a.store)
  locks : ∀ n, C.machine.system.Reachable (s.store.2 n)
  stands : ∀ t n, Stands n (s.pc t) (C.phase (s.store.2 n) t)
  holder : ∀ n t, G.holder a.store n = some t ↔ C.phase (s.store.2 n) t = .inside ∧ ¬ InLock n (s.pc t)
  thread : ∀ t, At G C s.store.2 t (s.pc t) (a.pc t)

variable {G C} {s : Implementation.State τ (σ × (ν → κ)) (Stand loc ν)} {a : Implementation.State τ σ loc}
  {t u : τ} {n : ν} {l l' : loc} {x : Stand loc ν} {ks : ν → κ} {c : α}

omit [DecidableEq τ] in
theorem at_congr {ks' : ν → κ} {p : Option (Stand loc ν)} {q : Option loc} (h : At G C ks t p q)
    (hphase : ∀ n, C.phase (ks' n) t = C.phase (ks n) t) : At G C ks' t p q := by
  match p with
  | none | some (.on l) | some (.locking n l) => exact h
  | some (.unlocking n l) =>
    show if C.phase (ks' n) t = .inside then _ else _
    rw [hphase]
    exact h

/-- One thread has moved. -/
theorem Rel.update (h : Rel G C s a) {st : σ} {ks : ν → κ} {p : Option (Stand loc ν)} {b : σ} {q : Option loc}
    (hstore : b = G.put st (G.holder b)) (hlocks : ∀ n, C.machine.system.Reachable (ks n))
    (hothers : ∀ n u, u ≠ t → C.phase (ks n) u = C.phase (s.store.2 n) u)
    (hstands : ∀ n, Stands n p (C.phase (ks n) t))
    (hholders : ∀ n u, u ≠ t → (G.holder b n = some u ↔ G.holder a.store n = some u))
    (hholder : ∀ n, G.holder b n = some t ↔ C.phase (ks n) t = .inside ∧ ¬ InLock n p)
    (hat : At G C ks t p q) : Rel G C ⟨(st, ks), Function.update s.pc t p⟩ ⟨b, Function.update a.pc t q⟩ where
  store := hstore
  locks := hlocks
  stands := fun u n => by
    by_cases hu : u = t
    · subst hu
      simpa only [Function.update_self] using hstands n
    · simpa only [Function.update_of_ne hu, hothers n u hu] using h.stands u n
  holder := fun n u => by
    by_cases hu : u = t
    · subst hu
      simpa only [Function.update_self] using hholder n
    · simpa only [Function.update_of_ne hu, hothers n u hu, hholders n u hu] using h.holder n u
  thread := fun u => by
    by_cases hu : u = t
    · subst hu
      simpa only [Function.update_self] using hat
    · simpa only [Function.update_of_ne hu] using at_congr (h.thread u) fun n => hothers n u hu

/-- One thread has moved, and the stores are what they were. -/
theorem Rel.goto (h : Rel G C s a) {p : Option (Stand loc ν)} {q : Option loc}
    (hstands : ∀ n, Stands n p (C.phase (s.store.2 n) t))
    (hlock : ∀ n, C.phase (s.store.2 n) t = .inside → (InLock n p ↔ InLock n (s.pc t)))
    (hat : At G C s.store.2 t p q) :
    Rel G C ⟨s.store, Function.update s.pc t p⟩ ⟨a.store, Function.update a.pc t q⟩ := by
  refine h.update h.store h.locks (fun _ _ _ => rfl) hstands (fun _ _ _ => Iff.rfl) (fun n => ?_) hat
  rw [h.holder]
  exact and_congr_right fun hin => not_congr (hlock n hin).symm

/-- What a step of a lock does. -/
theorem turn_cases (hx : C.Excludes) (hlocks : ∀ n, C.machine.system.Reachable (ks n)) {ks' : ν → κ}
    (hturn : C.turn ks n t c = some ks') :
    (∀ m, C.machine.system.Reachable (ks' m)) ∧ (∀ m u, u ≠ t → C.phase (ks' m) u = C.phase (ks m) u) ∧
      (∀ m, m ≠ n → C.phase (ks' m) t = C.phase (ks m) t) ∧ (C.phase (ks n) t).Leads (C.phase (ks' n) t) := by
  unfold LockCode.turn at hturn
  split at hturn
  · next ht =>
    subst ht
    obtain ⟨⟨e, k⟩, hnext, rfl⟩ := Option.map_eq_some_iff.mp hturn
    refine ⟨fun m => ?_, fun m u hu => ?_, fun m hm => ?_, ?_⟩
    · by_cases hm : m = n
      · subst hm
        rw [Function.update_self]
        exact (hlocks m).path (.single ⟨c, hnext⟩)
      · rw [Function.update_of_ne hm]
        exact hlocks m
    · by_cases hm : m = n
      · subst hm
        rw [Function.update_self]
        exact hx.others _ _ _ _ u (hlocks m) hnext hu
      · rw [Function.update_of_ne hm]
    · rw [Function.update_of_ne hm]
    · rw [Function.update_self]
      exact hx.leads _ _ _ _ (hlocks n) hnext
  · cases hturn

/-! ### Step by step -/

theorem path_run (hpc : a.pc t = some l) {st : σ} {d : χ} (hstep : I.step t a.store l d = some (st, l')) :
    I.system.Path a [] ⟨st, Function.update a.pc t (some l')⟩ :=
  System.Path.single (S := I.system) (l := none)
    ⟨.run t d, by simp only [Implementation.machine, Implementation.next, hpc, hstep, Option.map_some]⟩

/-- The call moves on, and the object on mutexes waits. -/
theorem Rel.wait (h : Rel G C s a) (hstands : ∀ n, Stands n (some x) (C.phase (s.store.2 n) t))
    (hlock : ∀ n, C.phase (s.store.2 n) t = .inside → (InLock n (some x) ↔ InLock n (s.pc t)))
    (hat : At G C s.store.2 t (some x) (a.pc t)) :
    ∃ b, I.system.Path a [] b ∧ Rel G C ⟨s.store, Function.update s.pc t (some x)⟩ b := by
  refine ⟨a, .refl, ?_⟩
  have hgoto := h.goto hstands hlock hat
  rwa [Function.update_eq_self] at hgoto

omit [DecidableEq τ] in
theorem Rel.pc_on (h : Rel G C s a) (hpc : s.pc t = some (.on l)) : a.pc t = some l := by
  have hat := h.thread t
  rwa [hpc] at hat

omit [DecidableEq τ] in
/-- A call that is not in a lock is inside of those that its thread holds. -/
theorem Rel.holder_on (h : Rel G C s a) (hpc : s.pc t = some (.on l)) (n : ν) :
    (C.phase (s.store.2 n) t = .outside ∨ C.phase (s.store.2 n) t = .inside) ∧
      (G.holder a.store n = some t ↔ C.phase (s.store.2 n) t = .inside) := by
  have hstands := h.stands t n
  have hholder := h.holder n t
  rw [hpc] at hstands hholder
  exact ⟨hstands, hholder.trans (and_iff_left id)⟩

/-- A step that has nothing to do with the mutexes. -/
theorem Rel.leaves (h : Rel G C s a) (hpc : s.pc t = some (.on l)) (htouch : G.touch l = .leaves) {st : σ} {d : χ}
    (hstep : I.step t s.store.1 l d = some (st, l')) :
    ∃ b, I.system.Path a [] b ∧ Rel G C ⟨(st, s.store.2), Function.update s.pc t (some (.on l'))⟩ b := by
  have hrun : I.step t a.store l d = some (G.put st (G.holder a.store), l') := by
    rw [h.store, G.leaves t s.store.1 _ l d htouch, hstep, Option.map_some, ← h.store]
  refine ⟨_, path_run (h.pc_on hpc) hrun, ?_⟩
  refine h.update ?_ h.locks (fun _ _ _ => rfl) (fun n => (h.holder_on hpc n).1) (fun n u _ => ?_) (fun n => ?_) rfl
  · rw [G.holder_put]
  · rw [G.holder_put]
  · rw [G.holder_put]
    exact (h.holder_on hpc n).2.trans (and_iff_left id).symm

/-- The call of `lock()`. -/
theorem Rel.lock (h : Rel G C s a) (hG : G.Tidy) (ha : I.system.Reachable a) (hpc : s.pc t = some (.on l))
    (htouch : G.touch l = .takes n l') :
    ∃ b, I.system.Path a [] b ∧ Rel G C ⟨s.store, Function.update s.pc t (some (.locking n l'))⟩ b := by
  refine h.wait (fun m => ?_) (fun m hin => ?_) ⟨l, h.pc_on hpc, htouch⟩
  · show if n = m then _ else _
    split
    · intro hphase
      rcases (h.holder_on hpc m).1 with hp | hp <;> rw [hphase] at hp <;> cases hp
    · exact (h.holder_on hpc m).1
  · rw [hpc]
    refine iff_of_false (fun hm : n = m => ?_) id
    subst hm
    exact hG.takes a ha t l n l' (h.pc_on hpc) htouch ((h.holder_on hpc n).2.mpr hin)

/-- The call of `unlock()`. -/
theorem Rel.unlock (h : Rel G C s a) (hG : G.Tidy) (ha : I.system.Reachable a) (hpc : s.pc t = some (.on l))
    (htouch : G.touch l = .gives n l') :
    ∃ b, I.system.Path a [] b ∧ Rel G C ⟨s.store, Function.update s.pc t (some (.unlocking n l'))⟩ b := by
  have hin := (h.holder_on hpc n).2.mp (hG.gives a ha t l n l' (h.pc_on hpc) htouch)
  refine h.wait (fun m => ?_) (fun m _ => by rw [hpc]; exact Iff.rfl) ?_
  · show if n = m then _ else _
    split
    · intro hphase
      rcases (h.holder_on hpc m).1 with hp | hp <;> rw [hphase] at hp <;> cases hp
    · exact (h.holder_on hpc m).1
  · show if C.phase (s.store.2 n) t = .inside then _ else _
    rw [if_pos hin]
    exact ⟨l, h.pc_on hpc, htouch⟩

omit [DecidableEq τ] in
/-- Nobody holds a mutex whose lock somebody has just entered. -/
theorem Rel.free (h : Rel G C s a) (hx : C.Excludes) (hpc : s.pc t = some (.locking n l))
    (hin : C.phase (s.store.2 n) t = .inside) : G.holder a.store n = none := by
  cases hheld : G.holder a.store n with
  | none => rfl
  | some u =>
    obtain ⟨hu, hnot⟩ := (h.holder n u).mp hheld
    obtain rfl := hx.one _ (h.locks n) u t hu hin
    rw [hpc] at hnot
    exact absurd rfl hnot

/-- The return of `lock()`. -/
theorem Rel.entered (h : Rel G C s a) (hx : C.Excludes) (d : χ) (hpc : s.pc t = some (.locking n l))
    (hin : C.phase (s.store.2 n) t = .inside) :
    ∃ b, I.system.Path a [] b ∧ Rel G C ⟨s.store, Function.update s.pc t (some (.on l))⟩ b := by
  have hfree := h.free hx hpc hin
  have hat := h.thread t
  rw [hpc] at hat
  obtain ⟨k, hk, htouch⟩ := hat
  refine ⟨_, path_run hk (G.takes t a.store k n l d htouch hfree), ?_⟩
  refine h.update ?_ h.locks (fun _ _ _ => rfl) (fun m => ?_) (fun m u hu => ?_) (fun m => ?_) rfl
  · rw [G.holder_put, h.store, G.put_put, ← h.store]
  · by_cases hm : m = n
    · exact .inr (hm ▸ hin)
    · have hstands := h.stands t m
      rw [hpc] at hstands
      rwa [Stands, if_neg (Ne.symm hm)] at hstands
  · rw [G.holder_put]
    by_cases hm : m = n
    · subst hm
      rw [Function.update_self, hfree]
      exact iff_of_false (fun ht => hu (Option.some.inj ht).symm) (Option.some_ne_none u).symm
    · rw [Function.update_of_ne hm]
  · rw [G.holder_put]
    by_cases hm : m = n
    · subst hm
      rw [Function.update_self]
      exact iff_of_true rfl ⟨hin, id⟩
    · rw [Function.update_of_ne hm, h.holder, hpc]
      exact and_congr_right fun _ => not_congr (iff_of_false (fun hn : n = m => hm hn.symm) id)

/-- A step in `lock()`. -/
theorem Rel.locking (h : Rel G C s a) (hx : C.Excludes) (hpc : s.pc t = some (.locking n l))
    (hin : C.phase (s.store.2 n) t ≠ .inside) (hturn : C.turn s.store.2 n t c = some ks) :
    ∃ b, I.system.Path a [] b ∧ Rel G C ⟨(s.store.1, ks), Function.update s.pc t (some (.locking n l))⟩ b := by
  obtain ⟨hlocks, hothers, hsame, hleads⟩ := turn_cases hx h.locks hturn
  have hat := h.thread t
  have hstands := h.stands t
  rw [hpc] at hat hstands
  refine ⟨⟨a.store, Function.update a.pc t (a.pc t)⟩, by rw [Function.update_eq_self]; exact .refl, ?_⟩
  refine h.update h.store hlocks hothers (fun m => ?_) (fun _ _ _ => Iff.rfl) (fun m => ?_) hat
  · have hm := hstands m
    show if n = m then _ else _
    rw [Stands] at hm
    split at hm
    · next heq =>
      subst heq
      rw [if_pos rfl]
      intro hphase
      rw [hphase] at hleads
      cases hp : C.phase (s.store.2 n) t with
      | outside | locking => rw [hp] at hleads; rcases hleads with hl | hl <;> cases hl
      | inside => exact hin hp
      | unlocking => exact hm hp
    · next hne =>
      rw [if_neg hne, hsame m (Ne.symm hne)]
      exact hm
  · rw [h.holder, hpc]
    by_cases hm : m = n
    · exact iff_of_false (fun hx => hx.2 hm.symm) fun hx => hx.2 hm.symm
    · rw [hsame m hm]

/-- The return of `unlock()`. -/
theorem Rel.left (h : Rel G C s a) (hpc : s.pc t = some (.unlocking n l)) (hout : C.phase (s.store.2 n) t = .outside) :
    ∃ b, I.system.Path a [] b ∧ Rel G C ⟨s.store, Function.update s.pc t (some (.on l))⟩ b := by
  have hat := h.thread t
  have hstands := h.stands t
  rw [hpc] at hat hstands
  refine h.wait (fun m => ?_) (fun m _ => by rw [hpc]; exact Iff.rfl) ?_
  · by_cases hm : m = n
    · exact .inl (hm ▸ hout)
    · have hstands := hstands m
      rwa [Stands, if_neg (Ne.symm hm)] at hstands
  · rwa [At, if_neg (by rw [hout]; decide)] at hat

/-- A step in `unlock()` that gives up the lock gives up the mutex. -/
theorem Rel.givesUp (h : Rel G C s a) (d : χ) (hpc : s.pc t = some (.unlocking n l))
    (hin : C.phase (s.store.2 n) t = .inside) (hlocks : ∀ m, C.machine.system.Reachable (ks m))
    (hothers : ∀ m u, u ≠ t → C.phase (ks m) u = C.phase (s.store.2 m) u)
    (hsame : ∀ m, m ≠ n → C.phase (ks m) t = C.phase (s.store.2 m) t)
    (hstands : ∀ m, Stands m (some (.unlocking n l)) (C.phase (ks m) t)) (hnot : C.phase (ks n) t ≠ .inside) :
    ∃ b, I.system.Path a [] b ∧ Rel G C ⟨(s.store.1, ks), Function.update s.pc t (some (.unlocking n l))⟩ b := by
  have hat := h.thread t
  rw [hpc, At, if_pos hin] at hat
  obtain ⟨k, hk, htouch⟩ := hat
  have hheld : G.holder a.store n = some t := (h.holder n t).mpr ⟨hin, by rw [hpc]; exact id⟩
  refine ⟨_, path_run hk (G.gives t a.store k n l d htouch), ?_⟩
  refine h.update ?_ hlocks hothers hstands (fun m u hu => ?_) (fun m => ?_) ?_
  · rw [G.holder_put, h.store, G.put_put, ← h.store]
  · rw [G.holder_put]
    by_cases hm : m = n
    · subst hm
      rw [Function.update_self, hheld]
      exact iff_of_false (Option.some_ne_none u).symm fun ht => hu (Option.some.inj ht).symm
    · rw [Function.update_of_ne hm]
  · rw [G.holder_put]
    by_cases hm : m = n
    · subst hm
      rw [Function.update_self]
      exact iff_of_false (Option.some_ne_none t).symm fun hp => hnot hp.1
    · rw [Function.update_of_ne hm, h.holder, hpc, hsame m hm]
  · rw [At, if_neg hnot]

/-- A step in `unlock()`. -/
theorem Rel.unlocking (h : Rel G C s a) (hx : C.Excludes) (d : χ) (hpc : s.pc t = some (.unlocking n l))
    (hout : C.phase (s.store.2 n) t ≠ .outside) (hturn : C.turn s.store.2 n t c = some ks) :
    ∃ b, I.system.Path a [] b ∧ Rel G C ⟨(s.store.1, ks), Function.update s.pc t (some (.unlocking n l))⟩ b := by
  obtain ⟨hlocks, hothers, hsame, hleads⟩ := turn_cases hx h.locks hturn
  have hat := h.thread t
  have hstands := h.stands t
  rw [hpc] at hat hstands
  have hphase : C.phase (ks n) t ≠ .locking ∧ (C.phase (s.store.2 n) t ≠ .inside → C.phase (ks n) t ≠ .inside) := by
    have hn := hstands n
    rw [Stands, if_pos rfl] at hn
    cases hp : C.phase (s.store.2 n) t with
    | outside => exact absurd hp hout
    | locking => exact absurd hp hn
    | inside =>
      rw [hp] at hleads
      rcases hleads with hl | hl | hl <;> rw [hl] <;> decide
    | unlocking =>
      rw [hp] at hleads
      rcases hleads with hl | hl <;> rw [hl] <;> decide
  have hnew : ∀ m, Stands m (some (.unlocking n l)) (C.phase (ks m) t) := by
    intro m
    have hm := hstands m
    show if n = m then _ else _
    rw [Stands] at hm
    split at hm
    · next heq =>
      subst heq
      rw [if_pos rfl]
      exact hphase.1
    · next hne =>
      rw [if_neg hne, hsame m (Ne.symm hne)]
      exact hm
  by_cases hgives : C.phase (s.store.2 n) t = .inside ∧ C.phase (ks n) t ≠ .inside
  · exact h.givesUp d hpc hgives.1 hlocks hothers hsame hnew hgives.2
  -- the thread is inside still, or it was not
  · have hiff : ∀ m, C.phase (ks m) t = .inside ↔ C.phase (s.store.2 m) t = .inside := by
      intro m
      by_cases hm : m = n
      · subst hm
        by_cases hin : C.phase (s.store.2 m) t = .inside
        · exact iff_of_true (not_not.mp fun hnot => hgives ⟨hin, hnot⟩) hin
        · exact iff_of_false (hphase.2 hin) hin
      · rw [hsame m hm]
    refine ⟨⟨a.store, Function.update a.pc t (a.pc t)⟩, by rw [Function.update_eq_self]; exact .refl, ?_⟩
    refine h.update h.store hlocks hothers hnew (fun _ _ _ => Iff.rfl) (fun m => ?_) ?_
    · rw [h.holder, hpc, hiff]
    · simp only [At, hiff] at hat ⊢
      exact hat

/-- What a step of a call is, on the mutexes. -/
theorem Rel.run (h : Rel G C s a) (hx : C.Excludes) (hG : G.Tidy) (ha : I.system.Reachable a) {d : χ × α}
    {st : σ × (ν → κ)} {x' : Stand loc ν} (hpc : s.pc t = some x)
    (hstep : (G.onLocks C).step t s.store x d = some (st, x')) :
    ∃ b, I.system.Path a [] b ∧ Rel G C ⟨st, Function.update s.pc t (some x')⟩ b := by
  cases x with
  | on l =>
    simp only [onLocks] at hstep
    cases htouch : G.touch l with
    | takes n l' =>
      simp only [htouch, Option.some.injEq, Prod.mk.injEq] at hstep
      obtain ⟨rfl, rfl⟩ := hstep
      exact h.lock hG ha hpc htouch
    | gives n l' =>
      simp only [htouch, Option.some.injEq, Prod.mk.injEq] at hstep
      obtain ⟨rfl, rfl⟩ := hstep
      exact h.unlock hG ha hpc htouch
    | leaves =>
      simp only [htouch, Option.map_eq_some_iff, Prod.mk.injEq] at hstep
      obtain ⟨⟨st', l'⟩, hrun, rfl, rfl⟩ := hstep
      exact h.leaves hpc htouch hrun
  | locking n l =>
    simp only [onLocks] at hstep
    split at hstep
    · next hin =>
      simp only [Option.some.injEq, Prod.mk.injEq] at hstep
      obtain ⟨rfl, rfl⟩ := hstep
      exact h.entered hx d.1 hpc hin
    · next hin =>
      simp only [Option.map_eq_some_iff, Prod.mk.injEq] at hstep
      obtain ⟨ks, hturn, rfl, rfl⟩ := hstep
      exact h.locking hx hpc hin hturn
  | unlocking n l =>
    simp only [onLocks] at hstep
    split at hstep
    · next hout =>
      simp only [Option.some.injEq, Prod.mk.injEq] at hstep
      obtain ⟨rfl, rfl⟩ := hstep
      exact h.left hpc hout
    · next hout =>
      simp only [Option.map_eq_some_iff, Prod.mk.injEq] at hstep
      obtain ⟨ks, hturn, rfl, rfl⟩ := hstep
      exact h.unlocking hx d.1 hpc hout hturn

variable (G C)

/-- **Over locks that exclude, an object does what it does on mutexes.** -/
def simulation (hx : C.Excludes) (hG : G.Tidy) (hfree : ∀ n, G.holder I.store n = none) :
    System.Simulation (G.onLocks C).system I.system :=
  .ofReachable (Rel G C)
    { store := (G.put_holder _).symm
      locks := fun _ => ⟨[], .refl⟩
      stands := fun t _ => .inl (hx.outside t)
      holder := fun n t => by
        rw [show G.holder I.system.initial.store n = none from hfree n]
        refine iff_of_false (Option.some_ne_none t).symm fun hp => ?_
        rw [show C.phase ((G.onLocks C).system.initial.store.2 n) t = .outside from hx.outside t] at hp
        exact absurd hp.1 (by decide)
      thread := fun _ => rfl } <| by
    intro s a e s' ha h hstep
    rcases Implementation.step_cases hstep with ⟨t, op, hpc, rfl, rfl⟩ | ⟨t, x, d, st, x', hpc, hst, rfl, rfl⟩ |
      ⟨t, x, r, hpc, hr, rfl, rfl⟩
    · have hat := h.thread t
      have hstands := h.stands t
      rw [hpc] at hat hstands
      refine ⟨⟨a.store, Function.update a.pc t (some (I.start op))⟩, System.Path.single (S := I.system)
        (l := some (.call t op)) ⟨.call t op, ?_⟩, h.goto hstands (fun _ _ => by rw [hpc]; exact Iff.rfl) rfl⟩
      simp only [Implementation.machine, Implementation.next, show a.pc t = none from hat]
    · exact h.run hx hG ha hpc hst
    · cases x with
      | on l =>
        have hstands := h.stands t
        rw [hpc] at hstands
        refine ⟨⟨a.store, Function.update a.pc t none⟩, System.Path.single (S := I.system)
          (l := some (.ret t r)) ⟨.ret t, ?_⟩, h.goto hstands (fun _ _ => by rw [hpc]; exact Iff.rfl) rfl⟩
        simp only [Implementation.machine, Implementation.next, h.pc_on hpc, show I.result l = some r from hr,
          Option.map_some]
      | locking n l | unlocking n l => cases hr

variable {G C}

/-- Over locks, an object is linearizable to what it is linearizable to on mutexes. -/
theorem linearizable {S : Spec Op Res A} (hx : C.Excludes) (hG : G.Tidy) (hfree : ∀ n, G.holder I.store n = none)
    (hI : I.Linearizable S) : (G.onLocks C).Linearizable S := by
  intro es s hs
  obtain ⟨a, ha, _⟩ := (simulation G C hx hG hfree).run hs
  exact hI es a ha

/-- Over locks, no call gets to where none gets on mutexes. -/
theorem never {P : loc → Prop} (hx : C.Excludes) (hG : G.Tidy) (hfree : ∀ n, G.holder I.store n = none)
    (hI : ∀ a, I.system.Reachable a → ∀ t l, a.pc t = some l → ¬ P l) (hs : (G.onLocks C).system.Reachable s)
    (hpc : s.pc t = some x) : ¬ x.On P := by
  obtain ⟨a, ha, _, h⟩ := (simulation G C hx hG hfree).reachable hs
  cases x with
  | on l => exact hI a ha t l (h.pc_on hpc)
  | locking n l | unlocking n l => exact id

end Guarded

end ParSweet.Concurrent
