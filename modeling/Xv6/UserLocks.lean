import Xv6.ProcTable
import Xv6.Runs

namespace Xv6

/-- Steps of the processes, most of them a section that holds ptable.lock, and of the scheduler. -/
inductive ProcEvent
  | lock (p : Slot) (id : Option Int)
  | release (p : Slot) (id : Option Int)
  | nice (p : Slot) (pid value : Option Int)
  | kill (p : Slot) (pid : Int)
  | forkClaim (p : Slot)
  | forkInit (p : Slot)
  | forkFail (p : Slot)
  | forkFinish (p : Slot)
  | exit (p : Slot)
  | wait (p : Slot)
  | sleep (p : Slot) (chan : Chan)
  | wakeup (chan : Chan)
  | yield (p : Slot)
  | dispatch (p : Slot)
  deriving DecidableEq, Repr

/-- A process makes a system call while it is running and outside fork. -/
def Table.InUser (t : Table) (p : Slot) : Prop :=
  (t.proc p).state = .running ∧ t.fork p = .none

instance (t : Table) (p : Slot) : Decidable (t.InUser p) :=
  inferInstanceAs (Decidable (_ ∧ _))

def Table.step (t : Table) : ProcEvent → Option Reply
  | .lock p id => if t.InUser p then some (sysLock t p id) else none
  | .release p id => if t.InUser p then some (sysRelease t p id) else none
  | .nice p pid value => if t.InUser p then some (sysNice t pid value) else none
  | .kill p pid => if t.InUser p then some (killPid t pid) else none
  | .forkClaim p => if t.InUser p then some (allocproc t p) else none
  | .forkInit p => (allocprocInit t p).map fun u => ⟨u, 0, []⟩
  | .forkFail p =>
    match t.fork p with
    | .initialised np => some (forkFail t p np)
    | _ => none
  | .forkFinish p =>
    match t.fork p with
    | .initialised np => some (forkFinish t p np)
    | _ => none
  | .exit p => if t.InUser p ∧ p ≠ initproc then some ⟨exitProc t p, 0, []⟩ else none
  | .wait p => if t.InUser p then some (waitScan t p) else none
  | .sleep p chan =>
    if t.InUser p then some ⟨t.setProc p { t.proc p with chan := some chan, state := .sleeping }, 0,
      []⟩
    else none
  | .wakeup chan => some ⟨wakeup1 t chan, 0, []⟩
  | .yield p =>
    if (t.proc p).state = .running then some
      ⟨t.setProc p { t.proc p with state := .runnable }, 0, []⟩
    else none
  | .dispatch p =>
    if (t.proc p).state = .runnable then some
      ⟨t.setProc p { t.proc p with state := .running }, 0, []⟩
    else none

/-- The table with a record of which processes are past a lock call that returned 0
and have neither released that lock since nor exited. -/
structure LockSys where
  table : Table
  past : Slot → Fin 7 → Bool

def LockSys.boot : LockSys := ⟨Table.boot, fun _ _ => false⟩

def LockSys.record (past : Slot → Fin 7 → Bool) (ret : Int) : ProcEvent → Slot → Fin 7 → Bool
  | .lock p id => fun q k => if q = p ∧ lockIndex id = some k ∧ ret = 0 then true else past q k
  | .release p id => fun q k => if q = p ∧ lockIndex id = some k then false else past q k
  | .exit p => fun q k => if q = p then false else past q k
  | _ => past

def LockSys.step (s : LockSys) (e : ProcEvent) : Option LockSys :=
  (s.table.step e).map fun r => ⟨r.table, LockSys.record s.past r.ret e⟩

/-- The kernel's ownership record agrees with what lock told user code. -/
def LockSys.Exclusive (s : LockSys) : Prop :=
  (∀ p k, s.past p k → (s.table.locks k).held = 1 ∧ (s.table.locks k).holder = some p) ∧
    ∀ p q k, s.past p k → s.past q k → p = q

/-- A lock call finds the lock free, or already held by the caller. -/
def LockSys.Uncontended (s : LockSys) : ProcEvent → Prop
  | .lock p id => ∀ k, lockIndex id = some k →
      (s.table.locks k).held = 0 ∨ (s.table.locks k).holder = some p
  | _ => True

instance (s : LockSys) (e : ProcEvent) : Decidable (s.Uncontended e) := by
  cases e <;> unfold LockSys.Uncontended <;> infer_instance

theorem LockSys.exclusive_of_owner {s : LockSys}
    (h : ∀ p k, s.past p k → (s.table.locks k).held = 1 ∧ (s.table.locks k).holder = some p) :
    s.Exclusive := by
  refine ⟨h, ?_⟩
  intro p q k hp hq
  exact Option.some.inj ((h p k hp).2.symm.trans (h q k hq).2)

theorem Table.step_locks_other {t : Table} {e : ProcEvent} {r : Reply} (h : t.step e = some r)
    (hl : ∀ p id, e ≠ .lock p id) (hr : ∀ p id, e ≠ .release p id) :
    r.table.locks = t.locks := by
  cases e with
  | lock p id => exact absurd rfl (hl p id)
  | release p id => exact absurd rfl (hr p id)
  | nice p pid value =>
    obtain ⟨_, rfl⟩ := Runs.of_guard h
    unfold sysNice
    repeat' split
    all_goals rfl
  | kill p pid =>
    obtain ⟨_, rfl⟩ := Runs.of_guard h
    unfold killPid
    split <;> rfl
  | forkClaim p =>
    obtain ⟨_, rfl⟩ := Runs.of_guard h
    unfold allocproc
    split <;> rfl
  | forkInit p =>
    obtain ⟨u, hu, rfl⟩ := Option.map_eq_some_iff.mp h
    unfold allocprocInit at hu
    split at hu
    · cases Option.some.inj hu; rfl
    · cases Option.some.inj hu; rfl
    · cases Option.some.inj hu; rfl
    · simp at hu
  | forkFail p | forkFinish p =>
    simp only [Table.step] at h
    split at h
    · cases Option.some.inj h; rfl
    · simp at h
  | exit p =>
    obtain ⟨_, rfl⟩ := Runs.of_guard h
    exact exitProc_locks t p
  | wait p =>
    obtain ⟨_, rfl⟩ := Runs.of_guard h
    unfold waitScan
    repeat' split
    all_goals rfl
  | sleep p chan | yield p | dispatch p =>
    obtain ⟨_, rfl⟩ := Runs.of_guard h
    rfl
  | wakeup chan => cases Option.some.inj h; rfl

theorem lockSys_step_eq {s t : LockSys} {e : ProcEvent} (h : s.step e = some t) :
    ∃ r, s.table.step e = some r ∧ t = ⟨r.table, LockSys.record s.past r.ret e⟩ := by
  obtain ⟨r, hr, he⟩ := Option.map_eq_some_iff.mp h
  exact ⟨r, hr, he.symm⟩

theorem sysLock_ret {t : Table} {p : Slot} {id : Option Int} {k : Fin 7}
    (hk : lockIndex id = some k) : (sysLock t p id).ret = 0 := by
  simp only [sysLock, hk]
  repeat' split
  all_goals rfl

theorem sysLock_free {t : Table} {p : Slot} {id : Option Int} {k : Fin 7}
    (hk : lockIndex id = some k) (hf : (t.locks k).held = 0) :
    (sysLock t p id).table.locks = Function.update t.locks k ⟨1, some p⟩ := by
  simp [sysLock, hk, hf]

theorem sysLock_taken {t : Table} {p : Slot} {id : Option Int} {k : Fin 7}
    (hk : lockIndex id = some k) (hf : (t.locks k).held ≠ 0) :
    (sysLock t p id).table.locks = t.locks := by
  simp only [sysLock, hk, hf, if_false]
  repeat' split
  all_goals rfl

theorem sysLock_invalid {t : Table} {p : Slot} {id : Option Int}
    (hk : lockIndex id = none) : (sysLock t p id).table = t ∧ (sysLock t p id).ret = -1 := by
  simp [sysLock, hk]

theorem sysRelease_locks {t : Table} {p : Slot} {id : Option Int} {k : Fin 7}
    (hk : lockIndex id = some k) :
    (sysRelease t p id).table.locks =
      if (t.locks k).held = 1 ∧ (t.locks k).holder = some p then Function.update t.locks k ⟨0, none⟩
      else t.locks := by
  simp only [sysRelease, hk]
  split
  · split <;> rfl
  · rfl

theorem sysRelease_invalid {t : Table} {p : Slot} {id : Option Int}
    (hk : lockIndex id = none) : (sysRelease t p id).table = t := by
  simp [sysRelease, hk]

/-- The held word of a lock is only ever 0 or 1. -/
def Table.HeldBit (t : Table) : Prop :=
  ∀ k, (t.locks k).held = 0 ∨ (t.locks k).held = 1

theorem heldBit_update {t t' : Table} {k : Fin 7} {v : UserLock} (hb : t.HeldBit)
    (hv : v.held = 0 ∨ v.held = 1) (h : t'.locks = Function.update t.locks k v) : t'.HeldBit := by
  intro i
  rw [h]
  by_cases hi : i = k
  · simpa [hi] using hv
  · simpa [Function.update_of_ne hi] using hb i

theorem heldBit_of_locks_eq {t t' : Table} (hb : t.HeldBit) (h : t'.locks = t.locks) :
    t'.HeldBit := by
  intro i
  rw [h]
  exact hb i

theorem Table.step_heldBit {t : Table} {e : ProcEvent} {r : Reply} (hb : t.HeldBit)
    (h : t.step e = some r) : r.table.HeldBit := by
  by_cases hl : ∃ p id, e = .lock p id
  · obtain ⟨p, id, rfl⟩ := hl
    obtain ⟨_, rfl⟩ := Runs.of_guard h
    cases hk : lockIndex id with
    | none => rw [(sysLock_invalid hk).1]; exact hb
    | some k =>
      by_cases hf : (t.locks k).held = 0
      · exact heldBit_update hb (Or.inr rfl) (sysLock_free hk hf)
      · exact heldBit_of_locks_eq hb (sysLock_taken hk hf)
  · by_cases hr : ∃ p id, e = .release p id
    · obtain ⟨p, id, rfl⟩ := hr
      obtain ⟨_, rfl⟩ := Runs.of_guard h
      cases hk : lockIndex id with
      | none => rw [sysRelease_invalid hk]; exact hb
      | some k =>
        have he := sysRelease_locks (t := t) (p := p) hk
        split at he
        next => exact heldBit_update hb (Or.inl rfl) he
        next => exact heldBit_of_locks_eq hb he
    · exact heldBit_of_locks_eq hb
        (Table.step_locks_other h (fun p id he => hl ⟨p, id, he⟩) (fun p id he => hr ⟨p, id, he⟩))

theorem lock_keeps_owners {s : LockSys} {p : Slot} {id : Option Int} (hb : s.table.HeldBit)
    (hs : s.Exclusive) (hu : s.Uncontended (.lock p id)) {q : Slot} {k : Fin 7}
    (hq : LockSys.record s.past (sysLock s.table p id).ret (.lock p id) q k) :
    ((sysLock s.table p id).table.locks k).held = 1 ∧
      ((sysLock s.table p id).table.locks k).holder = some q := by
  cases hk : lockIndex id with
  | none =>
    rw [(sysLock_invalid hk).1]
    exact hs.1 q k (by simpa [LockSys.record, hk] using hq)
  | some i =>
    simp only [LockSys.record, hk, sysLock_ret hk, Option.some.injEq] at hq
    by_cases hf : (s.table.locks i).held = 0
    · rw [sysLock_free hk hf]
      by_cases hki : k = i
      · subst k
        have hqp : q = p := by
          by_contra hne
          have hold := hs.1 q i (by simpa [hne] using hq)
          omega
        simp [hqp]
      · simpa [Function.update_of_ne hki] using hs.1 q k (by simpa [Ne.symm hki] using hq)
    · rw [sysLock_taken hk hf]
      by_cases hnew : q = p ∧ i = k
      · obtain ⟨rfl, rfl⟩ := hnew
        exact ⟨(hb i).resolve_left hf, (hu i hk).resolve_left hf⟩
      · exact hs.1 q k (by simpa [hnew] using hq)

theorem release_keeps_owners {s : LockSys} {p : Slot} {id : Option Int} (hs : s.Exclusive)
    {q : Slot} {k : Fin 7}
    (hq : LockSys.record s.past (sysRelease s.table p id).ret (.release p id) q k) :
    ((sysRelease s.table p id).table.locks k).held = 1 ∧
      ((sysRelease s.table p id).table.locks k).holder = some q := by
  cases hk : lockIndex id with
  | none =>
    rw [sysRelease_invalid hk]
    exact hs.1 q k (by simpa [LockSys.record, hk] using hq)
  | some i =>
    simp only [LockSys.record, hk, Option.some.injEq] at hq
    have hnew : ¬ (q = p ∧ i = k) := by
      intro hh
      simp [hh] at hq
    have hold := hs.1 q k (by simpa [hnew] using hq)
    rw [sysRelease_locks hk]
    split
    next howner =>
      have hki : k ≠ i := by
        rintro rfl
        exact hnew ⟨Option.some.inj (hold.2.symm.trans howner.2), rfl⟩
      simpa [Function.update_of_ne hki] using hold
    next => exact hold

/-- One step keeps the owners right unless a lock call meets a lock held by another process. -/
theorem lockSys_step_exclusive {s t : LockSys} {e : ProcEvent} (hb : s.table.HeldBit)
    (hs : s.Exclusive) (hu : s.Uncontended e) (h : s.step e = some t) : t.Exclusive := by
  obtain ⟨r, hr, rfl⟩ := lockSys_step_eq h
  apply LockSys.exclusive_of_owner
  intro q k hq
  by_cases hl : ∃ p id, e = .lock p id
  · obtain ⟨p, id, rfl⟩ := hl
    obtain ⟨_, rfl⟩ := Runs.of_guard hr
    exact lock_keeps_owners hb hs hu hq
  · by_cases hrel : ∃ p id, e = .release p id
    · obtain ⟨p, id, rfl⟩ := hrel
      obtain ⟨_, rfl⟩ := Runs.of_guard hr
      exact release_keeps_owners hs hq
    · have hlocks := Table.step_locks_other hr (fun p id he => hl ⟨p, id, he⟩)
        (fun p id he => hrel ⟨p, id, he⟩)
      simp only [hlocks]
      apply hs.1 q k
      cases e with
      | lock p id => exact absurd ⟨p, id, rfl⟩ hl
      | release p id => exact absurd ⟨p, id, rfl⟩ hrel
      | exit p =>
        by_cases hqp : q = p
        · simp [LockSys.record, hqp] at hq
        · simpa [LockSys.record, hqp] using hq
      | _ => exact hq

/-- A lock call that meets a lock held by another process returns 0 all the same. -/
theorem lockSys_contended_breaks {s t : LockSys} {e : ProcEvent} (hu : ¬ s.Uncontended e)
    (h : s.step e = some t) : ¬ t.Exclusive := by
  obtain ⟨r, hr, rfl⟩ := lockSys_step_eq h
  cases e with
  | lock p id =>
    simp only [LockSys.Uncontended, not_forall, not_or] at hu
    obtain ⟨k, hk, hheld, hother⟩ := hu
    obtain ⟨_, rfl⟩ := Runs.of_guard hr
    intro hex
    have hp := hex.1 p k (by simp [LockSys.record, hk, sysLock_ret hk])
    rw [sysLock_taken hk hheld] at hp
    exact hother hp.2
  | _ => exact absurd trivial hu

/-- The user locks exclude each other along a run exactly when every lock call of the
run finds its lock free or already its own. -/
theorem userLock_exclusive_iff_uncontended {l : List ProcEvent} {s : LockSys}
    (h : Runs.exec LockSys.step LockSys.boot l = some s) :
    (∀ pre post t, l = pre ++ post → Runs.exec LockSys.step LockSys.boot pre = some t →
      t.Exclusive) ↔
      Runs.Meets LockSys.step LockSys.Uncontended LockSys.boot l := by
  refine Runs.always_iff_meets (I := fun s : LockSys => s.table.HeldBit ∧ s.Exclusive)
    ⟨fun _ => Or.inl rfl, by simp [LockSys.Exclusive, LockSys.boot]⟩ ?_ (fun _ hs => hs.2)
    (fun _ _ _ _ => lockSys_contended_breaks) h
  intro s e t hs hu hstep
  refine ⟨?_, lockSys_step_exclusive hs.1 hs.2 hu hstep⟩
  obtain ⟨r, hr, rfl⟩ := lockSys_step_eq hstep
  exact Table.step_heldBit hs.1 hr

/-- A parent has lock 0 and gives it back, then its child takes it. -/
def inTurnRun : List ProcEvent :=
  [.dispatch 0, .forkClaim 0, .forkInit 0, .forkInit 0, .forkInit 0, .forkFinish 0,
    .lock 0 (some 0), .release 0 (some 0), .yield 0, .dispatch 1, .lock 1 (some 0)]

theorem userLock_exclusive_iff_uncontended_in_turn :
    (∃ s, Runs.exec LockSys.step LockSys.boot inTurnRun = some s ∧ s.past 1 0 = true) ∧
      ∀ pre post t, inTurnRun = pre ++ post → Runs.exec LockSys.step LockSys.boot pre = some t →
        t.Exclusive := by
  have hrun : (Runs.exec LockSys.step LockSys.boot inTurnRun).map (·.past 1 0) = some true := by
    decide
  obtain ⟨s, hs, hpast⟩ := Option.map_eq_some_iff.mp hrun
  exact ⟨⟨s, hs, hpast⟩, (userLock_exclusive_iff_uncontended hs).mpr
    (Runs.meets_of_check (by decide))⟩

/-- A parent takes lock 0, then its child asks for the same lock. -/
def contendedRun : List ProcEvent :=
  [.dispatch 0, .forkClaim 0, .forkInit 0, .forkInit 0, .forkInit 0, .forkFinish 0,
    .lock 0 (some 0), .yield 0, .dispatch 1, .lock 1 (some 0)]

theorem userLock_contended_run_not_exclusive :
    ∃ s, Runs.exec LockSys.step LockSys.boot contendedRun = some s ∧ ¬ s.Exclusive := by
  have hpast : (Runs.exec LockSys.step LockSys.boot contendedRun).map
      (fun s => (s.past 0 0, s.past 1 0)) = some (true, true) := by decide
  obtain ⟨s, hs, hp⟩ := Option.map_eq_some_iff.mp hpast
  obtain ⟨h0, h1⟩ := Prod.mk.inj hp
  refine ⟨s, hs, fun hex => ?_⟩
  exact absurd (hex.2 0 1 0 h0 h1) (by decide)

end Xv6
