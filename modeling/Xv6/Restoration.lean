import Xv6.Inheritance
import Xv6.Lifecycle

namespace Xv6

/-- A process without a lock runs at its nice value. -/
def Table.Restored (t : Table) : Prop :=
  ∀ q, (t.proc q).state = .runnable ∨ (t.proc q).state = .running ∨ (t.proc q).state = .sleeping →
    (∀ k, ¬ t.Holds k q) → (t.proc q).priority = (t.proc q).nice

/-- nice does not change a process that is boosted, unless to the priority it will return to; and
neither nice nor a lock call meets a process that allocproc is still setting up. -/
def Table.Undisturbed (t : Table) : ProcEvent → Prop
  | .nice _ (some pid) (some value) => 1 ≤ value → value ≤ 5 → ∀ h, t.niceTarget pid = some h →
      (t.proc h).state ≠ .embryo ∧ ((t.proc h).originalPriority = -1 ∨ (t.proc h).originalPriority = value)
  | .lock _ id => ∀ k h, lockIndex id = some k → (t.locks k).held ≠ 0 →
    (t.locks k).holder = some h →
      (t.proc h).state ≠ .embryo
  | _ => True

instance (t : Table) (e : ProcEvent) : Decidable (t.Undisturbed e) := by
  induction e using ProcEvent.casesOn with
  | nice _ pid value =>
    rcases pid with _ | pid <;> rcases value with _ | value <;> dsimp only [Table.Undisturbed] <;> infer_instance
  | _ => dsimp only [Table.Undisturbed]; infer_instance

/-- The process runs at its nice value, or has a lock and remembers its nice value. -/
def Table.Settled (t : Table) (q : Slot) : Prop :=
  1 ≤ (t.proc q).nice ∧
    ((t.proc q).originalPriority = -1 ∧ (t.proc q).priority = (t.proc q).nice ∨
      (t.proc q).originalPriority = (t.proc q).nice ∧ ∃ k, t.Holds k q)

/-- How far allocproc has set up the entry of a child. -/
def Table.Stage (t : Table) : ForkPc → Prop
  | .niceSet np => (t.proc np).nice = 3
  | .prioritySet np => (t.proc np).nice = 3 ∧ (t.proc np).priority = 3
  | .initialised np => t.Settled np
  | _ => True

structure Table.Priorities (t : Table) : Prop where
  sound : t.Sound
  heldBit : t.HeldBit
  settled : ∀ q, t.family.life q = .alive → t.Settled q
  stage : ∀ p, t.Stage (t.fork p)

theorem Table.Priorities.restored {t : Table} (ht : t.Priorities) : t.Restored := by
  intro q hq hfree
  have halive : t.family.life q = .alive := by
    apply ProcState.life_eq_alive.mpr
    tauto
  rcases (ht.settled q halive).2 with ⟨_, heq⟩ | ⟨_, k, hk⟩
  · exact heq
  · exact absurd hk (hfree k)

theorem Table.boot_priorities : Table.boot.Priorities where
  sound := Table.boot_sound
  heldBit := fun _ => Or.inl rfl
  settled q hq := by
    have hinit : q = initproc := by
      by_contra hne
      simp [Table.family, Table.boot, hne, Proc.zero, ProcState.life] at hq
    subst hinit
    exact ⟨by decide, Or.inl ⟨by decide, by decide⟩⟩
  stage := fun _ => trivial

section

variable {t u : Table} {q np : Slot}

/-- Another table with the same three fields in the entry, and no lock lost. -/
structure SameLevel (t u : Table) (q : Slot) : Prop where
  nice : (u.proc q).nice = (t.proc q).nice
  priority : (u.proc q).priority = (t.proc q).priority
  original : (u.proc q).originalPriority = (t.proc q).originalPriority
  holds : ∀ k, t.Holds k q → u.Holds k q

theorem SameLevel.of_proc (hproc : u.proc q = t.proc q) (hholds : ∀ k, t.Holds k q → u.Holds k q) :
    SameLevel t u q :=
  ⟨by rw [hproc], by rw [hproc], by rw [hproc], hholds⟩

theorem SameLevel.settled (h : SameLevel t u q) (hs : t.Settled q) : u.Settled q := by
  unfold Table.Settled
  rw [h.nice, h.priority, h.original]
  refine ⟨hs.1, ?_⟩
  rcases hs.2 with hl | ⟨ho, k, hk⟩
  · exact Or.inl hl
  · exact Or.inr ⟨ho, k, h.holds k hk⟩

theorem stage_of_same {c : ForkPc} (h : ∀ np, c.child = some np → SameLevel t u np)
    (hs : t.Stage c) : u.Stage c := by
  cases c with
  | none => trivial
  | claimed np => trivial
  | niceSet np => exact (h np rfl).nice.trans hs
  | prioritySet np => exact ⟨(h np rfl).nice.trans hs.1, (h np rfl).priority.trans hs.2⟩
  | initialised np => exact (h np rfl).settled hs

end

theorem Table.step_sameLevel {t : Table} {e : ProcEvent} {r : Reply} (h : t.step e = some r)
    (hl : ∀ p id, e ≠ .lock p id) (hr : ∀ p id, e ≠ .release p id)
    (hn : ∀ p pid value, e ≠ .nice p pid value) (hi : ∀ p, e ≠ .forkInit p)
    (q : Slot) : SameLevel t r.table q := by
  have hholds : ∀ k, t.Holds k q → r.table.Holds k q := fun k hk =>
    (holds_of_locks_eq (Table.step_locks_other h hl hr)).mpr hk
  rcases Table.step_proc h q with hsame | hch
  · exact SameLevel.of_proc hsame hholds
  · suffices hfields : (r.table.proc q).nice = (t.proc q).nice ∧
      (r.table.proc q).priority = (t.proc q).priority ∧
        (r.table.proc q).originalPriority = (t.proc q).originalPriority from
      ⟨hfields.1, hfields.2.1, hfields.2.2, hholds⟩
    generalize r.table.proc q = v at hch ⊢
    cases hch with
    | boost => exact absurd rfl (hl _ _)
    | restore => exact absurd rfl (hr _ _)
    | nice => exact absurd rfl (hn _ _ _)
    | initNice | initPriority | initOriginal => exact absurd rfl (hi _)
    | kill | claim | fail | finish | exit | reap | waitSleep | sleep | wakeup | yield | dispatch =>
      exact ⟨rfl, rfl, rfl⟩

theorem stage_step {t : Table} {e : ProcEvent} {r : Reply} (ht : t.Priorities)
    (h : t.step e = some r) (hi : ∀ p, e ≠ .forkInit p)
    (hsame : ∀ np, (t.proc np).state = .embryo → SameLevel t r.table np) (p : Slot) :
    r.table.Stage (r.table.fork p) := by
  rcases Table.step_fork h p with he | hch
  · rw [he]
    refine stage_of_same (fun np hnp => hsame np ?_) (ht.stage p)
    exact ht.sound.child_embryo hnp
  · generalize r.table.fork p = c at hch ⊢
    cases hch with
    | claim | fail | finish => trivial
    | initNice | initPriority | initOriginal => exact absurd rfl (hi p)

theorem alive_ne_embryo {t : Table} {q : Slot} (hq : t.family.life q = .alive) :
    (t.proc q).state ≠ .embryo := by
  intro he
  simp [Table.family, he, ProcState.life] at hq

theorem sysLock_settled {t : Table} {p : Slot} {id : Option Int} (ht : t.Priorities)
    (hc : t.Undisturbed (.lock p id)) (q : Slot) : SameLevel t (sysLock t p id).table q ∨
      (t.proc q).state ≠ .embryo ∧ (t.Settled q → (sysLock t p id).table.Settled q) := by
  cases hi : lockIndex id with
  | none => exact Or.inl (SameLevel.of_proc (by rw [(sysLock_invalid hi).1]) fun k hk => by rwa [(sysLock_invalid hi).1])
  | some k =>
    by_cases hfree : (t.locks k).held = 0
    · refine Or.inl (SameLevel.of_proc (by rw [sysLock_proc_free hi hfree]) fun i hold => ?_)
      have hik : i ≠ k := by
        rintro rfl
        simp [Table.Holds, hfree] at hold
      simpa [Table.Holds, sysLock_free hi hfree, hik] using hold
    · have hholds : ∀ i, t.Holds i q → (sysLock t p id).table.Holds i q := fun i hold =>
        (holds_of_locks_eq (sysLock_taken hi hfree)).mpr hold
      by_cases hboost : (t.locks k).holder = some q ∧ (t.proc p).priority < (t.proc q).priority
      · refine Or.inr ⟨hc k q hi hfree hboost.1, fun hs => ?_⟩
        have hheld : t.Holds k q := ⟨(ht.heldBit k).resolve_left hfree, hboost.1⟩
        have hentry : (sysLock t p id).table.proc q = { t.proc q with
            originalPriority :=
              if (t.proc q).originalPriority = -1 then (t.proc q).priority else (t.proc q).originalPriority
            priority := (t.proc p).priority } := by
          simp [sysLock, hi, hfree, hboost.1, hboost.2, Table.setProc]
        have hnice := hs.1
        refine ⟨by rw [hentry]; exact hnice, Or.inr ⟨?_, k, hholds k hheld⟩⟩
        rw [hentry]
        rcases hs.2 with ⟨ho, hp⟩ | ⟨ho, _⟩
        · simp [ho, hp]
        · have hne : (t.proc q).originalPriority ≠ -1 := by omega
          simpa [hne] using ho
      · refine Or.inl (SameLevel.of_proc ?_ hholds)
        simp only [sysLock, hi, if_neg hfree]
        split
        · rfl
        next h howner =>
          split
          next hlt =>
            have hqh : q ≠ h := by
              rintro rfl
              exact hboost ⟨howner, hlt⟩
            simp [Table.setProc, hqh]
          next => rfl

theorem sysRelease_settled {t : Table} {p : Slot} {id : Option Int}
    (hrun : (t.proc p).state = .running) (q : Slot) : SameLevel t (sysRelease t p id).table q ∨
      (t.proc q).state ≠ .embryo ∧ (t.Settled q → (sysRelease t p id).table.Settled q) := by
  by_cases hheld : ∃ k, lockIndex id = some k ∧ t.Holds k p
  · obtain ⟨k, hk, hold⟩ := hheld
    obtain ⟨v, htab, hv⟩ := sysRelease_cases hk hold
    by_cases hqp : q = p
    · subst hqp
      refine Or.inr ⟨by simp [hrun], fun hs => ?_⟩
      have hnice := hs.1
      rcases hv with ⟨ho, rfl⟩ | ⟨ho, rfl⟩
      · have heq : (t.proc q).priority = (t.proc q).nice := by
          rcases hs.2 with ⟨_, heq⟩ | ⟨hbad, _⟩
          · exact heq
          · omega
        rw [htab]
        exact ⟨by simpa [Table.setProc] using hnice, Or.inl ⟨by simpa [Table.setProc] using ho,
          by simpa [Table.setProc] using heq⟩⟩
      · have heq : (t.proc q).originalPriority = (t.proc q).nice := by
          rcases hs.2 with ⟨hbad, _⟩ | ⟨heq, _⟩
          · exact absurd hbad ho
          · exact heq
        rw [htab]
        exact ⟨by simpa [Table.setProc] using hnice, Or.inl ⟨by simp [Table.setProc],
          by simpa [Table.setProc] using heq⟩⟩
    · refine Or.inl (SameLevel.of_proc (by simp [htab, Table.setProc, Table.setLock, hqp]) fun i hi => ?_)
      have hik : i ≠ k := by
        rintro rfl
        exact hqp (Option.some.inj (hi.2.symm.trans hold.2))
      simpa [htab, Table.Holds, Table.setProc, Table.setLock, hik] using hi
  · have hnone : ∀ k, lockIndex id = some k → ¬ t.Holds k p := fun k hk ho => hheld ⟨k, hk, ho⟩
    rw [sysRelease_none hnone]
    exact Or.inl ⟨rfl, rfl, rfl, fun _ hk => hk⟩

theorem sysNice_settled {t : Table} {p : Slot} {pid value : Option Int}
    (hc : t.Undisturbed (.nice p pid value))
    (q : Slot) : SameLevel t (sysNice t pid value).table q ∨
      (t.proc q).state ≠ .embryo ∧ (t.Settled q → (sysNice t pid value).table.Settled q) := by
  have hsame : SameLevel t t q := ⟨rfl, rfl, rfl, fun _ hk => hk⟩
  unfold sysNice
  split
  next n v =>
    split
    · exact Or.inl hsame
    next hrange =>
      split
      next h hh =>
        by_cases hqh : q = h
        · subst hqh
          obtain ⟨hembryo, horig⟩ := hc (by omega) (by omega) q hh
          refine Or.inr ⟨hembryo, fun hs => ⟨by simp [Table.setProc]; omega, ?_⟩⟩
          have hnice := hs.1
          rcases hs.2 with ⟨ho, _⟩ | ⟨ho, k, hk⟩
          · exact Or.inl ⟨by simpa [Table.setProc] using ho, by simp [Table.setProc]⟩
          · have hv : (t.proc q).originalPriority = v := horig.resolve_left (by omega)
            exact Or.inr ⟨by simpa [Table.setProc] using hv, k, hk⟩
        · exact Or.inl (SameLevel.of_proc (by simp [Table.setProc, hqh]) fun _ hk => hk)
      next => exact Or.inl hsame
  · exact Or.inl hsame

theorem Table.Priorities.of_settled {t : Table} {e : ProcEvent} {r : Reply} (ht : t.Priorities)
    (h : t.step e = some r) (hi : ∀ p, e ≠ .forkInit p)
    (hq : ∀ q, SameLevel t r.table q ∨
      (t.proc q).state ≠ .embryo ∧ (t.Settled q → r.table.Settled q)) :
    r.table.Priorities where
  sound := ht.sound.step h
  heldBit := Table.step_heldBit ht.heldBit h
  settled q hlive := by
    have hs : t.Settled q := by
      rcases Table.alive_before h hlive with hold | ⟨p, _, hf⟩
      · exact ht.settled q hold
      · have hstage := ht.stage p
        rw [hf] at hstage
        exact hstage
    rcases hq q with hsame | ⟨_, hkeep⟩
    · exact hsame.settled hs
    · exact hkeep hs
  stage := by
    refine stage_step ht h hi fun np hnp => ?_
    rcases hq np with hsame | ⟨hne, _⟩
    · exact hsame
    · exact absurd hnp hne

theorem forkInit_priorities {t : Table} {p : Slot} {r : Reply} (ht : t.Priorities)
    (h : t.step (.forkInit p) = some r) : r.table.Priorities := by
  have hother : ∀ {np q : Slot} {v : Proc} {c : ForkPc}, q ≠ np →
      SameLevel t ((t.setProc np v).setFork p c) q := by
    intro np q v c hq
    exact SameLevel.of_proc (by simp [Table.setFork, Table.setProc, hq]) fun _ hk => hk
  have hmain : ∀ {np : Slot} {v : Proc} {c : ForkPc}, (t.fork p).child = some np →
      c.child = some np →
      r.table = (t.setProc np v).setFork p c → r.table.Stage c → r.table.Priorities := by
    intro np v c hchild hc htab hstage
    refine ⟨ht.sound.step h, Table.step_heldBit ht.heldBit h, ?_, ?_⟩
    · intro q hlive
      rcases Table.alive_before h hlive with hold | ⟨a, ha, _⟩
      · have hne : q ≠ np := by
          rintro rfl
          exact alive_ne_embryo hold (ht.sound.child_embryo hchild)
        rw [htab]
        exact (hother hne).settled (ht.settled q hold)
      · simp at ha
    · intro a
      by_cases ha : a = p
      · subst ha
        have hfork : r.table.fork a = c := by simp [htab, Table.setFork]
        rw [hfork]
        exact hstage
      · have hfork : r.table.fork a = t.fork a := by simp [htab, Table.setFork, Table.setProc, ha]
        rw [hfork]
        refine stage_of_same (fun b hb => ?_) (ht.stage a)
        have hne : b ≠ np := by
          rintro rfl
          exact ha (ht.sound.childInj a p b hb hchild)
        rw [htab]
        exact hother hne
  obtain ⟨u, hu, rfl⟩ := Option.map_eq_some_iff.mp h
  have hstage := ht.stage p
  unfold allocprocInit at hu
  split at hu
  next np hf =>
    cases Option.some.inj hu
    exact hmain (by rw [hf]; rfl) rfl rfl (by simp [Table.Stage, Table.setFork, Table.setProc])
  next np hf =>
    cases Option.some.inj hu
    rw [hf] at hstage
    exact hmain (by rw [hf]; rfl) rfl rfl
      (by simpa [Table.Stage, Table.setFork, Table.setProc] using hstage)
  next np hf =>
    cases Option.some.inj hu
    rw [hf] at hstage
    refine hmain (by rw [hf]; rfl) rfl rfl ?_
    have hnice := hstage.1
    have hprio := hstage.2
    exact ⟨by simp [Table.setFork, Table.setProc, hnice],
      Or.inl ⟨by simp [Table.setFork, Table.setProc], by simp [Table.setFork, Table.setProc, hnice, hprio]⟩⟩
  next => simp at hu

theorem Table.Priorities.step {t : Table} {e : ProcEvent} {r : Reply} (ht : t.Priorities)
    (hc : t.Undisturbed e) (h : t.step e = some r) : r.table.Priorities := by
  cases e with
  | forkInit p => exact forkInit_priorities ht h
  | lock p id =>
    refine ht.of_settled h (by simp) ?_
    obtain ⟨_, rfl⟩ := Runs.of_guard h
    exact sysLock_settled ht hc
  | release p id =>
    refine ht.of_settled h (by simp) ?_
    obtain ⟨hu, rfl⟩ := Runs.of_guard h
    exact sysRelease_settled hu.1
  | nice p pid value =>
    refine ht.of_settled h (by simp) ?_
    obtain ⟨_, rfl⟩ := Runs.of_guard h
    exact sysNice_settled hc
  | kill | forkClaim | forkFail | forkFinish | exit | wait | sleep | wakeup | yield | dispatch =>
    refine ht.of_settled h (by simp) fun q => Or.inl ?_
    exact Table.step_sameLevel h (by simp) (by simp) (by simp) (by simp) q

/-- In a run in which nobody renices a boosted process, and nobody touches a process that is
still being set up, no boost outlives the locks. -/
theorem priority_restored_while_undisturbed {l : List ProcEvent} {t : Table}
    (hm : Runs.Meets Table.next Table.Undisturbed Table.boot l)
    (h : Runs.exec Table.next Table.boot l = some t) :
    t.Restored := by
  refine (Runs.invariant_of_meets Table.boot_priorities ?_ hm h).restored
  intro t e u ht hc hstep
  obtain ⟨r, hr, rfl⟩ := Table.next_eq hstep
  exact ht.step hc hr

theorem priority_restored_while_undisturbed_boost :
    ∃ t, Runs.exec Table.next Table.boot boostRun = some t ∧ t.Restored := by
  have hrun : (Runs.exec Table.next Table.boot boostRun).isSome = true := by decide +kernel
  obtain ⟨t, ht⟩ := Option.isSome_iff_exists.mp hrun
  have hmeets : Runs.Meets Table.next Table.Undisturbed Table.boot boostRun :=
    Runs.meets_of_check (by decide +kernel)
  exact ⟨t, ht, priority_restored_while_undisturbed hmeets ht⟩

/-- A boosted child is reniced to 5 and then gives its lock back. -/
def renicedRun : List ProcEvent :=
  .dispatch 0 :: forkSteps 0 ++
    [.dispatch 1, .lock 1 (some 0), .nice 0 (some 1) (some 1), .lock 0 (some 0),
    .nice 0 (some 2) (some 5), .release 1 (some 0)]

/-- The child is left with nice value 5 and priority 3. -/
theorem priority_not_restored_after_renice :
    ∃ t, Runs.exec Table.next Table.boot renicedRun = some t ∧ ¬ t.Restored ∧
      (t.proc 1).nice = 5 ∧ (t.proc 1).priority = 3 := by
  have hrun : (Runs.exec Table.next Table.boot renicedRun).map (fun t =>
      ((t.proc 1).state, decide (∀ k, ¬ t.Holds k 1), (t.proc 1).nice, (t.proc 1).priority)) =
      some (.running, true, 5, 3) := by decide +kernel
  obtain ⟨t, ht, heq⟩ := Option.map_eq_some_iff.mp hrun
  simp only [Prod.mk.injEq, decide_eq_true_eq] at heq
  obtain ⟨hstate, hfree, hnice, hprio⟩ := heq
  refine ⟨t, ht, fun hres => ?_, hnice, hprio⟩
  have hsame := hres 1 (by simp [hstate]) hfree
  omega

end Xv6
