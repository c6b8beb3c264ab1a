import Xv6.Scheduler

namespace Xv6

/-- The levels that nice accepts. -/
def IsLevel (v : Int) : Prop := 1 ≤ v ∧ v ≤ 5

instance (v : Int) : Decidable (IsLevel v) := inferInstanceAs (Decidable (_ ∧ _))

theorem isLevel_three : IsLevel 3 := by decide

/-- The three fields of an entry that has been set up. -/
structure Proc.Levels (b : Proc) : Prop where
  nice : IsLevel b.nice
  priority : IsLevel b.priority
  original : b.originalPriority = -1 ∨ IsLevel b.originalPriority

/-- What allocproc has stored so far in the entry of a child. -/
def Table.LevelsStored (t : Table) : ForkPc → Prop
  | .niceSet np => IsLevel (t.proc np).nice
  | .prioritySet np => IsLevel (t.proc np).nice ∧ IsLevel (t.proc np).priority
  | .initialised np => (t.proc np).Levels
  | _ => True

/-- An entry that is free or being set up may hold anything, unless its number still stands in a
lock. -/
structure Table.InLevels (t : Table) : Prop where
  live : ∀ q, (t.proc q).state ≠ .unused → (t.proc q).state ≠ .embryo → (t.proc q).Levels
  stored : ∀ p, t.LevelsStored (t.fork p)
  owner : ∀ k q, (t.locks k).holder = some q →
    IsLevel (t.proc q).priority ∧
      ((t.proc q).originalPriority = -1 ∨ IsLevel (t.proc q).originalPriority)

/-- One turn of the loop of scheduler: the table and the process that was switched to. -/
def Table.pass (t : Table) : Table × Option Slot :=
  match t.highestPriority with
  | none => (t, none)
  | some p => (t.setProc p { t.proc p with state := .running }, some p)

section

variable {t : Table} {e : ProcEvent} {r : Reply} {q : Slot}

theorem Table.InLevels.running (ht : t.InLevels) {p : Slot} (hp : (t.proc p).state = .running) :
    (t.proc p).Levels :=
  ht.live p (by rw [hp]; decide) (by rw [hp]; decide)

theorem Table.InLevels.nice_step (h : t.step e = some r) (hq : IsLevel (t.proc q).nice) :
    IsLevel (r.table.proc q).nice := by
  rcases Table.step_proc h q with hsame | hch
  · rwa [hsame]
  · generalize r.table.proc q = v at hch ⊢
    cases hch with
    | nice _ _ hlo hhi => exact ⟨hlo, hhi⟩
    | initNice => exact isLevel_three
    | boost | restore | kill | claim | initPriority | initOriginal | fail | finish | exit | reap | waitSleep | sleep
    | wakeup | yield | dispatch => exact hq

theorem Table.InLevels.priority_step (ht : t.InLevels) (h : t.step e = some r)
    (hq : IsLevel (t.proc q).priority) :
    IsLevel (r.table.proc q).priority := by
  rcases Table.step_proc h q with hsame | hch
  · rwa [hsame]
  · generalize r.table.proc q = v at hch ⊢
    cases hch with
    | boost =>
      obtain ⟨hp, _⟩ := Runs.of_guard h
      exact (ht.running hp.1).priority
    | restore _ _ _ horig =>
      obtain ⟨hp, _⟩ := Runs.of_guard h
      exact (ht.running hp.1).original.resolve_left horig
    | nice _ _ hlo hhi => exact ⟨hlo, hhi⟩
    | initPriority => exact isLevel_three
    | kill | claim | initNice | initOriginal | fail | finish | exit | reap | waitSleep | sleep | wakeup | yield
    | dispatch => exact hq

theorem Table.InLevels.original_step (ht : t.InLevels) (h : t.step e = some r)
    (hq : (t.proc q).originalPriority = -1 ∨ IsLevel (t.proc q).originalPriority) :
    (r.table.proc q).originalPriority = -1 ∨ IsLevel (r.table.proc q).originalPriority := by
  rcases Table.step_proc h q with hsame | hch
  · rwa [hsame]
  · generalize r.table.proc q = v at hch ⊢
    cases hch with
    | boost _ _ howner _ =>
      dsimp only
      split
      next => exact .inr (ht.owner _ q howner).1
      next => exact hq
    | restore | initOriginal => exact .inl rfl
    | nice | kill | claim | initNice | initPriority | fail | finish | exit | reap | waitSleep | sleep | wakeup | yield
    | dispatch => exact hq

theorem Table.InLevels.levels_step (ht : t.InLevels) (h : t.step e = some r)
    (hq : (t.proc q).Levels) :
    (r.table.proc q).Levels :=
  ⟨nice_step h hq.nice, ht.priority_step h hq.priority, ht.original_step h hq.original⟩

theorem Table.live_before (h : t.step e = some r) (hu : (r.table.proc q).state ≠ .unused)
    (he : (r.table.proc q).state ≠ .embryo) :
    (t.proc q).state ≠ .unused ∧ (t.proc q).state ≠ .embryo ∨ ∃ p, t.fork p = .initialised q := by
  rcases Table.step_proc h q with hsame | hch
  · rw [hsame] at hu he
    exact .inl ⟨hu, he⟩
  · generalize r.table.proc q = v at hch hu he
    cases hch with
    | finish hf => exact .inr ⟨_, hf⟩
    | claim => exact absurd rfl he
    | fail | reap => exact absurd rfl hu
    | wakeup hs _ => exact .inl (by rw [hs]; decide)
    | waitSleep hs | sleep hs | yield hs | dispatch hs => exact .inl (by rw [hs]; decide)
    | boost | restore | nice | initNice | initPriority | initOriginal => exact .inl ⟨hu, he⟩
    | kill =>
      by_cases hs : (t.proc q).state = .sleeping
      · exact .inl (by rw [hs]; decide)
      · simp only [Proc.kill, hs, if_false] at hu he
        exact .inl ⟨hu, he⟩
    | exit =>
      obtain ⟨hp, _⟩ := Runs.of_guard h
      dsimp only at hu he
      split at hu
      next hqp =>
        rw [hqp]
        exact .inl (by rw [hp.1.1]; decide)
      next hqp =>
        rw [if_neg hqp] at he
        split at hu
        next hw => exact .inl (by rw [hw.1]; decide)
        next hw =>
          rw [if_neg hw] at he
          exact .inl ⟨hu, he⟩

theorem Table.InLevels.stored_step (ht : t.InLevels) (h : t.step e = some r) {c : ForkPc}
    (hc : t.LevelsStored c) :
    r.table.LevelsStored c := by
  cases c with
  | none => trivial
  | claimed np => trivial
  | niceSet np => exact nice_step h hc
  | prioritySet np => exact ⟨nice_step h hc.1, ht.priority_step h hc.2⟩
  | initialised np => exact ht.levels_step h hc

theorem Table.InLevels.fork_step (ht : t.InLevels) (h : t.step e = some r) (p : Slot) :
    r.table.LevelsStored (r.table.fork p) := by
  rcases Table.step_fork h p with hsame | hch
  · rw [hsame]
    exact ht.stored_step h (ht.stored p)
  · generalize hc : r.table.fork p = c at hch ⊢
    cases hch with
    | claim => trivial
    | fail | finish => trivial
    | initNice hf =>
      obtain ⟨u, hu, rfl⟩ := Option.map_eq_some_iff.mp h
      simp only [allocprocInit, hf] at hu
      cases Option.some.inj hu
      simp only [LevelsStored, Table.setFork, Table.setProc, Function.update_self]
      exact isLevel_three
    | @initPriority np hf =>
      have hnice := ht.stored p
      rw [hf] at hnice
      have hnice' := nice_step h hnice
      obtain ⟨u, hu, rfl⟩ := Option.map_eq_some_iff.mp h
      simp only [allocprocInit, hf] at hu
      cases Option.some.inj hu
      refine ⟨hnice', ?_⟩
      simp only [Table.setFork, Table.setProc, Function.update_self]
      exact isLevel_three
    | @initOriginal np hf =>
      have hprev := ht.stored p
      rw [hf] at hprev
      have hnice := nice_step h hprev.1
      have hpriority := ht.priority_step h hprev.2
      obtain ⟨u, hu, rfl⟩ := Option.map_eq_some_iff.mp h
      simp only [allocprocInit, hf] at hu
      cases Option.some.inj hu
      refine ⟨hnice, hpriority, .inl ?_⟩
      simp only [Table.setFork, Table.setProc, Function.update_self]

theorem Table.step_holder (h : t.step e = some r) {k : Fin 7}
    (hk : (r.table.locks k).holder = some q) :
    (t.locks k).holder = some q ∨ (t.proc q).state = .running := by
  by_cases hl : ∃ p id, e = .lock p id
  · obtain ⟨p, id, rfl⟩ := hl
    obtain ⟨hp, rfl⟩ := Runs.of_guard h
    cases hid : lockIndex id with
    | none =>
      rw [(sysLock_invalid hid).1] at hk
      exact .inl hk
    | some j =>
      by_cases hfree : (t.locks j).held = 0
      · rw [sysLock_free hid hfree] at hk
        by_cases hkj : k = j
        · rw [hkj, Function.update_self] at hk
          exact .inr (Option.some.inj hk ▸ hp.1)
        · rw [Function.update_of_ne hkj] at hk
          exact .inl hk
      · rw [sysLock_taken hid hfree] at hk
        exact .inl hk
  · by_cases hr : ∃ p id, e = .release p id
    · obtain ⟨p, id, rfl⟩ := hr
      obtain ⟨_, rfl⟩ := Runs.of_guard h
      cases hid : lockIndex id with
      | none =>
        rw [sysRelease_invalid hid] at hk
        exact .inl hk
      | some j =>
        rw [sysRelease_locks hid] at hk
        split at hk
        next =>
          by_cases hkj : k = j
          · rw [hkj, Function.update_self] at hk
            cases hk
          · rw [Function.update_of_ne hkj] at hk
            exact .inl hk
        next => exact .inl hk
    · rw [Table.step_locks_other h (fun p id he => hl ⟨p, id, he⟩) (fun p id he => hr ⟨p, id, he⟩)] at hk
      exact .inl hk

theorem Table.InLevels.step (ht : t.InLevels) (h : t.step e = some r) : r.table.InLevels := by
  refine ⟨fun q hu he => ?_, fun p => ht.fork_step h p, fun k q hk => ?_⟩
  · rcases Table.live_before h hu he with ⟨hu', he'⟩ | ⟨p, hf⟩
    · exact ht.levels_step h (ht.live q hu' he')
    · have hstored := ht.stored p
      rw [hf] at hstored
      exact ht.levels_step h hstored
  · rcases Table.step_holder h hk with hk' | hrun
    · exact ⟨ht.priority_step h (ht.owner k q hk').1, ht.original_step h (ht.owner k q hk').2⟩
    · have hlevels := ht.levels_step h (ht.running hrun)
      exact ⟨hlevels.priority, hlevels.original⟩

theorem Table.boot_inLevels : Table.boot.InLevels where
  live q hu _ := by
    have hinit : q = initproc := by
      by_contra hne
      exact hu (by simp [Table.boot, hne, Proc.zero])
    subst hinit
    exact ⟨by decide, by decide, by decide⟩
  stored _ := trivial
  owner k q hk := by cases hk

theorem highestPriority_none (h : t.highestPriority = none) (q : Slot) :
    (t.proc q).state ≠ .runnable := by
  rcases foldl_better (t := t) (List.pairwise_lt_finRange NPROC) with ⟨_, hidle⟩ | ⟨b, hb, _⟩
  · exact hidle q (List.mem_finRange q)
  · exact absurd (h.symm.trans hb) (by simp)

end

/-- Along every run the levels of RUNNABLE processes are in range, and a turn of the scheduler
dispatches a process of the best level, if any is RUNNABLE, and changes its state only. -/
theorem strict_priority_dispatch {es : List ProcEvent} {t : Table}
    (h : Runs.exec Table.next Table.boot es = some t) :
    (∀ q, (t.proc q).state = .runnable → (t.proc q).Levels) ∧
      (t.pass.2.isSome ↔ ∃ q, (t.proc q).state = .runnable) ∧
      (t.pass.2 = none → t.pass.1 = t) ∧
      ∀ p, t.pass.2 = some p → (t.proc p).state = .runnable ∧
        (∀ q, (t.proc q).state = .runnable → (t.proc p).priority ≤ (t.proc q).priority) ∧
        t.pass.1 = t.setProc p { t.proc p with state := .running } ∧ t.next (.dispatch p) = some t.pass.1 := by
  have hinv : t.InLevels := by
    refine Runs.invariant Table.boot_inLevels (fun s e u hs hu => ?_) h
    obtain ⟨r, hr, rfl⟩ := Table.next_eq hu
    exact hs.step hr
  refine ⟨fun q hq => hinv.live q (by rw [hq]; decide) (by rw [hq]; decide), ?_⟩
  unfold Table.pass
  cases hp : t.highestPriority with
  | none =>
    have hidle := highestPriority_none hp
    exact ⟨⟨fun hs => absurd hs (by simp), fun ⟨q, hq⟩ => absurd hq (hidle q)⟩, fun _ => rfl,
      fun p hs => absurd hs (by simp)⟩
  | some b =>
    have hbest := highestPriority_best hp
    refine ⟨⟨fun _ => ⟨b, hbest.runnable⟩, fun _ => rfl⟩, fun hs => absurd hs (by simp),
      fun p hs => ?_⟩
    obtain rfl := Option.some.inj hs
    refine ⟨hbest.runnable, fun q hq => hbest.least q (List.mem_finRange q) hq, rfl, ?_⟩
    simp only [Table.next, Table.step, if_pos hbest.runnable, Option.map_some]

/-- init forks twice and gives its first child the best level; the pass finds that child. -/
theorem strict_priority_dispatch_niced_child :
    ∃ t, Runs.exec Table.next Table.boot
        (.dispatch 0 :: forkSteps 0 ++ forkSteps 0 ++ [.nice 0 (some 2) (some 1), .yield 0]) = some t ∧
      t.pass.2 = some 1 ∧ (t.proc 1).Levels ∧ ∀ q, (t.proc q).state = .runnable →
        1 ≤ (t.proc q).priority := by
  have hrun : (Runs.exec Table.next Table.boot
      (.dispatch 0 :: forkSteps 0 ++ forkSteps 0 ++ [.nice 0 (some 2) (some 1), .yield 0])).bind
        (fun t => t.pass.2) = some 1 := by
    decide +kernel
  obtain ⟨t, ht, hpass⟩ := Option.bind_eq_some_iff.mp hrun
  obtain ⟨hlevels, _, _, hdispatch⟩ := strict_priority_dispatch ht
  exact ⟨t, ht, hpass, hlevels 1 (hdispatch 1 hpass).1, fun q hq => (hlevels q hq).priority.1⟩

end Xv6
