import Xv6.UserLocks

namespace Xv6

/-- The processes that an exit wakes: a parent in wait, and init when it is given a zombie. -/
def Table.ExitWakes (t : Table) (p q : Slot) : Prop :=
  (t.proc q).state = .sleeping ∧
    ((∃ parent, (t.proc p).parent = some parent ∧ (t.proc q).chan = some (.proc parent)) ∨
      (hasZombieChild t p = true ∧ (t.proc q).chan = some (.proc initproc)))

theorem wakeup1_proc (t : Table) (chan : Chan) (q : Slot) : (wakeup1 t chan).proc q =
    { t.proc q with
      state := if (t.proc q).state = .sleeping ∧ (t.proc q).chan = some chan then .runnable
        else (t.proc q).state } := by
  simp only [wakeup1]
  split <;> rfl

theorem hasZombieChild_wakeup1 (t : Table) (chan : Chan) (p : Slot) :
    hasZombieChild (wakeup1 t chan) p = hasZombieChild t p := by
  unfold hasZombieChild
  congr 1
  funext q
  rw [wakeup1_proc]
  by_cases hs : (t.proc q).state = .sleeping ∧ (t.proc q).chan = some chan
  · simp [hs]
  · simp [hs]

instance (t : Table) (p q : Slot) : Decidable (t.ExitWakes p q) :=
  inferInstanceAs (Decidable (_ ∧ ((∃ _, _) ∨ _)))

theorem reparent_proc (t : Table) (p q : Slot) : (reparent t p).proc q =
    { t.proc q with parent := if (t.proc q).parent = some p then some initproc
      else (t.proc q).parent } := by
  by_cases hq : (t.proc q).parent = some p
  · simp [reparent, hq]
  · simp [reparent, hq]

theorem exitProc_proc (t : Table) (p q : Slot) : (exitProc t p).proc q =
    { t.proc q with
      state := if q = p then .zombie else if t.ExitWakes p q then .runnable else (t.proc q).state
      parent := if (t.proc q).parent = some p then some initproc else (t.proc q).parent } := by
  have hself : ∀ u : Table, u.setProc p { u.proc p with state := .zombie } =
      { u with proc := fun q => { u.proc q with state := if q = p then .zombie else (u.proc q).state } } := by
    intro u
    simp only [Table.setProc, Table.mk.injEq, and_true]
    funext a
    by_cases ha : a = p
    · subst ha
      simp
    · simp [ha]
  simp only [exitProc, hself]
  by_cases hz : hasZombieChild t p = true
  · cases hpar : (t.proc p).parent with
    | none =>
      simp only [hz, if_true, wakeup1_proc, reparent_proc, Table.ExitWakes, hpar]
      simp
    | some parent =>
      simp only [hasZombieChild_wakeup1, hz, if_true, wakeup1_proc, reparent_proc, Table.ExitWakes, hpar]
      by_cases hs : (t.proc q).state = .sleeping
      · by_cases hc : (t.proc q).chan = some (.proc parent)
        · simp [hs, hc]
        · simp [hs, hc]
      · simp [hs]
  · cases hpar : (t.proc p).parent with
    | none => simp [hz, reparent_proc, Table.ExitWakes, hpar]
    | some parent =>
      simp [hasZombieChild_wakeup1, hz, wakeup1_proc, reparent_proc, Table.ExitWakes, hpar]

/-- The kill flag is set, and a sleeping process wakes. -/
def Proc.kill (b : Proc) : Proc :=
  { b with killed := true, state := if b.state = .sleeping then .runnable else b.state }

/-- How a step changes the entry of q. -/
inductive Table.Change (t : Table) (q : Slot) : ProcEvent → Proc → Prop
  | boost {p : Slot} {id : Option Int} {k : Fin 7} (hk : lockIndex id = some k) (hheld : (t.locks k).held ≠ 0)
      (howner : (t.locks k).holder = some q) (hlt : (t.proc p).priority < (t.proc q).priority) :
      Change t q (.lock p id) { t.proc q with
        originalPriority :=
          if (t.proc q).originalPriority = -1 then (t.proc q).priority else (t.proc q).originalPriority
        priority := (t.proc p).priority }
  | restore {id : Option Int} {k : Fin 7} (hk : lockIndex id = some k) (hheld : (t.locks k).held = 1)
      (howner : (t.locks k).holder = some q) (horig : (t.proc q).originalPriority ≠ -1) :
      Change t q (.release q id)
        { t.proc q with priority := (t.proc q).originalPriority, originalPriority := -1 }
  | nice {p : Slot} {pid value : Int} (hpid : ((t.proc q).pid : Int) = pid) (hstate : (t.proc q).state ≠ .unused)
      (hlo : 1 ≤ value) (hhi : value ≤ 5) :
      Change t q (.nice p (some pid) (some value)) { t.proc q with nice := value, priority := value }
  | kill {p : Slot} {pid : Int} (hpid : ((t.proc q).pid : Int) = pid) : Change t q (.kill p pid) (t.proc q).kill
  | claim {p : Slot} (hfree : (t.proc q).state = .unused) :
      Change t q (.forkClaim p) { t.proc q with state := .embryo, pid := t.nextpid, straced := 0 }
  | initNice {p : Slot} (hf : t.fork p = .claimed q) : Change t q (.forkInit p) { t.proc q with nice := 3 }
  | initPriority {p : Slot} (hf : t.fork p = .niceSet q) : Change t q (.forkInit p) { t.proc q with priority := 3 }
  | initOriginal {p : Slot} (hf : t.fork p = .prioritySet q) :
      Change t q (.forkInit p) { t.proc q with originalPriority := -1 }
  | fail {p : Slot} (hf : t.fork p = .initialised q) : Change t q (.forkFail p) { t.proc q with state := .unused }
  | finish {p : Slot} (hf : t.fork p = .initialised q) :
      Change t q (.forkFinish p) { t.proc q with
        straced := if (t.proc p).straced &&& tFork ≠ 0 then (t.proc p).straced else 0
        parent := some p
        state := .runnable }
  | exit {p : Slot} : Change t q (.exit p) { t.proc q with
      state := if q = p then .zombie else if t.ExitWakes p q then .runnable else (t.proc q).state
      parent := if (t.proc q).parent = some p then some initproc else (t.proc q).parent }
  | reap {p : Slot} (hparent : (t.proc q).parent = some p) (hzombie : (t.proc q).state = .zombie) :
      Change t q (.wait p) { t.proc q with pid := 0, parent := none, killed := false, state := .unused }
  | waitSleep (hrun : (t.proc q).state = .running) :
      Change t q (.wait q) { t.proc q with chan := some (.proc q), state := .sleeping }
  | sleep {chan : Chan} (hrun : (t.proc q).state = .running) :
      Change t q (.sleep q chan) { t.proc q with chan := some chan, state := .sleeping }
  | wakeup {chan : Chan} (hsleep : (t.proc q).state = .sleeping) (hchan : (t.proc q).chan = some chan) :
      Change t q (.wakeup chan) { t.proc q with state := .runnable }
  | yield (hrun : (t.proc q).state = .running) : Change t q (.yield q) { t.proc q with state := .runnable }
  | dispatch (hrun : (t.proc q).state = .runnable) : Change t q (.dispatch q) { t.proc q with state := .running }

theorem setProc_cases {t : Table} {p q : Slot} {v : Proc} :
    (t.setProc p v).proc q = t.proc q ∨ q = p ∧ (t.setProc p v).proc q = v := by
  by_cases hq : q = p
  · exact Or.inr ⟨hq, by simp [Table.setProc, hq]⟩
  · exact Or.inl (by simp [Table.setProc, hq])

theorem Table.step_proc {t : Table} {e : ProcEvent} {r : Reply} (h : t.step e = some r) (q : Slot) :
    r.table.proc q = t.proc q ∨ t.Change q e (r.table.proc q) := by
  have hset : ∀ {u : Table} {p : Slot} {v : Proc}, u.proc = t.proc → (p = q → t.Change q e v) →
      (u.setProc p v).proc q = t.proc q ∨ t.Change q e ((u.setProc p v).proc q) := by
    intro u p v hu hv
    rcases setProc_cases (t := u) (p := p) (q := q) (v := v) with he | ⟨hq, he⟩
    · exact Or.inl (by rw [he, hu])
    · exact Or.inr (by rw [he]; exact hv hq.symm)
  cases e with
  | lock p id =>
    obtain ⟨_, rfl⟩ := Runs.of_guard h
    unfold sysLock
    split
    · exact Or.inl rfl
    next k hk =>
      simp only
      split
      · exact Or.inl rfl
      next hheld =>
        split
        · exact Or.inl rfl
        next own howner =>
          split
          next hlt =>
            refine hset rfl fun ho => ?_
            subst ho
            exact .boost hk hheld howner hlt
          next => exact Or.inl rfl
  | release p id =>
    obtain ⟨_, rfl⟩ := Runs.of_guard h
    unfold sysRelease
    split
    · exact Or.inl rfl
    next k hk =>
      split
      next hown =>
        simp only
        split
        next horig =>
          refine hset rfl fun ho => ?_
          subst ho
          exact .restore hk hown.1 hown.2 horig
        next => exact Or.inl rfl
      next => exact Or.inl rfl
  | nice p pid value =>
    obtain ⟨_, rfl⟩ := Runs.of_guard h
    unfold sysNice
    split
    next pid value =>
      split
      · exact Or.inl rfl
      next hrange =>
        split
        next a ha =>
          have hfound : ((t.proc a).pid : Int) = pid ∧ (t.proc a).state ≠ .unused := by simpa using List.find?_some ha
          refine hset rfl fun ho => ?_
          subst ho
          exact .nice hfound.1 hfound.2 (by omega) (by omega)
        next => exact Or.inl rfl
    · exact Or.inl rfl
  | kill p pid =>
    obtain ⟨_, rfl⟩ := Runs.of_guard h
    unfold killPid
    split
    next a ha =>
      refine hset rfl fun ho => ?_
      subst ho
      exact .kill (by simpa using List.find?_some ha)
    next => exact Or.inl rfl
  | forkClaim p =>
    obtain ⟨_, rfl⟩ := Runs.of_guard h
    unfold allocproc
    split
    · exact Or.inl rfl
    next np hnp =>
      refine hset (u := { t with nextpid := t.nextpid + 1 }) rfl fun ho => ?_
      subst ho
      exact .claim (by simpa using List.find?_some hnp)
  | forkInit p =>
    obtain ⟨u, hu, rfl⟩ := Option.map_eq_some_iff.mp h
    unfold allocprocInit at hu
    split at hu
    next np hf => cases Option.some.inj hu; exact hset (u := t) rfl fun ho => ho ▸ .initNice hf
    next np hf => cases Option.some.inj hu; exact hset (u := t) rfl fun ho => ho ▸ .initPriority hf
    next np hf => cases Option.some.inj hu; exact hset (u := t) rfl fun ho => ho ▸ .initOriginal hf
    next => simp at hu
  | forkFail p =>
    simp only [Table.step] at h
    split at h
    next np hf => cases Option.some.inj h; exact hset (u := t) rfl fun ho => ho ▸ .fail hf
    next => simp at h
  | forkFinish p =>
    simp only [Table.step] at h
    split at h
    next np hf => cases Option.some.inj h; exact hset (u := t) rfl fun ho => ho ▸ .finish hf
    next => simp at h
  | exit p =>
    obtain ⟨_, rfl⟩ := Runs.of_guard h
    exact Or.inr (by rw [exitProc_proc]; exact .exit)
  | wait p =>
    obtain ⟨hu, rfl⟩ := Runs.of_guard h
    unfold waitScan
    split
    next a ha =>
      have hchild : (t.proc a).parent = some p ∧ (t.proc a).state = .zombie := by
        simpa using List.find?_some ha
      refine hset rfl fun ho => ?_
      subst ho
      exact .reap hchild.1 hchild.2
    next =>
      split
      · exact Or.inl rfl
      · refine hset rfl fun ho => ?_
        subst ho
        exact .waitSleep hu.1
  | sleep p chan =>
    obtain ⟨hu, rfl⟩ := Runs.of_guard h
    exact hset rfl fun ho => ho ▸ .sleep hu.1
  | wakeup chan =>
    cases Option.some.inj h
    by_cases hq : (t.proc q).state = .sleeping ∧ (t.proc q).chan = some chan
    · exact Or.inr (by simpa [wakeup1, hq] using Table.Change.wakeup (t := t) hq.1 hq.2)
    · exact Or.inl (by simp [wakeup1, hq])
  | yield p =>
    obtain ⟨hu, rfl⟩ := Runs.of_guard h
    exact hset rfl fun ho => ho ▸ .yield hu
  | dispatch p =>
    obtain ⟨hu, rfl⟩ := Runs.of_guard h
    exact hset rfl fun ho => ho ▸ .dispatch hu

/-- How a step moves p through fork. -/
inductive Table.ForkChange (t : Table) (p : Slot) : ProcEvent → ForkPc → Prop
  | claim {np : Slot} (hfork : t.fork p = .none) (hfree : (t.proc np).state = .unused) :
      ForkChange t p (.forkClaim p) (.claimed np)
  | initNice {np : Slot} (hf : t.fork p = .claimed np) : ForkChange t p (.forkInit p) (.niceSet np)
  | initPriority {np : Slot} (hf : t.fork p = .niceSet np) : ForkChange t p (.forkInit p) (.prioritySet np)
  | initOriginal {np : Slot} (hf : t.fork p = .prioritySet np) : ForkChange t p (.forkInit p) (.initialised np)
  | fail {np : Slot} (hf : t.fork p = .initialised np) : ForkChange t p (.forkFail p) .none
  | finish {np : Slot} (hf : t.fork p = .initialised np) : ForkChange t p (.forkFinish p) .none

theorem Table.step_fork {t : Table} {e : ProcEvent} {r : Reply} (h : t.step e = some r) (p : Slot) :
    r.table.fork p = t.fork p ∨ t.ForkChange p e (r.table.fork p) := by
  have hset : ∀ {u : Table} {a : Slot} {c : ForkPc}, u.fork = t.fork → (a = p → t.ForkChange p e c) →
      (u.setFork a c).fork p = t.fork p ∨ t.ForkChange p e ((u.setFork a c).fork p) := by
    intro u a c hu hc
    by_cases ha : a = p
    · exact Or.inr (by simpa [Table.setFork, ha] using hc ha)
    · exact Or.inl (by simp [Table.setFork, Ne.symm ha, hu])
  cases e with
  | forkClaim a =>
    obtain ⟨hu, rfl⟩ := Runs.of_guard h
    unfold allocproc
    split
    · exact Or.inl rfl
    next np hnp => exact hset rfl fun ha => ha ▸ .claim (ha ▸ hu.2) (by simpa using List.find?_some hnp)
  | forkInit a =>
    obtain ⟨u, hu, rfl⟩ := Option.map_eq_some_iff.mp h
    unfold allocprocInit at hu
    split at hu
    next np hf => cases Option.some.inj hu; exact hset rfl fun ha => ha ▸ .initNice (ha ▸ hf)
    next np hf => cases Option.some.inj hu; exact hset rfl fun ha => ha ▸ .initPriority (ha ▸ hf)
    next np hf => cases Option.some.inj hu; exact hset rfl fun ha => ha ▸ .initOriginal (ha ▸ hf)
    next => simp at hu
  | forkFail a =>
    simp only [Table.step] at h
    split at h
    next np hf => cases Option.some.inj h; exact hset rfl fun ha => by subst ha; exact .fail hf
    next => simp at h
  | forkFinish a =>
    simp only [Table.step] at h
    split at h
    next np hf => cases Option.some.inj h; exact hset rfl fun ha => by subst ha; exact .finish hf
    next => simp at h
  | lock a id =>
    obtain ⟨_, rfl⟩ := Runs.of_guard h
    unfold sysLock
    simp only
    repeat' split
    all_goals exact Or.inl rfl
  | release a id =>
    obtain ⟨_, rfl⟩ := Runs.of_guard h
    unfold sysRelease
    simp only
    repeat' split
    all_goals exact Or.inl rfl
  | nice a pid value =>
    obtain ⟨_, rfl⟩ := Runs.of_guard h
    unfold sysNice
    repeat' split
    all_goals exact Or.inl rfl
  | kill a pid =>
    obtain ⟨_, rfl⟩ := Runs.of_guard h
    unfold killPid
    split
    all_goals exact Or.inl rfl
  | exit a =>
    obtain ⟨_, rfl⟩ := Runs.of_guard h
    unfold exitProc
    simp only
    repeat' split
    all_goals exact Or.inl rfl
  | wait a =>
    obtain ⟨_, rfl⟩ := Runs.of_guard h
    unfold waitScan
    repeat' split
    all_goals exact Or.inl rfl
  | sleep a chan | yield a | dispatch a =>
    obtain ⟨_, rfl⟩ := Runs.of_guard h
    exact Or.inl rfl
  | wakeup chan =>
    cases Option.some.inj h
    exact Or.inl rfl

/-- The step of the process table, without the values it returns. -/
def Table.next (t : Table) (e : ProcEvent) : Option Table := (t.step e).map Reply.table

theorem Table.next_eq {t u : Table} {e : ProcEvent} (h : t.next e = some u) :
    ∃ r, t.step e = some r ∧ r.table = u :=
  Option.map_eq_some_iff.mp h

/-- A fork by p from its first step to its last. -/
def forkSteps (p : Slot) : List ProcEvent :=
  [.forkClaim p, .forkInit p, .forkInit p, .forkInit p, .forkFinish p]

end Xv6
