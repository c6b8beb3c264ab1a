import Xv6.Lifecycle

namespace Xv6

/-- The process that a pid names. -/
def Table.Named (t : Table) (pid : Int) (q : Slot) : Prop :=
  (t.proc q).state ≠ .unused ∧ ((t.proc q).pid : Int) = pid

/-- What kill and fork promise of one of their steps. -/
def Table.KillExact (t : Table) (r : Reply) : ProcEvent → Prop
  | .kill _ pid =>
    (r.ret = 0 ↔ ∃ q, t.Named pid q) ∧
      (∀ q, t.Named pid q → r.table = t.setProc q (t.proc q).kill) ∧
      ((∀ q, ¬ t.Named pid q) → r.ret = -1 ∧ r.table = t)
  | .forkClaim p => ∀ np, r.table.fork p = .claimed np → (r.table.proc np).killed = false
  | _ => True

/-- A kill does not name the pid left in a free entry, and a fork whose child has been killed
does not fail. -/
def Table.KillClean (t : Table) : ProcEvent → Prop
  | .kill _ pid => ∀ q, ((t.proc q).pid : Int) = pid → (t.proc q).state ≠ .unused
  | .forkFail p => ∀ np, t.fork p = .initialised np → (t.proc np).killed = false
  | _ => True

instance (t : Table) (e : ProcEvent) : Decidable (t.KillClean e) := by
  induction e using ProcEvent.casesOn <;> dsimp only [Table.KillClean] <;> infer_instance

/-- No free entry has its kill flag set. -/
def Table.Unpoisoned (t : Table) : Prop :=
  ∀ q, (t.proc q).state = .unused → (t.proc q).killed = false

theorem killPid_some {t : Table} {pid : Int} {q : Slot}
    (h : (List.finRange NPROC).find? (fun q => ((t.proc q).pid : Int) = pid) = some q) :
    killPid t pid = ⟨t.setProc q (t.proc q).kill, 0, []⟩ := by
  simp only [killPid, h]
  rfl

theorem killPid_none {t : Table} {pid : Int} (h : ∀ q, ((t.proc q).pid : Int) ≠ pid) :
    killPid t pid = ⟨t, -1, []⟩ := by
  have hnone : (List.finRange NPROC).find? (fun q => ((t.proc q).pid : Int) = pid) = none := by
    simpa using h
  simp only [killPid, hnone]

theorem Proc.kill_unused {b : Proc} (h : b.kill.state = .unused) : b.state = .unused := by
  simp only [Proc.kill] at h
  split at h
  · simp at h
  · exact h

theorem Table.Unpoisoned.step {t : Table} {e : ProcEvent} {r : Reply} (ht : t.Unpoisoned)
    (hc : t.KillClean e) (h : t.step e = some r) : r.table.Unpoisoned := by
  intro q hq
  rcases Table.step_proc h q with he | hch
  · rw [he] at hq ⊢
    exact ht q hq
  · generalize r.table.proc q = v at hch hq ⊢
    cases hch with
    | kill hpid => exact absurd (Proc.kill_unused hq) (hc q hpid)
    | fail hf => exact hc q hf
    | reap => rfl
    | exit =>
      apply ht q
      simp only at hq
      split at hq
      · simp at hq
      · split at hq
        · simp at hq
        · exact hq
    | boost | restore | nice | initNice | initPriority | initOriginal => exact ht q hq
    | claim | finish | waitSleep | sleep | wakeup | yield | dispatch => simp at hq

theorem named_unique {t : Table} (ht : t.Sound) {pid : Int} {q r : Slot} (hq : t.Named pid q)
    (hr : t.Named pid r) :
    q = r := by
  have hpos := ht.pidPos q fun hfree => hq.1 (ProcState.life_eq_free.mp hfree)
  have heq : t.family.pid q = t.family.pid r := by
    have hint := hq.2.trans hr.2.symm
    exact_mod_cast hint
  exact ht.pidInj q r heq (by omega)

theorem kill_exact {t : Table} (ht : t.Sound) {p : Slot} {pid : Int}
    (hc : t.KillClean (.kill p pid)) :
    t.KillExact (killPid t pid) (.kill p pid) := by
  by_cases hex : ∃ q, ((t.proc q).pid : Int) = pid
  · obtain ⟨q, hq⟩ := hex
    have hfind : ((List.finRange NPROC).find? fun q => ((t.proc q).pid : Int) = pid).isSome := by
      rw [List.find?_isSome]
      exact ⟨q, List.mem_finRange q, by simpa using hq⟩
    obtain ⟨r, hr⟩ := Option.isSome_iff_exists.mp hfind
    have hpid : ((t.proc r).pid : Int) = pid := by simpa using List.find?_some hr
    have hnamed : t.Named pid r := ⟨hc r hpid, hpid⟩
    rw [killPid_some hr]
    refine ⟨⟨fun _ => ⟨r, hnamed⟩, fun _ => rfl⟩, ?_, fun hnone => absurd hnamed (hnone r)⟩
    intro a ha
    rw [named_unique ht ha hnamed]
  · have hnone : ∀ q, ((t.proc q).pid : Int) ≠ pid := fun q hq => hex ⟨q, hq⟩
    have hunnamed : ∀ q, ¬ t.Named pid q := fun q hq => hnone q hq.2
    rw [killPid_none hnone]
    refine ⟨⟨fun h => by simp at h, fun ⟨q, hq⟩ => absurd hq (hunnamed q)⟩, ?_, fun _ => ⟨rfl, rfl⟩⟩
    intro q hq
    exact absurd hq (hunnamed q)

theorem forkClaim_killed {t : Table} (ht : t.Unpoisoned) {p np : Slot} (hfork : t.fork p = .none)
    (h : (allocproc t p).table.fork p = .claimed np) :
    ((allocproc t p).table.proc np).killed = false := by
  cases hfind : (List.finRange NPROC).find? (fun q => (t.proc q).state = .unused) with
  | none => simp [allocproc, hfind, hfork] at h
  | some q =>
    have hfree : (t.proc q).state = .unused := by simpa using List.find?_some hfind
    simp only [allocproc, hfind, Table.setFork, Function.update_self, ForkPc.claimed.injEq] at h ⊢
    subst h
    simpa [Table.setProc] using ht q hfree

/-- In a run whose kills name no free entry and whose failed forks had not been killed, kill hits
its target and nothing else, and new processes are not killed. -/
theorem kill_exact_while_clean {l : List ProcEvent}
    (hm : Runs.Meets Table.next Table.KillClean Table.boot l) {pre post : List ProcEvent}
    {e : ProcEvent} {t : Table} {r : Reply} (hl : l = pre ++ e :: post)
    (hpre : Runs.exec Table.next Table.boot pre = some t) (h : t.step e = some r) :
    t.KillExact r e := by
  have hinv : t.Sound ∧ t.Unpoisoned := by
    subst l
    refine Runs.invariant_of_meets (I := fun t : Table => t.Sound ∧ t.Unpoisoned)
      ⟨Table.boot_sound, ?_⟩ ?_ hm.take hpre
    · intro q _
      by_cases hq : q = initproc
      · simp [Table.boot, hq, Proc.zero]
      · simp [Table.boot, hq, Proc.zero]
    · intro u e w hu hc hw
      obtain ⟨r, hr, rfl⟩ := Table.next_eq hw
      exact ⟨hu.1.step hr, hu.2.step hc hr⟩
  have hc := hm pre e post t hl hpre
  cases e with
  | kill p pid =>
    obtain ⟨_, rfl⟩ := Runs.of_guard h
    exact kill_exact hinv.1 hc
  | forkClaim p =>
    obtain ⟨hu, rfl⟩ := Runs.of_guard h
    intro np hnp
    exact forkClaim_killed hinv.2 hu.2 hnp
  | _ => trivial

theorem kill_exact_while_clean_child :
    ∃ t r, Runs.exec Table.next Table.boot (.dispatch 0 :: forkSteps 0) = some t ∧
      t.step (.kill 0 2) = some r ∧
      t.KillExact r (.kill 0 2) := by
  have hrun : ((Runs.exec Table.next Table.boot (.dispatch 0 :: forkSteps 0)).bind fun t =>
      t.step (.kill 0 2)).isSome = true := by decide +kernel
  obtain ⟨r, hr⟩ := Option.isSome_iff_exists.mp hrun
  obtain ⟨t, ht, hr⟩ := Option.bind_eq_some_iff.mp hr
  have hmeets : Runs.Meets Table.next Table.KillClean Table.boot
    (.dispatch 0 :: forkSteps 0 ++ [.kill 0 2]) :=
    Runs.meets_of_check (by decide +kernel)
  exact ⟨t, r, ht, hr, kill_exact_while_clean hmeets rfl ht hr⟩

/-- A fork is killed before it fails, and the next fork gets the same entry. -/
def killedForkRun : List ProcEvent :=
  .dispatch 0 :: forkSteps 0 ++
    [.dispatch 1, .forkClaim 0, .kill 1 3, .forkInit 0, .forkInit 0, .forkInit 0,
    .forkFail 0]

/-- kill(0) finds a free entry, and the process that is created there next starts out killed. So
does one in the entry of a fork that failed after a kill. -/
theorem kill_poisons_free_entries :
    (∃ t r, Runs.exec Table.next Table.boot [.dispatch 0] = some t ∧ t.step (.kill 0 0) = some r ∧
      ¬ t.KillExact r (.kill 0 0)) ∧
    (∃ t r, Runs.exec Table.next Table.boot [.dispatch 0, .kill 0 0] = some t ∧
      t.step (.forkClaim 0) = some r ∧
      ¬ t.KillExact r (.forkClaim 0)) ∧
    ∃ t r, Runs.exec Table.next Table.boot killedForkRun = some t ∧ t.step (.forkClaim 0) = some r ∧
      ¬ t.KillExact r (.forkClaim 0) := by
  have hpoisoned : ∀ {l : List ProcEvent} {np : Slot},
    ((Runs.exec Table.next Table.boot l).bind fun t =>
      (t.step (.forkClaim 0)).map fun r => (r.table.fork 0, (r.table.proc np).killed)) =
        some (.claimed np, true) →
      ∃ t r, Runs.exec Table.next Table.boot l = some t ∧ t.step (.forkClaim 0) = some r ∧
        ¬ t.KillExact r (.forkClaim 0) := by
    intro l np h
    obtain ⟨t, ht, hr⟩ := Option.bind_eq_some_iff.mp h
    obtain ⟨r, hr, heq⟩ := Option.map_eq_some_iff.mp hr
    obtain ⟨hclaim, hkilled⟩ := Prod.mk.inj heq
    exact ⟨t, r, ht, hr, fun hex => by simp [hex np hclaim] at hkilled⟩
  refine ⟨?_, @hpoisoned _ 1 (by decide +kernel), @hpoisoned _ 2 (by decide +kernel)⟩
  have hzero : ((Runs.exec Table.next Table.boot [.dispatch 0]).bind fun t =>
      (t.step (.kill 0 0)).map fun r =>
      (decide (∃ q, (t.proc q).state ≠ .unused ∧ ((t.proc q).pid : Int) = 0), r.ret)) = some (false, 0) := by
    decide +kernel
  obtain ⟨t, ht, hr⟩ := Option.bind_eq_some_iff.mp hzero
  obtain ⟨r, hr, heq⟩ := Option.map_eq_some_iff.mp hr
  obtain ⟨hnone, hret⟩ := Prod.mk.inj heq
  refine ⟨t, r, ht, hr, fun hex => ?_⟩
  exact of_decide_eq_false hnone (hex.1.mp hret)

end Xv6
