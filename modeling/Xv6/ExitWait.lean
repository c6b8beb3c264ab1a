import Xv6.Lifecycle

namespace Xv6

/-- The table, the processes inside wait, and the record of who exited and who was reaped. -/
structure WaitSys where
  table : Table
  waiting : Slot → Bool
  ledger : Family.Ledger

def WaitSys.boot : WaitSys := ⟨Table.boot, fun _ => false, ⟨[], [], fun _ => 0⟩⟩

/-- A process inside wait makes no other call, and only wait sleeps on the address of a process. -/
def WaitSys.Allowed (s : WaitSys) : ProcEvent → Prop
  | .lock p _ | .release p _ | .nice p _ _ | .kill p _ | .forkClaim p | .exit p =>
    s.waiting p = false
  | .sleep p chan => s.waiting p = false ∧ ∀ q, chan ≠ .proc q
  | _ => True

instance (s : WaitSys) (e : ProcEvent) : Decidable (s.Allowed e) := by
  induction e using ProcEvent.casesOn <;> dsimp only [WaitSys.Allowed] <;> infer_instance

/-- fork returns the pid of the child, and wait the pid of the process it has reaped. -/
def WaitSys.record (s : WaitSys) (ret : Int) : ProcEvent → Family.Ledger
  | .exit p => { s.ledger with exited := s.ledger.exited ++ [(s.table.proc p).pid] }
  | .wait p =>
    if 0 < ret then { s.ledger with reaped := s.ledger.reaped ++
      [(ret.toNat, (s.table.proc p).pid)] } else s.ledger
  | .forkFinish p =>
    { s.ledger with starter := Function.update s.ledger.starter ret.toNat (s.table.proc p).pid }
  | _ => s.ledger

/-- wait has not returned while its caller sleeps. -/
def WaitSys.stillWaiting (s : WaitSys) (t : Table) : ProcEvent → Slot → Bool
  | .wait p => Function.update s.waiting p ((t.proc p).state = .sleeping)
  | _ => s.waiting

def WaitSys.step (s : WaitSys) (e : ProcEvent) : Option WaitSys :=
  if s.Allowed e then (s.table.step e).map fun r =>
    ⟨r.table, s.stillWaiting r.table e, s.record r.ret e⟩ else none

/-- The contract of exit and wait in one state. -/
structure WaitSys.Protocol (s : WaitSys) : Prop where
  exitedOnce : s.ledger.exited.Nodup
  reapedOnce : s.ledger.reapedPids.Nodup
  zombieUntilReaped : ∀ pid, pid ∈ s.ledger.exited ↔
    (∃ q, (s.table.proc q).state = .zombie ∧ (s.table.proc q).pid = pid) ∨ pid ∈ s.ledger.reapedPids
  zombieUnreaped : ∀ q, (s.table.proc q).state = .zombie →
    (s.table.proc q).pid ∉ s.ledger.reapedPids
  reaper : ∀ pid caller, (pid, caller) ∈ s.ledger.reaped →
    caller = s.ledger.starter pid ∨
      caller = (s.table.proc initproc).pid ∧ s.ledger.starter pid ∈ s.ledger.exited
  waitReturns : ∀ p r, s.table.step (.wait p) = some r →
    (∃ q, (s.table.proc q).parent = some p ∧ (s.table.proc q).state = .zombie ∧
      r.ret = (s.table.proc q).pid ∧
      0 < r.ret ∧ (r.table.proc q).state = .unused) ∨
    (r.ret = -1 ∧ ((∀ q, (s.table.proc q).parent ≠ some p) ∨ (s.table.proc p).killed = true)) ∨
    (r.ret = 0 ∧ (r.table.proc p).state = .sleeping)
  parents : ∀ q, q ≠ initproc → (s.table.proc q).state ≠ .unused →
    (s.table.proc q).state ≠ .embryo →
    ∃ p, (s.table.proc q).parent = some p ∧ (s.table.proc p).state ≠ .unused ∧
      (s.table.proc p).state ≠ .zombie
  awake : ∀ p q, s.waiting p = true → (s.table.proc p).state = .sleeping →
    (s.table.proc q).parent = some p →
    (s.table.proc q).state ≠ .zombie

theorem waitSys_step_eq {s u : WaitSys} {e : ProcEvent} (h : s.step e = some u) :
    ∃ r, s.Allowed e ∧ s.table.step e = some r ∧
      u = ⟨r.table, s.stillWaiting r.table e, s.record r.ret e⟩ := by
  unfold WaitSys.step at h
  split at h
  next ha =>
    obtain ⟨r, hr, he⟩ := Option.map_eq_some_iff.mp h
    exact ⟨r, ha, hr, he.symm⟩
  next => simp at h

theorem waitScan_cases (t : Table) (p : Slot) :
    (∃ q, (List.finRange NPROC).find?
      (fun q => (t.proc q).parent = some p ∧ (t.proc q).state = .zombie) = some q ∧
      (t.proc q).parent = some p ∧ (t.proc q).state = .zombie ∧ (waitScan t p).ret = (t.proc q).pid ∧
      (waitScan t p).table =
        t.setProc q { t.proc q with pid := 0, parent := none, killed := false, state := .unused }) ∨
    (((List.finRange NPROC).find? fun q => (t.proc q).parent = some p ∧
      (t.proc q).state = .zombie) = none ∧
      (waitScan t p).ret = -1 ∧ (waitScan t p).table = t ∧
      ((∀ q, (t.proc q).parent ≠ some p) ∨ (t.proc p).killed = true)) ∨
    (((List.finRange NPROC).find? fun q => (t.proc q).parent = some p ∧
      (t.proc q).state = .zombie) = none ∧
      (waitScan t p).ret = 0 ∧
      (waitScan t p).table = t.setProc p { t.proc p with chan := some (.proc p), state := .sleeping }) := by
  cases h : (List.finRange NPROC).find?
    (fun q => (t.proc q).parent = some p ∧ (t.proc q).state = .zombie) with
  | some q =>
    have hq : (t.proc q).parent = some p ∧ (t.proc q).state = .zombie := by
      simpa using List.find?_some h
    exact Or.inl ⟨q, rfl, hq.1, hq.2, by simp only [waitScan, h], by simp only [waitScan, h]⟩
  | none =>
    by_cases hk : (∀ q, (t.proc q).parent ≠ some p) ∨ (t.proc p).killed
    · exact Or.inr (Or.inl ⟨rfl, by simp only [waitScan, h, if_pos hk],
        by simp only [waitScan, h, if_pos hk], hk⟩)
    · exact Or.inr (Or.inr ⟨rfl, by simp only [waitScan, h, if_neg hk],
        by simp only [waitScan, h, if_neg hk]⟩)

theorem pid_pos_of_zombie {t : Table} (ht : t.Sound) {q : Slot} (hq : (t.proc q).state = .zombie) :
    0 < (t.proc q).pid :=
  ht.pidPos q (by simp [Table.family, hq, ProcState.life])

/-- What the calls return is what happens to the family. -/
theorem waitSys_record_eq {s : WaitSys} {e : ProcEvent} {r : Reply} (hs : s.table.Sound)
    (h : s.table.step e = some r) :
    s.record r.ret e = s.ledger.record s.table.family (s.table.familyEvent e) := by
  cases e with
  | wait p =>
    obtain ⟨_, rfl⟩ := Runs.of_guard h
    rcases waitScan_cases s.table p with ⟨q, hfind, hparent, hq, hret, _⟩ | ⟨hfind, hret,
      _⟩ | ⟨hfind, hret, _⟩
    · have hpos := pid_pos_of_zombie hs hq
      simp only [WaitSys.record, hret, Table.familyEvent, hfind, Family.Ledger.record, Int.toNat_natCast]
      rw [if_pos (by omega)]
      rfl
    · simp only [WaitSys.record, hret, Table.familyEvent, hfind, Family.Ledger.record]
      rfl
    · simp only [WaitSys.record, hret, Table.familyEvent, hfind, Family.Ledger.record]
      rfl
  | forkFinish p =>
    simp only [Table.step] at h
    split at h
    next np hf =>
      cases Option.some.inj h
      simp only [WaitSys.record, forkFinish, Table.familyEvent, hf, Family.Ledger.record, Int.toNat_natCast]
      rfl
    next => simp at h
  | forkClaim p | forkFail p =>
    simp only [WaitSys.record, Table.familyEvent]
    split <;> rfl
  | exit p => rfl
  | _ => rfl

/-- Only a process that went to sleep in wait is asleep there, on its own address. -/
def WaitSys.OnOwnChan (s : WaitSys) : Prop :=
  ∀ p, s.waiting p = true → (s.table.proc p).state = .sleeping →
    (s.table.proc p).chan = some (.proc p)

def WaitSys.Awake (s : WaitSys) : Prop :=
  ∀ p q, s.waiting p = true → (s.table.proc p).state = .sleeping →
    (s.table.proc q).parent = some p →
    (s.table.proc q).state ≠ .zombie

theorem Proc.kill_sleeping (b : Proc) : b.kill.state ≠ .sleeping := by
  simp only [Proc.kill]
  split
  · simp
  next h => exact h

theorem stillWaiting_other {s : WaitSys} {t : Table} {e : ProcEvent} {p : Slot} (h : e ≠ .wait p) :
    s.stillWaiting t e p = s.waiting p := by
  cases e with
  | wait a =>
    have hpa : p ≠ a := fun he => h (by rw [he])
    simp [WaitSys.stillWaiting, hpa]
  | _ => rfl

theorem sleeping_before {s : WaitSys} {e : ProcEvent} {r : Reply} {p : Slot} (ha : s.Allowed e)
    (h : s.table.step e = some r) (he : e ≠ .wait p) (hw : s.waiting p = true)
    (hs : (r.table.proc p).state = .sleeping) :
    (s.table.proc p).state = .sleeping ∧ (r.table.proc p).chan = (s.table.proc p).chan := by
  rcases Table.step_proc h p with hsame | hch
  · rw [hsame] at hs ⊢
    exact ⟨hs, rfl⟩
  · generalize r.table.proc p = v at hch hs ⊢
    cases hch with
    | boost | restore | nice | initNice | initPriority | initOriginal => exact ⟨hs, rfl⟩
    | kill => exact absurd hs (Proc.kill_sleeping _)
    | exit =>
      simp only at hs
      split at hs
      · simp at hs
      · split at hs
        · simp at hs
        · exact ⟨hs, rfl⟩
    | sleep => exact absurd ha.1 (by simp [hw])
    | waitSleep => exact absurd rfl he
    | claim | fail | finish | reap | wakeup | yield | dispatch => simp at hs

theorem WaitSys.OnOwnChan.step {s u : WaitSys} {e : ProcEvent} (hs : s.OnOwnChan)
    (h : s.step e = some u) :
    u.OnOwnChan := by
  obtain ⟨r, ha, hr, rfl⟩ := waitSys_step_eq h
  intro p hw hp
  by_cases he : e = .wait p
  · subst he
    obtain ⟨hu, rfl⟩ := Runs.of_guard hr
    rcases waitScan_cases s.table p with ⟨q, _, _, hq, _, ht⟩ | ⟨_, _, ht, _⟩ | ⟨_, _, ht⟩
    · have hpq : p ≠ q := fun heq => by simp [← heq, hu.1] at hq
      simp [ht, Table.setProc, hpq, hu.1] at hp
    · simp [ht, hu.1] at hp
    · simp [ht, Table.setProc]
  · simp only [stillWaiting_other he] at hw
    obtain ⟨hold, hchan⟩ := sleeping_before ha hr he hw hp
    exact hchan.trans (hs p hw hold)

theorem exit_awake {s : WaitSys} {a p q : Slot} (hsound : s.table.Sound) (hchan : s.OnOwnChan)
    (hs : s.Awake) (hrun : (s.table.proc a).state = .running) (hw : s.waiting p = true)
    (hold : (s.table.proc p).state = .sleeping)
    (hp : ((exitProc s.table a).proc p).state = .sleeping)
    (hparent : ((exitProc s.table a).proc q).parent = some p) :
    ((exitProc s.table a).proc q).state ≠ .zombie := by
  have hpa : p ≠ a := fun he => by simp [he, hrun] at hold
  have hasleep : ¬ s.table.ExitWakes a p := by
    intro hwakes
    simp [exitProc_proc, hpa, hwakes] at hp
  have hown := hchan p hw hold
  rw [exitProc_proc] at hparent ⊢
  simp only at hparent ⊢
  by_cases hqa : q = a
  · subst hqa
    exfalso
    split at hparent
    next hself => exact hsound.parentOther q hself
    next => exact hasleep ⟨hold, Or.inl ⟨p, hparent, hown⟩⟩
  · rw [if_neg hqa]
    split
    · simp
    · split at hparent
      next hchild =>
        cases Option.some.inj hparent
        intro hz
        refine hasleep ⟨hold, Or.inr ⟨?_, hown⟩⟩
        exact List.any_eq_true.mpr ⟨q, List.mem_finRange q, by simp [hchild, hz]⟩
      next => exact hs p q hw hold hparent

theorem WaitSys.Awake.step {s u : WaitSys} {e : ProcEvent} (hsound : s.table.Sound)
    (hchan : s.OnOwnChan) (hs : s.Awake) (h : s.step e = some u) : u.Awake := by
  obtain ⟨r, ha, hr, rfl⟩ := waitSys_step_eq h
  intro p q hw hp hparent
  by_cases he : e = .wait p
  · subst he
    obtain ⟨hu, rfl⟩ := Runs.of_guard hr
    rcases waitScan_cases s.table p with ⟨a, _, _, hq, _, ht⟩ | ⟨_, _, ht, _⟩ | ⟨hfind, _, ht⟩
    · have hpa : p ≠ a := fun heq => by simp [← heq, hu.1] at hq
      simp [ht, Table.setProc, hpa, hu.1] at hp
    · simp [ht, hu.1] at hp
    · simp only [ht] at hparent ⊢
      by_cases hqp : q = p
      · simp [Table.setProc, hqp]
      · simp only [Table.setProc, Function.update_of_ne hqp] at hparent ⊢
        intro hz
        simpa [hparent, hz] using List.find?_eq_none.mp hfind q (List.mem_finRange q)
  · simp only [stillWaiting_other he] at hw
    have hold := (sleeping_before ha hr he hw hp).1
    rcases Table.step_proc hr q with hsame | hch
    · simp only [hsame] at hparent ⊢
      exact hs p q hw hold hparent
    · by_cases hexit : ∃ a, e = .exit a
      · obtain ⟨a, rfl⟩ := hexit
        obtain ⟨hu, rfl⟩ := Runs.of_guard hr
        exact exit_awake hsound hchan hs hu.1.1 hw hold hp hparent
      · simp only at hparent ⊢
        generalize r.table.proc q = v at hch hparent ⊢
        cases hch with
        | boost | restore | nice | initNice | initPriority | initOriginal => exact hs p q hw hold hparent
        | kill =>
          simp only [Proc.kill]
          split
          · simp
          · exact hs p q hw hold hparent
        | exit => exact absurd ⟨_, rfl⟩ hexit
        | claim | fail | finish | reap | waitSleep | sleep | wakeup | yield | dispatch => simp

/-- What every step of the kernel keeps. -/
structure WaitSys.Inv (s : WaitSys) : Prop where
  sound : s.table.Sound
  exact : s.ledger.Exact initproc s.table.family
  onOwnChan : s.OnOwnChan
  awake : s.Awake

theorem WaitSys.boot_inv : WaitSys.boot.Inv where
  sound := Table.boot_sound
  exact := by
    have hparent : ∀ q, WaitSys.boot.table.family.parent q = none := by
      intro q
      by_cases hq : q = initproc
      · simp [WaitSys.boot, Table.family, Table.boot, hq, Proc.zero]
      · simp [WaitSys.boot, Table.family, Table.boot, hq, Proc.zero]
    have hlife : ∀ q, WaitSys.boot.table.family.life q ≠ .zombie := by
      intro q
      by_cases hq : q = initproc
      · simp [WaitSys.boot, Table.family, Table.boot, hq, ProcState.life]
      · simp [WaitSys.boot, Table.family, Table.boot, hq, Proc.zero, ProcState.life]
    constructor
    · intro c hc
      simp [WaitSys.boot] at hc
    · simp [WaitSys.boot]
    · simp [WaitSys.boot, Family.Ledger.reapedPids]
    · intro c
      simp [WaitSys.boot, Family.Ledger.reapedPids]
      intro q hq
      exact absurd hq (hlife q)
    · intro q _
      simp [WaitSys.boot, Family.Ledger.reapedPids]
    · intro q _
      simp [WaitSys.boot]
    · intro q p hq
      simp [hparent] at hq
    · intro c w hw
      simp [WaitSys.boot] at hw
  onOwnChan := fun p hw => by simp [WaitSys.boot] at hw
  awake := fun p q hw => by simp [WaitSys.boot] at hw

theorem WaitSys.Inv.step {s u : WaitSys} {e : ProcEvent} (hs : s.Inv) (h : s.step e = some u) :
    u.Inv := by
  have hchan := hs.onOwnChan.step h
  have hawake := WaitSys.Awake.step hs.sound hs.onOwnChan hs.awake h
  obtain ⟨r, ha, hr, rfl⟩ := waitSys_step_eq h
  refine ⟨hs.sound.step hr, ?_, hchan, hawake⟩
  obtain ⟨hen, hfam⟩ := Table.step_family hr
  show (s.record r.ret e).Exact initproc r.table.family
  rw [hfam, waitSys_record_eq hs.sound hr]
  exact hs.exact.step hs.sound hen

theorem WaitSys.Inv.protocol {s : WaitSys} (hs : s.Inv) : s.Protocol where
  exitedOnce := hs.exact.exitedOnce
  reapedOnce := hs.exact.reapedOnce
  zombieUntilReaped pid := by
    rw [hs.exact.dead pid]
    simp only [Table.family, ProcState.life_eq_zombie]
  zombieUnreaped q hq := hs.exact.unreaped q (by simp [Table.family, hq, ProcState.life])
  reaper := hs.exact.reapers
  waitReturns p r h := by
    obtain ⟨hu, rfl⟩ := Runs.of_guard h
    rcases waitScan_cases s.table p with ⟨q, _, hparent, hq, hret, ht⟩ | ⟨_, hret, ht, hwhy⟩ |
      ⟨_, hret, ht⟩
    · have hpos := pid_pos_of_zombie hs.sound hq
      exact Or.inl ⟨q, hparent, hq, hret, by omega, by simp [ht, Table.setProc]⟩
    · exact Or.inr (Or.inl ⟨hret, hwhy⟩)
    · exact Or.inr (Or.inr ⟨hret, by simp [ht, Table.setProc]⟩)
  parents q hq hfree hembryo := by
    have hlife : s.table.family.life q = .alive ∨ s.table.family.life q = .zombie := by
      cases hst : (s.table.proc q).state with
      | unused => exact absurd hst hfree
      | embryo => exact absurd hst hembryo
      | sleeping | runnable | running => exact Or.inl (by simp [Table.family, hst, ProcState.life])
      | zombie => exact Or.inr (by simp [Table.family, hst, ProcState.life])
    obtain ⟨p, hp⟩ := hs.sound.hasParent q hq hlife
    have halive := hs.sound.parentAlive q p hp
    refine ⟨p, hp, fun he => ?_, fun he => ?_⟩
    · simp [Table.family, he, ProcState.life] at halive
    · simp [Table.family, he, ProcState.life] at halive
  awake := hs.awake

/-- The contract of exit and wait holds in every state of every run. -/
theorem exit_wait_protocol {l : List ProcEvent} {s : WaitSys}
    (h : Runs.exec WaitSys.step WaitSys.boot l = some s) :
    s.Protocol :=
  (Runs.invariant WaitSys.boot_inv (fun _ _ _ hs hstep => hs.step hstep) h).protocol

/-- A parent waits before its child exits, and is woken by it. -/
def waitRun : List ProcEvent :=
  .dispatch 0 :: forkSteps 0 ++ [.wait 0, .dispatch 1, .exit 1, .dispatch 0, .wait 0, .wait 0]

theorem exit_wait_protocol_reaped : ∃ s, Runs.exec WaitSys.step WaitSys.boot waitRun = some s ∧
    s.ledger.reaped = [(2, 1)] ∧ s.Protocol := by
  have hrun : (Runs.exec WaitSys.step WaitSys.boot waitRun).map (fun s => s.ledger.reaped) =
      some [(2, 1)] := by
    decide +kernel
  obtain ⟨s, hs, hreaped⟩ := Option.map_eq_some_iff.mp hrun
  exact ⟨s, hs, hreaped, exit_wait_protocol hs⟩

end Xv6
