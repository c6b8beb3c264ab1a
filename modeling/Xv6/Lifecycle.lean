import Xv6.Family
import Xv6.ProcSteps

namespace Xv6

/-- A process state as fork, exit and wait tell them apart. -/
def ProcState.life : ProcState → Life
  | .unused => .free
  | .embryo => .embryo
  | .sleeping | .runnable | .running => .alive
  | .zombie => .zombie

/-- The entry that a process in fork has claimed. -/
def ForkPc.child : ForkPc → Option Slot
  | .none => Option.none
  | .claimed np | .niceSet np | .prioritySet np | .initialised np => some np

/-- The table with only the births and deaths of processes left in it. -/
def Table.family (t : Table) : Family Slot where
  life q := (t.proc q).state.life
  pid q := (t.proc q).pid
  parent q := (t.proc q).parent
  child p := (t.fork p).child
  nextpid := t.nextpid

/-- The birth or death that a step of the kernel is. -/
def Table.familyEvent (t : Table) : ProcEvent → Family.Event Slot
  | .forkClaim p =>
    match (List.finRange NPROC).find? (fun q => (t.proc q).state = .unused) with
    | some np => .claim p np
    | none => .stay
  | .forkFail p =>
    match t.fork p with
    | .initialised np => .abandon p np
    | _ => .stay
  | .forkFinish p =>
    match t.fork p with
    | .initialised np => .start p np
    | _ => .stay
  | .exit p => .exit p
  | .wait p =>
    match (List.finRange NPROC).find?
      (fun q => (t.proc q).parent = some p ∧ (t.proc q).state = .zombie) with
    | some q => .reap p q
    | none => .stay
  | _ => .stay

theorem ProcState.life_eq_free {x : ProcState} : x.life = .free ↔ x = .unused := by
  cases x <;> simp [ProcState.life]

theorem ProcState.life_eq_zombie {x : ProcState} : x.life = .zombie ↔ x = .zombie := by
  cases x <;> simp [ProcState.life]

theorem ProcState.life_eq_embryo {x : ProcState} : x.life = .embryo ↔ x = .embryo := by
  cases x <;> simp [ProcState.life]

theorem ProcState.life_eq_alive {x : ProcState} :
    x.life = .alive ↔ x = .sleeping ∨ x = .runnable ∨ x = .running := by
  cases x <;> simp [ProcState.life]

section

variable {t : Table} {p : Slot} {v : Proc}

theorem family_setProc : (t.setProc p v).family =
    { t.family with
      life := Function.update t.family.life p v.state.life
      pid := Function.update t.family.pid p v.pid
      parent := Function.update t.family.parent p v.parent } := by
  have hcase : ∀ {β : Type} (g : Proc → β),
      (fun q => g ((t.setProc p v).proc q)) = Function.update (fun q => g (t.proc q)) p (g v) := by
    intro β g
    funext q
    by_cases hq : q = p
    · subst hq
      simp [Table.setProc]
    · simp [Table.setProc, Function.update_of_ne hq]
  exact Family.ext (hcase fun b => b.state.life) (hcase Proc.pid) (hcase Proc.parent) rfl rfl

theorem family_setFork {c : ForkPc} :
    (t.setFork p c).family =
      { t.family with child := Function.update t.family.child p c.child } := by
  refine Family.ext rfl rfl rfl ?_ rfl
  funext q
  by_cases hq : q = p
  · subst hq
    simp [Table.family, Table.setFork]
  · simp [Table.family, Table.setFork, Function.update_of_ne hq]

theorem family_setProc_same (hlife : v.state.life = (t.proc p).state.life)
    (hpid : v.pid = (t.proc p).pid)
    (hparent : v.parent = (t.proc p).parent) : (t.setProc p v).family = t.family := by
  rw [family_setProc, hlife, hpid, hparent]
  exact Family.ext (Function.update_eq_self p t.family.life)
    (Function.update_eq_self p t.family.pid)
    (Function.update_eq_self p t.family.parent) rfl rfl

theorem family_setFork_same {c : ForkPc} (h : c.child = (t.fork p).child) :
    (t.setFork p c).family = t.family := by
  rw [family_setFork, h]
  exact Family.ext rfl rfl rfl (Function.update_eq_self p t.family.child) rfl

end

theorem wakeup1_family (t : Table) (chan : Chan) : (wakeup1 t chan).family = t.family := by
  have hcase : ∀ {β : Type} (g : Proc → β),
      (∀ q, (t.proc q).state = .sleeping → g { t.proc q with state := .runnable } = g (t.proc q)) →
      (fun q => g ((wakeup1 t chan).proc q)) = fun q => g (t.proc q) := by
    intro β g hg
    funext q
    simp only [wakeup1]
    split
    next h => exact hg q h.1
    next => rfl
  refine Family.ext ?_ (hcase Proc.pid fun _ _ => rfl) (hcase Proc.parent fun _ _ => rfl) rfl rfl
  refine hcase (fun b => b.state.life) fun q hq => ?_
  rw [hq]
  rfl

theorem reparent_family (t : Table) (p : Slot) : (reparent t p).family =
    { t.family with parent := fun q =>
      if t.family.parent q = some p then some initproc else t.family.parent q } := by
  refine Family.ext ?_ ?_ ?_ rfl rfl
  · funext q
    simp only [Table.family, reparent]
    split <;> rfl
  · funext q
    simp only [Table.family, reparent]
    split <;> rfl
  · funext q
    by_cases hq : (t.proc q).parent = some p
    · simp [Table.family, reparent, hq]
    · simp [Table.family, reparent, hq]

theorem exitProc_family (t : Table) (p : Slot) :
    (exitProc t p).family = t.family.apply initproc (.exit p) := by
  have hpassed : ∀ u : Table, u.family = t.family → ∀ v : Table,
      (v = wakeup1 (reparent u p) (.proc initproc) ∨ v = reparent u p) →
      (v.setProc p { v.proc p with state := .zombie }).family = t.family.apply initproc (.exit p) := by
    intro u hu v hv
    have hv' : v.family = (reparent u p).family := by
      rcases hv with rfl | rfl
      · exact wakeup1_family _ _
      · rfl
    have hfam := hv'.trans (reparent_family u p)
    rw [hu] at hfam
    rw [family_setProc]
    have hpid : (v.proc p).pid = v.family.pid p := rfl
    have hparent : (v.proc p).parent = v.family.parent p := rfl
    simp only [hpid, hparent, Function.update_eq_self, hfam]
    rfl
  unfold exitProc
  simp only
  split
  next parent _ =>
    split
    · exact hpassed _ (wakeup1_family t (.proc parent)) _ (Or.inl rfl)
    · exact hpassed _ (wakeup1_family t (.proc parent)) _ (Or.inr rfl)
  next =>
    split
    · exact hpassed t rfl _ (Or.inl rfl)
    · exact hpassed t rfl _ (Or.inr rfl)

theorem Table.InUser.enabled {t : Table} {p : Slot} (h : t.InUser p) :
    t.family.life p = .alive ∧ t.family.child p = none := by
  constructor
  · simp [Table.family, h.1, ProcState.life]
  · simp [Table.family, h.2, ForkPc.child]

theorem sysNice_family (t : Table) (pid value : Option Int) :
    (sysNice t pid value).table.family = t.family := by
  unfold sysNice
  split
  · split
    · rfl
    · split
      · exact family_setProc_same rfl rfl rfl
      · rfl
  · rfl

theorem sysLock_family (t : Table) (p : Slot) (id : Option Int) :
    (sysLock t p id).table.family = t.family := by
  unfold sysLock
  split
  · rfl
  · simp only
    split
    · rfl
    · split
      · rfl
      · split
        · exact family_setProc_same rfl rfl rfl
        · rfl

theorem sysRelease_family (t : Table) (p : Slot) (id : Option Int) :
    (sysRelease t p id).table.family = t.family := by
  unfold sysRelease
  split
  · rfl
  · split
    · simp only
      split
      · exact family_setProc_same rfl rfl rfl
      · rfl
    · rfl

theorem killPid_family (t : Table) (pid : Int) : (killPid t pid).table.family = t.family := by
  unfold killPid
  split
  next q _ =>
    refine family_setProc_same ?_ rfl rfl
    simp only
    split
    next hs => rw [hs]; rfl
    next => rfl
  next => rfl

theorem allocprocInit_family {t u : Table} {p : Slot} (h : allocprocInit t p = some u) :
    u.family = t.family := by
  have hstep : ∀ {np : Slot} {c : ForkPc} {v : Proc}, c.child = (t.fork p).child →
      v.state = (t.proc np).state →
      v.pid = (t.proc np).pid → v.parent = (t.proc np).parent →
        ((t.setProc np v).setFork p c).family = t.family := by
    intro np c v hc hs hpid hparent
    have hset : (t.setProc np v).family = t.family := family_setProc_same (by rw [hs]) hpid hparent
    exact (family_setFork_same (t := t.setProc np v) hc).trans hset
  unfold allocprocInit at h
  split at h
  next np hf => cases Option.some.inj h; exact hstep (by rw [hf]; rfl) rfl rfl rfl
  next np hf => cases Option.some.inj h; exact hstep (by rw [hf]; rfl) rfl rfl rfl
  next np hf => cases Option.some.inj h; exact hstep (by rw [hf]; rfl) rfl rfl rfl
  next => simp at h

theorem allocproc_family {t : Table} {p np : Slot}
    (h : (List.finRange NPROC).find? (fun q => (t.proc q).state = .unused) = some np) :
    (allocproc t p).table.family = t.family.apply initproc (.claim p np) := by
  simp only [allocproc, h]
  rw [family_setFork, family_setProc]
  have hparent : (t.proc np).parent = t.family.parent np := rfl
  refine Family.ext rfl rfl ?_ rfl rfl
  simp only [Family.apply, hparent]
  exact Function.update_eq_self np t.family.parent

theorem forkFail_family (t : Table) (p np : Slot) :
    (forkFail t p np).table.family = t.family.apply initproc (.abandon p np) := by
  simp only [forkFail]
  rw [family_setFork, family_setProc]
  have hpid : (t.proc np).pid = t.family.pid np := rfl
  have hparent : (t.proc np).parent = t.family.parent np := rfl
  refine Family.ext rfl ?_ ?_ rfl rfl
  · simp only [Family.apply, hpid]
    exact Function.update_eq_self np t.family.pid
  · simp only [Family.apply, hparent]
    exact Function.update_eq_self np t.family.parent

theorem forkFinish_family (t : Table) (p np : Slot) :
    (forkFinish t p np).table.family = t.family.apply initproc (.start p np) := by
  simp only [forkFinish]
  rw [family_setFork, family_setProc]
  have hpid : (t.proc np).pid = t.family.pid np := rfl
  refine Family.ext rfl ?_ rfl rfl rfl
  simp only [Family.apply, hpid]
  exact Function.update_eq_self np t.family.pid

theorem waitScan_family {t : Table} {p q : Slot}
    (h : (List.finRange NPROC).find?
      (fun q => (t.proc q).parent = some p ∧ (t.proc q).state = .zombie) = some q) :
    (waitScan t p).table.family = t.family.apply initproc (.reap p q) := by
  simp only [waitScan, h]
  rw [family_setProc]
  rfl

/-- Every step of the kernel is one of the births and deaths, or none. -/
theorem Table.step_family {t : Table} {e : ProcEvent} {r : Reply} (h : t.step e = some r) :
    t.family.Enabled initproc (t.familyEvent e) ∧
      r.table.family = t.family.apply initproc (t.familyEvent e) := by
  cases e with
  | lock p id =>
    obtain ⟨_, rfl⟩ := Runs.of_guard h
    exact ⟨trivial, sysLock_family t p id⟩
  | release p id =>
    obtain ⟨_, rfl⟩ := Runs.of_guard h
    exact ⟨trivial, sysRelease_family t p id⟩
  | nice p pid value =>
    obtain ⟨_, rfl⟩ := Runs.of_guard h
    exact ⟨trivial, sysNice_family t pid value⟩
  | kill p pid =>
    obtain ⟨_, rfl⟩ := Runs.of_guard h
    exact ⟨trivial, killPid_family t pid⟩
  | forkClaim p =>
    obtain ⟨hu, rfl⟩ := Runs.of_guard h
    simp only [Table.familyEvent]
    split
    next np hnp =>
      have hfree : (t.proc np).state = .unused := by simpa using List.find?_some hnp
      exact ⟨⟨hu.enabled.1, hu.enabled.2, ProcState.life_eq_free.mpr hfree⟩, allocproc_family hnp⟩
    next hnone => exact ⟨trivial, by simp [allocproc, hnone, Family.apply]⟩
  | forkInit p =>
    obtain ⟨u, hu, rfl⟩ := Option.map_eq_some_iff.mp h
    exact ⟨trivial, allocprocInit_family hu⟩
  | forkFail p =>
    simp only [Table.step] at h
    split at h
    next np hf =>
      cases Option.some.inj h
      simp only [Table.familyEvent, hf]
      exact ⟨by simp [Family.Enabled, Table.family, hf, ForkPc.child], forkFail_family t p np⟩
    next => simp at h
  | forkFinish p =>
    simp only [Table.step] at h
    split at h
    next np hf =>
      cases Option.some.inj h
      simp only [Table.familyEvent, hf]
      exact ⟨by simp [Family.Enabled, Table.family, hf, ForkPc.child], forkFinish_family t p np⟩
    next => simp at h
  | exit p =>
    obtain ⟨hu, rfl⟩ := Runs.of_guard h
    exact ⟨⟨hu.1.enabled.1, hu.1.enabled.2, hu.2⟩, exitProc_family t p⟩
  | wait p =>
    obtain ⟨hu, rfl⟩ := Runs.of_guard h
    simp only [Table.familyEvent]
    split
    next q hq =>
      have hchild : (t.proc q).parent = some p ∧ (t.proc q).state = .zombie := by
        simpa using List.find?_some hq
      exact ⟨⟨hu.enabled.1, hu.enabled.2, hchild.1, ProcState.life_eq_zombie.mpr hchild.2⟩,
        waitScan_family hq⟩
    next hnone =>
      refine ⟨trivial, ?_⟩
      simp only [waitScan, hnone]
      split
      · rfl
      · exact family_setProc_same (by rw [hu.1]; rfl) rfl rfl
  | sleep p chan =>
    obtain ⟨hu, rfl⟩ := Runs.of_guard h
    exact ⟨trivial, family_setProc_same (by rw [hu.1]; rfl) rfl rfl⟩
  | wakeup chan =>
    cases Option.some.inj h
    exact ⟨trivial, wakeup1_family t chan⟩
  | yield p =>
    obtain ⟨hu, rfl⟩ := Runs.of_guard h
    exact ⟨trivial, family_setProc_same (by rw [hu]; rfl) rfl rfl⟩
  | dispatch p =>
    obtain ⟨hu, rfl⟩ := Runs.of_guard h
    exact ⟨trivial, family_setProc_same (by rw [hu]; rfl) rfl rfl⟩

theorem Table.step_nextpid_le {t : Table} {e : ProcEvent} {r : Reply} (h : t.step e = some r) :
    t.nextpid ≤ r.table.nextpid := by
  obtain ⟨_, hfam⟩ := Table.step_family h
  have hle := Family.nextpid_le initproc t.family (t.familyEvent e)
  rw [← hfam] at hle
  exact hle

def Table.Sound (t : Table) : Prop := t.family.Sound initproc

theorem Table.boot_sound : Table.boot.Sound := by
  have hpid : ∀ q, q ≠ initproc → (Table.boot.proc q).pid = 0 := by
    intro q hq
    simp [Table.boot, hq, Proc.zero]
  have hlife : ∀ q, q ≠ initproc → (Table.boot.proc q).state = .unused := by
    intro q hq
    simp [Table.boot, hq, Proc.zero]
  have hparent : ∀ q, (Table.boot.proc q).parent = none := by
    intro q
    by_cases hq : q = initproc
    · simp [Table.boot, hq, Proc.zero]
    · simp [Table.boot, hq, Proc.zero]
  have hnone : ∀ p, Table.boot.family.child p = none := fun _ => rfl
  constructor
  · intro q hq
    by_cases hi : q = initproc
    · subst hi
      decide
    · exact absurd (ProcState.life_eq_free.mpr (hlife q hi)) hq
  · intro q
    by_cases hi : q = initproc
    · subst hi
      decide
    · show (Table.boot.proc q).pid < 2
      rw [hpid q hi]
      omega
  · intro q r hqr hq
    have hinit : ∀ a, (Table.boot.proc a).pid ≠ 0 → a = initproc := fun a ha => by
      by_contra hne
      exact ha (hpid a hne)
    exact (hinit q hq).trans (hinit r
      (by rw [← show _ = (Table.boot.proc r).pid from hqr]; exact hq)).symm
  · intro p np h
    simp [hnone] at h
  · intro p q np h
    simp [hnone] at h
  · decide
  · exact hparent initproc
  · intro q p h
    simp [Table.family, hparent] at h
  · intro q h
    simp [Table.family, hparent] at h
  · intro q hq h
    have hfree := ProcState.life_eq_free.mpr (hlife q hq)
    rcases h with h | h
    · exact absurd (hfree.symm.trans h) (by decide)
    · exact absurd (hfree.symm.trans h) (by decide)
  · intro q _
    exact hparent q

theorem Table.Sound.step {t : Table} {e : ProcEvent} {r : Reply} (ht : t.Sound)
    (h : t.step e = some r) :
    r.table.Sound := by
  obtain ⟨hen, he⟩ := Table.step_family h
  unfold Table.Sound
  rw [he]
  exact Family.Sound.step ht hen

theorem familyEvent_ne_exit {t : Table} {e : ProcEvent} {p : Slot} (h : e ≠ .exit p) :
    t.familyEvent e ≠ .exit p := by
  intro he
  cases e with
  | exit a =>
    simp only [Table.familyEvent, Family.Event.exit.injEq] at he
    exact h (by rw [he])
  | forkClaim a | forkFail a | forkFinish a | wait a =>
    simp only [Table.familyEvent] at he
    split at he
    · simp at he
    · simp at he
  | _ => simp [Table.familyEvent] at he

theorem Table.Sound.alive_stays {t : Table} {e : ProcEvent} {r : Reply} {p : Slot} (ht : t.Sound)
    (h : t.step e = some r) (hp : t.family.life p = .alive) (hexit : e ≠ .exit p) :
    r.table.family.life p = .alive ∧ (r.table.proc p).pid = (t.proc p).pid := by
  obtain ⟨hen, he⟩ := Table.step_family h
  have hstay := Family.Sound.alive_stays ht hen hp (familyEvent_ne_exit hexit)
  rw [← he] at hstay
  exact hstay

theorem Table.alive_before {t : Table} {e : ProcEvent} {r : Reply} {q : Slot}
    (h : t.step e = some r) (hq : r.table.family.life q = .alive) :
    t.family.life q = .alive ∨ ∃ p, e = .forkFinish p ∧ t.fork p = .initialised q := by
  obtain ⟨_, hfam⟩ := Table.step_family h
  rw [hfam] at hq
  rcases Family.alive_before hq with hold | ⟨p, hp⟩
  · exact Or.inl hold
  · right
    cases e with
    | forkFinish a =>
      simp only [Table.familyEvent] at hp
      split at hp
      next np hf =>
        obtain ⟨rfl, rfl⟩ := Family.Event.start.inj hp
        exact ⟨_, rfl, hf⟩
      next => simp at hp
    | forkClaim a | forkFail a | wait a =>
      simp only [Table.familyEvent] at hp
      split at hp
      · simp at hp
      · simp at hp
    | _ => simp [Table.familyEvent] at hp

theorem Table.Sound.child_embryo {t : Table} (ht : t.Sound) {p np : Slot}
    (h : (t.fork p).child = some np) :
    (t.proc np).state = .embryo :=
  ProcState.life_eq_embryo.mp (ht.childLife p np h).1

end Xv6
