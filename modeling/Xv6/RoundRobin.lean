import Xv6.Lifecycle
import Xv6.Scheduler

namespace Xv6

/-- The steps with one CPU, which takes the process that the scan of scheduler finds. -/
def Table.schedStep (t : Table) : ProcEvent → Option Table
  | .dispatch p =>
    if t.highestPriority = some p ∧ ∀ q, (t.proc q).state ≠ .running then t.next (.dispatch p)
      else none
  | e => t.next e

/-- A process that waits at a level from one dispatch of p at that level on runs before the next. -/
def RoundRobin (l : List ProcEvent) : Prop :=
  ∀ pre mid post p q c s u, l = pre ++ .dispatch p :: mid ++ .dispatch p :: post →
    Runs.exec Table.schedStep Table.boot pre = some s →
      Runs.exec Table.schedStep s (.dispatch p :: mid) = some u →
    (u.schedStep (.dispatch p)).isSome = true → (u.proc p).pid = (s.proc p).pid →
    (s.proc p).priority = c → (u.proc p).priority = c → q ≠ p →
    (∀ m n v, mid = m ++ n → .dispatch q ∉ m →
      Runs.exec Table.schedStep s (.dispatch p :: m) = some v →
      (v.proc q).state = .runnable ∧ (v.proc q).priority = c) →
    .dispatch q ∈ mid

/-- No process of that level waits in a later entry. -/
def Table.Last (t : Table) (p : Slot) (c : Int) : Prop :=
  ∀ q, p < q → (t.proc q).state = .runnable → (t.proc q).priority ≠ c

instance (t : Table) (p : Slot) (c : Int) : Decidable (t.Last p c) :=
  inferInstanceAs (Decidable (∀ _, _))

/-- A process becomes RUNNABLE, or changes its level while it is, only where no other process of
the level waits in a later entry. -/
def Table.JoinsLast (t : Table) : ProcEvent → Prop
  | .yield p => t.Last p (t.proc p).priority
  | .wakeup chan => ∀ p, (t.proc p).state = .sleeping → (t.proc p).chan = some chan →
    t.Last p (t.proc p).priority
  | .exit a => ∀ p, t.ExitWakes a p → t.Last p (t.proc p).priority
  | .kill _ pid => ∀ p, ((t.proc p).pid : Int) = pid → (t.proc p).state = .sleeping →
    t.Last p (t.proc p).priority
  | .nice _ (some pid) (some value) =>
    ∀ p, ((t.proc p).pid : Int) = pid → (t.proc p).state = .runnable → t.Last p value
  | .lock a id => ∀ k p, lockIndex id = some k → (t.locks k).held ≠ 0 →
    (t.locks k).holder = some p →
      (t.proc a).priority < (t.proc p).priority → (t.proc p).state = .runnable → t.Last p (t.proc a).priority
  | _ => True

instance (t : Table) (e : ProcEvent) : Decidable (t.JoinsLast e) := by
  induction e using ProcEvent.casesOn with
  | nice _ pid value =>
    rcases pid with _ | pid <;> rcases value with _ | value <;> dsimp only [Table.JoinsLast] <;> infer_instance
  | _ => dsimp only [Table.JoinsLast]; infer_instance

theorem schedStep_next {t u : Table} {e : ProcEvent} (h : t.schedStep e = some u) :
    t.next e = some u := by
  cases e with
  | dispatch p =>
    simp only [Table.schedStep] at h
    split at h
    · exact h
    · simp at h
  | _ => exact h

theorem schedStep_dispatch {t u : Table} {p : Slot} (h : t.schedStep (.dispatch p) = some u) :
    t.highestPriority = some p := by
  simp only [Table.schedStep] at h
  split at h
  next hp => exact hp.1
  next => simp at h

/-- The process of that pid in entry p does not wait at level c. -/
structure Table.Away (t : Table) (p : Slot) (pid : Nat) (c : Int) : Prop where
  sound : t.Sound
  pidPos : 0 < pid
  pidOld : pid < t.nextpid
  embryo : (t.proc p).pid = pid → (t.proc p).state ≠ .embryo
  elsewhere : (t.proc p).pid = pid → (t.proc p).state = .runnable → (t.proc p).priority ≠ c

theorem Table.Last.ne {t : Table} {p q : Slot} {c d : Int} (h : t.Last p d) (hpq : p < q)
    (hq : (t.proc q).state = .runnable) (hc : (t.proc q).priority = c) : d ≠ c := by
  rintro rfl
  exact h q hpq hq hc

/-- While q waits at the level in a later entry, a process that is away from the level does not
come back to it. -/
theorem Table.Away.step {t : Table} {e : ProcEvent} {r : Reply} {p q : Slot} {pid : Nat} {c : Int}
    (ht : t.Away p pid c) (hj : t.JoinsLast e) (hpq : p < q) (hq : (t.proc q).state = .runnable)
    (hc : (t.proc q).priority = c) (h : t.step e = some r) : r.table.Away p pid c := by
  have hold := ht.pidOld
  have hpos := ht.pidPos
  have hnext := Table.step_nextpid_le h
  have hnot : ∀ {a : Slot}, (t.fork a).child = some p → (t.proc p).pid ≠ pid := fun ha he =>
    ht.embryo he (ht.sound.child_embryo ha)
  suffices hentry : ((r.table.proc p).pid = pid → (r.table.proc p).state ≠ .embryo) ∧
      ((r.table.proc p).pid = pid → (r.table.proc p).state = .runnable → (r.table.proc p).priority ≠ c) from
    ⟨ht.sound.step h, hpos, by omega, hentry.1, hentry.2⟩
  rcases Table.step_proc h p with hsame | hch
  · rw [hsame]
    exact ⟨ht.embryo, ht.elsewhere⟩
  · by_cases hrel : ∃ id, e = .release p id
    · obtain ⟨id, rfl⟩ := hrel
      obtain ⟨hu, rfl⟩ := Runs.of_guard h
      generalize (sysRelease t p id).table.proc p = v at hch ⊢
      cases hch
      exact ⟨fun _ => by simp [hu.1], fun _ hs => by simp [hu.1] at hs⟩
    · generalize r.table.proc p = v at hch ⊢
      cases hch with
      | boost hk hheld howner hlt =>
        exact ⟨ht.embryo, fun _ hs => (hj _ _ hk hheld howner hlt hs).ne hpq hq hc⟩
      | restore => exact absurd ⟨_, rfl⟩ hrel
      | nice hpid => exact ⟨ht.embryo, fun _ hs => (hj p hpid hs).ne hpq hq hc⟩
      | kill hpid =>
        by_cases hs : (t.proc p).state = .sleeping
        · exact ⟨fun _ => by simp [Proc.kill, hs], fun _ _ => (hj p hpid hs).ne hpq hq hc⟩
        · have hkill : (t.proc p).kill.state = (t.proc p).state := by simp [Proc.kill, hs]
          rw [hkill]
          exact ⟨ht.embryo, ht.elsewhere⟩
      | claim =>
        have hne : t.nextpid ≠ pid := by omega
        exact ⟨fun he => absurd he hne, fun he => absurd he hne⟩
      | initNice hf | initPriority hf | initOriginal hf | fail hf | finish hf =>
        have hne := hnot (by rw [hf]; rfl)
        exact ⟨fun he => absurd he hne, fun he => absurd he hne⟩
      | @exit a =>
        by_cases hpa : p = a
        · simp [hpa]
        · by_cases hw : t.ExitWakes a p
          · simp only [if_neg hpa, if_pos hw]
            exact ⟨fun _ => by simp, fun _ _ => (hj p hw).ne hpq hq hc⟩
          · simp only [if_neg hpa, if_neg hw]
            exact ⟨ht.embryo, ht.elsewhere⟩
      | reap =>
        have hne : 0 ≠ pid := by omega
        exact ⟨fun he => absurd he hne, fun he => absurd he hne⟩
      | waitSleep | sleep | dispatch => exact ⟨fun _ => by simp, fun _ hs => by simp at hs⟩
      | wakeup hs hchan => exact ⟨fun _ => by simp, fun _ _ => (hj p hs hchan).ne hpq hq hc⟩
      | yield => exact ⟨fun _ => by simp, fun _ _ => Table.Last.ne hj hpq hq hc⟩

theorem exec_sound {l : List ProcEvent} {t : Table}
    (h : Runs.exec Table.schedStep Table.boot l = some t) : t.Sound := by
  refine Runs.invariant Table.boot_sound ?_ h
  intro t e u ht hstep
  obtain ⟨r, hr, rfl⟩ := Table.next_eq (schedStep_next hstep)
  exact ht.step hr

theorem dispatch_away {s t : Table} {p : Slot} (hs : s.Sound)
    (h : s.schedStep (.dispatch p) = some t) :
    t.Away p (s.proc p).pid (s.proc p).priority ∧ ∀ q, q ≠ p → t.proc q = s.proc q := by
  have hbest := highestPriority_best (schedStep_dispatch h)
  have hlive : s.family.life p ≠ .free := by simp [Table.family, hbest.runnable, ProcState.life]
  obtain ⟨r, hr, rfl⟩ := Table.next_eq (schedStep_next h)
  have hsound := hs.step hr
  have hnext := Table.step_nextpid_le hr
  have hlt := hs.pidLt p
  obtain ⟨_, rfl⟩ := Runs.of_guard hr
  refine ⟨⟨hsound, hs.pidPos p hlive, Nat.lt_of_lt_of_le hlt hnext, ?_, ?_⟩, ?_⟩
  · intro _
    simp [Table.setProc]
  · intro _ hrun
    simp [Table.setProc] at hrun
  · intro q hq
    simp [Table.setProc, hq]

/-- Where processes join their level behind the others, no process runs twice while another one
of the level waits. -/
theorem round_robin_while_joining_last {l : List ProcEvent}
    (hm : Runs.Meets Table.schedStep Table.JoinsLast Table.boot l) : RoundRobin l := by
  intro pre mid post p q c s u hl hpre hmid hagain hpid hprio hprio' hqp hwait
  by_contra hnever
  have hs := exec_sound hpre
  obtain ⟨t, hdisp, hrun⟩ := Option.bind_eq_some_iff.mp hmid
  obtain ⟨haway, hothers⟩ := dispatch_away hs hdisp
  have hstart := hwait [] mid t rfl (by simp) (by simp [Runs.exec, hdisp])
  rw [hothers q hqp] at hstart
  have hbest := highestPriority_best (schedStep_dispatch hdisp)
  have hle := hbest.first q (List.mem_finRange q) hstart.1 (hstart.2.trans hprio.symm)
  have hpq : p < q := lt_of_le_of_ne hle (Ne.symm hqp)
  have hend : u.Away p (s.proc p).pid c := by
    rw [← hprio]
    refine Runs.invariant_of_meets
      (I := fun t : Table => t.Away p (s.proc p).pid (s.proc p).priority)
      (P := fun t e => t.JoinsLast e ∧ (t.proc q).state = .runnable ∧ (t.proc q).priority = c) haway
        ?_ ?_ hrun
    · intro v e w hv hp hstep
      obtain ⟨r, hr, rfl⟩ := Table.next_eq (schedStep_next hstep)
      exact hv.step hp.1 hpq hp.2.1 (hp.2.2.trans hprio.symm) hr
    · intro m e n v hmn hexec
      have hv : Runs.exec Table.schedStep s (.dispatch p :: m) = some v := by
        simp [Runs.exec, hdisp, hexec]
      refine ⟨?_, hwait m (e :: n) v hmn (fun hmem => hnever ?_) hv⟩
      · refine hm (pre ++ .dispatch p :: m) e (n ++ .dispatch p :: post) v (by simp [hl, hmn]) ?_
        rw [Runs.exec_append, hpre]
        exact hv
      · rw [hmn]
        exact List.mem_append_left _ hmem
  obtain ⟨w, hw⟩ := Option.isSome_iff_exists.mp hagain
  have hrunnable := (highestPriority_best (schedStep_dispatch hw)).runnable
  exact hend.elsewhere hpid hrunnable hprio'

/-- A process sleeps while its child runs, and is woken before the child yields; all this twice. -/
def sleepRun : List ProcEvent :=
  .dispatch 0 :: forkSteps 0 ++
    [.sleep 0 (.addr 0), .dispatch 1, .wakeup (.addr 0), .yield 1, .dispatch 0] ++
    [.sleep 0 (.addr 0), .dispatch 1, .wakeup (.addr 0), .yield 1, .dispatch 0]

theorem round_robin_while_joining_last_sleep :
    (Runs.exec Table.schedStep Table.boot sleepRun).isSome = true ∧ RoundRobin sleepRun :=
  ⟨by decide +kernel, round_robin_while_joining_last (Runs.meets_of_check (by decide +kernel))⟩

/-- Process 0 yields twice while its child, at the same priority, has never run. -/
def starvedRun : List ProcEvent :=
  .dispatch 0 :: forkSteps 0 ++ [.yield 0] ++ .dispatch 0 :: [.yield 0] ++ [.dispatch 0]

theorem round_robin_starved_child :
    (Runs.exec Table.schedStep Table.boot starvedRun).isSome = true ∧ ¬ RoundRobin starvedRun := by
  refine ⟨by decide +kernel, fun hrr => ?_⟩
  have hpre : (Runs.exec Table.schedStep Table.boot (.dispatch 0 :: forkSteps 0 ++ [.yield 0])).map
    (fun s =>
      ((s.proc 0).pid, (s.proc 0).priority)) = some (1, 3) := by decide +kernel
  obtain ⟨s, hs, heq⟩ := Option.map_eq_some_iff.mp hpre
  obtain ⟨hpid, hprio⟩ := Prod.mk.inj heq
  have hfirst :
    ((Runs.exec Table.schedStep Table.boot (.dispatch 0 :: forkSteps 0 ++ [.yield 0])).bind fun s =>
      (Runs.exec Table.schedStep s [.dispatch 0]).map fun v => ((v.proc 1).state, (v.proc 1).priority)) =
      some (.runnable, 3) := by decide +kernel
  have hsecond :
    ((Runs.exec Table.schedStep Table.boot (.dispatch 0 :: forkSteps 0 ++ [.yield 0])).bind fun s =>
      (Runs.exec Table.schedStep s [.dispatch 0, .yield 0]).map fun u =>
        ((u.schedStep (.dispatch 0)).isSome, (u.proc 0).pid, (u.proc 0).priority, (u.proc 1).state,
          (u.proc 1).priority)) = some (true, 1, 3, .runnable, 3) := by decide +kernel
  rw [hs, Option.bind_some] at hfirst hsecond
  obtain ⟨v, hv, hv'⟩ := Option.map_eq_some_iff.mp hfirst
  obtain ⟨u, hu, hu'⟩ := Option.map_eq_some_iff.mp hsecond
  simp only [Prod.mk.injEq] at hv' hu'
  obtain ⟨hagain, hpid', hprio', hstate, hlevel⟩ := hu'
  have hdispatched := hrr _ [.yield 0] [] 0 1 3 s u rfl hs hu hagain (hpid'.trans hpid.symm) hprio
    hprio' (by decide) ?_
  · simp at hdispatched
  · intro m n w hmn _ hw
    cases m with
    | nil =>
      cases Option.some.inj (hv.symm.trans hw)
      exact hv'
    | cons e m =>
      obtain ⟨rfl, hnil⟩ := List.cons.inj hmn
      obtain ⟨rfl, _⟩ := List.append_eq_nil_iff.mp hnil.symm
      cases Option.some.inj (hu.symm.trans hw)
      exact ⟨hstate, hlevel⟩

end Xv6
