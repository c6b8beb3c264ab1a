import Xv6.Lifecycle

namespace Xv6

/-- The table with the pid of the process whose lock call took each lock last. -/
structure OwnerSys where
  table : Table
  acquirer : Fin 7 → Nat

def OwnerSys.boot : OwnerSys := ⟨Table.boot, fun _ => 0⟩

def OwnerSys.record (s : OwnerSys) : ProcEvent → Fin 7 → Nat
  | .lock p id => fun k =>
      if lockIndex id = some k ∧ (s.table.locks k).held = 0 then (s.table.proc p).pid else s.acquirer k
  | _ => s.acquirer

def OwnerSys.step (s : OwnerSys) (e : ProcEvent) : Option OwnerSys :=
  (s.table.step e).map fun r => ⟨r.table, s.record e⟩

/-- Every lock that is held belongs to the live process that took it. -/
def OwnerSys.Owned (s : OwnerSys) : Prop :=
  ∀ k, (s.table.locks k).held = 1 → ∃ h, (s.table.locks k).holder = some h ∧
    (s.table.proc h).state ≠ .unused ∧ (s.table.proc h).state ≠ .zombie ∧
      (s.table.proc h).pid = s.acquirer k

/-- No process exits with a lock. -/
def OwnerSys.ExitsFree (s : OwnerSys) : ProcEvent → Prop
  | .exit p => ∀ k, (s.table.locks k).held = 1 → (s.table.locks k).holder ≠ some p
  | _ => True

instance (s : OwnerSys) (e : ProcEvent) : Decidable (s.ExitsFree e) := by
  induction e using ProcEvent.casesOn <;> dsimp only [OwnerSys.ExitsFree] <;> infer_instance

theorem ownerSys_step_eq {s u : OwnerSys} {e : ProcEvent} (h : s.step e = some u) :
    ∃ r, s.table.step e = some r ∧ u = ⟨r.table, s.record e⟩ := by
  obtain ⟨r, hr, he⟩ := Option.map_eq_some_iff.mp h
  exact ⟨r, hr, he.symm⟩

/-- The same with the owner neither free nor half made. -/
def OwnerSys.Tight (s : OwnerSys) : Prop :=
  ∀ k, (s.table.locks k).held = 1 → ∃ h, (s.table.locks k).holder = some h ∧
    s.table.family.life h = .alive ∧ (s.table.proc h).pid = s.acquirer k

theorem OwnerSys.Tight.owned {s : OwnerSys} (hs : s.Tight) : s.Owned := by
  intro k hk
  obtain ⟨h, hh, hlife, hpid⟩ := hs k hk
  refine ⟨h, hh, fun he => ?_, fun he => ?_, hpid⟩
  · simp [Table.family, he, ProcState.life] at hlife
  · simp [Table.family, he, ProcState.life] at hlife

theorem OwnerSys.Tight.keep {s : OwnerSys} {e : ProcEvent} {r : Reply} (hs : s.Tight)
    (hsound : s.table.Sound) (hc : s.ExitsFree e) (hr : s.table.step e = some r) {k : Fin 7}
    (hk : (s.table.locks k).held = 1) :
    ∃ h, (s.table.locks k).holder = some h ∧ r.table.family.life h = .alive ∧
      (r.table.proc h).pid = s.acquirer k := by
  obtain ⟨h, hh, hlife, hpid⟩ := hs k hk
  have hexit : e ≠ .exit h := by
    rintro rfl
    exact hc k hk hh
  obtain ⟨hlife', hpid'⟩ := hsound.alive_stays hr hlife hexit
  exact ⟨h, hh, hlife', hpid'.trans hpid⟩

theorem OwnerSys.Tight.step {s u : OwnerSys} {e : ProcEvent} (hs : s.Tight) (hsound : s.table.Sound)
    (hc : s.ExitsFree e) (h : s.step e = some u) : u.Tight := by
  obtain ⟨r, hr, rfl⟩ := ownerSys_step_eq h
  intro k hk
  by_cases hl : ∃ p id, e = .lock p id
  · obtain ⟨p, id, rfl⟩ := hl
    have hkeep := fun hold => hs.keep hsound hc hr (k := k) hold
    obtain ⟨hu, rfl⟩ := Runs.of_guard hr
    cases hi : lockIndex id with
    | none =>
      simp only [(sysLock_invalid hi).1] at hk hkeep ⊢
      simpa [OwnerSys.record, hi] using hkeep hk
    | some i =>
      by_cases hf : (s.table.locks i).held = 0
      · have hlocks := sysLock_free (p := p) hi hf
        by_cases hki : k = i
        · subst hki
          have hstay := hsound.alive_stays hr hu.enabled.1 (by simp)
          refine ⟨p, by simp [hlocks], hstay.1, ?_⟩
          simpa [OwnerSys.record, hi, hf] using hstay.2
        · simp only [hlocks, Function.update_of_ne hki] at hk ⊢
          simpa [OwnerSys.record, hi, Ne.symm hki] using hkeep hk
      · simp only [sysLock_taken hi hf] at hk ⊢
        have hrec : s.record (.lock p id) k = s.acquirer k := by
          simp only [OwnerSys.record, hk]
          simp
        rw [hrec]
        exact hkeep hk
  · have hrec : s.record e = s.acquirer := by
      cases e with
      | lock p id => exact absurd ⟨p, id, rfl⟩ hl
      | _ => rfl
    have hold : (s.table.locks k).held = 1 ∧
        (r.table.locks k).holder = (s.table.locks k).holder := by
      by_cases hrel : ∃ p id, e = .release p id
      · obtain ⟨p, id, rfl⟩ := hrel
        obtain ⟨_, rfl⟩ := Runs.of_guard hr
        cases hi : lockIndex id with
        | none =>
          simp only [sysRelease_invalid hi] at hk ⊢
          exact ⟨hk, trivial⟩
        | some i =>
          simp only [sysRelease_locks hi] at hk ⊢
          split at hk
          next hown =>
            by_cases hki : k = i
            · simp [hki] at hk
            · simp only [Function.update_of_ne hki] at hk
              simpa [hown, Function.update_of_ne hki] using hk
          next hown => simpa [hown] using hk
      · have hlocks := Table.step_locks_other hr (fun p id he => hl ⟨p, id, he⟩) (fun p id he => hrel ⟨p, id, he⟩)
        simp only [hlocks] at hk ⊢
        exact ⟨hk, trivial⟩
    obtain ⟨h, hh, hlife, hpid⟩ := hs.keep hsound hc hr hold.1
    exact ⟨h, hold.2.trans hh, hlife, by simpa only [hrec] using hpid⟩

theorem ownerSys_exit_breaks {s u : OwnerSys} {e : ProcEvent} (hc : ¬ s.ExitsFree e)
    (h : s.step e = some u) :
    ¬ u.Owned := by
  obtain ⟨r, hr, rfl⟩ := ownerSys_step_eq h
  cases e with
  | exit p =>
    simp only [OwnerSys.ExitsFree, not_forall, not_not] at hc
    obtain ⟨k, hk, hp⟩ := hc
    obtain ⟨_, rfl⟩ := Runs.of_guard hr
    intro how
    obtain ⟨h, hh, _, hzombie, _⟩ := how k (by simpa [exitProc_locks] using hk)
    have hhp : h = p := Option.some.inj (hh.symm.trans (by simpa [exitProc_locks] using hp))
    exact hzombie (by simp [hhp, exitProc_proc])
  | _ => exact absurd trivial hc

/-- Every held lock belongs to the live process that took it, throughout a run, exactly when no
process of the run exits with a lock. -/
theorem lock_owners_live_iff_exits_free {l : List ProcEvent} {s : OwnerSys}
    (h : Runs.exec OwnerSys.step OwnerSys.boot l = some s) :
    (∀ pre post t, l = pre ++ post → Runs.exec OwnerSys.step OwnerSys.boot pre = some t → t.Owned) ↔
      Runs.Meets OwnerSys.step OwnerSys.ExitsFree OwnerSys.boot l := by
  refine Runs.always_iff_meets (I := fun s : OwnerSys => s.table.Sound ∧ s.Tight)
    ⟨Table.boot_sound, fun k hk => by simp [OwnerSys.boot, Table.boot] at hk⟩ ?_
      (fun _ hs => hs.2.owned)
    (fun _ _ _ _ => ownerSys_exit_breaks) h
  intro s e t hs hc hstep
  refine ⟨?_, hs.2.step hs.1 hc hstep⟩
  obtain ⟨r, hr, rfl⟩ := ownerSys_step_eq hstep
  exact hs.1.step hr

/-- A child takes lock 0 and gives it back before it exits. -/
def tidyRun : List ProcEvent :=
  .dispatch 0 :: forkSteps 0 ++
    [.dispatch 1, .lock 1 (some 0), .release 1 (some 0), .exit 1, .wait 0]

theorem lock_owners_live_iff_exits_free_tidy :
    ∃ s, Runs.exec OwnerSys.step OwnerSys.boot tidyRun = some s ∧
      ((∀ pre post t, tidyRun = pre ++ post → Runs.exec OwnerSys.step OwnerSys.boot pre = some t → t.Owned) ↔
        Runs.Meets OwnerSys.step OwnerSys.ExitsFree OwnerSys.boot tidyRun) := by
  have hrun : (Runs.exec OwnerSys.step OwnerSys.boot tidyRun).isSome = true := by decide +kernel
  obtain ⟨s, hs⟩ := Option.isSome_iff_exists.mp hrun
  exact ⟨s, hs, lock_owners_live_iff_exits_free hs⟩

/-- A child exits with lock 0, is reaped, and the next child is placed in its entry. -/
def staleOwnerRun : List ProcEvent :=
  .dispatch 0 :: forkSteps 0 ++ [.dispatch 1, .lock 1 (some 0), .exit 1, .wait 0] ++ forkSteps 0

/-- Lock 0 has passed to a process that never asked for it. -/
theorem lock_owner_stale_after_exit :
    ∃ s, Runs.exec OwnerSys.step OwnerSys.boot staleOwnerRun = some s ∧ ¬ s.Owned ∧
      (s.table.locks 0).holder = some 1 ∧ (s.table.proc 1).state = .runnable ∧
      (s.table.proc 1).pid = 3 ∧ s.acquirer 0 = 2 := by
  have hrun : (Runs.exec OwnerSys.step OwnerSys.boot staleOwnerRun).map (fun s =>
      ((s.table.locks 0).held, (s.table.locks 0).holder, (s.table.proc 1).state, (s.table.proc 1).pid,
        s.acquirer 0)) = some (1, some 1, .runnable, 3, 2) := by decide +kernel
  obtain ⟨s, hs, heq⟩ := Option.map_eq_some_iff.mp hrun
  simp only [Prod.mk.injEq] at heq
  obtain ⟨hheld, hholder, hstate, hpid, hacq⟩ := heq
  refine ⟨s, hs, fun how => ?_, hholder, hstate, hpid, hacq⟩
  obtain ⟨h, hh, _, _, hsame⟩ := how 0 hheld
  cases Option.some.inj (hholder.symm.trans hh)
  omega

end Xv6
