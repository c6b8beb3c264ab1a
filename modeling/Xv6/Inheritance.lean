import Xv6.Scheduler

namespace Xv6

/-- The table with the calls of lock made on each lock since it was taken: the caller and the
priority it had. -/
structure RequestSys where
  table : Table
  requests : Fin 7 → List (Slot × Int)

def RequestSys.boot : RequestSys := ⟨Table.boot, fun _ => []⟩

def Table.Holds (t : Table) (k : Fin 7) (h : Slot) : Prop :=
  (t.locks k).held = 1 ∧ (t.locks k).holder = some h

instance (t : Table) (k : Fin 7) (h : Slot) : Decidable (t.Holds k h) :=
  inferInstanceAs (Decidable (_ ∧ _))

def RequestSys.record (s : RequestSys) : ProcEvent → Fin 7 → List (Slot × Int)
  | .lock p id => fun k =>
    if lockIndex id = some k then
      if (s.table.locks k).held = 0 then [] else (p, (s.table.proc p).priority) :: s.requests k
    else s.requests k
  | .release p id => fun k => if lockIndex id = some k ∧ s.table.Holds k p then [] else s.requests k
  | _ => s.requests

def RequestSys.step (s : RequestSys) (e : ProcEvent) : Option RequestSys :=
  (s.table.step e).map fun r => ⟨r.table, s.record e⟩

/-- The holder of a lock runs at the priority of every request for it, or better, and is not
passed over for a process with a larger priority number. -/
structure RequestSys.Inherits (s : RequestSys) : Prop where
  boosted : ∀ k h, s.table.Holds k h → ∀ w ∈ s.requests k, (s.table.proc h).priority ≤ w.2
  preferred : ∀ k h, s.table.Holds k h → (s.table.proc h).state = .runnable →
    ∀ p, s.table.highestPriority = some p → ∀ w ∈ s.requests k, (s.table.proc p).priority ≤ w.2

/-- The entry that nice changes. -/
def Table.niceTarget (t : Table) (pid : Int) : Option Slot :=
  (List.finRange NPROC).find? fun q => ((t.proc q).pid : Int) = pid ∧ (t.proc q).state ≠ .unused

/-- The priority q is good enough for all the requests for the locks that h holds, except k. -/
def RequestSys.Suffices (s : RequestSys) (h : Slot) (q : Int) (except : Option (Fin 7)) : Prop :=
  ∀ k, some k ≠ except → s.table.Holds k h → ∀ w ∈ s.requests k, q ≤ w.2

instance (s : RequestSys) (h : Slot) (q : Int) (except : Option (Fin 7)) :
    Decidable (s.Suffices h q except) :=
  inferInstanceAs (Decidable (∀ _, _))

/-- The priority that a release restores suffices for the other locks of the caller, and a new
nice value for all the locks of its target; an entry that is set up anew holds no lock that a
process of a better priority than 3 has asked for. -/
def RequestSys.Considerate (s : RequestSys) : ProcEvent → Prop
  | .release p id => ∀ k, lockIndex id = some k → s.table.Holds k p →
    (s.table.proc p).originalPriority ≠ -1 →
      s.Suffices p (s.table.proc p).originalPriority (some k)
  | .nice _ (some pid) (some value) => 1 ≤ value → value ≤ 5 →
      ∀ h, s.table.niceTarget pid = some h → s.Suffices h value none
  | .forkInit p => ∀ np, s.table.fork p = .niceSet np → s.Suffices np 3 none
  | _ => True

instance (s : RequestSys) (e : ProcEvent) : Decidable (s.Considerate e) := by
  induction e using ProcEvent.casesOn with
  | nice _ pid value =>
    rcases pid with _ | pid <;> rcases value with _ | value <;> dsimp only [RequestSys.Considerate] <;> infer_instance
  | _ => dsimp only [RequestSys.Considerate]; infer_instance

theorem RequestSys.inherits_of_boosted {s : RequestSys}
    (h : ∀ k h, s.table.Holds k h → ∀ w ∈ s.requests k, (s.table.proc h).priority ≤ w.2) :
    s.Inherits := by
  refine ⟨h, ?_⟩
  intro k a hk hrun p hp w hw
  have hbest := highestPriority_best hp
  exact le_trans (hbest.least a (List.mem_finRange a) hrun) (h k a hk w hw)

theorem requestSys_step_eq {s u : RequestSys} {e : ProcEvent} (h : s.step e = some u) :
    ∃ r, s.table.step e = some r ∧ u = ⟨r.table, s.record e⟩ := by
  obtain ⟨r, hr, he⟩ := Option.map_eq_some_iff.mp h
  exact ⟨r, hr, he.symm⟩

theorem holds_of_locks_eq {t u : Table} (h : u.locks = t.locks) {k : Fin 7} {a : Slot} :
    u.Holds k a ↔ t.Holds k a := by
  unfold Table.Holds
  rw [h]

/-- What sysLock does to the priorities: the holder of a lock that is asked for gets the better
one of the two. -/
theorem sysLock_priority {t : Table} {p : Slot} {id : Option Int} {k : Fin 7}
    (hk : lockIndex id = some k) (hheld : (t.locks k).held ≠ 0) {h : Slot}
    (howner : (t.locks k).holder = some h) (a : Slot) :
    ((sysLock t p id).table.proc a).priority =
      if a = h then min (t.proc h).priority (t.proc p).priority else (t.proc a).priority := by
  simp only [sysLock, hk, if_neg hheld, howner]
  by_cases hlt : (t.proc p).priority < (t.proc h).priority
  · rw [if_pos hlt]
    by_cases ha : a = h
    · subst ha
      simp [Table.setProc, min_eq_right (le_of_lt hlt)]
    · simp [Table.setProc, ha]
  · rw [if_neg hlt]
    by_cases ha : a = h
    · subst ha
      simp [min_eq_left (not_lt.mp hlt)]
    · simp [ha]

theorem sysLock_proc_free {t : Table} {p : Slot} {id : Option Int} {k : Fin 7}
    (hk : lockIndex id = some k)
    (hfree : (t.locks k).held = 0) : (sysLock t p id).table.proc = t.proc := by
  simp only [sysLock, hk, if_pos hfree]
  rfl

theorem lock_inherits {s : RequestSys} {p : Slot} {id : Option Int} (hs : s.Inherits) :
    (⟨(sysLock s.table p id).table, s.record (.lock p id)⟩ : RequestSys).Inherits := by
  apply RequestSys.inherits_of_boosted
  intro k h hk w hw
  cases hi : lockIndex id with
  | none =>
    simp only [(sysLock_invalid hi).1, RequestSys.record, hi, reduceCtorEq, if_false] at hk hw ⊢
    exact hs.boosted k h hk w hw
  | some i =>
    by_cases hfree : (s.table.locks i).held = 0
    · simp only [sysLock_proc_free hi hfree]
      by_cases hki : k = i
      · subst hki
        simp [RequestSys.record, hi, hfree] at hw
      · refine hs.boosted k h ?_ w ?_
        · simpa [Table.Holds, sysLock_free hi hfree, Function.update_of_ne hki] using hk
        · simpa [RequestSys.record, hi, Ne.symm hki] using hw
    · have hold := (holds_of_locks_eq (sysLock_taken hi hfree)).mp hk
      cases howner : (s.table.locks i).holder with
      | none =>
        have hki : k ≠ i := by
          rintro rfl
          simp [hold.2] at howner
        have hproc : (sysLock s.table p id).table.proc = s.table.proc := by
          simp only [sysLock, hi, if_neg hfree, howner]
        rw [hproc]
        exact hs.boosted k h hold w (by simpa [RequestSys.record, hi, Ne.symm hki] using hw)
      | some a =>
        rw [sysLock_priority hi hfree howner]
        by_cases hki : k = i
        · subst hki
          have hha : h = a := Option.some.inj (hold.2.symm.trans howner)
          subst hha
          rw [if_pos rfl]
          simp only [RequestSys.record, hi, if_true, if_neg hfree, List.mem_cons] at hw
          rcases hw with rfl | hw
          · exact min_le_right _ _
          · exact le_trans (min_le_left _ _) (hs.boosted k h hold w hw)
        · have hle := hs.boosted k h hold w (by simpa [RequestSys.record, hi, Ne.symm hki] using hw)
          split
          next hha =>
            rw [hha] at hle
            exact le_trans (min_le_left _ _) hle
          next => exact hle

theorem sysRelease_cases {t : Table} {p : Slot} {id : Option Int} {k : Fin 7}
    (hk : lockIndex id = some k)
    (hold : t.Holds k p) : ∃ v, (sysRelease t p id).table = (t.setLock k ⟨0, none⟩).setProc p v ∧
      ((t.proc p).originalPriority = -1 ∧ v = t.proc p ∨ (t.proc p).originalPriority ≠ -1 ∧
        v = { t.proc p with priority := (t.proc p).originalPriority, originalPriority := -1 }) := by
  have howner : (t.locks k).held = 1 ∧ (t.locks k).holder = some p := hold
  simp only [sysRelease, hk, if_pos howner]
  by_cases horig : (t.proc p).originalPriority = -1
  · refine ⟨t.proc p, ?_, Or.inl ⟨horig, rfl⟩⟩
    rw [if_neg (by simpa using horig)]
    simp [Table.setProc, Table.setLock]
  · refine ⟨_, ?_, Or.inr ⟨horig, rfl⟩⟩
    rw [if_pos horig]

theorem sysRelease_none {t : Table} {p : Slot} {id : Option Int}
    (h : ∀ k, lockIndex id = some k → ¬ t.Holds k p) : (sysRelease t p id).table = t := by
  cases hk : lockIndex id with
  | none => exact sysRelease_invalid hk
  | some k =>
    have hother : ¬ ((t.locks k).held = 1 ∧ (t.locks k).holder = some p) := h k hk
    simp only [sysRelease, hk, if_neg hother]

theorem release_inherits {s : RequestSys} {p : Slot} {id : Option Int} (hs : s.Inherits)
    (hc : s.Considerate (.release p id)) :
    (⟨(sysRelease s.table p id).table, s.record (.release p id)⟩ : RequestSys).Inherits := by
  apply RequestSys.inherits_of_boosted
  intro k h hk w hw
  by_cases hheld : ∃ i, lockIndex id = some i ∧ s.table.Holds i p
  · obtain ⟨i, hi, hold⟩ := hheld
    obtain ⟨v, ht, hv⟩ := sysRelease_cases hi hold
    simp only [ht] at hk ⊢
    have hki : k ≠ i := by
      rintro rfl
      simp [Table.Holds, Table.setProc, Table.setLock] at hk
    have hk' : s.table.Holds k h := by
      simpa [Table.Holds, Table.setProc, Table.setLock, hki] using hk
    have hw' : w ∈ s.requests k := by simpa [RequestSys.record, hi, Ne.symm hki] using hw
    by_cases hhp : h = p
    · subst hhp
      rcases hv with ⟨_, rfl⟩ | ⟨horig, rfl⟩
      · simpa [Table.setProc] using hs.boosted k h hk' w hw'
      · simpa [Table.setProc] using hc i hi hold horig k (by simpa using hki) hk' w hw'
    · simpa [Table.setProc, Table.setLock, hhp] using hs.boosted k h hk' w hw'
  · have hnone : ∀ i, lockIndex id = some i → ¬ s.table.Holds i p :=
      fun i hi ho => hheld ⟨i, hi, ho⟩
    simp only [sysRelease_none hnone] at hk ⊢
    refine hs.boosted k h hk w ?_
    simp only [RequestSys.record] at hw
    split at hw
    next hown => exact absurd hown.2 (hnone k hown.1)
    next => exact hw

theorem RequestSys.Inherits.of_locks {s : RequestSys} {t : Table} (hs : s.Inherits)
    (hlocks : t.locks = s.table.locks)
    (hprio : ∀ h, (t.proc h).priority = (s.table.proc h).priority ∨
      s.Suffices h (t.proc h).priority none) :
    (⟨t, s.requests⟩ : RequestSys).Inherits := by
  apply RequestSys.inherits_of_boosted
  intro k h hk w hw
  have hold := (holds_of_locks_eq hlocks).mp hk
  rcases hprio h with heq | hsuff
  · rw [heq]
    exact hs.boosted k h hold w hw
  · exact hsuff k (by simp) hold w hw

theorem nice_priority {s : RequestSys} {p : Slot} {pid value : Option Int}
    (hc : s.Considerate (.nice p pid value))
    (a : Slot) : ((sysNice s.table pid value).table.proc a).priority = (s.table.proc a).priority ∨
      s.Suffices a ((sysNice s.table pid value).table.proc a).priority none := by
  unfold sysNice
  split
  next n v =>
    split
    · exact Or.inl rfl
    next hrange =>
      split
      next h hh =>
        by_cases ha : a = h
        · subst ha
          refine Or.inr ?_
          simpa [Table.setProc] using hc (by omega) (by omega) a hh
        · exact Or.inl (by simp [Table.setProc, ha])
      next => exact Or.inl rfl
  · exact Or.inl rfl

theorem RequestSys.Inherits.step {s u : RequestSys} {e : ProcEvent} (hs : s.Inherits)
    (hc : s.Considerate e) (h : s.step e = some u) : u.Inherits := by
  obtain ⟨r, hr, rfl⟩ := requestSys_step_eq h
  by_cases hl : ∃ p id, e = .lock p id
  · obtain ⟨p, id, rfl⟩ := hl
    obtain ⟨_, rfl⟩ := Runs.of_guard hr
    exact lock_inherits hs
  · by_cases hrel : ∃ p id, e = .release p id
    · obtain ⟨p, id, rfl⟩ := hrel
      obtain ⟨_, rfl⟩ := Runs.of_guard hr
      exact release_inherits hs hc
    · have hlocks := Table.step_locks_other hr (fun p id he => hl ⟨p, id, he⟩)
        (fun p id he => hrel ⟨p, id, he⟩)
      have hrec : s.record e = s.requests := by
        cases e with
        | lock p id => exact absurd ⟨p, id, rfl⟩ hl
        | release p id => exact absurd ⟨p, id, rfl⟩ hrel
        | _ => rfl
      rw [hrec]
      refine hs.of_locks hlocks fun a => ?_
      rcases Table.step_proc hr a with hsame | hch
      · exact Or.inl (by rw [hsame])
      · by_cases hn : ∃ p pid value, e = .nice p pid value
        · obtain ⟨p, pid, value, rfl⟩ := hn
          obtain ⟨_, rfl⟩ := Runs.of_guard hr
          exact nice_priority hc a
        · generalize r.table.proc a = v at hch ⊢
          cases hch with
          | boost => exact absurd ⟨_, _, rfl⟩ hl
          | restore => exact absurd ⟨_, _, rfl⟩ hrel
          | nice => exact absurd ⟨_, _, _, rfl⟩ hn
          | initPriority hf => exact Or.inr (hc a hf)
          | kill | claim | initNice | initOriginal | fail | finish | exit | reap | waitSleep | sleep | wakeup | yield
            | dispatch => exact Or.inl rfl

theorem not_inherits_of_request {s : RequestSys} {k : Fin 7} {h : Slot} {w : Slot × Int}
    (hk : s.table.Holds k h) (hw : w ∈ s.requests k)
    (hlt : w.2 < (s.table.proc h).priority) : ¬ s.Inherits :=
  fun hs => absurd (hs.boosted k h hk w hw) (not_le.mpr hlt)

theorem not_suffices {s : RequestSys} {h : Slot} {q : Int} {except : Option (Fin 7)}
    (hn : ¬ s.Suffices h q except) :
    ∃ k w, some k ≠ except ∧ s.table.Holds k h ∧ w ∈ s.requests k ∧ w.2 < q := by
  simp only [RequestSys.Suffices, not_forall, not_le] at hn
  obtain ⟨k, hk, hold, w, hw, hlt⟩ := hn
  exact ⟨k, w, hk, hold, hw, hlt⟩

/-- A release that gives up a boost which another lock still needs breaks the inheritance. -/
theorem release_breaks {s : RequestSys} {p : Slot} {id : Option Int}
    (hc : ¬ s.Considerate (.release p id)) :
    ¬ (⟨(sysRelease s.table p id).table, s.record (.release p id)⟩ : RequestSys).Inherits := by
  simp only [RequestSys.Considerate, not_forall] at hc
  obtain ⟨i, hi, hold, horig, hsuff⟩ := hc
  obtain ⟨k, w, hk, hheld, hw, hlt⟩ := not_suffices hsuff
  have hki : k ≠ i := by simpa using hk
  obtain ⟨v, ht, ⟨hno, _⟩ | ⟨_, rfl⟩⟩ := sysRelease_cases hi hold
  · exact absurd hno horig
  · refine not_inherits_of_request (k := k) (h := p) (w := w) ?_ ?_ ?_
    · simpa [ht, Table.Holds, Table.setProc, Table.setLock, hki] using hheld
    · simpa [RequestSys.record, hi, Ne.symm hki] using hw
    · simpa [ht, Table.setProc] using hlt

theorem nice_breaks {s : RequestSys} {p : Slot} {pid value : Option Int}
    (hc : ¬ s.Considerate (.nice p pid value)) :
    ¬ (⟨(sysNice s.table pid value).table, s.requests⟩ : RequestSys).Inherits := by
  cases pid with
  | none => exact absurd trivial hc
  | some n =>
    cases value with
    | none => exact absurd trivial hc
    | some v =>
      simp only [RequestSys.Considerate, not_forall] at hc
      obtain ⟨hlo, hhi, h, hh, hsuff⟩ := hc
      obtain ⟨k, w, _, hheld, hw, hlt⟩ := not_suffices hsuff
      have hrange : ¬ (v < 1 ∨ v > 5) := by omega
      unfold Table.niceTarget at hh
      refine not_inherits_of_request (k := k) (h := h) (w := w) ?_ hw ?_
      · simp only [sysNice, if_neg hrange, hh]
        exact hheld
      · simp only [sysNice, if_neg hrange, hh]
        simpa [Table.setProc] using hlt

theorem requestSys_breaks {s u : RequestSys} {e : ProcEvent} (hc : ¬ s.Considerate e)
    (h : s.step e = some u) :
    ¬ u.Inherits := by
  obtain ⟨r, hr, rfl⟩ := requestSys_step_eq h
  cases e with
  | release p id =>
    obtain ⟨_, rfl⟩ := Runs.of_guard hr
    exact release_breaks hc
  | nice p pid value =>
    obtain ⟨_, rfl⟩ := Runs.of_guard hr
    exact nice_breaks hc
  | forkInit p =>
    simp only [RequestSys.Considerate, not_forall] at hc
    obtain ⟨np, hf, hsuff⟩ := hc
    obtain ⟨k, w, _, hheld, hw, hlt⟩ := not_suffices hsuff
    obtain ⟨t, ht, rfl⟩ := Option.map_eq_some_iff.mp hr
    simp only [allocprocInit, hf, Option.some.injEq] at ht
    subst ht
    refine not_inherits_of_request (k := k) (h := np) (w := w) hheld hw ?_
    simpa [Table.setFork, Table.setProc] using hlt
  | _ => exact absurd trivial hc

/-- Along a run every holder keeps the priority it has inherited exactly when no release, nice
or new process takes away a boost that is still needed. -/
theorem inheritance_iff_considerate {l : List ProcEvent} {s : RequestSys}
    (h : Runs.exec RequestSys.step RequestSys.boot l = some s) :
    (∀ pre post t, l = pre ++ post → Runs.exec RequestSys.step RequestSys.boot pre = some t →
      t.Inherits) ↔
      Runs.Meets RequestSys.step RequestSys.Considerate RequestSys.boot l := by
  refine Runs.always_iff_meets (I := RequestSys.Inherits) ?_
    (fun _ _ _ hs hc hstep => hs.step hc hstep) (fun _ hs => hs)
    (fun _ _ _ _ => requestSys_breaks) h
  apply RequestSys.inherits_of_boosted
  intro k a hk w hw
  simp [RequestSys.boot] at hw

/-- A child holds lock 0, its parent asks for it at priority 1, and the child gives it back. -/
def boostRun : List ProcEvent :=
  .dispatch 0 :: forkSteps 0 ++
    [.dispatch 1, .lock 1 (some 0), .nice 0 (some 1) (some 1), .lock 0 (some 0),
    .release 1 (some 0)]

theorem inheritance_iff_considerate_boost :
    ∃ s, Runs.exec RequestSys.step RequestSys.boot boostRun = some s ∧
      ((∀ pre post t, boostRun = pre ++ post →
        Runs.exec RequestSys.step RequestSys.boot pre = some t → t.Inherits) ↔
        Runs.Meets RequestSys.step RequestSys.Considerate RequestSys.boot boostRun) := by
  have hrun : (Runs.exec RequestSys.step RequestSys.boot boostRun).isSome = true := by
    decide +kernel
  obtain ⟨s, hs⟩ := Option.isSome_iff_exists.mp hrun
  exact ⟨s, hs, inheritance_iff_considerate hs⟩

/-- The child holds locks 0 and 1, is boosted through lock 0, and gives back lock 1. -/
def lostBoostRun : List ProcEvent :=
  .dispatch 0 :: forkSteps 0 ++
    [.dispatch 1, .lock 1 (some 0), .lock 1 (some 1), .nice 0 (some 1) (some 1),
    .lock 0 (some 0), .release 1 (some 1)]

theorem inheritance_lost_by_other_release :
    ∃ s, Runs.exec RequestSys.step RequestSys.boot lostBoostRun = some s ∧ ¬ s.Inherits := by
  have hrun : (Runs.exec RequestSys.step RequestSys.boot lostBoostRun).map (fun s =>
      (decide (s.table.Holds 0 1), s.requests 0, (s.table.proc 1).priority)) = some (true, [(0, 1)], 3) := by
    decide +kernel
  obtain ⟨s, hs, heq⟩ := Option.map_eq_some_iff.mp hrun
  simp only [Prod.mk.injEq, decide_eq_true_eq] at heq
  obtain ⟨hholds, hreq, hprio⟩ := heq
  refine ⟨s, hs, not_inherits_of_request (w := (0, 1)) hholds (by simp [hreq]) ?_⟩
  rw [hprio]
  decide

end Xv6
