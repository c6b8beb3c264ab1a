import Xv6.Kill

namespace Xv6

/-- The table with the nice calls that returned a value, the latest one first. -/
structure NiceSys where
  table : Table
  log : List (Int × Int)

def NiceSys.boot : NiceSys := ⟨Table.boot, []⟩

def NiceSys.record (log : List (Int × Int)) (ret : Int) : ProcEvent → List (Int × Int)
  | .nice _ (some pid) (some value) => if ret ≠ -1 then (pid, value) :: log else log
  | _ => log

def NiceSys.step (s : NiceSys) (e : ProcEvent) : Option NiceSys :=
  (s.table.step e).map fun r => ⟨r.table, NiceSys.record s.log r.ret e⟩

/-- The value that the last nice on the pid has set. -/
def niceOf (log : List (Int × Int)) (pid : Int) : Int :=
  ((log.find? fun r => r.1 = pid).map Prod.snd).getD 3

/-- A nice call does not name a process whose first nice value is still to be stored. -/
def NiceSys.Settled (s : NiceSys) : ProcEvent → Prop
  | .nice _ (some pid) _ => ∀ p q, s.table.fork p = .claimed q → ((s.table.proc q).pid : Int) ≠ pid
  | _ => True

instance (s : NiceSys) (e : ProcEvent) : Decidable (s.Settled e) := by
  unfold NiceSys.Settled
  split <;> infer_instance

structure NiceSys.Inv (s : NiceSys) : Prop where
  sound : s.table.Sound
  below : ∀ r ∈ s.log, r.1 < s.table.nextpid ∧ 1 ≤ r.2
  fresh : ∀ p q, s.table.fork p = .claimed q → ∀ r ∈ s.log, r.1 ≠ (s.table.proc q).pid
  kept : ∀ q, (s.table.proc q).state ≠ .unused → (∀ p, s.table.fork p ≠ .claimed q) →
    (s.table.proc q).nice = niceOf s.log (s.table.proc q).pid

variable {s u : NiceSys} {e : ProcEvent} {t : Table} {r : Reply} {p q : Slot}

theorem niceSys_step_eq (h : s.step e = some u) :
    ∃ r, s.table.step e = some r ∧ u = ⟨r.table, NiceSys.record s.log r.ret e⟩ := by
  obtain ⟨r, hr, he⟩ := Option.map_eq_some_iff.mp h
  exact ⟨r, hr, he.symm⟩

theorem sysNice_cases (t : Table) (pid value : Option Int) :
    sysNice t pid value = ⟨t, -1, []⟩ ∨
      ∃ pid' v q, pid = some pid' ∧ value = some v ∧ 1 ≤ v ∧ t.Named pid' q ∧
      sysNice t pid value = ⟨t.setProc q { t.proc q with nice := v, priority := v },
        (t.proc q).nice, []⟩ := by
  unfold sysNice
  split
  next pid value =>
    split
    · exact Or.inl rfl
    next hrange =>
      split
      next q hq =>
        have hfound : ((t.proc q).pid : Int) = pid ∧ (t.proc q).state ≠ .unused := by simpa using List.find?_some hq
        exact Or.inr ⟨pid, value, q, rfl, rfl, by omega, ⟨hfound.2, hfound.1⟩, rfl⟩
      next => exact Or.inl rfl
  · exact Or.inl rfl

theorem niceOf_absent {log : List (Int × Int)} {pid : Int} (h : ∀ r ∈ log, r.1 ≠ pid) :
    niceOf log pid = 3 := by
  have hnone : (log.find? fun r => r.1 = pid) = none := by simpa using h
  simp [niceOf, hnone]

theorem niceOf_pos {log : List (Int × Int)} (h : ∀ r ∈ log, 1 ≤ r.2) (pid : Int) :
    1 ≤ niceOf log pid := by
  unfold niceOf
  cases hfind : log.find? fun r => r.1 = pid with
  | none => simp
  | some r => simpa using h r (List.mem_of_find?_eq_some hfind)

theorem niceOf_cons (log : List (Int × Int)) (pid pid' v : Int) :
    niceOf ((pid', v) :: log) pid = if pid' = pid then v else niceOf log pid := by
  by_cases hp : pid' = pid
  · simp [niceOf, hp]
  · simp [niceOf, hp]

theorem niceOf_append {later log : List (Int × Int)} {pid v : Int} (h : ∀ r ∈ later, r.1 ≠ pid) :
    niceOf (later ++ (pid, v) :: log) pid = v := by
  induction later with
  | nil => simp [niceOf_cons]
  | cons x later ih =>
    rw [List.cons_append, niceOf_cons, if_neg (h x (by simp))]
    exact ih fun r hr => h r (by simp [hr])

theorem NiceSys.Inv.named_pos (hs : s.Inv) {pid : Int} (hq : s.table.Named pid q)
    (hclaim : ∀ p, s.table.fork p ≠ .claimed q) : 1 ≤ (s.table.proc q).nice := by
  rw [hs.kept q hq.1 hclaim]
  exact niceOf_pos (fun r hr => (hs.below r hr).2) _

theorem forkInit_claimed (h : t.step (.forkInit p) = some r) (hf : t.fork p = .claimed q) :
    r.table = (t.setProc q { t.proc q with nice := 3 }).setFork p (.niceSet q) := by
  obtain ⟨u, hu, rfl⟩ := Option.map_eq_some_iff.mp h
  rw [allocprocInit, hf] at hu
  exact (Option.some.inj hu).symm

theorem forkClaim_proc (h : t.step (.forkClaim p) = some r) (hclaim : r.table.fork p ≠ .claimed q) :
    r.table.proc q = t.proc q := by
  obtain ⟨_, rfl⟩ := Runs.of_guard h
  unfold allocproc at hclaim ⊢
  split
  · rfl
  next np hnp =>
    simp only [hnp, Table.setFork, Function.update_self, ne_eq, ForkPc.claimed.injEq] at hclaim
    simp [Table.setFork, Table.setProc, Ne.symm hclaim]

theorem Table.claimed_before (h : t.step e = some r) (hf : t.fork p = .claimed q)
    (hclaim : r.table.fork p ≠ .claimed q) : e = .forkInit p := by
  rcases Table.step_fork h p with he | hch
  · exact absurd (he.trans hf) hclaim
  · generalize r.table.fork p = c at hch
    cases hch with
    | claim hfork => simp [hfork] at hf
    | fail hi | finish hi | initPriority hi | initOriginal hi => simp [hi] at hf
    | initNice => rfl

theorem NiceSys.Inv.kept_step (hs : s.Inv) (h : s.table.step e = some r)
    (hn : ∀ p pid value, e ≠ .nice p pid value) (hstate : (r.table.proc q).state ≠ .unused)
    (hclaim : ∀ p, r.table.fork p ≠ .claimed q) :
    (r.table.proc q).nice = niceOf s.log (r.table.proc q).pid := by
  by_cases hex : ∃ p, s.table.fork p = .claimed q
  · obtain ⟨p, hp⟩ := hex
    have he := Table.claimed_before h hp (hclaim p)
    subst he
    rw [forkInit_claimed h hp]
    have hfresh := niceOf_absent (hs.fresh p q hp)
    simpa [Table.setFork, Table.setProc] using hfresh.symm
  · have hfree : ∀ p, s.table.fork p ≠ .claimed q := fun p hp => hex ⟨p, hp⟩
    have hkept := hs.kept q
    rcases Table.step_proc h q with hsame | hch
    · rw [hsame] at hstate ⊢
      exact hkept hstate hfree
    · generalize hv : r.table.proc q = v at hch hstate ⊢
      cases hch with
      | nice => exact absurd rfl (hn _ _ _)
      | @claim p hunused =>
        rw [forkClaim_proc h (hclaim p)] at hv
        rw [← hv] at hstate
        exact absurd hunused hstate
      | initNice hf => exact absurd hf (hfree _)
      | fail | reap => exact absurd rfl hstate
      | @exit p =>
        obtain ⟨hu, _⟩ := Runs.of_guard h
        refine hkept (fun hunused => hstate ?_) hfree
        have hne : q ≠ p := by
          rintro rfl
          simp [Table.InUser, hunused] at hu
        simp [hne, hunused, Table.ExitWakes]
      | finish hf => exact hkept (by rw [hs.sound.child_embryo (by rw [hf]; rfl)]; simp) hfree
      | kill => exact hkept (fun hu => hstate (by simp [Proc.kill, hu])) hfree
      | boost | restore | initPriority | initOriginal => exact hkept hstate hfree
      | waitSleep hst | sleep hst | yield hst | dispatch hst => exact hkept (by simp [hst]) hfree
      | wakeup hst => exact hkept (by simp [hst]) hfree

theorem Table.Sound.claimed_pid (ht : t.Sound) (h : t.step e = some r)
    (hf : r.table.fork p = .claimed q) :
    t.fork p = .claimed q ∧ (r.table.proc q).pid = (t.proc q).pid ∨
      (r.table.proc q).pid = t.nextpid := by
  rcases Table.step_fork h p with he | hch
  · rw [he] at hf
    have hembryo : (t.proc q).state = .embryo := ht.child_embryo (by rw [hf]; rfl)
    refine Or.inl ⟨hf, ?_⟩
    rcases Table.step_proc h q with hsame | hch
    · rw [hsame]
    · generalize r.table.proc q = v at hch ⊢
      cases hch with
      | claim hfree => simp [hembryo] at hfree
      | reap _ hzombie => simp [hembryo] at hzombie
      | kill => rfl
      | _ => rfl
  · rw [hf] at hch
    cases hch with
    | claim _ _ =>
      right
      obtain ⟨hu, rfl⟩ := Runs.of_guard h
      unfold allocproc at hf ⊢
      split at hf
      · simp [hu.2] at hf
      next np hnp =>
        simp only [Table.setFork, Function.update_self, ForkPc.claimed.injEq] at hf
        subst hf
        simp [Table.setFork, Table.setProc]

theorem NiceSys.Inv.fresh_step (hs : s.Inv) (h : s.table.step e = some r)
    (hf : r.table.fork p = .claimed q) :
    ∀ x ∈ s.log, x.1 ≠ (r.table.proc q).pid := by
  intro x hx
  rcases hs.sound.claimed_pid h hf with ⟨hold, hpid⟩ | hpid
  · rw [hpid]
    exact hs.fresh p q hold x hx
  · rw [hpid]
    exact Int.ne_of_lt (hs.below x hx).1

theorem NiceSys.Inv.below_step (hs : s.Inv) (h : s.table.step e = some r) :
    ∀ x ∈ s.log, x.1 < r.table.nextpid ∧ 1 ≤ x.2 := by
  intro x hx
  have hle := Table.step_nextpid_le h
  have hx' := hs.below x hx
  omega

theorem NiceSys.Inv.niced {pid v : Int} (hs : s.Inv) (hclaim : ∀ p q, s.table.fork p = .claimed q →
    ((s.table.proc q).pid : Int) ≠ pid) (hq : s.table.Named pid q) (hv : 1 ≤ v) {w : Proc}
    (hw : w = { s.table.proc q with nice := v, priority := v })
    (hsound : (s.table.setProc q w).Sound) :
    NiceSys.Inv ⟨s.table.setProc q w, (pid, v) :: s.log⟩ := by
  have hlt : pid < s.table.nextpid := by
    have hpid := hs.sound.pidLt q
    rw [← hq.2]
    exact_mod_cast hpid
  have hpids : ∀ a, ((s.table.setProc q w).proc a).pid = (s.table.proc a).pid := by
    intro a
    by_cases ha : a = q
    · simp [Table.setProc, ha, hw]
    · simp [Table.setProc, ha]
  refine ⟨hsound, fun x hx => ?_, fun p a ha x hx => ?_, fun a ha hfree => ?_⟩
  · rcases List.mem_cons.mp hx with rfl | hx
    · exact ⟨hlt, hv⟩
    · exact hs.below x hx
  · rw [hpids]
    rcases List.mem_cons.mp hx with rfl | hx
    · exact (hclaim p a ha).symm
    · exact hs.fresh p a ha x hx
  · rw [hpids, niceOf_cons]
    by_cases haq : a = q
    · subst haq
      simp [Table.setProc, hw, hq.2]
    · have hstate : (s.table.proc a).state ≠ .unused := by simpa [Table.setProc, haq] using ha
      have hne : pid ≠ (s.table.proc a).pid := fun he => haq (named_unique hs.sound ⟨hstate, he.symm⟩ hq)
      rw [if_neg hne, ← hs.kept a hstate hfree]
      simp [Table.setProc, haq]

theorem NiceSys.Inv.step (hs : s.Inv) (hset : s.Settled e) (h : s.step e = some u) : u.Inv := by
  obtain ⟨r, hr, rfl⟩ := niceSys_step_eq h
  have hsound := hs.sound.step hr
  by_cases hnice : ∃ p pid value, e = .nice p pid value
  · obtain ⟨p, pid, value, rfl⟩ := hnice
    obtain ⟨_, rfl⟩ := Runs.of_guard hr
    rcases sysNice_cases s.table pid value with he | ⟨pid, v, q, rfl, rfl, hv, hq, he⟩
    · rw [he]
      cases pid with
      | none => exact hs
      | some pid =>
        cases value with
        | none => exact hs
        | some v => simpa [NiceSys.record] using hs
    · have hunclaimed : ∀ a, s.table.fork a ≠ .claimed q := fun a ha => hset a q ha hq.2
      have hpos := hs.named_pos hq hunclaimed
      rw [he] at hsound ⊢
      have hret : (s.table.proc q).nice ≠ -1 := by omega
      simpa [NiceSys.record, hret] using hs.niced hset hq hv rfl hsound
  · have hne : ∀ p pid value, e ≠ .nice p pid value :=
      fun p pid value he => hnice ⟨p, pid, value, he⟩
    have hlog : NiceSys.record s.log r.ret e = s.log := by
      cases e with
      | nice p pid value => exact absurd rfl (hne p pid value)
      | _ => rfl
    rw [hlog]
    exact ⟨hsound, hs.below_step hr, fun p q hf => hs.fresh_step hr hf,
      fun q => hs.kept_step hr hne⟩

theorem NiceSys.boot_inv : NiceSys.boot.Inv := by
  refine ⟨Table.boot_sound, by simp [NiceSys.boot], by simp [NiceSys.boot], fun q hq _ => ?_⟩
  by_cases hinit : q = initproc
  · simp [NiceSys.boot, Table.boot, hinit, niceOf]
  · simp [NiceSys.boot, Table.boot, hinit, Proc.zero] at hq

theorem NiceSys.log_grows {l : List ProcEvent} (h : Runs.exec NiceSys.step s l = some u) :
    ∃ later, u.log = later ++ s.log := by
  refine Runs.invariant (I := fun u : NiceSys => ∃ later, u.log = later ++ s.log) ⟨[], rfl⟩ ?_ h
  intro a e b ⟨later, ha⟩ hstep
  obtain ⟨r, _, rfl⟩ := niceSys_step_eq hstep
  have hcase : NiceSys.record a.log r.ret e = a.log ∨
      ∃ x, NiceSys.record a.log r.ret e = x :: a.log := by
    unfold NiceSys.record
    split
    · split
      · exact Or.inr ⟨_, rfl⟩
      · exact Or.inl rfl
    · exact Or.inl rfl
  rcases hcase with he | ⟨x, he⟩
  · exact ⟨later, he.trans ha⟩
  · exact ⟨x :: later, by rw [he, ha, List.cons_append]⟩

/-- When no nice call names a process that has no nice value yet, each call that returns a value
returns the one set last, and the value it sets stays until the next one. -/
theorem nice_not_lost {l : List ProcEvent}
    (hm : Runs.Meets NiceSys.step NiceSys.Settled NiceSys.boot l) {pre mid post : List ProcEvent}
    {pid value : Option Int} {a b : NiceSys} (hl : l = pre ++ .nice p pid value :: (mid ++ post))
    (ha : Runs.exec NiceSys.step NiceSys.boot pre = some a)
    (h : a.table.step (.nice p pid value) = some r) (hret : r.ret ≠ -1)
    (hb : Runs.exec NiceSys.step NiceSys.boot (pre ++ .nice p pid value :: mid) = some b) :
    ∃ pid' v q later, pid = some pid' ∧ value = some v ∧ a.table.Named pid' q ∧
      r.ret = (a.table.proc q).nice ∧
      r.ret = niceOf a.log pid' ∧ b.log = later ++ (pid', v) :: a.log ∧
      ((∀ x ∈ later, x.1 ≠ pid') → b.table.Named pid' q → (b.table.proc q).nice = v) := by
  have hsplit : l = (pre ++ .nice p pid value :: mid) ++ post := by simp [hl]
  have hset := hm pre _ _ a hl ha
  have hia : a.Inv :=
    Runs.invariant_of_meets NiceSys.boot_inv (fun _ _ _ hs hc hstep => hs.step hc hstep)
      (hl ▸ hm).take ha
  have hib : b.Inv :=
    Runs.invariant_of_meets NiceSys.boot_inv (fun _ _ _ hs hc hstep => hs.step hc hstep)
      (hsplit ▸ hm).take hb
  obtain ⟨a', ha', hrest⟩ := Runs.exec_prefix hb
  cases Option.some.inj (ha.symm.trans ha')
  obtain ⟨c, hc, hmid⟩ := Option.bind_eq_some_iff.mp hrest
  obtain ⟨r', hr', rfl⟩ := niceSys_step_eq hc
  cases Option.some.inj (h.symm.trans hr')
  obtain ⟨_, rfl⟩ := Runs.of_guard h
  obtain ⟨later, hlater⟩ := NiceSys.log_grows hmid
  rcases sysNice_cases a.table pid value with he | ⟨pid, v, q, rfl, rfl, hv, hq, he⟩
  · simp [he] at hret
  · have hold : (a.table.proc q).nice = niceOf a.log pid := by
      rw [hia.kept q hq.1 fun x hx => hset x q hx hq.2, hq.2]
    have hlog : b.log = later ++ (pid, v) :: a.log := by
      rw [hlater]
      simp only [NiceSys.record, if_pos hret]
    have hretq : (sysNice a.table (some pid) (some v)).ret = (a.table.proc q).nice := by rw [he]
    refine ⟨pid, v, q, later, rfl, rfl, hq, hretq, hretq.trans hold, hlog, fun hnone hnamed => ?_⟩
    have hunclaimed : ∀ x, b.table.fork x ≠ .claimed q := fun x hx =>
      hib.fresh x q hx (pid, v) (by simp [hlog]) hnamed.2.symm
    rw [hib.kept q hnamed.1 hunclaimed, hnamed.2, hlog]
    exact niceOf_append hnone

/-- init sets the nice value of its child, then its own. -/
theorem nice_not_lost_child :
    ∃ a b r, Runs.exec NiceSys.step NiceSys.boot (.dispatch 0 :: forkSteps 0) = some a ∧
    a.table.step (.nice 0 (some 2) (some 5)) = some r ∧ r.ret = niceOf a.log 2 ∧
    Runs.exec NiceSys.step NiceSys.boot
      (.dispatch 0 :: forkSteps 0 ++ [.nice 0 (some 2) (some 5), .nice 0 (some 1) (some 2)]) = some b ∧
    ∃ later, b.log = later ++ (2, 5) :: a.log := by
  have hrun : ((Runs.exec NiceSys.step NiceSys.boot (.dispatch 0 :: forkSteps 0)).bind fun a =>
      a.table.step (.nice 0 (some 2) (some 5))).map Reply.ret = some 3 := by decide +kernel
  have hlast : (Runs.exec NiceSys.step NiceSys.boot
      (.dispatch 0 :: forkSteps 0 ++ [.nice 0 (some 2) (some 5),
        .nice 0 (some 1) (some 2)])).isSome = true := by
    decide +kernel
  obtain ⟨r, hr, hret⟩ := Option.map_eq_some_iff.mp hrun
  obtain ⟨a, ha, hr⟩ := Option.bind_eq_some_iff.mp hr
  obtain ⟨b, hb⟩ := Option.isSome_iff_exists.mp hlast
  have hmeets : Runs.Meets NiceSys.step NiceSys.Settled NiceSys.boot
      (.dispatch 0 :: forkSteps 0 ++ [.nice 0 (some 2) (some 5), .nice 0 (some 1) (some 2)]) :=
    Runs.meets_of_check (by decide +kernel)
  have hsplit : .dispatch 0 :: forkSteps 0 ++
    [.nice 0 (some 2) (some 5), .nice 0 (some 1) (some 2)] =
      .dispatch 0 :: forkSteps 0 ++ .nice 0 (some 2) (some 5) :: ([.nice 0 (some 1) (some 2)] ++ []) := rfl
  obtain ⟨pid, v, q, later, hpid, hv, _, _, hold, hlog, _⟩ :=
    nice_not_lost hmeets hsplit ha hr (by rw [hret]; decide) hb
  cases hpid
  cases hv
  exact ⟨a, b, r, ha, hr, hold, hb, later, hlog⟩

/-- A nice call comes between the two halves of allocproc: it returns what the entry held before,
and the value it sets is gone after the next step of the fork. -/
theorem nice_lost_in_allocproc :
    ((Runs.exec NiceSys.step NiceSys.boot (.dispatch 0 :: forkSteps 0 ++ [.dispatch 1,
      .forkClaim 0])).bind fun a =>
      (a.table.step (.nice 1 (some 3) (some 5))).map fun r => (r.ret, niceOf a.log 3)) = some (0, 3) ∧
    (Runs.exec NiceSys.step NiceSys.boot
      (.dispatch 0 :: forkSteps 0 ++ [.dispatch 1, .forkClaim 0, .nice 1 (some 3) (some 5), .forkInit 0])).map
        (fun b => (b.log, (b.table.proc 2).pid, (b.table.proc 2).nice)) = some ([(3, 5)], 3, 3) := by
  decide +kernel

end Xv6
