import Xv6.FileRefs
import Xv6.Runs

namespace Xv6

open Bytes

variable {k : Kernel} {pages : List Page} {T : Slot → Task} {p : Slot} {fd : Fd} {ip : InodeSlot}

/-- Between calls. -/
def Kernel.Rest (k : Kernel) (pages : List Page) : Prop :=
  k.Counted pages k.task (fun _ => 0) (fun _ => 0) (fun _ => false) 0 []

theorem Kernel.Counted.rest (h : k.Counted pages T (fun _ => 0) (fun _ => 0) (fun _ => false) 0 [])
    (htask : k.task = T) : k.Rest pages := by
  rw [Kernel.Rest, htask]
  exact h

theorem fdalloc_spec (k : Kernel) (p : Slot) (f : FileSlot) :
    (fdalloc p f).wp (fun r t => match r with
      | none => t = k
      | some fd => (k.task p).ofile fd = none ∧ t = { k with task := withFd k.task p fd (some f) })
      (fun _ _ => True) k := by
  simp only [fdalloc, Prog.wp_bind, Prog.wp_get]
  split
  next fd hfind =>
    have hnone : (k.task p).ofile fd = none := by simpa using List.find?_some hfind
    exact ⟨hnone, rfl⟩
  next => rfl

theorem sysDup_rest {arg : Option Int} (h : k.Rest pages) (hlive : (k.task p).live = true) :
    (sysDup p arg).wp (fun _ t => t.Rest pages) (fun _ _ => True) k := by
  simp only [sysDup, Prog.wp_bind, Prog.wp_get]
  split
  next => exact h
  next fd0 f harg =>
    simp only [Prog.wp_bind]
    refine Prog.wp_imp (fdalloc_spec k p f) fun r t ht => ?_
    cases r with
    | none =>
      subst ht
      exact h
    | some fd =>
      obtain ⟨hfd, rfl⟩ := ht
      simp only [Prog.wp_bind]
      refine Prog.wp_imp (filedup_counted (f := f) (h.setTask _)) fun _ t hpost => ?_
      obtain ⟨htask, ht⟩ := hpost
      have hdone := ht.addFd p fd hlive hfd
      exact hdone.rest htask

theorem Task.argfd_spec {t : Task} {arg : Option Int} {r : Fd × FileSlot}
    (h : t.argfd arg = some r) :
    t.ofile r.1 = some r.2 := by
  cases arg with
  | none => simp [Task.argfd] at h
  | some m =>
    simp only [Task.argfd] at h
    split at h
    next hm =>
      obtain ⟨f, hf, rfl⟩ := Option.map_eq_some_iff.1 h
      exact hf
    next => simp at h

theorem sysClose_rest {arg : Option Int} (h : k.Rest pages) :
    (sysClose p arg).wp (fun _ t => t.Rest pages) (fun _ _ => True) k := by
  simp only [sysClose, Prog.wp_bind, Prog.wp_get]
  split
  next => exact h
  next fd f harg =>
    have hfd := Task.argfd_spec harg
    have hdrop := (Kernel.Counted.dropFd h hfd).setTask (withFd k.task p fd none)
    simp only [setFd, Prog.wp_bind, Prog.wp_get, Xv6.setTask, Prog.wp_modify]
    refine Prog.wp_imp (fileclose_counted hdrop) fun _ t hpost => ?_
    obtain ⟨htask, ht⟩ := hpost
    exact ht.rest htask

theorem cwd_pos {m : Nat} {file : FileSlot → File} {cwd : InodeSlot} (hcwd : (T p).cwd = some cwd) :
    0 < fileCount file cwd + cwdCount T cwd + m := by
  have hpos : 0 < cwdCount T cwd := Counts.count_pos (f := T) (c := fun t => t.cwd = some cwd) hcwd
  omega

theorem sysFs_rest {x : FsM Bool} {cwd : InodeSlot} (h : k.Rest pages)
    (hcwd : (k.task p).cwd = some cwd)
    (hx : ∀ R, k.fs.Refs R (fun _ => false) → 0 < R cwd →
      x.wp (fun _ t => t.Refs R fun _ => false) (fun _ _ => True) k.fs) :
    (sysFs x).wp (fun _ t => t.Rest pages) (fun _ _ => True) k := by
  simp only [sysFs, beginOp, endOp, Prog.wp_bind, Prog.wp_modify, inFs, Prog.wp_zoom]
  refine Prog.wp_imp (hx _ (Kernel.Counted.fs h) (cwd_pos hcwd)) fun b s hs => ?_
  rw [Prog.wp_pure]
  exact Kernel.Counted.setFs h hs

theorem openFail_rest (htask : k.task = T)
    (h : k.Counted pages T (fun _ => 0) (plus (fun _ => 0) ip) (lockAt (fun _ => false) ip) 1 []) :
    (inFs (iunlockput ip)).wp (fun _ t => endOp.wp (fun _ t => t.Rest pages) (fun _ _ => True) t)
      (fun _ _ => True) k := by
  have hfs := h.fs
  rw [← plus_add] at hfs
  simp only [endOp, Prog.wp_modify, inFs, Prog.wp_zoom]
  refine Prog.wp_imp (iunlockput_refs hfs rfl) fun _ s hs => ?_
  have hout : k.outstanding - 1 = 0 := by rw [h.outstanding]
  rw [hout]
  exact ((h.setFs hs).setOutstanding 0).rest htask

theorem openFile_rest {omode : BitVec 32} (hlive : (k.task p).live = true)
    (h : k.Counted pages k.task (fun _ => 0) (plus (fun _ => 0) ip)
      (lockAt (fun _ => false) ip) 1 []) :
    (openFile p ip omode).wp (fun _ t => t.Rest pages) (fun _ _ => True) k := by
  simp only [openFile, Prog.wp_bind]
  refine Prog.wp_imp (filealloc_counted h) fun r t ht => ?_
  cases r with
  | none =>
    subst ht
    simp only [Prog.wp_bind]
    exact openFail_rest rfl h
  | some f =>
    obtain ⟨htask, ht, hnone, hone, -, -⟩ := ht
    simp only [Prog.wp_bind]
    refine Prog.wp_imp (fdalloc_spec t p f) fun r t' ht' => ?_
    cases r with
    | none =>
      subst ht'
      simp only [Prog.wp_bind]
      refine Prog.wp_imp (fileclose_fresh ht hone hnone) fun _ t' hpost => ?_
      obtain ⟨htask', ht', _⟩ := hpost
      exact openFail_rest (htask'.trans htask) (by simpa using ht')
    | some fd =>
      obtain ⟨hfd, rfl⟩ := ht'
      rw [htask] at hfd
      have hopen := (ht.addFd p fd hlive hfd).setTask (withFd k.task p fd (some f))
      simp only [endOp, Prog.wp_bind, Prog.wp_modify, inFs, Prog.wp_zoom, Prog.wp_get, setFile, Prog.wp_pure]
      refine Prog.wp_imp (iunlock_refs hopen.fs rfl) fun _ s hs => ?_
      have hinode := ((hopen.setFs hs).setOutstanding 0).openInode (f := f)
        (v := { t.file f with
          type := .inode ip
          off := 0
          readable := omode &&& oWronly = 0
          writable := omode &&& oWronly ≠ 0 ∨ omode &&& oRdwr ≠ 0 }) hnone (by simp [hone]) rfl rfl
      have hout : t.outstanding - 1 = 0 := by rw [ht.outstanding]
      rw [hout, htask]
      exact Kernel.Counted.rest (by simpa using hinode) rfl

theorem sysOpen_rest {cwd : InodeSlot} {path : Option (List Byte)} {omode : Option (BitVec 32)}
    (h : k.Rest pages) (hlive : (k.task p).live = true) (hcwd : (k.task p).cwd = some cwd) :
    (sysOpen p cwd path omode).wp (fun _ t => t.Rest pages) (fun _ _ => True) k := by
  cases path with
  | none => exact h
  | some path =>
    cases omode with
    | none => exact h
    | some omode =>
      simp only [sysOpen, beginOp, Prog.wp_bind, Prog.wp_modify, inFs, Prog.wp_zoom]
      have hfs := Kernel.Counted.fs h
      have hopen : (if omode &&& oCreate ≠ 0 then create cwd path tFile 0 0
          else openExisting cwd path (omode = 0)).wp (Fs.Opened _ fun _ => false) (fun _ _ => True) k.fs :=
        Prog.wp_ite (fun _ => create_refs hfs (cwd_pos hcwd)) fun _ => openExisting_refs hfs (cwd_pos hcwd)
      refine Prog.wp_imp hopen fun r s hs => ?_
      cases r with
      | none => exact Kernel.Counted.setFs h hs
      | some ip =>
        obtain ⟨-, hs⟩ := hs
        rw [plus_add] at hs
        refine openFile_rest hlive ?_
        have hdone := (Kernel.Counted.setFs h hs).setOutstanding (k.outstanding + 1)
        rw [Kernel.Counted.outstanding h] at hdone ⊢
        exact hdone

theorem sysExec_rest {cwd : InodeSlot} {path : Option (List Byte)} {mem : ExecMemory}
    (h : k.Rest pages) (hcwd : (k.task p).cwd = some cwd) :
    (sysExec cwd path mem).wp (fun _ t => t.Rest pages) (fun _ _ => True) k := by
  cases path with
  | none => exact h
  | some path =>
    simp only [sysExec, beginOp, endOp, Prog.wp_bind, Prog.wp_modify, inFs, Prog.wp_zoom]
    refine Prog.wp_imp (execFile_refs (Kernel.Counted.fs h) (cwd_pos hcwd)) fun b s hs => ?_
    rw [Prog.wp_pure]
    exact Kernel.Counted.setFs h hs

theorem sysChdir_rest {cwd : InodeSlot} {path : Option (List Byte)} (h : k.Rest pages)
    (hlive : (k.task p).live = true) (hcwd : (k.task p).cwd = some cwd) :
    (sysChdir p cwd path).wp (fun _ t => t.Rest pages) (fun _ _ => True) k := by
  cases path with
  | none => exact sysFs_rest h hcwd fun R hs _ => hs
  | some path =>
    simp only [sysChdir, beginOp, Prog.wp_bind, Prog.wp_modify, inFs, Prog.wp_zoom]
    refine Prog.wp_imp (chdirTarget_refs (Kernel.Counted.fs h) (cwd_pos hcwd)) fun r s hs => ?_
    cases r with
    | none => exact Kernel.Counted.setFs h hs
    | some ip =>
      simp only [plusOpt, plus_add] at hs
      have hmove := (Kernel.Counted.setFs h hs).setCwd (p := p) (v := { k.task p with cwd := some ip })
        (Q := plus (fun _ => 0) cwd) rfl (fun hdead => absurd (hlive.symm.trans hdead) (by simp)) fun jp => by
          simp only [plus_apply, hcwd, Option.some.injEq, eq_comm (a := jp)]
          omega
      have hfs := hmove.fs
      rw [← plus_add] at hfs
      simp only [endOp, Prog.wp_bind, Prog.wp_modify, Prog.wp_zoom, Prog.wp_get, Xv6.setTask, Prog.wp_pure]
      refine Prog.wp_imp (iput_refs hfs) fun _ s hs => ?_
      exact (hmove.setFs hs).setTask _

theorem sysPipe_rest {arg mem : Bool} (h : k.Rest pages) (hlive : (k.task p).live = true) :
    (sysPipe p arg mem).wp (fun _ t => t.Rest pages) (fun _ _ => True) k := by
  have hclose : ∀ {t : Kernel} {T : Slot → Task} {f0 f1 : FileSlot}, t.task = T →
      t.Counted pages T (plus (plus (fun _ => 0) f1) f0) (fun _ => 0) (fun _ => false) 0 [] →
      (fileclose f0).wp (fun _ t => (fileclose f1).wp (fun _ t => t.Rest pages) (fun _ _ => True) t)
        (fun _ _ => True) t := by
    intro t T f0 f1 htask ht
    refine Prog.wp_imp (fileclose_counted ht) fun _ u hpost => ?_
    obtain ⟨hutask, hu⟩ := hpost
    exact Prog.wp_imp (fileclose_counted hu) fun _ w hpost =>
      hpost.2.rest (hpost.1.trans (hutask.trans htask))
  simp only [sysPipe]
  refine Prog.wp_ite (fun _ => h) fun _ => ?_
  simp only [Prog.wp_bind]
  refine Prog.wp_imp (pipealloc_counted h) fun r t hpost => ?_
  obtain ⟨htask, ht⟩ := hpost
  cases r with
  | none => exact ht.rest htask
  | some r =>
    obtain ⟨f0, f1⟩ := r
    simp only [Prog.wp_bind]
    refine Prog.wp_imp (fdalloc_spec t p f0) fun r t' ht' => ?_
    cases r with
    | none =>
      subst ht'
      simp only [Prog.wp_bind]
      exact hclose htask ht
    | some fd0 =>
      obtain ⟨hfd, rfl⟩ := ht'
      rw [htask] at hfd
      have hadd := (ht.addFd p fd0 hlive hfd).setTask (withFd k.task p fd0 (some f0))
      simp only [Prog.wp_bind, htask]
      refine Prog.wp_imp (fdalloc_spec _ p f1) fun r t' ht' => ?_
      cases r with
      | none =>
        subst ht'
        simp only [setFd, Xv6.setTask, Prog.wp_bind, Prog.wp_get, Prog.wp_modify]
        have hback : (withFd k.task p fd0 (some f0) p).ofile fd0 = some f0 := by simp [withFd]
        exact hclose rfl ((hadd.dropFd hback).setTask _)
      | some fd1 =>
        obtain ⟨hfd1, rfl⟩ := ht'
        refine ((hadd.addFd p fd1 ?_ hfd1).setTask _).rest rfl
        simpa [withFd, Task.live] using hlive

theorem forkFd_rest {np : Slot} {t : Task} (h : k.Rest pages) (hp : k.task p = t) (hne : np ≠ p)
    (hlive : (k.task np).live = true) (hfd : (k.task np).ofile fd = none) :
    (forkFd p np fd).wp (fun _ u => u.Rest pages ∧ u.task p = t ∧ (u.task np).live = true ∧
      (u.task np).cwd = (k.task np).cwd ∧ ∀ e, e ≠ fd → (u.task np).ofile e = (k.task np).ofile e)
      (fun _ _ => True) k := by
  simp only [forkFd, Prog.wp_bind, Prog.wp_get]
  split
  next f hf =>
    simp only [Prog.wp_bind]
    refine Prog.wp_imp (filedup_counted (f := f) h) fun _ u hpost => ?_
    obtain ⟨hutask, hu⟩ := hpost
    simp only [setFd, Xv6.setTask, Prog.wp_bind, Prog.wp_get, Prog.wp_modify, hutask]
    refine ⟨((hu.addFd np fd hlive hfd).setTask _).rest rfl, ?_, ?_, ?_, fun e he => ?_⟩
    · simpa [hne.symm] using hp
    · simpa [Task.live] using hlive
    · simp
    · simp [he]
  next => exact ⟨h, hp, hlive, rfl, fun _ _ => rfl⟩

theorem fork_rest {kstack copy : Bool} (h : k.Rest pages) (hlive : (k.task p).live = true) :
    (Xv6.fork p kstack copy).wp (fun _ t => t.Rest pages) (fun _ _ => True) k := by
  simp only [Xv6.fork, Prog.wp_bind, Prog.wp_get]
  split
  next => exact h
  next np hfind =>
    have hunused : (k.task np).state = .unused := by simpa using List.find?_some hfind
    obtain ⟨hnofd, hnocwd⟩ := Kernel.Counted.dead h np (by simp [Task.live, hunused])
    have hne : np ≠ p := by
      rintro rfl
      simp [Task.live, hunused] at hlive
    refine Prog.wp_ite (fun _ => h) fun _ => ?_
    simp only [Xv6.setTask, Prog.wp_bind, Prog.wp_modify]
    have hstart :=
      (Kernel.Counted.setCwd (p := np) (v := { k.task np with state := .embryo, parent := some p })
      (Q := fun _ => 0) h rfl (by simp [Task.live]) fun _ => rfl).setTask
        (Function.update k.task np { k.task np with state := .embryo, parent := some p })
    let I : List Fd → Kernel → Prop :=
      fun done t => t.Rest pages ∧ t.task p = k.task p ∧ (t.task np).live = true ∧
      (t.task np).cwd = none ∧ ∀ fd, fd ∉ done → (t.task np).ofile fd = none
    refine Prog.wp_imp (Prog.wp_forM (l := List.finRange NOFILE) I ?_ fun pre fd post t hl hi => ?_)
      fun _ t hi => ?_
    · exact ⟨hstart.rest rfl, by simp [hne.symm], by simp [Task.live], by simpa using hnocwd,
        fun fd _ => by simpa using hnofd fd⟩
    · obtain ⟨ht, hp, hnp, hcwd, hrest⟩ := hi
      have hnodup := List.nodup_finRange NOFILE
      rw [hl, List.nodup_middle, List.nodup_cons, List.mem_append, not_or] at hnodup
      refine Prog.wp_imp (forkFd_rest ht hp hne hnp (hrest fd hnodup.1.1)) fun _ u hpost => ?_
      obtain ⟨hu, hup, hunp, hucwd, hufd⟩ := hpost
      refine ⟨hu, hup, hunp, hucwd.trans hcwd, fun e he => ?_⟩
      simp only [List.mem_append, List.mem_singleton, not_or] at he
      rw [hufd e he.2]
      exact hrest e he.1
    · obtain ⟨ht, hp, hnp, hcwd, -⟩ := hi
      simp only [Prog.wp_get]
      split
      next cwd hpcwd =>
        simp only [inFs, Prog.wp_bind, Prog.wp_get, Prog.wp_zoom, Prog.wp_modify, Prog.wp_pure]
        refine Prog.wp_imp (idup_refs (Kernel.Counted.fs ht) (cwd_pos hpcwd)) fun ip s hpost => ?_
        obtain ⟨hip, hs⟩ := hpost
        subst hip
        rw [plus_add] at hs
        refine (((Kernel.Counted.setFs ht hs).setCwd (p := np)
          (v := { t.task np with state := .runnable, cwd := some ip }) (Q := fun _ => 0) rfl (by simp [Task.live])
          fun jp => ?_).setTask _).rest rfl
        simp only [hcwd, plus_apply, reduceCtorEq, if_false, Option.some.injEq, eq_comm (a := jp)]
        omega
      next => trivial

theorem exitFd_rest (h : k.Rest pages) :
    (exitFd p fd).wp (fun _ u => u.Rest pages ∧ u.task = withFd k.task p fd none)
      (fun _ _ => True) k := by
  simp only [exitFd, Prog.wp_bind, Prog.wp_get]
  split
  next f hf =>
    simp only [Prog.wp_bind]
    refine Prog.wp_imp (fileclose_counted (Kernel.Counted.dropFd h hf)) fun _ u hpost => ?_
    obtain ⟨hutask, hu⟩ := hpost
    simp only [setFd, Xv6.setTask, Prog.wp_bind, Prog.wp_get, Prog.wp_modify, hutask]
    exact ⟨(hu.setTask _).rest rfl, rfl⟩
  next hf =>
    refine ⟨h, ?_⟩
    rw [withFd, ← hf, Function.update_eq_self, Function.update_eq_self]

theorem exit_rest {cwd : InodeSlot} (h : k.Rest pages) (hcwd : (k.task p).cwd = some cwd) :
    (Xv6.exit p cwd).wp (fun _ t => t.Rest pages) (fun _ _ => True) k := by
  simp only [Xv6.exit]
  refine Prog.wp_ite (fun _ => trivial) fun _ => ?_
  simp only [Prog.wp_bind]
  let I : List Fd → Kernel → Prop := fun done t => t.Rest pages ∧ (t.task p).cwd = some cwd ∧
    ∀ fd ∈ done, (t.task p).ofile fd = none
  refine Prog.wp_imp (Prog.wp_forM (l := List.finRange NOFILE) I ⟨h, hcwd,
    by simp⟩ fun pre fd post t _ hi => ?_)
    fun _ t hi => ?_
  · obtain ⟨ht, htcwd, hdone⟩ := hi
    refine Prog.wp_imp (exitFd_rest ht) fun _ u hpost => ?_
    obtain ⟨hu, hutask⟩ := hpost
    refine ⟨hu, ?_, fun e he => ?_⟩
    · simpa [hutask, withFd] using htcwd
    · by_cases hefd : e = fd
      · simp [hutask, withFd, hefd]
      · have hpre : e ∈ pre := by simpa [hefd] using he
        simpa [hutask, withFd, hefd] using hdone e hpre
  · obtain ⟨ht, htcwd, hdone⟩ := hi
    have hnofd : ∀ fd, (t.task p).ofile fd = none := fun fd => hdone fd (List.mem_finRange fd)
    have hdead := Kernel.Counted.setCwd (p := p)
      (v := { t.task p with cwd := none, state := .zombie })
      (Q := plus (fun _ => 0) cwd) ht rfl (fun _ => ⟨hnofd, rfl⟩) fun jp => by
        simp only [htcwd, plus_apply, reduceCtorEq, if_false, Option.some.injEq, eq_comm (a := jp)]
        omega
    have hfs := hdead.fs
    rw [← plus_add] at hfs
    simp only [beginOp, endOp, inFs, Prog.wp_modify, Prog.wp_zoom, Prog.wp_pure]
    refine Prog.wp_imp (iput_refs hfs) fun _ s hs => ?_
    refine Kernel.Counted.rest (((hdead.setFs hs).setTask _).congr (fun q => ?_) (fun q => ?_) fun q => ?_) rfl
    all_goals
      by_cases hq : q = p
      · simp [hq]
      · simp only [hq, if_false, Function.update_of_ne hq]
        split <;> rfl

theorem wait_rest (h : k.Rest pages) :
    (Xv6.wait p).wp (fun _ t => t.Rest pages) (fun _ _ => True) k := by
  simp only [Xv6.wait, Prog.wp_bind, Prog.wp_get]
  split
  next q hfind =>
    have hq : (k.task q).parent = some p ∧ (k.task q).state = .zombie := by simpa using List.find?_some hfind
    obtain ⟨hnofd, hnocwd⟩ := Kernel.Counted.dead h q (by simp [Task.live, hq.2])
    exact ((Kernel.Counted.setCwd (p := q) (v := { k.task q with parent := none, killed := false, state := .unused })
      (Q := fun _ => 0) h rfl (fun _ => ⟨hnofd, hnocwd⟩) fun _ => rfl).setTask _).rest rfl
  next => exact Prog.wp_ite (fun _ => h) fun _ => trivial

theorem Call.run_rest {c : Call} {cwd : InodeSlot} (h : k.Rest pages)
    (hlive : (k.task p).live = true) (hcwd : (k.task p).cwd = some cwd) :
    (c.run p cwd).wp (fun _ t => t.Rest pages) (fun _ _ => True) k := by
  cases c with
  | «open» path omode => exact sysOpen_rest h hlive hcwd
  | dup fd => exact sysDup_rest h hlive
  | close fd => exact sysClose_rest h
  | pipe arg mem => exact sysPipe_rest h hlive
  | fork kstack copy => exact fork_rest h hlive
  | exec path mem => exact sysExec_rest h hcwd
  | chdir path => exact sysChdir_rest h hlive hcwd
  | link old new =>
    cases old with
    | none => exact h
    | some old =>
      cases new with
      | none => exact h
      | some new => exact sysFs_rest h hcwd fun R hs hpos => link_refs hs hpos
  | unlink path =>
    cases path with
    | none => exact h
    | some path => exact sysFs_rest h hcwd fun R hs hpos => unlink_refs hs hpos
  | mkdir path =>
    cases path with
    | none => exact sysFs_rest h hcwd fun R hs _ => hs
    | some path => exact sysFs_rest h hcwd fun R hs hpos => makeNode_refs hs hpos
  | mknod path major minor =>
    simp only [Call.run, sysMknod]
    split
    · exact sysFs_rest h hcwd fun R hs hpos => makeNode_refs hs hpos
    · exact sysFs_rest h hcwd fun R hs _ => hs
  | exit => exact exit_rest h hcwd
  | wait => exact wait_rest h

theorem Kernel.Rest.step {k' : Kernel} {e : Slot × Call} (h : k.Rest pages)
    (hstep : k.step e = some k') :
    k'.Rest pages := by
  simp only [Kernel.step] at hstep
  split at hstep
  next cwd hlive hcwd =>
    have hrun := Call.run_rest (c := e.2) h hlive hcwd
    split at hstep
    next r t heq =>
      rw [Prog.wp_ok heq] at hrun
      cases hstep
      exact hrun
    next => simp at hstep
  next => simp at hstep

/-- The descriptors of live processes that point to the file. -/
def Kernel.descriptors (k : Kernel) (f : FileSlot) : Nat :=
  Counts.count (fun q : Slot × Fd => (k.task q.1, q.2)) fun r => r.1.live = true ∧
    r.1.ofile r.2 = some f

/-- The files in use that stand for the inode. -/
def Kernel.inodeFiles (k : Kernel) (ip : InodeSlot) : Nat :=
  Counts.count k.file fun v => 0 < v.ref ∧ v.type = .inode ip

/-- The live processes whose current directory is the inode. -/
def Kernel.directories (k : Kernel) (ip : InodeSlot) : Nat :=
  Counts.count k.task fun t => t.live = true ∧ t.cwd = some ip

/-- A file in use is the read end or the write end of the pipe. -/
def Kernel.EndOpen (k : Kernel) (page : Page) (writable : Bool) : Prop :=
  ∃ f, 0 < (k.file f).ref ∧ (k.file f).type = .pipe page ∧ (k.file f).writable = writable

/-- No reference is missing and none is left over. -/
structure Kernel.Exact (k : Kernel) (pages : List Page) : Prop where
  file : ∀ f, (k.file f).ref = k.descriptors f
  free : ∀ f, (k.file f).ref = 0 ↔ (k.file f).type = .none
  inode : ∀ ip, (k.fs.inode ip).ref = k.inodeFiles ip + k.directories ip
  unique : ∀ ip jp, 0 < (k.fs.inode ip).ref → 0 < (k.fs.inode jp).ref →
    (k.fs.inode ip).inum = (k.fs.inode jp).inum → ip = jp
  unlocked : ∀ ip, (k.fs.inode ip).locked = false
  outstanding : k.outstanding = 0
  ends : ∀ page v, k.pipe page = some v →
    (v.readopen = true ↔ k.EndOpen page false) ∧ (v.writeopen = true ↔ k.EndOpen page true)
  allocated : ∀ page ∈ pages, page ∉ k.freelist ↔ k.EndOpen page false ∨ k.EndOpen page true
  nodup : k.freelist.Nodup

theorem Kernel.Rest.fdCount_eq (h : k.Rest pages) (f : FileSlot) :
    fdCount k.task f = k.descriptors f := by
  refine Counts.count_congr fun q => ⟨fun hq => ⟨?_, hq⟩, fun hq => hq.2⟩
  by_contra hdead
  simp [(Kernel.Counted.dead h q.1 (by simpa using hdead)).1] at hq

theorem Kernel.Rest.cwdCount_eq (h : k.Rest pages) (ip : InodeSlot) :
    cwdCount k.task ip = k.directories ip := by
  refine Counts.count_congr fun q => ⟨fun hq => ⟨?_, hq⟩, fun hq => hq.2⟩
  by_contra hdead
  simp [(Kernel.Counted.dead h q (by simpa using hdead)).2] at hq

theorem Kernel.Rest.ref_pos {f : FileSlot} (h : k.Rest pages) (htype : (k.file f).type ≠ .none) :
    0 < (k.file f).ref :=
  Nat.pos_of_ne_zero fun hzero => htype (Kernel.Counted.free h f hzero)

theorem Kernel.Rest.fileCount_eq (h : k.Rest pages) (ip : InodeSlot) :
    fileCount k.file ip = k.inodeFiles ip :=
  Counts.count_congr fun f => ⟨fun hf => ⟨h.ref_pos (by simp [hf]), hf⟩, fun hf => hf.2⟩

theorem Kernel.Rest.exact (h : k.Rest pages) : k.Exact pages := by
  have hpipes := Kernel.Counted.pipes h
  have hfs := Kernel.Counted.fs h
  have hend : ∀ {page v w}, k.pipe page = some v → (v.isOpen w = true ↔ k.EndOpen page w) := by
    intro page v w hv
    refine ⟨fun ho => ?_, fun ⟨f, _, htype, hw⟩ => ?_⟩
    · obtain ⟨f, htype, hw⟩ := hpipes.holder page v w hv ho
      exact ⟨f, h.ref_pos (by simp [htype]), htype, hw⟩
    · obtain ⟨u, hu, ho⟩ := hpipes.file f page htype
      cases Option.some.inj (hu.symm.trans hv)
      rw [← hw]
      exact ho
  refine
    { file := fun f => ?_
      free := fun f => ⟨Kernel.Counted.free h f, fun hnone => ?_⟩
      inode := fun ip => ?_
      unique := fun ip jp hip hjp he => ?_
      unlocked := hfs.locked
      outstanding := Kernel.Counted.outstanding h
      ends := fun page v hv => ⟨hend (w := false) hv, hend (w := true) hv⟩
      allocated := fun page hpage => ⟨fun hused => ?_, ?_⟩
      nodup := hpipes.nodup }
  · rw [Kernel.Counted.ref h f, h.fdCount_eq, Nat.add_zero]
  · by_contra hpos
    exact absurd (Kernel.Counted.typed h f hnone (Nat.pos_of_ne_zero hpos)) (by simp)
  · rw [hfs.ref ip, h.fileCount_eq, h.cwdCount_eq, Nat.add_zero]
  · rw [hfs.ref] at hip hjp
    exact hfs.unique ip jp hip hjp he
  · obtain ⟨v, hv⟩ := Option.isSome_iff_exists.1 (((hpipes.pages page).1 hpage).resolve_left hused)
    exact (hpipes.used page v hv).imp (hend (w := false) hv).1 (hend (w := true) hv).1
  · rintro (⟨f, -, htype, -⟩ | ⟨f, -, htype, -⟩) hmem
    all_goals
      obtain ⟨v, hv, -⟩ := hpipes.file f page htype
      simp [hpipes.apart page hmem] at hv

/-- After userinit there is one process, in the root directory, and nothing is open. -/
def bootTask (p : Slot) : Task where
  state := if p = initproc then .runnable else .unused
  parent := none
  killed := false
  ofile _ := none
  cwd := if p = initproc then some 0 else none

/-- The kernel after userinit, with any disk and with the pages that kalloc has. -/
def Kernel.boot (s : Fs) (pages : List Page) : Kernel where
  fs := { s with inode := fun ip => { s.inode ip with
    inum := if ip = 0 then ROOTINO else 0
    ref := if ip = 0 then 1 else 0
    locked := false
    valid := false } }
  file _ := ⟨.none, 0, false, false, 0⟩
  task := bootTask
  pipe _ := none
  freelist := pages
  outstanding := 0

theorem Kernel.boot_rest {s : Fs} (hnodup : pages.Nodup) : (Kernel.boot s pages).Rest pages := by
  have hfile : ∀ ip, fileCount (Kernel.boot s pages).file ip = 0 := by
    intro ip
    exact Counts.count_eq_zero.2 (by simp [Kernel.boot])
  have hfd : ∀ f, fdCount bootTask f = 0 := fun f => Counts.count_eq_zero.2 (by simp [bootTask])
  have hcwd : ∀ ip, cwdCount bootTask ip = if ip = 0 then 1 else 0 := by decide +kernel
  refine
    { fs := ⟨fun ip => ?_, fun _ => rfl, fun ip jp hip hjp _ => ?_⟩
      ref := fun f => ?_
      free := fun _ _ => rfl
      typed := fun _ _ hpos => by simp [Kernel.boot] at hpos
      dead := fun p hp => ⟨fun _ => rfl, ?_⟩
      pipes :=
        { file := by simp [Kernel.boot]
          unique := by simp [Kernel.boot]
          holder := by simp [Kernel.boot]
          used := by simp [Kernel.boot]
          nodup := hnodup
          pages := by simp [Kernel.boot]
          apart := by simp [Kernel.boot] }
      outstanding := rfl }
  · rw [hfile, show (Kernel.boot s pages).task = bootTask from rfl, hcwd]
    simp [Kernel.boot]
  · rw [hfile, show (Kernel.boot s pages).task = bootTask from rfl, hcwd] at hip hjp
    simp only [Nat.zero_add, Nat.add_zero] at hip hjp
    split at hip
    next h0 =>
      split at hjp
      next h1 => exact h0.trans h1.symm
      next => simp at hjp
    next => simp at hip
  · rw [show (Kernel.boot s pages).task = bootTask from rfl, hfd]
    rfl
  · by_cases hinit : p = initproc
    · simp [Kernel.boot, bootTask, Task.live, hinit] at hp
    · simp [Kernel.boot, bootTask, hinit]

/-- Whatever calls the processes make, and however each of them ends, the counts are exact after it.
-/
theorem reference_counts_exact {s : Fs} {t : Kernel} {calls : List (Slot × Call)}
    (hnodup : pages.Nodup)
    (h : Runs.exec Kernel.step (Kernel.boot s pages) calls = some t) : t.Exact pages :=
  (Runs.invariant (I := fun k : Kernel => k.Rest pages) (Kernel.boot_rest hnodup)
    (fun _ _ _ hk hstep => hk.step hstep) h).exact

/-- A child opens a pipe, doubles and closes ends of it, and leaves the rest to exit. -/
def pipeCalls : List (Slot × Call) :=
  [(0, .fork true true), (1, .pipe true true), (1, .dup (some 0)), (1, .close (some 1)),
    (1, .pipe true true), (1, .exit), (0, .wait)]

def emptyFs : Fs :=
  ⟨fun _ _ => 0, ⟨0, 0, 0, 0, 0, 0, 0⟩,
    fun _ => ⟨0, 0, false, false, ⟨0, 0, 0, 0, 0, fun _ => 0⟩⟩, []⟩

theorem reference_counts_exact_pipe :
    ∃ t, Runs.exec Kernel.step (Kernel.boot emptyFs [7]) pipeCalls = some t ∧ t.Exact [7] := by
  have hrun : (Runs.exec Kernel.step (Kernel.boot emptyFs [7]) pipeCalls).isSome = true := by
    decide +kernel
  obtain ⟨t, ht⟩ := Option.isSome_iff_exists.1 hrun
  exact ⟨t, ht, reference_counts_exact (by decide) ht⟩

end Xv6
