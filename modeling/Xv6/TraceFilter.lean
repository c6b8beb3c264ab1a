import Xv6.Runs
import Xv6.Syscall

namespace Xv6

/-- Exit and a successful exec have no return value and count as successes. -/
def TraceEntry.succeeded (r : TraceEntry) : Bool :=
  match r.ret with
  | none => true
  | some v => 0 ≤ v

/-- What a filter lets through: one call when eFlag names it, successes, failures or both. -/
def TraceFilter.Accepts (f : TraceFilter) (r : TraceEntry) : Prop :=
  (f.eFlag = -1 ∨ r.num = f.eFlag + 1) ∧
    (f.sFlag = 0 ∧ f.fFlag = 0 ∨ f.sFlag = 1 ∧ r.succeeded ∨ f.fFlag = 1 ∧ ¬ r.succeeded)

instance (f : TraceFilter) (r : TraceEntry) : Decidable (f.Accepts r) :=
  inferInstanceAs (Decidable (_ ∧ _))

/-- The values that the option lines of the shell give to the flags; the index 21 of trace apart,
they stand for calls that have the same number in the kernel. -/
structure TraceFilter.FromShell (f : TraceFilter) : Prop where
  e : -1 ≤ f.eFlag ∧ f.eFlag ≤ 20
  s : f.sFlag = 0 ∨ f.sFlag = 1
  f : f.fFlag = 0 ∨ f.fFlag = 1

/-- The kernel has a name for the call. -/
def HasName (num : Int) : Prop := (syscallnames.lookup num).isSome

instance (num : Int) : Decidable (HasName num) := inferInstanceAs (Decidable (_ = true))

section Printing

variable {mem : Int → Text} {f : TraceFilter} {r : TraceEntry}

theorem eq_of_compare {s t : Text} (h : compare s t = true) : s = t := by
  induction s generalizing t with
  | nil =>
    cases t with
    | nil => rfl
    | cons b t => simp [compare] at h
  | cons a s ih =>
    cases t with
    | nil => simp [compare] at h
    | cons b t =>
      simp only [compare, Bool.and_eq_true, decide_eq_true_eq] at h
      rw [h.1, ih h.2]

theorem num_of_compare {m n : Int} (hm : HasName m) (hn : HasName n)
    (h : compare (nameAt mem m) (nameAt mem n) = true) : n = m := by
  have htable : ∀ a ∈ syscallnames, ∀ b ∈ syscallnames, a.2 = b.2 → b.1 = a.1 := by decide
  have hmem : ∀ {k : Int} {name : String}, syscallnames.lookup k = some name →
      (k, name) ∈ syscallnames := by
    intro k name hl
    obtain ⟨l1, l2, hsplit, _⟩ := List.lookup_eq_some_iff.mp hl
    rw [hsplit]
    simp
  obtain ⟨a, ha⟩ := Option.isSome_iff_exists.mp hm
  obtain ⟨b, hb⟩ := Option.isSome_iff_exists.mp hn
  have heq := eq_of_compare h
  simp only [nameAt, ha, hb] at heq
  exact htable _ (hmem ha) _ (hmem hb) (String.toList_inj.mp heq)

theorem TraceFilter.FromShell.hasName (hf : f.FromShell) (he : f.eFlag ≠ -1) :
    HasName (f.eFlag + 1) := by
  have htable : ∀ n : Fin 21, HasName (n.val + 1 : Nat) := by decide
  have hlow := hf.e.1
  have hhigh := hf.e.2
  have hn := htable ⟨f.eFlag.toNat, by omega⟩
  have hcast : ((f.eFlag.toNat + 1 : Nat) : Int) = f.eFlag + 1 := by omega
  rwa [hcast] at hn

theorem TraceFilter.FromShell.num_eq (hf : f.FromShell) (he : f.eFlag ≠ -1)
    (hn : f.eFlag ≠ -1 → HasName r.num)
    (h : compare (nameAt mem (f.eFlag + 1)) (nameAt mem r.num) = true) : r.num = f.eFlag + 1 :=
  num_of_compare (hf.hasName he) (hn he) h

theorem printExit_accepts (hf : f.FromShell) (hn : f.eFlag ≠ -1 → HasName r.num)
    (hr : r.ret = none) :
    ∀ x ∈ printExit mem f r, f.Accepts x := by
  have hs := hf.s
  have hok : r.succeeded = true := by simp [TraceEntry.succeeded, hr]
  intro x hx
  unfold printExit at hx
  split at hx
  next hd =>
    cases List.mem_singleton.mp hx
    exact ⟨.inl hd.1, .inl hd.2⟩
  next hd =>
    split at hx
    next he =>
      split at hx
      next hc =>
        split at hx
        next hz =>
          cases List.mem_singleton.mp hx
          exact ⟨.inr (hf.num_eq he hn hc), hs.imp (fun h0 => ⟨h0, hz⟩) (fun h1 => .inl ⟨h1, hok⟩)⟩
        next => simp at hx
      next => simp at hx
    next he =>
      split at hx
      next hz =>
        cases List.mem_singleton.mp hx
        exact ⟨.inl (not_not.mp he), hs.imp (fun h0 => ⟨h0, hz⟩) (fun h1 => .inl ⟨h1, hok⟩)⟩
      next => simp at hx

theorem printExec_accepts (hf : f.FromShell) (hn : f.eFlag ≠ -1 → HasName r.num)
    (hr : r.ret = none) :
    ∀ x ∈ printExec mem f r, f.Accepts x := by
  have hs := hf.s
  have hok : r.succeeded = true := by simp [TraceEntry.succeeded, hr]
  intro x hx
  unfold printExec at hx
  dsimp only at hx
  split at hx
  next hd => exact ⟨.inl hd.1, .inl hd.2⟩
  next hd =>
    split at hx
    next he =>
      split at hx
      next hc =>
        split at hx
        next hz =>
          cases List.mem_singleton.mp hx
          exact ⟨.inr (hf.num_eq he hn hc), hs.imp (fun h0 => ⟨h0, hz⟩) (fun h1 => .inl ⟨h1, hok⟩)⟩
        next => simp at hx
      next => simp at hx
    next he =>
      split at hx
      next h1 =>
        have hx' : x.succeeded = true := by
          rcases List.mem_cons.mp hx with rfl | hx
          · rfl
          · cases List.mem_singleton.mp hx
            exact hok
        exact ⟨.inl (not_not.mp he), .inr (.inl ⟨h1, hx'⟩)⟩
      next => simp at hx

theorem printReturn_accepts {v : Int} (hf : f.FromShell) (hn : f.eFlag ≠ -1 → HasName r.num)
    (hr : r.ret = some v) :
    ∀ x ∈ printReturn mem f r v, f.Accepts x := by
  have hs := hf.s
  have hff := hf.f
  have hok : r.succeeded = decide (0 ≤ v) := by simp [TraceEntry.succeeded, hr]
  intro x hx
  have hxr : x = r := by
    unfold printReturn at hx
    grind
  subst hxr
  unfold printReturn at hx
  unfold TraceFilter.Accepts
  rw [hok]
  split at hx
  next hd => exact ⟨.inl hd.1, .inl hd.2⟩
  next hd =>
    split at hx
    next he =>
      split at hx
      next hc =>
        refine ⟨.inr (hf.num_eq he hn hc), ?_⟩
        grind
      next => simp at hx
    next he =>
      refine ⟨.inl (not_not.mp he), ?_⟩
      grind

end Printing

/-- The tree of processes of a command, the lines printed for them and whether one of them has made
the exit call while traced. -/
structure TreeRun where
  sys : TraceSys
  tree : Slot → Bool
  lines : List TraceEntry
  exited : Bool

/-- The command's first process, with a filter set. -/
def TreeRun.start (proc : Slot → Option TraceProc) (root : Slot) (f : TraceFilter) : TreeRun :=
  { sys := { TraceSys.start proc with filter := f }
    tree := fun p => p = root
    lines := []
    exited := false }

def SyscallEvent.actor : SyscallEvent → Slot
  | .enter p _ => p
  | .leave p _ _ => p
  | .die p => p

/-- A child of a process of the tree is in it, and a process that has terminated is not. -/
def TreeRun.grow (r : TreeRun) : SyscallEvent → Slot → Bool
  | .enter p num => if num = sysExitNum then Function.update r.tree p false else r.tree
  | .leave p _ (.fork np) => if r.tree p then Function.update r.tree np true else r.tree
  | .leave _ _ _ => r.tree
  | .die p => Function.update r.tree p false

/-- The exit call of a traced process. -/
def TraceSys.tracedExit (s : TraceSys) : SyscallEvent → Bool
  | .enter p num => num = sysExitNum && (s.proc p).any TraceProc.traced
  | _ => false

def TreeRun.step (mem : Int → Text) (r : TreeRun) (e : SyscallEvent) : Option TreeRun :=
  (r.sys.step mem e).map fun t =>
    { sys := t
      tree := r.grow e
      lines := if r.tree e.actor then r.lines ++ t.console.drop r.sys.console.length else r.lines
      exited := r.exited || (r.tree e.actor && r.sys.tracedExit e) }

def SyscallEffect.setsFilter : SyscallEffect → Bool
  | .eflag _ | .sflag _ | .fflag _ => true
  | _ => false

/-- A process may terminate without the exit call of a traced process when that call has been made
or another process of the tree can still make it. -/
def TreeRun.MayVanish (r : TreeRun) (p : Slot) : Prop :=
  r.tree p = true → r.exited = true ∨ ∃ q, q ≠ p ∧ r.tree q = true

/-- The exit call of a traced process of the tree is the last traced call of the tree, no other
traced process makes it, nobody sets the filter, and the calls that a name is compared with have
one. -/
def TreeRun.Orderly (f : TraceFilter) (r : TreeRun) : SyscallEvent → Prop
  | .enter p num => num = sysExitNum →
    if (r.sys.proc p).any TraceProc.traced then r.tree p = true ∧ r.exited = false
      else r.MayVanish p
  | .leave p _ e => e.setsFilter = false ∧
    ∀ g ∈ r.sys.frame p, r.tree p = true → g.straced = true →
      r.exited = false ∧ (f.eFlag ≠ -1 → HasName g.num)
  | .die p => r.MayVanish p

section Tree

variable {mem : Int → Text} {f : TraceFilter} {r u : TreeRun}

/-- Up to the exit call the filter is the command's, and it is the default from then on. -/
structure TreeRun.Covered (f : TraceFilter) (r : TreeRun) : Prop where
  filter : r.sys.filter = if r.exited then TraceFilter.none else f
  lines : ∀ x ∈ r.lines, f.Accepts x
  last : r.exited = true ∨ ∃ p, r.tree p = true

theorem TraceSys.report_lines {s t : TraceSys} {x : TraceEntry} {lines : List TraceEntry}
    (h : s.report mem x lines = some t) : t.console = s.console ++ lines ∧ t.filter = s.filter := by
  obtain ⟨_, _, rfl⟩ := Option.map_eq_some_iff.mp h
  exact ⟨rfl, rfl⟩

theorem TraceSys.effect_keeps {s t : TraceSys} {p : Slot} {q : TraceProc} {ret : Int}
    {e : SyscallEffect} (h : s.effect p q ret e = some t) (he : e.setsFilter = false) :
    t.console = s.console ∧ t.filter = s.filter := by
  cases e with
  | fork np =>
    obtain ⟨_, rfl⟩ := Runs.of_guard h
    exact ⟨rfl, rfl⟩
  | other => cases Option.some.inj h; exact ⟨rfl, rfl⟩
  | exec name => cases Option.some.inj h; exact ⟨rfl, rfl⟩
  | strace i => cases Option.some.inj h; exact ⟨rfl, rfl⟩
  | eflag i => contradiction
  | sflag i => contradiction
  | fflag i => contradiction

theorem TraceSys.traceReturn_lines {s t : TraceSys} {pid ret : Int} {g : SyscallFrame}
    (h : s.traceReturn mem pid g ret = some t) :
    t.filter = s.filter ∧ ∃ lines, t.console = s.console ++ lines ∧
      (g.straced = true → s.filter.FromShell → (s.filter.eFlag ≠ -1 → HasName g.num) →
        ∀ x ∈ lines, s.filter.Accepts x) ∧ (g.straced = false → lines = []) := by
  unfold TraceSys.traceReturn at h
  split at h
  next hg =>
    split at h
    next =>
      obtain ⟨hc, hf⟩ := TraceSys.report_lines h
      exact ⟨hf, _, hc, fun _ hs hn => printExec_accepts hs hn rfl, by simp [hg]⟩
    next =>
      obtain ⟨hc, hf⟩ := TraceSys.report_lines h
      exact ⟨hf, _, hc, fun _ hs hn => printReturn_accepts hs hn rfl, by simp [hg]⟩
  next hg =>
    cases Option.some.inj h
    exact ⟨rfl, [], by simp, by simp, fun _ => rfl⟩

theorem TreeRun.MayVanish.last {p : Slot} (h : r.MayVanish p)
    (hl : r.exited = true ∨ ∃ q, r.tree q = true) :
    r.exited = true ∨ ∃ q, Function.update r.tree p false q = true := by
  by_cases hp : r.tree p = true
  · rcases h hp with he | ⟨q, hqp, hq⟩
    · exact .inl he
    · exact .inr ⟨q, by rw [Function.update_of_ne hqp]; exact hq⟩
  · rcases hl with he | ⟨q, hq⟩
    · exact .inl he
    · have hqp : q ≠ p := fun he => hp (he ▸ hq)
      exact .inr ⟨q, by rw [Function.update_of_ne hqp]; exact hq⟩

theorem TreeRun.grow_leave {p : Slot} {ret : Int} {e : SyscallEffect} {q : Slot}
    (hq : r.tree q = true) :
    r.grow (.leave p ret e) q = true := by
  cases e with
  | fork np =>
    unfold TreeRun.grow
    dsimp only
    split
    next =>
      by_cases hn : q = np
      · rw [hn, Function.update_self]
      · rw [Function.update_of_ne hn, hq]
    next => exact hq
  | _ => exact hq

theorem TreeRun.Covered.quiet {t : TraceSys} {e : SyscallEvent} (hr : r.Covered f)
    (hc : t.console = r.sys.console) (hf : t.filter = r.sys.filter)
    (he : r.sys.tracedExit e = false) (hl : r.exited = true ∨ ∃ q, r.grow e q = true) :
    TreeRun.Covered f ⟨t, r.grow e,
      if r.tree e.actor then r.lines ++ t.console.drop r.sys.console.length else r.lines,
      r.exited || (r.tree e.actor && r.sys.tracedExit e)⟩ := by
  refine ⟨?_, ?_, ?_⟩
  · simpa [he, hf] using hr.filter
  · simpa [hc] using hr.lines
  · simpa [he] using hl

theorem TreeRun.covered_enter {t : TraceSys} {p : Slot} {num : Int} (hs : f.FromShell)
    (hr : r.Covered f) (ho : r.Orderly f (.enter p num))
    (h : r.sys.step mem (.enter p num) = some t) :
    TreeRun.Covered f ⟨t, r.grow (.enter p num),
      if r.tree p then r.lines ++ t.console.drop r.sys.console.length else r.lines,
      r.exited || (r.tree p && r.sys.tracedExit (.enter p num))⟩ := by
  obtain ⟨q, hq, _, henter⟩ := TraceSys.step_enter h
  unfold TraceSys.enter at henter
  by_cases hnum : num = sysExitNum
  · have ho := ho hnum
    have hgrow : r.grow (.enter p num) = Function.update r.tree p false := by
      simp [TreeRun.grow, hnum]
    rw [if_pos hnum] at henter
    unfold TraceSys.exit at henter
    rw [hq] at ho
    by_cases htr : q.traced
    · rw [if_pos htr] at henter
      obtain ⟨v, hv, rfl⟩ := Option.map_eq_some_iff.mp henter
      obtain ⟨hc, _⟩ := TraceSys.report_lines hv
      obtain ⟨htree, hex⟩ : r.tree p = true ∧ r.exited = false := by simpa [htr] using ho
      have hfil : r.sys.filter = f := by simpa [hex] using hr.filter
      have hte : r.sys.tracedExit (.enter p num) = true := by simp [TraceSys.tracedExit, hnum, hq, htr]
      have hdrop : v.console.drop r.sys.console.length =
        printExit mem f ⟨q.pid, q.name, sysExitNum, none⟩ := by
        rw [hc, List.drop_left, hfil]
      refine ⟨by simp [htree, hte, TraceSys.setProc], ?_, .inl (by simp [htree, hte])⟩
      intro x hx
      have hx : x ∈ r.lines ++ v.console.drop r.sys.console.length := by
        simpa [htree, TraceSys.setProc] using hx
      have hname : HasName sysExitNum := by decide
      rcases List.mem_append.mp hx with hx | hx
      · exact hr.lines x hx
      · exact printExit_accepts hs (fun _ => hname) rfl x (hdrop ▸ hx)
    · rw [if_neg htr] at henter
      cases Option.some.inj henter
      have hv : r.MayVanish p := by simpa [htr] using ho
      refine hr.quiet rfl rfl (by simp [TraceSys.tracedExit, hq, htr]) ?_
      rw [hgrow]
      exact hv.last hr.last
  · have hte : r.sys.tracedExit (.enter p num) = false := by simp [TraceSys.tracedExit, hnum]
    have hgrow : r.grow (.enter p num) = r.tree := by simp [TreeRun.grow, hnum]
    rw [if_neg hnum] at henter
    split at henter
    next =>
      cases Option.some.inj henter
      exact hr.quiet rfl rfl hte (hgrow ▸ hr.last)
    next =>
      cases Option.some.inj henter
      exact hr.quiet rfl rfl hte (hgrow ▸ hr.last)

theorem TreeRun.covered_leave {t : TraceSys} {p : Slot} {ret : Int} {e : SyscallEffect}
    (hs : f.FromShell) (hr : r.Covered f) (ho : r.Orderly f (.leave p ret e))
    (h : r.sys.step mem (.leave p ret e) = some t) :
    TreeRun.Covered f ⟨t, r.grow (.leave p ret e),
      if r.tree p then r.lines ++ t.console.drop r.sys.console.length else r.lines,
      r.exited || (r.tree p && r.sys.tracedExit (.leave p ret e))⟩ := by
  obtain ⟨q, g, v, hq, hg, _, hv, hret⟩ := TraceSys.step_leave h
  obtain ⟨hset, ho⟩ := ho
  obtain ⟨hc, hfv⟩ := TraceSys.effect_keeps hv hset
  obtain ⟨hft, lines, hlines, hacc, hnil⟩ := TraceSys.traceReturn_lines hret
  have hte : r.sys.tracedExit (.leave p ret e) = false := rfl
  have hcons : t.console = r.sys.console ++ lines := hlines.trans (congrArg (· ++ lines) hc)
  have hfil : t.filter = r.sys.filter := hft.trans hfv
  refine ⟨?_, ?_, ?_⟩
  · simpa [hte, hfil] using hr.filter
  · intro x hx
    by_cases htree : r.tree p = true
    · have hx : x ∈ r.lines ++ lines := by simpa [htree, hcons] using hx
      rcases List.mem_append.mp hx with hx | hx
      · exact hr.lines x hx
      · by_cases hst : g.straced = true
        · obtain ⟨hex, hname⟩ := ho g hg htree hst
          have hf : (v.setFrame p none).filter = f := by
            have hr' : r.sys.filter = f := by simpa [hex] using hr.filter
            exact hfv.trans hr'
          rw [hf] at hacc
          exact hacc hst hs hname x hx
        · rw [hnil (by simpa using hst)] at hx
          simp at hx
    · exact hr.lines x (by simpa [htree] using hx)
  · rcases hr.last with he | ⟨q, hq⟩
    · exact .inl (by simp [he])
    · exact .inr ⟨q, TreeRun.grow_leave hq⟩

theorem TreeRun.step_covered {e : SyscallEvent} (hs : f.FromShell) (hr : r.Covered f)
    (ho : r.Orderly f e) (h : r.step mem e = some u) : u.Covered f := by
  obtain ⟨t, ht, rfl⟩ := Option.map_eq_some_iff.mp h
  cases e with
  | enter p num => exact TreeRun.covered_enter hs hr ho ht
  | leave p ret e => exact TreeRun.covered_leave hs hr ho ht
  | die p =>
    obtain ⟨_, _, _, rfl⟩ := TraceSys.step_die ht
    exact hr.quiet rfl rfl rfl (TreeRun.MayVanish.last ho hr.last)

end Tree

/-- The filter covers the command: while the exit call of a traced process is the last traced call
of its tree, every line passes the filter, and when the tree is gone the filter is the default
again. -/
theorem filter_covers_command {mem : Int → Text} {f : TraceFilter} {proc : Slot → Option TraceProc}
    {root : Slot} {l : List SyscallEvent} {r : TreeRun} (hs : f.FromShell)
    (hm : Runs.Meets (TreeRun.step mem) (TreeRun.Orderly f) (TreeRun.start proc root f) l)
    (h : Runs.exec (TreeRun.step mem) (TreeRun.start proc root f) l = some r) :
    (∀ x ∈ r.lines, f.Accepts x) ∧ ((∀ p, r.tree p = false) → r.sys.filter = TraceFilter.none) := by
  have hinit : (TreeRun.start proc root f).Covered f :=
    ⟨rfl, by simp [TreeRun.start], .inr ⟨root, by simp [TreeRun.start]⟩⟩
  have hr := Runs.invariant_of_meets hinit
    (fun _ _ _ hr ho hstep => TreeRun.step_covered hs hr ho hstep) hm h
  refine ⟨hr.lines, fun hgone => ?_⟩
  have hex : r.exited = true := hr.last.resolve_right (fun ⟨p, hp⟩ => by simp [hgone p] at hp)
  simpa [hex] using hr.filter

instance (f : TraceFilter) (r : TreeRun) (e : SyscallEvent) : Decidable (r.Orderly f e) := by
  cases e with
  | enter p num => unfold TreeRun.Orderly TreeRun.MayVanish; infer_instance
  | leave p ret e => unfold TreeRun.Orderly; infer_instance
  | die p => unfold TreeRun.Orderly TreeRun.MayVanish; infer_instance

def shellChild : Slot → Option TraceProc :=
  fun p => if p = 0 then some ⟨3, "sh".toList, 3⟩ else none

/-- The option -f, and a command that forks a child which is killed. -/
def filteredRun : List SyscallEvent :=
  [.enter 0 1, .leave 0 4 (.fork 1), .enter 1 5, .leave 1 (-1) .other, .die 1, .enter 0 3,
    .leave 0 4 .other, .enter 0 2]

theorem filter_covers_command_killed_child :
    ∃ r, Runs.exec (TreeRun.step fun _ => []) (TreeRun.start shellChild 0 ⟨-1, 0, 1⟩) filteredRun =
      some r ∧
      (∀ x ∈ r.lines, TraceFilter.Accepts ⟨-1, 0, 1⟩ x) ∧
      ((∀ p, r.tree p = false) → r.sys.filter = TraceFilter.none) := by
  have hsome : (Runs.exec (TreeRun.step fun _ => []) (TreeRun.start shellChild 0 ⟨-1, 0, 1⟩)
      filteredRun).isSome := by
    decide +kernel
  obtain ⟨r, hr⟩ := Option.isSome_iff_exists.mp hsome
  refine ⟨r, hr, filter_covers_command ⟨by decide, by decide,
    by decide⟩ (Runs.meets_of_check ?_) hr⟩
  decide +kernel

/-- With the option -f a child's exit ends the filter, and its parent's successful wait is printed;
and when the command is killed the filter stays. -/
theorem filter_lost :
    (∃ r, Runs.exec (TreeRun.step fun _ => []) (TreeRun.start shellChild 0 ⟨-1, 0, 1⟩)
        [.enter 0 1, .leave 0 4 (.fork 1), .enter 1 2, .enter 0 3, .leave 0 4 .other] = some r ∧
      ∃ x ∈ r.lines, ¬ TraceFilter.Accepts ⟨-1, 0, 1⟩ x) ∧
    ∃ r, Runs.exec (TreeRun.step fun _ => []) (TreeRun.start shellChild 0 ⟨-1, 0, 1⟩) [.die 0] =
      some r ∧
      (∀ p, r.tree p = false) ∧ r.sys.filter ≠ TraceFilter.none := by
  have hfirst : ((Runs.exec (TreeRun.step fun _ => []) (TreeRun.start shellChild 0 ⟨-1, 0, 1⟩)
      [.enter 0 1, .leave 0 4 (.fork 1), .enter 1 2, .enter 0 3, .leave 0 4 .other]).map TreeRun.lines) =
        some [⟨3, "sh".toList, 3, some 4⟩] := by decide +kernel
  obtain ⟨r, hr, hlines⟩ := Option.map_eq_some_iff.mp hfirst
  refine ⟨⟨r, hr, ⟨3, "sh".toList, 3, some 4⟩, by simp [hlines], by decide⟩, _, rfl, ?_, ?_⟩
  · intro p
    by_cases hp : p = 0
    · simp [hp, TreeRun.grow]
    · simp [hp, TreeRun.grow, TreeRun.start]
  · decide

end Xv6
