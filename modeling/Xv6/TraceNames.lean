import Xv6.TraceFilter

namespace Xv6

/-- The flags after a call. -/
def TraceFilter.after (f : TraceFilter) : SyscallEffect → TraceFilter
  | .eflag i => { f with eFlag := i }
  | .sflag i => { f with sFlag := i }
  | .fflag i => { f with fFlag := i }
  | _ => f

/-- The call that a step makes syscall report, with the flags that are read then: the process was
traced when its call began. -/
def TraceSys.reported (s : TraceSys) : SyscallEvent → Option (TraceFilter × Int)
  | .enter p num =>
    match s.proc p, s.frame p with
    | some q, none => if num = sysExitNum ∧ q.traced then some (s.filter, num) else none
    | _, _ => none
  | .leave p _ e =>
    match s.frame p with
    | some f =>
      if f.straced then some (s.filter.after e, f.num) else none
    | none => none
  | .die _ => none

/-- The indices into syscallnames that a report uses: the record and every line use that of the
call, and compare that of the flag. -/
def nameIndices (f : TraceFilter) (num : Int) : List Int :=
  num :: if f.eFlag = -1 then [] else [f.eFlag + 1]

/-- Every index used is inside the table, at an entry that is a string. -/
def TraceSys.NamesValid (s : TraceSys) (e : SyscallEvent) : Prop :=
  ∀ f num, s.reported e = some (f, num) → ∀ n ∈ nameIndices f num, HasName n

section

variable (mem mem' : Int → Text) {s t : TraceSys} {f : TraceFilter} {r : TraceEntry}

theorem hasName_iff {num : Int} : HasName num ↔ 1 ≤ num ∧ num ≤ 21 ∨ num = 25 ∨ num = 26 := by
  have hkeys : ∀ k ∈ syscallnames.map Prod.fst, 1 ≤ k ∧ k ≤ 21 ∨ k = 25 ∨ k = 26 := by decide
  have htable : ∀ n : Fin 27, 1 ≤ n.val ∧ n.val ≤ 21 ∨ n.val = 25 ∨ n.val = 26 →
    HasName (n.val : Int) := by decide
  constructor
  · intro h
    obtain ⟨name, hname⟩ := Option.isSome_iff_exists.mp h
    obtain ⟨l, m, hsplit, _⟩ := List.lookup_eq_some_iff.mp hname
    refine hkeys num (List.mem_map.mpr ⟨(num, name), ?_, rfl⟩)
    rw [hsplit]
    simp
  · intro h
    have hn := htable ⟨num.toNat, by omega⟩ (by
      show 1 ≤ num.toNat ∧ num.toNat ≤ 21 ∨ num.toNat = 25 ∨ num.toNat = 26
      omega)
    have hcast : (num.toNat : Int) = num := by omega
    rwa [show ((⟨num.toNat, by omega⟩ : Fin 27).val : Int) = num from hcast] at hn

theorem nameAt_congr {n : Int} (h : HasName n) : nameAt mem n = nameAt mem' n := by
  obtain ⟨name, hname⟩ := Option.isSome_iff_exists.mp h
  rw [nameAt, nameAt, hname]

theorem report_congr {lines : List TraceEntry} (h : HasName r.num) :
    s.report mem r lines = s.report mem' r lines := by
  have hrecord : r.record mem = r.record mem' := by
    unfold TraceEntry.record createStrace straceReturn
    rw [nameAt_congr mem mem' h]
  rw [TraceSys.report, TraceSys.report, hrecord]

theorem nameAt_indices (h : ∀ n ∈ nameIndices f r.num, HasName n) :
    nameAt mem r.num = nameAt mem' r.num ∧
      (f.eFlag ≠ -1 → nameAt mem (f.eFlag + 1) = nameAt mem' (f.eFlag + 1)) := by
  refine ⟨nameAt_congr mem mem' (h _ List.mem_cons_self), fun he => nameAt_congr mem mem' (h _ ?_)⟩
  rw [nameIndices, if_neg he]
  simp

theorem printExit_congr (h : ∀ n ∈ nameIndices f r.num, HasName n) :
    printExit mem f r = printExit mem' f r := by
  obtain ⟨hnum, hflag⟩ := nameAt_indices mem mem' h
  unfold printExit
  by_cases he : f.eFlag = -1
  · simp only [he, ne_eq, not_true_eq_false, if_false]
  · rw [hnum, hflag he]

theorem printExec_congr (h : ∀ n ∈ nameIndices f r.num, HasName n) :
    printExec mem f r = printExec mem' f r := by
  obtain ⟨hnum, hflag⟩ := nameAt_indices mem mem' h
  unfold printExec
  by_cases he : f.eFlag = -1
  · simp only [he, ne_eq, not_true_eq_false, if_false]
  · rw [hnum, hflag he]

theorem printReturn_congr {value : Int} (h : ∀ n ∈ nameIndices f r.num, HasName n) :
    printReturn mem f r value = printReturn mem' f r value := by
  obtain ⟨hnum, hflag⟩ := nameAt_indices mem mem' h
  unfold printReturn
  by_cases he : f.eFlag = -1
  · simp only [he, ne_eq, not_true_eq_false, if_false]
  · rw [hnum, hflag he]

theorem traceReturn_congr {pid ret : Int} {g : SyscallFrame}
    (h : g.straced = true → ∀ n ∈ nameIndices s.filter g.num, HasName n) :
    s.traceReturn mem pid g ret = s.traceReturn mem' pid g ret := by
  unfold TraceSys.traceReturn
  by_cases hg : g.straced = true
  · have hn := h hg
    rw [if_pos hg, if_pos hg]
    dsimp only
    by_cases hexec : g.num = sysExecNum ∧ ret = 0
    · rw [if_pos hexec, if_pos hexec, printExec_congr mem mem' (r := ⟨pid, g.processN, g.num, none⟩) hn]
      exact report_congr mem mem' (hn _ List.mem_cons_self)
    · rw [if_neg hexec, if_neg hexec, printReturn_congr mem mem' (r := ⟨pid, g.processN, g.num, some ret⟩) hn]
      exact report_congr mem mem' (hn _ List.mem_cons_self)
  · rw [if_neg hg, if_neg hg]

theorem exit_congr {p : Slot} {q : TraceProc}
    (h : q.traced = true → ∀ n ∈ nameIndices s.filter sysExitNum, HasName n) :
    s.exit mem p q = s.exit mem' p q := by
  unfold TraceSys.exit
  dsimp only
  by_cases ht : q.traced = true
  · rw [if_pos ht, if_pos ht,
      printExit_congr mem mem' (r := ⟨q.pid, q.name, sysExitNum, none⟩) (h ht),
      report_congr mem mem' (h ht _ List.mem_cons_self)]
  · rw [if_neg ht, if_neg ht]

theorem effect_filter {p : Slot} {q : TraceProc} {ret : Int} {e : SyscallEffect}
    (h : s.effect p q ret e = some t) :
    t.filter = s.filter.after e := by
  cases e with
  | fork np =>
    obtain ⟨_, rfl⟩ := Runs.of_guard h
    rfl
  | _ => cases Option.some.inj h; rfl

theorem step_congr {e : SyscallEvent} (h : s.NamesValid e) : s.step mem e = s.step mem' e := by
  cases e with
  | enter p num =>
    cases hq : s.proc p with
    | none => simp only [TraceSys.step, hq]
    | some q =>
      cases hf : s.frame p with
      | some g => simp only [TraceSys.step, hq, hf]
      | none =>
        simp only [TraceSys.step, hq, hf, TraceSys.enter]
        by_cases hnum : num = sysExitNum
        · rw [if_pos hnum, if_pos hnum]
          refine exit_congr mem mem' fun ht => hnum ▸ h s.filter num ?_
          simp only [TraceSys.reported, hq, hf, hnum, ht, and_self, if_true]
        · rw [if_neg hnum, if_neg hnum]
  | leave p ret e =>
    cases hq : s.proc p with
    | none => simp only [TraceSys.step, hq]
    | some q =>
      cases hf : s.frame p with
      | none => simp only [TraceSys.step, hq, hf]
      | some g =>
        simp only [TraceSys.step, hq, hf]
        by_cases he : e.Of g.num ret
        · rw [if_pos he, if_pos he]
          refine Option.bind_congr fun v hv => ?_
          obtain ⟨u, hu, rfl⟩ := Option.map_eq_some_iff.mp hv
          refine traceReturn_congr mem mem' fun hg => ?_
          have hfilter : (u.setFrame p none).filter = u.filter := rfl
          rw [hfilter, effect_filter hu]
          exact h _ _ (by simp only [TraceSys.reported, hf, hg, if_true])
        · rw [if_neg he, if_neg he]
  | die p => rfl

theorem parseSyscallN_name {buf : Text} {start : Nat} {i : Int}
    (h : parseSyscallN buf start = some i) (hi : 0 ≤ i) :
    ∃ e ∈ syscallNames.zipIdx, i = e.2 ∧
      cstr ((buf.take (strlen buf - 1)).drop start) = e.1.toList := by
  obtain ⟨_, hfold⟩ := Runs.of_guard h
  dsimp only at hfold
  generalize cstr ((buf.take (strlen buf - 1)).drop start) = cmd at hfold ⊢
  suffices hgen : ∀ (l : List (String × Nat)) (j : Int),
      (0 ≤ j → ∃ e ∈ syscallNames.zipIdx, j = e.2 ∧ cmd = e.1.toList) →
      (∀ e ∈ l, e ∈ syscallNames.zipIdx) →
      l.foldl (fun syscallIndex x => if cmd = x.1.toList then (x.2 : Int) else syscallIndex) j = i →
      ∃ e ∈ syscallNames.zipIdx, i = e.2 ∧ cmd = e.1.toList from
    hgen _ (-1) (fun hneg => absurd hneg (by decide)) (fun e he => he) hfold
  intro l
  induction l with
  | nil =>
    intro j hj _ heq
    rw [List.foldl_nil] at heq
    subst heq
    exact hj hi
  | cons x l ih =>
    intro j hj hl heq
    refine ih (if cmd = x.1.toList then (x.2 : Int) else j) ?_
      (fun e he => hl e (List.mem_cons_of_mem x he)) heq
    intro hpos
    by_cases hx : cmd = x.1.toList
    · exact ⟨x, hl x List.mem_cons_self, if_pos hx, hx⟩
    · rw [if_neg hx] at hpos ⊢
      exact hj hpos

end

/-- The accesses are valid if the call has a name and the flag is -1 or one less than such a number,
and then the step does not depend on what stands beside the table. The shell and the kernel agree on
every name but trace. -/
theorem trace_names_valid_iff (s : TraceSys) (e : SyscallEvent) :
    (s.NamesValid e ↔ ∀ f num, s.reported e = some (f, num) →
      (1 ≤ num ∧ num ≤ 21 ∨ num = 25 ∨ num = 26) ∧
        (f.eFlag = -1 ∨ 0 ≤ f.eFlag ∧ f.eFlag ≤ 20 ∨ f.eFlag = 24 ∨ f.eFlag = 25)) ∧
      (s.NamesValid e → ∀ mem mem', s.step mem e = s.step mem' e) ∧
      ∀ (buf : Text) (start : Nat) (i : Int), parseSyscallN buf start = some i → 0 ≤ i →
        ((syscallnames.lookup (i + 1)).map String.toList = some (cstr ((buf.take (strlen buf - 1)).drop start)) ↔
          cstr ((buf.take (strlen buf - 1)).drop start) ≠ "trace".toList) := by
  refine ⟨?_, fun h mem mem' => step_congr mem mem' h, fun buf start i h hi => ?_⟩
  · refine forall_congr' fun f => forall_congr' fun num => forall_congr' fun _ => ?_
    unfold nameIndices
    rw [List.forall_mem_cons, hasName_iff]
    refine and_congr_right fun _ => ?_
    by_cases he : f.eFlag = -1
    · rw [if_pos he]
      exact ⟨fun _ => .inl he, fun _ n hn => absurd hn List.not_mem_nil⟩
    · rw [if_neg he, List.forall_mem_singleton, hasName_iff]
      omega
  · have htable : ∀ e ∈ syscallNames.zipIdx,
        ((syscallnames.lookup ((e.2 : Int) + 1)).map String.toList = some e.1.toList ↔
          e.1.toList ≠ "trace".toList) := by
      decide
    obtain ⟨e, he, rfl, hname⟩ := parseSyscallN_name h hi
    rw [hname]
    exact htable e he

/-- A traced process and one that is not. -/
def twoTraced : TraceSys :=
  .start fun p => if p = 0 then some ⟨3, "ls".toList, tStrace⟩
    else if p = 1 then some ⟨4, "sh".toList, 0⟩ else none

theorem trace_names_valid_iff_getpid :
    ∃ s, Runs.exec (TraceSys.step fun _ => []) twoTraced [.enter 0 11] = some s ∧
      s.reported (.leave 0 3 .other) = some (.none, 11) ∧ s.NamesValid (.leave 0 3 .other) := by
  refine ⟨_, rfl, rfl, (trace_names_valid_iff _ _).1.mpr fun f num h => ?_⟩
  obtain ⟨rfl, rfl⟩ := Prod.mk.inj (Option.some.inj h)
  decide

/-- nice has no name. The shell takes trace for the index 21, and the kernel has no name at 22. -/
theorem trace_names_invalid :
    (∃ s, Runs.exec (TraceSys.step fun _ => []) twoTraced [.enter 0 22] = some s ∧
      ¬ s.NamesValid (.leave 0 0 .other)) ∧
    parseSyscallN "strace -e trace\n".toList 10 = some 21 ∧
    ∃ s, Runs.exec (TraceSys.step fun _ => []) twoTraced [.enter 1 27, .leave 1 0 (.eflag 21),
      .enter 0 11] = some s ∧
      ¬ s.NamesValid (.leave 0 3 .other) := by
  refine ⟨⟨_, rfl, fun h => ?_⟩, by decide +kernel, ⟨_, rfl, fun h => ?_⟩⟩
  · exact absurd (h _ _ rfl 22 (by decide)) (by decide)
  · exact absurd (h _ _ rfl 22 (by decide)) (by decide)

end Xv6
