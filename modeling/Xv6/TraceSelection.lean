import Xv6.TraceFilter

namespace Xv6

/-- An entry as the end of a call makes it: exit and a successful exec have no value, all other
calls have one. -/
def TraceEntry.Completed (r : TraceEntry) : Prop :=
  match r.ret with
  | none => r.num = sysExitNum ∨ r.num = sysExecNum
  | some v => r.num ≠ sysExitNum ∧ (r.num = sysExecNum → v ≠ 0)

/-- The lines for a completed call, from the three places of syscall. -/
def printed (mem : Int → Text) (f : TraceFilter) (r : TraceEntry) : List TraceEntry :=
  match r.ret with
  | none => if r.num = sysExitNum then printExit mem f r else printExec mem f r
  | some v => printReturn mem f r v

/-- The flags for which the ladder of the call decides the same with and without -e. Both flags are
set together by two option lines, and the calls sflag and fflag take any number. -/
def TraceEntry.FlagsAgree (r : TraceEntry) (s f : Int) : Prop :=
  match r.ret with
  | none => r.num = sysExecNum → (f = 0 → s = 0 ∨ s = 1) ∧ (f ≠ 0 → s ≠ 1)
  | some v => (s = 1 → f = 1 → 0 ≤ v) ∧ (s = 1 ∨ f = 1 ∨ s = 0 ∧ f = 0)

variable {mem : Int → Text} {f : TraceFilter} {r : TraceEntry}

theorem compare_iff {s t : Text} : compare s t = true ↔ s = t := by
  refine ⟨eq_of_compare, ?_⟩
  rintro rfl
  induction s with
  | nil => rfl
  | cons c s ih => simp [compare, ih]

theorem TraceSys.exit_printed {s t : TraceSys} {p : Slot} {q : TraceProc} (hq : q.traced = true)
    (h : s.exit mem p q = some t) :
    ∃ r : TraceEntry, r.Completed ∧ r.num = sysExitNum ∧
      t.console = s.console ++ printed mem s.filter r := by
  unfold TraceSys.exit at h
  rw [if_pos hq] at h
  obtain ⟨u, hu, rfl⟩ := Option.map_eq_some_iff.mp h
  exact ⟨⟨q.pid, q.name, sysExitNum, none⟩, .inl rfl, rfl, (TraceSys.report_lines hu).1⟩

theorem TraceSys.traceReturn_printed {s t : TraceSys} {pid ret : Int} {g : SyscallFrame}
    (hg : g.straced = true) (hx : g.num ≠ sysExitNum) (h : s.traceReturn mem pid g ret = some t) :
    ∃ r : TraceEntry, r.Completed ∧ r.num = g.num ∧
      t.console = s.console ++ printed mem s.filter r := by
  unfold TraceSys.traceReturn at h
  rw [if_pos hg] at h
  split at h
  next hex =>
    refine ⟨⟨pid, g.processN, g.num, none⟩, .inr hex.1, rfl, ?_⟩
    rw [(TraceSys.report_lines h).1]
    simp only [printed, if_neg hx]
  next hex =>
    exact ⟨⟨pid, g.processN, g.num, some ret⟩, ⟨hx, fun hn hv => hex ⟨hn, hv⟩⟩, rfl,
      (TraceSys.report_lines h).1⟩

theorem mem_printExit :
    r ∈ printExit mem f r ↔
      f.fFlag = 0 ∧ (f.eFlag ≠ -1 → nameAt mem (f.eFlag + 1) = nameAt mem r.num) := by
  rw [← compare_iff]
  unfold printExit
  by_cases he : f.eFlag = -1
  · by_cases hf : f.fFlag = 0 <;> simp [he, hf]
  · by_cases hc : compare (nameAt mem (f.eFlag + 1)) (nameAt mem r.num) = true
    · by_cases hf : f.fFlag = 0 <;> simp [he, hc, hf]
    · simp [he, hc]

theorem mem_printExec :
    r ∈ printExec mem f r ↔
      if f.eFlag = -1 then f.sFlag = 1 ∨ f.sFlag = 0 ∧ f.fFlag = 0
      else f.fFlag = 0 ∧ nameAt mem (f.eFlag + 1) = nameAt mem r.num := by
  rw [← compare_iff]
  unfold printExec
  by_cases he : f.eFlag = -1
  · by_cases hd : f.sFlag = 0 ∧ f.fFlag = 0
    · simp [he, hd]
    · by_cases hs : f.sFlag = 1 <;> simp [he, hd, hs]
  · by_cases hc : compare (nameAt mem (f.eFlag + 1)) (nameAt mem r.num) = true
    · by_cases hf : f.fFlag = 0 <;> simp [he, hc, hf]
    · simp [he, hc]

theorem mem_printReturn {v : Int} :
    r ∈ printReturn mem f r v ↔
      if f.eFlag = -1 then f.sFlag = 0 ∧ f.fFlag = 0 ∨ f.sFlag = 1 ∧ 0 ≤ v ∨ f.fFlag = 1 ∧ v < 0
      else nameAt mem (f.eFlag + 1) = nameAt mem r.num ∧
        if f.sFlag = 1 then 0 ≤ v else f.fFlag = 1 → v < 0 := by
  rw [← compare_iff]
  unfold printReturn
  by_cases he : f.eFlag = -1
  · grind
  · by_cases hc : compare (nameAt mem (f.eFlag + 1)) (nameAt mem r.num) = true
    · grind
    · simp [he, hc]

/-- With a call selected, its completions are printed as they would be without -e exactly for these
flags. -/
theorem selection_narrows_iff (mem : Int → Text) (e s f : Int) (r : TraceEntry)
    (he : HasName (e + 1)) (hr : r.Completed) :
    (r ∈ printed mem ⟨e, s, f⟩ r ↔
        nameAt mem (e + 1) = nameAt mem r.num ∧ r ∈ printed mem ⟨-1, s, f⟩ r) ↔
      (nameAt mem (e + 1) = nameAt mem r.num → r.FlagsAgree s f) := by
  have hne : e ≠ -1 := by
    rintro rfl
    exact absurd he (by decide)
  unfold TraceEntry.Completed at hr
  unfold printed TraceEntry.FlagsAgree
  cases hret : r.ret with
  | none =>
    simp only [hret] at hr ⊢
    by_cases hx : r.num = sysExitNum
    · have hexec : r.num ≠ sysExecNum := by rw [hx]; decide
      simp only [if_pos hx, mem_printExit, hexec, false_implies, implies_true, iff_true]
      grind
    · have hexec : r.num = sysExecNum := hr.resolve_left hx
      simp only [if_neg hx, mem_printExec]
      grind
  | some v =>
    simp only [mem_printReturn]
    grind

theorem selection_narrows_iff_read :
    (⟨5, "ls".toList, 5, some (-1)⟩ : TraceEntry) ∉
      printed (fun _ => []) ⟨4, 1, 0⟩ ⟨5, "ls".toList, 5, some (-1)⟩ :=
  fun h =>
    absurd (((selection_narrows_iff (fun _ => []) 4 1 0 ⟨5, "ls".toList, 5, some (-1)⟩ (by decide)
    ⟨by decide, by decide⟩).mpr fun _ => ⟨by decide, .inl rfl⟩).mp h).2 (by decide)

/-- After the lines strace -s and strace -f a read that fails is printed, but not once read is
selected too. -/
theorem selection_hides_failure :
    (⟨5, "ls".toList, 5, some (-1)⟩ : TraceEntry) ∈
      printed (fun _ => []) ⟨-1, 1, 1⟩ ⟨5, "ls".toList, 5, some (-1)⟩ ∧
    nameAt (fun _ => []) (4 + 1) = nameAt (fun _ => []) 5 ∧
    (⟨5, "ls".toList, 5, some (-1)⟩ : TraceEntry) ∉
      printed (fun _ => []) ⟨4, 1, 1⟩ ⟨5, "ls".toList, 5, some (-1)⟩ := by
  decide

end Xv6
