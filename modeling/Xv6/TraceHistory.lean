import Mathlib.Data.List.GetD
import Mathlib.Data.List.TakeWhile
import Xv6.Runs
import Xv6.Syscall

namespace Xv6

/-- A slot that holds a text and nothing else. -/
def padded (t : Text) : Fin 100 → Char := fun j => t.getD j nul

def NulFree (t : Text) : Prop := ∀ c ∈ t, c ≠ nul

instance (t : Text) : Decidable (NulFree t) := List.decidableBAll _ t

/-- A text that fits a slot as a C string. -/
def IsRecord (t : Text) : Prop := t ≠ [] ∧ t.length < 100 ∧ NulFree t

theorem slotText_padded {t : Text} (hl : t.length < 100) (hn : NulFree t) :
    slotText (padded t) = t := by
  have hsplit : List.ofFn (padded t) = t ++ List.replicate (100 - t.length) nul := by
    apply List.ext_getElem
    · rw [List.length_ofFn, List.length_append, List.length_replicate]
      omega
    · intro j h1 h2
      rw [List.getElem_ofFn]
      by_cases hj : j < t.length
      · rw [List.getElem_append_left hj]
        simp [padded, hj]
      · rw [List.getElem_append_right (Nat.le_of_not_lt hj), List.getElem_replicate]
        simp [padded, hj]
  have hend : (List.replicate (100 - t.length) nul).takeWhile (fun c => c ≠ nul) = [] := by
    obtain ⟨m, hm⟩ : ∃ m, 100 - t.length = m + 1 := ⟨99 - t.length, by omega⟩
    rw [hm, List.replicate_succ]
    simp
  unfold slotText cstr
  rw [hsplit, List.takeWhile_append_of_pos (by simpa [NulFree] using hn), hend, List.append_nil]

theorem clearSlot_padded {t : Text} (hl : t.length < 100) (hn : NulFree t) :
    clearSlot (padded t) = padded [] := by
  funext j
  unfold clearSlot
  rw [slotText_padded hl hn]
  by_cases hj : j.val < t.length
  · simp [hj, padded]
  · simp [hj, padded]

theorem copySlot_padded {t : Text} : copySlot (padded []) t = padded t := by
  funext j
  simp [copySlot, padded]

/-- The slots hold the last records in ring order, and no other byte is left in them. -/
structure History.Holds (h : History) (rs : List Text) : Prop where
  start : h.startIndex.val = rs.length % NTRACE
  oldest : h.endIndex.val = if rs.length < NTRACE then 0 else rs.length % NTRACE
  wrapped : h.wrap = decide (NTRACE ≤ rs.length)
  recent : ∀ j t, rs[j]? = some t → rs.length ≤ j + NTRACE →
    h.dumpBuf (Fin.ofNat NTRACE j) = padded t
  unused : ∀ i : Fin NTRACE, rs.length ≤ i.val → h.dumpBuf i = padded []

theorem History.holds_empty : History.empty.Holds [] where
  start := rfl
  oldest := rfl
  wrapped := rfl
  recent := by simp
  unused := fun _ _ => rfl

section Adding

variable {h : History} {rs : List Text}

theorem History.Holds.full (hh : h.Holds rs) :
    (h.startIndex = h.endIndex ∧ h.wrap) ↔ NTRACE ≤ rs.length := by
  rw [hh.wrapped, Fin.ext_iff, hh.start, hh.oldest]
  by_cases hk : rs.length < NTRACE
  · simp [hk]
  · simp [hk, Nat.le_of_not_lt hk]

/-- The slots when the new record is copied: the oldest one has been cleared. -/
def History.cleared (h : History) : Fin NTRACE → Fin 100 → Char :=
  if h.startIndex = h.endIndex ∧
    h.wrap then Function.update h.dumpBuf h.endIndex (clearSlot (h.dumpBuf h.endIndex))
  else h.dumpBuf

theorem History.cleared_other {i : Fin NTRACE} (hi : i ≠ h.startIndex) :
    h.cleared i = h.dumpBuf i := by
  unfold History.cleared
  split
  next hf => exact Function.update_of_ne (hf.1 ▸ hi) _ _
  next => rfl

theorem History.Holds.cleared_start (hh : h.Holds rs) (hr : ∀ t ∈ rs, IsRecord t) :
    h.cleared h.startIndex = padded [] := by
  have hs := hh.start
  unfold History.cleared
  split
  next hf =>
    have hk := hh.full.mp hf
    obtain ⟨t, ht⟩ : ∃ t, rs[rs.length - NTRACE]? = some t :=
      ⟨_, List.getElem?_eq_getElem (by simp only [NTRACE] at hk ⊢; omega)⟩
    have hslot : h.endIndex = Fin.ofNat NTRACE (rs.length - NTRACE) := by
      apply Fin.ext
      rw [← hf.1, hs]
      simp only [NTRACE, Fin.val_ofNat] at hk ⊢
      omega
    have hrec := hr t (List.mem_of_getElem? ht)
    rw [hf.1, Function.update_self, hslot, hh.recent _ _ ht (by omega)]
    exact clearSlot_padded hrec.2.1 hrec.2.2
  next hf =>
    have hk : ¬ NTRACE ≤ rs.length := fun hk => hf (hh.full.mpr hk)
    apply hh.unused
    rw [hs]
    exact Nat.le_of_eq (Nat.mod_eq_of_lt (by omega)).symm

theorem adding_dumpBuf {t : Text} (hh : h.Holds rs) (hr : ∀ t ∈ rs, IsRecord t) :
    (adding h t).dumpBuf = Function.update h.dumpBuf h.startIndex (padded t) := by
  have hcopy : copySlot (h.cleared h.startIndex) t = padded t := by
    rw [hh.cleared_start hr, copySlot_padded]
  funext i
  by_cases hi : i = h.startIndex
  · subst hi
    rw [Function.update_self, ← hcopy]
    exact Function.update_self _ _ _
  · rw [Function.update_of_ne hi, ← History.cleared_other hi]
    exact Function.update_of_ne hi _ _

theorem adding_holds {t : Text} (hh : h.Holds rs) (hr : ∀ t ∈ rs, IsRecord t) :
    (adding h t).Holds (rs ++ [t]) := by
  have hs := hh.start
  have hbuf := adding_dumpBuf (t := t) hh hr
  have hlen : (rs ++ [t]).length = rs.length + 1 := by simp
  have hnext : (h.startIndex + 1).val = (rs.length + 1) % NTRACE := by
    rw [Fin.val_add, hs]
    simp
  refine ⟨?_, ?_, ?_, ?_, ?_⟩
  · rw [hlen]
    exact hnext
  · rw [hlen]
    by_cases hk : NTRACE ≤ rs.length
    · have hf := hh.full.mpr hk
      have hend : (adding h t).endIndex = h.endIndex + 1 := if_pos hf
      rw [hend, ← hf.1, hnext, if_neg (by omega)]
    · have hend : (adding h t).endIndex = h.endIndex := if_neg (fun hf => hk (hh.full.mp hf))
      rw [hend, hh.oldest, if_pos (by omega)]
      simp only [NTRACE] at hk ⊢
      split <;> omega
  · rw [hlen]
    have hw : (adding h t).wrap = (h.wrap || h.startIndex + 1 == 0) := rfl
    have hzero : (h.startIndex + 1 == 0) = decide ((rs.length + 1) % NTRACE = 0) := by
      rw [← hnext]
      rw [beq_eq_decide, decide_eq_decide, Fin.ext_iff]
      rfl
    rw [hw, hh.wrapped, hzero, ← Bool.decide_or]
    simp only [NTRACE, decide_eq_decide]
    omega
  · intro j u hj hlast
    rw [hlen] at hlast
    rw [hbuf]
    obtain ⟨hj', hu⟩ := List.getElem?_eq_some_iff.mp hj
    rw [hlen] at hj'
    by_cases hnew : j = rs.length
    · have hu' : t = u := by simpa [hnew] using hu
      have hslot : Fin.ofNat NTRACE j = h.startIndex := by
        apply Fin.ext
        rw [hs, hnew]
        rfl
      rw [hslot, Function.update_self, hu']
    · have hold : rs[j]? = some u := by
        rw [List.getElem?_append_left (by omega)] at hj
        exact hj
      have hslot : Fin.ofNat NTRACE j ≠ h.startIndex := by
        intro he
        have hv := congrArg Fin.val he
        rw [hs] at hv
        simp only [NTRACE, Fin.val_ofNat] at hv hlast
        omega
      rw [Function.update_of_ne hslot]
      exact hh.recent j u hold (by omega)
  · intro i hi
    rw [hlen] at hi
    have hslot : i ≠ h.startIndex := by
      intro he
      have hv := congrArg Fin.val he
      rw [hs] at hv
      have := i.isLt
      simp only [NTRACE] at hv hi this
      omega
    rw [hbuf, Function.update_of_ne hslot]
    exact hh.unused i (by omega)

end Adding

section Records

variable {mem : Int → Text}

theorem nulFree_append {s t : Text} : NulFree (s ++ t) ↔ NulFree s ∧ NulFree t :=
  List.forall_mem_append

theorem nulFree_cstr {t : Text} : NulFree (cstr t) := by
  intro c hc
  simpa using List.mem_takeWhile_imp hc

theorem nulFree_digits {n : Nat} {num : Int} : NulFree (digits n num) := by
  induction n generalizing num with
  | zero => simp [digits, NulFree]
  | succ n ih =>
    have hdigit : ∀ v : Nat, v < 58 → 39 ≤ v → Char.ofNat v ≠ nul := by decide
    have hlow : -10 < num.tmod 10 := by
      rw [Int.tmod_eq_emod]
      split <;> omega
    have hhigh : num.tmod 10 < 10 := by
      rw [Int.tmod_eq_emod]
      split <;> omega
    unfold digits
    split
    next => simp [NulFree]
    next =>
      intro c hc
      rcases List.mem_cons.mp hc with rfl | hc
      · exact hdigit _ (by omega) (by omega)
      · exact ih c hc

theorem nulFree_pidToString {pid : Int} {t : Text} (h : pidToString pid = some t) : NulFree t := by
  obtain ⟨_, rfl⟩ := Runs.of_guard h
  intro c hc
  exact nulFree_digits c (List.mem_reverse.mp hc)

theorem nulFree_numberToString {num : Int} {t : Text} (h : numberToString num = some t) :
    NulFree t := by
  unfold numberToString at h
  split at h
  next =>
    cases Option.some.inj h
    intro c hc
    cases List.mem_singleton.mp hc
    decide
  next =>
    obtain ⟨_, rfl⟩ := Runs.of_guard h
    intro c hc
    exact nulFree_digits c (List.mem_reverse.mp hc)

theorem nulFree_nameAt {n : Int} : NulFree (nameAt mem n) := by
  have htable : ∀ e ∈ syscallnames, NulFree e.2.toList := by decide
  unfold nameAt
  cases hl : syscallnames.lookup n with
  | none => exact nulFree_cstr
  | some name =>
    obtain ⟨l1, l2, hsplit, _⟩ := List.lookup_eq_some_iff.mp hl
    exact htable (n, name) (by rw [hsplit]; simp)

theorem nulFree_headText {p processN name : Text} (hp : NulFree p) (hname : NulFree name) :
    NulFree (headText p processN name) := by
  unfold headText
  simp only [nulFree_append, hp, hname, nulFree_cstr, and_true]
  decide

theorem headText_ne_nil {p processN name : Text} : headText p processN name ≠ [] :=
  List.append_ne_nil_of_left_ne_nil (List.append_ne_nil_of_right_ne_nil _ (List.cons_ne_nil _ _)) _

theorem isRecord_straceBuf {t u : Text} (h : straceBuf t = some u) (hne : t ≠ []) (hn : NulFree t) :
    IsRecord u := by
  obtain ⟨hl, rfl⟩ := Runs.of_guard h
  exact ⟨hne, hl, hn⟩

theorem isRecord_createStrace {pid n : Int} {processN t : Text}
    (h : createStrace mem pid processN n = some t) :
    IsRecord t := by
  obtain ⟨pidS, hp, h⟩ := Option.bind_eq_some_iff.mp h
  exact isRecord_straceBuf h headText_ne_nil
    (nulFree_headText (nulFree_pidToString hp) nulFree_nameAt)

theorem isRecord_straceReturn {pid n v : Int} {processN t : Text}
    (h : straceReturn mem pid processN n v = some t) : IsRecord t := by
  obtain ⟨pidS, hp, h⟩ := Option.bind_eq_some_iff.mp h
  obtain ⟨value, hv, h⟩ := Option.bind_eq_some_iff.mp h
  refine isRecord_straceBuf h (by simp) ?_
  simp only [nulFree_append, nulFree_headText (nulFree_pidToString hp) nulFree_nameAt,
    nulFree_numberToString hv, and_true, true_and]
  decide

theorem TraceEntry.isRecord {r : TraceEntry} {t : Text} (h : r.record mem = some t) :
    IsRecord t := by
  unfold TraceEntry.record at h
  split at h
  next => exact isRecord_createStrace h
  next => exact isRecord_straceReturn h

theorem digits_length_le {n k : Nat} {num : Int} (hk : k < n) :
    (digits n num).length ≤ k ↔ num.natAbs < 10 ^ k := by
  induction n generalizing num k with
  | zero => omega
  | succ n ih =>
    rw [digits]
    by_cases h0 : num = 0
    · rw [if_pos h0, h0]
      exact ⟨fun _ => Nat.pow_pos (by decide), fun _ => Nat.zero_le k⟩
    · rw [if_neg h0, List.length_cons]
      cases k with
      | zero =>
        simp only [Nat.pow_zero]
        omega
      | succ k =>
        rw [Nat.add_le_add_iff_right, ih (by omega), Int.natAbs_tdiv, Nat.pow_succ]
        exact Nat.div_lt_iff_lt_mul (by decide)

theorem pidToString_eq_ite {pid : Int} :
    pidToString pid = if pid.natAbs < 10000 then some (digits 10 pid).reverse else none := by
  have hlen : (digits 10 pid).length < 5 ↔ pid.natAbs < 10000 := by
    rw [Nat.lt_succ_iff]
    exact digits_length_le (by decide)
  simp only [pidToString, hlen]

def numberText (num : Int) : Text := if num = 0 then ['0'] else (digits 10 num).reverse

theorem numberToString_eq_ite {num : Int} :
    numberToString num = if num.natAbs < 100000 then some (numberText num) else none := by
  have hlen : (digits 10 num).length ≤ 5 ↔ num.natAbs < 100000 := digits_length_le (by decide)
  unfold numberToString numberText
  by_cases h0 : num = 0
  · rw [if_pos h0, if_pos h0, if_pos (by omega)]
  · rw [if_neg h0, if_neg h0]
    simp only [hlen]

/-- The record of a call, were the arrays for its digits of any size. -/
def TraceEntry.text (mem : Int → Text) (r : TraceEntry) : Text :=
  let line := headText (digits 10 r.pid).reverse r.processN (nameAt mem r.num)
  match r.ret with
  | none => line
  | some v => line ++ [' '] ++ " | return value = ".toList ++ numberText v

/-- The arrays for the digits are large enough for the pid and the returned value. -/
def TraceEntry.Digits (r : TraceEntry) : Prop :=
  r.pid.natAbs < 10000 ∧ (r.ret.getD 0).natAbs < 100000

instance (r : TraceEntry) : Decidable r.Digits := inferInstanceAs (Decidable (_ ∧ _))

theorem TraceEntry.record_eq {r : TraceEntry} (hd : r.Digits) (hl : (r.text mem).length < 100) :
    r.record mem = some (r.text mem) := by
  obtain ⟨pid, processN, num, ret⟩ := r
  obtain ⟨hpid, hret⟩ := hd
  cases ret with
  | none =>
    simp only [record, createStrace, pidToString_eq_ite, if_pos hpid, Option.bind_eq_bind,
      Option.bind_some]
    exact if_pos hl
  | some v =>
    have hv : v.natAbs < 100000 := hret
    simp only [record, straceReturn, pidToString_eq_ite, numberToString_eq_ite, if_pos hpid,
      if_pos hv, Option.bind_eq_bind, Option.bind_some]
    exact if_pos hl

end Records

/-- The calls that count: those of processes that were traced when the call began, exit when it is
made, any other call once when it returns. -/
def TraceSys.counted (s : TraceSys) : SyscallEvent → List TraceEntry
  | .enter p num =>
    match s.proc p with
    | some q => if num = sysExitNum ∧ q.traced then [⟨q.pid, q.name, num, none⟩] else []
    | none => []
  | .leave p ret _ =>
    match s.proc p, s.frame p with
    | some q, some f =>
      if f.straced then [⟨q.pid, f.processN, f.num,
        if f.num = sysExecNum ∧ ret = 0 then none else some ret⟩] else []
    | _, _ => []
  | .die _ => []

/-- A process can make this step, whatever is reported about it. -/
def TraceSys.possible (s : TraceSys) : SyscallEvent → Bool
  | .enter p _ => (s.proc p).isSome && (s.frame p).isNone
  | .leave p ret e =>
    match s.proc p, s.frame p with
    | some q, some f => decide (e.Of f.num ret) && (s.effect p q ret e).isSome
    | _, _ => false
  | .die p => (s.proc p).isSome && (s.frame p).isNone

/-- The system with the records of the calls of traced processes that it has seen. -/
structure TraceRun where
  sys : TraceSys
  records : List Text

/-- A step with what stands beside the table of names at that time. -/
def TraceRun.step (r : TraceRun) (e : (Int → Text) × SyscallEvent) : Option TraceRun :=
  (r.sys.step e.1 e.2).map fun t => ⟨t, r.records ++ (r.sys.counted e.2).map (TraceEntry.text e.1)⟩

/-- A step that a process can make, with a record that has room in a slot. -/
def TraceRun.Short (r : TraceRun) (e : (Int → Text) × SyscallEvent) : Prop :=
  r.sys.possible e.2 = true ∧ ∀ c ∈ r.sys.counted e.2, (c.text e.1).length < 100

instance (r : TraceRun) (e : (Int → Text) × SyscallEvent) : Decidable (r.Short e) :=
  inferInstanceAs (Decidable (_ ∧ _))

/-- The numbers in the record have room as well. -/
def TraceRun.Fits (r : TraceRun) (e : (Int → Text) × SyscallEvent) : Prop :=
  r.Short e ∧ ∀ c ∈ r.sys.counted e.2, c.Digits

instance (r : TraceRun) (e : (Int → Text) × SyscallEvent) : Decidable (r.Fits e) :=
  inferInstanceAs (Decidable (_ ∧ _))

section History

variable {mem : Int → Text} {s t : TraceSys}

/-- What a step adds to the history: the records of the calls in a list, which has at most one. -/
inductive TraceSys.Recorded (mem : Int → Text) (s t : TraceSys) : List TraceEntry → Prop
  | nothing (h : t.history = s.history) : TraceSys.Recorded mem s t []
  | one {r : TraceEntry} {text : Text} (hr : r.record mem = some text) (h : t.history = adding s.history text) :
    TraceSys.Recorded mem s t [r]

theorem TraceSys.report_recorded {r : TraceEntry} {lines : List TraceEntry}
    (h : s.report mem r lines = some t) :
    s.Recorded mem t [r] := by
  obtain ⟨text, hr, rfl⟩ := Option.map_eq_some_iff.mp h
  exact .one hr rfl

theorem TraceSys.enter_recorded {p : Slot} {q : TraceProc} {num : Int}
    (h : s.enter mem p q num = some t) :
    s.Recorded mem t (if num = sysExitNum ∧ q.traced then [⟨q.pid, q.name, num, none⟩]
      else []) := by
  unfold TraceSys.enter at h
  by_cases he : num = sysExitNum
  · rw [if_pos he] at h
    unfold TraceSys.exit at h
    by_cases hq : q.traced
    · rw [if_pos hq] at h
      obtain ⟨u, hu, rfl⟩ := Option.map_eq_some_iff.mp h
      obtain ⟨text, hr, rfl⟩ := Option.map_eq_some_iff.mp hu
      rw [if_pos ⟨he, hq⟩, he]
      exact .one hr rfl
    · rw [if_neg hq] at h
      cases Option.some.inj h
      rw [if_neg (fun hc => hq hc.2)]
      exact .nothing rfl
  · rw [if_neg he] at h
    rw [if_neg (fun hc => he hc.1)]
    split at h
    next => cases Option.some.inj h; exact .nothing rfl
    next => cases Option.some.inj h; exact .nothing rfl

theorem TraceSys.effect_history {p : Slot} {q : TraceProc} {ret : Int} {e : SyscallEffect}
    (h : s.effect p q ret e = some t) : t.history = s.history := by
  cases e with
  | fork np =>
    obtain ⟨_, rfl⟩ := Runs.of_guard h
    rfl
  | _ => cases Option.some.inj h; rfl

theorem TraceSys.traceReturn_recorded {pid ret : Int} {f : SyscallFrame}
    (h : s.traceReturn mem pid f ret = some t) :
    s.Recorded mem t (if f.straced then
      [⟨pid, f.processN, f.num, if f.num = sysExecNum ∧ ret = 0 then none else some ret⟩] else []) := by
  unfold TraceSys.traceReturn at h
  by_cases hf : f.straced
  · rw [if_pos hf] at h ⊢
    by_cases he : f.num = sysExecNum ∧ ret = 0
    · rw [if_pos he] at h ⊢
      exact TraceSys.report_recorded h
    · rw [if_neg he] at h ⊢
      exact TraceSys.report_recorded h
  · rw [if_neg hf] at h ⊢
    cases Option.some.inj h
    exact .nothing rfl

theorem TraceSys.step_recorded {e : SyscallEvent} (h : s.step mem e = some t) :
    s.Recorded mem t (s.counted e) := by
  cases e with
  | enter p num =>
    obtain ⟨q, hq, _, henter⟩ := TraceSys.step_enter h
    simp only [TraceSys.counted, hq]
    exact TraceSys.enter_recorded henter
  | leave p ret e =>
    obtain ⟨q, f, u, hq, hf, _, hu, hret⟩ := TraceSys.step_leave h
    simp only [TraceSys.counted, hq, hf]
    have hsame := TraceSys.effect_history hu
    have hrec := TraceSys.traceReturn_recorded hret
    revert hrec
    generalize (if f.straced then _ else _ : List TraceEntry) = rs
    rintro (hh | ⟨hr, hh⟩)
    · exact .nothing (hh.trans hsame)
    · exact .one hr (hh.trans (congrArg (adding · _) hsame))
  | die p =>
    obtain ⟨_, _, _, rfl⟩ := TraceSys.step_die h
    exact .nothing rfl

theorem TraceSys.step_isSome {e : SyscallEvent} (he : s.possible e = true)
    (hr : ∀ c ∈ s.counted e, (c.record mem).isSome) : ∃ t, s.step mem e = some t := by
  rw [← Option.isSome_iff_exists]
  cases e with
  | enter p num =>
    obtain ⟨hp, hf⟩ := Bool.and_eq_true_iff.mp he
    obtain ⟨q, hq⟩ := Option.isSome_iff_exists.mp hp
    simp only [TraceSys.counted, hq] at hr
    simp only [TraceSys.step, hq, Option.isNone_iff_eq_none.mp hf, TraceSys.enter]
    by_cases hx : num = sysExitNum
    · simp only [if_pos hx, TraceSys.exit]
      by_cases ht : q.traced = true
      · simp only [if_pos ht, TraceSys.report, Option.isSome_map]
        exact hr _ (by simp [hx, ht])
      · rw [if_neg ht]
        rfl
    · rw [if_neg hx]
      split <;> rfl
  | leave p ret e =>
    simp only [TraceSys.possible] at he
    split at he
    next q f hq hf =>
      obtain ⟨hof, heff⟩ := Bool.and_eq_true_iff.mp he
      obtain ⟨u, hu⟩ := Option.isSome_iff_exists.mp heff
      simp only [TraceSys.counted, hq, hf] at hr
      simp only [TraceSys.step, hq, hf, if_pos (of_decide_eq_true hof), hu, Option.map_some, Option.bind_some,
        TraceSys.traceReturn]
      by_cases ht : f.straced = true
      · rw [if_pos ht] at hr ⊢
        split at hr
        next hx =>
          rw [if_pos hx, TraceSys.report, Option.isSome_map]
          exact hr _ List.mem_cons_self
        next hx =>
          rw [if_neg hx, TraceSys.report, Option.isSome_map]
          exact hr _ List.mem_cons_self
      · rw [if_neg ht]
        rfl
    next => exact absurd he Bool.false_ne_true
  | die p =>
    obtain ⟨hp, hf⟩ := Bool.and_eq_true_iff.mp he
    obtain ⟨q, hq⟩ := Option.isSome_iff_exists.mp hp
    simp only [TraceSys.step, hq, Option.isNone_iff_eq_none.mp hf]
    rfl

/-- The history holds the last records of the calls of traced processes. -/
def TraceRun.Complete (r : TraceRun) : Prop :=
  (∀ t ∈ r.records, IsRecord t) ∧ r.sys.history.Holds r.records

theorem TraceRun.step_complete {r : TraceRun} {e : (Int → Text) × SyscallEvent} (hr : r.Complete)
    (he : r.Fits e) :
    ∃ u, r.step e = some u ∧ u.Complete := by
  obtain ⟨⟨hpos, hshort⟩, hdigits⟩ := he
  have hrec : ∀ c ∈ r.sys.counted e.2, c.record e.1 = some (c.text e.1) :=
    fun c hc => TraceEntry.record_eq (hdigits c hc) (hshort c hc)
  obtain ⟨t, ht⟩ := TraceSys.step_isSome hpos fun c hc =>
    Option.isSome_iff_exists.mpr ⟨_, hrec c hc⟩
  refine ⟨_, Option.map_eq_some_iff.mpr ⟨t, ht, rfl⟩, ?_⟩
  obtain ⟨hall, hh⟩ := hr
  have hstep := TraceSys.step_recorded ht
  revert hstep
  generalize r.sys.counted e.2 = cs at hrec
  rintro (hsame | ⟨hone, hadd⟩)
  · simpa only [Complete, List.map_nil, List.append_nil, hsame] using ⟨hall, hh⟩
  next c text =>
    obtain rfl : text = c.text e.1 := Option.some.inj (hone.symm.trans (hrec c List.mem_cons_self))
    refine ⟨List.forall_mem_append.mpr ⟨hall, fun x hx => ?_⟩, ?_⟩
    · cases List.mem_singleton.mp hx
      exact TraceEntry.isRecord hone
    · change t.history.Holds _
      rw [hadd]
      exact adding_holds hh hall

end History

/-- Whatever calls processes make, traced or not: if the numbers in the records have room in their
arrays, every call is completed, and the history holds the records of the last calls that traced
processes have made, each in its slot as a C string with zeros after it. -/
theorem history_complete {proc : Slot → Option TraceProc} {l : List ((Int → Text) × SyscallEvent)}
    (h : Runs.Meets TraceRun.step TraceRun.Fits ⟨TraceSys.start proc, []⟩ l) :
    ∃ r, Runs.exec TraceRun.step ⟨TraceSys.start proc, []⟩ l = some r ∧
      r.sys.history.Holds r.records ∧
      ∀ j t, r.records[j]? = some t → r.records.length ≤ j + NTRACE →
        slotText (r.sys.history.dumpBuf (Fin.ofNat NTRACE j)) = t := by
  have hinit : TraceRun.Complete ⟨TraceSys.start proc, []⟩ := ⟨by simp, History.holds_empty⟩
  obtain ⟨r, hr, hrec, hh⟩ := Runs.completes_of_meets hinit (fun _ _ => TraceRun.step_complete) h
  refine ⟨r, hr, hh, ?_⟩
  intro j t hj hlast
  have ht := hrec t (List.mem_of_getElem? hj)
  rw [hh.recent j t hj hlast]
  exact slotText_padded ht.2.1 ht.2.2

/-- A traced cat, an untraced sh and seven calls that count, one of them without a name. -/
def historyRun : List ((Int → Text) × SyscallEvent) :=
  [.enter 0 7, .leave 0 0 (.exec "cat".toList), .enter 1 5, .enter 0 15, .leave 0 3 .other,
    .leave 1 1 .other, .enter 0 5, .leave 0 512 .other, .enter 0 22, .leave 0 (-1) .other,
    .enter 0 16, .leave 0 (-1) .other, .enter 0 21, .leave 0 0 .other, .enter 0 2].map fun e =>
      (fun n => if n = 22 then ['?'] else [], e)

def historyProcs : Slot → Option TraceProc := fun p =>
  if p = 0 then some ⟨3, "sh".toList, 3⟩ else if p = 1 then some ⟨2, "sh".toList, 0⟩ else none

theorem history_complete_cat :
    Runs.Meets TraceRun.step TraceRun.Fits ⟨TraceSys.start historyProcs, []⟩ historyRun ∧
      ∃ r, Runs.exec TraceRun.step ⟨TraceSys.start historyProcs, []⟩ historyRun = some r ∧
        r.sys.history.Holds r.records ∧
        ∀ j t, r.records[j]? = some t → r.records.length ≤ j + NTRACE →
          slotText (r.sys.history.dumpBuf (Fin.ofNat NTRACE j)) = t := by
  have hmeets : Runs.Meets TraceRun.step TraceRun.Fits ⟨TraceSys.start historyProcs, []⟩
    historyRun :=
    Runs.meets_of_check (by decide +kernel)
  exact ⟨hmeets, history_complete hmeets⟩

/-- The record of an uptime that returns 100000 has room in a slot, but its six digits have none in
pidS. -/
theorem history_uptime_overruns :
    Runs.Meets TraceRun.step TraceRun.Short ⟨TraceSys.start historyProcs, []⟩
        [(fun _ => [], .enter 0 14), (fun _ => [], .leave 0 100000 .other)] ∧
      numberToString 100000 = none ∧
      ¬ ∃ r, Runs.exec TraceRun.step ⟨TraceSys.start historyProcs, []⟩
        [(fun _ => [], .enter 0 14), (fun _ => [], .leave 0 100000 .other)] = some r := by
  refine ⟨Runs.meets_of_check (by decide +kernel), by decide, ?_⟩
  rw [← Option.isSome_iff_exists]
  decide +kernel

def addAll (rs : List Text) : History := rs.foldl adding .empty

theorem addAll_holds {rs : List Text} (hr : ∀ t ∈ rs, IsRecord t) : (addAll rs).Holds rs := by
  induction rs using List.reverseRecOn with
  | nil => exact History.holds_empty
  | append_singleton rs t ih =>
    have hrs : ∀ u ∈ rs, IsRecord u := fun u hu => hr u (List.mem_append_left _ hu)
    unfold addAll
    rw [List.foldl_append]
    exact adding_holds (ih hrs) hrs

/-- The j-th of the last records, as a function on the slots. -/
def lastRecord (rs : List Text) (j : Fin NTRACE) : Text := rs.getD (rs.length - NTRACE + j.val) []

theorem drop_eq_lastRecord {rs : List Text} (hle : NTRACE ≤ rs.length) :
    rs.drop (rs.length - NTRACE) = List.ofFn (lastRecord rs) := by
  apply List.ext_getElem
  · rw [List.length_drop, List.length_ofFn]
    omega
  · intro j h1 h2
    rw [List.length_ofFn] at h2
    rw [List.getElem_drop, List.getElem_ofFn, lastRecord, List.getD_eq_getElem _ _ (by omega)]

/-- The loop of dump begins with slot 0, wherever the oldest record is. -/
theorem sysDump_eq_lastRecord {rs : List Text} (hr : ∀ t ∈ rs, IsRecord t)
    (hle : NTRACE ≤ rs.length) :
    sysDump (addAll rs) = List.ofFn fun i => lastRecord rs (i - Fin.ofNat NTRACE rs.length) := by
  rw [sysDump, List.ofFn_eq_map]
  refine List.map_congr_left fun i _ => ?_
  generalize hj : rs.length - NTRACE + (i - Fin.ofNat NTRACE rs.length).val = j
  have hlt : j < rs.length := by omega
  have hslot : i = Fin.ofNat NTRACE j := by
    apply Fin.ext
    rw [← hj]
    simp only [NTRACE, Fin.val_ofNat, Fin.sub_def] at hle ⊢
    omega
  have hrec := hr _ (List.getElem_mem hlt)
  rw [lastRecord, hj, List.getD_eq_getElem _ _ hlt]
  conv_lhs => rw [hslot, (addAll_holds hr).recent j _ (List.getElem?_eq_getElem hlt) (by omega)]
  exact slotText_padded hrec.2.1 hrec.2.2

theorem const_of_shift {f : Fin NTRACE → Text} {c : Fin NTRACE} (hc : c ≠ 0)
    (h : ∀ i, f (i - c) = f i) (i : Fin NTRACE) : f i = f 0 := by
  have hreach : ∀ c : Fin NTRACE, c ≠ 0 → ∀ i, ∃ n : Fin 5, (· - c)^[n] i = 0 := by decide
  have hshift : ∀ (n : Nat) i, f ((· - c)^[n] i) = f i := by
    intro n
    induction n with
    | zero => exact fun _ => rfl
    | succ n ih => exact fun i => (ih (i - c)).trans (h i)
  obtain ⟨n, hn⟩ := hreach c hc i
  rw [← hn, hshift]

/-- Dump prints the last records, oldest first and nothing else, just when there are five of them
and either the ring has just been filled to its last slot or they are all the same. -/
theorem dump_in_order_iff {rs : List Text} (hr : ∀ t ∈ rs, IsRecord t) :
    sysDump (addAll rs) = rs.drop (rs.length - NTRACE) ↔
      NTRACE ≤ rs.length ∧
        (NTRACE ∣ rs.length ∨ ∃ t, rs.drop (rs.length - NTRACE) = List.replicate NTRACE t) := by
  by_cases hle : NTRACE ≤ rs.length
  · rw [sysDump_eq_lastRecord hr hle, drop_eq_lastRecord hle, List.ofFn_inj, funext_iff,
      and_iff_right hle]
    constructor
    · intro h
      by_cases hc : Fin.ofNat NTRACE rs.length = 0
      · exact .inl (Nat.dvd_of_mod_eq_zero (congrArg Fin.val hc))
      · refine .inr ⟨lastRecord rs 0, ?_⟩
        rw [← List.ofFn_const, List.ofFn_inj]
        exact funext (const_of_shift hc h)
    · rintro (hdvd | ⟨t, ht⟩) i
      · have hc : Fin.ofNat NTRACE rs.length = 0 := Fin.ext (Nat.mod_eq_zero_of_dvd hdvd)
        have hsub : ∀ i : Fin NTRACE, i - 0 = i := by decide
        rw [hc, hsub]
      · rw [← List.ofFn_const, List.ofFn_inj] at ht
        rw [ht]
  · refine iff_of_false (fun h => hle ?_) fun h => hle h.1
    have hlen := congrArg List.length h
    simp only [sysDump, List.length_map, List.length_finRange, List.length_drop] at hlen
    omega

/-- The records of calls of read in a process. -/
def readRecords (rets : List Int) : Option (List Text) :=
  rets.mapM (straceReturn (fun _ => []) 3 "cat".toList 5)

theorem readRecords_isRecord {rets : List Int} {rs : List Text} (h : readRecords rets = some rs) :
    ∀ t ∈ rs, IsRecord t := by
  induction rets generalizing rs with
  | nil =>
    cases Option.some.inj h
    simp
  | cons v rets ih =>
    rw [readRecords, List.mapM_cons] at h
    obtain ⟨t, ht, h⟩ := Option.bind_eq_some_iff.mp h
    obtain ⟨ts, hts, h⟩ := Option.bind_eq_some_iff.mp h
    cases Option.some.inj h
    intro u hu
    rcases List.mem_cons.mp hu with rfl | hu
    · exact isRecord_straceReturn ht
    · exact ih hts u hu

theorem dump_in_order_iff_read :
    (∃ rs, readRecords [1, 2, 3, 4, 5] = some rs ∧
      sysDump (addAll rs) = rs.drop (rs.length - NTRACE)) ∧
      ∃ rs, readRecords [0, 7, 7, 7, 7, 7] = some rs ∧
        sysDump (addAll rs) = rs.drop (rs.length - NTRACE) := by
  have h5 : readRecords [1, 2, 3, 4, 5] = some ((readRecords [1, 2, 3, 4, 5]).getD []) := by
    decide +kernel
  have h6 : readRecords [0, 7, 7, 7, 7, 7] = some ((readRecords [0, 7, 7, 7, 7, 7]).getD []) := by
    decide +kernel
  refine ⟨⟨_, h5, (dump_in_order_iff (readRecords_isRecord h5)).mpr ⟨?_, .inl ?_⟩⟩,
    _, h6, (dump_in_order_iff (readRecords_isRecord h6)).mpr
      ⟨?_, .inr ⟨((readRecords [7]).getD []).getD 0 [], ?_⟩⟩⟩
  · decide +kernel
  · decide +kernel
  · decide +kernel
  · decide +kernel

/-- Before the first wrap blank lines follow the records, and after it the newest record comes
first. -/
theorem dump_out_of_order :
    ∃ rs, readRecords [1, 2, 3, 4, 5, 6] = some rs ∧ (∀ t ∈ rs, IsRecord t) ∧
      sysDump (addAll rs) = rs.drop 5 ++ (rs.drop 1).take 4 ∧
      sysDump (addAll rs) ≠ rs.drop (rs.length - NTRACE) ∧
      sysDump (addAll (rs.take 1)) = rs.take 1 ++ [[], [], [], []] := by
  have hrs : readRecords [1, 2, 3, 4, 5, 6] = some ((readRecords [1, 2, 3, 4, 5, 6]).getD []) := by
    decide +kernel
  refine ⟨_, hrs, readRecords_isRecord hrs, ?_, ?_, ?_⟩ <;> decide +kernel

end Xv6
