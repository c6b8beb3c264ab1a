import Xv6.Shell

namespace Xv6

/-- A line as it can be typed: it fits into buf with its newline. -/
structure Line where
  text : Text
  short : text.length ≤ 98
  clean : '\n' ∉ text ∧ '\r' ∉ text ∧ nul ∉ text

def Line.buf (l : Line) : Text := l.text ++ ['\n']

def Line.typed (l : Line) : ShellInput := ⟨l.buf, true⟩

/-- Neither a cd line nor a strace line. -/
def Line.Plain (l : Line) : Prop := ¬ "cd ".toList <+: l.text ∧ ¬ "strace ".toList <+: l.text

def Line.IsRun (l : Line) : Prop := "strace run ".toList <+: l.text

instance (l : Line) : Decidable l.Plain := inferInstanceAs (Decidable (_ ∧ _))
instance (l : Line) : Decidable l.IsRun := inferInstanceAs (Decidable (_ <+: _))

/-- What follows an option that names a call fits into syscallCmd. -/
def Line.NameFits (l : Line) : Prop :=
  ∀ p ∈ ["strace -e ", "strace -s -e ", "strace -f -e "], p.toList <+: l.text →
    l.text.length ≤ p.toList.length + 20

instance (l : Line) : Decidable l.NameFits := inferInstanceAs (Decidable (∀ _ ∈ _, _))

/-- The texts whose parse the forked children of a round run. -/
def runTexts (acts : List ShellAction) : List Text :=
  acts.filterMap fun
    | .run text _ => some text
    | _ => none

/-- The round ran what was typed. -/
def Line.RunsTyped (l : Line) (acts : List ShellAction) : Prop :=
  (l.Plain → runTexts acts = [l.text ++ ['\n']]) ∧
    ∀ c, l.text = "strace run ".toList ++ c → runTexts acts = [c ++ ['\n']]

variable {l : Line} {sh sh' : Shell} {acts : List ShellAction}

theorem gets_line {n : Nat} {t : Text} (hn : t.length < n) (hnl : '\n' ∉ t) (hcr : '\r' ∉ t) :
    gets n (t ++ ['\n']) = t ++ ['\n'] := by
  induction t generalizing n with
  | nil =>
    obtain ⟨m, rfl⟩ := Nat.exists_eq_succ_of_ne_zero (Nat.ne_of_gt hn)
    simp [gets]
  | cons c t ih =>
    obtain ⟨m, rfl⟩ := Nat.exists_eq_succ_of_ne_zero (Nat.ne_of_gt (Nat.zero_lt_of_lt hn))
    rw [List.mem_cons, not_or] at hnl hcr
    have hrest := ih (n := m) (by simpa using hn) hnl.2 hcr.2
    simp [gets, Ne.symm hnl.1, Ne.symm hcr.1, hrest]

theorem Line.getcmd_buf (l : Line) : getcmd l.buf = l.buf :=
  gets_line (Nat.lt_succ_of_le l.short) l.clean.1 l.clean.2.1

theorem Line.nul_notMem_buf (l : Line) : nul ∉ l.buf := by
  rw [Line.buf, List.mem_append, not_or]
  exact ⟨l.clean.2.2, by decide⟩

theorem Line.cstr_drop (l : Line) (n : Nat) : cstr (l.buf.drop n) = l.buf.drop n :=
  cstr_eq fun h => l.nul_notMem_buf (List.mem_of_mem_drop h)

theorem Line.cstr_buf (l : Line) : cstr l.buf = l.buf := l.cstr_drop 0

theorem Line.strlen_buf (l : Line) : strlen l.buf = l.text.length + 1 := by
  rw [strlen, l.cstr_buf]
  simp [Line.buf]

theorem Line.buf_head (l : Line) : l.buf.headD nul ≠ nul := by
  intro h
  cases hl : l.text with
  | nil =>
    rw [Line.buf, hl] at h
    exact absurd h (by decide)
  | cons c t =>
    have hc : c = nul := by simpa [Line.buf, hl] using h
    exact l.clean.2.2 (by simp [hl, hc])

theorem streq_line {t w : Text} (ht : '\n' ∉ t) (hw : '\n' ∉ w) :
    streq (t ++ ['\n']) (w ++ ['\n']) = true ↔ t = w := by
  induction w generalizing t with
  | nil =>
    cases t with
    | nil => simp [streq]
    | cons c t =>
      rw [List.mem_cons, not_or] at ht
      simp [streq, Ne.symm ht.1]
  | cons d w ih =>
    rw [List.mem_cons, not_or] at hw
    cases t with
    | nil => simp [streq, hw.1]
    | cons c t =>
      rw [List.mem_cons, not_or] at ht
      by_cases hcd : c = d
      · subst hcd
        simpa [streq, Ne.symm hw.1] using ih ht.2 hw.2
      · simp [streq, hcd]

theorem Line.streq_buf {w : Text} (hw : '\n' ∉ w) : streq l.buf (w ++ ['\n']) = true ↔ l.text = w :=
  streq_line l.clean.1 hw

theorem Line.looking_buf {p : String} (hp : '\n' ∉ p.toList) :
    looking l.buf p = true ↔ p.toList <+: l.text := by
  rw [looking, List.isPrefixOf_iff_prefix, Line.buf, List.prefix_concat_iff]
  exact or_iff_right fun h => hp (by simp [h])

theorem straceRun_toList : straceRun.toList = "strace on".toList ++ ['\n'] := by decide

theorem unstraceRun_toList : unstraceRun.toList = "strace off".toList ++ ['\n'] := by decide

theorem straceDump_toList : straceDump.toList = "strace dump".toList ++ ['\n'] := by decide

theorem Shell.main_typed (sh : Shell) (l : Line) :
    sh.main l.typed = if "cd ".toList <+: l.text then some (sh, [.chdir (cstr (l.text.drop 3))])
      else (sh.dispatch true l.buf).back := by
  have htake : l.buf.take (strlen l.buf - 1) = l.text := by
    rw [l.strlen_buf]
    simp [Line.buf]
  simp only [Shell.main, Line.typed, l.getcmd_buf, if_neg l.buf_head, htake]
  exact if_congr (Line.looking_buf (by decide)) rfl rfl

theorem Shell.straceRCommands_passed (hd : sh.dumping = false)
    (h : ∀ w ∈ ["strace on", "strace off", "strace dump"], l.text ≠ w.toList) :
    sh.straceRCommands true l.buf = .passed := by
  have hword : ∀ w ∈ ["strace on", "strace off", "strace dump"], '\n' ∉ w.toList →
      streq l.buf (w.toList ++ ['\n']) = false := by
    intro w hw hn
    rw [Bool.eq_false_iff, ne_eq, Line.streq_buf hn]
    exact h w hw
  rw [Shell.straceRCommands, straceRun_toList, unstraceRun_toList, straceDump_toList,
    hword _ (by simp) (by decide), hword _ (by simp) (by decide), hword _ (by simp) (by decide)]
  simp [hd]

theorem Shell.straceOCommands_passed (sh : Shell)
    (h : ∀ p ∈ ["strace -e ", "strace -s -e ", "strace -f -e ", "strace -s", "strace -f"],
      ¬ p.toList <+: l.text) :
    sh.straceOCommands l.buf = .passed := by
  have hlook : ∀ p ∈ ["strace -e ", "strace -s -e ", "strace -f -e ", "strace -s", "strace -f"],
      '\n' ∉ p.toList →
      looking l.buf p = false := by
    intro p hp hn
    rw [Bool.eq_false_iff, ne_eq, Line.looking_buf hn]
    exact h p hp
  rw [Shell.straceOCommands, hlook _ (by simp) (by decide), hlook _ (by simp) (by decide),
    hlook _ (by simp) (by decide), hlook _ (by simp) (by decide), hlook _ (by simp) (by decide)]
  simp

theorem Shell.dispatch_of_not_strace (hd : sh.dumping = false)
    (hl : ¬ "strace ".toList <+: l.text) :
    sh.dispatch true l.buf = if sh.straceRunning then sh.straceRMode true l.buf
      else sh.runLine true l.buf := by
  have hwords : ∀ w ∈ ["strace on", "strace off", "strace dump", "strace -e ", "strace -s -e ",
    "strace -f -e ",
      "strace -s", "strace -f", "strace run "], "strace ".toList <+: w.toList := by decide
  have hR := Shell.straceRCommands_passed (l := l) hd fun w hw he =>
    hl (he ▸ hwords w (List.mem_of_mem_take (i := 3) hw))
  have hO := Shell.straceOCommands_passed sh (l := l) fun p hp he =>
    hl ((hwords p (List.mem_of_mem_drop (i := 3) (List.mem_append_left ["strace run "] hp))).trans
      he)
  have hrun : looking l.buf "strace run " = false := by
    rw [Bool.eq_false_iff, ne_eq, Line.looking_buf (by decide)]
    exact fun h => hl ((hwords _ (by simp)).trans h)
  rw [Shell.dispatch, hR, hO]
  split
  next hr => simp [ShellReply.orElse, Shell.straceRMode, hr, Shell.fork1]
  next hr => simp [ShellReply.orElse, Shell.straceRMode, hr, hrun]

theorem Shell.main_plain (hd : sh.dumping = false) (hr : sh.straceRunning = false) (hp : l.Plain) :
    sh.main l.typed = some (sh.reset, [.run l.buf sh.stracing]) := by
  rw [Shell.main_typed, if_neg hp.1, Shell.dispatch_of_not_strace hd hp.2]
  simp [hr, Shell.runLine, Shell.fork1, l.cstr_buf, ShellReply.back]

theorem Shell.main_run {c : Text} (hd : sh.dumping = false)
    (hc : l.text = "strace run ".toList ++ c) :
    sh.main l.typed = some ({ sh with stracing := true, straceRunning := true },
      [.run (c ++ ['\n']) true]) := by
  have hdiffer : ∀ p ∈ ["cd ", "strace on", "strace off", "strace dump", "strace -e ",
    "strace -s -e ", "strace -f -e ",
      "strace -s", "strace -f"], ¬ p.toList <+: "strace run ".toList ∧
        ¬ "strace run ".toList <+: p.toList := by decide
  have hother : ∀ p ∈ ["cd ", "strace on", "strace off", "strace dump", "strace -e ",
      "strace -s -e ", "strace -f -e ", "strace -s", "strace -f"], ¬ p.toList <+: l.text := by
    intro p hp h
    rw [hc] at h
    obtain ⟨hp1, hp2⟩ := hdiffer p hp
    rcases List.prefix_or_prefix_of_prefix h (List.prefix_append _ _) with h | h
    · exact hp1 h
    · exact hp2 h
  have hR := Shell.straceRCommands_passed (l := l) hd fun w hw he =>
    hother w (List.mem_cons_of_mem _ (List.mem_of_mem_take (i := 3) hw)) (he ▸ List.prefix_refl _)
  have hO := Shell.straceOCommands_passed sh (l := l) fun p hp =>
    hother p (List.mem_of_mem_drop (i := 4) hp)
  have hrun : looking l.buf "strace run " = true := by
    rw [Line.looking_buf (by decide), hc]
    exact List.prefix_append _ _
  have hdrop : l.buf.drop 11 = c ++ ['\n'] := by
    rw [Line.buf, hc, List.append_assoc]
    exact List.drop_left' (by decide)
  have hcstr : cstr (c ++ ['\n']) = c ++ ['\n'] := hdrop ▸ l.cstr_drop 11
  rw [Shell.main_typed, if_neg (hother "cd " (by simp)), Shell.dispatch, hR, hO]
  simp [ShellReply.orElse, Shell.straceRMode, hrun, Shell.fork1, hdrop, hcstr, ShellReply.back]

/-- No dump goes on, and the run mode is entered on a run line only. -/
def Shell.Follows (sh : Shell) (l : Line) (sh' : Shell) : Prop :=
  sh'.dumping = false ∧ (sh'.straceRunning = true → sh.straceRunning = true ∨ l.IsRun)

def ShellReply.Keeps (sh : Shell) (l : Line) : ShellReply → Prop
  | .gone => False
  | .passed => True
  | .handled sh' _ => sh.Follows l sh'

theorem ShellReply.Keeps.orElse {r r' : ShellReply} (h : r.Keeps sh l)
    (h' : ∃ sh' acts, r' = .handled sh' acts ∧ sh.Follows l sh') :
    ∃ sh' acts, r.orElse r' = .handled sh' acts ∧ sh.Follows l sh' := by
  cases r with
  | gone => exact absurd h id
  | passed => exact h'
  | handled sh' acts => exact ⟨sh', acts, rfl, h⟩

theorem Shell.straceRCommands_keeps (hd : sh.dumping = false) :
    (sh.straceRCommands true l.buf).Keeps sh l := by
  unfold Shell.straceRCommands Shell.fork1
  split
  · exact ⟨hd, Or.inl⟩
  · split
    · exact ⟨hd, Or.inl⟩
    · split
      · exact ⟨rfl, Or.inl⟩
      · trivial

theorem Shell.setFlags_handled (sh : Shell) (flags : List ShellAction) {p : String} (start : Nat)
    (hfit : p.toList <+: l.text → l.text.length ≤ p.toList.length + 20)
    (hp : p.toList.length = start) (hn : '\n' ∉ p.toList) (hlook : looking l.buf p = true) :
    ∃ n, sh.setFlags flags (parseSyscallN l.buf start) =
      .handled { sh with stracing := true, straceFlag := true } (flags ++ [.eflag n]) := by
  have hlen : ((l.buf.take (strlen l.buf - 1)).drop start).length ≤ 20 := by
    have hshort := hfit ((Line.looking_buf hn).1 hlook)
    rw [l.strlen_buf]
    simp only [Line.buf, List.length_drop, List.length_take, List.length_append,
      List.length_singleton]
    omega
  rw [parseSyscallN, if_pos hlen]
  exact ⟨_, rfl⟩

theorem Shell.setFlags_keeps {flags : List ShellAction} {p : String} {start : Nat}
    (hd : sh.dumping = false) (hfit : p.toList <+: l.text → l.text.length ≤ p.toList.length + 20)
    (hp : p.toList.length = start) (hn : '\n' ∉ p.toList) (hlook : looking l.buf p = true) :
    (sh.setFlags flags (parseSyscallN l.buf start)).Keeps sh l := by
  obtain ⟨n, he⟩ := Shell.setFlags_handled sh flags start hfit hp hn hlook
  rw [he]
  exact ⟨hd, Or.inl⟩

theorem Shell.straceOCommands_keeps (hd : sh.dumping = false) (hfit : l.NameFits) :
    (sh.straceOCommands l.buf).Keeps sh l := by
  unfold Shell.straceOCommands
  split
  next h => exact Shell.setFlags_keeps hd (hfit "strace -e " (by simp)) (by decide) (by decide) h
  next =>
    split
    next h => exact Shell.setFlags_keeps hd (hfit "strace -s -e " (by simp)) (by decide) (by decide) h
    next =>
      split
      next h => exact Shell.setFlags_keeps hd (hfit "strace -f -e " (by simp)) (by decide) (by decide) h
      next =>
        split
        · exact ⟨hd, Or.inl⟩
        · split
          · exact ⟨hd, Or.inl⟩
          · trivial

theorem Shell.straceRMode_keeps (hd : sh.dumping = false) :
    (sh.straceRMode true l.buf).Keeps sh l := by
  unfold Shell.straceRMode Shell.fork1
  split
  next h => exact ⟨hd, fun _ => h.imp_right (Line.looking_buf (by decide)).1⟩
  next => trivial

theorem Shell.runLine_follows (hd : sh.dumping = false) :
    ∃ sh' acts, sh.runLine true l.buf = .handled sh' acts ∧ sh.Follows l sh' := by
  have hreset : sh.Follows l sh.reset := by
    rcases sh with ⟨stracing, dumping, straceRunning, straceFlag⟩
    cases straceRunning <;> cases straceFlag <;> exact ⟨hd, Or.inl⟩
  unfold Shell.runLine Shell.fork1
  split <;> exact ⟨_, _, rfl, hreset⟩

theorem Shell.main_follows (hd : sh.dumping = false) (hfit : l.NameFits) :
    ∃ sh' acts, sh.main l.typed = some (sh', acts) ∧ sh.Follows l sh' := by
  rw [Shell.main_typed]
  split
  · exact ⟨_, _, rfl, hd, Or.inl⟩
  · obtain ⟨sh', acts, hr, hfollow⟩ := (Shell.straceRCommands_keeps hd).orElse
      ((Shell.straceOCommands_keeps hd hfit).orElse
        ((Shell.straceRMode_keeps hd).orElse (Shell.runLine_follows hd)))
    exact ⟨sh', acts, by rw [Shell.dispatch, hr, ShellReply.back], hfollow⟩

theorem Shell.main_runsTyped (hd : sh.dumping = false) (hr : sh.straceRunning = true → ¬ l.Plain)
    (h : sh.main l.typed = some (sh', acts)) : l.RunsTyped acts := by
  constructor
  · intro hp
    rw [Shell.main_plain hd (Bool.eq_false_iff.2 fun ht => hr ht hp)] at h
    · cases Option.some.inj h
      rfl
    · exact hp
  · intro c hc
    rw [Shell.main_run hd hc] at h
    cases Option.some.inj h
    rfl

theorem Shell.session_runsTyped {ls : List Line} (hd : sh.dumping = false)
    (hfit : ∀ l ∈ ls, l.NameFits) (hr : sh.straceRunning = true → ∀ l ∈ ls, ¬ l.Plain)
    (hls : ls.Pairwise fun r l => r.IsRun → ¬ l.Plain) :
    ∃ out, sh.session (ls.map Line.typed) = some out ∧ List.Forall₂ Line.RunsTyped ls out := by
  induction ls generalizing sh with
  | nil => exact ⟨[], rfl, .nil⟩
  | cons l ls ih =>
    obtain ⟨hhead, htail⟩ := List.pairwise_cons.1 hls
    obtain ⟨sh', acts, hmain, hd', hr'⟩ := Shell.main_follows hd (hfit l (by simp))
    obtain ⟨out, hout, hall⟩ := ih hd' (fun m hm => hfit m (by simp [hm]))
      (fun ht m hm => (hr' ht).elim (fun hs => hr hs m (by simp [hm])) fun hrun => hhead m hm hrun) htail
    refine ⟨acts :: out, ?_, .cons
      (Shell.main_runsTyped hd (fun ht => hr ht l (by simp)) hmain) hall⟩
    simp [Shell.session, hmain, hout]

/-- When no plain line comes after a strace run line and the names after -e fit, the shell takes
every line and runs exactly what was typed. -/
theorem shell_runs_what_was_typed {ls : List Line} (hfit : ∀ l ∈ ls, l.NameFits)
    (hls : ls.Pairwise fun r l => r.IsRun → ¬ l.Plain) :
    ∃ out, Shell.start.session (ls.map Line.typed) = some out ∧
      List.Forall₂ Line.RunsTyped ls out :=
  Shell.session_runsTyped rfl hfit (by simp [Shell.start]) hls

def lsLine : Line := ⟨"ls".toList, by decide, by decide⟩

def straceRunLs : Line := ⟨"strace run ls".toList, by decide, by decide⟩

theorem shell_runs_what_was_typed_ls :
    ∃ out, Shell.start.session ([lsLine, straceRunLs].map Line.typed) = some out ∧
      List.Forall₂ Line.RunsTyped [lsLine, straceRunLs] out :=
  shell_runs_what_was_typed (by decide) (by decide)

/-- After a strace run line the shell stays in run mode and runs plain lines from their twelfth
character on. -/
theorem plain_line_cut_after_strace_run :
    lsLine.Plain ∧ (Shell.start.session ([straceRunLs, lsLine].map Line.typed)).map
      (List.map runTexts) =
      some [["ls\n".toList], [[]]] := by
  decide +kernel

end Xv6
