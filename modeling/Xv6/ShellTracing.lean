import Xv6.ShellLines

namespace Xv6

inductive LineKind
  | cd | on | off | dump | option | run | ordinary
  deriving DecidableEq, Repr

def straceOptions : List String :=
  ["strace -e ", "strace -s -e ", "strace -f -e ", "strace -s", "strace -f"]

def Line.IsOption (l : Line) : Prop := ∃ p ∈ straceOptions, p.toList <+: l.text

instance (l : Line) : Decidable l.IsOption := inferInstanceAs (Decidable (∃ _ ∈ _, _))

/-- What the user means by a line. -/
def Line.kind (l : Line) : LineKind :=
  if "cd ".toList <+: l.text then .cd
  else if l.text = "strace on".toList then .on
  else if l.text = "strace off".toList then .off
  else if l.text = "strace dump".toList then .dump
  else if l.IsOption then .option
  else if l.IsRun then .run
  else .ordinary

/-- The mode set by the last strace on or strace off, and whether option lines have been entered
since the last command. The last two fields record that an option line and a strace run line have
been entered at all. -/
structure TraceMode where
  on : Bool
  pending : Bool
  optioned : Bool
  ran : Bool
  deriving DecidableEq, Repr

def TraceMode.start : TraceMode := ⟨false, false, false, false⟩

def TraceMode.next (m : TraceMode) : LineKind → TraceMode
  | .on => { m with on := true }
  | .off => { m with on := false }
  | .option => { m with pending := true, optioned := true }
  | .run => { m with pending := false, ran := true }
  | .ordinary => { m with pending := false }
  | .cd | .dump => m

/-- The lines with the mode in which each is entered. -/
def TraceMode.along : TraceMode → List Line → List (TraceMode × Line)
  | _, [] => []
  | m, l :: ls => (m, l) :: (m.next l.kind).along ls

/-- The values of stracing with which the commands of a round run. -/
def runFlags (acts : List ShellAction) : List Bool :=
  acts.filterMap fun
    | .run _ stracing => some stracing
    | _ => none

/-- The round ran its command with tracing as the mode asks for. -/
def RunsTraced (e : TraceMode × Line) (acts : List ShellAction) : Prop :=
  match e.2.kind with
  | .ordinary => runFlags acts = [e.1.on || e.1.pending]
  | .run => runFlags acts = [true]
  | _ => True

/-- No ordinary line comes after a strace run line, nor in the mode on once an option line has
been entered, and no strace off comes between an option line and the command it is for. -/
def TraceMode.Allows (m : TraceMode) : LineKind → Prop
  | .ordinary => m.ran = false ∧ (m.on = true → m.optioned = false)
  | .off => m.pending = false
  | _ => True

instance (m : TraceMode) (c : LineKind) : Decidable (m.Allows c) := by
  cases c <;> unfold TraceMode.Allows <;> infer_instance

/-- The shell's variables say what the mode says, until the first strace run line. -/
def Shell.Agrees (sh : Shell) (m : TraceMode) : Prop :=
  sh.dumping = false ∧ (m.ran = false →
    sh.straceRunning = false ∧ sh.stracing = (m.on || m.pending) ∧ sh.straceFlag = m.optioned) ∧
    (m.pending = true → m.optioned = true)

variable {l : Line} {sh sh' : Shell} {m : TraceMode} {acts : List ShellAction}

theorem not_prefix_of_prefix {p w t : Text} (hp : p <+: t) (h : ¬ p <+: w ∧ ¬ w <+: p) :
    ¬ w <+: t := by
  intro hw
  rcases List.prefix_or_prefix_of_prefix hp hw with h' | h'
  · exact h.1 h'
  · exact h.2 h'

theorem Line.IsOption.not_prefix (h : l.IsOption) {w : String}
    (hw : w ∈ ["cd ", "strace on", "strace off", "strace dump"]) :
    ¬ w.toList <+: l.text := by
  obtain ⟨p, hp, hpre⟩ := h
  have hdiffer : ∀ p ∈ straceOptions, ∀ w ∈ ["cd ", "strace on", "strace off", "strace dump"],
      ¬ p.toList <+: w.toList ∧ ¬ w.toList <+: p.toList := by decide
  exact not_prefix_of_prefix hpre (hdiffer p hp w hw)

theorem Shell.main_on (h : l.text = "strace on".toList) :
    sh.main l.typed = some ({ sh with stracing := true }, []) := by
  have hcd : ¬ "cd ".toList <+: l.text := by
    rw [h]
    decide
  have heq : streq l.buf straceRun.toList = true := by
    rw [straceRun_toList]
    exact (Line.streq_buf (by decide)).2 h
  rw [Shell.main_typed, if_neg hcd, Shell.dispatch, Shell.straceRCommands, if_pos heq]
  rfl

theorem Shell.main_off (h : l.text = "strace off".toList) :
    sh.main l.typed = some ({ sh with stracing := false }, []) := by
  have hcd : ¬ "cd ".toList <+: l.text := by
    rw [h]
    decide
  have hne : ¬ streq l.buf straceRun.toList = true := by
    rw [straceRun_toList, Line.streq_buf (by decide), h]
    decide
  have heq : streq l.buf unstraceRun.toList = true := by
    rw [unstraceRun_toList]
    exact (Line.streq_buf (by decide)).2 h
  rw [Shell.main_typed, if_neg hcd, Shell.dispatch, Shell.straceRCommands, if_neg hne, if_pos heq]
  rfl

theorem Shell.main_dump (hd : sh.dumping = false) (h : l.text = "strace dump".toList) :
    ∃ acts, sh.main l.typed = some (sh, acts) := by
  have hcd : ¬ "cd ".toList <+: l.text := by
    rw [h]
    decide
  have hon : ¬ streq l.buf straceRun.toList = true := by
    rw [straceRun_toList, Line.streq_buf (by decide), h]
    decide
  have hoff : ¬ streq l.buf unstraceRun.toList = true := by
    rw [unstraceRun_toList, Line.streq_buf (by decide), h]
    decide
  have heq : streq l.buf straceDump.toList = true := by
    rw [straceDump_toList]
    exact (Line.streq_buf (by decide)).2 h
  rw [Shell.main_typed, if_neg hcd, Shell.dispatch, Shell.straceRCommands, if_neg hon, if_neg hoff,
    if_pos (Or.inr heq)]
  have hsame : { sh with dumping := false } = sh := by
    rw [← hd]
  rw [hsame]
  exact ⟨_, rfl⟩

theorem Shell.straceOCommands_handled (sh : Shell) (hfit : l.NameFits) (ho : l.IsOption) :
    ∃ acts, sh.straceOCommands l.buf =
      .handled { sh with stracing := true, straceFlag := true } acts ∧
      runFlags acts = [] := by
  unfold Shell.straceOCommands
  split
  next h =>
    obtain ⟨n, hn⟩ := Shell.setFlags_handled sh [] 10 (hfit "strace -e " (by simp)) (by decide)
      (by decide) h
    exact ⟨_, hn, rfl⟩
  next he =>
    split
    next h =>
      obtain ⟨n, hn⟩ := Shell.setFlags_handled sh [.sflag 1] 13 (hfit "strace -s -e " (by simp)) (by decide)
        (by decide) h
      exact ⟨_, hn, rfl⟩
    next hse =>
      split
      next h =>
        obtain ⟨n, hn⟩ := Shell.setFlags_handled sh [.fflag 1] 13 (hfit "strace -f -e " (by simp)) (by decide)
          (by decide) h
        exact ⟨_, hn, rfl⟩
      next hfe =>
        split
        · exact ⟨_, rfl, rfl⟩
        next hs =>
          split
          · exact ⟨_, rfl, rfl⟩
          next hf =>
            obtain ⟨p, hp, hpre⟩ := ho
            simp only [straceOptions, List.mem_cons, List.not_mem_nil, or_false] at hp
            rcases hp with rfl | rfl | rfl | rfl | rfl
            · exact absurd ((Line.looking_buf (by decide)).2 hpre) he
            · exact absurd ((Line.looking_buf (by decide)).2 hpre) hse
            · exact absurd ((Line.looking_buf (by decide)).2 hpre) hfe
            · exact absurd ((Line.looking_buf (by decide)).2 hpre) hs
            · exact absurd ((Line.looking_buf (by decide)).2 hpre) hf

theorem Shell.main_option (hd : sh.dumping = false) (hfit : l.NameFits) (ho : l.IsOption) :
    ∃ acts, sh.main l.typed = some ({ sh with stracing := true, straceFlag := true }, acts) := by
  have hR : sh.straceRCommands true l.buf = .passed := by
    refine Shell.straceRCommands_passed hd fun w hw he => ?_
    exact ho.not_prefix (w := w) (by simp only [List.mem_cons] at hw ⊢; tauto)
      (he ▸ List.prefix_refl _)
  obtain ⟨acts, hO, -⟩ := Shell.straceOCommands_handled sh hfit ho
  rw [Shell.main_typed, if_neg (ho.not_prefix (by simp)), Shell.dispatch, hR, hO]
  exact ⟨acts, rfl⟩

theorem Shell.main_ordinary (hd : sh.dumping = false) (hr : sh.straceRunning = false)
    (hk : l.kind = .ordinary) :
    sh.main l.typed = some (sh.reset, [.run l.buf sh.stracing]) := by
  unfold Line.kind at hk
  repeat' split at hk
  all_goals first | exact absurd hk (by decide) | skip
  next hcd hon hoff hdump hopt hrun =>
    have hR : sh.straceRCommands true l.buf = .passed := by
      refine Shell.straceRCommands_passed hd fun w hw => ?_
      simp only [List.mem_cons, List.not_mem_nil, or_false] at hw
      rcases hw with rfl | rfl | rfl
      · exact hon
      · exact hoff
      · exact hdump
    have hO := Shell.straceOCommands_passed sh (l := l) fun p hp hpre => hopt ⟨p, hp, hpre⟩
    have hlook : looking l.buf "strace run " = false := by
      rw [Bool.eq_false_iff, ne_eq, Line.looking_buf (by decide)]
      exact hrun
    rw [Shell.main_typed, if_neg hcd, Shell.dispatch, hR, hO]
    simp [ShellReply.orElse, Shell.straceRMode, hr, hlook, Shell.runLine, Shell.fork1, l.cstr_buf,
      ShellReply.back]

theorem Line.kind_run (hk : l.kind = .run) : ∃ c, l.text = "strace run ".toList ++ c := by
  unfold Line.kind at hk
  repeat' split at hk
  all_goals first | exact absurd hk (by decide) | skip
  next hrun =>
    obtain ⟨c, hc⟩ := hrun
    exact ⟨c, hc.symm⟩

theorem Shell.reset_agrees (hs : sh.Agrees m) (hallow : m.Allows .ordinary) :
    sh.reset.Agrees (m.next .ordinary) := by
  obtain ⟨hd, hmode, hpending⟩ := hs
  obtain ⟨hran, hon⟩ := hallow
  obtain ⟨hr, hst, hf⟩ := hmode hran
  refine ⟨?_, fun _ => ?_, by simp [TraceMode.next]⟩
  · simp [Shell.reset, hr, hf, apply_ite Shell.dumping, hd]
  · cases hopt : m.optioned with
    | true =>
      have hoff : m.on = false := by
        by_contra h
        simp [hon (by simpa using h)] at hopt
      simp [Shell.reset, hr, hf, hopt, TraceMode.next, hoff]
    | false =>
      have hnone : m.pending = false := by
        by_contra h
        simp [hpending (by simpa using h)] at hopt
      simp [Shell.reset, hr, hf, hopt, TraceMode.next, hst, hnone]

/-- A line that the mode allows is run as the mode asks for, and the shell agrees with the new mode.
-/
theorem Shell.main_agrees (hs : sh.Agrees m) (hfit : l.NameFits) (hallow : m.Allows l.kind) :
    ∃ sh' acts, sh.main l.typed = some (sh', acts) ∧ sh'.Agrees (m.next l.kind) ∧
      RunsTraced (m, l) acts := by
  have hd := hs.1
  by_cases hcd : "cd ".toList <+: l.text
  · have hk : l.kind = .cd := by simp only [Line.kind, if_pos hcd]
    rw [Shell.main_typed, if_pos hcd]
    exact ⟨sh, _, rfl, by rw [hk]; exact hs, by simp [RunsTraced, hk]⟩
  by_cases hon : l.text = "strace on".toList
  · have hk : l.kind = .on := by simp only [Line.kind, if_neg hcd, if_pos hon]
    refine ⟨_, _, Shell.main_on hon, ?_, by simp [RunsTraced, hk]⟩
    rw [hk]
    exact ⟨hd, fun hran => ⟨(hs.2.1 hran).1, rfl, (hs.2.1 hran).2.2⟩, hs.2.2⟩
  by_cases hoff : l.text = "strace off".toList
  · have hk : l.kind = .off := by simp only [Line.kind, if_neg hcd, if_neg hon, if_pos hoff]
    rw [hk] at hallow
    refine ⟨_, _, Shell.main_off hoff, ?_, by simp [RunsTraced, hk]⟩
    rw [hk]
    refine ⟨hd, fun hran => ⟨(hs.2.1 hran).1, ?_, (hs.2.1 hran).2.2⟩, hs.2.2⟩
    have hnone : m.pending = false := hallow
    simp [TraceMode.next, hnone]
  by_cases hdump : l.text = "strace dump".toList
  · have hk : l.kind =
      .dump := by simp only [Line.kind, if_neg hcd, if_neg hon, if_neg hoff, if_pos hdump]
    obtain ⟨acts, hmain⟩ := Shell.main_dump hd hdump
    exact ⟨sh, acts, hmain, by rw [hk]; exact hs, by simp [RunsTraced, hk]⟩
  by_cases hopt : l.IsOption
  · have hk : l.kind = .option := by
      simp only [Line.kind, if_neg hcd, if_neg hon, if_neg hoff, if_neg hdump, if_pos hopt]
    obtain ⟨acts, hmain⟩ := Shell.main_option hd hfit hopt
    refine ⟨_, acts, hmain, ?_, by simp [RunsTraced, hk]⟩
    rw [hk]
    exact ⟨hd, fun hran => ⟨(hs.2.1 hran).1, by simp [TraceMode.next], rfl⟩, fun _ => rfl⟩
  by_cases hrun : l.IsRun
  · have hk : l.kind = .run := by
      simp only [Line.kind, if_neg hcd, if_neg hon, if_neg hoff, if_neg hdump, if_neg hopt, if_pos hrun]
    obtain ⟨c, hc⟩ := Line.kind_run hk
    refine ⟨_, _, Shell.main_run hd hc, ?_, by simp [RunsTraced, hk, runFlags]⟩
    rw [hk]
    exact ⟨hd, fun hran => by simp [TraceMode.next] at hran, by simp [TraceMode.next]⟩
  · have hk : l.kind = .ordinary := by
      simp only [Line.kind, if_neg hcd, if_neg hon, if_neg hoff, if_neg hdump, if_neg hopt, if_neg hrun]
    rw [hk] at hallow ⊢
    obtain ⟨hr, hst, -⟩ := hs.2.1 hallow.1
    refine ⟨_, _, Shell.main_ordinary hd hr hk, Shell.reset_agrees hs hallow, ?_⟩
    simp [RunsTraced, hk, runFlags, hst]

theorem Shell.session_traced {ls : List Line} (hs : sh.Agrees m) (hfit : ∀ l ∈ ls, l.NameFits)
    (hallow : ∀ e ∈ m.along ls, e.1.Allows e.2.kind) :
    ∃ out, sh.session (ls.map Line.typed) = some out ∧
      List.Forall₂ RunsTraced (m.along ls) out := by
  induction ls generalizing sh m with
  | nil => exact ⟨[], rfl, .nil⟩
  | cons l ls ih =>
    obtain ⟨sh', acts, hmain, hs', htraced⟩ :=
      Shell.main_agrees hs (hfit l (by simp)) (hallow (m, l) (by simp [TraceMode.along]))
    obtain ⟨out, hout, hall⟩ :=
      ih hs' (fun k hk => hfit k (by simp [hk])) fun e he => hallow e (by simp [TraceMode.along, he])
    refine ⟨acts :: out, ?_, .cons htraced hall⟩
    simp [Shell.session, hmain, hout]

/-- When every line is allowed in the mode it is entered in, ordinary commands are traced exactly
in the mode on or after option lines, and strace run lines always. -/
theorem tracing_follows_mode {ls : List Line} (hfit : ∀ l ∈ ls, l.NameFits)
    (hallow : ∀ e ∈ TraceMode.start.along ls, e.1.Allows e.2.kind) :
    ∃ out, Shell.start.session (ls.map Line.typed) = some out ∧
      List.Forall₂ RunsTraced (TraceMode.start.along ls) out :=
  Shell.session_traced ⟨rfl, fun _ => ⟨rfl, rfl, rfl⟩, by simp [TraceMode.start]⟩ hfit hallow

def straceOnLine : Line := ⟨"strace on".toList, by decide, by decide⟩

def straceOffLine : Line := ⟨"strace off".toList, by decide, by decide⟩

def straceSLine : Line := ⟨"strace -s".toList, by decide, by decide⟩

theorem tracing_follows_mode_option :
    ∃ out,
      Shell.start.session ([straceOnLine, lsLine, straceOffLine, straceSLine, lsLine,
        lsLine].map Line.typed) = some out ∧
      List.Forall₂ RunsTraced
        (TraceMode.start.along [straceOnLine, lsLine, straceOffLine, straceSLine, lsLine, lsLine]) out :=
  tracing_follows_mode (by decide) (by decide)

/-- An executed command loses the mode on once an option line has been entered, strace off takes
back the option line before it, and a strace run line traces the lines after it. -/
theorem trace_mode_lost :
    (Shell.start.session ([straceOnLine, straceSLine, lsLine, lsLine].map Line.typed)).map
      (List.map runFlags) =
      some [[], [], [true], [false]] ∧
    (TraceMode.start.along [straceOnLine, straceSLine, lsLine, lsLine]).map
      (fun e => e.1.on || e.1.pending) =
      [false, true, true, true] ∧
    (Shell.start.session ([straceSLine, straceOffLine, lsLine].map Line.typed)).map
      (List.map runFlags) =
      some [[], [], [false]] ∧
    (TraceMode.start.along [straceSLine, straceOffLine, lsLine]).map
      (fun e => e.1.on || e.1.pending) =
      [false, true, true] ∧
    (Shell.start.session ([straceRunLs, lsLine].map Line.typed)).map (List.map runFlags) =
      some [[true], [true]] ∧
    (TraceMode.start.along [straceRunLs, lsLine]).map (fun e => e.1.on || e.1.pending) =
      [false, false] := by
  decide +kernel

end Xv6
