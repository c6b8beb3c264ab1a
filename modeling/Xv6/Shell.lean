import Mathlib.Data.List.Basic
import Mathlib.Data.List.TakeWhile

namespace Xv6

/-- Characters in memory; past the end of the list the buffer is zero. -/
abbrev Text : Type := List Char

def nul : Char := '\x00'

/-- The C string at a pointer. -/
def cstr (s : Text) : Text := s.takeWhile fun c => c ≠ nul

theorem cstr_eq {t : Text} (h : nul ∉ t) : cstr t = t := by
  rw [cstr, List.takeWhile_eq_self_iff]
  intro c hc
  have hne : c ≠ nul := fun he => h (he ▸ hc)
  simpa using hne

def strlen (s : Text) : Nat := (cstr s).length

/-- The loop of gets, with n places left before the terminating zero. -/
def gets : Nat → Text → Text
  | 0, _ => []
  | _ + 1, [] => []
  | n + 1, c :: input => if c = '\n' ∨ c = '\r' then [c] else c :: gets n input

/-- buf is cleared first, so what gets leaves is followed by zeros. -/
def getcmd (input : Text) : Text := gets 99 input

/-- The second string ends in a newline, so the loop stops within it. -/
def streq : Text → Text → Bool
  | _, [] => false
  | s1, c :: s2 => if s1.headD nul ≠ c then false else if c = '\n' then true else streq s1.tail s2

/-- buf[0] == p[0] && buf[1] == p[1] && ... -/
def looking (buf : Text) (p : String) : Bool := p.toList.isPrefixOf buf

def straceRun : String := "strace on\n"
def unstraceRun : String := "strace off\n"
def straceDump : String := "strace dump\n"

def syscallNames : List String :=
  ["fork", "exit", "wait", "pipe", "read", "kill", "exec", "fstat", "chdir", "dup", "getpid",
    "sbrk", "sleep",
    "uptime", "open", "write", "mknod", "unlink", "link", "mkdir", "close", "trace"]

/-- The text after the option goes into 20 bytes; none when it writes past them. -/
def parseSyscallN (buf : Text) (start : Nat) : Option Int :=
  let syscallCmd := (buf.take (strlen buf - 1)).drop start
  if syscallCmd.length ≤ 20 then
    some (syscallNames.zipIdx.foldl (fun syscallIndex (name, i) =>
      if cstr syscallCmd = name.toList then (i : Int) else syscallIndex) (-1))
  else none

/-- The shell's globals and the two variables of main. -/
structure Shell where
  stracing : Bool
  dumping : Bool
  straceRunning : Bool
  straceFlag : Bool
deriving DecidableEq, Repr

def Shell.start : Shell := ⟨false, false, false, false⟩

/-- What the shell has done: run is runcmd(parsecmd(text)) in a forked child. -/
inductive ShellAction where
  | chdir (path : Text)
  | run (text : Text) (stracing : Bool)
  | eflag (syscallIndex : Int)
  | sflag (n : Nat)
  | fflag (n : Nat)
deriving DecidableEq, Repr

/-- A function of the shell returns 0, or returns 1 having acted, or does not return: fork1 has
panicked or memory has been overwritten. -/
inductive ShellReply where
  | gone
  | passed
  | handled (sh : Shell) (acts : List ShellAction)

/-- One round of main's loop: what read(0) delivers and whether a fork would succeed. -/
structure ShellInput where
  input : Text
  forks : Bool

def Shell.fork1 (sh : Shell) (forks : Bool) (text : Text) (after : Shell) : ShellReply :=
  if forks then .handled after [.run (cstr text) sh.stracing] else .gone

def Shell.straceRCommands (sh : Shell) (forks : Bool) (buf : Text) : ShellReply :=
  if streq buf straceRun.toList then .handled { sh with stracing := true } []
  else if streq buf unstraceRun.toList then .handled { sh with stracing := false } []
  else if sh.dumping ∨ streq buf straceDump.toList then
    sh.fork1 forks (buf.drop 7) { sh with dumping := false }
  else .passed

/-- One of the options that name a call: the flags set before eflag, then the call. -/
def Shell.setFlags (sh : Shell) (flags : List ShellAction) : Option Int → ShellReply
  | some syscallIndex =>
    .handled { sh with stracing := true, straceFlag := true } (flags ++ [.eflag syscallIndex])
  | none => .gone

def Shell.straceOCommands (sh : Shell) (buf : Text) : ShellReply :=
  if looking buf "strace -e " then sh.setFlags [] (parseSyscallN buf 10)
  else if looking buf "strace -s -e " then sh.setFlags [.sflag 1] (parseSyscallN buf 13)
  else if looking buf "strace -f -e " then sh.setFlags [.fflag 1] (parseSyscallN buf 13)
  else if looking buf "strace -s" then .handled { sh with stracing := true, straceFlag := true }
    [.sflag 1]
  else if looking buf "strace -f" then .handled { sh with stracing := true, straceFlag := true }
    [.fflag 1]
  else .passed

def Shell.straceRMode (sh : Shell) (forks : Bool) (buf : Text) : ShellReply :=
  if sh.straceRunning ∨ looking buf "strace run " then
    let sh := { sh with stracing := true, straceRunning := true }
    sh.fork1 forks (buf.drop 11) sh
  else .passed

def Shell.reset (sh : Shell) : Shell :=
  let sh := if sh.straceFlag then { sh with stracing := false } else { sh with straceFlag := false }
  if sh.straceRunning then { sh with stracing := false } else { sh with straceRunning := false }

/-- The end of the loop's body, for a line that no strace function has handled. -/
def Shell.runLine (sh : Shell) (forks : Bool) (buf : Text) : ShellReply :=
  if sh.straceRunning then .handled sh.reset [] else sh.fork1 forks buf sh.reset

/-- The first function that does not return 0 decides. -/
def ShellReply.orElse : ShellReply → ShellReply → ShellReply
  | .passed, r => r
  | r, _ => r

/-- The body of main's loop for a line that is not a cd line. -/
def Shell.dispatch (sh : Shell) (forks : Bool) (buf : Text) : ShellReply :=
  (sh.straceRCommands forks buf).orElse ((sh.straceOCommands buf).orElse
    ((sh.straceRMode forks buf).orElse (sh.runLine forks buf)))

def ShellReply.back : ShellReply → Option (Shell × List ShellAction)
  | .handled sh acts => some (sh, acts)
  | _ => none

/-- One round of main's loop; none when the shell is not back at its prompt. -/
def Shell.main (sh : Shell) (i : ShellInput) : Option (Shell × List ShellAction) :=
  let buf := getcmd i.input
  if buf.headD nul = nul then none
  else if looking buf "cd " then some (sh, [.chdir (cstr ((buf.take (strlen buf - 1)).drop 3))])
  else (sh.dispatch i.forks buf).back

/-- The rounds of main's loop, with what each of them does. -/
def Shell.session : Shell → List ShellInput → Option (List (List ShellAction))
  | _, [] => some []
  | sh, i :: is => do
    let (sh, acts) ← sh.main i
    let rest ← sh.session is
    return acts :: rest

end Xv6
