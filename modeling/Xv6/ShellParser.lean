import Xv6.Shell

namespace Xv6

abbrev MAXARGS : Nat := 10

def whitespace : List Char := [' ', '\t', '\r', '\n', '\x0b']
def symbols : List Char := ['<', '|', '>', '&', ';', '(', ')']

/-- A character that the loop of gettoken's last case passes. -/
def isWordChar (c : Char) : Bool := c ∉ whitespace && c ∉ symbols

/-- The loop that passes whitespace. A pointer into the string is the text from there to its end. -/
def skip (s : Text) : Text := s.dropWhile fun c => c ∈ whitespace

/-- The pointers to the first character of a token and to the one after its last. -/
structure Span where
  q : Text
  eq : Text
deriving DecidableEq, Repr

structure Gettoken where
  ret : Char
  span : Span
  rest : Text

/-- The switch of gettoken: the token's character and the pointer after it. -/
def scan : Text → Char × Text
  | [] => (nul, [])
  | c :: s =>
    if c ∈ ['|', '(', ')', ';', '&', '<'] then (c, s)
    else if c = '>' then
      match s with
      | d :: u => if d = '>' then ('+', u) else ('>', s)
      | [] => ('>', s)
    else ('a', (c :: s).dropWhile isWordChar)

def gettoken (s : Text) : Gettoken :=
  { ret := (scan (skip s)).1
    span := ⟨skip s, (scan (skip s)).2⟩
    rest := skip (scan (skip s)).2 }

/-- peek also moves the pointer to skip s. -/
def peek (s : Text) (toks : List Char) : Bool := (skip s).head?.any fun c => c ∈ toks

structure Redir (α : Type) where
  file : α
  mode : Nat
  fd : Nat
deriving DecidableEq, Repr

inductive Cmd (α : Type) where
  | exec (argv : List α)
  | redir (cmd : Cmd α) (r : Redir α)
  | pipe (left right : Cmd α)
  | list (left right : Cmd α)
  | back (cmd : Cmd α)
deriving DecidableEq, Repr

/-- How a function of the parser ends: overrun is a write outside argv and eargv, spent a run that
the given number of calls is not enough for. -/
inductive ParseResult (α : Type) where
  | ok (a : α) (s : Text)
  | panic (msg : String)
  | overrun
  | spent
deriving DecidableEq, Repr

def ParseResult.bind {α β : Type} (r : ParseResult α) (k : α → Text → ParseResult β) :
    ParseResult β :=
  match r with
  | .ok a s => k a s
  | .panic msg => .panic msg
  | .overrun => .overrun
  | .spent => .spent

/-- redircmd around a command, the first redirection innermost. -/
def Cmd.wrap {α : Type} (cmd : Cmd α) (rs : List (Redir α)) : Cmd α := rs.foldl Cmd.redir cmd

def rdonly : Nat := 0
def wronlyCreate : Nat := 0x201

/-- The switch of parseredirs. -/
def redirOf {α : Type} (tok : Char) (file : α) : Redir α :=
  if tok = '<' then ⟨file, rdonly, 0⟩ else ⟨file, wronlyCreate, 1⟩

/-- The redirections that the loop of parseredirs puts around its command. -/
def parseredirs : Nat → Text → ParseResult (List (Redir Span))
  | 0, _ => .spent
  | n + 1, s =>
    if peek s ['<', '>'] then
      let tok := gettoken (skip s)
      let file := gettoken tok.rest
      if file.ret ≠ 'a' then .panic "missing file for redirection"
      else (parseredirs n file.rest).bind fun rs s => .ok (redirOf tok.ret file.span :: rs) s
    else .ok [] (skip s)

/-- The zeros after the last argument go into argv and eargv too. -/
def endargs (argv : List Span) (rs : List (Redir Span)) (s : Text) : ParseResult (Cmd Span) :=
  if argv.length < MAXARGS then .ok ((Cmd.exec argv).wrap rs) s else .overrun

/-- The loop of parseexec: the command's arguments so far, and the redirections around it. -/
def parseargs : Nat → List Span → List (Redir Span) → Text → ParseResult (Cmd Span)
  | 0, _, _, _ => .spent
  | n + 1, argv, rs, s =>
    if peek s ['|', ')', '&', ';'] then endargs argv rs (skip s)
    else
      let tok := gettoken (skip s)
      if tok.ret = nul then endargs argv rs tok.rest
      else if tok.ret ≠ 'a' then .panic "syntax"
      else if MAXARGS ≤ argv.length then .overrun
      else if argv.length + 1 ≥ MAXARGS then .panic "too many args"
      else (parseredirs n tok.rest).bind fun rs' s => parseargs n (argv ++ [tok.span]) (rs ++ rs') s

/-- The loop of parseline. -/
def parsebacks : Nat → Cmd Span → Text → ParseResult (Cmd Span)
  | 0, _, _ => .spent
  | n + 1, cmd, s => if peek s ['&'] then parsebacks n (.back cmd) (gettoken (skip s)).rest
    else .ok cmd (skip s)

mutual

def parseline : Nat → Text → ParseResult (Cmd Span)
  | 0, _ => .spent
  | n + 1, s => (parsepipe n s).bind fun cmd s => (parsebacks n cmd s).bind fun cmd s =>
    if peek s [';'] then (parseline n (gettoken (skip s)).rest).bind fun right s =>
      .ok (.list cmd right) s
    else .ok cmd (skip s)

def parsepipe : Nat → Text → ParseResult (Cmd Span)
  | 0, _ => .spent
  | n + 1, s => (parseexec n s).bind fun cmd s =>
    if peek s ['|'] then (parsepipe n (gettoken (skip s)).rest).bind fun right s =>
      .ok (.pipe cmd right) s
    else .ok cmd (skip s)

def parseexec : Nat → Text → ParseResult (Cmd Span)
  | 0, _ => .spent
  | n + 1, s =>
    if peek s ['('] then parseblock n (skip s)
    else (parseredirs n (skip s)).bind fun rs s => parseargs n [] rs s

def parseblock : Nat → Text → ParseResult (Cmd Span)
  | 0, _ => .spent
  | n + 1, s =>
    if peek s ['('] then
      (parseline n (gettoken (skip s)).rest).bind fun cmd s =>
        if peek s [')'] then
          (parseredirs n (gettoken (skip s)).rest).bind fun rs s => .ok (cmd.wrap rs) s
        else .panic "syntax - missing )"
    else .panic "parseblock"

end

def Redir.map {α β : Type} (f : α → β) (r : Redir α) : Redir β := ⟨f r.file, r.mode, r.fd⟩

def Cmd.map {α β : Type} (f : α → β) : Cmd α → Cmd β
  | .exec argv => .exec (argv.map f)
  | .redir cmd r => .redir (cmd.map f) (r.map f)
  | .pipe left right => .pipe (left.map f) (right.map f)
  | .list left right => .list (left.map f) (right.map f)
  | .back cmd => .back (cmd.map f)

/-- The strings of a command. -/
def Cmd.spans {α : Type} : Cmd α → List α
  | .exec argv => argv
  | .redir cmd r => cmd.spans ++ [r.file]
  | .pipe left right => left.spans ++ right.spans
  | .list left right => left.spans ++ right.spans
  | .back cmd => cmd.spans

/-- The text at a pointer once zeros have been written; a place is known by what is left from it on.
-/
def zeroed (places : List Nat) : Text → Text
  | [] => []
  | c :: s => (if (c :: s).length ∈ places then nul else c) :: zeroed places s

/-- The command with its C strings, once a zero stands after each of them. -/
def nulterminate (cmd : Cmd Span) : Cmd Text :=
  cmd.map fun sp => cstr (zeroed (cmd.spans.map fun sp => sp.eq.length) sp.q)

/-- Four calls for each character are more than the parser makes. -/
def parsecmd (s : Text) : ParseResult (Cmd Text) :=
  (parseline (4 * (cstr s).length + 4) (cstr s)).bind fun cmd rest =>
    if skip rest = [] then .ok (nulterminate cmd) [] else .panic "syntax"

end Xv6
