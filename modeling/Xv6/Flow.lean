import Mathlib.Data.List.Basic
import Xv6.Shell

namespace Xv6

namespace Flow

abbrev maxNodes : Nat := 100

abbrev maxParts : Nat := 10

abbrev nameSize : Nat := 50

abbrev commandLength : Nat := 500

structure Node where
  name : Text := []
  command : Text := []
  errorTo : Text := []
  fileName : Text := []
  inputFile : Bool := false
  outputFile : Bool := false
deriving DecidableEq

structure Pipe where
  name : Text := []
  fromName : Text := []
  toName : Text := []
deriving DecidableEq

structure Concatenation where
  name : Text := []
  partCount : Int := 0
  parts : List Text := List.replicate maxParts []
deriving DecidableEq

/-- The three arrays up to their counts, and the entries behind the counts that are being filled. -/
structure Tables where
  nodes : List Node := []
  node : Node := {}
  pipes : List Pipe := []
  pipe : Pipe := {}
  concatenations : List Concatenation := []
  partIndex : Nat := 0
deriving DecidableEq

/-- Strtok with one delimiter: the token and what is behind its end. -/
def strtok (delim : Char) (s : Text) : Option (Text × Text) :=
  match s.dropWhile fun c => c = delim with
  | [] => none
  | t => some (t.takeWhile fun c => c ≠ delim, (t.dropWhile fun c => c ≠ delim).drop 1)

/-- The value is copied into an array of this size, if there is room for it and its zero. -/
def strcpy (size : Nat) (value : Text) : Option Text :=
  if value.length < size then some value else none

/-- The number that is written at the beginning of a text. -/
def decimal (s : Text) : Int :=
  let number (s : Text) : Int :=
    (s.takeWhile Char.isDigit).foldl (fun n c => n * 10 + (c.toNat - '0'.toNat)) 0
  match s.dropWhile fun c => c = ' ' || ('\t' ≤ c && c ≤ '\r') with
  | '-' :: s => -number s
  | '+' :: s => number s
  | s => number s

/-- A long of 64 bits, with the limit where the number has no room. -/
def strtol (s : Text) : Int :=
  let n := decimal s
  if n < -0x8000000000000000 then -0x8000000000000000
  else if 0x7fffffffffffffff < n then 0x7fffffffffffffff
  else n

/-- The atoi of the C library, which makes an int of the long. -/
def atoi (s : Text) : Int := (BitVec.ofInt 32 (strtol s)).toInt

example : atoi "4294967296".toList = 0 := by decide

namespace Tables

variable (t : Tables)

/-- The entry at the count, inside its array. -/
def nextNode (g : Node → Node) : Option Tables :=
  if t.nodes.length < maxNodes then some { t with node := g t.node } else none

def nextPipe (g : Pipe → Pipe) : Option Tables :=
  if t.pipes.length < maxNodes then some { t with pipe := g t.pipe } else none

/-- The entry before the count; there is none before the first. -/
def lastNode (g : Node → Node) : Option Tables :=
  if t.nodes = [] then none else some { t with nodes := t.nodes.modifyLast g }

def lastConcat (g : Concatenation → Concatenation) : Option Tables :=
  if t.concatenations = [] then none
    else some { t with concatenations := t.concatenations.modifyLast g }

end Tables

/-- What a line can be about. -/
inductive Keyword
  | node
  | command
  | pipe
  | fromPipe
  | toPipe
  | concatenate
  | parts
  | part
  | stderr
  | file
  | name
deriving DecidableEq

def keyword (name : Text) : Option Keyword :=
  if name = "node".toList then some .node
  else if name = "command".toList then some .command
  else if name = "pipe".toList then some .pipe
  else if name = "from".toList then some .fromPipe
  else if name = "to".toList then some .toPipe
  else if name = "concatenate".toList then some .concatenate
  else if name = "parts".toList then some .parts
  else if name.take 5 = "part_".toList then some .part
  else if name = "stderr".toList then some .stderr
  else if name = "file".toList then some .file
  else if name = "name".toList then some .name
  else none

/-- A line that changes nothing, one that makes strcmp, strcpy or atoi read from a null pointer, or
one with a keyword and its value. -/
inductive Entry
  | skip
  | null
  | set (k : Keyword) (value : Text)
deriving DecidableEq

/-- The two calls of strtok and the comparisons of the name. -/
def entry (line : Text) : Entry :=
  if line.head? = some '\n' then .skip
  else
    match strtok '=' line with
    | none => .null
    | some (name, rest) =>
      match keyword name with
      | none => .skip
      | some k =>
        match strtok '\n' rest with
        | none => .null
        | some (value, _) => .set k value

/-- What a keyword with a value does to the tables; none when memory outside of them would be
touched. -/
def Tables.assign (t : Tables) (value : Text) : Keyword → Option Tables
  | .node => do
    let v ← strcpy nameSize value
    t.nextNode fun node => { node with name := v }
  | .command => do
    let v ← strcpy commandLength value
    let t ← t.nextNode fun node => { node with command := v }
    return { t with nodes := t.nodes ++ [t.node], node := {} }
  | .pipe => do
    let v ← strcpy nameSize value
    t.nextPipe fun pipe => { pipe with name := v }
  | .fromPipe => do
    let v ← strcpy nameSize value
    t.nextPipe fun pipe => { pipe with fromName := v }
  | .toPipe => do
    let v ← strcpy nameSize value
    let t ← t.nextPipe fun pipe => { pipe with toName := v }
    return { t with pipes := t.pipes ++ [t.pipe], pipe := {} }
  | .concatenate => do
    let v ← strcpy nameSize value
    if t.concatenations.length < maxNodes then
      return { t with concatenations := t.concatenations ++ [{ name := v }], partIndex := 0 }
    else none
  | .parts => t.lastConcat fun concat => { concat with partCount := atoi value }
  | .part => do
    let v ← strcpy nameSize value
    if t.partIndex < maxParts then
      let t ← t.lastConcat fun concat => { concat with parts := concat.parts.set t.partIndex v }
      return { t with partIndex := t.partIndex + 1 }
    else none
  | .stderr => do
    let v ← strcpy nameSize value
    t.lastNode fun node => { node with errorTo := v }
  | .file => do
    let v ← strcpy nameSize value
    t.lastNode fun node => { node with fileName := v, inputFile := true }
  | .name => do
    let v ← strcpy nameSize value
    t.lastNode fun node => { node with fileName := v, outputFile := true }

def Tables.enter (t : Tables) : Entry → Option Tables
  | .skip => some t
  | .null => none
  | .set k value => t.assign value k

/-- One line of the file that fgets returns. -/
def fileLine (t : Tables) (line : Text) : Option Tables := t.enter (entry line)

/-- The function file, on the lines of an open file. -/
def file (lines : List Text) : Option Tables := lines.foldlM fileLine {}

/-- A call of pipeExecution: its place among the calls around it, the innermost first. It names the
pipe it makes. -/
abbrev Path := List Nat

/-- What a file descriptor refers to. -/
inductive Fd
  | invalid
  | stdin
  | stdout
  | stderr
  | read (pipe : Path)
  | write (pipe : Path)
  | readError (pipe : Path)
  | writeError (pipe : Path)
  | file (name : Text)
deriving DecidableEq

/-- A command with its arguments, or what lies before the table of nodes, and what its three
descriptors refer to. -/
structure Job where
  args : Option (List Text)
  stdin : Fd
  stdout : Fd
  stderr : Fd
deriving DecidableEq

/-- What a process does: run a command and wait for it, fork a child, return to its caller, exit,
read outside of a table, or go into a call that is nested too deep to be followed. -/
inductive Acts
  | ret
  | exit (status : Nat)
  | outside
  | deep
  | run (job : Job) (next : Acts)
  | fork (child next : Acts)
deriving DecidableEq

namespace Acts

def andThen : Acts → Acts → Acts
  | ret, k => k
  | exit status, _ => exit status
  | outside, _ => outside
  | deep, _ => deep
  | run job next, k => run job (next.andThen k)
  | fork child next, k => fork child (next.andThen k)

/-- The processes that are forked, those of the commands among them. -/
def forks : Acts → Nat
  | ret => 0
  | exit _ => 0
  | outside => 0
  | deep => 0
  | run _ next => next.forks + 1
  | fork child next => child.forks + next.forks + 1

/-- No process reads outside of a table. -/
def inside : Acts → Bool
  | outside => false
  | run _ next => next.inside
  | fork child next => child.inside && next.inside
  | _ => true

end Acts

/-- A token in quotes loses them, and what follows the second. -/
def argument : Text → Text
  | [] => []
  | c :: token =>
    if (c = '\'' ∨ c = '"') ∧ c ∈ token then token.takeWhile fun d => d ≠ c else c :: token

/-- The loop over the tokens of a command, with room for so many more arguments. -/
def argumentsFrom : Nat → Text → List Text
  | 0, _ => []
  | room + 1, rest =>
    match strtok ' ' rest with
    | none => []
    | some (token, rest) => argument token :: argumentsFrom room rest

def arguments (command : Text) : List Text := argumentsFrom (maxParts - 1) command

namespace Tables

variable (t : Tables)

def nodeSearch (name : Text) : Option Nat := t.nodes.findIdx? fun node => node.name = name

def pipeSearch (name : Text) : Option Nat := t.pipes.findIdx? fun pipe => pipe.name = name

def concatSearch (name : Text) : Option Nat :=
  t.concatenations.findIdx? fun concat => concat.name = name

/-- The command that nodeExecution starts; descriptor -1 leaves the output as it is. -/
def nodeExecution (nodeIndex : Option Nat) (input output error : Fd) : Job :=
  let node := nodeIndex.bind fun i => t.nodes[i]?
  { args := node.map fun node => arguments node.command
    stdin := match node with
      | some node => if node.inputFile then .file node.fileName else input
      | none => input
    stdout := if output = .invalid then .stdout else output
    stderr := error }

/-- The loop of concatExecution over the parts from the i-th on, of which there are ten; call is
pipeExecution. -/
def concatExecution (call : Nat → Path → Fd → Acts) (concat : Concatenation) (path : Path)
    (output : Fd) :
    Nat → Nat → Acts
  | 0, _ => .ret
  | count + 1, i =>
    match concat.parts[i]? with
    | none => .outside
    | some part =>
      match t.nodeSearch part with
      | some n =>
        .run (t.nodeExecution (some n) .stdin output .stderr) (concatExecution call concat path output count (i + 1))
      | none =>
        match t.pipeSearch part with
        | some j => (call j (i :: path) output).andThen (concatExecution call concat path output count (i + 1))
        | none => .exit 1

def mkdirName : Text := "stdout_to_stderr_for_mkdir".toList

def readName : Text := "read_pipe".toList

/-- What the child of pipeExecution does. The stderr of mkdir_attempt is the error pipe when it is
started. -/
def child (call : Nat → Path → Fd → Acts) (pipe : Pipe) (path : Path) (output : Fd) : Acts :=
  if pipe.fromName = mkdirName then
    .fork (.run (t.nodeExecution (t.nodeSearch "mkdir_attempt".toList) .stdin .stdout
      (.writeError path)) (.exit 0))
      (.run (t.nodeExecution (t.nodeSearch "word_count".toList) (.readError path) output .stderr) (.exit 0))
  else if pipe.fromName = readName then
    .run (t.nodeExecution (t.nodeSearch "read_file".toList) .stdin (.write path) .stderr) (.exit 0)
  else
    match t.concatSearch pipe.fromName with
    | some c =>
      let concat := t.concatenations.getD c {}
      (t.concatExecution call concat path (.write path) concat.partCount.toNat 0).andThen (.exit 0)
    | none =>
      match t.pipeSearch pipe.fromName with
      | some j => (call j (0 :: path) (.write path)).andThen (.exit 0)
      | none =>
        match t.nodeSearch pipe.fromName with
        | some n => .run (t.nodeExecution (some n) .stdin (.write path) .stderr) (.exit 0)
        | none => .exit 1

/-- What pipeExecution does, in calls nested no deeper than depth. -/
def pipeExecution : Nat → Nat → Path → Fd → Acts
  | 0, _, _, _ => .deep
  | depth + 1, pipeIndex, path, output =>
    let pipe := t.pipes.getD pipeIndex {}
    .fork (t.child (pipeExecution depth) pipe path output)
      (match t.nodeSearch pipe.toName with
        | some n => .run (t.nodeExecution (some n) (.read path) output .stderr) .ret
        | none => .exit 1)

/-- The part of main behind the reading of the file. -/
def execute (depth : Nat) (name : Text) : Acts :=
  match t.pipeSearch name with
  | none => .exit 1
  | some i => (t.pipeExecution depth i [] .invalid).andThen (.exit 0)

end Tables

/-- The function main, with the lines of each file there is. -/
def main (files : Text → Option (List Text)) (depth : Nat) : List Text → Option Acts
  | [filename, name] =>
    match files filename with
    | none => some (.exit 1)
    | some lines => (file lines).map fun t => t.execute depth name
  | _ => some (.exit 1)

end Flow

end Xv6
