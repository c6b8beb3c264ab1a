import Xv6.Shell
import Xv6.Straced

namespace Xv6

abbrev NTRACE : Nat := 5

def sysForkNum : Int := 1
def sysExitNum : Int := 2
def sysExecNum : Int := 7
def sysStraceNum : Int := 25
def sysEflagNum : Int := 27
def sysSflagNum : Int := 28
def sysFflagNum : Int := 29

/-- The kernel's table of names has a name for the first 21 calls, strace and dump. -/
def syscallnames : List (Int × String) :=
  [(1, "fork"), (2, "exit"), (3, "wait"), (4, "pipe"), (5, "read"), (6, "kill"), (7, "exec"),
    (8, "fstat"),
    (9, "chdir"), (10, "dup"), (11, "getpid"), (12, "sbrk"), (13, "sleep"), (14, "uptime"),
    (15, "open"),
    (16, "write"), (17, "mknod"), (18, "unlink"), (19, "link"), (20, "mkdir"), (21, "close"),
    (25, "trace"),
    (26, "dump")]

/-- The string at syscallnames[n]; where the table has no name it is whatever memory holds there. -/
def nameAt (mem : Int → Text) (n : Int) : Text :=
  match syscallnames.lookup n with
  | some name => name.toList
  | none => cstr (mem n)

def compare : Text → Text → Bool
  | [], [] => true
  | a :: s, b :: t => a = b && compare s t
  | _, _ => false

/-- The digits of a number that k + '0' gives, the last one first; no number has more than ten. -/
def digits : Nat → Int → Text
  | 0, _ => []
  | n + 1, num => if num = 0 then []
    else Char.ofNat (48 + num.tmod 10).toNat :: digits n (num.tdiv 10)

/-- The digits go into five bytes that a zero has to end; none when there are too many. -/
def pidToString (pid : Int) : Option Text :=
  if (digits 10 pid).length < 5 then some (digits 10 pid).reverse else none

/-- Here the five bytes need no zero. -/
def numberToString (num : Int) : Option Text :=
  if num = 0 then some ['0']
  else if (digits 10 num).length ≤ 5 then some (digits 10 num).reverse
  else none

/-- straceBuf has 100 bytes; none when the text and its zero do not fit. -/
def straceBuf (t : Text) : Option Text := if t.length < 100 then some t else none

/-- The text of a record up to the name of the call. -/
def headText (pidS processN name : Text) : Text :=
  "TRACE: pid = ".toList ++ pidS ++ [' '] ++ " | command name = ".toList ++ [' '] ++
    cstr processN ++ [' '] ++
    " | syscall = ".toList ++ [' '] ++ name

def createStrace (mem : Int → Text) (pid : Int) (processN : Text) (n : Int) : Option Text := do
  let pidS ← pidToString pid
  straceBuf (headText pidS processN (nameAt mem n))

def straceReturn (mem : Int → Text) (pid : Int) (processN : Text) (n returnV : Int) :
    Option Text := do
  let pidS ← pidToString pid
  let value ← numberToString returnV
  straceBuf (headText pidS processN (nameAt mem n) ++ [' '] ++ " | return value = ".toList ++ value)

/-- What a trace line or a record is about; exit and a successful exec have no return value. -/
structure TraceEntry where
  pid : Int
  processN : Text
  num : Int
  ret : Option Int
deriving DecidableEq, Repr

def TraceEntry.record (mem : Int → Text) (r : TraceEntry) : Option Text :=
  match r.ret with
  | none => createStrace mem r.pid r.processN r.num
  | some v => straceReturn mem r.pid r.processN r.num v

/-- dumpBuf and the three variables of adding. -/
structure History where
  dumpBuf : Fin NTRACE → Fin 100 → Char
  startIndex : Fin NTRACE
  endIndex : Fin NTRACE
  wrap : Bool

def History.empty : History := ⟨fun _ _ => nul, 0, 0, false⟩

/-- The C string in a slot. -/
def slotText (b : Fin 100 → Char) : Text := cstr (List.ofFn b)

/-- memset of the slot over the length of its string. -/
def clearSlot (b : Fin 100 → Char) : Fin 100 → Char :=
  fun j => if j.val < (slotText b).length then nul else b j

/-- The loop that copies a string into a slot without its zero. -/
def copySlot (b : Fin 100 → Char) (t : Text) : Fin 100 → Char := fun j => t.getD j (b j)

/-- Both indices move modulo N, as values of Fin N do. -/
def adding (h : History) (t : Text) : History :=
  let full := h.startIndex = h.endIndex ∧ h.wrap
  let dumpBuf := if full then Function.update h.dumpBuf h.endIndex
    (clearSlot (h.dumpBuf h.endIndex)) else h.dumpBuf
  { dumpBuf := Function.update dumpBuf h.startIndex (copySlot (dumpBuf h.startIndex) t)
    startIndex := h.startIndex + 1
    endIndex := if full then h.endIndex + 1 else h.endIndex
    wrap := h.wrap || h.startIndex + 1 == 0 }

/-- The test dumpBuf[i] != 0 is about the slot's address, so the loop goes over all slots. -/
def sysDump (h : History) : List Text := (List.finRange NTRACE).map fun i => slotText (h.dumpBuf i)

structure TraceFilter where
  eFlag : Int
  sFlag : Int
  fFlag : Int
deriving DecidableEq, Repr

def TraceFilter.none : TraceFilter := ⟨-1, 0, 0⟩

/-- What syscall prints at the call of exit. -/
def printExit (mem : Int → Text) (f : TraceFilter) (r : TraceEntry) : List TraceEntry :=
  if f.eFlag = -1 ∧ f.sFlag = 0 ∧ f.fFlag = 0 then [r]
  else if f.eFlag ≠ -1 then
    if compare (nameAt mem (f.eFlag + 1)) (nameAt mem r.num) then
      if f.fFlag = 0 then [r] else []
    else []
  else if f.fFlag = 0 then [r]
  else []

/-- What syscall prints after a successful exec: the strace call of the shell's child is printed
here. -/
def printExec (mem : Int → Text) (f : TraceFilter) (r : TraceEntry) : List TraceEntry :=
  let sh : TraceEntry := ⟨r.pid, "sh".toList, sysStraceNum, some 0⟩
  if f.eFlag = -1 ∧ f.sFlag = 0 ∧ f.fFlag = 0 then [sh, r]
  else if f.eFlag ≠ -1 then
    if compare (nameAt mem (f.eFlag + 1)) (nameAt mem r.num) then
      if f.fFlag = 0 then [r] else []
    else []
  else if f.sFlag = 1 then [sh, r]
  else []

/-- What syscall prints after any other call. -/
def printReturn (mem : Int → Text) (f : TraceFilter) (r : TraceEntry) (value : Int) :
    List TraceEntry :=
  if f.eFlag = -1 ∧ f.sFlag = 0 ∧ f.fFlag = 0 then [r]
  else if f.eFlag ≠ -1 then
    if compare (nameAt mem (f.eFlag + 1)) (nameAt mem r.num) then
      if f.sFlag = 1 ∧ value ≥ 0 then [r]
      else if f.sFlag = 1 ∧ value ≤ -1 then []
      else if f.fFlag = 1 ∧ value ≤ -1 then [r]
      else if f.fFlag = 1 ∧ value ≥ 0 then []
      else [r]
    else []
  else if f.sFlag = 1 ∧ value ≥ 0 then [r]
  else if f.fFlag = 1 ∧ value ≤ -1 then [r]
  else []

/-- The fields of a process that syscall reads. -/
structure TraceProc where
  pid : Int
  name : Text
  straced : BitVec 32
deriving DecidableEq, Repr

/-- The variables of syscall while the call runs. -/
structure SyscallFrame where
  straced : Bool
  processN : Text
  num : Int
deriving DecidableEq, Repr

/-- What a call does to the state that tracing depends on. -/
inductive SyscallEffect where
  | other
  | fork (np : Slot)
  | exec (name : Text)
  | strace (i : BitVec 32)
  | eflag (i : Int)
  | sflag (i : Int)
  | fflag (i : Int)
deriving DecidableEq, Repr

def SyscallEffect.Of (num ret : Int) : SyscallEffect → Prop
  | .other => (num = sysForkNum → ret = -1) ∧ (num = sysExecNum → ret ≠ 0) ∧
      num ≠ sysStraceNum ∧ num ≠ sysEflagNum ∧ num ≠ sysSflagNum ∧ num ≠ sysFflagNum
  | .fork _ => num = sysForkNum ∧ 0 < ret
  | .exec _ => num = sysExecNum ∧ ret = 0
  | .strace _ => num = sysStraceNum ∧ ret = 0
  | .eflag _ => num = sysEflagNum ∧ ret = 0
  | .sflag _ => num = sysSflagNum ∧ ret = 0
  | .fflag _ => num = sysFflagNum ∧ ret = 0

instance (num ret : Int) (e : SyscallEffect) : Decidable (e.Of num ret) := by
  cases e <;> exact inferInstanceAs (Decidable (_ ∧ _))

/-- The processes, syscall's variables in those that are in a call, the history, the filter and the
TRACE lines on the console. -/
structure TraceSys where
  proc : Slot → Option TraceProc
  frame : Slot → Option SyscallFrame
  history : History
  filter : TraceFilter
  console : List TraceEntry

def TraceSys.start (proc : Slot → Option TraceProc) : TraceSys :=
  ⟨proc, fun _ => none, .empty, .none, []⟩

/-- A process enters syscall with a number in eax, or its call returns, or it has been killed and
terminates in trap. -/
inductive SyscallEvent where
  | enter (p : Slot) (num : Int)
  | leave (p : Slot) (ret : Int) (e : SyscallEffect)
  | die (p : Slot)
deriving DecidableEq, Repr

def TraceProc.traced (q : TraceProc) : Bool := q.straced &&& tStrace ≠ 0

def TraceSys.setProc (s : TraceSys) (p : Slot) (q : Option TraceProc) : TraceSys :=
  { s with proc := Function.update s.proc p q }

def TraceSys.setFrame (s : TraceSys) (p : Slot) (f : Option SyscallFrame) : TraceSys :=
  { s with frame := Function.update s.frame p f }

/-- The record of a call goes into the history and some lines to the console. -/
def TraceSys.report (mem : Int → Text) (s : TraceSys) (r : TraceEntry) (lines : List TraceEntry) :
    Option TraceSys :=
  (r.record mem).map fun t =>
    { s with history := adding s.history t, console := s.console ++ lines }

/-- The exit of a traced process is reported before it happens, and the filter is given up with it.
-/
def TraceSys.exit (mem : Int → Text) (s : TraceSys) (p : Slot) (q : TraceProc) : Option TraceSys :=
  let r : TraceEntry := ⟨q.pid, q.name, sysExitNum, none⟩
  if q.traced then
    (s.report mem r (printExit mem s.filter r)).map fun t =>
      { t with filter := .none }.setProc p none
  else some (s.setProc p none)

def TraceSys.enter (mem : Int → Text) (s : TraceSys) (p : Slot) (q : TraceProc) (num : Int) :
    Option TraceSys :=
  if num = sysExitNum then s.exit mem p q
  else if 0 < num ∧ num < 30 then some (s.setFrame p (some ⟨q.traced, q.name, num⟩))
  else some s

def TraceSys.effect (s : TraceSys) (p : Slot) (q : TraceProc) (ret : Int) :
    SyscallEffect → Option TraceSys
  | .other => some s
  | .fork np =>
    if s.proc np = none ∧ s.frame np =
      none then some (s.setProc np (some ⟨ret, q.name, forkWord q.straced⟩))
    else none
  | .exec name => some (s.setProc p (some { q with name := name }))
  | .strace i => some (s.setProc p (some { q with straced := straceWord i }))
  | .eflag i => some { s with filter := { s.filter with eFlag := i } }
  | .sflag i => some { s with filter := { s.filter with sFlag := i } }
  | .fflag i => some { s with filter := { s.filter with fFlag := i } }

/-- The end of syscall, once the call has returned: whether the process was traced at its entry
counts. -/
def TraceSys.traceReturn (mem : Int → Text) (s : TraceSys) (pid : Int) (f : SyscallFrame)
    (ret : Int) :
    Option TraceSys :=
  if f.straced then
    if f.num = sysExecNum ∧ ret = 0 then
      let r : TraceEntry := ⟨pid, f.processN, f.num, none⟩
      s.report mem r (printExec mem s.filter r)
    else
      let r : TraceEntry := ⟨pid, f.processN, f.num, some ret⟩
      s.report mem r (printReturn mem s.filter r ret)
  else some s

def TraceSys.step (mem : Int → Text) (s : TraceSys) : SyscallEvent → Option TraceSys
  | .enter p num =>
    match s.proc p, s.frame p with
    | some q, none => s.enter mem p q num
    | _, _ => none
  | .leave p ret e =>
    match s.proc p, s.frame p with
    | some q, some f =>
      if e.Of f.num ret then
        ((s.effect p q ret e).map fun t => t.setFrame p none).bind fun t => t.traceReturn mem q.pid f ret
      else none
    | _, _ => none
  | .die p =>
    match s.proc p, s.frame p with
    | some _, none => some (s.setProc p none)
    | _, _ => none

section Steps

variable {mem : Int → Text} {s t : TraceSys} {p : Slot}

theorem TraceSys.step_enter {num : Int} (h : s.step mem (.enter p num) = some t) :
    ∃ q, s.proc p = some q ∧ s.frame p = none ∧ s.enter mem p q num = some t := by
  simp only [TraceSys.step] at h
  split at h
  next q hq hf => exact ⟨q, hq, hf, h⟩
  next => contradiction

theorem TraceSys.step_leave {ret : Int} {e : SyscallEffect}
    (h : s.step mem (.leave p ret e) = some t) :
    ∃ q f u, s.proc p = some q ∧ s.frame p = some f ∧ e.Of f.num ret ∧ s.effect p q ret e = some u ∧
      (u.setFrame p none).traceReturn mem q.pid f ret = some t := by
  simp only [TraceSys.step] at h
  split at h
  next q f hq hf =>
    split at h
    next he =>
      obtain ⟨v, hv, h⟩ := Option.bind_eq_some_iff.mp h
      obtain ⟨u, hu, rfl⟩ := Option.map_eq_some_iff.mp hv
      exact ⟨q, f, u, hq, hf, he, hu, h⟩
    next => contradiction
  next => contradiction

theorem TraceSys.step_die (h : s.step mem (.die p) = some t) :
    ∃ q, s.proc p = some q ∧ s.frame p = none ∧ t = s.setProc p none := by
  simp only [TraceSys.step] at h
  split at h
  next q hq hf => exact ⟨q, hq, hf, (Option.some.inj h).symm⟩
  next => contradiction

end Steps

end Xv6
