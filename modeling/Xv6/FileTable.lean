import Xv6.FsCalls
import Xv6.ProcTable

namespace Xv6

open Bytes

abbrev FileSlot : Type := Fin NFILE

abbrev Fd : Type := Fin NOFILE

abbrev Page : Type := Nat

/-- FD_NONE, FD_PIPE and FD_INODE of struct file, with the pointer that goes with each. -/
inductive FileType
  | none
  | pipe (page : Page)
  | inode (ip : InodeSlot)
  deriving DecidableEq

structure File where
  type : FileType
  ref : Nat
  readable : Bool
  writable : Bool
  off : Nat

structure Pipe where
  readopen : Bool
  writeopen : Bool

/-- The fields of struct proc that concern files and the life of the process. -/
structure Task where
  state : ProcState
  parent : Option Slot
  killed : Bool
  ofile : Fd → Option FileSlot
  cwd : Option InodeSlot

/-- The file system, the open files, the processes, the pipes by page, the free pages and the
number of operations between begin_op and end_op. -/
structure Kernel where
  fs : Fs
  file : FileSlot → File
  task : Slot → Task
  pipe : Page → Option Pipe
  freelist : List Page
  outstanding : Nat

abbrev Sys := Prog FsHalt Kernel

def inFs {α : Type} (x : FsM α) : Sys α := x.zoom Kernel.fs fun t k => { k with fs := t }

/-- No other operation runs, so begin_op never waits. -/
def beginOp : Sys Unit := modify fun k => { k with outstanding := k.outstanding + 1 }

def endOp : Sys Unit := modify fun k => { k with outstanding := k.outstanding - 1 }

def setFile (f : FileSlot) (v : File) : Sys Unit :=
  modify fun k => { k with file := Function.update k.file f v }

def setTask (p : Slot) (v : Task) : Sys Unit :=
  modify fun k => { k with task := Function.update k.task p v }

def setFd (p : Slot) (fd : Fd) (f : Option FileSlot) : Sys Unit := do
  let k ← get
  setTask p { k.task p with ofile := Function.update (k.task p).ofile fd f }

def filealloc : Sys (Option FileSlot) := do
  let k ← get
  match (List.finRange NFILE).find? fun f => (k.file f).ref = 0 with
  | some f =>
    setFile f { k.file f with ref := 1 }
    return some f
  | none => return none

def filedup (f : FileSlot) : Sys Unit := do
  let k ← get
  if (k.file f).ref < 1 then throw (.panic .filedup)
  else setFile f { k.file f with ref := (k.file f).ref + 1 }

/-- An empty free list, or pages that other users of the allocator have taken first. -/
def kalloc (mem : Bool) : Sys (Option Page) := do
  let k ← get
  match mem, k.freelist with
  | true, page :: pages =>
    set { k with freelist := pages }
    return some page
  | _, _ => return none

def setPipe (page : Page) (v : Option Pipe) : Sys Unit :=
  modify fun k => { k with pipe := Function.update k.pipe page v }

def kfree (page : Page) : Sys Unit :=
  modify fun k => { k with freelist := page :: k.freelist }

def pipeclose (page : Page) (writable : Bool) : Sys Unit := do
  let k ← get
  match k.pipe page with
  | none => throw .asleep
  | some v =>
    let v := if writable then { v with writeopen := false } else { v with readopen := false }
    if v.readopen = false ∧ v.writeopen = false then
      setPipe page none
      kfree page
    else setPipe page (some v)

def fileclose (f : FileSlot) : Sys Unit := do
  let k ← get
  let ff := k.file f
  if ff.ref < 1 then throw (.panic .fileclose)
  else if 0 < ff.ref - 1 then setFile f { ff with ref := ff.ref - 1 }
  else
    setFile f { ff with ref := 0, type := .none }
    match ff.type with
    | .pipe page => pipeclose page ff.writable
    | .inode ip =>
      beginOp
      inFs (iput ip)
      endOp
    | .none => return ()

/-- The end of pipealloc when something is missing. -/
def pipeallocBad (f0 f1 : Option FileSlot) : Sys (Option (FileSlot × FileSlot)) := do
  match f0 with
  | some f => fileclose f
  | none => pure ()
  match f1 with
  | some f => fileclose f
  | none => pure ()
  return none

def pipealloc (mem : Bool) : Sys (Option (FileSlot × FileSlot)) := do
  match ← filealloc with
  | none => pipeallocBad none none
  | some f0 =>
    match ← filealloc with
    | none => pipeallocBad (some f0) none
    | some f1 =>
      match ← kalloc mem with
      | none => pipeallocBad (some f0) (some f1)
      | some page =>
        setPipe page (some ⟨true, true⟩)
        let k ← get
        setFile f0 { k.file f0 with type := .pipe page, readable := true, writable := false }
        setFile f1 { k.file f1 with type := .pipe page, readable := false, writable := true }
        return some (f0, f1)

/-- The open file of a descriptor. -/
def Task.argfd (t : Task) (fd : Option Int) : Option (Fd × FileSlot) :=
  match fd with
  | none => none
  | some n =>
    if h : 0 ≤ n ∧ n.toNat < NOFILE then (t.ofile ⟨n.toNat, h.2⟩).map fun f => (⟨n.toNat, h.2⟩, f)
      else none

def fdalloc (p : Slot) (f : FileSlot) : Sys (Option Fd) := do
  let k ← get
  match (List.finRange NOFILE).find? fun fd => ((k.task p).ofile fd).isNone with
  | some fd =>
    setFd p fd (some f)
    return some fd
  | none => return none

def sysDup (p : Slot) (fd : Option Int) : Sys Int := do
  let k ← get
  match (k.task p).argfd fd with
  | none => return -1
  | some (_, f) =>
    match ← fdalloc p f with
    | none => return -1
    | some fd =>
      filedup f
      return fd.val

def sysClose (p : Slot) (fd : Option Int) : Sys Int := do
  let k ← get
  match (k.task p).argfd fd with
  | none => return -1
  | some (fd, f) =>
    setFd p fd none
    fileclose f
    return 0

def boolResult (b : Bool) : Int := if b then 0 else -1

/-- A call that is one operation on the file system; the result is 0 or -1. -/
def sysFs (x : FsM Bool) : Sys Int := do
  beginOp
  let b ← inFs x
  endOp
  return boolResult b

def sysLink (cwd : InodeSlot) : Option (List Byte) → Option (List Byte) → Sys Int
  | some old, some new => sysFs (link cwd old new)
  | _, _ => return -1

def sysUnlink (cwd : InodeSlot) : Option (List Byte) → Sys Int
  | some path => sysFs (unlink cwd path)
  | none => return -1

def sysMkdir (cwd : InodeSlot) : Option (List Byte) → Sys Int
  | some path => sysFs (makeNode cwd path tDir 0 0)
  | none => sysFs (return false)

def sysMknod (cwd : InodeSlot) :
    Option (List Byte) → Option (BitVec 16) → Option (BitVec 16) → Sys Int
  | some path, some major, some minor => sysFs (makeNode cwd path tDev major minor)
  | _, _, _ => sysFs (return false)

def oWronly : BitVec 32 := 1

def oRdwr : BitVec 32 := 2

def oCreate : BitVec 32 := 0x200

/-- sys_open once it has the inode locked. -/
def openFile (p : Slot) (ip : InodeSlot) (omode : BitVec 32) : Sys Int := do
  match ← filealloc with
  | none =>
    inFs (iunlockput ip)
    endOp
    return -1
  | some f =>
    match ← fdalloc p f with
    | none =>
      fileclose f
      inFs (iunlockput ip)
      endOp
      return -1
    | some fd =>
      inFs (iunlock ip)
      endOp
      let k ← get
      setFile f { k.file f with
        type := .inode ip
        off := 0
        readable := omode &&& oWronly = 0
        writable := omode &&& oWronly ≠ 0 ∨ omode &&& oRdwr ≠ 0 }
      return fd.val

def sysOpen (p : Slot) (cwd : InodeSlot) : Option (List Byte) → Option (BitVec 32) → Sys Int
  | some path, some omode => do
    beginOp
    let ip ← inFs (if omode &&& oCreate ≠ 0 then create cwd path tFile 0 0
      else openExisting cwd path (omode = 0))
    match ip with
    | none =>
      endOp
      return -1
    | some ip => openFile p ip omode
  | _, _ => return -1

def sysChdir (p : Slot) (cwd : InodeSlot) : Option (List Byte) → Sys Int
  | some path => do
    beginOp
    match ← inFs (chdirTarget cwd path) with
    | none =>
      endOp
      return -1
    | some ip =>
      inFs (iput cwd)
      endOp
      let k ← get
      setTask p { k.task p with cwd := some ip }
      return 0
  | none => sysFs (return false)

def sysExec (cwd : InodeSlot) : Option (List Byte) → ExecMemory → Sys Int
  | some path, mem => do
    beginOp
    let loaded ← inFs (execFile cwd path mem)
    endOp
    return boolResult (loaded && mem.stack)
  | none, _ => return -1

def sysPipe (p : Slot) (arg mem : Bool) : Sys Int := do
  if arg = false then return -1
  else
    match ← pipealloc mem with
    | none => return -1
    | some (rf, wf) =>
      match ← fdalloc p rf with
      | none =>
        fileclose rf
        fileclose wf
        return -1
      | some fd0 =>
        match ← fdalloc p wf with
        | none =>
          setFd p fd0 none
          fileclose rf
          fileclose wf
          return -1
        | some _ => return 0

/-- One descriptor of the child. -/
def forkFd (p np : Slot) (fd : Fd) : Sys Unit := do
  let k ← get
  match (k.task p).ofile fd with
  | some f =>
    filedup f
    setFd np fd (some f)
  | none => return ()

/-- kstack and copy say whether the kernel stack and the copy of the memory could be had. -/
def fork (p : Slot) (kstack copy : Bool) : Sys Int := do
  let k ← get
  match (List.finRange NPROC).find? fun np => (k.task np).state = .unused with
  | none => return -1
  | some np =>
    if kstack = false ∨ copy = false then return -1
    else
      setTask np { k.task np with state := .embryo, parent := some p }
      forM (List.finRange NOFILE) (forkFd p np)
      let k ← get
      match (k.task p).cwd with
      | some cwd =>
        let ip ← inFs (idup cwd)
        let k ← get
        setTask np { k.task np with state := .runnable, cwd := some ip }
        return np.val
      | none => throw .asleep

def exitFd (p : Slot) (fd : Fd) : Sys Unit := do
  let k ← get
  match (k.task p).ofile fd with
  | some f =>
    fileclose f
    setFd p fd none
  | none => return ()

def exit (p : Slot) (cwd : InodeSlot) : Sys Int := do
  if p = initproc then throw (.panic .initExiting)
  else
    forM (List.finRange NOFILE) (exitFd p)
    beginOp
    inFs (iput cwd)
    endOp
    modify fun k => { k with
      task := fun q =>
        if q = p then { k.task p with cwd := none, state := .zombie }
        else if (k.task q).parent = some p then { k.task q with parent := some initproc } else k.task q }
    return 0

def wait (p : Slot) : Sys Int := do
  let k ← get
  match (List.finRange NPROC).find? fun q => (k.task q).parent = some p ∧
    (k.task q).state = .zombie with
  | some q =>
    setTask q { k.task q with parent := none, killed := false, state := .unused }
    return q.val
  | none =>
    if (∀ q, (k.task q).parent ≠ some p) ∨ (k.task p).killed then return -1 else throw .asleep

/-- A system call with its arguments; none is an argument that cannot be fetched. -/
inductive Call
  | open (path : Option (List Byte)) (omode : Option (BitVec 32))
  | dup (fd : Option Int)
  | close (fd : Option Int)
  | pipe (arg mem : Bool)
  | fork (kstack copy : Bool)
  | exec (path : Option (List Byte)) (mem : ExecMemory)
  | chdir (path : Option (List Byte))
  | link (old new : Option (List Byte))
  | unlink (path : Option (List Byte))
  | mkdir (path : Option (List Byte))
  | mknod (path : Option (List Byte)) (major minor : Option (BitVec 16))
  | exit
  | wait

def Call.run (p : Slot) (cwd : InodeSlot) : Call → Sys Int
  | .open path omode => sysOpen p cwd path omode
  | .dup fd => sysDup p fd
  | .close fd => sysClose p fd
  | .pipe arg mem => sysPipe p arg mem
  | .fork kstack copy => Xv6.fork p kstack copy
  | .exec path mem => sysExec cwd path mem
  | .chdir path => sysChdir p cwd path
  | .link old new => sysLink cwd old new
  | .unlink path => sysUnlink cwd path
  | .mkdir path => sysMkdir cwd path
  | .mknod path major minor => sysMknod cwd path major minor
  | .exit => Xv6.exit p cwd
  | .wait => Xv6.wait p

def Task.live (t : Task) : Bool := t.state ≠ .unused && t.state ≠ .zombie

/-- A live process makes a call, which runs to its end without a panic. -/
def Kernel.step (k : Kernel) (e : Slot × Call) : Option Kernel :=
  match (k.task e.1).live, (k.task e.1).cwd with
  | true, some cwd =>
    match e.2.run e.1 cwd k with
    | (.ok _, t) => some t
    | (.error _, _) => none
  | _, _ => none

end Xv6
