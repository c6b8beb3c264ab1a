import Mathlib.Data.Fintype.Basic
import Xv6.Log
import Xv6.Runs

namespace Xv6

/-- Where a process stands in its file system operation: between the sections of begin_op and
end_op, of a bread, of a log_write or of a brelse. -/
inductive OpPc
  | idle
  | beginning
  | inOp
  | locking (i : BufSlot)
  | filling (i : BufSlot)
  | logging (i : BufSlot)
  | putting (i : BufSlot)
  | committing
  | committed
  deriving DecidableEq, Repr

inductive Site
  | operation
  | commit
  deriving DecidableEq, Repr

/-- Processes that share the log. Operations are numbered as begin_op admits them; the last
fields record every log_write with the number of its operation, and how many operations had
begun and how many log_writes had been made at the last commit. -/
structure LogSys (Pid : Type) where
  store : Store
  pc : Pid → OpPc
  owner : BufSlot → Option Pid
  panicked : Option (Site × BioPanic)
  op : Pid → Nat
  begun : Nat
  writes : List (Nat × BlockAddr × DiskBlock)
  committedOps : Nat
  committedWrites : Nat

inductive LogEvent (Pid : Type)
  | beginOp (p : Pid)
  | bget (p : Pid) (b : Nat)
  | lockBuf (p : Pid)
  | fill (p : Pid)
  | logWrite (p : Pid) (i : BufSlot)
  | record (p : Pid) (data : DiskBlock)
  | unlock (p : Pid) (i : BufSlot)
  | put (p : Pid)
  | endOp (p : Pid)
  | commit (p : Pid)
  | endCommit (p : Pid)

variable {Pid : Type}

/-- Runs one section of kernel code; a process that finds a sleep lock taken waits. -/
def LogSys.section {α : Type} (s : LogSys Pid) (site : Site) (x : Bio α)
    (next : α → Store → LogSys Pid) :
    Option (LogSys Pid) :=
  match x s.store with
  | (.ok a, t) => some (next a t)
  | (.error (.panic w), t) => some { s with store := t, panicked := some (site, w) }
  | (.error .asleep, _) => none

/-- A process admitted by begin_op starts the next operation. -/
def LogSys.enterOp [DecidableEq Pid] (s : LogSys Pid) (p : Pid) (admitted : Bool) (t : Store) : LogSys Pid :=
  if admitted then
    { s with store := t, pc := Function.update s.pc p .inOp, op := Function.update s.op p s.begun, begun := s.begun + 1 }
  else { s with store := t, pc := Function.update s.pc p .beginning }

/-- New contents of a buffer are stored in it while its lock is held, so no one sees them
before log_write has recorded the block. File system code leaves the log's blocks alone, and
gives back its buffers before end_op. -/
def LogSys.next [DecidableEq Pid] (s : LogSys Pid) : LogEvent Pid → Option (LogSys Pid)
  | .beginOp p =>
    if s.pc p = .idle ∨ s.pc p = .beginning then s.section .operation beginOpTry (s.enterOp p)
      else none
  | .bget p b =>
    if s.pc p = .inOp ∧ ¬ s.store.log.Inside (s.store.log.homeAddr b) then
      s.section .operation (bgetSlot (s.store.log.homeAddr b)) fun i t =>
        { s with store := t, pc := Function.update s.pc p (.locking i) }
    else none
  | .lockBuf p =>
    match s.pc p with
    | .locking i =>
      s.section .operation (acquiresleep i) fun _ t =>
        { s with store := t, pc := Function.update s.pc p (.filling i), owner := Function.update s.owner i (some p) }
    | _ => none
  | .fill p =>
    match s.pc p with
    | .filling i =>
      s.section .operation (bfill i) fun _ t => { s with store := t, pc := Function.update s.pc p .inOp }
    | _ => none
  | .logWrite p i =>
    if s.pc p = .inOp ∧ s.owner i = some p then
      s.section .operation logWriteCheck fun _ t =>
        { s with store := t, pc := Function.update s.pc p (.logging i) }
    else none
  | .record p data =>
    match s.pc p with
    | .logging i =>
      s.section .operation (do setData i data; logWriteRecord i) fun _ t =>
        { s with store := t, pc := Function.update s.pc p .inOp
                 writes := s.writes ++ [(s.op p, (s.store.buf i).addr, data)] }
    | _ => none
  | .unlock p i =>
    if s.pc p = .inOp ∧ s.owner i = some p then
      s.section .operation (releasesleep i) fun _ t =>
        { s with store := t, pc := Function.update s.pc p (.putting i), owner := Function.update s.owner i none }
    else none
  | .put p =>
    match s.pc p with
    | .putting i => s.section .operation (bput i) fun _ t =>
      { s with store := t, pc := Function.update s.pc p .inOp }
    | _ => none
  | .endOp p =>
    if s.pc p = .inOp ∧ ∀ i, s.owner i ≠ some p then
      s.section .operation endOpLeave fun doCommit t =>
        { s with store := t, pc := Function.update s.pc p (if doCommit then .committing else .idle) }
    else none
  | .commit p =>
    if s.pc p = .committing then
      s.section .commit commit fun _ t =>
        { s with store := t, pc := Function.update s.pc p .committed
                 committedOps := s.begun, committedWrites := s.writes.length }
    else none
  | .endCommit p =>
    if s.pc p = .committed then
      s.section .operation endOpFinish fun _ t => { s with store := t, pc := Function.update s.pc p .idle }
    else none

def LogSys.step [DecidableEq Pid] (s : LogSys Pid) (e : LogEvent Pid) : Option (LogSys Pid) :=
  if s.panicked = none then s.next e else none

/-- No process is in an operation and nothing has been logged. -/
def LogSys.boot (t : Store) : LogSys Pid :=
  { store := t, pc := fun _ => .idle, owner := fun _ => none, panicked := none, op := fun _ => 0,
    begun := 0
    writes := [], committedOps := 0, committedWrites := 0 }

end Xv6
