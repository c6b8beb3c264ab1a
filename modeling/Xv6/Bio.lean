import Mathlib.Data.List.FinRange
import Mathlib.Logic.Function.Basic
import Xv6.Layout
import Xv6.Param
import Xv6.Prog

namespace Xv6

/-- A device and a block number on it. -/
abbrev BlockAddr := Nat × Nat

abbrev Disk := BlockAddr → DiskBlock

abbrev BufSlot := Fin NBUF

structure Buf where
  addr : BlockAddr
  valid : Bool
  dirty : Bool
  locked : Bool
  refcnt : Nat
  data : DiskBlock

structure Log where
  start : Nat
  size : Nat
  dev : Nat
  outstanding : Nat
  committing : Bool
  lh : List Nat

/-- The disk, the buffer cache with its list from most to least recently used, and the log.
The last two fields record the block writes issued to the disk and the contents given to
log_write, oldest first. -/
structure Store where
  disk : Disk
  buf : BufSlot → Buf
  lru : List BufSlot
  log : Log
  issued : List (BlockAddr × DiskBlock)
  given : List (BlockAddr × DiskBlock)

inductive BioPanic
  | bgetNoBuffers | bwrite | brelse | iderwNotLocked | iderwNothingToDo | incorrectBlockno
  | tooBigTransaction | logWriteOutsideTrans | logCommitting
  deriving DecidableEq, Repr

/-- Why a path through the kernel goes no further: a panic, or a sleep lock that is taken. -/
inductive Halt
  | panic (p : BioPanic)
  | asleep
  deriving DecidableEq, Repr

abbrev Bio := Prog Halt Store

def Store.setBuf (s : Store) (i : BufSlot) (b : Buf) : Store :=
  { s with buf := Function.update s.buf i b }

/-- A buffer as it is before its first use. -/
def Buf.empty : Buf := ⟨(0, 0), false, false, false, 0, fun _ => 0⟩

/-- binit puts each buffer in front of the earlier ones. -/
def binitLru : List BufSlot := (List.finRange NBUF).reverse

def Store.lookup (s : Store) (a : BlockAddr) : Option BufSlot :=
  s.lru.find? fun i => (s.buf i).addr = a

def Store.victim (s : Store) : Option BufSlot :=
  s.lru.reverse.find? fun i => (s.buf i).refcnt = 0 ∧ (s.buf i).dirty = false

/-- The part of bget that holds bcache.lock. -/
def bgetSlot (a : BlockAddr) : Bio BufSlot := do
  let s ← get
  match s.lookup a with
  | some i =>
    set (s.setBuf i { s.buf i with refcnt := (s.buf i).refcnt + 1 })
    return i
  | none =>
    match s.victim with
    | some i =>
      set (s.setBuf i { s.buf i with addr := a, valid := false, dirty := false, refcnt := 1 })
      return i
    | none => throw (.panic .bgetNoBuffers)

def acquiresleep (i : BufSlot) : Bio Unit := do
  let s ← get
  if (s.buf i).locked then throw .asleep
  else set (s.setBuf i { s.buf i with locked := true })

def bget (a : BlockAddr) : Bio BufSlot := do
  let i ← bgetSlot a
  acquiresleep i
  return i

/-- Reads or writes the buffer's block; the interrupt that ends the request sets the flags. -/
def iderw (i : BufSlot) : Bio Unit := do
  let s ← get
  let b := s.buf i
  if b.locked = false then throw (.panic .iderwNotLocked)
  else if b.valid = true ∧ b.dirty = false then throw (.panic .iderwNothingToDo)
  else if FSSIZE ≤ b.addr.2 then throw (.panic .incorrectBlockno)
  else if b.dirty then
    set ({ s with disk := Function.update s.disk b.addr b.data
                  issued := s.issued ++ [(b.addr, b.data)] }.setBuf i { b with valid := true, dirty := false })
  else set (s.setBuf i { b with valid := true, data := s.disk b.addr })

/-- What bread does once it has the buffer's lock. -/
def bfill (i : BufSlot) : Bio Unit := do
  let s ← get
  if (s.buf i).valid = false then iderw i

def bread (a : BlockAddr) : Bio BufSlot := do
  let i ← bget a
  bfill i
  return i

def bwrite (i : BufSlot) : Bio Unit := do
  let s ← get
  if (s.buf i).locked = false then throw (.panic .bwrite)
  else
    set (s.setBuf i { s.buf i with dirty := true })
    iderw i

def releasesleep (i : BufSlot) : Bio Unit :=
  modify fun s => s.setBuf i { s.buf i with locked := false }

/-- The part of brelse that holds bcache.lock: an unreferenced buffer goes to the front. -/
def bput (i : BufSlot) : Bio Unit :=
  modify fun s =>
    let t := s.setBuf i { s.buf i with refcnt := (s.buf i).refcnt - 1 }
    if (s.buf i).refcnt - 1 = 0 then { t with lru := i :: s.lru.erase i } else t

def brelse (i : BufSlot) : Bio Unit := do
  let s ← get
  if (s.buf i).locked = false then throw (.panic .brelse)
  else
    releasesleep i
    bput i

def setData (i : BufSlot) (data : DiskBlock) : Bio Unit :=
  modify fun s => s.setBuf i { s.buf i with data := data }

/-- memmove between two buffers. -/
def copyData (dst src : BufSlot) : Bio Unit := do
  let s ← get
  setData dst (s.buf src).data

end Xv6
