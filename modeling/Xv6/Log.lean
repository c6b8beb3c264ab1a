import Xv6.Bio

namespace Xv6

open Bytes

/-- Stores 32-bit words one after the other. -/
def putWords (b : DiskBlock) (off : Nat) : List Nat → DiskBlock
  | [] => b
  | w :: ws => putWords (setU32 b off (BitVec.ofNat 32 w)) (off + 4) ws

/-- The log header as write_head lays it over a block: the count, then the block numbers. -/
def encodeHead (lh : List Nat) (b : DiskBlock) : DiskBlock :=
  putWords (setU32 b 0 (BitVec.ofNat 32 lh.length)) 4 lh

/-- The log header as read_head reads it; the count is a signed int. -/
def decodeHead (b : DiskBlock) : List Nat :=
  (List.range (u32 b 0).toInt.toNat).map fun i => (u32 b (4 + 4 * i)).toNat

def Log.headAddr (l : Log) : BlockAddr := (l.dev, l.start)

def Log.slotAddr (l : Log) (tail : Nat) : BlockAddr := (l.dev, l.start + tail + 1)

def Log.homeAddr (l : Log) (b : Nat) : BlockAddr := (l.dev, b)

/-- The blocks that belong to the log. -/
def Log.Inside (l : Log) (a : BlockAddr) : Prop :=
  a.1 = l.dev ∧ l.start ≤ a.2 ∧ a.2 < l.start + l.size

instance (l : Log) (a : BlockAddr) : Decidable (l.Inside a) :=
  inferInstanceAs (Decidable (_ ∧ _ ∧ _))

def setLh (lh : List Nat) : Bio Unit :=
  modify fun s => { s with log := { s.log with lh := lh } }

/-- The loops of write_log and install_trans visit each logged block with its position. -/
def Log.tails (l : Log) : List (Nat × Nat) := l.lh.zipIdx

def installBlock (l : Log) (entry : Nat × Nat) : Bio Unit := do
  let lbuf ← bread (l.slotAddr entry.2)
  let dbuf ← bread (l.homeAddr entry.1)
  copyData dbuf lbuf
  bwrite dbuf
  brelse lbuf
  brelse dbuf

def installTrans : Bio Unit := do
  let s ← get
  forM s.log.tails (installBlock s.log)

def readHead : Bio Unit := do
  let s ← get
  let i ← bread s.log.headAddr
  let t ← get
  setLh (decodeHead (t.buf i).data)
  brelse i

def writeHead : Bio Unit := do
  let s ← get
  let i ← bread s.log.headAddr
  let t ← get
  setData i (encodeHead s.log.lh (t.buf i).data)
  bwrite i
  brelse i

def recoverFromLog : Bio Unit := do
  readHead
  installTrans
  setLh []
  writeHead

def writeLogBlock (l : Log) (entry : Nat × Nat) : Bio Unit := do
  let tbuf ← bread (l.slotAddr entry.2)
  let fbuf ← bread (l.homeAddr entry.1)
  copyData tbuf fbuf
  bwrite tbuf
  brelse fbuf
  brelse tbuf

def writeLog : Bio Unit := do
  let s ← get
  forM s.log.tails (writeLogBlock s.log)

def commit : Bio Unit := do
  let s ← get
  if 0 < s.log.lh.length then
    writeLog
    writeHead
    installTrans
    setLh []
    writeHead

/-- The checks log_write makes before it takes log.lock. -/
def logWriteCheck : Bio Unit := do
  let s ← get
  if LOGSIZE ≤ s.log.lh.length ∨
    s.log.size ≤ s.log.lh.length + 1 then throw (.panic .tooBigTransaction)
  else if s.log.outstanding < 1 then throw (.panic .logWriteOutsideTrans)

/-- The part of log_write that holds log.lock: a block already logged is not added again. -/
def logWriteRecord (i : BufSlot) : Bio Unit :=
  modify fun s =>
    let b := s.buf i
    { s.setBuf i { b with dirty := true } with
      log := { s.log with lh := if b.addr.2 ∈ s.log.lh then s.log.lh else s.log.lh ++ [b.addr.2] }
      given := s.given ++ [(b.addr, b.data)] }

def logWrite (i : BufSlot) : Bio Unit := do
  logWriteCheck
  logWriteRecord i

/-- One pass of the loop of begin_op: the operation is admitted, or it sleeps. -/
def beginOpTry : Bio Bool := do
  let s ← get
  if s.log.committing then return false
  else if LOGSIZE < s.log.lh.length + (s.log.outstanding + 1) * MAXOPBLOCKS then return false
  else
    set { s with log := { s.log with outstanding := s.log.outstanding + 1 } }
    return true

/-- The first section of end_op: whether the caller has to commit. -/
def endOpLeave : Bio Bool := do
  modify fun s => { s with log := { s.log with outstanding := s.log.outstanding - 1 } }
  let s ← get
  if s.log.committing then throw (.panic .logCommitting)
  else if s.log.outstanding = 0 then
    set { s with log := { s.log with committing := true } }
    return true
  else return false

/-- The last section of end_op, after the commit. -/
def endOpFinish : Bio Unit :=
  modify fun s => { s with log := { s.log with committing := false } }

end Xv6
