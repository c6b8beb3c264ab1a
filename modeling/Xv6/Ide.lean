import Xv6.Bio
import Xv6.Linked
import Xv6.Runs

namespace Xv6

inductive IdePanic
  | notLocked | nothingToDo | disk1NotPresent | notForDisk1 | outOfRange | incorrectBlockno
  deriving DecidableEq, Repr

/-- A command in the registers of the disk: read the block, or write what has been sent. The disk
does not know the request that the command comes from. -/
structure DiskCmd (B : Type) where
  addr : BlockAddr
  write : Option DiskBlock
  request : Nat × B

/-- The disk waits for a command, executes one, or has done so and raised its interrupt, with what
it has read in its data port. -/
inductive IdeDevice (B : Type)
  | ready
  | busy (c : DiskCmd B)
  | done (data : DiskBlock)

/-- Where a process stands in its call of iderw, and the call's number. -/
inductive IdePc (B : Type)
  | idle
  | asleep (k : Nat) (b : B)
  | awake (k : Nat) (b : B)

/-- The disk and the buffers as memide.c has them. -/
structure MemDisk (B : Type) where
  disk : Disk
  buf : B → Buf

/-- What happens to a buffer: whoever has locked it stores something in it, or passes it to iderw.
-/
inductive BufOp (B : Type)
  | store (b : B) (v : Buf)
  | rw (b : B)

/-- The driver with the processes that use it. The code does not have the last six fields: the
number of calls so far and of the last one for each buffer, the requests in the order in which they
were queued and executed, the calls that have returned, and the history of the buffers. -/
structure Ide (P B : Type) where
  disk : Disk
  buf : B → Buf
  holder : B → Option P
  idequeue : Option B
  qnext : B → Option B
  device : IdeDevice B
  havedisk1 : Bool
  pc : P → IdePc B
  calls : Nat
  call : B → Nat
  issued : List (Nat × B)
  executed : List (Nat × B)
  returned : List Nat
  history : List (BufOp B)

inductive IdeEvent (P B : Type)
  | lock (p : P) (b : B) | store (p : P) (b : B) (v : Buf) | unlock (p : P) (b : B)
  | iderw (p : P) (b : B) | wakeup (p : P) | run (p : P)
  | execute | ideintr

/-- B_VALID set and B_DIRTY clear. -/
def Buf.synced (b : Buf) : Bool := b.valid && !b.dirty

/-- The call that a process is in, and its buffer. -/
def IdePc.waits {B : Type} : IdePc B → Option (Nat × B)
  | idle => none
  | asleep k b | awake k b => some (k, b)

def BufOp.request {B : Type} : BufOp B → Option B
  | store .. => none
  | rw b => some b

namespace MemDisk

variable {B : Type} [DecidableEq B]

/-- iderw of memide.c. -/
def iderw (m : MemDisk B) (disksize : Nat) (b : B) : Except IdePanic (MemDisk B) :=
  if (m.buf b).locked = false then .error .notLocked
  else if (m.buf b).synced then .error .nothingToDo
  else if (m.buf b).addr.1 ≠ 1 then .error .notForDisk1
  else if disksize ≤ (m.buf b).addr.2 then .error .outOfRange
  else if (m.buf b).dirty then
    .ok ⟨Function.update m.disk (m.buf b).addr (m.buf b).data,
      Function.update m.buf b { m.buf b with dirty := false, valid := true }⟩
  else .ok { m with buf := Function.update m.buf b { m.buf b with data := m.disk (m.buf b).addr, valid := true } }

def apply (m : MemDisk B) : BufOp B → Except IdePanic (MemDisk B)
  | .store b v => .ok { m with buf := Function.update m.buf b v }
  | .rw b => m.iderw FSSIZE b

def replay (m : MemDisk B) (l : List (BufOp B)) : Except IdePanic (MemDisk B) := l.foldlM apply m

end MemDisk

namespace Ide

variable {P B : Type} [DecidableEq P] [DecidableEq B] [Fintype B]

/-- Whether the call passes the checks of iderw and idestart in ide.c. -/
def check (s : Ide P B) (b : B) : Except IdePanic Unit :=
  if (s.buf b).locked = false then .error .notLocked
  else if (s.buf b).synced then .error .nothingToDo
  else if (s.buf b).addr.1 ≠ 0 ∧ s.havedisk1 = false then .error .disk1NotPresent
  else if FSSIZE ≤ (s.buf b).addr.2 then .error .incorrectBlockno
  else .ok ()

/-- The drive is chosen by the lowest bit of the device number. -/
def command (s : Ide P B) (b : B) : DiskCmd B where
  addr := ((s.buf b).addr.1 % 2, (s.buf b).addr.2)
  write := if (s.buf b).dirty then some (s.buf b).data else none
  request := (s.call b, b)

/-- The disk gets the command, and the data if it is a write. -/
def idestart (s : Ide P B) (b : B) : Ide P B := { s with device := .busy (s.command b) }

/-- Appends b to idequeue. -/
def enqueue (s : Ide P B) (b : B) : Option (Ide P B) :=
  let qnext := Function.update s.qnext b none
  match s.idequeue with
  | none => some { s with idequeue := some b, qnext := qnext }
  | some h => (Linked.lastFrom qnext (Fintype.card B) h).map fun last =>
      { s with qnext := Function.update qnext last (some b) }

def setPc (s : Ide P B) (p : P) (c : IdePc B) : Ide P B := { s with pc := Function.update s.pc p c }

/-- The loop of iderw around sleep, under idelock. -/
def wait (s : Ide P B) (p : P) (k : Nat) (b : B) : Ide P B :=
  if (s.buf b).synced then { s.setPc p .idle with returned := s.returned ++ [k] }
    else s.setPc p (.asleep k b)

/-- A call of iderw for b gets its number. -/
def count (s : Ide P B) (b : B) : Ide P B :=
  { s with
    calls := s.calls + 1
    call := Function.update s.call b s.calls
    issued := s.issued ++ [(s.calls, b)] }

def iderw (s : Ide P B) (p : P) (b : B) : Option (Ide P B) :=
  ((s.count b).enqueue b).map fun t =>
    (if t.idequeue = some b then t.idestart b else t).wait p s.calls b

/-- wakeup(b). -/
def wakeup (b : B) : IdePc B → IdePc B
  | .asleep k c => if c = b then .awake k c else .asleep k c
  | c => c

/-- What ideintr does to the buffer; data is in the disk's port. -/
def complete (v : Buf) (data : DiskBlock) : Buf :=
  { v with data := if v.dirty then v.data else data, valid := true, dirty := false }

def ideintr (s : Ide P B) (data : DiskBlock) : Ide P B :=
  match s.idequeue with
  | none => { s with device := .ready }
  | some b =>
    let t : Ide P B := { s with
      idequeue := s.qnext b
      buf := Function.update s.buf b (complete (s.buf b) data)
      device := .ready
      pc := fun p => wakeup b (s.pc p) }
    match t.idequeue with
    | none => t
    | some c => t.idestart c

/-- The disk executes the command it has been given. -/
def execute (s : Ide P B) (c : DiskCmd B) : Ide P B :=
  { s with
    disk := match c.write with
      | some data => Function.update s.disk c.addr data
      | none => s.disk
    device := .done (s.disk c.addr)
    executed := s.executed ++ [c.request]
    history := s.history ++ [.rw c.request.2] }

/-- Buffers are locked, filled and unlocked between calls; a call is made by the process that has
locked the buffer. A process that sleeps may also be woken by something else than the interrupt. -/
def step (s : Ide P B) : IdeEvent P B → Option (Ide P B)
  | .lock p b =>
    match s.pc p with
    | .idle =>
      if s.holder b = none then
        some { s with
          holder := Function.update s.holder b (some p)
          buf := Function.update s.buf b { s.buf b with locked := true }
          history := s.history ++ [.store b { s.buf b with locked := true }] }
      else none
    | _ => none
  | .store p b v =>
    match s.pc p with
    | .idle =>
      if s.holder b = some p ∧ v.locked = true then
        some { s with buf := Function.update s.buf b v, history := s.history ++ [.store b v] }
      else none
    | _ => none
  | .unlock p b =>
    match s.pc p with
    | .idle =>
      if s.holder b = some p then
        some { s with
          holder := Function.update s.holder b none
          buf := Function.update s.buf b { s.buf b with locked := false }
          history := s.history ++ [.store b { s.buf b with locked := false }] }
      else none
    | _ => none
  | .iderw p b =>
    match s.pc p, s.check b with
    | .idle, .ok () => if s.holder b = some p ∧ (s.buf b).addr.1 = 1 then s.iderw p b else none
    | _, _ => none
  | .wakeup p =>
    match s.pc p with
    | .asleep k b => some (s.setPc p (.awake k b))
    | _ => none
  | .run p =>
    match s.pc p with
    | .awake k b => some (s.wait p k b)
    | _ => none
  | .execute =>
    match s.device with
    | .busy c => some (s.execute c)
    | _ => none
  | .ideintr =>
    match s.device with
    | .done data => some (s.ideintr data)
    | _ => none

def boot (m : MemDisk B) : Ide P B where
  disk := m.disk
  buf := m.buf
  holder := fun _ => none
  idequeue := none
  qnext := fun _ => none
  device := .ready
  havedisk1 := true
  pc := fun _ => .idle
  calls := 0
  call := fun _ => 0
  issued := []
  executed := []
  returned := []
  history := []

end Ide

end Xv6
