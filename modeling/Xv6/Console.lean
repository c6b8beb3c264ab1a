import Xv6.Bytes
import Xv6.RingBuffer
import Xv6.Runs

namespace Xv6

open Bytes

abbrev INPUT_BUF : Nat := 128

/-- struct input of console.c. -/
structure Input where
  buf : Fin INPUT_BUF → Byte
  r : BitVec 32
  w : BitVec 32
  e : BitVec 32

namespace Input

/-- C(x) of console.c for the letters that consoleintr and consoleread look at. -/
def ctrlD : Byte := 4
def ctrlH : Byte := 8
def ctrlP : Byte := 16
def ctrlU : Byte := 21
def newline : Byte := 10
def cr : Byte := 13
def del : Byte := 127

/-- All characters that have not been read, those still being edited included. -/
def ring (i : Input) : RingBuffer INPUT_BUF 32 Byte := ⟨i.buf, i.r, i.e⟩

/-- The committed characters that have not been read. -/
def pending (i : Input) : List Byte := i.ring.contents.take (i.w - i.r).toNat

def erase (i : Input) : Input := { i with e := i.e - 1 }

/-- The loop of the kill-line case; the first argument bounds its passes. -/
def killLine : Nat → Input → Input
  | 0, i => i
  | k + 1, i =>
    if i.e ≠ i.w ∧ i.buf (RingBuffer.slot (i.e - 1).toNat) ≠ newline then killLine k i.erase else i

def store (i : Input) (c : Byte) : Input :=
  { i with buf := Function.update i.buf (RingBuffer.slot i.e.toNat) c, e := i.e + 1 }

/-- The default case of consoleintr, and whether it wakes the readers. -/
def typeChar (i : Input) (c : Byte) : Input × Bool :=
  if c ≠ 0 ∧ (i.e - i.r).toNat < INPUT_BUF then
    let c := if c = cr then newline else c
    let i := i.store c
    if c = newline ∨ c = ctrlD ∨
      i.e = i.r + BitVec.ofNat 32 INPUT_BUF then ({ i with w := i.e }, true) else (i, false)
  else (i, false)

/-- What consoleintr does with a character. What it echoes, and the process listing of ^P, are left
out. -/
def intr (i : Input) (c : Byte) : Input × Bool :=
  if c = ctrlP then (i, false)
  else if c = ctrlU then (i.killLine (i.e - i.w).toNat, false)
  else if c = ctrlH ∨ c = del then (if i.e ≠ i.w then i.erase else i, false)
  else i.typeChar c

end Input

/-- A call of consoleread: its number, the bytes asked for and still to come, and those in dst. -/
structure ReadCall where
  id : Nat
  target : Nat
  n : Nat
  dst : List Byte

/-- Where a process stands in consoleread. -/
inductive ReadPc
  | idle
  | acquire (c : ReadCall)
  | loop (c : ReadCall)
  | asleep (c : ReadCall)

namespace ReadPc

def call : ReadPc → Option ReadCall
  | idle => none
  | acquire c | loop c | asleep c => some c

/-- wakeup of a process that sleeps on &input.r. -/
def wake : ReadPc → ReadPc
  | asleep c => acquire c
  | c => c

end ReadPc

inductive ConsoleOwner (P : Type)
  | intr
  | reader (p : P)
  deriving DecidableEq

/-- The console with any number of readers. committed are the characters that have become readable,
taken those that reads have consumed with the number of the call, and results the calls that have
ended, with whether they returned target - n (or -1). The code does not have these. -/
structure Console (P : Type) where
  input : Input
  lock : Option (ConsoleOwner P)
  pc : P → ReadPc
  killed : P → Bool
  calls : Nat
  committed : List Byte
  taken : List (Nat × Byte)
  results : List (ReadCall × Bool)

inductive ConsoleEvent (P : Type)
  | intr | char (c : Byte) | intrDone
  | read (p : P) (n : Nat) | acquire (p : P) | step (p : P)
  | kill (p : P)

namespace Console

variable {P : Type} [DecidableEq P]

def setPc (s : Console P) (p : P) (c : ReadPc) : Console P :=
  { s with pc := Function.update s.pc p c }

/-- The lock is released, and the call returns. -/
def finish (s : Console P) (p : P) (c : ReadCall) (ok : Bool) : Console P :=
  { s.setPc p .idle with lock := none, results := s.results ++ [(c, ok)] }

/-- Call c takes the next character. -/
def take (s : Console P) (c : ReadCall) (ch : Byte) : Console P :=
  { s with
    input := { s.input with r := s.input.r + 1 }
    taken := s.taken ++ [(c.id, ch)] }

/-- One pass of the loop of consoleread. -/
def readStep (s : Console P) (p : P) (c : ReadCall) : Console P :=
  match c.n with
  | 0 => s.finish p c true
  | n + 1 =>
    if s.input.r = s.input.w then
      if s.killed p then s.finish p c false else { s.setPc p (.asleep c) with lock := none }
    else
      let ch := s.input.buf (RingBuffer.slot s.input.r.toNat)
      if ch = Input.ctrlD then
        if n + 1 < c.target then
          ({ s with input := { s.input with r := s.input.r + 1 - 1 } } : Console P).finish p c true
        else (s.take c ch).finish p c true
      else
        let c' := { c with n := n, dst := c.dst ++ [ch] }
        if ch = Input.newline then (s.take c ch).finish p c' true else (s.take c ch).setPc p (.loop c')

def step (s : Console P) : ConsoleEvent P → Option (Console P)
  | .intr => if s.lock = none then some { s with lock := some .intr } else none
  | .char c =>
    if s.lock = some .intr then
      some { s with
        input := (s.input.intr c).1
        pc := if (s.input.intr c).2 then fun q => (s.pc q).wake else s.pc
        committed := s.committed ++ (s.input.intr c).1.pending.drop s.input.pending.length }
    else none
  | .intrDone => if s.lock = some .intr then some { s with lock := none } else none
  | .read p n =>
    match s.pc p with
    | .idle =>
      if 0 < n then some { s.setPc p (.acquire ⟨s.calls, n, n, []⟩) with calls := s.calls + 1 } else none
    | _ => none
  | .acquire p =>
    match s.pc p with
    | .acquire c => if s.lock = none then some { s.setPc p (.loop c) with lock := some (.reader p) }
      else none
    | _ => none
  | .step p =>
    match s.pc p with
    | .loop c => some (s.readStep p c)
    | _ => none
  | .kill p => some { s.setPc p (s.pc p).wake with killed := Function.update s.killed p true }

def boot : Console P where
  input := ⟨fun _ => 0, 0, 0, 0⟩
  lock := none
  pc := fun _ => .idle
  killed := fun _ => false
  calls := 0
  committed := []
  taken := []
  results := []

/-- The characters that a call has consumed. -/
def takenBy (s : Console P) (k : Nat) : List Byte := (s.taken.filter (·.1 = k)).map Prod.snd

end Console

end Xv6
