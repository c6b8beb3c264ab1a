import Mathlib.Algebra.Group.Int.Defs
import Mathlib.Algebra.Group.Nat.Defs
import Xv6.Circular
import Xv6.Runs

namespace Xv6

/-- sizeof(Header). -/
abbrev HEADER : Nat := 8

structure Header where
  ptr : Nat
  size : Nat
  deriving DecidableEq, Repr

/-- A block that a program holds: its header, its units and the bytes that were asked for. -/
structure Live where
  addr : Nat
  size : Nat
  nbytes : Nat
  deriving DecidableEq, Repr

/-- A program's heap: the headers in memory by address, base, freep and the break, and what the next
calls of sbrk answer. The code does not have the last two fields: the blocks in use and the units
that came from morecore. -/
structure Heap where
  base : Nat
  mem : Nat → Header
  freep : Nat
  brk : Nat
  answers : List (Option Nat)
  live : List Live
  units : Nat

inductive HeapEvent
  | malloc (nbytes : Nat)
  | free (ap : Nat)
  deriving DecidableEq, Repr

namespace Heap

/-- The pointer p + n. -/
def addHeaders (p n : Nat) : Nat := (p + n * HEADER) % 2 ^ 32

/-- No list of headers in the address space is longer. -/
abbrev turns : Nat := 2 ^ 29 + 2

def next (s : Heap) (p : Nat) : Nat := (s.mem p).ptr

def size (s : Heap) (p : Nat) : Nat := (s.mem p).size

def setHeader (s : Heap) (p : Nat) (h : Header) : Heap :=
  { s with mem := Function.update s.mem p h }

def setPtr (s : Heap) (p q : Nat) : Heap := s.setHeader p { s.mem p with ptr := q }

def setSize (s : Heap) (p n : Nat) : Heap := s.setHeader p { s.mem p with size := n }

/-- Where the loop of free stops for the block at bp. -/
def isPlace (next : Nat → Nat) (bp p : Nat) : Bool :=
  (p < bp ∧ bp < next p) ∨ (next p ≤ p ∧ (p < bp ∨ bp < next p))

/-- The block at bp is joined to the upper neighbour, or linked to it. -/
def joinUpper (s : Heap) (bp p : Nat) : Heap :=
  if addHeaders bp (s.size bp) = s.next p then
    s.setHeader bp ⟨s.next (s.next p), (s.size bp + s.size (s.next p)) % 2 ^ 32⟩
  else s.setPtr bp (s.next p)

/-- The same for the lower neighbour. -/
def joinLower (s : Heap) (bp p : Nat) : Heap :=
  if addHeaders p (s.size p) = bp then s.setHeader p ⟨s.next bp, (s.size p + s.size bp) % 2 ^ 32⟩
  else s.setPtr p bp

def free (s : Heap) (ap : Nat) : Option Heap :=
  let bp := (ap + 2 ^ 32 - HEADER) % 2 ^ 32
  (Circular.find s.next (isPlace s.next bp) turns s.freep).map fun p =>
    { (s.joinUpper bp p).joinLower bp p with freep := p }

/-- sbrk fails, or it gives n new bytes at or above the break. -/
def sbrk (s : Heap) (n : Nat) : Heap × Option Nat :=
  match s.answers with
  | some p :: rest =>
    if s.brk ≤ p ∧ p + n < 2 ^ 32 then ({ s with brk := p + n, answers := rest }, some p)
    else ({ s with answers := rest }, none)
  | _ :: rest => ({ s with answers := rest }, none)
  | [] => (s, none)

def morecore (s : Heap) (nu : Nat) : Option (Heap × Nat) :=
  let nu := if nu < 4096 then 4096 else nu
  match s.sbrk (nu * HEADER % 2 ^ 32) with
  | (s, none) => some (s, 0)
  | (s, some p) =>
    (({ s.setSize p nu with units := s.units + nu } : Heap).free (addHeaders p 1)).map fun s =>
      (s, s.freep)

/-- The block at p, behind prevp, is big enough: it is taken off the list, or its end is cut off. -/
def take (s : Heap) (nunits prevp p : Nat) : Heap × Nat :=
  if s.size p = nunits then ({ s.setPtr prevp (s.next p) with freep := prevp }, addHeaders p 1)
  else
    let q := addHeaders p (s.size p - nunits)
    ({ (s.setSize p (s.size p - nunits)).setSize q nunits with freep := prevp }, addHeaders q 1)

/-- The loop of malloc in a state that has a heap, where more is the call of morecore; none if it
has not ended after n turns. -/
def search {σ : Type} (heap : σ → Heap) (put : Heap → σ → σ) (more : σ → Option (σ × Nat))
    (nunits : Nat) :
    Nat → σ → Nat → Nat → Option (σ × Nat)
  | 0, _, _, _ => none
  | n + 1, s, prevp, p =>
    if nunits ≤ (heap s).size p then
      let (h, ap) := (heap s).take nunits prevp p
      some (put h s, ap)
    else if p = (heap s).freep then
      (more s).bind fun (s, p) =>
        if p = 0 then some (s, 0) else search heap put more nunits n s p ((heap s).next p)
    else search heap put more nunits n s p ((heap s).next p)

def mallocLoop (nunits : Nat) : Nat → Heap → Nat → Nat → Option (Heap × Nat) :=
  search id (fun h _ => h) (·.morecore nunits) nunits

/-- The first call makes base the only element of the list. -/
def start (s : Heap) : Heap :=
  if s.freep = 0 then { s.setHeader s.base ⟨s.base, 0⟩ with freep := s.base } else s

def unitsFor (nbytes : Nat) : Nat := (nbytes + HEADER - 1) % 2 ^ 32 / HEADER + 1

def malloc (s : Heap) (nbytes : Nat) : Option (Heap × Nat) :=
  mallocLoop (unitsFor nbytes) (2 * turns) s.start s.start.freep (s.start.next s.start.freep)

/-- A program asks for less than 2^30 bytes and frees what it has got. -/
def step (s : Heap) : HeapEvent → Option Heap
  | .malloc nbytes =>
    if nbytes < 2 ^ 30 then
      (s.malloc nbytes).map fun (s, ap) =>
        if ap = 0 then s else { s with live := ⟨ap - HEADER, s.size (ap - HEADER), nbytes⟩ :: s.live }
    else none
  | .free ap =>
    if s.live.any fun b => b.addr + HEADER = ap then
      (s.free ap).map fun s => { s with live := s.live.filter fun b => b.addr + HEADER ≠ ap }
    else none

def boot (base brk : Nat) (answers : List (Option Nat)) : Heap where
  base := base
  mem := fun _ => ⟨0, 0⟩
  freep := 0
  brk := brk
  answers := answers
  live := []
  units := 0

end Heap

end Xv6
