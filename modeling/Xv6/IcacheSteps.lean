import Mathlib.Algebra.BigOperators.Group.Finset.Basic
import Xv6.Layout
import Xv6.Runs

namespace Xv6

variable {Pid : Type} [DecidableEq Pid]

/-- The address of an entry of icache.inode. -/
abbrev InodeSlot : Type := Fin NINODE

/-- Progress of an iput that has decided to free its inode. -/
inductive Freeing
  | truncating | truncated | typeCleared | written
  deriving DecidableEq, Repr

/-- Where a process stands between the lock-delimited sections of fs.c. -/
inductive InodePc
  | ready
  | allocated (inum : Nat)
  | lockTest (ip : InodeSlot)
  | lockLoad (ip : InodeSlot)
  | freeing (ip : InodeSlot) (at' : Freeing)
  deriving DecidableEq, Repr

/-- The entry an iput is freeing, from its decision to the clearing of I_VALID. -/
def InodePc.freed : InodePc → Option InodeSlot
  | .freeing ip _ => some ip
  | _ => none

/-- The entry whose sleep-lock an unfinished ilock has taken. -/
def InodePc.locked : InodePc → Option InodeSlot
  | .lockTest ip => some ip
  | .lockLoad ip => some ip
  | _ => none

/-- What a process that ilock has returned to has done to the inode. -/
inductive Hold
  | none | clean | changed
  deriving DecidableEq, Repr

/-- The inode blocks as seen through the buffer cache; the fields of the entries of
icache.inode, where lock is the process that owns the sleep-lock and din the copy of the
disk inode; and for every process its position, the references it owns and the inodes
it has locked. -/
structure Icache (Pid : Type) where
  disk : Nat → Dinode
  inum : InodeSlot → Nat
  ref : InodeSlot → Nat
  valid : InodeSlot → Bool
  lock : InodeSlot → Option Pid
  din : InodeSlot → Dinode
  pc : Pid → InodePc
  refs : Pid → InodeSlot → Nat
  hold : Pid → InodeSlot → Hold
  panicked : Bool

inductive InodeEvent (Pid : Type)
  | iget (p : Pid) (inum : Nat)
  | idup (p : Pid) (ip : InodeSlot)
  | ialloc (p : Pid) (inum : Nat) (type : BitVec 16)
  | iallocGet (p : Pid)
  | ilock (p : Pid) (ip : InodeSlot)
  | ilockTest (p : Pid)
  | ilockLoad (p : Pid)
  | change (p : Pid) (ip : InodeSlot) (din : Dinode)
  | iupdate (p : Pid) (ip : InodeSlot)
  | iunlock (p : Pid) (ip : InodeSlot)
  | iput (p : Pid) (ip : InodeSlot)
  | itruncFree (p : Pid) (i : Fin (NDIRECT + 1))
  | itruncUpdate (p : Pid)
  | clearType (p : Pid)
  | freeUpdate (p : Pid)
  | iputFinish (p : Pid)

def Icache.boot (disk : Nat → Dinode) : Icache Pid where
  disk := disk
  inum _ := 0
  ref _ := 0
  valid _ := false
  lock _ := none
  din _ := Dinode.zero
  pc _ := .ready
  refs _ _ := 0
  hold _ _ := .none
  panicked := false

def Icache.setPc (s : Icache Pid) (p : Pid) (v : InodePc) : Icache Pid :=
  { s with pc := Function.update s.pc p v }

def Icache.setHold (s : Icache Pid) (p : Pid) (ip : InodeSlot) (v : Hold) : Icache Pid :=
  { s with hold := Function.update s.hold p (Function.update (s.hold p) ip v) }

def Icache.setLock (s : Icache Pid) (ip : InodeSlot) (v : Option Pid) : Icache Pid :=
  { s with lock := Function.update s.lock ip v }

def Icache.setValid (s : Icache Pid) (ip : InodeSlot) (v : Bool) : Icache Pid :=
  { s with valid := Function.update s.valid ip v }

def Icache.setDin (s : Icache Pid) (ip : InodeSlot) (v : Dinode) : Icache Pid :=
  { s with din := Function.update s.din ip v }

/-- The entry's count and the references of p both become what they are given. -/
def Icache.setRef (s : Icache Pid) (p : Pid) (ip : InodeSlot) (total own : Nat) : Icache Pid :=
  { s with
    ref := Function.update s.ref ip total
    refs := Function.update s.refs p (Function.update (s.refs p) ip own) }

def Icache.setInum (s : Icache Pid) (ip : InodeSlot) (v : Nat) : Icache Pid :=
  { s with inum := Function.update s.inum ip v }

def Icache.setDisk (s : Icache Pid) (inum : Nat) (v : Dinode) : Icache Pid :=
  { s with disk := Function.update s.disk inum v }

/-- The entry that already stands for inum. -/
def Icache.find (s : Icache Pid) (inum : Nat) : Option InodeSlot :=
  (List.finRange NINODE).find? fun ip => 0 < s.ref ip ∧ s.inum ip = inum

/-- The first entry not in use. -/
def Icache.empty (s : Icache Pid) : Option InodeSlot :=
  (List.finRange NINODE).find? fun ip => s.ref ip = 0

def Icache.addRef (s : Icache Pid) (p : Pid) (ip : InodeSlot) : Icache Pid :=
  s.setRef p ip (s.ref ip + 1) (s.refs p ip + 1)

def Icache.dropRef (s : Icache Pid) (p : Pid) (ip : InodeSlot) : Icache Pid :=
  s.setRef p ip (s.ref ip - 1) (s.refs p ip - 1)

/-- Recycle an unused entry for inum. -/
def Icache.recycle (s : Icache Pid) (p : Pid) (ip : InodeSlot) (inum : Nat) : Icache Pid :=
  ((s.setInum ip inum).setValid ip false).setRef p ip 1 (s.refs p ip + 1)

/-- The icache.lock section of iget, on behalf of p. -/
def Icache.iget (s : Icache Pid) (p : Pid) (inum : Nat) : Icache Pid :=
  match s.find inum with
  | some ip => s.addRef p ip
  | none =>
    match s.empty with
    | some ip => s.recycle p ip inum
    | none => { s with panicked := true }

/-- The first section of iput: free the inode, or only drop the reference. -/
def Icache.iput (s : Icache Pid) (p : Pid) (ip : InodeSlot) : Icache Pid :=
  if s.ref ip = 1 ∧ s.valid ip ∧ (s.din ip).nlink = 0 then s.setPc p (.freeing ip .truncating)
  else s.dropRef p ip

/-- Copy the in-memory inode to its inode block. -/
def Icache.iupdate (s : Icache Pid) (ip : InodeSlot) : Icache Pid :=
  s.setDisk (s.inum ip) (s.din ip)

def Icache.ilockTest (s : Icache Pid) (p : Pid) (ip : InodeSlot) : Icache Pid :=
  if s.valid ip then (s.setPc p .ready).setHold p ip .clean else s.setPc p (.lockLoad ip)

def Icache.ilockLoad (s : Icache Pid) (p : Pid) (ip : InodeSlot) : Icache Pid :=
  if (s.disk (s.inum ip)).type = 0 then { s with panicked := true }
  else (((s.setDin ip (s.disk (s.inum ip))).setValid ip true).setPc p .ready).setHold p ip .clean

/-- One lock-delimited section. A process owns a reference to an inode it locks or puts,
keeps one to an inode it has locked, and has written its changes back when it unlocks. -/
def Icache.next (s : Icache Pid) : InodeEvent Pid → Option (Icache Pid)
  | .iget p inum => if s.pc p = .ready then some (s.iget p inum) else none
  | .idup p ip => if s.pc p = .ready ∧ 0 < s.refs p ip then some (s.addRef p ip) else none
  | .ialloc p inum type =>
    if s.pc p = .ready ∧ (s.disk inum).type = 0 ∧ type ≠ 0 then
      some ((s.setDisk inum { Dinode.zero with type := type }).setPc p (.allocated inum))
    else none
  | .iallocGet p =>
    match s.pc p with
    | .allocated inum => some ((s.iget p inum).setPc p .ready)
    | _ => none
  | .ilock p ip =>
    if s.pc p = .ready ∧ 0 < s.refs p ip ∧ s.lock ip = none then
      some ((s.setLock ip (some p)).setPc p (.lockTest ip))
    else none
  | .ilockTest p =>
    match s.pc p with
    | .lockTest ip => some (s.ilockTest p ip)
    | _ => none
  | .ilockLoad p =>
    match s.pc p with
    | .lockLoad ip => some (s.ilockLoad p ip)
    | _ => none
  | .change p ip din =>
    if s.pc p = .ready ∧ s.hold p ip ≠ .none ∧ din.type = (s.din ip).type then
      some ((s.setDin ip din).setHold p ip .changed)
    else none
  | .iupdate p ip =>
    if s.pc p = .ready ∧ s.hold p ip ≠ .none then some ((s.iupdate ip).setHold p ip .clean)
      else none
  | .iunlock p ip =>
    if s.pc p = .ready ∧ s.hold p ip = .clean then some ((s.setLock ip none).setHold p ip .none)
      else none
  | .iput p ip =>
    if s.pc p = .ready ∧ 0 < s.refs p ip ∧
      (s.hold p ip = .none ∨ 1 < s.refs p ip) then some (s.iput p ip) else none
  | .itruncFree p i =>
    match s.pc p with
    | .freeing ip .truncating =>
      some (s.setDin ip { s.din ip with addrs := Function.update (s.din ip).addrs i 0 })
    | _ => none
  | .itruncUpdate p =>
    match s.pc p with
    | .freeing ip .truncating =>
      if ∀ i, (s.din ip).addrs i = 0 then
        some (((s.setDin ip { s.din ip with size := 0 }).iupdate ip).setPc p (.freeing ip .truncated))
      else none
    | _ => none
  | .clearType p =>
    match s.pc p with
    | .freeing ip .truncated =>
      some ((s.setDin ip { s.din ip with type := 0 }).setPc p (.freeing ip .typeCleared))
    | _ => none
  | .freeUpdate p =>
    match s.pc p with
    | .freeing ip .typeCleared => some ((s.iupdate ip).setPc p (.freeing ip .written))
    | _ => none
  | .iputFinish p =>
    match s.pc p with
    | .freeing ip .written => some (((s.setValid ip false).dropRef p ip).setPc p .ready)
    | _ => none

/-- A panic stops every processor. -/
def Icache.step (s : Icache Pid) (e : InodeEvent Pid) : Option (Icache Pid) :=
  if s.panicked then none else s.next e

/-- A locked inode its owner has not changed agrees with the disk and is allocated. -/
def Icache.Coherent (s : Icache Pid) : Prop :=
  ∀ p ip, s.hold p ip = .clean → s.din ip = s.disk (s.inum ip) ∧ (s.din ip).type ≠ 0

/-- ilock does not test I_VALID while an iput is freeing the entry. -/
def Icache.OutsideFree (s : Icache Pid) : InodeEvent Pid → Prop
  | .ilockTest p => ∀ ip q, s.pc p = .lockTest ip → (s.pc q).freed ≠ some ip
  | _ => True

instance [Fintype Pid] (s : Icache Pid) (e : InodeEvent Pid) : Decidable (s.OutsideFree e) :=
  match e with
  | .ilockTest p =>
    inferInstanceAs (Decidable (∀ ip q, s.pc p = .lockTest ip → (s.pc q).freed ≠ some ip))
  | .iget .. | .idup .. | .ialloc .. | .iallocGet .. | .ilock .. | .ilockLoad .. | .change ..
  | .iupdate .. | .iunlock .. | .iput .. | .itruncFree .. | .itruncUpdate .. | .clearType ..
  | .freeUpdate .. | .iputFinish .. => isTrue trivial

end Xv6
