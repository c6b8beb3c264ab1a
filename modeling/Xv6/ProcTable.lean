import Mathlib.Data.List.FinRange
import Mathlib.Logic.Function.Basic
import Xv6.Param

namespace Xv6

inductive ProcState
  | unused | embryo | sleeping | runnable | running | zombie
  deriving DecidableEq, Repr

/-- Sleep channels: the address of a process entry, or any other kernel address. -/
inductive Chan
  | proc (p : Slot)
  | addr (a : Nat)
  deriving DecidableEq, Repr

/-- The scheduling fields of struct proc. A killed flag is a C truth value. -/
structure Proc where
  state : ProcState
  pid : Nat
  parent : Option Slot
  chan : Option Chan
  killed : Bool
  nice : Int
  priority : Int
  originalPriority : Int
  straced : BitVec 32
  deriving DecidableEq, Repr

/-- A user lock of locks[7]. -/
structure UserLock where
  held : Int
  holder : Option Slot
  deriving DecidableEq, Repr

/-- Where a process stands between the steps of fork. -/
inductive ForkPc
  | none
  | claimed (np : Slot)
  | niceSet (np : Slot)
  | prioritySet (np : Slot)
  | initialised (np : Slot)
  deriving DecidableEq, Repr

structure Table where
  proc : Slot → Proc
  locks : Fin 7 → UserLock
  nextpid : Nat
  fork : Slot → ForkPc

def initproc : Slot := 0

def Proc.zero : Proc :=
  { state := .unused, pid := 0, parent := none, chan := none, killed := false,
    nice := 0, priority := 0, originalPriority := 0, straced := 0 }

/-- The table after userinit: one runnable process, every lock free. -/
def Table.boot : Table where
  proc p := if p = initproc then
      { Proc.zero with state := .runnable, pid := 1, nice := 3, priority := 3, originalPriority := -1 }
    else Proc.zero
  locks _ := { held := 0, holder := none }
  nextpid := 2
  fork _ := .none

def Table.setProc (t : Table) (p : Slot) (v : Proc) : Table :=
  { t with proc := Function.update t.proc p v }

def Table.setLock (t : Table) (k : Fin 7) (v : UserLock) : Table :=
  { t with locks := Function.update t.locks k v }

def Table.setFork (t : Table) (p : Slot) (v : ForkPc) : Table :=
  { t with fork := Function.update t.fork p v }

@[simp] theorem Table.setProc_locks (t : Table) (p : Slot) (v : Proc) :
    (t.setProc p v).locks = t.locks := rfl

@[simp] theorem Table.setFork_locks (t : Table) (p : Slot) (v : ForkPc) :
    (t.setFork p v).locks = t.locks := rfl

@[simp] theorem Table.setLock_locks (t : Table) (k : Fin 7) (v : UserLock) :
    (t.setLock k v).locks = Function.update t.locks k v := rfl

/-- The id argument of lock and release: none when argint fails or it is out of range. -/
def lockIndex : Option Int → Option (Fin 7)
  | none => none
  | some id => if h : 0 ≤ id ∧ id < 7 then some ⟨id.toNat, by omega⟩ else none

/-- The new table, the value returned to user code and the text printed. -/
structure Reply where
  table : Table
  ret : Int
  out : List String

def sysNice (t : Table) (pid value : Option Int) : Reply :=
  match pid, value with
  | some pid, some value =>
    if value < 1 ∨ value > 5 then ⟨t, -1, []⟩
    else
      match (List.finRange NPROC).find?
          (fun q => ((t.proc q).pid : Int) = pid ∧ (t.proc q).state ≠ .unused) with
      | some q => ⟨t.setProc q { t.proc q with nice := value, priority := value }, (t.proc q).nice, []⟩
      | none => ⟨t, -1, []⟩
  | _, _ => ⟨t, -1, []⟩

def sysLock (t : Table) (p : Slot) (id : Option Int) : Reply :=
  match lockIndex id with
  | none => ⟨t, -1, []⟩
  | some k =>
    let me := t.proc p
    if (t.locks k).held = 0 then
      ⟨t.setLock k ⟨1, some p⟩, 0,
        [s!"Process  {me.pid}  acquired lock  {k} with the priority  {me.priority}\n"]⟩
    else
      match (t.locks k).holder with
      | none => ⟨t, 0, []⟩
      | some h =>
        let holder := t.proc h
        if me.priority < holder.priority then
          ⟨t.setProc h { holder with
              originalPriority :=
                if holder.originalPriority = -1 then holder.priority else holder.originalPriority
              priority := me.priority }, 0,
            [s!"Detection of Priority Inversion: Process  {holder.pid}  (holder) priority elevated to  {me.priority}  because of Process  {me.pid}\n"]⟩
        else ⟨t, 0, []⟩

def sysRelease (t : Table) (p : Slot) (id : Option Int) : Reply :=
  match lockIndex id with
  | none => ⟨t, -1, []⟩
  | some k =>
    if (t.locks k).held = 1 ∧ (t.locks k).holder = some p then
      let me := t.proc p
      let t' := t.setLock k ⟨0, none⟩
      if me.originalPriority ≠ -1 then
        ⟨t'.setProc p { me with priority := me.originalPriority, originalPriority := -1 }, 0,
          [s!"Process  {me.pid}  restoring priority from  {me.priority}  to original priority  {me.originalPriority}  after releasing lock {k}\n"]⟩
      else
        ⟨t', 0, [s!"Process  {me.pid}  released lock  {k}  with no priority change\n"]⟩
    else ⟨t, 0, []⟩

/-- Critical section of allocproc: claim the first unused entry. -/
def allocproc (t : Table) (p : Slot) : Reply :=
  match (List.finRange NPROC).find? (fun q => (t.proc q).state = .unused) with
  | none => ⟨t, -1, []⟩
  | some np =>
    ⟨({ t with nextpid := t.nextpid + 1 }.setProc np
        { t.proc np with state := .embryo, pid := t.nextpid, straced := 0 }).setFork p (.claimed np), 0, []⟩

/-- The next of the three assignments allocproc makes after it has released ptable.lock. -/
def allocprocInit (t : Table) (p : Slot) : Option Table :=
  match t.fork p with
  | .claimed np => some ((t.setProc np { t.proc np with nice := 3 }).setFork p (.niceSet np))
  | .niceSet np =>
    some ((t.setProc np { t.proc np with priority := 3 }).setFork p (.prioritySet np))
  | .prioritySet np =>
    some ((t.setProc np { t.proc np with originalPriority := -1 }).setFork p (.initialised np))
  | _ => none

/-- kalloc or copyuvm failed: the entry is given back. -/
def forkFail (t : Table) (p np : Slot) : Reply :=
  ⟨(t.setProc np { t.proc np with state := .unused }).setFork p .none, -1, []⟩

def tFork : BitVec 32 := 2

def forkFinish (t : Table) (p np : Slot) : Reply :=
  let me := t.proc p
  let child := t.proc np
  ⟨(t.setProc np { child with
      straced := if me.straced &&& tFork ≠ 0 then me.straced else 0
      parent := some p
      state := .runnable }).setFork p .none, child.pid, []⟩

def wakeup1 (t : Table) (chan : Chan) : Table :=
  { t with proc := fun q =>
      if (t.proc q).state = .sleeping ∧ (t.proc q).chan = some chan then
        { t.proc q with state := .runnable } else t.proc q }

/-- Children of an exiting process are handed to init. -/
def reparent (t : Table) (p : Slot) : Table :=
  { t with proc := fun q =>
      if (t.proc q).parent = some p then { t.proc q with parent := some initproc } else t.proc q }

def hasZombieChild (t : Table) (p : Slot) : Bool :=
  (List.finRange NPROC).any fun q => (t.proc q).parent = some p ∧ (t.proc q).state = .zombie

/-- The part of exit that holds ptable.lock. -/
def exitProc (t : Table) (p : Slot) : Table :=
  let woken := match (t.proc p).parent with
    | some parent => wakeup1 t (.proc parent)
    | none => t
  let passed := if hasZombieChild woken p then wakeup1 (reparent woken p) (.proc initproc)
    else reparent woken p
  passed.setProc p { passed.proc p with state := .zombie }

@[simp] theorem wakeup1_locks (t : Table) (chan : Chan) : (wakeup1 t chan).locks = t.locks := rfl

@[simp] theorem reparent_locks (t : Table) (p : Slot) : (reparent t p).locks = t.locks := rfl

theorem exitProc_locks (t : Table) (p : Slot) : (exitProc t p).locks = t.locks := by
  simp only [exitProc, Table.setProc_locks]
  cases (t.proc p).parent with
  | none => simp only [apply_ite Table.locks, wakeup1_locks, reparent_locks, ite_self]
  | some parent => simp only [apply_ite Table.locks, wakeup1_locks, reparent_locks, ite_self]

/-- One pass of the loop of wait: reap a zombie child, give up, or sleep. -/
def waitScan (t : Table) (p : Slot) : Reply :=
  match (List.finRange NPROC).find?
    (fun q => (t.proc q).parent = some p ∧ (t.proc q).state = .zombie) with
  | some q =>
    ⟨t.setProc q { t.proc q with pid := 0, parent := none, killed := false, state := .unused },
      (t.proc q).pid, []⟩
  | none =>
    if (∀ q, (t.proc q).parent ≠ some p) ∨ (t.proc p).killed then ⟨t, -1, []⟩
    else ⟨t.setProc p { t.proc p with chan := some (.proc p), state := .sleeping }, 0, []⟩

def killPid (t : Table) (pid : Int) : Reply :=
  match (List.finRange NPROC).find? (fun q => ((t.proc q).pid : Int) = pid) with
  | some q =>
    ⟨t.setProc q { t.proc q with
        killed := true
        state := if (t.proc q).state = .sleeping then .runnable else (t.proc q).state }, 0, []⟩
  | none => ⟨t, -1, []⟩

end Xv6
