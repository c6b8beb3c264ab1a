import Xv6.Exec
import Xv6.Memory

namespace Xv6

open Bytes

/-- What the system calls look at in the calling process: its size, its stack pointer and what its
addresses hold. -/
structure UserProc where
  sz : BitVec 32
  esp : Addr
  mem : Memory

/-- The int that is stored through ip, or none for -1. -/
def fetchint (p : UserProc) (addr : Addr) : Option (BitVec 32) :=
  if addr ≥ p.sz ∨ addr + 4 > p.sz then none else some (p.mem.load32 addr)

/-- The loop of fetchstr. -/
def fetchstrLoop (mem : Memory) (pp ep : Addr) : Nat → Addr → Int
  | 0, _ => -1
  | n + 1, s =>
    if s < ep then
      if mem s = 0 then (s - pp).toInt else fetchstrLoop mem pp ep n (s + 1)
    else -1

/-- The result, and what is stored through pp. -/
def fetchstr (p : UserProc) (addr : Addr) : Int × Option Addr :=
  if addr ≥ p.sz then (-1, none) else (fetchstrLoop p.mem addr p.sz p.sz.toNat addr, some addr)

def argint (p : UserProc) (n : BitVec 32) : Option (BitVec 32) := fetchint p (p.esp + 4 + 4 * n)

def argstr (p : UserProc) (n : BitVec 32) : Int × Option Addr :=
  match argint p n with
  | none => (-1, none)
  | some addr => fetchstr p addr

/-- The loop of sys_exec from i on, with so many elements of argv left; none for -1. -/
def execArgv (p : UserProc) (uargv : Addr) : Nat → Nat → List Addr → Option (List Addr)
  | 0, _, _ => none
  | room + 1, i, argv =>
    match fetchint p (uargv + 4 * BitVec.ofNat 32 i) with
    | none => none
    | some uarg =>
      if uarg = 0 then some (argv.set i 0)
      else
        match fetchstr p uarg with
        | (len, pp) => if len < 0 then none else execArgv p uargv room (i + 1) (argv.set i (pp.getD 0))

/-- What sys_exec gives to exec: the path, and the array argv. -/
def execArgs (p : UserProc) : Option (Addr × List Addr) :=
  match argstr p 0, argint p 1 with
  | (len, some path), some uargv =>
    if len < 0 then none else (execArgv p uargv MAXARG 0 (List.replicate MAXARG 0)).map fun argv =>
      (path, argv)
  | _, _ => none

/-- The bytes of the string at an address. -/
def UserProc.string (p : UserProc) (a : Addr) : List Byte :=
  (List.range (fetchstr p a).1.toNat).map fun i => p.mem (a + BitVec.ofNat 32 i)

/-- exec reads argv up to its null pointer. -/
def Exec.sysExec (k : KernelImage) (devsw : Devsw) (vars : Exec.Locals) (cwd : InodeSlot)
    (p : UserProc) : ExecM Int :=
  match execArgs p with
  | none => return -1
  | some (path, argv) =>
    exec k devsw vars cwd (p.string path) ((argv.takeWhile (· ≠ 0)).map p.string)

/-- The n bytes from a on lie inside the memory of the process. -/
def UserProc.Inside (p : UserProc) (a : Addr) (n : Nat) : Prop := a.toNat + n ≤ p.sz.toNat

instance decidableInsideProc (p : UserProc) (a : Addr) (n : Nat) : Decidable (p.Inside a n) :=
  inferInstanceAs (Decidable (a.toNat + n ≤ p.sz.toNat))

variable {p : UserProc} {addr : Addr} {v n : BitVec 32}

end Xv6
