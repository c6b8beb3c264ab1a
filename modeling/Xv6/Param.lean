import Mathlib.Algebra.GroupWithZero.Nat
import Mathlib.Data.Fintype.Basic

namespace Xv6

/-- Sizes fixed by param.h. -/
abbrev NPROC : Nat := 64
abbrev NOFILE : Nat := 16
abbrev NFILE : Nat := 100
abbrev NINODE : Nat := 50
abbrev NDEV : Nat := 10
abbrev ROOTDEV : Nat := 1
abbrev MAXOPBLOCKS : Nat := 10
abbrev LOGSIZE : Nat := MAXOPBLOCKS * 3
abbrev NBUF : Nat := MAXOPBLOCKS * 3
abbrev FSSIZE : Nat := 1000

/-- Bytes mapped by a page. -/
abbrev PGSIZE : Nat := 4096

instance neZeroNPROC : NeZero NPROC := ⟨by decide⟩

instance neZeroNINODE : NeZero NINODE := ⟨by decide⟩

instance neZeroNBUF : NeZero NBUF := ⟨by decide⟩

/-- Two processes or processors are enough for most of the runs that are given in full. -/
instance neZeroTwo : NeZero 2 := ⟨by decide⟩

/-- A process table entry, standing for the address of its struct proc. -/
abbrev Slot : Type := Fin NPROC

end Xv6
