import Mathlib.Algebra.Group.Int.Defs
import Mathlib.Algebra.Group.Nat.Defs
import Xv6.Bytes
import Xv6.Param
import Xv6.Prog

namespace Xv6

open Bytes

/-- Sizes and addresses of mmu.h and memlayout.h. -/
abbrev NPDENTRIES : Nat := 1024
abbrev NPTENTRIES : Nat := 1024
abbrev EXTMEM : Nat := 0x100000
abbrev PHYSTOP : Nat := 0xE000000
abbrev DEVSPACE : Nat := 0xFE000000
abbrev KERNBASE : Nat := 0x80000000
abbrev KERNLINK : Nat := KERNBASE + EXTMEM

instance neZeroNPDENTRIES : NeZero NPDENTRIES := ⟨by decide⟩

abbrev PTE_P : BitVec 12 := 0x001
abbrev PTE_W : BitVec 12 := 0x002
abbrev PTE_U : BitVec 12 := 0x004

def PGROUNDUP (sz : Nat) : Nat := (sz + PGSIZE - 1) % 2 ^ 32 / PGSIZE * PGSIZE

def PGROUNDDOWN (a : Nat) : Nat := a / PGSIZE * PGSIZE

def PDX (va : Nat) : Fin NPDENTRIES := Fin.ofNat NPDENTRIES (va / 2 ^ 22)

def PTX (va : Nat) : Fin NPTENTRIES := Fin.ofNat NPTENTRIES (va / 2 ^ 12)

/-- An entry of a page table: the number of the page that PTE_ADDR gives, and PTE_FLAGS. -/
structure Pte where
  addr : Nat
  flags : BitVec 12
  deriving DecidableEq, Repr

/-- A page table, and the page that it is in. -/
structure PageTable where
  page : Nat
  pte : Fin NPTENTRIES → Pte

/-- A page directory. The entries of a directory that are present have the same flags. -/
structure PageDir where
  page : Nat
  pde : Fin NPDENTRIES → Option PageTable

/-- The addresses that the linker gives to the kernel's data and to its end. -/
structure KernelImage where
  data : Nat
  stop : Nat
  text : KERNLINK < data
  aligned : data % PGSIZE = 0
  ordered : data ≤ stop
  fits : stop < KERNBASE + PHYSTOP

/-- The free list of kalloc.c and the pages of physical memory, by number. What a page holds that is
used as a directory or a table is in the directory or table. -/
structure Kmem where
  freelist : List Nat
  mem : Nat → Block PGSIZE

inductive VmPanic
  | kfree | remap | phystopTooHigh | freevmNoPgdir | copyuvmNoPte | copyuvmNotPresent | loaduvmNotAligned | loaduvmNoPte
  | clearpteu
  /-- A null pointer is dereferenced. -/
  | nullPte
  deriving DecidableEq, Repr

abbrev VmM := Prog VmPanic Kmem

namespace Pte

def zero : Pte := ⟨0, 0⟩

def present (e : Pte) : Bool := e.flags &&& PTE_P ≠ 0

def user (e : Pte) : Bool := e.flags &&& PTE_U ≠ 0

end Pte

namespace PageDir

/-- What a pointer to an entry refers to. -/
def load (d : PageDir) (p : Fin NPDENTRIES × Fin NPTENTRIES) : Pte :=
  match d.pde p.1 with
  | none => Pte.zero
  | some t => t.pte p.2

def store (d : PageDir) (p : Fin NPDENTRIES × Fin NPTENTRIES) (e : Pte) : PageDir :=
  { d with pde := Function.update d.pde p.1 ((d.pde p.1).map fun t => { t with pte := Function.update t.pte p.2 e }) }

end PageDir

def Kmem.kalloc : VmM (Option Nat) := do
  let s ← get
  match s.freelist with
  | [] => pure none
  | r :: next => do
    set { s with freelist := next }
    pure (some r)

/-- The page at the kernel address P2V of page v. -/
def Kmem.kfree (k : KernelImage) (v : Nat) : VmM Unit :=
  if KERNBASE + v * PGSIZE < k.stop ∨ PHYSTOP ≤ v * PGSIZE then throw .kfree
  else modify fun s => { freelist := v :: s.freelist, mem := Function.update s.mem v fun _ => 1 }

def memset0 (v : Nat) : VmM Unit :=
  modify fun s => { s with mem := Function.update s.mem v Bytes.zero }

/-- The directory afterwards and a pointer to the entry for va. -/
def walkpgdir (pgdir : PageDir) (va : Nat) (alloc : Bool) :
    VmM (PageDir × Option (Fin NPDENTRIES × Fin NPTENTRIES)) :=
  match pgdir.pde (PDX va) with
  | some _ => pure (pgdir, some (PDX va, PTX va))
  | none =>
    if alloc then do
      match ← Kmem.kalloc with
      | none => pure (pgdir, none)
      | some pgtab =>
        pure ({ pgdir with pde := Function.update pgdir.pde (PDX va) (some ⟨pgtab, fun _ => Pte.zero⟩) },
          some (PDX va, PTX va))
    else pure (pgdir, none)

/-- The loop of mappages with n pages to go. -/
def mapPages (perm : BitVec 12) : Nat → PageDir → Nat → Nat → VmM (PageDir × Bool)
  | 0, pgdir, _, _ => pure (pgdir, true)
  | n + 1, pgdir, a, pa => do
    match ← walkpgdir pgdir a true with
    | (pgdir, none) => pure (pgdir, false)
    | (pgdir, some pte) =>
      if (pgdir.load pte).present then throw .remap
      else mapPages perm n (pgdir.store pte ⟨pa, perm ||| PTE_P⟩) ((a + PGSIZE) % 2 ^ 32) ((pa + 1) % 2 ^ 20)

/-- Maps the pages from page pa of physical memory on. -/
def mappages (pgdir : PageDir) (va size pa : Nat) (perm : BitVec 12) : VmM (PageDir × Bool) :=
  let a := PGROUNDDOWN va
  let last := PGROUNDDOWN ((va + size + 2 ^ 32 - 1) % 2 ^ 32)
  mapPages perm ((last + 2 ^ 32 - a) % 2 ^ 32 / PGSIZE + 1) pgdir a pa

structure Kmap where
  virt : Nat
  physStart : Nat
  physEnd : Nat
  perm : BitVec 12

/-- phys_end - phys_start. -/
def Kmap.size (m : Kmap) : Nat := (m.physEnd + 2 ^ 32 - m.physStart) % 2 ^ 32

def kmap (k : KernelImage) : List Kmap :=
  [⟨KERNBASE, 0, EXTMEM, PTE_W⟩, ⟨KERNLINK, EXTMEM, k.data - KERNBASE, 0⟩,
    ⟨k.data, k.data - KERNBASE, PHYSTOP, PTE_W⟩, ⟨DEVSPACE, DEVSPACE, 0, PTE_W⟩]

/-- One turn of the loop of setupkvm. -/
def mapEntry (pgdir : PageDir) (m : Kmap) : VmM (Option PageDir) := do
  match ← mappages pgdir m.virt m.size (m.physStart / PGSIZE) m.perm with
  | (_, false) => pure none
  | (pgdir, true) => pure (some pgdir)

def setupkvm (k : KernelImage) : VmM (Option PageDir) := do
  match ← Kmem.kalloc with
  | none => pure none
  | some page =>
    if DEVSPACE < KERNBASE + PHYSTOP then throw .phystopTooHigh
    else Prog.whileSome mapEntry ⟨page, fun _ => none⟩ (kmap k)

/-- The loop of deallocuvm; it goes past oldsz in n turns if it starts less than n pages below. -/
def deallocPages (k : KernelImage) (oldsz : Nat) : Nat → PageDir → Nat → VmM PageDir
  | 0, pgdir, _ => pure pgdir
  | n + 1, pgdir, a =>
    if a < oldsz then do
      match ← walkpgdir pgdir a false with
      | (_, none) => deallocPages k oldsz n pgdir (a + (NPTENTRIES - 1) * PGSIZE + PGSIZE)
      | (_, some pte) =>
        if (pgdir.load pte).present then
          if (pgdir.load pte).addr = 0 then throw .kfree
          else do
            Kmem.kfree k (pgdir.load pte).addr
            deallocPages k oldsz n (pgdir.store pte Pte.zero) (a + PGSIZE)
        else deallocPages k oldsz n pgdir (a + PGSIZE)
    else pure pgdir

def deallocuvm (k : KernelImage) (pgdir : PageDir) (oldsz newsz : Nat) : VmM (PageDir × Nat) :=
  if oldsz ≤ newsz then pure (pgdir, oldsz)
  else do
    let pgdir ← deallocPages k oldsz (oldsz / PGSIZE + 1) pgdir (PGROUNDUP newsz)
    pure (pgdir, newsz)

/-- One turn of the loop of allocuvm, and whether it succeeds. -/
def allocPage (k : KernelImage) (pgdir : PageDir) (oldsz newsz a : Nat) : VmM (PageDir × Bool) := do
  match ← Kmem.kalloc with
  | none => do
    let (pgdir, _) ← deallocuvm k pgdir newsz oldsz
    pure (pgdir, false)
  | some mem => do
    memset0 mem
    match ← mappages pgdir a PGSIZE mem (PTE_W ||| PTE_U) with
    | (pgdir, false) => do
      let (pgdir, _) ← deallocuvm k pgdir newsz oldsz
      Kmem.kfree k mem
      pure (pgdir, false)
    | (pgdir, true) => pure (pgdir, true)

/-- The loop of allocuvm with n pages to go. -/
def allocPages (k : KernelImage) (oldsz newsz : Nat) : Nat → PageDir → Nat → VmM (PageDir × Nat)
  | 0, pgdir, _ => pure (pgdir, newsz)
  | n + 1, pgdir, a => do
    match ← allocPage k pgdir oldsz newsz a with
    | (pgdir, false) => pure (pgdir, 0)
    | (pgdir, true) => allocPages k oldsz newsz n pgdir (a + PGSIZE)

def allocuvm (k : KernelImage) (pgdir : PageDir) (oldsz newsz : Nat) : VmM (PageDir × Nat) :=
  if KERNBASE ≤ newsz then pure (pgdir, 0)
  else if newsz < oldsz then pure (pgdir, oldsz)
  else allocPages k oldsz newsz ((newsz - PGROUNDUP oldsz + PGSIZE - 1) / PGSIZE) pgdir
    (PGROUNDUP oldsz)

/-- The loop of freevm over the directory. -/
def freeTables (k : KernelImage) (pgdir : PageDir) : List (Fin NPDENTRIES) → VmM Unit
  | [] => pure ()
  | i :: rest =>
    match pgdir.pde i with
    | none => freeTables k pgdir rest
    | some t => do
      Kmem.kfree k t.page
      freeTables k pgdir rest

def freevm (k : KernelImage) (pgdir : PageDir) : VmM Unit := do
  let (pgdir, _) ← deallocuvm k pgdir KERNBASE 0
  freeTables k pgdir (List.finRange NPDENTRIES)
  Kmem.kfree k pgdir.page

def clearpteu (pgdir : PageDir) (uva : Nat) : VmM PageDir := do
  match ← walkpgdir pgdir uva false with
  | (_, none) => throw .clearpteu
  | (_, some pte) =>
    pure (pgdir.store pte { pgdir.load pte with flags := (pgdir.load pte).flags &&& ~~~PTE_U })

/-- One turn of the loop of copyuvm, at address i; if it fails, d is freed. -/
def copyPage (k : KernelImage) (pgdir d : PageDir) (i : Nat) : VmM (Option PageDir) := do
  match ← walkpgdir pgdir i false with
  | (_, none) => throw .copyuvmNoPte
  | (_, some pte) =>
    if (pgdir.load pte).present then
      match ← Kmem.kalloc with
      | none => do
        freevm k d
        pure none
      | some mem => do
        modify fun s => { s with mem := Function.update s.mem mem (s.mem (pgdir.load pte).addr) }
        match ← mappages d i PGSIZE mem (pgdir.load pte).flags with
        | (d, false) => do
          freevm k d
          pure none
        | (d, true) => pure (some d)
    else throw .copyuvmNotPresent

def copyuvm (k : KernelImage) (pgdir : PageDir) (sz : Nat) : VmM (Option PageDir) := do
  match ← setupkvm k with
  | none => pure none
  | some d =>
    Prog.whileSome (copyPage k pgdir) d ((List.range ((sz + PGSIZE - 1) / PGSIZE)).map (· * PGSIZE))

/-- The page that user address uva is in. -/
def uva2ka (pgdir : PageDir) (uva : Nat) : VmM (Option Nat) := do
  match ← walkpgdir pgdir uva false with
  | (_, none) => throw .nullPte
  | (_, some pte) =>
    if (pgdir.load pte).present = false then pure none
    else if (pgdir.load pte).user = false then pure none
    else pure (some (pgdir.load pte).addr)

/-- The loop of copyout with the bytes of buf to go; every turn but the last takes at least one of
them. -/
def copyoutPages (pgdir : PageDir) : Nat → Nat → List Byte → VmM Int
  | 0, _, _ => pure 0
  | n + 1, va, buf =>
    if buf.length = 0 then pure 0
    else do
      match ← uva2ka pgdir (PGROUNDDOWN va) with
      | none => pure (-1)
      | some pa0 => do
        let off := va - PGROUNDDOWN va
        let m := min (PGSIZE - off) buf.length
        modify fun s => { s with mem := Function.update s.mem pa0 (put (s.mem pa0) off (buf.take m)) }
        copyoutPages pgdir n ((PGROUNDDOWN va + PGSIZE) % 2 ^ 32) (buf.drop m)

/-- Copies len bytes, those of p. -/
def copyout (pgdir : PageDir) (va : Nat) (p : List Byte) : VmM Int :=
  copyoutPages pgdir p.length va p

end Xv6
