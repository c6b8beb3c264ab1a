import Xv6.FsCalls
import Xv6.Vm

namespace Xv6

open Bytes

abbrev MAXARG : Nat := 32

abbrev ELF_MAGIC : Nat := 0x464C457F

abbrev ELF_PROG_LOAD : Nat := 1

/-- What a read into a buffer of n bytes comes to: the bytes that are put there, and the int that is
returned, which is their number or negative. -/
structure ReadResult (n : Nat) where
  ret : Int
  data : List Byte
  fits : data.length ≤ n
  range : -2 ^ 31 ≤ ret
  honest : 0 ≤ ret → ret = data.length

namespace ReadResult

variable {n : Nat}

def failed : ReadResult n := ⟨-1, [], Nat.zero_le n, by decide, fun h => absurd h (by decide)⟩

def done (b : List Byte) : ReadResult n :=
  ⟨(b.take n).length, b.take n, by simp, by omega, fun _ => rfl⟩

end ReadResult

/-- The read routines of devsw, by major number. -/
abbrev Devsw := BitVec 16 → Option (InodeSlot → (n : Nat) → FsM (ReadResult n))

/-- readi with any devices. -/
def readInto (devsw : Devsw) (ip : InodeSlot) (off n : Nat) : FsM (ReadResult n) := do
  let s ← get
  if (s.inode ip).din.type = tDev then
    match devsw (s.inode ip).din.major with
    | none => return .failed
    | some read => read ip n
  else
    match ← readi ip off n with
    | none => return .failed
    | some b => return .done b

/-- devsw as the kernel sets it up. -/
def kernelDevsw : Devsw := fun major =>
  if major = consoleMajor then some fun ip n => return .done (← consoleread ip n) else none

/-- A buffer after data has been put at its start. -/
def overwrite (buf data : List Byte) : List Byte := data ++ buf.drop data.length

/-- The header that exec goes on with, or none if it goes to bad; elf is what the variable holds
before. The int that readi returns is compared with the size as an unsigned number. -/
def execHeader (devsw : Devsw) (ip : InodeSlot) (elf : List Byte) : FsM (Option (List Byte)) := do
  let r ← readInto devsw ip 0 52
  if (r.ret % 2 ^ 32).toNat < 52 then return none
  else if word32 (overwrite elf r.data) 0 ≠ ELF_MAGIC then return none
  else return some (overwrite elf r.data)

/-- What exec changes of the calling process; tf is its trap frame. -/
structure ExecProc where
  pgdir : PageDir
  sz : Nat
  eip : Nat
  esp : Nat
  name : List Byte

/-- How often begin_op and end_op have been called is counted. -/
structure ExecState where
  fs : Fs
  mem : Kmem
  proc : ExecProc
  begun : Nat
  ended : Nat

inductive ExecHalt
  | fs (h : FsHalt)
  | vm (p : VmPanic)
  deriving DecidableEq, Repr

abbrev ExecM := Prog ExecHalt ExecState

namespace Exec

variable {α : Type}

def onFs (x : FsM α) : ExecM α := (x.zoom ExecState.fs fun f s => { s with fs := f }).mapError .fs

def onVm (x : VmM α) : ExecM α := (x.zoom ExecState.mem fun m s => { s with mem := m }).mapError .vm

@[simp] theorem wp_onFs {x : FsM α} {Q : α → ExecState → Prop} {E : ExecHalt → ExecState → Prop}
    {s : ExecState} :
    (onFs x).wp Q E s ↔
      x.wp (fun a f => Q a { s with fs := f }) (fun e f => E (.fs e) { s with fs := f }) s.fs := by
  simp only [onFs, Prog.wp_mapError, Prog.wp_zoom]

@[simp] theorem wp_onVm {x : VmM α} {Q : α → ExecState → Prop} {E : ExecHalt → ExecState → Prop}
    {s : ExecState} :
    (onVm x).wp Q E s ↔
      x.wp (fun a m => Q a { s with mem := m }) (fun e m => E (.vm e) { s with mem := m }) s.mem := by
  simp only [onVm, Prog.wp_mapError, Prog.wp_zoom]

theorem returns_onFs {x : FsM α} {s t : ExecState} {a : α} (h : Prog.Returns (onFs x) s a t) :
    ∃ f, Prog.Returns x s.fs a f ∧ t = { s with fs := f } := by
  unfold Prog.Returns onFs Prog.mapError Prog.zoom at *
  dsimp only at h
  generalize hx : x s.fs = r at h
  obtain ⟨e | b, f⟩ := r
  · cases h
  · cases h
    exact ⟨f, rfl, rfl⟩

def begin_op : ExecM Unit := modify fun s => { s with begun := s.begun + 1 }

def end_op : ExecM Unit := modify fun s => { s with ended := s.ended + 1 }

/-- The values of the local variables of exec before they are set. -/
structure Locals where
  elf : List Byte
  ph : List Byte

section

variable (k : KernelImage) (devsw : Devsw) (ip : InodeSlot)

/-- One turn of the loop of loaduvm. -/
def loadPage (pgdir : PageDir) (addr offset sz i : Nat) : ExecM Bool := do
  match ← onVm (walkpgdir pgdir ((addr + i) % 2 ^ 32) false) with
  | (_, none) => throw (.vm .loaduvmNoPte)
  | (_, some pte) =>
    let pa := (pgdir.load pte).addr
    let n := if sz - i < PGSIZE then sz - i else PGSIZE
    let r ← onFs (readInto devsw ip ((offset + i) % 2 ^ 32) n)
    onVm (modify fun s => { s with mem := Function.update s.mem pa (put (s.mem pa) 0 r.data) })
    return r.ret = n

def loadPages (pgdir : PageDir) (addr offset sz : Nat) : List Nat → ExecM Bool
  | [] => return true
  | i :: rest => do
    if ← loadPage devsw ip pgdir addr offset sz i then loadPages pgdir addr offset sz rest
      else return false

def loaduvm (pgdir : PageDir) (addr offset sz : Nat) : ExecM Bool :=
  if addr % PGSIZE ≠ 0 then throw (.vm .loaduvmNotAligned)
  else loadPages devsw ip pgdir addr offset sz
    ((List.range ((sz + PGSIZE - 1) / PGSIZE)).map (· * PGSIZE))

/-- The program header in the buffer is loadable: its segment is given memory and loaded. The size
afterwards, or none if exec goes to bad. -/
def loadSegment (pgdir : PageDir) (sz : Nat) (ph : List Byte) : ExecM (PageDir × Option Nat) := do
  let offset := word32 ph 4
  let vaddr := word32 ph 8
  let filesz := word32 ph 16
  let memsz := word32 ph 20
  if memsz < filesz then return (pgdir, none)
  else if (vaddr + memsz) % 2 ^ 32 < vaddr then return (pgdir, none)
  else
    let (pgdir, sz) ← onVm (allocuvm k pgdir sz ((vaddr + memsz) % 2 ^ 32))
    if sz = 0 then return (pgdir, none)
    else if vaddr % PGSIZE ≠ 0 then return (pgdir, none)
    else if ← loaduvm devsw ip pgdir vaddr offset filesz then return (pgdir, some sz)
    else return (pgdir, none)

/-- The loop over the program headers, which are read at the given offsets. -/
def segments (pgdir : PageDir) (sz : Nat) (ph : List Byte) : List Nat → ExecM (PageDir × Option Nat)
  | [] => return (pgdir, some sz)
  | off :: offs => do
    let r ← onFs (readInto devsw ip off 32)
    let ph := overwrite ph r.data
    if r.ret ≠ 32 then return (pgdir, none)
    else if word32 ph 0 ≠ ELF_PROG_LOAD then segments pgdir sz ph offs
    else
      match ← loadSegment k devsw ip pgdir sz ph with
      | (pgdir, none) => return (pgdir, none)
      | (pgdir, some sz) => segments pgdir sz ph offs

end

/-- Where the program headers are that the header elf tells of. -/
def phOffsets (elf : List Byte) : List Nat :=
  (List.range (word16 elf 44)).map fun i => (word32 elf 28 + 32 * i) % 2 ^ 32

/-- The place below sp for n bytes, rounded down to a word. -/
def below (sp n : Nat) : Nat := (sp + 2 ^ 32 - n % 2 ^ 32) % 2 ^ 32 / 4 * 4

/-- The loop over the arguments. The stack pointer and the entries of ustack, or none if exec goes
to bad. -/
def pushArgs (pgdir : PageDir) (sp : Nat) (ptrs : List Nat) :
    List (List Byte) → VmM (Option (Nat × List Nat))
  | [] => return some (sp, ptrs)
  | arg :: args => do
    if MAXARG ≤ ptrs.length then return none
    else
      let sp := below sp (arg.length + 1)
      if (← copyout pgdir sp (arg ++ [0])) < 0 then return none
      else pushArgs pgdir sp (ptrs ++ [sp]) args

/-- The words of ustack: a return address, argc, argv, and the array that argv points to. -/
def ustack (sp : Nat) (ptrs : List Nat) : List Nat :=
  [0xffffffff, ptrs.length, (sp + 2 ^ 32 - (ptrs.length + 1) * 4) % 2 ^ 32] ++ ptrs ++ [0]

def wordBytes (ws : List Nat) : List Byte := ws.flatMap fun w => bytes32 (BitVec.ofNat 32 w)

def pushVector (pgdir : PageDir) (sp : Nat) (ptrs : List Nat) : VmM (Option Nat) := do
  let sp' := (sp + 2 ^ 32 - (3 + ptrs.length + 1) * 4) % 2 ^ 32
  if (← copyout pgdir sp' (wordBytes (ustack sp ptrs))) < 0 then return none else return some sp'

/-- The stack of the new image: the size and the stack pointer, or none if exec goes to bad. -/
@[irreducible] def stack (k : KernelImage) (pgdir : PageDir) (sz : Nat) (argv : List (List Byte)) :
    VmM (PageDir × Option (Nat × Nat)) := do
  let sz := PGROUNDUP sz
  let (pgdir, sz) ← allocuvm k pgdir sz ((sz + 2 * PGSIZE) % 2 ^ 32)
  if sz = 0 then return (pgdir, none)
  else
    let pgdir ← clearpteu pgdir (sz - 2 * PGSIZE)
    match ← pushArgs pgdir sz [] argv with
    | none => return (pgdir, none)
    | some (sp, ptrs) =>
      match ← pushVector pgdir sp ptrs with
      | none => return (pgdir, none)
      | some sp => return (pgdir, some (sz, sp))

def freeNew (k : KernelImage) : Option PageDir → ExecM Unit
  | none => return ()
  | some pgdir => onVm (freevm k pgdir)

def release : Option InodeSlot → ExecM Unit
  | none => return ()
  | some ip => do
    onFs (iunlockput ip)
    end_op

/-- The label bad. -/
def bad (k : KernelImage) (pgdir : Option PageDir) (ip : Option InodeSlot) : ExecM Int := do
  freeNew k pgdir
  release ip
  return -1

/-- What safestrcpy puts in the 16 bytes of the name: the path from behind its last slash. -/
def progName (path : List Byte) : List Byte := (path.reverse.takeWhile (· ≠ slash)).reverse.take 15

/-- The new image takes the place of the old one. -/
def commit (k : KernelImage) (path : List Byte) (pgdir : PageDir) (sz entry sp : Nat) :
    ExecM Int := do
  let s ← get
  set { s with proc := ⟨pgdir, sz, entry, sp, progName path⟩ }
  onVm (freevm k s.proc.pgdir)
  return 0

/-- exec from the point where ip is locked. -/
def locked (k : KernelImage) (devsw : Devsw) (vars : Locals) (path : List Byte)
    (argv : List (List Byte)) (ip : InodeSlot) : ExecM Int := do
  match ← onFs (execHeader devsw ip vars.elf) with
  | none => bad k none (some ip)
  | some elf =>
    match ← onVm (setupkvm k) with
    | none => bad k none (some ip)
    | some pgdir =>
      match ← segments k devsw ip pgdir 0 vars.ph (phOffsets elf) with
      | (pgdir, none) => bad k (some pgdir) (some ip)
      | (pgdir, some sz) =>
        onFs (iunlockput ip)
        end_op
        match ← onVm (stack k pgdir sz argv) with
        | (pgdir, none) => bad k (some pgdir) none
        | (pgdir, some (sz, sp)) => commit k path pgdir sz (word32 elf 24) sp

end Exec

/-- argv is the array of exec up to its null pointer; cwd is the current directory. -/
def exec (k : KernelImage) (devsw : Devsw) (vars : Exec.Locals) (cwd : InodeSlot) (path : List Byte)
    (argv : List (List Byte)) : ExecM Int := do
  Exec.begin_op
  match ← Exec.onFs (namei cwd path) with
  | none => do
    Exec.end_op
    return -1
  | some ip => do
    Exec.onFs (ilock ip)
    Exec.locked k devsw vars path argv ip

end Xv6
