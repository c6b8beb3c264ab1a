import Xv6.Fs

namespace Xv6

open Bytes

def dot : Name := [46]

def dotdot : Name := [46, 46]

def setNlink (ip : InodeSlot) (f : BitVec 16 → BitVec 16) : FsM Unit := do
  let s ← get
  setDin ip { (s.inode ip).din with nlink := f (s.inode ip).din.nlink }
  iupdate ip

/-- The entries . and .. of a new directory; .. counts as a link to the parent. -/
def createDots (dp ip : InodeSlot) : FsM Unit := do
  setNlink dp (· + 1)
  let s ← get
  if ← dirlink ip dot (s.inode ip).inum then
    if ← dirlink ip dotdot (s.inode dp).inum then return ()
    else throw (.panic .createDots)
  else throw (.panic .createDots)

/-- create once the parent is locked and has no entry of that name. -/
def createNew (dp : InodeSlot) (name : Name) (type major minor : BitVec 16) : FsM InodeSlot := do
  let ip ← ialloc type
  ilock ip
  let s ← get
  setDin ip { (s.inode ip).din with major := major, minor := minor, nlink := 1 }
  iupdate ip
  if type = tDir then createDots dp ip
  let s ← get
  if ← dirlink dp name (s.inode ip).inum then
    iunlockput dp
    return ip
  else throw (.panic .createDirlink)

def create (cwd : InodeSlot) (path : List Byte) (type major minor : BitVec 16) :
    FsM (Option InodeSlot) := do
  match ← nameiparent cwd path with
  | none => return none
  | some (dp, name) =>
    ilock dp
    match ← dirlookup dp name with
    | some (ip, _) =>
      iunlockput dp
      ilock ip
      let s ← get
      if type = tFile ∧ (s.inode ip).din.type = tFile then return some ip
      else
        iunlockput ip
        return none
    | none => some <$> createNew dp name type major minor

/-- The end of sys_link when the new name cannot be made. -/
def linkUndo (ip : InodeSlot) : FsM Bool := do
  ilock ip
  setNlink ip (· - 1)
  iunlockput ip
  return false

def link (cwd : InodeSlot) (old new : List Byte) : FsM Bool := do
  match ← namei cwd old with
  | none => return false
  | some ip =>
    ilock ip
    let s ← get
    if (s.inode ip).din.type = tDir then
      iunlockput ip
      return false
    else
      setNlink ip (· + 1)
      iunlock ip
      match ← nameiparent cwd new with
      | none => linkUndo ip
      | some (dp, name) =>
        ilock dp
        if ← dirlink dp name (s.inode ip).inum then
          iunlockput dp
          iput ip
          return true
        else
          iunlockput dp
          linkUndo ip

def isdiremptyScan (dp : InodeSlot) : List Nat → FsM Bool
  | [] => return true
  | off :: offs => do
    let de ← readDirent dp off .isdirempty
    if direntInum de = 0 then isdiremptyScan dp offs else return false

def isdirempty (dp : InodeSlot) : FsM Bool := do
  let s ← get
  isdiremptyScan dp ((direntOffsets (s.inode dp).din.size.toNat).drop 2)

/-- The end of sys_unlink: the entry at off in dp, which names ip, goes. -/
def unlinkEntry (dp ip : InodeSlot) (off : Nat) : FsM Unit := do
  let n ← writei dp (List.replicate 16 0) off
  if n ≠ some 16 then throw (.panic .unlinkWritei)
  else
    let s ← get
    if (s.inode ip).din.type = tDir then setNlink dp (· - 1)
    iunlockput dp
    setNlink ip (· - 1)
    iunlockput ip

def unlink (cwd : InodeSlot) (path : List Byte) : FsM Bool := do
  match ← nameiparent cwd path with
  | none => return false
  | some (dp, name) =>
    ilock dp
    if name = dot ∨ name = dotdot then
      iunlockput dp
      return false
    else
      match ← dirlookup dp name with
      | none =>
        iunlockput dp
        return false
      | some (ip, off) =>
        ilock ip
        let s ← get
        if (s.inode ip).din.nlink.toInt < 1 then throw (.panic .unlinkNlink)
        else
          let full ← if (s.inode ip).din.type = tDir then (! ·) <$> isdirempty ip else pure false
          if full then
            iunlockput ip
            iunlockput dp
            return false
          else
            unlinkEntry dp ip off
            return true

/-- open without O_CREATE: the inode locked, or none. -/
def openExisting (cwd : InodeSlot) (path : List Byte) (rdonly : Bool) : FsM (Option InodeSlot) := do
  match ← namei cwd path with
  | none => return none
  | some ip =>
    ilock ip
    let s ← get
    if (s.inode ip).din.type = tDir ∧ rdonly = false then
      iunlockput ip
      return none
    else return some ip

/-- The new current directory of chdir, unlocked. -/
def chdirTarget (cwd : InodeSlot) (path : List Byte) : FsM (Option InodeSlot) := do
  match ← namei cwd path with
  | none => return none
  | some ip =>
    ilock ip
    let s ← get
    if (s.inode ip).din.type ≠ tDir then
      iunlockput ip
      return none
    else
      iunlock ip
      return some ip

/-- create as mkdir and mknod use it. -/
def makeNode (cwd : InodeSlot) (path : List Byte) (type major minor : BitVec 16) : FsM Bool := do
  match ← create cwd path type major minor with
  | none => return false
  | some ip =>
    iunlockput ip
    return true

/-- A field of a structure read from a file, as a number. -/
def word32 (b : List Byte) (off : Nat) : Nat := (Bytes.word32 b off).toNat

def word16 (b : List Byte) (off : Nat) : Nat := (Bytes.word16 b off).toNat

/-- Whether memory can be had at the points of exec where it is asked for, and the bytes that
stand where the ELF header is to be read. -/
structure ExecMemory where
  setupkvm : Bool
  allocuvm : Nat → Bool
  stack : Bool
  header : List Byte

def loaduvmPages (ip : InodeSlot) (off sz : Nat) : List Nat → FsM Bool
  | [] => return true
  | i :: is => do
    let n := min (sz - i) PGSIZE
    match ← readi ip ((off + i) % 2 ^ 32) n with
    | some b => if b.length = n then loaduvmPages ip off sz is else return false
    | none => return false

def loaduvm (ip : InodeSlot) (off sz : Nat) : FsM Bool :=
  loaduvmPages ip off sz ((List.range ((sz + PGSIZE - 1) / PGSIZE)).map (· * PGSIZE))

/-- One program header; the result false is exec's jump to bad. -/
def execSegment (ip : InodeSlot) (mem : ExecMemory) (i off : Nat) : FsM Bool := do
  match ← readi ip off 32 with
  | none => return false
  | some ph =>
    if ph.length ≠ 32 then return false
    else if word32 ph 0 ≠ 1 then return true
    else if word32 ph 20 < word32 ph 16 then return false
    else if (word32 ph 8 + word32 ph 20) % 2 ^ 32 < word32 ph 8 then return false
    else if mem.allocuvm i = false then return false
    else if word32 ph 8 % PGSIZE ≠ 0 then return false
    else loaduvm ip (word32 ph 4) (word32 ph 16)

def execSegments (ip : InodeSlot) (mem : ExecMemory) (phoff : Nat) : List Nat → FsM Bool
  | [] => return true
  | i :: is => do
    if ← execSegment ip mem i ((phoff + 32 * i) % 2 ^ 32) then execSegments ip mem phoff is
      else return false

/-- A read of -1 bytes passes the test for a short header, which compares unsigned numbers. -/
def execLoad (ip : InodeSlot) (mem : ExecMemory) : FsM Bool := do
  let elf := (← readi ip 0 52).getD mem.header
  if elf.length < 52 then return false
  else if word32 elf 0 ≠ 0x464C457F then return false
  else if mem.setupkvm = false then return false
  else execSegments ip mem (word32 elf 28) (List.range (word16 elf 44))

/-- exec up to the point where it has let go of the inode. -/
def execFile (cwd : InodeSlot) (path : List Byte) (mem : ExecMemory) : FsM Bool := do
  match ← namei cwd path with
  | none => return false
  | some ip =>
    ilock ip
    let loaded ← execLoad ip mem
    iunlockput ip
    return loaded

end Xv6
