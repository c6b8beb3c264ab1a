import Mathlib.Data.List.FinRange
import Xv6.DiskLayout
import Xv6.IcacheSteps
import Xv6.Prog

namespace Xv6

open Bytes

/-- An entry of the inode cache with its copy of the disk inode. -/
structure Inode where
  inum : Nat
  ref : Nat
  locked : Bool
  valid : Bool
  din : Dinode

/-- The blocks of the disk as the code sees them through the buffer cache, the superblock in
memory, the inode cache, and what has been typed at the console. -/
structure Fs where
  disk : Nat → DiskBlock
  sb : Superblock
  inode : InodeSlot → Inode
  input : List Byte

inductive FsPanic
  | incorrectBlockno | outOfBlocks | freeingFreeBlock | noInodes | igetNoInodes | ilock | ilockNoType | iunlock
  | bmapOutOfRange | dirlookupNotDir | dirlinkRead | dirlink | unlinkNlink | isdirempty | unlinkWritei
  | createDots | createDirlink | filedup | fileclose | initExiting
  deriving DecidableEq, Repr

inductive FsHalt
  | panic (p : FsPanic)
  | asleep
  deriving DecidableEq, Repr

abbrev FsM := Prog FsHalt Fs

/-- bread, with the block's contents as the result. -/
def readBlock (b : Nat) : FsM DiskBlock := do
  let s ← get
  if FSSIZE ≤ b then throw (.panic .incorrectBlockno)
  else return s.disk b

/-- New contents of a block are given to log_write, in a transaction that has room for them. -/
def logBlock (b : Nat) (data : DiskBlock) : FsM Unit :=
  modify fun s => { s with disk := Function.update s.disk b data }

def setInode (ip : InodeSlot) (v : Inode) : FsM Unit :=
  modify fun s => { s with inode := Function.update s.inode ip v }

def setDin (ip : InodeSlot) (d : Dinode) : FsM Unit := do
  let s ← get
  setInode ip { s.inode ip with din := d }

def readsb : FsM Unit := do
  let data ← readBlock 1
  modify fun s => { s with sb := Superblock.decode data }

def bzero (b : Nat) : FsM Unit := do
  let _ ← readBlock b
  logBlock b zero

/-- The loop of balloc over the blocks of the free map; b is the first block of each. -/
def ballocScan : List Nat → FsM Nat
  | [] => throw (.panic .outOfBlocks)
  | b :: bs => do
    let s ← get
    let data ← readBlock (s.sb.bblock b)
    match (List.range (min BPB (s.sb.size - b))).find? fun bi => !mapBit data bi with
    | some bi =>
      logBlock (s.sb.bblock b) (setMapBit data bi)
      bzero (b + bi)
      return b + bi
    | none => ballocScan bs

def balloc : FsM Nat := do
  let s ← get
  ballocScan ((List.range ((s.sb.size + BPB - 1) / BPB)).map (· * BPB))

def bfree (b : Nat) : FsM Unit := do
  readsb
  let s ← get
  let data ← readBlock (s.sb.bblock b)
  if mapBit data (b % BPB) = false then throw (.panic .freeingFreeBlock)
  else logBlock (s.sb.bblock b) (clearMapBit data (b % BPB))

def Fs.find (s : Fs) (inum : Nat) : Option InodeSlot :=
  (List.finRange NINODE).find? fun ip => 0 < (s.inode ip).ref ∧ (s.inode ip).inum = inum

def Fs.empty (s : Fs) : Option InodeSlot :=
  (List.finRange NINODE).find? fun ip => (s.inode ip).ref = 0

def iget (inum : Nat) : FsM InodeSlot := do
  let s ← get
  match s.find inum with
  | some ip =>
    setInode ip { s.inode ip with ref := (s.inode ip).ref + 1 }
    return ip
  | none =>
    match s.empty with
    | some ip =>
      setInode ip { s.inode ip with inum := inum, ref := 1, valid := false }
      return ip
    | none => throw (.panic .igetNoInodes)

def idup (ip : InodeSlot) : FsM InodeSlot := do
  let s ← get
  setInode ip { s.inode ip with ref := (s.inode ip).ref + 1 }
  return ip

def iallocScan (type : BitVec 16) : List Nat → FsM InodeSlot
  | [] => throw (.panic .noInodes)
  | inum :: inums => do
    let s ← get
    let data ← readBlock (s.sb.iblock inum)
    if (getDinode data inum).type = 0 then
      logBlock (s.sb.iblock inum) (putDinode data inum { Dinode.zero with type := type })
      iget inum
    else iallocScan type inums

def ialloc (type : BitVec 16) : FsM InodeSlot := do
  let s ← get
  iallocScan type (List.range' 1 (s.sb.ninodes - 1))

def iupdate (ip : InodeSlot) : FsM Unit := do
  let s ← get
  let data ← readBlock (s.sb.iblock (s.inode ip).inum)
  logBlock (s.sb.iblock (s.inode ip).inum) (putDinode data (s.inode ip).inum (s.inode ip).din)

def ilock (ip : InodeSlot) : FsM Unit := do
  let s ← get
  if (s.inode ip).ref < 1 then throw (.panic .ilock)
  else if (s.inode ip).locked then throw .asleep
  else
    setInode ip { s.inode ip with locked := true }
    if (s.inode ip).valid = false then
      let data ← readBlock (s.sb.iblock (s.inode ip).inum)
      let din := getDinode data (s.inode ip).inum
      setInode ip { s.inode ip with locked := true, valid := true, din := din }
      if din.type = 0 then throw (.panic .ilockNoType)

def iunlock (ip : InodeSlot) : FsM Unit := do
  let s ← get
  if (s.inode ip).locked = false ∨ (s.inode ip).ref < 1 then throw (.panic .iunlock)
  else setInode ip { s.inode ip with locked := false }

def Dinode.setAddr (d : Dinode) (k : Fin (NDIRECT + 1)) (b : Nat) : Dinode :=
  { d with addrs := Function.update d.addrs k (BitVec.ofNat 32 b) }

/-- The address in one of the slots of the inode, allocated if there is none. -/
def bmapSlot (ip : InodeSlot) (k : Fin (NDIRECT + 1)) : FsM Nat := do
  let s ← get
  let addr := ((s.inode ip).din.addrs k).toNat
  if addr = 0 then
    let addr ← balloc
    let s ← get
    setDin ip ((s.inode ip).din.setAddr k addr)
    return addr
  else return addr

def bmap (ip : InodeSlot) (bn : Nat) : FsM Nat :=
  if h : bn < NDIRECT then bmapSlot ip ⟨bn, Nat.lt_succ_of_lt h⟩
  else if bn - NDIRECT < NINDIRECT then do
    let ind ← bmapSlot ip (Fin.last NDIRECT)
    let data ← readBlock ind
    let addr := (u32 data (4 * (bn - NDIRECT))).toNat
    if addr = 0 then
      let addr ← balloc
      logBlock ind (setU32 data (4 * (bn - NDIRECT)) (BitVec.ofNat 32 addr))
      return addr
    else return addr
  else throw (.panic .bmapOutOfRange)

def itruncDirect (ip : InodeSlot) (k : Fin NDIRECT) : FsM Unit := do
  let s ← get
  let addr := ((s.inode ip).din.addrs k.castSucc).toNat
  if addr ≠ 0 then
    bfree addr
    let s ← get
    setDin ip ((s.inode ip).din.setAddr k.castSucc 0)

def itruncEntry (data : DiskBlock) (j : Nat) : FsM Unit :=
  if (u32 data (4 * j)).toNat ≠ 0 then bfree (u32 data (4 * j)).toNat else pure ()

def itruncIndirect (ip : InodeSlot) : FsM Unit := do
  let s ← get
  let addr := ((s.inode ip).din.addrs (Fin.last NDIRECT)).toNat
  if addr ≠ 0 then
    let data ← readBlock addr
    forM (List.range NINDIRECT) (itruncEntry data)
    bfree addr
    let s ← get
    setDin ip ((s.inode ip).din.setAddr (Fin.last NDIRECT) 0)

def itrunc (ip : InodeSlot) : FsM Unit := do
  forM (List.finRange NDIRECT) (itruncDirect ip)
  itruncIndirect ip
  let s ← get
  setDin ip { (s.inode ip).din with size := 0 }
  iupdate ip

def iput (ip : InodeSlot) : FsM Unit := do
  let s ← get
  if (s.inode ip).ref = 1 ∧ (s.inode ip).valid ∧ (s.inode ip).din.nlink = 0 then
    itrunc ip
    let s ← get
    setDin ip { (s.inode ip).din with type := 0 }
    iupdate ip
    let s ← get
    setInode ip { s.inode ip with valid := false }
  let s ← get
  setInode ip { s.inode ip with ref := (s.inode ip).ref - 1 }

def iunlockput (ip : InodeSlot) : FsM Unit := do
  iunlock ip
  iput ip

/-- CONSOLE of file.h, the only device with an entry in devsw. -/
def consoleMajor : BitVec 16 := 1

/-- What a read of n bytes gets of the bytes typed so far, and what is left: a line, up to an end
of file; with too little typed the reader sleeps. -/
def consoleTake : Nat → Bool → List Byte → Option (List Byte × List Byte)
  | 0, _, input => some ([], input)
  | _ + 1, _, [] => none
  | n + 1, first, c :: input =>
    if c = 4 then some ([], if first then input else c :: input)
    else if c = 10 then some ([c], input)
    else (consoleTake n false input).map fun r => (c :: r.1, r.2)

def consoleread (ip : InodeSlot) (n : Nat) : FsM (List Byte) := do
  iunlock ip
  let s ← get
  match consoleTake n true s.input with
  | some (line, input) =>
    set { s with input := input }
    ilock ip
    return line
  | none => throw .asleep

def consolewrite (ip : InodeSlot) (n : Nat) : FsM Nat := do
  iunlock ip
  ilock ip
  return n

/-- The passes of the loops of readi and writei: the offset and the number of bytes of each. The
first argument bounds the number of passes; each handles a byte at least. -/
def chunks : Nat → Nat → Nat → List (Nat × Nat)
  | 0, _, _ => []
  | fuel + 1, off, n =>
    if n = 0 then [] else
      (off, min n (BSIZE - off % BSIZE)) ::
        chunks fuel (off + min n (BSIZE - off % BSIZE)) (n - min n (BSIZE - off % BSIZE))

def readChunks (ip : InodeSlot) : List (Nat × Nat) → FsM (List Byte)
  | [] => return []
  | (off, m) :: cs => do
    let addr ← bmap ip (off / BSIZE)
    let data ← readBlock addr
    let rest ← readChunks ip cs
    return Bytes.get data (off % BSIZE) m ++ rest

/-- off and n are unsigned ints; none stands for the result -1. -/
def readi (ip : InodeSlot) (off n : Nat) : FsM (Option (List Byte)) := do
  let s ← get
  let din := (s.inode ip).din
  if din.type = tDev then
    if din.major = consoleMajor then some <$> consoleread ip n else return none
  else if din.size.toNat < off ∨ (off + n) % 2 ^ 32 < off then return none
  else
    let n := if din.size.toNat < off + n then din.size.toNat - off else n
    some <$> readChunks ip (chunks n off n)

def writeChunks (ip : InodeSlot) : List (Nat × Nat) → List Byte → FsM Unit
  | [], _ => return ()
  | (off, m) :: cs, src => do
    let addr ← bmap ip (off / BSIZE)
    let data ← readBlock addr
    logBlock addr (put data (off % BSIZE) (src.take m))
    writeChunks ip cs (src.drop m)

def writei (ip : InodeSlot) (src : List Byte) (off : Nat) : FsM (Option Nat) := do
  let s ← get
  let din := (s.inode ip).din
  if din.type = tDev then
    if din.major = consoleMajor then some <$> consolewrite ip src.length else return none
  else if din.size.toNat < off ∨ (off + src.length) % 2 ^ 32 < off then return none
  else if MAXFILE * BSIZE < off + src.length then return none
  else
    writeChunks ip (chunks src.length off src.length) src
    if 0 < src.length ∧ din.size.toNat < off + src.length then
      let s ← get
      setDin ip { (s.inode ip).din with size := BitVec.ofNat 32 (off + src.length) }
      iupdate ip
    return some src.length

/-- The offsets at which the loops over a directory read an entry. -/
def direntOffsets (size : Nat) : List Nat := (List.range ((size + 15) / 16)).map (16 * ·)

def readDirent (dp : InodeSlot) (off : Nat) (w : FsPanic) : FsM (List Byte) := do
  match ← readi dp off 16 with
  | some de => if de.length = 16 then return de else throw (.panic w)
  | none => throw (.panic w)

def dirlookupScan (dp : InodeSlot) (name : Name) : List Nat → FsM (Option (InodeSlot × Nat))
  | [] => return none
  | off :: offs => do
    let de ← readDirent dp off .dirlinkRead
    if direntInum de = 0 then dirlookupScan dp name offs
    else if direntName de = name then
      let ip ← iget (direntInum de)
      return some (ip, off)
    else dirlookupScan dp name offs

def dirlookup (dp : InodeSlot) (name : Name) : FsM (Option (InodeSlot × Nat)) := do
  let s ← get
  if (s.inode dp).din.type ≠ tDir then throw (.panic .dirlookupNotDir)
  else dirlookupScan dp name (direntOffsets (s.inode dp).din.size.toNat)

/-- The offset of the first empty entry, or of the end. -/
def dirlinkScan (dp : InodeSlot) (last : Nat) : List Nat → FsM Nat
  | [] => return last
  | off :: offs => do
    let de ← readDirent dp off .dirlinkRead
    if direntInum de = 0 then return off else dirlinkScan dp last offs

def dirlink (dp : InodeSlot) (name : Name) (inum : Nat) : FsM Bool := do
  match ← dirlookup dp name with
  | some (ip, _) =>
    iput ip
    return false
  | none =>
    let s ← get
    let size := (s.inode dp).din.size.toNat
    let off ← dirlinkScan dp (16 * ((size + 15) / 16)) (direntOffsets size)
    let n ← writei dp (encodeDirent inum name) off
    if n = some 16 then return true else throw (.panic .dirlink)

def slash : Byte := 47

/-- The next path element and the rest of the path, without slashes in front. -/
def skipelem (path : List Byte) : Option (Name × List Byte) :=
  match path.dropWhile (· = slash) with
  | [] => none
  | c :: cs =>
    some (((c :: cs).takeWhile (· ≠ slash)).take DIRSIZ,
      ((c :: cs).dropWhile (· ≠ slash)).dropWhile (· = slash))

/-- The elements that namex takes from the path one after the other. -/
def pathElems : Nat → List Byte → List Name
  | 0, _ => []
  | fuel + 1, path =>
    match skipelem path with
    | none => []
    | some (name, rest) => name :: pathElems fuel rest

def namexLoop (parent : Bool) : InodeSlot → List Name → FsM (Option (InodeSlot × Name))
  | ip, [] => do
    if parent then
      iput ip
      return none
    else return some (ip, [])
  | ip, name :: names => do
    ilock ip
    let s ← get
    if (s.inode ip).din.type ≠ tDir then
      iunlockput ip
      return none
    else if parent ∧ names = [] then
      iunlock ip
      return some (ip, name)
    else
      match ← dirlookup ip name with
      | none =>
        iunlockput ip
        return none
      | some (next, _) =>
        iunlockput ip
        namexLoop parent next names

def namex (cwd : InodeSlot) (path : List Byte) (parent : Bool) :
    FsM (Option (InodeSlot × Name)) := do
  let ip ← if path.head? = some slash then iget ROOTINO else idup cwd
  namexLoop parent ip (pathElems path.length path)

def namei (cwd : InodeSlot) (path : List Byte) : FsM (Option InodeSlot) := do
  let r ← namex cwd path false
  return r.map Prod.fst

def nameiparent (cwd : InodeSlot) (path : List Byte) : FsM (Option (InodeSlot × Name)) :=
  namex cwd path true

end Xv6
