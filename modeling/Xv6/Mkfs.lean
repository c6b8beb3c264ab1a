import Xv6.FsCalls

namespace Xv6

open Bytes

abbrev NINODES : Nat := 200

abbrev nbitmap : Nat := FSSIZE / (BSIZE * 8) + 1
abbrev ninodeblocks : Nat := NINODES / IPB + 1
abbrev nlog : Nat := LOGSIZE

/-- The boot block, the superblock, the log, the inodes and the free map. -/
abbrev nmeta : Nat := 2 + nlog + ninodeblocks + nbitmap

def mkfsSb : Superblock :=
  { size := FSSIZE
    nblocks := FSSIZE - nmeta
    ninodes := NINODES
    nlog := nlog
    logstart := 2
    inodestart := 2 + nlog
    bmapstart := 2 + nlog + ninodeblocks }

def Superblock.encode (sb : Superblock) : List Byte :=
  [sb.size, sb.nblocks, sb.ninodes, sb.nlog, sb.logstart, sb.inodestart, sb.bmapstart].flatMap
    fun n =>
    bytes32 (BitVec.ofNat 32 n)

/-- The image file and mkfs's two counters. -/
structure Mkfs where
  image : Nat → DiskBlock
  freeinode : Nat
  freeblock : Nat

namespace Mkfs

/-- The file is FSSIZE blocks long; past its end read fails and mkfs exits. -/
def rsect (st : Mkfs) (sec : Nat) : Option DiskBlock :=
  if sec < FSSIZE then some (st.image sec) else none

def wsect (st : Mkfs) (sec : Nat) (buf : DiskBlock) : Mkfs :=
  { st with image := Function.update st.image sec buf }

def rinode (st : Mkfs) (inum : Nat) : Option Dinode :=
  (st.rsect (mkfsSb.iblock inum)).map fun buf => getDinode buf inum

def winode (st : Mkfs) (inum : Nat) (d : Dinode) : Option Mkfs :=
  (st.rsect (mkfsSb.iblock inum)).map fun buf => st.wsect (mkfsSb.iblock inum) (putDinode buf inum d)

def ialloc (st : Mkfs) (type : BitVec 16) : Option (Nat × Mkfs) :=
  let inum := st.freeinode
  ({ st with freeinode := st.freeinode + 1 }.winode inum { Dinode.zero with type := type, nlink := 1 }).map
    fun st => (inum, st)

/-- A slot of the inode gets the next free block if it has none. -/
def slot (st : Mkfs) (din : Dinode) (k : Fin (NDIRECT + 1)) : Mkfs × Dinode :=
  if din.addrs k = 0 then ({ st with freeblock := st.freeblock + 1 }, din.setAddr k st.freeblock)
    else (st, din)

/-- So does an entry of an indirect block. -/
def entry (st : Mkfs) (ind e : Nat) : Option (Mkfs × Nat) := do
  let indirect ← st.rsect ind
  if u32 indirect (4 * e) = 0 then
    let indirect := setU32 indirect (4 * e) (BitVec.ofNat 32 st.freeblock)
    some ({ st with freeblock := st.freeblock + 1 }.wsect ind indirect,
      (u32 indirect (4 * e)).toNat)
  else some (st, (u32 indirect (4 * e)).toNat)

/-- The block x of iappend for block fbn of the file. -/
def fileBlock (st : Mkfs) (din : Dinode) (fbn : Nat) : Option (Mkfs × Dinode × Nat) :=
  if h : fbn < NDIRECT then
    let (st, din) := st.slot din ⟨fbn, Nat.lt_succ_of_lt h⟩
    some (st, din, (din.addrs ⟨fbn, Nat.lt_succ_of_lt h⟩).toNat)
  else
    let (st, din) := st.slot din (Fin.last NDIRECT)
    (st.entry (din.addrs (Fin.last NDIRECT)).toNat (fbn - NDIRECT)).map fun (st, x) => (st, din, x)

/-- The loop of iappend; the first argument bounds its passes, and each handles a byte at least. -/
def appendLoop : Nat → Mkfs → Dinode → Nat → List Byte → Option (Mkfs × Dinode × Nat)
  | 0, st, din, off, _ => some (st, din, off)
  | fuel + 1, st, din, off, p =>
    if p = [] then some (st, din, off)
    else do
      let fbn := off / BSIZE
      if MAXFILE ≤ fbn then none
      let (st, din, x) ← st.fileBlock din fbn
      let n1 := min p.length ((fbn + 1) * BSIZE - off)
      let buf ← st.rsect x
      appendLoop fuel (st.wsect x (put buf (off - fbn * BSIZE) (p.take n1))) din (off + n1) (p.drop n1)

def iappend (st : Mkfs) (inum : Nat) (p : List Byte) : Option Mkfs := do
  let din ← st.rinode inum
  let (st, din, off) ← appendLoop p.length st din din.size.toNat p
  st.winode inum { din with size := BitVec.ofNat 32 off }

def balloc (st : Mkfs) (used : Nat) : Option Mkfs :=
  if used < BSIZE * 8 then some (st.wsect mkfsSb.bmapstart ((List.range used).foldl setMapBit zero))
    else none

/-- A file of the host: its name and what the calls of read return until the end of the file. -/
structure HostFile where
  name : List Byte
  reads : List (List Byte)
  name_ok : ∀ c ∈ name, c ≠ 0 ∧ c ≠ slash
  reads_ok : ∀ r ∈ reads, 0 < r.length ∧ r.length ≤ BSIZE

def HostFile.content (f : HostFile) : List Byte := f.reads.flatten

def underscore : Byte := 95

def HostFile.fsName (f : HostFile) : List Byte := if f.name.head? = some underscore then f.name.tail else f.name

/-- The pass of main for one file. -/
def addFile (rootino : Nat) (st : Mkfs) (f : HostFile) : Option Mkfs := do
  if slash ∈ f.name then none
  let (inum, st) ← st.ialloc tFile
  let st ← st.iappend rootino (encodeDirent inum f.fsName)
  f.reads.foldlM (fun st r => st.iappend inum r) st

/-- The size of the root directory is rounded up to the end of a block. -/
def fixRoot (st : Mkfs) (rootino : Nat) : Option Mkfs := do
  let din ← st.rinode rootino
  let off := din.size.toNat
  st.winode rootino { din with size := BitVec.ofNat 32 ((off / BSIZE + 1) * BSIZE) }

/-- All blocks are zero but for the superblock. -/
def start : Mkfs :=
  { image := Function.update (fun _ => zero) 1 (put zero 0 mkfsSb.encode)
    freeinode := 1
    freeblock := nmeta }

end Mkfs

/-- The image that mkfs leaves; none when it exits early or an assertion fails. -/
def mkfs (files : List Mkfs.HostFile) : Option (Nat → DiskBlock) := do
  let (rootino, st) ← Mkfs.start.ialloc tDir
  if rootino ≠ ROOTINO then none
  let st ← st.iappend rootino (encodeDirent rootino dot)
  let st ← st.iappend rootino (encodeDirent rootino dotdot)
  let st ← files.foldlM (Mkfs.addFile rootino) st
  let st ← st.fixRoot rootino
  let st ← st.balloc st.freeblock
  return st.image

end Xv6
