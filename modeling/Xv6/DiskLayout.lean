import Xv6.Layout

namespace Xv6

open Bytes

structure Superblock where
  size : Nat
  nblocks : Nat
  ninodes : Nat
  nlog : Nat
  logstart : Nat
  inodestart : Nat
  bmapstart : Nat
  deriving DecidableEq

/-- The superblock as readsb copies it from block 1. -/
def Superblock.decode (b : DiskBlock) : Superblock where
  size := (u32 b 0).toNat
  nblocks := (u32 b 4).toNat
  ninodes := (u32 b 8).toNat
  nlog := (u32 b 12).toNat
  logstart := (u32 b 16).toNat
  inodestart := (u32 b 20).toNat
  bmapstart := (u32 b 24).toNat

/-- IBLOCK and BBLOCK of fs.h. -/
def Superblock.iblock (sb : Superblock) (inum : Nat) : Nat := inum / IPB + sb.inodestart

def Superblock.bblock (sb : Superblock) (b : Nat) : Nat := b / BPB + sb.bmapstart

/-- Where the inode stands in its block. -/
def inodeOffset (inum : Nat) : Nat := 64 * (inum % IPB)

def Dinode.encode (d : Dinode) : List Byte :=
  bytes16 d.type ++ bytes16 d.major ++ bytes16 d.minor ++ bytes16 d.nlink ++ bytes32 d.size ++
    (List.finRange (NDIRECT + 1)).flatMap fun k => bytes32 (d.addrs k)

def getDinode (b : DiskBlock) (inum : Nat) : Dinode where
  type := u16 b (inodeOffset inum)
  major := u16 b (inodeOffset inum + 2)
  minor := u16 b (inodeOffset inum + 4)
  nlink := u16 b (inodeOffset inum + 6)
  size := u32 b (inodeOffset inum + 8)
  addrs k := u32 b (inodeOffset inum + 12 + 4 * k.val)

def putDinode (b : DiskBlock) (inum : Nat) (d : Dinode) : DiskBlock :=
  put b (inodeOffset inum) d.encode

/-- The mask m of balloc and bfree. -/
def mapMask (bi : Nat) : Byte := 1 <<< (bi % 8)

/-- Bit bi of a block of the free map. -/
def mapBit (b : DiskBlock) (bi : Nat) : Bool := byte b (bi / 8) &&& mapMask bi ≠ 0

def setMapBit (b : DiskBlock) (bi : Nat) : DiskBlock :=
  put b (bi / 8) [byte b (bi / 8) ||| mapMask bi]

def clearMapBit (b : DiskBlock) (bi : Nat) : DiskBlock :=
  put b (bi / 8) [byte b (bi / 8) &&& ~~~(mapMask bi)]

/-- A path element: at most DIRSIZ bytes, none of them 0. -/
abbrev Name := List Byte

/-- A directory entry as dirlink stores it; strncpy pads the name with zeros. -/
def encodeDirent (inum : Nat) (name : Name) : List Byte :=
  bytes16 (BitVec.ofNat 16 inum) ++ (name.take DIRSIZ ++ List.replicate (DIRSIZ - name.length) 0)

def direntInum (de : List Byte) : Nat := (de.getD 1 0 ++ de.getD 0 0 : BitVec 16).toNat

/-- The name of an entry up to its first 0, which is as far as namecmp looks. -/
def direntName (de : List Byte) : Name := ((de.drop 2).take DIRSIZ).takeWhile (· ≠ 0)

end Xv6
