import Xv6.FileRead

namespace Xv6

open Bytes Prog

/-- The inode on the disk. -/
def Fs.dinode (s : Fs) (i : Nat) : Dinode := getDinode (s.disk (s.sb.iblock i)) i

/-- The bytes of the file or directory with this number. -/
def Fs.contents (s : Fs) (i : Nat) : List Byte := fileBytes s.disk s.dinode i

def Fs.Allocated (s : Fs) (i : Nat) : Prop := i < s.sb.ninodes ∧ (s.dinode i).type ≠ 0

instance decidableAllocated (s : Fs) (i : Nat) : Decidable (s.Allocated i) :=
  inferInstanceAs (Decidable (i < s.sb.ninodes ∧ (s.dinode i).type ≠ 0))

/-- The entry at an offset of a directory. -/
def direntAt (c : List Byte) (off : Nat) : List Byte := (c.drop off).take 16

/-- The first entry that is in use and has the name. -/
def findEntry (c : List Byte) (name : Name) : Option Nat :=
  (direntOffsets c.length).find? fun off => direntInum (direntAt c off) ≠ 0 ∧
    direntName (direntAt c off) = name

/-- The inode number that a directory has for a name. -/
def binding (c : List Byte) (name : Name) : Option Nat :=
  (findEntry c name).map fun off => direntInum (direntAt c off)

/-- The directory has all its blocks, and consists of whole entries. -/
structure Fs.DirOk (s : Fs) (i : Nat) : Prop where
  file : FileOk s.disk s.dinode i
  type : (s.dinode i).type = tDir
  whole : (s.dinode i).size.toNat % 16 = 0

variable {s : Fs} {dp : InodeSlot} {i : Nat}

theorem mem_direntOffsets {size off : Nat} (h : size % 16 = 0) :
    off ∈ direntOffsets size ↔ off % 16 = 0 ∧ off < size := by
  simp only [direntOffsets, List.mem_map, List.mem_range]
  constructor
  · rintro ⟨k, hk, rfl⟩
    omega
  · rintro ⟨hoff, hlt⟩
    exact ⟨off / 16, by omega, by omega⟩

theorem Fs.contents_length (s : Fs) (i : Nat) : (s.contents i).length = (s.dinode i).size.toNat :=
  fileBytes_length ..

theorem readDirent_entry (h : s.DirOk i) (hdin : (s.inode dp).din = s.dinode i) {off : Nat}
    (hoff : off ∈ direntOffsets (s.contents i).length) (w : FsPanic) :
    Returns (readDirent dp off w) s (direntAt (s.contents i) off) s := by
  rw [s.contents_length, mem_direntOffsets h.whole] at hoff
  have hsize := h.file.size
  have hmax : MAXFILE * BSIZE + 16 < 2 ^ 32 := by decide
  have hwhole := h.whole
  have htype : (s.dinode i).type ≠ tDev := by
    rw [h.type]
    decide
  have hread : Returns (readi dp off 16) s (some (direntAt (s.contents i) off)) s := by
    have hfile := readi_file h.file hdin htype off 16
    rwa [if_neg (by omega)] at hfile
  have hlen : (direntAt (s.contents i) off).length = 16 := by
    rw [direntAt, List.length_take, List.length_drop, s.contents_length]
    omega
  refine hread.bind ?_
  dsimp only
  rw [if_pos hlen]
  exact returns_pure

/-- The entry with the name is looked for, and its inode is got. -/
def getEntry (c : List Byte) : Option Nat → FsM (Option (InodeSlot × Nat))
  | none => return none
  | some off => do
    let ip ← iget (direntInum (direntAt c off))
    return some (ip, off)

theorem dirlookupScan_find (h : s.DirOk i) (hdin : (s.inode dp).din = s.dinode i) (name : Name)
    (offs : List Nat) (hoffs : ∀ off ∈ offs, off ∈ direntOffsets (s.contents i).length) :
    dirlookupScan dp name offs s =
      getEntry (s.contents i) (offs.find? fun off => direntInum (direntAt (s.contents i) off) ≠ 0 ∧
        direntName (direntAt (s.contents i) off) = name) s := by
  induction offs with
  | nil => rfl
  | cons off offs ih =>
    have hread := readDirent_entry h hdin (hoffs off List.mem_cons_self) .dirlinkRead
    have hrest := ih fun o ho => hoffs o (List.mem_cons_of_mem _ ho)
    rw [dirlookupScan, bind_ok hread, List.find?_cons]
    by_cases hzero : direntInum (direntAt (s.contents i) off) = 0
    · simpa [hzero] using hrest
    · by_cases hname : direntName (direntAt (s.contents i) off) = name
      · simp [hzero, hname, getEntry]
      · simpa [hzero, hname] using hrest

theorem dirlookup_find (h : s.DirOk i) (hdin : (s.inode dp).din = s.dinode i) (name : Name) :
    dirlookup dp name s = getEntry (s.contents i) (findEntry (s.contents i) name) s := by
  rw [dirlookup, bind_ok returns_get, hdin, if_neg (not_not.mpr h.type), ← s.contents_length]
  exact dirlookupScan_find h hdin name _ fun _ hoff => hoff

end Xv6
