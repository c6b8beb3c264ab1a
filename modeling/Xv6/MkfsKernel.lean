import Xv6.FileRead
import Xv6.MkfsImage

namespace Xv6

open Bytes Prog
open Mkfs (HostFile)

section Reading

variable {img : Nat → DiskBlock} {din : Nat → Dinode} {alloc : List Ref} {content : Nat → List Byte}
  {s : Fs}
  {ip : InodeSlot} {i : Nat}

theorem Layout.ind_lt (h : Layout img din alloc content) (i : Nat) :
    addrOf img din (.ind i) < FSSIZE := by
  have hroom := h.room
  by_cases hin : Ref.ind i ∈ alloc
  · have := (h.addr_bounds hin).2
    omega
  · rw [h.none _ hin]
    decide

theorem Layout.byteAt (h : Layout img din alloc content) {k : Nat}
    (hm : Ref.data i (k / BSIZE) ∈ alloc) :
    ByteAt img din i (content i) k := by
  have hroom := h.room
  have hlt := (h.addr_bounds hm).2
  refine ⟨h.mem_iff.mp hm, by omega, ?_⟩
  rw [h.bytes i _ hm _ (Nat.mod_lt k (by decide))]
  congr 1
  exact Nat.div_add_mod' k BSIZE

theorem Layout.readi_ok (h : Layout img din alloc content) (hdisk : s.disk = img)
    (hdin : (s.inode ip).din.addrs = (din i).addrs) (htype : (s.inode ip).din.type ≠ tDev)
    (off n : Nat) (hoff : off ≤ (s.inode ip).din.size.toNat) (hover : off ≤ (off + n) % 2 ^ 32)
    (hmem : ∀ k, off ≤ k → k < off + n → k < (s.inode ip).din.size.toNat →
      Ref.data i (k / BSIZE) ∈ alloc)
    (hmax : (s.inode ip).din.size.toNat ≤ MAXFILE * BSIZE) :
    (readi ip off n).Returns s
      (some (slice (content i) off (min n ((s.inode ip).din.size.toNat - off)))) s := by
  subst hdisk
  exact Xv6.readi_ok hdin (h.ind_lt i) htype off n hoff hover
    (fun k lo hi hk => h.byteAt (hmem k lo hi hk)) hmax

end Reading

/-- The inode that ilock reads from an image. -/
def kernelInode (img : Nat → DiskBlock) (i : Nat) : Dinode :=
  getDinode (img ((Superblock.decode (img 1)).iblock i)) i

theorem decode_super : Superblock.decode (put zero 0 mkfsSb.encode) = mkfsSb := by decide +kernel

section Image

variable {files : List HostFile} {img : Nat → DiskBlock} {alloc : List Ref}

theorem IsImage.kernelInode_eq (h : IsImage files img alloc) {i : Nat} (hi : i < NINODES) :
    kernelInode img i = dinodes img i := by
  rw [kernelInode, h.super, decode_super, dinodes, if_pos hi]

theorem IsImage.not_dev (h : IsImage files img alloc) (i : Nat) : (dinodes img i).type ≠ tDev := by
  rw [h.kind]
  unfold kinds
  split
  · decide
  · split <;> decide

theorem contents_length_le (hfits : Fits files) (i : Nat) :
    (contents files i).length ≤ MAXFILE * BSIZE := by
  by_cases hroot : i = ROOTINO
  · have := hfits.inodes
    rw [hroot, contents_root_length]
    simp only [NINODES, MAXFILE, NDIRECT, NINDIRECT, BSIZE] at *
    omega
  · rw [contents, if_neg hroot]
    split
    · cases hf : files[i - 2]? with
      | none => simp
      | some f => exact hfits.maxfile f (List.mem_of_getElem? hf)
    · simp

theorem IsImage.size_le (h : IsImage files img alloc) (hfits : Fits files) (i : Nat) :
    (dinodes img i).size.toNat ≤ MAXFILE * BSIZE := by
  rw [h.size]
  split
  · have := hfits.inodes
    simp only [NINODES, MAXFILE, NDIRECT, NINDIRECT, BSIZE] at *
    omega
  · exact contents_length_le hfits i

theorem IsImage.mem_of_lt (h : IsImage files img alloc) {i k : Nat}
    (hk : k < (contents files i).length) :
    Ref.data i (k / BSIZE) ∈ alloc := by
  rw [h.exact.data]
  have := Nat.div_mul_le_self k BSIZE
  omega

theorem IsImage.mem_of_size (h : IsImage files img alloc) (hmod : (files.length + 2) % 32 ≠ 0)
    {i k : Nat} (hk : k < (dinodes img i).size.toNat) : Ref.data i (k / BSIZE) ∈ alloc := by
  rw [h.size] at hk
  by_cases hroot : i = ROOTINO
  · rw [if_pos hroot] at hk
    rw [h.exact.data, hroot, contents_root_length]
    simp only [BSIZE] at *
    omega
  · rw [if_neg hroot] at hk
    exact h.mem_of_lt hk

/-- A place of the image that stands for a block: a block below the size of its file, or an indirect
block. -/
def InUse (img : Nat → DiskBlock) : Ref → Prop
  | .data i bn => bn < ((dinodes img i).size.toNat + (BSIZE - 1)) / BSIZE
  | .ind i => addrOf img (dinodes img) (.ind i) ≠ 0

theorem IsImage.inUse_iff (h : IsImage files img alloc) (hmod : (files.length + 2) % 32 ≠ 0)
    {r : Ref} :
    InUse img r ↔ r ∈ alloc := by
  cases r with
  | ind i => exact h.layout.mem_iff.symm
  | data i bn =>
    rw [h.exact.data, InUse, h.size]
    by_cases hroot : i = ROOTINO
    · rw [if_pos hroot, hroot, contents_root_length]
      simp only [BSIZE] at *
      omega
    · rw [if_neg hroot]
      simp only [BSIZE] at *
      omega

/-- What the kernel may rely on when it reads an image. -/
structure Consistent (img : Nat → DiskBlock) : Prop where
  bounds : ∀ r, InUse img r →
    nmeta ≤ addrOf img (dinodes img) r ∧ addrOf img (dinodes img) r < FSSIZE
  distinct : ∀ r r', InUse img r → InUse img r' →
    addrOf img (dinodes img) r = addrOf img (dinodes img) r' → r = r'
  map : ∀ b, mapBit (img mkfsSb.bmapstart) b = true ↔
    b < nmeta ∨ ∃ r, InUse img r ∧ addrOf img (dinodes img) r = b
  reads : ∀ (s : Fs) (ip : InodeSlot) (i off n : Nat), s.disk = img → i < NINODES →
    (s.inode ip).din = kernelInode img i → ∃ r, (readi ip off n).Returns s r s

theorem IsImage.consistent (h : IsImage files img alloc) (hfits : Fits files)
    (hmod : (files.length + 2) % 32 ≠ 0) :
    Consistent img where
  bounds := by
    intro r hr
    have hb := h.layout.addr_bounds ((h.inUse_iff hmod).mp hr)
    have hroom := h.layout.room
    exact ⟨hb.1, by omega⟩
  distinct := by
    intro r r' hr hr' he
    exact h.layout.addr_inj ((h.inUse_iff hmod).mp hr) ((h.inUse_iff hmod).mp hr') he
  map := by
    intro b
    rw [h.map, decide_eq_true_eq]
    constructor
    · intro hb
      by_cases hlt : b < nmeta
      · exact .inl hlt
      · have hk : b - nmeta < alloc.length := by omega
        have hr := List.getElem?_eq_getElem hk
        refine .inr ⟨alloc[b - nmeta], (h.inUse_iff hmod).mpr (List.getElem_mem hk), ?_⟩
        rw [h.layout.addr _ _ hr]
        omega
    · rintro (hb | ⟨r, hr, rfl⟩)
      · omega
      · exact (h.layout.addr_bounds ((h.inUse_iff hmod).mp hr)).2
  reads := by
    intro s ip i off n hdisk hi hdin
    rw [h.kernelInode_eq hi] at hdin
    have htype : (s.inode ip).din.type ≠ tDev := by
      rw [hdin]
      exact h.not_dev i
    by_cases hbad : (s.inode ip).din.size.toNat < off ∨ (off + n) % 2 ^ 32 < off
    · refine ⟨none, returns_get.bind ?_⟩
      dsimp only
      rw [if_neg htype, if_pos hbad]
      exact returns_pure
    · refine ⟨_, h.layout.readi_ok (i := i) hdisk (by rw [hdin]) htype off n (by omega) (by omega) ?_ ?_⟩
      · intro k _ _ hk
        rw [hdin] at hk
        exact h.mem_of_size hmod hk
      · rw [hdin]
        exact h.size_le hfits i

/-- Entries that fill the blocks of the root directory leave a place below its rounded size without
a block. -/
theorem IsImage.root_unmapped (h : IsImage files img alloc) (hmod : (files.length + 2) % 32 = 0) :
    InUse img (.data ROOTINO ((files.length + 2) / 32)) ∧
      addrOf img (dinodes img) (.data ROOTINO ((files.length + 2) / 32)) = 0 := by
  constructor
  · rw [InUse, h.size, if_pos rfl]
    simp only [BSIZE]
    omega
  · apply h.layout.none
    rw [h.exact.data, contents_root_length]
    simp only [BSIZE]
    omega

theorem IsImage.not_consistent (h : IsImage files img alloc) (hmod : (files.length + 2) % 32 = 0) :
    ¬ Consistent img := by
  intro hc
  obtain ⟨huse, hzero⟩ := h.root_unmapped hmod
  have hb := (hc.bounds _ huse).1
  rw [hzero] at hb
  exact absurd hb (by decide)

end Image

/-- The image that mkfs makes of files that fit is consistent just when the entries of the root
directory do not fill its blocks exactly. -/
theorem mkfs_consistent_iff {files : List HostFile} (hfits : Fits files) :
    ∃ img, mkfs files = some img ∧ (Consistent img ↔ (files.length + 2) % 32 ≠ 0) := by
  obtain ⟨img, alloc, hrun, himg⟩ := mkfs_image hfits
  exact ⟨img, hrun, fun hc hmod => himg.not_consistent hmod hc, himg.consistent hfits⟩

/-- A file with a name of one letter. -/
def letterFile (k : Fin 30) (reads : List (List Byte))
    (h : ∀ r ∈ reads, 0 < r.length ∧ r.length ≤ BSIZE) : HostFile :=
  { name := [BitVec.ofNat 8 (97 + k.val)]
    reads := reads
    name_ok := by
      have hall : ∀ k : Fin 30, BitVec.ofNat 8 (97 + k.val) ≠ (0 : Byte) ∧
        BitVec.ofNat 8 (97 + k.val) ≠ slash := by
        decide
      intro c hc
      cases List.mem_singleton.mp hc
      exact hall k
    reads_ok := h }

def twoFiles : List HostFile := [letterFile 0 [[1, 2], [3]] (by decide), letterFile 1 [] (by simp)]

theorem twoFiles_fits : Fits twoFiles := by
  refine ⟨by decide, by decide, ?_⟩
  intro f hf
  rcases List.mem_cons.mp hf with rfl | hf
  · decide
  · cases List.mem_singleton.mp hf
    decide

theorem mkfs_consistent_iff_two : ∃ img, mkfs twoFiles = some img ∧ Consistent img := by
  obtain ⟨img, hrun, hiff⟩ := mkfs_consistent_iff twoFiles_fits
  exact ⟨img, hrun, hiff.mpr (by decide)⟩

def thirtyFiles : List HostFile := (List.finRange 30).map fun k => letterFile k [] (by simp)

/-- With thirty files the root directory has 32 entries, one block, and a size of two. -/
theorem mkfs_root_without_block :
    ∃ img, mkfs thirtyFiles = some img ∧ (dinodes img ROOTINO).size.toNat = 2 * BSIZE ∧
      InUse img (.data ROOTINO 1) ∧
      addrOf img (dinodes img) (.data ROOTINO 1) = 0 ∧ ¬ Consistent img := by
  have hlen : thirtyFiles.length = 30 := by simp [thirtyFiles]
  have hcontent : ∀ f ∈ thirtyFiles, f.content = [] := by
    intro f hf
    obtain ⟨k, _, rfl⟩ := List.mem_map.mp hf
    rfl
  have hfits : Fits thirtyFiles := by
    refine ⟨by rw [hlen]; decide, ?_, ?_⟩
    · decide
    · intro f hf
      rw [hcontent f hf]
      decide
  obtain ⟨img, alloc, hrun, himg⟩ := mkfs_image hfits
  have hsize : (dinodes img ROOTINO).size.toNat = 2 * BSIZE := by
    rw [himg.size, if_pos rfl, hlen]
    decide
  have hmod : (thirtyFiles.length + 2) % 32 = 0 := by rw [hlen]
  obtain ⟨huse, hzero⟩ := himg.root_unmapped hmod
  rw [hlen] at huse hzero
  exact ⟨img, hrun, hsize, huse, hzero, himg.not_consistent hmod⟩

section Lookup

variable {files : List HostFile} {img : Nat → DiskBlock} {alloc : List Ref} {s : Fs}
  {dp : InodeSlot}

theorem slice_flatMap {α : Type} {l : List α} {g : α → List Byte} (hg : ∀ a, (g a).length = 16)
    {k : Nat} {a : α} (h : l[k]? = some a) : slice (l.flatMap g) (16 * k) 16 = g a := by
  have hget : ∀ j, j < 16 → (l.flatMap g).getD (16 * k + j) 0 = (g a).getD j 0 := by
    intro j hj
    induction l generalizing k with
    | nil => simp at h
    | cons c l ih =>
      rw [List.flatMap_cons]
      cases k with
      | zero =>
        cases Option.some.inj (List.getElem?_cons_zero.symm.trans h)
        simp only [Nat.mul_zero, Nat.zero_add, List.getD_eq_getElem?_getD]
        rw [List.getElem?_append_left (by rw [hg]; exact hj)]
      | succ k =>
        have hk : 16 * (k + 1) + j = (g c).length + (16 * k + j) := by
          rw [hg]
          omega
        rw [hk, getD_append_add]
        exact ih h
  apply List.ext_getElem
  · rw [slice_length, hg]
  · intro j h1 h2
    have hj : j < 16 := by simpa using h1
    simp only [slice, List.getElem_map, List.getElem_range]
    rw [hget j hj]
    simp [h2]

theorem fsName_ne_zero (f : HostFile) : ∀ c ∈ f.fsName, c ≠ 0 := by
  intro c hc
  unfold HostFile.fsName at hc
  split at hc
  · exact (f.name_ok c (List.mem_of_mem_tail hc)).1
  · exact (f.name_ok c hc).1

theorem rootEntries_ok (hfits : Fits files) {j inum : Nat} {name : Name}
    (h : (rootEntries files)[j]? = some (inum, name)) :
    0 < inum ∧ inum < NINODES ∧ (∀ c ∈ name, c ≠ 0) := by
  have hi := hfits.inodes
  have hm := List.mem_of_getElem? h
  rcases List.mem_cons.mp hm with he | hm
  · cases he
    exact ⟨by decide, by decide, by decide⟩
  rcases List.mem_cons.mp hm with he | hm
  · cases he
    exact ⟨by decide, by decide, by decide⟩
  · obtain ⟨⟨f, k⟩, hf, he⟩ := List.mem_map.mp hm
    cases he
    have hk := List.mem_zipIdx hf
    simp only [fileInum]
    exact ⟨by omega, by omega, fsName_ne_zero f⟩

theorem readDirent_ok (h : IsImage files img alloc) (hfits : Fits files) (hdisk : s.disk = img)
    (hdin : (s.inode dp).din = dinodes img ROOTINO) {j inum : Nat} {name : Name}
    (he : (rootEntries files)[j]? = some (inum, name)) (w : FsPanic) :
    (readDirent dp (16 * j) w).Returns s (encodeDirent inum name) s := by
  have hj : j < files.length + 2 := by
    have hlt := (List.getElem?_eq_some_iff.mp he).1
    simp only [rootEntries, List.length_cons, List.length_map, List.length_zipIdx] at hlt
    exact hlt
  have hlen := contents_root_length files
  have hsize := h.size ROOTINO
  have hinodes := hfits.inodes
  rw [if_pos rfl] at hsize
  have hroom : 16 * j + 16 ≤ (dinodes img ROOTINO).size.toNat := by
    rw [hsize]
    simp only [BSIZE] at *
    omega
  have hread := h.layout.readi_ok (i := ROOTINO) hdisk (by rw [hdin])
    (by rw [hdin]; exact h.not_dev _) (16 * j) 16 (by rw [hdin]; omega)
    (by simp only [NINODES] at *; omega)
    (fun k _ hk _ => h.mem_of_lt (by omega))
    (by rw [hdin]; exact h.size_le hfits _)
  have hslice : slice (contents files ROOTINO) (16 * j) 16 = encodeDirent inum name := by
    rw [contents, if_pos rfl]
    exact slice_flatMap (g := fun e : Nat × Name => encodeDirent e.1 e.2) (fun e => encodeDirent_length e.1 e.2) he
  rw [hdin, Nat.min_eq_left (by omega), hslice] at hread
  refine hread.bind ?_
  dsimp only
  rw [if_pos (encodeDirent_length _ _)]
  exact returns_pure

theorem iget_ok {inum : Nat} (hroom : s.find inum ≠ none ∨ s.empty ≠ none) :
    ∃ ip s', (iget inum).Returns s ip s' ∧ (s'.inode ip).inum = inum ∧ s'.disk = s.disk := by
  cases hf : s.find inum with
  | some ip =>
    have hinum : (s.inode ip).inum = inum := by
      have := List.find?_some hf
      simp only [decide_eq_true_eq] at this
      exact this.2
    refine ⟨ip, { s with inode := Function.update s.inode ip { s.inode ip with ref := (s.inode ip).ref + 1 } },
      ?_, ?_, rfl⟩
    · refine returns_get.bind ?_
      rw [hf]
      exact returns_modify.bind returns_pure
    · dsimp only
      rw [Function.update_self]
      exact hinum
  | none =>
    cases he : s.empty with
    | none => simp [hf, he] at hroom
    | some ip =>
      refine ⟨ip, { s with inode := Function.update s.inode ip { s.inode ip with inum := inum, ref := 1, valid := false } },
        ?_, ?_, rfl⟩
      · refine returns_get.bind ?_
        rw [hf]
        dsimp only
        rw [he]
        exact returns_modify.bind returns_pure
      · dsimp only
        rw [Function.update_self]

theorem dirlookupScan_ok (h : IsImage files img alloc) (hfits : Fits files) (hdisk : s.disk = img)
    (hdin : (s.inode dp).din = dinodes img ROOTINO) {target inum : Nat} {name : Name}
    (ht : (rootEntries files)[target]? = some (inum, name))
    (hroom : s.find inum ≠ none ∨ s.empty ≠ none)
    (hother : ∀ j inum' name', j < target → (rootEntries files)[j]? = some (inum', name') →
      name'.take DIRSIZ ≠ name.take DIRSIZ) (j len : Nat) (hj : j ≤ target) (hlen :
    target < j + len) :
    ∃ ip s', (dirlookupScan dp (name.take DIRSIZ) ((List.range' j len).map (16 * ·))).Returns s
      (some (ip, 16 * target)) s' ∧ (s'.inode ip).inum = inum ∧ s'.disk = img := by
  induction len generalizing j with
  | zero => omega
  | succ len ih =>
    have hlt := (List.getElem?_eq_some_iff.mp ht).1
    obtain ⟨⟨inum', name'⟩, hentry⟩ : ∃ e, (rootEntries files)[j]? = some e :=
      ⟨_, List.getElem?_eq_getElem (by omega)⟩
    obtain ⟨hpos, hsmall, hname⟩ := rootEntries_ok hfits hentry
    have hread := readDirent_ok h hfits hdisk hdin hentry .dirlinkRead
    have hinum : direntInum (encodeDirent inum' name') = inum' :=
      direntInum_encode (by simp only [NINODES] at hsmall; omega)
    rw [List.range'_succ, List.map_cons]
    by_cases he : j = target
    · subst he
      cases Option.some.inj (hentry.symm.trans ht)
      obtain ⟨ip, s', hget, hi, hd⟩ := iget_ok hroom
      refine ⟨ip, s', hread.bind ?_, hi, hd.trans hdisk⟩
      rw [hinum, direntName_encode hname, if_neg (by omega), if_pos rfl]
      exact hget.bind returns_pure
    · obtain ⟨ip, s', hrest, hi, hd⟩ := ih (j + 1) (by omega) (by omega)
      refine ⟨ip, s', hread.bind ?_, hi, hd⟩
      rw [hinum, direntName_encode hname, if_neg (by omega), if_neg (hother j inum' name' (by omega) hentry)]
      exact hrest

/-- An entry of the cache for inode i that ilock may lock, with nothing in it that is not on the
disk. -/
structure Ready (img : Nat → DiskBlock) (s : Fs) (ip : InodeSlot) (i : Nat) : Prop where
  disk : s.disk = img
  sb : s.sb = Superblock.decode (img 1)
  inum : (s.inode ip).inum = i
  ref : 0 < (s.inode ip).ref
  unlocked : (s.inode ip).locked = false
  din : (s.inode ip).valid = true → (s.inode ip).din = kernelInode img i

theorem ilock_ok (h : IsImage files img alloc) {ip : InodeSlot} {i : Nat} (hr : Ready img s ip i)
    (hi : i < NINODES) (hkind : kinds files i ≠ 0) :
    ∃ s', (ilock ip).Returns s () s' ∧ s'.disk = img ∧ (s'.inode ip).din = dinodes img i ∧
      ∀ jp, (s'.inode jp).ref = (s.inode jp).ref ∧ (s'.inode jp).inum = (s.inode jp).inum := by
  have hd : kernelInode img i = dinodes img i := h.kernelInode_eq hi
  have href : ¬ (s.inode ip).ref < 1 := by
    have := hr.ref
    omega
  have hunlocked : ¬ (s.inode ip).locked = true := by simp [hr.unlocked]
  obtain ⟨v, hv⟩ : ∃ v : Inode, v = { s.inode ip with locked := true } := ⟨_, rfl⟩
  cases hvalid : (s.inode ip).valid with
  | true =>
    refine ⟨{ s with inode := Function.update s.inode ip v }, ?_, hr.disk,
      by simp [hv, hr.din hvalid, hd], ?_⟩
    · refine returns_get.bind ?_
      rw [if_neg href, if_neg hunlocked, ← hv]
      refine returns_modify.bind ?_
      rw [if_neg (by simp [hvalid])]
      exact returns_pure
    · intro jp
      by_cases hjp : jp = ip
      · simp [hjp, hv]
      · simp [hjp]
  | false =>
    have hblock : s.sb.iblock i < FSSIZE := by
      have hstart : mkfsSb.inodestart = 32 := by decide
      rw [hr.sb, h.super, decode_super, Superblock.iblock, hstart]
      simp only [IPB, BSIZE, NINODES, FSSIZE] at *
      omega
    have hread : getDinode (s.disk (s.sb.iblock i)) i = kernelInode img i := by
      rw [kernelInode, hr.disk, hr.sb]
    have htype : ¬ (kernelInode img i).type = 0 := by
      rw [hd, h.kind]
      exact hkind
    obtain ⟨v', hv'⟩ : ∃ v : Inode, v =
      { s.inode ip with locked := true, valid := true, din := kernelInode img i } :=
      ⟨_, rfl⟩
    refine ⟨{ s with inode := Function.update (Function.update s.inode ip v) ip v' }, ?_, hr.disk,
      by simp [hv', hd], ?_⟩
    · refine returns_get.bind ?_
      rw [if_neg href, if_neg hunlocked, ← hv]
      refine returns_modify.bind ?_
      rw [if_pos hvalid, hr.inum]
      refine (readBlock_ok hblock).bind ?_
      dsimp only
      rw [hread, if_neg htype, ← hv']
      exact returns_modify.bind returns_pure
    · intro jp
      by_cases hjp : jp = ip
      · simp [hjp, hv']
      · simp [hjp]

theorem find_congr {s' : Fs} (inum : Nat)
    (h : ∀ jp, (s'.inode jp).ref = (s.inode jp).ref ∧ (s'.inode jp).inum = (s.inode jp).inum) :
    s'.find inum = s.find inum ∧ s'.empty = s.empty := by
  simp only [Fs.find, Fs.empty, fun jp => (h jp).1, fun jp => (h jp).2, and_self]

theorem rootEntries_file {k : Nat} {f : HostFile} (hk : files[k]? = some f) :
    (rootEntries files)[k + 2]? = some (fileInum k, f.fsName) := by
  simp [rootEntries, hk]

theorem rootEntries_other {k : Nat} {f : HostFile} (hk : files[k]? = some f)
    (hnames : (files.map fun f => f.fsName.take DIRSIZ).Nodup)
    (hdots : ∀ f ∈ files, f.fsName.take DIRSIZ ≠ dot ∧ f.fsName.take DIRSIZ ≠ dotdot) (j inum : Nat)
    (name : Name) (hj : j < k + 2) (he : (rootEntries files)[j]? = some (inum, name)) :
    name.take DIRSIZ ≠ f.fsName.take DIRSIZ := by
  obtain ⟨hdot, hdotdot⟩ := hdots f (List.mem_of_getElem? hk)
  match j, he with
  | 0, he =>
    cases he
    exact Ne.symm hdot
  | 1, he =>
    cases he
    exact Ne.symm hdotdot
  | j + 2, he =>
    have hlt := (List.getElem?_eq_some_iff.mp hk).1
    have hg : files[j]? = some files[j] := List.getElem?_eq_getElem (by omega)
    cases Option.some.inj (he.symm.trans (rootEntries_file hg))
    intro heq
    have hlen : j < (files.map fun f => f.fsName.take DIRSIZ).length := by
      rw [List.length_map]
      omega
    have hjk : j = k := (List.getElem?_inj hlen hnames).mp (by simp [hg, hk, heq])
    omega

end Lookup

/-- The kernel finds every file that mkfs was given under its name in the root directory, and reads
what the host had in it. -/
theorem mkfs_kernel_agree {files : List HostFile} (hfits : Fits files)
    (hnames : (files.map fun f => f.fsName.take DIRSIZ).Nodup)
    (hdots : ∀ f ∈ files, f.fsName.take DIRSIZ ≠ dot ∧ f.fsName.take DIRSIZ ≠ dotdot) :
    ∃ img, mkfs files = some img ∧ ∀ k f, files[k]? = some f →
      (∀ s dp, Ready img s dp ROOTINO → s.find (fileInum k) ≠ none ∨ s.empty ≠ none →
        ∃ ip s', (do ilock dp; dirlookup dp (f.fsName.take DIRSIZ)).Returns s (some (ip, 16 * (k + 2))) s' ∧
          (s'.inode ip).inum = fileInum k ∧ s'.disk = img) ∧
      ∀ s ip, Ready img s ip (fileInum k) →
        ∃ s', (do ilock ip; readi ip 0 f.content.length).Returns s (some f.content) s' := by
  obtain ⟨img, alloc, hrun, himg⟩ := mkfs_image hfits
  refine ⟨img, hrun, ?_⟩
  intro k f hk
  have hlt := (List.getElem?_eq_some_iff.mp hk).1
  have hinodes := hfits.inodes
  constructor
  · intro s dp hready hroom
    obtain ⟨s1, hlock, hdisk, hdin, hsame⟩ := ilock_ok himg hready (by decide) (by
      rw [kinds, if_pos rfl]
      decide)
    obtain ⟨hfind, hempty⟩ := find_congr (fileInum k) hsame
    rw [← hfind, ← hempty] at hroom
    obtain ⟨ip, s', hscan, hi, hd⟩ :=
      dirlookupScan_ok himg hfits hdisk hdin (rootEntries_file hk) hroom
      (rootEntries_other hk hnames hdots) 0 (((dinodes img ROOTINO).size.toNat + 15) / 16) (by omega) (by
        rw [himg.size, if_pos rfl]
        simp only [BSIZE]
        omega)
    refine ⟨ip, s', hlock.bind (returns_get.bind ?_), hi, hd⟩
    have htype : (dinodes img ROOTINO).type = tDir := by rw [himg.kind, kinds, if_pos rfl]
    rw [hdin, if_neg (not_not_intro htype), direntOffsets, List.range_eq_range']
    exact hscan
  · intro s ip hready
    have hne := fileInum_ne_root k
    have hcontents : contents files (fileInum k) = f.content := by
      rw [contents, if_neg hne]
      simp [fileInum, hk]
    obtain ⟨s1, hlock, hdisk, hdin, _⟩ := ilock_ok himg hready (by simp only [fileInum]; omega) (by
      rw [kinds, if_neg hne, if_pos (by simp only [fileInum]; omega)]
      decide)
    have hsize : (dinodes img (fileInum k)).size.toNat = f.content.length := by
      rw [himg.size, if_neg hne, hcontents]
    have hmax := hfits.maxfile f (List.mem_of_getElem? hk)
    have hread := himg.layout.readi_ok hdisk (by rw [hdin])
      (by rw [hdin]; exact himg.not_dev _) 0 f.content.length (Nat.zero_le _) (Nat.zero_le _)
      (fun k _ _ hk => himg.mem_of_lt (by rw [hcontents]; rw [hdin, hsize] at hk; exact hk))
      (by rw [hdin]; exact himg.size_le hfits _)
    rw [hdin, hsize, Nat.sub_zero, Nat.min_self, hcontents, slice_all] at hread
    exact ⟨s1, hlock.bind hread⟩

theorem mkfs_kernel_agree_two :
    ∃ img, mkfs twoFiles = some img ∧ ∀ k f, twoFiles[k]? = some f →
      (∀ s dp, Ready img s dp ROOTINO → s.find (fileInum k) ≠ none ∨ s.empty ≠ none →
        ∃ ip s', (do ilock dp; dirlookup dp (f.fsName.take DIRSIZ)).Returns s (some (ip, 16 * (k + 2))) s' ∧
          (s'.inode ip).inum = fileInum k ∧ s'.disk = img) ∧
      ∀ s ip, Ready img s ip (fileInum k) →
        ∃ s', (do ilock ip; readi ip 0 f.content.length).Returns s (some f.content) s' :=
  mkfs_kernel_agree twoFiles_fits (by decide) (by decide)

end Xv6
