import Mathlib.Algebra.GroupWithZero.Nat
import Xv6.MkfsAppend

namespace Xv6

open Bytes

/-- The inodes on the disk. -/
def dinodes (img : Nat → DiskBlock) (i : Nat) : Dinode :=
  if i < NINODES then getDinode (img (mkfsSb.iblock i)) i else Dinode.zero

theorem iblock_bounds {i : Nat} (h : i < NINODES) :
    1 < mkfsSb.iblock i ∧ mkfsSb.iblock i < mkfsSb.bmapstart := by
  simp only [mkfsSb, Superblock.iblock, NINODES, nlog, ninodeblocks, LOGSIZE, MAXOPBLOCKS, IPB,
    BSIZE] at *
  omega

theorem bmapstart_lt : mkfsSb.bmapstart < nmeta := by decide

section Transport

variable {img img' : Nat → DiskBlock} {din din' : Nat → Dinode} {alloc : List Ref}
  {content : Nat → List Byte}

theorem addrOf_of_addrs (h : ∀ i, (din' i).addrs = (din i).addrs) :
    addrOf img din' = addrOf img din := by
  funext r
  cases r with
  | ind i => simp only [addrOf, h]
  | data i bn => simp only [addrOf, h]

theorem Layout.congr (h : Layout img din alloc content)
    (haddrs : ∀ i, (din' i).addrs = (din i).addrs)
    (himg : ∀ b, nmeta ≤ b → img' b = img b) : Layout img' din' alloc content := by
  have haddr : ∀ r, addrOf img' din' r = addrOf img din r := by
    intro r
    rw [addrOf_of_addrs haddrs]
    exact h.addrOf_congr (fun j hj => himg _ (h.addr_bounds hj).1) r
  refine ⟨h.nodup, ?_, ?_, ?_, ?_, h.room⟩
  · intro k r hk
    rw [haddr]
    exact h.addr k r hk
  · intro r hr
    rw [haddr]
    exact h.none r hr
  · intro i bn hm j hj
    rw [haddr, himg _ (h.addr_bounds hm).1]
    exact h.bytes i bn hm j hj
  · intro b hb
    rw [himg b (by omega)]
    exact h.free b hb

theorem dinodes_congr (himg : ∀ b, b < nmeta → img' b = img b) : dinodes img' = dinodes img := by
  funext i
  unfold dinodes
  split
  next hi => rw [himg _ (Nat.lt_trans (iblock_bounds hi).2 bmapstart_lt)]
  next => rfl

end Transport

section Inodes

variable {st : Mkfs} {i : Nat}

theorem Mkfs.rinode_eq (hi : i < NINODES) : st.rinode i = some (dinodes st.image i) := by
  have hb := (iblock_bounds hi).2
  have hlt : mkfsSb.iblock i < FSSIZE := Nat.lt_trans hb (by decide)
  simp [Mkfs.rinode, Mkfs.rsect, dinodes, hi, hlt]

theorem Mkfs.winode_spec (st : Mkfs) (hi : i < NINODES) (d : Dinode) :
    ∃ st', st.winode i d = some st' ∧ dinodes st'.image = Function.update (dinodes st.image) i d ∧
      (∀ b, nmeta ≤ b → st'.image b = st.image b) ∧ st'.image 1 = st.image 1 ∧ st'.freeinode = st.freeinode ∧
      st'.freeblock = st.freeblock := by
  obtain ⟨hlo, hb⟩ := iblock_bounds hi
  have hlt : mkfsSb.iblock i < FSSIZE := Nat.lt_trans hb (by decide)
  have hmeta := Nat.lt_trans hb bmapstart_lt
  refine ⟨st.wsect (mkfsSb.iblock i) (putDinode (st.image (mkfsSb.iblock i)) i d), ?_, ?_, ?_, ?_,
    rfl, rfl⟩
  · simp [Mkfs.winode, Mkfs.rsect, hlt]
  · funext j
    simp only [dinodes, Mkfs.wsect]
    by_cases hj : j = i
    · subst hj
      rw [Function.update_self, Function.update_self, if_pos hi, getDinode_put_same]
    · rw [Function.update_of_ne hj, dinodes]
      by_cases hjn : j < NINODES
      · rw [if_pos hjn, if_pos hjn]
        by_cases hblock : mkfsSb.iblock j = mkfsSb.iblock i
        · rw [hblock, Function.update_self]
          apply getDinode_put_other
          simp only [mkfsSb, Superblock.iblock, IPB, BSIZE] at *
          omega
        · rw [Function.update_of_ne hblock]
      · rw [if_neg hjn, if_neg hjn]
  · intro b hbn
    simp only [Mkfs.wsect]
    exact Function.update_of_ne (by omega) _ _
  · simp only [Mkfs.wsect]
    exact Function.update_of_ne (by omega) _ _

end Inodes

/-- What holds between the calls of mkfs: the layout with the inodes on the disk, whose sizes and
types are those of the files. -/
structure Mkfs.Inv (st : Mkfs) (alloc : List Ref) (content : Nat → List Byte)
    (kind : Nat → BitVec 16) : Prop where
  lays : st.Lays (dinodes st.image) alloc content
  exact : Exact alloc content
  size : ∀ i, (dinodes st.image i).size.toNat = (content i).length
  kind : ∀ i, (dinodes st.image i).type = kind i
  fresh : ∀ i, st.freeinode ≤ i → dinodes st.image i = Dinode.zero
  super : st.image 1 = put zero 0 mkfsSb.encode

section Calls

variable {st : Mkfs} {alloc : List Ref} {content : Nat → List Byte} {kind : Nat → BitVec 16}

theorem Mkfs.start_inv : Mkfs.start.Inv [] (fun _ => []) (fun _ => 0) := by
  have hzero : ∀ b, b ≠ 1 → Mkfs.start.image b = zero := fun b hb => by simp [Mkfs.start, hb]
  have hdin : ∀ i, dinodes Mkfs.start.image i = Dinode.zero := by
    intro i
    unfold dinodes
    split
    next hi =>
      have := (iblock_bounds hi).1
      rw [hzero _ (by omega), getDinode_zero]
    next => rfl
  refine ⟨⟨⟨List.nodup_nil, by simp, ?_, by simp, ?_, by decide⟩, rfl⟩, ⟨by simp, by simp⟩, ?_, ?_,
    ?_, rfl⟩
  · intro r _
    cases r with
    | ind i => simp [addrOf, hdin, Dinode.zero]
    | data i bn => simp [addrOf, hdin, Dinode.zero]
  · intro b hb
    simp only [nmeta, List.length_nil] at hb
    exact hzero b (by omega)
  · intro i
    simp [hdin, Dinode.zero]
  · intro i
    simp [hdin, Dinode.zero]
  · intro i _
    exact hdin i

theorem Mkfs.ialloc_spec (h : st.Inv alloc content kind) (hi : st.freeinode < NINODES)
    (type : BitVec 16) :
    ∃ st', st.ialloc type = some (st.freeinode, st') ∧ st'.freeinode = st.freeinode + 1 ∧
      st'.Inv alloc content (Function.update kind st.freeinode type) := by
  obtain ⟨st', hrun, hdin, hdata, hsuper, hfi, hfb⟩ :=
    Mkfs.winode_spec { st with freeinode := st.freeinode + 1 } hi
    { Dinode.zero with type := type, nlink := 1 }
  have hfresh := h.fresh st.freeinode (Nat.le_refl _)
  refine ⟨st', ?_, hfi, ⟨⟨?_, ?_⟩, h.exact, ?_, ?_, ?_, ?_⟩⟩
  · simp only [Mkfs.ialloc, hrun, Option.map_some]
  · refine h.lays.layout.congr (fun j => ?_) hdata
    rw [hdin]
    by_cases hj : j = st.freeinode
    · rw [hj, Function.update_self, hfresh]
    · rw [Function.update_of_ne hj]
  · rw [hfb]
    exact h.lays.free
  · intro j
    rw [hdin]
    by_cases hj : j = st.freeinode
    · have hsize := h.size st.freeinode
      rw [hfresh] at hsize
      rw [hj, Function.update_self, ← hsize]
    · rw [Function.update_of_ne hj]
      exact h.size j
  · intro j
    rw [hdin]
    by_cases hj : j = st.freeinode
    · rw [hj, Function.update_self, Function.update_self]
    · rw [Function.update_of_ne hj, Function.update_of_ne hj]
      exact h.kind j
  · intro j hj
    rw [hfi] at hj
    have hj : st.freeinode + 1 ≤ j := hj
    rw [hdin, Function.update_of_ne (by omega)]
    exact h.fresh j (by omega)
  · rw [hsuper]
    exact h.super

theorem Mkfs.iappend_spec {i : Nat} {p : List Byte} (h : st.Inv alloc content kind)
    (hi : i < st.freeinode) (hn : i < NINODES)
    (hmax : (content i).length + p.length ≤ MAXFILE * BSIZE)
    (hroom : nmeta + alloc.length + blocks ((content i).length + p.length) ≤
      FSSIZE + blocks (content i).length) :
    ∃ st' alloc', st.iappend i p = some st' ∧
      st'.Inv alloc' (Function.update content i (content i ++ p)) kind ∧
      alloc'.length + blocks (content i).length = alloc.length + blocks ((content i).length + p.length) ∧
      st'.freeinode = st.freeinode := by
  obtain ⟨st1, a, alloc', hrun, hlays, hexact, hcount, hfi, hmeta⟩ :=
    Mkfs.appendLoop_spec h.lays h.exact (Nat.le_refl p.length) hmax hroom
  have hdin1 : dinodes st1.image = dinodes st.image := dinodes_congr hmeta
  obtain ⟨st2, hrun2, hdin2, hdata2, hsuper2, hfi2, hfb2⟩ := Mkfs.winode_spec st1 hn
    { (dinodes st.image i).withAddrs a with size := BitVec.ofNat 32 ((content i).length + p.length) }
  rw [hdin1] at hdin2
  refine ⟨st2, alloc', ?_, ⟨⟨?_, ?_⟩, hexact, ?_, ?_, ?_, ?_⟩, hcount, hfi2.trans hfi⟩
  · unfold Mkfs.iappend
    rw [Mkfs.rinode_eq hn]
    simp only [Option.bind_eq_bind, Option.bind_some, h.size i, hrun]
    exact hrun2
  · refine hlays.layout.congr (fun j => ?_) hdata2
    rw [hdin2]
    by_cases hj : j = i
    · rw [hj, Function.update_self, Function.update_self]
    · rw [Function.update_of_ne hj, Function.update_of_ne hj]
  · rw [hfb2]
    exact hlays.free
  · intro j
    rw [hdin2]
    by_cases hj : j = i
    · rw [hj, Function.update_self, Function.update_self, List.length_append]
      simp only [BitVec.toNat_ofNat]
      apply Nat.mod_eq_of_lt
      simp only [MAXFILE, NDIRECT, NINDIRECT, BSIZE] at hmax
      omega
    · rw [Function.update_of_ne hj, Function.update_of_ne hj]
      exact h.size j
  · intro j
    rw [hdin2]
    by_cases hj : j = i
    · rw [hj, Function.update_self]
      exact h.kind i
    · rw [Function.update_of_ne hj]
      exact h.kind j
  · intro j hj
    rw [hfi2, hfi] at hj
    rw [hdin2, Function.update_of_ne (by omega)]
    exact h.fresh j hj
  · rw [hsuper2, hmeta 1 (by decide)]
    exact h.super

theorem Mkfs.reads_spec {i : Nat} (reads : List (List Byte)) (h : st.Inv alloc content kind)
    (hi : i < st.freeinode) (hn : i < NINODES)
    (hmax : (content i).length + reads.flatten.length ≤ MAXFILE * BSIZE)
    (hroom : nmeta + alloc.length + blocks ((content i).length + reads.flatten.length) ≤
      FSSIZE + blocks (content i).length) :
    ∃ st' alloc', reads.foldlM (fun st r => st.iappend i r) st = some st' ∧
      st'.Inv alloc' (Function.update content i (content i ++ reads.flatten)) kind ∧
      alloc'.length + blocks (content i).length =
        alloc.length + blocks ((content i).length + reads.flatten.length) ∧
      st'.freeinode = st.freeinode := by
  induction reads generalizing st alloc content with
  | nil =>
    refine ⟨st, alloc, rfl, ?_, rfl, rfl⟩
    rw [List.flatten_nil, List.append_nil, Function.update_eq_self]
    exact h
  | cons r reads ih =>
    rw [List.flatten_cons, List.length_append] at hmax hroom
    have hmono : blocks ((content i).length + r.length) ≤
        blocks ((content i).length + (r.length + reads.flatten.length)) := blocks_mono (by omega)
    obtain ⟨st1, alloc1, hrun1, hinv1, hcount1, hfi1⟩ :=
      Mkfs.iappend_spec (p := r) h hi hn (by omega) (by omega)
    have hcur : (Function.update content i (content i ++ r) i).length =
        (content i).length + r.length := by
      rw [Function.update_self, List.length_append]
    have hsum : (content i).length + r.length + reads.flatten.length =
        (content i).length + (r.length + reads.flatten.length) := by omega
    obtain ⟨st2, alloc2, hrun2, hinv2, hcount2, hfi2⟩ :=
      ih hinv1 (by omega) (by rw [hcur]; omega) (by
      rw [hcur, hsum]
      omega)
    refine ⟨st2, alloc2, ?_, ?_, ?_, hfi2.trans hfi1⟩
    · rw [List.foldlM_cons, hrun1]
      exact hrun2
    · rw [Function.update_self, Function.update_idem, List.append_assoc] at hinv2
      rw [List.flatten_cons]
      exact hinv2
    · rw [hcur, hsum] at hcount2
      rw [List.flatten_cons, List.length_append]
      omega

end Calls

open Mkfs (HostFile)

/-- The files' inodes come after that of the root directory. -/
def fileInum (k : Nat) : Nat := k + 2

/-- The entries of the root directory. -/
def rootEntries (files : List HostFile) : List (Nat × Name) :=
  (ROOTINO, dot) :: (ROOTINO, dotdot) :: files.zipIdx.map fun (f, k) => (fileInum k, f.fsName)

/-- The bytes of every inode once some files have been added. -/
def contents (files : List HostFile) (i : Nat) : List Byte :=
  if i = ROOTINO then (rootEntries files).flatMap fun (inum, name) => encodeDirent inum name
  else if 2 ≤ i then (files[i - 2]?.map HostFile.content).getD [] else []

def kinds (files : List HostFile) (i : Nat) : BitVec 16 :=
  if i = ROOTINO then tDir else if 2 ≤ i ∧ i < files.length + 2 then tFile else 0

/-- The blocks that mkfs gives to the files and the root directory. -/
def blocksNeeded (files : List HostFile) : Nat :=
  blocks (16 * (files.length + 2)) + (files.map fun f => blocks f.content.length).sum

/-- The files fit into the image. -/
structure Fits (files : List HostFile) : Prop where
  inodes : files.length + 1 < NINODES
  blocks : nmeta + blocksNeeded files ≤ FSSIZE
  maxfile : ∀ f ∈ files, f.content.length ≤ MAXFILE * BSIZE

section Files

variable {files : List HostFile} {f : HostFile}

theorem fileInum_ne_root (k : Nat) : fileInum k ≠ ROOTINO := by
  simp only [fileInum, ROOTINO]
  omega

theorem rootEntries_snoc :
    rootEntries (files ++ [f]) = rootEntries files ++ [(fileInum files.length, f.fsName)] := by
  simp [rootEntries, List.zipIdx_append]

theorem contents_root_length (files : List HostFile) :
    (contents files ROOTINO).length = 16 * (files.length + 2) := by
  have hlen : (rootEntries files).length = files.length + 2 := by simp [rootEntries]
  simp only [contents, if_true, List.length_flatMap, encodeDirent_length, List.map_const',
    List.sum_replicate_nat, hlen]
  omega

theorem contents_snoc : contents (files ++ [f]) =
    Function.update (Function.update (contents files) ROOTINO
      (contents files ROOTINO ++ encodeDirent (fileInum files.length) f.fsName)) (fileInum
        files.length) f.content := by
  funext i
  by_cases hroot : i = ROOTINO
  · subst hroot
    rw [Function.update_of_ne (fileInum_ne_root _).symm, Function.update_self]
    simp [contents, rootEntries_snoc]
  · by_cases hnew : i = fileInum files.length
    · subst hnew
      rw [Function.update_self, contents, if_neg hroot]
      simp [fileInum]
    · rw [Function.update_of_ne hnew, Function.update_of_ne hroot]
      simp only [contents, if_neg hroot]
      by_cases h2 : 2 ≤ i
      · rw [if_pos h2, if_pos h2]
        by_cases hlt : i - 2 < files.length
        · rw [List.getElem?_append_left hlt]
        · have hge : files.length + 1 ≤ i - 2 := by
            simp only [fileInum] at hnew
            omega
          rw [List.getElem?_eq_none (by simpa using hge), List.getElem?_eq_none (by omega)]
      · rw [if_neg h2, if_neg h2]

theorem kinds_snoc : kinds (files ++ [f]) =
    Function.update (kinds files) (fileInum files.length) tFile := by
  funext i
  by_cases hnew : i = fileInum files.length
  · subst hnew
    rw [Function.update_self, kinds, if_neg (fileInum_ne_root _)]
    simp [fileInum]
  · rw [Function.update_of_ne hnew]
    simp only [fileInum] at hnew
    have hiff : (2 ≤ i ∧ i < (files ++ [f]).length + 2) ↔ (2 ≤ i ∧ i < files.length + 2) := by
      simp only [List.length_append, List.length_cons, List.length_nil]
      omega
    simp only [kinds, hiff]

theorem contents_fresh {i : Nat} (h : files.length + 2 ≤ i) : contents files i = [] := by
  have hroot : i ≠ ROOTINO := by simp only [ROOTINO]; omega
  simp only [contents, if_neg hroot]
  rw [if_pos (by omega), List.getElem?_eq_none (by omega)]
  rfl

theorem blocksNeeded_snoc (files : List HostFile) (f : HostFile) :
    blocksNeeded (files ++ [f]) + blocks (16 * (files.length + 2)) =
    blocksNeeded files + blocks (16 * (files.length + 3)) + blocks f.content.length := by
  simp only [blocksNeeded, List.length_append, List.length_cons, List.length_nil, List.map_append,
    List.sum_append,
    List.map_cons, List.map_nil, List.sum_cons, List.sum_nil, Nat.zero_add, Nat.add_assoc,
      Nat.reduceAdd]
  omega

theorem Fits.init (h : Fits (files ++ [f])) : Fits files := by
  have hsnoc := blocksNeeded_snoc files f
  have hmono : Xv6.blocks (16 * (files.length + 2)) ≤ Xv6.blocks (16 * (files.length + 3)) :=
    blocks_mono (by omega)
  have hb := h.blocks
  have hi := h.inodes
  simp only [List.length_append, List.length_cons, List.length_nil] at hi
  exact ⟨by omega, by omega, fun g hg => h.maxfile g (by simp [hg])⟩

theorem Mkfs.addFile_spec {st : Mkfs} {alloc : List Ref}
    (h : st.Inv alloc (contents files) (kinds files)) (hfi : st.freeinode = files.length + 2)
    (hcount : alloc.length = blocksNeeded files) (hfits : Fits (files ++ [f])) :
    ∃ st' alloc', Mkfs.addFile ROOTINO st f = some st' ∧
      st'.Inv alloc' (contents (files ++ [f])) (kinds (files ++ [f])) ∧
      st'.freeinode = (files ++ [f]).length + 2 ∧ alloc'.length = blocksNeeded (files ++ [f]) := by
  have hslash : slash ∉ f.name := fun hm => (f.name_ok _ hm).2 rfl
  have hsnoc := blocksNeeded_snoc files f
  have hinodes := hfits.inodes
  have hblocks := hfits.blocks
  have hlen : (files ++ [f]).length = files.length + 1 := by simp
  rw [hlen] at hinodes
  have hroot := contents_root_length files
  obtain ⟨st1, hrun1, hfi1, hinv1⟩ := Mkfs.ialloc_spec h (by omega) tFile
  have hnum : st.freeinode = fileInum files.length := hfi
  rw [hnum, ← kinds_snoc (f := f)] at hinv1
  obtain ⟨st2, alloc2, hrun2, hinv2, hcount2, hfi2⟩ :=
    Mkfs.iappend_spec (i := ROOTINO) (p := encodeDirent (fileInum files.length) f.fsName) hinv1
      (by simp only [ROOTINO]; omega) (by decide)
      (by
        rw [hroot, encodeDirent_length]
        simp only [MAXFILE, NDIRECT, NINDIRECT, BSIZE, NINODES] at *
        omega)
      (by
        rw [hroot, encodeDirent_length]
        have : 16 * (files.length + 2) + 16 = 16 * (files.length + 3) := by omega
        rw [this]
        omega)
  rw [hroot, encodeDirent_length] at hcount2
  have hsum : 16 * (files.length + 2) + 16 = 16 * (files.length + 3) := by omega
  rw [hsum] at hcount2
  have hempty : Function.update (contents files) ROOTINO
      (contents files ROOTINO ++ encodeDirent (fileInum files.length) f.fsName)
        (fileInum files.length) = [] := by
    rw [Function.update_of_ne (fileInum_ne_root _)]
    exact contents_fresh (Nat.le_refl _)
  have hzero : blocks 0 = 0 := by decide
  obtain ⟨st3, alloc3, hrun3, hinv3, hcount3, hfi3⟩ :=
    Mkfs.reads_spec f.reads (i := fileInum files.length) hinv2
      (by rw [hfi2, hfi1, hnum]; omega)
      (by simp only [fileInum]; omega)
      (by
        rw [hempty]
        have := hfits.maxfile f (by simp)
        simpa [HostFile.content] using this)
      (by
        rw [hempty]
        have hc : f.reads.flatten.length = f.content.length := rfl
        simp only [List.length_nil, Nat.zero_add, hzero, hc]
        omega)
  rw [hempty] at hinv3 hcount3
  simp only [List.length_nil, Nat.zero_add, hzero] at hcount3
  refine ⟨st3, alloc3, ?_, ?_, ?_, ?_⟩
  · unfold Mkfs.addFile
    rw [if_neg hslash]
    simp only [hrun1, hnum, hrun2, Option.bind_eq_bind, Option.bind_some]
    exact hrun3
  · rw [contents_snoc]
    simpa [HostFile.content] using hinv3
  · rw [hfi3, hfi2, hfi1, hfi, hlen]
  · have hc : f.reads.flatten.length = f.content.length := rfl
    rw [hc] at hcount3
    omega

theorem Mkfs.root_spec : ∃ st0 st1 st2 alloc, Mkfs.start.ialloc tDir = some (ROOTINO, st0) ∧
    st0.iappend ROOTINO (encodeDirent ROOTINO dot) = some st1 ∧
    st1.iappend ROOTINO (encodeDirent ROOTINO dotdot) = some st2 ∧
    st2.Inv alloc (contents []) (kinds []) ∧ st2.freeinode = 2 ∧
      alloc.length = blocksNeeded [] := by
  obtain ⟨st0, hrun0, hfi0, hinv0⟩ := Mkfs.ialloc_spec Mkfs.start_inv (by decide) tDir
  obtain ⟨st1, alloc1, hrun1, hinv1, hcount1, hfi1⟩ :=
    Mkfs.iappend_spec (i := ROOTINO) (p := encodeDirent ROOTINO dot) hinv0 (by rw [hfi0]; decide)
      (by decide)
      (by decide) (by decide)
  rw [List.nil_append] at hinv1
  simp only [encodeDirent_length, List.length_nil] at hcount1
  have h1 : alloc1.length = 1 := by
    have e0 : blocks 0 = 0 := by decide
    have e16 : blocks (0 + 16) = 1 := by decide
    omega
  have hcur : (Function.update (fun _ => []) ROOTINO (encodeDirent ROOTINO dot) ROOTINO).length =
      16 := by
    rw [Function.update_self, encodeDirent_length]
  obtain ⟨st2, alloc2, hrun2, hinv2, hcount2, hfi2⟩ :=
    Mkfs.iappend_spec (i := ROOTINO) (p := encodeDirent ROOTINO dotdot) hinv1
      (by rw [hfi1, hfi0]; decide)
      (by decide) (by rw [hcur, encodeDirent_length]; decide) (by rw [hcur, encodeDirent_length, h1]; decide)
  have hcontents : contents [] = Function.update (fun _ => []) ROOTINO
      (encodeDirent ROOTINO dot ++ encodeDirent ROOTINO dotdot) := by
    funext i
    by_cases hi : i = ROOTINO
    · rw [hi, Function.update_self]
      simp [contents, rootEntries]
    · rw [Function.update_of_ne hi, contents, if_neg hi]
      simp
  have hkinds : kinds [] = Function.update (fun _ => 0) ROOTINO tDir := by
    funext i
    by_cases hi : i = ROOTINO
    · rw [hi, Function.update_self]
      rfl
    · rw [Function.update_of_ne hi, kinds, if_neg hi, if_neg (by simp only [List.length_nil]; omega)]
  refine ⟨st0, st1, st2, alloc2, hrun0, hrun1, hrun2, ?_, ?_, ?_⟩
  · rw [Function.update_self, Function.update_idem] at hinv2
    rw [hcontents, hkinds]
    exact hinv2
  · rw [hfi2, hfi1, hfi0]
    rfl
  · rw [hcur, encodeDirent_length] at hcount2
    have e16 : blocks 16 = 1 := by decide
    have e32 : blocks (16 + 16) = 1 := by decide
    have hneed : blocksNeeded [] = 1 := by decide
    omega

theorem Mkfs.files_spec {st : Mkfs} {alloc : List Ref} (h : st.Inv alloc (contents []) (kinds []))
    (hfi : st.freeinode = 2) (hcount : alloc.length = blocksNeeded []) (hfits : Fits files) :
    ∃ st' alloc', files.foldlM (Mkfs.addFile ROOTINO) st = some st' ∧
      st'.Inv alloc' (contents files) (kinds files) ∧
      st'.freeinode = files.length + 2 ∧ alloc'.length = blocksNeeded files := by
  induction files using List.reverseRecOn with
  | nil => exact ⟨st, alloc, rfl, h, hfi, hcount⟩
  | append_singleton files f ih =>
    obtain ⟨st1, alloc1, hrun1, hinv1, hfi1, hcount1⟩ := ih hfits.init
    obtain ⟨st2, alloc2, hrun2, hinv2, hfi2, hcount2⟩ := Mkfs.addFile_spec hinv1 hfi1 hcount1 hfits
    refine ⟨st2, alloc2, ?_, hinv2, hfi2, hcount2⟩
    rw [List.foldlM_append, hrun1]
    simpa using hrun2

/-- The image of some files: the layout of their bytes, their sizes but for the root directory's,
which has been rounded up, and the free map. -/
structure IsImage (files : List HostFile) (img : Nat → DiskBlock) (alloc : List Ref) : Prop where
  layout : Layout img (dinodes img) alloc (contents files)
  exact : Exact alloc (contents files)
  size : ∀ i, (dinodes img i).size.toNat =
    if i = ROOTINO then (16 * (files.length + 2) / BSIZE + 1) * BSIZE else (contents files i).length
  kind : ∀ i, (dinodes img i).type = kinds files i
  super : img 1 = put zero 0 mkfsSb.encode
  map : ∀ b, mapBit (img mkfsSb.bmapstart) b = decide (b < nmeta + alloc.length)

/-- mkfs ends with the image of its files when they fit. -/
theorem mkfs_image (hfits : Fits files) :
    ∃ img alloc, mkfs files = some img ∧ IsImage files img alloc := by
  obtain ⟨st0, st1, st2, alloc2, hrun0, hrun1, hrun2, hinv2, hfi2, hcount2⟩ := Mkfs.root_spec
  obtain ⟨st3, alloc3, hrun3, hinv3, hfi3, hcount3⟩ := Mkfs.files_spec hinv2 hfi2 hcount2 hfits
  have hroot := contents_root_length files
  have hsize := hinv3.size ROOTINO
  obtain ⟨st4, hrun4, hdin4, hdata4, hsuper4, hfi4, hfb4⟩ :=
    Mkfs.winode_spec st3 (i := ROOTINO) (by decide)
    { dinodes st3.image ROOTINO with
      size := BitVec.ofNat 32 (((dinodes st3.image ROOTINO).size.toNat / BSIZE + 1) * BSIZE) }
  have hfix : st3.fixRoot ROOTINO = some st4 := by
    unfold Mkfs.fixRoot
    rw [Mkfs.rinode_eq (by decide)]
    exact hrun4
  have hfree : st4.freeblock = nmeta + alloc3.length := hfb4.trans hinv3.lays.free
  have hroom := hinv3.lays.layout.room
  have hused : st4.freeblock < BSIZE * 8 := by
    rw [hfree]
    simp only [FSSIZE, BSIZE] at *
    omega
  have hmeta : ∀ b, b ≠ mkfsSb.bmapstart → (st4.wsect mkfsSb.bmapstart
      ((List.range st4.freeblock).foldl setMapBit zero)).image b = st4.image b := fun b hb =>
    Function.update_of_ne hb _ _
  have hdin5 : dinodes (st4.wsect mkfsSb.bmapstart
      ((List.range st4.freeblock).foldl setMapBit zero)).image =
      dinodes st4.image := by
    funext i
    unfold dinodes
    split
    next hi => rw [hmeta _ (Nat.ne_of_lt (iblock_bounds hi).2)]
    next => rfl
  refine ⟨(st4.wsect mkfsSb.bmapstart ((List.range st4.freeblock).foldl setMapBit zero)).image,
    alloc3, ?_, ⟨?_, hinv3.exact, ?_, ?_, ?_, ?_⟩⟩
  · unfold mkfs
    simp only [hrun0, hrun1, hrun2, hrun3, hfix, Option.bind_eq_bind, Option.bind_some, ne_eq,
      not_true_eq_false, if_false, Mkfs.balloc, if_pos hused]
    rfl
  · rw [hdin5]
    refine hinv3.lays.layout.congr (fun i => ?_) (fun b hb => ?_)
    · rw [hdin4]
      by_cases hi : i = ROOTINO
      · rw [hi, Function.update_self]
      · rw [Function.update_of_ne hi]
    · have := bmapstart_lt
      rw [hmeta b (by omega)]
      exact hdata4 b hb
  · intro i
    rw [hdin5, hdin4]
    by_cases hi : i = ROOTINO
    · rw [hi, Function.update_self, if_pos rfl, hsize, hroot]
      simp only [BitVec.toNat_ofNat]
      apply Nat.mod_eq_of_lt
      have := hfits.inodes
      simp only [NINODES, BSIZE] at *
      omega
    · rw [Function.update_of_ne hi, if_neg hi]
      exact hinv3.size i
  · intro i
    rw [hdin5, hdin4]
    by_cases hi : i = ROOTINO
    · rw [hi, Function.update_self]
      exact hinv3.kind ROOTINO
    · rw [Function.update_of_ne hi]
      exact hinv3.kind i
  · rw [hmeta 1 (by decide), hsuper4]
    exact hinv3.super
  · intro b
    rw [← hfree]
    simp only [Mkfs.wsect, Function.update_self]
    exact mapBit_range (Nat.le_of_lt hused) b

end Files

end Xv6
