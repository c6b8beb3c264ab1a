import Xv6.FileWrite

namespace Xv6

open Bytes Prog

/-- The allocated inodes; the others own nothing. -/
def Fs.files (s : Fs) (i : Nat) : Dinode := if s.Allocated i then s.dinode i else Dinode.zero

/-- Blocks are owned once and marked, and none is lost; every file has its blocks; the copies of
inodes in memory are those on the disk. -/
structure Fs.Sound (s : Fs) : Prop where
  super : Superblock.decode (s.disk 1) = s.sb
  blocks : Blocks s.sb s.disk s.files
  unleaked : ∀ b, s.sb.dataStart ≤ b → b < s.sb.size → marked s.sb s.disk b = true →
    ∃ r, addrOf s.disk s.files r = b
  sizes : ∀ i, (s.files i).size.toNat ≤ MAXFILE * BSIZE
  full : ∀ i bn, bn * BSIZE < (s.files i).size.toNat → addrOf s.disk s.files (.data i bn) ≠ 0
  coherent : ∀ ip, 0 < (s.inode ip).ref → (s.inode ip).valid = true →
    s.Allocated (s.inode ip).inum ∧ (s.inode ip).din = s.dinode (s.inode ip).inum
  unique : ∀ ip jp, 0 < (s.inode ip).ref → 0 < (s.inode jp).ref →
    (s.inode ip).inum = (s.inode jp).inum → ip = jp

variable {s s' t : Fs} {din din' : Nat → Dinode} {disk : Nat → DiskBlock} {ip : InodeSlot}
  {i j : Nat}

theorem Fs.Allocated.files (h : s.Allocated i) : s.files i = s.dinode i := if_pos h

theorem addrOf_inode (h : din' i = din i) (bn : Nat) :
    addrOf disk din' (.data i bn) = addrOf disk din (.data i bn) ∧
      addrOf disk din' (.ind i) = addrOf disk din (.ind i) := by
  simp only [addrOf, h, and_self]

theorem Fs.Allocated.contents (h : s.Allocated i) : s.contents i = fileBytes s.disk s.files i := by
  unfold Fs.contents fileBytes
  rw [h.files]
  exact List.map_congr_left fun k _ => by rw [(addrOf_inode h.files _).1]

theorem Fs.Sound.fileOk (h : s.Sound) (hi : s.Allocated i) : FileOk s.disk s.dinode i := by
  have hsize := h.blocks.ok.size
  have hzero : 0 < FSSIZE := by decide
  have hlt : ∀ r, addrOf s.disk s.files r < FSSIZE := by
    intro r
    by_cases hr : addrOf s.disk s.files r = 0
    · omega
    · have := (h.blocks.owned r hr).2.1
      omega
  have haddr : ∀ bn, addrOf s.disk s.files (.data i bn) = addrOf s.disk s.dinode (.data i bn) ∧ _ :=
    addrOf_inode hi.files
  refine ⟨?_, ?_, fun bn hbn => ?_⟩
  · rw [← hi.files]
    exact h.sizes i
  · rw [← (haddr 0).2]
    exact hlt _
  · rw [← (haddr bn).1]
    exact ⟨h.full i bn (by rw [hi.files]; exact hbn), hlt _⟩

/-- The bytes of a file with src over those from off on. -/
def splice (c : List Byte) (off : Nat) (src : List Byte) : List Byte :=
  c.take off ++ src ++ c.drop (off + src.length)

theorem splice_length {c src : List Byte} {off : Nat} (h : off ≤ c.length) :
    (splice c off src).length = max c.length (off + src.length) := by
  simp only [splice, List.length_append, List.length_take, List.length_drop]
  omega

theorem splice_getElem? {l src : List Byte} {off : Nat} (h : off ≤ l.length) (k : Nat) :
    (splice l off src)[k]? = (patch off src k).or l[k]? := by
  unfold splice
  have hlen : (l.take off).length = off := by
    rw [List.length_take]
    omega
  by_cases hlow : off ≤ k
  · rw [List.append_assoc, List.getElem?_append_right (by omega), hlen]
    by_cases hhigh : k - off < src.length
    · rw [List.getElem?_append_left hhigh, patch, if_pos hlow, List.getElem?_eq_getElem hhigh, Option.some_or]
    · have hidx : off + src.length + (k - off - src.length) = k := by omega
      have hnone : src[k - off]? = none := List.getElem?_eq_none (Nat.not_lt.mp hhigh)
      rw [List.getElem?_append_right (by omega), List.getElem?_drop, hidx, patch, if_pos hlow,
        hnone, Option.none_or]
  · rw [List.append_assoc, List.getElem?_append_left (by omega),
      List.getElem?_take_of_lt (by omega), patch, if_neg hlow, Option.none_or]

/-- One entry of the inode cache gets a new value. -/
def Fs.withInode (s : Fs) (ip : InodeSlot) (v : Inode) : Fs :=
  { s with inode := Function.update s.inode ip v }

@[simp] theorem withInode_same (v : Inode) : (s.withInode ip v).inode ip = v :=
  Function.update_self ..

theorem withInode_other {jp : InodeSlot} (v : Inode) (h : jp ≠ ip) :
    (s.withInode ip v).inode jp = s.inode jp :=
  Function.update_of_ne h ..

@[simp] theorem withInode_twice (v w : Inode) :
    (s.withInode ip v).withInode ip w = s.withInode ip w := by
  simp only [Fs.withInode, Function.update_idem]

/-- A place of a file keeps its block, and the byte that stands there is the new one or the old one.
-/
theorem Grew.byteAt {P : Finset Ref} {W : Nat → Option Byte} {k : Nat}
    (h : Grew ip i P W s din s' din') (hr : addrOf s.disk din (.data i (k / BSIZE)) ≠ 0) :
    byte (s'.disk (addrOf s'.disk din' (.data i (k / BSIZE)))) (k % BSIZE) =
      (W k).getD (byte (s.disk (addrOf s.disk din (.data i (k / BSIZE)))) (k % BSIZE)) := by
  cases hW : W k with
  | some v => exact (h.wrote k v hW).2
  | none =>
    have hplace : k / BSIZE * BSIZE + k % BSIZE = k := Nat.div_add_mod' k BSIZE
    rw [h.kept _ hr]
    exact h.data i (k / BSIZE) (k % BSIZE) (Nat.mod_lt _ (by decide)) hr fun _ =>
      by rw [hplace]; exact hW

theorem Grew.other {P : Finset Ref} {W : Nat → Option Byte} (h : Grew ip i P W s din s' din')
    (hj : j ≠ i) (hP : ∀ bn, Ref.data j bn ∉ P)
    (hfull : ∀ bn, bn * BSIZE < (din j).size.toNat → addrOf s.disk din (.data j bn) ≠ 0) :
    fileBytes s'.disk din' j = fileBytes s.disk din j := by
  have hdin : din' j = din j := by rw [h.family, Function.update_of_ne hj]
  unfold fileBytes
  rw [hdin]
  refine List.map_congr_left fun k hk => ?_
  have hr := hfull (k / BSIZE)
    (Nat.lt_of_le_of_lt (Nat.div_mul_le_self k BSIZE) (List.mem_range.mp hk))
  rw [h.only _ (hP _)]
  exact h.data j (k / BSIZE) (k % BSIZE) (Nat.mod_lt _ (by decide)) hr fun he => absurd he hj

theorem touched_other {off n bn : Nat} (hj : j ≠ i) : Ref.data j bn ∉ touched i off n := by
  intro hr
  obtain ⟨bn', _, hr⟩ := Finset.mem_biUnion.mp hr
  unfold placesOf at hr
  split at hr
  · exact hj (Ref.data.inj (Finset.mem_singleton.mp hr)).1
  · rcases Finset.mem_union.mp hr with hr | hr
    · cases Finset.mem_singleton.mp hr
    · exact hj (Ref.data.inj (Finset.mem_singleton.mp hr)).1

theorem Grew.still {P : Finset Ref} {W : Nat → Option Byte} (h : Grew ip i P W s din s' din')
    (hdin : (s.inode ip).din = din i) (hP : ∀ r ∈ P, addrOf s.disk din r ≠ 0) :
    s'.inode = s.inode ∧ din' = din := by
  have hsame : ∀ r, addrOf s'.disk din' r = addrOf s.disk din r := by
    intro r
    by_cases hr : r ∈ P
    · exact h.kept r (hP r hr)
    · exact h.only r hr
  obtain ⟨a, ha⟩ := h.self
  have haddrs : a = (s.inode ip).din.addrs := by
    funext k
    have hk := hsame (slotRef i k)
    rw [addrOf_slotRef, addrOf_slotRef, h.family, Function.update_self, ha, ← hdin] at hk
    exact BitVec.eq_of_toNat_eq hk
  have hip : s'.inode ip = s.inode ip := by rw [ha, haddrs]
  refine ⟨funext fun jp => ?_, ?_⟩
  · by_cases hjp : jp = ip
    · rw [hjp, hip]
    · exact h.others jp hjp
  · rw [h.family, hip, hdin, Function.update_eq_self]

theorem addrOf_addrs (h : ∀ j, (din' j).addrs = (din j).addrs) (r : Ref) :
    addrOf disk din' r = addrOf disk din r := by
  cases r <;> simp only [addrOf, h]

/-- The file with its new size: the new bytes over the old ones. -/
theorem Grew.bytes {off : Nat} {src : List Byte} {P : Finset Ref}
    (h : Grew ip i P (patch off src) s din s' din') (hoff : off ≤ (din i).size.toNat)
    (hfull : ∀ bn, bn * BSIZE < (din i).size.toNat → addrOf s.disk din (.data i bn) ≠ 0) :
    (List.range (max (din i).size.toNat (off + src.length))).map
        (fun k => byte (s'.disk (addrOf s'.disk din' (.data i (k / BSIZE)))) (k % BSIZE)) =
      splice (fileBytes s.disk din i) off src := by
  have hlen : (fileBytes s.disk din i).length = (din i).size.toNat := fileBytes_length ..
  refine List.ext_getElem? fun k => ?_
  rw [splice_getElem? (by omega), List.getElem?_map]
  cases hp : patch off src k with
  | some v =>
    have hk : k < max (din i).size.toNat (off + src.length) := by
      by_contra hge
      rw [patch_eq_none.mpr (by omega)] at hp
      cases hp
    rw [List.getElem?_range hk, Option.map_some, (h.wrote k v hp).2, Option.some_or]
  | none =>
    have hout := patch_eq_none.mp hp
    rw [Option.none_or]
    by_cases hk : k < (din i).size.toNat
    · have hr := hfull (k / BSIZE) (Nat.lt_of_le_of_lt (Nat.div_mul_le_self k BSIZE) hk)
      rw [List.getElem?_range (by omega), Option.map_some, h.byteAt hr, hp, Option.getD_none, fileBytes,
        List.getElem?_map, List.getElem?_range hk, Option.map_some]
    · rw [List.getElem?_eq_none (by rw [List.length_range]; omega), Option.map_none,
        List.getElem?_eq_none (by omega)]

theorem mem_touched {off n bn : Nat} (hlo : off ≤ bn * BSIZE) (hhi : bn * BSIZE < off + n) :
    Ref.data i bn ∈ touched i off n := by
  have hdiv : bn * BSIZE / BSIZE = bn := Nat.mul_div_cancel bn (by decide)
  have hblock : bn ∈ blocksOf off n :=
    Finset.mem_image.mpr ⟨bn * BSIZE, Finset.mem_Ico.mpr ⟨hlo, hhi⟩, hdiv⟩
  exact Finset.mem_biUnion.mpr ⟨bn, hblock, mem_placesOf⟩

/-- The inode is changed in memory and stored on the disk. -/
def Fs.store (s : Fs) (ip : InodeSlot) (d : Dinode) : Fs where
  disk := Function.update s.disk (s.sb.iblock (s.inode ip).inum)
    (putDinode (s.disk (s.sb.iblock (s.inode ip).inum)) (s.inode ip).inum d)
  sb := s.sb
  inode := Function.update s.inode ip { s.inode ip with din := d }
  input := s.input

theorem store_wp {α : Type} {d : Dinode} {f : Unit → FsM α} {Q : α → Fs → Prop}
    {E : FsHalt → Fs → Prop} (hblock : s.sb.iblock (s.inode ip).inum < FSSIZE)
    (h : (f ()).wp Q E (s.store ip d)) :
    (setDin ip d >>= fun _ => iupdate ip >>= f).wp Q E s := by
  refine wp_bind.mpr ((wp_ok (setDin_run d)).mpr (wp_bind.mpr (wp_bind.mpr (wp_get.mpr ?_))))
  dsimp only
  rw [Function.update_self]
  exact wp_bind.mpr (readBlock_wp hblock (wp_modify.mpr h))

theorem store_dinode {d : Dinode} (j : Nat) :
    (s.store ip d).dinode j = if j = (s.inode ip).inum then d else s.dinode j := by
  unfold Fs.store Fs.dinode
  dsimp only
  generalize (s.inode ip).inum = i
  by_cases hj : j = i
  · rw [if_pos hj, hj, Function.update_self, getDinode_put_same]
  · rw [if_neg hj]
    by_cases hblock : s.sb.iblock j = s.sb.iblock i
    · have hmod : i % IPB ≠ j % IPB := by
        unfold Superblock.iblock at hblock
        simp only [IPB, BSIZE] at *
        omega
      rw [hblock, Function.update_self, getDinode_put_other _ _ hmod]
    · rw [Function.update_of_ne hblock]

/-- The state u is s' with d as the inode of ip, in memory and on the disk; the other inodes are
those of s. -/
structure Settled (ip : InodeSlot) (d : Dinode) (s s' u : Fs) : Prop where
  sb : u.sb = s.sb
  super : u.disk 1 = s'.disk 1
  disk : ∀ x, s.sb.bmapstart ≤ x → u.disk x = s'.disk x
  dinodes : ∀ j < s.sb.ninodes, u.dinode j = if j = (s.inode ip).inum then d else s.dinode j
  slots : ∀ jp, jp ≠ ip → u.inode jp = s'.inode jp
  slot : u.inode ip = { s'.inode ip with din := d }

theorem Settled.store (d : Dinode) (hok : s.sb.Ok) (hsb : s'.sb = s.sb)
    (hip : (s'.inode ip).inum = (s.inode ip).inum) (hi : (s.inode ip).inum < s.sb.ninodes)
    (hdin : ∀ j < s.sb.ninodes, s'.dinode j = s.dinode j) :
    Settled ip d s s' (s'.store ip d) where
  sb := hsb
  super := by
    have hstart := hok.inodestart
    have hblock : s.sb.inodestart ≤ s.sb.iblock (s.inode ip).inum := Nat.le_add_left ..
    refine Function.update_of_ne ?_ _ _
    rw [hsb, hip]
    omega
  disk x hx := by
    have hblock := hok.inodes _ hi
    refine Function.update_of_ne ?_ _ _
    rw [hsb, hip]
    omega
  dinodes j hj := by rw [store_dinode, hip, hdin j hj]
  slots jp hjp := Function.update_of_ne hjp _ _
  slot := Function.update_self ..

/-- In s' the bytes src have been written at off of the file, and u is s' with d as its inode. -/
structure Writing (ip : InodeSlot) (off : Nat) (src : List Byte) (d : Dinode) (s s' : Fs)
    (din' : Nat → Dinode) (u : Fs) : Prop where
  before : s.Sound
  alloc : s.Allocated (s.inode ip).inum
  grew : Grew ip (s.inode ip).inum (touched (s.inode ip).inum off src.length) (patch off src) s
    s.files s' din'
  settled : Settled ip d s s' u
  type : d.type ≠ 0
  addrs : d.addrs = (s'.inode ip).din.addrs
  inside : off ≤ (s.files (s.inode ip).inum).size.toNat
  size : d.size.toNat = max (s.files (s.inode ip).inum).size.toNat (off + src.length)

namespace Writing

variable {off : Nat} {src : List Byte} {u : Fs} {d : Dinode} (h : Writing ip off src d s s' din' u)

include h

theorem allocated (hj : s.Allocated j) : u.Allocated j := by
  refine ⟨h.settled.sb ▸ hj.1, ?_⟩
  rw [h.settled.dinodes j hj.1]
  split
  next => exact h.type
  next => exact hj.2

theorem files : u.files = Function.update s.files (s.inode ip).inum d := by
  funext j
  by_cases hj : j = (s.inode ip).inum
  · rw [hj, Function.update_self, (h.allocated h.alloc).files, h.settled.dinodes _ h.alloc.1,
      if_pos rfl]
  · have hiff : u.Allocated j ↔ s.Allocated j := by
      rw [Fs.Allocated, Fs.Allocated, h.settled.sb]
      refine and_congr_right fun hlt => ?_
      rw [h.settled.dinodes j hlt, if_neg hj]
    rw [Function.update_of_ne hj]
    by_cases ha : s.Allocated j
    · rw [(hiff.mpr ha).files, ha.files, h.settled.dinodes j ha.1, if_neg hj]
    · rw [Fs.files, Fs.files, if_neg ha, if_neg (mt hiff.mp ha)]

theorem above_map {r : Ref} (hr : addrOf s'.disk din' r ≠ 0) :
    s.sb.bmapstart ≤ addrOf s'.disk din' r := by
  have hd := (h.grew.blocks.owned r hr).1
  have hb := s'.sb.bmapstart_lt
  rw [h.grew.sb] at hd hb
  omega

theorem addr (r : Ref) : addrOf u.disk u.files r = addrOf s'.disk din' r := by
  have hsame : ∀ j, (u.files j).addrs = (din' j).addrs := by
    intro j
    rw [h.files, h.grew.family]
    by_cases hj : j = (s.inode ip).inum
    · rw [hj, Function.update_self, Function.update_self, h.addrs]
    · rw [Function.update_of_ne hj, Function.update_of_ne hj]
  rw [addrOf_addrs hsame]
  exact addrOf_congr (fun j hj => h.settled.disk _ (h.above_map hj)) r

theorem full (j bn : Nat) (hbn : bn * BSIZE < (u.files j).size.toNat) :
    addrOf u.disk u.files (.data j bn) ≠ 0 := by
  rw [h.addr]
  by_cases hold : bn * BSIZE < (s.files j).size.toNat
  · have hne := h.before.full j bn hold
    rw [h.grew.kept _ hne]
    exact hne
  · rw [h.files] at hbn
    by_cases hj : j = (s.inode ip).inum
    · rw [hj, Function.update_self, h.size] at hbn
      rw [hj] at hold ⊢
      have hinside := h.inside
      exact h.grew.filled _ (mem_touched (by omega) (by omega))
    · rw [Function.update_of_ne hj] at hbn
      exact absurd hbn hold

theorem bytes (j : Nat) : fileBytes u.disk u.files j = (List.range (u.files j).size.toNat).map
    fun k => byte (s'.disk (addrOf s'.disk din' (.data j (k / BSIZE)))) (k % BSIZE) := by
  refine List.map_congr_left fun k hk => ?_
  have hne := h.full j (k / BSIZE)
    (Nat.lt_of_le_of_lt (Nat.div_mul_le_self k BSIZE) (List.mem_range.mp hk))
  rw [h.addr] at hne ⊢
  rw [h.settled.disk _ (h.above_map hne)]

theorem contents : u.contents (s.inode ip).inum =
    splice (s.contents (s.inode ip).inum) off src := by
  rw [(h.allocated h.alloc).contents, h.alloc.contents, h.bytes, h.files,
    Function.update_self, h.size]
  exact h.grew.bytes h.inside (h.before.full _)

theorem others (hj : s.Allocated j) (hne : j ≠ (s.inode ip).inum) : u.contents j = s.contents j ∧
    ∀ bn, addrOf u.disk u.dinode (.data j bn) = addrOf s.disk s.dinode (.data j bn) := by
  have hallocj := h.allocated hj
  have hd : din' j = s.files j := by rw [h.grew.family, Function.update_of_ne hne]
  refine ⟨?_, fun bn => ?_⟩
  · rw [hallocj.contents, hj.contents, h.bytes, h.files, Function.update_of_ne hne,
      ← h.grew.other hne (fun _ => touched_other hne) (h.before.full j), fileBytes, hd]
  · rw [← (addrOf_inode hallocj.files bn).1, h.addr, h.grew.only _ (touched_other hne),
      (addrOf_inode hj.files bn).1]

theorem slots (jp : InodeSlot) :
    (jp = ip ∨ u.inode jp = s.inode jp) ∧ (u.inode jp).ref = (s.inode jp).ref ∧
    (u.inode jp).inum = (s.inode jp).inum := by
  by_cases hjp : jp = ip
  · obtain ⟨a, ha⟩ := h.grew.self
    rw [hjp, h.settled.slot, ha]
    exact ⟨.inl rfl, rfl, rfl⟩
  · rw [h.settled.slots jp hjp, h.grew.others jp hjp]
    exact ⟨.inr rfl, rfl, rfl⟩

theorem sound (href : 0 < (s.inode ip).ref) (hmax : off + src.length ≤ MAXFILE * BSIZE) :
    u.Sound := by
  have hmark : ∀ b < s.sb.size, marked s.sb u.disk b = marked s.sb s'.disk b :=
    fun b hb => marked_congr (fun x hx _ => h.settled.disk x hx) hb
  refine ⟨?_, ?_, fun b hlo hhi hb => ?_, fun j => ?_, h.full, fun jp hr hv => ?_,
    fun jp kp hj hk he => ?_⟩
  · rw [h.settled.sb, h.settled.super, h.grew.low 1 (h.before.blocks.ok.one_lt h.alloc.1)]
    exact h.before.super
  · have hblocks := h.grew.blocks
    rw [h.grew.sb] at hblocks
    rw [h.settled.sb]
    exact hblocks.congr h.addr hmark
  · rw [h.settled.sb] at hlo hhi hb
    rw [hmark b hhi, ← h.grew.sb] at hb
    have hpos : 0 < s.sb.dataStart := Nat.succ_pos _
    rcases h.grew.marks b hlo hhi hb with hb | ⟨r, rfl⟩
    · obtain ⟨r, rfl⟩ := h.before.unleaked b hlo hhi hb
      exact ⟨r, (h.addr r).trans (h.grew.kept r (by omega))⟩
    · exact ⟨r, h.addr r⟩
  · rw [h.files]
    by_cases hj : j = (s.inode ip).inum
    · have hold := h.before.sizes (s.inode ip).inum
      rw [hj, Function.update_self, h.size]
      omega
    · rw [Function.update_of_ne hj]
      exact h.before.sizes j
  · by_cases hjp : jp = ip
    · rw [hjp, (h.slots ip).2.2, h.settled.dinodes _ h.alloc.1, if_pos rfl, h.settled.slot]
      exact ⟨h.allocated h.alloc, rfl⟩
    · rw [(h.slots jp).1.resolve_left hjp] at hr hv ⊢
      obtain ⟨h1, h2⟩ := h.before.coherent jp hr hv
      refine ⟨h.allocated h1, ?_⟩
      rw [h.settled.dinodes _ h1.1, if_neg fun he => hjp (h.before.unique jp ip hr href he), h2]
  · rw [(h.slots jp).2.1] at hj
    rw [(h.slots kp).2.1] at hk
    rw [(h.slots jp).2.2, (h.slots kp).2.2] at he
    exact h.before.unique jp kp hj hk he

end Writing

/-- An inode that is referenced, with its copy in memory. -/
structure Fs.Open (s : Fs) (ip : InodeSlot) : Prop where
  sound : s.Sound
  ref : 0 < (s.inode ip).ref
  valid : (s.inode ip).valid = true

theorem Fs.Open.copy (h : s.Open ip) :
    s.Allocated (s.inode ip).inum ∧ (s.inode ip).din = s.dinode (s.inode ip).inum :=
  h.sound.coherent ip h.ref h.valid

/-- What writei changes when it has written src at off. -/
structure Wrote (ip : InodeSlot) (off : Nat) (src : List Byte) (s u : Fs) : Prop where
  opened : u.Open ip
  sb : u.sb = s.sb
  slots : ∀ jp, jp ≠ ip → u.inode jp = s.inode jp
  slot : ∃ a, u.inode ip = { s.inode ip with din := { (s.inode ip).din with
    addrs := a, size := BitVec.ofNat 32 (max (s.inode ip).din.size.toNat (off + src.length)) } }
  contents : u.contents (s.inode ip).inum = splice (s.contents (s.inode ip).inum) off src
  dinodes : ∀ j < s.sb.ninodes, j ≠ (s.inode ip).inum → u.dinode j = s.dinode j
  others : ∀ j, s.Allocated j → j ≠ (s.inode ip).inum → u.contents j = s.contents j ∧
    ∀ bn, addrOf u.disk u.dinode (.data j bn) = addrOf s.disk s.dinode (.data j bn)

theorem Settled.wrote {off : Nat} {src : List Byte} {u : Fs} (hs : s.Open ip)
    (h : Grew ip (s.inode ip).inum (touched (s.inode ip).inum off src.length) (patch off src) s
      s.files s' din')
    (hu : Settled ip { (s'.inode ip).din with
      size := BitVec.ofNat 32 (max (s.inode ip).din.size.toNat (off + src.length)) } s s' u)
    (hoff : off ≤ (s.inode ip).din.size.toNat) (hmax : off + src.length ≤ MAXFILE * BSIZE) : Wrote
      ip off src s u := by
  obtain ⟨halloc, hcopy⟩ := hs.copy
  have hfile : s.files (s.inode ip).inum = (s.inode ip).din := halloc.files.trans hcopy.symm
  obtain ⟨a, ha⟩ := h.self
  have htype : (s'.inode ip).din.type ≠ 0 := by
    rw [ha]
    show (s.inode ip).din.type ≠ 0
    rw [hcopy]
    exact halloc.2
  have hsize : (BitVec.ofNat 32 (max (s.inode ip).din.size.toNat (off + src.length))).toNat =
      max (s.files (s.inode ip).inum).size.toNat (off + src.length) := by
    have hold := hs.sound.sizes (s.inode ip).inum
    have hbig : MAXFILE * BSIZE < 2 ^ 32 := by decide
    rw [← hfile]
    exact (BitVec.toNat_ofNat _ _).trans (Nat.mod_eq_of_lt (by omega))
  have hw : Writing ip off src _ s s' din' u :=
    ⟨hs.sound, halloc, h, hu, htype, rfl, hfile ▸ hoff, hsize⟩
  have hslot := hu.slot
  rw [ha] at hslot
  refine ⟨⟨hw.sound hs.ref hmax, by rw [hslot]; exact hs.ref, by rw [hslot]; exact hs.valid⟩, hu.sb,
    fun jp hjp => (hw.slots jp).1.resolve_left hjp, ⟨a, hslot⟩, hw.contents, fun j hj hne => ?_,
    fun j hj hne => hw.others hj hne⟩
  rw [hu.dinodes j hj, if_neg hne]

theorem Fs.Sound.touched_ne {off n : Nat} {r : Ref} (hs : s.Sound) (hr : r ∈ touched i off n)
    (hin : off + n ≤ (s.files i).size.toNat) : addrOf s.disk s.files r ≠ 0 := by
  obtain ⟨bn, hbn, hr⟩ := Finset.mem_biUnion.mp hr
  obtain ⟨k, hk, rfl⟩ := Finset.mem_image.mp hbn
  have hk := Finset.mem_Ico.mp hk
  have hdata := hs.full i (k / BSIZE) (by
    have := Nat.div_mul_le_self k BSIZE
    omega)
  unfold placesOf at hr
  split at hr
  next => rwa [Finset.mem_singleton.mp hr]
  next hind =>
    rcases Finset.mem_union.mp hr with hr | hr
    · rw [Finset.mem_singleton.mp hr]
      intro hz
      simp only [addrOf] at hdata hz
      rw [dif_neg hind, if_pos hz] at hdata
      exact hdata rfl
    · rwa [Finset.mem_singleton.mp hr]

/-- The requests that writei refuses. -/
def Refused (size off n : Nat) : Prop := size < off ∨ 2 ^ 32 ≤ off + n ∨ MAXFILE * BSIZE < off + n

instance decidableRefused (size off n : Nat) : Decidable (Refused size off n) :=
  inferInstanceAs (Decidable (_ ∨ _ ∨ _))

/-- What writei writes; it stops only when there are fewer free blocks than it needs. -/
theorem writei_wp {off : Nat} {src : List Byte} (hs : s.Open ip)
    (htype : (s.inode ip).din.type ≠ tDev)
    (hok : ¬ Refused (s.inode ip).din.size.toNat off src.length) :
    (writei ip src off).wp (fun r u => r = some src.length ∧ Wrote ip off src s u)
      (fun e _ => s.Short s.files (touched (s.inode ip).inum off src.length) e) s := by
  obtain ⟨halloc, hcopy⟩ := hs.copy
  have hdin : (s.inode ip).din = s.files (s.inode ip).inum := hcopy.trans halloc.files.symm
  simp only [Refused, not_or, not_lt, not_le] at hok
  obtain ⟨hoff, hwrap, hmax⟩ := hok
  have hmod : ¬ (off + src.length) % 2 ^ 32 < off := by
    rw [Nat.mod_eq_of_lt hwrap]
    omega
  refine wp_bind.mpr (wp_get.mpr ?_)
  dsimp only
  rw [if_neg htype, if_neg (by omega), if_neg (Nat.not_lt.mpr hmax)]
  refine wp_bind.mpr (wp_imp
    (writeChunks_wp _ off src hs.sound.blocks hdin (Nat.le_refl _) hmax) ?_)
  rintro _ s' ⟨din', h⟩
  obtain ⟨a, ha⟩ := h.self
  have hinum : (s'.inode ip).inum = (s.inode ip).inum := by rw [ha]
  have hdisk : ∀ j < s.sb.ninodes, s'.dinode j = s.dinode j := by
    intro j hj
    rw [Fs.dinode, h.sb, h.low _ (hs.sound.blocks.ok.inodes j hj), Fs.dinode]
  by_cases hgrow : 0 < src.length ∧ (s.inode ip).din.size.toNat < off + src.length
  · rw [if_pos hgrow]
    have hlt : (s'.inode ip).inum < s'.sb.ninodes := by rw [hinum, h.sb]; exact halloc.1
    refine wp_bind.mpr (wp_get.mpr (store_wp (h.blocks.ok.iblock_lt hlt) (wp_pure.mpr ⟨rfl, ?_⟩)))
    rw [← Nat.max_eq_right (Nat.le_of_lt hgrow.2)]
    exact Settled.wrote hs h (.store _ hs.sound.blocks.ok h.sb hinum halloc.1 hdisk) hoff hmax
  · rw [if_neg hgrow]
    have hinside : max (s.inode ip).din.size.toNat (off + src.length) = (s.inode ip).din.size.toNat := by omega
    obtain ⟨hsame, _⟩ := h.still hdin fun r hr => hs.sound.touched_ne hr (by rw [← hdin]; omega)
    have hd : { (s'.inode ip).din with size := BitVec.ofNat 32 (max (s.inode ip).din.size.toNat (off + src.length)) } =
        s.dinode (s.inode ip).inum := by
      rw [hinside, hsame, BitVec.ofNat_toNat, BitVec.setWidth_eq, hcopy]
    refine ⟨rfl, Settled.wrote hs h ?_ hoff hmax⟩
    rw [hd]
    refine ⟨h.sb, rfl, fun _ _ => rfl, fun j hj => ?_, fun _ _ => rfl, by rw [← hcopy, hsame]⟩
    rw [hdisk j hj]
    split
    next he => rw [he]
    next => rfl

theorem writei_run {off : Nat} {src : List Byte} (hs : s.Open ip)
    (htype : (s.inode ip).din.type ≠ tDev)
    (hok : ¬ Refused (s.inode ip).din.size.toNat off src.length)
    (hfree : (missing s.disk s.files (touched (s.inode ip).inum off src.length)).card ≤
      (freeBlocks s.sb s.disk).card) :
    ∃ u, Returns (writei ip src off) s (some src.length) u ∧ Wrote ip off src s u := by
  obtain ⟨_, u, hrun, rfl, hw⟩ := Returns.of_wp (wp_mono (writei_wp hs htype hok) (fun _ _ hq => hq)
    fun e _ he => absurd hfree (Nat.not_le.mpr he.2))
  exact ⟨u, hrun, hw⟩

/-- Every read of the file gets its bytes from off on, n at most. -/
def Fs.Readable (s : Fs) (ip : InodeSlot) : Prop :=
  ∀ off n, off < 2 ^ 32 → n < 2 ^ 32 → Returns (readi ip off n) s
    (if (s.contents (s.inode ip).inum).length < off ∨ 2 ^ 32 ≤ off + n then none
      else some (((s.contents (s.inode ip).inum).drop off).take n)) s

theorem Fs.Open.readable (hs : s.Open ip) (htype : (s.inode ip).din.type ≠ tDev) :
    s.Readable ip := by
  intro off n hoff hn
  obtain ⟨halloc, hcopy⟩ := hs.copy
  have hwrap : (off + n) % 2 ^ 32 < off ↔ 2 ^ 32 ≤ off + n := by omega
  have hread := readi_file (hs.sound.fileOk halloc) hcopy (hcopy ▸ htype) off n
  rw [s.contents_length]
  simp only [hwrap] at hread
  exact hread

/-- The most that filewrite gives to one call of writei. -/
abbrev filewriteMax : Nat := (LOGSIZE - 1 - 1 - 2) / 2 * 512

theorem touched_card (i off : Nat) {n : Nat} (hn : n ≤ filewriteMax) :
    (touched i off n).card ≤ 15 := by
  have hblocks : blocksOf off n ⊆ Finset.Ico (off / BSIZE) (off / BSIZE + 14) := by
    intro bn hbn
    obtain ⟨k, hk, rfl⟩ := Finset.mem_image.mp hbn
    rw [Finset.mem_Ico] at hk ⊢
    simp only [BSIZE, filewriteMax, LOGSIZE, MAXOPBLOCKS] at *
    omega
  have hsub : touched i off n ⊆ insert (.ind i) ((blocksOf off n).image (.data i)) := by
    intro r hr
    obtain ⟨bn, hbn, hr⟩ := Finset.mem_biUnion.mp hr
    have hdata : r = .data i bn → r ∈ insert (.ind i) ((blocksOf off n).image (.data i)) :=
      fun he =>
      Finset.mem_insert_of_mem (he ▸ Finset.mem_image_of_mem _ hbn)
    unfold placesOf at hr
    split at hr
    next => exact hdata (Finset.mem_singleton.mp hr)
    next =>
      rcases Finset.mem_union.mp hr with hind | hr
      · exact Finset.mem_insert.mpr (.inl (Finset.mem_singleton.mp hind))
      · exact hdata (Finset.mem_singleton.mp hr)
  calc (touched i off n).card ≤ ((blocksOf off n).image (Ref.data i)).card + 1 :=
        (Finset.card_le_card hsub).trans (Finset.card_insert_le _ _)
    _ ≤ (blocksOf off n).card + 1 := Nat.succ_le_succ Finset.card_image_le
    _ ≤ 15 := Nat.succ_le_succ ((Finset.card_le_card hblocks).trans_eq (by simp))

/-- A write of what filewrite gives to it is refused, or replaces the bytes [off, off + n) of the
file and nothing else; its blocks, with that of the inode and that of the bitmap, are fewer than the
log has. A read returns the bytes that are there. -/
theorem file_contents (s : Fs) (ip : InodeSlot) (hs : s.Open ip)
    (htype : (s.inode ip).din.type ≠ tDev) (off : Nat) (src : List Byte) :
    (Returns (writei ip src off) s none s ↔
      Refused (s.contents (s.inode ip).inum).length off src.length) ∧
      (¬ Refused (s.contents (s.inode ip).inum).length off src.length → src.length ≤ filewriteMax →
        (missing s.disk s.files (touched (s.inode ip).inum off src.length)).card ≤ (freeBlocks s.sb s.disk).card →
        (touched (s.inode ip).inum off src.length).card + 2 < LOGSIZE - 1 ∧
          ∃ u, Returns (writei ip src off) s (some src.length) u ∧ Wrote ip off src s u ∧ u.Readable ip) ∧
      s.Readable ip := by
  obtain ⟨halloc, hcopy⟩ := hs.copy
  rw [s.contents_length, ← hcopy]
  refine ⟨⟨fun hrun => ?_, fun hbad => ?_⟩, fun hok hmax hfree => ⟨?_, ?_⟩, hs.readable htype⟩
  · by_contra hok
    have hwp := writei_wp hs htype hok
    rw [wp_ok hrun] at hwp
    cases hwp.1
  · refine returns_get.bind ?_
    dsimp only
    rw [if_neg htype]
    by_cases hfirst : (s.inode ip).din.size.toNat < off ∨ (off + src.length) % 2 ^ 32 < off
    · rw [if_pos hfirst]
      exact returns_pure
    · have hbig : MAXFILE * BSIZE < 2 ^ 32 := by decide
      have hmax : MAXFILE * BSIZE < off + src.length := by
        rcases hbad with hb | hb | hb
        · exact absurd (.inl hb) hfirst
        · omega
        · exact hb
      rw [if_neg hfirst, if_pos hmax]
      exact returns_pure
  · have hcard := touched_card (s.inode ip).inum off hmax
    simp only [LOGSIZE, MAXOPBLOCKS]
    omega
  · obtain ⟨u, hrun, hw⟩ := writei_run hs htype hok hfree
    obtain ⟨a, ha⟩ := hw.slot
    exact ⟨u, hrun, hw, hw.opened.readable (by rw [ha]; exact htype)⟩

/-- A directory without entries. -/
def emptyInode : Dinode := { Dinode.zero with type := tDir, nlink := 1 }

def smallSb : Superblock :=
  { size := 100, nblocks := 96, ninodes := 2, nlog := 0, logstart := 2, inodestart := 2, bmapstart := 3 }

theorem smallSb_dataStart : smallSb.dataStart = 4 := by decide

/-- A file system with one inode, which is in use and locked. -/
def oneInodeFs : Fs where
  disk b := if b = 1 then put zero 0 smallSb.encode else if b = 2 then putDinode zero 1 emptyInode
    else if b = 3 then put zero 0 [15] else zero
  sb := smallSb
  inode ip := { inum := 1, ref := if ip = 0 then 1 else 0, locked := ip = 0, valid := true, din := emptyInode }
  input := []

theorem oneInode_dinode : oneInodeFs.dinode 1 = emptyInode := getDinode_put_same zero 1 _

theorem oneInode_allocated {i : Nat} : oneInodeFs.Allocated i ↔ i = 1 := by
  constructor
  · rintro ⟨hlt, htype⟩
    have hlt : i < 2 := hlt
    have hzero : oneInodeFs.dinode 0 = Dinode.zero :=
      (getDinode_put_other zero _ (by decide)).trans (getDinode_zero 0)
    have hne : i ≠ 0 := by
      rintro rfl
      rw [hzero] at htype
      exact htype rfl
    omega
  · rintro rfl
    refine ⟨Nat.one_lt_two, ?_⟩
    rw [oneInode_dinode]
    decide

theorem oneInode_files (i : Nat) :
    (oneInodeFs.files i).addrs = (fun _ => 0) ∧ (oneInodeFs.files i).size = 0 := by
  by_cases hi : oneInodeFs.Allocated i
  · rw [hi.files, oneInode_allocated.mp hi, oneInode_dinode]
    exact ⟨rfl, rfl⟩
  · rw [Fs.files, if_neg hi]
    exact ⟨rfl, rfl⟩

theorem oneInode_addr (r : Ref) : addrOf oneInodeFs.disk oneInodeFs.files r = 0 := by
  cases r <;> simp [addrOf, oneInode_files]

theorem oneInode_marked {b : Nat} (hb : b < 100) :
    marked oneInodeFs.sb oneInodeFs.disk b = decide (b < 4) := by
  have hmap : ∀ b < 100, mapBit (put zero 0 [15] : DiskBlock) (b % BPB) = decide (b < 4) := by
    decide +kernel
  have hblock : oneInodeFs.sb.bblock b = 3 := by
    show b / BPB + 3 = 3
    simp only [BPB, BSIZE]
    omega
  rw [marked, hblock]
  exact hmap b hb

theorem oneInode_slot {ip : InodeSlot} (h : 0 < (oneInodeFs.inode ip).ref) : ip = 0 := by
  by_contra hne
  simp [oneInodeFs, hne] at h

theorem oneInode_sound : oneInodeFs.Sound where
  super := by
    have hsuper : Superblock.decode (put zero 0 smallSb.encode) = smallSb := by decide +kernel
    exact hsuper
  blocks :=
    { ok := ⟨by decide, by decide, by decide, by decide⟩
      low := fun b hb => by
        have hb : b < 4 := smallSb_dataStart ▸ hb
        rw [oneInode_marked (by omega)]
        exact decide_eq_true hb
      owned := fun r hr => absurd (oneInode_addr r) hr
      distinct := fun r _ hr _ => absurd (oneInode_addr r) hr }
  unleaked b hlo hhi hb := by
    have hlo : 4 ≤ b := smallSb_dataStart ▸ hlo
    rw [oneInode_marked hhi, decide_eq_true_iff] at hb
    omega
  sizes i := by
    rw [(oneInode_files i).2]
    exact Nat.zero_le _
  full i bn hbn := by
    rw [(oneInode_files i).2] at hbn
    exact absurd hbn (Nat.not_lt_zero _)
  coherent _ _ _ := ⟨oneInode_allocated.mpr rfl, oneInode_dinode.symm⟩
  unique ip jp hi hj _ := by rw [oneInode_slot hi, oneInode_slot hj]

theorem oneInode_open : oneInodeFs.Open 0 := ⟨oneInode_sound, by decide, rfl⟩

theorem oneInode_contents : oneInodeFs.contents 1 = [] := by
  rw [← List.length_eq_zero_iff, Fs.contents_length, oneInode_dinode]
  rfl

theorem oneInode_space {n : Nat} (hn : (touched 1 0 n).card = 1) (disk : Nat → DiskBlock)
    (din : Nat → Dinode) :
    (missing disk din (touched 1 0 n)).card ≤ (freeBlocks oneInodeFs.sb oneInodeFs.disk).card := by
  have hfree : 4 ∈ freeBlocks oneInodeFs.sb oneInodeFs.disk := by
    have hsize : 4 < smallSb.size := by decide
    rw [mem_freeBlocks, oneInode_marked (by decide)]
    exact ⟨hsize, rfl⟩
  have hpos : 1 ≤ (freeBlocks oneInodeFs.sb oneInodeFs.disk).card := Finset.card_pos.mpr ⟨4, hfree⟩
  have hle : (missing disk din (touched 1 0 n)).card ≤ (touched 1 0 n).card := Finset.card_filter_le _ _
  omega

theorem file_contents_three :
    ∃ u, Returns (writei 0 [1, 2, 3] 0) oneInodeFs (some 3) u ∧ u.contents 1 = [1, 2, 3] := by
  obtain ⟨_, hwrite, _⟩ := file_contents oneInodeFs 0 oneInode_open (by decide) 0 [1, 2, 3]
  obtain ⟨_, u, hrun, hw, _⟩ := hwrite
    (by
      show ¬ Refused (oneInodeFs.contents 1).length 0 3
      rw [oneInode_contents]
      decide)
    (by decide) (oneInode_space (by decide) _ _)
  refine ⟨u, hrun, hw.contents.trans ?_⟩
  show splice (oneInodeFs.contents 1) 0 [1, 2, 3] = [1, 2, 3]
  rw [oneInode_contents]
  rfl

end Xv6
