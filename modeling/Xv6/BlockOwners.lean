import Mathlib.Data.Finset.Card
import Mathlib.Data.Finset.Union
import Xv6.FileRead

namespace Xv6

open Bytes Prog

variable {sb : Superblock} {disk : Nat → DiskBlock} {din din' din'' : Nat → Dinode} {s s' s'' : Fs}
  {ip : InodeSlot}
  {i b : Nat}

/-- The first block behind the free map. -/
def Superblock.dataStart (sb : Superblock) : Nat := sb.bmapstart + sb.size / BPB + 1

theorem Superblock.bmapstart_lt (sb : Superblock) : sb.bmapstart < sb.dataStart :=
  Nat.lt_succ_of_le (Nat.le_add_right _ _)

/-- The bit of a block in the free map. -/
def marked (sb : Superblock) (disk : Nat → DiskBlock) (b : Nat) : Bool :=
  mapBit (disk (sb.bblock b)) (b % BPB)

/-- The superblock, the inodes, the free map and the data follow one another. -/
structure Superblock.Ok (sb : Superblock) : Prop where
  inodestart : 2 ≤ sb.inodestart
  inodes : ∀ i < sb.ninodes, sb.iblock i < sb.bmapstart
  data : sb.dataStart ≤ sb.size
  size : sb.size ≤ FSSIZE

theorem Superblock.Ok.iblock_lt (h : sb.Ok) (hi : i < sb.ninodes) : sb.iblock i < FSSIZE := by
  have hinode := h.inodes i hi
  have hmap := sb.bmapstart_lt
  have hdata := h.data
  have hsize := h.size
  omega

theorem Superblock.Ok.one_lt (h : sb.Ok) (hi : i < sb.ninodes) : 1 < sb.bmapstart := by
  have hstart := h.inodestart
  have hinode := h.inodes i hi
  have hblock : sb.inodestart ≤ sb.iblock i := Nat.le_add_left ..
  omega

/-- Every block in use belongs to one place of one inode, and is marked; so are the blocks up to the
free map. -/
structure Blocks (sb : Superblock) (disk : Nat → DiskBlock) (din : Nat → Dinode) : Prop where
  ok : sb.Ok
  low : ∀ b < sb.dataStart, marked sb disk b = true
  owned : ∀ r, addrOf disk din r ≠ 0 →
    sb.dataStart ≤ addrOf disk din r ∧ addrOf disk din r < sb.size ∧
      marked sb disk (addrOf disk din r) = true
  distinct : ∀ r r', addrOf disk din r ≠ 0 → addrOf disk din r = addrOf disk din r' → r = r'

def freeBlocks (sb : Superblock) (disk : Nat → DiskBlock) : Finset Nat :=
  (Finset.range sb.size).filter fun b => marked sb disk b = false

theorem mem_freeBlocks : b ∈ freeBlocks sb disk ↔ b < sb.size ∧ marked sb disk b = false := by
  simp [freeBlocks]

theorem bblock_lt {x : Nat} (hx : x < sb.size) :
    sb.bmapstart ≤ sb.bblock x ∧ sb.bblock x < sb.dataStart := by
  have := Nat.div_le_div_right (c := BPB) (Nat.le_of_lt hx)
  unfold Superblock.bblock Superblock.dataStart
  exact ⟨Nat.le_add_left _ _, by omega⟩

theorem marked_congr {disk' : Nat → DiskBlock}
    (h : ∀ x, sb.bmapstart ≤ x → x < sb.dataStart → disk' x = disk x)
    (hb : b < sb.size) : marked sb disk' b = marked sb disk b := by
  unfold marked
  rw [h _ (bblock_lt hb).1 (bblock_lt hb).2]

theorem Blocks.congr {disk' : Nat → DiskBlock} (h : Blocks sb disk din)
    (haddr : ∀ r, addrOf disk' din' r = addrOf disk din r)
    (hmark : ∀ b < sb.size, marked sb disk' b = marked sb disk b) : Blocks sb disk' din' where
  ok := h.ok
  low b hb := by
    have hdata := h.ok.data
    rw [hmark b (by omega)]
    exact h.low b hb
  owned r hr := by
    rw [haddr] at hr ⊢
    obtain ⟨hlo, hhi, hm⟩ := h.owned r hr
    exact ⟨hlo, hhi, (hmark _ hhi).trans hm⟩
  distinct r r' hr he := by
    rw [haddr] at hr
    rw [haddr, haddr] at he
    exact h.distinct r r' hr he

theorem Blocks.free_ge (h : Blocks sb disk din) (hb : b ∈ freeBlocks sb disk) :
    sb.dataStart ≤ b := by
  by_contra hlt
  have := h.low b (by omega)
  rw [(mem_freeBlocks.mp hb).2] at this
  cases this

theorem Blocks.free_ne (h : Blocks sb disk din) (hb : b ∈ freeBlocks sb disk) : b ≠ 0 := by
  have hstart : 0 < sb.dataStart := Nat.succ_pos _
  have := h.free_ge hb
  omega

/-- The file system after balloc has found b. -/
def Fs.take (s : Fs) (b : Nat) : Fs :=
  { s with
    disk := Function.update (Function.update s.disk (s.sb.bblock b)
      (setMapBit (s.disk (s.sb.bblock b)) (b % BPB))) b zero }

theorem readBlock_wp {Q : DiskBlock → Fs → Prop} {E : FsHalt → Fs → Prop} (h : b < FSSIZE)
    (hq : Q (s.disk b) s) :
    (readBlock b).wp Q E s := by
  rw [wp_ok (readBlock_ok h)]
  exact hq

/-- No block is left. -/
def Fs.Full (s : Fs) (e : FsHalt) : Prop := e = .panic .outOfBlocks ∧ freeBlocks s.sb s.disk = ∅

theorem ballocScan_wp (h : Blocks s.sb s.disk din) (c n : Nat)
    (hn : ∀ x < c + n, x * BPB < s.sb.size) :
    (ballocScan ((List.range' c n).map (· * BPB))).wp
      (fun b t => b ∈ freeBlocks s.sb s.disk ∧ t = s.take b)
      (fun e _ => e = .panic .outOfBlocks ∧ ∀ b ∈ freeBlocks s.sb s.disk, c * BPB ≤ b →
        (c + n) * BPB ≤ b) s := by
  induction n generalizing c with
  | zero => exact ⟨rfl, fun _ _ hlo => hlo⟩
  | succ n ih =>
    have hsize := h.ok.size
    have hdata := h.ok.data
    have hmap : s.sb.bblock (c * BPB) < FSSIZE := by
      have := bblock_lt (hn c (by omega))
      omega
    rw [List.range'_succ, List.map_cons]
    refine wp_bind.mpr (wp_get.mpr (wp_bind.mpr (readBlock_wp hmap ?_)))
    cases hfind : (List.range (min BPB (s.sb.size - c * BPB))).find?
        fun bi => !mapBit (s.disk (s.sb.bblock (c * BPB))) bi with
    | some bi =>
      have hbi := List.mem_range.mp (List.mem_of_find?_eq_some hfind)
      have hbit := List.find?_some hfind
      have hdiv : (c * BPB + bi) / BPB = c ∧ (c * BPB + bi) % BPB = bi ∧ c * BPB / BPB = c := by
        simp only [BPB, BSIZE] at *
        omega
      have hblock : s.sb.bblock (c * BPB + bi) = s.sb.bblock (c * BPB) := by
        unfold Superblock.bblock
        rw [hdiv.1, hdiv.2.2]
      refine wp_bind.mpr (wp_modify.mpr
        (wp_bind.mpr (wp_bind.mpr (readBlock_wp (by omega) (wp_modify.mpr ?_)))))
      refine ⟨mem_freeBlocks.mpr ⟨by omega, ?_⟩, ?_⟩
      · unfold marked
        rw [hblock, hdiv.2.1]
        simpa using hbit
      · unfold Fs.take
        rw [hblock, hdiv.2.1]
    | none =>
      have hnone := List.find?_eq_none.mp hfind
      have hnext : ∀ x ∈ freeBlocks s.sb s.disk, c * BPB ≤ x → (c + 1) * BPB ≤ x := by
        intro x hx hlo
        by_contra hlt
        have hxs := (mem_freeBlocks.mp hx).1
        have hdiv : x / BPB = c ∧ c * BPB / BPB = c ∧ x % BPB = x - c * BPB := by
          simp only [BPB, BSIZE] at *
          omega
        have hnot := hnone (x - c * BPB) (List.mem_range.mpr (by simp only [BPB, BSIZE] at *; omega))
        have hmark := (mem_freeBlocks.mp hx).2
        unfold marked at hmark
        unfold Superblock.bblock at hmark hnot
        rw [hdiv.1, hdiv.2.2] at hmark
        rw [hdiv.2.1, hmark] at hnot
        exact hnot rfl
      have hsum : c + 1 + n = c + (n + 1) := by omega
      have hrest := ih (c + 1) (by rw [hsum]; exact hn)
      rw [hsum] at hrest
      exact wp_mono hrest (fun _ _ hq => hq) fun _ _ he => ⟨he.1, fun x hx hlo => he.2 x hx (hnext x hx hlo)⟩

theorem balloc_wp (h : Blocks s.sb s.disk din) :
    balloc.wp (fun b t => b ∈ freeBlocks s.sb s.disk ∧ t = s.take b) (fun e _ => s.Full e) s := by
  refine wp_bind.mpr (wp_get.mpr ?_)
  rw [List.range_eq_range']
  refine wp_mono (ballocScan_wp h 0 ((s.sb.size + BPB - 1) / BPB) fun x hx => ?_) (fun _ _ hq => hq)
    fun e _ he => ⟨he.1, ?_⟩
  · simp only [BPB, BSIZE] at *
    omega
  · refine Finset.eq_empty_of_forall_notMem fun x hx => ?_
    have hxs := (mem_freeBlocks.mp hx).1
    have := he.2 x hx (by omega)
    simp only [BPB, BSIZE] at *
    omega

theorem marked_take (h : Blocks s.sb s.disk din) (hb : b ∈ freeBlocks s.sb s.disk) {x : Nat}
    (hx : x < s.sb.size) :
    marked s.sb (s.take b).disk x = (marked s.sb s.disk x || decide (x = b)) := by
  have hlow := h.free_ge hb
  have hbs := (mem_freeBlocks.mp hb).1
  have hxb : s.sb.bblock x ≠ b := by
    have := (bblock_lt hx).2
    omega
  unfold marked Fs.take
  dsimp only
  rw [Function.update_of_ne hxb]
  by_cases hsame : s.sb.bblock x = s.sb.bblock b
  · have hdiv : x / BPB = b / BPB := by
      unfold Superblock.bblock at hsame
      omega
    have hiff : x % BPB = b % BPB ↔ x = b := by
      simp only [BPB, BSIZE] at *
      omega
    rw [hsame, Function.update_self, mapBit_setMapBit (Nat.mod_lt _ (by decide))]
    simp only [hiff]
  · have hne : x ≠ b := fun he => hsame (he ▸ rfl)
    rw [Function.update_of_ne hsame, decide_eq_false hne, Bool.or_false]

theorem take_disk_of_marked (hb : b ∈ freeBlocks s.sb s.disk) {x : Nat} (hlow : s.sb.dataStart ≤ x)
    (hx : marked s.sb s.disk x = true) :
    (s.take b).disk x = s.disk x := by
  have hbs := (mem_freeBlocks.mp hb).1
  have hne : x ≠ b := by
    rintro rfl
    rw [(mem_freeBlocks.mp hb).2] at hx
    cases hx
  have hmap : x ≠ s.sb.bblock b := by
    have := (bblock_lt hbs).2
    omega
  unfold Fs.take
  dsimp only
  rw [Function.update_of_ne hne, Function.update_of_ne hmap]

theorem addrOf_take (h : Blocks s.sb s.disk din) (hb : b ∈ freeBlocks s.sb s.disk) (r : Ref) :
    addrOf (s.take b).disk din r = addrOf s.disk din r := by
  refine addrOf_congr (fun j hj => ?_) r
  obtain ⟨hlow, _, hmark⟩ := h.owned (.ind j) hj
  exact take_disk_of_marked hb hlow hmark

/-- The places of P without a block. -/
def missing (disk : Nat → DiskBlock) (din : Nat → Dinode) (P : Finset Ref) : Finset Ref :=
  P.filter fun r => addrOf disk din r = 0

/-- The places of P have a block each in s', and no other place has changed; the bytes W are in the
file i, and no other bytes have changed. Of the inodes in memory only the addresses of ip have, and
the inodes on the disk have not. -/
structure Grew (ip : InodeSlot) (i : Nat) (P : Finset Ref) (W : Nat → Option Byte) (s : Fs)
    (din : Nat → Dinode) (s' : Fs) (din' : Nat → Dinode) : Prop where
  sb : s'.sb = s.sb
  others : ∀ jp, jp ≠ ip → s'.inode jp = s.inode jp
  self : ∃ a, s'.inode ip = { s.inode ip with din := { (s.inode ip).din with addrs := a } }
  family : din' = Function.update din i (s'.inode ip).din
  blocks : Blocks s'.sb s'.disk din'
  kept : ∀ r, addrOf s.disk din r ≠ 0 → addrOf s'.disk din' r = addrOf s.disk din r
  filled : ∀ r ∈ P, addrOf s'.disk din' r ≠ 0
  only : ∀ r ∉ P, addrOf s'.disk din' r = addrOf s.disk din r
  data : ∀ j bn k, k < BSIZE → addrOf s.disk din (.data j bn) ≠ 0 →
    (j = i → W (bn * BSIZE + k) = none) →
    byte (s'.disk (addrOf s.disk din (.data j bn))) k =
      byte (s.disk (addrOf s.disk din (.data j bn))) k
  wrote : ∀ k v, W k = some v → addrOf s'.disk din' (.data i (k / BSIZE)) ≠ 0 ∧
    byte (s'.disk (addrOf s'.disk din' (.data i (k / BSIZE)))) (k % BSIZE) = v
  low : ∀ x < s.sb.bmapstart, s'.disk x = s.disk x
  marks : ∀ b, s.sb.dataStart ≤ b → b < s.sb.size → marked s'.sb s'.disk b = true →
    marked s.sb s.disk b = true ∨ ∃ r, addrOf s'.disk din' r = b
  free : (freeBlocks s'.sb s'.disk).card + (missing s.disk din P).card =
    (freeBlocks s.sb s.disk).card

/-- Nothing is written. -/
def noBytes : Nat → Option Byte := fun _ => none

/-- The later bytes go over the earlier ones. -/
def overlay (W W' : Nat → Option Byte) : Nat → Option Byte := fun k => (W' k).or (W k)

@[simp] theorem overlay_noBytes (W : Nat → Option Byte) : overlay noBytes W = W := by
  funext k
  exact Option.or_none

theorem Grew.refl {P : Finset Ref} (h : Blocks s.sb s.disk din) (hdin : (s.inode ip).din = din i)
    (hP : ∀ r ∈ P, addrOf s.disk din r ≠ 0) : Grew ip i P noBytes s din s din where
  sb := rfl
  others _ _ := rfl
  self := ⟨_, rfl⟩
  family := by rw [hdin, Function.update_eq_self]
  blocks := h
  kept _ _ := rfl
  filled := hP
  only _ _ := rfl
  data _ _ _ _ _ _ := rfl
  wrote _ _ hW := by cases hW
  low _ _ := rfl
  marks _ _ _ hb := .inl hb
  free := by rw [missing, Finset.filter_false_of_mem hP, Finset.card_empty, Nat.add_zero]

theorem Grew.card_missing {P Q : Finset Ref} {W : Nat → Option Byte}
    (h : Grew ip i P W s din s' din') :
    (missing s.disk din (P ∪ Q)).card =
      (missing s.disk din P).card + (missing s'.disk din' Q).card := by
  have hsplit : missing s.disk din (P ∪ Q) = missing s.disk din P ∪ missing s'.disk din' Q := by
    ext r
    simp only [missing, Finset.mem_filter, Finset.mem_union]
    constructor
    · rintro ⟨hP | hQ, hr⟩
      · exact .inl ⟨hP, hr⟩
      · by_cases hP : r ∈ P
        · exact .inl ⟨hP, hr⟩
        · exact .inr ⟨hQ, (h.only r hP).trans hr⟩
    · rintro (⟨hP, hr⟩ | ⟨hQ, hr⟩)
      · exact ⟨.inl hP, hr⟩
      · refine ⟨.inr hQ, ?_⟩
        by_contra hne
        exact hne ((h.kept r hne).symm.trans hr)
  rw [hsplit]
  refine Finset.card_union_of_disjoint (Finset.disjoint_left.mpr fun r hP hQ => ?_)
  exact h.filled r (Finset.mem_filter.mp hP).1 (Finset.mem_filter.mp hQ).2

theorem Grew.trans {P Q : Finset Ref} {W W' : Nat → Option Byte} (h : Grew ip i P W s din s' din')
    (h' : Grew ip i Q W' s' din' s'' din'') : Grew ip i (P ∪ Q) (overlay W W') s din s'' din'' where
  sb := h'.sb.trans h.sb
  others jp hjp := (h'.others jp hjp).trans (h.others jp hjp)
  self := by
    obtain ⟨a, ha⟩ := h.self
    obtain ⟨a', ha'⟩ := h'.self
    exact ⟨a', by rw [ha', ha]⟩
  family := by rw [h'.family, h.family, Function.update_idem]
  blocks := h'.blocks
  kept r hr := by
    have hk := h.kept r hr
    rw [h'.kept r (hk ▸ hr), hk]
  filled r hr := by
    rcases Finset.mem_union.mp hr with hP | hQ
    · have hf := h.filled r hP
      rw [h'.kept r hf]
      exact hf
    · exact h'.filled r hQ
  only r hr := by
    rw [Finset.mem_union, not_or] at hr
    rw [h'.only r hr.2, h.only r hr.1]
  data j bn k hk hr hW := by
    have hnone : j = i → W' (bn * BSIZE + k) = none ∧ W (bn * BSIZE + k) = none := fun hj =>
      Option.or_eq_none_iff.mp (hW hj)
    have haddr := h.kept _ hr
    have hlater := h'.data j bn k hk (haddr ▸ hr) fun hj => (hnone hj).1
    rw [haddr] at hlater
    exact hlater.trans (h.data j bn k hk hr fun hj => (hnone hj).2)
  wrote k v hv := by
    cases hW' : W' k with
    | some w =>
      rw [overlay, hW', Option.some_or] at hv
      obtain rfl := Option.some.inj hv
      exact h'.wrote k w hW'
    | none =>
      rw [overlay, hW', Option.none_or] at hv
      obtain ⟨hne, hbyte⟩ := h.wrote k v hv
      have hplace : k / BSIZE * BSIZE + k % BSIZE = k := Nat.div_add_mod' k BSIZE
      have hlater := h'.data i (k / BSIZE) (k % BSIZE) (Nat.mod_lt _ (by decide)) hne fun _ =>
        by rw [hplace]; exact hW'
      rw [h'.kept _ hne]
      exact ⟨hne, hlater.trans hbyte⟩
  low x hx := by
    rw [h'.low x (by rw [h.sb]; exact hx), h.low x hx]
  marks b hlo hhi hb := by
    rcases h'.marks b (by rw [h.sb]; exact hlo) (by rw [h.sb]; exact hhi) hb with hm | hr
    · refine (h.marks b hlo hhi hm).imp_right ?_
      rintro ⟨r, rfl⟩
      have hstart : 0 < s.sb.dataStart := Nat.succ_pos _
      exact ⟨r, h'.kept r (by omega)⟩
    · exact .inr hr
  free := by
    have hcard := h.card_missing (Q := Q)
    have h1 := h.free
    have h2 := h'.free
    omega

theorem Blocks.add {disk' : Nat → DiskBlock} {r : Ref} (h : Blocks sb disk din)
    (hb : b ∈ freeBlocks sb disk)
    (haddr : ∀ r', addrOf disk' din' r' = if r' = r then b else addrOf disk din r')
    (hmark : ∀ x < sb.size, marked sb disk' x = (marked sb disk x || decide (x = b))) :
    Blocks sb disk' din' where
  ok := h.ok
  low x hx := by
    have hfits := h.ok.data
    rw [hmark x (by omega), h.low x hx, Bool.true_or]
  owned r' hr' := by
    rw [haddr r'] at *
    by_cases he : r' = r
    · rw [if_pos he, hmark b (mem_freeBlocks.mp hb).1, decide_eq_true rfl, Bool.or_true]
      exact ⟨h.free_ge hb, (mem_freeBlocks.mp hb).1, rfl⟩
    · rw [if_neg he] at *
      obtain ⟨hlo, hhi, hm⟩ := h.owned r' hr'
      rw [hmark _ hhi, hm, Bool.true_or]
      exact ⟨hlo, hhi, rfl⟩
  distinct r₁ r₂ hne heq := by
    have hfresh : ∀ r', addrOf disk din r' ≠ b := by
      rintro r' rfl
      have hm := (h.owned r' (h.free_ne hb)).2.2
      rw [(mem_freeBlocks.mp hb).2] at hm
      cases hm
    rw [haddr] at hne
    rw [haddr, haddr] at heq
    by_cases h1 : r₁ = r
    · by_cases h2 : r₂ = r
      · exact h1.trans h2.symm
      · rw [if_pos h1, if_neg h2] at heq
        exact absurd heq.symm (hfresh r₂)
    · rw [if_neg h1] at hne
      by_cases h2 : r₂ = r
      · rw [if_neg h1, if_pos h2] at heq
        exact absurd heq (hfresh r₁)
      · rw [if_neg h1, if_neg h2] at heq
        exact h.distinct r₁ r₂ hne heq

theorem Grew.take {r : Ref} (h : Blocks s.sb s.disk din) (hb : b ∈ freeBlocks s.sb s.disk)
    (hr : addrOf s.disk din r = 0) (hsb : s'.sb = s.sb)
    (hothers : ∀ jp, jp ≠ ip → s'.inode jp = s.inode jp)
    (hself : ∃ a, s'.inode ip = { s.inode ip with din := { (s.inode ip).din with addrs := a } })
    (hfamily : din' = Function.update din i (s'.inode ip).din)
    (haddr : ∀ r', addrOf s'.disk din' r' = if r' = r then b else addrOf s.disk din r')
    (hlow : ∀ x < s.sb.dataStart, s'.disk x = (s.take b).disk x)
    (hdata : ∀ j bn, addrOf s.disk din (.data j bn) ≠ 0 →
      s'.disk (addrOf s.disk din (.data j bn)) = s.disk (addrOf s.disk din (.data j bn))) :
    Grew ip i {r} noBytes s din s' din' := by
  have hmark : ∀ x < s.sb.size, marked s.sb s'.disk x =
      (marked s.sb s.disk x || decide (x = b)) := by
    intro x hx
    rw [← marked_take h hb hx]
    exact marked_congr (fun y _ hy => hlow y hy) hx
  have hfree : freeBlocks s.sb s'.disk = (freeBlocks s.sb s.disk).erase b := by
    ext x
    rw [mem_freeBlocks, Finset.mem_erase, mem_freeBlocks]
    constructor
    · rintro ⟨hx, hf⟩
      rw [hmark x hx, Bool.or_eq_false_iff, decide_eq_false_iff_not] at hf
      exact ⟨hf.2, hx, hf.1⟩
    · rintro ⟨hne, hx, hf⟩
      rw [hmark x hx, hf, decide_eq_false hne]
      exact ⟨hx, rfl⟩
  refine ⟨hsb, hothers, hself, hfamily, hsb ▸ h.add hb haddr hmark, fun r' hr' => ?_,
    fun r' hr' => ?_,
    fun r' hr' => ?_, fun j bn k _ hr _ => by rw [hdata j bn hr], fun _ _ hW => (by cases hW),
      fun x hx => ?_,
    fun x _ hx hm => ?_, ?_⟩
  · have hne : r' ≠ r := by
      rintro rfl
      exact hr' hr
    rw [haddr, if_neg hne]
  · rw [haddr, if_pos (Finset.mem_singleton.mp hr')]
    exact h.free_ne hb
  · rw [haddr, if_neg fun he => hr' (Finset.mem_singleton.mpr he)]
  · have hmap := bblock_lt (mem_freeBlocks.mp hb).1
    have hbd := h.free_ge hb
    have hne : x ≠ b := by omega
    have hxm : x ≠ s.sb.bblock b := by omega
    rw [hlow x (by omega)]
    unfold Fs.take
    dsimp only
    rw [Function.update_of_ne hne, Function.update_of_ne hxm]
  · rw [hsb, hmark x hx, Bool.or_eq_true, decide_eq_true_iff] at hm
    refine hm.imp_right ?_
    rintro rfl
    exact ⟨r, by rw [haddr, if_pos rfl]⟩
  · rw [hsb, hfree, missing, Finset.filter_singleton, if_pos hr, Finset.card_singleton,
      Finset.card_erase_add_one hb]

theorem setDin_run (d : Dinode) :
    Returns (setDin ip d) s ()
      { s with inode := Function.update s.inode ip { s.inode ip with din := d } } :=
  returns_get.bind returns_modify

/-- There are fewer free blocks than places of P without a block. -/
def Fs.Short (s : Fs) (din : Nat → Dinode) (P : Finset Ref) (e : FsHalt) : Prop :=
  e = .panic .outOfBlocks ∧ (freeBlocks s.sb s.disk).card < (missing s.disk din P).card

theorem Fs.Full.short {e : FsHalt} {P : Finset Ref} {r : Ref} (h : s.Full e) (hr : r ∈ P)
    (hz : addrOf s.disk din r = 0) : s.Short din P e := by
  refine ⟨h.1, ?_⟩
  rw [h.2, Finset.card_empty]
  exact Finset.card_pos.mpr ⟨r, Finset.mem_filter.mpr ⟨hr, hz⟩⟩

theorem Fs.Short.mono {e : FsHalt} {P Q : Finset Ref} (h : s.Short din P e) (hPQ : P ⊆ Q) :
    s.Short din Q e :=
  ⟨h.1, Nat.lt_of_lt_of_le h.2 (Finset.card_le_card (Finset.filter_subset_filter _ hPQ))⟩

theorem Grew.short {P Q : Finset Ref} {W : Nat → Option Byte} {e : FsHalt}
    (h : Grew ip i P W s din s' din') (hs : s'.Short din' Q e) : s.Short din (P ∪ Q) e := by
  have hcard := h.card_missing (Q := Q)
  have hfree := h.free
  have hless := hs.2
  exact ⟨hs.1, by omega⟩

theorem Grew.inodeDin {P : Finset Ref} {W : Nat → Option Byte} (h : Grew ip i P W s din s' din') :
    (s'.inode ip).din = din' i := by
  rw [h.family, Function.update_self]

theorem bmapSlot_wp {k : Fin (NDIRECT + 1)} (h : Blocks s.sb s.disk din)
    (hdin : (s.inode ip).din = din i) :
    (bmapSlot ip k).wp (fun a s' => ∃ din', a = addrOf s'.disk din' (slotRef i k) ∧
      Grew ip i {slotRef i k} noBytes s din s' din') (fun e _ => s.Short din {slotRef i k} e) s := by
  have haddr : addrOf s.disk din (slotRef i k) = ((s.inode ip).din.addrs k).toNat := by
    rw [addrOf_slotRef, hdin]
  refine wp_bind.mpr (wp_get.mpr (wp_ite (fun hz => ?_) fun hz => ?_))
  · rw [← haddr] at hz
    refine wp_bind.mpr (wp_mono (balloc_wp h) ?_ fun e _ he =>
      he.short (Finset.mem_singleton_self _) hz)
    rintro b t ⟨hb, rfl⟩
    have hbs := mem_freeBlocks.mp hb
    have hsize := h.ok.size
    have hpos : b ≠ 0 := h.free_ne hb
    have hset : ∀ r, addrOf (s.take b).disk (Function.update din i ((din i).setAddr k b)) r =
        if r = slotRef i k then b else addrOf s.disk din r := by
      intro r
      rw [addrOf_setAddr ((addrOf_take h hb _).trans hz) (by omega) hpos (Function.update_self ..),
        addrOf_take h hb]
    have hinode : (s.take b).inode = s.inode := rfl
    refine wp_bind.mpr (wp_get.mpr (wp_bind.mpr ((wp_ok (setDin_run _)).mpr
      ⟨Function.update din i ((din i).setAddr k b), ?_, ?_⟩)))
    · exact (hset (slotRef i k)).symm ▸ (if_pos rfl).symm
    · rw [hinode, hdin]
      refine Grew.take h hb hz rfl (fun jp hjp => Function.update_of_ne hjp _ _)
        ⟨((din i).setAddr k b).addrs, ?_⟩ ?_ hset (fun _ _ => rfl)
        fun j bn hr => ?_
      · dsimp only
        rw [Function.update_self, hdin]
        rfl
      · dsimp only
        rw [Function.update_self]
      · obtain ⟨hlow, _, hmark⟩ := h.owned _ hr
        exact take_disk_of_marked hb hlow hmark
  · rw [← haddr] at hz
    exact ⟨din, haddr.symm, .refl h hdin fun r hr => by rw [Finset.mem_singleton.mp hr]; exact hz⟩

/-- The places that bmap needs to find a block of the file. -/
def placesOf (i bn : Nat) : Finset Ref :=
  if bn < NDIRECT then {.data i bn} else {.ind i} ∪ {.data i bn}

theorem mem_placesOf {bn : Nat} : Ref.data i bn ∈ placesOf i bn := by
  unfold placesOf
  split <;> simp

theorem addrOf_entry {bn : Nat} (h : Blocks s.sb s.disk din) (hb : b ∈ freeBlocks s.sb s.disk)
    (hlo : NDIRECT ≤ bn) (hhi : bn < MAXFILE) (hind : addrOf s.disk din (.ind i) ≠ 0) (r : Ref) :
    addrOf (withEntry (s.take b).disk (addrOf s.disk din (.ind i)) (bn - NDIRECT) b) din r =
      if r = .data i bn then b else addrOf s.disk din r := by
  have hbs := mem_freeBlocks.mp hb
  have hsize := h.ok.size
  have hindt : addrOf (s.take b).disk din (.ind i) = addrOf s.disk din (.ind i) :=
    addrOf_take h hb _
  rw [← hindt, addrOf_withEntry hlo hhi (hindt ▸ hind) (by omega), addrOf_take h hb]
  intro j hj
  rw [addrOf_take h hb, addrOf_take h hb] at hj
  have hr := h.distinct _ _ hind hj.symm
  exact (Ref.ind.inj hr).symm

theorem Grew.entry {bn : Nat} (h : Blocks s.sb s.disk din) (hb : b ∈ freeBlocks s.sb s.disk)
    (hdin : (s.inode ip).din = din i) (hlo : NDIRECT ≤ bn) (hhi : bn < MAXFILE)
    (hind : addrOf s.disk din (.ind i) ≠ 0) (hz : addrOf s.disk din (.data i bn) = 0) :
    Grew ip i {.data i bn} noBytes s din
      { s.take b with disk := withEntry (s.take b).disk (addrOf s.disk din (.ind i)) (bn - NDIRECT) b } din := by
  obtain ⟨hlow, hlt, hmark⟩ := h.owned _ hind
  refine Grew.take h hb hz rfl (fun _ _ => rfl) ⟨_, rfl⟩ ?_ (addrOf_entry h hb hlo hhi hind)
    (fun x hx => ?_)
    fun j k hr => ?_
  · rw [← Function.update_eq_self i din]
    simp only [Function.update_idem]
    rw [← hdin]
    rfl
  · have hne : x ≠ addrOf s.disk din (.ind i) := by omega
    exact Function.update_of_ne hne _ _
  · have hne : addrOf s.disk din (.data j k) ≠ addrOf s.disk din (.ind i) := by
      intro he
      cases h.distinct _ _ hr he
    obtain ⟨hlow', _, hmark'⟩ := h.owned _ hr
    have hkeep := take_disk_of_marked hb hlow' hmark'
    simp only [withEntry, Function.update_of_ne hne]
    exact hkeep

/-- The block of a file is found, or the blocks that are missing are allocated. -/
theorem bmap_wp {bn : Nat} (h : Blocks s.sb s.disk din) (hdin : (s.inode ip).din = din i)
    (hbn : bn < MAXFILE) :
    (bmap ip bn).wp (fun a s' => ∃ din', a = addrOf s'.disk din' (.data i bn) ∧
      Grew ip i (placesOf i bn) noBytes s din s' din') (fun e _ => s.Short din (placesOf i bn) e) s := by
  by_cases hdirect : bn < NDIRECT
  · have hslot : slotRef i ⟨bn, Nat.lt_succ_of_lt hdirect⟩ =
      .data i bn := by simp [slotRef, hdirect]
    have hplaces : placesOf i bn = {slotRef i ⟨bn, Nat.lt_succ_of_lt hdirect⟩} := by
      rw [hslot, placesOf, if_pos hdirect]
    unfold bmap
    rw [dif_pos hdirect, hplaces, ← hslot]
    exact bmapSlot_wp h hdin
  · have hslot : slotRef i (Fin.last NDIRECT) = .ind i := by simp [slotRef]
    have hlt : bn - NDIRECT < NINDIRECT := by
      simp only [MAXFILE, NDIRECT, NINDIRECT, BSIZE] at *
      omega
    have hfirst := bmapSlot_wp (k := Fin.last NDIRECT) h hdin
    rw [hslot] at hfirst
    unfold bmap
    rw [dif_neg hdirect, if_pos hlt, placesOf, if_neg hdirect]
    refine wp_bind.mpr (wp_mono hfirst ?_ fun e _ he => he.mono Finset.subset_union_left)
    rintro _ s₁ ⟨din₁, rfl, h₁⟩
    have hind : addrOf s₁.disk din₁ (.ind i) ≠ 0 := h₁.filled _ (Finset.mem_singleton_self _)
    obtain ⟨hlow, hbound, hmark⟩ := h₁.blocks.owned _ hind
    have hsize := h₁.blocks.ok.size
    have hentry : (u32 (s₁.disk (addrOf s₁.disk din₁ (.ind i))) (4 * (bn - NDIRECT))).toNat =
        addrOf s₁.disk din₁ (.data i bn) := by
      simp only [addrOf] at hind ⊢
      rw [dif_neg hdirect, if_neg hind]
    refine wp_bind.mpr (readBlock_wp (by omega) ?_)
    dsimp only
    rw [hentry]
    refine wp_ite (fun hz => ?_) fun hz => ?_
    · refine wp_bind.mpr (wp_mono (balloc_wp h₁.blocks) ?_ fun e _ he =>
        h₁.short (he.short (Finset.mem_singleton_self _) hz))
      rintro b _ ⟨hb, rfl⟩
      have hkeep : (s₁.take b).disk (addrOf s₁.disk din₁ (.ind i)) = s₁.disk (addrOf s₁.disk din₁ (.ind i)) :=
        take_disk_of_marked hb hlow hmark
      have hgrew := h₁.trans (Grew.entry h₁.blocks hb h₁.inodeDin (Nat.not_lt.mp hdirect) hbn hind hz)
      rw [overlay_noBytes, withEntry, hkeep] at hgrew
      have haddr := addrOf_entry h₁.blocks hb (Nat.not_lt.mp hdirect) hbn hind (.data i bn)
      rw [if_pos rfl, withEntry, hkeep] at haddr
      exact wp_bind.mpr (wp_modify.mpr ⟨_, haddr.symm, hgrew⟩)
    · have hgrew := h₁.trans (Grew.refl (P := {.data i bn}) h₁.blocks h₁.inodeDin fun r hr => by
        rw [Finset.mem_singleton.mp hr]
        exact hz)
      rw [overlay_noBytes] at hgrew
      exact ⟨din₁, rfl, hgrew⟩

end Xv6
