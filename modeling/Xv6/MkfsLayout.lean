import Xv6.DiskCodec
import Xv6.Mkfs

namespace Xv6

open Bytes

/-- A place of an inode that names a block: block bn of the file, or the indirect block. -/
inductive Ref where
  | data (i bn : Nat)
  | ind (i : Nat)
deriving DecidableEq, Repr

/-- The block that a place names, 0 if none. -/
def addrOf (img : Nat → DiskBlock) (din : Nat → Dinode) : Ref → Nat
  | .ind i => ((din i).addrs (Fin.last NDIRECT)).toNat
  | .data i bn =>
    if h : bn < NDIRECT then ((din i).addrs ⟨bn, Nat.lt_succ_of_lt h⟩).toNat
    else if ((din i).addrs (Fin.last NDIRECT)).toNat = 0 then 0
    else (u32 (img ((din i).addrs (Fin.last NDIRECT)).toNat) (4 * (bn - NDIRECT))).toNat

/-- The place of a slot of an inode. -/
def slotRef (i : Nat) (k : Fin (NDIRECT + 1)) : Ref :=
  if k.val < NDIRECT then .data i k.val else .ind i

theorem addr_toNat {b : Nat} (h : b ≤ FSSIZE) : (BitVec.ofNat 32 b).toNat = b := by
  rw [BitVec.toNat_ofNat]
  exact Nat.mod_eq_of_lt (by simp only [FSSIZE] at h; omega)

theorem slotRef_inj {i : Nat} {k k' : Fin (NDIRECT + 1)} (h : slotRef i k = slotRef i k') :
    k = k' := by
  have hk := k.isLt
  have hk' := k'.isLt
  unfold slotRef at h
  apply Fin.ext
  split at h <;> split at h <;> simp at h <;> omega

section Places

variable {img img' : Nat → DiskBlock} {din : Nat → Dinode}

theorem addrOf_slotRef (i : Nat) (k : Fin (NDIRECT + 1)) :
    addrOf img din (slotRef i k) = ((din i).addrs k).toNat := by
  unfold slotRef
  split
  next hk => simp [addrOf, hk]
  next hk =>
    have : k = Fin.last NDIRECT := Fin.ext (by have := k.isLt; simp only [Fin.val_last]; omega)
    simp [addrOf, this]

theorem addrOf_setAddr {i b : Nat} {k : Fin (NDIRECT + 1)} (hr : addrOf img din (slotRef i k) = 0)
    (hb : b ≤ FSSIZE) (hpos : b ≠ 0) (hzero : img b = zero) (r : Ref) :
    addrOf img (Function.update din i ((din i).setAddr k b)) r = if r = slotRef i k then b
      else addrOf img din r := by
  have hfb := addr_toNat hb
  have hslot : ∀ k', (((din i).setAddr k b).addrs k').toNat =
      if slotRef i k' = slotRef i k then b else ((din i).addrs k').toNat := by
    intro k'
    by_cases hk : k' = k
    · rw [hk, if_pos rfl]
      simp only [Dinode.setAddr, Function.update_self]
      exact hfb
    · rw [if_neg (fun he => hk (slotRef_inj he))]
      simp only [Dinode.setAddr, Function.update_of_ne hk]
  cases r with
  | ind j =>
    by_cases hj : j = i
    · subst hj
      have hl := hslot (Fin.last NDIRECT)
      have href : slotRef j (Fin.last NDIRECT) = .ind j := by simp [slotRef]
      rw [href] at hl
      simpa [addrOf] using hl
    · have hne : Ref.ind j ≠ slotRef i k := by
        unfold slotRef
        split <;> simp [hj]
      rw [if_neg hne]
      simp [addrOf, hj]
  | data j bn =>
    by_cases hj : j = i
    · subst hj
      by_cases hbn : bn < NDIRECT
      · have hl := hslot ⟨bn, by omega⟩
        have href : slotRef j ⟨bn, by omega⟩ = .data j bn := by simp [slotRef, hbn]
        rw [href] at hl
        simpa [addrOf, hbn] using hl
      · have hne : Ref.data j bn ≠ slotRef j k := by
          unfold slotRef
          split
          next hk =>
            simp only [ne_eq, Ref.data.injEq, not_and]
            omega
          next => simp
        have hl := hslot (Fin.last NDIRECT)
        rw [if_neg hne]
        simp only [addrOf, dif_neg hbn, Function.update_self, hl]
        by_cases hlast : slotRef j (Fin.last NDIRECT) = slotRef j k
        · rw [← hlast, addrOf_slotRef] at hr
          rw [if_pos hlast, if_pos hr, if_neg hpos, hzero, u32_zero]
          rfl
        · rw [if_neg hlast]
    · have hne : Ref.data j bn ≠ slotRef i k := by
        unfold slotRef
        split <;> simp [hj]
      rw [if_neg hne]
      simp [addrOf, hj]

/-- The indirect block with one more address. -/
def withEntry (img : Nat → DiskBlock) (ind e b : Nat) : Nat → DiskBlock :=
  Function.update img ind (setU32 (img ind) (4 * e) (BitVec.ofNat 32 b))

theorem addrOf_withEntry {i bn b : Nat} (hlo : NDIRECT ≤ bn) (hhi : bn < MAXFILE)
    (hpos : addrOf img din (.ind i) ≠ 0) (hb : b ≤ FSSIZE)
    (hdiff : ∀ j, addrOf img din (.ind j) = addrOf img din (.ind i) → j = i) (r : Ref) :
    addrOf (withEntry img (addrOf img din (.ind i)) (bn - NDIRECT) b) din r =
      if r = .data i bn then b else addrOf img din r := by
  have hfb := addr_toNat hb
  cases r with
  | ind j => simp [addrOf]
  | data j bn' =>
    by_cases hbn : bn' < NDIRECT
    · have hne : Ref.data j bn' ≠ .data i bn := by
        simp only [ne_eq, Ref.data.injEq, not_and]
        omega
      rw [if_neg hne]
      simp [addrOf, hbn]
    · simp only [addrOf, dif_neg hbn]
      by_cases hj : j = i
      · subst hj
        have hz : ¬ ((din j).addrs (Fin.last NDIRECT)).toNat = 0 := hpos
        rw [if_neg hz, if_neg hz]
        simp only [withEntry, Function.update_self]
        by_cases he : bn' = bn
        · subst he
          have hin : 4 * (bn' - NDIRECT) + 4 ≤ BSIZE := by
            simp only [MAXFILE, NDIRECT, NINDIRECT, BSIZE] at *
            omega
          rw [if_pos rfl, u32_setU32_same _ hin]
          exact hfb
        · rw [if_neg (by simpa using he)]
          unfold setU32
          rw [u32_put_outside]
          simp only [bytes32_length]
          omega
      · have hne : Ref.data j bn' ≠ .data i bn := by simp [hj]
        rw [if_neg hne]
        by_cases hz : ((din j).addrs (Fin.last NDIRECT)).toNat = 0
        · rw [if_pos hz, if_pos hz]
        · have hne : ((din j).addrs (Fin.last NDIRECT)).toNat ≠ ((din i).addrs (Fin.last NDIRECT)).toNat :=
            fun he => hj (hdiff j he)
          rw [if_neg hz, if_neg hz]
          simp only [withEntry, Function.update_of_ne hne]

theorem addrOf_congr (hsame : ∀ j, addrOf img din (.ind j) ≠ 0 →
    img' (addrOf img din (.ind j)) = img (addrOf img din (.ind j))) (r :
    Ref) : addrOf img' din r = addrOf img din r := by
  cases r with
  | ind j => rfl
  | data j bn =>
    by_cases hbn : bn < NDIRECT
    · simp [addrOf, hbn]
    · simp only [addrOf, dif_neg hbn]
      by_cases hz : ((din j).addrs (Fin.last NDIRECT)).toNat = 0
      · rw [if_pos hz, if_pos hz]
      · have hj := hsame j hz
        simp only [addrOf] at hj
        rw [if_neg hz, if_neg hz, hj]

end Places

/-- The blocks from nmeta on have gone one after the other to the places in alloc, a data block
holds the bytes of its file, and the blocks after them are zero. -/
structure Layout (img : Nat → DiskBlock) (din : Nat → Dinode) (alloc : List Ref)
    (content : Nat → List Byte) :
    Prop where
  nodup : alloc.Nodup
  addr : ∀ k r, alloc[k]? = some r → addrOf img din r = nmeta + k
  none : ∀ r, r ∉ alloc → addrOf img din r = 0
  bytes : ∀ i bn, Ref.data i bn ∈ alloc → ∀ j, j < BSIZE →
    byte (img (addrOf img din (.data i bn))) j = (content i).getD (bn * BSIZE + j) 0
  free : ∀ b, nmeta + alloc.length ≤ b → img b = zero
  room : nmeta + alloc.length ≤ FSSIZE

section Layout

variable {img img' : Nat → DiskBlock} {din din' : Nat → Dinode} {alloc : List Ref}
  {content : Nat → List Byte}

theorem Layout.addr_bounds (h : Layout img din alloc content) {r : Ref} (hr : r ∈ alloc) :
    nmeta ≤ addrOf img din r ∧ addrOf img din r < nmeta + alloc.length := by
  obtain ⟨k, hk⟩ := List.mem_iff_getElem?.mp hr
  have hlt := (List.getElem?_eq_some_iff.mp hk).1
  rw [h.addr k r hk]
  omega

theorem Layout.addr_inj (h : Layout img din alloc content) {r r' : Ref} (hr : r ∈ alloc)
    (hr' : r' ∈ alloc) (he : addrOf img din r = addrOf img din r') : r = r' := by
  obtain ⟨k, hk⟩ := List.mem_iff_getElem?.mp hr
  obtain ⟨k', hk'⟩ := List.mem_iff_getElem?.mp hr'
  rw [h.addr k r hk, h.addr k' r' hk'] at he
  have : k = k' := by omega
  subst this
  exact Option.some.inj (hk.symm.trans hk')

theorem Layout.mem_iff (h : Layout img din alloc content) {r : Ref} :
    r ∈ alloc ↔ addrOf img din r ≠ 0 := by
  constructor
  · intro hr
    have := (h.addr_bounds hr).1
    simp only [nmeta] at this
    omega
  · intro hr
    by_contra hn
    exact hr (h.none r hn)

/-- One more place gets the next block, and what the data blocks and the free blocks hold stays. -/
theorem Layout.extend (h : Layout img din alloc content) {r : Ref} (hr : r ∉ alloc)
    (hroom : nmeta + alloc.length < FSSIZE)
    (haddr : ∀ r', addrOf img' din' r' = if r' = r then nmeta + alloc.length else addrOf img din r')
    (hdata : ∀ i bn, Ref.data i bn ∈ alloc →
      img' (addrOf img din (.data i bn)) = img (addrOf img din (.data i bn)))
    (hfree : ∀ b, nmeta + alloc.length ≤ b → img' b = img b)
    (hnew : ∀ i bn, r = .data i bn → (content i).length ≤ bn * BSIZE) :
    Layout img' din' (alloc ++ [r]) content where
  nodup := List.nodup_append.mpr ⟨h.nodup, by simp, by
    rintro a ha b hb rfl
    exact hr (List.mem_singleton.mp hb ▸ ha)⟩
  addr := by
    intro k r' hk
    rw [haddr]
    by_cases hlt : k < alloc.length
    · rw [List.getElem?_append_left hlt] at hk
      have hne : r' ≠ r := by
        rintro rfl
        exact hr (List.mem_of_getElem? hk)
      rw [if_neg hne]
      exact h.addr k r' hk
    · rw [List.getElem?_append_right (by omega)] at hk
      have hk0 : k - alloc.length = 0 := by
        have := (List.getElem?_eq_some_iff.mp hk).1
        simp only [List.length_cons, List.length_nil] at this
        omega
      rw [hk0] at hk
      rw [if_pos (Option.some.inj hk).symm]
      omega
  none := by
    intro r' hr'
    rw [haddr, if_neg (fun he => hr' (by simp [he]))]
    exact h.none r' (fun hm => hr' (by simp [hm]))
  bytes := by
    intro i bn hm j hj
    rw [haddr]
    by_cases he : Ref.data i bn = r
    · have hz : img' (nmeta + alloc.length) = zero :=
        (hfree _ le_rfl).trans (h.free _ le_rfl)
      have hlen : (content i).length ≤ bn * BSIZE + j := Nat.le_add_right_of_le (hnew i bn he.symm)
      rw [if_pos he, hz, byte_zero, List.getD_eq_getElem?_getD, List.getElem?_eq_none hlen]
      rfl
    · have hm : Ref.data i bn ∈ alloc := by
        rcases List.mem_append.mp hm with hm | hm
        · exact hm
        · exact absurd (List.mem_singleton.mp hm) he
      rw [if_neg he, hdata i bn hm]
      exact h.bytes i bn hm j hj
  free := by
    intro b hb
    simp only [List.length_append, List.length_cons, List.length_nil] at hb
    rw [hfree b (by omega)]
    exact h.free b (by omega)
  room := by
    simp only [List.length_append, List.length_cons, List.length_nil]
    omega

theorem Layout.setAddr (h : Layout img din alloc content) {i : Nat} {k : Fin (NDIRECT + 1)}
    (hr : slotRef i k ∉ alloc) (hroom : nmeta + alloc.length < FSSIZE)
    (hnew : k.val < NDIRECT → (content i).length ≤ k.val * BSIZE) :
    Layout img (Function.update din i ((din i).setAddr k (nmeta + alloc.length)))
      (alloc ++ [slotRef i k]) content := by
  have hpos : nmeta + alloc.length ≠ 0 := by simp only [nmeta]; omega
  refine h.extend hr hroom (addrOf_setAddr (h.none _ hr) h.room hpos (h.free _ (Nat.le_refl _)))
    (fun _ _ _ => rfl)
    (fun _ _ => rfl) ?_
  intro j bn he
  unfold slotRef at he
  split at he
  next hk =>
    obtain ⟨rfl, rfl⟩ := Ref.data.inj he
    exact hnew hk
  next => simp at he

theorem Layout.withEntry (h : Layout img din alloc content) {i bn : Nat} (hlo : NDIRECT ≤ bn)
    (hhi : bn < MAXFILE) (hind : Ref.ind i ∈ alloc) (hr : Ref.data i bn ∉ alloc)
    (hroom : nmeta + alloc.length < FSSIZE) (hnew : (content i).length ≤ bn * BSIZE) :
    Layout (withEntry img (addrOf img din (.ind i)) (bn - NDIRECT) (nmeta + alloc.length)) din
      (alloc ++ [.data i bn])
      content := by
  have hpos := h.mem_iff.mp hind
  have hdiff : ∀ j, addrOf img din (.ind j) = addrOf img din (.ind i) → j = i := fun j he =>
    Ref.ind.inj (h.addr_inj (h.mem_iff.mpr (he ▸ hpos)) hind he)
  refine h.extend hr hroom (addrOf_withEntry hlo hhi hpos h.room hdiff) ?_ ?_ ?_
  · intro j bn' hm
    apply Function.update_of_ne
    intro he
    have := h.addr_inj hm hind he
    contradiction
  · intro b hb
    apply Function.update_of_ne
    have := (h.addr_bounds hind).2
    omega
  · intro j bn' he
    obtain ⟨rfl, rfl⟩ := Ref.data.inj he
    exact hnew

/-- The image with a piece written into a block. -/
def withPiece (img : Nat → DiskBlock) (b o : Nat) (piece : List Byte) : Nat → DiskBlock :=
  Function.update img b (put (img b) o piece)

theorem Layout.addrOf_congr (h : Layout img din alloc content)
    (hsame : ∀ j, Ref.ind j ∈ alloc →
      img' (addrOf img din (.ind j)) = img (addrOf img din (.ind j))) (r : Ref) :
    addrOf img' din r = addrOf img din r :=
  Xv6.addrOf_congr (fun j hj => hsame j (h.mem_iff.mpr hj)) r

theorem addrOf_withPiece (h : Layout img din alloc content) {i bn o : Nat} {piece : List Byte}
    (hm : Ref.data i bn ∈ alloc) (r : Ref) :
    addrOf (withPiece img (addrOf img din (.data i bn)) o piece) din r = addrOf img din r := by
  apply h.addrOf_congr
  intro j hj
  apply Function.update_of_ne
  intro he
  have := h.addr_inj hj hm he
  contradiction

/-- The file grows by a piece that goes into its last block. -/
theorem Layout.withPiece (h : Layout img din alloc content) {i bn o : Nat} {piece : List Byte}
    (hm : Ref.data i bn ∈ alloc) (ho : bn * BSIZE + o = (content i).length)
    (hfit : o + piece.length ≤ BSIZE) :
    Layout (withPiece img (addrOf img din (.data i bn)) o piece) din alloc
      (Function.update content i (content i ++ piece)) where
  nodup := h.nodup
  addr := by
    intro k r hk
    rw [addrOf_withPiece h hm]
    exact h.addr k r hk
  none := by
    intro r hr
    rw [addrOf_withPiece h hm]
    exact h.none r hr
  bytes := by
    intro i' bn' hm' j hj
    rw [addrOf_withPiece h hm]
    have hold := h.bytes i' bn' hm' j hj
    by_cases hsame : Ref.data i' bn' = Ref.data i bn
    · obtain ⟨rfl, rfl⟩ := Ref.data.inj hsame
      rw [Xv6.withPiece, Function.update_self, Function.update_self]
      by_cases hin : o ≤ j ∧ j < o + piece.length
      · rw [byte_put_inside _ hin.1 hin.2 hj 0, List.getD_eq_getElem?_getD, List.getD_eq_getElem?_getD,
          List.getElem?_append_right (by omega)]
        congr 2
        omega
      · rw [byte_put_outside _ (by omega), hold, List.getD_eq_getElem?_getD, List.getD_eq_getElem?_getD]
        by_cases hlt : j < o
        · rw [List.getElem?_append_left (by omega)]
        · rw [List.getElem?_eq_none (by omega), List.getElem?_eq_none (by simp only [List.length_append]; omega)]
    · have hdiff : addrOf img din (.data i' bn') ≠ addrOf img din (.data i bn) := fun he =>
        hsame (h.addr_inj hm' hm he)
      rw [Xv6.withPiece, Function.update_of_ne hdiff, hold]
      by_cases hi : i' = i
      · subst hi
        have hbn : bn' ≠ bn := fun he => hsame (by rw [he])
        rw [Function.update_self, List.getD_eq_getElem?_getD, List.getD_eq_getElem?_getD]
        by_cases hlt : bn' * BSIZE + j < (content i').length
        · rw [List.getElem?_append_left hlt]
        · have hout : (content i').length + piece.length ≤ bn' * BSIZE + j := by
            simp only [BSIZE] at *
            omega
          rw [List.getElem?_eq_none (by omega), List.getElem?_eq_none (by simp only [List.length_append]; omega)]
      · rw [Function.update_of_ne hi]
  free := by
    intro b hb
    have hlt := (h.addr_bounds hm).2
    rw [Xv6.withPiece, Function.update_of_ne (by omega)]
    exact h.free b hb
  room := h.room

end Layout

end Xv6
