import Xv6.Fs
import Xv6.MkfsLayout

namespace Xv6

open Bytes Prog

variable {din : Nat → Dinode} {s : Fs} {ip : InodeSlot} {i : Nat} {c : List Byte}

theorem readBlock_ok {b : Nat} (h : b < FSSIZE) : (readBlock b).Returns s (s.disk b) s := by
  have hb : ¬ FSSIZE ≤ b := Nat.not_le.mpr h
  refine returns_get.bind ?_
  rw [if_neg hb]
  exact returns_pure

theorem bmapSlot_ok {k : Fin (NDIRECT + 1)} (h : ((s.inode ip).din.addrs k).toNat ≠ 0) :
    (bmapSlot ip k).Returns s ((s.inode ip).din.addrs k).toNat s := by
  refine returns_get.bind ?_
  dsimp only
  rw [if_neg h]
  exact returns_pure

theorem addrOf_ind_ne {disk : Nat → DiskBlock} {bn : Nat} (hbn : ¬ bn < NDIRECT)
    (h : addrOf disk din (.data i bn) ≠ 0) :
    addrOf disk din (.ind i) ≠ 0 ∧
      addrOf disk din (.data i bn) = (u32 (disk (addrOf disk din (.ind i))) (4 * (bn - NDIRECT))).toNat := by
  simp only [addrOf] at h ⊢
  rw [dif_neg hbn] at h ⊢
  by_cases hz : ((din i).addrs (Fin.last NDIRECT)).toNat = 0
  · rw [if_pos hz] at h
    exact absurd rfl h
  · rw [if_neg hz]
    exact ⟨hz, rfl⟩

theorem bmap_ok (hdin : (s.inode ip).din.addrs = (din i).addrs) {bn : Nat}
    (hpos : addrOf s.disk din (.data i bn) ≠ 0) (hind : addrOf s.disk din (.ind i) < FSSIZE)
    (hmax : bn < MAXFILE) :
    (bmap ip bn).Returns s (addrOf s.disk din (.data i bn)) s := by
  unfold bmap
  by_cases hbn : bn < NDIRECT
  · rw [dif_pos hbn]
    have haddr : addrOf s.disk din (.data i bn) =
      ((s.inode ip).din.addrs ⟨bn, by omega⟩).toNat := by
      simp [addrOf, hbn, hdin]
    rw [haddr] at hpos ⊢
    exact bmapSlot_ok hpos
  · obtain ⟨hipos, hentry⟩ := addrOf_ind_ne hbn hpos
    have haddr : addrOf s.disk din (.ind i) =
      ((s.inode ip).din.addrs (Fin.last NDIRECT)).toNat := by
      simp [addrOf, hdin]
    have hlt : bn - NDIRECT < NINDIRECT := by
      simp only [MAXFILE, NDIRECT, NINDIRECT, BSIZE] at *
      omega
    rw [dif_neg hbn, if_pos hlt]
    refine (bmapSlot_ok (haddr ▸ hipos)).bind ?_
    rw [← haddr]
    refine (readBlock_ok hind).bind ?_
    dsimp only
    rw [if_neg (hentry ▸ hpos), ← hentry]
    exact returns_pure

/-- Bytes of a file, zeros after its end. -/
def slice (c : List Byte) (off n : Nat) : List Byte :=
  (List.range n).map fun j => c.getD (off + j) 0

theorem slice_append (c : List Byte) (off m n : Nat) :
    slice c off m ++ slice c (off + m) n = slice c off (m + n) := by
  unfold slice
  rw [List.range_add, List.map_append, List.map_map]
  congr 1
  apply List.map_congr_left
  intro j _
  simp [Nat.add_assoc]

theorem slice_all (c : List Byte) : slice c 0 c.length = c := by
  apply List.ext_getElem
  · simp [slice]
  · intro j h1 h2
    simp [slice, h2]

theorem slice_eq_take {off n : Nat} (h : off + n ≤ c.length) :
    slice c off n = (c.drop off).take n := by
  apply List.ext_getElem
  · simp only [slice, List.length_map, List.length_range, List.length_take, List.length_drop]
    omega
  · intro j h1 h2
    have hj : off + j < c.length := by
      simp only [slice, List.length_map, List.length_range] at h1
      omega
    simp [slice, hj]

@[simp] theorem slice_length (c : List Byte) (off n : Nat) : (slice c off n).length = n := by
  simp [slice]

/-- The byte at k of the file i stands in the block that its place names. -/
structure ByteAt (disk : Nat → DiskBlock) (din : Nat → Dinode) (i : Nat) (c : List Byte) (k : Nat) :
    Prop where
  block : addrOf disk din (.data i (k / BSIZE)) ≠ 0
  bound : addrOf disk din (.data i (k / BSIZE)) < FSSIZE
  value : byte (disk (addrOf disk din (.data i (k / BSIZE)))) (k % BSIZE) = c.getD k 0

theorem chunk_bounds (off : Nat) {n : Nat} (hn : n ≠ 0) :
    0 < min n (BSIZE - off % BSIZE) ∧ min n (BSIZE - off % BSIZE) ≤ n ∧
      off % BSIZE + min n (BSIZE - off % BSIZE) ≤ BSIZE := by
  have hmod : off % BSIZE < BSIZE := Nat.mod_lt _ (by decide)
  omega

theorem readChunks_ok (hdin : (s.inode ip).din.addrs = (din i).addrs)
    (hind : addrOf s.disk din (.ind i) < FSSIZE) (fuel off n : Nat) (hfuel : n ≤ fuel)
    (hbyte : ∀ k, off ≤ k → k < off + n → ByteAt s.disk din i c k)
    (hmax : off + n ≤ MAXFILE * BSIZE) :
    (readChunks ip (chunks fuel off n)).Returns s (slice c off n) s := by
  induction fuel generalizing off n with
  | zero =>
    have hn : n = 0 := by omega
    subst hn
    rfl
  | succ fuel ih =>
    unfold chunks
    by_cases hn : n = 0
    · subst hn
      rfl
    · rw [if_neg hn]
      obtain ⟨hm0, hmn, hmb⟩ := chunk_bounds off hn
      generalize min n (BSIZE - off % BSIZE) = m at *
      have hfirst := hbyte off (Nat.le_refl _) (by omega)
      have hbn : off / BSIZE < MAXFILE := by
        simp only [MAXFILE, NDIRECT, NINDIRECT, BSIZE] at *
        omega
      have hrest := ih (off + m) (n - m) (by omega) (fun k lo hi => hbyte k (by omega) (by omega)) (by omega)
      have hpiece : Bytes.get (s.disk (addrOf s.disk din (.data i (off / BSIZE)))) (off % BSIZE) m =
        slice c off m := by
        unfold Bytes.get slice
        apply List.map_congr_left
        intro j hj
        have hj : j < m := List.mem_range.mp hj
        have hplace : (off + j) / BSIZE = off / BSIZE ∧ (off + j) % BSIZE = off % BSIZE + j := by
          simp only [BSIZE] at *
          omega
        have hval := (hbyte (off + j) (by omega) (by omega)).value
        rwa [hplace.1, hplace.2] at hval
      have hsum : m + (n - m) = n := by omega
      have happ := slice_append c off m (n - m)
      rw [hsum] at happ
      refine (bmap_ok hdin hfirst.block hind hbn).bind ((readBlock_ok hfirst.bound).bind (hrest.bind ?_))
      rw [hpiece, happ]
      exact returns_pure

theorem readi_ok (hdin : (s.inode ip).din.addrs = (din i).addrs)
    (hind : addrOf s.disk din (.ind i) < FSSIZE) (htype : (s.inode ip).din.type ≠ tDev)
    (off n : Nat) (hoff : off ≤ (s.inode ip).din.size.toNat) (hover : off ≤ (off + n) % 2 ^ 32)
    (hbyte : ∀ k, off ≤ k → k < off + n → k < (s.inode ip).din.size.toNat → ByteAt s.disk din i c k)
    (hmax : (s.inode ip).din.size.toNat ≤ MAXFILE * BSIZE) :
    (readi ip off n).Returns s
      (some (slice c off (min n ((s.inode ip).din.size.toNat - off)))) s := by
  have hn : (if (s.inode ip).din.size.toNat < off + n then (s.inode ip).din.size.toNat - off
      else n) =
      min n ((s.inode ip).din.size.toNat - off) := by
    split <;> omega
  have hread := readChunks_ok (c := c) hdin hind (min n ((s.inode ip).din.size.toNat - off)) off
    (min n ((s.inode ip).din.size.toNat - off)) (Nat.le_refl _)
    (fun k lo hi => hbyte k lo (by omega) (by omega)) (by omega)
  refine returns_get.bind ?_
  dsimp only
  rw [if_neg htype, if_neg (by omega), hn]
  exact hread.map

/-- The file of an inode: what its blocks hold up to the size. -/
def fileBytes (disk : Nat → DiskBlock) (din : Nat → Dinode) (i : Nat) : List Byte :=
  (List.range (din i).size.toNat).map fun k =>
    byte (disk (addrOf disk din (.data i (k / BSIZE)))) (k % BSIZE)

/-- The file has all its blocks. -/
structure FileOk (disk : Nat → DiskBlock) (din : Nat → Dinode) (i : Nat) : Prop where
  size : (din i).size.toNat ≤ MAXFILE * BSIZE
  ind : addrOf disk din (.ind i) < FSSIZE
  data : ∀ bn, bn * BSIZE < (din i).size.toNat →
    addrOf disk din (.data i bn) ≠ 0 ∧ addrOf disk din (.data i bn) < FSSIZE

@[simp] theorem fileBytes_length (disk : Nat → DiskBlock) (din : Nat → Dinode) (i : Nat) :
    (fileBytes disk din i).length = (din i).size.toNat := by
  simp [fileBytes]

theorem FileOk.byteAt {disk : Nat → DiskBlock} (h : FileOk disk din i) {k : Nat}
    (hk : k < (din i).size.toNat) :
    ByteAt disk din i (fileBytes disk din i) k := by
  obtain ⟨hpos, hbound⟩ := h.data (k / BSIZE) (by
    have := Nat.div_mul_le_self k BSIZE
    omega)
  refine ⟨hpos, hbound, ?_⟩
  simp [fileBytes, hk]

/-- readi of a file that has all its blocks: it changes nothing and delivers the bytes from off on,
at most n and none beyond the size; it fails just for an offset beyond the size or a sum that
overflows. -/
theorem readi_file (h : FileOk s.disk din i) (hdin : (s.inode ip).din = din i)
    (htype : (din i).type ≠ tDev) (off n : Nat) : (readi ip off n).Returns s
      (if (din i).size.toNat < off ∨ (off + n) % 2 ^ 32 < off then none
        else some (((fileBytes s.disk din i).drop off).take n)) s := by
  by_cases hbad : (din i).size.toNat < off ∨ (off + n) % 2 ^ 32 < off
  · rw [if_pos hbad]
    refine returns_get.bind ?_
    dsimp only
    rw [hdin, if_neg htype, if_pos hbad]
    exact returns_pure
  · rw [if_neg hbad, not_or, Nat.not_lt, Nat.not_lt] at *
    have hread := readi_ok (n := n) (by rw [hdin]) h.ind (by rw [hdin]; exact htype) off
      (by rw [hdin]; exact hbad.1)
      hbad.2 (fun k _ _ hk => h.byteAt (by rwa [hdin] at hk)) (by rw [hdin]; exact h.size)
    rw [hdin, slice_eq_take (by rw [fileBytes_length]; omega)] at hread
    have hlen := fileBytes_length s.disk din i
    have htake : ((fileBytes s.disk din i).drop off).take (min n ((din i).size.toNat - off)) =
        ((fileBytes s.disk din i).drop off).take n := by
      rw [← hlen, ← List.length_drop, ← List.take_take, List.take_length]
    rwa [htake] at hread

end Xv6
