import Mathlib.Algebra.Group.Nat.Defs
import Mathlib.Data.List.TakeWhile
import Mathlib.Tactic.FinCases
import Xv6.DiskLayout

namespace Bytes

variable {n : Nat}

theorem join16 (v : BitVec 16) : (v.extractLsb' 8 8 ++ v.extractLsb' 0 8 : BitVec 16) = v := by
  ext i hi
  simp
  grind

theorem u16_congr {b c : Block n} {off : Nat}
    (h : ∀ i, off ≤ i → i < off + 2 → byte b i = byte c i) :
    u16 b off = u16 c off := by
  simp only [u16, h off (by omega) (by omega), h (off + 1) (by omega) (by omega)]

theorem byte_put_at (b : Block n) {off k : Nat} {src : List Byte} (hk : k < src.length)
    (hn : off + k < n) :
    byte (put b off src) (off + k) = src.getD k 0 := by
  have h := byte_put_inside b (Nat.le_add_right off k) (by omega : off + k < off + src.length) hn 0
  rwa [Nat.add_sub_cancel_left] at h

theorem u16_put_at (b : Block n) {off k : Nat} {src : List Byte} (hk : k + 2 ≤ src.length)
    (hn : off + k + 2 ≤ n) :
    u16 (put b off src) (off + k) = word16 src k := by
  simp only [u16, word16, Nat.add_assoc]
  rw [byte_put_at b (by omega) (by omega), byte_put_at b (by omega) (by omega)]

theorem u32_put_at (b : Block n) {off k : Nat} {src : List Byte} (hk : k + 4 ≤ src.length)
    (hn : off + k + 4 ≤ n) :
    u32 (put b off src) (off + k) = word32 src k := by
  simp only [u32, word32, Nat.add_assoc]
  rw [byte_put_at b (by omega) (by omega), byte_put_at b (by omega) (by omega),
    byte_put_at b (by omega) (by omega), byte_put_at b (by omega) (by omega)]

theorem word16_here (v : BitVec 16) (t : List Byte) : word16 (bytes16 v ++ t) 0 = v := join16 v

theorem word32_here (v : BitVec 32) (t : List Byte) : word32 (bytes32 v ++ t) 0 = v := join32 v

theorem getD_append_add (h t : List Byte) (k : Nat) :
    (h ++ t).getD (h.length + k) 0 = t.getD k 0 := by
  rw [List.getD_eq_getElem?_getD, List.getElem?_append_right (by omega), Nat.add_sub_cancel_left,
    List.getD_eq_getElem?_getD]

theorem word16_skip (h t : List Byte) (k : Nat) : word16 (h ++ t) (h.length + k) = word16 t k := by
  simp only [word16, Nat.add_assoc, getD_append_add]

theorem word32_skip (h t : List Byte) (k : Nat) : word32 (h ++ t) (h.length + k) = word32 t k := by
  simp only [word32, Nat.add_assoc, getD_append_add]

theorem word32_flatMap {α : Type} {l : List α} {f : α → BitVec 32} {k : Nat} {a : α}
    (h : l[k]? = some a) :
    word32 (l.flatMap fun a => bytes32 (f a)) (4 * k) = f a := by
  induction l generalizing k with
  | nil => simp at h
  | cons c l ih =>
    rw [List.flatMap_cons]
    cases k with
    | zero =>
      cases Option.some.inj (List.getElem?_cons_zero.symm.trans h)
      exact word32_here _ _
    | succ k =>
      have hskip := word32_skip (bytes32 (f c)) (l.flatMap fun a => bytes32 (f a)) (4 * k)
      rw [bytes32_length] at hskip
      have hk : 4 * (k + 1) = 4 + 4 * k := by omega
      rw [hk, hskip]
      exact ih h

end Bytes

namespace Xv6

open Bytes

section Dinodes

variable {b c : DiskBlock} {i j : Nat} {d : Dinode}

@[simp] theorem encode_length (d : Dinode) : d.encode.length = 64 := rfl

theorem inodeOffset_le (i : Nat) : inodeOffset i + 64 ≤ BSIZE := by
  have h : i % IPB < IPB := Nat.mod_lt _ (by decide)
  simp only [inodeOffset, IPB, BSIZE] at *
  omega

theorem word32_addrs (d : Dinode) (k : Fin (NDIRECT + 1)) :
    word32 d.encode (12 + 4 * k.val) = d.addrs k := by
  have hskip := word32_skip
    (bytes16 d.type ++ bytes16 d.major ++ bytes16 d.minor ++ bytes16 d.nlink ++ bytes32 d.size)
    ((List.finRange (NDIRECT + 1)).flatMap fun k => bytes32 (d.addrs k)) (4 * k.val)
  simp only [List.length_append, bytes16_length, bytes32_length] at hskip
  have hlt : k.val < (List.finRange (NDIRECT + 1)).length := by
    rw [List.length_finRange]
    exact k.isLt
  exact hskip.trans (word32_flatMap (List.getElem?_eq_some_iff.mpr ⟨hlt, List.getElem_finRange _⟩))

theorem word_fields (d : Dinode) : word16 d.encode 0 = d.type ∧ word16 d.encode 2 = d.major ∧
    word16 d.encode 4 = d.minor ∧ word16 d.encode 6 = d.nlink ∧ word32 d.encode 8 = d.size := by
  simp only [Dinode.encode, List.append_assoc]
  refine ⟨word16_here _ _, ?_, ?_, ?_, ?_⟩
  · exact (word16_skip (bytes16 d.type) _ 0).trans (word16_here _ _)
  · exact (word16_skip (bytes16 d.type) _ 2).trans
      ((word16_skip (bytes16 d.major) _ 0).trans (word16_here _ _))
  · refine (word16_skip (bytes16 d.type) _ 4).trans ((word16_skip (bytes16 d.major) _ 2).trans ?_)
    exact (word16_skip (bytes16 d.minor) _ 0).trans (word16_here _ _)
  · refine (word32_skip (bytes16 d.type) _ 6).trans ((word32_skip (bytes16 d.major) _ 4).trans ?_)
    refine (word32_skip (bytes16 d.minor) _ 2).trans ((word32_skip (bytes16 d.nlink) _ 0).trans ?_)
    exact word32_here _ _

theorem getDinode_put_same (b : DiskBlock) (i : Nat) (d : Dinode) :
    getDinode (putDinode b i d) i = d := by
  have hoff := inodeOffset_le i
  have h16 : ∀ k, k + 2 ≤ 64 → u16 (putDinode b i d) (inodeOffset i + k) = word16 d.encode k :=
    fun k hk =>
    u16_put_at b (by simpa using hk) (by omega)
  have h32 : ∀ k, k + 4 ≤ 64 → u32 (putDinode b i d) (inodeOffset i + k) = word32 d.encode k :=
    fun k hk =>
    u32_put_at b (by simpa using hk) (by omega)
  have haddrs : ∀ k : Fin (NDIRECT + 1), u32 (putDinode b i d) (inodeOffset i + 12 + 4 * k.val) =
      d.addrs k := by
    intro k
    have hk := k.isLt
    simp only [NDIRECT] at hk
    rw [Nat.add_assoc, h32 _ (by omega), word32_addrs]
  obtain ⟨htype, hmajor, hminor, hnlink, hsize⟩ := word_fields d
  have h0 := (h16 0 (by omega)).trans htype
  have h2 := (h16 2 (by omega)).trans hmajor
  have h4 := (h16 4 (by omega)).trans hminor
  have h6 := (h16 6 (by omega)).trans hnlink
  have h8 := (h32 8 (by omega)).trans hsize
  clear h16 h32 htype hmajor hminor hnlink hsize
  generalize putDinode b i d = c at *
  rw [Nat.add_zero] at h0
  simp only [getDinode, h0, h2, h4, h6, h8, haddrs]

theorem getDinode_congr (h : ∀ k, inodeOffset i ≤ k → k < inodeOffset i + 64 →
    byte b k = byte c k) :
    getDinode b i = getDinode c i := by
  have h16 : ∀ k, k + 2 ≤ 64 → u16 b (inodeOffset i + k) = u16 c (inodeOffset i + k) := fun k hk =>
    u16_congr fun j lo hi => h j (by omega) (by omega)
  have h32 : ∀ k, k + 4 ≤ 64 → u32 b (inodeOffset i + k) = u32 c (inodeOffset i + k) := fun k hk =>
    u32_congr fun j lo hi => h j (by omega) (by omega)
  have haddrs : ∀ k : Fin (NDIRECT + 1),
      u32 b (inodeOffset i + 12 + 4 * k.val) = u32 c (inodeOffset i + 12 + 4 * k.val) := by
    intro k
    have hk := k.isLt
    simp only [NDIRECT] at hk
    rw [Nat.add_assoc]
    exact h32 _ (by omega)
  have h0 := h16 0 (by omega)
  rw [Nat.add_zero] at h0
  simp only [getDinode, h0, h16 2 (by omega), h16 4 (by omega), h16 6 (by omega),
    h32 8 (by omega), haddrs]

theorem getDinode_put_other (b : DiskBlock) (d : Dinode) (h : i % IPB ≠ j % IPB) :
    getDinode (putDinode b i d) j = getDinode b j := by
  apply getDinode_congr
  intro k lo hi
  apply byte_put_outside
  simp only [encode_length, inodeOffset, IPB, BSIZE] at *
  omega

theorem getDinode_zero (i : Nat) : getDinode zero i = Dinode.zero := by
  simp [getDinode, Dinode.zero]

end Dinodes

section Dirents

variable {inum : Nat} {name : Name}

@[simp] theorem encodeDirent_length (inum : Nat) (name : Name) :
    (encodeDirent inum name).length = 16 := by
  simp only [encodeDirent, List.length_append, bytes16_length, List.length_take,
    List.length_replicate, DIRSIZ]
  omega

theorem direntInum_encode (h : inum < 2 ^ 16) : direntInum (encodeDirent inum name) = inum := by
  have hjoin : direntInum (encodeDirent inum name) = (BitVec.ofNat 16 inum).toNat :=
    congrArg BitVec.toNat (join16 _)
  rw [hjoin, BitVec.toNat_ofNat, Nat.mod_eq_of_lt h]

theorem direntName_encode (h : ∀ c ∈ name, c ≠ 0) :
    direntName (encodeDirent inum name) = name.take DIRSIZ := by
  have hname : ((encodeDirent inum name).drop 2).take DIRSIZ =
      name.take DIRSIZ ++ List.replicate (DIRSIZ - name.length) 0 := by
    have hdrop : (encodeDirent inum name).drop 2 =
      name.take DIRSIZ ++ List.replicate (DIRSIZ - name.length) 0 := rfl
    rw [hdrop]
    apply List.take_of_length_le
    simp only [List.length_append, List.length_take, List.length_replicate]
    omega
  unfold direntName
  rw [hname, List.takeWhile_append_of_pos]
  · cases DIRSIZ - name.length with
    | zero => simp
    | succ m => simp [List.replicate_succ]
  · intro c hc
    simpa using h c (List.mem_of_mem_take hc)

end Dirents

section FreeMap

theorem mapMask_bit (x : Byte) (k : Nat) : decide (x &&& mapMask k ≠ 0) = x.getLsbD (k % 8) := by
  have hall : ∀ x : Byte, ∀ k : Fin 8, decide (x &&& 1 <<< k.val ≠ 0) = x.getLsbD k.val := by
    decide +kernel
  exact hall x ⟨k % 8, Nat.mod_lt k (by decide)⟩

theorem mapMask_or (x : Byte) (i k : Nat) :
    decide ((x ||| mapMask i) &&& mapMask k ≠ 0) =
      (decide (x &&& mapMask k ≠ 0) || decide (k % 8 = i % 8)) := by
  have hmask : ∀ i k : Fin 8, (1 <<< i.val : Byte).getLsbD k.val = decide (k.val = i.val) := by
    decide +kernel
  rw [mapMask_bit, mapMask_bit, BitVec.getLsbD_or]
  congr 1
  exact hmask ⟨i % 8, Nat.mod_lt i (by decide)⟩ ⟨k % 8, Nat.mod_lt k (by decide)⟩

theorem mapBit_setMapBit {b : DiskBlock} {i k : Nat} (hi : i < BPB) :
    mapBit (setMapBit b i) k = (mapBit b k || decide (k = i)) := by
  have hin : i / 8 < BSIZE := by simp only [BPB, BSIZE] at *; omega
  unfold mapBit setMapBit
  by_cases hbyte : k / 8 = i / 8
  · have hput : byte (put b (i / 8) [byte b (i / 8) ||| mapMask i]) (k / 8) =
        byte b (i / 8) ||| mapMask i := by
      rw [hbyte]
      have h : byte (put b (i / 8) [byte b (i / 8) ||| mapMask i]) (i / 8 + 0) = _ :=
        byte_put_at b (by simp) (by omega)
      simpa using h
    have hsame : (k % 8 = i % 8) ↔ k = i := by omega
    rw [hput, hbyte, mapMask_or]
    simp only [hsame]
  · have hput : byte (put b (i / 8) [byte b (i / 8) ||| mapMask i]) (k / 8) = byte b (k / 8) := by
      apply byte_put_outside
      simp only [List.length_cons, List.length_nil]
      omega
    have hne : k ≠ i := fun he => hbyte (by rw [he])
    rw [hput]
    simp [hne]

theorem mapBit_range {used : Nat} (h : used ≤ BPB) (k : Nat) :
    mapBit ((List.range used).foldl setMapBit zero) k = decide (k < used) := by
  induction used with
  | zero => simp [mapBit]
  | succ used ih =>
    rw [List.range_succ, List.foldl_append]
    simp only [List.foldl_cons, List.foldl_nil]
    rw [mapBit_setMapBit (by omega), ih (by omega), ← Bool.decide_or]
    simp only [decide_eq_decide]
    omega

end FreeMap

end Xv6
