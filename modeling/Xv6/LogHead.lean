import Mathlib.Algebra.Group.Nat.Defs
import Mathlib.Data.List.GetD
import Xv6.Log

namespace Xv6

open Bytes

theorem u32_putWords_before (b : DiskBlock) {off pos : Nat} (ws : List Nat) (h : pos + 4 ≤ off) :
    u32 (putWords b off ws) pos = u32 b pos := by
  induction ws generalizing b off with
  | nil => rfl
  | cons w ws ih =>
    rw [putWords, ih _ (by omega)]
    exact u32_put_outside b (Or.inl h)

theorem u32_putWords (b : DiskBlock) {off i : Nat} {ws : List Nat} (hi : i < ws.length)
    (h : off + 4 * ws.length ≤ BSIZE) :
    u32 (putWords b off ws) (off + 4 * i) = BitVec.ofNat 32 (ws.getD i 0) := by
  induction ws generalizing b off i with
  | nil => simp at hi
  | cons w ws ih =>
    simp only [List.length_cons] at hi h
    cases i with
    | zero =>
      simp only [putWords, Nat.mul_zero, Nat.add_zero]
      rw [u32_putWords_before _ ws (Nat.le_refl (off + 4))]
      exact u32_setU32_same b (by omega) _
    | succ i =>
      have hpos : off + 4 * (i + 1) = off + 4 + 4 * i := by omega
      rw [putWords, hpos, ih _ (by omega) (by omega)]
      simp

theorem u32_encodeHead_count (lh : List Nat) (b : DiskBlock) :
    u32 (encodeHead lh b) 0 = BitVec.ofNat 32 lh.length := by
  rw [encodeHead, u32_putWords_before _ lh (by omega)]
  exact u32_setU32_same b (by decide) _

theorem decodeHead_encodeHead_nil (b : DiskBlock) : decodeHead (encodeHead [] b) = [] := by
  simp [decodeHead, u32_encodeHead_count]

theorem decodeHead_encodeHead {lh : List Nat} (b : DiskBlock) (hlen : lh.length ≤ LOGSIZE)
    (hlt : ∀ n ∈ lh, n < 2 ^ 32) : decodeHead (encodeHead lh b) = lh := by
  have hcount : (u32 (encodeHead lh b) 0).toInt.toNat = lh.length := by
    rw [u32_encodeHead_count, BitVec.toInt_ofNat']
    have hsmall : (lh.length : Int) ≤ 30 := by exact_mod_cast hlen
    rw [Int.bmod_eq_of_le (by omega) (by omega), Int.toNat_natCast]
  rw [decodeHead, hcount]
  refine List.ext_getElem (by simp) fun i h1 h2 => ?_
  have hn := hlt lh[i] (List.getElem_mem h2)
  simp only [List.getElem_map, List.getElem_range]
  rw [encodeHead, u32_putWords _ h2
    (by change 4 + 4 * lh.length ≤ 512; change lh.length ≤ 30 at hlen; omega)]
  rw [List.getD_eq_getElem _ _ h2, BitVec.toNat_ofNat, Nat.mod_eq_of_lt hn]

end Xv6
