import Mathlib.Algebra.Group.Nat.Defs
import Xv6.Bytes

namespace Xv6

open Bytes

abbrev Addr : Type := BitVec 32

abbrev Memory : Type := Addr → Byte

theorem addr_add_toNat {p : Addr} {i : Nat} (h : p.toNat + i < 2 ^ 32) :
    (p + BitVec.ofNat 32 i).toNat = p.toNat + i := by
  simp only [BitVec.toNat_add, BitVec.toNat_ofNat]
  omega

theorem addr_ne {p q : Addr} {i j : Nat} (hi : p.toNat + i < 2 ^ 32) (hj : q.toNat + j < 2 ^ 32)
    (h : p.toNat + i ≠ q.toNat + j) : p + BitVec.ofNat 32 i ≠ q + BitVec.ofNat 32 j := by
  intro heq
  have hnat := congrArg BitVec.toNat heq
  rw [addr_add_toNat hi, addr_add_toNat hj] at hnat
  exact h hnat

theorem addr_of_le {p a : Addr} (h : p.toNat ≤ a.toNat) :
    a = p + BitVec.ofNat 32 (a.toNat - p.toNat) := by
  apply BitVec.eq_of_toNat_eq
  have ha := a.isLt
  rw [addr_add_toNat (by omega)]
  omega

/-- The address is one of the n from p on. -/
def InRange (p : Addr) (n : Nat) (a : Addr) : Prop := p.toNat ≤ a.toNat ∧ a.toNat < p.toNat + n

instance (p : Addr) (n : Nat) (a : Addr) : Decidable (InRange p n a) :=
  inferInstanceAs (Decidable (p.toNat ≤ a.toNat ∧ a.toNat < p.toNat + n))

namespace Memory

variable {mem : Memory} {a b x : Addr}

/-- The int or pointer at an address. -/
def load32 (mem : Memory) (a : Addr) : BitVec 32 :=
  mem (a + 3) ++ mem (a + 2) ++ mem (a + 1) ++ mem a

def store32 (mem : Memory) (a : Addr) (v : BitVec 32) : Memory :=
  Function.update (Function.update (Function.update (Function.update mem a (v.extractLsb' 0 8))
    (a + 1) (v.extractLsb' 8 8)) (a + 2) (v.extractLsb' 16 8)) (a + 3) (v.extractLsb' 24 8)

theorem store32_of_ne {v : BitVec 32} (h0 : x ≠ a) (h1 : x ≠ a + 1) (h2 : x ≠ a + 2)
    (h3 : x ≠ a + 3) :
    mem.store32 a v x = mem x := by
  simp only [store32, Function.update_of_ne h0, Function.update_of_ne h1, Function.update_of_ne h2,
    Function.update_of_ne h3]

theorem load32_store32 (v : BitVec 32) : (mem.store32 a v).load32 a = v := by
  have h01 : a ≠ a + 1 := by bv_omega
  have h02 : a ≠ a + 2 := by bv_omega
  have h03 : a ≠ a + 3 := by bv_omega
  have h12 : a + 1 ≠ a + 2 := by bv_omega
  have h13 : a + 1 ≠ a + 3 := by bv_omega
  have h23 : a + 2 ≠ a + 3 := by bv_omega
  simp only [load32, store32, Function.update_self, Function.update_of_ne h01,
    Function.update_of_ne h02,
    Function.update_of_ne h03, Function.update_of_ne h12, Function.update_of_ne h13,
      Function.update_of_ne h23]
  exact join32 v

theorem load32_congr {mem' : Memory} (h : ∀ x, InRange a 4 x → mem' x = mem x)
    (ha : a.toNat + 4 ≤ 2 ^ 32) :
    mem'.load32 a = mem.load32 a := by
  have h0 : mem' a = mem a := h a ⟨by omega, by omega⟩
  have hi : ∀ i < 4, mem' (a + BitVec.ofNat 32 i) = mem (a + BitVec.ofNat 32 i) := by
    intro i hi
    refine h _ ?_
    rw [InRange, addr_add_toNat (by omega)]
    omega
  simp only [load32]
  rw [h0]
  rw [show mem' (a + 1) = mem (a + 1) from hi 1 (by omega),
    show mem' (a + 2) = mem (a + 2) from hi 2 (by omega),
    show mem' (a + 3) = mem (a + 3) from hi 3 (by omega)]

theorem store32_outside {v : BitVec 32} (ha : a.toNat + 4 ≤ 2 ^ 32) (h : ¬ InRange a 4 x) :
    mem.store32 a v x = mem x := by
  unfold InRange at h
  apply store32_of_ne
  all_goals
    rintro rfl
    apply h
    bv_omega

end Memory

/-- The n bytes from p on have become d, and the others are as before. -/
structure FilledWith (mem : Memory) (p : Addr) (n : Nat) (d : Byte) (mem' : Memory) : Prop where
  inside : ∀ a, InRange p n a → mem' a = d
  outside : ∀ a, ¬ InRange p n a → mem' a = mem a

section

variable {mem mem' mem'' : Memory} {p q : Addr} {m n : Nat} {d : Byte}

theorem FilledWith.zero : FilledWith mem p 0 d mem :=
  ⟨fun a h => by unfold InRange at h; omega, fun _ _ => rfl⟩

theorem FilledWith.trans (h : FilledWith mem p m d mem') (h' : FilledWith mem' q n d mem'')
    (hq : n = 0 ∨ q.toNat = p.toNat + m) : FilledWith mem p (m + n) d mem'' := by
  constructor
  · intro a ha
    by_cases hqa : InRange q n a
    · exact h'.inside a hqa
    · rw [h'.outside a hqa]
      refine h.inside a ?_
      unfold InRange at ha hqa ⊢
      omega
  · intro a ha
    rw [h'.outside a (by unfold InRange at ha ⊢; omega)]
    exact h.outside a (by unfold InRange at ha ⊢; omega)

theorem filled_update : FilledWith mem p 1 d (Function.update mem p d) := by
  constructor
  · intro a ha
    obtain rfl : a = p := BitVec.eq_of_toNat_eq (by unfold InRange at ha; omega)
    exact Function.update_self ..
  · intro a ha
    have hne : a ≠ p := by
      rintro rfl
      exact ha ⟨by omega, by omega⟩
    exact Function.update_of_ne hne ..

theorem filled_store32 {v : BitVec 32} (hp : p.toNat + 4 ≤ 2 ^ 32)
    (hv : ∀ k, k = 0 ∨ k = 8 ∨ k = 16 ∨ k = 24 → v.extractLsb' k 8 = d) :
    FilledWith mem p 4 d (mem.store32 p v) := by
  constructor
  · intro a ha
    unfold InRange at ha
    have hcases : a = p ∨ a = p + 1 ∨ a = p + 2 ∨ a = p + 3 := by bv_omega
    unfold Memory.store32
    rcases hcases with rfl | rfl | rfl | rfl <;> grind
  · intro a ha
    exact Memory.store32_outside hp ha

end

/-- Rep stosb of x86. -/
def stosb (mem : Memory) (addr : Addr) (data : BitVec 32) : Nat → Memory
  | 0 => mem
  | cnt + 1 => stosb (Function.update mem addr (data.setWidth 8)) (addr + 1) data cnt

def stosl (mem : Memory) (addr : Addr) (data : BitVec 32) : Nat → Memory
  | 0 => mem
  | cnt + 1 => stosl (mem.store32 addr data) (addr + 4) data cnt

namespace Kernel

/-- The memory afterwards, and the result. -/
def memset (mem : Memory) (dst : Addr) (c n : BitVec 32) : Memory × Addr :=
  if dst.toNat % 4 = 0 ∧ n.toNat % 4 = 0 then
    let c := c &&& 0xFF
    (stosl mem dst ((c <<< 24) ||| (c <<< 16) ||| (c <<< 8) ||| c) (n.toNat / 4), dst)
  else (stosb mem dst c n.toNat, dst)

end Kernel

variable {mem : Memory} {addr dst : Addr} {data c n : BitVec 32} {cnt : Nat}

theorem stosb_filled (h : addr.toNat + cnt ≤ 2 ^ 32) :
    FilledWith mem addr cnt (data.setWidth 8) (stosb mem addr data cnt) := by
  induction cnt generalizing mem addr with
  | zero => exact FilledWith.zero
  | succ cnt ih =>
    by_cases hcnt : cnt = 0
    · subst hcnt
      exact filled_update
    · have hnext : (addr + 1).toNat = addr.toNat + 1 := by bv_omega
      unfold stosb
      rw [Nat.add_comm]
      exact filled_update.trans (ih (by omega)) (.inr hnext)

theorem stosl_filled {d : Byte} (h : addr.toNat + 4 * cnt ≤ 2 ^ 32)
    (hdata : ∀ k, k = 0 ∨ k = 8 ∨ k = 16 ∨ k = 24 → data.extractLsb' k 8 = d) :
    FilledWith mem addr (4 * cnt) d (stosl mem addr data cnt) := by
  induction cnt generalizing mem addr with
  | zero => exact FilledWith.zero
  | succ cnt ih =>
    by_cases hcnt : cnt = 0
    · subst hcnt
      exact filled_store32 (by omega) hdata
    · have hnext : (addr + 4).toNat = addr.toNat + 4 := by bv_omega
      unfold stosl
      rw [Nat.mul_succ, Nat.add_comm]
      exact (filled_store32 (by omega) hdata).trans (ih (by omega)) (.inr hnext)

theorem memset_word {k : Nat} (hk : k = 0 ∨ k = 8 ∨ k = 16 ∨ k = 24) :
    (((c &&& 0xFF) <<< 24) ||| ((c &&& 0xFF) <<< 16) ||| ((c &&& 0xFF) <<< 8) |||
      (c &&& 0xFF)).extractLsb' k 8 =
      c.setWidth 8 := by
  have hmask : ∀ i, (0xFF#32).getLsbD i = decide (i < 8) := by
    intro i
    rw [show 0xFF#32 = BitVec.setWidth 32 (BitVec.allOnes 8) by decide]
    simp only [BitVec.getLsbD_setWidth, BitVec.getLsbD_allOnes]
    grind
  ext i hi
  simp only [BitVec.getElem_extractLsb', BitVec.getLsbD_or, BitVec.getLsbD_shiftLeft,
    BitVec.getLsbD_and, BitVec.getElem_setWidth]
  rcases hk with rfl | rfl | rfl | rfl <;> grind

theorem memset_filled (h : dst.toNat + n.toNat ≤ 2 ^ 32) :
    FilledWith mem dst n.toNat (c.setWidth 8) (Kernel.memset mem dst c n).1 := by
  unfold Kernel.memset
  split
  next hword =>
    have hn : n.toNat = 4 * (n.toNat / 4) := by omega
    nth_rewrite 1 [hn]
    exact stosl_filled (by omega) fun _ hk => memset_word hk
  next => exact stosb_filled h

end Xv6
