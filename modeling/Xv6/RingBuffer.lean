import Mathlib.Data.BitVec
import Mathlib.Logic.Function.Basic
import Mathlib.Data.Nat.ModEq
import Mathlib.Tactic.Abel

/-- A ring of n cells; head and tail count the elements that have left and entered it, and wrap
around at their width. -/
structure RingBuffer (n w : Nat) (α : Type) where
  cells : Fin n → α
  head : BitVec w
  tail : BitVec w

namespace RingBuffer

variable {n w : Nat} [NeZero n] {α : Type}

/-- The cell that belongs to a count. -/
def slot (i : Nat) : Fin n := Fin.ofNat n i

def count (r : RingBuffer n w α) : Nat := (r.tail - r.head).toNat

/-- The elements in the ring, oldest first. -/
def contents (r : RingBuffer n w α) : List α :=
  (List.range r.count).map fun j => r.cells (slot (r.head.toNat + j))

def push (r : RingBuffer n w α) (a : α) : RingBuffer n w α :=
  { r with cells := Function.update r.cells (slot r.tail.toNat) a, tail := r.tail + 1 }

def front (r : RingBuffer n w α) : α := r.cells (slot r.head.toNat)

def pop (r : RingBuffer n w α) : RingBuffer n w α := { r with head := r.head + 1 }

variable {r : RingBuffer n w α} {a : α}

omit [NeZero n] in
theorem count_eq_zero : r.count = 0 ↔ r.head = r.tail := by
  unfold count
  constructor
  · intro h
    have hz : r.tail - r.head = 0 := BitVec.eq_of_toNat_eq (by simpa using h)
    have hsum := congrArg (· + r.head) hz
    simpa using hsum.symm
  · intro h
    simp [h]

omit [NeZero n] in
theorem count_eq_capacity (hn : n < 2 ^ w) : r.count = n ↔ r.tail = r.head + BitVec.ofNat w n := by
  unfold count
  constructor
  · intro h
    have hd : r.tail - r.head = BitVec.ofNat w n :=
      BitVec.eq_of_toNat_eq (by simpa [Nat.mod_eq_of_lt hn] using h)
    have hsum := congrArg (r.head + ·) hd
    simpa using hsum
  · intro h
    have hd : r.tail - r.head = BitVec.ofNat w n := by
      rw [h]
      simp
    rw [hd]
    simp [Nat.mod_eq_of_lt hn]

omit [NeZero n] in
theorem tail_toNat : r.tail.toNat = (r.head.toNat + r.count) % 2 ^ w := by
  have hsum : r.head + (r.tail - r.head) = r.tail := by simp
  have hnat := congrArg BitVec.toNat hsum
  rw [BitVec.toNat_add] at hnat
  exact hnat.symm

theorem slot_mod (hd : n ∣ 2 ^ w) (i : Nat) : (slot (i % 2 ^ w) : Fin n) = slot i := by
  apply Fin.ext
  exact Nat.mod_mod_of_dvd i hd

theorem slot_ne {i j : Nat} (h : i < j) (hj : j < i + n) : (slot i : Fin n) ≠ slot j := by
  intro he
  have hmod : i % n = j % n := congrArg Fin.val he
  have hdvd : n ∣ j - i := (Nat.modEq_iff_dvd' (le_of_lt h)).mp hmod
  have hle := Nat.le_of_dvd (by omega) hdvd
  omega

omit [NeZero n] in
theorem count_succ {d : BitVec w} {k : Nat} (hk : d.toNat = k) (hlt : k + 1 < 2 ^ w) :
    (d + 1).toNat = k + 1 := by
  have hone : 1 < 2 ^ w := by omega
  rw [BitVec.toNat_add, hk]
  have h1 : (1 : BitVec w).toNat = 1 := by simp [Nat.mod_eq_of_lt hone]
  rw [h1, Nat.mod_eq_of_lt hlt]

theorem count_push (h : r.count < n) (hn : n < 2 ^ w) : (r.push a).count = r.count + 1 := by
  have hd : (r.push a).tail - (r.push a).head = (r.tail - r.head) + 1 := by
    simp only [push]
    exact add_sub_right_comm _ _ _
  unfold count at h ⊢
  rw [hd]
  exact count_succ rfl (by omega)

theorem contents_push (h : r.count < n) (hd : n ∣ 2 ^ w) (hn : n < 2 ^ w) :
    (r.push a).contents = r.contents ++ [a] := by
  have htail : (slot r.tail.toNat : Fin n) = slot (r.head.toNat + r.count) := by
    rw [tail_toNat, slot_mod hd]
  unfold contents
  rw [count_push h hn, List.range_succ, List.map_append, List.map_singleton]
  congr 1
  · apply List.map_congr_left
    intro j hj
    have hlt := List.mem_range.mp hj
    simp only [push, htail]
    exact Function.update_of_ne (slot_ne (by omega) (by omega)) _ _
  · simp [push, htail]

omit [NeZero n] in
theorem count_pop (h : 0 < r.count) : r.pop.count + 1 = r.count := by
  have hd : (r.pop.tail - r.pop.head) + 1 = r.tail - r.head := by
    simp only [pop]
    abel
  have hlt : r.count < 2 ^ w := (r.tail - r.head).isLt
  have hsum := congrArg BitVec.toNat hd
  by_cases hmax : r.pop.count + 1 < 2 ^ w
  · rw [count_succ rfl hmax] at hsum
    exact hsum
  · exfalso
    have hp : r.pop.count < 2 ^ w := (r.pop.tail - r.pop.head).isLt
    rw [BitVec.toNat_add] at hsum
    have hone : (1 : BitVec w).toNat = 1 % 2 ^ w := by simp
    rw [hone] at hsum
    unfold count at hp hmax h
    have hpow : 1 < 2 ^ w := by omega
    rw [Nat.mod_eq_of_lt hpow] at hsum
    have heq : (r.pop.tail - r.pop.head).toNat + 1 = 2 ^ w := by omega
    rw [heq, Nat.mod_self] at hsum
    omega

/-- The last element is taken back. -/
def unpush (r : RingBuffer n w α) : RingBuffer n w α := { r with tail := r.tail - 1 }

omit [NeZero n] in
theorem count_unpush (h : 0 < r.count) : r.unpush.count + 1 = r.count := by
  have hd : (r.unpush.tail - r.unpush.head) = r.tail - r.head - 1 := by
    simp only [unpush]
    abel
  have hlt : r.count < 2 ^ w := (r.tail - r.head).isLt
  have hone : (1 : BitVec w).toNat = 1 := by simp [Nat.mod_eq_of_lt (by omega : 1 < 2 ^ w)]
  have hle : (1 : BitVec w).toNat ≤ (r.tail - r.head).toNat := by
    rw [hone]
    exact h
  have hsub := BitVec.toNat_sub_of_le (BitVec.le_def.mpr hle)
  have hnat : r.unpush.count = (r.tail - r.head).toNat - 1 := by
    rw [count, hd, hsub, hone]
  unfold count at h hnat ⊢
  omega

theorem contents_unpush (h : 0 < r.count) : r.unpush.contents = r.contents.take (r.count - 1) := by
  have hcount := count_unpush h
  have hk : r.unpush.count = r.count - 1 := by omega
  unfold contents
  rw [hk, ← List.map_take, List.take_range, Nat.min_eq_left (Nat.sub_le _ _)]
  rfl

@[simp] theorem contents_length : r.contents.length = r.count := by
  simp [contents]

theorem contents_pop (h : 0 < r.count) (hd : n ∣ 2 ^ w) :
    r.contents = r.front :: r.pop.contents := by
  unfold contents
  rw [← count_pop h, List.range_succ_eq_map, List.map_cons, List.map_map]
  congr 1
  apply List.map_congr_left
  intro j _
  have hhead : r.pop.head.toNat = (r.head.toNat + 1) % 2 ^ w := by
    simp only [pop]
    rw [BitVec.toNat_add]
    simp
  have hcells : r.pop.cells = r.cells := rfl
  rw [Function.comp_apply, hcells, hhead]
  congr 1
  apply Fin.ext
  show (r.head.toNat + (j + 1)) % n = ((r.head.toNat + 1) % 2 ^ w + j) % n
  rw [Nat.add_mod ((r.head.toNat + 1) % 2 ^ w) j n, Nat.mod_mod_of_dvd _ hd, ← Nat.add_mod]
  congr 1
  omega

end RingBuffer
