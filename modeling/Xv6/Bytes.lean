import Mathlib.Data.Fintype.Basic
import Mathlib.Logic.Function.Basic

namespace Bytes

abbrev Byte : Type := BitVec 8

/-- A memory block of n bytes. -/
abbrev Block (n : Nat) : Type := Fin n → Byte

variable {n : Nat}

def zero : Block n := fun _ => 0

/-- The byte at an offset; reads past the end give 0. -/
def byte (b : Block n) (off : Nat) : Byte :=
  if h : off < n then b ⟨off, h⟩ else 0

/-- Copy src over the bytes from off on; what would fall past the end is lost. -/
def put (b : Block n) (off : Nat) (src : List Byte) : Block n :=
  fun i => if off ≤ i.val then src.getD (i.val - off) (b i) else b i

/-- The len bytes from off on. -/
def get (b : Block n) (off len : Nat) : List Byte :=
  (List.range len).map fun i => byte b (off + i)

theorem byte_put_inside (b : Block n) {off i : Nat} {src : List Byte} (lo : off ≤ i)
    (hi : i < off + src.length) (hn : i < n) (d : Byte) :
    byte (put b off src) i = src.getD (i - off) d := by
  have hlen : i - off < src.length := by omega
  simp [byte, put, hn, lo, List.getD_eq_getElem?_getD, hlen]

theorem byte_put_outside (b : Block n) {off i : Nat} {src : List Byte}
    (h : i < off ∨ off + src.length ≤ i) : byte (put b off src) i = byte b i := by
  unfold byte put
  split
  next hn =>
    split
    next lo =>
      have hlen : src.length ≤ i - off := by simp only at lo; omega
      simp [List.getD_eq_getElem?_getD, List.getElem?_eq_none hlen]
    next => rfl
  next => rfl

/-- Little-endian 16-bit word. -/
def u16 (b : Block n) (off : Nat) : BitVec 16 :=
  byte b (off + 1) ++ byte b off

/-- Little-endian 32-bit word. -/
def u32 (b : Block n) (off : Nat) : BitVec 32 :=
  byte b (off + 3) ++ byte b (off + 2) ++ byte b (off + 1) ++ byte b off

def bytes16 (v : BitVec 16) : List Byte :=
  [v.extractLsb' 0 8, v.extractLsb' 8 8]

def bytes32 (v : BitVec 32) : List Byte :=
  [v.extractLsb' 0 8, v.extractLsb' 8 8, v.extractLsb' 16 8, v.extractLsb' 24 8]

@[simp] theorem bytes16_length (v : BitVec 16) : (bytes16 v).length = 2 := rfl

@[simp] theorem bytes32_length (v : BitVec 32) : (bytes32 v).length = 4 := rfl

/-- Little-endian words of a list of bytes. -/
def word16 (src : List Byte) (k : Nat) : BitVec 16 := src.getD (k + 1) 0 ++ src.getD k 0

def word32 (src : List Byte) (k : Nat) : BitVec 32 :=
  src.getD (k + 3) 0 ++ src.getD (k + 2) 0 ++ src.getD (k + 1) 0 ++ src.getD k 0

def setU32 (b : Block n) (off : Nat) (v : BitVec 32) : Block n := put b off (bytes32 v)

theorem join32 (v : BitVec 32) :
    (v.extractLsb' 24 8 ++ v.extractLsb' 16 8 ++ v.extractLsb' 8 8 ++
      v.extractLsb' 0 8 : BitVec 32) = v := by
  ext i hi
  simp
  grind

theorem u32_congr {b c : Block n} {off : Nat}
    (h : ∀ i, off ≤ i → i < off + 4 → byte b i = byte c i) : u32 b off = u32 c off := by
  simp only [u32, h off (by omega) (by omega), h (off + 1) (by omega) (by omega),
    h (off + 2) (by omega) (by omega), h (off + 3) (by omega) (by omega)]

theorem u32_setU32_same (b : Block n) {off : Nat} (h : off + 4 ≤ n) (v : BitVec 32) :
    u32 (setU32 b off v) off = v := by
  have hb : ∀ k, k < 4 → byte (put b off (bytes32 v)) (off + k) = (bytes32 v).getD k 0 := by
    intro k hk
    have hlen : off + k < off + (bytes32 v).length := by simpa using hk
    simpa using byte_put_inside b (Nat.le_add_right off k) hlen (by omega) 0
  have h0 := hb 0 (by omega)
  simp only [Nat.add_zero] at h0
  simp only [u32, setU32, h0, hb 1 (by omega), hb 2 (by omega), hb 3 (by omega)]
  exact join32 v

theorem u32_put_outside (b : Block n) {off at' : Nat} {src : List Byte}
    (h : at' + 4 ≤ off ∨ off + src.length ≤ at') : u32 (put b off src) at' = u32 b at' :=
  u32_congr fun i lo hi => byte_put_outside b (by omega)

@[simp] theorem byte_zero (i : Nat) : byte (zero : Block n) i = 0 := by
  simp [byte, zero]

@[simp] theorem u16_zero (off : Nat) : u16 (zero : Block n) off = 0 := by
  simp [u16]

@[simp] theorem u32_zero (off : Nat) : u32 (zero : Block n) off = 0 := by
  simp [u32]

end Bytes
