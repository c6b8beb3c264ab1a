import Mathlib.Algebra.BigOperators.Group.Finset.Piecewise
import Mathlib.Algebra.Order.BigOperators.Group.Finset
import Mathlib.Data.Fintype.Card

namespace Counts

variable {P V : Type} [Fintype P] {f : P → V} {c : V → Prop} [DecidablePred c] {p : P} {v : V}

/-- How many places hold a value of the given kind. -/
def count (f : P → V) (c : V → Prop) [DecidablePred c] : Nat :=
  (Finset.univ.filter fun q => c (f q)).card

theorem sum_change [DecidableEq P] {g h : P → Nat} (hne : ∀ q, q ≠ p → h q = g q) :
    ∑ q, h q + g p = ∑ q, g q + h p := by
  have hrest : ∑ q ∈ Finset.univ.erase p, h q = ∑ q ∈ Finset.univ.erase p, g q :=
    Finset.sum_congr rfl fun q hq => hne q (Finset.ne_of_mem_erase hq)
  rw [← Finset.add_sum_erase Finset.univ h (Finset.mem_univ p),
    ← Finset.add_sum_erase Finset.univ g (Finset.mem_univ p),
    hrest]
  omega

theorem count_update [DecidableEq P] :
    count (Function.update f p v) c + (if c (f p) then 1 else 0) =
      count f c + (if c v then 1 else 0) := by
  have h := sum_change (p := p) (g := fun q => if c (f q) then 1 else 0)
    (h := fun q => if c (Function.update f p v q) then 1 else 0) fun q hq => by
      rw [Function.update_of_ne hq]
  simp only [Function.update_self] at h
  simp only [count, Finset.card_filter]
  exact h

/-- A sum whose terms are bounded, and zero where the value is not of the given kind. -/
theorem sum_le_count {g : P → Nat} {n : Nat} (h : ∀ q, g q ≤ if c (f q) then n else 0) :
    ∑ q, g q ≤ count f c * n := by
  calc ∑ q, g q ≤ ∑ q, (if c (f q) then n else 0) := Finset.sum_le_sum fun q _ => h q
    _ = count f c * n := by rw [← Finset.sum_filter, Finset.sum_const, Nat.nsmul_eq_mul, count]

theorem count_congr {W : Type} {g : P → W} {d : W → Prop} [DecidablePred d]
    (h : ∀ q, c (f q) ↔ d (g q)) :
    count f c = count g d :=
  congrArg Finset.card (Finset.filter_congr fun q _ => h q)

theorem count_pos (h : c (f p)) : 0 < count f c :=
  Finset.card_pos.mpr ⟨p, by simpa using h⟩

theorem count_eq_zero : count f c = 0 ↔ ∀ q, ¬ c (f q) := by
  simp [count, Finset.filter_eq_empty_iff]

theorem count_le_card : count f c ≤ Fintype.card P :=
  Finset.card_le_univ _

end Counts
