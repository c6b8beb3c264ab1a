import Mathlib.Logic.Function.Iterate

section

variable {α β : Type} [DecidableEq α]

namespace Copy

/-- One cell after the other from src on is copied to the cells from dst on; next gives the cell
that follows. -/
def run (next : α → α) : Nat → (α → β) → α → α → α → β
  | 0, mem, _, _ => mem
  | n + 1, mem, dst, src => run next n (Function.update mem dst (mem src)) (next dst) (next src)

/-- The first n cells from a on are different ones. -/
def Apart (next : α → α) (n : Nat) (a : α) : Prop := ∀ i j, i < j → j < n → next^[i] a ≠ next^[j] a

variable {next : α → α} {n k i : Nat} {mem : α → β} {dst src a : α}

theorem run_succ : run next (n + 1) mem dst src =
    Function.update (run next n mem dst src) (next^[n] dst)
      (run next n mem dst src (next^[n] src)) := by
  induction n generalizing mem dst src with
  | zero => rfl
  | succ n ih =>
    rw [run, ih]
    rfl

theorem run_of_ne (h : ∀ i < n, a ≠ next^[i] dst) : run next n mem dst src a = mem a := by
  induction n with
  | zero => rfl
  | succ n ih =>
    rw [run_succ, Function.update_of_ne (h n (by omega))]
    exact ih fun i hi => h i (by omega)

/-- A cell keeps what was in its source when its turn came. -/
theorem run_written (h : Apart next n dst) (hi : i < n) :
    run next n mem dst src (next^[i] dst) = run next i mem dst src (next^[i] src) := by
  induction n with
  | zero => omega
  | succ n ih =>
    rw [run_succ]
    by_cases hin : i = n
    · rw [hin, Function.update_self]
    · rw [Function.update_of_ne (h i n (by omega) (by omega))]
      exact ih (fun a b hab hb => h a b hab (by omega)) (by omega)

/-- No cell of the source is overwritten before it is read. -/
theorem run_moves (h : Apart next n dst)
    (hread : ∀ i j, j < i → i < n → next^[i] src ≠ next^[j] dst) (hi : i < n) :
    run next n mem dst src (next^[i] dst) = mem (next^[i] src) := by
  rw [run_written h hi]
  exact run_of_ne fun j hj => hread i j hj hi

omit [DecidableEq α] in
theorem Apart.shift (h : Apart next (k + n) src) : Apart next n (next^[k] src) := by
  intro i j hij hj
  rw [← Function.iterate_add_apply, ← Function.iterate_add_apply]
  exact h (i + k) (j + k) (by omega) (by omega)

/-- When the cells from the k-th of the source on are written, the first k of them come again and
again. -/
theorem run_repeats (hk : 0 < k) (h : Apart next (k + n) src) (hi : i < n) :
    run next n mem (next^[k] src) src (next^[i] (next^[k] src)) = mem (next^[i % k] src) := by
  induction i using Nat.strongRecOn with
  | ind i ih =>
    rw [run_written h.shift hi]
    by_cases hik : i < k
    · rw [Nat.mod_eq_of_lt hik]
      refine run_of_ne fun j hj => ?_
      rw [← Function.iterate_add_apply]
      exact h i (j + k) (by omega) (by omega)
    · have hback : next^[i] src = next^[i - k] (next^[k] src) := by
        rw [← Function.iterate_add_apply, Nat.sub_add_cancel (by omega)]
      have hapart : Apart next i (next^[k] src) := fun a b hab hb => h.shift a b hab (by omega)
      rw [hback, run_written hapart (by omega), ← run_written h.shift (by omega : i - k < n),
        ih (i - k) (by omega) (by omega), Nat.mod_eq_sub_mod (Nat.le_of_not_lt hik)]

end Copy

end
