import Mathlib.Data.List.Basic
import Mathlib.Logic.Function.Basic

namespace Writes

variable {A V : Type} [DecidableEq A]

/-- The memory after the writes of a list, oldest first. -/
def apply (d : A → V) (ws : List (A × V)) : A → V :=
  ws.foldl (fun d w => Function.update d w.1 w.2) d

@[simp] theorem apply_nil (d : A → V) : apply d [] = d := rfl

@[simp] theorem apply_cons (d : A → V) (w : A × V) (ws : List (A × V)) :
    apply d (w :: ws) = apply (Function.update d w.1 w.2) ws := rfl

theorem apply_append (d : A → V) (ws us : List (A × V)) :
    apply d (ws ++ us) = apply (apply d ws) us := by
  simp [apply]

theorem apply_snoc (d : A → V) (ws : List (A × V)) (a : A) (v : V) :
    apply d (ws ++ [(a, v)]) = Function.update (apply d ws) a v := by
  rw [apply_append]
  rfl

theorem apply_of_notMem {d : A → V} {ws : List (A × V)} {a : A} (h : a ∉ ws.map Prod.fst) :
    apply d ws a = d a := by
  induction ws generalizing d with
  | nil => rfl
  | cons w ws ih =>
    simp only [List.map_cons, List.mem_cons, not_or] at h
    rw [apply_cons, ih h.2, Function.update_of_ne h.1]

theorem apply_of_mem {d e : A → V} {ws : List (A × V)} {a : A} (h : a ∈ ws.map Prod.fst) :
    apply d ws a = apply e ws a := by
  induction ws generalizing d e with
  | nil => simp at h
  | cons w ws ih =>
    simp only [apply_cons]
    by_cases ha : a ∈ ws.map Prod.fst
    · exact ih ha
    · have hw : a = w.1 := by simpa [ha] using h
      subst hw
      rw [apply_of_notMem ha, apply_of_notMem ha]
      simp

theorem apply_of_nodup {d : A → V} {ws : List (A × V)} {a : A} {v : V}
    (hn : (ws.map Prod.fst).Nodup) (h : (a, v) ∈ ws) : apply d ws a = v := by
  induction ws generalizing d with
  | nil => simp at h
  | cons w ws ih =>
    obtain ⟨hw, hn⟩ := List.nodup_cons.mp hn
    rw [apply_cons]
    rcases List.mem_cons.mp h with rfl | h
    · rw [apply_of_notMem hw]
      simp
    · exact ih hn h

end Writes
