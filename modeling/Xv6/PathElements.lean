import Mathlib.Data.List.TakeWhile
import Xv6.Directory

namespace Xv6

open Bytes

/-- The non-empty parts of a path between slashes. -/
def elements (path : List Byte) : List (List Byte) := (path.splitOn slash).filter fun e => e ≠ []

/-- The names that a path consists of. -/
def components (path : List Byte) : List Name := (elements path).map fun e => e.take DIRSIZ

theorem elements_slash (path : List Byte) : elements (slash :: path) = elements path := by
  simp [elements, List.splitOn, List.splitOnP_cons_eq_if_modifyHead]

theorem elements_dropWhile (path : List Byte) :
    elements (path.dropWhile (· = slash)) = elements path := by
  induction path with
  | nil => rfl
  | cons c path ih =>
    by_cases hc : c = slash
    · rw [List.dropWhile_cons_of_pos (by simpa using hc), ih, hc, elements_slash]
    · rw [List.dropWhile_cons_of_neg (by simpa using hc)]

theorem elements_append {e rest : List Byte} (he : ∀ c ∈ e, c ≠ slash) (hne : e ≠ [])
    (hrest : ∀ c, rest.head? = some c → c = slash) : elements (e ++ rest) = e :: elements rest := by
  cases rest with
  | nil =>
    rw [List.append_nil, elements, List.splitOn, List.splitOnP_eq_singleton (by simpa using he)]
    simp [hne, elements]
  | cons c rest =>
    obtain rfl : c = slash := hrest c rfl
    rw [elements, List.splitOn,
      List.splitOnP_append_cons_of_forall_mem (by simpa using he) slash (by simp),
      List.filter_cons_of_pos (by simpa using hne), elements_slash]
    rfl

theorem skipelem_none {path : List Byte} (h : skipelem path = none) : elements path = [] := by
  rw [← elements_dropWhile]
  unfold skipelem at h
  split at h
  next hnil =>
    rw [hnil]
    rfl
  next => cases h

theorem skipelem_some {path rest : List Byte} {name : Name}
    (h : skipelem path = some (name, rest)) :
    ∃ e, elements path = e :: elements rest ∧ name = e.take DIRSIZ ∧ rest.length < path.length := by
  rw [← elements_dropWhile path]
  have hle := (List.dropWhile_sublist (l := path) (fun c => decide (c = slash))).length_le
  unfold skipelem at h
  split at h
  next => cases h
  next c cs hcs =>
    cases h
    rw [hcs] at hle ⊢
    have hc : c ≠ slash := by
      have := List.head?_dropWhile_not (fun c => decide (c = slash)) path
      rw [hcs] at this
      simpa using this
    refine ⟨(c :: cs).takeWhile (· ≠ slash), ?_, rfl, ?_⟩
    · rw [elements_dropWhile, ← elements_append, List.takeWhile_append_dropWhile]
      · exact fun d hd => by simpa using List.mem_takeWhile_imp hd
      · simp [hc]
      · intro d hd
        have := List.head?_dropWhile_not (fun c => decide (c ≠ slash)) (c :: cs)
        rw [hd] at this
        simpa using this
    · rw [List.dropWhile_cons_of_pos (by simpa using hc)]
      have h1 := (List.dropWhile_sublist (l := cs.dropWhile fun c => decide (c ≠ slash))
        (fun c => decide (c = slash))).length_le
      have h2 := (List.dropWhile_sublist (l := cs) (fun c => decide (c ≠ slash))).length_le
      rw [List.length_cons] at hle
      omega

theorem pathElems_eq (fuel : Nat) (path : List Byte) (h : path.length ≤ fuel) :
    pathElems fuel path = components path := by
  induction fuel generalizing path with
  | zero =>
    obtain rfl : path = [] := List.length_eq_zero_iff.mp (Nat.le_zero.mp h)
    rfl
  | succ fuel ih =>
    rw [pathElems]
    cases hskip : skipelem path with
    | none => rw [components, skipelem_none hskip]; rfl
    | some p =>
      obtain ⟨e, hpath, hname, hlen⟩ := skipelem_some hskip
      rw [components, hpath, List.map_cons, ← hname]
      exact congrArg (p.1 :: ·) (ih p.2 (by omega))

end Xv6
