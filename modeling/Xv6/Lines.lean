import Mathlib.Data.List.Basic

namespace Lines

variable {α : Type} [DecidableEq α] (sep : α)

/-- The lines of a stream that end in the separator, each with it, and what follows the last of
them. -/
def cut : List α → List (List α) × List α
  | [] => ([], [])
  | c :: t =>
    if c = sep then ([c] :: (cut t).1, (cut t).2)
    else match cut t with
      | ([], rest) => ([], c :: rest)
      | (l :: ls, rest) => ((c :: l) :: ls, rest)

variable {sep} {w t u : List α}

theorem cut_of_notMem (h : sep ∉ t) : cut sep t = ([], t) := by
  induction t with
  | nil => rfl
  | cons c t ih =>
    rw [List.mem_cons, not_or] at h
    rw [cut, if_neg (Ne.symm h.1), ih h.2]

theorem cut_line (h : sep ∉ w) :
    cut sep (w ++ sep :: t) = ((w ++ [sep]) :: (cut sep t).1, (cut sep t).2) := by
  induction w with
  | nil => rw [List.nil_append, cut, if_pos rfl, List.nil_append]
  | cons c w ih =>
    rw [List.mem_cons, not_or] at h
    rw [List.cons_append, cut, if_neg (Ne.symm h.1), ih h.2, List.cons_append]

theorem line_or_notMem (sep : α) (t : List α) : sep ∉ t ∨ ∃ w u, t = w ++ sep :: u ∧ sep ∉ w := by
  induction t with
  | nil => exact .inl List.not_mem_nil
  | cons c t ih =>
    by_cases hc : c = sep
    · exact .inr ⟨[], t, by rw [hc, List.nil_append], List.not_mem_nil⟩
    · rcases ih with h | ⟨w, u, rfl, hw⟩
      · exact .inl fun hm => (List.mem_cons.mp hm).elim (fun he => hc he.symm) h
      · exact .inr ⟨c :: w, u, rfl, fun hm => (List.mem_cons.mp hm).elim (fun he => hc he.symm) hw⟩

theorem lines_induction (sep : α) {P : List α → Prop} (rest : ∀ t, sep ∉ t → P t)
    (line : ∀ w t, sep ∉ w → P t → P (w ++ sep :: t)) (t : List α) : P t := by
  induction hn : t.length using Nat.strongRecOn generalizing t with
  | ind n ih =>
    rcases line_or_notMem sep t with h | ⟨w, u, rfl, hw⟩
    · exact rest t h
    · refine line w u hw (ih u.length ?_ u rfl)
      rw [← hn, List.length_append, List.length_cons]
      omega

theorem flatten_cut (sep : α) (t : List α) : (cut sep t).1.flatten ++ (cut sep t).2 = t := by
  induction t using lines_induction sep with
  | rest t h => rw [cut_of_notMem h]; rfl
  | line w t hw ih =>
    rw [cut_line hw, List.flatten_cons, List.append_assoc, ih, List.append_assoc]; rfl

theorem length_rest_le (sep : α) (t : List α) : (cut sep t).2.length ≤ t.length := by
  have h := congrArg List.length (flatten_cut sep t)
  rw [List.length_append] at h
  omega

theorem length_rest_lt (h : sep ∈ t) : (cut sep t).2.length < t.length := by
  rcases line_or_notMem sep t with hn | ⟨w, u, rfl, hw⟩
  · exact absurd h hn
  · have hu := length_rest_le sep u
    simp only [cut_line hw, List.length_append, List.length_cons]
    omega

theorem rest_subset (sep : α) (t : List α) : (cut sep t).2 ⊆ t := by
  intro c hc
  rw [← flatten_cut sep t]
  exact List.mem_append_right _ hc

theorem notMem_rest (sep : α) (t : List α) : sep ∉ (cut sep t).2 := by
  induction t using lines_induction sep with
  | rest t h => rwa [cut_of_notMem h]
  | line w t hw ih => rwa [cut_line hw]

theorem cut_append (sep : α) (t u : List α) :
    cut sep (t ++ u) =
      ((cut sep t).1 ++ (cut sep ((cut sep t).2 ++ u)).1, (cut sep ((cut sep t).2 ++ u)).2) := by
  induction t using lines_induction sep with
  | rest t h => rw [cut_of_notMem h]; rfl
  | line w t hw ih => rw [List.append_assoc, List.cons_append, cut_line hw, cut_line hw, ih]; rfl

/-- All lines of a stream; the last one may lack its separator. -/
def lines (sep : α) (t : List α) : List (List α) :=
  (cut sep t).1 ++ if (cut sep t).2 = [] then [] else [(cut sep t).2]

theorem lines_nil : lines sep ([] : List α) = [] := rfl

theorem lines_of_notMem (h : sep ∉ t) (hne : t ≠ []) : lines sep t = [t] := by
  simp only [lines, cut_of_notMem h, if_neg hne, List.nil_append]

theorem lines_line (h : sep ∉ w) : lines sep (w ++ sep :: t) = (w ++ [sep]) :: lines sep t := by
  simp only [lines, cut_line h, List.cons_append]

theorem lines_of_rest (h : (cut sep t).2 = []) : lines sep t = (cut sep t).1 := by
  rw [lines, if_pos h, List.append_nil]

theorem lines_of_rest_ne (h : (cut sep t).2 ≠ []) :
    lines sep t = (cut sep t).1 ++ [(cut sep t).2] := by
  rw [lines, if_neg h]

theorem flatten_lines (sep : α) (t : List α) : (lines sep t).flatten = t := by
  have h := flatten_cut sep t
  by_cases he : (cut sep t).2 = []
  · rwa [he, List.append_nil, ← lines_of_rest he] at h
  · rwa [lines_of_rest_ne he, List.flatten_append, List.flatten_singleton]

theorem lines_ne_nil (sep : α) (t : List α) : ∀ l ∈ lines sep t, l ≠ [] := by
  induction t using lines_induction sep with
  | rest t h =>
    intro l hl he
    by_cases hne : t = []
    · rw [hne, lines_nil] at hl
      exact List.not_mem_nil hl
    · rw [lines_of_notMem h hne, List.mem_singleton] at hl
      exact hne (hl ▸ he)
  | line w t hw ih =>
    intro l hl
    rw [lines_line hw] at hl
    rcases List.mem_cons.mp hl with rfl | hl
    · simp
    · exact ih l hl

end Lines
