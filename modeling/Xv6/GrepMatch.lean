import Mathlib.Computability.Language
import Xv6.Shell

namespace Xv6

open Computability

/-- Patterns and texts are C strings: the end of the list is where the zero is. -/
def matchesChar (c d : Char) : Bool := c = '.' || c = d

mutual

/-- Each call has less of the pattern, or the same and less of the text. -/
def matchhere : Text → Text → Bool
  | [], _ => true
  | c :: '*' :: re, text => matchstar c re text
  | ['$'], text => text.isEmpty
  | _ :: _, [] => false
  | c :: re, d :: text => matchesChar c d && matchhere re text
termination_by re text => (re.length, text.length, 0)

def matchstar (c : Char) : Text → Text → Bool
  | re, [] => matchhere re []
  | re, d :: text => matchhere re (d :: text) || (matchesChar c d && matchstar c re text)
termination_by re text => (re.length, text.length, 1)

end

/-- The loop of match. -/
def matchAnywhere (re : Text) : Text → Bool
  | [] => matchhere re []
  | d :: text => matchhere re (d :: text) || matchAnywhere re text

/-- The function match of the source. -/
def matchText : Text → Text → Bool
  | '^' :: re, text => matchhere re text
  | re, text => matchAnywhere re text

namespace Pattern

/-- The words of one item. -/
def item (c : Char) : Language Char := fun w => ∃ d, w = [d] ∧ (c = '.' ∨ c = d)

/-- The words of a pattern, read from the left. -/
def lang : Text → Language Char
  | [] => 1
  | c :: '*' :: re => (item c)∗ * lang re
  | ['$'] => 1
  | c :: re => item c * lang re

/-- The pattern ends in a $ that stands for the end of the text. -/
def toEnd : Text → Bool
  | [] => false
  | _ :: '*' :: re => toEnd re
  | ['$'] => true
  | _ :: re => toEnd re

/-- A word of the pattern at the beginning of the text. -/
def Begins (re text : Text) : Prop :=
  ∃ w rest, text = w ++ rest ∧ w ∈ lang re ∧ (toEnd re = true → rest = [])

/-- A word of the pattern in the text, at its beginning if the pattern says so. -/
def Occurs : Text → Text → Prop
  | '^' :: re, text => Begins re text
  | re, text => ∃ before rest, text = before ++ rest ∧ Begins re rest

theorem mem_item {c : Char} {w : Text} : w ∈ item c ↔ ∃ d, w = [d] ∧ (c = '.' ∨ c = d) := Iff.rfl

theorem matchesChar_iff {c d : Char} : matchesChar c d = true ↔ [d] ∈ item c := by
  simp [matchesChar, mem_item]

theorem cons_mem_item_mul {c d : Char} {w : Text} {L : Language Char} :
    d :: w ∈ item c * L ↔ [d] ∈ item c ∧ w ∈ L := by
  rw [Language.mem_mul]
  constructor
  · rintro ⟨a, ⟨e, rfl, he⟩, b, hb, hab⟩
    obtain ⟨rfl, rfl⟩ := List.cons.inj hab
    exact ⟨⟨e, rfl, he⟩, hb⟩
  · rintro ⟨hd, hw⟩
    exact ⟨[d], hd, w, hw, rfl⟩

theorem nil_notMem_item_mul {c : Char} {L : Language Char} : [] ∉ item c * L := by
  rw [Language.mem_mul]
  rintro ⟨a, ⟨e, rfl, _⟩, b, _, hab⟩
  cases hab

theorem cons_mem_item_kstar {c d : Char} {w : Text} :
    d :: w ∈ (item c)∗ ↔ [d] ∈ item c ∧ w ∈ (item c)∗ := by
  rw [← cons_mem_item_mul]
  have hunfold : (item c)∗ = 1 + item c * (item c)∗ :=
    Language.one_add_self_mul_kstar_eq_kstar (item c) |>.symm
  conv_lhs => rw [hunfold]
  rw [Language.mem_add]
  refine or_iff_right ?_
  rw [Language.mem_one]
  exact List.cons_ne_nil _ _

theorem begins_star {c : Char} {re text : Text} :
    Begins (c :: '*' :: re) text ↔ ∃ u v, text = u ++ v ∧ u ∈ (item c)∗ ∧ Begins re v := by
  unfold Begins
  rw [lang, toEnd]
  constructor
  · rintro ⟨w, rest, rfl, hw, hend⟩
    obtain ⟨u, hu, v, hv, rfl⟩ := Language.mem_mul.mp hw
    exact ⟨u, v ++ rest, List.append_assoc .., hu, v, rest, rfl, hv, hend⟩
  · rintro ⟨u, _, rfl, hu, w, rest, rfl, hw, hend⟩
    exact ⟨u ++ w, rest, (List.append_assoc ..).symm,
      Language.mem_mul.mpr ⟨u, hu, w, hw, rfl⟩, hend⟩

/-- The loop of matchstar tries each number of repetitions. -/
theorem matchstar_iff {c : Char} {re text : Text} (hre : ∀ t, matchhere re t = true ↔ Begins re t) :
    matchstar c re text = true ↔ Begins (c :: '*' :: re) text := by
  rw [begins_star]
  induction text with
  | nil =>
    rw [matchstar, hre]
    constructor
    · intro h
      exact ⟨[], [], rfl, Language.nil_mem_kstar _, h⟩
    · rintro ⟨u, v, huv, _, h⟩
      obtain ⟨_, rfl⟩ := List.append_eq_nil_iff.mp huv.symm
      exact h
  | cons d text ih =>
    rw [matchstar, Bool.or_eq_true, Bool.and_eq_true, hre, matchesChar_iff, ih]
    constructor
    · rintro (h | ⟨hd, u, v, rfl, hu, h⟩)
      · exact ⟨[], d :: text, rfl, Language.nil_mem_kstar _, h⟩
      · exact ⟨d :: u, v, rfl, cons_mem_item_kstar.mpr ⟨hd, hu⟩, h⟩
    · rintro ⟨u, v, huv, hu, h⟩
      cases u with
      | nil =>
        rw [List.nil_append] at huv
        exact .inl (huv ▸ h)
      | cons e u =>
        obtain ⟨rfl, rfl⟩ := List.cons.inj huv
        obtain ⟨hd, hu⟩ := cons_mem_item_kstar.mp hu
        exact .inr ⟨hd, u, v, rfl, hu, h⟩

theorem matchhere_iff (re text : Text) : matchhere re text = true ↔ Begins re text := by
  induction re using lang.induct generalizing text with
  | case1 =>
    rw [matchhere]
    exact ⟨fun _ => ⟨[], text, rfl, Language.mem_one _ |>.mpr rfl, nofun⟩, fun _ => rfl⟩
  | case2 c re ih =>
    rw [matchhere]
    exact matchstar_iff ih
  | case3 =>
    rw [matchhere, List.isEmpty_iff]
    unfold Begins
    rw [lang, toEnd]
    constructor
    · rintro rfl
      exact ⟨[], [], rfl, Language.mem_one _ |>.mpr rfl, fun _ => rfl⟩
    · rintro ⟨w, rest, rfl, hw, hend⟩
      rw [Language.mem_one _ |>.mp hw, hend rfl]
      rfl
  | case4 c re hstar hend ih =>
    have hlang : lang (c :: re) = item c * lang re := by
      rw [lang]
      · exact hstar
      · exact hend
    have htoEnd : toEnd (c :: re) = toEnd re := by
      rw [toEnd]
      · exact hstar
      · exact hend
    unfold Begins
    rw [hlang, htoEnd]
    cases text with
    | nil =>
      rw [matchhere]
      · refine ⟨nofun, ?_⟩
        rintro ⟨w, rest, hw, hin, _⟩
        obtain ⟨rfl, _⟩ := List.append_eq_nil_iff.mp hw.symm
        exact absurd hin nil_notMem_item_mul
      · exact hstar
      · exact hend
    | cons d text =>
      rw [matchhere]
      · rw [Bool.and_eq_true, matchesChar_iff, ih]
        constructor
        · rintro ⟨hd, w, rest, rfl, hw, hrest⟩
          exact ⟨d :: w, rest, rfl, cons_mem_item_mul.mpr ⟨hd, hw⟩, hrest⟩
        · rintro ⟨w, rest, hw, hin, hrest⟩
          cases w with
          | nil => exact absurd hin nil_notMem_item_mul
          | cons e w =>
            obtain ⟨rfl, rfl⟩ := List.cons.inj hw
            obtain ⟨hd, hw⟩ := cons_mem_item_mul.mp hin
            exact ⟨hd, w, rest, rfl, hw, hrest⟩
      · exact hstar
      · exact hend

theorem matchAnywhere_iff (re text : Text) :
    matchAnywhere re text = true ↔ ∃ before rest, text = before ++ rest ∧ Begins re rest := by
  induction text with
  | nil =>
    rw [matchAnywhere, matchhere_iff]
    constructor
    · exact fun h => ⟨[], [], rfl, h⟩
    · rintro ⟨before, rest, heq, h⟩
      obtain ⟨_, rfl⟩ := List.append_eq_nil_iff.mp heq.symm
      exact h
  | cons d text ih =>
    rw [matchAnywhere, Bool.or_eq_true, matchhere_iff, ih]
    constructor
    · rintro (h | ⟨before, rest, rfl, h⟩)
      · exact ⟨[], d :: text, rfl, h⟩
      · exact ⟨d :: before, rest, rfl, h⟩
    · rintro ⟨before, rest, heq, h⟩
      cases before with
      | nil =>
        rw [List.nil_append] at heq
        exact .inl (heq ▸ h)
      | cons e before =>
        obtain ⟨rfl, rfl⟩ := List.cons.inj heq
        exact .inr ⟨before, rest, rfl, h⟩

end Pattern

/-- The matcher decides whether a word of the pattern occurs in the text. -/
theorem matchText_iff_occurs (re text : Text) :
    matchText re text = true ↔ Pattern.Occurs re text := by
  unfold matchText Pattern.Occurs
  split
  next => exact Pattern.matchhere_iff _ _
  next => exact Pattern.matchAnywhere_iff _ _

end Xv6
