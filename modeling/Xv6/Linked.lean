import Mathlib.Data.Fintype.Card
import Mathlib.Logic.Function.Basic

section

variable {α : Type} {next : α → Option α} {h : Option α} {a b : α} {l : List α}

/-- Following next from h visits the elements of the list, and ends. -/
def Linked (next : α → Option α) : Option α → List α → Prop
  | none, [] => True
  | some a, b :: l => a = b ∧ Linked next (next a) l
  | _, _ => False

namespace Linked

/-- The last element reached from a, if it is among the first ones. -/
def lastFrom (next : α → Option α) : Nat → α → Option α
  | 0, _ => none
  | k + 1, a => match next a with
    | none => some a
    | some b => lastFrom next k b

theorem nil_iff : Linked next h [] ↔ h = none := by
  cases h <;> simp [Linked]

theorem cons_iff : Linked next h (a :: l) ↔ h = some a ∧ Linked next (next a) l := by
  cases h with
  | none => simp [Linked]
  | some b =>
    simp only [Linked, Option.some.injEq]
    constructor
    · rintro ⟨rfl, hl⟩
      exact ⟨rfl, hl⟩
    · rintro ⟨rfl, hl⟩
      exact ⟨rfl, hl⟩

theorem head_mem (hl : Linked next (some a) l) : a ∈ l := by
  cases l with
  | nil => simp [Linked] at hl
  | cons b l =>
    obtain ⟨hab, _⟩ := cons_iff.mp hl
    cases Option.some.inj hab
    exact List.mem_cons_self

theorem congr {next' : α → Option α} (hl : Linked next h l) (heq : ∀ a ∈ l, next' a = next a) :
    Linked next' h l := by
  induction l generalizing h with
  | nil => exact nil_iff.mpr (nil_iff.mp hl)
  | cons b l ih =>
    obtain ⟨rfl, hrest⟩ := cons_iff.mp hl
    refine cons_iff.mpr ⟨rfl, ?_⟩
    rw [heq b List.mem_cons_self]
    exact ih hrest fun a ha => heq a (List.mem_cons_of_mem b ha)

variable [DecidableEq α]

theorem update (hl : Linked next h l) (ha : a ∉ l) (x : Option α) :
    Linked (Function.update next a x) h l := by
  refine hl.congr fun b hb => Function.update_of_ne ?_ ..
  rintro rfl
  exact ha hb

omit [DecidableEq α] in
theorem lastFrom_eq {k : Nat} (hl : Linked next (some a) l) (hk : l.length ≤ k) :
    lastFrom next k a = l.getLast? := by
  induction l generalizing a k with
  | nil => simp [Linked] at hl
  | cons b l ih =>
    obtain ⟨hab, hrest⟩ := cons_iff.mp hl
    cases Option.some.inj hab
    cases k with
    | zero => simp at hk
    | succ k =>
      unfold lastFrom
      cases l with
      | nil =>
        rw [nil_iff.mp hrest]
        rfl
      | cons c l =>
        have hc : next b = some c := (cons_iff.mp hrest).1
        rw [hc] at hrest ⊢
        rw [List.getLast?_cons_cons]
        exact ih hrest (by simpa using hk)

theorem snoc {c : α} (hl : Linked next h (l ++ [a])) (hnodup : (l ++ [a]).Nodup) (hc : c ∉ l ++ [a])
    (hn : next c = none) :
    Linked (Function.update next a (some c)) h (l ++ [a] ++ [c]) := by
  induction l generalizing h with
  | nil =>
    obtain ⟨rfl, _⟩ := cons_iff.mp hl
    have hca : c ≠ a := fun he => hc (by simp [he])
    refine cons_iff.mpr ⟨rfl, ?_⟩
    rw [Function.update_self]
    refine cons_iff.mpr ⟨rfl, ?_⟩
    rw [Function.update_of_ne hca, hn]
    trivial
  | cons b l ih =>
    obtain ⟨rfl, hrest⟩ := cons_iff.mp hl
    obtain ⟨hb, hnodup⟩ := List.nodup_cons.mp hnodup
    have hba : b ≠ a := fun he => hb (by simp [he])
    refine cons_iff.mpr ⟨rfl, ?_⟩
    rw [Function.update_of_ne hba]
    exact ih hrest hnodup fun hm => hc (List.mem_cons_of_mem b hm)

end Linked

end
