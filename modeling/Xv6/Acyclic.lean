import Mathlib.Data.Fintype.Card
import Mathlib.Data.Set.Finite.Basic
import Mathlib.Logic.Relation

namespace Acyclic

open Relation

variable {α : Type} {r : α → α → Prop} {a b : α}

theorem acc_of_reach (ha : Acc (fun x y => r y x) a) (h : ReflTransGen r a b) :
    Acc (fun x y => r y x) b := by
  induction h with
  | refl => exact ha
  | tail _ hstep ih => exact ih.inv hstep

theorem not_cycle_of_acc (ha : Acc (fun x y => r y x) a) : ¬ TransGen r a a := by
  induction ha with
  | intro a _ ih =>
    intro hcycle
    obtain ⟨c, hstep, hback⟩ := TransGen.head'_iff.mp hcycle
    exact ih c hstep (TransGen.tail' hback hstep)

/-- With finitely many elements in reach, a step relation comes to an end just when it leads to no
cycle. -/
theorem acc_iff (hfin : {b | ReflTransGen r a b}.Finite) :
    Acc (fun x y => r y x) a ↔ ∀ b, ReflTransGen r a b → ¬ TransGen r b b := by
  constructor
  · exact fun ha b hb => not_cycle_of_acc (acc_of_reach ha hb)
  · intro hno
    have : Finite {b // ReflTransGen r a b} := hfin
    let before : {b // ReflTransGen r a b} → {b // ReflTransGen r a b} → Prop :=
      fun x y => TransGen r y.1 x.1
    have : IsTrans _ before := ⟨fun _ _ _ hxy hyz => hyz.trans hxy⟩
    have : Std.Irrefl before := ⟨fun x => hno x.1 x.2⟩
    have hwf : WellFounded before := Finite.wellFounded_of_trans_of_irrefl before
    have hacc : ∀ x : {b // ReflTransGen r a b}, Acc (fun x y => r y x) x.1 := by
      intro x
      induction x using hwf.induction with
      | _ x ih => exact Acc.intro _ fun c hc => ih ⟨c, x.2.tail hc⟩ (TransGen.single hc)
    exact hacc ⟨a, .refl⟩

end Acyclic
