import Mathlib.Data.List.FinRange
import Mathlib.Data.List.Induction
import Mathlib.Order.Fin.Basic
import Xv6.ProcSteps

namespace Xv6

/-- One pass of the loop of scheduler that looks for the process to run. -/
def Table.better (t : Table) (best : Option Slot) (p : Slot) : Option Slot :=
  if (t.proc p).state ≠ .runnable then best
  else
    match best with
    | none => some p
    | some b => if (t.proc p).priority < (t.proc b).priority then some p else some b

def Table.highestPriority (t : Table) : Option Slot := (List.finRange NPROC).foldl t.better none

/-- The first of the RUNNABLE processes of the list with the smallest priority number. -/
structure Table.Best (t : Table) (l : List Slot) (b : Slot) : Prop where
  listed : b ∈ l
  runnable : (t.proc b).state = .runnable
  least : ∀ q ∈ l, (t.proc q).state = .runnable → (t.proc b).priority ≤ (t.proc q).priority
  first : ∀ q ∈ l, (t.proc q).state = .runnable → (t.proc q).priority = (t.proc b).priority → b ≤ q

theorem Table.Best.later {t : Table} {l : List Slot} {p : Slot}
    (hrun : (t.proc p).state = .runnable)
    (hbeats : ∀ q ∈ l, (t.proc q).state = .runnable → (t.proc p).priority < (t.proc q).priority) :
    t.Best (l ++ [p]) p := by
  refine ⟨by simp, hrun, fun q hq hqrun => ?_, fun q hq hqrun heq => ?_⟩
  · rcases List.mem_append.mp hq with hq | hq
    · exact Int.le_of_lt (hbeats q hq hqrun)
    · rw [List.mem_singleton.mp hq]
  · rcases List.mem_append.mp hq with hq | hq
    · have hlt := hbeats q hq hqrun
      omega
    · rw [List.mem_singleton.mp hq]

theorem Table.Best.earlier {t : Table} {l : List Slot} {b p : Slot} (hbest : t.Best l b)
    (hbp : b ≤ p) (hp : (t.proc p).state = .runnable → (t.proc b).priority ≤ (t.proc p).priority) :
    t.Best (l ++ [p]) b := by
  refine ⟨by simp [hbest.listed], hbest.runnable, fun q hq hqrun => ?_, fun q hq hqrun heq => ?_⟩
  · rcases List.mem_append.mp hq with hq | hq
    · exact hbest.least q hq hqrun
    · rw [List.mem_singleton.mp hq] at hqrun ⊢
      exact hp hqrun
  · rcases List.mem_append.mp hq with hq | hq
    · exact hbest.first q hq hqrun heq
    · rw [List.mem_singleton.mp hq]
      exact hbp

theorem foldl_better {t : Table} {l : List Slot} (hl : l.Pairwise (· < ·)) :
    (l.foldl t.better none = none ∧ ∀ q ∈ l, (t.proc q).state ≠ .runnable) ∨
      ∃ b, l.foldl t.better none = some b ∧ t.Best l b := by
  induction l using List.reverseRecOn with
  | nil => exact Or.inl ⟨rfl, by simp⟩
  | append_singleton l p ih =>
    obtain ⟨hsorted, _, hlast⟩ := List.pairwise_append.mp hl
    rw [List.foldl_append]
    simp only [List.foldl_cons, List.foldl_nil]
    rcases ih hsorted with ⟨hnone, hidle⟩ | ⟨b, hb, hbest⟩
    · by_cases hrun : (t.proc p).state = .runnable
      · exact Or.inr ⟨p, by simp [Table.better, hrun, hnone], .later hrun fun q hq hqrun => absurd hqrun (hidle q hq)⟩
      · refine Or.inl ⟨by simp [Table.better, hrun, hnone], fun q hq => ?_⟩
        rcases List.mem_append.mp hq with hq | hq
        · exact hidle q hq
        · rw [List.mem_singleton.mp hq]
          exact hrun
    · have hbp : b ≤ p := le_of_lt (hlast b hbest.listed p (by simp))
      by_cases hbeats : (t.proc p).state = .runnable ∧ (t.proc p).priority < (t.proc b).priority
      · refine Or.inr ⟨p, by simp [Table.better, hb, hbeats], .later hbeats.1 fun q hq hqrun => ?_⟩
        have hle := hbest.least q hq hqrun
        omega
      · refine Or.inr ⟨b, ?_, hbest.earlier hbp fun hrun => ?_⟩
        · by_cases hrun : (t.proc p).state = .runnable
          · have hge : ¬ (t.proc p).priority < (t.proc b).priority := fun hlt => hbeats ⟨hrun, hlt⟩
            simp [Table.better, hb, hrun, hge]
          · simp [Table.better, hb, hrun]
        · by_contra hlt
          exact hbeats ⟨hrun, by omega⟩

/-- The scheduler takes the first entry among the RUNNABLE processes of the best level. -/
theorem highestPriority_best {t : Table} {b : Slot} (h : t.highestPriority = some b) :
    t.Best (List.finRange NPROC) b := by
  rcases foldl_better (t := t) (List.pairwise_lt_finRange NPROC) with ⟨hnone, _⟩ | ⟨c, hc, hbest⟩
  · exact absurd (h.symm.trans hnone) (by simp)
  · cases Option.some.inj (h.symm.trans hc)
    exact hbest

end Xv6
