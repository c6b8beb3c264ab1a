import Mathlib.Data.List.Induction

namespace Runs

variable {σ ι : Type}

theorem of_guard {α : Type} {c : Prop} [Decidable c] {a b : α}
    (h : (if c then some a else none) = some b) : c ∧ a = b := by
  obtain ⟨hc, he⟩ := Option.ite_none_right_eq_some.mp h
  exact ⟨hc, Option.some.inj he⟩

/-- The state after the labelled steps of a list, if none of them is refused. -/
def exec (step : σ → ι → Option σ) : σ → List ι → Option σ
  | s, [] => some s
  | s, e :: l => (step s e).bind fun t => exec step t l

theorem exec_append {step : σ → ι → Option σ} {s : σ} {pre post : List ι} :
    exec step s (pre ++ post) = (exec step s pre).bind fun t => exec step t post := by
  induction pre generalizing s with
  | nil => rfl
  | cons e l ih =>
    cases h : step s e with
    | none => simp [exec, h]
    | some t => simpa [exec, h] using ih

theorem exec_prefix {step : σ → ι → Option σ} {s u : σ} {pre post : List ι}
    (h : exec step s (pre ++ post) = some u) :
    ∃ t, exec step s pre = some t ∧ exec step t post = some u := by
  rw [exec_append] at h
  exact Option.bind_eq_some_iff.mp h

theorem exec_snoc {step : σ → ι → Option σ} {s t u : σ} {pre : List ι} {e : ι}
    (h : exec step s pre = some t) (he : step t e = some u) :
    exec step s (pre ++ [e]) = some u := by
  rw [exec_append, h]
  simp [exec, he]

/-- Every step of the run meets the condition, read in the state before it. -/
def Meets (step : σ → ι → Option σ) (P : σ → ι → Prop) (s : σ) (l : List ι) : Prop :=
  ∀ pre e post t, l = pre ++ e :: post → exec step s pre = some t → P t e

theorem Meets.take {step : σ → ι → Option σ} {P : σ → ι → Prop} {s : σ} {pre post : List ι}
    (h : Meets step P s (pre ++ post)) : Meets step P s pre := by
  intro before e after t heq hexec
  exact h before e (after ++ post) t (by simp [heq]) hexec

/-- Decides Meets by running the steps. -/
def meetsCheck (step : σ → ι → Option σ) (P : σ → ι → Prop) [∀ s e, Decidable (P s e)] :
    σ → List ι → Bool
  | _, [] => true
  | s, e :: l => decide (P s e) && match step s e with
    | some t => meetsCheck step P t l
    | none => true

theorem meets_of_check {step : σ → ι → Option σ} {P : σ → ι → Prop} [∀ s e, Decidable (P s e)]
    {s : σ} {l : List ι} (h : meetsCheck step P s l = true) : Meets step P s l := by
  induction l generalizing s with
  | nil =>
    intro pre e post t heq
    simp at heq
  | cons a l ih =>
    simp only [meetsCheck, Bool.and_eq_true, decide_eq_true_eq] at h
    intro pre e post t heq hpre
    cases pre with
    | nil =>
      obtain ⟨rfl, _⟩ := List.cons.inj heq
      cases Option.some.inj hpre
      exact h.1
    | cons b pre =>
      obtain ⟨rfl, hl⟩ := List.cons.inj heq
      obtain ⟨u, hu, hpre⟩ := Option.bind_eq_some_iff.mp hpre
      have hrest := h.2
      rw [hu] at hrest
      exact ih hrest pre e post t hl hpre

/-- An invariant that every admissible step keeps holds wherever a run of
admissible steps leads. -/
theorem invariant_of_meets {step : σ → ι → Option σ} {P : σ → ι → Prop} {I : σ → Prop} {s t : σ}
    {l : List ι} (init : I s) (keep : ∀ t e u, I t → P t e → step t e = some u → I u)
    (meets : Meets step P s l) (h : exec step s l = some t) : I t := by
  induction l using List.reverseRecOn generalizing t with
  | nil => cases Option.some.inj h; exact init
  | append_singleton l e ih =>
    obtain ⟨u, hu, he⟩ := exec_prefix h
    have hstep : step u e = some t := by simpa [exec] using he
    exact keep u e t (ih meets.take hu) (meets l e [] u rfl hu) hstep

theorem invariant {step : σ → ι → Option σ} {I : σ → Prop} {s t : σ} {l : List ι} (init : I s)
    (keep : ∀ t e u, I t → step t e = some u → I u) (h : exec step s l = some t) : I t :=
  invariant_of_meets (P := fun _ _ => True) init (fun t e u hi _ => keep t e u hi)
    (fun _ _ _ _ _ _ => trivial) h

/-- A run of admissible steps comes to its end if in the states of the invariant every such step can
be made. -/
theorem completes_of_meets {step : σ → ι → Option σ} {P : σ → ι → Prop} {I : σ → Prop} {s : σ}
    {l : List ι} (init : I s) (able : ∀ t e, I t → P t e → ∃ u, step t e = some u ∧ I u)
    (meets : Meets step P s l) :
    ∃ t, exec step s l = some t ∧ I t := by
  induction l using List.reverseRecOn with
  | nil => exact ⟨s, rfl, init⟩
  | append_singleton l e ih =>
    obtain ⟨t, ht, hi⟩ := ih meets.take
    obtain ⟨u, hu, hiu⟩ := able t e hi (meets l e [] t rfl ht)
    exact ⟨u, exec_snoc ht hu, hiu⟩

/-- When the steps that break a condition are just those after which J fails, J holds all along
a run exactly when its steps meet the condition. -/
theorem always_iff_meets {step : σ → ι → Option σ} {P : σ → ι → Prop} {I J : σ → Prop} {s t : σ}
    {l : List ι} (init : I s) (keep : ∀ t e u, I t → P t e → step t e = some u → I u)
    (good : ∀ t, I t → J t) (bad : ∀ t e u, J t → ¬ P t e → step t e = some u → ¬ J u)
    (h : exec step s l = some t) :
    (∀ pre post u, l = pre ++ post → exec step s pre = some u → J u) ↔ Meets step P s l := by
  constructor
  · intro hall pre e post u heq hpre
    by_contra hp
    have hl : l = (pre ++ [e]) ++ post := by simp [heq]
    obtain ⟨v, hv, _⟩ := exec_prefix (hl ▸ h)
    obtain ⟨w, hw, hstep⟩ := exec_prefix hv
    cases Option.some.inj (hpre.symm.trans hw)
    have hstep' : step u e = some v := by simpa [exec] using hstep
    exact bad u e v (hall pre (e :: post) u heq hpre) hp hstep' (hall (pre ++ [e]) post v hl hv)
  · intro hmeets pre post u heq hpre
    subst l
    exact good u (invariant_of_meets init keep hmeets.take hpre)

end Runs
