import Mathlib.Logic.Basic

/-- A computation that changes a state and may stop with an error. The state reached is kept
when it stops. -/
def Prog (ε σ α : Type) : Type := σ → Except ε α × σ

namespace Prog

variable {ε σ α β : Type}

instance : Monad (Prog ε σ) where
  pure a := fun s => (.ok a, s)
  bind x f := fun s => match x s with
    | (.ok a, t) => f a t
    | (.error e, t) => (.error e, t)

instance : MonadStateOf σ (Prog ε σ) where
  get := fun s => (.ok s, s)
  set t := fun _ => (.ok ⟨⟩, t)
  modifyGet f := fun s => (.ok (f s).1, (f s).2)

instance : MonadExceptOf ε (Prog ε σ) where
  throw e := fun s => (.error e, s)
  tryCatch x f := fun s => match x s with
    | (.ok a, t) => (.ok a, t)
    | (.error e, t) => f e t

/-- Runs a computation on a part of a larger state. -/
def zoom {τ : Type} (part : τ → σ) (put : σ → τ → τ) (x : Prog ε σ α) : Prog ε τ α := fun t =>
  match x (part t) with
  | (r, s) => (r, put s t)

/-- The same computation with the errors of a larger type. -/
def mapError {ε' : Type} (f : ε → ε') (x : Prog ε σ α) : Prog ε' σ α := fun s =>
  match x s with
  | (.ok a, t) => (.ok a, t)
  | (.error e, t) => (.error (f e), t)

/-- Started in s, the computation ends well with Q or stops with E. -/
def wp (x : Prog ε σ α) (Q : α → σ → Prop) (E : ε → σ → Prop) (s : σ) : Prop :=
  match x s with
  | (.ok a, t) => Q a t
  | (.error e, t) => E e t

variable {Q R : α → σ → Prop} {E F : ε → σ → Prop} {s t : σ} {x : Prog ε σ α} {a : α}

@[simp] theorem wp_pure : wp (pure a : Prog ε σ α) Q E s ↔ Q a s := Iff.rfl

@[simp] theorem wp_throw {e : ε} : wp (throw e : Prog ε σ α) Q E s ↔ E e s := Iff.rfl

@[simp] theorem wp_get {Q : σ → σ → Prop} : wp (get : Prog ε σ σ) Q E s ↔ Q s s := Iff.rfl

@[simp] theorem wp_set {Q : PUnit → σ → Prop} :
    wp (set t : Prog ε σ PUnit) Q E s ↔ Q ⟨⟩ t := Iff.rfl

@[simp] theorem wp_modify {f : σ → σ} {Q : PUnit → σ → Prop} :
    wp (modify f : Prog ε σ PUnit) Q E s ↔ Q ⟨⟩ (f s) := Iff.rfl

@[simp] theorem wp_bind {f : α → Prog ε σ β} {Q : β → σ → Prop} :
    wp (x >>= f) Q E s ↔ wp x (fun a t => wp (f a) Q E t) E s := by
  simp only [wp, bind]
  rcases x s with ⟨_ | _, _⟩ <;> rfl

@[simp] theorem wp_map {f : α → β} {Q : β → σ → Prop} :
    wp (f <$> x) Q E s ↔ wp x (fun a t => Q (f a) t) E s := by
  simp only [wp, Functor.map]
  rcases x s with ⟨_ | _, _⟩ <;> rfl

@[simp] theorem wp_zoom {τ : Type} {part : τ → σ} {put : σ → τ → τ} {Q : α → τ → Prop}
    {E : ε → τ → Prop} {t : τ} :
    wp (zoom part put x) Q E t ↔
      wp x (fun a s => Q a (put s t)) (fun e s => E e (put s t)) (part t) := by
  simp only [wp, zoom]
  rcases x (part t) with ⟨_ | _, _⟩ <;> rfl

@[simp] theorem wp_mapError {ε' : Type} {f : ε → ε'} {E : ε' → σ → Prop} :
    wp (mapError f x) Q E s ↔ wp x Q (fun e t => E (f e) t) s := by
  simp only [wp, mapError]
  rcases x s with ⟨_ | _, _⟩ <;> rfl

theorem wp_ok {t : σ} (h : x s = (.ok a, t)) : wp x Q E s ↔ Q a t := by
  simp [wp, h]

theorem wp_mono (h : wp x Q E s) (hq : ∀ a t, Q a t → R a t) (he : ∀ e t, E e t → F e t) :
    wp x R F s := by
  unfold wp at *
  generalize x s = r at *
  rcases r with ⟨e | a, t⟩
  · exact he e t h
  · exact hq a t h

theorem wp_imp (h : wp x Q E s) (hq : ∀ a t, Q a t → R a t) : wp x R E s :=
  wp_mono h hq fun _ _ he => he

theorem wp_true (s : σ) : wp x (fun _ _ => True) (fun _ _ => True) s := by
  unfold wp
  split <;> trivial

theorem wp_and (h : wp x Q E s) (h' : wp x R F s) :
    wp x (fun a t => Q a t ∧ R a t) (fun e t => E e t ∧ F e t) s := by
  unfold wp at *
  generalize x s = r at *
  rcases r with ⟨e | a, t⟩
  · exact ⟨h, h'⟩
  · exact ⟨h, h'⟩

theorem wp_ite {c : Prop} [Decidable c] {y : Prog ε σ α} (ht : c → wp x Q E s)
    (hf : ¬ c → wp y Q E s) :
    wp (if c then x else y) Q E s := by
  by_cases h : c
  · simpa [h] using ht h
  · simpa [h] using hf h

/-- A loop over a list keeps an invariant that speaks about the part already done. -/
theorem wp_forM {f : β → Prog ε σ PUnit} {l : List β} (I : List β → σ → Prop) (init : I [] s)
    (keep : ∀ pre b post t, l = pre ++ b :: post → I pre t →
      wp (f b) (fun _ u => I (pre ++ [b]) u) E t) :
    wp (forM l f) (fun _ t => I l t) E s := by
  suffices h : ∀ post pre s, l = pre ++ post → I pre s →
    wp (forM post f) (fun _ t => I l t) E s from
    h l [] s rfl init
  intro post
  induction post with
  | nil =>
    intro pre s hl hi
    simpa [hl] using hi
  | cons b post ih =>
    intro pre s hl hi
    rw [List.forM_cons, wp_bind]
    refine wp_imp (keep pre b post s hl hi) fun _ t ht => ?_
    exact ih (pre ++ [b]) t (by simp [hl]) ht

/-- Started in s, the computation ends well with a in t. -/
def Returns (x : Prog ε σ α) (s : σ) (a : α) (t : σ) : Prop := x s = (.ok a, t)

theorem returns_get : Returns (get : Prog ε σ σ) s s s := rfl

theorem returns_pure : Returns (pure a : Prog ε σ α) s a s := rfl

theorem returns_modify {f : σ → σ} : Returns (modify f : Prog ε σ PUnit) s ⟨⟩ (f s) := rfl

theorem Returns.bind {f : α → Prog ε σ β} {b : β} {u : σ} (h : Returns x s a t)
    (hf : Returns (f a) t b u) :
    Returns (x >>= f) s b u := by
  unfold Returns at *
  simp [Bind.bind, h, hf]

theorem Returns.of_bind {f : α → Prog ε σ β} {b : β} {u : σ} (h : Returns (x >>= f) s b u) :
    ∃ a t, Returns x s a t ∧ Returns (f a) t b u := by
  unfold Returns at *
  simp only [Bind.bind] at h
  split at h
  next a t hx => exact ⟨a, t, hx, h⟩
  next => cases h

theorem Returns.unique {b : α} {u : σ} (h : Returns x s a t) (h' : Returns x s b u) :
    a = b ∧ t = u := by
  obtain ⟨hab, htu⟩ := Prod.mk.inj (h.symm.trans h')
  exact ⟨Except.ok.inj hab, htu⟩

theorem Returns.of_wp (h : wp x Q (fun _ _ => False) s) : ∃ a t, Returns x s a t ∧ Q a t := by
  unfold wp at h
  split at h
  next a t hx => exact ⟨a, t, hx, h⟩
  next => exact h.elim

theorem bind_ok {f : α → Prog ε σ β} (h : x s = (.ok a, t)) : (x >>= f) s = f a t := by
  simp [Bind.bind, h]

theorem Returns.map {f : α → β} (h : Returns x s a t) : Returns (f <$> x) s (f a) t := by
  unfold Returns at *
  simp only [Functor.map, h]
  rfl

/-- One step after the other for the elements of a list, until a step fails. -/
def whileSome (step : α → β → Prog ε σ (Option α)) : α → List β → Prog ε σ (Option α)
  | a, [] => pure (some a)
  | a, b :: l => do
    match ← step a b with
    | none => pure none
    | some a => whileSome step a l

theorem whileSome_nil {step : α → β → Prog ε σ (Option α)} :
    Returns (whileSome step a []) s (some a) s := rfl

theorem Returns.whileSome_stop {step : α → β → Prog ε σ (Option α)} {b : β} {l : List β}
    (h : Returns (step a b) s none t) : Returns (whileSome step a (b :: l)) s none t :=
  h.bind returns_pure

theorem Returns.whileSome_cons {step : α → β → Prog ε σ (Option α)} {a' : α} {b : β} {l : List β}
    {o : Option α} {u : σ} (h : Returns (step a b) s (some a') t)
    (hl : Returns (whileSome step a' l) t o u) :
    Returns (whileSome step a (b :: l)) s o u :=
  h.bind hl

end Prog
