import Mathlib.Data.List.Rotate
import Mathlib.Logic.Function.Basic

section

variable {α : Type} {next next' : α → α} {a x y z : α} {l m : List α}

/-- Following next from any element of the list visits the others in order and comes back to it. -/
def Circular (next : α → α) (l : List α) : Prop := l.map next = l.rotate 1

namespace Circular

/-- The first element from a on that good accepts. -/
def find (next : α → α) (good : α → Bool) : Nat → α → Option α
  | 0, _ => none
  | n + 1, a => if good a then some a else find next good n (next a)

theorem cons_iff : Circular next (a :: l) ↔ next a :: l.map next = l ++ [a] := by
  simp [Circular]

theorem singleton_iff : Circular next [a] ↔ next a = a := by
  simp [cons_iff]

theorem append_comm (h : Circular next (l ++ m)) : Circular next (m ++ l) := by
  unfold Circular at h ⊢
  rw [← List.rotate_append_length_eq l m, List.map_rotate, h, List.rotate_rotate,
    List.rotate_rotate, Nat.add_comm]

theorem congr (h : Circular next l) (hl : ∀ x ∈ l, next' x = next x) : Circular next' l := by
  unfold Circular at h ⊢
  rw [← h]
  exact List.map_congr_left hl

theorem next_mem (h : Circular next l) (hx : x ∈ l) : next x ∈ l := by
  have hm : next x ∈ l.map next := List.mem_map_of_mem hx
  rw [h] at hm
  exact List.mem_rotate.mp hm

theorem injective (h : Circular next l) (hl : l.Nodup) (hx : x ∈ l) (hy : y ∈ l)
    (heq : next x = next y) : x = y := by
  have hnodup : (l.map next).Nodup := by
    rw [h]
    exact List.nodup_rotate.mpr hl
  exact List.inj_on_of_nodup_map hnodup hx hy heq

theorem next_eq (h : Circular next (l ++ x :: y :: m)) : next x = y := by
  have hx : Circular next (x :: (y :: (m ++ l))) := append_comm h
  exact (List.cons.inj (cons_iff.mp hx)).1

theorem next_last (h : Circular next (a :: (l ++ [x]))) : next x = a := by
  have hx : Circular next (x :: (a :: l)) := append_comm (l := a :: l) h
  exact (List.cons.inj (cons_iff.mp hx)).1

theorem pred (h : Circular next (l ++ y :: m)) (hl : (l ++ y :: m).Nodup) (hne : l ≠ [])
    (hx : x ∈ l ++ y :: m) (heq : next x = y) : ∃ k, l = k ++ [x] := by
  rcases List.eq_nil_or_concat l with hnil | ⟨k, z, hk⟩
  · exact absurd hnil hne
  · rw [List.concat_eq_append] at hk
    subst hk
    have hz : next z = y := by
      rw [List.append_assoc] at h
      exact h.next_eq
    exact ⟨k, by rw [h.injective hl hx (by simp) (heq.trans hz.symm)]⟩

/-- The inverse of next goes through the list from its end. -/
theorem inverse {prev : α → α} (h : Circular next l) (hinv : ∀ x ∈ l, prev (next x) = x) :
    Circular prev l.reverse := by
  have hback : (l.map prev).rotate 1 = l := by
    rw [← List.map_rotate, ← h, List.map_map]
    calc l.map (prev ∘ next) = l.map id := List.map_congr_left hinv
      _ = l := List.map_id l
  unfold Circular
  rw [List.map_reverse]
  cases hm : l.map prev with
  | nil => simp [List.map_eq_nil_iff.mp hm]
  | cons a t =>
    rw [hm] at hback
    rw [← hback]
    simp

variable [DecidableEq α]

theorem map_update (f : α → α) (hx : x ∉ l) (y : α) : l.map (Function.update f x y) = l.map f := by
  apply List.map_congr_left
  intro z hz
  have hzx : z ≠ x := by
    rintro rfl
    exact hx hz
  exact Function.update_of_ne hzx _ _

theorem unlink (h : Circular next (l ++ x :: y :: m)) (hl : (l ++ x :: y :: m).Nodup) :
    Circular (Function.update next x (next y)) (l ++ x :: m) := by
  have hx : Circular next (x :: (y :: (m ++ l))) := append_comm h
  have hrest := (List.cons.inj (cons_iff.mp hx)).2
  have hnot : x ∉ m ++ l := by
    have := (List.nodup_append_comm.mp hl)
    simp only [List.cons_append, List.nodup_cons, List.mem_cons, not_or] at this
    exact this.1.2
  have hnew : Circular (Function.update next x (next y)) (x :: (m ++ l)) := by
    refine cons_iff.mpr ?_
    rw [Function.update_self, map_update _ hnot]
    exact hrest
  exact append_comm (l := x :: m) hnew

theorem link (h : Circular next (l ++ x :: m)) (hl : (l ++ x :: m).Nodup) (hy : y ∉ l ++ x :: m) :
    Circular (Function.update (Function.update next y (next x)) x y) (l ++ x :: y :: m) := by
  have hx : Circular next (x :: (m ++ l)) := append_comm h
  have heq := cons_iff.mp hx
  have hyx : y ≠ x := fun he => hy (by simp [he])
  have hxnot : x ∉ m ++ l := by
    have := (List.nodup_append_comm.mp hl)
    simp only [List.cons_append, List.nodup_cons] at this
    exact this.1
  have hynot : y ∉ m ++ l := fun hm => hy (by
    rcases List.mem_append.mp hm with h | h
    · simp [h]
    · simp [h])
  have hnew : Circular (Function.update (Function.update next y (next x)) x y)
      (x :: (y :: (m ++ l))) := by
    refine cons_iff.mpr ?_
    rw [Function.update_self, List.map_cons, Function.update_of_ne hyx, Function.update_self,
      map_update _ hxnot, map_update _ hynot, heq]
    rfl
  exact append_comm (l := x :: y :: m) hnew

omit [DecidableEq α] in
theorem find_eq {good : α → Bool} {n : Nat} (h : Circular next (a :: l)) (hx : x ∈ a :: l)
    (hgood : good x = true) (hunique : ∀ y ∈ a :: l, good y = true → y = x) (hn : l.length < n) :
    find next good n a = some x := by
  obtain ⟨p, q, hpq⟩ := List.append_of_mem hx
  have hlen : p.length < n := by
    have := congrArg List.length hpq
    simp only [List.length_cons, List.length_append] at this
    omega
  rw [hpq] at hunique
  have hring : Circular next (p ++ x :: q) := hpq ▸ h
  have hhead : (p ++ x :: q).head? = some a := by rw [← hpq]; rfl
  clear hpq hx h hn
  induction p generalizing a q n with
  | nil =>
    obtain ⟨k, rfl⟩ : ∃ k, n = k + 1 := ⟨n - 1, by simp at hlen; omega⟩
    cases Option.some.inj hhead
    simp [find, hgood]
  | cons b p ih =>
    obtain ⟨k, rfl⟩ : ∃ k, n = k + 1 := ⟨n - 1, by simp at hlen; omega⟩
    cases Option.some.inj hhead
    unfold find
    split
    next hg => rw [hunique b (by simp) hg]
    next hg =>
      have hrot : Circular next (p ++ x :: (q ++ [b])) := by
        have := append_comm (l := [b]) hring
        simpa using this
      refine ih (q := q ++ [b]) ?_ (by simp at hlen; omega) hrot ?_
      · intro y hy
        exact hunique y (by
          simp only [List.mem_append, List.mem_cons, List.not_mem_nil, or_false] at hy ⊢
          tauto)
      · have heq := cons_iff.mp hring
        cases p with
        | nil => simpa using (List.cons.inj heq).1.symm
        | cons c p => simpa using (List.cons.inj heq).1.symm

end Circular

end
