import Xv6.Circular

section

variable {α : Type}

/-- The pointers of a circular doubly linked list. The head, which is no element, is none. -/
structure Links (α : Type) where
  next : Option α → Option α
  prev : Option α → Option α

namespace Links

/-- The first element from x on that good accepts; none if the turns do not suffice to come to the
head. -/
def scan (step : Option α → Option α) (good : α → Bool) : Nat → Option α → Option (Option α)
  | 0, _ => none
  | _ + 1, none => some none
  | n + 1, some a => if good a then some (some a) else scan step good n (step (some a))

/-- The head and the elements in their order. -/
def nodes (order : List α) : List (Option α) := none :: order.map some

/-- Following next from the head visits the elements of the list in their order and comes back to
the head, and prev leads the other way round. -/
structure Ring (l : Links α) (order : List α) : Prop where
  circular : Circular l.next (nodes order)
  inverse : ∀ x ∈ nodes order, l.prev (l.next x) = x
  nodup : order.Nodup

variable {l : Links α} {step : Option α → Option α} {good : α → Bool} {order pre : List α} {a : α}
  {x y : Option α}
  {n : Nat}

theorem nodes_nodup (h : order.Nodup) : (nodes order).Nodup :=
  List.nodup_cons.mpr ⟨by simp, h.map fun _ _ he => Option.some.inj he⟩

@[simp] theorem some_mem_nodes : some a ∈ nodes order ↔ a ∈ order := by
  simp [nodes]

@[simp] theorem none_mem_nodes : none ∈ nodes order := by
  simp [nodes]

theorem nodes_append : nodes (pre ++ order) = nodes pre ++ order.map some := by
  simp [nodes]

theorem step_last {front : List (Option α)} (h : Circular step (nodes (pre ++ order)))
    (hx : nodes pre = front ++ [x]) :
    step x = order.head? := by
  rw [nodes_append, hx, List.append_assoc] at h
  cases order with
  | nil =>
    cases front with
    | nil =>
      obtain rfl : none = x := (List.cons.inj hx).1
      exact Circular.singleton_iff.mp h
    | cons b front =>
      obtain rfl : none = b := (List.cons.inj hx).1
      exact Circular.next_last h
  | cons b order => exact Circular.next_eq h

theorem scan_rest (h : Circular step (nodes (pre ++ order))) (hn : order.length < n) :
    scan step good n order.head? = some (order.find? good) := by
  induction order generalizing pre n with
  | nil =>
    cases n with
    | zero => omega
    | succ n => rfl
  | cons b order ih =>
    cases n with
    | zero => omega
    | succ n =>
      have hrest : Circular step (nodes ((pre ++ [b]) ++ order)) := by simpa using h
      have hstep : step (some b) = order.head? := step_last hrest nodes_append
      simp only [List.head?_cons, scan, List.find?_cons, hstep]
      split
      next hgood => simp [hgood]
      next hgood =>
        rw [ih hrest (by simpa using hn)]
        simp [hgood]

theorem scan_eq (h : Circular step (nodes order)) (hn : order.length < n) :
    scan step good n (step none) = some (order.find? good) := by
  have hall : Circular step (nodes ([] ++ order)) := h
  have hhead : nodes ([] : List α) = [] ++ [none] := rfl
  have hstep : step none = order.head? := step_last hall hhead
  rw [hstep]
  exact scan_rest hall hn

namespace Ring

theorem next_injective (h : l.Ring order) (hx : x ∈ nodes order) (hy : y ∈ nodes order)
    (heq : l.next x = l.next y) :
    x = y :=
  h.circular.injective (nodes_nodup h.nodup) hx hy heq

theorem next_prev (h : l.Ring order) (hx : x ∈ nodes order) : l.next (l.prev x) = x := by
  have hmem : x ∈ (nodes order).map l.next := by
    rw [h.circular]
    exact List.mem_rotate.mpr hx
  obtain ⟨y, hy, rfl⟩ := List.mem_map.mp hmem
  rw [h.inverse y hy]

theorem backward (h : l.Ring order) : Circular l.prev (nodes order.reverse) := by
  have hrev : Circular l.prev ((order.map some).reverse ++ [none]) := by
    have hinv := h.circular.inverse h.inverse
    rwa [nodes, List.reverse_cons] at hinv
  have hnodes := hrev.append_comm
  rwa [← List.map_reverse] at hnodes

theorem scan_next (h : l.Ring order) (hn : order.length < n) :
    scan l.next good n (l.next none) = some (order.find? good) :=
  scan_eq h.circular hn

theorem scan_prev (h : l.Ring order) (hn : order.length < n) :
    scan l.prev good n (l.prev none) = some (order.reverse.find? good) :=
  scan_eq h.backward (by simpa using hn)

end Ring

variable [DecidableEq α]

def setNext (l : Links α) (x y : Option α) : Links α :=
  { l with next := Function.update l.next x y }

def setPrev (l : Links α) (x y : Option α) : Links α :=
  { l with prev := Function.update l.prev x y }

/-- The head points to itself. -/
def initHead (l : Links α) : Links α := (l.setPrev none none).setNext none none

/-- An element is put between the head and the first one. -/
def insertFront (l : Links α) (a : α) : Links α :=
  let l := l.setNext (some a) (l.next none)
  let l := l.setPrev (some a) none
  let l := l.setPrev (l.next none) (some a)
  l.setNext none (some a)

/-- The neighbours of an element are linked to each other. -/
def unlink (l : Links α) (a : α) : Links α :=
  let l := l.setPrev (l.next (some a)) (l.prev (some a))
  l.setNext (l.prev (some a)) (l.next (some a))

namespace Ring

theorem initHead (l : Links α) : l.initHead.Ring [] := by
  refine ⟨Circular.singleton_iff.mpr ?_, ?_, List.nodup_nil⟩
  · simp [Links.initHead, setNext]
  · simp [nodes, Links.initHead, setNext, setPrev]

theorem insertFront (h : l.Ring order) (ha : a ∉ order) : (l.insertFront a).Ring (a :: order) := by
  have hnew : some a ∉ nodes order := by simpa using ha
  have hfirst : l.next none ∈ nodes order := h.circular.next_mem none_mem_nodes
  have hne : l.next none ≠ some a := fun he => hnew (he ▸ hfirst)
  have hnext : (l.insertFront a).next =
      Function.update (Function.update l.next (some a) (l.next none)) none (some a) := by
    simp [Links.insertFront, setNext, setPrev]
  have hprev : (l.insertFront a).prev =
      Function.update (Function.update l.prev (some a) none) (l.next none) (some a) := by
    simp [Links.insertFront, setNext, setPrev]
  refine ⟨?_, ?_, List.nodup_cons.mpr ⟨ha, h.nodup⟩⟩
  · rw [hnext]
    exact Circular.link (l := []) h.circular (nodes_nodup h.nodup) hnew
  · intro x hx
    rw [hnext, hprev]
    cases x with
    | none => simp [Ne.symm hne]
    | some b =>
      by_cases hb : b = a
      · simp [hb]
      · have hmem : some b ∈ nodes order := by
          simp only [some_mem_nodes, List.mem_cons] at hx ⊢
          exact hx.resolve_left hb
        have hother : l.next (some b) ≠ l.next none := fun he => by
          cases h.next_injective hmem none_mem_nodes he
        have hnota : l.next (some b) ≠ some a := fun he => hnew (he ▸ h.circular.next_mem hmem)
        simp [hb, hother, hnota, h.inverse _ hmem]

theorem foldl_insertFront {new : List α} (h : l.Ring order) (hnew : (new.reverse ++ order).Nodup) :
    (new.foldl Links.insertFront l).Ring (new.reverse ++ order) := by
  induction new generalizing l order with
  | nil => exact h
  | cons a new ih =>
    rw [List.reverse_cons, List.append_assoc] at hnew ⊢
    refine ih (h.insertFront ?_) hnew
    exact (List.nodup_cons.mp (List.nodup_append.mp hnew).2.1).1

/-- The other elements stay as they are, whether the element was first, last or in between. -/
theorem unlink (h : l.Ring order) (ha : a ∈ order) : (l.unlink a).Ring (order.erase a) := by
  obtain ⟨pre, post, horder⟩ := List.append_of_mem ha
  have hpre : a ∉ pre := by
    have hnodup := h.nodup
    rw [horder] at hnodup
    exact fun hin => (List.nodup_append.mp hnodup).2.2 a hin a List.mem_cons_self rfl
  have herase : order.erase a = pre ++ post := by
    rw [horder, List.erase_append_right _ hpre, List.erase_cons_head]
  obtain ⟨front, y, hfront⟩ : ∃ front y, nodes pre = front ++ [y] :=
    ⟨_, _, (List.dropLast_append_getLast (List.cons_ne_nil none (pre.map some))).symm⟩
  have hsplit : nodes order = front ++ y :: some a :: post.map some := by
    rw [horder, nodes_append, hfront]
    simp
  have hnodes := nodes_nodup h.nodup
  have hcircular := h.circular
  rw [hsplit] at hcircular hnodes
  have hy : y ∈ nodes order := by simp [hsplit]
  have hmem : some a ∈ nodes order := some_mem_nodes.mpr ha
  have hnext : l.next y = some a := hcircular.next_eq
  have hprev : l.prev (some a) = y := hnext ▸ h.inverse y hy
  have hya : y ≠ some a := by
    intro he
    rw [he] at hnodes
    exact (List.nodup_cons.mp (List.nodup_append.mp hnodes).2.1).1 List.mem_cons_self
  have hloop : l.next (some a) ≠ some a :=
    fun he => hya (h.next_injective hy hmem (hnext.trans he.symm))
  have hnext' : (l.unlink a).next = Function.update l.next y (l.next (some a)) := by
    simp [Links.unlink, setNext, setPrev, Ne.symm hloop, hprev]
  have hprev' : (l.unlink a).prev = Function.update l.prev (l.next (some a)) y := by
    simp [Links.unlink, setNext, setPrev, hprev]
  refine ⟨?_, ?_, h.nodup.erase a⟩
  · have hunlinked := hcircular.unlink hnodes
    rw [hnext', herase, nodes_append, hfront, List.append_assoc]
    exact hunlinked
  · intro x hx
    have hxa : x ≠ some a := by
      rintro rfl
      rw [some_mem_nodes] at hx
      exact h.nodup.not_mem_erase hx
    have hxo : x ∈ nodes order := by
      cases x with
      | none => exact none_mem_nodes
      | some b => exact some_mem_nodes.mpr (List.mem_of_mem_erase (some_mem_nodes.mp hx))
    rw [hnext', hprev']
    by_cases hxy : x = y
    · simp [hxy]
    · have hother : l.next x ≠ l.next (some a) := fun he => hxa (h.next_injective hxo hmem he)
      simp [hxy, hother, h.inverse x hxo]

theorem moveToFront (h : l.Ring order) (ha : a ∈ order) :
    ((l.unlink a).insertFront a).Ring (a :: order.erase a) :=
  (h.unlink ha).insertFront h.nodup.not_mem_erase

end Ring

end Links

end
