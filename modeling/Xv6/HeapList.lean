import Mathlib.Algebra.BigOperators.Group.List.Basic
import Mathlib.Algebra.GroupWithZero.Nat
import Mathlib.Data.List.Pairwise
import Xv6.Umalloc

namespace Xv6

/-- Two blocks that do not overlap, each with an address and a number of units. -/
def Apart (a m b n : Nat) : Prop := a + m * HEADER ≤ b ∨ b + n * HEADER ≤ a

/-- The free list l, with the blocks that are not on it; next and size are the headers. -/
structure FreeList (base brk units : Nat) (next size : Nat → Nat) (freep : Nat) (l : List Nat)
    (blocks : List (Nat × Nat)) : Prop where
  basePos : 0 < base
  head : l.head? = some base
  ring : Circular next l
  freepMem : freep ∈ l
  sorted : l.Pairwise fun a c => a + size a * HEADER < c
  baseSize : size base = 0
  free : ∀ a ∈ l, a ≠ base → 0 < size a ∧ base + HEADER ≤ a ∧ a + size a * HEADER ≤ brk
  block : ∀ b ∈ blocks, size b.1 = b.2 ∧ 0 < b.2 ∧ base + HEADER ≤ b.1 ∧ b.1 + b.2 * HEADER ≤ brk
  apart : ∀ a ∈ l, a ≠ base → ∀ b ∈ blocks, Apart a (size a) b.1 b.2
  blocksApart : blocks.Pairwise fun b c => Apart b.1 b.2 c.1 c.2
  unitSum : (l.map size).sum + (blocks.map Prod.snd).sum = units
  space : base + HEADER + units * HEADER ≤ brk
  brkBound : brk < 2 ^ 32

namespace FreeList

variable {base brk units freep p q bp n : Nat} {next size : Nat → Nat} {l lo hi : List Nat}
  {blocks : List (Nat × Nat)}

theorem base_mem (h : FreeList base brk units next size freep l blocks) : base ∈ l :=
  List.mem_of_head? h.head

theorem lt (h : FreeList base brk units next size freep l blocks) : l.Pairwise (· < ·) :=
  h.sorted.imp fun hac => by omega

theorem nodup (h : FreeList base brk units next size freep l blocks) : l.Nodup :=
  h.lt.imp fun hac => Nat.ne_of_lt hac

theorem base_le (h : FreeList base brk units next size freep l blocks) {a : Nat} (ha : a ∈ l) :
    base ≤ a := by
  by_cases hb : a = base
  · omega
  · have := (h.free a ha hb).2.1
    omega

theorem beside (h : FreeList base brk units next size freep l blocks) {a : Nat} (ha : a ∈ l)
    (hp : p ∈ l) (hne : a ≠ p) :
    a + size a * HEADER < p ∨ p + size p * HEADER < a := by
  have hsym : l.Pairwise fun a c => a + size a * HEADER < c ∨ c + size c * HEADER < a :=
    h.sorted.imp .inl
  have : Std.Symm fun a c => a + size a * HEADER < c ∨ c + size c * HEADER < a :=
    ⟨fun _ _ => Or.symm⟩
  exact hsym.forall ha hp hne

theorem reach (h : FreeList base brk units next size freep l ((bp, n) :: blocks)) {a : Nat}
    (ha : a ∈ l) :
    a + size a * HEADER ≤ bp ∨ bp + n * HEADER ≤ a := by
  have hbp := h.block (bp, n) List.mem_cons_self
  by_cases hb : a = base
  · left
    rw [hb, h.baseSize]
    simp only [HEADER] at *
    omega
  · exact h.apart a ha hb (bp, n) List.mem_cons_self

theorem ne_of_mem (h : FreeList base brk units next size freep l ((bp, n) :: blocks)) {a : Nat}
    (ha : a ∈ l) :
    a ≠ bp := by
  have hbp := h.block (bp, n) List.mem_cons_self
  rintro rfl
  by_cases hb : a = base
  · simp only [HEADER] at *
    omega
  · have hpos := (h.free a ha hb).1
    have hreach := h.reach ha
    simp only [HEADER] at *
    omega

theorem length_le (h : FreeList base brk units next size freep l blocks) :
    l.length < Heap.turns := by
  obtain ⟨rest, rfl⟩ : ∃ rest, l = base :: rest := List.head?_eq_some_iff.mp h.head
  have hbase : base ∉ rest := (List.nodup_cons.mp h.nodup).1
  have hsum : rest.length ≤ (rest.map size).sum := by
    have hpos : ∀ a ∈ rest, 0 < size a := by
      intro a ha
      refine (h.free a (List.mem_cons_of_mem _ ha) ?_).1
      rintro rfl
      exact hbase ha
    clear h hbase
    induction rest with
    | nil => simp
    | cons a rest ih =>
      have := ih fun c hc => hpos c (List.mem_cons_of_mem a hc)
      have := hpos a List.mem_cons_self
      simp only [List.length_cons, List.map_cons, List.sum_cons]
      omega
  have hunits := h.unitSum
  have hspace := h.space
  have hbrk := h.brkBound
  simp only [List.map_cons, List.sum_cons, h.baseSize, List.length_cons, HEADER, Heap.turns] at *
  omega

theorem split (h : FreeList base brk units next size freep l ((bp, n) :: blocks)) :
    ∃ lo p hi, l = lo ++ p :: hi ∧ (∀ a ∈ lo, a + size a * HEADER < p) ∧ p + size p * HEADER ≤ bp ∧
      ∀ c ∈ hi, bp + n * HEADER ≤ c := by
  have hbase : base + HEADER ≤ bp := (h.block (bp, n) List.mem_cons_self).2.2.1
  have hpos : 0 < n := (h.block (bp, n) List.mem_cons_self).2.1
  have hreach : ∀ a ∈ l, a + size a * HEADER ≤ bp ∨ bp + n * HEADER ≤ a := fun a ha => h.reach ha
  have hsorted := h.sorted
  obtain ⟨rest, hl⟩ := List.head?_eq_some_iff.mp h.head
  have hfirst : base + size base * HEADER ≤ bp := by
    rw [h.baseSize]
    omega
  rw [hl] at hreach hsorted ⊢
  generalize base = b at hfirst hreach hsorted
  clear hl h hbase
  induction rest generalizing b with
  | nil => exact ⟨[], b, [], rfl, by simp, hfirst, by simp⟩
  | cons c rest ih =>
    obtain ⟨hb, hrest⟩ := List.pairwise_cons.mp hsorted
    rcases hreach c (by simp) with hc | hc
    · obtain ⟨lo, p, hi, heq, hlo, hp, hhi⟩ :=
        ih c hc (fun a ha => hreach a (List.mem_cons_of_mem b ha)) hrest
      refine ⟨b :: lo, p, hi, by rw [heq]; rfl, ?_, hp, hhi⟩
      intro a ha
      rcases List.mem_cons.mp ha with rfl | ha
      · exact hb p (by rw [heq]; simp)
      · exact hlo a ha
    · refine ⟨[], b, c :: rest, rfl, by simp, hfirst, ?_⟩
      intro e he
      rcases List.mem_cons.mp he with rfl | he
      · exact hc
      · have := (List.pairwise_cons.mp hrest).1 e he
        omega

theorem next_last (h : FreeList base brk units next size freep l blocks) (hl : l = lo ++ [p]) :
    next p = base := by
  have hring := h.ring
  have hhead := h.head
  rw [hl] at hring hhead
  cases lo with
  | nil =>
    have hb : base = p := by simpa using hhead.symm
    rw [hb]
    exact Circular.singleton_iff.mp hring
  | cons c lo =>
    have hb : base = c := by simpa using hhead.symm
    rw [hb]
    exact Circular.next_last hring

/-- The loop of free stops at the last free block below bp. -/
theorem place_iff (h : FreeList base brk units next size freep l ((bp, n) :: blocks))
    (hl : l = lo ++ p :: hi) (hp : p < bp) (hhi : ∀ c ∈ hi, bp < c) {y : Nat} (hy : y ∈ l) :
    Heap.isPlace next bp y = true ↔ y = p := by
  have hbase : base + HEADER ≤ bp := (h.block (bp, n) List.mem_cons_self).2.2.1
  have hlt := h.lt
  have hside : ∀ z ∈ l, z ≤ p ∨ bp < z := by
    intro z hz
    rw [hl] at hz hlt
    rcases List.mem_append.mp hz with hz | hz
    · exact .inl (Nat.le_of_lt ((List.pairwise_append.mp hlt).2.2 z hz p List.mem_cons_self))
    · rcases List.mem_cons.mp hz with rfl | hz
      · exact .inl (Nat.le_refl _)
      · exact .inr (hhi z hz)
  obtain ⟨lo', hi', hy'⟩ := List.append_of_mem hy
  have hbelow : ∀ z ∈ lo', z < y := by
    intro z hz
    rw [hy'] at hlt
    exact (List.pairwise_append.mp hlt).2.2 z hz y List.mem_cons_self
  have hyside := hside y hy
  have hpl : p ∈ l := by simp [hl]
  simp only [Heap.isPlace, decide_eq_true_eq]
  cases hi' with
  | nil =>
    have hnext : next y = base := h.next_last hy'
    have hpy : p ≤ y := by
      rw [hy'] at hpl
      rcases List.mem_append.mp hpl with hm | hm
      · exact Nat.le_of_lt (hbelow p hm)
      · simpa using Nat.le_of_eq (List.mem_singleton.mp hm)
    have hby := h.base_le hy
    rw [hnext]
    omega
  | cons y' hi' =>
    have hnext : next y = y' := by
      have hring := h.ring
      rw [hy'] at hring
      exact hring.next_eq
    rw [hy'] at hlt
    have habove := (List.pairwise_cons.mp (List.pairwise_append.mp hlt).2.1)
    have hyy' : y < y' := habove.1 y' List.mem_cons_self
    have hy'l : y' ∈ l := by simp [hy']
    have hy'side := hside y' hy'l
    have hpside : p ≤ y ∨ y' ≤ p := by
      rw [hy'] at hpl
      rcases List.mem_append.mp hpl with hm | hm
      · exact .inl (Nat.le_of_lt (hbelow p hm))
      · rcases List.mem_cons.mp hm with rfl | hm
        · exact .inl (Nat.le_refl _)
        · rcases List.mem_cons.mp hm with rfl | hm
          · exact .inr (Nat.le_refl _)
          · exact .inr (Nat.le_of_lt ((List.pairwise_cons.mp habove.2).1 p hm))
    rw [hnext]
    omega

theorem find_place (h : FreeList base brk units next size freep l ((bp, n) :: blocks))
    (hl : l = lo ++ p :: hi) (hp : p < bp) (hhi : ∀ c ∈ hi, bp < c) :
    Circular.find next (Heap.isPlace next bp) Heap.turns freep = some p := by
  obtain ⟨lo', hi', hf⟩ := List.append_of_mem h.freepMem
  have hring : Circular next (freep :: (hi' ++ lo')) := by
    have := h.ring
    rw [hf] at this
    exact this.append_comm
  have hmem : ∀ y, y ∈ freep :: (hi' ++ lo') ↔ y ∈ l := by
    intro y
    rw [hf]
    simp only [List.mem_cons, List.mem_append]
    tauto
  have hlen : (hi' ++ lo').length < Heap.turns := by
    have := h.length_le
    rw [hf] at this
    simp only [List.length_append, List.length_cons] at this ⊢
    omega
  refine hring.find_eq ((hmem p).mpr (by simp [hl]))
    ((h.place_iff hl hp hhi (by simp [hl])).mpr rfl) ?_ hlen
  intro y hy
  exact (h.place_iff hl hp hhi ((hmem y).mp hy)).mp

theorem block_apart (h : FreeList base brk units next size freep l ((bp, n) :: blocks))
    {b : Nat × Nat} (hb : b ∈ blocks) : Apart bp n b.1 b.2 :=
  (List.pairwise_cons.mp h.blocksApart).1 b hb

theorem block_ne (h : FreeList base brk units next size freep l ((bp, n) :: blocks)) {b : Nat × Nat}
    (hb : b ∈ blocks) : b.1 ≠ bp := by
  have hbp : 0 < n := (h.block (bp, n) List.mem_cons_self).2.1
  have hpos := (h.block b (List.mem_cons_of_mem _ hb)).2.1
  have hapart := h.block_apart hb
  unfold Apart at hapart
  intro heq
  simp only [HEADER] at *
  omega

theorem head_mid {m m' : List Nat} {b : Nat} (h : (lo ++ p :: m).head? = some b) :
    (lo ++ p :: m').head? = some b := by
  cases lo <;> exact h

theorem absorb (h : FreeList base brk units next size freep l ((bp, n) :: blocks))
    (hl : l = lo ++ p :: q :: hi) (hq : bp + n * HEADER = q) :
    FreeList base brk units (Function.update next p (next q)) (Function.update size bp (n + size q))
      p (lo ++ p :: hi)
      ((bp, n + size q) :: blocks) := by
  obtain ⟨_, hpos, hlow, _⟩ := h.block (bp, n) List.mem_cons_self
  have hsublist : (lo ++ p :: hi).Sublist l := by
    rw [hl]
    exact List.Sublist.append_left ((List.sublist_cons_self q hi).cons_cons p) lo
  have hsub : ∀ a ∈ lo ++ p :: hi, a ∈ l := fun a ha => hsublist.subset ha
  have hql : q ∈ l := by simp [hl]
  have hqbase : q ≠ base := by
    simp only [HEADER] at *
    omega
  have hkeep : ∀ a ∈ l, Function.update size bp (n + size q) a = size a := fun a ha =>
    Function.update_of_ne (h.ne_of_mem ha) _ _
  have hsorted := h.sorted
  rw [hl] at hsorted
  obtain ⟨_, hrest, hcross⟩ := List.pairwise_append.mp hsorted
  obtain ⟨hp, hqhi⟩ := List.pairwise_cons.mp hrest
  have hfree := h.free q hql hqbase
  refine ⟨h.basePos, head_mid (hl ▸ h.head), ?_, by simp, ?_, ?_, ?_, ?_, ?_, ?_, ?_, h.space,
    h.brkBound⟩
  · exact (hl ▸ h.ring).unlink (hl ▸ h.nodup)
  · refine (h.sorted.sublist hsublist).imp_of_mem fun {a c} ha _ hac => ?_
    rw [hkeep a (hsub a ha)]
    exact hac
  · rw [hkeep _ h.base_mem]
    exact h.baseSize
  · intro a ha hne
    rw [hkeep a (hsub a ha)]
    exact h.free a (hsub a ha) hne
  · intro b hb
    rcases List.mem_cons.mp hb with rfl | hb
    · refine ⟨Function.update_self .., Nat.add_pos_left hpos _, hlow, ?_⟩
      simp only [HEADER] at *
      omega
    · rw [Function.update_of_ne (h.block_ne hb)]
      exact h.block b (List.mem_cons_of_mem _ hb)
  · intro a ha hne b hb
    rw [hkeep a (hsub a ha)]
    rcases List.mem_cons.mp hb with rfl | hb
    · have hreach := h.reach (hsub a ha)
      rw [← List.singleton_append, ← List.append_assoc] at ha
      unfold Apart
      rcases List.mem_append.mp ha with ha | ha
      · have hbelow : a + size a * HEADER < q := by
          rcases List.mem_append.mp ha with ha | ha
          · exact hcross a ha q (by simp)
          · rw [List.mem_singleton.mp ha]
            exact hp q (by simp)
        left
        omega
      · have habove := (List.pairwise_cons.mp hqhi).1 a ha
        right
        simp only [HEADER] at *
        omega
    · exact h.apart a (hsub a ha) hne b (List.mem_cons_of_mem _ hb)
  · obtain ⟨hhead, htail⟩ := List.pairwise_cons.mp h.blocksApart
    refine List.pairwise_cons.mpr ⟨fun b hb => ?_, htail⟩
    have hbp := hhead b hb
    have hbq := h.apart q hql hqbase b (List.mem_cons_of_mem _ hb)
    have hbpos := (h.block b (List.mem_cons_of_mem _ hb)).2.1
    unfold Apart at hbp hbq ⊢
    simp only [HEADER] at *
    omega
  · rw [Circular.map_update size (fun hm => h.ne_of_mem (hsub bp hm) rfl)]
    have hunits := h.unitSum
    rw [hl] at hunits
    simp only [List.map_append, List.map_cons, List.sum_append, List.sum_cons] at hunits ⊢
    omega

/-- A block with free space on neither side becomes an element of the list. -/
theorem insert (h : FreeList base brk units next size freep l ((bp, n) :: blocks))
    (hl : l = lo ++ p :: hi) (hp : p + size p * HEADER < bp)
    (hlo : ∀ a ∈ lo, a + size a * HEADER < p) (hhi : ∀ c ∈ hi, bp + n * HEADER < c) :
    FreeList base brk units (Function.update (Function.update next bp (next p)) p bp) size p
      (lo ++ p :: bp :: hi)
      blocks := by
  obtain ⟨hsize, hpos, hlow, hup⟩ := h.block (bp, n) List.mem_cons_self
  obtain ⟨hhead, htail⟩ := List.pairwise_cons.mp h.blocksApart
  have hmem : ∀ a ∈ lo ++ p :: bp :: hi, a = bp ∨ a ∈ l := by
    intro a ha
    rw [hl]
    simp only [List.mem_append, List.mem_cons] at ha ⊢
    tauto
  have hsorted := h.sorted
  rw [hl] at hsorted
  obtain ⟨hlo', hrest, hcross⟩ := List.pairwise_append.mp hsorted
  obtain ⟨hp', hhi'⟩ := List.pairwise_cons.mp hrest
  refine ⟨h.basePos, head_mid (hl ▸ h.head), ?_, by simp, ?_, h.baseSize, ?_, ?_, ?_, htail, ?_,
    h.space, h.brkBound⟩
  · exact (hl ▸ h.ring).link (hl ▸ h.nodup) fun hm => h.ne_of_mem (hl ▸ hm) rfl
  · refine List.pairwise_append.mpr ⟨hlo', ?_, ?_⟩
    · refine List.pairwise_cons.mpr ⟨?_, List.pairwise_cons.mpr ⟨?_, hhi'⟩⟩
      · intro c hc
        rcases List.mem_cons.mp hc with rfl | hc
        · exact hp
        · exact hp' c hc
      · intro c hc
        rw [hsize]
        exact hhi c hc
    · intro a ha c hc
      rcases List.mem_cons.mp hc with rfl | hc
      · exact hlo a ha
      · rcases List.mem_cons.mp hc with rfl | hc
        · have := hlo a ha
          omega
        · exact hcross a ha c (List.mem_cons_of_mem p hc)
  · intro a ha hne
    rcases hmem a ha with rfl | ha
    · rw [hsize]
      exact ⟨hpos, hlow, hup⟩
    · exact h.free a ha hne
  · exact fun b hb => h.block b (List.mem_cons_of_mem _ hb)
  · intro a ha hne b hb
    rcases hmem a ha with rfl | ha
    · rw [hsize]
      exact hhead b hb
    · exact h.apart a ha hne b (List.mem_cons_of_mem _ hb)
  · have hunits := h.unitSum
    rw [hl] at hunits
    simp only [List.map_append, List.map_cons, List.sum_append, List.sum_cons, hsize] at hunits ⊢
    omega

theorem grow (h : FreeList base brk units next size freep l ((bp, n) :: blocks))
    (hl : l = lo ++ p :: hi) (hp : p + size p * HEADER = bp) (hhi : ∀ c ∈ hi, bp + n * HEADER < c) :
    FreeList base brk units next (Function.update size p (size p + n)) p l blocks := by
  obtain ⟨hsize, hpos, hlow, hup⟩ := h.block (bp, n) List.mem_cons_self
  obtain ⟨hhead, htail⟩ := List.pairwise_cons.mp h.blocksApart
  have hpl : p ∈ l := by simp [hl]
  have hpbase : p ≠ base := by
    rintro rfl
    rw [h.baseSize] at hp
    simp only [HEADER] at *
    omega
  have hsorted := h.sorted
  have hnodup := h.nodup
  rw [hl] at hsorted hnodup
  obtain ⟨hlo', hrest, hcross⟩ := List.pairwise_append.mp hsorted
  obtain ⟨hp', hhi'⟩ := List.pairwise_cons.mp hrest
  have hplo : p ∉ lo := fun hm => (List.nodup_append.mp hnodup).2.2 p hm p (by simp) rfl
  have hphi : p ∉ hi := (List.nodup_cons.mp (List.nodup_append.mp hnodup).2.1).1
  have hkeep : ∀ a, a ≠ p → Function.update size p (size p + n) a = size a :=
    fun a ha => Function.update_of_ne ha _ _
  have hend : p + (size p + n) * HEADER = bp + n * HEADER := by
    simp only [HEADER] at *
    omega
  refine ⟨h.basePos, h.head, h.ring, hpl, ?_, ?_, ?_, ?_, ?_, htail, ?_, h.space, h.brkBound⟩
  · rw [hl]
    refine List.pairwise_append.mpr ⟨?_, List.pairwise_cons.mpr ⟨?_, ?_⟩, ?_⟩
    · refine hlo'.imp_of_mem fun {a c} ha _ hac => ?_
      rw [hkeep a fun he => hplo (he ▸ ha)]
      exact hac
    · intro c hc
      rw [Function.update_self, hend]
      exact hhi c hc
    · refine hhi'.imp_of_mem fun {a c} ha _ hac => ?_
      rw [hkeep a fun he => hphi (he ▸ ha)]
      exact hac
    · intro a ha c hc
      rw [hkeep a fun he => hplo (he ▸ ha)]
      exact hcross a ha c hc
  · rw [hkeep _ hpbase.symm]
    exact h.baseSize
  · intro a ha hne
    by_cases hap : a = p
    · subst hap
      have := h.free a ha hne
      rw [Function.update_self, hend]
      exact ⟨by omega, this.2.1, hup⟩
    · rw [hkeep a hap]
      exact h.free a ha hne
  · intro b hb
    have hbp : b.1 ≠ p := by
      intro he
      have hap := h.apart p hpl hpbase b (List.mem_cons_of_mem _ hb)
      have hbpos := (h.block b (List.mem_cons_of_mem _ hb)).2.1
      have hppos := (h.free p hpl hpbase).1
      unfold Apart at hap
      simp only [HEADER] at *
      omega
    rw [hkeep b.1 hbp]
    exact h.block b (List.mem_cons_of_mem _ hb)
  · intro a ha hne b hb
    have hab := h.apart a ha hne b (List.mem_cons_of_mem _ hb)
    by_cases hap : a = p
    · subst hap
      have hbb := hhead b hb
      have hbpos := (h.block b (List.mem_cons_of_mem _ hb)).2.1
      rw [Function.update_self]
      unfold Apart at hab hbb ⊢
      simp only [HEADER] at *
      omega
    · rw [hkeep a hap]
      exact hab
  · have hunits := h.unitSum
    rw [hl] at hunits ⊢
    simp only [List.map_append, List.map_cons, List.sum_append, List.sum_cons, Function.update_self,
      Circular.map_update size hplo, Circular.map_update size hphi] at hunits ⊢
    omega

theorem takeWhole {x : Nat} (h : FreeList base brk units next size freep l blocks)
    (hl : l = lo ++ x :: p :: hi) :
    FreeList base brk units (Function.update next x (next p)) size x (lo ++ x :: hi)
      ((p, size p) :: blocks) := by
  have hsublist : (lo ++ x :: hi).Sublist l := by
    rw [hl]
    exact List.Sublist.append_left ((List.sublist_cons_self p hi).cons_cons x) lo
  have hsub : ∀ a ∈ lo ++ x :: hi, a ∈ l := fun a ha => hsublist.subset ha
  have hpl : p ∈ l := by simp [hl]
  have hperm : l.Perm (p :: (lo ++ x :: hi)) := by
    rw [hl]
    simpa using @List.perm_middle _ p (lo ++ [x]) hi
  have hpnot : ∀ a ∈ lo ++ x :: hi, a ≠ p := by
    rintro a ha rfl
    exact (List.nodup_cons.mp (hperm.nodup_iff.mp h.nodup)).1 ha
  have hpbase : p ≠ base := by
    have hsorted := h.lt
    rw [hl] at hsorted
    have hx := (List.pairwise_cons.mp (List.pairwise_append.mp hsorted).2.1).1 p List.mem_cons_self
    have := h.base_le (by simp [hl] : x ∈ l)
    omega
  have hfree := h.free p hpl hpbase
  refine ⟨h.basePos, head_mid (hl ▸ h.head), (hl ▸ h.ring).unlink (hl ▸ h.nodup), by simp,
    h.sorted.sublist hsublist,
    h.baseSize, fun a ha => h.free a (hsub a ha), ?_, ?_, ?_, ?_, h.space, h.brkBound⟩
  · intro b hb
    rcases List.mem_cons.mp hb with rfl | hb
    · exact ⟨rfl, hfree⟩
    · exact h.block b hb
  · intro a ha hne b hb
    rcases List.mem_cons.mp hb with rfl | hb
    · exact (h.beside (hsub a ha) hpl (hpnot a ha)).imp Nat.le_of_lt Nat.le_of_lt
    · exact h.apart a (hsub a ha) hne b hb
  · exact List.pairwise_cons.mpr ⟨fun b hb => h.apart p hpl hpbase b hb, h.blocksApart⟩
  · have hunits := h.unitSum
    rw [hl] at hunits
    simp only [List.map_append, List.map_cons, List.sum_append, List.sum_cons] at hunits ⊢
    omega

theorem takeTail {f : Nat} (h : FreeList base brk units next size freep l blocks)
    (hl : l = lo ++ p :: hi) (hf : f ∈ l) (hpos : 0 < n) (hlt : n < size p) :
    FreeList base brk units next
      (Function.update (Function.update size p (size p - n)) (p + (size p - n) * HEADER) n) f l
      ((p + (size p - n) * HEADER, n) :: blocks) := by
  have hpl : p ∈ l := by simp [hl]
  have hpbase : p ≠ base := by
    rintro rfl
    rw [h.baseSize] at hlt
    omega
  have hfree := h.free p hpl hpbase
  have hnodup := h.nodup
  rw [hl] at hnodup
  have hplo : p ∉ lo := fun hm => (List.nodup_append.mp hnodup).2.2 p hm p (by simp) rfl
  have hphi : p ∉ hi := (List.nodup_cons.mp (List.nodup_append.mp hnodup).2.1).1
  generalize hq : p + (size p - n) * HEADER = q
  have hqp : p < q ∧ q + n * HEADER = p + size p * HEADER := by
    simp only [HEADER] at *
    omega
  have hql : ∀ a ∈ l, a ≠ q := by
    intro a ha
    by_cases hap : a = p
    · omega
    · have := h.beside ha hpl hap
      simp only [HEADER] at *
      omega
  have hkeep : ∀ a, a ≠ q → a ≠ p →
      Function.update (Function.update size p (size p - n)) q n a = size a := by
    intro a haq hap
    rw [Function.update_of_ne haq, Function.update_of_ne hap]
  have hself : Function.update (Function.update size p (size p - n)) q n p = size p - n := by
    rw [Function.update_of_ne (hql p hpl), Function.update_self]
  have hother : ∀ a ∈ l, a ≠ p →
    Function.update (Function.update size p (size p - n)) q n a = size a :=
    fun a ha hap => hkeep a (hql a ha) hap
  have hle : ∀ a ∈ l, Function.update (Function.update size p (size p - n)) q n a ≤ size a := by
    intro a ha
    by_cases hap : a = p
    · rw [hap, hself]
      omega
    · rw [hother a ha hap]
  refine ⟨h.basePos, h.head, h.ring, hf, ?_, ?_, ?_, ?_, ?_, ?_, ?_, h.space, h.brkBound⟩
  · refine h.sorted.imp_of_mem fun {a c} ha _ hac => ?_
    have := hle a ha
    simp only [HEADER] at *
    omega
  · rw [hother _ h.base_mem hpbase.symm]
    exact h.baseSize
  · intro a ha hne
    obtain ⟨ha0, ha1, ha2⟩ := h.free a ha hne
    have := hle a ha
    refine ⟨?_, ha1, ?_⟩
    · by_cases hap : a = p
      · rw [hap, hself]
        omega
      · rw [hother a ha hap]
        exact ha0
    · simp only [HEADER] at *
      omega
  · intro b hb
    rcases List.mem_cons.mp hb with rfl | hb
    · refine ⟨Function.update_self .., hpos, ?_, ?_⟩
      · have := hfree.2.1
        dsimp only
        omega
      · rw [hqp.2]
        exact hfree.2.2
    · have hab := h.apart p hpl hpbase b hb
      obtain ⟨hb0, hb1, hb2⟩ := h.block b hb
      rw [hkeep b.1 ?_ ?_]
      · exact ⟨hb0, hb1, hb2⟩
      · unfold Apart at hab
        simp only [HEADER] at *
        omega
      · unfold Apart at hab
        simp only [HEADER] at *
        omega
  · intro a ha hne b hb
    have hsize := hle a ha
    rcases List.mem_cons.mp hb with rfl | hb
    · unfold Apart
      by_cases hap : a = p
      · rw [hap, hself]
        left
        dsimp only
        omega
      · have := h.beside ha hpl hap
        simp only [HEADER] at *
        omega
    · have hab := h.apart a ha hne b hb
      unfold Apart at hab ⊢
      simp only [HEADER] at *
      omega
  · refine List.pairwise_cons.mpr ⟨fun b hb => ?_, h.blocksApart⟩
    have hab := h.apart p hpl hpbase b hb
    have hbpos := (h.block b hb).2.1
    unfold Apart at hab ⊢
    simp only [HEADER] at *
    omega
  · have hunits := h.unitSum
    rw [hl] at hunits ⊢
    have hqnot : q ∉ lo ++ p :: hi := fun hm => hql q (hl ▸ hm) rfl
    rw [Circular.map_update _ hqnot]
    simp only [List.map_append, List.map_cons, List.sum_append, List.sum_cons, Function.update_self,
      Circular.map_update size hplo, Circular.map_update size hphi] at hunits ⊢
    omega

theorem extend {a : Nat} (h : FreeList base brk units next size freep l blocks) (ha : brk ≤ a)
    (hpos : 0 < n) (hfit : a + n * HEADER < 2 ^ 32) :
    FreeList base (a + n * HEADER) (units + n) next (Function.update size a n) freep l
      ((a, n) :: blocks) := by
  have hspace := h.space
  have hbase : base ≠ a := by
    simp only [HEADER] at *
    omega
  have hlist : ∀ c ∈ l, c ≠ a := by
    intro c hc
    by_cases hcb : c = base
    · rw [hcb]
      exact hbase
    · have := h.free c hc hcb
      simp only [HEADER] at *
      omega
  have hkeep : ∀ c, c ≠ a → Function.update size a n c = size c :=
    fun c hc => Function.update_of_ne hc _ _
  refine ⟨h.basePos, h.head, h.ring, h.freepMem, ?_, ?_, ?_, ?_, ?_, ?_, ?_, ?_, hfit⟩
  · refine h.sorted.imp_of_mem fun {c e} hc _ hce => ?_
    rw [hkeep c (hlist c hc)]
    exact hce
  · rw [hkeep _ hbase]
    exact h.baseSize
  · intro c hc hne
    have := h.free c hc hne
    rw [hkeep c (hlist c hc)]
    exact ⟨this.1, this.2.1, by omega⟩
  · intro b hb
    rcases List.mem_cons.mp hb with rfl | hb
    · refine ⟨Function.update_self .., hpos, ?_, Nat.le_refl _⟩
      dsimp only
      omega
    · obtain ⟨hb0, hb1, hb2, hb3⟩ := h.block b hb
      rw [hkeep b.1 (by simp only [HEADER] at *; omega)]
      exact ⟨hb0, hb1, hb2, by omega⟩
  · intro c hc hne b hb
    rw [hkeep c (hlist c hc)]
    rcases List.mem_cons.mp hb with rfl | hb
    · left
      have := (h.free c hc hne).2.2
      dsimp only
      omega
    · exact h.apart c hc hne b hb
  · refine List.pairwise_cons.mpr ⟨fun b hb => ?_, h.blocksApart⟩
    right
    have := (h.block b hb).2.2.2
    dsimp only
    omega
  · rw [Circular.map_update size fun hm => hlist a hm rfl]
    have hunits := h.unitSum
    simp only [List.map_cons, List.sum_cons]
    omega
  · simp only [HEADER] at *
    omega

theorem setFreep (h : FreeList base brk units next size freep l blocks) (hp : p ∈ l) :
    FreeList base brk units next size p l blocks :=
  ⟨h.basePos, h.head, h.ring, hp, h.sorted, h.baseSize, h.free, h.block, h.apart, h.blocksApart,
    h.unitSum, h.space, h.brkBound⟩

theorem congr_next {next' : Nat → Nat} (h : FreeList base brk units next size freep l blocks)
    (hn : ∀ a ∈ l, next' a = next a) : FreeList base brk units next' size freep l blocks :=
  ⟨h.basePos, h.head, h.ring.congr hn, h.freepMem, h.sorted, h.baseSize, h.free, h.block, h.apart,
    h.blocksApart, h.unitSum, h.space, h.brkBound⟩

theorem perm {blocks' : List (Nat × Nat)} (h : FreeList base brk units next size freep l blocks)
    (hp : blocks.Perm blocks') : FreeList base brk units next size freep l blocks' := by
  refine ⟨h.basePos, h.head, h.ring, h.freepMem, h.sorted, h.baseSize, h.free,
    fun b hb => h.block b (hp.mem_iff.mpr hb),
    fun a ha hne b hb => h.apart a ha hne b (hp.mem_iff.mpr hb), ?_, ?_, h.space, h.brkBound⟩
  · exact (hp.pairwise_iff fun hbc => Or.symm hbc).mp h.blocksApart
  · rw [← h.unitSum, (hp.map Prod.snd).sum_eq]

end FreeList

/-- The m units from a on, byte by byte. -/
def Within (R : Nat → Prop) (a m : Nat) : Prop := ∀ x, a ≤ x → x < a + m * HEADER → R x

/-- The free blocks and those in use lie in the memory R. -/
structure Arena (R : Nat → Prop) (base : Nat) (size : Nat → Nat) (l : List Nat)
    (blocks : List (Nat × Nat)) : Prop where
  free : ∀ a ∈ l, a ≠ base → Within R a (size a)
  block : ∀ b ∈ blocks, Within R b.1 b.2

section Arenas

variable {R : Nat → Prop} {a b m n base brk units freep p q bp : Nat} {next size : Nat → Nat}
  {l lo hi : List Nat}
  {blocks : List (Nat × Nat)}

theorem Within.append (h : Within R a m) (h' : Within R (a + m * HEADER) n) :
    Within R a (m + n) := by
  intro x hlo hhi
  rw [Nat.add_mul] at hhi
  by_cases hx : x < a + m * HEADER
  · exact h x hlo hx
  · exact h' x (by omega) (by omega)

theorem Within.sub (h : Within R a m) (hlo : a ≤ b) (hhi : b + n * HEADER ≤ a + m * HEADER) :
    Within R b n :=
  fun x hx hx' => h x (by omega) (by omega)

namespace Arena

theorem absorb (ha : Arena R base size l ((bp, n) :: blocks))
    (h : FreeList base brk units next size freep l ((bp, n) :: blocks))
    (hl : l = lo ++ p :: q :: hi) (hq : bp + n * HEADER = q) :
    Arena R base (Function.update size bp (n + size q)) (lo ++ p :: hi)
      ((bp, n + size q) :: blocks) := by
  have hsub : ∀ c ∈ lo ++ p :: hi, c ∈ l := fun c hc => by
    rw [hl]
    exact (List.Sublist.append_left ((List.sublist_cons_self q hi).cons_cons p) lo).subset hc
  have hql : q ∈ l := by simp [hl]
  have hqbase : q ≠ base := by
    have := (h.block (bp, n) List.mem_cons_self).2.2.1
    simp only [HEADER] at *
    omega
  refine ⟨fun c hc hne => ?_,
    List.forall_mem_cons.mpr ⟨?_, fun c hc => ha.block c (List.mem_cons_of_mem _ hc)⟩⟩
  · rw [Function.update_of_ne (h.ne_of_mem (hsub c hc))]
    exact ha.free c (hsub c hc) hne
  · exact (ha.block (bp, n) List.mem_cons_self).append (hq ▸ ha.free q hql hqbase)

theorem grow (ha : Arena R base size l ((bp, n) :: blocks)) (hp : p + size p * HEADER = bp) :
    Arena R base (Function.update size p (size p + n)) l blocks := by
  refine ⟨fun c hc hne => ?_, fun c hc => ha.block c (List.mem_cons_of_mem _ hc)⟩
  by_cases hcp : c = p
  · subst hcp
    rw [Function.update_self]
    exact (ha.free c hc hne).append (hp ▸ ha.block (bp, n) List.mem_cons_self)
  · rw [Function.update_of_ne hcp]
    exact ha.free c hc hne

theorem insert (ha : Arena R base size l ((bp, n) :: blocks))
    (h : FreeList base brk units next size freep l ((bp, n) :: blocks)) (hl : l = lo ++ p :: hi) :
    Arena R base size (lo ++ p :: bp :: hi) blocks := by
  refine ⟨fun c hc hne => ?_, fun c hc => ha.block c (List.mem_cons_of_mem _ hc)⟩
  by_cases hcb : c = bp
  · subst hcb
    rw [(h.block (c, n) List.mem_cons_self).1]
    exact ha.block (c, n) List.mem_cons_self
  · refine ha.free c ?_ hne
    rw [hl]
    simp only [List.mem_append, List.mem_cons] at hc ⊢
    tauto

theorem takeWhole {x : Nat} (ha : Arena R base size l blocks) (hl : l = lo ++ x :: p :: hi)
    (hp : p ≠ base) :
    Arena R base size (lo ++ x :: hi) ((p, size p) :: blocks) := by
  refine ⟨fun c hc hne => ha.free c ?_ hne,
    List.forall_mem_cons.mpr ⟨ha.free p (by simp [hl]) hp, ha.block⟩⟩
  rw [hl]
  exact (List.Sublist.append_left ((List.sublist_cons_self p hi).cons_cons x) lo).subset hc

theorem takeTail {f : Nat} (ha : Arena R base size l blocks)
    (h : FreeList base brk units next size freep l blocks) (hl : l = lo ++ p :: hi) (hf : f ∈ l)
    (hpos : 0 < n) (hlt : n < size p) :
    Arena R base (Function.update (Function.update size p (size p - n))
      (p + (size p - n) * HEADER) n) l
      ((p + (size p - n) * HEADER, n) :: blocks) := by
  have h' := h.takeTail hl hf hpos hlt
  have hpl : p ∈ l := by simp [hl]
  have hpbase : p ≠ base := by
    rintro rfl
    rw [h.baseSize] at hlt
    omega
  have hwhole := ha.free p hpl hpbase
  refine ⟨fun c hc hne => ?_, List.forall_mem_cons.mpr ⟨?_, ha.block⟩⟩
  · rw [Function.update_of_ne (h'.ne_of_mem hc)]
    by_cases hcp : c = p
    · subst hcp
      rw [Function.update_self]
      exact hwhole.sub (Nat.le_refl _) (by simp only [HEADER]; omega)
    · rw [Function.update_of_ne hcp]
      exact ha.free c hc hne
  · exact hwhole.sub (Nat.le_add_right _ _) (by simp only [HEADER]; omega)

theorem extend (ha : Arena R base size l blocks)
    (h : FreeList base brk units next size freep l blocks) (hbrk : brk ≤ a) (hpos : 0 < n)
    (hfit : a + n * HEADER < 2 ^ 32) (hin : Within R a n) :
    Arena R base (Function.update size a n) l ((a, n) :: blocks) := by
  have h' := h.extend hbrk hpos hfit
  refine ⟨fun c hc hne => ?_, List.forall_mem_cons.mpr ⟨hin, ha.block⟩⟩
  rw [Function.update_of_ne (h'.ne_of_mem hc)]
  exact ha.free c hc hne

theorem mono {R' : Nat → Prop} (ha : Arena R base size l blocks) (hR : ∀ x, R x → R' x) :
    Arena R' base size l blocks :=
  ⟨fun c hc hne x hx hx' => hR x (ha.free c hc hne x hx hx'),
    fun c hc x hx hx' => hR x (ha.block c hc x hx hx')⟩

theorem subset {blocks' : List (Nat × Nat)} (ha : Arena R base size l blocks)
    (hb : ∀ b ∈ blocks', b ∈ blocks) :
    Arena R base size l blocks' :=
  ⟨ha.free, fun c hc => ha.block c (hb c hc)⟩

end Arena

end Arenas

end Xv6
