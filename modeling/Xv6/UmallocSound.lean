import Xv6.HeapList

namespace Xv6

namespace Heap

variable {s t : Heap} {l : List Nat} {blocks : List (Nat × Nat)} {p q bp n : Nat}

theorem next_setHeader {h : Header} : (s.setHeader p h).next = Function.update s.next p h.ptr := by
  funext a
  by_cases ha : a = p
  · subst ha
    simp [next, setHeader]
  · simp [next, setHeader, ha]

theorem size_setHeader {h : Header} : (s.setHeader p h).size = Function.update s.size p h.size := by
  funext a
  by_cases ha : a = p
  · subst ha
    simp [size, setHeader]
  · simp [size, setHeader, ha]

theorem next_setPtr : (s.setPtr p q).next = Function.update s.next p q := next_setHeader

theorem size_setPtr : (s.setPtr p q).size = s.size := by
  rw [setPtr, size_setHeader]
  exact Function.update_eq_self p s.size

theorem next_setSize : (s.setSize p n).next = s.next := by
  rw [setSize, next_setHeader]
  exact Function.update_eq_self p s.next

theorem size_setSize : (s.setSize p n).size = Function.update s.size p n := size_setHeader

/-- The free list of the heap, with the blocks that are not on it. -/
def Inv (s : Heap) (l : List Nat) (blocks : List (Nat × Nat)) : Prop :=
  FreeList s.base s.brk s.units s.next s.size s.freep l blocks

/-- Only headers and freep have changed. -/
structure Kept (s t : Heap) : Prop where
  base : t.base = s.base
  brk : t.brk = s.brk
  units : t.units = s.units
  live : t.live = s.live

theorem joinUpper_kept (s : Heap) (bp p : Nat) : Kept s (s.joinUpper bp p) := by
  unfold joinUpper
  split <;> exact ⟨rfl, rfl, rfl, rfl⟩

theorem joinLower_kept (s : Heap) (bp p : Nat) : Kept s (s.joinLower bp p) := by
  unfold joinLower
  split <;> exact ⟨rfl, rfl, rfl, rfl⟩

/-- The part of free behind the loop, for a block without free space above it. -/
theorem joinLower_inv {size₁ next₁ : Nat → Nat} {lo hi : List Nat}
    (h : FreeList s.base s.brk s.units next₁ size₁ p (lo ++ p :: hi) ((bp, n) :: blocks))
    (hlo : ∀ a ∈ lo, a + size₁ a * HEADER < p) (hp : p + size₁ p * HEADER ≤ bp)
    (hhi : ∀ c ∈ hi, bp + n * HEADER < c) (hsize : s.size = size₁) (hbp : s.next bp = next₁ p)
    (hnext : ∀ a ∈ lo ++ hi, s.next a = next₁ a) :
    ∃ l', ({ s.joinLower bp p with freep := p } : Heap).Inv l' blocks ∧
      (∃ a ∈ l', n ≤ (s.joinLower bp p).size a) ∧
      ∀ R, Arena R s.base s.size (lo ++ p :: hi) ((bp, n) :: blocks) →
        Arena R s.base (s.joinLower bp p).size l' blocks := by
  subst hsize
  have hpl : p ∈ lo ++ p :: hi := by simp
  obtain ⟨hbpsize, hpos, hlow, hup⟩ := h.block (bp, n) List.mem_cons_self
  have hbrk := h.brkBound
  have hadd : addHeaders p (s.size p) = p + s.size p * HEADER :=
    Nat.mod_eq_of_lt (by dsimp only at hup; omega)
  have hnodup := h.nodup
  have hplo : p ∉ lo := fun hm => (List.nodup_append.mp hnodup).2.2 p hm p (by simp) rfl
  have hphi : p ∉ hi := (List.nodup_cons.mp (List.nodup_append.mp hnodup).2.1).1
  have hnext' : ∀ (v : Nat) (a : Nat), a ∈ lo ++ p :: hi → a ≠ p →
      Function.update s.next p v a = next₁ a := by
    intro v a ha hap
    rw [Function.update_of_ne hap]
    refine hnext a ?_
    simp only [List.mem_append, List.mem_cons] at ha ⊢
    tauto
  unfold joinLower
  by_cases hj : addHeaders p (s.size p) = bp
  · rw [if_pos hj]
    rw [hadd] at hj
    have hgrow := h.grow rfl hj hhi
    have hfit : s.size p + s.size bp < 2 ^ 32 := by
      dsimp only at hup
      simp only [HEADER] at *
      omega
    have hsize : (s.setHeader p ⟨s.next bp, (s.size p + s.size bp) % 2 ^ 32⟩).size =
        Function.update s.size p (s.size p + n) := by
      rw [size_setHeader]
      dsimp only
      rw [Nat.mod_eq_of_lt hfit, hbpsize]
    refine ⟨lo ++ p :: hi, ?_, ⟨p, hpl, ?_⟩, fun R ha => ?_⟩
    · unfold Inv
      show FreeList s.base s.brk s.units (s.setHeader p ⟨s.next bp, (s.size p + s.size bp) % 2 ^ 32⟩).next
        (s.setHeader p ⟨s.next bp, (s.size p + s.size bp) % 2 ^ 32⟩).size p _ _
      rw [next_setHeader, hsize]
      refine hgrow.congr_next fun a ha => ?_
      by_cases hap : a = p
      · rw [hap, Function.update_self, hbp]
      · exact hnext' _ a ha hap
    · rw [hsize, Function.update_self]
      omega
    · rw [hsize]
      exact ha.grow hj
  · rw [if_neg hj]
    rw [hadd] at hj
    have hins := h.insert rfl (by omega) hlo hhi
    refine ⟨lo ++ p :: bp :: hi, ?_, ⟨bp, by simp, ?_⟩, fun R ha => ?_⟩
    · unfold Inv
      show FreeList s.base s.brk s.units (s.setPtr p bp).next (s.setPtr p bp).size p _ _
      rw [next_setPtr, size_setPtr]
      refine hins.congr_next fun a ha => ?_
      by_cases hap : a = p
      · rw [hap, Function.update_self, Function.update_self]
      · rw [Function.update_of_ne hap, Function.update_of_ne hap]
        by_cases hab : a = bp
        · rw [hab, Function.update_self, hbp]
        · rw [Function.update_of_ne hab]
          refine hnext a ?_
          simp only [List.mem_append, List.mem_cons] at ha ⊢
          tauto
    · rw [size_setPtr, hbpsize]
    · rw [size_setPtr]
      exact ha.insert h rfl

theorem free_eq {ap : Nat} (hap : (ap + 2 ^ 32 - HEADER) % 2 ^ 32 = bp)
    (hfind : Circular.find s.next (isPlace s.next bp) turns s.freep = some p) :
    s.free ap = some { (s.joinUpper bp p).joinLower bp p with freep := p } := by
  subst hap
  dsimp only [free]
  rw [hfind, Option.map_some]

/-- With p found, free puts the block bp on a list and keeps the other blocks and the memory they
lie in. -/
def Joined (s : Heap) (bp p n : Nat) (l : List Nat) (blocks : List (Nat × Nat)) : Prop :=
  ∃ l', ({ (s.joinUpper bp p).joinLower bp p with freep := p } : Heap).Inv l' blocks ∧
    (∃ a ∈ l', n ≤ ((s.joinUpper bp p).joinLower bp p).size a) ∧
    ∀ R, Arena R s.base s.size l ((bp, n) :: blocks) →
      Arena R s.base ((s.joinUpper bp p).joinLower bp p).size l' blocks

theorem addHeaders_block (h : s.Inv l ((bp, n) :: blocks)) :
    addHeaders bp (s.size bp) = bp + n * HEADER := by
  obtain ⟨hbpsize, _, _, hup⟩ := FreeList.block h (bp, n) List.mem_cons_self
  have hbrk := FreeList.brkBound h
  rw [hbpsize]
  exact Nat.mod_eq_of_lt (by dsimp only at hup ⊢; omega)

section

variable {lo hi : List Nat} {q : Nat} (h : s.Inv l ((bp, n) :: blocks))
  (hlo : ∀ a ∈ lo, a + s.size a * HEADER < p)
  (hp : p + s.size p * HEADER ≤ bp)

include h hlo hp

theorem joined_upper (hl : l = lo ++ p :: q :: hi) (hj : bp + n * HEADER = q) :
    s.Joined bp p n l blocks := by
  obtain ⟨hbpsize, hpos, hlow, hup⟩ := FreeList.block h (bp, n) List.mem_cons_self
  have hbrk := FreeList.brkBound h
  have hk := joinUpper_kept s bp p
  have hql : q ∈ l := by simp [hl]
  have hpl : p ∈ l := by simp [hl]
  have hring : Circular s.next (lo ++ p :: q :: hi) := hl ▸ FreeList.ring h
  have hq : s.next p = q := hring.next_eq
  have hjoin : s.joinUpper bp p = s.setHeader bp ⟨s.next q, (s.size bp + s.size q) % 2 ^ 32⟩ := by
    rw [joinUpper, if_pos (by rw [addHeaders_block h, hj, hq]), hq]
  have hsorted := FreeList.lt h
  have hnodup := FreeList.nodup h
  rw [hl] at hsorted hnodup
  have hhi :=
    (List.pairwise_cons.mp (List.pairwise_cons.mp (List.pairwise_append.mp hsorted).2.1).2).1
  have hplo : p ∉ lo := fun hm => (List.nodup_append.mp hnodup).2.2 p hm p (by simp) rfl
  have hphi : p ∉ q :: hi := (List.nodup_cons.mp (List.nodup_append.mp hnodup).2.1).1
  have hne : ∀ a ∈ lo ++ p :: q :: hi, a ≠ bp := fun a ha => FreeList.ne_of_mem h (hl ▸ ha)
  have hqbase : q ≠ s.base := by
    dsimp only at hlow
    simp only [HEADER] at *
    omega
  have hqfree := (FreeList.free h q hql hqbase).2.2
  have hfit : n + s.size q < 2 ^ 32 := by
    simp only [HEADER] at *
    omega
  have hsize : (s.joinUpper bp p).size = Function.update s.size bp (n + s.size q) := by
    rw [hjoin, size_setHeader, hbpsize]
    dsimp only
    rw [Nat.mod_eq_of_lt hfit]
  have hnext : (s.joinUpper bp p).next = Function.update s.next bp (s.next q) := by
    rw [hjoin, next_setHeader]
  have habs := FreeList.absorb h hl hj
  rw [← hk.base, ← hk.brk, ← hk.units] at habs
  have hlower := joinLower_inv habs (fun a ha => ?_) ?_ (fun c hc => ?_) hsize ?_ (fun a ha => ?_)
  · obtain ⟨l', hinv, ⟨a, ha, hbig⟩, harena⟩ := hlower
    refine ⟨l', hinv, ⟨a, ha, by omega⟩, fun R hin => ?_⟩
    rw [← hk.base]
    refine harena R ?_
    rw [hk.base, hsize]
    exact hin.absorb h hl hj
  · rw [Function.update_of_ne (hne a (List.mem_append_left _ ha))]
    exact hlo a ha
  · rw [Function.update_of_ne (hne p (by simp))]
    exact hp
  · have := hhi c hc
    have := FreeList.beside h (hl ▸ (by simp [hc] : c ∈ lo ++ p :: q :: hi)) hql (by omega)
    simp only [HEADER] at *
    omega
  · rw [hnext, Function.update_self, Function.update_self]
  · have hap : a ≠ p := by
      rintro rfl
      exact (List.mem_append.mp ha).elim hplo fun hm => hphi (List.mem_cons_of_mem q hm)
    have hmem : a ∈ lo ++ p :: q :: hi :=
      (((List.sublist_cons_self q hi).trans (List.sublist_cons_self p _)).append_left lo).subset ha
    rw [hnext, Function.update_of_ne (hne a hmem), Function.update_of_ne hap]

theorem joined_gap (hl : l = lo ++ p :: hi) (hhi : ∀ c ∈ hi, bp + n * HEADER ≤ c)
    (hj : bp + n * HEADER ≠ s.next p) :
    s.Joined bp p n l blocks := by
  have hk := joinUpper_kept s bp p
  have hjoin : s.joinUpper bp p = s.setPtr bp (s.next p) := by
    rw [joinUpper, if_neg (by rwa [addHeaders_block h])]
  have hring : Circular s.next (lo ++ p :: hi) := hl ▸ FreeList.ring h
  have hne : ∀ a ∈ lo ++ p :: hi, a ≠ bp := fun a ha => FreeList.ne_of_mem h (hl ▸ ha)
  have hgap : ∀ c ∈ hi, bp + n * HEADER < c := by
    have hsorted := FreeList.lt h
    rw [hl] at hsorted
    cases hi with
    | nil => simp
    | cons q hi =>
      have hq : s.next p = q := hring.next_eq
      have hle := hhi q (by simp)
      intro c hc
      rcases List.mem_cons.mp hc with rfl | hc
      · omega
      · have := (List.pairwise_cons.mp (List.pairwise_cons.mp (List.pairwise_append.mp hsorted).2.1).2).1 c hc
        omega
  have hsize : (s.joinUpper bp p).size = s.size := by rw [hjoin, size_setPtr]
  have hnext : (s.joinUpper bp p).next = Function.update s.next bp (s.next p) := by
    rw [hjoin, next_setPtr]
  have hlist := FreeList.setFreep (hl ▸ h) (by simp : p ∈ lo ++ p :: hi)
  rw [← hk.base, ← hk.brk, ← hk.units] at hlist
  have hlower := joinLower_inv hlist hlo hp hgap hsize ?_ ?_
  · obtain ⟨l', hinv, hbig, harena⟩ := hlower
    refine ⟨l', hinv, hbig, fun R hin => ?_⟩
    rw [← hk.base]
    refine harena R ?_
    rw [hk.base, hsize, ← hl]
    exact hin
  · rw [hnext, Function.update_self]
  · intro a ha
    have hmem : a ∈ lo ++ p :: hi := ((List.sublist_cons_self p hi).append_left lo).subset ha
    rw [hnext, Function.update_of_ne (hne a hmem)]

end

/-- free ends and puts the block on the list, joined to its neighbours. -/
theorem free_run (h : s.Inv l ((bp, n) :: blocks)) :
    ∃ t l', s.free (bp + HEADER) = some t ∧ Kept s t ∧ t.Inv l' blocks ∧ (∃ a ∈ l', n ≤ t.size a) ∧
      ∀ R, Arena R s.base s.size l ((bp, n) :: blocks) → Arena R t.base t.size l' blocks := by
  obtain ⟨lo, p, hi, hl, hlo, hp, hhi⟩ := FreeList.split h
  obtain ⟨_, hpos, hlow, hup⟩ := FreeList.block h (bp, n) List.mem_cons_self
  have hbrk := FreeList.brkBound h
  have hpbp := FreeList.ne_of_mem h (by simp [hl] : p ∈ l)
  have hfind := FreeList.find_place h hl (by omega : p < bp) fun c hc => by
    have := hhi c hc
    simp only [HEADER] at *
    omega
  have hap : (bp + HEADER + 2 ^ 32 - HEADER) % 2 ^ 32 = bp := by
    dsimp only at hup
    simp only [HEADER] at *
    omega
  have hfree : s.free (bp + HEADER) = some { (s.joinUpper bp p).joinLower bp p with freep := p } :=
    free_eq hap hfind
  have hk := joinUpper_kept s bp p
  have hk' := joinLower_kept (s.joinUpper bp p) bp p
  have hjoined : s.Joined bp p n l blocks := by
    by_cases hj : bp + n * HEADER = s.next p
    · cases hi with
      | nil =>
        rw [FreeList.next_last h hl] at hj
        dsimp only at hlow
        simp only [HEADER] at *
        omega
      | cons q hi =>
        have hring : Circular s.next (lo ++ p :: q :: hi) := hl ▸ FreeList.ring h
        exact joined_upper h hlo hp hl (hj.trans hring.next_eq)
    · exact joined_gap h hlo hp hl hhi hj
  obtain ⟨l', hinv, hbig, harena⟩ := hjoined
  refine ⟨_, l', hfree, ⟨hk'.base.trans hk.base, hk'.brk.trans hk.brk, hk'.units.trans hk.units,
    hk'.live.trans hk.live⟩, hinv, hbig, fun R ha => ?_⟩
  show Arena R ((s.joinUpper bp p).joinLower bp p).base _ l' blocks
  rw [hk'.base, hk.base]
  exact harena R ha

theorem take_run {x nunits : Nat} (h : s.Inv l blocks) (hx : x ∈ l) (hnext : s.next x = p)
    (hpos : 0 < nunits) (hfit : nunits ≤ s.size p) :
    ∃ t q l', s.take nunits x p = (t, q + HEADER) ∧ Kept s t ∧ t.Inv l' ((q, nunits) :: blocks) ∧
      ∀ R, Arena R s.base s.size l blocks → Arena R t.base t.size l' ((q, nunits) :: blocks) := by
  have hp : p ∈ l := hnext ▸ (FreeList.ring h).next_mem hx
  have hbase : p ≠ s.base := by
    rintro rfl
    have := FreeList.baseSize h
    omega
  obtain ⟨lo, hi, hl⟩ := List.append_of_mem hp
  have hup := (FreeList.free h p hp hbase).2.2
  have hbrk := FreeList.brkBound h
  unfold take
  by_cases heq : s.size p = nunits
  · rw [if_pos heq]
    have hne : lo ≠ [] := by
      rintro rfl
      have hhead := FreeList.head h
      rw [hl] at hhead
      exact hbase (Option.some.inj hhead)
    obtain ⟨k, rfl⟩ := (hl ▸ FreeList.ring h).pred (hl ▸ FreeList.nodup h) hne (hl ▸ hx) hnext
    have hl' : l = k ++ x :: p :: hi := by rw [hl, List.append_assoc, List.singleton_append]
    have hadd : addHeaders p 1 = p + HEADER := by
      refine (Nat.mod_eq_of_lt ?_).trans (by rw [Nat.one_mul])
      simp only [HEADER] at *
      omega
    refine ⟨{ s.setPtr x (s.next p) with freep := x }, p, k ++ x :: hi, by rw [hadd],
      ⟨rfl, rfl, rfl, rfl⟩, ?_, fun R ha => ?_⟩
    · unfold Inv
      show FreeList s.base s.brk s.units (s.setPtr x (s.next p)).next (s.setPtr x (s.next p)).size x _ _
      rw [next_setPtr, size_setPtr, ← heq]
      exact FreeList.takeWhole h hl'
    · show Arena R s.base (s.setPtr x (s.next p)).size _ _
      rw [size_setPtr, ← heq]
      exact ha.takeWhole hl' hbase
  · rw [if_neg heq]
    have hadd : addHeaders p (s.size p - nunits) = p + (s.size p - nunits) * HEADER := by
      refine Nat.mod_eq_of_lt ?_
      simp only [HEADER] at *
      omega
    have hadd' : addHeaders (p + (s.size p - nunits) * HEADER) 1 =
        p + (s.size p - nunits) * HEADER + HEADER := by
      refine (Nat.mod_eq_of_lt ?_).trans (by rw [Nat.one_mul])
      simp only [HEADER] at *
      omega
    dsimp only
    rw [hadd]
    generalize hq : p + (s.size p - nunits) * HEADER = q at hadd' ⊢
    rw [hadd']
    refine ⟨{ (s.setSize p (s.size p - nunits)).setSize q nunits with freep := x }, q, l, rfl,
      ⟨rfl, rfl, rfl, rfl⟩, ?_, fun R ha => ?_⟩
    · unfold Inv
      show FreeList s.base s.brk s.units ((s.setSize p (s.size p - nunits)).setSize q nunits).next
        ((s.setSize p (s.size p - nunits)).setSize q nunits).size x _ _
      subst hq
      rw [next_setSize, next_setSize, size_setSize, size_setSize]
      exact FreeList.takeTail h hl hx hpos (by omega)
    · show Arena R s.base ((s.setSize p (s.size p - nunits)).setSize q nunits).size _ _
      subst hq
      rw [size_setSize, size_setSize]
      exact ha.takeTail h hl hx hpos (by omega)

theorem sbrk_cases (s : Heap) (m : Nat) :
    (∃ t, s.sbrk m = (t, none) ∧ Kept s t ∧ t.mem = s.mem ∧ t.freep = s.freep) ∨
      ∃ t a, s.sbrk m = (t, some a) ∧ s.brk ≤ a ∧ a + m < 2 ^ 32 ∧ t.base = s.base ∧ t.brk = a + m ∧
        t.units = s.units ∧ t.live = s.live ∧ t.mem = s.mem ∧ t.freep = s.freep := by
  unfold sbrk
  split
  next a rest heq =>
    by_cases hok : s.brk ≤ a ∧ a + m < 2 ^ 32
    · rw [if_pos hok]
      exact .inr ⟨_, a, rfl, hok.1, hok.2, rfl, rfl, rfl, rfl, rfl, rfl⟩
    · rw [if_neg hok]
      exact .inl ⟨_, rfl, ⟨rfl, rfl, rfl, rfl⟩, rfl, rfl⟩
  next => exact .inl ⟨_, rfl, ⟨rfl, rfl, rfl, rfl⟩, rfl, rfl⟩
  next => exact .inl ⟨_, rfl, ⟨rfl, rfl, rfl, rfl⟩, rfl, rfl⟩

theorem request_bounds {nu bound : Nat} (hnu : nu < bound) (hbound : 4096 < bound) :
    nu ≤ (if nu < 4096 then 4096 else nu) ∧ (if nu < 4096 then 4096 else nu) < bound ∧
      0 < (if nu < 4096 then 4096 else nu) := by
  split <;> omega

theorem addHeaders_one {a m : Nat} (hpos : 0 < m) (hfit : a + m * HEADER < 2 ^ 32) :
    addHeaders a 1 = a + HEADER := by
  refine (Nat.mod_eq_of_lt ?_).trans (by rw [Nat.one_mul])
  simp only [HEADER] at *
  omega

theorem morecore_run {nu : Nat} (h : s.Inv l blocks) (hnu : nu < 2 ^ 29) :
    ∃ t ap, s.morecore nu = some (t, ap) ∧ t.base = s.base ∧ t.live = s.live ∧
      ((ap = 0 ∧ t.Inv l blocks) ∨ (ap = t.freep ∧ ∃ l', t.Inv l' blocks ∧ ∃ a ∈ l', nu ≤ t.size a)) := by
  unfold morecore
  obtain ⟨hle, hlt, hpos⟩ := request_bounds hnu (by decide)
  generalize (if nu < 4096 then 4096 else nu) = m at hle hlt hpos ⊢
  have hbytes : m * HEADER % 2 ^ 32 = m * HEADER := Nat.mod_eq_of_lt (by simp only [HEADER]; omega)
  dsimp only
  rw [hbytes]
  rcases sbrk_cases s (m * HEADER) with ⟨t, heq, hk, hmem, hfreep⟩ |
      ⟨t, a, heq, ha, hfit, hbase, hbrk, hunits, hlive, hmem, hfreep⟩
  · rw [heq]
    refine ⟨t, 0, rfl, hk.base, hk.live, .inl ⟨rfl, ?_⟩⟩
    unfold Inv
    rw [hk.base, hk.brk, hk.units, hfreep,
      show t.next = s.next from funext fun p => by rw [next, hmem, next],
      show t.size = s.size from funext fun p => by rw [size, hmem, size]]
    exact h
  · rw [heq]
    dsimp only
    have hinv : ({ t.setSize a m with units := t.units + m } : Heap).Inv l ((a, m) :: blocks) := by
      unfold Inv
      show FreeList t.base t.brk (t.units + m) (t.setSize a m).next (t.setSize a m).size t.freep _ _
      rw [next_setSize, size_setSize, hbase, hbrk, hunits, hfreep,
        show t.next = s.next from funext fun p => by rw [next, hmem, next],
        show t.size = s.size from funext fun p => by rw [size, hmem, size]]
      exact FreeList.extend h ha hpos hfit
    obtain ⟨u, l', hfree, hk, hinv', ⟨b, hb, hbig⟩, _⟩ := free_run hinv
    rw [addHeaders_one hpos hfit, hfree, Option.map_some]
    exact ⟨u, u.freep, rfl, hk.base.trans hbase, hk.live.trans hlive,
      .inr ⟨rfl, l', hinv', b, hb, by omega⟩⟩

section Search

variable {β : Type} {F : Nat → Nat → Nat → Option β} {found : Nat → Nat → Option β}
  {again : Nat → Option β}
  {nunits : Nat}

/-- The loop of malloc, from prevp to freep: it finds a block on the way, or it asks for more
memory. -/
theorem search_walk (hF : ∀ n prevp p, F (n + 1) prevp p =
      if nunits ≤ s.size p then found prevp p else if p = s.freep then again n else F n p (s.next p))
    (k : Nat) {prevp : Nat} {todo done : List Nat}
    (hring : Circular s.next (prevp :: (todo ++ done)))
    (hfirst : (done ++ [prevp]).head? = some s.freep) (hnot : s.freep ∉ todo) :
    (∃ x ∈ prevp :: todo, nunits ≤ s.size (s.next x) ∧
      F (todo.length + 1 + k) prevp (s.next prevp) = found x (s.next x)) ∨
    ((∀ p ∈ todo ++ [s.freep], s.size p < nunits) ∧
      F (todo.length + 1 + k) prevp (s.next prevp) = again k) := by
  induction todo generalizing prevp done with
  | nil =>
    have hnext : s.next prevp = s.freep := by
      have heq := Circular.cons_iff.mp hring
      rw [List.nil_append] at heq
      cases done with
      | nil =>
        rw [← Option.some.inj hfirst]
        exact (List.cons.inj heq).1
      | cons c done =>
        rw [← Option.some.inj hfirst]
        exact (List.cons.inj heq).1
    rw [List.length_nil, Nat.zero_add, Nat.add_comm 1 k, hF]
    by_cases hfit : nunits ≤ s.size (s.next prevp)
    · exact .inl ⟨prevp, List.mem_cons_self, hfit, if_pos hfit⟩
    · rw [if_neg hfit, if_pos hnext]
      refine .inr ⟨fun p hp => ?_, rfl⟩
      rw [List.nil_append, List.mem_singleton] at hp
      rw [hp, ← hnext]
      omega
  | cons c todo ih =>
    have hnext : s.next prevp = c := (List.cons.inj (Circular.cons_iff.mp hring)).1
    have hc : c ≠ s.freep := fun he => hnot (he ▸ List.mem_cons_self)
    have hfuel : (c :: todo).length + 1 + k = todo.length + 1 + k + 1 := by
      rw [List.length_cons]
      omega
    rw [hfuel, hF, hnext]
    by_cases hfit : nunits ≤ s.size c
    · refine .inl ⟨prevp, List.mem_cons_self, hnext ▸ hfit, ?_⟩
      rw [if_pos hfit, hnext]
    · rw [if_neg hfit, if_neg hc]
      have hring' : Circular s.next (c :: (todo ++ (done ++ [prevp]))) := by
        rw [← List.append_assoc]
        exact Circular.append_comm (l := [prevp]) hring
      have hfirst' : ((done ++ [prevp]) ++ [c]).head? = some s.freep := by
        rw [List.head?_append, hfirst]
        rfl
      rcases ih hring' hfirst' fun hm =>
        hnot (List.mem_cons_of_mem c hm) with ⟨x, hx, hxfit, heq⟩ | ⟨hall, heq⟩
      · exact .inl ⟨x, List.mem_cons_of_mem prevp hx, hxfit, heq⟩
      · refine .inr ⟨fun p hp => ?_, heq⟩
        rcases List.mem_cons.mp hp with rfl | hp
        · omega
        · exact hall p hp

theorem search_round (hF : ∀ n prevp p, F (n + 1) prevp p =
      if nunits ≤ s.size p then found prevp p else if p = s.freep then again n else F n p (s.next p))
    {m : Nat} (h : s.Inv l blocks) (hm : turns ≤ m) :
    (∃ x ∈ l, nunits ≤ s.size (s.next x) ∧ F m s.freep (s.next s.freep) = found x (s.next x)) ∨
    ((∀ p ∈ l, s.size p < nunits) ∧ ∃ k, m ≤ k + turns ∧
      F m s.freep (s.next s.freep) = again k) := by
  obtain ⟨lo, hi, hl⟩ := List.append_of_mem (FreeList.freepMem h)
  have hring : Circular s.next (s.freep :: ((hi ++ lo) ++ [])) := by
    rw [List.append_nil]
    exact (hl ▸ FreeList.ring h).append_comm
  have hnodup : (s.freep :: (hi ++ lo)).Nodup := List.nodup_append_comm.mp (hl ▸ FreeList.nodup h)
  have hmem : ∀ x, x ∈ s.freep :: (hi ++ lo) ↔ x ∈ l := by
    intro x
    rw [hl, ← List.cons_append, List.mem_append, List.mem_append, or_comm]
  have hlen : (hi ++ lo).length + 1 < turns := by
    have := FreeList.length_le h
    rw [hl, List.length_append, List.length_cons] at this
    rw [List.length_append]
    omega
  obtain ⟨k, rfl⟩ := Nat.exists_eq_add_of_le (Nat.le_trans (Nat.le_of_lt hlen) hm)
  rcases search_walk hF k hring rfl (List.nodup_cons.mp hnodup).1 with ⟨x, hx, hfit,
    heq⟩ | ⟨hall, heq⟩
  · exact .inl ⟨x, (hmem x).mp hx, hfit, heq⟩
  · refine .inr ⟨fun p hp => hall p ?_, k, by omega, heq⟩
    rw [List.mem_append, List.mem_singleton, or_comm]
    exact List.mem_cons.mp ((hmem p).mpr hp)

end Search

section Loop

variable {σ : Type} {heap : σ → Heap} {put : Heap → σ → σ} {more : σ → Option (σ × Nat)}
  {nunits : Nat}
  {I : σ → List Nat → List (Nat × Nat) → Prop} {s : σ}

/-- The invariant I of the loop of malloc: it holds after a block has been taken, and after more
memory has been asked for the list is as it was or has a block of nunits units. -/
structure Keeps (heap : σ → Heap) (put : Heap → σ → σ) (more : σ → Option (σ × Nat)) (nunits : Nat)
    (I : σ → List Nat → List (Nat × Nat) → Prop) : Prop where
  list : ∀ {s l blocks}, I s l blocks → (heap s).Inv l blocks
  put : ∀ {s l blocks x}, I s l blocks → x ∈ l → nunits ≤ (heap s).size ((heap s).next x) →
    ∃ h q l', (heap s).take nunits x ((heap s).next x) = (h, q + HEADER) ∧
      (heap (put h s)).live = (heap s).live ∧
      I (put h s) l' ((q, nunits) :: blocks)
  more : ∀ {s l blocks}, I s l blocks →
    ∃ t ap, more s = some (t, ap) ∧ (heap t).live = (heap s).live ∧
    ((ap = 0 ∧ I t l blocks) ∨
      (ap = (heap t).freep ∧ ∃ l', I t l' blocks ∧ ∃ a ∈ l', nunits ≤ (heap t).size a))

theorem Keeps.round {m : Nat} (hkeep : Keeps heap put more nunits I) (h : I s l blocks)
    (hm : turns ≤ m) :
    (∃ t q l', search heap put more nunits m s (heap s).freep ((heap s).next (heap s).freep) =
      some (t, q + HEADER) ∧
      (heap t).live = (heap s).live ∧ I t l' ((q, nunits) :: blocks)) ∨
    ((∀ p ∈ l, (heap s).size p < nunits) ∧ ∃ k, m ≤ k + turns ∧
      search heap put more nunits m s (heap s).freep ((heap s).next (heap s).freep) = (more s).bind
        fun (s, p) =>
        if p = 0 then some (s, 0) else search heap put more nunits k s p ((heap s).next p)) := by
  rcases search_round (F := fun n => search heap put more nunits n s) (fun _ _ _ => rfl)
    (hkeep.list h) hm with
    ⟨x, hx, hfit, heq⟩ | hmore
  · obtain ⟨u, q, l', htake, hlive, hinv⟩ := hkeep.put h hx hfit
    exact .inl ⟨put u s, q, l', by rw [heq, htake], hlive, hinv⟩
  · exact .inr hmore

/-- The loop of malloc ends, with a block of nunits units or with no more memory. -/
theorem Keeps.run {m : Nat} (hkeep : Keeps heap put more nunits I) (h : I s l blocks)
    (hm : 2 * turns ≤ m) :
    ∃ t ap l', search heap put more nunits m s (heap s).freep ((heap s).next (heap s).freep) =
      some (t, ap) ∧
      (heap t).live = (heap s).live ∧
      ((ap = 0 ∧ I t l' blocks) ∨ ∃ q, ap = q + HEADER ∧ I t l' ((q, nunits) :: blocks)) := by
  rcases hkeep.round h (m := m) (by omega) with ⟨t, q, l', heq, hlive, hinv⟩ | ⟨_, k, hk, heq⟩
  · exact ⟨t, q + HEADER, l', heq, hlive, .inr ⟨q, rfl, hinv⟩⟩
  · obtain ⟨t, ap, hmore, hlive, hcases⟩ := hkeep.more h
    rw [heq, hmore, Option.bind_some]
    rcases hcases with ⟨rfl, hinv⟩ | ⟨rfl, l', hinv, a, ha, hbig⟩
    · exact ⟨t, 0, l, if_pos rfl, hlive, .inl ⟨rfl, hinv⟩⟩
    · have hne : (heap t).freep ≠ 0 := by
        have hlist := hkeep.list hinv
        have := FreeList.base_le hlist (FreeList.freepMem hlist)
        have := FreeList.basePos hlist
        omega
      dsimp only
      rw [if_neg hne]
      rcases hkeep.round hinv (m := k) (by omega) with ⟨u, q, l'', heq', hlive', hinv'⟩ | ⟨hall, _⟩
      · exact ⟨u, q + HEADER, l'', heq', hlive'.trans hlive, .inr ⟨q, rfl, hinv'⟩⟩
      · have := hall a ha
        omega

end Loop

theorem keeps_inv {nunits : Nat} (hpos : 0 < nunits) (hlt : nunits < 2 ^ 29) :
    Keeps id (fun h _ => h) (·.morecore nunits) nunits Inv where
  list h := h
  put h hx hfit := by
    obtain ⟨t, q, l', htake, hk, hinv, _⟩ := take_run h hx rfl hpos hfit
    exact ⟨t, q, l', htake, hk.live, hinv⟩
  more h := by
    obtain ⟨t, ap, hmore, _, hlive, hcases⟩ := morecore_run h hlt
    exact ⟨t, ap, hmore, hlive, hcases⟩

def liveBlocks (s : Heap) : List (Nat × Nat) := s.live.map fun b => (b.addr, b.size)

/-- No call has been made yet. -/
structure Fresh (s : Heap) : Prop where
  freep : s.freep = 0
  live : s.live = []
  units : s.units = 0
  basePos : 0 < s.base
  below : s.base + HEADER ≤ s.brk
  brk : s.brk < 2 ^ 32

/-- What holds between two calls. -/
def Ok (s : Heap) : Prop :=
  s.Fresh ∨ ∃ l, s.Inv l s.liveBlocks ∧ ∀ b ∈ s.live, b.nbytes + HEADER ≤ b.size * HEADER

theorem Fresh.start_inv (h : s.Fresh) : s.start.Inv [s.base] [] := by
  have hstart : s.start = { s.setHeader s.base ⟨s.base, 0⟩ with freep := s.base } := if_pos h.freep
  rw [hstart]
  unfold Inv
  show FreeList s.base s.brk s.units (s.setHeader s.base ⟨s.base, 0⟩).next
    (s.setHeader s.base ⟨s.base, 0⟩).size s.base
    [s.base] []
  rw [next_setHeader, size_setHeader, h.units]
  refine ⟨h.basePos, rfl, Circular.singleton_iff.mpr (Function.update_self ..), by simp, by simp,
    Function.update_self .., by simp, by simp, by simp, by simp, by simp, ?_, h.brk⟩
  have := h.below
  omega

theorem Ok.start_inv (h : s.Ok) :
    s.start.live = s.live ∧ ∃ l, s.start.Inv l s.liveBlocks ∧
      ∀ b ∈ s.live, b.nbytes + HEADER ≤ b.size * HEADER := by
  rcases h with hf | ⟨l, hinv, hlive⟩
  · refine ⟨?_, [s.base], ?_, ?_⟩
    · rw [start, if_pos hf.freep]
      rfl
    · rw [liveBlocks, hf.live]
      exact hf.start_inv
    · simp [hf.live]
  · have hne : s.freep ≠ 0 := by
      have := FreeList.base_le hinv (FreeList.freepMem hinv)
      have := FreeList.basePos hinv
      omega
    have hstart : s.start = s := if_neg hne
    rw [hstart]
    exact ⟨rfl, l, hinv, hlive⟩

theorem unitsFor_spec {nbytes : Nat} (hn : nbytes < 2 ^ 30) :
    nbytes + HEADER ≤ unitsFor nbytes * HEADER ∧ unitsFor nbytes < 2 ^ 29 := by
  unfold unitsFor
  rw [Nat.mod_eq_of_lt (by simp only [HEADER]; omega)]
  simp only [HEADER]
  omega

/-- malloc ends, with a block that holds the bytes or without one. -/
theorem malloc_run {nbytes : Nat} (h : s.Ok) (hn : nbytes < 2 ^ 30) :
    ∃ t ap l', s.malloc nbytes = some (t, ap) ∧ t.live = s.live ∧
      ((ap = 0 ∧ t.Inv l' s.liveBlocks) ∨
        ∃ q, ap = q + HEADER ∧ t.Inv l' ((q, unitsFor nbytes) :: s.liveBlocks)) := by
  obtain ⟨hlive, l, hinv, _⟩ := h.start_inv
  obtain ⟨t, ap, l', heq, hl, hcases⟩ :=
    (keeps_inv (Nat.succ_pos _) (unitsFor_spec hn).2).run hinv (Nat.le_refl (2 * turns))
  exact ⟨t, ap, l', heq, hl.trans hlive, hcases⟩

theorem inv_live {b : Live} (h : s.Inv l s.liveBlocks) (hb : b ∈ s.live) :
    s.Inv l ((b.addr, b.size) :: (s.live.filter fun c => c.addr + HEADER ≠ b.addr + HEADER).map
      fun c => (c.addr, c.size)) := by
  obtain ⟨pre, post, hlive⟩ := List.append_of_mem hb
  have hperm : s.liveBlocks.Perm
      ((b.addr, b.size) :: (pre ++ post).map fun c => (c.addr, c.size)) := by
    rw [liveBlocks, hlive]
    exact (List.perm_middle.map fun c : Live => (c.addr, c.size))
  have hinv := FreeList.perm h hperm
  have hother : ∀ c ∈ pre ++ post, c.addr ≠ b.addr :=
    fun c hc => FreeList.block_ne hinv (List.mem_map_of_mem hc)
  have hfilter : s.live.filter (fun c => c.addr + HEADER ≠ b.addr + HEADER) = pre ++ post := by
    rw [hlive, List.filter_append, List.filter_cons_of_neg (by simp), ← List.filter_append]
    refine List.filter_eq_self.mpr fun c hc => ?_
    have := hother c hc
    simpa using this
  rw [hfilter]
  exact hinv

theorem free_live {b : Live} (h : s.Ok) (hb : b ∈ s.live) :
    ∃ t l', s.free (b.addr + HEADER) = some t ∧ t.live = s.live ∧
      t.Inv l' ((s.live.filter fun c => c.addr + HEADER ≠ b.addr + HEADER).map fun c =>
        (c.addr, c.size)) := by
  rcases h with hf | ⟨l, hinv, _⟩
  · rw [hf.live] at hb
    exact absurd hb List.not_mem_nil
  · obtain ⟨t, l', heq, hk, hinv', _⟩ := free_run (inv_live hinv hb)
    exact ⟨t, l', heq, hk.live, hinv'⟩

theorem Ok.large (h : s.Ok) {b : Live} (hb : b ∈ s.live) : b.nbytes + HEADER ≤ b.size * HEADER := by
  obtain ⟨_, _, _, hlarge⟩ := h.start_inv
  exact hlarge b hb

theorem step_ok {e : HeapEvent} (h : s.Ok) (hstep : s.step e = some t) : t.Ok := by
  cases e with
  | malloc nbytes =>
    obtain ⟨hn, hstep⟩ := Option.ite_none_right_eq_some.mp hstep
    obtain ⟨u, ap, l', heq, hlive, hcases⟩ := malloc_run h hn
    rw [heq, Option.map_some] at hstep
    have ht := Option.some.inj hstep
    dsimp only at ht
    rcases hcases with ⟨rfl, hinv⟩ | ⟨q, rfl, hinv⟩
    · rw [if_pos rfl] at ht
      subst ht
      refine .inr ⟨l', ?_, ?_⟩
      · rw [liveBlocks, hlive]
        exact hinv
      · rw [hlive]
        exact fun b hb => h.large hb
    · have hq : u.size q = unitsFor nbytes := (FreeList.block hinv (q, _) List.mem_cons_self).1
      rw [if_neg (by simp [HEADER]), Nat.add_sub_cancel, hq, hlive] at ht
      subst ht
      refine .inr ⟨l', hinv, ?_⟩
      intro b hb
      rcases List.mem_cons.mp hb with rfl | hb
      · exact (unitsFor_spec hn).1
      · exact h.large hb
  | free ap =>
    obtain ⟨hany, hstep⟩ := Option.ite_none_right_eq_some.mp hstep
    obtain ⟨b, hb, hap⟩ := List.any_eq_true.mp hany
    obtain rfl : b.addr + HEADER = ap := of_decide_eq_true hap
    obtain ⟨u, l', heq, hlive, hinv⟩ := free_live h hb
    rw [heq, Option.map_some, hlive] at hstep
    have ht := Option.some.inj hstep
    subst ht
    refine .inr ⟨l', hinv, ?_⟩
    intro c hc
    exact h.large (List.mem_of_mem_filter hc)

/-- The free list l of the heap and its live blocks. -/
structure Sound (s : Heap) (l : List Nat) : Prop where
  through : l.head? = some s.base
  ring : Circular s.next l
  roving : s.freep ∈ l
  sorted : l.Pairwise fun a c => a + s.size a * HEADER < c
  header : ∀ b ∈ s.live, s.size b.addr = b.size
  large : ∀ b ∈ s.live, b.nbytes + HEADER ≤ b.size * HEADER
  apartFree : ∀ a ∈ l, a ≠ s.base → ∀ b ∈ s.live, Apart a (s.size a) b.addr b.size
  apartLive : s.live.Pairwise fun b c => Apart b.addr b.size c.addr c.size
  unitSum : (l.map s.size).sum + (s.live.map Live.size).sum = s.units

theorem Inv.sound (h : s.Inv l s.liveBlocks)
    (hlarge : ∀ b ∈ s.live, b.nbytes + HEADER ≤ b.size * HEADER) :
    s.Sound l := by
  have hmem : ∀ b ∈ s.live, (b.addr, b.size) ∈ s.liveBlocks := fun b hb => List.mem_map_of_mem hb
  refine ⟨FreeList.head h, FreeList.ring h, FreeList.freepMem h, FreeList.sorted h,
    fun b hb => (FreeList.block h _ (hmem b hb)).1, hlarge,
    fun a ha hne b hb => FreeList.apart h a ha hne _ (hmem b hb),
      List.pairwise_map.mp (FreeList.blocksApart h), ?_⟩
  rw [← FreeList.unitSum h, liveBlocks, List.map_map]
  rfl

/-- For every sequence of calls: before the first malloc there are no blocks, and from then on the
free list is sound; malloc and free always end. -/
theorem heap_sound {base brk : Nat} {answers : List (Option Nat)} {es : List HeapEvent} {s : Heap}
    (hbase : 0 < base) (hbelow : base + HEADER ≤ brk) (hbrk : brk < 2 ^ 32)
    (h : Runs.exec step (boot base brk answers) es = some s) :
    ((s.freep = 0 ∧ s.live = [] ∧ s.units = 0) ∨ ∃ l, s.Sound l) ∧
      (∀ nbytes < 2 ^ 30, (s.step (.malloc nbytes)).isSome) ∧
      ∀ b ∈ s.live, (s.step (.free (b.addr + HEADER))).isSome := by
  have hok : s.Ok := Runs.invariant (.inl ⟨rfl, rfl, rfl, hbase, hbelow, hbrk⟩)
    (fun _ _ _ hs hu => step_ok hs hu) h
  refine ⟨?_, fun nbytes hn => ?_, fun b hb => ?_⟩
  · rcases hok with hf | ⟨l, hinv, hlarge⟩
    · exact .inl ⟨hf.freep, hf.live, hf.units⟩
    · exact .inr ⟨l, hinv.sound hlarge⟩
  · obtain ⟨t, ap, l', heq, _⟩ := malloc_run hok hn
    rw [step, if_pos hn, heq]
    rfl
  · obtain ⟨t, l', heq, _⟩ := free_live hok hb
    have hany : s.live.any fun c => c.addr + HEADER = b.addr + HEADER :=
      List.any_eq_true.mpr ⟨b, hb, decide_eq_true rfl⟩
    rw [step, if_pos hany, heq]
    rfl

theorem heap_sound_four_calls :
    ∃ s l, Runs.exec step (boot 4096 8192 [some 8192]) [.malloc 10, .malloc 2000, .free 40944,
      .malloc 5] = some s ∧
      s.live = [⟨40944, 2, 5⟩, ⟨38928, 251, 2000⟩] ∧ s.Sound l := by
  have hlive : (Runs.exec step (boot 4096 8192 [some 8192])
      [.malloc 10, .malloc 2000, .free 40944, .malloc 5]).map live =
        some [⟨40944, 2, 5⟩, ⟨38928, 251, 2000⟩] := by
    decide +kernel
  obtain ⟨s, hs, hl⟩ := Option.map_eq_some_iff.mp hlive
  rcases (heap_sound (by decide) (by decide) (by decide) hs).1 with ⟨_, hnil, _⟩ | ⟨l, hsound⟩
  · rw [hl] at hnil
    exact absurd hnil (List.cons_ne_nil _ _)
  · exact ⟨s, l, hs, hl, hsound⟩

end Heap

end Xv6
