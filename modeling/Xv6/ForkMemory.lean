import Mathlib.Data.List.FinRange
import Xv6.Growproc
import Xv6.ProcTable

namespace Xv6

open Bytes Prog

variable {k : KernelImage} {d d₁ d' : PageDir} {s s₁ t : Kmem}

/-- The pages u with R u are mapped for the kernel and nothing else changes; the tables that this
took come from the free list. -/
structure Extended (d : PageDir) (s : Kmem) (R : Nat → Prop) (d' : PageDir) (t : Kmem) : Prop where
  page : d'.page = d.page
  mem : t.mem = s.mem
  taken : ∃ l, s.freelist = l ++ t.freelist ∧ d'.tablePages.Perm (l ++ d.tablePages)
  mapping : ∀ u < 2 ^ 20, ¬ R u → d'.mapping u = d.mapping u
  mapped : ∀ u < 2 ^ 20, R u → ∃ e, d'.mapping u = some e ∧ e.user = false
  table : ∀ u < 2 ^ 20, d'.hasTable (u * PGSIZE) = true ↔
    d.hasTable (u * PGSIZE) = true ∨ ∃ w, R w ∧ w / 1024 = u / 1024

theorem Pte.not_user {perm : BitVec 12} (f : Nat) (h : perm &&& PTE_U = 0) :
    (Pte.mk f (perm ||| PTE_P)).user = false := by
  have hbit : perm.getLsbD 2 = false := by
    rw [← Pte.user_eq ⟨f, perm⟩, user, decide_eq_false_iff_not, not_not]
    exact h
  rw [user_eq, BitVec.getLsbD_or, hbit]
  rfl

theorem Mapped.extended {v pa n : Nat} {perm : BitVec 12} (h : Mapped d s v pa n perm d' t)
    (hperm : perm &&& PTE_U = 0) : Extended d s (fun u => v ≤ u ∧ u < v + n) d' t := by
  refine ⟨h.page, h.mem, h.taken, fun u hu hno => ?_, fun u hu hin => ?_, fun u hu => ?_⟩
  · rw [h.mapping u hu, if_neg hno]
  · rw [h.mapping u hu, if_pos hin]
    exact ⟨_, rfl, Pte.not_user _ hperm⟩
  · rw [h.table u hu]
    simp only [and_assoc]

theorem Extended.refl : Extended d s (fun _ => False) d s :=
  ⟨rfl, rfl, ⟨[], rfl, by rw [List.nil_append]⟩, fun _ _ _ => rfl, fun _ _ h => h.elim,
    fun _ _ => by simp⟩

theorem Extended.trans {R R' : Nat → Prop} (h : Extended d s R d₁ s₁)
    (h' : Extended d₁ s₁ R' d' t) :
    Extended d s (fun u => R u ∨ R' u) d' t := by
  refine ⟨h'.page.trans h.page, h'.mem.trans h.mem, ?_, ?_, ?_, ?_⟩
  · obtain ⟨l, hl, hp⟩ := h.taken
    obtain ⟨l', hl', hp'⟩ := h'.taken
    refine ⟨l ++ l', by rw [hl, hl', List.append_assoc], hp'.trans ?_⟩
    rw [List.append_assoc]
    exact (hp.append_left l').trans (List.perm_append_comm_assoc _ _ _)
  · intro u hu hno
    rw [h'.mapping u hu fun hr => hno (.inr hr), h.mapping u hu fun hr => hno (.inl hr)]
  · intro u hu hin
    by_cases hr : R' u
    · exact h'.mapped u hu hr
    · rw [h'.mapping u hu hr]
      exact h.mapped u hu (hin.resolve_right hr)
  · intro u hu
    rw [h'.table u hu, h.table u hu]
    constructor
    · rintro ((hd | ⟨w, hw, hu⟩) | ⟨w, hw, hu⟩)
      · exact .inl hd
      · exact .inr ⟨w, .inl hw, hu⟩
      · exact .inr ⟨w, .inr hw, hu⟩
    · rintro (hd | ⟨w, hw | hw, hu⟩)
      · exact .inl (.inl hd)
      · exact .inl (.inr ⟨w, hw, hu⟩)
      · exact .inr ⟨w, hw, hu⟩

namespace Kmap

/-- The first page of an entry of kmap, and how many pages there are. -/
def first (m : Kmap) : Nat := m.virt / PGSIZE

def count (m : Kmap) : Nat := m.size / PGSIZE

def Covers (m : Kmap) (u : Nat) : Prop := m.first ≤ u ∧ u < m.first + m.count

/-- Both ends are at page boundaries, and there is something in between. -/
structure Aligned (m : Kmap) : Prop where
  virt : m.virt % PGSIZE = 0
  size : m.size % PGSIZE = 0
  nonempty : 0 < m.count
  bound : m.first + m.count ≤ 2 ^ 20
  phys : m.physStart < 2 ^ 32
  perm : m.perm &&& PTE_U = 0

theorem Aligned.mappages {m : Kmap} (hm : m.Aligned)
    (hfree : ∀ u, m.Covers u → d.mapping u = none) :
    MapRun d s m.first (m.physStart / PGSIZE) m.count m.perm
      (mappages d m.virt m.size (m.physStart / PGSIZE) m.perm s) := by
  have hvirt := hm.virt
  have hsize := hm.size
  have hpos := hm.nonempty
  have hbound := hm.bound
  have hphys := hm.phys
  have hpa : m.physStart / PGSIZE < 2 ^ 20 := by
    simp only [PGSIZE]
    omega
  have hcount : (PGROUNDDOWN ((m.virt + m.size + 2 ^ 32 - 1) % 2 ^ 32) +
      2 ^ 32 - PGROUNDDOWN m.virt) % 2 ^ 32 /
      PGSIZE + 1 = m.count := by
    simp only [first, count, PGROUNDDOWN, PGSIZE] at *
    omega
  have haddr : PGROUNDDOWN m.virt = m.first * PGSIZE % 2 ^ 32 := by
    simp only [first, count, PGROUNDDOWN, PGSIZE] at *
    omega
  unfold Xv6.mappages
  rw [hcount, haddr]
  exact mapPages_run hbound hpa fun u hlo hhi => hfree u ⟨hlo, hhi⟩

end Kmap

/-- The loop of setupkvm ends with all entries of kmap mapped, or the free list is empty and a page
of an entry has no table. -/
theorem mapKernel_run {l : List Kmap} (hl : ∀ m ∈ l, m.Aligned)
    (hdisjoint : l.Pairwise fun m m' => ∀ u, m.Covers u → ¬ m'.Covers u)
    (hfree : ∀ m ∈ l, ∀ u, m.Covers u → d.mapping u = none) :
    (∃ d' t, Returns (whileSome mapEntry d l) s (some d') t ∧
      Extended d s (fun u => ∃ m ∈ l, m.Covers u) d' t) ∨
      ∃ d' t, Returns (whileSome mapEntry d l) s none t ∧ t.freelist = [] ∧
        ∃ R, Extended d s R d' t ∧ (∀ u, R u → ∃ m ∈ l, m.Covers u) ∧
          ∃ m ∈ l, ∃ u, m.Covers u ∧ d'.hasTable (u * PGSIZE) = false := by
  induction l generalizing d s with
  | nil =>
    refine .inl ⟨d, s, whileSome_nil, ?_⟩
    simpa using Extended.refl
  | cons m rest ih =>
    have hm := hl m List.mem_cons_self
    obtain ⟨hd, hrestd⟩ := List.pairwise_cons.mp hdisjoint
    have hmap := hm.mappages (s := s) fun u hu => hfree m List.mem_cons_self u hu
    generalize hx : mappages d m.virt _ _ _ s = x at hmap
    cases hmap with
    | @done d₁ s₁ hmapped =>
      have hfirst : Extended d s m.Covers d₁ s₁ := hmapped.extended hm.perm
      have hentry : Returns (mapEntry d m) s (some d₁) s₁ := Returns.bind hx returns_pure
      have hih := ih (d := d₁) (s := s₁) (fun m' hm' => hl m' (List.mem_cons_of_mem m hm')) hrestd (by
        intro m' hm' u hu
        rw [hfirst.mapping u ?_ fun hmu => hd m' hm' u hmu hu]
        · exact hfree m' (List.mem_cons_of_mem m hm') u hu
        · have := (hl m' (List.mem_cons_of_mem m hm')).bound
          have := hu.2
          omega)
      rcases hih with ⟨d₂, t, hrun, hext⟩ | ⟨d₂, t, hrun, hempty, R, hext, hR, m', hm', hno⟩
      · refine .inl ⟨d₂, t, hentry.whileSome_cons hrun, ?_⟩
        simpa using hfirst.trans hext
      · refine .inr ⟨d₂, t, hentry.whileSome_cons hrun, hempty, _, hfirst.trans hext, ?_, m',
          List.mem_cons_of_mem m hm', hno⟩
        rintro u (hu | hu)
        · exact ⟨m, List.mem_cons_self, hu⟩
        · obtain ⟨m', hm', hu'⟩ := hR u hu
          exact ⟨m', List.mem_cons_of_mem m hm', hu'⟩
    | @failed d₁ s₁ j hj hmapped hempty hno =>
      have hentry : Returns (mapEntry d m) s none s₁ := Returns.bind hx returns_pure
      refine .inr ⟨d₁, s₁, hentry.whileSome_stop, hempty, _, hmapped.extended hm.perm, ?_, m,
        List.mem_cons_self, m.first + j, ⟨by omega, by omega⟩, hno⟩
      rintro u ⟨hlo, hhi⟩
      exact ⟨m, List.mem_cons_self, hlo, by omega⟩

/-- The pages that the kernel maps. -/
def KernelPage (u : Nat) : Prop := 0x80000 ≤ u ∧ u < 0x8E000 ∨ 0xFE000 ≤ u ∧ u < 0x100000

theorem kmap_aligned : ∀ m ∈ kmap k, m.Aligned := by
  have htext := k.text
  have haligned := k.aligned
  have hordered := k.ordered
  have hfits := k.fits
  intro m hm
  simp only [kmap, List.mem_cons, List.not_mem_nil, or_false] at hm
  rcases hm with rfl | rfl | rfl | rfl
  all_goals
    refine ⟨?_, ?_, ?_, ?_, ?_, by dsimp only; decide⟩ <;> simp only [Kmap.first, Kmap.count,
      Kmap.size, KERNLINK, KERNBASE, EXTMEM, PHYSTOP, DEVSPACE, PGSIZE] at * <;> omega

theorem kmap_disjoint : (kmap k).Pairwise fun m m' => ∀ u, m.Covers u → ¬ m'.Covers u := by
  have htext := k.text
  have haligned := k.aligned
  have hordered := k.ordered
  have hfits := k.fits
  simp only [kmap, List.pairwise_cons, List.mem_cons, List.not_mem_nil, or_false, forall_eq_or_imp,
    forall_eq,
    Kmap.Covers, Kmap.first, Kmap.count, Kmap.size, KERNLINK, KERNBASE, EXTMEM, PHYSTOP, DEVSPACE,
      PGSIZE] at *
  refine ⟨⟨?_, ?_, ?_⟩, ⟨?_, ?_⟩, ?_, by simp⟩
  all_goals
    intro u hu
    omega

theorem kmap_covers (u : Nat) : (∃ m ∈ kmap k, m.Covers u) ↔ KernelPage u := by
  have htext := k.text
  have haligned := k.aligned
  have hordered := k.ordered
  have hfits := k.fits
  simp only [kmap, List.mem_cons, List.not_mem_nil, or_false, exists_eq_or_imp, exists_eq_left,
    KernelPage,
    Kmap.Covers, Kmap.first, Kmap.count, Kmap.size, KERNLINK, KERNBASE, EXTMEM, PHYSTOP, DEVSPACE,
      PGSIZE] at *
  omega

/-- Index i of a directory belongs to the kernel. -/
def kernelIndex (i : Fin NPDENTRIES) : Bool := decide (512 ≤ i.val ∧ i.val < 568 ∨ 1016 ≤ i.val)

theorem kernelIndex_count : (List.finRange NPDENTRIES).countP kernelIndex = 64 := by decide +kernel

theorem kernelIndex_iff (i : Fin NPDENTRIES) :
    kernelIndex i = true ↔ ∃ w, KernelPage w ∧ w / 1024 = i.val * 1024 / 1024 := by
  have := i.isLt
  simp only [NPDENTRIES] at this
  simp only [kernelIndex, decide_eq_true_eq, KernelPage]
  constructor
  · intro h
    exact ⟨i.val * 1024, by omega, rfl⟩
  · rintro ⟨w, hw, hwi⟩
    omega

/-- A directory of setupkvm: the kernel has its tables, and there is nothing below KERNBASE. -/
structure KernelDir (d : PageDir) : Prop where
  tables : d.tablePages.length = 64
  mapping : ∀ u < 2 ^ 19, d.mapping u = none
  table : ∀ u < 2 ^ 19, d.hasTable (u * PGSIZE) = false
  kernel : ∀ u, KernelPage u → (d.mapping u).isSome
  access : ∀ u < 2 ^ 20, ∀ e, d.mapping u = some e → e.user = false

/-- setupkvm needs a page for the directory and 64 for the tables. If they run out, they are lost.
-/
theorem setupkvm_run {page : Nat} {rest : List Nat} (hs : s.freelist = page :: rest) :
    (64 ≤ rest.length ∧ ∃ d t, Returns (setupkvm k) s (some d) t ∧ d.page = page ∧ KernelDir d ∧
      t.mem = s.mem ∧ ∃ l, rest = l ++ t.freelist ∧ d.tablePages.Perm l) ∨
      (rest.length < 64 ∧ ∃ t, Returns (setupkvm k) s none t ∧ t.freelist = [] ∧ t.mem = s.mem) := by
  have hempty : ∀ v, (PageDir.mk page fun _ => none).mapping v = none := by
    simp [PageDir.mapping, PageDir.load]
  have hno : ∀ va, (PageDir.mk page fun _ => none).hasTable va = false := fun _ => rfl
  have hnil : (PageDir.mk page fun _ => none).tablePages = [] := by simp [PageDir.tablePages]
  have hstart : ∀ {o t}, Returns (whileSome mapEntry ⟨page, fun _ => none⟩ (kmap k))
    { s with freelist := rest } o t →
      Returns (setupkvm k) s o t := by
    intro o t hrun
    refine (kalloc_some hs).bind ?_
    dsimp only
    rw [if_neg (by decide)]
    exact hrun
  have htables : ∀ {R : Nat → Prop} {d : PageDir} {t : Kmem},
      Extended ⟨page, fun _ => none⟩ { s with freelist := rest } R d t →
        ∃ l, rest = l ++ t.freelist ∧ d.tablePages.Perm l := by
    intro R d t hext
    obtain ⟨l, hl, hp⟩ := hext.taken
    rw [hnil, List.append_nil] at hp
    exact ⟨l, hl, hp⟩
  rcases mapKernel_run (s := { s with freelist := rest }) kmap_aligned kmap_disjoint fun m _ u _ =>
    hempty u with
    ⟨d, t, hrun, hext⟩ | ⟨d, t, hrun, hfree, R, hext, hR, m, hm, u, hu, hnone⟩
  · left
    simp only [kmap_covers] at hext
    obtain ⟨l, hl, hp⟩ := htables hext
    have hcount : d.tablePages.length = 64 := by
      rw [tablePages_length, ← kernelIndex_count]
      apply List.countP_congr
      intro i _
      have hi := i.isLt
      simp only [NPDENTRIES] at hi
      rw [hext.table _ (by omega), hno, kernelIndex_iff]
      simp
    have hlen := hp.length_eq
    refine ⟨?_, d, t, hstart hrun, hext.page, ⟨hcount, ?_, ?_, ?_, ?_⟩, hext.mem, l, hl, hp⟩
    · rw [hl, List.length_append]
      omega
    · intro v hv
      rw [hext.mapping v (by omega) (by unfold KernelPage; omega)]
      exact hempty v
    · intro v hv
      by_contra htrue
      have := (hext.table v (by omega)).mp (by simpa using htrue)
      rw [hno] at this
      obtain ⟨w, hw, hwv⟩ := this.resolve_left (by simp)
      unfold KernelPage at hw
      omega
    · intro v hv
      obtain ⟨e, he, _⟩ := hext.mapped v (by unfold KernelPage at hv; omega) hv
      rw [he]
      rfl
    · intro v hv e he
      by_cases hk : KernelPage v
      · obtain ⟨e', he', huser⟩ := hext.mapped v hv hk
        cases he.symm.trans he'
        exact huser
      · rw [hext.mapping v hv hk, hempty] at he
        cases he
  · right
    obtain ⟨l, hl, hp⟩ := htables hext
    rw [hfree, List.append_nil] at hl
    refine ⟨?_, t, hstart hrun, hfree, hext.mem⟩
    have hku : KernelPage u := (kmap_covers u).mp ⟨m, hm, hu⟩
    have hu20 : u < 2 ^ 20 := by
      unfold KernelPage at hku
      omega
    have hpde : d.pde (PDX (u * PGSIZE)) = none := by simpa [PageDir.hasTable] using hnone
    have hmore := (PageDir.tablePages_addTable (r := 0) hpde).length_eq
    have hle : (d.addTable (PDX (u * PGSIZE)) 0).tablePages.length ≤ 64 := by
      rw [tablePages_length, ← kernelIndex_count]
      apply List.countP_mono_left
      intro i _ hi
      have hilt := i.isLt
      simp only [NPDENTRIES] at hilt
      rw [kernelIndex_iff]
      rcases PageDir.hasTable_addTable.mp hi with heq | htab
      · exact ⟨u, hku, ((pdx_eq_iff (by omega) hu20).mp heq).symm⟩
      · obtain ⟨w, hw, hwi⟩ := ((hext.table _ (by omega)).mp htab).resolve_left (by rw [hno]; simp)
        exact ⟨w, (kmap_covers w).mp (hR w hw), hwi⟩
    have hlen := hp.length_eq
    rw [List.length_cons] at hmore
    rw [hl]
    omega

theorem freeTables_run {l : List (Fin NPDENTRIES)}
    (hvalid : ∀ f ∈ l.filterMap fun i => (d.pde i).map PageTable.page, k.Valid f) :
    ∃ t, Returns (freeTables k d l) s () t ∧
      t.freelist = (l.filterMap fun i => (d.pde i).map PageTable.page).reverse ++ s.freelist ∧
      ∀ f ∉ l.filterMap fun i => (d.pde i).map PageTable.page, t.mem f = s.mem f := by
  induction l generalizing s with
  | nil => exact ⟨s, returns_pure, rfl, fun _ _ => rfl⟩
  | cons i l ih =>
    unfold freeTables
    cases hi : d.pde i with
    | none =>
      obtain ⟨t, hrun, ht, hmem⟩ := ih (s := s) fun f hf => hvalid f (by simpa [hi] using hf)
      exact ⟨t, hrun, by simpa [hi] using ht, by simpa [hi] using hmem⟩
    | some tab =>
      have htab := hvalid tab.page (by simp [hi])
      obtain ⟨t, hrun, ht, hmem⟩ :=
        ih (s := ⟨tab.page :: s.freelist, Function.update s.mem tab.page fun _ => 1⟩) (by
        intro f hf
        refine hvalid f ?_
        rw [List.filterMap_cons, hi]
        exact List.mem_cons_of_mem _ hf)
      refine ⟨t, Returns.bind (kfree_run htab s) hrun, by simpa [hi] using ht, fun f hf => ?_⟩
      rw [List.filterMap_cons, hi, Option.map_some] at hf
      obtain ⟨hne, hrest⟩ := not_or.mp (List.mem_cons.not.mp hf)
      rw [hmem f hrest]
      exact Function.update_of_ne hne _ _

theorem freevm_run (hpage : k.Valid d.page) (htables : ∀ f ∈ d.tablePages, k.Valid f)
    (hframes : ∀ f ∈ d.frames 0 (2 ^ 19), k.Valid f) :
    ∃ t, Returns (freevm k d) s () t ∧
      t.freelist = d.page :: (d.tablePages.reverse ++ ((d.frames 0 (2 ^ 19)).reverse ++ s.freelist)) ∧
      ∀ f, f ≠ d.page → f ∉ d.tablePages → f ∉ d.frames 0 (2 ^ 19) → t.mem f = s.mem f := by
  have hlo : pages 0 = 0 := by decide
  have hhi : pages KERNBASE = 2 ^ 19 := by decide
  obtain ⟨d', t, hrun, hun⟩ :=
    deallocuvm_run (k := k) (d := d) (s := s) 0 (Nat.le_refl KERNBASE) (by decide)
    (.inl (by rw [hlo])) (by
      rw [hlo, hhi]
      exact fun u e hl hu he => hframes _ (PageDir.mem_frames.mpr ⟨u, e, hl, hu, he, rfl⟩))
  rw [hlo, hhi] at hun
  obtain ⟨t₁, hrun₁, hfree₁, hmem₁⟩ :=
    freeTables_run (k := k) (d := d') (s := t) (l := List.finRange NPDENTRIES) (by
    intro f hf
    refine htables f ?_
    rw [← hun.tables]
    exact hf)
  have hpage' : k.Valid d'.page := by
    rw [hun.page]
    exact hpage
  have htab : (List.finRange NPDENTRIES).filterMap (fun i => (d'.pde i).map PageTable.page) =
    d.tablePages := hun.tables
  refine ⟨_, hrun.bind (hrun₁.bind (kfree_run hpage' t₁)), ?_, ?_⟩
  · rw [hun.page, hfree₁, htab, hun.freelist]
  · intro f hpage hfree hframe
    rw [htab] at hmem₁
    rw [hun.page]
    exact (Function.update_of_ne hpage _ _).trans ((hmem₁ f hfree).trans (hun.mem f hframe))

/-- The loop of copyuvm has come to page i; d₀ and s₀ are those after setupkvm. -/
structure Copying (d₀ : PageDir) (s₀ : Kmem) (i : Nat) (d : PageDir) (s : Kmem) : Prop where
  page : d.page = d₀.page
  mapping : ∀ u < 2 ^ 19, i ≤ u → d.mapping u = none
  table : ∀ u < 2 ^ 19, d.hasTable (u * PGSIZE) = true ↔ u / 1024 * 1024 < i
  taken : ∃ l, s₀.freelist.Perm (d.frames 0 i ++ (l ++ s.freelist)) ∧
    d.tablePages.Perm (l ++ d₀.tablePages)
  count : s₀.freelist.length = i + (i + 1023) / 1024 + s.freelist.length

theorem KernelDir.copying (h : KernelDir d) : Copying d s 0 d s := by
  refine ⟨rfl, fun u hu _ => h.mapping u hu, fun u hu => ?_, ⟨[], ?_, ?_⟩, by simp⟩
  · rw [h.table u hu]
    simp
  · rw [PageDir.frames_empty (Nat.le_refl 0)]
    rfl
  · rw [List.nil_append]

theorem Copying.step {d₀ : PageDir} {s₀ : Kmem} {i r : Nat} {next : List Nat}
    {m : Nat → Block PGSIZE} {perm : BitVec 12} (h : Copying d₀ s₀ i d s) (hi : i < 2 ^ 19)
    (hr : r < 2 ^ 20) (hs : s.freelist = r :: next)
    (hmap : Mapped d ⟨next, m⟩ i r 1 perm d' t) : Copying d₀ s₀ (i + 1) d' t := by
  have hother : ∀ u < 2 ^ 20, u ≠ i → d'.mapping u = d.mapping u := by
    intro u hu hne
    rw [hmap.mapping u hu, if_neg (by omega)]
  refine ⟨hmap.page.trans h.page, ?_, ?_, ?_, ?_⟩
  · intro u hu hle
    rw [hother u (by omega) (by omega)]
    exact h.mapping u hu (by omega)
  · intro u hu
    rw [hmap.table u (by omega), h.table u hu]
    constructor
    · rintro (hlt | ⟨w, hlo, hhi, hw⟩)
      · omega
      · omega
    · intro hlt
      by_cases hold : u / 1024 * 1024 < i
      · exact .inl hold
      · exact .inr ⟨i, by omega, by omega, by omega⟩
  · obtain ⟨l, hperm, htables⟩ := h.taken
    obtain ⟨l', hl', hp'⟩ := hmap.taken
    have hself : d'.mapping i = some ⟨r, perm ||| PTE_P⟩ := by
      rw [hmap.mapping i (by omega), if_pos (by omega)]
      rw [Nat.sub_self, Nat.add_zero, Nat.mod_eq_of_lt hr]
    have hframes : d'.frames 0 (i + 1) = d.frames 0 i ++ [r] := by
      rw [PageDir.frames_append (Nat.zero_le i) (Nat.le_succ i),
        PageDir.frames_cons (Nat.lt_succ_self i), hself, PageDir.frames_empty (Nat.le_refl _)]
      congr 1
      exact PageDir.frames_congr fun u _ hu => hother u (by omega) (by omega)
    refine ⟨l' ++ l, ?_, ?_⟩
    · rw [hframes]
      refine hperm.trans ?_
      have hnext : next = l' ++ t.freelist := hl'
      rw [hs, hnext]
      simp only [List.append_assoc, List.cons_append, List.nil_append]
      refine List.Perm.append_left _ (List.perm_middle.trans (List.Perm.cons r ?_))
      exact List.perm_append_comm_assoc _ _ _
    · refine hp'.trans ?_
      rw [List.append_assoc]
      exact htables.append_left l'
  · have hcount := h.count
    have hlen : next.length + d.tablePages.length = t.freelist.length + d'.tablePages.length :=
      hmap.length_le
    have htab := hmap.tables_one (by omega)
    rw [hs, List.length_cons] at hcount
    have hti := h.table i hi
    cases hd : d.hasTable (i * PGSIZE) with
    | true =>
      rw [hd, if_pos rfl] at htab
      have := hti.mp hd
      omega
    | false =>
      rw [hd, if_neg (by simp)] at htab
      have := hti.not.mp (by simp [hd])
      omega

theorem Copying.free {d₀ : PageDir} {s₀ : Kmem} {i : Nat} (h : Copying d₀ s₀ i d s)
    (hi : i ≤ 2 ^ 19) (hpage : k.Valid d₀.page) (htables : ∀ f ∈ d₀.tablePages, k.Valid f)
    (hfree : ∀ f ∈ s₀.freelist, k.Valid f) :
    ∃ t, Returns (freevm k d) s () t ∧
      t.freelist.Perm (d₀.page :: (d₀.tablePages ++ s₀.freelist)) := by
  obtain ⟨l, hperm, htabs⟩ := h.taken
  have hframes : d.frames 0 (2 ^ 19) = d.frames 0 i := by
    rw [PageDir.frames_append (Nat.zero_le i) hi,
      PageDir.frames_skip i hi fun u hl _ hu => h.mapping u hu hl,
      PageDir.frames_empty (Nat.le_refl _), List.append_nil]
  obtain ⟨t, hrun, ht, _⟩ := freevm_run (k := k) (d := d) (s := s) (by rw [h.page]; exact hpage)
    (fun f hf => by
      rcases List.mem_append.mp (htabs.mem_iff.mp hf) with hl | ht
      · exact hfree f (hperm.mem_iff.mpr (by simp [hl]))
      · exact htables f ht)
    (fun f hf => hfree f (hperm.mem_iff.mpr (by simp [hframes ▸ hf])))
  refine ⟨t, hrun, ?_⟩
  rw [ht, h.page, hframes]
  refine List.Perm.cons _ ?_
  have hall : (d.tablePages.reverse ++ ((d.frames 0 i).reverse ++ s.freelist)).Perm
      (l ++ d₀.tablePages ++ (d.frames 0 i ++ s.freelist)) :=
    ((List.reverse_perm _).trans htabs).append ((List.reverse_perm _).append_right _)
  rw [List.append_assoc] at hall
  refine (hall.trans (List.perm_append_comm_assoc _ _ _)).trans (List.Perm.append_left _ ?_)
  exact (List.perm_append_comm_assoc _ _ _).trans hperm.symm

theorem Copying.hold {d₀ : PageDir} {s₀ : Kmem} {i r : Nat} {next : List Nat}
    {m : Nat → Block PGSIZE} {perm : BitVec 12} (h : Copying d₀ s₀ i d s) (hi : i < 2 ^ 19)
    (hs : s.freelist = r :: next) (hmap : Mapped d ⟨next, m⟩ i r 0 perm d' t)
    (hempty : t.freelist = []) :
    next = [] ∧ ∃ s₁ : Kmem, Copying d₀ s₁ i d' t ∧ s₀.freelist.Perm (r :: s₁.freelist) := by
  obtain ⟨l, hperm, htabs⟩ := h.taken
  obtain ⟨l', hl', hp'⟩ := hmap.taken
  have hsame := tablePages_length_congr fun u hu => hmap.hasTable_zero hu
  have hnext : next = [] := by
    have hlen : next.length + d.tablePages.length = t.freelist.length + d'.tablePages.length :=
      hmap.length_le
    rw [hempty, hsame] at hlen
    exact List.length_eq_zero_iff.mp (by simpa using hlen)
  have hl'nil : l' = [] := by
    have : next = l' ++ t.freelist := hl'
    rw [hnext, hempty, List.append_nil] at this
    exact this.symm
  rw [hl'nil, List.nil_append] at hp'
  have hmapping : ∀ u < 2 ^ 20, d'.mapping u = d.mapping u := by
    intro u hu
    rw [hmap.mapping u hu, if_neg (by omega)]
  have hall : s₀.freelist.Perm (r :: (d.frames 0 i ++ l)) := by
    refine hperm.trans ?_
    rw [hs, hnext, ← List.append_assoc]
    exact List.perm_append_singleton r _
  have hframes : d'.frames 0 i = d.frames 0 i :=
    PageDir.frames_congr fun u _ hu => hmapping u (by omega)
  refine ⟨hnext, ⟨d.frames 0 i ++ l, s₀.mem⟩,
    ⟨hmap.page.trans h.page, ?_, ?_, ⟨l, ?_, hp'.trans htabs⟩, ?_⟩, hall⟩
  · intro u hu hle
    rw [hmapping u (by omega)]
    exact h.mapping u hu hle
  · intro u hu
    rw [hmap.hasTable_zero (by omega)]
    exact h.table u hu
  · rw [hframes, hempty, List.append_nil]
  · have hcount := h.count
    have hlen := hall.length_eq
    rw [hs, hnext] at hcount
    rw [hempty]
    simp only [List.length_cons, List.length_nil] at hlen hcount ⊢
    omega

/-- How the loop of copyuvm ends between the pages i and e: with the pages copied; with all that was
taken given back; or, if there is a page for a copy but none for its table, with the page for the
copy lost. -/
inductive CopyRun (d₀ : PageDir) (s₀ : Kmem) (i e : Nat) (s : Kmem) (x : VmM (Option PageDir)) :
    Prop
  | copied {d' : PageDir} {t : Kmem} : Returns x s (some d') t → Copying d₀ s₀ e d' t → CopyRun d₀ s₀ i e s x
  | clean {t : Kmem} (j : Nat) : i ≤ j → j < e → Returns x s none t → s₀.freelist.length = j + (j + 1023) / 1024 →
      t.freelist.Perm (d₀.page :: (d₀.tablePages ++ s₀.freelist)) → CopyRun d₀ s₀ i e s x
  | leak {t : Kmem} (j : Nat) : i ≤ j → j < e → Returns x s none t → j % 1024 = 0 →
      s₀.freelist.length = j + (j + 1023) / 1024 + 1 →
      t.freelist.length = d₀.tablePages.length + s₀.freelist.length → CopyRun d₀ s₀ i e s x

section Turn

variable {pgdir : PageDir} {e : Pte} {i r : Nat} {next : List Nat}

theorem hasTable_of_mapping (hi : i < 2 ^ 20) (he : pgdir.mapping i = some e) :
    pgdir.hasTable (i * PGSIZE) = true := by
  by_contra hno
  rw [mapping_of_no_table hi hi (by simpa using hno) rfl] at he
  cases he

theorem walkpgdir_present (hi : i < 2 ^ 20) (he : pgdir.mapping i = some e) :
    Returns (walkpgdir pgdir (i * PGSIZE) false) s
      (pgdir, some (PDX (i * PGSIZE), PTX (i * PGSIZE))) s := by
  have := walkpgdir_lookup pgdir (i * PGSIZE) s
  rwa [hasTable_of_mapping hi he, if_pos rfl] at this

theorem copyPage_empty (hi : i < 2 ^ 20) (he : pgdir.mapping i = some e) (hs : s.freelist = [])
    (hrun : Returns (freevm k d) s () t) : Returns (copyPage k pgdir d (i * PGSIZE)) s none t := by
  obtain ⟨hload, hp⟩ := mapping_eq_some he
  refine (walkpgdir_present hi he).bind ?_
  dsimp only
  rw [hload, hp, if_pos rfl]
  exact (kalloc_none hs).bind (hrun.bind returns_pure)

theorem copyPage_mapped (hi : i < 2 ^ 20) (he : pgdir.mapping i = some e)
    (hs : s.freelist = r :: next)
    (hx : Returns (mappages d (i * PGSIZE) PGSIZE r e.flags)
      ⟨next, Function.update s.mem r (s.mem e.addr)⟩ (d', true) t) :
    Returns (copyPage k pgdir d (i * PGSIZE)) s (some d') t := by
  obtain ⟨hload, hp⟩ := mapping_eq_some he
  refine (walkpgdir_present hi he).bind ?_
  dsimp only
  rw [hload, hp, if_pos rfl]
  exact (kalloc_some hs).bind (returns_modify.bind (hx.bind returns_pure))

theorem copyPage_failed (hi : i < 2 ^ 20) (he : pgdir.mapping i = some e)
    (hs : s.freelist = r :: next)
    (hx : Returns (mappages d (i * PGSIZE) PGSIZE r e.flags)
      ⟨next, Function.update s.mem r (s.mem e.addr)⟩ (d', false) s₁) (hrun : Returns (freevm k d') s₁ () t) :
    Returns (copyPage k pgdir d (i * PGSIZE)) s none t := by
  obtain ⟨hload, hp⟩ := mapping_eq_some he
  refine (walkpgdir_present hi he).bind ?_
  dsimp only
  rw [hload, hp, if_pos rfl]
  exact (kalloc_some hs).bind (returns_modify.bind (hx.bind (hrun.bind returns_pure)))

end Turn

theorem copyPage_run {pgdir d₀ : PageDir} {s₀ : Kmem} {i : Nat} (h : Copying d₀ s₀ i d s)
    (hi : i < 2 ^ 19) (hpresent : (pgdir.mapping i).isSome) (hpage : k.Valid d₀.page)
    (htables : ∀ f ∈ d₀.tablePages, k.Valid f) (hfree : ∀ f ∈ s₀.freelist, k.Valid f) :
    CopyRun d₀ s₀ i (i + 1) s (copyPage k pgdir d (i * PGSIZE)) := by
  obtain ⟨e, he⟩ := Option.isSome_iff_exists.mp hpresent
  have hi20 : i < 2 ^ 20 := by omega
  have hcount := h.count
  cases hs : s.freelist with
  | nil =>
    rw [hs] at hcount
    obtain ⟨t, hrun, ht⟩ := h.free (by omega) hpage htables hfree
    exact .clean i (Nat.le_refl i) (Nat.lt_succ_self i) (copyPage_empty hi20 he hs hrun)
      (by simpa using hcount) ht
  | cons r next =>
    obtain ⟨l, hperm, htabs⟩ := h.taken
    have hr := (hfree r (hperm.mem_iff.mpr (by simp [hs]))).2
    have hr20 : r < 2 ^ 20 := by
      simp only [PGSIZE, PHYSTOP] at hr
      omega
    have hmap := mappages_page (s := ⟨next, Function.update s.mem r (s.mem e.addr)⟩)
      (v := i) e.flags
      hi20 hr20 (h.mapping i hi (Nat.le_refl i))
    generalize hx : mappages d (i * PGSIZE) PGSIZE r e.flags _ = x at hmap
    cases hmap with
    | @done d₁ t₁ hmapped =>
      exact .copied (copyPage_mapped hi20 he hs hx) (h.step hi hr20 hs hmapped)
    | @failed d₁ t₁ j hj hmapped hempty hno =>
      obtain rfl : j = 0 := by omega
      obtain ⟨hnext, s₁, hheld, hlen⟩ := h.hold hi hs hmapped hempty
      obtain ⟨t, hrun, ht⟩ := hheld.free (by omega) hpage htables fun f hf =>
        hfree f (hlen.mem_iff.mpr (List.mem_cons_of_mem r hf))
      have hlen' := hlen.length_eq
      have htlen := ht.length_eq
      simp only [List.length_cons, List.length_append] at hlen' htlen
      refine .leak i (Nat.le_refl i) (Nat.lt_succ_self i)
        (copyPage_failed hi20 he hs hx hrun) ?_ ?_ (by omega)
      · rw [Nat.add_zero, hmapped.hasTable_zero (by omega)] at hno
        have hti := (h.table i hi).not.mp (by simp [hno])
        omega
      · rw [hs, hnext] at hcount
        simpa using hcount

theorem copyPages_run (pgdir : PageDir) {d₀ : PageDir} {s₀ : Kmem} {i n : Nat}
    (h : Copying d₀ s₀ i d s) (hi : i + n ≤ 2 ^ 19)
    (hpresent : ∀ u < i + n, (pgdir.mapping u).isSome) (hpage : k.Valid d₀.page)
    (htables : ∀ f ∈ d₀.tablePages, k.Valid f) (hfree : ∀ f ∈ s₀.freelist, k.Valid f) :
    CopyRun d₀ s₀ i (i + n) s
      (whileSome (copyPage k pgdir) d ((List.range' i n).map (· * PGSIZE))) := by
  induction n generalizing d s i with
  | zero => exact .copied whileSome_nil h
  | succ n ih =>
    rw [List.range'_succ, List.map_cons, show i + (n + 1) = i + 1 + n by omega]
    have hturn := copyPage_run h (by omega) (hpresent i (by omega)) hpage htables hfree
    cases hturn with
    | copied hrun hnext =>
      cases ih hnext (by omega) fun u hu => hpresent u (by omega) with
      | copied hrest hend => exact .copied (hrun.whileSome_cons hrest) hend
      | clean j hij hj hrest hlen hall => exact .clean j (by omega) hj (hrun.whileSome_cons hrest) hlen hall
      | leak j hij hj hrest hmod hlen hlost =>
        exact .leak j (by omega) hj (hrun.whileSome_cons hrest) hmod hlen hlost
    | clean j hij hj hrun hlen hall => exact .clean j hij (by omega) hrun.whileSome_stop hlen hall
    | leak j hij hj hrun hmod hlen hlost =>
      exact .leak j hij (by omega) hrun.whileSome_stop hmod hlen hlost

/-- The entry of a process in ptable, as far as fork fills it in before the files and the name. -/
structure ForkEntry where
  state : ProcState
  pid : Nat
  kstack : Option Nat
  sz : Nat
  pgdir : Option PageDir

/-- allocproc for the entry np that it has found, up to the kernel stack. -/
def allocEntry (nextpid : Nat) (np : ForkEntry) : VmM (ForkEntry × Bool) := do
  match ← Kmem.kalloc with
  | none => pure ({ np with state := .unused, pid := nextpid, kstack := none }, false)
  | some kstack => pure ({ np with state := .embryo, pid := nextpid, kstack := some kstack }, true)

/-- kfree(np->kstack). -/
def freeStack (k : KernelImage) (np : ForkEntry) : VmM Unit :=
  match np.kstack with
  | none => throw .kfree
  | some kstack => Kmem.kfree k kstack

/-- fork, with the entry that allocproc finds. -/
def forkMemory (k : KernelImage) (nextpid : Nat) (proc : UserMem) (np : ForkEntry) :
    VmM (ForkEntry × Int) := do
  match ← allocEntry nextpid np with
  | (np, false) => pure (np, -1)
  | (np, true) =>
    match ← copyuvm k proc.pgdir proc.sz with
    | none => do
      freeStack k np
      pure ({ np with pgdir := none, kstack := none, state := .unused }, -1)
    | some d => pure ({ np with pgdir := some d, sz := proc.sz, state := .runnable }, np.pid)

/-- The pages that fork needs before it comes to page i: the kernel stack, a directory with 64
tables, and i pages with a table for each 1024 of them. -/
def forkPages (i : Nat) : Nat := 66 + i + (i + 1023) / 1024

/-- A fork that fails has lost nothing: the free list has the pages that it had, and the entry is
unused. -/
def FailsCleanly (k : KernelImage) (nextpid : Nat) (proc : UserMem) (np : ForkEntry) (s : Kmem) :
    Prop :=
  ∃ np' r t, Returns (forkMemory k nextpid proc np) s (np', r) t ∧
    (r = -1 → t.freelist.Perm s.freelist ∧ np'.state = .unused ∧ np'.kstack = none)

section fork

variable {nextpid : Nat} {proc : UserMem} {np : ForkEntry} {kstack : Nat} {rest : List Nat}

theorem allocEntry_some (hs : s.freelist = kstack :: rest) :
    Returns (allocEntry nextpid np) s
      ({ np with state := .embryo, pid := nextpid, kstack := some kstack }, true)
      { s with freelist := rest } :=
  (kalloc_some hs).bind returns_pure

theorem fork_of_copyuvm_none (nextpid : Nat) (np : ForkEntry) (hs : s.freelist = kstack :: rest)
    (hk : k.Valid kstack)
    (h : Returns (copyuvm k proc.pgdir proc.sz) { s with freelist := rest } none t) :
    ∃ np' u, Returns (forkMemory k nextpid proc np) s (np', -1) u ∧
      u.freelist = kstack :: t.freelist ∧
      np'.state = .unused ∧ np'.kstack = none :=
  ⟨_, _, (allocEntry_some hs).bind (h.bind (Returns.bind (kfree_run hk t) returns_pure)), rfl,
    rfl, rfl⟩

theorem fork_of_copyuvm_some (nextpid : Nat) (np : ForkEntry) (hs : s.freelist = kstack :: rest)
    (h : Returns (copyuvm k proc.pgdir proc.sz) { s with freelist := rest } (some d) t) :
    ∃ np', Returns (forkMemory k nextpid proc np) s (np', nextpid) t :=
  ⟨_, (allocEntry_some hs).bind (h.bind returns_pure)⟩

/-- A failed fork is clean if the free list is as before, and not if it has become shorter. -/
theorem failsCleanly_iff_perm (hs : s.freelist = kstack :: rest) (hk : k.Valid kstack)
    (h : Returns (copyuvm k proc.pgdir proc.sz) { s with freelist := rest } none t) :
    FailsCleanly k nextpid proc np s ↔ t.freelist.Perm rest := by
  obtain ⟨np', u, hrun, hu, hstate, hstack⟩ := fork_of_copyuvm_none nextpid np hs hk h
  constructor
  · rintro ⟨np₁, r, u₁, hrun₁, hclean⟩
    obtain ⟨hval, rfl⟩ := hrun.unique hrun₁
    obtain ⟨rfl, rfl⟩ := Prod.mk.inj hval
    have hperm := (hclean rfl).1
    rw [hu, hs] at hperm
    exact (List.perm_cons kstack).mp hperm
  · intro hperm
    refine ⟨np', -1, u, hrun, fun _ => ⟨?_, hstate, hstack⟩⟩
    rw [hu, hs]
    exact hperm.cons kstack

/-- If fork's memory does not run out it succeeds, and if it does, fork loses nothing only if it was
the page for the kernel stack, for the directory or for a user page that could not be had. -/
theorem fork_fails_cleanly_iff (hsz : proc.sz < KERNBASE)
    (hpresent : ∀ u < pages proc.sz, (proc.pgdir.mapping u).isSome)
    (hfree : ∀ f ∈ s.freelist, k.Valid f) :
    FailsCleanly k nextpid proc np s ↔
      forkPages (pages proc.sz) ≤ s.freelist.length ∨ s.freelist.length ≤ 1 ∨
        ∃ i < pages proc.sz, s.freelist.length = forkPages i := by
  have hpages := pages_le (Nat.le_of_lt hsz)
  cases hs : s.freelist with
  | nil =>
    refine ⟨fun _ => .inr (.inl (by simp)), fun _ => ?_⟩
    have hentry : Returns (allocEntry nextpid np) s
        ({ np with state := .unused, pid := nextpid, kstack := none }, false) s :=
      (kalloc_none hs).bind returns_pure
    exact ⟨_, -1, s, hentry.bind returns_pure, fun _ => ⟨List.Perm.refl _, rfl, rfl⟩⟩
  | cons kstack rest =>
    have hk := hfree kstack (by simp [hs])
    cases hrest : rest with
    | nil =>
      have hsetup : Returns (setupkvm k) { s with freelist := rest } none { s with freelist := [] } := by
        rw [hrest]
        exact (kalloc_none rfl).bind returns_pure
      rw [failsCleanly_iff_perm hs hk (hsetup.bind returns_pure), hrest]
      simp
    | cons page tail =>
      have hlen : s.freelist.length = tail.length + 2 := by rw [hs, hrest]; rfl
      rw [← hrest, ← hs, hlen]
      have hvalid : ∀ f ∈ page :: tail, k.Valid f := fun f hf =>
        hfree f (by rw [hs, hrest]; exact List.mem_cons_of_mem _ hf)
      rcases setupkvm_run (k := k) (s := { s with freelist := rest }) hrest with
        ⟨hmany, d, t₀, hsetup, hdpage, hkd, _, l, hl, htabs⟩ | ⟨hfew, t, hsetup, hempty, _⟩
      case inr =>
        rw [failsCleanly_iff_perm hs hk (hsetup.bind returns_pure), hempty, hrest]
        unfold forkPages
        constructor
        · intro hperm
          cases hperm.length_eq
        · rintro (hmore | hone | ⟨i, hi, heq⟩)
          · omega
          · omega
          · omega
      have htlen := congrArg List.length hl
      have hllen := htabs.length_eq
      rw [List.length_append] at htlen
      rw [hkd.tables] at hllen
      have hloop := copyPages_run (k := k) proc.pgdir (n := pages proc.sz) (i := 0) (s := t₀) hkd.copying
        (by omega) (fun u hu => hpresent u (by omega)) (by rw [hdpage]; exact hvalid page (by simp))
        (fun f hf => hvalid f (List.mem_cons_of_mem _ (by rw [hl]; exact List.mem_append_left _ (htabs.mem_iff.mp hf))))
        (fun f hf => hvalid f (List.mem_cons_of_mem _ (by rw [hl]; exact List.mem_append_right _ hf)))
      rw [Nat.zero_add, ← List.range_eq_range'] at hloop
      cases hloop with
      | copied hrun hend =>
        have hcount := hend.count
        obtain ⟨np', hfork⟩ := fork_of_copyuvm_some (k := k) nextpid np hs
          (hsetup.bind hrun)
        unfold forkPages
        exact ⟨fun _ => .inl (by omega), fun _ => ⟨np', nextpid, _, hfork, fun hneg => by omega⟩⟩
      | clean j _ hj hrun hcount hall =>
        rw [failsCleanly_iff_perm hs hk (hsetup.bind hrun)]
        refine ⟨fun _ => .inr (.inr ⟨j, hj, by unfold forkPages; omega⟩), fun _ => ?_⟩
        rw [hrest, hl]
        rw [hdpage] at hall
        exact hall.trans (List.Perm.cons page (htabs.append_right _))
      | leak j _ hj hrun hmod hcount hlost =>
        rw [failsCleanly_iff_perm hs hk (hsetup.bind hrun)]
        unfold forkPages
        constructor
        · intro hperm
          have := hperm.length_eq
          rw [hrest, List.length_cons] at this
          rw [hkd.tables] at hlost
          omega
        · rintro (hmore | hone | ⟨i, hi, heq⟩)
          · omega
          · omega
          · omega

end fork

def unusedEntry : ForkEntry := ⟨.unused, 0, none, 0, none⟩

/-- With two pages free the second becomes the child's directory; there is none for a table, and the
directory is never freed. -/
theorem fork_loses_directory :
    ¬ FailsCleanly smallKernel 2 ⟨4096, onePage⟩ unusedEntry ⟨[0x2000, 0x2001], fun _ => zero⟩ := by
  have hret : (forkMemory smallKernel 2 ⟨4096, onePage⟩ unusedEntry ⟨[0x2000, 0x2001],
    fun _ => zero⟩).1.map Prod.snd =
      .ok (-1) := by decide +kernel
  have hleft : (forkMemory smallKernel 2 ⟨4096, onePage⟩ unusedEntry ⟨[0x2000, 0x2001],
    fun _ => zero⟩).2.freelist =
      [0x2000] := by decide +kernel
  rintro ⟨np', r, t, hrun, hclean⟩
  rw [hrun] at hret hleft
  have hr : r = -1 := Except.ok.inj hret
  have hlen := (hclean hr).1.length_eq
  have ht : t.freelist = [0x2000] := hleft
  rw [ht] at hlen
  cases hlen

/-- With 66 pages free there is none for the copy of the user page, and all of them are free again.
-/
theorem fork_fails_cleanly_no_copy :
    FailsCleanly smallKernel 2 ⟨4096, onePage⟩ unusedEntry ⟨List.range' 0x2000 66,
      fun _ => zero⟩ := by
  have hpages : pages 4096 = 1 := by decide
  refine (fork_fails_cleanly_iff (by decide) (fun u hu => ?_) fun f hf => ?_).mpr
    (.inr (.inr ⟨0, by decide, by decide⟩))
  · obtain rfl : u = 0 := by
      dsimp only at hu
      omega
    rw [onePage_mapping (by decide)]
    rfl
  · rw [List.mem_range'_1] at hf
    exact smallKernel_valid (by omega) (by omega)

end Xv6
