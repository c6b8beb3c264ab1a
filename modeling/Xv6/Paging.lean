import Mathlib.Data.List.Perm.Basic
import Xv6.Copyout

namespace Xv6

open Bytes Prog

theorem Pte.present_eq (e : Pte) : e.present = e.flags.getLsbD 0 := by
  have hbit : e.flags &&& PTE_P = if e.flags.getLsbD 0 then BitVec.twoPow 12 0 else 0 :=
    BitVec.and_twoPow e.flags 0
  rw [present, hbit]
  cases e.flags.getLsbD 0 <;> rfl

theorem Pte.user_eq (e : Pte) : e.user = e.flags.getLsbD 2 := by
  have hbit : e.flags &&& PTE_U = if e.flags.getLsbD 2 then BitVec.twoPow 12 2 else 0 :=
    BitVec.and_twoPow e.flags 2
  rw [user, hbit]
  cases e.flags.getLsbD 2 <;> rfl

theorem filterMap_update_perm {α β : Type} [DecidableEq α] {l : List α} {f : α → Option β} {a : α}
    (b : β) (hl : l.Nodup) (ha : a ∈ l) (hf : f a = none) :
    (l.filterMap (Function.update f a (some b))).Perm (b :: l.filterMap f) := by
  induction l with
  | nil => simp at ha
  | cons c l ih =>
    obtain ⟨hc, hl⟩ := List.nodup_cons.mp hl
    by_cases hac : a = c
    · subst hac
      have hsame : l.filterMap (Function.update f a (some b)) = l.filterMap f := by
        apply List.filterMap_congr
        intro x hx
        have hxa : x ≠ a := by
          rintro rfl
          exact hc hx
        exact Function.update_of_ne hxa _ _
      simp [hsame, hf]
    · have ha : a ∈ l := by simpa [hac] using ha
      have hih := ih hl ha
      have hother : Function.update f a (some b) c = f c := Function.update_of_ne (Ne.symm hac) _ _
      cases hfc : f c with
      | none => simpa [hother, hfc] using hih
      | some x =>
        simp only [List.filterMap_cons, hother, hfc]
        exact (hih.cons x).trans (List.Perm.swap _ _ _)

variable {k : KernelImage} {d d' : PageDir} {s t : Kmem}

/-- A page that kfree takes. -/
def KernelImage.Valid (k : KernelImage) (f : Nat) : Prop :=
  k.stop ≤ KERNBASE + f * PGSIZE ∧ f * PGSIZE < PHYSTOP

namespace PageDir

/-- The entry of page v, if it is present. -/
def mapping (d : PageDir) (v : Nat) : Option Pte :=
  let e := d.load (PDX (v * PGSIZE), PTX (v * PGSIZE))
  if e.present then some e else none

/-- The pages that the page tables are in. -/
def tablePages (d : PageDir) : List Nat :=
  (List.finRange NPDENTRIES).filterMap fun i => (d.pde i).map PageTable.page

/-- The pages that the virtual pages from lo up to hi are mapped to. -/
def frames (d : PageDir) (lo hi : Nat) : List Nat :=
  (List.range' lo (hi - lo)).filterMap fun v => (d.mapping v).map Pte.addr

end PageDir

theorem pdx_page (v : Nat) : (PDX (v * PGSIZE)).val = v / 1024 % 1024 := by
  simp only [PDX, PGSIZE, NPDENTRIES, Fin.val_ofNat]
  omega

theorem ptx_page (v : Nat) : (PTX (v * PGSIZE)).val = v % 1024 := by
  simp only [PTX, PGSIZE, NPTENTRIES, Fin.val_ofNat]
  omega

theorem pdx_eq_iff {u v : Nat} (hu : u < 2 ^ 20) (hv : v < 2 ^ 20) :
    PDX (u * PGSIZE) = PDX (v * PGSIZE) ↔ u / 1024 = v / 1024 := by
  rw [Fin.ext_iff, pdx_page, pdx_page]
  omega

theorem entry_eq_iff {u v : Nat} (hu : u < 2 ^ 20) (hv : v < 2 ^ 20) :
    PDX (u * PGSIZE) = PDX (v * PGSIZE) ∧ PTX (u * PGSIZE) = PTX (v * PGSIZE) ↔ u = v := by
  rw [pdx_eq_iff hu hv, Fin.ext_iff, ptx_page, ptx_page]
  omega

theorem entry_mod (v : Nat) :
    PDX (v * PGSIZE % 2 ^ 32) = PDX (v * PGSIZE) ∧
      PTX (v * PGSIZE % 2 ^ 32) = PTX (v * PGSIZE) := by
  constructor
  · apply Fin.ext
    simp only [PDX, PGSIZE, NPDENTRIES, Fin.val_ofNat]
    omega
  · apply Fin.ext
    simp only [PTX, PGSIZE, NPTENTRIES, Fin.val_ofNat]
    omega

@[simp] theorem present_zero : Pte.zero.present = false := rfl

@[simp] theorem present_or (f : Nat) (perm : BitVec 12) :
    (Pte.mk f (perm ||| PTE_P)).present = true := by
  have h : (perm ||| PTE_P) &&& PTE_P = PTE_P := by
    ext i hi
    simp only [BitVec.getElem_and, BitVec.getElem_or]
    cases (PTE_P)[i] <;> simp
  unfold Pte.present
  rw [h]
  decide

theorem load_store {p : Fin NPDENTRIES × Fin NPTENTRIES} {e : Pte} (hp : (d.pde p.1).isSome)
    (q : Fin NPDENTRIES × Fin NPTENTRIES) :
    (d.store p e).load q = if q = p then e else d.load q := by
  obtain ⟨tab, htab⟩ := Option.isSome_iff_exists.mp hp
  unfold PageDir.load PageDir.store
  by_cases hd : q.1 = p.1
  · by_cases ht : q.2 = p.2
    · have hq : q = p := Prod.ext hd ht
      simp [hq, htab]
    · have hq : q ≠ p := fun he => ht (by rw [he])
      simp [hd, htab, ht, hq]
  · have hq : q ≠ p := fun he => hd (by rw [he])
    simp [hd, hq]

theorem mapping_store {u v : Nat} {e : Pte} (hu : u < 2 ^ 20) (hv : v < 2 ^ 20)
    (ht : d.hasTable (u * PGSIZE) = true) :
    (d.store (PDX (u * PGSIZE), PTX (u * PGSIZE)) e).mapping v =
      if v = u then (if e.present then some e else none) else d.mapping v := by
  have hentry := entry_eq_iff hv hu
  have hload := load_store (p := (PDX (u * PGSIZE), PTX (u * PGSIZE))) (e := e) (d := d) ht
  unfold PageDir.mapping
  simp only [hload, Prod.mk.injEq, hentry]
  by_cases hvu : v = u
  · simp [hvu]
  · simp [hvu]

theorem hasTable_store {p : Fin NPDENTRIES × Fin NPTENTRIES} {e : Pte} {va : Nat} :
    (d.store p e).hasTable va = d.hasTable va := by
  unfold PageDir.hasTable PageDir.store
  by_cases h : PDX va = p.1
  · simp [h]
  · simp [h]

theorem tablePages_store {p : Fin NPDENTRIES × Fin NPTENTRIES} {e : Pte} :
    (d.store p e).tablePages = d.tablePages := by
  unfold PageDir.tablePages PageDir.store
  apply List.filterMap_congr
  intro i _
  by_cases h : i = p.1
  · subst h
    cases d.pde p.1 <;> simp
  · simp [h]

namespace PageDir

/-- The directory with an empty table in page r. -/
def addTable (d : PageDir) (i : Fin NPDENTRIES) (r : Nat) : PageDir :=
  { d with pde := Function.update d.pde i (some ⟨r, fun _ => Pte.zero⟩) }

theorem mapping_addTable {i : Fin NPDENTRIES} {r v : Nat} (hi : d.pde i = none) :
    (d.addTable i r).mapping v = d.mapping v := by
  unfold mapping load addTable
  by_cases h : PDX (v * PGSIZE) = i
  · simp [h, hi]
  · simp [h]

theorem hasTable_addTable {i : Fin NPDENTRIES} {r va : Nat} :
    (d.addTable i r).hasTable va = true ↔ PDX va = i ∨ d.hasTable va = true := by
  unfold hasTable addTable
  by_cases h : PDX va = i
  · simp [h]
  · simp [h]

theorem tablePages_addTable {i : Fin NPDENTRIES} {r : Nat} (hi : d.pde i = none) :
    (d.addTable i r).tablePages.Perm (r :: d.tablePages) := by
  have hfun : (fun j => ((d.addTable i r).pde j).map PageTable.page) =
      Function.update (fun j => (d.pde j).map PageTable.page) i (some r) := by
    funext j
    by_cases h : j = i
    · subst h
      simp [addTable]
    · simp [addTable, h]
  unfold tablePages
  rw [hfun]
  exact filterMap_update_perm r (List.nodup_finRange _) (List.mem_finRange i) (by simp [hi])

end PageDir

theorem kalloc_run (s : Kmem) :
    Kmem.kalloc s = match s.freelist with
      | [] => (.ok none, s)
      | r :: next => (.ok (some r), { s with freelist := next }) := by
  unfold Kmem.kalloc
  show (match s.freelist with
    | [] => pure none
    | r :: next => do
      set { s with freelist := next }
      pure (some r) : VmM (Option Nat)) s = _
  cases s.freelist <;> rfl

/-- walkpgdir with alloc set: the three ways it ends. -/
theorem kalloc_none {s : Kmem} (hs : s.freelist = []) : Returns Kmem.kalloc s none s := by
  unfold Returns
  rw [kalloc_run, hs]

theorem kalloc_some {s : Kmem} {r : Nat} {next : List Nat} (hs : s.freelist = r :: next) :
    Returns Kmem.kalloc s (some r) { s with freelist := next } := by
  unfold Returns
  rw [kalloc_run, hs]

theorem walkpgdir_alloc (d : PageDir) (va : Nat) (s : Kmem) :
    walkpgdir d va true s =
      if d.hasTable va then (.ok (d, some (PDX va, PTX va)), s)
      else match s.freelist with
        | [] => (.ok (d, none), s)
        | r :: next => (.ok (d.addTable (PDX va) r, some (PDX va, PTX va)), { s with freelist := next }) := by
  unfold walkpgdir PageDir.hasTable
  cases hd : d.pde (PDX va) with
  | some tab => rfl
  | none =>
    dsimp only
    rw [if_pos rfl]
    simp only [bind, kalloc_run]
    cases s.freelist <;> rfl

/-- The k pages from page v on are mapped to the pages from pa on; the tables that this took come
from the free list. -/
structure Mapped (d : PageDir) (s : Kmem) (v pa n : Nat) (perm : BitVec 12) (d' : PageDir)
    (t : Kmem) : Prop where
  page : d'.page = d.page
  mem : t.mem = s.mem
  taken : ∃ l, s.freelist = l ++ t.freelist ∧ d'.tablePages.Perm (l ++ d.tablePages)
  mapping : ∀ u < 2 ^ 20, d'.mapping u =
    if v ≤ u ∧ u < v + n then some ⟨(pa + (u - v)) % 2 ^ 20, perm ||| PTE_P⟩ else d.mapping u
  table : ∀ u < 2 ^ 20, d'.hasTable (u * PGSIZE) = true ↔
    d.hasTable (u * PGSIZE) = true ∨ ∃ w, v ≤ w ∧ w < v + n ∧ w / 1024 = u / 1024

theorem Mapped.refl {v pa : Nat} {perm : BitVec 12} : Mapped d s v pa 0 perm d s := by
  refine ⟨rfl, rfl, ⟨[], rfl, by rw [List.nil_append]⟩, ?_, ?_⟩
  · intro u _
    rw [if_neg (by omega)]
  · intro u _
    constructor
    · exact Or.inl
    · rintro (h | ⟨w, hlo, hhi, _⟩)
      · exact h
      · omega

/-- mappages ends with all pages mapped, or the free list is empty and the next page has no table.
-/
inductive MapRun (d : PageDir) (s : Kmem) (v pa n : Nat) (perm : BitVec 12) :
    Except VmPanic (PageDir × Bool) × Kmem → Prop
  | done {d' : PageDir} {t : Kmem} : Mapped d s v pa n perm d' t → MapRun d s v pa n perm (.ok (d', true), t)
  | failed {d' : PageDir} {t : Kmem} (j : Nat) : j < n → Mapped d s v pa j perm d' t → t.freelist = [] →
      d'.hasTable ((v + j) * PGSIZE) = false → MapRun d s v pa n perm (.ok (d', false), t)

theorem Mapped.cons {v pa n : Nat} {perm : BitVec 12} {d₁ : PageDir} {s₁ : Kmem} (hv : v < 2 ^ 20)
    (h : Mapped d s v pa 1 perm d₁ s₁) (h' : Mapped d₁ s₁ (v + 1) ((pa + 1) % 2 ^ 20) n perm d' t) :
    Mapped d s v pa (n + 1) perm d' t := by
  refine ⟨h'.page.trans h.page, h'.mem.trans h.mem, ?_, ?_, ?_⟩
  · obtain ⟨l, hl, hp⟩ := h.taken
    obtain ⟨l', hl', hp'⟩ := h'.taken
    refine ⟨l ++ l', by rw [hl, hl', List.append_assoc], hp'.trans ?_⟩
    rw [List.append_assoc]
    exact (hp.append_left l').trans (List.perm_append_comm_assoc _ _ _)
  · intro u hu
    rw [h'.mapping u hu, h.mapping u hu]
    by_cases hlo : v + 1 ≤ u ∧ u < v + 1 + n
    · rw [if_pos hlo, if_pos (by omega)]
      congr 2
      omega
    · rw [if_neg hlo]
      by_cases heq : u = v
      · subst heq
        simp
      · rw [if_neg (by omega), if_neg (by omega)]
  · intro u hu
    rw [h'.table u hu, h.table u hu]
    constructor
    · rintro ((hd | ⟨w, hw⟩) | ⟨w, hw⟩)
      · exact .inl hd
      · exact .inr ⟨w, by omega, by omega, hw.2.2⟩
      · exact .inr ⟨w, by omega, by omega, hw.2.2⟩
    · rintro (hd | ⟨w, hw⟩)
      · exact .inl (.inl hd)
      · by_cases heq : w = v
        · exact .inl (.inr ⟨w, by omega, by omega, hw.2.2⟩)
        · exact .inr ⟨w, by omega, by omega, hw.2.2⟩

theorem mapPages_one {v pa : Nat} (perm : BitVec 12) (hv : v < 2 ^ 20) (hpa : pa < 2 ^ 20)
    (hfree : d.mapping v = none) (ht : d.hasTable (v * PGSIZE) = true) :
    Mapped d s v pa 1 perm (d.store (PDX (v * PGSIZE), PTX (v * PGSIZE)) ⟨pa, perm ||| PTE_P⟩)
      s := by
  refine ⟨rfl, rfl, ⟨[], rfl, by rw [tablePages_store, List.nil_append]⟩, ?_, ?_⟩
  · intro u hu
    rw [mapping_store hv hu ht, present_or, if_pos rfl]
    by_cases hvu : u = v
    · subst hvu
      rw [if_pos rfl, if_pos (by omega), Nat.sub_self, Nat.add_zero, Nat.mod_eq_of_lt hpa]
    · rw [if_neg hvu, if_neg (by omega)]
  · intro u hu
    rw [hasTable_store]
    constructor
    · exact Or.inl
    · rintro (h | ⟨w, hw⟩)
      · exact h
      · obtain rfl : w = v := by omega
        unfold PageDir.hasTable at ht ⊢
        rw [(pdx_eq_iff hu hv).mpr hw.2.2.symm]
        exact ht

theorem Mapped.of_addTable {v pa r : Nat} {next : List Nat} {perm : BitVec 12} (hv : v < 2 ^ 20)
    (hs : s.freelist = r :: next) (hd : d.pde (PDX (v * PGSIZE)) = none)
    (h : Mapped (d.addTable (PDX (v * PGSIZE)) r) { s with freelist := next } v pa 1 perm d' t) :
    Mapped d s v pa 1 perm d' t := by
  refine ⟨h.page, h.mem, ?_, ?_, ?_⟩
  · obtain ⟨l, hl, hp⟩ := h.taken
    refine ⟨r :: l, hs.trans (congrArg (r :: ·) hl), hp.trans ?_⟩
    refine ((PageDir.tablePages_addTable hd).append_left l).trans ?_
    exact List.perm_middle
  · intro u hu
    rw [h.mapping u hu, PageDir.mapping_addTable hd]
  · intro u hu
    rw [h.table u hu, PageDir.hasTable_addTable, pdx_eq_iff hu hv]
    constructor
    · rintro ((hvu | htab) | hw)
      · exact .inr ⟨v, by omega, by omega, hvu.symm⟩
      · exact .inl htab
      · exact .inr hw
    · rintro (htab | hw)
      · exact .inl (.inr htab)
      · exact .inr hw

theorem mapPages_run {v pa n : Nat} {perm : BitVec 12} (hv : v + n ≤ 2 ^ 20) (hpa : pa < 2 ^ 20)
    (hfree : ∀ u, v ≤ u → u < v + n → d.mapping u = none) :
    MapRun d s v pa n perm (mapPages perm n d (v * PGSIZE % 2 ^ 32) pa s) := by
  induction n generalizing d s v pa with
  | zero => exact .done .refl
  | succ n ih =>
    have hvlt : v < 2 ^ 20 := by omega
    have hnext : (v * PGSIZE % 2 ^ 32 + PGSIZE) % 2 ^ 32 = (v + 1) * PGSIZE % 2 ^ 32 := by
      simp only [PGSIZE]
      omega
    obtain ⟨hpdx, hptx⟩ := entry_mod v
    have hrest : ∀ {d₁ : PageDir} {s₁ : Kmem}, (∀ u < 2 ^ 20, d₁.mapping u = d.mapping u) →
        (∀ {d' : PageDir} {t : Kmem}, Mapped d₁ s₁ v pa 1 perm d' t → Mapped d s v pa 1 perm d' t) →
        d₁.hasTable (v * PGSIZE) = true →
        MapRun d s v pa (n + 1) perm
          ((if (d₁.load (PDX (v * PGSIZE), PTX (v * PGSIZE))).present then throw .remap
            else mapPages perm n (d₁.store (PDX (v * PGSIZE), PTX (v * PGSIZE)) ⟨pa, perm ||| PTE_P⟩)
              ((v + 1) * PGSIZE % 2 ^ 32) ((pa + 1) % 2 ^ 20) : VmM (PageDir × Bool)) s₁) := by
      intro d₁ s₁ hmap hlift ht
      have hnone : d₁.mapping v = none := by rw [hmap v hvlt, hfree v (by omega) (by omega)]
      have habsent : (d₁.load (PDX (v * PGSIZE), PTX (v * PGSIZE))).present = false := by
        simpa [PageDir.mapping] using hnone
      rw [habsent, if_neg (by simp)]
      have hone := mapPages_one (s := s₁) perm hvlt hpa hnone ht
      have hfirst := hlift hone
      generalize d₁.store _ _ = d₂ at hone hfirst ⊢
      have hih := @ih d₂ s₁ (v + 1) ((pa + 1) % 2 ^ 20) (by omega) (by omega) (by
        intro u hlo hhi
        rw [hfirst.mapping u (by omega), if_neg (by omega)]
        exact hfree u (by omega) (by omega))
      generalize mapPages perm n d₂ _ _ s₁ = x at hih ⊢
      cases hih with
      | done h => exact .done (hfirst.cons hvlt h)
      | failed j hj h hempty hno =>
        refine .failed (j + 1) (by omega) (hfirst.cons hvlt h) hempty ?_
        rw [show v + (j + 1) = v + 1 + j by omega]
        exact hno
    unfold mapPages
    simp only [bind, walkpgdir_alloc, hpdx, hptx, hnext]
    have htab : d.hasTable (v * PGSIZE % 2 ^ 32) = d.hasTable (v * PGSIZE) := by
      unfold PageDir.hasTable
      rw [hpdx]
    rw [htab]
    cases ht : d.hasTable (v * PGSIZE) with
    | true =>
      rw [if_pos rfl]
      exact hrest (fun _ _ => rfl) (fun h => h) ht
    | false =>
      rw [if_neg (by simp)]
      have hd : d.pde (PDX (v * PGSIZE)) = none := by simpa [PageDir.hasTable] using ht
      cases hs : s.freelist with
      | nil => exact .failed 0 (by omega) .refl hs (by simpa using ht)
      | cons r next =>
        refine hrest (fun u _ => PageDir.mapping_addTable hd) (fun h => h.of_addTable hvlt hs hd) ?_
        exact PageDir.hasTable_addTable.mpr (.inl rfl)

theorem mappages_page {v pa : Nat} (perm : BitVec 12) (hv : v < 2 ^ 20) (hpa : pa < 2 ^ 20)
    (hfree : d.mapping v = none) :
    MapRun d s v pa 1 perm (mappages d (v * PGSIZE) PGSIZE pa perm s) := by
  have hcount : (PGROUNDDOWN ((v * PGSIZE + PGSIZE + 2 ^ 32 - 1) % 2 ^ 32) +
      2 ^ 32 - PGROUNDDOWN (v * PGSIZE)) %
      2 ^ 32 / PGSIZE + 1 = 1 := by
    simp only [PGROUNDDOWN, PGSIZE]
    omega
  have haddr : PGROUNDDOWN (v * PGSIZE) = v * PGSIZE % 2 ^ 32 := by
    simp only [PGROUNDDOWN, PGSIZE]
    omega
  unfold mappages
  rw [hcount, haddr]
  refine mapPages_run (by omega) hpa fun u hlo hhi => ?_
  obtain rfl : u = v := by omega
  exact hfree

namespace PageDir

theorem frames_empty {lo hi : Nat} (h : hi ≤ lo) : d.frames lo hi = [] := by
  unfold frames
  rw [Nat.sub_eq_zero_of_le h]
  rfl

theorem frames_cons {lo hi : Nat} (h : lo < hi) :
    d.frames lo hi = ((d.mapping lo).map Pte.addr).toList ++ d.frames (lo + 1) hi := by
  unfold frames
  rw [show hi - lo = hi - (lo + 1) + 1 by omega, List.range'_succ, List.filterMap_cons]
  cases d.mapping lo <;> rfl

theorem frames_skip {w hi : Nat} (lo : Nat) (hlo : lo ≤ w)
    (h : ∀ u, lo ≤ u → u < w → u < hi → d.mapping u = none) :
    d.frames lo hi = d.frames w hi := by
  obtain ⟨n, rfl⟩ := Nat.exists_eq_add_of_le hlo
  induction n generalizing lo with
  | zero => rfl
  | succ n ih =>
    have hrest := ih (lo + 1) (by omega) fun u hl hw hu => h u (by omega) (by omega) hu
    rw [show lo + (n + 1) = lo + 1 + n by omega, ← hrest]
    by_cases hhi : lo < hi
    · rw [frames_cons hhi, h lo (by omega) (by omega) hhi]
      rfl
    · rw [frames_empty (by omega), frames_empty (by omega)]

theorem frames_congr {lo hi : Nat} (h : ∀ u, lo ≤ u → u < hi → d'.mapping u = d.mapping u) :
    d'.frames lo hi = d.frames lo hi := by
  unfold frames
  apply List.filterMap_congr
  intro u hu
  obtain ⟨hlo, hhi⟩ := List.mem_range'_1.mp hu
  rw [h u hlo (by omega)]

theorem mem_frames {lo hi f : Nat} :
    f ∈ d.frames lo hi ↔ ∃ u e, lo ≤ u ∧ u < hi ∧ d.mapping u = some e ∧ e.addr = f := by
  unfold frames
  simp only [List.mem_filterMap, List.mem_range'_1, Option.map_eq_some_iff]
  constructor
  · rintro ⟨u, hu, e, he, rfl⟩
    exact ⟨u, e, hu.1, by omega, he, rfl⟩
  · rintro ⟨u, e, hlo, hhi, he, rfl⟩
    exact ⟨u, ⟨hlo, by omega⟩, e, he, rfl⟩

end PageDir

theorem mapping_eq_some {v : Nat} {e : Pte} (h : d.mapping v = some e) :
    d.load (PDX (v * PGSIZE), PTX (v * PGSIZE)) = e ∧ e.present = true := by
  unfold PageDir.mapping at h
  dsimp only at h
  split at h
  next hp =>
    cases h
    exact ⟨rfl, hp⟩
  next => cases h

theorem mapping_eq_none {v : Nat} (h : d.mapping v = none) :
    (d.load (PDX (v * PGSIZE), PTX (v * PGSIZE))).present = false := by
  simpa [PageDir.mapping] using h

theorem mapping_of_no_table {u v : Nat} (hu : u < 2 ^ 20) (hv : v < 2 ^ 20)
    (h : d.hasTable (v * PGSIZE) = false) (huv : u / 1024 = v / 1024) : d.mapping u = none := by
  have hd : d.pde (PDX (u * PGSIZE)) = none := by
    rw [(pdx_eq_iff hu hv).mpr huv]
    simpa [PageDir.hasTable] using h
  simp [PageDir.mapping, PageDir.load, hd]

theorem KernelImage.Valid.ne_zero {f : Nat} (h : k.Valid f) : f ≠ 0 := by
  rintro rfl
  have := h.1
  have := k.text
  have := k.ordered
  simp only [KERNLINK, EXTMEM] at *
  omega

theorem kfree_run {f : Nat} (h : k.Valid f) (s : Kmem) :
    Kmem.kfree k f s = (.ok (), ⟨f :: s.freelist, Function.update s.mem f fun _ => 1⟩) := by
  have hok : ¬ (KERNBASE + f * PGSIZE < k.stop ∨ PHYSTOP ≤ f * PGSIZE) := by
    have := h.1
    have := h.2
    omega
  unfold Kmem.kfree
  rw [if_neg hok]
  rfl

/-- The pages from lo up to hi are unmapped, and what they were mapped to is free. -/
structure Unmapped (d : PageDir) (s : Kmem) (lo hi : Nat) (d' : PageDir) (t : Kmem) : Prop where
  page : d'.page = d.page
  tables : d'.tablePages = d.tablePages
  table : ∀ va, d'.hasTable va = d.hasTable va
  mapping : ∀ u < 2 ^ 20, d'.mapping u = if lo ≤ u ∧ u < hi then none else d.mapping u
  freelist : t.freelist = (d.frames lo hi).reverse ++ s.freelist
  mem : ∀ f ∉ d.frames lo hi, t.mem f = s.mem f

theorem Unmapped.refl {lo hi : Nat} (h : hi ≤ lo) : Unmapped d s lo hi d s := by
  refine ⟨rfl, rfl, fun _ => rfl, ?_, ?_, fun _ _ => rfl⟩
  · intro u _
    rw [if_neg (by omega)]
  · rw [PageDir.frames_empty h]
    rfl

theorem Unmapped.skip {lo w hi : Nat} (hlo : lo ≤ w)
    (hnone : ∀ u, lo ≤ u → u < w → u < hi → d.mapping u = none)
    (h : Unmapped d s w hi d' t) : Unmapped d s lo hi d' t := by
  have hframes := PageDir.frames_skip _ hlo hnone
  refine ⟨h.page, h.tables, h.table, ?_, by rw [hframes]; exact h.freelist,
    by rw [hframes]; exact h.mem⟩
  intro u hu
  rw [h.mapping u hu]
  by_cases hin : lo ≤ u ∧ u < hi
  · rw [if_pos hin]
    split
    next => rfl
    next hw => exact hnone u hin.1 (by omega) hin.2
  · rw [if_neg hin, if_neg (by omega)]

theorem Unmapped.cons {lo hi : Nat} {e : Pte} (hlo : lo < hi) (hhi : hi ≤ 2 ^ 20)
    (hmap : d.mapping lo = some e) (ht : d.hasTable (lo * PGSIZE) = true)
    (h : Unmapped (d.store (PDX (lo * PGSIZE), PTX (lo * PGSIZE)) Pte.zero)
      ⟨e.addr :: s.freelist, Function.update s.mem e.addr fun _ => 1⟩ (lo + 1) hi d'
        t) : Unmapped d s lo hi d' t := by
  have hstore : ∀ u < 2 ^ 20, (d.store (PDX (lo * PGSIZE), PTX (lo * PGSIZE)) Pte.zero).mapping u =
      if u = lo then none else d.mapping u := by
    intro u hu
    simp only [mapping_store (by omega) hu ht, present_zero, Bool.false_eq_true, if_false]
  have hrest : (d.store (PDX (lo * PGSIZE), PTX (lo * PGSIZE)) Pte.zero).frames (lo + 1) hi =
      d.frames (lo + 1) hi := by
    refine PageDir.frames_congr fun u hl hu => ?_
    rw [hstore u (by omega), if_neg (by omega)]
  have hframes : d.frames lo hi = e.addr :: d.frames (lo + 1) hi := by
    rw [PageDir.frames_cons hlo, hmap]
    rfl
  refine ⟨h.page, h.tables.trans tablePages_store, fun va => (h.table va).trans hasTable_store,
    ?_, ?_, ?_⟩
  · intro u hu
    rw [h.mapping u hu, hstore u hu]
    by_cases heq : u = lo
    · subst heq
      simp [hlo]
    · rw [if_neg heq]
      by_cases hin : lo + 1 ≤ u ∧ u < hi
      · rw [if_pos hin, if_pos (by omega)]
      · rw [if_neg hin, if_neg (by omega)]
  · rw [h.freelist, hrest, hframes]
    simp
  · intro f hf
    rw [hframes, List.mem_cons, not_or] at hf
    rw [h.mem f (by rw [hrest]; exact hf.2)]
    exact Function.update_of_ne hf.1 _ _

/-- The loop of deallocuvm. It steps over 4 MB for each table that is missing, so it has to start at
a table's first page or within a table, unless there is nothing to unmap. -/
theorem deallocPages_run {oldsz v hi n : Nat} (hn : hi ≤ v + n) (hhi : hi ≤ 2 ^ 19)
    (hpages : ∀ u, u * PGSIZE < oldsz ↔ u < hi)
    (hstart : v % 1024 = 0 ∨ d.hasTable (v * PGSIZE) = true ∨ ∀ u, v ≤ u → u < hi →
      d.mapping u = none)
    (hvalid : ∀ u e, v ≤ u → u < hi → d.mapping u = some e → k.Valid e.addr) :
    ∃ d' t, deallocPages k oldsz n d (v * PGSIZE) s = (.ok d', t) ∧ Unmapped d s v hi d' t := by
  induction n generalizing d s v with
  | zero => exact ⟨d, s, rfl, .refl (by omega)⟩
  | succ n ih =>
    unfold deallocPages
    by_cases hv : v < hi
    case neg =>
      rw [if_neg (fun h => hv ((hpages v).mp h))]
      exact ⟨d, s, rfl, .refl (by omega)⟩
    rw [if_pos ((hpages v).mpr hv), bind_ok (walkpgdir_lookup d (v * PGSIZE) s)]
    have hnext : v * PGSIZE + PGSIZE = (v + 1) * PGSIZE := (Nat.succ_mul v PGSIZE).symm
    have hstart' : ∀ {d₁ : PageDir}, (d.hasTable (v * PGSIZE) = true) →
      (∀ va, d₁.hasTable va = d.hasTable va) →
        (v + 1) % 1024 = 0 ∨ d₁.hasTable ((v + 1) * PGSIZE) = true ∨
          ∀ u, v + 1 ≤ u → u < hi → d₁.mapping u = none := by
      intro d₁ ht hd₁
      by_cases hmod : (v + 1) % 1024 = 0
      · exact .inl hmod
      · refine .inr (.inl ?_)
        rw [hd₁, ← ht]
        unfold PageDir.hasTable
        rw [(pdx_eq_iff (by omega) (by omega)).mpr (by omega : (v + 1) / 1024 = v / 1024)]
    cases ht : d.hasTable (v * PGSIZE) with
    | false =>
      have hskip : v % 1024 = 0 ∨ ∀ u, v ≤ u → u < hi → d.mapping u = none := by
        rcases hstart with h | h | h
        · exact .inl h
        · rw [ht] at h
          cases h
        · exact .inr h
      have hnone : ∀ u, v ≤ u → u < v + 1024 → u < hi → d.mapping u = none := by
        intro u hl hu huhi
        rcases hskip with hmod | hnothing
        · exact mapping_of_no_table (by omega) (by omega) ht (by omega)
        · exact hnothing u hl huhi
      have hstart₁ : (v + 1024) % 1024 = 0 ∨ d.hasTable ((v + 1024) * PGSIZE) = true ∨
          ∀ u, v + 1024 ≤ u → u < hi → d.mapping u = none :=
        hskip.imp (fun hmod => by omega) fun hnothing => .inr fun u hl hu => hnothing u (by omega) hu
      have haddr : v * PGSIZE + (NPTENTRIES - 1) * PGSIZE + PGSIZE = (v + 1024) * PGSIZE := by
        have hstep : (NPTENTRIES - 1) * PGSIZE + PGSIZE = 1024 * PGSIZE := by decide
        rw [Nat.add_mul, Nat.add_assoc, hstep]
      rw [if_neg (by simp)]
      dsimp only
      rw [haddr]
      obtain ⟨d', t, hrun, hun⟩ := ih (d := d) (s := s) (v := v + 1024) (by omega) hstart₁
        fun u e hl hu => hvalid u e (by omega) hu
      exact ⟨d', t, hrun, hun.skip (by omega) hnone⟩
    | true =>
      rw [if_pos rfl]
      dsimp only
      cases hmap : d.mapping v with
      | none =>
        rw [mapping_eq_none hmap, if_neg (by simp), hnext]
        obtain ⟨d', t, hrun, hun⟩ := ih (d := d) (s := s) (v := v + 1) (by omega) (hstart' ht fun _ => rfl)
          fun u e hl hu => hvalid u e (by omega) hu
        refine ⟨d', t, hrun, hun.skip (by omega) fun u hl hu _ => ?_⟩
        obtain rfl : u = v := by omega
        exact hmap
      | some e =>
        obtain ⟨hload, hpresent⟩ := mapping_eq_some hmap
        have hev := hvalid v e (by omega) hv hmap
        rw [hload, hpresent, if_pos rfl, if_neg hev.ne_zero, bind_ok (kfree_run hev s), hnext]
        obtain ⟨d', t, hrun, hun⟩ := ih (d := d.store (PDX (v * PGSIZE), PTX (v * PGSIZE)) Pte.zero)
          (s := ⟨e.addr :: s.freelist, Function.update s.mem e.addr fun _ => 1⟩) (v := v + 1) (by omega)
          (hstart' ht fun _ => hasTable_store) (by
            intro u e' hl hu he'
            rw [mapping_store (by omega) (by omega) ht, if_neg (by omega)] at he'
            exact hvalid u e' (by omega) hu he')
        exact ⟨d', t, hrun, hun.cons hv (by omega) hmap ht⟩

theorem tablePages_length (d : PageDir) :
    d.tablePages.length = (List.finRange NPDENTRIES).countP fun i =>
      d.hasTable (i.val * 1024 * PGSIZE) := by
  have hpdx : ∀ i : Fin NPDENTRIES, PDX (i.val * 1024 * PGSIZE) = i := by
    intro i
    apply Fin.ext
    rw [pdx_page]
    have := i.isLt
    simp only [NPDENTRIES] at this
    omega
  unfold PageDir.tablePages
  generalize List.finRange NPDENTRIES = l
  rw [List.length_filterMap_eq_countP]
  apply List.countP_congr
  intro i _
  rw [PageDir.hasTable, hpdx i, Option.isSome_map]

theorem Mapped.length_le {v pa n : Nat} {perm : BitVec 12} (h : Mapped d s v pa n perm d' t) :
    s.freelist.length + d.tablePages.length = t.freelist.length + d'.tablePages.length := by
  obtain ⟨l, hl, hp⟩ := h.taken
  have hlen := hp.length_eq
  rw [List.length_append] at hlen
  rw [hl, List.length_append]
  omega

theorem tablePages_length_congr (h : ∀ u < 2 ^ 20, d'.hasTable (u * PGSIZE) =
    d.hasTable (u * PGSIZE)) :
    d'.tablePages.length = d.tablePages.length := by
  rw [tablePages_length, tablePages_length]
  apply List.countP_congr
  intro i _
  have hi := i.isLt
  simp only [NPDENTRIES] at hi
  rw [h (i.val * 1024) (by omega)]

theorem Mapped.tables_one {v pa : Nat} {perm : BitVec 12} (hv : v < 2 ^ 20)
    (h : Mapped d s v pa 1 perm d' t) :
    d'.tablePages.length = d.tablePages.length + if d.hasTable (v * PGSIZE) then 0 else 1 := by
  have htable : ∀ u < 2 ^ 20,
      d'.hasTable (u * PGSIZE) = true ↔ u / 1024 = v / 1024 ∨ d.hasTable (u * PGSIZE) = true := by
    intro u hu
    rw [h.table u hu, or_comm]
    refine or_congr_left ⟨?_, fun huv => ⟨v, by omega, by omega, huv.symm⟩⟩
    rintro ⟨w, hlo, hhi, hw⟩
    obtain rfl : w = v := by omega
    exact hw.symm
  cases ht : d.hasTable (v * PGSIZE) with
  | true =>
    rw [if_pos rfl, Nat.add_zero]
    refine tablePages_length_congr fun u hu =>
      Bool.eq_iff_iff.mpr ((htable u hu).trans (or_iff_right_of_imp ?_))
    intro huv
    unfold PageDir.hasTable at ht ⊢
    rw [(pdx_eq_iff hu hv).mpr huv]
    exact ht
  | false =>
    rw [if_neg (by simp)]
    have hpde : d.pde (PDX (v * PGSIZE)) = none := by simpa [PageDir.hasTable] using ht
    have hadd := (PageDir.tablePages_addTable (r := 0) hpde).length_eq
    rw [List.length_cons] at hadd
    rw [← hadd]
    refine tablePages_length_congr fun u hu => Bool.eq_iff_iff.mpr ?_
    rw [htable u hu, PageDir.hasTable_addTable, pdx_eq_iff hu hv]

theorem Mapped.hasTable_zero {v pa u : Nat} {perm : BitVec 12} (hu : u < 2 ^ 20)
    (h : Mapped d s v pa 0 perm d' t) :
    d'.hasTable (u * PGSIZE) = d.hasTable (u * PGSIZE) := by
  refine Bool.eq_iff_iff.mpr ((h.table u hu).trans (or_iff_left ?_))
  rintro ⟨w, hlo, hhi, _⟩
  omega

end Xv6
