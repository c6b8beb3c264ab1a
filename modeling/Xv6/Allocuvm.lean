import Xv6.Paging

namespace Xv6

open Bytes Prog

variable {k : KernelImage} {d d₀ d' : PageDir} {s s₀ t : Kmem}

/-- The pages that sz bytes need. -/
def pages (sz : Nat) : Nat := (sz + PGSIZE - 1) / PGSIZE

theorem lt_pages_iff {sz u : Nat} : u * PGSIZE < sz ↔ u < pages sz := by
  simp only [pages, PGSIZE]
  omega

theorem pages_le {sz : Nat} (h : sz ≤ KERNBASE) : pages sz ≤ 2 ^ 19 := by
  simp only [pages, PGSIZE, KERNBASE] at *
  omega

/-- The page tables that n pages need. -/
def tablesFor (n : Nat) : Nat := (n + 1023) / 1024

theorem pages_mono {a b : Nat} (h : a ≤ b) : pages a ≤ pages b := by
  simp only [pages, PGSIZE]
  omega

theorem pgroundup_pages {sz : Nat} (h : sz ≤ KERNBASE) : PGROUNDUP sz = pages sz * PGSIZE := by
  simp only [PGROUNDUP, pages, PGSIZE, KERNBASE] at *
  omega

theorem deallocuvm_run {oldsz : Nat} (newsz : Nat) (hold : oldsz ≤ KERNBASE) (hlt : newsz < oldsz)
    (hstart : pages newsz % 1024 = 0 ∨ d.hasTable (pages newsz * PGSIZE) = true ∨
      ∀ u, pages newsz ≤ u → u < pages oldsz → d.mapping u = none)
    (hvalid : ∀ u e, pages newsz ≤ u → u < pages oldsz → d.mapping u = some e → k.Valid e.addr) :
    ∃ d' t, Returns (deallocuvm k d oldsz newsz) s (d', newsz) t ∧
      Unmapped d s (pages newsz) (pages oldsz) d' t := by
  have hfuel : pages oldsz ≤ pages newsz + (oldsz / PGSIZE + 1) := by
    simp only [pages, PGSIZE]
    omega
  obtain ⟨d', t, hrun, hun⟩ :=
    deallocPages_run (s := s) hfuel (pages_le hold) (fun _ => lt_pages_iff) hstart hvalid
  refine ⟨d', t, ?_, hun⟩
  unfold deallocuvm
  rw [if_neg (by omega), pgroundup_pages (by omega)]
  exact Returns.bind hrun returns_pure

namespace PageDir

theorem frames_append {lo mid hi : Nat} (hlo : lo ≤ mid) (hhi : mid ≤ hi) :
    d.frames lo hi = d.frames lo mid ++ d.frames mid hi := by
  unfold frames
  rw [← List.filterMap_append]
  congr 1
  have h := @List.range'_append lo (mid - lo) (hi - mid) 1
  rw [Nat.one_mul, show lo + (mid - lo) = mid by omega,
    show mid - lo + (hi - mid) = hi - lo by omega] at h
  exact h.symm

theorem frames_length_le {lo hi : Nat} : (d.frames lo hi).length ≤ hi - lo := by
  have h := List.length_filterMap_le (fun v => (d.mapping v).map Pte.addr)
    (List.range' lo (hi - lo))
  rwa [List.length_range'] at h

end PageDir

/-- The loop of allocuvm has come to page v: the pages from lo on are new and zero, the others as
before, and what is no longer free is mapped, a page table, or held by the loop. -/
structure Growing (d₀ : PageDir) (s₀ : Kmem) (lo v : Nat) (held : List Nat) (d : PageDir)
    (s : Kmem) : Prop where
  page : d.page = d₀.page
  old : ∀ u < 2 ^ 20, ¬ (lo ≤ u ∧ u < v) → d.mapping u = d₀.mapping u
  fresh : ∀ u, lo ≤ u → u < v →
    ∃ f, d.mapping u = some ⟨f, PTE_W ||| PTE_U ||| PTE_P⟩ ∧ s.mem f = Bytes.zero
  table : ∀ va, d₀.hasTable va = true → d.hasTable va = true
  taken : ∃ l, s₀.freelist.Perm (held ++ (d.frames lo v ++ (l ++ s.freelist))) ∧
    d.tablePages.Perm (l ++ d₀.tablePages)
  mem : ∀ f, f ∉ s₀.freelist ∨ f ∈ s.freelist → s.mem f = s₀.mem f
  few : d.tablePages.length ≤ d₀.tablePages.length + (tablesFor v - tablesFor lo)

theorem Growing.refl {lo : Nat} : Growing d s lo lo [] d s := by
  refine ⟨rfl, fun _ _ _ => rfl, fun u hl hu => by omega, fun _ h => h, ⟨[], ?_, ?_⟩,
    fun _ _ => rfl, by simp⟩
  · rw [PageDir.frames_empty (Nat.le_refl lo)]
    rfl
  · rw [List.nil_append]

theorem Growing.count {lo v : Nat} {held : List Nat} (h : Growing d₀ s₀ lo v held d s) :
    s₀.freelist.length ≤ held.length + (v - lo) + (tablesFor v - tablesFor lo) +
      s.freelist.length := by
  obtain ⟨l, hperm, htables⟩ := h.taken
  have hlen := hperm.length_eq
  have htabs := htables.length_eq
  have hframes : (d.frames lo v).length ≤ v - lo := d.frames_length_le
  have hfew := h.few
  simp only [List.length_append] at hlen htabs
  omega

theorem Growing.frames_not_free {lo v u : Nat} {held : List Nat} {e : Pte}
    (h : Growing d₀ s₀ lo v held d s) (hnodup : s₀.freelist.Nodup) (hlo : lo ≤ u) (hu : u < v)
    (he : d.mapping u = some e) :
    e.addr ∈ s₀.freelist ∧ e.addr ∉ s.freelist := by
  obtain ⟨l, hperm, _⟩ := h.taken
  have hmem : e.addr ∈ d.frames lo v := PageDir.mem_frames.mpr ⟨u, e, hlo, hu, he, rfl⟩
  refine ⟨hperm.mem_iff.mpr (by simp [hmem]), fun hf => ?_⟩
  have hrest := (List.nodup_append.mp (hperm.nodup_iff.mp hnodup)).2.1
  exact (List.nodup_append.mp hrest).2.2 e.addr hmem e.addr (by simp [hf]) rfl

theorem Growing.tables {lo v n r : Nat} {next : List Nat} {perm : BitVec 12}
    (h : Growing d₀ s₀ lo v [] d s) (hnodup : s₀.freelist.Nodup) (hs : s.freelist = r :: next)
    (hmap : Mapped d ⟨next, Function.update s.mem r Bytes.zero⟩ v r n perm d' t) :
    (∃ l, s₀.freelist.Perm (r :: (d.frames lo v ++ (l ++ t.freelist))) ∧
      d'.tablePages.Perm (l ++ d₀.tablePages)) ∧
      (∀ va, d₀.hasTable va = true → d'.hasTable va = true) ∧
        ∀ f, f ∉ s₀.freelist ∨ f ∈ t.freelist → t.mem f = s₀.mem f := by
  obtain ⟨l, hperm, htables⟩ := h.taken
  have hr₀ : r ∈ s₀.freelist := hperm.mem_iff.mpr (by simp [hs])
  obtain ⟨l', hl', hp'⟩ := hmap.taken
  refine ⟨⟨l' ++ l, ?_, ?_⟩, ?_, ?_⟩
  · refine hperm.trans ?_
    have hnext : next = l' ++ t.freelist := hl'
    rw [hs, hnext, List.nil_append]
    refine List.Perm.trans (List.Perm.append_left _ List.perm_middle)
      (List.perm_middle.trans (List.Perm.cons r ?_))
    rw [List.append_assoc]
    exact List.Perm.append_left _ (List.perm_append_comm_assoc _ _ _)
  · refine hp'.trans ?_
    rw [List.append_assoc]
    exact htables.append_left l'
  · intro va hva
    have hd := h.table va hva
    have hpage : PDX (va / PGSIZE % 2 ^ 20 * PGSIZE) = PDX va := by
      apply Fin.ext
      simp only [PDX, PGSIZE, NPDENTRIES, Fin.val_ofNat]
      omega
    have htab := (hmap.table (va / PGSIZE % 2 ^ 20) (Nat.mod_lt _ (by decide))).mpr
    unfold PageDir.hasTable at hd htab ⊢
    rw [hpage] at htab
    exact htab (.inl hd)
  · intro f hf
    rw [hmap.mem]
    have hin : f ∈ t.freelist → f ∈ next := fun hf => by
      have hnext : next = l' ++ t.freelist := hl'
      simp [hnext, hf]
    have hr : r ∉ next := by
      have hfree := (List.nodup_append.mp (List.nodup_append.mp (hperm.nodup_iff.mp hnodup)).2.1).2.1
      rw [hs] at hfree
      exact (List.nodup_cons.mp (List.nodup_append.mp hfree).2.1).1
    have hne : f ≠ r := by
      rintro rfl
      exact hf.elim (fun hout => hout hr₀) fun hf => hr (hin hf)
    refine (Function.update_of_ne hne _ _).trans (h.mem f (hf.imp_right fun hf => ?_))
    rw [hs]
    exact List.mem_cons_of_mem r (hin hf)

theorem Growing.fresh_kept {lo v u r : Nat} {next : List Nat} (h : Growing d₀ s₀ lo v [] d s)
    (hnodup : s₀.freelist.Nodup) (hs : s.freelist = r :: next) (hlo : lo ≤ u) (hu : u < v) :
    ∃ f, d.mapping u = some ⟨f, PTE_W ||| PTE_U ||| PTE_P⟩ ∧
      Function.update s.mem r Bytes.zero f = Bytes.zero := by
  obtain ⟨f, hf, hzero⟩ := h.fresh u hlo hu
  have hne : f ≠ r := by
    rintro rfl
    exact (h.frames_not_free hnodup hlo hu hf).2 (by simp [hs])
  exact ⟨f, hf, (Function.update_of_ne hne _ _).trans hzero⟩

theorem Growing.step {lo v r : Nat} {next : List Nat} (h : Growing d₀ s₀ lo v [] d s)
    (hnodup : s₀.freelist.Nodup) (hlo : lo ≤ v) (hv : v < 2 ^ 19) (hr : r < 2 ^ 20)
    (hs : s.freelist = r :: next) (hstart : v % 1024 = 0 ∨ d.hasTable (v * PGSIZE) = true)
    (hmap : Mapped d ⟨next, Function.update s.mem r Bytes.zero⟩ v r 1 (PTE_W ||| PTE_U) d' t) :
    Growing d₀ s₀ lo (v + 1) [] d' t := by
  have hself : d'.mapping v = some ⟨r, PTE_W ||| PTE_U ||| PTE_P⟩ := by
    rw [hmap.mapping v (by omega), if_pos (by omega)]
    rw [Nat.sub_self, Nat.add_zero, Nat.mod_eq_of_lt hr]
  have hother : ∀ u < 2 ^ 20, u ≠ v → d'.mapping u = d.mapping u := by
    intro u hu hne
    rw [hmap.mapping u hu, if_neg (by omega)]
  obtain ⟨⟨l, hperm, htables⟩, htable, hmem⟩ := h.tables hnodup hs hmap
  refine ⟨hmap.page.trans h.page, ?_, ?_, htable, ⟨l, ?_, htables⟩, hmem, ?_⟩
  · intro u hu hout
    rw [hother u hu (by omega)]
    exact h.old u hu (by omega)
  · intro u hl hu
    rw [hmap.mem]
    by_cases huv : u = v
    · subst huv
      exact ⟨r, hself, Function.update_self ..⟩
    · rw [hother u (by omega) huv]
      exact h.fresh_kept hnodup hs hl (by omega)
  · have hframes : d'.frames lo (v + 1) = d.frames lo v ++ [r] := by
      rw [PageDir.frames_append hlo (Nat.le_succ v), PageDir.frames_cons (Nat.lt_succ_self v), hself,
        PageDir.frames_empty (Nat.le_refl _)]
      congr 1
      exact PageDir.frames_congr fun u hl hu => hother u (by omega) (by omega)
    rw [hframes, List.nil_append, List.append_assoc]
    exact hperm.trans List.perm_middle.symm
  · have hfew := h.few
    have htab := hmap.tables_one (by omega)
    unfold tablesFor at hfew ⊢
    rcases hstart with hmod | ht
    · split at htab
      · omega
      · omega
    · rw [ht, if_pos rfl] at htab
      omega

theorem Growing.hold {lo v r : Nat} {next : List Nat} {perm : BitVec 12}
    (h : Growing d₀ s₀ lo v [] d s) (hnodup : s₀.freelist.Nodup) (hv : v < 2 ^ 19)
    (hs : s.freelist = r :: next)
    (hmap : Mapped d ⟨next, Function.update s.mem r Bytes.zero⟩ v r 0 perm d' t) :
    Growing d₀ s₀ lo v [r] d' t := by
  have hother : ∀ u < 2 ^ 20, d'.mapping u = d.mapping u := by
    intro u hu
    rw [hmap.mapping u hu, if_neg (by omega)]
  obtain ⟨⟨l, hperm, htables⟩, htable, hmem⟩ := h.tables hnodup hs hmap
  refine ⟨hmap.page.trans h.page, ?_, ?_, htable, ⟨l, ?_, htables⟩, hmem, ?_⟩
  · intro u hu hout
    rw [hother u hu]
    exact h.old u hu hout
  · intro u hl hu
    rw [hmap.mem, hother u (by omega)]
    exact h.fresh_kept hnodup hs hl hu
  · have hframes : d'.frames lo v = d.frames lo v :=
      PageDir.frames_congr fun u _ hu => hother u (by omega)
    rw [hframes]
    exact hperm
  · rw [tablePages_length_congr fun u hu => hmap.hasTable_zero hu]
    exact h.few

/-- allocuvm has given up: the user pages are as before; only page tables are gone from the free
list. -/
structure GaveUp (d₀ : PageDir) (s₀ : Kmem) (held : List Nat) (d : PageDir) (s : Kmem) : Prop where
  page : d.page = d₀.page
  mapping : ∀ u < 2 ^ 20, d.mapping u = d₀.mapping u
  taken : ∃ l, s₀.freelist.Perm (held ++ (l ++ s.freelist)) ∧ d.tablePages.Perm (l ++ d₀.tablePages)
  mem : ∀ f ∉ s₀.freelist, s.mem f = s₀.mem f

theorem GaveUp.free {r : Nat} (h : GaveUp d₀ s₀ [r] d s) (hr : r ∈ s₀.freelist) :
    GaveUp d₀ s₀ [] d ⟨r :: s.freelist, Function.update s.mem r fun _ => 1⟩ := by
  obtain ⟨l, hperm, htables⟩ := h.taken
  refine ⟨h.page, h.mapping, ⟨l, ?_, htables⟩, ?_⟩
  · rw [List.nil_append]
    exact hperm.trans (@List.perm_middle _ r l s.freelist).symm
  · intro f hf
    have hne : f ≠ r := fun he => hf (he ▸ hr)
    exact (Function.update_of_ne hne _ _).trans (h.mem f hf)

theorem hasTable_start {p : Nat} (hp : p ≤ 2 ^ 19) (hpresent : ∀ u < p, (d.mapping u).isSome) :
    p % 1024 = 0 ∨ d.hasTable (p * PGSIZE) = true := by
  by_cases hmod : p % 1024 = 0
  · exact .inl hmod
  · right
    by_contra hno
    have hnone := mapping_of_no_table (d := d) (u := p - 1) (v := p) (by omega) (by omega)
      (by simpa using hno)
      (by omega)
    have hsome := hpresent (p - 1) (by omega)
    rw [hnone] at hsome
    cases hsome

theorem Growing.giveUp {oldsz newsz v : Nat} {held : List Nat}
    (h : Growing d₀ s₀ (pages oldsz) v held d s) (hnodup : s₀.freelist.Nodup)
    (hfree : ∀ f ∈ s₀.freelist, k.Valid f) (hnew : newsz < KERNBASE) (hlt : oldsz < newsz)
    (hv : pages oldsz ≤ v) (hv' : v ≤ pages newsz)
    (hpresent : ∀ u < 2 ^ 19, (d₀.mapping u).isSome ↔ u < pages oldsz) :
    ∃ d' t, Returns (deallocuvm k d newsz oldsz) s (d', oldsz) t ∧ GaveUp d₀ s₀ held d' t := by
  have hpages := pages_le (Nat.le_of_lt hnew)
  have hnone : ∀ u, v ≤ u → u < pages newsz → d.mapping u = none := by
    intro u hl hu
    rw [h.old u (by omega) (by omega)]
    have := (hpresent u (by omega)).not.mpr (by omega)
    simpa using this
  have hstart : pages oldsz % 1024 = 0 ∨ d.hasTable (pages oldsz * PGSIZE) = true :=
    (hasTable_start (by omega) fun u hu => (hpresent u (by omega)).mpr hu).imp_right (h.table _)
  obtain ⟨d', t, hrun, hun⟩ :=
    deallocuvm_run (k := k) (s := s) _ (Nat.le_of_lt hnew) hlt (hstart.imp_right .inl) (by
    intro u e hl hu he
    by_cases huv : u < v
    · exact hfree _ (h.frames_not_free hnodup hl huv he).1
    · rw [hnone u (by omega) hu] at he
      cases he)
  refine ⟨d', t, hrun, hun.page.trans h.page, ?_, ?_, ?_⟩
  · intro u hu
    rw [hun.mapping u hu]
    split
    next hin =>
      have := (hpresent u (by omega)).not.mpr (by omega)
      symm
      simpa using this
    next hout => exact h.old u hu (by omega)
  · obtain ⟨l, hperm, htables⟩ := h.taken
    have hframes : d.frames (pages oldsz) (pages newsz) = d.frames (pages oldsz) v := by
      rw [PageDir.frames_append hv hv', PageDir.frames_skip v hv' fun u hl hu _ => hnone u hl hu,
        PageDir.frames_empty (Nat.le_refl _), List.append_nil]
    refine ⟨l, ?_, by rw [hun.tables]; exact htables⟩
    rw [hun.freelist, hframes]
    refine hperm.trans (List.Perm.append_left held ?_)
    refine (List.perm_append_comm_assoc _ _ _).trans (List.Perm.append_left l ?_)
    exact (List.reverse_perm _).symm.append_right _
  · intro f hf
    rw [hun.mem f ?_, h.mem f (.inl hf)]
    intro hin
    obtain ⟨u, e, hl, hu, he, rfl⟩ := PageDir.mem_frames.mp hin
    by_cases huv : u < v
    · exact hf (h.frames_not_free hnodup hl huv he).1
    · rw [hnone u (by omega) hu] at he
      cases he

theorem allocPage_run {oldsz newsz v : Nat} (h : Growing d₀ s₀ (pages oldsz) v [] d s)
    (hnodup : s₀.freelist.Nodup) (hfree : ∀ f ∈ s₀.freelist, k.Valid f) (hnew : newsz < KERNBASE)
    (hlt : oldsz < newsz) (hv : pages oldsz ≤ v) (hv' : v < pages newsz)
    (hpresent : ∀ u < 2 ^ 19, (d₀.mapping u).isSome ↔ u < pages oldsz) :
    ∃ d' ok t, Returns (allocPage k d oldsz newsz (v * PGSIZE)) s (d', ok) t ∧
      if ok then Growing d₀ s₀ (pages oldsz) (v + 1) [] d' t
      else GaveUp d₀ s₀ [] d' t ∧ s₀.freelist.length < pages newsz - pages oldsz +
        (tablesFor (pages newsz) - tablesFor (pages oldsz)) := by
  have hpages := pages_le (Nat.le_of_lt hnew)
  have hnone : d.mapping v = none := by
    rw [h.old v (by omega) (by omega)]
    have := (hpresent v (by omega)).not.mpr (by omega)
    simpa using this
  have hstart : v % 1024 = 0 ∨ d.hasTable (v * PGSIZE) = true := by
    refine hasTable_start (by omega) fun u hu => ?_
    by_cases hlo : pages oldsz ≤ u
    · obtain ⟨f, hf, _⟩ := h.fresh u hlo hu
      rw [hf]
      rfl
    · rw [h.old u (by omega) (by omega)]
      exact (hpresent u (by omega)).mpr (by omega)
  cases hs : s.freelist with
  | nil =>
    obtain ⟨d', t, hrun, hgave⟩ := h.giveUp hnodup hfree hnew hlt hv (by omega) hpresent
    have hcount := h.count
    simp only [hs, List.length_nil, tablesFor] at hcount ⊢
    exact ⟨d', false, t, (kalloc_none hs).bind (hrun.bind returns_pure), hgave, by omega⟩
  | cons r next =>
    obtain ⟨l, hperm, _⟩ := h.taken
    have hr₀ : r ∈ s₀.freelist := hperm.mem_iff.mpr (by simp [hs])
    have hrv := hfree r hr₀
    have hr : r < 2 ^ 20 := by
      have := hrv.2
      simp only [PGSIZE, PHYSTOP] at this
      omega
    have hmap := mappages_page (s := ⟨next, Function.update s.mem r Bytes.zero⟩) (v := v)
      (PTE_W ||| PTE_U)
      (by omega) hr hnone
    generalize hx : mappages d (v * PGSIZE) PGSIZE r (PTE_W ||| PTE_U) _ = x at hmap
    cases hmap with
    | @done d₁ t₁ hmapped =>
      refine ⟨d₁, true, t₁, ?_, h.step hnodup hv (by omega) hr hs hstart hmapped⟩
      exact (kalloc_some hs).bind (returns_modify.bind (Returns.bind hx returns_pure))
    | failed j hj hmapped hempty hno =>
      obtain rfl : j = 0 := by omega
      have hhold := h.hold hnodup (by omega) hs hmapped
      have hcount := hhold.count
      rw [Nat.add_zero, hmapped.hasTable_zero (by omega)] at hno
      have hmod : v % 1024 = 0 := hstart.resolve_right (by simp [hno])
      simp only [hempty, List.length_nil, List.length_singleton, tablesFor] at hcount ⊢
      obtain ⟨d₂, t₂, hrun, hgave⟩ := hhold.giveUp hnodup hfree hnew hlt hv (by omega) hpresent
      refine ⟨d₂, false, _, ?_, hgave.free hr₀, by omega⟩
      refine (kalloc_some hs).bind (returns_modify.bind (Returns.bind hx ?_))
      exact hrun.bind (Returns.bind (kfree_run hrv t₂) returns_pure)

/-- The loop of allocuvm: it ends with all pages or gives up with the size 0. -/
theorem allocPages_run {oldsz newsz v n : Nat} (h : Growing d₀ s₀ (pages oldsz) v [] d s)
    (hnodup : s₀.freelist.Nodup) (hfree : ∀ f ∈ s₀.freelist, k.Valid f) (hnew : newsz < KERNBASE)
    (hv : pages oldsz ≤ v) (hn : v + n = pages newsz)
    (hpresent : ∀ u < 2 ^ 19, (d₀.mapping u).isSome ↔ u < pages oldsz) :
    ∃ d' r t, Returns (allocPages k oldsz newsz n d (v * PGSIZE)) s (d', r) t ∧
      ((r = newsz ∧ Growing d₀ s₀ (pages oldsz) (pages newsz) [] d' t) ∨
        (r = 0 ∧ GaveUp d₀ s₀ [] d' t ∧ s₀.freelist.length < pages newsz - pages oldsz +
          (tablesFor (pages newsz) - tablesFor (pages oldsz)))) := by
  induction n generalizing d s v with
  | zero =>
    obtain rfl : v = pages newsz := by omega
    exact ⟨d, newsz, s, rfl, .inl ⟨rfl, h⟩⟩
  | succ n ih =>
    have hlt' : oldsz < newsz := by
      rcases Nat.lt_or_ge oldsz newsz with hl | hge
      · exact hl
      · have := pages_mono hge
        omega
    obtain ⟨d₁, ok, t₁, hrun, hok⟩ :=
      allocPage_run (k := k) h hnodup hfree hnew hlt' hv (by omega) hpresent
    cases ok with
    | false => exact ⟨d₁, 0, t₁, hrun.bind returns_pure, .inr ⟨rfl, hok⟩⟩
    | true =>
      obtain ⟨d₂, r, t₂, hrest, hend⟩ := ih hok (by omega) (by omega)
      rw [show (v + 1) * PGSIZE = v * PGSIZE + PGSIZE from Nat.succ_mul v PGSIZE] at hrest
      exact ⟨d₂, r, t₂, hrun.bind hrest, hend⟩

/-- allocuvm, if it is asked for more than there is and less than the kernel's part. -/
theorem allocuvm_run {oldsz newsz : Nat} (hnodup : s.freelist.Nodup)
    (hfree : ∀ f ∈ s.freelist, k.Valid f)
    (hpresent : ∀ u < 2 ^ 19, (d.mapping u).isSome ↔ u < pages oldsz) (hold : oldsz ≤ newsz)
    (hnew : newsz < KERNBASE) :
    ∃ d' r t, Returns (allocuvm k d oldsz newsz) s (d', r) t ∧
      ((r = newsz ∧ Growing d s (pages oldsz) (pages newsz) [] d' t) ∨
        (r = 0 ∧ GaveUp d s [] d' t ∧ s.freelist.length < pages newsz - pages oldsz +
          (tablesFor (pages newsz) - tablesFor (pages oldsz)))) := by
  have hcount : pages oldsz + (newsz - pages oldsz * PGSIZE + PGSIZE - 1) / PGSIZE =
      pages newsz := by
    simp only [pages, PGSIZE]
    omega
  obtain ⟨d', r, t, hrun, hend⟩ :=
    allocPages_run (k := k) .refl hnodup hfree hnew (Nat.le_refl _) hcount hpresent
  refine ⟨d', r, t, ?_, hend⟩
  unfold allocuvm
  rw [if_neg (by omega), if_neg (by omega), pgroundup_pages (by omega)]
  exact hrun

/-- A page directory whose user pages are those of sz bytes, each mapped to a page of its own that
is not free. -/
structure UserPages (k : KernelImage) (d : PageDir) (sz : Nat) (s : Kmem) : Prop where
  present : ∀ v < 2 ^ 19, (d.mapping v).isSome ↔ v < pages sz
  frame : ∀ v < 2 ^ 19, ∀ e, d.mapping v = some e → k.Valid e.addr ∧ e.addr ∉ s.freelist
  separate : ∀ v < 2 ^ 19, ∀ w < 2 ^ 19, ∀ e e', d.mapping v = some e → d.mapping w = some e' →
    e.addr = e'.addr → v = w
  nodup : s.freelist.Nodup
  free : ∀ f ∈ s.freelist, k.Valid f

/-- The page has the mapping and the contents that it had. -/
def SamePage (d : PageDir) (s : Kmem) (d' : PageDir) (t : Kmem) (v : Nat) : Prop :=
  d'.mapping v = d.mapping v ∧ ∀ e, d.mapping v = some e → t.mem e.addr = s.mem e.addr

/-- allocuvm has succeeded. -/
structure Allocated (d : PageDir) (s : Kmem) (oldsz newsz : Nat) (d' : PageDir) (t : Kmem) :
    Prop where
  small : newsz < KERNBASE
  present : ∀ v < 2 ^ 19, (d'.mapping v).isSome ↔ v < pages (max oldsz newsz)
  fresh : ∀ v < 2 ^ 19, pages oldsz ≤ v → ∀ e, d'.mapping v = some e →
    e.flags = PTE_W ||| PTE_U ||| PTE_P ∧ t.mem e.addr = Bytes.zero ∧ e.addr ∈ s.freelist ∧
      e.addr ∉ t.freelist
  distinct : ∀ v < 2 ^ 19, ∀ w < 2 ^ 19, pages oldsz ≤ v → pages oldsz ≤ w →
    ∀ e e', d'.mapping v = some e →
    d'.mapping w = some e' → e.addr = e'.addr → v = w
  kept : ∀ v < 2 ^ 19, v < pages oldsz → SamePage d s d' t v

/-- allocuvm has failed: of the free list only pages that have become page tables are gone. There
were too few for the new pages and their page tables. -/
structure NotAllocated (d : PageDir) (s : Kmem) (oldsz newsz : Nat) (d' : PageDir) (t : Kmem) :
    Prop where
  reason : KERNBASE ≤ newsz ∨
    s.freelist.length < pages newsz - pages oldsz +
      (tablesFor (pages newsz) - tablesFor (pages oldsz))
  kept : ∀ v < 2 ^ 19, SamePage d s d' t v
  returned : ∃ l, s.freelist.Perm (l ++ t.freelist) ∧ d'.tablePages.Perm (l ++ d.tablePages)

/-- The pages from newsz on are unmapped, and each of them is on the free list once. -/
structure Deallocated (d : PageDir) (s : Kmem) (newsz : Nat) (d' : PageDir) (t : Kmem) : Prop where
  mapping : ∀ v < 2 ^ 19, d'.mapping v = if v < pages newsz then d.mapping v else none
  freelist : t.freelist.Perm (d.frames (pages newsz) (2 ^ 19) ++ s.freelist)
  once : t.freelist.Nodup
  contents : ∀ v < 2 ^ 19, v < pages newsz → ∀ e, d.mapping v = some e → t.mem e.addr = s.mem e.addr

theorem PageDir.frames_nodup {lo hi : Nat}
    (h : ∀ v < hi, ∀ w < hi, lo ≤ v → lo ≤ w → ∀ e e', d.mapping v = some e →
    d.mapping w = some e' → e.addr = e'.addr → v = w) : (d.frames lo hi).Nodup := by
  unfold PageDir.frames List.Nodup
  rw [List.pairwise_filterMap]
  refine List.Pairwise.imp_of_mem (fun {v w} hv hw hne f hf f' hf' heq => ?_) List.nodup_range'
  obtain ⟨e, he, rfl⟩ := Option.map_eq_some_iff.mp hf
  obtain ⟨e', he', rfl⟩ := Option.map_eq_some_iff.mp hf'
  rw [List.mem_range'_1] at hv hw
  exact hne (h v (by omega) w (by omega) hv.1 hw.1 e e' he he' heq)

theorem PageDir.frames_inj {lo hi v w : Nat} {e e' : Pte} (h : (d.frames lo hi).Nodup) (hv : lo ≤ v)
    (hv' : v < hi) (hw : lo ≤ w) (hw' : w < hi) (he : d.mapping v = some e)
    (he' : d.mapping w = some e') (haddr : e.addr = e'.addr) : v = w := by
  by_contra hne
  have hcut : ∀ v w e e', lo ≤ v → v < w → w < hi → d.mapping v = some e → d.mapping w = some e' →
      e.addr ≠ e'.addr := by
    intro v w e e' hlv hvw hwhi he he' haddr
    rw [PageDir.frames_append (by omega : lo ≤ v + 1) (by omega)] at h
    have hleft : e.addr ∈ d.frames lo (v + 1) :=
      PageDir.mem_frames.mpr ⟨v, e, hlv, by omega, he, rfl⟩
    have hright : e.addr ∈ d.frames (v + 1) hi :=
      PageDir.mem_frames.mpr ⟨w, e', by omega, hwhi, he', haddr.symm⟩
    exact (List.nodup_append.mp h).2.2 _ hleft _ hright rfl
  rcases Nat.lt_or_gt_of_ne hne with hlt | hgt
  · exact hcut v w e e' hv hlt hw' he he' haddr
  · exact hcut w v e' e hw hgt hv' he' he haddr.symm

theorem UserPages.allocuvm (h : UserPages k d oldsz s) (newsz : Nat) :
    ∃ d' r t, Returns (allocuvm k d oldsz newsz) s (d', r) t ∧
      (r = max oldsz newsz ∧ Allocated d s oldsz newsz d' t ∨
        r = 0 ∧ NotAllocated d s oldsz newsz d' t) := by
  by_cases hbig : KERNBASE ≤ newsz
  · refine ⟨d, 0, s, ?_, .inr ⟨rfl, .inl hbig, fun v _ => ⟨rfl, fun _ _ => rfl⟩, [], ?_, ?_⟩⟩
    · unfold Xv6.allocuvm
      rw [if_pos hbig]
      exact returns_pure
    · rw [List.nil_append]
    · rw [List.nil_append]
  have hnew : newsz < KERNBASE := by omega
  by_cases hlt : newsz < oldsz
  · have hmax : max oldsz newsz = oldsz := by omega
    refine ⟨d, oldsz, s, ?_, .inl ⟨hmax.symm, hnew, ?_, ?_, ?_, fun v _ _ => ⟨rfl, fun _ _ => rfl⟩⟩⟩
    · unfold Xv6.allocuvm
      rw [if_neg hbig, if_pos hlt]
      exact returns_pure
    · rw [hmax]
      exact h.present
    · intro v hv hlo e he
      have := (h.present v hv).mp (by simp [he])
      omega
    · exact fun v hv w hw _ _ e e' he he' haddr => h.separate v hv w hw e e' he he' haddr
  have hmax : max oldsz newsz = newsz := by omega
  have hpages := pages_le (Nat.le_of_lt hnew)
  have hmono := pages_mono (by omega : oldsz ≤ newsz)
  obtain ⟨d', r, t, hrun, hend⟩ := allocuvm_run (k := k) h.nodup h.free h.present (by omega) hnew
  have hnotfree : ∀ v < 2 ^ 19, ∀ e, d.mapping v = some e → e.addr ∉ s.freelist := fun v hv e he =>
    (h.frame v hv e he).2
  rcases hend with ⟨rfl, hgrown⟩ | ⟨rfl, hgave, hout⟩
  · have hpresent : ∀ v < 2 ^ 19, (d'.mapping v).isSome ↔ v < pages r := by
      intro v hv
      by_cases hin : pages oldsz ≤ v ∧ v < pages r
      · obtain ⟨f, hf, _⟩ := hgrown.fresh v hin.1 hin.2
        simp [hf, hin.2]
      · rw [hgrown.old v (by omega) hin, h.present v hv]
        omega
    refine ⟨d', r, t, hrun, .inl ⟨hmax.symm, hnew, by rw [hmax]; exact hpresent, ?_, ?_, ?_⟩⟩
    · intro v hv hlo e he
      have hvr : v < pages r := (hpresent v hv).mp (by simp [he])
      obtain ⟨f, hf, hzero⟩ := hgrown.fresh v hlo hvr
      obtain ⟨hin, hout⟩ := hgrown.frames_not_free h.nodup hlo hvr he
      cases Option.some.inj (hf.symm.trans he)
      exact ⟨rfl, hzero, hin, hout⟩
    · intro v hv w hw hlv hlw e e' he he' haddr
      have hvr : v < pages r := (hpresent v hv).mp (by simp [he])
      have hwr : w < pages r := (hpresent w hw).mp (by simp [he'])
      obtain ⟨l, hperm, _⟩ := hgrown.taken
      rw [List.nil_append] at hperm
      have hnodup := (List.nodup_append.mp (hperm.nodup_iff.mp h.nodup)).1
      exact PageDir.frames_inj hnodup hlv hvr hlw hwr he he' haddr
    · intro v hv hvo
      exact ⟨hgrown.old v (by omega) (by omega), fun e he => hgrown.mem _ (.inl (hnotfree v hv e he))⟩
  · obtain ⟨l, hperm, htables⟩ := hgave.taken
    rw [List.nil_append] at hperm
    exact ⟨d', 0, t, hrun, .inr ⟨rfl, .inr hout,
      fun v hv => ⟨hgave.mapping v (by omega), fun e he =>
      hgave.mem _ (hnotfree v hv e he)⟩, l, hperm, htables⟩⟩

theorem PageDir.frames_above {p lo : Nat} (h : ∀ v < 2 ^ 19, (d.mapping v).isSome ↔ v < p)
    (hlo : p ≤ lo) :
    d.frames lo (2 ^ 19) = [] := by
  rw [List.eq_nil_iff_forall_not_mem]
  intro f hf
  obtain ⟨u, e, hlu, hu, he, _⟩ := PageDir.mem_frames.mp hf
  have := (h u hu).mp (by simp [he])
  omega

theorem UserPages.deallocuvm (h : UserPages k d oldsz s) {oldsz' : Nat} (hle : oldsz ≤ oldsz')
    (hmax : oldsz' ≤ KERNBASE) (newsz : Nat) :
    ∃ d' t, Returns (deallocuvm k d oldsz' newsz) s (d', min oldsz' newsz) t ∧
      Deallocated d s newsz d' t := by
  have hpages := pages_le hmax
  have hmono := pages_mono hle
  have hnone : ∀ v, pages oldsz ≤ v → v < 2 ^ 19 → d.mapping v = none := by
    intro v hlo hv
    have := (h.present v hv).not.mpr (by omega)
    simpa using this
  by_cases hlt : newsz < oldsz'
  case neg =>
    have hnew := pages_mono (by omega : oldsz' ≤ newsz)
    refine ⟨d, s, ?_, ?_, ?_, h.nodup, fun _ _ _ _ _ => rfl⟩
    · unfold Xv6.deallocuvm
      rw [if_pos (by omega), Nat.min_eq_left (by omega)]
      exact returns_pure
    · intro v hv
      split
      next => rfl
      next hge => exact hnone v (by omega) hv
    · rw [PageDir.frames_above h.present (by omega)]
      rfl
  have hnew := pages_mono (Nat.le_of_lt hlt)
  have hstart : pages newsz % 1024 = 0 ∨ d.hasTable (pages newsz * PGSIZE) = true ∨
      ∀ u, pages newsz ≤ u → u < pages oldsz' → d.mapping u = none := by
    by_cases hin : pages newsz ≤ pages oldsz
    · exact (hasTable_start (by omega) fun u hu => (h.present u (by omega)).mpr (by omega)).imp_right .inl
    · exact .inr (.inr fun u hl hu => hnone u (by omega) (by omega))
  obtain ⟨d', t, hrun, hun⟩ := deallocuvm_run (k := k) (s := s) _ hmax hlt hstart
    fun u e _ hu he => (h.frame u (by omega) e he).1
  have hframes : d.frames (pages newsz) (2 ^ 19) = d.frames (pages newsz) (pages oldsz') := by
    rw [PageDir.frames_append hnew hpages, PageDir.frames_above h.present hmono, List.append_nil]
  have hfreed : (d.frames (pages newsz) (pages oldsz')).Nodup := PageDir.frames_nodup
    fun v hv w hw _ _ e e' => h.separate v (by omega) w (by omega) e e'
  have hfree : ∀ f ∈ d.frames (pages newsz) (pages oldsz'), f ∉ s.freelist := by
    intro f hf
    obtain ⟨u, e, _, hu, he, rfl⟩ := PageDir.mem_frames.mp hf
    exact (h.frame u (by omega) e he).2
  refine ⟨d', t, by rw [Nat.min_eq_right (by omega)]; exact hrun, ?_, ?_, ?_, ?_⟩
  · intro v hv
    rw [hun.mapping v (by omega)]
    by_cases hvn : v < pages newsz
    · rw [if_neg (by omega), if_pos hvn]
    · rw [if_neg hvn]
      split
      next => rfl
      next hge => exact hnone v (by omega) hv
  · rw [hun.freelist, hframes]
    exact (List.reverse_perm _).append_right _
  · rw [hun.freelist]
    refine List.nodup_append.mpr ⟨List.nodup_reverse.mpr hfreed, h.nodup, fun f hf g hg hfg => ?_⟩
    subst hfg
    exact hfree f (List.mem_reverse.mp hf) hg
  · intro v hv hvn e he
    refine hun.mem _ fun hin => ?_
    obtain ⟨u, e', hlu, hu, he', haddr⟩ := PageDir.mem_frames.mp hin
    have := h.separate u (by omega) v hv e' e he' he haddr
    omega

/-- allocuvm and deallocuvm are exact: neither panics, what is mapped is what is asked for, and the
free list accounts for every page. -/
theorem allocuvm_deallocuvm_exact (h : UserPages k d oldsz s) (newsz : Nat) :
    (∃ d' r t, Returns (allocuvm k d oldsz newsz) s (d', r) t ∧
      (r = max oldsz newsz ∧ Allocated d s oldsz newsz d' t ∨ r = 0 ∧ NotAllocated d s oldsz newsz d' t)) ∧
    ∀ oldsz', oldsz ≤ oldsz' → oldsz' ≤ KERNBASE →
      ∃ d' t, Returns (deallocuvm k d oldsz' newsz) s (d', min oldsz' newsz) t ∧
        Deallocated d s newsz d' t :=
  ⟨h.allocuvm newsz, fun _ hle hmax => h.deallocuvm hle hmax newsz⟩

/-- A kernel with a text of 32 kB. -/
def smallKernel : KernelImage :=
  ⟨0x80108000, 0x80110000, by decide, by decide, by decide, by decide⟩

theorem smallKernel_valid {f : Nat} (hlow : 0x1000 ≤ f) (hhigh : f < 0x3000) :
    smallKernel.Valid f := by
  refine ⟨?_, ?_⟩
  · simp only [smallKernel, KERNBASE, PGSIZE]
    omega
  · simp only [PGSIZE, PHYSTOP]
    omega

theorem onePage_mapping {v : Nat} (hv : v < 2 ^ 20) :
    onePage.mapping v = if v = 0 then some ⟨0x1002, 7⟩ else none := by
  have hentry := entry_eq_iff hv (by decide : 0 < 2 ^ 20)
  unfold PageDir.mapping PageDir.load onePage
  by_cases h0 : v = 0
  · subst h0
    rfl
  · rw [if_neg h0]
    by_cases hd : PDX (v * PGSIZE) = 0
    · have ht : PTX (v * PGSIZE) ≠ 0 := fun ht => h0 (hentry.mp ⟨hd, ht⟩)
      simp [hd, ht]
    · simp [hd]

theorem onePage_pages : UserPages smallKernel onePage 4096 ⟨[0x1003], fun _ => zero⟩ := by
  refine ⟨?_, ?_, ?_, by decide, fun f hf => ?_⟩
  · intro v hv
    rw [onePage_mapping (by omega)]
    have hpages : pages 4096 = 1 := by decide
    by_cases h0 : v = 0
    · simp [h0, hpages]
    · simp [h0, hpages]
  · intro v hv e he
    rw [onePage_mapping (by omega)] at he
    split at he
    next =>
      cases he
      exact ⟨⟨by decide, by decide⟩, by decide⟩
    next => cases he
  · intro v hv w hw e e' he he' _
    rw [onePage_mapping (by omega)] at he he'
    split at he
    next hv0 =>
      split at he'
      next hw0 => rw [hv0, hw0]
      next => cases he'
    next => cases he
  · cases List.mem_singleton.mp hf
    exact ⟨by decide, by decide⟩

theorem allocuvm_deallocuvm_exact_two_bytes :
    ∃ d' t,
      Returns (allocuvm smallKernel onePage 4096 4098) ⟨[0x1003], fun _ => zero⟩ (d', 4098) t ∧
      Allocated onePage ⟨[0x1003], fun _ => zero⟩ 4096 4098 d' t := by
  obtain ⟨d', r, t, hrun, ⟨rfl, hdone⟩ | ⟨_, hfailed⟩⟩ :=
    (allocuvm_deallocuvm_exact onePage_pages 4098).1
  · exact ⟨d', t, hrun, hdone⟩
  · exact absurd hfailed.reason (by decide)

end Xv6
