import Xv6.CopyMemory

namespace Xv6

open Bytes Prog

variable {k : KernelImage} {d d' : PageDir} {s₀ s t : Kmem} {sz newsz : Nat}

/-- The pages on the free list are pages of memory, each of them once. -/
structure Kmem.Good (k : KernelImage) (s : Kmem) : Prop where
  nodup : s.freelist.Nodup
  valid : ∀ f ∈ s.freelist, k.Valid f

/-- There are pages for an image of n pages: a directory, 64 tables for the kernel, and the tables
for the image. -/
structure Kmem.Room (s : Kmem) (n : Nat) : Prop where
  small : n * PGSIZE < KERNBASE
  enough : 65 + n + tablesFor n ≤ s.freelist.length

/-- The directory of an image of sz bytes that is being built: s₀ is the memory before the first
page was taken for it, and all pages that it has were free then. -/
structure NewDir (s₀ : Kmem) (d : PageDir) (sz : Nat) (s : Kmem) : Prop where
  present : ∀ v < 2 ^ 19, (d.mapping v).isSome ↔ v < pages sz
  kernel : ∀ v < 2 ^ 20, 2 ^ 19 ≤ v → ∀ e, d.mapping v = some e → e.user = false
  account : s₀.freelist.Perm (d.page :: (d.tablePages ++ (d.frames 0 (2 ^ 19) ++ s.freelist)))
  mem : ∀ f ∉ s₀.freelist, s.mem f = s₀.mem f

namespace NewDir

theorem frame_mem (h : NewDir s₀ d sz s) {v : Nat} {e : Pte} (hv : v < 2 ^ 19)
    (he : d.mapping v = some e) :
    e.addr ∈ s₀.freelist := by
  have hmem : e.addr ∈ d.frames 0 (2 ^ 19) :=
    PageDir.mem_frames.mpr ⟨v, e, Nat.zero_le v, hv, he, rfl⟩
  exact h.account.mem_iff.mpr
    (List.mem_cons_of_mem _ (List.mem_append_right _ (List.mem_append_left _ hmem)))

theorem has_mem (h : NewDir s₀ d sz s) {f : Nat} (hf : d.Has f) : f ∈ s₀.freelist := by
  rcases hf with rfl | htab | ⟨v, hv, e, he, rfl⟩
  · exact h.account.mem_iff.mpr List.mem_cons_self
  · exact h.account.mem_iff.mpr (by simp [htab])
  · exact h.frame_mem hv he

theorem frames_nodup (h : NewDir s₀ d sz s) (hg : s₀.Good k) : (d.frames 0 (2 ^ 19)).Nodup := by
  have hall := (List.nodup_cons.mp (h.account.nodup_iff.mp hg.nodup)).2
  exact (List.nodup_append.mp (List.nodup_append.mp hall).2.1).1

theorem separate (h : NewDir s₀ d sz s) (hg : s₀.Good k) {v w : Nat} {e e' : Pte} (hv : v < 2 ^ 19)
    (hw : w < 2 ^ 19) (he : d.mapping v = some e) (he' : d.mapping w = some e')
    (haddr : e.addr = e'.addr) : v = w :=
  PageDir.frames_inj (h.frames_nodup hg) (Nat.zero_le v) hv (Nat.zero_le w) hw he he' haddr

theorem not_free (h : NewDir s₀ d sz s) (hg : s₀.Good k) {v : Nat} {e : Pte} (hv : v < 2 ^ 19)
    (he : d.mapping v = some e) : e.addr ∉ s.freelist := by
  have hmem : e.addr ∈ d.frames 0 (2 ^ 19) :=
    PageDir.mem_frames.mpr ⟨v, e, Nat.zero_le v, hv, he, rfl⟩
  have hall := (List.nodup_cons.mp (h.account.nodup_iff.mp hg.nodup)).2
  exact fun hf => (List.nodup_append.mp (List.nodup_append.mp hall).2.1).2.2 _ hmem _ hf rfl

theorem good (h : NewDir s₀ d sz s) (hg : s₀.Good k) : s.Good k := by
  have hall := (List.nodup_cons.mp (h.account.nodup_iff.mp hg.nodup)).2
  refine ⟨(List.nodup_append.mp (List.nodup_append.mp hall).2.1).2.1, fun f hf => hg.valid f ?_⟩
  exact h.account.mem_iff.mpr (by simp [hf])

theorem not_free_of (h : NewDir s₀ d sz s) {f : Nat} (hf : f ∉ s₀.freelist) : f ∉ s.freelist :=
  fun hin => hf (h.account.mem_iff.mpr (by simp [hin]))

theorem free_of_not_has (h : NewDir s₀ d sz s) {f : Nat} (hf : f ∈ s₀.freelist) (hnot : ¬ d.Has f) :
    f ∈ s.freelist := by
  rcases List.mem_cons.mp (h.account.mem_iff.mp hf) with rfl | hrest
  · exact absurd (.inl rfl) hnot
  rcases List.mem_append.mp hrest with htab | hrest
  · exact absurd (.inr (.inl htab)) hnot
  rcases List.mem_append.mp hrest with hframe | hfree
  · obtain ⟨v, e, _, hv, he, haddr⟩ := PageDir.mem_frames.mp hframe
    exact absurd (.inr (.inr ⟨v, hv, e, he, haddr⟩)) hnot
  · exact hfree

theorem write (h : NewDir s₀ d sz s) {m : Nat → Block PGSIZE}
    (hm : ∀ f, (∀ v < 2 ^ 19, ∀ e, d.mapping v = some e → e.addr ≠ f) → m f = s.mem f) :
    NewDir s₀ d sz { s with mem := m } := by
  refine ⟨h.present, h.kernel, h.account, fun f hf => ?_⟩
  show m f = s₀.mem f
  rw [hm f fun v hv e he haddr => hf (haddr ▸ h.frame_mem hv he)]
  exact h.mem f hf

end NewDir

/-- No page has been given back so far: a page that is free has not been touched. -/
structure Building (s₀ : Kmem) (d : PageDir) (sz : Nat) (s : Kmem) :
    Prop extends NewDir s₀ d sz s where
  clean : ∀ f ∈ s.freelist, s.mem f = s₀.mem f
  few : d.tablePages.length ≤ 64 + tablesFor (pages sz)

theorem Building.write (h : Building s₀ d sz s) (hg : s₀.Good k) {m : Nat → Block PGSIZE}
    (hm : ∀ f, (∀ v < 2 ^ 19, ∀ e, d.mapping v = some e → e.addr ≠ f) → m f = s.mem f) :
    Building s₀ d sz { s with mem := m } := by
  refine ⟨h.toNewDir.write hm, fun f hf => ?_, h.few⟩
  exact (hm f fun v hv e he haddr => h.not_free hg hv he (haddr ▸ hf)).trans (h.clean f hf)

theorem setupkvm_building (k : KernelImage) (s₀ : Kmem) :
    ∃ o t, Returns (setupkvm k) s₀ o t ∧ t.mem = s₀.mem ∧ (o = none → s₀.freelist.length < 65) ∧
      ∀ d, o = some d → Building s₀ d 0 t := by
  cases hs : s₀.freelist with
  | nil => exact ⟨none, s₀, (kalloc_none hs).bind returns_pure, rfl, fun _ => by decide, fun d hd => by cases hd⟩
  | cons page rest =>
    rw [List.length_cons]
    rcases setupkvm_run (k := k) hs with ⟨_, d, t, hrun, hpage, hkd, hmem, l, hl, htabs⟩ | ⟨hfew, t,
      hrun, _, hmem⟩
    · refine ⟨some d, t, hrun, hmem, (fun hnone => by cases hnone), fun d' hd => ?_⟩
      cases hd
      have hframes : d.frames 0 (2 ^ 19) = [] := by
        rw [PageDir.frames_skip 0 (Nat.zero_le _) fun u _ hu _ => hkd.mapping u hu,
          PageDir.frames_empty (Nat.le_refl _)]
      refine ⟨⟨fun v hv => ?_, fun v hv _ => hkd.access v hv, ?_, fun f _ => by rw [hmem]⟩,
        fun f _ => by rw [hmem], by rw [hkd.tables]; decide⟩
      · have hzero : pages 0 = 0 := by decide
        simp [hkd.mapping v hv, hzero]
      · rw [hs, hl, hframes, hpage, List.nil_append]
        exact (htabs.symm.append_right _).cons page
    · exact ⟨none, t, hrun, hmem, fun _ => by omega, fun d hd => by cases hd⟩

/-- The pages that there were have kept their mapping and contents; the others are zero and open to
the user. -/
structure Grown (d : PageDir) (s : Kmem) (sz : Nat) (d' : PageDir) (t : Kmem) : Prop where
  old : ∀ v < pages sz, v < 2 ^ 19 → SamePage d s d' t v
  fresh : ∀ v < 2 ^ 19, pages sz ≤ v → ∀ e, d'.mapping v = some e →
    e.flags = PTE_W ||| PTE_U ||| PTE_P ∧ t.mem e.addr = Bytes.zero
  free : ∀ f ∈ t.freelist, f ∈ s.freelist ∧ t.mem f = s.mem f

theorem PageDir.frames_below {p : Nat} (h : ∀ v < 2 ^ 19, (d.mapping v).isSome ↔ v < p)
    (hp : p ≤ 2 ^ 19) :
    d.frames 0 (2 ^ 19) = d.frames 0 p := by
  rw [PageDir.frames_append (Nat.zero_le p) hp, PageDir.frames_above h (Nat.le_refl p),
    List.append_nil]

/-- The account after the pages of fs have been mapped and those of l have become tables. -/
theorem NewDir.account_grown (h : NewDir s₀ d sz s) {l fs : List Nat} (hpage : d'.page = d.page)
    (hfree : s.freelist.Perm (fs ++ (l ++ t.freelist)))
    (htables : d'.tablePages.Perm (l ++ d.tablePages))
    (hframes : d'.frames 0 (2 ^ 19) = d.frames 0 (2 ^ 19) ++ fs) :
    s₀.freelist.Perm (d'.page :: (d'.tablePages ++ (d'.frames 0 (2 ^ 19) ++ t.freelist))) := by
  rw [List.perm_iff_count]
  intro a
  have hall := h.account.count_eq a
  have htabs := htables.count_eq a
  have hrest := hfree.count_eq a
  rw [hpage, hframes]
  simp only [List.count_cons, List.count_append] at *
  omega

/-- The image after allocuvm has come to the end of its loop. -/
theorem Building.grown (hg : s₀.Good k) (h : Building s₀ d sz s) {newsz : Nat} (hle : sz ≤ newsz)
    (hnew : newsz < KERNBASE) (hgrown : Growing d s (pages sz) (pages newsz) [] d' t) :
    Building s₀ d' newsz t ∧ Grown d s sz d' t := by
  have hpages := pages_le (Nat.le_of_lt hnew)
  have hmono := pages_mono hle
  have hpresent : ∀ v < 2 ^ 19, (d'.mapping v).isSome ↔ v < pages newsz := by
    intro v hv
    by_cases hin : pages sz ≤ v ∧ v < pages newsz
    · obtain ⟨f, hf, _⟩ := hgrown.fresh v hin.1 hin.2
      simp [hf, hin.2]
    · rw [hgrown.old v (by omega) hin, h.present v hv]
      omega
  have hfree : ∀ f ∈ t.freelist, f ∈ s.freelist ∧ t.mem f = s.mem f := by
    intro f hf
    obtain ⟨l, hperm, _⟩ := hgrown.taken
    exact ⟨hperm.mem_iff.mpr (by simp [hf]), hgrown.mem f (.inr hf)⟩
  refine ⟨⟨⟨hpresent, ?_, ?_, ?_⟩, fun f hf => ?_, ?_⟩, ?_, ?_, hfree⟩
  · intro v hv hlo e he
    rw [hgrown.old v hv (by omega)] at he
    exact h.kernel v hv hlo e he
  · obtain ⟨l, hperm, htables⟩ := hgrown.taken
    rw [List.nil_append] at hperm
    refine h.account_grown hgrown.page hperm htables ?_
    rw [PageDir.frames_below h.present (by omega), PageDir.frames_below hpresent hpages,
      PageDir.frames_append (Nat.zero_le (pages sz)) hmono]
    congr 1
    exact PageDir.frames_congr fun u _ hu => hgrown.old u (by omega) (by omega)
  · intro f hf
    rw [hgrown.mem f (.inl (h.not_free_of hf))]
    exact h.mem f hf
  · exact (hfree f hf).2.trans (h.clean f (hfree f hf).1)
  · have hfew := h.few
    have hmore := hgrown.few
    unfold tablesFor at *
    omega
  · intro v hv hv19
    exact ⟨hgrown.old v (by omega) (by omega),
      fun e he => hgrown.mem _ (.inl (h.not_free hg hv19 he))⟩
  · intro v hv hlo e he
    obtain ⟨f, hf, hzero⟩ := hgrown.fresh v hlo ((hpresent v hv).mp (by simp [he]))
    cases Option.some.inj (hf.symm.trans he)
    exact ⟨rfl, hzero⟩

theorem NewDir.gaveUp (h : NewDir s₀ d sz s) (hgave : GaveUp d s [] d' t) : NewDir s₀ d' sz t := by
  refine ⟨?_, ?_, ?_, ?_⟩
  · intro v hv
    rw [hgave.mapping v (by omega)]
    exact h.present v hv
  · intro v hv hlo e he
    rw [hgave.mapping v hv] at he
    exact h.kernel v hv hlo e he
  · obtain ⟨l, hperm, htables⟩ := hgave.taken
    rw [List.nil_append] at hperm
    refine @NewDir.account_grown _ _ _ _ _ _ h l [] hgave.page hperm htables ?_
    rw [List.append_nil]
    exact PageDir.frames_congr fun u _ hu => hgave.mapping u (by omega)
  · intro f hf
    rw [hgave.mem f (h.not_free_of hf)]
    exact h.mem f hf

/-- With room for an image of n pages, the pages that are missing are free. -/
theorem Building.enough (h : Building s₀ d sz s) {n : Nat} (hroom : s₀.Room n)
    (hle : pages sz ≤ n) :
    n - pages sz + (tablesFor n - tablesFor (pages sz)) ≤ s.freelist.length := by
  have hall := h.account.length_eq
  have hlen : (d.frames 0 (pages sz)).length ≤ pages sz - 0 := d.frames_length_le
  have hfew := h.few
  have henough := hroom.enough
  have hsmall := hroom.small
  simp only [PGSIZE, KERNBASE] at hsmall
  rw [PageDir.frames_below h.present (by omega)] at hall
  simp only [List.length_cons, List.length_append] at hall
  unfold tablesFor at *
  omega

theorem Building.allocuvm (hg : s₀.Good k) (h : Building s₀ d sz s) (newsz : Nat) :
    ∃ d' r t, Returns (allocuvm k d sz newsz) s (d', r) t ∧
      (r = 0 ∧ NewDir s₀ d' sz t ∧ ¬ s₀.Room (pages newsz) ∨
        r = max sz newsz ∧ newsz < KERNBASE ∧ Building s₀ d' r t ∧ Grown d s sz d' t) := by
  by_cases hbig : KERNBASE ≤ newsz
  · refine ⟨d, 0, s, ?_, .inl ⟨rfl, h.toNewDir, fun hroom => ?_⟩⟩
    · unfold Xv6.allocuvm
      rw [if_pos hbig]
      exact returns_pure
    · have := hroom.small
      simp only [pages, PGSIZE] at this
      omega
  have hnew : newsz < KERNBASE := by omega
  by_cases hlt : newsz < sz
  · refine ⟨d, sz, s, ?_, .inr ⟨by omega, hnew, h, fun v _ _ => ⟨rfl, fun _ _ => rfl⟩, ?_,
      fun f hf => ⟨hf, rfl⟩⟩⟩
    · unfold Xv6.allocuvm
      rw [if_neg hbig, if_pos hlt]
      exact returns_pure
    · intro v hv hlo e he
      have := (h.present v hv).mp (by simp [he])
      omega
  have hle : sz ≤ newsz := by omega
  have hgood := h.good hg
  obtain ⟨d', r, t, hrun, hend⟩ := allocuvm_run (k := k) hgood.nodup hgood.valid h.present hle hnew
  refine ⟨d', r, t, hrun, ?_⟩
  rcases hend with ⟨rfl, hgrown⟩ | ⟨rfl, hgave, hout⟩
  · exact .inr ⟨by omega, hnew, h.grown hg hle hnew hgrown⟩
  · refine .inl ⟨rfl, h.gaveUp hgave, fun hroom => ?_⟩
    have henough := h.enough hroom (pages_mono hle)
    omega

theorem NewDir.freevm (hg : s₀.Good k) (h : NewDir s₀ d sz s) :
    ∃ t, Returns (freevm k d) s () t ∧ t.freelist.Perm s₀.freelist ∧
      ∀ f ∉ s₀.freelist, t.mem f = s₀.mem f := by
  have hvalid : ∀ f, d.Has f → k.Valid f := fun f hf => hg.valid f (h.has_mem hf)
  obtain ⟨t, hrun, hfree, hmem⟩ := freevm_run (k := k) (d := d) (s := s) (hvalid _ (.inl rfl))
    (fun f hf => hvalid f (.inr (.inl hf)))
    (fun f hf => by
      obtain ⟨u, e, _, hu, he, haddr⟩ := PageDir.mem_frames.mp hf
      exact hvalid f (.inr (.inr ⟨u, hu, e, he, haddr⟩)))
  refine ⟨t, hrun, ?_, fun f hf => ?_⟩
  · rw [hfree, List.perm_iff_count]
    intro a
    have hall := h.account.count_eq a
    simp only [List.count_cons, List.count_append, List.count_reverse] at *
    omega
  · have hnot : ¬ d.Has f := fun hhas => hf (h.has_mem hhas)
    rw [hmem f (fun hp => hnot (.inl hp)) (fun ht => hnot (.inr (.inl ht)))
      (fun hfr => by
        obtain ⟨u, e, _, hu, he, haddr⟩ := PageDir.mem_frames.mp hfr
        exact hnot (.inr (.inr ⟨u, hu, e, he, haddr⟩)))]
    exact h.mem f hf

theorem Pte.clear_user {flags : BitVec 12} (f : Nat) (h : (Pte.mk f flags).present = true) :
    (Pte.mk f (flags &&& ~~~PTE_U)).present = true ∧
      (Pte.mk f (flags &&& ~~~PTE_U)).user = false := by
  rw [present_eq] at h ⊢
  rw [user_eq, BitVec.getLsbD_and, BitVec.getLsbD_and, h]
  exact ⟨rfl, Bool.and_false _⟩

theorem Building.clearpteu (h : Building s₀ d sz s) {v : Nat} {e : Pte} (hv : v < 2 ^ 19)
    (he : d.mapping v = some e) :
    ∃ d', Returns (clearpteu d (v * PGSIZE)) s d' s ∧ Building s₀ d' sz s ∧
      (∀ u < 2 ^ 20, u ≠ v → d'.mapping u = d.mapping u) ∧
      ∃ e', d'.mapping v = some e' ∧ e'.user = false := by
  have hv20 : v < 2 ^ 20 := by omega
  obtain ⟨hload, hp⟩ := mapping_eq_some he
  obtain ⟨hp', hu'⟩ := Pte.clear_user e.addr hp
  have hmap : ∀ u < 2 ^ 20, _ := fun u hu =>
    mapping_store (e := ⟨e.addr, e.flags &&& ~~~PTE_U⟩) hv20 hu (hasTable_of_mapping hv20 he)
  have hrun : Returns (Xv6.clearpteu d (v * PGSIZE)) s
      (d.store (PDX (v * PGSIZE), PTX (v * PGSIZE)) ⟨e.addr, e.flags &&& ~~~PTE_U⟩) s := by
    refine (walkpgdir_present hv20 he).bind ?_
    dsimp only
    rw [hload]
    exact returns_pure
  have htables : (d.store (PDX (v * PGSIZE), PTX (v * PGSIZE))
      ⟨e.addr, e.flags &&& ~~~PTE_U⟩).tablePages = d.tablePages := tablePages_store
  have hpage : (d.store (PDX (v * PGSIZE), PTX (v * PGSIZE))
      ⟨e.addr, e.flags &&& ~~~PTE_U⟩).page = d.page := rfl
  generalize d.store (PDX (v * PGSIZE), PTX (v * PGSIZE)) ⟨e.addr, e.flags &&& ~~~PTE_U⟩ = d'
    at hmap hrun htables hpage
  have hother : ∀ u < 2 ^ 20, u ≠ v → d'.mapping u = d.mapping u := by
    intro u hu hne
    rw [hmap u hu, if_neg hne]
  have hself : d'.mapping v = some ⟨e.addr, e.flags &&& ~~~PTE_U⟩ := by
    rw [hmap v hv20, if_pos rfl, if_pos hp']
  have hframes : d'.frames 0 (2 ^ 19) = d.frames 0 (2 ^ 19) := by
    unfold PageDir.frames
    apply List.filterMap_congr
    intro u hu
    rw [List.mem_range'_1] at hu
    by_cases huv : u = v
    · subst huv
      rw [hself, he]
      rfl
    · rw [hother u (by omega) huv]
  refine ⟨d', hrun, ⟨⟨?_, ?_, ?_, h.mem⟩, h.clean, ?_⟩, hother, _, hself, hu'⟩
  · intro u hu
    by_cases huv : u = v
    · subst huv
      rw [hself, ← h.present u hu, he]
      rfl
    · rw [hother u (by omega) huv]
      exact h.present u hu
  · intro u hu hlo x hx
    rw [hother u hu (by omega)] at hx
    exact h.kernel u hu hlo x hx
  · rw [hpage, htables, hframes]
    exact h.account
  · rw [htables]
    exact h.few

end Xv6
