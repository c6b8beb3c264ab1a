import Xv6.ForkMemory
import Xv6.Allocuvm

namespace Xv6

open Bytes Prog

variable {k : KernelImage} {pgdir d₀ d d' : PageDir} {s₀ s t : Kmem}

theorem Pte.flags_present {e : Pte} (h : e.present = true) : e.flags ||| PTE_P = e.flags := by
  rw [present_eq] at h
  refine BitVec.eq_of_getLsbD_eq fun i hi => ?_
  have hone : PTE_P.getLsbD i = decide (i = 0) := by
    rw [show PTE_P = BitVec.twoPow 12 0 from rfl, BitVec.getLsbD_twoPow]
    simp [eq_comm]
  rw [BitVec.getLsbD_or, hone]
  by_cases h0 : i = 0
  · simp [h0, h]
  · simp [h0]

theorem mappages_remap {v pa : Nat} {perm : BitVec 12} {e : Pte} (hv : v < 2 ^ 20)
    (he : d.mapping v = some e) :
    (mappages d (v * PGSIZE) PGSIZE pa perm s).1 = .error .remap := by
  have hcount : (PGROUNDDOWN ((v * PGSIZE + PGSIZE + 2 ^ 32 - 1) % 2 ^ 32) +
      2 ^ 32 - PGROUNDDOWN (v * PGSIZE)) %
      2 ^ 32 / PGSIZE + 1 = 1 := by
    simp only [PGROUNDDOWN, PGSIZE]
    omega
  have haddr : PGROUNDDOWN (v * PGSIZE) = v * PGSIZE := by
    simp only [PGROUNDDOWN, PGSIZE]
    omega
  obtain ⟨hload, hp⟩ := mapping_eq_some he
  have hwalk : walkpgdir d (v * PGSIZE) true s =
      (.ok (d, some (PDX (v * PGSIZE), PTX (v * PGSIZE))), s) := by
    rw [walkpgdir_alloc, if_pos (hasTable_of_mapping hv he)]
  unfold mappages
  rw [hcount, haddr]
  unfold mapPages
  rw [bind_ok hwalk]
  dsimp only
  rw [hload, hp, if_pos rfl]
  rfl

theorem copyPage_some {i : Nat} {e : Pte} (hi : i < 2 ^ 20) (he : pgdir.mapping i = some e)
    (hret : Returns (copyPage k pgdir d (i * PGSIZE)) s (some d') t) :
    ∃ r next, s.freelist = r :: next ∧
      Returns (mappages d (i * PGSIZE) PGSIZE r e.flags) ⟨next, Function.update s.mem r (s.mem e.addr)⟩
        (d', true) t := by
  obtain ⟨hload, hp⟩ := mapping_eq_some he
  obtain ⟨_, _, hwalk, hfound⟩ := hret.of_bind
  obtain ⟨rfl, rfl⟩ := (walkpgdir_present hi he).unique hwalk
  dsimp only at hfound
  rw [hload, hp, if_pos rfl] at hfound
  obtain ⟨mem, _, hkalloc, hcopy⟩ := hfound.of_bind
  cases hs : s.freelist with
  | nil =>
    obtain ⟨rfl, rfl⟩ := (kalloc_none hs).unique hkalloc
    obtain ⟨_, _, _, hbad⟩ := hcopy.of_bind
    cases hbad
  | cons r next =>
    obtain ⟨rfl, rfl⟩ := (kalloc_some hs).unique hkalloc
    obtain ⟨_, _, hmove, hmap⟩ := hcopy.of_bind
    obtain ⟨_, rfl⟩ := returns_modify.unique hmove
    obtain ⟨⟨d₁, ok⟩, _, hmap, hend⟩ := hmap.of_bind
    cases ok with
    | false =>
      obtain ⟨_, _, _, hbad⟩ := hend.of_bind
      cases hbad
    | true =>
      cases hend
      exact ⟨r, next, rfl, hmap⟩

/-- The first i pages are copied: the state s₀ is that before the first of them. -/
structure Copies (pgdir d₀ : PageDir) (s₀ : Kmem) (i : Nat) (d : PageDir) (s : Kmem) : Prop where
  same : ∀ v < i, ∀ e, pgdir.mapping v = some e →
    ∃ f, d.mapping v = some ⟨f, e.flags⟩ ∧ s.mem f = s₀.mem e.addr
  kernel : ∀ v < 2 ^ 20, 2 ^ 19 ≤ v → d.mapping v = d₀.mapping v
  mem : ∀ f ∉ s₀.freelist, s.mem f = s₀.mem f

theorem Copies.refl : Copies pgdir d s 0 d s :=
  ⟨fun v hv => by omega, fun _ _ _ => rfl, fun _ _ => rfl⟩

theorem Copying.frame_free {i v : Nat} {e : Pte} (h : Copying d₀ s₀ i d s)
    (hnodup : s₀.freelist.Nodup) (hv : v < i)
    (he : d.mapping v = some e) : e.addr ∈ s₀.freelist ∧ e.addr ∉ s.freelist := by
  obtain ⟨l, hperm, _⟩ := h.taken
  have hmem : e.addr ∈ d.frames 0 i := PageDir.mem_frames.mpr ⟨v, e, Nat.zero_le v, hv, he, rfl⟩
  refine ⟨hperm.mem_iff.mpr (List.mem_append_left _ hmem), fun hf => ?_⟩
  have hall := List.nodup_append.mp (hperm.nodup_iff.mp hnodup)
  exact hall.2.2 _ hmem _ (List.mem_append_right l hf) rfl

theorem Copies.step {i r : Nat} {next : List Nat} {e : Pte} (h : Copies pgdir d₀ s₀ i d s)
    (hc : Copying d₀ s₀ i d s) (hnodup : s₀.freelist.Nodup) (hi : i < 2 ^ 19) (hr : r < 2 ^ 20)
    (hs : s.freelist = r :: next) (he : pgdir.mapping i = some e) (hheld : e.addr ∉ s₀.freelist)
    (hmap : Mapped d ⟨next, Function.update s.mem r (s.mem e.addr)⟩ i r 1 e.flags d' t) :
    Copies pgdir d₀ s₀ (i + 1) d' t := by
  have hother : ∀ u < 2 ^ 20, u ≠ i → d'.mapping u = d.mapping u := by
    intro u hu hne
    rw [hmap.mapping u hu, if_neg (by omega)]
  have hmem : t.mem = Function.update s.mem r (s.mem e.addr) := hmap.mem
  refine ⟨?_, ?_, ?_⟩
  · intro v hv x hx
    by_cases hvi : v = i
    · subst hvi
      cases he.symm.trans hx
      refine ⟨r, ?_, ?_⟩
      · rw [hmap.mapping v (by omega), if_pos (by omega), Nat.sub_self, Nat.add_zero, Nat.mod_eq_of_lt hr,
          Pte.flags_present (mapping_eq_some he).2]
      · rw [hmem, Function.update_self]
        exact h.mem _ hheld
    · obtain ⟨f, hf, hcopy⟩ := h.same v (by omega) x hx
      refine ⟨f, by rw [hother v (by omega) hvi]; exact hf, ?_⟩
      have hne : f ≠ r := by
        rintro rfl
        exact (hc.frame_free hnodup (by omega) hf).2 (by rw [hs]; exact List.mem_cons_self)
      rw [hmem, Function.update_of_ne hne]
      exact hcopy
  · intro v hv hlo
    rw [hother v hv (by omega)]
    exact h.kernel v hv hlo
  · intro f hf
    have hne : f ≠ r := by
      rintro rfl
      obtain ⟨l, hperm, _⟩ := hc.taken
      exact hf (hperm.mem_iff.mpr (by simp [hs]))
    rw [hmem, Function.update_of_ne hne]
    exact h.mem f hf

theorem copyPages_some {i n : Nat} (h : Copies pgdir d₀ s₀ i d s) (hc : Copying d₀ s₀ i d s)
    (hi : i ≤ 2 ^ 19) (hkernel : (d₀.mapping (2 ^ 19)).isSome) (hnodup : s₀.freelist.Nodup)
    (hfree : ∀ f ∈ s₀.freelist, f < 2 ^ 20) (hpresent : ∀ v < i + n, (pgdir.mapping v).isSome)
    (hheld : ∀ v < 2 ^ 19, ∀ e, pgdir.mapping v = some e → e.addr ∉ s₀.freelist)
    (hret : Returns (whileSome (copyPage k pgdir) d ((List.range' i n).map (· * PGSIZE))) s
      (some d') t) :
    i + n ≤ 2 ^ 19 ∧ Copies pgdir d₀ s₀ (i + n) d' t ∧ Copying d₀ s₀ (i + n) d' t := by
  induction n generalizing d s i with
  | zero =>
    obtain ⟨heq, rfl⟩ := hret.unique whileSome_nil
    cases heq
    exact ⟨hi, h, hc⟩
  | succ n ih =>
    rw [List.range'_succ, List.map_cons] at hret
    obtain ⟨o, s₁, hturn, hrest⟩ := hret.of_bind
    cases o with
    | none => cases hrest
    | some d₁ =>
      obtain ⟨e, he⟩ := Option.isSome_iff_exists.mp (hpresent i (by omega))
      obtain ⟨r, next, hs, hmap⟩ := copyPage_some (by omega) he hturn
      have hr : r < 2 ^ 20 := by
        obtain ⟨l, hperm, _⟩ := hc.taken
        exact hfree r (hperm.mem_iff.mpr (by simp [hs]))
      by_cases hlast : i = 2 ^ 19
      · subst hlast
        rw [← h.kernel _ (by omega) (Nat.le_refl _)] at hkernel
        obtain ⟨x, hx⟩ := Option.isSome_iff_exists.mp hkernel
        have herr : (mappages d (2 ^ 19 * PGSIZE) PGSIZE r e.flags
            ⟨next, Function.update s.mem r (s.mem e.addr)⟩).1 = .error .remap := mappages_remap (by omega) hx
        rw [hmap] at herr
        cases herr
      · have hrun := mappages_page (s := ⟨next, Function.update s.mem r (s.mem e.addr)⟩) (v := i) e.flags
          (by omega) hr (hc.mapping i (by omega) (Nat.le_refl i))
        rw [hmap] at hrun
        cases hrun with
        | done hmapped =>
          rw [show i + (n + 1) = i + 1 + n by omega] at *
          have hnext := h.step hc hnodup (by omega) hr hs he (hheld i (by omega) e he) hmapped
          exact ih hnext (hc.step (by omega) hr hs hmapped) (by omega) hpresent hrest

/-- The pages that belong to a directory: its own, those of its tables, and those of its user part.
-/
def PageDir.Has (d : PageDir) (f : Nat) : Prop :=
  f = d.page ∨ f ∈ d.tablePages ∨ ∃ v < 2 ^ 19, ∃ e, d.mapping v = some e ∧ e.addr = f

/-- In t the directory d maps copies of the user pages of pgdir in s. -/
structure CopyOf (k : KernelImage) (pgdir : PageDir) (sz : Nat) (s : Kmem) (d : PageDir)
    (t : Kmem) : Prop where
  same : ∀ v < pages sz, ∃ e f, pgdir.mapping v = some e ∧ d.mapping v = some ⟨f, e.flags⟩ ∧
    t.mem f = s.mem e.addr
  only : ∀ v < 2 ^ 19, pages sz ≤ v → d.mapping v = none
  distinct : ∀ v < 2 ^ 19, ∀ w < 2 ^ 19, ∀ e e', d.mapping v = some e → d.mapping w = some e' →
    e.addr = e'.addr → v = w
  separate : ∀ f, d.Has f → ¬ pgdir.Has f
  kernel : ∃ d₀ s₀, Returns (setupkvm k) s (some d₀) s₀ ∧ ∀ v < 2 ^ 20, 2 ^ 19 ≤ v →
    d.mapping v = d₀.mapping v
  kept : ∀ f, pgdir.Has f → t.mem f = s.mem f

/-- What is written to one of the user pages of a directory is not seen in those of the other. -/
def Invisible (d pgdir : PageDir) (t : Kmem) : Prop :=
  ∀ v < 2 ^ 19, ∀ w < 2 ^ 19, ∀ e e' b, d.mapping v = some e → pgdir.mapping w = some e' →
    Function.update t.mem e.addr b e'.addr = t.mem e'.addr

theorem CopyOf.invisible {sz : Nat} (h : CopyOf k pgdir sz s d t) :
    Invisible d pgdir t ∧ Invisible pgdir d t := by
  have hne : ∀ v < 2 ^ 19, ∀ w < 2 ^ 19, ∀ e e', d.mapping v = some e → pgdir.mapping w = some e' →
      e'.addr ≠ e.addr := by
    intro v hv w hw e e' he he' haddr
    exact h.separate _ (.inr (.inr ⟨v, hv, e, he, rfl⟩)) (.inr (.inr ⟨w, hw, e', he', haddr⟩))
  constructor
  · intro v hv w hw e e' b he he'
    exact Function.update_of_ne (hne v hv w hw e e' he he') b t.mem
  · intro v hv w hw e e' b he he'
    exact Function.update_of_ne (hne w hw v hv e' e he' he).symm b t.mem

theorem copyuvm_enough {sz : Nat} (hsz : sz ≤ KERNBASE)
    (hpresent : ∀ v < pages sz, (pgdir.mapping v).isSome) (hfree : ∀ f ∈ s.freelist, k.Valid f)
    (hlen : 65 + pages sz + (pages sz + 1023) / 1024 ≤ s.freelist.length) :
    ∃ d t, Returns (copyuvm k pgdir sz) s (some d) t := by
  have hpages := pages_le hsz
  cases hs : s.freelist with
  | nil =>
    rw [hs, List.length_nil] at hlen
    omega
  | cons page rest =>
    rw [hs] at hfree hlen
    rw [List.length_cons] at hlen
    rcases setupkvm_run (k := k) hs with ⟨_, d₀, s₀, hsetup, hpage, hkd, _, l, hl,
      htabs⟩ | ⟨hfew, _⟩
    case inr => omega
    have hcount : rest.length = 64 + s₀.freelist.length := by
      rw [hl, List.length_append, ← htabs.length_eq, hkd.tables]
    have hloop := copyPages_run (k := k) pgdir (n := pages sz) (i := 0) (s := s₀) hkd.copying
      (by omega)
      (fun u hu => hpresent u (by omega)) (by rw [hpage]; exact hfree page List.mem_cons_self)
      (fun f hf => hfree f
        (List.mem_cons_of_mem _ (by rw [hl]; exact List.mem_append_left _ (htabs.mem_iff.mp hf))))
      (fun f hf => hfree f (List.mem_cons_of_mem _ (by rw [hl]; exact List.mem_append_right _ hf)))
    rw [Nat.zero_add, ← List.range_eq_range'] at hloop
    cases hloop with
    | copied hrun _ => exact ⟨_, _, hsetup.bind hrun⟩
    | clean j _ hj _ hused => omega
    | leak j _ hj _ _ hused => omega

/-- copyuvm gives the child an equal and separate memory. -/
theorem copyuvm_equal_separate {sz : Nat} (hpresent : ∀ v < pages sz, (pgdir.mapping v).isSome)
    (hheld : ∀ f, pgdir.Has f → f ∉ s.freelist) (hnodup : s.freelist.Nodup)
    (hfree : ∀ f ∈ s.freelist, k.Valid f) (h : Returns (copyuvm k pgdir sz) s (some d) t) :
    CopyOf k pgdir sz s d t ∧ Invisible d pgdir t ∧ Invisible pgdir d t := by
  suffices hcopy : CopyOf k pgdir sz s d t from ⟨hcopy, hcopy.invisible⟩
  obtain ⟨o, s₀, hsetup, hloop⟩ := h.of_bind
  cases o with
  | none => cases hloop
  | some d₀ =>
    cases hs : s.freelist with
    | nil =>
      cases (hsetup.unique ((kalloc_none hs).bind returns_pure)).1
    | cons page rest =>
      rcases setupkvm_run (k := k) hs with ⟨_, d₁, t₁, hrun, hpage, hkd, hmem, l, hl, htabs⟩ |
        ⟨_, t₁, hrun, _⟩
      case inr => cases (hsetup.unique hrun).1
      obtain ⟨heq, rfl⟩ := hsetup.unique hrun
      cases heq
      have hsub : ∀ f ∈ s₀.freelist, f ∈ s.freelist := by
        intro f hf
        rw [hs, hl]
        exact List.mem_cons_of_mem _ (List.mem_append_right l hf)
      have hnodup₀ : s₀.freelist.Nodup := by
        rw [hs, hl] at hnodup
        exact (List.nodup_append.mp (List.nodup_cons.mp hnodup).2).2.1
      have hkernel : (d₀.mapping (2 ^ 19)).isSome := hkd.kernel _ (by unfold KernelPage; omega)
      have hr : ∀ f ∈ s₀.freelist, f < 2 ^ 20 := by
        intro f hf
        have := (hfree f (hsub f hf)).2
        simp only [PGSIZE, PHYSTOP] at this
        omega
      have hloop' : Returns (whileSome (copyPage k pgdir) d₀ ((List.range' 0 (pages sz)).map (· * PGSIZE))) s₀
          (some d) t := by
        rw [← List.range_eq_range']
        exact hloop
      obtain ⟨hsz, hcopies, hcopying⟩ := copyPages_some .refl hkd.copying (Nat.zero_le _) hkernel hnodup₀ hr
        (by simpa using hpresent)
        (fun v hv e he hf => hheld _ (.inr (.inr ⟨v, hv, e, he, rfl⟩)) (hsub _ hf)) hloop'
      have hfrom : ∀ f, d.Has f → f ∈ s.freelist := by
        obtain ⟨l', hperm, htables⟩ := hcopying.taken
        rintro f (rfl | htab | ⟨v, hv, e, he, rfl⟩)
        · rw [hcopying.page, hpage, hs]
          exact List.mem_cons_self
        · rcases List.mem_append.mp (htables.mem_iff.mp htab) with hnew | hold
          · exact hsub f (hperm.mem_iff.mpr (by simp [hnew]))
          · rw [hs, hl]
            exact List.mem_cons_of_mem _ (List.mem_append_left _ (htabs.mem_iff.mp hold))
        · by_cases hvsz : v < 0 + pages sz
          · exact hsub _ (hcopying.frame_free hnodup₀ hvsz he).1
          · rw [hcopying.mapping v hv (by omega)] at he
            cases he
      have hframes : (d.frames 0 (0 + pages sz)).Nodup := by
        obtain ⟨l', hperm, _⟩ := hcopying.taken
        exact (List.nodup_append.mp (hperm.nodup_iff.mp hnodup₀)).1
      rw [Nat.zero_add] at hcopies hcopying hframes
      refine ⟨?_, hcopying.mapping, ?_, ?_, ⟨d₀, s₀, hsetup, hcopies.kernel⟩, ?_⟩
      · intro v hv
        obtain ⟨e, he⟩ := Option.isSome_iff_exists.mp (hpresent v hv)
        obtain ⟨f, hf, hbytes⟩ := hcopies.same v hv e he
        exact ⟨e, f, he, hf, by rw [hbytes, hmem]⟩
      · intro v hv w hw e e' he he' haddr
        have hbelow : ∀ v < 2 ^ 19, ∀ e, d.mapping v = some e → v < pages sz := by
          intro v hv e he
          by_contra hge
          rw [hcopying.mapping v hv (by omega)] at he
          cases he
        exact PageDir.frames_inj hframes (Nat.zero_le v) (hbelow v hv e he) (Nat.zero_le w) (hbelow w hw e' he')
          he he' haddr
      · exact fun f hd hp => hheld f hp (hfrom f hd)
      · intro f hf
        rw [hcopies.mem f fun hin => hheld f hf (hsub f hin), hmem]

theorem onePage_has {f : Nat} (h : onePage.Has f) : 0x1000 ≤ f ∧ f < 0x2000 := by
  have htables : onePage.tablePages = [0x1001] := by decide +kernel
  rcases h with rfl | htab | ⟨v, hv, e, he, rfl⟩
  · decide
  · rw [htables, List.mem_singleton] at htab
    omega
  · rw [onePage_mapping (by omega)] at he
    split at he
    next =>
      cases he
      decide
    next => cases he

theorem copyuvm_equal_separate_one_page :
    ∃ d t, Returns (copyuvm smallKernel onePage 4096) ⟨List.range' 0x2000 67, fun _ => zero⟩
      (some d) t ∧
      CopyOf smallKernel onePage 4096 ⟨List.range' 0x2000 67, fun _ => zero⟩ d t ∧ Invisible d onePage t := by
  have hpages : pages 4096 = 1 := by decide
  have hpresent : ∀ v < pages 4096, (onePage.mapping v).isSome := by
    intro v hv
    obtain rfl : v = 0 := by omega
    rw [onePage_mapping (by decide)]
    rfl
  have hfree : ∀ f ∈ List.range' 0x2000 67, smallKernel.Valid f := by
    intro f hf
    rw [List.mem_range'_1] at hf
    exact smallKernel_valid (by omega) (by omega)
  have hheld : ∀ f, onePage.Has f → f ∉ List.range' 0x2000 67 := by
    intro f hf hin
    have hlow := onePage_has hf
    rw [List.mem_range'_1] at hin
    omega
  obtain ⟨d, t, hrun⟩ := copyuvm_enough (s := ⟨List.range' 0x2000 67, fun _ => zero⟩) (by decide)
    hpresent hfree
    (by decide)
  have hcopy := copyuvm_equal_separate hpresent hheld List.nodup_range' hfree hrun
  exact ⟨d, t, hrun, hcopy.1, hcopy.2.1⟩

end Xv6
