import Xv6.Allocuvm

namespace Xv6

open Bytes Prog

variable {k : KernelImage} {s : Kmem}

/-- The memory of a process. -/
structure UserMem where
  sz : Nat
  pgdir : PageDir

/-- sz + n as an unsigned integer. -/
def UserMem.request (p : UserMem) (n : Int) : Nat := ((p.sz + n) % 2 ^ 32).toNat

def growproc (k : KernelImage) (p : UserMem) (n : Int) : VmM (UserMem × Int) :=
  if 0 < n then do
    let (pgdir, sz) ← allocuvm k p.pgdir p.sz (p.request n)
    if sz = 0 then pure ({ p with pgdir := pgdir }, -1) else pure (⟨sz, pgdir⟩, 0)
  else if n < 0 then do
    let (pgdir, sz) ← deallocuvm k p.pgdir p.sz (p.request n)
    if sz = 0 then pure ({ p with pgdir := pgdir }, -1) else pure (⟨sz, pgdir⟩, 0)
  else pure (p, 0)

namespace UserMem

variable {p p' : UserMem} {n : Int}

/-- A process as the kernel has it: its user pages are those of its size. -/
structure Valid (k : KernelImage) (p : UserMem) (s : Kmem) :
    Prop extends UserPages k p.pgdir p.sz s where
  small : p.sz < KERNBASE

/-- The size has changed by n, and the user pages are those of the new size. -/
structure Resized (p : UserMem) (s : Kmem) (n : Int) (p' : UserMem) (t : Kmem) : Prop where
  size : (p'.sz : Int) = p.sz + n
  small : p'.sz < KERNBASE
  present : ∀ v < 2 ^ 19, (p'.pgdir.mapping v).isSome ↔ v < pages p'.sz
  fresh : ∀ v < 2 ^ 19, pages p.sz ≤ v → ∀ e, p'.pgdir.mapping v = some e →
    t.mem e.addr = Bytes.zero
  kept : ∀ v < pages p.sz, v < pages p'.sz → SamePage p.pgdir s p'.pgdir t v

structure Unchanged (p : UserMem) (s : Kmem) (p' : UserMem) (t : Kmem) : Prop where
  size : p'.sz = p.sz
  kept : ∀ v < 2 ^ 19, SamePage p.pgdir s p'.pgdir t v

/-- growproc succeeds with the new size or fails and changes nothing. -/
def GrowsExactly (k : KernelImage) (p : UserMem) (n : Int) (s : Kmem) : Prop :=
  ∃ p' r t, Returns (growproc k p n) s (p', r) t ∧
    (r = 0 ∧ p.Resized s n p' t ∨ r = -1 ∧ p.Unchanged s p' t)

theorem request_of_nonneg (hn : n < 2 ^ 31) (hp : p.sz < KERNBASE) (h : 0 ≤ p.sz + n) :
    (p.request n : Int) = p.sz + n := by
  unfold request
  simp only [KERNBASE] at hp
  omega

theorem request_of_neg (hn : -2 ^ 31 ≤ n) (h : p.sz + n < 0) : KERNBASE ≤ p.request n := by
  unfold request
  simp only [KERNBASE]
  omega

theorem grows_of_pos (h : p.Valid k s) (hn : n < 2 ^ 31) (hpos : 0 < n) : p.GrowsExactly k n s := by
  have hreq := request_of_nonneg hn h.small (by omega)
  have hpages := pages_le (Nat.le_of_lt h.small)
  have hmax : max p.sz (p.request n) = p.request n := by omega
  obtain ⟨d', r, t, halloc, hend⟩ := h.allocuvm (p.request n)
  rw [hmax] at hend
  rcases hend with ⟨rfl, hdone⟩ | ⟨rfl, hfailed⟩
  · refine ⟨⟨p.request n, d'⟩, 0, t, ?_, .inl ⟨rfl, hreq, hdone.small, ?_, ?_, ?_⟩⟩
    · unfold growproc
      rw [if_pos hpos]
      refine halloc.bind ?_
      dsimp only
      rw [if_neg (by omega)]
      exact returns_pure
    · rw [← hmax]
      exact hdone.present
    · exact fun v hv hlo e he => (hdone.fresh v hv hlo e he).2.1
    · exact fun v hv _ => hdone.kept v (by omega) hv
  · refine ⟨{ p with pgdir := d' }, -1, t, ?_, .inr ⟨rfl, rfl, hfailed.kept⟩⟩
    unfold growproc
    rw [if_pos hpos]
    exact halloc.bind returns_pure

theorem shrink_run (h : p.Valid k s) (newsz : Nat) (hlt : newsz < p.sz) :
    ∃ d' t, Returns (deallocuvm k p.pgdir p.sz newsz) s (d', newsz) t ∧
      (∀ v < 2 ^ 19, (d'.mapping v).isSome ↔ v < pages newsz) ∧
        ∀ v < pages newsz, SamePage p.pgdir s d' t v := by
  have hpages := pages_le (Nat.le_of_lt h.small)
  have hmono := pages_mono (Nat.le_of_lt hlt)
  obtain ⟨d', t, hrun, hdone⟩ := h.deallocuvm (Nat.le_refl p.sz) (Nat.le_of_lt h.small) newsz
  rw [Nat.min_eq_right (Nat.le_of_lt hlt)] at hrun
  refine ⟨d', t, hrun, fun v hv => ?_, fun v hv => ⟨?_, hdone.contents v (by omega) hv⟩⟩
  · rw [hdone.mapping v hv]
    split
    next hin => simp [h.present v hv, hin, Nat.lt_of_lt_of_le hin hmono]
    next hout => simp [hout]
  · rw [hdone.mapping v (by omega), if_pos hv]

end UserMem

open UserMem in
/-- growproc is exact or has no effect except when it is asked to shrink a process to nothing or
below. -/
theorem growproc_exact_iff {p : UserMem} {n : Int} (h : p.Valid k s) (hlo : -2 ^ 31 ≤ n)
    (hhi : n < 2 ^ 31) :
    p.GrowsExactly k n s ↔ 0 ≤ n ∨ 0 < p.sz + n ∨ p.sz = 0 := by
  have hsmall := h.small
  by_cases hpos : 0 < n
  · exact ⟨fun _ => .inl (by omega), fun _ => grows_of_pos h hhi hpos⟩
  by_cases hzero : n = 0
  · subst hzero
    refine ⟨fun _ => .inl (Int.le_refl 0),
      fun _ => ⟨p, 0, s, returns_pure, .inl ⟨rfl, by omega, hsmall,
      h.present, ?_, ?_⟩⟩⟩
    · intro v hv hle e he
      have := (h.present v hv).mp (by simp [he])
      omega
    · exact fun v _ _ => ⟨rfl, fun _ _ => rfl⟩
  have hneg : n < 0 := by omega
  have hstart : growproc k p n = (do
      let (pgdir, sz) ← deallocuvm k p.pgdir p.sz (p.request n)
      if sz = 0 then pure ({ p with pgdir := pgdir }, -1) else pure (⟨sz, pgdir⟩, 0)) := by
    unfold growproc
    rw [if_neg hpos, if_pos hneg]
  rcases Int.lt_trichotomy 0 (p.sz + n) with hpart | hall | hbelow
  · refine ⟨fun _ => .inr (.inl hpart), fun _ => ?_⟩
    have hreq := request_of_nonneg hhi hsmall (by omega)
    obtain ⟨d', t, hrun, hpresent, hkept⟩ := shrink_run h (p.request n) (by omega)
    refine ⟨⟨p.request n, d'⟩, 0, t, ?_,
      .inl ⟨rfl, hreq, (by omega : p.request n < KERNBASE), hpresent, ?_,
      fun v _ hv => hkept v hv⟩⟩
    · rw [hstart]
      refine hrun.bind ?_
      dsimp only
      rw [if_neg (by omega)]
      exact returns_pure
    · intro v hv hle e he
      have := (hpresent v hv).mp (by simp [he])
      have := pages_mono (by omega : p.request n ≤ p.sz)
      omega
  · refine ⟨fun hexact => ?_, fun hcond => by omega⟩
    exfalso
    have hreq : p.request n = 0 := by
      have := request_of_nonneg hhi hsmall (by omega)
      omega
    obtain ⟨d', t, hrun, hpresent, _⟩ := shrink_run h (p.request n) (by omega)
    have hgrow : Returns (growproc k p n) s ({ p with pgdir := d' }, -1) t := by
      rw [hstart]
      refine hrun.bind ?_
      dsimp only
      rw [if_pos hreq]
      exact returns_pure
    obtain ⟨p', r, u, hr, hspec⟩ := hexact
    obtain ⟨hval, rfl⟩ := hgrow.unique hr
    obtain ⟨rfl, rfl⟩ := Prod.mk.inj hval
    have hfirst : 0 < pages p.sz := by
      simp only [pages, PGSIZE]
      omega
    have hmapped := (h.present 0 (by decide)).mpr hfirst
    rcases hspec with ⟨h0, _⟩ | ⟨_, hun⟩
    · cases h0
    · have hgone := (hpresent 0 (by decide)).not.mpr (by rw [hreq]; decide)
      rw [← (hun.kept 0 (by decide)).1] at hmapped
      exact hgone hmapped
  · have hreq := request_of_neg hlo hbelow
    have hrun : Returns (deallocuvm k p.pgdir p.sz (p.request n)) s (p.pgdir, p.sz) s := by
      unfold deallocuvm
      rw [if_pos (by omega)]
      exact returns_pure
    constructor
    · intro hexact
      by_contra hno
      have hgrow : Returns (growproc k p n) s (p, 0) s := by
        rw [hstart]
        refine hrun.bind ?_
        dsimp only
        rw [if_neg (by omega)]
        exact returns_pure
      obtain ⟨p', r, u, hr, hspec⟩ := hexact
      obtain ⟨hval, rfl⟩ := hgrow.unique hr
      obtain ⟨rfl, rfl⟩ := Prod.mk.inj hval
      rcases hspec with ⟨_, hres⟩ | ⟨h1, _⟩
      · have := hres.size
        omega
      · cases h1
    · intro hcond
      have hsz : p.sz = 0 := by omega
      refine ⟨p, -1, s, ?_, .inr ⟨rfl, rfl, fun _ _ => ⟨rfl, fun _ _ => rfl⟩⟩⟩
      rw [hstart]
      refine hrun.bind ?_
      dsimp only
      rw [if_pos hsz]
      exact returns_pure

theorem onePage_valid : (UserMem.mk 4096 onePage).Valid smallKernel ⟨[0x1003], fun _ => zero⟩ :=
  ⟨onePage_pages, by decide⟩

/-- A process of one page that asks for all of it back gets the error -1, but its page is gone; if
it asks for more than it has, it is told that it has it. -/
theorem growproc_below_zero :
    ¬ (UserMem.mk 4096 onePage).GrowsExactly smallKernel (-4096) ⟨[], fun _ => zero⟩ ∧
      ¬ (UserMem.mk 4096 onePage).GrowsExactly smallKernel (-4097) ⟨[], fun _ => zero⟩ := by
  have hall : (growproc smallKernel ⟨4096, onePage⟩ (-4096) ⟨[], fun _ => zero⟩).1.map
      (fun x => (x.2, x.1.sz, (x.1.pgdir.mapping 0).isSome)) = .ok (-1, 4096, false) := by decide +kernel
  have hmore : (growproc smallKernel ⟨4096, onePage⟩ (-4097) ⟨[], fun _ => zero⟩).1.map
      (fun x => (x.2, x.1.sz, (x.1.pgdir.mapping 0).isSome)) = .ok (0, 4096, true) := by decide +kernel
  constructor
  · rintro ⟨p', r, t, hr, hspec⟩
    rw [hr] at hall
    simp only [Except.map, Except.ok.injEq, Prod.mk.injEq] at hall
    obtain ⟨rfl, _, hgone⟩ := hall
    rcases hspec with ⟨h0, _⟩ | ⟨_, hun⟩
    · cases h0
    · rw [(hun.kept 0 (by decide)).1, onePage_mapping (by decide)] at hgone
      cases hgone
  · rintro ⟨p', r, t, hr, hspec⟩
    rw [hr] at hmore
    simp only [Except.map, Except.ok.injEq, Prod.mk.injEq] at hmore
    obtain ⟨rfl, hsz, _⟩ := hmore
    rcases hspec with ⟨_, hres⟩ | ⟨h1, _⟩
    · have := hres.size
      simp only at this
      omega
    · cases h1

theorem growproc_exact_one_page :
    (UserMem.mk 4096 onePage).GrowsExactly smallKernel 4096 ⟨[0x1003], fun _ => zero⟩ :=
  (growproc_exact_iff onePage_valid (by decide) (by decide)).mpr (.inl (by decide))

end Xv6
