import Xv6.Linked
import Xv6.Memory
import Xv6.Vm

namespace Xv6

namespace Kalloc

open Prog

inductive Panic
  | kfree
  | acquire
  | release
  /-- The loop of freerange does not end. -/
  | loops
  deriving DecidableEq, Repr

/-- Physical memory at its kernel addresses, and struct kmem. -/
structure State where
  mem : Memory
  locked : Bool := false
  useLock : Bool := false
  freelist : Addr := 0

abbrev Alloc := Prog Panic State

def acquire : Alloc Unit := do
  let s ← get
  if s.locked then throw .acquire else set { s with locked := true }

def release : Alloc Unit := do
  let s ← get
  if s.locked then set { s with locked := false } else throw .release

def acquireIfUsed : Alloc Unit := do
  let s ← get
  if s.useLock then acquire else pure ()

def releaseIfUsed : Alloc Unit := do
  let s ← get
  if s.useLock then release else pure ()

/-- The first four bytes of a free page are a struct run. -/
def kfree (k : KernelImage) (v : Addr) : Alloc Unit :=
  if v.toNat % PGSIZE ≠ 0 ∨ v.toNat < k.stop ∨
    PHYSTOP ≤ (v - BitVec.ofNat 32 KERNBASE).toNat then throw .kfree
  else do
    modify fun s => { s with mem := (Kernel.memset s.mem v 1 (BitVec.ofNat 32 PGSIZE)).1 }
    acquireIfUsed
    modify fun s => { s with mem := s.mem.store32 v s.freelist, freelist := v }
    releaseIfUsed

def kalloc : Alloc Addr := do
  acquireIfUsed
  let s ← get
  let r := s.freelist
  set (if r ≠ 0 then { s with freelist := s.mem.load32 r } else s)
  releaseIfUsed
  return r

/-- The loop of freerange. After a turn for every page it would go on for ever. -/
def freePages (k : KernelImage) (vend : Addr) : Nat → Addr → Alloc Unit
  | 0, _ => throw .loops
  | n + 1, p =>
    if p + BitVec.ofNat 32 PGSIZE ≤ vend then do
      kfree k p
      freePages k vend n (p + BitVec.ofNat 32 PGSIZE)
    else pure ()

/-- More turns than there are pages. -/
@[irreducible] def allPages : Nat := 2 ^ 20 + 1

def freerange (k : KernelImage) (vstart vend : Addr) : Alloc Unit :=
  freePages k vend allPages (BitVec.ofNat 32 (PGROUNDUP vstart.toNat))

def initlock : Alloc Unit := modify fun s => { s with locked := false }

def kinit1 (k : KernelImage) (vstart vend : Addr) : Alloc Unit := do
  initlock
  modify fun s => { s with useLock := false }
  freerange k vstart vend

def kinit2 (k : KernelImage) (vstart vend : Addr) : Alloc Unit := do
  freerange k vstart vend
  modify fun s => { s with useLock := true }

/-- A pointer that may be null. -/
def ptr (p : Addr) : Option Addr := if p = 0 then none else some p

def State.next (s : State) (v : Addr) : Option Addr := ptr (s.mem.load32 v)

/-- The free list has the pages of l, one after the other, and is not locked. -/
structure State.Chain (s : State) (l : List Addr) : Prop where
  linked : Linked s.next (ptr s.freelist) l
  nodup : l.Nodup
  pages : ∀ v ∈ l, v.toNat % PGSIZE = 0
  unlocked : s.locked = false

variable {k : KernelImage} {s t : State} {l : List Addr} {v : Addr}

theorem ptr_eq_none {p : Addr} : ptr p = none ↔ p = 0 := by
  simp [ptr]

theorem ptr_eq_some {p q : Addr} : ptr p = some q ↔ p = q ∧ q ≠ 0 := by
  unfold ptr
  constructor
  · intro h
    obtain ⟨hne, he⟩ := Option.ite_none_left_eq_some.mp h
    cases Option.some.inj he
    exact ⟨rfl, hne⟩
  · rintro ⟨rfl, hne⟩
    exact if_neg hne

theorem acquireIfUsed_wp {Q : Unit → State → Prop} {E : Panic → State → Prop} (h : s.locked = false)
    (hq : Q ⟨⟩ { s with locked := s.useLock }) : acquireIfUsed.wp Q E s := by
  obtain ⟨mem, locked, useLock, freelist⟩ := s
  simp only at h
  subst h
  cases useLock
  · exact hq
  · exact hq

theorem releaseIfUsed_wp {Q : Unit → State → Prop} {E : Panic → State → Prop}
    (h : s.locked = s.useLock) (hq : Q ⟨⟩ { s with locked := false }) : releaseIfUsed.wp Q E s := by
  obtain ⟨mem, locked, useLock, freelist⟩ := s
  simp only at h
  subst h
  cases locked
  · exact hq
  · exact hq

theorem outside_page {w a : Addr} (hv : v.toNat % PGSIZE = 0) (hw : w.toNat % PGSIZE = 0)
    (hne : w ≠ v) (ha : InRange w 4 a) : ¬ InRange v PGSIZE a := by
  have hnat : w.toNat ≠ v.toNat := fun he => hne (BitVec.eq_of_toNat_eq he)
  unfold InRange at *
  simp only [PGSIZE] at *
  omega

theorem page_fits (hv : v.toNat % PGSIZE = 0) : v.toNat + PGSIZE ≤ 2 ^ 32 := by
  have hlt := v.isLt
  simp only [PGSIZE] at *
  omega

theorem State.Chain.push {mem : Memory} (h : s.Chain l) (hv : v.toNat % PGSIZE = 0) (hzero : v ≠ 0)
    (hnew : v ∉ l) (hlink : mem.load32 v = s.freelist)
    (hmem : ∀ a, ¬ InRange v PGSIZE a → mem a = s.mem a) :
    State.Chain { s with mem := mem, freelist := v } (v :: l) := by
  refine ⟨?_, List.nodup_cons.mpr ⟨hnew, h.nodup⟩, ?_, h.unlocked⟩
  · refine Linked.cons_iff.mpr ⟨ptr_eq_some.mpr ⟨rfl, hzero⟩, ?_⟩
    have hnext : State.next { s with mem := mem, freelist := v } v = ptr s.freelist :=
      congrArg ptr hlink
    rw [hnext]
    refine h.linked.congr fun w hw => congrArg ptr ?_
    have hne : w ≠ v := fun he => hnew (he ▸ hw)
    have hfit := page_fits (h.pages w hw)
    refine Memory.load32_congr (fun a ha => ?_) (by simp only [PGSIZE] at hfit; omega)
    exact hmem a (outside_page hv (h.pages w hw) hne ha)
  · intro w hw
    rcases List.mem_cons.mp hw with rfl | hw
    · exact hv
    · exact h.pages w hw

/-- A page that kfree takes. -/
structure Valid (k : KernelImage) (v : Addr) : Prop where
  aligned : v.toNat % PGSIZE = 0
  low : k.stop ≤ v.toNat
  high : v.toNat < KERNBASE + PHYSTOP

theorem Valid.kernbase_le (h : Valid k v) : KERNBASE ≤ v.toNat := by
  have htext := k.text
  have hordered := k.ordered
  have hlow := h.low
  simp only [KERNLINK, EXTMEM] at *
  omega

theorem Valid.ne_zero (h : Valid k v) : v ≠ 0 := by
  rintro rfl
  exact absurd h.kernbase_le (by decide)

theorem kfree_spec (h : s.Chain l) (hv : Valid k v) (hnew : v ∉ l) :
    (kfree k v).wp (fun _ t => t.Chain (v :: l) ∧ t.useLock = s.useLock ∧
      ∀ a, ¬ InRange v PGSIZE a → t.mem a = s.mem a) (fun _ _ => False) s := by
  have hcheck : ¬ (v.toNat % PGSIZE ≠ 0 ∨ v.toNat < k.stop ∨
      PHYSTOP ≤ (v - BitVec.ofNat 32 KERNBASE).toNat) := by
    have hlow := hv.kernbase_le
    have hhigh := hv.high
    have hv2p : (v - BitVec.ofNat 32 KERNBASE).toNat = v.toNat - KERNBASE := by
      simp only [KERNBASE] at *
      bv_omega
    rw [hv2p]
    rintro (ha | hl | hp)
    · exact ha hv.aligned
    · exact absurd hv.low (by omega)
    · omega
  have hfit := page_fits hv.aligned
  have hfill : FilledWith s.mem v (BitVec.ofNat 32 PGSIZE).toNat (BitVec.setWidth 8 1)
      (Kernel.memset s.mem v 1 (BitVec.ofNat 32 PGSIZE)).1 := memset_filled hfit
  unfold kfree
  rw [if_neg hcheck]
  simp only [wp_bind, wp_modify]
  refine acquireIfUsed_wp h.unlocked ?_
  refine releaseIfUsed_wp rfl ?_
  have hmem : ∀ a, ¬ InRange v PGSIZE a →
      ((Kernel.memset s.mem v 1 (BitVec.ofNat 32 PGSIZE)).1.store32 v s.freelist) a = s.mem a := by
    intro a ha
    rw [Memory.store32_outside (by simp only [PGSIZE] at hfit; omega)]
    · exact hfill.outside a ha
    · unfold InRange at *
      simp only [PGSIZE] at ha
      omega
  refine ⟨?_, rfl, hmem⟩
  have hchain := h.push hv.aligned hv.ne_zero hnew (Memory.load32_store32 s.freelist) hmem
  exact ⟨hchain.linked, hchain.nodup, hchain.pages, rfl⟩

theorem kalloc_spec (h : s.Chain l) :
    kalloc.wp (fun r t => t.mem = s.mem ∧ t.useLock = s.useLock ∧
      ((l = [] ∧ r = 0 ∧ t.Chain []) ∨ ∃ m, l = r :: m ∧ r ≠ 0 ∧ t.Chain m)) (fun _ _ => False) s := by
  unfold kalloc
  simp only [wp_bind, wp_get, wp_set, wp_pure]
  refine acquireIfUsed_wp h.unlocked ?_
  dsimp only
  cases l with
  | nil =>
    have hzero : s.freelist = 0 := ptr_eq_none.mp (Linked.nil_iff.mp h.linked)
    rw [if_neg (not_not_intro hzero)]
    refine releaseIfUsed_wp rfl ⟨rfl, rfl, .inl ⟨rfl, hzero, ?_⟩⟩
    exact ⟨h.linked, h.nodup, h.pages, rfl⟩
  | cons v m =>
    obtain ⟨hhead, hrest⟩ := Linked.cons_iff.mp h.linked
    obtain ⟨hv, hne⟩ := ptr_eq_some.mp hhead
    subst hv
    rw [if_pos hne]
    refine releaseIfUsed_wp rfl ⟨rfl, rfl, .inr ⟨m, rfl, hne, ?_⟩⟩
    exact ⟨hrest, (List.nodup_cons.mp h.nodup).2,
      fun w hw => h.pages w (List.mem_cons_of_mem _ hw), rfl⟩

/-- The pages that the loop of freerange comes to. -/
def PageIn (p vend : Nat) (v : Addr) : Prop :=
  v.toNat % PGSIZE = 0 ∧ p ≤ v.toNat ∧ v.toNat + PGSIZE ≤ vend

theorem freePages_more {vend p q : Addr} {n : Nat} (hq : p + BitVec.ofNat 32 PGSIZE = q)
    (h : q ≤ vend) :
    freePages k vend (n + 1) p = (do
      kfree k p
      freePages k vend n q) := by
  subst hq
  exact if_pos h

theorem freePages_done {vend p q : Addr} {n : Nat} (hq : p + BitVec.ofNat 32 PGSIZE = q)
    (h : ¬ q ≤ vend) :
    freePages k vend (n + 1) p = pure () := by
  subst hq
  exact if_neg h

theorem freePages_spec {vend p : Addr} {n : Nat} (h : s.Chain l) (hp : p.toNat % PGSIZE = 0)
    (hlow : k.stop ≤ p.toNat) (hhigh : p.toNat ≤ KERNBASE + PHYSTOP)
    (hend : vend.toNat ≤ KERNBASE + PHYSTOP) (hnew : ∀ v ∈ l, ¬ PageIn p.toNat vend.toNat v)
    (hn : (vend.toNat - p.toNat) / PGSIZE < n) :
    ∃ t m, Returns (freePages k vend n p) s ⟨⟩ t ∧ t.useLock = s.useLock ∧ t.Chain m ∧
      ∀ v, v ∈ m ↔ v ∈ l ∨ PageIn p.toNat vend.toNat v := by
  induction n generalizing s l p with
  | zero => exact absurd hn (Nat.not_lt_zero _)
  | succ n ih =>
    obtain ⟨q, hq⟩ : ∃ q, p + BitVec.ofNat 32 PGSIZE = q := ⟨_, rfl⟩
    have hstep : q.toNat = p.toNat + PGSIZE := by
      simp only [PGSIZE, KERNBASE, PHYSTOP] at *
      bv_omega
    by_cases hle : q ≤ vend
    · have hroom : p.toNat + PGSIZE ≤ vend.toNat := hstep ▸ hle
      have hvalid : Valid k p := ⟨hp, hlow, by simp only [PGSIZE] at hroom; omega⟩
      have hpage : PageIn p.toNat vend.toNat p := ⟨hp, Nat.le_refl _, hroom⟩
      have hrest : ∀ v : Addr, PageIn q.toNat vend.toNat v ↔ PageIn p.toNat vend.toNat v ∧ v ≠ p := by
        intro v
        have hne : v ≠ p ↔ v.toNat ≠ p.toNat := not_congr BitVec.toNat_inj.symm
        unfold PageIn
        rw [hstep, hne]
        simp only [PGSIZE] at *
        omega
      obtain ⟨_, t, hfree, hchain, huse, _⟩ :=
        Returns.of_wp (kfree_spec h hvalid fun hmem => hnew p hmem hpage)
      have hapart : ∀ v ∈ p :: l, ¬ PageIn q.toNat vend.toNat v := by
        intro v hv hin
        obtain ⟨hin, hne⟩ := (hrest v).mp hin
        exact hnew v ((List.mem_cons.mp hv).resolve_left hne) hin
      obtain ⟨u, m, hloop, huse', hm, hmem⟩ :=
        ih hchain (by simp only [PGSIZE] at *; omega) (by omega) (by omega)
        hapart (by simp only [PGSIZE] at *; omega)
      rw [freePages_more hq hle]
      refine ⟨u, m, hfree.bind hloop, huse'.trans huse, hm, fun v => ?_⟩
      rw [hmem, hrest, List.mem_cons]
      by_cases hv : v = p
      · subst hv
        simp [hpage]
      · simp [hv]
    · rw [freePages_done hq hle]
      have hroom : ¬ p.toNat + PGSIZE ≤ vend.toNat := hstep ▸ hle
      refine ⟨s, l, returns_pure, rfl, h, fun v => ?_⟩
      have hnone : ¬ PageIn p.toNat vend.toNat v := fun hin => hroom (by have := hin.2; omega)
      simp [hnone]

theorem freerange_spec (first last : Nat) (h : s.Chain l) (hlow : k.stop ≤ first)
    (hhigh : first ≤ KERNBASE + PHYSTOP) (hend : last ≤ KERNBASE + PHYSTOP)
    (hnew : ∀ v ∈ l, ¬ PageIn first last v) :
    ∃ t m, Returns (freerange k (BitVec.ofNat 32 first) (BitVec.ofNat 32 last)) s ⟨⟩ t ∧
      t.useLock = s.useLock ∧
      t.Chain m ∧ ∀ v, v ∈ m ↔ v ∈ l ∨ PageIn first last v := by
  have hfirst : (BitVec.ofNat 32 first).toNat = first := by
    simp only [BitVec.toNat_ofNat, KERNBASE, PHYSTOP] at *
    omega
  have hlast : (BitVec.ofNat 32 last).toNat = last := by
    simp only [BitVec.toNat_ofNat, KERNBASE, PHYSTOP] at *
    omega
  obtain ⟨p, hp⟩ : ∃ p, BitVec.ofNat 32 (PGROUNDUP first) = p := ⟨_, rfl⟩
  have hup : p.toNat % PGSIZE = 0 ∧ first ≤ p.toNat ∧ p.toNat ≤ KERNBASE + PHYSTOP ∧
      p.toNat < first + PGSIZE := by
    subst hp
    simp only [BitVec.toNat_ofNat, PGROUNDUP, PGSIZE, KERNBASE, PHYSTOP] at *
    omega
  have hin : ∀ v : Addr, PageIn p.toNat last v ↔ PageIn first last v := by
    intro v
    unfold PageIn
    simp only [PGSIZE] at *
    omega
  have hturns : (last - p.toNat) / PGSIZE < allPages := by
    simp only [PGSIZE, allPages, KERNBASE, PHYSTOP] at *
    omega
  rw [← hlast] at hend hnew hin hturns
  obtain ⟨t, m, hret, huse, hm, hmem⟩ := freePages_spec (k := k) h hup.1 (by omega) hup.2.2.1 hend
    (fun v hv hpage => hnew v hv ((hin v).mp hpage)) hturns
  rw [hlast] at hin hmem
  refine ⟨t, m, ?_, huse, hm, fun v => (hmem v).trans (or_congr_right (hin v))⟩
  unfold freerange
  rw [hfirst, hp]
  exact hret

theorem kinit1_returns {vstart vend : Addr}
    (h : Returns (freerange k vstart vend) { s with locked := false, useLock := false } ⟨⟩ t) :
    Returns (kinit1 k vstart vend) s ⟨⟩ t := by
  unfold kinit1
  exact returns_modify.bind (returns_modify.bind h)

theorem kinit2_returns {vstart vend : Addr} (h : Returns (freerange k vstart vend) s ⟨⟩ t) :
    Returns (kinit2 k vstart vend) s ⟨⟩ { t with useLock := true } := by
  unfold kinit2
  exact h.bind returns_modify

/-- V2P(v) / PGSIZE. -/
def pageNumber (v : Addr) : Nat := (v.toNat - KERNBASE) / PGSIZE

def pageBytes (mem : Memory) (f : Nat) : Bytes.Block PGSIZE :=
  fun i => mem (BitVec.ofNat 32 (KERNBASE + f * PGSIZE + i.val))

/-- The list of page numbers and the contents of the pages that are not on it, in place of pointers
and addresses. -/
structure Abstracts (s : State) (m : Kmem) : Prop where
  list : ∃ l, s.Chain l ∧ (∀ v ∈ l, KERNBASE ≤ v.toNat) ∧ m.freelist = l.map pageNumber
  mem : ∀ f ∉ m.freelist, f * PGSIZE < PHYSTOP → m.mem f = pageBytes s.mem f

theorem kalloc_refines {m : Kmem} (h : Abstracts s m) :
    ∃ r t m', Returns kalloc s r t ∧
      ((r = 0 ∧ Returns Kmem.kalloc m none m' ∧ Abstracts t m') ∨
        (r ≠ 0 ∧ Returns Kmem.kalloc m (some (pageNumber r)) m' ∧
          Abstracts t { m' with mem := Function.update m'.mem (pageNumber r) (pageBytes t.mem (pageNumber r)) })) := by
  obtain ⟨l, hl, hlow, hlist⟩ := h.list
  obtain ⟨r, t, hret, hmem, _, hcase⟩ := Returns.of_wp (kalloc_spec hl)
  rcases hcase with ⟨rfl, rfl, ht⟩ | ⟨l', rfl, hne, ht⟩
  · refine ⟨0, t, m, hret, .inl ⟨rfl, ?_, ⟨[], ht, by simp, hlist⟩, ?_⟩⟩
    · unfold Kmem.kalloc
      refine returns_get.bind ?_
      rw [hlist]
      exact returns_pure
    · rw [hmem]
      exact h.mem
  · refine ⟨r, t, { m with freelist := l'.map pageNumber }, hret,
      .inr ⟨hne, ?_, ⟨l', ht, ?_, rfl⟩, ?_⟩⟩
    · unfold Kmem.kalloc
      refine returns_get.bind ?_
      rw [hlist]
      exact rfl
    · exact fun v hv => hlow v (List.mem_cons_of_mem r hv)
    · intro f hf hstop
      dsimp only
      by_cases hfr : f = pageNumber r
      · rw [hfr, Function.update_self]
      · rw [Function.update_of_ne hfr, hmem]
        refine h.mem f ?_ hstop
        rw [hlist, List.map_cons]
        exact fun hin => (List.mem_cons.mp hin).elim hfr hf

/-- One page is free. -/
def oneFree : State := { mem := fun _ => 0, freelist := 0x80200000 }

def oneFreeKmem : Kmem := ⟨[0x200], pageBytes fun _ => 0⟩

theorem abstracts_oneFree : Abstracts oneFree oneFreeKmem := by
  refine ⟨⟨[0x80200000], ⟨?_, List.nodup_singleton _, ?_, rfl⟩, ?_, by decide⟩, fun _ _ _ => rfl⟩
  · exact Linked.cons_iff.mpr ⟨by decide, Linked.nil_iff.mpr (by decide)⟩
  · intro v hv
    rw [List.mem_singleton.mp hv]
    decide
  · intro v hv
    rw [List.mem_singleton.mp hv]
    decide

theorem kalloc_refines_freed : ∃ t m, Returns kalloc oneFree 0x80200000 t ∧
    Returns Kmem.kalloc oneFreeKmem (some 0x200) m ∧ m.freelist = [] ∧
      Abstracts t { m with mem := Function.update m.mem 0x200 (pageBytes t.mem 0x200) } := by
  obtain ⟨r, t, m, hret, hcase⟩ := kalloc_refines abstracts_oneFree
  have hfirst : (kalloc oneFree).1 = .ok 0x80200000 := rfl
  rw [hret] at hfirst
  cases hfirst
  rcases hcase with ⟨hzero, _⟩ | ⟨_, hpage, habs⟩
  · exact absurd hzero (by decide)
  · have hnumber : pageNumber 0x80200000 = 0x200 := by decide
    rw [hnumber] at hpage habs
    exact ⟨t, m, hret, hpage, congrArg (·.2.freelist) hpage.symm, habs⟩

theorem kfree_refines {m : Kmem} (h : Abstracts s m) (hv : Valid k v)
    (hnew : pageNumber v ∉ m.freelist) :
    ∃ t m', Returns (kfree k v) s ⟨⟩ t ∧ Returns (Kmem.kfree k (pageNumber v)) m ⟨⟩ m' ∧
      Abstracts t m' := by
  obtain ⟨l, hl, hlow, hlist⟩ := h.list
  have hvl : v ∉ l := fun hin => hnew (hlist ▸ List.mem_map_of_mem hin)
  have hnumber : KERNBASE + pageNumber v * PGSIZE = v.toNat := by
    have haligned := hv.aligned
    have hlow := hv.kernbase_le
    simp only [pageNumber, PGSIZE, KERNBASE] at *
    omega
  obtain ⟨_, t, hret, ht, _, hframe⟩ := Returns.of_wp (kfree_spec hl hv hvl)
  refine ⟨t, ⟨pageNumber v :: m.freelist, Function.update m.mem (pageNumber v) fun _ => 1⟩,
    hret, ?_, ⟨v :: l, ht, ?_, ?_⟩, ?_⟩
  · unfold Kmem.kfree
    have hstop : ¬ (KERNBASE + pageNumber v * PGSIZE < k.stop ∨
        PHYSTOP ≤ pageNumber v * PGSIZE) := by
      have hlow := hv.low
      have hhigh := hv.high
      omega
    rw [if_neg hstop]
    exact returns_modify
  · intro w hw
    rcases List.mem_cons.mp hw with rfl | hw
    · exact hv.kernbase_le
    · exact hlow w hw
  · rw [hlist]
    rfl
  · intro f hf hstop
    have hfv : f ≠ pageNumber v := fun he => hf (he ▸ List.mem_cons_self)
    dsimp only
    rw [Function.update_of_ne hfv, h.mem f (fun hin => hf (List.mem_cons_of_mem _ hin)) hstop]
    funext i
    refine (hframe _ ?_).symm
    unfold InRange
    have hi := i.isLt
    simp only [BitVec.toNat_ofNat, PGSIZE, KERNBASE, PHYSTOP] at *
    omega

theorem kfree_refines_freed : ∃ k t m, Returns (kfree k 0x80201000) oneFree ⟨⟩ t ∧
    Returns (Kmem.kfree k 0x201) oneFreeKmem ⟨⟩ m ∧ m.freelist = [0x201, 0x200] ∧
      Abstracts t m := by
  have hv : Valid ⟨0x80108000, 0x80110000, by decide, by decide, by decide, by decide⟩ 0x80201000 :=
    ⟨by decide, by decide, by decide⟩
  have hnumber : pageNumber 0x80201000 = 0x201 := by decide
  obtain ⟨t, m, hret, hpage, habs⟩ := kfree_refines abstracts_oneFree hv (by decide)
  rw [hnumber] at hpage
  exact ⟨_, t, m, hret, hpage, congrArg (·.2.freelist) hpage.symm, habs⟩

end Kalloc

end Xv6
