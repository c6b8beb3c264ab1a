import Xv6.Growproc
import Xv6.UmallocSound

namespace Xv6

/-- What the kernel has for a process: its size, and the end of its user pages. -/
structure UserSize where
  sz : Nat
  top : Nat
deriving DecidableEq, Repr

/-- growproc, as far as sizes go; granted says whether allocuvm finds the pages. When nothing would
be left, deallocuvm has unmapped everything before growproc fails. -/
def UserSize.growproc (u : UserSize) (n : Int) (granted : Bool) : UserSize × Int :=
  let newsz := ((u.sz + n) % 2 ^ 32).toNat
  if 0 < n then
    if KERNBASE ≤ newsz then (u, -1)
    else if newsz < u.sz then (u, 0)
    else if granted then (⟨newsz, PGROUNDUP newsz⟩, 0)
    else (u, -1)
  else if n < 0 then
    if u.sz ≤ newsz then (u, if u.sz = 0 then -1 else 0)
    else if newsz = 0 then ({ u with top := 0 }, -1)
    else (⟨newsz, PGROUNDUP newsz⟩, 0)
  else (u, 0)

def UserSize.sbrk (u : UserSize) (n : Int) (granted : Bool) : UserSize × Option Nat :=
  let (u', r) := u.growproc n granted
  (u', if r < 0 then none else some u.sz)

/-- An unsigned argument where an int is expected. -/
def asInt (w : Nat) : Int := if w < 2 ^ 31 then w else w - 2 ^ 32

/-- The heap of a process. The code does not have the last field: the memory that morecore has got
from sbrk, each piece with its length. -/
structure ProcHeap where
  heap : Heap
  user : UserSize
  pieces : List (Nat × Nat)

inductive ProcHeapEvent
  | malloc (nbytes : Nat) (granted : Bool)
  | free (ap : Nat)
  | sbrk (n : Nat) (granted : Bool)
  deriving DecidableEq, Repr

namespace ProcHeap

def Obtained (s : ProcHeap) (x : Nat) : Prop := ∃ r ∈ s.pieces, r.1 ≤ x ∧ x < r.1 + r.2

/-- None when a page is not there: that of the header at p, or those of the program itself. -/
def morecore (s : ProcHeap) (granted : Bool) (nu : Nat) : Option (ProcHeap × Nat) :=
  let nu := if nu < 4096 then 4096 else nu
  let n := asInt (nu * HEADER % 2 ^ 32)
  match s.user.sbrk n granted with
  | (u, none) => if s.heap.base + HEADER ≤ u.top then some ({ s with user := u }, 0) else none
  | (u, some p) =>
    if p + HEADER ≤ u.top then
      (({ s.heap.setSize p nu with brk := u.sz, units := s.heap.units + nu } : Heap).free
        (Heap.addHeaders p 1)).map
        fun h => (⟨h, u, (p, n.toNat) :: s.pieces⟩, h.freep)
    else none

def mallocLoop (granted : Bool) (nunits : Nat) :
    Nat → ProcHeap → Nat → Nat → Option (ProcHeap × Nat) :=
  Heap.search heap (fun h s => { s with heap := h }) (·.morecore granted nunits) nunits

def malloc (s : ProcHeap) (granted : Bool) (nbytes : Nat) : Option (ProcHeap × Nat) :=
  let h := s.heap.start
  mallocLoop granted (Heap.unitsFor nbytes) (2 * Heap.turns) { s with heap := h } h.freep
    (h.next h.freep)

/-- malloc returns, and it returns 0 or a block: its header counts its units, they are enough for
the bytes and its header, and sbrk has given them. -/
def Honours (s : ProcHeap) (granted : Bool) (nbytes : Nat) : Prop :=
  ∃ t ap, s.malloc granted nbytes = some (t, ap) ∧
    (ap = 0 ∨ ∃ q, ap = q + HEADER ∧ nbytes + HEADER ≤ t.heap.size q * HEADER ∧
      Within t.Obtained q (t.heap.size q))

/-- The largest request whose units are less than 2^31 bytes. -/
abbrev maxBytes : Nat := 2 ^ 31 - 16

/-- A program makes requests of at most maxBytes, frees what it has got, and may call sbrk itself.
-/
def step (s : ProcHeap) : ProcHeapEvent → Option ProcHeap
  | .malloc nbytes granted =>
    if nbytes ≤ maxBytes then
      (s.malloc granted nbytes).map fun (s, ap) =>
        if ap = 0 then s
        else { s with heap := { s.heap with live := ⟨ap - HEADER, s.heap.size (ap - HEADER), nbytes⟩ :: s.heap.live } }
    else none
  | .free ap =>
    if s.heap.live.any fun b => b.addr + HEADER = ap then
      (s.heap.free ap).map fun h =>
        { s with heap := { h with live := h.live.filter fun b => b.addr + HEADER ≠ ap } }
    else none
  | .sbrk n granted =>
    if n < 2 ^ 31 then some { s with user := (s.user.growproc n granted).1 } else none

def boot (base sz : Nat) : ProcHeap := ⟨Heap.boot base sz [], ⟨sz, PGROUNDUP sz⟩, []⟩

end ProcHeap

section Kernel

open Prog UserMem

variable {k : KernelImage} {p : UserMem} {s : Kmem} {n : Int}

/-- The kernel's growproc returns, with the sizes that UserSize has, and its pages end where top
says. -/
def GrowsAs (k : KernelImage) (p : UserMem) (n : Int) (s : Kmem) : Prop :=
  ∃ granted p' r t top, Returns (growproc k p n) s (p', r) t ∧
    UserSize.growproc ⟨p.sz, PGROUNDUP p.sz⟩ n granted = (⟨p'.sz, top⟩, r) ∧
    ∀ v < 2 ^ 19, (p'.pgdir.mapping v).isSome ↔ v * PGSIZE < top

theorem lt_pages_iff_pgroundup {sz : Nat} (hsz : sz < KERNBASE) (v : Nat) :
    v < pages sz ↔ v * PGSIZE < PGROUNDUP sz := by
  rw [pgroundup_pages (Nat.le_of_lt hsz), Nat.mul_lt_mul_right (by decide)]

theorem growsAs_of_pos (h : p.Valid k s) (hhi : n < 2 ^ 31) (hpos : 0 < n) : GrowsAs k p n s := by
  have hsmall := h.small
  have hnewsz := request_of_nonneg hhi hsmall (by omega)
  have hreq : ((p.sz + n) % 2 ^ 32).toNat = p.request n := rfl
  obtain ⟨p', r, t, hrun, ⟨rfl, hr⟩ | ⟨rfl, hu⟩⟩ := grows_of_pos h hhi hpos
  · refine ⟨true, p', 0, t, PGROUNDUP p'.sz, hrun, ?_,
      fun v hv => (hr.present v hv).trans (lt_pages_iff_pgroundup hr.small v)⟩
    have hsize := hr.size
    have hsz : p.request n = p'.sz := by omega
    have hlt := hr.small
    unfold UserSize.growproc
    dsimp only
    rw [hreq, hsz, if_pos hpos, if_neg (by omega), if_neg (by omega), if_pos rfl]
  · refine ⟨false, p', -1, t, PGROUNDUP p.sz, hrun, ?_, fun v hv => ?_⟩
    · unfold UserSize.growproc
      dsimp only
      rw [hreq, if_pos hpos, hu.size]
      by_cases hbig : KERNBASE ≤ p.request n
      · rw [if_pos hbig]
      · rw [if_neg hbig, if_neg (by omega), if_neg (by decide)]
    · rw [(hu.kept v hv).1]
      exact (h.present v hv).trans (lt_pages_iff_pgroundup hsmall v)

theorem growproc_of_neg (hneg : n < 0) {d' : PageDir} {newsz : Nat} {t : Kmem}
    (hrun : Returns (deallocuvm k p.pgdir p.sz (p.request n)) s (d', newsz) t) :
    Returns (growproc k p n) s
      (if newsz = 0 then ({ p with pgdir := d' }, -1) else (⟨newsz, d'⟩, 0)) t := by
  unfold growproc
  rw [if_neg (by omega), if_pos hneg]
  refine hrun.bind ?_
  dsimp only
  split
  next => exact returns_pure
  next => exact returns_pure

theorem growsAs_of_neg (h : p.Valid k s) (hneg : n < 0) : GrowsAs k p n s := by
  have hsmall := h.small
  have hreq : ((p.sz + n) % 2 ^ 32).toNat = p.request n := rfl
  have hpos : ¬ 0 < n := by omega
  by_cases hle : p.sz ≤ p.request n
  · have hrun : Returns (deallocuvm k p.pgdir p.sz (p.request n)) s (p.pgdir, p.sz) s := by
      unfold deallocuvm
      rw [if_pos hle]
      exact returns_pure
    refine ⟨false, p, if p.sz = 0 then -1 else 0, s, PGROUNDUP p.sz, ?_, ?_,
      fun v hv => (h.present v hv).trans (lt_pages_iff_pgroundup hsmall v)⟩
    · have hgrow := growproc_of_neg hneg hrun
      by_cases hsz : p.sz = 0
      · rwa [if_pos hsz] at hgrow ⊢
      · rwa [if_neg hsz] at hgrow ⊢
    · unfold UserSize.growproc
      dsimp only
      rw [hreq, if_neg hpos, if_pos hneg, if_pos hle]
  · obtain ⟨d', t, hrun, hpresent, _⟩ := shrink_run h (p.request n) (by omega)
    have hgrow := growproc_of_neg hneg hrun
    by_cases hzero : p.request n = 0
    · rw [if_pos hzero] at hgrow
      refine ⟨false, { p with pgdir := d' }, -1, t, 0, hgrow, ?_, fun v hv => ?_⟩
      · unfold UserSize.growproc
        dsimp only
        rw [hreq, if_neg hpos, if_pos hneg, if_neg hle, if_pos hzero]
      · have hp := hpresent v hv
        rw [hzero] at hp
        simpa [pages, PGSIZE] using hp
    · rw [if_neg hzero] at hgrow
      refine ⟨false, ⟨p.request n, d'⟩, 0, t, PGROUNDUP (p.request n), hgrow, ?_, fun v hv => ?_⟩
      · unfold UserSize.growproc
        dsimp only
        rw [hreq, if_neg hpos, if_pos hneg, if_neg hle, if_neg hzero]
      · exact (hpresent v hv).trans (lt_pages_iff_pgroundup (by omega) v)

/-- The sizes are those of the kernel's growproc. -/
theorem growproc_size (h : p.Valid k s) (hhi : n < 2 ^ 31) : GrowsAs k p n s := by
  by_cases hpos : 0 < n
  · exact growsAs_of_pos h hhi hpos
  · by_cases hneg : n < 0
    · exact growsAs_of_neg h hneg
    · refine ⟨false, p, 0, s, PGROUNDUP p.sz, ?_, ?_,
        fun v hv => (h.present v hv).trans (lt_pages_iff_pgroundup h.small v)⟩
      · unfold growproc
        rw [if_neg hpos, if_neg hneg]
        exact returns_pure
      · unfold UserSize.growproc
        dsimp only
        rw [if_neg hpos, if_neg hneg]

theorem growproc_size_page :
    GrowsAs smallKernel (.mk 4096 onePage) 4096 ⟨[0x1003], fun _ => Bytes.zero⟩ :=
  growproc_size onePage_valid (by decide)

end Kernel

theorem le_pgroundup {sz : Nat} (h : sz < KERNBASE) : sz ≤ PGROUNDUP sz := by
  simp only [PGROUNDUP, PGSIZE, KERNBASE] at *
  omega

theorem UserSize.sbrk_cases {u : UserSize} {m : Nat} (hu : u.sz < KERNBASE) (hpos : 0 < m)
    (hm : m < 2 ^ 31) (granted : Bool) :
    u.sbrk m granted = (u, none) ∨
      (u.sz + m < KERNBASE ∧ u.sbrk m granted = (⟨u.sz + m, PGROUNDUP (u.sz + m)⟩, some u.sz)) := by
  have hnewsz : (((u.sz : Int) + (m : Nat)) % 2 ^ 32).toNat = u.sz + m := by
    simp only [KERNBASE] at hu
    omega
  unfold sbrk UserSize.growproc
  dsimp only
  rw [hnewsz, if_pos (by omega)]
  by_cases hbig : KERNBASE ≤ u.sz + m
  · rw [if_pos hbig]
    exact .inl rfl
  · rw [if_neg hbig, if_neg (by omega)]
    cases granted with
    | false => exact .inl rfl
    | true => exact .inr ⟨by omega, rfl⟩

namespace ProcHeap

variable {s t : ProcHeap} {l : List Nat} {blocks : List (Nat × Nat)} {granted : Bool}
  {nu nunits : Nat}

/-- The kernel's side between two calls. -/
structure Sized (s : ProcHeap) : Prop where
  small : s.user.sz < KERNBASE
  top : s.user.top = PGROUNDUP s.user.sz
  below : s.heap.brk ≤ s.user.sz

/-- The free list, with all its blocks in memory from sbrk. -/
structure Inv (s : ProcHeap) (l : List Nat) (blocks : List (Nat × Nat)) : Prop where
  list : s.heap.Inv l blocks
  arena : Arena s.Obtained s.heap.base s.heap.size l blocks

theorem Sized.mapped (hs : s.Sized) (h : s.Inv l blocks) : s.heap.base + HEADER ≤ s.user.top := by
  have hspace := FreeList.space h.list
  have hbelow := hs.below
  have htop := le_pgroundup hs.small
  rw [hs.top]
  omega

theorem morecore_run (h : s.Inv l blocks) (hs : s.Sized) (hnu : nu < 2 ^ 28) (granted : Bool) :
    s.morecore granted nu = some (s, 0) ∨
    ∃ t l', s.morecore granted nu = some (t, t.heap.freep) ∧ t.Sized ∧ t.heap.live = s.heap.live ∧
      t.Inv l' blocks ∧
      ∃ a ∈ l', nu ≤ t.heap.size a := by
  unfold morecore
  obtain ⟨hle, hlt, hpos⟩ := Heap.request_bounds hnu (by decide)
  generalize (if nu < 4096 then 4096 else nu) = m at hle hlt hpos ⊢
  have hbytes : asInt (m * HEADER % 2 ^ 32) = (m * HEADER : Nat) := by
    unfold asInt
    simp only [HEADER]
    omega
  dsimp only
  rw [hbytes]
  rcases UserSize.sbrk_cases hs.small (m := m * HEADER) (by simp only [HEADER]; omega) (by simp only [HEADER]; omega)
      granted with heq | ⟨hfit, heq⟩
  · rw [heq]
    dsimp only
    rw [if_pos (hs.mapped h)]
    exact .inl rfl
  · rw [heq]
    dsimp only
    have hroom := le_pgroundup hfit
    rw [if_pos (by simp only [HEADER] at *; omega), Int.toNat_natCast]
    have hfit32 : s.user.sz + m * HEADER < 2 ^ 32 := by
      simp only [KERNBASE] at hfit
      omega
    let more : Heap := { s.heap.setSize s.user.sz m with brk := s.user.sz + m * HEADER, units := s.heap.units + m }
    have hsize : more.size = Function.update s.heap.size s.user.sz m := Heap.size_setSize
    have hinv : more.Inv l ((s.user.sz, m) :: blocks) := by
      unfold Heap.Inv
      rw [show more.next = s.heap.next from Heap.next_setSize, hsize]
      exact FreeList.extend h.list hs.below hpos hfit32
    obtain ⟨u, l', hfree, hk, hinv', ⟨b, hb, hbig⟩, harena⟩ := Heap.free_run hinv
    rw [Heap.addHeaders_one hpos hfit32, show Heap.free _ (s.user.sz + HEADER) = some u from hfree,
      Option.map_some]
    refine .inr ⟨_, l', rfl, ⟨hfit, rfl, Nat.le_of_eq hk.brk⟩, hk.live, ⟨hinv', harena _ ?_⟩, b, hb,
      Nat.le_trans hle hbig⟩
    rw [hsize]
    refine Arena.extend (h.arena.mono ?_) h.list hs.below hpos hfit32 ?_
    · rintro x ⟨r, hr, hx⟩
      exact ⟨r, List.mem_cons_of_mem _ hr, hx⟩
    · exact fun x hx hx' => ⟨_, List.mem_cons_self, hx, hx'⟩

theorem keeps_inv (granted : Bool) (hpos : 0 < nunits) (hlt : nunits < 2 ^ 28) :
    Heap.Keeps heap (fun h s => { s with heap := h }) (·.morecore granted nunits) nunits
      fun s l blocks => s.Sized ∧ s.Inv l blocks where
  list h := h.2.list
  put h hx hfit := by
    obtain ⟨u, q, l', htake, hk, hinv, harena⟩ := Heap.take_run h.2.list hx rfl hpos hfit
    exact ⟨u, q, l', htake, hk.live, ⟨h.1.small, h.1.top, hk.brk ▸ h.1.below⟩, hinv,
      harena _ h.2.arena⟩
  more h := by
    rcases morecore_run h.2 h.1 hlt granted with hmore | ⟨t, l', hmore, ht, hlive, hinv, hbig⟩
    · exact ⟨_, 0, hmore, rfl, .inl ⟨rfl, h⟩⟩
    · exact ⟨t, _, hmore, hlive, .inr ⟨rfl, l', ⟨ht, hinv⟩, hbig⟩⟩

/-- What holds between two calls. -/
structure Ok (s : ProcHeap) : Prop where
  sized : s.Sized
  heap : s.heap.Fresh ∨ ∃ l, s.Inv l s.heap.liveBlocks

theorem Ok.start_inv (h : s.Ok) :
    Sized { s with heap := s.heap.start } ∧ s.heap.start.live = s.heap.live ∧
      ∃ l, Inv { s with heap := s.heap.start } l s.heap.liveBlocks := by
  rcases h.heap with hf | ⟨l, hinv⟩
  · have hstart : s.heap.start =
      { s.heap.setHeader s.heap.base ⟨s.heap.base, 0⟩ with freep := s.heap.base } :=
      if_pos hf.freep
    have hlist := hf.start_inv
    rw [hstart] at hlist ⊢
    refine ⟨⟨h.sized.small, h.sized.top, h.sized.below⟩, rfl, [s.heap.base], ?_, ?_⟩
    · rw [Heap.liveBlocks, hf.live]
      exact hlist
    · rw [Heap.liveBlocks, hf.live]
      exact ⟨fun a ha hne => absurd (List.mem_singleton.mp ha) hne, fun b hb => absurd hb List.not_mem_nil⟩
  · have hne : s.heap.freep ≠ 0 := by
      have := FreeList.base_le hinv.list (FreeList.freepMem hinv.list)
      have := FreeList.basePos hinv.list
      omega
    have hstart : s.heap.start = s.heap := if_neg hne
    rw [hstart]
    exact ⟨h.sized, rfl, l, hinv⟩

theorem unitsFor_spec {nbytes : Nat} (hn : nbytes ≤ maxBytes) :
    nbytes + HEADER ≤ Heap.unitsFor nbytes * HEADER ∧ Heap.unitsFor nbytes < 2 ^ 28 := by
  unfold Heap.unitsFor
  simp only [maxBytes] at hn
  rw [Nat.mod_eq_of_lt (by simp only [HEADER]; omega)]
  simp only [HEADER]
  omega

/-- malloc ends, with a block that holds the bytes or without one. -/
theorem malloc_run {nbytes : Nat} (h : s.Ok) (hn : nbytes ≤ maxBytes) (granted : Bool) :
    ∃ t ap l', s.malloc granted nbytes = some (t, ap) ∧ t.Sized ∧ t.heap.live = s.heap.live ∧
      ((ap = 0 ∧ t.Inv l' s.heap.liveBlocks) ∨
        ∃ q, ap = q + HEADER ∧ t.Inv l' ((q, Heap.unitsFor nbytes) :: s.heap.liveBlocks)) := by
  obtain ⟨hs, hlive, l, hinv⟩ := h.start_inv
  obtain ⟨t, ap, l', heq, hl, hcases⟩ :=
    (keeps_inv granted (Nat.succ_pos _) (unitsFor_spec hn).2).run ⟨hs, hinv⟩
      (Nat.le_refl (2 * Heap.turns))
  rcases hcases with ⟨hap, ht, hinv'⟩ | ⟨q, hap, ht, hinv'⟩
  · exact ⟨t, ap, l', heq, ht, hl.trans hlive, .inl ⟨hap, hinv'⟩⟩
  · exact ⟨t, ap, l', heq, ht, hl.trans hlive, .inr ⟨q, hap, hinv'⟩⟩

theorem Ok.honours {nbytes : Nat} (h : s.Ok) (hn : nbytes ≤ maxBytes) (granted : Bool) :
    s.Honours granted nbytes := by
  obtain ⟨t, ap, l', heq, _, _, ⟨rfl, _⟩ | ⟨q, rfl, hinv⟩⟩ := malloc_run h hn granted
  · exact ⟨t, 0, heq, .inl rfl⟩
  · have hsize : t.heap.size q = Heap.unitsFor nbytes :=
      (FreeList.block hinv.list (q, _) List.mem_cons_self).1
    refine ⟨t, _, heq, .inr ⟨q, rfl, ?_, ?_⟩⟩
    · rw [hsize]
      exact (unitsFor_spec hn).1
    · rw [hsize]
      exact hinv.arena.block (q, _) List.mem_cons_self

theorem step_ok {e : ProcHeapEvent} (h : s.Ok) (hstep : s.step e = some t) : t.Ok := by
  cases e with
  | malloc nbytes granted =>
    obtain ⟨hn, hstep⟩ := Option.ite_none_right_eq_some.mp hstep
    obtain ⟨u, ap, l', heq, hu, hlive, hcases⟩ := malloc_run h hn granted
    rw [heq, Option.map_some] at hstep
    have ht := Option.some.inj hstep
    dsimp only at ht
    rcases hcases with ⟨rfl, hinv⟩ | ⟨q, rfl, hinv⟩
    · rw [if_pos rfl] at ht
      subst ht
      refine ⟨hu, .inr ⟨l', ?_⟩⟩
      rw [Heap.liveBlocks, hlive]
      exact hinv
    · have hq : u.heap.size q = Heap.unitsFor nbytes := (FreeList.block hinv.list (q, _) List.mem_cons_self).1
      rw [if_neg (by simp [HEADER]), Nat.add_sub_cancel, hq, hlive] at ht
      subst ht
      exact ⟨⟨hu.small, hu.top, hu.below⟩, .inr ⟨l', hinv.list, hinv.arena⟩⟩
  | free ap =>
    obtain ⟨hany, hstep⟩ := Option.ite_none_right_eq_some.mp hstep
    obtain ⟨b, hb, hap⟩ := List.any_eq_true.mp hany
    obtain rfl : b.addr + HEADER = ap := of_decide_eq_true hap
    rcases h.heap with hf | ⟨l, hinv⟩
    · rw [hf.live] at hb
      exact absurd hb List.not_mem_nil
    · obtain ⟨u, l', heq, hk, hinv', _, harena⟩ := Heap.free_run (Heap.inv_live hinv.list hb)
      rw [heq, Option.map_some, hk.live] at hstep
      have ht := Option.some.inj hstep
      subst ht
      refine ⟨⟨h.sized.small, h.sized.top, hk.brk ▸ h.sized.below⟩, .inr ⟨l', hinv', harena _ ?_⟩⟩
      refine hinv.arena.subset (List.forall_mem_cons.mpr ⟨List.mem_map_of_mem hb, fun c hc => ?_⟩)
      obtain ⟨d, hd, rfl⟩ := List.mem_map.mp hc
      exact List.mem_map_of_mem (List.mem_of_mem_filter hd)
  | sbrk n granted =>
    obtain ⟨hn, hstep⟩ := Option.ite_none_right_eq_some.mp hstep
    have ht := Option.some.inj hstep
    subst ht
    have hs := h.sized
    have hbrk := hs.below
    refine ⟨?_, h.heap.imp_right ?_⟩
    swap
    · rintro ⟨l, hinv⟩
      exact ⟨l, hinv.list, hinv.arena⟩
    by_cases hz : n = 0
    · subst hz
      exact hs
    · have hfst : (s.user.growproc n granted).1 = (s.user.sbrk n granted).1 := rfl
      rcases UserSize.sbrk_cases hs.small (Nat.pos_of_ne_zero hz) hn granted with heq | ⟨hfit, heq⟩
      · rw [hfst, heq]
        exact hs
      · rw [hfst, heq]
        exact ⟨hfit, rfl, Nat.le_trans hbrk (Nat.le_add_right _ _)⟩

theorem boot_ok {base sz : Nat} (hbase : 0 < base) (hbelow : base + HEADER ≤ sz)
    (hsz : sz < KERNBASE) :
    (boot base sz).Ok := by
  refine ⟨⟨hsz, rfl, Nat.le_refl _⟩, .inl ⟨rfl, rfl, rfl, hbase, hbelow, ?_⟩⟩
  show sz < 2 ^ 32
  simp only [KERNBASE] at hsz
  omega

/-- What sbrk does to a process of three pages when its argument is not positive: there is no page
above. -/
theorem sbrk_nonpos {n : Int} (hlo : -2 ^ 31 ≤ n) (hn : n ≤ 0) :
    ∃ u : UserSize, u.top ≤ 12288 ∧ ((⟨12288, 12288⟩ : UserSize).sbrk n true = (u, some 12288) ∨
      u.top = 0 ∧ (⟨12288, 12288⟩ : UserSize).sbrk n true = (u, none)) := by
  unfold UserSize.sbrk UserSize.growproc
  dsimp only
  rw [if_neg (by omega)]
  by_cases hneg : n < 0
  · rw [if_pos hneg]
    by_cases hwrap : 12288 ≤ (((12288 : Nat) + n) % 2 ^ 32).toNat
    · rw [if_pos hwrap]
      exact ⟨_, Nat.le_refl _, .inl rfl⟩
    · rw [if_neg hwrap]
      by_cases hzero : (((12288 : Nat) + n) % 2 ^ 32).toNat = 0
      · rw [if_pos hzero]
        exact ⟨_, Nat.zero_le _, .inr ⟨rfl, rfl⟩⟩
      · rw [if_neg hzero]
        refine ⟨_, ?_, .inl rfl⟩
        simp only [PGROUNDUP, PGSIZE]
        omega
  · rw [if_neg hneg]
    exact ⟨_, Nat.le_refl _, .inl rfl⟩

/-- With 2^28 units or more the argument of sbrk is not positive, and the header at the old break is
in no page. -/
theorem morecore_faults {s : ProcHeap} {nunits : Nat} (hu : s.user = ⟨12288, 12288⟩)
    (hlo : 2 ^ 28 ≤ nunits) (hhi : nunits ≤ 2 ^ 29) : s.morecore true nunits = none := by
  have hn : asInt (nunits * HEADER % 2 ^ 32) ≤ 0 ∧ -2 ^ 31 ≤ asInt (nunits * HEADER % 2 ^ 32) := by
    unfold asInt
    simp only [HEADER]
    omega
  obtain ⟨u, htop, hsbrk⟩ := sbrk_nonpos hn.2 hn.1
  unfold morecore
  rw [if_neg (by omega), hu]
  dsimp only
  rcases hsbrk with hsbrk | ⟨hgone, hsbrk⟩
  · rw [hsbrk]
    exact if_neg (by simp only [HEADER]; omega)
  · rw [hsbrk]
    exact if_neg (by simp only [HEADER]; omega)

/-- Close to 2^32 the sum wraps, and one unit is taken: the header alone. -/
theorem malloc_one_unit {nbytes : Nat} (hlo : 2 ^ 32 - 7 ≤ nbytes) (hhi : nbytes < 2 ^ 32) :
    ∃ t, (boot 2048 12288).malloc true nbytes = some (t, 45056) ∧ t.heap.size 45048 = 1 := by
  have hunits : Heap.unitsFor nbytes = Heap.unitsFor (2 ^ 32 - 1) := by
    unfold Heap.unitsFor
    simp only [HEADER]
    omega
  have hrun : ((boot 2048 12288).malloc true (2 ^ 32 - 1)).map
    (fun r => (r.2, r.1.heap.size 45048)) =
      some (45056, 1) := by decide +kernel
  obtain ⟨⟨t, ap⟩, heq, hr⟩ := Option.map_eq_some_iff.mp hrun
  obtain ⟨rfl, hsize⟩ := Prod.mk.inj hr
  refine ⟨t, ?_, hsize⟩
  rw [← heq]
  unfold malloc
  rw [hunits]

theorem not_honours_wrapped {nbytes : Nat} (hlo : 2 ^ 32 - 7 ≤ nbytes) (hhi : nbytes < 2 ^ 32) :
    ¬ (boot 2048 12288).Honours true nbytes := by
  rintro ⟨t, ap, heq, hok⟩
  obtain ⟨t', heq', hsize⟩ := malloc_one_unit hlo hhi
  obtain ⟨rfl, rfl⟩ := Prod.mk.inj (Option.some.inj (heq.symm.trans heq'))
  rcases hok with hzero | ⟨q, hq, hlarge, _⟩
  · exact absurd hzero (by decide)
  · have hq' : q = 45048 := by
      simp only [HEADER] at hq
      omega
    rw [hq', hsize] at hlarge
    simp only [HEADER] at hlarge
    omega

theorem not_honours_negative {nbytes : Nat} (hlo : maxBytes < nbytes) (hhi : nbytes < 2 ^ 32 - 7) :
    ¬ (boot 2048 12288).Honours true nbytes := by
  rintro ⟨t, ap, heq, _⟩
  have hunits : 2 ^ 28 ≤ Heap.unitsFor nbytes ∧ Heap.unitsFor nbytes ≤ 2 ^ 29 := by
    unfold Heap.unitsFor
    simp only [maxBytes, HEADER] at *
    omega
  have hmalloc : (boot 2048 12288).malloc true nbytes = none := by
    unfold malloc
    dsimp only
    rw [show 2 * Heap.turns = (2 * Heap.turns - 1) + 1 from rfl, mallocLoop, Heap.search,
      if_neg, if_pos]
    · rw [morecore_faults rfl hunits.1 hunits.2]
      rfl
    · rfl
    · show ¬ Heap.unitsFor nbytes ≤ 0
      omega
  rw [hmalloc] at heq
  exact absurd heq (by simp)

/-- Requests up to maxBytes are honoured in every state of the heap, and no larger one is. -/
theorem malloc_honours_iff (nbytes : Nat) (hn : nbytes < 2 ^ 32) :
    (∀ base sz es s granted, 0 < base → base + HEADER ≤ sz → sz < KERNBASE →
      Runs.exec step (boot base sz) es = some s → s.Honours granted nbytes) ↔ nbytes ≤ maxBytes := by
  constructor
  · intro hall
    have hboot := hall 2048 12288 [] _ true (by decide) (by decide) (by decide) rfl
    by_contra hbig
    by_cases hwrap : 2 ^ 32 - 7 ≤ nbytes
    · exact not_honours_wrapped hwrap hn hboot
    · exact not_honours_negative (by omega) (by omega) hboot
  · intro hle base sz es s granted hbase hbelow hsz hrun
    have hok : s.Ok := Runs.invariant (boot_ok hbase hbelow hsz)
      (fun _ _ _ hs hu => step_ok hs hu) hrun
    exact hok.honours hle granted

theorem malloc_honours_iff_page : (boot 2048 12288).Honours true 4096 :=
  (malloc_honours_iff 4096 (by decide)).mpr (by decide) 2048 12288 [] _ true (by decide) (by decide)
    (by decide) rfl

/-- The first request of a program: for 2^32 - 1 bytes it gets an address behind the last byte of
its memory, and for 2^31 bytes a page fault. -/
theorem malloc_too_large :
    ¬ (boot 2048 12288).Honours true (2 ^ 32 - 1) ∧ ¬ (boot 2048 12288).Honours true (2 ^ 31) :=
  ⟨not_honours_wrapped (by decide) (by decide), not_honours_negative (by decide) (by decide)⟩

end ProcHeap

end Xv6
