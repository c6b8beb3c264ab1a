import Xv6.Kalloc
import Xv6.Runs

namespace Xv6

namespace Kalloc

open Prog

variable {k : KernelImage} {l : List Addr} {v : Addr}

/-- P2V(4*1024*1024): entrypgdir maps no more. -/
abbrev entryEnd : Nat := KERNBASE + 4 * 1024 * 1024

/-- A call of one of the functions, the first two as main makes them, or a byte that is stored. -/
inductive Call
  | kinit1
  | kinit2
  | kalloc
  | kfree (v : Addr)
  | write (a : Addr) (b : Bytes.Byte)

/-- The allocator, which of kinit1 and kinit2 were called, and the pages that kalloc returned and
kfree did not get back. -/
structure Sys where
  state : State
  done1 : Bool := false
  done2 : Bool := false
  allocated : List Addr := []

/-- Struct kmem is zero at first. -/
def Sys.boot (mem : Memory) : Sys := { state := { mem := mem } }

/-- Freerange was given the page. -/
def Sys.Handed (k : KernelImage) (s : Sys) (v : Addr) : Prop :=
  s.done1 = true ∧ PageIn k.stop entryEnd v ∨
    s.done2 = true ∧ PageIn entryEnd (KERNBASE + PHYSTOP) v

def Sys.Free (k : KernelImage) (s : Sys) (v : Addr) : Prop := s.Handed k v ∧ v ∉ s.allocated

instance (p vend : Nat) (v : Addr) : Decidable (PageIn p vend v) :=
  inferInstanceAs (Decidable (v.toNat % PGSIZE = 0 ∧ p ≤ v.toNat ∧ v.toNat + PGSIZE ≤ vend))

instance (k : KernelImage) (s : Sys) (v : Addr) : Decidable (s.Handed k v) :=
  inferInstanceAs (Decidable (_ ∨ _))

instance (k : KernelImage) (s : Sys) (v : Addr) : Decidable (s.Free k v) :=
  inferInstanceAs (Decidable (_ ∧ _))

/-- The page that an address is in. -/
def pageOf (a : Addr) : Addr := BitVec.ofNat 32 (PGROUNDDOWN a.toNat)

/-- kinit1 and kinit2 are called once; kfree gets a page that is allocated; and nothing is stored in
a free page. -/
def Sys.Allowed (k : KernelImage) (s : Sys) : Call → Prop
  | .kinit1 => s.done1 = false
  | .kinit2 => s.done2 = false
  | .kalloc => True
  | .kfree v => v ∈ s.allocated
  | .write a _ => ¬ s.Free k (pageOf a)

instance (k : KernelImage) (s : Sys) (c : Call) : Decidable (s.Allowed k c) :=
  match c with
  | .kinit1 => inferInstanceAs (Decidable (s.done1 = false))
  | .kinit2 => inferInstanceAs (Decidable (s.done2 = false))
  | .kalloc => inferInstanceAs (Decidable True)
  | .kfree v => inferInstanceAs (Decidable (v ∈ s.allocated))
  | .write a _ => inferInstanceAs (Decidable (¬ s.Free k (pageOf a)))

/-- The call, if it returns. -/
def Sys.call (k : KernelImage) (s : Sys) : Call → Alloc Sys
  | .kinit1 => do
    Kalloc.kinit1 k (BitVec.ofNat 32 k.stop) (BitVec.ofNat 32 entryEnd)
    return { s with state := ← get, done1 := true }
  | .kinit2 => do
    Kalloc.kinit2 k (BitVec.ofNat 32 entryEnd) (BitVec.ofNat 32 (KERNBASE + PHYSTOP))
    return { s with state := ← get, done2 := true }
  | .kalloc => do
    let r ← Kalloc.kalloc
    return { s with state := ← get, allocated := if r = 0 then s.allocated else r :: s.allocated }
  | .kfree v => do
    Kalloc.kfree k v
    return { s with state := ← get, allocated := s.allocated.erase v }
  | .write a b => do
    modify fun s => { s with mem := Function.update s.mem a b }
    return { s with state := ← get }

def Sys.step (k : KernelImage) (s : Sys) (c : Call) : Option Sys :=
  if s.Allowed k c then
    match s.call k c s.state with
    | (.ok t, _) => some t
    | (.error _, _) => none
  else none

structure Sys.Inv (k : KernelImage) (s : Sys) : Prop where
  chain : ∃ l, s.state.Chain l ∧ ∀ v, v ∈ l ↔ s.Free k v
  nodup : s.allocated.Nodup
  handed : ∀ v ∈ s.allocated, s.Handed k v

section

variable {s : Sys} {c : Call}

theorem Sys.Handed.valid (hboot : k.stop ≤ entryEnd) (h : s.Handed k v) : Valid k v := by
  rcases h with ⟨_, ha, hlow, hhigh⟩ | ⟨_, ha, hlow, hhigh⟩
  · exact ⟨ha, hlow, by simp only [entryEnd, KERNBASE, PHYSTOP, PGSIZE] at *; omega⟩
  · exact ⟨ha, by omega, by simp only [entryEnd, KERNBASE, PHYSTOP, PGSIZE] at *; omega⟩

theorem Sys.Inv.handOver {t : Sys} {first last : Nat} (h : s.Inv k) (hl : ∀ v, v ∈ l ↔ s.Free k v)
    (halloc : t.allocated = s.allocated)
    (hhanded : ∀ v, t.Handed k v ↔ s.Handed k v ∨ PageIn first last v)
    (hnew : ∀ v, s.Handed k v → ¬ PageIn first last v) {m : List Addr} (hm : t.state.Chain m)
    (hmem : ∀ v, v ∈ m ↔ v ∈ l ∨ PageIn first last v) : t.Inv k := by
  refine ⟨⟨m, hm, fun v => ?_⟩, halloc ▸ h.nodup, fun v hv => ?_⟩
  · rw [hmem, hl, Sys.Free, Sys.Free, hhanded, halloc]
    constructor
    · rintro (⟨hold, ha⟩ | hin)
      · exact ⟨.inl hold, ha⟩
      · exact ⟨.inr hin, fun ha => hnew v (h.handed v ha) hin⟩
    · rintro ⟨hold | hin, ha⟩
      · exact .inl ⟨hold, ha⟩
      · exact .inr hin
  · rw [halloc] at hv
    exact (hhanded v).mpr (.inl (h.handed v hv))

theorem Sys.Inv.kinit1 (hboot : k.stop ≤ entryEnd) (h : s.Inv k) (hdone : s.done1 = false) :
    ∃ t u, Returns (s.call k .kinit1) s.state t u ∧ t.Inv k := by
  obtain ⟨l, hl, hmem⟩ := h.chain
  have hnew : ∀ v, s.Handed k v → ¬ PageIn k.stop entryEnd v := by
    rintro v (⟨hd, _⟩ | ⟨_, hpage⟩) hin
    · rw [hdone] at hd
      cases hd
    · have hlow := hpage.2.1
      have hhigh := hin.2.2
      simp only [PGSIZE] at hhigh
      omega
  have hstart : State.Chain { s.state with locked := false, useLock := false } l :=
    ⟨hl.linked, hl.nodup, hl.pages, rfl⟩
  obtain ⟨t, m, hret, _, hm, hin⟩ := freerange_spec (k := k) k.stop entryEnd hstart (Nat.le_refl _)
    (Nat.le_trans hboot (by decide)) (by decide) fun v hv => hnew v ((hmem v).mp hv).1
  refine ⟨_, t, (kinit1_returns hret).bind (returns_get.bind returns_pure), ?_⟩
  refine h.handOver hmem rfl (fun v => ?_) hnew hm hin
  unfold Sys.Handed
  rw [hdone]
  simp [or_comm]

theorem Sys.Inv.kinit2 (hboot : k.stop ≤ entryEnd) (h : s.Inv k) (hdone : s.done2 = false) :
    ∃ t u, Returns (s.call k .kinit2) s.state t u ∧ t.Inv k := by
  obtain ⟨l, hl, hmem⟩ := h.chain
  have hnew : ∀ v, s.Handed k v → ¬ PageIn entryEnd (KERNBASE + PHYSTOP) v := by
    rintro v (⟨_, hpage⟩ | ⟨hd, _⟩) hin
    · have hlow := hin.2.1
      have hhigh := hpage.2.2
      simp only [PGSIZE] at hhigh
      omega
    · rw [hdone] at hd
      cases hd
  obtain ⟨t, m, hret, _, hm, hin⟩ := freerange_spec (k := k) entryEnd (KERNBASE + PHYSTOP) hl hboot
    (by decide) (Nat.le_refl _) fun v hv => hnew v ((hmem v).mp hv).1
  have hend : State.Chain { t with useLock := true } m :=
    ⟨hm.linked, hm.nodup, hm.pages, hm.unlocked⟩
  refine ⟨_, _, (kinit2_returns hret).bind (returns_get.bind returns_pure), ?_⟩
  refine h.handOver hmem rfl (fun v => ?_) hnew hend hin
  unfold Sys.Handed
  rw [hdone]
  simp

theorem Sys.Inv.kalloc (h : s.Inv k) : ∃ t u, Returns (s.call k .kalloc) s.state t u ∧ t.Inv k := by
  obtain ⟨l, hl, hmem⟩ := h.chain
  obtain ⟨r, u, hret, _, _, hcase⟩ := Returns.of_wp (kalloc_spec hl)
  refine ⟨_, u, hret.bind (returns_get.bind returns_pure), ?_⟩
  rcases hcase with ⟨rfl, rfl, hu⟩ | ⟨m, rfl, hne, hu⟩
  · rw [if_pos rfl]
    exact ⟨⟨[], hu, hmem⟩, h.nodup, h.handed⟩
  · rw [if_neg hne]
    obtain ⟨hhanded, hnew⟩ := (hmem r).mp List.mem_cons_self
    obtain ⟨hr, _⟩ := List.nodup_cons.mp hl.nodup
    refine ⟨⟨m, hu, fun v => ?_⟩, List.nodup_cons.mpr ⟨hnew, h.nodup⟩, fun v hv => ?_⟩
    · have hv := hmem v
      unfold Sys.Free Sys.Handed at *
      simp only [List.mem_cons, not_or] at hv ⊢
      constructor
      · intro hm
        obtain ⟨hh, ha⟩ := hv.mp (.inr hm)
        exact ⟨hh, fun he => hr (he ▸ hm), ha⟩
      · rintro ⟨hh, hvr, ha⟩
        exact (hv.mpr ⟨hh, ha⟩).resolve_left hvr
    · rcases List.mem_cons.mp hv with rfl | hv
      · exact hhanded
      · exact h.handed v hv

theorem Sys.Inv.kfree (hboot : k.stop ≤ entryEnd) (h : s.Inv k) (hv : v ∈ s.allocated) :
    ∃ t u, Returns (s.call k (.kfree v)) s.state t u ∧ t.Inv k := by
  obtain ⟨l, hl, hmem⟩ := h.chain
  have hnew : v ∉ l := fun hvl => ((hmem v).mp hvl).2 hv
  obtain ⟨_, u, hret, hu, _, _⟩ := Returns.of_wp (kfree_spec hl ((h.handed v hv).valid hboot) hnew)
  refine ⟨_, u, hret.bind (returns_get.bind returns_pure), ?_⟩
  refine ⟨⟨v :: l, hu, fun w => ?_⟩, h.nodup.erase v,
    fun w hw => h.handed w (List.mem_of_mem_erase hw)⟩
  rw [List.mem_cons, hmem, Sys.Free, Sys.Free, h.nodup.mem_erase_iff]
  constructor
  · rintro (rfl | ⟨hw, ha⟩)
    · exact ⟨h.handed w hv, fun ha => ha.1 rfl⟩
    · exact ⟨hw, fun he => ha he.2⟩
  · rintro ⟨hw, ha⟩
    by_cases hwv : w = v
    · exact .inl hwv
    · exact .inr ⟨hw, fun he => ha ⟨hwv, he⟩⟩

theorem pageOf_eq {a : Addr} (hv : v.toNat % PGSIZE = 0) (ha : InRange v PGSIZE a) :
    pageOf a = v := by
  apply BitVec.eq_of_toNat_eq
  unfold pageOf InRange at *
  simp only [BitVec.toNat_ofNat, PGROUNDDOWN, PGSIZE] at *
  omega

theorem Sys.Inv.write {a : Addr} {b : Bytes.Byte} (h : s.Inv k) (ha : ¬ s.Free k (pageOf a)) :
    ∃ t u, Returns (s.call k (.write a b)) s.state t u ∧ t.Inv k := by
  obtain ⟨l, hl, hmem⟩ := h.chain
  refine ⟨_, _, returns_modify.bind (returns_get.bind returns_pure),
    ⟨l, ⟨?_, hl.nodup, hl.pages, hl.unlocked⟩, hmem⟩, h.nodup, h.handed⟩
  refine hl.linked.congr fun w hw => congrArg ptr ?_
  have hfit := page_fits (hl.pages w hw)
  refine Memory.load32_congr (fun x hx => Function.update_of_ne ?_ ..)
    (by simp only [PGSIZE] at hfit; omega)
  rintro rfl
  have hrange : InRange w PGSIZE x := by
    unfold InRange at *
    simp only [PGSIZE]
    omega
  rw [pageOf_eq (hl.pages w hw) hrange] at ha
  exact ha ((hmem w).mp hw)

theorem Sys.Inv.call (hboot : k.stop ≤ entryEnd) (h : s.Inv k) (hc : s.Allowed k c) :
    ∃ t u, Returns (s.call k c) s.state t u ∧ t.Inv k := by
  cases c with
  | kinit1 => exact h.kinit1 hboot hc
  | kinit2 => exact h.kinit2 hboot hc
  | kalloc => exact h.kalloc
  | kfree v => exact h.kfree hboot hc
  | write a b => exact h.write hc

theorem Sys.boot_inv (mem : Memory) : (Sys.boot mem).Inv k := by
  refine ⟨⟨[], ⟨Linked.nil_iff.mpr rfl, List.nodup_nil, by simp, rfl⟩, fun v => ?_⟩, List.nodup_nil,
    by simp [Sys.boot]⟩
  simp [Sys.Free, Sys.Handed, Sys.boot]

theorem Sys.Inv.step {t : Sys} (hboot : k.stop ≤ entryEnd) (h : s.Inv k)
    (hstep : s.step k c = some t) : t.Inv k := by
  unfold Sys.step at hstep
  split at hstep
  next hc =>
    obtain ⟨t', u, hret, ht'⟩ := h.call hboot hc
    rw [hret] at hstep
    cases hstep
    exact ht'
  next => cases hstep

end

/-- Wherever a sequence of calls has led, the free list is that of the pages handed over and not
allocated, kalloc returns one of them if there is one, and no call panics. -/
theorem pool_sound (k : KernelImage) (hboot : k.stop ≤ entryEnd) (mem : Memory) (calls : List Call)
    (s : Sys) (h : Runs.exec (Sys.step k) (Sys.boot mem) calls = some s) :
    (∃ l, Linked s.state.next (ptr s.state.freelist) l ∧ l.Nodup ∧ ∀ v, v ∈ l ↔
      s.Handed k v ∧ v ∉ s.allocated) ∧
      (∃ r t, Returns kalloc s.state r t ∧ (r = 0 ↔ ∀ v, s.Handed k v → v ∈ s.allocated) ∧
        (r ≠ 0 → s.Handed k r ∧ r ∉ s.allocated)) ∧
      ∀ c, s.Allowed k c → ∃ t u, Returns (s.call k c) s.state t u ∧ s.step k c = some t := by
  have hinv : s.Inv k := Runs.invariant (Sys.boot_inv mem)
    (fun _ _ _ ht hstep => ht.step hboot hstep) h
  obtain ⟨l, hl, hmem⟩ := hinv.chain
  refine ⟨⟨l, hl.linked, hl.nodup, hmem⟩, ?_, ?_⟩
  · obtain ⟨r, t, hret, _, _, hcase⟩ := Returns.of_wp (kalloc_spec hl)
    refine ⟨r, t, hret, ?_⟩
    rcases hcase with ⟨rfl, rfl, _⟩ | ⟨m, rfl, hne, _⟩
    · refine ⟨⟨fun _ v hv => ?_, fun _ => rfl⟩, fun hne => absurd rfl hne⟩
      by_contra ha
      exact absurd ((hmem v).mpr ⟨hv, ha⟩) List.not_mem_nil
    · obtain ⟨hhanded, hnew⟩ := (hmem r).mp List.mem_cons_self
      exact ⟨⟨fun hr => absurd hr hne, fun hall => absurd (hall r hhanded) hnew⟩, fun _ => ⟨hhanded, hnew⟩⟩
  · intro c hc
    obtain ⟨t, u, hret, _⟩ := hinv.call hboot hc
    refine ⟨t, u, hret, ?_⟩
    unfold Sys.step
    rw [if_pos hc, hret]

/-- kinit2 would hand over a page of the kernel itself. -/
theorem kinit2_panics {s : State} (hbig : entryEnd < k.stop) :
    kinit2 k (BitVec.ofNat 32 entryEnd) (BitVec.ofNat 32 (KERNBASE + PHYSTOP)) s =
      (.error .kfree, s) := by
  have hkfree : kfree k (BitVec.ofNat 32 entryEnd) s = (.error .kfree, s) := by
    unfold kfree
    rw [if_pos (.inr (.inl hbig))]
    rfl
  have hloop :
      freerange k (BitVec.ofNat 32 entryEnd) (BitVec.ofNat 32 (KERNBASE + PHYSTOP)) s =
        (.error .kfree, s) := by
    unfold freerange allPages
    rw [show BitVec.ofNat 32 (PGROUNDUP (BitVec.ofNat 32 entryEnd).toNat) =
      BitVec.ofNat 32 entryEnd by decide,
      freePages_more rfl (by decide)]
    simp [Bind.bind, hkfree]
  unfold kinit2
  simp [Bind.bind, hloop]

/-- A kernel of a little more than one megabyte. -/
def linkedKernel : KernelImage :=
  ⟨0x80109000, 0x80112000, by decide, by decide, by decide, by decide⟩

theorem pool_sound_kinit1 :
    ∃ s r t, Runs.exec (Sys.step linkedKernel) (Sys.boot fun _ => 0) [.kinit1] = some s ∧
    Returns kalloc s.state r t ∧ r ≠ 0 := by
  obtain ⟨s, u, hret, _⟩ :=
    Sys.Inv.kinit1 (k := linkedKernel) (by decide) (Sys.boot_inv fun _ => 0) rfl
  obtain ⟨_, _, _, hend⟩ := hret.of_bind
  obtain ⟨u', _, _, hpure⟩ := hend.of_bind
  obtain ⟨rfl, _⟩ := returns_pure.unique hpure
  have hexec : Runs.exec (Sys.step linkedKernel) (Sys.boot fun _ => 0) [.kinit1] =
      some { Sys.boot (fun _ => 0) with state := u', done1 := true } := by
    simp only [Runs.exec, Sys.step,
      if_pos (show (Sys.boot fun _ => 0).Allowed linkedKernel .kinit1 from rfl)]
    rw [hret]
    rfl
  obtain ⟨_, ⟨r, t, hkalloc, hzero, _⟩, _⟩ := pool_sound linkedKernel (by decide) _ _ _ hexec
  refine ⟨_, r, t, hexec, hkalloc, fun hr => ?_⟩
  have hall := hzero.mp hr 0x80112000 (.inl ⟨rfl, by decide⟩)
  cases hall

end Kalloc

end Xv6
