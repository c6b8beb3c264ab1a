import Mathlib.Data.Fintype.Card
import Xv6.Bio
import Xv6.HeadedRing

namespace Xv6

inductive BcachePanic
  | bgetNoBuffers
  /-- A search does not come back to the head. -/
  | loops
  deriving DecidableEq, Repr

/-- The struct bcache: its array, and the pointers next and prev of the array's elements and of
head. -/
structure Bcache where
  buf : BufSlot → Buf
  list : Links BufSlot

abbrev BcacheM := Prog BcachePanic Bcache

namespace Bcache

open Prog

def setBuf (c : Bcache) (i : BufSlot) (b : Buf) : Bcache :=
  { c with buf := Function.update c.buf i b }

def binit (c : Bcache) : Bcache :=
  { buf := fun i => { c.buf i with locked := false }
    list := (List.finRange NBUF).foldl Links.insertFront c.list.initHead }

/-- The part of bget that holds bcache.lock. -/
def bget (a : BlockAddr) : BcacheM BufSlot := do
  let c ← get
  match Links.scan c.list.next (fun i => (c.buf i).addr = a) (NBUF + 1) (c.list.next none) with
  | none => throw .loops
  | some (some i) =>
    set (c.setBuf i { c.buf i with refcnt := ((c.buf i).refcnt + 1) % 2 ^ 32 })
    return i
  | some none =>
    match Links.scan c.list.prev (fun i => (c.buf i).refcnt = 0 ∧ (c.buf i).dirty = false)
      (NBUF + 1)
      (c.list.prev none) with
    | none => throw .loops
    | some (some i) =>
      set (c.setBuf i { c.buf i with addr := a, valid := false, dirty := false, refcnt := 1 })
      return i
    | some none => throw .bgetNoBuffers

/-- The part of brelse that holds bcache.lock. -/
@[irreducible] def put (c : Bcache) (i : BufSlot) : Bcache :=
  let refcnt := ((c.buf i).refcnt + (2 ^ 32 - 1)) % 2 ^ 32
  let c := c.setBuf i { c.buf i with refcnt := refcnt }
  if refcnt = 0 then { c with list := (c.list.unlink i).insertFront i } else c

def bput (i : BufSlot) : BcacheM Unit := modify fun c => c.put i

/-- The list has every buffer once. -/
structure Ordered (c : Bcache) (order : List BufSlot) : Prop where
  ring : c.list.Ring order
  all : ∀ i, i ∈ order

/-- A miss may take the buffer. -/
def Recyclable (c : Bcache) (i : BufSlot) : Prop := (c.buf i).refcnt = 0 ∧ (c.buf i).dirty = false

variable {c d : Bcache} {order : List BufSlot} {a : BlockAddr} {i : BufSlot}

theorem Ordered.length_lt (h : c.Ordered order) : order.length < NBUF + 1 := by
  have hle := h.ring.nodup.length_le_card
  rw [Fintype.card_fin] at hle
  exact Nat.lt_succ_of_le hle

theorem Ordered.scan_next (h : c.Ordered order) (good : BufSlot → Bool) :
    Links.scan c.list.next good (NBUF + 1) (c.list.next none) = some (order.find? good) :=
  h.ring.scan_next h.length_lt

theorem Ordered.scan_prev (h : c.Ordered order) (good : BufSlot → Bool) :
    Links.scan c.list.prev good (NBUF + 1) (c.list.prev none) = some (order.reverse.find? good) :=
  h.ring.scan_prev h.length_lt

theorem binit_ordered (c : Bcache) : c.binit.Ordered binitLru := by
  have hring : c.binit.list.Ring ((List.finRange NBUF).reverse ++ []) :=
    (Links.Ring.initHead c.list).foldl_insertFront (by simpa using List.nodup_finRange NBUF)
  rw [List.append_nil] at hring
  exact ⟨hring, fun i => by simp [binitLru]⟩

theorem Ordered.miss_iff (h : c.Ordered order) :
    order.find? (fun i => (c.buf i).addr = a) = none ↔ ∀ i, (c.buf i).addr ≠ a := by
  rw [List.find?_eq_none]
  exact ⟨fun hmiss i => by simpa using hmiss i (h.all i), fun hmiss i _ => by simpa using hmiss i⟩

theorem Ordered.no_victim_iff (h : c.Ordered order) :
    order.reverse.find? (fun i => (c.buf i).refcnt = 0 ∧ (c.buf i).dirty = false) = none ↔
      ∀ i, ¬ c.Recyclable i := by
  rw [List.find?_eq_none]
  refine ⟨fun hnone i => ?_, fun hnone i _ => ?_⟩
  · simpa [Recyclable] using hnone i (List.mem_reverse.mpr (h.all i))
  · simpa [Recyclable] using hnone i

theorem bget_hit (h : c.Ordered order)
    (hfind : order.find? (fun i => (c.buf i).addr = a) = some i) :
    Returns (bget a) c i (c.setBuf i
      { c.buf i with refcnt := ((c.buf i).refcnt + 1) % 2 ^ 32 }) := by
  unfold bget
  refine returns_get.bind ?_
  rw [h.scan_next, hfind]
  rfl

theorem bget_miss (h : c.Ordered order) (hmiss : ∀ i, (c.buf i).addr ≠ a)
    (hfind : order.reverse.find? (fun i => (c.buf i).refcnt = 0 ∧ (c.buf i).dirty = false) = some i) :
    Returns (bget a) c i (c.setBuf i { c.buf i with addr := a, valid := false, dirty := false, refcnt := 1 }) := by
  unfold bget
  refine returns_get.bind ?_
  rw [h.scan_next, h.miss_iff.mpr hmiss]
  dsimp only
  rw [h.scan_prev, hfind]
  rfl

theorem bget_none (h : c.Ordered order) (hmiss : ∀ i, (c.buf i).addr ≠ a)
    (hnone : ∀ i, ¬ c.Recyclable i) :
    bget a c = (.error .bgetNoBuffers, c) := by
  unfold bget
  rw [bind_ok returns_get, h.scan_next, h.miss_iff.mpr hmiss]
  dsimp only
  rw [h.scan_prev, h.no_victim_iff.mpr hnone]
  rfl

theorem bget_effect (h : c.Ordered order) (hret : Returns (bget a) c i d) :
    d = c.setBuf i (d.buf i) ∧ (d.buf i).locked = (c.buf i).locked ∧
      (d.buf i).refcnt = ((c.buf i).refcnt + 1) % 2 ^ 32 := by
  cases hfind : order.find? fun i => (c.buf i).addr = a with
  | some j =>
    obtain ⟨rfl, rfl⟩ := (bget_hit h hfind).unique hret
    simp [setBuf]
  | none =>
    have hmiss := h.miss_iff.mp hfind
    cases hvictim : order.reverse.find? fun i => (c.buf i).refcnt = 0 ∧ (c.buf i).dirty = false with
    | some j =>
      obtain ⟨rfl, rfl⟩ := (bget_miss h hmiss hvictim).unique hret
      have hfound : (c.buf j).refcnt = 0 ∧ (c.buf j).dirty = false := by simpa using List.find?_some hvictim
      simp [setBuf, hfound.1]
    | none =>
      rw [Returns, bget_none h hmiss (h.no_victim_iff.mp hvictim)] at hret
      cases hret

theorem put_last (h : (c.buf i).refcnt = 1) :
    c.put i = { buf := Function.update c.buf i { c.buf i with refcnt := 0 }
                list := (c.list.unlink i).insertFront i } := by
  have hzero : ((c.buf i).refcnt + (2 ^ 32 - 1)) % 2 ^ 32 = 0 := by
    rw [h]
    rfl
  unfold put
  simp only [hzero, if_true]
  rfl

theorem put_more (h : 1 < (c.buf i).refcnt) (hbound : (c.buf i).refcnt < 2 ^ 32) :
    c.put i = c.setBuf i { c.buf i with refcnt := (c.buf i).refcnt - 1 } := by
  have hless : ((c.buf i).refcnt + (2 ^ 32 - 1)) % 2 ^ 32 = (c.buf i).refcnt - 1 := by omega
  unfold put
  simp only [hless]
  rw [if_neg (by omega)]

theorem put_buf (hpos : 0 < (c.buf i).refcnt) (hbound : (c.buf i).refcnt < 2 ^ 32) :
    (c.put i).buf = Function.update c.buf i { c.buf i with refcnt := (c.buf i).refcnt - 1 } := by
  by_cases hlast : (c.buf i).refcnt = 1
  · rw [put_last hlast, hlast]
  · rw [put_more (by omega) hbound]
    rfl

theorem Ordered.put_last (h : c.Ordered order) (hlast : (c.buf i).refcnt = 1) :
    (c.put i).Ordered (i :: order.erase i) := by
  rw [Bcache.put_last hlast]
  refine ⟨h.ring.moveToFront (h.all i), fun j => ?_⟩
  by_cases hj : j = i
  · simp [hj]
  · exact List.mem_cons_of_mem i ((List.mem_erase_of_ne hj).mpr (h.all j))

/-- The list from most to least recently used in place of the pointers. -/
structure Abstracts (c : Bcache) (s : Store) : Prop where
  buf : s.buf = c.buf
  ordered : c.Ordered s.lru

theorem bget_refines {s : Store} (h : c.Abstracts s) (hbound : ∀ i, (c.buf i).refcnt + 1 < 2 ^ 32) :
    (∃ i d t, Returns (bget a) c i d ∧ Returns (bgetSlot a) s i t ∧ d.Abstracts t) ∨
      bget a c = (.error .bgetNoBuffers, c) ∧ bgetSlot a s = (.error (.panic .bgetNoBuffers), s) := by
  have hset : ∀ i b, (c.setBuf i b).Abstracts (s.setBuf i b) := fun i b =>
    ⟨by simp [Store.setBuf, setBuf, h.buf], h.ordered.ring, h.ordered.all⟩
  cases hlookup : s.lookup a with
  | some i =>
    have hret : Returns (bgetSlot a) s i
      (s.setBuf i { s.buf i with refcnt := (s.buf i).refcnt + 1 }) := by
      unfold bgetSlot
      refine returns_get.bind ?_
      rw [hlookup]
      rfl
    unfold Store.lookup at hlookup
    rw [h.buf] at hlookup hret
    have hhit := bget_hit h.ordered hlookup
    rw [Nat.mod_eq_of_lt (hbound i)] at hhit
    exact .inl ⟨i, _, _, hhit, hret, hset _ _⟩
  | none =>
    have hmiss : ∀ i, (c.buf i).addr ≠ a := h.ordered.miss_iff.mp (h.buf ▸ hlookup)
    cases hvictim : s.victim with
    | some i =>
      have hret : Returns (bgetSlot a) s i
          (s.setBuf i { s.buf i with addr := a, valid := false, dirty := false, refcnt := 1 }) := by
        unfold bgetSlot
        refine returns_get.bind ?_
        rw [hlookup, hvictim]
        rfl
      unfold Store.victim at hvictim
      rw [h.buf] at hvictim hret
      exact .inl ⟨i, _, _, bget_miss h.ordered hmiss hvictim, hret, hset _ _⟩
    | none =>
      have hnone : ∀ i, ¬ c.Recyclable i := h.ordered.no_victim_iff.mp (h.buf ▸ hvictim)
      refine .inr ⟨bget_none h.ordered hmiss hnone, ?_⟩
      unfold bgetSlot
      rw [bind_ok returns_get, hlookup, hvictim]
      rfl

theorem bput_refines {s : Store} (h : c.Abstracts s) (hpos : 1 ≤ (c.buf i).refcnt)
    (hbound : (c.buf i).refcnt < 2 ^ 32) :
    ∃ t, Returns (bput i) c ⟨⟩ (c.put i) ∧ Returns (Xv6.bput i) s ⟨⟩ t ∧ (c.put i).Abstracts t := by
  refine ⟨_, returns_modify, returns_modify, ?_⟩
  rw [h.buf]
  by_cases hlast : (c.buf i).refcnt = 1
  · have hput := h.ordered.put_last hlast
    rw [Bcache.put_last hlast] at hput ⊢
    rw [hlast, if_pos rfl]
    refine ⟨?_, hput.ring, hput.all⟩
    simp [Store.setBuf, h.buf]
  · rw [put_more (by omega) hbound, if_neg (by omega)]
    exact ⟨by simp [Store.setBuf, setBuf, h.buf], h.ordered.ring, h.ordered.all⟩

end Bcache

end Xv6
