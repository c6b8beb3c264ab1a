import Xv6.BufferList
import Xv6.Counts
import Xv6.Runs

namespace Xv6

/-- Where a process is: in neither of the two functions, in bget behind the choice of the buffer, or
in brelse behind releasesleep. -/
inductive BufPc
  | run
  | waiting (i : BufSlot)
  | releasing (i : BufSlot)
  deriving DecidableEq

/-- The process has counted itself among the users of the buffer, and does not hold its lock. -/
def BufPc.On (i : BufSlot) (x : BufPc) : Prop := x = .waiting i ∨ x = .releasing i

instance (i : BufSlot) : DecidablePred (BufPc.On i) :=
  fun x => inferInstanceAs (Decidable (x = _ ∨ x = _))

/-- A step of a process in bget or in brelse, or a change of the flags and data of a buffer. -/
inductive BufEvent
  | bget (p : Slot) (a : BlockAddr)
  | acquiresleep (p : Slot)
  | releasesleep (p : Slot) (i : BufSlot)
  | bput (p : Slot)
  | use (i : BufSlot) (valid dirty : Bool) (data : DiskBlock)

/-- The cache, the processes, which of them holds the lock of a buffer, and the releases so far, the
last one first. -/
structure BufSys where
  cache : Bcache
  pc : Slot → BufPc
  holder : BufSlot → Option Slot
  releases : List BufSlot

namespace BufSys

open Prog

/-- The array is zero before binit; the pointers do not matter. -/
def boot (list : Links BufSlot) : BufSys :=
  ⟨Bcache.binit ⟨fun _ => Buf.empty, list⟩, fun _ => .run, fun _ => none, []⟩

/-- brelse is called by the process that holds the lock. -/
def step (s : BufSys) : BufEvent → Option BufSys
  | .bget p a =>
    if s.pc p = .run then
      match Bcache.bget a s.cache with
      | (.ok i, c) => some { s with cache := c, pc := Function.update s.pc p (.waiting i) }
      | (.error _, _) => none
    else none
  | .acquiresleep p =>
    match s.pc p with
    | .waiting i =>
      if (s.cache.buf i).locked then none
      else some { s with
        cache := s.cache.setBuf i { s.cache.buf i with locked := true }
        pc := Function.update s.pc p .run
        holder := Function.update s.holder i (some p) }
    | _ => none
  | .releasesleep p i =>
    if s.pc p = .run ∧ s.holder i = some p ∧ (s.cache.buf i).locked = true then
      some { s with
        cache := s.cache.setBuf i { s.cache.buf i with locked := false }
        pc := Function.update s.pc p (.releasing i)
        holder := Function.update s.holder i none }
    else none
  | .bput p =>
    match s.pc p with
    | .releasing i =>
      match Bcache.bput i s.cache with
      | (.ok _, c) => some { s with cache := c, pc := Function.update s.pc p .run, releases := i :: s.releases }
      | (.error _, _) => none
    | _ => none
  | .use i valid dirty data =>
    some { s with cache := s.cache.setBuf i { s.cache.buf i with valid := valid, dirty := dirty, data := data } }

/-- How many buffers and releases are between now and the last release of the buffer. The buffers
that were never released are behind the others, in the order in which binit has left them. -/
def age (s : BufSys) (i : BufSlot) : Nat := (s.releases ++ binitLru).idxOf i

def refcnt (s : BufSys) (i : BufSlot) : Nat := (s.cache.buf i).refcnt

/-- Every user of a buffer is counted. -/
structure Counted (s : BufSys) : Prop where
  users : ∀ i, s.refcnt i = Counts.count s.pc (BufPc.On i) + if (s.holder i).isSome then 1 else 0
  locked : ∀ i, (s.cache.buf i).locked = (s.holder i).isSome

/-- The list is sorted by the times at which the buffers became free, which is when a free one was
last released. -/
structure Sorted (s : BufSys) (order : List BufSlot) : Prop where
  ordered : s.cache.Ordered order
  times : ∃ time : BufSlot → Nat, order.Pairwise (fun i j => time i < time j) ∧
    ∀ i, s.refcnt i = 0 → time i = s.age i

variable {s t : BufSys} {order : List BufSlot} {e : BufEvent} {p : Slot} {i : BufSlot}

theorem boot_counted (list : Links BufSlot) : (boot list).Counted := by
  refine ⟨fun i => ?_, fun i => rfl⟩
  have hzero : Counts.count (boot list).pc (BufPc.On i) = 0 := by
    refine Counts.count_eq_zero.mpr fun q hq => ?_
    rcases hq with hq | hq <;> cases hq
  rw [hzero]
  rfl

theorem boot_sorted (list : Links BufSlot) : (boot list).Sorted binitLru := by
  refine ⟨Bcache.binit_ordered _, fun i => binitLru.idxOf i, ?_, fun i _ => rfl⟩
  have hnodup : binitLru.Nodup := List.nodup_reverse.mpr (List.nodup_finRange NBUF)
  rw [List.pairwise_iff_getElem]
  intro m n hm hn hmn
  dsimp only
  rw [hnodup.idxOf_getElem, hnodup.idxOf_getElem]
  exact hmn

theorem Counted.bound (h : s.Counted) (i : BufSlot) : s.refcnt i + 1 < 2 ^ 32 := by
  have hcount : Counts.count s.pc (BufPc.On i) ≤ NPROC := by
    have hle := Counts.count_le_card (f := s.pc) (c := BufPc.On i)
    rwa [Fintype.card_fin] at hle
  rw [h.users]
  simp only [NPROC] at hcount
  split <;> omega

theorem Counted.pos (h : s.Counted) (hp : s.pc p = .releasing i) : 0 < s.refcnt i := by
  have hpos : 0 < Counts.count s.pc (BufPc.On i) := Counts.count_pos (p := p) (.inr hp)
  rw [h.users]
  omega

@[simp] theorem on_run (i : BufSlot) : ¬ BufPc.On i .run := by
  simp [BufPc.On]

@[simp] theorem on_waiting (i j : BufSlot) : BufPc.On i (.waiting j) ↔ j = i := by
  simp [BufPc.On]

@[simp] theorem on_releasing (i j : BufSlot) : BufPc.On i (.releasing j) ↔ j = i := by
  simp [BufPc.On]

/-- A process goes on; what this changes in the counts is made up for in the buffers. -/
theorem Counted.move {v : BufPc} (h : s.Counted) (hpc : t.pc = Function.update s.pc p v)
    (hlocked : ∀ i, (t.cache.buf i).locked = (t.holder i).isSome)
    (husers : ∀ i, t.refcnt i + (if (s.pc p).On i then 1 else 0) +
      (if (s.holder i).isSome then 1 else 0) =
      s.refcnt i + (if v.On i then 1 else 0) + if (t.holder i).isSome then 1 else 0) : t.Counted := by
  refine ⟨fun i => ?_, hlocked⟩
  have hcount := Counts.count_update (f := s.pc) (c := BufPc.On i) (p := p) (v := v)
  have hold := h.users i
  have hnew := husers i
  rw [hpc]
  omega

/-- A change that leaves the list as it is and makes no buffer free. -/
theorem Sorted.frame (h : s.Sorted order) (hlist : t.cache.list = s.cache.list)
    (hrel : t.releases = s.releases)
    (hfree : ∀ i, t.refcnt i = 0 → s.refcnt i = 0) : t.Sorted order := by
  obtain ⟨time, hsorted, htime⟩ := h.times
  refine ⟨⟨hlist ▸ h.ordered.ring, h.ordered.all⟩, time, hsorted, fun i hi => ?_⟩
  rw [htime i (hfree i hi), age, age, hrel]

theorem step_bget {a : BlockAddr} (h : s.Counted) (ho : s.Sorted order)
    (hstep : s.step (.bget p a) = some t) :
    t.Counted ∧ t.Sorted order := by
  simp only [step] at hstep
  split at hstep
  next hrun =>
    split at hstep
    next i c hret =>
      cases hstep
      obtain ⟨hbuf, hlock, href⟩ := Bcache.bget_effect ho.ordered hret
      have hother : ∀ j, j ≠ i → c.buf j = s.cache.buf j := by
        intro j hj
        rw [hbuf]
        exact Function.update_of_ne hj ..
      have hbound := h.bound i
      rw [refcnt] at hbound
      rw [Nat.mod_eq_of_lt hbound] at href
      constructor
      · refine h.move rfl (fun j => ?_) (fun j => ?_)
        · by_cases hj : j = i
          · subst hj
            exact hlock.trans (h.locked j)
          · simp only [hother j hj]
            exact h.locked j
        · by_cases hj : j = i
          · subst hj
            simp [refcnt, href, hrun]
          · simp [refcnt, hother j hj, hrun, Ne.symm hj]
      · refine ho.frame (by rw [hbuf]; rfl) rfl fun j hfree => ?_
        by_cases hj : j = i
        · subst hj
          simp [refcnt, href] at hfree
        · simpa [refcnt, hother j hj] using hfree
    next => cases hstep
  next => cases hstep

theorem Sorted.setBuf {b : Buf} (h : s.Sorted order) (hcache : t.cache = s.cache.setBuf i b)
    (hrel : t.releases = s.releases) (hb : b.refcnt = s.refcnt i) : t.Sorted order := by
  refine h.frame (by rw [hcache]; rfl) hrel fun j hfree => ?_
  unfold refcnt at *
  rw [hcache] at hfree
  by_cases hj : j = i
  · subst hj
    simpa [Bcache.setBuf, hb] using hfree
  · simpa [Bcache.setBuf, hj] using hfree

theorem step_acquiresleep (h : s.Counted) (ho : s.Sorted order)
    (hstep : s.step (.acquiresleep p) = some t) :
    t.Counted ∧ t.Sorted order := by
  simp only [step] at hstep
  split at hstep
  next i hpc =>
    split at hstep
    next => cases hstep
    next hlocked =>
      cases hstep
      have hfree : s.holder i = none := by simpa [h.locked i] using hlocked
      refine ⟨h.move rfl (fun j => ?_) (fun j => ?_), ho.setBuf rfl rfl rfl⟩
      · by_cases hj : j = i
        · simp [hj, Bcache.setBuf]
        · simpa [hj, Bcache.setBuf] using h.locked j
      · by_cases hj : j = i
        · simp [hj, refcnt, Bcache.setBuf, hpc, hfree]
        · simp [hj, refcnt, Bcache.setBuf, hpc, Ne.symm hj]
  next => cases hstep

theorem step_releasesleep (h : s.Counted) (ho : s.Sorted order)
    (hstep : s.step (.releasesleep p i) = some t) :
    t.Counted ∧ t.Sorted order := by
  obtain ⟨⟨hpc, hheld, _⟩, rfl⟩ := Runs.of_guard hstep
  refine ⟨h.move rfl (fun j => ?_) (fun j => ?_), ho.setBuf rfl rfl rfl⟩
  · by_cases hj : j = i
    · simp [hj, Bcache.setBuf]
    · simpa [hj, Bcache.setBuf] using h.locked j
  · by_cases hj : j = i
    · simp [hj, refcnt, Bcache.setBuf, hpc, hheld]
    · simp [hj, refcnt, Bcache.setBuf, hpc, Ne.symm hj]

theorem step_use {valid dirty : Bool} {data : DiskBlock} (h : s.Counted) (ho : s.Sorted order)
    (hstep : s.step (.use i valid dirty data) = some t) : t.Counted ∧ t.Sorted order := by
  cases hstep
  refine ⟨⟨fun j => ?_, fun j => ?_⟩, ho.setBuf rfl rfl rfl⟩
  · by_cases hj : j = i
    · simpa [hj, refcnt, Bcache.setBuf] using h.users i
    · simpa [hj, refcnt, Bcache.setBuf] using h.users j
  · by_cases hj : j = i
    · simpa [hj, Bcache.setBuf] using h.locked i
    · simpa [hj, Bcache.setBuf] using h.locked j

theorem age_release {j : BufSlot} (hrel : t.releases = i :: s.releases) :
    t.age j = if j = i then 0 else s.age j + 1 := by
  unfold age
  rw [hrel, List.cons_append]
  split
  next h => rw [h, List.idxOf_cons_self]
  next h => rw [List.idxOf_cons_ne _ (Ne.symm h)]

theorem Counted.put (h : s.Counted) (hpc : s.pc p = .releasing i) (hcache : t.cache = s.cache.put i)
    (hpc' : t.pc = Function.update s.pc p .run) (hholder : t.holder = s.holder) : t.Counted := by
  have hpos : 0 < s.refcnt i := h.pos hpc
  have hbound := h.bound i
  have hbuf := Bcache.put_buf (c := s.cache) hpos (by unfold refcnt at hbound; omega)
  refine h.move hpc' (fun j => ?_) (fun j => ?_)
  · rw [hcache, hbuf, hholder, ← h.locked j]
    by_cases hj : j = i
    · simp [hj]
    · simp [hj]
  · unfold refcnt at *
    rw [hcache, hbuf, hholder, hpc]
    by_cases hj : j = i
    · subst hj
      simp only [Function.update_self, on_releasing, if_true, on_run, if_false]
      omega
    · simp [hj, Ne.symm hj]

/-- The last user of a buffer is gone: it is the youngest one, and the first of the list. -/
theorem Sorted.put_last (h : s.Sorted order) (hlast : s.refcnt i = 1)
    (hcache : t.cache = s.cache.put i)
    (hrel : t.releases = i :: s.releases) : t.Sorted (i :: order.erase i) := by
  obtain ⟨time, hsorted, htime⟩ := h.times
  have hbuf : t.cache.buf = Function.update s.cache.buf i { s.cache.buf i with refcnt := 0 } := by
    rw [hcache, Bcache.put_last hlast]
  refine ⟨hcache ▸ h.ordered.put_last hlast, fun j => if j = i then 0 else time j + 1, ?_,
    fun j hfree => ?_⟩
  · have hne : ∀ j ∈ order.erase i, j ≠ i := by
      rintro j hj rfl
      exact h.ordered.ring.nodup.not_mem_erase hj
    refine List.pairwise_cons.mpr ⟨fun j hj => ?_, ?_⟩
    · simp [hne j hj]
    · refine (hsorted.sublist List.erase_sublist).imp_of_mem fun hj hk hlt => ?_
      simpa [hne _ hj, hne _ hk] using hlt
  · rw [age_release hrel]
    by_cases hj : j = i
    · simp [hj]
    · have hold : s.refcnt j = 0 := by simpa [refcnt, hbuf, hj] using hfree
      simp [hj, htime j hold]

theorem Sorted.put_more (h : s.Sorted order) (hmore : 1 < s.refcnt i) (hbound : s.refcnt i < 2 ^ 32)
    (hcache : t.cache = s.cache.put i) (hrel : t.releases = i :: s.releases) : t.Sorted order := by
  obtain ⟨time, hsorted, htime⟩ := h.times
  have hput := hcache.trans (Bcache.put_more hmore hbound)
  refine ⟨⟨?_, h.ordered.all⟩, fun j => time j + 1, ?_, fun j hfree => ?_⟩
  · rw [hput]
    exact h.ordered.ring
  · exact hsorted.imp fun hlt => Nat.succ_lt_succ hlt
  · unfold refcnt at *
    rw [hput] at hfree
    have hj : j ≠ i := by
      rintro rfl
      simp only [Bcache.setBuf, Function.update_self] at hfree
      omega
    have hold : (s.cache.buf j).refcnt = 0 := by simpa [Bcache.setBuf, hj] using hfree
    dsimp only
    rw [age_release hrel, if_neg hj, htime j hold]

theorem step_bput (h : s.Counted) (ho : s.Sorted order) (hstep : s.step (.bput p) = some t) :
    t.Counted ∧ ∃ order, t.Sorted order := by
  simp only [step] at hstep
  split at hstep
  next i hpc =>
    rw [show Bcache.bput i s.cache = (.ok ⟨⟩, s.cache.put i) from returns_modify] at hstep
    obtain rfl := Option.some.inj hstep
    have hpos : 0 < s.refcnt i := h.pos hpc
    have hbound := h.bound i
    refine ⟨h.put hpc rfl rfl rfl, ?_⟩
    by_cases hlast : s.refcnt i = 1
    · exact ⟨_, ho.put_last hlast rfl rfl⟩
    · exact ⟨_, ho.put_more (by omega) (by omega) rfl rfl⟩
  next => cases hstep

theorem step_inv (h : s.Counted ∧ ∃ order, s.Sorted order) (hstep : s.step e = some t) :
    t.Counted ∧ ∃ order, t.Sorted order := by
  obtain ⟨hc, order, ho⟩ := h
  cases e with
  | bget p a =>
    obtain ⟨hc', ho'⟩ := step_bget hc ho hstep
    exact ⟨hc', order, ho'⟩
  | acquiresleep p =>
    obtain ⟨hc', ho'⟩ := step_acquiresleep hc ho hstep
    exact ⟨hc', order, ho'⟩
  | releasesleep p i =>
    obtain ⟨hc', ho'⟩ := step_releasesleep hc ho hstep
    exact ⟨hc', order, ho'⟩
  | bput p => exact step_bput hc ho hstep
  | use i valid dirty data =>
    obtain ⟨hc', ho'⟩ := step_use hc ho hstep
    exact ⟨hc', order, ho'⟩

theorem Sorted.free_pairwise (h : s.Sorted order) :
    (order.filter fun i => s.refcnt i = 0).Pairwise fun i j => s.age i < s.age j := by
  obtain ⟨time, hsorted, htime⟩ := h.times
  refine (hsorted.sublist List.filter_sublist).imp_of_mem fun {i j} hi hj hlt => ?_
  have hi0 : s.refcnt i = 0 := by simpa using (List.mem_filter.mp hi).2
  have hj0 : s.refcnt j = 0 := by simpa using (List.mem_filter.mp hj).2
  rwa [htime i hi0, htime j hj0] at hlt

/-- The last recyclable buffer of the list is the oldest one. -/
theorem Sorted.victim (h : s.Sorted order)
    (hfind : order.reverse.find?
      (fun i => (s.cache.buf i).refcnt = 0 ∧ (s.cache.buf i).dirty = false) = some i) :
    s.cache.Recyclable i ∧ ∀ j, s.cache.Recyclable j → s.age j ≤ s.age i := by
  have hi : s.cache.Recyclable i := by simpa [Bcache.Recyclable] using List.find?_some hfind
  refine ⟨hi, fun j hj => ?_⟩
  obtain ⟨time, hsorted, htime⟩ := h.times
  obtain ⟨_, later, earlier, hsplit, hnone⟩ := List.find?_eq_some_iff_append.mp hfind
  have horder : order = earlier.reverse ++ i :: later.reverse := by
    have hrev := congrArg List.reverse hsplit
    simpa using hrev
  have hmem : j ∈ earlier.reverse ++ i :: later.reverse := horder ▸ h.ordered.all j
  rw [← htime i hi.1, ← htime j hj.1]
  rcases List.mem_append.mp hmem with hmem | hmem
  · rw [horder] at hsorted
    exact Nat.le_of_lt ((List.pairwise_append.mp hsorted).2.2 j hmem i List.mem_cons_self)
  · rcases List.mem_cons.mp hmem with rfl | hmem
    · exact Nat.le_refl _
    · have hbad := hnone j (List.mem_reverse.mp hmem)
      simp [hj.1, hj.2] at hbad

/-- Wherever bget and brelse have led since binit, the list has every buffer once, its free buffers
are in the order of their last releases, a miss takes the one that was released first, and the
release of the last user moves a buffer to the front. -/
theorem buffer_list_lru (list : Links BufSlot) (events : List BufEvent) (s : BufSys)
    (h : Runs.exec step (boot list) events = some s) :
    ∃ order : List BufSlot, Circular s.cache.list.next (none :: order.map some) ∧ order.Nodup ∧
      (∀ i, i ∈ order) ∧
      (∀ x, s.cache.list.prev (s.cache.list.next x) = x ∧ s.cache.list.next (s.cache.list.prev x) = x) ∧
      ((order.filter fun i => s.refcnt i = 0).Pairwise fun i j => s.age i < s.age j) ∧
      (∀ a, (∀ i, (s.cache.buf i).addr ≠ a) →
        (∃ i t, Returns (Bcache.bget a) s.cache i t ∧ (t.buf i).addr = a ∧ s.cache.Recyclable i ∧
            ∀ j, s.cache.Recyclable j → s.age j ≤ s.age i) ∨
          (∀ j, ¬ s.cache.Recyclable j) ∧ Bcache.bget a s.cache = (.error .bgetNoBuffers, s.cache)) ∧
      ∀ i, s.refcnt i = 1 → ∃ t, Returns (Bcache.bput i) s.cache ⟨⟩ t ∧ (t.buf i).refcnt = 0 ∧
        t.list.Ring (i :: order.erase i) := by
  have hinv : s.Counted ∧ ∃ order, s.Sorted order :=
    Runs.invariant (I := fun s => s.Counted ∧ ∃ order, s.Sorted order)
      ⟨boot_counted list, binitLru, boot_sorted list⟩ (fun _ _ _ ht hstep => step_inv ht hstep) h
  obtain ⟨_, order, ho⟩ := hinv
  have hring := ho.ordered.ring
  have hall : ∀ x, x ∈ Links.nodes order := by
    intro x
    cases x with
    | none => exact Links.none_mem_nodes
    | some i => exact Links.some_mem_nodes.mpr (ho.ordered.all i)
  refine ⟨order, hring.circular, hring.nodup, ho.ordered.all,
    fun x => ⟨hring.inverse x (hall x), hring.next_prev (hall x)⟩, ho.free_pairwise,
    fun a hmiss => ?_, fun i hlast => ?_⟩
  · cases hfind : order.reverse.find? fun i => (s.cache.buf i).refcnt = 0 ∧
      (s.cache.buf i).dirty = false with
    | some i =>
      obtain ⟨hi, hold⟩ := ho.victim hfind
      exact .inl ⟨i, _, Bcache.bget_miss ho.ordered hmiss hfind, by simp [Bcache.setBuf], hi, hold⟩
    | none =>
      have hnone : ∀ j, ¬ s.cache.Recyclable j := ho.ordered.no_victim_iff.mp hfind
      exact .inr ⟨hnone, Bcache.bget_none ho.ordered hmiss hnone⟩
  · refine ⟨s.cache.put i, returns_modify, ?_, (ho.ordered.put_last hlast).ring⟩
    rw [Bcache.put_last hlast]
    simp

/-- A block is read and released, and the next block takes another buffer. -/
theorem buffer_list_lru_two : ∃ s : BufSys,
    Runs.exec step (boot ⟨fun x => x, fun x => x⟩)
      [.bget 0 (1, 5), .acquiresleep 0, .releasesleep 0 0, .bput 0, .bget 0 (1, 6)] = some s ∧
    ∃ order : List BufSlot, Circular s.cache.list.next (none :: order.map some) ∧ order.Nodup ∧
      ∀ i, i ∈ order := by
  obtain ⟨s, hs⟩ := Option.isSome_iff_exists.mp
    (show (Runs.exec step (boot ⟨fun x => x, fun x => x⟩)
    [.bget 0 (1, 5), .acquiresleep 0, .releasesleep 0 0, .bput 0,
      .bget 0 (1, 6)]).isSome from by decide +kernel)
  obtain ⟨order, hcirc, hnodup, hall, _⟩ := buffer_list_lru _ _ s hs
  exact ⟨s, hs, order, hcirc, hnodup, hall⟩

end BufSys

end Xv6
