import Xv6.BioSpec
import Xv6.Log
import Xv6.Writes

namespace Xv6

/-- No process holds a buffer. -/
def Store.Idle (s : Store) : Prop := ∀ i, (s.buf i).refcnt = 0

/-- How the store u has come from s: the cache shows f, the log is l, the blocks of ws were
written and the buffers of the list are in use. -/
structure Store.After (s u : Store) (l : Log) (f : Disk) (ws : List (BlockAddr × DiskBlock))
    (held : List BufSlot) : Prop where
  coherent : u.Coherent
  shown : u.Shows f
  disk : u.disk = Writes.apply s.disk ws
  issued : u.issued = s.issued ++ ws
  log : u.log = l
  given : u.given = s.given
  dirty : ∀ c, u.DirtyAt c ↔ s.DirtyAt c ∧ c ∉ ws.map Prod.fst
  pinned : s.Idle → ∀ k, (u.buf k).refcnt = held.count k

/-- A process holds the buffer's lock, with these contents. -/
structure Store.Holds (u : Store) (i : BufSlot) (a : BlockAddr) (v : DiskBlock) : Prop where
  addr : (u.buf i).addr = a
  valid : (u.buf i).valid = true
  locked : (u.buf i).locked = true
  data : (u.buf i).data = v

theorem Store.after_refl {s : Store} {f : Disk} (hs : s.Coherent) (hf : s.Shows f) :
    s.After s s.log f [] [] :=
  ⟨hs, hf, rfl, by simp, rfl, rfl, by simp, fun h k => by simpa using h k⟩

theorem Store.Holds.frame {u t : Store} {i : BufSlot} {a : BlockAddr} {v : DiskBlock}
    (h : u.Holds i a v) (he : t.buf i = u.buf i) : t.Holds i a v :=
  ⟨by rw [he, h.addr], by rw [he, h.valid], by rw [he, h.locked], by rw [he, h.data]⟩

/-- The same blocks are cached with the same contents. -/
structure Store.Same (u t : Store) : Prop where
  disk : t.disk = u.disk
  addr : ∀ k, (t.buf k).addr = (u.buf k).addr
  valid : ∀ k, (t.buf k).valid = (u.buf k).valid
  dirty : ∀ k, (t.buf k).dirty = (u.buf k).dirty
  data : ∀ k, (t.buf k).data = (u.buf k).data

theorem Store.Same.shows {u t : Store} (h : u.Same t) {f : Disk} (hf : u.Shows f) : t.Shows f := by
  intro a ha
  simpa [h.disk, h.addr, h.valid, h.data] using hf a ha

theorem Store.Same.dirtyAt {u t : Store} (h : u.Same t) (c : BlockAddr) :
    t.DirtyAt c ↔ u.DirtyAt c := by
  simp [Store.DirtyAt, h.addr, h.dirty]

theorem Store.same_setBuf {u : Store} {i : BufSlot} {b : Buf} (haddr : b.addr = (u.buf i).addr)
    (hvalid : b.valid = (u.buf i).valid) (hdirty : b.dirty = (u.buf i).dirty)
    (hdata : b.data = (u.buf i).data) :
    u.Same (u.setBuf i b) := by
  have hcase : ∀ {β : Type} (g : Buf → β), g b = g (u.buf i) →
      ∀ k, g ((u.setBuf i b).buf k) = g (u.buf k) := by
    intro β g hg k
    by_cases hk : k = i
    · subst hk
      simpa using hg
    · simp [Function.update_of_ne hk]
  exact ⟨rfl, hcase Buf.addr haddr, hcase Buf.valid hvalid, hcase Buf.dirty hdirty,
    hcase Buf.data hdata⟩

section

variable {s u : Store} {l : Log} {f : Disk} {ws : List (BlockAddr × DiskBlock)}
  {held : List BufSlot}
  {a : BlockAddr} {v w : DiskBlock} {i : BufSlot}

theorem bread_after (h : s.After u l f ws held) (ha : a.1 ≠ 0) :
    (bread a).wp (fun i t => s.After t l f ws (i :: held) ∧ t.Holds i a (f a) ∧
        ∀ k c v, u.Holds k c v → k ≠ i ∧ t.Holds k c v)
      (fun _ t => t.issued = u.issued ∧ ¬ u.Available a) u := by
  refine Prog.wp_imp (bread_spec h.coherent h.shown ha) ?_
  rintro i t ⟨b, rfl, hb⟩
  refine ⟨?_, ?_, ?_⟩
  · refine ⟨hb.coherent h.coherent h.shown ha, hb.shows h.coherent h.shown ha, h.disk, h.issued,
      h.log, h.given, fun c => (hb.dirtyAt c).trans (h.dirty c), fun hidle k => ?_⟩
    by_cases hk : k = i
    · subst hk
      have hold := h.pinned hidle k
      simp only [Store.setBuf_buf, Function.update_self, List.count_cons_self]
      rcases hb.origin with ⟨_, _, hr⟩ | ⟨_, hzero, _, _, hr⟩ <;> omega
    · simpa [Function.update_of_ne hk, List.count_cons_of_ne (Ne.symm hk)] using h.pinned hidle k
  · exact ⟨by simp [hb.addr], by simp [hb.valid], by simp [hb.locked], by simp [hb.data]⟩
  · intro k c v hk
    have hki : k ≠ i := by
      rintro rfl
      exact absurd hk.locked (by simp [hb.unlocked])
    exact ⟨hki, hk.frame (by simp [Function.update_of_ne hki])⟩

theorem available_of_room (h : s.After u l f ws held) (hidle : s.Idle) (hr : a.2 < FSSIZE)
    (hheld : ∀ k ∈ held, (u.buf k).addr ≠ a)
    (hroom : u.DirtyAt a ∨ ∃ k, k ∉ held ∧ (u.buf k).dirty = false) : u.Available a := by
  have hzero : ∀ k, k ∉ held → (u.buf k).refcnt = 0 := fun k hk => by
    rw [h.pinned hidle k, List.count_eq_zero.mpr hk]
  refine ⟨hr, fun k hk => h.coherent.free k (hzero k fun hm => hheld k hm hk), ?_⟩
  rcases hroom with ⟨k, hk, _⟩ | ⟨k, hk, hd⟩
  · exact Or.inl ⟨k, hk⟩
  · exact Or.inr ⟨k, hzero k hk, hd⟩

/-- The store when the disk has taken new contents of a buffer. -/
def Store.stored (u : Store) (i : BufSlot) (v : DiskBlock) : Store :=
  { u.setBuf i { u.buf i with valid := true, dirty := false, data := v } with
    disk := Function.update u.disk (u.buf i).addr v
    issued := u.issued ++ [((u.buf i).addr, v)] }

theorem bwrite_stored {Q : Unit → Store → Prop} {E : Halt → Store → Prop}
    (hl : (u.buf i).locked = true) (hr : (u.buf i).addr.2 < FSSIZE) (hq : Q ⟨⟩ (u.stored i v)) :
    (do setData i v; bwrite i : Bio Unit).wp Q E u := by
  simp only [Prog.wp_bind, setData, Prog.wp_modify, bwrite, Prog.wp_get, Store.setBuf_buf,
    Function.update_self,
    Store.setBuf_setBuf, hl, Bool.true_eq_false, if_false, Prog.wp_set, iderw, and_false,
    Nat.not_le.mpr hr, if_true]
  simpa [Store.stored, Store.setBuf, hl] using hq

theorem stored_other {k : BufSlot} (hk : k ≠ i) : (u.stored i v).buf k = u.buf k := by
  simp [Store.stored, Function.update_of_ne hk]

theorem stored_self : (u.stored i v).buf i =
    { u.buf i with valid := true, dirty := false, data := v } := by
  simp [Store.stored]

theorem stored_addr (k : BufSlot) : ((u.stored i v).buf k).addr = (u.buf k).addr := by
  by_cases hk : k = i
  · subst hk
    rw [stored_self]
  · rw [stored_other hk]

theorem Store.Coherent.ne_addr (hu : u.Coherent) (haddr : (u.buf i).addr = a) (ha : a.1 ≠ 0)
    {k : BufSlot} (hk : k ≠ i) : (u.buf k).addr ≠ a :=
  fun he => hk (hu.unique k i (he.trans haddr.symm) (by rw [he]; exact ha))

theorem stored_forall {P : Buf → Prop}
    (hi : P { u.buf i with valid := true, dirty := false, data := v })
    (ho : ∀ k, k ≠ i → P (u.buf k)) (k : BufSlot) : P ((u.stored i v).buf k) := by
  by_cases hk : k = i
  · subst hk
    rw [stored_self]
    exact hi
  · rw [stored_other hk]
    exact ho k hk

theorem stored_coherent (hu : u.Coherent) (hi : u.Holds i a w) (ha : a.1 ≠ 0) :
    (u.stored i v).Coherent where
  listed := hu.listed
  unique j k hjk hdev := by
    rw [stored_addr] at hjk hdev
    rw [stored_addr] at hjk
    exact hu.unique j k hjk hdev
  clean := by
    refine stored_forall (P := fun b =>
      b.valid → b.dirty = false → b.data = (u.stored i v).disk b.addr) ?_ ?_
    · simp [Store.stored]
    · intro k hk hv hd
      have hne := hu.ne_addr hi.addr ha hk
      simpa [Store.stored, hi.addr, Function.update_of_ne hne] using hu.clean k hv hd
  dirtyValid := stored_forall (P := fun b => b.dirty → b.valid) (by simp) fun k _ => hu.dirtyValid k
  inRange := stored_forall (P := fun b => b.valid → b.addr.2 < FSSIZE)
    (fun _ => hu.inRange i hi.valid)
    fun k _ => hu.inRange k
  free := stored_forall (P := fun b => b.refcnt = 0 → b.locked = false) (hu.free i) fun k _ =>
    hu.free k

theorem Store.Shows.write {t : Store} (hu : u.Coherent) (hf : u.Shows f)
    (haddr : (u.buf i).addr = a) (ha : a.1 ≠ 0)
    (hself : (t.buf i).addr = a ∧ (t.buf i).valid = true ∧ (t.buf i).data = v)
    (hother : ∀ k, k ≠ i → t.buf k = u.buf k) (hdisk : ∀ c, c ≠ a → t.disk c = u.disk c) :
    t.Shows (Function.update f a v) := by
  intro c hc
  constructor
  · intro k hk hv
    by_cases hki : k = i
    · subst hki
      rw [← hk, hself.1, hself.2.2, Function.update_self]
    · rw [hother k hki] at hk hv ⊢
      have hne := hu.ne_addr haddr ha hki
      rw [hk] at hne
      rw [Function.update_of_ne hne]
      exact (hf c hc).1 k hk hv
  · intro hnone
    have hca : c ≠ a := by
      rintro rfl
      exact absurd hself.2.1 (by simp [hnone i hself.1])
    rw [hdisk c hca, Function.update_of_ne hca]
    refine (hf c hc).2 fun k hk => ?_
    have hki : k ≠ i := by
      rintro rfl
      exact hca (hk.symm.trans haddr)
    rw [← hother k hki]
    exact hnone k (by rw [hother k hki, hk])

theorem stored_shows (hu : u.Coherent) (hf : u.Shows f) (hi : u.Holds i a w) (ha : a.1 ≠ 0) :
    (u.stored i v).Shows (Function.update f a v) := by
  refine hf.write hu hi.addr ha ?_ (fun k hk => stored_other hk) fun c hc => ?_
  · simp [stored_self, hi.addr]
  · simp [Store.stored, hi.addr, Function.update_of_ne hc]

theorem stored_dirtyAt (hu : u.Coherent) (hi : u.Holds i a w) (ha : a.1 ≠ 0) (c : BlockAddr) :
    (u.stored i v).DirtyAt c ↔ u.DirtyAt c ∧ c ≠ a := by
  have haddr := hi.addr
  constructor
  · rintro ⟨k, hk, hd⟩
    have hki : k ≠ i := by
      rintro rfl
      simp [stored_self] at hd
    rw [stored_other hki] at hk hd
    exact ⟨⟨k, hk, hd⟩, fun hca => hu.ne_addr haddr ha hki (hk.trans hca)⟩
  · rintro ⟨⟨k, hk, hd⟩, hca⟩
    have hki : k ≠ i := by
      rintro rfl
      exact hca (hk.symm.trans haddr)
    exact ⟨k, by rw [stored_other hki]; exact hk, by rw [stored_other hki]; exact hd⟩

theorem bwrite_after (h : s.After u l f ws held) (ha : a.1 ≠ 0) (hi : u.Holds i a w) :
    (do setData i v; bwrite i : Bio Unit).wp
      (fun _ t => s.After t l (Function.update f a v) (ws ++ [(a, v)]) held ∧ t.Holds i a v ∧
        ∀ k c w, k ≠ i → u.Holds k c w → t.Holds k c w) (fun _ _ => False) u := by
  have haddr := hi.addr
  refine bwrite_stored hi.locked (h.coherent.inRange i hi.valid) ⟨?_, ?_, ?_⟩
  · refine ⟨stored_coherent h.coherent hi ha, stored_shows h.coherent h.shown hi ha, ?_, ?_, h.log,
      h.given, ?_, ?_⟩
    · rw [Writes.apply_snoc, ← h.disk, ← haddr]
      rfl
    · rw [← List.append_assoc, ← h.issued, ← haddr]
      rfl
    · intro c
      rw [stored_dirtyAt h.coherent hi ha, h.dirty c]
      simp only [List.map_append, List.map_cons, List.map_nil, List.mem_append, List.mem_singleton, not_or]
      tauto
    · intro hidle k
      rw [← h.pinned hidle k]
      by_cases hk : k = i
      · subst hk
        rw [stored_self]
      · rw [stored_other hk]
  · exact ⟨by rw [stored_addr, haddr], by rw [stored_self], by rw [stored_self]; exact hi.locked,
      by rw [stored_self]⟩
  · intro k c w hk hold
    exact hold.frame (stored_other hk)

theorem mem_front_of_mem {k : BufSlot} {lru : List BufSlot} (h : k ∈ lru) :
    k ∈ i :: lru.erase i := by
  by_cases hk : k = i
  · simp [hk]
  · exact List.mem_cons_of_mem _ ((List.mem_erase_of_ne hk).mpr h)

theorem brelse_spec {Q : Unit → Store → Prop} {E : Halt → Store → Prop}
    (hl : (u.buf i).locked = true)
    (hq : ∀ lru, (∀ k, k ∈ u.lru → k ∈ lru) →
      Q ⟨⟩ { u.setBuf i { u.buf i with locked := false, refcnt := (u.buf i).refcnt - 1 } with lru := lru }) :
    (brelse i).wp Q E u := by
  simp only [brelse, Prog.wp_bind, Prog.wp_get, hl, Bool.true_eq_false, if_false,
    releasesleep, bput,
    Prog.wp_modify, Store.setBuf_buf, Function.update_self, Store.setBuf_setBuf, Store.setBuf_lru,
    Function.update_idem]
  split
  next => exact hq _ fun k hk => mem_front_of_mem hk
  next => exact hq u.lru fun k hk => hk

theorem brelse_after (h : s.After u l f ws held) (hi : u.Holds i a w) (ha : a.1 ≠ 0) :
    (brelse i).wp (fun _ t =>
      s.After t l f ws (held.erase i) ∧ ∀ k c w, k ≠ i → u.Holds k c w → t.Holds k c w)
      (fun _ _ => False) u := by
  refine brelse_spec hi.locked fun lru hlru => ?_
  have hset := h.coherent.setBuf (i := i)
    (b := { u.buf i with locked := false, refcnt := (u.buf i).refcnt - 1 })
    (fun _ k hk => by rw [hi.addr]; exact h.coherent.ne_addr hi.addr ha hk)
    (h.coherent.clean i) (h.coherent.dirtyValid i) (h.coherent.inRange i) fun _ => rfl
  have hsame := Store.same_setBuf (u := u) (i := i)
    (b := { u.buf i with locked := false, refcnt := (u.buf i).refcnt - 1 }) rfl rfl rfl rfl
  refine ⟨⟨{ hset with listed := fun k => hlru k (h.coherent.listed k) }, hsame.shows h.shown,
    h.disk, h.issued,
    h.log, h.given, fun c => (hsame.dirtyAt c).trans (h.dirty c), fun hidle k => ?_⟩, ?_⟩
  · have hold := h.pinned hidle k
    by_cases hk : k = i
    · subst hk
      simp only [Store.setBuf_buf, Function.update_self, List.count_erase_self]
      omega
    · simpa [Function.update_of_ne hk, List.count_erase_of_ne hk] using hold
  · intro k c w hk hold
    exact hold.frame (by simp [Function.update_of_ne hk])

end

end Xv6
