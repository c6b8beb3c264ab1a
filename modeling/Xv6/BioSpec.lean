import Xv6.Bio

namespace Xv6

/-- What the buffer cache keeps at every point where no request is half done. -/
structure Store.Coherent (s : Store) : Prop where
  listed : ∀ i, i ∈ s.lru
  unique : ∀ i j, (s.buf i).addr = (s.buf j).addr → (s.buf i).addr.1 ≠ 0 → i = j
  clean : ∀ i, (s.buf i).valid → (s.buf i).dirty = false → (s.buf i).data = s.disk (s.buf i).addr
  dirtyValid : ∀ i, (s.buf i).dirty → (s.buf i).valid
  inRange : ∀ i, (s.buf i).valid → (s.buf i).addr.2 < FSSIZE
  free : ∀ i, (s.buf i).refcnt = 0 → (s.buf i).locked = false

/-- Readers of the cache see the contents f. -/
def Store.Shows (s : Store) (f : Disk) : Prop :=
  ∀ a, a.1 ≠ 0 → (∀ i, (s.buf i).addr = a → (s.buf i).valid → (s.buf i).data = f a) ∧
    ((∀ i, (s.buf i).addr = a → (s.buf i).valid = false) → s.disk a = f a)

def Store.DirtyAt (s : Store) (a : BlockAddr) : Prop :=
  ∃ i, (s.buf i).addr = a ∧ (s.buf i).dirty

/-- A bread of the block finds its buffer unlocked, or a buffer that it may recycle. -/
def Store.Available (s : Store) (a : BlockAddr) : Prop :=
  a.2 < FSSIZE ∧ (∀ i, (s.buf i).addr = a → (s.buf i).locked = false) ∧
    ((∃ i, (s.buf i).addr = a) ∨ ∃ i, (s.buf i).refcnt = 0 ∧ (s.buf i).dirty = false)

/-- The buffer that bread hands out, and what was there before. -/
structure Store.Handed (s : Store) (a : BlockAddr) (data : DiskBlock) (i : BufSlot) (b : Buf) :
    Prop where
  addr : b.addr = a
  valid : b.valid = true
  locked : b.locked = true
  data : b.data = data
  origin : ((s.buf i).addr = a ∧ b.dirty = (s.buf i).dirty ∧ b.refcnt = (s.buf i).refcnt + 1) ∨
    ((∀ j, (s.buf j).addr ≠ a) ∧ (s.buf i).refcnt = 0 ∧ (s.buf i).dirty = false ∧ b.dirty = false ∧
      b.refcnt = 1)
  unlocked : (s.buf i).locked = false
  inRange : a.2 < FSSIZE

@[simp] theorem Store.setBuf_buf (s : Store) (i : BufSlot) (b : Buf) :
    (s.setBuf i b).buf = Function.update s.buf i b := rfl

@[simp] theorem Store.setBuf_disk (s : Store) (i : BufSlot) (b : Buf) :
    (s.setBuf i b).disk = s.disk := rfl

@[simp] theorem Store.setBuf_lru (s : Store) (i : BufSlot) (b : Buf) :
    (s.setBuf i b).lru = s.lru := rfl

@[simp] theorem Store.setBuf_log (s : Store) (i : BufSlot) (b : Buf) :
    (s.setBuf i b).log = s.log := rfl

@[simp] theorem Store.setBuf_issued (s : Store) (i : BufSlot) (b : Buf) :
    (s.setBuf i b).issued = s.issued := rfl

@[simp] theorem Store.setBuf_given (s : Store) (i : BufSlot) (b : Buf) :
    (s.setBuf i b).given = s.given := rfl

@[simp] theorem Store.setBuf_setBuf (s : Store) (i : BufSlot) (b c : Buf) :
    (s.setBuf i b).setBuf i c = s.setBuf i c := by
  simp [Store.setBuf]

theorem Store.lookup_some {s : Store} {a : BlockAddr} {i : BufSlot} (h : s.lookup a = some i) :
    (s.buf i).addr = a := by
  simpa using List.find?_some h

theorem Store.lookup_none {s : Store} {a : BlockAddr} (hs : s.Coherent) (h : s.lookup a = none)
    (i : BufSlot) :
    (s.buf i).addr ≠ a := by
  simpa using List.find?_eq_none.mp h i (hs.listed i)

theorem Store.victim_some {s : Store} {i : BufSlot} (h : s.victim = some i) :
    (s.buf i).refcnt = 0 ∧ (s.buf i).dirty = false := by
  simpa using List.find?_some h

theorem Store.victim_none {s : Store} (hs : s.Coherent) (h : s.victim = none) (i : BufSlot) :
    ¬ ((s.buf i).refcnt = 0 ∧ (s.buf i).dirty = false) := by
  simpa using List.find?_eq_none.mp h i (by simpa using hs.listed i)

theorem bfill_spec {s : Store} {i : BufSlot} {Q : Unit → Store → Prop} {E : Halt → Store → Prop}
    (hlock : (s.buf i).locked = true) (hd : (s.buf i).valid = false → (s.buf i).dirty = false)
    (hhit : (s.buf i).valid = true → Q ⟨⟩ s)
    (hread : (s.buf i).valid = false → (s.buf i).addr.2 < FSSIZE →
      Q ⟨⟩ (s.setBuf i { s.buf i with valid := true, data := s.disk (s.buf i).addr }))
    (hbad : (s.buf i).valid = false → FSSIZE ≤ (s.buf i).addr.2 → E (.panic .incorrectBlockno) s) :
    (bfill i).wp Q E s := by
  simp only [bfill, Prog.wp_bind, Prog.wp_get]
  by_cases hv : (s.buf i).valid
  · simpa [hv] using hhit hv
  · simp only [Bool.not_eq_true] at hv
    have hclean := hd hv
    simp only [hv, if_true, iderw, Prog.wp_bind, Prog.wp_get, hlock, hclean, Bool.true_eq_false,
      Bool.false_eq_true, false_and, if_false]
    refine Prog.wp_ite (fun hbig => hbad hv hbig) (fun hsmall => ?_)
    simpa [hlock, hclean] using hread hv (by omega)

theorem bread_slot_spec {s : Store} {a : BlockAddr} {f : Disk} {i : BufSlot} {b : Buf}
    (haddr : b.addr = a) (hlocked : b.locked = (s.buf i).locked)
    (hdirty : b.valid = false → b.dirty = false) (hvalid : b.valid = true → b.data = f a)
    (hrange : b.valid = true → a.2 < FSSIZE) (hdisk : b.valid = false → s.disk a = f a)
    (hlock : s.Available a → (s.buf i).locked = false)
    (horigin : ((s.buf i).addr = a ∧ b.dirty = (s.buf i).dirty ∧ b.refcnt = (s.buf i).refcnt + 1) ∨
      ((∀ j, (s.buf j).addr ≠ a) ∧ (s.buf i).refcnt = 0 ∧ (s.buf i).dirty = false ∧ b.dirty = false ∧
        b.refcnt = 1)) :
    (do acquiresleep i; bfill i; return i : Bio BufSlot).wp
      (fun i t => ∃ b, t = s.setBuf i b ∧ s.Handed a (f a) i b)
      (fun _ t => t.issued = s.issued ∧ ¬ s.Available a) (s.setBuf i b) := by
  simp only [acquiresleep, Prog.wp_bind, Prog.wp_get, Store.setBuf_buf, Function.update_self,
    hlocked, Store.setBuf_setBuf]
  by_cases hl : (s.buf i).locked
  · simp only [hl, if_true, Prog.wp_throw]
    refine ⟨rfl, fun hav => ?_⟩
    simp [hlock hav] at hl
  · simp only [Bool.not_eq_true] at hl
    simp only [hl, Bool.false_eq_true, if_false, Prog.wp_set]
    refine bfill_spec (by simp) (by simpa using hdirty) ?_ ?_ ?_
    · intro hv
      simp only [Store.setBuf_buf, Function.update_self] at hv
      exact ⟨_, rfl, haddr, hv, rfl, hvalid hv, horigin, hl, hrange hv⟩
    · intro hv hsmall
      simp only [Store.setBuf_buf, Function.update_self, haddr] at hv hsmall
      refine ⟨_, Store.setBuf_setBuf .., ?_⟩
      simp only [Store.setBuf_buf, Function.update_self, Store.setBuf_disk]
      exact ⟨haddr, rfl, rfl, by rw [haddr]; exact hdisk hv, horigin, hl, hsmall⟩
    · intro hv hbig
      simp only [Store.setBuf_buf, Function.update_self, haddr] at hbig
      exact ⟨rfl, fun hav => absurd hav.1 (by omega)⟩

/-- bread changes only the buffer it hands out, whose data is what the cache shows. -/
theorem bread_spec {s : Store} {a : BlockAddr} {f : Disk} (hs : s.Coherent) (hf : s.Shows f)
    (ha : a.1 ≠ 0) :
    (bread a).wp (fun i t => ∃ b, t = s.setBuf i b ∧ s.Handed a (f a) i b)
      (fun _ t => t.issued = s.issued ∧ ¬ s.Available a) s := by
  simp only [bread, bget, bgetSlot, Prog.wp_bind, Prog.wp_get]
  cases hl : s.lookup a with
  | some i =>
    have haddr := Store.lookup_some hl
    have hother : ∀ j, (s.buf j).addr = a → j = i := fun j hj =>
      hs.unique j i (hj.trans haddr.symm) (by rw [hj]; exact ha)
    have hdirty : (s.buf i).valid = false → (s.buf i).dirty = false := by
      intro hv
      by_contra hd
      simp [hs.dirtyValid i (by simpa using hd)] at hv
    simp only [Prog.wp_bind, Prog.wp_set, Prog.wp_pure]
    have h := bread_slot_spec (i := i) (f := f)
      (b := { s.buf i with refcnt := (s.buf i).refcnt + 1 }) haddr
      rfl hdirty ((hf a ha).1 i haddr) (fun hv => haddr ▸ hs.inRange i hv)
      (fun hv => (hf a ha).2 fun j hj => by rw [hother j hj]; exact hv)
      (fun hav => hav.2.1 i haddr) (Or.inl ⟨haddr, rfl, rfl⟩)
    simpa only [Prog.wp_bind, Prog.wp_pure] using h
  | none =>
    have hnone := Store.lookup_none hs hl
    cases hv : s.victim with
    | some i =>
      obtain ⟨href, hclean⟩ := Store.victim_some hv
      simp only [Prog.wp_bind, Prog.wp_set, Prog.wp_pure]
      have h := bread_slot_spec (i := i) (f := f)
        (b := { s.buf i with addr := a, valid := false, dirty := false, refcnt := 1 }) rfl rfl (fun _ => rfl)
        (by simp) (by simp) (fun _ => (hf a ha).2 fun j hj => absurd hj (hnone j)) (fun _ => hs.free i href)
        (Or.inr ⟨hnone, href, hclean, rfl, rfl⟩)
      simpa only [Prog.wp_bind, Prog.wp_pure] using h
    | none =>
      simp only [Prog.wp_throw, true_and]
      intro hav
      rcases hav.2.2 with ⟨i, hi⟩ | ⟨i, hi⟩
      · exact hnone i hi
      · exact Store.victim_none hs hv i hi

theorem Store.Shows.of_clean {s : Store} {f : Disk} {a : BlockAddr} (hs : s.Coherent)
    (hf : s.Shows f) (ha : a.1 ≠ 0) (hd : ¬ s.DirtyAt a) : f a = s.disk a := by
  by_cases hv : ∃ i, (s.buf i).addr = a ∧ (s.buf i).valid = true
  · obtain ⟨i, haddr, hv⟩ := hv
    have hclean : (s.buf i).dirty = false := by
      by_contra hdirty
      exact hd ⟨i, haddr, by simpa using hdirty⟩
    rw [← (hf a ha).1 i haddr hv, hs.clean i hv hclean, haddr]
  · exact ((hf a ha).2 fun i haddr => by simpa [haddr] using fun h => hv ⟨i, haddr, h⟩).symm

theorem Store.Coherent.setBuf {s : Store} {i : BufSlot} {b : Buf} (hs : s.Coherent)
    (hne : b.addr.1 ≠ 0 → ∀ j, j ≠ i → (s.buf j).addr ≠ b.addr)
    (hclean : b.valid → b.dirty = false → b.data = s.disk b.addr) (hdirty : b.dirty → b.valid)
    (hrange : b.valid → b.addr.2 < FSSIZE) (hfree : b.refcnt = 0 → b.locked = false) :
    (s.setBuf i b).Coherent := by
  have hcase : ∀ P : Buf → Prop, P b → (∀ j, P (s.buf j)) → ∀ j, P ((s.setBuf i b).buf j) := by
    intro P hb ho j
    by_cases hj : j = i
    · subst hj
      simpa using hb
    · simpa [Function.update_of_ne hj] using ho j
  refine ⟨hs.listed, ?_, ?_, ?_, ?_, ?_⟩
  · intro j k hjk hdev
    simp only [setBuf_buf] at hjk hdev
    by_cases hj : j = i
    · subst hj
      by_contra hk
      simp only [Function.update_self, Function.update_of_ne (Ne.symm hk)] at hjk hdev
      exact hne hdev k (Ne.symm hk) hjk.symm
    · by_cases hk : k = i
      · subst hk
        simp only [Function.update_self, Function.update_of_ne hj] at hjk hdev
        exact absurd hjk (hne (by rwa [← hjk]) j hj)
      · simp only [Function.update_of_ne hj, Function.update_of_ne hk] at hjk hdev
        exact hs.unique j k hjk hdev
  · exact hcase (fun c => c.valid → c.dirty = false → c.data = s.disk c.addr) hclean hs.clean
  · exact hcase (fun c => c.dirty → c.valid) hdirty hs.dirtyValid
  · exact hcase (fun c => c.valid → c.addr.2 < FSSIZE) hrange hs.inRange
  · exact hcase (fun c => c.refcnt = 0 → c.locked = false) hfree hs.free

section Handed

variable {s : Store} {a c : BlockAddr} {f : Disk} {i : BufSlot} {b : Buf}

theorem Store.Handed.dirtyAt (h : s.Handed a (f a) i b) (c : BlockAddr) :
    (s.setBuf i b).DirtyAt c ↔ s.DirtyAt c := by
  constructor
  · rintro ⟨j, haddr, hd⟩
    by_cases hj : j = i
    · subst hj
      simp only [setBuf_buf, Function.update_self] at haddr hd
      rcases h.origin with ⟨ho, hdo, _⟩ | ⟨_, _, _, hdo, _⟩
      · exact ⟨j, by rw [ho, ← haddr, h.addr], by rw [← hdo]; exact hd⟩
      · simp [hdo] at hd
    · simp only [setBuf_buf, Function.update_of_ne hj] at haddr hd
      exact ⟨j, haddr, hd⟩
  · rintro ⟨j, haddr, hd⟩
    by_cases hj : j = i
    · subst hj
      rcases h.origin with ⟨ho, hdo, _⟩ | ⟨_, _, hclean, _, _⟩
      · exact ⟨j, by simp [h.addr, ← haddr, ho], by simpa [hdo] using hd⟩
      · simp [hclean] at hd
    · exact ⟨j, by simpa [Function.update_of_ne hj] using haddr,
        by simpa [Function.update_of_ne hj] using hd⟩

theorem Store.Handed.ne_addr (h : s.Handed a (f a) i b) (hs : s.Coherent) (ha : a.1 ≠ 0)
    {j : BufSlot} (hj : j ≠ i) : (s.buf j).addr ≠ a := by
  intro haddr
  rcases h.origin with ⟨ho, _⟩ | ⟨hnone, _⟩
  · exact hj (hs.unique j i (haddr.trans ho.symm) (by rw [haddr]; exact ha))
  · exact hnone j haddr

theorem Store.Handed.coherent (h : s.Handed a (f a) i b) (hs : s.Coherent) (hf : s.Shows f)
    (ha : a.1 ≠ 0) :
    (s.setBuf i b).Coherent := by
  refine hs.setBuf ?_ ?_ (fun _ => h.valid) (fun _ => by rw [h.addr]; exact h.inRange) ?_
  · intro _ j hj
    rw [h.addr]
    exact h.ne_addr hs ha hj
  · intro _ hd
    rw [h.data, h.addr]
    refine hf.of_clean hs ha fun ⟨k, hk, hdk⟩ => ?_
    rcases h.origin with ⟨ho, hdo, _⟩ | ⟨hnone, _⟩
    · have hki : k = i := hs.unique k i (hk.trans ho.symm) (by rw [hk]; exact ha)
      rw [hki, ← hdo, hd] at hdk
      simp at hdk
    · exact hnone k hk
  · intro hr
    rcases h.origin with ⟨_, _, hro⟩ | ⟨_, _, _, _, hro⟩ <;> omega

theorem Store.Handed.shows (h : s.Handed a (f a) i b) (hs : s.Coherent) (hf : s.Shows f)
    (ha : a.1 ≠ 0) :
    (s.setBuf i b).Shows f := by
  intro c hc
  constructor
  · intro j haddr hv
    simp only [setBuf_buf] at haddr hv ⊢
    by_cases hj : j = i
    · subst hj
      simp only [Function.update_self] at haddr ⊢
      rw [h.data, ← haddr, h.addr]
    · simp only [Function.update_of_ne hj] at haddr hv ⊢
      exact (hf c hc).1 j haddr hv
  · intro hnone
    simp only [setBuf_buf, setBuf_disk] at hnone ⊢
    have hca : c ≠ a := by
      rintro rfl
      have := hnone i (by simpa using h.addr)
      simp [h.valid] at this
    refine (hf.of_clean hs hc ?_).symm
    rintro ⟨j, haddr, hd⟩
    have hji : j ≠ i := by
      rintro rfl
      rcases h.origin with ⟨ho, _⟩ | ⟨_, _, hclean, _⟩
      · exact hca (haddr.symm.trans ho)
      · simp [hclean] at hd
    have := hnone j (by simpa [Function.update_of_ne hji] using haddr)
    simp only [Function.update_of_ne hji, hs.dirtyValid j hd] at this
    simp at this

end Handed

end Xv6
