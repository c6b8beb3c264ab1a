import Xv6.BioRuns

namespace Xv6

/-- What the processes of a transaction do with buffers: get one, log new contents of one
they hold, give one back. -/
inductive TransOp
  | bread (b : Nat)
  | logWrite (i : BufSlot) (data : DiskBlock)
  | brelse (i : BufSlot)

/-- Only a process that holds the lock of a buffer changes its contents. -/
def transStep : TransOp → Bio Unit
  | .bread b => do
    let s ← get
    let _ ← bread (s.log.homeAddr b)
  | .logWrite i data => do
    let s ← get
    if (s.buf i).locked = false then throw .asleep
    else
      setData i data
      logWrite i
  | .brelse i => brelse i

/-- The store u inside a transaction that began in s, with g the contents logged since. -/
structure Store.Logging (s u : Store) (g : List (BlockAddr × DiskBlock)) : Prop where
  coherent : u.Coherent
  shown : u.Shows (Writes.apply s.disk g)
  disk : u.disk = s.disk
  issued : u.issued = s.issued
  given : u.given = s.given ++ g
  dev : u.log.dev = s.log.dev
  start : u.log.start = s.log.start
  size : u.log.size = s.log.size
  nodup : u.log.lh.Nodup
  dirty : ∀ a, u.DirtyAt a ↔ ∃ b ∈ u.log.lh, a = u.log.homeAddr b
  logged : ∀ a, a ∈ g.map Prod.fst ↔ ∃ b ∈ u.log.lh, a = u.log.homeAddr b
  held : ∀ i, (u.buf i).locked → (u.buf i).valid ∧ (u.buf i).addr.1 = u.log.dev
  short : u.log.lh.length ≤ LOGSIZE ∧ (u.log.lh ≠ [] → u.log.lh.length < u.log.size)
  inside : ∀ b ∈ u.log.lh, b < FSSIZE

section

variable {s u : Store} {g : List (BlockAddr × DiskBlock)}

theorem bread_logging {b : Nat} (hdev : s.log.dev ≠ 0) (h : s.Logging u g) :
    (transStep (.bread b)).wp (fun _ t => s.Logging t g) (fun _ _ => True) u := by
  have ha : (u.log.homeAddr b).1 ≠ 0 := by
    rw [Log.homeAddr, h.dev]
    exact hdev
  simp only [transStep, Prog.wp_bind, Prog.wp_get, Prog.wp_pure]
  refine Prog.wp_mono (bread_spec h.coherent h.shown ha) ?_ fun _ _ _ => trivial
  rintro i t ⟨c, rfl, hc⟩
  refine { h with
    coherent := hc.coherent h.coherent h.shown ha
    shown := hc.shows h.coherent h.shown ha
    dirty := fun a => (hc.dirtyAt a).trans (h.dirty a)
    held := fun k hk => ?_ }
  by_cases hki : k = i
  · subst hki
    simp [hc.valid, hc.addr, Log.homeAddr]
  · simp only [Store.setBuf_buf, Function.update_of_ne hki] at hk ⊢
    exact h.held k hk

theorem brelse_logging {i : BufSlot} (hdev : s.log.dev ≠ 0) (h : s.Logging u g) :
    (transStep (.brelse i)).wp (fun _ t => s.Logging t g) (fun _ _ => True) u := by
  by_cases hl : (u.buf i).locked
  · refine brelse_spec hl fun lru hlru => ?_
    have ha : (u.buf i).addr.1 ≠ 0 := by
      rw [(h.held i hl).2, h.dev]
      exact hdev
    have hset := h.coherent.setBuf (i := i)
      (b := { u.buf i with locked := false, refcnt := (u.buf i).refcnt - 1 })
      (fun _ k hk => h.coherent.ne_addr rfl ha hk)
      (h.coherent.clean i) (h.coherent.dirtyValid i) (h.coherent.inRange i) fun _ => rfl
    have hsame := Store.same_setBuf (u := u) (i := i)
      (b := { u.buf i with locked := false, refcnt := (u.buf i).refcnt - 1 }) rfl rfl rfl rfl
    refine { h with
      coherent := { hset with listed := fun k => hlru k (h.coherent.listed k) }
      shown := hsame.shows h.shown
      dirty := fun a => (hsame.dirtyAt a).trans (h.dirty a)
      held := fun k hk => ?_ }
    by_cases hki : k = i
    · subst hki
      simp at hk
    · simp only [Store.setBuf_buf, Function.update_of_ne hki] at hk ⊢
      exact h.held k hk
  · simp only [Bool.not_eq_true] at hl
    simp [transStep, brelse, hl]

/-- The store after new contents of a buffer are logged. -/
def Store.logged (u : Store) (i : BufSlot) (data : DiskBlock) : Store :=
  { u.setBuf i { u.buf i with dirty := true, data := data } with
    log := { u.log with
      lh := if (u.buf i).addr.2 ∈ u.log.lh then u.log.lh else u.log.lh ++ [(u.buf i).addr.2] }
    given := u.given ++ [((u.buf i).addr, data)] }

theorem logWrite_spec {i : BufSlot} {data : DiskBlock} {Q : Unit → Store → Prop}
    {E : Halt → Store → Prop} (hl : (u.buf i).locked = true)
    (hbig : LOGSIZE ≤ u.log.lh.length ∨ u.log.size ≤ u.log.lh.length + 1 →
      ∀ t, E (.panic .tooBigTransaction) t)
    (hout : u.log.outstanding < 1 → ∀ t, E (.panic .logWriteOutsideTrans) t)
    (hq : u.log.lh.length < LOGSIZE → u.log.lh.length + 1 < u.log.size → Q ⟨⟩ (u.logged i data)) :
    (transStep (.logWrite i data)).wp Q E u := by
  simp only [transStep, Prog.wp_bind, Prog.wp_get, hl, Bool.true_eq_false, if_false, setData,
    Prog.wp_modify, logWrite, logWriteCheck, Store.setBuf_log]
  refine Prog.wp_ite (fun hb => hbig hb _) fun hb => Prog.wp_ite (fun ho => hout ho _) fun _ => ?_
  simp only [not_or, Nat.not_le] at hb
  simpa [logWriteRecord, Store.logged, Store.setBuf, hl] using hq hb.1 hb.2

theorem mem_addBlock {lh : List Nat} {b c : Nat} :
    c ∈ (if b ∈ lh then lh else lh ++ [b]) ↔ c ∈ lh ∨ c = b := by
  split
  next hb =>
    constructor
    · exact Or.inl
    · rintro (hc | rfl)
      · exact hc
      · exact hb
  next => simp

theorem nodup_addBlock {lh : List Nat} {b : Nat} (h : lh.Nodup) :
    (if b ∈ lh then lh else lh ++ [b]).Nodup := by
  split
  next => exact h
  next hb => exact List.nodup_append.mpr ⟨h, by simp, by
    intro c hc d hd he
    rw [List.mem_singleton.mp hd] at he
    exact hb (he ▸ hc)⟩

theorem length_addBlock (lh : List Nat) (b : Nat) :
    (if b ∈ lh then lh else lh ++ [b]).length ≤ lh.length + 1 := by
  split <;> simp

theorem logged_dirtyAt {i : BufSlot} {data : DiskBlock} (a : BlockAddr) :
    (u.logged i data).DirtyAt a ↔ u.DirtyAt a ∨ a = (u.buf i).addr := by
  constructor
  · rintro ⟨k, hk, hd⟩
    by_cases hki : k = i
    · subst hki
      exact Or.inr (by simpa [Store.logged] using hk.symm)
    · simp only [Store.logged, Store.setBuf_buf, Function.update_of_ne hki] at hk hd
      exact Or.inl ⟨k, hk, hd⟩
  · rintro (⟨k, hk, hd⟩ | rfl)
    · by_cases hki : k = i
      · subst hki
        exact ⟨k, by simpa [Store.logged] using hk, by simp [Store.logged]⟩
      · exact ⟨k, by simpa [Store.logged, Function.update_of_ne hki] using hk,
          by simpa [Store.logged, Function.update_of_ne hki] using hd⟩
    · exact ⟨i, by simp [Store.logged], by simp [Store.logged]⟩

theorem logged_coherent {i : BufSlot} {data : DiskBlock} (hu : u.Coherent)
    (hv : (u.buf i).valid = true) (ha : (u.buf i).addr.1 ≠ 0) : (u.logged i data).Coherent := by
  have hset := hu.setBuf (i := i) (b := { u.buf i with dirty := true, data := data })
    (fun _ k hk => hu.ne_addr rfl ha hk) (by simp) (fun _ => hv) (hu.inRange i) (hu.free i)
  exact { hset with }

theorem logged_shows {i : BufSlot} {data : DiskBlock} {f : Disk} (hu : u.Coherent) (hf : u.Shows f)
    (hv : (u.buf i).valid = true) (ha : (u.buf i).addr.1 ≠ 0) :
    (u.logged i data).Shows (Function.update f (u.buf i).addr data) := by
  refine hf.write hu rfl ha ?_ (fun k hk => ?_) fun _ _ => rfl
  · simp [Store.logged, hv]
  · simp [Store.logged, Function.update_of_ne hk]

theorem logged_mem {i : BufSlot} {l : Log} (data : DiskBlock) (hd : (u.buf i).addr.1 = l.dev)
    (a : BlockAddr) :
    (∃ b ∈ (u.logged i data).log.lh, a = l.homeAddr b) ↔
      (∃ b ∈ u.log.lh, a = l.homeAddr b) ∨ a = (u.buf i).addr := by
  have hhome : (u.buf i).addr = l.homeAddr (u.buf i).addr.2 := by
    rw [Log.homeAddr, ← hd]
  simp only [Store.logged, mem_addBlock]
  constructor
  · rintro ⟨b, hb | rfl, rfl⟩
    · exact Or.inl ⟨b, hb, rfl⟩
    · exact Or.inr hhome.symm
  · rintro (⟨b, hb, rfl⟩ | rfl)
    · exact ⟨b, Or.inl hb, rfl⟩
    · exact ⟨_, Or.inr rfl, hhome⟩

theorem logged_logging {i : BufSlot} {data : DiskBlock} (hdev : s.log.dev ≠ 0) (h : s.Logging u g)
    (hl : (u.buf i).locked = true) (hsize : u.log.lh.length < LOGSIZE)
    (hroom : u.log.lh.length + 1 < u.log.size) :
    s.Logging (u.logged i data) (g ++ [((u.buf i).addr, data)]) := by
  obtain ⟨hv, hd⟩ := h.held i hl
  have ha : (u.buf i).addr.1 ≠ 0 := by
    rw [hd, h.dev]
    exact hdev
  have hlen := length_addBlock u.log.lh (u.buf i).addr.2
  have hmem := logged_mem data hd
  refine
    { coherent := logged_coherent h.coherent hv ha
      shown := by rw [Writes.apply_snoc]; exact logged_shows h.coherent h.shown hv ha
      disk := h.disk
      issued := h.issued
      given := by simp [Store.logged, h.given]
      dev := h.dev
      start := h.start
      size := h.size
      nodup := nodup_addBlock h.nodup
      dirty := fun a => by rw [logged_dirtyAt, h.dirty]; exact (hmem a).symm
      logged := fun a => ?_
      held := fun k hk => ?_
      short := ⟨by simp only [Store.logged]; omega, fun _ => by simp only [Store.logged]; omega⟩
      inside := fun b hb => ?_ }
  · refine Iff.trans ?_ (hmem a).symm
    rw [← h.logged]
    simp
  · by_cases hki : k = i
    · subst hki
      simpa [Store.logged, hv] using hd
    · simp only [Store.logged, Store.setBuf_buf, Function.update_of_ne hki] at hk ⊢
      exact h.held k hk
  · rcases mem_addBlock.mp hb with hb | rfl
    · exact h.inside b hb
    · exact h.coherent.inRange i hv

/-- Whatever a transaction does, the cache shows the old contents with the logged ones on top. -/
theorem transStep_logging {op : TransOp} (hdev : s.log.dev ≠ 0) (h : ∃ g, s.Logging u g) :
    (transStep op).wp (fun _ t => ∃ g, s.Logging t g) (fun _ _ => True) u := by
  obtain ⟨g, h⟩ := h
  cases op with
  | bread b => exact Prog.wp_imp (bread_logging hdev h) fun _ _ ht => ⟨g, ht⟩
  | brelse i => exact Prog.wp_imp (brelse_logging hdev h) fun _ _ ht => ⟨g, ht⟩
  | logWrite i data =>
    by_cases hl : (u.buf i).locked
    · refine logWrite_spec hl (fun _ _ => trivial) (fun _ _ => trivial) fun hsize hroom => ?_
      exact ⟨_, logged_logging hdev h hl hsize hroom⟩
    · simp only [Bool.not_eq_true] at hl
      simp [transStep, hl]

end

/-- Between transactions: nothing is logged or dirty and the header on the disk is empty. -/
structure Store.Ready (s : Store) : Prop where
  coherent : s.Coherent
  shown : s.Shows s.disk
  clean : ∀ a, ¬ s.DirtyAt a
  dev : s.log.dev ≠ 0
  area : 0 < s.log.size ∧ s.log.start + s.log.size ≤ FSSIZE
  empty : s.log.lh = []
  header : decodeHead (s.disk s.log.headAddr) = []
  held : ∀ i, (s.buf i).locked → (s.buf i).valid ∧ (s.buf i).addr.1 = s.log.dev

theorem Store.Ready.logging {s : Store} (h : s.Ready) : s.Logging s [] := by
  refine ⟨h.coherent, h.shown, rfl, rfl, by simp, rfl, rfl, rfl, by simp [h.empty], ?_,
    by simp [h.empty], h.held, by simp [h.empty], by simp [h.empty]⟩
  intro a
  simpa [h.empty] using h.clean a

theorem transRun_logging {s : Store} (ops : List TransOp) (h : s.Ready) :
    (forM ops transStep : Bio Unit).wp (fun _ t => ∃ g, s.Logging t g) (fun _ _ => True) s :=
  Prog.wp_forM (fun _ t => ∃ g, s.Logging t g) ⟨[], h.logging⟩
    fun _ _ _ _ _ ht => transStep_logging h.dev ht

end Xv6
