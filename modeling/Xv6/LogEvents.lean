import Xv6.CrashRecovery
import Xv6.LogInv

namespace Xv6

/-- The cache shows the same contents, with the same blocks dirty. -/
structure Store.Keeps (u t : Store) : Prop where
  coherent : t.Coherent
  shown : ∀ f, u.Shows f → t.Shows f
  dirty : ∀ c, t.DirtyAt c ↔ u.DirtyAt c
  disk : t.disk = u.disk
  log : t.log = u.log
  given : t.given = u.given

section Cache

variable {u t : Store} {a : BlockAddr} {i : BufSlot} {b : Buf}

theorem Store.Same.keeps (h : u.Same t) (ht : t.Coherent) (hlog : t.log = u.log)
    (hgiven : t.given = u.given) :
    u.Keeps t :=
  ⟨ht, fun _ hf => h.shows hf, h.dirtyAt, h.disk, hlog, hgiven⟩

@[simp] theorem Store.setBuf_self (u : Store) (i : BufSlot) : u.setBuf i (u.buf i) = u := by
  simp [Store.setBuf]

theorem keeps_count (hu : u.Coherent) (haddr : b.addr = (u.buf i).addr)
    (hvalid : b.valid = (u.buf i).valid) (hdirty : b.dirty = (u.buf i).dirty)
    (hdata : b.data = (u.buf i).data) (hfree : b.refcnt = 0 → b.locked = false) :
    u.Keeps (u.setBuf i b) := by
  refine (Store.same_setBuf haddr hvalid hdirty hdata).keeps ?_ rfl rfl
  refine hu.setBuf ?_ ?_ ?_ ?_ hfree
  · intro hdev k hk
    rw [haddr] at hdev ⊢
    exact hu.ne_addr rfl hdev hk
  · rw [hvalid, hdirty, hdata, haddr]
    exact hu.clean i
  · rw [hvalid, hdirty]
    exact hu.dirtyValid i
  · rw [hvalid, haddr]
    exact hu.inRange i

theorem dirtyAt_setBuf_clean (hclean : (u.buf i).dirty = false) (hb : b.dirty = false)
    (c : BlockAddr) :
    (u.setBuf i b).DirtyAt c ↔ u.DirtyAt c := by
  refine exists_congr fun k => ?_
  rcases eq_or_ne k i with rfl | hk
  · simp [hclean, hb]
  · simp [hk]

theorem keeps_recycle (hu : u.Coherent) (hnone : ∀ k, (u.buf k).addr ≠ a) (hclean : (u.buf i).dirty = false) {n : Nat} :
    u.Keeps (u.setBuf i { u.buf i with addr := a, valid := false, dirty := false, refcnt := n + 1 }) := by
  refine ⟨hu.setBuf (fun _ k _ => hnone k) (by simp) (by simp) (by simp) (by simp), ?_,
    dirtyAt_setBuf_clean hclean rfl, rfl, rfl, rfl⟩
  intro f hf c hc
  constructor
  · intro k hk hv
    rcases eq_or_ne k i with rfl | hki
    · simp at hv
    · simp only [Store.setBuf_buf, Function.update_of_ne hki] at hk hv ⊢
      exact (hf c hc).1 k hk hv
  · intro hinvalid
    refine (hf.of_clean hu hc ?_).symm
    rintro ⟨k, hk, hd⟩
    rcases eq_or_ne k i with rfl | hki
    · simp [hclean] at hd
    · have hv := hinvalid k (by simpa [hki] using hk)
      simp only [Store.setBuf_buf, Function.update_of_ne hki, hu.dirtyValid k hd] at hv
      simp at hv

theorem keeps_read (hu : u.Coherent) (hv : (u.buf i).valid = false) (hdev : (u.buf i).addr.1 ≠ 0)
    (hr : (u.buf i).addr.2 < FSSIZE) :
    u.Keeps (u.setBuf i { u.buf i with valid := true, data := u.disk (u.buf i).addr }) := by
  have hclean : (u.buf i).dirty = false := by
    by_contra hd
    simp [hu.dirtyValid i (by simpa using hd)] at hv
  refine ⟨hu.setBuf (fun _ k hk => hu.ne_addr rfl hdev hk) (fun _ _ => rfl) (fun _ => rfl)
    (fun _ => hr) (hu.free i), ?_,
    dirtyAt_setBuf_clean hclean hclean, rfl, rfl, rfl⟩
  intro f hf c hc
  constructor
  · intro k hk hkv
    rcases eq_or_ne k i with rfl | hki
    · simp only [Store.setBuf_buf, Function.update_self] at hk ⊢
      rw [hk]
      refine (hf c hc).2 fun j hj => ?_
      rw [hu.unique j k (hj.trans hk.symm) (by rw [hj]; exact hc)]
      exact hv
    · simp only [Store.setBuf_buf, Function.update_of_ne hki] at hk hkv ⊢
      exact (hf c hc).1 k hk hkv
  · intro hinvalid
    refine (hf c hc).2 fun k hk => ?_
    rcases eq_or_ne k i with rfl | hki
    · exact hv
    · simpa [hki] using hinvalid k (by simpa [hki] using hk)

theorem bgetSlot_keeps (hu : u.Coherent) :
    (bgetSlot a).wp (fun i t =>
      ∃ b, t = u.setBuf i b ∧ u.Keeps t ∧ b.addr = a ∧ b.locked = (u.buf i).locked ∧
        b.refcnt = (u.buf i).refcnt + 1 ∧
        (b = { u.buf i with refcnt := (u.buf i).refcnt + 1 } ∨ (u.buf i).locked = false))
      (fun e _ => e = .panic .bgetNoBuffers) u := by
  simp only [bgetSlot, Prog.wp_bind, Prog.wp_get]
  cases hl : u.lookup a with
  | some i =>
    simp only [Prog.wp_bind, Prog.wp_set, Prog.wp_pure]
    exact ⟨_, rfl, keeps_count hu rfl rfl rfl rfl (by simp), Store.lookup_some hl, rfl, rfl, Or.inl rfl⟩
  | none =>
    cases hv : u.victim with
    | some i =>
      obtain ⟨href, hclean⟩ := Store.victim_some hv
      simp only [Prog.wp_bind, Prog.wp_set, Prog.wp_pure]
      exact ⟨_, rfl, keeps_recycle (n := 0) hu (Store.lookup_none hu hl) hclean, rfl, rfl, by simp [href],
        Or.inr (hu.free i href)⟩
    | none => simp

theorem bfill_keeps (hu : u.Coherent) (hl : (u.buf i).locked = true) (hdev : (u.buf i).addr.1 ≠ 0) :
    (bfill i).wp (fun _ t => ∃ b, t = u.setBuf i b ∧ u.Keeps t ∧ b.addr = (u.buf i).addr ∧
      b.locked = true ∧
        b.refcnt = (u.buf i).refcnt ∧ b.valid = true)
      (fun e _ => e = .panic .incorrectBlockno) u := by
  refine bfill_spec hl ?_ ?_ ?_ fun _ _ => rfl
  · intro hv
    by_contra hd
    simp [hu.dirtyValid i (by simpa using hd)] at hv
  · intro hv
    refine ⟨u.buf i, by simp, ?_, rfl, hl, rfl, hv⟩
    exact ⟨hu, fun _ hf => hf, fun _ => Iff.rfl, rfl, rfl, rfl⟩
  · intro hv hr
    exact ⟨_, rfl, keeps_read hu hv hdev hr, rfl, hl, rfl, rfl⟩

theorem Store.Keeps.reorder {lru : List BufSlot} (h : u.Keeps t) (hlru : ∀ k ∈ t.lru, k ∈ lru) :
    u.Keeps { t with lru := lru } :=
  ⟨{ h.coherent with listed := fun k => hlru k (h.coherent.listed k) }, h.shown, h.dirty, h.disk,
    h.log, h.given⟩

theorem bput_keeps (hu : u.Coherent) (hfree : (u.buf i).refcnt - 1 = 0 → (u.buf i).locked = false) :
    (bput i).wp (fun _ t => u.Keeps t ∧ t.log = u.log ∧
        t.buf = Function.update u.buf i { u.buf i with refcnt := (u.buf i).refcnt - 1 }) (fun _ _ => False) u := by
  have hk := keeps_count (i := i) (b := { u.buf i with refcnt := (u.buf i).refcnt - 1 }) hu rfl rfl
    rfl rfl hfree
  simp only [bput, Prog.wp_modify]
  split
  next => exact ⟨hk.reorder fun k hm => mem_front_of_mem hm, rfl, rfl⟩
  next => exact ⟨hk, rfl, rfl⟩

end Cache

section Contents

variable {d : Disk} {l : Log} {t u : Store} {ws : List (Nat × BlockAddr × DiskBlock)} {m n : Nat}
  {i : BufSlot}

theorem LogContents.keep (h : LogContents d l t ws m) (hk : t.Keeps u) :
    LogContents d l u ws m where
  coherent := hk.coherent
  dev := by rw [hk.log, h.dev]
  start := by rw [hk.log, h.start]
  size := by rw [hk.log, h.size]
  shown := by rw [hk.disk, hk.given]; exact hk.shown _ h.shown
  given := by rw [hk.given, h.given]
  flushedLe := h.flushedLe
  disk := by rw [hk.disk, hk.given]; exact h.disk
  nodup := by rw [hk.log]; exact h.nodup
  dirty a := by rw [hk.dirty, hk.log]; exact h.dirty a
  logged := by rw [hk.given, hk.log]; exact h.logged
  outside := by rw [hk.log]; exact h.outside

theorem LogContents.counters (h : LogContents d l t ws m) {c : Bool} :
    LogContents d l { t with log := { t.log with outstanding := n, committing := c } } ws m :=
  { h with coherent := { h.coherent with } }

theorem LogContents.record {data : DiskBlock} (h : LogContents d l t ws m) (hdev : l.dev ≠ 0)
    (hv : (t.buf i).valid = true) (ha : l.Outside (t.buf i).addr) :
    LogContents d l (t.logged i data) (ws ++ [(n, (t.buf i).addr, data)]) m := by
  have hne : (t.buf i).addr.1 ≠ 0 := by
    rw [ha.1]
    exact hdev
  have hm : m ≤ t.given.length := by
    rw [h.given, List.length_map]
    exact h.flushedLe
  have hle := h.flushedLe
  have hgiven : (t.logged i data).given = t.given ++ [((t.buf i).addr, data)] := rfl
  have hmem := logged_mem data ha.1
  refine
    { coherent := logged_coherent h.coherent hv hne
      dev := h.dev
      start := h.start
      size := h.size
      shown := ?_
      given := by rw [hgiven, h.given]; simp
      flushedLe := by simp only [List.length_append]; omega
      disk := by rw [hgiven, List.take_append_of_le_length hm]; exact h.disk
      nodup := nodup_addBlock h.nodup
      dirty := fun a => by rw [logged_dirtyAt, h.dirty]; exact (hmem a).symm
      logged := fun a => ?_
      outside := fun b hb => ?_ }
  · rw [hgiven, List.drop_append_of_le_length hm, Writes.apply_snoc]
    exact logged_shows h.coherent h.shown hv hne
  · refine Iff.trans ?_ (hmem a).symm
    rw [← h.logged, hgiven, List.drop_append_of_le_length hm]
    simp
  · rcases (hmem (l.homeAddr b)).mp ⟨b, hb, rfl⟩ with ⟨c, hc, he⟩ | he
    · rw [he]
      exact h.outside c hc
    · rw [he]
      exact ha.2

theorem LogContents.inside (h : LogContents d l t ws m) (a : BlockAddr) :
    t.log.Inside a ↔ l.Inside a := by
  simp only [Log.Inside, h.dev, h.start, h.size]

theorem LogContents.home (h : LogContents d l t ws m) (a : BlockAddr) :
    t.log.Home a ↔ ∃ b ∈ t.log.lh, a = l.homeAddr b := by
  simp only [Log.Home, Log.homeAddr, h.dev]

theorem LogContents.placed (h : LogContents d l t ws m) (hdev : l.dev ≠ 0)
    (hfit : t.log.lh.length < l.size) :
    t.log.Placed := by
  refine ⟨by rw [h.dev]; exact hdev, h.nodup, fun b hb => ?_, fun _ => by rw [h.size]; exact hfit⟩
  by_contra hin
  refine h.outside b hb ((h.inside _).mp ⟨h.dev.symm, ?_, ?_⟩) <;> simp only [Log.homeAddr]
    <;> omega

theorem LogContents.committed {f g : Disk} {W : List (BlockAddr × DiskBlock)}
    (h : LogContents d l t ws m) (hdev : l.dev ≠ 0) (hfit : t.log.lh.length < l.size)
    (hf : f = Writes.apply t.disk (t.given.drop m)) (hW : W = t.log.commitWrites f)
    (hu : t.After u { t.log with lh := [] } g W []) :
    LogContents d l u ws ws.length := by
  have hl := h.placed hdev hfit
  have hsize : 0 < t.log.size := by
    rw [h.size]
    omega
  have hlen : ws.length = t.given.length := by rw [h.given, List.length_map]
  have hhome : ∀ a, ¬ t.log.Home a → f a = t.disk a := by
    intro a ha
    rw [hf]
    exact Writes.apply_of_notMem fun hin => ha ((h.home a).mpr ((h.logged a).mp hin))
  have hdisk : ∀ a, ¬ l.Inside a → u.disk a = f a := by
    intro a ha
    rw [hu.disk, hW]
    exact apply_commitWrites hl hsize hhome (fun hin => ha ((h.inside a).mp hin))
  have hclean : ∀ a, ¬ u.DirtyAt a := by
    intro a hd
    obtain ⟨hdirty, hkeys⟩ := (hu.dirty a).mp hd
    have ha : t.log.Home a := (h.home a).mpr ((h.dirty a).mp hdirty)
    have hnil : t.log.lh ≠ [] := List.ne_nil_of_mem ha.choose_spec.1
    refine hkeys ?_
    rw [hW, Log.commitWrites_eq hnil]
    simp only [List.map_append, List.mem_append]
    exact Or.inr (Or.inl (Log.mem_homes_keys.mpr ha))
  have hlh : u.log.lh = [] := by rw [hu.log]
  refine
    { coherent := hu.coherent
      dev := by rw [hu.log]; exact h.dev
      start := by rw [hu.log]; exact h.start
      size := by rw [hu.log]; exact h.size
      shown := ?_
      given := by rw [hu.given, h.given]
      flushedLe := Nat.le_refl _
      disk := fun a ha => ?_
      nodup := by simp [hlh]
      dirty := fun a => by simpa [hlh] using hclean a
      logged := by simp [hu.given, hlen, hlh]
      outside := by simp [hlh] }
  · rw [hu.given, hlen, List.drop_length, Writes.apply_nil]
    intro a ha
    have hshown := hu.shown a ha
    rwa [hu.shown.of_clean hu.coherent ha (hclean a)] at hshown
  · rw [hdisk a ha, hu.given, hlen, List.take_length, ← List.take_append_drop m t.given,
      Writes.apply_append, hf]
    by_cases hin : a ∈ (t.given.drop m).map Prod.fst
    · exact Writes.apply_of_mem hin
    · rw [Writes.apply_of_notMem hin, Writes.apply_of_notMem hin]
      exact h.disk a ha

theorem homeAddr_injective : Function.Injective l.homeAddr := by
  intro b c h
  simpa [Log.homeAddr] using h

theorem LogContents.length_le (h : LogContents d l t ws m) :
    t.log.lh.length ≤ (Finset.univ.filter fun k => (t.buf k).dirty).card := by
  have hsub : t.log.lh.toFinset.image l.homeAddr ⊆
      (Finset.univ.filter fun k => (t.buf k).dirty).image fun k => (t.buf k).addr := by
    intro a ha
    simp only [Finset.mem_image, List.mem_toFinset] at ha
    obtain ⟨b, hb, rfl⟩ := ha
    obtain ⟨k, hk, hd⟩ := (h.dirty _).mpr ⟨b, hb, rfl⟩
    exact Finset.mem_image.mpr ⟨k, by simpa using hd, hk⟩
  calc t.log.lh.length = (t.log.lh.toFinset.image l.homeAddr).card := by
        rw [Finset.card_image_of_injective _ homeAddr_injective, List.toFinset_card_of_nodup h.nodup]
    _ ≤ _ := (Finset.card_le_card hsub).trans Finset.card_image_le

/-- A log as long as the cache fills it with dirty buffers. -/
theorem LogContents.all_dirty (h : LogContents d l t ws m) (hfull : NBUF ≤ t.log.lh.length)
    (k : BufSlot) :
    (t.buf k).dirty = true := by
  have hle := h.length_le
  have hcard : (Finset.univ : Finset BufSlot).card ≤
      (Finset.univ.filter fun k => (t.buf k).dirty).card := by
    rw [Finset.card_univ, Fintype.card_fin]
    omega
  have hall := Finset.eq_of_subset_of_card_le (Finset.filter_subset _ _) hcard
  have hk : k ∈ Finset.univ.filter fun k => (t.buf k).dirty = true := by
    rw [hall]
    exact Finset.mem_univ k
  simpa using hk

/-- Then commit finds no buffer for its first copy. -/
theorem LogContents.commit_full (h : LogContents d l t ws m) (hdev : l.dev ≠ 0) (hsize : 1 < l.size)
    (hfull : NBUF ≤ t.log.lh.length) : commit.wp (fun _ _ => False) (fun _ _ => True) t := by
  have hdirty := h.all_dirty hfull
  obtain ⟨b, lh, hlh⟩ : ∃ b lh, t.log.lh = b :: lh := by
    cases hlh : t.log.lh with
    | nil => simp [hlh] at hfull
    | cons b lh => exact ⟨b, lh, rfl⟩
  have hslot : ∀ k, (t.buf k).addr ≠ t.log.slotAddr 0 := by
    intro k hk
    obtain ⟨c, hc, hhome⟩ := (h.dirty _).mp ⟨k, rfl, hdirty k⟩
    have hout := h.outside c hc
    rw [← hhome, hk] at hout
    refine hout ⟨h.dev, ?_, ?_⟩ <;> simp only [Log.slotAddr, h.start] <;> omega
  have hne : (t.log.slotAddr 0).1 ≠ 0 := by
    simpa [Log.slotAddr, h.dev] using hdev
  have hbread : (bread (t.log.slotAddr 0)).wp (fun _ _ => False) (fun _ _ => True) t := by
    refine Prog.wp_mono (bread_spec h.coherent h.shown hne) ?_ fun _ _ _ => trivial
    rintro i u ⟨c, rfl, hc⟩
    rcases hc.origin with ⟨ho, _⟩ | ⟨_, _, hclean, _⟩
    · exact hslot i ho
    · simp [hdirty i] at hclean
  have hpos : 0 < t.log.lh.length := by simp [hlh]
  simp only [commit, Prog.wp_bind, Prog.wp_get]
  rw [if_pos hpos]
  simp only [Prog.wp_bind, writeLog, Prog.wp_get, Log.tails, hlh, List.zipIdx_cons, List.forM_cons,
    writeLogBlock]
  exact Prog.wp_imp hbread fun _ _ hfalse => hfalse.elim

end Contents

section Halts

def Halt.ofLog : Halt → Prop
  | .panic .tooBigTransaction | .panic .logWriteOutsideTrans | .panic .logCommitting => True
  | _ => False

/-- The code stops with none of the panics of log_write and end_op. -/
def Spared {α : Type} (x : Bio α) : Prop := ∀ s, x.wp (fun _ _ => True) (fun e _ => ¬ e.ofLog) s

variable {α β : Type} {x y : Bio α}

theorem spared_bind {f : α → Bio β} (hx : Spared x) (hf : ∀ a, Spared (f a)) :
    Spared (x >>= f) := by
  intro s
  rw [Prog.wp_bind]
  exact Prog.wp_imp (hx s) fun a t _ => hf a t

theorem spared_get : Spared (get : Bio Store) := fun _ => trivial

theorem spared_set (t : Store) : Spared (set t : Bio Unit) := fun _ => trivial

theorem spared_modify (f : Store → Store) : Spared (modify f : Bio Unit) := fun _ => trivial

theorem spared_pure (a : α) : Spared (pure a : Bio α) := fun _ => trivial

theorem spared_throw {e : Halt} (h : ¬ e.ofLog) : Spared (throw e : Bio α) := fun _ => h

theorem spared_ite {c : Prop} [Decidable c] (hx : Spared x) (hy : Spared y) :
    Spared (if c then x else y) := by
  split
  · exact hx
  · exact hy

theorem spared_forM {f : α → Bio Unit} {l : List α} (hf : ∀ a, Spared (f a)) :
    Spared (forM l f) := by
  intro s
  exact Prog.wp_forM (fun _ _ => True) trivial fun _ a _ t _ _ => hf a t

theorem spared_iderw (i : BufSlot) : Spared (iderw i) := by
  refine spared_bind spared_get fun s => ?_
  refine spared_ite (spared_throw (by simp [Halt.ofLog]))
    (spared_ite (spared_throw (by simp [Halt.ofLog])) ?_)
  exact spared_ite (spared_throw (by simp [Halt.ofLog])) (spared_ite (spared_set _) (spared_set _))

theorem spared_bgetSlot (a : BlockAddr) : Spared (bgetSlot a) := by
  refine spared_bind spared_get fun s => ?_
  split
  · exact spared_bind (spared_set _) fun _ => spared_pure _
  · split
    · exact spared_bind (spared_set _) fun _ => spared_pure _
    · exact spared_throw (by simp [Halt.ofLog])

theorem spared_bread (a : BlockAddr) : Spared (bread a) := by
  refine spared_bind (spared_bind (spared_bgetSlot a) fun i => spared_bind ?_ fun _ =>
    spared_pure i) fun i =>
    spared_bind ?_ fun _ => spared_pure i
  · exact spared_bind spared_get fun s =>
      spared_ite (spared_throw (by simp [Halt.ofLog])) (spared_set _)
  · exact spared_bind spared_get fun s => spared_ite (spared_iderw i) (spared_pure _)

theorem spared_bwrite (i : BufSlot) : Spared (bwrite i) :=
  spared_bind spared_get fun _ => spared_ite (spared_throw (by simp [Halt.ofLog]))
    (spared_bind (spared_set _) fun _ => spared_iderw i)

theorem spared_brelse (i : BufSlot) : Spared (brelse i) :=
  spared_bind spared_get fun _ => spared_ite (spared_throw (by simp [Halt.ofLog]))
    (spared_bind (spared_modify _) fun _ => spared_modify _)

theorem spared_writeHead : Spared writeHead :=
  spared_bind spared_get fun _ => spared_bind (spared_bread _) fun i =>
    spared_bind spared_get fun _ =>
    spared_bind (spared_modify _) fun _ => spared_bind (spared_bwrite i) fun _ => spared_brelse i

theorem spared_copy {a b : BlockAddr} {rest : BufSlot → BufSlot → Bio Unit}
    (h : ∀ i j, Spared (rest i j)) :
    Spared (do let i ← bread a; let j ← bread b; rest i j) :=
  spared_bind (spared_bread a) fun i => spared_bind (spared_bread b) fun j => h i j

theorem spared_commit : Spared commit := by
  have hcopy : ∀ i j, Spared (copyData i j) :=
    fun i j => spared_bind spared_get fun _ => spared_modify _
  have hwrite : Spared writeLog :=
    spared_bind spared_get fun s => spared_forM fun e => spared_copy fun i j =>
    spared_bind (hcopy i j) fun _ => spared_bind (spared_bwrite i) fun _ =>
      spared_bind (spared_brelse j) fun _ => spared_brelse i
  have hinstall : Spared installTrans :=
    spared_bind spared_get fun s => spared_forM fun e => spared_copy fun i j =>
    spared_bind (hcopy j i) fun _ => spared_bind (spared_bwrite j) fun _ =>
      spared_bind (spared_brelse i) fun _ => spared_brelse j
  refine spared_bind spared_get fun s => spared_ite ?_ (spared_pure _)
  exact spared_bind hwrite fun _ => spared_bind spared_writeHead fun _ =>
    spared_bind hinstall fun _ =>
    spared_bind (spared_modify _) fun _ => spared_writeHead

end Halts

end Xv6
