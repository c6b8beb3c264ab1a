import Mathlib.Data.Fintype.Card
import Xv6.LogSpec

namespace Xv6

/-- The blocks of the transaction lie outside the log and their copies fit into it. -/
structure Log.Placed (l : Log) : Prop where
  dev : l.dev ≠ 0
  nodup : l.lh.Nodup
  outside : ∀ b ∈ l.lh, b < l.start ∨ l.start + l.size ≤ b
  fits : l.lh ≠ [] → l.lh.length < l.size

/-- Nothing is in use, every block exists and the buffers are enough for the copies. -/
structure Store.Room (s : Store) (l : Log) : Prop where
  idle : s.Idle
  inside : l.start + l.lh.length < FSSIZE
  homes : ∀ b ∈ l.lh, b < FSSIZE
  spare : (∀ a, ¬ s.DirtyAt a) ∨
    l.lh.length < NBUF ∧ (∀ a, s.DirtyAt a → ∃ b ∈ l.lh, a = l.homeAddr b) ∧
    ∀ b ∈ l.lh, s.DirtyAt (l.homeAddr b)

/-- The writes of write_log when the cache shows f. -/
def Log.copies (l : Log) (f : Disk) : List (BlockAddr × DiskBlock) :=
  l.tails.map fun e => (l.slotAddr e.2, f (l.homeAddr e.1))

/-- The writes of install_trans when the cache shows f. -/
def Log.installs (l : Log) (f : Disk) : List (BlockAddr × DiskBlock) :=
  l.tails.map fun e => (l.homeAddr e.1, f (l.slotAddr e.2))

section

variable {s u : Store} {l : Log} {f : Disk} {ws : List (BlockAddr × DiskBlock)}

theorem Log.mem_tails {e : Nat × Nat} (h : e ∈ l.tails) : e.1 ∈ l.lh ∧ e.2 < l.lh.length := by
  obtain ⟨b, i⟩ := e
  have hi := List.mem_zipIdx h
  simp only [Nat.zero_add, Nat.sub_zero] at hi
  exact ⟨by rw [hi.2.2]; exact List.getElem_mem _, by omega⟩

theorem Log.tails_fst : l.tails.map Prod.fst = l.lh := by
  simp [Log.tails]

theorem Log.tails_snd : l.tails.map Prod.snd = List.range l.lh.length := by
  simp [Log.tails, List.range_eq_range']

theorem Log.Placed.slot_ne_home (hl : l.Placed) {i b : Nat} (hi : i < l.lh.length) (hb : b ∈ l.lh) :
    l.slotAddr i ≠ l.homeAddr b := by
  intro he
  have hne : l.lh ≠ [] := List.ne_nil_of_mem hb
  have hfit := hl.fits hne
  have hout := hl.outside b hb
  simp only [slotAddr, homeAddr, Prod.mk.injEq, true_and] at he
  omega

theorem Log.Placed.head_ne_home (hl : l.Placed) {b : Nat} (hb : b ∈ l.lh) :
    l.headAddr ≠ l.homeAddr b := by
  intro he
  have hfit := hl.fits (List.ne_nil_of_mem hb)
  have hout := hl.outside b hb
  simp only [headAddr, homeAddr, Prod.mk.injEq, true_and] at he
  omega

theorem Log.head_ne_slot (l : Log) (i : Nat) : l.headAddr ≠ l.slotAddr i := by
  intro he
  simp only [headAddr, slotAddr, Prod.mk.injEq, true_and] at he
  omega

theorem room_clean {l' : Log} (hroom : s.Room l) (hdev : l.dev ≠ 0) (h : s.After u l' f ws []) :
    ∃ k, (u.buf k).dirty = false := by
  by_contra hnone
  have hsome : s.DirtyAt (u.buf 0).addr := by
    refine ((h.dirty _).mp ⟨0, rfl, ?_⟩).1
    by_contra hk
    exact hnone ⟨0, by simpa using hk⟩
  obtain ⟨hfew, hdirty, _⟩ := hroom.spare.resolve_left fun hclean => hclean _ hsome
  have hall : ∀ k, ∃ b ∈ l.lh, (u.buf k).addr = l.homeAddr b := by
    intro k
    have hd : (u.buf k).dirty = true := by
      by_contra hk
      exact hnone ⟨k, by simpa using hk⟩
    exact hdirty _ ((h.dirty _).mp ⟨k, rfl, hd⟩).1
  choose g hg haddr using hall
  have hinj : Function.Injective fun k =>
      (⟨g k, List.mem_toFinset.mpr (hg k)⟩ : l.lh.toFinset) := by
    intro j k hjk
    have hbk : g j = g k := congrArg Subtype.val hjk
    exact h.coherent.unique j k (by rw [haddr j, haddr k, hbk]) (by rw [haddr j]; exact hdev)
  have hcard := Fintype.card_le_of_injective _ hinj
  have hlen := List.toFinset_card_le l.lh
  simp only [Fintype.card_fin, Fintype.card_coe] at hcard
  omega

theorem room_roomy (hroom : s.Room l) (hdev : l.dev ≠ 0) (h : s.After u l f ws []) {b : Nat}
    (hb : b ∈ l.lh) (hw : l.homeAddr b ∉ ws.map Prod.fst) : u.Roomy (l.homeAddr b) := by
  rcases hroom.spare with hnone | ⟨_, _, hcached⟩
  · refine Or.inr fun k => ?_
    by_contra hk
    exact hnone _ ((h.dirty _).mp ⟨k, rfl, by simpa using hk⟩).1
  · exact Or.inl ⟨(h.dirty _).mpr ⟨hcached b hb, hw⟩, room_clean hroom hdev h⟩

/-- A loop over the logged blocks whose body copies one block, from src to dst. -/
theorem copyLoop_after {E : Halt → Store → Prop} {body : Nat × Nat → Bio Unit}
    {dst src : Nat × Nat → BlockAddr} (hdev : l.dev ≠ 0) (h : s.After u l f ws [])
    (hbody : ∀ {t : Store} {f : Disk} {ws : List (BlockAddr × DiskBlock)} {e : Nat × Nat},
      s.After t l f ws [] → e ∈ l.tails →
      (∀ x v, v.issued = t.issued → ¬ (s.Idle ∧ (l.slotAddr e.2).2 < FSSIZE ∧ (l.homeAddr e.1).2 < FSSIZE ∧
        t.Roomy (l.homeAddr e.1)) → E x v) →
      (body e).wp (fun _ t => s.After t l (Function.update f (dst e) (f (src e)))
        (ws ++ [(dst e, f (src e))]) []) E t)
    (hsrc : ∀ pre e post, l.tails = pre ++ e :: post → src e ∉ pre.map dst)
    (hhome : ∀ pre e post, l.tails = pre ++ e :: post →
      l.homeAddr e.1 ∉ ws.map Prod.fst ++ pre.map dst)
    (he : ∀ x t vs, vs <+: ws ++ l.tails.map (fun e => (dst e, f (src e))) →
      t.issued = s.issued ++ vs →
      ¬ s.Room l → E x t) :
    (forM l.tails body : Bio Unit).wp (fun _ t =>
      s.After t l (Writes.apply f (l.tails.map fun e => (dst e, f (src e))))
        (ws ++ l.tails.map fun e => (dst e, f (src e))) []) E u := by
  let g : Nat × Nat → BlockAddr × DiskBlock := fun e => (dst e, f (src e))
  refine Prog.wp_forM (fun pre t => s.After t l (Writes.apply f (pre.map g)) (ws ++ pre.map g) [])
    (by simpa using h) ?_
  intro pre e post t htails ht
  have hkeys : (pre.map g).map Prod.fst = pre.map dst := by simp [g]
  have hmem : e ∈ l.tails := by simp [htails]
  obtain ⟨hb, hi⟩ := Log.mem_tails hmem
  have hval : Writes.apply f (pre.map g) (src e) = f (src e) :=
    Writes.apply_of_notMem (by rw [hkeys]; exact hsrc pre e post htails)
  have hstep := hbody ht hmem ?_
  · refine Prog.wp_imp hstep fun _ v hv => ?_
    rw [hval] at hv
    simpa [g, Writes.apply_snoc, List.append_assoc] using hv
  · intro x v hv hno
    refine he x v _ ?_ (hv.trans ht.issued) fun hroom => hno ⟨hroom.idle, ?_, hroom.homes _ hb, ?_⟩
    · rw [htails, List.map_append]
      exact (List.prefix_append_right_inj _).mpr (List.prefix_append _ _)
    · have hinside := hroom.inside
      simp only [Log.slotAddr]
      omega
    · refine room_roomy hroom hdev ht hb ?_
      rw [List.map_append, hkeys]
      exact hhome pre e post htails

theorem Log.Placed.home_fresh (hl : l.Placed) {pre post : List (Nat × Nat)} {e : Nat × Nat}
    (h : l.tails = pre ++ e :: post) : l.homeAddr e.1 ∉ pre.map fun x => l.homeAddr x.1 := by
  have hnodup := hl.nodup
  rw [← Log.tails_fst, h, List.map_append, List.map_cons] at hnodup
  intro hin
  simp only [List.mem_map, homeAddr, Prod.mk.injEq, true_and] at hin
  obtain ⟨x, hx, hxe⟩ := hin
  exact (List.nodup_append.mp hnodup).2.2 x.1 (List.mem_map_of_mem hx) e.1 (by simp) hxe

theorem Log.mem_of_split {pre post : List (Nat × Nat)} {e x : Nat × Nat}
    (h : l.tails = pre ++ e :: post) (hx : x ∈ pre) : x.1 ∈ l.lh ∧ x.2 < l.lh.length :=
  Log.mem_tails (by simp [h, hx])

theorem writeLog_after {E : Halt → Store → Prop} (hl : l.Placed) (h : s.After u l f ws [])
    (hfresh : ∀ b ∈ l.lh, l.homeAddr b ∉ ws.map Prod.fst)
    (he : ∀ e t vs, vs <+: ws ++ l.copies f → t.issued = s.issued ++ vs → ¬ s.Room l → E e t) :
    writeLog.wp (fun _ t => s.After t l (Writes.apply f (l.copies f)) (ws ++ l.copies f) [])
      E u := by
  have hhome : ∀ pre e post, l.tails = pre ++ e :: post →
      l.homeAddr e.1 ∉ pre.map fun x => l.slotAddr x.2 := by
    intro pre e post htails hin
    obtain ⟨x, hx, hxe⟩ := List.mem_map.mp hin
    have hself := Log.mem_tails (l := l) (e := e) (by simp [htails])
    exact hl.slot_ne_home (Log.mem_of_split htails hx).2 hself.1 hxe
  simp only [writeLog, Prog.wp_bind, Prog.wp_get, h.log]
  refine copyLoop_after hl.dev h (fun ht he => ?_) hhome ?_ he
  · exact writeLogBlock_after ht hl.dev (hl.slot_ne_home (Log.mem_tails he).2 (Log.mem_tails he).1)
  · intro pre e post htails
    have hself := Log.mem_tails (l := l) (e := e) (by simp [htails])
    rw [List.mem_append, not_or]
    exact ⟨hfresh _ hself.1, hhome pre e post htails⟩

theorem installTrans_after {E : Halt → Store → Prop} (hl : l.Placed) (h : s.After u l f ws [])
    (hfresh : ∀ b ∈ l.lh, l.homeAddr b ∉ ws.map Prod.fst)
    (he : ∀ e t vs, vs <+: ws ++ l.installs f → t.issued = s.issued ++ vs → ¬ s.Room l → E e t) :
    installTrans.wp (fun _ t => s.After t l (Writes.apply f (l.installs f)) (ws ++ l.installs f) [])
      E u := by
  simp only [installTrans, Prog.wp_bind, Prog.wp_get, h.log]
  refine copyLoop_after hl.dev h (fun ht he => ?_) ?_ ?_ he
  · exact installBlock_after ht hl.dev (hl.slot_ne_home (Log.mem_tails he).2 (Log.mem_tails he).1)
  · intro pre e post htails hin
    obtain ⟨x, hx, hxe⟩ := List.mem_map.mp hin
    have hself := Log.mem_tails (l := l) (e := e) (by simp [htails])
    exact hl.slot_ne_home hself.2 (Log.mem_of_split htails hx).1 hxe.symm
  · intro pre e post htails
    have hself := Log.mem_tails (l := l) (e := e) (by simp [htails])
    rw [List.mem_append, not_or]
    exact ⟨hfresh _ hself.1, hl.home_fresh htails⟩

theorem setLh_after {lh : List Nat} (h : s.After u l f ws []) :
    (setLh lh).wp (fun _ t => s.After t { l with lh := lh } f ws []) (fun _ _ => False) u := by
  simp only [setLh, Prog.wp_modify, h.log]
  exact ⟨{ h.coherent with }, h.shown, h.disk, h.issued, rfl, h.given, h.dirty, h.pinned⟩

/-- The writes of commit: the copies into the log, the header, the home blocks, the empty header. -/
def Log.commitWrites (l : Log) (f : Disk) : List (BlockAddr × DiskBlock) :=
  if l.lh = [] then []
  else l.copies f ++ [(l.headAddr, encodeHead l.lh (f l.headAddr))] ++
    l.tails.map (fun e => (l.homeAddr e.1, f (l.homeAddr e.1))) ++
    [(l.headAddr, encodeHead [] (encodeHead l.lh (f l.headAddr)))]

/-- The writes of recover_from_log when the disk holds f. -/
def Log.recoverWrites (l : Log) (f : Disk) : List (BlockAddr × DiskBlock) :=
  { l with lh := decodeHead (f l.headAddr) }.installs f ++
    [(l.headAddr, encodeHead [] (f l.headAddr))]

theorem Log.copies_keys : (l.copies f).map Prod.fst = (List.range l.lh.length).map l.slotAddr := by
  rw [← Log.tails_snd]
  simp [Log.copies]

theorem Log.slots_nodup : ((l.copies f).map Prod.fst).Nodup := by
  rw [Log.copies_keys]
  refine List.nodup_range.map fun i j hij => ?_
  simp only [Log.slotAddr, Prod.mk.injEq, true_and] at hij
  omega

/-- What install_trans reads back from the log is what write_log has put there. -/
theorem Log.installs_copies {v : DiskBlock} :
    l.installs (Function.update (Writes.apply f (l.copies f)) l.headAddr v) =
      l.tails.map fun e => (l.homeAddr e.1, f (l.homeAddr e.1)) := by
  refine List.map_congr_left fun e he => ?_
  rw [Function.update_of_ne (l.head_ne_slot e.2).symm]
  rw [Writes.apply_of_nodup Log.slots_nodup (List.mem_map.mpr ⟨e, he, rfl⟩)]

theorem Log.Placed.home_not_slot (hl : l.Placed) {b : Nat} (hb : b ∈ l.lh) :
    l.homeAddr b ∉ (l.copies f).map Prod.fst := by
  rw [Log.copies_keys]
  intro hin
  obtain ⟨i, hi, hib⟩ := List.mem_map.mp hin
  exact hl.slot_ne_home (List.mem_range.mp hi) hb hib

theorem Log.head_not_slot : l.headAddr ∉ (l.copies f).map Prod.fst := by
  rw [Log.copies_keys]
  intro hin
  obtain ⟨i, _, hi⟩ := List.mem_map.mp hin
  exact l.head_ne_slot i hi.symm

theorem Log.installs_keys : (l.installs f).map Prod.fst = l.lh.map l.homeAddr := by
  rw [← Log.tails_fst]
  simp [Log.installs]

theorem Log.Placed.head_not_home (hl : l.Placed) : l.headAddr ∉ (l.installs f).map Prod.fst := by
  rw [Log.installs_keys]
  intro hin
  obtain ⟨b, hb, he⟩ := List.mem_map.mp hin
  exact hl.head_ne_home hb he.symm

/-- commit issues its writes in order; where it cannot go on it has issued a part of them. -/
theorem commit_after (hs : s.Coherent) (hf : s.Shows f) (hl : s.log.Placed) :
    commit.wp
      (fun _ t => s.After t { s.log with lh := [] } (Writes.apply f (s.log.commitWrites f))
        (s.log.commitWrites f) [])
      (fun _ t => (∃ vs, vs <+: s.log.commitWrites f ∧ t.issued = s.issued ++ vs) ∧ ¬ s.Room s.log) s := by
  have h0 := Store.after_refl hs hf
  simp only [commit, Prog.wp_bind, Prog.wp_get]
  by_cases hnil : s.log.lh = []
  · simp only [hnil, List.length_nil, Nat.lt_irrefl, if_false, Prog.wp_pure, Log.commitWrites,
      if_true, Writes.apply_nil]
    rw [← hnil]
    exact h0
  rw [if_pos (List.length_pos_iff.mpr hnil)]
  generalize s.log = l at *
  generalize hhead : encodeHead l.lh (f l.headAddr) = head at *
  have hW : l.commitWrites f = l.copies f ++ [(l.headAddr, head)] ++
      l.tails.map (fun e => (l.homeAddr e.1, f (l.homeAddr e.1))) ++ [(l.headAddr, encodeHead [] head)] := by
    rw [Log.commitWrites, if_neg hnil, hhead]
  have hclean : ∀ {u : Store} {l' : Log} {g : Disk} {ws : List (BlockAddr × DiskBlock)},
      s.After u l' g ws [] →
      ¬ (s.Idle ∧ l.start < FSSIZE ∧ ∃ k, (u.buf k).dirty = false) → ¬ s.Room l := by
    intro u l' g ws hu hno hroom
    have hinside := hroom.inside
    exact hno ⟨hroom.idle, by omega, room_clean hroom hl.dev hu⟩
  simp only [Prog.wp_bind]
  refine Prog.wp_imp (writeLog_after hl h0 (by simp) fun e t vs hvs ht hno =>
    ⟨⟨vs, ?_, ht⟩, hno⟩) ?_
  · simp only [hW, List.append_assoc]
    exact hvs.trans (List.prefix_append _ _)
  intro _ t1 h1
  refine Prog.wp_imp (writeHead_after h1 hl.dev fun e t ht hno =>
    ⟨⟨_, ?_, ht.trans h1.issued⟩, hclean h1 hno⟩) ?_
  · simp only [hW, List.append_assoc]
    exact List.prefix_append _ _
  intro _ t2 h2
  rw [Writes.apply_of_notMem Log.head_not_slot, hhead] at h2
  refine Prog.wp_imp (installTrans_after hl h2 ?_ fun e t vs hvs ht hno => ⟨⟨vs, ?_, ht⟩, hno⟩) ?_
  · intro b hb
    simp only [List.nil_append, List.map_append, List.map_cons, List.map_nil, List.mem_append,
      List.mem_singleton, not_or]
    exact ⟨hl.home_not_slot hb, (hl.head_ne_home hb).symm⟩
  · rw [Log.installs_copies] at hvs
    rw [hW]
    exact hvs.trans (List.prefix_append _ _)
  intro _ t3 h3
  refine Prog.wp_mono (setLh_after h3) ?_ fun _ _ h => h.elim
  intro _ t4 h4
  refine Prog.wp_imp (writeHead_after h4 hl.dev fun e t ht hno =>
    ⟨⟨_, ?_, ht.trans h4.issued⟩, hclean h4 hno⟩) ?_
  · rw [Log.installs_copies, hW]
    exact List.prefix_append _ _
  intro _ t5 h5
  have hlast : Writes.apply (Function.update (Writes.apply f (l.copies f)) l.headAddr head)
      (l.installs (Function.update (Writes.apply f (l.copies f)) l.headAddr head)) l.headAddr = head := by
    rw [Writes.apply_of_notMem hl.head_not_home, Function.update_self]
  have hcontents : Writes.apply f (l.commitWrites f) =
      Function.update (Writes.apply (Function.update (Writes.apply f (l.copies f)) l.headAddr head)
        (l.installs (Function.update (Writes.apply f (l.copies f)) l.headAddr head))) l.headAddr (encodeHead [] head) := by
    rw [hW, Writes.apply_snoc, Writes.apply_append, Writes.apply_snoc, Log.installs_copies]
  have hsame : ({ l with lh := [] } : Log).headAddr = l.headAddr := rfl
  rw [hsame, hlast] at h5
  rw [hcontents, hW, ← Log.installs_copies (v := head)]
  simpa [List.append_assoc] using h5

theorem readHead_after {E : Halt → Store → Prop} (h : s.After u l f ws []) (hdev : l.dev ≠ 0)
    (he : ∀ e t, t.issued = u.issued →
      ¬ (s.Idle ∧ l.start < FSSIZE ∧ ∃ k, (u.buf k).dirty = false) → E e t) :
    readHead.wp (fun _ t => s.After t { l with lh := decodeHead (f l.headAddr) } f ws []) E u := by
  simp only [readHead, Prog.wp_bind, Prog.wp_get, h.log]
  refine Prog.wp_mono (bread_after h (a := l.headAddr) hdev) ?_ ?_
  · rintro i t ⟨ht, hi, _⟩
    rw [hi.data]
    simp only [setLh, Prog.wp_modify, ht.log]
    have hset : s.After { t with log := { l with lh := decodeHead (f l.headAddr) } }
        { l with lh := decodeHead (f l.headAddr) } f ws [i] :=
      ⟨{ ht.coherent with }, ht.shown, ht.disk, ht.issued, rfl, ht.given, ht.dirty, ht.pinned⟩
    have hold : Store.Holds { t with log := { l with lh := decodeHead (f l.headAddr) } } i
      l.headAddr (f l.headAddr) :=
      hi.frame rfl
    exact Prog.wp_mono (brelse_after hset hold hdev) (fun _ _ h => by simpa using h.1)
      fun _ _ h => h.elim
  · rintro e t ⟨hissued, hav⟩
    refine he e t hissued fun hcrash => hav ?_
    obtain ⟨hidle, hr, k, hk⟩ := hcrash
    exact available_of_room h hidle hr (by simp) (Or.inr ⟨k, by simp, hk⟩)

/-- Recovery installs the blocks that the header on the disk names and clears the header. -/
theorem recoverFromLog_after (hs : s.Coherent) (hf : s.Shows f)
    (hl : ({ s.log with lh := decodeHead (f s.log.headAddr) } : Log).Placed) :
    recoverFromLog.wp
      (fun _ t => s.After t { s.log with lh := [] } (Writes.apply f (s.log.recoverWrites f))
        (s.log.recoverWrites f) [])
      (fun _ t => (∃ vs, vs <+: s.log.recoverWrites f ∧ t.issued = s.issued ++ vs) ∧
        ¬ s.Room { s.log with lh := decodeHead (f s.log.headAddr) }) s := by
  have h0 := Store.after_refl hs hf
  generalize s.log = l at *
  generalize hlh : decodeHead (f l.headAddr) = lh at *
  have hhead : ({ l with lh := lh } : Log).headAddr = l.headAddr := rfl
  have hW : l.recoverWrites f =
    ({ l with lh := lh } : Log).installs f ++ [(l.headAddr, encodeHead [] (f l.headAddr))] := by
    rw [Log.recoverWrites, hlh]
  have hclean : ∀ {u : Store} {l' : Log} {g : Disk} {ws : List (BlockAddr × DiskBlock)},
      s.After u l' g ws [] →
      ¬ (s.Idle ∧ l.start < FSSIZE ∧ ∃ k, (u.buf k).dirty = false) → ¬ s.Room { l with lh := lh } := by
    intro u l' g ws hu hno hroom
    have hinside := hroom.inside
    simp only at hinside
    exact hno ⟨hroom.idle, by omega, room_clean hroom hl.dev hu⟩
  simp only [recoverFromLog, Prog.wp_bind]
  refine Prog.wp_imp (readHead_after h0 hl.dev fun e t ht hno =>
    ⟨⟨[], by simp, by simpa using ht⟩, hclean h0 hno⟩) ?_
  intro _ t1 h1
  rw [hlh] at h1
  refine Prog.wp_imp (installTrans_after hl h1 (by simp) fun e t vs hvs ht hno =>
    ⟨⟨vs, ?_, ht⟩, hno⟩) ?_
  · rw [hW]
    exact hvs.trans (List.prefix_append _ _)
  intro _ t2 h2
  refine Prog.wp_mono (setLh_after h2) ?_ fun _ _ h => h.elim
  intro _ t3 h3
  refine Prog.wp_imp (writeHead_after h3 hl.dev fun e t ht hno =>
    ⟨⟨_, ?_, ht.trans h3.issued⟩, hclean h3 hno⟩) ?_
  · rw [hW]
    exact List.prefix_append _ _
  intro _ t4 h4
  have hkeep : Writes.apply f (({ l with lh := lh } : Log).installs f) l.headAddr = f l.headAddr :=
    Writes.apply_of_notMem (hhead ▸ hl.head_not_home)
  have hsame : ({ l with lh := [] } : Log).headAddr = l.headAddr := rfl
  rw [hsame, hkeep] at h4
  rw [hW, Writes.apply_snoc]
  simpa using h4

end

end Xv6
