import Xv6.CrashRecovery
import Xv6.Runs

namespace Xv6

/-- A call on the buffer cache that has returned. Contents change in place, in a buffer whose lock
the caller holds, and then go to bwrite or log_write. The last one is a step of commit. -/
inductive BioCall
  | bread (a : BlockAddr)
  | bwrite (i : BufSlot) (data : DiskBlock)
  | logWrite (i : BufSlot) (data : DiskBlock)
  | brelse (i : BufSlot)
  | clearLog

def BioCall.prog : BioCall → Bio Unit
  | .bread a => do let _ ← Xv6.bread a
  | .bwrite i data => do setData i data; Xv6.bwrite i
  | .logWrite i data => do setData i data; Xv6.logWrite i
  | .brelse i => Xv6.brelse i
  | .clearLog => setLh []

def BioCall.Allowed (s : Store) : BioCall → Prop
  | .bread a => a.1 ≠ 0
  | .bwrite i _ | .logWrite i _ | .brelse i => (s.buf i).locked = true
  | .clearLog => True

instance BioCall.decidableAllowed (s : Store) (k : BioCall) : Decidable (k.Allowed s) := by
  cases k <;> unfold BioCall.Allowed <;> infer_instance

/-- What the call stores in a block. -/
def BioCall.stores (s : Store) : BioCall → List (BlockAddr × DiskBlock)
  | .bwrite i data | .logWrite i data => [((s.buf i).addr, data)]
  | _ => []

/-- The cache, and what was stored through log_write or bwrite so far, oldest first. -/
structure Cache where
  store : Store
  stored : List (BlockAddr × DiskBlock)

def Cache.call (c : Cache) (k : BioCall) : Option Cache :=
  if k.Allowed c.store then
    match k.prog c.store with
    | (.ok _, t) => some ⟨t, c.stored ++ k.stores c.store⟩
    | (.error _, _) => none
  else none

inductive CacheEvent
  | call (k : BioCall)
  | commit

/-- commit stores through bwrite. -/
def Cache.step (c : Cache) : CacheEvent → Option Cache
  | .call .clearLog => none
  | .call k => c.call k
  | .commit =>
    match commit c.store with
    | (.ok _, t) => some ⟨t, c.stored ++ t.issued.drop c.store.issued.length⟩
    | (.error _, _) => none

/-- After binit, with the log as initlog sets it up. -/
def Cache.binit (l : Log) (d : Disk) : Cache :=
  ⟨{ Store.boot l d with log := { l with lh := [] } }, []⟩

def Store.Unique (s : Store) : Prop :=
  ∀ i j, (s.buf i).addr = (s.buf j).addr → (s.buf i).addr.1 ≠ 0 → i = j

/-- No buffer that is referenced or dirty before gets another block. -/
def Store.KeepsPinned (s t : Store) : Prop :=
  ∀ i, (s.buf i).refcnt ≠ 0 ∨ (s.buf i).dirty = true → (t.buf i).addr = (s.buf i).addr

/-- What a call does to a cache that shows f. -/
inductive Store.Effect (s : Store) (f : Disk) : BioCall → Store → Prop
  | bread {a : BlockAddr} {i : BufSlot} {b : Buf} (ha : a.1 ≠ 0) (hb : s.Handed a (f a) i b) :
      Effect s f (.bread a) (s.setBuf i b)
  | bwrite {i : BufSlot} {data : DiskBlock} (hl : (s.buf i).locked = true) :
      Effect s f (.bwrite i data) (s.stored i data)
  | logWrite {i : BufSlot} {data : DiskBlock} (hl : (s.buf i).locked = true)
      (hroom : s.log.lh.length + 1 < s.log.size) : Effect s f (.logWrite i data) (s.logged i data)
  | brelse {i : BufSlot} {lru : List BufSlot} (hl : (s.buf i).locked = true) (hlru : ∀ k, k ∈ s.lru → k ∈ lru) :
      Effect s f (.brelse i)
        { s.setBuf i { s.buf i with locked := false, refcnt := (s.buf i).refcnt - 1 } with lru := lru }
  | clearLog : Effect s f .clearLog { s with log := { s.log with lh := [] } }

/-- What holds between calls: d was on the disk at first, and the log is where l says. -/
structure Cache.Inv (d : Disk) (l : Log) (c : Cache) : Prop where
  coherent : c.store.Coherent
  shown : c.store.Shows (Writes.apply d c.stored)
  held : ∀ i, (c.store.buf i).locked = true →
    (c.store.buf i).valid = true ∧ (c.store.buf i).addr.1 ≠ 0
  placed : c.store.log.dev = l.dev ∧ c.store.log.start = l.start ∧ c.store.log.size = l.size
  nodup : c.store.log.lh.Nodup
  known : ∀ b ∈ c.store.log.lh, ∃ w ∈ c.store.given, w.1.2 = b
  fits : c.store.log.lh ≠ [] → c.store.log.lh.length < c.store.log.size

variable {c e : Cache} {d : Disk} {l : Log} {k : BioCall} {s t : Store} {f : Disk}

theorem Cache.call_inv (h : c.call k = some e) :
    k.Allowed c.store ∧ ∃ t, k.prog c.store = (.ok ⟨⟩, t) ∧
      e = ⟨t, c.stored ++ k.stores c.store⟩ := by
  unfold Cache.call at h
  split at h
  next ha =>
    split at h
    next t ht => exact ⟨ha, t, ht, (Option.some.inj h).symm⟩
    next => simp at h
  next => simp at h

theorem Cache.Inv.effect (hc : c.Inv d l) (h : c.call k = some e) :
    c.store.Effect (Writes.apply d c.stored) k e.store ∧
      e.stored = c.stored ++ k.stores c.store := by
  obtain ⟨hallow, t, hprog, rfl⟩ := Cache.call_inv h
  refine ⟨?_, rfl⟩
  have hspec : k.prog.wp (fun _ t => c.store.Effect (Writes.apply d c.stored) k t) (fun _ _ => True)
      c.store := by
    cases k with
    | bread a =>
      simp only [BioCall.prog, Prog.wp_bind, Prog.wp_pure]
      refine Prog.wp_mono (bread_spec hc.coherent hc.shown hallow) ?_ fun _ _ _ => trivial
      rintro i t ⟨b, rfl, hb⟩
      exact .bread hallow hb
    | bwrite i data =>
      exact bwrite_stored hallow (hc.coherent.inRange i (hc.held i hallow).1) (.bwrite hallow)
    | logWrite i data =>
      have hl : (c.store.buf i).locked = true := hallow
      have hw : (transStep (.logWrite i data)).wp
          (fun _ t => c.store.Effect (Writes.apply d c.stored) (.logWrite i data) t) (fun _ _ => True) c.store :=
        logWrite_spec hl (fun _ _ => trivial) (fun _ _ => trivial) fun _ hroom => .logWrite hl hroom
      simpa only [transStep, BioCall.prog, Prog.wp_bind, Prog.wp_get, hl, Bool.true_eq_false,
        if_false] using hw
    | brelse i => exact brelse_spec hallow fun lru hlru => .brelse hallow hlru
    | clearLog => exact .clearLog
  exact (Prog.wp_ok hprog).1 hspec

theorem Store.Effect.keepsPinned (h : s.Effect f k t) : s.KeepsPinned t := by
  intro j hj
  cases h with
  | @bread a i b ha hb =>
    by_cases hji : j = i
    · subst hji
      rcases hb.origin with ⟨ho, _⟩ | ⟨_, hzero, hclean, _⟩
      · simp [hb.addr, ho]
      · simp [hzero, hclean] at hj
    · simp [Function.update_of_ne hji]
  | bwrite hl => exact stored_addr j
  | @logWrite i data hl hroom =>
    by_cases hji : j = i
    · subst hji
      simp [Store.logged]
    · simp [Store.logged, Function.update_of_ne hji]
  | @brelse i lru hl hlru =>
    by_cases hji : j = i
    · subst hji
      simp
    · simp [Function.update_of_ne hji]
  | clearLog => rfl

theorem Cache.Inv.holds (hc : c.Inv d l) {i : BufSlot} (hl : (c.store.buf i).locked = true) :
    c.store.Holds i (c.store.buf i).addr (c.store.buf i).data :=
  ⟨rfl, (hc.held i hl).1, hl, rfl⟩

theorem Cache.Inv.call (hc : c.Inv d l) (h : c.call k = some e) : e.Inv d l := by
  obtain ⟨heff, hstored⟩ := hc.effect h
  obtain ⟨t, stored⟩ := e
  simp only at heff hstored
  subst hstored
  have hother : ∀ {i j : BufSlot} {b : Buf}, (b.locked = true → b.valid = true ∧ b.addr.1 ≠ 0) →
      (Function.update c.store.buf i b j).locked = true →
      (Function.update c.store.buf i b j).valid = true ∧ (Function.update c.store.buf i b j).addr.1 ≠ 0 := by
    intro i j b hb hj
    by_cases hji : j = i
    · subst hji
      simp only [Function.update_self] at hj ⊢
      exact hb hj
    · simp only [Function.update_of_ne hji] at hj ⊢
      exact hc.held j hj
  cases heff with
  | @bread a i b ha hb =>
    simp only [BioCall.stores, List.append_nil]
    exact ⟨hb.coherent hc.coherent hc.shown ha, hb.shows hc.coherent hc.shown ha,
      fun j hj => hother (fun _ => ⟨hb.valid, by rw [hb.addr]; exact ha⟩) hj, hc.placed, hc.nodup,
        hc.known, hc.fits⟩
  | @bwrite i data hl =>
    obtain ⟨hv, ha⟩ := hc.held i hl
    simp only [BioCall.stores]
    refine ⟨stored_coherent hc.coherent (hc.holds hl) ha, ?_,
      fun j hj => hother (fun _ => ⟨rfl, ha⟩) hj, hc.placed,
      hc.nodup, hc.known, hc.fits⟩
    rw [Writes.apply_snoc]
    exact stored_shows hc.coherent hc.shown (hc.holds hl) ha
  | @logWrite i data hl hroom =>
    obtain ⟨hv, ha⟩ := hc.held i hl
    simp only [BioCall.stores]
    refine ⟨logged_coherent hc.coherent hv ha, ?_, fun j hj => hother (fun _ => ⟨hv, ha⟩) hj,
      hc.placed, nodup_addBlock hc.nodup, fun b hb => ?_, fun _ => ?_⟩
    · rw [Writes.apply_snoc]
      exact logged_shows hc.coherent hc.shown hv ha
    · rcases mem_addBlock.1 hb with hb | rfl
      · obtain ⟨w, hw, hwb⟩ := hc.known b hb
        exact ⟨w, by simp [Store.logged, hw], hwb⟩
      · exact ⟨((c.store.buf i).addr, data), by simp [Store.logged], rfl⟩
    · have hlen := length_addBlock c.store.log.lh (c.store.buf i).addr.2
      simp only [Store.logged]
      omega
  | @brelse i lru hl hlru =>
    obtain ⟨hv, ha⟩ := hc.held i hl
    have hset := hc.coherent.setBuf (i := i)
      (b := { c.store.buf i with locked := false, refcnt := (c.store.buf i).refcnt - 1 })
      (fun _ j hj => hc.coherent.ne_addr rfl ha hj) (hc.coherent.clean i) (hc.coherent.dirtyValid i)
      (hc.coherent.inRange i) fun _ => rfl
    have hsame := Store.same_setBuf (u := c.store) (i := i)
      (b := { c.store.buf i with locked := false, refcnt := (c.store.buf i).refcnt - 1 }) rfl rfl rfl rfl
    simp only [BioCall.stores, List.append_nil]
    exact ⟨{ hset with listed := fun j => hlru j (hc.coherent.listed j) }, hsame.shows hc.shown,
      fun j hj => hother (by simp) hj, hc.placed, hc.nodup, hc.known, hc.fits⟩
  | clearLog =>
    simp only [BioCall.stores, List.append_nil]
    exact ⟨{ hc.coherent with }, hc.shown, hc.held, hc.placed, List.nodup_nil, by simp, by simp⟩

theorem Cache.Inv.run {ks : List BioCall} (hc : c.Inv d l)
    (h : Runs.exec Cache.call c ks = some e) : e.Inv d l :=
  Runs.invariant (I := Cache.Inv d l) hc (fun _ _ _ hv => hv.call) h

/-- The calls that commit makes on behalf of the log. -/
def BioCall.ofCommit : BioCall → Bool
  | .bread _ | .bwrite _ _ | .brelse _ => true
  | .logWrite _ _ | .clearLog => false

theorem Store.Effect.ofCommit (h : s.Effect f k t) (hk : k.ofCommit = true) :
    t.issued = s.issued ++ k.stores s ∧ t.log = s.log := by
  cases h with
  | bread | brelse => simp [BioCall.stores]
  | bwrite => exact ⟨rfl, rfl⟩
  | logWrite | clearLog => simp [BioCall.ofCommit] at hk

/-- Calls lead from c to a cache with the store t, and what they store is what they write to the
disk. -/
def Cache.Reaches (c : Cache) (t : Store) : Prop :=
  ∃ ks ws, Runs.exec Cache.call c ks = some ⟨t, c.stored ++ ws⟩ ∧ t.issued = c.store.issued ++ ws

section

variable {u : Store} {m : Log} {i : BufSlot}

theorem Cache.Inv.reaches_call (hc : c.Inv d l) (h : c.Reaches u ∧ u.log = m) (hallow : k.Allowed u)
    (hk : k.ofCommit = true) :
    k.prog.wp (fun _ t => c.Reaches t ∧ t.log = m) (fun _ _ => True) u := by
  obtain ⟨⟨ks, ws, hexec, hws⟩, rfl⟩ := h
  unfold Prog.wp
  split
  next t ht =>
    have hcall : Cache.call ⟨u, c.stored ++ ws⟩ k = some ⟨t, c.stored ++ (ws ++ k.stores u)⟩ := by
      simp [Cache.call, hallow, ht]
    obtain ⟨hissued, hlog⟩ := ((hc.run hexec).effect hcall).1.ofCommit hk
    refine ⟨⟨ks ++ [k], ws ++ k.stores u, Runs.exec_snoc hexec hcall, ?_⟩, hlog⟩
    simp only at hissued
    rw [hissued, hws, List.append_assoc]
  next => trivial

theorem Cache.Inv.reaches_bread {a : BlockAddr} (hc : c.Inv d l) (h : c.Reaches u ∧ u.log = m)
    (ha : a.1 ≠ 0) :
    (bread a).wp (fun _ t => c.Reaches t ∧ t.log = m) (fun _ _ => True) u := by
  simpa only [BioCall.prog, Prog.wp_bind, Prog.wp_pure] using hc.reaches_call (k := .bread a)
    h ha rfl

theorem Cache.Inv.reaches_bwrite {v : DiskBlock} (hc : c.Inv d l) (h : c.Reaches u ∧ u.log = m) :
    (do setData i v; bwrite i : Bio Unit).wp (fun _ t => c.Reaches t ∧ t.log = m)
    (fun _ _ => True) u := by
  by_cases hl : (u.buf i).locked = true
  · exact hc.reaches_call (k := .bwrite i v) h hl rfl
  · simp [setData, bwrite, hl]

theorem Cache.Inv.reaches_brelse (hc : c.Inv d l) (h : c.Reaches u ∧ u.log = m) :
    (brelse i).wp (fun _ t => c.Reaches t ∧ t.log = m) (fun _ _ => True) u := by
  by_cases hl : (u.buf i).locked = true
  · exact hc.reaches_call (k := .brelse i) h hl rfl
  · simp [brelse, hl]

theorem Cache.Reaches.clear (h : c.Reaches u) :
    c.Reaches { u with log := { u.log with lh := [] } } := by
  obtain ⟨ks, ws, hexec, hws⟩ := h
  refine ⟨ks ++ [.clearLog], ws, Runs.exec_snoc hexec ?_, hws⟩
  simp [Cache.call, BioCall.Allowed, BioCall.prog, setLh, BioCall.stores]
  rfl

theorem Cache.Inv.reaches_copy {a b : BlockAddr} (dst src x y : BufSlot → BufSlot → BufSlot)
    (hc : c.Inv d l) (h : c.Reaches u ∧ u.log = m) (ha : a.1 ≠ 0) (hb : b.1 ≠ 0) :
    (do
      let i ← bread a
      let j ← bread b
      copyData (dst i j) (src i j)
      bwrite (dst i j)
      brelse (x i j)
      brelse (y i j) : Bio Unit).wp (fun _ t => c.Reaches t ∧ t.log = m) (fun _ _ => True) u := by
  simp only [Prog.wp_bind, copyData, Prog.wp_get]
  refine Prog.wp_imp (hc.reaches_bread h ha) fun i t ht =>
    Prog.wp_imp (hc.reaches_bread ht hb) fun j t ht => ?_
  have hw := hc.reaches_bwrite (i := dst i j) (v := (t.buf (src i j)).data) ht
  simp only [Prog.wp_bind] at hw
  refine Prog.wp_imp hw fun _ t ht => Prog.wp_imp ht fun _ t ht => ?_
  exact Prog.wp_imp (hc.reaches_brelse ht) fun _ t ht => hc.reaches_brelse ht

theorem Cache.Inv.reaches_writeHead (hc : c.Inv d l) (h : c.Reaches u ∧ u.log = m)
    (hdev : m.dev ≠ 0) :
    writeHead.wp (fun _ t => c.Reaches t ∧ t.log = m) (fun _ _ => True) u := by
  simp only [writeHead, Prog.wp_bind, Prog.wp_get]
  refine Prog.wp_imp (hc.reaches_bread h (by rw [h.2]; exact hdev)) fun i t ht => ?_
  have hw := hc.reaches_bwrite (i := i) (v := encodeHead u.log.lh (t.buf i).data) ht
  simp only [Prog.wp_bind] at hw
  exact Prog.wp_imp hw fun _ t ht => Prog.wp_imp ht fun _ t ht => hc.reaches_brelse ht

theorem Cache.Inv.reaches_writeLog (hc : c.Inv d l) (h : c.Reaches u ∧ u.log = m)
    (hdev : m.dev ≠ 0) :
    writeLog.wp (fun _ t => c.Reaches t ∧ t.log = m) (fun _ _ => True) u := by
  simp only [writeLog, Prog.wp_bind, Prog.wp_get, h.2]
  exact Prog.wp_forM (fun _ t => c.Reaches t ∧ t.log = m) h fun _ _ _ t _ ht =>
    hc.reaches_copy (fun i _ => i) (fun _ j => j) (fun _ j => j) (fun i _ => i) ht hdev hdev

theorem Cache.Inv.reaches_installTrans (hc : c.Inv d l) (h : c.Reaches u ∧ u.log = m)
    (hdev : m.dev ≠ 0) :
    installTrans.wp (fun _ t => c.Reaches t ∧ t.log = m) (fun _ _ => True) u := by
  simp only [installTrans, Prog.wp_bind, Prog.wp_get, h.2]
  exact Prog.wp_forM (fun _ t => c.Reaches t ∧ t.log = m) h fun _ _ _ t _ ht =>
    hc.reaches_copy (fun _ j => j) (fun i _ => i) (fun i _ => i) (fun _ j => j) ht hdev hdev

theorem Cache.Inv.reaches_commit (hc : c.Inv d l) (hdev : c.store.log.dev ≠ 0) :
    commit.wp (fun _ t => c.Reaches t) (fun _ _ => True) c.store := by
  have h0 : c.Reaches c.store ∧ c.store.log = c.store.log :=
    ⟨⟨[], [], by simp [Runs.exec], by simp⟩, rfl⟩
  simp only [commit, Prog.wp_bind, Prog.wp_get]
  refine Prog.wp_ite (fun _ => ?_) fun _ => h0.1
  simp only [Prog.wp_bind]
  refine Prog.wp_imp (hc.reaches_writeLog h0 hdev) fun _ t ht => ?_
  refine Prog.wp_imp (hc.reaches_writeHead ht hdev) fun _ t ht => ?_
  refine Prog.wp_imp (hc.reaches_installTrans ht hdev) fun _ t ht => ?_
  simp only [setLh, Prog.wp_modify]
  exact Prog.wp_imp (hc.reaches_writeHead (m := { c.store.log with lh := [] })
    ⟨ht.1.clear, by rw [← ht.2]⟩ hdev) fun _ _ ht => ht.1

end

theorem Cache.commit_inv (h : c.step .commit = some e) :
    ∃ t, commit c.store = (.ok ⟨⟩, t) ∧
      e = ⟨t, c.stored ++ t.issued.drop c.store.issued.length⟩ := by
  simp only [Cache.step] at h
  split at h
  next t ht => exact ⟨t, ht, (Option.some.inj h).symm⟩
  next => simp at h

theorem Cache.Inv.calls {ev : CacheEvent} (hc : c.Inv d l) (hdev : l.dev ≠ 0)
    (h : c.step ev = some e) :
    ∃ ks, Runs.exec Cache.call c ks = some e := by
  cases ev with
  | call k =>
    have hcall : c.call k = some e := by
      cases k with
      | clearLog => simp [Cache.step] at h
      | _ => exact h
    exact ⟨[k], by simp [Runs.exec, hcall]⟩
  | commit =>
    obtain ⟨t, ht, rfl⟩ := Cache.commit_inv h
    obtain ⟨ks, ws, hexec, hws⟩ :=
      (Prog.wp_ok ht).1 (hc.reaches_commit (by rw [hc.placed.1]; exact hdev))
    exact ⟨ks, by rw [hexec, hws]; simp⟩

theorem Cache.binit_inv (l : Log) (d : Disk) : (Cache.binit l d).Inv d l where
  coherent := { (boot_coherent : (Store.boot l d).Coherent) with }
  shown := boot_shows (l := l)
  held i h := by simp [Cache.binit, Store.boot, Buf.empty] at h
  placed := ⟨rfl, rfl, rfl⟩
  nodup := List.nodup_nil
  known b hb := by simp [Cache.binit] at hb
  fits h := by simp [Cache.binit] at h

theorem Cache.Inv.step {ev : CacheEvent} (hc : c.Inv d l) (hdev : l.dev ≠ 0)
    (h : c.step ev = some e) : e.Inv d l := by
  obtain ⟨ks, hks⟩ := hc.calls hdev h
  exact hc.run hks

/-- When the logged blocks lie outside the log, commit changes no other block but those of the log.
-/
theorem Cache.Inv.commit_outside (hc : c.Inv d l) (hdev : l.dev ≠ 0)
    (hout : ∀ w ∈ c.store.given, w.1.1 = l.dev ∧ ¬ l.Inside w.1) (h : c.step .commit = some e)
    {a : BlockAddr}
    (ha : ¬ l.Inside a) : Writes.apply d e.stored a = Writes.apply d c.stored a := by
  obtain ⟨t, ht, rfl⟩ := Cache.commit_inv h
  obtain ⟨hd, hstart, hsize⟩ := hc.placed
  have hplaced : c.store.log.Placed := by
    refine ⟨by rw [hd]; exact hdev, hc.nodup, fun b hb => ?_, hc.fits⟩
    obtain ⟨w, hw, rfl⟩ := hc.known b hb
    obtain ⟨hwd, hwo⟩ := hout w hw
    rw [hstart, hsize]
    by_contra hno
    exact hwo ⟨hwd, by omega, by omega⟩
  have hin : ¬ c.store.log.Inside a := by
    unfold Log.Inside at ha ⊢
    rw [hd, hstart, hsize]
    exact ha
  have hissued := ((Prog.wp_ok ht).1 (commit_after hc.coherent hc.shown hplaced)).issued
  simp only [hissued, List.drop_left, Writes.apply_append]
  by_cases hnil : c.store.log.lh = []
  · simp [Log.commitWrites, hnil]
  · exact apply_commitWrites hplaced (Nat.zero_lt_of_lt (hc.fits hnil)) (fun _ _ => rfl) hin

/-- In every sequence of calls and commits from binit on: no two buffers carry one block; each
call, also one made by commit, keeps the block of every buffer that is referenced or dirty; bread
returns what was stored last; and what commit itself stores leaves the blocks outside the log as
they were, when only such blocks are logged. -/
theorem buffer_cache_coherent {es : List CacheEvent} (hdev : l.dev ≠ 0)
    (h : Runs.exec Cache.step (Cache.binit l d) es = some c) :
    c.store.Unique ∧
    (∀ ev e, c.step ev = some e → ∃ ks, Runs.exec Cache.call c ks = some e ∧
      Runs.Meets Cache.call (fun v k =>
        v.store.Unique ∧ ∀ w, v.call k = some w → v.store.KeepsPinned w.store) c ks) ∧
    (∀ a, a.1 ≠ 0 → (bread a).wp
      (fun i t => (t.buf i).addr = a ∧ (t.buf i).data = Writes.apply d c.stored a)
      (fun _ _ => ¬ c.store.Available a) c.store) ∧
    ((∀ w ∈ c.store.given, w.1.1 = l.dev ∧ ¬ l.Inside w.1) → ∀ e, c.step .commit = some e →
      ∀ a, ¬ l.Inside a → Writes.apply d e.stored a = Writes.apply d c.stored a) := by
  have hc : c.Inv d l := Runs.invariant (I := Cache.Inv d l) (Cache.binit_inv l d)
    (fun _ _ _ hv => hv.step hdev) h
  refine ⟨hc.coherent.unique, fun ev e hstep => ?_, fun a ha => ?_, fun hout e hstep a ha => ?_⟩
  · obtain ⟨ks, hks⟩ := hc.calls hdev hstep
    refine ⟨ks, hks, fun pre k post v _ hpre => ?_⟩
    have hv := hc.run hpre
    exact ⟨hv.coherent.unique, fun w hw => (hv.effect hw).1.keepsPinned⟩
  · refine Prog.wp_mono (bread_spec hc.coherent hc.shown ha) ?_ fun _ _ hno => hno.2
    rintro i t ⟨b, rfl, hb⟩
    simp [hb.addr, hb.data]
  · exact hc.commit_outside hdev hout hstep ha

/-- Block 40 is logged, given back, committed and read again. -/
def logAndRead : List CacheEvent :=
  [.call (.bread (1, 40)), .call (.logWrite 0 fun _ => 7), .call (.brelse 0), .commit]

theorem buffer_cache_coherent_block :
    ∃ c, Runs.exec Cache.step (Cache.binit mkfsLog fun _ _ => 0) logAndRead = some c ∧
      (bread (1, 40)).wp (fun i t => (t.buf i).addr = (1, 40) ∧
        (t.buf i).data = Writes.apply (fun _ _ => 0) c.stored (1, 40)) (fun _ _ => ¬ c.store.Available (1, 40)) c.store := by
  have hrun : (Runs.exec Cache.step (Cache.binit mkfsLog fun _ _ => 0) logAndRead).isSome =
    true := by decide +kernel
  obtain ⟨c, hc⟩ := Option.isSome_iff_exists.1 hrun
  exact ⟨c, hc, (buffer_cache_coherent (by decide) hc).2.2.1 (1, 40) (by decide)⟩

end Xv6
