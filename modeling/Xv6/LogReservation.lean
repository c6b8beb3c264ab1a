import Xv6.GroupCommit

namespace Xv6

variable {Pid : Type}

/-- The distinct blocks that the operation with number n has logged. -/
def opBlocks (writes : List (Nat × BlockAddr × DiskBlock)) (n : Nat) : Finset BlockAddr :=
  ((writes.filter fun w => w.1 = n).map fun w => w.2.1).toFinset

/-- An operation that calls log_write has logged at most n distinct blocks, this one included. -/
def LogSys.LogsAtMost (n : Nat) (s : LogSys Pid) : LogEvent Pid → Prop
  | .logWrite p i => (insert (s.store.buf i).addr (opBlocks s.writes (s.op p))).card ≤ n
  | _ => True

instance (n : Nat) (s : LogSys Pid) (e : LogEvent Pid) : Decidable (s.LogsAtMost n e) := by
  cases e <;> unfold LogSys.LogsAtMost <;> infer_instance

/-- How many more blocks the operations can log: with at most m each, two slots of the log stay
unused. -/
structure Reserved [Fintype Pid] (m n : Nat) (buf : BufSlot → Buf) (pc : Pid → OpPc)
    (op : Pid → Nat) (writes : List (Nat × BlockAddr × DiskBlock)) : Prop where
  modest : ∀ p, (pc p).isOpen → (opBlocks writes (op p)).card ≤ m
  logging : ∀ p i, pc p = .logging i → (insert (buf i).addr (opBlocks writes (op p))).card ≤ m
  total : n + ∑ p, (if (pc p).isOpen then m - (opBlocks writes (op p)).card else 0) + 2 ≤ LOGSIZE

section

variable [Fintype Pid] [DecidableEq Pid] {m n k : Nat} {buf buf' : BufSlot → Buf} {pc : Pid → OpPc}
  {op : Pid → Nat}
  {ws : List (Nat × BlockAddr × DiskBlock)} {p : Pid} {v : OpPc}

theorem Reserved.frame (h : Reserved m n buf pc op ws) (hopen : v.isOpen → (pc p).isOpen)
    (hk : k ≤ n) (haddr : ∀ q i, pc q = .logging i → (buf' i).addr = (buf i).addr)
    (hlog : ∀ i, v = .logging i → (insert (buf' i).addr (opBlocks ws (op p))).card ≤ m) :
    Reserved m k buf' (Function.update pc p v) op ws := by
  have hold : ∀ q, (Function.update pc p v q).isOpen → (pc q).isOpen := by
    intro q hq
    rcases eq_or_ne q p with rfl | hqp
    · exact hopen (by simpa using hq)
    · simpa [hqp] using hq
  refine ⟨fun q hq => h.modest q (hold q hq), ?_, ?_⟩
  · intro q i hq
    rcases eq_or_ne q p with rfl | hqp
    · exact hlog i (by simpa using hq)
    · rw [Function.update_of_ne hqp] at hq
      rw [haddr q i hq]
      exact h.logging q i hq
  · have hsum : ∑ q, (if (Function.update pc p v q).isOpen then m - (opBlocks ws (op q)).card
        else 0) ≤
        ∑ q, (if (pc q).isOpen then m - (opBlocks ws (op q)).card else 0) := by
      refine Finset.sum_le_sum fun q _ => ?_
      by_cases hq : (Function.update pc p v q).isOpen
      · rw [if_pos hq, if_pos (hold q hq)]
      · rw [if_neg hq]
        exact Nat.zero_le _
    have htotal := h.total
    omega

/-- begin_op reserves more for an operation than it will use. -/
theorem Reserved.enter (h : Reserved m n buf pc op ws) (hm : m < MAXOPBLOCKS)
    (hclosed : (pc p).isOpen = false) (hfresh : opBlocks ws k = ∅)
    (hcheck : n + ((Counts.count pc fun v => v.isOpen) + 1) * MAXOPBLOCKS ≤ LOGSIZE)
    (hzero : (∀ q, (pc q).isOpen = false) → n = 0) :
    Reserved m n buf (Function.update pc p .inOp) (Function.update op p k) ws := by
  have hother : ∀ q, q ≠ p →
      Function.update pc p .inOp q = pc q ∧ Function.update op p k q = op q := by
    intro q hq
    exact ⟨Function.update_of_ne hq .., Function.update_of_ne hq ..⟩
  refine ⟨?_, ?_, ?_⟩
  · intro q hq
    rcases eq_or_ne q p with rfl | hqp
    · simp [hfresh]
    · rw [(hother q hqp).1] at hq
      rw [(hother q hqp).2]
      exact h.modest q hq
  · intro q i hq
    rcases eq_or_ne q p with rfl | hqp
    · simp at hq
    · rw [(hother q hqp).1] at hq
      rw [(hother q hqp).2]
      exact h.logging q i hq
  · have hsum := Counts.sum_change (p := p)
      (g := fun q => if (pc q).isOpen then m - (opBlocks ws (op q)).card else 0)
      (h := fun q => if (Function.update pc p .inOp q).isOpen then
        m - (opBlocks ws (Function.update op p k q)).card else 0) (fun q hq => by
        rw [(hother q hq).1, (hother q hq).2])
    simp only [Function.update_self, hclosed, hfresh, Finset.card_empty, Nat.sub_zero,
      Bool.false_eq_true, if_false, Nat.add_zero] at hsum
    rw [if_pos (show OpPc.inOp.isOpen = true from rfl)] at hsum
    have hbound := Counts.sum_le_count (f := pc) (c := fun v => v.isOpen) (n := m)
      (g := fun q => if (pc q).isOpen then m - (opBlocks ws (op q)).card else 0) fun q => by
        split <;> omega
    by_cases hnone : ∀ q, (pc q).isOpen = false
    · rw [Counts.count_eq_zero.mpr (by simpa using hnone)] at hbound
      have hn := hzero hnone
      have : LOGSIZE = 30 := rfl
      have : MAXOPBLOCKS = 10 := rfl
      omega
    · have hpos : 0 < Counts.count pc fun v => v.isOpen := by
        rw [Nat.pos_iff_ne_zero]
        intro hc
        exact hnone (by simpa using Counts.count_eq_zero.mp hc)
      rw [Nat.add_mul, Nat.one_mul] at hcheck
      generalize (Counts.count pc fun v => v.isOpen) = c at *
      have hmul : c * m + c ≤ c * MAXOPBLOCKS := by
        rw [← Nat.mul_succ]
        exact Nat.mul_le_mul_left c hm
      have : LOGSIZE = 30 := rfl
      have : MAXOPBLOCKS = 10 := rfl
      omega

theorem opBlocks_append {w : BlockAddr × DiskBlock} :
    opBlocks (ws ++ [(k, w)]) n = if k = n then insert w.1 (opBlocks ws n) else opBlocks ws n := by
  unfold opBlocks
  rw [List.filter_append, List.map_append, List.toFinset_append]
  split
  next h => simp [h, Finset.union_comm]
  next h => simp [h]

/-- A block is recorded: it was reserved, or the operation has logged it before. -/
theorem Reserved.record {i : BufSlot} {data : DiskBlock} (h : Reserved m n buf pc op ws)
    (hpc : pc p = .logging i) (hdistinct : ∀ q, (pc q).isOpen → op q = op p → q = p)
    (hk : k ≤ n + 1 ∧ ((buf i).addr ∈ opBlocks ws (op p) → k = n))
    (haddr : ∀ j, (buf' j).addr = (buf j).addr) :
    Reserved m k buf' (Function.update pc p .inOp) op (ws ++ [(op p, (buf i).addr, data)]) := by
  have hother : ∀ q, q ≠ p → (pc q).isOpen →
      opBlocks (ws ++ [(op p, (buf i).addr, data)]) (op q) = opBlocks ws (op q) := by
    intro q hq hopen
    rw [opBlocks_append, if_neg fun he => hq (hdistinct q hopen he.symm)]
  have hself : opBlocks (ws ++ [(op p, (buf i).addr, data)]) (op p) =
      insert (buf i).addr (opBlocks ws (op p)) := by
    rw [opBlocks_append, if_pos rfl]
  have hmax := h.logging p i hpc
  refine ⟨?_, ?_, ?_⟩
  · intro q hq
    rcases eq_or_ne q p with rfl | hqp
    · rw [hself]
      exact hmax
    · rw [Function.update_of_ne hqp] at hq
      rw [hother q hqp hq]
      exact h.modest q hq
  · intro q j hq
    rcases eq_or_ne q p with rfl | hqp
    · simp at hq
    · rw [Function.update_of_ne hqp] at hq
      rw [hother q hqp (by rw [hq]; rfl), haddr]
      exact h.logging q j hq
  · have hsum := Counts.sum_change (p := p)
      (g := fun q => if (pc q).isOpen then m - (opBlocks ws (op q)).card else 0)
      (h := fun q => if (Function.update pc p .inOp q).isOpen then
        m - (opBlocks (ws ++ [(op p, (buf i).addr, data)]) (op q)).card else 0) (fun q hq => by
        rw [Function.update_of_ne hq]
        by_cases hopen : (pc q).isOpen
        · rw [if_pos hopen, if_pos hopen, hother q hq hopen]
        · rw [if_neg hopen, if_neg hopen])
    simp only [Function.update_self, hpc, hself] at hsum
    rw [if_pos (show (OpPc.logging i).isOpen = true from rfl),
      if_pos (show OpPc.inOp.isOpen = true from rfl)] at hsum
    have htotal := h.total
    by_cases hmem : (buf i).addr ∈ opBlocks ws (op p)
    · rw [Finset.insert_eq_of_mem hmem] at hsum
      have := hk.2 hmem
      omega
    · rw [Finset.card_insert_of_notMem hmem] at hsum hmax
      have := hk.1
      omega

end

/-- Locked buffers keep their blocks, and the header is not touched. -/
structure Store.Pinned (s u : Store) : Prop where
  lh : u.log.lh = s.log.lh
  addr : ∀ k, (s.buf k).locked = true → (u.buf k).addr = (s.buf k).addr

theorem pinned_setBuf {s : Store} {i : BufSlot} {b : Buf}
    (h : (s.buf i).locked = true → b.addr = (s.buf i).addr) :
    s.Pinned (s.setBuf i b) := by
  refine ⟨rfl, fun k hk => ?_⟩
  rcases eq_or_ne k i with rfl | hki
  · simpa using h hk
  · simp [hki]

def LogSys.Reserves [Fintype Pid] (m : Nat) (s : LogSys Pid) : Prop :=
  Reserved m s.store.log.lh.length s.store.buf s.pc s.op s.writes

section

variable [Fintype Pid] [DecidableEq Pid] {d : Disk} {l : Log} {s t : LogSys Pid} {m : Nat} {p : Pid}
  {v : OpPc}

theorem LogSys.Reserves.pinned {α : Type} {x : Bio α} {site : Site} {next : α → Store → LogSys Pid}
    (h : s.Reserves m) (hs : s.Inv d l) (hstep : s.section site x next = some t)
    (hp : t.panicked = none) (hx : x.wp (fun _ u => s.store.Pinned u) (fun _ _ => True) s.store)
    (hnext : ∀ a u, (next a u).store = u ∧ (∃ v, (next a u).pc = Function.update s.pc p v ∧
      (v.isOpen → (s.pc p).isOpen) ∧ ∀ i, v = .logging i → s.owner i = some p ∧
        (insert (s.store.buf i).addr (opBlocks s.writes (s.op p))).card ≤ m) ∧
      (next a u).op = s.op ∧ (next a u).writes = s.writes) : t.Reserves m := by
  rcases LogSys.section_cases hx hstep with ⟨a, u, hu, rfl⟩ | ⟨w, u, _, rfl⟩
  · obtain ⟨hstore, ⟨v, hpc, hopen, hlog⟩, hop, hwrites⟩ := hnext a u
    have howned : ∀ q i, s.owner i = some q → (u.buf i).addr = (s.store.buf i).addr := by
      intro q i hi
      refine hu.addr i ?_
      rw [hs.bufs.locked i, hi]
      rfl
    unfold LogSys.Reserves
    rw [hstore, hpc, hop, hwrites]
    refine Reserved.frame h hopen (Nat.le_of_eq (by rw [hu.lh])) (fun q i hq => ?_) fun i hv => ?_
    · exact howned q i (hs.bufs.holder q i (Or.inr hq))
    · obtain ⟨hi, hcard⟩ := hlog i hv
      rw [howned p i hi]
      exact hcard
  · simp at hp

omit [DecidableEq Pid] in
theorem LogSys.Inv.lh_empty (hs : s.Inv d l)
    (hnone : ∀ q, (s.pc q).isOpen = false ∧ s.pc q ≠ .committing) :
    s.store.log.lh = [] := by
  have hflushed := (hs.history.settled hnone).2
  have hlen : s.store.given.length = s.writes.length := by rw [hs.contents.given, List.length_map]
  refine List.eq_nil_iff_forall_not_mem.mpr fun b hb => ?_
  have hmem := (hs.contents.logged _).mpr ⟨b, hb, rfl⟩
  rw [hflushed, ← hlen, List.drop_length] at hmem
  simp at hmem

omit [DecidableEq Pid] in
theorem LogSys.Inv.fresh (hs : s.Inv d l) : opBlocks s.writes s.begun = ∅ := by
  have hnone : s.writes.filter (fun w => w.1 = s.begun) = [] := by
    refine List.filter_eq_nil_iff.mpr fun w hw => ?_
    rw [← List.take_append_drop s.committedWrites s.writes] at hw
    have hord := hs.history.ordered
    rcases List.mem_append.mp hw with hw | hw
    · have := hs.history.before w hw
      simp only [decide_eq_true_eq]
      omega
    · have := hs.history.after w hw
      simp only [decide_eq_true_eq]
      omega
  simp [opBlocks, hnone]

omit [DecidableEq Pid] in
theorem LogSys.Inv.mem_lh (hs : s.Inv d l) (hopen : (s.pc p).isOpen) {a : BlockAddr}
    (ha : a ∈ opBlocks s.writes (s.op p)) : a.2 ∈ s.store.log.lh := by
  simp only [opBlocks, List.mem_toFinset, List.mem_map, List.mem_filter, decide_eq_true_eq] at ha
  obtain ⟨w, ⟨hw, hop⟩, rfl⟩ := ha
  have hlow := (hs.history.ops p hopen).1
  rw [← List.take_append_drop s.committedWrites s.writes] at hw
  rcases List.mem_append.mp hw with hw | hw
  · have := hs.history.before w hw
    omega
  · have hmem : w.2.1 ∈ (s.store.given.drop s.committedWrites).map Prod.fst := by
      rw [hs.contents.given, ← List.map_drop, List.map_map]
      exact List.mem_map.mpr ⟨w, hw, rfl⟩
    obtain ⟨b, hb, he⟩ := (hs.contents.logged _).mp hmem
    rw [he]
    exact hb

theorem bgetSlot_pinned {s : Store} {a : BlockAddr} (hs : s.Coherent) :
    (bgetSlot a).wp (fun _ u => s.Pinned u) (fun _ _ => True) s := by
  refine Prog.wp_mono (bgetSlot_keeps hs) ?_ fun _ _ _ => trivial
  rintro i _ ⟨b, rfl, _, _, _, _, rfl | hfree⟩
  · exact pinned_setBuf fun _ => rfl
  · exact pinned_setBuf fun hlocked => by simp [hfree] at hlocked

theorem bfill_pinned {s : Store} {i : BufSlot} :
    (bfill i).wp (fun _ u => s.Pinned u) (fun _ _ => True) s := by
  simp only [bfill, Prog.wp_bind, Prog.wp_get]
  refine Prog.wp_ite (fun _ => ?_) fun _ => ⟨rfl, fun _ _ => rfl⟩
  simp only [iderw, Prog.wp_bind, Prog.wp_get]
  refine Prog.wp_ite (fun _ => trivial) fun _ => Prog.wp_ite (fun _ => trivial) fun _ =>
    Prog.wp_ite (fun _ => trivial) fun _ => Prog.wp_ite (fun _ => ?_) fun _ => pinned_setBuf fun _ => rfl
  exact ⟨rfl, (pinned_setBuf (s := s) (i := i) (b := { s.buf i with valid := true, dirty := false }) fun _ => rfl).addr⟩

theorem bput_pinned {s : Store} {i : BufSlot} :
    (bput i).wp (fun _ u => s.Pinned u) (fun _ _ => True) s := by
  have hset := pinned_setBuf (s := s) (i := i)
    (b := { s.buf i with refcnt := (s.buf i).refcnt - 1 }) fun _ => rfl
  simp only [bput, Prog.wp_modify]
  split
  next => exact ⟨hset.lh, hset.addr⟩
  next => exact hset

theorem LogSys.Reserves.beginOp (h : s.Reserves m) (hs : s.Inv d l) (hm : m < MAXOPBLOCKS)
    (hstep : s.next (.beginOp p) = some t) (hp : t.panicked = none) : t.Reserves m := by
  have hwp : beginOpTry.wp (fun a u => u.buf = s.store.buf ∧ u.log.lh = s.store.log.lh ∧
      (a = true → s.store.log.committing = false ∧
        s.store.log.lh.length + (s.store.log.outstanding + 1) * MAXOPBLOCKS ≤ LOGSIZE)) (fun _ _ => True) s.store := by
    simp only [beginOpTry, Prog.wp_bind, Prog.wp_get]
    refine Prog.wp_ite (fun _ => ⟨rfl, rfl, by simp⟩) fun hc =>
      Prog.wp_ite (fun _ => ⟨rfl, rfl, by simp⟩) fun hsmall => ?_
    exact ⟨rfl, rfl, fun _ => ⟨by simpa using hc, by omega⟩⟩
  simp only [LogSys.next] at hstep
  split at hstep
  next hpc =>
    have hclosed : (s.pc p).isOpen = false := by rcases hpc with hpc | hpc <;> rw [hpc] <;> rfl
    rcases LogSys.section_cases hwp hstep with ⟨a, u, ⟨hbuf, hlh, henter⟩, rfl⟩ | ⟨w, u, _, rfl⟩
    · cases a with
      | false =>
        simp only [LogSys.Reserves, LogSys.enterOp, Bool.false_eq_true, if_false, hbuf, hlh]
        exact Reserved.frame h (fun ho => by simp [OpPc.isOpen] at ho) (Nat.le_refl _) (fun _ _ _ => rfl) (by simp)
      | true =>
        obtain ⟨hc, hcheck⟩ := henter rfl
        simp only [LogSys.Reserves, LogSys.enterOp, if_true, hbuf, hlh]
        rw [hs.phase.counted] at hcheck
        refine Reserved.enter h hm hclosed hs.fresh hcheck fun hquiet => ?_
        rw [hs.lh_empty fun q => ⟨hquiet q, fun hq => ?_⟩]
        · rfl
        · have := hs.phase.flagged.mpr ⟨q, by rw [hq]; rfl⟩
          simp [hc] at this
    · simp at hp
  next => simp at hstep

theorem LogSys.Reserves.record {data : DiskBlock} (h : s.Reserves m) (hs : s.Inv d l)
    (hstep : s.next (.record p data) = some t) (hp : t.panicked = none) : t.Reserves m := by
  simp only [LogSys.next] at hstep
  split at hstep
  next i hpc =>
    have hwp : (do setData i data; logWriteRecord i : Bio Unit).wp
        (fun _ u => u = s.store.logged i data)
        (fun _ _ => True) s.store := by
      simp only [Prog.wp_bind, setData, Prog.wp_modify, logWriteRecord]
      simp [Store.logged, Store.setBuf]
    have hopen : (s.pc p).isOpen := by rw [hpc]; rfl
    rcases LogSys.section_cases hwp hstep with ⟨a, u, rfl, rfl⟩ | ⟨w, u, _, rfl⟩
    · refine Reserved.record h hpc (fun q hq he => hs.history.distinct q p hq hopen he)
        ⟨length_addBlock _ _, fun hmem => ?_⟩
        fun j => ?_
      · simp only [Store.logged]
        rw [if_pos (hs.mem_lh hopen hmem)]
      · rcases eq_or_ne j i with rfl | hj
        · simp [Store.logged]
        · simp [Store.logged, hj]
    · simp at hp
  next => simp at hstep

theorem LogSys.Reserves.commit (h : s.Reserves m) (hs : s.Inv d l) (ht : t.Inv d l)
    (hstep : s.next (.commit p) = some t) (hp : t.panicked = none) : t.Reserves m := by
  simp only [LogSys.next] at hstep
  split at hstep
  next hpc =>
    have hquiet := hs.phase.quiet (hs.phase.flagged.mpr ⟨p, by rw [hpc]; rfl⟩)
    rcases LogSys.section_cases (Prog.wp_true _) hstep with ⟨a, u, _, rfl⟩ | ⟨w, u, _, rfl⟩
    · have hnone : ∀ q, (Function.update s.pc p .committed q).isOpen = false ∧
          Function.update s.pc p .committed q ≠ .committing := by
        intro q
        rcases eq_or_ne q p with rfl | hqp
        · simp [OpPc.isOpen]
        · rw [Function.update_of_ne hqp]
          refine ⟨hquiet q, fun hq => hqp ?_⟩
          exact hs.phase.alone q p (by rw [hq]; rfl) (by rw [hpc]; rfl)
      have hempty : u.log.lh = [] := ht.lh_empty hnone
      refine Reserved.frame h (fun ho => by simp [OpPc.isOpen] at ho) (by simp [hempty])
        (fun q i hq => ?_) (by simp)
      have := hquiet q
      simp [hq, OpPc.isOpen] at this
    · simp at hp
  next => simp at hstep

theorem LogSys.Reserves.step {e : LogEvent Pid} (h : s.Reserves m) (hs : s.Inv d l)
    (hm : m < MAXOPBLOCKS) (hguard : s.LogsAtMost m e) (hstep : s.step e = some t)
    (hp : t.panicked = none) (ht : t.Inv d l) :
    t.Reserves m := by
  unfold LogSys.step at hstep
  split at hstep
  next =>
    cases e with
    | beginOp p => exact h.beginOp hs hm hstep hp
    | record p data => exact h.record hs hstep hp
    | commit p => exact h.commit hs ht hstep hp
    | bget p b =>
      simp only [LogSys.next] at hstep
      split at hstep
      next hpc =>
        exact h.pinned (p := p) hs hstep hp (bgetSlot_pinned hs.contents.coherent) fun i u =>
          ⟨rfl, ⟨_, rfl, fun _ => by rw [hpc.1]; rfl, by simp⟩, rfl, rfl⟩
      next => simp at hstep
    | lockBuf p =>
      simp only [LogSys.next] at hstep
      split at hstep
      next i hpc =>
        refine h.pinned (p := p) hs hstep hp ?_ fun _ u => ⟨rfl, ⟨_, rfl, fun _ => by rw [hpc]; rfl, by simp⟩, rfl, rfl⟩
        simp only [acquiresleep, Prog.wp_bind, Prog.wp_get]
        exact Prog.wp_ite (fun _ => trivial) fun _ => pinned_setBuf fun _ => rfl
      next => simp at hstep
    | fill p =>
      simp only [LogSys.next] at hstep
      split at hstep
      next i hpc =>
        exact h.pinned (p := p) hs hstep hp bfill_pinned fun _ u =>
          ⟨rfl, ⟨_, rfl, fun _ => by rw [hpc]; rfl, by simp⟩, rfl, rfl⟩
      next => simp at hstep
    | logWrite p i =>
      simp only [LogSys.next] at hstep
      split at hstep
      next hpc =>
        refine h.pinned (p := p) hs hstep hp ?_ fun _ u =>
          ⟨rfl, ⟨.logging i, rfl, fun _ => by rw [hpc.1]; rfl, fun j hj => ?_⟩, rfl, rfl⟩
        · simp only [logWriteCheck, Prog.wp_bind, Prog.wp_get]
          exact Prog.wp_ite (fun _ => trivial) fun _ => Prog.wp_ite (fun _ => trivial) fun _ => ⟨rfl, fun _ _ => rfl⟩
        · cases hj
          exact ⟨hpc.2, hguard⟩
      next => simp at hstep
    | unlock p i =>
      simp only [LogSys.next] at hstep
      split at hstep
      next hpc =>
        refine h.pinned (p := p) hs hstep hp ?_ fun _ u => ⟨rfl, ⟨_, rfl, fun _ => by rw [hpc.1]; rfl, by simp⟩, rfl, rfl⟩
        exact pinned_setBuf fun _ => rfl
      next => simp at hstep
    | put p =>
      simp only [LogSys.next] at hstep
      split at hstep
      next i hpc =>
        exact h.pinned (p := p) hs hstep hp bput_pinned fun _ u =>
          ⟨rfl, ⟨_, rfl, fun _ => by rw [hpc]; rfl, by simp⟩, rfl, rfl⟩
      next => simp at hstep
    | endOp p =>
      simp only [LogSys.next] at hstep
      split at hstep
      next hpc =>
        refine h.pinned (p := p) hs hstep hp ?_ fun c u => ⟨rfl, ⟨_, rfl, fun _ => by rw [hpc.1]; rfl, ?_⟩, rfl, rfl⟩
        · simp only [endOpLeave, Prog.wp_bind, Prog.wp_modify, Prog.wp_get]
          exact Prog.wp_ite (fun _ => trivial) fun _ => Prog.wp_ite (fun _ => ⟨rfl, fun _ _ => rfl⟩) fun _ =>
            ⟨rfl, fun _ _ => rfl⟩
        · cases c <;> simp
      next => simp at hstep
    | endCommit p =>
      simp only [LogSys.next] at hstep
      split at hstep
      next hpc =>
        refine h.pinned (p := p) hs hstep hp ?_ fun _ u => ⟨rfl, ⟨.idle, rfl, fun ho => ?_, by simp⟩, rfl, rfl⟩
        · exact ⟨rfl, fun _ _ => rfl⟩
        · simp [OpPc.isOpen] at ho
      next => simp at hstep
  next => simp at hstep

end

/-- The machine runs on with the reservation kept, or has stopped neither because the log was
full nor in a commit. -/
def LogSys.RoomKept [Fintype Pid] (m : Nat) (d : Disk) (l : Log) (s : LogSys Pid) : Prop :=
  (s.panicked = none ∧ s.Inv d l ∧ s.Reserves m) ∨
    ∃ w, s.panicked = some (.operation, w) ∧ w ≠ .tooBigTransaction

section

variable [Fintype Pid] {d : Disk} {l : Log} {s : LogSys Pid} {m : Nat}

theorem LogSys.Reserves.length_le (h : s.Reserves m) : s.store.log.lh.length + 2 ≤ LOGSIZE := by
  have := h.total
  omega

theorem LogSys.Reserves.room (h : s.Reserves m) (hs : s.Inv d l) (hsize : LOGSIZE ≤ l.size)
    (harea : l.start + l.size ≤ FSSIZE) (hquiet : ∀ q, (s.pc q).isOpen = false) :
    s.store.Room s.store.log := by
  have hlen := h.length_le
  have hhome : ∀ b, s.store.log.homeAddr b = l.homeAddr b := by
    intro b
    simp only [Log.homeAddr, hs.contents.dev]
  refine ⟨fun k => (hs.bufs.unused hquiet k).2, ?_, ?_, Or.inr ⟨?_, ?_, ?_⟩⟩
  · rw [hs.contents.start]
    omega
  · intro b hb
    obtain ⟨k, hk, hd⟩ := (hs.contents.dirty _).mpr ⟨b, hb, rfl⟩
    have hr := hs.contents.coherent.inRange k (hs.contents.coherent.dirtyValid k hd)
    rw [hk] at hr
    exact hr
  · have : NBUF = LOGSIZE := rfl
    omega
  · intro a ha
    simpa only [hhome] using (hs.contents.dirty a).mp ha
  · intro b hb
    exact (hs.contents.dirty _).mpr ⟨b, hb, hhome b⟩

variable [DecidableEq Pid]

/-- Where every operation logs fewer than MAXOPBLOCKS distinct blocks, begin_op has reserved
enough: no log_write finds the log full, and no commit runs out of buffers or fails otherwise. -/
theorem log_reservation_sound {t : Store} {es : List (LogEvent Pid)} (ht : t.Started)
    (hsize : LOGSIZE ≤ t.log.size)
    (hmeets : Runs.Meets LogSys.step (LogSys.LogsAtMost (MAXOPBLOCKS - 1)) (LogSys.boot t) es)
    (h : Runs.exec LogSys.step (LogSys.boot t) es = some s) :
    s.panicked ≠ some (.operation, .tooBigTransaction) ∧ ∀ w, s.panicked ≠ some (.commit, w) := by
  have hkept : s.RoomKept (MAXOPBLOCKS - 1) t.disk t.log := by
    refine Runs.invariant_of_meets (Or.inl ⟨rfl, LogSys.boot_inv ht, ?_⟩)
      (fun s e u hs hguard hstep => ?_) hmeets h
    · refine ⟨by simp [LogSys.boot, OpPc.isOpen], by simp [LogSys.boot], ?_⟩
      simp only [LogSys.boot, OpPc.isOpen, ht.ready.empty, List.length_nil, Bool.false_eq_true, if_false,
        Finset.sum_const_zero]
      decide
    · rcases hs with ⟨hp, hinv, hres⟩ | ⟨w, hp, _⟩
      · rcases hinv.step ht.ready.dev hsize hstep with ⟨hu, huinv⟩ | ⟨site, w, hu, hfails⟩
        · exact Or.inl ⟨hu, huinv, hres.step hinv (by decide) hguard hstep hu huinv⟩
        · cases hfails with
          | bget p b => exact Or.inr ⟨_, hu, by simp⟩
          | fill p => exact Or.inr ⟨_, hu, by simp⟩
          | logWrite p i hbig =>
            have hlen := hres.length_le
            rw [hinv.contents.size] at hbig
            omega
          | commit p hroom _ =>
            refine absurd (hres.room hinv hsize ht.ready.area.2 ?_) hroom
            have hpc : s.pc p = .committing := by
              simp only [LogSys.step, hp, if_true, LogSys.next] at hstep
              split at hstep
              next hpc => exact hpc
              next => simp at hstep
            exact hinv.phase.quiet (hinv.phase.flagged.mpr ⟨p, by rw [hpc]; rfl⟩)
      · simp [LogSys.step, hp] at hstep
  rcases hkept with ⟨hp, _⟩ | ⟨w, hp, hne⟩
  · simp [hp]
  · simp [hp, hne]

end

theorem log_reservation_sound_two_ops :
    ∃ s, Runs.exec LogSys.step (LogSys.boot (Store.boot mkfsLog fun _ _ => 0)) overlappingOps =
      some s ∧
      s.panicked ≠ some (.operation, .tooBigTransaction) ∧ ∀ w, s.panicked ≠ some (.commit, w) := by
  have hrun : (Runs.exec LogSys.step (LogSys.boot (Store.boot mkfsLog fun _ _ => 0))
      overlappingOps).isSome := by
    decide +kernel
  obtain ⟨s, hs⟩ := Option.isSome_iff_exists.mp hrun
  exact ⟨s, hs, log_reservation_sound (boot_started (by decide) (by decide) (by decide)) (by decide)
    (Runs.meets_of_check (by decide +kernel)) hs⟩

/-- A process logs block 100 + k through buffer k and gives the buffer back. -/
def logOnce (p : Fin 3) (k : Nat) : List (LogEvent (Fin 3)) :=
  [.bget p (100 + k), .lockBuf p, .fill p, .logWrite p (Fin.ofNat NBUF k), .record p fun _ => 1,
    .unlock p (Fin.ofNat NBUF k), .put p]

def mkfsBoot : LogSys (Fin 3) := LogSys.boot (Store.boot mkfsLog fun _ _ => 0)

/-- Three operations that begin together, each of which logs ten blocks. -/
def threeFullOps : List (LogEvent (Fin 3)) :=
  [.beginOp 0, .beginOp 1, .beginOp 2] ++
    (List.range 29).flatMap (fun k => logOnce (Fin.ofNat 3 (k / 10)) k) ++
    [.bget 2 129, .lockBuf 2, .fill 2, .logWrite 2 29]

/-- The same operations, but two of them pass the check of log_write before either records its
last block. -/
def threeRacingOps : List (LogEvent (Fin 3)) :=
  [.beginOp 0, .beginOp 1, .beginOp 2] ++
    (List.range 28).flatMap (fun k => logOnce (Fin.ofNat 3 (k / 9)) k) ++
    [.bget 1 128, .bget 2 129, .lockBuf 1, .lockBuf 2, .fill 1, .fill 2, .logWrite 1 28,
      .logWrite 2 29,
      .record 1 (fun _ => 1), .record 2 (fun _ => 1), .unlock 1 28, .put 1, .unlock 2 29, .put 2,
        .endOp 0, .endOp 1,
      .endOp 2, .commit 2]

theorem log_reservation_overrun :
    (Runs.Meets LogSys.step (LogSys.LogsAtMost MAXOPBLOCKS) mkfsBoot threeFullOps ∧
      (Runs.exec LogSys.step mkfsBoot threeFullOps).map LogSys.panicked =
        some (some (.operation, .tooBigTransaction))) ∧
    Runs.Meets LogSys.step (LogSys.LogsAtMost MAXOPBLOCKS) mkfsBoot threeRacingOps ∧
      (Runs.exec LogSys.step mkfsBoot threeRacingOps).map LogSys.panicked =
        some (some (.commit, .bgetNoBuffers)) :=
  ⟨⟨Runs.meets_of_check (by decide +kernel), by decide +kernel⟩,
    Runs.meets_of_check (by decide +kernel), by decide +kernel⟩

end Xv6
