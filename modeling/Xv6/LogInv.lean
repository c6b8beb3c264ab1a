import Xv6.BioRuns
import Xv6.Counts
import Xv6.LogSteps

namespace Xv6

/-- Between begin_op and end_op. -/
def OpPc.isOpen : OpPc → Bool
  | .inOp | .locking _ | .filling _ | .logging _ | .putting _ => true
  | _ => false

def OpPc.isCommitter : OpPc → Bool
  | .committing | .committed => true
  | _ => false

/-- A reference to the buffer beside the one that goes with its lock. -/
def OpPc.refers (i : BufSlot) : OpPc → Bool
  | .locking j | .putting j => i = j
  | _ => false

def Log.Outside (l : Log) (a : BlockAddr) : Prop := a.1 = l.dev ∧ ¬ l.Inside a

variable {Pid : Type}

/-- The blocks: with d the disk at the start, the home blocks hold the log_writes up to the last
commit, and the cache shows the later ones on top. -/
structure LogContents (d : Disk) (l : Log) (t : Store) (writes : List (Nat × BlockAddr × DiskBlock))
    (flushed : Nat) : Prop where
  coherent : t.Coherent
  dev : t.log.dev = l.dev
  start : t.log.start = l.start
  size : t.log.size = l.size
  shown : t.Shows (Writes.apply t.disk (t.given.drop flushed))
  given : t.given = writes.map Prod.snd
  flushedLe : flushed ≤ writes.length
  disk : ∀ a, ¬ l.Inside a → t.disk a = Writes.apply d (t.given.take flushed) a
  nodup : t.log.lh.Nodup
  dirty : ∀ a, t.DirtyAt a ↔ ∃ b ∈ t.log.lh, a = l.homeAddr b
  logged : ∀ a, a ∈ (t.given.drop flushed).map Prod.fst ↔ ∃ b ∈ t.log.lh, a = l.homeAddr b
  outside : ∀ b ∈ t.log.lh, ¬ l.Inside (l.homeAddr b)

/-- The buffers: a locked one has an owner in an operation, and the references are counted. -/
structure LogBufs [Fintype Pid] (l : Log) (buf : BufSlot → Buf) (pc : Pid → OpPc)
    (owner : BufSlot → Option Pid) :
    Prop where
  locked : ∀ i, (buf i).locked = (owner i).isSome
  owned : ∀ i p, owner i = some p → (pc p).isOpen ∧ (pc p = .filling i ∨ (buf i).valid)
  home : ∀ i, ((owner i).isSome ∨ ∃ p, (pc p).refers i) → l.Outside (buf i).addr
  holder : ∀ p i, pc p = .filling i ∨ pc p = .logging i → owner i = some p
  refs : ∀ i, (buf i).refcnt = (if (owner i).isSome then 1 else 0) + Counts.count pc fun v =>
    v.refers i

/-- The counters of the log: the operations that are open, and at most one process that commits
when none is. -/
structure LogPhase [Fintype Pid] (outstanding : Nat) (committing : Bool) (pc : Pid → OpPc) :
    Prop where
  counted : outstanding = Counts.count pc fun v => v.isOpen
  flagged : committing = true ↔ ∃ p, (pc p).isCommitter
  alone : ∀ p q, (pc p).isCommitter → (pc q).isCommitter → p = q
  quiet : committing = true → ∀ p, (pc p).isOpen = false

/-- The operations: none that began before the last commit is still open, and unless one is open
or a commit is due everything is on the disk. -/
structure LogHistory (pc : Pid → OpPc) (op : Pid → Nat) (begun : Nat)
    (writes : List (Nat × BlockAddr × DiskBlock)) (committedOps flushed : Nat) : Prop where
  ordered : committedOps ≤ begun
  ops : ∀ p, (pc p).isOpen → committedOps ≤ op p ∧ op p < begun
  distinct : ∀ p q, (pc p).isOpen → (pc q).isOpen → op p = op q → p = q
  before : ∀ w ∈ writes.take flushed, w.1 < committedOps
  after : ∀ w ∈ writes.drop flushed, committedOps ≤ w.1 ∧ w.1 < begun
  settled : (∀ p, (pc p).isOpen = false ∧ pc p ≠ .committing) →
    committedOps = begun ∧ flushed = writes.length

structure LogSys.Inv [Fintype Pid] (d : Disk) (l : Log) (s : LogSys Pid) : Prop where
  contents : LogContents d l s.store s.writes s.committedWrites
  bufs : LogBufs l s.store.buf s.pc s.owner
  phase : LogPhase s.store.log.outstanding s.store.log.committing s.pc
  history : LogHistory s.pc s.op s.begun s.writes s.committedOps s.committedWrites

theorem LogSys.section_cases {α : Type} {s t : LogSys Pid} {site : Site} {x : Bio α}
    {next : α → Store → LogSys Pid} {Q : α → Store → Prop} {E : Halt → Store → Prop}
    (hx : x.wp Q E s.store) (h : s.section site x next = some t) :
    (∃ a u, Q a u ∧ t = next a u) ∨
      ∃ w u, E (.panic w) u ∧ t = { s with store := u, panicked := some (site, w) } := by
  unfold LogSys.section at h
  unfold Prog.wp at hx
  split at h
  next a u he =>
    rw [he] at hx
    exact Or.inl ⟨a, u, hx, (Option.some.inj h).symm⟩
  next w u he =>
    rw [he] at hx
    exact Or.inr ⟨w, u, hx, (Option.some.inj h).symm⟩
  next => simp at h

section

variable {v : OpPc} [DecidableEq Pid]

theorem update_congr {β : Type} (pc : Pid → OpPc) (p : Pid) (g : OpPc → β) (h : g v = g (pc p))
    (q : Pid) :
    g (Function.update pc p v q) = g (pc q) := by
  rcases eq_or_ne q p with rfl | hq
  · rw [Function.update_self, h]
  · rw [Function.update_of_ne hq]

end

section Bufs

variable [Fintype Pid] [DecidableEq Pid] {l : Log} {buf : BufSlot → Buf} {pc : Pid → OpPc}
  {owner : BufSlot → Option Pid} {p : Pid} {v : OpPc} {i : BufSlot} {b : Buf} {o : Option Pid}

theorem OpPc.isOpen_of_refers {v : OpPc} (h : v.refers i) : v.isOpen := by
  cases v <;> simp_all [OpPc.refers, OpPc.isOpen]

omit [DecidableEq Pid] in
theorem LogBufs.idle (hquiet : ∀ q, (pc q).isOpen = false) (howner : ∀ k, owner k = none)
    (hrefcnt : ∀ k, (buf k).refcnt = 0) (hlocked : ∀ k, (buf k).locked = false) :
    LogBufs l buf pc owner := by
  have hrefers : ∀ k q, ¬ (pc q).refers k := by
    intro k q hq
    have := OpPc.isOpen_of_refers hq
    simp [hquiet q] at this
  refine ⟨by simp [howner, hlocked], by simp [howner], by simp [howner, hrefers], ?_, ?_⟩
  · intro q k hq
    have := hquiet q
    rcases hq with hq | hq <;> simp [hq, OpPc.isOpen] at this
  · intro k
    rw [hrefcnt, howner, Counts.count_eq_zero.mpr (hrefers k)]
    rfl

omit [DecidableEq Pid] in
theorem LogBufs.unused (h : LogBufs l buf pc owner) (hquiet : ∀ q, (pc q).isOpen = false)
    (k : BufSlot) :
    owner k = none ∧ (buf k).refcnt = 0 := by
  have howner : owner k = none := by
    cases ho : owner k with
    | none => rfl
    | some q =>
      have := (h.owned k q ho).1
      simp [hquiet q] at this
  have hrefers : ∀ q, ¬ (pc q).refers k := by
    intro q hq
    have := OpPc.isOpen_of_refers hq
    simp [hquiet q] at this
  refine ⟨howner, ?_⟩
  rw [h.refs k, howner, Counts.count_eq_zero.mpr hrefers]
  rfl

theorem LogBufs.step (h : LogBufs l buf pc owner) (hlocked : b.locked = o.isSome)
    (hown : ∀ q, o = some q →
      (Function.update pc p v q).isOpen ∧ (Function.update pc p v q = .filling i ∨ b.valid))
    (hrest : ∀ k, k ≠ i → owner k = some p → v.isOpen ∧ pc p ≠ .filling k)
    (hhome : (o.isSome ∨ ∃ q, (Function.update pc p v q).refers i) → l.Outside b.addr)
    (hholder : ∀ k, v = .filling k ∨ v = .logging k → Function.update owner i o k = some p)
    (hother : ∀ q, q ≠ p → owner i = some q → o = some q)
    (hrefs : b.refcnt + (if (owner i).isSome then 1 else 0) + (if (pc p).refers i then 1 else 0) =
      (buf i).refcnt + (if o.isSome then 1 else 0) + (if v.refers i then 1 else 0))
    (hrefers : ∀ k, k ≠ i → v.refers k = (pc p).refers k) :
    LogBufs l (Function.update buf i b) (Function.update pc p v) (Function.update owner i o) := by
  constructor
  · intro k
    rcases eq_or_ne k i with rfl | hk
    · simpa using hlocked
    · simpa [hk] using h.locked k
  · intro k q hq
    rcases eq_or_ne k i with rfl | hk
    · simpa using hown q (by simpa using hq)
    · rw [Function.update_of_ne hk] at hq ⊢
      rcases eq_or_ne q p with rfl | hqp
      · obtain ⟨hopen, hfill⟩ := hrest k hk hq
        rw [Function.update_self]
        exact ⟨hopen, Or.inr ((h.owned k q hq).2.resolve_left hfill)⟩
      · rw [Function.update_of_ne hqp]
        exact h.owned k q hq
  · intro k hk
    rcases eq_or_ne k i with rfl | hki
    · simpa using hhome (by simpa using hk)
    · have hsame := update_congr pc p (OpPc.refers k) (hrefers k hki)
      simp only [Function.update_of_ne hki, hsame] at hk ⊢
      exact h.home k hk
  · intro q k hq
    rcases eq_or_ne q p with rfl | hqp
    · rw [Function.update_self] at hq
      exact hholder k hq
    · rw [Function.update_of_ne hqp] at hq
      rcases eq_or_ne k i with rfl | hk
      · simpa using hother q hqp (h.holder q k hq)
      · simpa [hk] using h.holder q k hq
  · intro k
    have hcount := Counts.count_update (f := pc) (p := p) (v := v) (c := fun v => v.refers k)
    have hold := h.refs k
    rcases eq_or_ne k i with rfl | hk
    · simp only [Function.update_self]
      omega
    · rw [hrefers k hk] at hcount
      simp only [Function.update_of_ne hk]
      omega

theorem LogBufs.move (h : LogBufs l buf pc owner) (hrefers : ∀ k, v.refers k = (pc p).refers k)
    (hopen : v.isOpen = false → ∀ k, owner k ≠ some p) (hfill : ∀ k, pc p ≠ .filling k)
    (hholder : ∀ k, v = .filling k ∨ v = .logging k → owner k = some p) :
    LogBufs l buf (Function.update pc p v) owner := by
  have hown : ∀ k, owner k = some p → v.isOpen ∧ pc p ≠ .filling k := by
    intro k hk
    refine ⟨?_, hfill k⟩
    by_contra hclosed
    exact hopen (by simpa using hclosed) k hk
  have hsame := update_congr pc p (OpPc.refers 0) (hrefers 0)
  have hstep := h.step (p := p) (v := v) (i := 0) (b := buf 0) (o := owner 0) (h.locked 0) ?_
    (fun k _ => hown k) (by simpa only [hsame] using h.home 0) (by simpa using hholder)
      (fun _ _ hq => hq)
    (by rw [hrefers 0]) fun k _ => hrefers k
  · simpa using hstep
  · intro q hq
    rcases eq_or_ne q p with rfl | hqp
    · rw [Function.update_self]
      exact ⟨(hown 0 hq).1, Or.inr ((h.owned 0 q hq).2.resolve_left (hfill 0))⟩
    · rw [Function.update_of_ne hqp]
      exact h.owned 0 q hq

end Bufs

section Phase

variable [Fintype Pid] {n : Nat} {c : Bool} {pc : Pid → OpPc} {p : Pid} {v : OpPc}

theorem LogPhase.not_committing (h : LogPhase n c pc) (hp : (pc p).isOpen) : c = false := by
  by_contra hc
  have := h.quiet (by simpa using hc) p
  simp [hp] at this

theorem LogPhase.not_committer (h : LogPhase n false pc) (q : Pid) :
    (pc q).isCommitter = false := by
  by_contra hq
  exact absurd (h.flagged.mpr ⟨q, by simpa using hq⟩) (by simp)

variable [DecidableEq Pid]

theorem LogPhase.move (h : LogPhase n c pc) (hopen : v.isOpen = (pc p).isOpen)
    (hcommit : v.isCommitter = (pc p).isCommitter) : LogPhase n c (Function.update pc p v) := by
  have ho := update_congr pc p OpPc.isOpen hopen
  have hc := update_congr pc p OpPc.isCommitter hcommit
  refine ⟨?_, by simpa only [hc] using h.flagged, by simpa only [hc] using h.alone,
    by simpa only [ho] using h.quiet⟩
  have hcount := Counts.count_update (f := pc) (p := p) (v := v) (c := fun v => v.isOpen)
  have hold := h.counted
  rw [hopen] at hcount
  omega

/-- A process enters or leaves an operation while no one commits. -/
theorem LogPhase.turn {m : Nat} (h : LogPhase n false pc) (hcommit : v.isCommitter = false)
    (hm : m + (if (pc p).isOpen then 1 else 0) = n + (if v.isOpen then 1 else 0)) :
    LogPhase m false (Function.update pc p v) := by
  have hc := update_congr pc p OpPc.isCommitter (hcommit.trans (h.not_committer p).symm)
  refine ⟨?_, by simpa only [hc] using h.flagged, by simpa only [hc] using h.alone, by simp⟩
  have hcount := Counts.count_update (f := pc) (p := p) (v := v) (c := fun v => v.isOpen)
  have hold := h.counted
  omega

theorem LogPhase.last (h : LogPhase n false pc) (hp : (pc p).isOpen) (hn : n - 1 = 0) :
    LogPhase 0 true (Function.update pc p .committing) := by
  have hcount := Counts.count_update (f := pc) (p := p) (v := .committing) (c := fun v => v.isOpen)
  have hold := h.counted
  rw [if_pos hp, if_neg (by simp [OpPc.isOpen])] at hcount
  have hzero : Counts.count (Function.update pc p .committing) (fun v => v.isOpen = true) = 0 := by
    omega
  have hopen := Counts.count_eq_zero.mp hzero
  have honly : ∀ q, (Function.update pc p .committing q).isCommitter → q = p := by
    intro q hq
    by_contra hne
    rw [Function.update_of_ne hne, h.not_committer q] at hq
    simp at hq
  refine ⟨hzero.symm, ⟨fun _ => ⟨p, by simp [OpPc.isCommitter]⟩, fun _ => rfl⟩, ?_,
    fun _ q => by simpa using hopen q⟩
  intro q r hq hr
  rw [honly q hq, honly r hr]

theorem LogPhase.finish (h : LogPhase n c pc) (hp : pc p = .committed) :
    LogPhase n false (Function.update pc p .idle) := by
  have hcount := Counts.count_update (f := pc) (p := p) (v := .idle) (c := fun v => v.isOpen)
  have hold := h.counted
  rw [if_neg (by simp [hp, OpPc.isOpen]), if_neg (by simp [OpPc.isOpen])] at hcount
  have hnone : ∀ q, (Function.update pc p .idle q).isCommitter = false := by
    intro q
    rcases eq_or_ne q p with rfl | hqp
    · simp [OpPc.isCommitter]
    · rw [Function.update_of_ne hqp]
      by_contra hq
      exact hqp (h.alone q p (by simpa using hq) (by simp [hp, OpPc.isCommitter]))
  exact ⟨by omega, by simp [hnone], by simp [hnone], by simp⟩

end Phase

section History

variable [DecidableEq Pid] {pc : Pid → OpPc} {op : Pid → Nat} {n k m : Nat}
  {ws : List (Nat × BlockAddr × DiskBlock)}
  {p : Pid} {v : OpPc} {w : BlockAddr × DiskBlock}

theorem LogHistory.move (h : LogHistory pc op n ws k m) (hopen : v.isOpen = (pc p).isOpen)
    (hcommit : decide (v = .committing) = decide (pc p = .committing)) :
    LogHistory (Function.update pc p v) op n ws k m := by
  have ho := update_congr pc p OpPc.isOpen hopen
  have hc := update_congr pc p (fun v => decide (v = .committing)) hcommit
  simp only [decide_eq_decide] at hc
  refine ⟨h.ordered, by simpa only [ho] using h.ops, by simpa only [ho] using h.distinct, h.before,
    h.after, ?_⟩
  simpa only [ho, ne_eq, hc] using h.settled

theorem LogHistory.enter (h : LogHistory pc op n ws k m) :
    LogHistory (Function.update pc p .inOp) (Function.update op p n) (n + 1) ws k m := by
  have hord := h.ordered
  have hcase : ∀ q, (Function.update pc p .inOp q).isOpen →
      q = p ∧ Function.update op p n q = n ∨ q ≠ p ∧ (pc q).isOpen ∧ Function.update op p n q = op q := by
    intro q hq
    rcases eq_or_ne q p with rfl | hqp
    · exact Or.inl ⟨rfl, by simp⟩
    · rw [Function.update_of_ne hqp] at hq
      exact Or.inr ⟨hqp, hq, by simp [hqp]⟩
  refine ⟨by omega, ?_, ?_, h.before, ?_, ?_⟩
  · intro q hq
    rcases hcase q hq with ⟨_, he⟩ | ⟨_, hopen, he⟩
    · omega
    · have := h.ops q hopen
      omega
  · intro q r hq hr heq
    rcases hcase q hq with ⟨rfl, he⟩ | ⟨_, hopen, he⟩
    · rcases hcase r hr with ⟨rfl, _⟩ | ⟨_, hopen', he'⟩
      · rfl
      · have := h.ops r hopen'
        omega
    · rcases hcase r hr with ⟨rfl, he'⟩ | ⟨_, hopen', he'⟩
      · have := h.ops q hopen
        omega
      · exact h.distinct q r hopen hopen' (by omega)
  · intro w hw
    have := h.after w hw
    omega
  · intro hall
    have := (hall p).1
    simp [OpPc.isOpen] at this

theorem LogHistory.leave (h : LogHistory pc op n ws k m) (hv : v.isOpen = false)
    (hdue : v = .committing ∨ ∃ q, q ≠ p ∧ (pc q).isOpen) :
    LogHistory (Function.update pc p v) op n ws k m := by
  have hopen : ∀ q, (Function.update pc p v q).isOpen → (pc q).isOpen := by
    intro q hq
    rcases eq_or_ne q p with rfl | hqp
    · simp [hv] at hq
    · rwa [Function.update_of_ne hqp] at hq
  refine ⟨h.ordered, fun q hq => h.ops q (hopen q hq),
    fun q r hq hr => h.distinct q r (hopen q hq) (hopen r hr),
    h.before, h.after, ?_⟩
  intro hall
  rcases hdue with rfl | ⟨q, hqp, hq⟩
  · exact absurd (hall p).2 (by simp)
  · have := (hall q).1
    rw [Function.update_of_ne hqp, hq] at this
    simp at this

theorem LogHistory.record (h : LogHistory pc op n ws k m) (hm : m ≤ ws.length) (hp : (pc p).isOpen)
    (hv : v.isOpen) : LogHistory (Function.update pc p v) op n (ws ++ [(op p, w)]) k m := by
  have ho := update_congr pc p OpPc.isOpen (hv.trans hp.symm)
  refine ⟨h.ordered, by simpa only [ho] using h.ops, by simpa only [ho] using h.distinct,
    ?_, ?_, ?_⟩
  · rw [List.take_append_of_le_length hm]
    exact h.before
  · rw [List.drop_append_of_le_length hm]
    intro x hx
    rcases List.mem_append.mp hx with hx | hx
    · exact h.after x hx
    · rw [List.mem_singleton.mp hx]
      exact h.ops p hp
  · intro hall
    have := (hall p).1
    simp [hv] at this

/-- A commit takes every operation that has begun, none of which is open. -/
theorem LogHistory.committed (h : LogHistory pc op n ws k m) (hquiet : ∀ q, (pc q).isOpen = false)
    (hv : v.isOpen = false) : LogHistory (Function.update pc p v) op n ws n ws.length := by
  have hopen : ∀ q, (Function.update pc p v q).isOpen = false := by
    intro q
    rcases eq_or_ne q p with rfl | hqp
    · simpa using hv
    · simpa [hqp] using hquiet q
  refine ⟨le_refl n, by simp [hopen], by simp [hopen], ?_, by simp, fun _ => ⟨rfl, rfl⟩⟩
  intro w hw
  rw [List.take_length, ← List.take_append_drop m ws] at hw
  have hord := h.ordered
  rcases List.mem_append.mp hw with hw | hw
  · have := h.before w hw
    omega
  · exact (h.after w hw).2

end History

end Xv6
