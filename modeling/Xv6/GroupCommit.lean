import Xv6.LogEvents

namespace Xv6

variable {Pid : Type}

/-- The panics that a step can end in. -/
inductive LogSys.Fails (s : LogSys Pid) : LogEvent Pid → Site → BioPanic → Prop
  | bget (p : Pid) (b : Nat) : s.Fails (.bget p b) .operation .bgetNoBuffers
  | fill (p : Pid) : s.Fails (.fill p) .operation .incorrectBlockno
  | logWrite (p : Pid) (i : BufSlot) :
      LOGSIZE ≤ s.store.log.lh.length ∨ s.store.log.size ≤ s.store.log.lh.length + 1 →
      s.Fails (.logWrite p i) .operation .tooBigTransaction
  | commit (p : Pid) {w : BioPanic} : ¬ s.store.Room s.store.log → ¬ (Halt.panic w).ofLog → s.Fails (.commit p) .commit w

/-- A step keeps the invariant or panics. -/
def LogSys.Ends [Fintype Pid] (d : Disk) (l : Log) (s t : LogSys Pid) (e : LogEvent Pid) : Prop :=
  (t.panicked = none ∧ t.Inv d l) ∨ ∃ site w, t.panicked = some (site, w) ∧ s.Fails e site w

section

variable [Fintype Pid] {d : Disk} {l : Log} {s t : LogSys Pid} {p : Pid} {i : BufSlot}

/-- It is enough to look at one section of code. -/
theorem LogSys.ends_of_wp {α : Type} {e : LogEvent Pid} {site : Site} {x : Bio α}
    {next : α → Store → LogSys Pid}
    (hx : x.wp (fun a u => (next a u).panicked = none ∧ (next a u).Inv d l)
      (fun f _ => ∀ w, f = .panic w → s.Fails e site w) s.store)
    (h : s.section site x next = some t) : s.Ends d l t e := by
  rcases LogSys.section_cases hx h with ⟨a, u, hinv, rfl⟩ | ⟨w, u, hfails, rfl⟩
  · exact Or.inl hinv
  · exact Or.inr ⟨site, w, rfl, hfails w rfl⟩

variable [DecidableEq Pid]

theorem LogSys.Inv.beginOp (h : s.Inv d l) (hp : s.panicked = none)
    (hstep : s.next (.beginOp p) = some t) :
    s.Ends d l t (.beginOp p) := by
  simp only [LogSys.next] at hstep
  split at hstep
  next hpc =>
    have hclosed : (s.pc p).isOpen = false ∧ (s.pc p).isCommitter = false ∧
        (∀ k, (s.pc p).refers k = false) ∧
        (∀ k, s.pc p ≠ .filling k) ∧ s.pc p ≠ .committing := by
      rcases hpc with hpc | hpc <;> simp [hpc, OpPc.isOpen, OpPc.isCommitter, OpPc.refers]
    obtain ⟨hopen, hcommitter, hrefers, hfill, hcommitting⟩ := hclosed
    have hidle : ∀ k, s.owner k ≠ some p := by
      intro k hk
      have := (h.bufs.owned k p hk).1
      simp [hopen] at this
    have hwait : (LogSys.enterOp s p false s.store).Inv d l :=
      ⟨h.contents, h.bufs.move (fun k => (hrefers k).symm) (fun _ => hidle) hfill (by simp),
        h.phase.move hopen.symm hcommitter.symm, h.history.move hopen.symm (by simp [hcommitting])⟩
    refine LogSys.ends_of_wp ?_ hstep
    simp only [beginOpTry, Prog.wp_bind, Prog.wp_get]
    refine Prog.wp_ite (fun _ => ⟨hp, hwait⟩) fun hc => Prog.wp_ite (fun _ => ⟨hp, hwait⟩) fun _ =>
      ⟨hp, ?_⟩
    simp only [Bool.not_eq_true] at hc
    have hphase := h.phase
    rw [hc] at hphase
    refine ⟨h.contents.counters,
      h.bufs.move (fun k => (hrefers k).symm) (fun ho => by simp [OpPc.isOpen] at ho)
      hfill (by simp), ?_, h.history.enter⟩
    simp only [LogSys.enterOp, if_true, hc]
    refine hphase.turn rfl ?_
    rw [hopen]
    rfl
  next => simp at hstep

theorem LogSys.Inv.bget {b : Nat} (h : s.Inv d l) (hp : s.panicked = none)
    (hstep : s.next (.bget p b) = some t) :
    s.Ends d l t (.bget p b) := by
  simp only [LogSys.next] at hstep
  split at hstep
  next hpc =>
    obtain ⟨hpc, hout⟩ := hpc
    refine LogSys.ends_of_wp (Prog.wp_mono (bgetSlot_keeps h.contents.coherent) ?_ ?_) hstep
    · rintro i _ ⟨c, rfl, hk, haddr, hlocked, hrefcnt, hsame⟩
      have hstep := h.bufs.step (p := p) (v := .locking i) (i := i) (b := c) (o := s.owner i)
        (hlocked.trans (h.bufs.locked i)) ?_ (fun k _ _ => ⟨rfl, by simp [hpc]⟩) ?_ (by simp) (fun _ _ hq => hq) ?_ ?_
      · exact ⟨hp, h.contents.keep hk, by simpa using hstep, h.phase.move (by rw [hpc]; rfl) (by rw [hpc]; rfl),
          h.history.move (by rw [hpc]; rfl) (by simp [hpc])⟩
      · intro q hq
        have hold := h.bufs.owned i q hq
        have hkept : c.valid = (s.store.buf i).valid := by
          rcases hsame with rfl | hfree
          · rfl
          · have := h.bufs.locked i
            simp [hfree, hq] at this
        rcases eq_or_ne q p with rfl | hqp
        · rw [Function.update_self, hkept]
          exact ⟨rfl, Or.inr (hold.2.resolve_left (by simp [hpc]))⟩
        · rw [Function.update_of_ne hqp, hkept]
          exact hold
      · intro _
        rw [haddr]
        exact ⟨h.contents.dev, fun hin => hout ((h.contents.inside _).mpr hin)⟩
      · rw [hrefcnt, hpc]
        simp only [OpPc.refers, decide_true, Bool.false_eq_true, if_true, if_false]
        omega
      · intro k hk
        simp [hpc, OpPc.refers, hk]
    · rintro _ _ rfl w hw
      cases hw
      exact .bget p b
  next => simp at hstep

theorem LogSys.Inv.lockBuf (h : s.Inv d l) (hp : s.panicked = none)
    (hstep : s.next (.lockBuf p) = some t) :
    s.Ends d l t (.lockBuf p) := by
  simp only [LogSys.next] at hstep
  split at hstep
  next i hpc =>
    refine LogSys.ends_of_wp ?_ hstep
    simp only [acquiresleep, Prog.wp_bind, Prog.wp_get]
    refine Prog.wp_ite (fun _ w hw => by simp at hw) fun hlocked => ?_
    simp only [Bool.not_eq_true] at hlocked
    have hnone : s.owner i = none := by
      have := h.bufs.locked i
      simpa [hlocked] using this
    have hpos : 0 < Counts.count s.pc fun v => v.refers i :=
      Counts.count_pos (p := p) (by simp [hpc, OpPc.refers])
    have hrefs := h.bufs.refs i
    have hk := keeps_count (i := i) (b := { s.store.buf i with locked := true }) h.contents.coherent
      rfl rfl rfl rfl
      (fun hzero => by simp only at hzero; omega)
    have hstep := h.bufs.step (p := p) (v := .filling i) (i := i)
      (b := { s.store.buf i with locked := true })
      (o := some p) rfl (by simp [OpPc.isOpen]) (fun k _ _ => ⟨rfl, by simp [hpc]⟩)
      (fun _ => h.bufs.home i (Or.inr ⟨p, by simp [hpc, OpPc.refers]⟩)) ?_ (by simp [hnone]) ?_ ?_
    · exact ⟨hp, h.contents.keep hk, hstep, h.phase.move (by rw [hpc]; rfl) (by rw [hpc]; rfl),
        h.history.move (by rw [hpc]; rfl) (by simp [hpc])⟩
    · rintro k (hv | hv)
      · cases hv
        simp
      · cases hv
    · simp [hpc, hnone, OpPc.refers]
    · intro k hk
      simp [hpc, OpPc.refers, hk]
  next => simp at hstep

theorem LogSys.Inv.fill (h : s.Inv d l) (hdev : l.dev ≠ 0) (hp : s.panicked = none)
    (hstep : s.next (.fill p) = some t) : s.Ends d l t (.fill p) := by
  simp only [LogSys.next] at hstep
  split at hstep
  next i hpc =>
    have howner := h.bufs.holder p i (Or.inl hpc)
    have hhome := h.bufs.home i (Or.inl (by simp [howner]))
    have hlocked : (s.store.buf i).locked = true := by
      rw [h.bufs.locked i, howner]
      rfl
    refine LogSys.ends_of_wp (Prog.wp_mono (bfill_keeps h.contents.coherent hlocked ?_) ?_ ?_) hstep
    · rw [hhome.1]
      exact hdev
    · rintro _ _ ⟨c, rfl, hk, haddr, hlock, hrefcnt, hvalid⟩
      have hstep := h.bufs.step (p := p) (v := .inOp) (i := i) (b := c) (o := s.owner i)
        (by rw [hlock, howner]; rfl)
        ?_ (fun k hk _ => ⟨rfl, by simpa [hpc] using hk.symm⟩) (fun _ => by rw [haddr]; exact hhome) (by simp)
        (fun _ _ hq => hq) ?_ ?_
      · exact ⟨hp, h.contents.keep hk, by simpa using hstep, h.phase.move (by rw [hpc]; rfl) (by rw [hpc]; rfl),
          h.history.move (by rw [hpc]; rfl) (by simp [hpc])⟩
      · intro q hq
        rw [howner] at hq
        cases hq
        simp [hvalid, OpPc.isOpen]
      · rw [hrefcnt, hpc]
        rfl
      · intro k _
        simp [hpc, OpPc.refers]
    · rintro _ _ rfl w hw
      cases hw
      exact .fill p
  next => simp at hstep

theorem LogSys.Inv.logWrite (h : s.Inv d l) (hp : s.panicked = none)
    (hstep : s.next (.logWrite p i) = some t) :
    s.Ends d l t (.logWrite p i) := by
  simp only [LogSys.next] at hstep
  split at hstep
  next hpc =>
    obtain ⟨hpc, howner⟩ := hpc
    have hpos : 0 < s.store.log.outstanding := by
      rw [h.phase.counted]
      exact Counts.count_pos (p := p) (by simp [hpc, OpPc.isOpen])
    refine LogSys.ends_of_wp ?_ hstep
    simp only [logWriteCheck, Prog.wp_bind, Prog.wp_get]
    refine Prog.wp_ite (fun hbig w hw => ?_) fun _ =>
      Prog.wp_ite (fun hzero => by omega) fun _ => ?_
    · cases hw
      exact .logWrite p i hbig
    · refine ⟨hp, h.contents, h.bufs.move (fun k => by rw [hpc]; rfl) (fun ho => by simp [OpPc.isOpen] at ho)
        (by simp [hpc]) ?_, h.phase.move (by rw [hpc]; rfl) (by rw [hpc]; rfl),
        h.history.move (by rw [hpc]; rfl) (by simp [hpc])⟩
      rintro k (hv | hv) <;> cases hv
      exact howner
  next => simp at hstep

theorem LogSys.Inv.record {data : DiskBlock} (h : s.Inv d l) (hdev : l.dev ≠ 0)
    (hp : s.panicked = none)
    (hstep : s.next (.record p data) = some t) : s.Ends d l t (.record p data) := by
  simp only [LogSys.next] at hstep
  split at hstep
  next i hpc =>
    have howner := h.bufs.holder p i (Or.inr hpc)
    have hhome := h.bufs.home i (Or.inl (by simp [howner]))
    have hvalid : (s.store.buf i).valid = true :=
      (h.bufs.owned i p howner).2.resolve_left (by simp [hpc])
    refine LogSys.ends_of_wp ?_ hstep
    have hstep := h.bufs.step (p := p) (v := .inOp) (i := i)
      (b := { s.store.buf i with dirty := true, data := data })
      (o := s.owner i) (h.bufs.locked i) ?_ (fun k _ _ => ⟨rfl, by simp [hpc]⟩) (fun _ => hhome) (by simp)
      (fun _ _ hq => hq) (by rw [hpc]; rfl) (fun k _ => by rw [hpc]; rfl)
    · have hinv : ({ s with
          store := s.store.logged i data
          pc := Function.update s.pc p .inOp
          writes := s.writes ++ [(s.op p, (s.store.buf i).addr, data)] } : LogSys Pid).Inv d l :=
        ⟨h.contents.record hdev hvalid hhome, by simpa [Store.logged] using hstep,
          h.phase.move (by rw [hpc]; rfl) (by rw [hpc]; rfl),
          h.history.record h.contents.flushedLe (by rw [hpc]; rfl) rfl⟩
      simp only [Prog.wp_bind, setData, Prog.wp_modify, logWriteRecord]
      refine ⟨hp, ?_⟩
      simpa [Store.logged, Store.setBuf] using hinv
    · intro q hq
      rw [howner] at hq
      cases hq
      simp [hvalid, OpPc.isOpen]
  next => simp at hstep

theorem LogSys.Inv.unlock (h : s.Inv d l) (hp : s.panicked = none)
    (hstep : s.next (.unlock p i) = some t) :
    s.Ends d l t (.unlock p i) := by
  simp only [LogSys.next] at hstep
  split at hstep
  next hpc =>
    obtain ⟨hpc, howner⟩ := hpc
    refine LogSys.ends_of_wp ?_ hstep
    have hk := keeps_count (i := i) (b := { s.store.buf i with locked := false })
      h.contents.coherent rfl rfl rfl rfl
      fun _ => rfl
    have hstep := h.bufs.step (p := p) (v := .putting i) (i := i)
      (b := { s.store.buf i with locked := false })
      (o := none) rfl (by simp) (fun k _ _ => ⟨rfl, by simp [hpc]⟩)
      (fun _ => h.bufs.home i (Or.inl (by simp [howner]))) (by simp) (fun q hqp hq => ?_) ?_ ?_
    · exact ⟨hp, h.contents.keep hk, hstep, h.phase.move (by rw [hpc]; rfl) (by rw [hpc]; rfl),
        h.history.move (by rw [hpc]; rfl) (by simp [hpc])⟩
    · rw [howner] at hq
      exact absurd (Option.some.inj hq).symm hqp
    · simp [hpc, howner, OpPc.refers]
    · intro k hk
      simp [hpc, OpPc.refers, hk]
  next => simp at hstep

theorem LogSys.Inv.put (h : s.Inv d l) (hp : s.panicked = none) (hstep : s.next (.put p) = some t) :
    s.Ends d l t (.put p) := by
  simp only [LogSys.next] at hstep
  split at hstep
  next i hpc =>
    have hpos : 0 < Counts.count s.pc fun v => v.refers i :=
      Counts.count_pos (p := p) (by simp [hpc, OpPc.refers])
    have hrefs := h.bufs.refs i
    have hfree : (s.store.buf i).refcnt - 1 = 0 → (s.store.buf i).locked = false := by
      intro hzero
      rw [h.bufs.locked i]
      by_contra hsome
      rw [if_pos (by simpa only [Bool.not_eq_false] using hsome)] at hrefs
      omega
    refine LogSys.ends_of_wp (Prog.wp_mono (bput_keeps h.contents.coherent hfree) ?_
      fun _ _ hfalse => hfalse.elim) hstep
    rintro _ u ⟨hk, hlog, hbuf⟩
    have hstep := h.bufs.step (p := p) (v := .inOp) (i := i)
      (b := { s.store.buf i with refcnt := (s.store.buf i).refcnt - 1 }) (o := s.owner i) (h.bufs.locked i) ?_
      (fun k _ _ => ⟨rfl, by simp [hpc]⟩)
        (fun _ => h.bufs.home i (Or.inr ⟨p, by simp [hpc, OpPc.refers]⟩)) (by simp)
      (fun _ _ hq => hq) ?_ ?_
    · refine ⟨hp, h.contents.keep hk, ?_, ?_, h.history.move (by rw [hpc]; rfl) (by simp [hpc])⟩
      · simpa [hbuf] using hstep
      · simp only [hlog]
        exact h.phase.move (by rw [hpc]; rfl) (by rw [hpc]; rfl)
    · intro q hq
      have hold := h.bufs.owned i q hq
      rcases eq_or_ne q p with rfl | hqp
      · rw [Function.update_self]
        exact ⟨rfl, Or.inr (hold.2.resolve_left (by simp [hpc]))⟩
      · rw [Function.update_of_ne hqp]
        exact hold
    · simp only [hpc, OpPc.refers, decide_true, Bool.false_eq_true, if_true, if_false]
      omega
    · intro k hk
      simp [hpc, OpPc.refers, hk]
  next => simp at hstep

theorem LogSys.Inv.endOp (h : s.Inv d l) (hp : s.panicked = none)
    (hstep : s.next (.endOp p) = some t) :
    s.Ends d l t (.endOp p) := by
  simp only [LogSys.next] at hstep
  split at hstep
  next hpc =>
    obtain ⟨hpc, hnone⟩ := hpc
    have hopen : (s.pc p).isOpen = true := by rw [hpc]; rfl
    have hc := h.phase.not_committing hopen
    have hphase := h.phase
    rw [hc] at hphase
    have hpos : 0 < s.store.log.outstanding := by
      rw [hphase.counted]
      exact Counts.count_pos (p := p) hopen
    have hbufs : ∀ v : OpPc, v.isOpen = false → (∀ k, v.refers k = false) →
      (∀ k, v ≠ .filling k ∧ v ≠ .logging k) →
        LogBufs l s.store.buf (Function.update s.pc p v) s.owner := fun v _ hrefers hv =>
      h.bufs.move (fun k => by rw [hpc, hrefers]; rfl) (fun _ => hnone) (by simp [hpc]) fun k hk =>
        (hk.elim (hv k).1 (hv k).2).elim
    refine LogSys.ends_of_wp ?_ hstep
    simp only [endOpLeave, Prog.wp_bind, Prog.wp_modify, Prog.wp_get]
    refine Prog.wp_ite (fun hcommit => by simp [hc] at hcommit) fun _ =>
      Prog.wp_ite (fun hzero => ?_) fun hmore => ?_
    · simp only [Prog.wp_bind, Prog.wp_set, Prog.wp_pure, if_true]
      refine ⟨hp, h.contents.counters, hbufs _ rfl (fun _ => rfl) (by simp), ?_,
        h.history.leave rfl (Or.inl rfl)⟩
      simp only [hzero]
      exact hphase.last hopen hzero
    · simp only [Prog.wp_pure, Bool.false_eq_true, if_false]
      have hturn := hphase.turn (p := p) (v := .idle) (m := s.store.log.outstanding - 1) rfl (by
        rw [hopen]
        simp only [OpPc.isOpen, Bool.false_eq_true, if_true, if_false]
        omega)
      refine ⟨hp, h.contents.counters, hbufs _ rfl (fun _ => rfl) (by simp), by simpa only [hc] using hturn,
        h.history.leave rfl (Or.inr ?_)⟩
      have hsome := hturn.counted
      by_contra hall
      rw [Counts.count_eq_zero.mpr] at hsome
      · exact hmore hsome
      · intro q hq
        rcases eq_or_ne q p with rfl | hqp
        · simp [OpPc.isOpen] at hq
        · rw [Function.update_of_ne hqp] at hq
          exact hall ⟨q, hqp, hq⟩
  next => simp at hstep

theorem LogSys.Inv.commit (h : s.Inv d l) (hdev : l.dev ≠ 0) (hsize : LOGSIZE ≤ l.size)
    (hp : s.panicked = none) (hstep : s.next (.commit p) = some t) : s.Ends d l t (.commit p) := by
  simp only [LogSys.next] at hstep
  split at hstep
  next hpc =>
    have hquiet := h.phase.quiet (h.phase.flagged.mpr ⟨p, by simp [hpc, OpPc.isCommitter]⟩)
    have hunused := h.bufs.unused hquiet
    by_cases hfit : s.store.log.lh.length < l.size
    · refine LogSys.ends_of_wp (Prog.wp_mono (Prog.wp_and (commit_after h.contents.coherent h.contents.shown
        (h.contents.placed hdev hfit)) (spared_commit s.store)) ?_ ?_) hstep
      · rintro _ u ⟨hu, -⟩
        have hrefcnt : ∀ k, (u.buf k).refcnt = 0 := hu.pinned fun k => (hunused k).2
        refine ⟨hp, h.contents.committed hdev hfit rfl rfl hu, LogBufs.idle ?_ (fun k => (hunused k).1) hrefcnt
          (fun k => hu.coherent.free k (hrefcnt k)), ?_, h.history.committed hquiet rfl⟩
        · intro q
          rw [update_congr s.pc p OpPc.isOpen (by rw [hpc]; rfl)]
          exact hquiet q
        · simp only [hu.log]
          exact h.phase.move (by rw [hpc]; rfl) (by rw [hpc]; rfl)
      · rintro _ u ⟨⟨-, hroom⟩, hspared⟩ w rfl
        exact .commit p hroom hspared
    · have hfull : NBUF ≤ s.store.log.lh.length := by
        have : NBUF = LOGSIZE := rfl
        omega
      have hslot : 1 < l.size := Nat.lt_of_lt_of_le (by decide) hsize
      refine LogSys.ends_of_wp (Prog.wp_mono (Prog.wp_and (h.contents.commit_full hdev hslot hfull)
        (spared_commit s.store)) (fun _ _ hfalse => hfalse.1.elim) ?_) hstep
      rintro _ u ⟨-, hspared⟩ w rfl
      refine .commit p (fun hroom => ?_) hspared
      rcases hroom.spare with hclean | ⟨hfew, -⟩
      · exact hclean _ ⟨0, rfl, h.contents.all_dirty hfull 0⟩
      · omega
  next => simp at hstep

theorem LogSys.Inv.endCommit (h : s.Inv d l) (hp : s.panicked = none)
    (hstep : s.next (.endCommit p) = some t) :
    s.Ends d l t (.endCommit p) := by
  simp only [LogSys.next] at hstep
  split at hstep
  next hpc =>
    have hquiet := h.phase.quiet (h.phase.flagged.mpr ⟨p, by simp [hpc, OpPc.isCommitter]⟩)
    refine LogSys.ends_of_wp ?_ hstep
    simp only [endOpFinish, Prog.wp_modify]
    refine ⟨hp, h.contents.counters,
      h.bufs.move (fun k => by rw [hpc]; rfl) ?_ (by simp [hpc]) (by simp),
      h.phase.finish hpc, h.history.move (by rw [hpc]; rfl) (by simp [hpc])⟩
    intro _ k
    simp [(h.bufs.unused hquiet k).1]
  next => simp at hstep

/-- Every step keeps the invariant, or panics for one of the listed reasons. -/
theorem LogSys.Inv.step {e : LogEvent Pid} (h : s.Inv d l) (hdev : l.dev ≠ 0)
    (hsize : LOGSIZE ≤ l.size) (hstep : s.step e = some t) : s.Ends d l t e := by
  unfold LogSys.step at hstep
  split at hstep
  next hp =>
    cases e with
    | beginOp p => exact h.beginOp hp hstep
    | bget p b => exact h.bget hp hstep
    | lockBuf p => exact h.lockBuf hp hstep
    | fill p => exact h.fill hdev hp hstep
    | logWrite p i => exact h.logWrite hp hstep
    | record p data => exact h.record hdev hp hstep
    | unlock p i => exact h.unlock hp hstep
    | put p => exact h.put hp hstep
    | endOp p => exact h.endOp hp hstep
    | commit p => exact h.commit hdev hsize hp hstep
    | endCommit p => exact h.endCommit hp hstep
  next => simp at hstep

omit [Fintype Pid] in
theorem LogSys.step_frame {e : LogEvent Pid} (hstep : s.step e = some t) :
    (t.writes = s.writes ∨ ∃ p data w, e = .record p data ∧ (s.pc p).isOpen ∧
      t.writes = s.writes ++ [(s.op p, w)]) ∧
      (t.begun = s.begun ∨ ∃ p, e = .beginOp p ∧ s.store.log.committing = false) ∧
      (t.committedOps = s.committedOps ∨ ∃ p, e = .commit p ∧ t.committedOps = s.begun) := by
  unfold LogSys.step at hstep
  split at hstep
  next =>
    cases e with
    | beginOp p =>
      have hwp : beginOpTry.wp (fun a _ => a = true → s.store.log.committing = false)
        (fun _ _ => True) s.store := by
        simp only [beginOpTry, Prog.wp_bind, Prog.wp_get]
        refine Prog.wp_ite (fun _ => by simp) fun hc => Prog.wp_ite (fun _ => by simp) fun _ => ?_
        simpa using hc
      simp only [LogSys.next] at hstep
      split at hstep
      · rcases LogSys.section_cases hwp hstep with ⟨a, u, ha, rfl⟩ | ⟨w, u, _, rfl⟩
        · cases a with
          | false => exact ⟨Or.inl rfl, Or.inl rfl, Or.inl rfl⟩
          | true => exact ⟨Or.inl rfl, Or.inr ⟨p, rfl, ha rfl⟩, Or.inl rfl⟩
        · exact ⟨Or.inl rfl, Or.inl rfl, Or.inl rfl⟩
      · simp at hstep
    | record p data =>
      simp only [LogSys.next] at hstep
      split at hstep
      next i hpc =>
        rcases LogSys.section_cases (Prog.wp_true _) hstep with ⟨a, u, _, rfl⟩ | ⟨w, u, _, rfl⟩
        · exact ⟨Or.inr ⟨p, data, _, rfl, by rw [hpc]; rfl, rfl⟩, Or.inl rfl, Or.inl rfl⟩
        · exact ⟨Or.inl rfl, Or.inl rfl, Or.inl rfl⟩
      next => simp at hstep
    | commit p =>
      simp only [LogSys.next] at hstep
      split at hstep
      · rcases LogSys.section_cases (Prog.wp_true _) hstep with ⟨a, u, _, rfl⟩ | ⟨w, u, _, rfl⟩
        · exact ⟨Or.inl rfl, Or.inl rfl, Or.inr ⟨p, rfl, rfl⟩⟩
        · exact ⟨Or.inl rfl, Or.inl rfl, Or.inl rfl⟩
      · simp at hstep
    | _ =>
      simp only [LogSys.next] at hstep
      split at hstep
      · rcases LogSys.section_cases (Prog.wp_true _) hstep with ⟨a, u, _, rfl⟩ | ⟨w, u, _, rfl⟩
        · exact ⟨Or.inl rfl, Or.inl rfl, Or.inl rfl⟩
        · exact ⟨Or.inl rfl, Or.inl rfl, Or.inl rfl⟩
      · simp at hstep
  next => simp at hstep

/-- A file system that has just come up: recovery is over and no process has begun an operation. -/
structure Store.Started (t : Store) : Prop where
  ready : t.Ready
  idle : t.Idle
  outstanding : t.log.outstanding = 0
  committing : t.log.committing = false
  given : t.given = []

omit [DecidableEq Pid] in
theorem LogSys.boot_inv {t : Store} (ht : t.Started) :
    (LogSys.boot t : LogSys Pid).Inv t.disk t.log := by
  have hr := ht.ready
  refine ⟨?_, LogBufs.idle (fun _ => rfl) (fun _ => rfl) ht.idle fun k =>
    hr.coherent.free k (ht.idle k), ?_, ?_⟩
  · exact
      { coherent := hr.coherent
        dev := rfl
        start := rfl
        size := rfl
        shown := by simpa [LogSys.boot, ht.given] using hr.shown
        given := ht.given
        flushedLe := Nat.le_refl _
        disk := by simp [LogSys.boot]
        nodup := by simp [LogSys.boot, hr.empty]
        dirty := fun a => by simpa [LogSys.boot, hr.empty] using hr.clean a
        logged := by simp [LogSys.boot, ht.given, hr.empty]
        outside := by simp [LogSys.boot, hr.empty] }
  · refine ⟨?_, by simp [LogSys.boot, ht.committing, OpPc.isCommitter],
      by simp [LogSys.boot, OpPc.isCommitter], fun _ _ => rfl⟩
    rw [Counts.count_eq_zero.mpr (by simp [LogSys.boot, OpPc.isOpen])]
    exact ht.outstanding
  · exact ⟨Nat.le_refl _, by simp [LogSys.boot, OpPc.isOpen], by simp [LogSys.boot, OpPc.isOpen],
      by simp [LogSys.boot], by simp [LogSys.boot], by simp [LogSys.boot]⟩

/-- The log_writes of the operations with a number below n, oldest first. -/
def LogSys.effects (s : LogSys Pid) (n : Nat) : List (BlockAddr × DiskBlock) :=
  (s.writes.filter fun w => w.1 < n).map Prod.snd

omit [DecidableEq Pid] in
/-- The log_writes up to the last commit are those of the operations it has taken. -/
theorem LogSys.Inv.effects (h : s.Inv d l) :
    s.effects s.committedOps = s.store.given.take s.committedWrites := by
  have hbefore : (s.writes.take s.committedWrites).filter (fun w => w.1 < s.committedOps) =
      s.writes.take s.committedWrites :=
    List.filter_eq_self.mpr fun w hw => by simpa using h.history.before w hw
  have hafter : (s.writes.drop s.committedWrites).filter (fun w => w.1 < s.committedOps) = [] :=
    List.filter_eq_nil_iff.mpr fun w hw => by simpa using (h.history.after w hw).1
  rw [LogSys.effects, h.contents.given, ← List.map_take]
  conv_lhs => rw [← List.take_append_drop s.committedWrites s.writes]
  rw [List.filter_append, hbefore, hafter, List.append_nil]

/-- The machine runs on with the invariant, or has stopped in another panic than the two that
begin_op and end_op are to exclude. -/
def LogSys.Sound (d : Disk) (l : Log) (s : LogSys Pid) : Prop :=
  (s.panicked = none ∧ s.Inv d l) ∨
    ∃ site w, s.panicked = some (site, w) ∧ w ≠ .logCommitting ∧ w ≠ .logWriteOutsideTrans

theorem LogSys.sound_run {t : Store} {es : List (LogEvent Pid)} (ht : t.Started)
    (hsize : LOGSIZE ≤ t.log.size)
    (h : Runs.exec LogSys.step (LogSys.boot t) es = some s) : s.Sound t.disk t.log := by
  refine Runs.invariant (Or.inl ⟨rfl, LogSys.boot_inv ht⟩) (fun s e u hs hstep => ?_) h
  rcases hs with ⟨_, hs⟩ | ⟨site, w, hp, _⟩
  · rcases hs.step ht.ready.dev hsize hstep with hu | ⟨site, w, hp, hfails⟩
    · exact Or.inl hu
    · refine Or.inr ⟨site, w, hp, ?_⟩
      cases hfails with
      | bget | fill | logWrite => simp
      | commit p _ hspared =>
        constructor
        · rintro rfl
          exact hspared trivial
        · rintro rfl
          exact hspared trivial
  · simp [LogSys.step, hp] at hstep

/-- Group commit in a state of a run from the store t. -/
structure LogSys.Grouped (t : Store) (s : LogSys Pid) : Prop where
  alone : ∀ p u, s.step (.commit p) = some u →
    s.store.log.outstanding = 0 ∧ s.store.log.committing = true ∧ ∀ q, (s.pc q).isOpen = false
  excluded : s.store.log.committing = true → ∀ e u, s.step e = some u →
    (∀ p i, e ≠ .logWrite p i) ∧ u.writes = s.writes ∧ u.begun = s.begun
  noPanic : ∀ site, s.panicked ≠ some (site, .logCommitting) ∧
    s.panicked ≠ some (site, .logWriteOutsideTrans)
  pending : s.panicked = none → ∀ p, (s.pc p).isOpen →
    s.committedOps ≤ s.op p ∧ s.op p < s.begun ∧ ∀ q, (s.pc q).isOpen → s.op p = s.op q → p = q
  whole : ∀ e u, s.step e = some u → u.effects s.committedOps = s.effects s.committedOps
  committed : ∀ p u, s.step (.commit p) = some u → u.panicked = none → u.committedOps = u.begun
  home : s.panicked = none → ∀ a, ¬ t.log.Inside a →
    s.store.disk a = Writes.apply t.disk (s.effects s.committedOps) a

theorem LogSys.Inv.excluded {e : LogEvent Pid} (h : s.Inv d l) (hc : s.store.log.committing = true)
    (hstep : s.step e = some t) :
    (∀ p i, e ≠ .logWrite p i) ∧ t.writes = s.writes ∧ t.begun = s.begun := by
  have hquiet := h.phase.quiet hc
  obtain ⟨hwrites, hbegun, _⟩ := LogSys.step_frame hstep
  refine ⟨?_, hwrites.resolve_right ?_, hbegun.resolve_right ?_⟩
  · rintro p i rfl
    unfold LogSys.step at hstep
    split at hstep
    · simp only [LogSys.next] at hstep
      split at hstep
      next hpc =>
        have := hquiet p
        simp [hpc.1, OpPc.isOpen] at this
      next => simp at hstep
    · simp at hstep
  · rintro ⟨p, _, _, _, hopen, _⟩
    simp [hquiet p] at hopen
  · rintro ⟨p, _, hnot⟩
    simp [hc] at hnot

omit [DecidableEq Pid] in
theorem LogSys.Inv.whole (h : s.Inv d l) {u : LogSys Pid}
    (hw : u.writes = s.writes ∨ ∃ p w, (s.pc p).isOpen ∧
    u.writes = s.writes ++ [(s.op p, w)]) : u.effects s.committedOps =
      s.effects s.committedOps := by
  unfold LogSys.effects
  rcases hw with hw | ⟨p, w, hopen, hw⟩
  · rw [hw]
  · have hop := (h.history.ops p hopen).1
    have hnot : ([(s.op p, w)] : List (Nat × BlockAddr × DiskBlock)).filter
      (fun w => w.1 < s.committedOps) = [] :=
      List.filter_eq_nil_iff.mpr (by simpa using hop)
    rw [hw, List.filter_append, hnot, List.append_nil]

/-- In every interleaving of begin_op, log_write and end_op: a commit runs alone, the panics of
operations that would overlap with it do not happen, and every operation is on the disk as a
whole once the commit that follows its end is over, and not at all before. -/
theorem group_commit {t : Store} {es : List (LogEvent Pid)} (ht : t.Started)
    (hsize : LOGSIZE ≤ t.log.size)
    (h : Runs.exec LogSys.step (LogSys.boot t) es = some s) : s.Grouped t := by
  rcases LogSys.sound_run ht hsize h with ⟨hp, hs⟩ | ⟨site, w, hp, hne⟩
  · refine ⟨?_, fun hc e u => hs.excluded hc, by simp [hp], ?_, ?_, ?_, ?_⟩
    · intro p u hstep
      simp only [LogSys.step, hp, if_true, LogSys.next] at hstep
      split at hstep
      next hpc =>
        have hc := hs.phase.flagged.mpr ⟨p, by rw [hpc]; rfl⟩
        refine ⟨?_, hc, hs.phase.quiet hc⟩
        rw [hs.phase.counted, Counts.count_eq_zero]
        simp [hs.phase.quiet hc]
      next => simp at hstep
    · intro _ p hopen
      obtain ⟨hlow, hhigh⟩ := hs.history.ops p hopen
      exact ⟨hlow, hhigh, fun q hq => hs.history.distinct p q hopen hq⟩
    · intro e u hstep
      refine hs.whole ((LogSys.step_frame hstep).1.imp_right ?_)
      rintro ⟨p, _, w, _, hopen, hw⟩
      exact ⟨p, w, hopen, hw⟩
    · intro p u hstep hu
      simp only [LogSys.step, hp, if_true, LogSys.next] at hstep
      split at hstep
      next hpc =>
        rcases LogSys.section_cases (Prog.wp_true _) hstep with ⟨a, v, _, rfl⟩ | ⟨w, v, _, rfl⟩
        · rfl
        · simp at hu
      next => simp at hstep
    · intro _ a ha
      rw [hs.effects]
      exact hs.contents.disk a ha
  · have hstuck : ∀ e u, s.step e ≠ some u := by simp [LogSys.step, hp]
    refine ⟨fun p u hu => absurd hu (hstuck _ u), fun _ e u hu => absurd hu (hstuck e u), ?_,
      by simp [hp],
      fun e u hu => absurd hu (hstuck e u), fun p u hu => absurd hu (hstuck _ u), by simp [hp]⟩
    intro site
    rw [hp]
    constructor <;> rintro ⟨⟩ <;> simp at hne

end

theorem boot_started {l : Log} {d : Disk} (hdev : l.dev ≠ 0)
    (harea : 0 < l.size ∧ l.start + l.size ≤ FSSIZE)
    (hhead : decodeHead (d l.headAddr) = []) : (Store.boot l d).Started where
  ready :=
    { coherent := boot_coherent
      shown := boot_shows
      clean := boot_clean
      dev := hdev
      area := harea
      empty := rfl
      header := hhead
      held := fun i h => by simp [Store.boot, Buf.empty] at h }
  idle _ := rfl
  outstanding := rfl
  committing := rfl
  given := rfl

/-- Two operations overlap; the second to end commits for both. -/
def overlappingOps : List (LogEvent (Fin 2)) :=
  [.beginOp 0, .beginOp 1, .bget 0 100, .bget 1 101, .lockBuf 0, .lockBuf 1, .fill 0, .fill 1,
    .logWrite 0 0,
    .logWrite 1 1, .record 1 (fun _ => 2), .record 0 (fun _ => 1), .unlock 0 0, .put 0, .endOp 0,
      .unlock 1 1, .put 1,
    .endOp 1, .commit 1, .endCommit 1]

theorem group_commit_two_ops :
    ∃ s, Runs.exec LogSys.step (LogSys.boot (Store.boot mkfsLog fun _ _ => 0)) overlappingOps =
      some s ∧
      s.committedOps = 2 ∧ s.writes.map Prod.fst = [1, 0] ∧ s.Grouped (Store.boot mkfsLog fun _ _ => 0) := by
  have hrun : (Runs.exec LogSys.step (LogSys.boot (Store.boot mkfsLog fun _ _ => 0))
    overlappingOps).map
      (fun s => (s.committedOps, s.writes.map Prod.fst)) = some (2, [1, 0]) := by decide +kernel
  obtain ⟨s, hs, hval⟩ := Option.map_eq_some_iff.mp hrun
  obtain ⟨hops, hwrites⟩ := Prod.mk.inj hval
  exact ⟨s, hs, hops, hwrites,
    group_commit (boot_started (by decide) (by decide) (by decide)) (by decide) hs⟩

end Xv6
