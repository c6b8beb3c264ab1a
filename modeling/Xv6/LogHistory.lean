import Xv6.CrashRecovery
import Xv6.Runs

namespace Xv6

open Prog

/-- A transaction. The machine may stop in its commit, after so many writes to the disk, and in
recoveries from that, each time after so many of theirs. -/
structure TransEvent where
  ops : List TransOp
  stop : Option (Nat × List Nat)

/-- From begin_op to the point of end_op where it is known whether to commit. -/
def transaction (ops : List TransOp) : Bio Bool := do
  if ← beginOpTry then
    forM ops transStep
    endOpLeave
  else return false

/-- The store in which the commit begins; by then every buffer is released, and no block of the log
is logged. -/
def Store.committing (s : Store) (ops : List TransOp) : Option Store :=
  match transaction ops s with
  | (.ok true, u) =>
    if (∀ i, (u.buf i).refcnt = 0) ∧ ∀ b ∈ u.log.lh, ¬ u.log.Inside (u.log.homeAddr b) then some u
      else none
  | _ => none

/-- The disk after a recovery that is stopped. -/
def Log.interrupted (l : Log) (d : Disk) (k : Nat) : Disk :=
  Writes.apply d ((issuedBy recoverFromLog (Store.boot l d)).take k)

/-- The disk on which the last recovery begins. -/
def Store.left (u : Store) (k : Nat) (ks : List Nat) : Disk :=
  ks.foldl u.log.interrupted (Writes.apply u.disk ((issuedBy commit u).take k))

/-- What goes on where the commit begins. -/
def TransEvent.finish (e : TransEvent) (u : Store) : Except Halt Unit × Store :=
  match e.stop with
  | none => (do commit; endOpFinish : Bio Unit) u
  | some (k, ks) => recoverFromLog (Store.boot u.log (u.left k ks))

def TransEvent.step (s : Store) (e : TransEvent) : Option Store :=
  (s.committing e.ops).bind fun u =>
    match e.finish u with
    | (.ok _, t) => some t
    | _ => none

/-- The contents that the transaction gives to log_write. -/
def TransEvent.logged (s : Store) (e : TransEvent) : List (BlockAddr × DiskBlock) :=
  ((s.committing e.ops).map fun u => u.given.drop s.given.length).getD []

/-- The contents that last: those of every transaction carried out, and all or none of those of one
that was not. -/
inductive Kept : Store → List TransEvent → List (BlockAddr × DiskBlock) → Prop
  | nil (s : Store) : Kept s [] []
  | whole {s t : Store} {e : TransEvent} {es : List TransEvent} {g : List (BlockAddr × DiskBlock)} :
      e.step s = some t → Kept t es g → Kept s (e :: es) (e.logged s ++ g)
  | lost {s t : Store} {e : TransEvent} {es : List TransEvent} {g : List (BlockAddr × DiskBlock)} :
      e.step s = some t → e.stop ≠ none → Kept t es g → Kept s (e :: es) g

section

variable {s t u : Store} {ops : List TransOp} {g : List (BlockAddr × DiskBlock)} {d e f : Disk}
  {l : Log}

theorem Store.Ready.recount (h : s.Ready) (n : Nat) (c : Bool) :
    { s with log := { s.log with outstanding := n, committing := c } }.Ready :=
  { h with coherent := { h.coherent with } }

theorem Store.Logging.recount (h : s.Logging u g) (n : Nat) (c : Bool) :
    s.Logging { u with log := { u.log with outstanding := n, committing := c } } g :=
  { h with coherent := { h.coherent with } }

theorem transaction_logging (ops : List TransOp) (hs : s.Ready) :
    (transaction ops).wp (fun _ u => ∃ g, s.Logging u g) (fun _ _ => True) s := by
  refine wp_bind.mpr (wp_bind.mpr
    (wp_get.mpr (wp_ite (fun _ => ?_) fun _ => wp_ite (fun _ => ?_) fun _ => ?_)))
  · exact ⟨[], hs.logging⟩
  · exact ⟨[], hs.logging⟩
  · refine wp_bind.mpr (wp_set.mpr (wp_pure.mpr (wp_bind.mpr (wp_imp (transRun_logging ops
      (hs.recount (s.log.outstanding + 1) s.log.committing)) ?_))))
    rintro _ u ⟨g, h⟩
    have h : s.Logging u g := { h with }
    refine wp_bind.mpr (wp_modify.mpr
      (wp_bind.mpr (wp_get.mpr (wp_ite (fun _ => trivial) fun _ => ?_))))
    exact wp_ite (fun _ => ⟨g, h.recount _ true⟩) fun _ => ⟨g, h.recount _ _⟩

/-- What is known where the commit begins. -/
structure Store.Full (s u : Store) (g : List (BlockAddr × DiskBlock)) : Prop where
  logging : s.Logging u g
  idle : u.Idle
  placed : u.log.Placed
  size : 0 < u.log.size
  area : u.log.start + u.log.size ≤ FSSIZE
  header : decodeHead (s.disk u.log.headAddr) = []
  others : ∀ a, ¬ u.log.Home a → Writes.apply s.disk g a = s.disk a

theorem Store.committing_full (hs : s.Ready) (h : s.committing ops = some u) : ∃ g, s.Full u g := by
  unfold Store.committing at h
  split at h
  next v hrun =>
    obtain ⟨⟨hidle, hout⟩, rfl⟩ := Runs.of_guard h
    have hwp := transaction_logging ops hs
    rw [wp_ok hrun] at hwp
    obtain ⟨g, hg⟩ := hwp
    refine ⟨g, hg, hidle, hg.placed hs hout, ?_, ?_, ?_, fun a ha => ?_⟩
    · rw [hg.size]
      exact hs.area.1
    · rw [hg.start, hg.size]
      exact hs.area.2
    · rw [Log.headAddr, hg.dev, hg.start]
      exact hs.header
    · exact Writes.apply_of_notMem fun hin => ha ((hg.logged a).mp hin)
  next => cases h

theorem Log.home_written {a : BlockAddr} (ha : l.Home a) : a ∈ (l.commitWrites f).map Prod.fst := by
  have hne : l.lh ≠ [] := by
    obtain ⟨b, hb, _⟩ := ha
    exact List.ne_nil_of_mem hb
  rw [Log.commitWrites_eq hne, List.map_append]
  refine List.mem_append_right _ ?_
  rw [List.map_append]
  exact List.mem_append_left _ (Log.mem_homes_keys.mpr ha)

theorem Store.Full.ready {v : Store} {ws : List (BlockAddr × DiskBlock)} {n : Nat} {c : Bool}
    (h : s.Full u g)
    (hv : v.After t { u.log with outstanding := n, committing := c, lh := [] } f ws [])
    (hidle : v.Idle)
    (hshown : f = Writes.apply v.disk ws)
    (hdirty : ∀ a, v.DirtyAt a → a ∈ ws.map Prod.fst)
    (hhead : decodeHead (Writes.apply v.disk ws u.log.headAddr) = []) : t.Ready where
  coherent := hv.coherent
  shown := by
    rw [hv.disk, ← hshown]
    exact hv.shown
  clean a ha := ((hv.dirty a).mp ha).2 (hdirty a ((hv.dirty a).mp ha).1)
  dev := by rw [hv.log]; exact h.placed.dev
  area := by rw [hv.log]; exact ⟨h.size, h.area⟩
  empty := by rw [hv.log]
  header := by
    rw [hv.log, hv.disk]
    exact hhead
  held i hi := by
    rw [hv.coherent.free i (hv.pinned hidle i)] at hi
    cases hi

theorem Store.Full.commits (h : s.Full u g) :
    (do commit; endOpFinish : Bio Unit).wp (fun _ t => t.Ready ∧ t.log.Inside = u.log.Inside ∧
      ∀ a, ¬ u.log.Inside a → t.disk a = Writes.apply s.disk g a) (fun _ _ => True) u := by
  refine wp_bind.mpr (wp_mono (commit_after h.logging.coherent h.logging.shown h.placed) ?_
    fun _ _ _ => trivial)
  intro _ v hv
  have hdisk := hv.disk
  have hready : v.Ready := by
    refine h.ready hv h.idle (funext fun a => ?_)
      (fun a ha => Log.home_written ((h.logging.dirty a).mp ha)) ?_
    · rw [h.logging.disk]
      by_cases ha : a ∈ (u.log.commitWrites (Writes.apply s.disk g)).map Prod.fst
      · exact Writes.apply_of_mem ha
      · rw [Writes.apply_of_notMem ha, Writes.apply_of_notMem ha]
        exact h.others a fun hh => ha (Log.home_written hh)
    · rw [h.logging.disk]
      by_cases hnil : u.log.lh = []
      · rw [Log.commitWrites, if_pos hnil]
        exact h.header
      · rw [Log.commitWrites_eq hnil, ← List.append_assoc, Writes.apply_snoc, Function.update_self,
          decodeHead_encodeHead_nil]
  rw [h.logging.disk] at hdisk
  refine wp_modify.mpr ⟨hready.recount v.log.outstanding false, ?_, fun a ha => ?_⟩
  · dsimp only
    rw [hv.log]
    rfl
  · exact (congrFun hdisk a).trans (apply_commitWrites h.placed h.size h.others ha)

theorem Phase.placed (hl : l.Placed) (h : Phase l d f e) :
    ({ (Store.boot l e).log with lh := decodeHead (e l.headAddr) } : Log).Placed := by
  rcases h.header with hh | hh
  · rw [hh]
    exact ⟨hl.dev, List.nodup_nil, fun b hb => absurd hb List.not_mem_nil,
      fun hne => absurd rfl hne⟩
  · rw [hh]
    exact ⟨hl.dev, hl.nodup, hl.outside, hl.fits⟩

theorem survives_left {c : Disk} (ks : List Nat) (h : Survives l c d) :
    Survives l c (ks.foldl l.interrupted d) := by
  induction ks generalizing d with
  | nil => exact h
  | cons k ks ih => exact ih (.again k h)

/-- After a crash recovery runs to its end, with all of the transaction on the disk or nothing. -/
theorem Store.Full.recovers (h : s.Full u g) (k : Nat) (ks : List Nat) :
    ∃ t, recoverFromLog (Store.boot u.log (u.left k ks)) = (.ok ⟨⟩, t) ∧ t.Ready ∧
      t.log.Inside = u.log.Inside ∧
      ((∀ a, ¬ u.log.Inside a → t.disk a = s.disk a) ∨
        ∀ a, ¬ u.log.Inside a → t.disk a = Writes.apply s.disk g a) := by
  have hprefix := (List.take_prefix k _).trans
    (commit_issued h.logging.coherent h.logging.shown h.placed)
  have hstart := commit_phase h.placed h.size h.logging.short.1
    (fun b hb => Nat.lt_trans (h.logging.inside b hb) (by decide)) h.header h.others hprefix
  have hphase := survives_phase h.placed h.size h.area h.logging.inside hstart
    (survives_left ks .crash)
  rw [← h.logging.disk] at hphase ⊢
  change Phase _ _ _ (u.left k ks) at hphase
  generalize u.left k ks = e at *
  obtain ⟨t, hrun, hdisk, _⟩ := boot_recovers h.placed h.size h.area h.logging.inside hphase
  have hwp := recoverFromLog_after boot_coherent boot_shows (hphase.placed h.placed)
  rw [wp_ok hrun] at hwp
  obtain ⟨hclear, hall⟩ := recover_ends h.placed h.size hphase
  refine ⟨t, hrun, h.ready hwp (fun _ => rfl) rfl (fun a ha => absurd ha (boot_clean a)) hclear,
    by rw [hwp.log]; rfl, ?_⟩
  rw [hdisk]
  exact hall

theorem TransEvent.step_kept {ev : TransEvent} (hs : s.Ready) (h : ev.step s = some t) :
    t.Ready ∧ t.log.Inside = s.log.Inside ∧
      ((∀ a, ¬ s.log.Inside a → t.disk a = Writes.apply s.disk (ev.logged s) a) ∨
        ev.stop ≠ none ∧ ∀ a, ¬ s.log.Inside a → t.disk a = s.disk a) := by
  obtain ⟨u, hu, ht⟩ := Option.bind_eq_some_iff.mp h
  obtain ⟨g, hg⟩ := Store.committing_full hs hu
  have hinside : u.log.Inside = s.log.Inside := by
    funext a
    rw [Log.Inside, Log.Inside, hg.logging.dev, hg.logging.start, hg.logging.size]
  have hlogged : ev.logged s = g := by
    rw [TransEvent.logged, hu, Option.map_some, Option.getD_some, hg.logging.given, List.drop_left]
  rw [hlogged, ← hinside]
  split at ht
  next v hrun =>
    cases ht
    unfold TransEvent.finish at hrun
    split at hrun
    next =>
      have hwp := hg.commits
      rw [wp_ok hrun] at hwp
      exact ⟨hwp.1, hwp.2.1, .inl hwp.2.2⟩
    next k ks hstop =>
      obtain ⟨w, hend, hready, harea, hdisk⟩ := hg.recovers k ks
      cases hrun.symm.trans hend
      exact ⟨hready, harea, hdisk.symm.imp_right fun hold =>
        ⟨by rw [hstop]; exact Option.some_ne_none _, hold⟩⟩
  next => cases ht

theorem apply_at {w w' : Disk} {a : BlockAddr} (h : w a = w' a) :
    Writes.apply w g a = Writes.apply w' g a := by
  by_cases ha : a ∈ g.map Prod.fst
  · exact Writes.apply_of_mem ha
  · rw [Writes.apply_of_notMem ha, Writes.apply_of_notMem ha, h]

/-- Whatever transactions are carried out, and wherever the machine stops in others and in the
recoveries after them, the disk is the one that the transactions that last have made. -/
theorem log_history {events : List TransEvent} (hs : s.Ready)
    (h : Runs.exec TransEvent.step s events = some t) :
    t.Ready ∧ ∃ g, Kept s events g ∧ ∀ a, ¬ s.log.Inside a →
      t.disk a = Writes.apply s.disk g a := by
  induction events generalizing s with
  | nil =>
    cases h
    exact ⟨hs, [], .nil _, fun _ _ => rfl⟩
  | cons ev events ih =>
    obtain ⟨v, hstep, hrest⟩ := Option.bind_eq_some_iff.mp h
    obtain ⟨hv, hinside, hdisk⟩ := TransEvent.step_kept hs hstep
    obtain ⟨ht, g, hg, hlast⟩ := ih hv hrest
    rw [hinside] at hlast
    rcases hdisk with hwhole | ⟨hstop, hold⟩
    · refine ⟨ht, _, .whole hstep hg, fun a ha => ?_⟩
      rw [hlast a ha, Writes.apply_append]
      exact apply_at (hwhole a ha)
    · exact ⟨ht, g, .lost hstep hstop hg, fun a ha => (hlast a ha).trans (apply_at (hold a ha))⟩

end

/-- Block 100 is logged by a transaction that lasts, and again by one whose commit stops at its
second write. -/
def stoppedTwice : List TransEvent := [⟨loggedTwice, none⟩, ⟨loggedTwice, some (2, [1])⟩]

theorem log_history_stopped : ∃ t g,
    Runs.exec TransEvent.step (Store.boot mkfsLog fun _ _ => 0) stoppedTwice = some t ∧
      Kept (Store.boot mkfsLog fun _ _ => 0) stoppedTwice g ∧ t.Ready := by
  have hready : (Store.boot mkfsLog fun _ _ => 0).Ready :=
    ⟨boot_coherent, boot_shows, boot_clean, by decide, by decide, rfl, by decide,
      fun i h => by cases h⟩
  have hrun : (Runs.exec TransEvent.step (Store.boot mkfsLog fun _ _ => 0)
      stoppedTwice).isSome := by
    decide +kernel
  obtain ⟨t, ht⟩ := Option.isSome_iff_exists.mp hrun
  obtain ⟨h, g, hg, _⟩ := log_history hready ht
  exact ⟨t, g, ht, hg, h⟩

end Xv6
