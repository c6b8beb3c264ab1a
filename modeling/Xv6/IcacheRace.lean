import Xv6.IcacheCoherence

namespace Xv6

variable {Pid : Type} [DecidableEq Pid] [Fintype Pid]

theorem Icache.Inv.change {s : Icache Pid} (h : s.Inv) {p : Pid} {ip : InodeSlot} {din : Dinode}
    (hp : s.pc p = .ready) (hh : s.hold p ip ≠ .none) (ht : din.type = (s.din ip).type) :
    ((s.setDin ip din).setHold p ip .changed).Inv := by
  have hlock : s.Locking p ip := Or.inl hh
  have hmarked : (s.setHold p ip .changed).Inv :=
    h.setHold (h.owner p ip hlock) (h.lockRef p ip hlock) (by simp [hp, InodePc.locked])
      (h.holdValid p ip hh) (h.not_freed_of_hold hh) (Or.inl rfl)
  refine hmarked.rewrite rfl fun i hr hv hn => ?_
  obtain ⟨h1, h2, h3⟩ := hmarked.settled i hr hv hn
  by_cases hi : i = ip
  · subst i
    refine ⟨?_, h2, fun hc => absurd Icache.setHold_same (hc p)⟩
    simp only [Icache.setDin, Icache.setHold, Function.update_self, ht]
    exact h1
  · simpa [Icache.setDin, Icache.setHold, Function.update_of_ne hi] using ⟨h1, h2, h3⟩

theorem Icache.Inv.iupdate {s : Icache Pid} (h : s.Inv) {p : Pid} {ip : InodeSlot}
    (hp : s.pc p = .ready) (hh : s.hold p ip ≠ .none) :
    ((s.iupdate ip).setHold p ip .clean).Inv := by
  have hlock : s.Locking p ip := Or.inl hh
  have hpos := h.ref_pos (h.lockRef p ip hlock)
  have hdisk : (s.iupdate ip).Inv := by
    refine h.rewrite rfl fun i hr hv hn => ?_
    obtain ⟨h1, h2, h3⟩ := h.settled i hr hv hn
    by_cases hi : i = ip
    · subst i
      simp only [Icache.iupdate, Icache.setDisk, Function.update_self]
      exact ⟨h1, h1, fun _ => trivial⟩
    · have hne := h.inum_ne hr hpos hi
      simpa [Icache.iupdate, Icache.setDisk, Function.update_of_ne hne] using ⟨h1, h2, h3⟩
  exact hdisk.setHold (h.owner p ip hlock) (h.lockRef p ip hlock)
    (by simp [Icache.iupdate, Icache.setDisk, hp, InodePc.locked]) (h.holdValid p ip hh)
    (h.not_freed_of_hold hh) (Or.inr (by simp [Icache.iupdate, Icache.setDisk]))

theorem Icache.Inv.iunlock {s : Icache Pid} (h : s.Inv) {p : Pid} {ip : InodeSlot}
    (hp : s.pc p = .ready) (hh : s.hold p ip = .clean) :
    ((s.setLock ip none).setHold p ip .none).Inv := by
  have hne : s.hold p ip ≠ .none := by simp [hh]
  have hlock : s.Locking p ip := Or.inl hne
  have howner := h.owner p ip hlock
  have hloose : (s.setHold p ip .none).Inv :=
    h.setHold howner (h.lockRef p ip hlock) (by simp [hp, InodePc.locked])
      (h.holdValid p ip hne) (h.not_freed_of_hold hne) (Or.inr (h.coherent p ip hh).1)
  refine hloose.setLock (v := none) fun q hq => ?_
  by_cases hqp : q = p
  · subst q
    rcases hq with hq | hq
    · exact hq Icache.setHold_same
    · simp [Icache.setHold, hp, InodePc.locked] at hq
  · have hq' : s.Locking q ip := by
      rcases hq with hq | hq
      · exact Or.inl (by rwa [Icache.setHold_other (fun he => hqp he.1)] at hq)
      · exact Or.inr hq
    exact hqp (Option.some.inj ((h.owner q ip hq').symm.trans howner))

/-- The process with the only reference starts to free the inode: nobody else can be
using the entry at this moment. -/
theorem Icache.Inv.startFree {s : Icache Pid} (h : s.Inv) {p : Pid} {ip : InodeSlot}
    (hp : s.pc p = .ready) (hr : 0 < s.refs p ip) (hh : s.hold p ip = .none) (hone : s.ref ip = 1)
    (hv : s.valid ip = true) : (s.setPc p (.freeing ip .truncating)).Inv := by
  have halone : ∀ q, 0 < s.refs q ip → q = p := fun q hq => h.alone_of_ref_one hone hr hq
  have hfreed : ∀ q i, (s.setPc p (.freeing ip .truncating)).FreedBy q i ↔
      s.FreedBy q i ∨ (q = p ∧ i = ip) := by
    intro q i
    by_cases hq : q = p
    · subst q
      simp [Icache.FreedBy, Icache.setPc, hp, InodePc.freed, eq_comm]
    · simp [Icache.FreedBy, Icache.setPc, hq]
  have hlocking : ∀ q i, (s.setPc p (.freeing ip .truncating)).Locking q i → s.Locking q i := by
    intro q i hq
    by_cases hqp : q = p
    · subst q
      simpa [Icache.Locking, Icache.setPc, hp, InodePc.locked] using hq
    · simpa [Icache.Locking, Icache.setPc, Function.update_of_ne hqp] using hq
  have hpcs : ∀ q, q ≠ p → (s.setPc p (.freeing ip .truncating)).pc q = s.pc q :=
    fun q hq => by simp [Icache.setPc, Function.update_of_ne hq]
  have hself : (s.setPc p (.freeing ip .truncating)).pc p = .freeing ip .truncating := by
    simp [Icache.setPc]
  exact { h with
    owner := fun q i hq => h.owner q i (hlocking q i hq)
    lockRef := fun q i hq => h.lockRef q i (hlocking q i hq)
    freeRef := by
      intro q i hq
      rcases (hfreed q i).mp hq with hq | ⟨rfl, rfl⟩
      · exact h.freeRef q i hq
      · exact hr
    fresh := by
      intro q i hq
      by_cases hqp : q = p
      · rw [hqp, hself] at hq
        simp [InodePc.locked] at hq
      · rw [hpcs q hqp] at hq
        exact h.fresh q i hq
    loadInvalid := by
      intro q i hq
      by_cases hqp : q = p
      · rw [hqp, hself] at hq
        simp at hq
      · rw [hpcs q hqp] at hq
        exact h.loadInvalid q i hq
    freeValid := by
      intro q i hq
      rcases (hfreed q i).mp hq with hq | ⟨rfl, rfl⟩
      · exact h.freeValid q i hq
      · exact hv
    freeAlone := by
      intro q i hq r
      rcases (hfreed q i).mp hq with hq | ⟨rfl, rfl⟩
      · exact h.freeAlone q i hq r
      · by_contra hr'
        have hrq := halone r (h.lockRef r i (Or.inl hr'))
        rw [hrq] at hr'
        exact hr' hh
    freeOnce := by
      intro q r i hq hr'
      rcases (hfreed q i).mp hq with hq | ⟨hqp, hi⟩
      · rcases (hfreed r i).mp hr' with hr' | ⟨hrp, hi⟩
        · exact h.freeOnce q r i hq hr'
        · rw [hrp]
          exact halone q (hi ▸ h.freeRef q i hq)
      · rcases (hfreed r i).mp hr' with hr' | ⟨hrp, _⟩
        · rw [hqp]
          exact (halone r (hi ▸ h.freeRef r i hr')).symm
        · rw [hqp, hrp]
    settled := fun i hi hvi hn =>
      h.settled i hi hvi (fun q hq => hn q ((hfreed q i).mpr (Or.inl hq))) }

theorem Icache.Inv.iput {s : Icache Pid} (h : s.Inv) {p : Pid} {ip : InodeSlot}
    (hp : s.pc p = .ready) (hr : 0 < s.refs p ip) (hh : s.hold p ip = .none ∨ 1 < s.refs p ip) :
    (s.iput p ip).Inv := by
  unfold Icache.iput
  split
  next hc =>
    have hle := h.refs_le_ref p ip
    exact h.startFree hp hr (hh.resolve_right (by omega)) hc.1 hc.2.1
  next =>
    refine h.dropRef hr ?_ ?_
    · intro hl
      refine hh.resolve_left fun hn => ?_
      simp [Icache.Locking, hn, hp, InodePc.locked] at hl
    · simp [Icache.FreedBy, hp, InodePc.freed]

omit [DecidableEq Pid] in
theorem Icache.Inv.writeFreed {s t : Icache Pid} (h : s.Inv) {p : Pid} {ip : InodeSlot}
    (hf : s.FreedBy p ip) (he : t = { s with disk := t.disk, din := t.din })
    (hdin : ∀ i, i ≠ ip → t.din i = s.din i) (hdisk : ∀ n, n ≠ s.inum ip → t.disk n = s.disk n) :
    t.Inv := by
  refine h.rewrite he fun i hr hv hn => ?_
  have hi : i ≠ ip := by
    rintro rfl
    exact hn p hf
  rw [hdin i hi, hdisk (s.inum i) (h.inum_ne hr (h.ref_pos (h.freeRef p ip hf)) hi)]
  exact h.settled i hr hv hn

theorem Icache.Inv.advanceFree {s : Icache Pid} (h : s.Inv) {p : Pid} {ip : InodeSlot}
    {a b : Freeing} (hp : s.pc p = .freeing ip a) : (s.setPc p (.freeing ip b)).Inv :=
  h.setPc (by rw [hp]; rfl) (by simp [InodePc.locked]) (by simp)

theorem Icache.Inv.iputFinish {s : Icache Pid} (h : s.Inv) {p : Pid} {ip : InodeSlot}
    (hp : s.pc p = .freeing ip .written) :
    (((s.setValid ip false).dropRef p ip).setPc p .ready).Inv := by
  have hf : s.FreedBy p ip := by simp [Icache.FreedBy, hp, InodePc.freed]
  have hnone := h.freeAlone p ip hf
  let t := (s.setValid ip false).setPc p .ready
  have hpcs : ∀ q, q ≠ p → t.pc q = s.pc q :=
    fun q hq => by simp [t, Icache.setPc, Icache.setValid, Function.update_of_ne hq]
  have hself : t.pc p = .ready := by simp [t, Icache.setPc]
  have hvalid : ∀ i, i ≠ ip → t.valid i = s.valid i :=
    fun i hi => by simp [t, Icache.setPc, Icache.setValid, Function.update_of_ne hi]
  have hgone : t.valid ip = false := by simp [t, Icache.setPc, Icache.setValid]
  have hfreed : ∀ q i, t.FreedBy q i → q ≠ p ∧ s.FreedBy q i := by
    intro q i hq
    have hqp : q ≠ p := by
      rintro rfl
      simp [Icache.FreedBy, hself, InodePc.freed] at hq
    exact ⟨hqp, by simpa [Icache.FreedBy, hpcs q hqp] using hq⟩
  have hlocking : ∀ q i, t.Locking q i → s.Locking q i := by
    intro q i hq
    by_cases hqp : q = p
    · subst q
      rcases hq with hq | hq
      · exact Or.inl hq
      · simp [hself, InodePc.locked] at hq
    · rcases hq with hq | hq
      · exact Or.inl hq
      · exact Or.inr (by rwa [hpcs q hqp] at hq)
  have hinv : t.Inv := { h with
    owner := fun q i hq => h.owner q i (hlocking q i hq)
    lockRef := fun q i hq => h.lockRef q i (hlocking q i hq)
    freeRef := fun q i hq => h.freeRef q i (hfreed q i hq).2
    fresh := by
      intro q i hq
      by_cases hqp : q = p
      · simp [hqp, hself, InodePc.locked] at hq
      · exact h.fresh q i (by rwa [hpcs q hqp] at hq)
    holdValid := by
      intro q i hq
      have hi : i ≠ ip := by
        rintro rfl
        exact hq (hnone q)
      rw [hvalid i hi]
      exact h.holdValid q i hq
    loadInvalid := by
      intro q i hq
      by_cases hi : i = ip
      · rw [hi]
        exact hgone
      · have hqp : q ≠ p := by
          rintro rfl
          simp [hself] at hq
        rw [hvalid i hi]
        exact h.loadInvalid q i (by rwa [hpcs q hqp] at hq)
    freeValid := by
      intro q i hq
      obtain ⟨hqp, hq'⟩ := hfreed q i hq
      have hi : i ≠ ip := by
        rintro rfl
        exact hqp (h.freeOnce q p i hq' hf)
      rw [hvalid i hi]
      exact h.freeValid q i hq'
    freeAlone := fun q i hq => h.freeAlone q i (hfreed q i hq).2
    freeOnce := fun q r i hq hr => h.freeOnce q r i (hfreed q i hq).2 (hfreed r i hr).2
    settled := by
      intro i hi hvi hn
      have hii : i ≠ ip := by
        rintro rfl
        simp [hgone] at hvi
      rw [hvalid i hii] at hvi
      refine h.settled i hi hvi fun q hq => ?_
      by_cases hqp : q = p
      · rw [hqp, Icache.FreedBy, hp] at hq
        exact hii (Option.some.inj hq).symm
      · exact hn q (by simpa [Icache.FreedBy, hpcs q hqp] using hq) }
  refine hinv.dropRef (p := p) (h.freeRef p ip hf) ?_ ?_
  · rintro (hq | hq)
    · exact absurd (hnone p) hq
    · simp [hself, InodePc.locked] at hq
  · simp [Icache.FreedBy, hself, InodePc.freed]

omit [DecidableEq Pid] [Fintype Pid] in
theorem Icache.freedBy_of_pc {s : Icache Pid} {p : Pid} {ip : InodeSlot} {a : Freeing}
    (hp : s.pc p = .freeing ip a) : s.FreedBy p ip := by
  simp [Icache.FreedBy, hp, InodePc.freed]

theorem Icache.next_inv {s t : Icache Pid} {e : InodeEvent Pid} (h : s.Inv) (ho : s.OutsideFree e)
    (hn : s.next e = some t) : t.Inv := by
  cases e with
  | iget p inum =>
    obtain ⟨_, rfl⟩ := Runs.of_guard hn
    exact h.iget p inum
  | idup p ip =>
    obtain ⟨⟨_, hr⟩, rfl⟩ := Runs.of_guard hn
    exact h.addRef p (h.ref_pos hr)
  | ialloc p inum type =>
    obtain ⟨⟨hp, hd, _⟩, rfl⟩ := Runs.of_guard hn
    exact h.ialloc hp hd
  | iallocGet p =>
    simp only [Icache.next] at hn
    split at hn
    next inum hp =>
      cases Option.some.inj hn
      refine (h.iget p inum).setPc_ready ?_
      have hpc : (s.iget p inum).pc = s.pc := by
        unfold Icache.iget
        repeat' split
        all_goals rfl
      rw [hpc, hp]
      rfl
    next => simp at hn
  | ilock p ip =>
    obtain ⟨⟨hp, hr, hl⟩, rfl⟩ := Runs.of_guard hn
    exact h.ilock hp hr hl
  | ilockTest p =>
    simp only [Icache.next] at hn
    split at hn
    next ip hp =>
      cases Option.some.inj hn
      exact h.ilockTest hp (fun q => ho ip q hp)
    next => simp at hn
  | ilockLoad p =>
    simp only [Icache.next] at hn
    split at hn
    next ip hp =>
      cases Option.some.inj hn
      exact h.ilockLoad hp
    next => simp at hn
  | change p ip din =>
    obtain ⟨⟨hp, hh, ht⟩, rfl⟩ := Runs.of_guard hn
    exact h.change hp hh ht
  | iupdate p ip =>
    obtain ⟨⟨hp, hh⟩, rfl⟩ := Runs.of_guard hn
    exact h.iupdate hp hh
  | iunlock p ip =>
    obtain ⟨⟨hp, hh⟩, rfl⟩ := Runs.of_guard hn
    exact h.iunlock hp hh
  | iput p ip =>
    obtain ⟨⟨hp, hr, hh⟩, rfl⟩ := Runs.of_guard hn
    exact h.iput hp hr hh
  | itruncFree p i =>
    simp only [Icache.next] at hn
    split at hn
    next ip hp =>
      cases Option.some.inj hn
      exact h.writeFreed (Icache.freedBy_of_pc hp) rfl
        (fun j hj => by simp [Icache.setDin, Function.update_of_ne hj]) (fun _ _ => rfl)
    next => simp at hn
  | itruncUpdate p =>
    simp only [Icache.next] at hn
    split at hn
    next ip hp =>
      obtain ⟨_, rfl⟩ := Runs.of_guard hn
      have hw : ((s.setDin ip { s.din ip with size := 0 }).iupdate ip).Inv :=
        h.writeFreed (Icache.freedBy_of_pc hp) rfl
          (fun j hj => by simp [Icache.iupdate, Icache.setDisk, Icache.setDin, Function.update_of_ne hj])
          (fun n hne => by simp [Icache.iupdate, Icache.setDisk, Icache.setDin, Function.update_of_ne hne])
      exact hw.advanceFree hp
    next => simp at hn
  | clearType p =>
    simp only [Icache.next] at hn
    split at hn
    next ip hp =>
      cases Option.some.inj hn
      have hw : (s.setDin ip { s.din ip with type := 0 }).Inv :=
        h.writeFreed (Icache.freedBy_of_pc hp) rfl
          (fun j hj => by simp [Icache.setDin, Function.update_of_ne hj]) (fun _ _ => rfl)
      exact hw.advanceFree hp
    next => simp at hn
  | freeUpdate p =>
    simp only [Icache.next] at hn
    split at hn
    next ip hp =>
      cases Option.some.inj hn
      have hw : (s.iupdate ip).Inv :=
        h.writeFreed (Icache.freedBy_of_pc hp) rfl (fun _ _ => rfl)
          (fun n hne => by simp [Icache.iupdate, Icache.setDisk, Function.update_of_ne hne])
      exact hw.advanceFree hp
    next => simp at hn
  | iputFinish p =>
    simp only [Icache.next] at hn
    split at hn
    next ip hp =>
      cases Option.some.inj hn
      exact h.iputFinish hp
    next => simp at hn

/-- In every interleaving in which no ilock tests I_VALID inside the window of an iput
that is freeing the same entry, a locked and unchanged inode agrees with the disk. -/
theorem icache_coherent_outside_free {disk : Nat → Dinode} {l : List (InodeEvent Pid)}
    {s : Icache Pid} (hmeets : Runs.Meets Icache.step Icache.OutsideFree (Icache.boot disk) l)
    (hrun : Runs.exec Icache.step (Icache.boot disk) l = some s) : s.Coherent := by
  have hinv : s.Inv := by
    refine Runs.invariant_of_meets (Icache.boot_inv disk) (fun t e u ht ho hstep => ?_) hmeets hrun
    unfold Icache.step at hstep
    split at hstep
    next => simp at hstep
    next => exact Icache.next_inv ht ho hstep
  exact hinv.coherent

/-- An image with one file, inode 5, which has one name. -/
def oneFile : Nat → Dinode :=
  fun inum => if inum = 5 then { Dinode.zero with type := tFile, nlink := 1 } else Dinode.zero

/-- Process 0 unlinks and puts the file, and then process 1 creates a new one with the same inode.
-/
def reusedRun : List (InodeEvent (Fin 2)) :=
  [.iget 0 5, .ilock 0 0, .ilockTest 0, .ilockLoad 0,
    .change 0 0 { Dinode.zero with type := tFile }, .iupdate 0 0, .iunlock 0 0,
    .iput 0 0, .itruncUpdate 0, .clearType 0, .freeUpdate 0, .iputFinish 0,
    .ialloc 1 5 tFile, .iallocGet 1, .ilock 1 0, .ilockTest 1, .ilockLoad 1]

theorem icache_coherent_outside_free_reused :
    ∃ s : Icache (Fin 2), Runs.exec Icache.step (Icache.boot oneFile) reusedRun = some s ∧
      s.hold 1 0 = .clean ∧
      s.Coherent := by
  have hrun : (Runs.exec Icache.step (Icache.boot oneFile) reusedRun).map (·.hold 1 0) =
    some .clean := by decide
  obtain ⟨s, hs, hhold⟩ := Option.map_eq_some_iff.mp hrun
  exact ⟨s, hs, hhold, icache_coherent_outside_free (Runs.meets_of_check (by decide)) hs⟩

/-- Process 0 unlinks and puts the file while process 1 creates a new one. -/
def recycledRun : List (InodeEvent (Fin 2)) :=
  [.iget 0 5, .ilock 0 0, .ilockTest 0, .ilockLoad 0,
    .change 0 0 { Dinode.zero with type := tFile }, .iupdate 0 0, .iunlock 0 0,
    .iput 0 0, .itruncUpdate 0, .clearType 0, .freeUpdate 0,
    .ialloc 1 5 tFile, .iallocGet 1, .ilock 1 0, .ilockTest 1]

theorem icache_recycled_run_not_coherent :
    ∃ s : Icache (Fin 2), Runs.exec Icache.step (Icache.boot oneFile) recycledRun = some s ∧
      ¬ s.Coherent := by
  have hend : (Runs.exec Icache.step (Icache.boot oneFile) recycledRun).map
      (fun s => (s.hold 1 0, (s.din 0).type)) = some (.clean, 0) := by decide
  obtain ⟨s, hs, he⟩ := Option.map_eq_some_iff.mp hend
  obtain ⟨hh, ht⟩ := Prod.mk.inj he
  exact ⟨s, hs, fun hc => (hc 1 0 hh).2 ht⟩

end Xv6
