import Xv6.LogCommit
import Xv6.LogHead
import Xv6.LogTrans

namespace Xv6

/-- The block writes that a computation sends to the disk, however it ends. -/
def issuedBy (x : Bio Unit) (s : Store) : List (BlockAddr × DiskBlock) :=
  (x s).2.issued.drop s.issued.length

/-- A machine that has just started: the disk as it was left, an empty cache. -/
def Store.boot (l : Log) (d : Disk) : Store :=
  { disk := d, buf := fun _ => Buf.empty, lru := binitLru
    log := { l with outstanding := 0, committing := false, lh := [] }
    issued := [], given := [] }

/-- The disks that recoveries, each stopped before one of its writes, can leave behind. -/
inductive Survives (l : Log) (d : Disk) : Disk → Prop
  | crash : Survives l d d
  | again {e : Disk} (k : Nat) : Survives l d e →
      Survives l d (Writes.apply e ((issuedBy recoverFromLog (Store.boot l e)).take k))

def Log.Home (l : Log) (a : BlockAddr) : Prop := ∃ b ∈ l.lh, a = l.homeAddr b

/-- How far a disk has come in the transaction of l that turns d into f. -/
inductive Phase (l : Log) (d f : Disk) (e : Disk) : Prop
  | old : decodeHead (e l.headAddr) = [] → (∀ a, ¬ l.Inside a → e a = d a) → Phase l d f e
  | committed : decodeHead (e l.headAddr) = l.lh → (∀ x ∈ l.tails, e (l.slotAddr x.2) = f (l.homeAddr x.1)) →
      (∀ a, ¬ l.Inside a → ¬ l.Home a → e a = f a) → Phase l d f e
  | done : decodeHead (e l.headAddr) = [] → (∀ a, ¬ l.Inside a → e a = f a) → Phase l d f e

section

variable {l : Log} {d e f : Disk}

theorem Log.Placed.inside_slot (hl : l.Placed) {i : Nat} (hi : i < l.lh.length) :
    l.Inside (l.slotAddr i) := by
  have hne : l.lh ≠ [] := by
    rintro h
    simp [h] at hi
  have hfit := hl.fits hne
  exact ⟨rfl, by simp only [slotAddr]; omega, by simp only [slotAddr]; omega⟩

theorem Log.inside_head (h : 0 < l.size) : l.Inside l.headAddr :=
  ⟨rfl, Nat.le_refl _, by simp only [headAddr]; omega⟩

theorem apply_inside {ws : List (BlockAddr × DiskBlock)} (hw : ∀ a ∈ ws.map Prod.fst, l.Inside a)
    {a : BlockAddr} (ha : ¬ l.Inside a) : Writes.apply d ws a = d a :=
  Writes.apply_of_notMem fun hin => ha (hw a hin)

theorem prefix_split {α : Type} {vs as bs : List α} (h : vs <+: as ++ bs) :
    vs <+: as ∨ ∃ us, us <+: bs ∧ vs = as ++ us := by
  rcases List.prefix_or_prefix_of_prefix h (List.prefix_append as bs) with hv | ⟨us, rfl⟩
  · exact Or.inl hv
  · exact Or.inr ⟨us, (List.prefix_append_right_inj as).mp h, rfl⟩

theorem map_fst_subset {vs ws : List (BlockAddr × DiskBlock)} (h : vs <+: ws) {a : BlockAddr}
    (ha : a ∈ vs.map Prod.fst) : a ∈ ws.map Prod.fst :=
  (h.map Prod.fst).subset ha

/-- The writes that bring the logged blocks home. -/
def Log.homes (l : Log) (f : Disk) : List (BlockAddr × DiskBlock) :=
  l.tails.map fun x => (l.homeAddr x.1, f (l.homeAddr x.1))

theorem Log.homes_keys : (l.homes f).map Prod.fst = l.lh.map l.homeAddr := by
  rw [← Log.tails_fst]
  simp [Log.homes]

theorem Log.mem_homes_keys {a : BlockAddr} : a ∈ (l.homes f).map Prod.fst ↔ l.Home a := by
  rw [Log.homes_keys]
  simp only [List.mem_map, Log.Home]
  constructor
  · rintro ⟨b, hb, rfl⟩
    exact ⟨b, hb, rfl⟩
  · rintro ⟨b, hb, rfl⟩
    exact ⟨b, hb, rfl⟩

theorem Log.Placed.apply_homes (hl : l.Placed) {a : BlockAddr} (ha : l.Home a) :
    Writes.apply e (l.homes f) a = f a := by
  have hnodup : ((l.homes f).map Prod.fst).Nodup := by
    rw [Log.homes_keys]
    refine hl.nodup.map fun b c hbc => ?_
    simpa [Log.homeAddr] using hbc
  obtain ⟨w, hw, hwa⟩ := List.mem_map.mp (Log.mem_homes_keys.mpr ha)
  obtain ⟨x, hx, rfl⟩ := List.mem_map.mp hw
  simp only at hwa
  refine Writes.apply_of_nodup hnodup ?_
  rw [← hwa]
  exact hw

theorem Log.Placed.slot_not_home (hl : l.Placed) {i : Nat} (hi : i < l.lh.length) :
    ¬ l.Home (l.slotAddr i) := by
  rintro ⟨b, hb, he⟩
  exact hl.slot_ne_home hi hb he

theorem Log.Placed.head_home (hl : l.Placed) : ¬ l.Home l.headAddr := by
  rintro ⟨b, hb, he⟩
  exact hl.head_ne_home hb he

/-- Home writes neither leave the committed phase nor depend on how many were made. -/
theorem phase_homes (hl : l.Placed) (hhead : decodeHead (e l.headAddr) = l.lh)
    (hslots : ∀ x ∈ l.tails, e (l.slotAddr x.2) = f (l.homeAddr x.1))
    (hother : ∀ a, ¬ l.Inside a → ¬ l.Home a → e a = f a) {us : List (BlockAddr × DiskBlock)}
    (hus : us <+: l.homes f) : Phase l d f (Writes.apply e us) := by
  have hkeep : ∀ a, ¬ l.Home a → Writes.apply e us a = e a := fun a ha =>
    Writes.apply_of_notMem fun hin => ha (Log.mem_homes_keys.mp (map_fst_subset hus hin))
  refine .committed ?_ (fun x hx => ?_) fun a hin ha => ?_
  · rw [hkeep _ hl.head_home, hhead]
  · rw [hkeep _ (hl.slot_not_home (Log.mem_tails hx).2)]
    exact hslots x hx
  · rw [hkeep a ha]
    exact hother a hin ha

theorem apply_homes_clear (hl : l.Placed) (hsize : 0 < l.size)
    (hother : ∀ a, ¬ l.Inside a → ¬ l.Home a → e a = f a) {v : DiskBlock} :
    decodeHead (Writes.apply e (l.homes f ++ [(l.headAddr, encodeHead [] v)]) l.headAddr) = [] ∧
      ∀ a, ¬ l.Inside a → Writes.apply e (l.homes f ++ [(l.headAddr, encodeHead [] v)]) a = f a := by
  rw [Writes.apply_snoc]
  refine ⟨by rw [Function.update_self, decodeHead_encodeHead_nil], fun a ha => ?_⟩
  have hne : a ≠ l.headAddr := by
    rintro rfl
    exact ha (Log.inside_head hsize)
  rw [Function.update_of_ne hne]
  by_cases hhome : l.Home a
  · exact hl.apply_homes hhome
  · rw [Writes.apply_of_notMem fun hin => hhome (Log.mem_homes_keys.mp hin)]
    exact hother a ha hhome

theorem prefix_singleton {α : Type} {us : List α} {x : α} (h : us <+: [x]) :
    us = [] ∨ us = [x] := by
  cases us with
  | nil => exact Or.inl rfl
  | cons y ys =>
    have hlen := h.length_le
    simp only [List.length_cons, List.length_nil] at hlen
    have hys : ys = [] := List.length_eq_zero_iff.mp (by omega)
    subst hys
    exact Or.inr (h.eq_of_length (by simp))

theorem Log.Placed.copies_inside (hl : l.Placed) {a : BlockAddr}
    (ha : a ∈ (l.copies f).map Prod.fst) : l.Inside a := by
  rw [Log.copies_keys] at ha
  obtain ⟨i, hi, rfl⟩ := List.mem_map.mp ha
  exact hl.inside_slot (List.mem_range.mp hi)

theorem apply_copies_head (hl : l.Placed) (hsize : 0 < l.size) {v : DiskBlock} {a : BlockAddr}
    (ha : ¬ l.Inside a) :
    Writes.apply d (l.copies f ++ [(l.headAddr, v)]) a = d a := by
  have hne : a ≠ l.headAddr := by
    rintro rfl
    exact ha (Log.inside_head hsize)
  rw [Writes.apply_snoc, Function.update_of_ne hne,
    apply_inside (fun c hc => hl.copies_inside hc) ha]

theorem Log.commitWrites_eq (h : l.lh ≠ []) :
    l.commitWrites f = (l.copies f ++ [(l.headAddr, encodeHead l.lh (f l.headAddr))]) ++
      (l.homes f ++ [(l.headAddr, encodeHead [] (encodeHead l.lh (f l.headAddr)))]) := by
  rw [Log.commitWrites, if_neg h, List.append_assoc]
  rfl

theorem apply_commitWrites (hl : l.Placed) (hsize : 0 < l.size) (hf : ∀ a, ¬ l.Home a → f a = d a)
    {a : BlockAddr} (ha : ¬ l.Inside a) : Writes.apply d (l.commitWrites f) a = f a := by
  by_cases hnil : l.lh = []
  · rw [Log.commitWrites, if_pos hnil, Writes.apply_nil]
    refine (hf a ?_).symm
    rintro ⟨b, hb, _⟩
    simp [hnil] at hb
  · rw [Log.commitWrites_eq hnil, Writes.apply_append]
    refine (apply_homes_clear hl hsize fun c hc hhome => ?_).2 a ha
    rw [apply_copies_head hl hsize hc, hf c hhome]

/-- A disk with an empty header and the old blocks goes through the phases as commit writes. -/
theorem commit_phase (hl : l.Placed) (hsize : 0 < l.size) (hlen : l.lh.length ≤ LOGSIZE)
    (hlt : ∀ b ∈ l.lh, b < 2 ^ 32) (hhead : decodeHead (d l.headAddr) = [])
    (hf : ∀ a, ¬ l.Home a → f a = d a) {vs : List (BlockAddr × DiskBlock)}
    (hvs : vs <+: l.commitWrites f) :
    Phase l d f (Writes.apply d vs) := by
  by_cases hnil : l.lh = []
  · rw [Log.commitWrites, if_pos hnil, List.prefix_nil] at hvs
    subst hvs
    exact .old hhead fun _ _ => rfl
  rw [Log.commitWrites_eq hnil] at hvs
  generalize hE : Writes.apply d (l.copies f ++ [(l.headAddr, encodeHead l.lh (f l.headAddr))]) = E
  have hEhead : decodeHead (E l.headAddr) = l.lh := by
    rw [← hE, Writes.apply_snoc, Function.update_self, decodeHead_encodeHead _ hlen hlt]
  have hEslots : ∀ x ∈ l.tails, E (l.slotAddr x.2) = f (l.homeAddr x.1) := by
    intro x hx
    rw [← hE, Writes.apply_snoc, Function.update_of_ne (l.head_ne_slot x.2).symm]
    exact Writes.apply_of_nodup Log.slots_nodup (List.mem_map.mpr ⟨x, hx, rfl⟩)
  have hEother : ∀ a, ¬ l.Inside a → ¬ l.Home a → E a = f a := by
    intro a ha hhome
    rw [← hE, apply_copies_head hl hsize ha, hf a hhome]
  rcases prefix_split hvs with hvs | ⟨us, hus, rfl⟩
  · rcases prefix_split hvs with hvs | ⟨us, hus, rfl⟩
    · refine .old ?_ fun a ha => apply_inside (fun c hc => hl.copies_inside (map_fst_subset hvs hc)) ha
      rw [Writes.apply_of_notMem fun hin => Log.head_not_slot (map_fst_subset hvs hin)]
      exact hhead
    · rcases prefix_singleton hus with rfl | rfl
      · rw [List.append_nil]
        refine .old ?_ fun a ha => apply_inside (fun c hc => hl.copies_inside hc) ha
        rw [Writes.apply_of_notMem Log.head_not_slot]
        exact hhead
      · rw [hE]
        exact phase_homes hl hEhead hEslots hEother (List.nil_prefix : [] <+: l.homes f)
  · rw [Writes.apply_append, hE]
    rcases prefix_split hus with hus | ⟨ts, hts, rfl⟩
    · exact phase_homes hl hEhead hEslots hEother hus
    · rcases prefix_singleton hts with rfl | rfl
      · rw [List.append_nil]
        exact phase_homes hl hEhead hEslots hEother (List.prefix_refl _)
      · obtain ⟨hclear, hnew⟩ := apply_homes_clear hl hsize hEother
        exact .done hclear hnew

theorem recoverWrites_empty (h : decodeHead (e l.headAddr) = []) :
    l.recoverWrites e = [(l.headAddr, encodeHead [] (e l.headAddr))] := by
  simp [Log.recoverWrites, h, Log.installs, Log.tails]

theorem recoverWrites_committed (h : decodeHead (e l.headAddr) = l.lh)
    (hslots : ∀ x ∈ l.tails, e (l.slotAddr x.2) = f (l.homeAddr x.1)) :
    l.recoverWrites e = l.homes f ++ [(l.headAddr, encodeHead [] (e l.headAddr))] := by
  have hinst : l.installs e = l.homes f := by
    refine List.map_congr_left fun x hx => ?_
    rw [hslots x hx]
  rw [Log.recoverWrites, h]
  exact congrArg (· ++ _) hinst

theorem apply_clear (hsize : 0 < l.size) (h : decodeHead (e l.headAddr) = [])
    {vs : List (BlockAddr × DiskBlock)} (hvs : vs <+: l.recoverWrites e) :
    decodeHead (Writes.apply e vs l.headAddr) = [] ∧ ∀ a, ¬ l.Inside a →
      Writes.apply e vs a = e a := by
  rw [recoverWrites_empty h] at hvs
  rcases prefix_singleton hvs with rfl | rfl
  · exact ⟨h, fun _ _ => rfl⟩
  · refine ⟨by simp [decodeHead_encodeHead_nil], fun a ha => ?_⟩
    have hne : a ≠ l.headAddr := by
      rintro rfl
      exact ha (Log.inside_head hsize)
    simp [Function.update_of_ne hne]

/-- Recovery moves through the phases and never back. -/
theorem recover_phase (hl : l.Placed) (hsize : 0 < l.size) (h : Phase l d f e)
    {vs : List (BlockAddr × DiskBlock)} (hvs : vs <+: l.recoverWrites e) :
    Phase l d f (Writes.apply e vs) := by
  cases h with
  | old hhead hold =>
    obtain ⟨hclear, hkeep⟩ := apply_clear hsize hhead hvs
    exact .old hclear fun a ha => (hkeep a ha).trans (hold a ha)
  | done hhead hnew =>
    obtain ⟨hclear, hkeep⟩ := apply_clear hsize hhead hvs
    exact .done hclear fun a ha => (hkeep a ha).trans (hnew a ha)
  | committed hhead hslots hother =>
    rw [recoverWrites_committed hhead hslots] at hvs
    rcases prefix_split hvs with hvs | ⟨us, hus, rfl⟩
    · exact phase_homes hl hhead hslots hother hvs
    · rcases prefix_singleton hus with rfl | rfl
      · rw [List.append_nil]
        exact phase_homes hl hhead hslots hother (List.prefix_refl _)
      · obtain ⟨hclear, hnew⟩ := apply_homes_clear hl hsize hother
        exact .done hclear hnew

/-- A recovery that runs to its end leaves the old blocks or the new ones. -/
theorem recover_ends (hl : l.Placed) (hsize : 0 < l.size) (h : Phase l d f e) :
    decodeHead (Writes.apply e (l.recoverWrites e) l.headAddr) = [] ∧
      ((∀ a, ¬ l.Inside a → Writes.apply e (l.recoverWrites e) a = d a) ∨
        ∀ a, ¬ l.Inside a → Writes.apply e (l.recoverWrites e) a = f a) := by
  cases h with
  | old hhead hold =>
    obtain ⟨hclear, hkeep⟩ := apply_clear hsize hhead (List.prefix_refl _)
    exact ⟨hclear, Or.inl fun a ha => (hkeep a ha).trans (hold a ha)⟩
  | done hhead hnew =>
    obtain ⟨hclear, hkeep⟩ := apply_clear hsize hhead (List.prefix_refl _)
    exact ⟨hclear, Or.inr fun a ha => (hkeep a ha).trans (hnew a ha)⟩
  | committed hhead hslots hother =>
    rw [recoverWrites_committed hhead hslots]
    obtain ⟨hclear, hnew⟩ := apply_homes_clear hl hsize hother
    exact ⟨hclear, Or.inr hnew⟩

theorem boot_coherent : (Store.boot l d).Coherent where
  listed i := by simp [Store.boot, binitLru]
  unique i j _ h := by simp [Store.boot, Buf.empty] at h
  clean i h := by simp [Store.boot, Buf.empty] at h
  dirtyValid i h := by simp [Store.boot, Buf.empty] at h
  inRange i h := by simp [Store.boot, Buf.empty] at h
  free i _ := rfl

theorem boot_shows : (Store.boot l d).Shows d := by
  intro a _
  exact ⟨fun i _ h => by simp [Store.boot, Buf.empty] at h, fun _ => rfl⟩

theorem boot_clean (a : BlockAddr) : ¬ (Store.boot l d).DirtyAt a := by
  rintro ⟨i, _, h⟩
  simp [Store.boot, Buf.empty] at h

theorem Phase.header (h : Phase l d f e) :
    decodeHead (e l.headAddr) = [] ∨ decodeHead (e l.headAddr) = l.lh := by
  cases h with
  | old hhead _ | done hhead _ => exact Or.inl hhead
  | committed hhead _ _ => exact Or.inr hhead

theorem boot_recovers (hl : l.Placed) (hsize : 0 < l.size) (harea : l.start + l.size ≤ FSSIZE)
    (hhome : ∀ b ∈ l.lh, b < FSSIZE) (h : Phase l d f e) :
    ∃ t, recoverFromLog (Store.boot l e) = (.ok ⟨⟩, t) ∧
      t.disk = Writes.apply e (l.recoverWrites e) ∧
      t.issued = l.recoverWrites e := by
  have hmem : ∀ b ∈ decodeHead (e l.headAddr), b ∈ l.lh := by
    intro b hb
    rcases h.header with hh | hh
    · simp [hh] at hb
    · simpa [hh] using hb
  have hplaced : ({ (Store.boot l e).log with lh := decodeHead (e l.headAddr) } : Log).Placed := by
    refine ⟨hl.dev, ?_, fun b hb => hl.outside b (hmem b hb), ?_⟩
    · rcases h.header with hh | hh
      · simp [hh]
      · simpa [hh] using hl.nodup
    · rcases h.header with hh | hh
      · simp [hh]
      · simpa [hh, Store.boot] using hl.fits
  have hroom : (Store.boot l e).Room
    { (Store.boot l e).log with lh := decodeHead (e l.headAddr) } := by
    refine ⟨fun _ => rfl, ?_, fun b hb => hhome b (hmem b hb), Or.inl boot_clean⟩
    have hlen : (decodeHead (e l.headAddr)).length < l.size := by
      rcases h.header with hh | hh
      · simpa [hh] using hsize
      · by_cases hnil : l.lh = []
        · simpa [hh, hnil] using hsize
        · simpa [hh] using hl.fits hnil
    change l.start + (decodeHead (e l.headAddr)).length < FSSIZE
    omega
  have hwp := recoverFromLog_after boot_coherent boot_shows hplaced
  unfold Prog.wp at hwp
  split at hwp
  next t hrun => exact ⟨t, hrun, hwp.disk, hwp.issued⟩
  next => exact absurd hroom hwp.2

theorem boot_issued (hl : l.Placed) (hsize : 0 < l.size) (harea : l.start + l.size ≤ FSSIZE)
    (hhome : ∀ b ∈ l.lh, b < FSSIZE) (h : Phase l d f e) :
    issuedBy recoverFromLog (Store.boot l e) = l.recoverWrites e := by
  obtain ⟨t, hrun, _, hissued⟩ := boot_recovers hl hsize harea hhome h
  rw [issuedBy, hrun]
  exact hissued

theorem survives_phase {c : Disk} (hl : l.Placed) (hsize : 0 < l.size)
    (harea : l.start + l.size ≤ FSSIZE) (hhome : ∀ b ∈ l.lh, b < FSSIZE) (h : Phase l d f c)
    (hs : Survives l c e) : Phase l d f e := by
  induction hs with
  | crash => exact h
  | again k _ ih =>
    rw [boot_issued hl hsize harea hhome ih]
    exact recover_phase hl hsize ih (List.take_prefix k _)

end

theorem Store.Logging.placed {s u : Store} {g : List (BlockAddr × DiskBlock)} (hs : s.Ready)
    (h : s.Logging u g)
    (hout : ∀ b ∈ u.log.lh, ¬ u.log.Inside (u.log.homeAddr b)) : u.log.Placed := by
  refine ⟨by rw [h.dev]; exact hs.dev, h.nodup, fun b hb => ?_, h.short.2⟩
  by_contra hin
  exact hout b hb ⟨rfl, by simp only [Log.homeAddr]; omega, by simp only [Log.homeAddr]; omega⟩

theorem commit_issued {u : Store} {f : Disk} (hu : u.Coherent) (hf : u.Shows f)
    (hl : u.log.Placed) :
    issuedBy commit u <+: u.log.commitWrites f := by
  have hwp := commit_after hu hf hl
  unfold Prog.wp at hwp
  unfold issuedBy
  split at hwp
  next t hrun =>
    rw [hrun, hwp.issued, List.drop_left]
  next t hrun =>
    obtain ⟨⟨vs, hvs, hissued⟩, _⟩ := hwp
    rw [hrun, hissued, List.drop_left]
    exact hvs

/-- Crash atomicity: wherever commit stops, and however often recovery is stopped and started
again, the recovery that ends leaves an empty header, the logged blocks all old or all as last
logged, and every other block outside the log as it was. -/
theorem crash_recovery_atomic {s u : Store} {ops : List TransOp} {e : Disk} {k : Nat} (hs : s.Ready)
    (hrun : (forM ops transStep : Bio Unit) s = (.ok ⟨⟩, u))
    (hout : ∀ b ∈ u.log.lh, ¬ u.log.Inside (u.log.homeAddr b))
    (hcrash : Survives u.log (Writes.apply u.disk ((issuedBy commit u).take k)) e) :
    ∃ t, recoverFromLog (Store.boot u.log e) = (.ok ⟨⟩, t) ∧
      decodeHead (t.disk u.log.headAddr) = [] ∧
      ((∀ b ∈ u.log.lh, t.disk (u.log.homeAddr b) = s.disk (u.log.homeAddr b)) ∨
        ∀ b ∈ u.log.lh, t.disk (u.log.homeAddr b) =
          Writes.apply s.disk (u.given.drop s.given.length) (u.log.homeAddr b)) ∧
      ∀ a, ¬ u.log.Inside a → ¬ u.log.Home a → t.disk a = s.disk a := by
  have hwp := transRun_logging ops hs
  rw [Prog.wp_ok hrun] at hwp
  obtain ⟨g, h⟩ := hwp
  have hl := h.placed hs hout
  have hsize : 0 < u.log.size := by
    rw [h.size]
    exact hs.area.1
  have harea : u.log.start + u.log.size ≤ FSSIZE := by
    rw [h.start, h.size]
    exact hs.area.2
  have hhead : decodeHead (s.disk u.log.headAddr) = [] := by
    rw [Log.headAddr, h.dev, h.start]
    exact hs.header
  have hf : ∀ a, ¬ u.log.Home a → Writes.apply s.disk g a = s.disk a := fun a ha =>
    Writes.apply_of_notMem fun hin => ha ((h.logged a).mp hin)
  have hlt : ∀ b ∈ u.log.lh, b < 2 ^ 32 := fun b hb => Nat.lt_trans (h.inside b hb) (by decide)
  have hprefix := (List.take_prefix k _).trans (commit_issued h.coherent h.shown hl)
  have hphase := commit_phase hl hsize h.short.1 hlt hhead hf hprefix
  rw [h.disk] at hcrash
  have hend := survives_phase hl hsize harea h.inside hphase hcrash
  obtain ⟨t, hrec, hdisk, _⟩ := boot_recovers hl hsize harea h.inside hend
  obtain ⟨hclear, hall⟩ := recover_ends hl hsize hend
  have hgiven : u.given.drop s.given.length = g := by rw [h.given, List.drop_left]
  rw [hgiven]
  rw [← hdisk] at hclear hall
  refine ⟨t, hrec, hclear, hall.imp (fun hold b hb => hold _ (hout b hb))
    (fun hnew b hb => hnew _ (hout b hb)), ?_⟩
  intro a hin hhome
  rcases hall with hold | hnew
  · exact hold a hin
  · rw [hnew a hin, hf a hhome]

def mkfsLog : Log := ⟨2, 30, ROOTDEV, 1, false, []⟩

/-- A file system just started, with one operation begun. -/
def startedStore : Store := { Store.boot mkfsLog (fun _ _ => 0) with log := mkfsLog }

theorem startedStore_ready : startedStore.Ready where
  coherent := { boot_coherent (l := mkfsLog) with }
  shown := boot_shows (l := mkfsLog)
  clean := boot_clean (l := mkfsLog) (d := fun _ _ => 0)
  dev := by decide
  area := by decide
  empty := rfl
  header := by decide
  held i h := by simp [startedStore, Store.boot, Buf.empty] at h

/-- Block 100 is logged twice. -/
def loggedTwice : List TransOp :=
  [.bread 100, .logWrite 0 (fun _ => 1), .logWrite 0 (fun _ => 2), .brelse 0]

theorem crash_recovery_atomic_logged_twice :
    ∃ u t, (forM loggedTwice transStep : Bio Unit) startedStore = (.ok ⟨⟩, u) ∧ u.log.lh = [100] ∧
      recoverFromLog (Store.boot u.log (Writes.apply u.disk ((issuedBy commit u).take 2))) = (.ok ⟨⟩, t) ∧
      ∀ a, ¬ u.log.Inside a → ¬ u.log.Home a → t.disk a = startedStore.disk a := by
  have hok : ((forM loggedTwice transStep : Bio Unit) startedStore).1 = .ok ⟨⟩ := rfl
  have hlh : ((forM loggedTwice transStep : Bio Unit) startedStore).2.log =
    { mkfsLog with lh := [100] } := rfl
  generalize hr : ((forM loggedTwice transStep : Bio Unit) startedStore) = r at *
  obtain ⟨x, u⟩ := r
  simp only at hok hlh
  subst hok
  have hout : ∀ b ∈ u.log.lh, ¬ u.log.Inside (u.log.homeAddr b) := by
    rw [hlh]
    simp [Log.Inside, Log.homeAddr, mkfsLog]
  obtain ⟨t, hrec, _, _, hother⟩ := crash_recovery_atomic startedStore_ready hr hout (k := 2) .crash
  exact ⟨u, t, rfl, by rw [hlh], hrec, hother⟩

end Xv6
