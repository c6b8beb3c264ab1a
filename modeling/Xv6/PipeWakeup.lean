import Xv6.Pipe

namespace Xv6

open Bytes

/-- There is reason to sleep on the channel. -/
def PipeBuf.Calm (b : PipeBuf) : PipeChan → Prop
  | .nread => b.empty ∧ b.writeopen = true
  | .nwrite => b.full ∧ b.readopen = true

instance (b : PipeBuf) (c : PipeChan) : Decidable (b.Calm c) := by
  cases c <;> unfold PipeBuf.Calm <;> infer_instance

variable {P : Type} {s u : PipeSys P} {p q : P} {c : PipeChan}

/-- While p->lock is free, whoever sleeps has reason to. -/
def PipeSys.NoLostWakeup (s : PipeSys P) : Prop :=
  s.lock = none → ∀ q c, s.asleep q = some c → s.pipe.Calm c

/-- In sleep with ptable.lock, not yet SLEEPING. -/
def PipePc.doze : PipePc → Option PipeChan
  | .writeDoze .. => some .nwrite
  | .readDoze _ => some .nread
  | _ => none

def PipePc.rest : PipePc → Option PipeChan
  | .writeAsleep .. => some .nwrite
  | .readAsleep _ => some .nread
  | _ => none

/-- The process has seen reason to sleep and still holds p->lock. -/
def PipePc.drowsy : PipePc → Option PipeChan
  | .writeWake .. | .writeSleep .. => some .nwrite
  | .readSleep _ => some .nread
  | _ => none

/-- The process will wake the sleepers of the channel before it lets go of p->lock. -/
def PipePc.Owes : PipePc → PipeChan → Prop
  | .writeLoop _ _ start i, .nread => start < i
  | .writeWake .., .nread | .writeDone, .nread | .closeWake true, .nread => True
  | .readCopy _ i, .nwrite => 0 < i
  | .readWake .., .nwrite | .closeWake false, .nwrite => True
  | _, _ => False

def PipePc.closesRead : PipePc → Bool
  | .closeAcquire false | .closeSet false => true
  | _ => false

def PipePc.Sane : PipePc → Prop
  | .writeLoop _ _ start i => start ≤ i
  | _ => True

def PipeSys.Waits (s : PipeSys P) (q : P) (c : PipeChan) : Prop :=
  s.asleep q = some c ∨ (s.pc q).doze = some c

instance : Decidable (s.Waits q c) := inferInstanceAs (Decidable (_ ∨ _))

/-- A killed writer that finds the pipe full, with its read end open, has stored nothing since
it took the lock, or nobody waits for data. -/
def PipeSys.CarefulAt (s : PipeSys P) (p : P) : PipePc → Prop
  | .writeLoop _ n start i =>
    (i : Int) < n → s.pipe.full → s.pipe.readopen = true → s.killed p = true →
      start = i ∨ ∀ q, ¬ s.Waits q .nread
  | _ => True

instance [Fintype P] (d : PipePc) : Decidable (s.CarefulAt p d) := by
  cases d <;> unfold PipeSys.CarefulAt <;> infer_instance

def PipeSys.Careful (s : PipeSys P) : PipeEvent P → Prop
  | .step p => s.CarefulAt p (s.pc p)
  | _ => True

instance [Fintype P] (e : PipeEvent P) : Decidable (s.Careful e) := by
  cases e <;> unfold PipeSys.Careful <;> infer_instance

structure PipeSys.Attentive (s : PipeSys P) : Prop where
  holder : s.Holder
  dozer : ∀ q, (s.pc q).doze ≠ none → s.ptable = some q
  sleeper : ∀ q c, s.asleep q = some c → (s.pc q).rest = some c
  reader : ∀ q, (s.pc q).isRead = true → s.readEnd = true
  closer : ∀ q, (s.pc q).closesRead = true → s.readEnd = false
  readEnd : s.readEnd = true → s.pipe.readopen = true
  sane : ∀ q, (s.pc q).Sane
  drowsy : ∀ q c, (s.pc q).drowsy = some c → s.pipe.Calm c
  owed : ∀ q c, s.Waits q c → s.pipe.Calm c ∨ ∃ r, (s.pc r).Owes c

theorem PipePc.Owes.holds {d : PipePc} (h : d.Owes c) : d.holds = true := by
  cases d <;> cases c <;> first | rfl | exact absurd h id

theorem PipePc.drowsy_holds {d : PipePc} (h : d.drowsy = some c) : d.holds = true := by
  cases d <;> first | rfl | simp [PipePc.drowsy] at h

theorem PipeSys.Attentive.noLostWakeup (hs : s.Attentive) : s.NoLostWakeup := by
  intro hfree q c hq
  rcases hs.owed q c (Or.inl hq) with hcalm | ⟨r, hr⟩
  · exact hcalm
  · simp [hs.holder r hr.holds] at hfree

theorem PipeSys.Attentive.readopen (hs : s.Attentive) (h : s.Waits q .nread) :
    s.pipe.readopen = true := by
  apply hs.readEnd
  apply hs.reader q
  rcases h with h | h
  · have hrest := hs.sleeper q _ h
    cases hpc : s.pc q <;> simp [hpc, PipePc.rest] at hrest
    rfl
  · cases hpc : s.pc q <;> simp [hpc, PipePc.doze] at h
    rfl

theorem PipeSys.wakeup_asleep {d : PipeChan} (h : (s.wakeup d).asleep q = some c) :
    s.asleep q = some c ∧ c ≠ d := by
  simp only [PipeSys.wakeup] at h
  split at h
  · simp at h
  next hne => exact ⟨h, fun hcd => hne (by rw [h, hcd])⟩

variable [DecidableEq P]

theorem PipeSys.Move.ptable_cases (h : s.Move p u) :
    (u.ptable = s.ptable ∧ (u.pc p).doze = (s.pc p).doze) ∨
      (s.ptable = none ∧ u.ptable = some p) ∨ ((s.pc p).doze ≠ none ∧ (u.pc p).doze = none) := by
  cases h with
  | writeSleep hpc hp | readSleep hpc hp => exact Or.inr (Or.inl ⟨hp, rfl⟩)
  | writeDoze hpc | readDoze hpc => exact Or.inr (Or.inr (by simp [hpc, PipePc.doze]))
  | writeAcquire hpc | giveUp hpc | block hpc | store hpc | written hpc | writeWake hpc | writeResume hpc
    | writeDone hpc | readAcquire hpc | readKilled hpc | readBlock hpc | readGo hpc | readResume hpc | deliver hpc
    | copied hpc | readWake hpc | readRelease hpc | closeAcquire hpc | closeSet hpc | closeWake hpc | release hpc =>
    exact Or.inl ⟨rfl, by simp [hpc, PipePc.doze]⟩

theorem PipeSys.Attentive.dozer_move (hs : s.Attentive) (h : s.Move p u) (q : P)
    (hq : (u.pc q).doze ≠ none) :
    u.ptable = some q := by
  by_cases hqp : q = p
  · subst hqp
    rcases h.ptable_cases with ⟨ht, hsame⟩ | ⟨_, ht⟩ | ⟨_, hnot⟩
    · rw [ht]
      exact hs.dozer q (by rw [← hsame]; exact hq)
    · exact ht
    · exact absurd hnot hq
  · rw [h.pc_other hqp] at hq
    have hold := hs.dozer q hq
    rcases h.ptable_cases with ⟨ht, _⟩ | ⟨hfree, _⟩ | ⟨hp, _⟩
    · rw [ht, hold]
    · simp [hold] at hfree
    · exact absurd (Option.some.inj (hold.symm.trans (hs.dozer p hp))) hqp

theorem PipeSys.Move.asleep_other (h : s.Move p u) (hq : q ≠ p) (hu : u.asleep q = some c) :
    s.asleep q = some c := by
  cases h with
  | writeDoze | readDoze => simpa [PipeSys.goto, hq] using hu
  | writeWake | writeDone | readWake | closeWake => exact (PipeSys.wakeup_asleep hu).1
  | _ => exact hu

theorem PipeSys.Attentive.sleeper_move (hs : s.Attentive) (h : s.Move p u) (q : P) (c : PipeChan)
    (hq : u.asleep q = some c) : (u.pc q).rest = some c := by
  by_cases hqp : q = p
  · subst hqp
    have hnot : ∀ {d : PipePc}, s.pc q = d → d.rest = none → s.asleep q ≠ some c := by
      intro d hd hrest ha
      have hr := hs.sleeper q c ha
      simp [hd, hrest] at hr
    cases h with
    | writeDoze hpc | readDoze hpc =>
      simp only [PipeSys.goto, Function.update_self, Option.some.injEq] at hq
      simp [PipePc.rest, hq]
    | writeWake hpc | writeDone hpc | readWake hpc | closeWake hpc =>
      exact absurd (PipeSys.wakeup_asleep hq).1 (hnot hpc rfl)
    | writeResume hpc hw | readResume hpc hw => exact absurd hq (by simp [PipeSys.goto, hw])
    | writeAcquire hpc | giveUp hpc | block hpc | store hpc | written hpc | writeSleep hpc | readAcquire hpc
      | readKilled hpc | readBlock hpc | readGo hpc | readSleep hpc | deliver hpc | copied hpc | readRelease hpc
      | closeAcquire hpc | closeSet hpc | release hpc => exact absurd hq (hnot hpc rfl)
  · rw [h.pc_other hqp]
    exact hs.sleeper q c (h.asleep_other hqp hq)

theorem PipeSys.Move.kind (h : s.Move p u) (hsane : (s.pc p).Sane) :
    u.readEnd = s.readEnd ∧ ((u.pc p).isRead = true → (s.pc p).isRead = true) ∧
      ((u.pc p).closesRead = true → (s.pc p).closesRead = true) ∧ (u.pc p).Sane ∧
      (u.pipe.readopen = s.pipe.readopen ∨ (s.pc p).closesRead = true) := by
  cases h with
  | store hpc =>
    rw [hpc] at hsane
    exact ⟨rfl, by simp [PipePc.isRead], by simp [PipePc.closesRead],
      by simpa [PipePc.Sane] using Nat.le_succ_of_le hsane, Or.inl rfl⟩
  | @closeAcquire w hpc => cases w <;> exact ⟨rfl, by simp [PipePc.isRead], by simp [PipePc.closesRead, hpc],
      by simp [PipePc.Sane], Or.inl rfl⟩
  | @closeSet w hpc =>
    cases w with
    | true => exact ⟨rfl, by simp [PipePc.isRead], by simp [PipePc.closesRead], by simp [PipePc.Sane], Or.inl rfl⟩
    | false => exact ⟨rfl, by simp [PipePc.isRead], by simp [PipePc.closesRead], by simp [PipePc.Sane],
        Or.inr (by simp [hpc, PipePc.closesRead])⟩
  | writeAcquire hpc | giveUp hpc | block hpc | written hpc | writeWake hpc | writeSleep hpc | writeDoze hpc
    | writeResume hpc | writeDone hpc | readAcquire hpc | readKilled hpc | readBlock hpc | readGo hpc | readSleep hpc
    | readDoze hpc | readResume hpc | deliver hpc | copied hpc | readWake hpc | readRelease hpc | closeWake hpc
    | release hpc =>
    exact ⟨rfl, by simp [hpc, PipePc.isRead], by simp [PipePc.closesRead], by simp [PipePc.Sane],
      Or.inl rfl⟩

theorem PipeSys.Attentive.drowsy_move (hs : s.Attentive) (h : s.Move p u) (q : P) (c : PipeChan)
    (hq : (u.pc q).drowsy = some c) : u.pipe.Calm c := by
  by_cases hqp : q = p
  · subst hqp
    have hold := hs.drowsy q
    cases h with
    | block hpc hfull hopen =>
      simp only [PipeSys.goto_pc_self, PipePc.drowsy, Option.some.injEq] at hq
      subst hq
      exact ⟨hfull, hopen⟩
    | readBlock hpc hempty hopen =>
      simp only [PipeSys.goto_pc_self, PipePc.drowsy, Option.some.injEq] at hq
      subst hq
      exact ⟨hempty, hopen⟩
    | writeWake hpc =>
      simp only [PipeSys.goto_pc_self] at hq
      exact hold c (by rw [hpc]; exact hq)
    | _ => simp [PipePc.drowsy] at hq
  · rw [h.pc_other hqp] at hq
    have hpipe : u.pipe = s.pipe := by
      rcases h.pipe_cases with he | hp
      · exact he
      · exact absurd (PipePc.drowsy_holds hq) (by simp [hs.holder.ne_of_holds hp hqp])
    rw [hpipe]
    exact hs.drowsy q c hq

/-- A process that waits after the step waited before, or has just seen reason to. -/
theorem PipeSys.Attentive.waits_before (hs : s.Attentive) (h : s.Move p u) (hq : u.Waits q c) :
    s.Waits q c ∨ u.pipe.Calm c := by
  by_cases hqp : q = p
  · subst hqp
    rcases hq with hq | hq
    · have hrest := hs.sleeper_move h q c hq
      left
      cases h with
      | writeDoze hpc | readDoze hpc =>
        simp only [PipeSys.goto, Function.update_self, Option.some.injEq] at hq
        exact Or.inr (by simp [hpc, PipePc.doze, hq])
      | _ => simp [PipePc.rest] at hrest
    · right
      have hold := hs.drowsy q c
      cases h with
      | writeSleep hpc | readSleep hpc =>
        exact hold (by rw [hpc]; simpa [PipePc.doze, PipePc.drowsy] using hq)
      | _ => simp [PipePc.doze] at hq
  · left
    rcases hq with hq | hq
    · exact Or.inl (h.asleep_other hqp hq)
    · rw [h.pc_other hqp] at hq
      exact Or.inr hq

/-- A step that takes away the reason to sleep owes a wakeup. -/
theorem PipeSys.Move.calm_or_owes (h : s.Move p u) (hsane : (s.pc p).Sane) (hc : s.pipe.Calm c) :
    u.pipe.Calm c ∨ (u.pc p).Owes c := by
  cases h with
  | store hpc hroom =>
    rw [hpc] at hsane
    cases c with
    | nread => exact Or.inr (by simpa [PipePc.Owes] using Nat.lt_succ_of_le hsane)
    | nwrite => exact absurd hc.1 hroom
  | deliver hpc hsome =>
    cases c with
    | nread => exact absurd hc.1 hsome
    | nwrite => exact Or.inr (by simp [PipePc.Owes])
  | @closeSet w hpc =>
    cases w with
    | true =>
      cases c with
      | nread => exact Or.inr (by simp [PipePc.Owes])
      | nwrite => exact Or.inl hc
    | false =>
      cases c with
      | nread => exact Or.inl hc
      | nwrite => exact Or.inr (by simp [PipePc.Owes])
  | _ => exact Or.inl hc

theorem PipeSys.Attentive.woken (hs : s.Attentive) (h : s.Move p u) (hp : u.ptable = none)
    (hu : u.asleep = (s.wakeup c).asleep) : ¬ u.Waits q c := by
  rintro (hq | hq)
  · rw [hu] at hq
    exact (PipeSys.wakeup_asleep hq).2 rfl
  · have ht := hs.dozer_move h q (by simp [hq])
    simp [hp] at ht

/-- A wakeup that is owed stays owed until it is made, a careful writer's failure included. -/
theorem PipeSys.Attentive.owes_move (hs : s.Attentive) (h : s.Move p u)
    (hcare : s.Careful (.step p)) (ho : (s.pc p).Owes c) (hq : u.Waits q c)
    (hw : s.Waits q c) : (u.pc p).Owes c := by
  have hwoken : ∀ d, u.ptable = none → u.asleep = (s.wakeup d).asleep → c = d → (u.pc p).Owes c :=
    fun d hp hu hd => absurd hq (hs.woken h hp (by rw [hu, hd]))
  cases h with
  | giveUp hpc hi hfull hwhy =>
    simp only [PipeSys.Careful, PipeSys.CarefulAt, hpc] at hcare
    cases c with
    | nread =>
      have hopen := hs.readopen hw
      have hkilled := hwhy.resolve_left (by simp [hopen])
      rcases hcare hi hfull hopen hkilled with rfl | hnone
      · simp [hpc, PipePc.Owes] at ho
      · exact absurd hw (hnone q)
    | nwrite => simp [hpc, PipePc.Owes] at ho
  | store hpc =>
    cases c with
    | nread =>
      simp only [hpc, PipePc.Owes] at ho
      simpa [PipePc.Owes] using Nat.lt_succ_of_lt ho
    | nwrite => simp [hpc, PipePc.Owes] at ho
  | block hpc | written hpc =>
    cases c with
    | nread => simp [PipePc.Owes]
    | nwrite => simp [hpc, PipePc.Owes] at ho
  | deliver hpc | copied hpc =>
    cases c with
    | nread => simp [hpc, PipePc.Owes] at ho
    | nwrite => simp [PipePc.Owes]
  | writeWake hpc hp | writeDone hpc hp =>
    refine hwoken .nread hp rfl ?_
    cases c with
    | nread => rfl
    | nwrite => simp [hpc, PipePc.Owes] at ho
  | readWake hpc hp =>
    refine hwoken .nwrite hp rfl ?_
    cases c with
    | nread => simp [hpc, PipePc.Owes] at ho
    | nwrite => rfl
  | @closeWake w hpc hp =>
    refine hwoken _ hp rfl ?_
    cases w <;> cases c <;> first | rfl | simp [hpc, PipePc.Owes] at ho
  | writeAcquire hpc | writeSleep hpc | writeDoze hpc | writeResume hpc | readAcquire hpc | readKilled hpc
    | readBlock hpc | readGo hpc | readSleep hpc | readDoze hpc | readResume hpc | readRelease hpc
    | closeAcquire hpc | closeSet hpc | release hpc => simp [hpc, PipePc.Owes] at ho

theorem PipeSys.Attentive.move (hs : s.Attentive) (h : s.Move p u) (hcare : s.Careful (.step p)) :
    u.Attentive where
  holder := hs.holder.move h
  dozer := hs.dozer_move h
  sleeper := hs.sleeper_move h
  reader q hq := by
    obtain ⟨hend, hkind, -⟩ := h.kind (hs.sane p)
    rw [hend]
    by_cases hqp : q = p
    · subst hqp
      exact hs.reader q (hkind hq)
    · exact hs.reader q (by rw [← h.pc_other hqp]; exact hq)
  closer q hq := by
    obtain ⟨hend, -, hkind, -⟩ := h.kind (hs.sane p)
    rw [hend]
    by_cases hqp : q = p
    · subst hqp
      exact hs.closer q (hkind hq)
    · exact hs.closer q (by rw [← h.pc_other hqp]; exact hq)
  readEnd hend := by
    obtain ⟨hsame, -, -, -, hopen | hclose⟩ := h.kind (hs.sane p)
    · rw [hopen]
      exact hs.readEnd (hsame ▸ hend)
    · simp [hsame, hs.closer p hclose] at hend
  sane q := by
    by_cases hqp : q = p
    · subst hqp
      exact (h.kind (hs.sane q)).2.2.2.1
    · rw [h.pc_other hqp]
      exact hs.sane q
  drowsy := hs.drowsy_move h
  owed q c hq := by
    rcases hs.waits_before h hq with hw | hcalm
    · rcases hs.owed q c hw with hcalm | ⟨r, hr⟩
      · exact (h.calm_or_owes (hs.sane p) hcalm).imp_right fun ho => ⟨p, ho⟩
      · refine Or.inr ⟨r, ?_⟩
        by_cases hrp : r = p
        · subst hrp
          exact hs.owes_move h hcare hr hq hw
        · rw [h.pc_other hrp]
          exact hr
    · exact Or.inl hcalm

theorem PipePc.eq_idle {d : PipePc} (h : d.isIdle = true) : d = .idle := by
  cases d <;> first | rfl | simp [PipePc.isIdle] at h

theorem PipePc.sane_of_not_holds {d : PipePc} (h : d.holds = false) : d.Sane := by
  cases d <;> trivial

theorem PipeSys.Attentive.enter {d : PipePc} {a b : Bool} (hs : s.Attentive)
    (hidle : (s.pc p).isIdle = true) (hhold : d.holds = false) (hdoze : d.doze = none)
    (ha : a = true → s.readEnd = true) (hread : ∀ q, (s.pc q).isRead = true → a = true)
    (hdread : d.isRead = true → a = true) (hclose : ∀ q, (s.pc q).closesRead = true → a = false)
    (hdclose : d.closesRead = true → a = false) :
    ({ s with readEnd := a, writeEnd := b }.goto p d).Attentive where
  holder q hq := by
    by_cases hqp : q = p
    · subst hqp
      simp [hhold] at hq
    · rw [PipeSys.goto_pc_other hqp] at hq
      exact hs.holder q hq
  dozer q hq := by
    by_cases hqp : q = p
    · subst hqp
      simp [hdoze] at hq
    · rw [PipeSys.goto_pc_other hqp] at hq
      exact hs.dozer q hq
  sleeper q c hq := by
    have hrest := hs.sleeper q c hq
    by_cases hqp : q = p
    · subst hqp
      simp [PipePc.eq_idle hidle, PipePc.rest] at hrest
    · rw [PipeSys.goto_pc_other hqp]
      exact hrest
  reader q hq := by
    by_cases hqp : q = p
    · subst hqp
      exact hdread (by simpa using hq)
    · rw [PipeSys.goto_pc_other hqp] at hq
      exact hread q hq
  closer q hq := by
    by_cases hqp : q = p
    · subst hqp
      exact hdclose (by simpa using hq)
    · rw [PipeSys.goto_pc_other hqp] at hq
      exact hclose q hq
  readEnd h := hs.readEnd (ha h)
  sane q := by
    by_cases hqp : q = p
    · subst hqp
      simpa using PipePc.sane_of_not_holds hhold
    · rw [PipeSys.goto_pc_other hqp]
      exact hs.sane q
  drowsy q c hq := by
    by_cases hqp : q = p
    · subst hqp
      have hh := PipePc.drowsy_holds hq
      simp [hhold] at hh
    · rw [PipeSys.goto_pc_other hqp] at hq
      exact hs.drowsy q c hq
  owed q c hq := by
    have hw : s.Waits q c := by
      by_cases hqp : q = p
      · subst hqp
        exact Or.inl (hq.resolve_right (by simp [hdoze]))
      · exact hq.imp_right fun h => by rwa [PipeSys.goto_pc_other hqp] at h
    refine (hs.owed q c hw).imp_right fun ⟨r, hr⟩ => ⟨r, ?_⟩
    have hrp : r ≠ p := by
      rintro rfl
      simp [PipePc.eq_idle hidle, PipePc.Owes] at hr
    rw [PipeSys.goto_pc_other hrp]
    exact hr

theorem PipeSys.Attentive.kill (hs : s.Attentive) :
    { s with killed := Function.update s.killed p true, asleep := Function.update s.asleep p none }.Attentive := by
  have hold : ∀ q c, Function.update s.asleep p none q = some c → s.asleep q = some c := by
    intro q c hq
    by_cases hqp : q = p
    · simp [hqp] at hq
    · simpa [hqp] using hq
  exact ⟨hs.holder, hs.dozer, fun q c hq => hs.sleeper q c (hold q c hq), hs.reader, hs.closer, hs.readEnd, hs.sane,
    hs.drowsy, fun q c hq => hs.owed q c (hq.imp_left (hold q c))⟩

theorem PipeSys.Attentive.step [Fintype P] {e : PipeEvent P} (hs : s.Attentive) (hcare : s.Careful e)
    (h : s.step e = some u) : u.Attentive := by
  cases e with
  | step p => exact hs.move (PipeSys.advance_move h) hcare
  | kill p =>
    obtain ⟨_, rfl⟩ := Runs.of_guard h
    exact hs.kill
  | write p addr n =>
    obtain ⟨hi, rfl⟩ := Runs.of_guard h
    exact hs.enter hi.1 rfl rfl id hs.reader (by simp [PipePc.isRead]) hs.closer
      (by simp [PipePc.closesRead])
  | read p n =>
    obtain ⟨hi, rfl⟩ := Runs.of_guard h
    exact hs.enter hi.1 rfl rfl id hs.reader (fun _ => hi.2) hs.closer (by simp [PipePc.closesRead])
  | close p w =>
    cases w with
    | true =>
      obtain ⟨hi, rfl⟩ := Runs.of_guard h
      exact hs.enter hi.1 rfl rfl id hs.reader (by simp [PipePc.isRead]) hs.closer
        (by simp [PipePc.closesRead])
    | false =>
      obtain ⟨hi, rfl⟩ := Runs.of_guard h
      exact hs.enter hi.1 rfl rfl (by simp) (fun q hq => by simp [hi.2.2 q] at hq) (by simp [PipePc.isRead])
        (fun _ _ => rfl) fun _ => rfl

omit [DecidableEq P] in
theorem PipeSys.init_attentive {data : Fin PIPESIZE → Byte} :
    (PipeSys.init (P := P) data).Attentive where
  holder q hq := by simp [PipeSys.init, PipePc.holds] at hq
  dozer q hq := by simp [PipeSys.init, PipePc.doze] at hq
  sleeper q c hq := by simp [PipeSys.init] at hq
  reader q hq := rfl
  closer q hq := by simp [PipeSys.init, PipePc.closesRead] at hq
  readEnd _ := rfl
  sane q := trivial
  drowsy q c hq := by simp [PipeSys.init, PipePc.drowsy] at hq
  owed q c hq := by simp [PipeSys.Waits, PipeSys.init, PipePc.doze] at hq

/-- In every interleaving of pipewrite, piperead, pipeclose and kill in which a killed writer that
has stored bytes gives up only when nobody waits for them, no process sleeps without reason. -/
theorem no_lost_wakeup_while_careful [Fintype P] {data : Fin PIPESIZE → Byte}
    {es : List (PipeEvent P)}
    (hm : Runs.Meets PipeSys.step (fun s e => s.Careful e) (PipeSys.init data) es)
    (h : Runs.exec PipeSys.step (PipeSys.init data) es = some s) : s.NoLostWakeup := by
  have hs := Runs.invariant_of_meets (I := PipeSys.Attentive) PipeSys.init_attentive
    (fun _ _ _ hs hcare hstep => hs.step hcare hstep) hm h
  exact hs.noLostWakeup

/-- A reader falls asleep on the empty pipe and a writer of one byte wakes it. -/
def wakeupRun : List (PipeEvent Bool) :=
  [.read true 1, .step true, .step true, .step true, .step true, .write false (fun _ => 7) 1,
    .step false, .step false, .step false, .step false, .step false]

theorem no_lost_wakeup_while_careful_one_byte :
    ∃ s, Runs.exec PipeSys.step (PipeSys.init fun _ => 0) wakeupRun = some s ∧ s.lock = none ∧
      ¬ s.pipe.empty ∧
      s.NoLostWakeup := by
  have hrun : (Runs.exec PipeSys.step (PipeSys.init fun _ => 0) wakeupRun).map
      (fun s => (s.lock, decide s.pipe.empty)) = some (none, false) := by decide +kernel
  obtain ⟨s, hs, hout⟩ := Option.map_eq_some_iff.1 hrun
  simp only [Prod.mk.injEq, decide_eq_false_iff_not] at hout
  exact ⟨s, hs, hout.1, hout.2,
    no_lost_wakeup_while_careful (Runs.meets_of_check (by decide +kernel)) hs⟩

/-- The reader sleeps as before; the writer of 513 bytes is killed once it has the lock, fills the
pipe and returns -1 without a wakeup. -/
def strandedRun : List (PipeEvent Bool) :=
  [.read true 1, .step true, .step true, .step true, .step true, .write false (fun _ => 7) 513,
    .step false, .kill false] ++ List.replicate 513 (.step false)

theorem reader_stranded_by_killed_writer :
    (Runs.exec PipeSys.step (PipeSys.init fun _ => 0) strandedRun).map
      (fun s => (s.lock, s.asleep true, decide s.pipe.empty, decide s.pipe.full)) =
      some (none, some .nread, false, true) := by decide +kernel

end Xv6
