import Mathlib.Logic.Function.Basic

/-- The life of a table entry: free, claimed for a process to be, alive, or dead and not yet reaped.
-/
inductive Life
  | free | embryo | alive | zombie
  deriving DecidableEq, Repr

/-- Processes in a table of entries, with the entry each has claimed for a child. -/
@[ext] structure Family (ι : Type) where
  life : ι → Life
  pid : ι → Nat
  parent : ι → Option ι
  child : ι → Option ι
  nextpid : Nat

namespace Family

variable {ι : Type}

inductive Event (ι : Type)
  | stay
  | claim (p np : ι)
  | abandon (p np : ι)
  | start (p np : ι)
  | exit (p : ι)
  | reap (p q : ι)

/-- The root of the family never dies. -/
def Enabled (root : ι) (f : Family ι) : Event ι → Prop
  | .stay => True
  | .claim p np => f.life p = .alive ∧ f.child p = none ∧ f.life np = .free
  | .abandon p np | .start p np => f.child p = some np
  | .exit p => f.life p = .alive ∧ f.child p = none ∧ p ≠ root
  | .reap p q => f.life p = .alive ∧ f.child p = none ∧ f.parent q = some p ∧ f.life q = .zombie

variable [DecidableEq ι]

/-- The children of a process that exits go to the root. -/
def apply (root : ι) (f : Family ι) : Event ι → Family ι
  | .stay => f
  | .claim p np =>
    { f with
      life := Function.update f.life np .embryo
      pid := Function.update f.pid np f.nextpid
      child := Function.update f.child p (some np)
      nextpid := f.nextpid + 1 }
  | .abandon p np =>
    { f with life := Function.update f.life np .free, child := Function.update f.child p none }
  | .start p np =>
    { f with
      life := Function.update f.life np .alive
      parent := Function.update f.parent np (some p)
      child := Function.update f.child p none }
  | .exit p =>
    { f with
      life := Function.update f.life p .zombie
      parent := fun q => if f.parent q = some p then some root else f.parent q }
  | .reap _ q =>
    { f with
      life := Function.update f.life q .free
      pid := Function.update f.pid q 0
      parent := Function.update f.parent q none }

/-- What holds at all times. Entries that are given up keep their pid. -/
structure Sound (root : ι) (f : Family ι) : Prop where
  pidPos : ∀ q, f.life q ≠ .free → 0 < f.pid q
  pidLt : ∀ q, f.pid q < f.nextpid
  pidInj : ∀ q r, f.pid q = f.pid r → f.pid q ≠ 0 → q = r
  childLife : ∀ p np, f.child p = some np → f.life np = .embryo ∧ f.life p = .alive
  childInj : ∀ p q np, f.child p = some np → f.child q = some np → p = q
  rootAlive : f.life root = .alive
  rootParent : f.parent root = none
  parentAlive : ∀ q p, f.parent q = some p → f.life p = .alive
  parentOther : ∀ q, f.parent q ≠ some q
  hasParent : ∀ q, q ≠ root → f.life q = .alive ∨ f.life q = .zombie → ∃ p, f.parent q = some p
  noParent : ∀ q, f.life q = .free ∨ f.life q = .embryo → f.parent q = none

variable {root p q np : ι} {f : Family ι}

theorem Sound.claim (hf : f.Sound root) (h : f.Enabled root (.claim p np)) :
    (f.apply root (.claim p np)).Sound root := by
  obtain ⟨hp, hc, hn⟩ := h
  have hnp : ∀ {a : ι}, f.life a ≠ .free → a ≠ np := by
    intro a ha he
    exact ha (he ▸ hn)
  have hfresh : ∀ a, f.pid a ≠ f.nextpid := fun a => Nat.ne_of_lt (hf.pidLt a)
  have hpos : 0 < f.nextpid := Nat.lt_of_le_of_lt (Nat.zero_le _) (hf.pidLt p)
  constructor
  all_goals simp only [apply, Function.update_apply]
  · intro a ha
    have hpos := hf.pidPos a
    grind
  · intro a
    have hlt := hf.pidLt a
    grind
  · grind [hf.pidInj]
  · grind [hf.childLife]
  · intro a b c ha hb
    have hne : ∀ x, f.child x ≠ some np := by
      intro x hx
      exact absurd (hf.childLife x np hx).1 (by simp [hn])
    have hinj := hf.childInj a b c
    grind
  · grind [hf.rootAlive]
  · exact hf.rootParent
  · grind [hf.parentAlive]
  · grind [hf.parentOther]
  · grind [hf.hasParent]
  · grind [hf.noParent]

theorem Sound.abandon (hf : f.Sound root) (h : f.Enabled root (.abandon p np)) :
    (f.apply root (.abandon p np)).Sound root := by
  have hlife := hf.childLife p np h
  have hother : ∀ a, f.child a = some np → a = p := fun a ha => hf.childInj a p np ha h
  constructor
  all_goals simp only [apply, Function.update_apply]
  · intro a ha
    have hpos := hf.pidPos a
    grind
  · exact hf.pidLt
  · exact hf.pidInj
  · grind [hf.childLife]
  · grind [hf.childInj]
  · grind [hf.rootAlive]
  · exact hf.rootParent
  · grind [hf.parentAlive]
  · grind [hf.parentOther]
  · grind [hf.hasParent]
  · grind [hf.noParent]

theorem Sound.start (hf : f.Sound root) (h : f.Enabled root (.start p np)) :
    (f.apply root (.start p np)).Sound root := by
  have hlife := hf.childLife p np h
  have hother : ∀ a, f.child a = some np → a = p := fun a ha => hf.childInj a p np ha h
  constructor
  all_goals simp only [apply, Function.update_apply]
  · intro a ha
    have hpos := hf.pidPos a
    grind
  · exact hf.pidLt
  · exact hf.pidInj
  · grind [hf.childLife]
  · grind [hf.childInj]
  · grind [hf.rootAlive]
  · grind [hf.rootParent, hf.rootAlive]
  · grind [hf.parentAlive]
  · grind [hf.parentOther]
  · intro a ha hlive
    by_cases hnp : a = np
    · exact ⟨p, by simp [hnp]⟩
    · simpa [hnp] using hf.hasParent a ha (by simpa [hnp] using hlive)
  · grind [hf.noParent]

theorem Sound.exit (hf : f.Sound root) (h : f.Enabled root (.exit p)) :
    (f.apply root (.exit p)).Sound root := by
  obtain ⟨hp, hc, hroot⟩ := h
  constructor
  all_goals simp only [apply, Function.update_apply]
  · intro a ha
    have hpos := hf.pidPos a
    grind
  · exact hf.pidLt
  · exact hf.pidInj
  · grind [hf.childLife]
  · exact hf.childInj
  · grind [hf.rootAlive]
  · grind [hf.rootParent]
  · grind [hf.parentAlive, hf.rootAlive]
  · grind [hf.parentOther, hf.rootParent]
  · grind [hf.hasParent]
  · grind [hf.noParent]

theorem Sound.reap (hf : f.Sound root) (h : f.Enabled root (.reap p q)) :
    (f.apply root (.reap p q)).Sound root := by
  obtain ⟨hp, hc, hparent, hq⟩ := h
  constructor
  all_goals simp only [apply, Function.update_apply]
  · intro a ha
    have hpos := hf.pidPos a
    grind
  · intro a
    have hlt := hf.pidLt a
    grind
  · grind [hf.pidInj]
  · grind [hf.childLife]
  · exact hf.childInj
  · grind [hf.rootAlive]
  · grind [hf.rootParent]
  · grind [hf.parentAlive]
  · grind [hf.parentOther]
  · grind [hf.hasParent]
  · grind [hf.noParent]

theorem Sound.step (hf : f.Sound root) {e : Event ι} (h : f.Enabled root e) :
    (f.apply root e).Sound root := by
  cases e with
  | stay => exact hf
  | claim p np => exact hf.claim h
  | abandon p np => exact hf.abandon h
  | start p np => exact hf.start h
  | exit p => exact hf.exit h
  | reap p q => exact hf.reap h

theorem Sound.alive_stays (hf : f.Sound root) {e : Event ι} (h : f.Enabled root e)
    (hp : f.life p = .alive) (hexit : e ≠ .exit p) : (f.apply root e).life p = .alive ∧
      (f.apply root e).pid p = f.pid p := by
  cases e with
  | stay => exact ⟨hp, rfl⟩
  | claim a np =>
    have hne : p ≠ np := fun he => by simpa [← he, hp] using h.2.2
    simp [apply, hne, hp]
  | abandon a np | start a np =>
    have hne : p ≠ np := fun he => by simpa [← he, hp] using (hf.childLife a np h).1
    simp [apply, hne, hp]
  | exit a =>
    have hne : p ≠ a := fun he => hexit (by rw [he])
    simp [apply, hne, hp]
  | reap a q =>
    have hne : p ≠ q := fun he => by simpa [← he, hp] using h.2.2.2
    simp [apply, hne, hp]

theorem nextpid_le (root : ι) (f : Family ι) (e : Event ι) :
    f.nextpid ≤ (f.apply root e).nextpid := by
  cases e with
  | claim p np => exact Nat.le_succ _
  | _ => exact Nat.le_refl _

theorem alive_before {e : Event ι} (hp : (f.apply root e).life p = .alive) :
    f.life p = .alive ∨ ∃ a, e = .start a p := by
  cases e with
  | stay => exact Or.inl hp
  | claim a np | abandon a np | exit np | reap a np =>
    by_cases hnp : p = np
    · simp [apply, hnp] at hp
    · exact Or.inl (by simpa [apply, hnp] using hp)
  | start a np =>
    by_cases hnp : p = np
    · exact Or.inr ⟨a, by rw [hnp]⟩
    · exact Or.inl (by simpa [apply, hnp] using hp)

/-- The pids of those who exited and of those who were reaped, each of these with the pid of the
reaper, and who started each process. -/
structure Ledger where
  exited : List Nat
  reaped : List (Nat × Nat)
  starter : Nat → Nat

def Ledger.record (l : Ledger) (f : Family ι) : Event ι → Ledger
  | .exit p => { l with exited := l.exited ++ [f.pid p] }
  | .reap p q => { l with reaped := l.reaped ++ [(f.pid q, f.pid p)] }
  | .start p np => { l with starter := Function.update l.starter (f.pid np) (f.pid p) }
  | _ => l

def Ledger.reapedPids (l : Ledger) : List Nat := l.reaped.map Prod.fst

/-- The dead are the zombies and the reaped; the reaper is the starter, or the root once the
starter is dead. -/
structure Ledger.Exact (root : ι) (f : Family ι) (l : Ledger) : Prop where
  exitedLt : ∀ c ∈ l.exited, c < f.nextpid
  exitedOnce : l.exited.Nodup
  reapedOnce : l.reapedPids.Nodup
  dead : ∀ c, c ∈ l.exited ↔ (∃ q, f.life q = .zombie ∧ f.pid q = c) ∨ c ∈ l.reapedPids
  unreaped : ∀ q, f.life q ≠ .free → f.pid q ∉ l.reapedPids
  unexited : ∀ q, f.life q = .alive ∨ f.life q = .embryo → f.pid q ∉ l.exited
  kin : ∀ q p, f.parent q = some p →
    f.pid p = l.starter (f.pid q) ∨ p = root ∧ l.starter (f.pid q) ∈ l.exited
  reapers : ∀ c w, (c, w) ∈ l.reaped → w = l.starter c ∨ w = f.pid root ∧ l.starter c ∈ l.exited

variable {l : Ledger}

omit [DecidableEq ι] in
theorem Ledger.Exact.reaped_exited (hl : l.Exact root f) {c : Nat} (h : c ∈ l.reapedPids) :
    c ∈ l.exited :=
  (hl.dead c).mpr (Or.inr h)

theorem Ledger.Exact.claim (hl : l.Exact root f) (hf : f.Sound root)
    (h : f.Enabled root (.claim p np)) :
    (l.record f (.claim p np)).Exact root (f.apply root (.claim p np)) := by
  obtain ⟨hp, hc, hn⟩ := h
  have hroot : root ≠ np := fun he => by simp [← he, hf.rootAlive] at hn
  have hnoparent : f.parent np = none := hf.noParent np (Or.inl hn)
  have hparent : ∀ a, f.parent a ≠ some np := fun a ha => by simpa [hn] using hf.parentAlive a np ha
  have hfresh : f.nextpid ∉ l.exited := fun hm => Nat.lt_irrefl _ (hl.exitedLt _ hm)
  refine ⟨fun c hc => Nat.lt_succ_of_lt (hl.exitedLt c hc), hl.exitedOnce, hl.reapedOnce, ?_, ?_,
    ?_, ?_, ?_⟩
  · intro c
    refine (hl.dead c).trans (or_congr_left (exists_congr fun q => ?_))
    by_cases hq : q = np
    · simp [apply, hq, hn]
    · simp [apply, hq]
  · intro q hq
    by_cases hqn : q = np
    · subst hqn
      simpa [apply, record] using fun hm => hfresh (hl.reaped_exited hm)
    · simp only [apply, Function.update_of_ne hqn] at hq ⊢
      exact hl.unreaped q hq
  · intro q hq
    by_cases hqn : q = np
    · subst hqn
      simpa [apply, record] using hfresh
    · simp only [apply, Function.update_of_ne hqn] at hq ⊢
      exact hl.unexited q hq
  · intro q a ha
    have hqn : q ≠ np := fun he => by simp [apply, he, hnoparent] at ha
    have han : a ≠ np := fun he => hparent q (he ▸ ha)
    simpa [apply, hqn, han, record] using hl.kin q a ha
  · intro c w hw
    simpa [apply, hroot, record] using hl.reapers c w hw

theorem Ledger.Exact.abandon (hl : l.Exact root f) (hf : f.Sound root)
    (h : f.Enabled root (.abandon p np)) :
    (l.record f (.abandon p np)).Exact root (f.apply root (.abandon p np)) := by
  have hn := (hf.childLife p np h).1
  refine ⟨hl.exitedLt, hl.exitedOnce, hl.reapedOnce, ?_, ?_, ?_, hl.kin, hl.reapers⟩
  · intro c
    refine (hl.dead c).trans (or_congr_left (exists_congr fun q => ?_))
    by_cases hq : q = np
    · simp [apply, hq, hn]
    · simp [apply, hq]
  · intro q hq
    by_cases hqn : q = np
    · simp [apply, hqn] at hq
    · simp only [apply, Function.update_of_ne hqn] at hq
      exact hl.unreaped q hq
  · intro q hq
    by_cases hqn : q = np
    · simp [apply, hqn] at hq
    · simp only [apply, Function.update_of_ne hqn] at hq
      exact hl.unexited q hq

theorem Ledger.Exact.start (hl : l.Exact root f) (hf : f.Sound root)
    (h : f.Enabled root (.start p np)) :
    (l.record f (.start p np)).Exact root (f.apply root (.start p np)) := by
  have hn := (hf.childLife p np h).1
  have hpos : f.pid np ≠ 0 := Nat.ne_of_gt (hf.pidPos np (by simp [hn]))
  have hother : ∀ q, q ≠ np → f.pid q ≠ f.pid np :=
    fun q hq he => hq (hf.pidInj q np he (by rw [he]; exact hpos))
  have hnew : f.pid np ∉ l.reapedPids := hl.unreaped np (by simp [hn])
  refine ⟨hl.exitedLt, hl.exitedOnce, hl.reapedOnce, ?_, ?_, ?_, ?_, ?_⟩
  · intro c
    refine (hl.dead c).trans (or_congr_left (exists_congr fun q => ?_))
    by_cases hq : q = np
    · simp [apply, hq, hn]
    · simp [apply, hq]
  · intro q hq
    by_cases hqn : q = np
    · rw [hqn]
      exact hnew
    · simp only [apply, Function.update_of_ne hqn] at hq
      exact hl.unreaped q hq
  · intro q hq
    by_cases hqn : q = np
    · rw [hqn]
      exact hl.unexited np (Or.inr hn)
    · simp only [apply, Function.update_of_ne hqn] at hq
      exact hl.unexited q hq
  · intro q a ha
    by_cases hqn : q = np
    · subst hqn
      simp only [apply, Function.update_self, Option.some.injEq] at ha
      simp [apply, record, ha]
    · simp only [apply, Function.update_of_ne hqn] at ha
      simpa [apply, record, hother q hqn] using hl.kin q a ha
  · intro c w hw
    have hc : c ≠ f.pid np := by
      rintro rfl
      exact hnew (List.mem_map.mpr ⟨_, hw, rfl⟩)
    simpa [apply, record, hc] using hl.reapers c w hw

theorem Ledger.Exact.exit (hl : l.Exact root f) (hf : f.Sound root) (h : f.Enabled root (.exit p)) :
    (l.record f (.exit p)).Exact root (f.apply root (.exit p)) := by
  obtain ⟨hp, hc, hroot⟩ := h
  have hpos : f.pid p ≠ 0 := Nat.ne_of_gt (hf.pidPos p (by simp [hp]))
  have hnew : f.pid p ∉ l.exited := hl.unexited p (Or.inl hp)
  refine ⟨?_, ?_, hl.reapedOnce, ?_, ?_, ?_, ?_, ?_⟩
  · intro c hm
    rcases List.mem_append.mp hm with hm | hm
    · exact hl.exitedLt c hm
    · rw [List.mem_singleton.mp hm]
      exact hf.pidLt p
  · refine List.nodup_append.mpr ⟨hl.exitedOnce, by simp, ?_⟩
    intro c hm b hb he
    rw [List.mem_singleton.mp hb] at he
    exact hnew (he ▸ hm)
  · intro c
    have hsplit : c ∈ l.exited ++ [f.pid p] ↔ c ∈ l.exited ∨ c = f.pid p := by simp
    refine hsplit.trans ((or_congr_left (hl.dead c)).trans ?_)
    constructor
    · rintro ((⟨q, hq, rfl⟩ | hm) | rfl)
      · have hqp : q ≠ p := fun he => by simp [he, hp] at hq
        exact Or.inl ⟨q, by simpa [apply, hqp] using hq, rfl⟩
      · exact Or.inr hm
      · exact Or.inl ⟨p, by simp [apply], rfl⟩
    · rintro (⟨q, hq, rfl⟩ | hm)
      · by_cases hqp : q = p
        · exact Or.inr (by simp [apply, hqp])
        · exact Or.inl (Or.inl ⟨q, by simpa [apply, hqp] using hq, rfl⟩)
      · exact Or.inl (Or.inr hm)
  · intro q hq
    by_cases hqp : q = p
    · exact hl.unreaped q (by simp [hqp, hp])
    · simp only [apply, Function.update_of_ne hqp] at hq
      exact hl.unreaped q hq
  · intro q hq
    have hqp : q ≠ p := fun he => by simp [apply, he] at hq
    simp only [apply, Function.update_of_ne hqp] at hq
    have hne : f.pid q ≠ f.pid p := fun he => hqp (hf.pidInj q p he (by rw [he]; exact hpos))
    simpa [record, apply, hne] using hl.unexited q hq
  · intro q a ha
    simp only [apply] at ha
    split at ha
    next hq =>
      cases Option.some.inj ha
      rcases hl.kin q p hq with hk | ⟨hk, _⟩
      · exact Or.inr ⟨rfl, by simp [record, apply, hk]⟩
      · exact absurd hk hroot
    next =>
      rcases hl.kin q a ha with hk | ⟨hk, hm⟩
      · exact Or.inl hk
      · exact Or.inr ⟨hk, List.mem_append_left _ hm⟩
  · intro c w hw
    rcases hl.reapers c w hw with hk | ⟨hk, hm⟩
    · exact Or.inl hk
    · exact Or.inr ⟨hk, List.mem_append_left _ hm⟩

theorem Ledger.Exact.reap (hl : l.Exact root f) (hf : f.Sound root)
    (h : f.Enabled root (.reap p q)) :
    (l.record f (.reap p q)).Exact root (f.apply root (.reap p q)) := by
  obtain ⟨hp, hc, hparent, hq⟩ := h
  have hpos : f.pid q ≠ 0 := Nat.ne_of_gt (hf.pidPos q (by simp [hq]))
  have hroot : root ≠ q := fun he => by simp [← he, hf.rootAlive] at hq
  have hnew : f.pid q ∉ l.reapedPids := hl.unreaped q (by simp [hq])
  have hpids : ∀ c, c ∈ (l.record f (.reap p q)).reapedPids ↔ c ∈ l.reapedPids ∨ c = f.pid q := by
    intro c
    simp [record, reapedPids]
  refine ⟨hl.exitedLt, hl.exitedOnce, ?_, ?_, ?_, ?_, ?_, ?_⟩
  · simp only [record, reapedPids, List.map_append, List.map_cons, List.map_nil]
    refine List.nodup_append.mpr ⟨hl.reapedOnce, by simp, ?_⟩
    intro c hm b hb he
    rw [List.mem_singleton.mp hb] at he
    exact hnew (he ▸ hm)
  · intro c
    refine (hl.dead c).trans ?_
    rw [hpids]
    constructor
    · rintro (⟨a, ha, rfl⟩ | hm)
      · by_cases haq : a = q
        · exact Or.inr (Or.inr (by rw [haq]))
        · exact Or.inl ⟨a, by simp [apply, haq, ha], by simp [apply, haq]⟩
      · exact Or.inr (Or.inl hm)
    · rintro (⟨a, ha, rfl⟩ | hm | rfl)
      · have haq : a ≠ q := fun he => by simp [apply, he] at ha
        exact Or.inl ⟨a, by simpa [apply, haq] using ha, by simp [apply, haq]⟩
      · exact Or.inr hm
      · exact Or.inl ⟨q, hq, rfl⟩
  · intro a ha
    have haq : a ≠ q := fun he => by simp [apply, he] at ha
    simp only [apply, Function.update_of_ne haq] at ha ⊢
    rw [hpids]
    rintro (hm | he)
    · exact hl.unreaped a ha hm
    · exact haq (hf.pidInj a q he (by rw [he]; exact hpos))
  · intro a ha
    have haq : a ≠ q := fun he => by simp [apply, he] at ha
    simp only [apply, Function.update_of_ne haq] at ha ⊢
    exact hl.unexited a ha
  · intro a b ha
    have haq : a ≠ q := fun he => by simp [apply, he] at ha
    simp only [apply, Function.update_of_ne haq] at ha
    have hbq : b ≠ q := fun he => by simpa [he, hq] using hf.parentAlive a b ha
    simpa [apply, haq, hbq, record] using hl.kin a b ha
  · intro c w hw
    simp only [record, List.mem_append, List.mem_singleton, Prod.mk.injEq] at hw
    rcases hw with hw | ⟨rfl, rfl⟩
    · simpa [apply, hroot, record] using hl.reapers c w hw
    · rcases hl.kin q p hparent with hk | ⟨hk, hm⟩
      · exact Or.inl hk
      · exact Or.inr ⟨by simp [apply, hroot, hk], hm⟩

theorem Ledger.Exact.step (hl : l.Exact root f) (hf : f.Sound root) {e : Event ι}
    (h : f.Enabled root e) :
    (l.record f e).Exact root (f.apply root e) := by
  cases e with
  | stay => exact hl
  | claim p np => exact hl.claim hf h
  | abandon p np => exact hl.abandon hf h
  | start p np => exact hl.start hf h
  | exit p => exact hl.exit hf h
  | reap p q => exact hl.reap hf h

end Family
