import Xv6.Lifecycle

namespace Xv6

def tStrace : BitVec 32 := 1

/-- The word that sys_strace stores. -/
def straceWord (i : BitVec 32) : BitVec 32 := if i &&& tStrace ≠ 0 then i else 0

/-- The word that fork gives to the child. -/
def forkWord (w : BitVec 32) : BitVec 32 := if w &&& tFork ≠ 0 then w else 0

/-- When argint fails, i is still 0. -/
def sysStrace (t : Table) (p : Slot) (i : Option (BitVec 32)) : Table :=
  t.setProc p { t.proc p with straced := straceWord (i.getD 0) }

inductive StraceEvent
  | proc (e : ProcEvent)
  | strace (p : Slot) (i : Option (BitVec 32))
  | exec (p : Slot)
  deriving DecidableEq, Repr

/-- The table, with the argument of the last strace call that each process has made itself, its
parent's word when it was forked, and whether it or an ancestor has called strace. -/
structure StraceSys where
  table : Table
  own : Slot → Option (BitVec 32)
  forked : Slot → BitVec 32
  called : Slot → Bool

def StraceSys.boot : StraceSys := ⟨Table.boot, fun _ => none, fun _ => 0, fun _ => false⟩

/-- A new process has made no call, and has its parent's history. -/
def StraceSys.born (s : StraceSys) (p np : Slot) : StraceSys :=
  { s with
    own := Function.update s.own np none
    forked := Function.update s.forked np (s.table.proc p).straced
    called := Function.update s.called np (s.called p) }

def StraceSys.record (s : StraceSys) : ProcEvent → StraceSys
  | .forkFinish p =>
    match s.table.fork p with
    | .initialised np => s.born p np
    | _ => s
  | _ => s

/-- exec keeps the word. -/
def StraceSys.step (s : StraceSys) : StraceEvent → Option StraceSys
  | .proc e => (s.table.step e).map fun r => { s.record e with table := r.table }
  | .strace p i =>
    if s.table.InUser p then
      some { s with
        table := sysStrace s.table p i
        own := Function.update s.own p (some (i.getD 0))
        called := Function.update s.called p true }
    else none
  | .exec p => if s.table.InUser p then some s else none

/-- The entry holds a process whose fork has ended. -/
def Table.Born (t : Table) (q : Slot) : Prop :=
  (t.proc q).state ≠ .unused ∧ (t.proc q).state ≠ .embryo

def Table.Traced (t : Table) (q : Slot) : Prop := (t.proc q).straced &&& tStrace ≠ 0

/-- The word that a process should have. -/
def StraceSys.word (s : StraceSys) (q : Slot) : BitVec 32 :=
  match s.own q with
  | some i => straceWord i
  | none => forkWord (s.forked q)

structure StraceSys.Inv (s : StraceSys) : Prop where
  sound : s.table.Sound
  stored : ∀ q, straceWord (s.table.proc q).straced = (s.table.proc q).straced
  inherited : ∀ q, straceWord (s.forked q) = s.forked q
  born : ∀ q, s.table.Born q → (s.table.proc q).straced = s.word q
  uncalled : ∀ q, s.called q = false → (s.table.proc q).straced = 0

variable {s u : StraceSys} {e : ProcEvent} {t : Table} {r : Reply} {p q : Slot}

theorem straceWord_idem (i : BitVec 32) : straceWord (straceWord i) = straceWord i := by
  by_cases h : i &&& tStrace ≠ 0
  · simp only [straceWord, if_pos h]
  · simp only [straceWord, if_neg h, ite_self]

theorem straceWord_traced (i : BitVec 32) : straceWord i &&& tStrace ≠ 0 ↔ i &&& tStrace ≠ 0 := by
  unfold straceWord
  split
  next => rfl
  next h => simpa using h

theorem straceWord_forkWord {w : BitVec 32} (h : straceWord w = w) :
    straceWord (forkWord w) = forkWord w := by
  unfold forkWord
  split
  · exact h
  · rfl

theorem forkWord_traced (w : BitVec 32) :
    forkWord w &&& tStrace ≠ 0 ↔ w &&& tStrace ≠ 0 ∧ w &&& tFork ≠ 0 := by
  unfold forkWord
  split
  next h => exact (and_iff_left h).symm
  next h => exact ⟨fun hno => absurd (by simp) hno, fun hboth => absurd hboth.2 h⟩

/-- A step of the table leaves the word of an entry alone, clears it for a new process or, at the
end of a fork, sets it from the parent's. -/
theorem Table.step_straced (h : t.step e = some r) (q : Slot) :
    (r.table.proc q).straced = (t.proc q).straced ∧ (r.table.Born q → t.Born q) ∨
      (r.table.proc q).straced = 0 ∧ ¬ r.table.Born q ∨
      ∃ p, e = .forkFinish p ∧ t.fork p = .initialised q ∧
        (r.table.proc q).straced = forkWord (t.proc p).straced := by
  rcases Table.step_proc h q with hsame | hch
  · rw [Table.Born, hsame]
    exact Or.inl ⟨rfl, id⟩
  · have hstate : ∀ {x : ProcState}, (r.table.proc q).state = x →
        (r.table.Born q ↔ x ≠ .unused ∧ x ≠ .embryo) := by
      rintro x rfl
      rfl
    generalize hv : r.table.proc q = v at hch hstate ⊢
    cases hch with
    | claim => exact Or.inr (Or.inl ⟨rfl, fun hb => ((hstate rfl).1 hb).2 rfl⟩)
    | @finish p hf => exact Or.inr (Or.inr ⟨p, rfl, hf, rfl⟩)
    | fail | reap => exact Or.inl ⟨rfl, fun hb => absurd rfl ((hstate rfl).1 hb).1⟩
    | boost | restore | nice | initNice | initPriority | initOriginal =>
      exact Or.inl ⟨rfl, (hstate rfl).1⟩
    | waitSleep hst | sleep hst | yield hst | dispatch hst | wakeup hst =>
      exact Or.inl ⟨rfl, fun _ => by simp [Table.Born, hst]⟩
    | kill =>
      refine Or.inl ⟨rfl, fun hb => ?_⟩
      have hb' := (hstate rfl).1 hb
      by_cases hsleep : (t.proc q).state = .sleeping
      · simp [Table.Born, hsleep]
      · simpa [Table.Born, Proc.kill, hsleep] using hb'
    | @exit p =>
      obtain ⟨hu, _⟩ := Runs.of_guard h
      refine Or.inl ⟨rfl, fun hb => ?_⟩
      have hb' := (hstate rfl).1 hb
      by_cases hqp : q = p
      · subst hqp
        simp [Table.Born, hu.1.1]
      · by_cases hwake : t.ExitWakes p q
        · simp [Table.Born, hwake.1]
        · simpa [Table.Born, hqp, hwake] using hb'

theorem StraceSys.record_cases (s : StraceSys) (e : ProcEvent) (q : Slot) :
    ((s.record e).own q = s.own q ∧ (s.record e).forked q = s.forked q ∧
      (s.record e).called q = s.called q ∧
      ∀ p, e = .forkFinish p → s.table.fork p ≠ .initialised q) ∨
    ∃ p, e = .forkFinish p ∧ s.table.fork p = .initialised q ∧ (s.record e).own q = none ∧
      (s.record e).forked q = (s.table.proc p).straced ∧ (s.record e).called q = s.called p := by
  by_cases hex : ∃ p, e = .forkFinish p ∧ s.table.fork p = .initialised q
  · obtain ⟨p, rfl, hf⟩ := hex
    exact Or.inr ⟨p, rfl, hf, by simp [StraceSys.record, hf, StraceSys.born]⟩
  · have hne : ∀ p, e = .forkFinish p → s.table.fork p ≠ .initialised q :=
      fun p he hf => hex ⟨p, he, hf⟩
    refine Or.inl ?_
    unfold StraceSys.record
    split
    next p =>
      split
      next np hf =>
        have hq : q ≠ np := fun he => hne p rfl (he ▸ hf)
        simp only [StraceSys.born, Function.update_of_ne hq]
        exact ⟨trivial, trivial, trivial, hne⟩
      next => exact ⟨rfl, rfl, rfl, hne⟩
    next => exact ⟨rfl, rfl, rfl, hne⟩

theorem StraceSys.Inv.proc_step (hs : s.Inv) (h : s.table.step e = some r) :
    StraceSys.Inv { s.record e with table := r.table } := by
  refine ⟨hs.sound.step h, fun q => ?_, fun q => ?_, fun q hq => ?_, fun q hq => ?_⟩
  · rcases Table.step_straced h q with ⟨he, _⟩ | ⟨he, _⟩ | ⟨p, _, _, he⟩
    · simp only [he]
      exact hs.stored q
    · simp only [he]
      rfl
    · simp only [he]
      exact straceWord_forkWord (hs.stored p)
  · rcases s.record_cases e q with ⟨_, hf, _, _⟩ | ⟨p, _, _, _, hf, _⟩
    · simp only [hf]
      exact hs.inherited q
    · simp only [hf]
      exact hs.stored p
  · rcases s.record_cases e q with ⟨ho, hf, _, hne⟩ | ⟨p, rfl, hfork, ho, hf, _⟩
    · rcases Table.step_straced h q with ⟨he, hb⟩ | ⟨_, hb⟩ | ⟨p, he, hfork, _⟩
      · simp only [StraceSys.word, he, ho, hf]
        exact hs.born q (hb hq)
      · exact absurd hq hb
      · exact absurd hfork (hne p he)
    · simp only [StraceSys.word, ho, hf]
      simp only [Table.step, hfork] at h
      cases Option.some.inj h
      simp [forkFinish, Table.setFork, Table.setProc, forkWord]
  · rcases s.record_cases e q with ⟨_, _, hc, hne⟩ | ⟨p, rfl, hfork, _, _, hc⟩
    · rcases Table.step_straced h q with ⟨he, _⟩ | ⟨he, _⟩ | ⟨p, he, hfork, _⟩
      · simp only [he]
        exact hs.uncalled q (hc ▸ hq)
      · exact he
      · exact absurd hfork (hne p he)
    · have hparent := hs.uncalled p (hc ▸ hq)
      simp only [Table.step, hfork] at h
      cases Option.some.inj h
      simp [forkFinish, Table.setFork, Table.setProc, hparent]

theorem StraceSys.Inv.strace_step {i : Option (BitVec 32)} (hs : s.Inv)
    (h : s.step (.strace p i) = some u) : u.Inv := by
  obtain ⟨hu, rfl⟩ := Runs.of_guard h
  have hfamily : (sysStrace s.table p i).family = s.table.family := family_setProc_same rfl rfl rfl
  refine ⟨?_, fun q => ?_, hs.inherited, fun q hq => ?_, fun q hq => ?_⟩
  · unfold Table.Sound
    rw [hfamily]
    exact hs.sound
  · by_cases hqp : q = p
    · simp [sysStrace, Table.setProc, hqp, straceWord_idem]
    · simpa [sysStrace, Table.setProc, hqp] using hs.stored q
  · by_cases hqp : q = p
    · simp [sysStrace, Table.setProc, hqp, StraceSys.word]
    · have hb : s.table.Born q := by simpa [Table.Born, sysStrace, Table.setProc, hqp] using hq
      simpa [sysStrace, Table.setProc, hqp, StraceSys.word] using hs.born q hb
  · have hqp : q ≠ p := by
      rintro rfl
      simp at hq
    simp only [Function.update_of_ne hqp] at hq
    simpa [sysStrace, Table.setProc, hqp] using hs.uncalled q hq

theorem StraceSys.Inv.step {e : StraceEvent} (hs : s.Inv) (h : s.step e = some u) : u.Inv := by
  cases e with
  | proc e =>
    obtain ⟨r, hr, rfl⟩ := Option.map_eq_some_iff.mp h
    exact hs.proc_step hr
  | strace p i => exact hs.strace_step h
  | exec p =>
    obtain ⟨_, rfl⟩ := Runs.of_guard h
    exact hs

theorem StraceSys.boot_inv : StraceSys.boot.Inv := by
  have hzero : ∀ q, (Table.boot.proc q).straced = 0 := by
    intro q
    by_cases hq : q = initproc
    · simp [Table.boot, hq, Proc.zero]
    · simp [Table.boot, hq, Proc.zero]
  refine ⟨Table.boot_sound, fun q => ?_, fun _ => ite_self 0, fun q _ => ?_, fun q _ => hzero q⟩
  · simp only [StraceSys.boot, hzero q]
    rfl
  · simp only [StraceSys.boot, hzero q]
    exact (ite_self 0).symm

/-- A process is traced as its own last call asks for, or as its parent's word said when it was
forked, and never when neither it nor an ancestor has called strace. -/
theorem tracing_inherited {l : List StraceEvent}
    (h : Runs.exec StraceSys.step StraceSys.boot l = some s) (hq : s.table.Born q) :
    (s.table.Traced q ↔ match s.own q with
      | some i => i &&& tStrace ≠ 0
      | none => s.forked q &&& tStrace ≠ 0 ∧ s.forked q &&& tFork ≠ 0) ∧
    (s.called q = false → ¬ s.table.Traced q) := by
  have hs : s.Inv := Runs.invariant StraceSys.boot_inv (fun _ _ _ hs hstep => hs.step hstep) h
  constructor
  · rw [Table.Traced, hs.born q hq, StraceSys.word]
    cases s.own q with
    | some i => exact straceWord_traced i
    | none => exact forkWord_traced _
  · intro hc
    rw [Table.Traced, hs.uncalled q hc]
    simp

/-- init traces itself and its children, and the child of its child. -/
def straceRuns : List StraceEvent :=
  [.proc (.dispatch 0), .strace 0 (some 3)] ++ (forkSteps 0).map .proc ++
    [.proc (.dispatch 1), .exec 1] ++
    (forkSteps 1).map .proc

theorem tracing_inherited_grandchild :
    ∃ s, Runs.exec StraceSys.step StraceSys.boot straceRuns = some s ∧ s.table.Born 2 ∧
      (s.table.Traced 2 ↔ match s.own 2 with
        | some i => i &&& tStrace ≠ 0
        | none => s.forked 2 &&& tStrace ≠ 0 ∧ s.forked 2 &&& tFork ≠ 0) := by
  have hrun : (Runs.exec StraceSys.step StraceSys.boot straceRuns).map
    (fun s => (s.table.proc 2).state) =
      some .runnable := by decide +kernel
  obtain ⟨s, hs, hstate⟩ := Option.map_eq_some_iff.mp hrun
  have hborn : s.table.Born 2 := by simp [Table.Born, hstate]
  exact ⟨s, hs, hborn, (tracing_inherited hs hborn).1⟩

end Xv6
