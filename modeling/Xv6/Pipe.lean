import Mathlib.Data.Fintype.Defs
import Xv6.Bytes
import Xv6.RingBuffer
import Xv6.Runs

namespace Xv6

open Bytes

abbrev PIPESIZE : Nat := 512

/-- struct pipe without its lock. -/
structure PipeBuf where
  data : Fin PIPESIZE → Byte
  nread : BitVec 32
  nwrite : BitVec 32
  readopen : Bool
  writeopen : Bool

/-- The addresses that readers and writers sleep on. -/
inductive PipeChan
  | nread | nwrite
  deriving DecidableEq, Repr

/-- Where a process stands in pipewrite, piperead or pipeclose. A writer in its loop also has the
value i had when it took the lock. -/
inductive PipePc
  | idle
  | writeAcquire (addr : Nat → Byte) (n : Int) (i : Nat)
  | writeLoop (addr : Nat → Byte) (n : Int) (start i : Nat)
  | writeWake (addr : Nat → Byte) (n : Int) (i : Nat)
  | writeSleep (addr : Nat → Byte) (n : Int) (i : Nat)
  | writeDoze (addr : Nat → Byte) (n : Int) (i : Nat)
  | writeAsleep (addr : Nat → Byte) (n : Int) (i : Nat)
  | writeDone
  | readAcquire (n : Int)
  | readLoop (n : Int)
  | readSleep (n : Int)
  | readDoze (n : Int)
  | readAsleep (n : Int)
  | readCopy (n : Int) (i : Nat)
  | readWake (n : Int) (i : Nat)
  | readRelease (n : Int) (i : Nat)
  | closeAcquire (writable : Bool)
  | closeSet (writable : Bool)
  | closeWake (writable : Bool)
  | release

/-- A pipe with the processes that use it: the owners of p->lock and of ptable.lock, who is
SLEEPING on what, who is killed, and whether a descriptor of each end is left. The last two
fields record the bytes that were stored and those that were delivered. -/
structure PipeSys (P : Type) where
  pipe : PipeBuf
  lock : Option P
  ptable : Option P
  pc : P → PipePc
  asleep : P → Option PipeChan
  killed : P → Bool
  readEnd : Bool
  writeEnd : Bool
  stored : List Byte
  delivered : List Byte

inductive PipeEvent (P : Type)
  | write (p : P) (addr : Nat → Byte) (n : Int)
  | read (p : P) (n : Int)
  | close (p : P) (writable : Bool)
  | step (p : P)
  | kill (p : P)

def PipeBuf.ring (b : PipeBuf) : RingBuffer PIPESIZE 32 Byte := ⟨b.data, b.nread, b.nwrite⟩

def PipeBuf.empty (b : PipeBuf) : Prop := b.nread = b.nwrite

def PipeBuf.full (b : PipeBuf) : Prop := b.nwrite = b.nread + BitVec.ofNat 32 PIPESIZE

instance (b : PipeBuf) : Decidable b.empty := inferInstanceAs (Decidable (_ = _))

instance (b : PipeBuf) : Decidable b.full := inferInstanceAs (Decidable (_ = _))

/-- p->data[p->nwrite++ % PIPESIZE] = c -/
def PipeBuf.store (b : PipeBuf) (c : Byte) : PipeBuf :=
  { b with data := Function.update b.data (RingBuffer.slot b.nwrite.toNat) c, nwrite := b.nwrite + 1 }

/-- p->data[p->nread++ % PIPESIZE] -/
def PipeBuf.next (b : PipeBuf) : Byte := b.data (RingBuffer.slot b.nread.toNat)

def PipeBuf.drop (b : PipeBuf) : PipeBuf := { b with nread := b.nread + 1 }

/-- pipealloc's new pipe. -/
def PipeBuf.new (data : Fin PIPESIZE → Byte) : PipeBuf := ⟨data, 0, 0, true, true⟩

def PipePc.isIdle : PipePc → Bool
  | .idle => true
  | _ => false

def PipePc.isWrite : PipePc → Bool
  | .writeAcquire .. | .writeLoop .. | .writeWake .. | .writeSleep .. | .writeDoze .. | .writeAsleep .. | .writeDone => true
  | _ => false

def PipePc.isRead : PipePc → Bool
  | .readAcquire _ | .readLoop _ | .readSleep _ | .readDoze _ | .readAsleep _ | .readCopy .. | .readWake ..
  | .readRelease .. => true
  | _ => false

variable {P : Type} [DecidableEq P]

def PipeSys.init (data : Fin PIPESIZE → Byte) : PipeSys P where
  pipe := PipeBuf.new data
  lock := none
  ptable := none
  pc _ := .idle
  asleep _ := none
  killed _ := false
  readEnd := true
  writeEnd := true
  stored := []
  delivered := []

def PipeSys.goto (s : PipeSys P) (p : P) (c : PipePc) : PipeSys P :=
  { s with pc := Function.update s.pc p c }

/-- wakeup, which needs ptable.lock. -/
def PipeSys.wakeup (s : PipeSys P) (chan : PipeChan) : PipeSys P :=
  { s with asleep := fun q => if s.asleep q = some chan then none else s.asleep q }

/-- The next step of a process inside one of the three functions. -/
def PipeSys.advance (s : PipeSys P) (p : P) : Option (PipeSys P) :=
  match s.pc p with
  | .idle => none
  | .writeAcquire addr n i =>
    if s.lock = none then some ({ s with lock := some p }.goto p (.writeLoop addr n i i)) else none
  | .writeLoop addr n start i =>
    if (i : Int) < n then
      if s.pipe.full then
        if s.pipe.readopen = false ∨ s.killed p = true then some ({ s with lock := none }.goto p .idle)
        else some (s.goto p (.writeWake addr n i))
      else
        some ({ s with pipe := s.pipe.store (addr i), stored := s.stored ++ [addr i] }.goto p
          (.writeLoop addr n start (i + 1)))
    else some (s.goto p .writeDone)
  | .writeWake addr n i =>
    if s.ptable = none then some ((s.wakeup .nread).goto p (.writeSleep addr n i)) else none
  | .writeSleep addr n i =>
    if s.ptable = none then some
      ({ s with ptable := some p, lock := none }.goto p (.writeDoze addr n i)) else none
  | .writeDoze addr n i =>
    some ({ s with ptable := none, asleep := Function.update s.asleep p (some .nwrite) }.goto p
      (.writeAsleep addr n i))
  | .writeAsleep addr n i =>
    if s.asleep p = none ∧ s.ptable = none then some (s.goto p (.writeAcquire addr n i)) else none
  | .writeDone => if s.ptable = none then some ((s.wakeup .nread).goto p .release) else none
  | .readAcquire n => if s.lock = none then some ({ s with lock := some p }.goto p (.readLoop n))
    else none
  | .readLoop n =>
    if s.pipe.empty ∧ s.pipe.writeopen = true then
      if s.killed p = true then some ({ s with lock := none }.goto p .idle) else some (s.goto p (.readSleep n))
    else some (s.goto p (.readCopy n 0))
  | .readSleep n =>
    if s.ptable = none then some ({ s with ptable := some p, lock := none }.goto p (.readDoze n)) else none
  | .readDoze n =>
    some ({ s with ptable := none, asleep := Function.update s.asleep p (some .nread) }.goto p (.readAsleep n))
  | .readAsleep n =>
    if s.asleep p = none ∧ s.ptable = none then some (s.goto p (.readAcquire n)) else none
  | .readCopy n i =>
    if (i : Int) < n ∧ ¬ s.pipe.empty then
      some ({ s with pipe := s.pipe.drop, delivered := s.delivered ++ [s.pipe.next] }.goto p (.readCopy n (i + 1)))
    else some (s.goto p (.readWake n i))
  | .readWake n i => if s.ptable = none then some ((s.wakeup .nwrite).goto p (.readRelease n i))
    else none
  | .readRelease _ _ => some ({ s with lock := none }.goto p .idle)
  | .closeAcquire w => if s.lock = none then some ({ s with lock := some p }.goto p (.closeSet w))
    else none
  | .closeSet w =>
    some ({ s with
      pipe := if w then { s.pipe with writeopen := false } else { s.pipe with readopen := false } }.goto p
        (.closeWake w))
  | .closeWake w =>
    if s.ptable = none then some ((s.wakeup (if w then .nread else .nwrite)).goto p .release)
      else none
  | .release => some ({ s with lock := none }.goto p .idle)

/-- A call is made through a descriptor of its end; the last descriptor of an end is closed when
no process is inside a call on it, and pipeclose follows. -/
def PipeSys.step [Fintype P] (s : PipeSys P) : PipeEvent P → Option (PipeSys P)
  | .write p addr n =>
    if (s.pc p).isIdle ∧ s.writeEnd then some (s.goto p (.writeAcquire addr n 0)) else none
  | .read p n => if (s.pc p).isIdle ∧ s.readEnd then some (s.goto p (.readAcquire n)) else none
  | .close p true =>
    if (s.pc p).isIdle ∧ s.writeEnd ∧ ∀ q, (s.pc q).isWrite = false then
      some ({ s with writeEnd := false }.goto p (.closeAcquire true))
    else none
  | .close p false =>
    if (s.pc p).isIdle ∧ s.readEnd ∧ ∀ q, (s.pc q).isRead = false then
      some ({ s with readEnd := false }.goto p (.closeAcquire false))
    else none
  | .step p => s.advance p
  | .kill p =>
    if s.ptable = none then
      some { s with killed := Function.update s.killed p true, asleep := Function.update s.asleep p none }
    else none

variable {s u : PipeSys P} {p q : P}

/-- The steps of a process inside one of the three functions, one by one. -/
inductive PipeSys.Move (s : PipeSys P) (p : P) : PipeSys P → Prop
  | writeAcquire {addr : Nat → Byte} {n : Int} {i : Nat} (hpc : s.pc p = .writeAcquire addr n i) (hl : s.lock = none) :
      Move s p ({ s with lock := some p }.goto p (.writeLoop addr n i i))
  | giveUp {addr : Nat → Byte} {n : Int} {start i : Nat} (hpc : s.pc p = .writeLoop addr n start i) (hi : (i : Int) < n)
      (hfull : s.pipe.full) (hwhy : s.pipe.readopen = false ∨ s.killed p = true) :
      Move s p ({ s with lock := none }.goto p .idle)
  | block {addr : Nat → Byte} {n : Int} {start i : Nat} (hpc : s.pc p = .writeLoop addr n start i)
      (hfull : s.pipe.full) (hopen : s.pipe.readopen = true) : Move s p (s.goto p (.writeWake addr n i))
  | store {addr : Nat → Byte} {n : Int} {start i : Nat} (hpc : s.pc p = .writeLoop addr n start i)
      (hroom : ¬ s.pipe.full) :
      Move s p ({ s with pipe := s.pipe.store (addr i), stored := s.stored ++ [addr i] }.goto p
        (.writeLoop addr n start (i + 1)))
  | written {addr : Nat → Byte} {n : Int} {start i : Nat} (hpc : s.pc p = .writeLoop addr n start i) :
      Move s p (s.goto p .writeDone)
  | writeWake {addr : Nat → Byte} {n : Int} {i : Nat} (hpc : s.pc p = .writeWake addr n i) (hp : s.ptable = none) :
      Move s p ((s.wakeup .nread).goto p (.writeSleep addr n i))
  | writeSleep {addr : Nat → Byte} {n : Int} {i : Nat} (hpc : s.pc p = .writeSleep addr n i) (hp : s.ptable = none) :
      Move s p ({ s with ptable := some p, lock := none }.goto p (.writeDoze addr n i))
  | writeDoze {addr : Nat → Byte} {n : Int} {i : Nat} (hpc : s.pc p = .writeDoze addr n i) :
      Move s p ({ s with ptable := none, asleep := Function.update s.asleep p (some .nwrite) }.goto p
        (.writeAsleep addr n i))
  | writeResume {addr : Nat → Byte} {n : Int} {i : Nat} (hpc : s.pc p = .writeAsleep addr n i)
      (hwoken : s.asleep p = none) : Move s p (s.goto p (.writeAcquire addr n i))
  | writeDone (hpc : s.pc p = .writeDone) (hp : s.ptable = none) : Move s p ((s.wakeup .nread).goto p .release)
  | readAcquire {n : Int} (hpc : s.pc p = .readAcquire n) (hl : s.lock = none) :
      Move s p ({ s with lock := some p }.goto p (.readLoop n))
  | readKilled {n : Int} (hpc : s.pc p = .readLoop n) : Move s p ({ s with lock := none }.goto p .idle)
  | readBlock {n : Int} (hpc : s.pc p = .readLoop n) (hempty : s.pipe.empty) (hopen : s.pipe.writeopen = true) :
      Move s p (s.goto p (.readSleep n))
  | readGo {n : Int} (hpc : s.pc p = .readLoop n) (hgo : ¬ (s.pipe.empty ∧ s.pipe.writeopen = true)) :
      Move s p (s.goto p (.readCopy n 0))
  | readSleep {n : Int} (hpc : s.pc p = .readSleep n) (hp : s.ptable = none) :
      Move s p ({ s with ptable := some p, lock := none }.goto p (.readDoze n))
  | readDoze {n : Int} (hpc : s.pc p = .readDoze n) :
      Move s p ({ s with ptable := none, asleep := Function.update s.asleep p (some .nread) }.goto p (.readAsleep n))
  | readResume {n : Int} (hpc : s.pc p = .readAsleep n) (hwoken : s.asleep p = none) :
      Move s p (s.goto p (.readAcquire n))
  | deliver {n : Int} {i : Nat} (hpc : s.pc p = .readCopy n i) (hsome : ¬ s.pipe.empty) :
      Move s p ({ s with pipe := s.pipe.drop, delivered := s.delivered ++ [s.pipe.next] }.goto p (.readCopy n (i + 1)))
  | copied {n : Int} {i : Nat} (hpc : s.pc p = .readCopy n i) (hstop : n ≤ i ∨ s.pipe.empty) :
      Move s p (s.goto p (.readWake n i))
  | readWake {n : Int} {i : Nat} (hpc : s.pc p = .readWake n i) (hp : s.ptable = none) :
      Move s p ((s.wakeup .nwrite).goto p (.readRelease n i))
  | readRelease {n : Int} {i : Nat} (hpc : s.pc p = .readRelease n i) : Move s p ({ s with lock := none }.goto p .idle)
  | closeAcquire {w : Bool} (hpc : s.pc p = .closeAcquire w) (hl : s.lock = none) :
      Move s p ({ s with lock := some p }.goto p (.closeSet w))
  | closeSet {w : Bool} (hpc : s.pc p = .closeSet w) :
      Move s p ({ s with
        pipe := if w then { s.pipe with writeopen := false } else { s.pipe with readopen := false } }.goto p
          (.closeWake w))
  | closeWake {w : Bool} (hpc : s.pc p = .closeWake w) (hp : s.ptable = none) :
      Move s p ((s.wakeup (if w then .nread else .nwrite)).goto p .release)
  | release (hpc : s.pc p = .release) : Move s p ({ s with lock := none }.goto p .idle)

theorem PipeSys.advance_move (h : s.advance p = some u) : s.Move p u := by
  unfold PipeSys.advance at h
  split at h
  · simp at h
  next hpc =>
    obtain ⟨hl, rfl⟩ := Runs.of_guard h
    exact .writeAcquire hpc hl
  next hpc =>
    split at h
    next hi =>
      split at h
      next hfull =>
        split at h
        next hwhy => cases Option.some.inj h; exact .giveUp hpc hi hfull hwhy
        next hwhy =>
          cases Option.some.inj h
          exact .block hpc hfull (by simpa using fun hr => hwhy (Or.inl hr))
      next hroom => cases Option.some.inj h; exact .store hpc hroom
    next => cases Option.some.inj h; exact .written hpc
  next hpc =>
    obtain ⟨hp, rfl⟩ := Runs.of_guard h
    exact .writeWake hpc hp
  next hpc =>
    obtain ⟨hp, rfl⟩ := Runs.of_guard h
    exact .writeSleep hpc hp
  next hpc => cases Option.some.inj h; exact .writeDoze hpc
  next hpc =>
    obtain ⟨hp, rfl⟩ := Runs.of_guard h
    exact .writeResume hpc hp.1
  next hpc =>
    obtain ⟨hp, rfl⟩ := Runs.of_guard h
    exact .writeDone hpc hp
  next hpc =>
    obtain ⟨hl, rfl⟩ := Runs.of_guard h
    exact .readAcquire hpc hl
  next hpc =>
    split at h
    next hwait =>
      split at h
      · cases Option.some.inj h; exact .readKilled hpc
      · cases Option.some.inj h; exact .readBlock hpc hwait.1 hwait.2
    next hgo => cases Option.some.inj h; exact .readGo hpc hgo
  next hpc =>
    obtain ⟨hp, rfl⟩ := Runs.of_guard h
    exact .readSleep hpc hp
  next hpc => cases Option.some.inj h; exact .readDoze hpc
  next hpc =>
    obtain ⟨hp, rfl⟩ := Runs.of_guard h
    exact .readResume hpc hp.1
  next n i hpc =>
    split at h
    next hmore => cases Option.some.inj h; exact .deliver hpc hmore.2
    next hstop =>
      cases Option.some.inj h
      refine .copied hpc ?_
      by_cases hn : (i : Int) < n
      · exact Or.inr (by_contra fun he => hstop ⟨hn, he⟩)
      · exact Or.inl (not_lt.mp hn)
  next hpc =>
    obtain ⟨hp, rfl⟩ := Runs.of_guard h
    exact .readWake hpc hp
  next hpc => cases Option.some.inj h; exact .readRelease hpc
  next hpc =>
    obtain ⟨hl, rfl⟩ := Runs.of_guard h
    exact .closeAcquire hpc hl
  next hpc => cases Option.some.inj h; exact .closeSet hpc
  next hpc =>
    obtain ⟨hp, rfl⟩ := Runs.of_guard h
    exact .closeWake hpc hp
  next hpc => cases Option.some.inj h; exact .release hpc

/-- The process holds p->lock. -/
def PipePc.holds : PipePc → Bool
  | .writeLoop .. | .writeWake .. | .writeSleep .. | .writeDone | .readLoop _ | .readSleep _ | .readCopy ..
  | .readWake .. | .readRelease .. | .closeSet _ | .closeWake _ | .release => true
  | _ => false

@[simp] theorem PipeSys.goto_pc_self {c : PipePc} : (s.goto p c).pc p = c := by
  simp [PipeSys.goto]

theorem PipeSys.goto_pc_other {c : PipePc} (h : q ≠ p) : (s.goto p c).pc q = s.pc q := by
  simp [PipeSys.goto, h]

theorem PipeSys.Move.pc_other (h : s.Move p u) (hq : q ≠ p) : u.pc q = s.pc q := by
  cases h <;> exact PipeSys.goto_pc_other hq

theorem PipeSys.Move.lock_cases (h : s.Move p u) :
    (u.lock = s.lock ∧ (u.pc p).holds = (s.pc p).holds) ∨
      (s.lock = none ∧ u.lock = some p) ∨ ((s.pc p).holds = true ∧ (u.pc p).holds = false) := by
  cases h with
  | writeAcquire hpc hl | readAcquire hpc hl | closeAcquire hpc hl =>
    exact Or.inr (Or.inl ⟨hl, rfl⟩)
  | giveUp hpc | writeSleep hpc | readKilled hpc | readSleep hpc | readRelease hpc | release hpc =>
    exact Or.inr (Or.inr (by simp [hpc, PipePc.holds]))
  | block hpc | store hpc | written hpc | writeWake hpc | writeDoze hpc | writeResume hpc | writeDone hpc
    | readBlock hpc | readGo hpc | readDoze hpc | readResume hpc | deliver hpc | copied hpc | readWake hpc
    | closeSet hpc | closeWake hpc => exact Or.inl ⟨rfl, by simp [hpc, PipePc.holds]⟩

/-- Only the owner of the lock changes the pipe. -/
theorem PipeSys.Move.pipe_cases (h : s.Move p u) : u.pipe = s.pipe ∨ (s.pc p).holds = true := by
  cases h with
  | store hpc | deliver hpc | closeSet hpc => exact Or.inr (by simp [hpc, PipePc.holds])
  | _ => exact Or.inl rfl

def PipeSys.Holder (s : PipeSys P) : Prop := ∀ q, (s.pc q).holds = true → s.lock = some q

omit [DecidableEq P] in
theorem PipeSys.Holder.ne_of_holds (hs : s.Holder) (hp : (s.pc p).holds = true) (hq : q ≠ p) :
    (s.pc q).holds = false := by
  by_contra hne
  have hl := hs q (by simpa using hne)
  exact hq (Option.some.inj (hl.symm.trans (hs p hp)))

theorem PipeSys.Holder.move (hs : s.Holder) (h : s.Move p u) : u.Holder := by
  intro q hq
  rcases h.lock_cases with ⟨hl, hsame⟩ | ⟨hfree, hl⟩ | ⟨hp, hnot⟩
  · rw [hl]
    by_cases hqp : q = p
    · subst hqp
      exact hs q (by rw [← hsame]; exact hq)
    · rw [h.pc_other hqp] at hq
      exact hs q hq
  · by_cases hqp : q = p
    · rw [hl, hqp]
    · rw [h.pc_other hqp] at hq
      simp [hs q hq] at hfree
  · by_cases hqp : q = p
    · subst hqp
      simp [hnot] at hq
    · rw [h.pc_other hqp] at hq
      simp [hs.ne_of_holds hp hqp] at hq

theorem PipeSys.step_cases [Fintype P] {e : PipeEvent P} (h : s.step e = some u) :
    (∃ p, s.Move p u) ∨
    (∃ p c a b, c.holds = false ∧ (s.pc p).isIdle = true ∧ u = { s with readEnd := a, writeEnd := b }.goto p c) ∨
    ∃ p, u = { s with killed := Function.update s.killed p true, asleep := Function.update s.asleep p none } := by
  cases e with
  | write p addr n =>
    obtain ⟨hi, rfl⟩ := Runs.of_guard h
    exact Or.inr (Or.inl ⟨p, _, s.readEnd, s.writeEnd, rfl, hi.1, rfl⟩)
  | read p n =>
    obtain ⟨hi, rfl⟩ := Runs.of_guard h
    exact Or.inr (Or.inl ⟨p, _, s.readEnd, s.writeEnd, rfl, hi.1, rfl⟩)
  | close p w =>
    cases w with
    | true =>
      obtain ⟨hi, rfl⟩ := Runs.of_guard h
      exact Or.inr (Or.inl ⟨p, _, s.readEnd, false, rfl, hi.1, rfl⟩)
    | false =>
      obtain ⟨hi, rfl⟩ := Runs.of_guard h
      exact Or.inr (Or.inl ⟨p, _, false, s.writeEnd, rfl, hi.1, rfl⟩)
  | step p => exact Or.inl ⟨p, PipeSys.advance_move h⟩
  | kill p =>
    obtain ⟨_, rfl⟩ := Runs.of_guard h
    exact Or.inr (Or.inr ⟨p, rfl⟩)

theorem PipeSys.Holder.step [Fintype P] {e : PipeEvent P} (hs : s.Holder) (h : s.step e = some u) :
    u.Holder := by
  rcases PipeSys.step_cases h with ⟨p, hm⟩ | ⟨p, c, a, b, hc, _, rfl⟩ | ⟨p, rfl⟩
  · exact hs.move hm
  · intro q hq
    by_cases hqp : q = p
    · subst hqp
      simp [hc] at hq
    · rw [PipeSys.goto_pc_other hqp] at hq
      exact hs q hq
  · exact hs

end Xv6
