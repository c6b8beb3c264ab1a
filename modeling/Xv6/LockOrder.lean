import Mathlib.Data.Fintype.Basic
import Mathlib.Logic.Relation
import Xv6.Runs

namespace LockOrder

variable {L : Type}

/-- What a thread does to the spinlocks. With sched it gives its processor back to the
scheduler until it is dispatched again, with stop for good. -/
inductive Action (L : Type)
  | acquire (l : L)
  | release (l : L)
  | sched
  | stop
  deriving DecidableEq, Repr

/-- The control flow of a piece of code, down to what it does to the spinlocks. -/
inductive Code (L : Type)
  | skip
  | locked (l : L) (c : Code L)
  | sleepOn (l : L)
  | sched
  | stop
  | seq (c d : Code L)
  | alt (c d : Code L)
  | loop (c : Code L)
  | pick (f : Nat → Code L)

instance : Append (Code L) := ⟨Code.seq⟩

instance : OrOp (Code L) := ⟨Code.alt⟩

def Code.opt (c : Code L) : Code L := skip ||| c

/-- The lock actions of one way through the code. To sleep on a lock is to trade it for the
big lock while the thread is off its processor. -/
inductive Code.Path (big : L) : Code L → List (Action L) → Prop
  | skip : Path big skip []
  | locked {l : L} {c : Code L} {xs : List (Action L)} :
      Path big c xs → Path big (locked l c) (.acquire l :: (xs ++ [.release l]))
  | sleepOn {l : L} : Path big (sleepOn l) [.acquire big, .release l, .sched, .release big, .acquire l]
  | sched : Path big sched [.sched]
  | stop : Path big stop [.acquire big, .stop]
  | seq {c d : Code L} {xs ys : List (Action L)} :
      Path big c xs → Path big d ys → Path big (c ++ d) (xs ++ ys)
  | inl {c d : Code L} {xs : List (Action L)} : Path big c xs → Path big (c ||| d) xs
  | inr {c d : Code L} {xs : List (Action L)} : Path big d xs → Path big (c ||| d) xs
  | done {c : Code L} : Path big (loop c) []
  | again {c : Code L} {xs ys : List (Action L)} :
      Path big c xs → Path big (loop c) ys → Path big (loop c) (xs ++ ys)
  | pick {f : Nat → Code L} {xs : List (Action L)} (k : Nat) : Path big (f k) xs → Path big (pick f) xs

/-- Runs of actions that start with the locks of the first list held, take locks by
increasing rank, switch threads with the big lock alone and end with the locks fin. -/
def Ordered [DecidableEq L] (rank : L → Nat) (big : L) (fin : List L) :
    List L → List (Action L) → Prop
  | held, [] => held = fin
  | held, .acquire l :: rest =>
    (∀ h ∈ held, rank h < rank l) ∧ Ordered rank big fin (l :: held) rest
  | held, .release l :: rest => l ∈ held ∧ Ordered rank big fin (held.erase l) rest
  | held, .sched :: rest => held = [big] ∧ Ordered rank big fin [big] rest
  | held, .stop :: _ => held = [big]

/-- Code that may be run with these locks held, read off its text. -/
def Code.Safe (rank : L → Nat) (big : L) : List L → Code L → Prop
  | _, skip => True
  | held, locked l c => (∀ h ∈ held, rank h < rank l) ∧ Safe rank big (l :: held) c
  | held, sleepOn l => held = [l] ∧ rank l < rank big
  | held, sched => held = [big]
  | held, stop => held = []
  | held, seq c d => Safe rank big held c ∧ Safe rank big held d
  | held, alt c d => Safe rank big held c ∧ Safe rank big held d
  | held, loop c => Safe rank big held c
  | held, pick f => ∀ k, Safe rank big held (f k)

section Safe

variable {rank : L → Nat} {big l : L} {held : List L} {c d : Code L} {f : Nat → Code L}

@[simp] theorem safe_skip : Code.Safe rank big held (.skip : Code L) := trivial

@[simp] theorem safe_locked : (Code.locked l c).Safe rank big held ↔
    (∀ h ∈ held, rank h < rank l) ∧ c.Safe rank big (l :: held) := Iff.rfl

@[simp] theorem safe_sleepOn :
    (Code.sleepOn l).Safe rank big held ↔ held = [l] ∧ rank l < rank big := Iff.rfl

@[simp] theorem safe_sched : (Code.sched : Code L).Safe rank big held ↔ held = [big] := Iff.rfl

@[simp] theorem safe_stop : (Code.stop : Code L).Safe rank big held ↔ held = [] := Iff.rfl

@[simp] theorem safe_seq :
    (c ++ d).Safe rank big held ↔ c.Safe rank big held ∧ d.Safe rank big held := Iff.rfl

@[simp] theorem safe_alt :
    (c ||| d).Safe rank big held ↔ c.Safe rank big held ∧ d.Safe rank big held := Iff.rfl

@[simp] theorem safe_opt : c.opt.Safe rank big held ↔ c.Safe rank big held := by
  simp [Code.opt]

@[simp] theorem safe_loop : (Code.loop c).Safe rank big held ↔ c.Safe rank big held := Iff.rfl

@[simp] theorem safe_pick :
    (Code.pick f).Safe rank big held ↔ ∀ k, (f k).Safe rank big held := Iff.rfl

/-- Every path of safe code is ordered and gives back the locks it takes. -/
theorem ordered_of_safe [DecidableEq L] {xs : List (Action L)} (hp : c.Path big xs)
    (hs : c.Safe rank big held) {fin : List L} {rest : List (Action L)}
    (h : Ordered rank big fin held rest) : Ordered rank big fin held (xs ++ rest) := by
  induction hp generalizing held rest with
  | skip => exact h
  | locked hp ih =>
    rw [List.cons_append, List.append_assoc]
    exact ⟨hs.1, ih hs.2 ⟨List.mem_cons_self, by simpa using h⟩⟩
  | @sleepOn l =>
    obtain ⟨rfl, hl⟩ := safe_sleepOn.mp hs
    have hne : big ≠ l := fun he => absurd hl (by simp [he])
    simpa [Ordered, hl, hne] using h
  | sched =>
    cases safe_sched.mp hs
    exact ⟨rfl, h⟩
  | stop =>
    cases safe_stop.mp hs
    simp [Ordered]
  | seq h1 h2 ih1 ih2 =>
    rw [List.append_assoc]
    exact ih1 (safe_seq.mp hs).1 (ih2 (safe_seq.mp hs).2 h)
  | inl _ ih => exact ih (safe_alt.mp hs).1 h
  | inr _ ih => exact ih (safe_alt.mp hs).2 h
  | done => exact h
  | again _ _ ih1 ih2 =>
    rw [List.append_assoc]
    exact ih1 (safe_loop.mp hs) (ih2 hs h)
  | pick k _ ih => exact ih (safe_pick.mp hs k) h

end Safe

/-- A processor: the spinlocks it holds, the actions still to do, and whether it runs a
thread or the scheduler. -/
structure Cpu (L : Type) where
  held : List L
  todo : List (Action L)
  thread : Bool

structure Machine (C L : Type) where
  cpu : C → Cpu L
  pool : List (List (Action L))

inductive Move (C L : Type)
  | call (c : C) (path : List (Action L))
  | interrupt (c : C) (path : List (Action L))
  | idleInterrupt (c : C) (path : List (Action L))
  | spawn (path : List (Action L))
  | advance (c : C)
  | dispatch (c : C) (i : Nat)
  | rescan (c : C)

section Waiting

variable {C : Type}

/-- Every processor is about to take the big lock for its scheduler. -/
def Machine.boot (big : L) : Machine C L :=
  ⟨fun _ => ⟨[], [.acquire big], false⟩, []⟩

/-- A processor spins for a lock. -/
def Machine.Wants (s : Machine C L) (c : C) (l : L) : Prop :=
  (s.cpu c).todo.head? = some (.acquire l)

/-- A processor spins for a lock that another holds. -/
def Machine.Waits (s : Machine C L) (c d : C) : Prop :=
  ∃ l, s.Wants c l ∧ l ∈ (s.cpu d).held

variable [DecidableEq L] {rank : L → Nat} {big : L}

/-- A move that brings in actions brings in ordered ones. -/
def Move.Admissible (rank : L → Nat) (big : L) : Move C L → Prop
  | .call _ path | .interrupt _ path | .idleInterrupt _ path =>
    ∀ fin rest, Ordered rank big fin [] rest → Ordered rank big fin [] (path ++ rest)
  | .spawn path => Ordered rank big [] [big] path
  | _ => True

/-- What each processor and each waiting thread still has to do is ordered. -/
structure Machine.Sound (rank : L → Nat) (big : L) (s : Machine C L) : Prop where
  cpu : ∀ c, Ordered rank big (if (s.cpu c).thread then [] else [big]) (s.cpu c).held (s.cpu c).todo
  pool : ∀ path ∈ s.pool, Ordered rank big [] [big] path

theorem Machine.boot_sound : (Machine.boot big : Machine C L).Sound rank big :=
  ⟨fun _ => ⟨fun _ h => absurd h List.not_mem_nil, rfl⟩, fun _ h => absurd h List.not_mem_nil⟩

theorem sound_idle_held {s : Machine C L} {c : C} (hs : s.Sound rank big)
    (h : (s.cpu c).thread = false ∧ (s.cpu c).todo = []) : (s.cpu c).held = [big] := by
  have hc := hs.cpu c
  simpa [h.1, h.2, Ordered] using hc

theorem sound_wants_rank {s : Machine C L} {c : C} {l h : L} (hs : s.Sound rank big)
    (hw : s.Wants c l) (hh : h ∈ (s.cpu c).held) : rank h < rank l := by
  have hc := hs.cpu c
  obtain ⟨rest, hrest⟩ := List.head?_eq_some_iff.mp hw
  rw [hrest] at hc
  exact hc.1 h hh

theorem waits_rank_lt {s : Machine C L} {c d : C} (hs : s.Sound rank big)
    (h : Relation.TransGen s.Waits c d) :
    ∀ l k, s.Wants c l → s.Wants d k → rank l < rank k := by
  have hstep : ∀ {c d : C}, s.Waits c d → ∀ l k, s.Wants c l → s.Wants d k → rank l < rank k := by
    rintro c d ⟨w, hw, hheld⟩ l k hl hk
    cases Option.some.inj (hw.symm.trans hl)
    exact sound_wants_rank hs hk hheld
  induction h with
  | single h => exact hstep h
  | tail _ h ih =>
    intro l k hl hk
    obtain ⟨w, hw, _⟩ := id h
    exact Nat.lt_trans (ih l w hl hw) (hstep h w k hw hk)

/-- Locks taken by increasing rank leave no circle of processors that wait for each other. -/
theorem sound_no_cycle {s : Machine C L} (hs : s.Sound rank big) (c : C) :
    ¬ Relation.TransGen s.Waits c c := by
  intro h
  obtain ⟨d, ⟨l, hl, _⟩, _⟩ := Relation.TransGen.head'_iff.mp h
  exact Nat.lt_irrefl _ (waits_rank_lt hs h l l hl hl)

end Waiting

section Machine

variable {C : Type} [DecidableEq C]

def Machine.setCpu (s : Machine C L) (c : C) (v : Cpu L) : Machine C L :=
  { s with cpu := Function.update s.cpu c v }

/-- The next action of a processor; an acquire waits until no processor holds the lock. -/
def Machine.advance [DecidableEq L] [Fintype C] (s : Machine C L) (c : C) : Option (Machine C L) :=
  match (s.cpu c).todo with
  | [] => none
  | .acquire l :: rest =>
    if ∀ d, l ∉ (s.cpu d).held then some (s.setCpu c ⟨l :: (s.cpu c).held, rest, (s.cpu c).thread⟩)
    else none
  | .release l :: rest => some (s.setCpu c ⟨(s.cpu c).held.erase l, rest, (s.cpu c).thread⟩)
  | .sched :: rest =>
    if (s.cpu c).thread then
      some { s.setCpu c ⟨(s.cpu c).held, [], false⟩ with pool := rest :: s.pool }
    else none
  | .stop :: _ => if (s.cpu c).thread then some (s.setCpu c ⟨(s.cpu c).held, [], false⟩) else none

/-- Interrupts are off while a lock is held; the scheduler holds the big lock between scans. -/
def Machine.step [DecidableEq L] [Fintype C] (big : L) (s : Machine C L) :
    Move C L → Option (Machine C L)
  | .call c path =>
    if (s.cpu c).thread = true ∧ (s.cpu c).todo = [] then
      some (s.setCpu c ⟨(s.cpu c).held, path, true⟩)
    else none
  | .interrupt c path =>
    if (s.cpu c).thread = true ∧ (s.cpu c).held = [] then
      some (s.setCpu c ⟨(s.cpu c).held, path ++ (s.cpu c).todo, true⟩)
    else none
  | .idleInterrupt c path =>
    if (s.cpu c).thread = false ∧ (s.cpu c).held = [] then
      some (s.setCpu c ⟨(s.cpu c).held, path ++ (s.cpu c).todo, false⟩)
    else none
  | .spawn path => some { s with pool := path :: s.pool }
  | .advance c => s.advance c
  | .dispatch c i =>
    match s.pool[i]? with
    | some path =>
      if (s.cpu c).thread = false ∧ (s.cpu c).todo = [] then
        some { s.setCpu c ⟨(s.cpu c).held, path, true⟩ with pool := s.pool.eraseIdx i }
      else none
    | none => none
  | .rescan c =>
    if (s.cpu c).thread = false ∧ (s.cpu c).todo = [] then
      some (s.setCpu c ⟨(s.cpu c).held, [.release big, .acquire big], false⟩)
    else none

variable [DecidableEq L] [Fintype C] {rank : L → Nat} {big : L}

omit [Fintype C] in
theorem Machine.Sound.setCpu {s : Machine C L} {c : C} {v : Cpu L} (hs : s.Sound rank big)
    (hv : Ordered rank big (if v.thread then [] else [big]) v.held v.todo) :
    (s.setCpu c v).Sound rank big := by
  refine ⟨fun d => ?_, hs.pool⟩
  by_cases hd : d = c
  · subst hd
    simpa [Machine.setCpu] using hv
  · simpa [Machine.setCpu, Function.update_of_ne hd] using hs.cpu d

theorem advance_sound {s t : Machine C L} {c : C} (hs : s.Sound rank big)
    (h : s.advance c = some t) : t.Sound rank big := by
  have hc := hs.cpu c
  unfold Machine.advance at h
  split at h
  next => simp at h
  next l rest htodo =>
    obtain ⟨_, rfl⟩ := Runs.of_guard h
    rw [htodo] at hc
    exact hs.setCpu hc.2
  next l rest htodo =>
    cases Option.some.inj h
    rw [htodo] at hc
    exact hs.setCpu hc.2
  next rest htodo =>
    obtain ⟨hthread, rfl⟩ := Runs.of_guard h
    rw [htodo] at hc
    simp only [hthread, if_true] at hc
    refine ⟨(hs.setCpu (v := ⟨(s.cpu c).held, [], false⟩) hc.1).cpu, ?_⟩
    intro path hp
    rcases List.mem_cons.mp hp with rfl | hp
    · exact hc.2
    · exact hs.pool path hp
  next rest htodo =>
    obtain ⟨_, rfl⟩ := Runs.of_guard h
    rw [htodo] at hc
    exact hs.setCpu (v := ⟨(s.cpu c).held, [], false⟩) hc

theorem step_sound {s t : Machine C L} {m : Move C L} (hs : s.Sound rank big)
    (hm : m.Admissible rank big) (h : s.step big m = some t) : t.Sound rank big := by
  cases m with
  | call c path =>
    obtain ⟨⟨hthread, htodo⟩, rfl⟩ := Runs.of_guard h
    have hheld : (s.cpu c).held = [] := by simpa [hthread, htodo, Ordered] using hs.cpu c
    refine hs.setCpu ?_
    simpa [hheld] using hm [] [] rfl
  | interrupt c path =>
    obtain ⟨⟨hthread, hheld⟩, rfl⟩ := Runs.of_guard h
    refine hs.setCpu ?_
    rw [hheld]
    exact hm _ _ (by simpa [hthread, hheld] using hs.cpu c)
  | idleInterrupt c path =>
    obtain ⟨⟨hthread, hheld⟩, rfl⟩ := Runs.of_guard h
    refine hs.setCpu ?_
    rw [hheld]
    exact hm _ _ (by simpa [hthread, hheld] using hs.cpu c)
  | spawn path =>
    cases Option.some.inj h
    refine ⟨hs.cpu, fun q hq => ?_⟩
    rcases List.mem_cons.mp hq with rfl | hq
    · exact hm
    · exact hs.pool q hq
  | advance c => exact advance_sound hs h
  | dispatch c i =>
    simp only [Machine.step] at h
    split at h
    next path hpath =>
      obtain ⟨hidle, rfl⟩ := Runs.of_guard h
      have hordered := hs.pool path (List.mem_of_getElem? hpath)
      refine ⟨(hs.setCpu (v := ⟨(s.cpu c).held, path, true⟩) ?_).cpu, fun q hq => ?_⟩
      · simpa [sound_idle_held hs hidle] using hordered
      · exact hs.pool q (List.mem_of_mem_eraseIdx hq)
    next => simp at h
  | rescan c =>
    obtain ⟨hidle, rfl⟩ := Runs.of_guard h
    refine hs.setCpu ?_
    simp [sound_idle_held hs hidle, Ordered]

end Machine

end LockOrder
