import Mathlib.Algebra.GroupWithZero.Nat
import Mathlib.Data.List.Perm.Basic
import Xv6.FileTable
import Xv6.Runs
import Xv6.ShellGrammar

namespace Xv6

inductive Side where
  | left
  | right
  | sub
deriving DecidableEq, Repr

/-- A node of a command, by the way to it from the root. -/
abbrev Node : Type := List Side

/-- What a descriptor may be bound to: one that the shell had, the file of a redirection or an end
of a pipe. -/
inductive OpenFile (α : Type) where
  | inherited (fd : Fd)
  | file (node : Node) (r : Redir α)
  | readEnd (node : Node)
  | writeEnd (node : Node)
deriving DecidableEq, Repr

/-- The descriptors of a process. -/
abbrev Ofile (α : Type) : Type := Fd → Option (OpenFile α)

namespace Ofile

variable {α : Type}

/-- The shell does not look at what close returns. -/
def close (t : Ofile α) (n : Nat) : Ofile α := fun fd => if fd.val = n then none else t fd

def fdalloc (t : Ofile α) (f : OpenFile α) : Option (Fd × Ofile α) :=
  ((List.finRange NOFILE).find? fun fd => (t fd).isNone).map fun fd =>
    (fd, Function.update t fd (some f))

def dup (t : Ofile α) (n : Nat) : Option (Fd × Ofile α) :=
  if h : n < NOFILE then (t ⟨n, h⟩).bind t.fdalloc else none

/-- The two descriptors in p, and the table. -/
def pipe (t : Ofile α) (node : Node) : Option ((Nat × Nat) × Ofile α) :=
  (t.fdalloc (.readEnd node)).bind fun (fd0, t) =>
    (t.fdalloc (.writeEnd node)).map fun (fd1, t) => ((fd0.val, fd1.val), t)

/-- Exactly the first n descriptors are open. -/
def upTo (n : Nat) (b : Fd → OpenFile α) : Ofile α :=
  fun fd => if fd.val < n then some (b fd) else none

end Ofile

/-- The argument of close and dup: a number or a descriptor of the pipe. -/
inductive FdArg where
  | const (n : Nat)
  | p0
  | p1
deriving DecidableEq, Repr

def FdArg.val (p : Nat × Nat) : FdArg → Nat
  | .const n => n
  | .p0 => p.1
  | .p1 => p.2

/-- What a process of the shell still has to do, call by call; exec ends the shell's part of it. -/
inductive Code (α : Type) where
  | close (d : FdArg) (k : Code α)
  | dup (d : FdArg) (k : Code α)
  | openFile (node : Node) (r : Redir α) (k : Code α)
  | pipe (node : Node) (k : Code α)
  | fork (child k : Code α)
  | wait (k : Code α)
  | exec (node : Node) (argv : List α)
  | exit
deriving DecidableEq, Repr

/-- The calls of runcmd in the order of the source; a forked child starts with its own branch. -/
def runcmd {α : Type} (node : Node) : Cmd α → Code α
  | .exec argv => if argv = [] then .exit else .exec node argv
  | .redir cmd r => .close (.const r.fd) (.openFile node r (runcmd (node ++ [.sub]) cmd))
  | .list left right =>
    .fork (runcmd (node ++ [.left]) left) (.wait (runcmd (node ++ [.right]) right))
  | .pipe left right =>
    .pipe node
      (.fork (.close (.const 1) (.dup .p1 (.close .p0 (.close .p1 (runcmd (node ++ [.left]) left)))))
        (.fork (.close (.const 0) (.dup .p0 (.close .p0 (.close .p1 (runcmd (node ++ [.right]) right)))))
          (.close .p0 (.close .p1 (.wait (.wait .exit))))))
  | .back cmd => .fork (runcmd (node ++ [.sub]) cmd) .exit

/-- A process of the shell: p is the array of runcmd. -/
structure ShProc (α : Type) where
  code : Code α
  ofile : Ofile α
  p : Nat × Nat

/-- The processes that a process becomes by its next call; none if the call fails. -/
def ShProc.step {α : Type} (q : ShProc α) : Option (List (ShProc α)) :=
  match q.code with
  | .close d k => some [{ q with code := k, ofile := q.ofile.close (d.val q.p) }]
  | .dup d k => (q.ofile.dup (d.val q.p)).map fun (_, t) => [{ q with code := k, ofile := t }]
  | .openFile node r k => (q.ofile.fdalloc (.file node r)).map fun (_, t) =>
    [{ q with code := k, ofile := t }]
  | .pipe node k => (q.ofile.pipe node).map fun (p, t) => [{ code := k, ofile := t, p := p }]
  | .fork child k => some [{ q with code := child }, { q with code := k }]
  | .wait k => some [{ q with code := k }]
  | .exec _ _ => some []
  | .exit => some []

/-- A simple command that has been exec'ed, with the descriptors it has got. -/
structure Execed (α : Type) where
  node : Node
  argv : List α
  ofile : Ofile α

def ShProc.execed {α : Type} (q : ShProc α) : List (Execed α) :=
  match q.code with
  | .exec node argv => [⟨node, argv, q.ofile⟩]
  | _ => []

/-- The processes of the shell that run a command, and what they have exec'ed. -/
structure Shells (α : Type) where
  procs : List (ShProc α)
  execs : List (Execed α)

/-- Any process may be the next to make a call; wait returns at some time. -/
def Shells.step {α : Type} (s : Shells α) (i : Nat) : Option (Shells α) :=
  (s.procs[i]?).bind fun q => q.step.map fun qs =>
    ⟨s.procs.take i ++ qs ++ s.procs.drop (i + 1), s.execs ++ q.execed⟩

def Shells.start {α : Type} (cmd : Cmd α) (p : Nat × Nat) : Shells α :=
  ⟨[⟨runcmd [] cmd, .upTo 3 .inherited, p⟩], []⟩

/-- The node at the end of a way. -/
def Cmd.sub {α : Type} : Cmd α → Node → Option (Cmd α)
  | cmd, [] => some cmd
  | .redir cmd _, .sub :: way => cmd.sub way
  | .pipe left _, .left :: way => left.sub way
  | .pipe _ right, .right :: way => right.sub way
  | .list left _, .left :: way => left.sub way
  | .list _ right, .right :: way => right.sub way
  | .back cmd, .sub :: way => cmd.sub way
  | _, _ => none

/-- What the nodes on a way bind a descriptor to, from the root on. -/
def Cmd.binders {α : Type} (fd : Nat) (node : Node) : Cmd α → Node → List (OpenFile α)
  | .redir cmd r, .sub :: way =>
    (if r.fd = fd then [.file node r] else []) ++ cmd.binders fd (node ++ [.sub]) way
  | .pipe left _, .left :: way =>
    (if fd = 1 then [.writeEnd node] else []) ++ left.binders fd (node ++ [.left]) way
  | .pipe _ right, .right :: way =>
    (if fd = 0 then [.readEnd node] else []) ++ right.binders fd (node ++ [.right]) way
  | .list left _, .left :: way => left.binders fd (node ++ [.left]) way
  | .list _ right, .right :: way => right.binders fd (node ++ [.right]) way
  | .back cmd, .sub :: way => cmd.binders fd (node ++ [.sub]) way
  | _, _ => []

/-- The innermost of them, or the inherited descriptor. -/
def Cmd.bound {α : Type} (cmd : Cmd α) (way : Node) (fd : Fd) : OpenFile α :=
  (cmd.binders fd [] way).getLast?.getD (.inherited fd)

/-- The simple commands that have a name, with the way to each. -/
def Cmd.simple {α : Type} (node : Node) : Cmd α → List (Node × List α)
  | .exec argv => if argv = [] then [] else [(node, argv)]
  | .redir cmd _ => cmd.simple (node ++ [.sub])
  | .pipe left right => left.simple (node ++ [.left]) ++ right.simple (node ++ [.right])
  | .list left right => left.simple (node ++ [.left]) ++ right.simple (node ++ [.right])
  | .back cmd => cmd.simple (node ++ [.sub])

def Cmd.redirs {α : Type} : Cmd α → List (Redir α)
  | .exec _ => []
  | .redir cmd r => r :: cmd.redirs
  | .pipe left right => left.redirs ++ right.redirs
  | .list left right => left.redirs ++ right.redirs
  | .back cmd => cmd.redirs

namespace Ofile

variable {α : Type} {t : Ofile α} {f : OpenFile α} {fd : Fd} {n : Nat} {b c : Fd → OpenFile α}

theorem fdalloc_eq (fd : Fd) (h : t fd = none) (hlow : ∀ fd' < fd, t fd' ≠ none) :
    t.fdalloc f = some (fd, Function.update t fd (some f)) := by
  have hfind : ((List.finRange NOFILE).find? fun fd => (t fd).isNone) = some fd := by
    rw [List.find?_eq_some_iff_getElem]
    refine ⟨by simp [h], fd.val, by simp, by simp, fun j hj => ?_⟩
    have hne := hlow ⟨j, by omega⟩ hj
    simpa using Option.isSome_iff_ne_none.mpr hne
  rw [fdalloc, hfind]
  rfl

theorem fdalloc_upTo (fd : Fd) (hn : fd.val = n) :
    (upTo n b).fdalloc f = some (fd, upTo (n + 1) (Function.update b fd f)) := by
  rw [fdalloc_eq fd (by simp [upTo, hn])]
  · congr 2
    funext fd'
    by_cases he : fd' = fd
    · subst he
      simp [upTo, hn]
    · have hne : fd'.val ≠ n := fun hv => he (Fin.ext (hv.trans hn.symm))
      have hlt : fd'.val < n ↔ fd'.val < n + 1 := by omega
      simp [upTo, he, hlt]
  · intro fd' hlt
    have hlt' : fd'.val < n := hn ▸ hlt
    simp [upTo, hlt']

theorem fdalloc_close_upTo (fd : Fd) (hn : fd.val < n) :
    ((upTo n b).close fd).fdalloc f = some (fd, upTo n (Function.update b fd f)) := by
  rw [fdalloc_eq fd (by simp [close])]
  · congr 2
    funext fd'
    by_cases he : fd' = fd
    · subst he
      simp [upTo, hn]
    · have hne : fd'.val ≠ fd.val := fun hv => he (Fin.ext hv)
      simp [upTo, close, he, hne]
  · intro fd' hlt
    have hne : fd'.val ≠ fd.val := Nat.ne_of_lt hlt
    have hlt' : fd'.val < n := Nat.lt_trans hlt hn
    simp [close, upTo, hne, hlt']

/-- The two ends of a pipe get the descriptors 3 and 4. -/
def ends (b : Fd → OpenFile α) (node : Node) : Fd → OpenFile α :=
  Function.update (Function.update b 3 (.readEnd node)) 4 (.writeEnd node)

theorem ends_of_lt {node : Node} (h : fd.val < 3) : ends b node fd = b fd := by
  have h3 : fd ≠ 3 := fun he => by rw [he] at h; exact absurd h (by decide)
  have h4 : fd ≠ 4 := fun he => by rw [he] at h; exact absurd h (by decide)
  rw [ends, Function.update_of_ne h4, Function.update_of_ne h3]

theorem pipe_upTo (node : Node) : (upTo 3 b).pipe node = some ((3, 4), upTo 5 (ends b node)) := by
  have h3 : (upTo 3 b).fdalloc (.readEnd node) =
    some (3, upTo 4 (Function.update b 3 (.readEnd node))) :=
    fdalloc_upTo 3 rfl
  have h4 : (upTo 4 (Function.update b 3 (.readEnd node))).fdalloc (.writeEnd node) =
    some (4, upTo 5 (ends b node)) :=
    fdalloc_upTo 4 rfl
  rw [pipe, h3, Option.bind_some]
  dsimp only
  rw [h4]
  rfl

theorem close_pipe (hb : ∀ fd : Fd, fd.val < 3 → b fd = c fd) :
    ((upTo 5 b).close 3).close 4 = upTo 3 c := by
  funext fd
  by_cases hlt : fd.val < 3
  · simp [close, upTo, show fd.val ≠ 3 by omega, show fd.val ≠ 4 by omega, show fd.val < 5 by omega,
      hlt, hb fd hlt]
  · by_cases h3 : fd.val = 3
    · simp [close, upTo, h3]
    · by_cases h4 : fd.val = 4
      · simp [close, upTo, h4]
      · simp [close, upTo, hlt, h3, h4, show ¬ fd.val < 5 by omega]

/-- What a child of a pipe does to its descriptors: fd is bound to the end of the pipe that it had
as d. -/
theorem dup_pipe {d : Fd} (hfd : fd.val < 3) (hd : 3 ≤ d.val ∧ d.val < 5) :
    ((upTo 5 b).close fd).dup d = some (fd, upTo 5 (Function.update b fd (b d))) := by
  have hopen : (upTo 5 b).close fd d = some (b d) := by
    simp [close, upTo, show d.val ≠ fd.val by omega, hd.2]
  rw [dup, dif_pos d.isLt]
  show ((upTo 5 b).close fd d).bind _ = _
  rw [hopen, Option.bind_some, fdalloc_close_upTo fd (by omega)]

end Ofile

/-- No call that is still to be made fails, a process that waits has no descriptor above 2, and E
holds wherever a command is exec'ed. -/
def Code.Good {α : Type} (E : Execed α → Prop) : Code α → Ofile α → Nat × Nat → Prop
  | .close d k, t, p => k.Good E (t.close (d.val p)) p
  | .dup d k, t, p => ∃ fd t', t.dup (d.val p) = some (fd, t') ∧ k.Good E t' p
  | .openFile node r k, t, p => ∃ fd t', t.fdalloc (.file node r) = some (fd, t') ∧ k.Good E t' p
  | .pipe node k, t, _ => ∃ p' t', t.pipe node = some (p', t') ∧ k.Good E t' p'
  | .fork child k, t, p => child.Good E t p ∧ k.Good E t p
  | .wait k, t, p => (∀ fd : Fd, 2 < fd.val → t fd = none) ∧ k.Good E t p
  | .exec node argv, t, _ => E ⟨node, argv, t⟩
  | .exit, _, _ => True

/-- The commands that are still to be exec'ed. -/
def Code.execs {α : Type} : Code α → List (Node × List α)
  | .close _ k => k.execs
  | .dup _ k => k.execs
  | .openFile _ _ k => k.execs
  | .pipe _ k => k.execs
  | .fork child k => child.execs ++ k.execs
  | .wait k => k.execs
  | .exec node argv => [(node, argv)]
  | .exit => []

/-- The calls that are still to be made. -/
def Code.calls {α : Type} : Code α → Nat
  | .close _ k => k.calls + 1
  | .dup _ k => k.calls + 1
  | .openFile _ _ k => k.calls + 1
  | .pipe _ k => k.calls + 1
  | .fork child k => child.calls + k.calls + 1
  | .wait k => k.calls + 1
  | .exec _ _ => 1
  | .exit => 1

section Wiring

variable {α : Type} {E : Execed α → Prop}

theorem upTo_waits {b : Fd → OpenFile α} (fd : Fd) (h : 2 < fd.val) : Ofile.upTo 3 b fd = none := by
  simp [Ofile.upTo, show ¬ fd.val < 3 by omega]

theorem getLast_binder {c : Prop} [Decidable c] (fd0 : Fd) {fd : Fd} (hc : c ↔ fd = fd0)
    (f : OpenFile α) (b : Fd → OpenFile α) (l : List (OpenFile α)) :
    ((if c then [f] else []) ++ l).getLast?.getD (b fd) =
      l.getLast?.getD (Function.update b fd0 f fd) := by
  rw [List.getLast?_append]
  by_cases he : fd = fd0
  · subst he
    cases l.getLast? <;> simp [hc]
  · cases l.getLast? <;> simp [hc, he]

theorem good_child {node : Node} {b : Fd → OpenFile α} {arg : FdArg} {k : Code α} (fd d : Fd)
    (hfd : fd.val < 3) (hd : 3 ≤ d.val ∧ d.val < 5) (harg : arg.val (3, 4) = d.val)
    (hk : k.Good E (.upTo 3 (Function.update b fd (Ofile.ends b node d))) (3, 4)) :
    (Code.close (.const fd) (.dup arg (.close .p0 (.close .p1 k)))).Good E
      (.upTo 5 (Ofile.ends b node)) (3, 4) := by
  refine ⟨fd, _, by rw [harg]; exact Ofile.dup_pipe hfd hd, ?_⟩
  have hclose := Ofile.close_pipe
    (b := Function.update (Ofile.ends b node) fd (Ofile.ends b node d))
    (c := Function.update b fd (Ofile.ends b node d)) fun fd' hlt => by
      by_cases he : fd' = fd
      · rw [he, Function.update_self, Function.update_self]
      · rw [Function.update_of_ne he, Function.update_of_ne he, Ofile.ends_of_lt hlt]
  show k.Good E (((Ofile.upTo 5 _).close 3).close 4) (3, 4)
  rwa [hclose]

/-- What runcmd does with a command in a process that has the first three descriptors. -/
theorem runcmd_good {cmd : Cmd α} (hfd : ∀ r ∈ cmd.redirs, r.fd ≤ 2) (node : Node)
    (b : Fd → OpenFile α) (p : Nat × Nat)
    (hE : ∀ way argv, cmd.sub way = some (.exec argv) → argv ≠ [] →
      E ⟨node ++ way, argv, .upTo 3 fun fd => (cmd.binders fd node way).getLast?.getD (b fd)⟩) :
    (runcmd node cmd).Good E (.upTo 3 b) p := by
  induction cmd generalizing node b p with
  | exec argv =>
    rw [runcmd]
    split
    next => trivial
    next hne =>
      have h := hE [] argv rfl hne
      rwa [List.append_nil] at h
  | redir cmd r ih =>
    have hr : r.fd ≤ 2 := hfd r List.mem_cons_self
    have hr' : r.fd < NOFILE := Nat.lt_of_le_of_lt hr (by decide)
    refine ⟨⟨r.fd, hr'⟩, _, Ofile.fdalloc_close_upTo ⟨r.fd, hr'⟩ (Nat.lt_succ_of_le hr), ?_⟩
    refine ih (fun r' h => hfd r' (List.mem_cons_of_mem _ h)) _ _ p fun way argv hway hne => ?_
    have h := hE (.sub :: way) argv hway hne
    have hb : (fun fd : Fd =>
      ((cmd.redir r).binders fd node (.sub :: way)).getLast?.getD (b fd)) = _ :=
      funext fun fd => getLast_binder ⟨r.fd, hr'⟩ (by rw [Fin.ext_iff]; exact eq_comm) (.file node r) b _
    rw [hb] at h
    rwa [List.append_assoc]
  | pipe left right ihl ihr =>
    refine ⟨(3, 4), _, Ofile.pipe_upTo node, good_child 1 4 (by decide) (by decide) rfl ?_,
      good_child 0 3 (by decide) (by decide) rfl ?_, ?_⟩
    · refine ihl (fun r h => hfd r (List.mem_append_left _ h)) _ _ _ fun way argv hway hne => ?_
      have h := hE (.left :: way) argv hway hne
      have hb : (fun fd : Fd =>
        ((left.pipe right).binders fd node (.left :: way)).getLast?.getD (b fd)) = _ :=
        funext fun fd => getLast_binder 1 Fin.ext_iff.symm (.writeEnd node) b _
      rw [hb] at h
      rwa [List.append_assoc]
    · refine ihr (fun r h => hfd r (List.mem_append_right _ h)) _ _ _ fun way argv hway hne => ?_
      have h := hE (.right :: way) argv hway hne
      have hb : (fun fd : Fd =>
        ((left.pipe right).binders fd node (.right :: way)).getLast?.getD (b fd)) = _ :=
        funext fun fd => getLast_binder 0 Fin.ext_iff.symm (.readEnd node) b _
      rw [hb] at h
      rwa [List.append_assoc]
    · have hclose := Ofile.close_pipe (b := Ofile.ends b node) (c := b) fun fd hlt => Ofile.ends_of_lt hlt
      have hwait : (Code.wait (.wait .exit)).Good E (.upTo 3 b) (3, 4) := ⟨upTo_waits, upTo_waits, trivial⟩
      show (Code.wait (.wait .exit)).Good E (((Ofile.upTo 5 _).close 3).close 4) (3, 4)
      rwa [hclose]
  | list left right ihl ihr =>
    refine ⟨ihl (fun r h => hfd r (List.mem_append_left _ h)) _ _ p fun way argv hway hne => ?_,
      upTo_waits,
      ihr (fun r h => hfd r (List.mem_append_right _ h)) _ _ p fun way argv hway hne => ?_⟩
    · have h := hE (.left :: way) argv hway hne
      rwa [List.append_assoc]
    · have h := hE (.right :: way) argv hway hne
      rwa [List.append_assoc]
  | back cmd ih =>
    refine ⟨ih hfd _ _ p fun way argv hway hne => ?_, trivial⟩
    have h := hE (.sub :: way) argv hway hne
    rwa [List.append_assoc]

theorem runcmd_execs (node : Node) (cmd : Cmd α) : (runcmd node cmd).execs = cmd.simple node := by
  induction cmd generalizing node with
  | exec argv =>
    rw [runcmd, Cmd.simple]
    split <;> rfl
  | redir cmd r ih => exact ih _
  | pipe left right ihl ihr =>
    simp only [runcmd, Code.execs, Cmd.simple, ihl, ihr, List.append_nil]
  | list left right ihl ihr => simp only [runcmd, Code.execs, Cmd.simple, ihl, ihr]
  | back cmd ih => simp only [runcmd, Code.execs, Cmd.simple, ih, List.append_nil]

/-- A call of a process: it succeeds, and what is left to do is as good and as much as before. -/
theorem ShProc.step_good {q : ShProc α} (h : q.code.Good E q.ofile q.p) :
    ∃ qs, q.step = some qs ∧ (∀ q' ∈ qs, q'.code.Good E q'.ofile q'.p) ∧ (∀ e ∈ q.execed, E e) ∧
      (q.execed.map fun e => (e.node, e.argv)) ++ qs.flatMap (fun q' => q'.code.execs) = q.code.execs ∧
      (qs.map fun q' => q'.code.calls).sum + 1 = q.code.calls := by
  obtain ⟨code, t, p⟩ := q
  cases code with
  | close d k =>
    exact ⟨_, rfl, List.forall_mem_singleton.mpr h, nofun, by simp [ShProc.execed, Code.execs],
      by simp [Code.calls]⟩
  | dup d k =>
    obtain ⟨fd, t', hdup, hk⟩ := h
    refine ⟨[⟨k, t', p⟩], ?_, by simpa using hk, nofun, by simp [ShProc.execed, Code.execs],
      by simp [Code.calls]⟩
    simp only [ShProc.step, hdup, Option.map_some]
  | openFile node r k =>
    obtain ⟨fd, t', hopen, hk⟩ := h
    refine ⟨[⟨k, t', p⟩], ?_, by simpa using hk, nofun, by simp [ShProc.execed, Code.execs],
      by simp [Code.calls]⟩
    simp only [ShProc.step, hopen, Option.map_some]
  | pipe node k =>
    obtain ⟨p', t', hpipe, hk⟩ := h
    refine ⟨[⟨k, t', p'⟩], ?_, by simpa using hk, nofun, by simp [ShProc.execed, Code.execs],
      by simp [Code.calls]⟩
    simp only [ShProc.step, hpipe, Option.map_some]
  | fork child k =>
    refine ⟨_, rfl, ?_, nofun, by simp [ShProc.execed, Code.execs], by simp [Code.calls]⟩
    exact List.forall_mem_cons.mpr ⟨h.1, List.forall_mem_singleton.mpr h.2⟩
  | wait k =>
    exact ⟨_, rfl, by simpa using h.2, nofun, by simp [ShProc.execed, Code.execs],
      by simp [Code.calls]⟩
  | exec node argv =>
    refine ⟨[], rfl, nofun, fun e he => ?_, rfl, rfl⟩
    cases List.mem_singleton.mp he
    exact h
  | exit => exact ⟨[], rfl, nofun, nofun, rfl, rfl⟩

/-- What holds of the shell's processes whatever the schedule; all are the simple commands. -/
structure Shells.Wired (E : Execed α → Prop) (all : List (Node × List α)) (calls : Nat)
    (s : Shells α) : Prop where
  procs : ∀ q ∈ s.procs, q.code.Good E q.ofile q.p
  execs : ∀ e ∈ s.execs, E e
  once : ((s.execs.map fun e => (e.node, e.argv)) ++ s.procs.flatMap fun q => q.code.execs).Perm all
  left : (s.procs.map fun q => q.code.calls).sum = calls

theorem Shells.Wired.step {s : Shells α} {all : List (Node × List α)} {calls i : Nat}
    (hs : s.Wired E all calls)
    (hi : i < s.procs.length) : ∃ t n, s.step i = some t ∧ calls = n + 1 ∧ t.Wired E all n := by
  have hget : s.procs[i]? = some s.procs[i] := List.getElem?_eq_getElem hi
  have hsplit : s.procs = s.procs.take i ++ s.procs[i] :: s.procs.drop (i + 1) := by
    rw [List.getElem_cons_drop, List.take_append_drop]
  generalize s.procs[i] = q at hget hsplit
  have hmem : q ∈ s.procs := List.mem_of_getElem? hget
  obtain ⟨qs, hq, hgood, hexecs, hsame, hcalls⟩ := ShProc.step_good (hs.procs q hmem)
  have hprocs := hs.procs
  have honce := hs.once
  have hleft := hs.left
  rw [hsplit] at hprocs honce hleft
  have hstep : s.step i = some ⟨s.procs.take i ++ qs ++ s.procs.drop (i + 1),
      s.execs ++ q.execed⟩ := by
    simp only [Shells.step, hget, Option.bind_some, hq, Option.map_some]
  generalize s.procs.take i = before at hprocs honce hleft hstep
  generalize s.procs.drop (i + 1) = after at hprocs honce hleft hstep
  refine ⟨_, ((before ++ qs ++ after).map fun q => q.code.calls).sum, hstep, ?_, ?_, ?_, ?_, rfl⟩
  · simp only [List.map_append, List.map_cons, List.sum_append, List.sum_cons] at hleft ⊢
    omega
  · intro q' hq'
    rcases List.mem_append.mp hq' with hq' | hq'
    · rcases List.mem_append.mp hq' with hq' | hq'
      · exact hprocs q' (List.mem_append_left _ hq')
      · exact hgood q' hq'
    · exact hprocs q' (List.mem_append_right _ (List.mem_cons_of_mem _ hq'))
  · intro e he
    rcases List.mem_append.mp he with he | he
    · exact hs.execs e he
    · exact hexecs e he
  · refine List.Perm.trans ?_ honce
    simp only [List.map_append, List.flatMap_append, List.flatMap_cons, List.append_assoc, ← hsame]
    refine List.Perm.append_left _ ?_
    simp only [← List.append_assoc]
    exact ((List.perm_append_comm.append_right _).append_right _)

theorem Shells.Wired.run {s t : Shells α} {all : List (Node × List α)} {calls : Nat}
    {schedule : List Nat} (hs : s.Wired E all calls)
    (h : Runs.exec Shells.step s schedule = some t) :
    ∃ n, calls = n + schedule.length ∧ t.Wired E all n := by
  induction schedule generalizing s calls with
  | nil =>
    cases Option.some.inj h
    exact ⟨calls, rfl, hs⟩
  | cons i schedule ih =>
    obtain ⟨u, hu, h⟩ := Option.bind_eq_some_iff.mp h
    have hi : i < s.procs.length := by
      obtain ⟨q, hq, _⟩ := Option.bind_eq_some_iff.mp hu
      exact (List.getElem?_eq_some_iff.mp hq).1
    obtain ⟨v, n, hv, hn, hw⟩ := hs.step hi
    cases Option.some.inj (hu.symm.trans hv)
    obtain ⟨m, hm, ht⟩ := ih hw h
    exact ⟨m, by rw [hn, hm, List.length_cons]; omega, ht⟩

/-- Whatever the schedule, each simple command is exec'ed with the descriptors that the tree gives
it, the processes that wait have none above 2, no call fails, and once all processes are done each
command has been exec'ed once. -/
theorem runcmd_wires (cmd : Cmd α) (hfd : ∀ r ∈ cmd.redirs, r.fd ≤ 2) (p : Nat × Nat)
    (schedule : List Nat) (s : Shells α)
    (h : Runs.exec Shells.step (.start cmd p) schedule = some s) :
    (∀ e ∈ s.execs, cmd.sub e.node = some (.exec e.argv) ∧
      ∀ fd : Fd, e.ofile fd = if fd.val ≤ 2 then some (cmd.bound e.node fd) else none) ∧
    (∀ q ∈ s.procs, ∀ k, q.code = .wait k → ∀ fd : Fd, 2 < fd.val → q.ofile fd = none) ∧
    (∀ i < s.procs.length, (s.step i).isSome) ∧ schedule.length ≤ (runcmd [] cmd).calls ∧
    (s.procs = [] → (s.execs.map fun e => (e.node, e.argv)).Perm (cmd.simple [])) := by
  let E : Execed α → Prop :=
    fun e => cmd.sub e.node = some (.exec e.argv) ∧ e.ofile = .upTo 3 (cmd.bound e.node)
  have hgood : (runcmd [] cmd).Good E (.upTo 3 .inherited) p :=
    runcmd_good hfd [] .inherited p fun way argv hway _ => ⟨hway, rfl⟩
  have hstart : (Shells.start cmd p).Wired E (cmd.simple []) (runcmd [] cmd).calls := by
    refine ⟨List.forall_mem_singleton.mpr hgood, nofun, ?_, by simp [Shells.start]⟩
    simp [Shells.start, runcmd_execs]
  obtain ⟨n, hn, hs⟩ := hstart.run h
  refine ⟨fun e he => ?_, fun q hq k hk => ?_, fun i hi => ?_, by omega, fun hdone => ?_⟩
  · obtain ⟨hsub, hofile⟩ := hs.execs e he
    refine ⟨hsub, fun fd => ?_⟩
    rw [hofile, Ofile.upTo]
    exact if_congr Nat.lt_succ_iff rfl rfl
  · have hgood := hs.procs q hq
    rw [hk] at hgood
    exact hgood.1
  · obtain ⟨t, _, ht, _⟩ := hs.step hi
    rw [ht]
    rfl
  · have honce := hs.once
    rwa [hdone, List.flatMap_nil, List.append_nil] at honce

end Wiring

/-- a < in | b -/
def readingPipe : Cmd String := .pipe (.redir (.exec ["a"]) ⟨"in", rdonly, 0⟩) (.exec ["b"])

example : readingPipe.bound [.left, .sub] 0 = .file [.left] ⟨"in", rdonly, 0⟩ ∧
    readingPipe.bound [.left, .sub] 1 = .writeEnd [] ∧ readingPipe.bound [.right] 0 = .readEnd [] ∧
    readingPipe.bound [.right] 1 = .inherited 1 := by decide

theorem runcmd_wires_pipe :
    ∃ s, Runs.exec Shells.step (.start readingPipe (0, 0)) (List.replicate 20 0) = some s ∧
      ∀ e ∈ s.execs, ∀ fd : Fd, e.ofile fd = if fd.val ≤ 2 then some (readingPipe.bound e.node fd)
        else none := by
  have hrun : (Runs.exec Shells.step (.start readingPipe (0, 0)) (List.replicate 20 0)).isSome := by
    decide +kernel
  obtain ⟨s, hs⟩ := Option.isSome_iff_exists.mp hrun
  have hfd : ∀ r ∈ readingPipe.redirs, r.fd ≤ 2 := by decide
  exact ⟨s, hs, fun e he => ((runcmd_wires readingPipe hfd (0, 0) _ s hs).1 e he).2⟩

end Xv6
