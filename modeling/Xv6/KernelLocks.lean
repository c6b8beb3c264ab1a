import Xv6.KernelCode

namespace Xv6

open LockOrder (Code Action)

/-- The order in which the kernel nests its spinlocks: ptable.lock is taken inside the lock
of a sleeper or of a device, kmem.lock inside any. -/
def SpinLock.rank : SpinLock → Nat
  | ptable => 1
  | kmem => 2
  | _ => 0

section Safe

@[simp] theorem wakeupCode_safe {l : SpinLock} :
    wakeupCode.Safe SpinLock.rank .ptable [l] ↔ l.rank = 0 := by
  have hp : SpinLock.ptable.rank = 1 := rfl
  simp [wakeupCode, hp]

@[simp] theorem cprintfCode_safe : cprintfCode.Safe SpinLock.rank .ptable [] := by
  simp [cprintfCode]

theorem kmem_safe {held : List SpinLock} (h : ∀ l ∈ held, l.rank < 2) :
    kallocCode.Safe SpinLock.rank .ptable held ∧ kfreeCode.Safe SpinLock.rank .ptable held := by
  simpa [kallocCode, kfreeCode, SpinLock.rank] using h

theorem freevmCode_safe {held : List SpinLock} (h : ∀ l ∈ held, l.rank < 2) :
    freevmCode.Safe SpinLock.rank .ptable held := by
  simp [freevmCode, deallocuvmCode, kmem_safe h]

@[simp] theorem allocuvmCode_safe : allocuvmCode.Safe SpinLock.rank .ptable [] := by
  simp [allocuvmCode, mappagesCode, deallocuvmCode, kallocCode, kfreeCode]

@[simp] theorem copyuvmCode_safe : copyuvmCode.Safe SpinLock.rank .ptable [] := by
  simp [copyuvmCode, setupkvmCode, mappagesCode, kallocCode, freevmCode_safe]

@[simp] theorem acquiresleepCode_safe (k : Nat) :
    (acquiresleepCode k).Safe SpinLock.rank .ptable [] := by
  simp [acquiresleepCode, SpinLock.rank]

@[simp] theorem releasesleepCode_safe (k : Nat) :
    (releasesleepCode k).Safe SpinLock.rank .ptable [] := by
  simp [releasesleepCode, SpinLock.rank]

@[simp] theorem holdingsleepCode_safe (k : Nat) :
    (holdingsleepCode k).Safe SpinLock.rank .ptable [] := by
  simp [holdingsleepCode]

@[simp] theorem iderwCode_safe (k : Nat) : (iderwCode k).Safe SpinLock.rank .ptable [] := by
  simp [iderwCode, SpinLock.rank]

@[simp] theorem breadCode_safe : breadCode.Safe SpinLock.rank .ptable [] := by
  simp [breadCode, bgetCode]

@[simp] theorem bwriteCode_safe : bwriteCode.Safe SpinLock.rank .ptable [] := by
  simp [bwriteCode]

@[simp] theorem brelseCode_safe : brelseCode.Safe SpinLock.rank .ptable [] := by
  simp [brelseCode]

@[simp] theorem beginOpCode_safe : beginOpCode.Safe SpinLock.rank .ptable [] := by
  simp [beginOpCode, SpinLock.rank]

@[simp] theorem logWriteCode_safe : logWriteCode.Safe SpinLock.rank .ptable [] := by
  simp [logWriteCode]

@[simp] theorem installTransCode_safe : installTransCode.Safe SpinLock.rank .ptable [] := by
  simp [installTransCode]

@[simp] theorem writeHeadCode_safe : writeHeadCode.Safe SpinLock.rank .ptable [] := by
  simp [writeHeadCode]

@[simp] theorem endOpCode_safe : endOpCode.Safe SpinLock.rank .ptable [] := by
  simp [endOpCode, commitCode, writeLogCode, SpinLock.rank]

@[simp] theorem ballocCode_safe : ballocCode.Safe SpinLock.rank .ptable [] := by
  simp [ballocCode, bzeroCode]

@[simp] theorem bfreeCode_safe : bfreeCode.Safe SpinLock.rank .ptable [] := by
  simp [bfreeCode, readsbCode]

@[simp] theorem igetCode_safe : igetCode.Safe SpinLock.rank .ptable [] := by
  simp [igetCode]

@[simp] theorem iupdateCode_safe : iupdateCode.Safe SpinLock.rank .ptable [] := by
  simp [iupdateCode]

@[simp] theorem ilockCode_safe : ilockCode.Safe SpinLock.rank .ptable [] := by
  simp [ilockCode]

@[simp] theorem iunlockCode_safe : iunlockCode.Safe SpinLock.rank .ptable [] := by
  simp [iunlockCode]

@[simp] theorem iputCode_safe : iputCode.Safe SpinLock.rank .ptable [] := by
  simp [iputCode, itruncCode]

@[simp] theorem iunlockputCode_safe : iunlockputCode.Safe SpinLock.rank .ptable [] := by
  simp [iunlockputCode]

@[simp] theorem bmapCode_safe : bmapCode.Safe SpinLock.rank .ptable [] := by
  simp [bmapCode]

@[simp] theorem readiCode_safe : readiCode.Safe SpinLock.rank .ptable [] := by
  simp [readiCode, consolereadCode, SpinLock.rank]

@[simp] theorem writeiCode_safe : writeiCode.Safe SpinLock.rank .ptable [] := by
  simp [writeiCode, consolewriteCode]

@[simp] theorem dirlookupCode_safe : dirlookupCode.Safe SpinLock.rank .ptable [] := by
  simp [dirlookupCode]

@[simp] theorem dirlinkCode_safe : dirlinkCode.Safe SpinLock.rank .ptable [] := by
  simp [dirlinkCode]

@[simp] theorem namexCode_safe : namexCode.Safe SpinLock.rank .ptable [] := by
  simp [namexCode, idupCode]

@[simp] theorem filecloseCode_safe : filecloseCode.Safe SpinLock.rank .ptable [] := by
  simp [filecloseCode, pipecloseCode, kfreeCode, SpinLock.rank]

@[simp] theorem exitCode_safe : exitCode.Safe SpinLock.rank .ptable [] := by
  simp [exitCode]

@[simp] theorem createCode_safe : createCode.Safe SpinLock.rank .ptable [] := by
  simp [createCode, iallocCode]

@[simp] theorem forkCode_safe : forkCode.Safe SpinLock.rank .ptable [] := by
  simp [forkCode, allocprocCode, filedupCode, idupCode, kallocCode, kfreeCode]

@[simp] theorem waitCode_safe : waitCode.Safe SpinLock.rank .ptable [] := by
  have hrank : ∀ l ∈ [SpinLock.ptable], l.rank < 2 := by simp [SpinLock.rank]
  simp [waitCode, kmem_safe hrank, freevmCode_safe hrank]

@[simp] theorem execCode_safe : execCode.Safe SpinLock.rank .ptable [] := by
  simp [execCode, setupkvmCode, mappagesCode, kallocCode, freevmCode_safe]

end Safe

/-- A lock or release call that takes none of its printing branches: lock finds the lock taken
by a holder whose priority needs no boost, release is not made by the holder. -/
def Syscall.Quiet : Syscall → Prop
  | lock t p id => ∀ k, lockIndex id = some k →
      (t.locks k).held ≠ 0 ∧ ∀ h, (t.locks k).holder = some h → (t.proc h).priority ≤ (t.proc p).priority
  | release t p id => ∀ k, lockIndex id = some k →
      ¬ ((t.locks k).held = 1 ∧ (t.locks k).holder = some p)
  | _ => True

theorem sysLock_out_quiet {t : Table} {p : Slot} {id : Option Int}
    (h : (Syscall.lock t p id).Quiet) :
    (sysLock t p id).out = [] := by
  unfold sysLock
  split
  next => rfl
  next k hk =>
    obtain ⟨hheld, hprio⟩ := h k hk
    simp only [hheld, if_false]
    split
    next => rfl
    next q hq => simp [Int.not_lt.mpr (hprio q hq)]

theorem sysRelease_out_quiet {t : Table} {p : Slot} {id : Option Int}
    (h : (Syscall.release t p id).Quiet) : (sysRelease t p id).out = [] := by
  unfold sysRelease
  split
  next => rfl
  next k hk => rw [if_neg (h k hk)]

theorem sysLockCode_safe {t : Table} {p : Slot} {id : Option Int}
    (h : (Syscall.lock t p id).Quiet) :
    (sysLockCode t p id).Safe SpinLock.rank .ptable [] := by
  unfold sysLockCode
  split <;> simp [sysLock_out_quiet h, myprocCode, printsCode]

theorem sysReleaseCode_safe {t : Table} {p : Slot} {id : Option Int}
    (h : (Syscall.release t p id).Quiet) :
    (sysReleaseCode t p id).Safe SpinLock.rank .ptable [] := by
  unfold sysReleaseCode
  split <;> simp [sysRelease_out_quiet h, myprocCode, printsCode]

theorem Syscall.code_safe {call : Syscall} (h : call.Quiet) :
    call.code.Safe SpinLock.rank .ptable [] := by
  cases call with
  | lock t p id => exact sysLockCode_safe h
  | release t p id => exact sysReleaseCode_safe h
  | pipe => simp [code, sysPipeCode, pipeallocCode, fileallocCode, kallocCode, kfreeCode]
  | read => simp [code, filereadCode, pipereadCode, SpinLock.rank]
  | write => simp [code, filewriteCode, pipewriteCode, SpinLock.rank]
  | sbrk => simp [code, growprocCode, deallocuvmCode, kfreeCode]
  | kill => simp [code, killCode]
  | fstat => simp [code, filestatCode]
  | dup => simp [code, filedupCode]
  | sleep => simp [code, sysSleepCode, SpinLock.rank]
  | uptime => simp [code, sysUptimeCode]
  | nice => simp [code, sysNiceCode]
  | dump => simp [code, sysDumpCode]
  | «open» => simp [code, sysOpenCode, fileallocCode]
  | chdir => simp [code, sysChdirCode]
  | mknod => simp [code, sysMknodCode]
  | mkdir => simp [code, sysMkdirCode]
  | unlink => simp [code, sysUnlinkCode, isdiremptyCode]
  | link => simp [code, sysLinkCode]
  | _ => simp [code]

theorem trapSyscallCode_safe {call : Syscall} (h : call.Quiet) :
    (trapSyscallCode call).Safe SpinLock.rank .ptable [] := by
  simp [trapSyscallCode, Syscall.code_safe h]

theorem Irq.handler_safe (irq : Irq) : irq.handler.Safe SpinLock.rank .ptable [] := by
  cases irq with
  | ide => simp [handler, ideintrCode, SpinLock.rank]
  | console => simp [handler, consoleintrCode, procdumpCode, SpinLock.rank]
  | timer => simp [handler, SpinLock.rank]
  | spurious | fault => simp [handler]

theorem trapIrqCode_safe (irq : Irq) : (trapIrqCode irq).Safe SpinLock.rank .ptable [] := by
  simp [trapIrqCode, Irq.handler_safe irq, yieldCode]

theorem forkretCode_safe : forkretCode.Safe SpinLock.rank .ptable [] := by
  simp [forkretCode, iinitCode, initlogCode, readsbCode]

/-- One way through a piece of kernel code. -/
abbrev Route (c : KernelCode) := { path : List (Action SpinLock) // c.Path .ptable path }

/-- What the processors may do next: enter the kernel, go on to the next lock operation, or
schedule. A new thread starts in forkret with ptable.lock held. -/
inductive KernelMove (C : Type)
  | syscall (c : C) (call : Syscall) (route : Route (trapSyscallCode call))
  | interrupt (c : C) (irq : Irq) (route : Route (trapIrqCode irq))
  | idleInterrupt (c : C) (irq : Irq) (route : Route irq.handler)
  | fork (route : Route forkretCode)
  | advance (c : C)
  | dispatch (c : C) (i : Nat)
  | rescan (c : C)

def KernelMove.toMove {C : Type} : KernelMove C → LockOrder.Move C SpinLock
  | syscall c _ route => .call c route.1
  | interrupt c _ route => .interrupt c route.1
  | idleInterrupt c _ route => .idleInterrupt c route.1
  | fork route => .spawn (.release .ptable :: route.1)
  | advance c => .advance c
  | dispatch c i => .dispatch c i
  | rescan c => .rescan c

abbrev Processors (C : Type) := LockOrder.Machine C SpinLock

def Processors.boot (C : Type) : Processors C := LockOrder.Machine.boot .ptable

def Processors.step {C : Type} [DecidableEq C] [Fintype C] (s : Processors C) (m : KernelMove C) :
    Option (Processors C) :=
  LockOrder.Machine.step .ptable s m.toMove

/-- The move does not start a lock or release call that prints. -/
def KernelMove.Quiet {C : Type} : KernelMove C → Prop
  | syscall _ call _ => call.Quiet
  | _ => True

theorem KernelMove.admissible {C : Type} {m : KernelMove C} (h : m.Quiet) :
    m.toMove.Admissible SpinLock.rank .ptable := by
  cases m with
  | syscall c call route =>
    exact fun _ _ => LockOrder.ordered_of_safe route.2 (trapSyscallCode_safe h)
  | interrupt c irq route =>
    exact fun _ _ => LockOrder.ordered_of_safe route.2 (trapIrqCode_safe irq)
  | idleInterrupt c irq route =>
    exact fun _ _ => LockOrder.ordered_of_safe route.2 (Irq.handler_safe irq)
  | fork route =>
    have hnil : LockOrder.Ordered SpinLock.rank .ptable [] [] [] := rfl
    have hroute := LockOrder.ordered_of_safe route.2 forkretCode_safe hnil
    exact ⟨by simp, by simpa using hroute⟩
  | advance c | dispatch c i | rescan c => trivial

/-- As long as no lock or release call prints, no circle of processors spin for each other's
locks, and ptable.lock is never held by a processor that goes for cons.lock. -/
theorem spinlocks_no_cycle_while_quiet {C : Type} [DecidableEq C] [Fintype C]
    {l : List (KernelMove C)} {s : Processors C}
    (hl : Runs.Meets Processors.step (fun _ m => m.Quiet) (Processors.boot C) l)
    (h : Runs.exec Processors.step (Processors.boot C) l = some s) :
    (∀ c, ¬ Relation.TransGen s.Waits c c) ∧
      ∀ c, SpinLock.ptable ∈ (s.cpu c).held → ¬ s.Wants c .cons := by
  have hs : s.Sound SpinLock.rank .ptable :=
    Runs.invariant_of_meets LockOrder.Machine.boot_sound
      (fun _ _ _ hs hm hstep => LockOrder.step_sound hs (KernelMove.admissible hm) hstep) hl h
  refine ⟨LockOrder.sound_no_cycle hs, fun c hheld hw => ?_⟩
  exact absurd (LockOrder.sound_wants_rank hs hw hheld) (by decide)

theorem trapSyscallCode_path {call : Syscall} {path : List (Action SpinLock)}
    (h : call.code.Path .ptable path) : (trapSyscallCode call).Path .ptable path := by
  have hp := (((Code.Path.inl (d := exitCode) .skip).seq (.done (c := cprintfCode))).seq h).seq
    (.done (c := cprintfCode)) |>.seq (Code.Path.inl (d := exitCode) .skip)
  simpa [trapSyscallCode, Code.opt] using hp

theorem consoleintrCode_path : consoleintrCode.Path .ptable
    [.acquire .cons, .acquire .ptable, .release .ptable, .release .cons] :=
  (Code.Path.locked (.again (.locked .skip) .done)).seq (.inl .skip)

/-- lock(0) of a free lock takes ptable.lock and, inside it, cons.lock to print. -/
theorem sysLockCode_boot_path : (sysLockCode Table.boot 0 (some 0)).Path .ptable
    [.acquire .ptable, .acquire .cons, .release .cons, .release .ptable] :=
  (Code.Path.inl .skip).seq (.locked (Code.Path.seq (.locked .skip) .skip))

/-- An invalid lock call and a key pressed at the console, on two processors. -/
def quietRun : List (KernelMove (Fin 2)) :=
  [.fork ⟨[], .inl .skip⟩, .advance 0, .dispatch 0 0, .advance 0,
    .syscall 0 (.lock Table.boot 0 (some 7)) ⟨[], trapSyscallCode_path (.inl .skip)⟩,
    .idleInterrupt 1 .console ⟨_, consoleintrCode_path⟩, .advance 1, .advance 1]

theorem spinlocks_no_cycle_while_quiet_run :
    ∃ s, Runs.exec Processors.step (Processors.boot (Fin 2)) quietRun = some s ∧
      (∀ c, ¬ Relation.TransGen s.Waits c c) ∧
        ∀ c, SpinLock.ptable ∈ (s.cpu c).held → ¬ s.Wants c .cons := by
  have hrun : (Runs.exec Processors.step (Processors.boot (Fin 2)) quietRun).isSome = true := by
    decide
  obtain ⟨s, hs⟩ := Option.isSome_iff_exists.mp hrun
  refine ⟨s, hs, spinlocks_no_cycle_while_quiet ?_ hs⟩
  intro pre m post t hl _
  have hm : m ∈ quietRun := by simp [hl]
  simp only [quietRun, List.mem_cons, List.not_mem_nil, or_false] at hm
  rcases hm with rfl | rfl | rfl | rfl | rfl | rfl | rfl | rfl
  all_goals simp [KernelMove.Quiet, Syscall.Quiet, lockIndex]

/-- One processor is about to print inside sys_lock while the other handles a key. -/
def deadlockRun : List (KernelMove (Fin 2)) :=
  [.fork ⟨[], .inl .skip⟩, .advance 0, .dispatch 0 0, .advance 0,
    .syscall 0 (.lock Table.boot 0 (some 0)) ⟨_, trapSyscallCode_path sysLockCode_boot_path⟩,
    .idleInterrupt 1 .console ⟨_, consoleintrCode_path⟩, .advance 0, .advance 1]

theorem spinlocks_deadlock_run_has_cycle :
    ∃ s, Runs.exec Processors.step (Processors.boot (Fin 2)) deadlockRun = some s ∧
      Relation.TransGen s.Waits 0 0 := by
  have hend : (Runs.exec Processors.step (Processors.boot (Fin 2)) deadlockRun).map
      (fun s => ((s.cpu 0).held, (s.cpu 0).todo.head?, (s.cpu 1).held, (s.cpu 1).todo.head?)) =
        some ([.ptable], some (.acquire .cons), [.cons], some (.acquire .ptable)) := by decide
  obtain ⟨s, hs, he⟩ := Option.map_eq_some_iff.mp hend
  simp only [Prod.mk.injEq] at he
  obtain ⟨h0, w0, h1, w1⟩ := he
  have h01 : s.Waits 0 1 := ⟨.cons, w0, by simp [h1]⟩
  have h10 : s.Waits 1 0 := ⟨.ptable, w1, by simp [h0]⟩
  exact ⟨s, hs, (Relation.TransGen.single h01).tail h10⟩

end Xv6
