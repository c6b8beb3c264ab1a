import Xv6.LockOrder
import Xv6.ProcTable

namespace Xv6

open LockOrder (Code)

/-- The spinlocks of the kernel. A sleep lock is named by the spinlock inside it. -/
inductive SpinLock
  | ptable | cons | log | bcache | icache | ftable | ide | ticks | kmem
  | pipe (n : Nat)
  | sleeplock (n : Nat)
  deriving DecidableEq, Repr

abbrev KernelCode := Code SpinLock

def wakeupCode : KernelCode := .locked .ptable .skip

def yieldCode : KernelCode := .locked .ptable .sched

def killCode : KernelCode := .locked .ptable .skip

def cprintfCode : KernelCode := .locked .cons .skip

def procdumpCode : KernelCode := .loop cprintfCode

/-- myproc asks cpunum, which complains once when interrupts are on. -/
def myprocCode : KernelCode := cprintfCode.opt

def kallocCode : KernelCode := .locked .kmem .skip

def kfreeCode : KernelCode := .locked .kmem .skip

def mappagesCode : KernelCode := .loop kallocCode

def setupkvmCode : KernelCode := kallocCode ++ .loop mappagesCode

def deallocuvmCode : KernelCode := .loop kfreeCode

def freevmCode : KernelCode := deallocuvmCode ++ .loop kfreeCode ++ kfreeCode

def allocuvmCode : KernelCode :=
  .loop (kallocCode ++ mappagesCode) ++
    (.skip ||| kallocCode ++ cprintfCode ++ deallocuvmCode |||
      kallocCode ++ mappagesCode ++ cprintfCode ++ deallocuvmCode ++ kfreeCode)

def copyuvmCode : KernelCode := setupkvmCode ++ .loop (kallocCode ++ mappagesCode) ++ freevmCode.opt

def acquiresleepCode (k : Nat) : KernelCode :=
  .locked (.sleeplock k) (.loop (.sleepOn (.sleeplock k)))

def releasesleepCode (k : Nat) : KernelCode := .locked (.sleeplock k) wakeupCode

def holdingsleepCode (k : Nat) : KernelCode := .locked (.sleeplock k) .skip

def iderwCode (k : Nat) : KernelCode := holdingsleepCode k ++ .locked .ide (.loop (.sleepOn .ide))

def ideintrCode : KernelCode := .locked .ide wakeupCode.opt

def bgetCode (k : Nat) : KernelCode := .locked .bcache .skip ++ acquiresleepCode k

def breadCode : KernelCode := .pick fun k => bgetCode k ++ (iderwCode k).opt

def bwriteCode : KernelCode := .pick fun k => holdingsleepCode k ++ iderwCode k

def brelseCode : KernelCode :=
  .pick fun k => holdingsleepCode k ++ releasesleepCode k ++ .locked .bcache .skip

def beginOpCode : KernelCode := .locked .log (.loop (.sleepOn .log))

def logWriteCode : KernelCode := .locked .log .skip

def writeLogCode : KernelCode :=
  .loop (breadCode ++ breadCode ++ bwriteCode ++ brelseCode ++ brelseCode)

def writeHeadCode : KernelCode := breadCode ++ bwriteCode ++ brelseCode

def installTransCode : KernelCode :=
  .loop (breadCode ++ breadCode ++ bwriteCode ++ brelseCode ++ brelseCode)

def commitCode : KernelCode :=
  (writeLogCode ++ writeHeadCode ++ installTransCode ++ writeHeadCode).opt

def endOpCode : KernelCode :=
  .locked .log wakeupCode.opt ++ (commitCode ++ .locked .log wakeupCode).opt

def readsbCode : KernelCode := breadCode ++ brelseCode

def initlogCode : KernelCode :=
  readsbCode ++ (breadCode ++ brelseCode) ++ installTransCode ++ writeHeadCode

def iinitCode : KernelCode := readsbCode ++ cprintfCode

def bzeroCode : KernelCode := breadCode ++ logWriteCode ++ brelseCode

def ballocCode : KernelCode :=
  .loop (breadCode ++ brelseCode) ++ breadCode ++ logWriteCode ++ brelseCode ++ bzeroCode

def bfreeCode : KernelCode := readsbCode ++ breadCode ++ logWriteCode ++ brelseCode

def igetCode : KernelCode := .locked .icache .skip

def idupCode : KernelCode := .locked .icache .skip

def iallocCode : KernelCode :=
  .loop (breadCode ++ brelseCode) ++ breadCode ++ logWriteCode ++ brelseCode ++ igetCode

def iupdateCode : KernelCode := breadCode ++ logWriteCode ++ brelseCode

def ilockCode : KernelCode := .pick fun k => acquiresleepCode k ++ (breadCode ++ brelseCode).opt

def iunlockCode : KernelCode := .pick fun k => holdingsleepCode k ++ releasesleepCode k

def itruncCode : KernelCode :=
  .loop bfreeCode ++ (breadCode ++ .loop bfreeCode ++ brelseCode ++ bfreeCode).opt ++ iupdateCode

def iputCode : KernelCode :=
  .locked .icache .skip ++ (itruncCode ++ iupdateCode ++ .locked .icache .skip).opt

def iunlockputCode : KernelCode := iunlockCode ++ iputCode

def bmapCode : KernelCode :=
  ballocCode.opt ++ (breadCode ++ (ballocCode ++ logWriteCode).opt ++ brelseCode).opt

def consolereadCode : KernelCode :=
  iunlockCode ++ .locked .cons (.loop (.sleepOn .cons)) ++ ilockCode

def consolewriteCode : KernelCode := iunlockCode ++ .locked .cons .skip ++ ilockCode

def readiCode : KernelCode := consolereadCode ||| .loop (bmapCode ++ breadCode ++ brelseCode)

def writeiCode : KernelCode :=
  consolewriteCode ||| .loop (bmapCode ++ breadCode ++ logWriteCode ++ brelseCode) ++
    iupdateCode.opt

def dirlookupCode : KernelCode := .loop readiCode ++ igetCode.opt

def dirlinkCode : KernelCode := dirlookupCode ++ (iputCode ||| .loop readiCode ++ writeiCode)

def namexCode : KernelCode :=
  (igetCode ||| idupCode) ++ .loop (ilockCode ++ dirlookupCode ++ iunlockputCode) ++
    (.skip ||| ilockCode ++ dirlookupCode.opt ++ iunlockputCode ||| ilockCode ++
      iunlockCode ||| iputCode)

def fileallocCode : KernelCode := .locked .ftable .skip

def filedupCode : KernelCode := .locked .ftable .skip

def pipecloseCode : KernelCode := Code.pick (fun n => .locked (.pipe n) wakeupCode) ++ kfreeCode.opt

def filecloseCode : KernelCode :=
  .locked .ftable .skip ++ (.skip ||| pipecloseCode ||| beginOpCode ++ iputCode ++ endOpCode)

def pipeallocCode : KernelCode :=
  fileallocCode ++ fileallocCode.opt ++ kallocCode.opt ++ kfreeCode.opt ++ filecloseCode.opt ++
    filecloseCode.opt

def pipewriteCode : KernelCode :=
  .pick fun n => .locked (.pipe n) (.loop (wakeupCode ++ .sleepOn (.pipe n)) ++ wakeupCode.opt)

def pipereadCode : KernelCode :=
  .pick fun n => .locked (.pipe n) (.loop (.sleepOn (.pipe n)) ++ wakeupCode.opt)

def filestatCode : KernelCode := (ilockCode ++ iunlockCode).opt

def filereadCode : KernelCode := .skip ||| pipereadCode ||| ilockCode ++ readiCode ++ iunlockCode

def filewriteCode : KernelCode :=
  .skip ||| pipewriteCode ||| .loop
    (beginOpCode ++ ilockCode ++ writeiCode ++ iunlockCode ++ endOpCode)

def allocprocCode : KernelCode := .locked .ptable .skip ++ kallocCode.opt

def forkCode : KernelCode :=
  allocprocCode ++ (.skip ||| copyuvmCode ++ kfreeCode |||
    copyuvmCode ++ .loop filedupCode ++ idupCode ++ .locked .ptable .skip)

def exitCode : KernelCode := .loop filecloseCode ++ beginOpCode ++ iputCode ++ endOpCode ++ .stop

/-- The zombie's stack and page table are given back with ptable.lock held. -/
def waitCode : KernelCode := .locked .ptable (.loop .sched ++ (kfreeCode ++ freevmCode).opt)

def growprocCode : KernelCode := .skip ||| allocuvmCode ||| deallocuvmCode

def createCode : KernelCode :=
  namexCode ++ (.skip ||| ilockCode ++ dirlookupCode ++ iunlockputCode ++ ilockCode ++
    iunlockputCode.opt |||
    ilockCode ++ dirlookupCode ++ iallocCode ++ ilockCode ++ iupdateCode ++
      (iupdateCode ++ dirlinkCode ++ dirlinkCode).opt ++ dirlinkCode ++ iunlockputCode)

def execCode : KernelCode :=
  beginOpCode ++ namexCode ++ (endOpCode |||
    ilockCode ++ readiCode ++ setupkvmCode.opt ++
      .loop (readiCode ++ allocuvmCode.opt ++ .loop readiCode) ++
      (freevmCode.opt ++ iunlockputCode ++ endOpCode |||
        iunlockputCode ++ endOpCode ++ allocuvmCode ++ freevmCode))

def sysSleepCode : KernelCode := (Code.locked SpinLock.ticks (.loop (.sleepOn .ticks))).opt

def sysUptimeCode : KernelCode := .locked .ticks .skip

/-- One cprintf for each line of text a call prints. -/
def printsCode (out : List String) : KernelCode := out.foldr (fun _ c => cprintfCode ++ c) .skip

def sysLockCode (t : Table) (p : Slot) (id : Option Int) : KernelCode :=
  match lockIndex id with
  | none => myprocCode
  | some _ => myprocCode ++ .locked .ptable (printsCode (sysLock t p id).out)

def sysReleaseCode (t : Table) (p : Slot) (id : Option Int) : KernelCode :=
  match lockIndex id with
  | none => myprocCode
  | some _ => myprocCode ++ .locked .ptable (printsCode (sysRelease t p id).out)

def sysNiceCode : KernelCode := (Code.locked SpinLock.ptable .skip).opt

def sysLinkCode : KernelCode :=
  (beginOpCode ++ namexCode ++ (.skip ||| ilockCode ++ iunlockputCode |||
    ilockCode ++ iupdateCode ++ iunlockCode ++ namexCode ++
      (ilockCode ++ dirlinkCode ++ iunlockputCode ++ iputCode |||
        (ilockCode ++ dirlinkCode.opt ++ iunlockputCode).opt ++ ilockCode ++ iupdateCode ++ iunlockputCode)) ++
    endOpCode).opt

def isdiremptyCode : KernelCode := .loop readiCode

def sysUnlinkCode : KernelCode :=
  (beginOpCode ++ namexCode ++ (.skip |||
    ilockCode ++ (dirlookupCode ++ (ilockCode ++ isdiremptyCode ++ iunlockputCode).opt).opt ++
      iunlockputCode |||
    ilockCode ++ dirlookupCode ++ ilockCode ++ isdiremptyCode.opt ++ writeiCode ++
      iupdateCode.opt ++
      iunlockputCode ++ iupdateCode ++ iunlockputCode) ++ endOpCode).opt

def sysOpenCode : KernelCode :=
  (beginOpCode ++ (createCode ||| namexCode ++ ilockCode.opt) ++ (.skip ||| iunlockputCode |||
    fileallocCode ++ (filecloseCode.opt ++ iunlockputCode ||| iunlockCode)) ++ endOpCode).opt

def sysMkdirCode : KernelCode := beginOpCode ++ createCode.opt ++ iunlockputCode.opt ++ endOpCode

def sysMknodCode : KernelCode := beginOpCode ++ createCode.opt ++ iunlockputCode.opt ++ endOpCode

def sysChdirCode : KernelCode :=
  beginOpCode ++ namexCode.opt ++ (.skip ||| ilockCode ++ iunlockputCode |||
    ilockCode ++ iunlockCode ++ iputCode) ++ endOpCode

def sysPipeCode : KernelCode := (pipeallocCode ++ (filecloseCode ++ filecloseCode).opt).opt

def sysDumpCode : KernelCode := .loop cprintfCode

/-- The system calls; lock and release come with what they find in the process table. -/
inductive Syscall
  | fork | exit | wait | pipe | read | kill | exec | fstat | chdir | dup | getpid | sbrk | sleep
  | uptime | open | write | mknod | unlink | link | mkdir | close | nice
  | lock (t : Table) (p : Slot) (id : Option Int)
  | release (t : Table) (p : Slot) (id : Option Int)
  | strace | dump | eflag | sflag | fflag

def Syscall.code : Syscall → KernelCode
  | fork => forkCode
  | exit => exitCode
  | wait => waitCode
  | pipe => sysPipeCode
  | read => filereadCode
  | kill => killCode.opt
  | exec => execCode.opt
  | fstat => filestatCode
  | chdir => sysChdirCode
  | dup => filedupCode.opt
  | getpid | strace | eflag | sflag | fflag => .skip
  | sbrk => growprocCode
  | sleep => sysSleepCode
  | uptime => sysUptimeCode
  | .open => sysOpenCode
  | write => filewriteCode
  | mknod => sysMknodCode
  | unlink => sysUnlinkCode
  | link => sysLinkCode
  | mkdir => sysMkdirCode
  | close => filecloseCode.opt
  | nice => sysNiceCode
  | lock t p id => sysLockCode t p id
  | release t p id => sysReleaseCode t p id
  | dump => sysDumpCode

/-- The T_SYSCALL branch of trap, with the traces that syscall prints. -/
def trapSyscallCode (call : Syscall) : KernelCode :=
  exitCode.opt ++ .loop cprintfCode ++ call.code ++ .loop cprintfCode ++ exitCode.opt

inductive Irq
  | timer | ide | console | spurious | fault
  deriving DecidableEq, Repr

def consoleintrCode : KernelCode := .locked .cons (.loop wakeupCode) ++ procdumpCode.opt

def Irq.handler : Irq → KernelCode
  | timer => (Code.locked .ticks wakeupCode).opt
  | ide => ideintrCode
  | console => consoleintrCode
  | spurious => cprintfCode
  | fault => cprintfCode

/-- A device interrupt that finds a process on the processor. -/
def trapIrqCode (irq : Irq) : KernelCode :=
  irq.handler ++ exitCode.opt ++ yieldCode.opt ++ exitCode.opt

/-- What forkret does once it has released ptable.lock. -/
def forkretCode : KernelCode := (iinitCode ++ initlogCode).opt

end Xv6
