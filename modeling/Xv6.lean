import Xv6.IcacheRace
import Xv6.KernelLocks
import Xv6.LogReservation
import Xv6.FileTable
import Xv6.RefCounts
import Xv6.CrashRecovery
import Xv6.Kill
import Xv6.LockOwners
import Xv6.ExitWait
import Xv6.Restoration
import Xv6.RoundRobin
import Xv6.PipeFifo
import Xv6.PipeWakeup
import Xv6.ShellLines
import Xv6.BufferCache
import Xv6.Nice
import Xv6.ShellTracing
import Xv6.Straced
import Xv6.TraceHistory
import Xv6.TraceFilter
import Xv6.ShellParsing
import Xv6.MkfsKernel
import Xv6.ConsoleLines
import Xv6.IdeRefines
import Xv6.ForkMemory
import Xv6.UmallocSound
import Xv6.TraceNumbers
import Xv6.TraceNames
import Xv6.PriorityDispatch
import Xv6.CopyMemory
import Xv6.ExecImage
import Xv6.TraceSelection
import Xv6.ShellOptions
import Xv6.ShellStrings
import Xv6.Runcmd
import Xv6.UmallocSizes
import Xv6.Grep
import Xv6.Tail
import Xv6.FlowRename
import Xv6.Memmove
import Xv6.PagePool
import Xv6.SyscallArgs
import Xv6.BufferLru
import Xv6.FlowBounds
import Xv6.PathLookup
import Xv6.LogHistory
import Xv6.LinkedPaths
