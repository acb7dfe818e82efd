import Tachyon.CString
import Tachyon.Cga.Pointer
import Tachyon.Cpu
import Tachyon.Dyngdt
import Tachyon.Heap.Intact
import Tachyon.Heap.Window
import Tachyon.Intr.Dispatch
import Tachyon.Intr.Gates
import Tachyon.Lists.Runs
import Tachyon.Log.Buffer
import Tachyon.Log.Syscall
import Tachyon.Mboot.MemoryMap
import Tachyon.Mboot.Protect
import Tachyon.Mboot.RamDisk
import Tachyon.Paths.Path
import Tachyon.Pmem.Exhausted
import Tachyon.Pmem.Missed
import Tachyon.Pmem.SearchDown
import Tachyon.Pmem.Storage
import Tachyon.Pmem.Visits
import Tachyon.Rd
import Tachyon.Rtc
import Tachyon.Sched.Priority
import Tachyon.Sched.Remove
import Tachyon.Sched.RoundRobin
import Tachyon.Spinlocks
import Tachyon.Spl
import Tachyon.Stka.Faults
import Tachyon.Stka.Region
import Tachyon.Tasks.Creation
import Tachyon.Tasks.Leak
import Tachyon.Threads.Isr
import Tachyon.Threads.Locks
import Tachyon.Threads.Spaces
import Tachyon.Tmr.Lapic
import Tachyon.Tmr.Runs
import Tachyon.Tsc
import Tachyon.Vmem.Isolation
import Tachyon.Vmem.Rights
import Tachyon.Vmem.Uapi
