import Orchid.Core.Rules
import Orchid.Core.Sections
import Orchid.Core.LinkedList
import Orchid.Core.Bits
import Orchid.Core.ByteMem
import Orchid.Core.Radix
import Orchid.Scheduler.Model
import Orchid.Scheduler.RunQueue
import Orchid.Memory.Pmm
import Orchid.Memory.Vmm
import Orchid.Memory.PageTables
import Orchid.Memory.AddressSpace
import Orchid.Core.Tiling
import Orchid.Memory.Heap
import Orchid.Memory.HeapBlocks
import Orchid.Memory.HeapSafety
import Orchid.Process.Kernel
import Orchid.Process.HeapUse
import Orchid.Process.LoadQueue
import Orchid.Memory.Spaces
import Orchid.Process.LoadSpace
import Orchid.Process.KernelHalf
import Orchid.Process.Fork
import Orchid.Process.Owned
import Orchid.Process.Isolation
import Orchid.Process.Boot
import Orchid.Ipc.Model
import Orchid.Ipc.Wakeup
import Orchid.Syscall.UserCopy
import Orchid.Core.Ledger
import Orchid.Ipc.Rendezvous
import Orchid.Scheduler.Switch
import Orchid.Scheduler.Preemption
import Orchid.Memory.HeapCoalesced
import Orchid.Memory.Permissions
import Orchid.Process.Footprint
import Orchid.Process.ForkCopy
import Orchid.Process.ForkChild
import Orchid.Process.ForkFailed
import Orchid.Syscall.Exec
import Orchid.Process.CurrentSpace
import Orchid.Core.Ring
import Orchid.Device.KbdBuf
import Orchid.Core.Turns
import Orchid.Scheduler.RoundRobin
import Orchid.Ipc.Order
import Orchid.Ipc.Sleepers
import Orchid.Ipc.Irq
import Orchid.Core.SpinLock
import Orchid.Sync.LockOrder
import Orchid.Sync.SerialLines
import Orchid.Core.Interrupts
import Orchid.Sync.Interrupts
import Orchid.Core.Raster
import Orchid.Device.Font
import Orchid.Device.Console
import Orchid.Device.Terminal
import Orchid.Process.HeapVisible
import Orchid.Core.CString
import Orchid.Ipc.Bus
import Orchid.Process.UserEntry
import Orchid.Syscall.UserBytes
import Orchid.Process.LoadedImage
import Orchid.Process.LoadedStack
import Orchid.Memory.HeapRequests
import Orchid.Memory.HeapBacked
import Orchid.Syscall.Sleep
import Orchid.Core.Pit
import Orchid.Syscall.SleepTime
import Orchid.Ipc.OutOfMemory
import Orchid.Core.Numeral
import Orchid.Device.Print
import Orchid.Device.Printf
import Orchid.Memory.Hardware
import Orchid.Syscall.Read
import Orchid.Syscall.GetBinary
import Orchid.Syscall.ExecHeap
import Orchid.Core.X86
import Orchid.Trap.Frame
import Orchid.Core.Segments
import Orchid.Trap.Segments
import Orchid.Trap.TaskState
import Orchid.Core.Pic
import Orchid.Device.Pic
import Orchid.Trap.SyscallEntry
import Orchid.Trap.Exceptions
import Orchid.Syscall.ReadWait
import Orchid.Syscall.Write
import Orchid.Scheduler.Waiting
import Orchid.Core.UserCode
import Orchid.User.Init
import Orchid.User.Shell
import Orchid.User.Vfs
import Orchid.Process.ProcessList
import Orchid.Syscall.Retval
