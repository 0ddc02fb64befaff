import NeoKernel.Block.Racing
import NeoKernel.Elf.Confined
import NeoKernel.Fs.ByteMap
import NeoKernel.Fs.Path
import NeoKernel.Fs.Ramfs
import NeoKernel.Fs.WaitFor
import NeoKernel.Ipc.MemfdFrames
import NeoKernel.Ipc.PerOpen
import NeoKernel.Ipc.SigQueue
import NeoKernel.Ipc.SignalWake
import NeoKernel.Ipc.StagedRead
import NeoKernel.Ipc.TempMask
import NeoKernel.Ipc.UnixClose
import NeoKernel.Net.Arrival
import NeoKernel.Net.Dhcp
import NeoKernel.Net.Loopback
import NeoKernel.Net.Netrx
import NeoKernel.Net.Release
import NeoKernel.Net.Stream
import NeoKernel.Net.VirtioTx
import NeoKernel.Sched.Accounting
import NeoKernel.Sync.EpollEdge
import NeoKernel.Sync.MutexProgress
import NeoKernel.Sync.PollQueue
import NeoKernel.Sync.Spinlock
import NeoKernel.Time.HrtimerExact
import NeoKernel.Time.WheelExact
import NeoKernel.Tty.VtMode
import NeoKernel.Vm.Counts
import NeoKernel.Vm.ExecTask
import NeoKernel.Vm.FaultRace
import NeoKernel.Vm.ForkTask
import NeoKernel.Vm.KernelStore
import NeoKernel.Vm.Views
import NeoKernel.Vm.Writable
