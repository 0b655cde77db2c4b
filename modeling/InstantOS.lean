import InstantOS.Memory.PmmReferences
import InstantOS.Memory.VmmPermissions
import InstantOS.Process.TableRun
import InstantOS.Tty.PtyOutput
import InstantOS.Tty.PtyEof
import InstantOS.Ipc.Requests
import InstantOS.Ipc.Surface
import InstantOS.Ipc.WindowFocus
import InstantOS.Process.StoreRun
import InstantOS.Ipc.SharedRun
import InstantOS.Sched.Preemption
import InstantOS.Sched.Family
import InstantOS.Process.SignalRun
import InstantOS.Process.IntervalTimer
import InstantOS.Fs.OpenFiles
import InstantOS.Net.TcpOffPath
import InstantOS.Memory.PmmPlacement
import InstantOS.Sync.KernelLock
import InstantOS.Fs.PinnedFiles
import InstantOS.Fs.Fifo
import InstantOS.Process.ElfLoad
import InstantOS.Memory.PmmSearch
import InstantOS.Fs.FatNames
import InstantOS.Fs.FatRead
import InstantOS.Fs.FatFormat
import InstantOS.Fs.Partition
import InstantOS.Net.SocketWait
