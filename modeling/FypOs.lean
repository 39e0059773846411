import FypOs.Bio.Lru
import FypOs.Log.Crash
import FypOs.Log.Buffers
import FypOs.Fs.Inodes
import FypOs.Ipc.Counted
import FypOs.Dev.Virtio
import FypOs.Proc.Sleeplock
import FypOs.Proc.Spinlock
import FypOs.Proc.Pids
import FypOs.Proc.Wait
import FypOs.Proc.Sched
import FypOs.Vm.Isolation
import FypOs.Vm.Sv39
import FypOs.Fs.Reading
import FypOs.Sh.Run
import FypOs.Sh.Strings
import FypOs.Fs.Directory
import FypOs.Vm.Argv
import FypOs.Dev.Delivery
import FypOs.User.Grep
import FypOs.User.Ulib
import FypOs.User.Allocated
import FypOs.Vm.Sbrk
import FypOs.Fs.Append
