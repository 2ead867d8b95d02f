import Xv6.Param
import Xv6.Lib.Writes
import Xv6.Lib.Dll
import Xv6.Lib.Shared
import Xv6.Lib.Prog
import Xv6.Lib.Ring
import Xv6.Lib.Monitor
import Xv6.Log.Redo
import Xv6.Log.Group
import Xv6.Bio.Cache
import Xv6.Bio.DeviceErrors
import Xv6.Fs.Layout
import Xv6.Fs.Icache
import Xv6.Fs.Store
import Xv6.Fs.Blocks
import Xv6.Fs.BlockSafety
import Xv6.Fs.Contents
import Xv6.Fs.ReadWrite
import Xv6.Fs.Image
import Xv6.Fs.Dirent
import Xv6.Fs.Iput
import Xv6.Fs.Namespace
import Xv6.Fs.Incore
import Xv6.Mkfs.Program
import Xv6.Mkfs.Format
import Xv6.Mkfs.Check
import Xv6.Fs.Links
import Xv6.Fs.Directory
import Xv6.Fs.Path
import Xv6.Fs.Filewrite
import Xv6.Fs.LogBudget
import Xv6.Mkfs.Boot
import Xv6.Fs.Alone
import Xv6.Fs.Calls
import Xv6.Fs.FullDir
import Xv6.Fs.SelfLock
import Xv6.Fs.CircularWait
import Xv6.Pipes
import Xv6.Console
import Xv6.Proc.Cpus
import Xv6.Proc.Family
import Xv6.Proc.Kill
import Xv6.Proc.SleepLock
import Xv6.Intr.Restored
import Xv6.Clock.ClearText
import Xv6.Clock.Indices
import Xv6.Ftable.Calls
import Xv6.Ftable.Refs
import Xv6.Fs.Open
import Xv6.Ide
import Xv6.Sh.Accepts
import Xv6.Sh.Runcmd
import Xv6.Sh.Redirs
import Xv6.Umalloc.Free
import Xv6.Umalloc.Malloc
import Xv6.Vm.Copy
import Xv6.Vm.Grow
import Xv6.Umalloc.Sbrk
import Xv6.Vm.Copyout
import Xv6.Vm.Exec
import Xv6.Syscall
import Xv6.Memmove
import Xv6.Grep
import Xv6.Mp
