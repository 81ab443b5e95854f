import X86Os.Lib.TransSys
import X86Os.Lib.Comp
import X86Os.Lib.Bytes
import X86Os.Lib.Exclusive
import X86Os.Lib.RefCount
import X86Os.Lib.RingBuf
import X86Os.Lib.Paired
import X86Os.Lib.Linked
import X86Os.Lib.CStr
import X86Os.Lib.Numeral
import X86Os.Kernel.Debug
import X86Os.Kernel.List
import X86Os.Kernel.Stdio
import X86Os.Kernel.Print
import X86Os.Kernel.Bitmap
import X86Os.Kernel.BitmapScan
import X86Os.Kernel.Memory
import X86Os.Kernel.Mmu
import X86Os.Kernel.SelfMap
import X86Os.Kernel.MemPool
import X86Os.Kernel.Paging
import X86Os.Kernel.PageAlloc
import X86Os.Kernel.PageLimits
import X86Os.Kernel.Heap
import X86Os.Kernel.Blocks
import X86Os.Kernel.PageSteps
import X86Os.Kernel.HeapInv
import X86Os.Kernel.HeapCalls
import X86Os.Kernel.HeapRuns
import X86Os.Userprog.AddressSpace
import X86Os.Userprog.Spaces
import X86Os.Thread.Task
import X86Os.Thread.TaskInv
import X86Os.Thread.Sched
import X86Os.Thread.Lock
import X86Os.Device.Ide
import X86Os.Device.IoQueue
import X86Os.Device.IdeRegs
import X86Os.Device.Channel
import X86Os.Device.Partitions
import X86Os.Device.PartitionWalk
import X86Os.Fs.Layout
import X86Os.Fs.Inode
import X86Os.Fs.IoBuf
import X86Os.Fs.State
import X86Os.Fs.Reclaim
import X86Os.Fs.File
import X86Os.Fs.FileContents
import X86Os.Fs.FileLimits
import X86Os.Fs.Dir
import X86Os.Fs.DirRead
import X86Os.Fs.Syscall
import X86Os.Fs.View
import X86Os.Fs.Tree
import X86Os.Fs.Frame
import X86Os.Fs.Lookup
import X86Os.Fs.Tables
import X86Os.Fs.Cache
import X86Os.Fs.Search
import X86Os.Fs.Calls
import X86Os.Fs.DirEdit
import X86Os.Fs.Format
import X86Os.Fs.FormatLayout
import X86Os.Fs.FilesysInit
import X86Os.Fs.Balanced
import X86Os.Fs.Balance
import X86Os.Fs.Resolved
import X86Os.Userprog.WaitExit
import X86Os.Userprog.ProcTable
import X86Os.Userprog.FdTable
import X86Os.Userprog.MissedExit
import X86Os.Userprog.Fork
import X86Os.Shell.Pipe
import X86Os.Shell.PipeTransfer
import X86Os.Shell.WashPath
import X86Os.Fs.DirStream
import X86Os.Fs.DirAdd
import X86Os.Fs.DirNames
import X86Os.Fs.DirDelete
import X86Os.Fs.Unlink
import X86Os.Fs.WholePath
import X86Os.Fs.DirRuns
import X86Os.Fs.BadFd
import X86Os.Fs.Offsets
import X86Os.Fs.Traceless
import X86Os.Fs.Getcwd
