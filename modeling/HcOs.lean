import HcOs.Lib.Machine
import HcOs.Lib.LinkedList
import HcOs.Lib.Ownership
import HcOs.Lib.Bytes
import HcOs.Lib.Numeral
import HcOs.Boot.Loader
import HcOs.Kernel.Debug
import HcOs.Kernel.List
import HcOs.Kernel.ListSeq
import HcOs.Kernel.Bitmap
import HcOs.Kernel.Page
import HcOs.Kernel.BitmapScan
import HcOs.Kernel.PoolInit
import HcOs.Kernel.PageTable
import HcOs.Kernel.PageInv
import HcOs.Kernel.PageOps
import HcOs.Kernel.PageRun
import HcOs.Kernel.Heap
import HcOs.Kernel.HeapInv
import HcOs.Kernel.HeapOps
import HcOs.Kernel.HeapRun
import HcOs.Kernel.TaskHeap
import HcOs.Kernel.Tlb
import HcOs.Kernel.PoolLocks
import HcOs.Kernel.MallocTotal
import HcOs.Kernel.Ndebug
import HcOs.Thread.Sync
import HcOs.Thread.Semaphore
import HcOs.Thread.Lock
import HcOs.Thread.Schedule
import HcOs.Thread.ScheduleInv
import HcOs.Thread.ThreadStart
import HcOs.Thread.Switch
import HcOs.Thread.Pid
import HcOs.Thread.IntrFlag
import HcOs.Device.Ioqueue
import HcOs.Device.IoqueuePair
import HcOs.Device.Disk
import HcOs.Device.Sectors
import HcOs.Device.Transfer
import HcOs.Device.Timer
import HcOs.Device.BusyWait
import HcOs.Device.IdeRange
import HcOs.Stdio.CString
import HcOs.Stdio.CharSearch
import HcOs.Stdio.Vsprintf
import HcOs.Stdio.Sprintf
import HcOs.Stdio.Console
import HcOs.Stdio.PutInt
import HcOs.Device.Keyboard
import HcOs.Fs.Format
import HcOs.Fs.Layout
import HcOs.Fs.BlockAlloc
import HcOs.Fs.Inode
import HcOs.Fs.Dir
import HcOs.Fs.DirLayout
import HcOs.Fs.DirSync
import HcOs.Fs.DirRun
import HcOs.Fs.DirName
import HcOs.Fs.Fresh
import HcOs.Fs.BitmapSync
import HcOs.Fs.BitmapRun
import HcOs.Device.PartitionScan
import HcOs.Device.PartitionChain
import HcOs.Device.ScanSafe
import HcOs.Device.ScanEnds
import HcOs.Fs.Init
import HcOs.Fs.OpenInodes
import HcOs.Fs.InodeList
import HcOs.Fs.InodeRefs
import HcOs.Userprog.Process
import HcOs.Userprog.PageDir
import HcOs.Userprog.UserFree
import HcOs.Lib.X86
import HcOs.Kernel.Entry
import HcOs.Thread.Preempt
import HcOs.Lib.Segment
import HcOs.Userprog.Tss
import HcOs.Kernel.Interrupt
import HcOs.Lib.Pic
import HcOs.Kernel.Pic
import HcOs.Userprog.Syscall
import HcOs.Userprog.UserEntry
import HcOs.Userprog.KernelStack
import HcOs.Lib.Code
import HcOs.Thread.Locked
import HcOs.Device.ConsoleLock
import HcOs.Kernel.HeapLock
import HcOs.Device.DiskLock
