import RiscvKernel.Lib.Threads
import RiscvKernel.Lib.Bytes
import RiscvKernel.Block
import RiscvKernel.Bio
import RiscvKernel.Log
import RiscvKernel.BioAlone
import RiscvKernel.LogRuns
import RiscvKernel.LogCrash
import RiscvKernel.CacheInv
import RiscvKernel.BufList
import RiscvKernel.GroupCommit
import RiscvKernel.Capacity
import RiscvKernel.Lib.Seq
import RiscvKernel.Fs.Layout
import RiscvKernel.Fs.Model
import RiscvKernel.Fs.Blocks
import RiscvKernel.Fs.Owned
import RiscvKernel.Fs.Bmap
import RiscvKernel.Fs.Record
import RiscvKernel.Fs.File
import RiscvKernel.Fs.Image
import RiscvKernel.Fs.Bitmap
import RiscvKernel.Fs.Contents
import RiscvKernel.Fs.Trunc
import RiscvKernel.Fs.Dir
import RiscvKernel.Fs.Names
import RiscvKernel.Fs.Logged
import RiscvKernel.Kernel.Model
import RiscvKernel.Kernel.Syscalls
import RiscvKernel.Kernel.Seen
import RiscvKernel.Kernel.Sections
import RiscvKernel.Kernel.Solo
import RiscvKernel.Kernel.DirMap
import RiscvKernel.Lib.Ring
import RiscvKernel.Pipe.Model
import RiscvKernel.Pipe.Fifo
import RiscvKernel.Lib.Ranges
import RiscvKernel.Lib.Chain
import RiscvKernel.OpenFile.Model
import RiscvKernel.OpenFile.Sections
import RiscvKernel.OpenFile.Sharing
import RiscvKernel.OpenFile.Reading
import RiscvKernel.Lib.Radix
import RiscvKernel.Lib.Refs
import RiscvKernel.Vm.Layout
import RiscvKernel.Vm.Model
import RiscvKernel.Console
import RiscvKernel.Print
import RiscvKernel.Str
import RiscvKernel.Paths
import RiscvKernel.Kernel.Walk
import RiscvKernel.Kernel.Lookup
import RiscvKernel.Kernel.Holding
import RiscvKernel.Kernel.Create
import RiscvKernel.Kernel.NameCalls
import RiscvKernel.Vm.Pages
import RiscvKernel.Vm.Table
import RiscvKernel.Vm.Space
import RiscvKernel.Vm.Grow
import RiscvKernel.Vm.Release
import RiscvKernel.Vm.User
import RiscvKernel.Vm.Copyinstr
import RiscvKernel.Vm.Kalloc
import RiscvKernel.Vm.Fork
import RiscvKernel.Sys.Model
import RiscvKernel.Sys.Inv
import RiscvKernel.Sys.Files
import RiscvKernel.Sys.Fds
import RiscvKernel.Sys.Procs
import RiscvKernel.Sys.Memory
import RiscvKernel.Sys.Image
import RiscvKernel.Sys.Stack
import RiscvKernel.Sys.Exec
import RiscvKernel.Sys.Runs
import RiscvKernel.Sys.Safety
import RiscvKernel.Sys.Sbrk
import RiscvKernel.Sys.Argv
import RiscvKernel.Sys.Session
import RiscvKernel.Virtio.Model
import RiscvKernel.Virtio.Driver
import RiscvKernel.Virtio.Inv
import RiscvKernel.Virtio.Once
import RiscvKernel.Sched.Model
import RiscvKernel.Sched.Steps
import RiscvKernel.Sched.Handover
import RiscvKernel.Sched.Sleeplock
import RiscvKernel.Sched.Tree
import RiscvKernel.Sched.Wait
import RiscvKernel.Sched.Kill
import RiscvKernel.Sched.Interrupts
import RiscvKernel.Heap.Model
import RiscvKernel.Heap.Ring
import RiscvKernel.Heap.Malloc
import RiscvKernel.Heap.Correct
import RiscvKernel.Heap.Limits
