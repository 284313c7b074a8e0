import Xv6.Library.Run
import Xv6.Library.Ranges
import Xv6.Library.LittleEndian
import Xv6.Library.Crash
import Xv6.Library.RingList
import Xv6.Library.Bytes
import Xv6.Library.CopyLoop
import Xv6.Param
import Xv6.Log.Admission
import Xv6.Log.Recovery
import Xv6.Proc.Table
import Xv6.Proc.Lifecycle
import Xv6.Proc.Pids
import Xv6.Bio.Cache
import Xv6.Bio.Invariants
import Xv6.Bio.Pinned
import Xv6.Vm.Copy
import Xv6.Vm.Pagetable
import Xv6.Vm.Stack
import Xv6.Fs.Layout
import Xv6.Fs.Inode
import Xv6.Fs.Dir
import Xv6.Fs.Itable
import Xv6.Fs.Syscall
import Xv6.Fs.Links
import Xv6.Library.Accounting
import Xv6.Fs.Bitmap
import Xv6.Fs.Alloc
import Xv6.Fs.Coherence
import Xv6.Library.CounterRing
import Xv6.Ipc.Pipe
import Xv6.User.Pingpong
import Xv6.User.Umalloc
import Xv6.User.Grep
import Xv6.User.Printf
import Xv6.User.Xargs
import Xv6.User.Find
import Xv6.User.Sh.Lex
import Xv6.User.Sh.Parse
import Xv6.User.Sh.Parsecmd
import Xv6.Fs.Mkfs
import Xv6.Fs.Content
import Xv6.Fs.SharedFile
import Xv6.Fs.Count
import Xv6.Fs.Path
import Xv6.Fs.Namex
import Xv6.Dev.Console
import Xv6.Dev.Virtio
import Xv6.Mem.Memmove
import Xv6.Lock.Spinlock
import Xv6.Library.RefCount
import Xv6.Fs.FileTable
import Xv6.Dev.Uart
import Xv6.Library.ListSeg
import Xv6.Vm.Kalloc
import Xv6.Library.Owner
import Xv6.Proc.Sched
import Xv6.Library.Radix
import Xv6.Vm.Sv39
import Xv6.Vm.Tables
