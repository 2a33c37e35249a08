import LearnOS.Lib.Transition
import LearnOS.Lib.LinkedList
import LearnOS.Lib.Bitmap
import LearnOS.Lib.Dyadic
import LearnOS.Lib.BuddySystem
import LearnOS.Lib.Ownership
import LearnOS.Param
import LearnOS.Buddy.Model
import LearnOS.Buddy.Refine
import LearnOS.Buddy.Run
import LearnOS.Mem.Kalloc
import LearnOS.Vm.Pte
import LearnOS.Vm.PageTable
import LearnOS.Vm.Proc
import LearnOS.Vm.Owned
import LearnOS.Vm.Teardown
import LearnOS.Vm.CopyLoop
import LearnOS.Vm.Fork
import LearnOS.Vm.RefCount
import LearnOS.Vm.Access
import LearnOS.Vm.Cow
import LearnOS.Lib.Segment
import LearnOS.Slab.Model
import LearnOS.Lib.Slots
import LearnOS.Slab.Pool
import LearnOS.Slab.Invariant
import LearnOS.Slab.Object
import LearnOS.Slab.Grow
import LearnOS.Slab.Alloc
import LearnOS.Slab.Large
import LearnOS.Slab.Cache
import LearnOS.Slab.Kmalloc
import LearnOS.Ipc.State
import LearnOS.Ipc.Shm
import LearnOS.Ipc.Sem
import LearnOS.Ipc.Msg
import LearnOS.Ipc.Proc
import LearnOS.Ipc.Tables
import LearnOS.Ipc.Effect
import LearnOS.Ipc.Attach
import LearnOS.Ipc.RefCount
import LearnOS.Ipc.Zombie
import LearnOS.Lib.Semaphore
import LearnOS.Ipc.SemQueue
import LearnOS.Ipc.SemWake
import LearnOS.Ipc.SemLedger
import LearnOS.Ipc.MsgChain
import LearnOS.Ipc.MsgFifo
import LearnOS.Ipc.FreeVa
import LearnOS.Sched.Model
import LearnOS.Sched.Queue
import LearnOS.Sched.Queued
import LearnOS.Sched.Placement
import LearnOS.Sched.Membership
import LearnOS.Sched.Vfork
import LearnOS.Lib.LockProgram
import LearnOS.Sched.Locks
import LearnOS.Sched.Deadlock
import LearnOS.Sched.LostWakeup
import LearnOS.Vm.Entry
import LearnOS.Lib.Coalesced
import LearnOS.Buddy.Coalesce
import LearnOS.Slab.Ledger
import LearnOS.Slab.Holders
import LearnOS.Slab.Reuse
import LearnOS.Ipc.Inversion
import LearnOS.Ipc.Frame
import LearnOS.Ipc.HeapTop
import LearnOS.Lib.Probe
import LearnOS.Ipc.Keys
import LearnOS.Lib.Mutex
import LearnOS.Ipc.Mutex
import LearnOS.Ipc.GetRace
import LearnOS.Ipc.Account
import LearnOS.Ipc.MsgSections
import LearnOS.Ipc.MsgQueue
import LearnOS.Ipc.MsgSearch
import LearnOS.Ipc.MsgLifetime
import LearnOS.Slab.Capacity
import LearnOS.Sched.TimeSlice
import LearnOS.Sched.Dispatch
import LearnOS.Sched.Traversal
import LearnOS.Sched.PriorityLaw
import LearnOS.Sched.RoundRobin
import LearnOS.Mem.FreePages
import LearnOS.Vm.LazyAlloc
import LearnOS.Vm.FaultTotal
import LearnOS.Vm.Sbrk
import LearnOS.Ipc.MsgSleep
import LearnOS.Ipc.SemAtomic
import LearnOS.Ipc.SemNowait
import LearnOS.Ipc.SemRange
import LearnOS.Ipc.LockPaths
import LearnOS.Ipc.GetClean
import LearnOS.Ipc.Handles
import LearnOS.Vm.ForkTables
import LearnOS.Vm.ForkFault
import LearnOS.Sched.Requeue
import LearnOS.Mem.Counted
import LearnOS.Ipc.WaitQueue
import LearnOS.Vm.Copy
import LearnOS.Ipc.Ctl
import LearnOS.Ipc.FreeVaReturn
import LearnOS.Ipc.AttachPerm
import LearnOS.Ipc.ForkFault
