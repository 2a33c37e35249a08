import LearnOS.Slab.Kmalloc
import LearnOS.Vm.Proc

/-!
# The tables of the IPC objects

Shared memory, semaphore sets and message queues live in three pools. The
structures `shmblock`, `semblock` and `msg_queue` begin alike, and each process
keeps a list of nodes for the slots it refers to in each pool. What the pools
have in common is kept here in one table indexed by `IpcKind`: the search of
`ipc_hash.h`, the lists of nodes, and the end of a reference.

## Implementation notes

A slot lock is recorded only when a call returns with the lock held; a call that
releases what it acquired leaves it clear. The lists of nodes are lists, each
node with the address that `kmalloc` gave it. A reference count is an integer:
every increment goes with a node of its own, and memory has no room for `2 ^ 31`
of them. Copies to and from user space are arguments and results.
-/

namespace LearnOS.Ipc

open LearnOS Function

def SHMMAX : ℕ := 4096
def SEMMAX : ℕ := 4096
def MSGMAX : ℕ := 16
def MSQLEN_MAX : ℕ := 16

inductive IpcState where
  | UNUSED | ZOMBIE | USED
  deriving DecidableEq, Repr

inductive IpcKind where
  | shm | sem | msq
  deriving DecidableEq, Repr

def IpcKind.max : IpcKind → ℕ
  | .shm => SHMMAX
  | .sem => SEMMAX
  | .msq => MSGMAX

/-- `sizeof` of the nodes `proc_shmblock`, `proc_semblock`, `proc_msgblock`. -/
def IpcKind.nodeSize : IpcKind → ℕ
  | .shm => 32
  | .sem => 24
  | .msq => 24

/-- The fields that all three pools have. -/
structure IpcSlot where
  locked : Bool
  refCount : ℤ
  flag : ℕ
  key : ℕ
  state : IpcState

/-- A node of a process. Only shared memory uses `va`. -/
structure IpcNode where
  addr : ℕ
  flag : ℕ
  slot : ℕ
  va : ℕ

structure ShmBlock where
  sz : ℕ
  ptr : ℕ

structure WaitNode where
  addr : ℕ
  p : Fin NPROC

structure Sem where
  value : ℤ
  queue : List WaitNode

structure SemBlock where
  sz : ℕ
  ptr : ℕ
  sem : ℕ → Sem

structure SemBuf where
  semIndex : ℕ
  semOp : ℤ
  semFlg : ℕ

/-- `struct msgbuf`. -/
structure MsgBuf where
  mtype : ℤ
  length : ℕ
  mtext : Fin 496 → BitVec 8

structure MsgMsg where
  content : MsgBuf
  next : ℕ

structure MsgQueue where
  first : ℕ
  last : ℕ
  msgCount : ℤ
  maxlen : ℕ

/-- `struct freeva`, a run of free virtual pages. -/
structure FreeVa where
  addr : ℕ
  ptr : ℕ
  npg : ℕ

/-- The kernel with its IPC tables. The fields of `struct proc` that belong to
IPC are columns of the process table. `semCall` is the rest of a `semop` whose
process is asleep in it or has been woken. -/
structure Kernel where
  vm : VmState
  word : ℕ → ℕ
  cache : CacheId → KmemCache
  slot : IpcKind × ℕ → IpcSlot
  shmid : ℕ → ShmBlock
  semid : ℕ → SemBlock
  msqid : ℕ → MsgQueue
  msg : ℕ → MsgMsg
  nodes : Fin NPROC × IpcKind → List IpcNode
  freeva : Fin NPROC → List FreeVa
  semWant : Fin NPROC → ℤ
  semCall : Fin NPROC → Option (ℕ × List SemBuf)

namespace Kernel

def heap (k : Kernel) : KHeap := ⟨k.vm.mem, k.word, k.cache⟩

def setHeap (k : Kernel) (h : KHeap) : Kernel :=
  { k with vm := { k.vm with mem := h.mem }, word := h.word, cache := h.cache }

def setSlot (k : Kernel) (c : IpcKind) (id : ℕ) (b : IpcSlot) : Kernel :=
  { k with slot := update k.slot (c, id) b }

def setNodes (k : Kernel) (p : Fin NPROC) (c : IpcKind) (l : List IpcNode) : Kernel :=
  { k with nodes := update k.nodes (p, c) l }

def setShm (k : Kernel) (id : ℕ) (b : ShmBlock) : Kernel :=
  { k with shmid := update k.shmid id b }

def setSem (k : Kernel) (id : ℕ) (b : SemBlock) : Kernel :=
  { k with semid := update k.semid id b }

def setMsq (k : Kernel) (id : ℕ) (q : MsgQueue) : Kernel :=
  { k with msqid := update k.msqid id q }

def kmalloc (L : Layout) (sz : ℕ) (k : Kernel) : Kres (ℕ × Kernel) := do
  let (p, h) ← LearnOS.kmalloc L sz k.heap
  return (p, k.setHeap h)

def kmfree (L : Layout) (ptr sz : ℕ) (k : Kernel) : Kres Kernel := do
  let h ← LearnOS.kmfree L ptr sz k.heap
  return k.setHeap h

/-- A block whose first field is written at once. -/
def kmallocNode (L : Layout) (sz : ℕ) (k : Kernel) : Kres (ℕ × Kernel) := do
  let (p, k) ← k.kmalloc L sz
  if p = NULL then
    throw .nullStore
  return (p, k)

/-- A lock that was left held is never released. -/
def acquire (c : IpcKind) (id : ℕ) (k : Kernel) : Kres Unit :=
  if (k.slot (c, id)).locked then .error .deadlock else .ok ()

end Kernel

/-! ## Search for a key -/

/-- The loop of `AT_FUNC`, with the number of slots that are left. -/
def atLoop (k : Kernel) (c : IpcKind) (key : ℕ) : ℕ → ℕ → Option ℕ → Kres (Option ℕ)
  | 0, _, firstFree => .ok firstFree
  | n + 1, id, firstFree => do
      k.acquire c id
      if (k.slot (c, id)).key = key then
        return some id
      atLoop k c key n ((id + 1) % c.max)
        (if firstFree.isNone ∧ (k.slot (c, id)).state = .UNUSED then some id else firstFree)

/-- `shm_at`, `sem_at` and `msq_at`. The callers index their pool with the
result, and `-1` lies before it. -/
def ipcAt (c : IpcKind) (key : ℕ) (k : Kernel) : Kres ℕ := do
  match ← atLoop k c key c.max (key % c.max) none with
  | none => throw .undefined
  | some id => return id

/-- The index of a pool that a call takes from its argument once the argument
has been compared with the size of the pool. -/
def indexOf (id : ℤ) : Kres ℕ := if id < 0 then .error .undefined else .ok id.toNat

def flagCreate (flag : ℕ) : Bool := flag.testBit 15

def flagExcl (flag : ℕ) : Bool := flag.testBit 14

/-- `IPC_OWNER_MASK | IPC_OTHER_MASK | IPC_GROUP_MASK`. -/
def flagMode (flag : ℕ) : ℕ := flag % 2 ^ 12

/-- The `create` branch of `shmget`, `semget` and `msgget` fills the fields that
the pools share. -/
def IpcSlot.create (b : IpcSlot) (key flag : ℕ) : IpcSlot :=
  { b with flag := flagMode flag, key := key, state := .USED }

/-- The last critical section of a get, on the slot that the search returned: `create`
makes what a new slot refers to, and `share` records the reference of the caller. -/
def ipcGetAt (c : IpcKind) (key flag : ℕ) (create share : ℕ → Kernel → Kres Kernel) (id : ℕ)
    (k : Kernel) : Kres (ℤ × Kernel) := do
  k.acquire c id
  if flagCreate flag then
    if flagExcl flag ∧ (k.slot (c, id)).state ≠ .UNUSED then
      return (-2, k)
    else if (k.slot (c, id)).state = .UNUSED then do
      let k ← create id k
      let k ← share id (k.setSlot c id ((k.slot (c, id)).create key flag))
      return (id, k)
    else do
      let k ← share id k
      return (id, k)
  else if (k.slot (c, id)).state = .UNUSED then
    return (-1, k)
  else do
    let k ← share id k
    return (id, k)

/-- The common body of `shmget`, `semget` and `msgget`. -/
def ipcGet (c : IpcKind) (key flag : ℕ) (create share : ℕ → Kernel → Kres Kernel)
    (k : Kernel) : Kres (ℤ × Kernel) := do
  let id ← ipcAt c key k
  ipcGetAt c key flag create share id k

/-- The commands that `shmctl`, `semctl` and `msgctl` share. -/
def IPC_SET : ℤ := 0
def IPC_RMID : ℤ := 1
def IPC_STAT : ℤ := 2

/-! ## References -/

/-- `kmfree` of every message of a queue. A walk that does not end within the
count of the queue would not end at all. -/
def destructLoop (L : Layout) : ℕ → ℕ → Kernel → Kres Kernel
  | 0, a, k => if a = NULL then .ok k else .error .undefined
  | n + 1, a, k =>
    if a = NULL then .ok k
    else do
      let next := (k.msg a).next
      let k ← k.kmfree L a 512
      destructLoop L n next k

def shmReinit (L : Layout) (id : ℕ) (k : Kernel) : Kres Kernel := do
  if (k.slot (.shm, id)).refCount ≠ 0 then
    throw (.panic "shm_reinit.")
  let k ← k.kmfree L (k.shmid id).ptr (k.shmid id).sz
  return (k.setShm id ⟨0, NULL⟩).setSlot .shm id
    { k.slot (.shm, id) with key := 0, state := .UNUSED }

def semReinit (L : Layout) (id : ℕ) (k : Kernel) : Kres Kernel := do
  if (k.slot (.sem, id)).refCount ≠ 0 then
    throw (.panic "sem_reinit")
  let k ← k.kmfree L (k.semid id).ptr (24 * (k.semid id).sz)
  return (k.setSem id ⟨0, NULL, (k.semid id).sem⟩).setSlot .sem id
    { k.slot (.sem, id) with flag := 0, key := 0, state := .UNUSED }

def msqReinit (L : Layout) (id : ℕ) (k : Kernel) : Kres Kernel := do
  if ¬ ((k.slot (.msq, id)).refCount = 0 ∧ (k.slot (.msq, id)).state = .ZOMBIE) then
    throw (.panic "msq_reinit")
  let k ← destructLoop L (k.msqid id).msgCount.toNat (k.msqid id).first k
  return (k.setMsq id ⟨NULL, NULL, 0, MSQLEN_MAX⟩).setSlot .msq id
    { k.slot (.msq, id) with flag := 0, key := 0, state := .UNUSED }

def reinit (L : Layout) : IpcKind → ℕ → Kernel → Kres Kernel
  | .shm => shmReinit L
  | .sem => semReinit L
  | .msq => msqReinit L

/-- The count of a slot goes up. -/
def addRef (c : IpcKind) (id : ℕ) (k : Kernel) : Kernel :=
  k.setSlot c id { k.slot (c, id) with refCount := (k.slot (c, id)).refCount + 1 }

/-- The count of a slot goes down, and a zombie without references is
destroyed. -/
def dropRef (L : Layout) (c : IpcKind) (id : ℕ) (k : Kernel) : Kres Kernel :=
  let b := k.slot (c, id)
  let k := k.setSlot c id { b with refCount := b.refCount - 1 }
  if b.state = .ZOMBIE ∧ b.refCount - 1 = 0 then reinit L c id k else .ok k

/-- `proc_addsem` and `proc_addmsq` with the increment that follows each call. -/
def addNode (L : Layout) (c : IpcKind) (p : Fin NPROC) (id flag : ℕ) (k : Kernel) :
    Kres Kernel := do
  let (addr, k) ← k.kmallocNode L c.nodeSize
  return addRef c id (k.setNodes p c (⟨addr, flag, id, 0⟩ :: k.nodes (p, c)))

/-- `proc_remsem` and `proc_remmsq`: the first node of the process for the slot
goes. -/
def procRem (L : Layout) (c : IpcKind) (p : Fin NPROC) (id : ℕ) (k : Kernel) :
    Kres (ℤ × Kernel) :=
  match (k.nodes (p, c)).find? fun n => n.slot = id with
  | none => .ok (-1, k)
  | some n => do
      let k ← dropRef L c id
        (k.setNodes p c ((k.nodes (p, c)).eraseP fun n => n.slot = id))
      let k ← k.kmfree L n.addr c.nodeSize
      return (0, k)

/-- `proc_freesem` and `proc_freemsq`, along the list of the process. -/
def freeNodes (L : Layout) (c : IpcKind) (p : Fin NPROC) : List IpcNode → Kernel → Kres Kernel
  | [], k => .ok k
  | n :: rest, k => do
      k.acquire c n.slot
      let k ← dropRef L c n.slot (k.setNodes p c rest)
      let k ← k.kmfree L n.addr c.nodeSize
      freeNodes L c p rest k

/-- `copy_sem` and `copy_msg`, along the list of the parent. -/
def copyNodes (L : Layout) (c : IpcKind) (np : Fin NPROC) : List IpcNode → Kernel → Kres Kernel
  | [], k => .ok k
  | n :: rest, k => do
      let (addr, k) ← k.kmallocNode L c.nodeSize
      k.acquire c n.slot
      let k := addRef c n.slot k
      copyNodes L c np rest (k.setNodes np c (⟨addr, n.flag, n.slot, 0⟩ :: k.nodes (np, c)))

end LearnOS.Ipc
