import LearnOS.Vm.Proc
import LearnOS.Lib.Segment
import LearnOS.Lib.Transition

/-!
# Processes and the multi-level feedback queue

The scheduling side of `proc.c`: the process table with its sleeping and waking,
and the queues of `insertMlfq`, `insertNextMlfqTail` and `removeMlfq`.

## Implementation notes

A queue node is an address with its fields in `node`. `kmalloc` may return any
address that is not in use, so the address is an argument of the functions that
allocate one; `used` lists the blocks that are allocated. The fields `want` of a
node and the priorities and run times of the queues, which `initMlfq` sets once,
are not part of the state. Address spaces are left out except for the question
whose page table a process runs on: `lender` names the process that a vforked
process took its page table from, for as long as both point to the same one.
`place` is the place inside the kernel at which a process sleeps.
-/

namespace LearnOS.Sched

open LearnOS LinkedList Transition Function Kres

def NMLFQ : ℕ := 4

instance : NeZero NMLFQ := ⟨by decide⟩

/-- The scheduling policies. -/
inductive SchedMethod where
  | SCHED_FCFS | SCHED_RR | SCHED_MLFQ
  deriving DecidableEq, Repr

/-- Where a process stands in the kernel. -/
inductive Place where
  | user | inWait | inVfork
  deriving DecidableEq, Repr

/-- The fields of `struct proc` that scheduling reads. -/
structure Task where
  state : ProcState
  chan : Option (Fin NPROC)
  killed : Bool
  pid : ℤ
  parent : Option (Fin NPROC)
  vforked : Bool
  lender : Option (Fin NPROC)
  place : Place
  priority : ℤ
  mlqlevel : Fin NMLFQ
  runtime : ℤ

/-- `struct procQueueNode`. -/
structure QueueNode where
  p : Fin NPROC
  next : ℕ

/-- The pointers of `struct MultiLevelFeedbackQueue`. -/
structure MlfQueue where
  head : ℕ
  tail : ℕ

/-- The process table and the run queues. `used` has the blocks of nodes in use. -/
structure SchedState where
  method : SchedMethod
  proc : Fin NPROC → Task
  initproc : Fin NPROC
  nextpid : ℤ
  queue : Fin NMLFQ → MlfQueue
  node : ℕ → QueueNode
  used : List ℕ

/-- `mlfqueue[i].priority`. -/
def queuePriority (i : Fin NMLFQ) : ℤ := 2 * (i : ℕ) + 1

/-- `mlfqueue[i].runtime`. -/
def queueRuntime (i : Fin NMLFQ) : ℤ := (i : ℕ) + 1

namespace SchedState

def next (s : SchedState) (a : ℕ) : ℕ := (s.node a).next

def owner (s : SchedState) (a : ℕ) : Fin NPROC := (s.node a).p

def setProc (s : SchedState) (p : Fin NPROC) (t : Task) : SchedState :=
  { s with proc := update s.proc p t }

def setQueue (s : SchedState) (i : Fin NMLFQ) (q : MlfQueue) : SchedState :=
  { s with queue := update s.queue i q }

def setNode (s : SchedState) (a : ℕ) (n : QueueNode) : SchedState :=
  { s with node := update s.node a n }

def setNext (s : SchedState) (a b : ℕ) : SchedState := s.setNode a { s.node a with next := b }

theorem setProc_self (s : SchedState) (p : Fin NPROC) (t : Task) : (s.setProc p t).proc p = t :=
  update_self ..

theorem setProc_of_ne (s : SchedState) {p q : Fin NPROC} (h : q ≠ p) (t : Task) :
    (s.setProc p t).proc q = s.proc q :=
  update_of_ne h ..

/-- The first process of the table that passes a test. -/
def firstProc (s : SchedState) (test : Task → Bool) : Option (Fin NPROC) :=
  (List.finRange NPROC).find? fun i => test (s.proc i)

end SchedState

/-! ## Queues -/

/-- `kmalloc` of a node at address `a`, whose fields are written at once. -/
def newNode (p : Fin NPROC) (a : ℕ) (s : SchedState) : Kres SchedState :=
  if a = NULL then .error .nullStore
  else if a ∈ s.used then .error .undefined
  else .ok ({ s with used := a :: s.used }.setNode a ⟨p, NULL⟩)

/-- `kfree` of a node. -/
def freeNode (a : ℕ) (s : SchedState) : Kres SchedState :=
  if a ∈ s.used then .ok { s with used := s.used.erase a } else .error .undefined

/-- The end of both insertions. -/
def appendNode (i : Fin NMLFQ) (a : ℕ) (s : SchedState) : SchedState :=
  let q := s.queue i
  if q.head = NULL then s.setQueue i ⟨a, a⟩
  else (s.setNext q.tail a).setQueue i ⟨q.head, a⟩

/-- The first queue whose priority is not below the given one. -/
def levelOf (priority : ℤ) : Option (Fin NMLFQ) :=
  (List.finRange NMLFQ).find? fun i => priority ≤ queuePriority i

/-- A process whose priority is above that of the last queue is not inserted. -/
def insertMlfq (p : Fin NPROC) (a : ℕ) (s : SchedState) : Kres (ℤ × SchedState) := do
  let s ← newNode p a s
  match levelOf (s.proc p).priority with
  | none => return (-1, s)
  | some i =>
    let s := appendNode i a s
    return ((i : ℕ), s.setProc p { s.proc p with mlqlevel := i, runtime := queueRuntime i })

/-- The level below, which the last queue does not have. -/
def nextLevel (i : Fin NMLFQ) : Fin NMLFQ :=
  if h : (i : ℕ) < NMLFQ - 1 then ⟨i + 1, by omega⟩ else i

/-- The process goes to the end of the queue below its own. -/
def insertNextMlfqTail (p : Fin NPROC) (a : ℕ) (s : SchedState) : Kres SchedState := do
  let s ← newNode p a s
  let i := nextLevel (s.proc p).mlqlevel
  let s := appendNode i a s
  return s.setProc p { s.proc p with mlqlevel := i, runtime := queueRuntime i }

/-- The loop of `removeMlfq` ends at the node before the one of `p`, or at the
last node. -/
def nodeBefore (p : Fin NPROC) (s : SchedState) (head : ℕ) : Option ℕ :=
  seek NULL s.next (fun a => s.next a = NULL ∨ s.owner (s.next a) = p) (s.used.length + 1) head

/-- A queue with a single node keeps its block allocated. -/
def removeMlfq (p : Fin NPROC) (s : SchedState) : Kres SchedState := do
  let i := (s.proc p).mlqlevel
  let q := s.queue i
  if q.head = NULL then
    throw .nullLoad
  if s.owner q.head = p ∧ s.next q.head = NULL then
    return s.setQueue i ⟨NULL, NULL⟩
  else if s.owner q.head = p then
    freeNode q.head (s.setQueue i { q with head := s.next q.head })
  else
    match nodeBefore p s q.head with
    | none => throw .undefined
    | some node =>
      let temp := s.next node
      if temp = NULL then
        return s
      else
        freeNode temp ((s.setNext node (s.next temp)).setQueue i
          { q with tail := if q.tail = temp then node else q.tail })

/-! ## Sleep and wakeup -/

/-- `wakeup(chan)` called by `me`. -/
def wakeup (me chan : Fin NPROC) (s : SchedState) : SchedState :=
  { s with proc := fun q =>
      if q ≠ me ∧ (s.proc q).state = .SLEEPING ∧ (s.proc q).chan = some chan then
        { s.proc q with state := .RUNNABLE }
      else s.proc q }

/-- `sleep(p, &wait_lock)` up to the call of `sched`. -/
def sleepAt (p : Fin NPROC) (place : Place) (s : SchedState) : SchedState :=
  s.setProc p { s.proc p with state := .SLEEPING, chan := some p, place := place }

/-! ## Processes -/

/-- The fields that `freeproc` resets. -/
def Task.reset (t : Task) : Task :=
  { t with
    state := .UNUSED, chan := none, killed := false, pid := 0, parent := none, vforked := false
    lender := none, place := .user, priority := 0, runtime := 0 }

/-- `freeproc` and `fork` look at the policy of the moment. -/
def dequeue (p : Fin NPROC) (s : SchedState) : Kres SchedState :=
  if s.method = .SCHED_MLFQ then removeMlfq p s else .ok s

/-- A new process gets a node under the policy of the queues. -/
def enqueue (p : Fin NPROC) (a : ℕ) (s : SchedState) : Kres SchedState :=
  if s.method = .SCHED_MLFQ then do
    let (_, s) ← insertMlfq p a s
    return s
  else .ok s

/-- The node is removed while the level is still there. -/
def freeproc (p : Fin NPROC) (s : SchedState) : Kres SchedState := do
  let s ← dequeue p s
  return s.setProc p (s.proc p).reset

/-- The slot that `allocproc` and `allocproc_v` fill. -/
def allocTask (np : Fin NPROC) (s : SchedState) : SchedState :=
  { s with nextpid := (s.nextpid + 1).bmod (2 ^ 32) }.setProc np
    { s.proc np with state := .USED, pid := s.nextpid, priority := 1, runtime := 1 }

/-- The new process when `fork` or `vfork` of `p` has filled it in. -/
def childTask (t parent : Task) (p : Fin NPROC) (vfork : Bool) : Task :=
  { t with
    vforked := vfork, lender := if vfork then some p else none, parent := some p
    state := .RUNNABLE, priority := parent.priority }

/-- The common part of `fork` and `vfork`. Without memory for the new process,
`freeproc` gives the slot back. -/
def forkWith (p : Fin NPROC) (a : ℕ) (memory vfork : Bool) (s : SchedState) :
    Kres (Option (Fin NPROC) × SchedState) :=
  match s.firstProc fun t => t.state = .UNUSED with
  | none => .ok (none, s)
  | some np =>
    let s := allocTask np s
    if memory then do
      let s ← enqueue np a (s.setProc np (childTask (s.proc np) (s.proc p) p vfork))
      return (some np, s)
    else do
      let s ← freeproc np s
      return (none, s)

/-- The child gets the priority of its parent. -/
def fork (p : Fin NPROC) (a : ℕ) (memory : Bool) (s : SchedState) : Kres SchedState := do
  let (_, s) ← forkWith p a memory false s
  return s

/-- The parent goes to sleep once its child may run. -/
def vfork (p : Fin NPROC) (a : ℕ) (memory : Bool) (s : SchedState) : Kres SchedState := do
  let (np, s) ← forkWith p a memory true s
  match np with
  | none => return s
  | some _ => return sleepAt p .inVfork s

/-- `vfork` returns from its `sleep`. -/
def vforkReturn (p : Fin NPROC) (s : SchedState) : SchedState :=
  s.setProc p { s.proc p with chan := none, place := .user }

/-- `exec` gives the process a page table of its own. -/
def execCommit (p : Fin NPROC) (s : SchedState) : SchedState :=
  s.setProc p { s.proc p with lender := none }

/-- The children of `p` get `initproc` as their parent. -/
def adopt (p : Fin NPROC) (s : SchedState) : SchedState :=
  { s with proc := fun q =>
      if (s.proc q).parent = some p then { s.proc q with parent := some s.initproc }
      else s.proc q }

/-- The children of `p` go to `initproc`, which is woken when there is one. -/
def reparent (p : Fin NPROC) (s : SchedState) : SchedState :=
  if ∃ q, (s.proc q).parent = some p then wakeup p s.initproc (adopt p s) else adopt p s

/-- `wakeup(p->parent)`. -/
def wakeParent (p : Fin NPROC) (s : SchedState) : SchedState :=
  match (s.proc p).parent with
  | none => s
  | some parent => wakeup p parent s

/-- `exit` up to the call of `sched`. -/
def exit (p : Fin NPROC) (s : SchedState) : Kres SchedState :=
  if p = s.initproc then .error (.panic "init exiting")
  else
    let s := wakeParent p (reparent p s)
    .ok (s.setProc p { s.proc p with state := .ZOMBIE })

/-- One scan of `wait`, entered from user mode or after a sleep. -/
def wait (p : Fin NPROC) (s : SchedState) : Kres SchedState :=
  let s := s.setProc p { s.proc p with chan := none, place := .user }
  match s.firstProc fun t => decide (t.parent = some p ∧ t.state = .ZOMBIE) with
  | some pp => freeproc pp s
  | none =>
    if (s.firstProc fun t => decide (t.parent = some p)).isNone ∨ (s.proc p).killed then .ok s
    else .ok (sleepAt p .inWait s)

/-- A process that sleeps becomes runnable. -/
def kill (pid : ℤ) (s : SchedState) : SchedState :=
  match s.firstProc fun t => decide (t.pid = pid) with
  | none => s
  | some q =>
    let t := s.proc q
    s.setProc q { t with
      killed := true, state := if t.state = .SLEEPING then .RUNNABLE else t.state }

/-- `yield` up to the call of `sched`. -/
def yield (p : Fin NPROC) (a : ℕ) (s : SchedState) : Kres SchedState :=
  let s := s.setProc p { s.proc p with state := .RUNNABLE }
  match s.method with
  | .SCHED_FCFS => .ok s
  | .SCHED_RR => .ok (s.setProc p { s.proc p with runtime := 1 })
  | .SCHED_MLFQ => do
      let s ← removeMlfq p s
      insertNextMlfqTail p a s

/-- The walk of `set_priority` through one queue. -/
def findInQueue (pid : ℤ) (s : SchedState) (i : Fin NMLFQ) : Option (Fin NPROC) :=
  match seek NULL s.next (fun a => (s.proc (s.owner a)).pid = pid) (s.used.length + 1)
      (s.queue i).head with
  | none => none
  | some a => if a = NULL then none else some (s.owner a)

/-- Under the policy of the queues only a process with a node is found. -/
def setPriority (pid priority : ℤ) (a : ℕ) (s : SchedState) : Kres (ℤ × SchedState) :=
  match s.method with
  | .SCHED_FCFS => .ok (-1, s)
  | .SCHED_RR =>
    match s.firstProc fun t => decide (t.pid = pid) with
    | none => .ok (-1, s)
    | some p => .ok (0, s.setProc p { s.proc p with priority := priority })
  | .SCHED_MLFQ =>
    match (List.finRange NMLFQ).findSome? (findInQueue pid s) with
    | none => .ok (-1, s)
    | some p => do
        let s ← removeMlfq p s
        let (_, s) ← insertMlfq p a (s.setProc p { s.proc p with priority := priority })
        return (0, s)

/-- The policy changes while the queues stay as they are. -/
def chrt (type : ℤ) (s : SchedState) : SchedState :=
  if type = 0 then { s with method := .SCHED_FCFS }
  else if type = 1 then { s with method := .SCHED_RR }
  else if type = 2 then { s with method := .SCHED_MLFQ }
  else s

/-! ## The first process -/

def Task.unused : Task :=
  { state := .UNUSED, chan := none, killed := false, pid := 0, parent := none, vforked := false
    lender := none, place := .user, priority := 0, mlqlevel := 0, runtime := 0 }

/-- The state after `procinit` and `initMlfq`. -/
def initSched : SchedState :=
  { method := .SCHED_MLFQ, proc := fun _ => .unused, initproc := 0, nextpid := 1
    queue := fun _ => ⟨NULL, NULL⟩, node := fun _ => ⟨0, NULL⟩, used := [] }

/-- The first process gets a node whatever the policy is. -/
def userinit (a : ℕ) (s : SchedState) : Kres SchedState :=
  match s.firstProc fun t => t.state = .UNUSED with
  | none => .error .nullStore
  | some p => do
      let s := allocTask p s
      let (_, s) ← insertMlfq p a
        { s.setProc p { s.proc p with state := .RUNNABLE } with initproc := p }
      return s

/-! ## Steps -/

/-- One system call, or the part of one up to a sleep. -/
inductive SchedOp where
  | fork (p : Fin NPROC) (a : ℕ) (memory : Bool)
  | vfork (p : Fin NPROC) (a : ℕ) (memory : Bool)
  | vforkReturn (p : Fin NPROC)
  | exec (p : Fin NPROC)
  | exit (p : Fin NPROC)
  | wait (p : Fin NPROC)
  | kill (p : Fin NPROC) (pid : ℤ)
  | yield (p : Fin NPROC) (a : ℕ)
  | setPriority (p : Fin NPROC) (pid priority : ℤ) (a : ℕ)
  | chrt (p : Fin NPROC) (type : ℤ)
  deriving DecidableEq

def SchedOp.caller : SchedOp → Fin NPROC
  | .fork p _ _ | .vfork p _ _ | .vforkReturn p | .exec p | .exit p | .wait p | .kill p _
  | .yield p _ | .setPriority p _ _ _ | .chrt p _ => p

/-- The process may run, and stands where the call is made. -/
def SchedOp.ready (op : SchedOp) (s : SchedState) : Bool :=
  let t := s.proc op.caller
  decide (t.state = .RUNNABLE ∨ t.state = .RUNNING) &&
    match op with
    | .wait _ => decide (t.place = .user ∨ t.place = .inWait)
    | .vforkReturn _ => decide (t.place = .inVfork)
    | _ => decide (t.place = .user)

def execOp (op : SchedOp) (s : SchedState) : Kres SchedState :=
  match op with
  | .fork p a memory => fork p a memory s
  | .vfork p a memory => vfork p a memory s
  | .vforkReturn p => .ok (vforkReturn p s)
  | .exec p => .ok (execCommit p s)
  | .exit p => exit p s
  | .wait p => wait p s
  | .kill _ pid => .ok (kill pid s)
  | .yield p a => yield p a s
  | .setPriority _ pid priority a => do
      let (_, s) ← setPriority pid priority a s
      return s
  | .chrt _ type => .ok (chrt type s)

/-- A call by a process that may make it. -/
def execReady (op : SchedOp) (s : SchedState) : Kres SchedState :=
  if op.ready s then execOp op s else .error .undefined

/-- A process that may make a call makes it. -/
structure SchedStep (s : SchedState) (op : SchedOp) (s' : SchedState) : Prop where
  ready : op.ready s = true
  call : execOp op s = .ok s'

theorem execReady_step (s : SchedState) (op : SchedOp) (s' : SchedState)
    (h : execReady op s = .ok s') : SchedStep s op s' := by
  simp only [execReady] at h
  split at h
  · rename_i hready
    exact ⟨hready, h⟩
  · cases h

/-- Calls executed after `userinit` make a run with a property. -/
theorem userinit_run (a : ℕ) (ops : List SchedOp)
    (P : SchedState → List (SchedOp × SchedState) → Prop)
    (h : (userinit a initSched).Yields fun s => Kres.Yields (execAll execReady ops s) (P s)) :
    ∃ s run, userinit a initSched = .ok s ∧ IsRun SchedStep s run ∧ run.map Prod.fst = ops ∧
      P s run := by
  obtain ⟨s, hs, run, hrun, htest⟩ := h
  obtain ⟨hrun, hops⟩ := execAll_isRun execReady_step hrun
  exact ⟨s, run, hs, hrun, hops, htest⟩

end LearnOS.Sched
