import LearnOS.Lib.LockProgram
import LearnOS.Ipc.Sem

/-!
# The locks of processes and IPC objects

`fork`, `vfork`, `exit`, `wait`, `kill` and `yield` of `proc.c` and `semop` of
`semaphore.c` as code over their locks: `wait_lock`, `pid_lock`, the lock of each
process and the lock of each IPC slot. A thread is a process inside the kernel.

## Implementation notes

What a process does under a lock it holds is one operation. `sched` gives the lock
of the process to the scheduler, which releases it; the process runs again when a
scheduler has taken the lock and found it `RUNNABLE`. Whether there is memory, and
whether a copy to user space succeeds, are arguments. The locks of the allocators
and of the file system are left out: no other lock is taken under them. Reference
counts, the run queues and the contents of the objects are left out except for
semaphores.
-/

namespace LearnOS.Sched

open LearnOS Ipc LockProgram Function

/-- `wait_lock`, `pid_lock`, and those of processes and of IPC objects. -/
inductive Lock where
  | wait
  | pid
  | proc (p : Fin NPROC)
  | ipc (c : IpcKind) (id : ℕ)
  deriving DecidableEq

/-- Processes sleep on the address of a process structure in `wait` and `vfork`,
and on the byte after it in `semop`. -/
inductive Chan where
  | null
  | proc (p : Fin NPROC)
  | sem (p : Fin NPROC)
  deriving DecidableEq

/-- A pointer to a process as a channel. -/
def Chan.ofPtr : Option (Fin NPROC) → Chan
  | none => .null
  | some p => .proc p

/-- The fields of `struct proc` that the locks protect. `pagetable` tells whether
the pointer is set, and `nodes` lists the slots that the process refers to. -/
structure ProcInfo where
  state : ProcState
  chan : Chan
  killed : Bool
  pid : ℤ
  parent : Option (Fin NPROC)
  vforked : Bool
  pagetable : Bool
  semWant : ℤ
  nodes : IpcKind → List ℕ

/-- A semaphore with the processes that wait for it. -/
structure SemInfo where
  value : ℤ
  queue : List (Fin NPROC)

/-- A slot of the table of semaphore sets. -/
structure SetInfo where
  used : Bool
  sz : ℕ
  sem : ℕ → SemInfo

/-- The data that the locks protect. -/
structure Shared where
  proc : Fin NPROC → ProcInfo
  initproc : Fin NPROC
  nextpid : ℤ
  set : ℕ → SetInfo

namespace Shared

def setProc (d : Shared) (p : Fin NPROC) (t : ProcInfo) : Shared :=
  { d with proc := update d.proc p t }

def setNodes (d : Shared) (p : Fin NPROC) (c : IpcKind) (l : List ℕ) : Shared :=
  d.setProc p { d.proc p with nodes := update (d.proc p).nodes c l }

def setSem (d : Shared) (id i : ℕ) (s : SemInfo) : Shared :=
  let b := d.set id
  { d with set := update d.set id ⟨b.used, b.sz, update b.sem i s⟩ }

end Shared

/-! ## Operations -/

/-- What one round of the loop of `semop` finds. -/
inductive SemAnswer where
  | range | nowait | wait | next | signal
  deriving DecidableEq

/-- Reads and writes between lock operations. -/
inductive Op where
  | state (p : Fin NPROC)
  | killed (p : Fin NPROC)
  | parent (p : Fin NPROC)
  | pagetable (p : Fin NPROC)
  | vforked (p : Fin NPROC)
  | nodes (p : Fin NPROC) (c : IpcKind)
  | allocpid (p : Fin NPROC)
  | claim (p : Fin NPROC) (pagetable : Bool)
  | addNode (p : Fin NPROC) (c : IpcKind) (id : ℕ)
  | dropNode (p : Fin NPROC) (c : IpcKind)
  | lend (p np : Fin NPROC)
  | setParent (np p : Fin NPROC)
  | setRunnable (p : Fin NPROC)
  | adopt (pp p : Fin NPROC)
  | handBack (p : Fin NPROC)
  | zombie (p : Fin NPROC)
  | reset (p : Fin NPROC)
  | kill (p : Fin NPROC) (pid : ℤ)
  | sleep (p : Fin NPROC) (chan : Chan)
  | wake (p : Fin NPROC) (chan : Chan)
  | run (p : Fin NPROC)
  | semUsed (id : ℕ)
  | semStep (p : Fin NPROC) (id : ℕ) (b : SemBuf)
  | semFirst (id i : ℕ)
  | semGrant (id i : ℕ) (q : Fin NPROC)

/-- What an operation reads. -/
def Op.Ans : Op → Type
  | .state _ => ProcState
  | .killed _ | .pagetable _ | .vforked _ | .kill .. | .semUsed _ => Bool
  | .parent _ | .adopt .. | .semFirst .. => Option (Fin NPROC)
  | .nodes .. => List ℕ
  | .semStep .. => SemAnswer
  | _ => Unit

/-- The fields that `freeproc` resets. -/
def ProcInfo.reset (t : ProcInfo) : ProcInfo :=
  { t with
    state := .UNUSED, chan := .null, killed := false, pid := 0, parent := none, vforked := false
    pagetable := false, semWant := 0 }

/-- One round of the loop of `semop`, without its sleep and its wakeups. -/
def semStep (p : Fin NPROC) (id : ℕ) (b : SemBuf) (d : Shared) : SemAnswer × Shared :=
  let s := (d.set id).sem b.semIndex
  if (d.set id).sz ≤ b.semIndex then (.range, d)
  else if b.semOp < 0 then
    if s.value < -b.semOp then
      if (b.semFlg % 2 ^ 16).testBit 16 then (.nowait, d)
      else
        (.wait, (d.setSem id b.semIndex { s with queue := s.queue ++ [p] }).setProc p
          { d.proc p with semWant := -b.semOp })
    else (.next, d.setSem id b.semIndex { s with value := s.value + b.semOp })
  else if b.semOp > 0 then
    (.signal, d.setSem id b.semIndex { s with value := wrap32 (s.value + b.semOp) })
  else (.next, d)

/-- The first process of the wait queue, when the value is enough for it. -/
def semFirst (id i : ℕ) (d : Shared) : Option (Fin NPROC) :=
  let s := (d.set id).sem i
  match s.queue with
  | [] => none
  | q :: _ => if (d.proc q).semWant > s.value then none else some q

/-- The first waiter leaves the queue with what it waited for. -/
def semGrant (id i : ℕ) (q : Fin NPROC) (d : Shared) : Shared :=
  let s := (d.set id).sem i
  (d.setSem id i ⟨s.value - (d.proc q).semWant, s.queue.tail⟩).setProc q
    { d.proc q with semWant := 0 }

/-- `exit` of a vforked process gives its lists to the parent. -/
def handBack (p : Fin NPROC) (d : Shared) : Shared :=
  match (d.proc p).vforked, (d.proc p).parent with
  | true, some q =>
    let d' := d.setProc q { d.proc q with nodes := (d.proc p).nodes }
    d'.setProc p { d'.proc p with nodes := fun _ => [] }
  | _, _ => d

def execOperation : (o : Op) → Shared → o.Ans × Shared
  | .state p, d => ((d.proc p).state, d)
  | .killed p, d => ((d.proc p).killed, d)
  | .parent p, d => ((d.proc p).parent, d)
  | .pagetable p, d => ((d.proc p).pagetable, d)
  | .vforked p, d => ((d.proc p).vforked, d)
  | .nodes p c, d => ((d.proc p).nodes c, d)
  | .allocpid p, d =>
    ((), { d with nextpid := (d.nextpid + 1).bmod (2 ^ 32) }.setProc p
      { d.proc p with pid := d.nextpid })
  | .claim p pagetable, d =>
    ((), d.setProc p { d.proc p with state := .USED, pagetable := pagetable })
  | .addNode p c id, d => ((), d.setNodes p c (id :: (d.proc p).nodes c))
  | .dropNode p c, d => ((), d.setNodes p c ((d.proc p).nodes c).tail)
  | .lend p np, d =>
    ((), d.setProc np { d.proc np with
      vforked := true, pagetable := (d.proc p).pagetable, nodes := (d.proc p).nodes })
  | .setParent np p, d => ((), d.setProc np { d.proc np with parent := some p })
  | .setRunnable p, d => ((), d.setProc p { d.proc p with state := .RUNNABLE })
  | .adopt pp p, d =>
    if (d.proc pp).parent = some p then
      (some d.initproc, d.setProc pp { d.proc pp with parent := some d.initproc })
    else (none, d)
  | .handBack p, d => ((), handBack p d)
  | .zombie p, d => ((), d.setProc p { d.proc p with state := .ZOMBIE })
  | .reset p, d => ((), d.setProc p (d.proc p).reset)
  | .kill p pid, d =>
    let t := d.proc p
    if t.pid = pid then
      (true, d.setProc p { t with
        killed := true, state := if t.state = .SLEEPING then .RUNNABLE else t.state })
    else (false, d)
  | .sleep p chan, d => ((), d.setProc p { d.proc p with chan := chan, state := .SLEEPING })
  | .wake p chan, d =>
    ((), if (d.proc p).state = .SLEEPING ∧ (d.proc p).chan = chan then
      d.setProc p { d.proc p with state := .RUNNABLE } else d)
  | .run p, d => ((), d.setProc p { d.proc p with state := .RUNNING, chan := .null })
  | .semUsed id, d => ((d.set id).used, d)
  | .semStep p id b, d => semStep p id b d
  | .semFirst id i, d => (semFirst id i d, d)
  | .semGrant id i q, d => ((), semGrant id i q d)

/-! ## Code -/

/-- What must hold for a lock to be taken. -/
inductive Guard where
  | always
  | runnable (p : Fin NPROC)

/-- How far the memory suffices for a new process: not for its trapframe and page
table, for these but not for the copy of its parent's pages, or for all. -/
inductive Memory where
  | none | table | full
  deriving DecidableEq

/-- System calls, the code in which a process starts to run, and the loops. -/
inductive LockCall where
  | semop (p : Fin NPROC) (id : ℕ) (sops : List SemBuf)
  | semLoop (p : Fin NPROC) (id : ℕ) (sops : List SemBuf)
  | semSignal (p : Fin NPROC) (id i : ℕ) (rest : List SemBuf)
  | fork (p : Fin NPROC) (memory : Memory)
  | vfork (p : Fin NPROC) (memory : Memory)
  | exit (p : Fin NPROC)
  | wait (p : Fin NPROC) (copied : Bool)
  | waitLoop (p : Fin NPROC) (copied : Bool)
  | kill (p : Fin NPROC) (pid : ℤ)
  | yield (p : Fin NPROC)
  | forkret (p : Fin NPROC)

/-- Programs with these locks and operations. -/
abbrev Code := Prog Lock Guard Op Op.Ans LockCall

/-- The code that runs under a lock of its own. -/
def locked (l : Lock) (o : Op) (k : o.Ans → Code) : Code :=
  .acquire l .always (.op o fun a => .release l (k a))

/-- `wakeup`, which takes the locks of the other processes in turn. -/
def wakeupCode (me : Fin NPROC) (chan : Chan) (k : Code) : Code :=
  (List.finRange NPROC).foldr
    (fun i k => if i = me then k else locked (.proc i) (.wake i chan) fun _ => k) k

/-- A process goes on when a scheduler has picked it. -/
def resumeCode (p : Fin NPROC) (k : Code) : Code :=
  .acquire (.proc p) (.runnable p) (.op (.run p) fun _ => .release (.proc p) k)

/-- `sleep`, which takes the lock of the process before it gives up `lk`. -/
def sleepCode (p : Fin NPROC) (chan : Chan) (lk : Lock) (k : Code) : Code :=
  .acquire (.proc p) .always (.release lk (.op (.sleep p chan) fun _ =>
    .release (.proc p) (resumeCode p (.acquire lk .always k))))

/-- `proc_freesem`, `proc_freemsq` and `proc_freeshm`. -/
def freeNodesCode (c : IpcKind) (p : Fin NPROC) (k : Code) : Code :=
  .op (.nodes p c) fun (l : List ℕ) => l.foldr
    (fun id k => .op (.dropNode p c) fun _ =>
      .acquire (.ipc c id) .always (.release (.ipc c id) k)) k

/-- `copy_sem`, `copy_msg` and `uvmcopy_shm`. -/
def copyNodesCode (c : IpcKind) (p np : Fin NPROC) (k : Code) : Code :=
  .op (.nodes p c) fun (l : List ℕ) => l.foldr
    (fun id k => .acquire (.ipc c id) .always (.release (.ipc c id)
      (.op (.addNode np c id) fun _ => k))) k

/-- `freeproc` frees nodes only if there is a page table. -/
def freeprocCode (p : Fin NPROC) (k : Code) : Code :=
  let reset : Code := .op (.reset p) fun _ => k
  .op (.pagetable p) fun (b : Bool) =>
    if b then
      freeNodesCode .sem p (freeNodesCode .msq p (.op (.vforked p) fun (v : Bool) =>
        if v then reset else freeNodesCode .shm p reset))
    else reset

/-- `allocproc` and `allocproc_v`, which return with the lock of the process held. -/
def allocCode (pagetable : Bool) (k : Fin NPROC → Code) : Code :=
  (List.finRange NPROC).foldr
    (fun i rest => .acquire (.proc i) .always (.op (.state i) fun (st : ProcState) =>
      if st = .UNUSED then
        locked .pid (.allocpid i) fun _ => .op (.claim i pagetable) fun _ => k i
      else .release (.proc i) rest)) .ret

/-- The new process becomes `RUNNABLE`, and its priority is copied. -/
def makeRunnable (np : Fin NPROC) (k : Code) : Code :=
  locked (.proc np) (.setRunnable np) fun _ =>
    .acquire (.proc np) .always (.release (.proc np) k)

/-- The child gets its parent under `wait_lock`. -/
def publishCode (p np : Fin NPROC) (k : Code) : Code :=
  .release (.proc np) (locked .wait (.setParent np p) fun _ => makeRunnable np k)

/-- `fork` copies the nodes under the lock of the child. -/
def forkCode (p : Fin NPROC) (memory : Memory) : Code :=
  allocCode (memory ≠ .none) fun np =>
    match memory with
    | .none | .table => freeprocCode np (.release (.proc np) .ret)
    | .full => copyNodesCode .shm p np (copyNodesCode .sem p np (copyNodesCode .msq p np
        (publishCode p np .ret)))

/-- The end of `vfork`. -/
def vforkSleep (p : Fin NPROC) : Code :=
  .acquire .wait .always (sleepCode p (.proc p) .wait (.release .wait .ret))

/-- `vfork` lends the nodes. -/
def vforkCode (p : Fin NPROC) (memory : Memory) : Code :=
  allocCode false fun np =>
    match memory with
    | .none => freeprocCode np (.release (.proc np) .ret)
    | .table | .full => .op (.lend p np) fun _ => publishCode p np (vforkSleep p)

/-- `reparent` wakes `initproc` for every child. -/
def reparentCode (p : Fin NPROC) (k : Code) : Code :=
  (List.finRange NPROC).foldr
    (fun pp k => .op (.adopt pp p) fun (r : Option (Fin NPROC)) =>
      match r with
      | none => k
      | some initproc => wakeupCode p (.proc initproc) k) k

/-- `exit` after it has taken `wait_lock`. -/
def exitLocked (p : Fin NPROC) : Code :=
  reparentCode p (.op (.handBack p) fun _ => .op (.parent p) fun (q : Option (Fin NPROC)) =>
    wakeupCode p (.ofPtr q) (.acquire (.proc p) .always (.op (.zombie p) fun _ =>
      .release .wait (.release (.proc p) .ret))))

/-- `exit` takes `wait_lock` first. -/
def exitCode (p : Fin NPROC) : Code := .acquire .wait .always (exitLocked p)

/-- The scan of `wait` from one process on. -/
def waitScan (p : Fin NPROC) (copied : Bool) : List (Fin NPROC) → Bool → Code
  | [], havekids =>
    if havekids then
      locked (.proc p) (.killed p) fun (killed : Bool) =>
        if killed then .release .wait .ret
        else sleepCode p (.proc p) .wait (.jump (.waitLoop p copied))
    else .release .wait .ret
  | pp :: rest, havekids => .op (.parent pp) fun (q : Option (Fin NPROC)) =>
    if q = some p then
      .acquire (.proc pp) .always (.op (.state pp) fun (st : ProcState) =>
        if st = .ZOMBIE then
          if copied then freeprocCode pp (.release (.proc pp) (.release .wait .ret))
          else .release (.proc pp) (.release .wait .ret)
        else .release (.proc pp) (waitScan p copied rest true))
    else waitScan p copied rest havekids

/-- `semop` checks the set under the lock and then takes it again. -/
def semopCode (p : Fin NPROC) (id : ℕ) (sops : List SemBuf) : Code :=
  if id ≥ SEMMAX then .ret
  else locked (.ipc .sem id) (.semUsed id) fun (used : Bool) =>
    if used then .acquire (.ipc .sem id) .always (.jump (.semLoop p id sops)) else .ret

/-- The loop of `semop`, which `IPC_NOWAIT` leaves with the lock held. -/
def semLoopCode (p : Fin NPROC) (id : ℕ) : List SemBuf → Code
  | [] => .release (.ipc .sem id) .ret
  | b :: rest => .op (.semStep p id b) fun (a : SemAnswer) =>
    match a with
    | .range => .release (.ipc .sem id) .ret
    | .nowait => .ret
    | .wait => sleepCode p (.sem p) (.ipc .sem id) (.jump (.semLoop p id rest))
    | .next => .jump (.semLoop p id rest)
    | .signal => .jump (.semSignal p id b.semIndex rest)

/-- The loop that wakes waiters. -/
def semSignalCode (p : Fin NPROC) (id i : ℕ) (rest : List SemBuf) : Code :=
  .op (.semFirst id i) fun (q : Option (Fin NPROC)) =>
    match q with
    | none => .jump (.semLoop p id rest)
    | some q => wakeupCode p (.sem q) (.op (.semGrant id i q) fun _ =>
      .jump (.semSignal p id i rest))

/-- `kill` searches the table, one lock at a time. -/
def killCode (pid : ℤ) : Code :=
  (List.finRange NPROC).foldr
    (fun q rest => locked (.proc q) (.kill q pid) fun (hit : Bool) =>
      if hit then .ret else rest) .ret

/-- `yield` until the process runs again. -/
def yieldCode (p : Fin NPROC) : Code :=
  locked (.proc p) (.setRunnable p) fun _ => resumeCode p .ret

def codeOf : LockCall → Code
  | .semop p id sops => semopCode p id sops
  | .semLoop p id sops => semLoopCode p id sops
  | .semSignal p id i rest => semSignalCode p id i rest
  | .fork p memory => forkCode p memory
  | .vfork p memory => vforkCode p memory
  | .exit p => exitCode p
  | .wait p copied => .acquire .wait .always (.jump (.waitLoop p copied))
  | .waitLoop p copied => waitScan p copied (List.finRange NPROC) false
  | .kill _ pid => killCode pid
  | .yield p => yieldCode p
  | .forkret p => resumeCode p .ret

/-- A process in user mode makes a call, and a new process starts in `forkret`.
`exit` of the first process is a panic. -/
def mayStart (t : Fin NPROC) (c : LockCall) (d : Shared) : Bool :=
  match c with
  | .semop p .. | .fork p _ | .vfork p _ | .wait p _ | .kill p _ | .yield p =>
    decide (t = p ∧ (d.proc p).state = .RUNNING)
  | .exit p => decide (t = p ∧ (d.proc p).state = .RUNNING ∧ p ≠ d.initproc)
  | .forkret p => decide (t = p ∧ (d.proc p).state = .RUNNABLE)
  | .semLoop .. | .semSignal .. | .waitLoop .. => false

/-- The scheduler takes the lock of a process that is `RUNNABLE`. -/
def Guard.holds : Guard → Shared → Bool
  | .always, _ => true
  | .runnable p, d => decide ((d.proc p).state = .RUNNABLE)

/-- The machine that runs the code of the calls. -/
def lockMachine : Machine Lock Guard Op Op.Ans LockCall Shared (Fin NPROC) :=
  ⟨execOperation, Guard.holds, codeOf, mayStart⟩

abbrev LockState := State Lock Guard Op Op.Ans LockCall Shared (Fin NPROC)

abbrev LockAct := Act (Fin NPROC) LockCall

/-- All processes are in user mode, or do not run. -/
structure Idle (s : LockState) : Prop where
  free : ∀ l, s.holder l = none
  user : ∀ p, s.prog p = .ret

/-- No process is in a call. -/
def idleState (d : Shared) : LockState := ⟨d, fun _ => none, fun _ => .ret⟩

theorem idle_idleState (d : Shared) : Idle (idleState d) := ⟨fun _ => rfl, fun _ => rfl⟩

def ProcInfo.unused : ProcInfo :=
  ⟨.UNUSED, .null, false, 0, none, false, false, 0, fun _ => []⟩

/-- The first process runs, and refers to the given semaphore sets; all sets have
one semaphore. -/
def oneProcess (sems : List ℕ) : Shared where
  proc p := if p = 0 then
      ⟨.RUNNING, .null, false, 1, none, false, true, 0, fun c => if c = .sem then sems else []⟩
    else .unused
  initproc := 0
  nextpid := 2
  set _ := ⟨true, 1, fun _ => ⟨0, []⟩⟩

/-- The next `n` steps of one process. -/
def steps (p : Fin NPROC) (n : ℕ) : List LockAct := List.replicate n (.run p)

end LearnOS.Sched
