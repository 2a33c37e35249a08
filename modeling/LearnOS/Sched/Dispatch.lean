import LearnOS.Sched.Placement

/-!
# The scheduler of one CPU

`scheduler` goes through the process table or through the queues and switches to
every process it finds `RUNNABLE`. The process runs until it calls `sched`, and the
traversal goes on from the pointer that was saved before the switch.

## Implementation notes

`Pos` is the place at which `scheduler` stands. One event is one turn of its loops,
one call of the running process or one `wakeup`, by the running process or by an
interrupt handler. The channels of processes that sleep on something else than a
process are kept in `chan`; the table of `Sched.Model` has the others.
-/

namespace LearnOS.Sched

open LearnOS LinkedList Transition Function Kres

/-- Where `scheduler` stands. -/
inductive Pos where
  | top
  /-- Before `proc[i]` in the loop of `SCHED_RR`. -/
  | rr (i : ℕ)
  | rrRun (i : Fin NPROC)
  /-- Before a node of the queue `i`. -/
  | mlfq (i : Fin NMLFQ) (node : ℕ)
  | mlfqRun (i : Fin NMLFQ) (next : ℕ) (p : Fin NPROC)
  deriving DecidableEq

/-- The process that has the CPU. -/
def Pos.running : Pos → Option (Fin NPROC)
  | .rrRun p | .mlfqRun _ _ p => some p
  | .top | .rr _ | .mlfq .. => none

/-- Where `scheduler` goes on after `swtch` has returned. -/
def Pos.resume : Pos → Pos
  | .rrRun i => .rr (i + 1)
  | .mlfqRun i next _ => .mlfq i next
  | pos => pos

/-- The queue that is traversed. -/
def Pos.level : Pos → Option (Fin NMLFQ)
  | .mlfq i _ | .mlfqRun i _ _ => some i
  | .top | .rr _ | .rrRun _ => none

/-- The pointer that was read before the switch. -/
def Pos.saved : Pos → ℕ
  | .mlfqRun _ next _ => next
  | _ => NULL

/-- The processes, the channels of sleepers, and the place in `scheduler`. -/
structure Cpu where
  s : SchedState
  chan : Fin NPROC → Option ℕ
  pos : Pos

namespace Cpu

/-- `p->state = RUNNING` before the switch. -/
def dispatch (p : Fin NPROC) (c : Cpu) : SchedState :=
  c.s.setProc p { c.s.proc p with state := .RUNNING }

/-- The head of the first queue. -/
def mlfqPass (c : Cpu) : Pos := .mlfq 0 (c.s.queue 0).head

/-- After the last node of a queue. -/
def afterQueue (i : Fin NMLFQ) (c : Cpu) : Pos :=
  if h : (i : ℕ) + 1 < NMLFQ then .mlfq ⟨i + 1, h⟩ (c.s.queue ⟨i + 1, h⟩).head else .top

/-- One turn of the loops of `scheduler`. The pass over the process table is followed
by the one over the queues. -/
def scan (c : Cpu) : Kres Cpu :=
  match c.pos with
  | .top =>
    match c.s.method with
    | .SCHED_FCFS => .error (.panic "TODO: fcfs\n")
    | .SCHED_RR => .ok { c with pos := .rr 0 }
    | .SCHED_MLFQ => .ok { c with pos := c.mlfqPass }
  | .rr i =>
    if h : i < NPROC then
      if (c.s.proc ⟨i, h⟩).state = .RUNNABLE then
        .ok { c with s := c.dispatch ⟨i, h⟩, pos := .rrRun ⟨i, h⟩ }
      else .ok { c with pos := .rr (i + 1) }
    else .ok { c with pos := c.mlfqPass }
  | .mlfq i node =>
    if node = NULL then .ok { c with pos := c.afterQueue i }
    else if node ∉ c.s.used then .error .undefined
    else if (c.s.proc (c.s.owner node)).state = .RUNNABLE then
      .ok { c with
        s := c.dispatch (c.s.owner node), pos := .mlfqRun i (c.s.next node) (c.s.owner node) }
    else .ok { c with pos := .mlfq i (c.s.next node) }
  | .rrRun _ | .mlfqRun .. => .error .undefined

/-- The process `p` goes on, or has called `sched`. -/
def settle (p : Fin NPROC) (s : SchedState) (c : Cpu) : Cpu :=
  { c with s := s, pos := if (s.proc p).state = .RUNNING then c.pos else c.pos.resume }

/-- A call of the running process. -/
def call (op : SchedOp) (c : Cpu) : Kres Cpu :=
  if c.pos.running = some op.caller ∧ op.ready c.s then do
    let s ← execOp op c.s
    return c.settle op.caller s
  else .error .undefined

/-- `sleep` on something else than a process. -/
def sleep (chan : ℕ) (c : Cpu) : Kres Cpu :=
  match c.pos.running with
  | none => .error .undefined
  | some p =>
    let s := c.s.setProc p { c.s.proc p with state := .SLEEPING, chan := none }
    .ok ({ c with chan := update c.chan p (some chan) }.settle p s)

/-- The process sleeps on `chan`, and is not the one that calls `wakeup`. -/
def sleepsOn (chan : ℕ) (c : Cpu) (q : Fin NPROC) : Prop :=
  c.pos.running ≠ some q ∧ (c.s.proc q).state = .SLEEPING ∧ (c.s.proc q).chan = none ∧
    c.chan q = some chan

instance (chan : ℕ) (c : Cpu) (q : Fin NPROC) : Decidable (c.sleepsOn chan q) :=
  inferInstanceAs (Decidable (_ ∧ _))

/-- `wakeup(chan)` by the running process or by an interrupt handler. -/
def wake (chan : ℕ) (c : Cpu) : Cpu :=
  let proc := fun q =>
    if c.sleepsOn chan q then { c.s.proc q with state := .RUNNABLE } else c.s.proc q
  { c with s := { c.s with proc := proc } }

end Cpu

/-- A step of `scheduler`, a call, a sleep or a wakeup. -/
inductive CpuEvent where
  | scan
  | call (op : SchedOp)
  | sleep (chan : ℕ)
  | wake (chan : ℕ)
  deriving DecidableEq

def execCpu : CpuEvent → Cpu → Kres Cpu
  | .scan, c => c.scan
  | .call op, c => c.call op
  | .sleep chan, c => c.sleep chan
  | .wake chan, c => .ok (c.wake chan)

def CpuStep (c : Cpu) (e : CpuEvent) (c' : Cpu) : Prop := execCpu e c = .ok c'

/-- The machine after `userinit`. -/
def bootCpu (s : SchedState) : Cpu := { s := s, chan := fun _ => none, pos := .top }

/-- The process that a step switches to. -/
def dispatched : CpuEvent × Cpu → Option (Fin NPROC)
  | (.scan, c) => c.pos.running
  | _ => none

/-- Events executed after `userinit` make a run with a property. -/
theorem bootCpu_run (a : ℕ) (es : List CpuEvent) (P : Cpu → List (CpuEvent × Cpu) → Prop)
    (h : (userinit a initSched).Yields fun s => Kres.Yields (execAll execCpu es (bootCpu s))
      (P (bootCpu s))) :
    ∃ s run, userinit a initSched = .ok s ∧ IsRun CpuStep (bootCpu s) run ∧
      run.map Prod.fst = es ∧ P (bootCpu s) run := by
  obtain ⟨s, hs, run, hrun, htest⟩ := h
  obtain ⟨hrun, hes⟩ := execAll_isRun (fun s a t (h : CpuStep s a t) => h) hrun
  exact ⟨s, run, hs, hrun, hes, htest⟩

/-! ## What a step does -/

variable {c c' : Cpu}

/-- A call is made by the process that runs, which goes on or has called `sched`. -/
theorem Cpu.call_ok {op : SchedOp} (h : c.call op = .ok c') :
    ∃ s', c.pos.running = some op.caller ∧ SchedStep c.s op s' ∧ c' = c.settle op.caller s' := by
  simp only [Cpu.call] at h
  split at h
  · rename_i hready
    simp only [bind_eq_ok, pure_eq_ok] at h
    obtain ⟨s', hs', rfl⟩ := h
    exact ⟨s', hready.1, ⟨hready.2, hs'⟩, rfl⟩
  · cases h

theorem Cpu.sleep_ok {chan : ℕ} (h : c.sleep chan = .ok c') :
    ∃ p, c.pos.running = some p ∧
      c'.s = c.s.setProc p { c.s.proc p with state := .SLEEPING, chan := none } ∧
      c'.pos = c.pos.resume := by
  simp only [Cpu.sleep] at h
  split at h
  · cases h
  · rename_i p hp
    cases h
    refine ⟨p, hp, rfl, if_neg ?_⟩
    simp [SchedState.setProc]

/-- A step of the pass over the queues. -/
theorem Cpu.scan_mlfq {i : Fin NMLFQ} {node : ℕ} (hpos : c.pos = .mlfq i node)
    (h : c.scan = .ok c') :
    node = NULL ∧ c' = { c with pos := c.afterQueue i } ∨
      node ≠ NULL ∧ (c.s.proc (c.s.owner node)).state = .RUNNABLE ∧
        c' = { c with
          s := c.dispatch (c.s.owner node)
          pos := .mlfqRun i (c.s.next node) (c.s.owner node) } ∨
      node ≠ NULL ∧ (c.s.proc (c.s.owner node)).state ≠ .RUNNABLE ∧
        c' = { c with pos := .mlfq i (c.s.next node) } := by
  simp only [Cpu.scan, hpos] at h
  split at h
  · rename_i hnull
    cases h
    exact Or.inl ⟨hnull, rfl⟩
  rename_i hnull
  split at h
  · cases h
  split at h
  · rename_i hrun
    cases h
    exact Or.inr (Or.inl ⟨hnull, hrun, rfl⟩)
  · rename_i hrun
    cases h
    exact Or.inr (Or.inr ⟨hnull, hrun, rfl⟩)

end LearnOS.Sched
