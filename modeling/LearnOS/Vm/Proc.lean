import LearnOS.Vm.PageTable
import Mathlib.Data.List.FinRange

/-!
# Processes and their address spaces

The parts of `proc.c`, `trap.c` and `sysproc.c` that create, grow, copy and
destroy user address spaces: `allocproc`, `fork`, `exit`, `wait`, `sys_sbrk` and
the page-fault branch of `usertrap`, with the loads and stores of user code.

## Implementation notes

A process keeps the fields these functions read. Pids, names, open files and
the scheduler's queues are left out. A process that owns IPC nodes is the
subject of the IPC modules.
-/

namespace LearnOS

open Function

inductive ProcState where
  | UNUSED | USED | SLEEPING | RUNNABLE | RUNNING | ZOMBIE | BLOCKED
  deriving DecidableEq, Repr

structure Proc where
  state : ProcState
  killed : Bool
  parent : Option (Fin NPROC)
  sz : ℕ
  ustackTop : ℕ
  pagetable : Option PageTable
  trapframe : ℕ

structure VmState where
  mem : KMem
  proc : Fin NPROC → Proc
  initproc : Fin NPROC

def VmState.setProc (s : VmState) (p : Fin NPROC) (pr : Proc) : VmState :=
  { s with proc := update s.proc p pr }

/-- Both the table of a process and memory after a function on them. -/
def VmState.setTable (s : VmState) (p : Fin NPROC) (pt : PageTable) (m : KMem) : VmState :=
  { s with mem := m, proc := update s.proc p { s.proc p with pagetable := some pt } }

/-! ## Creation and destruction -/

def procPagetable (L : Layout) (pageAlloc : PageAlloc) (trapframe : ℕ) (m : KMem) :
    Kres (Option PageTable × KMem) := do
  let (pt, m) ← uvmcreate pageAlloc m
  match pt with
  | none => return (none, m)
  | some pt => do
      let (r, pt, m) ← mappages pageAlloc pt TRAMPOLINE PGSIZE L.trampoline (PTE_R ||| PTE_X) m
      if r < 0 then do
        let m ← uvmfree L pt 0 m
        return (none, m)
      else do
        let (r, pt, m) ← mappages pageAlloc pt TRAPFRAME PGSIZE trapframe (PTE_R ||| PTE_W) m
        if r < 0 then do
          let (pt, m) ← uvmunmap L pt TRAMPOLINE 1 false m
          let m ← uvmfree L pt 0 m
          return (none, m)
        else return (some pt, m)

def procFreepagetable (L : Layout) (pt : PageTable) (sz : ℕ) (m : KMem) : Kres KMem := do
  let (pt, m) ← uvmunmap L pt TRAMPOLINE 1 false m
  let (pt, m) ← uvmunmap L pt TRAPFRAME 1 false m
  uvmfree L pt sz m

/-- The first lines of `freeproc`. -/
def freeTrapframe (L : Layout) (pr : Proc) (m : KMem) : Kres KMem :=
  if pr.trapframe ≠ 0 then kfree L pr.trapframe m else .ok m

/-- The address space part of `freeproc`. -/
def freeAddressSpace (L : Layout) (pr : Proc) (m : KMem) : Kres KMem :=
  match pr.pagetable with
  | none => .ok m
  | some pt => procFreepagetable L pt pr.sz m

/-- The fields that `freeproc` resets. -/
def Proc.reset (pr : Proc) : Proc :=
  { pr with
    state := .UNUSED, killed := false, parent := none, sz := 0, pagetable := none, trapframe := 0 }

def freeproc (L : Layout) (p : Fin NPROC) (s : VmState) : Kres VmState := do
  let m ← freeTrapframe L (s.proc p) s.mem
  let m ← freeAddressSpace L (s.proc p) m
  return { s with mem := m }.setProc p (s.proc p).reset

/-- The first process slot in a state. -/
def firstProc (s : VmState) (test : Proc → Bool) : Option (Fin NPROC) :=
  (List.finRange NPROC).find? fun i => test (s.proc i)

def allocproc (L : Layout) (pageAlloc : PageAlloc) (s : VmState) :
    Kres (Option (Fin NPROC) × VmState) :=
  match firstProc s fun pr => pr.state = .UNUSED with
  | none => .ok (none, s)
  | some np => do
      let (trapframe, m) ← pageAlloc s.mem
      let pr := { s.proc np with state := .USED, trapframe := trapframe }
      if trapframe = 0 then do
        let s ← freeproc L np ({ s with mem := m }.setProc np pr)
        return (none, s)
      else do
        let (pt, m) ← procPagetable L pageAlloc trapframe m
        match pt with
        | none => do
            let s ← freeproc L np ({ s with mem := m }.setProc np { pr with pagetable := none })
            return (none, s)
        | some pt =>
          return (some np, { s with mem := m }.setProc np { pr with pagetable := some pt })

/-- The machine code of the first process. -/
def initcode : List (BitVec 8) :=
  [0x17, 0x05, 0x00, 0x00, 0x13, 0x05, 0x45, 0x02,
    0x97, 0x05, 0x00, 0x00, 0x93, 0x85, 0x35, 0x02,
    0x93, 0x08, 0x70, 0x00, 0x73, 0x00, 0x00, 0x00,
    0x93, 0x08, 0x20, 0x00, 0x73, 0x00, 0x00, 0x00,
    0xef, 0xf0, 0x9f, 0xff, 0x2f, 0x69, 0x6e, 0x69,
    0x74, 0x00, 0x00, 0x24, 0x00, 0x00, 0x00, 0x00,
    0x00, 0x00, 0x00, 0x00]

/-- `memmove(pa, src, sz)` into the start of a page. -/
def KMem.storeBytes (m : KMem) (pa : ℕ) (src : List (BitVec 8)) : KMem :=
  { m with frame := update m.frame (pa / PGSIZE) fun off =>
      src.getD off (m.frame (pa / PGSIZE) off) }

def uvmfirst (pageAlloc : PageAlloc) (pt : PageTable) (src : List (BitVec 8)) (m : KMem) :
    Kres (PageTable × KMem) := do
  if src.length ≥ PGSIZE then
    throw (.panic "uvmfirst: more than a page")
  let (mem, m) ← pageAlloc m
  if mem = NULL then
    throw .nullStore
  let m := m.memset mem 0
  let (_, pt, m) ← mappages pageAlloc pt 0 PGSIZE mem (PTE_W ||| PTE_R ||| PTE_X ||| PTE_U) m
  return (pt, m.storeBytes mem src)

/-- The first process. The result of `allocproc` is not checked. -/
def userinit (L : Layout) (pageAlloc : PageAlloc) (s : VmState) : Kres VmState := do
  let (p, s) ← allocproc L pageAlloc s
  match p with
  | none => throw .nullLoad
  | some p =>
    match (s.proc p).pagetable with
    | none => throw .nullLoad
    | some pt => do
        let (pt, m) ← uvmfirst pageAlloc pt initcode s.mem
        let s := { s.setTable p pt m with initproc := p }
        return s.setProc p { s.proc p with sz := PGSIZE, state := .RUNNABLE }

/-- A process without page table never runs; `uvmcopy` would walk the null
pointer. -/
def fork (L : Layout) (pageAlloc : PageAlloc) (p : Fin NPROC) (s : VmState) :
    Kres (Option (Fin NPROC) × VmState) := do
  let (np, s) ← allocproc L pageAlloc s
  match np with
  | none => return (none, s)
  | some np =>
    match (s.proc p).pagetable, (s.proc np).pagetable with
    | some old, some new => do
        let (r, old, new, m) ← uvmcopy L pageAlloc old new (s.proc p).sz s.mem
        let s := (s.setTable p old m).setTable np new m
        if r < 0 then do
          let s ← freeproc L np s
          return (none, s)
        else
          return (some np, s.setProc np { s.proc np with
            sz := (s.proc p).sz, parent := some p, state := .RUNNABLE })
    | _, _ => throw .nullLoad

def reparent (p initproc : Fin NPROC) (pr : Proc) : Proc :=
  if pr.parent = some p then { pr with parent := some initproc } else pr

def exit (p : Fin NPROC) (s : VmState) : Kres VmState :=
  if p = s.initproc then .error (.panic "init exiting")
  else .ok { s with
    proc := fun i =>
      if i = p then { reparent p s.initproc (s.proc i) with state := .ZOMBIE }
      else reparent p s.initproc (s.proc i) }

/-- One scan of the table in `wait`. -/
def wait (L : Layout) (p : Fin NPROC) (s : VmState) : Kres (Option (Fin NPROC) × VmState) :=
  match firstProc s fun pr => decide (pr.parent = some p ∧ pr.state = .ZOMBIE) with
  | none => .ok (none, s)
  | some pp => do
      let s ← freeproc L pp s
      return (some pp, s)

/-! ## Growth and faults -/

/-- The `int` `-n` as a `uint64`: the smallest `int` is its own negative. -/
def negAsUint64 (n : ℤ) : ℕ := if n = -2 ^ 31 then 2 ^ 64 - 2 ^ 31 else (-n).toNat

/-- The `uint64` `sz + n` for an `int` that is not positive. -/
def addInt (sz : ℕ) (n : ℤ) : ℕ := (((sz : ℤ) + n) % 2 ^ 64).toNat

/-- The result is the old size, or `-1`. -/
def sysSbrk (L : Layout) (p : Fin NPROC) (n : ℤ) (s : VmState) : Kres (ℤ × VmState) :=
  let pr := s.proc p
  if n > 0 then
    .ok (pr.sz, s.setProc p { pr with sz := (pr.sz + n.toNat) % 2 ^ 64 })
  else if pr.sz > negAsUint64 n then
    match pr.pagetable with
    | none => .error .nullLoad
    | some pt => do
        let (_, pt, m) ← uvmdealloc L pt pr.sz (addInt pr.sz n) s.mem
        return (pr.sz, s.setTable p pt m)
  else .ok (-1, s)

def setkilled (p : Fin NPROC) (s : VmState) : VmState :=
  s.setProc p { s.proc p with killed := true }

/-- The page-fault branch of `usertrap`. -/
def pageFault (L : Layout) (pageAlloc : PageAlloc) (p : Fin NPROC) (va : ℕ) (s : VmState) :
    Kres VmState :=
  match (s.proc p).pagetable with
  | none => .error .nullLoad
  | some pt => do
      match ← walk pt va with
      | none => throw .nullLoad
      | some pte =>
        if !Pte.has pte PTE_V then do
          let (r, pt, m) ← uvlazyalloc L pageAlloc pt va (s.proc p).sz (s.proc p).ustackTop s.mem
          let s := s.setTable p pt m
          return if r < 0 then setkilled p s else s
        else if Pte.has pte PTE_F then do
          if va ≥ (s.proc p).sz then
            return setkilled p s
          if (← cowpage pt va) ≠ 0 then
            return setkilled p s
          let (page, pt, m) ← cowalloc L pageAlloc pt (pgrounddown va) s.mem
          let s := s.setTable p pt m
          return if page = 0 then setkilled p s else s
        else return setkilled p s

/-- The branch followed by the test of `killed` at the end of `usertrap`. -/
def usertrapFault (L : Layout) (pageAlloc : PageAlloc) (p : Fin NPROC) (va : ℕ) (s : VmState) :
    Kres VmState := do
  let s ← pageFault L pageAlloc p va s
  if (s.proc p).killed then exit p s else return s

/-- A slot of the process table after `procinit`. -/
def Proc.unused : Proc :=
  { state := .UNUSED, killed := false, parent := none, sz := 0, ustackTop := 0,
    pagetable := none, trapframe := 0 }

/-- The state before the first process, with the pages of the allocator all free. -/
def bootState (b : Buddy) : VmState :=
  { mem := ⟨b, fun _ => 0, fun _ _ => 0⟩, proc := fun _ => .unused, initproc := ⟨0, by decide⟩ }

end LearnOS
