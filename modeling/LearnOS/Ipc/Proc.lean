import LearnOS.Ipc.Shm
import LearnOS.Ipc.Sem
import LearnOS.Ipc.Msg
import LearnOS.Vm.RefCount

/-!
# Processes with IPC objects

`fork`, `exit`, `wait` and `kill` with the parts that concern IPC, and the steps
of the whole system.

## Implementation notes

A step is one system call, except that `semop` and `resume` are the critical
sections of `semop`. A process inside `semop` makes no other call. `fork` is the
fork of the address space followed by the three copies; the fields that the
source sets after the copies do not meet them. `vfork` is left out.
-/

namespace LearnOS.Ipc

open LearnOS Transition Kres

/-- What `freeproc` does for a process with a page table. -/
def freeIpc (L : Layout) (p : Fin NPROC) (k : Kernel) : Kres Kernel :=
  match (k.vm.proc p).pagetable with
  | none => .ok k
  | some _ => do
      let k ← procFreesem L p k
      let k ← procFreemsq L p k
      let k ← procFreeshm L p k
      let m ← freeAddressSpace L (k.vm.proc p) k.vm.mem
      return { k with vm := { k.vm with mem := m } }

def freeproc (L : Layout) (p : Fin NPROC) (k : Kernel) : Kres Kernel := do
  let m ← freeTrapframe L (k.vm.proc p) k.vm.mem
  let k ← freeIpc L p { k with vm := { k.vm with mem := m } }
  initFreeva L p ({ k with vm := k.vm.setProc p (k.vm.proc p).reset }.setWant p 0)

def fork (L : Layout) (p : Fin NPROC) (k : Kernel) : Kres (Option (Fin NPROC) × Kernel) := do
  let (np, vm) ← LearnOS.fork L (kalloc L) p k.vm
  let k := { k with vm := vm }
  match np with
  | none => return (none, k)
  | some np => do
      let k ← uvmcopyShm L np (k.nodes (p, .shm)) k
      let k ← copySem L p np k
      let k ← copyMsg L p np k
      return (some np, k)

def exit (p : Fin NPROC) (k : Kernel) : Kres Kernel := do
  let vm ← LearnOS.exit p k.vm
  return { k with vm := vm }

/-- One scan of the table in `wait`. -/
def wait (L : Layout) (p : Fin NPROC) (k : Kernel) : Kres (Option (Fin NPROC) × Kernel) :=
  match firstProc k.vm fun pr => decide (pr.parent = some p ∧ pr.state = .ZOMBIE) with
  | none => .ok (none, k)
  | some pp => do
      let k ← freeproc L pp k
      return (some pp, k)

/-- `kill` of the process in slot `q`. -/
def kill (q : Fin NPROC) (k : Kernel) : Kernel :=
  let pr := k.vm.proc q
  let state := if pr.state = .SLEEPING then .RUNNABLE else pr.state
  { k with vm := k.vm.setProc q { pr with killed := true, state := state } }

inductive Op where
  | shmget (p : Fin NPROC) (key size flag : ℕ) (r : ℤ)
  | shmat (p : Fin NPROC) (shmid : ℤ) (shmaddr : ℕ) (rdonly : Bool) (va : ℕ)
  | shmdt (p : Fin NPROC) (shmaddr : ℕ)
  | shmctl (p : Fin NPROC) (shmid cmd : ℤ) (bufFlag : ℕ)
  | semget (p : Fin NPROC) (key size flag : ℕ)
  | semop (p : Fin NPROC) (semid : ℤ) (ops : List SemBuf) (events : List SemEvent)
  | resume (p : Fin NPROC) (events : List SemEvent)
  | semctl (p : Fin NPROC) (semid semnum cmd val : ℤ) (array : ℕ → ℤ)
  | msgget (p : Fin NPROC) (key maxlen flag : ℕ)
  | msgsnd (p : Fin NPROC) (msqid : ℤ) (content : MsgBuf) (nowait : Bool) (r : ℤ)
  | msgrcv (p : Fin NPROC) (msqid : ℤ) (msgsz msgtype : ℕ) (nowait : Bool) (r : ℤ)
      (content : Option MsgBuf)
  | msgctl (p : Fin NPROC) (msqid cmd : ℤ) (maxlen flag : ℕ)
  | fork (p : Fin NPROC)
  | exit (p : Fin NPROC)
  | wait (p : Fin NPROC)
  | kill (p q : Fin NPROC)

/-- The process that makes the call of a step. -/
def Op.caller : Op → Fin NPROC
  | .shmget p .. | .shmat p .. | .shmdt p _ | .shmctl p .. | .semget p .. | .semop p ..
  | .resume p _ | .semctl p .. | .msgget p .. | .msgsnd p .. | .msgrcv p .. | .msgctl p ..
  | .fork p | .exit p | .wait p | .kill p _ => p

/-- What the kernel does in a step. -/
inductive Call (L : Layout) : Kernel → Op → Kernel → Prop
  | shmget {k k' : Kernel} {p : Fin NPROC} {key size flag : ℕ} {r : ℤ}
      (hcall : shmget L key size flag k = .ok (r, k')) :
      Call L k (.shmget p key size flag r) k'
  | shmat {k k' : Kernel} {p : Fin NPROC} {shmid : ℤ} {shmaddr va : ℕ} {rdonly : Bool}
      (hcall : shmat L p shmid shmaddr rdonly k = .ok (va, k')) :
      Call L k (.shmat p shmid shmaddr rdonly va) k'
  | shmdt {k k' : Kernel} {p : Fin NPROC} {shmaddr : ℕ}
      (hcall : shmdt L p shmaddr k = .ok k') : Call L k (.shmdt p shmaddr) k'
  | shmctl {k k' : Kernel} {p : Fin NPROC} {shmid cmd r : ℤ} {bufFlag : ℕ}
      (hcall : shmctl L shmid cmd bufFlag k = .ok (r, k')) :
      Call L k (.shmctl p shmid cmd bufFlag) k'
  | semget {k k' : Kernel} {p : Fin NPROC} {key size flag : ℕ} {r : ℤ}
      (hcall : semget L p key size flag k = .ok (r, k')) : Call L k (.semget p key size flag) k'
  | semop {k k' : Kernel} {p : Fin NPROC} {semid : ℤ} {ops : List SemBuf} {r : SemResult}
      {events : List SemEvent} (hcall : semop L p semid ops k = .ok (r, events, k')) :
      Call L k (.semop p semid ops events) k'
  | resume {k k' : Kernel} {p : Fin NPROC} {r : SemResult} {events : List SemEvent}
      (hcall : semopResume L p k = .ok (r, events, k')) : Call L k (.resume p events) k'
  | semctl {k k' : Kernel} {p : Fin NPROC} {semid semnum cmd val r : ℤ} {array : ℕ → ℤ}
      (hcall : semctl L p semid semnum cmd val array k = .ok (r, k')) :
      Call L k (.semctl p semid semnum cmd val array) k'
  | msgget {k k' : Kernel} {p : Fin NPROC} {key maxlen flag : ℕ} {r : ℤ}
      (hcall : msgget L p key maxlen flag k = .ok (r, k')) :
      Call L k (.msgget p key maxlen flag) k'
  | msgsnd {k k' : Kernel} {p : Fin NPROC} {msqid r : ℤ} {content : MsgBuf} {nowait : Bool}
      (hcall : msgsnd L msqid content nowait k = .ok (.done r, k')) :
      Call L k (.msgsnd p msqid content nowait r) k'
  | msgrcv {k k' : Kernel} {p : Fin NPROC} {msqid r : ℤ} {msgsz msgtype : ℕ} {nowait : Bool}
      {content : Option MsgBuf}
      (hcall : msgrcv L msqid msgsz msgtype nowait k = .ok (.done r, content, k')) :
      Call L k (.msgrcv p msqid msgsz msgtype nowait r content) k'
  | msgctl {k k' : Kernel} {p : Fin NPROC} {msqid cmd r : ℤ} {maxlen flag : ℕ}
      (hcall : msgctl L p msqid cmd maxlen flag k = .ok (r, k')) :
      Call L k (.msgctl p msqid cmd maxlen flag) k'
  | fork {k k' : Kernel} {p : Fin NPROC} {r : Option (Fin NPROC)}
      (hcall : fork L p k = .ok (r, k')) : Call L k (.fork p) k'
  | exit {k k' : Kernel} {p : Fin NPROC} (hcall : exit p k = .ok k') : Call L k (.exit p) k'
  | wait {k k' : Kernel} {p : Fin NPROC} {r : Option (Fin NPROC)}
      (hcall : wait L p k = .ok (r, k')) : Call L k (.wait p) k'
  | kill {k : Kernel} {p q : Fin NPROC} : Call L k (.kill p q) (kill q k)

/-- The process that resumes is the one inside `semop`; no other call is made
from there. -/
def Ready (k : Kernel) : Op → Prop
  | .resume p _ => Running k.vm p
  | op => Running k.vm op.caller ∧ k.semCall op.caller = none

structure Step (L : Layout) (k : Kernel) (op : Op) (k' : Kernel) : Prop where
  ready : Ready k op
  call : Call L k op k'

/-! ## Execution -/

/-- The process is ready for the step. -/
def Op.ready (op : Op) (k : Kernel) : Bool :=
  decide ((k.vm.proc op.caller).state = .RUNNABLE ∨ (k.vm.proc op.caller).state = .RUNNING) &&
    match op with
    | .resume _ _ => true
    | _ => (k.semCall op.caller).isNone

/-- The call of a step, for the calls whose results are numbers. -/
def execOp (L : Layout) (op : Op) (k : Kernel) : Kres Kernel :=
  match op with
  | .shmget _ key size flag r => do
      let (r', k) ← shmget L key size flag k
      if r' = r then return k else throw .undefined
  | .shmat p shmid shmaddr rdonly va => do
      let (va', k) ← shmat L p shmid shmaddr rdonly k
      if va' = va then return k else throw .undefined
  | .shmdt p shmaddr => shmdt L p shmaddr k
  | .shmctl _ shmid cmd bufFlag => do
      let (_, k) ← shmctl L shmid cmd bufFlag k
      return k
  | .semget p key size flag => do
      let (_, k) ← semget L p key size flag k
      return k
  | .semop p semid ops events => do
      let (_, events', k) ← semop L p semid ops k
      if events' = events then return k else throw .undefined
  | .resume p events => do
      let (_, events', k) ← semopResume L p k
      if events' = events then return k else throw .undefined
  | .semctl p semid semnum cmd val array => do
      let (_, k) ← semctl L p semid semnum cmd val array k
      return k
  | .msgget p key maxlen flag => do
      let (_, k) ← msgget L p key maxlen flag k
      return k
  | .msgctl p msqid cmd maxlen flag => do
      let (_, k) ← msgctl L p msqid cmd maxlen flag k
      return k
  | .fork p => do
      let (_, k) ← fork L p k
      return k
  | .exit p => exit p k
  | .wait p => do
      let (_, k) ← wait L p k
      return k
  | .kill _ q => .ok (kill q k)
  | .msgsnd .. | .msgrcv .. => .error .undefined

/-- A call by a process that may make it. -/
def execReady (L : Layout) (op : Op) (k : Kernel) : Kres Kernel :=
  if op.ready k then execOp L op k else .error .undefined

/-- The value of a call is dropped. -/
theorem snd_eq_ok {α : Type} {x : Kres (α × Kernel)} {k' : Kernel}
    (h : (x >>= fun y => pure y.2) = .ok k') : ∃ r, x = .ok (r, k') := by
  simp only [bind_eq_ok, pure_eq_ok] at h
  obtain ⟨⟨r, k₁⟩, hcall, rfl⟩ := h
  exact ⟨r, hcall⟩

theorem execOp_call {L : Layout} {op : Op} {k k' : Kernel} (h : execOp L op k = .ok k') :
    Call L k op k' := by
  cases op with
  | shmget p key size flag r =>
    simp only [execOp, bind_eq_ok] at h
    obtain ⟨⟨r', k₁⟩, hcall, h⟩ := h
    split at h
    · rename_i hr
      cases h
      exact .shmget (hr ▸ hcall)
    · cases h
  | shmat p shmid shmaddr rdonly va =>
    simp only [execOp, bind_eq_ok] at h
    obtain ⟨⟨va', k₁⟩, hcall, h⟩ := h
    split at h
    · rename_i hva
      cases h
      exact .shmat (hva ▸ hcall)
    · cases h
  | semop p semid ops events =>
    simp only [execOp, bind_eq_ok] at h
    obtain ⟨⟨r, events', k₁⟩, hcall, h⟩ := h
    split at h
    · rename_i hev
      cases h
      subst hev
      exact .semop hcall
    · cases h
  | resume p events =>
    simp only [execOp, bind_eq_ok] at h
    obtain ⟨⟨r, events', k₁⟩, hcall, h⟩ := h
    split at h
    · rename_i hev
      cases h
      subst hev
      exact .resume hcall
    · cases h
  | shmdt p shmaddr => exact .shmdt h
  | exit p => exact .exit h
  | kill p q =>
    cases h
    exact .kill
  | msgsnd => cases h
  | msgrcv => cases h
  | shmctl => exact .shmctl (snd_eq_ok h).choose_spec
  | semget => exact .semget (snd_eq_ok h).choose_spec
  | semctl => exact .semctl (snd_eq_ok h).choose_spec
  | msgget => exact .msgget (snd_eq_ok h).choose_spec
  | msgctl => exact .msgctl (snd_eq_ok h).choose_spec
  | fork => exact .fork (snd_eq_ok h).choose_spec
  | wait => exact .wait (snd_eq_ok h).choose_spec

theorem ready_of_eq_true {op : Op} {k : Kernel} (h : op.ready k = true) : Ready k op := by
  simp only [Op.ready, Bool.and_eq_true, decide_eq_true_eq] at h
  cases op <;> first | exact h.1 | exact ⟨h.1, Option.isNone_iff_eq_none.mp h.2⟩

theorem execReady_step {L : Layout} (k : Kernel) (op : Op) (k' : Kernel)
    (h : execReady L op k = .ok k') : Step L k op k' := by
  simp only [execReady] at h
  split at h
  · rename_i hready
    exact ⟨ready_of_eq_true hready, execOp_call h⟩
  · cases h

/-! ## A machine -/

/-- Every slot of a page points to the next one, the last one to nothing. -/
def slotWord (unitsz x : ℕ) : ℕ :=
  if x % PGSIZE + unitsz < PGSIZE then x + unitsz else NULL

/-- The words of four new caches with a page each. The nodes of the two large ones
are the first objects of `g_slab_16`. -/
def bootWords (p8 p16 p32 p128 x : ℕ) : ℕ :=
  if x / PGSIZE = p8 / PGSIZE then
    if x = p8 then NULL else slotWord 8 x
  else if x / PGSIZE = p16 / PGSIZE then
    if x = p16 ∨ x = lnodeNext (p16 + 32) ∨ x = lnodeNext (p16 + 48) then NULL
    else if x = p16 + 16 then p16 + 64
    else if x = p16 + 32 then p32
    else if x = p16 + 48 then p128
    else slotWord 16 x
  else if x / PGSIZE = p32 / PGSIZE then slotWord 32 x
  else if x / PGSIZE = p128 / PGSIZE then slotWord 128 x
  else 0

def bootCaches (p8 p16 : ℕ) : CacheId → KmemCache
  | .gSlab8 => ⟨8, 8, 8, 0, p8⟩
  | .gSlab16 => ⟨16, 16, 16, 2, p16⟩
  | .gSlab32 => ⟨32, 32, 32, 0, p16 + 32⟩
  | .gSlab128 => ⟨128, 128, 128, 0, p16 + 48⟩
  | _ => ⟨0, 0, 0, 0, NULL⟩

/-- A kernel whose tables are empty. -/
def Kernel.start (vm : VmState) (word : ℕ → ℕ) (cache : CacheId → KmemCache) : Kernel :=
  { vm, word, cache
    slot := fun _ => ⟨false, 0, 0, 0, .UNUSED⟩
    shmid := fun _ => ⟨0, NULL⟩
    semid := fun _ => ⟨0, NULL, fun _ => ⟨0, []⟩⟩
    msqid := fun _ => ⟨NULL, NULL, 0, MSQLEN_MAX⟩
    msg := fun _ => ⟨⟨0, 0, fun _ => 0⟩, NULL⟩
    nodes := fun _ => [], freeva := fun _ => [], semWant := fun _ => 0, semCall := fun _ => none }

/-- A kernel with empty tables that has started its first process. -/
def smallBoot (L : Layout) : Kres Kernel := do
  let b ← buddyInit L ⟨⟨fun _ => 0, fun _ => 0⟩, fun _ => 0⟩
  let (p8, b) ← buddyAlloc L 0 b
  let (p16, b) ← buddyAlloc L 0 b
  let (p32, b) ← buddyAlloc L 0 b
  let (p128, b) ← buddyAlloc L 0 b
  let vm ← userinit L (kalloc L) (bootState b)
  initFreeva L vm.initproc (.start vm (bootWords p8 p16 p32 p128) (bootCaches p8 p16))

/-- A list of calls is executed from the start, and the run has a property. -/
theorem boot_run {L : Layout} (ops : List Op) (P : Kernel → List (Op × Kernel) → Prop)
    (h : (smallBoot L).Yields fun k => Kres.Yields (execAll (execReady L) ops k) (P k)) :
    ∃ k₀ run, smallBoot L = .ok k₀ ∧ IsRun (Step L) k₀ run ∧ P k₀ run := by
  obtain ⟨k₀, hk₀, run, hrun, htest⟩ := h
  exact ⟨k₀, run, hk₀, (execAll_isRun execReady_step hrun).1, htest⟩

/-- The same after some calls that prepare the state. -/
theorem boot_run_after {L : Layout} (setup ops : List Op)
    (P : Kernel → List (Op × Kernel) → Prop)
    (h : (smallBoot L).Yields fun k₀ => Kres.Yields (execAll (execReady L) setup k₀) fun before =>
      Kres.Yields (execAll (execReady L) ops (last k₀ before)) (P (last k₀ before))) :
    ∃ k₀ before run, smallBoot L = .ok k₀ ∧ IsRun (Step L) k₀ before ∧
      before.map Prod.fst = setup ∧ IsRun (Step L) (last k₀ before) run ∧
      P (last k₀ before) run := by
  obtain ⟨k₀, hk₀, before, hbefore, run, hrun, htest⟩ := h
  obtain ⟨hbefore, hops⟩ := execAll_isRun execReady_step hbefore
  exact ⟨k₀, before, run, hk₀, hbefore, hops, (execAll_isRun execReady_step hrun).1, htest⟩

end LearnOS.Ipc
