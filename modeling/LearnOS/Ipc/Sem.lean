import LearnOS.Ipc.State

/-!
# Semaphore sets

`semaphore.c`. A `semop` runs its list of operations under the lock of the set
and gives the lock up only to sleep; what it does between two such points is one
critical section, `semopLoop`.

## Implementation notes

`SemEvent` records what a critical section does with units. The events are an
observation: no function reads them. A process asleep in `semop` keeps the rest
of its operations in `semCall`, the one it waits for first; nobody else sleeps
on the address after a process structure, so `wakeup` on it wakes that process
from `semop` only. An addition can overflow the `int` of a semaphore, while the
subtractions take away at most what is there.
-/

namespace LearnOS.Ipc

open LearnOS Function

/-- What happens to units of semaphore `i`: a process takes `n` itself, a signal
puts `n` back, the signaller takes `n` for process `q`, or process `p` goes on
behind the wait in which it slept. -/
inductive SemEvent where
  | take (p : Fin NPROC) (i : ℕ) (n : ℤ)
  | give (p : Fin NPROC) (i : ℕ) (n : ℤ)
  | grant (q : Fin NPROC) (i : ℕ) (n : ℤ)
  | pass (p : Fin NPROC) (i : ℕ) (n : ℤ)
  deriving DecidableEq

inductive SemResult where
  | done (r : ℤ)
  | asleep
  deriving DecidableEq

def wrap32 (z : ℤ) : ℤ := z.bmod (2 ^ 32)

def wrap16 (z : ℤ) : ℤ := z.bmod (2 ^ 16)

namespace Kernel

def sem (k : Kernel) (id i : ℕ) : Sem := (k.semid id).sem i

def setSemaphore (k : Kernel) (id i : ℕ) (s : Sem) : Kernel :=
  k.setSem id { k.semid id with sem := update (k.semid id).sem i s }

def setState (k : Kernel) (p : Fin NPROC) (st : ProcState) : Kernel :=
  { k with vm := k.vm.setProc p { k.vm.proc p with state := st } }

def setWant (k : Kernel) (p : Fin NPROC) (n : ℤ) : Kernel :=
  { k with semWant := update k.semWant p n }

def setCall (k : Kernel) (p : Fin NPROC) (c : Option (ℕ × List SemBuf)) : Kernel :=
  { k with semCall := update k.semCall p c }

end Kernel

def procAddsem (L : Layout) (p : Fin NPROC) (id : ℕ) (k : Kernel) : Kres Kernel :=
  addNode L .sem p id (k.slot (.sem, id)).flag k

def procRemsem (L : Layout) (p : Fin NPROC) (id : ℕ) (k : Kernel) : Kres (ℤ × Kernel) :=
  procRem L .sem p id k

def procFreesem (L : Layout) (p : Fin NPROC) (k : Kernel) : Kres Kernel :=
  freeNodes L .sem p (k.nodes (p, .sem)) k

def copySem (L : Layout) (p np : Fin NPROC) (k : Kernel) : Kres Kernel :=
  copyNodes L .sem np (k.nodes (p, .sem)) k

/-- `memset` of an empty array writes nothing. -/
def semget (L : Layout) (p : Fin NPROC) (key size flag : ℕ) (k : Kernel) : Kres (ℤ × Kernel) :=
  ipcGet .sem key flag
    (fun id k => do
      let bytes := size * 24 % 2 ^ 64
      let (ptr, k) ← k.kmalloc L bytes
      if ptr = NULL ∧ bytes ≠ 0 then
        throw .nullStore
      return k.setSem id ⟨size % 2 ^ 32, ptr, fun _ => ⟨0, []⟩⟩)
    (procAddsem L p) k

/-! ## `semop` -/

def insertLast (L : Layout) (id i : ℕ) (p : Fin NPROC) (k : Kernel) : Kres Kernel := do
  let (addr, k) ← k.kmallocNode L 16
  return k.setSemaphore id i { k.sem id i with queue := (k.sem id i).queue ++ [⟨addr, p⟩] }

/-- `wakeup` on the channel on which `q` sleeps in `semop`. -/
def wakeupSem (p q : Fin NPROC) (k : Kernel) : Kernel :=
  if q ≠ p ∧ (k.vm.proc q).state = .SLEEPING ∧ (k.semCall q).isSome then
    k.setState q .RUNNABLE
  else k

/-- The loop of a signal, along the wait queue. -/
def grantLoop (L : Layout) (p : Fin NPROC) (id i : ℕ) :
    List WaitNode → Kernel → Kres (List SemEvent × Kernel)
  | [], k => .ok ([], k)
  | w :: rest, k =>
    let want := k.semWant w.p
    if want > (k.sem id i).value then .ok ([], k)
    else do
      let k := wakeupSem p w.p k
      let k := (k.setSemaphore id i ⟨(k.sem id i).value - want, rest⟩).setWant w.p 0
      let k ← k.kmfree L w.addr 16
      let (events, k) ← grantLoop L p id i rest k
      return (.grant w.p i want :: events, k)

/-- `sleep` inside `semop`, with the operations that are left. -/
def sleepSem (p : Fin NPROC) (id : ℕ) (ops : List SemBuf) (k : Kernel) : Kernel :=
  (k.setState p .SLEEPING).setCall p (some (id, ops))

/-- The loop of `semop` from one operation on, up to its end or to a `sleep`.
`sem_flg` has 16 bits, so the test of `IPC_NOWAIT` never succeeds; its branch
would return with the lock held. -/
def semopLoop (L : Layout) (p : Fin NPROC) (id : ℕ) :
    List SemBuf → Kernel → Kres (SemResult × List SemEvent × Kernel)
  | [], k => .ok (.done 0, [], k)
  | b :: rest, k =>
    let s := k.sem id b.semIndex
    if (k.semid id).sz ≤ b.semIndex then .ok (.done (-3), [], k)
    else if b.semOp < 0 then
      if s.value < -b.semOp then
        if (b.semFlg % 2 ^ 16).testBit 16 then
          .ok (.done (-4), [],
            k.setSlot .sem id { k.slot (.sem, id) with locked := true })
        else do
          let k ← insertLast L id b.semIndex p k
          return (.asleep, [], sleepSem p id (b :: rest) (k.setWant p (-b.semOp)))
      else do
        let (r, events, k) ← semopLoop L p id rest
          (k.setSemaphore id b.semIndex { s with value := s.value + b.semOp })
        return (r, .take p b.semIndex (-b.semOp) :: events, k)
    else if b.semOp > 0 then do
      let (grants, k) ← grantLoop L p id b.semIndex s.queue
        (k.setSemaphore id b.semIndex { s with value := wrap32 (s.value + b.semOp) })
      let (r, events, k) ← semopLoop L p id rest k
      return (r, .give p b.semIndex b.semOp :: grants ++ events, k)
    else semopLoop L p id rest k

/-- A call of `semop` up to its first `sleep`. The buffer of the operations is
never freed. -/
def semop (L : Layout) (p : Fin NPROC) (semid : ℤ) (ops : List SemBuf) (k : Kernel) :
    Kres (SemResult × List SemEvent × Kernel) := do
  if semid ≥ SEMMAX then
    return (.done (-1), [], k)
  let id ← indexOf semid
  k.acquire .sem id
  if (k.slot (.sem, id)).state = .UNUSED then
    return (.done (-2), [], k)
  let (buf, k) ← k.kmalloc L (8 * ops.length)
  if buf = NULL ∧ ops ≠ [] then
    throw .nullStore
  semopLoop L p id ops k

/-- The rest of a `semop` after its `sleep`: the operation it slept in is not
looked at again. -/
def semopResume (L : Layout) (p : Fin NPROC) (k : Kernel) :
    Kres (SemResult × List SemEvent × Kernel) :=
  match k.semCall p with
  | some (id, b :: rest) => do
      k.acquire .sem id
      let (r, events, k) ← semopLoop L p id rest (k.setCall p none)
      return (r, .pass p b.semIndex (-b.semOp) :: events, k)
  | _ => .error .undefined

/-! ## `semctl` -/

def GETALL : ℤ := 65
def GETVAL : ℤ := 66
def SETVAL : ℤ := 67
def SETALL : ℤ := 68

/-- The element `semnum` of the array, which is not checked. -/
def semnumOf (k : Kernel) (id : ℕ) (semnum : ℤ) : Kres ℕ :=
  if 0 ≤ semnum ∧ semnum < (k.semid id).sz then .ok semnum.toNat else .error .undefined

/-- The array of `int16` that `GETALL` and `SETALL` use for their copy. -/
def withArray (L : Layout) (id : ℕ) (k : Kernel) (f : Kernel → Kernel) : Kres Kernel := do
  let bytes := 2 * (k.semid id).sz
  let (ar, k) ← k.kmalloc L bytes
  if ar = NULL ∧ bytes ≠ 0 then
    throw .nullStore
  (f k).kmfree L ar bytes

/-- The argument is `val` for `SETVAL` and what `array` holds for `SETALL`.
`GETVAL` and unknown commands return without releasing the lock. -/
def semctl (L : Layout) (p : Fin NPROC) (semid semnum cmd val : ℤ) (array : ℕ → ℤ)
    (k : Kernel) : Kres (ℤ × Kernel) := do
  if semid ≥ SEMMAX then
    return (-1, k)
  let id ← indexOf semid
  k.acquire .sem id
  let b := k.slot (.sem, id)
  if b.state = .UNUSED then
    return (-2, k)
  else if cmd = IPC_RMID then do
    let (_, k) ← procRemsem L p id (k.setSlot .sem id { b with state := .ZOMBIE })
    return (0, k)
  else if cmd = IPC_STAT then
    return (0, k)
  else if cmd = GETALL then do
    let k ← withArray L id k fun k => k
    return (0, k)
  else if cmd = GETVAL then do
    let i ← semnumOf k id semnum
    return (wrap16 (k.sem id i).value, k.setSlot .sem id { b with locked := true })
  else if cmd = SETALL then do
    let k ← withArray L id k fun k => k.setSem id { k.semid id with
      sem := fun i =>
        if i < (k.semid id).sz then ⟨wrap16 (array i), (k.sem id i).queue⟩ else k.sem id i }
    return (0, k)
  else if cmd = SETVAL then do
    let i ← semnumOf k id semnum
    return (0, k.setSemaphore id i ⟨wrap16 val, (k.sem id i).queue⟩)
  else
    return (-1, k.setSlot .sem id { b with locked := true })

end LearnOS.Ipc
