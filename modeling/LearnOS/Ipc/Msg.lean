import LearnOS.Ipc.State

/-!
# Message queues

`msg.c`. The messages of a queue are linked through `next`, from `first` to
`last`.

## Implementation notes

`msg` holds the message found at an address. A send or receive that has to wait
is reported as `blocked`: it takes effect in the critical section that completes
it, and that section is the one modelled here. `msgrcv` searches a queue for as
many steps as the queue has messages.
-/

namespace LearnOS.Ipc

open LearnOS Function

namespace Kernel

def setMsg (k : Kernel) (a : ℕ) (m : MsgMsg) : Kernel :=
  { k with msg := update k.msg a m }

/-- `msg->next = next`. -/
def setNext (k : Kernel) (a next : ℕ) : Kernel :=
  k.setMsg a { k.msg a with next := next }

end Kernel

def procAddmsq (L : Layout) (p : Fin NPROC) (id : ℕ) (k : Kernel) : Kres Kernel :=
  addNode L .msq p id (k.slot (.msq, id)).flag k

def procRemmsq (L : Layout) (p : Fin NPROC) (id : ℕ) (k : Kernel) : Kres (ℤ × Kernel) :=
  procRem L .msq p id k

def procFreemsq (L : Layout) (p : Fin NPROC) (k : Kernel) : Kres Kernel :=
  freeNodes L .msq p (k.nodes (p, .msq)) k

def copyMsg (L : Layout) (p np : Fin NPROC) (k : Kernel) : Kres Kernel :=
  copyNodes L .msq np (k.nodes (p, .msq)) k

def msgget (L : Layout) (p : Fin NPROC) (key maxlen flag : ℕ) (k : Kernel) : Kres (ℤ × Kernel) :=
  ipcGet .msq key flag
    (fun id k => return if maxlen > 0 then k.setMsq id { k.msqid id with maxlen := maxlen } else k)
    (procAddmsq L p) k

/-! ## Sending -/

inductive MsgResult where
  | done (r : ℤ)
  | blocked
  deriving DecidableEq

/-- `msg_count >= maxlen`, a comparison of unsigned numbers. -/
def msqFull (q : MsgQueue) : Bool := q.maxlen ≤ (q.msgCount % 2 ^ 32).toNat

/-- The message at `a` goes to the end of the queue. -/
def linkMsg (id a : ℕ) (k : Kernel) : Kernel :=
  let q := k.msqid id
  if q.first = NULL then
    (k.setNext a NULL).setMsq id { q with first := a, last := a, msgCount := q.msgCount + 1 }
  else
    ((k.setNext q.last a).setNext a NULL).setMsq id { q with last := a, msgCount := q.msgCount + 1 }

def msgsnd (L : Layout) (msqid : ℤ) (content : MsgBuf) (nowait : Bool) (k : Kernel) :
    Kres (MsgResult × Kernel) := do
  if msqid ≥ MSGMAX then
    return (.done (-1), k)
  let id ← indexOf msqid
  k.acquire .msq id
  if (k.slot (.msq, id)).state = .UNUSED then
    return (.done (-2), k)
  let (newmsg, k) ← k.kmallocNode L 512
  let k := k.setMsg newmsg { k.msg newmsg with content := content }
  if content.mtype ≤ 0 then
    return (.done (-3), k)
  else if msqFull (k.msqid id) then
    if nowait then do
      let k ← k.kmfree L newmsg 512
      return (.done (-1), k)
    else return (.blocked, k)
  else return (.done 0, linkMsg id newmsg k)

/-! ## Receiving -/

/-- The test of a message against the wanted type, in unsigned numbers. -/
def wanted (msgtype : ℕ) (m : MsgBuf) : Bool :=
  msgtype = 0 ∨ (m.mtype % 2 ^ 32).toNat = msgtype

/-- The inner loop of the search: the predecessor of the first wanted message
behind `prev`. -/
def searchLoop (k : Kernel) (msgtype : ℕ) : ℕ → ℕ → Kres (Option ℕ)
  | 0, _ => .error .undefined
  | n + 1, prev =>
    if (k.msg prev).next = NULL then .ok none
    else if wanted msgtype (k.msg (k.msg prev).next).content then .ok (some prev)
    else searchLoop k msgtype n (k.msg prev).next

/-- The outer search loop, once the queue is not empty. The inner option is the
predecessor, absent for the first message. -/
def findWanted (k : Kernel) (q : MsgQueue) (msgtype : ℕ) : Kres (Option (Option ℕ)) :=
  if wanted msgtype (k.msg q.first).content then .ok (some none)
  else do
    let prev ← searchLoop k msgtype q.msgCount.toNat q.first
    return prev.map some

/-- The wanted message leaves the queue. Without predecessor it is compared with
the last message of the queue at the start of the pool. -/
def unlinkMsg (id : ℕ) (prev : Option ℕ) (k : Kernel) : ℕ × Kernel :=
  let q := k.msqid id
  match prev with
  | none =>
    if q.first = (k.msqid 0).last then
      (q.first, k.setMsq id { q with first := NULL, last := NULL, msgCount := q.msgCount - 1 })
    else
      (q.first, k.setMsq id
        { q with first := (k.msg q.first).next, msgCount := q.msgCount - 1 })
  | some prev =>
    let node := (k.msg prev).next
    let k := k.setNext prev (k.msg node).next
    (node, k.setMsq id
      { q with last := if q.last = node then prev else q.last, msgCount := q.msgCount - 1 })

/-- `mtext[msgsz] = '\0'` when the index lies in the text. -/
def MsgBuf.cut (m : MsgBuf) (msgsz : ℕ) : MsgBuf :=
  if 0 < msgsz ∧ msgsz < 496 then
    { m with mtext := fun i => if i.val = msgsz then 0 else m.mtext i }
  else m

/-- The content is what `copyout` delivers to the caller. -/
def msgrcv (L : Layout) (msqid : ℤ) (msgsz msgtype : ℕ) (nowait : Bool) (k : Kernel) :
    Kres (MsgResult × Option MsgBuf × Kernel) := do
  if msqid ≥ MSGMAX then
    return (.done (-1), none, k)
  let id ← indexOf msqid
  k.acquire .msq id
  let q := k.msqid id
  if (k.slot (.msq, id)).state = .UNUSED then
    return (.done (-2), none, k)
  else if q.first = NULL then
    return (if nowait then .done (-1) else .blocked, none, k)
  else do
    match ← findWanted k q msgtype with
    | none => return (if nowait then .done (-1) else .blocked, none, k)
    | some prev => do
        let (node, k) := unlinkMsg id prev k
        let content := (k.msg node).content.cut msgsz
        let k ← (k.setMsg node { k.msg node with content := content }).kmfree L node 512
        return (.done 0, some content, k)

/-! ## Control -/

def msgctl (L : Layout) (p : Fin NPROC) (msqid cmd : ℤ) (maxlen flag : ℕ) (k : Kernel) :
    Kres (ℤ × Kernel) := do
  if msqid ≥ MSGMAX then
    return (-1, k)
  let id ← indexOf msqid
  k.acquire .msq id
  let b := k.slot (.msq, id)
  if b.state = .UNUSED then
    return (-2, k)
  else if cmd = IPC_STAT then
    return (0, k)
  else if cmd = IPC_SET then
    return (0, (k.setMsq id { k.msqid id with maxlen := maxlen }).setSlot .msq id
      { b with flag := flag })
  else if cmd = IPC_RMID then do
    let (_, k) ← procRemmsq L p id (k.setSlot .msq id { b with state := .ZOMBIE })
    return (0, k)
  else return (-3, k)

end LearnOS.Ipc
