import LearnOS.Ipc.Account
import LearnOS.Ipc.Keys

/-!
# The critical sections of a message queue

`msgsnd` looks at the slot, gives the lock back to fetch the message, and takes the
lock again to link it. `msgrcv` keeps the lock from its check to the end, except
while it sleeps: in a loop until the queue is not empty, and again in its search
loop until a wanted message has come. Everything that happens between two such
points is one step here, and so is every piece of code outside the lock.

## Implementation notes

All calls are made on one slot. `born` counts the creations of the queue, `stamp`
keeps for a message the creation that the check of its sender has seen, and the
calls keep the one they have seen themselves. Nothing depends on these numbers.
-/

namespace LearnOS.Ipc

open LearnOS Transition LinkedList Function

/-- `SND_CHAN` and `RCV_CHAN`. -/
inductive MsgChan where
  | snd | rcv
  deriving DecidableEq

/-- Where a process stands in `msgsnd` or `msgrcv`. A sender has checked the slot,
has stored its message, or is in the loop that waits for room. A receiver is in the
loop that waits for a message, sleeps in its search loop, or has taken a message.
`notify` is the `wakeup` at the end. -/
inductive MsgCall where
  | idle
  | checked (content : MsgBuf) (nowait : Bool) (seen : ℕ)
  | stored (newmsg : ℕ) (nowait : Bool) (seen : ℕ)
  | full (newmsg : ℕ) (asleep : Bool) (seen : ℕ)
  | empty (msgsz msgtype : ℕ) (asleep : Bool) (seen : ℕ)
  | search (msgsz msgtype : ℕ) (asleep : Bool) (seen : ℕ)
  | taken (node msgsz seen : ℕ)
  | notify (chan : MsgChan)

namespace MsgCall

/-- The process sleeps on the channel. -/
def sleepsOn (chan : MsgChan) : MsgCall → Bool
  | .full _ asleep _ => asleep && chan = .snd
  | .empty _ _ asleep _ | .search _ _ asleep _ => asleep && chan = .rcv
  | _ => false

/-- The process is made `RUNNABLE` if it sleeps. -/
def wake : MsgCall → MsgCall
  | .full newmsg _ seen => .full newmsg false seen
  | .empty msgsz msgtype _ seen => .empty msgsz msgtype false seen
  | .search msgsz msgtype _ seen => .search msgsz msgtype false seen
  | c => c

/-- The messages that the call holds outside the queue. -/
def message : MsgCall → Multiset ℕ
  | .stored a _ _ | .full a _ _ | .taken a _ _ => {a}
  | _ => 0

end MsgCall

structure MsgState where
  k : Kernel
  call : Fin NPROC → MsgCall
  born : ℕ
  stamp : ℕ → ℕ

namespace MsgState

def setCall (s : MsgState) (p : Fin NPROC) (c : MsgCall) : MsgState :=
  { s with call := update s.call p c }

def setKernel (s : MsgState) (k : Kernel) : MsgState := { s with k := k }

end MsgState

/-- `wakeup` on a channel. -/
def wakeAll (chan : MsgChan) (call : Fin NPROC → MsgCall) : Fin NPROC → MsgCall :=
  fun q => if (call q).sleepsOn chan then (call q).wake else call q

/-- `drop` is one round of `proc_freemsq` for a process that is reaped. -/
inductive MsgEvent where
  | send (p : Fin NPROC) (content : MsgBuf) (nowait : Bool)
  | store (p : Fin NPROC)
  | enter (p : Fin NPROC)
  | receive (p : Fin NPROC) (msgsz msgtype : ℕ) (nowait : Bool)
  | resume (p : Fin NPROC)
  | deliver (p : Fin NPROC)
  | wakeup (p : Fin NPROC)
  | kill (q : Fin NPROC)
  | get (p : Fin NPROC) (key maxlen flag : ℕ)
  | rmid (p : Fin NPROC)
  | drop (p : Fin NPROC)

/-! ## The sections -/

/-- The message goes into the queue. -/
def enqueue (id : ℕ) (p : Fin NPROC) (newmsg : ℕ) (s : MsgState) : MsgState :=
  (s.setKernel (linkMsg id newmsg s.k)).setCall p (.notify .rcv)

/-- One round of the search loop, up to the point at which the lock is given back. -/
def searchRound (id : ℕ) (p : Fin NPROC) (msgsz msgtype : ℕ) (nowait : Bool) (seen : ℕ)
    (s : MsgState) : Kres MsgState := do
  if (s.k.msqid id).first = NULL then
    throw .nullLoad
  match ← findWanted s.k (s.k.msqid id) msgtype with
  | none => return s.setCall p (if nowait then .idle else .search msgsz msgtype true seen)
  | some prev =>
    let (node, k) := unlinkMsg id prev s.k
    return (s.setKernel k).setCall p (.taken node msgsz seen)

def sendCheck (id : ℕ) (p : Fin NPROC) (content : MsgBuf) (nowait : Bool) (s : MsgState) :
    Kres MsgState := do
  s.k.acquire .msq id
  if (s.k.slot (.msq, id)).state = .UNUSED then
    return s
  return s.setCall p (.checked content nowait s.born)

/-- `kmalloc` and `copyin`. A message with a bad type is not freed. -/
def sendStore (L : Layout) (p : Fin NPROC) (content : MsgBuf) (nowait : Bool) (seen : ℕ)
    (s : MsgState) : Kres MsgState := do
  let (newmsg, k) ← s.k.kmallocNode L 512
  let s := { s with
    k := k.setMsg newmsg { k.msg newmsg with content := content }
    stamp := update s.stamp newmsg seen }
  return s.setCall p (if content.mtype ≤ 0 then .idle else .stored newmsg nowait seen)

def sendEnter (L : Layout) (id : ℕ) (p : Fin NPROC) (newmsg : ℕ) (nowait : Bool) (seen : ℕ)
    (s : MsgState) : Kres MsgState := do
  s.k.acquire .msq id
  if msqFull (s.k.msqid id) then
    if nowait then do
      let k ← s.k.kmfree L newmsg 512
      return (s.setKernel k).setCall p .idle
    else return s.setCall p (.full newmsg true seen)
  else return enqueue id p newmsg s

def receiveCheck (id : ℕ) (p : Fin NPROC) (msgsz msgtype : ℕ) (nowait : Bool) (s : MsgState) :
    Kres MsgState := do
  s.k.acquire .msq id
  if (s.k.slot (.msq, id)).state = .UNUSED then
    return s
  else if (s.k.msqid id).first = NULL then
    return s.setCall p (if nowait then .idle else .empty msgsz msgtype true s.born)
  else searchRound id p msgsz msgtype nowait s.born s

/-- A process that has been woken takes the lock and goes on behind its `sleep`. -/
def resumeCall (id : ℕ) (p : Fin NPROC) (s : MsgState) : Kres MsgState := do
  s.k.acquire .msq id
  match s.call p with
  | .full newmsg false seen =>
    return if msqFull (s.k.msqid id) then s.setCall p (.full newmsg true seen)
      else enqueue id p newmsg s
  | .empty msgsz msgtype false seen =>
    if (s.k.msqid id).first = NULL then
      return s.setCall p (.empty msgsz msgtype true seen)
    else searchRound id p msgsz msgtype false seen s
  | .search msgsz msgtype false seen => searchRound id p msgsz msgtype false seen s
  | _ => throw .undefined

/-- The message is cut, copied out and freed. -/
def receiveDeliver (L : Layout) (p : Fin NPROC) (node msgsz : ℕ) (s : MsgState) :
    Kres MsgState := do
  let content := (s.k.msg node).content.cut msgsz
  let k ← (s.k.setMsg node { s.k.msg node with content := content }).kmfree L node 512
  return (s.setKernel k).setCall p (.notify .snd)

/-- The last section of `msgget`, on this slot. -/
def getQueue (L : Layout) (id : ℕ) (p : Fin NPROC) (key maxlen flag : ℕ) (s : MsgState) :
    Kres MsgState := do
  let (_, k) ← getSection L p ⟨.msq, key, maxlen, flag⟩ id s.k
  let creates := (s.k.slot (.msq, id)).state = .UNUSED ∧ flagCreate flag
  return { s with k := k, born := if creates then s.born + 1 else s.born }

def removeQueue (L : Layout) (id : ℕ) (p : Fin NPROC) (s : MsgState) : Kres MsgState := do
  let (_, k) ← msgctl L p id IPC_RMID 0 0 s.k
  return s.setKernel k

def dropQueue (L : Layout) (id : ℕ) (p : Fin NPROC) (s : MsgState) : Kres MsgState := do
  s.k.acquire .msq id
  let (_, k) ← procRem L .msq p id s.k
  return s.setKernel k

/-- The step of an event. A process inside a call makes no other one. -/
def msgSection (L : Layout) (id : ℕ) (e : MsgEvent) (s : MsgState) : Kres MsgState :=
  match e with
  | .send p content nowait =>
    match s.call p with
    | .idle => sendCheck id p content nowait s
    | _ => .error .undefined
  | .store p =>
    match s.call p with
    | .checked content nowait seen => sendStore L p content nowait seen s
    | _ => .error .undefined
  | .enter p =>
    match s.call p with
    | .stored newmsg nowait seen => sendEnter L id p newmsg nowait seen s
    | _ => .error .undefined
  | .receive p msgsz msgtype nowait =>
    match s.call p with
    | .idle => receiveCheck id p msgsz msgtype nowait s
    | _ => .error .undefined
  | .resume p => resumeCall id p s
  | .deliver p =>
    match s.call p with
    | .taken node msgsz _ => receiveDeliver L p node msgsz s
    | _ => .error .undefined
  | .wakeup p =>
    match s.call p with
    | .notify chan => .ok { s with call := update (wakeAll chan s.call) p .idle }
    | _ => .error .undefined
  | .kill q => .ok (s.setCall q (s.call q).wake)
  | .get p key maxlen flag =>
    match s.call p with
    | .idle => getQueue L id p key maxlen flag s
    | _ => .error .undefined
  | .rmid p =>
    match s.call p with
    | .idle => removeQueue L id p s
    | _ => .error .undefined
  | .drop p =>
    match s.call p with
    | .idle => dropQueue L id p s
    | _ => .error .undefined

def MsgRunStep (L : Layout) (id : ℕ) (s : MsgState) (e : MsgEvent) (s' : MsgState) : Prop :=
  msgSection L id e s = .ok s'

end LearnOS.Ipc
