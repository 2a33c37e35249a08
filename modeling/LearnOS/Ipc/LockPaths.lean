import LearnOS.Ipc.Keys
import LearnOS.Ipc.SemAtomic

/-!
# The slot locks on the way through a call

Every call takes the lock of the slots it works on and gives it back on each of
its ways out. The functions of this module follow the calls from branch to branch
and keep the list of the locks that the caller holds: `acquire` of a lock that the
caller has panics, and so does `release` of a lock that it does not have.

## Implementation notes

A path makes the choices of the call it belongs to from the state in which the
call starts; what the call does to the heap and to the objects is left out.
`sleep` gives the lock up and takes it again. A send or a receive may sleep any
number of times before the section that completes it.
-/

namespace LearnOS.Ipc

open LearnOS Transition Function Kres

variable {L : Layout} {k k' : Kernel} {c : IpcKind} {p : Fin NPROC} {id : ℕ}
  {events : List SemEvent} {r : SemResult} {array : ℕ → ℤ} {op : Op}
  {key : ℕ} {cmd semid msqid semnum val : ℤ}

/-- The slot locks that the caller holds, the latest first. -/
abbrev Held := List (IpcKind × ℕ)

def acquireSlot (c : IpcKind) (id : ℕ) (k : Kernel) (held : Held) : Kres Held := do
  if (c, id) ∈ held then
    throw (.panic "acquire")
  k.acquire c id
  return (c, id) :: held

def releaseSlot (c : IpcKind) (id : ℕ) (held : Held) : Kres Held :=
  if (c, id) ∈ held then .ok (held.erase (c, id)) else .error (.panic "release")

/-! ## Paths -/

/-- The loop of `AT_FUNC`, with the slot at which it is left. -/
def searchPath (k : Kernel) (c : IpcKind) (key : ℕ) : ℕ → ℕ → Held → Kres (ℕ × Held)
  | 0, id, held => .ok (id, held)
  | n + 1, id, held => do
      let held ← acquireSlot c id k held
      if (k.slot (c, id)).key = key then do
        let held ← releaseSlot c id held
        return (id, held)
      else do
        let held ← releaseSlot c id held
        searchPath k c key n ((id + 1) % c.max) held

def atPath (c : IpcKind) (key : ℕ) (k : Kernel) (held : Held) : Kres Held := do
  let (id, held) ← searchPath k c key c.max (key % c.max) held
  let held ← acquireSlot c id k held
  if (k.slot (c, id)).key ≠ key then releaseSlot c id held else releaseSlot c id held

def getPath (c : IpcKind) (key flag : ℕ) (k : Kernel) (held : Held) : Kres Held := do
  let held ← atPath c key k held
  let id ← ipcAt c key k
  let held ← acquireSlot c id k held
  if flagCreate flag then
    if flagExcl flag ∧ (k.slot (c, id)).state ≠ .UNUSED then releaseSlot c id held
    else if (k.slot (c, id)).state = .UNUSED then releaseSlot c id held
    else releaseSlot c id held
  else if (k.slot (c, id)).state = .UNUSED then releaseSlot c id held
  else releaseSlot c id held

def shmatPath (shmid : ℤ) (k : Kernel) (held : Held) : Kres Held := do
  if shmid ≥ SHMMAX then
    return held
  let id ← indexOf shmid
  let held ← acquireSlot .shm id k held
  if (k.slot (.shm, id)).state = .UNUSED then releaseSlot .shm id held
  else releaseSlot .shm id held

def shmdtPath (p : Fin NPROC) (shmaddr : ℕ) (k : Kernel) (held : Held) : Kres Held :=
  match (k.nodes (p, .shm)).find? fun n => n.va = shmaddr with
  | none => .error (.panic "erase procshmblock")
  | some n => do
      let held ← acquireSlot .shm n.slot k held
      releaseSlot .shm n.slot held

def shmctlPath (shmid cmd : ℤ) (k : Kernel) (held : Held) : Kres Held := do
  if shmid < 0 ∨ shmid ≥ SHMMAX then
    return held
  let id := shmid.toNat
  let held ← acquireSlot .shm id k held
  if (k.slot (.shm, id)).state = .UNUSED then releaseSlot .shm id held
  else if cmd = IPC_SET ∨ cmd = IPC_RMID then releaseSlot .shm id held
  else releaseSlot .shm id held

/-- The end of a critical section of `semop`. A wait that must not block returns
with the lock; a process that goes to sleep gives it up. -/
def semopExit (id : ℕ) (r : SemResult) (held : Held) : Kres Held :=
  match r with
  | .done r => if r = -4 then .ok held else releaseSlot .sem id held
  | .asleep => releaseSlot .sem id held

def semopPath (L : Layout) (p : Fin NPROC) (semid : ℤ) (ops : List SemBuf) (k : Kernel)
    (held : Held) : Kres Held := do
  if semid ≥ SEMMAX then
    return held
  let id ← indexOf semid
  let held ← acquireSlot .sem id k held
  if (k.slot (.sem, id)).state = .UNUSED then releaseSlot .sem id held
  else do
    let held ← releaseSlot .sem id held
    let (r, _) ← semop L p semid ops k
    let held ← acquireSlot .sem id k held
    semopExit id r held

/-- A process that goes on after its `sleep` in `semop` takes the lock again. -/
def resumePath (L : Layout) (p : Fin NPROC) (k : Kernel) (held : Held) : Kres Held :=
  match k.semCall p with
  | none => .error .undefined
  | some (id, _) => do
      let held ← acquireSlot .sem id k held
      let (r, _) ← semopResume L p k
      semopExit id r held

/-- The branches of `GETVAL` and of an unknown command have no `release`. -/
def semctlPath (semid cmd : ℤ) (k : Kernel) (held : Held) : Kres Held := do
  if semid ≥ SEMMAX then
    return held
  let id ← indexOf semid
  let held ← acquireSlot .sem id k held
  if (k.slot (.sem, id)).state = .UNUSED then releaseSlot .sem id held
  else if cmd = IPC_RMID ∨ cmd = IPC_STAT ∨ cmd = GETALL then releaseSlot .sem id held
  else if cmd = GETVAL then return held
  else if cmd = SETALL ∨ cmd = SETVAL then releaseSlot .sem id held
  else return held

/-- A number of calls of `sleep` with the lock of a slot. -/
def sleepPath (c : IpcKind) (id : ℕ) (k : Kernel) : ℕ → Held → Kres Held
  | 0, held => .ok held
  | n + 1, held => do
      let held ← releaseSlot c id held
      let held ← acquireSlot c id k held
      sleepPath c id k n held

def msgsndPath (msqid : ℤ) (content : MsgBuf) (nowait : Bool) (sleeps : ℕ) (k : Kernel)
    (held : Held) : Kres Held := do
  if msqid ≥ MSGMAX then
    return held
  let id ← indexOf msqid
  let held ← acquireSlot .msq id k held
  if (k.slot (.msq, id)).state = .UNUSED then releaseSlot .msq id held
  else do
    let held ← releaseSlot .msq id held
    if content.mtype ≤ 0 then
      return held
    let held ← acquireSlot .msq id k held
    if msqFull (k.msqid id) ∧ nowait then releaseSlot .msq id held
    else do
      let held ← sleepPath .msq id k sleeps held
      releaseSlot .msq id held

def msgrcvPath (msqid : ℤ) (msgtype : ℕ) (nowait : Bool) (sleeps : ℕ) (k : Kernel)
    (held : Held) : Kres Held := do
  if msqid ≥ MSGMAX then
    return held
  let id ← indexOf msqid
  let held ← acquireSlot .msq id k held
  if (k.slot (.msq, id)).state = .UNUSED then releaseSlot .msq id held
  else if (k.msqid id).first = NULL ∧ nowait then releaseSlot .msq id held
  else do
    let held ← sleepPath .msq id k sleeps held
    match ← findWanted k (k.msqid id) msgtype with
    | none => releaseSlot .msq id held
    | some _ => releaseSlot .msq id held

def msgctlPath (msqid cmd : ℤ) (k : Kernel) (held : Held) : Kres Held := do
  if msqid ≥ MSGMAX then
    return held
  let id ← indexOf msqid
  let held ← acquireSlot .msq id k held
  if (k.slot (.msq, id)).state = .UNUSED then releaseSlot .msq id held
  else if cmd = IPC_STAT ∨ cmd = IPC_SET ∨ cmd = IPC_RMID then releaseSlot .msq id held
  else releaseSlot .msq id held

/-- The calls of `shm.c`, `semaphore.c` and `msg.c`. -/
def Op.isIpc : Op → Bool
  | .fork _ | .exit _ | .wait _ | .kill .. => false
  | _ => true

/-- The way of a call through the slot locks. -/
def Op.path (L : Layout) (sleeps : ℕ) (k : Kernel) (held : Held) : Op → Kres Held
  | .shmget _ key _ flag _ => getPath .shm key flag k held
  | .semget _ key _ flag => getPath .sem key flag k held
  | .msgget _ key _ flag => getPath .msq key flag k held
  | .shmat _ shmid _ _ _ => shmatPath shmid k held
  | .shmdt p shmaddr => shmdtPath p shmaddr k held
  | .shmctl _ shmid cmd _ => shmctlPath shmid cmd k held
  | .semop p semid ops _ => semopPath L p semid ops k held
  | .resume p _ => resumePath L p k held
  | .semctl _ semid _ cmd _ _ => semctlPath semid cmd k held
  | .msgsnd _ msqid content nowait _ => msgsndPath msqid content nowait sleeps k held
  | .msgrcv _ msqid _ msgtype nowait _ _ => msgrcvPath msqid msgtype nowait sleeps k held
  | .msgctl _ msqid cmd _ _ => msgctlPath msqid cmd k held
  | .fork _ | .exit _ | .wait _ | .kill .. => .ok held

/-! ## Calls that give their locks back -/

/-- The locks that the caller holds are recorded as held. -/
def Recorded (k : Kernel) (held : Held) : Prop := ∀ x ∈ held, (k.slot x).locked = true

/-- A call gives back what it takes: the caller ends with the locks it came with,
no `release` on the way is of a lock that it does not have, and no slot is left
locked. -/
structure GivesBack (L : Layout) (k : Kernel) (op : Op) (k' : Kernel) : Prop where
  path : ∀ sleeps held, Recorded k held → op.path L sleeps k held = .ok held
  flags : ∀ x, (k'.slot x).locked = (k.slot x).locked

/-- A `semctl` that comes to a branch without `release`. -/
def KeepsLock (k : Kernel) : Op → Prop
  | .semctl _ semid _ cmd _ _ =>
    semid < SEMMAX ∧ (k.slot (.sem, semid.toNat)).state ≠ .UNUSED ∧ ¬ Releases cmd
  | _ => False

section Path

variable {held : Held}

theorem acquireSlot_ok {u : Unit} (hheld : Recorded k held) (h : k.acquire c id = .ok u) :
    acquireSlot c id k held = .ok ((c, id) :: held) := by
  have hunlocked := Kernel.acquire_ok h
  have hnew : (c, id) ∉ held := fun hmem => by
    rw [hheld _ hmem] at hunlocked
    cases hunlocked
  simp only [acquireSlot, if_neg hnew, h]
  rfl

@[simp] theorem releaseSlot_cons : releaseSlot c id ((c, id) :: held) = .ok held := by
  simp [releaseSlot]

/-- The loop ends at a slot whose lock is free: the one that holds the key, or the
one it started from. -/
theorem searchPath_ok {n i j origin : ℕ} {hole r : Option ℕ} (hheld : Recorded k held)
    (horigin : k.acquire c (origin % c.max) = .ok ()) (hi : i = (origin + j) % c.max)
    (hn : n + j = c.max) (h : atLoop k c key n i hole = .ok r) :
    ∃ i', k.acquire c i' = .ok () ∧ searchPath k c key n i held = .ok (i', held) := by
  induction n generalizing i j hole with
  | zero =>
    refine ⟨i, ?_, rfl⟩
    rw [hi, show j = c.max by omega, Nat.add_mod_right]
    exact horigin
  | succ n ih =>
    simp only [atLoop, bind_eq_ok] at h
    obtain ⟨u, hacq, h⟩ := h
    simp only [searchPath, acquireSlot_ok hheld hacq, ok_bind, releaseSlot_cons]
    split at h
    · rename_i hkey
      exact ⟨i, hacq, by rw [if_pos hkey]; rfl⟩
    · rename_i hkey
      rw [if_neg hkey]
      refine ih (j := j + 1) ?_ (by omega) h
      rw [hi, Nat.mod_add_mod, Nat.add_assoc]

theorem atPath_ok (hheld : Recorded k held) (h : ipcAt c key k = .ok id) :
    atPath c key k held = .ok held := by
  simp only [ipcAt, bind_eq_ok] at h
  obtain ⟨r, hr, -⟩ := h
  have horigin : k.acquire c (key % c.max) = .ok () := by
    obtain ⟨n, hn⟩ : ∃ n, c.max = n + 1 := ⟨c.max - 1, by have := c.max_pos; omega⟩
    rw [hn] at hr
    simp only [atLoop, bind_eq_ok] at hr
    obtain ⟨u, hacq, -⟩ := hr
    rw [hn]
    exact hacq
  obtain ⟨i, hacq, hpath⟩ := searchPath_ok (j := 0) hheld horigin rfl rfl hr
  have hsearch : searchPath k c key c.max (key % c.max) held = .ok (i, held) := hpath
  simp only [atPath, hsearch, ok_bind, acquireSlot_ok hheld hacq, releaseSlot_cons, ite_self]

theorem getPath_ok {flag : ℕ} {create share : ℕ → Kernel → Kres Kernel} {r : ℤ}
    (hheld : Recorded k held) (h : ipcGet c key flag create share k = .ok (r, k')) :
    getPath c key flag k held = .ok held := by
  rw [ipcGet, bind_eq_ok] at h
  obtain ⟨id, hat, h⟩ := h
  simp only [ipcGetAt, bind_eq_ok] at h
  obtain ⟨u, hacq, -⟩ := h
  simp only [getPath, atPath_ok hheld hat, hat, ok_bind, acquireSlot_ok hheld hacq,
    releaseSlot_cons, ite_self]

theorem shmatPath_ok {shmid : ℤ} {shmaddr va : ℕ} {rdonly : Bool} (hheld : Recorded k held)
    (h : shmat L p shmid shmaddr rdonly k = .ok (va, k')) : shmatPath shmid k held = .ok held := by
  simp only [shmat] at h
  simp only [shmatPath]
  split at h
  · rename_i hbound
    rw [if_pos hbound]
    rfl
  rename_i hbound
  simp only [bind_eq_ok] at h
  obtain ⟨id, hid, u, hacq, -⟩ := h
  simp only [if_neg hbound, hid, ok_bind, acquireSlot_ok hheld hacq, releaseSlot_cons,
    ite_self]

theorem shmdtPath_ok {shmaddr : ℕ} (hheld : Recorded k held) (h : shmdt L p shmaddr k = .ok k') :
    shmdtPath p shmaddr k held = .ok held := by
  cases hn : (k.nodes (p, .shm)).find? fun n => n.va = shmaddr with
  | none =>
    simp only [shmdt, hn] at h
    cases h
  | some n =>
    simp only [shmdt, hn] at h
    split at h
    · cases h
    simp only [bind_eq_ok] at h
    obtain ⟨⟨pt, m⟩, -, u, hacq, -⟩ := h
    have hacq' : k.acquire .shm n.slot = .ok u := hacq
    rw [shmdtPath, hn]
    simp only [acquireSlot_ok hheld hacq', ok_bind, releaseSlot_cons]

theorem shmctlPath_ok {shmid r : ℤ} {bufFlag : ℕ} (hheld : Recorded k held)
    (h : shmctl L shmid cmd bufFlag k = .ok (r, k')) : shmctlPath shmid cmd k held = .ok held := by
  simp only [shmctl] at h
  simp only [shmctlPath]
  split at h
  · rename_i hbound
    rw [if_pos hbound]
    rfl
  rename_i hbound
  simp only [bind_eq_ok] at h
  obtain ⟨u, hacq, -⟩ := h
  simp only [if_neg hbound, ok_bind, acquireSlot_ok hheld hacq, releaseSlot_cons, ite_self]

theorem semopLoop_result {ops : List SemBuf} (h : semopLoop L p id ops k = .ok (r, events, k')) :
    r ≠ .done (-4) := by
  induction ops generalizing k events with
  | nil =>
    cases h
    decide
  | cons b rest ih =>
    cases semopLoop_turn h with
    | unknown => decide
    | sleeps => decide
    | quiet _ _ _ hrest => exact ih hrest
    | signal _ _ _ hrest => exact ih hrest

theorem semopExit_ok (hr : r ≠ .done (-4)) : semopExit id r ((.sem, id) :: held) = .ok held := by
  cases r with
  | done r =>
    have hr' : r ≠ -4 := fun heq => hr (by rw [heq])
    simp only [semopExit, if_neg hr', releaseSlot_cons]
  | asleep => exact releaseSlot_cons

theorem semopPath_ok {ops : List SemBuf} (hheld : Recorded k held)
    (h : semop L p semid ops k = .ok (r, events, k')) :
    semopPath L p semid ops k held = .ok held := by
  simp only [semopPath, h]
  simp only [semop] at h
  split at h
  · rename_i hbound
    rw [if_pos hbound]
    rfl
  rename_i hbound
  simp only [bind_eq_ok] at h
  obtain ⟨id, hid, u, hacq, h⟩ := h
  simp only [if_neg hbound, hid, ok_bind, acquireSlot_ok hheld hacq, releaseSlot_cons]
  split at h
  · rename_i hunused
    rw [if_pos hunused]
  rename_i huse
  rw [if_neg huse]
  simp only [bind_eq_ok] at h
  obtain ⟨⟨buf, k₁⟩, -, h⟩ := h
  split at h
  · cases h
  · exact semopExit_ok (semopLoop_result h)

theorem resumePath_ok (hheld : Recorded k held) (h : semopResume L p k = .ok (r, events, k')) :
    resumePath L p k held = .ok held := by
  simp only [resumePath, h]
  simp only [semopResume] at h
  split at h
  · rename_i id b rest hcall
    simp only [bind_eq_ok, pure_eq_ok, Prod.mk.injEq] at h
    obtain ⟨u, hacq, ⟨r', events', k₁⟩, hloop, rfl, -, -⟩ := h
    simp only [hcall, acquireSlot_ok hheld hacq, ok_bind]
    exact semopExit_ok (semopLoop_result hloop)
  · cases h

theorem sleepPath_ok (hheld : Recorded k held) (hacq : k.acquire c id = .ok ()) (n : ℕ) :
    sleepPath c id k n ((c, id) :: held) = .ok ((c, id) :: held) := by
  induction n with
  | zero => rfl
  | succ n ih =>
    simp only [sleepPath, releaseSlot_cons, ok_bind, acquireSlot_ok hheld hacq]
    exact ih

theorem msgsndPath_ok {content : MsgBuf} {nowait : Bool} {r : MsgResult}
    (hheld : Recorded k held) (h : msgsnd L msqid content nowait k = .ok (r, k')) (sleeps : ℕ) :
    msgsndPath msqid content nowait sleeps k held = .ok held := by
  simp only [msgsnd] at h
  simp only [msgsndPath]
  split at h
  · rename_i hbound
    rw [if_pos hbound]
    rfl
  rename_i hbound
  simp only [bind_eq_ok] at h
  obtain ⟨id, hid, u, hacq, -⟩ := h
  simp only [if_neg hbound, hid, ok_bind, acquireSlot_ok hheld hacq, releaseSlot_cons,
    sleepPath_ok hheld hacq, pure_eq, ite_self]

theorem msgrcvPath_ok {r : ℤ} {msgsz msgtype : ℕ} {nowait : Bool} {content : Option MsgBuf}
    (hheld : Recorded k held)
    (h : msgrcv L msqid msgsz msgtype nowait k = .ok (.done r, content, k')) (sleeps : ℕ) :
    msgrcvPath msqid msgtype nowait sleeps k held = .ok held := by
  simp only [msgrcv] at h
  simp only [msgrcvPath]
  split at h
  · rename_i hbound
    rw [if_pos hbound]
    rfl
  rename_i hbound
  simp only [bind_eq_ok] at h
  obtain ⟨id, hid, u, hacq, h⟩ := h
  simp only [if_neg hbound, hid, ok_bind, acquireSlot_ok hheld hacq, releaseSlot_cons,
    sleepPath_ok hheld hacq]
  split at h
  · rename_i hunused
    rw [if_pos hunused]
  rename_i huse
  rw [if_neg huse]
  split at h
  · rename_i hempty
    -- A receive from an empty queue has returned, so it was not to block.
    cases nowait with
    | false => cases h
    | true => rw [if_pos ⟨hempty, rfl⟩]
  rename_i hnonempty
  rw [if_neg (fun hboth => hnonempty hboth.1)]
  simp only [bind_eq_ok] at h
  obtain ⟨found, hfound, -⟩ := h
  simp only [hfound, ok_bind]
  cases found with
  | none => rfl
  | some prev => rfl

theorem msgctlPath_ok {r : ℤ} {maxlen flag : ℕ} (hheld : Recorded k held)
    (h : msgctl L p msqid cmd maxlen flag k = .ok (r, k')) :
    msgctlPath msqid cmd k held = .ok held := by
  simp only [msgctl] at h
  simp only [msgctlPath]
  split at h
  · rename_i hbound
    rw [if_pos hbound]
    rfl
  rename_i hbound
  simp only [bind_eq_ok] at h
  obtain ⟨id, hid, u, hacq, -⟩ := h
  simp only [if_neg hbound, hid, ok_bind, acquireSlot_ok hheld hacq, releaseSlot_cons,
    ite_self]

/-- A `semctl` that comes to a branch with `release`. -/
theorem semctlPath_ok {r : ℤ} (hheld : Recorded k held)
    (h : semctl L p semid semnum cmd val array k = .ok (r, k'))
    (hgives : ¬ KeepsLock k (.semctl p semid semnum cmd val array)) :
    semctlPath semid cmd k held = .ok held := by
  simp only [semctl] at h
  simp only [semctlPath]
  split at h
  · rename_i hbound
    rw [if_pos hbound]
    rfl
  rename_i hbound
  simp only [bind_eq_ok] at h
  obtain ⟨id, hid, u, hacq, -⟩ := h
  simp only [if_neg hbound, hid, ok_bind, acquireSlot_ok hheld hacq, releaseSlot_cons]
  by_cases hunused : (k.slot (.sem, id)).state = .UNUSED
  · rw [if_pos hunused]
  rw [if_neg hunused]
  have hcmd : Releases cmd := by
    by_contra hcmd
    have hindex := indexOf_ok hid
    subst hindex
    exact hgives ⟨not_le.mp hbound, hunused, hcmd⟩
  rcases hcmd with rfl | rfl | rfl | rfl | rfl <;> rfl

/-- A `semctl` that comes to a branch without `release` ends with the lock. -/
theorem semctl_keeps {r : ℤ}
    (h : semctl L p semid semnum cmd val array k = .ok (r, k'))
    (hkeeps : KeepsLock k (.semctl p semid semnum cmd val array)) :
    ∃ id : ℕ, semid = id ∧ (k.slot (.sem, id)).locked = false ∧
      k' = k.setSlot .sem id { k.slot (.sem, id) with locked := true } := by
  obtain ⟨hbound, huse, hcmd⟩ := hkeeps
  obtain ⟨rfl, hmax | hunused⟩ | ⟨id, rfl, -, hfree, -, hdone⟩ := semctl_done h
  · exact absurd hbound (not_lt.mpr hmax)
  · exact absurd hunused huse
  refine ⟨id, rfl, hfree, ?_⟩
  cases hdone with
  | rmid h => exact absurd (.inl h) hcmd
  | stat h => exact absurd (.inr (.inl h)) hcmd
  | getall h => exact absurd (.inr (.inr (.inl h))) hcmd
  | setall h => exact absurd (.inr (.inr (.inr (.inl h)))) hcmd
  | setval h => exact absurd (.inr (.inr (.inr (.inr h)))) hcmd
  | getval _ _ _ hk => exact hk
  | unknown _ hk => exact hk

end Path

theorem Call.path_ok {held : Held} (h : Call L k op k') (hipc : op.isIpc)
    (hgives : ¬ KeepsLock k op) (hheld : Recorded k held) (sleeps : ℕ) :
    op.path L sleeps k held = .ok held := by
  cases h with
  | shmget hcall | semget hcall | msgget hcall => exact getPath_ok hheld hcall
  | shmat hcall => exact shmatPath_ok hheld hcall
  | shmdt hcall => exact shmdtPath_ok hheld hcall
  | shmctl hcall => exact shmctlPath_ok hheld hcall
  | semop hcall => exact semopPath_ok hheld hcall
  | resume hcall => exact resumePath_ok hheld hcall
  | semctl hcall => exact semctlPath_ok hheld hcall hgives
  | msgsnd hcall => exact msgsndPath_ok hheld hcall sleeps
  | msgrcv hcall => exact msgrcvPath_ok hheld hcall sleeps
  | msgctl hcall => exact msgctlPath_ok hheld hcall
  | fork => cases hipc
  | exit => cases hipc
  | wait => cases hipc
  | kill => cases hipc

theorem GetCall.locked {r : ℤ} (h : GetCall L c key k r k') (x : IpcKind × ℕ) :
    (k'.tag x).locked = (k.tag x).locked := by
  cases h.got with
  | failed _ htag => rw [htag]
  | found _ _ _ htag => rw [htag]
  | @created id _ _ _ htag =>
    rw [htag]
    by_cases hx : x = (c, id)
    · rw [hx, update_self]
    · rw [update_of_ne hx]

/-- A `semctl` that does not come to a branch without `release`. -/
theorem semctl_gives {α : Type*} {f : Kernel → α} {r : α → α → Prop} (hf : Retiring f r)
    {n : ℤ} (h : semctl L p semid semnum cmd val array k = .ok (n, k'))
    (hgives : ¬ KeepsLock k (.semctl p semid semnum cmd val array)) : r (f k) (f k') := by
  by_cases hcmd : Releases cmd
  · exact semctl_retiring hf hcmd h
  obtain ⟨rfl, -⟩ | ⟨id, rfl, hmax, -, huse, -⟩ := semctl_done h
  · exact hf.refl _
  · exact absurd ⟨by omega, huse, hcmd⟩ hgives

theorem Call.flags (h : Call L k op k') (hipc : op.isIpc) (hgives : ¬ KeepsLock k op)
    (x : IpcKind × ℕ) : (k'.tag x).locked = (k.tag x).locked := by
  cases h with
  | shmget hcall => exact GetCall.locked (c := .shm) ⟨_, _, hcall⟩ x
  | semget hcall => exact GetCall.locked (c := .sem) ⟨_, _, _, hcall⟩ x
  | msgget hcall => exact GetCall.locked (c := .msq) ⟨_, _, _, hcall⟩ x
  | shmat hcall => rw [shmat_tag hcall]
  | shmdt hcall => exact (shmdt_dropping tag_retiring.toDropping hcall).locked x
  | shmctl hcall => exact (shmctl_retiring tag_retiring hcall).locked x
  | semop hcall => rw [semop_quiet tag_quiet hcall]
  | resume hcall => rw [semopResume_quiet tag_quiet hcall]
  | semctl hcall => exact (semctl_gives tag_retiring hcall hgives).locked x
  | msgsnd hcall => rw [msgsnd_quiet tag_quiet hcall]
  | msgrcv hcall => rw [msgrcv_quiet tag_quiet hcall]
  | msgctl hcall => exact (msgctl_retiring tag_retiring hcall).locked x
  | fork => cases hipc
  | exit => cases hipc
  | wait => cases hipc
  | kill => cases hipc

/-- An IPC call gives back what it takes, on every way through it, exactly when it
is not a `GETVAL` or an unknown command of `semctl` on a set in use. -/
theorem slot_locks_given_back_iff {op : Op} (h : Call L k op k') (hipc : op.isIpc) :
    GivesBack L k op k' ↔ ¬ KeepsLock k op := by
  constructor
  · intro hgives hkeeps
    cases h with
    | semctl hcall =>
      obtain ⟨id, -, hfree, rfl⟩ := semctl_keeps hcall hkeeps
      have hflag := hgives.flags (.sem, id)
      simp only [Kernel.setSlot, update_self, hfree] at hflag
      cases hflag
    | _ => exact hkeeps
  · intro hgives
    exact ⟨fun sleeps held hheld => h.path_ok hipc hgives hheld sleeps, h.flags hipc hgives⟩

/-- A process creates a set and sets its semaphore, and the lock is back. -/
theorem setval_gives_back :
    ∃ k₀ before k', smallBoot smallLayout = .ok k₀ ∧ IsRun (Step smallLayout) k₀ before ∧
      Call smallLayout (last k₀ before) (.semctl 0 0 0 SETVAL 3 fun _ => 0) k' ∧
      GivesBack smallLayout (last k₀ before) (.semctl 0 0 0 SETVAL 3 fun _ => 0) k' := by
  obtain ⟨k₀, before, hk₀, hbefore, ⟨r, k'⟩, hcall, -⟩ := boot_run (L := smallLayout)
    [.semget 0 0 1 0x8fff]
    (fun k₀ run => (semctl smallLayout 0 0 0 SETVAL 3 (fun _ => 0) (last k₀ run)).Yields fun x =>
      x.1 = 0)
    (by decide +kernel)
  refine ⟨k₀, before, k', hk₀, hbefore, .semctl hcall, ?_⟩
  refine (slot_locks_given_back_iff (.semctl hcall) rfl).mpr fun hkeeps => hkeeps.2.2 ?_
  simp [Releases]

/-- A process creates a set and asks for the value of its semaphore: it returns
with the lock of the set, and the next call on the set does not come back. -/
theorem getval_keeps_lock :
    ∃ k₀ before k', smallBoot smallLayout = .ok k₀ ∧ IsRun (Step smallLayout) k₀ before ∧
      Call smallLayout (last k₀ before) (.semctl 0 0 0 GETVAL 0 fun _ => 0) k' ∧
      semctlPath 0 GETVAL (last k₀ before) [] = .ok [(.sem, 0)] ∧
      semctlPath 0 GETVAL k' [(.sem, 0)] = .error (.panic "acquire") ∧
      ¬ GivesBack smallLayout (last k₀ before) (.semctl 0 0 0 GETVAL 0 fun _ => 0) k' := by
  obtain ⟨k₀, before, hk₀, hbefore, ⟨r, k'⟩, hcall, hfree, hlocked, huse⟩ := boot_run
    (L := smallLayout) [.semget 0 0 1 0x8fff]
    (fun k₀ run => (semctl smallLayout 0 0 0 GETVAL 0 (fun _ => 0) (last k₀ run)).Yields fun x =>
      ((last k₀ run).slot (.sem, 0)).locked = false ∧ (x.2.slot (.sem, 0)).locked = true ∧
        ((last k₀ run).slot (.sem, 0)).state ≠ .UNUSED)
    (by decide +kernel)
  refine ⟨k₀, before, k', hk₀, hbefore, .semctl hcall, ?_, rfl, fun hgives => ?_⟩
  · have hacq : (last k₀ before).acquire .sem 0 = .ok () := by
      rw [Kernel.acquire, hfree]
      rfl
    have hnone : Recorded (last k₀ before) [] := fun _ hx => absurd hx List.not_mem_nil
    have htake := acquireSlot_ok hnone hacq
    have hid : indexOf 0 = .ok 0 := rfl
    simp only [semctlPath, hid, ok_bind, htake, if_neg huse]
    rfl
  · rw [hgives.flags, hfree] at hlocked
    cases hlocked

end LearnOS.Ipc
