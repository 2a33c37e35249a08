import LearnOS.Ipc.Inversion
import LearnOS.Vm.Copy

/-!
# The control calls with the structure of the user

`shmctl` and `msgctl` take a structure in user memory. For a message queue `msgctl`
itself copies it; for shared memory `sys_shmctl` passes a structure on its own stack.
`StatReportsSet` says that `IPC_SET` takes the values of the user and that `IPC_STAT`
hands them back.

## Implementation notes

The structures are lists of 32-bit words in the byte order of the machine. What an
uninitialised variable holds is an argument.
-/

namespace LearnOS.Ipc

open LearnOS Function Kres

/-! ## The structures in memory -/

def leBytes (w : BitVec 32) : List (BitVec 8) :=
  [w.extractLsb' 0 8, w.extractLsb' 8 8, w.extractLsb' 16 8, w.extractLsb' 24 8]

def leWord (l : List (BitVec 8)) : BitVec 32 :=
  l.getD 3 0 ++ l.getD 2 0 ++ l.getD 1 0 ++ l.getD 0 0

def IpcState.code : IpcState → BitVec 32
  | .UNUSED => 0
  | .ZOMBIE => 1
  | .USED => 2

structure ShmidDs where
  sz : BitVec 32
  refCount : BitVec 32
  flag : BitVec 32
  state : BitVec 32

structure MsqidDs where
  msgCount : BitVec 32
  maxlen : BitVec 32
  refCount : BitVec 32
  state : BitVec 32
  flag : BitVec 32

def ShmidDs.bytes (d : ShmidDs) : List (BitVec 8) :=
  leBytes d.sz ++ leBytes d.refCount ++ leBytes d.flag ++ leBytes d.state

def ShmidDs.ofBytes (l : List (BitVec 8)) : ShmidDs :=
  ⟨leWord l, leWord (l.drop 4), leWord (l.drop 8), leWord (l.drop 12)⟩

def MsqidDs.bytes (d : MsqidDs) : List (BitVec 8) :=
  leBytes d.msgCount ++ leBytes d.maxlen ++ leBytes d.refCount ++ leBytes d.state ++ leBytes d.flag

def MsqidDs.ofBytes (l : List (BitVec 8)) : MsqidDs :=
  ⟨leWord l, leWord (l.drop 4), leWord (l.drop 8), leWord (l.drop 12), leWord (l.drop 16)⟩

/-- What `IPC_STAT` reports of a segment. -/
def Kernel.shmidDs (k : Kernel) (id : ℕ) : ShmidDs where
  sz := BitVec.ofNat 32 (k.shmid id).sz
  refCount := BitVec.ofInt 32 (k.slot (.shm, id)).refCount
  flag := BitVec.ofNat 32 (k.slot (.shm, id)).flag
  state := (k.slot (.shm, id)).state.code

/-- What `IPC_STAT` reports of a message queue. -/
def Kernel.msqidDs (k : Kernel) (id : ℕ) : MsqidDs where
  msgCount := BitVec.ofInt 32 (k.msqid id).msgCount
  maxlen := BitVec.ofNat 32 (k.msqid id).maxlen
  refCount := BitVec.ofInt 32 (k.slot (.msq, id)).refCount
  state := (k.slot (.msq, id)).state.code
  flag := BitVec.ofNat 32 (k.slot (.msq, id)).flag

/-! ## The calls -/

def Kernel.setMem (k : Kernel) (m : KMem) : Kernel := { k with vm := { k.vm with mem := m } }

/-- `copyout` to the process that makes the call. -/
def Kernel.copyoutTo (k : Kernel) (p : Fin NPROC) (dst : ℕ) (src : List (BitVec 8)) :
    Kres (ℤ × Kernel) :=
  match (k.vm.proc p).pagetable with
  | none => .error .nullLoad
  | some pt => do
      let (r, m) ← copyout pt dst src k.vm.mem
      return (r, k.setMem m)

/-- `copyin` from the process that makes the call. -/
def Kernel.copyinFrom (k : Kernel) (p : Fin NPROC) (src len : ℕ) : Kres (ℤ × List (BitVec 8)) :=
  match (k.vm.proc p).pagetable with
  | none => .error .nullLoad
  | some pt => copyin pt src len k.vm.mem

/-- The structure of the caller after `shmctl`. -/
def shmctlBuf (shmid cmd : ℤ) (buf : ShmidDs) (k : Kernel) : ShmidDs :=
  if shmid < 0 ∨ shmid ≥ SHMMAX then buf
  else if (k.slot (.shm, shmid.toNat)).state = .UNUSED then buf
  else if cmd = IPC_STAT then k.shmidDs shmid.toNat
  else buf

/-- The arguments are the registers of the caller. `mid` is not initialised, and the
result of `copyout` is not looked at. -/
def sysShmctl (L : Layout) (p : Fin NPROC) (shmid cmd buf : ℕ) (mid : ShmidDs) (k : Kernel) :
    Kres (ℤ × Kernel) := do
  let filled := shmctlBuf (wrap32 shmid) (wrap32 cmd) mid k
  let (result, k) ← shmctl L (wrap32 shmid) (wrap32 cmd) mid.flag.toNat k
  if (cmd : ℤ) = IPC_STAT then do
    let (_, k) ← k.copyoutTo p buf filled.bytes
    return (result, k)
  else return (result, k)

/-- `msgctl` with its copies. The part of `t` that `copyin` does not reach keeps what the
stack held. -/
def msgctlUser (L : Layout) (p : Fin NPROC) (msqid cmd : ℤ) (buf : ℕ) (t : MsqidDs) (k : Kernel) :
    Kres (ℤ × Kernel) := do
  if msqid ≥ MSGMAX then
    return (-1, k)
  let id ← indexOf msqid
  k.acquire .msq id
  if (k.slot (.msq, id)).state = .UNUSED then
    return (-2, k)
  else if cmd = IPC_STAT then do
    let (_, k) ← k.copyoutTo p buf (k.msqidDs id).bytes
    return (0, k)
  else if cmd = IPC_SET then do
    let (_, b) ← k.copyinFrom p buf 20
    let t := MsqidDs.ofBytes (b ++ t.bytes.drop b.length)
    return (0, (k.setMsq id { k.msqid id with maxlen := t.maxlen.toNat }).setSlot .msq id
      { k.slot (.msq, id) with flag := t.flag.toNat })
  else msgctl L p msqid cmd t.maxlen.toNat t.flag.toNat k

def sysMsgctl (L : Layout) (p : Fin NPROC) (msqid cmd buf : ℕ) (t : MsqidDs) (k : Kernel) :
    Kres (ℤ × Kernel) :=
  msgctlUser L p (wrap32 msqid) (wrap32 cmd) buf t k

variable {L : Layout} {p : Fin NPROC} {msqid cmd : ℤ} {id buf buf₂ : ℕ} {t : MsqidDs}
  {k k' : Kernel} {pt : PageTable} {m : KMem}
  {r : ℤ}

theorem msgctl_stat_eq (hmax : ¬ msqid ≥ MSGMAX) (hid : indexOf msqid = .ok id)
    (hlock : k.acquire .msq id = .ok ()) (hused : (k.slot (.msq, id)).state ≠ .UNUSED)
    (maxlen flag : ℕ) : msgctl L p msqid IPC_STAT maxlen flag k = .ok (0, k) := by
  simp only [msgctl, if_neg hmax, hid, hlock, ok_bind, if_neg hused, if_true, pure_eq]

theorem msgctl_set_eq (hmax : ¬ msqid ≥ MSGMAX) (hid : indexOf msqid = .ok id)
    (hlock : k.acquire .msq id = .ok ()) (hused : (k.slot (.msq, id)).state ≠ .UNUSED)
    (maxlen flag : ℕ) : msgctl L p msqid IPC_SET maxlen flag k =
      .ok (0, (k.setMsq id { k.msqid id with maxlen := maxlen }).setSlot .msq id
        { k.slot (.msq, id) with flag := flag }) := by
  have hne : IPC_SET ≠ IPC_STAT := by decide
  simp only [msgctl, if_neg hmax, hid, hlock, ok_bind, if_neg hused, if_neg hne, if_true,
    pure_eq]

/-- The call does to the tables what `msgctl` does with some values for the fields that can
be set; beyond that it writes to the memory of the user. -/
theorem msgctlUser_msgctl (h : msgctlUser L p msqid cmd buf t k = .ok (r, k')) :
    ∃ maxlen flag k₁ m, msgctl L p msqid cmd maxlen flag k = .ok (r, k₁) ∧ k' = k₁.setMem m := by
  simp only [msgctlUser] at h
  split at h
  · rename_i hmax
    cases h
    exact ⟨0, 0, k, k.vm.mem, by simp only [msgctl, if_pos hmax, pure_eq], rfl⟩
  rename_i hmax
  simp only [bind_eq_ok] at h
  obtain ⟨id, hid, ⟨⟩, hlock, h⟩ := h
  split at h
  · rename_i hunused
    cases h
    refine ⟨0, 0, k, k.vm.mem, ?_, rfl⟩
    simp only [msgctl, if_neg hmax, hid, hlock, ok_bind, if_pos hunused, pure_eq]
  rename_i hused
  split at h
  · rename_i hstat
    subst hstat
    simp only [Kernel.copyoutTo] at h
    split at h
    · cases h
    · simp only [bind_eq_ok, pure_eq_ok, Prod.mk.injEq] at h
      obtain ⟨-, ⟨⟨-, m⟩, -, rfl⟩, rfl, rfl⟩ := h
      exact ⟨0, 0, k, m, msgctl_stat_eq hmax hid hlock hused 0 0, rfl⟩
  split at h
  · rename_i hset
    subst hset
    simp only [bind_eq_ok, pure_eq_ok, Prod.mk.injEq] at h
    obtain ⟨b, -, rfl, rfl⟩ := h
    exact ⟨_, _, _, k.vm.mem, msgctl_set_eq hmax hid hlock hused _ _, rfl⟩
  · exact ⟨_, _, k', k'.vm.mem, h, rfl⟩

/-! ## Both kinds -/

/-- A segment or a message queue, by its identifier. -/
inductive CtlTarget where
  | shm (id : ℕ)
  | msq (id : ℕ)

namespace CtlTarget

/-- The size of the structure of the user. -/
def size : CtlTarget → ℕ
  | .shm _ => 16
  | .msq _ => 20

def Exists (k : Kernel) : CtlTarget → Prop
  | .shm id => id < SHMMAX ∧ (k.slot (.shm, id)).state ≠ .UNUSED
  | .msq id => id < MSGMAX ∧ (k.slot (.msq, id)).state ≠ .UNUSED

/-- The system call. `stack` is what the variable of the kernel holds before. -/
def ctl (L : Layout) (p : Fin NPROC) (cmd : ℤ) (buf : ℕ) (stack : List (BitVec 8)) (k : Kernel) :
    CtlTarget → Kres (ℤ × Kernel)
  | .shm id => sysShmctl L p id cmd.toNat buf (ShmidDs.ofBytes stack) k
  | .msq id => sysMsgctl L p id cmd.toNat buf (MsqidDs.ofBytes stack) k

/-- The fields that can be set get the values of a structure. -/
def update (user : List (BitVec 8)) (k : Kernel) : CtlTarget → Kernel
  | .shm id => k.setSlot .shm id
      { k.slot (.shm, id) with flag := (ShmidDs.ofBytes user).flag.toNat }
  | .msq id => (k.setMsq id
      { k.msqid id with maxlen := (MsqidDs.ofBytes user).maxlen.toNat }).setSlot .msq id
        { k.slot (.msq, id) with flag := (MsqidDs.ofBytes user).flag.toNat }

/-- The values of a structure for the fields that can be set, and the present sizes, counts
and state. -/
def report (user : List (BitVec 8)) (k : Kernel) : CtlTarget → List (BitVec 8)
  | .shm id => ({ k.shmidDs id with flag := (ShmidDs.ofBytes user).flag } : ShmidDs).bytes
  | .msq id => ({ k.msqidDs id with
      maxlen := (MsqidDs.ofBytes user).maxlen
      flag := (MsqidDs.ofBytes user).flag } : MsqidDs).bytes

end CtlTarget

/-- `IPC_SET` from `buf` succeeds and changes the fields that can be set to the values of the
user and nothing else. `IPC_STAT` to `buf₂` then succeeds, leaves these values with the
present sizes, counts and state in `buf₂`, and changes nothing else. -/
def StatReportsSet (L : Layout) (p : Fin NPROC) (pt : PageTable) (target : CtlTarget)
    (buf buf₂ : ℕ) (k : Kernel) : Prop :=
  ∀ stack stack₂ : List (BitVec 8), ∃ m : KMem,
    target.ctl L p IPC_SET buf stack k =
      .ok (0, target.update (k.vm.mem.loadUser pt buf target.size) k) ∧
    target.ctl L p IPC_STAT buf₂ stack₂
        (target.update (k.vm.mem.loadUser pt buf target.size) k) =
      .ok (0, (target.update (k.vm.mem.loadUser pt buf target.size) k).setMem m) ∧
    m.loadUser pt buf₂ target.size = target.report (k.vm.mem.loadUser pt buf target.size) k ∧
    m = { k.vm.mem with frame := m.frame } ∧
    ∀ pa, (∀ i < target.size, pt.byteAddr (buf₂ + i) ≠ pa) → m.byte pa = k.vm.mem.byte pa

/-! ## Message queues -/

@[simp] theorem MsqidDs.length_bytes (d : MsqidDs) : d.bytes.length = 20 := rfl

theorem wrap32_natCast {n : ℕ} (h : n < 2 ^ 31) : wrap32 n = n :=
  Int.bmod_eq_of_le (by omega) (by omega)

theorem copyinFrom_readable (hpt : (k.vm.proc p).pagetable = some pt) {len : ℕ}
    (hread : ∀ i < len, CopyinOk pt (buf + i)) :
    k.copyinFrom p buf len = .ok (0, k.vm.mem.loadUser pt buf len) := by
  obtain ⟨c, hlead, hcall⟩ := copyin_spec pt buf len k.vm.mem
  obtain rfl : c = len := hlead.eq_len_iff.mpr hread
  rw [if_pos rfl] at hcall
  simp only [Kernel.copyinFrom, hpt, hcall]

/-- The checks of a call for an existing queue. -/
theorem sysMsgctl_locked (hid : id < MSGMAX) (hlock : (k.slot (.msq, id)).locked = true) :
    sysMsgctl L p id cmd.toNat buf t k = .error .deadlock := by
  have hmax : ¬ (id : ℤ) ≥ MSGMAX := by omega
  simp only [MSGMAX] at hid
  simp only [sysMsgctl, msgctlUser, wrap32_natCast (by omega : id < 2 ^ 31), if_neg hmax,
    indexOf_natCast, ok_bind, Kernel.acquire, hlock, if_true, error_bind]

theorem sysMsgctl_set (hid : id < MSGMAX) (hused : (k.slot (.msq, id)).state ≠ .UNUSED)
    (hlock : (k.slot (.msq, id)).locked = false) (hpt : (k.vm.proc p).pagetable = some pt)
    (hread : ∀ i < 20, CopyinOk pt (buf + i)) :
    sysMsgctl L p id IPC_SET.toNat buf t k =
      .ok (0, (CtlTarget.msq id).update (k.vm.mem.loadUser pt buf 20) k) := by
  have hmax : ¬ (id : ℤ) ≥ MSGMAX := by omega
  have hcmd : wrap32 (IPC_SET.toNat : ℕ) = IPC_SET := rfl
  have hne : IPC_SET ≠ IPC_STAT := by decide
  simp only [MSGMAX] at hid
  have hlen : (k.vm.mem.loadUser pt buf 20).length = 20 := by simp [KMem.loadUser]
  simp only [sysMsgctl, msgctlUser, wrap32_natCast (by omega : id < 2 ^ 31), if_neg hmax,
    indexOf_natCast, ok_bind, Kernel.acquire, hlock, Bool.false_eq_true, if_false,
    if_neg hused, hcmd, if_neg hne, if_true, copyinFrom_readable hpt hread, hlen,
    List.drop_of_length_le (le_of_eq t.length_bytes), List.append_nil, pure_eq,
    CtlTarget.update]

theorem sysMsgctl_stat (hid : id < MSGMAX) (hused : (k.slot (.msq, id)).state ≠ .UNUSED)
    (hlock : (k.slot (.msq, id)).locked = false) (hpt : (k.vm.proc p).pagetable = some pt)
    (hcopy : copyout pt buf (k.msqidDs id).bytes k.vm.mem = .ok (r, m)) :
    sysMsgctl L p id IPC_STAT.toNat buf t k = .ok (0, k.setMem m) := by
  have hmax : ¬ (id : ℤ) ≥ MSGMAX := by omega
  have hcmd : wrap32 (IPC_STAT.toNat : ℕ) = IPC_STAT := rfl
  simp only [MSGMAX] at hid
  simp only [sysMsgctl, msgctlUser, wrap32_natCast (by omega : id < 2 ^ 31), if_neg hmax,
    indexOf_natCast, ok_bind, Kernel.acquire, hlock, Bool.false_eq_true, if_false,
    if_neg hused, hcmd, if_true, Kernel.copyoutTo, hpt, hcopy, pure_eq]

theorem msqidDs_update (user : List (BitVec 8)) (k : Kernel) (id : ℕ) :
    (((CtlTarget.msq id).update user k).msqidDs id).bytes = (CtlTarget.msq id).report user k := by
  simp only [CtlTarget.report, CtlTarget.update, Kernel.msqidDs, Kernel.setSlot, Kernel.setMsq,
    update_self, BitVec.ofNat_toNat, BitVec.setWidth_eq]

/-! ## The result -/

theorem shm_stat_fails {stack : List (BitVec 8)} (hid : id < SHMMAX)
    (h : (CtlTarget.shm id).ctl L p IPC_STAT buf stack k = .ok (r, k')) : r ≠ 0 := by
  rintro rfl
  have hcmd : wrap32 (IPC_STAT.toNat : ℕ) = IPC_STAT := rfl
  simp only [SHMMAX] at hid
  simp only [CtlTarget.ctl, sysShmctl, wrap32_natCast (by omega : id < 2 ^ 31), hcmd,
    bind_eq_ok] at h
  obtain ⟨⟨r, k₁⟩, hctl, h⟩ := h
  have hr : r = 0 := by
    split at h
    · simp only [bind_eq_ok, pure_eq_ok, Prod.mk.injEq] at h
      exact h.choose_spec.2.1
    · exact (Prod.mk.inj (Except.ok.inj h)).1
  subst hr
  have hset : IPC_STAT ≠ IPC_SET := by decide
  have hrmid : IPC_STAT ≠ IPC_RMID := by decide
  simp only [shmctl, if_neg hset, if_neg hrmid] at hctl
  split at hctl
  · cases hctl
  · simp only [bind_eq_ok] at hctl
    obtain ⟨-, -, hctl⟩ := hctl
    split at hctl <;> cases hctl

/-- A segment of the first process: what is on the stack of the kernel becomes the
permission of the segment, and `IPC_STAT` fails. -/
theorem shmctl_set_takes_stack :
    ∃ k₀ k pt r, smallBoot smallLayout = .ok k₀ ∧
      shmget smallLayout 0 4096 0x8fff k₀ = .ok (r, k) ∧
      (k.vm.proc 0).pagetable = some pt ∧ (CtlTarget.shm 0).Exists k ∧
      (∀ i < 16, CopyinOk pt (0 + i)) ∧
      (∃ stack k', (CtlTarget.shm 0).ctl smallLayout 0 IPC_SET 0 stack k = .ok (0, k') ∧
        (k'.slot (.shm, 0)).flag ≠ (ShmidDs.ofBytes (k.vm.mem.loadUser pt 0 16)).flag.toNat) ∧
      ¬ StatReportsSet smallLayout 0 pt (.shm 0) 0 0 k := by
  have hrun : (smallBoot smallLayout).Yields fun k₀ =>
      (shmget smallLayout 0 4096 0x8fff k₀).Yields fun r => (r.2.slot (.shm, 0)).state ≠ .UNUSED ∧
        (∃ pt, (r.2.vm.proc 0).pagetable = some pt ∧ (∀ i < 16, CopyinOk pt (0 + i)) ∧
          (ShmidDs.ofBytes (r.2.vm.mem.loadUser pt 0 16)).flag ≠ 7) ∧
        ((CtlTarget.shm 0).ctl smallLayout 0 IPC_SET 0 (ShmidDs.bytes ⟨0, 0, 7, 0⟩) r.2).Yields
          fun r' => r'.1 = 0 ∧ (r'.2.slot (.shm, 0)).flag = 7 := by
    decide +kernel
  obtain ⟨k₀, hk₀, ⟨r, k⟩, hk, hused, ⟨pt, hpt, hin, huser⟩, ⟨r', k'⟩, hset, rfl, hflag⟩ := hrun
  refine ⟨k₀, k, pt, r, hk₀, hk, hpt, ⟨by decide, hused⟩, hin, ⟨_, k', hset, ?_⟩, ?_⟩
  · rw [hflag]
    intro heq
    exact huser (BitVec.eq_of_toNat_eq heq.symm)
  · intro hlaw
    obtain ⟨m, -, hstat, -⟩ := hlaw [] []
    exact shm_stat_fails (by decide) hstat rfl

/-- The values that were set are reported for a message queue whose lock is free, when
`copyout` reaches each byte of the structure or finds it there. They never are for a
segment. -/
theorem stat_reports_set_iff {target : CtlTarget} (hpt : (k.vm.proc p).pagetable = some pt)
    (hexists : target.Exists k) (hread : ∀ i < target.size, CopyinOk pt (buf + i)) :
    StatReportsSet L p pt target buf buf₂ k ↔
      ∃ id, target = .msq id ∧ (k.slot (.msq, id)).locked = false ∧
        ∀ i < target.size, (∀ j ≤ i, CopyoutOk pt (buf₂ + j)) ∨
          k.vm.mem.byte (pt.byteAddr (buf₂ + i)) =
            (target.report (k.vm.mem.loadUser pt buf target.size) k).getD i 0 := by
  cases target with
  | shm id =>
    constructor
    · intro hlaw
      obtain ⟨m, -, hstat, -⟩ := hlaw [] []
      exact absurd rfl (shm_stat_fails hexists.1 hstat)
    · rintro ⟨id', htarget, -⟩
      cases htarget
  | msq id =>
    obtain ⟨hid, hused⟩ := hexists
    set user := k.vm.mem.loadUser pt buf (CtlTarget.msq id).size with huser
    have hlen : ((CtlTarget.msq id).report user k).length = (CtlTarget.msq id).size := rfl
    have hfit : ((CtlTarget.msq id).report user k).length ≤ PGSIZE :=
      hlen.trans_le (by decide : 20 ≤ PGSIZE)
    obtain ⟨r, m, hcopy, hframe, hother, hback⟩ :=
      copyout_reads_back (bytesApart_page pt buf₂ hfit) k.vm.mem
    rw [hlen] at hother hback
    have hslot : ((CtlTarget.msq id).update user k).slot (.msq, id) =
        { k.slot (.msq, id) with flag := (MsqidDs.ofBytes user).flag.toNat } :=
      update_self _ _ _
    have hset : ∀ stack, (k.slot (.msq, id)).locked = false →
        (CtlTarget.msq id).ctl L p IPC_SET buf stack k =
          .ok (0, (CtlTarget.msq id).update user k) :=
      fun stack hlock => sysMsgctl_set hid hused hlock hpt hread
    have hstat : ∀ stack, (k.slot (.msq, id)).locked = false →
        (CtlTarget.msq id).ctl L p IPC_STAT buf₂ stack ((CtlTarget.msq id).update user k) =
          .ok (0, ((CtlTarget.msq id).update user k).setMem m) := by
      intro stack hlock
      refine sysMsgctl_stat hid (by rw [hslot]; exact hused) (by rw [hslot]; exact hlock) hpt
        (r := r) ?_
      rw [msqidDs_update]
      exact hcopy
    constructor
    · intro hlaw
      obtain ⟨m', hset', hstat', hload, -⟩ := hlaw [] []
      have hlock : (k.slot (.msq, id)).locked = false := by
        by_contra hlocked
        have hdead : (CtlTarget.msq id).ctl L p IPC_SET buf [] k = .error .deadlock :=
          sysMsgctl_locked hid (Bool.eq_true_of_not_eq_false hlocked)
        exact absurd (hdead.symm.trans hset') (by simp)
      have hmem : m = m' := by
        have heq := (Prod.mk.inj (Except.ok.inj ((hstat [] hlock).symm.trans hstat'))).2
        exact congrArg (fun k : Kernel => k.vm.mem) heq
      subst hmem
      exact ⟨id, rfl, hlock, hback.mp hload⟩
    · rintro ⟨id', htarget, hlock, hbytes⟩ stack stack₂
      cases htarget
      exact ⟨m, hset stack hlock, hstat stack₂ hlock, hback.mpr hbytes, hframe, hother⟩

/-- The values of a message queue of the first process are reported. -/
theorem msgctl_stat_reports_set :
    ∃ k₀ k pt r, smallBoot smallLayout = .ok k₀ ∧
      msgget smallLayout 0 1 0 0x8fff k₀ = .ok (r, k) ∧
      (k.vm.proc 0).pagetable = some pt ∧ (CtlTarget.msq 1).Exists k ∧
      (∀ i < 20, CopyinOk pt (0 + i)) ∧ StatReportsSet smallLayout 0 pt (.msq 1) 0 100 k := by
  have hrun : (smallBoot smallLayout).Yields fun k₀ =>
      (msgget smallLayout 0 1 0 0x8fff k₀).Yields fun r => (r.2.slot (.msq, 1)).state ≠ .UNUSED ∧
        (r.2.slot (.msq, 1)).locked = false ∧ ∃ pt, (r.2.vm.proc 0).pagetable = some pt ∧
          (∀ i < 20, CopyinOk pt (0 + i)) ∧ ∀ i < 20, CopyoutOk pt (100 + i) := by
    decide +kernel
  obtain ⟨k₀, hk₀, ⟨r, k⟩, hk, hused, hlock, pt, hpt, hread, hout⟩ := hrun
  have hexists : (CtlTarget.msq 1).Exists k := ⟨by decide, hused⟩
  exact ⟨k₀, k, pt, r, hk₀, hk, hpt, hexists, hread,
    (stat_reports_set_iff hpt hexists hread).mpr ⟨1, rfl, hlock, fun i hi =>
      Or.inl fun j hj => hout j (lt_of_le_of_lt hj hi)⟩⟩

end LearnOS.Ipc
