import LearnOS.Ipc.State

/-!
# Shared memory

`shm.c`, the list of free virtual pages of `uvapg.c`, and the functions of
`proc.c` and `vm.c` that copy and drop attachments.

## Implementation notes

`shmat` maps upwards from the address that `uallocva` returns and does not look
at the result of `mappages`. `errno` is left out.
-/

namespace LearnOS.Ipc

open LearnOS Function

def shmget (L : Layout) (key size flag : ℕ) (k : Kernel) : Kres (ℤ × Kernel) :=
  ipcGet .shm key flag
    (fun id k => do
      let (pa, k) ← k.kmalloc L size
      return k.setShm id ⟨size % 2 ^ 32, pa⟩)
    (fun _ k => .ok k) k

/-- The list of free pages of a process after `procinit` or `freeproc`. -/
def initFreeva (L : Layout) (p : Fin NPROC) (k : Kernel) : Kres Kernel := do
  let (addr, k) ← k.kmallocNode L 24
  return { k with
    freeva := update k.freeva p [⟨addr, SHMTOP, (SHMTOP - HEAPTOP) / PGSIZE + 1⟩] }

/-- First fit. The list is read past its end when no entry is large enough. -/
def uallocva (L : Layout) (npg : ℕ) : List FreeVa → Kernel → Kres (ℕ × List FreeVa × Kernel)
  | [], _ => .error .nullLoad
  | f :: rest, k =>
    if f.npg < npg then do
      let (va, rest, k) ← uallocva L npg rest k
      return (va, f :: rest, k)
    else if f.npg = npg then do
      let k ← k.kmfree L f.addr 24
      return (f.ptr, rest, k)
    else
      return (f.ptr, ⟨f.addr, (f.ptr + 2 ^ 64 - npg * PGSIZE) % 2 ^ 64, f.npg - npg⟩ :: rest, k)

/-- The number of pages of a segment, computed in 32 bits. -/
def shmPages (sz : ℕ) : ℕ := (sz + PGSIZE - 1) % 2 ^ 32 / PGSIZE

/-- `(~IPC_W) & (~IPC_X)` expands to `(~1 << 2) & (~1 << 3)`, which clears all
four permission bits. -/
def attachFlag (flag : ℕ) (rdonly : Bool) : ℕ :=
  let flag := (flag >>> 8) % 2 ^ 4
  if rdonly then flag >>> 4 <<< 4 else flag

/-- The permission bits of an attachment. -/
def shmPerm (flag : ℕ) : Pte := PTE_U ||| BitVec.ofNat 64 flag

def shmat (L : Layout) (p : Fin NPROC) (shmid : ℤ) (shmaddr : ℕ) (rdonly : Bool) (k : Kernel) :
    Kres (ℕ × Kernel) := do
  if shmid ≥ SHMMAX then
    return (NULL, k)
  let id ← indexOf shmid
  k.acquire .shm id
  if (k.slot (.shm, id)).state = .UNUSED then
    return (NULL, k)
  let npg := shmPages (k.shmid id).sz
  let flag := attachFlag (k.slot (.shm, id)).flag rdonly
  if shmaddr ≠ NULL then
    return (NULL, k)
  let (va, free, k) ← uallocva L npg (k.freeva p) k
  match (k.vm.proc p).pagetable with
  | none => throw .nullLoad
  | some pt => do
      let (_, pt, m) ←
        mappages (kalloc L) pt va (npg * PGSIZE) (k.shmid id).ptr (shmPerm flag) k.vm.mem
      let k := { k with vm := k.vm.setTable p pt m, freeva := update k.freeva p free }
      let (addr, k) ← k.kmallocNode L IpcKind.shm.nodeSize
      return (va, addRef .shm id
        (k.setNodes p .shm (⟨addr, flag, id, va⟩ :: k.nodes (p, .shm))))

def shmdt (L : Layout) (p : Fin NPROC) (shmaddr : ℕ) (k : Kernel) : Kres Kernel :=
  match (k.nodes (p, .shm)).find? fun n => n.va = shmaddr with
  | none => .error (.panic "erase procshmblock")
  | some n =>
    match (k.vm.proc p).pagetable with
    | none => .error .nullLoad
    | some pt => do
        let (pt, m) ← uvmunmap L pt shmaddr (shmPages (k.shmid n.slot).sz) false k.vm.mem
        let k := { k with vm := k.vm.setTable p pt m }
        k.acquire .shm n.slot
        let k ← dropRef L .shm n.slot k
        let k ← k.kmfree L n.addr IpcKind.shm.nodeSize
        return k.setNodes p .shm ((k.nodes (p, .shm)).eraseP fun n => n.va = shmaddr)

/-- `IPC_STAT` falls through to the default case. -/
def shmctl (L : Layout) (shmid cmd : ℤ) (bufFlag : ℕ) (k : Kernel) : Kres (ℤ × Kernel) := do
  if shmid < 0 ∨ shmid ≥ SHMMAX then
    return (-1, k)
  let id := shmid.toNat
  k.acquire .shm id
  let b := k.slot (.shm, id)
  if b.state = .UNUSED then
    return (-1, k)
  else if cmd = IPC_SET then
    return (0, k.setSlot .shm id { b with flag := bufFlag })
  else if cmd = IPC_RMID then do
    let k := k.setSlot .shm id { b with state := .ZOMBIE }
    let k ← if b.refCount = 0 then shmReinit L id k else pure k
    return (0, k)
  else return (-2, k)

/-- `proc_freeshm`: every call of `shmdt` takes a node off the list. -/
def freeShmLoop (L : Layout) (p : Fin NPROC) : ℕ → Kernel → Kres Kernel
  | 0, k => .ok k
  | n + 1, k =>
    match k.nodes (p, .shm) with
    | [] => .ok k
    | node :: _ => do
        let k ← shmdt L p node.va k
        freeShmLoop L p n k

def procFreeshm (L : Layout) (p : Fin NPROC) (k : Kernel) : Kres Kernel :=
  freeShmLoop L p (k.nodes (p, .shm)).length k

/-- `uvmcopy_shm`, along the list of the parent. -/
def uvmcopyShm (L : Layout) (np : Fin NPROC) : List IpcNode → Kernel → Kres Kernel
  | [], k => .ok k
  | n :: rest, k => do
      k.acquire .shm n.slot
      match (k.vm.proc np).pagetable with
      | none => throw .nullLoad
      | some pt => do
          let b := k.shmid n.slot
          let (_, pt, m) ←
            mappages (kalloc L) pt n.va (shmPages b.sz * PGSIZE) b.ptr (shmPerm n.flag) k.vm.mem
          let k := addRef .shm n.slot { k with vm := k.vm.setTable np pt m }
          let (addr, k) ← k.kmallocNode L IpcKind.shm.nodeSize
          uvmcopyShm L np rest
            (k.setNodes np .shm (⟨addr, n.flag, n.slot, n.va⟩ :: k.nodes (np, .shm)))

end LearnOS.Ipc
