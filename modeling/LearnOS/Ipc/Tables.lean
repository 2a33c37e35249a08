import LearnOS.Ipc.Frame
import Mathlib.Logic.Relation

/-!
# Moves on the tables of references

What the IPC calls do to reference counts, slot states and lists of nodes is
made of a few moves: a node comes with its count, a node goes with its count, a
segment is marked for removal. Every call of the system is a sequence of moves,
at most preceded by the creation of a slot or by the removal of a semaphore set
or message queue. The invariants of the tables are proved for the moves alone.
-/

namespace LearnOS.Ipc

open LearnOS Relation Function

/-- The part of the kernel that the moves change. -/
@[ext] structure Tables where
  ref : IpcKind × ℕ → ℤ
  state : IpcKind × ℕ → IpcState
  nodes : Fin NPROC × IpcKind → List IpcNode
  shmid : ℕ → ShmBlock

namespace Tables

def setNodes (t : Tables) (p : Fin NPROC) (c : IpcKind) (l : List IpcNode) : Tables :=
  { t with nodes := update t.nodes (p, c) l }

def setState (t : Tables) (c : IpcKind) (id : ℕ) (st : IpcState) : Tables :=
  { t with state := update t.state (c, id) st }

def setRef (t : Tables) (c : IpcKind) (id : ℕ) (r : ℤ) : Tables :=
  { t with ref := update t.ref (c, id) r }

@[simp] theorem setNodes_nodes (t : Tables) (p : Fin NPROC) (c : IpcKind) (l : List IpcNode) :
    (t.setNodes p c l).nodes = update t.nodes (p, c) l := rfl

@[simp] theorem setNodes_ref (t : Tables) (p : Fin NPROC) (c : IpcKind) (l : List IpcNode) :
    (t.setNodes p c l).ref = t.ref := rfl

@[simp] theorem setState_state (t : Tables) (c : IpcKind) (id : ℕ) (st : IpcState) :
    (t.setState c id st).state = update t.state (c, id) st := rfl

@[simp] theorem setRef_state (t : Tables) (c : IpcKind) (id : ℕ) (r : ℤ) :
    (t.setRef c id r).state = t.state := rfl

@[simp] theorem setRef_ref (t : Tables) (c : IpcKind) (id : ℕ) (r : ℤ) :
    (t.setRef c id r).ref = update t.ref (c, id) r := rfl

/-- A node at the head of a list, with its count. -/
def share (t : Tables) (p : Fin NPROC) (c : IpcKind) (n : IpcNode) : Tables :=
  (t.setNodes p c (n :: t.nodes (p, c))).setRef c n.slot (t.ref (c, n.slot) + 1)

/-- The effect of `shm_reinit`, `sem_reinit` and `msq_reinit`. -/
def destroy (t : Tables) (c : IpcKind) (id : ℕ) : Tables :=
  { t.setState c id .UNUSED with
    shmid := if c = .shm then update t.shmid id ⟨0, NULL⟩ else t.shmid }

/-- One reference less. -/
def unshare (t : Tables) (c : IpcKind) (id : ℕ) : Tables :=
  if t.state (c, id) = .ZOMBIE ∧ t.ref (c, id) - 1 = 0 then
    (t.setRef c id (t.ref (c, id) - 1)).destroy c id
  else t.setRef c id (t.ref (c, id) - 1)

/-- `IPC_RMID` of `shmctl`. -/
def retireShm (t : Tables) (id : ℕ) : Tables :=
  if t.ref (.shm, id) = 0 then (t.setState .shm id .ZOMBIE).destroy .shm id
  else t.setState .shm id .ZOMBIE

/-- A slot that is not in use is filled. -/
def create (t : Tables) (c : IpcKind) (id : ℕ) (b : ShmBlock) : Tables :=
  { t.setState c id .USED with
    shmid := if c = .shm then update t.shmid id b else t.shmid }

end Tables

/-- A slot gets a node when it is in use or has a node already. -/
inductive Move (t : Tables) : Tables → Prop
  | share {p : Fin NPROC} {c : IpcKind} {n : IpcNode}
      (huse : t.state (c, n.slot) ≠ .UNUSED ∨ ∃ q, ∃ m ∈ t.nodes (q, c), m.slot = n.slot) :
      Move t (t.share p c n)
  | drop {p : Fin NPROC} {c : IpcKind} {n : IpcNode} {l₁ l₂ : List IpcNode}
      (hnodes : t.nodes (p, c) = l₁ ++ n :: l₂) :
      Move t ((t.setNodes p c (l₁ ++ l₂)).unshare c n.slot)
  | retireShm {id : ℕ} (huse : t.state (.shm, id) ≠ .UNUSED) : Move t (t.retireShm id)

abbrev Moves := ReflTransGen Move

theorem Moves.of_eq {t t' : Tables} (h : t' = t) : Moves t t' := h ▸ .refl

def Kernel.tables (k : Kernel) : Tables :=
  ⟨fun x => (k.slot x).refCount, fun x => (k.slot x).state, k.nodes, k.shmid⟩

section Frame

variable {L : Layout} {k k' : Kernel} {c : IpcKind} {id : ℕ} {p : Fin NPROC}

@[simp] theorem tables_setSlot (b : IpcSlot) :
    (k.setSlot c id b).tables = (k.tables.setRef c id b.refCount).setState c id b.state := by
  simp only [Kernel.setSlot, Kernel.tables, Tables.setRef, Tables.setState, Tables.mk.injEq,
    and_true]
  constructor
  · funext x
    exact apply_update (fun _ b => b.refCount) k.slot (c, id) b x
  · funext x
    exact apply_update (fun _ b => b.state) k.slot (c, id) b x

@[simp] theorem setRef_self (t : Tables) (c : IpcKind) (id : ℕ) :
    t.setRef c id (t.ref (c, id)) = t := by
  simp [Tables.setRef]

@[simp] theorem setState_self (t : Tables) : t.setState c id (t.state (c, id)) = t := by
  simp [Tables.setState]

/-- A slot whose count and state stay as they are. -/
theorem tables_setSlot_same {b : IpcSlot} (href : b.refCount = (k.slot (c, id)).refCount)
    (hstate : b.state = (k.slot (c, id)).state) : (k.setSlot c id b).tables = k.tables := by
  rw [tables_setSlot, href, hstate]
  exact (congrArg (Tables.setState · c id _) (setRef_self k.tables c id)).trans
    (setState_self k.tables)

theorem tables_quiet : Quiet Kernel.tables where
  heap _ _ := rfl
  sem _ _ _ _ := rfl
  msq _ _ _ := rfl
  msg _ _ _ := rfl
  state _ _ _ := rfl
  want _ _ _ := rfl
  call _ _ _ := rfl

theorem clear_tables (s : KHeap) (flag : ℕ) :
    (k.clear c id s flag).tables = k.tables.destroy c id := by
  rw [Kernel.clear, tables_setSlot]
  cases c with
  | shm =>
    exact congrArg (Tables.setState · .shm id .UNUSED)
      (setRef_self (k.setShm id ⟨0, NULL⟩).tables .shm id)
  | sem => exact congrArg (Tables.setState · .sem id .UNUSED) (setRef_self k.tables .sem id)
  | msq => exact congrArg (Tables.setState · .msq id .UNUSED) (setRef_self k.tables .msq id)

theorem lower_tables : (k.lower c id).tables = k.tables.setRef c id (k.tables.ref (c, id) - 1) := by
  rw [Kernel.lower, tables_setSlot]
  exact setState_self (k.tables.setRef c id (k.tables.ref (c, id) - 1))

theorem unref_tables (s : KHeap) (flag : ℕ) :
    (k.unref c id s flag).tables = k.tables.unshare c id := by
  rw [Kernel.unref, apply_ite Kernel.tables, clear_tables, lower_tables]
  rfl

theorem share_tables (n : IpcNode) : (k.share p c n).tables = k.tables.share p c n := by
  rw [Kernel.share, addRef, tables_setSlot]
  exact setState_self (k.tables.share p c n)

theorem tables_sharing (p : Fin NPROC) : Sharing p Kernel.tables Moves where
  refl _ := .refl
  trans _ _ _ h h' := h.trans h'
  heap _ _ := rfl
  table _ _ _ := rfl
  share k c n huse := by
    rw [share_tables]
    exact .single (.share huse)

theorem tables_reaping : Reaping Kernel.tables Moves where
  refl _ := .refl
  trans _ _ _ h h' := h.trans h'
  heap _ _ := rfl
  table _ _ _ _ := rfl
  drop k p c n l₁ l₂ s flag hl _ := by
    rw [unref_tables]
    exact .single (Move.drop (t := k.tables) hl)
  reset _ _ _ := .refl

end Frame

end LearnOS.Ipc
