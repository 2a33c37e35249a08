import LearnOS.Ipc.Tables

/-!
# Calls as moves

The effect of every call on the tables of references. A call is a sequence of
moves; `shmget`, `semget` and `msgget` may create a slot before, and `IPC_RMID`
turns a semaphore set or a message queue into a zombie before.
-/

namespace LearnOS.Ipc

open LearnOS Relation Function Kres

variable {L : Layout} {k k' : Kernel} {c : IpcKind} {id : ℕ} {p : Fin NPROC} {op : Op} {r : ℤ}
  {shmid cmd : ℤ} {key flag : ℕ}

/-! ## Shared memory -/

/-- What a successful `shmat` has done: it has chosen `va`, mapped the block of
the segment there and recorded the attachment. -/
structure Attached (L : Layout) (p : Fin NPROC) (id va flag : ℕ) (k k' : Kernel) : Prop where
  use : (k.slot (.shm, id)).state ≠ .UNUSED
  flag_lt : flag < 2 ^ 4
  mapped : ∃ pt pt' m m' r, (k'.vm.proc p).pagetable = some pt' ∧
    mappages (kalloc L) pt va (shmPages (k.shmid id).sz * PGSIZE) (k.shmid id).ptr
      (shmPerm flag) m = .ok (r, pt', m')
  tables : ∃ addr, k'.tables = k.tables.share p .shm ⟨addr, flag, id, va⟩

theorem attachFlag_lt (flag : ℕ) (rdonly : Bool) : attachFlag flag rdonly < 2 ^ 4 := by
  cases rdonly with
  | false => exact Nat.mod_lt _ (by decide)
  | true =>
    have hlt : (flag >>> 8) % 2 ^ 4 < 2 ^ 4 := Nat.mod_lt _ (by decide)
    simp only [attachFlag, if_true, Nat.shiftRight_eq_div_pow ((flag >>> 8) % 2 ^ 4),
      Nat.div_eq_of_lt hlt]
    decide

theorem shmat_attached {shmaddr va : ℕ} {rdonly : Bool}
    (h : shmat L p shmid shmaddr rdonly k = .ok (va, k')) :
    k' = k ∧ va = NULL ∨
      ∃ id : ℕ, shmid = id ∧ ∃ flag, Attached L p id va flag k k' := by
  obtain ⟨rfl, rfl⟩ | ⟨id, free, s, pt, pt', m, r, addr, k₁, hid, huse, -, -, hmap, hk₁, rfl⟩ :=
    shmat_ok h
  · exact Or.inl ⟨rfl, rfl⟩
  · obtain ⟨s₂, -, rfl, -⟩ := Kernel.kmallocNode_ok hk₁
    refine Or.inr ⟨id, hid, _, huse, attachFlag_lt _ _, ⟨pt, pt', _, m, r, ?_, hmap⟩, addr, ?_⟩
    · simp [addRef, Kernel.setSlot, Kernel.setNodes, Kernel.setHeap, Kernel.setSpace,
        VmState.setTable]
    · exact share_tables (k := ((k.setHeap s).setSpace p pt' m free).setHeap s₂) _

theorem shmctl_moves {r : ℤ} {bufFlag : ℕ}
    (h : shmctl L shmid cmd bufFlag k = .ok (r, k')) : Moves k.tables k'.tables := by
  have hzombie : (k.setSlot .shm shmid.toNat
      { k.slot (.shm, shmid.toNat) with state := .ZOMBIE }).tables =
      k.tables.setState .shm shmid.toNat .ZOMBIE := by
    rw [tables_setSlot]
    exact congrArg (Tables.setState · .shm shmid.toNat .ZOMBIE)
      (setRef_self k.tables .shm shmid.toNat)
  cases shmctl_done h with
  | same hk => exact .of_eq (by rw [hk])
  | set hk =>
    rw [hk]
    exact .of_eq (tables_setSlot_same rfl rfl)
  | marked huse href hk =>
    have hretire : k.tables.retireShm shmid.toNat = _ := if_neg href
    rw [hk, hzombie, ← hretire]
    exact .single (.retireShm huse)
  | removed huse _ href hk =>
    have hretire : k.tables.retireShm shmid.toNat = _ := if_pos href
    rw [hk, clear_tables, hzombie, ← hretire]
    exact .single (.retireShm huse)

/-! ## Creation and removal -/

/-- The slot that `IPC_RMID` turns into a zombie. -/
def Op.removes : Op → Option (IpcKind × ℕ)
  | .semctl _ semid _ cmd _ _ =>
    if cmd = IPC_RMID ∧ semid < SEMMAX then some (.sem, semid.toNat) else none
  | .msgctl _ msqid cmd _ _ =>
    if cmd = IPC_RMID ∧ msqid < MSGMAX then some (.msq, msqid.toNat) else none
  | _ => none

/-- The effect of a call on the tables. -/
inductive Effect (op : Op) (t t' : Tables) : Prop
  | moves (hmoves : Moves t t')
  | create {c : IpcKind} {id : ℕ} {b : ShmBlock} (hfree : t.state (c, id) = .UNUSED)
      (hmoves : Moves (t.create c id b) t')
  | retire {c : IpcKind} {id : ℕ} (hop : op.removes = some (c, id))
      (huse : t.state (c, id) ≠ .UNUSED) (hmoves : Moves (t.setState c id .ZOMBIE) t')

theorem Effect.of_eq {t t' : Tables} (h : t' = t) : Effect op t t' :=
  .moves (.of_eq h)

/-- The tables with the block that a new segment refers to. -/
def Tables.setBlock (t : Tables) (c : IpcKind) (id : ℕ) (b : ShmBlock) : Tables :=
  { t with shmid := if c = .shm then update t.shmid id b else t.shmid }

theorem ipcGet_effect {create share : ℕ → Kernel → Kres Kernel}
    (hcreate : ∀ id k k', create id k = .ok k' → ∃ b, k'.tables = k.tables.setBlock c id b)
    (hshare : ∀ id k k', (k.slot (c, id)).state ≠ .UNUSED → share id k = .ok k' →
      Moves k.tables k'.tables)
    (h : ipcGet c key flag create share k = .ok (r, k')) : Effect op k.tables k'.tables := by
  obtain ⟨id, -, hdone⟩ := ipcGet_done h
  cases hdone with
  | refused _ _ hk => exact .of_eq (by rw [hk])
  | shared _ huse _ hk => exact .moves (hshare id k k' huse hk)
  | @created k₁ _ hfree _ hk₁ hk =>
    obtain ⟨b, hb⟩ := hcreate id k k₁ hk₁
    refine .create (b := b) hfree ?_
    have hmoves := hshare id _ _ (by simp [Kernel.setSlot, IpcSlot.create]) hk
    rw [tables_setSlot] at hmoves
    have hcreated : (k₁.tables.setRef c id ((k₁.slot (c, id)).create key flag).refCount).setState
        c id ((k₁.slot (c, id)).create key flag).state = k.tables.create c id b := by
      change (k₁.tables.setRef c id (k₁.tables.ref (c, id))).setState c id .USED = _
      rw [setRef_self, hb]
      rfl
    rwa [hcreated] at hmoves

theorem shmget_effect {size : ℕ} (h : shmget L key size flag k = .ok (r, k')) :
    Effect op k.tables k'.tables := by
  refine ipcGet_effect ?_ ?_ h
  · intro id k k' hcreate
    obtain ⟨pa, s, -, rfl⟩ := shmCreate_ok hcreate
    exact ⟨⟨size % 2 ^ 32, pa⟩, rfl⟩
  · intro id k k' _ hshare
    cases hshare
    exact .refl

theorem semget_effect {size : ℕ} (h : semget L p key size flag k = .ok (r, k')) :
    Effect op k.tables k'.tables := by
  refine ipcGet_effect ?_ ?_ h
  · intro id k k' hcreate
    obtain ⟨ptr, s, rfl⟩ := semCreate_ok hcreate
    exact ⟨⟨0, 0⟩, rfl⟩
  · exact fun id k k' huse hshare => addNode_sharing (tables_sharing p) huse hshare

theorem msgget_effect {maxlen : ℕ} (h : msgget L p key maxlen flag k = .ok (r, k')) :
    Effect op k.tables k'.tables := by
  refine ipcGet_effect ?_ ?_ h
  · intro id k k' hcreate
    refine ⟨⟨0, 0⟩, ?_⟩
    split at hcreate
    · cases hcreate
      rfl
    · cases hcreate
      rfl
  · exact fun id k k' huse hshare => addNode_sharing (tables_sharing p) huse hshare

/-- The `IPC_RMID` branch of `semctl` and `msgctl`. -/
theorem retire_effect (hop : op.removes = some (c, id)) (huse : (k.slot (c, id)).state ≠ .UNUSED)
    (hfree : (k.slot (c, id)).locked = false)
    (h : procRem L c p id (k.setSlot c id { k.slot (c, id) with state := .ZOMBIE }) = .ok (r, k')) :
    Effect op k.tables k'.tables := by
  refine .retire hop huse ?_
  have hmoves := procRem_dropping tables_reaping.toDropping
    (by simpa [Kernel.setSlot] using hfree) h
  rw [tables_setSlot] at hmoves
  change Moves ((k.tables.setRef c id (k.tables.ref (c, id))).setState c id .ZOMBIE) _ at hmoves
  rwa [setRef_self] at hmoves

theorem semctl_effect {semid semnum val r : ℤ} {array : ℕ → ℤ}
    (h : semctl L p semid semnum cmd val array k = .ok (r, k')) :
    Effect (.semctl p semid semnum cmd val array) k.tables k'.tables := by
  obtain ⟨rfl, -⟩ | ⟨id, rfl, hmax, hfree, huse, hdone⟩ := semctl_done h
  · exact .of_eq rfl
  cases hdone with
  | rmid hcmd hrem =>
    refine retire_effect ?_ huse hfree hrem
    rw [Op.removes, if_pos ⟨hcmd, by omega⟩, Int.toNat_natCast]
  | getval _ _ _ hk | unknown _ hk =>
    rw [hk]
    exact .of_eq (tables_setSlot_same rfl rfl)
  | stat _ hk => exact .of_eq (by rw [hk])
  | getall _ hk | setall _ hk | setval _ _ hk => exact .of_eq (by rw [hk]; rfl)

theorem msgctl_effect {msqid r : ℤ} {maxlen : ℕ}
    (h : msgctl L p msqid cmd maxlen flag k = .ok (r, k')) :
    Effect (.msgctl p msqid cmd maxlen flag) k.tables k'.tables := by
  obtain ⟨rfl, -⟩ | ⟨id, rfl, hmax, hfree, huse, hdone⟩ := msgctl_done h
  · exact .of_eq rfl
  cases hdone with
  | set _ hk =>
    rw [hk]
    exact .of_eq (tables_setSlot_same rfl rfl)
  | rmid hcmd hrem =>
    refine retire_effect ?_ huse hfree hrem
    rw [Op.removes, if_pos ⟨hcmd, by omega⟩, Int.toNat_natCast]
  | other _ hk => exact .of_eq (by rw [hk])

/-! ## Processes -/

theorem exit_tables (h : exit p k = .ok k') : k'.tables = k.tables := by
  simp only [exit, bind_eq_ok, pure_eq_ok] at h
  obtain ⟨vm, -, rfl⟩ := h
  rfl

theorem shmat_moves {shmaddr va : ℕ} {rdonly : Bool}
    (h : shmat L p shmid shmaddr rdonly k = .ok (va, k')) : Moves k.tables k'.tables := by
  rcases shmat_attached h with ⟨rfl, -⟩ | ⟨id, -, flag, hatt⟩
  · exact .refl
  · obtain ⟨addr, htables⟩ := hatt.tables
    rw [htables]
    exact .single (Move.share (Or.inl hatt.use))

/-- Every call is made of moves. -/
theorem Call.effect (h : Call L k op k') : Effect op k.tables k'.tables := by
  cases h with
  | shmget hcall => exact shmget_effect hcall
  | shmat hcall => exact .moves (shmat_moves hcall)
  | shmdt hcall => exact .moves (shmdt_dropping tables_reaping.toDropping hcall)
  | shmctl hcall => exact .moves (shmctl_moves hcall)
  | semget hcall => exact semget_effect hcall
  | semop hcall => exact .of_eq (semop_quiet tables_quiet hcall)
  | resume hcall => exact .of_eq (semopResume_quiet tables_quiet hcall)
  | semctl hcall => exact semctl_effect hcall
  | msgget hcall => exact msgget_effect hcall
  | msgsnd hcall => exact .of_eq (msgsnd_quiet tables_quiet hcall)
  | msgrcv hcall => exact .of_eq (msgrcv_quiet tables_quiet hcall)
  | msgctl hcall => exact msgctl_effect hcall
  | fork hcall =>
    obtain ⟨vm, -, hmoves⟩ := fork_sharing tables_sharing hcall
    exact .moves hmoves
  | exit hcall => exact .of_eq (exit_tables hcall)
  | wait hcall => exact .moves (wait_reaping tables_reaping hcall)
  | kill => exact .of_eq rfl

end LearnOS.Ipc
