import LearnOS.Ipc.RefCount

/-!
# Zombie slots

A slot that is marked for removal is destroyed with its last reference. `shmctl`
looks at the count itself; `semctl` and `msgctl` leave it to the node of the
caller, which need not exist.

## Main results

`no_orphan_iff`: no zombie without references appears in a run if and only if
`IPC_RMID` of a semaphore set or message queue never meets a slot whose count is
already zero.
-/

namespace LearnOS.Ipc

open LearnOS Transition Function

variable {L : Layout} {k k' : Kernel} {t t' : Tables} {op : Op} {c : IpcKind} {id : ℕ}

/-- No zombie without references. -/
def NoOrphan (t : Tables) : Prop := ∀ c id, ¬ (t.state (c, id) = .ZOMBIE ∧ t.ref (c, id) = 0)

/-- `IPC_RMID` of a semaphore set or message queue meets a slot with references. -/
def RemovesReferenced (k : Kernel) (op : Op) : Prop :=
  ∀ c id, op.removes = some (c, id) → (k.slot (c, id)).state ≠ .UNUSED →
    (k.slot (c, id)).refCount ≠ 0

instance (k : Kernel) (op : Op) : Decidable (RemovesReferenced k op) :=
  match h : op.removes with
  | none => .isTrue fun c id heq => by simp [h] at heq
  | some (c, id) =>
    decidable_of_iff ((k.slot (c, id)).state ≠ .UNUSED → (k.slot (c, id)).refCount ≠ 0)
      (by simp [RemovesReferenced, h])

/-! ## The moves -/

theorem NoOrphan.of_slot (h : NoOrphan t) (c : IpcKind) (id : ℕ)
    (hstate : ∀ x ≠ (c, id), t'.state x = t.state x) (href : ∀ x ≠ (c, id), t'.ref x = t.ref x)
    (hslot : ¬ (t'.state (c, id) = .ZOMBIE ∧ t'.ref (c, id) = 0)) : NoOrphan t' := by
  intro d i
  by_cases hx : (d, i) = (c, id)
  · rw [hx]
    exact hslot
  · rw [hstate _ hx, href _ hx]
    exact h d i

theorem NoOrphan.share (h : NoOrphan t) (hexact : RefsExact t) {p : Fin NPROC} {n : IpcNode} :
    NoOrphan (t.share p c n) := by
  refine h.of_slot c n.slot (fun x _ => rfl) ?_ ?_
  · intro x hx
    rw [Tables.share, Tables.setRef_ref, update_of_ne hx, Tables.setNodes_ref]
  · rintro ⟨-, hzero⟩
    rw [Tables.share, Tables.setRef_ref, update_self] at hzero
    have hcount := hexact.count c n.slot
    omega

theorem NoOrphan.unshare (h : NoOrphan t) : NoOrphan (t.unshare c id) := by
  simp only [Tables.unshare]
  split
  · refine h.of_slot c id ?_ ?_ ?_
    · exact fun x hx => update_of_ne hx ..
    · exact fun x hx => update_of_ne hx ..
    · rintro ⟨hstate, -⟩
      simp [Tables.destroy] at hstate
  · rename_i hz
    refine h.of_slot c id (fun x _ => rfl) ?_ ?_
    · exact fun x hx => update_of_ne hx ..
    · simpa using hz

theorem NoOrphan.retireShm (h : NoOrphan t) : NoOrphan (t.retireShm id) := by
  simp only [Tables.retireShm]
  split
  · refine h.of_slot .shm id ?_ (fun x _ => rfl) ?_
    · intro x hx
      simp [Tables.destroy, update_of_ne hx]
    · rintro ⟨hstate, -⟩
      simp [Tables.destroy] at hstate
  · rename_i hz
    refine h.of_slot .shm id ?_ (fun x _ => rfl) ?_
    · exact fun x hx => update_of_ne hx ..
    · exact fun hzombie => hz hzombie.2

theorem Move.noOrphan (hmove : Move t t') (hexact : RefsExact t) (h : NoOrphan t) :
    NoOrphan t' := by
  cases hmove with
  | share _ => exact h.share hexact
  | drop _ => exact NoOrphan.unshare h
  | retireShm _ => exact h.retireShm

theorem Moves.noOrphan (hmoves : Moves t t') (hexact : RefsExact t) (h : NoOrphan t) :
    NoOrphan t' := by
  induction hmoves with
  | refl => exact h
  | tail hbefore hmove ih => exact hmove.noOrphan (Moves.refsExact hbefore hexact) ih

/-- A slot in use with references may become a zombie. -/
theorem NoOrphan.retire (h : NoOrphan t) (href : t.ref (c, id) ≠ 0) :
    NoOrphan (t.setState c id .ZOMBIE) :=
  h.of_slot c id (fun _ hx => update_of_ne hx ..) (fun _ _ => rfl) fun hz => href hz.2

theorem NoOrphan.create (h : NoOrphan t) {b : ShmBlock} : NoOrphan (t.create c id b) := by
  refine h.of_slot c id ?_ (fun x _ => rfl) ?_
  · exact fun x hx => update_of_ne hx ..
  · rintro ⟨hstate, -⟩
    simp [Tables.create] at hstate

theorem Call.noOrphan (hcall : Call L k op k') (hok : RemovesReferenced k op)
    (hexact : RefsExact k.tables) (h : NoOrphan k.tables) : NoOrphan k'.tables := by
  cases hcall.effect with
  | moves hmoves => exact hmoves.noOrphan hexact h
  | create _ hmoves => exact hmoves.noOrphan hexact.create h.create
  | @retire c id hop huse hmoves =>
    exact hmoves.noOrphan (hexact.setState c id (by decide)) (h.retire (hok c id hop huse))

/-! ## Removal without references -/

/-- `IPC_RMID` is the mark followed by the removal of a node of the caller. -/
theorem Call.removal (hcall : Call L k op k') (hop : op.removes = some (c, id))
    (huse : (k.slot (c, id)).state ≠ .UNUSED) :
    ∃ p r, procRem L c p id (k.setSlot c id { k.slot (c, id) with state := .ZOMBIE }) =
      .ok (r, k') := by
  cases hcall with
  | @semctl _ p semid semnum cmd val r array hcall =>
    simp only [Op.removes] at hop
    split at hop
    · rename_i hcond
      cases hop
      obtain ⟨-, hmax | hunused⟩ | ⟨id, rfl, -, -, -, hdone⟩ := semctl_done hcall
      · exact absurd hcond.2 (not_lt.mpr hmax)
      · exact absurd hunused huse
      cases hdone with
      | rmid _ hrem => exact ⟨p, _, hrem⟩
      | unknown hno => exact absurd (.inl hcond.1) hno.1
      | _ hcmd => exact absurd (hcmd.symm.trans hcond.1) (by decide)
    · cases hop
  | @msgctl _ p msqid cmd r maxlen flag hcall =>
    simp only [Op.removes] at hop
    split at hop
    · rename_i hcond
      cases hop
      obtain ⟨-, hmax | hunused⟩ | ⟨id, rfl, -, -, -, hdone⟩ := msgctl_done hcall
      · exact absurd hcond.2 (not_lt.mpr hmax)
      · exact absurd hunused huse
      cases hdone with
      | rmid _ hrem => exact ⟨p, _, hrem⟩
      | set hcmd => exact absurd (hcmd.symm.trans hcond.1) (by decide)
      | other hno => exact absurd hcond.1 hno.2
    · cases hop
  | _ => cases hop

/-- Without references the caller has no node, and the zombie stays. -/
theorem Call.orphan (hcall : Call L k op k') (hok : ¬ RemovesReferenced k op)
    (hexact : RefsExact k.tables) : ¬ NoOrphan k'.tables := by
  simp only [RemovesReferenced, not_forall, not_not] at hok
  obtain ⟨c, id, hop, huse, hzero⟩ := hok
  obtain ⟨p, r, hrem⟩ := hcall.removal hop huse
  have hrefs : refs k.tables c id = 0 := by
    exact_mod_cast (hexact.count c id).symm.trans hzero
  have hk' : k' = k.setSlot c id { k.slot (c, id) with state := .ZOMBIE } := by
    obtain ⟨hk', -⟩ | ⟨m, l₁, l₂, s, s', flag, hslot, hl, -⟩ := procRem_ok hrem
    · exact hk'
    · have hm : m ∈ k.nodes (p, c) := hl ▸ List.mem_append_right _ List.mem_cons_self
      exact absurd hslot (refs_eq_zero_iff.mp hrefs p m hm)
  intro h
  refine h c id ⟨?_, ?_⟩
  · rw [hk']
    simp [Kernel.tables, Kernel.setSlot]
  · rw [hk']
    simpa [Kernel.tables, Kernel.setSlot] using hzero

/-! ## Runs -/

/-- In a run from empty tables no slot is ever a zombie without references if and
only if no semaphore set or message queue is removed when nobody refers to it. -/
theorem no_orphan_iff {k₀ : Kernel} {run : List (Op × Kernel)} (hempty : EmptyTables k₀)
    (hrun : IsRun (Step L) k₀ run) :
    (∀ k ∈ visited k₀ run, ∀ c id,
      ¬ ((k.slot (c, id)).state = .ZOMBIE ∧ (k.slot (c, id)).refCount = 0)) ↔
    Along RemovesReferenced k₀ run := by
  refine IsRun.visited_iff_along RemovesReferenced (fun k => RefsExact k.tables)
    (fun k => NoOrphan k.tables) ?_ ?_ hempty.refsExact ?_ hrun
  · intro k op k' hexact h hok hstep
    exact ⟨hstep.call.effect.refsExact hexact, hstep.call.noOrphan hok hexact h⟩
  · intro k op k' hexact _ hok hstep
    exact hstep.call.orphan hok hexact
  · rintro c id ⟨hstate, -⟩
    have hunused : k₀.tables.state (c, id) = .UNUSED := (hempty.1 (c, id)).2
    rw [hunused] at hstate
    cases hstate

/-- A child opens a queue, exits and is reaped; the parent then removes the queue,
to which nobody refers any more. -/
theorem msgctl_leaves_orphan :
    ∃ k₀ run, smallBoot smallLayout = .ok k₀ ∧ IsRun (Step smallLayout) k₀ run ∧
      ∃ k ∈ visited k₀ run,
        (k.slot (.msq, 0)).state = .ZOMBIE ∧ (k.slot (.msq, 0)).refCount = 0 := by
  obtain ⟨k₀, run, hk₀, hrun, x, hx, horphan⟩ := boot_run (L := smallLayout)
    [.fork 0, .msgget 1 0 0 0x8fff, .exit 1, .wait 0, .msgctl 0 0 IPC_RMID 0 0]
    (fun _ run => ∃ x ∈ run, (x.2.slot (.msq, 0)).state = .ZOMBIE ∧
      (x.2.slot (.msq, 0)).refCount = 0) (by decide +kernel)
  exact ⟨k₀, run, hk₀, hrun, x.2, List.mem_cons_of_mem _ (List.mem_map_of_mem hx), horphan⟩

/-- The process that opened the queue removes it, and the queue is destroyed. -/
theorem msgctl_by_owner :
    ∃ k₀ run, smallBoot smallLayout = .ok k₀ ∧ IsRun (Step smallLayout) k₀ run ∧
      Along RemovesReferenced k₀ run ∧ run.length = 2 ∧
      ∀ k ∈ visited k₀ run, ∀ c id,
        ¬ ((k.slot (c, id)).state = .ZOMBIE ∧ (k.slot (c, id)).refCount = 0) := by
  obtain ⟨k₀, run, hk₀, hrun, hok, hlen⟩ := boot_run (L := smallLayout)
    [.msgget 0 0 0 0x8fff, .msgctl 0 0 IPC_RMID 0 0]
    (fun k₀ run => Along RemovesReferenced k₀ run ∧ run.length = 2) (by decide +kernel)
  exact ⟨k₀, run, hk₀, hrun, hok, hlen, (no_orphan_iff (smallBoot_empty hk₀) hrun).mpr hok⟩

end LearnOS.Ipc
