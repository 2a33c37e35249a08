import LearnOS.Ipc.Proc

/-!
# What a call that returns has done

For each call one lemma says from which branch a result comes, under which
guards, and what state the branch leaves. Later proofs go through the cases of
these lemmas instead of the text of the calls.
-/

namespace LearnOS.Ipc

open LearnOS Function Kres

variable {L : Layout} {k k' : Kernel} {c : IpcKind} {id i : ℕ} {p : Fin NPROC}
  {events : List SemEvent} {l : List IpcNode} {cmd n : ℤ} {shmaddr : ℕ} {sz a flag : ℕ}
  {key : ℕ}

/-! ## Memory and locks -/

theorem Kernel.kmalloc_ok (h : k.kmalloc L sz = .ok (a, k')) :
    ∃ s, LearnOS.kmalloc L sz k.heap = .ok (a, s) ∧ k' = k.setHeap s := by
  simp only [Kernel.kmalloc, bind_eq_ok, pure_eq_ok, Prod.mk.injEq] at h
  obtain ⟨⟨b, s⟩, hs, rfl, rfl⟩ := h
  exact ⟨s, hs, rfl⟩

theorem Kernel.kmfree_ok (h : k.kmfree L a sz = .ok k') :
    ∃ s, LearnOS.kmfree L a sz k.heap = .ok s ∧ k' = k.setHeap s := by
  simp only [Kernel.kmfree, bind_eq_ok, pure_eq_ok] at h
  obtain ⟨s, hs, rfl⟩ := h
  exact ⟨s, hs, rfl⟩

theorem Kernel.kmallocNode_ok (h : k.kmallocNode L sz = .ok (a, k')) :
    ∃ s, LearnOS.kmalloc L sz k.heap = .ok (a, s) ∧ k' = k.setHeap s ∧ a ≠ NULL := by
  simp only [Kernel.kmallocNode, bind_eq_ok] at h
  obtain ⟨⟨b, k₁⟩, hk₁, h⟩ := h
  by_cases hb : b = NULL
  · simp [hb] at h
  · simp only [if_neg hb, pure_eq_ok, Prod.mk.injEq] at h
    obtain ⟨rfl, rfl⟩ := h
    obtain ⟨s, hs, rfl⟩ := Kernel.kmalloc_ok hk₁
    exact ⟨s, hs, rfl, hb⟩

theorem Kernel.acquire_ok {u : Unit} (h : k.acquire c id = .ok u) :
    (k.slot (c, id)).locked = false := by
  cases hl : (k.slot (c, id)).locked with
  | false => rfl
  | true => simp [Kernel.acquire, hl] at h

theorem Kernel.acquire_eq_ok_iff :
    k.acquire c id = .ok () ↔ (k.slot (c, id)).locked = false := by
  simp only [Kernel.acquire]
  split
  · rename_i hlocked
    simp [hlocked]
  · rename_i hlocked
    simpa using hlocked

theorem indexOf_ok {z : ℤ} (h : indexOf z = .ok id) : z = id := by
  simp only [indexOf] at h
  split at h
  · cases h
  · cases h
    omega

theorem indexOf_natCast (n : ℕ) : indexOf n = .ok n := by
  rw [indexOf, if_neg (by omega), Int.toNat_natCast]

theorem withArray_ok {f : Kernel → Kernel} (h : withArray L id k f = .ok k') :
    ∃ s s', k' = (f (k.setHeap s)).setHeap s' := by
  simp only [withArray, bind_eq_ok] at h
  obtain ⟨⟨ar, k₁⟩, hk₁, h⟩ := h
  obtain ⟨s, -, rfl⟩ := Kernel.kmalloc_ok hk₁
  split at h
  · cases h
  · obtain ⟨s', -, rfl⟩ := Kernel.kmfree_ok h
    exact ⟨s, s', rfl⟩

theorem destructLoop_frame {n a : ℕ} (h : destructLoop L n a k = .ok k') :
    ∃ s, k' = k.setHeap s := by
  induction n generalizing a k with
  | zero =>
    simp only [destructLoop] at h
    split at h
    · cases h
      exact ⟨k'.heap, rfl⟩
    · cases h
  | succ n ih =>
    simp only [destructLoop] at h
    split at h
    · cases h
      exact ⟨k'.heap, rfl⟩
    · simp only [bind_eq_ok] at h
      obtain ⟨k₁, hk₁, hrest⟩ := h
      obtain ⟨s₁, -, rfl⟩ := Kernel.kmfree_ok hk₁
      obtain ⟨s₂, rfl⟩ := ih hrest
      exact ⟨s₂, rfl⟩

/-! ## References -/

/-- The object behind a slot is gone. -/
def Kernel.clearObject (k : Kernel) (c : IpcKind) (id : ℕ) : Kernel :=
  match c with
  | .shm => k.setShm id ⟨0, NULL⟩
  | .sem => k.setSem id ⟨0, NULL, (k.semid id).sem⟩
  | .msq => k.setMsq id ⟨NULL, NULL, 0, MSQLEN_MAX⟩

/-- A slot after its destruction, which leaves the heap `s` and the flags `flag`. -/
def Kernel.clear (k : Kernel) (c : IpcKind) (id : ℕ) (s : KHeap) (flag : ℕ) : Kernel :=
  ((k.setHeap s).clearObject c id).setSlot c id
    { k.slot (c, id) with flag := flag, key := 0, state := .UNUSED }

theorem reinit_ok (h : reinit L c id k = .ok k') : ∃ s flag, k' = k.clear c id s flag := by
  cases c with
  | shm | sem =>
    simp only [reinit, shmReinit, semReinit] at h
    split at h
    · simp at h
    · simp only [bind_eq_ok, pure_eq_ok] at h
      obtain ⟨k₁, hk₁, rfl⟩ := h
      obtain ⟨s, -, rfl⟩ := Kernel.kmfree_ok hk₁
      exact ⟨s, _, rfl⟩
  | msq =>
    simp only [reinit, msqReinit] at h
    split at h
    · simp at h
    · simp only [bind_eq_ok, pure_eq_ok] at h
      obtain ⟨k₁, hk₁, rfl⟩ := h
      obtain ⟨s, rfl⟩ := destructLoop_frame hk₁
      exact ⟨s, _, rfl⟩

/-- A slot with one reference less. -/
def Kernel.lower (k : Kernel) (c : IpcKind) (id : ℕ) : Kernel :=
  k.setSlot c id { k.slot (c, id) with refCount := (k.slot (c, id)).refCount - 1 }

/-- One reference less, and a zombie without references is destroyed. -/
def Kernel.unref (k : Kernel) (c : IpcKind) (id : ℕ) (s : KHeap) (flag : ℕ) : Kernel :=
  if (k.slot (c, id)).state = .ZOMBIE ∧ (k.slot (c, id)).refCount - 1 = 0 then
    (k.lower c id).clear c id s flag
  else k.lower c id

theorem dropRef_ok (h : dropRef L c id k = .ok k') : ∃ s flag, k' = k.unref c id s flag := by
  simp only [dropRef] at h
  split at h
  · rename_i hlast
    obtain ⟨s, flag, rfl⟩ := reinit_ok h
    exact ⟨s, flag, (if_pos hlast).symm⟩
  · rename_i hlast
    cases h
    exact ⟨k.heap, 0, (if_neg hlast).symm⟩

theorem Kernel.unref_setNodes (k : Kernel) (c d : IpcKind) (id : ℕ) (s : KHeap) (flag : ℕ)
    (q : Fin NPROC) (l : List IpcNode) :
    (k.unref c id s flag).setNodes q d l = (k.setNodes q d l).unref c id s flag := by
  rw [Kernel.unref, Kernel.unref, apply_ite (Kernel.setNodes · q d l)]
  cases c with
  | shm => rfl
  | sem => rfl
  | msq => rfl

theorem Kernel.unref_nodes (k : Kernel) (c : IpcKind) (id : ℕ) (s : KHeap) (flag : ℕ) :
    (k.unref c id s flag).nodes = k.nodes := by
  rw [Kernel.unref]
  split
  · cases c with
    | shm => rfl
    | sem => rfl
    | msq => rfl
  · rfl

theorem find?_eraseP {test : IpcNode → Bool} {l : List IpcNode} {n : IpcNode}
    (h : l.find? test = some n) :
    ∃ l₁ l₂, l = l₁ ++ n :: l₂ ∧ l.eraseP test = l₁ ++ l₂ := by
  obtain ⟨hn, l₁, l₂, rfl, hl₁⟩ := List.find?_eq_some_iff_append.mp h
  refine ⟨l₁, l₂, rfl, ?_⟩
  rw [List.eraseP_append_right _ (fun m hm => by simpa using hl₁ m hm),
    List.eraseP_cons_of_pos hn]

theorem addNode_ok (h : addNode L c p id flag k = .ok k') :
    ∃ s addr, k' = addRef c id
      ((k.setHeap s).setNodes p c (⟨addr, flag, id, 0⟩ :: k.nodes (p, c))) := by
  simp only [addNode, bind_eq_ok, pure_eq_ok] at h
  obtain ⟨⟨addr, k₁⟩, hk₁, rfl⟩ := h
  obtain ⟨s, -, rfl, -⟩ := Kernel.kmallocNode_ok hk₁
  exact ⟨s, addr, rfl⟩

/-- A process without a node for the slot has nothing to remove. -/
theorem procRem_ok (h : procRem L c p id k = .ok (n, k')) :
    k' = k ∧ (k.nodes (p, c)).find? (fun m => m.slot = id) = none ∨
      ∃ m l₁ l₂ s s' flag, m.slot = id ∧ k.nodes (p, c) = l₁ ++ m :: l₂ ∧
        k' = ((k.setNodes p c (l₁ ++ l₂)).unref c id s flag).setHeap s' := by
  simp only [procRem] at h
  split at h
  · rename_i hnone
    cases h
    exact Or.inl ⟨rfl, hnone⟩
  · rename_i m hfind
    simp only [bind_eq_ok, pure_eq_ok, Prod.mk.injEq] at h
    obtain ⟨k₁, hk₁, k₂, hk₂, -, rfl⟩ := h
    obtain ⟨s', -, rfl⟩ := Kernel.kmfree_ok hk₂
    obtain ⟨l₁, l₂, hl, herase⟩ := find?_eraseP hfind
    rw [herase] at hk₁
    obtain ⟨s, flag, rfl⟩ := dropRef_ok hk₁
    exact Or.inr ⟨m, l₁, l₂, s, s', flag, by simpa using List.find?_some hfind, hl, rfl⟩

/-! ## Gets -/

/-- What the last section does. It does not look at the key of the slot. -/
inductive GetDone (c : IpcKind) (key flag id : ℕ) (create share : ℕ → Kernel → Kres Kernel)
    (k : Kernel) (n : ℤ) (k' : Kernel) : Prop
  | refused (hn : n < 0)
      (hwhy : (k.slot (c, id)).state = .UNUSED ∧ ¬ flagCreate flag ∨
        (k.slot (c, id)).state ≠ .UNUSED ∧ flagCreate flag ∧ flagExcl flag) (hk : k' = k)
  | shared (hn : n = id) (huse : (k.slot (c, id)).state ≠ .UNUSED)
      (hmay : ¬ (flagCreate flag ∧ flagExcl flag)) (hshare : share id k = .ok k')
  | created {k₁ : Kernel} (hn : n = id) (hfree : (k.slot (c, id)).state = .UNUSED)
      (hmay : flagCreate flag) (hcreate : create id k = .ok k₁)
      (hshare : share id (k₁.setSlot c id ((k₁.slot (c, id)).create key flag)) = .ok k')

theorem ipcGetAt_done {create share : ℕ → Kernel → Kres Kernel}
    (h : ipcGetAt c key flag create share id k = .ok (n, k')) :
    GetDone c key flag id create share k n k' := by
  simp only [ipcGetAt, bind_eq_ok] at h
  obtain ⟨u, -, h⟩ := h
  split at h
  · rename_i hmay
    split at h
    · rename_i hexcl
      cases h
      exact .refused (by decide) (Or.inr ⟨hexcl.2, hmay, hexcl.1⟩) rfl
    rename_i hexcl
    split at h
    · rename_i hfree
      simp only [bind_eq_ok, pure_eq_ok, Prod.mk.injEq] at h
      obtain ⟨k₁, hk₁, k₂, hk₂, hn, rfl⟩ := h
      exact .created hn.symm hfree hmay hk₁ hk₂
    · rename_i huse
      simp only [bind_eq_ok, pure_eq_ok, Prod.mk.injEq] at h
      obtain ⟨k₁, hk₁, hn, rfl⟩ := h
      exact .shared hn.symm huse (fun hboth => hexcl ⟨hboth.2, huse⟩) hk₁
  · rename_i hmay
    split at h
    · rename_i hfree
      cases h
      exact .refused (by decide) (Or.inl ⟨hfree, hmay⟩) rfl
    · rename_i huse
      simp only [bind_eq_ok, pure_eq_ok, Prod.mk.injEq] at h
      obtain ⟨k₁, hk₁, hn, rfl⟩ := h
      exact .shared hn.symm huse (fun hboth => hmay hboth.1) hk₁

theorem ipcGet_done {create share : ℕ → Kernel → Kres Kernel}
    (h : ipcGet c key flag create share k = .ok (n, k')) :
    ∃ id, ipcAt c key k = .ok id ∧ GetDone c key flag id create share k n k' := by
  rw [ipcGet, bind_eq_ok] at h
  obtain ⟨id, hat, h⟩ := h
  exact ⟨id, hat, ipcGetAt_done h⟩

theorem shmCreate_ok {size : ℕ}
    (h : (do
      let (pa, k) ← k.kmalloc L size
      return k.setShm id ⟨size % 2 ^ 32, pa⟩ : Kres Kernel) = .ok k') :
    ∃ pa s, LearnOS.kmalloc L size k.heap = .ok (pa, s) ∧
      k' = (k.setHeap s).setShm id ⟨size % 2 ^ 32, pa⟩ := by
  simp only [bind_eq_ok, pure_eq_ok] at h
  obtain ⟨⟨pa, k₁⟩, hk₁, rfl⟩ := h
  obtain ⟨s, hs, rfl⟩ := Kernel.kmalloc_ok hk₁
  exact ⟨pa, s, hs, rfl⟩

theorem semCreate_ok {size : ℕ}
    (h : (do
      let bytes := size * 24 % 2 ^ 64
      let (ptr, k) ← k.kmalloc L bytes
      if ptr = NULL ∧ bytes ≠ 0 then
        throw .nullStore
      return k.setSem id ⟨size % 2 ^ 32, ptr, fun _ => ⟨0, []⟩⟩ : Kres Kernel) = .ok k') :
    ∃ ptr s, k' = (k.setHeap s).setSem id ⟨size % 2 ^ 32, ptr, fun _ => ⟨0, []⟩⟩ := by
  simp only [bind_eq_ok] at h
  obtain ⟨⟨ptr, k₁⟩, hk₁, h⟩ := h
  obtain ⟨s, -, rfl⟩ := Kernel.kmalloc_ok hk₁
  split at h
  · cases h
  · cases h
    exact ⟨ptr, s, rfl⟩

/-! ## Semaphores -/

/-- One turn of the loop of a signal: the first process of the queue is served. -/
def grantTo (p : Fin NPROC) (id i : ℕ) (w : WaitNode) (rest : List WaitNode) (k : Kernel) :
    Kernel :=
  let want := k.semWant w.p
  let k := wakeupSem p w.p k
  (k.setSemaphore id i ⟨(k.sem id i).value - want, rest⟩).setWant w.p 0

theorem grantLoop_cons {w : WaitNode} {rest : List WaitNode}
    (h : grantLoop L p id i (w :: rest) k = .ok (events, k')) :
    (k.sem id i).value < k.semWant w.p ∧ events = [] ∧ k' = k ∨
      k.semWant w.p ≤ (k.sem id i).value ∧ ∃ s events',
        (grantTo p id i w rest k).kmfree L w.addr 16 = .ok ((grantTo p id i w rest k).setHeap s) ∧
        grantLoop L p id i rest ((grantTo p id i w rest k).setHeap s) = .ok (events', k') ∧
        events = .grant w.p i (k.semWant w.p) :: events' := by
  simp only [grantLoop] at h
  split at h
  · rename_i hshort
    cases h
    exact Or.inl ⟨hshort, rfl, rfl⟩
  · rename_i henough
    simp only [bind_eq_ok, pure_eq_ok, Prod.mk.injEq] at h
    obtain ⟨k₁, hk₁, ⟨events', k₂⟩, hloop, rfl, rfl⟩ := h
    obtain ⟨s, -, rfl⟩ := Kernel.kmfree_ok hk₁
    exact Or.inr ⟨not_lt.mp henough, s, events', hk₁, hloop, rfl⟩

/-- A call of `semop` is refused, or comes to its operations. -/
inductive SemopDone (L : Layout) (p : Fin NPROC) (semid : ℤ) (ops : List SemBuf) (k : Kernel)
    (r : SemResult) (events : List SemEvent) (k' : Kernel) : Prop
  | refused (hwhy : semid ≥ SEMMAX ∨ (k.slot (.sem, semid.toNat)).state = .UNUSED)
      (hevents : events = []) (hk : k' = k)
  | entered {id : ℕ} {s : KHeap} (hid : semid = id) (hmax : id < SEMMAX)
      (huse : (k.slot (.sem, id)).state ≠ .UNUSED)
      (hloop : semopLoop L p id ops (k.setHeap s) = .ok (r, events, k'))

theorem semop_done {semid : ℤ} {ops : List SemBuf} {r : SemResult}
    (h : semop L p semid ops k = .ok (r, events, k')) : SemopDone L p semid ops k r events k' := by
  simp only [semop] at h
  split at h
  · rename_i hmax
    cases h
    exact .refused (Or.inl hmax) rfl rfl
  simp only [bind_eq_ok] at h
  obtain ⟨id, hid, u, -, h⟩ := h
  obtain rfl := indexOf_ok hid
  split at h
  · rename_i hunused
    cases h
    exact .refused (Or.inr hunused) rfl rfl
  simp only [bind_eq_ok] at h
  obtain ⟨⟨buf, k₁⟩, hk₁, h⟩ := h
  obtain ⟨s, -, rfl⟩ := Kernel.kmalloc_ok hk₁
  split at h
  · cases h
  · exact .entered rfl (by omega) ‹_› h

theorem semopResume_ok {r : SemResult} (h : semopResume L p k = .ok (r, events, k')) :
    ∃ id b rest events', k.semCall p = some (id, b :: rest) ∧ k.acquire .sem id = .ok () ∧
      semopLoop L p id rest (k.setCall p none) = .ok (r, events', k') ∧
      events = .pass p b.semIndex (-b.semOp) :: events' := by
  simp only [semopResume] at h
  split at h
  · rename_i id b rest hcall
    simp only [bind_eq_ok, pure_eq_ok, Prod.mk.injEq] at h
    obtain ⟨u, hacq, ⟨r', events', k₁⟩, hloop, rfl, rfl, rfl⟩ := h
    exact ⟨id, b, rest, events', hcall, hacq, hloop, rfl⟩
  · cases h

/-- A command of `semctl` that releases the lock it has taken. -/
def Releases (cmd : ℤ) : Prop :=
  cmd = IPC_RMID ∨ cmd = IPC_STAT ∨ cmd = GETALL ∨ cmd = SETALL ∨ cmd = SETVAL

/-- What `semctl` does with a set that is in use. -/
inductive SemctlDone (L : Layout) (p : Fin NPROC) (id : ℕ) (semnum cmd val : ℤ) (array : ℕ → ℤ)
    (k : Kernel) (n : ℤ) (k' : Kernel) : Prop
  | rmid {n' : ℤ} (hcmd : cmd = IPC_RMID)
      (hrem : procRem L .sem p id (k.setSlot .sem id { k.slot (.sem, id) with state := .ZOMBIE }) =
        .ok (n', k'))
  | stat (hcmd : cmd = IPC_STAT) (hk : k' = k)
  | getall {s : KHeap} (hcmd : cmd = GETALL) (hk : k' = k.setHeap s)
  | getval {i : ℕ} (hcmd : cmd = GETVAL) (hi : semnumOf k id semnum = .ok i)
      (hn : n = wrap16 (k.sem id i).value)
      (hk : k' = k.setSlot .sem id { k.slot (.sem, id) with locked := true })
  | setall {s : KHeap} (hcmd : cmd = SETALL)
      (hk : k' = (k.setSem id { k.semid id with
        sem := fun i =>
          if i < (k.semid id).sz then ⟨wrap16 (array i), (k.sem id i).queue⟩
          else k.sem id i }).setHeap s)
  | setval {i : ℕ} (hcmd : cmd = SETVAL) (hi : semnumOf k id semnum = .ok i)
      (hk : k' = k.setSemaphore id i ⟨wrap16 val, (k.sem id i).queue⟩)
  | unknown (hcmd : ¬ Releases cmd ∧ cmd ≠ GETVAL)
      (hk : k' = k.setSlot .sem id { k.slot (.sem, id) with locked := true })

theorem semctl_done {semid semnum val : ℤ} {array : ℕ → ℤ}
    (h : semctl L p semid semnum cmd val array k = .ok (n, k')) :
    k' = k ∧ (semid ≥ SEMMAX ∨ (k.slot (.sem, semid.toNat)).state = .UNUSED) ∨
      ∃ id : ℕ, semid = id ∧ id < SEMMAX ∧ (k.slot (.sem, id)).locked = false ∧
        (k.slot (.sem, id)).state ≠ .UNUSED ∧ SemctlDone L p id semnum cmd val array k n k' := by
  simp only [semctl] at h
  split at h
  · rename_i hmax
    cases h
    exact Or.inl ⟨rfl, Or.inl hmax⟩
  simp only [bind_eq_ok] at h
  obtain ⟨id, hid, u, hacq, h⟩ := h
  obtain rfl := indexOf_ok hid
  split at h
  · rename_i hunused
    cases h
    exact Or.inl ⟨rfl, Or.inr hunused⟩
  rename_i huse
  refine Or.inr ⟨id, rfl, by omega, Kernel.acquire_ok hacq, huse, ?_⟩
  split at h
  · rename_i hcmd
    simp only [bind_eq_ok, pure_eq_ok, Prod.mk.injEq] at h
    obtain ⟨⟨n', k₁⟩, hk₁, -, rfl⟩ := h
    exact .rmid hcmd hk₁
  split at h
  · rename_i hcmd
    cases h
    exact .stat hcmd rfl
  split at h
  · rename_i hcmd
    simp only [bind_eq_ok, pure_eq_ok, Prod.mk.injEq] at h
    obtain ⟨k₁, hk₁, -, rfl⟩ := h
    obtain ⟨s, s', rfl⟩ := withArray_ok hk₁
    exact .getall (s := s') hcmd rfl
  split at h
  · rename_i hcmd
    simp only [bind_eq_ok, pure_eq_ok, Prod.mk.injEq] at h
    obtain ⟨i, hi, rfl, rfl⟩ := h
    exact .getval hcmd hi rfl rfl
  split at h
  · rename_i hcmd
    simp only [bind_eq_ok, pure_eq_ok, Prod.mk.injEq] at h
    obtain ⟨k₁, hk₁, -, rfl⟩ := h
    obtain ⟨s, s', rfl⟩ := withArray_ok hk₁
    exact .setall (s := s') hcmd rfl
  split at h
  · rename_i hcmd
    simp only [bind_eq_ok, pure_eq_ok, Prod.mk.injEq] at h
    obtain ⟨i, hi, -, rfl⟩ := h
    exact .setval hcmd hi rfl
  · rename_i hrmid hstat hgetall hgetval hsetall hsetval
    cases h
    refine .unknown ⟨?_, hgetval⟩ rfl
    simp only [Releases, not_or]
    exact ⟨hrmid, hstat, hgetall, hsetall, hsetval⟩

/-! ## Queues and segments -/

/-- What `msgctl` does with a queue that is in use. -/
inductive MsgctlDone (L : Layout) (p : Fin NPROC) (id : ℕ) (cmd : ℤ) (maxlen flag : ℕ)
    (k k' : Kernel) : Prop
  | set (hcmd : cmd = IPC_SET)
      (hk : k' = (k.setMsq id { k.msqid id with maxlen := maxlen }).setSlot .msq id
        { k.slot (.msq, id) with flag := flag })
  | rmid {n : ℤ} (hcmd : cmd = IPC_RMID)
      (hrem : procRem L .msq p id (k.setSlot .msq id { k.slot (.msq, id) with state := .ZOMBIE }) =
        .ok (n, k'))
  | other (hcmd : cmd ≠ IPC_SET ∧ cmd ≠ IPC_RMID) (hk : k' = k)

theorem msgctl_done {msqid : ℤ} {maxlen : ℕ}
    (h : msgctl L p msqid cmd maxlen flag k = .ok (n, k')) :
    k' = k ∧ (msqid ≥ MSGMAX ∨ (k.slot (.msq, msqid.toNat)).state = .UNUSED) ∨
      ∃ id : ℕ, msqid = id ∧ id < MSGMAX ∧ (k.slot (.msq, id)).locked = false ∧
        (k.slot (.msq, id)).state ≠ .UNUSED ∧ MsgctlDone L p id cmd maxlen flag k k' := by
  simp only [msgctl] at h
  split at h
  · rename_i hmax
    cases h
    exact Or.inl ⟨rfl, Or.inl hmax⟩
  simp only [bind_eq_ok] at h
  obtain ⟨id, hid, u, hacq, h⟩ := h
  obtain rfl := indexOf_ok hid
  split at h
  · rename_i hunused
    cases h
    exact Or.inl ⟨rfl, Or.inr hunused⟩
  rename_i huse
  refine Or.inr ⟨id, rfl, by omega, Kernel.acquire_ok hacq, huse, ?_⟩
  split at h
  · rename_i hcmd
    cases h
    exact .other (by rw [hcmd]; decide) rfl
  split at h
  · rename_i hcmd
    cases h
    exact .set hcmd rfl
  rename_i hset
  split at h
  · rename_i hcmd
    simp only [bind_eq_ok, pure_eq_ok, Prod.mk.injEq] at h
    obtain ⟨⟨n', k₁⟩, hk₁, -, rfl⟩ := h
    exact .rmid hcmd hk₁
  · rename_i hrmid
    cases h
    exact .other ⟨hset, hrmid⟩ rfl

/-- What `shmctl` does. -/
inductive ShmctlDone (id : ℕ) (flag : ℕ) (k k' : Kernel) : Prop
  | same (hk : k' = k)
  | set (hk : k' = k.setSlot .shm id { k.slot (.shm, id) with flag := flag })
  | marked (huse : (k.slot (.shm, id)).state ≠ .UNUSED) (href : (k.slot (.shm, id)).refCount ≠ 0)
      (hk : k' = k.setSlot .shm id { k.slot (.shm, id) with state := .ZOMBIE })
  | removed {s : KHeap} {n : ℕ} (huse : (k.slot (.shm, id)).state ≠ .UNUSED)
      (hfree : (k.slot (.shm, id)).locked = false) (href : (k.slot (.shm, id)).refCount = 0)
      (hk : k' =
        (k.setSlot .shm id { k.slot (.shm, id) with state := .ZOMBIE }).clear .shm id s n)

theorem shmctl_done {shmid : ℤ} (h : shmctl L shmid cmd flag k = .ok (n, k')) :
    ShmctlDone shmid.toNat flag k k' := by
  simp only [shmctl] at h
  split at h
  · cases h
    exact .same rfl
  simp only [bind_eq_ok] at h
  obtain ⟨u, hacq, h⟩ := h
  split at h
  · cases h
    exact .same rfl
  rename_i huse
  split at h
  · cases h
    exact .set rfl
  split at h
  · split at h
    · rename_i href
      simp only [bind_eq_ok, pure_eq_ok, Prod.mk.injEq] at h
      obtain ⟨k₁, hk₁, -, rfl⟩ := h
      obtain ⟨s, n, rfl⟩ := reinit_ok (c := .shm) hk₁
      exact .removed huse (Kernel.acquire_ok hacq) href rfl
    · rename_i href
      cases h
      exact .marked huse href rfl
  · cases h
    exact .same rfl

theorem uallocva_frame {npg va : ℕ} {l l' : List FreeVa}
    (h : uallocva L npg l k = .ok (va, l', k')) : ∃ s, k' = k.setHeap s := by
  induction l generalizing l' with
  | nil => cases h
  | cons f rest ih =>
    simp only [uallocva] at h
    split at h
    · simp only [bind_eq_ok, pure_eq_ok, Prod.mk.injEq] at h
      obtain ⟨⟨va', rest', k₁⟩, hk₁, rfl, -, rfl⟩ := h
      exact ih hk₁
    · split at h
      · simp only [bind_eq_ok, pure_eq_ok, Prod.mk.injEq] at h
        obtain ⟨k₁, hk₁, -, -, rfl⟩ := h
        obtain ⟨s, -, rfl⟩ := Kernel.kmfree_ok hk₁
        exact ⟨s, rfl⟩
      · simp only [pure_eq_ok, Prod.mk.injEq] at h
        exact ⟨k.heap, h.2.2.symm⟩

/-- The address space of `p` with a new table and a new list of free pages. -/
def Kernel.setSpace (k : Kernel) (p : Fin NPROC) (pt : PageTable) (m : KMem)
    (free : List FreeVa) : Kernel :=
  { k with vm := k.vm.setTable p pt m, freeva := update k.freeva p free }

/-- What a call of `shmat` that returns has done. -/
theorem shmat_ok {shmid : ℤ} {shmaddr va : ℕ} {rdonly : Bool}
    (h : shmat L p shmid shmaddr rdonly k = .ok (va, k')) :
    k' = k ∧ va = NULL ∨ ∃ (id : ℕ) (free : List FreeVa) (s : KHeap) (pt pt' : PageTable) (m : KMem)
      (r : ℤ) (addr : ℕ) (k₁ : Kernel), shmid = id ∧ (k.slot (.shm, id)).state ≠ .UNUSED ∧
      uallocva L (shmPages (k.shmid id).sz) (k.freeva p) k = .ok (va, free, k.setHeap s) ∧
      (k.vm.proc p).pagetable = some pt ∧
      mappages (kalloc L) pt va (shmPages (k.shmid id).sz * PGSIZE) (k.shmid id).ptr
        (shmPerm (attachFlag (k.slot (.shm, id)).flag rdonly)) s.mem = .ok (r, pt', m) ∧
      ((k.setHeap s).setSpace p pt' m free).kmallocNode L IpcKind.shm.nodeSize = .ok (addr, k₁) ∧
      k' = addRef .shm id (k₁.setNodes p .shm
        (⟨addr, attachFlag (k.slot (.shm, id)).flag rdonly, id, va⟩ :: k₁.nodes (p, .shm))) := by
  simp only [shmat] at h
  split at h
  · left
    simpa [eq_comm, and_comm] using h
  simp only [bind_eq_ok] at h
  obtain ⟨id, hid, u, -, h⟩ := h
  split at h
  · left
    simpa [eq_comm, and_comm] using h
  rename_i huse
  split at h
  · left
    simpa [eq_comm, and_comm] using h
  simp only [bind_eq_ok] at h
  obtain ⟨⟨va', free, k₁⟩, hk₁, h⟩ := h
  obtain ⟨s, rfl⟩ := uallocva_frame hk₁
  cases hpt : (k.vm.proc p).pagetable with
  | none => simp [Kernel.setHeap, hpt] at h
  | some pt =>
    have hpt' : ((k.setHeap s).vm.proc p).pagetable = some pt := hpt
    simp only [hpt', bind_eq_ok, pure_eq_ok, Prod.mk.injEq] at h
    obtain ⟨⟨r, pt', m⟩, hmap, ⟨addr, k₂⟩, hk₂, rfl, rfl⟩ := h
    exact Or.inr ⟨id, free, s, pt, pt', m, r, addr, k₂, indexOf_ok hid, huse, hk₁, rfl, hmap, hk₂,
      rfl⟩

/-- What a call of `shmdt` that returns has done. -/
theorem shmdt_ok (h : shmdt L p shmaddr k = .ok k') :
    ∃ n pt pt' m k₁ s, (k.nodes (p, .shm)).find? (fun n => n.va = shmaddr) = some n ∧
      (k.vm.proc p).pagetable = some pt ∧
      uvmunmap L pt shmaddr (shmPages (k.shmid n.slot).sz) false k.vm.mem = .ok (pt', m) ∧
      dropRef L .shm n.slot { k with vm := k.vm.setTable p pt' m } = .ok k₁ ∧
      LearnOS.kmfree L n.addr IpcKind.shm.nodeSize k₁.heap = .ok s ∧
      k' = (k₁.setHeap s).setNodes p .shm
        ((k₁.nodes (p, .shm)).eraseP fun n => n.va = shmaddr) := by
  simp only [shmdt] at h
  cases hfind : (k.nodes (p, .shm)).find? fun n => n.va = shmaddr with
  | none => simp [hfind] at h
  | some n =>
    cases hpt : (k.vm.proc p).pagetable with
    | none => simp [hfind, hpt] at h
    | some pt =>
      simp only [hfind, hpt, bind_eq_ok, pure_eq_ok] at h
      obtain ⟨⟨pt', m⟩, hunmap, u, -, k₁, hk₁, k₂, hk₂, rfl⟩ := h
      obtain ⟨s, hs, rfl⟩ := Kernel.kmfree_ok hk₂
      exact ⟨n, pt, pt', m, k₁, s, rfl, rfl, hunmap, hk₁, hs, rfl⟩

/-! ## Processes -/

/-- The slot of a process after `freeproc`, once its nodes are gone. -/
def Kernel.resetProc (k : Kernel) (p : Fin NPROC) (free : List FreeVa) : Kernel :=
  { k.setWant p 0 with
    vm := k.vm.setProc p (k.vm.proc p).reset
    freeva := update k.freeva p free }

theorem freeproc_ok (h : freeproc L p k = .ok k') :
    ∃ s s' k₁ free, freeIpc L p (k.setHeap s) = .ok k₁ ∧
      k' = (k₁.resetProc p free).setHeap s' := by
  simp only [freeproc, initFreeva, bind_eq_ok, pure_eq_ok] at h
  obtain ⟨m, -, k₁, hk₁, ⟨addr, k₂⟩, hk₂, rfl⟩ := h
  obtain ⟨s, -, rfl, -⟩ := Kernel.kmallocNode_ok hk₂
  exact ⟨⟨m, k.word, k.cache⟩, s, k₁, _, hk₁, rfl⟩

theorem wait_ok {q : Option (Fin NPROC)} (h : wait L p k = .ok (q, k')) :
    k' = k ∨ ∃ pp, (k.vm.proc pp).state = .ZOMBIE ∧ freeproc L pp k = .ok k' := by
  simp only [wait] at h
  split at h
  · cases h
    exact Or.inl rfl
  · rename_i pp hpp
    simp only [bind_eq_ok, pure_eq_ok, Prod.mk.injEq] at h
    obtain ⟨k₁, hk₁, -, rfl⟩ := h
    have hzombie := firstProc_some hpp
    simp only [decide_eq_true_eq] at hzombie
    exact Or.inr ⟨pp, hzombie.2, hk₁⟩

theorem smallBoot_ok (h : smallBoot L = .ok k) :
    ∃ vm word cache free, k = { Kernel.start vm word cache with freeva := free } := by
  simp only [smallBoot, initFreeva, bind_eq_ok, pure_eq_ok] at h
  obtain ⟨b, -, x8, -, x16, -, x32, -, x128, -, vm, -, ⟨addr, k₁⟩, hk₁, rfl⟩ := h
  obtain ⟨s, -, rfl, -⟩ := Kernel.kmallocNode_ok hk₁
  exact ⟨_, _, _, _, rfl⟩

end LearnOS.Ipc
