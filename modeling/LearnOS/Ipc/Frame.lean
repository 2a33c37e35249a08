import LearnOS.Ipc.Inversion

/-!
# What the calls leave alone

A projection of the kernel that does not see certain fields is kept by every
call that writes nothing else. The calls are read once here, for any
projection: `Quiet` projections are kept by `semop`, `msgsnd` and `msgrcv`. What
a projection sees of a call that shares, drops or removes slots is a sequence of
small changes, each of which keeps to a relation.
-/

namespace LearnOS.Ipc

open LearnOS Function Kres

variable {L : Layout} {k k' : Kernel} {c : IpcKind} {id : ℕ} {p : Fin NPROC}
  {events : List SemEvent} {l : List IpcNode} {r : MsgResult} {nowait : Bool} {msqid : ℤ}
  {shmaddr : ℕ} {α : Type*}
  {flag : ℕ} {n cmd : ℤ}

/-! ## Semaphores and messages -/

/-- The projection sees neither the heap nor what a signal changes. -/
structure Granting {α : Type*} (f : Kernel → α) : Prop where
  heap : ∀ k s, f (k.setHeap s) = f k
  sem : ∀ k id i s, f (k.setSemaphore id i s) = f k
  state : ∀ k p st, f (k.setState p st) = f k
  want : ∀ k p n, f (k.setWant p n) = f k

/-- It sees neither interrupted calls nor message queues either. -/
structure Quiet {α : Type*} (f : Kernel → α) : Prop extends Granting f where
  msq : ∀ k id q, f (k.setMsq id q) = f k
  msg : ∀ k a m, f (k.setMsg a m) = f k
  call : ∀ k p x, f (k.setCall p x) = f k

theorem semCall_granting : Granting Kernel.semCall where
  heap _ _ := rfl
  sem _ _ _ _ := rfl
  state _ _ _ := rfl
  want _ _ _ := rfl

section Granting

variable {α : Type*} {f : Kernel → α} (hf : Granting f)

include hf

theorem wakeupSem_granting (q : Fin NPROC) : f (wakeupSem p q k) = f k := by
  rw [wakeupSem]
  split
  · exact hf.state k q _
  · rfl

theorem grantLoop_granting {i : ℕ} {queue : List WaitNode}
    (h : grantLoop L p id i queue k = .ok (events, k')) : f k' = f k := by
  induction queue generalizing k events with
  | nil =>
    cases h
    rfl
  | cons w rest ih =>
    obtain ⟨-, rfl, rfl⟩ | ⟨-, s, events', -, hrest, rfl⟩ := grantLoop_cons h
    · rfl
    · rw [ih hrest, hf.heap, grantTo, hf.want, hf.sem]
      exact wakeupSem_granting hf w.p

end Granting

/-- The projection sees neither the heap nor messages and their queues. -/
structure Mailing {α : Type*} (f : Kernel → α) : Prop where
  heap : ∀ k s, f (k.setHeap s) = f k
  msq : ∀ k id q, f (k.setMsq id q) = f k
  msg : ∀ k a m, f (k.setMsg a m) = f k

section Mailing

variable {α : Type*} {f : Kernel → α} (hf : Mailing f)

include hf

theorem linkMsg_mailing (a : ℕ) : f (linkMsg id a k) = f k := by
  simp only [linkMsg]
  split
  · rw [hf.msq, Kernel.setNext, hf.msg]
  · rw [hf.msq, Kernel.setNext, hf.msg, Kernel.setNext, hf.msg]

theorem msgsnd_mailing {content : MsgBuf} (h : msgsnd L msqid content nowait k = .ok (r, k')) :
    f k' = f k := by
  simp only [msgsnd] at h
  split at h
  · cases h
    rfl
  simp only [bind_eq_ok] at h
  obtain ⟨id, -, u, -, h⟩ := h
  split at h
  · cases h
    rfl
  simp only [bind_eq_ok] at h
  obtain ⟨⟨newmsg, k₁⟩, hk₁, h⟩ := h
  obtain ⟨s, -, rfl, -⟩ := Kernel.kmallocNode_ok hk₁
  split at h
  · cases h
    rw [hf.msg, hf.heap]
  split at h
  · split at h
    · simp only [bind_eq_ok, pure_eq_ok, Prod.mk.injEq] at h
      obtain ⟨k₂, hk₂, -, rfl⟩ := h
      obtain ⟨s₂, -, rfl⟩ := Kernel.kmfree_ok hk₂
      rw [hf.heap, hf.msg, hf.heap]
    · cases h
      rw [hf.msg, hf.heap]
  · cases h
    rw [linkMsg_mailing hf, hf.msg, hf.heap]

theorem unlinkMsg_mailing (prev : Option ℕ) : f (unlinkMsg id prev k).2 = f k := by
  cases prev with
  | none =>
    simp only [unlinkMsg]
    split <;> exact hf.msq ..
  | some prev =>
    simp only [unlinkMsg]
    rw [hf.msq, Kernel.setNext, hf.msg]

theorem msgrcv_mailing {msgsz msgtype : ℕ} {content : Option MsgBuf}
    (h : msgrcv L msqid msgsz msgtype nowait k = .ok (r, content, k')) : f k' = f k := by
  simp only [msgrcv] at h
  split at h
  · cases h
    rfl
  simp only [bind_eq_ok] at h
  obtain ⟨id, -, u, -, h⟩ := h
  split at h
  · cases h
    rfl
  split at h
  · cases h
    rfl
  simp only [bind_eq_ok] at h
  obtain ⟨found, -, h⟩ := h
  cases found with
  | none =>
    cases h
    rfl
  | some prev =>
    simp only [bind_eq_ok, pure_eq_ok, Prod.mk.injEq] at h
    obtain ⟨k₁, hk₁, -, -, rfl⟩ := h
    obtain ⟨s, -, rfl⟩ := Kernel.kmfree_ok hk₁
    rw [hf.heap, hf.msg]
    exact unlinkMsg_mailing hf prev

end Mailing

theorem Quiet.mailing {f : Kernel → α} (hf : Quiet f) : Mailing f :=
  ⟨hf.heap, hf.msq, hf.msg⟩

section Quiet

variable {α : Type*} {f : Kernel → α} (hf : Quiet f)

include hf

omit hf in
/-- The flags of an operation have no room for `IPC_NOWAIT`. -/
theorem nowait_clear (flg : ℕ) : (flg % 2 ^ 16).testBit 16 = false :=
  Nat.testBit_eq_false_of_lt (Nat.mod_lt _ (by decide))

theorem semopLoop_quiet {ops : List SemBuf} {r : SemResult}
    (h : semopLoop L p id ops k = .ok (r, events, k')) : f k' = f k := by
  induction ops generalizing k r events with
  | nil =>
    cases h
    rfl
  | cons b rest ih =>
    simp only [semopLoop] at h
    split at h
    · cases h
      rfl
    split at h
    · split at h
      · split at h
        · rename_i hnowait
          rw [nowait_clear] at hnowait
          cases hnowait
        · simp only [insertLast, bind_eq_ok, pure_eq_ok,
            Prod.mk.injEq] at h
          obtain ⟨k₁, ⟨⟨addr, k₂⟩, hk₂, rfl⟩, -, -, rfl⟩ := h
          obtain ⟨s, -, rfl, -⟩ := Kernel.kmallocNode_ok hk₂
          rw [sleepSem, hf.call, hf.state, hf.want, hf.sem, hf.heap]
      · simp only [bind_eq_ok, pure_eq_ok, Prod.mk.injEq] at h
        obtain ⟨⟨r', events', k₁⟩, hrest, -, -, rfl⟩ := h
        rw [ih hrest, hf.sem]
    · split at h
      · simp only [bind_eq_ok, pure_eq_ok, Prod.mk.injEq] at h
        obtain ⟨⟨grants, k₁⟩, hgrant, ⟨r', events', k₂⟩, hrest, -, -, rfl⟩ := h
        rw [ih hrest, grantLoop_granting hf.toGranting hgrant, hf.sem]
      · exact ih h

theorem semop_quiet {semid : ℤ} {ops : List SemBuf} {r : SemResult}
    (h : semop L p semid ops k = .ok (r, events, k')) : f k' = f k := by
  cases semop_done h with
  | refused _ _ hk => rw [hk]
  | entered _ _ _ hloop => rw [semopLoop_quiet hf hloop, hf.heap]

theorem semopResume_quiet {r : SemResult} (h : semopResume L p k = .ok (r, events, k')) :
    f k' = f k := by
  obtain ⟨id, b, rest, events', -, -, hloop, -⟩ := semopResume_ok h
  rw [semopLoop_quiet hf hloop, hf.call]

theorem msgsnd_quiet {content : MsgBuf} (h : msgsnd L msqid content nowait k = .ok (r, k')) :
    f k' = f k :=
  msgsnd_mailing hf.mailing h

theorem msgrcv_quiet {msgsz msgtype : ℕ} {content : Option MsgBuf}
    (h : msgrcv L msqid msgsz msgtype nowait k = .ok (r, content, k')) : f k' = f k :=
  msgrcv_mailing hf.mailing h

end Quiet

/-! ## Sharing -/

/-- A slot gets a node when it is in use or has a node already. -/
def Shareable (k : Kernel) (c : IpcKind) (id : ℕ) : Prop :=
  (k.slot (c, id)).state ≠ .UNUSED ∨ ∃ q, ∃ m ∈ k.nodes (q, c), m.slot = id

/-- A node at the head of a list, with its count. -/
def Kernel.share (k : Kernel) (p : Fin NPROC) (c : IpcKind) (n : IpcNode) : Kernel :=
  addRef c n.slot (k.setNodes p c (n :: k.nodes (p, c)))

theorem Shareable.share (h : Shareable k c id) (n : IpcNode) : Shareable (k.share p c n) c id := by
  rcases h with huse | ⟨q, m, hm, hslot⟩
  · left
    simp only [Kernel.share, addRef, Kernel.setSlot]
    by_cases hx : (c, id) = (c, n.slot)
    · rw [hx, update_self]
      exact (Prod.mk.inj hx).2 ▸ huse
    · rwa [update_of_ne hx]
  · refine Or.inr ⟨q, m, ?_, hslot⟩
    simp only [Kernel.share, addRef, Kernel.setSlot, Kernel.setNodes]
    by_cases hx : (q, c) = (p, c)
    · rw [hx, update_self]
      exact List.mem_cons_of_mem _ ((Prod.mk.inj hx).1 ▸ hm)
    · rwa [update_of_ne hx]

theorem shareable_node {q : Fin NPROC} : ∀ n ∈ k.nodes (q, c), Shareable k c n.slot :=
  fun n hn => Or.inr ⟨q, n, hn, rfl⟩

/-- What the projection sees when process `p` gets nodes and pages keeps to a relation. -/
structure Sharing {α : Type*} (p : Fin NPROC) (f : Kernel → α) (r : α → α → Prop) : Prop where
  refl : ∀ a, r a a
  trans : ∀ a b c, r a b → r b c → r a c
  heap : ∀ k s, f (k.setHeap s) = f k
  table : ∀ k pt m, f { k with vm := k.vm.setTable p pt m } = f k
  share : ∀ k c n, Shareable k c n.slot → r (f k) (f (k.share p c n))

theorem Sharing.of_kept {f : Kernel → α} (heap : ∀ k s, f (k.setHeap s) = f k)
    (table : ∀ k pt m, f { k with vm := k.vm.setTable p pt m } = f k)
    (share : ∀ k c n, f (k.share p c n) = f k) : Sharing p f fun a b => b = a :=
  ⟨fun _ => rfl, fun _ _ _ hab hbc => hbc.trans hab, heap, table, fun k c n _ => share k c n⟩

section Sharing

variable {α : Type*} {f : Kernel → α} {r : α → α → Prop} (hf : Sharing p f r)

include hf

theorem addNode_sharing (huse : (k.slot (c, id)).state ≠ .UNUSED)
    (h : addNode L c p id flag k = .ok k') : r (f k) (f k') := by
  obtain ⟨s, addr, rfl⟩ := addNode_ok h
  have hshare := hf.share (k.setHeap s) c ⟨addr, flag, id, 0⟩ (Or.inl huse)
  rwa [hf.heap] at hshare

theorem copyNodes_sharing (hl : ∀ n ∈ l, Shareable k c n.slot) (h : copyNodes L c p l k = .ok k') :
    r (f k) (f k') := by
  induction l generalizing k with
  | nil =>
    cases h
    exact hf.refl _
  | cons n rest ih =>
    simp only [copyNodes, bind_eq_ok] at h
    obtain ⟨⟨addr, k₁⟩, hk₁, u, -, hrest⟩ := h
    obtain ⟨s, -, rfl, -⟩ := Kernel.kmallocNode_ok hk₁
    have hshare := hf.share (k.setHeap s) c ⟨addr, n.flag, n.slot, 0⟩ (hl n List.mem_cons_self)
    rw [hf.heap] at hshare
    refine hf.trans _ _ _ hshare (ih (fun m hm => ?_) hrest)
    exact (hl m (List.mem_cons_of_mem _ hm)).share _

theorem uvmcopyShm_sharing (hl : ∀ n ∈ l, Shareable k .shm n.slot)
    (h : uvmcopyShm L p l k = .ok k') : r (f k) (f k') := by
  induction l generalizing k with
  | nil =>
    cases h
    exact hf.refl _
  | cons n rest ih =>
    simp only [uvmcopyShm, bind_eq_ok] at h
    obtain ⟨u, -, h⟩ := h
    split at h
    · cases h
    · simp only [bind_eq_ok] at h
      obtain ⟨⟨r, pt', m⟩, -, ⟨addr, k₁⟩, hk₁, hrest⟩ := h
      obtain ⟨s, -, rfl, -⟩ := Kernel.kmallocNode_ok hk₁
      have hshare := hf.share ({ k with vm := k.vm.setTable p pt' m }.setHeap s) .shm
        ⟨addr, n.flag, n.slot, n.va⟩ (hl n List.mem_cons_self)
      rw [hf.heap, hf.table] at hshare
      refine hf.trans _ _ _ hshare (ih (fun m hm => ?_) hrest)
      exact (hl m (List.mem_cons_of_mem _ hm)).share _

end Sharing

/-- After the address space has been copied, the rest of `fork` shares. -/
theorem fork_sharing {f : Kernel → α} {r : α → α → Prop} (hf : ∀ p, Sharing p f r)
    {q : Option (Fin NPROC)} (h : fork L p k = .ok (q, k')) :
    ∃ vm, LearnOS.fork L (kalloc L) p k.vm = .ok (q, vm) ∧ r (f { k with vm := vm }) (f k') := by
  simp only [fork, bind_eq_ok] at h
  obtain ⟨⟨np, vm⟩, hvm, h⟩ := h
  cases np with
  | none =>
    cases h
    exact ⟨vm, hvm, (hf p).refl _⟩
  | some np =>
    simp only [bind_eq_ok, pure_eq_ok, Prod.mk.injEq] at h
    obtain ⟨k₁, hshm, k₂, hsem, k₃, hmsq, rfl, rfl⟩ := h
    have hshms := uvmcopyShm_sharing (hf np) (k := { k with vm := vm }) shareable_node hshm
    have hsems := copyNodes_sharing (hf np) shareable_node hsem
    have hmsqs := copyNodes_sharing (hf np) shareable_node hmsq
    exact ⟨vm, hvm, (hf np).trans _ _ _ ((hf np).trans _ _ _ hshms hsems) hmsqs⟩

/-! ## Calls that drop references -/

/-- What the projection sees of a call that drops references keeps to a relation.
The lock of a slot that loses a reference is held by the call. -/
structure Dropping {α : Type*} (f : Kernel → α) (r : α → α → Prop) : Prop where
  refl : ∀ a, r a a
  trans : ∀ a b c, r a b → r b c → r a c
  heap : ∀ k s, f (k.setHeap s) = f k
  table : ∀ k p pt m, f { k with vm := k.vm.setTable p pt m } = f k
  drop : ∀ k p c n l₁ l₂ s flag, k.nodes (p, c) = l₁ ++ n :: l₂ →
    (k.slot (c, n.slot)).locked = false →
    r (f k) (f ((k.setNodes p c (l₁ ++ l₂)).unref c n.slot s flag))

/-- The projection sees neither nodes nor counts. -/
structure Clearing {α : Type*} (f : Kernel → α) (r : α → α → Prop) : Prop where
  refl : ∀ a, r a a
  trans : ∀ a b c, r a b → r b c → r a c
  heap : ∀ k s, f (k.setHeap s) = f k
  table : ∀ k p pt m, f { k with vm := k.vm.setTable p pt m } = f k
  nodes : ∀ k p c l, f (k.setNodes p c l) = f k
  lower : ∀ k c id, f (k.lower c id) = f k
  clear : ∀ k c id s flag, (k.slot (c, id)).locked = false → r (f k) (f (k.clear c id s flag))

theorem Clearing.dropping {f : Kernel → α} {r : α → α → Prop} (hf : Clearing f r) :
    Dropping f r where
  refl := hf.refl
  trans := hf.trans
  heap := hf.heap
  table := hf.table
  drop k p c n l₁ l₂ s flag _ hfree := by
    rw [← hf.nodes k p c (l₁ ++ l₂), Kernel.unref]
    split
    · rw [← hf.lower (k.setNodes p c (l₁ ++ l₂)) c n.slot]
      exact hf.clear _ _ _ _ _
        (by simpa [Kernel.lower, Kernel.setSlot, Kernel.setNodes] using hfree)
    · rw [hf.lower]
      exact hf.refl _

section Dropping

variable {α : Type*} {f : Kernel → α} {r : α → α → Prop} (hf : Dropping f r)

include hf

theorem procRem_dropping (hfree : (k.slot (c, id)).locked = false)
    (h : procRem L c p id k = .ok (n, k')) : r (f k) (f k') := by
  obtain ⟨rfl, -⟩ | ⟨m, l₁, l₂, s, s', flag, rfl, hl, rfl⟩ := procRem_ok h
  · exact hf.refl _
  · rw [hf.heap]
    exact hf.drop k p c m l₁ l₂ s flag hl hfree

theorem freeNodes_dropping (hl : k.nodes (p, c) = l) (h : freeNodes L c p l k = .ok k') :
    r (f k) (f k') := by
  induction l generalizing k with
  | nil =>
    cases h
    exact hf.refl _
  | cons n rest ih =>
    simp only [freeNodes, bind_eq_ok] at h
    obtain ⟨u, hacq, k₁, hk₁, k₂, hk₂, hrest⟩ := h
    obtain ⟨s', -, rfl⟩ := Kernel.kmfree_ok hk₂
    obtain ⟨s, flag, rfl⟩ := dropRef_ok hk₁
    have hnodes :
        (((k.setNodes p c rest).unref c n.slot s flag).setHeap s').nodes (p, c) = rest := by
      change ((k.setNodes p c rest).unref c n.slot s flag).nodes (p, c) = rest
      rw [Kernel.unref_nodes]
      exact update_self ..
    have hafter := ih hnodes hrest
    rw [hf.heap] at hafter
    exact hf.trans _ _ _ (hf.drop k p c n [] rest s flag hl (Kernel.acquire_ok hacq)) hafter

theorem shmdt_dropping (h : shmdt L p shmaddr k = .ok k') : r (f k) (f k') := by
  obtain ⟨n, pt, pt', m, k₁, s, hfind, hpt, hunmap, hk₁, -, rfl⟩ := shmdt_ok h
  have hfree : (k.slot (.shm, n.slot)).locked = false := by
    simp only [shmdt, hfind, hpt, hunmap, ok_bind, bind_eq_ok] at h
    obtain ⟨u, hacq, -⟩ := h
    exact Kernel.acquire_ok hacq
  obtain ⟨l₁, l₂, hl, herase⟩ := find?_eraseP hfind
  obtain ⟨s', flag, rfl⟩ := dropRef_ok hk₁
  have hdrop := hf.drop { k with vm := k.vm.setTable p pt' m } p .shm n l₁ l₂ s' flag hl hfree
  rw [hf.table, ← Kernel.unref_setNodes, ← herase, ← hf.heap (Kernel.setNodes _ _ _ _) s] at hdrop
  rw [Kernel.unref_nodes]
  exact hdrop

theorem freeShmLoop_dropping {n : ℕ} (h : freeShmLoop L p n k = .ok k') : r (f k) (f k') := by
  induction n generalizing k with
  | zero =>
    cases h
    exact hf.refl _
  | succ n ih =>
    simp only [freeShmLoop] at h
    split at h
    · cases h
      exact hf.refl _
    · simp only [bind_eq_ok] at h
      obtain ⟨k₁, hk₁, hrest⟩ := h
      exact hf.trans _ _ _ (shmdt_dropping hf hk₁) (ih hrest)

theorem freeIpc_dropping (h : freeIpc L p k = .ok k') : r (f k) (f k') := by
  simp only [freeIpc] at h
  split at h
  · cases h
    exact hf.refl _
  · simp only [bind_eq_ok, pure_eq_ok] at h
    obtain ⟨k₁, hsem, k₂, hmsq, k₃, hshm, m, -, rfl⟩ := h
    have hmem : f { k₃ with vm := { k₃.vm with mem := m } } = f k₃ :=
      hf.heap k₃ ⟨m, k₃.word, k₃.cache⟩
    rw [hmem]
    exact hf.trans _ _ _ (freeNodes_dropping hf rfl hsem)
      (hf.trans _ _ _ (freeNodes_dropping hf rfl hmsq) (freeShmLoop_dropping hf hshm))

end Dropping

/-- The relation also allows that the slot of a process is cleared. -/
structure Reaping {α : Type*} (f : Kernel → α) (r : α → α → Prop) : Prop
    extends Dropping f r where
  reset : ∀ k p free, r (f k) (f (k.resetProc p free))

theorem wait_reaping {f : Kernel → α} {r : α → α → Prop} (hf : Reaping f r)
    {q : Option (Fin NPROC)} (h : wait L p k = .ok (q, k')) : r (f k) (f k') := by
  obtain rfl | ⟨pp, -, h⟩ := wait_ok h
  · exact hf.refl _
  · obtain ⟨s, s', k₁, free, hk₁, rfl⟩ := freeproc_ok h
    have hfree := freeIpc_dropping hf.toDropping hk₁
    rw [hf.heap] at hfree
    rw [hf.heap]
    exact hf.trans _ _ _ hfree (hf.reset k₁ pp free)

/-- The relation also allows that a slot is marked for removal or destroyed, and
the projection sees neither the permissions of a slot nor the objects behind it. -/
structure Retiring {α : Type*} (f : Kernel → α) (r : α → α → Prop) : Prop
    extends Reaping f r where
  retire : ∀ k c id, (k.slot (c, id)).state ≠ .UNUSED →
    r (f k) (f (k.setSlot c id { k.slot (c, id) with state := .ZOMBIE }))
  clear : ∀ k c id s flag, (k.slot (c, id)).locked = false → r (f k) (f (k.clear c id s flag))
  flag : ∀ k c id n, f (k.setSlot c id { k.slot (c, id) with flag := n }) = f k
  msq : ∀ k id q, f (k.setMsq id q) = f k
  values : ∀ k id sem, f (k.setSem id { k.semid id with sem := sem }) = f k

section Retiring

variable {α : Type*} {f : Kernel → α} {r : α → α → Prop} (hf : Retiring f r)

include hf

theorem shmctl_retiring {shmid : ℤ} {bufFlag : ℕ}
    (h : shmctl L shmid cmd bufFlag k = .ok (n, k')) : r (f k) (f k') := by
  cases shmctl_done h with
  | same hk =>
    rw [hk]
    exact hf.refl _
  | set hk =>
    rw [hk, hf.flag]
    exact hf.refl _
  | marked huse _ hk =>
    rw [hk]
    exact hf.retire _ _ _ huse
  | removed huse hfree _ hk =>
    rw [hk]
    refine hf.trans _ _ _ (hf.retire k .shm _ huse) (hf.clear _ _ _ _ _ ?_)
    simpa [Kernel.setSlot] using hfree

/-- `IPC_RMID` of `semctl` and `msgctl`. -/
theorem removeSet_retiring (huse : (k.slot (c, id)).state ≠ .UNUSED)
    (hfree : (k.slot (c, id)).locked = false)
    (h : procRem L c p id (k.setSlot c id { k.slot (c, id) with state := .ZOMBIE }) =
      .ok (n, k')) : r (f k) (f k') := by
  refine hf.trans _ _ _ (hf.retire k c id huse) (procRem_dropping hf.toDropping ?_ h)
  simpa [Kernel.setSlot] using hfree

theorem msgctl_retiring {msqid : ℤ} {maxlen : ℕ}
    (h : msgctl L p msqid cmd maxlen flag k = .ok (n, k')) : r (f k) (f k') := by
  obtain ⟨rfl, -⟩ | ⟨id, -, -, hfree, huse, hdone⟩ := msgctl_done h
  · exact hf.refl _
  cases hdone with
  | set _ hk =>
    have hflag := hf.flag (k.setMsq id { k.msqid id with maxlen := maxlen }) .msq id flag
    rw [hf.msq] at hflag
    rw [hk]
    exact hflag ▸ hf.refl _
  | rmid _ hrem => exact removeSet_retiring hf huse hfree hrem
  | other _ hk =>
    rw [hk]
    exact hf.refl _

/-- A `semctl` that gives its lock back. -/
theorem semctl_retiring {semid semnum val : ℤ} {array : ℕ → ℤ} (hcmd : Releases cmd)
    (h : semctl L p semid semnum cmd val array k = .ok (n, k')) : r (f k) (f k') := by
  obtain ⟨rfl, -⟩ | ⟨id, -, -, hfree, huse, hdone⟩ := semctl_done h
  · exact hf.refl _
  cases hdone with
  | rmid _ hrem => exact removeSet_retiring hf huse hfree hrem
  | stat _ hk =>
    rw [hk]
    exact hf.refl _
  | getall _ hk =>
    rw [hk, hf.heap]
    exact hf.refl _
  | getval hget =>
    subst hget
    exact absurd hcmd (by simp only [Releases]; decide)
  | setall _ hk =>
    rw [hk, hf.heap, hf.values]
    exact hf.refl _
  | setval _ _ hk =>
    rw [hk, Kernel.setSemaphore, hf.values]
    exact hf.refl _
  | unknown hno => exact absurd hcmd hno.1

end Retiring

/-! ## Slots -/

/-- A get whose parts leave the projection alone. -/
theorem ipcGet_keeps {f : Kernel → α} (hslot : ∀ k c id b, f (k.setSlot c id b) = f k)
    {key : ℕ} {create share : ℕ → Kernel → Kres Kernel} {r : ℤ}
    (hcreate : ∀ id k k', create id k = .ok k' → f k' = f k)
    (hshare : ∀ id k k', share id k = .ok k' → f k' = f k)
    (h : ipcGet c key flag create share k = .ok (r, k')) : f k' = f k := by
  obtain ⟨id, -, hdone⟩ := ipcGet_done h
  cases hdone with
  | refused _ _ hk => rw [hk]
  | shared _ _ _ hk => exact hshare _ _ _ hk
  | created _ _ _ hk₁ hk => rw [hshare _ _ _ hk, hslot, hcreate _ _ _ hk₁]

/-- The projection sees no slot and no node, and of the objects behind the slots
at most the sets. -/
structure SlotBlind {α : Type*} (f : Kernel → α) (r : α → α → Prop) : Prop where
  refl : ∀ a, r a a
  trans : ∀ a b c, r a b → r b c → r a c
  heap : ∀ k s, f (k.setHeap s) = f k
  table : ∀ k p pt m, f { k with vm := k.vm.setTable p pt m } = f k
  nodes : ∀ k p c l, f (k.setNodes p c l) = f k
  freeva : ∀ k l, f { k with freeva := l } = f k
  reset : ∀ k p free, r (f k) (f (k.resetProc p free))
  slot : ∀ k c id b, f (k.setSlot c id b) = f k
  shm : ∀ k id b, f (k.setShm id b) = f k
  msq : ∀ k id q, f (k.setMsq id q) = f k
  msg : ∀ k a m, f (k.setMsg a m) = f k
  values : ∀ k id sem, f (k.setSem id { k.semid id with sem := sem }) = f k
  clearSet : ∀ k id, r (f k) (f (k.clearObject .sem id))

/-- Calls that make a set or take units of one. -/
def Op.onSets : Op → Bool
  | .semget .. | .semop .. | .resume .. => true
  | _ => false

/-- The other calls, apart from those that create, end and kill processes. -/
def Op.onSlots : Op → Bool
  | .fork .. | .exit .. | .kill .. => false
  | op => !op.onSets

section SlotBlind

variable {α : Type*} {f : Kernel → α} {r : α → α → Prop} (hf : SlotBlind f r)

include hf

theorem SlotBlind.share (k : Kernel) (p : Fin NPROC) (c : IpcKind) (n : IpcNode) :
    f (k.share p c n) = f k := (hf.slot ..).trans (hf.nodes ..)

theorem SlotBlind.addNode (h : addNode L c p id flag k = .ok k') : f k' = f k := by
  obtain ⟨s, addr, rfl⟩ := addNode_ok h
  exact (hf.share (k.setHeap s) p c ⟨addr, flag, id, 0⟩).trans (hf.heap k s)

theorem SlotBlind.clear (k : Kernel) (c : IpcKind) (id : ℕ) (s : KHeap) (flag : ℕ) :
    r (f k) (f (k.clear c id s flag)) := by
  rw [Kernel.clear, hf.slot, ← hf.heap k s]
  cases c with
  | shm => exact hf.shm (k.setHeap s) id _ ▸ hf.refl _
  | sem => exact hf.clearSet ..
  | msq => exact hf.msq (k.setHeap s) id _ ▸ hf.refl _

theorem SlotBlind.retiring : Retiring f r :=
  { Clearing.dropping
      ⟨hf.refl, hf.trans, hf.heap, hf.table, hf.nodes, fun _ _ _ => hf.slot .., fun k c id s n _ =>
        hf.clear k c id s n⟩ with
    reset := hf.reset
    retire := fun _ _ _ _ => by
      rw [hf.slot]
      exact hf.refl _
    clear := fun k c id s n _ => hf.clear k c id s n
    flag := fun _ _ _ _ => hf.slot ..
    msq := hf.msq
    values := hf.values }

theorem SlotBlind.sharing (p : Fin NPROC) : Sharing p f fun a b => b = a :=
  .of_kept hf.heap (fun k => hf.table k p) fun k c n => hf.share k p c n

theorem Call.slotBlind {op : Op} (h : Call L k op k') (hop : op.onSlots = true) :
    r (f k) (f k') := by
  have hsame : ∀ {k'}, f k' = f k → r (f k) (f k') := fun heq => heq ▸ hf.refl _
  cases h with
  | shmget hcall =>
    refine hsame (ipcGet_keeps hf.slot ?_ ?_ hcall)
    · intro id k k' hcreate
      obtain ⟨pa, s, -, rfl⟩ := shmCreate_ok hcreate
      rw [hf.shm, hf.heap]
    · intro id k k' hshare
      cases hshare
      rfl
  | msgget hcall =>
    refine hsame (ipcGet_keeps hf.slot ?_ (fun _ _ _ => hf.addNode) hcall)
    intro id k k' hcreate
    cases hcreate
    split
    · exact hf.msq ..
    · rfl
  | @shmat _ p shmid _ _ _ hcall =>
    refine hsame ?_
    obtain ⟨rfl, -⟩ | ⟨id, free, s, pt, pt', m, n, addr, k₁, -, -, -, -, -, hk₁, rfl⟩ :=
      shmat_ok hcall
    · rfl
    · obtain ⟨s', -, rfl, -⟩ := Kernel.kmallocNode_ok hk₁
      calc f _ = f _ := hf.share _ p .shm _
        _ = f _ := hf.heap ..
        _ = f _ := hf.freeva ..
        _ = f _ := hf.table (k.setHeap s) p pt' m
        _ = f k := hf.heap ..
  | shmdt hcall => exact shmdt_dropping hf.retiring.toDropping hcall
  | shmctl hcall => exact shmctl_retiring hf.retiring hcall
  | msgctl hcall => exact msgctl_retiring hf.retiring hcall
  | semctl hcall =>
    obtain ⟨rfl, -⟩ | ⟨id, -, -, hfree, huse, hdone⟩ := semctl_done hcall
    · exact hf.refl _
    cases hdone with
    | rmid _ hrem => exact removeSet_retiring hf.retiring huse hfree hrem
    | stat _ hk => exact hsame (by rw [hk])
    | getall _ hk => exact hsame (by rw [hk, hf.heap])
    | getval _ _ _ hk => exact hsame (by rw [hk, hf.slot])
    | setall _ hk => exact hsame (by rw [hk, hf.heap, hf.values])
    | setval _ _ hk => exact hsame (by rw [hk, Kernel.setSemaphore, hf.values])
    | unknown _ hk => exact hsame (by rw [hk, hf.slot])
  | msgsnd hcall => exact hsame (msgsnd_mailing ⟨hf.heap, hf.msq, hf.msg⟩ hcall)
  | msgrcv hcall => exact hsame (msgrcv_mailing ⟨hf.heap, hf.msq, hf.msg⟩ hcall)
  | wait hcall => exact wait_reaping hf.retiring.toReaping hcall
  | semget => cases hop
  | semop => cases hop
  | resume => cases hop
  | fork => cases hop
  | exit => cases hop
  | kill => cases hop

/-- The processes that a call creates, ends and kills do not show either. -/
theorem Call.setBlind {op : Op} (hvm : ∀ k vm, f { k with vm := vm } = f k) (h : Call L k op k')
    (hop : op.onSets = false) : r (f k) (f k') := by
  by_cases hslots : op.onSlots = true
  · exact h.slotBlind hf hslots
  cases h with
  | fork hcall =>
    obtain ⟨vm, -, hshared⟩ := fork_sharing hf.sharing hcall
    exact hshared.trans (hvm k vm) ▸ hf.refl _
  | exit hcall =>
    simp only [Ipc.exit, bind_eq_ok, pure_eq_ok] at hcall
    obtain ⟨vm, -, rfl⟩ := hcall
    exact hvm k vm ▸ hf.refl _
  | kill => exact hvm k _ ▸ hf.refl _
  | semget => cases hop
  | semop => cases hop
  | resume => cases hop
  | _ => exact absurd rfl hslots

/-- A `semget` for a projection that does not see the sets either. -/
theorem SlotBlind.semget {key size : ℕ} (hset : ∀ k id b, f (k.setSem id b) = f k)
    (h : semget L p key size flag k = .ok (n, k')) : f k' = f k := by
  refine ipcGet_keeps hf.slot ?_ (fun _ _ _ => hf.addNode) h
  intro id k k' hcreate
  obtain ⟨ptr, s, rfl⟩ := semCreate_ok hcreate
  rw [hset, hf.heap]

end SlotBlind

end LearnOS.Ipc
