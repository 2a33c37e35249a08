import LearnOS.Ipc.Attach

/-!
# The permissions of an attachment

`shmat` takes the permission of an attachment from the owner bits of the segment, keeps it
in the node of the process and writes it into the page table; `fork` maps the attachment
in the child with the permission of the node. So the entries of an attachment are the same
in every process that has inherited it, and whether they honour the permission is decided
when it is made.

## Main results

`attach_permissions_iff`: the permission of the segment is honoured, also along every chain
of forks, if and only if the owner may not read and `SHM_RDONLY` is given, or it is not
given and the owner may read when the owner may write.
-/

namespace LearnOS.Ipc

open LearnOS Function Kres

variable {rdonly : Bool}

/-! ## What an entry allows -/

/-- The uses of memory by a user program. -/
inductive MemUse where
  | load
  | store
  | fetch
  deriving DecidableEq

/-- The bit of an entry, and of the permissions of an IPC object. -/
def MemUse.bit : MemUse → ℕ
  | .load => 1
  | .store => 2
  | .fetch => 3

/-- What the hardware checks. An entry with stores but without loads is reserved and faults
on every use. -/
def MemUse.granted (use : MemUse) (pte : Pte) : Bool :=
  pte.getLsbD 0 && pte.getLsbD 4 && (pte.getLsbD 1 || !pte.getLsbD 2) && pte.getLsbD use.bit

/-- The bits `IPC_R`, `IPC_W` and `IPC_X` under `IPC_OWNER_MASK`. -/
def ownerMay (use : MemUse) (flag : ℕ) : Bool := flag.testBit (8 + use.bit)

/-- Each use is granted as the owner bits say, with loads alone under `SHM_RDONLY`. -/
def PermissionHonoured (flag : ℕ) (rdonly : Bool) (pte : Pte) : Prop :=
  ∀ use : MemUse, use.granted pte = (ownerMay use flag && (decide (use = .load) || !rdonly))

/-- The permissions that survive the mask and the encoding. -/
def Expressible (flag : ℕ) (rdonly : Bool) : Prop :=
  if rdonly then ownerMay .load flag = false
  else ownerMay .store flag = true → ownerMay .load flag = true

/-- `SHM_RDONLY` clears every bit of the permission. -/
theorem attachFlag_testBit {flag b : ℕ} (hb : b < 4) :
    (attachFlag flag rdonly).testBit b = (!rdonly && flag.testBit (8 + b)) := by
  cases rdonly with
  | true =>
    simp only [attachFlag, if_true, Nat.testBit_shiftLeft, decide_eq_false (Nat.not_le.mpr hb),
      Bool.false_and, Bool.not_true]
  | false =>
    simp only [attachFlag, Bool.false_eq_true, if_false, Nat.testBit_mod_two_pow,
      Nat.testBit_shiftRight, decide_eq_true hb, Bool.true_and, Bool.not_false]

/-- The bits of the entries of an attachment. -/
theorem attached_bits (pa flag j : ℕ) (rdonly : Bool) :
    (mappedPte pa (shmPerm (attachFlag flag rdonly)) j).getLsbD 0 = true ∧
      (mappedPte pa (shmPerm (attachFlag flag rdonly)) j).getLsbD 4 = true ∧
      ∀ use : MemUse, (mappedPte pa (shmPerm (attachFlag flag rdonly)) j).getLsbD use.bit =
        (!rdonly && ownerMay use flag) := by
  refine ⟨mappedPte_valid _ _ _, ?_, fun use => ?_⟩
  · rw [getLsbD_mappedPte _ _ _ (by decide), shmPerm, BitVec.getLsbD_or]
    simp [PTE_U]
  · have huse : 0 < use.bit ∧ use.bit < 4 := by cases use <;> decide
    have hword : (BitVec.ofNat 64 (attachFlag flag rdonly)).getLsbD use.bit =
        (attachFlag flag rdonly).testBit use.bit := by
      rw [BitVec.getLsbD_ofNat, decide_eq_true (by omega), Bool.true_and]
    rw [getLsbD_mappedPte _ _ _ (by omega), shmPerm, BitVec.getLsbD_or, hword,
      attachFlag_testBit huse.2, PTE_U, BitVec.getLsbD_twoPow, ownerMay]
    have hfour : ¬ 4 = use.bit := by omega
    have hzero : ¬ 0 = use.bit := by omega
    simp [hfour, hzero]

theorem honoured_iff (pa flag j : ℕ) (rdonly : Bool) :
    PermissionHonoured flag rdonly (mappedPte pa (shmPerm (attachFlag flag rdonly)) j) ↔
      Expressible flag rdonly := by
  obtain ⟨hvalid, huser, huse⟩ := attached_bits pa flag j rdonly
  have hread := huse .load
  have hwrite := huse .store
  simp only [MemUse.bit] at hread hwrite
  have hgrant : ∀ use : MemUse,
      use.granted (mappedPte pa (shmPerm (attachFlag flag rdonly)) j) =
        (((!rdonly && ownerMay .load flag) || !(!rdonly && ownerMay .store flag)) &&
          (!rdonly && ownerMay use flag)) := by
    intro use
    rw [MemUse.granted, hvalid, huser, hread, hwrite, huse use, Bool.true_and, Bool.true_and]
  cases rdonly with
  | true =>
    simp only [Expressible, if_true]
    constructor
    · intro hlaw
      have hload := hlaw .load
      rw [hgrant] at hload
      simpa using hload.symm
    · intro hclear use
      rw [hgrant]
      cases use <;> simp [hclear]
  | false =>
    simp only [Expressible, Bool.false_eq_true, if_false]
    constructor
    · intro hlaw hstore
      have hboth := hlaw .store
      rw [hgrant] at hboth
      simpa [hstore] using hboth
    · intro himp use
      rw [hgrant]
      cases hstore : ownerMay .store flag with
      | true => simp [himp hstore]
      | false => simp

/-! ## Page tables in `fork` -/

section Tables

variable {L : Layout} {m m' : KMem} {old new old' new' : PageTable} {r : ℤ} {s s' : VmState}
  {p np : Fin NPROC}

/-- The table of the parent keeps every entry that is not mapped in the child; no other
process changes. -/
structure ForkedTables (s s' : VmState) (p np : Fin NPROC) (old old' new : PageTable) : Prop where
  unused : (s.proc np).state = .UNUSED
  before : (s.proc p).pagetable = some old
  parent : s'.proc p = { s.proc p with pagetable := some old' }
  child : (s'.proc np).pagetable = some new
  runnable : (s'.proc np).state = .RUNNABLE
  other : ∀ q, q ≠ p → q ≠ np → s'.proc q = s.proc q
  kept : ∀ w, (new.entry w).getLsbD 0 = false → old'.entry w = old.entry w
  copied : ∀ w ∈ copiedPages old (s.proc p).sz, (new.entry w).getLsbD 0 = true

theorem vmFork_tables {r : Option (Fin NPROC)} (hp : (s.proc p).state ≠ .UNUSED)
    (h : LearnOS.fork L (kalloc L) p s = .ok (r, s')) :
    (r = none ∧ s' = s) ∨ ∃ np old old' new, r = some np ∧ ForkedTables s s' p np old old' new := by
  rcases fork_ok h with ⟨hr, hs, -⟩ | ⟨np, s₁, trapframe, old, new, old', new', hr, hdone⟩
  · exact Or.inl ⟨hr, hs⟩
  have hne := hdone.ne hp
  have htables := copyLoop_tables hdone.copy
  rw [validPages_eq_copiedPages] at htables
  refine Or.inr ⟨np, old, old', new', hr, hdone.unused, hdone.before hne, hdone.parent hne, ?_, ?_,
    fun _ => hdone.other, fun w hw => htables.old_out w fun hin => ?_,
    fun w hw => by rw [htables.new_valid hw, hw.2]⟩
  · rw [hdone.child, childProc]
  · rw [hdone.child, childProc]
  · rw [htables.new_valid hin, hin.2] at hw
    cases hw

end Tables

/-! ## Attachments in `fork` -/

variable {L : Layout} {k k' k₁ k₂ : Kernel} {p q np : Fin NPROC} {pt pt' : PageTable}
  {id va flag : ℕ}

/-- The entries of an attachment in a table. -/
def Maps (k : Kernel) (pt : PageTable) (id va flag : ℕ) : Prop :=
  ∀ j < shmPages (k.shmid id).sz,
    pt.entry (va / PGSIZE + j) = mappedPte (k.shmid id).ptr (shmPerm flag) j

/-- A process has an attachment: its node and its mapping. -/
structure HasAttachment (k : Kernel) (p : Fin NPROC) (id va flag : ℕ) : Prop where
  used : (k.vm.proc p).state ≠ .UNUSED
  node : ∃ n ∈ k.nodes (p, .shm), n.slot = id ∧ n.va = va ∧ n.flag = flag
  mapped : ∃ pt, (k.vm.proc p).pagetable = some pt ∧ Maps k pt id va flag

/-- The copies of nodes that are not for shared memory. -/
theorem copyNodes_shm {c : IpcKind} (hc : c ≠ .shm) {l : List IpcNode}
    (h : copyNodes L c np l k = .ok k') :
    k'.vm.proc = k.vm.proc ∧ k'.shmid = k.shmid ∧
      ∀ q, k'.nodes (q, .shm) = k.nodes (q, .shm) := by
  induction l generalizing k with
  | nil =>
    cases h
    exact ⟨rfl, rfl, fun _ => rfl⟩
  | cons n rest ih =>
    simp only [copyNodes, bind_eq_ok] at h
    obtain ⟨⟨addr, k₁⟩, hk₁, u, -, hrest⟩ := h
    obtain ⟨s, -, rfl, -⟩ := Kernel.kmallocNode_ok hk₁
    obtain ⟨hproc, hshm, hnodes⟩ := ih hrest
    refine ⟨hproc, hshm, fun q => (hnodes q).trans ?_⟩
    have hne : (q, IpcKind.shm) ≠ (np, c) := fun heq => hc (Prod.mk.inj heq).2.symm
    exact update_of_ne hne _ _

/-- `uvmcopy_shm` maps each attachment of a list over entries that are free, and adds a
node with the same permission. -/
structure CopiesShm (k k' : Kernel) (np : Fin NPROC) (l : List IpcNode) (pt pt' : PageTable) :
    Prop where
  table : (k'.vm.proc np).pagetable = some pt'
  state : (k'.vm.proc np).state = (k.vm.proc np).state
  kept : ∀ w, (pt.entry w).getLsbD 0 = true → pt'.entry w = pt.entry w
  free : ∀ n ∈ l, ∀ j < shmPages (k.shmid n.slot).sz,
    (pt.entry (n.va / PGSIZE + j)).getLsbD 0 = false
  maps : ∀ n ∈ l, Maps k pt' n.slot n.va n.flag
  nodes : ∀ n ∈ l, ∃ n' ∈ k'.nodes (np, .shm), n'.slot = n.slot ∧ n'.va = n.va ∧ n'.flag = n.flag
  older : ∀ n ∈ k.nodes (np, .shm), n ∈ k'.nodes (np, .shm)
  shmid : k'.shmid = k.shmid
  proc : ∀ q, q ≠ np → k'.vm.proc q = k.vm.proc q
  other : ∀ q, q ≠ np → k'.nodes (q, .shm) = k.nodes (q, .shm)

theorem uvmcopyShm_copies {l : List IpcNode} (hpt : (k.vm.proc np).pagetable = some pt)
    (h : uvmcopyShm L np l k = .ok k') : ∃ pt', CopiesShm k k' np l pt pt' := by
  induction l generalizing k pt with
  | nil =>
    cases h
    exact ⟨pt, hpt, rfl, fun _ _ => rfl, by simp, by simp, by simp, fun _ hn => hn, rfl,
      fun _ _ => rfl, fun _ _ => rfl⟩
  | cons n rest ih =>
    simp only [uvmcopyShm, hpt, bind_eq_ok] at h
    obtain ⟨u, -, ⟨r, pt₁, m⟩, hmap, ⟨addr, k₁⟩, hk₁, hrest⟩ := h
    obtain ⟨s, -, rfl, -⟩ := Kernel.kmallocNode_ok hk₁
    obtain ⟨-, hmapped⟩ := mappages_mapped hmap
    rw [Nat.mul_div_cancel _ (by decide)] at hmapped
    set k₂ := ((addRef .shm n.slot { k with vm := k.vm.setTable np pt₁ m }).setHeap s).setNodes
      np .shm (⟨addr, n.flag, n.slot, n.va⟩ :: k.nodes (np, .shm)) with hk₂
    have hpt₁ : (k₂.vm.proc np).pagetable = some pt₁ := by
      simp [hk₂, Kernel.setNodes, Kernel.setHeap, addRef, Kernel.setSlot, VmState.setTable]
    have hnodes₁ : k₂.nodes (np, .shm) = ⟨addr, n.flag, n.slot, n.va⟩ :: k.nodes (np, .shm) :=
      update_self ..
    obtain ⟨pt', hc⟩ := ih hpt₁ hrest
    have hvalid : ∀ w, (pt.entry w).getLsbD 0 = true → pt₁.entry w = pt.entry w :=
      fun _ => hmapped.kept
    refine ⟨pt', hc.table, ?_, fun w hw => ?_, ?_, ?_, ?_, fun n' hn' => ?_, hc.shmid, ?_, ?_⟩
    · rw [hc.state]
      simp [hk₂, Kernel.setNodes, Kernel.setHeap, addRef, Kernel.setSlot, VmState.setTable]
    · rw [hc.kept w (by rw [hvalid w hw]; exact hw), hvalid w hw]
    · intro n' hn' j hj
      rcases List.mem_cons.mp hn' with rfl | hn'
      · exact hmapped.free j hj
      · by_contra hv
        have hv' := Bool.eq_true_of_not_eq_false hv
        have hfree := hc.free n' hn' j hj
        rw [hvalid _ hv', hv'] at hfree
        cases hfree
    · intro n' hn' j hj
      rcases List.mem_cons.mp hn' with rfl | hn'
      · have hnew := hmapped.new j hj
        rw [hc.kept _ (by rw [hnew]; exact mappedPte_valid _ _ _), hnew]
      · exact hc.maps n' hn' j hj
    · intro n' hn'
      rcases List.mem_cons.mp hn' with rfl | hn'
      · refine ⟨⟨addr, n'.flag, n'.slot, n'.va⟩, hc.older _ ?_, rfl, rfl, rfl⟩
        rw [hnodes₁]
        exact List.mem_cons_self
      · exact hc.nodes n' hn'
    · exact hc.older n' (by rw [hnodes₁]; exact List.mem_cons_of_mem _ hn')
    · intro q hq
      rw [hc.proc q hq]
      simp [hk₂, Kernel.setNodes, Kernel.setHeap, addRef, Kernel.setSlot, VmState.setTable, hq]
    · intro q hq
      rw [hc.other q hq]
      have hne : (q, IpcKind.shm) ≠ (np, IpcKind.shm) := fun heq => hq (Prod.mk.inj heq).1
      exact update_of_ne hne _ _

theorem HasAttachment.congr (h : HasAttachment k q id va flag)
    (hproc : k'.vm.proc q = k.vm.proc q) (hnodes : k'.nodes (q, .shm) = k.nodes (q, .shm))
    (hshm : k'.shmid = k.shmid) : HasAttachment k' q id va flag := by
  obtain ⟨hused, hnode, pt, hpt, hmaps⟩ := h
  refine ⟨by rwa [hproc], by rwa [hnodes], pt, by rwa [hproc], ?_⟩
  rw [Maps, hshm]
  exact hmaps

/-- A process keeps its attachments when any process forks, and its child has them too. -/
theorem HasAttachment.fork (h : HasAttachment k q id va flag) (hp : (k.vm.proc p).state ≠ .UNUSED)
    {r : Option (Fin NPROC)} (hcall : fork L p k = .ok (r, k')) :
    HasAttachment k' q id va flag ∧
      ∀ np, p = q → r = some np → HasAttachment k' np id va flag := by
  simp only [Ipc.fork, bind_eq_ok] at hcall
  obtain ⟨⟨r₁, vm⟩, hvm, hcall⟩ := hcall
  rcases vmFork_tables hp hvm with ⟨rfl, rfl⟩ | ⟨np, old, old', new, rfl, hf⟩
  · cases hcall
    exact ⟨h, fun np _ hnp => by cases hnp⟩
  simp only [bind_eq_ok, pure_eq_ok, Prod.mk.injEq] at hcall
  obtain ⟨k₁, hshm, k₂, hsem, k₃, hmsq, rfl, rfl⟩ := hcall
  obtain ⟨pt', hc⟩ := uvmcopyShm_copies (k := { k with vm := vm }) hf.child hshm
  obtain ⟨hproc₂, hshm₂, hnodes₂⟩ := copyNodes_shm (by decide) hsem
  obtain ⟨hproc₃, hshm₃, hnodes₃⟩ := copyNodes_shm (by decide) hmsq
  have hback : ∀ q', HasAttachment k₁ q' id va flag → HasAttachment k₃ q' id va flag := by
    intro q' hq'
    refine hq'.congr ?_ ((hnodes₃ q').trans (hnodes₂ q')) (hshm₃.trans hshm₂)
    rw [hproc₃, hproc₂]
  have hqn : q ≠ np := by
    rintro rfl
    exact h.used hf.unused
  obtain ⟨n, hn, rfl, rfl, rfl⟩ := h.node
  obtain ⟨pt, hpt, hmaps⟩ := h.mapped
  by_cases hqp : q = p
  · -- The attachment is free in the new table, so its entries in the old one are untouched.
    subst hqp
    obtain rfl : old = pt := Option.some.inj (hf.before.symm.trans hpt)
    have hparent : HasAttachment k₁ q n.slot n.va n.flag := by
      refine ⟨?_, ⟨n, ?_, rfl, rfl, rfl⟩, old', ?_, fun j hj => ?_⟩
      · rw [hc.proc q hqn, hf.parent]
        exact h.used
      · rw [hc.other q hqn]
        exact hn
      · rw [hc.proc q hqn, hf.parent]
      · rw [hc.shmid] at hj ⊢
        rw [hf.kept _ (hc.free n hn j hj)]
        exact hmaps j hj
    have hchild : HasAttachment k₁ np n.slot n.va n.flag := by
      refine ⟨?_, hc.nodes n hn, pt', hc.table, fun j hj => ?_⟩
      · rw [hc.state, hf.runnable]
        decide
      · rw [hc.shmid] at hj ⊢
        exact hc.maps n hn j hj
    refine ⟨hback q hparent, fun np' _ hnp' => ?_⟩
    cases hnp'
    exact hback np hchild
  · refine ⟨hback q (h.congr ?_ (hc.other q hqn) hc.shmid), fun _ heq => absurd heq.symm hqp⟩
    rw [hc.proc q hqn]
    exact hf.other q hqp hqn

/-! ## Chains of forks -/

/-- After some forks a process is the one that made the attachment or has inherited it. -/
inductive Inherits (L : Layout) (k : Kernel) (p : Fin NPROC) : Kernel → Fin NPROC → Prop
  | self : Inherits L k p k p
  | keeps {k₁ k₂ : Kernel} {q p' : Fin NPROC} {r : Option (Fin NPROC)}
      (h : Inherits L k p k₁ q) (hused : (k₁.vm.proc p').state ≠ .UNUSED)
      (hcall : fork L p' k₁ = .ok (r, k₂)) : Inherits L k p k₂ q
  | child {k₁ k₂ : Kernel} {q np : Fin NPROC} (h : Inherits L k p k₁ q)
      (hcall : fork L q k₁ = .ok (some np, k₂)) : Inherits L k p k₂ np

theorem Inherits.hasAttachment (h : HasAttachment k p id va flag) (hin : Inherits L k p k' q) :
    HasAttachment k' q id va flag := by
  induction hin with
  | self => exact h
  | keeps _ hused hcall ih => exact (ih.fork hused hcall).1
  | child _ hcall ih => exact (ih.fork ih.used hcall).2 _ rfl rfl

theorem fork_shmid {r : Option (Fin NPROC)} (h : fork L p k = .ok (r, k')) :
    k'.shmid = k.shmid := by
  obtain ⟨vm, -, hshm⟩ := fork_sharing (f := Kernel.shmid)
    (fun p => .of_kept (fun _ _ => rfl) (fun _ _ _ => rfl) fun _ _ _ => rfl) h
  exact hshm

theorem Inherits.shmid (hin : Inherits L k p k' q) : k'.shmid = k.shmid := by
  induction hin with
  | self => rfl
  | keeps _ _ hcall ih | child _ hcall ih => rw [fork_shmid hcall, ih]

/-- The permission is honoured for every byte of the attachment at `va`, in the process that
made it and in every process that has inherited it. -/
def AttachmentHonoured (L : Layout) (k : Kernel) (p : Fin NPROC) (va bytes flag : ℕ)
    (rdonly : Bool) : Prop :=
  ∀ k' q, Inherits L k p k' q → ∃ pt, (k'.vm.proc q).pagetable = some pt ∧
    ∀ i < bytes, PermissionHonoured flag rdonly (pt.entry ((va + i) / PGSIZE))

/-- What `shmat` leaves. -/
theorem shmat_hasAttachment {shmaddr : ℕ} (hp : (k.vm.proc p).state ≠ .UNUSED)
    (h : shmat L p id shmaddr rdonly k = .ok (va, k')) (hva : va ≠ NULL) :
    HasAttachment k' p id va (attachFlag (k.slot (.shm, id)).flag rdonly) ∧
      k'.shmid = k.shmid ∧ va % PGSIZE = 0 ∧ 0 < shmPages (k.shmid id).sz := by
  obtain ⟨rfl, rfl⟩ |
    ⟨id', free, s, pt, pt', m, r, addr, k₁, hid, -, -, -, hmap, hk₁, rfl⟩ := shmat_ok h
  · exact absurd rfl hva
  obtain rfl : id = id' := by exact_mod_cast hid
  obtain ⟨s₂, -, rfl, -⟩ := Kernel.kmallocNode_ok hk₁
  obtain ⟨-, hmapped⟩ := mappages_mapped hmap
  obtain ⟨hmod, -, hsize, -⟩ := mappages_ok hmap
  rw [Nat.mul_div_cancel _ (by decide)] at hmapped
  refine ⟨⟨?_, ⟨⟨addr, attachFlag (k.slot (.shm, id)).flag rdonly, id, va⟩, ?_, rfl, rfl, rfl⟩,
    pt', ?_, hmapped.new⟩, rfl, hmod, Nat.pos_of_mul_pos_right (Nat.pos_of_ne_zero hsize)⟩
  · simpa [addRef, Kernel.setSlot, Kernel.setNodes, Kernel.setHeap, Kernel.setSpace,
      VmState.setTable] using hp
  · exact (congrArg (_ ∈ ·) (update_self ..)).mpr List.mem_cons_self
  · simp [addRef, Kernel.setSlot, Kernel.setNodes, Kernel.setHeap, Kernel.setSpace,
      VmState.setTable]

/-- A child of the first process may neither read nor write an attachment that was made with
`SHM_RDONLY`, although the owner may read it. -/
theorem rdonly_attachment_unreadable :
    ∃ k₀ k₁ k₂ k₃ va np pt, smallBoot smallLayout = .ok k₀ ∧
      shmget smallLayout 0 4096 0x8fff k₀ = .ok ((0 : ℕ), k₁) ∧
      ownerMay .load (k₁.slot (.shm, 0)).flag = true ∧
      shmat smallLayout 0 (0 : ℕ) NULL true k₁ = .ok (va, k₂) ∧ va ≠ NULL ∧
      fork smallLayout 0 k₂ = .ok (some np, k₃) ∧ (k₃.vm.proc np).pagetable = some pt ∧
      MemUse.load.granted (pt.entry (va / PGSIZE)) = false ∧
      ¬ AttachmentHonoured smallLayout k₂ 0 va (shmPages (k₁.shmid 0).sz * PGSIZE)
        (k₁.slot (.shm, 0)).flag true := by
  have hrun : (smallBoot smallLayout).Yields fun k₀ =>
      (shmget smallLayout 0 4096 0x8fff k₀).Yields fun r => r.1 = (0 : ℕ) ∧
        ownerMay .load (r.2.slot (.shm, 0)).flag = true ∧ (r.2.shmid 0).sz = 4096 ∧
        (shmat smallLayout 0 (0 : ℕ) NULL true r.2).Yields fun r₁ => r₁.1 ≠ NULL ∧
          (fork smallLayout 0 r₁.2).Yields fun r₂ => r₂.1 = some 1 ∧
            ∃ pt, (r₂.2.vm.proc 1).pagetable = some pt ∧
              MemUse.load.granted (pt.entry (r₁.1 / PGSIZE)) = false := by
    decide +kernel
  obtain ⟨k₀, hk₀, ⟨r, k₁⟩, hk₁, rfl, howner, hsz, ⟨va, k₂⟩, hk₂, hva, ⟨np, k₃⟩, hk₃, rfl, pt, hpt,
    htable⟩ := hrun
  refine ⟨k₀, k₁, k₂, k₃, va, 1, pt, hk₀, hk₁, howner, hk₂, hva, hk₃, hpt, htable, fun hlaw => ?_⟩
  obtain ⟨pt', hpt', hbytes⟩ := hlaw k₃ 1 (.child .self hk₃)
  obtain rfl : pt = pt' := Option.some.inj (hpt.symm.trans hpt')
  have hpos : 0 < shmPages (k₁.shmid 0).sz * PGSIZE := by
    rw [hsz]
    decide
  have hload := hbytes 0 hpos .load
  rw [Nat.add_zero, htable, howner] at hload
  cases hload

/-- The permissions of an attachment are honoured in every process that has it if and only
if they survive the mask and the encoding. -/
theorem attach_permissions_iff {rdonly : Bool} {shmaddr : ℕ}
    (hp : (k.vm.proc p).state ≠ .UNUSED)
    (h : shmat L p id shmaddr rdonly k = .ok (va, k')) (hva : va ≠ NULL) :
    AttachmentHonoured L k' p va (shmPages (k.shmid id).sz * PGSIZE) (k.slot (.shm, id)).flag
        rdonly ↔
      Expressible (k.slot (.shm, id)).flag rdonly := by
  obtain ⟨hatt, hshm, hmod, hpos⟩ := shmat_hasAttachment hp h hva
  constructor
  · intro hlaw
    obtain ⟨pt, hpt, hbytes⟩ := hlaw k' p .self
    obtain ⟨pt', hpt', hmaps⟩ := hatt.mapped
    obtain rfl : pt = pt' := Option.some.inj (hpt.symm.trans hpt')
    have hfirst := hbytes 0 (Nat.mul_pos hpos (by decide))
    rw [← hshm] at hpos
    rw [Nat.add_zero, ← Nat.add_zero (va / PGSIZE), hmaps 0 hpos] at hfirst
    exact (honoured_iff _ _ _ _).mp hfirst
  · intro hexpress k₁ q hin
    obtain ⟨pt, hpt, hmaps⟩ := (hin.hasAttachment hatt).mapped
    refine ⟨pt, hpt, fun i hi => ?_⟩
    have hpage : (va + i) / PGSIZE = va / PGSIZE + i / PGSIZE := by
      simp only [PGSIZE] at hmod ⊢
      omega
    have hj : i / PGSIZE < shmPages (k₁.shmid id).sz := by
      rw [hin.shmid, hshm]
      exact Nat.div_lt_of_lt_mul (by rwa [Nat.mul_comm])
    rw [hpage, hmaps _ hj]
    exact (honoured_iff _ _ _ _).mpr hexpress

/-- An attachment with all owner bits and without `SHM_RDONLY`. -/
theorem plain_attachment_honoured :
    ∃ k₀ k₁ k₂ va, smallBoot smallLayout = .ok k₀ ∧
      shmget smallLayout 0 4096 0x8fff k₀ = .ok ((0 : ℕ), k₁) ∧
      shmat smallLayout 0 (0 : ℕ) NULL false k₁ = .ok (va, k₂) ∧
      AttachmentHonoured smallLayout k₂ 0 va (shmPages (k₁.shmid 0).sz * PGSIZE)
        (k₁.slot (.shm, 0)).flag false := by
  obtain ⟨k₀, k₁, k₂, va, hk₀, hk₁, hk₂, hva, huse, hload⟩ := get_attach_run 4096 0x8fff
    (fun _ k₁ => (k₁.vm.proc 0).state ≠ .UNUSED ∧
      ownerMay .load (k₁.slot (.shm, 0)).flag = true) (by decide +kernel)
  exact ⟨k₀, k₁, k₂, va, hk₀, hk₁, hk₂, (attach_permissions_iff huse hk₂ hva).mpr fun _ => hload⟩

end LearnOS.Ipc
