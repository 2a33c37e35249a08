import LearnOS.Ipc.AttachPerm
import LearnOS.Slab.Capacity
import LearnOS.Vm.ForkFault

/-!
# Faults after a fork with attachments

`fork` copies the pages below the size, maps the attachments of the parent in the child
(`uvmcopy_shm`) and copies the nodes of the IPC objects. The blocks for the nodes come
from `kmalloc`, which leaves the pages in use alone.

## Main results

`fork_faults_inherited_iff`: after a `fork` that returns, parent and child answer every
load and store alike if and only if no address shows what the child did not inherit.
-/

namespace LearnOS.Ipc

open LearnOS BuddySystem Function Kres

/-! ## Blocks from `kmalloc` -/

section Memory

variable {L : Layout} {s s' : KHeap} {c : CacheId} {a n u : ℕ}

theorem allocPage_extends (h : s.allocPage L = .ok (a, s')) : Extends L s.mem s'.mem := by
  simp only [KHeap.allocPage, bind_eq_ok, pure_eq_ok, Prod.mk.injEq] at h
  obtain ⟨⟨page, m⟩, hm, -, rfl⟩ := h
  exact kalloc_extends hm

theorem allocSmall_extends (h : allocSmallObjectPool L c n s = .ok (a, s')) :
    Extends L s.mem s'.mem := by
  induction n generalizing s with
  | zero => cases h
  | succ n ih =>
    simp only [allocSmallObjectPool] at h
    split at h
    · simp only [bind_eq_ok] at h
      obtain ⟨⟨newpg, s₁⟩, hinit, h⟩ := h
      obtain ⟨m, hm, rfl⟩ := initSmall_mem hinit
      have hrest := ih h
      exact (kalloc_extends hm).trans hrest
    · cases h
      exact Extends.refl _

theorem allocNode_extends (h : allocNode L s = .ok (a, s')) : Extends L s.mem s'.mem := by
  rw [allocNode] at h
  split at h
  · cases h
  · exact allocSmall_extends h

theorem initLarge_extends (h : initLargeObjectPool L u 1 s = .ok (a, s')) :
    Extends L s.mem s'.mem := by
  simp only [initLargeObjectPool, bind_eq_ok, pure_eq_ok, Nat.sub_self, largePages,
    Except.ok.injEq, Prod.mk.injEq] at h
  obtain ⟨⟨node, s₁⟩, hnode, ⟨page, s₂⟩, hpage, x, hx, -, rfl⟩ := h
  subst hx
  have hmem : (linkSlots page u (lastSlot u) 0 (s₂.store node page)).mem = s₂.mem :=
    linkSlots_mem _ _ _ _ _
  exact ((allocNode_extends hnode).trans (allocPage_extends hpage)).trans
    (hmem ▸ Extends.refl _)

theorem allocLarge_extends (h : allocLargeObjectPool L c n s = .ok (a, s')) :
    Extends L s.mem s'.mem := by
  induction n generalizing s with
  | zero => cases h
  | succ n ih =>
    simp only [allocLargeObjectPool] at h
    split at h
    · simp only [bind_eq_ok] at h
      obtain ⟨⟨newnode, s₁⟩, hinit, h⟩ := h
      have hrest := ih h
      exact (initLarge_extends hinit).trans hrest
    · cases h
      exact Extends.refl _

theorem kmalloc_extends (h : kmalloc L n s = .ok (a, s')) : Extends L s.mem s'.mem := by
  simp only [kmalloc, bind_eq_ok] at h
  obtain ⟨owner, -, h⟩ := h
  cases owner with
  | slab c =>
    simp only [Owner.alloc, kmemCacheAlloc] at h
    split at h
    · exact allocLarge_extends h
    · exact allocSmall_extends h
  | buddy order =>
    obtain ⟨b, horder, halloc, rfl⟩ := kbuddyAlloc_ok h
    intro live hheap
    refine ⟨_, heapInv_alloc hheap horder halloc, ?_, fun _ _ => rfl, fun _ _ => rfl⟩
    split
    · exact List.Subset.refl _
    · exact List.subset_cons_self _ _

end Memory

variable {L : Layout} {k k' : Kernel} {p np : Fin NPROC} {a n v : ℕ} {live : List (ℕ × ℕ)}

theorem Kernel.kmallocNode_extends (h : k.kmallocNode L n = .ok (a, k')) :
    Extends L k.vm.mem k'.vm.mem := by
  obtain ⟨s, hs, rfl, -⟩ := Kernel.kmallocNode_ok h
  exact Ipc.kmalloc_extends hs

theorem copyNodes_extends {c : IpcKind} {l : List IpcNode}
    (h : copyNodes L c np l k = .ok k') : Extends L k.vm.mem k'.vm.mem := by
  induction l generalizing k with
  | nil =>
    cases h
    exact Extends.refl _
  | cons node rest ih =>
    simp only [copyNodes, bind_eq_ok] at h
    obtain ⟨⟨addr, k₁⟩, hk₁, u, -, hrest⟩ := h
    have hnext := ih hrest
    exact (Kernel.kmallocNode_extends hk₁).trans hnext

/-! ## Attachments -/

/-- The entry of page `v` in the attachments of a list of nodes. -/
def attached (k : Kernel) (l : List IpcNode) (v : ℕ) : Option Pte :=
  (l.find? fun n => decide (n.va / PGSIZE ≤ v ∧
    v < n.va / PGSIZE + shmPages (k.shmid n.slot).sz)).map fun n =>
      mappedPte (k.shmid n.slot).ptr (shmPerm n.flag) (v - n.va / PGSIZE)

theorem attached_append (k : Kernel) (l l' : List IpcNode) (v : ℕ) :
    attached k (l ++ l') v = (attached k l v).or (attached k l' v) := by
  rw [attached, List.find?_append, Option.map_or]
  rfl

theorem attached_singleton (k : Kernel) (node : IpcNode) (v : ℕ) :
    attached k [node] v =
      if node.va / PGSIZE ≤ v ∧ v < node.va / PGSIZE + shmPages (k.shmid node.slot).sz then
        some (mappedPte (k.shmid node.slot).ptr (shmPerm node.flag) (v - node.va / PGSIZE))
      else none := by
  rw [attached, List.find?_singleton]
  split <;> simp_all

theorem attached_isSome {l : List IpcNode} (h : (attached k l v).isSome = true) :
    ∃ node ∈ l, ∃ j < shmPages (k.shmid node.slot).sz, v = node.va / PGSIZE + j := by
  rw [attached, Option.isSome_map, List.find?_isSome] at h
  obtain ⟨node, hnode, hin⟩ := h
  rw [decide_eq_true_eq] at hin
  exact ⟨node, hnode, v - node.va / PGSIZE, by omega, by omega⟩

/-- The permissions of a node do not mark a page as copied on a write. -/
theorem shmPerm_not_cow {flag : ℕ} (h : flag < 2 ^ 8) : (shmPerm flag).getLsbD 8 = false := by
  rw [shmPerm, BitVec.getLsbD_or, BitVec.getLsbD_ofNat, Nat.testBit_lt_two_pow h, PTE_U,
    BitVec.getLsbD_twoPow]
  rfl

/-- `uvmcopy_shm` adds the attachments of its list to those that are there. -/
theorem uvmcopyShm_inherited {s : VmState} {old old' new : PageTable} {d l : List IpcNode}
    (h : Inherited L s k.vm live p np old old' new (attached k d)) (hne : p ≠ np)
    (hflag : ∀ node ∈ l, node.flag < 2 ^ 8) (hcall : uvmcopyShm L np l k = .ok k') :
    ∃ live' new', Inherited L s k'.vm live' p np old old' new' (attached k' (d ++ l)) := by
  induction l generalizing k new live d with
  | nil =>
    cases hcall
    rw [List.append_nil]
    exact ⟨live, new, h⟩
  | cons node rest ih =>
    simp only [uvmcopyShm, h.child_table, bind_eq_ok] at hcall
    obtain ⟨u, -, ⟨r, new₁, m⟩, hmap, ⟨addr, k₁⟩, hk₁, hrest⟩ := hcall
    obtain ⟨live₁, h₁⟩ := h.attach hne (shmPerm_not_cow (hflag node List.mem_cons_self)) hmap
    have hatt : (fun w => (attached k d w).or
        (if node.va / PGSIZE ≤ w ∧ w < node.va / PGSIZE + shmPages (k.shmid node.slot).sz then
          some (mappedPte (k.shmid node.slot).ptr (shmPerm node.flag) (w - node.va / PGSIZE))
        else none)) = attached k (d ++ [node]) := by
      funext w
      rw [attached_append, attached_singleton]
    rw [hatt] at h₁
    have hext := Kernel.kmallocNode_extends hk₁
    obtain ⟨s₁, -, rfl, -⟩ := Kernel.kmallocNode_ok hk₁
    obtain ⟨live₂, h₂⟩ : ∃ live₂, Inherited L s { k.vm.setTable np new₁ m with mem := s₁.mem } live₂
        p np old old' new₁ (attached k (d ++ [node])) := h₁.extend rfl hext
    rw [List.append_cons]
    refine @ih _ live₂ new₁ _ ?_ (fun n hn => hflag n (List.mem_cons_of_mem _ hn)) hrest
    exact h₂

/-- A `fork` that returns has not copied a page of an attachment: the child would map it
twice. -/
theorem copied_not_attached {pt pt' : PageTable} {vm : VmState} {old' new : PageTable}
    (hf : ForkedTables k.vm vm p np pt old' new)
    (hc : CopiesShm { k with vm := vm } k' np (k.nodes (p, .shm)) new pt')
    (hv : v ∈ copiedPages pt (k.vm.proc p).sz) : attached k (k.nodes (p, .shm)) v = none := by
  by_contra hsome
  obtain ⟨node, hnode, j, hj, rfl⟩ := attached_isSome (Option.isSome_iff_ne_none.mpr hsome)
  have hfree := hc.free node hnode j hj
  rw [hf.copied _ hv] at hfree
  cases hfree

/-- Parent and child after a `fork` with attachments. -/
theorem fork_inherited {pt : PageTable} (hheap : HeapInv L ⟨k.vm.mem.buddy, live⟩)
    (hrun : (k.vm.proc p).state ≠ .UNUSED) (hpt : (k.vm.proc p).pagetable = some pt)
    (hkernel : KernelMapped pt)
    (howned : ∀ w ∈ copiedPages pt (k.vm.proc p).sz,
      attached k (k.nodes (p, .shm)) w = none → (pte2pa (pt.entry w), 0) ∈ live)
    (hflag : ∀ node ∈ k.nodes (p, .shm), node.flag < 2 ^ 8)
    (hcall : fork L p k = .ok (some np, k')) :
    (k.vm.proc p).sz ≤ TRAPFRAME ∧ ∃ old' new live',
      Inherited L k.vm k'.vm live' p np pt old' new (attached k (k.nodes (p, .shm))) := by
  simp only [Ipc.fork, bind_eq_ok] at hcall
  obtain ⟨⟨r, vm⟩, hvm, hcall⟩ := hcall
  rcases vmFork_tables hrun hvm with ⟨rfl, rfl⟩ | ⟨np', old, old', new, rfl, hf⟩
  · cases hcall
  obtain rfl : pt = old := Option.some.inj (hpt.symm.trans hf.before)
  simp only [bind_eq_ok, pure_eq_ok, Prod.mk.injEq] at hcall
  obtain ⟨k₁, hshm, k₂, hsem, k₃, hmsq, hnp, rfl⟩ := hcall
  cases hnp
  obtain ⟨pt', hc⟩ := uvmcopyShm_copies (k := { k with vm := vm }) hf.child hshm
  have hatt : attached k₁ (k.nodes (p, .shm)) = attached k (k.nodes (p, .shm)) := by
    funext w
    simp only [attached, hc.shmid]
  obtain ⟨hne, hsz, old₁, new₁, live₁, h₁⟩ := LearnOS.fork_inherited hheap hrun hpt hkernel
    (fun w hw => howned w hw (copied_not_attached hf hc hw)) hvm
  obtain ⟨live₂, new₂, h₂⟩ := uvmcopyShm_inherited (k := { k with vm := vm }) (d := [])
    h₁ hne hflag hshm
  obtain ⟨hproc₂, -, -⟩ := copyNodes_shm (by decide) hsem
  obtain ⟨hproc₃, -, -⟩ := copyNodes_shm (by decide) hmsq
  obtain ⟨live₃, h₃⟩ := h₂.extend (hproc₃.trans hproc₂)
    ((copyNodes_extends hsem).trans (copyNodes_extends hmsq))
  exact ⟨hsz, old₁, new₂, live₃, hatt ▸ h₃⟩

/-- The first process has one page of memory, which is in use. -/
theorem smallBoot_table (h : smallBoot L = .ok k) :
    ∃ pt live, (k.vm.proc k.vm.initproc).pagetable = some pt ∧ TableOf pt {0} (fun _ => none) ∧
      HeapInv L ⟨k.vm.mem.buddy, live⟩ ∧ (pte2pa (pt.entry 0), 0) ∈ live := by
  simp only [smallBoot, bind_eq_ok] at h
  obtain ⟨b, hb, ⟨p8, b₁⟩, hb₁, ⟨p16, b₂⟩, hb₂, ⟨p32, b₃⟩, hb₃, ⟨p128, b₄⟩, hb₄, vm, hvm, h⟩ := h
  obtain ⟨b', hb', hheap⟩ := heapInv_init L ⟨⟨fun _ => 0, fun _ => 0⟩, fun _ => 0⟩
  obtain rfl : b' = b := Except.ok.inj (hb'.symm.trans hb)
  have hheap₁ := heapInv_alloc hheap (Nat.zero_le _) hb₁
  have hheap₂ := heapInv_alloc hheap₁ (Nat.zero_le _) hb₂
  have hheap₃ := heapInv_alloc hheap₂ (Nat.zero_le _) hb₃
  have hheap₄ := heapInv_alloc hheap₃ (Nat.zero_le _) hb₄
  obtain ⟨pt, live, hpt, htable, hheap', hpage⟩ := userinit_table hheap₄ hvm
  simp only [initFreeva, bind_eq_ok, pure_eq_ok] at h
  obtain ⟨⟨addr, k₁⟩, hk₁, rfl⟩ := h
  obtain ⟨live', hgrown⟩ := Kernel.kmallocNode_extends hk₁ live hheap'
  obtain ⟨s, -, rfl, -⟩ := Kernel.kmallocNode_ok hk₁
  exact ⟨pt, live', hpt, htable, hgrown.heap, hgrown.subset hpage⟩

theorem shmget_extends {key size flag : ℕ} {r : ℤ} (h : shmget L key size flag k = .ok (r, k')) :
    k'.vm.proc = k.vm.proc ∧ Extends L k.vm.mem k'.vm.mem := by
  obtain ⟨id, -, hdone⟩ := ipcGet_done h
  cases hdone with
  | refused _ _ hk =>
    rw [hk]
    exact ⟨rfl, Extends.refl _⟩
  | shared _ _ _ hshare =>
    cases hshare
    exact ⟨rfl, Extends.refl _⟩
  | created _ _ _ hcreate hshare =>
    obtain ⟨pa, s, hs, rfl⟩ := shmCreate_ok hcreate
    cases hshare
    exact ⟨rfl, kmalloc_extends hs⟩

/-- A process attaches a segment whose pages are taken from a longer free entry. -/
theorem shmat_table {pt : PageTable} {C : Set ℕ} {id va : ℕ} {rdonly : Bool}
    (hpt : (k.vm.proc p).pagetable = some pt) (htable : TableOf pt C fun _ => none)
    (hnodes : k.nodes (p, .shm) = [])
    (hfree : ∀ f ∈ (k.freeva p).head?, shmPages (k.shmid id).sz < f.npg)
    (h : shmat L p id NULL rdonly k = .ok (va, k')) (hva : va ≠ NULL) :
    Extends L k.vm.mem k'.vm.mem ∧ ∃ pt', (k'.vm.proc p).pagetable = some pt' ∧
      TableOf pt' C (attached k' (k'.nodes (p, .shm))) ∧ ∀ w ∈ C, pt'.entry w = pt.entry w := by
  obtain ⟨-, hnull⟩ |
    ⟨id', free, s, old, pt', m, r, addr, k₁, hid, -, halloc, hold, hmap, hk₁, rfl⟩ := shmat_ok h
  · exact absurd hnull hva
  obtain rfl : id = id' := by exact_mod_cast hid
  obtain rfl : pt = old := Option.some.inj (hpt.symm.trans hold)
  have hsame : s.mem = k.vm.mem := by
    cases hlist : k.freeva p with
    | nil =>
      rw [hlist] at halloc
      cases halloc
    | cons f rest =>
      have hlt := hfree f (by rw [hlist]; rfl)
      rw [hlist, uallocva, if_neg (by omega), if_neg (by omega)] at halloc
      simp only [pure_eq_ok, Prod.mk.injEq] at halloc
      exact congrArg (fun k => k.vm.mem) halloc.2.2.symm
  rw [hsame] at hmap
  have hext := (mappages_extends hmap).trans (Kernel.kmallocNode_extends hk₁)
  have htable' := htable.attach (shmPerm_not_cow
    ((attachFlag_lt _ rdonly).trans (by decide))) hmap
  obtain ⟨s₁, -, rfl, -⟩ := Kernel.kmallocNode_ok hk₁
  refine ⟨hext, pt', ?_, ?_, fun w hw => (mappages_mapped hmap).2.kept (htable.mapped w hw)⟩
  · simp [addRef, Kernel.setSlot, Kernel.setNodes, Kernel.setHeap, Kernel.setSpace,
      VmState.setTable]
  · have hlist : (addRef .shm id ((((k.setHeap s).setSpace p pt' m free).setHeap s₁).setNodes p .shm
        (⟨addr, attachFlag (k.slot (.shm, id)).flag rdonly, id, va⟩ ::
          (((k.setHeap s).setSpace p pt' m free).setHeap s₁).nodes (p, .shm)))).nodes (p, .shm) =
        [⟨addr, attachFlag (k.slot (.shm, id)).flag rdonly, id, va⟩] := by
      refine (update_self ..).trans (congrArg (_ :: ·) ?_)
      exact hnodes
    rw [hlist]
    refine (congrArg (TableOf pt' C) (funext fun w => ?_)).mp htable'
    rw [attached_singleton, Option.none_or]
    rfl

/-- A child has executed a program that ends at four pages, has exited and is reaped. The
first process has grown by two pages. -/
def staleSlot (L : Layout) : Kres Kernel := do
  let k ← smallBoot L
  let (_, k) ← fork L 0 k
  -- `exec` sets `ustack_top` to the end of the image
  let k := { k with vm := k.vm.setProc 1 { k.vm.proc 1 with ustackTop := 4 * PGSIZE } }
  let k ← exit 1 k
  let (_, k) ← wait L 0 k
  let (_, vm) ← sysSbrk L 0 (2 * PGSIZE) k.vm
  return { k with vm := vm }

end LearnOS.Ipc
