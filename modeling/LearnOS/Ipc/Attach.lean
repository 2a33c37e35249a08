import LearnOS.Ipc.Effect
import LearnOS.Vm.Access

/-!
# What an attachment maps

A segment is the block that `kmalloc` returned to `shmget`; an attachment maps
whole pages from the address of that block on. The two agree when the block
consists of whole pages, that is when it came from the buddy allocator and its
size was not cut to 32 bits.

## Main results

`shmat_exact_iff`: an attachment maps exactly its segment if and only if the
segment is larger than the largest slab object, not larger than the largest
block, and was created while a block for it was free.
-/

namespace LearnOS.Ipc

open LearnOS Transition Kres

/-- User address `a` is translated to physical address `pa`. -/
def Translates (pt : PageTable) (a pa : ℕ) : Prop :=
  ∃ base, walkaddr pt a = .ok base ∧ base ≠ 0 ∧ pa = base + a % PGSIZE

theorem flagsOnly_shmPerm {flag : ℕ} (h : flag < 2 ^ 4) : FlagsOnly (shmPerm flag) := by
  refine (flagsOnly_twoPow (by decide)).or ?_
  intro i hi
  rw [BitVec.getLsbD_ofNat, Nat.testBit_lt_two_pow (h.trans_le (Nat.pow_le_pow_right (by decide)
    (by omega))), Bool.and_false]

theorem mappages_translates {L : Layout} {pt pt' : PageTable} {m m' : KMem} {va npg pa flag : ℕ}
    {r : ℤ} (hflag : flag < 2 ^ 4) (hpa : pa % PGSIZE = 0) (hpos : pa ≠ 0)
    (hlt : pa + npg * PGSIZE ≤ 2 ^ 64)
    (h : mappages (kalloc L) pt va (npg * PGSIZE) pa (shmPerm flag) m = .ok (r, pt', m'))
    {i : ℕ} (hi : i < npg * PGSIZE) : Translates pt' (va + i) (pa + i) := by
  have hpg : 0 < PGSIZE := by decide
  have hva := (mappages_ok h).1
  have hmapped := (mappages_mapped h).2
  rw [Nat.mul_div_cancel _ hpg] at hmapped
  have hj : i / PGSIZE < npg := Nat.div_lt_of_lt_mul (by rwa [Nat.mul_comm])
  have hentry := hmapped.new (i / PGSIZE) hj
  rw [mappedPte] at hentry
  have hpage : (va + i) / PGSIZE = va / PGSIZE + i / PGSIZE := by
    simp only [PGSIZE] at hva ⊢
    omega
  have hoff : (va + i) % PGSIZE = i % PGSIZE := by
    rw [Nat.add_mod, hva, Nat.zero_add, Nat.mod_mod]
  have hsplit : i = i / PGSIZE * PGSIZE + i % PGSIZE := (Nat.div_add_mod' i PGSIZE).symm
  have hflags : FlagsOnly (shmPerm flag ||| PTE_V) :=
    (flagsOnly_shmPerm hflag).or (flagsOnly_twoPow (by decide))
  have hbound : i / PGSIZE * PGSIZE < npg * PGSIZE := by omega
  have htarget : pte2pa (pt'.entry ((va + i) / PGSIZE)) = pa + i / PGSIZE * PGSIZE := by
    rw [hpage, hentry, BitVec.or_assoc]
    refine pte2pa_pa2pte_or ?_ (by omega) hflags
    rw [Nat.add_mul_mod_self_right, hpa]
  have hbit : ∀ b < 10, (pt'.entry ((va + i) / PGSIZE)).getLsbD b =
      (shmPerm flag ||| PTE_V).getLsbD b := by
    intro b hb
    rw [hpage, hentry, BitVec.or_assoc, getLsbD_pa2pte_or _ _ hb]
  have hmax : va + i < MAXVA := by
    have hle : va / PGSIZE + npg ≤ MAXVA / PGSIZE :=
      hmapped.below.resolve_left (Nat.ne_zero_of_lt hj)
    have htop : MAXVA = 274877906944 := rfl
    rw [htop] at hle ⊢
    simp only [PGSIZE] at hle hva hi
    omega
  have hvalid : (pt'.entry ((va + i) / PGSIZE)).getLsbD 0 = true := by
    rw [hbit 0 (by decide), BitVec.getLsbD_or]
    simp [PTE_V]
  have huser : (pt'.entry ((va + i) / PGSIZE)).getLsbD 4 = true := by
    rw [hbit 4 (by decide), BitVec.getLsbD_or, shmPerm, BitVec.getLsbD_or]
    simp [PTE_U]
  refine ⟨pa + i / PGSIZE * PGSIZE, ?_, by omega, by omega⟩
  rw [walkaddr_mapped hmax hvalid, if_pos huser, htarget]

/-! ## Blocks of segments -/

section Block

variable {L : Layout}

theorem orderLoop_spec {pgnum n o order : ℕ} (h : orderLoop pgnum n o = .ok order) :
    pgnum ≤ 2 ^ order ∧ ∀ j, o ≤ j → pgnum ≤ 2 ^ j → order ≤ j := by
  induction n generalizing o with
  | zero => cases h
  | succ n ih =>
    simp only [orderLoop] at h
    split at h
    · rename_i hlt
      obtain ⟨hle, hmin⟩ := ih h
      refine ⟨hle, fun j hj hpg => hmin j ?_ hpg⟩
      have hne : o ≠ j := by
        rintro rfl
        omega
      omega
    · rename_i hge
      cases h
      exact ⟨Nat.not_lt.mp hge, fun j hj _ => hj⟩

theorem findFreeOrder_le_iff {b : Buddy} {n o : ℕ} :
    findFreeOrder L b n o < o + n ↔ ∃ j, o ≤ j ∧ j < o + n ∧ buddyGetfirst L j b ≠ NULL := by
  induction n generalizing o with
  | zero =>
    simp only [findFreeOrder, Nat.add_zero, Nat.lt_irrefl, false_iff]
    rintro ⟨j, hle, hlt, -⟩
    omega
  | succ n ih =>
    simp only [findFreeOrder]
    split
    · rename_i hnull
      rw [show o + (n + 1) = o + 1 + n by omega, ih]
      constructor
      · rintro ⟨j, hj, hlt, hne⟩
        exact ⟨j, by omega, hlt, hne⟩
      · rintro ⟨j, hj, hlt, hne⟩
        have hoj : o ≠ j := by
          rintro rfl
          exact hne hnull
        exact ⟨j, by omega, hlt, hne⟩
    · rename_i hne
      exact ⟨fun _ => ⟨o, le_rfl, by omega, hne⟩, fun _ => by omega⟩

theorem buddyErasefirst_first {b b' : Buddy} {o block : ℕ}
    (h : buddyErasefirst L o b = .ok (block, b')) :
    block = buddyGetfirst L o b ∧ block ≠ NULL := by
  simp only [buddyErasefirst] at h
  split at h
  · cases h
  · rename_i hnext
    simp only [bind_eq_ok, pure_eq_ok, Prod.mk.injEq] at h
    obtain ⟨pnum, -, b₁, -, rfl, -⟩ := h
    exact ⟨rfl, hnext⟩

/-- `buddy_alloc` returns a block precisely when some list that can serve the
order has one, and it is the first of its list. -/
theorem buddyAlloc_ne_null_iff {b b' : Buddy} {order block : ℕ}
    (h : buddyAlloc L order b = .ok (block, b')) :
    order ≤ MAX_ORDER ∧
      (block ≠ NULL ↔ ∃ j, order ≤ j ∧ j ≤ MAX_ORDER ∧ buddyGetfirst L j b ≠ NULL) ∧
      (block ≠ NULL → ∃ j ≤ MAX_ORDER, block = buddyGetfirst L j b) := by
  simp only [buddyAlloc] at h
  split at h
  · cases h
  rename_i hle
  have hsum : order + (MAX_ORDER + 1 - order) = MAX_ORDER + 1 := by omega
  have hfind := findFreeOrder_le_iff (L := L) (b := b) (n := MAX_ORDER + 1 - order) (o := order)
  rw [hsum] at hfind
  split at h
  · rename_i hnone
    cases h
    refine ⟨Nat.not_lt.mp hle, ⟨fun hne => absurd rfl hne, ?_⟩, fun hne => absurd rfl hne⟩
    rintro ⟨j, hj, hmax, hne⟩
    exact absurd (hfind.mpr ⟨j, hj, Nat.lt_succ_of_le hmax, hne⟩) (by omega)
  · rename_i hsome
    simp only [bind_eq_ok, pure_eq_ok, Prod.mk.injEq] at h
    obtain ⟨⟨memBlock, b₁⟩, herase, b₂, -, rfl, -⟩ := h
    obtain ⟨hfirst, hne⟩ := buddyErasefirst_first herase
    obtain ⟨j, hj, hmax, hj'⟩ := hfind.mp (by omega)
    exact ⟨Nat.not_lt.mp hle, ⟨fun _ => ⟨j, hj, Nat.le_of_lt_succ hmax, hj'⟩, fun _ => hne⟩,
      fun _ => ⟨_, Nat.not_lt.mp hsome, hfirst⟩⟩

theorem kmallocOwner_slab {size : ℕ} (h : size ≤ 2048) :
    ∃ c, kmallocOwner size = .ok (.slab c) := by
  simp only [kmallocOwner, if_neg (Nat.not_lt.mpr h), pure_eq]
  split_ifs <;> exact ⟨_, rfl⟩

theorem kmalloc_buddy {s s' : KHeap} {size pa : ℕ} (hsize : 2048 < size)
    (h : kmalloc L size s = .ok (pa, s')) :
    ∃ order, pageOrder size = .ok order ∧ kmallocOwner size = .ok (.buddy order) ∧
      buddyAlloc L order s.mem.buddy = .ok (pa, s'.mem.buddy) := by
  simp only [kmalloc, kmallocOwner, if_pos hsize, bind_eq_ok, pure_eq_ok] at h
  obtain ⟨owner, ⟨order, horder, rfl⟩, halloc⟩ := h
  simp only [Owner.alloc, kbuddyAlloc, bind_eq_ok, pure_eq_ok,
    Prod.mk.injEq] at halloc
  obtain ⟨⟨block, b⟩, hb, rfl, rfl⟩ := halloc
  refine ⟨order, horder, ?_, hb⟩
  simp only [kmallocOwner, if_pos hsize, horder, ok_bind, pure_eq]

/-- The byte lies in the block that `kmalloc` returned for a size. -/
def InBlock (ptr size a : ℕ) : Prop :=
  ptr ≠ NULL ∧ ∃ owner, kmallocOwner size = .ok owner ∧ ptr ≤ a ∧ a < ptr + owner.bytes

/-- The mapped length covers the size and stays in the block. -/
def FillsBlock (b : ShmBlock) (size : ℕ) : Prop :=
  size ≤ shmPages b.sz * PGSIZE ∧ ∀ i < shmPages b.sz * PGSIZE, InBlock b.ptr size (b.ptr + i)

/-- Blocks of this size are whole pages, and one is free. -/
structure HasWholeBlock (L : Layout) (b : Buddy) (size : ℕ) : Prop where
  large : 2048 < size
  small : size ≤ 2 ^ MAX_ORDER * PGSIZE
  free : ∃ j, (size + PGSIZE - 1) / PGSIZE ≤ 2 ^ j ∧ j ≤ MAX_ORDER ∧ buddyGetfirst L j b ≠ NULL

theorem shmPages_le (sz : ℕ) : shmPages sz * PGSIZE ≤ 2 ^ 32 := by
  simp only [shmPages, PGSIZE]
  omega

theorem fillsBlock_of_whole {s s' : KHeap} {size pa : ℕ} (h : kmalloc L size s = .ok (pa, s'))
    (hw : HasWholeBlock L s.mem.buddy size) : FillsBlock ⟨size % 2 ^ 32, pa⟩ size := by
  obtain ⟨order, horder, howner, halloc⟩ := kmalloc_buddy hw.large h
  obtain ⟨hle, hnull, -⟩ := buddyAlloc_ne_null_iff halloc
  obtain ⟨hpages, hmin⟩ := orderLoop_spec horder
  have hsmall : size ≤ 2 ^ 23 := hw.small
  have hexact : (size + PGSIZE - 1) % 2 ^ 64 / PGSIZE % 2 ^ 32 = (size + PGSIZE - 1) / PGSIZE := by
    simp only [PGSIZE]
    omega
  have hmapped : shmPages (size % 2 ^ 32) = (size + PGSIZE - 1) / PGSIZE := by
    simp only [shmPages, PGSIZE]
    omega
  obtain ⟨j, hj, hmax, hne⟩ := hw.free
  have hpa : pa ≠ NULL := by
    refine hnull.mpr ⟨j, hmin j (Nat.zero_le j) ?_, hmax, hne⟩
    rwa [hexact]
  rw [hexact] at hpages
  constructor
  · rw [hmapped]
    simp only [PGSIZE]
    omega
  · intro i hi
    rw [hmapped] at hi
    refine ⟨hpa, _, howner, Nat.le_add_right _ _, ?_⟩
    have hbytes := Nat.mul_le_mul_right PGSIZE hpages
    simp only [Owner.bytes]
    omega

/-- A slab object is shorter than a page. -/
theorem FillsBlock.large {b : ShmBlock} {size : ℕ} (h : FillsBlock b size)
    (hpos : 0 < shmPages b.sz) : 2048 < size := by
  by_contra hle
  obtain ⟨c, hc⟩ := kmallocOwner_slab (Nat.not_lt.mp hle)
  have hpage : PGSIZE ≤ shmPages b.sz * PGSIZE := Nat.le_mul_of_pos_left _ hpos
  obtain ⟨-, owner, howner, -, hlt⟩ := h.2 2048 (lt_of_lt_of_le (by decide) hpage)
  rw [hc, Except.ok.injEq] at howner
  subst howner
  have hunit : c.unit ≤ 2048 := by cases c <;> decide
  simp only [Owner.bytes] at hlt
  omega

theorem whole_of_fillsBlock {s s' : KHeap} {size pa : ℕ} (h : kmalloc L size s = .ok (pa, s'))
    (hpos : 0 < shmPages (size % 2 ^ 32)) (hf : FillsBlock ⟨size % 2 ^ 32, pa⟩ size) :
    HasWholeBlock L s.mem.buddy size := by
  have hlarge := hf.large hpos
  obtain ⟨hcover, hin⟩ := hf
  obtain ⟨order, horder, howner, halloc⟩ := kmalloc_buddy hlarge h
  obtain ⟨hle, hnull, -⟩ := buddyAlloc_ne_null_iff halloc
  obtain ⟨hpages, hmin⟩ := orderLoop_spec horder
  have hbound := shmPages_le (size % 2 ^ 32)
  have hsize : size ≤ 2 ^ 32 := hcover.trans hbound
  have hexact : (size + PGSIZE - 1) % 2 ^ 64 / PGSIZE % 2 ^ 32 = (size + PGSIZE - 1) / PGSIZE := by
    simp only [PGSIZE]
    omega
  rw [hexact] at hpages
  have hpa : pa ≠ NULL := (hin 0 (Nat.mul_pos hpos (by decide))).1
  obtain ⟨j, hj, hmax, hne⟩ := hnull.mp hpa
  refine ⟨hlarge, ?_, j, hpages.trans (Nat.pow_le_pow_right (by decide) hj), hmax, hne⟩
  have htop : (size + PGSIZE - 1) / PGSIZE ≤ 2 ^ MAX_ORDER :=
    hpages.trans (Nat.pow_le_pow_right (by decide) hle)
  simp only [PGSIZE, MAX_ORDER] at htop ⊢
  omega

/-- Whatever stands first on a free list is a page. -/
def ListsHoldPages (L : Layout) (b : Buddy) : Prop :=
  ∀ o < MAX_ORDER + 1, buddyGetfirst L o b ≠ NULL → ¬ badPage L (buddyGetfirst L o b)

instance (b : Buddy) : Decidable (ListsHoldPages L b) :=
  inferInstanceAs (Decidable (∀ o < MAX_ORDER + 1, _ → _))

theorem listsHoldPages_of_heapInv {b : Buddy} {live : List (ℕ × ℕ)}
    (h : HeapInv L ⟨b, live⟩) : ListsHoldPages L b := by
  obtain ⟨free, blocks, hrep, hpart, -⟩ := h
  intro o ho hne
  have hle : o ≤ MAX_ORDER := Nat.le_of_lt_succ ho
  have hfirst := (hrep.dll o hle).next_eq_head
  cases hfree : free o with
  | nil => exact absurd ((buddyGetfirst_eq_null_iff hrep hle).mpr hfree) hne
  | cons q rest =>
    rw [hfree] at hfirst
    rw [buddyGetfirst, hfirst]
    exact not_badPage_pa (hpart.packed.lt_limit hle (by simp [hfree]))

theorem block_page {s s' : KHeap} {size pa : ℕ} (hlists : ListsHoldPages L s.mem.buddy)
    (hsize : 2048 < size) (h : kmalloc L size s = .ok (pa, s')) (hpa : pa ≠ NULL) :
    pa % PGSIZE = 0 ∧ pa < PHYSTOP := by
  obtain ⟨order, -, -, halloc⟩ := kmalloc_buddy hsize h
  obtain ⟨j, hj, hfirst⟩ := (buddyAlloc_ne_null_iff halloc).2.2 hpa
  have hpage : ¬ badPage L pa := hfirst ▸ hlists j (Nat.lt_succ_of_le hj) (hfirst ▸ hpa)
  simp only [badPage, not_or, not_not, Nat.not_le] at hpage
  exact ⟨hpage.1, hpage.2.2⟩

end Block

/-! ## Segments over a run -/

variable {L : Layout} {k k' : Kernel}

/-- The block of a new segment is the one that `kmalloc` returned. -/
theorem shmget_created {key size flag id : ℕ} (hfree : (k.slot (.shm, id)).state = .UNUSED)
    (h : shmget L key size flag k = .ok ((id : ℤ), k')) :
    ∃ pa s, LearnOS.kmalloc L size k.heap = .ok (pa, s) ∧
      k'.shmid id = ⟨size % 2 ^ 32, pa⟩ := by
  obtain ⟨id', -, hdone⟩ := ipcGet_done h
  cases hdone with
  | refused hneg => omega
  | shared hn huse =>
    obtain rfl : id = id' := by exact_mod_cast hn
    exact absurd hfree huse
  | created hn _ _ hcreate hshare =>
    obtain rfl : id = id' := by exact_mod_cast hn
    obtain ⟨pa, s, hs, rfl⟩ := shmCreate_ok hcreate
    cases hshare
    exact ⟨pa, s, hs, by simp [Kernel.setSlot, Kernel.setShm]⟩

/-- A slot that is in use afterwards was in use before and refers to the same
block. -/
def BlocksKept (t t' : Tables) : Prop :=
  ∀ id, t'.state (.shm, id) ≠ .UNUSED →
    t.state (.shm, id) ≠ .UNUSED ∧ t'.shmid id = t.shmid id

theorem blocksKept_destroy (t : Tables) (c : IpcKind) (id : ℕ) :
    BlocksKept t (t.destroy c id) := by
  intro id' hstate
  by_cases hc : c = .shm
  · subst hc
    by_cases hid : id' = id
    · simp [Tables.destroy, Tables.setState, hid] at hstate
    · simpa [Tables.destroy, Tables.setState, hid] using hstate
  · have hne : (IpcKind.shm, id') ≠ (c, id) := fun heq => hc (congrArg Prod.fst heq).symm
    simpa [Tables.destroy, Tables.setState, hc, hne] using hstate

theorem BlocksKept.trans {t₁ t₂ t₃ : Tables} (h : BlocksKept t₁ t₂) (h' : BlocksKept t₂ t₃) :
    BlocksKept t₁ t₃ := by
  intro id hstate
  obtain ⟨hstate₂, heq₂⟩ := h' id hstate
  obtain ⟨hstate₁, heq₁⟩ := h id hstate₂
  exact ⟨hstate₁, heq₂.trans heq₁⟩

theorem Move.blocksKept {t t' : Tables} (h : Move t t') : BlocksKept t t' := by
  cases h with
  | share huse => exact fun id hstate => ⟨hstate, rfl⟩
  | @drop p c n l₁ l₂ hnodes =>
    simp only [Tables.unshare]
    split
    · exact blocksKept_destroy _ c n.slot
    · exact fun id hstate => ⟨hstate, rfl⟩
  | @retireShm id huse =>
    have hzombie : BlocksKept t (t.setState .shm id .ZOMBIE) := by
      intro id' _
      refine ⟨?_, rfl⟩
      by_cases hid : id' = id
      · exact hid ▸ huse
      · simp_all [Tables.setState]
    simp only [Tables.retireShm]
    split
    · exact hzombie.trans (blocksKept_destroy _ .shm id)
    · exact hzombie

theorem Moves.blocksKept {t t' : Tables} (h : Moves t t') : BlocksKept t t' := by
  induction h with
  | refl => exact fun id hstate => ⟨hstate, rfl⟩
  | tail _ hmove ih => exact ih.trans hmove.blocksKept

theorem Call.block_kept {op : Op} {id : ℕ} (h : Call L k op k')
    (huse : (k.slot (.shm, id)).state ≠ .UNUSED) (huse' : (k'.slot (.shm, id)).state ≠ .UNUSED) :
    k'.shmid id = k.shmid id := by
  cases h.effect with
  | moves hmoves => exact (hmoves.blocksKept id huse').2
  | @create c id₁ b hfree hmoves =>
    have heq := (hmoves.blocksKept id huse').2
    change k'.tables.shmid id = k.tables.shmid id
    have hne : ¬ (c = .shm ∧ id = id₁) := by
      rintro ⟨rfl, rfl⟩
      exact huse hfree
    by_cases hc : c = .shm
    · have hid : id ≠ id₁ := fun hid => hne ⟨hc, hid⟩
      simpa [Tables.create, hc, hid] using heq
    · simpa [Tables.create, hc] using heq
  | retire _ _ hmoves => exact (hmoves.blocksKept id huse').2

theorem run_block_kept {id : ℕ} {run : List (Op × Kernel)} (hrun : IsRun (Step L) k run)
    (huse : ∀ t ∈ visited k run, (t.slot (.shm, id)).state ≠ .UNUSED) :
    ∀ t ∈ visited k run, t.shmid id = k.shmid id := by
  induction run generalizing k with
  | nil => simp
  | cons x rest ih =>
    obtain ⟨op, k₁⟩ := x
    intro t ht
    have hfirst := hrun.1.call.block_kept (huse k (by simp [visited])) (huse k₁ (by simp [visited]))
    rcases mem_visited_cons.mp ht with rfl | ht
    · rfl
    · rw [ih hrun.2 (fun u hu => huse u (mem_visited_cons.mpr (Or.inr hu))) t ht, hfirst]

/-- Every byte of the mapping is the byte of the segment at the same offset, and
the mapping covers the segment and nothing else. -/
structure ExactlyMapped (k : Kernel) (p : Fin NPROC) (va : ℕ) (b : ShmBlock) (size : ℕ) :
    Prop where
  fills : FillsBlock b size
  translates : ∃ pt, (k.vm.proc p).pagetable = some pt ∧
    ∀ i < shmPages b.sz * PGSIZE, Translates pt (va + i) (b.ptr + i)

/-- An attachment maps exactly its segment, at any later time and in any process,
if and only if the segment could be given whole pages. -/
theorem shmat_exact_iff {k₀ k₁ k₂ k₃ : Kernel} {key size flag id va : ℕ} {p : Fin NPROC}
    {rdonly : Bool} {run : List (Op × Kernel)} (hlists : ListsHoldPages L k₀.vm.mem.buddy)
    (hfree : (k₀.slot (.shm, id)).state = .UNUSED)
    (hget : shmget L key size flag k₀ = .ok ((id : ℤ), k₁))
    (hrun : IsRun (Step L) k₁ run)
    (huse : ∀ k ∈ visited k₁ run, (k.slot (.shm, id)).state ≠ .UNUSED)
    (hk₂ : k₂ ∈ visited k₁ run)
    (hat : shmat L p id NULL rdonly k₂ = .ok (va, k₃)) (hva : va ≠ NULL) :
    ExactlyMapped k₃ p va (k₂.shmid id) size ↔ HasWholeBlock L k₀.vm.mem.buddy size := by
  obtain ⟨pa, s, hpa, hblock⟩ := shmget_created hfree hget
  rw [← run_block_kept hrun huse k₂ hk₂] at hblock
  obtain ⟨-, hnull⟩ | ⟨id', hid, fl, hatt⟩ := shmat_attached hat
  · exact absurd hnull hva
  obtain rfl : id = id' := by exact_mod_cast hid
  obtain ⟨pt, pt', m, m', r, hpt, hmap⟩ := hatt.mapped
  rw [hblock] at hmap ⊢
  have hpos : 0 < shmPages (size % 2 ^ 32) :=
    Nat.pos_of_mul_pos_right (Nat.pos_of_ne_zero (mappages_ok hmap).2.2.1)
  constructor
  · exact fun h => whole_of_fillsBlock hpa hpos h.fills
  · intro hw
    have hfills := fillsBlock_of_whole hpa hw
    have hne : pa ≠ NULL := (hfills.2 0 (Nat.mul_pos hpos (by decide))).1
    obtain ⟨halign, hlt⟩ := block_page hlists hw.large hpa hne
    refine ⟨hfills, pt', hpt, fun i hi => ?_⟩
    refine mappages_translates hatt.flag_lt halign hne ?_ hmap hi
    have hle := shmPages_le (size % 2 ^ 32)
    have htop : PHYSTOP ≤ 2 ^ 32 := by
      rw [PHYSTOP_eq]
      decide
    calc pa + shmPages (size % 2 ^ 32) * PGSIZE ≤ 2 ^ 32 + 2 ^ 32 := by omega
      _ ≤ 2 ^ 64 := by decide

/-- A private segment of `size` bytes is created and attached by the first process
of a small machine, and the states have a property. -/
theorem get_attach_run (size flag : ℕ) (P : Kernel → Kernel → Prop)
    (h : (smallBoot smallLayout).Yields fun k₀ =>
      (shmget smallLayout 0 size flag k₀).Yields fun r => r.1 = (0 : ℕ) ∧ P k₀ r.2 ∧
        (shmat smallLayout 0 (0 : ℕ) NULL false r.2).Yields fun r' => r'.1 ≠ NULL) :
    ∃ k₀ k₁ k₂ va, smallBoot smallLayout = .ok k₀ ∧
      shmget smallLayout 0 size flag k₀ = .ok ((0 : ℕ), k₁) ∧
      shmat smallLayout 0 (0 : ℕ) NULL false k₁ = .ok (va, k₂) ∧ va ≠ NULL ∧
      P k₀ k₁ := by
  obtain ⟨k₀, hk₀, ⟨r, k₁⟩, hk₁, rfl, htest, ⟨va, k₂⟩, hk₂, hva⟩ := h
  exact ⟨k₀, k₁, k₂, va, hk₀, hk₁, hk₂, hva, htest⟩

/-- A segment of 100 bytes is a slab object of 128 bytes, and its attachment maps
the whole page of the slab. -/
theorem shmat_100_maps_slab_page :
    ∃ k₀ k₁ k₂ va, smallBoot smallLayout = .ok k₀ ∧
      (k₀.slot (.shm, 0)).state = .UNUSED ∧
      shmget smallLayout 0 100 0x8fff k₀ = .ok ((0 : ℕ), k₁) ∧
      shmat smallLayout 0 (0 : ℕ) NULL false k₁ = .ok (va, k₂) ∧ va ≠ NULL ∧
      ¬ ExactlyMapped k₂ 0 va (k₁.shmid 0) 100 := by
  obtain ⟨k₀, k₁, k₂, va, hk₀, hk₁, hk₂, hva, hfree, hsz⟩ := get_attach_run 100 0x8fff
    (fun k₀ k₁ => (k₀.slot (.shm, 0)).state = .UNUSED ∧ (k₁.shmid 0).sz = 100)
    (by decide +kernel)
  refine ⟨k₀, k₁, k₂, va, hk₀, hfree, hk₁, hk₂, hva, fun hexact => ?_⟩
  have hpos : 0 < shmPages (k₁.shmid 0).sz := by
    rw [hsz]
    decide
  exact absurd (hexact.fills.large hpos) (by decide)

/-- A segment of one page is mapped exactly. -/
theorem shmat_4096_exact :
    ∃ k₀ k₁ k₂ va, smallBoot smallLayout = .ok k₀ ∧
      shmget smallLayout 0 4096 0x8fff k₀ = .ok ((0 : ℕ), k₁) ∧
      shmat smallLayout 0 (0 : ℕ) NULL false k₁ = .ok (va, k₂) ∧
      ExactlyMapped k₂ 0 va (k₁.shmid 0) 4096 := by
  obtain ⟨k₀, k₁, k₂, va, hk₀, hk₁, hk₂, hva, hfree, huse, hlists, hfirst⟩ := get_attach_run 4096
    0x8fff (fun k₀ k₁ => (k₀.slot (.shm, 0)).state = .UNUSED ∧
      (k₁.slot (.shm, 0)).state ≠ .UNUSED ∧ ListsHoldPages smallLayout k₀.vm.mem.buddy ∧
      buddyGetfirst smallLayout 4 k₀.vm.mem.buddy ≠ NULL) (by decide +kernel)
  refine ⟨k₀, k₁, k₂, va, hk₀, hk₁, hk₂, ?_⟩
  have hrun : IsRun (Step smallLayout) k₁ [] := trivial
  refine (shmat_exact_iff hlists hfree hk₁ hrun ?_ (by simp) hk₂ hva).mpr ?_
  · simpa using huse
  · exact ⟨by decide, by decide, 4, by decide, by decide, hfirst⟩

end LearnOS.Ipc
