import LearnOS.Vm.LazyAlloc

/-!
# The tables after a fork

A child gets a table with the kernel's pages and with copies of the pages of its parent
below the size: the entries and the levels of both tables, and the memory behind them.

## Main results

`fork_inherited`: parent and child after a `fork` that returns.
-/

namespace LearnOS

open BuddySystem Function Kres

variable {L : Layout} {pt pt' : PageTable} {m m' m'' : KMem} {live live' live'' : List (ℕ × ℕ)}
  {S : Set ℕ} {v a n : ℕ} {r : ℤ}

/-! ## Copied pages -/

/-- A page of the parent that has been copied: the entries of parent and child, which is
the only one that has the copy. -/
structure CopiedPage (m : KMem) (live : List (ℕ × ℕ)) (old old' new : Pte) : Prop where
  parent : old' = cowPte old
  flags : ∀ k < 10, new.getLsbD k = old'.getLsbD k
  old_live : (pte2pa old, 0) ∈ live
  new_live : (pte2pa new, 0) ∈ live
  frame : m.frame (pte2pa new / PGSIZE) = m.frame (pte2pa old / PGSIZE)
  single : m.cnt (pte2pa new / PGSIZE) = 1

theorem CopiedPage.kept {old old' new : Pte} (h : CopiedPage m live old old' new)
    (hsub : live ⊆ live')
    (hframe : ∀ p, (p, 0) ∈ live → m'.frame (p / PGSIZE) = m.frame (p / PGSIZE))
    (hcnt : m'.cnt (pte2pa new / PGSIZE) = m.cnt (pte2pa new / PGSIZE)) :
    CopiedPage m' live' old old' new where
  parent := h.parent
  flags := h.flags
  old_live := hsub h.old_live
  new_live := hsub h.new_live
  frame := by rw [hframe _ h.new_live, hframe _ h.old_live, h.frame]
  single := hcnt.trans h.single

/-! ## New processes -/

/-- The kernel's own pages are mapped, out of the reach of user code. -/
def KernelMapped (pt : PageTable) : Prop :=
  ∀ v, PageTable.reserved v = true →
    (pt.entry v).getLsbD 0 = true ∧ (pt.entry v).getLsbD 4 = false

theorem mappedPte_kernel (pa : ℕ) {perm : Pte} (hperm : perm.getLsbD 4 = false) :
    (mappedPte pa perm 0).getLsbD 0 = true ∧ (mappedPte pa perm 0).getLsbD 4 = false := by
  refine ⟨mappedPte_valid _ _ _, ?_⟩
  rw [getLsbD_mappedPte _ _ _ (by decide), hperm]
  rfl

/-- The table has the kernel's pages, the pages `C` and the attachments `att`, and the
levels above them. -/
structure TableOf (pt : PageTable) (C : Set ℕ) (att : ℕ → Option Pte) : Prop where
  kernel : KernelMapped pt
  mapped : ∀ w ∈ C, (pt.entry w).getLsbD 0 = true
  attached : ∀ w pte, att w = some pte → pt.entry w = pte ∧ pte.getLsbD 0 = true ∧
    pte.getLsbD 8 = false ∧ w < MAXVA / PGSIZE ∧ PageTable.reserved w = false ∧ w ∉ C
  blank : ∀ w, PageTable.reserved w = false → w ∉ C → att w = none → pt.entry w = 0
  covers : Covers pt {w | PageTable.reserved w = true ∨ w ∈ C ∨ (att w).isSome = true}

/-- More pages are mapped. -/
theorem TableOf.attach {C : Set ℕ} {att : ℕ → Option Pte} {va pa : ℕ} {perm : Pte}
    (h : TableOf pt C att) (hperm : perm.getLsbD 8 = false)
    (hmap : mappages (kalloc L) pt va (n * PGSIZE) pa perm m = .ok (r, pt', m')) :
    TableOf pt' C fun w => (att w).or (if va / PGSIZE ≤ w ∧ w < va / PGSIZE + n then
      some (mappedPte pa perm (w - va / PGSIZE)) else none) := by
  have hmapped := (mappages_mapped hmap).2
  have hcov := mappages_covers h.covers hmap
  rw [Nat.mul_div_cancel _ (by decide)] at hmapped hcov
  have hvalid : ∀ w, (pt.entry w).getLsbD 0 = true →
      ¬ (va / PGSIZE ≤ w ∧ w < va / PGSIZE + n) := by
    rintro w hv ⟨hle, hlt⟩
    have hfree := hmapped.free (w - va / PGSIZE) (by omega)
    rw [Nat.add_sub_cancel' hle, hv] at hfree
    cases hfree
  constructor
  · intro w hres
    rw [hmapped.kept (h.kernel w hres).1]
    exact h.kernel w hres
  · intro w hw
    rw [hmapped.kept (h.mapped w hw)]
    exact h.mapped w hw
  · intro w pte hw
    cases hatt : att w with
    | some pte' =>
      rw [hatt, Option.some_or] at hw
      cases hw
      obtain ⟨hentry, hv, hrest⟩ := h.attached w pte hatt
      refine ⟨?_, hv, hrest⟩
      rw [hmapped.kept (by rw [hentry, hv]), hentry]
    | none =>
      rw [hatt, Option.none_or] at hw
      split at hw
      · rename_i hin
        cases hw
        have hnew := hmapped.new (w - va / PGSIZE) (by omega)
        rw [Nat.add_sub_cancel' hin.1] at hnew
        refine ⟨hnew, mappedPte_valid _ _ _, ?_, ?_, ?_, fun hw => ?_⟩
        · rw [getLsbD_mappedPte _ _ _ (by decide), hperm]
          rfl
        · rcases hmapped.below with rfl | hle <;> omega
        · exact Bool.eq_false_iff.mpr fun hres => hvalid w (h.kernel w hres).1 hin
        · exact hvalid w (h.mapped w hw) hin
      · cases hw
  · intro w hres hw hnone
    rw [Option.or_eq_none_iff] at hnone
    have hout : ¬ (va / PGSIZE ≤ w ∧ w < va / PGSIZE + n) := by
      intro hin
      rw [if_pos hin] at hnone
      cases hnone.2
    rw [hmapped.old w hout]
    exact h.blank w hres hw hnone.1
  · refine (congrArg (Covers pt') (Set.ext fun w => ?_)).mp hcov
    by_cases hin : va / PGSIZE ≤ w ∧ w < va / PGSIZE + n
    · refine iff_of_true (Or.inr hin) (Or.inr (Or.inr ?_))
      rw [if_pos hin]
      cases att w <;> rfl
    · simp [hin]

theorem procPagetable_table {trapframe : ℕ}
    (hcall : procPagetable L (kalloc L) trapframe m = .ok (some pt, m')) :
    TableOf pt ∅ (fun _ => none) ∧ Extends L m m' := by
  obtain ⟨pt₀, m₀, pt₁, m₁, pt₂, hcreate, hmap₁, hmap₂, hpt⟩ := procPagetable_ok hcall
  obtain ⟨page, m₂, halloc, rfl, hpt₀⟩ := uvmcreate_ok hcreate
  cases hpt
  cases hpt₀
  have hmapped₁ := (mappages_mapped hmap₁).2
  have hmapped₂ := (mappages_mapped hmap₂).2
  have hsize : PGSIZE / PGSIZE = 1 := rfl
  rw [hsize] at hmapped₁ hmapped₂
  have hempty : Covers ⟨page, fun _ => none, fun _ => none, fun _ => 0⟩ ∅ :=
    ⟨fun x => by simp, fun x => by simp⟩
  have hcov := mappage_covers (mappage_covers hempty hmap₁) hmap₂
  refine ⟨⟨fun v hv => ?_, by simp, by simp, fun v hv _ _ => ?_, ?_⟩,
    (kalloc_memset_extends halloc).trans
      ((mappages_extends hmap₁).trans (mappages_extends hmap₂))⟩
  · have htrap := hmapped₂.new 0 Nat.one_pos
    rw [Nat.add_zero] at htrap
    rcases reserved_iff.mp hv with rfl | rfl
    · have htramp := hmapped₁.new 0 Nat.one_pos
      rw [Nat.add_zero] at htramp
      rw [hmapped₂.old _ (by decide), htramp]
      exact mappedPte_kernel _ (by simp [PTE_R, PTE_X])
    · rw [htrap]
      exact mappedPte_kernel _ (by simp [PTE_R, PTE_W])
  · have hne : ¬ (v = TRAMPOLINE / PGSIZE ∨ v = TRAPFRAME / PGSIZE) := fun heq => by
      rw [reserved_iff.mpr heq] at hv
      cases hv
    rw [hmapped₂.old v (by omega), hmapped₁.old v (by omega)]
    rfl
  · refine (congrArg (Covers _) (Set.ext fun v => ?_)).mp hcov
    simp [reserved_iff, or_comm]

theorem allocproc_table {s s' : VmState} {np : Fin NPROC}
    (hcall : allocproc L (kalloc L) s = .ok (some np, s')) :
    ∃ pt, (s'.proc np).pagetable = some pt ∧ TableOf pt ∅ (fun _ => none) ∧
      Extends L s.mem s'.mem := by
  rcases allocproc_ok hcall with ⟨hr, -⟩ | ⟨q, trapframe, m₁, pt, m₂, hr, -, halloc, hpt, rfl⟩
  · cases hr
  cases hr
  obtain ⟨htable, hext⟩ := procPagetable_table hpt
  exact ⟨pt, by simp [VmState.setProc], htable, (kalloc_extends halloc).trans hext⟩

/-- The first process has one page of memory. -/
theorem userinit_table {s s' : VmState} (h : HeapInv L ⟨s.mem.buddy, live⟩)
    (hcall : userinit L (kalloc L) s = .ok s') :
    ∃ pt live', (s'.proc s'.initproc).pagetable = some pt ∧ TableOf pt {0} (fun _ => none) ∧
      HeapInv L ⟨s'.mem.buddy, live'⟩ ∧ (pte2pa (pt.entry 0), 0) ∈ live' := by
  simp only [userinit, bind_eq_ok] at hcall
  obtain ⟨⟨np, s₁⟩, halloc, hcall⟩ := hcall
  cases np with
  | none => cases hcall
  | some np =>
    obtain ⟨pt, hpt, htable, hext⟩ := allocproc_table halloc
    simp only [hpt, bind_eq_ok, pure_eq_ok] at hcall
    obtain ⟨⟨pt₁, m⟩, hfirst, rfl⟩ := hcall
    obtain ⟨mem, m₁, r, m₂, hmem, rfl, hmap⟩ := uvmfirst_ok hfirst
    obtain ⟨live₁, hgrown₁⟩ := hext live h
    have hgrown₂ := kalloc_written hgrown₁.heap hmem fun _ => 0
    obtain ⟨live', hgrown₃⟩ := mappages_extends hmap _ hgrown₂.heap
    have hattach := htable.attach (n := 1) (by simp [PTE_W, PTE_R, PTE_X, PTE_U]) hmap
    have hentry : pt₁.entry 0 = mappedPte mem (PTE_W ||| PTE_R ||| PTE_X ||| PTE_U) 0 :=
      (hattach.attached 0 _ rfl).1
    refine ⟨pt₁, live', by simp [VmState.setProc, VmState.setTable], ?_, hgrown₃.heap, ?_⟩
    · refine ⟨hattach.kernel, ?_, by simp, fun w hres hw _ => ?_, ?_⟩
      · rintro w rfl
        rw [hentry]
        exact mappedPte_valid _ _ _
      · refine hattach.blank w hres (Set.notMem_empty w) ?_
        have hne : w ≠ 0 := hw
        simp
        omega
      · refine (congrArg (Covers pt₁) (Set.ext fun w => ?_)).mp hattach.covers
        simp [Option.isSome_ite]
    · have hmemOk := hgrown₂.heap.not_badPage (p := mem) (o := 0) List.mem_cons_self
      have hflags : FlagsOnly (PTE_W ||| PTE_R ||| PTE_X ||| PTE_U ||| PTE_V) :=
        ((((flagsOnly_twoPow (by decide)).or (flagsOnly_twoPow (by decide))).or
          (flagsOnly_twoPow (by decide))).or (flagsOnly_twoPow (by decide))).or
          (flagsOnly_twoPow (by decide))
      rw [hentry, mappedPte, Nat.zero_mul, Nat.add_zero, BitVec.or_assoc, pte2pa_page hmemOk hflags]
      exact hgrown₃.subset List.mem_cons_self

/-! ## Parent and child -/

theorem not_reserved_of_copied {sz : ℕ} (hsz : sz ≤ TRAPFRAME) (hv : v ∈ copiedPages pt sz) :
    PageTable.reserved v = false := not_reserved_of_lt (page_lt_of_below hsz hv.1)

/-- Parent `p` and child `np` after a `fork` in `s`, when the child also has the entries
`att`, which are mapped after its memory was copied. -/
structure Inherited (L : Layout) (s t : VmState) (live : List (ℕ × ℕ)) (p np : Fin NPROC)
    (old old' new : PageTable) (att : ℕ → Option Pte) : Prop where
  parent : t.proc p = { s.proc p with pagetable := some old' }
  child : ∃ trapframe, t.proc np = childProc (s.proc np) (s.proc p) p trapframe new
  heap : HeapInv L ⟨t.mem.buddy, live⟩
  old_out : ∀ w ∉ copiedPages old (s.proc p).sz, old'.entry w = old.entry w
  old_levels : ∀ w, (old'.pte? w).isSome = (old.pte? w).isSome
  copied : ∀ w ∈ copiedPages old (s.proc p).sz,
    CopiedPage t.mem live (old.entry w) (old'.entry w) (new.entry w)
  table : TableOf new (copiedPages old (s.proc p).sz) att

/-- A `fork` that returns copies the pages below the size, which ends below the trapframe.
The pages of the parent have to be in use. -/
theorem fork_inherited {s t : VmState} {p np : Fin NPROC} {old : PageTable}
    (h : HeapInv L ⟨s.mem.buddy, live⟩) (hrun : (s.proc p).state ≠ .UNUSED)
    (hpt : (s.proc p).pagetable = some old) (hkernel : KernelMapped old)
    (hsrc : ∀ w ∈ copiedPages old (s.proc p).sz, (pte2pa (old.entry w), 0) ∈ live)
    (hcall : fork L (kalloc L) p s = .ok (some np, t)) :
    p ≠ np ∧ (s.proc p).sz ≤ TRAPFRAME ∧ ∃ old' new live',
      Inherited L s t live' p np old old' new fun _ => none := by
  rcases fork_ok hcall with ⟨hr, -⟩ | ⟨q, s₁, trapframe, old₁, new, old', new', hr, hdone⟩
  · cases hr
  cases hr
  have hne := hdone.ne hrun
  obtain rfl : old = old₁ := by simpa [hpt] using hdone.before hne
  obtain ⟨new₁, hnew, htable, hext⟩ := allocproc_table hdone.alloc
  obtain rfl : new = new₁ := by simpa [hdone.new_table] using hnew
  have htables := copyLoop_tables hdone.copy
  have hcov := copyLoop_covers htable.covers hdone.copy
  rw [validPages_eq_copiedPages] at htables hcov
  have hsz : (s.proc p).sz ≤ TRAPFRAME := by
    -- the trapframe would be mapped twice
    by_contra hlt
    have htop : TRAPFRAME / PGSIZE ∈ copiedPages old (s.proc p).sz :=
      ⟨Nat.not_le.mp hlt, (hkernel _ (by decide)).1⟩
    have hfree := htables.free _ htop
    rw [(htable.kernel _ (by decide)).1] at hfree
    cases hfree
  obtain ⟨live₁, hgrown⟩ := hext live h
  obtain ⟨live', hmemory⟩ := copyLoop_memory hgrown.heap (fun w hw => hgrown.subset (hsrc w
    (validPages_eq_copiedPages old _ ▸ hw))) hdone.copy
  rw [validPages_eq_copiedPages] at hmemory
  have hout : ∀ w, PageTable.reserved w = true → w ∉ copiedPages old (s.proc p).sz := by
    intro w hres hw
    rw [not_reserved_of_copied hsz hw] at hres
    cases hres
  refine ⟨hne, hsz, old', new', live', hdone.parent hne, ⟨trapframe, hdone.child⟩, hmemory.heap,
    htables.old_out, htables.levels, fun w hw => ?_, fun w hres => ?_, fun w hw => ?_,
    by simp, fun w hres hw _ => ?_, ?_⟩
  · have hlive := hgrown.subset (hsrc w hw)
    refine ⟨htables.old_in w hw, fun k hk => ?_, hmemory.subset hlive, hmemory.page w hw, ?_,
      hmemory.single w hw⟩
    · rw [htables.flags w hw k hk, htables.old_in w hw]
    · rw [hmemory.copy w hw, hmemory.frame _ hlive]
  · rw [htables.new_out w (hout w hres)]
    exact htable.kernel w hres
  · rw [htables.new_valid hw]
    exact hw.2
  · rw [htables.new_out w hw, htable.blank w hres (Set.notMem_empty w) rfl]
  · refine (congrArg (Covers new') (Set.ext fun w => ?_)).mp hcov
    simp

namespace Inherited

variable {s t t' : VmState} {p np : Fin NPROC} {old old' new new' : PageTable}
  {att : ℕ → Option Pte}

/-- Memory is taken into use after the fork. -/
theorem extend (h : Inherited L s t live p np old old' new att) (hproc : t'.proc = t.proc)
    (hext : Extends L t.mem t'.mem) : ∃ live', Inherited L s t' live' p np old old' new att := by
  obtain ⟨live', hgrown⟩ := hext live h.heap
  refine ⟨live', by rw [hproc, h.parent], by rw [hproc]; exact h.child, hgrown.heap, h.old_out,
    h.old_levels, fun w hw => ?_, h.table⟩
  have hpage := h.copied w hw
  exact hpage.kept hgrown.subset hgrown.frame (hgrown.cnt _ hpage.new_live)

/-- Pages are mapped in the child after the fork. -/
theorem attach {va pa : ℕ} {perm : Pte} (h : Inherited L s t live p np old old' new att)
    (hne : p ≠ np) (hperm : perm.getLsbD 8 = false)
    (hmap : mappages (kalloc L) new va (n * PGSIZE) pa perm t.mem = .ok (r, new', m')) :
    ∃ live', Inherited L s (t.setTable np new' m') live' p np old old' new' fun w =>
      (att w).or (if va / PGSIZE ≤ w ∧ w < va / PGSIZE + n then
        some (mappedPte pa perm (w - va / PGSIZE)) else none) := by
  obtain ⟨live', hgrown⟩ := mappages_extends hmap live h.heap
  obtain ⟨trapframe, hchild⟩ := h.child
  refine ⟨live', ?_, ⟨trapframe, ?_⟩, hgrown.heap, h.old_out, h.old_levels, fun w hw => ?_,
    h.table.attach hperm hmap⟩
  · simp [VmState.setTable, hne, h.parent]
  · simp [VmState.setTable, hchild, childProc]
  · rw [(mappages_mapped hmap).2.kept (h.table.mapped w hw)]
    have hpage := h.copied w hw
    exact hpage.kept hgrown.subset hgrown.frame (hgrown.cnt _ hpage.new_live)

end Inherited

end LearnOS
