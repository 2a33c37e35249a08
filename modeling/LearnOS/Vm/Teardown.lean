import LearnOS.Vm.Owned

/-!
# Destruction of an address space

`freewalk`, `uvmfree` and `freeproc` give back every page that the process
owns: when `freeproc` returns, the pages of its trapframe, of its page table and
of its user memory are in use by nobody.
-/

namespace LearnOS

open Ownership Function Kres

variable {L : Layout} {own : Slot → Option ℕ} {i : Fin NPROC} {pt pt' : PageTable}
  {m m' : KMem} {live : List (ℕ × ℕ)}

/-- The process `i` has no table. -/
def noTable (own : Slot → Option ℕ) (i : Fin NPROC) : Slot → Option ℕ
  | .root j => if j = i then none else own (.root j)
  | .mid j x => if j = i then none else own (.mid j x)
  | .low j x => if j = i then none else own (.low j x)
  | .user j v => if j = i then none else own (.user j v)
  | k => own k

/-- The slot of a page-table page of process `i`. -/
def TableSlot.slot (i : Fin NPROC) : TableSlot → Slot
  | .root => .root i
  | .mid x => .mid i x
  | .low x => .low i x

theorem TableSlot.slot_injective (i : Fin NPROC) : Function.Injective (TableSlot.slot i) := by
  intro a b h
  cases a <;> cases b <;> simp_all [TableSlot.slot]

theorem withTable_slot (own : Slot → Option ℕ) (i : Fin NPROC) (pt : PageTable) (k : TableSlot) :
    withTable own i pt (k.slot i) = pt.tablePage k := by
  cases k <;> simp [TableSlot.slot, withTable, PageTable.tablePage]

theorem noTable_slot (t : TableSlot) : noTable own i (t.slot i) = none := by
  cases t <;> simp [TableSlot.slot, noTable]

theorem user_of_noLeaf (h : pt.NoLeaf) (v : ℕ) : pt.user v = none := by
  refine if_neg fun hv => ?_
  have hlt : v < 2 ^ 27 := hv.2.2.trans (by decide)
  rw [h v hlt] at hv
  exact Bool.noConfusion hv.1

theorem noTable_other (h : pt.NoLeaf) {k : Slot} (hk : ∀ t : TableSlot, t.slot i ≠ k) :
    noTable own i k = withTable own i pt k := by
  cases k with
  | root j =>
    have hj : j ≠ i := fun hj => hk .root (hj ▸ rfl)
    simp [noTable, withTable, hj]
  | mid j x =>
    have hj : j ≠ i := fun hj => hk (.mid x) (hj ▸ rfl)
    simp [noTable, withTable, hj]
  | low j x =>
    have hj : j ≠ i := fun hj => hk (.low x) (hj ▸ rfl)
    simp [noTable, withTable, hj]
  | user j v => simp [noTable, withTable, user_of_noLeaf h]
  | trapframe j | hand => rfl

theorem noTable_eq (h : pt.NoLeaf) (k : Slot) :
    noTable own i k =
      without (withTable own i pt)
        (fun k => decide (k ∈ pt.tableSlots.map (TableSlot.slot i))) k := by
  by_cases hk : k ∈ pt.tableSlots.map (TableSlot.slot i)
  · obtain ⟨t, -, rfl⟩ := List.mem_map.mp hk
    rw [noTable_slot, without, if_pos (decide_eq_true hk)]
  rw [without_of_false (by simpa using hk)]
  by_cases hslot : ∃ t : TableSlot, t.slot i = k
  · obtain ⟨t, rfl⟩ := hslot
    rw [List.mem_map_of_injective (TableSlot.slot_injective i), mem_tableSlots_iff] at hk
    rw [noTable_slot, withTable_slot, Option.not_isSome_iff_eq_none.mp hk]
  · exact noTable_other h fun t ht => hslot ⟨t, ht⟩

theorem tableSlots_pages (own : Slot → Option ℕ) (i : Fin NPROC) (pt : PageTable) :
    (pt.tableSlots.map (TableSlot.slot i)).filterMap (withTable own i pt) =
      pt.tableSlots.filterMap pt.tablePage := by
  rw [List.filterMap_map]
  exact List.filterMap_congr fun t _ => withTable_slot own i pt t

theorem tableSlots_isSome (own : Slot → Option ℕ) (i : Fin NPROC) (pt : PageTable) :
    ∀ k ∈ pt.tableSlots.map (TableSlot.slot i), (withTable own i pt k).isSome := by
  intro k hk
  obtain ⟨t, ht, rfl⟩ := List.mem_map.mp hk
  rw [withTable_slot]
  exact mem_tableSlots_iff.mp ht

/-- `freewalk` returns only when no leaf was left, and then nothing is left. -/
theorem freewalk_frees (own : Slot → Option ℕ) (i : Fin NPROC)
    (hcall : freewalk L pt m = .ok m') : Frees L (withTable own i pt) m (noTable own i) m' := by
  have hleaf := noLeaf_of_freewalk hcall
  rw [freewalk_eq hleaf] at hcall
  refine ⟨_, (tableSlots_nodup pt).map (TableSlot.slot_injective i), tableSlots_isSome own i pt, ?_,
    noTable_eq hleaf⟩
  rw [tableSlots_pages]
  exact hcall

theorem reserved_iff {v : ℕ} :
    PageTable.reserved v = true ↔ v = TRAMPOLINE / PGSIZE ∨ v = TRAPFRAME / PGSIZE := by
  simp [PageTable.reserved]

theorem not_reserved_of_lt {v : ℕ} (hlt : v < TRAPFRAME / PGSIZE) :
    PageTable.reserved v = false := by
  have hle : TRAPFRAME / PGSIZE ≤ TRAMPOLINE / PGSIZE := by decide
  refine Bool.eq_false_iff.mpr fun hres => ?_
  rcases reserved_iff.mp hres with heq | heq <;> omega

/-- The table after the two pages of the kernel have been unmapped. -/
def PageTable.withoutKernel (pt : PageTable) : PageTable :=
  (pt.clear (TRAMPOLINE / PGSIZE) 1).clear (TRAPFRAME / PGSIZE) 1

theorem entry_withoutKernel {v : ℕ} :
    pt.withoutKernel.entry v =
      if PageTable.reserved v = true ∧ (pt.entry v).getLsbD 0 = true then 0 else pt.entry v := by
  have hone : ∀ lo, (lo ≤ v ∧ v < lo + 1 ∧ (pt.entry v).getLsbD 0 = true) ↔
      v = lo ∧ (pt.entry v).getLsbD 0 = true := by
    intro lo
    constructor
    · exact fun h => ⟨by omega, h.2.2⟩
    · exact fun h => ⟨by omega, by omega, h.2⟩
  rw [PageTable.withoutKernel, PageTable.entry_clear, PageTable.entry_clear]
  by_cases hv : (pt.entry v).getLsbD 0 = true
  · by_cases htramp : v = TRAMPOLINE / PGSIZE
    · have hin : TRAMPOLINE / PGSIZE ≤ v ∧ v < TRAMPOLINE / PGSIZE + 1 ∧
          (pt.entry v).getLsbD 0 = true := (hone _).mpr ⟨htramp, hv⟩
      rw [if_pos hin, ite_self, if_pos ⟨reserved_iff.mpr (Or.inl htramp), hv⟩]
    · rw [if_neg (c := TRAMPOLINE / PGSIZE ≤ v ∧ _) fun h => htramp ((hone _).mp h).1]
      by_cases htrap : v = TRAPFRAME / PGSIZE
      · rw [if_pos ((hone _).mpr ⟨htrap, hv⟩), if_pos ⟨reserved_iff.mpr (Or.inr htrap), hv⟩]
      · rw [if_neg fun h => htrap ((hone _).mp h).1,
          if_neg fun h => (reserved_iff.mp h.1).elim htramp htrap]
  · simp only [hv, and_false, if_false, Bool.false_eq_true]

theorem withTable_withoutKernel (own : Slot → Option ℕ) (i : Fin NPROC) (pt : PageTable) :
    withTable own i pt.withoutKernel = withTable own i pt := by
  rw [PageTable.withoutKernel, withTable_clear_reserved own i (by decide),
    withTable_clear_reserved own i (by decide)]

/-- The first calls of `proc_freepagetable`. -/
theorem procFreepagetable_ok {sz : ℕ} (h : procFreepagetable L pt sz m = .ok m') :
    uvmfree L pt.withoutKernel sz m = .ok m' := by
  simp only [procFreepagetable, bind_eq_ok] at h
  obtain ⟨⟨pt₁, m₁⟩, htramp, ⟨pt₂, m₂⟩, htrap, h⟩ := h
  obtain ⟨-, -, rfl, hm₁⟩ := uvmunmap_ok htramp
  obtain ⟨-, -, rfl, hm₂⟩ := uvmunmap_ok htrap
  cases hm₁
  cases hm₂
  exact h

theorem procFreepagetable_frees {sz : ℕ} (own : Slot → Option ℕ) (i : Fin NPROC)
    (hcall : procFreepagetable L pt sz m = .ok m') :
    Frees L (withTable own i pt) m (noTable own i) m' := by
  have hcall := procFreepagetable_ok hcall
  rw [← withTable_withoutKernel]
  unfold uvmfree at hcall
  split at hcall
  · simp only [bind_eq_ok] at hcall
    obtain ⟨⟨pt₃, m₃⟩, hunmap, hwalk⟩ := hcall
    obtain ⟨-, hmappable, -, -⟩ := uvmunmap_ok hunmap
    have huser : UserOnly pt.withoutKernel (0 / PGSIZE) (pgroundup64 sz / PGSIZE) := by
      intro v _ hhi hv
      rw [Nat.zero_div, Nat.zero_add] at hhi
      have hlt := hmappable.below v hhi
      rw [entry_withoutKernel] at hv
      split at hv
      · cases hv
      · rename_i hno
        refine ⟨Bool.eq_false_iff.mpr fun hres => hno ⟨hres, hv⟩, ?_⟩
        rw [Nat.zero_add] at hlt
        exact (Nat.lt_div_iff_mul_lt' ⟨2 ^ 26, rfl⟩ v).mpr (by rwa [Nat.mul_comm])
    exact (uvmunmap_frees own i huser hunmap).trans (freewalk_frees own i hwalk)
  · exact freewalk_frees own i hcall

/-! ## Processes -/

theorem own_reset (s : VmState) (i : Fin NPROC) (m : KMem) (k : Slot) :
    ({ s with mem := m }.setProc i (s.proc i).reset).own k =
      noTable (update s.own (.trapframe i) none) i k := by
  cases k with
  | hand => rfl
  | _ j =>
    by_cases hj : j = i
    · subst hj
      simp [VmState.own, noTable, VmState.setProc, Proc.reset]
    · simp [VmState.own, noTable, VmState.setProc, hj]

theorem freeTrapframe_frees {s : VmState} (hcall : freeTrapframe L (s.proc i) m = .ok m') :
    Frees L s.own m (update s.own (.trapframe i) none) m' := by
  unfold freeTrapframe at hcall
  split at hcall
  · next hne =>
      have hown : s.own (.trapframe i) = some (s.proc i).trapframe := if_neg hne
      exact .one hown hcall
  · next heq =>
      cases hcall
      refine (Frees.refl s.own m).congr fun k => ?_
      by_cases hk : k = .trapframe i
      · subst hk
        rw [update_self]
        exact (if_pos (not_not.mp heq)).symm
      · rw [update_of_ne hk]

/-- `freeproc` leaves the process without pages. -/
theorem freeproc_frees {s s' : VmState} (hcall : freeproc L i s = .ok s') :
    s'.proc = update s.proc i (s.proc i).reset ∧ s'.initproc = s.initproc ∧
      Frees L s.own s.mem s'.own s'.mem := by
  simp only [freeproc, bind_eq_ok] at hcall
  obtain ⟨m₁, htrap, m₂, hspace, hcall⟩ := hcall
  have hfrees₁ := freeTrapframe_frees htrap
  cases hcall
  refine ⟨rfl, rfl, ?_⟩
  cases hpt : (s.proc i).pagetable with
  | none =>
    simp only [freeAddressSpace, hpt, Except.ok.injEq] at hspace
    subst hspace
    refine hfrees₁.congr fun k => ?_
    rw [own_reset]
    cases k with
    | trapframe j => rfl
    | hand => rfl
    | _ j =>
      by_cases hj : j = i
      · subst hj
        simp [VmState.own, noTable, hpt]
      · simp [noTable, hj]
  | some pt =>
    simp only [freeAddressSpace, hpt] at hspace
    have hown : update s.own (.trapframe i) none =
        withTable (update s.own (.trapframe i) none) i pt := by
      funext k
      cases k with
      | trapframe j => rfl
      | hand => rfl
      | _ j =>
        by_cases hj : j = i
        · subst hj
          simp [VmState.own, withTable, hpt]
        · simp [withTable, hj]
    have hfrees₂ :=
      procFreepagetable_frees (update s.own (.trapframe i) none) i hspace
    rw [← hown] at hfrees₂
    exact (hfrees₁.trans hfrees₂).congr (own_reset s i m₂)

/-- It takes nothing from others. -/
theorem freeproc_spec {s s' : VmState} (h : Tracked L s.mem live s.own)
    (hcall : freeproc L i s = .ok s') :
    s'.proc = update s.proc i (s.proc i).reset ∧ s'.initproc = s.initproc ∧
      ∃ live', Drops L s.mem live s.own s'.mem live' s'.own := by
  obtain ⟨hproc, hinit, hfrees⟩ := freeproc_frees hcall
  exact ⟨hproc, hinit, h.frees hfrees⟩

end LearnOS
