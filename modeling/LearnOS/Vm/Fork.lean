import LearnOS.Vm.CopyLoop

/-!
# What `uvmcopy` and `fork` do

The pages of all processes through `fork`: the new pages of the child belong to
nobody else, and no owner loses a page.
-/

namespace LearnOS

open Ownership Function Kres

variable {L : Layout} {own : Slot → Option ℕ} {i j : Fin NPROC} {m m' : KMem} {live : List (ℕ × ℕ)}
  {pt : PageTable} {old new : PageTable} {v : ℕ} {r : ℤ}
  {a : ℕ} {old' new' : PageTable} {s s' : VmState}

/-! ## Copy-on-write faults -/

theorem walkaddr_ok {va pa : ℕ} (h : walkaddr pt va = .ok pa) :
    pa = 0 ∨ (va < MAXVA ∧ (pt.pte? (va / PGSIZE)).isSome ∧
      (pt.entry (va / PGSIZE)).getLsbD 0 = true ∧ (pt.entry (va / PGSIZE)).getLsbD 4 = true ∧
      pa = pte2pa (pt.entry (va / PGSIZE))) := by
  unfold walkaddr at h
  split at h
  · cases h
    exact Or.inl rfl
  · simp only [bind_eq_ok] at h
    obtain ⟨e, hwalk, h⟩ := h
    cases e with
    | none =>
      cases h
      exact Or.inl rfl
    | some pte =>
      obtain ⟨hva, hsome, rfl⟩ := walk_valid hwalk
      simp only [Pte.has_V, Pte.has_U] at h
      split at h
      · cases h
        exact Or.inl rfl
      · next hv =>
          split at h
          · cases h
            exact Or.inl rfl
          · next hu =>
              obtain rfl := Except.ok.inj h
              exact Or.inr ⟨hva, hsome, by simpa using hv, by simpa using hu, rfl⟩

/-- The ways in which `cowalloc` returns. -/
theorem cowalloc_cases {pt pt' : PageTable} {va page : ℕ}
    (hcall : cowalloc L (kalloc L) pt va m = .ok (page, pt', m')) :
    (page = 0 ∧ pt' = pt ∧ m' = m) ∨
      (va % PGSIZE = 0 ∧ (pt.pte? (va / PGSIZE)).isSome ∧
        (pt.entry (va / PGSIZE)).getLsbD 0 = true ∧ (pt.entry (va / PGSIZE)).getLsbD 4 = true ∧
        ((m.cnt (pte2pa (pt.entry (va / PGSIZE)) / PGSIZE) = 1 ∧
            page = pte2pa (pt.entry (va / PGSIZE)) ∧
            pt' = pt.setPte (va / PGSIZE)
              ((pt.entry (va / PGSIZE) ||| PTE_W) &&& ~~~PTE_F) ∧ m' = m) ∨
          (m.cnt (pte2pa (pt.entry (va / PGSIZE)) / PGSIZE) ≠ 1 ∧
            cowcopy L (kalloc L) pt va (pt.entry (va / PGSIZE)) m = .ok (page, pt', m')))) := by
  simp only [cowalloc] at hcall
  split at hcall
  · cases hcall
    exact Or.inl ⟨rfl, rfl, rfl⟩
  · next hmod =>
      simp only [bind_eq_ok] at hcall
      obtain ⟨pa, haddr, hcall⟩ := hcall
      split at hcall
      · cases hcall
        exact Or.inl ⟨rfl, rfl, rfl⟩
      · next hpa =>
          obtain ⟨hva, hsome, hv, hu, rfl⟩ := (walkaddr_ok haddr).resolve_left hpa
          simp only [bind_eq_ok] at hcall
          obtain ⟨e, hwalk, hcall⟩ := hcall
          cases e with
          | none => cases hcall
          | some pte =>
            obtain ⟨-, -, rfl⟩ := walk_valid hwalk
            refine Or.inr ⟨not_not.mp hmod, hsome, hv, hu, ?_⟩
            by_cases hone : m.cnt (pte2pa (pt.entry (va / PGSIZE)) / PGSIZE) = 1
            · simp only [krefcnt, hone, if_true, pure_eq_ok, Prod.mk.injEq] at hcall
              obtain ⟨rfl, rfl, rfl⟩ := hcall
              exact Or.inl ⟨hone, rfl, rfl, rfl⟩
            · simp only [krefcnt, hone, if_false] at hcall
              exact Or.inr ⟨hone, hcall⟩

/-- Making a page writable again touches no other bit. -/
theorem getLsbD_uncow (pte : Pte) {k : ℕ} (hW : k ≠ 2) (hF : k ≠ 8) :
    ((pte ||| PTE_W) &&& ~~~PTE_F).getLsbD k = pte.getLsbD k := by
  by_cases hk : k < 64
  · simp [PTE_W, PTE_F, hk, hW, hF]
  · rw [BitVec.getLsbD_of_ge _ _ (by omega), BitVec.getLsbD_of_ge _ _ (by omega)]

theorem pte2pa_uncow (pte : Pte) : pte2pa ((pte ||| PTE_W) &&& ~~~PTE_F) = pte2pa pte :=
  pte2pa_congr fun _ hk => getLsbD_uncow pte (by omega) (by omega)

theorem withTable_uncow (hsome : (pt.pte? v).isSome) :
    withTable own i (pt.setPte v ((pt.entry v ||| PTE_W) &&& ~~~PTE_F)) = withTable own i pt := by
  have huser : (pt.setPte v ((pt.entry v ||| PTE_W) &&& ~~~PTE_F)).user = pt.user := by
    funext w
    simp only [PageTable.user, PageTable.entry_setPte hsome]
    by_cases hw : w = v
    · rw [hw, if_pos rfl, getLsbD_uncow _ (by decide) (by decide), pte2pa_uncow]
    · rw [if_neg hw]
  funext k
  cases k with
  | user j w => simp only [withTable, huser]
  | _ => rfl

/-! ## The copy loop -/

/-- The owners while `fork` of `i` builds the table of `j`. -/
def copyOwners (own : Slot → Option ℕ) (i j : Fin NPROC) (old new : PageTable) :
    Slot → Option ℕ :=
  withTable (withTable own i old) j new

/-- The user pages of the parent that the loop looks at. -/
theorem user_of_valid {w : ℕ} (hlt : w < TRAPFRAME / PGSIZE) (hv : (pt.entry w).getLsbD 0 = true) :
    pt.user w = some (pte2pa (pt.entry w)) := by
  have hmax : TRAPFRAME / PGSIZE ≤ MAXVA / PGSIZE := by decide
  simp only [PageTable.user, hv, not_reserved_of_lt hlt, true_and,
    if_pos (lt_of_lt_of_le hlt hmax)]

theorem withTable_markCow (hv : (old.entry v).getLsbD 0 = true) :
    withTable own i (markCow old v (old.entry v)) = withTable own i old := by
  funext k
  have huser : (markCow old v (old.entry v)).user = old.user := by
    funext w
    simp only [PageTable.user, valid_markCow hv, pte2pa_markCow hv]
  cases k with
  | user j w => simp only [withTable, huser]
  | mid j x | low j x | root j =>
    unfold markCow
    split <;> rfl
  | trapframe j => rfl
  | hand => rfl

theorem kaddrefcnt_buddy (L : Layout) (p : ℕ) (m : KMem) :
    (kaddrefcnt L p m).2.buddy = m.buddy := by
  unfold kaddrefcnt
  split <;> rfl

/-- One mapped page of the parent: the page in hand becomes one of the child. -/
theorem copy_page {mem : ℕ} {m₁ m₂ : KMem} (hhand : own .hand = none)
    (ht : Tracked L m live (copyOwners own i j old new))
    (hv : (old.entry (a / PGSIZE)).getLsbD 0 = true) (halloc : kalloc L m = .ok (mem, m₁))
    (hmap : mappages (kalloc L) new a PGSIZE mem (cowFlags (pteFlags (old.entry (a / PGSIZE))))
      (m₁.copyPage mem (pte2pa (old.entry (a / PGSIZE)))) = .ok (r, new', m₂)) :
    ∃ live', Gains L live (copyOwners own i j old new)
      (kaddrefcnt L (pte2pa (old.entry (a / PGSIZE))) m₂).2 live'
      (copyOwners own i j (markCow old (a / PGSIZE) (old.entry (a / PGSIZE))) new') := by
  obtain ⟨hnew, -⟩ := ht.of_kalloc halloc .hand
  have hacq₁ := (ht.acquire halloc .hand).write List.mem_cons_self hnew
    (m₁.frame (pte2pa (old.entry (a / PGSIZE)) / PGSIZE))
  have hinhand : update (copyOwners own i j old new) .hand (some mem) =
      copyOwners (update own .hand (some mem)) i j old new := by
    funext k
    cases k with
    | _ => simp [copyOwners, withTable]
  rw [hinhand] at hacq₁
  obtain ⟨-, -, live', hacq₂⟩ := mappages_user hacq₁.tracked hmap
    (by simp [withTable]) (flagsOnly_cowFlags _)
  have hacq := hacq₁.trans hacq₂
  have hown : withTable (update (withTable (update own .hand (some mem)) i old) .hand none) j new' =
      copyOwners own i j (markCow old (a / PGSIZE) (old.entry (a / PGSIZE))) new' := by
    rw [copyOwners, withTable_markCow hv]
    funext k
    cases k with
    | hand => simp [withTable, hhand]
    | _ => simp [withTable]
  rw [hown] at hacq
  refine ⟨live', ⟨?_, hacq.tracked.held, hacq.tracked.exclusive⟩, hacq.grows.subset,
    hacq.old_or_new⟩
  rw [kaddrefcnt_buddy]
  exact hacq.tracked.heap

theorem copyLoop_gains {n : ℕ} (hhand : own .hand = none)
    (ht : Tracked L m live (copyOwners own i j old new))
    (hcall : copyLoop L (kalloc L) n a old new m = .ok (r, old', new', m')) :
    ∃ live', Gains L live (copyOwners own i j old new) m' live' (copyOwners own i j old' new') := by
  induction n generalizing a old new m live with
  | zero =>
    cases hcall
    exact ⟨live, (Acquires.refl ht).gains⟩
  | succ n ih =>
    obtain ⟨-, hcall⟩ | ⟨hv, mem, m₁, new₁, m₂, halloc, hmap, hcall⟩ := copyLoop_succ hcall
    · exact ih ht hcall
    · obtain ⟨live₁, hgain⟩ := copy_page hhand ht hv halloc hmap
      obtain ⟨live', hrest⟩ := ih hgain.tracked hcall
      exact ⟨live', hgain.trans hrest⟩

/-! ## New processes -/

theorem user_of_zero (h : pt.entry v = 0) : pt.user v = none := by
  simp only [PageTable.user, h]
  simp

theorem uvmcreate_spec (h : Tracked L m live own) {r : Option PageTable}
    (hcall : uvmcreate (kalloc L) m = .ok (r, m')) (i : Fin NPROC) :
    ∃ pt, r = some pt ∧ (∀ w, pt.entry w = 0) ∧
      ∃ live', Acquires L m live own m' live' (withTable own i pt) := by
  obtain ⟨page, m₁, halloc, rfl, rfl⟩ := uvmcreate_ok hcall
  have hentry : ∀ w, PageTable.entry ⟨page, fun _ => none, fun _ => none, fun _ => 0⟩ w = 0 :=
    fun w => PageTable.entry_of_none (by simp [PageTable.pte?])
  refine ⟨_, rfl, hentry, _, (h.acquire_memset halloc (.root i)).forget ?_⟩
  intro k p hk
  cases k with
  | root j =>
    by_cases hj : j = i <;> simp_all [withTable]
  | mid j x =>
    by_cases hj : j = i <;> simp_all [withTable, PageTable.midPage]
  | low j x =>
    by_cases hj : j = i <;> simp_all [withTable, PageTable.lowPage]
  | user j v =>
    by_cases hj : j = i
    · simp only [withTable, hj, if_true, user_of_zero (hentry v), reduceCtorEq] at hk
    · simpa [withTable, hj] using hk
  | trapframe j | hand => simpa [withTable] using hk

theorem procPagetable_spec (h : Tracked L m live own) {trapframe : ℕ} {r : Option PageTable}
    (hcall : procPagetable L (kalloc L) trapframe m = .ok (r, m')) (i : Fin NPROC) :
    ∃ pt, r = some pt ∧ (∀ w, PageTable.reserved w = false → pt.entry w = 0) ∧
      ∃ live', Acquires L m live own m' live' (withTable own i pt) := by
  obtain ⟨pt₀, m₀, pt₁, m₁, pt₂, hcreate, hmap₁, hmap₂, rfl⟩ := procPagetable_ok hcall
  obtain ⟨pt', hpt', hzero, live₀, hacq₀⟩ := uvmcreate_spec h hcreate i
  cases hpt'
  obtain ⟨-, hentry₁, live₁, hacq₁⟩ := mappages_reserved hacq₀.tracked hmap₁ (by decide)
  obtain ⟨-, hentry₂, live₂, hacq₂⟩ := mappages_reserved hacq₁.tracked hmap₂ (by decide)
  refine ⟨pt₂, rfl, fun w hw => ?_, live₂, (hacq₀.trans hacq₁).trans hacq₂⟩
  rw [hentry₂ w hw, hentry₁ w hw, hzero w]

theorem own_newProc (s : VmState) (i : Fin NPROC) (m : KMem) (pr : Proc)
    (hpt : pr.pagetable = some pt) (htrap : pr.trapframe ≠ 0) :
    ({ s with mem := m }.setProc i pr).own =
      withTable (update s.own (.trapframe i) (some pr.trapframe)) i pt := by
  funext k
  cases k with
  | hand => rfl
  | _ j =>
    by_cases hj : j = i
    · subst hj
      simp [VmState.own, withTable, VmState.setProc, hpt, htrap]
    · simp [VmState.own, withTable, VmState.setProc, hj]

/-- A new process has a trapframe and a table without user pages. -/
theorem allocproc_spec (h : Tracked L s.mem live s.own)
    {r : Option (Fin NPROC)} (hcall : allocproc L (kalloc L) s = .ok (r, s')) :
    (r = none ∧ s' = s ∧ ∀ q, (s.proc q).state ≠ .UNUSED) ∨
      ∃ np pt trapframe, r = some np ∧ (s.proc np).state = .UNUSED ∧
        s'.proc = update s.proc np
          { s.proc np with state := .USED, trapframe := trapframe, pagetable := some pt } ∧
        s'.initproc = s.initproc ∧ (∀ w, PageTable.reserved w = false → pt.entry w = 0) ∧
        ∃ live', Acquires L s.mem live s.own s'.mem live' s'.own := by
  rcases allocproc_ok hcall with
    hfull | ⟨np, trapframe, m₁, pt, m₂, rfl, hunused, halloc, hpt, rfl⟩
  · exact Or.inl hfull
  have hacq₁ := h.acquire halloc (.trapframe np)
  obtain ⟨pt', hpt', hzero, live₂, hacq₂⟩ := procPagetable_spec hacq₁.tracked hpt np
  cases hpt'
  refine Or.inr ⟨np, pt, trapframe, rfl, hunused, rfl, rfl, hzero, live₂, ?_⟩
  rw [own_newProc s np m₂ _ rfl (kalloc_ne_null halloc)]
  exact hacq₁.trans hacq₂

/-- What a successful `fork` of `p` has done. -/
structure Forked (s s' : VmState) (live : List (ℕ × ℕ)) (p np : Fin NPROC)
    (old old' new' : PageTable) : Prop where
  unused : (s.proc np).state = .UNUSED
  ne : p ≠ np
  parent : s'.proc p = { s.proc p with pagetable := some old' }
  child : ∃ trapframe, s'.proc np = childProc (s.proc np) (s.proc p) p trapframe new'
  other : ∀ i, i ≠ p → i ≠ np → s'.proc i = s.proc i
  frame : ∀ q, (q, 0) ∈ live → s'.mem.frame (q / PGSIZE) = s.mem.frame (q / PGSIZE)
  old_entry : ∀ w, Pte.Similar (old'.entry w) (old.entry w) ∧
    pte2pa (old'.entry w) = pte2pa (old.entry w)
  new_in : ∀ w ∈ copiedPages old (s.proc p).sz, Pte.Similar (new'.entry w) (old.entry w) ∧
    s'.mem.frame (pte2pa (new'.entry w) / PGSIZE) = s.mem.frame (pte2pa (old.entry w) / PGSIZE)
  new_out : ∀ w, PageTable.reserved w = false → w ∉ copiedPages old (s.proc p).sz →
    new'.entry w = 0
  cnt_in : ∀ w ∈ copiedPages old (s.proc p).sz,
    s'.mem.cnt (pte2pa (old.entry w) / PGSIZE) = s.mem.cnt (pte2pa (old.entry w) / PGSIZE) + 1

theorem copyLoop_empty {n : ℕ} {old new : PageTable}
    (hempty : validPages old (a / PGSIZE) n = ∅)
    (hcall : copyLoop L (kalloc L) n a old new m = .ok (r, old', new', m')) :
    old' = old ∧ new' = new ∧ m' = m := by
  induction n generalizing a with
  | zero =>
    cases hcall
    exact ⟨rfl, rfl, rfl⟩
  | succ n ih =>
    obtain ⟨hv, hcall⟩ | ⟨hv, -⟩ := copyLoop_succ hcall
    · rw [validPages_succ_of_clear hv] at hempty
      exact ih hempty hcall
    · rw [validPages_succ_of_valid hv] at hempty
      exact absurd (hempty ▸ Or.inl rfl : a / PGSIZE ∈ (∅ : Set ℕ)) (Set.notMem_empty _)

theorem own_afterFork {L : Layout} {s₁ : VmState} {p np : Fin NPROC} {trapframe : ℕ}
    {old new : PageTable} (h : ForkDone L s s₁ s' p np trapframe old new old' new')
    (hne : p ≠ np) : s'.own = withTable (withTable s₁.own p old') np new' := by
  funext k
  cases k with
  | hand => rfl
  | trapframe j | root j | mid j _ | low j _ | user j _ =>
    by_cases hj : j = np
    · subst hj
      simp [VmState.own, withTable, h.child, childProc, h.alloc_proc]
    · by_cases hjp : j = p
      · subst hjp
        simp [VmState.own, withTable, h.parent hne, h.alloc_proc, hj]
      · simp [VmState.own, withTable, h.other hjp hj, h.alloc_proc, hj, hjp]

/-- `fork` either finds no free slot and changes nothing, or creates a child
with copies of the pages of `p`. When there was no page to copy, no reference
count has changed. -/
theorem fork_spec {p : Fin NPROC} (h : Tracked L s.mem live s.own)
    (hrun : (s.proc p).state ≠ .UNUSED) (hpt : (s.proc p).pagetable = some old)
    (hsz : (s.proc p).sz ≤ TRAPFRAME) {r : Option (Fin NPROC)}
    (hcall : fork L (kalloc L) p s = .ok (r, s')) :
    (r = none ∧ s' = s ∧ ∀ q, (s.proc q).state ≠ .UNUSED) ∨
      ∃ np old' new' live', r = some np ∧ Forked s s' live p np old old' new' ∧
        Gains L live s.own s'.mem live' s'.own ∧
        (copiedPages old (s.proc p).sz = ∅ →
          ∃ live₁, Acquires L s.mem live s.own s'.mem live₁ s'.own) := by
  rcases fork_ok hcall with
    hfull | ⟨np, s₁, trapframe, old₁, new, old', new', rfl, hdone⟩
  · exact Or.inl hfull
  right
  have hne := hdone.ne hrun
  obtain rfl : old = old₁ := by simpa [hpt] using hdone.before hne
  rcases allocproc_spec h hdone.alloc with
    ⟨hr, -⟩ | ⟨np', pt, trapframe', hr, -, hproc₁, -, hzero, live₁, hacq₁⟩
  · cases hr
  cases hr
  obtain rfl : pt = new := by
    have hnew := hdone.new_table
    simpa [hproc₁] using hnew
  have howners : copyOwners s₁.own p np old pt = s₁.own := by
    rw [copyOwners, ← VmState.own_eq_withTable hdone.old_table,
      ← VmState.own_eq_withTable hdone.new_table]
  have hown : s'.own = copyOwners s₁.own p np old' new' := own_afterFork hdone hne
  obtain ⟨live', hgain⟩ := copyLoop_gains rfl (by rw [howners]; exact hacq₁.tracked) hdone.copy
  rw [howners, ← hown] at hgain
  refine ⟨np, old', new', live', rfl, ?_, hacq₁.gains.trans hgain, fun hempty => ?_⟩
  · have huser : ∀ {w}, w ∈ copiedPages old (s.proc p).sz →
        s.own (.user p w) = some (pte2pa (old.entry w)) := by
      intro w hw
      rw [VmState.own_eq_withTable hpt]
      simp only [withTable, if_true]
      exact user_of_valid (page_lt_of_below hsz hw.1) hw.2
    have htables := copyLoop_tables hdone.copy
    obtain ⟨live₂, hmemory⟩ := copyLoop_memory hacq₁.tracked.heap (fun w hw => hacq₁.grows.subset
      (h.held _ _ (huser (validPages_eq_copiedPages old _ ▸ hw)))) hdone.copy
    rw [validPages_eq_copiedPages] at htables hmemory
    refine ⟨hdone.unused, hne, hdone.parent hne, ⟨trapframe, hdone.child⟩, fun _ => hdone.other,
      fun q hq => ?_, htables.old_similar, fun w hw => ⟨htables.new_similar hw, ?_⟩,
      fun w hres hw => ?_, fun w hw => ?_⟩
    · rw [hmemory.frame q (hacq₁.grows.subset hq), hacq₁.grows.frame q hq]
    · rw [hmemory.copy w hw, hacq₁.grows.frame _ (h.held _ _ (huser hw))]
    · rw [htables.new_out w hw, hzero w hres]
    · rw [hmemory.cnt_in w hw, hacq₁.grows.cnt _ (h.held _ _ (huser hw))]
      -- no page of the parent is mapped twice
      intro w' hw' heq
      have hsame := h.exclusive _ _ _ (huser hw') (heq ▸ huser hw)
      simpa using hsame
  · rw [← validPages_eq_copiedPages] at hempty
    obtain ⟨hold, hnew, hmem⟩ := copyLoop_empty hempty hdone.copy
    rw [hown, hold, hnew, howners, hmem]
    exact ⟨live₁, hacq₁⟩

end LearnOS
