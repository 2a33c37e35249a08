import LearnOS.Vm.Proc

/-!
# Entries of a page table

A page table is seen through `PageTable.entry`, which reads an entry below a
missing level as zero: creating levels does not change it. The lemmas say which
entries a function sets and clears and which pages it passes to `kfree`,
whoever owns them.
-/

namespace LearnOS

open Function Kres

namespace PageTable

/-- The word that governs a page, zero when a level is missing. -/
def entry (pt : PageTable) (v : ℕ) : Pte := (pt.pte? v).getD 0

/-- The two pages at the top that belong to the kernel. -/
def reserved (v : ℕ) : Bool := v = TRAMPOLINE / PGSIZE ∨ v = TRAPFRAME / PGSIZE

/-- The frame of a mapped user page. -/
def user (pt : PageTable) (v : ℕ) : Option ℕ :=
  if (pt.entry v).getLsbD 0 ∧ reserved v = false ∧ v < MAXVA / PGSIZE then
    some (pte2pa (pt.entry v))
  else none

/-- The level-1 pages that the root reaches. -/
def midPage (pt : PageTable) (x : ℕ) : Option ℕ := if x < 2 ^ 9 then pt.mid x else none

/-- The level-0 pages that the root reaches. -/
def lowPage (pt : PageTable) (x : ℕ) : Option ℕ :=
  if (pt.midPage (x / 2 ^ 9)).isSome then pt.low x else none

variable {pt : PageTable} {v w : ℕ} {lo n : ℕ} {doFree : Bool} {va : ℕ}
  {page a pa : ℕ} {r : ℤ}

theorem entry_of_pte? {pte : Pte} (h : pt.pte? v = some pte) : pt.entry v = pte := by
  rw [entry, h, Option.getD_some]

theorem entry_of_none (h : pt.pte? v = none) : pt.entry v = 0 := by
  rw [entry, h, Option.getD_none]

theorem pte?_isSome_of_valid (h : (pt.entry v).getLsbD 0 = true) :
    pt.pte? v = some (pt.entry v) := by
  cases hv : pt.pte? v with
  | none => simp [entry_of_none hv] at h
  | some pte => rw [entry_of_pte? hv]

theorem entry_addMid {i : ℕ} (hmid : pt.mid i = none) :
    (pt.addMid i page).entry v = pt.entry v := by
  by_cases hv : px2 v = i
  · have hlow : px1 v / 2 ^ 9 = i := by
      rw [px1, Nat.div_div_eq_div_mul]
      exact hv
    have hbefore : pt.pte? v = none := by
      simp only [pte?, hv, hmid]
      simp
    have hafter : (pt.addMid i page).pte? v = none := by
      simp only [pte?, addMid, hlow, if_true]
      simp
    rw [entry_of_none hbefore, entry_of_none hafter]
  · have hlow : ¬ px1 v / 2 ^ 9 = i := by
      rw [px1, Nat.div_div_eq_div_mul]
      exact hv
    simp only [entry, pte?, addMid, update_of_ne hv, if_neg hlow]

theorem entry_addLow {j : ℕ} (hlow : pt.low j = none) :
    (pt.addLow j page).entry v = pt.entry v := by
  by_cases hv : px1 v = j
  · have hbefore : pt.pte? v = none := by
      simp only [pte?, hv, hlow]
      simp
    rw [entry_of_none hbefore]
    simp only [entry, pte?, addLow, hv, if_true]
    split <;> rfl
  · simp only [entry, pte?, addLow, update_of_ne hv, if_neg hv]

theorem lowPage_addMid {i x : ℕ} (hmid : pt.mid i = none) :
    (pt.addMid i page).lowPage x = pt.lowPage x := by
  by_cases hx : x / 2 ^ 9 = i
  · have hbefore : pt.midPage i = none := by
      rw [midPage, hmid, ite_self]
    simp only [lowPage, addMid, hx, if_true, ite_self, hbefore, Option.isSome_none,
      Bool.false_eq_true, if_false]
  · have hsame : (pt.addMid i page).midPage (x / 2 ^ 9) = pt.midPage (x / 2 ^ 9) := by
      simp only [midPage, addMid, update_of_ne hx]
    rw [lowPage, lowPage, hsame]
    simp only [addMid, if_neg hx]

theorem midPage_setPte (v : ℕ) (word : Pte) : (pt.setPte v word).midPage = pt.midPage := rfl

theorem lowPage_setPte (v : ℕ) (word : Pte) : (pt.setPte v word).lowPage = pt.lowPage := rfl

theorem pte?_isSome_setPte (word : Pte) :
    ((pt.setPte v word).pte? w).isSome = (pt.pte? w).isSome := by
  by_cases h : (pt.mid (px2 w)).isSome ∧ (pt.low (px1 w)).isSome
  · rw [pte?, pte?, if_pos h, if_pos (show ((pt.setPte v word).mid (px2 w)).isSome ∧
      ((pt.setPte v word).low (px1 w)).isSome from h)]
    rfl
  · rw [pte?, pte?, if_neg h, if_neg (show ¬ (((pt.setPte v word).mid (px2 w)).isSome ∧
      ((pt.setPte v word).low (px1 w)).isSome) from h)]

theorem entry_setPte (hv : (pt.pte? v).isSome) (word : Pte) :
    (pt.setPte v word).entry w = if w = v then word else pt.entry w := by
  by_cases hw : w = v
  · subst hw
    simp only [pte?, Option.isSome_ite] at hv
    simp only [entry, pte?, setPte, if_pos hv, update_self, Option.getD_some, if_true]
  · simp only [entry, pte?, setPte, update_of_ne hw, if_neg hw]

/-- The table with the valid ones among `n` entries cleared. -/
def clear (pt : PageTable) (lo n : ℕ) : PageTable :=
  { pt with
    pte := fun v => if lo ≤ v ∧ v < lo + n ∧ (pt.entry v).getLsbD 0 then 0 else pt.pte v }

/-- The frames of the valid ones among `n` entries. -/
def frames (pt : PageTable) (lo n : ℕ) : List ℕ :=
  ((List.range' lo n).filter fun v => (pt.entry v).getLsbD 0).map fun v => pte2pa (pt.entry v)

theorem entry_clear :
    (pt.clear lo n).entry v =
      if lo ≤ v ∧ v < lo + n ∧ (pt.entry v).getLsbD 0 then 0 else pt.entry v := by
  by_cases hsome : (pt.mid (px2 v)).isSome ∧ (pt.low (px1 v)).isSome
  · have hpte : pt.entry v = pt.pte v := entry_of_pte? (if_pos hsome)
    have hclear : (pt.clear lo n).pte? v = some ((pt.clear lo n).pte v) := if_pos hsome
    rw [entry_of_pte? hclear, hpte]
    simp only [clear, hpte]
  · have hnone : pt.entry v = 0 := entry_of_none (if_neg hsome)
    have hclear : (pt.clear lo n).pte? v = none := if_neg hsome
    rw [entry_of_none hclear, hnone, ite_self]

end PageTable

variable {L : Layout} {pt pt' : PageTable} {m m' : KMem} {perm : Pte}

/-! ## Lookup and creation of entries -/

theorem kalloc_ne_null {p : ℕ} (h : kalloc L m = .ok (p, m')) : p ≠ NULL := by
  simp only [kalloc, bind_eq_ok] at h
  obtain ⟨⟨result, b⟩, -, h⟩ := h
  by_cases hnull : result = NULL
  · simp [hnull] at h
  · simp only [hnull, if_false, pure_eq_ok, Prod.mk.injEq] at h
    exact h.1 ▸ hnull

theorem walk_eq_ok {r : Option Pte} (h : walk pt va = .ok r) :
    va < MAXVA ∧ r = pt.pte? (va / PGSIZE) := by
  unfold walk at h
  split at h
  · cases h
  · next hva => exact ⟨Nat.not_le.mp hva, (Except.ok.inj h).symm⟩

theorem walk_valid {pte : Pte} (h : walk pt va = .ok (some pte)) :
    va < MAXVA ∧ (pt.pte? (va / PGSIZE)).isSome ∧ pt.entry (va / PGSIZE) = pte := by
  obtain ⟨hva, hpte⟩ := walk_eq_ok h
  exact ⟨hva, by rw [← hpte]; rfl, PageTable.entry_of_pte? hpte.symm⟩

/-- The first round finds its level, or makes it from a new page. -/
theorem walkMid_ok {v : ℕ} {found : Bool}
    (h : walkMid (kalloc L) pt v m = .ok (found, pt', m')) :
    found = true ∧ ((pt.mid (px2 v)).isSome = true ∧ pt' = pt ∧ m' = m ∨
      ∃ page m₁, pt.mid (px2 v) = none ∧ kalloc L m = .ok (page, m₁) ∧
        pt' = pt.addMid (px2 v) page ∧ m' = m₁.memset page 0) := by
  cases hmid : pt.mid (px2 v) with
  | some page =>
    simp only [walkMid, hmid, Except.ok.injEq, Prod.mk.injEq] at h
    exact ⟨h.1.symm, Or.inl ⟨rfl, h.2.1.symm, h.2.2.symm⟩⟩
  | none =>
    simp only [walkMid, hmid, bind_eq_ok] at h
    obtain ⟨⟨page, m₁⟩, halloc, h⟩ := h
    simp only [if_neg (kalloc_ne_null halloc), pure_eq_ok, Prod.mk.injEq] at h
    exact ⟨h.1.symm, Or.inr ⟨page, m₁, rfl, halloc, h.2.1.symm, h.2.2.symm⟩⟩

theorem walkLow_ok {v : ℕ} {found : Bool}
    (h : walkLow (kalloc L) pt v m = .ok (found, pt', m')) :
    found = true ∧ ((pt.low (px1 v)).isSome = true ∧ pt' = pt ∧ m' = m ∨
      ∃ page m₁, pt.low (px1 v) = none ∧ kalloc L m = .ok (page, m₁) ∧
        pt' = pt.addLow (px1 v) page ∧ m' = m₁.memset page 0) := by
  cases hlow : pt.low (px1 v) with
  | some page =>
    simp only [walkLow, hlow, Except.ok.injEq, Prod.mk.injEq] at h
    exact ⟨h.1.symm, Or.inl ⟨rfl, h.2.1.symm, h.2.2.symm⟩⟩
  | none =>
    simp only [walkLow, hlow, bind_eq_ok] at h
    obtain ⟨⟨page, m₁⟩, halloc, h⟩ := h
    simp only [if_neg (kalloc_ne_null halloc), pure_eq_ok, Prod.mk.injEq] at h
    exact ⟨h.1.symm, Or.inr ⟨page, m₁, rfl, halloc, h.2.1.symm, h.2.2.symm⟩⟩

theorem walkMid_entry {v : ℕ} {found : Bool}
    (h : walkMid (kalloc L) pt v m = .ok (found, pt', m')) :
    pt'.entry = pt.entry ∧ (pt'.mid (px2 v)).isSome := by
  obtain ⟨-, ⟨hsome, rfl, -⟩ | ⟨page, m₁, hmid, -, rfl, -⟩⟩ := walkMid_ok h
  · exact ⟨rfl, hsome⟩
  · exact ⟨funext fun _ => PageTable.entry_addMid hmid, by simp [PageTable.addMid]⟩

theorem walkLow_entry {v : ℕ} {found : Bool}
    (h : walkLow (kalloc L) pt v m = .ok (found, pt', m')) :
    pt'.entry = pt.entry ∧ pt'.mid = pt.mid ∧ (pt'.low (px1 v)).isSome := by
  obtain ⟨-, ⟨hsome, rfl, -⟩ | ⟨page, m₁, hlow, -, rfl, -⟩⟩ := walkLow_ok h
  · exact ⟨rfl, rfl, hsome⟩
  · exact ⟨funext fun _ => PageTable.entry_addLow hlow, rfl, by simp [PageTable.addLow]⟩

theorem walkAlloc_ok {r : Option Pte} (h : walkAlloc (kalloc L) pt va m = .ok (r, pt', m')) :
    va < MAXVA ∧ r = some (pt'.pte (va / PGSIZE)) ∧ ∃ pt₁ m₁,
      walkMid (kalloc L) pt (va / PGSIZE) m = .ok (true, pt₁, m₁) ∧
      walkLow (kalloc L) pt₁ (va / PGSIZE) m₁ = .ok (true, pt', m') := by
  by_cases hva : va ≥ MAXVA
  · simp [walkAlloc, hva] at h
  · simp only [walkAlloc, if_neg hva, bind_eq_ok] at h
    obtain ⟨⟨found, pt₁, m₁⟩, hmid, h⟩ := h
    obtain ⟨rfl, -⟩ := walkMid_ok hmid
    simp only [Bool.not_true, Bool.false_eq_true, if_false, bind_eq_ok] at h
    obtain ⟨⟨found, pt₂, m₂⟩, hlow, h⟩ := h
    obtain ⟨rfl, -⟩ := walkLow_ok hlow
    cases h
    exact ⟨Nat.not_le.mp hva, rfl, pt₁, m₁, hmid, hlow⟩

theorem walkAlloc_entry {r : Option Pte} (h : walkAlloc (kalloc L) pt va m = .ok (r, pt', m')) :
    va < MAXVA ∧ r = some (pt.entry (va / PGSIZE)) ∧ pt'.entry = pt.entry ∧
      (pt'.pte? (va / PGSIZE)).isSome := by
  obtain ⟨hva, rfl, pt₁, m₁, hmid, hlow⟩ := walkAlloc_ok h
  obtain ⟨hentry₁, hsome₁⟩ := walkMid_entry hmid
  obtain ⟨hentry₂, hmid₂, hsome₂⟩ := walkLow_entry hlow
  have hpte : pt'.pte? (va / PGSIZE) = some (pt'.pte (va / PGSIZE)) :=
    if_pos ⟨by rw [hmid₂]; exact hsome₁, hsome₂⟩
  refine ⟨hva, ?_, hentry₂.trans hentry₁, by rw [hpte]; rfl⟩
  rw [← hentry₁, ← hentry₂, PageTable.entry_of_pte? hpte]

/-- Entry `j` of a mapping of `n` pages from `pa` at page `lo`. -/
def mappedPte (pa : ℕ) (perm : Pte) (j : ℕ) : Pte := pa2pte (pa + j * PGSIZE) ||| perm ||| PTE_V

theorem getLsbD_mappedPte (pa : ℕ) (perm : Pte) (j : ℕ) {k : ℕ} (hk : k < 10) :
    (mappedPte pa perm j).getLsbD k = (perm.getLsbD k || decide (0 = k)) := by
  rw [mappedPte, BitVec.or_assoc, getLsbD_pa2pte_or _ _ hk, BitVec.getLsbD_or, PTE_V,
    BitVec.getLsbD_twoPow]
  simp

theorem mappedPte_valid (pa : ℕ) (perm : Pte) (j : ℕ) :
    (mappedPte pa perm j).getLsbD 0 = true := by
  rw [getLsbD_mappedPte _ _ _ (by decide)]
  simp

/-- What mapping `n` pages from page `lo` on has done. -/
structure Mapped (pt pt' : PageTable) (lo n pa : ℕ) (perm : Pte) : Prop where
  below : n = 0 ∨ lo + n ≤ MAXVA / PGSIZE
  free : ∀ j < n, (pt.entry (lo + j)).getLsbD 0 = false
  new : ∀ j < n, pt'.entry (lo + j) = mappedPte pa perm j
  old : ∀ v, ¬ (lo ≤ v ∧ v < lo + n) → pt'.entry v = pt.entry v

/-- A mapping that was there is not touched. -/
theorem Mapped.kept {lo n v : ℕ} (h : Mapped pt pt' lo n pa perm)
    (hv : (pt.entry v).getLsbD 0 = true) : pt'.entry v = pt.entry v := by
  refine h.old v ?_
  rintro ⟨hle, hlt⟩
  have hfree := h.free (v - lo) (by omega)
  rw [Nat.add_sub_cancel' hle, hv] at hfree
  cases hfree

theorem mapLoop_mapped {n : ℕ}
    (h : mapLoop (kalloc L) perm n pt a pa m = .ok (r, pt', m')) :
    r = 0 ∧ Mapped pt pt' (a / PGSIZE) n pa perm := by
  induction n generalizing pt a pa m with
  | zero =>
    cases h
    exact ⟨rfl, Or.inl rfl, fun j hj => absurd hj (Nat.not_lt_zero j),
      fun j hj => absurd hj (Nat.not_lt_zero j), fun v _ => rfl⟩
  | succ n ih =>
    simp only [mapLoop, bind_eq_ok] at h
    obtain ⟨⟨pte, pt₁, m₁⟩, hwalk, h⟩ := h
    obtain ⟨hva, rfl, hentry, hsome⟩ := walkAlloc_entry hwalk
    dsimp only at h
    split at h
    · cases h
    rename_i hvalid
    obtain ⟨hr, hrest⟩ := ih h
    have hdiv : (a + PGSIZE) / PGSIZE = a / PGSIZE + 1 := Nat.add_div_right a (by decide)
    rw [hdiv] at hrest
    have hset := fun v => PageTable.entry_setPte (w := v) hsome (pa2pte pa ||| perm ||| PTE_V)
    rw [hentry] at hset
    have hlt : a / PGSIZE < MAXVA / PGSIZE :=
      Nat.div_lt_div_of_lt_of_dvd ⟨2 ^ 26, rfl⟩ hva
    refine ⟨hr, Or.inr ?_, ?_, ?_, ?_⟩
    · rcases hrest.below with rfl | hle <;> omega
    · intro j hj
      cases j with
      | zero => simpa using hvalid
      | succ j =>
        have hfree := hrest.free j (Nat.lt_of_succ_lt_succ hj)
        rw [hset, if_neg (by omega)] at hfree
        rwa [show a / PGSIZE + (j + 1) = a / PGSIZE + 1 + j by omega]
    · intro j hj
      cases j with
      | zero =>
        rw [Nat.add_zero, hrest.old _ (by omega), hset, if_pos rfl, mappedPte, Nat.zero_mul,
          Nat.add_zero]
      | succ j =>
        have hnew := hrest.new j (Nat.lt_of_succ_lt_succ hj)
        rw [show a / PGSIZE + (j + 1) = a / PGSIZE + 1 + j by omega, hnew, mappedPte, mappedPte,
          Nat.succ_mul, Nat.add_comm (j * PGSIZE), ← Nat.add_assoc]
    · intro v hv
      rw [hrest.old v (by omega), hset, if_neg (by omega)]

theorem mappages_ok {pageAlloc : PageAlloc} {va size : ℕ} {x : ℤ × PageTable × KMem}
    (h : mappages pageAlloc pt va size pa perm m = .ok x) :
    va % PGSIZE = 0 ∧ size % PGSIZE = 0 ∧ size ≠ 0 ∧
      mapLoop pageAlloc perm (size / PGSIZE) pt va pa m = .ok x := by
  simp only [mappages] at h
  split at h
  · cases h
  rename_i hva
  split at h
  · cases h
  rename_i hmod
  split at h
  · cases h
  rename_i hsize
  exact ⟨not_not.mp hva, not_not.mp hmod, hsize, h⟩

theorem mappages_mapped {va size : ℕ}
    (h : mappages (kalloc L) pt va size pa perm m = .ok (r, pt', m')) :
    r = 0 ∧ Mapped pt pt' (va / PGSIZE) (size / PGSIZE) pa perm :=
  mapLoop_mapped (mappages_ok h).2.2.2

/-! ## Unmapping -/

/-- `uvmunmap` gets through the range: it lies below `MAXVA`, and no valid entry
looks like a pointer to a page table. -/
structure Unmappable (pt : PageTable) (a n : ℕ) : Prop where
  below : ∀ j < n, a + j * PGSIZE < MAXVA
  leaf : ∀ v, a / PGSIZE ≤ v → v < a / PGSIZE + n → (pt.entry v).getLsbD 0 = true →
    pteFlags (pt.entry v) ≠ PTE_V

/-- The pages of a range are freed, if this was asked for. -/
def freeFrames (L : Layout) (doFree : Bool) (frames : List ℕ) (m : KMem) : Kres KMem :=
  if doFree then kfreeAll L frames m else .ok m

theorem frames_succ_of_valid (h : (pt.entry lo).getLsbD 0 = true) :
    pt.frames lo (n + 1) = pte2pa (pt.entry lo) :: pt.frames (lo + 1) n := by
  simp only [PageTable.frames, List.range'_succ, List.filter_cons, h, if_true, List.map_cons]

theorem frames_succ_of_clear (h : (pt.entry lo).getLsbD 0 = false) :
    pt.frames lo (n + 1) = pt.frames (lo + 1) n := by
  simp only [PageTable.frames, List.range'_succ, List.filter_cons, h, Bool.false_eq_true, if_false]

theorem clear_succ_of_clear (h : (pt.entry lo).getLsbD 0 = false) :
    pt.clear lo (n + 1) = pt.clear (lo + 1) n := by
  have hpte : (pt.clear lo (n + 1)).pte = (pt.clear (lo + 1) n).pte := by
    funext v
    by_cases hv : v = lo
    · subst hv
      simp only [PageTable.clear, h, Bool.false_eq_true, and_false, if_false]
    · have hrange : (lo ≤ v ∧ v < lo + (n + 1)) ↔ (lo + 1 ≤ v ∧ v < lo + 1 + n) := by omega
      simp only [PageTable.clear, ← and_assoc, hrange]
  simp only [PageTable.clear] at hpte ⊢
  rw [hpte]

theorem clear_setPte (hsome : (pt.pte? lo).isSome) (h : (pt.entry lo).getLsbD 0 = true) :
    (pt.setPte lo 0).clear (lo + 1) n = pt.clear lo (n + 1) := by
  have hpte : ((pt.setPte lo 0).clear (lo + 1) n).pte = (pt.clear lo (n + 1)).pte := by
    funext v
    simp only [PageTable.clear, PageTable.entry_setPte hsome]
    by_cases hv : v = lo
    · subst hv
      simp [PageTable.setPte, h]
    · have hrange : (lo + 1 ≤ v ∧ v < lo + 1 + n) ↔ (lo ≤ v ∧ v < lo + (n + 1)) := by omega
      simp only [← and_assoc, hrange, if_neg hv, PageTable.setPte, update_of_ne hv]
  simp only [PageTable.clear, PageTable.setPte] at hpte ⊢
  rw [hpte]

theorem frames_setPte (hsome : (pt.pte? lo).isSome) :
    (pt.setPte lo 0).frames (lo + 1) n = pt.frames (lo + 1) n := by
  have hsame : ∀ v ∈ List.range' (lo + 1) n, (pt.setPte lo 0).entry v = pt.entry v := by
    intro v hv
    rw [PageTable.entry_setPte hsome, if_neg]
    rw [List.mem_range'_1] at hv
    omega
  simp only [PageTable.frames]
  rw [List.filter_congr fun v hv => by rw [hsame v hv]]
  exact List.map_congr_left fun v hv => by rw [hsame v (List.mem_of_mem_filter hv)]

/-- The loop of `uvmunmap` clears the range and frees the frames of its valid
entries in their order. -/
theorem unmapLoop_eq {n : ℕ} (h : Unmappable pt a n) (m : KMem) :
    unmapLoop L doFree n a pt m = do
      let m ← freeFrames L doFree (pt.frames (a / PGSIZE) n) m
      return (pt.clear (a / PGSIZE) n, m) := by
  have hnext : (a + PGSIZE) / PGSIZE = a / PGSIZE + 1 := Nat.add_div_right a (by decide)
  induction n generalizing a pt m with
  | zero =>
    have hclear : pt.clear (a / PGSIZE) 0 = pt := by
      simp only [PageTable.clear]
      rw [show (fun v => if a / PGSIZE ≤ v ∧ v < a / PGSIZE + 0 ∧ (pt.entry v).getLsbD 0 = true
        then (0 : Pte) else pt.pte v) = pt.pte from funext fun v => if_neg (by omega)]
    cases doFree <;> simp [unmapLoop, freeFrames, PageTable.frames, kfreeAll, hclear]
  | succ n ih =>
    have hnext' : (a + PGSIZE + PGSIZE) / PGSIZE = (a + PGSIZE) / PGSIZE + 1 :=
      Nat.add_div_right _ (by decide)
    have hshift : ∀ j, a + PGSIZE + j * PGSIZE = a + (j + 1) * PGSIZE := by
      intro j
      rw [Nat.succ_mul]
      omega
    have hrest : Unmappable pt (a + PGSIZE) n := by
      refine ⟨fun j hj => ?_, fun v hlo hhi => h.leaf v (by omega) (by omega)⟩
      rw [hshift]
      exact h.below (j + 1) (Nat.succ_lt_succ hj)
    have hva : a < MAXVA := by simpa using h.below 0 (Nat.succ_pos n)
    have hskip : (pt.entry (a / PGSIZE)).getLsbD 0 = false →
        unmapLoop L doFree n (a + PGSIZE) pt m = do
          let m ← freeFrames L doFree (pt.frames (a / PGSIZE) (n + 1)) m
          return (pt.clear (a / PGSIZE) (n + 1), m) := by
      intro hclear
      rw [ih hrest m hnext', hnext, frames_succ_of_clear hclear, clear_succ_of_clear hclear]
    rw [unmapLoop, walk, if_neg (Nat.not_le.mpr hva), ok_bind]
    cases hpte : pt.pte? (a / PGSIZE) with
    | none => exact hskip (by rw [PageTable.entry_of_none hpte]; rfl)
    | some pte =>
      have hentry := PageTable.entry_of_pte? hpte
      cases hv : pte.getLsbD 0 with
      | false =>
        simp only [Pte.has_V, hv, Bool.not_false, if_true]
        exact hskip (by rw [hentry, hv])
      | true =>
        have hvalid : (pt.entry (a / PGSIZE)).getLsbD 0 = true := by rw [hentry, hv]
        have hleaf := h.leaf _ le_rfl (by omega) hvalid
        rw [hentry] at hleaf
        have hsome : (pt.pte? (a / PGSIZE)).isSome := by rw [hpte]; rfl
        have hrest' : Unmappable (pt.setPte (a / PGSIZE) 0) (a + PGSIZE) n := by
          refine ⟨hrest.below, fun v hlo hhi hvv => ?_⟩
          rw [PageTable.entry_setPte hsome, if_neg (by omega)] at hvv ⊢
          exact hrest.leaf v hlo hhi hvv
        have hloop := fun m => ih hrest' m hnext'
        rw [hnext, clear_setPte hsome hvalid, frames_setPte hsome] at hloop
        simp only [Pte.has_V, hv, Bool.not_true, Bool.false_eq_true, if_false, hleaf]
        cases doFree with
        | false =>
          simp only [Bool.false_eq_true, if_false, freeFrames, pure_eq,
            ok_bind] at hloop ⊢
          exact hloop m
        | true =>
          simp only [if_true, freeFrames] at hloop ⊢
          rw [frames_succ_of_valid hvalid, hentry, kfreeAll, bind_assoc]
          exact bind_congr hloop

theorem unmappable_of_ok {n : ℕ} {x : PageTable × KMem} (h : unmapLoop L doFree n a pt m = .ok x) :
    Unmappable pt a n := by
  have hnext : (a + PGSIZE) / PGSIZE = a / PGSIZE + 1 := Nat.add_div_right a (by decide)
  induction n generalizing a pt m with
  | zero => exact ⟨fun j hj => absurd hj (Nat.not_lt_zero j), fun v _ _ => by omega⟩
  | succ n ih =>
    have hnext' : (a + PGSIZE + PGSIZE) / PGSIZE = (a + PGSIZE) / PGSIZE + 1 :=
      Nat.add_div_right _ (by decide)
    simp only [unmapLoop, bind_eq_ok] at h
    obtain ⟨r, hwalk, h⟩ := h
    have hva := (walk_eq_ok hwalk).1
    have hcons : ∀ pt₁ : PageTable, Unmappable pt₁ (a + PGSIZE) n →
        (∀ v, v ≠ a / PGSIZE → pt₁.entry v = pt.entry v) →
        ((pt.entry (a / PGSIZE)).getLsbD 0 = true →
          pteFlags (pt.entry (a / PGSIZE)) ≠ PTE_V) → Unmappable pt a (n + 1) := by
      intro pt₁ hrest hsame hfirst
      refine ⟨fun j hj => ?_, fun v hlo hhi hv => ?_⟩
      · cases j with
        | zero => simpa using hva
        | succ j =>
          have hlt := hrest.below j (Nat.lt_of_succ_lt_succ hj)
          rw [Nat.succ_mul]
          omega
      · by_cases hva : v = a / PGSIZE
        · subst hva
          exact hfirst hv
        · rw [← hsame v hva] at hv ⊢
          exact hrest.leaf v (by omega) (by omega) hv
    cases r with
    | none =>
      have hclear := PageTable.entry_of_none (walk_eq_ok hwalk).2.symm
      exact hcons pt (ih h hnext') (fun _ _ => rfl) (by simp [hclear])
    | some pte =>
      obtain ⟨-, hsome, hpte⟩ := walk_valid hwalk
      cases hv : pte.getLsbD 0 with
      | false =>
        simp only [Pte.has_V, hv, Bool.not_false, if_true] at h
        exact hcons pt (ih h hnext') (fun _ _ => rfl) fun hvalid => by
          rw [hpte, hv] at hvalid
          cases hvalid
      | true =>
        simp only [Pte.has_V, hv, Bool.not_true, Bool.false_eq_true, if_false] at h
        split at h
        · cases h
        rename_i hleaf
        have hrest : ∃ m₁, unmapLoop L doFree n (a + PGSIZE) (pt.setPte (a / PGSIZE) 0) m₁ =
            .ok x := by
          cases doFree with
          | false => exact ⟨m, h⟩
          | true =>
            simp only [if_true, bind_eq_ok] at h
            obtain ⟨m₁, -, h⟩ := h
            exact ⟨m₁, h⟩
        obtain ⟨m₁, hrest⟩ := hrest
        refine hcons _ (ih hrest hnext') (fun v hv => ?_) fun _ => by rw [hpte]; exact hleaf
        rw [PageTable.entry_setPte hsome, if_neg hv]

/-- What a call of `uvmunmap` that returns has done. -/
theorem uvmunmap_ok {va n : ℕ} (h : uvmunmap L pt va n doFree m = .ok (pt', m')) :
    va % PGSIZE = 0 ∧ Unmappable pt va n ∧ pt' = pt.clear (va / PGSIZE) n ∧
      freeFrames L doFree (pt.frames (va / PGSIZE) n) m = .ok m' := by
  unfold uvmunmap at h
  split at h
  · cases h
  rename_i hmod
  have hok := unmappable_of_ok h
  rw [unmapLoop_eq hok] at h
  simp only [bind_eq_ok, pure_eq_ok, Prod.mk.injEq] at h
  obtain ⟨m₁, hfree, rfl, rfl⟩ := h
  exact ⟨not_not.mp hmod, hok, rfl, hfree⟩

/-! ## Destruction -/

/-- The page-table pages of one table. -/
inductive TableSlot where
  | root
  | mid (x : ℕ)
  | low (x : ℕ)
  deriving DecidableEq

namespace PageTable

def tablePage (pt : PageTable) : TableSlot → Option ℕ
  | .root => some pt.root
  | .mid x => pt.midPage x
  | .low x => pt.lowPage x

/-- The level-0 pages below the first `n` entries of the level-1 page `x`. -/
def lowSlots (pt : PageTable) (x n : ℕ) : List TableSlot :=
  ((List.range n).filter fun k => (pt.low (2 ^ 9 * x + k)).isSome).map fun k => .low (2 ^ 9 * x + k)

/-- All that hangs off entry `x` of the root, in the order of `freewalk`. -/
def midSlots (pt : PageTable) (x : ℕ) : List TableSlot :=
  if (pt.mid x).isSome then pt.lowSlots x (2 ^ 9) ++ [.mid x] else []

/-- All page-table pages, in the order of `freewalk`. -/
def tableSlots (pt : PageTable) : List TableSlot :=
  (List.range (2 ^ 9)).flatMap pt.midSlots ++ [.root]

/-- No entry is valid. The root has twice the entries that `MAXVA` allows for. -/
def NoLeaf (pt : PageTable) : Prop := ∀ v < 2 ^ 27, (pt.entry v).getLsbD 0 = false

end PageTable

theorem freewalkLeaf_ok_iff {j n : ℕ} :
    freewalkLeaf pt j n = .ok () ↔ ∀ k < n, (pt.pte (2 ^ 9 * j + k)).getLsbD 0 = false := by
  induction n with
  | zero => simp [freewalkLeaf]
  | succ n ih =>
    have hlast : freewalkLeaf pt j (n + 1) = .ok () ↔
        freewalkLeaf pt j n = .ok () ∧ (pt.pte (2 ^ 9 * j + n)).getLsbD 0 = false := by
      simp only [freewalkLeaf, bind_eq_ok, Pte.has_V]
      constructor
      · rintro ⟨u, hrest, h⟩
        refine ⟨hrest, ?_⟩
        split at h
        · split at h <;> cases h
        · rename_i hv
          exact Bool.eq_false_iff.mpr hv
      · rintro ⟨hrest, hv⟩
        exact ⟨(), hrest, by simp only [hv, Bool.false_eq_true, if_false, pure_eq]⟩
    rw [hlast, ih]
    constructor
    · rintro ⟨hrest, hv⟩ k hk
      rcases Nat.lt_succ_iff_lt_or_eq.mp hk with hlt | rfl
      · exact hrest k hlt
      · exact hv
    · exact fun h => ⟨fun k hk => h k (hk.trans (Nat.lt_succ_self n)), h n (Nat.lt_succ_self n)⟩

/-- The entries below one level-0 page are all clear. -/
def LowClear (pt : PageTable) (z : ℕ) : Prop :=
  (pt.low z).isSome → ∀ v, px1 v = z → (pt.pte v).getLsbD 0 = false

theorem freewalkLeaf_of_lowClear {z : ℕ} (h : LowClear pt z) (hsome : (pt.low z).isSome) :
    freewalkLeaf pt z (2 ^ 9) = .ok () := by
  refine freewalkLeaf_ok_iff.mpr fun k hk => h hsome _ ?_
  rw [px1]
  omega

theorem lowClear_of_freewalkLeaf {z : ℕ} (h : freewalkLeaf pt z (2 ^ 9) = .ok ()) :
    LowClear pt z := by
  rintro - v rfl
  have hclear := freewalkLeaf_ok_iff.mp h (v % 2 ^ 9) (Nat.mod_lt _ (by decide))
  rwa [px1, Nat.div_add_mod] at hclear

theorem lowSlots_succ (pt : PageTable) (x n : ℕ) :
    pt.lowSlots x (n + 1) = pt.lowSlots x n ++
      if (pt.low (2 ^ 9 * x + n)).isSome then [.low (2 ^ 9 * x + n)] else [] := by
  simp only [PageTable.lowSlots, List.range_succ, List.filter_append, List.map_append]
  congr 1
  cases h : (pt.low (2 ^ 9 * x + n)).isSome with
  | false => simp only [List.filter_cons, List.filter_nil, h, Bool.false_eq_true, if_false,
      List.map_nil]
  | true => simp only [List.filter_cons, List.filter_nil, h, if_true, List.map_cons, List.map_nil]

variable {x n : ℕ}

theorem freewalkLow_eq (hx : (pt.midPage x).isSome) (hn : n ≤ 2 ^ 9)
    (h : ∀ k < n, LowClear pt (2 ^ 9 * x + k)) (m : KMem) :
    freewalkLow L pt x n m = kfreeAll L ((pt.lowSlots x n).filterMap pt.tablePage) m := by
  induction n with
  | zero => rfl
  | succ n ih =>
    have hrest := ih (Nat.le_of_succ_le hn) fun k hk => h k (hk.trans (Nat.lt_succ_self n))
    have hdiv : (2 ^ 9 * x + n) / 2 ^ 9 = x := by omega
    rw [freewalkLow, hrest, lowSlots_succ, List.filterMap_append, kfreeAll_append]
    refine bind_congr fun m₁ => ?_
    cases hlow : pt.low (2 ^ 9 * x + n) with
    | none => rfl
    | some page =>
      have hleaf := freewalkLeaf_of_lowClear (h n (Nat.lt_succ_self n)) (by rw [hlow]; rfl)
      have hpage : pt.tablePage (.low (2 ^ 9 * x + n)) = some page := by
        simp only [PageTable.tablePage, PageTable.lowPage, hdiv, hx, if_true, hlow]
      simp only [hleaf, ok_bind, Option.isSome_some, if_true,
        List.filterMap_cons_some hpage, List.filterMap_nil, kfreeAll]
      exact (bind_pure _).symm

theorem lowClear_of_freewalkLow (hcall : freewalkLow L pt x n m = .ok m') :
    ∀ k < n, LowClear pt (2 ^ 9 * x + k) := by
  induction n generalizing m' with
  | zero => exact fun k hk => absurd hk (Nat.not_lt_zero k)
  | succ n ih =>
    simp only [freewalkLow, bind_eq_ok] at hcall
    obtain ⟨m₁, hrest, hcall⟩ := hcall
    intro k hk
    rcases Nat.lt_succ_iff_lt_or_eq.mp hk with hlt | rfl
    · exact ih hrest k hlt
    · cases hlow : pt.low (2 ^ 9 * x + k) with
      | none =>
        intro hsome
        rw [hlow] at hsome
        cases hsome
      | some page =>
        simp only [hlow, bind_eq_ok] at hcall
        obtain ⟨u, hleaf, -⟩ := hcall
        exact lowClear_of_freewalkLeaf hleaf

/-- The entries below one level-1 page are all clear. -/
def MidClear (pt : PageTable) (x : ℕ) : Prop :=
  (pt.mid x).isSome → ∀ k < 2 ^ 9, LowClear pt (2 ^ 9 * x + k)

theorem freewalkMid_eq (hn : n ≤ 2 ^ 9) (h : ∀ x < n, MidClear pt x) (m : KMem) :
    freewalkMid L pt n m =
      kfreeAll L (((List.range n).flatMap pt.midSlots).filterMap pt.tablePage) m := by
  induction n with
  | zero => rfl
  | succ n ih =>
    have hrest := ih (Nat.le_of_succ_le hn) fun x hx => h x (hx.trans (Nat.lt_succ_self n))
    rw [freewalkMid, hrest, List.range_succ, List.flatMap_append, List.filterMap_append,
      kfreeAll_append]
    refine bind_congr fun m₁ => ?_
    rw [List.flatMap_singleton, PageTable.midSlots]
    cases hmid : pt.mid n with
    | none => rfl
    | some page =>
      have hpage : pt.tablePage (.mid n) = some page := by
        simp only [PageTable.tablePage, PageTable.midPage, if_pos (show n < 2 ^ 9 from hn), hmid]
      have hx : (pt.midPage n).isSome := by
        rw [show pt.midPage n = some page from hpage]
        rfl
      have hclear := h n (Nat.lt_succ_self n) (by rw [hmid]; rfl)
      simp only [Option.isSome_some, if_true, List.filterMap_append, kfreeAll_append,
        List.filterMap_cons_some hpage, List.filterMap_nil, freewalkLow_eq hx le_rfl hclear]
      refine bind_congr fun m₂ => ?_
      exact (bind_pure _).symm

theorem midClear_of_freewalkMid (hcall : freewalkMid L pt n m = .ok m') :
    ∀ x < n, MidClear pt x := by
  induction n generalizing m' with
  | zero => exact fun x hx => absurd hx (Nat.not_lt_zero x)
  | succ n ih =>
    simp only [freewalkMid, bind_eq_ok] at hcall
    obtain ⟨m₁, hrest, hcall⟩ := hcall
    intro x hx
    rcases Nat.lt_succ_iff_lt_or_eq.mp hx with hlt | rfl
    · exact ih hrest x hlt
    · cases hmid : pt.mid x with
      | none =>
        intro hsome
        rw [hmid] at hsome
        cases hsome
      | some page =>
        simp only [hmid, bind_eq_ok] at hcall
        obtain ⟨m₂, hlow, -⟩ := hcall
        exact fun _ => lowClear_of_freewalkLow hlow

theorem px1_div (v : ℕ) : px1 v / 2 ^ 9 = px2 v := by
  rw [px1, px2, Nat.div_div_eq_div_mul]
  rfl

theorem noLeaf_iff : pt.NoLeaf ↔ ∀ x < 2 ^ 9, MidClear pt x := by
  constructor
  · intro h x hx hmid k hk hlow v hv
    have hdiv := px1_div v
    have hpx : px2 v = x := by
      rw [← hdiv, hv]
      omega
    have hentry : pt.entry v = pt.pte v :=
      PageTable.entry_of_pte? (if_pos ⟨by rw [hpx]; exact hmid, by rw [hv]; exact hlow⟩)
    rw [← hentry]
    refine h v ?_
    rw [px2] at hpx
    omega
  · intro h v hlt
    by_contra hv
    rw [Bool.not_eq_false] at hv
    have hsome : (pt.mid (px2 v)).isSome ∧ (pt.low (px1 v)).isSome := by
      by_contra hno
      have hpte := PageTable.pte?_isSome_of_valid hv
      rw [PageTable.pte?, if_neg hno] at hpte
      cases hpte
    have hentry : pt.entry v = pt.pte v := PageTable.entry_of_pte? (if_pos hsome)
    have hdiv := px1_div v
    have hlow : 2 ^ 9 * px2 v + px1 v % 2 ^ 9 = px1 v := by
      rw [← hdiv]
      exact Nat.div_add_mod _ _
    have hclear := h (px2 v) (by rw [px2]; omega) hsome.1 (px1 v % 2 ^ 9)
      (Nat.mod_lt _ (by decide))
    rw [hlow] at hclear
    rw [hentry, hclear hsome.2 v rfl] at hv
    cases hv

/-- `freewalk` frees the page-table pages in order. -/
theorem freewalk_eq (h : pt.NoLeaf) (m : KMem) :
    freewalk L pt m = kfreeAll L (pt.tableSlots.filterMap pt.tablePage) m := by
  rw [freewalk, freewalkMid_eq le_rfl (noLeaf_iff.mp h), PageTable.tableSlots,
    List.filterMap_append, kfreeAll_append]
  refine bind_congr fun m₁ => ?_
  exact (bind_pure _).symm

theorem noLeaf_of_freewalk (h : freewalk L pt m = .ok m') : pt.NoLeaf := by
  simp only [freewalk, bind_eq_ok] at h
  obtain ⟨m₁, hmids, -⟩ := h
  exact noLeaf_iff.mpr (midClear_of_freewalkMid hmids)

/-- `freewalk` comes across every page-table page once. -/
theorem tableSlots_nodup (pt : PageTable) : pt.tableSlots.Nodup := by
  have hlow : ∀ x, (pt.lowSlots x (2 ^ 9)).Nodup := fun x =>
    (List.nodup_range.filter _).map fun k k' hkk => by
      simp only [TableSlot.low.injEq] at hkk
      omega
  have hmid : ∀ x, (pt.midSlots x).Nodup := by
    intro x
    unfold PageTable.midSlots
    split
    · refine List.nodup_append.mpr ⟨hlow x, List.nodup_singleton _, ?_⟩
      simp only [PageTable.lowSlots, List.mem_map, List.mem_singleton]
      rintro _ ⟨k, -, rfl⟩ _ rfl
      exact TableSlot.noConfusion
    · exact List.nodup_nil
  have hbelow : ∀ x, ∀ k ∈ pt.midSlots x, k = .mid x ∨ ∃ z, z / 2 ^ 9 = x ∧ k = .low z := by
    intro x k hk
    unfold PageTable.midSlots at hk
    split at hk
    · simp only [PageTable.lowSlots, List.mem_append, List.mem_map, List.mem_filter,
        List.mem_range, List.mem_singleton] at hk
      rcases hk with ⟨z, ⟨hz, -⟩, rfl⟩ | rfl
      · exact Or.inr ⟨_, by omega, rfl⟩
      · exact Or.inl rfl
    · cases hk
  refine List.nodup_append.mpr ⟨?_, List.nodup_singleton _, ?_⟩
  · refine List.nodup_flatMap.mpr ⟨fun x _ => hmid x, ?_⟩
    refine List.nodup_range.imp fun {x x'} hne k hk hk' => hne ?_
    rcases hbelow x k hk with rfl | ⟨z, hz, rfl⟩ <;>
      rcases hbelow x' _ hk' with heq | ⟨z', hz', heq⟩
    · exact TableSlot.mid.inj heq
    · cases heq
    · cases heq
    · rw [← hz, ← hz', TableSlot.low.inj heq]
  · rintro k hk _ hroot rfl
    rw [List.mem_singleton] at hroot
    obtain ⟨x, -, hk⟩ := List.mem_flatMap.mp hk
    rcases hbelow x k hk with rfl | ⟨z, -, rfl⟩ <;> cases hroot

theorem mem_tableSlots_iff {k : TableSlot} : k ∈ pt.tableSlots ↔ (pt.tablePage k).isSome := by
  simp only [PageTable.tableSlots, List.mem_append, List.mem_flatMap, List.mem_range,
    List.mem_singleton, PageTable.midSlots, PageTable.lowSlots]
  cases k with
  | root => simp [PageTable.tablePage]
  | mid x =>
    simp only [PageTable.tablePage, PageTable.midPage, reduceCtorEq, or_false]
    constructor
    · rintro ⟨y, hy, hmem⟩
      split at hmem
      · rename_i hsome
        simp only [List.mem_append, List.mem_map, reduceCtorEq, and_false, exists_false,
          List.mem_singleton, TableSlot.mid.injEq, false_or] at hmem
        subst hmem
        rwa [if_pos hy]
      · cases hmem
    · intro hsome
      split at hsome
      · rename_i hx
        exact ⟨x, hx, by rw [if_pos hsome]; simp⟩
      · cases hsome
  | low z =>
    simp only [PageTable.tablePage, PageTable.lowPage, PageTable.midPage, reduceCtorEq, or_false]
    constructor
    · rintro ⟨y, hy, hmem⟩
      split at hmem
      · rename_i hsome
        simp only [List.mem_append, List.mem_map, List.mem_filter, List.mem_range,
          TableSlot.low.injEq, List.mem_singleton, reduceCtorEq, or_false] at hmem
        obtain ⟨k, ⟨hk, hlow⟩, rfl⟩ := hmem
        have hdiv : (2 ^ 9 * y + k) / 2 ^ 9 = y := by omega
        simp only [hdiv, if_pos hy, hsome, if_true]
        exact hlow
      · cases hmem
    · intro hsome
      by_cases hz : z / 2 ^ 9 < 2 ^ 9
      · simp only [if_pos hz] at hsome
        cases hmid : (pt.mid (z / 2 ^ 9)).isSome with
        | false =>
          rw [hmid] at hsome
          cases hsome
        | true =>
          refine ⟨z / 2 ^ 9, hz, ?_⟩
          rw [hmid, if_pos rfl] at hsome
          have hmod := Nat.div_add_mod z (2 ^ 9)
          rw [if_pos hmid]
          refine List.mem_append.mpr (Or.inl (List.mem_map.mpr ⟨z % 2 ^ 9, ?_, by rw [hmod]⟩))
          rw [List.mem_filter, List.mem_range, hmod]
          exact ⟨Nat.mod_lt _ (by decide), hsome⟩
      · simp only [if_neg hz] at hsome
        cases hsome

/-! ## Copies and new processes -/

/-- A turn of the loop of `uvmcopy` skips a page that is not mapped and copies any other. -/
theorem copyLoop_succ {n : ℕ} {old new : PageTable} {x : ℤ × PageTable × PageTable × KMem}
    (h : copyLoop L (kalloc L) (n + 1) a old new m = .ok x) :
    ((old.entry (a / PGSIZE)).getLsbD 0 = false ∧
        copyLoop L (kalloc L) n (a + PGSIZE) old new m = .ok x) ∨
      (old.entry (a / PGSIZE)).getLsbD 0 = true ∧ ∃ mem m₁ new₁ m₂,
        kalloc L m = .ok (mem, m₁) ∧
        mappages (kalloc L) new a PGSIZE mem (cowFlags (pteFlags (old.entry (a / PGSIZE))))
          (m₁.copyPage mem (pte2pa (old.entry (a / PGSIZE)))) = .ok (0, new₁, m₂) ∧
        copyLoop L (kalloc L) n (a + PGSIZE) (markCow old (a / PGSIZE) (old.entry (a / PGSIZE)))
          new₁ (kaddrefcnt L (pte2pa (old.entry (a / PGSIZE))) m₂).2 = .ok x := by
  simp only [copyLoop, bind_eq_ok] at h
  obtain ⟨e, hwalk, h⟩ := h
  cases e with
  | none =>
    have hclear := PageTable.entry_of_none (walk_eq_ok hwalk).2.symm
    exact Or.inl ⟨by rw [hclear]; rfl, h⟩
  | some pte =>
    obtain ⟨-, -, rfl⟩ := walk_valid hwalk
    cases hv : (old.entry (a / PGSIZE)).getLsbD 0 with
    | false =>
      simp only [Pte.has_V, hv, Bool.not_false, if_true] at h
      exact Or.inl ⟨rfl, h⟩
    | true =>
      simp only [Pte.has_V, hv, Bool.not_true, Bool.false_eq_true, if_false,
        bind_eq_ok] at h
      obtain ⟨⟨mem, m₁⟩, halloc, h⟩ := h
      simp only [if_neg (kalloc_ne_null halloc), bind_eq_ok] at h
      obtain ⟨⟨r₁, new₁, m₂⟩, hmap, h⟩ := h
      obtain ⟨rfl, -⟩ := mappages_mapped hmap
      simp only [ne_eq, not_true_eq_false, if_false] at h
      exact Or.inr ⟨rfl, mem, m₁, new₁, m₂, halloc, hmap, h⟩

theorem copyLoop_result {n : ℕ} {old new old' new' : PageTable}
    (h : copyLoop L (kalloc L) n a old new m = .ok (r, old', new', m')) : r = 0 := by
  induction n generalizing a old new m with
  | zero =>
    cases h
    rfl
  | succ n ih =>
    obtain ⟨-, h⟩ | ⟨-, mem, m₁, new₁, m₂, -, -, h⟩ := copyLoop_succ h
    · exact ih h
    · exact ih h

theorem uvmcreate_ok {r : Option PageTable} (h : uvmcreate (kalloc L) m = .ok (r, m')) :
    ∃ page m₁, kalloc L m = .ok (page, m₁) ∧ m' = m₁.memset page 0 ∧
      r = some ⟨page, fun _ => none, fun _ => none, fun _ => 0⟩ := by
  simp only [uvmcreate, bind_eq_ok] at h
  obtain ⟨⟨page, m₁⟩, halloc, h⟩ := h
  simp only [if_neg (kalloc_ne_null halloc)] at h
  cases h
  exact ⟨page, m₁, halloc, rfl, rfl⟩

theorem uvmfirst_ok {src : List (BitVec 8)} (h : uvmfirst (kalloc L) pt src m = .ok (pt', m')) :
    ∃ mem m₁ r m₂, kalloc L m = .ok (mem, m₁) ∧ m' = m₂.storeBytes mem src ∧
      mappages (kalloc L) pt 0 PGSIZE mem (PTE_W ||| PTE_R ||| PTE_X ||| PTE_U) (m₁.memset mem 0) =
        .ok (r, pt', m₂) := by
  unfold uvmfirst at h
  split at h
  · cases h
  simp only [bind_eq_ok] at h
  obtain ⟨⟨mem, m₁⟩, hmem, h⟩ := h
  simp only [if_neg (kalloc_ne_null hmem), bind_eq_ok, pure_eq_ok, Prod.mk.injEq] at h
  obtain ⟨⟨r, pt₁, m₂⟩, hmap, rfl, rfl⟩ := h
  exact ⟨mem, m₁, r, m₂, hmem, rfl, hmap⟩

theorem procPagetable_ok {trapframe : ℕ} {r : Option PageTable}
    (h : procPagetable L (kalloc L) trapframe m = .ok (r, m')) :
    ∃ pt₀ m₀ pt₁ m₁ pt₂, uvmcreate (kalloc L) m = .ok (some pt₀, m₀) ∧
      mappages (kalloc L) pt₀ TRAMPOLINE PGSIZE L.trampoline (PTE_R ||| PTE_X) m₀ =
        .ok (0, pt₁, m₁) ∧
      mappages (kalloc L) pt₁ TRAPFRAME PGSIZE trapframe (PTE_R ||| PTE_W) m₁ =
        .ok (0, pt₂, m') ∧ r = some pt₂ := by
  simp only [procPagetable, bind_eq_ok] at h
  obtain ⟨⟨r₀, m₀⟩, hcreate, h⟩ := h
  obtain ⟨page, -, -, -, rfl⟩ := uvmcreate_ok hcreate
  simp only [bind_eq_ok] at h
  obtain ⟨⟨r₁, pt₁, m₁⟩, hmap₁, h⟩ := h
  obtain ⟨rfl, -⟩ := mappages_mapped hmap₁
  simp only [lt_irrefl, if_false, bind_eq_ok] at h
  obtain ⟨⟨r₂, pt₂, m₂⟩, hmap₂, h⟩ := h
  obtain ⟨rfl, -⟩ := mappages_mapped hmap₂
  simp only [lt_irrefl, if_false] at h
  cases h
  exact ⟨_, m₀, pt₁, m₁, pt₂, hcreate, hmap₁, hmap₂, rfl⟩

theorem firstProc_some {s : VmState} {test : Proc → Bool} {i : Fin NPROC}
    (h : firstProc s test = some i) : test (s.proc i) = true := by
  have := List.find?_some h
  exact this

variable {s s' s₁ : VmState} {p np : Fin NPROC} {trapframe : ℕ} {old new old' new' : PageTable}

/-- `allocproc` finds no slot and changes nothing, or fills an unused one. -/
theorem allocproc_ok {r : Option (Fin NPROC)} (h : allocproc L (kalloc L) s = .ok (r, s')) :
    (r = none ∧ s' = s ∧ ∀ q, (s.proc q).state ≠ .UNUSED) ∨
      ∃ np trapframe m₁ pt m₂, r = some np ∧ (s.proc np).state = .UNUSED ∧
        kalloc L s.mem = .ok (trapframe, m₁) ∧
        procPagetable L (kalloc L) trapframe m₁ = .ok (some pt, m₂) ∧
        s' = { s with mem := m₂ }.setProc np
          { s.proc np with state := .USED, trapframe := trapframe, pagetable := some pt } := by
  unfold allocproc at h
  cases hfind : firstProc s fun pr => pr.state = .UNUSED with
  | none =>
    simp only [hfind, Except.ok.injEq, Prod.mk.injEq] at h
    refine Or.inl ⟨h.1.symm, h.2.symm, fun q => ?_⟩
    simpa using List.find?_eq_none.mp hfind q (List.mem_finRange q)
  | some np =>
    simp only [hfind, bind_eq_ok] at h
    obtain ⟨⟨trapframe, m₁⟩, halloc, h⟩ := h
    have hne : ¬ trapframe = 0 := kalloc_ne_null halloc
    simp only [if_neg hne, bind_eq_ok] at h
    obtain ⟨⟨r₁, m₂⟩, hpt, h⟩ := h
    obtain ⟨-, -, -, -, pt, -, -, -, rfl⟩ := procPagetable_ok hpt
    cases h
    exact Or.inr ⟨np, trapframe, m₁, pt, m₂, rfl, of_decide_eq_true (firstProc_some hfind),
      halloc, hpt, rfl⟩

/-- The record of the child after `fork`. -/
def childProc (pr parent : Proc) (p : Fin NPROC) (trapframe : ℕ) (pt : PageTable) : Proc :=
  { pr with
    state := .RUNNABLE, trapframe := trapframe, pagetable := some pt, sz := parent.sz,
    parent := some p }

/-- The calls of a `fork` that returns a child, and the process table it leaves. -/
structure ForkDone (L : Layout) (s s₁ s' : VmState) (p np : Fin NPROC) (trapframe : ℕ)
    (old new old' new' : PageTable) : Prop where
  alloc : allocproc L (kalloc L) s = .ok (some np, s₁)
  unused : (s.proc np).state = .UNUSED
  alloc_proc : s₁.proc = update s.proc np
    { s.proc np with state := .USED, trapframe := trapframe, pagetable := some new }
  old_table : (s₁.proc p).pagetable = some old
  copy : copyLoop L (kalloc L) (pgroundup (s.proc p).sz / PGSIZE) 0 old new s₁.mem =
    .ok (0, old', new', s'.mem)
  proc : s'.proc = update
    (update s.proc p { s.proc p with pagetable := some old' }) np
    (childProc (s.proc np) (s.proc p) p trapframe new')
  initproc : s'.initproc = s.initproc

theorem fork_ok {r : Option (Fin NPROC)} (h : fork L (kalloc L) p s = .ok (r, s')) :
    (r = none ∧ s' = s ∧ ∀ q, (s.proc q).state ≠ .UNUSED) ∨
      ∃ np s₁ trapframe old new old' new', r = some np ∧
        ForkDone L s s₁ s' p np trapframe old new old' new' := by
  simp only [fork, bind_eq_ok] at h
  obtain ⟨⟨r₁, s₁⟩, halloc, h⟩ := h
  rcases allocproc_ok halloc with
    ⟨rfl, rfl, hfull⟩ | ⟨np, trapframe, m₁, pt, m₂, rfl, hunused, -, -, hs₁⟩
  · cases h
    exact Or.inl ⟨rfl, rfl, hfull⟩
  have hproc : s₁.proc = update s.proc np
      { s.proc np with state := .USED, trapframe := trapframe, pagetable := some pt } := by
    rw [hs₁]
    rfl
  have hnew : (s₁.proc np).pagetable = some pt := by rw [hproc, update_self]
  have hsz : (s₁.proc p).sz = (s.proc p).sz := by
    rw [hproc]
    by_cases hp : p = np
    · rw [hp, update_self]
    · rw [update_of_ne hp]
  cases hold : (s₁.proc p).pagetable with
  | none => simp [hold] at h
  | some old =>
    simp only [hold, hnew, bind_eq_ok, uvmcopy, hsz] at h
    obtain ⟨⟨r₂, old', new', m'⟩, hcopy, h⟩ := h
    obtain rfl := copyLoop_result hcopy
    simp only [lt_irrefl, if_false, pure_eq_ok, Prod.mk.injEq] at h
    obtain ⟨rfl, rfl⟩ := h
    refine Or.inr ⟨np, s₁, trapframe, old, pt, old', new', rfl, halloc, hunused, hproc, hold,
      hcopy, ?_, by rw [hs₁]; rfl⟩
    funext q
    by_cases hq : q = np
    · subst hq
      by_cases hp : p = q
      · subst hp
        simp [VmState.setProc, VmState.setTable, childProc, hproc]
      · simp [VmState.setProc, VmState.setTable, childProc, hproc, hp, Ne.symm hp]
    · by_cases hqp : q = p
      · subst hqp
        simp [VmState.setProc, VmState.setTable, hq, hproc]
      · simp [VmState.setProc, VmState.setTable, hq, hqp, hproc]

namespace ForkDone

variable (h : ForkDone L s s₁ s' p np trapframe old new old' new')
include h

theorem ne (hp : (s.proc p).state ≠ .UNUSED) : p ≠ np := by
  rintro rfl
  exact hp h.unused

theorem before (hne : p ≠ np) : (s.proc p).pagetable = some old := by
  rw [← h.old_table, h.alloc_proc, update_of_ne hne]

theorem new_table : (s₁.proc np).pagetable = some new := by
  rw [h.alloc_proc, update_self]

theorem parent (hne : p ≠ np) : s'.proc p = { s.proc p with pagetable := some old' } := by
  rw [h.proc, update_of_ne hne, update_self]

theorem child : s'.proc np = childProc (s.proc np) (s.proc p) p trapframe new' := by
  rw [h.proc, update_self]

theorem other {q : Fin NPROC} (hqp : q ≠ p) (hqn : q ≠ np) : s'.proc q = s.proc q := by
  rw [h.proc, update_of_ne hqn, update_of_ne hqp]

end ForkDone

end LearnOS
