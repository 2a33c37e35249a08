import LearnOS.Vm.Teardown
import Mathlib.Data.Set.Insert

/-!
# The loop of `uvmcopy`

The loop gives the child a private copy of every mapped page of the parent in its range,
with the same flags, and makes the writable ones copy-on-write in both tables. It raises
the reference count of the page of the parent.

## Main results

`copyLoop_tables`: the entries of both tables after the loop.
`copyLoop_covers`: the levels of the table of the child.
`copyLoop_memory`: the pages of both processes and all others.
-/

namespace LearnOS

open BuddySystem Ownership Function Kres

variable {L : Layout} {pt pt' old new old' new' : PageTable} {m m' m'' : KMem}
  {live live' live'' : List (ℕ × ℕ)} {S C : Set ℕ} {v a n : ℕ} {r : ℤ}

/-! ## Entries -/

/-- Equal but for the bits that record a pending copy. -/
structure Pte.Similar (a b : Pte) : Prop where
  valid : a.getLsbD 0 = b.getLsbD 0
  perms : Pte.perms a = Pte.perms b

theorem Pte.Similar.refl (a : Pte) : Pte.Similar a a := ⟨rfl, rfl⟩

theorem Pte.Similar.trans {a b c : Pte} (h : Pte.Similar a b) (h' : Pte.Similar b c) :
    Pte.Similar a c := ⟨h.valid.trans h'.valid, h.perms.trans h'.perms⟩

theorem flagsOnly_cowFlags (pte : Pte) : FlagsOnly (cowFlags (pteFlags pte)) := by
  unfold cowFlags
  split
  · exact ((flagsOnly_pteFlags pte).or (flagsOnly_twoPow (by decide))).and _
  · exact flagsOnly_pteFlags pte

theorem getLsbD_cowFlags {pte : Pte} {k : ℕ} (hk : k < 10) (hW : k ≠ 2) (hF : k ≠ 8) :
    (cowFlags (pteFlags pte)).getLsbD k = pte.getLsbD k := by
  have hflag : (pteFlags pte).getLsbD k = pte.getLsbD k := by
    rw [getLsbD_pteFlags, decide_eq_true hk, Bool.and_true]
  unfold cowFlags
  split
  · rw [getLsbD_cowFlag (by omega), hflag]
    simp [hW, hF]
  · exact hflag

theorem cowFlags_writable (pte : Pte) :
    ((cowFlags (pteFlags pte)).getLsbD 2 || (cowFlags (pteFlags pte)).getLsbD 8) =
      (pte.getLsbD 2 || pte.getLsbD 8) := by
  have hflag : ∀ k < 10, (pteFlags pte).getLsbD k = pte.getLsbD k := by
    intro k hk
    rw [getLsbD_pteFlags, decide_eq_true hk, Bool.and_true]
  unfold cowFlags
  split
  · next hW =>
      rw [Pte.has_W, hflag 2 (by decide)] at hW
      rw [getLsbD_cowFlag (by decide), getLsbD_cowFlag (by decide), hW]
      simp
  · rw [hflag 2 (by decide), hflag 8 (by decide)]

/-- Flags decide about everything but the page. -/
theorem similar_of_flags {a b : Pte} (h : ∀ k < 10, a.getLsbD k = b.getLsbD k) :
    Pte.Similar a b := by
  refine ⟨h 0 (by decide), ?_⟩
  simp only [Pte.perms, h 1 (by decide), h 2 (by decide), h 4 (by decide), h 8 (by decide)]

/-- The word of a page of the parent after the loop: a writable page becomes
copy-on-write. -/
def cowPte (pte : Pte) : Pte :=
  if Pte.has (pteFlags pte) PTE_W then pa2pte (pte2pa pte) ||| cowFlags (pteFlags pte) else pte

theorem entry_markCow_eq (hv : (old.entry v).getLsbD 0 = true) (w : ℕ) :
    (markCow old v (old.entry v)).entry w =
      if w = v then cowPte (old.entry v) else old.entry w := by
  have hsome : (old.pte? v).isSome := by
    rw [PageTable.pte?_isSome_of_valid hv]
    rfl
  unfold markCow cowPte
  split
  · rw [PageTable.entry_setPte hsome]
  · split
    · next hw => rw [hw]
    · rfl

theorem pte2pa_cowPte (pte : Pte) : pte2pa (cowPte pte) = pte2pa pte := by
  unfold cowPte
  split
  · exact pte2pa_pa2pte_or (pte2pa_mod _) (pte2pa_lt _) (flagsOnly_cowFlags _)
  · rfl

theorem pte?_isSome_markCow (old : PageTable) (v : ℕ) (pte : Pte) (w : ℕ) :
    ((markCow old v pte).pte? w).isSome = (old.pte? w).isSome := by
  unfold markCow
  split
  · exact PageTable.pte?_isSome_setPte _
  · rfl

theorem getLsbD_cowPte (pte : Pte) {k : ℕ} (hk : k < 10) :
    (cowPte pte).getLsbD k = (cowFlags (pteFlags pte)).getLsbD k := by
  unfold cowPte
  split
  · exact getLsbD_pa2pte_or _ _ hk
  · next hW =>
      rw [cowFlags, if_neg hW, getLsbD_pteFlags, decide_eq_true hk, Bool.and_true]

/-- Copy-on-write pages are not writable, and the pages that could be written are
marked. -/
theorem cowPte_bits (pte : Pte) :
    (cowPte pte).getLsbD 0 = pte.getLsbD 0 ∧ (cowPte pte).getLsbD 1 = pte.getLsbD 1 ∧
      (cowPte pte).getLsbD 2 = false ∧ (cowPte pte).getLsbD 4 = pte.getLsbD 4 ∧
      (cowPte pte).getLsbD 8 = (pte.getLsbD 2 || pte.getLsbD 8) := by
  have hkeep := fun k hk hW hF => (getLsbD_cowPte pte (k := k) hk).trans
    (getLsbD_cowFlags hk hW hF)
  have hW : (cowPte pte).getLsbD 2 = false := by
    rw [getLsbD_cowPte pte (by decide), cowFlags]
    split
    · rw [getLsbD_cowFlag (by decide)]
      simp
    · next hno =>
        rw [Pte.has_W] at hno
        exact Bool.eq_false_iff.mpr hno
  refine ⟨hkeep 0 (by decide) (by decide) (by decide), hkeep 1 (by decide) (by decide) (by decide),
    hW, hkeep 4 (by decide) (by decide) (by decide), ?_⟩
  have hwritable := cowFlags_writable pte
  rw [← getLsbD_cowPte pte (by decide), ← getLsbD_cowPte pte (by decide), hW] at hwritable
  simpa using hwritable

theorem similar_cowPte (pte : Pte) : Pte.Similar (cowPte pte) pte := by
  obtain ⟨hV, hR, hW, hU, hF⟩ := cowPte_bits pte
  refine ⟨hV, ?_⟩
  simp only [Pte.perms, hR, hW, hU, hF, Bool.false_or]

theorem pte2pa_markCow (hv : (old.entry v).getLsbD 0 = true) (w : ℕ) :
    pte2pa ((markCow old v (old.entry v)).entry w) = pte2pa (old.entry w) := by
  rw [entry_markCow_eq hv]
  split
  · next hw => rw [hw, pte2pa_cowPte]
  · rfl

theorem valid_markCow (hv : (old.entry v).getLsbD 0 = true) (w : ℕ) :
    ((markCow old v (old.entry v)).entry w).getLsbD 0 = (old.entry w).getLsbD 0 := by
  rw [entry_markCow_eq hv]
  split
  · next hw => rw [hw, (cowPte_bits _).1]
  · rfl

/-- The entry of the copy has the flags that the entry of the parent gets. -/
theorem getLsbD_copyPte {pte : Pte} (hv : pte.getLsbD 0 = true) (pa : ℕ) {k : ℕ} (hk : k < 10) :
    (mappedPte pa (cowFlags (pteFlags pte)) 0).getLsbD k = (cowPte pte).getLsbD k := by
  rw [getLsbD_mappedPte _ _ _ hk, getLsbD_cowPte _ hk]
  by_cases hzero : k = 0
  · subst hzero
    rw [getLsbD_cowFlags hk (by decide) (by decide), hv, Bool.true_or]
  · rw [decide_eq_false (Ne.symm hzero), Bool.or_false]

theorem pte2pa_copyPte {mem : ℕ} (hmem : ¬ badPage L mem) (pte : Pte) :
    pte2pa (mappedPte mem (cowFlags (pteFlags pte)) 0) = mem := by
  rw [mappedPte, Nat.zero_mul, Nat.add_zero, BitVec.or_assoc]
  exact pte2pa_page hmem ((flagsOnly_cowFlags _).or (flagsOnly_twoPow (by decide)))

/-- One page is mapped. -/
theorem mappage_mapped {va pa : ℕ} {perm : Pte}
    (h : mappages (kalloc L) pt va PGSIZE pa perm m = .ok (r, pt', m')) :
    (pt.entry (va / PGSIZE)).getLsbD 0 = false ∧
      pt'.entry (va / PGSIZE) = mappedPte pa perm 0 ∧
      ∀ w ≠ va / PGSIZE, pt'.entry w = pt.entry w := by
  have hmapped := (mappages_mapped h).2
  have hsize : PGSIZE / PGSIZE = 1 := rfl
  rw [hsize] at hmapped
  have hfree := hmapped.free 0 Nat.one_pos
  have hnew := hmapped.new 0 Nat.one_pos
  rw [Nat.add_zero] at hfree hnew
  exact ⟨hfree, hnew, fun w hw => hmapped.old w (by omega)⟩

/-! ## Memory that is taken into use -/

/-- The pages that were in use have kept their counts and contents. -/
structure Grown (L : Layout) (m m' : KMem) (live live' : List (ℕ × ℕ)) : Prop where
  heap : HeapInv L ⟨m'.buddy, live'⟩
  subset : live ⊆ live'
  cnt : ∀ p, (p, 0) ∈ live → m'.cnt (p / PGSIZE) = m.cnt (p / PGSIZE)
  frame : ∀ p, (p, 0) ∈ live → m'.frame (p / PGSIZE) = m.frame (p / PGSIZE)

theorem Grown.trans (h : Grown L m m' live live') (h' : Grown L m' m'' live' live'') :
    Grown L m m'' live live'' where
  heap := h'.heap
  subset := List.Subset.trans h.subset h'.subset
  cnt p hp := (h'.cnt p (h.subset hp)).trans (h.cnt p hp)
  frame p hp := (h'.frame p (h.subset hp)).trans (h.frame p hp)

/-- Blocks have been taken into use, and that is all. -/
def Extends (L : Layout) (m m' : KMem) : Prop :=
  ∀ live, HeapInv L ⟨m.buddy, live⟩ → ∃ live', Grown L m m' live live'

theorem Extends.refl (m : KMem) : Extends L m m :=
  fun live h => ⟨live, h, List.Subset.refl _, fun _ _ => rfl, fun _ _ => rfl⟩

theorem Extends.trans (h : Extends L m m') (h' : Extends L m' m'') : Extends L m m'' := by
  intro live hheap
  obtain ⟨live₁, h₁⟩ := h live hheap
  obtain ⟨live₂, h₂⟩ := h' live₁ h₁.heap
  exact ⟨live₂, h₁.trans h₂⟩

/-- A page that nobody names is taken from the free lists. -/
theorem kalloc_grows (h : HeapInv L ⟨m.buddy, live⟩) {p : ℕ}
    (hcall : kalloc L m = .ok (p, m')) :
    HeapInv L ⟨m'.buddy, (p, 0) :: live⟩ ∧ (p, 0) ∉ live ∧ Grows m live m' ((p, 0) :: live) := by
  have ht : Tracked L m live fun _ : Unit => none :=
    ⟨h, by simp, by simp [Ownership.Exclusive]⟩
  obtain ⟨hnew, ht', hgrow, -⟩ := ht.of_kalloc hcall ()
  exact ⟨ht'.heap, hnew, hgrow⟩

theorem kalloc_extends {p : ℕ} (hcall : kalloc L m = .ok (p, m')) : Extends L m m' := by
  intro live h
  obtain ⟨hheap, -, hgrow⟩ := kalloc_grows h hcall
  exact ⟨_, hheap, hgrow.subset, hgrow.cnt, hgrow.frame⟩

/-- The new page may be written. -/
theorem kalloc_written (h : HeapInv L ⟨m.buddy, live⟩) {p : ℕ}
    (hcall : kalloc L m = .ok (p, m')) (c : ℕ → BitVec 8) :
    Grown L m { m' with frame := update m'.frame (p / PGSIZE) c } live ((p, 0) :: live) := by
  obtain ⟨hheap, hnew, hgrow⟩ := kalloc_grows h hcall
  have hwrite := hgrow.write hheap List.mem_cons_self hnew c
  exact ⟨hheap, hwrite.subset, hwrite.cnt, hwrite.frame⟩

theorem kalloc_memset_extends {p : ℕ} (hcall : kalloc L m = .ok (p, m')) :
    Extends L m (m'.memset p 0) :=
  fun _ h => ⟨_, kalloc_written h hcall fun _ => 0⟩

theorem walkAlloc_extends {pte : Option Pte}
    (hcall : walkAlloc (kalloc L) pt a m = .ok (pte, pt', m')) : Extends L m m' := by
  obtain ⟨-, -, pt₁, m₁, hmid, hlow⟩ := walkAlloc_ok hcall
  have hext₁ : Extends L m m₁ := by
    obtain ⟨-, ⟨-, -, rfl⟩ | ⟨page, m₂, -, halloc, -, rfl⟩⟩ := walkMid_ok hmid
    · exact Extends.refl _
    · exact kalloc_memset_extends halloc
  have hext₂ : Extends L m₁ m' := by
    obtain ⟨-, ⟨-, -, rfl⟩ | ⟨page, m₂, -, halloc, -, rfl⟩⟩ := walkLow_ok hlow
    · exact Extends.refl _
    · exact kalloc_memset_extends halloc
  exact hext₁.trans hext₂

theorem mapLoop_extends {perm : Pte} {pa : ℕ}
    (hcall : mapLoop (kalloc L) perm n pt a pa m = .ok (r, pt', m')) : Extends L m m' := by
  induction n generalizing pt a pa m with
  | zero =>
    cases hcall
    exact Extends.refl _
  | succ n ih =>
    simp only [mapLoop, bind_eq_ok] at hcall
    obtain ⟨⟨pte, pt₁, m₁⟩, hwalk, hcall⟩ := hcall
    obtain ⟨-, rfl, -, -⟩ := walkAlloc_entry hwalk
    dsimp only at hcall
    split at hcall
    · cases hcall
    exact (walkAlloc_extends hwalk).trans (ih hcall)

/-- `mappages` takes pages for the levels. -/
theorem mappages_extends {va size pa : ℕ} {perm : Pte}
    (hcall : mappages (kalloc L) pt va size pa perm m = .ok (r, pt', m')) : Extends L m m' :=
  mapLoop_extends (mappages_ok hcall).2.2.2

/-! ## Levels -/

/-- The levels of the table are those above the pages of `S`. -/
structure Covers (pt : PageTable) (S : Set ℕ) : Prop where
  mid : ∀ x, (pt.mid x).isSome = true ↔ x ∈ Set.image px2 S
  low : ∀ x, (pt.low x).isSome = true ↔ x ∈ Set.image px1 S

theorem px2_eq_of_px1_eq {w : ℕ} (h : px1 v = px1 w) : px2 v = px2 w := by
  rw [← px1_div, ← px1_div, h]

theorem Covers.pte?_isSome (h : Covers pt S) (v : ℕ) :
    (pt.pte? v).isSome = true ↔ px1 v ∈ Set.image px1 S := by
  simp only [PageTable.pte?, Option.isSome_ite, h.mid, h.low, Set.mem_image]
  constructor
  · exact fun h => h.2
  · rintro ⟨w, hw, hpx⟩
    exact ⟨⟨w, hw, px2_eq_of_px1_eq hpx⟩, w, hw, hpx⟩

theorem Covers.setPte (h : Covers pt S) (v : ℕ) (word : Pte) : Covers (pt.setPte v word) S :=
  ⟨h.mid, h.low⟩

/-- The level-1 page above a page is created. -/
theorem walkMid_covers (hcov : Covers pt S) {found : Bool}
    (hcall : walkMid (kalloc L) pt v m = .ok (found, pt', m')) :
    (∀ x, (pt'.mid x).isSome = true ↔ x ∈ Set.image px2 (insert v S)) ∧
      ∀ x, (pt'.low x).isSome = true ↔ x ∈ Set.image px1 S := by
  obtain ⟨-, ⟨hsome, rfl, -⟩ | ⟨page, m₁, hmid, -, rfl, -⟩⟩ := walkMid_ok hcall
  · refine ⟨fun x => ?_, hcov.low⟩
    rw [Set.image_insert_eq, Set.insert_eq_of_mem ((hcov.mid _).mp hsome)]
    exact hcov.mid x
  · have hout : px2 v ∉ Set.image px2 S := by
      rw [← hcov.mid, hmid]
      exact Bool.noConfusion
    refine ⟨fun x => ?_, fun x => ?_⟩
    · rw [Set.image_insert_eq, Set.mem_insert_iff, ← hcov.mid]
      by_cases hx : x = px2 v <;> simp [PageTable.addMid, hx]
    · -- a new level-1 page has no level-0 page below it, and there was none before
      rw [← hcov.low]
      by_cases hx : x / 2 ^ 9 = px2 v
      · have hnone : ¬ (pt.low x).isSome = true := by
          intro hs
          obtain ⟨w, hw, rfl⟩ := (hcov.low x).mp hs
          rw [px1_div] at hx
          exact hout ⟨w, hw, hx⟩
        simp only [PageTable.addMid, if_pos hx]
        exact iff_of_false Bool.noConfusion hnone
      · simp only [PageTable.addMid, if_neg hx]

theorem walkLow_covers {found : Bool}
    (hmid : ∀ x, (pt.mid x).isSome = true ↔ x ∈ Set.image px2 (insert v S))
    (hlow : ∀ x, (pt.low x).isSome = true ↔ x ∈ Set.image px1 S)
    (hcall : walkLow (kalloc L) pt v m = .ok (found, pt', m')) : Covers pt' (insert v S) := by
  obtain ⟨-, ⟨hsome, rfl, -⟩ | ⟨page, m₁, -, -, rfl, -⟩⟩ := walkLow_ok hcall
  · refine ⟨hmid, fun x => ?_⟩
    rw [Set.image_insert_eq, Set.insert_eq_of_mem ((hlow _).mp hsome)]
    exact hlow x
  · refine ⟨hmid, fun x => ?_⟩
    rw [Set.image_insert_eq, Set.mem_insert_iff, ← hlow]
    by_cases hx : x = px1 v <;> simp [PageTable.addLow, hx]

/-- `walk` creates the levels above one page. -/
theorem walkAlloc_covers (hcov : Covers pt S) {pte : Option Pte}
    (hcall : walkAlloc (kalloc L) pt a m = .ok (pte, pt', m')) :
    Covers pt' (insert (a / PGSIZE) S) := by
  obtain ⟨-, -, pt₁, m₁, hmid, hlow⟩ := walkAlloc_ok hcall
  obtain ⟨hmid₁, hlow₁⟩ := walkMid_covers hcov hmid
  exact walkLow_covers hmid₁ hlow₁ hlow

theorem mapLoop_covers {perm : Pte} {pa : ℕ} (hcov : Covers pt S)
    (hcall : mapLoop (kalloc L) perm n pt a pa m = .ok (r, pt', m')) :
    Covers pt' (S ∪ Set.Ico (a / PGSIZE) (a / PGSIZE + n)) := by
  induction n generalizing pt a pa m S with
  | zero =>
    cases hcall
    rwa [Nat.add_zero, Set.Ico_self, Set.union_empty]
  | succ n ih =>
    simp only [mapLoop, bind_eq_ok] at hcall
    obtain ⟨⟨pte, pt₁, m₁⟩, hwalk, hcall⟩ := hcall
    obtain ⟨-, rfl, -, -⟩ := walkAlloc_entry hwalk
    dsimp only at hcall
    split at hcall
    · cases hcall
    have hrest := ih ((walkAlloc_covers hcov hwalk).setPte _ _) hcall
    have hpages : insert (a / PGSIZE) S ∪
        Set.Ico ((a + PGSIZE) / PGSIZE) ((a + PGSIZE) / PGSIZE + n) =
        S ∪ Set.Ico (a / PGSIZE) (a / PGSIZE + (n + 1)) := by
      rw [Nat.add_div_right a (by decide)]
      ext w
      simp only [Set.mem_union, Set.mem_insert_iff, Set.mem_Ico]
      grind
    exact hpages ▸ hrest

/-- `mappages` creates the levels above its range. -/
theorem mappages_covers {va size pa : ℕ} {perm : Pte} (hcov : Covers pt S)
    (hcall : mappages (kalloc L) pt va size pa perm m = .ok (r, pt', m')) :
    Covers pt' (S ∪ Set.Ico (va / PGSIZE) (va / PGSIZE + size / PGSIZE)) :=
  mapLoop_covers hcov (mappages_ok hcall).2.2.2

theorem mappage_covers {va pa : ℕ} {perm : Pte} (hcov : Covers pt S)
    (hcall : mappages (kalloc L) pt va PGSIZE pa perm m = .ok (r, pt', m')) :
    Covers pt' (insert (va / PGSIZE) S) := by
  have hpages : S ∪ Set.Ico (va / PGSIZE) (va / PGSIZE + PGSIZE / PGSIZE) =
      insert (va / PGSIZE) S := by
    ext w
    have hsize : PGSIZE / PGSIZE = 1 := rfl
    simp only [Set.mem_union, Set.mem_insert_iff, Set.mem_Ico, hsize]
    grind
  exact hpages ▸ mappages_covers hcov hcall

/-! ## The loop -/

/-- The valid ones among `n` pages. -/
def validPages (pt : PageTable) (lo n : ℕ) : Set ℕ :=
  {v | lo ≤ v ∧ v < lo + n ∧ (pt.entry v).getLsbD 0 = true}

theorem mem_validPages {lo : ℕ} :
    v ∈ validPages pt lo n ↔ lo ≤ v ∧ v < lo + n ∧ (pt.entry v).getLsbD 0 = true := Iff.rfl

theorem validPages_succ {lo : ℕ} :
    validPages pt lo (n + 1) =
      (if (pt.entry lo).getLsbD 0 then {lo} else ∅) ∪ validPages pt (lo + 1) n := by
  ext v
  rw [Set.mem_union, mem_validPages, mem_validPages]
  cases hvalid : (pt.entry lo).getLsbD 0 with
  | false =>
    simp only [Bool.false_eq_true, if_false, Set.mem_empty_iff_false]
    grind
  | true =>
    simp only [if_true, Set.mem_singleton_iff]
    grind

theorem validPages_zero {lo : ℕ} : validPages pt lo 0 = ∅ := by
  refine Set.eq_empty_of_forall_notMem fun w hw => ?_
  rw [mem_validPages] at hw
  omega

/-- The pages that are left after the first one has been copied. -/
theorem validPages_markCow (hv : (old.entry (a / PGSIZE)).getLsbD 0 = true) :
    validPages (markCow old (a / PGSIZE) (old.entry (a / PGSIZE))) ((a + PGSIZE) / PGSIZE) n =
      validPages old (a / PGSIZE + 1) n := by
  simp only [validPages, valid_markCow hv, Nat.add_div_right a (show 0 < PGSIZE by decide)]

theorem validPages_succ_of_valid (hv : (old.entry v).getLsbD 0 = true) :
    validPages old v (n + 1) = {v} ∪ validPages old (v + 1) n := by
  rw [validPages_succ, if_pos hv]

theorem validPages_succ_of_clear (hv : (old.entry (a / PGSIZE)).getLsbD 0 = false) :
    validPages old (a / PGSIZE) (n + 1) = validPages old ((a + PGSIZE) / PGSIZE) n := by
  rw [validPages_succ, hv, Nat.add_div_right a (by decide), if_neg Bool.false_ne_true,
    Set.empty_union]

/-- The pages that `uvmcopy` copies. -/
def copiedPages (pt : PageTable) (sz : ℕ) : Set ℕ :=
  {v | v * PGSIZE < sz ∧ (pt.entry v).getLsbD 0 = true}

theorem below_iff {sz : ℕ} : v < pgroundup sz / PGSIZE ↔ v * PGSIZE < sz := by
  simp only [pgroundup, PGSIZE]
  omega

theorem page_lt_of_below {sz : ℕ} (hsz : sz ≤ TRAPFRAME) (hv : v * PGSIZE < sz) :
    v < TRAPFRAME / PGSIZE := by
  have htop : TRAPFRAME = 67108862 * PGSIZE := rfl
  rw [htop] at hsz ⊢
  simp only [PGSIZE] at hv hsz ⊢
  omega

theorem validPages_eq_copiedPages (pt : PageTable) (sz : ℕ) :
    validPages pt (0 / PGSIZE) (pgroundup sz / PGSIZE) = copiedPages pt sz := by
  ext v
  rw [mem_validPages, Nat.zero_div, Nat.zero_add, below_iff]
  exact and_iff_right (Nat.zero_le v)

/-- What the loop has done to both tables, when it has copied the pages `C`. -/
structure CopiedTables (old new old' new' : PageTable) (C : Set ℕ) : Prop where
  old_out : ∀ w ∉ C, old'.entry w = old.entry w
  old_in : ∀ w ∈ C, old'.entry w = cowPte (old.entry w)
  levels : ∀ w, (old'.pte? w).isSome = (old.pte? w).isSome
  free : ∀ w ∈ C, (new.entry w).getLsbD 0 = false
  new_out : ∀ w ∉ C, new'.entry w = new.entry w
  flags : ∀ w ∈ C, ∀ k < 10, (new'.entry w).getLsbD k = (cowPte (old.entry w)).getLsbD k

theorem CopiedTables.new_valid (h : CopiedTables old new old' new' C) {w : ℕ} (hw : w ∈ C) :
    (new'.entry w).getLsbD 0 = (old.entry w).getLsbD 0 := by
  rw [h.flags w hw 0 (by decide), (cowPte_bits _).1]

/-- The parent keeps its pages. -/
theorem CopiedTables.old_similar (h : CopiedTables old new old' new' C) (w : ℕ) :
    Pte.Similar (old'.entry w) (old.entry w) ∧ pte2pa (old'.entry w) = pte2pa (old.entry w) := by
  by_cases hw : w ∈ C
  · rw [h.old_in w hw]
    exact ⟨similar_cowPte _, pte2pa_cowPte _⟩
  · rw [h.old_out w hw]
    exact ⟨Pte.Similar.refl _, rfl⟩

theorem CopiedTables.new_similar (h : CopiedTables old new old' new' C) {w : ℕ} (hw : w ∈ C) :
    Pte.Similar (new'.entry w) (old.entry w) :=
  (similar_of_flags (h.flags w hw)).trans (similar_cowPte _)

theorem copyLoop_tables (hcall : copyLoop L (kalloc L) n a old new m = .ok (r, old', new', m')) :
    CopiedTables old new old' new' (validPages old (a / PGSIZE) n) := by
  induction n generalizing a old new m with
  | zero =>
    cases hcall
    rw [validPages_zero]
    exact ⟨fun _ _ => rfl, by simp, fun _ => rfl, by simp, fun _ _ => rfl, by simp⟩
  | succ n ih =>
    obtain ⟨hv, hcall⟩ | ⟨hv, mem, m₁, new₁, m₂, -, hmap, hcall⟩ := copyLoop_succ hcall
    · rw [validPages_succ_of_clear hv]
      exact ih hcall
    have hrest := ih hcall
    rw [validPages_markCow hv] at hrest
    rw [validPages_succ_of_valid hv]
    obtain ⟨hfree, hnew, hother⟩ := mappage_mapped hmap
    have hmark := entry_markCow_eq hv
    -- the first page is not looked at again
    have hfirst : a / PGSIZE ∉ validPages old (a / PGSIZE + 1) n := fun h => by
      rw [mem_validPages] at h
      omega
    have hne : ∀ w ∈ validPages old (a / PGSIZE + 1) n, w ≠ a / PGSIZE := by
      rintro w hw rfl
      exact hfirst hw
    constructor
    · intro w hw
      rw [Set.mem_union, not_or] at hw
      have hwa : w ≠ a / PGSIZE := hw.1
      rw [hrest.old_out w hw.2, hmark, if_neg hwa]
    · rintro w (rfl | hw)
      · rw [hrest.old_out _ hfirst, hmark, if_pos rfl]
      · rw [hrest.old_in w hw, hmark, if_neg (hne w hw)]
    · exact fun w => (hrest.levels w).trans (pte?_isSome_markCow _ _ _ _)
    · rintro w (rfl | hw)
      · exact hfree
      · rw [← hother w (hne w hw)]
        exact hrest.free w hw
    · intro w hw
      rw [Set.mem_union, not_or] at hw
      rw [hrest.new_out w hw.2, hother w hw.1]
    · rintro w (rfl | hw)
      · intro k hk
        rw [hrest.new_out _ hfirst, hnew, getLsbD_copyPte hv _ hk]
      · have hflags := hrest.flags w hw
        rwa [hmark, if_neg (hne w hw)] at hflags

theorem copyLoop_covers (hcov : Covers new S)
    (hcall : copyLoop L (kalloc L) n a old new m = .ok (r, old', new', m')) :
    Covers new' (S ∪ validPages old (a / PGSIZE) n) := by
  induction n generalizing a old new m S with
  | zero =>
    cases hcall
    rwa [validPages_zero, Set.union_empty]
  | succ n ih =>
    obtain ⟨hv, hcall⟩ | ⟨hv, mem, m₁, new₁, m₂, -, hmap, hcall⟩ := copyLoop_succ hcall
    · rw [validPages_succ_of_clear hv]
      exact ih hcov hcall
    have hrest := ih (mappage_covers hcov hmap) hcall
    rw [validPages_markCow hv, Set.insert_eq, Set.union_comm {_}, Set.union_assoc] at hrest
    rwa [validPages_succ_of_valid hv]

/-- What the loop has done to memory, when it has copied the pages `C`. -/
structure CopiedMemory (L : Layout) (old new' : PageTable) (m m' : KMem)
    (live live' : List (ℕ × ℕ)) (C : Set ℕ) : Prop where
  heap : HeapInv L ⟨m'.buddy, live'⟩
  subset : live ⊆ live'
  frame : ∀ q, (q, 0) ∈ live → m'.frame (q / PGSIZE) = m.frame (q / PGSIZE)
  cnt_in : ∀ w ∈ C, (∀ w' ∈ C, pte2pa (old.entry w') = pte2pa (old.entry w) → w' = w) →
    m'.cnt (pte2pa (old.entry w) / PGSIZE) = m.cnt (pte2pa (old.entry w) / PGSIZE) + 1
  cnt_out : ∀ q, (q, 0) ∈ live → (∀ w ∈ C, pte2pa (old.entry w) ≠ q) →
    m'.cnt (q / PGSIZE) = m.cnt (q / PGSIZE)
  page : ∀ w ∈ C, (pte2pa (new'.entry w), 0) ∈ live'
  fresh : ∀ w ∈ C, (pte2pa (new'.entry w), 0) ∉ live
  copy : ∀ w ∈ C, m'.frame (pte2pa (new'.entry w) / PGSIZE) =
    m.frame (pte2pa (old.entry w) / PGSIZE)
  single : ∀ w ∈ C, m'.cnt (pte2pa (new'.entry w) / PGSIZE) = 1

theorem CopiedMemory.refl (h : HeapInv L ⟨m.buddy, live⟩) :
    CopiedMemory L old new m m live live ∅ :=
  ⟨h, List.Subset.refl _, fun _ _ => rfl, by simp, fun _ _ _ => rfl, by simp, by simp, by simp,
    by simp⟩

/-- Two stretches of the loop make one. -/
theorem CopiedMemory.trans {old₁ new₁ : PageTable} {m₁ : KMem} {live₁ : List (ℕ × ℕ)}
    {C₁ C₂ : Set ℕ} (h : CopiedMemory L old new₁ m m₁ live live₁ C₁)
    (h' : CopiedMemory L old₁ new' m₁ m' live₁ live' C₂) (hdisj : ∀ w ∈ C₁, w ∉ C₂)
    (hpa : ∀ w, pte2pa (old₁.entry w) = pte2pa (old.entry w))
    (hnew : ∀ w ∈ C₁, new'.entry w = new₁.entry w)
    (hsrc : ∀ w ∈ C₁ ∪ C₂, (pte2pa (old.entry w), 0) ∈ live) :
    CopiedMemory L old new' m m' live live' (C₁ ∪ C₂) where
  heap := h'.heap
  subset := List.Subset.trans h.subset h'.subset
  frame q hq := (h'.frame q (h.subset hq)).trans (h.frame q hq)
  cnt_in := by
    rintro w (hw | hw) hinj
    · rw [h'.cnt_out _ (h.subset (hsrc w (Or.inl hw))),
        h.cnt_in w hw fun w' hw' => hinj w' (Or.inl hw')]
      intro w' hw' heq
      rw [hpa] at heq
      exact hdisj w hw (hinj w' (Or.inr hw') heq ▸ hw')
    · have hcnt := h'.cnt_in w hw fun w' hw' heq => hinj w' (Or.inr hw') (by rwa [hpa, hpa] at heq)
      rw [hpa] at hcnt
      rw [hcnt, h.cnt_out _ (hsrc w (Or.inr hw))]
      intro w' hw' heq
      exact hdisj w' hw' (hinj w' (Or.inl hw') heq ▸ hw)
  cnt_out q hq hne := by
    rw [h'.cnt_out q (h.subset hq) fun w hw => by rw [hpa]; exact hne w (Or.inr hw),
      h.cnt_out q hq fun w hw => hne w (Or.inl hw)]
  page := by
    rintro w (hw | hw)
    · rw [hnew w hw]
      exact h'.subset (h.page w hw)
    · exact h'.page w hw
  fresh := by
    rintro w (hw | hw)
    · rw [hnew w hw]
      exact h.fresh w hw
    · exact fun hold => h'.fresh w hw (h.subset hold)
  copy := by
    rintro w (hw | hw)
    · rw [hnew w hw, h'.frame _ (h.page w hw), h.copy w hw]
    · rw [h'.copy w hw, hpa, h.frame _ (hsrc w (Or.inr hw))]
  single := by
    rintro w (hw | hw)
    · rw [hnew w hw, h'.cnt_out _ (h.page w hw), h.single w hw]
      -- a page of the parent was in use before, the new page was not
      intro w' hw' heq
      refine h.fresh w hw ?_
      rw [← heq, hpa]
      exact hsrc w' (Or.inr hw')
    · exact h'.single w hw

theorem kaddrefcnt_eq {p : ℕ} (hp : ¬ badPage L p) (m : KMem) :
    (kaddrefcnt L p m).2 = m.setCnt p (m.cnt (p / PGSIZE) + 1) := by
  simp [kaddrefcnt, if_neg hp]

/-- One page of the parent. -/
theorem copiedMemory_page {mem : ℕ} {m₁ m₂ : KMem} (h : HeapInv L ⟨m.buddy, live⟩)
    (hsrc : (pte2pa (old.entry (a / PGSIZE)), 0) ∈ live) (halloc : kalloc L m = .ok (mem, m₁))
    (hmap : mappages (kalloc L) new a PGSIZE mem (cowFlags (pteFlags (old.entry (a / PGSIZE))))
      (m₁.copyPage mem (pte2pa (old.entry (a / PGSIZE)))) = .ok (r, new', m₂)) :
    ∃ live', CopiedMemory L old new' m (kaddrefcnt L (pte2pa (old.entry (a / PGSIZE))) m₂).2
      live live' {a / PGSIZE} := by
  obtain ⟨-, hnew, hgrow⟩ := kalloc_grows h halloc
  have hcopy := kalloc_written h halloc (m₁.frame (pte2pa (old.entry (a / PGSIZE)) / PGSIZE))
  obtain ⟨live', hlevels⟩ := mappages_extends hmap _ hcopy.heap
  have hgrown := hcopy.trans hlevels
  have hpa : pte2pa (new'.entry (a / PGSIZE)) = mem := by
    rw [(mappage_mapped hmap).2.1]
    exact pte2pa_copyPte (hcopy.heap.not_badPage (p := mem) (o := 0) List.mem_cons_self) _
  have hsrcOk := h.not_badPage hsrc
  rw [kaddrefcnt_eq hsrcOk]
  have hraised : ∀ q, (q, 0) ∈ (mem, 0) :: live → pte2pa (old.entry (a / PGSIZE)) ≠ q →
      (m₂.setCnt (pte2pa (old.entry (a / PGSIZE)))
        (m₂.cnt (pte2pa (old.entry (a / PGSIZE)) / PGSIZE) + 1)).cnt (q / PGSIZE) =
        m₂.cnt (q / PGSIZE) := fun q hq hne => update_of_ne (fun heq =>
    hne (page_eq_of_frame_eq (hcopy.heap.not_badPage hq) hsrcOk heq).symm) _ _
  refine ⟨live', hlevels.heap, hgrown.subset, hgrown.frame, ?_, fun q hq hne => ?_, ?_, ?_, ?_, ?_⟩
  · rintro w rfl -
    rw [KMem.setCnt_cnt_self, hgrown.cnt _ hsrc]
  · rw [hraised q (List.mem_cons_of_mem _ hq) (hne _ rfl), hgrown.cnt q hq]
  · rintro w rfl
    rw [hpa]
    exact hlevels.subset List.mem_cons_self
  · rintro w rfl
    rw [hpa]
    exact hnew
  · rintro w rfl
    rw [hpa]
    exact (hlevels.frame mem List.mem_cons_self).trans
      ((update_self ..).trans (hgrow.frame _ hsrc))
  · rintro w rfl
    rw [hpa, hraised mem List.mem_cons_self fun heq => hnew (heq ▸ hsrc),
      hlevels.cnt mem List.mem_cons_self]
    exact hgrow.fresh mem List.mem_cons_self hnew

/-- The pages of the parent have to be in use. -/
theorem copyLoop_memory (h : HeapInv L ⟨m.buddy, live⟩)
    (hsrc : ∀ w ∈ validPages old (a / PGSIZE) n, (pte2pa (old.entry w), 0) ∈ live)
    (hcall : copyLoop L (kalloc L) n a old new m = .ok (r, old', new', m')) :
    ∃ live', CopiedMemory L old new' m m' live live' (validPages old (a / PGSIZE) n) := by
  induction n generalizing a old new m live with
  | zero =>
    cases hcall
    rw [validPages_zero]
    exact ⟨live, CopiedMemory.refl h⟩
  | succ n ih =>
    obtain ⟨hv, hcall⟩ | ⟨hv, mem, m₁, new₁, m₂, halloc, hmap, hcall⟩ := copyLoop_succ hcall
    · rw [validPages_succ_of_clear hv] at hsrc ⊢
      exact ih h hsrc hcall
    rw [validPages_succ_of_valid hv] at hsrc ⊢
    obtain ⟨live₁, hpage⟩ := copiedMemory_page h (hsrc _ (Or.inl rfl)) halloc hmap
    have htables := copyLoop_tables hcall
    have hrest := ih hpage.heap (fun w hw => ?_) hcall
    · rw [validPages_markCow hv] at htables hrest
      obtain ⟨live', hrest⟩ := hrest
      have hdisj : ∀ w ∈ ({a / PGSIZE} : Set ℕ), w ∉ validPages old (a / PGSIZE + 1) n := by
        rintro w rfl hw
        rw [mem_validPages] at hw
        omega
      exact ⟨live', hpage.trans hrest hdisj (pte2pa_markCow hv)
        (fun w hw => htables.new_out w (hdisj w hw)) hsrc⟩
    · rw [validPages_markCow hv] at hw
      rw [pte2pa_markCow hv]
      exact hpage.subset (hsrc w (Or.inr hw))

end LearnOS
