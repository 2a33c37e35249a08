import LearnOS.Mem.Kalloc

/-!
# When a page is left

`kalloc` returns exactly if some list of the buddy allocator has a block, that is
if the blocks in use do not cover all pages.
-/

namespace LearnOS

open LinkedList BuddySystem Ownership Function Kres

variable {L : Layout} {live : List (ℕ × ℕ)} {m m' : KMem}
  {b : Buddy} {p : ℕ}

/-- Some list of the buddy allocator is not empty. -/
def HasPage (L : Layout) (b : Buddy) : Prop := ∃ o ≤ MAX_ORDER, buddyGetfirst L o b ≠ NULL

instance (L : Layout) (b : Buddy) : Decidable (HasPage L b) :=
  inferInstanceAs (Decidable (∃ o ≤ MAX_ORDER, buddyGetfirst L o b ≠ NULL))

theorem hasPage_iff {free : FreeLists} (h : Rep L b free) :
    HasPage L b ↔ ∃ o ≤ MAX_ORDER, free o ≠ [] := by
  refine exists_congr fun o => and_congr_right fun ho => ?_
  exact not_congr (buddyGetfirst_eq_null_iff h ho)

/-- `buddy_alloc` returns the null pointer when no list from the order on has a
block. -/
theorem buddyAlloc_returns (h : HeapInv L ⟨b, live⟩) {order : ℕ}
    (ho : order ≤ MAX_ORDER) :
    ∃ p b', buddyAlloc L order b = .ok (p, b') ∧
      (p = NULL ↔ ∀ o, order ≤ o → o ≤ MAX_ORDER → buddyGetfirst L o b = NULL) := by
  obtain ⟨free, blocks, hrep, hpart, -⟩ := h
  have hspec := buddyAlloc_refines hrep hpart.packed hpart.aligned ho
  cases halloc : alloc MAX_ORDER order free with
  | none =>
    rw [halloc] at hspec
    refine ⟨NULL, b, hspec, iff_of_true rfl fun o hle hmax => ?_⟩
    rw [buddyGetfirst_eq_null_iff hrep hmax]
    exact alloc_eq_none halloc ho hle hmax
  | some r =>
    obtain ⟨q, free'⟩ := r
    rw [halloc] at hspec
    obtain ⟨b', hb', -⟩ := hspec
    obtain ⟨o, hle, hmax, hq, -⟩ := alloc_eq_some halloc
    refine ⟨L.pa q, b', hb', iff_of_false (L.pa_ne_null q) fun hall => ?_⟩
    have hnil := (buddyGetfirst_eq_null_iff hrep hmax).mp (hall o hle hmax)
    rw [hnil] at hq
    cases hq

theorem kalloc_returns_iff (h : HeapInv L ⟨m.buddy, live⟩) :
    (∃ r, kalloc L m = .ok r) ↔ HasPage L m.buddy := by
  obtain ⟨p, b, hcall, hnull⟩ := buddyAlloc_returns h (Nat.zero_le _)
  have hpage : p ≠ NULL ↔ HasPage L m.buddy := by
    rw [ne_eq, hnull, HasPage]
    push Not
    exact exists_congr fun o => and_iff_right (Nat.zero_le o)
  rw [← hpage]
  simp only [kalloc, hcall, ok_bind]
  by_cases hp : p = NULL <;> simp [hp]

theorem held_map_pa (blocks : List (ℕ × ℕ)) :
    held (blocks.map fun b => (L.pa b.1, b.2)) = held blocks := by
  simp [held, Function.comp_def]

/-- A page is left exactly if the blocks in use are fewer pages than there are. -/
theorem hasPage_iff_held (h : HeapInv L ⟨b, live⟩) :
    HasPage L b ↔ held live < L.pnumMax := by
  obtain ⟨free, blocks, hrep, hpart, rfl⟩ := h
  rw [hasPage_iff hrep, hpart.exists_free_iff, held_map_pa]

theorem HeapInv.held_le (h : HeapInv L ⟨b, live⟩) : held live ≤ L.pnumMax := by
  obtain ⟨free, blocks, -, hpart, rfl⟩ := h
  have htotal := hpart.total
  rw [held_map_pa]
  omega

/-- The free lists determine how many pages are in use. -/
theorem HeapInv.held_eq {live' : List (ℕ × ℕ)} (h : HeapInv L ⟨b, live⟩)
    (h' : HeapInv L ⟨b, live'⟩) : held live = held live' := by
  obtain ⟨free, blocks, hrep, hpart, rfl⟩ := h
  obtain ⟨free', blocks', hrep', hpart', rfl⟩ := h'
  have hfree : ∀ o ≤ MAX_ORDER, free o = free' o := fun o ho =>
    List.map_injective_iff.mpr L.pa_injective ((hrep.dll o ho).unique (hrep'.dll o ho))
  have hcover : ∀ x, freeCover MAX_ORDER free x = freeCover MAX_ORDER free' x := by
    intro x
    refine Finset.sum_congr rfl fun o ho => ?_
    rw [hfree o (Nat.lt_succ_iff.mp (Finset.mem_range.mp ho))]
  have htotal := hpart.total
  have htotal' := hpart'.total
  simp only [hcover] at htotal
  rw [held_map_pa, held_map_pa]
  omega

theorem HeapInv.kalloc (h : HeapInv L ⟨m.buddy, live⟩)
    (hcall : LearnOS.kalloc L m = .ok (p, m')) : HeapInv L ⟨m'.buddy, (p, 0) :: live⟩ := by
  have ht : Tracked L m live fun _ : Unit => none :=
    ⟨h, by simp, by simp [Ownership.Exclusive]⟩
  exact (ht.of_kalloc hcall ()).2.1.heap

theorem kalloc_cnt {f : ℕ} (hcall : LearnOS.kalloc L m = .ok (p, m')) (hf : f ≠ p / PGSIZE) :
    m'.cnt f = m.cnt f := by
  simp only [LearnOS.kalloc, bind_eq_ok] at hcall
  obtain ⟨⟨result, b⟩, -, hcall⟩ := hcall
  split at hcall
  · cases hcall
  · cases hcall
    simp [KMem.memset, KMem.setCnt, update_of_ne hf]

/-- Freeing a page that is in use or shared keeps the allocator's invariant. -/
theorem HeapInv.kfree (h : HeapInv L ⟨m.buddy, live⟩)
    (hp : m.cnt (p / PGSIZE) = 1 → (p, 0) ∈ live) (hcall : LearnOS.kfree L p m = .ok m') :
    ∃ live', HeapInv L ⟨m'.buddy, live'⟩ := by
  have hok : ¬ badPage L p := by
    intro hbad
    simp [LearnOS.kfree, hbad] at hcall
  by_cases hone : m.cnt (p / PGSIZE) = 1
  · have ht : Tracked L m live fun _ : Unit => some p :=
      ⟨h, fun _ q hq => Option.some.inj hq ▸ hp hone, fun _ _ _ _ _ => rfl⟩
    obtain ⟨m₁, hfree, ht₁, -⟩ := ht.of_kfree (i := ()) rfl hone
    rw [hcall] at hfree
    cases hfree
    exact ⟨_, ht₁.heap⟩
  · rw [kfree_shared hok hone] at hcall
    cases hcall
    exact ⟨live, h⟩

theorem held_cons_page (p : ℕ) (live : List (ℕ × ℕ)) : held ((p, 0) :: live) = held live + 1 := by
  simp [held, Nat.add_comm]

/-! ## The contract of `kalloc` -/

/-- What the callers of `kalloc` rely on: with no block left it returns 0 and has
changed no count and no byte, and otherwise it returns a page that was free,
filled with zeros and counted once. -/
structure KallocContract (L : Layout) (m : KMem) : Prop where
  exhausted : ¬ HasPage L m.buddy →
    ∃ m', LearnOS.kalloc L m = .ok (NULL, m') ∧ m'.cnt = m.cnt ∧ m'.frame = m.frame
  page : HasPage L m.buddy →
    ∃ p m', LearnOS.kalloc L m = .ok (p, m') ∧ p ≠ NULL ∧ PageFree L m.buddy p ∧
      (∀ i, m'.frame (p / PGSIZE) i = 0) ∧ m'.cnt (p / PGSIZE) = 1 ∧
      ∀ f ≠ p / PGSIZE, m'.cnt f = m.cnt f

theorem KallocContract.returns (h : KallocContract L m) : ∃ r, LearnOS.kalloc L m = .ok r := by
  by_cases hpage : HasPage L m.buddy
  · obtain ⟨p, m', hcall, -⟩ := h.page hpage
    exact ⟨_, hcall⟩
  · obtain ⟨m', hcall, -⟩ := h.exhausted hpage
    exact ⟨_, hcall⟩

/-- The page that `buddy_alloc` returns was at the start of a free block. -/
theorem HeapInv.pageFree_alloc {b' : Buddy} (h : HeapInv L ⟨b, live⟩) {order : ℕ}
    (ho : order ≤ MAX_ORDER) (hcall : buddyAlloc L order b = .ok (p, b')) (hp : p ≠ NULL) :
    PageFree L b p := by
  obtain ⟨free, blocks, hrep, hpart, -⟩ := h
  have hspec := buddyAlloc_refines hrep hpart.packed hpart.aligned ho
  cases halloc : alloc MAX_ORDER order free with
  | none =>
    rw [halloc, hcall] at hspec
    cases hspec
    exact absurd rfl hp
  | some r =>
    obtain ⟨q, free'⟩ := r
    rw [halloc] at hspec
    obtain ⟨b₁, hb₁, -⟩ := hspec
    rw [hcall] at hb₁
    cases hb₁
    obtain ⟨k, -, hk, hq, -⟩ := alloc_eq_some halloc
    refine ⟨k, hk, _, hrep.dll k hk, L.pa q, List.mem_map_of_mem hq, le_refl _, ?_⟩
    have hpow : 0 < 2 ^ k * PGSIZE := by
      apply Nat.mul_pos (Nat.two_pow_pos k)
      decide
    omega

theorem HeapInv.kalloc_page (h : HeapInv L ⟨m.buddy, live⟩)
    (hcall : LearnOS.kalloc L m = .ok (p, m')) :
    p ≠ NULL ∧ PageFree L m.buddy p ∧ (∀ i, m'.frame (p / PGSIZE) i = 0) ∧
      m'.cnt (p / PGSIZE) = 1 := by
  simp only [LearnOS.kalloc, bind_eq_ok] at hcall
  obtain ⟨⟨result, b⟩, halloc, hcall⟩ := hcall
  split at hcall
  · cases hcall
  · rename_i hne
    cases hcall
    refine ⟨hne, h.pageFree_alloc (Nat.zero_le _) halloc hne, fun i => ?_, ?_⟩
    · simp [KMem.memset]
    · simp [KMem.memset, KMem.setCnt]

/-- `kalloc` keeps its contract exactly as long as a page is left. -/
theorem kalloc_contract_iff (h : HeapInv L ⟨m.buddy, live⟩) :
    KallocContract L m ↔ HasPage L m.buddy := by
  rw [← kalloc_returns_iff h]
  constructor
  · exact KallocContract.returns
  · rintro ⟨⟨p, m'⟩, hcall⟩
    have hpage := (kalloc_returns_iff h).mp ⟨_, hcall⟩
    obtain ⟨hne, hfree, hzero, hone⟩ := h.kalloc_page hcall
    exact ⟨fun hno => absurd hpage hno, fun _ =>
      ⟨p, m', hcall, hne, hfree, hzero, hone, fun f hf => kalloc_cnt hcall hf⟩⟩

/-- The first page of a machine is handed out as the contract says. -/
theorem kalloc_contract_first :
    ∃ b, buddyInit smallLayout ⟨⟨fun _ => 0, fun _ => 0⟩, fun _ => 0⟩ = .ok b ∧
      KallocContract smallLayout ⟨b, fun _ => 0, fun _ _ => 0⟩ := by
  obtain ⟨b, hinit, hheap⟩ := heapInv_init smallLayout ⟨⟨fun _ => 0, fun _ => 0⟩, fun _ => 0⟩
  refine ⟨b, hinit, (kalloc_contract_iff (m := ⟨b, _, _⟩) hheap).mpr ?_⟩
  rw [hasPage_iff_held hheap]
  decide

/-- All 32 pages of a machine are taken at once; the next call of `kalloc` writes
through the null pointer. -/
theorem kalloc_exhausted_faults :
    ∃ b p b', buddyInit smallLayout ⟨⟨fun _ => 0, fun _ => 0⟩, fun _ => 0⟩ = .ok b ∧
      buddyAlloc smallLayout 5 b = .ok (p, b') ∧ ∀ cnt frame,
        LearnOS.kalloc smallLayout ⟨b', cnt, frame⟩ = .error .nullStore ∧
        ¬ KallocContract smallLayout ⟨b', cnt, frame⟩ := by
  have hrun : (buddyInit smallLayout ⟨⟨fun _ => 0, fun _ => 0⟩, fun _ => 0⟩).Yields fun b =>
      (buddyAlloc smallLayout 5 b).Yields fun r =>
        (buddyAlloc smallLayout 0 r.2).Yields fun r' => r'.1 = NULL := by
    decide +kernel
  obtain ⟨b, hinit, ⟨p, b'⟩, htake, ⟨q, b''⟩, hnext, rfl⟩ := hrun
  refine ⟨b, p, b', hinit, htake, fun cnt frame => ?_⟩
  have hfault : LearnOS.kalloc smallLayout ⟨b', cnt, frame⟩ = .error .nullStore := by
    simp only [LearnOS.kalloc, hnext, ok_bind, if_true]
    rfl
  refine ⟨hfault, fun hcontract => ?_⟩
  obtain ⟨r, hr⟩ := hcontract.returns
  rw [hfault] at hr
  cases hr

end LearnOS
