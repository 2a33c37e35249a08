import LearnOS.Buddy.Refine
import LearnOS.Lib.Transition

/-!
# Runs of the page allocator

A run starts with `buddy_init` on any contents of memory. Its steps are the
calls of `buddy_alloc` and `buddy_free`, where a caller frees only what it was
given, with the same order and once, and the stores that a caller makes into a
block it holds.
-/

namespace LearnOS

open LinkedList DyadicBlock BuddySystem Transition Kres

variable {L : Layout}
  {n order block : ℕ}

/-! ## Initialisation -/

theorem clearSentinels_next (m : Links ℕ) {o : ℕ} (ho : o < n) :
    (clearSentinels L n m).next (L.sentinel o) = NULL := by
  induction n with
  | zero => omega
  | succ n ih =>
    simp only [clearSentinels, Links.setPrev_next, Links.setNext_next]
    split
    · rfl
    · next hne => exact ih (by
        rcases Nat.lt_succ_iff_lt_or_eq.mp ho with h | h
        · exact h
        · exact absurd (congrArg L.sentinel h) hne)

theorem rep_initial (s : Buddy) :
    Rep L { buddyInitBitmap s with
      run := clearSentinels L (MAX_ORDER + 1) (buddyInitBitmap s).run } fun _ => [] where
  dll o ho := clearSentinels_next _ (by omega)
  bit o ho q hq _ := by
    have hlt := bit_byte_lt hq ho
    have hones : ∀ k < 8, (255#8).getLsbD k = true := by decide
    rw [Bitmap.get_eq_zero_iff]
    simp only [buddyInitBitmap, if_pos hlt, List.not_mem_nil, iff_false,
      hones _ (Nat.mod_lt _ (show 0 < 8 by decide))]
    decide

theorem pnumMax_and_bit (i : ℕ) : L.pnumMax &&& 2 ^ i ≠ 0 ↔ L.pnumMax.testBit i = true := by
  rw [Nat.and_two_pow]
  cases h : L.pnumMax.testBit i <;> simp

theorem insertLowBlocks_refines {s : Buddy} (hrep : Rep L s fun _ => [])
    (hn : n ≤ MAX_ORDER) :
    ∃ s', insertLowBlocks L n s = .ok s' ∧ Rep L s' (carveLow L.pnumMax n fun _ => []) := by
  induction n with
  | zero => exact ⟨s, rfl, hrep⟩
  | succ n ih =>
    obtain ⟨t, ht, hrept⟩ := ih (by omega)
    by_cases hbit : L.pnumMax.testBit n = true
    · have hmax : L.pnumMax < 2 ^ 64 := lt_of_le_of_lt L.pnumMax_le (by decide)
      have hbase : L.pnumMax &&& (2 ^ 64 - 2 ^ (n + 1)) = base L.pnumMax n :=
        and_clear_low hmax (by simp only [MAX_ORDER] at hn; omega)
      have hfit : Fits MAX_ORDER L.pnumMax (carveLow L.pnumMax n fun _ => [])
          (base L.pnumMax n, n) := by
        intro x
        have hcover := @freeCover_carveLow MAX_ORDER L.pnumMax (n + 1) (by omega) x
        rw [carveLow, if_pos hbit, freeCover_push _ (by omega)] at hcover
        rw [hcover]
        split_ifs <;> omega
      obtain ⟨s', hs', hrep'⟩ := buddyInsertfirst_refines hrept (by omega) hfit
        ((pow_dvd_pow 2 (Nat.le_succ n)).trans (dvd_base _ n))
      refine ⟨s', ?_, ?_⟩
      · simp only [insertLowBlocks, ht, ok_bind, if_pos ((pnumMax_and_bit n).mpr hbit),
          hbase, pnumToPa_eq hfit.lt_limit, hs']
      · rw [carveLow, if_pos hbit]
        exact hrep'
    · refine ⟨t, ?_, ?_⟩
      · simp only [insertLowBlocks, ht, ok_bind,
          if_neg (mt (pnumMax_and_bit n).mp hbit), pure_eq]
      · rw [carveLow, if_neg hbit]
        exact hrept

theorem insertTopBlocks_refines {s : Buddy}
    (hrep : Rep L s (carveLow L.pnumMax MAX_ORDER fun _ => []))
    (hn : n ≤ L.pnumMax / 2 ^ MAX_ORDER) :
    ∃ s', insertTopBlocks L n s = .ok s' ∧
      Rep L s' (carveTop MAX_ORDER n (carveLow L.pnumMax MAX_ORDER fun _ => [])) := by
  induction n with
  | zero => exact ⟨s, rfl, hrep⟩
  | succ n ih =>
    obtain ⟨t, ht, hrept⟩ := ih (by omega)
    have hle : L.pnumMax / 2 ^ MAX_ORDER * 2 ^ MAX_ORDER ≤ L.pnumMax :=
      Nat.div_mul_le_self _ _
    have hmul : (n + 1) * 2 ^ MAX_ORDER ≤ L.pnumMax / 2 ^ MAX_ORDER * 2 ^ MAX_ORDER :=
      Nat.mul_le_mul_right _ hn
    have hfit : Fits MAX_ORDER L.pnumMax
        (carveTop MAX_ORDER n (carveLow L.pnumMax MAX_ORDER fun _ => []))
        (n * 2 ^ MAX_ORDER, MAX_ORDER) := by
      intro x
      have hcover := @freeCover_carveTop MAX_ORDER
        (carveLow L.pnumMax MAX_ORDER fun _ => []) (n + 1) x
      rw [carveTop, freeCover_push _ (le_refl MAX_ORDER),
        freeCover_carveLow (Nat.le_succ MAX_ORDER)] at hcover
      rw [hcover]
      split_ifs <;> omega
    obtain ⟨s', hs', hrep'⟩ := buddyInsertfirst_refines hrept (le_refl _) hfit
      (Dvd.intro_left n rfl)
    refine ⟨s', ?_, hrep'⟩
    simp only [insertTopBlocks, ht, ok_bind, pnumToPa_eq hfit.lt_limit, hs']

/-- `buddy_init` succeeds on any memory and leaves the initial carve-up. -/
theorem buddyInit_refines (L : Layout) (s : Buddy) :
    ∃ s', buddyInit L s = .ok s' ∧ Rep L s' (carve MAX_ORDER L.pnumMax) := by
  obtain ⟨t, ht, hrept⟩ := insertLowBlocks_refines (rep_initial (L := L) s) (le_refl MAX_ORDER)
  obtain ⟨s', hs', hrep'⟩ := insertTopBlocks_refines hrept (le_refl _)
  refine ⟨s', ?_, hrep'⟩
  simp only [buddyInit, buddyInitFreelist, ht, ok_bind, hs']

/-! ## Calls and stores -/

/-- The allocator with the blocks that callers hold, each with its order. -/
structure Heap where
  buddy : Buddy
  live : List (ℕ × ℕ)

/-- Calls of the allocator, and stores into held blocks. -/
inductive HeapOp where
  | alloc (order : ℕ)
  | free (block order : ℕ)
  | store (addr prev next : ℕ)

/-- One call, or one store of the two words at an address of a held block. -/
inductive HeapStep (L : Layout) : Heap → HeapOp → Heap → Prop
  | alloc {h : Heap} {order block : ℕ} {b : Buddy} (ho : order ≤ MAX_ORDER)
      (hcall : buddyAlloc L order h.buddy = .ok (block, b)) :
      HeapStep L h (.alloc order)
        ⟨b, if block = NULL then h.live else (block, order) :: h.live⟩
  | free {h : Heap} {order block : ℕ} {b : Buddy} (hlive : (block, order) ∈ h.live)
      (hcall : buddyFree L block order h.buddy = .ok b) :
      HeapStep L h (.free block order) ⟨b, h.live.erase (block, order)⟩
  | store {h : Heap} {block order addr prev next : ℕ} (hlive : (block, order) ∈ h.live)
      (hle : block ≤ addr) (hlt : addr < block + 2 ^ order * PGSIZE) :
      HeapStep L h (.store addr prev next)
        ⟨{ h.buddy with run := (h.buddy.run.setPrev addr prev).setNext addr next }, h.live⟩

/-- The held blocks by page number. -/
def HeapInv (L : Layout) (h : Heap) : Prop :=
  ∃ free live, Rep L h.buddy free ∧ Partition MAX_ORDER L.pnumMax free live ∧
    h.live = live.map fun b => (L.pa b.1, b.2)

theorem pa_pair_injective (L : Layout) :
    Function.Injective fun b : ℕ × ℕ => (L.pa b.1, b.2) := by
  rintro ⟨q, o⟩ ⟨q', o'⟩ h
  obtain ⟨hq, ho⟩ := Prod.mk.inj h
  exact Prod.ext (L.pa_injective hq) ho

section Moves

variable {h : Heap} {free : FreeLists} {live : List (ℕ × ℕ)}

theorem buddyAlloc_move (hrep : Rep L h.buddy free)
    (hpart : Partition MAX_ORDER L.pnumMax free live)
    (hlive : h.live = live.map fun b => (L.pa b.1, b.2)) {b : Buddy}
    (ho : order ≤ MAX_ORDER) (hcall : buddyAlloc L order h.buddy = .ok (block, b)) :
    ∃ free' live', Rep L b free' ∧ Move MAX_ORDER free live free' live' ∧
      (if block = NULL then h.live else (block, order) :: h.live) =
        live'.map fun b => (L.pa b.1, b.2) := by
  have hspec := buddyAlloc_refines hrep hpart.packed hpart.aligned ho
  cases halloc : alloc MAX_ORDER order free with
  | none =>
    rw [halloc] at hspec
    obtain ⟨rfl, rfl⟩ := by simpa [hspec] using hcall
    exact ⟨free, live, hrep, .same, by simpa using hlive⟩
  | some r =>
    obtain ⟨q, free'⟩ := r
    rw [halloc] at hspec
    obtain ⟨b', hb', hrep'⟩ := hspec
    obtain ⟨rfl, rfl⟩ := by simpa [hb'] using hcall
    refine ⟨free', (q, order) :: live, hrep', .alloc ho halloc, ?_⟩
    simp [L.pa_ne_null q, hlive]

theorem buddyFree_move (hrep : Rep L h.buddy free)
    (hpart : Partition MAX_ORDER L.pnumMax free live)
    (hlive : h.live = live.map fun b => (L.pa b.1, b.2))
    (hmem : (block, order) ∈ h.live) :
    ∃ b, buddyFree L block order h.buddy = .ok b ∧
      ∃ free' live', Rep L b free' ∧ Move MAX_ORDER free live free' live' ∧
        h.live.erase (block, order) = live'.map fun b => (L.pa b.1, b.2) := by
  rw [hlive] at hmem
  obtain ⟨⟨q, o⟩, hq, heq⟩ := List.mem_map.mp hmem
  obtain ⟨rfl, rfl⟩ := Prod.mk.inj heq
  obtain ⟨b, hb, hrep'⟩ := buddyFree_refines hrep hpart.aligned (hpart.live_order _ hq)
    (hpart.fits_of_mem hq) (hpart.live_aligned _ hq)
  refine ⟨b, hb, _, live.erase (q, o), hrep', .release hq, ?_⟩
  rw [hlive]
  exact (List.map_erase (pa_pair_injective L) live).symm

/-- A store into a held block touches no node of a free list. -/
theorem rep_store (hrep : Rep L h.buddy free)
    (hpart : Partition MAX_ORDER L.pnumMax free live)
    (hlive : h.live = live.map fun b => (L.pa b.1, b.2)) {addr prev next : ℕ}
    (hmem : (block, order) ∈ h.live) (hle : block ≤ addr)
    (hlt : addr < block + 2 ^ order * PGSIZE) :
    Rep L { h.buddy with run := (h.buddy.run.setPrev addr prev).setNext addr next } free := by
  rw [hlive] at hmem
  obtain ⟨⟨q, o⟩, hq, heq⟩ := List.mem_map.mp hmem
  obtain ⟨rfl, rfl⟩ := Prod.mk.inj heq
  refine ⟨fun k hk => ?_, hrep.bit⟩
  have hsent : L.sentinel k ≠ addr := by
    have h₁ := L.sentinel_lt_start hk
    have h₂ := L.start_le_pa q
    simp only at hle
    omega
  have hnode : ∀ x ∈ (free k).map L.pa, x ≠ addr := by
    rintro x hx rfl
    obtain ⟨p, hp, rfl⟩ := List.mem_map.mp hx
    simp only [Layout.pa, PGSIZE] at hle hlt
    have hcov : cov (q, o) p = 1 := cov_eq_one_iff.mpr ⟨by simp only; omega, by simp only; omega⟩
    have hfit := hpart.fits_of_mem hq p
    have hfree := cov_le_freeCover hk hp p
    rw [cov_start] at hfree
    rw [hcov] at hfit
    split at hfit <;> omega
  refine Dll.congr ?_ ?_ (hrep.dll k hk)
  · intro x hx
    rcases List.mem_cons.mp hx with rfl | hx
    · simp [hsent]
    · simp [hnode x hx]
  · intro x hx
    simp [hnode x hx]

/-- Every step is a move of the abstract free lists and live blocks. -/
theorem heapStep_move {h' : Heap} {op : HeapOp} (hrep : Rep L h.buddy free)
    (hpart : Partition MAX_ORDER L.pnumMax free live)
    (hlive : h.live = live.map fun b => (L.pa b.1, b.2)) (hstep : HeapStep L h op h') :
    ∃ free' live', Rep L h'.buddy free' ∧ Move MAX_ORDER free live free' live' ∧
      h'.live = live'.map fun b => (L.pa b.1, b.2) := by
  cases hstep with
  | alloc ho hcall => exact buddyAlloc_move hrep hpart hlive ho hcall
  | free hmem hcall =>
    obtain ⟨b, hb, hmove⟩ := buddyFree_move hrep hpart hlive hmem
    rw [hb] at hcall
    cases hcall
    exact hmove
  | store hmem hle hlt =>
    exact ⟨free, live, rep_store hrep hpart hlive hmem hle hlt, .same, hlive⟩

end Moves

theorem heapInv_step {h h' : Heap} {op : HeapOp} (hinv : HeapInv L h)
    (hstep : HeapStep L h op h') : HeapInv L h' := by
  obtain ⟨free, live, hrep, hpart, hlive⟩ := hinv
  obtain ⟨free', live', hrep', hmove, hlive'⟩ := heapStep_move hrep hpart hlive hstep
  exact ⟨free', live', hrep', hpart.move hmove, hlive'⟩

theorem heapInv_alloc {h : Heap} (hinv : HeapInv L h) {b : Buddy}
    (ho : order ≤ MAX_ORDER) (hcall : buddyAlloc L order h.buddy = .ok (block, b)) :
    HeapInv L ⟨b, if block = NULL then h.live else (block, order) :: h.live⟩ :=
  heapInv_step hinv (.alloc ho hcall)

theorem heapInv_free {h : Heap} (hinv : HeapInv L h)
    (hmem : (block, order) ∈ h.live) :
    ∃ b, buddyFree L block order h.buddy = .ok b ∧
      HeapInv L ⟨b, h.live.erase (block, order)⟩ := by
  obtain ⟨free, live, hrep, hpart, hlive⟩ := hinv
  obtain ⟨b, hb, -⟩ := buddyFree_move hrep hpart hlive hmem
  exact ⟨b, hb, heapInv_step ⟨free, live, hrep, hpart, hlive⟩ (.free hmem hb)⟩

/-- What the allocator guarantees in a state: free and held blocks partition
the pages, the lists are well formed, the bitmap agrees with them, and no call
that a caller may make next stops the kernel. -/
structure WellFormed (L : Layout) (h : Heap) (free : ℕ → List ℕ) (live : List (ℕ × ℕ)) :
    Prop where
  live_eq : h.live = live.map fun b => (L.pa b.1, b.2)
  aligned : ∀ b ∈ freeBlocks MAX_ORDER free ++ live,
    2 ^ b.2 ∣ b.1 ∧ b.1 + 2 ^ b.2 ≤ L.pnumMax
  disjoint : (freeBlocks MAX_ORDER free ++ live).Pairwise BuddySystem.Disjoint
  covered : ∀ x < L.pnumMax,
    ∃ b ∈ freeBlocks MAX_ORDER free ++ live, b.1 ≤ x ∧ x < b.1 + 2 ^ b.2
  lists : ∀ o ≤ MAX_ORDER, Dll NULL h.buddy.run (L.sentinel o) ((free o).map L.pa)
  bitmap : ∀ o ≤ MAX_ORDER, ∀ q < L.pnumMax, 2 ^ o ∣ q →
    ∃ bit, buddyGetbitmap q o h.buddy = .ok bit ∧ (bit = 0#8 ↔ q ∈ free o)
  alloc_returns : ∀ o ≤ MAX_ORDER, ∃ r, buddyAlloc L o h.buddy = .ok r
  free_returns : ∀ block order, (block, order) ∈ h.live →
    ∃ b, buddyFree L block order h.buddy = .ok b

theorem HeapInv.wellFormed {h : Heap} (hinv : HeapInv L h) :
    ∃ free live, WellFormed L h free live := by
  obtain ⟨free, live, hrep, hpart, hlive⟩ := hinv
  refine ⟨free, live, hlive, fun b hb => hpart.block_aligned hb, hpart.pairwise_disjoint,
    fun x hx => hpart.exists_block hx, hrep.dll, ?_, ?_, ?_⟩
  · intro o ho q hq hdvd
    exact ⟨_, buddyGetbitmap_eq hdvd h.buddy,
      hrep.bit o ho q (lt_of_lt_of_le hq L.pnumMax_le) hdvd⟩
  · intro o ho
    have hspec := buddyAlloc_refines hrep hpart.packed hpart.aligned ho
    cases halloc : alloc MAX_ORDER o free with
    | none =>
      rw [halloc] at hspec
      exact ⟨_, hspec⟩
    | some r =>
      rw [halloc] at hspec
      obtain ⟨b, hb, -⟩ := hspec
      exact ⟨_, hb⟩
  · intro block order hmem
    obtain ⟨b, hb, -⟩ := heapInv_free ⟨free, live, hrep, hpart, hlive⟩ hmem
    exact ⟨b, hb⟩

theorem heapInv_init (L : Layout) (s : Buddy) :
    ∃ b, buddyInit L s = .ok b ∧ HeapInv L ⟨b, []⟩ := by
  obtain ⟨b, hb, hrep⟩ := buddyInit_refines L s
  exact ⟨b, hb, _, [], hrep, Partition.carve MAX_ORDER L.pnumMax, rfl⟩

/-- The representation invariant of the page allocator: `buddy_init` succeeds,
and every state of every run of calls and stores is well formed. -/
theorem buddy_representation (L : Layout) (s : Buddy) :
    ∃ b, buddyInit L s = .ok b ∧
      ∀ run, IsRun (HeapStep L) ⟨b, []⟩ run →
        ∀ h ∈ visited ⟨b, []⟩ run, ∃ free live, WellFormed L h free live := by
  obtain ⟨b, hb, hinv⟩ := heapInv_init L s
  refine ⟨b, hb, fun run hrun h hmem => ?_⟩
  exact (IsRun.invariant_always (HeapInv L) (fun _ _ _ hi hs => heapInv_step hi hs) hinv
    hrun h hmem).wellFormed

/-- A machine in which 32 pages follow the kernel. -/
def smallLayout : Layout where
  kernelEnd := PHYSTOP - 32 * PGSIZE
  freelistPage := KERNBASE
  trampoline := KERNBASE
  freelistPage_pos := by decide
  freelistPage_le := by decide
  base_le := by decide
  end_le := by decide

end LearnOS
