import LearnOS.Buddy.Run
import LearnOS.Lib.Coalesced

/-!
# The free space of the page allocator is coalesced

`buddy_free` merges a block with its buddy as far as it can, `buddy_alloc`
splits only the block it serves. In every state of a run no two buddies below
`MAX_ORDER` are free together, so the blocks on the free lists are determined
by the pages that callers hold.
-/

namespace LearnOS

open LinkedList DyadicBlock BuddySystem Transition

variable {L : Layout}

/-- The block `(pnum, order)` is on its free list. -/
def FreeBlock (L : Layout) (b : Buddy) (pnum order : ℕ) : Prop :=
  ∃ l, Dll NULL b.run (L.sentinel order) l ∧ L.pa pnum ∈ l

/-- The page belongs to a block that a caller holds. -/
def Heap.Holds (L : Layout) (h : Heap) (pnum : ℕ) : Prop :=
  ∃ block order, (block, order) ∈ h.live ∧ block ≤ L.pa pnum ∧
    L.pa pnum < block + 2 ^ order * PGSIZE

/-- The free lists behind a state, with no two buddies on them. -/
def CoalescedInv (L : Layout) (h : Heap) : Prop :=
  ∃ free live, Rep L h.buddy free ∧ Partition MAX_ORDER L.pnumMax free live ∧
    Coalesced MAX_ORDER free ∧ h.live = live.map fun b => (L.pa b.1, b.2)

theorem coalescedInv_step {h h' : Heap} {op : HeapOp} (hinv : CoalescedInv L h)
    (hstep : HeapStep L h op h') : CoalescedInv L h' := by
  obtain ⟨free, live, hrep, hpart, hco, hlive⟩ := hinv
  obtain ⟨free', live', hrep', hmove, hlive'⟩ := heapStep_move hrep hpart hlive hstep
  exact ⟨free', live', hrep', hpart.move hmove, hco.move hpart hmove, hlive'⟩

theorem coalescedInv_run {s b : Buddy} (hinit : buddyInit L s = .ok b)
    {run : List (HeapOp × Heap)} (hrun : IsRun (HeapStep L) ⟨b, []⟩ run) :
    ∀ h ∈ visited ⟨b, []⟩ run, CoalescedInv L h := by
  obtain ⟨b', hb, hrep⟩ := buddyInit_refines L s
  rw [hinit] at hb
  cases hb
  have hcarve : CoalescedInv L ⟨b, []⟩ :=
    ⟨_, [], hrep, Partition.carve MAX_ORDER L.pnumMax, Coalesced.carve _ _, rfl⟩
  exact IsRun.invariant_always (CoalescedInv L) (fun _ _ _ hi hs => coalescedInv_step hi hs)
    hcarve hrun

theorem freeBlock_iff {b : Buddy} {free : FreeLists} (hrep : Rep L b free) {q o : ℕ}
    (ho : o ≤ MAX_ORDER) : FreeBlock L b q o ↔ q ∈ free o := by
  constructor
  · rintro ⟨l, hl, hq⟩
    rw [Dll.unique hl (hrep.dll o ho)] at hq
    exact (List.mem_map_of_injective L.pa_injective).mp hq
  · intro hq
    exact ⟨_, hrep.dll o ho, List.mem_map_of_mem hq⟩

theorem holds_iff {h : Heap} {live : List (ℕ × ℕ)}
    (hlive : h.live = live.map fun b => (L.pa b.1, b.2)) {x : ℕ} :
    h.Holds L x ↔ ∃ b ∈ live, b.1 ≤ x ∧ x < b.1 + 2 ^ b.2 := by
  constructor
  · rintro ⟨block, order, hmem, hle, hlt⟩
    rw [hlive] at hmem
    obtain ⟨b, hb, heq⟩ := List.mem_map.mp hmem
    obtain ⟨rfl, rfl⟩ := Prod.mk.inj heq
    simp only [Layout.pa, PGSIZE] at hle hlt
    exact ⟨b, hb, by omega, by omega⟩
  · rintro ⟨b, hb, hle, hlt⟩
    refine ⟨L.pa b.1, b.2, ?_, ?_, ?_⟩
    · rw [hlive]
      exact List.mem_map_of_mem hb
    · simp only [Layout.pa, PGSIZE]
      omega
    · simp only [Layout.pa, PGSIZE]
      omega

theorem CoalescedInv.buddy_not_free {h : Heap} (hinv : CoalescedInv L h) {q o : ℕ}
    (ho : o < MAX_ORDER) (hq : FreeBlock L h.buddy q o) :
    ¬ FreeBlock L h.buddy (q ^^^ 2 ^ o) o := by
  obtain ⟨free, live, hrep, hpart, hco, hlive⟩ := hinv
  rw [freeBlock_iff hrep ho.le] at hq ⊢
  exact hco o ho q hq

/-- The held pages determine the blocks on the free lists. -/
theorem CoalescedInv.freeBlock_congr {h h' : Heap} (hinv : CoalescedInv L h)
    (hinv' : CoalescedInv L h') (hsame : ∀ x < L.pnumMax, h.Holds L x ↔ h'.Holds L x) {o : ℕ}
    (ho : o ≤ MAX_ORDER) (q : ℕ) : FreeBlock L h.buddy q o ↔ FreeBlock L h'.buddy q o := by
  obtain ⟨free, live, hrep, hpart, hco, hlive⟩ := hinv
  obtain ⟨free', live', hrep', hpart', hco', hlive'⟩ := hinv'
  have hfree : ∀ x, IsFree MAX_ORDER free x ↔ IsFree MAX_ORDER free' x := by
    intro x
    rw [hpart.isFree_iff, hpart'.isFree_iff]
    apply and_congr_right
    intro hx
    have hx' := hsame x hx
    rw [holds_iff hlive, holds_iff hlive'] at hx'
    simpa using not_congr hx'
  simp only [freeBlock_iff hrep ho, freeBlock_iff hrep' ho,
    hco.mem_iff hpart.packed hpart.aligned ho, hco'.mem_iff hpart'.packed hpart'.aligned ho, hfree]

/-- Free space is coalesced in every state of every run, so two histories that
end with the same pages held end with the same free blocks, and when all blocks
have been freed the free blocks are those of `buddy_init`. -/
theorem buddy_coalesced (L : Layout) (s : Buddy) :
    ∃ b, buddyInit L s = .ok b ∧ ∀ run, IsRun (HeapStep L) ⟨b, []⟩ run →
      ∀ h ∈ visited ⟨b, []⟩ run,
        (∀ o < MAX_ORDER, ∀ q, FreeBlock L h.buddy q o →
          ¬ FreeBlock L h.buddy (q ^^^ 2 ^ o) o) ∧
        (∀ s' b' run', buddyInit L s' = .ok b' → IsRun (HeapStep L) ⟨b', []⟩ run' →
          ∀ h' ∈ visited ⟨b', []⟩ run', (∀ x < L.pnumMax, h.Holds L x ↔ h'.Holds L x) →
            ∀ o ≤ MAX_ORDER, ∀ q, FreeBlock L h.buddy q o ↔ FreeBlock L h'.buddy q o) ∧
        (h.live = [] → ∀ o ≤ MAX_ORDER, ∀ q, FreeBlock L h.buddy q o ↔ FreeBlock L b q o) := by
  obtain ⟨b, hinit, -⟩ := buddyInit_refines L s
  refine ⟨b, hinit, fun run hrun h hmem => ?_⟩
  have hinv := coalescedInv_run hinit hrun h hmem
  refine ⟨fun o ho q hq => hinv.buddy_not_free ho hq, ?_, ?_⟩
  · intro s' b' run' hinit' hrun' h' hmem' hsame o ho q
    exact hinv.freeBlock_congr (coalescedInv_run hinit' hrun' h' hmem') hsame ho q
  · intro hnil o ho q
    have hstart : CoalescedInv L ⟨b, []⟩ := coalescedInv_run hinit hrun _ (by simp [visited])
    apply hinv.freeBlock_congr hstart _ ho q
    intro x _
    simp [Heap.Holds, hnil]

/-! ## Completeness of the search -/

/-- The page belongs to a block on a free list. -/
def FreePage (L : Layout) (b : Buddy) (x : ℕ) : Prop :=
  ∃ order ≤ MAX_ORDER, ∃ pnum, FreeBlock L b pnum order ∧ pnum ≤ x ∧ x < pnum + 2 ^ order

/-- An aligned run of `2 ^ order` pages below `pnum_max`, all of them free. -/
structure FreeRun (L : Layout) (b : Buddy) (order pnum : ℕ) : Prop where
  aligned : 2 ^ order ∣ pnum
  inside : pnum + 2 ^ order ≤ L.pnumMax
  free : ∀ x, pnum ≤ x → x < pnum + 2 ^ order → FreePage L b x

theorem freePage_iff {b : Buddy} {free : FreeLists} (hrep : Rep L b free) (x : ℕ) :
    FreePage L b x ↔ IsFree MAX_ORDER free x := by
  refine exists_congr fun o => and_congr_right fun ho => exists_congr fun q => ?_
  rw [freeBlock_iff hrep ho]

/-- What `buddy_alloc` returns in a state: the null pointer, with nothing changed,
exactly if there is no run, and otherwise a run whose pages alone stop being free. -/
structure AllocExact (L : Layout) (b : Buddy) (order p : ℕ) (b' : Buddy) : Prop where
  null_iff : p = NULL ↔ ∀ pnum, ¬ FreeRun L b order pnum
  unchanged : p = NULL → b' = b
  run : p ≠ NULL → ∃ pnum, p = L.pa pnum ∧ FreeRun L b order pnum ∧
    ∀ x, FreePage L b' x ↔ FreePage L b x ∧ ¬ (pnum ≤ x ∧ x < pnum + 2 ^ order)

theorem CoalescedInv.alloc_exact {h : Heap} (hinv : CoalescedInv L h) {order : ℕ}
    (ho : order ≤ MAX_ORDER) :
    ∃ p b', buddyAlloc L order h.buddy = .ok (p, b') ∧ AllocExact L h.buddy order p b' := by
  obtain ⟨free, live, hrep, hpart, hco, -⟩ := hinv
  have hspec := buddyAlloc_refines hrep hpart.packed hpart.aligned ho
  cases halloc : alloc MAX_ORDER order free with
  | none =>
    rw [halloc] at hspec
    refine ⟨NULL, h.buddy, hspec, iff_of_true rfl fun q hrun => ?_, fun _ => rfl,
      fun hne => absurd rfl hne⟩
    apply hco.no_run_of_none hpart.aligned ho halloc hrun.aligned
    intro x hle hlt
    exact (freePage_iff hrep x).mp (hrun.free x hle hlt)
  | some r =>
    obtain ⟨q, free'⟩ := r
    rw [halloc] at hspec
    obtain ⟨b', hb', hrep'⟩ := hspec
    have hpart' := hpart.alloc ho halloc
    have hrun : FreeRun L h.buddy order q := by
      obtain ⟨hdvd, hle⟩ := hpart'.block_aligned
        (List.mem_append_right _ (List.mem_cons_self (a := (q, order))))
      exact ⟨hdvd, hle, fun x hle hlt => (freePage_iff hrep x).mpr (isFree_of_alloc halloc hle hlt)⟩
    refine ⟨L.pa q, b', hb', iff_of_false (L.pa_ne_null q) fun hno => hno q hrun,
      fun hnull => absurd hnull (L.pa_ne_null q), fun _ => ⟨q, rfl, hrun, fun x => ?_⟩⟩
    rw [freePage_iff hrep', freePage_iff hrep]
    exact hpart.isFree_alloc ho halloc x

/-- `buddy_alloc` fails only when it must: in every state of every run, for every
order. -/
theorem buddyAlloc_complete (L : Layout) (s : Buddy) :
    ∃ b, buddyInit L s = .ok b ∧ ∀ run, IsRun (HeapStep L) ⟨b, []⟩ run →
      ∀ h ∈ visited ⟨b, []⟩ run, ∀ order ≤ MAX_ORDER,
        ∃ p b', buddyAlloc L order h.buddy = .ok (p, b') ∧ AllocExact L h.buddy order p b' := by
  obtain ⟨b, hinit, -⟩ := buddyInit_refines L s
  refine ⟨b, hinit, fun run hrun h hmem order ho => ?_⟩
  exact (coalescedInv_run hinit hrun h hmem).alloc_exact ho

end LearnOS
