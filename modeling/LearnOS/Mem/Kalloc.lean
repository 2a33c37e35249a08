import LearnOS.Buddy.Run
import LearnOS.Lib.Ownership

/-!
# Counted pages of `kalloc.c`

`kalloc` and `kfree` hand out single pages of the buddy allocator and count
their references in `ref.cnt`. The contents of a page are kept by frame number
and offset; a frame on a free list holds its list node instead, which is part
of the buddy state.

## Implementation notes

`Tracked` names the owner of every page in use. The names are arbitrary here;
the virtual memory system supplies them.
-/

namespace LearnOS

open BuddySystem DyadicBlock LinkedList Ownership Function Kres

/-- Physical memory as the page allocator and its users see it. -/
structure KMem where
  buddy : Buddy
  cnt : ℕ → BitVec 32
  frame : ℕ → ℕ → BitVec 8

/-- `memset(pa, v, PGSIZE)`. -/
def KMem.memset (m : KMem) (pa : ℕ) (v : BitVec 8) : KMem :=
  { m with frame := update m.frame (pa / PGSIZE) fun _ => v }

/-- `memmove(dst, src, PGSIZE)` for two pages. -/
def KMem.copyPage (m : KMem) (dst src : ℕ) : KMem :=
  { m with frame := update m.frame (dst / PGSIZE) (m.frame (src / PGSIZE)) }

def KMem.setCnt (m : KMem) (pa : ℕ) (c : BitVec 32) : KMem :=
  { m with cnt := update m.cnt (pa / PGSIZE) c }

@[simp] theorem KMem.memset_buddy (m : KMem) (pa : ℕ) (v : BitVec 8) :
    (m.memset pa v).buddy = m.buddy := rfl

@[simp] theorem KMem.setCnt_buddy (m : KMem) (pa : ℕ) (c : BitVec 32) :
    (m.setCnt pa c).buddy = m.buddy := rfl

@[simp] theorem KMem.setCnt_cnt_self (m : KMem) (pa : ℕ) (c : BitVec 32) :
    (m.setCnt pa c).cnt (pa / PGSIZE) = c := by
  simp [setCnt]

/-- The check at the start of `kfree` and `kaddrefcnt`. -/
def badPage (L : Layout) (pa : ℕ) : Prop :=
  pa % PGSIZE ≠ 0 ∨ pa < L.kernelEnd ∨ pa ≥ PHYSTOP

instance (L : Layout) (pa : ℕ) : Decidable (badPage L pa) :=
  inferInstanceAs (Decidable (_ ∨ _))

def kfree (L : Layout) (pa : ℕ) (m : KMem) : Kres KMem := do
  if badPage L pa then
    throw (.panic "kfree")
  let m := m.setCnt pa (m.cnt (pa / PGSIZE) - 1)
  if m.cnt (pa / PGSIZE) = 0 then
    let m := m.memset pa 1
    let b ← buddyFree L pa 0 m.buddy
    return { m with buddy := b }
  else return m

/-- `kfree` of one page after the other. -/
def kfreeAll (L : Layout) : List ℕ → KMem → Kres KMem
  | [], m => .ok m
  | pa :: rest, m => do
      let m ← kfree L pa m
      kfreeAll L rest m

/-- With no page left `buddy_alloc` returns the null pointer, which `memset`
then writes through. -/
def kalloc (L : Layout) (m : KMem) : Kres (ℕ × KMem) := do
  let (result, b) ← buddyAlloc L 0 m.buddy
  let m := { m with buddy := b }.setCnt result 1
  if result = NULL then
    throw .nullStore
  return (result, m.memset result 0)

def krefcnt (pa : ℕ) (m : KMem) : BitVec 32 := m.cnt (pa / PGSIZE)

def kaddrefcnt (L : Layout) (pa : ℕ) (m : KMem) : ℤ × KMem :=
  if badPage L pa then (-1, m) else (0, m.setCnt pa (m.cnt (pa / PGSIZE) + 1))

/-! ## Pages in use -/

variable {L : Layout} {live : List (ℕ × ℕ)} {p : ℕ} {b : Buddy}

theorem kfreeAll_append (xs ys : List ℕ) (m : KMem) :
    kfreeAll L (xs ++ ys) m = kfreeAll L xs m >>= kfreeAll L ys := by
  induction xs generalizing m with
  | nil => rfl
  | cons x xs ih =>
    rw [List.cons_append, kfreeAll, kfreeAll, bind_assoc]
    exact bind_congr ih

theorem mem_map_pa_iff {blocks : List (ℕ × ℕ)} {q o : ℕ} :
    (L.pa q, o) ∈ (blocks.map fun b => (L.pa b.1, b.2)) ↔ (q, o) ∈ blocks :=
  List.mem_map_of_injective (pa_pair_injective L) (a := (q, o))

theorem HeapInv.exists_page (h : HeapInv L ⟨b, live⟩) {p o : ℕ} (hp : (p, o) ∈ live) :
    ∃ q, p = L.pa q ∧ q < L.pnumMax := by
  obtain ⟨free, blocks, -, hpart, hlive⟩ := h
  simp only at hlive
  rw [hlive] at hp
  obtain ⟨⟨q, o'⟩, hq, heq⟩ := List.mem_map.mp hp
  obtain ⟨rfl, rfl⟩ := Prod.mk.inj heq
  exact ⟨q, rfl, (hpart.fits_of_mem hq).lt_limit⟩

theorem not_badPage_pa {q : ℕ} (hq : q < L.pnumMax) : ¬ badPage L (L.pa q) := by
  have hlt := L.pa_lt hq
  have hle := L.start_le_pa q
  have hend := L.kernelEnd_le_start
  rintro (hmod | hlow | hhigh)
  · apply hmod
    simp only [Layout.pa, Layout.start, pgroundup]
    rw [← Nat.add_mul, Nat.mul_mod_left]
  · omega
  · omega

theorem HeapInv.not_badPage (h : HeapInv L ⟨b, live⟩) {p o : ℕ} (hp : (p, o) ∈ live) :
    ¬ badPage L p := by
  obtain ⟨q, rfl, hq⟩ := h.exists_page hp
  exact not_badPage_pa hq

/-- No block is held twice. -/
theorem HeapInv.nodup (h : HeapInv L ⟨b, live⟩) : live.Nodup := by
  obtain ⟨free, blocks, -, hpart, hlive⟩ := h
  simp only at hlive
  rw [hlive]
  apply List.Nodup.map (pa_pair_injective L)
  have hdisj := (List.pairwise_append.mp hpart.pairwise_disjoint).2.1
  refine hdisj.imp ?_
  rintro c d hcd rfl
  have hpos : 0 < 2 ^ c.2 := Nat.two_pow_pos _
  exact hcd c.1 ⟨⟨le_rfl, by omega⟩, le_rfl, by omega⟩

/-- The page belongs to a block on a free list. -/
def PageFree (L : Layout) (b : Buddy) (p : ℕ) : Prop :=
  ∃ o ≤ MAX_ORDER, ∃ l, Dll NULL b.run (L.sentinel o) l ∧
    ∃ block ∈ l, block ≤ p ∧ p < block + 2 ^ o * PGSIZE

theorem pa_le_pa_iff {q q' : ℕ} : L.pa q ≤ L.pa q' ↔ q ≤ q' := by
  simp only [Layout.pa, PGSIZE]
  omega

theorem pa_lt_add_iff {q q' o : ℕ} : L.pa q' < L.pa q + 2 ^ o * PGSIZE ↔ q' < q + 2 ^ o := by
  simp only [Layout.pa, PGSIZE]
  omega

/-- Two blocks in use that meet are one block. -/
theorem HeapInv.block_unique (h : HeapInv L ⟨b, live⟩) {p o p' o' a : ℕ} (hp : (p, o) ∈ live)
    (hp' : (p', o') ∈ live) (hle : p ≤ a) (hlt : a < p + 2 ^ o * PGSIZE) (hle' : p' ≤ a)
    (hlt' : a < p' + 2 ^ o' * PGSIZE) : (p, o) = (p', o') := by
  obtain ⟨free, blocks, -, hpart, hlive⟩ := h
  simp only at hlive
  subst hlive
  obtain ⟨⟨q, o⟩, hq, heq⟩ := List.mem_map.mp hp
  obtain ⟨rfl, rfl⟩ := Prod.mk.inj heq
  obtain ⟨⟨q', o'⟩, hq', heq'⟩ := List.mem_map.mp hp'
  obtain ⟨rfl, rfl⟩ := Prod.mk.inj heq'
  have hdisj := (List.pairwise_append.mp hpart.pairwise_disjoint).2.1
  have hsymm : Std.Symm BuddySystem.Disjoint := ⟨fun c d hcd x hx => hcd x hx.symm⟩
  simp only [Layout.pa, PGSIZE] at hle hlt hle' hlt'
  have hsame : (q, o) = (q', o') := by
    by_contra hne
    refine hdisj.forall hq hq' hne ((a - L.pa 0) / PGSIZE) ⟨⟨?_, ?_⟩, ?_, ?_⟩
    all_goals
      simp only [Layout.pa, PGSIZE]
      omega
  rw [Prod.mk.inj hsame |>.1, Prod.mk.inj hsame |>.2]

/-- A held page is on no free list. -/
theorem HeapInv.not_pageFree (h : HeapInv L ⟨b, live⟩) (hp : (p, 0) ∈ live) : ¬ PageFree L b p := by
  obtain ⟨free, blocks, hrep, hpart, hlive⟩ := h
  simp only at hlive hrep
  rw [hlive] at hp
  obtain ⟨⟨q, o'⟩, hq, heq⟩ := List.mem_map.mp hp
  obtain ⟨rfl, rfl⟩ := Prod.mk.inj heq
  rintro ⟨o, ho, l, hl, block, hblock, hle, hlt⟩
  rw [Dll.unique hl (hrep.dll o ho)] at hblock
  obtain ⟨r, hr, rfl⟩ := List.mem_map.mp hblock
  have hdisj := (List.pairwise_append.mp hpart.pairwise_disjoint).2.2
  refine hdisj (r, o) (mem_freeBlocks.mpr ⟨ho, hr⟩) (q, 0) hq q ⟨⟨?_, ?_⟩, le_rfl, by simp⟩
  · exact pa_le_pa_iff.mp hle
  · exact pa_lt_add_iff.mp hlt

/-- A page that was held, in a state whose held blocks are among the earlier
ones but for this page, is back on a free list. -/
theorem HeapInv.pageFree_of_released {b b' : Buddy} {live live' : List (ℕ × ℕ)}
    (h : HeapInv L ⟨b, live⟩) (h' : HeapInv L ⟨b', live'⟩) (hsub : live' ⊆ live)
    (hp : (p, 0) ∈ live) (hp' : (p, 0) ∉ live') : PageFree L b' p := by
  obtain ⟨q, rfl, hq⟩ := h.exists_page hp
  obtain ⟨free, blocks, -, hpart, hlive⟩ := h
  obtain ⟨free', blocks', hrep', hpart', hlive'⟩ := h'
  simp only at hlive hlive' hrep'
  have hmem : (q, 0) ∈ blocks := by
    rw [hlive] at hp
    exact mem_map_pa_iff.mp hp
  obtain ⟨⟨r, o⟩, hblock, hle, hlt⟩ := hpart'.exists_block hq
  rcases List.mem_append.mp hblock with hfree | hheld
  · obtain ⟨ho, hr⟩ := mem_freeBlocks.mp hfree
    exact ⟨o, ho, _, hrep'.dll o ho, L.pa r, List.mem_map_of_mem hr, pa_le_pa_iff.mpr hle,
      pa_lt_add_iff.mpr hlt⟩
  · have hr : (r, o) ∈ blocks := by
      have hin : (L.pa r, o) ∈ live := by
        apply hsub
        rw [hlive']
        exact mem_map_pa_iff.mpr hheld
      rw [hlive] at hin
      exact mem_map_pa_iff.mp hin
    have hdisj := (List.pairwise_append.mp hpart.pairwise_disjoint).2.1
    have heq : (r, o) = (q, 0) := by
      by_contra hne
      have hsymm : Std.Symm BuddySystem.Disjoint := ⟨fun c d hcd x hx => hcd x hx.symm⟩
      exact hdisj.forall hr hmem hne q ⟨⟨hle, hlt⟩, le_rfl, by simp⟩
    rw [heq] at hheld
    rw [hlive'] at hp'
    exact absurd (mem_map_pa_iff.mpr hheld) hp'

/-! ## Owned pages -/

theorem page_eq_of_frame_eq {p p' : ℕ} (hp : ¬ badPage L p) (hp' : ¬ badPage L p')
    (h : p / PGSIZE = p' / PGSIZE) : p = p' := by
  simp only [badPage, not_or, not_not] at hp hp'
  rw [← Nat.div_add_mod p PGSIZE, ← Nat.div_add_mod p' PGSIZE, h, hp.1, hp'.1]

variable {κ : Type} {m m' : KMem} {live live' : List (ℕ × ℕ)} {own : κ → Option ℕ}

/-- The blocks in use are `live`, and every page the map names is one of them. -/
structure Tracked (L : Layout) (m : KMem) (live : List (ℕ × ℕ)) (own : κ → Option ℕ) : Prop where
  heap : HeapInv L ⟨m.buddy, live⟩
  held : ∀ k p, own k = some p → (p, 0) ∈ live
  exclusive : Exclusive own

/-- Only pages that were not in use have been touched, and these have one
reference. -/
structure Grows (m : KMem) (live : List (ℕ × ℕ)) (m' : KMem) (live' : List (ℕ × ℕ)) : Prop where
  subset : live ⊆ live'
  cnt : ∀ p, (p, 0) ∈ live → m'.cnt (p / PGSIZE) = m.cnt (p / PGSIZE)
  frame : ∀ p, (p, 0) ∈ live → m'.frame (p / PGSIZE) = m.frame (p / PGSIZE)
  fresh : ∀ p, (p, 0) ∈ live' → (p, 0) ∉ live → m'.cnt (p / PGSIZE) = 1

theorem Grows.refl (m : KMem) (live : List (ℕ × ℕ)) : Grows m live m live where
  subset := List.Subset.refl _
  cnt _ _ := rfl
  frame _ _ := rfl
  fresh _ h h' := absurd h h'

theorem Grows.trans {m₁ m₂ m₃ : KMem} {l₁ l₂ l₃ : List (ℕ × ℕ)} (h : Grows m₁ l₁ m₂ l₂)
    (h' : Grows m₂ l₂ m₃ l₃) : Grows m₁ l₁ m₃ l₃ where
  subset := List.Subset.trans h.subset h'.subset
  cnt p hp := (h'.cnt p (h.subset hp)).trans (h.cnt p hp)
  frame p hp := (h'.frame p (h.subset hp)).trans (h.frame p hp)
  fresh p hp hnot := by
    by_cases hmid : (p, 0) ∈ l₂
    · rw [h'.cnt p hmid]
      exact h.fresh p hmid hnot
    · exact h'.fresh p hp hmid

namespace Tracked

theorem mono {κ' : Type} (h : Tracked L m live own) {own' : κ' → Option ℕ} (name : κ' → κ)
    (hname : Function.Injective name) (hsub : ∀ k p, own' k = some p → own (name k) = some p) :
    Tracked L m live own' where
  heap := h.heap
  held k p hk := h.held _ p (hsub k p hk)
  exclusive k k' p hk hk' := hname (h.exclusive _ _ p (hsub k p hk) (hsub k' p hk'))

theorem not_badPage (h : Tracked L m live own) {k : κ} (hk : own k = some p) :
    ¬ badPage L p := h.heap.not_badPage (h.held k p hk)

theorem not_pageFree (h : Tracked L m live own) {k : κ} (hk : own k = some p) :
    ¬ PageFree L m.buddy p := h.heap.not_pageFree (h.held k p hk)

variable [DecidableEq κ]

/-- `kalloc` returns a zeroed page that was not in use. -/
theorem of_kalloc (h : Tracked L m live own) (hcall : kalloc L m = .ok (p, m')) (name : κ) :
    (p, 0) ∉ live ∧ Tracked L m' ((p, 0) :: live) (update own name (some p)) ∧
      Grows m live m' ((p, 0) :: live) ∧ m'.frame (p / PGSIZE) = fun _ => 0 := by
  simp only [kalloc, bind_eq_ok] at hcall
  obtain ⟨⟨result, b⟩, halloc, hcall⟩ := hcall
  have hheap := heapInv_alloc h.heap (Nat.zero_le _) halloc
  by_cases hnull : result = NULL
  · simp [hnull] at hcall
  · simp only [hnull, if_false, pure_eq_ok,
      Prod.mk.injEq] at hcall hheap
    obtain ⟨rfl, rfl⟩ := hcall
    have hfresh : (result, 0) ∉ live := (List.nodup_cons.mp hheap.nodup).1
    have hne : ∀ p, (p, 0) ∈ live → p / PGSIZE ≠ result / PGSIZE := by
      intro p hp heq
      have hpr := page_eq_of_frame_eq (hheap.not_badPage (List.mem_cons_of_mem _ hp))
        (hheap.not_badPage List.mem_cons_self) heq
      exact hfresh (hpr ▸ hp)
    refine ⟨hfresh, ⟨hheap, ?_, ?_⟩, ⟨?_, ?_, ?_, ?_⟩, ?_⟩
    · intro k p hk
      rcases eq_some_of_update hk with ⟨-, rfl⟩ | ⟨-, hk⟩
      · exact List.mem_cons_self
      · exact List.mem_cons_of_mem _ (h.held k p hk)
    · exact h.exclusive.acquire name fun k hk => hfresh (h.held k _ hk)
    · exact List.subset_cons_self _ _
    · intro p hp
      simp [KMem.memset, KMem.setCnt, update_of_ne (hne p hp)]
    · intro p hp
      simp [KMem.memset, KMem.setCnt, update_of_ne (hne p hp)]
    · intro p hp hnot
      obtain ⟨rfl, -⟩ : p = result ∧ (0 : ℕ) = 0 := by simpa [hnot] using hp
      simp [KMem.memset, KMem.setCnt]
    · simp [KMem.memset]

/-- The last reference to an owned page goes: the page returns to the buddy
allocator. -/
theorem of_kfree (h : Tracked L m live own) {i : κ} (hp : own i = some p)
    (hcnt : m.cnt (p / PGSIZE) = 1) :
    ∃ m', kfree L p m = .ok m' ∧
      Tracked L m' (live.erase (p, 0)) (update own i none) ∧
      ∀ f, f ≠ p / PGSIZE → m'.cnt f = m.cnt f ∧ m'.frame f = m.frame f := by
  obtain ⟨b, hb, hheap⟩ := heapInv_free h.heap (h.held i p hp)
  simp only at hheap
  refine ⟨{ (m.setCnt p 0).memset p 1 with buddy := b }, ?_, ⟨hheap, ?_, ?_⟩, ?_⟩
  · have hzero : m.cnt (p / PGSIZE) - 1 = 0 := by rw [hcnt]; rfl
    simp only at hb
    simp only [kfree, if_neg (h.not_badPage hp), hzero, KMem.setCnt_cnt_self, if_true,
      KMem.memset_buddy, KMem.setCnt_buddy, hb, ok_bind, pure_eq]
  · intro k p' hk
    obtain ⟨hk', hne⟩ := h.exclusive.dropped hp hk
    exact (List.mem_erase_of_ne (by simpa using hne)).mpr (h.held k p' hk')
  · exact h.exclusive.mono fun k p' hk => (h.exclusive.dropped hp hk).1
  · intro f hf
    simp [KMem.memset, KMem.setCnt, update_of_ne hf]

end Tracked

/-- Each owned page has one reference. -/
def Single (m : KMem) (own : κ → Option ℕ) : Prop :=
  ∀ k p, own k = some p → m.cnt (p / PGSIZE) = 1

/-- Some owners have received pages that were not in use. -/
structure Acquires (L : Layout) (m : KMem) (live : List (ℕ × ℕ)) (own : κ → Option ℕ)
    (m' : KMem) (live' : List (ℕ × ℕ)) (own' : κ → Option ℕ) : Prop where
  tracked : Tracked L m' live' own'
  grows : Grows m live m' live'
  old_or_new : ∀ k p, own' k = some p → (∃ k', own k' = some p) ∨ (p, 0) ∉ live

/-- The same without a promise about counts. -/
structure Gains (L : Layout) (live : List (ℕ × ℕ)) (own : κ → Option ℕ) (m' : KMem)
    (live' : List (ℕ × ℕ)) (own' : κ → Option ℕ) : Prop where
  tracked : Tracked L m' live' own'
  subset : live ⊆ live'
  old_or_new : ∀ k p, own' k = some p → (∃ k', own k' = some p) ∨ (p, 0) ∉ live

/-- Some owners have given up their pages. A page whose last reference was dropped
is no longer in use; nothing else has been taken out of use. -/
structure Drops (L : Layout) (m : KMem) (live : List (ℕ × ℕ)) (own : κ → Option ℕ)
    (m' : KMem) (live' : List (ℕ × ℕ)) (own' : κ → Option ℕ) : Prop where
  tracked : Tracked L m' live' own'
  subset : live' ⊆ live
  kept : ∀ k p, own' k = some p → own k = some p
  cnt : ∀ k p, own' k = some p → m'.cnt (p / PGSIZE) = m.cnt (p / PGSIZE)
  frame : ∀ p, (p, 0) ∈ live' → m'.frame (p / PGSIZE) = m.frame (p / PGSIZE)
  lost : ∀ b ∈ live, b ∉ live' → ∃ k, own k = some b.1 ∧ own' k = none
  gone : ∀ k p, own k = some p → own' k = none → m.cnt (p / PGSIZE) = 1 → (p, 0) ∉ live'

section Moves

variable {m'' : KMem} {live'' : List (ℕ × ℕ)} {own' own'' : κ → Option ℕ}

theorem Acquires.refl (h : Tracked L m live own) : Acquires L m live own m live own where
  tracked := h
  grows := Grows.refl m live
  old_or_new k _ hk := Or.inl ⟨k, hk⟩

theorem Acquires.trans (h : Acquires L m live own m' live' own')
    (h' : Acquires L m' live' own' m'' live'' own'') : Acquires L m live own m'' live'' own'' where
  tracked := h'.tracked
  grows := h.grows.trans h'.grows
  old_or_new k p hk := by
    rcases h'.old_or_new k p hk with ⟨k', hold⟩ | hnew
    · exact h.old_or_new k' p hold
    · exact Or.inr fun hlive => hnew (h.grows.subset hlive)

/-- Pages may change hands afterwards. -/
theorem Acquires.move (h : Acquires L m live own m' live' own') (name : κ → κ)
    (hname : Function.Injective name) (hsub : ∀ k p, own'' k = some p → own' (name k) = some p) :
    Acquires L m live own m' live' own'' where
  tracked := h.tracked.mono name hname hsub
  grows := h.grows
  old_or_new k p hk := h.old_or_new (name k) p (hsub k p hk)

theorem Acquires.forget (h : Acquires L m live own m' live' own')
    (hsub : ∀ k p, own'' k = some p → own' k = some p) : Acquires L m live own m' live' own'' :=
  h.move id Function.injective_id hsub

theorem Acquires.single (h : Acquires L m live own m' live' own') (ht : Tracked L m live own)
    (hs : Single m own) : Single m' own' := by
  intro k p hk
  rcases h.old_or_new k p hk with ⟨k', hold⟩ | hnew
  · rw [h.grows.cnt p (ht.held k' p hold)]
    exact hs k' p hold
  · exact h.grows.fresh p (h.tracked.held k p hk) hnew

theorem Acquires.gains (h : Acquires L m live own m' live' own') :
    Gains L live own m' live' own' :=
  ⟨h.tracked, h.grows.subset, h.old_or_new⟩

theorem Gains.trans (h : Gains L live own m' live' own')
    (h' : Gains L live' own' m'' live'' own'') :
    Gains L live own m'' live'' own'' where
  tracked := h'.tracked
  subset := List.Subset.trans h.subset h'.subset
  old_or_new k p hk := by
    rcases h'.old_or_new k p hk with ⟨k', hold⟩ | hnew
    · exact h.old_or_new k' p hold
    · exact Or.inr fun hlive => hnew (h.subset hlive)

theorem Drops.refl (h : Tracked L m live own) : Drops L m live own m live own where
  tracked := h
  subset := List.Subset.refl _
  kept _ _ hk := hk
  cnt _ _ _ := rfl
  frame _ _ := rfl
  lost _ hb hnot := absurd hb hnot
  gone k p hk hnone := by simp [hk] at hnone

theorem Drops.trans (h : Drops L m live own m' live' own')
    (h' : Drops L m' live' own' m'' live'' own'') : Drops L m live own m'' live'' own'' where
  tracked := h'.tracked
  subset := List.Subset.trans h'.subset h.subset
  kept k p hk := h.kept k p (h'.kept k p hk)
  cnt k p hk := (h'.cnt k p hk).trans (h.cnt k p (h'.kept k p hk))
  frame p hp := (h'.frame p hp).trans (h.frame p (h'.subset hp))
  lost b hb hnot := by
    by_cases hmid : b ∈ live'
    · obtain ⟨k, hk, hnone⟩ := h'.lost b hmid hnot
      exact ⟨k, h.kept k _ hk, hnone⟩
    · obtain ⟨k, hk, hnone⟩ := h.lost b hb hmid
      refine ⟨k, hk, ?_⟩
      cases hlast : own'' k with
      | none => rfl
      | some q =>
        rw [h'.kept k q hlast] at hnone
        cases hnone
  gone k p hk hnone hone := by
    cases hmid : own' k with
    | none => exact fun hlive => h.gone k p hk hmid hone (h'.subset hlive)
    | some q =>
      have hq := h.kept k q hmid
      rw [hk, Option.some.injEq] at hq
      rw [← hq] at hmid
      exact h'.gone k p hmid hnone ((h.cnt k p hmid).trans hone)

theorem Drops.single (h : Drops L m live own m' live' own') (hs : Single m own) :
    Single m' own' := by
  intro k p hk
  rw [h.cnt k p hk]
  exact hs k p (h.kept k p hk)

/-- Two names for the same state of ownership. -/
theorem Drops.congr (h : Drops L m live own m' live' own') (heq : ∀ k, own'' k = own' k) :
    Drops L m live own m' live' own'' := by
  rw [show own'' = own' from funext heq]
  exact h

variable [DecidableEq κ]

theorem Tracked.acquire (h : Tracked L m live own) (hcall : kalloc L m = .ok (p, m')) (name : κ) :
    Acquires L m live own m' ((p, 0) :: live) (update own name (some p)) := by
  obtain ⟨hnew, ht, hg, -⟩ := h.of_kalloc hcall name
  refine ⟨ht, hg, fun k q hk => ?_⟩
  rcases eq_some_of_update hk with ⟨-, rfl⟩ | ⟨-, hk⟩
  · exact Or.inr hnew
  · exact Or.inl ⟨k, hk⟩

/-- A page with more references only loses one. -/
theorem kfree_shared (hbad : ¬ badPage L p) (hcnt : m.cnt (p / PGSIZE) ≠ 1) :
    kfree L p m = .ok (m.setCnt p (m.cnt (p / PGSIZE) - 1)) := by
  have hne : ¬ m.cnt (p / PGSIZE) - 1 = 0 := by
    intro h
    apply hcnt
    bv_omega
  simp only [kfree, if_neg hbad, KMem.setCnt_cnt_self, if_neg hne, pure_eq]

/-- An owner gives up its page, whatever the count says. -/
theorem Tracked.drop (h : Tracked L m live own) {name : κ} (hp : own name = some p) :
    ∃ m' live', kfree L p m = .ok m' ∧
      Drops L m live own m' live' (update own name none) := by
  have hkept := fun k q hk => (h.exclusive.dropped (k := k) (b := q) hp hk)
  have hframe : ∀ {q}, (q, 0) ∈ live → q ≠ p → q / PGSIZE ≠ p / PGSIZE :=
    fun hq hne heq => hne (page_eq_of_frame_eq (h.heap.not_badPage hq) (h.not_badPage hp) heq)
  by_cases hone : m.cnt (p / PGSIZE) = 1
  · obtain ⟨m', hm', ht, hsame⟩ := h.of_kfree hp hone
    refine ⟨m', live.erase (p, 0), hm', ht, List.erase_subset, fun k q hk => (hkept k q hk).1,
      ?_, ?_, ?_, ?_⟩
    · intro k q hk
      obtain ⟨hold, hne⟩ := hkept k q hk
      exact (hsame _ (hframe (h.held k q hold) hne)).1
    · intro q hq
      refine (hsame _ (hframe (List.mem_of_mem_erase hq) ?_)).2
      rintro rfl
      exact h.heap.nodup.not_mem_erase hq
    · intro b hb hnot
      have hbp : b = (p, 0) := by
        by_contra hne
        exact hnot ((List.mem_erase_of_ne hne).mpr hb)
      exact ⟨name, by rw [hbp]; exact hp, update_self _ _ _⟩
    · intro k q hk hnone _
      by_cases hn : k = name
      · subst hn
        rw [hp, Option.some.injEq] at hk
        rw [← hk]
        exact h.heap.nodup.not_mem_erase
      · rw [update_of_ne hn, hk] at hnone
        cases hnone
  · refine ⟨_, live, kfree_shared (h.not_badPage hp) hone,
      ⟨h.heap, fun k q hk => h.held k q (hkept k q hk).1,
        h.exclusive.mono fun k q hk => (hkept k q hk).1⟩, List.Subset.refl _,
      fun k q hk => (hkept k q hk).1, ?_, fun _ _ => rfl, fun b hb hnot => absurd hb hnot, ?_⟩
    · intro k q hk
      obtain ⟨hold, hne⟩ := hkept k q hk
      simp only [KMem.setCnt, update_of_ne (hframe (h.held k q hold) hne)]
    · intro k q hk hnone hq
      by_cases hn : k = name
      · subst hn
        rw [hp, Option.some.injEq] at hk
        exact absurd (hk ▸ hq) hone
      · rw [update_of_ne hn, hk] at hnone
        cases hnone

/-- Several owners give up their pages one after the other. -/
theorem Tracked.kfreeAll (h : Tracked L m live own) {names : List κ} (hnodup : names.Nodup)
    (hown : ∀ k ∈ names, (own k).isSome) :
    ∃ m' live', LearnOS.kfreeAll L (names.filterMap own) m = .ok m' ∧
      Drops L m live own m' live' (without own fun k => decide (k ∈ names)) := by
  induction names generalizing m live own with
  | nil =>
    refine ⟨m, live, rfl, (Drops.refl h).congr fun k => ?_⟩
    simp [without]
  | cons name names ih =>
    obtain ⟨hnot, hnodup⟩ := List.nodup_cons.mp hnodup
    obtain ⟨p, hp⟩ := Option.isSome_iff_exists.mp (hown name List.mem_cons_self)
    obtain ⟨m₁, live₁, hm₁, hdrop⟩ := h.drop hp
    have hrest : ∀ k ∈ names, update own name none k = own k := fun k hk =>
      update_of_ne (by rintro rfl; exact hnot hk) _ _
    obtain ⟨m₂, live₂, hm₂, hdrop₂⟩ := ih hdrop.tracked hnodup fun k hk => by
      rw [hrest k hk]
      exact hown k (List.mem_cons_of_mem _ hk)
    refine ⟨m₂, live₂, ?_, (hdrop.trans hdrop₂).congr fun k => ?_⟩
    · rw [List.filterMap_congr hrest] at hm₂
      rw [List.filterMap_cons_some hp, LearnOS.kfreeAll, hm₁, ok_bind, hm₂]
    · by_cases hk : k = name
      · subst hk
        simp [without]
      · simp [without, hk]

/-- Some owners give up their pages, and each of the pages goes to `kfree`. -/
def Frees (L : Layout) (own : κ → Option ℕ) (m : KMem) (own' : κ → Option ℕ) (m' : KMem) : Prop :=
  ∃ names : List κ, names.Nodup ∧ (∀ k ∈ names, (own k).isSome) ∧
    LearnOS.kfreeAll L (names.filterMap own) m = .ok m' ∧
    ∀ k, own' k = without own (fun k => decide (k ∈ names)) k

namespace Frees

theorem refl (own : κ → Option ℕ) (m : KMem) : Frees L own m own m :=
  ⟨[], List.nodup_nil, fun _ hk => absurd hk List.not_mem_nil, rfl, fun k => by simp [without]⟩

theorem one {name : κ} (hname : own name = some p) (hcall : kfree L p m = .ok m') :
    Frees L own m (update own name none) m' := by
  refine ⟨[name], List.nodup_singleton _, fun k hk => ?_, ?_, fun k => ?_⟩
  · rw [List.mem_singleton.mp hk, hname]
    rfl
  · simp only [List.filterMap_cons, hname, List.filterMap_nil, LearnOS.kfreeAll, hcall,
      ok_bind]
  · by_cases hk : k = name
    · subst hk
      simp [without]
    · simp [without, hk]

theorem congr (h : Frees L own m own' m') (heq : ∀ k, own'' k = own' k) :
    Frees L own m own'' m' := by
  rw [show own'' = own' from funext heq]
  exact h

theorem trans (h : Frees L own m own' m') (h' : Frees L own' m' own'' m'') :
    Frees L own m own'' m'' := by
  obtain ⟨names, hnodup, hsome, hcall, hown⟩ := h
  obtain ⟨names', hnodup', hsome', hcall', hown'⟩ := h'
  have hout : ∀ k ∈ names', k ∉ names := by
    intro k hk hin
    have hk' := hsome' k hk
    rw [hown, without, if_pos (decide_eq_true hin)] at hk'
    cases hk'
  have hsame : ∀ k ∈ names', own' k = own k := by
    intro k hk
    rw [hown, without, if_neg (by simpa using hout k hk)]
  refine ⟨names ++ names', ?_, fun k hk => ?_, ?_, fun k => ?_⟩
  · exact List.nodup_append.mpr ⟨hnodup, hnodup', fun k hk k' hk' heq => hout k' hk' (heq ▸ hk)⟩
  · rcases List.mem_append.mp hk with hk | hk
    · exact hsome k hk
    · rw [← hsame k hk]
      exact hsome' k hk
  · rw [List.filterMap_append, kfreeAll_append, hcall, ok_bind, ← hcall']
    exact congrArg (LearnOS.kfreeAll L · m') (List.filterMap_congr fun k hk => (hsame k hk).symm)
  · rw [hown', without, hown]
    by_cases hk : k ∈ names <;> by_cases hk' : k ∈ names' <;> simp [without, hk, hk']

end Frees

theorem Tracked.frees (h : Tracked L m live own) (hfrees : Frees L own m own' m') :
    ∃ live', Drops L m live own m' live' own' := by
  obtain ⟨names, hnodup, hsome, hcall, hown⟩ := hfrees
  obtain ⟨m₁, live', hm₁, hdrop⟩ := h.kfreeAll hnodup hsome
  rw [hcall, Except.ok.injEq] at hm₁
  subst hm₁
  exact ⟨live', hdrop.congr hown⟩

end Moves

end LearnOS
