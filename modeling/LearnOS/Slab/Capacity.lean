import LearnOS.Slab.Reuse
import LearnOS.Mem.FreePages
import Mathlib.Data.Nat.Log

/-!
# What `kmalloc` returns for every size

A size takes three forms on its way to the buddy allocator: 64 bits for the
rounding, 32 for the number of pages, and an order that `buddy_alloc` checks.
A size for a cache needs a free slot or free pages, since `kalloc` never returns
the null pointer.

## Main results

`kmalloc_serves_iff` says for which sizes and heaps `kmalloc` returns either null
or a block that is large enough. `huge_sizes_misserved` has sizes for which it
returns one page, stops the kernel or does not end.
-/

namespace LearnOS

open LinkedList Slots BuddySystem Transition Function Kres

variable {L : Layout} {s s' : KHeap} {live : List (ℕ × ℕ)} {pool : CacheId → Option Pool}
  {c : CacheId} {P Q : Pool} {k : Km} {m m' : KMem} {sz : ℕ}
  {n p : ℕ}

/-! ## Orders -/

/-- `pgnum`, the number of pages as `kmalloc` computes it. -/
def pageCount (sz : ℕ) : ℕ := (sz + PGSIZE - 1) % 2 ^ 64 / PGSIZE % 2 ^ 32

theorem orderLoop_eq {pgnum order : ℕ} (h : order ≤ Nat.clog 2 pgnum) :
    orderLoop pgnum n order =
      if Nat.clog 2 pgnum < order + n then .ok (Nat.clog 2 pgnum) else .error .undefined := by
  induction n generalizing order with
  | zero =>
    rw [orderLoop, if_neg]
    omega
  | succ n ih =>
    rw [orderLoop]
    by_cases hlt : 2 ^ order < pgnum
    · have hstep : order + 1 ≤ Nat.clog 2 pgnum := (Nat.lt_clog_iff_pow_lt one_lt_two).mpr hlt
      rw [if_pos hlt, ih hstep, Nat.add_assoc, Nat.add_comm 1 n]
    · have heq : Nat.clog 2 pgnum = order := by
        refine le_antisymm ?_ h
        exact (Nat.clog_le_iff_le_pow one_lt_two).mpr (Nat.not_lt.mp hlt)
      rw [if_neg hlt, heq, if_pos (by omega)]

/-! ## Free pages -/

/-- The lists hold a block of two pages or more, or two blocks of one page. -/
def HasTwoPages (L : Layout) (b : Buddy) : Prop :=
  (∃ o ≤ MAX_ORDER, 1 ≤ o ∧ buddyGetfirst L o b ≠ NULL) ∨
    buddyGetfirst L 0 b ≠ NULL ∧ b.run.next (buddyGetfirst L 0 b) ≠ NULL

theorem hasTwoPages_iff {b : Buddy} {free : FreeLists} (h : Rep L b free) :
    HasTwoPages L b ↔
      (∃ o ≤ MAX_ORDER, 1 ≤ o ∧ free o ≠ []) ∨ 1 < (free 0).length := by
  refine or_congr ?_ ?_
  · refine exists_congr fun o => and_congr_right fun ho => and_congr_right fun _ => ?_
    exact not_congr (buddyGetfirst_eq_null_iff h ho)
  · have hdll := h.dll 0 (Nat.zero_le _)
    rw [buddyGetfirst]
    cases hfree : free 0 with
    | nil =>
      rw [hfree] at hdll
      simp [show b.run.next (L.sentinel 0) = NULL from hdll]
    | cons q rest =>
      rw [hfree, List.map_cons] at hdll
      obtain ⟨hnext, -, hnull, hrest⟩ := hdll
      rw [hnext]
      have hiff := Dll.next_eq_null_iff hrest
      rw [List.map_eq_nil_iff] at hiff
      simp only [ne_eq, hnull, not_false_eq_true, true_and, hiff, List.length_cons]
      cases rest <;> simp

theorem kalloc_left_iff (h : HeapInv L ⟨m.buddy, live⟩) (hcall : kalloc L m = .ok (p, m')) :
    HasPage L m'.buddy ↔ HasTwoPages L m.buddy := by
  obtain ⟨free, blocks, hrep, hpart, -⟩ := h
  have hspec := buddyAlloc_refines hrep hpart.packed hpart.aligned (Nat.zero_le MAX_ORDER)
  simp only [kalloc, bind_eq_ok] at hcall
  obtain ⟨⟨q, b⟩, halloc, hcall⟩ := hcall
  have hb : q ≠ NULL → m'.buddy = b := by
    intro hq
    simp only [if_neg hq, pure_eq_ok, Prod.mk.injEq] at hcall
    rw [← hcall.2]
    rfl
  cases habs : alloc MAX_ORDER 0 free with
  | none =>
    rw [habs] at hspec
    simp only at hspec
    rw [hspec, Except.ok.injEq, Prod.mk.injEq] at halloc
    simp [← halloc.1] at hcall
  | some r =>
    obtain ⟨q', free'⟩ := r
    rw [habs] at hspec
    obtain ⟨b', hb', hrep'⟩ := hspec
    rw [hb', Except.ok.injEq, Prod.mk.injEq] at halloc
    obtain ⟨rfl, rfl⟩ := halloc
    rw [hb (L.pa_ne_null q'), hasPage_iff hrep', hasTwoPages_iff hrep, alloc_page_left habs]

/-! ## Caches that can serve -/

/-- The free list of the cache is not empty. -/
def HasSlot (s : KHeap) (c : CacheId) : Prop := s.word (listHead s c) ≠ NULL

instance (s : KHeap) (c : CacheId) : Decidable (HasSlot s c) := inferInstanceAs (Decidable (¬ _))

/-- The cache has a free slot, or there are the pages it needs to grow: one for its
objects, and for a large cache one more if `g_slab_16` has to grow for the node. -/
def Supplied (L : Layout) (s : KHeap) (c : CacheId) : Prop :=
  HasSlot s c ∨
    if (s.cache c).size > 16 ∧ ¬ HasSlot s .gSlab16 then HasTwoPages L s.mem.buddy
    else HasPage L s.mem.buddy

theorem hasSlot_iff (h : SlabInv L s live pool) (hP : pool c = some P) :
    HasSlot s c ↔ P.free ≠ [] := by
  rw [HasSlot, h.listHead_eq hP, ne_eq, ← h.free_nil_iff hP]

theorem allocPage_returns_iff (h : SlabInv L s live pool) :
    (∃ r, s.allocPage L = .ok r) ↔ HasPage L s.mem.buddy := by
  rw [← kalloc_returns_iff h.heap]
  simp only [KHeap.allocPage, bind_eq_ok, pure_eq]
  constructor
  · rintro ⟨_, r, hr, -⟩
    exact ⟨r, hr⟩
  · rintro ⟨r, hr⟩
    exact ⟨_, r, hr, rfl⟩

theorem linkSlots_mem (page u n j : ℕ) (s : KHeap) : (linkSlots page u n j s).mem = s.mem := by
  induction n generalizing j s with
  | zero => rfl
  | succ n ih => exact ih _ _

theorem initSmall_mem {u : ℕ} (hcall : initSmallObjectPool L u 1 s = .ok (p, s')) :
    ∃ r, kalloc L s.mem = .ok (p, r) ∧ s'.mem = r := by
  simp only [initSmallObjectPool, KHeap.allocPage, bind_eq_ok, pure_eq_ok,
    smallPages, Nat.sub_self, Prod.mk.injEq, Prod.exists] at hcall
  obtain ⟨p', s₁, ⟨q, r, hr, rfl, rfl⟩, p₂, s₂, ⟨rfl, rfl⟩, rfl, rfl⟩ := hcall
  exact ⟨r, hr, linkSlots_mem _ _ _ _ _⟩

theorem initSmall_returns_iff (h : SlabInv L s live pool) (u : ℕ) :
    (∃ r, initSmallObjectPool L u 1 s = .ok r) ↔ HasPage L s.mem.buddy := by
  rw [← allocPage_returns_iff h]
  simp only [initSmallObjectPool, bind_eq_ok, pure_eq, Nat.sub_self, smallPages]
  constructor
  · rintro ⟨_, r, hr, -⟩
    exact ⟨r, hr⟩
  · rintro ⟨r, hr⟩
    exact ⟨_, r, hr, _, rfl, rfl⟩

theorem allocSmall_returns_iff (hc : c.Small) (h : SlabInv L s live pool) (hP : pool c = some P) :
    (∃ r, allocSmallObjectPool L c allocTries s = .ok r) ↔ P.free ≠ [] ∨ HasPage L s.mem.buddy := by
  rw [allocTries]
  cases hfree : P.free with
  | cons x f =>
    rw [allocSmall_cons hc h hP hfree]
    exact iff_of_true ⟨_, rfl⟩ (Or.inl (List.cons_ne_nil _ _))
  | nil =>
    rw [allocSmall_nil hc h hP hfree, ← initSmall_returns_iff h c.unit]
    simp only [bind_eq_ok, ne_eq, not_true_eq_false, false_or]
    constructor
    · rintro ⟨_, r, hr, -⟩
      exact ⟨r, hr⟩
    · rintro ⟨⟨newpg, s₁⟩, hinit⟩
      obtain ⟨live₁, h₁, -⟩ := growSmall_spec hc h hP hfree hinit rfl
      obtain ⟨x, f, hfree₁⟩ := Pool.grow_free_ne_nil (c := c) P newpg P.nodes
      exact ⟨_, _, hinit, allocSmall_cons hc h₁ (update_self _ _ _) hfree₁ 0⟩

theorem allocNode_eq (h : SlabInv L s live pool) (hQ : pool .gSlab16 = some Q) :
    allocNode L s = allocSmallObjectPool L .gSlab16 allocTries s := by
  rw [allocNode, if_neg]
  rw [h.size_gt_iff hQ]
  decide

/-- The pages left after a node has been taken. -/
theorem allocNode_left_iff (h : SlabInv L s live pool) (hQ : pool .gSlab16 = some Q)
    (hcall : allocNode L s = .ok (n, s')) :
    HasPage L s'.mem.buddy ↔
      if Q.free = [] then HasTwoPages L s.mem.buddy else HasPage L s.mem.buddy := by
  have hc : CacheId.Small .gSlab16 := by decide
  rw [allocNode_eq h hQ, allocTries] at hcall
  cases hfree : Q.free with
  | cons x f =>
    rw [allocSmall_cons hc h hQ hfree, Except.ok.injEq, Prod.mk.injEq] at hcall
    rw [← hcall.2, if_neg (List.cons_ne_nil _ _)]
    rfl
  | nil =>
    rw [allocSmall_nil hc h hQ hfree, bind_eq_ok] at hcall
    obtain ⟨⟨newpg, s₁⟩, hinit, hcall⟩ := hcall
    obtain ⟨live₁, h₁, -⟩ := growSmall_spec hc h hQ hfree hinit rfl
    obtain ⟨x, f, hfree₁⟩ := Pool.grow_free_ne_nil (c := .gSlab16) Q newpg Q.nodes
    rw [allocSmall_cons hc h₁ (update_self _ _ _) hfree₁, Except.ok.injEq,
      Prod.mk.injEq] at hcall
    obtain ⟨r, hr, hmem⟩ := initSmall_mem hinit
    rw [if_pos rfl, ← kalloc_left_iff h.heap hr, ← hmem, ← hcall.2]
    rfl

theorem initLarge_returns_iff (h : SlabInv L s live pool) (hQ : pool .gSlab16 = some Q) (u : ℕ) :
    (∃ r, initLargeObjectPool L u 1 s = .ok r) ↔
      if Q.free = [] then HasTwoPages L s.mem.buddy else HasPage L s.mem.buddy := by
  have hsplit : (∃ r, initLargeObjectPool L u 1 s = .ok r) ↔
      ∃ n s₁, allocNode L s = .ok (n, s₁) ∧ ∃ r, s₁.allocPage L = .ok r := by
    simp only [initLargeObjectPool, bind_eq_ok, pure_eq, Nat.sub_self, largePages]
    constructor
    · rintro ⟨_, ⟨n, s₁⟩, hnode, r, hr, -⟩
      exact ⟨n, s₁, hnode, r, hr⟩
    · rintro ⟨n, s₁, hnode, r, hr⟩
      exact ⟨_, ⟨n, s₁⟩, hnode, r, hr, _, rfl, rfl⟩
  rw [hsplit]
  constructor
  · rintro ⟨n, s₁, hnode, hr⟩
    obtain ⟨live₁, Q₁, ht⟩ := allocNode_spec h hQ hnode
    exact (allocNode_left_iff h hQ hnode).mp ((allocPage_returns_iff ht.inv).mp hr)
  · intro hleft
    have hnode : ∃ r, allocNode L s = .ok r := by
      rw [allocNode_eq h hQ, allocSmall_returns_iff (by decide) h hQ]
      by_cases hfree : Q.free = []
      · rw [if_pos hfree] at hleft
        right
        rcases hleft with ⟨o, ho, -, hne⟩ | ⟨hne, -⟩
        · exact ⟨o, ho, hne⟩
        · exact ⟨0, Nat.zero_le _, hne⟩
      · exact Or.inl hfree
    obtain ⟨⟨n, s₁⟩, hnode⟩ := hnode
    obtain ⟨live₁, Q₁, ht⟩ := allocNode_spec h hQ hnode
    exact ⟨n, s₁, hnode,
      (allocPage_returns_iff ht.inv).mpr ((allocNode_left_iff h hQ hnode).mpr hleft)⟩

/-- `kmem_cache_alloc` returns exactly if the cache is supplied. -/
theorem kmemCacheAlloc_returns_iff (h : SlabInv L s live pool) (hP : pool c = some P)
    (hQ : pool .gSlab16 = some Q) : (∃ r, kmemCacheAlloc L c s = .ok r) ↔ Supplied L s c := by
  simp only [Supplied, hasSlot_iff h hP, hasSlot_iff h hQ, h.size_gt_iff hP, ne_eq, not_not]
  by_cases hc : c.Small
  · rw [kmemCacheAlloc, if_neg (mt (h.size_gt_iff hP).mp (not_not.mpr hc)),
      allocSmall_returns_iff hc h hP, if_neg fun hboth => hboth.1 hc]
  · rw [kmemCacheAlloc, if_pos ((h.size_gt_iff hP).mpr hc), allocTries]
    simp only [hc, not_false_eq_true, true_and]
    cases hfree : P.free with
    | cons x f =>
      rw [allocLarge_cons hc h hP hfree]
      exact iff_of_true ⟨_, rfl⟩ (Or.inl (List.cons_ne_nil _ _))
    | nil =>
      rw [allocLarge_nil hc h hP hfree, ← initLarge_returns_iff h hQ c.unit]
      simp only [bind_eq_ok, not_true_eq_false, false_or]
      constructor
      · rintro ⟨_, r, hr, -⟩
        exact ⟨r, hr⟩
      · rintro ⟨⟨newnode, s₁⟩, hinit⟩
        obtain ⟨live₁, Q', p, -, -, h₁⟩ := growLarge_spec hc h hP hQ hfree hinit rfl
        obtain ⟨x, f, hfree₁⟩ := Pool.grow_free_ne_nil (c := c) P p (newnode :: P.nodes)
        exact ⟨_, _, hinit, allocLarge_cons hc h₁ (update_self _ _ _) hfree₁ 0⟩

/-! ## Sizes that are served -/

/-- `kmalloc` returns the null pointer, or the start of a block of at least `sz`
bytes that is in use. -/
def KmallocServes (L : Layout) (sz : ℕ) (s : KHeap) : Prop :=
  ∃ p s', kmalloc L sz s = .ok (p, s') ∧
    (p = NULL ∨ ∃ owner live pool, kmallocOwner sz = .ok owner ∧ sz ≤ owner.bytes ∧
      SlabInv L s' live pool ∧ HeldBy live pool owner p)

/-- Up to 2048 bytes the cache must be supplied. Above, the size must be at most the
largest block; a larger size must at least be cut down to an order that exists
and for which there is no block. -/
def Servable (L : Layout) (sz : ℕ) (s : KHeap) : Prop :=
  if sz ≤ 2048 then ∀ c, kmallocOwner sz = .ok (.slab c) → Supplied L s c
  else sz ≤ 2 ^ MAX_ORDER * PGSIZE ∨
    pageCount sz ≤ 2 ^ MAX_ORDER ∧
      ∀ o, pageCount sz ≤ 2 ^ o → o ≤ MAX_ORDER → buddyGetfirst L o s.mem.buddy = NULL

/-- The order is the logarithm of the number of pages, unless the shift runs out of
its 32 bits. -/
theorem kmallocOwner_large (h : 2048 < sz) :
    kmallocOwner sz = if Nat.clog 2 (pageCount sz) < 32 then
      .ok (.buddy (Nat.clog 2 (pageCount sz))) else .error .undefined := by
  rw [kmallocOwner, if_pos h, pageOrder, orderLoop_eq (Nat.zero_le _), Nat.zero_add, pageCount]
  split <;> rfl

/-- Every block that `kmalloc` returns is in use with its owner. -/
theorem KmInv.returned (h : KmInv L k live pool)
    (hcall : kmalloc L sz k.heap = .ok (p, s')) (hp : p ≠ NULL) :
    ∃ owner live' pool', kmallocOwner sz = .ok owner ∧ SlabInv L s' live' pool' ∧
      HeldBy live' pool' owner p := by
  obtain ⟨live', pool', hinv⟩ := kmInv_kmalloc h hcall
  rw [if_neg hp] at hinv
  obtain ⟨owner, howner, hheld⟩ := hinv.held (p, sz) List.mem_cons_self
  exact ⟨owner, live', pool', howner, hinv.slab, hheld⟩

theorem serves_small_iff (h : KmInv L k live pool) (hsz : sz ≤ 2048) :
    KmallocServes L sz k.heap ↔ ∀ c, kmallocOwner sz = .ok (.slab c) → Supplied L k.heap c := by
  obtain ⟨c, howner, hunit⟩ := kmallocOwner_small hsz
  obtain ⟨P, hP⟩ := h.up c
  obtain ⟨Q, hQ⟩ := h.up .gSlab16
  have hkmalloc : kmalloc L sz k.heap = kmemCacheAlloc L c k.heap := by
    rw [kmalloc, howner]
    rfl
  have honly : (∀ c', kmallocOwner sz = .ok (.slab c') → Supplied L k.heap c') ↔
      Supplied L k.heap c := by
    constructor
    · exact fun hall => hall c howner
    · intro hc c' howner'
      rw [howner, Except.ok.injEq, Owner.slab.injEq] at howner'
      exact howner' ▸ hc
  rw [honly, ← kmemCacheAlloc_returns_iff h.slab hP hQ, ← hkmalloc]
  constructor
  · rintro ⟨p, s', hcall, -⟩
    exact ⟨_, hcall⟩
  · rintro ⟨⟨p, s'⟩, hcall⟩
    refine ⟨p, s', hcall, ?_⟩
    by_cases hp : p = NULL
    · exact Or.inl hp
    · obtain ⟨owner, live', pool', ho, hslab, hheld⟩ := h.returned hcall hp
      refine Or.inr ⟨owner, live', pool', ho, ?_, hslab, hheld⟩
      rw [howner, Except.ok.injEq] at ho
      rw [← ho]
      exact hunit

theorem pageCount_eq (hsz : sz ≤ 2 ^ MAX_ORDER * PGSIZE) :
    pageCount sz = (sz + PGSIZE - 1) / PGSIZE := by
  simp only [MAX_ORDER, PGSIZE] at hsz
  simp only [pageCount, PGSIZE]
  omega

theorem clog_le_order : Nat.clog 2 n ≤ MAX_ORDER ↔ n ≤ 2 ^ MAX_ORDER :=
  Nat.clog_le_iff_le_pow one_lt_two

/-- Above 2048 bytes the block comes from the buddy allocator. -/
theorem kmalloc_large (h : 2048 < sz) {r : ℕ × KHeap} :
    kmalloc L sz s = .ok r ↔ pageCount sz ≤ 2 ^ MAX_ORDER ∧
      ∃ b, buddyAlloc L (Nat.clog 2 (pageCount sz)) s.mem.buddy = .ok (r.1, b) ∧
        r.2 = { s with mem := { s.mem with buddy := b } } := by
  rw [kmalloc, kmallocOwner_large h]
  by_cases hle : pageCount sz ≤ 2 ^ MAX_ORDER
  · have hclog := clog_le_order.mpr hle
    rw [if_pos (by simp only [MAX_ORDER] at hclog; omega), ok_bind]
    simp only [Owner.alloc, kbuddyAlloc, bind_eq_ok, pure_eq_ok, hle,
      true_and]
    constructor
    · rintro ⟨⟨p, b⟩, hb, rfl⟩
      exact ⟨b, hb, rfl⟩
    · rintro ⟨b, hb, hr⟩
      exact ⟨(r.1, b), hb, Prod.ext rfl hr.symm⟩
  · have hclog : MAX_ORDER < Nat.clog 2 (pageCount sz) := Nat.not_le.mp (mt clog_le_order.mp hle)
    simp only [hle, false_and, iff_false]
    split
    · simp [Owner.alloc, kbuddyAlloc, buddyAlloc, hclog]
    · simp

theorem serves_large_iff (h : KmInv L k live pool) (hsz : 2048 < sz) :
    KmallocServes L sz k.heap ↔ sz ≤ 2 ^ MAX_ORDER * PGSIZE ∨
      pageCount sz ≤ 2 ^ MAX_ORDER ∧ ∀ o, pageCount sz ≤ 2 ^ o → o ≤ MAX_ORDER →
        buddyGetfirst L o k.heap.mem.buddy = NULL := by
  have hnull : ∀ {p b}, pageCount sz ≤ 2 ^ MAX_ORDER →
      buddyAlloc L (Nat.clog 2 (pageCount sz)) k.heap.mem.buddy = .ok (p, b) →
      (p = NULL ↔ ∀ o, pageCount sz ≤ 2 ^ o → o ≤ MAX_ORDER →
        buddyGetfirst L o k.heap.mem.buddy = NULL) := by
    intro p b hle hb
    obtain ⟨p', b', hb', hiff⟩ := buddyAlloc_returns h.slab.heap (clog_le_order.mpr hle)
    rw [hb, Except.ok.injEq, Prod.mk.injEq] at hb'
    rw [hb'.1, hiff]
    simp only [Nat.clog_le_iff_le_pow one_lt_two]
  constructor
  · rintro ⟨p, s', hcall, hres⟩
    obtain ⟨hle, b, hb, -⟩ := (kmalloc_large hsz).mp hcall
    rcases hres with hp | ⟨owner, live', pool', howner, hbytes, -⟩
    · exact Or.inr ⟨hle, (hnull hle hb).mp hp⟩
    · left
      have hclog := clog_le_order.mpr hle
      rw [kmallocOwner_large hsz, if_pos (by simp only [MAX_ORDER] at hclog; omega),
        Except.ok.injEq] at howner
      rw [← howner] at hbytes
      exact hbytes.trans (Nat.mul_le_mul_right _ (Nat.pow_le_pow_right (by decide) hclog))
  · intro hcond
    have hle : pageCount sz ≤ 2 ^ MAX_ORDER := by
      rcases hcond with hmax | ⟨hle, -⟩
      · rw [pageCount_eq hmax]
        simp only [MAX_ORDER, PGSIZE] at hmax ⊢
        omega
      · exact hle
    have hclog := clog_le_order.mpr hle
    obtain ⟨p, b, hb, -⟩ := buddyAlloc_returns h.slab.heap hclog
    have hcall := (kmalloc_large (L := L) (s := k.heap) (r := (p, _)) hsz).mpr ⟨hle, b, hb, rfl⟩
    refine ⟨p, _, hcall, ?_⟩
    by_cases hp : p = NULL
    · exact Or.inl hp
    · obtain ⟨owner, live', pool', howner, hslab, hheld⟩ := h.returned hcall hp
      refine Or.inr ⟨owner, live', pool', howner, ?_, hslab, hheld⟩
      rcases hcond with hmax | ⟨-, hall⟩
      · rw [kmallocOwner_large hsz, if_pos (by simp only [MAX_ORDER] at hclog; omega),
          Except.ok.injEq] at howner
        rw [← howner, Owner.bytes]
        have hpow := Nat.le_pow_clog one_lt_two (pageCount sz)
        have hceil : sz ≤ pageCount sz * PGSIZE := by
          rw [pageCount_eq hmax]
          simp only [PGSIZE]
          omega
        exact hceil.trans (Nat.mul_le_mul_right _ hpow)
      · exact absurd ((hnull hle hb).mpr hall) hp

/-- For every heap that `slab_init` and matched calls lead to and every 64-bit size:
`kmalloc` returns null or a block that is large enough exactly if the size is
servable. -/
theorem kmalloc_serves_iff (h : KmInv L k live pool) :
    KmallocServes L sz k.heap ↔ Servable L sz k.heap := by
  rw [Servable]
  split
  · next hsz => exact serves_small_iff h hsz
  · next hsz => exact serves_large_iff h (Nat.not_le.mp hsz)

theorem slabBoot_kmInv (h : slabBoot L = .ok s) : ∃ live pool, KmInv L ⟨s, []⟩ live pool := by
  obtain ⟨s₀, hheap, hinit⟩ := slabBoot_init h
  exact kmInv_init hheap hinit

/-- A request for three pages on a small machine. -/
theorem kmalloc_serves_three_pages :
    ∃ s, slabBoot smallLayout = .ok s ∧ KmallocServes smallLayout (3 * PGSIZE) s := by
  have hboot : (slabBoot smallLayout).Yields fun _ => True := by decide +kernel
  obtain ⟨s, hs, -⟩ := hboot
  obtain ⟨live, pool, hinv⟩ := slabBoot_kmInv hs
  refine ⟨s, hs, (kmalloc_serves_iff hinv).mpr ?_⟩
  rw [Servable, if_neg (by decide)]
  exact Or.inl (by decide)

/-- The rounding of the largest size wraps around to zero pages, so that `kmalloc`
returns a single page. The size after the largest block stops the kernel, and for
more than `2 ^ 31` pages the loop for the order does not end. -/
theorem huge_sizes_misserved : ∃ s, slabBoot smallLayout = .ok s ∧
    kmallocOwner (2 ^ 64 - 1) = .ok (.buddy 0) ∧ ¬ KmallocServes smallLayout (2 ^ 64 - 1) s ∧
    kmalloc smallLayout (2 ^ MAX_ORDER * PGSIZE + 1) s =
      .error (.panic "buddy_alloc: order out of bound.") ∧
    kmalloc smallLayout (2 ^ 31 * PGSIZE + 1) s = .error .undefined := by
  have hboot : (slabBoot smallLayout).Yields fun s => HasPage smallLayout s.mem.buddy := by
    decide +kernel
  obtain ⟨s, hs, o, ho, hne⟩ := hboot
  obtain ⟨live, pool, hinv⟩ := slabBoot_kmInv hs
  refine ⟨s, hs, rfl, fun hserves => ?_, ?_, ?_⟩
  · have hservable := (kmalloc_serves_iff hinv).mp hserves
    rw [Servable, if_neg (by decide)] at hservable
    rcases hservable with hsize | ⟨-, hnone⟩
    · exact absurd hsize (by decide)
    · exact hne (hnone o (Nat.zero_le _) ho)
  · have hcount : kmallocOwner (2 ^ MAX_ORDER * PGSIZE + 1) = .ok (.buddy (MAX_ORDER + 1)) := rfl
    rw [kmalloc, hcount]
    rfl
  · have hcount : kmallocOwner (2 ^ 31 * PGSIZE + 1) = .error .undefined := rfl
    rw [kmalloc, hcount]
    rfl

end LearnOS
