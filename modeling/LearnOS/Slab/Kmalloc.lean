import LearnOS.Slab.Cache

/-!
# `kmalloc` and `kmfree`

Both functions choose from the size alone whom they call: one of the slab
caches or the buddy allocator with some order. `kmallocOwner` and `kmfreeOwner`
are the two ladders of comparisons, and each function makes the call that its
ladder selects.

A run consists of matched calls: only blocks that are held are freed, with the
size they were asked for. Between the calls the holders write into their
blocks.
-/

namespace LearnOS

open LinkedList Slots BuddySystem Ownership Transition Function Kres

variable {owner : Owner} {p sz : ℕ} {n : ℕ}

/-- Whom a block comes from, or is handed to. -/
inductive Owner where
  | slab (c : CacheId)
  | buddy (order : ℕ)
  deriving DecidableEq, Repr

/-- The loop that looks for the order, with `n` values left. The shift is not
defined once the order has reached 32. -/
def orderLoop (pgnum : ℕ) : ℕ → ℕ → Kres ℕ
  | 0, _ => .error .undefined
  | n + 1, order => if 2 ^ order < pgnum then orderLoop pgnum n (order + 1) else .ok order

/-- The order of a block of `sz` bytes. The number of pages is computed in 64
bits and kept in 32. -/
def pageOrder (sz : ℕ) : Kres ℕ :=
  orderLoop ((sz + PGSIZE - 1) % 2 ^ 64 / PGSIZE % 2 ^ 32) 32 0

def kmallocOwner (sz : ℕ) : Kres Owner := do
  if sz > 2048 then
    let order ← pageOrder sz
    return .buddy order
  else if sz > 1024 then return .slab .gSlab2048
  else if sz > 512 then return .slab .gSlab1024
  else if sz > 256 then return .slab .gSlab512
  else if sz > 128 then return .slab .gSlab256
  else if sz > 64 then return .slab .gSlab128
  else if sz > 32 then return .slab .gSlab64
  else if sz > 16 then return .slab .gSlab32
  else if sz > 8 then return .slab .gSlab16
  else return .slab .gSlab8

def kmfreeOwner (sz : ℕ) : Kres Owner := do
  if sz > 1024 then
    let order ← pageOrder sz
    return .buddy order
  else if sz > 512 then return .slab .gSlab1024
  else if sz > 256 then return .slab .gSlab512
  else if sz > 128 then return .slab .gSlab256
  else if sz > 64 then return .slab .gSlab128
  else if sz > 32 then return .slab .gSlab64
  else if sz > 16 then return .slab .gSlab32
  else if sz > 8 then return .slab .gSlab16
  else return .slab .gSlab8

def kbuddyAlloc (L : Layout) (order : ℕ) (s : KHeap) : Kres (ℕ × KHeap) := do
  let (result, b) ← buddyAlloc L order s.mem.buddy
  return (result, { s with mem := { s.mem with buddy := b } })

def kbuddyFree (L : Layout) (pa order : ℕ) (s : KHeap) : Kres KHeap := do
  let b ← buddyFree L pa order s.mem.buddy
  return { s with mem := { s.mem with buddy := b } }

def Owner.alloc (L : Layout) : Owner → KHeap → Kres (ℕ × KHeap)
  | .slab c, s => kmemCacheAlloc L c s
  | .buddy order, s => kbuddyAlloc L order s

def Owner.free (L : Layout) (pa : ℕ) : Owner → KHeap → Kres KHeap
  | .slab c, s => kmemCacheFree c pa s
  | .buddy order, s => kbuddyFree L pa order s

def kmalloc (L : Layout) (sz : ℕ) (s : KHeap) : Kres (ℕ × KHeap) := do
  let owner ← kmallocOwner sz
  owner.alloc L s

def kmfree (L : Layout) (ptr sz : ℕ) (s : KHeap) : Kres KHeap := do
  let owner ← kmfreeOwner sz
  owner.free L ptr s

/-- A block is asked for by an order that exists. -/
theorem kbuddyAlloc_ok {L : Layout} {order p : ℕ} {s s' : KHeap}
    (h : kbuddyAlloc L order s = .ok (p, s')) :
    ∃ b, order ≤ MAX_ORDER ∧ buddyAlloc L order s.mem.buddy = .ok (p, b) ∧
      s' = { s with mem := { s.mem with buddy := b } } := by
  simp only [kbuddyAlloc, bind_eq_ok, pure_eq_ok, Prod.mk.injEq] at h
  obtain ⟨⟨result, b⟩, halloc, rfl, rfl⟩ := h
  refine ⟨b, ?_, halloc, rfl⟩
  by_contra hlt
  rw [buddyAlloc, if_pos (Nat.not_le.mp hlt)] at halloc
  cases halloc

/-! ## The two ladders -/

/-- The sizes outside the band in which `kmalloc` uses `g_slab_2048`. -/
def MatchedSize (sz : ℕ) : Prop := sz ≤ 1024 ∨ 2048 < sz

instance (sz : ℕ) : Decidable (MatchedSize sz) := inferInstanceAs (Decidable (_ ∨ _))

theorem kmfreeOwner_eq {sz : ℕ} (h : MatchedSize sz) : kmfreeOwner sz = kmallocOwner sz := by
  rcases h with hle | hgt
  · simp only [kmfreeOwner, kmallocOwner, if_neg (Nat.not_lt.mpr hle),
      if_neg (Nat.not_lt.mpr (hle.trans (by decide : 1024 ≤ 2048)))]
  · simp only [kmfreeOwner, kmallocOwner, if_pos hgt,
      if_pos (lt_trans (by decide : 1024 < 2048) hgt)]

theorem kmallocOwner_band {sz : ℕ} (h : ¬ MatchedSize sz) :
    kmallocOwner sz = .ok (.slab .gSlab2048) := by
  simp only [MatchedSize, not_or, Nat.not_le, Nat.not_lt] at h
  simp only [kmallocOwner, if_neg (Nat.not_lt.mpr h.2), if_pos h.1, pure_eq]

/-- A size in the band is one page for `kmfree`. -/
theorem kmfreeOwner_band {sz : ℕ} (h : ¬ MatchedSize sz) :
    kmfreeOwner sz = .ok (.buddy 0) := by
  simp only [MatchedSize, not_or, Nat.not_le, Nat.not_lt] at h
  have hpages : (sz + PGSIZE - 1) % 2 ^ 64 / PGSIZE % 2 ^ 32 = 1 := by
    simp only [PGSIZE]
    omega
  have horder : pageOrder sz = .ok 0 := by
    rw [pageOrder, hpages]
    rfl
  simp only [kmfreeOwner, if_pos h.1, horder, ok_bind, pure_eq]

theorem owner_agrees_iff {sz : ℕ} :
    (∀ owner, kmallocOwner sz = .ok owner → kmfreeOwner sz = .ok owner) ↔ MatchedSize sz := by
  constructor
  · intro h
    by_contra hband
    have heq := h _ (kmallocOwner_band hband)
    rw [kmfreeOwner_band hband] at heq
    cases heq
  · intro h owner howner
    rw [kmfreeOwner_eq h, howner]

theorem kmallocOwner_small {sz : ℕ} (h : sz ≤ 2048) :
    ∃ c, kmallocOwner sz = .ok (.slab c) ∧ sz ≤ c.unit := by
  simp only [kmallocOwner, if_neg (Nat.not_lt.mpr h), pure_eq]
  split_ifs <;> exact ⟨_, rfl, by simp only [CacheId.unit, CacheId.objSize]; omega⟩

/-! ## Counts -/

section Count

variable {L : Layout} {s s' : KHeap} {c : CacheId} {a : ℕ}

@[simp] theorem linkSlots_cache (page unitsz n j : ℕ) (s : KHeap) :
    (linkSlots page unitsz n j s).cache = s.cache := by
  induction n generalizing j s with
  | zero => rfl
  | succ n ih => exact ih _ _

theorem allocPage_cache (h : s.allocPage L = .ok (a, s')) : s'.cache = s.cache := by
  simp only [KHeap.allocPage, bind_eq_ok, pure_eq_ok, Prod.mk.injEq] at h
  obtain ⟨x, -, -, rfl⟩ := h
  rfl

theorem initSmallObjectPool_cache {unitsz : ℕ}
    (h : initSmallObjectPool L unitsz 1 s = .ok (a, s')) : s'.cache = s.cache := by
  simp only [initSmallObjectPool, Nat.sub_self, smallPages, bind_eq_ok, ok_bind,
    pure_eq_ok, Prod.mk.injEq] at h
  obtain ⟨⟨firstpg, s₁⟩, hpage, -, rfl⟩ := h
  simp only [KHeap.store, linkSlots_cache, allocPage_cache hpage]

/-- What an allocation does to the caches: the one that serves it counts, and at
most the cache of the page nodes counts besides. -/
theorem allocSmallObjectPool_count (h : allocSmallObjectPool L c n s = .ok (a, s')) :
    (s'.cache c).allocCount = ((s.cache c).allocCount + 1) % 2 ^ 64 ∧
      ∀ d ≠ c, s'.cache d = s.cache d := by
  induction n generalizing s with
  | zero => cases h
  | succ n ih =>
    simp only [allocSmallObjectPool] at h
    split at h
    · simp only [bind_eq_ok] at h
      obtain ⟨⟨newpg, s₁⟩, hinit, h⟩ := h
      have hcache := initSmallObjectPool_cache hinit
      obtain ⟨hcount, hother⟩ := ih h
      simp only [KHeap.store, KHeap.setCache, update_self, hcache] at hcount hother
      refine ⟨hcount, fun d hd => ?_⟩
      rw [hother d hd, update_of_ne hd]
    · cases h
      simp only [popFree, KHeap.store, KHeap.setCache, update_self, true_and]
      exact fun d hd => update_of_ne hd _ _

theorem initLargeObjectPool_cache {unitsz : ℕ}
    (h : initLargeObjectPool L unitsz 1 s = .ok (a, s')) (hc : c ≠ .gSlab16) :
    s'.cache c = s.cache c := by
  simp only [initLargeObjectPool, Nat.sub_self, largePages, allocNode, bind_eq_ok,
    pure_eq, Except.ok.injEq, Prod.mk.injEq] at h
  obtain ⟨⟨node, s₁⟩, hnode, ⟨page, s₂⟩, hpage, x, rfl, -, rfl⟩ := h
  split at hnode
  · cases hnode
  simp only [KHeap.store, linkSlots_cache, allocPage_cache hpage]
  exact (allocSmallObjectPool_count hnode).2 c hc

theorem allocLargeObjectPool_count (hc : c ≠ .gSlab16)
    (h : allocLargeObjectPool L c n s = .ok (a, s')) :
    (s'.cache c).allocCount = ((s.cache c).allocCount + 1) % 2 ^ 64 := by
  induction n generalizing s with
  | zero => cases h
  | succ n ih =>
    simp only [allocLargeObjectPool] at h
    split at h
    · simp only [bind_eq_ok] at h
      obtain ⟨⟨newnode, s₁⟩, hinit, h⟩ := h
      have hcache := initLargeObjectPool_cache hinit hc
      have hcount := ih h
      simpa only [KHeap.store, KHeap.setCache, update_self, hcache] using hcount
    · cases h
      simp only [popFree, KHeap.store, KHeap.setCache, update_self]

theorem kmemCacheAlloc_count (h : kmemCacheAlloc L c s = .ok (a, s')) :
    (s'.cache c).allocCount = ((s.cache c).allocCount + 1) % 2 ^ 64 := by
  simp only [kmemCacheAlloc] at h
  split at h
  · rename_i hlarge
    by_cases hc : c = .gSlab16
    · subst hc
      -- A large `g_slab_16` could not grow, so the object was there.
      simp only [allocTries, allocLargeObjectPool] at h
      split at h
      · simp only [initLargeObjectPool, allocNode, if_pos hlarge, error_bind] at h
        cases h
      · cases h
        simp only [popFree, KHeap.store, KHeap.setCache, update_self]
    · exact allocLargeObjectPool_count hc h
  · exact (allocSmallObjectPool_count h).1

/-- An allocation from a cache is never without a trace. -/
theorem kmalloc_ne_self {sz : ℕ} (hsz : sz ≤ 2048) (h : kmalloc L sz s = .ok (a, s')) : s' ≠ s := by
  obtain ⟨c, hc, -⟩ := kmallocOwner_small hsz
  simp only [kmalloc, hc, ok_bind] at h
  have hcount := kmemCacheAlloc_count (c := c) h
  rintro rfl
  omega

end Count

/-! ## Runs of matched calls -/

/-- The page is on the page list of the cache. -/
def OnPageList (s : KHeap) (c : CacheId) (p : ℕ) : Prop :=
  if (s.cache c).size > 16 then
    ∃ nodes, Seg NULL (fun n => s.word (lnodeNext n)) (s.cache c).head nodes NULL ∧
      p ∈ nodes.map s.word
  else ∃ pages, Seg NULL s.word (s.cache c).head pages NULL ∧ p ∈ pages

/-- The heap with the blocks that are held, each with the size asked for. -/
structure Km where
  heap : KHeap
  held : List (ℕ × ℕ)

inductive KmOp where
  | kmalloc (sz : ℕ)
  | kmfree (ptr sz : ℕ)
  | store (ptr sz : ℕ)

/-- The number of bytes of a block. -/
def Owner.bytes : Owner → ℕ
  | .slab c => c.unit
  | .buddy order => 2 ^ order * PGSIZE

/-- One call, or any change of the words of a block that is held. -/
inductive KmStep (L : Layout) : Km → KmOp → Km → Prop
  | kmalloc {k : Km} {sz p : ℕ} {s : KHeap} (hcall : kmalloc L sz k.heap = .ok (p, s)) :
      KmStep L k (.kmalloc sz) ⟨s, if p = NULL then k.held else (p, sz) :: k.held⟩
  | kmfree {k : Km} {p sz : ℕ} {s : KHeap} (hheld : (p, sz) ∈ k.held)
      (hcall : kmfree L p sz k.heap = .ok s) :
      KmStep L k (.kmfree p sz) ⟨s, k.held.erase (p, sz)⟩
  | store {k : Km} {p sz : ℕ} {owner : Owner} {word : ℕ → ℕ} (hheld : (p, sz) ∈ k.held)
      (howner : kmallocOwner sz = .ok owner)
      (hword : ∀ a, a < p ∨ p + owner.bytes ≤ a → word a = k.heap.word a) :
      KmStep L k (.store p sz) ⟨{ k.heap with word := word }, k.held⟩

/-- No page is on a free list of the buddy allocator and on the page list of a
cache at once. -/
def SlabPagesHeld (L : Layout) (k : Km) : Prop :=
  ∀ c p, OnPageList k.heap c p → ¬ PageFree L k.heap.mem.buddy p

/-- Calls of `kmfree` keep out of the band in which the ladders differ. -/
def FreesMatchedSize : Km → KmOp → Prop
  | _, .kmfree _ sz => MatchedSize sz
  | _, _ => True

section Run

variable {L : Layout} {s s' : KHeap} {live live' : List (ℕ × ℕ)}
  {pool pool' : CacheId → Option Pool} {c : CacheId} {P : Pool} {k k' : Km}

theorem SlabInv.onPageList_iff (h : SlabInv L s live pool) (hP : pool c = some P) {p : ℕ} :
    OnPageList s c p ↔ p ∈ P.pages := by
  have hrep := h.rep c P hP
  by_cases hc : c.Small
  · have hle : ¬ (s.cache c).size > 16 := by
      rw [hrep.size]
      exact Nat.not_lt.mpr hc
    have hseg := (hrep.small hc).1
    rw [OnPageList, if_neg hle]
    constructor
    · rintro ⟨pages, hpages, hp⟩
      rwa [Seg.unique hpages hseg] at hp
    · exact fun hp => ⟨P.pages, hseg, hp⟩
  · have hgt : (s.cache c).size > 16 := by
      rw [hrep.size]
      exact Nat.not_le.mp hc
    obtain ⟨hseg, hmap⟩ := hrep.large hc
    rw [OnPageList, if_pos hgt, ← hmap]
    constructor
    · rintro ⟨nodes, hnodes, hp⟩
      rwa [Seg.unique hnodes hseg] at hp
    · exact fun hp => ⟨P.nodes, hseg, hp⟩

/-- The block is in use with its owner. -/
def HeldBy (live : List (ℕ × ℕ)) (pool : CacheId → Option Pool) : Owner → ℕ → Prop
  | .slab c, p => (∃ P, pool c = some P ∧ p ∈ P.live) ∧ ¬ IsNode pool p
  | .buddy order, p => (p, order) ∈ live ∧
      (order = 0 → ∀ c P, pool c = some P → p ∉ P.pages)

/-- Two blocks of the same owner are different blocks. -/
def Distinct (b b' : ℕ × ℕ) : Prop :=
  ∀ owner, kmallocOwner b.2 = .ok owner → kmallocOwner b'.2 = .ok owner → b.1 ≠ b'.1

structure KmInv (L : Layout) (k : Km) (live : List (ℕ × ℕ)) (pool : CacheId → Option Pool) :
    Prop where
  slab : SlabInv L k.heap live pool
  up : ∀ c, ∃ P, pool c = some P
  held : ∀ b ∈ k.held, ∃ owner, kmallocOwner b.2 = .ok owner ∧ HeldBy live pool owner b.1
  distinct : k.held.Pairwise Distinct

theorem KmInv.slabPagesHeld (h : KmInv L k live pool) : SlabPagesHeld L k := by
  intro c p hp
  obtain ⟨P, hP⟩ := h.up c
  exact h.slab.heap.not_pageFree (h.slab.held c P p hP ((h.slab.onPageList_iff hP).mp hp))

theorem kmInv_init (h : HeapInv L ⟨s.mem.buddy, live⟩) (hcall : slabInit L s = .ok s') :
    ∃ live' pool, KmInv L ⟨s', []⟩ live' pool := by
  obtain ⟨live', pool, hinv, -, hup⟩ := slabInit_spec h hcall
  exact ⟨live', pool, hinv, hup, by simp, List.Pairwise.nil⟩

/-! ### Allocation -/

theorem HeldBy.widened (h' : SlabInv L s' live' pool') (hw : Widened live pool live' pool') {p : ℕ}
    (h : HeldBy live pool owner p) : HeldBy live' pool' owner p := by
  cases owner with
  | slab c =>
    obtain ⟨⟨P, hP, hp⟩, hnot⟩ := h
    obtain ⟨P', hP', hlive, -⟩ := hw.keep c P hP
    refine ⟨⟨P', hP', hlive hp⟩, ?_⟩
    by_cases hc : c = .gSlab16
    · subst hc
      intro hnode
      rcases hw.nodes_new p hnode with hold | hnew
      · exact hnot hold
      · exact hnew P hP hp
    · exact h'.not_isNode_of_ne hP' hc (hlive hp)
  | buddy order =>
    obtain ⟨hmem, hpage⟩ := h
    refine ⟨hw.subset hmem, ?_⟩
    rintro rfl c P' hP' hp
    rcases hw.pages_new c P' p hP' hp with ⟨P, hP, hold⟩ | hnew
    · exact hpage rfl c P hP hold
    · exact hnew hmem

/-- A new block joins the ones that are held. -/
theorem KmInv.add (h : KmInv L k live pool) (hslab : SlabInv L s' live' pool')
    (hw : Widened live pool live' pool') (howner : kmallocOwner sz = .ok owner)
    (hheld : HeldBy live' pool' owner p) (hnew : ¬ HeldBy live pool owner p) :
    KmInv L ⟨s', (p, sz) :: k.held⟩ live' pool' where
  slab := hslab
  up c := by
    obtain ⟨P, hP⟩ := h.up c
    obtain ⟨P', hP', -⟩ := hw.keep c P hP
    exact ⟨P', hP'⟩
  held b hb := by
    rcases List.mem_cons.mp hb with rfl | hb
    · exact ⟨owner, howner, hheld⟩
    · obtain ⟨o, ho, hold⟩ := h.held b hb
      exact ⟨o, ho, hold.widened hslab hw⟩
  distinct := by
    refine List.pairwise_cons.mpr ⟨fun b hb o ho ho' heq => hnew ?_, h.distinct⟩
    obtain ⟨o', ho'', hold⟩ := h.held b hb
    simp only at ho heq
    rw [howner, Except.ok.injEq] at ho
    rw [ho', Except.ok.injEq] at ho''
    subst ho ho'' heq
    exact hold

/-- The buddy allocator takes a step that leaves the pages of the caches in use. -/
theorem SlabInv.setBuddy (h : SlabInv L s live pool) {b : Buddy} (hheap : HeapInv L ⟨b, live'⟩)
    (hheld : ∀ c P p, pool c = some P → p ∈ P.pages → (p, 0) ∈ live') :
    SlabInv L { s with mem := { s.mem with buddy := b } } live' pool where
  heap := hheap
  ok := h.ok
  rep := h.rep
  held := hheld
  apart := h.apart
  nodes_live := h.nodes_live

theorem widened_cons (b : ℕ × ℕ) : Widened live pool (b :: live) pool where
  subset := List.subset_cons_self _ _
  keep _ P hP := ⟨P, hP, List.Subset.refl _, List.Subset.refl _⟩
  pages_new _ P' _ hP' hp := Or.inl ⟨P', hP', hp⟩
  nodes_new _ hn := Or.inl hn

/-- The buddy system hands out a block, or has none. -/
theorem SlabInv.kbuddyAlloc_spec (h : SlabInv L s live pool) {order : ℕ}
    (hcall : kbuddyAlloc L order s = .ok (p, s')) :
    p = NULL ∧ SlabInv L s' live pool ∨
      p ≠ NULL ∧ (p, order) ∉ live ∧ SlabInv L s' ((p, order) :: live) pool ∧
        HeldBy ((p, order) :: live) pool (.buddy order) p := by
  obtain ⟨b, horder, halloc, rfl⟩ := kbuddyAlloc_ok hcall
  have hheap := heapInv_alloc h.heap horder halloc
  by_cases hnull : p = NULL
  · rw [if_pos hnull] at hheap
    exact Or.inl ⟨hnull, h.setBuddy hheap h.held⟩
  · rw [if_neg hnull] at hheap
    have hfresh : (p, order) ∉ live := (List.nodup_cons.mp hheap.nodup).1
    have hslab := h.setBuddy hheap
      (fun c P q hP hq => List.mem_cons_of_mem _ (h.held c P q hP hq))
    refine Or.inr ⟨hnull, hfresh, hslab, List.mem_cons_self, ?_⟩
    rintro rfl c P hP hp
    exact hfresh (h.held c P _ hP hp)

/-- The buddy system takes a block back. -/
theorem SlabInv.kbuddyFree_spec (h : SlabInv L s live pool) {order : ℕ}
    (hheld : HeldBy live pool (.buddy order) p) :
    ∃ s', kbuddyFree L p order s = .ok s' ∧ SlabInv L s' (live.erase (p, order)) pool := by
  obtain ⟨hlive, hpage⟩ := hheld
  obtain ⟨b, hb, hheap⟩ := heapInv_free h.heap hlive
  refine ⟨_, ?_, h.setBuddy hheap fun c P q hP hq => ?_⟩
  · simp only at hb
    simp only [kbuddyFree, hb, ok_bind, pure_eq]
  · refine (List.mem_erase_of_ne ?_).mpr (h.held c P q hP hq)
    rintro heq
    obtain ⟨rfl, rfl⟩ := Prod.mk.inj heq
    exact hpage rfl c P hP hq

theorem exists_update_some (h : ∀ c, ∃ P, pool c = some P) (c' : CacheId) :
    ∃ R, update pool c (some P) c' = some R := by
  by_cases hc : c' = c
  · subst hc
    exact ⟨P, update_self _ _ _⟩
  · rw [update_of_ne hc]
    exact h c'

theorem kmInv_kmalloc (h : KmInv L k live pool) (hcall : kmalloc L sz k.heap = .ok (p, s')) :
    ∃ live' pool', KmInv L ⟨s', if p = NULL then k.held else (p, sz) :: k.held⟩ live' pool' := by
  simp only [kmalloc, bind_eq_ok] at hcall
  obtain ⟨owner, howner, hcall⟩ := hcall
  cases owner with
  | slab c =>
    obtain ⟨P, hP⟩ := h.up c
    obtain ⟨Q, hQ⟩ := h.up .gSlab16
    obtain ⟨live', pool', hall⟩ := kmemCacheAlloc_spec h.slab hP hQ hcall
    obtain ⟨P', hP', hp⟩ := hall.object
    rw [if_neg (hall.inv.object_ne_null hP' hp)]
    refine ⟨live', pool', h.add hall.inv hall.widened howner ⟨⟨P', hP', hp⟩, hall.not_node⟩ ?_⟩
    rintro ⟨⟨R, hR, hmem⟩, -⟩
    exact hall.fresh R hR hmem
  | buddy order =>
    obtain ⟨hnull, hslab⟩ | ⟨hnull, hfresh, hslab, hheld⟩ := h.slab.kbuddyAlloc_spec hcall
    · rw [if_pos hnull]
      exact ⟨live, pool, hslab, h.up, h.held, h.distinct⟩
    · rw [if_neg hnull]
      exact ⟨_, pool, h.add hslab (widened_cons _) howner hheld fun hold => hfresh hold.1⟩

/-! ### Release -/

theorem distinct_symm {b b' : ℕ × ℕ} (h : Distinct b b') : Distinct b' b :=
  fun owner ho ho' => (h owner ho' ho).symm

/-- A block that is given back leaves the others alone. -/
theorem KmInv.remove (h : KmInv L k live pool) (hmem : (p, sz) ∈ k.held)
    (hslab : SlabInv L s' live' pool') (hup : ∀ c, ∃ P, pool' c = some P)
    (hkeep : ∀ b ∈ k.held, Distinct (p, sz) b → ∀ owner, kmallocOwner b.2 = .ok owner →
      HeldBy live pool owner b.1 → HeldBy live' pool' owner b.1) :
    KmInv L ⟨s', k.held.erase (p, sz)⟩ live' pool' := by
  have hpair := ((List.perm_cons_erase hmem).pairwise_iff distinct_symm).mp h.distinct
  obtain ⟨hrel, hrest⟩ := List.pairwise_cons.mp hpair
  refine ⟨hslab, hup, fun b hb => ?_, hrest⟩
  have hold := List.mem_of_mem_erase hb
  obtain ⟨owner, howner, hheld⟩ := h.held b hold
  exact ⟨owner, howner, hkeep b hold (hrel b hb) owner howner hheld⟩

/-- An object of a cache leaves its pool. -/
theorem HeldBy.drop_object {P' : Pool} {x p : ℕ} (hP : pool c = some P)
    (hnodes : P'.nodes = P.nodes) (hpages : P'.pages = P.pages) (hlive : P'.live = P.live.erase x)
    (hne : owner = .slab c → p ≠ x) (h : HeldBy live pool owner p) :
    HeldBy live (update pool c (some P')) owner p := by
  cases owner with
  | slab c' =>
    obtain ⟨⟨R, hR, hp⟩, hnot⟩ := h
    refine ⟨?_, fun hnode => hnot (isNode_of_update hP hnodes hnode)⟩
    by_cases hc : c' = c
    · subst hc
      cases hP.symm.trans hR
      refine ⟨P', update_self _ _ _, ?_⟩
      rw [hlive]
      exact (List.mem_erase_of_ne (hne rfl)).mpr hp
    · exact ⟨R, by rw [update_of_ne hc]; exact hR, hp⟩
  | buddy order =>
    refine ⟨h.1, fun horder c' R hR hmem => ?_⟩
    rcases eq_some_of_update hR with ⟨rfl, rfl⟩ | ⟨-, hR⟩
    · exact h.2 horder c' P hP (hpages ▸ hmem)
    · exact h.2 horder c' R hR hmem

/-- `kmfree` takes back every block whose size meets the condition. -/
theorem kmInv_kmfree (h : KmInv L k live pool) (hmem : (p, sz) ∈ k.held) (hsz : MatchedSize sz) :
    ∃ s' live' pool', kmfree L p sz k.heap = .ok s' ∧
      KmInv L ⟨s', k.held.erase (p, sz)⟩ live' pool' := by
  obtain ⟨owner, howner, hheld⟩ := h.held (p, sz) hmem
  have hfree : kmfree L p sz k.heap = owner.free L p k.heap := by
    rw [kmfree, kmfreeOwner_eq hsz, howner, ok_bind]
  cases owner with
  | slab c =>
    obtain ⟨⟨P, hP, hp⟩, hnot⟩ := hheld
    obtain ⟨s', hs', -, hslab⟩ := kmemCacheFree_spec h.slab hP hp hnot
    refine ⟨s', live, _, hfree.trans hs', h.remove hmem hslab (exists_update_some h.up) ?_⟩
    intro b _ hdistinct owner hb hold
    refine hold.drop_object hP rfl rfl rfl ?_
    rintro rfl
    exact (hdistinct _ howner hb).symm
  | buddy order =>
    obtain ⟨s', hs', hslab⟩ := h.slab.kbuddyFree_spec hheld
    refine ⟨s', _, pool, hfree.trans hs', h.remove hmem hslab h.up ?_⟩
    intro b' _ hdistinct owner hb' hold
    cases owner with
    | slab c => exact hold
    | buddy order' =>
      refine ⟨(List.mem_erase_of_ne ?_).mpr hold.1, hold.2⟩
      rintro heq
      obtain ⟨hptr, rfl⟩ := Prod.mk.inj heq
      exact hdistinct _ howner hb' hptr.symm

/-! ### The band -/

/-- The pointer difference is divided, so any address of a page has its number. -/
theorem buddyFree_page {q a order : ℕ} {b : Buddy} (hq : q < L.pnumMax) (hle : L.pa q ≤ a)
    (hlt : a < L.pa q + PGSIZE) : buddyFree L a order b = buddyFree L (L.pa q) order b := by
  have hnum : paToPnum L a = paToPnum L (L.pa q) := by
    have hstart := L.start_le_pa q
    have hstop : L.pa q + PGSIZE ≤ PHYSTOP := by
      have hmax : (q + 1) * PGSIZE ≤ PHYSTOP - L.start :=
        (Nat.mul_le_mul_right _ hq).trans (Nat.div_mul_le_self _ _)
      have hle := L.start_le
      rw [Nat.add_one_mul] at hmax
      simp only [Layout.pa]
      omega
    have hdiv : (a - L.start) / PGSIZE = q := by
      simp only [Layout.pa] at hle hlt
      apply Nat.div_eq_of_lt_le
      · omega
      · rw [Nat.add_one_mul]
        omega
    rw [paToPnum_pa hq, paToPnum, if_neg (by omega), if_neg (by omega), hdiv]
  rw [buddyFree, buddyFree, hnum]

/-- In the band `kmfree` puts a page of `g_slab_2048` on a free list. -/
theorem kmfree_band (h : KmInv L k live pool) (hmem : (p, sz) ∈ k.held) (hsz : ¬ MatchedSize sz)
    (hcall : kmfree L p sz k.heap = .ok s') :
    ∃ q, OnPageList s' .gSlab2048 q ∧ PageFree L s'.mem.buddy q := by
  obtain ⟨owner, howner, hheld⟩ := h.held (p, sz) hmem
  rw [kmallocOwner_band hsz, Except.ok.injEq] at howner
  subst howner
  obtain ⟨⟨P, hP, hp⟩, -⟩ := hheld
  have hok := h.slab.ok _ P hP
  simp only at hp
  have hpage := page_of_object hok.aligned (hok.live_slot hp) le_rfl
    (Nat.lt_add_of_pos_right (CacheId.unit_pos _))
  have hlive := h.slab.held _ P _ hP hpage
  obtain ⟨q, hq, hqlt⟩ := h.slab.heap.exists_page hlive
  obtain ⟨b, hb, hheap⟩ := heapInv_free h.slab.heap hlive
  have hrange : L.pa q ≤ p ∧ p < L.pa q + PGSIZE := by
    rw [← hq, paToPage]
    simp only [PGSIZE]
    omega
  simp only [kmfree, kmfreeOwner_band hsz, ok_bind, Owner.free, kbuddyFree,
    buddyFree_page hqlt hrange.1 hrange.2, ← hq] at hcall
  simp only at hb
  rw [hb, ok_bind, pure_eq_ok] at hcall
  subst hcall
  refine ⟨paToPage p, (h.slab.onPageList_iff hP).mpr hpage, ?_⟩
  exact h.slab.heap.pageFree_of_released hheap List.erase_subset hlive
    h.slab.heap.nodup.not_mem_erase

/-! ### Stores -/

/-- No cache reads a block that is in use elsewhere. -/
theorem HeldBy.not_read (h : SlabInv L s live pool) {p a : ℕ} (hheld : HeldBy live pool owner p)
    (hle : p ≤ a) (hlt : a < p + owner.bytes) (hP : pool c = some P) :
    a ∉ ownWords c P ∧ a ∉ nodeWords P := by
  cases owner with
  | slab c₀ =>
    obtain ⟨⟨R, hR, hp⟩, hisnode⟩ := hheld
    exact h.not_read_of_object hR hp hisnode hle hlt hP
  | buddy order =>
    refine h.not_read_of_out (fun c P hP hpage => ?_) hP
    have hround : paToPage a ≤ a ∧ a < paToPage a + 2 ^ 0 * PGSIZE := by
      simp only [paToPage, PGSIZE]
      omega
    have heq := h.heap.block_unique (h.held c P _ hP hpage) hheld.1 hround.1 hround.2 hle hlt
    obtain ⟨hptr, rfl⟩ := Prod.mk.inj heq
    rw [hptr] at hpage
    exact hheld.2 rfl c P hP hpage

/-- The holder of a block may write it. -/
theorem SlabInv.writeBlock (h : SlabInv L s live pool) {p : ℕ} (hheld : HeldBy live pool owner p)
    {word : ℕ → ℕ} (hword : ∀ a, a < p ∨ p + owner.bytes ≤ a → word a = s.word a) :
    SlabInv L { s with word := word } live pool := by
  have hsame : ∀ c P, pool c = some P → ∀ a, a ∈ ownWords c P ∨ a ∈ nodeWords P →
      word a = s.word a := by
    intro c P hP a ha
    apply hword
    by_contra hin
    simp only [not_or, Nat.not_lt, Nat.not_le] at hin
    obtain ⟨hown, hnode⟩ := hheld.not_read h hin.1 hin.2 hP
    exact ha.elim hown hnode
  refine h.keep h.heap (List.Subset.refl _) (fun _ _ _ => rfl) fun c P hP => ?_
  exact ⟨fun a ha => hsame c P hP a (Or.inl ha), fun a ha => hsame c P hP a (Or.inr ha)⟩

theorem kmInv_store (h : KmInv L k live pool) {word : ℕ → ℕ} (hmem : (p, sz) ∈ k.held)
    (howner : kmallocOwner sz = .ok owner)
    (hword : ∀ a, a < p ∨ p + owner.bytes ≤ a → word a = k.heap.word a) :
    KmInv L ⟨{ k.heap with word := word }, k.held⟩ live pool := by
  obtain ⟨o, ho, hheld⟩ := h.held (p, sz) hmem
  rw [howner, Except.ok.injEq] at ho
  subst ho
  exact ⟨h.slab.writeBlock hheld hword, h.up, h.held, h.distinct⟩

/-! ### Whole runs -/

theorem kmInv_step (h : ∃ live pool, KmInv L k live pool) {op : KmOp} (hok : FreesMatchedSize k op)
    (hstep : KmStep L k op k') : ∃ live pool, KmInv L k' live pool := by
  obtain ⟨live, pool, hinv⟩ := h
  cases hstep with
  | kmalloc hcall => exact kmInv_kmalloc hinv hcall
  | kmfree hheld hcall =>
    obtain ⟨s', live', pool', hs', hinv'⟩ := kmInv_kmfree hinv hheld hok
    rw [hs', Except.ok.injEq] at hcall
    exact ⟨live', pool', hcall ▸ hinv'⟩
  | store hheld howner hword => exact ⟨live, pool, kmInv_store hinv hheld howner hword⟩

theorem band_step (h : ∃ live pool, KmInv L k live pool) {op : KmOp} (hok : ¬ FreesMatchedSize k op)
    (hstep : KmStep L k op k') : ¬ SlabPagesHeld L k' := by
  obtain ⟨live, pool, hinv⟩ := h
  cases hstep with
  | kmalloc hcall => exact absurd trivial hok
  | kmfree hheld hcall =>
    obtain ⟨q, hlist, hfree⟩ := kmfree_band hinv hheld hok hcall
    exact fun hall => hall _ q hlist hfree
  | store hheld howner hword => exact absurd trivial hok

/-- `kmalloc` and `kmfree` agree on the owner of a block exactly outside the band
from 1025 to 2048 bytes. From `slab_init` on, a run of matched calls never has a
page of a cache on a free list exactly if no block of that band is freed, and in
such a run `kmfree` accepts every other block. -/
theorem kmalloc_kmfree_owner (hheap : HeapInv L ⟨s.mem.buddy, live⟩)
    (hinit : slabInit L s = .ok s') :
    (∀ sz, (∀ owner, kmallocOwner sz = .ok owner → kmfreeOwner sz = .ok owner) ↔ MatchedSize sz) ∧
      ∀ run, IsRun (KmStep L) ⟨s', []⟩ run →
        ((∀ k ∈ visited ⟨s', []⟩ run, SlabPagesHeld L k) ↔
          Along FreesMatchedSize ⟨s', []⟩ run) ∧
        (Along FreesMatchedSize ⟨s', []⟩ run → ∀ k ∈ visited ⟨s', []⟩ run, ∀ p sz,
          (p, sz) ∈ k.held → MatchedSize sz → ∃ s'', kmfree L p sz k.heap = .ok s'') := by
  have hstart := kmInv_init hheap hinit
  refine ⟨fun sz => owner_agrees_iff, fun run hrun => ⟨?_, ?_⟩⟩
  · refine IsRun.visited_iff_along FreesMatchedSize (fun k => ∃ live pool, KmInv L k live pool)
      (SlabPagesHeld L) ?_ ?_ hstart ?_ hrun
    · intro k op k' hinv _ hok hstep
      have hinv' := kmInv_step hinv hok hstep
      obtain ⟨live', pool', hkm⟩ := hinv'
      exact ⟨⟨live', pool', hkm⟩, hkm.slabPagesHeld⟩
    · exact fun k op k' hinv _ hok hstep => band_step hinv hok hstep
    · obtain ⟨live', pool', hkm⟩ := hstart
      exact hkm.slabPagesHeld
  · intro hok k hk p sz hmem hsz
    obtain ⟨live', pool', hkm⟩ := IsRun.invariant FreesMatchedSize
      (fun k => ∃ live pool, KmInv L k live pool) (fun k op k' hi ho hs => kmInv_step hi ho hs)
      hstart hrun hok k hk
    obtain ⟨s'', -, -, hs'', -⟩ := kmInv_kmfree hkm hmem hsz
    exact ⟨s'', hs''⟩

/-- The heap when `slab_init` has returned, on a machine that starts with cleared
memory. -/
def slabBoot (L : Layout) : Kres KHeap := do
  let b ← buddyInit L ⟨⟨fun _ => 0, fun _ => 0⟩, fun _ => 0⟩
  slabInit L ⟨⟨b, fun _ => 0, fun _ _ => 0⟩, fun _ => 0, fun _ => ⟨0, 0, 0, 0, 0⟩⟩

theorem slabBoot_init (h : slabBoot L = .ok s') :
    ∃ s, HeapInv L ⟨s.mem.buddy, []⟩ ∧ slabInit L s = .ok s' := by
  simp only [slabBoot, bind_eq_ok] at h
  obtain ⟨b, hb, hinit⟩ := h
  obtain ⟨b', hb', hheap⟩ := heapInv_init L ⟨⟨fun _ => 0, fun _ => 0⟩, fun _ => 0⟩
  rw [hb, Except.ok.injEq] at hb'
  exact ⟨_, hb' ▸ hheap, hinit⟩

/-- A call of `kmalloc` and the matching call of `kmfree`, for a size that the
test lets through. -/
theorem malloc_free_run (sz : ℕ)
    (htest : (slabBoot L).Yields fun s => (kmalloc L sz s).Yields fun r =>
      r.1 ≠ NULL ∧ (kmfree L r.1 sz r.2).Yields fun _ => True) :
    ∃ s p s₁ s₂, slabBoot L = .ok s ∧
      IsRun (KmStep L) ⟨s, []⟩ [(.kmalloc sz, ⟨s₁, [(p, sz)]⟩), (.kmfree p sz, ⟨s₂, []⟩)] := by
  obtain ⟨s, hs, ⟨p, s₁⟩, hp, hnull, s₂, hfree, -⟩ := htest
  refine ⟨s, p, s₁, s₂, hs, ?_, ?_, trivial⟩
  · have hstep := KmStep.kmalloc (k := ⟨s, []⟩) hp
    rwa [if_neg hnull] at hstep
  · have hstep := KmStep.kmfree (k := ⟨s₁, [(p, sz)]⟩) List.mem_cons_self hfree
    rwa [List.erase_cons_head] at hstep

/-- The block of 1025 bytes comes from `g_slab_2048` and goes to the buddy
allocator, which puts its page on a free list. -/
theorem kmfree_1025_frees_slab_page :
    kmallocOwner 1025 = .ok (.slab .gSlab2048) ∧ kmfreeOwner 1025 = .ok (.buddy 0) ∧
      ∃ s p s₁ s₂, slabBoot smallLayout = .ok s ∧
        IsRun (KmStep smallLayout) ⟨s, []⟩
          [(.kmalloc 1025, ⟨s₁, [(p, 1025)]⟩), (.kmfree p 1025, ⟨s₂, []⟩)] ∧
        ¬ SlabPagesHeld smallLayout ⟨s₂, []⟩ := by
  refine ⟨rfl, rfl, ?_⟩
  obtain ⟨s, p, s₁, s₂, hs, hrun⟩ := malloc_free_run (L := smallLayout) 1025 (by
    decide +kernel)
  obtain ⟨s₀, hheap, hinit⟩ := slabBoot_init hs
  have hinv := kmInv_step (kmInv_init hheap hinit)
    (show FreesMatchedSize _ (.kmalloc 1025) from trivial) hrun.1
  have hband : ¬ FreesMatchedSize ⟨s₁, [(p, 1025)]⟩ (.kmfree p 1025) := by
    simp only [FreesMatchedSize]
    decide
  exact ⟨s, p, s₁, s₂, hs, hrun, band_step hinv hband hrun.2.1⟩

/-- A block of 24 bytes is taken and given back on a small machine. -/
theorem kmalloc_kmfree_24 :
    ∃ s p s₁ s₂, slabBoot smallLayout = .ok s ∧
      IsRun (KmStep smallLayout) ⟨s, []⟩
        [(.kmalloc 24, ⟨s₁, [(p, 24)]⟩), (.kmfree p 24, ⟨s₂, []⟩)] ∧
      kmfreeOwner 24 = kmallocOwner 24 ∧ SlabPagesHeld smallLayout ⟨s₂, []⟩ := by
  obtain ⟨s, p, s₁, s₂, hs, hrun⟩ := malloc_free_run (L := smallLayout) 24 (by
    decide +kernel)
  obtain ⟨s₀, hheap, hinit⟩ := slabBoot_init hs
  obtain ⟨hagree, hruns⟩ := kmalloc_kmfree_owner hheap hinit
  refine ⟨s, p, s₁, s₂, hs, hrun, (hagree 24).mpr (by decide) _ rfl, ?_⟩
  have hok : Along FreesMatchedSize ⟨s, []⟩
      [(.kmalloc 24, ⟨s₁, [(p, 24)]⟩), (.kmfree p 24, ⟨s₂, []⟩)] := by
    refine ⟨trivial, ?_, trivial⟩
    exact Or.inl (by decide)
  exact (hruns _ hrun).1.mpr hok _ (by simp [visited])

end Run

end LearnOS
