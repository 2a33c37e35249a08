import LearnOS.Mem.Kalloc
import LearnOS.Lib.Segment

/-!
# The slab caches of `slab.c`

A cache cuts pages into slots of `unitsz` bytes. Free slots form a list through
their first words, and the head of that list is itself a slot of the first
page: slot 1 in a small pool, whose slot 0 links the pages, and slot 0 in a
large pool, whose pages are linked by nodes taken from `g_slab_16`.

## Implementation notes

`word` is the pointer word found at an address. It is the view that slabs have
of their pages, next to the bytes of `KMem.frame` that user pages have. Every
function runs under the lock of its cache and is modelled as one step.
-/

namespace LearnOS

open LinkedList Function

inductive CacheId where
  | gSlab8
  | gSlab16
  | gSlab32
  | gSlab64
  | gSlab128
  | gSlab256
  | gSlab512
  | gSlab1024
  | gSlab2048
  | gSlabKmemCache
  deriving DecidableEq, Repr

/-- `struct kmem_cache` without its name and lock. `head` is either member of
`union pagelink`. -/
structure KmemCache where
  size : ℕ
  align : ℕ
  unitsz : ℕ
  allocCount : ℕ
  head : ℕ

/-- The kernel heap: pages, the words in them, and the global caches. -/
structure KHeap where
  mem : KMem
  word : ℕ → ℕ
  cache : CacheId → KmemCache

namespace KHeap

def store (s : KHeap) (a v : ℕ) : KHeap :=
  { s with word := update s.word a v }

def setCache (s : KHeap) (c : CacheId) (k : KmemCache) : KHeap :=
  { s with cache := update s.cache c k }

/-- `kalloc` as the slabs see it: all words of the new page are zero. -/
def allocPage (L : Layout) (s : KHeap) : Kres (ℕ × KHeap) := do
  let (p, m) ← kalloc L s.mem
  return (p, { s with
    mem := m
    word := fun a => if a / PGSIZE = p / PGSIZE then 0 else s.word a })

end KHeap

/-- `pa_to_page`. -/
def paToPage (pa : ℕ) : ℕ := pa / PGSIZE * PGSIZE

/-- `iub`, the index of the last slot of a page. -/
def lastSlot (unitsz : ℕ) : ℕ := PGSIZE / unitsz - 1

/-- The loop that links `n` slots of a page from slot `j` on, each to the next. -/
def linkSlots (page unitsz : ℕ) : ℕ → ℕ → KHeap → KHeap
  | 0, _, s => s
  | n + 1, j, s =>
    linkSlots page unitsz n (j + 1) (s.store (page + j * unitsz) (page + (j + 1) * unitsz))

/-! ## Building pools -/

/-- The first pages of a small pool, with `n` of them left. Returns the last one,
which is not linked yet. -/
def smallPages (L : Layout) (unitsz : ℕ) : ℕ → ℕ → KHeap → Kres (ℕ × KHeap)
  | 0, curpg, s => .ok (curpg, s)
  | n + 1, curpg, s => do
      let s := linkSlots curpg unitsz (lastSlot unitsz - 1) 1 s
      let (newpg, s) ← s.allocPage L
      let s := s.store curpg newpg
      let s := s.store (curpg + lastSlot unitsz * unitsz) (newpg + unitsz)
      smallPages L unitsz n newpg s

def initSmallObjectPool (L : Layout) (unitsz initPgnum : ℕ) (s : KHeap) :
    Kres (ℕ × KHeap) := do
  let (firstpg, s) ← s.allocPage L
  let (curpg, s) ← smallPages L unitsz (initPgnum - 1) firstpg s
  let s := linkSlots curpg unitsz (lastSlot unitsz - 1) 1 s
  let s := s.store curpg NULL
  let s := s.store (curpg + lastSlot unitsz * unitsz) NULL
  return (firstpg, s)

/-- The end of `alloc_small_object_pool` and `alloc_large_object_pool`: the first
slot of the list that starts at `faptr` is taken. -/
def popFree (c : CacheId) (faptr fa : ℕ) (s : KHeap) : KHeap :=
  let s := s.store faptr (s.word fa)
  s.setCache c { s.cache c with allocCount := ((s.cache c).allocCount + 1) % 2 ^ 64 }

/-- A pool without a free slot grows by one page and tries again. `n` bounds the
number of tries. -/
def allocSmallObjectPool (L : Layout) (c : CacheId) : ℕ → KHeap → Kres (ℕ × KHeap)
  | 0, _ => .error .undefined
  | n + 1, s => do
      let head := (s.cache c).head
      let unitsz := (s.cache c).unitsz
      let faptr := head + unitsz
      let fa := s.word faptr
      if fa = NULL then
        let (newpg, s) ← initSmallObjectPool L unitsz 1 s
        let s := s.store newpg head
        let s := s.setCache c { s.cache c with head := newpg }
        let s := s.store (newpg + lastSlot unitsz * unitsz) faptr
        allocSmallObjectPool L c n s
      else return (fa, popFree c faptr fa s)

/-- The recursion of the source ends after the first growth, so two tries are
enough. -/
def allocTries : ℕ := 2

/-- `kmem_cache_alloc(&g_slab_16)` for a page node. Were the cache a large one,
the call would come back here without end. -/
def allocNode (L : Layout) (s : KHeap) : Kres (ℕ × KHeap) :=
  if (s.cache .gSlab16).size > 16 then .error .undefined
  else allocSmallObjectPool L .gSlab16 allocTries s

/-- `curnode->next` of a `struct lnode`, whose first word is `curpage`. -/
def lnodeNext (n : ℕ) : ℕ := n + 8

/-- The first pages of a large pool, with `n` of them left. Returns the last page
and its node. -/
def largePages (L : Layout) (unitsz : ℕ) : ℕ → ℕ → ℕ → KHeap → Kres (ℕ × ℕ × KHeap)
  | 0, curpg, curnode, s => .ok (curpg, curnode, s)
  | n + 1, curpg, curnode, s => do
      let s := linkSlots curpg unitsz (lastSlot unitsz) 0 s
      let s := s.store curnode curpg
      let (newpg, s) ← s.allocPage L
      let (newnode, s) ← allocNode L s
      let s := s.store newnode newpg
      let s := s.store (lnodeNext curnode) newnode
      let s := s.store (curpg + lastSlot unitsz * unitsz) newpg
      largePages L unitsz n newpg newnode s

def initLargeObjectPool (L : Layout) (unitsz initPgnum : ℕ) (s : KHeap) :
    Kres (ℕ × KHeap) := do
  let (result, s) ← allocNode L s
  let (firstpg, s) ← s.allocPage L
  let s := s.store result firstpg
  let (curpg, curnode, s) ← largePages L unitsz (initPgnum - 1) firstpg result s
  let s := linkSlots curpg unitsz (lastSlot unitsz) 0 s
  let s := s.store (lnodeNext curnode) NULL
  let s := s.store (curpg + lastSlot unitsz * unitsz) NULL
  return (result, s)

def allocLargeObjectPool (L : Layout) (c : CacheId) : ℕ → KHeap → Kres (ℕ × KHeap)
  | 0, _ => .error .undefined
  | n + 1, s => do
      let head := (s.cache c).head
      let unitsz := (s.cache c).unitsz
      let faptr := s.word head
      let fa := s.word faptr
      if fa = NULL then
        let (newnode, s) ← initLargeObjectPool L unitsz 1 s
        let s := s.store (lnodeNext newnode) head
        let s := s.setCache c { s.cache c with head := newnode }
        let s := s.store (s.word newnode + lastSlot unitsz * unitsz) faptr
        allocLargeObjectPool L c n s
      else return (fa, popFree c faptr fa s)

def kmemCacheAlloc (L : Layout) (c : CacheId) (s : KHeap) : Kres (ℕ × KHeap) :=
  if (s.cache c).size > 16 then allocLargeObjectPool L c allocTries s
  else allocSmallObjectPool L c allocTries s

/-! ## Release -/

/-- A list of pages is never longer than the number of page frames. -/
def walkBound : ℕ := PHYSTOP / PGSIZE + 1

/-- The end of `free_small_object_pool` and `free_large_object_pool`: the object
goes to the front of the list that starts at `faptr`. -/
def pushFree (c : CacheId) (faptr pa : ℕ) (s : KHeap) : KHeap :=
  let s := s.store pa (s.word faptr)
  let s := s.store faptr pa
  s.setCache c { s.cache c with allocCount := ((s.cache c).allocCount + (2 ^ 64 - 1)) % 2 ^ 64 }

/-- The list head is looked for at `sizeof(struct snode)`, not at `unitsz`. -/
def freeSmallObjectPool (c : CacheId) (pa : ℕ) (s : KHeap) : Kres KHeap := do
  let pg := paToPage pa
  let head := (s.cache c).head
  match seek NULL s.word (fun a => a == pg) walkBound head with
  | none => throw .undefined
  | some workptr =>
    if workptr = NULL then
      throw (.panic "kmem_cache_free: invalid pa.")
    if (pa - pg) % (s.cache c).unitsz ≠ 0 then
      throw (.panic "kmem_cache_free: invalid alignment.")
    return pushFree c (head + 8) pa s

def freeLargeObjectPool (c : CacheId) (pa : ℕ) (s : KHeap) : Kres KHeap := do
  let pg := paToPage pa
  let head := (s.cache c).head
  match seek NULL (fun n => s.word (lnodeNext n)) (fun n => s.word n == pg) walkBound head with
  | none => throw .undefined
  | some workptr =>
    if workptr = NULL then
      throw (.panic "kmem_cache_free: invalid pa.")
    if (pa - pg) % (s.cache c).unitsz ≠ 0 then
      throw (.panic "kmem_cache_free: invalid alignment.")
    return pushFree c (s.word head) pa s

def kmemCacheFree (c : CacheId) (pa : ℕ) (s : KHeap) : Kres KHeap :=
  if (s.cache c).size > 16 then freeLargeObjectPool c pa s
  else freeSmallObjectPool c pa s

/-! ## Initialisation -/

/-- `ALIGN_UP`, stored in sixteen bits. -/
def alignUp (sz align : ℕ) : ℕ := (sz + (align - 1)) / align * align % 2 ^ 16

def kmemCacheCreate (L : Layout) (c : CacheId) (sz align initPgnum : ℕ) (s : KHeap) :
    Kres KHeap := do
  if align = 0 ∨ align &&& (align - 1) ≠ 0 then
    throw (.panic "kmem_cache_create: invalid alignment.")
  let unitsz := alignUp sz align
  let s := s.setCache c ⟨sz, align, unitsz, 0, (s.cache c).head⟩
  if sz > 16 then
    let (lhead, s) ← initLargeObjectPool L unitsz initPgnum s
    return s.setCache c { s.cache c with head := lhead }
  else
    let (shead, s) ← initSmallObjectPool L unitsz initPgnum s
    return s.setCache c { s.cache c with head := shead }

/-- `sizeof(struct kmem_cache)`. -/
def sizeofKmemCache : ℕ := 56

def slabInit (L : Layout) (s : KHeap) : Kres KHeap := do
  let s ← kmemCacheCreate L .gSlab8 8 8 2 s
  let s ← kmemCacheCreate L .gSlab16 16 16 2 s
  let s ← kmemCacheCreate L .gSlab32 32 32 2 s
  let s ← kmemCacheCreate L .gSlab64 64 64 2 s
  let s ← kmemCacheCreate L .gSlab128 128 128 2 s
  let s ← kmemCacheCreate L .gSlab256 256 256 1 s
  let s ← kmemCacheCreate L .gSlab512 512 512 1 s
  let s ← kmemCacheCreate L .gSlab1024 1024 1024 1 s
  let s ← kmemCacheCreate L .gSlab2048 2048 2048 1 s
  kmemCacheCreate L .gSlabKmemCache sizeofKmemCache 8 1 s

end LearnOS
