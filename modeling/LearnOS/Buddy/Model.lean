import LearnOS.Param
import LearnOS.Lib.LinkedList
import LearnOS.Lib.Bitmap

/-!
# The buddy page allocator of `kalloc.c`

The free lists are threaded through the free pages themselves: a free block
holds a `struct run` at its start, and the list heads are the sentinels of
`freelist_page`. Both kinds of node live in one memory of `prev` and `next`
cells indexed by physical address. The bitmap is the byte array `bitmap_page`.

## Implementation notes

`while` loops whose counter has a known bound recurse on the number of
iterations that are left, so that every function is total and evaluates.
-/

namespace LearnOS

open LinkedList

/-- The order of the largest blocks. -/
def MAX_ORDER : ℕ := 11

/-- `sizeof(struct run)`: two pointers. -/
def sizeofRun : ℕ := 16

/-- Where the linker puts `end`, the global `buddy.freelist_page` and the page
`trampoline`. -/
structure Layout where
  kernelEnd : ℕ
  freelistPage : ℕ
  trampoline : ℕ
  freelistPage_pos : 0 < freelistPage
  freelistPage_le : freelistPage + (MAX_ORDER + 1) * sizeofRun ≤ kernelEnd
  base_le : KERNBASE ≤ kernelEnd
  end_le : kernelEnd ≤ PHYSTOP

namespace Layout

/-- `buddy.start` as set by `buddy_init`. -/
def start (L : Layout) : ℕ := pgroundup L.kernelEnd

/-- `pnum_max` as set by `buddy_init`. -/
def pnumMax (L : Layout) : ℕ := (PHYSTOP - L.start) / PGSIZE

/-- `buddy.freelist_page + order`. -/
def sentinel (L : Layout) (order : ℕ) : ℕ := L.freelistPage + order * sizeofRun

/-- The address of a page. -/
def pa (L : Layout) (pnum : ℕ) : ℕ := L.start + pnum * PGSIZE

end Layout

/-- The part of `buddy` that changes after initialisation, with the `struct run`
found at every address. -/
structure Buddy where
  run : Links ℕ
  bitmapPage : ℕ → BitVec 8

def NULL : ℕ := 0

/-- The address of a page of the heap. -/
def pnumToPa (L : Layout) (pnum : ℕ) : Kres ℕ :=
  if pnum ≥ L.pnumMax then .error (.panic "pnum_to_pa") else .ok (L.start + pnum * PGSIZE)

/-- The pointer difference is signed and its quotient becomes a `uint64`. -/
def paToPnum (L : Layout) (pa : ℕ) : Kres ℕ :=
  if pa ≥ PHYSTOP then .error (.panic "pa_to_pnum")
  else if pa < L.start then .ok ((2 ^ 64 - (L.start - pa) / PGSIZE) % 2 ^ 64)
  else .ok ((pa - L.start) / PGSIZE)

/-- The byte of the bitmap at which the bits of each order begin. -/
def buddyBitmapOffset : List ℕ :=
  [0x0000, 0x1000, 0x1800, 0x1c00, 0x1e00, 0x1f00, 0x1f80, 0x1fc0, 0x1fe0, 0x1ff0, 0x1ff8,
    0x1ffc, 0x1ffe]

/-- The bit of a block is clear while the block is free. -/
def buddySetbitmap (pnum order : ℕ) (flag : Bool) (s : Buddy) : Kres Buddy :=
  if pnum &&& (2 ^ order - 1) ≠ 0 then .error (.panic "buddy_setbitmap")
  else .ok { s with
    bitmapPage := Bitmap.set s.bitmapPage (buddyBitmapOffset.getD order 0) (pnum >>> order) flag }

/-- The number of a block must be a multiple of its size. -/
def buddyGetbitmap (pnum order : ℕ) (s : Buddy) : Kres (BitVec 8) :=
  if pnum &&& (2 ^ order - 1) ≠ 0 then .error (.panic "buddy_getbitmap")
  else .ok (Bitmap.get s.bitmapPage (buddyBitmapOffset.getD order 0) (pnum >>> order))

/-- The first free block of an order, or `NULL`. -/
def buddyGetfirst (L : Layout) (order : ℕ) (s : Buddy) : ℕ := s.run.next (L.sentinel order)

/-- A block becomes free. -/
def buddyInsertfirst (L : Layout) (newfirst order : ℕ) (s : Buddy) : Kres Buddy := do
  let s := { s with run := s.run.insertFirst NULL (L.sentinel order) newfirst }
  let pnum ← paToPnum L newfirst
  buddySetbitmap pnum order false s

/-- The first free block of an order is taken. -/
def buddyErasefirst (L : Layout) (order : ℕ) (s : Buddy) : Kres (ℕ × Buddy) := do
  let next := s.run.next (L.sentinel order)
  if next = NULL then
    throw (.panic "buddy_erasefirst.")
  let s := { s with run := s.run.eraseFirst NULL (L.sentinel order) }
  let pnum ← paToPnum L next
  let s ← buddySetbitmap pnum order true s
  return (next, s)

/-- A free block is taken from inside its list. -/
def buddyErase (L : Layout) (ptr order : ℕ) (s : Buddy) : Kres Buddy := do
  if s.run.prev ptr = NULL then
    throw (.panic "buddy_erase")
  let s := { s with run := s.run.erase NULL ptr }
  let pnum ← paToPnum L ptr
  buddySetbitmap pnum order true s

/-! ## Initialisation -/

/-- The first loop of `buddy_init_freelist`, over the sentinels below `n`. -/
def clearSentinels (L : Layout) : ℕ → Links ℕ → Links ℕ
  | 0, m => m
  | i + 1, m => ((clearSentinels L i m).setNext (L.sentinel i) NULL).setPrev (L.sentinel i) NULL

/-- The second loop of `buddy_init_freelist`, for the bits of `pnum_max` below `n`. -/
def insertLowBlocks (L : Layout) : ℕ → Buddy → Kres Buddy
  | 0, s => .ok s
  | i + 1, s => do
      let s ← insertLowBlocks L i s
      if L.pnumMax &&& 2 ^ i ≠ 0 then
        let pnum := L.pnumMax &&& (2 ^ 64 - 2 ^ (i + 1))
        let pa ← pnumToPa L pnum
        buddyInsertfirst L pa i s
      else return s

/-- The third loop of `buddy_init_freelist`, with `pnum` running over the first
`n` multiples of the largest block size. -/
def insertTopBlocks (L : Layout) : ℕ → Buddy → Kres Buddy
  | 0, s => .ok s
  | i + 1, s => do
      let s ← insertTopBlocks L i s
      let pa ← pnumToPa L (i * 2 ^ MAX_ORDER)
      buddyInsertfirst L pa MAX_ORDER s

/-- The pages become free blocks, one of a small order for each bit of their number. -/
def buddyInitFreelist (L : Layout) (s : Buddy) : Kres Buddy := do
  let s := { s with run := clearSentinels L (MAX_ORDER + 1) s.run }
  let s ← insertLowBlocks L MAX_ORDER s
  insertTopBlocks L (L.pnumMax / 2 ^ MAX_ORDER) s

/-- All blocks are marked as taken. -/
def buddyInitBitmap (s : Buddy) : Buddy :=
  { s with bitmapPage := fun i => if i < 2 * PGSIZE then 255#8 else s.bitmapPage i }

def buddyInit (L : Layout) (s : Buddy) : Kres Buddy :=
  buddyInitFreelist L (buddyInitBitmap s)

/-! ## Allocation -/

/-- The search loop of `buddy_alloc`, with `n` orders left to look at. -/
def findFreeOrder (L : Layout) (s : Buddy) : ℕ → ℕ → ℕ
  | 0, freeOrder => freeOrder
  | n + 1, freeOrder =>
    if buddyGetfirst L freeOrder s = NULL then findFreeOrder L s n (freeOrder + 1)
    else freeOrder

/-- The splitting loop of `buddy_alloc`, with `free_order = order + n`. -/
def splitBlock (L : Layout) (memBlock order : ℕ) : ℕ → Buddy → Kres Buddy
  | 0, s => .ok s
  | n + 1, s => do
      let freeOrder := order + n
      let upperBlock := memBlock + 2 ^ freeOrder * PGSIZE
      let s ← buddyInsertfirst L upperBlock freeOrder s
      splitBlock L memBlock order n s

/-- The smallest free block that is large enough is split. -/
def buddyAlloc (L : Layout) (order : ℕ) (s : Buddy) : Kres (ℕ × Buddy) := do
  if order > MAX_ORDER then
    throw (.panic "buddy_alloc: order out of bound.")
  let freeOrder := findFreeOrder L s (MAX_ORDER + 1 - order) order
  if freeOrder > MAX_ORDER then
    return (NULL, s)
  let (memBlock, s) ← buddyErasefirst L freeOrder s
  let s ← splitBlock L memBlock order (freeOrder - order) s
  return (memBlock, s)

/-! ## Release -/

/-- The merging loop of `buddy_free` with the insertion after it, where
`freeorder = MAX_ORDER - n` as long as the order is a valid one. -/
def mergeBlock (L : Layout) : ℕ → ℕ → ℕ → Buddy → Kres Buddy
  | 0, pnum, freeorder, s => do
      if freeorder = MAX_ORDER then
        let pa ← pnumToPa L pnum
        buddyInsertfirst L pa freeorder s
      else return s
  | n + 1, pnum, freeorder, s => do
      let buddyPnum := pnum ^^^ 2 ^ freeorder
      let taken ← if buddyPnum < L.pnumMax then buddyGetbitmap buddyPnum freeorder s
        else .ok 1#8
      if taken = 0#8 then
        let buddyPtr ← pnumToPa L buddyPnum
        let s ← buddyErase L buddyPtr freeorder s
        mergeBlock L n (pnum &&& (2 ^ 64 - (2 ^ freeorder + 1))) (freeorder + 1) s
      else
        let pa ← pnumToPa L pnum
        buddyInsertfirst L pa freeorder s

/-- A block merges with its buddy as long as that is free. -/
def buddyFree (L : Layout) (blockStart order : ℕ) (s : Buddy) : Kres Buddy := do
  let pnum ← paToPnum L blockStart
  if pnum &&& (2 ^ order - 1) ≠ 0 then
    throw (.panic "buddy_free")
  mergeBlock L (MAX_ORDER - order) pnum order s

end LearnOS
