import LearnOS.Mem.Kalloc
import LearnOS.Vm.Pte

/-!
# Page tables of `vm.c`

A user page table with its three levels of Sv39. Page-table pages are indexed
by the address bits above them: `low j` is the level-0 page that serves the
addresses whose bits from 21 upwards are `j`, and `pte v` is the entry of
virtual page `v`.

## Implementation notes

Every function takes the page allocator as a parameter where the source calls
`kalloc`; the kernel's own is `kalloc L`. `walk` is split by its last argument:
`walk` looks up, `walkAlloc` creates missing levels. A pointer to an entry is the
page table with the page number. Loops over pages recurse on the number of
pages that are left.
-/

namespace LearnOS

open Function

structure PageTable where
  root : ℕ
  mid : ℕ → Option ℕ
  low : ℕ → Option ℕ
  pte : ℕ → Pte

/-- A function in the place of `kalloc`. -/
abbrev PageAlloc := KMem → Kres (ℕ × KMem)

/-- The root entry above page `v`: bits 30 and up of its address. -/
def px2 (v : ℕ) : ℕ := v / 2 ^ 18

/-- The level-1 entry above page `v`: bits 21 and up of its address. -/
def px1 (v : ℕ) : ℕ := v / 2 ^ 9

namespace PageTable

/-- The entry of a page, when both of the levels above it exist. -/
def pte? (pt : PageTable) (v : ℕ) : Option Pte :=
  if (pt.mid (px2 v)).isSome ∧ (pt.low (px1 v)).isSome then some (pt.pte v) else none

/-- A zeroed level-1 page below entry `i` of the root. -/
def addMid (pt : PageTable) (i page : ℕ) : PageTable :=
  { pt with
    mid := update pt.mid i (some page)
    low := fun j => if j / 2 ^ 9 = i then none else pt.low j }

/-- A zeroed level-0 page. -/
def addLow (pt : PageTable) (j page : ℕ) : PageTable :=
  { pt with
    low := update pt.low j (some page)
    pte := fun v => if px1 v = j then 0 else pt.pte v }

def setPte (pt : PageTable) (v : ℕ) (w : Pte) : PageTable :=
  { pt with pte := update pt.pte v w }

end PageTable

/-- `walk(pagetable, va, 0)`. -/
def walk (pt : PageTable) (va : ℕ) : Kres (Option Pte) :=
  if va ≥ MAXVA then .error (.panic "walk") else .ok (pt.pte? (va / PGSIZE))

/-- The first round of the loop of `walk` with `alloc` set. -/
def walkMid (pageAlloc : PageAlloc) (pt : PageTable) (v : ℕ) (m : KMem) :
    Kres (Bool × PageTable × KMem) :=
  match pt.mid (px2 v) with
  | some _ => .ok (true, pt, m)
  | none => do
      let (page, m) ← pageAlloc m
      if page = NULL then
        return (false, pt, m)
      return (true, pt.addMid (px2 v) page, m.memset page 0)

/-- The second round. -/
def walkLow (pageAlloc : PageAlloc) (pt : PageTable) (v : ℕ) (m : KMem) :
    Kres (Bool × PageTable × KMem) :=
  match pt.low (px1 v) with
  | some _ => .ok (true, pt, m)
  | none => do
      let (page, m) ← pageAlloc m
      if page = NULL then
        return (false, pt, m)
      return (true, pt.addLow (px1 v) page, m.memset page 0)

/-- `walk(pagetable, va, 1)`. -/
def walkAlloc (pageAlloc : PageAlloc) (pt : PageTable) (va : ℕ) (m : KMem) :
    Kres (Option Pte × PageTable × KMem) := do
  if va ≥ MAXVA then
    throw (.panic "walk")
  let (found, pt, m) ← walkMid pageAlloc pt (va / PGSIZE) m
  if !found then
    return (none, pt, m)
  let (found, pt, m) ← walkLow pageAlloc pt (va / PGSIZE) m
  if !found then
    return (none, pt, m)
  return (some (pt.pte (va / PGSIZE)), pt, m)

def walkaddr (pt : PageTable) (va : ℕ) : Kres ℕ := do
  if va ≥ MAXVA then
    return 0
  match ← walk pt va with
  | none => return 0
  | some pte =>
    if !Pte.has pte PTE_V then return 0
    else if !Pte.has pte PTE_U then return 0
    else return pte2pa pte

/-- The loop of `mappages`, with the number of pages that are left. -/
def mapLoop (pageAlloc : PageAlloc) (perm : Pte) : ℕ → PageTable → ℕ → ℕ → KMem →
    Kres (ℤ × PageTable × KMem)
  | 0, pt, _, _, m => .ok (0, pt, m)
  | n + 1, pt, a, pa, m => do
      let (pte, pt, m) ← walkAlloc pageAlloc pt a m
      match pte with
      | none => return (-1, pt, m)
      | some pte =>
        if Pte.has pte PTE_V then
          throw (.panic "mappages: remap")
        mapLoop pageAlloc perm n (pt.setPte (a / PGSIZE) (pa2pte pa ||| perm ||| PTE_V))
          (a + PGSIZE) (pa + PGSIZE) m

def mappages (pageAlloc : PageAlloc) (pt : PageTable) (va size pa : ℕ) (perm : Pte) (m : KMem) :
    Kres (ℤ × PageTable × KMem) := do
  if va % PGSIZE ≠ 0 then
    throw (.panic "mappages: va not aligned")
  if size % PGSIZE ≠ 0 then
    throw (.panic "mappages: size not aligned")
  if size = 0 then
    throw (.panic "mappages: size")
  mapLoop pageAlloc perm (size / PGSIZE) pt va pa m

/-- The loop of `uvmunmap`. -/
def unmapLoop (L : Layout) (doFree : Bool) : ℕ → ℕ → PageTable → KMem →
    Kres (PageTable × KMem)
  | 0, _, pt, m => .ok (pt, m)
  | n + 1, a, pt, m => do
      match ← walk pt a with
      | none => unmapLoop L doFree n (a + PGSIZE) pt m
      | some pte =>
        if !Pte.has pte PTE_V then unmapLoop L doFree n (a + PGSIZE) pt m
        else if pteFlags pte = PTE_V then throw (.panic "uvmunmap: not a leaf")
        else do
          let m ← if doFree then kfree L (pte2pa pte) m else pure m
          unmapLoop L doFree n (a + PGSIZE) (pt.setPte (a / PGSIZE) 0) m

def uvmunmap (L : Layout) (pt : PageTable) (va npages : ℕ) (doFree : Bool) (m : KMem) :
    Kres (PageTable × KMem) :=
  if va % PGSIZE ≠ 0 then .error (.panic "uvmunmap: not aligned")
  else unmapLoop L doFree npages va pt m

/-- The page table is absent when no page was left. -/
def uvmcreate (pageAlloc : PageAlloc) (m : KMem) : Kres (Option PageTable × KMem) := do
  let (page, m) ← pageAlloc m
  if page = NULL then
    return (none, m)
  return (some ⟨page, fun _ => none, fun _ => none, fun _ => 0⟩, m.memset page 0)

/-- `PGROUNDUP` of a `uint64`. -/
def pgroundup64 (a : ℕ) : ℕ := pgroundup a % 2 ^ 64

/-- Calls shrink by at most `2 ^ 31` bytes, so the `int` page count is exact. -/
def uvmdealloc (L : Layout) (pt : PageTable) (oldsz newsz : ℕ) (m : KMem) :
    Kres (ℕ × PageTable × KMem) := do
  if newsz ≥ oldsz then
    return (oldsz, pt, m)
  if pgroundup64 newsz < pgroundup64 oldsz then
    let npages := (pgroundup64 oldsz - pgroundup64 newsz) / PGSIZE
    let (pt, m) ← uvmunmap L pt (pgroundup64 newsz) npages true m
    return (newsz, pt, m)
  return (newsz, pt, m)

/-- `freewalk` on the level-0 page `j`: the entries below `n` must be clear. An
entry without permission bits would be taken for a page table. -/
def freewalkLeaf (pt : PageTable) (j : ℕ) : ℕ → Kres Unit
  | 0 => .ok ()
  | k + 1 => do
      freewalkLeaf pt j k
      let pte := pt.pte (2 ^ 9 * j + k)
      if Pte.has pte PTE_V then
        if pte &&& (PTE_R ||| PTE_W ||| PTE_X) = 0 then
          throw .undefined
        throw (.panic "freewalk: leaf")

/-- `freewalk` on the level-1 page `i`, for its entries below `n`. -/
def freewalkLow (L : Layout) (pt : PageTable) (i : ℕ) : ℕ → KMem → Kres KMem
  | 0, m => .ok m
  | k + 1, m => do
      let m ← freewalkLow L pt i k m
      match pt.low (2 ^ 9 * i + k) with
      | none => return m
      | some page => do
          freewalkLeaf pt (2 ^ 9 * i + k) (2 ^ 9)
          kfree L page m

/-- `freewalk` on the root, for its entries below `n`. -/
def freewalkMid (L : Layout) (pt : PageTable) : ℕ → KMem → Kres KMem
  | 0, m => .ok m
  | k + 1, m => do
      let m ← freewalkMid L pt k m
      match pt.mid k with
      | none => return m
      | some page => do
          let m ← freewalkLow L pt k (2 ^ 9) m
          kfree L page m

def freewalk (L : Layout) (pt : PageTable) (m : KMem) : Kres KMem := do
  let m ← freewalkMid L pt (2 ^ 9) m
  kfree L pt.root m

def uvmfree (L : Layout) (pt : PageTable) (sz : ℕ) (m : KMem) : Kres KMem := do
  if sz > 0 then
    let (pt, m) ← uvmunmap L pt 0 (pgroundup64 sz / PGSIZE) true m
    freewalk L pt m
  else freewalk L pt m

/-- The flags of a page after `uvmcopy`: a writable page becomes copy-on-write. -/
def cowFlags (flags : Pte) : Pte :=
  if Pte.has flags PTE_W then (flags ||| PTE_F) &&& ~~~PTE_W else flags

/-- The parent's table after `uvmcopy` has looked at page `v`. -/
def markCow (old : PageTable) (v : ℕ) (pte : Pte) : PageTable :=
  if Pte.has (pteFlags pte) PTE_W then
    old.setPte v (pa2pte (pte2pa pte) ||| cowFlags (pteFlags pte))
  else old

/-- The label `err` of `uvmcopy`. -/
def uvmcopyErr (L : Layout) (old new : PageTable) (i : ℕ) (m : KMem) :
    Kres (ℤ × PageTable × PageTable × KMem) := do
  let (new, m) ← uvmunmap L new 0 (i / PGSIZE) true m
  return (-1, old, new, m)

/-- The loop of `uvmcopy`. -/
def copyLoop (L : Layout) (pageAlloc : PageAlloc) : ℕ → ℕ → PageTable → PageTable → KMem →
    Kres (ℤ × PageTable × PageTable × KMem)
  | 0, _, old, new, m => .ok (0, old, new, m)
  | n + 1, i, old, new, m => do
      match ← walk old i with
      | none => copyLoop L pageAlloc n (i + PGSIZE) old new m
      | some pte =>
        if !Pte.has pte PTE_V then copyLoop L pageAlloc n (i + PGSIZE) old new m
        else do
          let pa := pte2pa pte
          let old := markCow old (i / PGSIZE) pte
          let (mem, m) ← pageAlloc m
          if mem = NULL then
            uvmcopyErr L old new i m
          else do
            let m := m.copyPage mem pa
            let (r, new, m) ← mappages pageAlloc new i PGSIZE mem (cowFlags (pteFlags pte)) m
            if r ≠ 0 then do
              let m ← kfree L mem m
              uvmcopyErr L old new i m
            else copyLoop L pageAlloc n (i + PGSIZE) old new (kaddrefcnt L pa m).2

def uvmcopy (L : Layout) (pageAlloc : PageAlloc) (old new : PageTable) (sz : ℕ) (m : KMem) :
    Kres (ℤ × PageTable × PageTable × KMem) :=
  copyLoop L pageAlloc (pgroundup sz / PGSIZE) 0 old new m

/-- `sz` and `ustackTop` are those of the running process. -/
def uvlazyalloc (L : Layout) (pageAlloc : PageAlloc) (pt : PageTable) (va sz ustackTop : ℕ)
    (m : KMem) : Kres (ℤ × PageTable × KMem) := do
  let (mem, m) ← pageAlloc m
  let va := pgrounddown va
  if va > sz then
    return (-1, pt, m)
  if va < ustackTop then
    return (-1, pt, m)
  if mem = NULL then
    return (-1, pt, m)
  let m := m.memset mem 0
  let (r, pt, m) ← mappages pageAlloc pt va PGSIZE mem (PTE_R ||| PTE_U ||| PTE_W ||| PTE_X) m
  if r ≠ 0 then do
    let m ← kfree L mem m
    let (_, pt, m) ← uvmdealloc L pt va sz m
    return (1, pt, m)
  return (1, pt, m)

/-! ## Copy-on-write faults of `kalloc.c` -/

def cowpage (pt : PageTable) (va : ℕ) : Kres ℤ := do
  if va ≥ MAXVA then
    return -1
  match ← walk pt va with
  | none => return -1
  | some pte =>
    if !Pte.has pte PTE_V then return -1
    else if !Pte.has pte PTE_F then return -1
    else return 0

/-- The last branch of `cowalloc`, for an entry that is mapped and shared. -/
def cowcopy (L : Layout) (pageAlloc : PageAlloc) (pt : PageTable) (va : ℕ) (pte : Pte)
    (m : KMem) : Kres (ℕ × PageTable × KMem) := do
  let pa := pte2pa pte
  let (mem, m) ← pageAlloc m
  if mem = NULL then
    return (0, pt, m)
  let m := m.copyPage mem pa
  let pte := pte &&& ~~~PTE_V
  let pt := pt.setPte (va / PGSIZE) pte
  let (r, pt, m) ← mappages pageAlloc pt va PGSIZE mem
    ((pteFlags pte ||| PTE_W) &&& ~~~PTE_F) m
  if r ≠ 0 then do
    let m ← kfree L mem m
    return (0, pt.setPte (va / PGSIZE) (pt.pte (va / PGSIZE) ||| PTE_V), m)
  let m ← kfree L (pgrounddown pa) m
  return (mem, pt, m)

def cowalloc (L : Layout) (pageAlloc : PageAlloc) (pt : PageTable) (va : ℕ) (m : KMem) :
    Kres (ℕ × PageTable × KMem) := do
  if va % PGSIZE ≠ 0 then
    return (0, pt, m)
  let pa ← walkaddr pt va
  if pa = 0 then
    return (0, pt, m)
  match ← walk pt va with
  | none => throw .nullLoad
  | some pte =>
    if krefcnt pa m = 1 then
      return (pa, pt.setPte (va / PGSIZE) ((pte ||| PTE_W) &&& ~~~PTE_F), m)
    else cowcopy L pageAlloc pt va pte m

end LearnOS
