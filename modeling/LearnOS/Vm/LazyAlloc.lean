import LearnOS.Vm.Access
import LearnOS.Mem.FreePages

/-!
# Lazy allocation of a page

`uvlazyalloc` takes a page before it looks at the address, keeps it when the address
is refused, and takes the page at the end of the heap for one of its own.
-/

namespace LearnOS

open BuddySystem Kres

variable {L : Layout} {pt pt' : PageTable} {m m' : KMem} {live : List (ℕ × ℕ)} {va v : ℕ}
  {sz top mem : ℕ} {m₁ : KMem}

/-- A call that returns maps pages inside the heap only, leaves everything as it was
unless it returns success, and returns success only when the page is mapped. -/
def LazyClean (L : Layout) (pt : PageTable) (va sz top : ℕ) (m : KMem) : Prop :=
  ∃ r pt' m', uvlazyalloc L (kalloc L) pt va sz top m = .ok (r, pt', m') ∧
    (∀ v, (pt'.entry v).getLsbD 0 = true → (pt.entry v).getLsbD 0 = false →
      top ≤ v * PGSIZE ∧ v * PGSIZE < sz) ∧
    (r < 0 → pt' = pt ∧ m'.buddy = m.buddy ∧ m'.cnt = m.cnt) ∧
    (0 ≤ r → (pt'.entry (va / PGSIZE)).getLsbD 0 = true)

/-- The page-table pages that are missing above a page. -/
def PageTable.missing (pt : PageTable) (v : ℕ) : ℕ :=
  if (pt.mid (px2 v)).isSome then if (pt.low (px1 v)).isSome then 0 else 1 else 2

/-- The page lies in the heap and is not mapped, and there are free pages for it and
for the missing page-table pages. -/
structure LazyFits (L : Layout) (live : List (ℕ × ℕ)) (pt : PageTable) (va sz top : ℕ) :
    Prop where
  low : top ≤ pgrounddown va
  high : pgrounddown va < sz
  below : va < MAXVA
  unmapped : (pt.entry (va / PGSIZE)).getLsbD 0 = false
  room : held live + 1 + pt.missing (va / PGSIZE) ≤ L.pnumMax

/-! ## Creating the levels -/

theorem kalloc_or_error (h : HeapInv L ⟨m.buddy, live⟩) :
    (held live < L.pnumMax ∧ ∃ p m', kalloc L m = .ok (p, m') ∧
      HeapInv L ⟨m'.buddy, (p, 0) :: live⟩) ∨
      held live = L.pnumMax ∧ ∃ e, kalloc L m = .error e := by
  have hiff := (kalloc_returns_iff h).trans (hasPage_iff_held h)
  cases hcall : kalloc L m with
  | ok r =>
    obtain ⟨p, m'⟩ := r
    exact Or.inl ⟨hiff.mp ⟨_, hcall⟩, p, m', rfl, h.kalloc hcall⟩
  | error e =>
    refine Or.inr ⟨le_antisymm h.held_le (not_lt.mp fun hlt => ?_), e, rfl⟩
    obtain ⟨r, hr⟩ := hiff.mpr hlt
    rw [hcall] at hr
    cases hr

/-- The level-0 page of an address, after the first round of `walk`. -/
theorem walkMid_room (h : HeapInv L ⟨m.buddy, live⟩) (pt : PageTable) (v : ℕ) :
    (∃ pt' m' live', walkMid (kalloc L) pt v m = .ok (true, pt', m') ∧
      HeapInv L ⟨m'.buddy, live'⟩ ∧
      held live' + (if (pt'.low (px1 v)).isSome then 0 else 1) = held live + pt.missing v) ∨
    L.pnumMax < held live + pt.missing v ∧ ∃ e, walkMid (kalloc L) pt v m = .error e := by
  simp only [walkMid]
  cases hmid : pt.mid (px2 v) with
  | some page =>
    refine Or.inl ⟨pt, m, live, rfl, h, ?_⟩
    simp [PageTable.missing, hmid]
  | none =>
    have hmissing : pt.missing v = 2 := by simp [PageTable.missing, hmid]
    rcases kalloc_or_error h with ⟨-, p, m', hcall, h'⟩ | ⟨hfull, e, hcall⟩
    · refine Or.inl ⟨pt.addMid (px2 v) p, m'.memset p 0, (p, 0) :: live, ?_, h', ?_⟩
      · simp [hcall, kalloc_ne_null hcall]
      · have hlow : (pt.addMid (px2 v) p).low (px1 v) = none := by
          have hdiv : px1 v / 2 ^ 9 = px2 v := Nat.div_div_eq_div_mul v _ _
          simp only [PageTable.addMid, hdiv, if_true]
        rw [hlow, hmissing, held_cons_page]
        simp
    · refine Or.inr ⟨by omega, e, ?_⟩
      simp [hcall]

theorem walkLow_room (h : HeapInv L ⟨m.buddy, live⟩) (pt : PageTable) (v : ℕ) :
    (held live + (if (pt.low (px1 v)).isSome then 0 else 1) ≤ L.pnumMax ∧
      ∃ pt' m', walkLow (kalloc L) pt v m = .ok (true, pt', m')) ∨
    L.pnumMax < held live + (if (pt.low (px1 v)).isSome then 0 else 1) ∧
      ∃ e, walkLow (kalloc L) pt v m = .error e := by
  simp only [walkLow]
  cases hlow : pt.low (px1 v) with
  | some page => exact Or.inl ⟨by simpa using h.held_le, pt, m, rfl⟩
  | none =>
    rcases kalloc_or_error h with ⟨hlt, p, m', hcall, -⟩ | ⟨hfull, e, hcall⟩
    · refine Or.inl ⟨hlt, pt.addLow (px1 v) p, m'.memset p 0, ?_⟩
      simp [hcall, kalloc_ne_null hcall]
    · refine Or.inr ⟨by simp [hfull], e, ?_⟩
      simp [hcall]

/-- `mappages` of one page returns exactly if the page may be mapped and there are
pages for the missing levels. -/
theorem mappages_returns_iff (h : HeapInv L ⟨m.buddy, live⟩) (hmod : va % PGSIZE = 0) (pa : ℕ)
    (perm : Pte) :
    (∃ r, mappages (kalloc L) pt va PGSIZE pa perm m = .ok r) ↔
      va < MAXVA ∧ (pt.entry (va / PGSIZE)).getLsbD 0 = false ∧
        held live + pt.missing (va / PGSIZE) ≤ L.pnumMax := by
  have hsize : PGSIZE % PGSIZE = 0 := rfl
  have hpages : PGSIZE / PGSIZE = 1 := rfl
  have hpos : ¬ PGSIZE = 0 := by decide
  have hwalk : (∃ r, mappages (kalloc L) pt va PGSIZE pa perm m = .ok r) ↔
      (∃ r, walkAlloc (kalloc L) pt va m = .ok r) ∧
        (pt.entry (va / PGSIZE)).getLsbD 0 = false := by
    simp only [mappages, hmod, hsize, hpages, hpos, ne_eq, not_true_eq_false, if_false, mapLoop]
    constructor
    · rintro ⟨r, hr⟩
      simp only [bind_eq_ok] at hr
      obtain ⟨⟨pte, pt₁, m₁⟩, hcall, hr⟩ := hr
      obtain ⟨-, rfl, -, -⟩ := walkAlloc_entry hcall
      refine ⟨⟨_, hcall⟩, ?_⟩
      simp only [Pte.has_V] at hr
      split at hr
      · cases hr
      · next hvalid => exact Bool.eq_false_iff.mpr hvalid
    · rintro ⟨⟨⟨pte, pt₁, m₁⟩, hcall⟩, hfree⟩
      obtain ⟨-, rfl, -, -⟩ := walkAlloc_entry hcall
      refine ⟨(0, pt₁.setPte (va / PGSIZE) (pa2pte pa ||| perm ||| PTE_V), m₁), ?_⟩
      simp only [hcall, ok_bind, Pte.has_V, hfree, Bool.false_eq_true, if_false]
  rw [hwalk]
  have hroom : va < MAXVA → ((∃ r, walkAlloc (kalloc L) pt va m = .ok r) ↔
      held live + pt.missing (va / PGSIZE) ≤ L.pnumMax) := by
    intro hva
    simp only [walkAlloc, if_neg (Nat.not_le.mpr hva)]
    rcases walkMid_room h pt (va / PGSIZE) with
      ⟨pt₁, m₁, live₁, hmid, h₁, heq⟩ | ⟨hfull, e, hmid⟩
    · rw [← heq]
      rcases walkLow_room h₁ pt₁ (va / PGSIZE) with ⟨hle, pt₂, m₂, hlow⟩ | ⟨hfull, e, hlow⟩
      · exact iff_of_true ⟨_, by simp [hmid, hlow]; rfl⟩ hle
      · exact iff_of_false (by simp [hmid, hlow]) (Nat.not_le.mpr hfull)
    · exact iff_of_false (by simp [hmid]) (Nat.not_le.mpr hfull)
  constructor
  · rintro ⟨⟨r, hr⟩, hfree⟩
    obtain ⟨hva, -⟩ := walkAlloc_entry (r := r.1) hr
    exact ⟨hva, hfree, (hroom hva).mp ⟨r, hr⟩⟩
  · rintro ⟨hva, hfree, hle⟩
    exact ⟨(hroom hva).mpr hle, hfree⟩

/-! ## The call -/

theorem pgrounddown_lt_maxva : pgrounddown va < MAXVA ↔ va < MAXVA := by
  have hmax : MAXVA = 67108864 * PGSIZE := rfl
  rw [hmax]
  simp only [pgrounddown, PGSIZE]
  omega

/-- An address out of range costs the page that was taken for it. -/
theorem uvlazyalloc_refused (hcall : kalloc L m = .ok (mem, m₁))
    (hout : ¬ (top ≤ pgrounddown va ∧ pgrounddown va ≤ sz)) :
    uvlazyalloc L (kalloc L) pt va sz top m = .ok (-1, pt, m₁) := by
  simp only [uvlazyalloc, hcall, ok_bind]
  by_cases hhigh : pgrounddown va > sz
  · rw [if_pos hhigh]
    rfl
  · rw [if_neg hhigh, if_pos (by omega)]
    rfl

/-- A page in the range of the call is mapped, or the call does not return. -/
theorem uvlazyalloc_eq_ok {r : ℤ}
    (hcall : kalloc L m = .ok (mem, m₁))
    (hrange : top ≤ pgrounddown va ∧ pgrounddown va ≤ sz) :
    uvlazyalloc L (kalloc L) pt va sz top m = .ok (r, pt', m') ↔
      r = 1 ∧ mappages (kalloc L) pt (pgrounddown va) PGSIZE mem
        (PTE_R ||| PTE_U ||| PTE_W ||| PTE_X) (m₁.memset mem 0) = .ok (0, pt', m') := by
  simp only [uvlazyalloc, hcall, ok_bind, if_neg (Nat.not_lt.mpr hrange.2),
    if_neg (Nat.not_lt.mpr hrange.1), if_neg (kalloc_ne_null hcall), bind_eq_ok]
  constructor
  · rintro ⟨⟨r₁, pt₁, m₂⟩, hmapped, hlazy⟩
    obtain ⟨rfl, -⟩ := mappages_mapped hmapped
    obtain ⟨rfl, rfl, rfl⟩ : 1 = r ∧ pt₁ = pt' ∧ m₂ = m' := by simpa using hlazy
    exact ⟨rfl, hmapped⟩
  · rintro ⟨rfl, hmapped⟩
    exact ⟨_, hmapped, by simp⟩

/-- The word of a page that was allocated on a fault. -/
def lazyPte (mem : ℕ) : Pte := pa2pte mem ||| (PTE_R ||| PTE_U ||| PTE_W ||| PTE_X) ||| PTE_V

theorem pte2pa_lazyPte {mem : ℕ} (hmem : ¬ badPage L mem) : pte2pa (lazyPte mem) = mem := by
  have hflag : ∀ k < 10, FlagsOnly (BitVec.twoPow 64 k) := fun k hk => flagsOnly_twoPow hk
  rw [lazyPte, BitVec.or_assoc]
  exact pte2pa_page hmem (((((hflag 1 (by decide)).or (hflag 4 (by decide))).or
    (hflag 2 (by decide))).or (hflag 3 (by decide))).or (hflag 0 (by decide)))

/-- With the levels in place the call takes one page. -/
theorem uvlazyalloc_existing (hcall : kalloc L m = .ok (mem, m₁))
    (hrange : top ≤ pgrounddown va ∧ pgrounddown va ≤ sz) (hmax : va < MAXVA)
    (hlevels : (pt.pte? (va / PGSIZE)).isSome)
    (hv : (pt.entry (va / PGSIZE)).getLsbD 0 = false) :
    uvlazyalloc L (kalloc L) pt va sz top m =
      .ok (1, pt.setPte (va / PGSIZE) (lazyPte mem), m₁.memset mem 0) := by
  have hmod : pgrounddown va % PGSIZE = 0 := Nat.mul_mod_left _ _
  have hdown : pgrounddown va / PGSIZE = va / PGSIZE := pgrounddown_div va
  have hmap := mappages_existing (kalloc L) hmod (pgrounddown_lt_maxva.mpr hmax)
    (by rwa [hdown]) (by rwa [hdown]) mem (PTE_R ||| PTE_U ||| PTE_W ||| PTE_X) (m₁.memset mem 0)
  rw [hdown] at hmap
  exact (uvlazyalloc_eq_ok hcall hrange).mpr ⟨rfl, hmap⟩

/-- A lazy allocation is clean exactly for an unmapped page of the heap while there
are enough pages. -/
theorem uvlazyalloc_clean_iff (h : HeapInv L ⟨m.buddy, live⟩) (pt : PageTable) (va sz top : ℕ) :
    LazyClean L pt va sz top m ↔ LazyFits L live pt va sz top := by
  have hmod : pgrounddown va % PGSIZE = 0 := Nat.mul_mod_left _ _
  rcases kalloc_or_error h with ⟨-, mem, m₁, hcall, h₁⟩ | ⟨hfull, e, hcall⟩
  swap
  · refine iff_of_false ?_ fun hfits => ?_
    · rintro ⟨r, pt', m', hlazy, -⟩
      simp [uvlazyalloc, hcall] at hlazy
    · have hroom := hfits.room
      omega
  -- a refused page stays in use
  have hleak : ¬ m₁.buddy = m.buddy := by
    intro heq
    rw [heq] at h₁
    have hheld := h.held_eq h₁
    rw [held_cons_page] at hheld
    omega
  have hmap : (∃ r, mappages (kalloc L) pt (pgrounddown va) PGSIZE mem
      (PTE_R ||| PTE_U ||| PTE_W ||| PTE_X) (m₁.memset mem 0) = .ok r) ↔ _ :=
    mappages_returns_iff (m := m₁.memset mem 0) h₁ hmod mem _
  rw [pgrounddown_div, held_cons_page, pgrounddown_lt_maxva] at hmap
  by_cases hrange : top ≤ pgrounddown va ∧ pgrounddown va ≤ sz
  swap
  · refine iff_of_false ?_ fun hfits => hrange ⟨hfits.low, hfits.high.le⟩
    rintro ⟨r, pt', m', hlazy, -, hback, -⟩
    rw [uvlazyalloc_refused hcall hrange] at hlazy
    cases hlazy
    exact hleak (hback (by decide)).2.1
  have hpage : va / PGSIZE * PGSIZE = pgrounddown va := rfl
  constructor
  · rintro ⟨r, pt', m', hlazy, hnew, -, -⟩
    obtain ⟨-, hmapped⟩ := (uvlazyalloc_eq_ok hcall hrange).mp hlazy
    obtain ⟨-, hpages⟩ := mappages_mapped hmapped
    obtain ⟨hbelow, hfree, hroom⟩ := hmap.mp ⟨_, hmapped⟩
    refine ⟨hrange.1, ?_, hbelow, hfree, by omega⟩
    have hentry := hpages.new 0 (by decide)
    rw [Nat.add_zero, pgrounddown_div] at hentry
    rw [← hpage]
    refine (hnew (va / PGSIZE) ?_ hfree).2
    rw [hentry]
    simp [mappedPte, PTE_V]
  · intro hfits
    obtain ⟨⟨r₁, pt₁, m₂⟩, hmapped⟩ := hmap.mpr ⟨hfits.below, hfits.unmapped, hfits.room⟩
    obtain ⟨rfl, hpages⟩ := mappages_mapped hmapped
    rw [pgrounddown_div, show PGSIZE / PGSIZE = 1 from rfl] at hpages
    refine ⟨1, pt₁, m₂, ?_, fun w hw hold => ?_, fun hr => absurd hr (by decide), fun _ => ?_⟩
    · exact (uvlazyalloc_eq_ok hcall hrange).mpr ⟨rfl, hmapped⟩
    · have hwv : w = va / PGSIZE := by
        by_contra hne
        rw [hpages.old w (by omega), hold] at hw
        cases hw
      rw [hwv, hpage]
      exact ⟨hfits.low, hfits.high⟩
    · have hentry := hpages.new 0 (by decide)
      rw [Nat.add_zero] at hentry
      rw [hentry]
      simp [mappedPte, PTE_V]

/-- The first process touches a page that `sbrk` has promised it. -/
theorem uvlazyalloc_clean_promised :
    ∃ s t pt, firstUser smallLayout = .ok s ∧ sysSbrk smallLayout 0 100 s = .ok (PGSIZE, t) ∧
      (t.proc 0).pagetable = some pt ∧
      LazyClean smallLayout pt (PGSIZE + 50) (t.proc 0).sz (t.proc 0).ustackTop t.mem := by
  have hrun : (firstUser smallLayout).Yields fun s =>
      (sysSbrk smallLayout 0 100 s).Yields fun x => x.1 = PGSIZE ∧
        HasPage smallLayout x.2.mem.buddy ∧ ∃ pt, (x.2.proc 0).pagetable = some pt ∧
          (x.2.proc 0).ustackTop ≤ pgrounddown (PGSIZE + 50) ∧
          pgrounddown (PGSIZE + 50) < (x.2.proc 0).sz ∧
          (pt.entry 1).getLsbD 0 = false ∧ pt.missing 1 = 0 := by
    decide +kernel
  obtain ⟨s, hs, ⟨r, t⟩, ht, rfl, hpage, pt, hpt, htop, hsz, hunmapped, hlevels⟩ := hrun
  obtain ⟨live, htracked⟩ := (vmInv_firstUser hs).tracked
  have hmem : t.mem = s.mem := by
    rcases sysSbrk_ok ht with ⟨-, rfl⟩ | ⟨hneg, -⟩
    · rfl
    · omega
  have hheap : HeapInv smallLayout ⟨t.mem.buddy, live⟩ := hmem ▸ htracked.heap
  have hpage := (hasPage_iff_held hheap).mp hpage
  refine ⟨s, t, pt, hs, ht, hpt, (uvlazyalloc_clean_iff hheap pt _ _ _).mpr ?_⟩
  have hroom : held live + 1 + pt.missing 1 ≤ smallLayout.pnumMax := by omega
  exact ⟨htop, hsz, by decide, hunmapped, hroom⟩

/-- At the size of the first process a page is mapped, though none is left below it;
above the size a page is lost with the error. -/
theorem lazy_page_at_size :
    ∃ s pt pt' m₁ m₂, firstUser smallLayout = .ok s ∧ (s.proc 0).pagetable = some pt ∧
      uvlazyalloc smallLayout (kalloc smallLayout) pt (s.proc 0).sz (s.proc 0).sz
        (s.proc 0).ustackTop s.mem = .ok (1, pt', m₁) ∧
      (pt.entry ((s.proc 0).sz / PGSIZE)).getLsbD 0 = false ∧
      (pt'.entry ((s.proc 0).sz / PGSIZE)).getLsbD 0 = true ∧
      uvlazyalloc smallLayout (kalloc smallLayout) pt ((s.proc 0).sz + PGSIZE) (s.proc 0).sz
        (s.proc 0).ustackTop s.mem = .ok (-1, pt, m₂) ∧
      m₂.buddy ≠ s.mem.buddy := by
  have hrun : (firstUser smallLayout).Yields fun s => ∃ pt, (s.proc 0).pagetable = some pt ∧
      (pt.entry ((s.proc 0).sz / PGSIZE)).getLsbD 0 = false ∧
      ((uvlazyalloc smallLayout (kalloc smallLayout) pt (s.proc 0).sz (s.proc 0).sz
        (s.proc 0).ustackTop s.mem).Yields fun x =>
          x.1 = 1 ∧ (x.2.1.entry ((s.proc 0).sz / PGSIZE)).getLsbD 0 = true) ∧
      (kalloc smallLayout s.mem).Yields fun x =>
        buddyGetfirst smallLayout 0 x.2.buddy ≠ buddyGetfirst smallLayout 0 s.mem.buddy := by
    decide +kernel
  obtain ⟨s, hs, pt, hpt, hunmapped, ⟨⟨r, pt', m₁⟩, hlazy, rfl, hmapped⟩, ⟨mem, m₂⟩, halloc,
    hfirst⟩ := hrun
  have habove : (s.proc 0).sz < pgrounddown ((s.proc 0).sz + PGSIZE) := by
    simp only [pgrounddown, PGSIZE]
    omega
  refine ⟨s, pt, pt', m₁, m₂, hs, hpt, hlazy, hunmapped, hmapped,
    uvlazyalloc_refused halloc fun hrange => absurd hrange.2 (Nat.not_le.mpr habove),
    fun heq => hfirst (by rw [heq])⟩

end LearnOS
