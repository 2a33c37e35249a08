import LearnOS.Vm.Fork
import LearnOS.Lib.Transition
import Mathlib.Data.Finset.Prod
import Mathlib.Data.Fintype.Basic

/-!
# Reference counts of user pages

The system of all processes, stepping by `fork`, page faults, shrinking `sbrk`,
`exit` and `wait`. The reference count of a mapped page is compared with the
number of leaf entries that map it.

## Main results

`refcounts_exact_iff`: the counts stay exact in a run precisely when no `fork` of
the run copies a page. `uvmcopy` gives the child a page of its own and yet
counts a second reference to the parent's page.
-/

namespace LearnOS

open Ownership Transition Function Kres

inductive VmOp where
  | fork (p : Fin NPROC)
  | fault (p : Fin NPROC) (va : ℕ)
  | shrink (p : Fin NPROC) (n : ℤ)
  | exit (p : Fin NPROC)
  | wait (p : Fin NPROC)

/-- The process may be on a processor. -/
def Running (s : VmState) (p : Fin NPROC) : Prop :=
  (s.proc p).state = .RUNNABLE ∨ (s.proc p).state = .RUNNING

instance (s : VmState) (p : Fin NPROC) : Decidable (Running s p) :=
  inferInstanceAs (Decidable (_ ∨ _))

/-- One system call or page fault of a running process. -/
inductive VmStep (L : Layout) : VmState → VmOp → VmState → Prop
  | fork {s s' : VmState} {p : Fin NPROC} {r : Option (Fin NPROC)} (hrun : Running s p)
      (hcall : fork L (kalloc L) p s = .ok (r, s')) : VmStep L s (.fork p) s'
  | fault {s s' : VmState} {p : Fin NPROC} {va : ℕ} (hrun : Running s p)
      (hcall : usertrapFault L (kalloc L) p va s = .ok s') : VmStep L s (.fault p va) s'
  | shrink {s s' : VmState} {p : Fin NPROC} {n r : ℤ} (hrun : Running s p) (hn : n ≤ 0)
      (hcall : sysSbrk L p n s = .ok (r, s')) : VmStep L s (.shrink p n) s'
  | exit {s s' : VmState} {p : Fin NPROC} (hrun : Running s p)
      (hcall : exit p s = .ok s') : VmStep L s (.exit p) s'
  | wait {s s' : VmState} {p : Fin NPROC} {r : Option (Fin NPROC)} (hrun : Running s p)
      (hcall : wait L p s = .ok (r, s')) : VmStep L s (.wait p) s'

/-! ## Counting leaf entries -/

/-- Page `v` of process `i` lies below its size and is mapped to `pa`. -/
def leafAt (s : VmState) (i : Fin NPROC) (v pa : ℕ) : Bool :=
  match (s.proc i).pagetable with
  | none => false
  | some pt =>
    decide (v * PGSIZE < (s.proc i).sz) && (pt.entry v).getLsbD 0 && pte2pa (pt.entry v) == pa

/-- The number of leaf entries below the size of a process that map `pa`. -/
def leafCount (s : VmState) (pa : ℕ) : ℕ :=
  ((Finset.univ ×ˢ Finset.range (MAXVA / PGSIZE)).filter fun x => leafAt s x.1 x.2 pa).card

/-- Every mapped page has as many references as leaf entries, and is not free. -/
structure CountsExact (L : Layout) (s : VmState) : Prop where
  cnt : ∀ i v pa, leafAt s i v pa → (s.mem.cnt (pa / PGSIZE)).toInt = leafCount s pa
  not_free : ∀ i v pa, leafAt s i v pa → ¬ PageFree L s.mem.buddy pa

/-- A page that has lost all its mappings is back on a free list. -/
def Returned (L : Layout) (s t : VmState) : Prop :=
  ∀ i v pa, leafAt s i v pa → (∀ j w, ¬ leafAt t j w pa) → PageFree L t.mem.buddy pa

/-- `fork` has no page to copy, or no slot for a child. -/
def CopiesNothing (s : VmState) (p : Fin NPROC) : Prop :=
  (∀ q, (s.proc q).state ≠ .UNUSED) ∨ ∀ v pa, ¬ leafAt s p v pa

/-- The condition on one step. -/
def NoCopy (s : VmState) : VmOp → Prop
  | .fork p => CopiesNothing s p
  | _ => True

variable {L : Layout} {s s' : VmState} {live : List (ℕ × ℕ)} {p : Fin NPROC} {own : Slot → Option ℕ}
  {i : Fin NPROC} {r : Option (Fin NPROC)} {pt pt' : PageTable} {live' : List (ℕ × ℕ)} {m m' : KMem}
  {v pa : ℕ}
  {sz va : ℕ}

/-- The invariant of the system: every page has one owner and one reference,
and user memory stays below the trapframe. -/
structure VmInv (L : Layout) (s : VmState) : Prop where
  tracked : ∃ live, Tracked L s.mem live s.own
  single : Single s.mem s.own
  sz_le : ∀ i, (s.proc i).sz ≤ TRAPFRAME

theorem leafAt_iff :
    leafAt s i v pa = true ↔ ∃ pt, (s.proc i).pagetable = some pt ∧
      v * PGSIZE < (s.proc i).sz ∧ (pt.entry v).getLsbD 0 = true ∧ pte2pa (pt.entry v) = pa := by
  unfold leafAt
  cases hpt : (s.proc i).pagetable with
  | none => simp
  | some pt => simp [and_assoc]

/-- A leaf below the size is a user page. -/
theorem own_of_leafAt (hsz : ∀ i, (s.proc i).sz ≤ TRAPFRAME) (h : leafAt s i v pa = true) :
    s.own (.user i v) = some pa := by
  obtain ⟨pt, hpt, hbelow, hv, rfl⟩ := leafAt_iff.mp h
  rw [VmState.own_eq_withTable hpt]
  simp only [withTable, if_true]
  exact user_of_valid (page_lt_of_below (hsz i) hbelow) hv

/-- Ownership is exclusive, so a page has exactly one leaf entry. -/
theorem leafCount_eq_one (ht : Tracked L s.mem live s.own) (hsz : ∀ i, (s.proc i).sz ≤ TRAPFRAME)
    (h : leafAt s i v pa = true) : leafCount s pa = 1 := by
  unfold leafCount
  rw [Finset.card_eq_one]
  refine ⟨(i, v), ?_⟩
  ext ⟨j, w⟩
  simp only [Finset.mem_filter, Finset.mem_product, Finset.mem_univ, Finset.mem_range, true_and,
    Finset.mem_singleton]
  constructor
  · rintro ⟨-, hw⟩
    have hslot := ht.exclusive _ _ pa (own_of_leafAt hsz hw) (own_of_leafAt hsz h)
    simpa using hslot
  · intro heq
    obtain ⟨rfl, rfl⟩ := Prod.mk.inj heq
    refine ⟨?_, h⟩
    obtain ⟨pt, -, hbelow, -⟩ := leafAt_iff.mp h
    have hmax : TRAPFRAME / PGSIZE ≤ MAXVA / PGSIZE := by decide
    exact lt_of_lt_of_le (page_lt_of_below (hsz j) hbelow) hmax

theorem VmInv.countsExact (h : VmInv L s) : CountsExact L s := by
  obtain ⟨live, ht⟩ := h.tracked
  constructor
  · intro i v pa hleaf
    rw [h.single _ _ (own_of_leafAt h.sz_le hleaf), leafCount_eq_one ht h.sz_le hleaf]
    rfl
  · intro i v pa hleaf
    exact ht.not_pageFree (own_of_leafAt h.sz_le hleaf)

/-! ## What each step does to the owners -/

theorem VmInv.of_acquires (h : VmInv L s) (ht : Tracked L s.mem live s.own)
    (hacq : Acquires L s.mem live s.own s'.mem live' s'.own)
    (hsz : ∀ i, (s'.proc i).sz ≤ TRAPFRAME) :
    VmInv L s' where
  tracked := ⟨live', hacq.tracked⟩
  single := hacq.single ht h.single
  sz_le := hsz

theorem VmInv.of_drops (h : VmInv L s) (hdrop : Drops L s.mem live s.own s'.mem live' s'.own)
    (hsz : ∀ i, (s'.proc i).sz ≤ TRAPFRAME) : VmInv L s' where
  tracked := ⟨live', hdrop.tracked⟩
  single := hdrop.single h.single
  sz_le := hsz

theorem own_exit (h : exit p s = .ok s') :
    s'.mem = s.mem ∧ s'.own = s.own ∧ ∀ i, (s'.proc i).sz = (s.proc i).sz := by
  unfold exit at h
  split at h
  · cases h
  · cases h
    have hfields : ∀ i, (reparent p s.initproc (s.proc i)).pagetable = (s.proc i).pagetable ∧
        (reparent p s.initproc (s.proc i)).trapframe = (s.proc i).trapframe ∧
        (reparent p s.initproc (s.proc i)).sz = (s.proc i).sz := by
      intro i
      unfold reparent
      split <;> exact ⟨rfl, rfl, rfl⟩
    refine ⟨rfl, funext fun k => ?_, fun i => ?_⟩
    · cases k with
      | hand => rfl
      | trapframe i =>
        simp only [VmState.own]
        split <;> simp only [(hfields i).2.1]
      | _ i =>
        simp only [VmState.own]
        split <;> simp only [(hfields i).1]
    · simp only
      split <;> exact (hfields i).2.2

theorem vmInv_exit (h : VmInv L s) (hcall : exit p s = .ok s') : VmInv L s' := by
  obtain ⟨hmem, hown, hsz⟩ := own_exit hcall
  refine ⟨?_, ?_, fun i => ?_⟩
  · rw [hmem, hown]
    exact h.tracked
  · rw [hmem, hown]
    exact h.single
  · rw [hsz]
    exact h.sz_le i

theorem own_setkilled (p : Fin NPROC) (s : VmState) : (setkilled p s).own = s.own := by
  funext k
  cases k with
  | hand => rfl
  | _ i =>
    by_cases hi : i = p
    · subst hi
      simp [VmState.own, setkilled, VmState.setProc]
    · simp [VmState.own, setkilled, VmState.setProc, hi]

theorem sz_setkilled (p i : Fin NPROC) (s : VmState) :
    ((setkilled p s).proc i).sz = (s.proc i).sz := by
  by_cases hi : i = p
  · subst hi
    simp [setkilled, VmState.setProc]
  · simp [setkilled, VmState.setProc, hi]

theorem vmInv_setkilled (h : VmInv L s) (p : Fin NPROC) : VmInv L (setkilled p s) := by
  refine ⟨?_, ?_, fun i => ?_⟩
  · rw [own_setkilled]
    exact h.tracked
  · rw [own_setkilled]
    exact h.single
  · rw [sz_setkilled]
    exact h.sz_le i

theorem withTable_hand {pt : PageTable} (r : Option ℕ) :
    update (withTable own i pt) .hand r =
      withTable (update own .hand r) i pt := by
  funext k
  cases k <;> simp [withTable]

/-- A lazy fault maps at most one fresh page. -/
theorem uvlazyalloc_spec {top : ℕ} {r : ℤ} (hhand : own .hand = none)
    (h : Tracked L m live (withTable own i pt))
    (hcall : uvlazyalloc L (kalloc L) pt va sz top m = .ok (r, pt', m')) :
    ∃ live', Acquires L m live (withTable own i pt) m' live' (withTable own i pt') := by
  simp only [uvlazyalloc, bind_eq_ok] at hcall
  obtain ⟨⟨mem, m₁⟩, halloc, hcall⟩ := hcall
  have hforget : ∀ k p, withTable own i pt k = some p →
      update (withTable own i pt) .hand (some mem) k = some p := by
    intro k p hk
    by_cases hh : k = .hand
    · subst hh
      simp [withTable, hhand] at hk
    · rw [update_of_ne hh, hk]
  have hleak : ∃ live', Acquires L m live (withTable own i pt) m₁ live' (withTable own i pt) :=
    ⟨_, (h.acquire halloc .hand).forget hforget⟩
  split at hcall
  · cases hcall
    exact hleak
  · split at hcall
    · cases hcall
      exact hleak
    · simp only [if_neg (kalloc_ne_null halloc), bind_eq_ok] at hcall
      obtain ⟨⟨r₁, pt₁, m₂⟩, hmap, hcall⟩ := hcall
      have hacq₁ := h.acquire_memset halloc .hand
      rw [withTable_hand] at hacq₁
      obtain ⟨rfl, -, live', hacq₂⟩ := mappages_user hacq₁.tracked hmap (by simp)
        ((((flagsOnly_twoPow (by decide)).or (flagsOnly_twoPow (by decide))).or
          (flagsOnly_twoPow (by decide))).or (flagsOnly_twoPow (by decide)))
      simp only [ne_eq, not_true_eq_false, if_false] at hcall
      cases hcall
      have hown : update (update own .hand (some mem)) .hand none = own := by
        rw [update_idem, ← hhand, update_eq_self]
      rw [hown] at hacq₂
      exact ⟨live', hacq₁.trans hacq₂⟩

/-- A copy-on-write fault on a page with one owner changes only permissions. -/
theorem cowalloc_single {page : ℕ} (hs : Single m (withTable own i pt))
    (hlt : va / PGSIZE < TRAPFRAME / PGSIZE)
    (hcall : cowalloc L (kalloc L) pt va m = .ok (page, pt', m')) :
    m' = m ∧ withTable own i pt' = withTable own i pt := by
  rcases cowalloc_cases hcall with ⟨-, rfl, rfl⟩ | ⟨-, hsome, hv, -, hbranch⟩
  · exact ⟨rfl, rfl⟩
  · have hown : withTable own i pt (.user i (va / PGSIZE)) =
        some (pte2pa (pt.entry (va / PGSIZE))) := by
      simp only [withTable, if_true, user_of_valid hlt hv]
    rcases hbranch with ⟨-, -, rfl, rfl⟩ | ⟨hshared, -⟩
    · exact ⟨rfl, withTable_uncow hsome⟩
    · exact absurd (hs _ _ hown) hshared

theorem sz_setTable (s : VmState) (p i : Fin NPROC) (pt : PageTable) (m : KMem) :
    ((s.setTable p pt m).proc i).sz = (s.proc i).sz := by
  by_cases hi : i = p
  · subst hi
    simp [VmState.setTable]
  · simp [VmState.setTable, hi]

theorem pgrounddown_div (va : ℕ) : pgrounddown va / PGSIZE = va / PGSIZE :=
  Nat.mul_div_cancel _ (by decide)

theorem vmInv_pageFault (h : VmInv L s) (hcall : pageFault L (kalloc L) p va s = .ok s') :
    VmInv L s' := by
  unfold pageFault at hcall
  cases hpt : (s.proc p).pagetable with
  | none =>
    simp only [hpt] at hcall
    cases hcall
  | some pt =>
    simp only [hpt, bind_eq_ok] at hcall
    obtain ⟨e, hwalk, hcall⟩ := hcall
    cases e with
    | none => cases hcall
    | some pte =>
      obtain ⟨live, ht⟩ := h.tracked
      have hs := h.single
      have htable := VmState.own_eq_withTable hpt
      simp only [Pte.has_V, Pte.has_F] at hcall
      split at hcall
      · simp only [bind_eq_ok] at hcall
        obtain ⟨⟨r, pt', m'⟩, hlazy, hcall⟩ := hcall
        rw [htable] at ht
        obtain ⟨live', hacq⟩ := uvlazyalloc_spec rfl ht hlazy
        have hinv : VmInv L (s.setTable p pt' m') := by
          have hacq' : Acquires L s.mem live s.own (s.setTable p pt' m').mem live'
              (s.setTable p pt' m').own := by
            rw [VmState.own_setTable]
            rw [← htable] at hacq
            exact hacq
          refine h.of_acquires (htable ▸ ht) hacq' fun i => ?_
          rw [sz_setTable]
          exact h.sz_le i
        cases hcall
        split
        · exact vmInv_setkilled hinv p
        · exact hinv
      · split at hcall
        · split at hcall
          · cases hcall
            exact vmInv_setkilled h p
          · next hbelow =>
              simp only [bind_eq_ok] at hcall
              obtain ⟨c, -, hcall⟩ := hcall
              split at hcall
              · cases hcall
                exact vmInv_setkilled h p
              · simp only [bind_eq_ok] at hcall
                obtain ⟨⟨page, pt', m'⟩, hcow, hcall⟩ := hcall
                have hlt : pgrounddown va / PGSIZE < TRAPFRAME / PGSIZE := by
                  rw [pgrounddown_div]
                  apply page_lt_of_below (h.sz_le p)
                  exact lt_of_le_of_lt (Nat.div_mul_le_self va PGSIZE) (Nat.not_le.mp hbelow)
                rw [htable] at hs
                obtain ⟨rfl, hown⟩ := cowalloc_single hs hlt hcow
                have hinv : VmInv L (s.setTable p pt' s.mem) := by
                  refine ⟨⟨live, ?_⟩, ?_, fun i => ?_⟩
                  · rw [VmState.own_setTable, hown, ← htable]
                    exact ht
                  · rw [VmState.own_setTable, hown]
                    exact hs
                  · rw [sz_setTable]
                    exact h.sz_le i
                cases hcall
                split
                · exact vmInv_setkilled hinv p
                · exact hinv
        · cases hcall
          exact vmInv_setkilled h p

theorem pgroundup64_eq (h : sz ≤ TRAPFRAME) : pgroundup64 sz = pgroundup sz := by
  have htop : TRAPFRAME = 274877898752 := rfl
  rw [htop] at h
  rw [pgroundup64, Nat.mod_eq_of_lt]
  simp only [pgroundup, PGSIZE]
  omega

/-- The pages between the new and the old end are given up. -/
theorem uvmdealloc_drops {oldsz newsz r : ℕ} (h : Tracked L m live (withTable own i pt))
    (hsz : oldsz ≤ TRAPFRAME) (hcall : uvmdealloc L pt oldsz newsz m = .ok (r, pt', m')) :
    ∃ live', Drops L m live (withTable own i pt) m' live' (withTable own i pt') := by
  unfold uvmdealloc at hcall
  split at hcall
  · cases hcall
    exact ⟨live, Drops.refl h⟩
  rename_i hlt
  split at hcall
  · simp only [bind_eq_ok] at hcall
    obtain ⟨⟨pt₁, m₁⟩, hunmap, hcall⟩ := hcall
    cases hcall
    refine h.frees (uvmunmap_frees own i (fun v _ hhi _ => ?_) hunmap)
    have hnew : newsz ≤ TRAPFRAME := (Nat.le_of_lt (Nat.not_le.mp hlt)).trans hsz
    rw [pgroundup64_eq hsz, pgroundup64_eq hnew] at hhi
    have hbelow : v < pgroundup oldsz / PGSIZE := by
      simp only [pgroundup, PGSIZE] at hhi hlt ⊢
      omega
    have hlow := page_lt_of_below hsz (below_iff.mp hbelow)
    exact ⟨not_reserved_of_lt hlow, hlow.trans_le (by decide)⟩
  · cases hcall
    exact ⟨live, Drops.refl h⟩

/-- What a call of `sbrk` does: it moves the end up, or it frees pages and leaves
the end where it is. -/
theorem sysSbrk_ok {n r : ℤ} (hcall : sysSbrk L p n s = .ok (r, s')) :
    (0 < n ∧ s' = s.setProc p { s.proc p with sz := ((s.proc p).sz + n.toNat) % 2 ^ 64 }) ∨
      (n ≤ 0 ∧ (s' = s ∨ ∃ pt pt' m' r', (s.proc p).pagetable = some pt ∧
        uvmdealloc L pt (s.proc p).sz (addInt (s.proc p).sz n) s.mem = .ok (r', pt', m') ∧
        s' = s.setTable p pt' m')) := by
  simp only [sysSbrk] at hcall
  split at hcall
  · rename_i hn
    cases hcall
    exact Or.inl ⟨hn, rfl⟩
  rename_i hn
  refine Or.inr ⟨not_lt.mp hn, ?_⟩
  split at hcall
  · cases hpt : (s.proc p).pagetable with
    | none =>
      simp only [hpt] at hcall
      cases hcall
    | some pt =>
      simp only [hpt, bind_eq_ok] at hcall
      obtain ⟨⟨sz', pt', m'⟩, hdealloc, hcall⟩ := hcall
      cases hcall
      exact Or.inr ⟨pt, pt', m', sz', rfl, hdealloc, rfl⟩
  · cases hcall
    exact Or.inl rfl

/-- A shrinking `sbrk` frees the pages above the new end. -/
theorem vmInv_shrink {n r : ℤ} (h : VmInv L s) (hn : n ≤ 0)
    (hcall : sysSbrk L p n s = .ok (r, s')) :
    VmInv L s' := by
  obtain ⟨hpos, -⟩ | ⟨-, rfl | ⟨pt, pt', m', r', hpt, hdealloc, rfl⟩⟩ := sysSbrk_ok hcall
  · omega
  · exact h
  · obtain ⟨live, ht⟩ := h.tracked
    rw [VmState.own_eq_withTable hpt] at ht
    obtain ⟨live', hdrop⟩ := uvmdealloc_drops ht (h.sz_le p) hdealloc
    rw [← VmState.own_eq_withTable hpt, ← VmState.own_setTable s p pt' m'] at hdrop
    refine h.of_drops hdrop fun i => ?_
    rw [sz_setTable]
    exact h.sz_le i

theorem vmInv_wait (h : VmInv L s) (hcall : wait L p s = .ok (r, s')) :
    VmInv L s' ∧ Returned L s s' := by
  unfold wait at hcall
  split at hcall
  · cases hcall
    exact ⟨h, fun i v pa hleaf hnone => absurd hleaf (hnone i v)⟩
  · next pp hfind =>
      simp only [bind_eq_ok] at hcall
      obtain ⟨s₁, hfree, hcall⟩ := hcall
      cases hcall
      obtain ⟨live, ht⟩ := h.tracked
      obtain ⟨hproc, -, live', hdrop⟩ := freeproc_spec ht hfree
      constructor
      · refine h.of_drops hdrop fun i => ?_
        by_cases hi : i = pp
        · rw [hproc, hi, update_self]
          exact Nat.zero_le _
        · rw [hproc, update_of_ne hi]
          exact h.sz_le i
      · intro i v pa hleaf hnone
        have hown := own_of_leafAt h.sz_le hleaf
        have hgone : s'.own (.user i v) = none := by
          by_cases hi : i = pp
          · simp [VmState.own, hproc, hi, Proc.reset]
          · refine absurd ?_ (hnone i v)
            simpa only [leafAt, hproc, update_of_ne hi] using hleaf
        exact ht.heap.pageFree_of_released hdrop.tracked.heap hdrop.subset
          (ht.held _ _ hown) (hdrop.gone _ _ hown hgone (h.single _ _ hown))

theorem Forked.sz_le {p np : Fin NPROC} {old old' new' : PageTable}
    (hf : Forked s s' live p np old old' new') (hsz : ∀ i, (s.proc i).sz ≤ TRAPFRAME)
    (i : Fin NPROC) : (s'.proc i).sz ≤ TRAPFRAME := by
  by_cases hi : i = np
  · obtain ⟨trapframe, hchild⟩ := hf.child
    rw [hi, hchild]
    exact hsz p
  · by_cases hip : i = p
    · rw [hip, hf.parent]
      exact hsz p
    · rw [hf.other i hip hi]
      exact hsz i

theorem Running.ne_unused (h : Running s p) : (s.proc p).state ≠ .UNUSED := by
  rcases h with h | h <;> simp [h]

/-- `fork` only returns for a process with a page table. -/
theorem exists_pagetable_of_fork (hrun : Running s p)
    (hcall : fork L (kalloc L) p s = .ok (r, s')) :
    (r = none ∧ s' = s ∧ ∀ q, (s.proc q).state ≠ .UNUSED) ∨
      ∃ old, (s.proc p).pagetable = some old := by
  rcases fork_ok hcall with hfull | ⟨np, s₁, trapframe, old, new, old', new', -, hdone⟩
  · exact Or.inl hfull
  · exact Or.inr ⟨old, hdone.before (hdone.ne hrun.ne_unused)⟩

/-- A fork that copies nothing keeps the invariant. -/
theorem vmInv_fork (h : VmInv L s) (hrun : Running s p)
    (hcall : fork L (kalloc L) p s = .ok (r, s')) (hok : CopiesNothing s p) : VmInv L s' := by
  obtain ⟨live, ht⟩ := h.tracked
  rcases exists_pagetable_of_fork hrun hcall with ⟨-, rfl, -⟩ | ⟨old, hpt⟩
  · exact h
  · rcases fork_spec ht hrun.ne_unused hpt (h.sz_le p) hcall with ⟨-, rfl, -⟩ |
      ⟨np, old', new', live', -, hf, -, hempty⟩
    · exact h
    · have hnone : ∀ v pa, ¬ leafAt s p v pa = true :=
        hok.resolve_left fun hfull => hfull np hf.unused
      obtain ⟨live₁, hacq⟩ := hempty (Set.eq_empty_of_forall_notMem fun w hw =>
        hnone w _ (leafAt_iff.mpr ⟨old, hpt, hw.1, hw.2, rfl⟩))
      exact h.of_acquires ht hacq (hf.sz_le h.sz_le)

/-- A fork that copies a page leaves it with two references and one mapping. -/
theorem fork_breaks_count (h : VmInv L s) (hrun : Running s p)
    (hcall : fork L (kalloc L) p s = .ok (r, s')) (hcopy : ¬ CopiesNothing s p) :
    ¬ CountsExact L s' := by
  obtain ⟨live, ht⟩ := h.tracked
  simp only [CopiesNothing, not_or, not_forall, not_not] at hcopy
  obtain ⟨⟨q, hq⟩, v, pa, hleaf⟩ := hcopy
  obtain ⟨old, hpt, hbelow, hv, rfl⟩ := leafAt_iff.mp hleaf
  rcases fork_spec ht hrun.ne_unused hpt (h.sz_le p) hcall with ⟨-, -, hfull⟩ |
    ⟨np, old', new', live', -, hf, hgain, -⟩
  · exact absurd hq (hfull q)
  · intro hexact
    have ht' := hgain.tracked
    have hleaf' : leafAt s' p v (pte2pa (old.entry v)) = true := by
      refine leafAt_iff.mpr ⟨old', by rw [hf.parent], ?_, ?_, (hf.old_entry v).2⟩
      · rw [hf.parent]
        exact hbelow
      · rw [(hf.old_entry v).1.valid, hv]
    have hcnt : s'.mem.cnt (pte2pa (old.entry v) / PGSIZE) = 2 := by
      rw [hf.cnt_in v ⟨hbelow, hv⟩, h.single _ _ (own_of_leafAt h.sz_le hleaf)]
      rfl
    have hcount := hexact.cnt p v _ hleaf'
    rw [leafCount_eq_one ht' (hf.sz_le h.sz_le) hleaf', hcnt] at hcount
    exact absurd hcount (by decide)

theorem vmInv_fault (h : VmInv L s) (hcall : usertrapFault L (kalloc L) p va s = .ok s') :
    VmInv L s' := by
  simp only [usertrapFault, bind_eq_ok] at hcall
  obtain ⟨s₁, hfault, hcall⟩ := hcall
  have hinv := vmInv_pageFault h hfault
  split at hcall
  · exact vmInv_exit hinv hcall
  · cases hcall
    exact hinv

/-- Every step but a copying `fork` keeps the invariant. -/
theorem vmInv_step {op : VmOp} (h : VmInv L s) (hok : NoCopy s op) (hstep : VmStep L s op s') :
    VmInv L s' := by
  cases hstep with
  | fork hrun hcall => exact vmInv_fork h hrun hcall hok
  | fault hrun hcall => exact vmInv_fault h hcall
  | shrink hrun hn hcall => exact vmInv_shrink h hn hcall
  | exit hrun hcall => exact vmInv_exit h hcall
  | wait hrun hcall => exact (vmInv_wait h hcall).1

/-- When a process is reaped, the pages that lose their last mapping are free. -/
def ReapReturns (L : Layout) (s : VmState) (op : VmOp) (t : VmState) : Prop :=
  ∀ p, op = .wait p → Returned L s t

theorem reapReturns_step {op : VmOp} (h : VmInv L s) (hstep : VmStep L s op s') :
    ReapReturns L s op s' := by
  rintro p rfl
  cases hstep with
  | wait hrun hcall => exact (vmInv_wait h hcall).2

/-- Reference counts are exact in every state of a run precisely when no `fork`
of the run copies a page; and in such a run every reaped page is free again. -/
theorem refcounts_exact_iff {run : List (VmOp × VmState)} (h : VmInv L s)
    (hrun : IsRun (VmStep L) s run) :
    ((∀ t ∈ visited s run, CountsExact L t) ↔ Along NoCopy s run) ∧
      (Along NoCopy s run → IsRun (ReapReturns L) s run) := by
  constructor
  · refine IsRun.visited_iff_along NoCopy (VmInv L) (CountsExact L) ?_ ?_ h h.countsExact hrun
    · intro s op t hinv _ hok hstep
      have hinv' := vmInv_step hinv hok hstep
      exact ⟨hinv', hinv'.countsExact⟩
    · intro s op t hinv _ hno hstep
      cases hstep with
      | fork hrun hcall => exact fork_breaks_count hinv hrun hcall hno
      | _ => exact absurd trivial hno
  · exact IsRun.imp NoCopy (VmInv L) (fun s op t hinv hok hstep => vmInv_step hinv hok hstep)
      (fun s op t hinv _ hstep => reapReturns_step hinv hstep) h hrun

/-! ## The first process -/

theorem vmInv_boot {b : Buddy} (h : HeapInv L ⟨b, []⟩) : VmInv L (bootState b) := by
  have hnone : ∀ k, (bootState b).own k = none := by
    intro k
    cases k <;> rfl
  refine ⟨⟨[], h, fun k p hk => ?_, fun k k' p hk => ?_⟩, fun k p hk => ?_, fun i => ?_⟩
  · simp [hnone k] at hk
  · simp [hnone k] at hk
  · simp [hnone k] at hk
  · exact Nat.zero_le _

theorem uvmfirst_spec {src : List (BitVec 8)} (hhand : own .hand = none)
    (h : Tracked L m live (withTable own i pt))
    (hcall : uvmfirst (kalloc L) pt src m = .ok (pt', m')) :
    ∃ live', Acquires L m live (withTable own i pt) m' live' (withTable own i pt') := by
  obtain ⟨mem, m₁, r, m₂, halloc, rfl, hmap⟩ := uvmfirst_ok hcall
  obtain ⟨hnew, -⟩ := h.of_kalloc halloc .hand
  have hacq₁ := h.acquire_memset halloc .hand
  rw [withTable_hand] at hacq₁
  obtain ⟨-, -, live', hacq₂⟩ := mappages_user hacq₁.tracked hmap (by simp)
    ((((flagsOnly_twoPow (by decide)).or (flagsOnly_twoPow (by decide))).or
      (flagsOnly_twoPow (by decide))).or (flagsOnly_twoPow (by decide)))
  have hown : update (update own .hand (some mem)) .hand none = own := by
    rw [update_idem, ← hhand, update_eq_self]
  rw [hown] at hacq₂
  exact ⟨live', (hacq₁.trans hacq₂).write (hacq₂.grows.subset List.mem_cons_self) hnew _⟩

theorem vmInv_userinit (h : VmInv L s) (hcall : userinit L (kalloc L) s = .ok s') : VmInv L s' := by
  obtain ⟨live, ht⟩ := h.tracked
  simp only [userinit, bind_eq_ok] at hcall
  obtain ⟨⟨r, s₁⟩, halloc, hcall⟩ := hcall
  rcases allocproc_spec ht halloc with ⟨rfl, -⟩ |
    ⟨np, pt, trapframe, rfl, -, hproc, -, -, live₁, hacq₁⟩
  · cases hcall
  · have hpt : (s₁.proc np).pagetable = some pt := by rw [hproc, update_self]
    simp only [hpt, bind_eq_ok] at hcall
    obtain ⟨⟨pt', m'⟩, hfirst, hcall⟩ := hcall
    have htable := VmState.own_eq_withTable hpt
    have ht₁ := hacq₁.tracked
    rw [htable] at ht₁
    obtain ⟨live₂, hacq₂⟩ := uvmfirst_spec rfl ht₁ hfirst
    rw [← htable] at hacq₂
    cases hcall
    have hown : ({ s₁.setTable np pt' m' with initproc := np }.setProc np
        { ({ s₁.setTable np pt' m' with initproc := np } : VmState).proc np with
          sz := PGSIZE, state := .RUNNABLE }).own = withTable s₁.own np pt' := by
      rw [← VmState.own_setTable s₁ np pt' m']
      funext k
      cases k with
      | hand => rfl
      | _ i =>
        by_cases hi : i = np
        · subst hi
          simp [VmState.own, VmState.setProc]
        · simp [VmState.own, VmState.setProc, hi]
    have hacq := hacq₁.trans hacq₂
    rw [← hown] at hacq
    refine h.of_acquires ht hacq fun i => ?_
    by_cases hi : i = np
    · subst hi
      simp only [VmState.setProc, update_self]
      decide
    · simp only [VmState.setProc, VmState.setTable, update_of_ne hi, hproc]
      exact h.sz_le i

/-- The system when the first process is about to run. -/
def firstUser (L : Layout) : Kres VmState := do
  let b ← buddyInit L ⟨⟨fun _ => 0, fun _ => 0⟩, fun _ => 0⟩
  userinit L (kalloc L) (bootState b)

theorem vmInv_firstUser (h : firstUser L = .ok s) : VmInv L s := by
  simp only [firstUser, bind_eq_ok] at h
  obtain ⟨b, hb, hinit⟩ := h
  obtain ⟨b', hb', hheap⟩ := heapInv_init L ⟨⟨fun _ => 0, fun _ => 0⟩, fun _ => 0⟩
  rw [hb] at hb'
  cases hb'
  exact vmInv_userinit (vmInv_boot hheap) hinit

/-- The first fork of the system: the page of `initcode` has one mapping and two
references. -/
theorem first_fork_miscounts :
    ∃ s t, firstUser smallLayout = .ok s ∧ VmStep smallLayout s (.fork 0) t ∧
      ¬ CountsExact smallLayout t := by
  have hrun : (firstUser smallLayout).Yields fun s => Running s 0 ∧ (s.proc 1).state = .UNUSED ∧
      (∃ q ∈ List.range 32, leafAt s 0 0 (smallLayout.pa q) = true) ∧
      (fork smallLayout (kalloc smallLayout) 0 s).Yields fun _ => True := by
    decide +kernel
  obtain ⟨s, hs, hrun, hunused, ⟨q, -, hleaf⟩, ⟨r, t⟩, ht, -⟩ := hrun
  refine ⟨s, t, hs, .fork hrun ht, fork_breaks_count (vmInv_firstUser hs) hrun ht ?_⟩
  rintro (hfull | hnone)
  · exact hfull 1 hunused
  · exact hnone 0 _ hleaf

/-- A lazy fault of the first process leaves the counts exact. -/
theorem lazy_fault_counts :
    ∃ s t, firstUser smallLayout = .ok s ∧ VmStep smallLayout s (.fault 0 PGSIZE) t ∧
      CountsExact smallLayout t := by
  have hrun : (firstUser smallLayout).Yields fun s => Running s 0 ∧
      (usertrapFault smallLayout (kalloc smallLayout) 0 PGSIZE s).Yields fun _ => True := by
    decide +kernel
  obtain ⟨s, hs, hrun, t, ht, -⟩ := hrun
  have hstep : VmStep smallLayout s (.fault 0 PGSIZE) t := .fault hrun ht
  have hrun : IsRun (VmStep smallLayout) s [(.fault 0 PGSIZE, t)] := ⟨hstep, trivial⟩
  refine ⟨s, t, hs, hstep, ?_⟩
  exact (refcounts_exact_iff (vmInv_firstUser hs) hrun).1.mpr ⟨trivial, trivial⟩ t
    (by simp [visited])

end LearnOS
