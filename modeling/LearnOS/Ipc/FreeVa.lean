import LearnOS.Ipc.Tables
import Mathlib

/-!
# The addresses that `uallocva` hands out

An entry of the free list names the highest page of a run of free pages, and
`uallocva` returns that page. `shmat` maps upwards from it. The two conventions
agree for a single page only, and `uallocva_disjoint_iff` says that the ranges
stay apart and inside the window if and only if every request is for one page
and the requests do not exceed the window.
-/

namespace LearnOS.Ipc

open LearnOS Transition Kres

variable {L : Layout} {k k' : Kernel} {addr i n : ℕ}

/-- The pages between `HEAPTOP` and `TRAPFRAME`. -/
def windowPages : ℕ := (SHMTOP - HEAPTOP) / PGSIZE + 1

/-- The bytes of `n` pages from `va` upwards, as `shmat` maps them. -/
def pageRange (va n : ℕ) : Set ℕ := Set.Ico va (va + n * PGSIZE)

/-- Calls of `uallocva` for the sizes of a list, after the ranges `taken`. A size
that no entry can serve would be answered by the null pointer. -/
def HandsOutDisjoint (L : Layout) : List ℕ → List (ℕ × ℕ) → List FreeVa → Kernel → Prop
  | [], _, _, _ => True
  | n :: ns, taken, free, k =>
    match uallocva L n free k with
    | .error _ => False
    | .ok (va, free, k) =>
      if va = NULL then HandsOutDisjoint L ns taken free k
      else HEAPTOP ≤ va ∧ va + n * PGSIZE ≤ TRAPFRAME ∧
        (∀ r ∈ taken, Disjoint (pageRange va n) (pageRange r.1 r.2)) ∧
        HandsOutDisjoint L ns ((va, n) :: taken) free k

/-! ## The list after single pages -/

/-- The address of page `i` of the window, from the top. -/
def windowPage (i : ℕ) : ℕ := SHMTOP - i * PGSIZE

/-- The list when `i` pages are gone from its only entry. -/
def windowRest (addr i : ℕ) : List FreeVa :=
  if i < windowPages then [⟨addr, windowPage i, windowPages - i⟩] else []

/-- The allocator holds the block of the entry. -/
def HoldsEntry (L : Layout) (addr : ℕ) (k : Kernel) : Prop :=
  ∃ held live pool, KmInv L ⟨k.heap, held⟩ live pool ∧ (addr, 24) ∈ held

theorem windowPages_eq : windowPages = 262142 := rfl

theorem windowPage_eq (hi : i < windowPages) : windowPage i + i * PGSIZE + 3 * PGSIZE = MAXVA := by
  rw [windowPages_eq] at hi
  simp only [windowPage, SHMTOP, TRAPFRAME, TRAMPOLINE, MAXVA, PGSIZE]
  omega

theorem le_windowPage (hi : i < windowPages) : HEAPTOP ≤ windowPage i := by
  have heq := windowPage_eq hi
  have hheap : HEAPTOP = 273804165120 := rfl
  have hmax : MAXVA = 274877906944 := rfl
  rw [windowPages_eq] at hi
  rw [hmax, PGSIZE] at heq
  omega

theorem windowPage_top (hi : i < windowPages) : windowPage i + 1 * PGSIZE ≤ TRAPFRAME := by
  have heq := windowPage_eq hi
  simp only [TRAPFRAME, TRAMPOLINE, MAXVA, PGSIZE] at heq ⊢
  omega

theorem windowPage_ne_null (hi : i < windowPages) : windowPage i ≠ NULL := by
  have heq := windowPage_eq hi
  rw [windowPages_eq] at hi
  simp only [MAXVA, PGSIZE] at heq
  simp only [NULL]
  omega

theorem initFreeva_rest {p : Fin NPROC} (hheap : ∃ held live pool, KmInv L ⟨k.heap, held⟩ live pool)
    (hinit : initFreeva L p k = .ok k') :
    ∃ addr, k'.freeva p = windowRest addr 0 ∧ HoldsEntry L addr k' := by
  simp only [initFreeva, bind_eq_ok, pure_eq_ok] at hinit
  obtain ⟨⟨addr, k₁⟩, hk₁, rfl⟩ := hinit
  obtain ⟨s, hs, rfl, hnull⟩ := Kernel.kmallocNode_ok hk₁
  obtain ⟨held, live, pool, hinv⟩ := hheap
  obtain ⟨live', pool', hinv'⟩ := kmInv_kmalloc hinv hs
  rw [if_neg hnull] at hinv'
  refine ⟨addr, ?_, (addr, 24) :: held, live', pool', hinv', List.mem_cons_self⟩
  simp [windowRest, windowPage, windowPages]

/-- The entry serves every size up to its own. -/
theorem uallocva_fits (hheld : HoldsEntry L addr k) (hn : 0 < n) (hle : i + n ≤ windowPages) :
    ∃ k', uallocva L n (windowRest addr i) k = .ok (windowPage i, windowRest addr (i + n), k') ∧
      (i + n < windowPages → k' = k) := by
  have hlt : i < windowPages := by omega
  have hfit : ¬ windowPages - i < n := by omega
  by_cases heq : i + n = windowPages
  · obtain ⟨held, live, pool, hinv, hmem⟩ := hheld
    obtain ⟨s, live', pool', hs, -⟩ := kmInv_kmfree hinv hmem (Or.inl (by decide) : MatchedSize 24)
    have hfree : k.kmfree L addr 24 = .ok (k.setHeap s) := by
      simp only [Kernel.kmfree, hs, ok_bind, pure_eq]
    have hexact : windowPages - i = n := by omega
    refine ⟨k.setHeap s, ?_, fun h => absurd heq h.ne⟩
    simp only [uallocva, windowRest, if_pos hlt, hexact, lt_irrefl, if_false, if_true, hfree,
      ok_bind, pure_eq, heq]
  · have hrest : i + n < windowPages := by omega
    have hne : windowPages - i ≠ n := by omega
    have hpage : (windowPage i + 2 ^ 64 - n * PGSIZE) % 2 ^ 64 = windowPage (i + n) := by
      have h₁ := windowPage_eq hlt
      have h₂ := windowPage_eq hrest
      rw [windowPages_eq] at hrest
      simp only [PGSIZE, MAXVA] at h₁ h₂ ⊢
      omega
    refine ⟨k, ?_, fun _ => rfl⟩
    simp only [uallocva, windowRest, if_pos hlt, if_pos hrest, if_neg hfit, if_neg hne, hpage,
      pure_eq, Nat.sub_sub]

/-- A larger size runs off the end of the list. -/
theorem uallocva_short (hlt : windowPages < i + n) :
    uallocva L n (windowRest addr i) k = .error .nullLoad := by
  by_cases hi : i < windowPages
  · have hshort : windowPages - i < n := by omega
    simp only [uallocva, windowRest, if_pos hi, if_pos hshort, error_bind]
  · simp only [uallocva, windowRest, if_neg hi]

/-! ## Requests of any size -/

theorem disjoint_of_above {va n va' n' : ℕ} (h : va + n * PGSIZE ≤ va') :
    Disjoint (pageRange va n) (pageRange va' n') := by
  rw [pageRange, pageRange, Set.Ico_disjoint_Ico]
  exact (min_le_left _ _).trans (h.trans (le_max_right _ _))

/-- Two pages from page `i + 1` reach the page that was handed out before. -/
theorem not_disjoint_previous (hi : i + 1 < windowPages) (hn : 1 < n) :
    ¬ Disjoint (pageRange (windowPage (i + 1)) n) (pageRange (windowPage i) 1) := by
  have h₁ := windowPage_eq hi
  have h₂ := windowPage_eq (Nat.lt_of_succ_lt hi)
  have hbyte : windowPage i ∈ pageRange (windowPage (i + 1)) n := by
    simp only [pageRange, Set.mem_Ico, PGSIZE] at *
    omega
  intro hdisj
  refine Set.disjoint_left.mp hdisj hbyte ?_
  simp [pageRange, PGSIZE]

/-- A state after single pages: what was handed out lies above the next page, and
the page just above it was handed out last. -/
structure AfterSingles (L : Layout) (addr i : ℕ) (taken : List (ℕ × ℕ)) (k : Kernel) : Prop where
  entry : i < windowPages → HoldsEntry L addr k
  within : i ≤ windowPages
  above : ∀ r ∈ taken, i < windowPages → windowPage i + PGSIZE ≤ r.1
  last : ∀ j, i = j + 1 → (windowPage j, 1) ∈ taken

theorem AfterSingles.next {taken : List (ℕ × ℕ)} (h : AfterSingles L addr i taken k)
    (hi : i < windowPages) (hk : i + 1 < windowPages → k' = k) :
    AfterSingles L addr (i + 1) ((windowPage i, 1) :: taken) k' where
  entry hlt := by
    rw [hk hlt]
    exact h.entry hi
  within := hi
  above r hr hlt := by
    have h₁ := windowPage_eq hi
    have h₂ := windowPage_eq hlt
    have hstep : windowPage (i + 1) + PGSIZE = windowPage i := by
      simp only [PGSIZE] at h₁ h₂ ⊢
      omega
    rw [hstep]
    rcases List.mem_cons.mp hr with rfl | hr
    · exact le_rfl
    · exact (Nat.le_add_right _ _).trans (h.above r hr hi)
  last j hj := by
    obtain rfl : i = j := by omega
    exact List.mem_cons_self

theorem AfterSingles.handsOut_iff {taken : List (ℕ × ℕ)} {ns : List ℕ}
    (h : AfterSingles L addr i taken k) (hns : ∀ n ∈ ns, 1 ≤ n) :
    HandsOutDisjoint L ns taken (windowRest addr i) k ↔
      (∀ n ∈ ns, n = 1) ∧ i + ns.length ≤ windowPages := by
  induction ns generalizing i taken k with
  | nil => simpa [HandsOutDisjoint] using h.within
  | cons n ns ih =>
    have hn : 0 < n := hns n List.mem_cons_self
    have hns' : ∀ m ∈ ns, 1 ≤ m := fun m hm => hns m (List.mem_cons_of_mem n hm)
    by_cases hfit : i + n ≤ windowPages
    · have hi : i < windowPages := by omega
      have hpage := windowPage_eq hi
      obtain ⟨k', hcall, hk⟩ := uallocva_fits (h.entry hi) hn hfit
      simp only [HandsOutDisjoint, hcall, if_neg (windowPage_ne_null hi)]
      by_cases hone : n = 1
      · subst hone
        have hdisj : ∀ r ∈ taken, Disjoint (pageRange (windowPage i) 1) (pageRange r.1 r.2) := by
          intro r hr
          apply disjoint_of_above
          rw [one_mul]
          exact h.above r hr hi
        have hrest := ih (h.next hi hk) hns'
        constructor
        · rintro ⟨-, -, -, hout⟩
          obtain ⟨hones, hlen⟩ := hrest.mp hout
          refine ⟨by simpa using hones, ?_⟩
          rw [List.length_cons]
          omega
        · rintro ⟨hones, hlen⟩
          rw [List.length_cons] at hlen
          refine ⟨le_windowPage hi, windowPage_top hi, hdisj, hrest.mpr ⟨?_, by omega⟩⟩
          exact fun m hm => hones m (List.mem_cons_of_mem 1 hm)
      · refine iff_of_false ?_ fun hones => hone (hones.1 n List.mem_cons_self)
        rintro ⟨-, htop, hdisj, -⟩
        cases i with
        | zero =>
          simp only [TRAPFRAME, TRAMPOLINE, PGSIZE] at htop hpage
          omega
        | succ j =>
          have hlarge : 1 < n := by omega
          exact not_disjoint_previous hi hlarge (hdisj _ (h.last j rfl))
    · have hshort : windowPages < i + n := by omega
      simp only [HandsOutDisjoint, uallocva_short hshort, false_iff, not_and]
      intro hones hlen
      have hone := hones n List.mem_cons_self
      rw [List.length_cons] at hlen
      omega

/-- From a new list, the ranges for a sequence of requests are apart and in the
window, and the list is not read past its end, exactly when all requests are for
one page and the window has enough of them. -/
theorem uallocva_disjoint_iff {p : Fin NPROC} {ns : List ℕ}
    (hheap : ∃ held live pool, KmInv L ⟨k.heap, held⟩ live pool)
    (hinit : initFreeva L p k = .ok k') (hns : ∀ n ∈ ns, 1 ≤ n) :
    HandsOutDisjoint L ns [] (k'.freeva p) k' ↔ (∀ n ∈ ns, n = 1) ∧ ns.length ≤ windowPages := by
  obtain ⟨addr, hfree, hentry⟩ := initFreeva_rest hheap hinit
  have hstart : AfterSingles L addr 0 [] k' :=
    ⟨fun _ => hentry, Nat.zero_le _, by simp, fun j hj => by omega⟩
  rw [hfree, hstart.handsOut_iff hns, zero_add]

/-! ## A new list -/

theorem initFreeva_run : ∃ k k', (∃ held live pool, KmInv smallLayout ⟨k.heap, held⟩ live pool) ∧
    initFreeva smallLayout 0 k = .ok k' := by
  have hrun : (slabBoot smallLayout).Yields fun s =>
      (initFreeva smallLayout 0 (.start ⟨s.mem, fun _ => .unused, 0⟩ s.word s.cache)).Yields
        fun _ => True := by
    decide +kernel
  obtain ⟨s, hs, k', hk', -⟩ := hrun
  obtain ⟨s₀, hheap, hinit⟩ := slabBoot_init hs
  obtain ⟨live, pool, hinv⟩ := kmInv_init hheap hinit
  refine ⟨_, k', ?_, hk'⟩
  exact ⟨[], live, pool, hinv⟩

/-- A request for two pages is answered with the page below `TRAPFRAME`, so the
second page is the one at `TRAPFRAME`. -/
theorem two_pages_reach_trapframe :
    ∃ k k' free k'', initFreeva smallLayout 0 k = .ok k' ∧
      uallocva smallLayout 2 (k'.freeva 0) k' = .ok (SHMTOP, free, k'') ∧
      TRAPFRAME ∈ pageRange SHMTOP 2 ∧ ¬ HandsOutDisjoint smallLayout [2] [] (k'.freeva 0) k' := by
  obtain ⟨k, k', hheap, hinit⟩ := initFreeva_run
  obtain ⟨addr, hfree, hentry⟩ := initFreeva_rest hheap hinit
  obtain ⟨k'', hcall, -⟩ := uallocva_fits (i := 0) (n := 2) hentry (by decide) (by decide)
  have hstart : AfterSingles smallLayout addr 0 [] k' :=
    ⟨fun _ => hentry, Nat.zero_le _, by simp, fun j hj => by omega⟩
  refine ⟨k, k', _, k'', hinit, by rw [hfree]; exact hcall, by simp [pageRange, SHMTOP,
    TRAPFRAME, TRAMPOLINE, MAXVA, PGSIZE], ?_⟩
  rw [hfree, hstart.handsOut_iff (by simp)]
  rintro ⟨hones, -⟩
  exact absurd (hones 2 (by simp)) (by decide)

/-- Two requests for one page each. -/
theorem single_pages_disjoint :
    ∃ k k', initFreeva smallLayout 0 k = .ok k' ∧
      HandsOutDisjoint smallLayout [1, 1] [] (k'.freeva 0) k' := by
  obtain ⟨k, k', hheap, hinit⟩ := initFreeva_run
  have hns : ∀ n ∈ [1, 1], 1 ≤ n := by simp
  exact ⟨k, k', hinit, (uallocva_disjoint_iff hheap hinit hns).mpr ⟨by simp, by decide⟩⟩

end LearnOS.Ipc
