import LearnOS.Slab.Holders

/-!
# Freed objects are reused

`kmem_cache_free` puts an object at the front of the list from which
`kmem_cache_alloc` takes, so the object is handed out next, and a cache asks
for a page only when all its slots are in use. `g_slab_16` is the exception:
`free_small_object_pool` looks for the list head at `sizeof(struct snode)` and
`alloc_small_object_pool` at `unitsz`, so what comes back is lost.
-/

namespace LearnOS

open LinkedList Slots BuddySystem Ownership Transition Function

variable {L : Layout} {s s' : KHeap} {live live' : List (ℕ × ℕ)}
  {pool pool' : CacheId → Option Pool} {c : CacheId} {P P' : Pool} {k k' : Holders}

/-- The allocation right after a release to the cache returns the same object. -/
def ReusesFreed (L : Layout) (c : CacheId) : Holders → HolderOp → Holders → Prop
  | _, .free (.slab c') x, k' => c' = c → ∃ s', kmemCacheAlloc L c k'.heap = .ok (x, s')
  | _, _, _ => True

/-- A step gives the cache a page only if every slot of its pages but the head of
the free list is live. -/
def GrowsWhenFull (c : CacheId) (k : Holders) (_ : HolderOp) (k' : Holders) : Prop :=
  ∀ pages pages', PageList k.heap c pages → PageList k'.heap c pages' → pages' ≠ pages →
    ∀ x ∈ pages.flatMap (pageSlots c), x ≠ listHead k.heap c → k.Live c x

/-- Nothing is given back to the cache if it is `g_slab_16`. -/
def FreesReusable (c : CacheId) : Holders → HolderOp → Prop
  | _, .free (.slab c') _ => c' = c → c ≠ .gSlab16
  | _, _ => True

/-! ## The next object -/

theorem kmemCacheAlloc_cons (h : SlabInv L s live pool) (hP : pool c = some P) {x : ℕ} {f : List ℕ}
    (hfree : P.free = x :: f) :
    kmemCacheAlloc L c s = .ok (x, popFree c (headSlot c P.pages) x s) := by
  by_cases hc : c.Small
  · rw [kmemCacheAlloc, if_neg (mt (h.size_gt_iff hP).mp (not_not.mpr hc)), allocTries,
      allocSmall_cons hc h hP hfree]
  · rw [kmemCacheAlloc, if_pos ((h.size_gt_iff hP).mpr hc), allocTries,
      allocLarge_cons hc h hP hfree]

theorem Served.self {x : ℕ} (h : Served c x pool pool') (hP : pool c = some P) :
    ∃ P', pool' c = some P' ∧ P.Serves c [x] P' := by
  cases h with
  | direct hR hone hnodes =>
    cases hP.symm.trans hR
    exact ⟨_, update_self _ _ _, hone⟩
  | node hc hR hQ hnil hone hnodes hfree =>
    cases hP.symm.trans hR
    exact ⟨_, update_self _ _ _, .grow hnil hfree (.done _)⟩

/-- A slot of the pages that is neither free nor the head of the list is not
handed out. -/
theorem served_ne (hslab : SlabInv L s live pool) (hP : pool c = some P) {x y : ℕ}
    (hx : x ∈ P.pages.flatMap (pageSlots c)) (hfree : x ∉ P.free)
    (hhead : x ≠ headSlot c P.pages) (hslab' : SlabInv L s' live' pool')
    (hserved : Served c y pool pool') : y ≠ x := by
  have hpos := c.unit_pos
  have hok := hslab.ok c P hP
  have hpage := page_of_object hok.aligned hx le_rfl (by omega)
  obtain ⟨P', hP', hserves⟩ := hserved.self hP
  rintro rfl
  rcases hserves.one with ⟨f, hf, -⟩ | ⟨-, p, nodes, f, hgrown, rfl⟩
  · exact hfree (hf ▸ List.mem_cons_self)
  · have hok' := hslab'.ok c _ hP'
    have hnew : p ∉ P.pages := (List.nodup_cons.mp hok'.pages_nodup).1
    have hmem : y ∈ (pageSlots c p).tail ++ [headSlot c P.pages] := by
      rw [show (pageSlots c p).tail ++ [headSlot c P.pages] = y :: f from hgrown]
      exact List.mem_cons_self
    rcases List.mem_append.mp hmem with hslot | hlast
    · obtain ⟨j, -, hj, rfl⟩ := mem_pageSlots.mp (List.mem_of_mem_tail hslot)
      rw [paToPage_slot (hok'.aligned p List.mem_cons_self) hj] at hpage
      exact hnew hpage
    · exact hhead (List.mem_singleton.mp hlast)

theorem reusesFreed_iff (h : HolderInv L k live pool) {op : HolderOp}
    (hstep : HolderStep L k op k') : ReusesFreed L c k op k' ↔ FreesReusable c k op := by
  cases hstep with
  | alloc hcall => exact Iff.rfl
  | store hheld hword => exact Iff.rfl
  | @free owner x s hheld hcall =>
    cases owner with
    | buddy order => exact Iff.rfl
    | slab c' =>
      refine imp_congr_right fun hc => ?_
      subst hc
      obtain ⟨P, hP⟩ := h.up c'
      have hlive := (h.mem_live hP).mpr (Or.inl hheld)
      obtain ⟨s', hs', hinv⟩ := holderInv_free_slab h hheld hP
      simp only [Owner.free] at hcall
      rw [hs', Except.ok.injEq] at hcall
      subst hcall
      have hself := update_self (f := pool) c'
        (some { P with free := freeAfter c' P x, live := P.live.erase x })
      constructor
      · rintro ⟨s'', hnext⟩ h16
        obtain ⟨live', pool', -, hinv', hserved, -⟩ := holderInv_alloc_slab hinv hnext
        have hok := h.slab.ok c' P hP
        refine served_ne (x := x) hinv.slab hself (hok.live_slot hlive) ?_ ?_ hinv'.slab
          hserved rfl
        · simp only [freeAfter, if_pos h16]
          exact hok.not_mem_free hlive
        · intro hx
          exact hok.head_not_mem (List.mem_append_right _ (hx ▸ hlive))
      · intro h16
        refine ⟨_, kmemCacheAlloc_cons (f := P.free) hinv.slab hself ?_⟩
        simp only [freeAfter, if_neg h16]

/-! ## When a cache grows -/

/-- A step leaves the pool of a cache alone, takes an object back or hands one
out. -/
theorem PoolStep.pool_cases {op : HolderOp} (h : PoolStep pool op pool') (hP : pool c = some P)
    (hP' : pool' c = some P') :
    P' = P ∨ (∃ x ∈ P.live, op = .free (.slab c) x ∧
      P' = { P with free := freeAfter c P x, live := P.live.erase x }) ∨
      ∃ y, P.Serves c [y] P' := by
  have hsame : pool c = some P' → P' = P := fun hold => Option.some.inj (hold.symm.trans hP)
  cases h with
  | same => exact Or.inl (hsame hP')
  | @free c' x R hR hx =>
    rcases eq_some_of_update hP' with ⟨rfl, rfl⟩ | ⟨-, hold⟩
    · cases hP.symm.trans hR
      exact Or.inr (Or.inl ⟨x, hx, rfl, rfl⟩)
    · exact Or.inl (hsame hold)
  | @alloc c' x pool' hserved =>
    by_cases hc : c = c'
    · subst hc
      obtain ⟨R, hR, hone⟩ := hserved.self hP
      cases hP'.symm.trans hR
      exact Or.inr (Or.inr ⟨x, hone⟩)
    · cases hserved with
      | direct hR hone hnodes =>
        rw [update_of_ne hc] at hP'
        exact Or.inl (hsame hP')
      | node h16 hR hQ hnil hone hnodes hfree =>
        rw [update_of_ne hc] at hP'
        rcases eq_some_of_update hP' with ⟨rfl, rfl⟩ | ⟨-, hold⟩
        · cases hP.symm.trans hQ
          exact Or.inr (Or.inr ⟨_, hone⟩)
        · exact Or.inl (hsame hold)

/-- A step leaves the pages of a cache alone or adds one to a pool without a free
slot, from which one object is taken. -/
theorem PoolStep.pages {op : HolderOp} (h : PoolStep pool op pool') (hP : pool c = some P)
    (hP' : pool' c = some P') :
    P'.pages = P.pages ∨ P.free = [] ∧ (∃ p, P'.pages = p :: P.pages) ∧
      P'.live.length = P.live.length + 1 := by
  rcases h.pool_cases hP hP' with rfl | ⟨x, -, -, rfl⟩ | ⟨y, hone⟩
  · exact Or.inl rfl
  · exact Or.inl rfl
  · rcases hone.one with ⟨f, -, rfl⟩ | ⟨hnil, p, nodes, f, -, rfl⟩
    · exact Or.inl rfl
    · exact Or.inr ⟨hnil, ⟨p, rfl⟩, rfl⟩

theorem PoolStep.covered {op : HolderOp} (h : PoolStep pool op pool') (hP : pool c = some P)
    (hP' : pool' c = some P') (hcov : P.Covered c) (hop : FreesReusable c k op) :
    P'.Covered c := by
  rcases h.pool_cases hP hP' with rfl | ⟨x, hx, rfl, rfl⟩ | ⟨y, hone⟩
  · exact hcov
  · intro y hy
    rcases hcov y hy with hhead | hmem
    · exact Or.inl hhead
    · right
      simp only [freeAfter, if_neg (hop rfl)]
      exact (((List.perm_cons_erase hx).append_left _).trans List.perm_middle).mem_iff.mp hmem
  · exact hone.covered hcov

theorem Pool.Covered.length_eq (h : P.Covered c) (hok : PoolOk c P) :
    P.pages.length * slotsPerPage c = P.free.length + P.live.length + 1 := by
  have hperm : (P.pages.flatMap (pageSlots c)).Perm
      (headSlot c P.pages :: (P.free ++ P.live)) := by
    refine (List.perm_ext_iff_of_nodup (nodup_slots hok.aligned hok.pages_nodup)
      hok.slots_nodup).mpr fun x => ⟨fun hx => ?_, fun hx => ?_⟩
    · exact List.mem_cons.mpr (h x hx)
    · rcases List.mem_cons.mp hx with rfl | hx
      · exact hok.head_mem
      · exact hok.slots x hx
  have hlen := hperm.length_eq
  rwa [length_slots, List.length_cons, List.length_append] at hlen

/-! ## Whole runs -/

/-- The slots of one cache are all accounted for. -/
def CoveredInv (L : Layout) (c : CacheId) (k : Holders) : Prop :=
  ∃ live pool, HolderInv L k live pool ∧ ∀ P, pool c = some P → P.Covered c

theorem coveredInv_step {op : HolderOp} (h : CoveredInv L c k) (hop : FreesReusable c k op)
    (hstep : HolderStep L k op k') : CoveredInv L c k' := by
  obtain ⟨live, pool, hinv, hcov⟩ := h
  obtain ⟨live', pool', hinv', hpools⟩ := holderInv_step hinv hstep
  obtain ⟨P, hP⟩ := hinv.up c
  exact ⟨live', pool', hinv', fun P' hP' => hpools.covered hP hP' (hcov P hP) hop⟩

theorem growsWhenFull_step {op : HolderOp} (h : CoveredInv L c k)
    (hstep : HolderStep L k op k') : GrowsWhenFull c k op k' := by
  obtain ⟨live, pool, hinv, hcov⟩ := h
  obtain ⟨live', pool', hinv', hpools⟩ := holderInv_step hinv hstep
  obtain ⟨P, hP⟩ := hinv.up c
  obtain ⟨P', hP'⟩ := hinv'.up c
  intro pages pages' hpages hpages' hne x hx hhead
  rw [hinv.slab.pageList_iff hP] at hpages
  rw [hinv'.slab.pageList_iff hP'] at hpages'
  subst hpages hpages'
  rcases hpools.pages hP hP' with hsame | ⟨hnil, -, -⟩
  · exact absurd hsame hne
  · rw [hinv.slab.listHead_eq hP] at hhead
    have hmem := (hcov P hP x hx).resolve_left hhead
    rw [hnil, List.nil_append] at hmem
    exact (hinv.live_iff hP).mp hmem

/-- The cache has at most that many pages. -/
def PagesBounded (c : CacheId) (bound : ℕ) (k : Holders) : Prop :=
  ∀ pages, PageList k.heap c pages → pages.length ≤ bound

theorem pagesBounded_step {op : HolderOp} {n₀ N : ℕ} (h : CoveredInv L c k)
    (hbound : PagesBounded c (max n₀ (N / slotsPerPage c + 1)) k)
    (hstep : HolderStep L k op k') (hpeak : (k'.heap.cache c).allocCount ≤ N) :
    PagesBounded c (max n₀ (N / slotsPerPage c + 1)) k' := by
  obtain ⟨live, pool, hinv, hcov⟩ := h
  obtain ⟨live', pool', hinv', hpools⟩ := holderInv_step hinv hstep
  obtain ⟨P, hP⟩ := hinv.up c
  obtain ⟨P', hP'⟩ := hinv'.up c
  intro pages hpages
  rw [hinv'.slab.pageList_iff hP'] at hpages
  subst hpages
  rcases hpools.pages hP hP' with hsame | ⟨hnil, ⟨p, hnew⟩, hlen⟩
  · rw [hsame]
    exact hbound P.pages ((hinv.slab.pageList_iff hP).mpr rfl)
  · have hslots := (hcov P hP).length_eq (hinv.slab.ok c P hP)
    rw [(hinv'.objectsSound hP').count] at hpeak
    rw [hnil, List.length_nil, Nat.zero_add, ← hlen] at hslots
    have hdiv : P.pages.length ≤ N / slotsPerPage c := by
      rw [Nat.le_div_iff_mul_le (show 0 < slotsPerPage c from Nat.succ_pos _)]
      omega
    rw [hnew, List.length_cons]
    exact (Nat.succ_le_succ hdiv).trans (le_max_right _ _)

/-- In a run from `slab_init` on, every allocation right after a release to a cache
returns the released object exactly if nothing is given back to the cache or it
is not `g_slab_16`. In such a run the cache grows only when all its slots are
live, so its pages are bounded by the peak of its live objects. -/
theorem freed_objects_reused (hheap : HeapInv L ⟨s.mem.buddy, live⟩)
    (hinit : slabInit L s = .ok s') {run : List (HolderOp × Holders)}
    (hrun : IsRun (HolderStep L) ⟨s', []⟩ run) (c : CacheId) :
    (IsRun (ReusesFreed L c) ⟨s', []⟩ run ↔ Along (FreesReusable c) ⟨s', []⟩ run) ∧
    (Along (FreesReusable c) ⟨s', []⟩ run →
      IsRun (GrowsWhenFull c) ⟨s', []⟩ run ∧
      ∀ N pages₀, PageList s' c pages₀ →
        (∀ k ∈ visited ⟨s', []⟩ run, (k.heap.cache c).allocCount ≤ N) →
        ∀ k ∈ visited ⟨s', []⟩ run,
          PagesBounded c (max pages₀.length (N / slotsPerPage c + 1)) k) := by
  obtain ⟨live', pool, hinv, hcov⟩ := holderInv_init hheap hinit
  have hstart : CoveredInv L c ⟨s', []⟩ := ⟨live', pool, hinv, fun P hP => hcov c P hP⟩
  refine ⟨?_, fun hok => ⟨?_, ?_⟩⟩
  · refine IsRun.iff_along (FreesReusable c) (fun k => ∃ live pool, HolderInv L k live pool) ?_ ?_
      ⟨live', pool, hinv⟩ hrun
    · rintro k op k' ⟨live, pool, hk⟩ hstep
      obtain ⟨live', pool', hk', -⟩ := holderInv_step hk hstep
      exact ⟨live', pool', hk'⟩
    · rintro k op k' ⟨live, pool, hk⟩ hstep
      exact reusesFreed_iff hk hstep
  · exact IsRun.imp (FreesReusable c) (CoveredInv L c)
      (fun _ _ _ hk hop hstep => coveredInv_step hk hop hstep)
      (fun _ _ _ hk _ hstep => growsWhenFull_step hk hstep) hstart hrun hok
  · intro N pages₀ hpages₀ hpeak k hk
    refine (IsRun.invariant (FreesReusable c)
      (fun k => CoveredInv L c k ∧ PagesBounded c (max pages₀.length (N / slotsPerPage c + 1)) k)
      ?_ ⟨hstart, ?_⟩ (hrun.and_visited (fun k => (k.heap.cache c).allocCount ≤ N) hpeak)
      hok k hk).2
    · rintro k op k' ⟨hcov, hbound⟩ hop ⟨hstep, hcount⟩
      exact ⟨coveredInv_step hcov hop hstep, pagesBounded_step hcov hbound hstep hcount⟩
    · intro pages hpages
      obtain ⟨P, hP⟩ := hinv.up c
      rw [hinv.slab.pageList_iff hP] at hpages
      rw [hinv.slab.pageList_iff hP] at hpages₀
      rw [hpages, hpages₀]
      exact le_max_left _ _

/-- An object of `g_slab_16` is taken and given back, and the next allocation does
not return it. -/
theorem freed_16_byte_object_lost :
    ∃ s x s₁ s₂, slabBoot smallLayout = .ok s ∧
      IsRun (HolderStep smallLayout) ⟨s, []⟩
        [(.alloc (.slab .gSlab16), ⟨s₁, [(.slab .gSlab16, x)]⟩),
          (.free (.slab .gSlab16) x, ⟨s₂, []⟩)] ∧
      ¬ ∃ s₃, kmemCacheAlloc smallLayout .gSlab16 s₂ = .ok (x, s₃) := by
  obtain ⟨s, x, s₁, s₂, hs, hrun⟩ := alloc_free_run (L := smallLayout) .gSlab16 (by
    decide +kernel)
  obtain ⟨s₀, hheap, hinit⟩ := slabBoot_init hs
  obtain ⟨live', pool, hinv⟩ := holderInv_run hheap hinit hrun ⟨s₁, [(.slab .gSlab16, x)]⟩
    (by simp [visited])
  refine ⟨s, x, s₁, s₂, hs, hrun, fun hnext => ?_⟩
  exact (reusesFreed_iff (c := .gSlab16) hinv hrun.2.1).mp (fun _ => hnext) rfl rfl

/-- An object of `g_slab_32` is taken and given back, and the next allocation
returns it. -/
theorem freed_32_byte_object_reused :
    ∃ s x s₁ s₂, slabBoot smallLayout = .ok s ∧
      IsRun (HolderStep smallLayout) ⟨s, []⟩
        [(.alloc (.slab .gSlab32), ⟨s₁, [(.slab .gSlab32, x)]⟩),
          (.free (.slab .gSlab32) x, ⟨s₂, []⟩)] ∧
      ∃ s₃, kmemCacheAlloc smallLayout .gSlab32 s₂ = .ok (x, s₃) := by
  obtain ⟨s, x, s₁, s₂, hs, hrun⟩ := alloc_free_run (L := smallLayout) .gSlab32 (by
    decide +kernel)
  obtain ⟨s₀, hheap, hinit⟩ := slabBoot_init hs
  have hok : Along (FreesReusable .gSlab32) ⟨s, []⟩
      [(.alloc (.slab .gSlab32), ⟨s₁, [(.slab .gSlab32, x)]⟩),
        (.free (.slab .gSlab32) x, ⟨s₂, []⟩)] := by
    refine ⟨trivial, ?_, trivial⟩
    exact fun _ => by decide
  have hreuse := (freed_objects_reused hheap hinit hrun .gSlab32).1.mpr hok
  exact ⟨s, x, s₁, s₂, hs, hrun, hreuse.2.1 rfl⟩

end LearnOS
