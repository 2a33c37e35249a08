import LearnOS.Slab.Invariant

/-!
# Taking and returning objects

A cache with a free slot hands out the first one, and an object that comes back
goes to the front of the list that `kmem_cache_free` looks up. For `g_slab_16`
that list is not the free list of the pool: its head is looked for in the
second word of the page, so the object stays out of use.
-/

namespace LearnOS

open LinkedList Slots BuddySystem Function Kres

variable {L : Layout} {s : KHeap} {live : List (ℕ × ℕ)} {pool : CacheId → Option Pool}
  {c c' : CacheId} {P P' : Pool} {x : ℕ} {f : List ℕ}

theorem PoolOk.page_of_head (h : PoolOk c P) : paToPage (headSlot c P.pages) ∈ P.pages :=
  page_of_object h.aligned h.head_mem le_rfl (Nat.lt_add_of_pos_right c.unit_pos)

theorem PoolOk.head_not_page (h : PoolOk c P) (hc : c.Small) : headSlot c P.pages ∉ P.pages := by
  have hpos := c.unit_pos
  intro hmem
  exact link_not_object hc h.aligned hmem h.head_mem le_rfl (by omega) ⟨le_rfl, by omega⟩

/-- Only its own cache reads the head of a free list. -/
theorem SlabInv.head_not_node (h : SlabInv L s live pool) (hP : pool c = some P)
    (hP' : pool c' = some P') : headSlot c P.pages ∉ nodeWords P' := by
  have hok := h.ok c P hP
  have hpos := c.unit_pos
  refine h.not_node_of_page hP hok.page_of_head (fun n hn _ hle hlt => ?_) hP'
  have heq := object_unique hok.aligned (hok.live_slot hn) hok.head_mem hle hlt le_rfl (by omega)
  exact hok.head_not_mem (heq ▸ List.mem_append_right _ hn)

theorem SlabInv.page_pos (h : SlabInv L s live pool) (hP : pool c = some P) {p : ℕ}
    (hp : p ∈ P.pages) : 0 < p := by
  obtain ⟨q, rfl, -⟩ := h.heap.exists_page (h.held c P p hP hp)
  exact Nat.pos_of_ne_zero (L.pa_ne_null q)

theorem SlabInv.object_ne_null (h : SlabInv L s live pool) (hP : pool c = some P)
    (hx : x ∈ P.live) :
    x ≠ NULL := by
  obtain ⟨p, hp, j, -, -, rfl⟩ := mem_slots.mp ((h.ok c P hP).live_slot hx)
  have hpos := h.page_pos hP hp
  simp only [NULL]
  omega

/-- The lists of slots change, and the links between the pages stay. -/
theorem PoolRep.objects {word word' : ℕ → ℕ} {k k' : KmemCache} (h : PoolRep c word k P)
    {f l : List ℕ} (hsize : k'.size = k.size) (hunitsz : k'.unitsz = k.unitsz)
    (hhead : k'.head = k.head) (hcount : k'.allocCount = l.length % 2 ^ 64)
    (hfree : Seg NULL word' (word' (headSlot c P.pages)) f NULL)
    (hpages : c.Small → ∀ p ∈ P.pages, word' p = word p)
    (hnodes : ∀ a ∈ nodeWords P, word' a = word a) :
    PoolRep c word' k' { P with free := f, live := l } where
  size := hsize.trans h.size
  unitsz := hunitsz.trans h.unitsz
  count := hcount
  free := hfree
  small hc := by
    rw [hhead]
    exact ⟨(h.small hc).1.congr (hpages hc), (h.small hc).2⟩
  large hc := by
    obtain ⟨hseg, hmap⟩ := h.large hc
    rw [hhead]
    refine ⟨hseg.congr fun n hn => hnodes _ (mem_nodeWords_iff.mpr ⟨n, hn, Or.inr rfl⟩), ?_⟩
    exact (List.map_congr_left fun n hn =>
      hnodes n (mem_nodeWords_iff.mpr ⟨n, hn, Or.inl rfl⟩)).trans hmap

/-- One cache changes its lists of slots but neither its pages nor its nodes. -/
theorem SlabInv.replace_objects (h : SlabInv L s live pool) (hP : pool c = some P) {s' : KHeap}
    {f l : List ℕ} (hbuddy : s'.mem.buddy = s.mem.buddy)
    (hcache : ∀ c', c' ≠ c → s'.cache c' = s.cache c')
    (hown : ∀ c' Q, c' ≠ c → pool c' = some Q → ∀ a ∈ ownWords c' Q, s'.word a = s.word a)
    (hnode : ∀ c' Q, pool c' = some Q → ∀ a ∈ nodeWords Q, s'.word a = s.word a)
    (hok : PoolOk c { P with free := f, live := l })
    (hrep : PoolRep c s'.word (s'.cache c) { P with free := f, live := l })
    (hkeep : ∀ n ∈ P.live, IsNode pool n → n ∈ l) :
    SlabInv L s' live (update pool c (some { P with free := f, live := l })) := by
  refine h.replace (hbuddy ▸ h.heap) (List.Subset.refl _) hcache
    (fun c' Q hc hQ => ⟨hown c' Q hc hQ, hnode c' Q hQ⟩) hok hrep
    (fun p hp => h.held c P p hP hp) ?_ ?_ ?_
  · intro p hp c' Q hc hQ hpQ
    exact hc (h.apart c' c Q P p hQ hP hpQ hp)
  · intro n hn
    obtain ⟨Q, hQ, hlive⟩ := h.nodes_live c P n hP hn
    by_cases hc : c = .gSlab16
    · subst hc
      cases hP.symm.trans hQ
      exact ⟨_, update_self _ _ _, hkeep n hlive ⟨_, P, hP, hn⟩⟩
    · refine ⟨Q, ?_, hlive⟩
      rw [update_of_ne (Ne.symm hc)]
      exact hQ
  · intro Q hQ n hn hisnode
    cases hP.symm.trans hQ
    exact hkeep n hn hisnode

/-! ## Taking the first free slot -/

theorem PoolOk.pop (h : PoolOk c P) (hfree : P.free = x :: f) :
    PoolOk c { P with free := f, live := x :: P.live } where
  pages_ne := h.pages_ne
  aligned := h.aligned
  pages_nodup := h.pages_nodup
  slots_nodup := by
    have hnodup := h.slots_nodup
    rw [hfree] at hnodup
    exact (List.Perm.cons _ List.perm_middle).nodup_iff.mpr hnodup
  slots y hy := by
    apply h.slots
    rw [hfree]
    exact List.perm_middle.mem_iff.mp hy

theorem popFree_word {a faptr x : ℕ} (ha : a ≠ faptr) :
    (popFree c faptr x s).word a = s.word a := by
  simp [popFree, KHeap.store, KHeap.setCache, update_of_ne ha]

theorem popFree_spec (h : SlabInv L s live pool) (hP : pool c = some P) (hfree : P.free = x :: f) :
    SlabInv L (popFree c (headSlot c P.pages) x s) live
      (update pool c (some { P with free := f, live := x :: P.live })) := by
  have hok := h.ok c P hP
  have hrep := h.rep c P hP
  have hnode : ∀ c' Q, pool c' = some Q → ∀ a ∈ nodeWords Q,
      (popFree c (headSlot c P.pages) x s).word a = s.word a := by
    intro c' Q hQ a ha
    apply popFree_word
    rintro rfl
    exact h.head_not_node hP hQ ha
  refine h.replace_objects hP rfl ?_ ?_ hnode (hok.pop hfree) ?_
    (fun n hn _ => List.mem_cons_of_mem _ hn)
  · intro c' hc
    simp [popFree, KHeap.store, KHeap.setCache, update_of_ne hc]
  · intro c' Q hc hQ a ha
    apply popFree_word
    rintro rfl
    exact h.not_own_of_page hP hok.page_of_head hQ hc ha
  · have hseg := hrep.free
    rw [hfree] at hseg
    obtain ⟨-, hx, hrest⟩ := hseg
    have hcache : (popFree c (headSlot c P.pages) x s).cache c =
        { s.cache c with allocCount := ((s.cache c).allocCount + 1) % 2 ^ 64 } := by
      simp [popFree, KHeap.store, KHeap.setCache]
    have hnew : (popFree c (headSlot c P.pages) x s).word (headSlot c P.pages) = s.word x := by
      simp [popFree, KHeap.store, KHeap.setCache]
    rw [hcache]
    refine hrep.objects rfl rfl rfl ?_ ?_ ?_ (hnode c P hP)
    · simp only [hrep.count, List.length_cons, Nat.mod_add_mod]
    · rw [hnew]
      refine hrest.congr fun y hy => popFree_word ?_
      rintro rfl
      exact hok.head_not_mem (List.mem_append_left _ (by simp [hfree, hy]))
    · intro hc p hp
      apply popFree_word
      rintro rfl
      exact hok.head_not_page hc hp

/-! ## Returning an object -/

theorem PoolOk.drop_object (h : PoolOk c P) (x : ℕ) :
    PoolOk c { P with live := P.live.erase x } where
  pages_ne := h.pages_ne
  aligned := h.aligned
  pages_nodup := h.pages_nodup
  slots_nodup := h.slots_nodup.sublist
    (List.Sublist.cons_cons _ ((List.Sublist.refl _).append List.erase_sublist))
  slots y hy := by
    apply h.slots
    rcases List.mem_append.mp hy with hy | hy
    · exact List.mem_append_left _ hy
    · exact List.mem_append_right _ (List.mem_of_mem_erase hy)

theorem PoolOk.push (h : PoolOk c P) (hx : x ∈ P.live) :
    PoolOk c { P with free := x :: P.free, live := P.live.erase x } where
  pages_ne := h.pages_ne
  aligned := h.aligned
  pages_nodup := h.pages_nodup
  slots_nodup := by
    refine (List.Perm.cons _ ?_).nodup_iff.mp h.slots_nodup
    exact ((List.perm_cons_erase hx).append_left _).trans List.perm_middle
  slots y hy := by
    apply h.slots
    have hperm : (P.free ++ P.live).Perm (x :: P.free ++ P.live.erase x) :=
      ((List.perm_cons_erase hx).append_left _).trans List.perm_middle
    exact hperm.mem_iff.mpr hy

theorem pushFree_word {a faptr x : ℕ} (hx : a ≠ x) (ha : a ≠ faptr) :
    (pushFree c faptr x s).word a = s.word a := by
  simp [pushFree, KHeap.store, KHeap.setCache, update_of_ne ha, update_of_ne hx]

theorem count_pred {n : ℕ} (hn : 0 < n) :
    (n % 2 ^ 64 + (2 ^ 64 - 1)) % 2 ^ 64 = (n - 1) % 2 ^ 64 := by
  omega

/-- What `pushFree` does besides the free list of the pool, where the two words
that it writes are no concern of any other pool. -/
theorem pushFree_spec (h : SlabInv L s live pool) (hP : pool c = some P) {x faptr : ℕ}
    (hx : x ∈ P.live) (hnot : ¬ IsNode pool x) (hpage : paToPage faptr ∈ P.pages)
    (hobj : ∀ n ∈ P.live, n ≤ faptr → ¬ faptr < n + c.unit) (hlink : c.Small → faptr ∉ P.pages)
    (hok' : PoolOk c { P with free := f, live := P.live.erase x })
    (hfree : Seg NULL (pushFree c faptr x s).word ((pushFree c faptr x s).word (headSlot c P.pages))
      f NULL) :
    SlabInv L (pushFree c faptr x s) live
      (update pool c (some { P with free := f, live := P.live.erase x })) := by
  have hok := h.ok c P hP
  have hrep := h.rep c P hP
  have hpos := c.unit_pos
  have hread : ∀ c' Q, pool c' = some Q → x ∉ ownWords c' Q ∧ x ∉ nodeWords Q :=
    fun c' Q hQ => h.not_read_of_object hP hx hnot le_rfl (by omega) hQ
  have hnode : ∀ c' Q, pool c' = some Q → ∀ a ∈ nodeWords Q,
      (pushFree c faptr x s).word a = s.word a := by
    intro c' Q hQ a ha
    apply pushFree_word
    · rintro rfl
      exact (hread c' Q hQ).2 ha
    · rintro rfl
      exact h.not_node_of_page hP hpage (fun n hn _ => hobj n hn) hQ ha
  refine h.replace_objects hP rfl ?_ ?_ hnode hok' ?_ ?_
  · intro c' hc
    simp [pushFree, KHeap.store, KHeap.setCache, update_of_ne hc]
  · intro c' Q hc hQ a ha
    apply pushFree_word
    · rintro rfl
      exact (hread c' Q hQ).1 ha
    · rintro rfl
      exact h.not_own_of_page hP hpage hQ hc ha
  · have hcache : (pushFree c faptr x s).cache c =
        { s.cache c with
          allocCount := ((s.cache c).allocCount + (2 ^ 64 - 1)) % 2 ^ 64 } := by
      simp [pushFree, KHeap.store, KHeap.setCache]
    rw [hcache]
    refine hrep.objects rfl rfl rfl ?_ hfree ?_ (hnode c P hP)
    · simp only [hrep.count, List.length_erase_of_mem hx]
      exact count_pred (List.length_pos_of_mem hx)
    · intro hc p hp
      apply pushFree_word
      · rintro rfl
        exact (hread c P hP).1 (by simp [ownWords, hc, hp])
      · rintro rfl
        exact hlink hc hp
  · intro n hn hisnode
    refine (List.mem_erase_of_ne ?_).mpr hn
    rintro rfl
    exact hnot hisnode

/-- An object goes to the front of the free list. -/
theorem pushFree_head (h : SlabInv L s live pool) (hP : pool c = some P) (hx : x ∈ P.live)
    (hnot : ¬ IsNode pool x) :
    SlabInv L (pushFree c (headSlot c P.pages) x s) live (update pool c
      (some { P with free := x :: P.free, live := P.live.erase x })) := by
  have hok := h.ok c P hP
  have hpos := c.unit_pos
  have hne : headSlot c P.pages ≠ x := by
    rintro rfl
    exact hok.head_not_mem (List.mem_append_right _ hx)
  refine pushFree_spec h hP hx hnot hok.page_of_head ?_ hok.head_not_page (hok.push hx) ?_
  · intro n hn hle hlt
    have heq := object_unique hok.aligned (hok.live_slot hn) hok.head_mem hle hlt le_rfl (by omega)
    exact hok.head_not_mem (heq ▸ List.mem_append_right _ hn)
  · have hhead : (pushFree c (headSlot c P.pages) x s).word (headSlot c P.pages) = x := by
      simp [pushFree, KHeap.store, KHeap.setCache]
    have hxword : (pushFree c (headSlot c P.pages) x s).word x = s.word (headSlot c P.pages) := by
      simp [pushFree, KHeap.store, KHeap.setCache, update_of_ne hne.symm]
    rw [hhead]
    refine ⟨rfl, h.object_ne_null hP hx, ?_⟩
    rw [hxword]
    refine (h.rep c P hP).free.congr fun y hy => pushFree_word ?_ ?_
    · rintro rfl
      exact hok.not_mem_free hx hy
    · rintro rfl
      exact hok.head_not_mem (List.mem_append_left _ hy)

/-- An object of `g_slab_16` is chained to the second word of the first page and
does not reach the free list. -/
theorem pushFree_lost (h : SlabInv L s live pool) (hP : pool .gSlab16 = some P) (hx : x ∈ P.live)
    (hnot : ¬ IsNode pool x) :
    SlabInv L (pushFree .gSlab16 (P.pages.headD 0 + 8) x s) live (update pool .gSlab16
      (some { P with live := P.live.erase x })) := by
  have hok := h.ok _ P hP
  have hrep := h.rep _ P hP
  have hsmall : CacheId.Small .gSlab16 := by decide
  have hunit : CacheId.unit .gSlab16 = 16 := rfl
  obtain ⟨p, rest, hpages⟩ := List.exists_cons_of_ne_nil hok.pages_ne
  have hp : p ∈ P.pages := by simp [hpages]
  have hhead : P.pages.headD 0 = p := by simp [hpages]
  have hin : In (CacheId.unit .gSlab16) p 0 (p + 8) := by
    constructor <;> omega
  have hpage : paToPage (p + 8) = p :=
    hin.pageOf_eq (hok.aligned p hp) (slot_fits (Nat.zero_le _))
  have hslot : ∀ y ∈ P.pages.flatMap (pageSlots .gSlab16), y ≤ p + 8 →
      ¬ p + 8 < y + CacheId.unit .gSlab16 := by
    intro y hy hle hlt
    exact link_not_object hsmall hok.aligned hp hy hle hlt ⟨by omega, by omega⟩
  have hlink : p + 8 ∉ P.pages := by
    intro hmem
    have hself : paToPage (p + 8) = p + 8 := pageOf_eq_self (hok.aligned _ hmem)
    omega
  have hword : ∀ a ∈ P.pages.flatMap (pageSlots .gSlab16), a ≠ x →
      (pushFree .gSlab16 (p + 8) x s).word a = s.word a := by
    intro a ha hax
    apply pushFree_word hax
    rintro rfl
    exact hslot _ ha le_rfl (by omega)
  rw [hhead]
  refine pushFree_spec h hP hx hnot (hpage.symm ▸ hp) (fun n hn => hslot n (hok.live_slot hn))
    (fun _ => hlink) (hok.drop_object x) ?_
  have hne : headSlot .gSlab16 P.pages ≠ x := by
    rintro rfl
    exact hok.head_not_mem (List.mem_append_right _ hx)
  rw [hword _ hok.head_mem hne]
  refine hrep.free.congr fun y hy => hword y (hok.free_slot hy) ?_
  rintro rfl
  exact hok.not_mem_free hx hy

/-! ## `kmem_cache_free` -/

/-- The pages of a cache are different pages of memory. -/
theorem SlabInv.pages_length (h : SlabInv L s live pool) (hP : pool c = some P) :
    P.pages.length < walkBound := by
  have hsub : P.pages ⊆ (List.range L.pnumMax).map L.pa := by
    intro p hp
    obtain ⟨q, rfl, hq⟩ := h.heap.exists_page (h.held c P p hP hp)
    exact List.mem_map_of_mem (List.mem_range.mpr hq)
  have hle := ((h.ok c P hP).pages_nodup.subperm hsub).length_le
  rw [List.length_map, List.length_range] at hle
  have hmax := L.pnumMax_le
  have hbound : 2 ^ 15 < walkBound := by
    rw [walkBound, PHYSTOP_eq, PGSIZE]
    decide
  omega

theorem paToPage_object {pages : List ℕ} (hal : ∀ p ∈ pages, PGSIZE ∣ p)
    (hx : x ∈ pages.flatMap (pageSlots c)) : (x - paToPage x) % c.unit = 0 := by
  have hpos := c.unit_pos
  obtain ⟨p, hp, j, -, hj, rfl⟩ := mem_slots.mp hx
  have hpage : paToPage (p + j * c.unit) = p :=
    (in_start hpos p j).pageOf_eq (hal p hp) (slot_fits hj)
  rw [hpage, Nat.add_sub_cancel_left, Nat.mul_mod_left]

/-- The free list of a pool after an object has come back. -/
def freeAfter (c : CacheId) (P : Pool) (x : ℕ) : List ℕ :=
  if c = .gSlab16 then P.free else x :: P.free

theorem SlabInv.small_head (h : SlabInv L s live pool) (hP : pool c = some P) (hc : c.Small) :
    (s.cache c).head = P.pages.headD 0 := by
  obtain ⟨p, rest, hpages⟩ := List.exists_cons_of_ne_nil (h.ok c P hP).pages_ne
  have hseg := ((h.rep c P hP).small hc).1
  rw [hpages] at hseg ⊢
  exact hseg.1

theorem SlabInv.large_head (h : SlabInv L s live pool) (hP : pool c = some P) (hc : ¬ c.Small) :
    s.word (s.cache c).head = P.pages.headD 0 := by
  obtain ⟨hseg, hmap⟩ := (h.rep c P hP).large hc
  have hne := (h.ok c P hP).pages_ne
  rw [← hmap] at hne ⊢
  obtain ⟨n, rest, hnodes⟩ := List.exists_cons_of_ne_nil (fun h => hne (List.map_eq_nil_iff.mpr h))
  rw [hnodes] at hseg ⊢
  rw [hseg.1, List.map_cons, List.headD_cons]

theorem freeSmall_eq (h : SlabInv L s live pool) (hP : pool c = some P) (hc : c.Small)
    (hx : x ∈ P.live) : freeSmallObjectPool c x s = .ok (pushFree c (P.pages.headD 0 + 8) x s) := by
  have hok := h.ok c P hP
  have hseg := ((h.rep c P hP).small hc).1
  have hpage := page_of_object hok.aligned (hok.live_slot hx) le_rfl
    (Nat.lt_add_of_pos_right c.unit_pos)
  obtain ⟨y, hy, -, hseek⟩ := hseg.seek_hit (fun a => a == paToPage x) hpage
    (beq_self_eq_true _) (h.pages_length hP)
  have hmod : (x - paToPage x) % (s.cache c).unitsz = 0 := by
    rw [(h.rep c P hP).unitsz]
    exact paToPage_object hok.aligned (hok.live_slot hx)
  rw [← h.small_head hP hc]
  simp only [freeSmallObjectPool, hseek, if_neg (hseg.ne_null y hy), hmod, ne_eq, not_true,
    if_false, pure_eq]

theorem freeLarge_eq (h : SlabInv L s live pool) (hP : pool c = some P) (hc : ¬ c.Small)
    (hx : x ∈ P.live) : freeLargeObjectPool c x s = .ok (pushFree c (P.pages.headD 0) x s) := by
  have hok := h.ok c P hP
  obtain ⟨hseg, hmap⟩ := (h.rep c P hP).large hc
  have hpage := page_of_object hok.aligned (hok.live_slot hx) le_rfl
    (Nat.lt_add_of_pos_right c.unit_pos)
  have hlen : P.nodes.length < walkBound := by
    have hlt := h.pages_length hP
    rwa [← hmap, List.length_map] at hlt
  rw [← hmap] at hpage
  obtain ⟨n, hn, heq⟩ := List.mem_map.mp hpage
  obtain ⟨y, hy, -, hseek⟩ := hseg.seek_hit (fun n => s.word n == paToPage x) hn
    (beq_iff_eq.mpr heq) hlen
  have hmod : (x - paToPage x) % (s.cache c).unitsz = 0 := by
    rw [(h.rep c P hP).unitsz]
    exact paToPage_object hok.aligned (hok.live_slot hx)
  simp only [freeLargeObjectPool, hseek, if_neg (hseg.ne_null y hy), hmod, ne_eq, not_true,
    if_false, h.large_head hP hc, pure_eq]

/-- `kmem_cache_free` accepts every live object that is not a page node. -/
theorem kmemCacheFree_spec (h : SlabInv L s live pool) (hP : pool c = some P) (hx : x ∈ P.live)
    (hnot : ¬ IsNode pool x) :
    ∃ s', kmemCacheFree c x s = .ok s' ∧ s'.mem = s.mem ∧ SlabInv L s' live (update pool c
      (some { P with free := freeAfter c P x, live := P.live.erase x })) := by
  have hsize := (h.rep c P hP).size
  by_cases hc : c.Small
  · have hle : ¬ (s.cache c).size > 16 := by
      rw [hsize]
      exact Nat.not_lt.mpr hc
    refine ⟨pushFree c (P.pages.headD 0 + 8) x s,
      by rw [kmemCacheFree, if_neg hle, freeSmall_eq h hP hc hx], rfl, ?_⟩
    by_cases h16 : c = .gSlab16
    · subst h16
      exact pushFree_lost h hP hx hnot
    · have h8 : c = .gSlab8 := by
        cases c <;> first | rfl | exact absurd rfl h16 | exact absurd hc (by decide)
      subst h8
      exact pushFree_head h hP hx hnot
  · have hgt : (s.cache c).size > 16 := by
      rw [hsize]
      exact Nat.not_le.mp hc
    refine ⟨pushFree c (P.pages.headD 0) x s,
      by rw [kmemCacheFree, if_pos hgt, freeLarge_eq h hP hc hx], rfl, ?_⟩
    have h16 : c ≠ .gSlab16 := by
      rintro rfl
      exact hc (by decide)
    have hhead : headSlot c P.pages = P.pages.headD 0 := by
      simp [headSlot, CacheId.firstSlot, hc]
    rw [← hhead, freeAfter, if_neg h16]
    exact pushFree_head h hP hx hnot

end LearnOS
