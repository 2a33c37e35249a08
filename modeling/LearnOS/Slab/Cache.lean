import LearnOS.Slab.Large
import LearnOS.Slab.Ledger

/-!
# The caches as a whole

`kmem_cache_alloc` keeps the invariant for every cache, and `slab_init` sets it
up: the caches are created in an order in which `g_slab_16` exists before the
first large pool asks it for a node.
-/

namespace LearnOS

open LinkedList Slots BuddySystem Ownership Function Kres

variable {L : Layout} {s s' : KHeap} {live live' : List (ℕ × ℕ)}
  {pool pool' : CacheId → Option Pool} {c : CacheId} {P Q : Pool}
  {x align n : ℕ} {P' : Pool} {pages : List ℕ}

/-! ## Allocation from a large pool -/

/-- A full large pool with its new page linked in, as `alloc_large_object_pool`
leaves it before it tries again. -/
def linkLargePage (c : CacheId) (head faptr newnode : ℕ) (s : KHeap) : KHeap :=
  let s := s.store (lnodeNext newnode) head
  let s := s.setCache c { s.cache c with head := newnode }
  s.store (s.word newnode + lastSlot c.unit * c.unit) faptr

theorem ne_gSlab16 (hc : ¬ c.Small) : c ≠ .gSlab16 := by
  rintro rfl
  exact hc (by decide)

/-- A page and an object of `g_slab_16` as its node, which no pool reads yet. -/
structure NewPage (s : KHeap) (live : List (ℕ × ℕ)) (pool : CacheId → Option Pool) (Q : Pool)
    (newnode p : ℕ) : Prop where
  nodes : pool .gSlab16 = some Q
  page : Spare live pool p
  node : newnode ∈ Q.live
  unread : ¬ IsNode pool newnode
  word : s.word newnode = p

namespace NewPage

variable {newnode p head faptr : ℕ} (h : SlabInv L s live pool)
  (hnew : NewPage s live pool Q newnode p)

include h hnew

theorem lastSlot_page : paToPage (p + lastSlot c.unit * c.unit) = p :=
  paToPage_slot (h.heap.dvd_page hnew.page.held) le_rfl

theorem lastSlot_ne_next : lnodeNext newnode ≠ p + lastSlot c.unit * c.unit := by
  intro heq
  exact (h.node_ne_spare hnew.nodes hnew.page hnew.node).2 (heq ▸ hnew.lastSlot_page h)

omit h in
theorem link_word : (linkLargePage c head faptr newnode s).word =
    update (update s.word (lnodeNext newnode) head) (p + lastSlot c.unit * c.unit) faptr := by
  have hword : update s.word (lnodeNext newnode) head newnode = p := by
    rw [update_of_ne (by simp only [lnodeNext]; omega), hnew.word]
  simp only [linkLargePage, KHeap.store, KHeap.setCache, hword]

omit h in
theorem link_other {a : ℕ} (ha : a ≠ lnodeNext newnode) (ha' : a ≠ p + lastSlot c.unit * c.unit) :
    (linkLargePage c head faptr newnode s).word a = s.word a := by
  rw [hnew.link_word, update_of_ne ha', update_of_ne ha]

/-- The words that are written belong to no pool. -/
theorem link_read {c' : CacheId} {R : Pool} (hR : pool c' = some R) :
    (∀ a ∈ ownWords c' R, (linkLargePage c head faptr newnode s).word a = s.word a) ∧
      ∀ a ∈ nodeWords R, (linkLargePage c head faptr newnode s).word a = s.word a := by
  have hobj := h.not_read_of_object hnew.nodes hnew.node hnew.unread (lnodeNext_range newnode).1
    (lnodeNext_range newnode).2 hR
  have hpage := hnew.page.not_read h (hnew.lastSlot_page (c := c) h) hR
  constructor
  · intro a ha
    exact hnew.link_other (fun heq => hobj.1 (heq ▸ ha)) (fun heq => hpage.1 (heq ▸ ha))
  · intro a ha
    exact hnew.link_other (fun heq => hobj.2 (heq ▸ ha)) (fun heq => hpage.2 (heq ▸ ha))

/-- The slots of the page end at the slot that held the free list before. -/
theorem link_free (hP : pool c = some P) (hfree : P.free = [])
    (hslots : Seg NULL s.word (p + c.firstSlot * c.unit) (pageSlots c p) NULL)
    (hs' : linkLargePage c head (headSlot c P.pages) newnode s = s') :
    Seg NULL s'.word (s'.word (p + c.firstSlot * c.unit))
      ((pageSlots c p).tail ++ [headSlot c P.pages]) NULL := by
  subst hs'
  refine grow_free (h.head_ne_null hP) ?_ hslots (fun a ha hane => ?_) ?_
  · rw [(hnew.link_read h hP).1 _ (by simp [ownWords])]
    exact (h.free_nil_iff hP).mp hfree
  · refine hnew.link_other ?_ hane
    rintro rfl
    obtain ⟨j, -, hj, heq⟩ := mem_pageSlots.mp ha
    apply (h.node_ne_spare hnew.nodes hnew.page hnew.node).2
    rw [heq]
    exact paToPage_slot (h.heap.dvd_page hnew.page.held) hj
  · rw [hnew.link_word, update_self]

/-- The node of the page is the first of the pool. -/
theorem link_nodes (hP : pool c = some P) (hc : ¬ c.Small) (hnull : newnode ≠ NULL)
    (hs' : linkLargePage c (s.cache c).head faptr newnode s = s') :
    Seg NULL (fun n => s'.word (lnodeNext n)) newnode (newnode :: P.nodes) NULL ∧
      (newnode :: P.nodes).map s'.word = p :: P.pages := by
  subst hs'
  obtain ⟨hlinks, hnodes⟩ := (h.rep c P hP).large hc
  have hread : ∀ n ∈ P.nodes, ∀ a, a = n ∨ a = lnodeNext n →
      (linkLargePage c (s.cache c).head faptr newnode s).word a = s.word a :=
    fun n hn a ha => (hnew.link_read h hP).2 a (mem_nodeWords_iff.mpr ⟨n, hn, ha⟩)
  refine ⟨⟨rfl, hnull, ?_⟩, ?_⟩
  · simp only
    rw [hnew.link_word, update_of_ne (hnew.lastSlot_ne_next h), update_self, ← hnew.link_word]
    exact hlinks.congr fun n hn => hread n hn _ (Or.inr rfl)
  · have hself : (linkLargePage c (s.cache c).head faptr newnode s).word newnode = p := by
      rw [hnew.link_other (by simp only [lnodeNext]; omega) ?_, hnew.word]
      exact fun heq => (h.node_ne_spare hnew.nodes hnew.page hnew.node).1
        (heq ▸ hnew.lastSlot_page h)
    rw [List.map_cons, hself, ← hnodes]
    congr 1
    exact List.map_congr_left fun n hn => hread n hn n (Or.inl rfl)

end NewPage

/-- A large pool grows by a page, whose node `g_slab_16` hands out. -/
theorem growLarge_spec (hc : ¬ c.Small) (h : SlabInv L s live pool) (hP : pool c = some P)
    (hQ : pool .gSlab16 = some Q) (hfree : P.free = []) {newnode : ℕ} {s₁ : KHeap}
    (hcall : initLargeObjectPool L c.unit 1 s = .ok (newnode, s₁))
    (hs' : linkLargePage c (s.cache c).head (headSlot c P.pages) newnode s₁ = s') :
    ∃ live' Q' p, Extended L .gSlab16 s live pool Q [newnode] s₁ live' Q' ∧ (p, 0) ∉ live ∧
      SlabInv L s' live' (update (update pool .gSlab16 (some Q')) c
        (some (P.grow c p (newnode :: P.nodes)))) := by
  obtain ⟨live', Q', pages, nodes, hbuilt, hlen⟩ := initLarge_spec hc h hQ hcall
  obtain ⟨p, rfl⟩ := List.length_eq_one_iff.mp hlen
  obtain ⟨m, rfl⟩ := List.length_eq_one_iff.mp (show nodes.length = 1 by
    rw [← List.length_map s₁.word, hbuilt.map, List.length_singleton])
  obtain ⟨rfl, hnull, -⟩ := hbuilt.links
  have h₁ := hbuilt.ext.inv
  have hP₁ : update pool .gSlab16 (some Q') c = some P := by rwa [update_of_ne (ne_gSlab16 hc)]
  obtain ⟨hheld, hnodenew⟩ := hbuilt.ext.mem_served List.mem_cons_self
  have hnew : NewPage s₁ live' (update pool .gSlab16 (some Q')) Q' newnode p :=
    ⟨update_self _ _ _, hbuilt.spare p (by simp), hheld,
      hbuilt.ext.not_isNode h hQ rfl hnodenew, by simpa using hbuilt.map⟩
  rw [← hbuilt.ext.cache c (ne_gSlab16 hc)] at hs'
  have hslots := hnew.link_free h₁ hP₁ hfree (by simpa [headSlot] using hbuilt.slots) hs'
  have hnodes := hnew.link_nodes h₁ hP₁ hc hnull hs'
  refine ⟨live', Q', p, hbuilt.ext, hbuilt.new p (by simp), h₁.grow hP₁ hfree (hs' ▸ h₁.heap)
    (List.Subset.refl _) hnew.page ?_ (fun c' R _ hR => hs' ▸ hnew.link_read h₁ hR) ?_ ?_⟩
  · intro c' hc'
    simp [← hs', linkLargePage, KHeap.store, KHeap.setCache, update_of_ne hc']
  · intro n hn
    rcases List.mem_cons.mp hn with rfl | hn
    · exact ⟨Q', hnew.nodes, hheld⟩
    · exact h₁.nodes_live c P n hP₁ hn
  · have hrep := h₁.rep c P hP₁
    have hcache : s'.cache c = { s₁.cache c with head := newnode } := by
      simp [← hs', linkLargePage, KHeap.store, KHeap.setCache]
    rw [hcache]
    exact ⟨hrep.size, hrep.unitsz, hrep.count, hslots, fun hs => absurd hs hc, fun _ => hnodes⟩

theorem SlabInv.large_faptr (h : SlabInv L s live pool) (hP : pool c = some P) (hc : ¬ c.Small) :
    s.word (s.cache c).head = headSlot c P.pages := by
  rw [h.large_head hP hc, headSlot, CacheId.firstSlot, if_neg hc, Nat.zero_mul, Nat.add_zero]

theorem allocLarge_cons (hc : ¬ c.Small) (h : SlabInv L s live pool) (hP : pool c = some P)
    {f : List ℕ} (hfree : P.free = x :: f) (n : ℕ) :
    allocLargeObjectPool L c (n + 1) s = .ok (x, popFree c (headSlot c P.pages) x s) := by
  have hseg := (h.rep c P hP).free
  rw [hfree] at hseg
  obtain ⟨hx, hnull, -⟩ := hseg
  simp only [allocLargeObjectPool, h.large_faptr hP hc, hx, if_neg hnull, pure_eq]

theorem allocLarge_nil (hc : ¬ c.Small) (h : SlabInv L s live pool) (hP : pool c = some P)
    (hfree : P.free = []) (n : ℕ) :
    allocLargeObjectPool L c (n + 1) s = initLargeObjectPool L c.unit 1 s >>= fun r =>
      allocLargeObjectPool L c n
        (linkLargePage c (s.cache c).head (headSlot c P.pages) r.1 r.2) := by
  rw [allocLargeObjectPool]
  simp only [(h.rep c P hP).unitsz, h.large_faptr hP hc, (h.free_nil_iff hP).mp hfree, if_true]
  rfl

/-! ## `kmem_cache_alloc` -/

/-- What is in use stays in use; new pages and new nodes were not in use before. -/
structure Widened (live : List (ℕ × ℕ)) (pool : CacheId → Option Pool)
    (live' : List (ℕ × ℕ)) (pool' : CacheId → Option Pool) : Prop where
  subset : live ⊆ live'
  keep : ∀ c' P, pool c' = some P →
    ∃ P', pool' c' = some P' ∧ P.live ⊆ P'.live ∧ P.pages ⊆ P'.pages
  pages_new : ∀ c' P' p, pool' c' = some P' → p ∈ P'.pages →
    (∃ P, pool c' = some P ∧ p ∈ P.pages) ∨ (p, 0) ∉ live
  nodes_new : ∀ n, IsNode pool' n → IsNode pool n ∨ ∀ Q, pool .gSlab16 = some Q → n ∉ Q.live

theorem Widened.trans {live₂ : List (ℕ × ℕ)} {pool₂ : CacheId → Option Pool}
    (h : Widened live pool live' pool') (h' : Widened live' pool' live₂ pool₂) :
    Widened live pool live₂ pool₂ where
  subset := List.Subset.trans h.subset h'.subset
  keep c' P hP := by
    obtain ⟨P', hP', hlive, hpages⟩ := h.keep c' P hP
    obtain ⟨P₂, hP₂, hlive', hpages'⟩ := h'.keep c' P' hP'
    exact ⟨P₂, hP₂, List.Subset.trans hlive hlive', List.Subset.trans hpages hpages'⟩
  pages_new c' P₂ p hP₂ hp := by
    rcases h'.pages_new c' P₂ p hP₂ hp with ⟨P', hP', hmid⟩ | hnew
    · exact h.pages_new c' P' p hP' hmid
    · exact Or.inr fun hmem => hnew (h.subset hmem)
  nodes_new n hn := by
    rcases h'.nodes_new n hn with hmid | hnew
    · exact h.nodes_new n hmid
    · refine Or.inr fun Q hQ hmem => ?_
      obtain ⟨Q', hQ', hlive, -⟩ := h.keep _ Q hQ
      exact hnew Q' hQ' (hlive hmem)

/-- A cache has handed out a new object. -/
structure Allocated (L : Layout) (c : CacheId) (live : List (ℕ × ℕ))
    (pool : CacheId → Option Pool) (x : ℕ) (s' : KHeap) (live' : List (ℕ × ℕ))
    (pool' : CacheId → Option Pool) : Prop where
  inv : SlabInv L s' live' pool'
  widened : Widened live pool live' pool'
  served : Served c x pool pool'
  object : ∃ P', pool' c = some P' ∧ x ∈ P'.live
  fresh : ∀ P, pool c = some P → x ∉ P.live
  not_node : ¬ IsNode pool' x

/-- An object of another cache is no node. -/
theorem SlabInv.not_isNode_of_ne (h : SlabInv L s live pool) (hP : pool c = some P)
    (hne : c ≠ .gSlab16) (hx : x ∈ P.live) : ¬ IsNode pool x := by
  rintro ⟨c', R, hR, hn⟩
  obtain ⟨Q, hQ, hlive⟩ := h.nodes_live c' R x hR hn
  have hok := h.ok c P hP
  have hpos := c.unit_pos
  exact hne (h.apart c _ P Q _ hP hQ
    (page_of_object hok.aligned (hok.live_slot hx) le_rfl (by omega)) (h.node_page hQ hlive).1)

/-- One pool grows. -/
theorem widened_update (hP : pool c = some P) (hsub : live ⊆ live')
    (hlive : P.live ⊆ P'.live) (hpages : P.pages ⊆ P'.pages)
    (hnew : ∀ p ∈ P'.pages, p ∈ P.pages ∨ (p, 0) ∉ live)
    (hnodes : ∀ n ∈ P'.nodes, n ∈ P.nodes ∨ ∀ Q, pool .gSlab16 = some Q → n ∉ Q.live) :
    Widened live pool live' (update pool c (some P')) where
  subset := hsub
  keep c' R hR := by
    by_cases hc' : c' = c
    · subst hc'
      cases hP.symm.trans hR
      exact ⟨P', update_self _ _ _, hlive, hpages⟩
    · exact ⟨R, by rwa [update_of_ne hc'], List.Subset.refl _, List.Subset.refl _⟩
  pages_new c' R p hR hp := by
    rcases eq_some_of_update hR with ⟨rfl, rfl⟩ | ⟨-, hR⟩
    · exact (hnew p hp).imp_left fun hq => ⟨P, hP, hq⟩
    · exact Or.inl ⟨R, hR, hp⟩
  nodes_new n hn := by
    obtain ⟨c', R, hR, hn⟩ := hn
    rcases eq_some_of_update hR with ⟨rfl, rfl⟩ | ⟨-, hR⟩
    · exact (hnodes n hn).imp_left fun hn => ⟨c', P, hP, hn⟩
    · exact Or.inl ⟨c', R, hR, hn⟩

theorem Extended.widened {xs : List ℕ}
    (h : Extended L c s live pool P xs s' live' P') (hP : pool c = some P) :
    Widened live pool live' (update pool c (some P')) :=
  widened_update hP h.subset h.live_sub h.pages_old h.pages_new
    fun _ hn => Or.inl (h.nodes_eq ▸ hn)

theorem Took.allocated (h : SlabInv L s live pool) (hP : pool c = some P)
    (ht : Took L c s live pool P x s' live' P') :
    Allocated L c live pool x s' live' (update pool c (some P')) := by
  have hself : update pool c (some P') c = some P' := update_self _ _ _
  obtain ⟨hxlive, hfresh⟩ := ht.mem_served List.mem_cons_self
  refine ⟨ht.inv, ht.widened hP, .direct hP ht.serves ht.nodes_eq, ⟨P', hself, hxlive⟩,
    fun R hR => ?_, ?_⟩
  · cases hP.symm.trans hR
    exact hfresh
  · by_cases hc : c = .gSlab16
    · exact ht.not_isNode h (hc ▸ hP) hc hfresh
    · exact ht.inv.not_isNode_of_ne hself hc hxlive

/-- The page and its node were not in use. -/
theorem grown_widened {Q' : Pool} {p node : ℕ} (hc : ¬ c.Small) (hP : pool c = some P)
    (hQ : pool .gSlab16 = some Q) (hext : Extended L .gSlab16 s live pool Q [node] s' live' Q')
    (hp : (p, 0) ∉ live) : Widened live pool live' (update (update pool .gSlab16 (some Q')) c
      (some (P.grow c p (node :: P.nodes)))) := by
  have hne := (ne_gSlab16 hc).symm
  have hQ₁ : update pool c (some (P.grow c p (node :: P.nodes))) .gSlab16 = some Q := by
    rwa [update_of_ne hne]
  rw [update_comm hne]
  have hgrow : Widened live pool live (update pool c (some (P.grow c p (node :: P.nodes)))) := by
    refine widened_update hP (List.Subset.refl _) (List.Subset.refl _) (List.subset_cons_self _ _)
      (fun q hq => ?_) fun n hn => ?_
    · rcases List.mem_cons.mp hq with rfl | hq
      · exact Or.inr hp
      · exact Or.inl hq
    · rcases List.mem_cons.mp hn with rfl | hn
      · refine Or.inr fun Q₀ hQ₀ => ?_
        cases hQ.symm.trans hQ₀
        exact (hext.mem_served List.mem_cons_self).2
      · exact Or.inl hn
  exact hgrow.trans (widened_update hQ₁ hext.subset hext.live_sub hext.pages_old hext.pages_new
      fun _ hn => Or.inl (hext.nodes_eq ▸ hn))

theorem allocLarge_spec (hc : ¬ c.Small) (h : SlabInv L s live pool) (hP : pool c = some P)
    (hQ : pool .gSlab16 = some Q)
    (hcall : allocLargeObjectPool L c allocTries s = .ok (x, s')) :
    ∃ live' pool', Allocated L c live pool x s' live' pool' := by
  rw [allocTries] at hcall
  cases hfree : P.free with
  | cons y f =>
    rw [allocLarge_cons hc h hP hfree] at hcall
    simp only [Except.ok.injEq, Prod.mk.injEq] at hcall
    obtain ⟨rfl, rfl⟩ := hcall
    exact ⟨live, _, (popFree_took h hP hfree).allocated h hP⟩
  | nil =>
    rw [allocLarge_nil hc h hP hfree, bind_eq_ok] at hcall
    obtain ⟨⟨newnode, s₁⟩, hinit, hcall⟩ := hcall
    obtain ⟨live₁, Q', p, hext, hp, h₁⟩ := growLarge_spec hc h hP hQ hfree hinit rfl
    obtain ⟨y, f, hfree₁⟩ := Pool.grow_free_ne_nil (c := c) P p (newnode :: P.nodes)
    have hself := update_self (f := update pool .gSlab16 (some Q')) c
      (some (P.grow c p (newnode :: P.nodes)))
    rw [allocLarge_cons hc h₁ hself hfree₁] at hcall
    simp only [Except.ok.injEq, Prod.mk.injEq] at hcall
    obtain ⟨rfl, rfl⟩ := hcall
    have hall := (popFree_took h₁ hself hfree₁).allocated h₁ hself
    refine ⟨live₁, _, hall.inv, (grown_widened hc hP hQ hext hp).trans hall.widened, ?_,
      hall.object, fun R hR => ?_, hall.not_node⟩
    · rw [update_idem]
      exact .node (ne_gSlab16 hc) hP hQ hfree hext.serves hext.nodes_eq hfree₁
    cases hP.symm.trans hR
    exact hall.fresh (P.grow c p (newnode :: P.nodes)) hself

/-- `kmem_cache_alloc` on any of the caches. -/
theorem kmemCacheAlloc_spec (h : SlabInv L s live pool) (hP : pool c = some P)
    (hQ : pool .gSlab16 = some Q) (hcall : kmemCacheAlloc L c s = .ok (x, s')) :
    ∃ live' pool', Allocated L c live pool x s' live' pool' := by
  have hsize := (h.rep c P hP).size
  by_cases hc : c.Small
  · have hle : ¬ (s.cache c).size > 16 := by
      rw [hsize]
      exact Nat.not_lt.mpr hc
    rw [kmemCacheAlloc, if_neg hle] at hcall
    obtain ⟨live', P', ht⟩ := allocSmall_spec hc h hP hcall
    exact ⟨live', _, ht.allocated h hP⟩
  · have hgt : (s.cache c).size > 16 := by
      rw [hsize]
      exact Nat.not_le.mp hc
    rw [kmemCacheAlloc, if_pos hgt] at hcall
    exact allocLarge_spec hc h hP hQ hcall

/-! ## `slab_init` -/

/-- The fields of a cache that is not in use yet may be set. -/
theorem SlabInv.setCache_of_none (h : SlabInv L s live pool) (hnone : pool c = none)
    (k : KmemCache) : SlabInv L (s.setCache c k) live pool := by
  refine h.keep h.heap (List.Subset.refl _) (fun c' P hP => ?_) fun _ _ _ => ⟨fun _ _ => rfl,
    fun _ _ => rfl⟩
  have hne : c' ≠ c := by
    rintro rfl
    cases hnone.symm.trans hP
  simp [KHeap.setCache, update_of_ne hne]

/-- A cache comes into use with pages that no cache had. -/
theorem SlabInv.create (h : SlabInv L s live pool) (hnone : pool c = none) {nodes : List ℕ}
    {k : KmemCache} (hne : pages ≠ []) (hnodup : pages.Nodup)
    (hspare : ∀ p ∈ pages, Spare live pool p)
    (hnodes : ∀ n ∈ nodes, ∃ Q, pool .gSlab16 = some Q ∧ n ∈ Q.live)
    (hslots : Seg NULL s.word (headSlot c pages) (pages.flatMap (pageSlots c)) NULL)
    (hsize : k.size = c.objSize) (hunit : k.unitsz = c.unit) (hcount : k.allocCount = 0)
    (hsmall : c.Small → Seg NULL s.word k.head pages NULL ∧ nodes = [])
    (hlarge : ¬ c.Small → Seg NULL (fun n => s.word (lnodeNext n)) k.head nodes NULL ∧
      nodes.map s.word = pages) :
    SlabInv L (s.setCache c k) live (update pool c (some (Pool.fresh c pages nodes))) := by
  have hal : ∀ p ∈ pages, PGSIZE ∣ p := fun p hp => h.heap.dvd_page (hspare p hp).held
  refine h.replace h.heap (List.Subset.refl _) ?_ (fun _ _ _ _ => ⟨fun _ _ => rfl, fun _ _ => rfl⟩)
    (PoolOk.fresh nodes hne hal hnodup) ?_ (fun p hp => (hspare p hp).held) ?_ ?_ ?_
  · intro c' hc'
    simp [KHeap.setCache, update_of_ne hc']
  · have hcache : (s.setCache c k).cache c = k := by simp [KHeap.setCache]
    rw [slots_eq_cons hne] at hslots
    rw [hcache]
    exact ⟨hsize, hunit, hcount, hslots.2.2, hsmall, hlarge⟩
  · exact fun p hp c' Q _ hQ => (hspare p hp).out c' Q hQ
  · intro n hn
    obtain ⟨Q, hQ, hlive⟩ := hnodes n hn
    refine ⟨Q, ?_, hlive⟩
    rwa [update_of_ne]
    rintro rfl
    cases hnone.symm.trans hQ
  · intro P hP
    cases hnone.symm.trans hP

theorem kmemCacheCreate_small (hc : c.Small) (h : SlabInv L s live pool) (hnone : pool c = none)
    (hunit : alignUp c.objSize align = c.unit)
    (hcall : kmemCacheCreate L c c.objSize align n s = .ok s') :
    ∃ live' pages, SlabInv L s' live' (update pool c (some (Pool.fresh c pages []))) ∧
      pages ≠ [] := by
  rw [kmemCacheCreate] at hcall
  by_cases halign : align = 0 ∨ align &&& (align - 1) ≠ 0
  · rw [if_pos halign] at hcall
    cases hcall
  · have hle : ¬ c.objSize > 16 := Nat.not_lt.mpr hc
    simp only [if_neg halign, if_neg hle, bind_eq_ok, hunit, pure_eq_ok] at hcall
    obtain ⟨⟨shead, s₁⟩, hinit, rfl⟩ := hcall
    obtain ⟨pages, live', h₁, -, hcache, hlen, hnodup, hspare, hchain, hslots, -⟩ :=
      initSmall_spec hc (h.setCache_of_none hnone _) hinit
    have hne : pages ≠ [] := List.length_pos_iff.mp (by omega)
    have hk : s₁.cache c = ⟨c.objSize, align, c.unit, 0, (s.cache c).head⟩ := by
      rw [hcache]
      simp [KHeap.setCache]
    refine ⟨live', pages, h₁.create hnone hne hnodup (fun p hp => (hspare p hp).1)
      (fun n hn => absurd hn List.not_mem_nil) ?_ ?_ ?_ ?_ (fun _ => ⟨hchain, rfl⟩)
      (fun hl => absurd hc hl), hne⟩
    · rw [slots_eq_cons hne] at hslots ⊢
      exact ⟨rfl, hslots.2⟩
    · rw [hk]
    · rw [hk]
    · rw [hk]

theorem kmemCacheCreate_large (hc : ¬ c.Small) (h : SlabInv L s live pool) (hnone : pool c = none)
    (hQ : pool .gSlab16 = some Q) (hunit : alignUp c.objSize align = c.unit)
    (hcall : kmemCacheCreate L c c.objSize align n s = .ok s') :
    ∃ live' Q' pages nodes, SlabInv L s' live'
      (update (update pool .gSlab16 (some Q')) c
        (some (Pool.fresh c pages nodes))) ∧
      pages ≠ [] ∧ Q.Serves .gSlab16 nodes Q' ∧ Q'.nodes = Q.nodes := by
  rw [kmemCacheCreate] at hcall
  by_cases halign : align = 0 ∨ align &&& (align - 1) ≠ 0
  · rw [if_pos halign] at hcall
    cases hcall
  · have hgt : c.objSize > 16 := Nat.not_le.mp hc
    simp only [if_neg halign, if_pos hgt, bind_eq_ok, hunit, pure_eq_ok] at hcall
    obtain ⟨⟨lhead, s₁⟩, hinit, rfl⟩ := hcall
    obtain ⟨live', Q', pages, nodes, hbuilt, -⟩ :=
      initLarge_spec hc (h.setCache_of_none hnone _) hQ hinit
    have hc16 := ne_gSlab16 hc
    have hk : s₁.cache c = ⟨c.objSize, align, c.unit, 0, (s.cache c).head⟩ := by
      rw [hbuilt.ext.cache c hc16]
      simp [KHeap.setCache]
    refine ⟨live', Q', pages, nodes, hbuilt.ext.inv.create ?_ hbuilt.pages_ne hbuilt.nodup
      hbuilt.spare (fun n hn => ⟨Q', update_self _ _ _, (hbuilt.ext.mem_served hn).1⟩)
      hbuilt.slots ?_ ?_ ?_ (fun hs => absurd hs hc) (fun _ => ⟨hbuilt.links, hbuilt.map⟩),
      hbuilt.pages_ne, hbuilt.ext.serves, hbuilt.ext.nodes_eq⟩
    · rw [update_of_ne hc16]
      exact hnone
    · rw [hk]
    · rw [hk]
    · rw [hk]

/-- No caller holds an object, and every slot is accounted for. -/
def Untouched (pool : CacheId → Option Pool) : Prop :=
  Balanced (fun _ => []) pool ∧ ∀ c P, pool c = some P → P.Covered c

/-- The caches of the list are in use. -/
def CachesUp (L : Layout) (s : KHeap) (cs : List CacheId) : Prop :=
  ∃ live pool, SlabInv L s live pool ∧ Untouched pool ∧ ∀ c, (∃ P, pool c = some P) ↔ c ∈ cs

theorem cachesUp_nil (h : HeapInv L ⟨s.mem.buddy, live⟩) : CachesUp L s [] := by
  refine ⟨live, fun _ => none, ⟨h, ?_, ?_, ?_, ?_, ?_⟩, ⟨?_, ?_⟩, by simp⟩ <;> simp [Balanced]

theorem SlabInv.nodesOf_eq_nil (h : SlabInv L s live pool) (hnone : pool .gSlab16 = none) :
    nodesOf pool = [] := by
  rw [nodesOf, List.flatMap_eq_nil_iff]
  intro c' _
  cases hP : pool c' with
  | none => simp [nodesAt, hP]
  | some P =>
    simp only [nodesAt, hP, Option.elim_some]
    rw [List.eq_nil_iff_forall_not_mem]
    intro n hn
    obtain ⟨Q, hQ, -⟩ := h.nodes_live c' P n hP hn
    cases hnone.symm.trans hQ

theorem covered_update (h : ∀ c' R, pool c' = some R → R.Covered c')
    (hP' : P'.Covered c) :
    ∀ c' R, update pool c (some P') c' = some R → R.Covered c' := by
  intro c' R hR
  rcases eq_some_of_update hR with ⟨rfl, rfl⟩ | ⟨-, hR⟩
  · exact hP'
  · exact h c' R hR

theorem Untouched.create_small (h : Untouched pool) (hslab : SlabInv L s live pool)
    (hnone : pool c = none) (hne : pages ≠ []) :
    Untouched (update pool c (some (Pool.fresh c pages []))) := by
  have hnodes : (nodesOf (update pool c (some (Pool.fresh c pages [])))).Perm
      (nodesOf pool) := by
    apply nodesOf_update _ _ _ []
    simp [nodesAt, hnone, Pool.fresh]
  refine ⟨fun c' R hR => ?_, covered_update h.2 (Pool.Covered.fresh [] hne)⟩
  rcases eq_some_of_update hR with ⟨rfl, rfl⟩ | ⟨-, hR⟩
  · split
    · next h16 =>
      subst h16
      rw [hslab.nodesOf_eq_nil hnone] at hnodes
      exact hnodes.symm
    · exact List.Perm.refl _
  · refine (h.1 c' R hR).trans ?_
    split
    · exact hnodes.symm
    · exact List.Perm.refl _

theorem Untouched.create_large (h : Untouched pool) (hc : ¬ c.Small) (hnone : pool c = none)
    (hQ : pool .gSlab16 = some Q) {Q' : Pool} {nodes : List ℕ} (hne : pages ≠ [])
    (hserves : Q.Serves .gSlab16 nodes Q') (hnodes : Q'.nodes = Q.nodes) :
    Untouched (update (update pool .gSlab16 (some Q')) c
      (some (Pool.fresh c pages nodes))) := by
  constructor
  · have hfresh : (Pool.fresh c pages nodes).nodes = nodes ++ nodesAt pool c := by
      simp [nodesAt, hnone, Pool.fresh]
    have hbal := h.1.take_nodes (l := []) (ne_gSlab16 hc) hQ hserves hnodes hfresh
      (List.Perm.refl _)
    rwa [update_eq_self] at hbal
  · exact covered_update (covered_update h.2 (hserves.covered (h.2 _ Q hQ)))
      (Pool.Covered.fresh nodes hne)

theorem mem_cons_iff_update {cs : List CacheId} {pool : CacheId → Option Pool}
    (h : ∀ c, (∃ P, pool c = some P) ↔ c ∈ cs) (c c' : CacheId) (P : Pool) :
    (∃ R, update pool c (some P) c' = some R) ↔ c' ∈ c :: cs := by
  by_cases hc : c' = c
  · subst hc
    simp
  · rw [update_of_ne hc, h c', List.mem_cons, or_iff_right hc]

/-- One call of `kmem_cache_create` in `slab_init`. -/
theorem CachesUp.create {cs : List CacheId} (h : CachesUp L s cs) (hnew : c ∉ cs)
    (h16 : c.Small ∨ .gSlab16 ∈ cs) (hunit : alignUp c.objSize align = c.unit)
    (hcall : kmemCacheCreate L c c.objSize align n s = .ok s') : CachesUp L s' (c :: cs) := by
  obtain ⟨live, pool, hinv, huntouched, hup⟩ := h
  have hnone : pool c = none := by
    rw [Option.eq_none_iff_forall_not_mem]
    exact fun P hP => hnew ((hup c).mp ⟨P, hP⟩)
  by_cases hc : c.Small
  · obtain ⟨live', pages, hinv', hne⟩ := kmemCacheCreate_small hc hinv hnone hunit hcall
    exact ⟨live', _, hinv', huntouched.create_small hinv hnone hne,
      fun c' => mem_cons_iff_update hup c c' _⟩
  · have hmem := h16.resolve_left hc
    obtain ⟨Q, hQ⟩ := (hup .gSlab16).mpr hmem
    obtain ⟨live', Q', pages, nodes, hinv', hne, hserves, hnodes⟩ :=
      kmemCacheCreate_large hc hinv hnone hQ hunit hcall
    refine ⟨live', _, hinv', huntouched.create_large hc hnone hQ hne hserves hnodes,
      fun c' => ?_⟩
    refine mem_cons_iff_update (fun c₁ => ?_) c c' _
    rw [mem_cons_iff_update hup .gSlab16 c₁ Q']
    constructor
    · intro hc₁
      rcases List.mem_cons.mp hc₁ with rfl | hc₁
      · exact hmem
      · exact hc₁
    · exact List.mem_cons_of_mem _

/-- After `slab_init` every cache is in use. -/
theorem slabInit_spec (h : HeapInv L ⟨s.mem.buddy, live⟩) (hcall : slabInit L s = .ok s') :
    ∃ live' pool, SlabInv L s' live' pool ∧ Untouched pool ∧ ∀ c, ∃ P, pool c = some P := by
  simp only [slabInit, bind_eq_ok] at hcall
  obtain ⟨s₁, h₁, s₂, h₂, s₃, h₃, s₄, h₄, s₅, h₅, s₆, h₆, s₇, h₇, s₈, h₈, s₉, h₉, h₁₀⟩ := hcall
  have u₁ := (cachesUp_nil h).create (by decide) (Or.inl (by decide)) (by decide) h₁
  have u₂ := u₁.create (by decide) (Or.inl (by decide)) (by decide) h₂
  have u₃ := u₂.create (by decide) (Or.inr (by decide)) (by decide) h₃
  have u₄ := u₃.create (by decide) (Or.inr (by decide)) (by decide) h₄
  have u₅ := u₄.create (by decide) (Or.inr (by decide)) (by decide) h₅
  have u₆ := u₅.create (by decide) (Or.inr (by decide)) (by decide) h₆
  have u₇ := u₆.create (by decide) (Or.inr (by decide)) (by decide) h₇
  have u₈ := u₇.create (by decide) (Or.inr (by decide)) (by decide) h₈
  have u₉ := u₈.create (by decide) (Or.inr (by decide)) (by decide) h₉
  obtain ⟨live', pool, hinv, huntouched, hup⟩ :=
    u₉.create (by decide) (Or.inr (by decide)) (by decide) h₁₀
  exact ⟨live', pool, hinv, huntouched, fun c => (hup c).mpr (by cases c <;> decide)⟩

end LearnOS
