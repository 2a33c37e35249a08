import LearnOS.Slab.Alloc

/-!
# Large pools

The pages of a large pool are linked by nodes that are live objects of
`g_slab_16`. Building such a pool therefore changes two caches: pages are taken
from `kalloc`, nodes from `g_slab_16`.
-/

namespace LearnOS

open LinkedList Slots BuddySystem Ownership Function Kres

variable {L : Layout} {s s' : KHeap} {live live' : List (ℕ × ℕ)} {pool : CacheId → Option Pool}
  {c : CacheId} {P Q Q' : Pool}
  {a n cur node : ℕ}

/-! ## Nodes -/

/-- The holder of an object may write it. -/
theorem SlabInv.storeObject (h : SlabInv L s live pool) (hP : pool c = some P) {x : ℕ}
    (hx : x ∈ P.live) (hnot : ¬ IsNode pool x) (hle : x ≤ a) (hlt : a < x + c.unit) (v : ℕ) :
    SlabInv L (s.store a v) live pool := by
  refine h.keep h.heap (List.Subset.refl _) (fun _ _ _ => rfl) fun c' P' hP' => ?_
  obtain ⟨hown, hnode⟩ := h.not_read_of_object hP hx hnot hle hlt hP'
  constructor
  · intro b hb
    have hne : b ≠ a := by
      rintro rfl
      exact hown hb
    simp [KHeap.store, update_of_ne hne]
  · intro b hb
    have hne : b ≠ a := by
      rintro rfl
      exact hnode hb
    simp [KHeap.store, update_of_ne hne]

theorem Extended.refl (h : SlabInv L s live pool) (hP : pool c = some P) :
    Extended L c s live pool P [] s live P where
  inv := by rwa [← hP, update_eq_self]
  serves := .done P
  nodes_eq := rfl
  pages_old := List.Subset.refl _
  pages_new _ hp := Or.inl hp
  subset := List.Subset.refl _
  cache _ _ := rfl

theorem Extended.trans {s₂ : KHeap} {live₂ : List (ℕ × ℕ)} {P' P₂ : Pool} {xs ys : List ℕ}
    (h : Extended L c s live pool P xs s' live' P')
    (h' : Extended L c s' live' (update pool c (some P')) P' ys s₂ live₂ P₂) :
    Extended L c s live pool P (xs ++ ys) s₂ live₂ P₂ where
  inv := by
    have hinv := h'.inv
    rwa [update_idem] at hinv
  serves := h.serves.trans h'.serves
  nodes_eq := h'.nodes_eq.trans h.nodes_eq
  pages_old := List.Subset.trans h.pages_old h'.pages_old
  pages_new p hp := by
    rcases h'.pages_new p hp with hmid | hnew
    · exact h.pages_new p hmid
    · exact Or.inr fun hmem => hnew (h.subset hmem)
  subset := List.Subset.trans h.subset h'.subset
  cache c' hc' := (h'.cache c' hc').trans (h.cache c' hc')

/-- The heap may change as long as the pools and the caches stay. -/
theorem Extended.move {s₂ : KHeap} {live₂ : List (ℕ × ℕ)} {P' : Pool} {xs : List ℕ}
    (h : Extended L c s live pool P xs s' live' P')
    (hinv : SlabInv L s₂ live₂ (update pool c (some P'))) (hsub : live' ⊆ live₂)
    (hcache : s₂.cache = s'.cache) : Extended L c s live pool P xs s₂ live₂ P' where
  inv := hinv
  serves := h.serves
  nodes_eq := h.nodes_eq
  pages_old := h.pages_old
  pages_new := h.pages_new
  subset := List.Subset.trans h.subset hsub
  cache c' hc' := (congrFun hcache c').trans (h.cache c' hc')

section Extended

variable {xs : List ℕ} {P' : Pool} (h : Extended L c s live pool P xs s' live' P')

include h

theorem Extended.live_sub : P.live ⊆ P'.live := by
  rw [h.serves.live_eq]
  exact List.subset_append_right _ _

/-- The objects that are handed out are new. -/
theorem Extended.mem_served {x : ℕ} (hx : x ∈ xs) : x ∈ P'.live ∧ x ∉ P.live := by
  have hnodup := (h.inv.ok c P' (update_self _ _ _)).live_nodup
  have hx' := List.mem_reverse.mpr hx
  rw [h.serves.live_eq] at hnodup ⊢
  exact ⟨List.mem_append_left _ hx',
    fun hold => (List.nodup_append.mp hnodup).2.2 x hx' x hold rfl⟩

/-- A new object is not a node of any pool. -/
theorem Extended.not_isNode (hs : SlabInv L s live pool) (hP : pool .gSlab16 = some P)
    (hc : c = .gSlab16) (hn : n ∉ P.live) : ¬ IsNode (update pool c (some P')) n := by
  subst hc
  intro hnode
  obtain ⟨c', R, hR, hmem⟩ := isNode_of_update hP h.nodes_eq hnode
  obtain ⟨Q, hQ, hlive⟩ := hs.nodes_live c' R n hR hmem
  cases hP.symm.trans hQ
  exact hn hlive

theorem Extended.spare (hP : pool c = some P) {p : ℕ} (hp : Spare live pool p) :
    Spare live' (update pool c (some P')) p where
  held := h.subset hp.held
  out c' R hR hmem := by
    rcases eq_some_of_update hR with ⟨rfl, rfl⟩ | ⟨-, hR⟩
    · exact (h.pages_new p hmem).elim (hp.out _ P hP) fun hnew => hnew hp.held
    · exact hp.out c' R hR hmem

theorem Extended.apart (ha : (paToPage a, 0) ∈ live) (hwhere : P.Apart c n a) :
    P'.Apart c n a := by
  rcases hwhere with hout | ⟨y, hy, hrange⟩
  · exact Or.inl fun hmem => (h.pages_new _ hmem).elim hout fun hnew => hnew ha
  · exact Or.inr ⟨y, h.live_sub hy, hrange⟩

end Extended

theorem Pool.Apart.of_new {m : ℕ} (h : P.Apart c m a) (hn : n ∉ P.live) : P.Apart c n a := by
  rcases h with hout | ⟨y, hy, -, hrange⟩
  · exact Or.inl hout
  · exact Or.inr ⟨y, hy, fun heq => hn (heq ▸ hy), hrange⟩

theorem allocNode_spec (h : SlabInv L s live pool) (hQ : pool .gSlab16 = some Q)
    (hcall : allocNode L s = .ok (n, s')) :
    ∃ live' Q', Took L .gSlab16 s live pool Q n s' live' Q' := by
  have hsize : ¬ (s.cache .gSlab16).size > 16 := by
    rw [(h.rep _ Q hQ).size]
    decide
  rw [allocNode, if_neg hsize] at hcall
  exact allocSmall_spec (by decide) h hQ hcall

/-! ## Pages of a large pool -/

theorem lnodeNext_range (n : ℕ) : n ≤ lnodeNext n ∧ lnodeNext n < n + CacheId.unit .gSlab16 := by
  rw [show CacheId.unit .gSlab16 = 16 from rfl, lnodeNext]
  omega

theorem SlabInv.node_page (h : SlabInv L s live pool) (hQ : pool .gSlab16 = some Q)
    (hn : n ∈ Q.live) : paToPage n ∈ Q.pages ∧ paToPage (lnodeNext n) ∈ Q.pages := by
  have hok := h.ok _ Q hQ
  have hunit : CacheId.unit .gSlab16 = 16 := rfl
  constructor
  · exact page_of_object hok.aligned (hok.live_slot hn) le_rfl (by omega)
  · exact page_of_object hok.aligned (hok.live_slot hn) (lnodeNext_range n).1 (lnodeNext_range n).2

/-- The words of a node are not in a spare page. -/
theorem SlabInv.node_ne_spare (h : SlabInv L s live pool) (hQ : pool .gSlab16 = some Q) {p : ℕ}
    (hp : Spare live pool p) (hn : n ∈ Q.live) : paToPage n ≠ p ∧ paToPage (lnodeNext n) ≠ p := by
  obtain ⟨h1, h2⟩ := h.node_page hQ hn
  exact ⟨fun heq => hp.out _ Q hQ (heq ▸ h1), fun heq => hp.out _ Q hQ (heq ▸ h2)⟩

/-- A word elsewhere is not a word of the node. -/
theorem SlabInv.node_disjoint (h : SlabInv L s live pool) (hQ : pool .gSlab16 = some Q)
    (hwhere : Q.Apart .gSlab16 n a) (hn : n ∈ Q.live) : a ≠ n ∧ a ≠ lnodeNext n := by
  have hok := h.ok _ Q hQ
  have hunit : CacheId.unit .gSlab16 = 16 := rfl
  rcases hwhere with hout | ⟨m, hm, hne, hle, hlt⟩
  · obtain ⟨h1, h2⟩ := h.node_page hQ hn
    exact ⟨fun heq => hout (heq ▸ h1), fun heq => hout (heq ▸ h2)⟩
  · have hunique := fun hle' hlt' => hne (object_unique hok.aligned (hok.live_slot hm)
      (hok.live_slot hn) hle hlt hle' hlt')
    constructor
    · rintro rfl
      exact hunique le_rfl (by omega)
    · rintro rfl
      exact hunique (lnodeNext_range n).1 (lnodeNext_range n).2

/-- Only the page, the node and free slots of `g_slab_16` have been written, apart
from pages that were not in use. -/
def Steady (live : List (ℕ × ℕ)) (Q : Pool) (cur node : ℕ) (s s' : KHeap) : Prop :=
  ∀ a, (paToPage a, 0) ∈ live → paToPage a ≠ cur → Q.Apart .gSlab16 node a → s'.word a = s.word a

/-- One round of the loop that builds a large pool, up to the next page. -/
structure LargeRound (L : Layout) (c : CacheId) (s : KHeap) (live : List (ℕ × ℕ))
    (pool : CacheId → Option Pool) (Q : Pool) (cur node newpg newnode : ℕ) (s' : KHeap)
    (live' : List (ℕ × ℕ)) (Q' : Pool) : Prop where
  ext : Extended L .gSlab16 s live pool Q [newnode] s' live' Q'
  newpg_new : (newpg, 0) ∉ live
  newpg_spare : Spare live' (update pool .gSlab16 (some Q')) newpg
  newnode_word : s'.word newnode = newpg
  node_word : s'.word node = cur
  node_next : s'.word (lnodeNext node) = newnode
  slots : Seg NULL s'.word (cur + c.firstSlot * c.unit) (pageSlots c cur) newpg
  steady : Steady live Q cur node s s'

theorem store_word_of_ne {b v : ℕ} (h : b ≠ a) : (s.store a v).word b = s.word b := by
  simp [KHeap.store, update_of_ne h]

theorem store_word_self {v : ℕ} : (s.store a v).word a = v := by
  simp [KHeap.store]

theorem largeRound_spec {newpg newnode : ℕ} {s₃ s₄ : KHeap}
    (h : SlabInv L s live pool) (hQ : pool .gSlab16 = some Q) (hcur : Spare live pool cur)
    (hnode : node ∈ Q.live) (hnot : ¬ IsNode pool node)
    (hpage : ((linkSlots cur c.unit (lastSlot c.unit) 0 s).store node cur).allocPage L =
      .ok (newpg, s₃))
    (hcall : allocNode L s₃ = .ok (newnode, s₄)) :
    ∃ live' Q', LargeRound L c s live pool Q cur node newpg newnode
      (((s₄.store newnode newpg).store (lnodeNext node) newnode).store
        (cur + lastSlot c.unit * c.unit) newpg) live' Q' := by
  have hunit : CacheId.unit .gSlab16 = 16 := rfl
  have hdvd := h.heap.dvd_page hcur.held
  have hpos := h.heap.page_pos hcur.held
  have hlink : OnlyPage cur s (linkSlots cur c.unit (lastSlot c.unit) 0 s) :=
    linkSlots_onlyPage hdvd (by omega)
  have h₂ := (h.onlyPage hcur hlink).storeObject hQ hnode hnot le_rfl (by omega) cur
  obtain ⟨hnew, h₃, hcache₃, hword₃⟩ := allocPage_spec h₂ hpage
  obtain ⟨live', Q', ht⟩ := allocNode_spec h₃ hQ hcall
  obtain ⟨hlive', hnodenew⟩ := ht.mem_served List.mem_cons_self
  have hnodenot := ht.not_isNode h₃ hQ rfl hnodenew
  have hQ' : update pool .gSlab16 (some Q') .gSlab16 = some Q' := update_self _ _ _
  have hnode' : node ∈ Q'.live := ht.live_sub hnode
  have hnot' : ¬ IsNode (update pool .gSlab16 (some Q')) node :=
    fun hn => hnot (isNode_of_update hQ ht.nodes_eq hn)
  have hnn : node ≠ newnode := fun heq => hnodenew (heq ▸ hnode)
  have h₆ := (ht.inv.storeObject hQ' hlive' hnodenot le_rfl (by omega) newpg).storeObject hQ' hnode'
    hnot' (lnodeNext_range node).1 (lnodeNext_range node).2 newnode
  have hcur₃ : Spare ((newpg, 0) :: live) pool cur := ⟨List.mem_cons_of_mem _ hcur.held, hcur.out⟩
  have hcur' := ht.spare hQ hcur₃
  have hcurQ := fun n hn => ht.inv.node_ne_spare hQ' (n := n) hcur' hn
  have hold : ∀ a, (paToPage a, 0) ∈ live → Q.Apart .gSlab16 newnode a →
      s₄.word a = ((linkSlots cur c.unit (lastSlot c.unit) 0 s).store node cur).word a := by
    intro a ha hwhere
    rw [ht.frame a (List.mem_cons_of_mem _ ha) hwhere]
    exact hword₃ a fun heq => hnew (heq ▸ ha)
  have hsame : ∀ a, paToPage a = cur →
      ((s₄.store newnode newpg).store (lnodeNext node) newnode).word a =
        (linkSlots cur c.unit (lastSlot c.unit) 0 s).word a := by
    intro a ha
    have hne : ∀ b, paToPage b ≠ cur → a ≠ b := fun b hb heq => hb (heq ▸ ha)
    rw [store_word_of_ne (hne _ (hcurQ node hnode').2), store_word_of_ne (hne _ (hcurQ _ hlive').1),
      hold a (ha ▸ hcur.held) (Or.inl (ha ▸ hcur.out _ Q hQ)),
      store_word_of_ne (hne _ (hcurQ node hnode').1)]
  obtain ⟨hoff, hslots⟩ := large_page_linked (t := newpg) hpos hdvd hsame
  have hwords : ∀ a, a ≠ newnode → a ≠ lnodeNext node → paToPage a ≠ cur →
      (((s₄.store newnode newpg).store (lnodeNext node) newnode).store
        (cur + lastSlot c.unit * c.unit) newpg).word a = s₄.word a := by
    intro a h1 h2 h3
    rw [hoff.word a h3, store_word_of_ne h2, store_word_of_ne h1]
  refine ⟨live', Q', ⟨⟨h₆.onlyPage hcur' hoff, ht.serves, ht.nodes_eq, ht.pages_old, ?_, ?_, ?_⟩,
    hnew, ht.spare hQ (Spare.of_new h₂ hnew), ?_, ?_, ?_, hslots, ?_⟩⟩
  · intro p hp
    exact (ht.pages_new p hp).imp_right fun hq hmem => hq (List.mem_cons_of_mem _ hmem)
  · exact fun b hb => ht.subset (List.mem_cons_of_mem _ hb)
  · intro c' hc'
    exact (ht.cache c' hc').trans ((congrFun hcache₃ c').trans (congrFun hlink.cache c'))
  · have hne := (ht.inv.node_disjoint hQ'
      (Or.inr ⟨newnode, hlive', hnn.symm, le_rfl, by omega⟩) hnode').2
    rw [hoff.word _ (hcurQ newnode hlive').1, store_word_of_ne hne, store_word_self]
  · have hne : node ≠ lnodeNext node := by
      simp only [lnodeNext]
      omega
    rw [hwords node hnn hne (hcurQ node hnode').1,
      hold node (h.held _ Q _ hQ (h.node_page hQ hnode).1)
        (Or.inr ⟨node, hnode, hnn, le_rfl, by omega⟩), store_word_self]
  · rw [hoff.word _ (hcurQ node hnode').2, store_word_self]
  · intro a ha hcura hwhere
    have hapart := fun n h => ht.apart (n := n) (List.mem_cons_of_mem (newpg, 0) ha) h
    have hwhere' := hwhere.of_new hnodenew
    have hnewnode := ht.inv.node_disjoint hQ' (hapart _ hwhere') hlive'
    have hnodeword := ht.inv.node_disjoint hQ' (hapart _ hwhere) hnode'
    rw [hwords a hnewnode.1 hnodeword.2 hcura, hold a ha hwhere',
      store_word_of_ne hnodeword.1, hlink.word a hcura]

/-- The pages and nodes that `init_large_object_pool` and its loop string
together. -/
structure LargeChain (c : CacheId) (word : ℕ → ℕ) (cur node : ℕ) (pages nodes : List ℕ)
    (last lastnode : ℕ) : Prop where
  links : Seg NULL (fun n => word (lnodeNext n)) node nodes lastnode
  map : nodes.map word = pages
  slots : Seg NULL word (cur + c.firstSlot * c.unit) (pages.flatMap (pageSlots c))
    (last + c.firstSlot * c.unit)

theorem largePages_spec (hc : ¬ c.Small) {last lastnode : ℕ} (h : SlabInv L s live pool)
    (hQ : pool .gSlab16 = some Q) (hcur : Spare live pool cur) (hnode : node ∈ Q.live)
    (hnot : ¬ IsNode pool node) (hword : s.word node = cur)
    (hcall : largePages L c.unit n cur node s = .ok (last, lastnode, s')) :
    ∃ pre npre xs live' Q', Extended L .gSlab16 s live pool Q xs s' live' Q' ∧
      npre ++ [lastnode] = node :: xs ∧ pre.length = n ∧
      NewPages live live' (update pool .gSlab16 (some Q')) cur (pre ++ [last]) ∧
      LargeChain c s'.word cur node pre npre last lastnode ∧ s'.word lastnode = last ∧
      Steady live Q cur node s s' := by
  induction n generalizing s cur node live pool Q with
  | zero =>
    simp only [largePages, Except.ok.injEq, Prod.mk.injEq] at hcall
    obtain ⟨rfl, rfl, rfl⟩ := hcall
    refine ⟨[], [], [], live, Q, Extended.refl h hQ, rfl, rfl, ⟨?_, by simp, by simp⟩,
      ⟨rfl, rfl, rfl⟩, hword, fun _ _ _ _ => rfl⟩
    rw [← hQ, update_eq_self]
    simpa using hcur
  | succ n ih =>
    simp only [largePages, bind_eq_ok] at hcall
    obtain ⟨⟨newpg, s₃⟩, hpage, ⟨newnode, s₄⟩, hnodecall, hcall⟩ := hcall
    obtain ⟨live₁, Q₁, hround⟩ := largeRound_spec h hQ hcur hnode hnot hpage hnodecall
    simp only at hcall
    generalize ((s₄.store newnode newpg).store (lnodeNext node) newnode).store
      (cur + lastSlot c.unit * c.unit) newpg = s₇ at hround hcall
    have hQ₁ : update pool .gSlab16 (some Q₁) .gSlab16 = some Q₁ :=
      update_self _ _ _
    obtain ⟨hlive₁, hnew₁⟩ := hround.ext.mem_served List.mem_cons_self
    obtain ⟨pre, npre, xs, live', Q', hext, htaken, hlen, hpages, hchain, hlast, hsteady⟩ :=
      ih hround.ext.inv hQ₁ hround.newpg_spare hlive₁ (hround.ext.not_isNode h hQ rfl hnew₁)
        hround.newnode_word hcall
    have hall := hround.ext.trans hext
    have hnode₁ := hround.ext.live_sub hnode
    have hcur₁ := hround.ext.spare hQ hcur
    have hobject : ∀ a, node ≤ a → a < node + CacheId.unit .gSlab16 →
        s'.word a = s₇.word a := by
      intro a hle hlt
      have hok₁ := hround.ext.inv.ok _ Q₁ hQ₁
      have hin := page_of_object hok₁.aligned (hok₁.live_slot hnode₁) hle hlt
      exact hsteady a (hround.ext.inv.held _ Q₁ _ hQ₁ hin)
        (fun heq => hround.newpg_spare.out _ Q₁ hQ₁ (heq ▸ hin))
        (Or.inr ⟨node, hnode₁, fun heq => hnew₁ (heq ▸ hnode), hle, hlt⟩)
    have hcurpage : ∀ a, paToPage a = cur → s'.word a = s₇.word a := by
      rintro a rfl
      exact hsteady a hcur₁.held (fun heq => hround.newpg_new (heq ▸ hcur.held))
        (Or.inl (hcur₁.out _ Q₁ hQ₁))
    refine ⟨cur :: pre, node :: npre, newnode :: xs, live', Q', hall, by simp [htaken],
      by rw [List.length_cons, hlen], ?_, ⟨?_, ?_, ?_⟩, hlast, ?_⟩
    · rw [update_idem] at hpages
      exact hpages.cons hround.ext.subset hround.newpg_new hcur.held (hall.spare hQ hcur)
    · refine ⟨rfl, h.object_ne_null hQ hnode, ?_⟩
      simp only
      rw [hobject _ (lnodeNext_range node).1 (lnodeNext_range node).2, hround.node_next]
      exact hchain.links
    · rw [List.map_cons, hchain.map,
        hobject node le_rfl (Nat.lt_add_of_pos_right (CacheId.unit_pos _)), hround.node_word]
    · rw [List.flatMap_cons]
      refine (hround.slots.congr fun a ha => hcurpage a ?_).append ?_
      · obtain ⟨j, -, hj, rfl⟩ := mem_pageSlots.mp ha
        exact paToPage_slot (h.heap.dvd_page hcur.held) hj
      · have hslots := hchain.slots
        rw [CacheId.firstSlot, if_neg hc, Nat.zero_mul, Nat.add_zero] at hslots ⊢
        exact hslots
    · intro a ha hacur hwhere
      rw [← hround.steady a ha hacur hwhere]
      exact hsteady a (hround.ext.subset ha) (fun heq => hround.newpg_new (heq ▸ ha))
        (hround.ext.apart ha (hwhere.of_new hnew₁))

/-- What `init_large_object_pool` builds. -/
structure LargeBuilt (L : Layout) (c : CacheId) (s : KHeap) (live : List (ℕ × ℕ))
    (pool : CacheId → Option Pool) (Q : Pool) (s' : KHeap) (live' : List (ℕ × ℕ)) (Q' : Pool)
    (result : ℕ) (pages nodes : List ℕ) : Prop where
  ext : Extended L .gSlab16 s live pool Q nodes s' live' Q'
  pages_ne : pages ≠ []
  nodup : pages.Nodup
  spare : ∀ p ∈ pages, Spare live' (update pool .gSlab16 (some Q')) p
  new : ∀ p ∈ pages, (p, 0) ∉ live
  links : Seg NULL (fun n => s'.word (lnodeNext n)) result nodes NULL
  map : nodes.map s'.word = pages
  slots : Seg NULL s'.word (headSlot c pages) (pages.flatMap (pageSlots c)) NULL

/-- The last page and the last node are closed off. -/
theorem close_large (h : SlabInv L s live pool) (hQ : pool .gSlab16 = some Q)
    (hcur : Spare live pool cur) (hnode : node ∈ Q.live) (hnot : ¬ IsNode pool node) :
    let s' := ((linkSlots cur c.unit (lastSlot c.unit) 0 s).store (lnodeNext node) NULL).store
      (cur + lastSlot c.unit * c.unit) NULL
    SlabInv L s' live pool ∧ s'.cache = s.cache ∧ s'.word (lnodeNext node) = NULL ∧
      Seg NULL s'.word (cur + c.firstSlot * c.unit) (pageSlots c cur) NULL ∧
      ∀ a, paToPage a ≠ cur → a ≠ lnodeNext node → s'.word a = s.word a := by
  have hdvd := h.heap.dvd_page hcur.held
  have hpos := h.heap.page_pos hcur.held
  have hlink : OnlyPage cur s (linkSlots cur c.unit (lastSlot c.unit) 0 s) :=
    linkSlots_onlyPage hdvd (by omega)
  have hnodepage := (h.node_ne_spare hQ hcur hnode).2
  have h₁ := (h.onlyPage hcur hlink).storeObject hQ hnode hnot (lnodeNext_range node).1
    (lnodeNext_range node).2 NULL
  obtain ⟨hoff, hslots⟩ := large_page_linked (c := c) (s := s) (t := NULL)
    (r := (linkSlots cur c.unit (lastSlot c.unit) 0 s).store (lnodeNext node) NULL) hpos hdvd (by
      intro a ha
      apply store_word_of_ne
      rintro rfl
      exact hnodepage ha)
  refine ⟨h₁.onlyPage hcur hoff, hoff.cache.trans hlink.cache, ?_, hslots, ?_⟩
  · rw [hoff.word _ hnodepage, store_word_self]
  · intro a hacur hane
    rw [hoff.word a hacur, store_word_of_ne hane, hlink.word a hacur]

theorem initLarge_spec (hc : ¬ c.Small) {result : ℕ} (h : SlabInv L s live pool)
    (hQ : pool .gSlab16 = some Q)
    (hcall : initLargeObjectPool L c.unit n s = .ok (result, s')) :
    ∃ live' Q' pages nodes, LargeBuilt L c s live pool Q s' live' Q' result pages nodes ∧
      pages.length = n - 1 + 1 := by
  simp only [initLargeObjectPool, bind_eq_ok, pure_eq_ok,
    Prod.mk.injEq] at hcall
  obtain ⟨⟨result', s₁⟩, hnodecall, ⟨firstpg, s₂⟩, hpage, ⟨last, lastnode, s₄⟩, hloop, rfl, rfl⟩ :=
    hcall
  have hunit : CacheId.unit .gSlab16 = 16 := rfl
  obtain ⟨live₁, Q₁, ht⟩ := allocNode_spec h hQ hnodecall
  obtain ⟨hresult, hnodenew⟩ := ht.mem_served List.mem_cons_self
  have hnodenot := ht.not_isNode h hQ rfl hnodenew
  have hQ₁ : update pool .gSlab16 (some Q₁) .gSlab16 = some Q₁ := update_self _ _ _
  obtain ⟨hnew, h₂, hcache₂, hword₂⟩ := allocPage_spec ht.inv hpage
  have h₃ := h₂.storeObject hQ₁ hresult hnodenot le_rfl (by omega) firstpg
  obtain ⟨pre, npre, xs, live', Q', hext, htaken, hlen, hpages, hchain, hlast, -⟩ :=
    largePages_spec hc h₃ hQ₁ (Spare.of_new ht.inv hnew) hresult hnodenot store_word_self hloop
  have hall := (ht.move h₃ (List.subset_cons_self _ _) hcache₂).trans hext
  rw [List.singleton_append, ← htaken] at hall
  rw [update_idem] at hpages
  have hQ' : update pool .gSlab16 (some Q') .gSlab16 = some Q' := update_self _ _ _
  have hlastspare := hpages.spare last (by simp)
  obtain ⟨hlastnode, hlastnew⟩ := hall.mem_served (x := lastnode) (by simp)
  obtain ⟨h₇, hcache₇, hnext, hslots, hkeep⟩ := close_large (c := c) hall.inv hQ' hlastspare
    hlastnode (hall.not_isNode h hQ rfl hlastnew)
  generalize ((linkSlots last c.unit (lastSlot c.unit) 0 s₄).store (lnodeNext lastnode) NULL).store
    (last + lastSlot c.unit * c.unit) NULL = s₇ at h₇ hcache₇ hnext hslots hkeep ⊢
  have hnewpages : ∀ p ∈ pre ++ [last], (p, 0) ∉ live := by
    intro p hp hmem
    rcases hpages.new p hp with rfl | hold
    · exact hnew (ht.subset hmem)
    · exact hold (List.mem_cons_of_mem _ (ht.subset hmem))
  have hpre : ∀ p ∈ pre, p ≠ last := by
    rintro p hp rfl
    exact (List.nodup_append.mp hpages.nodup).2.2 p hp p (by simp) rfl
  have hnpre : ∀ m ∈ npre, m ≠ lastnode := by
    rintro m hm rfl
    refine hpre last ?_ rfl
    rw [← hchain.map, ← hlast]
    exact List.mem_map_of_mem hm
  have hnodepage := fun m hm => hall.inv.node_ne_spare hQ' (n := m) hlastspare hm
  have hnodeword : ∀ m ∈ npre, s₇.word m = s₄.word m ∧
      s₇.word (lnodeNext m) = s₄.word (lnodeNext m) := by
    intro m hm
    have hmlive := (hall.mem_served (List.mem_append_left _ hm)).1
    have hdisj := fun a hle hlt => (hall.inv.node_disjoint hQ' (a := a)
      (Or.inr ⟨m, hmlive, hnpre m hm, hle, hlt⟩) hlastnode).2
    exact ⟨hkeep m (hnodepage m hmlive).1 (hdisj m le_rfl (by omega)),
      hkeep _ (hnodepage m hmlive).2 (hdisj _ (lnodeNext_range m).1 (lnodeNext_range m).2)⟩
  refine ⟨live', Q', pre ++ [last], npre ++ [lastnode],
    ⟨hall.move h₇ (List.Subset.refl _) hcache₇, by simp, hpages.nodup, hpages.spare,
      hnewpages, ?_, ?_, ?_⟩, by simp [hlen]⟩
  · exact (hchain.links.congr fun m hm => (hnodeword m hm).2).append
      ⟨rfl, hall.inv.object_ne_null hQ' hlastnode, hnext⟩
  · have hlastword : s₇.word lastnode = last := by
      rw [hkeep lastnode (hnodepage lastnode hlastnode).1 (by simp only [lnodeNext]; omega), hlast]
    rw [List.map_append, List.map_cons, List.map_nil, hlastword, ← hchain.map]
    congr 1
    exact List.map_congr_left fun m hm => (hnodeword m hm).1
  · have hseg : Seg NULL s₇.word (firstpg + c.firstSlot * c.unit)
        ((pre ++ [last]).flatMap (pageSlots c)) NULL := by
      rw [List.flatMap_append]
      refine (hchain.slots.congr fun a ha => ?_).append (by simpa using hslots)
      obtain ⟨p, hp, ha⟩ := List.mem_flatMap.mp ha
      obtain ⟨j, -, hj, rfl⟩ := mem_pageSlots.mp ha
      have hpspare := hpages.spare p (List.mem_append_left _ hp)
      have hpage := paToPage_slot (hall.inv.heap.dvd_page hpspare.held) hj
      refine hkeep _ (hpage.symm ▸ hpre p hp) fun heq => ?_
      exact (hall.inv.node_ne_spare hQ' hpspare hlastnode).2 (heq ▸ hpage)
    rw [slots_eq_cons (by simp)] at hseg ⊢
    exact ⟨rfl, hseg.2⟩

end LearnOS
