import LearnOS.Slab.Grow

/-!
# `kmem_cache_alloc`

An allocation takes the first free slot, after the pool has grown by one page if
there was none. A large pool takes the node for its new page from `g_slab_16`,
which may grow in turn.
-/

namespace LearnOS

open LinkedList Slots BuddySystem Function Kres

variable {L : Layout} {s s' : KHeap} {live : List (ℕ × ℕ)} {pool : CacheId → Option Pool}
  {c : CacheId} {P : Pool}
  {pages f : List ℕ} {p x : ℕ}

/-! ## New and grown pools -/

theorem nodup_pageSlots (c : CacheId) (p : ℕ) : (pageSlots c p).Nodup :=
  nodup_range c.unit_pos _ _ _

theorem pageSlots_eq_cons (c : CacheId) (p : ℕ) :
    pageSlots c p = (p + c.firstSlot * c.unit) :: (pageSlots c p).tail := by
  rw [pageSlots, range_succ, List.tail_cons]

theorem pageSlots_eq_concat (c : CacheId) (p : ℕ) :
    ∃ l, pageSlots c p = l ++ [p + lastSlot c.unit * c.unit] ∧
      p + lastSlot c.unit * c.unit ∉ l := by
  have hlt := c.firstSlot_lt
  have hnodup := nodup_pageSlots c p
  rw [pageSlots, range_concat,
    show c.firstSlot + (lastSlot c.unit - c.firstSlot) = lastSlot c.unit by omega] at hnodup ⊢
  refine ⟨_, rfl, fun hmem => ?_⟩
  exact (List.nodup_append.mp hnodup).2.2 _ hmem _ (by simp) rfl

theorem nodup_slots (hal : ∀ p ∈ pages, PGSIZE ∣ p) (hnodup : pages.Nodup) :
    (pages.flatMap (pageSlots c)).Nodup := by
  refine List.nodup_flatMap.mpr ⟨fun p _ => nodup_pageSlots c p, ?_⟩
  refine hnodup.imp_of_mem ?_
  intro p q hp hq hne a hap haq
  obtain ⟨j, -, hj, rfl⟩ := mem_pageSlots.mp hap
  obtain ⟨j', -, hj', heq⟩ := mem_pageSlots.mp haq
  apply hne
  rw [← paToPage_slot (hal p hp) hj, heq, paToPage_slot (hal q hq) hj']

/-- A pool in which everything but the head slot is free. -/
def Pool.fresh (c : CacheId) (pages nodes : List ℕ) : Pool :=
  ⟨pages, nodes, (pages.flatMap (pageSlots c)).tail, []⟩

theorem slots_eq_cons (hne : pages ≠ []) :
    pages.flatMap (pageSlots c) = headSlot c pages :: (pages.flatMap (pageSlots c)).tail := by
  obtain ⟨p, rest, rfl⟩ := List.exists_cons_of_ne_nil hne
  rw [List.flatMap_cons, pageSlots_eq_cons]
  rfl

theorem PoolOk.fresh (nodes : List ℕ) (hne : pages ≠ [])
    (hal : ∀ p ∈ pages, PGSIZE ∣ p) (hnodup : pages.Nodup) :
    PoolOk c (Pool.fresh c pages nodes) where
  pages_ne := hne
  aligned := hal
  pages_nodup := hnodup
  slots_nodup := by
    simp only [Pool.fresh, List.append_nil]
    rw [← slots_eq_cons hne]
    exact nodup_slots hal hnodup
  slots x hx := by
    simp only [Pool.fresh, List.append_nil] at hx ⊢
    exact List.mem_of_mem_tail hx

/-- A full pool with one more page. -/
def Pool.grow (c : CacheId) (P : Pool) (p : ℕ) (nodes : List ℕ) : Pool :=
  ⟨p :: P.pages, nodes, (pageSlots c p).tail ++ [headSlot c P.pages], P.live⟩

theorem PoolOk.grow (h : PoolOk c P) (hfree : P.free = []) (hdvd : PGSIZE ∣ p)
    (hp : p ∉ P.pages) (nodes : List ℕ) : PoolOk c (P.grow c p nodes) where
  pages_ne := List.cons_ne_nil _ _
  aligned q hq := by
    rcases List.mem_cons.mp hq with rfl | hq
    · exact hdvd
    · exact h.aligned q hq
  pages_nodup := List.nodup_cons.mpr ⟨hp, h.pages_nodup⟩
  slots_nodup := by
    have hlist : headSlot c (P.grow c p nodes).pages ::
        ((P.grow c p nodes).free ++ (P.grow c p nodes).live) =
          pageSlots c p ++ headSlot c P.pages :: P.live := by
      rw [pageSlots_eq_cons c p]
      simp [Pool.grow, headSlot]
    have hold := h.slots_nodup
    rw [hfree, List.nil_append] at hold
    rw [hlist]
    refine List.nodup_append.mpr ⟨nodup_pageSlots c p, hold, ?_⟩
    rintro x hx y hy rfl
    have hslot : x ∈ P.pages.flatMap (pageSlots c) := by
      rcases List.mem_cons.mp hy with rfl | hy
      · exact h.head_mem
      · exact h.live_slot hy
    have hpos := c.unit_pos
    have hpage := page_of_object h.aligned hslot le_rfl (by omega)
    obtain ⟨j, -, hj, rfl⟩ := mem_pageSlots.mp hx
    rw [paToPage_slot hdvd hj] at hpage
    exact hp hpage
  slots x hx := by
    simp only [Pool.grow, List.mem_append, List.mem_singleton] at hx
    simp only [Pool.grow, List.flatMap_cons, List.mem_append]
    rcases hx with (hx | rfl) | hx
    · exact Or.inl (List.mem_of_mem_tail hx)
    · exact Or.inr h.head_mem
    · exact Or.inr (h.live_slot hx)

/-- The pool after its first free slot has been taken. -/
def Pool.pop (P : Pool) (x : ℕ) (f : List ℕ) : Pool := { P with free := f, live := x :: P.live }

/-- A pool hands out the objects of a list one by one, the first free slot each
time, after growing by a page if there is none. -/
inductive Pool.Serves (c : CacheId) : Pool → List ℕ → Pool → Prop
  | done (P : Pool) : Serves c P [] P
  | pop {P P' : Pool} {x : ℕ} {f xs : List ℕ} (hfree : P.free = x :: f)
      (h : Serves c (P.pop x f) xs P') : Serves c P (x :: xs) P'
  | grow {P P' : Pool} {p x : ℕ} {nodes f xs : List ℕ} (hnil : P.free = [])
      (hfree : (P.grow c p nodes).free = x :: f)
      (h : Serves c ((P.grow c p nodes).pop x f) xs P') : Serves c P (x :: xs) P'

theorem Pool.Serves.trans {P' P'' : Pool} {xs ys : List ℕ} (h : P.Serves c xs P')
    (h' : P'.Serves c ys P'') : P.Serves c (xs ++ ys) P'' := by
  induction h with
  | done => exact h'
  | pop hfree _ ih => exact .pop hfree (ih h')
  | grow hnil hfree _ ih => exact .grow hnil hfree (ih h')

theorem Pool.Serves.live_eq {P' : Pool} {xs : List ℕ} (h : P.Serves c xs P') :
    P'.live = xs.reverse ++ P.live := by
  induction h with
  | done => rfl
  | pop _ _ ih => simpa [Pool.pop] using ih
  | grow _ _ _ ih => simpa [Pool.pop, Pool.grow] using ih

theorem PoolOk.live_nodup (h : PoolOk c P) : P.live.Nodup :=
  (List.nodup_append.mp (List.nodup_cons.mp h.slots_nodup).2).2.1

/-! ## Growing a small pool -/

theorem SlabInv.read_held (h : SlabInv L s live pool) (hP : pool c = some P) {a : ℕ}
    (ha : a ∈ ownWords c P ∨ a ∈ nodeWords P) : (paToPage a, 0) ∈ live := by
  by_contra hout
  obtain ⟨hown, hnode⟩ := h.not_read_of_out (fun c P hP hmem => hout (h.held c P _ hP hmem)) hP
  exact ha.elim hown hnode

/-- The free list of a grown pool: the slots of the new page, then the old head
slot, which held the empty list. -/
theorem grow_free {old : ℕ} {word word' : ℕ → ℕ} (hold : old ≠ NULL) (hnull : word' old = NULL)
    (hseg : Seg NULL word (p + c.firstSlot * c.unit) (pageSlots c p) NULL)
    (hsame : ∀ a ∈ pageSlots c p, a ≠ p + lastSlot c.unit * c.unit → word' a = word a)
    (hlast : word' (p + lastSlot c.unit * c.unit) = old) :
    Seg NULL word' (word' (p + c.firstSlot * c.unit)) ((pageSlots c p).tail ++ [old]) NULL := by
  obtain ⟨l, hl, hnot⟩ := pageSlots_eq_concat c p
  have hpage : Seg NULL word' (p + c.firstSlot * c.unit) (pageSlots c p) old := by
    rw [hl] at hseg ⊢
    refine hseg.redirect (fun a ha => hsame a ?_ ?_) hlast
    · rw [hl]
      exact List.mem_append_left _ ha
    · rintro rfl
      exact hnot ha
  rw [pageSlots_eq_cons] at hpage
  exact hpage.2.2.append ⟨rfl, hold, hnull⟩

theorem SlabInv.free_nil_iff (h : SlabInv L s live pool) (hP : pool c = some P) :
    P.free = [] ↔ s.word (headSlot c P.pages) = NULL :=
  (h.rep c P hP).free.eq_nil_iff

theorem SlabInv.head_ne_null (h : SlabInv L s live pool) (hP : pool c = some P) :
    headSlot c P.pages ≠ NULL := by
  obtain ⟨p, hp, j, -, -, heq⟩ := mem_slots.mp (h.ok c P hP).head_mem
  have hpos := h.page_pos hP hp
  rw [heq]
  simp only [NULL]
  omega

/-- A full pool gets a page that no cache had. -/
theorem SlabInv.grow (h : SlabInv L s live pool) (hP : pool c = some P) (hfree : P.free = [])
    {live' : List (ℕ × ℕ)} {nodes : List ℕ} (hheap : HeapInv L ⟨s'.mem.buddy, live'⟩)
    (hsub : live ⊆ live') (hp : Spare live' pool p)
    (hcache : ∀ c', c' ≠ c → s'.cache c' = s.cache c')
    (hword : ∀ c' Q, c' ≠ c → pool c' = some Q →
      (∀ a ∈ ownWords c' Q, s'.word a = s.word a) ∧ ∀ a ∈ nodeWords Q, s'.word a = s.word a)
    (hnodes : ∀ n ∈ nodes, ∃ Q, pool .gSlab16 = some Q ∧ n ∈ Q.live)
    (hrep : PoolRep c s'.word (s'.cache c) (P.grow c p nodes)) :
    SlabInv L s' live' (update pool c (some (P.grow c p nodes))) := by
  refine h.replace hheap hsub hcache hword
    ((h.ok c P hP).grow hfree (hheap.dvd_page hp.held) (hp.out c P hP) _) hrep ?_ ?_ ?_ ?_
  · intro q hq
    rcases List.mem_cons.mp hq with rfl | hq
    · exact hp.held
    · exact hsub (h.held c P q hP hq)
  · intro q hq c' Q hne hQ hmem
    rcases List.mem_cons.mp hq with rfl | hq
    · exact hp.out c' Q hQ hmem
    · exact hne (h.apart c' c Q P q hQ hP hmem hq)
  · intro n hn
    obtain ⟨Q, hQ, hlive⟩ := hnodes n hn
    by_cases hc : .gSlab16 = c
    · subst hc
      cases hP.symm.trans hQ
      exact ⟨_, update_self _ _ _, hlive⟩
    · exact ⟨Q, by rwa [update_of_ne hc], hlive⟩
  · intro Q hQ n hn _
    cases hP.symm.trans hQ
    exact hn

/-- A full small pool with its new page linked in, as `alloc_small_object_pool`
leaves it before it tries again. -/
def linkSmallPage (c : CacheId) (head faptr newpg : ℕ) (s : KHeap) : KHeap :=
  let s := s.store newpg head
  let s := s.setCache c { s.cache c with head := newpg }
  s.store (newpg + lastSlot c.unit * c.unit) faptr

theorem growSmall_spec (hc : c.Small) (h : SlabInv L s live pool) (hP : pool c = some P)
    (hfree : P.free = []) {newpg : ℕ} {s₁ : KHeap}
    (hcall : initSmallObjectPool L c.unit 1 s = .ok (newpg, s₁))
    (hs' : linkSmallPage c (s.cache c).head (headSlot c P.pages) newpg s₁ = s') :
    ∃ live', SlabInv L s' live' (update pool c (some (P.grow c newpg P.nodes))) ∧
      live ⊆ live' ∧ (newpg, 0) ∉ live ∧ (∀ c', c' ≠ c → s'.cache c' = s.cache c') ∧
      ∀ a, (paToPage a, 0) ∈ live → s'.word a = s.word a := by
  obtain ⟨pages, live', h₁, hsub, hcache, hlen, -, hspare, hchain, hslots, hframe⟩ :=
    initSmall_spec hc h hcall
  obtain ⟨p, rfl⟩ := List.length_eq_one_iff.mp hlen
  obtain ⟨rfl, hpnull, -⟩ := hchain
  obtain ⟨hsp, hnew⟩ := hspare newpg (by simp)
  have hrep := h.rep c P hP
  have hlt := c.firstSlot_lt
  have hdvd := h₁.heap.dvd_page hsp.held
  have hlastpage := paToPage_slot (c := c) hdvd (le_refl (lastSlot c.unit))
  have hnelast : newpg ≠ newpg + lastSlot c.unit * c.unit := by
    have := slot_ne (c := c) (p := newpg) (show 0 < lastSlot c.unit by omega)
    omega
  have hword : ∀ a, a ≠ newpg → a ≠ newpg + lastSlot c.unit * c.unit → s'.word a = s₁.word a := by
    intro a ha ha'
    simp [← hs', linkSmallPage, KHeap.store, KHeap.setCache, update_of_ne ha,
      update_of_ne ha']
  have hkeep : ∀ a, (paToPage a, 0) ∈ live → s'.word a = s.word a := by
    intro a ha
    rw [hword a, hframe a ha]
    · rintro rfl
      rw [paToPage_page hdvd] at ha
      exact hnew ha
    · rintro rfl
      rw [hlastpage] at ha
      exact hnew ha
  have hcache' : ∀ c', c' ≠ c → s'.cache c' = s.cache c' := by
    intro c' hne
    simp [← hs', linkSmallPage, KHeap.store, KHeap.setCache, update_of_ne hne, hcache]
  have hhead : s'.cache c = { s.cache c with head := newpg } := by
    simp [← hs', linkSmallPage, KHeap.store, KHeap.setCache, hcache]
  have hfreelist : Seg NULL s'.word (s'.word (newpg + c.firstSlot * c.unit))
      ((pageSlots c newpg).tail ++ [headSlot c P.pages]) NULL := by
    refine grow_free (h.head_ne_null hP) ?_ (by simpa using hslots) ?_ ?_
    · rw [hkeep _ (h.read_held hP (Or.inl (by simp [ownWords])))]
      exact (h.free_nil_iff hP).mp hfree
    · intro a ha hne
      apply hword a _ hne
      rintro rfl
      obtain ⟨j, hj, -, heq⟩ := mem_pageSlots.mp ha
      have hfirst : c.firstSlot = 1 := if_pos hc
      have := slot_ne (c := c) (p := a) (show 0 < j by omega)
      omega
    · simp [← hs', linkSmallPage, KHeap.store]
  refine ⟨live', h.grow hP hfree (hs' ▸ h₁.heap) hsub hsp hcache' ?_
    (fun n hn => h.nodes_live c P n hP hn) ?_, hsub, hnew, hcache', hkeep⟩
  · intro c' Q _ hQ
    exact ⟨fun a ha => hkeep a (h.read_held hQ (Or.inl ha)),
      fun a ha => hkeep a (h.read_held hQ (Or.inr ha))⟩
  · rw [hhead]
    refine ⟨hrep.size, hrep.unitsz, hrep.count, hfreelist, ?_, fun hl => absurd hc hl⟩
    refine fun _ => ⟨⟨rfl, hpnull, ?_⟩, (hrep.small hc).2⟩
    have hlink : s'.word newpg = (s.cache c).head := by
      simp [← hs', linkSmallPage, KHeap.store, KHeap.setCache, update_of_ne hnelast]
    rw [hlink]
    refine (hrep.small hc).1.congr fun q hq => hkeep q ?_
    exact h.read_held hP (Or.inl (by simp [ownWords, hc, hq]))

/-! ## Allocation from a small pool -/

/-- A cache has handed out the objects `xs`, possibly after growing. -/
structure Extended (L : Layout) (c : CacheId) (s : KHeap) (live : List (ℕ × ℕ))
    (pool : CacheId → Option Pool) (P : Pool) (xs : List ℕ) (s' : KHeap) (live' : List (ℕ × ℕ))
    (P' : Pool) : Prop where
  inv : SlabInv L s' live' (update pool c (some P'))
  serves : P.Serves c xs P'
  nodes_eq : P'.nodes = P.nodes
  pages_old : P.pages ⊆ P'.pages
  pages_new : ∀ p ∈ P'.pages, p ∈ P.pages ∨ (p, 0) ∉ live
  subset : live ⊆ live'
  cache : ∀ c', c' ≠ c → s'.cache c' = s.cache c'

/-- The word is outside the pages of the pool, or in an object other than `n`. -/
def Pool.Apart (c : CacheId) (P : Pool) (n a : ℕ) : Prop :=
  paToPage a ∉ P.pages ∨ ∃ y ∈ P.live, y ≠ n ∧ y ≤ a ∧ a < y + c.unit

/-- An object has been taken from a cache. -/
structure Took (L : Layout) (c : CacheId) (s : KHeap) (live : List (ℕ × ℕ))
    (pool : CacheId → Option Pool) (P : Pool) (x : ℕ) (s' : KHeap) (live' : List (ℕ × ℕ))
    (P' : Pool) : Prop extends Extended L c s live pool P [x] s' live' P' where
  frame : ∀ a, (paToPage a, 0) ∈ live → P.Apart c x a → s'.word a = s.word a

theorem popFree_took (h : SlabInv L s live pool) (hP : pool c = some P)
    (hfree : P.free = x :: f) :
    Took L c s live pool P x (popFree c (headSlot c P.pages) x s) live
      { P with free := f, live := x :: P.live } where
  inv := popFree_spec h hP hfree
  serves := .pop hfree (.done _)
  nodes_eq := rfl
  pages_old := List.Subset.refl _
  pages_new p hp := Or.inl hp
  subset := List.Subset.refl _
  cache c' hc := by simp [popFree, KHeap.store, KHeap.setCache, update_of_ne hc]
  frame a _ hwhere := by
    have hok := h.ok c P hP
    have hpos := c.unit_pos
    apply popFree_word
    rintro rfl
    rcases hwhere with hpage | ⟨y, hy, -, hle, hlt⟩
    · exact hpage hok.page_of_head
    · have heq := object_unique hok.aligned (hok.live_slot hy) hok.head_mem hle hlt le_rfl
        (by omega)
      exact hok.head_not_mem (heq ▸ List.mem_append_right _ hy)

theorem SlabInv.small_faptr (h : SlabInv L s live pool) (hP : pool c = some P) (hc : c.Small) :
    (s.cache c).head + c.unit = headSlot c P.pages := by
  rw [h.small_head hP hc, headSlot, CacheId.firstSlot, if_pos hc, Nat.one_mul]

theorem allocSmall_cons (hc : c.Small) (h : SlabInv L s live pool) (hP : pool c = some P)
    (hfree : P.free = x :: f) (n : ℕ) :
    allocSmallObjectPool L c (n + 1) s = .ok (x, popFree c (headSlot c P.pages) x s) := by
  have hseg := (h.rep c P hP).free
  rw [hfree] at hseg
  obtain ⟨hx, hnull, -⟩ := hseg
  simp only [allocSmallObjectPool, (h.rep c P hP).unitsz, h.small_faptr hP hc, hx, if_neg hnull,
    pure_eq]

theorem allocSmall_nil (hc : c.Small) (h : SlabInv L s live pool) (hP : pool c = some P)
    (hfree : P.free = []) (n : ℕ) :
    allocSmallObjectPool L c (n + 1) s = initSmallObjectPool L c.unit 1 s >>= fun r =>
      allocSmallObjectPool L c n
        (linkSmallPage c (s.cache c).head (headSlot c P.pages) r.1 r.2) := by
  rw [allocSmallObjectPool]
  simp only [(h.rep c P hP).unitsz, h.small_faptr hP hc, (h.free_nil_iff hP).mp hfree, if_true]
  rfl

theorem Pool.grow_free_ne_nil (P : Pool) (p : ℕ) (nodes : List ℕ) :
    ∃ x f, (P.grow c p nodes).free = x :: f :=
  List.exists_cons_of_ne_nil (List.append_ne_nil_of_right_ne_nil _ (List.cons_ne_nil _ _))

/-- Taking the first slot of a pool that has just grown. -/
theorem took_of_grow {s₁ : KHeap} {live₁ : List (ℕ × ℕ)} {newpg : ℕ}
    (hnil : P.free = [])
    (h₁ : SlabInv L s₁ live₁ (update pool c (some (P.grow c newpg P.nodes))))
    (hsub : live ⊆ live₁) (hnew : (newpg, 0) ∉ live)
    (hcache : ∀ c', c' ≠ c → s₁.cache c' = s.cache c')
    (hframe : ∀ a, (paToPage a, 0) ∈ live → s₁.word a = s.word a)
    (hfree : (P.grow c newpg P.nodes).free = x :: f) :
    Took L c s live pool P x
      (popFree c (headSlot c (P.grow c newpg P.nodes).pages) x s₁) live₁
      { P.grow c newpg P.nodes with free := f, live := x :: P.live } := by
  have hself : update pool c (some (P.grow c newpg P.nodes)) c = _ := update_self _ _ _
  have htook := popFree_took h₁ hself hfree
  refine ⟨⟨?_, .grow hnil hfree (.done _), rfl, List.subset_cons_self _ _, ?_, hsub, ?_⟩, ?_⟩
  · have hinv := htook.inv
    rw [update_idem] at hinv
    exact hinv
  · intro p hp
    rcases List.mem_cons.mp hp with rfl | hp
    · exact Or.inr hnew
    · exact Or.inl hp
  · intro c' hc'
    rw [htook.cache c' hc', hcache c' hc']
  · intro a ha _
    rw [← hframe a ha]
    apply popFree_word
    rintro rfl
    have hdvd := h₁.heap.dvd_page (h₁.held c _ newpg hself List.mem_cons_self)
    have hpage : paToPage (headSlot c (P.grow c newpg P.nodes).pages) = newpg :=
      paToPage_slot hdvd c.firstSlot_lt.le
    rw [hpage] at ha
    exact hnew ha

/-- `alloc_small_object_pool` takes an object, and the second try succeeds. -/
theorem allocSmall_spec (hc : c.Small) (h : SlabInv L s live pool) (hP : pool c = some P)
    (hcall : allocSmallObjectPool L c allocTries s = .ok (x, s')) :
    ∃ live' P', Took L c s live pool P x s' live' P' := by
  rw [allocTries] at hcall
  cases hfree : P.free with
  | cons y f =>
    rw [allocSmall_cons hc h hP hfree] at hcall
    simp only [Except.ok.injEq, Prod.mk.injEq] at hcall
    obtain ⟨rfl, rfl⟩ := hcall
    exact ⟨live, _, popFree_took h hP hfree⟩
  | nil =>
    rw [allocSmall_nil hc h hP hfree, bind_eq_ok] at hcall
    obtain ⟨⟨newpg, s₁⟩, hinit, hcall⟩ := hcall
    obtain ⟨live₁, h₁, hsub, hnew, hcache, hframe⟩ := growSmall_spec hc h hP hfree hinit rfl
    obtain ⟨y, f, hfree₁⟩ := Pool.grow_free_ne_nil (c := c) P newpg P.nodes
    rw [allocSmall_cons hc h₁ (update_self _ _ _) hfree₁] at hcall
    simp only [Except.ok.injEq, Prod.mk.injEq] at hcall
    obtain ⟨rfl, rfl⟩ := hcall
    exact ⟨live₁, _, took_of_grow hfree h₁ hsub hnew hcache hframe hfree₁⟩

end LearnOS
