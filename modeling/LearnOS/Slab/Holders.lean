import LearnOS.Slab.Kmalloc

/-!
# Runs of the caches

Callers take objects from any cache and blocks from the buddy allocator, write
into what they hold and give it back. `HolderInv` ties what they hold to the
pools that memory represents: every live object is held by a caller or is a
page node. From it follow what the caches promise: objects never overlap, and
an object that comes back is the next one to be handed out, except by
`g_slab_16`.
-/

namespace LearnOS

open LinkedList Slots BuddySystem Transition Function Kres

/-- The heap with the blocks that callers hold, each with its owner. -/
structure Holders where
  heap : KHeap
  held : List (Owner × ℕ)

inductive HolderOp where
  | alloc (owner : Owner)
  | free (owner : Owner) (p : ℕ)
  | store (owner : Owner) (p : ℕ)

/-- One call, or any change of the words of a block that is held. -/
inductive HolderStep (L : Layout) : Holders → HolderOp → Holders → Prop
  | alloc {k : Holders} {owner : Owner} {p : ℕ} {s : KHeap}
      (hcall : owner.alloc L k.heap = .ok (p, s)) :
      HolderStep L k (.alloc owner) ⟨s, if p = NULL then k.held else (owner, p) :: k.held⟩
  | free {k : Holders} {owner : Owner} {p : ℕ} {s : KHeap} (hheld : (owner, p) ∈ k.held)
      (hcall : owner.free L p k.heap = .ok s) :
      HolderStep L k (.free owner p) ⟨s, k.held.erase (owner, p)⟩
  | store {k : Holders} {owner : Owner} {p : ℕ} {word : ℕ → ℕ} (hheld : (owner, p) ∈ k.held)
      (hword : ∀ a, a < p ∨ p + owner.bytes ≤ a → word a = k.heap.word a) :
      HolderStep L k (.store owner p) ⟨{ k.heap with word := word }, k.held⟩

/-- What callers hold of one cache. -/
def heldObjects (held : List (Owner × ℕ)) (c : CacheId) : List ℕ :=
  held.filterMap fun b => if b.1 = .slab c then some b.2 else none

theorem mem_heldObjects {held : List (Owner × ℕ)} {c : CacheId} {x : ℕ} :
    x ∈ heldObjects held c ↔ (.slab c, x) ∈ held := by
  simp only [heldObjects, List.mem_filterMap]
  constructor
  · rintro ⟨⟨o, y⟩, hb, h⟩
    split at h
    · next ho =>
      simp only at ho
      simp only [Option.some.injEq] at h
      exact ho ▸ h ▸ hb
    · cases h
  · intro h
    exact ⟨_, h, by simp⟩

theorem heldObjects_cons_slab (held : List (Owner × ℕ)) (c : CacheId) (x : ℕ) :
    heldObjects ((.slab c, x) :: held) =
      update (heldObjects held) c (x :: heldObjects held c) := by
  funext c'
  by_cases hc : c' = c
  · subst hc
    simp [heldObjects]
  · have hne : Owner.slab c ≠ .slab c' := fun h => hc (Owner.slab.inj h).symm
    simp [heldObjects, update_of_ne hc, hne]

theorem heldObjects_cons_buddy (held : List (Owner × ℕ)) (order p : ℕ) :
    heldObjects ((.buddy order, p) :: held) = heldObjects held := by
  funext c
  simp [heldObjects]

theorem heldObjects_perm {held held' : List (Owner × ℕ)} (h : held.Perm held') (c : CacheId) :
    (heldObjects held c).Perm (heldObjects held' c) := h.filterMap _

section Run

variable {L : Layout} {s s' : KHeap} {live live' : List (ℕ × ℕ)}
  {pool pool' : CacheId → Option Pool} {c : CacheId} {P : Pool} {k k' : Holders}

structure HolderInv (L : Layout) (k : Holders) (live : List (ℕ × ℕ))
    (pool : CacheId → Option Pool) : Prop where
  slab : SlabInv L k.heap live pool
  up : ∀ c, ∃ P, pool c = some P
  balanced : Balanced (heldObjects k.held) pool
  blocks : ∀ order p, (.buddy order, p) ∈ k.held → HeldBy live pool (.buddy order) p
  nodup : k.held.Nodup

theorem isNode_iff {n : ℕ} : IsNode pool n ↔ n ∈ nodesOf pool := by
  simp only [IsNode, nodesOf, nodesAt, List.mem_flatMap]
  constructor
  · rintro ⟨c, P, hP, hn⟩
    exact ⟨c, c.mem_all, by simpa [hP] using hn⟩
  · rintro ⟨c, -, hn⟩
    cases hP : pool c with
    | none => simp [hP] at hn
    | some P => exact ⟨c, P, hP, by simpa [hP] using hn⟩

theorem holderInv_init (h : HeapInv L ⟨s.mem.buddy, live⟩) (hcall : slabInit L s = .ok s') :
    ∃ live' pool, HolderInv L ⟨s', []⟩ live' pool ∧ ∀ c P, pool c = some P → P.Covered c := by
  obtain ⟨live', pool, hinv, huntouched, hup⟩ := slabInit_spec h hcall
  exact ⟨live', pool, ⟨hinv, hup, huntouched.1, by simp, List.nodup_nil⟩, huntouched.2⟩

theorem HolderInv.mem_live (h : HolderInv L k live pool) (hP : pool c = some P) {x : ℕ} :
    x ∈ P.live ↔ (.slab c, x) ∈ k.held ∨ c = .gSlab16 ∧ IsNode pool x := by
  rw [(h.balanced c P hP).mem_iff, List.mem_append, mem_heldObjects, isNode_iff]
  apply or_congr_right
  split <;> next hc => simp [hc]

/-- A caller's object is no page node. -/
theorem HolderInv.not_node (h : HolderInv L k live pool) {x : ℕ}
    (hx : (.slab c, x) ∈ k.held) : ¬ IsNode pool x := by
  obtain ⟨P, hP⟩ := h.up c
  have hlive := (h.mem_live hP).mpr (Or.inl hx)
  by_cases hc : c = .gSlab16
  · subst hc
    have hnodup := (h.balanced _ P hP).nodup_iff.mp (h.slab.ok _ P hP).live_nodup
    rw [if_pos rfl] at hnodup
    intro hnode
    exact (List.nodup_append.mp hnodup).2.2 x (mem_heldObjects.mpr hx) x (isNode_iff.mp hnode) rfl
  · exact h.slab.not_isNode_of_ne hP hc hlive

theorem HolderInv.heldBy (h : HolderInv L k live pool) {owner : Owner} {p : ℕ}
    (hp : (owner, p) ∈ k.held) : HeldBy live pool owner p := by
  cases owner with
  | slab c =>
    obtain ⟨P, hP⟩ := h.up c
    exact ⟨⟨P, hP, (h.mem_live hP).mpr (Or.inl hp)⟩, h.not_node hp⟩
  | buddy order => exact h.blocks order p hp

/-! ### One step -/

theorem holderInv_alloc_slab (h : HolderInv L k live pool) {x : ℕ}
    (hcall : kmemCacheAlloc L c k.heap = .ok (x, s')) :
    ∃ live' pool', x ≠ NULL ∧ HolderInv L ⟨s', (.slab c, x) :: k.held⟩ live' pool' ∧
      Served c x pool pool' ∧ Widened live pool live' pool' := by
  obtain ⟨P, hP⟩ := h.up c
  obtain ⟨Q, hQ⟩ := h.up .gSlab16
  obtain ⟨live', pool', hall⟩ := kmemCacheAlloc_spec h.slab hP hQ hcall
  obtain ⟨P', hP', hx⟩ := hall.object
  refine ⟨live', pool', hall.inv.object_ne_null hP' hx, ⟨hall.inv, ?_, ?_, ?_, ?_⟩, hall.served,
    hall.widened⟩
  · intro c'
    obtain ⟨R, hR⟩ := h.up c'
    obtain ⟨R', hR', -⟩ := hall.widened.keep c' R hR
    exact ⟨R', hR'⟩
  · rw [heldObjects_cons_slab]
    exact h.balanced.served hall.served
  · intro order p hp
    exact (h.blocks order p (by simpa using hp)).widened hall.inv hall.widened
  · refine List.nodup_cons.mpr ⟨fun hheld => ?_, h.nodup⟩
    exact hall.fresh P hP ((h.mem_live hP).mpr (Or.inl hheld))

theorem holderInv_alloc_buddy (h : HolderInv L k live pool) {order p : ℕ}
    (hcall : kbuddyAlloc L order k.heap = .ok (p, s')) :
    ∃ live', HolderInv L ⟨s', if p = NULL then k.held else (.buddy order, p) :: k.held⟩
      live' pool ∧ (p = NULL ∧ live' = live ∨ (p, order) ∉ live ∧ live' = (p, order) :: live) := by
  obtain ⟨hnull, hslab⟩ | ⟨hnull, hfresh, hslab, hnew⟩ := h.slab.kbuddyAlloc_spec hcall
  · rw [if_pos hnull]
    exact ⟨live, ⟨hslab, h.up, h.balanced, h.blocks, h.nodup⟩, Or.inl ⟨hnull, rfl⟩⟩
  · rw [if_neg hnull]
    refine ⟨_, ⟨hslab, h.up, ?_, ?_, ?_⟩, Or.inr ⟨hfresh, rfl⟩⟩
    · rw [heldObjects_cons_buddy]
      exact h.balanced
    · intro order' q hq
      rcases List.mem_cons.mp hq with heq | hq
      · obtain ⟨ho, rfl⟩ := Prod.mk.inj heq
        obtain rfl := Owner.buddy.inj ho
        exact hnew
      · exact (h.blocks order' q hq).widened hslab (widened_cons _)
    · refine List.nodup_cons.mpr ⟨fun hheld => hfresh ?_, h.nodup⟩
      exact (h.blocks order p hheld).1

/-- An object that comes back leaves the live ones, and unless it belongs to
`g_slab_16` it becomes the first free slot. -/
theorem holderInv_free_slab (h : HolderInv L k live pool) {x : ℕ}
    (hx : (.slab c, x) ∈ k.held) (hP : pool c = some P) :
    ∃ s', kmemCacheFree c x k.heap = .ok s' ∧ HolderInv L ⟨s', k.held.erase (.slab c, x)⟩ live
      (update pool c
        (some { P with free := freeAfter c P x, live := P.live.erase x })) := by
  have hlive := (h.mem_live hP).mpr (Or.inl hx)
  obtain ⟨s', hs', -, hslab⟩ := kmemCacheFree_spec h.slab hP hlive (h.not_node hx)
  have hperm := List.perm_cons_erase hx
  refine ⟨s', hs', hslab, exists_update_some h.up, ?_, ?_, h.nodup.erase _⟩
  · have hobjects : ∀ c', (heldObjects k.held c').Perm
        (update (heldObjects (k.held.erase (.slab c, x))) c
          (x :: heldObjects (k.held.erase (.slab c, x)) c) c') := by
      intro c'
      rw [← heldObjects_cons_slab]
      exact heldObjects_perm hperm c'
    have hbal : Balanced (update (heldObjects (k.held.erase (.slab c, x))) c
        (x :: heldObjects (k.held.erase (.slab c, x)) c)) pool :=
      fun c' R hR => (h.balanced c' R hR).trans ((hobjects c').append_right _)
    have hnodes : ({ P with free := freeAfter c P x, live := P.live.erase x } : Pool).nodes =
        P.nodes := rfl
    have hnew := hbal.update_same (l := heldObjects (k.held.erase (.slab c, x)) c) hP hnodes (by
        have hpermlive := (hbal c P hP).erase x
        rwa [update_self, List.cons_append, List.erase_cons_head] at hpermlive)
    rwa [update_idem, update_eq_self] at hnew
  · intro order p hp
    refine (h.blocks order p (List.mem_of_mem_erase hp)).drop_object hP rfl rfl rfl ?_
    intro howner
    cases howner

theorem holderInv_free_buddy (h : HolderInv L k live pool) {order p : ℕ}
    (hp : (.buddy order, p) ∈ k.held) :
    ∃ s', kbuddyFree L p order k.heap = .ok s' ∧
      HolderInv L ⟨s', k.held.erase (.buddy order, p)⟩ (live.erase (p, order)) pool := by
  obtain ⟨s', hs', hslab⟩ := h.slab.kbuddyFree_spec (h.blocks order p hp)
  refine ⟨s', hs', hslab, h.up, ?_, ?_, h.nodup.erase _⟩
  · intro c P hP
    have hperm := heldObjects_perm (List.perm_cons_erase hp) c
    rw [heldObjects_cons_buddy] at hperm
    exact (h.balanced c P hP).trans (hperm.append_right _)
  · intro order' p' hp'
    obtain ⟨hne, hold⟩ := (List.Nodup.mem_erase_iff h.nodup).mp hp'
    obtain ⟨hlive', hpage'⟩ := h.blocks order' p' hold
    refine ⟨(List.mem_erase_of_ne ?_).mpr hlive', hpage'⟩
    rintro heq
    obtain ⟨rfl, rfl⟩ := Prod.mk.inj heq
    exact hne rfl

/-- The pools before and after a step, by the kind of the step. -/
inductive PoolStep (pool : CacheId → Option Pool) : HolderOp → (CacheId → Option Pool) → Prop
  | alloc {c : CacheId} {x : ℕ} {pool' : CacheId → Option Pool} (h : Served c x pool pool') :
      PoolStep pool (.alloc (.slab c)) pool'
  | free {c : CacheId} {x : ℕ} {P : Pool} (hP : pool c = some P) (hx : x ∈ P.live) :
      PoolStep pool (.free (.slab c) x) (update pool c
        (some { P with free := freeAfter c P x, live := P.live.erase x }))
  | same (op : HolderOp) (h : ∀ c x, op ≠ .free (.slab c) x) : PoolStep pool op pool

theorem holderInv_step {op : HolderOp} (h : HolderInv L k live pool)
    (hstep : HolderStep L k op k') :
    ∃ live' pool', HolderInv L k' live' pool' ∧ PoolStep pool op pool' := by
  cases hstep with
  | @alloc owner p s hcall =>
    cases owner with
    | slab c =>
      obtain ⟨live', pool', hnull, hinv, hserved, -⟩ := holderInv_alloc_slab h hcall
      rw [if_neg hnull]
      exact ⟨live', pool', hinv, .alloc hserved⟩
    | buddy order =>
      obtain ⟨live', hinv, -⟩ := holderInv_alloc_buddy h hcall
      exact ⟨live', pool, hinv, .same _ (by simp)⟩
  | @free owner p s hheld hcall =>
    cases owner with
    | slab c =>
      obtain ⟨P, hP⟩ := h.up c
      obtain ⟨s', hs', hinv⟩ := holderInv_free_slab h hheld hP
      simp only [Owner.free] at hcall
      rw [hs', Except.ok.injEq] at hcall
      exact ⟨live, _, hcall ▸ hinv, .free hP ((h.mem_live hP).mpr (Or.inl hheld))⟩
    | buddy order =>
      obtain ⟨s', hs', hinv⟩ := holderInv_free_buddy h hheld
      simp only [Owner.free] at hcall
      rw [hs', Except.ok.injEq] at hcall
      exact ⟨_, pool, hcall ▸ hinv, .same _ (by simp)⟩
  | store hheld hword =>
    exact ⟨live, pool, ⟨h.slab.writeBlock (h.heldBy hheld) hword, h.up, h.balanced, h.blocks,
      h.nodup⟩, .same _ (by simp)⟩

/-! ### Objects never overlap -/

/-- The pages of a cache in the order of its page list. -/
def PageList (s : KHeap) (c : CacheId) (pages : List ℕ) : Prop :=
  if (s.cache c).size > 16 then
    ∃ nodes, Seg NULL (fun n => s.word (lnodeNext n)) (s.cache c).head nodes NULL ∧
      nodes.map s.word = pages
  else Seg NULL s.word (s.cache c).head pages NULL

/-- The node links a page of the large cache. -/
def OnNodeList (s : KHeap) (c : CacheId) (n : ℕ) : Prop :=
  (s.cache c).size > 16 ∧
    ∃ nodes, Seg NULL (fun n => s.word (lnodeNext n)) (s.cache c).head nodes NULL ∧ n ∈ nodes

/-- `faptr`, the slot that serves as the head of the free list. -/
def listHead (s : KHeap) (c : CacheId) : ℕ :=
  if (s.cache c).size > 16 then s.word (s.cache c).head
  else (s.cache c).head + (s.cache c).unitsz

/-- The object has been handed out and not given back. Of `g_slab_16` the large
caches hold one object for each of their pages. -/
def Holders.Live (k : Holders) (c : CacheId) (x : ℕ) : Prop :=
  (.slab c, x) ∈ k.held ∨ c = .gSlab16 ∧ ∃ c', OnNodeList k.heap c' x

/-- The live objects of a cache, its pages and its free slots in a state. -/
structure ObjectsSound (k : Holders) (c : CacheId) (live pages free : List ℕ) : Prop where
  mem_live : ∀ x, x ∈ live ↔ k.Live c x
  live_nodup : live.Nodup
  page_list : PageList k.heap c pages
  inside : ∀ x ∈ live, ∃ p ∈ pages, PGSIZE ∣ p ∧
    ∃ j, x = p + j * (k.heap.cache c).unitsz ∧ (j + 1) * (k.heap.cache c).unitsz ≤ PGSIZE
  apart : ∀ x ∈ live, ∀ y ∈ live, x ≠ y →
    x + (k.heap.cache c).unitsz ≤ y ∨ y + (k.heap.cache c).unitsz ≤ x
  not_link : (k.heap.cache c).size ≤ 16 → ∀ x ∈ live, x ∉ pages
  not_head : listHead k.heap c ∉ live
  free_list : Seg NULL k.heap.word (k.heap.word (listHead k.heap c)) free NULL
  free_nodup : (listHead k.heap c :: free).Nodup
  disjoint : ∀ x ∈ free, x ∉ live
  count : (k.heap.cache c).allocCount = live.length

theorem SlabInv.size_gt_iff (h : SlabInv L s live pool) (hP : pool c = some P) :
    (s.cache c).size > 16 ↔ ¬ c.Small := by
  rw [(h.rep c P hP).size]
  exact Nat.not_le.symm

theorem SlabInv.pageList_iff (h : SlabInv L s live pool) (hP : pool c = some P) {pages : List ℕ} :
    PageList s c pages ↔ pages = P.pages := by
  have hrep := h.rep c P hP
  by_cases hc : c.Small
  · have hseg := (hrep.small hc).1
    rw [PageList, if_neg (mt (h.size_gt_iff hP).mp (not_not.mpr hc))]
    constructor
    · exact fun hpages => Seg.unique hpages hseg
    · rintro rfl
      exact hseg
  · obtain ⟨hseg, hmap⟩ := hrep.large hc
    rw [PageList, if_pos ((h.size_gt_iff hP).mpr hc)]
    constructor
    · rintro ⟨nodes, hnodes, rfl⟩
      rw [Seg.unique hnodes hseg, hmap]
    · rintro rfl
      exact ⟨P.nodes, hseg, hmap⟩

theorem SlabInv.listHead_eq (h : SlabInv L s live pool) (hP : pool c = some P) :
    listHead s c = headSlot c P.pages := by
  by_cases hc : c.Small
  · rw [listHead, if_neg (mt (h.size_gt_iff hP).mp (not_not.mpr hc)), (h.rep c P hP).unitsz,
      h.small_faptr hP hc]
  · rw [listHead, if_pos ((h.size_gt_iff hP).mpr hc), h.large_faptr hP hc]

theorem HolderInv.isNode_iff_onNodeList (h : HolderInv L k live pool) {n : ℕ} :
    IsNode pool n ↔ ∃ c, OnNodeList k.heap c n := by
  constructor
  · rintro ⟨c, P, hP, hn⟩
    have hrep := h.slab.rep c P hP
    have hc : ¬ c.Small := by
      intro hc
      rw [(hrep.small hc).2] at hn
      cases hn
    exact ⟨c, (h.slab.size_gt_iff hP).mpr hc, P.nodes, (hrep.large hc).1, hn⟩
  · rintro ⟨c, hsize, nodes, hseg, hn⟩
    obtain ⟨P, hP⟩ := h.up c
    have hc := (h.slab.size_gt_iff hP).mp hsize
    rw [Seg.unique hseg ((h.slab.rep c P hP).large hc).1] at hn
    exact ⟨c, P, hP, hn⟩

theorem HolderInv.live_iff (h : HolderInv L k live pool) (hP : pool c = some P) {x : ℕ} :
    x ∈ P.live ↔ k.Live c x := by
  rw [h.mem_live hP, h.isNode_iff_onNodeList, Holders.Live]

/-- The number of slots of a page that a cache may hand out. -/
def slotsPerPage (c : CacheId) : ℕ := lastSlot c.unit - c.firstSlot + 1

theorem length_slots (c : CacheId) (pages : List ℕ) :
    (pages.flatMap (pageSlots c)).length = pages.length * slotsPerPage c := by
  induction pages with
  | nil => simp
  | cons p pages ih =>
    have hpage : (pageSlots c p).length = slotsPerPage c := by
      simp [pageSlots, Slots.range, slotsPerPage]
    rw [List.flatMap_cons, List.length_append, ih, hpage, List.length_cons, Nat.add_one_mul,
      add_comm]

/-- There are far fewer slots than the counter can count. -/
theorem SlabInv.live_length (h : SlabInv L s live pool) (hP : pool c = some P) :
    P.live.length < 2 ^ 64 := by
  have hok := h.ok c P hP
  have hle := (hok.live_nodup.subperm fun x hx => hok.live_slot hx).length_le
  have hper : slotsPerPage c ≤ 512 := by cases c <;> decide
  have hslots : P.pages.length * slotsPerPage c ≤ P.pages.length * 512 :=
    Nat.mul_le_mul_left _ hper
  rw [length_slots] at hle
  have hpages := h.pages_length hP
  have hbound : walkBound < 2 ^ 32 := by
    rw [walkBound, PHYSTOP_eq, PGSIZE]
    decide
  omega

theorem HolderInv.objectsSound (h : HolderInv L k live pool) (hP : pool c = some P) :
    ObjectsSound k c P.live P.pages P.free := by
  have hok := h.slab.ok c P hP
  have hrep := h.slab.rep c P hP
  have hhead := h.slab.listHead_eq hP
  have hpos := c.unit_pos
  have hslots := List.nodup_cons.mp hok.slots_nodup
  refine ⟨fun x => h.live_iff hP, hok.live_nodup, (h.slab.pageList_iff hP).mpr rfl, ?_, ?_, ?_, ?_,
    ?_, ?_, ?_, ?_⟩
  · intro x hx
    obtain ⟨p, hp, j, -, hj, rfl⟩ := mem_slots.mp (hok.live_slot hx)
    rw [hrep.unitsz]
    exact ⟨p, hp, hok.aligned p hp, j, rfl, slot_fits hj⟩
  · intro x hx y hy hne
    rw [hrep.unitsz]
    by_contra hover
    simp only [not_or, Nat.not_le] at hover
    apply hne
    rcases le_total x y with hle | hle
    · exact object_unique hok.aligned (hok.live_slot hx) (hok.live_slot hy) hle hover.1 le_rfl
        (by omega)
    · exact object_unique hok.aligned (hok.live_slot hx) (hok.live_slot hy) le_rfl (by omega) hle
        hover.2
  · intro hsize x hx hpage
    rw [hrep.size] at hsize
    exact link_not_object hsize hok.aligned hpage (hok.live_slot hx) le_rfl (by omega)
      ⟨le_rfl, by omega⟩
  · rw [hhead]
    exact fun hmem => hslots.1 (List.mem_append_right _ hmem)
  · rw [hhead]
    exact hrep.free
  · rw [hhead]
    exact List.nodup_cons.mpr ⟨fun hmem => hslots.1 (List.mem_append_left _ hmem),
      (List.nodup_append.mp hslots.2).1⟩
  · exact fun x hx hlive => hok.not_mem_free hlive hx
  · rw [hrep.count, Nat.mod_eq_of_lt (h.slab.live_length hP)]

theorem holderInv_run (hheap : HeapInv L ⟨s.mem.buddy, live⟩) (hinit : slabInit L s = .ok s')
    {run : List (HolderOp × Holders)} (hrun : IsRun (HolderStep L) ⟨s', []⟩ run) :
    ∀ k ∈ visited ⟨s', []⟩ run, ∃ live pool, HolderInv L k live pool := by
  refine IsRun.invariant_always (fun k => ∃ live pool, HolderInv L k live pool) ?_ ?_ hrun
  · rintro k op k' ⟨live, pool, hinv⟩ hstep
    obtain ⟨live', pool', hinv', -⟩ := holderInv_step hinv hstep
    exact ⟨live', pool', hinv'⟩
  · obtain ⟨live', pool, hinv, -⟩ := holderInv_init hheap hinit
    exact ⟨live', pool, hinv⟩

/-- In every state of every run from `slab_init` on, the live objects of every
cache are different slots of its pages, none of them a page link or the head of
the free list, the free list is disjoint from them, and `alloc_count` is their
number. -/
theorem slab_objects_never_overlap (hheap : HeapInv L ⟨s.mem.buddy, live⟩)
    (hinit : slabInit L s = .ok s') {run : List (HolderOp × Holders)}
    (hrun : IsRun (HolderStep L) ⟨s', []⟩ run) :
    ∀ k ∈ visited ⟨s', []⟩ run, ∀ c, ∃ live pages free, ObjectsSound k c live pages free := by
  intro k hk c
  obtain ⟨live', pool, hinv⟩ := holderInv_run hheap hinit hrun k hk
  obtain ⟨P, hP⟩ := hinv.up c
  exact ⟨P.live, P.pages, P.free, hinv.objectsSound hP⟩

/-- A call of `kmem_cache_alloc` and the matching call of `kmem_cache_free`, for a
cache that the test lets through. -/
theorem alloc_free_run (c : CacheId)
    (htest : (slabBoot L).Yields fun s => (kmemCacheAlloc L c s).Yields fun r =>
      r.1 ≠ NULL ∧ (kmemCacheFree c r.1 r.2).Yields fun _ => True) :
    ∃ s x s₁ s₂, slabBoot L = .ok s ∧
      IsRun (HolderStep L) ⟨s, []⟩
        [(.alloc (.slab c), ⟨s₁, [(.slab c, x)]⟩), (.free (.slab c) x, ⟨s₂, []⟩)] := by
  obtain ⟨s, hs, ⟨x, s₁⟩, hx, hnull, s₂, hfree, -⟩ := htest
  refine ⟨s, x, s₁, s₂, hs, ?_, ?_, trivial⟩
  · have hslab : (Owner.slab c).alloc L s = .ok (x, s₁) := hx
    have hstep := HolderStep.alloc (k := ⟨s, []⟩) hslab
    rwa [if_neg hnull] at hstep
  · have hstep := HolderStep.free (L := L) (k := ⟨s₁, [(.slab c, x)]⟩) List.mem_cons_self
      hfree
    rwa [List.erase_cons_head] at hstep

/-- An object of 32 bytes is taken on a small machine. -/
theorem slab_objects_after_alloc :
    ∃ s x s₁ s₂, slabBoot smallLayout = .ok s ∧
      IsRun (HolderStep smallLayout) ⟨s, []⟩
        [(.alloc (.slab .gSlab32), ⟨s₁, [(.slab .gSlab32, x)]⟩),
          (.free (.slab .gSlab32) x, ⟨s₂, []⟩)] ∧
      ∃ live pages free, ObjectsSound ⟨s₁, [(.slab .gSlab32, x)]⟩ .gSlab32 live pages free := by
  obtain ⟨s, x, s₁, s₂, hs, hrun⟩ := alloc_free_run (L := smallLayout) .gSlab32 (by
    decide +kernel)
  obtain ⟨s₀, hheap, hinit⟩ := slabBoot_init hs
  exact ⟨s, x, s₁, s₂, hs, hrun,
    slab_objects_never_overlap hheap hinit hrun _ (by simp [visited]) .gSlab32⟩

end Run

end LearnOS
