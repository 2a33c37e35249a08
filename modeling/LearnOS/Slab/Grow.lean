import LearnOS.Slab.Object

/-!
# Building pools and growing them

New pages come from `kalloc`. Their slots are linked in order, so that the head
slot of the first page starts a list of all the others. A pool that grows puts
its new page first: the old head slot becomes the last free slot, and the head
moves to the new page.
-/

namespace LearnOS

open LinkedList Slots BuddySystem Function Kres

variable {L : Layout} {s s' : KHeap} {live : List (ℕ × ℕ)} {pool : CacheId → Option Pool}
  {c c' : CacheId} {P : Pool}
  {p n j t : ℕ}

/-! ## New pages -/

theorem SlabInv.keep (h : SlabInv L s live pool) {live' : List (ℕ × ℕ)}
    (hheap : HeapInv L ⟨s'.mem.buddy, live'⟩) (hsub : live ⊆ live')
    (hcache : ∀ c P, pool c = some P → s'.cache c = s.cache c)
    (hword : ∀ c P, pool c = some P →
      (∀ a ∈ ownWords c P, s'.word a = s.word a) ∧ ∀ a ∈ nodeWords P, s'.word a = s.word a) :
    SlabInv L s' live' pool where
  heap := hheap
  ok := h.ok
  rep c P hP := by
    rw [hcache c P hP]
    exact (h.rep c P hP).congr (hword c P hP).1 (hword c P hP).2
  held c P p hP hp := hsub (h.held c P p hP hp)
  apart := h.apart
  nodes_live := h.nodes_live

theorem SlabInv.tracked (h : SlabInv L s live pool) :
    Tracked L s.mem live (fun _ : Unit => (none : Option ℕ)) where
  heap := h.heap
  held _ _ hk := by cases hk
  exclusive _ _ _ hk := by cases hk

/-- A page in use that belongs to no cache. -/
structure Spare (live : List (ℕ × ℕ)) (pool : CacheId → Option Pool) (p : ℕ) : Prop where
  held : (p, 0) ∈ live
  out : ∀ c P, pool c = some P → p ∉ P.pages

theorem HeapInv.dvd_page {b : Buddy} (h : HeapInv L ⟨b, live⟩) (hp : (p, 0) ∈ live) :
    PGSIZE ∣ p := by
  have hbad := h.not_badPage hp
  simp only [badPage, not_or, not_not] at hbad
  exact Nat.dvd_of_mod_eq_zero hbad.1

theorem HeapInv.page_pos {b : Buddy} (h : HeapInv L ⟨b, live⟩) (hp : (p, 0) ∈ live) :
    0 < p := by
  obtain ⟨q, rfl, -⟩ := h.exists_page hp
  exact Nat.pos_of_ne_zero (L.pa_ne_null q)

theorem allocPage_spec (h : SlabInv L s live pool) (hcall : s.allocPage L = .ok (p, s')) :
    (p, 0) ∉ live ∧ SlabInv L s' ((p, 0) :: live) pool ∧ s'.cache = s.cache ∧
      ∀ a, paToPage a ≠ p → s'.word a = s.word a := by
  simp only [KHeap.allocPage, bind_eq_ok] at hcall
  obtain ⟨⟨q, m⟩, hkalloc, hret⟩ := hcall
  simp only [pure_eq_ok, Prod.mk.injEq] at hret
  obtain ⟨rfl, rfl⟩ := hret
  obtain ⟨hnew, ht, -, -⟩ := h.tracked.of_kalloc hkalloc ()
  have hdvd := ht.heap.dvd_page List.mem_cons_self
  have hword : ∀ a, paToPage a ≠ q →
      (if a / PGSIZE = q / PGSIZE then 0 else s.word a) = s.word a := by
    intro a ha
    refine if_neg fun heq => ha ?_
    rw [paToPage, heq]
    exact Nat.div_mul_cancel hdvd
  refine ⟨hnew, h.keep ht.heap (List.subset_cons_self _ _) (fun _ _ _ => rfl) fun c P hP => ?_,
    rfl, hword⟩
  have hread : ∀ a, a ∈ ownWords c P ∨ a ∈ nodeWords P → paToPage a ≠ q := by
    rintro a ha rfl
    have hout := h.not_read_of_out (fun c P hP hmem => hnew (h.held c P _ hP hmem)) hP
    exact ha.elim hout.1 hout.2
  exact ⟨fun a ha => hword a (hread a (Or.inl ha)), fun a ha => hword a (hread a (Or.inr ha))⟩

theorem Spare.of_new (h : SlabInv L s live pool) (hp : (p, 0) ∉ live) :
    Spare ((p, 0) :: live) pool p where
  held := List.mem_cons_self
  out c P hP hmem := hp (h.held c P p hP hmem)

/-- No cache reads a spare page. -/
theorem Spare.not_read (hp : Spare live pool p) (h : SlabInv L s live pool) {a : ℕ}
    (ha : paToPage a = p) (hP : pool c = some P) : a ∉ ownWords c P ∧ a ∉ nodeWords P :=
  h.not_read_of_out (fun c P hP => ha ▸ hp.out c P hP) hP

/-- Only words of one page differ. -/
structure OnlyPage (p : ℕ) (s s' : KHeap) : Prop where
  mem : s'.mem = s.mem
  cache : s'.cache = s.cache
  word : ∀ a, paToPage a ≠ p → s'.word a = s.word a

theorem OnlyPage.refl (p : ℕ) (s : KHeap) : OnlyPage p s s := ⟨rfl, rfl, fun _ _ => rfl⟩

theorem OnlyPage.trans {s₂ : KHeap} (h : OnlyPage p s s') (h' : OnlyPage p s' s₂) :
    OnlyPage p s s₂ :=
  ⟨h'.mem.trans h.mem, h'.cache.trans h.cache, fun a ha => (h'.word a ha).trans (h.word a ha)⟩

theorem OnlyPage.store (h : OnlyPage p s s') {a : ℕ} (ha : paToPage a = p) (v : ℕ) :
    OnlyPage p s (s'.store a v) where
  mem := h.mem
  cache := h.cache
  word b hb := by
    have hne : b ≠ a := by
      rintro rfl
      exact hb ha
    simp only [KHeap.store, update_of_ne hne]
    exact h.word b hb

/-- A spare page may be written freely. -/
theorem SlabInv.onlyPage (h : SlabInv L s live pool) (hp : Spare live pool p)
    (hoff : OnlyPage p s s') : SlabInv L s' live pool := by
  refine h.keep (hoff.mem ▸ h.heap) (List.Subset.refl _) (fun c _ _ => by rw [hoff.cache])
    fun c P hP => ?_
  constructor
  · exact fun a ha => hoff.word a fun hpage => (hp.not_read h hpage hP).1 ha
  · exact fun a ha => hoff.word a fun hpage => (hp.not_read h hpage hP).2 ha

/-! ## Linked slots -/

theorem linkSlots_below {page u i : ℕ} (hu : 0 < u) (hi : i < j) :
    (linkSlots page u n j s).word (page + i * u) = s.word (page + i * u) := by
  induction n generalizing j s with
  | zero => rfl
  | succ n ih =>
    have hne : page + i * u ≠ page + j * u := by
      have := Nat.mul_lt_mul_of_pos_right hi hu
      omega
    rw [linkSlots, ih (by omega)]
    simp [KHeap.store, update_of_ne hne]

theorem linkSlots_slot {page u i : ℕ} (hu : 0 < u) (hj : j ≤ i) (hi : i < j + n) :
    (linkSlots page u n j s).word (page + i * u) = page + (i + 1) * u := by
  induction n generalizing j s with
  | zero => omega
  | succ n ih =>
    rw [linkSlots]
    rcases hj.eq_or_lt with rfl | hlt
    · rw [linkSlots_below hu (Nat.lt_succ_self _)]
      simp [KHeap.store]
    · exact ih hlt (by omega)

theorem paToPage_slot (hdvd : PGSIZE ∣ p) (hj : j ≤ lastSlot c.unit) :
    paToPage (p + j * c.unit) = p :=
  (in_start c.unit_pos p j).pageOf_eq hdvd (slot_fits hj)

theorem linkSlots_onlyPage (hdvd : PGSIZE ∣ p) (hfit : j + n ≤ lastSlot c.unit) :
    OnlyPage p s (linkSlots p c.unit n j s) := by
  induction n generalizing j s with
  | zero => exact OnlyPage.refl p s
  | succ n ih =>
    rw [linkSlots]
    exact ((OnlyPage.refl p s).store (paToPage_slot hdvd (by omega)) _).trans (ih (by omega))

/-- The slots of one page in order. -/
theorem seg_pageSlots {word : ℕ → ℕ} (hp : 0 < p)
    (hlink : ∀ j, c.firstSlot ≤ j → j < lastSlot c.unit →
      word (p + j * c.unit) = p + (j + 1) * c.unit)
    (hlast : word (p + lastSlot c.unit * c.unit) = t) :
    Seg NULL word (p + c.firstSlot * c.unit) (pageSlots c p) t := by
  have hlt := c.firstSlot_lt
  refine seg_range hp (fun j hj hlt' => hlink j hj (by omega)) ?_
  rw [show c.firstSlot + (lastSlot c.unit - c.firstSlot) = lastSlot c.unit by omega]
  exact hlast

theorem slot_ne {j' : ℕ} (h : j < j') : p + j * c.unit ≠ p + j' * c.unit := by
  have := Nat.mul_lt_mul_of_pos_right h c.unit_pos
  omega

theorem paToPage_page (hdvd : PGSIZE ∣ p) : paToPage p = p := pageOf_eq_self hdvd

/-- The words of a page of a small pool once it is linked to what follows. -/
theorem small_page_linked (hc : c.Small) {v : ℕ} (hp : 0 < p) (hdvd : PGSIZE ∣ p) {r : KHeap}
    (hsame : ∀ a, paToPage a = p →
      r.word a = (linkSlots p c.unit (lastSlot c.unit - 1) 1 s).word a) :
    let s₂ := (r.store p v).store (p + lastSlot c.unit * c.unit) t
    OnlyPage p r s₂ ∧ s₂.word p = v ∧
      Seg NULL s₂.word (p + c.firstSlot * c.unit) (pageSlots c p) t := by
  have hfirst : c.firstSlot = 1 := if_pos hc
  have hlt := c.firstSlot_lt
  have hlast := paToPage_slot (c := c) hdvd (le_refl (lastSlot c.unit))
  have hzero : ∀ j, 0 < j → p ≠ p + j * c.unit := by
    intro j hj
    have := slot_ne (c := c) (p := p) hj
    omega
  refine ⟨((OnlyPage.refl p r).store (paToPage_page hdvd) v).store hlast t, ?_, ?_⟩
  · simp [KHeap.store, update_of_ne (hzero (lastSlot c.unit) (by omega))]
  · apply seg_pageSlots hp
    · intro j hj hjlt
      have hne : p + j * c.unit ≠ p + lastSlot c.unit * c.unit := slot_ne hjlt
      have hne' : p + j * c.unit ≠ p := (hzero j (by omega)).symm
      simp only [KHeap.store, update_of_ne hne, update_of_ne hne']
      rw [hsame _ (paToPage_slot hdvd hjlt.le)]
      exact linkSlots_slot c.unit_pos (by omega) (by omega)
    · simp [KHeap.store]

/-- The words of a page of a large pool once it is linked to what follows. -/
theorem large_page_linked (hp : 0 < p) (hdvd : PGSIZE ∣ p) {r : KHeap}
    (hsame : ∀ a, paToPage a = p →
      r.word a = (linkSlots p c.unit (lastSlot c.unit) 0 s).word a) :
    let s₂ := r.store (p + lastSlot c.unit * c.unit) t
    OnlyPage p r s₂ ∧ Seg NULL s₂.word (p + c.firstSlot * c.unit) (pageSlots c p) t := by
  have hlast := paToPage_slot (c := c) hdvd (le_refl (lastSlot c.unit))
  refine ⟨(OnlyPage.refl p r).store hlast t, ?_⟩
  apply seg_pageSlots hp
  · intro j hj hjlt
    have hne : p + j * c.unit ≠ p + lastSlot c.unit * c.unit := slot_ne hjlt
    simp only [KHeap.store, update_of_ne hne]
    rw [hsame _ (paToPage_slot hdvd hjlt.le)]
    exact linkSlots_slot c.unit_pos (Nat.zero_le _) (by omega)
  · simp [KHeap.store]

/-! ## Pages of a small pool -/

/-- Pages of no cache, all but possibly the first of them new. -/
structure NewPages (live live' : List (ℕ × ℕ)) (pool : CacheId → Option Pool) (cur : ℕ)
    (pages : List ℕ) : Prop where
  spare : ∀ p ∈ pages, Spare live' pool p
  nodup : pages.Nodup
  new : ∀ p ∈ pages, p = cur ∨ (p, 0) ∉ live

theorem NewPages.cons {live₁ live' : List (ℕ × ℕ)} {cur newpg : ℕ} {pages : List ℕ}
    (h : NewPages live₁ live' pool newpg pages) (hsub : live ⊆ live₁) (hnew : (newpg, 0) ∉ live)
    (hheld : (cur, 0) ∈ live) (hcur : Spare live' pool cur) :
    NewPages live live' pool cur (cur :: pages) where
  spare p hp := by
    rcases List.mem_cons.mp hp with rfl | hp
    · exact hcur
    · exact h.spare p hp
  nodup := by
    refine List.nodup_cons.mpr ⟨fun hmem => ?_, h.nodup⟩
    rcases h.new cur hmem with rfl | hold
    · exact hnew hheld
    · exact hold (hsub hheld)
  new p hp := by
    rcases List.mem_cons.mp hp with rfl | hp
    · exact Or.inl rfl
    · refine Or.inr fun hmem => ?_
      rcases h.new p hp with rfl | hold
      · exact hnew hmem
      · exact hold (hsub hmem)

theorem smallPages_spec (hc : c.Small) {cur last : ℕ} (h : SlabInv L s live pool)
    (hcur : Spare live pool cur) (hcall : smallPages L c.unit n cur s = .ok (last, s')) :
    ∃ pre live', SlabInv L s' live' pool ∧ live ⊆ live' ∧ s'.cache = s.cache ∧ pre.length = n ∧
      NewPages live live' pool cur (pre ++ [last]) ∧ Seg NULL s'.word cur pre last ∧
      Seg NULL s'.word (cur + c.firstSlot * c.unit) (pre.flatMap (pageSlots c))
        (last + c.firstSlot * c.unit) ∧
      ∀ a, (paToPage a, 0) ∈ live → paToPage a ≠ cur → s'.word a = s.word a := by
  induction n generalizing s cur live with
  | zero =>
    simp only [smallPages, Except.ok.injEq, Prod.mk.injEq] at hcall
    obtain ⟨rfl, rfl⟩ := hcall
    refine ⟨[], live, h, List.Subset.refl _, rfl, rfl, ⟨?_, by simp, by simp⟩, rfl, rfl,
      fun _ _ _ => rfl⟩
    simpa using hcur
  | succ n ih =>
    simp only [smallPages, bind_eq_ok] at hcall
    obtain ⟨⟨newpg, s₂⟩, halloc, hcall⟩ := hcall
    have hdvd := h.heap.dvd_page hcur.held
    have hpos := h.heap.page_pos hcur.held
    have hlt := c.firstSlot_lt
    have hlink : OnlyPage cur s (linkSlots cur c.unit (lastSlot c.unit - 1) 1 s) :=
      linkSlots_onlyPage hdvd (by omega)
    obtain ⟨hnew, h₂, hcache₂, hword₂⟩ := allocPage_spec (h.onlyPage hcur hlink) halloc
    have hne : cur ≠ newpg := by
      rintro rfl
      exact hnew hcur.held
    have hcur₂ : Spare ((newpg, 0) :: live) pool cur :=
      ⟨List.mem_cons_of_mem _ hcur.held, hcur.out⟩
    obtain ⟨hoff, hfirst, hslots⟩ := small_page_linked (v := newpg) (t := newpg + c.unit) hc hpos
      hdvd (r := s₂) (fun a ha => hword₂ a (by rw [ha]; exact hne))
    have hnewpg : Spare ((newpg, 0) :: live) pool newpg := Spare.of_new h hnew
    obtain ⟨pre, live', h', hsub, hcache', hlen, hpages, hchain, hslots', hframe⟩ :=
      ih (h₂.onlyPage hcur₂ hoff) hnewpg hcall
    have hkeep : ∀ a, paToPage a = cur → s'.word a =
        ((s₂.store cur newpg).store (cur + lastSlot c.unit * c.unit) (newpg + c.unit)).word a := by
      intro a ha
      apply hframe a
      · rw [ha]
        exact hcur₂.held
      · rw [ha]
        exact hne
    refine ⟨cur :: pre, live', h', fun b hb => hsub (List.mem_cons_of_mem _ hb), ?_,
      by rw [List.length_cons, hlen], ?_, ?_, ?_, ?_⟩
    · rw [hcache', hoff.cache, hcache₂, hlink.cache]
    · exact hpages.cons (List.subset_cons_self _ _) hnew hcur.held
        ⟨hsub (List.mem_cons_of_mem _ hcur.held), hcur.out⟩
    · refine ⟨rfl, by simp only [NULL]; omega, ?_⟩
      rw [hkeep cur (paToPage_page hdvd), hfirst]
      exact hchain
    · rw [List.flatMap_cons]
      refine (hslots.congr fun a ha => hkeep a ?_).append ?_
      · obtain ⟨j, -, hj, rfl⟩ := mem_pageSlots.mp ha
        exact paToPage_slot hdvd hj
      · have hfirst1 : c.firstSlot = 1 := if_pos hc
        rw [hfirst1, Nat.one_mul] at hslots' ⊢
        exact hslots'
    · intro a ha hacur
      have hanew : paToPage a ≠ newpg := by
        rintro heq
        exact hnew (heq ▸ ha)
      rw [hframe a (List.mem_cons_of_mem _ ha) hanew, hoff.word a hacur, hword₂ a hanew,
        hlink.word a hacur]

/-- What `init_small_object_pool` builds: linked pages whose slots are linked in
order. -/
theorem initSmall_spec (hc : c.Small) {firstpg : ℕ} (h : SlabInv L s live pool)
    (hcall : initSmallObjectPool L c.unit n s = .ok (firstpg, s')) :
    ∃ pages live', SlabInv L s' live' pool ∧ live ⊆ live' ∧ s'.cache = s.cache ∧
      pages.length = n - 1 + 1 ∧ pages.Nodup ∧
      (∀ p ∈ pages, Spare live' pool p ∧ (p, 0) ∉ live) ∧ Seg NULL s'.word firstpg pages NULL ∧
      Seg NULL s'.word (firstpg + c.firstSlot * c.unit) (pages.flatMap (pageSlots c)) NULL ∧
      ∀ a, (paToPage a, 0) ∈ live → s'.word a = s.word a := by
  simp only [initSmallObjectPool, bind_eq_ok, pure_eq_ok,
    Prod.mk.injEq] at hcall
  obtain ⟨⟨firstpg', s₁⟩, halloc, ⟨last, s₂⟩, hloop, rfl, rfl⟩ := hcall
  obtain ⟨hnew, h₁, hcache₁, hword₁⟩ := allocPage_spec h halloc
  obtain ⟨pre, live', h₂, hsub, hcache₂, hlen, hpages, hchain, hslots, hframe⟩ :=
    smallPages_spec hc h₁ (Spare.of_new h hnew) hloop
  have hlast : last ∈ pre ++ [last] := by simp
  have hspare := hpages.spare last hlast
  have hdvd := h₂.heap.dvd_page hspare.held
  have hpos := h₂.heap.page_pos hspare.held
  have hlt := c.firstSlot_lt
  have hlink : OnlyPage last s₂ (linkSlots last c.unit (lastSlot c.unit - 1) 1 s₂) :=
    linkSlots_onlyPage hdvd (by omega)
  obtain ⟨hoff, hfirst, hslots'⟩ := small_page_linked (s := s₂) (v := NULL) (t := NULL) hc hpos hdvd
    (fun a _ => rfl)
  have hall := hlink.trans hoff
  have hnew' : ∀ p ∈ pre ++ [last], (p, 0) ∉ live := by
    intro p hp hmem
    rcases hpages.new p hp with rfl | hold
    · exact hnew hmem
    · exact hold (List.mem_cons_of_mem _ hmem)
  have hother : ∀ p ∈ pre, p ≠ last := by
    rintro p hp rfl
    exact (List.nodup_append.mp hpages.nodup).2.2 p hp p (by simp) rfl
  have hpre : ∀ p ∈ pre, PGSIZE ∣ p := fun p hp =>
    h₂.heap.dvd_page (hpages.spare p (List.mem_append_left _ hp)).held
  refine ⟨pre ++ [last], live', h₂.onlyPage hspare hall,
    fun b hb => hsub (List.mem_cons_of_mem _ hb),
    hall.cache.trans (hcache₂.trans hcache₁), by simp [hlen], hpages.nodup,
    fun p hp => ⟨hpages.spare p hp, hnew' p hp⟩, ?_, ?_, ?_⟩
  · refine (hchain.congr fun p hp => hall.word p ?_).append
      ⟨rfl, by simp only [NULL]; omega, hfirst⟩
    rw [paToPage_page (hpre p hp)]
    exact hother p hp
  · rw [List.flatMap_append]
    refine (hslots.congr fun a ha => hall.word a ?_).append (by simpa using hslots')
    obtain ⟨p, hp, ha⟩ := List.mem_flatMap.mp ha
    obtain ⟨j, -, hj, rfl⟩ := mem_pageSlots.mp ha
    rw [paToPage_slot (hpre p hp) hj]
    exact hother p hp
  · intro a ha
    have halast : paToPage a ≠ last := by
      rintro heq
      exact hnew' last hlast (heq ▸ ha)
    have hafirst : paToPage a ≠ firstpg' := by
      rintro heq
      exact hnew (heq ▸ ha)
    rw [hall.word a halast, hframe a (List.mem_cons_of_mem _ ha) hafirst, hword₁ a hafirst]

end LearnOS
