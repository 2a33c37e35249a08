import LearnOS.Slab.Pool

/-!
# The invariant of the slab caches

All caches share one memory, and the page nodes of the large pools are live
objects of `g_slab_16`. `SlabInv` says that the pages of different caches are
different pages in use, and that every cache represents its pool. A step of
one cache keeps the others because it writes only words they do not read.
-/

namespace LearnOS

open LinkedList Slots BuddySystem Ownership Function

structure SlabInv (L : Layout) (s : KHeap) (live : List (ℕ × ℕ)) (pool : CacheId → Option Pool) :
    Prop where
  heap : HeapInv L ⟨s.mem.buddy, live⟩
  ok : ∀ c P, pool c = some P → PoolOk c P
  rep : ∀ c P, pool c = some P → PoolRep c s.word (s.cache c) P
  held : ∀ c P p, pool c = some P → p ∈ P.pages → (p, 0) ∈ live
  apart : ∀ c c' P P' p, pool c = some P → pool c' = some P' → p ∈ P.pages → p ∈ P'.pages → c = c'
  nodes_live : ∀ c P n, pool c = some P → n ∈ P.nodes →
    ∃ Q, pool .gSlab16 = some Q ∧ n ∈ Q.live

/-- The object is a page node of some large pool. -/
def IsNode (pool : CacheId → Option Pool) (n : ℕ) : Prop :=
  ∃ c P, pool c = some P ∧ n ∈ P.nodes

section Words

variable {L : Layout} {s : KHeap} {live : List (ℕ × ℕ)} {pool : CacheId → Option Pool}
  {c c' : CacheId} {P P' : Pool} {a : ℕ}

theorem mem_nodeWords_iff : a ∈ nodeWords P ↔ ∃ n ∈ P.nodes, a = n ∨ a = lnodeNext n := by
  simp only [nodeWords, List.mem_append, List.mem_map]
  constructor
  · rintro (h | ⟨n, hn, rfl⟩)
    · exact ⟨a, h, Or.inl rfl⟩
    · exact ⟨n, hn, Or.inr rfl⟩
  · rintro ⟨n, hn, rfl | rfl⟩
    · exact Or.inl hn
    · exact Or.inr ⟨n, hn, rfl⟩

theorem nodeWords_range (ha : a ∈ nodeWords P) :
    ∃ n ∈ P.nodes, n ≤ a ∧ a < n + CacheId.unit .gSlab16 := by
  obtain ⟨n, hn, hword⟩ := mem_nodeWords_iff.mp ha
  refine ⟨n, hn, ?_⟩
  rw [show CacheId.unit .gSlab16 = 16 from rfl]
  rcases hword with rfl | rfl
  · omega
  · simp only [lnodeNext]
    omega

/-- Inside the pages of one cache, the others read nothing of their own. -/
theorem SlabInv.not_own_of_page (h : SlabInv L s live pool) (hP : pool c = some P)
    (hpage : paToPage a ∈ P.pages) (hP' : pool c' = some P') (hne : c' ≠ c) :
    a ∉ ownWords c' P' :=
  fun ha => hne (h.apart c' c P' P _ hP' hP ((h.ok c' P' hP').page_of_own ha) hpage)

/-- Inside the pages of one cache, nodes are found only in live objects. -/
theorem SlabInv.not_node_of_page (h : SlabInv L s live pool) (hP : pool c = some P)
    (hpage : paToPage a ∈ P.pages)
    (hobj : ∀ n ∈ P.live, IsNode pool n → n ≤ a → ¬ a < n + c.unit) (hP' : pool c' = some P') :
    a ∉ nodeWords P' := by
  intro ha
  obtain ⟨n, hn, hrange⟩ := nodeWords_range ha
  obtain ⟨Q, hQ, hlive⟩ := h.nodes_live c' P' n hP' hn
  have hQpage := page_of_object (h.ok _ Q hQ).aligned ((h.ok _ Q hQ).live_slot hlive) hrange.1
    hrange.2
  have hc := h.apart c _ P Q _ hP hQ hpage hQpage
  subst hc
  cases hP.symm.trans hQ
  exact hobj n hlive ⟨c', P', hP', hn⟩ hrange.1 hrange.2

/-- Outside all pages of the caches nothing is read. -/
theorem SlabInv.not_read_of_out (h : SlabInv L s live pool)
    (hout : ∀ c P, pool c = some P → paToPage a ∉ P.pages) (hP : pool c = some P) :
    a ∉ ownWords c P ∧ a ∉ nodeWords P := by
  refine ⟨fun ha => hout c P hP ((h.ok c P hP).page_of_own ha), fun ha => ?_⟩
  obtain ⟨n, hn, hle, hlt⟩ := nodeWords_range ha
  obtain ⟨Q, hQ, hlive⟩ := h.nodes_live c P n hP hn
  have hok := h.ok _ Q hQ
  exact hout _ Q hQ (page_of_object hok.aligned (hok.live_slot hlive) hle hlt)

/-- No cache reads a live object that is not a node. -/
theorem SlabInv.not_read_of_object (h : SlabInv L s live pool) (hP : pool c = some P) {x : ℕ}
    (hx : x ∈ P.live) (hnode : ¬ IsNode pool x) (hle : x ≤ a) (hlt : a < x + c.unit)
    (hP' : pool c' = some P') : a ∉ ownWords c' P' ∧ a ∉ nodeWords P' := by
  have hok := h.ok c P hP
  have hpage := page_of_object hok.aligned (hok.live_slot hx) hle hlt
  constructor
  · by_cases hc : c' = c
    · subst hc
      rw [hP, Option.some.injEq] at hP'
      subst hP'
      exact hok.object_not_own hx hle hlt
    · exact h.not_own_of_page hP hpage hP' hc
  · refine h.not_node_of_page hP hpage (fun n hn hisnode hna han => hnode ?_) hP'
    have heq := object_unique hok.aligned (hok.live_slot hx) (hok.live_slot hn) hle hlt hna han
    rw [heq]
    exact hisnode

theorem isNode_of_update {n : ℕ} (hP : pool c = some P) (hnodes : P'.nodes = P.nodes)
    (h : IsNode (update pool c (some P')) n) : IsNode pool n := by
  obtain ⟨c', R, hR, hn⟩ := h
  rcases eq_some_of_update hR with ⟨rfl, rfl⟩ | ⟨-, hR⟩
  · exact ⟨c', P, hP, hnodes ▸ hn⟩
  · exact ⟨c', R, hR, hn⟩

/-- One cache takes a step to a new pool, and the words of the others stay. -/
theorem SlabInv.replace (h : SlabInv L s live pool) {s' : KHeap} {live' : List (ℕ × ℕ)}
    (hheap : HeapInv L ⟨s'.mem.buddy, live'⟩) (hsub : live ⊆ live')
    (hcache : ∀ c', c' ≠ c → s'.cache c' = s.cache c')
    (hword : ∀ c' Q, c' ≠ c → pool c' = some Q →
      (∀ a ∈ ownWords c' Q, s'.word a = s.word a) ∧ ∀ a ∈ nodeWords Q, s'.word a = s.word a)
    (hok : PoolOk c P') (hrep : PoolRep c s'.word (s'.cache c) P')
    (hheld : ∀ p ∈ P'.pages, (p, 0) ∈ live')
    (hpages : ∀ p ∈ P'.pages, ∀ c' Q, c' ≠ c → pool c' = some Q → p ∉ Q.pages)
    (hnodes : ∀ n ∈ P'.nodes, ∃ Q, update pool c (some P') .gSlab16 = some Q ∧ n ∈ Q.live)
    (hkeep : ∀ P, pool c = some P → ∀ n ∈ P.live, IsNode pool n → n ∈ P'.live) :
    SlabInv L s' live' (update pool c (some P')) := by
  refine ⟨hheap, ?_, ?_, ?_, ?_, ?_⟩
  · intro c' Q hQ
    rcases eq_some_of_update hQ with ⟨rfl, rfl⟩ | ⟨hc, hQ⟩
    · exact hok
    · exact h.ok c' Q hQ
  · intro c' Q hQ
    rcases eq_some_of_update hQ with ⟨rfl, rfl⟩ | ⟨hc, hQ⟩
    · exact hrep
    · rw [hcache c' hc]
      exact (h.rep c' Q hQ).congr (hword c' Q hc hQ).1 (hword c' Q hc hQ).2
  · intro c' Q p hQ hp
    rcases eq_some_of_update hQ with ⟨rfl, rfl⟩ | ⟨hc, hQ⟩
    · exact hheld p hp
    · exact hsub (h.held c' Q p hQ hp)
  · intro c₁ c₂ Q₁ Q₂ p hQ₁ hQ₂ hp₁ hp₂
    rcases eq_some_of_update hQ₁ with ⟨rfl, rfl⟩ | ⟨hc₁, hold₁⟩ <;>
      rcases eq_some_of_update hQ₂ with ⟨rfl, rfl⟩ | ⟨hc₂, hold₂⟩
    · rfl
    · exact absurd hp₂ (hpages p hp₁ c₂ Q₂ hc₂ hold₂)
    · exact absurd hp₁ (hpages p hp₂ c₁ Q₁ hc₁ hold₁)
    · exact h.apart c₁ c₂ Q₁ Q₂ p hold₁ hold₂ hp₁ hp₂
  · intro c' Q n hQ hn
    rcases eq_some_of_update hQ with ⟨rfl, rfl⟩ | ⟨hc, hold⟩
    · exact hnodes n hn
    · obtain ⟨R, hR, hlive⟩ := h.nodes_live c' Q n hold hn
      by_cases hc16 : c = .gSlab16
      · subst hc16
        exact ⟨P', update_self _ _ _, hkeep R hR n hlive ⟨c', Q, hold, hn⟩⟩
      · refine ⟨R, ?_, hlive⟩
        rw [update_of_ne (Ne.symm hc16)]
        exact hR

end Words

end LearnOS
