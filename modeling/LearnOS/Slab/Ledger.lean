import LearnOS.Slab.Alloc

/-!
# Which objects are live

The pools of `SlabInv` are found in memory. This module accounts for them: the
live objects of a cache are the ones its callers hold, and for `g_slab_16` also
the page nodes of the large pools. As long as no object has gone astray, every
slot but the head of the list is free or live.
-/

namespace LearnOS

open LinkedList Slots Ownership Function

variable {c c' : CacheId} {P P' Q Q' : Pool} {pool pool' : CacheId → Option Pool}
  {x : ℕ}

/-! ## Pools that hand out objects -/

/-- Every slot but the head of the list is free or live. -/
def Pool.Covered (c : CacheId) (P : Pool) : Prop :=
  ∀ x ∈ P.pages.flatMap (pageSlots c), x = headSlot c P.pages ∨ x ∈ P.free ++ P.live

theorem Pool.Covered.fresh {pages : List ℕ} (nodes : List ℕ) (hne : pages ≠ []) :
    (Pool.fresh c pages nodes).Covered c := by
  intro x hx
  simp only [Pool.fresh] at hx ⊢
  rw [slots_eq_cons hne] at hx
  simpa using hx

theorem Pool.Covered.pop (h : P.Covered c) {f : List ℕ} (hfree : P.free = x :: f) :
    (P.pop x f).Covered c := by
  intro y hy
  rcases h y hy with hhead | hmem
  · exact Or.inl hhead
  · right
    rw [hfree] at hmem
    exact List.perm_middle.mem_iff.mpr hmem

theorem Pool.Covered.grow (h : P.Covered c) (hnil : P.free = []) (p : ℕ) (nodes : List ℕ) :
    (P.grow c p nodes).Covered c := by
  intro y hy
  simp only [Pool.grow, List.flatMap_cons, List.mem_append] at hy ⊢
  rcases hy with hy | hy
  · rw [pageSlots_eq_cons] at hy
    rcases List.mem_cons.mp hy with rfl | hy
    · exact Or.inl (by simp [headSlot])
    · exact Or.inr (Or.inl (Or.inl hy))
  · rcases h y hy with rfl | hmem
    · exact Or.inr (Or.inl (Or.inr (by simp)))
    · rw [hnil, List.nil_append] at hmem
      exact Or.inr (Or.inr hmem)

theorem Pool.Serves.covered {xs : List ℕ} (h : P.Serves c xs P') (hP : P.Covered c) :
    P'.Covered c := by
  induction h with
  | done => exact hP
  | pop hfree _ ih => exact ih (hP.pop hfree)
  | grow hnil hfree _ ih => exact ih ((hP.grow hnil _ _).pop hfree)

/-- The first free slot is handed out, and without one the pool grows by a page. -/
theorem Pool.Serves.one (h : P.Serves c [x] P') :
    (∃ f, P.free = x :: f ∧ P' = P.pop x f) ∨
      P.free = [] ∧ ∃ p nodes f, (P.grow c p nodes).free = x :: f ∧
        P' = (P.grow c p nodes).pop x f := by
  cases h with
  | pop hfree h =>
    cases h
    exact Or.inl ⟨_, hfree, rfl⟩
  | grow hnil hfree h =>
    cases h
    exact Or.inr ⟨hnil, _, _, _, hfree, rfl⟩

/-! ## The page nodes -/

def CacheId.all : List CacheId :=
  [gSlab8, gSlab16, gSlab32, gSlab64, gSlab128, gSlab256, gSlab512, gSlab1024, gSlab2048,
    gSlabKmemCache]

theorem CacheId.mem_all (c : CacheId) : c ∈ CacheId.all := by cases c <;> decide

theorem CacheId.nodup_all : CacheId.all.Nodup := by decide

/-- The page nodes of one cache. -/
def nodesAt (pool : CacheId → Option Pool) (c : CacheId) : List ℕ := (pool c).elim [] Pool.nodes

/-- The page nodes of all caches. -/
def nodesOf (pool : CacheId → Option Pool) : List ℕ := CacheId.all.flatMap (nodesAt pool)

theorem nodesOf_perm (pool : CacheId → Option Pool) (c : CacheId) :
    (nodesOf pool).Perm (nodesAt pool c ++ (CacheId.all.erase c).flatMap (nodesAt pool)) := by
  have hperm := List.perm_cons_erase c.mem_all
  exact hperm.flatMap_right _

theorem nodesOf_update (pool : CacheId → Option Pool) (c : CacheId) (P : Pool) (xs : List ℕ)
    (hnodes : P.nodes = xs ++ nodesAt pool c) :
    (nodesOf (update pool c (some P))).Perm (xs ++ nodesOf pool) := by
  have hrest : (CacheId.all.erase c).flatMap (nodesAt (update pool c (some P))) =
      (CacheId.all.erase c).flatMap (nodesAt pool) := by
    apply List.flatMap_congr
    intro c' hc'
    have hne : c' ≠ c := ((List.Nodup.mem_erase_iff CacheId.nodup_all).mp hc').1
    simp [nodesAt, update_of_ne hne]
  have hself : nodesAt (update pool c (some P)) c = xs ++ nodesAt pool c := by
    simp [nodesAt, hnodes]
  refine (nodesOf_perm _ c).trans ?_
  rw [hrest, hself, List.append_assoc]
  exact (nodesOf_perm pool c).symm.append_left xs

/-- How the pools change when a cache hands out an object. A large pool that has
to grow first takes a node for its page from `g_slab_16`. -/
inductive Served (c : CacheId) (x : ℕ) (pool : CacheId → Option Pool) :
    (CacheId → Option Pool) → Prop
  | direct {P P' : Pool} (hP : pool c = some P) (hserves : P.Serves c [x] P')
      (hnodes : P'.nodes = P.nodes) : Served c x pool (update pool c (some P'))
  | node {P Q Q' : Pool} {p n : ℕ} {f : List ℕ} (hc : c ≠ .gSlab16) (hP : pool c = some P)
      (hQ : pool .gSlab16 = some Q) (hnil : P.free = []) (hserves : Q.Serves .gSlab16 [n] Q')
      (hnodes : Q'.nodes = Q.nodes) (hfree : (P.grow c p (n :: P.nodes)).free = x :: f) :
      Served c x pool (update (update pool .gSlab16 (some Q')) c
        (some ((P.grow c p (n :: P.nodes)).pop x f)))

/-! ## The balance of held and live objects -/

/-- The objects that callers hold of each cache, with the page nodes for
`g_slab_16`, are the live objects. -/
def Balanced (held : CacheId → List ℕ) (pool : CacheId → Option Pool) : Prop :=
  ∀ c P, pool c = some P →
    P.live.Perm (held c ++ if c = .gSlab16 then nodesOf pool else [])

variable {held : CacheId → List ℕ}

theorem Balanced.update_same (h : Balanced held pool) (hP : pool c = some P)
    (hnodes : P'.nodes = P.nodes) {l : List ℕ}
    (hlive : P'.live.Perm (l ++ if c = .gSlab16 then nodesOf pool else [])) :
    Balanced (update held c l) (update pool c (some P')) := by
  have hperm : (nodesOf (update pool c (some P'))).Perm (nodesOf pool) := by
    apply nodesOf_update _ _ _ []
    simp [nodesAt, hP, hnodes]
  have hif : ∀ c', (if c' = CacheId.gSlab16 then nodesOf (update pool c (some P'))
      else []).Perm (if c' = .gSlab16 then nodesOf pool else []) := by
    intro c'
    split
    · exact hperm
    · exact List.Perm.refl _
  intro c' R hR
  rcases eq_some_of_update hR with ⟨rfl, rfl⟩ | ⟨hc, hR⟩
  · rw [update_self]
    exact hlive.trans ((hif c').symm.append_left l)
  · rw [update_of_ne hc]
    exact (h c' R hR).trans ((hif c').symm.append_left _)

theorem Balanced.take (h : Balanced held pool) (hP : pool c = some P)
    (hnodes : P'.nodes = P.nodes) (hlive : P'.live = x :: P.live) :
    Balanced (update held c (x :: held c)) (update pool c (some P')) := by
  apply h.update_same hP hnodes
  rw [hlive]
  exact (h c P hP).cons x

/-- `g_slab_16` hands out the nodes `xs` of the pages that another cache gets. -/
theorem Balanced.take_nodes (h : Balanced held pool) (hc : c ≠ .gSlab16)
    (hQ : pool .gSlab16 = some Q) {xs : List ℕ} (hserves : Q.Serves .gSlab16 xs Q')
    (hnodes : Q'.nodes = Q.nodes) (hP' : P'.nodes = xs ++ nodesAt pool c) {l : List ℕ}
    (hlive : P'.live.Perm l) :
    Balanced (update held c l)
      (update (update pool .gSlab16 (some Q')) c (some P')) := by
  have hsame : (nodesOf (update pool .gSlab16 (some Q'))).Perm (nodesOf pool) := by
    apply nodesOf_update _ _ _ []
    simp [nodesAt, hQ, hnodes]
  have hperm : (nodesOf (update (update pool .gSlab16 (some Q')) c
      (some P'))).Perm (xs ++ nodesOf pool) := by
    refine (nodesOf_update _ c P' xs ?_).trans (hsame.append_left xs)
    simp only [nodesAt, update_of_ne hc]
    exact hP'
  intro c' R hR
  rcases eq_some_of_update hR with ⟨rfl, rfl⟩ | ⟨hc', hR⟩
  · simpa [hc] using hlive
  · rw [update_of_ne hc']
    rcases eq_some_of_update hR with ⟨rfl, rfl⟩ | ⟨h16, hR⟩
    · have hold := h _ Q hQ
      simp only [if_true] at hold ⊢
      rw [hserves.live_eq]
      calc
        List.Perm (xs.reverse ++ Q.live) (xs ++ Q.live) := xs.reverse_perm.append_right _
        List.Perm _ (xs ++ (held .gSlab16 ++ nodesOf pool)) := hold.append_left xs
        List.Perm _ (held .gSlab16 ++ (xs ++ nodesOf pool)) := by
            rw [← List.append_assoc, ← List.append_assoc]
            exact List.perm_append_comm.append_right _
        List.Perm _ _ := hperm.symm.append_left _
    · simpa [h16] using h c' R hR

theorem Balanced.served (h : Balanced held pool) (hs : Served c x pool pool') :
    Balanced (update held c (x :: held c)) pool' := by
  cases hs with
  | direct hP hserves hnodes => exact h.take hP hnodes (by simpa using hserves.live_eq)
  | @node P Q Q' p n f hc hP hQ hnil hserves hnodes hfree =>
    apply h.take_nodes hc hQ hserves hnodes
    · simp [Pool.pop, Pool.grow, nodesAt, hP]
    · have hold := h c P hP
      simp only [if_neg hc, List.append_nil] at hold
      exact hold.cons x

end LearnOS
