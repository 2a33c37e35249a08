import LearnOS.Ipc.MsgChain
import Mathlib.Algebra.BigOperators.Group.Finset.Basic
import Mathlib.Algebra.Order.Group.Multiset
import Mathlib.Tactic.Abel

/-!
# Blocks that belong to the tables

`Owns` says of a collection of blocks that `kmalloc` has given all of them out and
none is back. Blocks are counted with multiplicity, so what is owned is owned once.
-/

namespace LearnOS.Ipc

open LearnOS Transition LinkedList Function Kres

variable {L : Layout} {k k' : Kernel} {id : ℕ} {as : List ℕ} {chains : ℕ → List ℕ}
  {B B' : Multiset (ℕ × ℕ)}
  {a sz : ℕ}

/-- The allocator has given out the blocks, each a pair of address and size. -/
def Owns (L : Layout) (k : Kernel) (B : Multiset (ℕ × ℕ)) : Prop :=
  ∃ held live pool, KmInv L ⟨k.heap, held⟩ live pool ∧ B ≤ held

theorem Owns.congr (h : Owns L k B) (hheap : k'.heap = k.heap) : Owns L k' B := by
  obtain ⟨held, live, pool, hinv, hle⟩ := h
  exact ⟨held, live, pool, by rwa [hheap], hle⟩

theorem Owns.mono (h : Owns L k B) (hle : B' ≤ B) : Owns L k B' := by
  obtain ⟨held, live, pool, hinv, hheld⟩ := h
  exact ⟨held, live, pool, hinv, hle.trans hheld⟩

/-- No block is owned twice. -/
theorem Owns.nodup (h : Owns L k B) : B.Nodup := by
  obtain ⟨held, live, pool, hinv, hle⟩ := h
  refine Multiset.nodup_of_le hle (Multiset.coe_nodup.mpr ?_)
  refine hinv.distinct.imp_of_mem fun {b b'} hb _ hdistinct heq => ?_
  subst heq
  obtain ⟨owner, howner, -⟩ := hinv.held b hb
  exact hdistinct owner howner howner rfl

theorem Owns.ne_null (h : Owns L k B) (ha : (a, 512) ∈ B) : a ≠ NULL := by
  obtain ⟨held, live, pool, hinv, hle⟩ := h
  have hmem := Multiset.mem_of_le hle ha
  obtain ⟨owner, howner, hheld⟩ := hinv.held (a, 512) hmem
  obtain rfl : Owner.slab .gSlab512 = owner := Except.ok.inj howner
  obtain ⟨⟨P, hP, hp⟩, -⟩ := hheld
  exact hinv.slab.object_ne_null hP hp

theorem Owns.kmallocNode (h : Owns L k B) (hcall : k.kmallocNode L sz = .ok (a, k')) :
    Owns L k' ((a, sz) ::ₘ B) := by
  obtain ⟨s, hs, rfl, hnull⟩ := Kernel.kmallocNode_ok hcall
  obtain ⟨held, live, pool, hinv, hle⟩ := h
  obtain ⟨live', pool', hinv'⟩ := kmInv_kmalloc hinv hs
  rw [if_neg hnull] at hinv'
  exact ⟨(a, sz) :: held, live', pool', hinv', Multiset.cons_le_cons _ hle⟩

theorem Owns.kmalloc (h : Owns L k B) (hcall : k.kmalloc L sz = .ok (a, k')) :
    Owns L k' B := by
  obtain ⟨s, hs, rfl⟩ := Kernel.kmalloc_ok hcall
  obtain ⟨held, live, pool, hinv, hle⟩ := h
  obtain ⟨live', pool', hinv'⟩ := kmInv_kmalloc hinv hs
  refine ⟨_, live', pool', hinv', hle.trans ?_⟩
  split
  · exact le_refl _
  · exact Multiset.le_cons_self _ _

/-- A block that is owned can be given back. -/
theorem Owns.kmfree_returns (h : Owns L k ((a, sz) ::ₘ B)) (hsz : MatchedSize sz) :
    ∃ k', k.kmfree L a sz = .ok k' := by
  obtain ⟨held, live, pool, hinv, hle⟩ := h
  have hmem : (a, sz) ∈ held := by
    have hcons := Multiset.mem_of_le hle (Multiset.mem_cons_self (a, sz) B)
    exact hcons
  obtain ⟨s, -, -, hs, -⟩ := kmInv_kmfree hinv hmem hsz
  exact ⟨k.setHeap s, by simp [Kernel.kmfree, hs]⟩

theorem Owns.kmfree (h : Owns L k ((a, sz) ::ₘ B)) (hsz : MatchedSize sz)
    (hcall : k.kmfree L a sz = .ok k') : Owns L k' B := by
  obtain ⟨s, hs, rfl⟩ := Kernel.kmfree_ok hcall
  obtain ⟨held, live, pool, hinv, hle⟩ := h
  have hmem : (a, sz) ∈ held := by
    have hcons := Multiset.mem_of_le hle (Multiset.mem_cons_self (a, sz) B)
    exact hcons
  obtain ⟨s', live', pool', hs', hinv'⟩ := kmInv_kmfree hinv hmem hsz
  obtain rfl : s' = s := Except.ok.inj (hs'.symm.trans hs)
  refine ⟨held.erase (a, sz), live', pool', hinv', ?_⟩
  have herase := Multiset.erase_le_erase (a, sz) hle
  rw [Multiset.erase_cons_head, Multiset.coe_erase] at herase
  convert herase

/-- One of the shares of a sum is replaced. -/
theorem sum_update_add {ι α M : Type*} [DecidableEq ι] [AddCommMonoid M] {t : Finset ι} {i : ι}
    (hi : i ∈ t) (f : ι → α) (g : α → M) (x : α) :
    (∑ j ∈ t, g (update f i x j)) + g (f i) = (∑ j ∈ t, g (f j)) + g x := by
  rw [← Finset.add_sum_erase t (fun j => g (update f i x j)) hi,
    ← Finset.add_sum_erase t (fun j => g (f j)) hi, update_self,
    Finset.sum_congr rfl fun j hj => by rw [update_of_ne (Finset.ne_of_mem_erase hj)]]
  abel

/-! ## Messages -/

/-- The blocks of messages. -/
def msgBlocks (as : Multiset ℕ) : Multiset (ℕ × ℕ) := as.map fun a => (a, 512)

theorem msgBlocks_cons (a : ℕ) (as : List ℕ) :
    msgBlocks ↑(a :: as) = (a, 512) ::ₘ msgBlocks as := rfl

theorem msgBlocks_add (as bs : Multiset ℕ) :
    msgBlocks (as + bs) = msgBlocks as + msgBlocks bs := Multiset.map_add _ _ _

/-- The messages of a queue are all given back. -/
theorem destructLoop_owns {n : ℕ} (hseg : Seg NULL k.next a as NULL)
    (h : Owns L k (msgBlocks as + B)) (hcall : destructLoop L n a k = .ok k') :
    Owns L k' B := by
  induction as generalizing n a k with
  | nil =>
    have hnull : a = NULL := hseg
    have hok : destructLoop L n a k = .ok k := by
      cases n with
      | zero | succ n => simp [destructLoop, hnull]
    cases hok.symm.trans hcall
    simpa [msgBlocks] using h
  | cons x l ih =>
    obtain ⟨rfl, hne, hrest⟩ := hseg
    cases n with
    | zero =>
      simp only [destructLoop, if_neg hne] at hcall
      cases hcall
    | succ n =>
      simp only [destructLoop, if_neg hne, bind_eq_ok] at hcall
      obtain ⟨k₁, hk₁, hcall⟩ := hcall
      have hfree : Owns L k₁ (msgBlocks l + B) := by
        refine Owns.kmfree ?_ (Or.inl (by decide) : MatchedSize 512) hk₁
        rwa [msgBlocks_cons, Multiset.cons_add] at h
      obtain ⟨s, -, rfl⟩ := Kernel.kmfree_ok hk₁
      exact ih (k := k.setHeap s) hrest hfree hcall

/-- The queue is destroyed with its messages. -/
theorem msqReinit_owns (hseg : Seg NULL k.next (k.msqid id).first as NULL)
    (h : Owns L k (msgBlocks as + B)) (hcall : msqReinit L id k = .ok k') : Owns L k' B := by
  simp only [msqReinit] at hcall
  split at hcall
  · cases hcall
  · simp only [bind_eq_ok, pure_eq_ok] at hcall
    obtain ⟨k₁, hk₁, rfl⟩ := hcall
    exact (destructLoop_owns hseg h hk₁).congr rfl

end LearnOS.Ipc
