import LearnOS.Sched.Model
import Mathlib.Data.List.Perm.Subperm

/-!
# The lists behind the queues

What `insertMlfq`, `insertNextMlfqTail` and `removeMlfq` do to the lists of nodes
that the heads of the queues lead to.
-/

namespace LearnOS.Sched

open LearnOS LinkedList Function Kres

variable {s s' : SchedState} {ls : Fin NMLFQ → List ℕ} {p : Fin NPROC} {i : Fin NMLFQ} {a : ℕ}
  {l₁ l₂ : List ℕ} {b : ℕ}

/-- The queues hold the lists of nodes `ls`. -/
structure Queues (s : SchedState) (ls : Fin NMLFQ → List ℕ) : Prop where
  linked : ∀ i, Seg NULL s.next (s.queue i).head (ls i) NULL
  tail : ∀ i, (s.queue i).tail = (ls i).getLast?.getD NULL
  nodup : ∀ i, (ls i).Nodup
  apart : ∀ i j, i ≠ j → ∀ a ∈ ls i, a ∉ ls j
  used : ∀ i, ∀ a ∈ ls i, a ∈ s.used

instance (s : SchedState) (ls : Fin NMLFQ → List ℕ) : Decidable (Queues s ls) :=
  decidable_of_iff
    ((∀ i, Seg NULL s.next (s.queue i).head (ls i) NULL ∧
        (s.queue i).tail = (ls i).getLast?.getD NULL ∧ (ls i).Nodup ∧ ∀ a ∈ ls i, a ∈ s.used) ∧
      ∀ i j, i ≠ j → ∀ a ∈ ls i, a ∉ ls j) (by
    constructor
    · rintro ⟨h, hapart⟩
      exact ⟨fun i => (h i).1, fun i => (h i).2.1, fun i => (h i).2.2.1, hapart,
        fun i => (h i).2.2.2⟩
    · intro h
      exact ⟨fun i => ⟨h.linked i, h.tail i, h.nodup i, h.used i⟩, h.apart⟩)

/-- Only the queues and the allocated blocks differ. -/
structure QueuesOnly (s s' : SchedState) : Prop where
  proc : s'.proc = s.proc
  owner : s'.owner = s.owner
  method : s'.method = s.method
  initproc : s'.initproc = s.initproc

theorem Queues.head_eq_null_iff (h : Queues s ls) (i : Fin NMLFQ) :
    (s.queue i).head = NULL ↔ ls i = [] :=
  (h.linked i).eq_nil_iff.symm

theorem Queues.tail_eq (h : Queues s ls) {l : List ℕ} (hl : ls i = l ++ [a]) :
    (s.queue i).tail = a := by
  rw [h.tail, hl, List.getLast?_concat, Option.getD_some]

theorem Queues.tail_eq_null_iff (h : Queues s ls) (i : Fin NMLFQ) :
    (s.queue i).tail = NULL ↔ ls i = [] := by
  constructor
  · intro htail
    rcases List.eq_nil_or_concat (ls i) with hnil | ⟨l, a, hl⟩
    · exact hnil
    · rw [List.concat_eq_append] at hl
      rw [h.tail_eq hl] at htail
      have hmem : a ∈ ls i := by simp [hl]
      exact absurd htail ((h.linked i).ne_null a hmem)
  · intro hnil
    rw [h.tail, hnil]
    rfl

/-- The walks along a queue are not cut short. -/
theorem Queues.length_lt (h : Queues s ls) (i : Fin NMLFQ) : (ls i).length < s.used.length + 1 :=
  Nat.lt_succ_of_le (List.subperm_of_subset (h.nodup i) (h.used i)).length_le

/-- The queues do not depend on the processes. -/
theorem Queues.congr (h : Queues s ls) (hqueue : s'.queue = s.queue) (hnode : s'.node = s.node)
    (hused : s'.used = s.used) : Queues s' ls where
  linked i := by
    have hnext : s'.next = s.next := by
      funext a
      simp only [SchedState.next, hnode]
    rw [hqueue, hnext]
    exact h.linked i
  tail i := by
    rw [hqueue]
    exact h.tail i
  nodup := h.nodup
  apart := h.apart
  used := by
    rw [hused]
    exact h.used

/-- One queue gets a new list; the others and their nodes stay. -/
theorem Queues.change {l : List ℕ} (h : Queues s ls) (hqueue : ∀ j ≠ i, s'.queue j = s.queue j)
    (hframe : ∀ j ≠ i, ∀ b ∈ ls j, s'.next b = s.next b ∧ b ∉ l ∧ b ∈ s'.used)
    (hlinked : Seg NULL s'.next (s'.queue i).head l NULL)
    (htail : (s'.queue i).tail = l.getLast?.getD NULL) (hnodup : l.Nodup)
    (hused : ∀ b ∈ l, b ∈ s'.used) : Queues s' (update ls i l) where
  linked := (forall_update_iff ls fun j l => Seg NULL s'.next (s'.queue j).head l NULL).mpr
    ⟨hlinked, fun j hj => hqueue j hj ▸ (h.linked j).congr fun b hb => (hframe j hj b hb).1⟩
  tail := (forall_update_iff ls fun j l => (s'.queue j).tail = l.getLast?.getD NULL).mpr
    ⟨htail, fun j hj => hqueue j hj ▸ h.tail j⟩
  nodup := (forall_update_iff ls fun _ l => l.Nodup).mpr ⟨hnodup, fun j _ => h.nodup j⟩
  apart j j' hne b hb hb' := by
    by_cases hj : j = i
    · subst hj
      rw [update_self] at hb
      rw [update_of_ne hne.symm] at hb'
      exact (hframe j' hne.symm b hb').2.1 hb
    · rw [update_of_ne hj] at hb
      by_cases hj' : j' = i
      · subst hj'
        rw [update_self] at hb'
        exact (hframe j hj b hb).2.1 hb'
      · rw [update_of_ne hj'] at hb'
        exact h.apart j j' hne b hb hb'
  used := (forall_update_iff ls fun _ l => ∀ b ∈ l, b ∈ s'.used).mpr
    ⟨hused, fun j hj b hb => (hframe j hj b hb).2.2⟩

/-! ## Insertion -/

theorem newNode_ok (h : newNode p a s = .ok s') :
    a ≠ NULL ∧ a ∉ s.used ∧ s' = { s with used := a :: s.used }.setNode a ⟨p, NULL⟩ := by
  simp only [newNode] at h
  split at h
  · cases h
  rename_i hnull
  split at h
  · cases h
  rename_i hfresh
  exact ⟨hnull, hfresh, (Except.ok.inj h).symm⟩

/-- A new block is in no queue. -/
theorem Queues.fresh (h : Queues s ls) (ha : a ∉ s.used) (i : Fin NMLFQ) : a ∉ ls i :=
  fun hmem => ha (h.used i a hmem)

theorem Queues.newNode (h : Queues s ls) (ha : a ∉ s.used) (n : QueueNode) :
    Queues ({ s with used := a :: s.used }.setNode a n) ls where
  linked i := by
    refine (h.linked i).congr fun b hb => ?_
    have hne : b ≠ a := fun heq => h.fresh ha i (heq ▸ hb)
    simp [SchedState.next, SchedState.setNode, hne]
  tail := h.tail
  nodup := h.nodup
  apart := h.apart
  used i b hb := List.mem_cons_of_mem a (h.used i b hb)

theorem next_setNext (s : SchedState) (b c : ℕ) : (s.setNext b c).next = update s.next b c := by
  funext x
  by_cases hx : x = b <;> simp [SchedState.next, SchedState.setNext, SchedState.setNode, hx]

theorem owner_setNext (s : SchedState) (b c : ℕ) : (s.setNext b c).owner = s.owner := by
  funext x
  by_cases hx : x = b <;> simp [SchedState.owner, SchedState.setNext, SchedState.setNode, hx]

theorem appendNode_only (i : Fin NMLFQ) (a : ℕ) (s : SchedState) :
    QueuesOnly s (appendNode i a s) := by
  simp only [appendNode]
  split
  · exact ⟨rfl, rfl, rfl, rfl⟩
  · exact ⟨rfl, owner_setNext s _ a, rfl, rfl⟩

theorem appendNode_used (i : Fin NMLFQ) (a : ℕ) (s : SchedState) :
    (appendNode i a s).used = s.used := by
  simp only [appendNode]
  split <;> rfl

theorem appendNode_queue_ne {j : Fin NMLFQ} (hj : j ≠ i) (a : ℕ) (s : SchedState) :
    (appendNode i a s).queue j = s.queue j := by
  simp only [appendNode]
  split
  · simp [SchedState.setQueue, hj]
  · simp [SchedState.setQueue, SchedState.setNext, SchedState.setNode, hj]

/-- The new node becomes the last one of its queue. -/
theorem appendNode_linked (h : Queues s ls) (hnull : a ≠ NULL) (hnew : ∀ i, a ∉ ls i)
    (hnext : s.next a = NULL) :
    Seg NULL (appendNode i a s).next ((appendNode i a s).queue i).head (ls i ++ [a]) NULL ∧
      ((appendNode i a s).queue i).tail = a ∧
      ∀ b, (∀ l, ls i ≠ l ++ [b]) → (appendNode i a s).next b = s.next b := by
  simp only [appendNode]
  split
  · rename_i hhead
    rw [(h.head_eq_null_iff i).mp hhead]
    refine ⟨⟨?_, hnull, hnext⟩, ?_, fun _ _ => rfl⟩
    · simp [SchedState.setQueue]
    · simp [SchedState.setQueue]
  · rename_i hhead
    obtain ⟨l, b, hl⟩ : ∃ l b, ls i = l ++ [b] := by
      rcases List.eq_nil_or_concat (ls i) with hnil | ⟨l, b, hl⟩
      · exact absurd ((h.head_eq_null_iff i).mpr hnil) hhead
      · exact ⟨l, b, by rw [hl, List.concat_eq_append]⟩
    have hab : a ≠ b := by
      rintro rfl
      exact hnew i (by simp [hl])
    have hset : ((s.setNext (s.queue i).tail a).setQueue i ⟨(s.queue i).head, a⟩).next =
        update s.next b a := by
      rw [← h.tail_eq hl]
      exact next_setNext s _ a
    have hlinked := h.linked i
    have hnodup := h.nodup i
    rw [hl] at hlinked hnodup ⊢
    rw [hset]
    refine ⟨?_, by simp [SchedState.setQueue], fun c hc => update_of_ne ?_ _ _⟩
    · simpa [SchedState.setQueue] using hlinked.link hnodup hnull hnext hab
    · rintro rfl
      exact hc l rfl

theorem Queues.append (h : Queues s ls) (hnull : a ≠ NULL) (hnew : ∀ i, a ∉ ls i)
    (hused : a ∈ s.used) (hnext : s.next a = NULL) :
    Queues (appendNode i a s) (update ls i (ls i ++ [a])) := by
  obtain ⟨hlinked, htail, hframe⟩ := appendNode_linked h hnull hnew hnext (i := i)
  refine h.change (fun j hj => appendNode_queue_ne hj a s) (fun j hj b hb => ⟨?_, ?_, ?_⟩)
    hlinked ?_ ?_ fun b hb => ?_
  · refine hframe b fun l hl => ?_
    exact h.apart j i hj b hb (by simp [hl])
  · have hba : b ≠ a := ne_of_mem_of_not_mem hb (hnew j)
    simpa [hba] using h.apart j i hj b hb
  · rw [appendNode_used]
    exact h.used j b hb
  · rw [htail, List.getLast?_concat, Option.getD_some]
  · exact (h.nodup i).append (List.nodup_singleton a) (by simpa using hnew i)
  · rw [appendNode_used]
    rcases List.mem_append.mp hb with hb | hb
    · exact h.used i b hb
    · exact List.mem_singleton.mp hb ▸ hused

/-! ## Removal -/

/-- A node leaves the list of its queue. -/
theorem Queues.drop {q : MlfQueue} (h : Queues s ls) (hl : ls i = l₁ ++ a :: l₂)
    (hqueue : s'.queue = update s.queue i q)
    (hnext : ∀ j, j ≠ i → ∀ b ∈ ls j, s'.next b = s.next b)
    (hlinked : Seg NULL s'.next q.head (l₁ ++ l₂) NULL)
    (htail : q.tail = (l₁ ++ l₂).getLast?.getD NULL)
    (hused : ∀ b, b ≠ a → b ∈ s.used → b ∈ s'.used) :
    Queues s' (update ls i (l₁ ++ l₂)) := by
  have hnodup := h.nodup i
  rw [hl] at hnodup
  obtain ⟨hnot, hrest⟩ := List.nodup_cons.mp (List.nodup_middle.mp hnodup)
  have hmem : ∀ b ∈ l₁ ++ l₂, b ∈ ls i := by grind
  have hkept : ∀ j, ∀ b ∈ ls j, b ≠ a → b ∈ s'.used := fun j b hb hne =>
    hused b hne (h.used j b hb)
  refine h.change (fun j hj => by rw [hqueue, update_of_ne hj])
    (fun j hj b hb => ⟨hnext j hj b hb, fun hin => h.apart j i hj b hb (hmem b hin), ?_⟩) ?_ ?_
    hrest fun b hb => hkept i b (hmem b hb) (ne_of_mem_of_not_mem hb hnot)
  · refine hkept j b hb ?_
    rintro rfl
    exact h.apart j i hj b hb (by simp [hl])
  · rw [hqueue, update_self]
    exact hlinked
  · rw [hqueue, update_self]
    exact htail

/-- The search of `removeMlfq` stops at the node before the one of `p`. -/
theorem nodeBefore_eq (h : Queues s ls) (hl : ls i = l₁ ++ b :: a :: l₂) (howner : s.owner a = p)
    (hbefore : ∀ c ∈ l₁ ++ [b], s.owner c ≠ p) :
    nodeBefore p s (s.queue i).head = some b ∧ s.next b = a ∧
      Seg NULL s.next (s.queue i).head l₁ b := by
  have hlinked := h.linked i
  rw [hl] at hlinked
  obtain ⟨c, hfirst, rfl, hbnull, hnext, -⟩ := seg_append.mp hlinked
  refine ⟨?_, hnext, hfirst⟩
  rw [nodeBefore, (h.linked i).seek_eq _ (h.length_lt i), hl]
  have hskip : ∀ x ∈ l₁, decide (s.next x = NULL ∨ s.owner (s.next x) = p) = false := by
    intro x hx
    obtain ⟨m₁, m₂, rfl⟩ := List.append_of_mem hx
    obtain ⟨y, -, rfl, hxnull, htail⟩ := seg_append.mp hfirst
    cases m₂ with
    | nil =>
      rw [seg_nil] at htail
      rw [decide_eq_false_iff_not, htail]
      rintro (heq | heq)
      · exact hbnull heq
      · exact hbefore c (by simp) heq
    | cons z m₂ =>
      obtain ⟨rfl, hznull, -⟩ := htail
      rw [decide_eq_false_iff_not]
      rintro (heq | heq)
      · exact hznull heq
      · exact hbefore _ (by simp) heq
  have hstop : decide (s.next c = NULL ∨ s.owner (s.next c) = p) = true := by
    rw [hnext, decide_eq_true_eq]
    exact Or.inr howner
  rw [List.find?_append, List.find?_eq_none.mpr (by simpa using hskip), List.find?_cons, hstop]
  rfl

theorem removeMlfq_only (h : Queues s ls) (hl : ls (s.proc p).mlqlevel = [a])
    (howner : s.owner a = p) :
    ∃ s', removeMlfq p s = .ok s' ∧ QueuesOnly s s' ∧
      Queues s' (update ls (s.proc p).mlqlevel []) := by
  generalize hi : (s.proc p).mlqlevel = i at hl
  have hlinked := h.linked i
  rw [hl] at hlinked
  obtain ⟨hhead, hnull, hrest⟩ := hlinked
  rw [seg_nil] at hrest
  refine ⟨s.setQueue i ⟨NULL, NULL⟩, ?_, ⟨rfl, rfl, rfl, rfl⟩, ?_⟩
  · simp only [removeMlfq, hi, hhead, if_neg hnull, howner, hrest, and_self, if_true, pure_eq]
  · have hsplit : ls i = [] ++ a :: [] := hl
    exact h.drop (q := ⟨NULL, NULL⟩) hsplit rfl (fun _ _ _ _ => rfl) rfl rfl fun _ _ hb => hb

theorem removeMlfq_first {c : ℕ} {l : List ℕ} (h : Queues s ls)
    (hl : ls (s.proc p).mlqlevel = a :: c :: l) (howner : s.owner a = p) :
    ∃ s', removeMlfq p s = .ok s' ∧ QueuesOnly s s' ∧
      Queues s' (update ls (s.proc p).mlqlevel (c :: l)) := by
  generalize hi : (s.proc p).mlqlevel = i at hl
  have hlinked := h.linked i
  rw [hl] at hlinked
  obtain ⟨hhead, hnull, hrest⟩ := hlinked
  have hnext : s.next a ≠ NULL := by
    obtain ⟨hc, hcnull, -⟩ := hrest
    exact hc ▸ hcnull
  have hused : a ∈ s.used := h.used i a (by simp [hl])
  refine ⟨{ s.setQueue i ⟨s.next a, (s.queue i).tail⟩ with used := s.used.erase a }, ?_,
    ⟨rfl, rfl, rfl, rfl⟩, ?_⟩
  · simp only [removeMlfq, hi, hhead, if_neg hnull, howner, hnext, and_false, if_false, if_true]
    exact if_pos hused
  · have hsplit : ls i = [] ++ a :: (c :: l) := hl
    refine h.drop (q := ⟨s.next a, (s.queue i).tail⟩) hsplit rfl (fun _ _ _ _ => rfl) hrest ?_ ?_
    · rw [h.tail i, hl]
      rfl
    · exact fun b hb hmem => (List.mem_erase_of_ne hb).mpr hmem

theorem removeMlfq_later (h : Queues s ls) (hl : ls (s.proc p).mlqlevel = l₁ ++ b :: a :: l₂)
    (howner : s.owner a = p) (hbefore : ∀ c ∈ l₁ ++ [b], s.owner c ≠ p) :
    ∃ s', removeMlfq p s = .ok s' ∧ QueuesOnly s s' ∧
      Queues s' (update ls (s.proc p).mlqlevel (l₁ ++ b :: l₂)) := by
  generalize hi : (s.proc p).mlqlevel = i at hl
  obtain ⟨hfind, hnext, hfirst⟩ := nodeBefore_eq h hl howner hbefore
  have hused : a ∈ s.used := h.used i a (by simp [hl])
  have hnull : a ≠ NULL := (h.linked i).ne_null a (by simp [hl])
  have hbnull : b ≠ NULL := (h.linked i).ne_null b (by simp [hl])
  have hne : (s.queue i).head ≠ NULL := by
    rw [ne_eq, h.head_eq_null_iff i, hl]
    simp
  have hhead : s.owner (s.queue i).head ≠ p := by
    cases l₁ with
    | nil =>
      rw [seg_nil] at hfirst
      rw [hfirst]
      exact hbefore b (by simp)
    | cons x l =>
      rw [hfirst.1]
      exact hbefore x (by simp)
  have hnodup := h.nodup i
  have hlinked := h.linked i
  rw [hl] at hnodup hlinked
  let q : MlfQueue := ⟨(s.queue i).head, if (s.queue i).tail = a then b else (s.queue i).tail⟩
  let s' : SchedState := { (s.setNext b (s.next a)).setQueue i q with used := s.used.erase a }
  have hset : s'.next = update s.next b (s.next a) := next_setNext s b _
  refine ⟨s', ?_, ⟨rfl, owner_setNext s b _, rfl, rfl⟩, ?_⟩
  · simp only [removeMlfq, hi, if_neg hne, hhead, false_and, if_false, hfind, hnext, if_neg hnull]
    exact if_pos hused
  · have hsplit : ls i = (l₁ ++ [b]) ++ a :: l₂ := by simp [hl]
    have hjoin : (l₁ ++ [b]) ++ l₂ = l₁ ++ b :: l₂ := by simp
    rw [← hjoin]
    refine h.drop (q := q) hsplit rfl (fun j hj c hc => ?_) ?_ ?_ ?_
    · rw [hset, update_of_ne]
      rintro rfl
      exact h.apart j i hj c hc (by simp [hl])
    · rw [hjoin, hset]
      exact hlinked.unlink hnodup
    · rw [hjoin, getLast?_unlink hnodup, ← hl, ← h.tail i]
    · exact fun c hc hmem => (List.mem_erase_of_ne hc).mpr hmem

/-- `removeMlfq` takes the first node of `p` out of the queue of its level. -/
theorem removeMlfq_spec (h : Queues s ls) (hl : ls (s.proc p).mlqlevel = l₁ ++ a :: l₂)
    (howner : s.owner a = p) (hbefore : ∀ c ∈ l₁, s.owner c ≠ p) :
    ∃ s', removeMlfq p s = .ok s' ∧ QueuesOnly s s' ∧
      Queues s' (update ls (s.proc p).mlqlevel (l₁ ++ l₂)) := by
  rcases List.eq_nil_or_concat l₁ with rfl | ⟨l, b, rfl⟩
  · cases l₂ with
    | nil => exact removeMlfq_only h hl howner
    | cons c l₂ => exact removeMlfq_first h hl howner
  · rw [List.concat_eq_append] at hl hbefore ⊢
    have hsplit : ls (s.proc p).mlqlevel = l ++ b :: a :: l₂ := by simp [hl]
    have hjoin : (l ++ [b]) ++ l₂ = l ++ b :: l₂ := by simp
    rw [hjoin]
    exact removeMlfq_later h hsplit howner hbefore

end LearnOS.Sched
