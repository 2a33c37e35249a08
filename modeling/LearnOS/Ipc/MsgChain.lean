import LearnOS.Ipc.Effect
import LearnOS.Lib.Segment

/-!
# Chains of messages

A queue is a chain of messages from `first`. `last` is its end as long as the
chain is not empty. When the only message of a queue is taken, `last` is cleared
in the queue at the start of the pool and left behind in every other one: the
test that decides it compares with the first queue of the pool. Nothing reads a
`last` that was left behind, but that depends on all queues at once, since the
first queue must never have one.
-/

namespace LearnOS.Ipc

open LearnOS Transition LinkedList Function Kres

variable {L : Layout} {k k' : Kernel} {id : ℕ} {as : List ℕ} {chains : ℕ → List ℕ}
  {x : ℕ} {l : List ℕ}

def Kernel.next (k : Kernel) (a : ℕ) : ℕ := (k.msg a).next

def Kernel.content (k : Kernel) (a : ℕ) : MsgBuf := (k.msg a).content

/-- The messages of a queue stand at the given addresses. -/
structure Chain (k : Kernel) (id : ℕ) (as : List ℕ) : Prop where
  seg : Seg NULL k.next (k.msqid id).first as NULL
  last : ∀ l x, as = l ++ [x] → (k.msqid id).last = x
  count : (k.msqid id).msgCount = as.length
  fits : as.length < 2 ^ 32

/-- All queues at once. The first queue of the pool never has a stale end. -/
structure Chains (k : Kernel) (chains : ℕ → List ℕ) : Prop where
  chain : ∀ id, Chain k id (chains id)
  zero : chains 0 = [] → (k.msqid 0).last = NULL
  nodup : ∀ id, (chains id).Nodup
  apart : ∀ id id' a, a ∈ chains id → a ∈ chains id' → id = id'

theorem Chain.congr {k' : Kernel} (h : Chain k id as) (hmsq : k'.msqid id = k.msqid id)
    (hnext : ∀ a ∈ as, k'.next a = k.next a) : Chain k' id as where
  seg := by
    rw [hmsq]
    exact h.seg.congr hnext
  last l x hl := by
    rw [hmsq]
    exact h.last l x hl
  count := by
    rw [hmsq]
    exact h.count
  fits := h.fits

/-- One queue gets a new chain; the others keep theirs. -/
theorem Chains.update {k' : Kernel} (h : Chains k chains)
    (hmsq : ∀ id' ≠ id, k'.msqid id' = k.msqid id')
    (hnext : ∀ id' ≠ id, ∀ a ∈ chains id', k'.next a = k.next a) (hnew : Chain k' id as)
    (hzero : id = 0 → as = [] → (k'.msqid 0).last = NULL) (hnodup : as.Nodup)
    (hapart : ∀ id' ≠ id, ∀ a ∈ chains id', a ∉ as) :
    Chains k' (update chains id as) where
  chain := (forall_update_iff chains fun id' l => Chain k' id' l).mpr
    ⟨hnew, fun id' hid => (h.chain id').congr (hmsq id' hid) (hnext id' hid)⟩
  zero := by
    intro hempty
    by_cases hid : 0 = id
    · subst hid
      rw [update_self] at hempty
      exact hzero rfl hempty
    · rw [update_of_ne hid] at hempty
      rw [hmsq 0 hid]
      exact h.zero hempty
  nodup := (forall_update_iff chains fun _ l => l.Nodup).mpr ⟨hnodup, fun id' _ => h.nodup id'⟩
  apart := by
    intro i j a hi hj
    by_cases hid : i = id
    · by_cases hjd : j = id
      · rw [hid, hjd]
      · subst hid
        rw [update_self] at hi
        rw [update_of_ne hjd] at hj
        exact absurd hi (hapart j hjd a hj)
    · by_cases hjd : j = id
      · subst hjd
        rw [update_self] at hj
        rw [update_of_ne hid] at hi
        exact absurd hj (hapart i hid a hi)
      · rw [update_of_ne hid] at hi
        rw [update_of_ne hjd] at hj
        exact h.apart i j a hi hj

theorem exists_concat (h : as ≠ []) : ∃ l x, as = l ++ [x] :=
  ⟨as.dropLast, as.getLast h, (List.dropLast_append_getLast h).symm⟩

theorem Chain.first_eq_null_iff (h : Chain k id as) : (k.msqid id).first = NULL ↔ as = [] :=
  (Seg.eq_nil_iff h.seg).symm

theorem Chain.last_eq (h : Chain k id as) (hne : as ≠ []) :
    (k.msqid id).last = as.getLast?.getD NULL := by
  obtain ⟨l, x, hl⟩ := exists_concat hne
  rw [h.last l x hl, hl, List.getLast?_concat, Option.getD_some]

/-! ## Linking -/

@[simp] theorem msqid_setMsq (q : MsgQueue) : (k.setMsq id q).msqid id = q := by
  simp [Kernel.setMsq]

@[simp] theorem next_setMsq (q : MsgQueue) : (k.setMsq id q).next = k.next := rfl

@[simp] theorem next_setNext (a b : ℕ) : (k.setNext a b).next = update k.next a b := by
  funext x
  by_cases hx : x = a <;> simp [Kernel.next, Kernel.setNext, Kernel.setMsg, hx]

@[simp] theorem content_setNext (a b : ℕ) : (k.setNext a b).content = k.content := by
  funext x
  by_cases hx : x = a <;> simp [Kernel.content, Kernel.setNext, Kernel.setMsg, hx]

/-- The test of `msgsnd` compares the length of the queue with its bound. -/
theorem Chain.full_iff (h : Chain k id as) :
    msqFull (k.msqid id) = true ↔ (k.msqid id).maxlen ≤ as.length := by
  have hfits := h.fits
  have hmod : (as.length : ℤ) % 2 ^ 32 = as.length := Int.emod_eq_of_lt (by omega) (by omega)
  rw [msqFull, h.count, hmod, Int.toNat_natCast, decide_eq_true_eq]

theorem linkMsg_content (a : ℕ) : (linkMsg id a k).content = k.content := by
  simp only [linkMsg]
  split
  · exact content_setNext a NULL
  · exact (content_setNext a NULL).trans (content_setNext _ a)

theorem linkMsg_chains {a : ℕ} (h : Chains k chains) (hnull : a ≠ NULL)
    (hfresh : ∀ id', a ∉ chains id')
    (hroom : (chains id).length + 1 < 2 ^ 32) :
    Chains (linkMsg id a k) (update chains id (chains id ++ [a])) := by
  have hchain := h.chain id
  have hmsq : ∀ id' ≠ id, (linkMsg id a k).msqid id' = k.msqid id' := by
    intro id' hid
    simp only [linkMsg]
    split <;> simp [Kernel.setMsq, Kernel.setNext, Kernel.setMsg, hid]
  have hnodup : (chains id ++ [a]).Nodup :=
    (h.nodup id).append (List.nodup_singleton a) (by simpa using hfresh id)
  have hapart : ∀ id' ≠ id, ∀ b ∈ chains id', b ∉ chains id ++ [a] := by
    intro id' hid b hb hmem
    rcases List.mem_append.mp hmem with hmem | hmem
    · exact hid (h.apart id' id b hb hmem)
    · exact hfresh id' (List.mem_singleton.mp hmem ▸ hb)
  refine h.update hmsq ?_ ?_ (by simp) hnodup hapart
  · intro id' hid b hb
    have hba : b ≠ a := ne_of_mem_of_not_mem hb (hfresh id')
    simp only [linkMsg]
    split
    · simp [hba]
    · rename_i hne
      obtain ⟨l, x, hl⟩ := exists_concat fun hnil => hne (hchain.first_eq_null_iff.mpr hnil)
      have hbx : b ≠ x := by
        rintro rfl
        exact hid (h.apart id' id _ hb (by simp [hl]))
      simp [hba, hbx, hchain.last l x hl]
  · by_cases hempty : chains id = []
    · have hfirst := hchain.first_eq_null_iff.mpr hempty
      have hcount := hchain.count
      rw [hempty] at hcount hroom ⊢
      simp only [linkMsg, if_pos hfirst]
      refine ⟨?_, ?_, ?_, ?_⟩
      · exact ⟨by simp, hnull, by simp⟩
      · intro l x hl
        have hsplit : [] ++ [a] = l ++ [x] := hl
        have hx := List.append_inj_right' hsplit rfl
        simpa [Kernel.setMsq] using hx
      · simp [Kernel.setMsq, hcount]
      · exact hroom
    · have hne : (k.msqid id).first ≠ NULL := fun hf => hempty (hchain.first_eq_null_iff.mp hf)
      obtain ⟨l, x, hl⟩ := exists_concat hempty
      have hlast := hchain.last l x hl
      have hseg := hchain.seg
      have hxa : x ≠ a := fun heq => hfresh id (by rw [hl, ← heq]; simp)
      have hend := hseg.store (hfresh id) NULL
      have hnd := h.nodup id
      simp only [linkMsg, if_neg hne]
      refine ⟨?_, ?_, ?_, ?_⟩
      · rw [hl] at hend hnd ⊢
        rw [msqid_setMsq, next_setMsq, next_setNext, next_setNext, hlast, update_comm hxa]
        exact hend.link hnd hnull (update_self ..) hxa.symm
      · intro l' y hl'
        have hy := List.append_inj_right' hl' rfl
        simpa [Kernel.setMsq] using hy
      · simp [Kernel.setMsq, hchain.count]
      · rw [List.length_append]
        exact hroom

/-! ## Unlinking -/

theorem unlinkMsg_content (id : ℕ) (prev : Option ℕ) :
    (unlinkMsg id prev k).2.content = k.content := by
  cases prev with
  | none =>
    simp only [unlinkMsg]
    split <;> rfl
  | some prev => exact content_setNext prev _

/-- The last message of the first queue is the first message of a queue only when
it is the only one there. -/
theorem Chains.first_eq_last_iff (h : Chains k chains)
    (hid : chains id = x :: l) : x = (k.msqid 0).last ↔ id = 0 ∧ l = [] := by
  have hx := (h.chain id).seg.ne_null x (by rw [hid]; exact List.mem_cons_self)
  constructor
  · intro heq
    have hne : chains 0 ≠ [] := fun hnil => hx (heq.trans (h.zero hnil))
    obtain ⟨l', y, hl'⟩ := exists_concat hne
    have hlast := (h.chain 0).last l' y hl'
    have hzero : id = 0 := by
      refine h.apart id 0 x (by rw [hid]; exact List.mem_cons_self) ?_
      rw [heq, hlast, hl']
      simp
    subst hzero
    refine ⟨rfl, ?_⟩
    have hnodup := h.nodup 0
    rw [hid] at hl'
    rw [hid, List.nodup_cons] at hnodup
    cases l' with
    | nil => exact (List.cons.inj hl').2
    | cons z l' =>
      refine absurd ?_ hnodup.1
      rw [(List.cons.inj hl').2, heq, hlast]
      simp
  · rintro ⟨rfl, rfl⟩
    exact ((h.chain 0).last [] x hid).symm

theorem unlinkMsg_first (h : Chains k chains) (hid : chains id = x :: l) :
    (unlinkMsg id none k).1 = x ∧
      Chains (unlinkMsg id none k).2 (update chains id l) := by
  have hchain := h.chain id
  have hseg := hchain.seg
  have hfits := hchain.fits
  have hcount := hchain.count
  rw [hid] at hseg hfits hcount
  obtain ⟨hfirst, hx, hrest⟩ := hseg
  have hnodup : l.Nodup := by
    have hnd := h.nodup id
    rw [hid] at hnd
    exact (List.nodup_cons.mp hnd).2
  have hapart : ∀ id' ≠ id, ∀ a ∈ chains id', a ∉ l := fun id' hne a ha hl =>
    hne (h.apart id' id a ha (by rw [hid]; exact List.mem_cons_of_mem _ hl))
  have hiff := h.first_eq_last_iff hid
  simp only [unlinkMsg]
  split
  · rename_i hlast
    obtain ⟨rfl, rfl⟩ := hiff.mp (hfirst.symm.trans hlast)
    refine ⟨hfirst, h.update (fun id' hne => by simp [Kernel.setMsq, hne]) (fun _ _ _ _ => rfl)
      ⟨by simp [Kernel.setMsq], by simp, ?_, by simp⟩ ?_ hnodup hapart⟩
    · simp [Kernel.setMsq, hcount]
    · intro _ _
      simp [Kernel.setMsq]
  · rename_i hlast
    refine ⟨hfirst, h.update (fun id' hne => by simp [Kernel.setMsq, hne]) (fun _ _ _ _ => rfl)
      ⟨?_, ?_, ?_, ?_⟩ ?_ hnodup hapart⟩
    · rw [msqid_setMsq, hfirst]
      exact hrest
    · intro l' y hl'
      have hold := hchain.last (x :: l') y (by rw [hid, hl']; rfl)
      simpa [Kernel.setMsq] using hold
    · simp [Kernel.setMsq, hcount]
    · simp only [List.length_cons] at hfits
      omega
    · rintro rfl rfl
      exact absurd (hfirst.trans (hiff.mpr ⟨rfl, rfl⟩)) hlast

theorem unlinkMsg_later {prev : ℕ} {l₁ l₂ : List ℕ} (h : Chains k chains)
    (hid : chains id = (l₁ ++ [prev]) ++ x :: l₂) :
    (unlinkMsg id (some prev) k).1 = x ∧
      Chains (unlinkMsg id (some prev) k).2 (update chains id ((l₁ ++ [prev]) ++ l₂)) := by
  simp only [List.append_assoc, List.singleton_append] at hid ⊢
  have hchain := h.chain id
  have hseg := hchain.seg
  have hfits := hchain.fits
  have hcount := hchain.count
  have hnd := h.nodup id
  have hend := hchain.last_eq (by simp [hid])
  rw [hid] at hseg hfits hcount hnd hend
  have hnode : (k.msg prev).next = x := by
    obtain ⟨c, -, rfl, -, hnext, -⟩ := seg_append.mp hseg
    exact hnext
  have hsub : List.Sublist (l₁ ++ prev :: l₂) (l₁ ++ prev :: x :: l₂) :=
    ((List.sublist_cons_self x l₂).cons_cons prev).append_left l₁
  refine ⟨hnode, h.update (fun id' hne => by simp [unlinkMsg, Kernel.setMsq, Kernel.setNext,
    Kernel.setMsg, hne]) ?_ ⟨?_, ?_, ?_, ?_⟩ (by simp) (hnd.sublist hsub) ?_⟩
  · intro id' hne a ha
    have hap : a ≠ prev := fun heq => hne (h.apart id' id a ha (by rw [hid, heq]; simp))
    exact (congrFun (next_setNext prev _) a).trans (update_of_ne hap _ _)
  · simp only [unlinkMsg, hnode, msqid_setMsq, next_setMsq, next_setNext]
    exact hseg.unlink hnd
  · intro l y hl
    have hlast : (l₁ ++ prev :: l₂).getLast?.getD NULL = _ := getLast?_unlink hnd
    rw [← hend, hl, List.getLast?_concat, Option.getD_some] at hlast
    simpa [unlinkMsg, hnode] using hlast.symm
  · simp [unlinkMsg, hcount]
    omega
  · exact lt_of_le_of_lt hsub.length_le hfits
  · exact fun id' hne a ha hmem => hne (h.apart id' id a ha (by rw [hid]; exact hsub.subset hmem))

/-! ## Searching -/

/-- The search behind a message looks at the rest of the chain. -/
theorem searchLoop_spec {prev n : ℕ} (msgtype : ℕ) (hseg : Seg NULL k.next (k.next prev) l NULL)
    (hn : l.length < n) :
    ∃ r, searchLoop k msgtype n prev = .ok r ∧
      ((r = none ∧ ∀ a ∈ l, wanted msgtype (k.content a) = false) ∨
        ∃ l₁ x l₂, l = l₁ ++ x :: l₂ ∧ (∀ a ∈ l₁, wanted msgtype (k.content a) = false) ∧
          wanted msgtype (k.content x) = true ∧ r = (prev :: l₁).getLast?) := by
  induction l generalizing prev n with
  | nil =>
    obtain ⟨n, rfl⟩ := Nat.exists_eq_add_of_lt hn
    refine ⟨none, ?_, Or.inl ⟨rfl, by simp⟩⟩
    have hnull : (k.msg prev).next = NULL := hseg
    simp [searchLoop, hnull]
  | cons x l ih =>
    obtain ⟨hx, hne, hrest⟩ := hseg
    have hx' : (k.msg prev).next = x := hx
    obtain ⟨n, rfl⟩ : ∃ m, n = m + 1 := ⟨n - 1, by simp only [List.length_cons] at hn; omega⟩
    cases hw : wanted msgtype (k.content x) with
    | true =>
      refine ⟨some prev, ?_, Or.inr ⟨[], x, l, rfl, by simp, hw, rfl⟩⟩
      have hw' : wanted msgtype (k.msg x).content = true := hw
      simp [searchLoop, hx', hne, hw']
    | false =>
      obtain ⟨r, hr, hcases⟩ := ih (n := n) hrest
        (by simp only [List.length_cons] at hn; omega)
      have hw' : wanted msgtype (k.msg x).content = false := hw
      refine ⟨r, ?_, ?_⟩
      · simp only [searchLoop, hx', if_neg hne, hw', Bool.false_eq_true, if_false]
        exact hr
      · rcases hcases with ⟨rfl, hall⟩ | ⟨l₁, y, l₂, rfl, hall, hy, rfl⟩
        · exact Or.inl ⟨rfl, List.forall_mem_cons.mpr ⟨hw, hall⟩⟩
        · refine Or.inr ⟨x :: l₁, y, l₂, rfl, List.forall_mem_cons.mpr ⟨hw, hall⟩, hy, ?_⟩
          rw [List.getLast?_cons_cons]

/-- The search finds the first wanted message, by its predecessor. -/
theorem findWanted_spec (msgtype : ℕ) (h : Chain k id as) (hne : as ≠ []) :
    ∃ r, findWanted k (k.msqid id) msgtype = .ok r ∧
      ((r = none ∧ ∀ a ∈ as, wanted msgtype (k.content a) = false) ∨
        ∃ l₁ x l₂, as = l₁ ++ x :: l₂ ∧ (∀ a ∈ l₁, wanted msgtype (k.content a) = false) ∧
          wanted msgtype (k.content x) = true ∧ r = some l₁.getLast?) := by
  cases as with
  | nil => exact absurd rfl hne
  | cons y l =>
    obtain ⟨hfirst, -, hrest⟩ := h.seg
    have hcount := h.count
    have hfirst' : (k.msqid id).first = y := hfirst
    cases hw : wanted msgtype (k.content y) with
    | true =>
      refine ⟨some none, ?_, Or.inr ⟨[], y, l, rfl, by simp, hw, rfl⟩⟩
      have hw' : wanted msgtype (k.msg y).content = true := hw
      simp [findWanted, hfirst', hw']
    | false =>
      have hw' : wanted msgtype (k.msg y).content = false := hw
      obtain ⟨r, hr, hcases⟩ := searchLoop_spec (n := (k.msqid id).msgCount.toNat)
        msgtype hrest (by rw [hcount]; simp)
      refine ⟨r.map some, ?_, ?_⟩
      · simp only [findWanted, hfirst', hw', Bool.false_eq_true, if_false, hr, ok_bind,
          pure_eq]
      · rcases hcases with ⟨rfl, hall⟩ | ⟨l₁, x, l₂, rfl, hall, hx, rfl⟩
        · exact Or.inl ⟨rfl, List.forall_mem_cons.mpr ⟨hw, hall⟩⟩
        · refine Or.inr ⟨y :: l₁, x, l₂, rfl, List.forall_mem_cons.mpr ⟨hw, hall⟩, hx, ?_⟩
          cases hlast : (y :: l₁).getLast? with
          | none => simp at hlast
          | some z => rfl

end LearnOS.Ipc
