import Mathlib.Data.List.Nodup
import Mathlib.Logic.Function.Basic
import Mathlib.Tactic.Common

/-!
# Intrusive linked lists

The nodes of an intrusive list live in a memory of link cells. `Dll` says that
following `next` from a node visits exactly the given list, that every `prev`
points back, and that the last node ends in the null address. The three
updates are the usual sequences of single cell writes.

## Implementation notes

The list is a parameter of the predicate and not computed from the memory:
the memory may be cyclic, and the predicate determines the list anyway. Each
update has one lemma for the list it works on and a pair of lemmas saying
which cells it leaves alone; every other list is framed by `Dll.congr`.
-/

namespace LinkedList

open Function

variable {α : Type*} {null : α} {l : List α} {a : α}

/-- One `next` and one `prev` cell for every address. -/
structure Links (α : Type*) where
  next : α → α
  prev : α → α

variable {m : Links α}

/-- Following `next` from the node visits exactly the list, `prev` points back. -/
def Dll (null : α) (m : Links α) : α → List α → Prop
  | a, [] => m.next a = null
  | a, b :: l => m.next a = b ∧ m.prev b = a ∧ b ≠ null ∧ Dll null m b l

theorem Dll.congr {m m' : Links α} (hnext : ∀ x ∈ a :: l, m'.next x = m.next x)
    (hprev : ∀ x ∈ l, m'.prev x = m.prev x) (h : Dll null m a l) : Dll null m' a l := by
  induction l generalizing a with
  | nil =>
    simp only [Dll] at h ⊢
    rw [hnext a (by simp), h]
  | cons b l ih =>
    obtain ⟨hn, hp, hb, ht⟩ := h
    refine ⟨?_, ?_, hb, ih ?_ ?_ ht⟩
    · rw [hnext a (by simp), hn]
    · rw [hprev b (by simp), hp]
    · intro x hx
      exact hnext x (List.mem_cons_of_mem a hx)
    · intro x hx
      exact hprev x (List.mem_cons_of_mem b hx)

theorem Dll.next_eq_head (h : Dll null m a l) : m.next a = l.headD null := by
  cases l with
  | nil => exact h
  | cons b l => exact h.1

theorem Dll.ne_null (h : Dll null m a l) : ∀ b ∈ l, b ≠ null := by
  induction l generalizing a with
  | nil => simp
  | cons c l ih =>
    intro b hb
    rcases List.mem_cons.mp hb with rfl | hb
    · exact h.2.2.1
    · exact ih h.2.2.2 b hb

theorem Dll.next_eq_null_iff (h : Dll null m a l) : m.next a = null ↔ l = [] := by
  cases l with
  | nil => exact iff_of_true h rfl
  | cons b l =>
    simp only [reduceCtorEq, iff_false]
    rw [h.1]
    exact h.2.2.1

/-- The memory alone determines the list. -/
theorem Dll.unique {l l' : List α} (h : Dll null m a l) (h' : Dll null m a l') : l = l' := by
  induction l generalizing a l' with
  | nil => exact ((Dll.next_eq_null_iff h').mp h).symm
  | cons b l ih =>
    cases l' with
    | nil => exact absurd ((Dll.next_eq_null_iff h).mp h') (by simp)
    | cons b' l' =>
      obtain rfl : b = b' := h.1.symm.trans h'.1
      rw [ih h.2.2.2 h'.2.2.2]

/-- The cells around a node in the middle of a list. -/
theorem Dll.around {a b : α} {l₁ l₂ : List α} (h : Dll null m a (l₁ ++ b :: l₂)) :
    m.prev b ∈ a :: l₁ ∧ m.next b = l₂.headD null ∧ Dll null m b l₂ := by
  induction l₁ generalizing a with
  | nil =>
    obtain ⟨-, hp, -, ht⟩ := h
    exact ⟨by simp [hp], Dll.next_eq_head ht, ht⟩
  | cons c l₁ ih =>
    obtain ⟨hp, hn, ht⟩ := ih h.2.2.2
    exact ⟨List.mem_cons_of_mem a hp, hn, ht⟩

section Updates

variable [DecidableEq α]

def Links.setNext (m : Links α) (a b : α) : Links α :=
  { m with next := update m.next a b }

def Links.setPrev (m : Links α) (a b : α) : Links α :=
  { m with prev := update m.prev a b }

@[simp] theorem Links.setNext_next (m : Links α) (a b x : α) :
    (m.setNext a b).next x = if x = a then b else m.next x := by
  simp [Links.setNext, update_apply]

@[simp] theorem Links.setNext_prev (m : Links α) (a b : α) :
    (m.setNext a b).prev = m.prev := rfl

@[simp] theorem Links.setPrev_next (m : Links α) (a b : α) :
    (m.setPrev a b).next = m.next := rfl

@[simp] theorem Links.setPrev_prev (m : Links α) (a b x : α) :
    (m.setPrev a b).prev x = if x = a then b else m.prev x := by
  simp [Links.setPrev, update_apply]

/-- Put `a` right after `head`. -/
def Links.insertFirst (null : α) (m : Links α) (head a : α) : Links α :=
  let m := m.setPrev a head
  let m := m.setNext a (m.next head)
  let m := if m.next head ≠ null then m.setPrev (m.next head) a else m
  m.setNext head a

/-- Drop the node right after `head`. -/
def Links.eraseFirst (null : α) (m : Links α) (head : α) : Links α :=
  let first := m.next head
  let m := m.setNext head (m.next first)
  if m.next first ≠ null then m.setPrev (m.next head) head else m

/-- Unlink `a`, found through its own cells only. -/
def Links.erase (null : α) (m : Links α) (a : α) : Links α :=
  let m := m.setNext (m.prev a) (m.next a)
  if m.next a ≠ null then m.setPrev (m.next a) (m.prev a) else m

theorem Links.insertFirst_next {head a x : α} (ha : a ≠ head) :
    (m.insertFirst null head a).next x =
      if x = head then a else if x = a then m.next head else m.next x := by
  unfold Links.insertFirst
  by_cases h : m.next head = null <;> simp [h, ha.symm]

theorem Links.insertFirst_prev {head a x : α} (ha : a ≠ head) (hna : a ≠ m.next head) :
    (m.insertFirst null head a).prev x =
      if x = a then head
      else if x = m.next head ∧ x ≠ null then a else m.prev x := by
  unfold Links.insertFirst
  by_cases h : m.next head = null
  · simp only [Links.setPrev_next, Links.setNext_next, ha.symm, if_false, h, ne_eq,
      not_true_eq_false, Links.setNext_prev, Links.setPrev_prev]
    by_cases hx : x = a <;> simp [hx]
  · by_cases hx : x = a
    · subst hx
      simp [h, ha.symm, hna]
    · by_cases hxn : x = m.next head
      · subst hxn
        simp [h, ha.symm, hx]
      · simp [h, ha.symm, hx, hxn]

/-- Inserting in front extends the list of that head by the new node. -/
theorem Dll.insertFirst {head a : α} (h : Dll null m head l) (hnd : (head :: l).Nodup)
    (ha : a ∉ head :: l) (hnull : a ≠ null) :
    Dll null (m.insertFirst null head a) head (a :: l) := by
  have hah : a ≠ head := fun h => ha (by simp [h])
  have hal : a ∉ l := fun h => ha (List.mem_cons_of_mem _ h)
  have hhl : head ∉ l := (List.nodup_cons.mp hnd).1
  have hna : a ≠ m.next head := by
    rw [Dll.next_eq_head h]
    cases l with
    | nil => simpa using hnull
    | cons b l => exact fun hb => hal (by simp [hb])
  refine ⟨?_, ?_, hnull, ?_⟩
  · simp [Links.insertFirst_next hah]
  · simp [Links.insertFirst_prev hah hna]
  · cases l with
    | nil =>
      have hn : m.next head = null := h
      simp [Dll, Links.insertFirst_next hah, hah, hn]
    | cons b l =>
      obtain ⟨hn, hp, hb, ht⟩ := h
      have hba : b ≠ a := fun h => hal (by simp [h])
      have hbl : b ∉ l := (List.nodup_cons.mp (List.nodup_cons.mp hnd).2).1
      refine ⟨?_, ?_, hb, Dll.congr ?_ ?_ ht⟩
      · simp [Links.insertFirst_next hah, hah, hn]
      · simp [Links.insertFirst_prev hah hna, hba, hn, hb]
      · intro x hx
        have hxh : x ≠ head := fun h => hhl (h ▸ hx)
        have hxa : x ≠ a := fun h => hal (h ▸ hx)
        simp [Links.insertFirst_next hah, hxh, hxa]
      · intro x hx
        have hxa : x ≠ a := fun h => hal (h ▸ List.mem_cons_of_mem b hx)
        have hxb : x ≠ b := fun h => hbl (h ▸ hx)
        simp [Links.insertFirst_prev hah hna, hxa, hn, hxb]

/-- A list that shares no node with the new node, its head or its old first
node is left alone by an insertion. -/
theorem Dll.insertFirst_frame {head a head' : α} {l' : List α} (h : Dll null m head' l')
    (hah : a ≠ head) (hna : a ≠ m.next head) (ha : a ∉ head' :: l') (hhead : head ∉ head' :: l')
    (hfirst : m.next head ∉ l') : Dll null (m.insertFirst null head a) head' l' := by
  refine Dll.congr ?_ ?_ h
  · intro x hx
    have hxh : x ≠ head := fun h => hhead (h ▸ hx)
    have hxa : x ≠ a := fun h => ha (h ▸ hx)
    simp [Links.insertFirst_next hah, hxh, hxa]
  · intro x hx
    have hxa : x ≠ a := fun h => ha (h ▸ List.mem_cons_of_mem head' hx)
    have hxf : x ≠ m.next head := fun h => hfirst (h ▸ hx)
    simp [Links.insertFirst_prev hah hna, hxa, hxf]

theorem Links.erase_next {a x : α} :
    (m.erase null a).next x = if x = m.prev a then m.next a else m.next x := by
  unfold Links.erase
  by_cases h : m.next a = null <;> simp [h]

theorem Links.erase_prev {a x : α} (ha : a ≠ m.prev a) :
    (m.erase null a).prev x = if x = m.next a ∧ x ≠ null then m.prev a else m.prev x := by
  unfold Links.erase
  by_cases h : m.next a = null
  · have hx : ¬ (x = null ∧ x ≠ null) := fun h => h.2 h.1
    simp [ha, h]
  · by_cases hx : x = m.next a
    · subst hx
      simp [ha, h]
    · simp [ha, h, hx]

/-- Unlinking a node of a list removes exactly that node. -/
theorem Dll.erase {head a : α} {l₁ l₂ : List α} (h : Dll null m head (l₁ ++ a :: l₂))
    (hnd : (head :: (l₁ ++ a :: l₂)).Nodup) : Dll null (m.erase null a) head (l₁ ++ l₂) := by
  have hap : a ≠ m.prev a := by
    intro hap
    have hmem := (Dll.around h).1
    rw [← hap] at hmem
    have hnd' : ((head :: l₁) ++ a :: l₂).Nodup := by simpa using hnd
    exact (List.nodup_append.mp hnd').2.2 a hmem a (by simp) rfl
  induction l₁ generalizing head with
  | nil =>
    obtain ⟨hn, hp, -, ht⟩ := h
    simp only [List.nil_append] at hnd ⊢
    have hhead : head ∉ a :: l₂ := (List.nodup_cons.mp hnd).1
    have hnd₂ := (List.nodup_cons.mp (List.nodup_cons.mp hnd).2).2
    cases l₂ with
    | nil =>
      have hn' : m.next a = null := ht
      simp [Dll, Links.erase_next, hp, hn']
    | cons b l₂ =>
      obtain ⟨hn', hp', hb, ht'⟩ := ht
      refine ⟨?_, ?_, hb, Dll.congr ?_ ?_ ht'⟩
      · simp [Links.erase_next, hp, hn']
      · simp [Links.erase_prev hap, hp, hn', hb]
      · intro x hx
        have hxh : x ≠ head := fun h => hhead (h ▸ List.mem_cons_of_mem a hx)
        simp [Links.erase_next, hp, hxh]
      · intro x hx
        have hxb : x ≠ b := fun h => (List.nodup_cons.mp hnd₂).1 (h ▸ hx)
        simp [Links.erase_prev hap, hn', hxb]
  | cons c l₁ ih =>
    obtain ⟨hn, hp, hc, ht⟩ := h
    have hnd' : (c :: (l₁ ++ a :: l₂)).Nodup := (List.nodup_cons.mp hnd).2
    have hhead : head ∉ c :: (l₁ ++ a :: l₂) := (List.nodup_cons.mp hnd).1
    obtain ⟨hpa, hna, -⟩ := Dll.around ht
    refine ⟨?_, ?_, hc, ih ht hnd'⟩
    · have hne : head ≠ m.prev a := by
        intro h
        apply hhead
        rw [h]
        rcases List.mem_cons.mp hpa with h' | h' <;> simp [h']
      simp [Links.erase_next, hne, hn]
    · have hne : c ≠ m.next a ∨ c = null := by
        left
        rw [hna]
        cases l₂ with
        | nil => simpa using hc
        | cons b l₂ =>
          intro h
          exact (List.nodup_cons.mp hnd').1 (by simp [h])
      rcases hne with hne | hne
      · simp [Links.erase_prev hap, hne, hp]
      · exact absurd hne hc

/-- A list without the unlinked node and its two neighbours is left alone. -/
theorem Dll.erase_frame {a head' : α} {l' : List α} (h : Dll null m head' l') (ha : a ≠ m.prev a)
    (hprev : m.prev a ∉ head' :: l') (hnext : m.next a ∉ l') :
    Dll null (m.erase null a) head' l' := by
  refine Dll.congr ?_ ?_ h
  · intro x hx
    have hxp : x ≠ m.prev a := fun h => hprev (h ▸ hx)
    simp [Links.erase_next, hxp]
  · intro x hx
    have hxn : x ≠ m.next a := fun h => hnext (h ▸ hx)
    simp [Links.erase_prev ha, hxn]

/-- Dropping the first node unlinks it. -/
theorem Links.eraseFirst_eq_erase {head a : α} (h : Dll null m head (a :: l)) (ha : a ≠ head) :
    m.eraseFirst null head = m.erase null a := by
  obtain ⟨hn, hp, -, -⟩ := h
  unfold Links.eraseFirst Links.erase
  simp [hn, hp, ha]

end Updates

end LinkedList
