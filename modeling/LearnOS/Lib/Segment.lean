import Mathlib.Data.List.Basic
import Mathlib.Data.List.Nodup
import Mathlib.Logic.Function.Basic

/-!
# Segments of singly linked lists

A segment is the part of a linked structure that is visited when the `next`
cells are followed from one address to another. Lists that end in the null
address are the segments that arrive there. The loops that search such a list
are instances of `seek`.
-/

namespace LinkedList

open Function

variable {α : Type*} {l : List α} {a b : α}

/-- Following `next` from the first address visits the list, in which nothing
is null, and arrives at the last address. -/
def Seg (null : α) (next : α → α) : α → List α → α → Prop
  | a, [], b => a = b
  | a, x :: l, b => a = x ∧ x ≠ null ∧ Seg null next (next x) l b

variable {null : α} {next next' : α → α}

instance Seg.decidable [DecidableEq α] (null : α) (next : α → α) :
    (a : α) → (l : List α) → (b : α) → Decidable (Seg null next a l b)
  | a, [], b => inferInstanceAs (Decidable (a = b))
  | a, x :: l, b =>
    have := Seg.decidable null next (next x) l b
    inferInstanceAs (Decidable (a = x ∧ x ≠ null ∧ Seg null next (next x) l b))

@[simp] theorem seg_nil : Seg null next a [] b ↔ a = b := Iff.rfl

theorem seg_cons {a b x : α} :
    Seg null next a (x :: l) b ↔ a = x ∧ x ≠ null ∧ Seg null next (next x) l b := Iff.rfl

theorem seg_append {l l' : List α} :
    Seg null next a (l ++ l') b ↔ ∃ c, Seg null next a l c ∧ Seg null next c l' b := by
  induction l generalizing a with
  | nil => simp
  | cons x l ih => simp only [List.cons_append, seg_cons, ih, exists_and_left, and_assoc]

theorem Seg.append {a b c : α} {l l' : List α} (h : Seg null next a l b)
    (h' : Seg null next b l' c) : Seg null next a (l ++ l') c :=
  seg_append.mpr ⟨b, h, h'⟩

/-- A segment depends only on the cells it visits. -/
theorem Seg.congr (hnext : ∀ x ∈ l, next' x = next x) (h : Seg null next a l b) :
    Seg null next' a l b := by
  induction l generalizing a with
  | nil => exact h
  | cons x l ih =>
    obtain ⟨rfl, hx, hrest⟩ := h
    refine ⟨rfl, hx, ?_⟩
    rw [hnext a List.mem_cons_self]
    exact ih (fun y hy => hnext y (List.mem_cons_of_mem _ hy)) hrest

theorem Seg.ne_null (h : Seg null next a l b) : ∀ x ∈ l, x ≠ null := by
  induction l generalizing a with
  | nil => simp
  | cons x l ih =>
    obtain ⟨rfl, hx, hrest⟩ := h
    intro y hy
    rcases List.mem_cons.mp hy with rfl | hy
    · exact hx
    · exact ih hrest y hy

/-- A list that ends in null is determined by its first address. -/
theorem Seg.unique {a : α} {l l' : List α} (h : Seg null next a l null)
    (h' : Seg null next a l' null) : l = l' := by
  induction l generalizing a l' with
  | nil =>
    cases l' with
    | nil => rfl
    | cons x l' =>
      obtain ⟨rfl, hx, -⟩ := h'
      exact absurd h hx
  | cons x l ih =>
    obtain ⟨rfl, hx, hrest⟩ := h
    cases l' with
    | nil => exact absurd h' hx
    | cons y l' =>
      obtain ⟨rfl, -, hrest'⟩ := h'
      rw [ih hrest hrest']

theorem Seg.eq_nil_iff {a : α} (h : Seg null next a l null) : l = [] ↔ a = null := by
  cases l with
  | nil => simpa using h
  | cons x l =>
    obtain ⟨rfl, hx, -⟩ := h
    simpa using hx

theorem Seg.head_eq {a : α} (h : Seg null next a l null) : a = l.head?.getD null := by
  cases l with
  | nil => exact h
  | cons x l => exact h.1

/-- The last cell of a segment may be made to point elsewhere. -/
theorem Seg.redirect {a b t x : α} (h : Seg null next a (l ++ [x]) b)
    (hnext : ∀ y ∈ l, next' y = next y) (ht : next' x = t) : Seg null next' a (l ++ [x]) t := by
  obtain ⟨c, hl, rfl, hc, -⟩ := seg_append.mp h
  exact (hl.congr hnext).append ⟨rfl, hc, ht⟩

section Cells

variable [DecidableEq α] {x y : α}

/-- A cell that is not visited may be changed. -/
theorem Seg.store (h : Seg null next a l b) (hx : x ∉ l) (y : α) :
    Seg null (update next x y) a l b :=
  h.congr fun _ hz => update_of_ne (ne_of_mem_of_not_mem hz hx) _ _

/-- A node is linked behind the last one. -/
theorem Seg.link {a : α} (h : Seg null next a (l ++ [x]) null) (hnodup : (l ++ [x]).Nodup)
    (hnull : y ≠ null) (hend : next y = null) (hxy : y ≠ x) :
    Seg null (update next x y) a (l ++ [x] ++ [y]) null := by
  have hx : x ∉ l := (List.nodup_middle.mp hnodup).notMem ∘ List.mem_append_left []
  refine (h.redirect (t := y) (fun z hz => ?_) (update_self ..)).append ⟨rfl, hnull, ?_⟩
  · exact update_of_ne (ne_of_mem_of_not_mem hz hx) _ _
  · rw [update_of_ne hxy]
    exact hend

/-- The node behind `x` is taken out. -/
theorem Seg.unlink {a : α} {l' : List α} (h : Seg null next a (l ++ x :: y :: l') null)
    (hnodup : (l ++ x :: y :: l').Nodup) :
    Seg null (update next x (next y)) a (l ++ x :: l') null := by
  have hx := (List.nodup_middle.mp hnodup).notMem
  rw [List.mem_append, List.mem_cons, not_or, not_or] at hx
  obtain ⟨c, hfront, rfl, hc, rfl, -, hback⟩ := seg_append.mp h
  refine (hfront.store hx.1 _).append ⟨rfl, hc, ?_⟩
  rw [update_self]
  exact hback.store hx.2.2 _

/-- The end of a list, when the node behind `x` has been taken out. -/
theorem getLast?_unlink {l' : List α} (hnodup : (l ++ x :: y :: l').Nodup) :
    (l ++ x :: l').getLast?.getD null =
      if (l ++ x :: y :: l').getLast?.getD null = y then x
      else (l ++ x :: y :: l').getLast?.getD null := by
  rcases List.eq_nil_or_concat l' with rfl | ⟨m, z, rfl⟩
  · simp
  · have hzy : z ≠ y := by
      rintro rfl
      simp [List.nodup_append] at hnodup
    simp [List.getLast?_append, List.getLast?_cons, hzy]

end Cells

/-! ## Searching -/

/-- Walks to the first address that is null or meets the test, in at most `n`
steps. -/
def seek [DecidableEq α] (null : α) (next : α → α) (stop : α → Bool) : ℕ → α → Option α
  | 0, _ => none
  | n + 1, a => if a = null ∨ stop a then some a else seek null next stop n (next a)

theorem Seg.seek_eq [DecidableEq α] {a : α} (h : Seg null next a l null) (stop : α → Bool) {n : ℕ}
    (hn : l.length < n) : seek null next stop n a = some ((l.find? stop).getD null) := by
  induction l generalizing a n with
  | nil =>
    obtain ⟨n, rfl⟩ := Nat.exists_eq_add_of_lt hn
    simp [seek, seg_nil.mp h]
  | cons x l ih =>
    obtain ⟨rfl, hx, hrest⟩ := h
    obtain ⟨n, rfl⟩ : ∃ k, n = k + 1 := ⟨n - 1, by grind⟩
    cases hstop : stop a with
    | true => simp [seek, hstop]
    | false =>
      simp only [seek, hx, hstop, List.find?_cons, Bool.false_eq_true, or_self, if_false]
      exact ih hrest (by simpa using hn)

/-- The search finds a node of the list when one passes the test. -/
theorem Seg.seek_hit [DecidableEq α] {a x : α} (h : Seg null next a l null) (stop : α → Bool)
    (hx : x ∈ l) (hstop : stop x = true) {n : ℕ} (hn : l.length < n) :
    ∃ y ∈ l, stop y = true ∧ seek null next stop n a = some y := by
  obtain ⟨y, hy⟩ := Option.isSome_iff_exists.mp (List.find?_isSome.mpr ⟨x, hx, hstop⟩)
  refine ⟨y, List.mem_of_find?_eq_some hy, List.find?_some hy, ?_⟩
  rw [h.seek_eq stop hn, hy, Option.getD_some]

end LinkedList
