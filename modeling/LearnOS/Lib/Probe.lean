import Mathlib.Data.List.Range
import Mathlib.Data.Nat.ModEq

/-!
# Search in circular order

Open addressing looks for a key from a starting slot on, around the end of the
table, and remembers the first free slot on its way. The result of that loop is
a choice between two plain searches in one list of slots.
-/

namespace Probe

/-- The first `n` slots in circular order from `start` on. -/
def order (size start n : ℕ) : List ℕ := (List.range n).map fun j => (start + j) % size

/-- The loop, with the number of slots that are left and the free slot it has seen. -/
def search (size : ℕ) (hit free : ℕ → Bool) : ℕ → ℕ → Option ℕ → Option ℕ
  | 0, _, hole => hole
  | n + 1, i, hole =>
    if hit i then some i
    else search size hit free n ((i + 1) % size) (if hole.isNone ∧ free i then some i else hole)

variable {size start : ℕ}
  {i n : ℕ}

theorem order_succ (hi : i < size) :
    order size i (n + 1) = i :: order size ((i + 1) % size) n := by
  simp only [order, List.range_succ_eq_map, List.map_cons, List.map_map, Nat.add_zero,
    Nat.mod_eq_of_lt hi, List.cons.injEq, true_and]
  refine List.map_congr_left fun j _ => ?_
  simp only [Function.comp_apply, Nat.succ_eq_add_one, Nat.mod_add_mod]
  rw [Nat.add_right_comm, Nat.add_assoc]

theorem order_mod (size start n : ℕ) : order size (start % size) n = order size start n := by
  simp only [order, Nat.mod_add_mod]

/-- All slots are met once around. -/
theorem mem_order (hi : i < size) : i ∈ order size start size := by
  have hpos : 0 < size := Nat.zero_lt_of_lt hi
  have hstart : start % size < size := Nat.mod_lt _ hpos
  refine List.mem_map.mpr ⟨(i + (size - start % size)) % size, List.mem_range.mpr ?_, ?_⟩
  · exact Nat.mod_lt _ hpos
  · rw [Nat.add_mod_mod, ← Nat.mod_add_mod,
      show start % size + (i + (size - start % size)) = i + size by omega, Nat.add_mod_right,
      Nat.mod_eq_of_lt hi]

/-- A search that is back at its start has met all slots. -/
theorem forall_of_back {j : ℕ} {prop : ℕ → Prop} (hj : j < size)
    (hback : ((start + j) % size + 1) % size = start % size)
    (hall : ∀ i < j + 1, prop ((start + i) % size)) : ∀ i < size, prop i := by
  have hround : (start + (j + 1)) % size = start % size := by
    rw [← hback, Nat.mod_add_mod, Nat.add_assoc]
  have hdvd : size ∣ j + 1 := by
    have hsub := (Nat.modEq_iff_dvd' (Nat.le_add_right start (j + 1))).mp hround.symm
    rwa [Nat.add_sub_cancel_left] at hsub
  have hm : j + 1 = size := Nat.le_antisymm hj (Nat.le_of_dvd (Nat.succ_pos j) hdvd)
  intro i hi
  have hmem : i ∈ order size start size := mem_order hi
  obtain ⟨n, hn, rfl⟩ := List.mem_map.mp hmem
  exact hall n (hm ▸ List.mem_range.mp hn)

theorem find?_order {test : ℕ → Bool} {j : ℕ} (hj : j < n)
    (htest : test ((start + j) % size) = true)
    (hfirst : ∀ i < j, test ((start + i) % size) = false) :
    (order size start n).find? test = some ((start + j) % size) := by
  induction n generalizing j start with
  | zero => exact absurd hj (Nat.not_lt_zero j)
  | succ n ih =>
    simp only [order, List.range_succ_eq_map, List.map_cons, List.map_map, Nat.add_zero]
    cases j with
    | zero => exact List.find?_cons_of_pos htest
    | succ j =>
      have hhead := hfirst 0 (Nat.succ_pos j)
      rw [List.find?_cons_of_neg (by simpa using hhead)]
      have hshift : ∀ i, start + (i + 1) = start + 1 + i := fun i => by omega
      have htail : (order size (start + 1) n).find? test = some ((start + 1 + j) % size) :=
        ih (Nat.lt_of_succ_lt_succ hj)
        (by rwa [← hshift]) fun i hi => by
          rw [← hshift]
          exact hfirst (i + 1) (Nat.succ_lt_succ hi)
      rw [hshift, ← htail, order]
      congr 1
      exact List.map_congr_left fun i _ => congrArg (· % size) (hshift i)

theorem exists_of_find?_order {test : ℕ → Bool}
    (h : (order size start n).find? test = some i) :
    ∃ j < n, i = (start + j) % size ∧ test i = true ∧
      ∀ i < j, test ((start + i) % size) = false := by
  obtain ⟨htest, j, hj, hget, hbefore⟩ := List.find?_eq_some_iff_getElem.mp h
  simp only [order, List.length_map, List.length_range] at hj
  simp only [order, List.getElem_map, List.getElem_range] at hget
  refine ⟨j, hj, hget.symm, htest, fun i hi => ?_⟩
  have hfalse := hbefore i hi
  simpa only [order, List.getElem_map, List.getElem_range, Bool.not_eq_true'] using hfalse

/-- The loop finds the key or, failing that, the first free slot. -/
theorem search_eq (hit free : ℕ → Bool) (hi : i < size) (hole : Option ℕ) :
    search size hit free n i hole =
      ((order size i n).find? hit).or (hole.or ((order size i n).find? free)) := by
  induction n generalizing i hole with
  | zero => simp [search, order]
  | succ n ih =>
    rw [search, order_succ hi]
    by_cases hhit : hit i = true
    · rw [if_pos hhit, List.find?_cons_of_pos hhit, Option.some_or]
    · rw [if_neg hhit, ih (Nat.mod_lt _ (Nat.zero_lt_of_lt hi)), List.find?_cons_of_neg hhit]
      congr 1
      cases hole with
      | some x => simp
      | none =>
        by_cases hfree : free i = true
        · simp [hfree, List.find?_cons_of_pos]
        · simp [hfree, List.find?_cons_of_neg]

end Probe
