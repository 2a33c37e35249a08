import Mathlib.Data.List.Range
import Mathlib.Algebra.Order.Ring.Nat
import LearnOS.Lib.Segment

/-!
# Pages cut into slots

A page of `S` bytes at an aligned address is cut into slots of `u` bytes. An
address lies in at most one slot of one page, and slots that are linked each
to the next form a segment.
-/

namespace Slots

open LinkedList

/-- The page of an address. -/
def pageOf (S a : ℕ) : ℕ := a / S * S

/-- The address lies in slot `j` of the page at `p`. -/
def In (u p j a : ℕ) : Prop := p + j * u ≤ a ∧ a < p + j * u + u

variable {S u p p' j j' a : ℕ}

theorem In.pageOf_eq (h : In u p j a) (hp : S ∣ p) (hj : (j + 1) * u ≤ S) : pageOf S a = p := by
  obtain ⟨k, rfl⟩ := hp
  obtain ⟨hle, hlt⟩ := h
  rw [Nat.add_one_mul] at hj
  have hdiv : a / S = k := by
    apply Nat.div_eq_of_lt_le
    · rw [Nat.mul_comm]
      omega
    · rw [Nat.add_one_mul, Nat.mul_comm k]
      omega
  rw [pageOf, hdiv, Nat.mul_comm]

theorem pageOf_eq_self (hp : S ∣ p) : pageOf S p = p := Nat.div_mul_cancel hp

theorem In.unique (h : In u p j a) (h' : In u p' j' a) (hp : S ∣ p) (hp' : S ∣ p')
    (hj : (j + 1) * u ≤ S) (hj' : (j' + 1) * u ≤ S) : p = p' ∧ j = j' := by
  have heq : p = p' := (h.pageOf_eq hp hj).symm.trans (h'.pageOf_eq hp' hj')
  subst heq
  refine ⟨rfl, ?_⟩
  obtain ⟨hle, hlt⟩ := h
  obtain ⟨hle', hlt'⟩ := h'
  rcases Nat.lt_trichotomy j j' with hlt₂ | heq | hlt₂
  · have := Nat.mul_le_mul_right u hlt₂
    rw [Nat.succ_mul] at this
    omega
  · exact heq
  · have := Nat.mul_le_mul_right u hlt₂
    rw [Nat.succ_mul] at this
    omega

theorem in_start (hu : 0 < u) (p j : ℕ) : In u p j (p + j * u) := ⟨le_rfl, by omega⟩

/-- The addresses of `n` slots from slot `lo` on. -/
def range (u p lo n : ℕ) : List ℕ := (List.range' lo n).map fun j => p + j * u

theorem mem_range {lo n x : ℕ} :
    x ∈ range u p lo n ↔ ∃ j, lo ≤ j ∧ j < lo + n ∧ x = p + j * u := by
  simp only [range, List.mem_map, List.mem_range'_1, and_assoc, eq_comm]

theorem range_succ (u p lo n : ℕ) :
    range u p lo (n + 1) = (p + lo * u) :: range u p (lo + 1) n := by
  simp [range, List.range'_succ]

theorem range_concat (u p lo n : ℕ) :
    range u p lo (n + 1) = range u p lo n ++ [p + (lo + n) * u] := by
  simp [range, List.range'_concat]

theorem nodup_range (hu : 0 < u) (p lo n : ℕ) : (range u p lo n).Nodup := by
  refine List.Nodup.map ?_ List.nodup_range'
  intro j j' h
  exact Nat.eq_of_mul_eq_mul_right hu (Nat.add_left_cancel h)

/-- Slots that are linked each to the next one. -/
theorem seg_range {next : ℕ → ℕ} {t : ℕ} (hp : 0 < p) {lo n : ℕ}
    (hlink : ∀ j, lo ≤ j → j < lo + n → next (p + j * u) = p + (j + 1) * u)
    (hlast : next (p + (lo + n) * u) = t) :
    Seg 0 next (p + lo * u) (range u p lo (n + 1)) t := by
  induction n generalizing lo with
  | zero =>
    rw [range_succ]
    exact ⟨rfl, by omega, by simpa [range] using hlast⟩
  | succ n ih =>
    rw [range_succ]
    refine ⟨rfl, by omega, ?_⟩
    rw [hlink lo le_rfl (by omega)]
    apply ih
    · intro j hj hlt
      exact hlink j (by omega) (by omega)
    · rw [show lo + 1 + n = lo + (n + 1) by omega]
      exact hlast

end Slots
