import Mathlib.Data.Nat.Bitwise
import Mathlib.Algebra.Ring.Parity
import Mathlib.Tactic.Ring

/-!
# Dyadic blocks

A block `(q, o)` is the run of `2 ^ o` numbers from `q` on. Blocks of one order
that start at multiples of `2 ^ o` come in pairs whose starts differ in bit `o`
only; a pair is the two halves of one block of the next order. The lemmas turn
the bit operations on block starts into that arithmetic.
-/

namespace DyadicBlock

/-- Membership in a block as a number, so that covers of lists are sums. -/
def cov (b : ℕ × ℕ) (x : ℕ) : ℕ := if b.1 ≤ x ∧ x < b.1 + 2 ^ b.2 then 1 else 0

theorem cov_le_one (b : ℕ × ℕ) (x : ℕ) : cov b x ≤ 1 := by
  unfold cov
  split <;> omega

theorem cov_eq_one_iff {b : ℕ × ℕ} {x : ℕ} : cov b x = 1 ↔ b.1 ≤ x ∧ x < b.1 + 2 ^ b.2 := by
  unfold cov
  split
  · next h => exact iff_of_true rfl h
  · next h => exact iff_of_false (by decide) h

@[simp] theorem cov_start (q o : ℕ) : cov (q, o) q = 1 := by
  have hpos : 0 < 2 ^ o := Nat.two_pow_pos o
  exact cov_eq_one_iff.mpr ⟨le_refl q, by simp⟩

/-- A block is the disjoint union of its two halves. -/
theorem cov_split (q o x : ℕ) :
    cov (q, o + 1) x = cov (q, o) x + cov (q + 2 ^ o, o) x := by
  have hpow : 2 ^ (o + 1) = 2 ^ o + 2 ^ o := by ring
  unfold cov
  simp only [hpow]
  split_ifs <;> omega

/-- The start of the block of the next order around `q`. -/
def base (q o : ℕ) : ℕ := q / 2 ^ (o + 1) * 2 ^ (o + 1)

theorem dvd_base (q o : ℕ) : 2 ^ (o + 1) ∣ base q o := Dvd.intro_left _ rfl

theorem eq_base_or_of_dvd {q o : ℕ} (h : 2 ^ o ∣ q) :
    q = base q o ∨ q = base q o + 2 ^ o := by
  obtain ⟨k, rfl⟩ := h
  have hpos : 0 < 2 ^ o := Nat.two_pow_pos o
  have hdiv : 2 ^ o * k / 2 ^ (o + 1) = k / 2 := by
    rw [pow_succ, Nat.mul_div_mul_left _ _ hpos]
  have hbase : base (2 ^ o * k) o = 2 ^ o * (2 * (k / 2)) := by
    rw [base, hdiv, pow_succ]
    ring
  rw [hbase]
  rcases Nat.mod_two_eq_zero_or_one k with hk | hk
  · left
    congr 1
    omega
  · right
    have : k = 2 * (k / 2) + 1 := by omega
    calc
      2 ^ o * k = 2 ^ o * (2 * (k / 2) + 1) := by rw [← this]
      _ = 2 ^ o * (2 * (k / 2)) + 2 ^ o := by ring

theorem xor_two_pow (k o : ℕ) : (2 ^ o * k) ^^^ 2 ^ o = 2 ^ o * (k ^^^ 1) := by
  have h := Nat.shiftLeft_xor_distrib (i := o) (a := k) (b := 1)
  simp only [Nat.shiftLeft_eq, one_mul] at h
  rw [mul_comm (2 ^ o) k, mul_comm (2 ^ o) (k ^^^ 1), h]

theorem base_xor {q o : ℕ} (h : q = base q o) : q ^^^ 2 ^ o = q + 2 ^ o := by
  obtain ⟨k, hk⟩ := dvd_base q o
  rw [← h] at hk
  have hq : q = 2 ^ o * (2 * k) := by rw [hk]; ring
  have heven : Even (2 * k) := even_two_mul k
  calc
    q ^^^ 2 ^ o = 2 ^ o * ((2 * k) ^^^ 1) := by rw [hq, xor_two_pow]
    _ = 2 ^ o * (2 * k + 1) := by rw [Nat.xor_one_of_even heven]
    _ = q + 2 ^ o := by rw [hq]; ring

theorem upper_xor {q o : ℕ} (h : q = base q o + 2 ^ o) : q ^^^ 2 ^ o = base q o := by
  obtain ⟨k, hk⟩ := dvd_base q o
  have hq : q = 2 ^ o * (2 * k + 1) := by rw [h, hk]; ring
  have hodd : Odd (2 * k + 1) := odd_two_mul_add_one k
  calc
    q ^^^ 2 ^ o = 2 ^ o * ((2 * k + 1) ^^^ 1) := by rw [hq, xor_two_pow]
    _ = 2 ^ o * (2 * k) := by rw [Nat.xor_one_of_odd hodd]; rfl
    _ = base q o := by rw [hk]; ring

/-- A block start and the start of its sibling are the two halves of the
block of the next order. -/
theorem halves {q o : ℕ} (h : 2 ^ o ∣ q) :
    (q = base q o ∧ q ^^^ 2 ^ o = base q o + 2 ^ o) ∨
      (q = base q o + 2 ^ o ∧ q ^^^ 2 ^ o = base q o) := by
  rcases eq_base_or_of_dvd h with hq | hq
  · exact Or.inl ⟨hq, hq ▸ base_xor hq⟩
  · exact Or.inr ⟨hq, upper_xor hq⟩

theorem dvd_xor {q o : ℕ} (h : 2 ^ o ∣ q) : 2 ^ o ∣ q ^^^ 2 ^ o := by
  have hb : 2 ^ o ∣ base q o := (pow_dvd_pow 2 (Nat.le_succ o)).trans (dvd_base q o)
  rcases halves h with ⟨-, h'⟩ | ⟨-, h'⟩
  · rw [h']
    exact Nat.dvd_add hb (dvd_refl _)
  · rw [h']
    exact hb

theorem cov_merge {q o : ℕ} (h : 2 ^ o ∣ q) (x : ℕ) :
    cov (base q o, o + 1) x = cov (q, o) x + cov (q ^^^ 2 ^ o, o) x := by
  rw [cov_split]
  rcases halves h with ⟨hq, hx⟩ | ⟨hq, hx⟩
  · rw [hx, ← hq]
  · rw [hx, ← hq, add_comm]

/-- Clearing bit `o` of a block start below `2 ^ n` gives the start of the
block of the next order. -/
theorem and_clear_bit {q o n : ℕ} (h : 2 ^ o ∣ q) (hq : q < 2 ^ n) (ho : o < n) :
    q &&& (2 ^ n - (2 ^ o + 1)) = base q o := by
  have hlt : 2 ^ o < 2 ^ n := Nat.pow_lt_pow_right (by decide) ho
  obtain ⟨k, rfl⟩ := h
  apply Nat.eq_of_testBit_eq
  intro i
  have hbase : base (2 ^ o * k) o = 2 ^ (o + 1) * (k / 2) := by
    rw [base, pow_succ, Nat.mul_div_mul_left _ _ (Nat.two_pow_pos o)]
    ring
  rw [Nat.testBit_and, Nat.testBit_two_pow_sub_succ hlt, Nat.testBit_two_pow, hbase,
    Nat.testBit_two_pow_mul, Nat.testBit_two_pow_mul]
  by_cases hi : i < n
  · rcases lt_trichotomy i o with h | h | h
    · have h₁ : ¬ o ≤ i := by omega
      have h₂ : ¬ o + 1 ≤ i := by omega
      simp [h₁, h₂]
    · subst h
      simp
    · have h₁ : o ≤ i := by omega
      have h₂ : o + 1 ≤ i := by omega
      have h₃ : o ≠ i := by omega
      have h₄ : i - o = i - (o + 1) + 1 := by omega
      simp [hi, h₁, h₂, h₃, h₄, Nat.testBit_succ]
  · have hbig : (2 ^ o * k).testBit i = false := by
      apply Nat.testBit_lt_two_pow
      exact lt_of_lt_of_le hq (Nat.pow_le_pow_right (by decide) (by omega))
    have h₂ : o + 1 ≤ i := by omega
    have h₄ : i - o = i - (o + 1) + 1 := by omega
    rw [Nat.testBit_two_pow_mul] at hbig
    have hk : (k / 2).testBit (i - (o + 1)) = false := by
      simpa [show o ≤ i by omega, h₄, Nat.testBit_succ] using hbig
    simp [hi, hk]

/-- Clearing the lowest bits rounds down to a multiple of `2 ^ o`. -/
theorem and_clear_low {x o n : ℕ} (hx : x < 2 ^ n) (ho : o ≤ n) :
    x &&& (2 ^ n - 2 ^ o) = x / 2 ^ o * 2 ^ o := by
  have hpos : 0 < 2 ^ o := Nat.two_pow_pos o
  have hle : 2 ^ o ≤ 2 ^ n := Nat.pow_le_pow_right (by decide) ho
  have hmask : 2 ^ n - 2 ^ o = 2 ^ n - ((2 ^ o - 1) + 1) := by omega
  apply Nat.eq_of_testBit_eq
  intro i
  rw [hmask, Nat.testBit_and, Nat.testBit_two_pow_sub_succ (by omega),
    Nat.testBit_two_pow_sub_one, mul_comm, Nat.testBit_two_pow_mul, Nat.testBit_div_two_pow]
  by_cases hi : i < n
  · by_cases hio : i < o
    · have : ¬ o ≤ i := by omega
      simp [hio, this]
    · have h₁ : o ≤ i := by omega
      have h₂ : i - o + o = i := by omega
      simp [hi, h₁, hio, h₂]
  · have hbig : x.testBit i = false :=
      Nat.testBit_lt_two_pow (lt_of_lt_of_le hx (Nat.pow_le_pow_right (by decide) (by omega)))
    have h₁ : o ≤ i := by omega
    have h₂ : i - o + o = i := by omega
    simp [h₁, h₂, hbig]

end DyadicBlock
