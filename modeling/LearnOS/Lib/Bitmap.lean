import Mathlib.Data.Nat.Notation
import Mathlib.Logic.Function.Basic

/-!
# Single bits of a byte array

A byte array is read and written one bit at a time through a mask. Bit `i` of
the array that starts at `base` is bit `i % 8` of the byte at `base + i / 8`.
-/

namespace Bitmap

open Function

/-- The byte with only the bit of index `i` set. -/
def mask (i : ℕ) : BitVec 8 := 1#8 <<< (i % 8)

/-- The masked byte of bit `i`: zero exactly when the bit is clear. -/
def get (m : ℕ → BitVec 8) (base i : ℕ) : BitVec 8 := m (base + i / 8) &&& mask i

/-- Set bit `i`, or clear it when the flag is false. -/
def set (m : ℕ → BitVec 8) (base i : ℕ) (flag : Bool) : ℕ → BitVec 8 :=
  update m (base + i / 8)
    (if flag then m (base + i / 8) ||| mask i else m (base + i / 8) &&& ~~~ mask i)

theorem getLsbD_mask (i k : ℕ) :
    (mask i).getLsbD k = decide (k = i % 8) := by
  have hi : i % 8 < 8 := Nat.mod_lt i (by decide)
  simp only [mask, BitVec.getLsbD_shiftLeft, BitVec.getLsbD_one]
  by_cases hk : k = i % 8
  · subst hk
    simp [hi]
  · by_cases hlt : k < i % 8
    · simp [hk, hlt]
    · have hsub : k - i % 8 ≠ 0 := by omega
      simp [hk, hsub]

theorem and_mask_eq_zero_iff (b : BitVec 8) (i : ℕ) :
    b &&& mask i = 0#8 ↔ b.getLsbD (i % 8) = false := by
  constructor
  · intro h
    have hbit := congrArg (fun c : BitVec 8 => c.getLsbD (i % 8)) h
    simpa [getLsbD_mask] using hbit
  · intro h
    apply BitVec.eq_of_getLsbD_eq
    intro k _
    by_cases hk : k = i % 8
    · subst hk
      simp [h]
    · simp [getLsbD_mask, hk]

theorem get_eq_zero_iff (m : ℕ → BitVec 8) (base i : ℕ) :
    get m base i = 0#8 ↔ (m (base + i / 8)).getLsbD (i % 8) = false :=
  and_mask_eq_zero_iff _ _

/-- After a write the written bit has the written value. -/
theorem get_set_same (m : ℕ → BitVec 8) (base i : ℕ) (flag : Bool) :
    get (set m base i flag) base i = 0#8 ↔ flag = false := by
  rw [get_eq_zero_iff]
  cases flag with
  | true => simp [set, getLsbD_mask]
  | false => simp [set, getLsbD_mask, Nat.mod_lt i (show 0 < 8 by decide)]

/-- A write changes no bit in another position. -/
theorem get_set_of_ne (m : ℕ → BitVec 8) {base base' i i' : ℕ} (flag : Bool)
    (hne : base + i / 8 ≠ base' + i' / 8 ∨ i % 8 ≠ i' % 8) :
    get (set m base i flag) base' i' = get m base' i' := by
  by_cases hbyte : base' + i' / 8 = base + i / 8
  · have hbit : i' % 8 ≠ i % 8 := by
      rcases hne with h | h
      · exact absurd hbyte.symm h
      · exact h.symm
    apply BitVec.eq_of_getLsbD_eq
    intro k hk
    rw [get, get, set, hbyte, update_self, BitVec.getLsbD_and, BitVec.getLsbD_and,
      getLsbD_mask]
    by_cases hki : k = i' % 8
    · cases flag with
      | true => simp [getLsbD_mask, hki, hbit]
      | false =>
        simp only [Bool.false_eq_true, if_false, BitVec.getLsbD_and, BitVec.getLsbD_not,
          getLsbD_mask]
        simp [hki, hbit, Nat.mod_lt i' (show 0 < 8 by decide)]
    · simp [hki]
  · simp [get, set, update_of_ne hbyte]

end Bitmap
