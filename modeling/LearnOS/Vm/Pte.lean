import LearnOS.Param
import Mathlib.Data.Nat.Bits

/-!
# Page table entries

The words of a page table as in `riscv.h`: a physical page number above ten
flag bits. Flags are tested bit by bit, so every lemma about a word is about
`getLsbD`.
-/

namespace LearnOS

abbrev Pte := BitVec 64

def PTE_V : Pte := BitVec.twoPow 64 0
def PTE_R : Pte := BitVec.twoPow 64 1
def PTE_W : Pte := BitVec.twoPow 64 2
def PTE_X : Pte := BitVec.twoPow 64 3
def PTE_U : Pte := BitVec.twoPow 64 4
def PTE_F : Pte := BitVec.twoPow 64 8

/-- `PA2PTE`. -/
def pa2pte (pa : ℕ) : Pte := (BitVec.ofNat 64 pa >>> 12) <<< 10

/-- `PTE2PA`. -/
def pte2pa (pte : Pte) : ℕ := ((pte >>> 10) <<< 12).toNat

/-- `PTE_FLAGS`. -/
def pteFlags (pte : Pte) : Pte := pte &&& 0x3FF#64

/-- The test `pte & flag`. -/
def Pte.has (pte flag : Pte) : Bool := pte &&& flag != 0#64

@[simp] theorem Pte.has_twoPow (pte : Pte) {k : ℕ} (hk : k < 64) :
    Pte.has pte (BitVec.twoPow 64 k) = pte.getLsbD k := by
  have hne : BitVec.twoPow 64 k ≠ 0#64 := by
    intro h
    have hbit := congrArg (fun w => w.getLsbD k) h
    simp [hk] at hbit
  simp only [Pte.has, BitVec.and_twoPow]
  split <;> simp_all

@[simp] theorem Pte.has_V (pte : Pte) : Pte.has pte PTE_V = pte.getLsbD 0 :=
  Pte.has_twoPow pte (by decide)

@[simp] theorem Pte.has_W (pte : Pte) : Pte.has pte PTE_W = pte.getLsbD 2 :=
  Pte.has_twoPow pte (by decide)

@[simp] theorem Pte.has_U (pte : Pte) : Pte.has pte PTE_U = pte.getLsbD 4 :=
  Pte.has_twoPow pte (by decide)

@[simp] theorem Pte.has_F (pte : Pte) : Pte.has pte PTE_F = pte.getLsbD 8 :=
  Pte.has_twoPow pte (by decide)

theorem getLsbD_flagMask (k : ℕ) : (0x3FF#64).getLsbD k = decide (k < 10) := by
  rw [BitVec.getLsbD_ofNat]
  have hbit : Nat.testBit 0x3FF k = decide (k < 10) := Nat.testBit_two_pow_sub_one 10 k
  rw [hbit]
  by_cases hk : k < 10
  · simp [hk]
    omega
  · simp [hk]

theorem getLsbD_pteFlags (pte : Pte) (k : ℕ) :
    (pteFlags pte).getLsbD k = (pte.getLsbD k && decide (k < 10)) := by
  rw [pteFlags, BitVec.getLsbD_and, getLsbD_flagMask]

theorem getLsbD_pa2pte_low (pa : ℕ) {k : ℕ} (hk : k < 10) : (pa2pte pa).getLsbD k = false := by
  simp [pa2pte, hk]

/-- The flag bits of an entry are those it was made with. -/
theorem getLsbD_pa2pte_or (pa : ℕ) (flags : Pte) {k : ℕ} (hk : k < 10) :
    (pa2pte pa ||| flags).getLsbD k = flags.getLsbD k := by
  rw [BitVec.getLsbD_or, getLsbD_pa2pte_low pa hk, Bool.false_or]

/-- No bit above the flags. -/
def FlagsOnly (flags : Pte) : Prop := ∀ k, 10 ≤ k → flags.getLsbD k = false

theorem flagsOnly_pteFlags (pte : Pte) : FlagsOnly (pteFlags pte) := by
  intro k hk
  rw [getLsbD_pteFlags]
  simp [Nat.not_lt.mpr hk]

theorem FlagsOnly.or {a b : Pte} (ha : FlagsOnly a) (hb : FlagsOnly b) : FlagsOnly (a ||| b) := by
  intro k hk
  rw [BitVec.getLsbD_or, ha k hk, hb k hk, Bool.or_false]

theorem FlagsOnly.and {a : Pte} (ha : FlagsOnly a) (b : Pte) : FlagsOnly (a &&& b) := by
  intro k hk
  rw [BitVec.getLsbD_and, ha k hk, Bool.false_and]

theorem flagsOnly_twoPow {i : ℕ} (hi : i < 10) : FlagsOnly (BitVec.twoPow 64 i) := by
  intro k hk
  rw [BitVec.getLsbD_twoPow]
  simp
  omega

/-- The page of an entry is the one it was made with. -/
theorem pte2pa_pa2pte_or {pa : ℕ} (hmod : pa % PGSIZE = 0) (hlt : pa < 2 ^ 64) {flags : Pte}
    (hflags : FlagsOnly flags) : pte2pa (pa2pte pa ||| flags) = pa := by
  have hword : ((pa2pte pa ||| flags) >>> 10) <<< 12 = BitVec.ofNat 64 pa := by
    apply BitVec.eq_of_getLsbD_eq
    intro i hi
    rw [BitVec.getLsbD_shiftLeft, BitVec.getLsbD_ushiftRight, BitVec.getLsbD_or]
    by_cases hlow : i < 12
    · have hbit : pa.testBit i = false := by
        have hdvd : 2 ^ 12 ∣ pa := Nat.dvd_of_mod_eq_zero hmod
        obtain ⟨c, rfl⟩ := hdvd
        rw [Nat.testBit_two_pow_mul]
        simp [Nat.not_le.mpr hlow]
      simp [hlow, BitVec.getLsbD_ofNat, hbit]
    · rw [hflags _ (by omega)]
      simp only [pa2pte, BitVec.getLsbD_shiftLeft, BitVec.getLsbD_ushiftRight]
      have h₁ : 10 + (i - 12) < 64 := by omega
      have h₂ : 12 + (i - 12) = i := by omega
      have h₃ : ¬ 10 + (i - 12) < 10 := by omega
      simp [hi, hlow, h₁, h₂, h₃]
  rw [pte2pa, hword, BitVec.toNat_ofNat, Nat.mod_eq_of_lt hlt]

/-- Clearing or setting flags leaves the page. -/
theorem pte2pa_congr {a b : Pte} (h : ∀ k, 10 ≤ k → a.getLsbD k = b.getLsbD k) :
    pte2pa a = pte2pa b := by
  have hshift : a >>> 10 = b >>> 10 := by
    apply BitVec.eq_of_getLsbD_eq
    intro i hi
    rw [BitVec.getLsbD_ushiftRight, BitVec.getLsbD_ushiftRight]
    exact h _ (by omega)
  rw [pte2pa, pte2pa, hshift]

theorem pte2pa_mod (pte : Pte) : pte2pa pte % PGSIZE = 0 := by
  apply Nat.eq_of_testBit_eq
  intro k
  have hmod : PGSIZE = 2 ^ 12 := rfl
  rw [hmod, Nat.testBit_mod_two_pow, pte2pa, BitVec.testBit_toNat, BitVec.getLsbD_shiftLeft]
  by_cases hk : k < 12 <;> simp [hk]

theorem pte2pa_lt (pte : Pte) : pte2pa pte < 2 ^ 64 := BitVec.isLt _

/-- What a user access may do with a page: read it, reach it from user mode, and
write it at once or after a copy-on-write fault. -/
structure Perms where
  readable : Bool
  user : Bool
  writable : Bool
  deriving DecidableEq

def Pte.perms (pte : Pte) : Perms :=
  ⟨pte.getLsbD 1, pte.getLsbD 4, pte.getLsbD 2 || pte.getLsbD 8⟩

theorem getLsbD_cowFlag {flags : Pte} {k : ℕ} (hk : k < 64) :
    ((flags ||| PTE_F) &&& ~~~PTE_W).getLsbD k =
      ((flags.getLsbD k || decide (k = 8)) && !decide (k = 2)) := by
  rw [BitVec.getLsbD_and, BitVec.getLsbD_or, BitVec.getLsbD_not, PTE_F, PTE_W,
    BitVec.getLsbD_twoPow, BitVec.getLsbD_twoPow]
  simp only [hk, decide_true, Bool.true_and]
  congr 1
  · rw [show decide (8 < 64) = true from rfl, Bool.true_and]
    congr 1
    exact decide_eq_decide.mpr eq_comm
  · rw [show decide (2 < 64) = true from rfl, Bool.true_and]
    congr 1
    exact decide_eq_decide.mpr eq_comm

end LearnOS
