import LearnOS.Lib.BuddySystem

/-!
# Coalesced free lists

Free lists are coalesced when no block below the top order is free together
with its sibling. Allocation, release and the initial carve-up keep them so.
The blocks of coalesced lists are the maximal aligned blocks of free numbers,
so the lists hold no more information than the set of free numbers.
-/

namespace DyadicBlock

theorem xor_ne_self (q o : ℕ) : q ^^^ 2 ^ o ≠ q := by
  intro h
  have hzero : 2 ^ o = 0 := by
    rw [← Nat.xor_xor_cancel_left q (2 ^ o), h, Nat.xor_self]
  exact Nat.ne_of_gt (Nat.two_pow_pos o) hzero

/-- Aligned blocks that meet are nested. -/
theorem end_le_of_mem {q o s k : ℕ} (hq : 2 ^ o ∣ q) (hs : 2 ^ k ∣ s) (hok : o ≤ k)
    (hlt : q < s + 2 ^ k) : q + 2 ^ o ≤ s + 2 ^ k := by
  have hdvd : 2 ^ o ∣ s + 2 ^ k :=
    Nat.dvd_add ((pow_dvd_pow 2 hok).trans hs) (pow_dvd_pow 2 hok)
  obtain ⟨a, ha⟩ := hq
  obtain ⟨b, hb⟩ := hdvd
  rw [ha, hb] at hlt ⊢
  have hab : a < b := Nat.lt_of_mul_lt_mul_left hlt
  calc
    2 ^ o * a + 2 ^ o = 2 ^ o * (a + 1) := by ring
    _ ≤ 2 ^ o * b := Nat.mul_le_mul_left _ hab

theorem base_le (q o : ℕ) : base q o ≤ q := Nat.div_mul_le_self q (2 ^ (o + 1))

theorem le_base {q o s : ℕ} (hs : 2 ^ (o + 1) ∣ s) (hle : s ≤ q) : s ≤ base q o := by
  obtain ⟨a, rfl⟩ := hs
  have ha : a ≤ q / 2 ^ (o + 1) := by
    apply (Nat.le_div_iff_mul_le (Nat.two_pow_pos _)).mpr
    rwa [mul_comm]
  calc
    2 ^ (o + 1) * a = a * 2 ^ (o + 1) := mul_comm _ _
    _ ≤ base q o := Nat.mul_le_mul_right _ ha

end DyadicBlock

namespace BuddySystem

open DyadicBlock Function

variable {top limit : ℕ} {free : FreeLists} {free' : FreeLists} {o q : ℕ}

/-- No block below the top order is free together with its sibling. -/
def Coalesced (top : ℕ) (free : FreeLists) : Prop :=
  ∀ o < top, ∀ q ∈ free o, q ^^^ 2 ^ o ∉ free o

theorem mem_push {o k p q : ℕ} : p ∈ push free o q k ↔ (k = o ∧ p = q) ∨ p ∈ free k := by
  by_cases hk : k = o
  · subst hk
    simp [push]
  · simp [push, hk]

theorem mem_of_mem_remove {o k p q : ℕ} (h : p ∈ remove free o q k) : p ∈ free k := by
  by_cases hk : k = o
  · subst hk
    exact List.mem_of_mem_erase (by simpa [remove] using h)
  · simpa [remove, update_of_ne hk] using h

theorem Coalesced.remove (h : Coalesced top free) : Coalesced top (remove free o q) :=
  fun k hk p hp hp' => h k hk p (mem_of_mem_remove hp) (mem_of_mem_remove hp')

theorem Coalesced.push (h : Coalesced top free) (hq : o < top → q ^^^ 2 ^ o ∉ free o) :
    Coalesced top (push free o q) := by
  intro k hk p hp hp'
  rcases mem_push.mp hp with ⟨rfl, rfl⟩ | hp
  · rcases mem_push.mp hp' with ⟨-, hself⟩ | hp'
    · exact xor_ne_self p k hself
    · exact hq hk hp'
  · rcases mem_push.mp hp' with ⟨rfl, hsib⟩ | hp'
    · apply hq hk
      rwa [← hsib, Nat.xor_xor_cancel_right]
    · exact h k hk p hp hp'

/-- The halves pushed back by a split have the block that is kept, or contains
it, as sibling. -/
theorem Coalesced.split (h : Coalesced top free) {o q n : ℕ} (hn : o + n ≤ top)
    (hq : 2 ^ (o + n) ∣ q) (hfit : Fits top limit free (q, o + n)) :
    Coalesced top (split o q n free) := by
  induction n generalizing free with
  | zero => exact h
  | succ n ih =>
    have hq' : 2 ^ (o + n) ∣ q := (pow_dvd_pow 2 (by omega)).trans hq
    have hbase : base q (o + n) = q := Nat.div_mul_cancel hq
    have hsib : (q + 2 ^ (o + n)) ^^^ 2 ^ (o + n) = q := by
      rw [← base_xor hbase.symm, Nat.xor_xor_cancel_right]
    have hpush : Fits top limit (BuddySystem.push free (o + n) (q + 2 ^ (o + n)))
        (q, o + n) := by
      intro x
      have hx := hfit x
      rw [show o + (n + 1) = o + n + 1 by omega, cov_split] at hx
      rw [freeCover_push free (by omega)]
      omega
    apply ih (h.push _) (by omega) hq' hpush
    intro _
    rw [hsib]
    exact hfit.not_mem (by omega)

theorem Coalesced.alloc (h : Coalesced top free) (hp : Packed top limit free)
    (ha : Aligned top free) (halloc : alloc top o free = some (q, free')) :
    Coalesced top free' := by
  obtain ⟨k, hok, hk, hq, rfl⟩ := alloc_eq_some halloc
  have hk' : o + (k - o) = k := by omega
  apply h.remove.split (by omega)
  · rw [hk']
    exact ha k hk q hq
  · rw [hk']
    exact hp.fits_remove hk hq

theorem Coalesced.release (h : Coalesced top free) {n q o : ℕ} (hn : o + n = top) :
    Coalesced top (release n q o free) := by
  induction n generalizing q o free with
  | zero =>
    apply h.push
    omega
  | succ n ih =>
    unfold BuddySystem.release
    split
    · exact ih h.remove (by omega)
    · next hsib => exact h.push fun _ => hsib

theorem Coalesced.move {live live' : List (ℕ × ℕ)} (h : Coalesced top free)
    (hpart : Partition top limit free live) (hmove : Move top free live free' live') :
    Coalesced top free' := by
  cases hmove with
  | same => exact h
  | alloc ho halloc => exact h.alloc hpart.packed hpart.aligned halloc
  | release hb =>
    have ho := hpart.live_order _ hb
    exact h.release (by omega)

theorem mem_carveLow {n k q : ℕ} (h : q ∈ carveLow limit n (fun _ => []) k) : q = base limit k := by
  induction n with
  | zero => simp [carveLow] at h
  | succ n ih =>
    unfold carveLow at h
    split at h
    · rcases mem_push.mp h with ⟨rfl, hq⟩ | h
      · exact hq
      · exact ih h
    · exact ih h

theorem mem_carveTop {m k q : ℕ} (hk : k < top) (h : q ∈ carveTop top m free k) : q ∈ free k := by
  induction m with
  | zero => exact h
  | succ m ih =>
    rcases mem_push.mp h with ⟨hkt, -⟩ | h
    · omega
    · exact ih h

/-- Below the top order the carve-up has at most one block of each order. -/
theorem Coalesced.carve (top limit : ℕ) : Coalesced top (carve top limit) := by
  intro o ho q hq hsib
  have h₁ := mem_carveLow (mem_carveTop ho hq)
  have h₂ := mem_carveLow (mem_carveTop ho hsib)
  exact xor_ne_self q o (h₂.trans h₁.symm)

/-! ## The free blocks are the maximal blocks of free numbers -/

/-- The number is in a free block. -/
def IsFree (top : ℕ) (free : FreeLists) (x : ℕ) : Prop :=
  ∃ o ≤ top, ∃ q ∈ free o, q ≤ x ∧ x < q + 2 ^ o

theorem isFree_iff {x : ℕ} : IsFree top free x ↔ 0 < freeCover top free x := by
  constructor
  · rintro ⟨o, ho, q, hq, hx⟩
    have hle := cov_le_freeCover ho hq x
    rw [cov_eq_one_iff.mpr hx] at hle
    exact hle
  · intro h
    rw [← liveCover_freeBlocks] at h
    obtain ⟨b, hb, hx⟩ := exists_of_liveCover_pos h
    obtain ⟨ho, hq⟩ := mem_freeBlocks.mp hb
    exact ⟨b.2, ho, b.1, hq, hx⟩

/-- In coalesced lists an aligned block of free numbers lies in one free block. -/
theorem Coalesced.exists_block (h : Coalesced top free) (ha : Aligned top free) (ho : o ≤ top)
    (hq : 2 ^ o ∣ q) (hfree : ∀ x, q ≤ x → x < q + 2 ^ o → IsFree top free x) :
    ∃ k ≤ top, o ≤ k ∧ ∃ s ∈ free k, s ≤ q ∧ q + 2 ^ o ≤ s + 2 ^ k := by
  induction o generalizing q with
  | zero =>
    obtain ⟨k, hk, s, hs, hle, hlt⟩ := hfree q (le_refl q) (by omega)
    exact ⟨k, hk, Nat.zero_le k, s, hs, hle, hlt⟩
  | succ o ih =>
    have hpow : 2 ^ (o + 1) = 2 ^ o + 2 ^ o := by ring
    have hq' : 2 ^ o ∣ q := (pow_dvd_pow 2 (Nat.le_succ o)).trans hq
    obtain ⟨k₁, hk₁, hok₁, s₁, hs₁, hle₁, hend₁⟩ :=
      ih (by omega) hq' fun x hx hlt => hfree x hx (by omega)
    obtain ⟨k₂, hk₂, hok₂, s₂, hs₂, hle₂, hend₂⟩ :=
      ih (by omega) (Nat.dvd_add hq' (dvd_refl _))
        fun x hx hlt => hfree x (by omega) (by omega)
    have hpos : 0 < 2 ^ o := Nat.two_pow_pos o
    rcases Nat.eq_or_lt_of_le hok₁ with rfl | hlt₁
    · rcases Nat.eq_or_lt_of_le hok₂ with rfl | hlt₂
      -- both halves are free blocks of their own: they would have been merged
      · have hlow : s₁ = q := by omega
        have hhigh : s₂ = q + 2 ^ o := by omega
        have hbase : base q o = q := Nat.div_mul_cancel hq
        subst hlow hhigh
        rw [← base_xor hbase.symm] at hs₂
        exact absurd hs₂ (h o (by omega) s₁ hs₁)
      · have hs : 2 ^ (o + 1) ∣ s₂ := (pow_dvd_pow 2 hlt₂).trans (ha k₂ hk₂ s₂ hs₂)
        have hq₂ : s₂ ≤ q := by
          have hb := le_base (q := q + 2 ^ o) hs hle₂
          have hb' : base (q + 2 ^ o) o = q := by
            obtain ⟨c, rfl⟩ := hq
            have hdiv : (2 ^ (o + 1) * c + 2 ^ o) / 2 ^ (o + 1) = c := by
              rw [Nat.mul_add_div (Nat.two_pow_pos _), Nat.div_eq_of_lt (by omega), add_zero]
            rw [base, hdiv, mul_comm]
          rwa [hb'] at hb
        exact ⟨k₂, hk₂, hlt₂, s₂, hs₂, hq₂, by omega⟩
    · have hend := end_le_of_mem hq (ha k₁ hk₁ s₁ hs₁) hlt₁ (by omega)
      exact ⟨k₁, hk₁, hlt₁, s₁, hs₁, hle₁, hend⟩

/-- A block is free exactly when it is aligned, consists of free numbers and
cannot be extended to the next order. -/
theorem Coalesced.mem_iff (h : Coalesced top free) (hp : Packed top limit free)
    (ha : Aligned top free) (ho : o ≤ top) :
    q ∈ free o ↔ 2 ^ o ∣ q ∧ (∀ x, q ≤ x → x < q + 2 ^ o → IsFree top free x) ∧
      (o < top →
        ¬ ∀ x, base q o ≤ x → x < base q o + 2 ^ (o + 1) → IsFree top free x) := by
  constructor
  · intro hq
    refine ⟨ha o ho q hq, fun x hle hlt => ⟨o, ho, q, hq, hle, hlt⟩, fun hlt hall => ?_⟩
    obtain ⟨k, hk, hok, s, hs, hle, hend⟩ := h.exists_block ha hlt (dvd_base q o) hall
    have hcov : cov (s, k) q = 1 := by
      apply cov_eq_one_iff.mpr
      have hb := base_le q o
      have hb' : q < base q o + 2 ^ (o + 1) := by
        rcases eq_base_or_of_dvd (ha o ho q hq) with hq' | hq'
        · have := Nat.two_pow_pos (o + 1)
          omega
        · have : 2 ^ (o + 1) = 2 ^ o + 2 ^ o := by ring
          have := Nat.two_pow_pos o
          omega
      exact ⟨hle.trans hb, by simp only; omega⟩
    have hsum := cov_add_cov_le_freeCover ho hk (by omega) hq hs q
    have hx := hp q
    rw [cov_start, hcov] at hsum
    split at hx <;> omega
  · rintro ⟨hq, hall, hmax⟩
    obtain ⟨k, hk, hok, s, hs, hle, hend⟩ := h.exists_block ha ho hq hall
    rcases Nat.eq_or_lt_of_le hok with rfl | hlt
    · rwa [show q = s by omega]
    · exfalso
      apply hmax (by omega)
      have hs' : 2 ^ (o + 1) ∣ s := (pow_dvd_pow 2 hlt).trans (ha k hk s hs)
      have hsb := le_base hs' hle
      have hb := base_le q o
      have hpos := Nat.two_pow_pos o
      have hend' := end_le_of_mem (dvd_base q o) (ha k hk s hs) hlt (by omega)
      intro x hx hxlt
      exact ⟨k, hk, s, hs, by omega, by omega⟩

/-- The free numbers are those below the limit in no live block. -/
theorem Partition.isFree_iff {live : List (ℕ × ℕ)} (h : Partition top limit free live) (x : ℕ) :
    IsFree top free x ↔ x < limit ∧ ∀ b ∈ live, ¬ (b.1 ≤ x ∧ x < b.1 + 2 ^ b.2) := by
  rw [BuddySystem.isFree_iff]
  have hcover := h.cover x
  constructor
  · intro hpos
    have hlt : x < limit := by
      by_contra hge
      rw [if_neg hge] at hcover
      omega
    rw [if_pos hlt] at hcover
    refine ⟨hlt, fun b hb hx => ?_⟩
    have herase := liveCover_erase hb x
    rw [cov_eq_one_iff.mpr hx] at herase
    omega
  · rintro ⟨hlt, hnone⟩
    rw [if_pos hlt] at hcover
    have hzero : liveCover live x = 0 := by
      by_contra hne
      obtain ⟨b, hb, hx⟩ := exists_of_liveCover_pos (Nat.pos_of_ne_zero hne)
      exact hnone b hb hx
    omega

/-! ## Allocation finds every run of free numbers -/

/-- No block is found only if every aligned run of the order has a number in use. -/
theorem Coalesced.no_run_of_none (h : Coalesced top free) (ha : Aligned top free) (ho : o ≤ top)
    (hnone : BuddySystem.alloc top o free = none) (hq : 2 ^ o ∣ q) :
    ¬ ∀ x, q ≤ x → x < q + 2 ^ o → IsFree top free x := by
  intro hfree
  obtain ⟨k, hk, hok, s, hs, -, -⟩ := h.exists_block ha ho hq hfree
  rw [alloc_eq_none hnone ho hok hk] at hs
  cases hs

/-- The block that is found was free. -/
theorem isFree_of_alloc {o q x : ℕ} (halloc : BuddySystem.alloc top o free = some (q, free'))
    (hle : q ≤ x) (hlt : x < q + 2 ^ o) : IsFree top free x := by
  obtain ⟨k, hok, hk, hq, -⟩ := alloc_eq_some halloc
  have hpow : 2 ^ o ≤ 2 ^ k := Nat.pow_le_pow_right Nat.two_pos hok
  exact ⟨k, hk, q, hq, hle, by omega⟩

/-- The numbers of the block stop being free, and no others. -/
theorem Partition.isFree_alloc {live : List (ℕ × ℕ)} (h : Partition top limit free live)
    (ho : o ≤ top) (halloc : BuddySystem.alloc top o free = some (q, free')) (x : ℕ) :
    IsFree top free' x ↔ IsFree top free x ∧ ¬ (q ≤ x ∧ x < q + 2 ^ o) := by
  rw [(h.alloc ho halloc).isFree_iff, h.isFree_iff, List.forall_mem_cons, and_assoc]
  exact and_congr_right fun _ => and_comm

end BuddySystem
