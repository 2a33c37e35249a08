import LearnOS.Lib.Dyadic
import Mathlib.Algebra.BigOperators.Group.List.Basic
import Mathlib.Algebra.BigOperators.Group.Finset.Basic
import Mathlib.Algebra.Order.BigOperators.Group.Finset
import Mathlib.Algebra.BigOperators.Ring.Finset
import Mathlib.Order.Interval.Finset.Nat

/-!
# The binary buddy system on free lists

The system manages the numbers below `limit` in blocks of orders `0` to `top`.
A state is one list of block starts for every order. Allocation pops a block
of the first sufficient order and pushes the upper halves back; release merges
a block with its sibling as long as the sibling is free.

## Implementation notes

Everything about disjointness is a statement about one number, how many
blocks cover it. `Fits` bounds that number while one block is held outside
the lists, which is the situation inside both loops.
-/

namespace BuddySystem

open DyadicBlock Function

/-- The starts of the free blocks of every order. -/
abbrev FreeLists := ℕ → List ℕ

def push (free : FreeLists) (o q : ℕ) : FreeLists := update free o (q :: free o)

def remove (free : FreeLists) (o q : ℕ) : FreeLists :=
  update free o ((free o).erase q)

/-- How many free blocks of one order contain `x`. -/
def listCover (l : List ℕ) (o x : ℕ) : ℕ := (l.map fun q => cov (q, o) x).sum

/-- How many free blocks contain `x`. -/
def freeCover (top : ℕ) (free : FreeLists) (x : ℕ) : ℕ :=
  ∑ o ∈ Finset.range (top + 1), listCover (free o) o x

/-- How many blocks of a list contain `x`. -/
def liveCover (live : List (ℕ × ℕ)) (x : ℕ) : ℕ := (live.map fun b => cov b x).sum

theorem listCover_update_add {top : ℕ} (free : FreeLists) {o : ℕ} (ho : o ≤ top)
    (l : List ℕ) (x : ℕ) :
    freeCover top (update free o l) x + listCover (free o) o x =
      freeCover top free x + listCover l o x := by
  have hmem : o ∈ Finset.range (top + 1) := Finset.mem_range.mpr (by omega)
  unfold freeCover
  rw [← Finset.add_sum_erase _ _ hmem,
    ← Finset.add_sum_erase (Finset.range (top + 1)) (fun o => listCover (free o) o x) hmem]
  have hrest : ∑ k ∈ (Finset.range (top + 1)).erase o,
      listCover (update free o l k) k x =
      ∑ k ∈ (Finset.range (top + 1)).erase o, listCover (free k) k x := by
    apply Finset.sum_congr rfl
    intro k hk
    rw [update_of_ne (Finset.ne_of_mem_erase hk)]
  rw [hrest, update_self]
  omega

theorem freeCover_push {top : ℕ} (free : FreeLists) {o : ℕ} (ho : o ≤ top) (q x : ℕ) :
    freeCover top (push free o q) x = freeCover top free x + cov (q, o) x := by
  have h := listCover_update_add free ho (q :: free o) x
  have hcons : listCover (q :: free o) o x = cov (q, o) x + listCover (free o) o x := by
    simp [listCover]
  unfold push
  omega

theorem freeCover_remove {top : ℕ} (free : FreeLists) (ho : o ≤ top) (hq : q ∈ free o) (x : ℕ) :
    freeCover top (remove free o q) x + cov (q, o) x = freeCover top free x := by
  have h := listCover_update_add free ho ((free o).erase q) x
  have herase : cov (q, o) x + listCover ((free o).erase q) o x = listCover (free o) o x :=
    List.sum_map_erase (fun q => cov (q, o) x) hq
  unfold remove
  omega

theorem cov_le_listCover {l : List ℕ} (h : q ∈ l) (x : ℕ) : cov (q, o) x ≤ listCover l o x := by
  have herase := List.sum_map_erase (fun q => cov (q, o) x) h
  unfold listCover
  omega

theorem listCover_le_freeCover {top : ℕ} (free : FreeLists) {o : ℕ} (ho : o ≤ top) (x : ℕ) :
    listCover (free o) o x ≤ freeCover top free x := by
  unfold freeCover
  exact Finset.single_le_sum (f := fun o => listCover (free o) o x) (fun _ _ => Nat.zero_le _)
    (Finset.mem_range.mpr (by omega))

theorem cov_le_freeCover {top : ℕ} {free : FreeLists} (ho : o ≤ top) (h : q ∈ free o) (x : ℕ) :
    cov (q, o) x ≤ freeCover top free x :=
  (cov_le_listCover h x).trans (listCover_le_freeCover free ho x)

/-- Blocks of two orders contribute separately to the cover. -/
theorem cov_add_cov_le_freeCover {top : ℕ} {free : FreeLists} {o o' q q' : ℕ}
    (ho : o ≤ top) (ho' : o' ≤ top) (hne : o ≠ o') (h : q ∈ free o) (h' : q' ∈ free o')
    (x : ℕ) : cov (q, o) x + cov (q', o') x ≤ freeCover top free x := by
  have hrem := freeCover_remove free ho h x
  have hmem : q' ∈ remove free o q o' := by
    simpa [remove, update_of_ne hne.symm] using h'
  have hle := cov_le_freeCover ho' hmem x
  omega

/-- A block held outside the lists together with the free blocks stays below
the limit and overlaps nothing. -/
def Fits (top limit : ℕ) (free : FreeLists) (b : ℕ × ℕ) : Prop :=
  ∀ x, freeCover top free x + cov b x ≤ if x < limit then 1 else 0

/-- The free blocks alone stay below the limit and do not overlap. -/
def Packed (top limit : ℕ) (free : FreeLists) : Prop :=
  ∀ x, freeCover top free x ≤ if x < limit then 1 else 0

variable {top limit : ℕ} {free : FreeLists} {o q : ℕ} {free' : FreeLists} {b : ℕ × ℕ}

theorem Fits.packed (h : Fits top limit free b) : Packed top limit free :=
  fun x => (Nat.le_add_right _ _).trans (h x)

theorem Fits.lt_limit {q o : ℕ} (h : Fits top limit free (q, o)) : q < limit := by
  have hq := h q
  rw [cov_start] at hq
  by_contra hlt
  rw [if_neg hlt] at hq
  omega

theorem Fits.end_le {q o : ℕ} (h : Fits top limit free (q, o)) : q + 2 ^ o ≤ limit := by
  have hpos : 0 < 2 ^ o := Nat.two_pow_pos o
  have hx := h (q + 2 ^ o - 1)
  have hcov : cov (q, o) (q + 2 ^ o - 1) = 1 :=
    cov_eq_one_iff.mpr ⟨by simp only; omega, by simp only; omega⟩
  rw [hcov] at hx
  by_contra hlt
  rw [if_neg (by omega)] at hx
  omega

theorem Fits.not_mem {q o o' : ℕ} (h : Fits top limit free (q, o)) (ho' : o' ≤ top) :
    q ∉ free o' := by
  intro hmem
  have hq := h q
  have hle := cov_le_freeCover ho' hmem q
  rw [cov_start] at hq hle
  split at hq <;> omega

theorem Packed.lt_limit (h : Packed top limit free) {q o : ℕ} (ho : o ≤ top)
    (hq : q ∈ free o) : q < limit := by
  have hx := h q
  have hle := cov_le_freeCover ho hq q
  rw [cov_start] at hle
  by_contra hlt
  rw [if_neg hlt] at hx
  omega

theorem Packed.nodup (h : Packed top limit free) {o : ℕ} (ho : o ≤ top) : (free o).Nodup := by
  rw [List.nodup_iff_count_le_one]
  intro q
  by_contra hcount
  have hq : q ∈ free o := List.count_pos_iff.mp (by omega)
  have hq' : q ∈ (free o).erase q := by
    apply List.count_pos_iff.mp
    rw [List.count_erase_self]
    omega
  have hrem := freeCover_remove free ho hq q
  have hmem : q ∈ remove free o q o := by simpa [remove] using hq'
  have hle := cov_le_freeCover ho hmem q
  have hx := h q
  rw [cov_start] at hrem hle
  split at hx <;> omega

theorem Packed.order_unique (h : Packed top limit free) {o o' q : ℕ} (ho : o ≤ top)
    (ho' : o' ≤ top) (hq : q ∈ free o) (hq' : q ∈ free o') : o = o' := by
  by_contra hne
  have hle := cov_add_cov_le_freeCover ho ho' hne hq hq' q
  have hx := h q
  rw [cov_start, cov_start] at hle
  split at hx <;> omega

theorem Packed.fits_remove (h : Packed top limit free) (ho : o ≤ top) (hq : q ∈ free o) :
    Fits top limit (remove free o q) (q, o) := by
  intro x
  rw [freeCover_remove free ho hq x]
  exact h x

/-- Every start on a list is a multiple of its block size. -/
def Aligned (top : ℕ) (free : FreeLists) : Prop := ∀ o ≤ top, ∀ q ∈ free o, 2 ^ o ∣ q

theorem Aligned.push (h : Aligned top free) (hq : 2 ^ o ∣ q) : Aligned top (push free o q) := by
  intro k hk p hp
  by_cases hko : k = o
  · subst hko
    rcases (by simpa [BuddySystem.push] using hp : p = q ∨ p ∈ free k) with rfl | hp
    · exact hq
    · exact h k hk p hp
  · exact h k hk p (by simpa [BuddySystem.push, update_of_ne hko] using hp)

theorem Aligned.remove (h : Aligned top free) : Aligned top (remove free o q) := by
  intro k hk p hp
  by_cases hko : k = o
  · subst hko
    exact h k hk p (List.mem_of_mem_erase (by simpa [BuddySystem.remove] using hp))
  · exact h k hk p (by simpa [BuddySystem.remove, update_of_ne hko] using hp)

/-! ## Allocation -/

/-- The first order from `o` on whose list is not empty, among `n` orders. -/
def findOrder (free : FreeLists) : ℕ → ℕ → ℕ
  | 0, o => o
  | n + 1, o => if free o = [] then findOrder free n (o + 1) else o

theorem findOrder_le (free : FreeLists) (n o : ℕ) : findOrder free n o ≤ o + n := by
  induction n generalizing o with
  | zero => simp [findOrder]
  | succ n ih =>
    unfold findOrder
    split
    · exact (ih (o + 1)).trans (by omega)
    · omega

theorem le_findOrder (free : FreeLists) (n o : ℕ) : o ≤ findOrder free n o := by
  induction n generalizing o with
  | zero => simp [findOrder]
  | succ n ih =>
    unfold findOrder
    split
    · exact (Nat.le_succ o).trans (ih (o + 1))
    · exact le_refl o

theorem findOrder_ne_nil {free : FreeLists} {n o : ℕ} (h : findOrder free n o < o + n) :
    free (findOrder free n o) ≠ [] := by
  induction n generalizing o with
  | zero => simp [findOrder] at h
  | succ n ih =>
    unfold findOrder at h ⊢
    split
    · next hnil =>
      rw [if_pos hnil] at h
      exact ih (by omega)
    · next hne => exact hne

theorem findOrder_eq_nil {free : FreeLists} {n o k : ℕ} (hk : o ≤ k)
    (h : k < findOrder free n o) : free k = [] := by
  induction n generalizing o with
  | zero =>
    simp only [findOrder] at h
    omega
  | succ n ih =>
    unfold findOrder at h
    split at h
    · next hnil =>
      rcases Nat.eq_or_lt_of_le hk with rfl | hlt
      · exact hnil
      · exact ih hlt h
    · omega

/-- Push the upper halves of a block until its lower part has order `o`. -/
def split (o q : ℕ) : ℕ → FreeLists → FreeLists
  | 0, free => free
  | n + 1, free => split o q n (push free (o + n) (q + 2 ^ (o + n)))

theorem freeCover_split {o q n : ℕ} (h : o + n ≤ top + 1) (free : FreeLists) (x : ℕ) :
    freeCover top (split o q n free) x + cov (q, o) x =
      freeCover top free x + cov (q, o + n) x := by
  induction n generalizing free with
  | zero => simp [split]
  | succ n ih =>
    simp only [split]
    rw [ih (by omega), freeCover_push free (by omega), show o + (n + 1) = o + n + 1 by omega,
      cov_split]
    omega

theorem Aligned.split (h : Aligned top free) {o q n : ℕ} (hq : 2 ^ (o + n) ∣ q) :
    Aligned top (split o q n free) := by
  induction n generalizing free with
  | zero => exact h
  | succ n ih =>
    have hq' : 2 ^ (o + n) ∣ q := (pow_dvd_pow 2 (by omega)).trans hq
    exact ih (h.push (Nat.dvd_add hq' (dvd_refl _))) hq'

/-- Take a block of the given order, if some list holds a sufficient one. -/
def alloc (top o : ℕ) (free : FreeLists) : Option (ℕ × FreeLists) :=
  let k := findOrder free (top + 1 - o) o
  match free k with
  | q :: _ => if k ≤ top then some (q, split o q (k - o) (remove free k q)) else none
  | [] => none

theorem alloc_eq_some (h : alloc top o free = some (q, free')) :
    ∃ k, o ≤ k ∧ k ≤ top ∧ q ∈ free k ∧ free' = split o q (k - o) (remove free k q) := by
  unfold alloc at h
  simp only at h
  split at h
  · next p rest hlist =>
    split at h
    · next hk =>
      obtain ⟨rfl, rfl⟩ := by simpa using h
      exact ⟨_, le_findOrder free _ o, hk, by simp [hlist], rfl⟩
    · exact absurd h (by simp)
  · exact absurd h (by simp)

theorem freeCover_alloc (h : alloc top o free = some (q, free')) (x : ℕ) :
    freeCover top free' x + cov (q, o) x = freeCover top free x := by
  obtain ⟨k, hok, hk, hq, rfl⟩ := alloc_eq_some h
  rw [freeCover_split (by omega), show o + (k - o) = k by omega, freeCover_remove free hk hq]

theorem split_ne_nil (o q n : ℕ) (free : FreeLists) : split o q (n + 1) free o ≠ [] := by
  induction n generalizing free with
  | zero => simp [split, push]
  | succ n ih => exact ih _

theorem alloc_eq_none {o k : ℕ} (h : alloc top o free = none) (ho : o ≤ top)
    (hok : o ≤ k) (hk : k ≤ top) : free k = [] := by
  have hle := findOrder_le free (top + 1 - o) o
  by_cases hlt : findOrder free (top + 1 - o) o ≤ top
  · obtain ⟨q, rest, hlist⟩ := List.exists_cons_of_ne_nil
      (findOrder_ne_nil (o := o) (show findOrder free (top + 1 - o) o < o + (top + 1 - o) by omega))
    simp only [alloc, hlist, if_pos hlt, reduceCtorEq] at h
  · exact findOrder_eq_nil (n := top + 1 - o) hok (by omega)

/-- A page has been taken. Another one is left exactly if there was a larger block
or a second page. -/
theorem alloc_page_left {q : ℕ} (h : alloc top 0 free = some (q, free')) :
    (∃ o ≤ top, free' o ≠ []) ↔
      (∃ o ≤ top, 1 ≤ o ∧ free o ≠ []) ∨ 1 < (free 0).length := by
  obtain ⟨k, -, hk, hq, rfl⟩ := alloc_eq_some h
  rw [Nat.sub_zero]
  cases k with
  | zero =>
    have herase : ((free 0).erase q).length = (free 0).length - 1 := List.length_erase_of_mem hq
    have hzero : (free 0).erase q ≠ [] ↔ 1 < (free 0).length := by
      rw [← List.length_pos_iff, herase]
      omega
    simp only [split, remove]
    constructor
    · rintro ⟨o, ho, hne⟩
      by_cases hzero' : o = 0
      · subst hzero'
        rw [update_self] at hne
        exact Or.inr (hzero.mp hne)
      · rw [update_of_ne hzero'] at hne
        exact Or.inl ⟨o, ho, by omega, hne⟩
    · rintro (⟨o, ho, hpos, hne⟩ | hlen)
      · refine ⟨o, ho, ?_⟩
        rwa [update_of_ne (by omega)]
      · refine ⟨0, Nat.zero_le _, ?_⟩
        rw [update_self]
        exact hzero.mpr hlen
  | succ k =>
    refine iff_of_true ⟨0, Nat.zero_le _, split_ne_nil _ _ _ _⟩ (Or.inl ⟨k + 1, hk, by omega, ?_⟩)
    exact List.ne_nil_of_mem hq

theorem Aligned.alloc (ha : Aligned top free) (h : alloc top o free = some (q, free')) :
    Aligned top free' ∧ 2 ^ o ∣ q := by
  obtain ⟨k, hok, hk, hq, rfl⟩ := alloc_eq_some h
  have hdvd : 2 ^ k ∣ q := ha k hk q hq
  exact ⟨(ha.remove).split (by rwa [show o + (k - o) = k by omega]),
    (pow_dvd_pow 2 hok).trans hdvd⟩

/-! ## Release -/

/-- Merge the block upwards through `n` orders while its sibling is free. -/
def release : ℕ → ℕ → ℕ → FreeLists → FreeLists
  | 0, q, o, free => push free o q
  | n + 1, q, o, free =>
    if q ^^^ 2 ^ o ∈ free o then
      release n (base q o) (o + 1) (remove free o (q ^^^ 2 ^ o))
    else push free o q

theorem freeCover_release {n q o : ℕ} (h : o + n = top) (hq : 2 ^ o ∣ q) (free : FreeLists)
    (x : ℕ) : freeCover top (release n q o free) x = freeCover top free x + cov (q, o) x := by
  induction n generalizing q o free with
  | zero => exact freeCover_push free (by omega) q x
  | succ n ih =>
    unfold release
    split
    · next hmem =>
      rw [ih (by omega) (dvd_base q o), cov_merge hq]
      have hrem := freeCover_remove free (show o ≤ top by omega) hmem x
      omega
    · exact freeCover_push free (by omega) q x

theorem Aligned.release (h : Aligned top free) {n q o : ℕ} (hq : 2 ^ o ∣ q) :
    Aligned top (release n q o free) := by
  induction n generalizing q o free with
  | zero => exact h.push hq
  | succ n ih =>
    unfold BuddySystem.release
    split
    · exact ih h.remove (dvd_base q o)
    · exact h.push hq

/-! ## The initial carve-up -/

/-- One block for every set bit of the limit below bit `n`, from the top down. -/
def carveLow (limit : ℕ) : ℕ → FreeLists → FreeLists
  | 0, free => free
  | n + 1, free =>
    if limit.testBit n then push (carveLow limit n free) n (base limit n)
    else carveLow limit n free

/-- The first `m` blocks of order `top`. -/
def carveTop (top : ℕ) : ℕ → FreeLists → FreeLists
  | 0, free => free
  | m + 1, free => push (carveTop top m free) top (m * 2 ^ top)

def carve (top limit : ℕ) : FreeLists :=
  carveTop top (limit / 2 ^ top) (carveLow limit top fun _ => [])

theorem base_add_bit (limit n : ℕ) :
    limit / 2 ^ n * 2 ^ n = base limit n + if limit.testBit n then 2 ^ n else 0 := by
  have hdiv : limit / 2 ^ (n + 1) = limit / 2 ^ n / 2 := by
    rw [Nat.div_div_eq_div_mul, pow_succ]
  have hpow : base limit n = limit / 2 ^ n / 2 * 2 * 2 ^ n := by
    rw [base, hdiv, pow_succ]
    ring
  rw [hpow, Nat.testBit_eq_decide_div_mod_eq]
  rcases Nat.mod_two_eq_zero_or_one (limit / 2 ^ n) with h | h
  · have heven : limit / 2 ^ n / 2 * 2 = limit / 2 ^ n := by omega
    simp [h, heven]
  · have hodd : limit / 2 ^ n = limit / 2 ^ n / 2 * 2 + 1 := by omega
    have hmul : limit / 2 ^ n * 2 ^ n = (limit / 2 ^ n / 2 * 2 + 1) * 2 ^ n := by rw [← hodd]
    simp only [h, decide_true, if_true]
    rw [hmul]
    ring

theorem freeCover_carveLow {limit n : ℕ} (hn : n ≤ top + 1) (x : ℕ) :
    freeCover top (carveLow limit n fun _ => []) x =
      if limit / 2 ^ n * 2 ^ n ≤ x ∧ x < limit then 1 else 0 := by
  induction n with
  | zero =>
    have hempty : freeCover top (fun _ => []) x = 0 := by simp [freeCover, listCover]
    rw [carveLow, hempty, if_neg]
    simp only [pow_zero, Nat.div_one, mul_one]
    omega
  | succ n ih =>
    have hbit := base_add_bit limit n
    have hle : limit / 2 ^ n * 2 ^ n ≤ limit := Nat.div_mul_le_self limit (2 ^ n)
    have hpos : 0 < 2 ^ n := Nat.two_pow_pos n
    have hbase : limit / 2 ^ (n + 1) * 2 ^ (n + 1) = base limit n := rfl
    rw [hbase]
    unfold carveLow
    split
    · next h =>
      rw [if_pos h] at hbit
      rw [freeCover_push _ (by omega), ih (by omega), cov]
      simp only
      split_ifs <;> omega
    · next h =>
      rw [if_neg h] at hbit
      rw [ih (by omega)]
      simp [hbit]

theorem freeCover_carveTop (free : FreeLists) (m x : ℕ) :
    freeCover top (carveTop top m free) x =
      freeCover top free x + if x < m * 2 ^ top then 1 else 0 := by
  induction m with
  | zero => simp [carveTop]
  | succ m ih =>
    have hpos : 0 < 2 ^ top := Nat.two_pow_pos top
    rw [carveTop, freeCover_push _ (le_refl top), ih, cov, Nat.add_mul, one_mul]
    simp only
    split_ifs <;> omega

theorem freeCover_carve (limit x : ℕ) :
    freeCover top (carve top limit) x = if x < limit then 1 else 0 := by
  have hle : limit / 2 ^ top * 2 ^ top ≤ limit := Nat.div_mul_le_self limit (2 ^ top)
  rw [carve, freeCover_carveTop, freeCover_carveLow (Nat.le_succ top)]
  split_ifs <;> omega

theorem Aligned.carve (limit : ℕ) : Aligned top (carve top limit) := by
  have hlow : ∀ n, Aligned top (carveLow limit n fun _ => []) := by
    intro n
    induction n with
    | zero =>
      intro o _ q hq
      simp [carveLow] at hq
    | succ n ih =>
      unfold carveLow
      split
      · exact ih.push ((pow_dvd_pow 2 (Nat.le_succ n)).trans (dvd_base limit n))
      · exact ih
  have htop : ∀ m, Aligned top (carveTop top m (carveLow limit top fun _ => [])) := by
    intro m
    induction m with
    | zero => exact hlow top
    | succ m ih => exact ih.push (Dvd.intro_left m rfl)
  exact htop _

/-! ## Free and live blocks together -/

/-- Free lists and live blocks are aligned and cover every number below the
limit exactly once. -/
structure Partition (top limit : ℕ) (free : FreeLists) (live : List (ℕ × ℕ)) : Prop where
  aligned : Aligned top free
  live_order : ∀ b ∈ live, b.2 ≤ top
  live_aligned : ∀ b ∈ live, 2 ^ b.2 ∣ b.1
  cover : ∀ x, freeCover top free x + liveCover live x = if x < limit then 1 else 0

theorem Partition.carve (top limit : ℕ) : Partition top limit (carve top limit) [] where
  aligned := Aligned.carve limit
  live_order := by simp
  live_aligned := by simp
  cover x := by rw [freeCover_carve]; rfl

variable {live : List (ℕ × ℕ)}

theorem Partition.packed (h : Partition top limit free live) : Packed top limit free :=
  fun x => (Nat.le_add_right _ _).trans (h.cover x).le

theorem liveCover_cons (b : ℕ × ℕ) (live : List (ℕ × ℕ)) (x : ℕ) :
    liveCover (b :: live) x = cov b x + liveCover live x := by
  simp [liveCover]

theorem liveCover_erase (h : b ∈ live) (x : ℕ) :
    cov b x + liveCover (live.erase b) x = liveCover live x := by
  have hperm := ((List.perm_cons_erase h).map fun b => cov b x).sum_eq
  simpa [liveCover] using hperm.symm

theorem Partition.fits_of_mem (h : Partition top limit free live) (hb : b ∈ live) :
    Fits top limit free b := by
  intro x
  rw [← h.cover x]
  have herase := liveCover_erase hb x
  omega

theorem Partition.alloc (h : Partition top limit free live) (ho : o ≤ top)
    (halloc : BuddySystem.alloc top o free = some (q, free')) :
    Partition top limit free' ((q, o) :: live) := by
  obtain ⟨haligned, hq⟩ := h.aligned.alloc halloc
  refine ⟨haligned, ?_, ?_, ?_⟩
  · intro b hb
    rcases List.mem_cons.mp hb with rfl | hb
    · exact ho
    · exact h.live_order b hb
  · intro b hb
    rcases List.mem_cons.mp hb with rfl | hb
    · exact hq
    · exact h.live_aligned b hb
  · intro x
    rw [liveCover_cons, ← h.cover x, ← freeCover_alloc halloc x]
    omega

theorem Partition.release (h : Partition top limit free live) (hb : b ∈ live) :
    Partition top limit (BuddySystem.release (top - b.2) b.1 b.2 free) (live.erase b) := by
  have ho := h.live_order b hb
  have hdvd := h.live_aligned b hb
  refine ⟨h.aligned.release hdvd, ?_, ?_, ?_⟩
  · intro c hc
    exact h.live_order c (List.mem_of_mem_erase hc)
  · intro c hc
    exact h.live_aligned c (List.mem_of_mem_erase hc)
  · intro x
    rw [freeCover_release (by omega) hdvd, ← h.cover x, ← liveCover_erase hb x, add_assoc]

/-- What a call can do to the free lists and the live blocks. -/
inductive Move (top : ℕ) (free : FreeLists) (live : List (ℕ × ℕ)) :
    FreeLists → List (ℕ × ℕ) → Prop
  | same : Move top free live free live
  | alloc {o q : ℕ} {free' : FreeLists} (ho : o ≤ top)
      (halloc : BuddySystem.alloc top o free = some (q, free')) :
      Move top free live free' ((q, o) :: live)
  | release {b : ℕ × ℕ} (hb : b ∈ live) :
      Move top free live (BuddySystem.release (top - b.2) b.1 b.2 free) (live.erase b)

theorem Partition.move {live' : List (ℕ × ℕ)} (h : Partition top limit free live)
    (hmove : Move top free live free' live') : Partition top limit free' live' := by
  cases hmove with
  | same => exact h
  | alloc ho halloc => exact h.alloc ho halloc
  | release hb => exact h.release hb

/-! ## Counting -/

/-- The numbers that the live blocks cover together. -/
def held (live : List (ℕ × ℕ)) : ℕ := (live.map fun b => 2 ^ b.2).sum

theorem sum_cov {q o : ℕ} (h : q + 2 ^ o ≤ limit) :
    ∑ x ∈ Finset.range limit, cov (q, o) x = 2 ^ o := by
  have hset : (Finset.range limit).filter (fun x => q ≤ x ∧ x < q + 2 ^ o) =
      Finset.Ico q (q + 2 ^ o) := by
    ext x
    simp only [Finset.mem_filter, Finset.mem_range, Finset.mem_Ico]
    omega
  simp only [cov, Finset.sum_boole, hset, Nat.card_Ico, Nat.add_sub_cancel_left, Nat.cast_id]

theorem sum_liveCover (h : ∀ b ∈ live, b.1 + 2 ^ b.2 ≤ limit) :
    ∑ x ∈ Finset.range limit, liveCover live x = held live := by
  induction live with
  | nil => simp [liveCover, held]
  | cons b rest ih =>
    simp only [liveCover_cons, Finset.sum_add_distrib]
    rw [sum_cov (h b List.mem_cons_self), ih fun c hc => h c (List.mem_cons_of_mem _ hc)]
    simp [held]

/-- Free and live blocks cover everything. -/
theorem Partition.total (h : Partition top limit free live) :
    ∑ x ∈ Finset.range limit, freeCover top free x + held live = limit := by
  rw [← sum_liveCover fun b hb => (h.fits_of_mem hb).end_le, ← Finset.sum_add_distrib]
  have hone : ∀ x ∈ Finset.range limit, freeCover top free x + liveCover live x = 1 := by
    intro x hx
    rw [h.cover x, if_pos (Finset.mem_range.mp hx)]
  rw [Finset.sum_congr rfl hone]
  simp

/-- A block is free exactly if the live blocks do not cover everything. -/
theorem Partition.exists_free_iff (h : Partition top limit free live) :
    (∃ o ≤ top, free o ≠ []) ↔ held live < limit := by
  have hpos : held live < limit ↔ ∃ x ∈ Finset.range limit, freeCover top free x ≠ 0 := by
    have htotal := h.total
    rw [← not_iff_not, not_lt]
    push Not
    rw [← Finset.sum_eq_zero_iff]
    omega
  rw [hpos]
  constructor
  · rintro ⟨o, ho, hne⟩
    obtain ⟨q, rest, hlist⟩ := List.exists_cons_of_ne_nil hne
    have hq : q ∈ free o := by simp [hlist]
    have hcov := cov_le_freeCover ho hq q
    rw [cov_start] at hcov
    refine ⟨q, ?_, by omega⟩
    by_contra hlimit
    have hzero := h.packed q
    rw [if_neg (by simpa using hlimit)] at hzero
    omega
  · rintro ⟨x, -, hx⟩
    obtain ⟨o, ho, hne⟩ := Finset.exists_ne_zero_of_sum_ne_zero hx
    refine ⟨o, by simpa [Nat.lt_succ_iff] using ho, fun hnil => hne ?_⟩
    simp [listCover, hnil]

/-! ## The blocks as one list -/

/-- All free blocks, order by order. -/
def freeBlocks (top : ℕ) (free : FreeLists) : List (ℕ × ℕ) :=
  (List.range (top + 1)).flatMap fun o => (free o).map fun q => (q, o)

theorem mem_freeBlocks : b ∈ freeBlocks top free ↔ b.2 ≤ top ∧ b.1 ∈ free b.2 := by
  obtain ⟨q, o⟩ := b
  simp only [freeBlocks, List.mem_flatMap, List.mem_range, List.mem_map, Prod.mk.injEq]
  constructor
  · rintro ⟨o', ho', q', hq', rfl, rfl⟩
    exact ⟨by omega, hq'⟩
  · rintro ⟨ho, hq⟩
    exact ⟨o, by omega, q, hq, rfl, rfl⟩

theorem liveCover_append (bs cs : List (ℕ × ℕ)) (x : ℕ) :
    liveCover (bs ++ cs) x = liveCover bs x + liveCover cs x := by
  simp [liveCover]

theorem liveCover_freeBlocks (top : ℕ) (free : FreeLists) (x : ℕ) :
    liveCover (freeBlocks top free) x = freeCover top free x := by
  unfold freeBlocks freeCover
  generalize top + 1 = n
  induction n with
  | zero => simp [liveCover]
  | succ n ih =>
    have hone : liveCover ((free n).map fun q => (q, n)) x = listCover (free n) n x := by
      simp [liveCover, listCover, Function.comp_def]
    rw [List.range_succ, List.flatMap_append, liveCover_append, ih, Finset.sum_range_succ]
    simp [hone]

/-- No number is in both blocks. -/
def Disjoint (b c : ℕ × ℕ) : Prop :=
  ∀ x, ¬ ((b.1 ≤ x ∧ x < b.1 + 2 ^ b.2) ∧ (c.1 ≤ x ∧ x < c.1 + 2 ^ c.2))

theorem pairwise_disjoint_of_cover {bs : List (ℕ × ℕ)} (h : ∀ x, liveCover bs x ≤ 1) :
    bs.Pairwise Disjoint := by
  induction bs with
  | nil => exact List.Pairwise.nil
  | cons b bs ih =>
    refine List.Pairwise.cons ?_ (ih fun x => ?_)
    · rintro c hc x ⟨hb, hcx⟩
      have hx := h x
      have herase := liveCover_erase hc x
      rw [liveCover_cons, cov_eq_one_iff.mpr hb] at hx
      rw [cov_eq_one_iff.mpr hcx] at herase
      omega
    · have hx := h x
      rw [liveCover_cons] at hx
      omega

theorem exists_of_liveCover_pos {bs : List (ℕ × ℕ)} {x : ℕ} (h : 0 < liveCover bs x) :
    ∃ b ∈ bs, b.1 ≤ x ∧ x < b.1 + 2 ^ b.2 := by
  induction bs with
  | nil => simp [liveCover] at h
  | cons b bs ih =>
    rw [liveCover_cons] at h
    by_cases hb : cov b x = 1
    · exact ⟨b, by simp, cov_eq_one_iff.mp hb⟩
    · have hle := cov_le_one b x
      obtain ⟨c, hc, hx⟩ := ih (by omega)
      exact ⟨c, by simp [hc], hx⟩

theorem Partition.cover_blocks (h : Partition top limit free live) (x : ℕ) :
    liveCover (freeBlocks top free ++ live) x = if x < limit then 1 else 0 := by
  rw [liveCover_append, liveCover_freeBlocks, h.cover]

theorem Partition.pairwise_disjoint (h : Partition top limit free live) :
    (freeBlocks top free ++ live).Pairwise Disjoint := by
  apply pairwise_disjoint_of_cover
  intro x
  rw [h.cover_blocks]
  split <;> omega

theorem Partition.exists_block (h : Partition top limit free live) {x : ℕ} (hx : x < limit) :
    ∃ b ∈ freeBlocks top free ++ live, b.1 ≤ x ∧ x < b.1 + 2 ^ b.2 := by
  apply exists_of_liveCover_pos
  rw [h.cover_blocks, if_pos hx]
  exact Nat.one_pos

theorem Partition.block_aligned (h : Partition top limit free live)
    (hb : b ∈ freeBlocks top free ++ live) : 2 ^ b.2 ∣ b.1 ∧ b.1 + 2 ^ b.2 ≤ limit := by
  rcases List.mem_append.mp hb with hb | hb
  · obtain ⟨ho, hq⟩ := mem_freeBlocks.mp hb
    exact ⟨h.aligned b.2 ho b.1 hq, (h.packed.fits_remove ho hq).end_le⟩
  · exact ⟨h.live_aligned b hb, (h.fits_of_mem hb).end_le⟩

end BuddySystem
