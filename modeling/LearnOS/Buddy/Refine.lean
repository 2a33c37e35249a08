import LearnOS.Buddy.Model
import LearnOS.Lib.BuddySystem

/-!
# The linked lists and the bitmap represent a buddy system

`Rep` relates the memory of `kalloc.c` to the abstract free lists: every list
of the abstract state is threaded through the memory, and a bitmap bit is clear
exactly for the blocks on a list. Each function of `kalloc.c` is shown to
succeed and to perform the abstract operation.
-/

namespace LearnOS

open LinkedList DyadicBlock BuddySystem Kres

variable {L : Layout} {s : Buddy} {free : FreeLists} {q o : ℕ}

/-! ## Addresses -/

namespace Layout

variable (L : Layout)

theorem kernelEnd_le_start : L.kernelEnd ≤ L.start := by
  simp only [start, pgroundup, PGSIZE]
  omega

theorem start_le : L.start ≤ PHYSTOP := by
  have h := L.end_le
  simp only [start, pgroundup, PGSIZE]
  rw [PHYSTOP_eq] at h ⊢
  omega

theorem pnumMax_le : L.pnumMax ≤ 2 ^ 15 := by
  have h := L.base_le
  have hs := L.kernelEnd_le_start
  simp only [pnumMax, PGSIZE]
  rw [KERNBASE_eq] at h
  rw [PHYSTOP_eq]
  omega

theorem pa_lt {q : ℕ} (hq : q < L.pnumMax) : L.pa q < PHYSTOP := by
  have hs := L.start_le
  simp only [pnumMax, pa, PGSIZE] at hq ⊢
  rw [PHYSTOP_eq] at hq hs ⊢
  omega

theorem start_le_pa (q : ℕ) : L.start ≤ L.pa q := Nat.le_add_right _ _

theorem pa_injective : Function.Injective L.pa := by
  intro p q h
  simp only [pa, PGSIZE] at h
  omega

theorem sentinel_injective : Function.Injective L.sentinel := by
  intro p q h
  simp only [sentinel, sizeofRun] at h
  omega

theorem sentinel_ne_null (o : ℕ) : L.sentinel o ≠ NULL := by
  have h := L.freelistPage_pos
  simp only [sentinel, NULL]
  omega

theorem sentinel_lt_start {o : ℕ} (ho : o ≤ MAX_ORDER) : L.sentinel o < L.start := by
  have h := L.freelistPage_le
  have hs := L.kernelEnd_le_start
  simp only [sentinel, sizeofRun, MAX_ORDER] at h ho ⊢
  omega

theorem pa_ne_sentinel {o : ℕ} (ho : o ≤ MAX_ORDER) (q : ℕ) : L.pa q ≠ L.sentinel o := by
  have h := L.sentinel_lt_start ho
  have hq := L.start_le_pa q
  omega

theorem pa_ne_null (q : ℕ) : L.pa q ≠ NULL := by
  have h := L.base_le
  have hs := L.kernelEnd_le_start
  have hq := L.start_le_pa q
  rw [KERNBASE_eq] at h
  simp only [NULL]
  omega

theorem pa_add (q n : ℕ) : L.pa (q + n) = L.pa q + n * PGSIZE := by
  simp only [pa, PGSIZE]
  omega

end Layout

theorem pnumToPa_eq {q : ℕ} (hq : q < L.pnumMax) : pnumToPa L q = .ok (L.pa q) := by
  simp [pnumToPa, Nat.not_le.mpr hq, Layout.pa]

theorem paToPnum_pa {q : ℕ} (hq : q < L.pnumMax) : paToPnum L (L.pa q) = .ok q := by
  have hlt := L.pa_lt hq
  have hge := L.start_le_pa q
  have hdiv : (L.pa q - L.start) / PGSIZE = q := by simp [Layout.pa, PGSIZE]
  simp [paToPnum, Nat.not_le.mpr hlt, Nat.not_lt.mpr hge, hdiv]

/-! ## Positions in the bitmap -/

theorem and_low_eq_zero (h : 2 ^ o ∣ q) : q &&& (2 ^ o - 1) = 0 := by
  rw [Nat.and_two_pow_sub_one_eq_mod]
  exact Nat.mod_eq_zero_of_dvd h

theorem buddySetbitmap_eq (h : 2 ^ o ∣ q) (flag : Bool) (s : Buddy) :
    buddySetbitmap q o flag s = .ok { s with
      bitmapPage := Bitmap.set s.bitmapPage (buddyBitmapOffset.getD o 0) (q >>> o) flag } := by
  unfold buddySetbitmap
  rw [if_neg (not_not.mpr (and_low_eq_zero h))]

theorem buddyGetbitmap_eq (h : 2 ^ o ∣ q) (s : Buddy) :
    buddyGetbitmap q o s =
      .ok (Bitmap.get s.bitmapPage (buddyBitmapOffset.getD o 0) (q >>> o)) := by
  unfold buddyGetbitmap
  rw [if_neg (not_not.mpr (and_low_eq_zero h))]

theorem offset_add_le {o o' : ℕ} (h : o < o') (ho' : o' ≤ MAX_ORDER) :
    buddyBitmapOffset.getD o 0 + 2 ^ (12 - o) ≤ buddyBitmapOffset.getD o' 0 := by
  have hall : ∀ o' < 12, ∀ o < o',
      buddyBitmapOffset.getD o 0 + 2 ^ (12 - o) ≤ buddyBitmapOffset.getD o' 0 := by decide
  exact hall o' (by simp only [MAX_ORDER] at ho'; omega) o h

theorem bit_div_lt (hq : q < 2 ^ 15) (ho : o ≤ MAX_ORDER) : (q >>> o) / 8 < 2 ^ (12 - o) := by
  have hpow : 2 ^ o * 8 * 2 ^ (12 - o) = 2 ^ 15 := by
    rw [mul_right_comm, ← pow_add]
    simp only [MAX_ORDER] at ho
    rw [show o + (12 - o) = 12 by omega]
    norm_num
  rw [Nat.shiftRight_eq_div_pow, Nat.div_div_eq_div_mul]
  exact Nat.div_lt_of_lt_mul (hpow ▸ hq)

/-- Two different aligned blocks have different bits. -/
theorem bit_position_ne {q o q' o' : ℕ} (hq : q < 2 ^ 15) (hq' : q' < 2 ^ 15)
    (ho : o ≤ MAX_ORDER) (ho' : o' ≤ MAX_ORDER) (hdvd : 2 ^ o ∣ q) (hdvd' : 2 ^ o' ∣ q')
    (hne : (q, o) ≠ (q', o')) :
    buddyBitmapOffset.getD o 0 + (q >>> o) / 8 ≠ buddyBitmapOffset.getD o' 0 + (q' >>> o') / 8 ∨
      (q >>> o) % 8 ≠ (q' >>> o') % 8 := by
  have hlt := bit_div_lt hq ho
  have hlt' := bit_div_lt hq' ho'
  rcases lt_trichotomy o o' with h | h | h
  · have hoff := offset_add_le h ho'
    exact Or.inl (ne_of_lt ((Nat.add_lt_add_left hlt _).trans_le (hoff.trans
      (Nat.le_add_right _ _))))
  · subst h
    have hqq : q >>> o ≠ q' >>> o := by
      intro heq
      rw [Nat.shiftRight_eq_div_pow, Nat.shiftRight_eq_div_pow] at heq
      have hmul := congrArg (· * 2 ^ o) heq
      simp only [Nat.div_mul_cancel hdvd, Nat.div_mul_cancel hdvd'] at hmul
      exact hne (by rw [hmul])
    by_contra hsame
    push Not at hsame
    apply hqq
    have hdiv : (q >>> o) / 8 = (q' >>> o) / 8 := Nat.add_left_cancel hsame.1
    rw [← Nat.div_add_mod (q >>> o) 8, ← Nat.div_add_mod (q' >>> o) 8, hdiv, hsame.2]
  · have hoff := offset_add_le h ho
    exact Or.inl (ne_of_gt ((Nat.add_lt_add_left hlt' _).trans_le (hoff.trans
      (Nat.le_add_right _ _))))

/-! ## The representation relation -/

/-- The memory holds the abstract free lists. -/
structure Rep (L : Layout) (s : Buddy) (free : FreeLists) : Prop where
  dll : ∀ o ≤ MAX_ORDER, Dll NULL s.run (L.sentinel o) ((free o).map L.pa)
  bit : ∀ o ≤ MAX_ORDER, ∀ q < 2 ^ 15, 2 ^ o ∣ q →
    (Bitmap.get s.bitmapPage (buddyBitmapOffset.getD o 0) (q >>> o) = 0#8 ↔ q ∈ free o)

theorem sentinel_not_mem {o o' : ℕ} (ho : o ≤ MAX_ORDER) (l : List ℕ) (hne : o ≠ o') :
    L.sentinel o ∉ L.sentinel o' :: l.map L.pa := by
  intro h
  rcases List.mem_cons.mp h with h | h
  · exact hne (L.sentinel_injective h)
  · obtain ⟨q, -, hq⟩ := List.mem_map.mp h
    exact L.pa_ne_sentinel ho q hq

theorem sentinel_not_mem_map {o : ℕ} (ho : o ≤ MAX_ORDER) (l : List ℕ) :
    L.sentinel o ∉ l.map L.pa := by
  intro h
  obtain ⟨q, -, hq⟩ := List.mem_map.mp h
  exact L.pa_ne_sentinel ho q hq

theorem pa_not_mem {o q : ℕ} (ho : o ≤ MAX_ORDER) {l : List ℕ} (hq : q ∉ l) :
    L.pa q ∉ L.sentinel o :: l.map L.pa := by
  intro h
  rcases List.mem_cons.mp h with h | h
  · exact L.pa_ne_sentinel ho q h
  · exact hq ((List.mem_map_of_injective L.pa_injective).mp h)

theorem nodup_nodes (hp : Packed MAX_ORDER L.pnumMax free) {o : ℕ} (ho : o ≤ MAX_ORDER) :
    (L.sentinel o :: (free o).map L.pa).Nodup := by
  rw [List.nodup_cons]
  exact ⟨sentinel_not_mem_map ho _, (hp.nodup ho).map L.pa_injective⟩

theorem next_sentinel_not_mem (hrep : Rep L s free) (hp : Packed MAX_ORDER L.pnumMax free)
    {o o' : ℕ} (ho : o ≤ MAX_ORDER) (ho' : o' ≤ MAX_ORDER) (hne : o' ≠ o) :
    s.run.next (L.sentinel o) ∉ (free o').map L.pa := by
  rw [Dll.next_eq_head (hrep.dll o ho)]
  intro h
  cases hl : free o with
  | nil =>
    rw [hl] at h
    exact Dll.ne_null (hrep.dll o' ho') _ h rfl
  | cons q rest =>
    rw [hl] at h
    have hq' : q ∈ free o' := (List.mem_map_of_injective L.pa_injective).mp h
    have hq : q ∈ free o := by simp [hl]
    exact hne (hp.order_unique ho' ho hq' hq)

theorem push_self (free : FreeLists) (o q : ℕ) : push free o q o = q :: free o := by
  simp [push]

theorem push_of_ne (free : FreeLists) {o o' : ℕ} (q : ℕ) (h : o' ≠ o) :
    push free o q o' = free o' := by
  simp [push, h]

theorem remove_self (free : FreeLists) (o q : ℕ) : remove free o q o = (free o).erase q := by
  simp [remove]

theorem remove_of_ne (free : FreeLists) {o o' : ℕ} (q : ℕ) (h : o' ≠ o) :
    remove free o q o' = free o' := by
  simp [remove, h]

/-- Writing the bit of one block keeps the meaning of all other bits. -/
theorem bit_set_iff {o q o' q' : ℕ} (m : ℕ → BitVec 8) (flag : Bool) (ho : o ≤ MAX_ORDER)
    (ho' : o' ≤ MAX_ORDER) (hq : q < 2 ^ 15) (hq' : q' < 2 ^ 15) (hdvd : 2 ^ o ∣ q)
    (hdvd' : 2 ^ o' ∣ q') :
    Bitmap.get (Bitmap.set m (buddyBitmapOffset.getD o 0) (q >>> o) flag)
        (buddyBitmapOffset.getD o' 0) (q' >>> o') = 0#8 ↔
      if (q, o) = (q', o') then flag = false
      else Bitmap.get m (buddyBitmapOffset.getD o' 0) (q' >>> o') = 0#8 := by
  by_cases h : (q, o) = (q', o')
  · obtain ⟨rfl, rfl⟩ := Prod.mk.inj h
    rw [if_pos rfl]
    exact Bitmap.get_set_same _ _ _ _
  · rw [if_neg h]
    rw [Bitmap.get_set_of_ne _ _ (bit_position_ne hq hq' ho ho' hdvd hdvd' h)]

theorem bit_byte_lt (hq : q < 2 ^ 15) (ho : o ≤ MAX_ORDER) :
    buddyBitmapOffset.getD o 0 + (q >>> o) / 8 < 2 * PGSIZE := by
  have hall : ∀ o < 12, buddyBitmapOffset.getD o 0 + 2 ^ (12 - o) ≤ 2 * PGSIZE := by decide
  have hfit := hall o (by simp only [MAX_ORDER] at ho; omega)
  calc
    buddyBitmapOffset.getD o 0 + (q >>> o) / 8
      < buddyBitmapOffset.getD o 0 + 2 ^ (12 - o) := Nat.add_lt_add_left (bit_div_lt hq ho) _
    _ ≤ 2 * PGSIZE := hfit

/-- Every aligned block of every order has a bit of its own inside `bitmap_page`: it
takes the value that is written to it, and no write to another block changes it. -/
theorem bitmap_bits_apart {q o q' o' : ℕ} (f : BitVec 32) (s : Buddy) (hq : q < 32768)
    (hq' : q' < 32768) (ho : o ≤ MAX_ORDER) (ho' : o' ≤ MAX_ORDER) (hdvd : 2 ^ o ∣ q)
    (hdvd' : 2 ^ o' ∣ q') :
    buddyBitmapOffset.getD o 0 + (q >>> o) / 8 < 2 * PGSIZE ∧
      ∃ s', buddySetbitmap q o (f != 0) s = .ok s' ∧
        (∃ bit, buddyGetbitmap q o s' = .ok bit ∧ (bit ≠ 0 ↔ f ≠ 0)) ∧
        ((q', o') ≠ (q, o) → buddyGetbitmap q' o' s' = buddyGetbitmap q' o' s) := by
  refine ⟨bit_byte_lt hq ho, _, buddySetbitmap_eq hdvd _ s, ⟨_, buddyGetbitmap_eq hdvd _, ?_⟩, ?_⟩
  · refine (not_congr (Bitmap.get_set_same s.bitmapPage _ _ _)).trans ?_
    simp
  · intro hne
    have hpos := bit_position_ne hq hq' ho ho' hdvd hdvd' hne.symm
    rw [buddyGetbitmap_eq hdvd', buddyGetbitmap_eq hdvd', Bitmap.get_set_of_ne _ _ hpos]

/-- The last byte of order 3 and the first of order 4. -/
theorem bitmap_bits_apart_high :
    buddyGetbitmap 0 4 ⟨⟨fun _ => 0, fun _ => 0⟩, fun _ => 0⟩ = .ok 0 ∧
      ∃ s', buddySetbitmap 32760 3 true ⟨⟨fun _ => 0, fun _ => 0⟩, fun _ => 0⟩ = .ok s' ∧
        (∃ bit, buddyGetbitmap 32760 3 s' = .ok bit ∧ bit ≠ 0) ∧
        buddyGetbitmap 0 4 s' =
          buddyGetbitmap 0 4 ⟨⟨fun _ => 0, fun _ => 0⟩, fun _ => 0⟩ := by
  obtain ⟨-, s', hset, ⟨bit, hbit, hiff⟩, hsame⟩ := @bitmap_bits_apart 32760 3 0 4 1
    ⟨⟨fun _ => 0, fun _ => 0⟩, fun _ => 0⟩ (by decide) (by decide) (by decide) (by decide)
    (by decide) (by decide)
  exact ⟨rfl, s', hset, ⟨bit, hbit, hiff.mpr (by decide)⟩, hsame (by decide)⟩

/-! ## Insertion -/

/-- `buddy_insertfirst` succeeds and pushes the block. -/
theorem buddyInsertfirst_refines (hrep : Rep L s free) (ho : o ≤ MAX_ORDER)
    (hfit : Fits MAX_ORDER L.pnumMax free (q, o)) (hdvd : 2 ^ o ∣ q) :
    ∃ s', buddyInsertfirst L (L.pa q) o s = .ok s' ∧ Rep L s' (push free o q) := by
  have hq : q < L.pnumMax := hfit.lt_limit
  have hq15 : q < 2 ^ 15 := lt_of_lt_of_le hq L.pnumMax_le
  have hp := hfit.packed
  have hne : L.pa q ≠ L.sentinel o := L.pa_ne_sentinel ho q
  refine ⟨⟨s.run.insertFirst NULL (L.sentinel o) (L.pa q),
    Bitmap.set s.bitmapPage (buddyBitmapOffset.getD o 0) (q >>> o) false⟩, ?_, ?_, ?_⟩
  · simp only [buddyInsertfirst, paToPnum_pa hq, buddySetbitmap_eq hdvd, ok_bind]
  · intro o' ho'
    by_cases h : o' = o
    · subst h
      rw [push_self, List.map_cons]
      exact Dll.insertFirst (hrep.dll o' ho') (nodup_nodes hp ho')
        (pa_not_mem ho' (hfit.not_mem ho')) (L.pa_ne_null q)
    · rw [push_of_ne free q h]
      have hfirst : L.pa q ≠ s.run.next (L.sentinel o) := by
        rw [Dll.next_eq_head (hrep.dll o ho)]
        cases hl : free o with
        | nil => exact L.pa_ne_null q
        | cons p rest =>
          intro heq
          have hqp : q = p := L.pa_injective heq
          exact hfit.not_mem ho (by simp [hl, hqp])
      exact Dll.insertFirst_frame (hrep.dll o' ho') hne hfirst
        (pa_not_mem ho' (hfit.not_mem ho')) (sentinel_not_mem ho _ (Ne.symm h))
        (next_sentinel_not_mem hrep hp ho ho' h)
  · intro o' ho' q' hq' hdvd'
    simp only
    rw [bit_set_iff _ _ ho ho' hq15 hq' hdvd hdvd']
    by_cases h : (q, o) = (q', o')
    · obtain ⟨rfl, rfl⟩ := Prod.mk.inj h
      simp [push_self]
    · rw [if_neg h, hrep.bit o' ho' q' hq' hdvd']
      by_cases hoo : o' = o
      · subst hoo
        have hqq : q' ≠ q := fun hqq => h (by rw [hqq])
        simp [push_self, hqq]
      · rw [push_of_ne free q hoo]

/-! ## Removal -/

theorem erase_split {l₁ l₂ : List ℕ} {q : ℕ} (h : (l₁ ++ q :: l₂).Nodup) :
    (l₁ ++ q :: l₂).erase q = l₁ ++ l₂ := by
  have hq : q ∉ l₁ := fun hmem => (List.nodup_append.mp h).2.2 q hmem q (by simp) rfl
  rw [List.erase_append_right _ hq, List.erase_cons_head]

/-- Unlinking a free block and setting its bit removes it from its list. -/
theorem rep_erase (hrep : Rep L s free) (hp : Packed MAX_ORDER L.pnumMax free) (ho : o ≤ MAX_ORDER)
    (hmem : q ∈ free o) (hdvd : 2 ^ o ∣ q) :
    s.run.prev (L.pa q) ≠ NULL ∧
      Rep L ⟨s.run.erase NULL (L.pa q),
        Bitmap.set s.bitmapPage (buddyBitmapOffset.getD o 0) (q >>> o) true⟩
        (remove free o q) := by
  have hq15 : q < 2 ^ 15 := lt_of_lt_of_le (hp.lt_limit ho hmem) L.pnumMax_le
  obtain ⟨l₁, l₂, hl⟩ := List.append_of_mem hmem
  have hd := hrep.dll o ho
  rw [hl, List.map_append, List.map_cons] at hd
  have hnd := nodup_nodes hp ho
  rw [hl, List.map_append, List.map_cons] at hnd
  obtain ⟨hprev, hnext, -⟩ := Dll.around hd
  have hself : L.pa q ≠ s.run.prev (L.pa q) := by
    intro h
    rw [← h] at hprev
    have hnd' : ((L.sentinel o :: l₁.map L.pa) ++ L.pa q :: l₂.map L.pa).Nodup := by
      simpa using hnd
    exact (List.nodup_append.mp hnd').2.2 _ hprev _ (by simp) rfl
  refine ⟨?_, ?_, ?_⟩
  · rcases List.mem_cons.mp hprev with h | h
    · rw [h]
      exact L.sentinel_ne_null o
    · obtain ⟨p, -, hpa⟩ := List.mem_map.mp h
      rw [← hpa]
      exact L.pa_ne_null p
  · intro o' ho'
    by_cases h : o' = o
    · subst h
      rw [remove_self, hl, erase_split (hl ▸ hp.nodup ho'), List.map_append]
      exact Dll.erase hd hnd
    · rw [remove_of_ne free q h]
      have hmem_of : ∀ p ∈ free o', p ∉ free o := fun p hp' hp'' =>
        h (hp.order_unique ho' ho hp' hp'')
      refine Dll.erase_frame (hrep.dll o' ho') hself ?_ ?_
      · rcases List.mem_cons.mp hprev with hs | hs
        · rw [hs]
          exact sentinel_not_mem ho _ (Ne.symm h)
        · obtain ⟨p, hpl, hpa⟩ := List.mem_map.mp hs
          rw [← hpa]
          exact pa_not_mem ho' fun hp' => hmem_of p hp' (by simp [hl, hpl])
      · rw [hnext]
        cases l₂ with
        | nil => exact fun hnull => Dll.ne_null (hrep.dll o' ho') _ hnull rfl
        | cons p l₂ =>
          intro hp'
          have hpo' : p ∈ free o' := (List.mem_map_of_injective L.pa_injective).mp hp'
          exact hmem_of p hpo' (by simp [hl])
  · intro o' ho' q' hq' hdvd'
    simp only
    rw [bit_set_iff _ _ ho ho' hq15 hq' hdvd hdvd']
    by_cases h : (q, o) = (q', o')
    · obtain ⟨rfl, rfl⟩ := Prod.mk.inj h
      simp [remove_self, (hp.nodup ho).not_mem_erase]
    · rw [if_neg h, hrep.bit o' ho' q' hq' hdvd']
      by_cases hoo : o' = o
      · subst hoo
        have hqq : q' ≠ q := fun hqq => h (by rw [hqq])
        rw [remove_self, List.mem_erase_of_ne hqq]
      · rw [remove_of_ne free q hoo]

/-- `buddy_erase` succeeds on a free block and removes it. -/
theorem buddyErase_refines (hrep : Rep L s free) (hp : Packed MAX_ORDER L.pnumMax free)
    (ho : o ≤ MAX_ORDER) (hmem : q ∈ free o) (hdvd : 2 ^ o ∣ q) :
    ∃ s', buddyErase L (L.pa q) o s = .ok s' ∧ Rep L s' (remove free o q) := by
  obtain ⟨hprev, hrep'⟩ := rep_erase hrep hp ho hmem hdvd
  refine ⟨_, ?_, hrep'⟩
  simp [buddyErase, hprev, paToPnum_pa (hp.lt_limit ho hmem), buddySetbitmap_eq hdvd]

/-- `buddy_erasefirst` succeeds on a nonempty list and removes its first block. -/
theorem buddyErasefirst_refines (hrep : Rep L s free) (hp : Packed MAX_ORDER L.pnumMax free)
    {rest : List ℕ} (ho : o ≤ MAX_ORDER) (hl : free o = q :: rest) (hdvd : 2 ^ o ∣ q) :
    ∃ s', buddyErasefirst L o s = .ok (L.pa q, s') ∧ Rep L s' (remove free o q) := by
  have hmem : q ∈ free o := by simp [hl]
  obtain ⟨-, hrep'⟩ := rep_erase hrep hp ho hmem hdvd
  have hd := hrep.dll o ho
  rw [hl, List.map_cons] at hd
  have hnext : s.run.next (L.sentinel o) = L.pa q := hd.1
  refine ⟨_, ?_, hrep'⟩
  simp [buddyErasefirst, hnext, L.pa_ne_null q,
    Links.eraseFirst_eq_erase hd (L.pa_ne_sentinel ho q), paToPnum_pa (hp.lt_limit ho hmem),
    buddySetbitmap_eq hdvd]

/-! ## The loops -/

theorem buddyGetfirst_eq_null_iff (hrep : Rep L s free) {o : ℕ} (ho : o ≤ MAX_ORDER) :
    buddyGetfirst L o s = NULL ↔ free o = [] := by
  rw [buddyGetfirst, Dll.next_eq_null_iff (hrep.dll o ho), List.map_eq_nil_iff]

theorem findFreeOrder_eq (hrep : Rep L s free) {n o : ℕ} (h : o + n = MAX_ORDER + 1) :
    findFreeOrder L s n o = findOrder free n o := by
  induction n generalizing o with
  | zero => rfl
  | succ n ih =>
    have hiff := buddyGetfirst_eq_null_iff hrep (show o ≤ MAX_ORDER by omega)
    simp only [findFreeOrder, findOrder, hiff]
    rw [ih (by omega)]

/-- The splitting loop succeeds and pushes the upper halves. -/
theorem splitBlock_refines (hrep : Rep L s free) {q o n : ℕ} (h : o + n ≤ MAX_ORDER)
    (hfit : Fits MAX_ORDER L.pnumMax free (q, o + n)) (hdvd : 2 ^ (o + n) ∣ q) :
    ∃ s', splitBlock L (L.pa q) o n s = .ok s' ∧ Rep L s' (split o q n free) := by
  induction n generalizing s free with
  | zero => exact ⟨s, rfl, hrep⟩
  | succ n ih =>
    have hdvd' : 2 ^ (o + n) ∣ q := (pow_dvd_pow 2 (by omega)).trans hdvd
    have hupper : Fits MAX_ORDER L.pnumMax free (q + 2 ^ (o + n), o + n) := by
      intro x
      have hx := hfit x
      rw [show o + (n + 1) = o + n + 1 by omega, cov_split] at hx
      omega
    have hlower : Fits MAX_ORDER L.pnumMax (push free (o + n) (q + 2 ^ (o + n))) (q, o + n) := by
      intro x
      have hx := hfit x
      rw [show o + (n + 1) = o + n + 1 by omega, cov_split] at hx
      rw [freeCover_push free (by omega)]
      omega
    obtain ⟨t, ht, hrept⟩ := buddyInsertfirst_refines hrep (by omega) hupper
      (Nat.dvd_add hdvd' (dvd_refl _))
    obtain ⟨s', hs', hrep'⟩ := ih hrept (by omega) hlower hdvd'
    refine ⟨s', ?_, hrep'⟩
    rw [Layout.pa_add] at ht
    simp only [splitBlock, ht, ok_bind, hs']

/-- The merging loop succeeds and releases the block. -/
theorem mergeBlock_refines (hrep : Rep L s free) (ha : Aligned MAX_ORDER free) {q o n : ℕ}
    (h : o + n = MAX_ORDER) (hfit : Fits MAX_ORDER L.pnumMax free (q, o)) (hdvd : 2 ^ o ∣ q) :
    ∃ s', mergeBlock L n q o s = .ok s' ∧ Rep L s' (release n q o free) := by
  induction n generalizing s free q o with
  | zero =>
    obtain ⟨s', hs', hrep'⟩ := buddyInsertfirst_refines hrep (by omega) hfit hdvd
    have ho : o = MAX_ORDER := h
    refine ⟨s', ?_, hrep'⟩
    simp only [mergeBlock, if_pos ho, pnumToPa_eq hfit.lt_limit, ok_bind, hs']
  | succ n ih =>
    have ho : o ≤ MAX_ORDER := by omega
    have hp := hfit.packed
    have hbdvd : 2 ^ o ∣ q ^^^ 2 ^ o := dvd_xor hdvd
    have hq64 : q < 2 ^ 64 := lt_of_lt_of_le hfit.lt_limit
      (L.pnumMax_le.trans (Nat.pow_le_pow_right (by decide) (by decide)))
    have hclear := and_clear_bit hdvd hq64 (show o < 64 by simp only [MAX_ORDER] at ho; omega)
    by_cases hmem : q ^^^ 2 ^ o ∈ free o
    · have hlt := hp.lt_limit ho hmem
      have hzero := (hrep.bit o ho _ (lt_of_lt_of_le hlt L.pnumMax_le) hbdvd).mpr hmem
      obtain ⟨t, ht, hrept⟩ := buddyErase_refines hrep hp ho hmem hbdvd
      have hfit' : Fits MAX_ORDER L.pnumMax (remove free o (q ^^^ 2 ^ o))
          (base q o, o + 1) := by
        intro x
        have hx := hfit x
        have hrem := freeCover_remove free ho hmem x
        rw [cov_merge hdvd]
        omega
      obtain ⟨s', hs', hrep'⟩ := ih hrept ha.remove (by omega) hfit' (dvd_base q o)
      refine ⟨s', ?_, ?_⟩
      · simp only [mergeBlock, if_pos hlt, buddyGetbitmap_eq hbdvd, ok_bind, hzero,
          if_true, pnumToPa_eq hlt, ht, hclear, hs']
      · simpa only [release, if_pos hmem] using hrep'
    · obtain ⟨s', hs', hrep'⟩ := buddyInsertfirst_refines hrep ho hfit hdvd
      refine ⟨s', ?_, ?_⟩
      · by_cases hlt : q ^^^ 2 ^ o < L.pnumMax
        · have hone := mt (hrep.bit o ho _ (lt_of_lt_of_le hlt L.pnumMax_le) hbdvd).mp hmem
          simp only [mergeBlock, if_pos hlt, buddyGetbitmap_eq hbdvd, ok_bind, hone,
            if_false, pnumToPa_eq hfit.lt_limit, hs']
        · have hone : ¬ (1#8 = 0#8) := by decide
          simp only [mergeBlock, if_neg hlt, ok_bind, hone, if_false,
            pnumToPa_eq hfit.lt_limit, hs']
      · simpa only [release, if_neg hmem] using hrep'

/-! ## The allocator's entry points -/

/-- `buddy_alloc` returns the block the abstract allocation takes, and the
null pointer with an unchanged state when there is none. -/
theorem buddyAlloc_refines (hrep : Rep L s free) (hp : Packed MAX_ORDER L.pnumMax free)
    (ha : Aligned MAX_ORDER free) {o : ℕ} (ho : o ≤ MAX_ORDER) :
    match alloc MAX_ORDER o free with
    | some (q, free') => ∃ s', buddyAlloc L o s = .ok (L.pa q, s') ∧ Rep L s' free'
    | none => buddyAlloc L o s = .ok (NULL, s) := by
  have hfind := findFreeOrder_eq hrep (show o + (MAX_ORDER + 1 - o) = MAX_ORDER + 1 by omega)
  have hle := findOrder_le free (MAX_ORDER + 1 - o) o
  have hge := le_findOrder free (MAX_ORDER + 1 - o) o
  unfold alloc
  simp only
  generalize hk : findOrder free (MAX_ORDER + 1 - o) o = k at *
  by_cases hkm : k ≤ MAX_ORDER
  · have hne : free k ≠ [] := hk ▸ findOrder_ne_nil (by omega)
    obtain ⟨q, rest, hl⟩ := List.exists_cons_of_ne_nil hne
    have hmem : q ∈ free k := by simp [hl]
    have hdvd := ha k hkm q hmem
    obtain ⟨t, ht, hrept⟩ := buddyErasefirst_refines hrep hp hkm hl hdvd
    have hok : o + (k - o) = k := by omega
    obtain ⟨s', hs', hrep'⟩ := splitBlock_refines (n := k - o) (o := o) hrept (by omega)
      (by rw [hok]; exact hp.fits_remove hkm hmem) (by rw [hok]; exact hdvd)
    simp only [hl, if_pos hkm]
    refine ⟨s', ?_, hrep'⟩
    simp [buddyAlloc, Nat.not_lt.mpr ho, hfind, Nat.not_lt.mpr hkm, ht, hs']
  · have hk' : MAX_ORDER < k := by omega
    have hnone : buddyAlloc L o s = .ok (NULL, s) := by
      simp [buddyAlloc, Nat.not_lt.mpr ho, hfind, hk']
    cases hl : free k with
    | nil => exact hnone
    | cons q rest => simpa only [if_neg hkm] using hnone

/-- `buddy_free` of a held block succeeds and releases it. -/
theorem buddyFree_refines (hrep : Rep L s free) (ha : Aligned MAX_ORDER free) (ho : o ≤ MAX_ORDER)
    (hfit : Fits MAX_ORDER L.pnumMax free (q, o)) (hdvd : 2 ^ o ∣ q) :
    ∃ s', buddyFree L (L.pa q) o s = .ok s' ∧
      Rep L s' (release (MAX_ORDER - o) q o free) := by
  obtain ⟨s', hs', hrep'⟩ := mergeBlock_refines hrep ha
    (show o + (MAX_ORDER - o) = MAX_ORDER by omega) hfit hdvd
  refine ⟨s', ?_, hrep'⟩
  simp only [buddyFree, paToPnum_pa hfit.lt_limit, ok_bind, and_low_eq_zero hdvd]
  simpa using hs'

end LearnOS
