import LearnOS.Vm.Access
import LearnOS.Vm.LazyAlloc

/-!
# Copies between the kernel and user memory

`copyout` and `copyin` walk the page table for each page of the range. What they do is
stated byte by byte: the pages they accept, and the bytes that move.

## Implementation notes

The loops have a bound on their rounds, of which each one copies a byte at least. The
bytes that `copyin` has read before it fails are returned with the failure.
-/

namespace LearnOS

open Function Kres

/-- One byte of physical memory. -/
def KMem.byte (m : KMem) (pa : ℕ) : BitVec 8 := m.frame (pa / PGSIZE) (pa % PGSIZE)

def KMem.setByte (m : KMem) (pa : ℕ) (b : BitVec 8) : KMem :=
  { m with
    frame := update m.frame (pa / PGSIZE)
      (update (m.frame (pa / PGSIZE)) (pa % PGSIZE) b) }

/-- `memmove` from a buffer of the kernel. -/
def KMem.memmoveTo : KMem → ℕ → List (BitVec 8) → KMem
  | m, _, [] => m
  | m, pa, b :: src => (m.setByte pa b).memmoveTo (pa + 1) src

/-- `memmove` to a buffer of the kernel. -/
def KMem.memmoveFrom (m : KMem) (pa n : ℕ) : List (BitVec 8) :=
  (List.range n).map fun i => m.byte (pa + i)

/-- The loop of `copyout`. -/
def copyoutLoop (pt : PageTable) : ℕ → ℕ → List (BitVec 8) → KMem → Kres (ℤ × KMem)
  | 0, _, _, m => .ok (0, m)
  | n + 1, dstva, src, m =>
    if src.length = 0 then .ok (0, m)
    else
      let va0 := pgrounddown dstva
      if va0 ≥ MAXVA then .ok (-1, m)
      else do
        match ← walk pt va0 with
        | none => return (-1, m)
        | some pte =>
          if !Pte.has pte PTE_V || !Pte.has pte PTE_U || !Pte.has pte PTE_W then
            return (-1, m)
          else
            let c := min (PGSIZE - (dstva - va0)) src.length
            copyoutLoop pt n (va0 + PGSIZE) (src.drop c)
              (m.memmoveTo (pte2pa pte + (dstva - va0)) (src.take c))

def copyout (pt : PageTable) (dstva : ℕ) (src : List (BitVec 8)) (m : KMem) : Kres (ℤ × KMem) :=
  copyoutLoop pt src.length dstva src m

/-- The loop of `copyin`. -/
def copyinLoop (pt : PageTable) (m : KMem) : ℕ → ℕ → ℕ → Kres (ℤ × List (BitVec 8))
  | 0, _, _ => .ok (0, [])
  | n + 1, srcva, len =>
    if len = 0 then .ok (0, [])
    else do
      let va0 := pgrounddown srcva
      let pa0 ← walkaddr pt va0
      if pa0 = 0 then
        return (-1, [])
      let c := min (PGSIZE - (srcva - va0)) len
      let (r, rest) ← copyinLoop pt m n (va0 + PGSIZE) (len - c)
      return (r, m.memmoveFrom (pa0 + (srcva - va0)) c ++ rest)

def copyin (pt : PageTable) (srcva len : ℕ) (m : KMem) : Kres (ℤ × List (BitVec 8)) :=
  copyinLoop pt m len srcva len

/-! ## Byte by byte -/

/-- Where a user address leads. -/
def PageTable.byteAddr (pt : PageTable) (va : ℕ) : ℕ :=
  pte2pa (pt.entry (va / PGSIZE)) + va % PGSIZE

/-- `copyout` accepts the page of the address. -/
@[mk_iff]
structure CopyoutOk (pt : PageTable) (va : ℕ) : Prop where
  below : va < MAXVA
  valid : (pt.entry (va / PGSIZE)).getLsbD 0 = true
  user : (pt.entry (va / PGSIZE)).getLsbD 4 = true
  write : (pt.entry (va / PGSIZE)).getLsbD 2 = true

/-- `copyin` accepts the page of the address. -/
@[mk_iff]
structure CopyinOk (pt : PageTable) (va : ℕ) : Prop where
  below : va < MAXVA
  valid : (pt.entry (va / PGSIZE)).getLsbD 0 = true
  user : (pt.entry (va / PGSIZE)).getLsbD 4 = true
  backed : pte2pa (pt.entry (va / PGSIZE)) ≠ 0

instance (pt : PageTable) (va : ℕ) : Decidable (CopyoutOk pt va) :=
  decidable_of_iff _ (copyoutOk_iff pt va).symm

instance (pt : PageTable) (va : ℕ) : Decidable (CopyinOk pt va) :=
  decidable_of_iff _ (copyinOk_iff pt va).symm

/-- Successive stores from a user address on. -/
def KMem.storeUser (pt : PageTable) : ℕ → List (BitVec 8) → KMem → KMem
  | _, [], m => m
  | va, b :: src, m => KMem.storeUser pt (va + 1) src (m.setByte (pt.byteAddr va) b)

/-- Successive loads from a user address on. -/
def KMem.loadUser (pt : PageTable) (va n : ℕ) (m : KMem) : List (BitVec 8) :=
  (List.range n).map fun i => m.byte (pt.byteAddr (va + i))

variable {pt : PageTable} {m m' : KMem} {va n : ℕ} {src : List (BitVec 8)}
  {i len c : ℕ} {P : ℕ → Prop}

theorem storeUser_append (va : ℕ) (l l' : List (BitVec 8)) (m : KMem) :
    KMem.storeUser pt va (l ++ l') m =
      KMem.storeUser pt (va + l.length) l' (KMem.storeUser pt va l m) := by
  induction l generalizing va m with
  | nil => rfl
  | cons b l ih =>
    have hshift : va + 1 + l.length = va + (l.length + 1) := by omega
    rw [List.cons_append, KMem.storeUser, ih, List.length_cons, KMem.storeUser, hshift]

theorem page_add (hi : va % PGSIZE + i < PGSIZE) : (va + i) / PGSIZE = va / PGSIZE := by
  simp only [PGSIZE] at hi ⊢
  omega

/-- Inside a page the addresses are consecutive. -/
theorem byteAddr_add (hi : va % PGSIZE + i < PGSIZE) :
    pt.byteAddr (va + i) = pte2pa (pt.entry (va / PGSIZE)) + va % PGSIZE + i := by
  have hoff : (va + i) % PGSIZE = va % PGSIZE + i := by
    simp only [PGSIZE] at hi ⊢
    omega
  rw [PageTable.byteAddr, page_add hi, hoff]
  omega

theorem memmoveTo_eq_storeUser (hfit : va % PGSIZE + src.length ≤ PGSIZE) (m : KMem) :
    m.memmoveTo (pte2pa (pt.entry (va / PGSIZE)) + va % PGSIZE) src =
      KMem.storeUser pt va src m := by
  induction src generalizing va m with
  | nil => rfl
  | cons b src ih =>
    rw [KMem.memmoveTo, KMem.storeUser]
    rw [List.length_cons] at hfit
    cases src with
    | nil => rfl
    | cons c src =>
      rw [List.length_cons] at hfit
      have hpage : (va + 1) / PGSIZE = va / PGSIZE := page_add (by omega)
      have hoff : (va + 1) % PGSIZE = va % PGSIZE + 1 := by
        simp only [PGSIZE] at hfit ⊢
        omega
      have hrest : (va + 1) % PGSIZE + (c :: src).length ≤ PGSIZE := by
        rw [hoff, List.length_cons]
        omega
      have hmove := ih hrest (m.setByte (pt.byteAddr va) b)
      rw [hpage, hoff] at hmove
      exact hmove

theorem memmoveFrom_eq_loadUser (hfit : va % PGSIZE + n ≤ PGSIZE) (m : KMem) :
    m.memmoveFrom (pte2pa (pt.entry (va / PGSIZE)) + va % PGSIZE) n = m.loadUser pt va n := by
  refine List.map_congr_left fun i hi => ?_
  rw [List.mem_range] at hi
  rw [byteAddr_add (by omega)]

theorem sub_pgrounddown (va : ℕ) : va - pgrounddown va = va % PGSIZE := by
  simp only [pgrounddown, PGSIZE]
  omega

theorem maxva_page {va : ℕ} (hva : va < MAXVA) (hi : va % PGSIZE + i < PGSIZE) :
    va + i < MAXVA := by
  have hdvd : MAXVA = 2 ^ 26 * PGSIZE := by decide
  rw [hdvd] at hva ⊢
  rw [← Nat.div_lt_iff_lt_mul (by decide : 0 < PGSIZE)] at hva ⊢
  rwa [page_add hi]

theorem CopyoutOk.same_page (h : CopyoutOk pt va) (hi : va % PGSIZE + i < PGSIZE) :
    CopyoutOk pt (va + i) := by
  refine ⟨maxva_page h.below hi, ?_, ?_, ?_⟩ <;> rw [page_add hi]
  exacts [h.valid, h.user, h.write]

theorem CopyinOk.same_page (h : CopyinOk pt va) (hi : va % PGSIZE + i < PGSIZE) :
    CopyinOk pt (va + i) := by
  refine ⟨maxva_page h.below hi, ?_, ?_, ?_⟩ <;> rw [page_add hi]
  exacts [h.valid, h.user, h.backed]

/-- The next round begins where the bytes of this one end, if any are left. -/
theorem next_round (hc : c = min (PGSIZE - va % PGSIZE) len) (hleft : 0 < len - c) :
    pgrounddown va + PGSIZE = va + c := by
  have hround := Nat.div_add_mod' va PGSIZE
  have hoff : va % PGSIZE < PGSIZE := Nat.mod_lt _ (by decide)
  simp only [pgrounddown]
  omega

/-- The first `c` bytes of a range of `len` bytes pass a test, and the next one, if there
is one, does not. -/
structure Leading (P : ℕ → Prop) (va len c : ℕ) : Prop where
  le : c ≤ len
  pass : ∀ i < c, P (va + i)
  stop : c < len → ¬ P (va + c)

theorem Leading.eq_len_iff (h : Leading P va len c) :
    c = len ↔ ∀ i < len, P (va + i) := by
  constructor
  · rintro rfl
    exact h.pass
  · intro hall
    by_contra hne
    have hlt : c < len := lt_of_le_of_ne h.le hne
    exact h.stop hlt (hall c hlt)

/-- What this round copies and what the next ones copy. -/
theorem Leading.round {d : ℕ} (hc : c = min (PGSIZE - va % PGSIZE) len)
    (hround : ∀ i < c, P (va + i)) (h : Leading P (pgrounddown va + PGSIZE) (len - c) d) :
    Leading P va len (c + d) := by
  have hle := h.le
  refine ⟨by omega, fun i hi => ?_, fun hlt => ?_⟩
  · by_cases hic : i < c
    · exact hround i hic
    · have hpass := h.pass (i - c) (by omega)
      rwa [next_round hc (by omega), Nat.add_assoc, Nat.add_sub_cancel' (not_lt.mp hic)] at hpass
  · have hstop := h.stop (by omega)
    rwa [next_round hc (by omega), Nat.add_assoc] at hstop

/-! ## `copyout` -/

/-- One round on a page that is accepted. -/
theorem copyoutLoop_ok (h : CopyoutOk pt va) (hsrc : src ≠ []) (n : ℕ) (m : KMem) :
    copyoutLoop pt (n + 1) va src m =
      copyoutLoop pt n (pgrounddown va + PGSIZE)
        (src.drop (min (PGSIZE - va % PGSIZE) src.length))
        (KMem.storeUser pt va (src.take (min (PGSIZE - va % PGSIZE) src.length)) m) := by
  have hbelow : ¬ pgrounddown va ≥ MAXVA := not_le.mpr (pgrounddown_lt_maxva.mpr h.below)
  have hvalid : (pt.entry (pgrounddown va / PGSIZE)).getLsbD 0 = true := by
    rw [pgrounddown_div]
    exact h.valid
  have hwalk := walk_mapped (not_le.mp hbelow) hvalid
  rw [pgrounddown_div] at hwalk
  have hoff : va % PGSIZE < PGSIZE := Nat.mod_lt _ (by decide)
  have hfit : va % PGSIZE + (src.take (min (PGSIZE - va % PGSIZE) src.length)).length ≤ PGSIZE := by
    rw [List.length_take]
    omega
  have hstore := @memmoveTo_eq_storeUser pt _ _ hfit m
  simp only [copyoutLoop, List.length_eq_zero_iff, if_neg hsrc, if_neg hbelow, hwalk, ok_bind,
    Pte.has_V, Pte.has_U, Pte.has_W, h.valid, h.user, h.write, Bool.not_true, Bool.or_self,
    Bool.false_eq_true, if_false, sub_pgrounddown, hstore]

/-- One round on a page that is refused. -/
theorem copyoutLoop_refused (h : ¬ CopyoutOk pt va) (hsrc : src ≠ []) (n : ℕ) (m : KMem) :
    copyoutLoop pt (n + 1) va src m = .ok (-1, m) := by
  simp only [copyoutLoop, List.length_eq_zero_iff, if_neg hsrc]
  by_cases hbelow : pgrounddown va ≥ MAXVA
  · rw [if_pos hbelow]
  · rw [if_neg hbelow]
    have hva : va < MAXVA := pgrounddown_lt_maxva.mp (not_le.mp hbelow)
    rw [walk, if_neg hbelow, pgrounddown_div]
    cases hpte : pt.pte? (va / PGSIZE) with
    | none => rfl
    | some pte =>
      have hentry : pt.entry (va / PGSIZE) = pte := PageTable.entry_of_pte? hpte
      simp only [ok_bind, Pte.has_V, Pte.has_U, Pte.has_W]
      rw [if_pos]
      · rfl
      · by_contra hall
        simp only [Bool.or_eq_true, Bool.not_eq_true', not_or, Bool.not_eq_false] at hall
        refine h ⟨hva, ?_, ?_, ?_⟩
        · rw [hentry]
          exact hall.1.1
        · rw [hentry]
          exact hall.1.2
        · rw [hentry]
          exact hall.2

/-- The loop stores byte after byte up to the first page that is refused. -/
theorem copyoutLoop_spec (hn : src.length ≤ n) (va : ℕ) (m : KMem) :
    ∃ c, Leading (CopyoutOk pt) va src.length c ∧ copyoutLoop pt n va src m =
      .ok (if c = src.length then 0 else -1, KMem.storeUser pt va (src.take c) m) := by
  induction n generalizing va src m with
  | zero =>
    obtain rfl : src = [] := List.length_eq_zero_iff.mp (Nat.le_zero.mp hn)
    exact ⟨0, ⟨le_refl _, by simp, by simp⟩, rfl⟩
  | succ n ih =>
    by_cases hsrc : src = []
    · subst hsrc
      exact ⟨0, ⟨le_refl _, by simp, by simp⟩, rfl⟩
    have hpos : 0 < src.length := List.length_pos_of_ne_nil hsrc
    by_cases hpage : CopyoutOk pt va
    · rw [copyoutLoop_ok hpage hsrc]
      have hoff : va % PGSIZE < PGSIZE := Nat.mod_lt _ (by decide)
      set c := min (PGSIZE - va % PGSIZE) src.length with hc
      have hshort : (src.drop c).length ≤ n := by
        rw [List.length_drop]
        omega
      obtain ⟨d, hlead, hloop⟩ := ih hshort (pgrounddown va + PGSIZE)
        (KMem.storeUser pt va (src.take c) m)
      rw [List.length_drop] at hlead hloop
      have hle := hlead.le
      refine ⟨c + d, hlead.round hc fun i hi => hpage.same_page (by omega), ?_⟩
      have hdone : (d = src.length - c) ↔ c + d = src.length := by omega
      have htake : (src.take c).length = c := by
        rw [List.length_take]
        omega
      rw [hloop, List.take_add, storeUser_append, htake]
      simp only [hdone]
      by_cases hd : d = 0
      · subst hd
        rfl
      · rw [next_round hc (by omega)]
    · refine ⟨0, ⟨Nat.zero_le _, by simp, fun _ => hpage⟩, ?_⟩
      rw [copyoutLoop_refused hpage hsrc, if_neg (by omega)]
      rfl

theorem copyout_spec (pt : PageTable) (src : List (BitVec 8)) (va : ℕ) (m : KMem) :
    ∃ c, Leading (CopyoutOk pt) va src.length c ∧ copyout pt va src m =
      .ok (if c = src.length then 0 else -1, KMem.storeUser pt va (src.take c) m) :=
  copyoutLoop_spec (le_refl _) va m

/-! ## `copyin` -/

theorem loadUser_append (va n n' : ℕ) (m : KMem) :
    m.loadUser pt va (n + n') = m.loadUser pt va n ++ m.loadUser pt (va + n) n' := by
  simp only [KMem.loadUser, List.range_add, List.map_append, List.map_map]
  refine congrArg (_ ++ ·) (List.map_congr_left fun i _ => ?_)
  simp only [Function.comp_apply, Nat.add_assoc]

theorem walkaddr_copyin (h : CopyinOk pt va) :
    walkaddr pt (pgrounddown va) = .ok (pte2pa (pt.entry (va / PGSIZE))) := by
  have hvalid : (pt.entry (pgrounddown va / PGSIZE)).getLsbD 0 = true := by
    rw [pgrounddown_div]
    exact h.valid
  rw [walkaddr_mapped (pgrounddown_lt_maxva.mpr h.below) hvalid, pgrounddown_div, if_pos h.user]

theorem walkaddr_copyin_refused (h : ¬ CopyinOk pt va) : walkaddr pt (pgrounddown va) = .ok 0 := by
  by_cases hbelow : pgrounddown va ≥ MAXVA
  · simp only [walkaddr, if_pos hbelow, pure_eq]
  · have hva : va < MAXVA := pgrounddown_lt_maxva.mp (not_le.mp hbelow)
    by_cases hvalid : (pt.entry (pgrounddown va / PGSIZE)).getLsbD 0 = true
    · rw [walkaddr_mapped (not_le.mp hbelow) hvalid]
      rw [pgrounddown_div] at hvalid ⊢
      split
      · rename_i huser
        by_contra hpa
        exact h ⟨hva, hvalid, huser, fun hzero => hpa (by rw [hzero])⟩
      · rfl
    · simp only [walkaddr, if_neg hbelow, walk, ok_bind]
      cases hpte : pt.pte? (pgrounddown va / PGSIZE) with
      | none => rfl
      | some pte =>
        have hentry := PageTable.entry_of_pte? hpte
        rw [hentry] at hvalid
        simp only [Pte.has_V, Bool.not_eq_true] at hvalid ⊢
        rw [hvalid]
        rfl

/-- The loop reads byte after byte up to the first page that is refused. -/
theorem copyinLoop_spec (hn : len ≤ n) (va : ℕ) (m : KMem) :
    ∃ c, Leading (CopyinOk pt) va len c ∧ copyinLoop pt m n va len =
      .ok (if c = len then 0 else -1, m.loadUser pt va c) := by
  induction n generalizing va len with
  | zero =>
    obtain rfl : len = 0 := Nat.le_zero.mp hn
    exact ⟨0, ⟨le_refl _, by simp, by simp⟩, rfl⟩
  | succ n ih =>
    by_cases hlen : len = 0
    · subst hlen
      exact ⟨0, ⟨le_refl _, by simp, by simp⟩, rfl⟩
    simp only [copyinLoop, if_neg hlen, sub_pgrounddown]
    by_cases hpage : CopyinOk pt va
    · have hoff : va % PGSIZE < PGSIZE := Nat.mod_lt _ (by decide)
      set c := min (PGSIZE - va % PGSIZE) len with hc
      obtain ⟨d, hlead, hloop⟩ := ih (by omega : len - c ≤ n) (pgrounddown va + PGSIZE)
      have hle := hlead.le
      refine ⟨c + d, hlead.round hc fun i hi => hpage.same_page (by omega), ?_⟩
      have hdone : (d = len - c) ↔ c + d = len := by omega
      have hfrom := @memmoveFrom_eq_loadUser pt _ _ (by omega : va % PGSIZE + c ≤ PGSIZE) m
      simp only [walkaddr_copyin hpage, ok_bind, if_neg hpage.backed, hloop, hfrom,
        pure_eq, hdone, loadUser_append]
      by_cases hd : d = 0
      · subst hd
        simp only [KMem.loadUser, List.range_zero, List.map_nil]
      · rw [next_round hc (by omega)]
    · refine ⟨0, ⟨Nat.zero_le _, by simp, fun _ => hpage⟩, ?_⟩
      simp only [walkaddr_copyin_refused hpage, ok_bind, if_true, pure_eq,
        if_neg (Ne.symm hlen)]
      rfl

theorem copyin_spec (pt : PageTable) (va len : ℕ) (m : KMem) :
    ∃ c, Leading (CopyinOk pt) va len c ∧ copyin pt va len m =
      .ok (if c = len then 0 else -1, m.loadUser pt va c) :=
  copyinLoop_spec (le_refl _) va m

/-! ## What has been stored is what is read -/

theorem byteAddr_split (pt : PageTable) (va : ℕ) :
    pt.byteAddr va / PGSIZE = pte2pa (pt.entry (va / PGSIZE)) / PGSIZE ∧
      pt.byteAddr va % PGSIZE = va % PGSIZE := by
  have hmod := pte2pa_mod (pt.entry (va / PGSIZE))
  simp only [PageTable.byteAddr, PGSIZE] at hmod ⊢
  omega

theorem byte_setByte (m : KMem) (pa pa' : ℕ) (b : BitVec 8) :
    (m.setByte pa b).byte pa' = if pa' = pa then b else m.byte pa' := by
  have hsplit : pa' = pa ↔ pa' / PGSIZE = pa / PGSIZE ∧ pa' % PGSIZE = pa % PGSIZE := by
    simp only [PGSIZE]
    omega
  simp only [KMem.byte, KMem.setByte]
  by_cases hframe : pa' / PGSIZE = pa / PGSIZE
  · by_cases hoff : pa' % PGSIZE = pa % PGSIZE
    · rw [if_pos (hsplit.mpr ⟨hframe, hoff⟩), hframe, hoff, update_self,
        update_self]
    · rw [if_neg fun heq => hoff (hsplit.mp heq).2, hframe, update_self,
        update_of_ne hoff]
  · rw [if_neg fun heq => hframe (hsplit.mp heq).1, update_of_ne hframe]

/-- Stores that do not reach an address leave its byte. -/
theorem byte_storeUser {pa : ℕ} (h : ∀ i < src.length, pt.byteAddr (va + i) ≠ pa) (m : KMem) :
    (KMem.storeUser pt va src m).byte pa = m.byte pa := by
  induction src generalizing va m with
  | nil => rfl
  | cons b src ih =>
    rw [KMem.storeUser, ih, byte_setByte, if_neg]
    · exact fun heq => h 0 (by simp) heq.symm
    · intro i hi
      have hlater := h (i + 1) (by simpa using hi)
      rwa [show va + 1 + i = va + (i + 1) by omega]

/-- No two bytes of a range are the same byte of memory. -/
def BytesApart (pt : PageTable) (va len : ℕ) : Prop :=
  ∀ i < len, ∀ j < len, j ≠ i → pt.byteAddr (va + j) ≠ pt.byteAddr (va + i)

/-- Within the length of a page this holds however the pages are mapped. -/
theorem bytesApart_page (pt : PageTable) (va : ℕ) (hlen : len ≤ PGSIZE) :
    BytesApart pt va len := by
  intro i hi j hj hne heq
  have hfst := (byteAddr_split pt (va + i)).2
  have hsnd := (byteAddr_split pt (va + j)).2
  rw [heq] at hsnd
  simp only [PGSIZE] at hfst hsnd hlen
  omega

/-- A byte that no other store reaches is the one stored to it. -/
theorem byte_storeUser_at
    (h : ∀ j < src.length, j ≠ i → pt.byteAddr (va + j) ≠ pt.byteAddr (va + i)) (m : KMem) :
    (KMem.storeUser pt va src m).byte (pt.byteAddr (va + i)) =
      src.getD i (m.byte (pt.byteAddr (va + i))) := by
  induction src generalizing va i m with
  | nil => rfl
  | cons b src ih =>
    rw [List.length_cons] at h
    have hshift : ∀ j, va + (j + 1) = va + 1 + j := fun j => by omega
    cases i with
    | zero =>
      rw [Nat.add_zero, KMem.storeUser, byte_storeUser, byte_setByte, if_pos rfl]
      · rfl
      · intro j hj
        rw [← hshift]
        exact h (j + 1) (by omega) (by omega)
    | succ i =>
      have hother := (h 0 (by omega) (by omega)).symm
      rw [KMem.storeUser, hshift i, ih, byte_setByte, if_neg (hshift i ▸ hother),
        List.getD_cons_succ]
      intro j hj hne
      rw [← hshift, ← hshift]
      exact h (j + 1) (by omega) (by omega)

/-- Stores change the contents of memory only. -/
theorem storeUser_same (m : KMem) :
    KMem.storeUser pt va src m = { m with frame := (KMem.storeUser pt va src m).frame } := by
  induction src generalizing va m with
  | nil => rfl
  | cons b src ih =>
    rw [KMem.storeUser, ih]
    rfl

theorem Leading.lt_iff (h : Leading P va len c) (hi : i < len) :
    i < c ↔ ∀ j ≤ i, P (va + j) := by
  constructor
  · intro hic j hj
    exact h.pass j (by omega)
  · intro hpass
    by_contra hic
    exact h.stop (by omega) (hpass c (by omega))

/-- After `copyout` the whole buffer is found in user memory when each byte that it did
not reach was there already. -/
theorem copyout_reads_back (h : BytesApart pt va src.length) (m : KMem) :
    ∃ r m', copyout pt va src m = .ok (r, m') ∧ m' = { m with frame := m'.frame } ∧
      (∀ pa, (∀ i < src.length, pt.byteAddr (va + i) ≠ pa) → m'.byte pa = m.byte pa) ∧
      (m'.loadUser pt va src.length = src ↔ ∀ i < src.length,
        (∀ j ≤ i, CopyoutOk pt (va + j)) ∨ m.byte (pt.byteAddr (va + i)) = src.getD i 0) := by
  obtain ⟨c, hlead, hcall⟩ := copyout_spec pt src va m
  have hc := hlead.le
  have htake : (src.take c).length = c := by
    rw [List.length_take]
    omega
  refine ⟨_, _, hcall, storeUser_same m, fun pa hpa => ?_, ?_⟩
  · apply byte_storeUser
    intro i hi
    exact hpa i (by omega)
  · have hbyte : ∀ i < src.length,
        (KMem.storeUser pt va (src.take c) m).byte (pt.byteAddr (va + i)) =
          if i < c then src.getD i 0 else m.byte (pt.byteAddr (va + i)) := by
      intro i hi
      rw [byte_storeUser_at fun j hj => h i hi j (by omega)]
      split
      · rename_i hic
        rw [List.getD_eq_getElem _ _ (by omega), List.getD_eq_getElem _ _ hi, List.getElem_take]
      · exact List.getD_eq_default _ _ (by omega)
    have hlist : ∀ l : List (BitVec 8), l.length = src.length →
        (l = src ↔ ∀ i < src.length, l.getD i 0 = src.getD i 0) := by
      intro l hl
      constructor
      · intro heq i _
        rw [heq]
      · intro hget
        apply List.ext_getElem hl
        intro i hi hi'
        have hpoint := hget i hi'
        rwa [List.getD_eq_getElem _ _ hi, List.getD_eq_getElem _ _ hi'] at hpoint
    rw [hlist _ (by simp [KMem.loadUser])]
    refine forall₂_congr fun i hi => ?_
    rw [List.getD_eq_getElem _ _ (by simpa [KMem.loadUser] using hi), ← hlead.lt_iff hi]
    simp only [KMem.loadUser, List.getElem_map, List.getElem_range, hbyte i hi]
    split
    · rename_i hic
      simp only [hic, true_or]
    · rename_i hic
      simp only [hic, false_or]

/-- `copyin` brings back what `copyout` has stored, unless a page of the range is the
physical page 0. -/
theorem copyin_copyout (h : BytesApart pt va src.length)
    (hcall : copyout pt va src m = .ok (0, m')) :
    copyin pt va src.length m' = .ok (0, src) ↔
      ∀ i < src.length, pte2pa (pt.entry ((va + i) / PGSIZE)) ≠ 0 := by
  obtain ⟨r, m₁, hout, -, -, hread⟩ := copyout_reads_back h m
  obtain ⟨c, hlead, hspec⟩ := copyout_spec pt src va m
  rw [hcall] at hout hspec
  cases hout
  have hok : ∀ i < src.length, CopyoutOk pt (va + i) := by
    refine hlead.eq_len_iff.mp ?_
    by_contra hne
    rw [if_neg hne] at hspec
    cases hspec
  have hback := hread.mpr fun i hi => Or.inl fun j hj => hok j (by omega)
  obtain ⟨d, hin, hcopy⟩ := copyin_spec pt va src.length m'
  rw [hcopy]
  constructor
  · intro heq i hi
    have hd : d = src.length := by
      by_contra hne
      rw [if_neg hne] at heq
      cases heq
    exact (hin.eq_len_iff.mp hd i hi).backed
  · intro hpages
    have hd : d = src.length := hin.eq_len_iff.mpr fun i hi =>
      ⟨(hok i hi).below, (hok i hi).valid, (hok i hi).user, hpages i hi⟩
    rw [if_pos hd, hd, hback]

/-- Two bytes on both sides of a page boundary. -/
theorem copyin_copyout_two_pages :
    let pt : PageTable := ⟨0, fun _ => some 0, fun _ => some 0, fun v =>
      pa2pte ((v + 1) * PGSIZE) ||| PTE_U ||| PTE_W ||| PTE_V⟩
    ∃ m m', copyout pt 4095 [1#8, 2#8] m = .ok (0, m') ∧
      copyin pt 4095 2 m' = .ok (0, [1#8, 2#8]) := by
  refine ⟨⟨⟨⟨id, id⟩, fun _ => 0⟩, fun _ => 0, fun _ _ => 0⟩, _, rfl,
    (@copyin_copyout _ _ _ _ [1#8, 2#8] (bytesApart_page _ _ (by decide)) rfl).mpr ?_⟩
  decide

end LearnOS
