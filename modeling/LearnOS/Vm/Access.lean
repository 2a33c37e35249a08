import LearnOS.Vm.RefCount

/-!
# User accesses and the faults they take

A user access is tried, and tried again after every page fault that does not
kill the process. On a mapped page below the size of the process the handler
either kills the process for an illegal access or leaves everything that user
code can see as it was.
-/

namespace LearnOS

open Ownership Transition Function Kres

inductive Access where
  | load
  | store
  deriving DecidableEq

/-- What the hardware checks on a user access. -/
def Access.permits (acc : Access) (pte : Pte) : Bool :=
  pte.getLsbD 0 && pte.getLsbD 4 &&
    match acc with
    | .load => pte.getLsbD 1
    | .store => pte.getLsbD 2

/-- An access ends at a physical page or with the process killed; `again` is an
access that still faults when the attempts are used up. -/
inductive Attempt where
  | done (pa : ℕ)
  | killed
  | again
  deriving DecidableEq

/-- The instruction is restarted after each fault that does not kill. -/
def attempt (L : Layout) (acc : Access) (p : Fin NPROC) (va : ℕ) :
    ℕ → VmState → Kres (Attempt × VmState)
  | 0, s => .ok (.again, s)
  | n + 1, s =>
    match (s.proc p).pagetable with
    | none => .error .nullLoad
    | some pt =>
      if acc.permits (pt.entry (va / PGSIZE)) then
        .ok (.done (pte2pa (pt.entry (va / PGSIZE))), s)
      else do
        let s ← pageFault L (kalloc L) p va s
        if (s.proc p).killed then return (.killed, s) else attempt L acc p va n s

/-- Faults that can follow one another before an access succeeds or kills. -/
def maxAttempts : ℕ := 3

/-- A page as user code sees it: what it may do with it and what it holds. -/
structure PageView where
  perms : Perms
  data : ℕ → BitVec 8

/-- A page of a process as user code sees it. -/
def VmState.view (s : VmState) (i : Fin NPROC) (v : ℕ) : Option PageView :=
  match (s.proc i).pagetable with
  | none => none
  | some pt =>
    if (pt.entry v).getLsbD 0 then
      some ⟨Pte.perms (pt.entry v), s.mem.frame (pte2pa (pt.entry v) / PGSIZE)⟩
    else none

/-- The process may execute user code. -/
def Alive (s : VmState) (p : Fin NPROC) : Prop := Running s p ∧ (s.proc p).killed = false

instance (s : VmState) (p : Fin NPROC) : Decidable (Alive s p) :=
  inferInstanceAs (Decidable (_ ∧ _))

variable {L : Layout} {s s' : VmState} {own : Slot → Option ℕ} {i : Fin NPROC} {pt pt' : PageTable}
  {m m' : KMem} {live : List (ℕ × ℕ)} {p : Fin NPROC} {va : ℕ} {pte : Pte} {acc : Access}
  {mem v : ℕ}

/-! ## The fault handler on a mapped page -/

/-- With the levels in place `mappages` allocates nothing. -/
theorem mappages_existing (pageAlloc : PageAlloc) (hmod : va % PGSIZE = 0) (hva : va < MAXVA)
    (hsome : (pt.pte? (va / PGSIZE)).isSome) (hfree : (pt.entry (va / PGSIZE)).getLsbD 0 = false)
    (pa : ℕ) (perm : Pte) (m : KMem) :
    mappages pageAlloc pt va PGSIZE pa perm m =
      .ok (0, pt.setPte (va / PGSIZE) (pa2pte pa ||| perm ||| PTE_V), m) := by
  have hlevels : (pt.mid (px2 (va / PGSIZE))).isSome ∧ (pt.low (px1 (va / PGSIZE))).isSome := by
    simpa only [PageTable.pte?, Option.isSome_ite] using hsome
  obtain ⟨mid, hmid⟩ := Option.isSome_iff_exists.mp hlevels.1
  obtain ⟨low, hlow⟩ := Option.isSome_iff_exists.mp hlevels.2
  have hword : pt.pte (va / PGSIZE) = pt.entry (va / PGSIZE) := by
    rw [PageTable.entry_of_pte? (if_pos hlevels)]
  have hsize : PGSIZE % PGSIZE = 0 := rfl
  have hpages : PGSIZE / PGSIZE = 1 := rfl
  have hpos : ¬ PGSIZE = 0 := by decide
  simp only [mappages, hmod, hsize, hpages, hpos, mapLoop, walkAlloc, if_neg (Nat.not_le.mpr hva),
    walkMid, hmid, walkLow, hlow, ok_bind, pure_eq, hword, Pte.has_V, hfree, ne_eq,
    not_true_eq_false, if_false, Bool.not_true, Bool.false_eq_true]

theorem kalloc_error (h : Tracked L m live own) {e : Fault} (herr : kalloc L m = .error e) :
    e = .nullStore := by
  obtain ⟨free, blocks, hwf⟩ := h.heap.wellFormed
  obtain ⟨⟨result, b⟩, hb⟩ := hwf.alloc_returns 0 (Nat.zero_le _)
  simp only at hb
  simp only [kalloc, hb, ok_bind] at herr
  split at herr
  · exact (Except.error.inj herr).symm
  · cases herr

/-- The entry that `cowalloc` writes for a copied page. -/
def copiedPte (mem : ℕ) (pte : Pte) : Pte :=
  pa2pte mem ||| ((pteFlags (pte &&& ~~~PTE_V) ||| PTE_W) &&& ~~~PTE_F) ||| PTE_V

theorem getLsbD_clearV (pte : Pte) {k : ℕ} (hk : k ≠ 0) :
    (pte &&& ~~~PTE_V).getLsbD k = pte.getLsbD k := by
  by_cases hlt : k < 64
  · simp [PTE_V, hlt, hk]
  · rw [BitVec.getLsbD_of_ge _ _ (by omega), BitVec.getLsbD_of_ge _ _ (by omega)]

theorem flagsOnly_copied (pte : Pte) :
    FlagsOnly ((pteFlags (pte &&& ~~~PTE_V) ||| PTE_W) &&& ~~~PTE_F) :=
  ((flagsOnly_pteFlags _).or (flagsOnly_twoPow (by decide))).and _

/-- A copied page is valid and writable at once, with the other flags kept. -/
theorem copiedPte_bits (mem : ℕ) (pte : Pte) :
    (copiedPte mem pte).getLsbD 0 = true ∧ (copiedPte mem pte).getLsbD 1 = pte.getLsbD 1 ∧
      (copiedPte mem pte).getLsbD 2 = true ∧ (copiedPte mem pte).getLsbD 4 = pte.getLsbD 4 ∧
      (copiedPte mem pte).getLsbD 8 = false := by
  have hflag : ∀ k, 0 < k → k < 10 → k ≠ 2 → k ≠ 8 →
      (copiedPte mem pte).getLsbD k = pte.getLsbD k := by
    intro k hpos hk hW hF
    have hV : (PTE_V).getLsbD k = false := by
      rw [PTE_V, BitVec.getLsbD_twoPow]
      simp
      omega
    rw [copiedPte, BitVec.getLsbD_or, hV, Bool.or_false, getLsbD_pa2pte_or _ _ hk,
      getLsbD_uncow _ hW hF, getLsbD_pteFlags, decide_eq_true hk, Bool.and_true,
      getLsbD_clearV _ (by omega)]
  refine ⟨?_, hflag 1 (by decide) (by decide) (by decide) (by decide), ?_,
    hflag 4 (by decide) (by decide) (by decide) (by decide), ?_⟩
  · rw [copiedPte, BitVec.getLsbD_or]
    simp [PTE_V]
  · simp [copiedPte, PTE_V, PTE_W, PTE_F]
  · rw [copiedPte, BitVec.getLsbD_or, getLsbD_pa2pte_or _ _ (by decide)]
    simp [PTE_V, PTE_F]

/-- `cowalloc` on a shared page replaces it by a copy, unless no page is left. -/
theorem cowcopy_eq (hmod : va % PGSIZE = 0) (hva : va < MAXVA)
    (hsome : (pt.pte? (va / PGSIZE)).isSome) (hok : ¬ badPage L (pte2pa pte))
    (halloc : kalloc L m = .ok (mem, m')) (hcnt : m'.cnt (pte2pa pte / PGSIZE) ≠ 1) :
    cowcopy L (kalloc L) pt va pte m = .ok (mem,
      (pt.setPte (va / PGSIZE) (pte &&& ~~~PTE_V)).setPte (va / PGSIZE) (copiedPte mem pte),
      (m'.copyPage mem (pte2pa pte)).setCnt (pte2pa pte)
        (m'.cnt (pte2pa pte / PGSIZE) - 1)) := by
  have hround : pgrounddown (pte2pa pte) = pte2pa pte :=
    Nat.div_mul_cancel (Nat.dvd_of_mod_eq_zero (pte2pa_mod pte))
  have hsome' : ((pt.setPte (va / PGSIZE) (pte &&& ~~~PTE_V)).pte? (va / PGSIZE)).isSome := by
    rw [PageTable.pte?_isSome_setPte]
    exact hsome
  have hclear : ((pt.setPte (va / PGSIZE) (pte &&& ~~~PTE_V)).entry (va / PGSIZE)).getLsbD 0 =
      false := by
    rw [PageTable.entry_setPte hsome, if_pos rfl]
    simp [PTE_V]
  have hmap := mappages_existing (kalloc L) hmod hva hsome' hclear mem
    ((pteFlags (pte &&& ~~~PTE_V) ||| PTE_W) &&& ~~~PTE_F) (m'.copyPage mem (pte2pa pte))
  have hfree := kfree_shared (m := m'.copyPage mem (pte2pa pte)) hok hcnt
  simp only [cowcopy, halloc, ok_bind, if_neg (kalloc_ne_null halloc), hmap, ne_eq,
    not_true_eq_false, if_false, hround, hfree, pure_eq]
  rfl

/-- Every page has one owner, and user memory stays below the trapframe. -/
structure CowInv (L : Layout) (s : VmState) : Prop where
  tracked : ∃ live, Tracked L s.mem live s.own
  sz_le : ∀ i, (s.proc i).sz ≤ TRAPFRAME

/-- The processes look the same to user code, but for the table and the
`killed` flag of one of them. -/
structure Unchanged (s s' : VmState) (p : Fin NPROC) : Prop where
  other : ∀ i, i ≠ p → s'.proc i = s.proc i
  state : (s'.proc p).state = (s.proc p).state
  sz : (s'.proc p).sz = (s.proc p).sz
  view : ∀ i v, v * PGSIZE < (s.proc i).sz → s'.view i v = s.view i v

theorem Unchanged.refl (s : VmState) (p : Fin NPROC) : Unchanged s s p :=
  ⟨fun _ _ => rfl, rfl, rfl, fun _ _ _ => rfl⟩

theorem Unchanged.sz_eq (h : Unchanged s s' p) (i : Fin NPROC) :
    (s'.proc i).sz = (s.proc i).sz := by
  by_cases hi : i = p
  · rw [hi, h.sz]
  · rw [h.other i hi]

theorem Unchanged.state_eq (h : Unchanged s s' p) (i : Fin NPROC) :
    (s'.proc i).state = (s.proc i).state := by
  by_cases hi : i = p
  · rw [hi, h.state]
  · rw [h.other i hi]

theorem Unchanged.trans {s'' : VmState} (h : Unchanged s s' p) (h' : Unchanged s' s'' p) :
    Unchanged s s'' p where
  other i hi := (h'.other i hi).trans (h.other i hi)
  state := h'.state.trans h.state
  sz := h'.sz.trans h.sz
  view i v hv := (h'.view i v (by rw [h.sz_eq]; exact hv)).trans (h.view i v hv)

theorem Unchanged.setkilled (s : VmState) (p : Fin NPROC) : Unchanged s (setkilled p s) p where
  other i hi := by simp [LearnOS.setkilled, VmState.setProc, hi]
  state := by simp [LearnOS.setkilled, VmState.setProc]
  sz := by simp [LearnOS.setkilled, VmState.setProc]
  view i v _ := by
    by_cases hi : i = p
    · subst hi
      simp [VmState.view, LearnOS.setkilled, VmState.setProc]
    · simp [VmState.view, LearnOS.setkilled, VmState.setProc, hi]

theorem CowInv.of_setkilled (h : CowInv L s) (p : Fin NPROC) : CowInv L (setkilled p s) where
  tracked := by
    rw [own_setkilled]
    exact h.tracked
  sz_le i := by
    rw [sz_setkilled]
    exact h.sz_le i

theorem VmState.view_eq (s : VmState) (hpt : (s.proc i).pagetable = some pt) (v : ℕ) :
    s.view i v = if (pt.entry v).getLsbD 0 then
      some ⟨Pte.perms (pt.entry v), s.mem.frame (pte2pa (pt.entry v) / PGSIZE)⟩ else none := by
  simp only [VmState.view, hpt]

theorem own_user_of_valid (hpt : (s.proc i).pagetable = some pt)
    (hlt : v < TRAPFRAME / PGSIZE) (hv : (pt.entry v).getLsbD 0 = true) :
    s.own (.user i v) = some (pte2pa (pt.entry v)) := by
  rw [VmState.own_eq_withTable hpt]
  simp only [withTable, if_true, user_of_valid hlt hv]

/-- A new table and memory that keep the frames in use and show the same page
everywhere in process `p` are not visible to user code. -/
theorem Unchanged.of_setTable (h : CowInv L s) (ht : Tracked L s.mem live s.own)
    (hpt : (s.proc p).pagetable = some pt)
    (hframe : ∀ q, (q, 0) ∈ live → m'.frame (q / PGSIZE) = s.mem.frame (q / PGSIZE))
    (hsame : ∀ v, v * PGSIZE < (s.proc p).sz → (pt'.entry v = pt.entry v) ∨
      ((pt.entry v).getLsbD 0 = true ∧ (pt'.entry v).getLsbD 0 = true ∧
        Pte.perms (pt'.entry v) = Pte.perms (pt.entry v) ∧
        m'.frame (pte2pa (pt'.entry v) / PGSIZE) = s.mem.frame (pte2pa (pt.entry v) / PGSIZE))) :
    Unchanged s (s.setTable p pt' m') p where
  other i hi := by simp [VmState.setTable, hi]
  state := by simp [VmState.setTable]
  sz := by simp [VmState.setTable]
  view i v hv := by
    have hlive : ∀ {pt}, (s.proc i).pagetable = some pt → (pt.entry v).getLsbD 0 = true →
        m'.frame (pte2pa (pt.entry v) / PGSIZE) = s.mem.frame (pte2pa (pt.entry v) / PGSIZE) :=
      fun hpt' hvalid => hframe _ (ht.held _ _
        (own_user_of_valid hpt' (page_lt_of_below (h.sz_le i) hv) hvalid))
    by_cases hi : i = p
    · subst hi
      have hpt' : ((s.setTable i pt' m').proc i).pagetable = some pt' := by
        simp [VmState.setTable]
      rw [VmState.view_eq _ hpt', VmState.view_eq _ hpt]
      rcases hsame v hv with heq | ⟨hv₁, hv₂, hperms, hdata⟩
      · rw [heq]
        split
        · next hvalid =>
            rw [← hlive hpt hvalid]
            rfl
        · rfl
      · rw [if_pos hv₁, if_pos hv₂, hperms, ← hdata]
        rfl
    · have hproc : (s.setTable p pt' m').proc i = s.proc i := by simp [VmState.setTable, hi]
      simp only [VmState.view, hproc]
      split
      · rfl
      · next pt₁ hpt₁ =>
          split
          · next hvalid =>
              rw [← hlive hpt₁ hvalid]
              rfl
          · rfl

theorem walk_mapped (hva : va < MAXVA) (hv : (pt.entry (va / PGSIZE)).getLsbD 0 = true) :
    walk pt va = .ok (some (pt.entry (va / PGSIZE))) := by
  rw [walk, if_neg (Nat.not_le.mpr hva), PageTable.pte?_isSome_of_valid hv]

theorem walkaddr_mapped (hva : va < MAXVA) (hv : (pt.entry (va / PGSIZE)).getLsbD 0 = true) :
    walkaddr pt va = .ok (if (pt.entry (va / PGSIZE)).getLsbD 4 then
      pte2pa (pt.entry (va / PGSIZE)) else 0) := by
  simp only [walkaddr, if_neg (Nat.not_le.mpr hva), walk_mapped hva hv, ok_bind, Pte.has_V,
    hv, Pte.has_U, Bool.not_true, Bool.false_eq_true, if_false, pure_eq]
  cases (pt.entry (va / PGSIZE)).getLsbD 4 <;> rfl

theorem cowpage_mapped (hva : va < MAXVA) (hv : (pt.entry (va / PGSIZE)).getLsbD 0 = true)
    (hF : (pt.entry (va / PGSIZE)).getLsbD 8 = true) : cowpage pt va = .ok 0 := by
  simp only [cowpage, if_neg (Nat.not_le.mpr hva), walk_mapped hva hv, ok_bind, Pte.has_V,
    hv, Pte.has_F, hF, Bool.not_true, Bool.false_eq_true, if_false, pure_eq]

/-- `cowalloc` on a mapped page, by its owner bit and its count. -/
theorem cowalloc_mapped (L : Layout) (hmod : va % PGSIZE = 0) (hva : va < MAXVA)
    (hv : (pt.entry (va / PGSIZE)).getLsbD 0 = true) (hpa : pte2pa (pt.entry (va / PGSIZE)) ≠ 0)
    (m : KMem) :
    cowalloc L (kalloc L) pt va m =
      if (pt.entry (va / PGSIZE)).getLsbD 4 then
        if m.cnt (pte2pa (pt.entry (va / PGSIZE)) / PGSIZE) = 1 then
          .ok (pte2pa (pt.entry (va / PGSIZE)),
            pt.setPte (va / PGSIZE) ((pt.entry (va / PGSIZE) ||| PTE_W) &&& ~~~PTE_F), m)
        else cowcopy L (kalloc L) pt va (pt.entry (va / PGSIZE)) m
      else .ok (0, pt, m) := by
  simp only [cowalloc, hmod, ne_eq, not_true_eq_false, if_false, walkaddr_mapped hva hv,
    ok_bind, walk_mapped hva hv, krefcnt]
  cases (pt.entry (va / PGSIZE)).getLsbD 4 with
  | false => simp
  | true =>
    simp only [if_true, hpa, if_false]
    by_cases hone : m.cnt (pte2pa (pt.entry (va / PGSIZE)) / PGSIZE) = 1
    · simp only [hone, if_true, pure_eq]
    · simp only [hone, if_false]

theorem perms_uncow (hF : pte.getLsbD 8 = true) :
    Pte.perms ((pte ||| PTE_W) &&& ~~~PTE_F) = Pte.perms pte := by
  have hW : ((pte ||| PTE_W) &&& ~~~PTE_F).getLsbD 2 = true := by simp [PTE_W, PTE_F]
  simp only [Pte.perms, getLsbD_uncow pte (show 1 ≠ 2 by decide) (by decide),
    getLsbD_uncow pte (show 4 ≠ 2 by decide) (by decide), hW, hF, Bool.true_or, Bool.or_true]

theorem perms_copied (mem : ℕ) (hF : pte.getLsbD 8 = true) :
    Pte.perms (copiedPte mem pte) = Pte.perms pte := by
  obtain ⟨-, hR, hW, hU, -⟩ := copiedPte_bits mem pte
  simp only [Pte.perms, hR, hW, hU, hF, Bool.true_or, Bool.or_true]

theorem pte2pa_copied (hmem : ¬ badPage L mem) (pte : Pte) :
    pte2pa (copiedPte mem pte) = mem := by
  rw [copiedPte, BitVec.or_assoc]
  exact pte2pa_page hmem ((flagsOnly_copied pte).or (flagsOnly_twoPow (by decide)))

/-- The process now has its own page, and may write it. -/
def Repaired (pte pte' : Pte) : Prop :=
  pte'.getLsbD 0 = true ∧ pte'.getLsbD 1 = pte.getLsbD 1 ∧ pte'.getLsbD 2 = true ∧
    pte'.getLsbD 4 = true ∧ pte'.getLsbD 8 = false

theorem repaired_uncow (hv : pte.getLsbD 0 = true) (hU : pte.getLsbD 4 = true) :
    Repaired pte ((pte ||| PTE_W) &&& ~~~PTE_F) := by
  have hkeep := fun k hW hF => getLsbD_uncow pte (k := k) hW hF
  refine ⟨?_, hkeep 1 (by decide) (by decide), by simp [PTE_W, PTE_F], ?_, by simp [PTE_F]⟩
  · rw [hkeep 0 (by decide) (by decide), hv]
  · rw [hkeep 4 (by decide) (by decide), hU]

theorem repaired_copiedPte (mem : ℕ) (hU : pte.getLsbD 4 = true) :
    Repaired pte (copiedPte mem pte) := by
  obtain ⟨hV', hR', hW', hU', hF'⟩ := copiedPte_bits mem pte
  exact ⟨hV', hR', hW', hU'.trans hU, hF'⟩

/-- The entries of a table in which a page has been replaced. -/
theorem entry_copied (hv : (pt.entry v).getLsbD 0 = true) (x y : Pte) (w : ℕ) :
    ((pt.setPte v x).setPte v y).entry w = if w = v then y else pt.entry w := by
  have hsome : (pt.pte? v).isSome := by
    rw [PageTable.pte?_isSome_of_valid hv]
    rfl
  rw [PageTable.entry_setPte (by rw [PageTable.pte?_isSome_setPte]; exact hsome),
    PageTable.entry_setPte hsome]
  split <;> rfl

/-- What the fault handler does on a mapped page below the size. -/
inductive Handled (L : Layout) (s : VmState) (p : Fin NPROC) (pte : Pte) (v : ℕ) : VmState → Prop
  | killed {s' : VmState} (hinv : CowInv L s') (hsame : Unchanged s s' p)
      (hkilled : (s'.proc p).killed = true)
      (hwhy : pte.getLsbD 8 = false ∨ pte.getLsbD 4 = false) : Handled L s p pte v s'
  | repaired {s' : VmState} {pt' : PageTable} (hinv : CowInv L s') (hsame : Unchanged s s' p)
      (hkilled : (s'.proc p).killed = (s.proc p).killed) (hF : pte.getLsbD 8 = true)
      (hU : pte.getLsbD 4 = true) (hpt' : (s'.proc p).pagetable = some pt')
      (hrep : Repaired pte (pt'.entry v)) : Handled L s p pte v s'

theorem lt_maxva {va sz : ℕ} (hsz : sz ≤ TRAPFRAME) (hva : va < sz) : va < MAXVA :=
  lt_of_lt_of_le (lt_of_lt_of_le hva hsz) (by decide)

/-- The count is one: the page is made writable where it is. -/
theorem handled_inplace (h : CowInv L s) (hpt : (s.proc p).pagetable = some pt)
    (hv : (pt.entry v).getLsbD 0 = true) (hF : (pt.entry v).getLsbD 8 = true)
    (hU : (pt.entry v).getLsbD 4 = true) :
    Handled L s p (pt.entry v) v
      (s.setTable p (pt.setPte v ((pt.entry v ||| PTE_W) &&& ~~~PTE_F)) s.mem) := by
  obtain ⟨live, ht⟩ := h.tracked
  have hsome : (pt.pte? v).isSome := by
    rw [PageTable.pte?_isSome_of_valid hv]
    rfl
  have hentry := fun w => PageTable.entry_setPte (w := w) hsome
    ((pt.entry v ||| PTE_W) &&& ~~~PTE_F)
  have hpt' : ((s.setTable p (pt.setPte v ((pt.entry v ||| PTE_W) &&& ~~~PTE_F))
      s.mem).proc p).pagetable = some (pt.setPte v ((pt.entry v ||| PTE_W) &&& ~~~PTE_F)) := by
    simp [VmState.setTable]
  refine .repaired ⟨⟨live, ?_⟩, fun i => ?_⟩ ?_ (by simp [VmState.setTable]) hF hU hpt' ?_
  · rw [VmState.own_setTable, withTable_uncow hsome, ← VmState.own_eq_withTable hpt]
    exact ht
  · rw [sz_setTable]
    exact h.sz_le i
  · refine Unchanged.of_setTable h ht hpt (fun _ _ => rfl) fun w _ => ?_
    rw [hentry]
    by_cases hw : w = v
    · subst hw
      rw [if_pos rfl]
      exact Or.inr ⟨hv, by rw [getLsbD_uncow _ (by decide) (by decide), hv], perms_uncow hF,
        by rw [pte2pa_uncow]⟩
    · rw [if_neg hw]
      exact Or.inl rfl
  · rw [hentry, if_pos rfl]
    exact repaired_uncow hv hU

/-- The count is not one: the process receives a copy. -/
theorem handled_copied {m₁ : KMem} (h : CowInv L s)
    (hpt : (s.proc p).pagetable = some pt) (hlt : v < TRAPFRAME / PGSIZE)
    (hv : (pt.entry v).getLsbD 0 = true) (hF : (pt.entry v).getLsbD 8 = true)
    (hU : (pt.entry v).getLsbD 4 = true) (halloc : kalloc L s.mem = .ok (mem, m₁)) (c : BitVec 32) :
    Handled L s p (pt.entry v) v
      (s.setTable p ((pt.setPte v (pt.entry v &&& ~~~PTE_V)).setPte v
          (copiedPte mem (pt.entry v)))
        ((m₁.copyPage mem (pte2pa (pt.entry v))).setCnt (pte2pa (pt.entry v)) c)) := by
  obtain ⟨live, ht⟩ := h.tracked
  have hentry := entry_copied hv (pt.entry v &&& ~~~PTE_V) (copiedPte mem (pt.entry v))
  obtain ⟨hnew, ht₁, hgrow, -⟩ := ht.of_kalloc halloc .hand
  have hmemOk := ht₁.heap.not_badPage (p := mem) (o := 0) List.mem_cons_self
  have hsrc := own_user_of_valid hpt hlt hv
  have hpt' : ((s.setTable p ((pt.setPte v (pt.entry v &&& ~~~PTE_V)).setPte v
      (copiedPte mem (pt.entry v))) ((m₁.copyPage mem (pte2pa (pt.entry v))).setCnt
      (pte2pa (pt.entry v)) c)).proc p).pagetable =
      some ((pt.setPte v (pt.entry v &&& ~~~PTE_V)).setPte v (copiedPte mem (pt.entry v))) := by
    simp [VmState.setTable]
  refine .repaired ⟨⟨(mem, 0) :: live, ?_⟩, fun i => ?_⟩ ?_ (by simp [VmState.setTable]) hF hU
    hpt' ?_
  · rw [VmState.own_setTable]
    have hmoved : Tracked L m₁ ((mem, 0) :: live) (withTable s.own p
        ((pt.setPte v (pt.entry v &&& ~~~PTE_V)).setPte v (copiedPte mem (pt.entry v)))) := by
      refine ht₁.mono (Equiv.swap .hand (.user p v)) (Equiv.injective _) ?_
      intro k q hk
      by_cases hkh : k = .hand
      · subst hkh
        simp [withTable, VmState.own] at hk
      · by_cases hku : k = .user p v
        · subst hku
          rw [Equiv.swap_apply_right, update_self]
          simp only [withTable, if_true, PageTable.user, hentry, pte2pa_copied hmemOk] at hk
          split at hk
          · exact hk
          · cases hk
        · rw [Equiv.swap_apply_of_ne_of_ne hkh hku, update_of_ne hkh,
            VmState.own_eq_withTable hpt]
          cases k with
          | user j w =>
            by_cases hj : j = p
            · subst hj
              have hw : w ≠ v := fun hw => hku (by rw [hw])
              simpa only [withTable, if_true, PageTable.user, hentry, if_neg hw] using hk
            · simpa [withTable, hj] using hk
          | _ => exact hk
    exact ⟨hmoved.heap, hmoved.held, hmoved.exclusive⟩
  · rw [sz_setTable]
    exact h.sz_le i
  · have hframe : ∀ q, (q, 0) ∈ live →
        ((m₁.copyPage mem (pte2pa (pt.entry v))).setCnt (pte2pa (pt.entry v)) c).frame
          (q / PGSIZE) = s.mem.frame (q / PGSIZE) :=
      (hgrow.write ht₁.heap List.mem_cons_self hnew
        (m₁.frame (pte2pa (pt.entry v) / PGSIZE))).frame
    refine Unchanged.of_setTable h ht hpt hframe fun w _ => ?_
    rw [hentry]
    by_cases hw : w = v
    · subst hw
      rw [if_pos rfl]
      refine Or.inr ⟨hv, (copiedPte_bits mem _).1, perms_copied mem hF, ?_⟩
      rw [pte2pa_copied hmemOk]
      simp only [KMem.setCnt, KMem.copyPage, update_self]
      exact hgrow.frame _ (ht.held _ _ hsrc)
    · rw [if_neg hw]
      exact Or.inl rfl
  · rw [hentry, if_pos rfl]
    exact repaired_copiedPte mem hU

theorem VmState.setTable_pagetable (s : VmState) (p : Fin NPROC) (pt : PageTable) (m : KMem) :
    ((s.setTable p pt m).proc p).pagetable = some pt := by
  simp [VmState.setTable]

theorem setTable_self (hpt : (s.proc p).pagetable = some pt) : s.setTable p pt s.mem = s := by
  simp only [VmState.setTable]
  rw [show ({ s.proc p with pagetable := some pt } : Proc) = s.proc p by rw [← hpt],
    update_eq_self]

/-- The table and the memory after a shared page has been replaced by a copy. -/
def copied (s : VmState) (p : Fin NPROC) (pt : PageTable) (v mem : ℕ) (m : KMem) : VmState :=
  s.setTable p ((pt.setPte v (pt.entry v &&& ~~~PTE_V)).setPte v (copiedPte mem (pt.entry v)))
    ((m.copyPage mem (pte2pa (pt.entry v))).setCnt (pte2pa (pt.entry v))
      (m.cnt (pte2pa (pt.entry v) / PGSIZE) - 1))

/-- The page-fault branch on a copy-on-write page below the size, which is in use. -/
theorem pageFault_flagged (h : HeapInv L ⟨s.mem.buddy, live⟩) (hpt : (s.proc p).pagetable = some pt)
    (hmax : va < MAXVA) (hva : va < (s.proc p).sz) (hv : (pt.entry (va / PGSIZE)).getLsbD 0 = true)
    (hF : (pt.entry (va / PGSIZE)).getLsbD 8 = true)
    (hlive : (pte2pa (pt.entry (va / PGSIZE)), 0) ∈ live) :
    pageFault L (kalloc L) p va s =
      if (pt.entry (va / PGSIZE)).getLsbD 4 then
        if s.mem.cnt (pte2pa (pt.entry (va / PGSIZE)) / PGSIZE) = 1 then
          .ok (s.setTable p (pt.setPte (va / PGSIZE)
            ((pt.entry (va / PGSIZE) ||| PTE_W) &&& ~~~PTE_F)) s.mem)
        else kalloc L s.mem >>= fun r => .ok (copied s p pt (va / PGSIZE) r.1 r.2)
      else .ok (setkilled p s) := by
  have hok := h.not_badPage hlive
  have hmod : pgrounddown va % PGSIZE = 0 := Nat.mul_mod_left _ _
  have hdown : pgrounddown va < MAXVA := lt_of_le_of_lt (Nat.div_mul_le_self va PGSIZE) hmax
  have hpa : pte2pa (pt.entry (va / PGSIZE)) ≠ 0 := by
    intro hzero
    have hbase := L.base_le
    simp only [badPage, not_or, not_not, not_lt] at hok
    rw [hzero] at hok
    have hpos : 0 < KERNBASE := by decide
    omega
  have hdownv : (pt.entry (pgrounddown va / PGSIZE)).getLsbD 0 = true := by
    rw [pgrounddown_div, hv]
  have hcow := cowalloc_mapped L hmod hdown hdownv (by rw [pgrounddown_div]; exact hpa) s.mem
  rw [pgrounddown_div] at hcow
  simp only [pageFault, hpt, walk_mapped hmax hv, ok_bind, Pte.has_V, hv, Bool.not_true,
    Bool.false_eq_true, if_false, Pte.has_F, hF, if_true, if_neg (Nat.not_le.mpr hva),
    cowpage_mapped hmax hv hF, ne_eq, not_true_eq_false, hcow]
  cases hU : (pt.entry (va / PGSIZE)).getLsbD 4 with
  | false => simp [setTable_self hpt]
  | true =>
    simp only [if_true]
    by_cases hone : s.mem.cnt (pte2pa (pt.entry (va / PGSIZE)) / PGSIZE) = 1
    · simp only [hone, if_true, ok_bind, hpa, if_false, pure_eq]
    · simp only [hone, if_false]
      cases halloc : kalloc L s.mem with
      | error e => simp only [cowcopy, halloc, error_bind]
      | ok r =>
        obtain ⟨mem, m₁⟩ := r
        have ht : Tracked L s.mem live fun _ : Unit => none :=
          ⟨h, by simp, by simp [Ownership.Exclusive]⟩
        have hcnt : m₁.cnt (pte2pa (pt.entry (va / PGSIZE)) / PGSIZE) ≠ 1 := by
          rw [(ht.of_kalloc halloc ()).2.2.1.cnt _ hlive]
          exact hone
        have hsome : (pt.pte? (pgrounddown va / PGSIZE)).isSome := by
          rw [pgrounddown_div, PageTable.pte?_isSome_of_valid hv]
          rfl
        have heq := cowcopy_eq hmod hdown hsome hok halloc hcnt
        rw [pgrounddown_div] at heq
        have hne : ¬ mem = 0 := kalloc_ne_null halloc
        simp only [heq, ok_bind, hne, if_false, pure_eq]
        rfl

/-- A mapped page that is not shared ends the process. -/
theorem pageFault_unflagged (hpt : (s.proc p).pagetable = some pt) (hmax : va < MAXVA)
    (hv : (pt.entry (va / PGSIZE)).getLsbD 0 = true)
    (hF : (pt.entry (va / PGSIZE)).getLsbD 8 = false) :
    pageFault L (kalloc L) p va s = .ok (setkilled p s) := by
  simp only [pageFault, hpt, walk_mapped hmax hv, ok_bind, Pte.has_V, hv, Bool.not_true,
    Bool.false_eq_true, if_false, Pte.has_F, hF, pure_eq]

/-- The page-fault branch on a mapped page below the size: it runs out of pages,
or kills the process for good reason, or repairs the page. -/
theorem pageFault_mapped (h : CowInv L s) (hpt : (s.proc p).pagetable = some pt)
    (hva : va < (s.proc p).sz) (hv : (pt.entry (va / PGSIZE)).getLsbD 0 = true) :
    pageFault L (kalloc L) p va s = .error .nullStore ∨
      ∃ s', pageFault L (kalloc L) p va s = .ok s' ∧
        Handled L s p (pt.entry (va / PGSIZE)) (va / PGSIZE) s' := by
  obtain ⟨live, ht⟩ := h.tracked
  have hmax := lt_maxva (h.sz_le p) hva
  have hkill : (pt.entry (va / PGSIZE)).getLsbD 8 = false ∨
      (pt.entry (va / PGSIZE)).getLsbD 4 = false →
      Handled L s p (pt.entry (va / PGSIZE)) (va / PGSIZE) (setkilled p s) := fun hwhy =>
    .killed (h.of_setkilled p) (Unchanged.setkilled s p) (by simp [setkilled, VmState.setProc]) hwhy
  cases hF : (pt.entry (va / PGSIZE)).getLsbD 8 with
  | false => exact Or.inr ⟨_, pageFault_unflagged hpt hmax hv hF, hkill (Or.inl hF)⟩
  | true =>
    have hlt : va / PGSIZE < TRAPFRAME / PGSIZE :=
      page_lt_of_below (h.sz_le p) (lt_of_le_of_lt (Nat.div_mul_le_self va PGSIZE) hva)
    rw [pageFault_flagged ht.heap hpt hmax hva hv hF (ht.held _ _ (own_user_of_valid hpt hlt hv))]
    cases hU : (pt.entry (va / PGSIZE)).getLsbD 4 with
    | false => exact Or.inr ⟨_, rfl, hkill (Or.inr hU)⟩
    | true =>
      by_cases hone : s.mem.cnt (pte2pa (pt.entry (va / PGSIZE)) / PGSIZE) = 1
      · simp only [if_true, hone]
        exact Or.inr ⟨_, rfl, handled_inplace h hpt hv hF hU⟩
      · simp only [if_true, hone, if_false]
        cases halloc : kalloc L s.mem with
        | error e =>
          rw [kalloc_error ht halloc]
          exact Or.inl rfl
        | ok r =>
          obtain ⟨mem, m₁⟩ := r
          exact Or.inr ⟨_, rfl, handled_copied h hpt hlt hv hF hU halloc
            (m₁.cnt (pte2pa (pt.entry (va / PGSIZE)) / PGSIZE) - 1)⟩

/-! ## Accesses -/

/-- Whether an access to a page is legal, counting a pending copy as writable. -/
def Access.allowed (acc : Access) (perms : Perms) : Bool :=
  perms.user &&
    match acc with
    | .load => perms.readable
    | .store => perms.writable

/-- The access ends with the page the table shows when it is allowed, and kills
the process when it is not. -/
structure Answered (L : Layout) (acc : Access) (s : VmState) (p : Fin NPROC) (pte : Pte) (v : ℕ)
    (r : Attempt) (s' : VmState) : Prop where
  inv : CowInv L s'
  same : Unchanged s s' p
  allowed : acc.allowed (Pte.perms pte) = true → ∃ pt', (s'.proc p).pagetable = some pt' ∧
    (pt'.entry v).getLsbD 0 = true ∧ r = .done (pte2pa (pt'.entry v))
  denied : acc.allowed (Pte.perms pte) = false → r = .killed

theorem Access.allowed_of_permits (h : acc.permits pte = true) :
    acc.allowed (Pte.perms pte) = true := by
  cases acc <;> simp_all [Access.permits, Access.allowed, Pte.perms]

theorem attempt_permitted {va n : ℕ} (h : CowInv L s) (hpt : (s.proc p).pagetable = some pt)
    (hperm : acc.permits (pt.entry (va / PGSIZE)) = true) :
    ∃ r, attempt L acc p va (n + 1) s = .ok (r, s) ∧
      Answered L acc s p (pt.entry (va / PGSIZE)) (va / PGSIZE) r s := by
  refine ⟨.done (pte2pa (pt.entry (va / PGSIZE))), ?_, h, Unchanged.refl s p, fun _ => ?_,
    fun hno => ?_⟩
  · simp only [attempt, hpt, hperm, if_true]
  · have hv : (pt.entry (va / PGSIZE)).getLsbD 0 = true := by
      simp only [Access.permits, Bool.and_eq_true] at hperm
      exact hperm.1.1
    exact ⟨pt, hpt, hv, rfl⟩
  · rw [Access.allowed_of_permits hperm] at hno
    cases hno

/-- A refused access without a pending copy on a user page is illegal. -/
theorem Access.denied_of_not_permits (hv : pte.getLsbD 0 = true) (h : acc.permits pte = false)
    (hwhy : pte.getLsbD 8 = false ∨ pte.getLsbD 4 = false) :
    acc.allowed (Pte.perms pte) = false := by
  cases acc <;> rcases hwhy with hwhy | hwhy <;>
    simp_all [Access.permits, Access.allowed, Pte.perms]

theorem attempt_fault {va n : ℕ} {s₁ : VmState} (hpt : (s.proc p).pagetable = some pt)
    (hperm : acc.permits (pt.entry (va / PGSIZE)) = false)
    (hfault : pageFault L (kalloc L) p va s = .ok s₁) :
    attempt L acc p va (n + 1) s =
      if (s₁.proc p).killed then .ok (.killed, s₁) else attempt L acc p va n s₁ := by
  simp only [attempt, hpt, hperm, Bool.false_eq_true, if_false, hfault, ok_bind,
    pure_eq]

/-- Three attempts always settle an access. -/
theorem attempt_answered (acc : Access) (h : CowInv L s) (hkilled : (s.proc p).killed = false)
    (hpt : (s.proc p).pagetable = some pt) (hva : va < (s.proc p).sz)
    (hv : (pt.entry (va / PGSIZE)).getLsbD 0 = true) :
    attempt L acc p va maxAttempts s = .error .nullStore ∨
      ∃ r s', attempt L acc p va maxAttempts s = .ok (r, s') ∧
        Answered L acc s p (pt.entry (va / PGSIZE)) (va / PGSIZE) r s' := by
  cases hperm : acc.permits (pt.entry (va / PGSIZE)) with
  | true =>
    obtain ⟨r, hr, hans⟩ := attempt_permitted (L := L) (n := 2) h hpt hperm
    exact Or.inr ⟨r, s, hr, hans⟩
  | false =>
    rcases pageFault_mapped h hpt hva hv with herr | ⟨s₁, hs₁, hhandled⟩
    · left
      simp only [maxAttempts, attempt, hpt, hperm, Bool.false_eq_true, if_false, herr,
        error_bind]
    · have hstep := attempt_fault (n := 2) hpt hperm hs₁
      cases hhandled with
      | killed hinv hsame hdead hwhy =>
        refine Or.inr ⟨.killed, s₁, ?_, hinv, hsame, fun hyes => ?_, fun _ => rfl⟩
        · rw [maxAttempts, hstep, hdead, if_pos rfl]
        · rw [Access.denied_of_not_permits hv hperm hwhy] at hyes
          cases hyes
      | @repaired pt₁ hinv hsame hlive hF hU hpt₁ hrep =>
        obtain ⟨hv₁, hR₁, hW₁, hU₁, hF₁⟩ := hrep
        rw [hkilled] at hlive
        rw [hlive] at hstep
        simp only [Bool.false_eq_true, if_false] at hstep
        rw [maxAttempts, hstep]
        cases hperm₁ : acc.permits (pt₁.entry (va / PGSIZE)) with
        | true =>
          obtain ⟨r, hr, hans⟩ := attempt_permitted (L := L) (n := 1) hinv hpt₁ hperm₁
          refine Or.inr ⟨r, s₁, hr, hans.inv, hsame, fun _ => ?_, fun hno => ?_⟩
          · exact hans.allowed (Access.allowed_of_permits hperm₁)
          · have hyes := Access.allowed_of_permits hperm₁
            cases acc <;> simp_all [Access.allowed, Pte.perms]
        | false =>
          rcases pageFault_mapped hinv hpt₁ (by rw [hsame.sz]; exact hva) hv₁ with
            herr | ⟨s₂, hs₂, hhandled₂⟩
          · left
            simp only [attempt, hpt₁, hperm₁, Bool.false_eq_true, if_false, herr,
              error_bind]
          · have hstep₂ := attempt_fault (n := 1) hpt₁ hperm₁ hs₂
            cases hhandled₂ with
            | killed hinv₂ hsame₂ hdead₂ hwhy₂ =>
              refine Or.inr ⟨.killed, s₂, ?_, hinv₂, hsame.trans hsame₂, fun hyes => ?_,
                fun _ => rfl⟩
              · rw [hstep₂, hdead₂, if_pos rfl]
              · cases acc <;> simp_all [Access.permits, Access.allowed, Pte.perms]
            | repaired hinv₂ hsame₂ hlive₂ hF₂ =>
              rw [hF₁] at hF₂
              cases hF₂

end LearnOS
