import LearnOS.Vm.LazyAlloc

/-!
# The size of a process and its mappings

`sys_sbrk` grows by recording a size and shrinks by unmapping pages; the size itself
is not lowered. Calls of `sbrk` and page faults keep size and mappings in step exactly
as long as no call shrinks and no fault hits the page that starts at the size.
-/

namespace LearnOS

open Transition Function Kres

variable {L : Layout} {s s' : VmState} {p : Fin NPROC} {pt pt' : PageTable} {m m' : KMem}
  {live : List (ℕ × ℕ)} {va : ℕ}

/-- A call with the `int` it is given and its result, or a page fault. -/
inductive BreakOp where
  | sbrk (p : Fin NPROC) (n r : ℤ)
  | fault (p : Fin NPROC) (va : ℕ)

inductive BreakStep (L : Layout) : VmState → BreakOp → VmState → Prop
  | sbrk {s s' : VmState} {p : Fin NPROC} {n r : ℤ} (hrun : Running s p) (hlow : -2 ^ 31 ≤ n)
      (hhigh : n < 2 ^ 31) (hcall : sysSbrk L p n s = .ok (r, s')) : BreakStep L s (.sbrk p n r) s'
  | fault {s s' : VmState} {p : Fin NPROC} {va : ℕ} (hrun : Running s p)
      (hcall : usertrapFault L (kalloc L) p va s = .ok s') : BreakStep L s (.fault p va) s'

/-- No page from the size of a process on is mapped below the shared-memory window. -/
def InStep (s : VmState) : Prop :=
  ∀ i v, pgroundup (s.proc i).sz ≤ v * PGSIZE → v * PGSIZE < HEAPTOP → s.view i v = none

/-- What a call or a fault should do. A page that `sbrk` has released is unmapped, by
`InStep`, so it comes back through a fault and reads as zero. -/
def BreakLaw (s : VmState) : BreakOp → VmState → Prop
  | .sbrk p n r, s' =>
    (r ≠ -1 → r = (s.proc p).sz ∧ ((s'.proc p).sz : ℤ) = (s.proc p).sz + n) ∧
      (r = -1 → s' = s) ∧ InStep s'
  | .fault p _, s' =>
    InStep s' ∧ ∀ v page, s.view p v = none → s'.view p v = some page → page.data = fun _ => 0

/-- The fault gives the process a page. -/
def LazyHit (s : VmState) (p : Fin NPROC) (va : ℕ) : Prop :=
  s.view p (va / PGSIZE) = none ∧ (s.proc p).ustackTop ≤ pgrounddown va ∧
    pgrounddown va ≤ (s.proc p).sz

/-- The size does not overflow, a negative number is refused, and no page is added at
the size. -/
def KeepsStep (s : VmState) : BreakOp → Prop
  | .sbrk p n _ =>
    (0 < n → ((s.proc p).sz : ℤ) + n < 2 ^ 64) ∧ (n < 0 → (s.proc p).sz ≤ negAsUint64 n)
  | .fault p va => ¬ (LazyHit s p va ∧ pgrounddown va = (s.proc p).sz ∧ pgrounddown va < HEAPTOP)

/-! ## A page fault -/

theorem view_eq_none (hpt : (s.proc p).pagetable = some pt) (v : ℕ) :
    s.view p v = none ↔ (pt.entry v).getLsbD 0 = false := by
  rw [VmState.view_eq s hpt]
  cases (pt.entry v).getLsbD 0 <;> simp

theorem view_setTable_self (s : VmState) (p : Fin NPROC) (pt : PageTable) (m : KMem) (v : ℕ) :
    (s.setTable p pt m).view p v = if (pt.entry v).getLsbD 0 then
      some ⟨Pte.perms (pt.entry v), m.frame (pte2pa (pt.entry v) / PGSIZE)⟩ else none := by
  have hpt : ((s.setTable p pt m).proc p).pagetable = some pt := by simp [VmState.setTable]
  rw [VmState.view_eq _ hpt]
  rfl

theorem view_setTable_of_ne {i : Fin NPROC} (hi : i ≠ p) (v : ℕ) :
    (s.setTable p pt m).view i v = none ↔ s.view i v = none := by
  have hproc : (s.setTable p pt m).proc i = s.proc i := by simp [VmState.setTable, hi]
  simp only [VmState.view, hproc]
  cases (s.proc i).pagetable with
  | none => simp
  | some table => cases (table.entry v).getLsbD 0 <;> simp

theorem view_setkilled (s : VmState) (p i : Fin NPROC) (v : ℕ) :
    (setkilled p s).view i v = s.view i v := by
  by_cases hi : i = p
  · subst hi
    simp [VmState.view, setkilled, VmState.setProc]
  · simp [VmState.view, setkilled, VmState.setProc, hi]

/-- What the handler does to the pages of the processes. -/
structure FaultEffect (L : Layout) (s : VmState) (p : Fin NPROC) (va : ℕ) (s' : VmState) :
    Prop where
  heap : ∃ live, HeapInv L ⟨s'.mem.buddy, live⟩
  sz : ∀ i, (s'.proc i).sz = (s.proc i).sz
  kept : ∀ i v, ¬ (i = p ∧ v = va / PGSIZE ∧ LazyHit s p va) →
    (s'.view i v = none ↔ s.view i v = none)
  mapped : LazyHit s p va → ∃ perms, s'.view p (va / PGSIZE) = some ⟨perms, fun _ => 0⟩

theorem FaultEffect.setkilled (h : FaultEffect L s p va s') :
    FaultEffect L s p va (setkilled p s') where
  heap := h.heap
  sz i := (sz_setkilled ..).trans (h.sz i)
  kept i v hno := by
    rw [view_setkilled]
    exact h.kept i v hno
  mapped hhit := by
    rw [view_setkilled]
    exact h.mapped hhit

/-- A table with the same valid pages, where the fault gives no page. -/
theorem faultEffect_kept (hpt : (s.proc p).pagetable = some pt) (hno : ¬ LazyHit s p va)
    (hvalid : ∀ v, (pt'.entry v).getLsbD 0 = (pt.entry v).getLsbD 0)
    (hheap : ∃ live, HeapInv L ⟨m'.buddy, live⟩) :
    FaultEffect L s p va (s.setTable p pt' m') where
  heap := hheap
  sz i := sz_setTable s p i pt' m'
  kept i v _ := by
    by_cases hi : i = p
    · subst hi
      rw [view_eq_none hpt, view_setTable_self, ← hvalid]
      cases (pt'.entry v).getLsbD 0 <;> simp
    · exact view_setTable_of_ne hi v
  mapped hhit := absurd hhit hno

theorem faultEffect_unchanged (hpt : (s.proc p).pagetable = some pt) (hno : ¬ LazyHit s p va)
    (h : HeapInv L ⟨s.mem.buddy, live⟩) : FaultEffect L s p va s := by
  have heffect := faultEffect_kept hpt hno (fun _ => rfl) ⟨live, h⟩
  rwa [setTable_self hpt] at heffect

/-- The lazy branch of the handler. -/
theorem lazy_effect (h : HeapInv L ⟨s.mem.buddy, live⟩) (hpt : (s.proc p).pagetable = some pt)
    (hmax : va < MAXVA) (hlevels : (pt.pte? (va / PGSIZE)).isSome)
    (hv : (pt.entry (va / PGSIZE)).getLsbD 0 = false) {r : ℤ}
    (hcall : uvlazyalloc L (kalloc L) pt va (s.proc p).sz (s.proc p).ustackTop s.mem =
      .ok (r, pt', m')) : FaultEffect L s p va (s.setTable p pt' m') := by
  have hnone : s.view p (va / PGSIZE) = none := (view_eq_none hpt _).mpr hv
  have halloc : ∃ mem m₁, kalloc L s.mem = .ok (mem, m₁) := by
    simp only [uvlazyalloc, bind_eq_ok] at hcall
    obtain ⟨⟨mem, m₁⟩, halloc, -⟩ := hcall
    exact ⟨mem, m₁, halloc⟩
  obtain ⟨mem, m₁, halloc⟩ := halloc
  have h₁ := h.kalloc halloc
  by_cases hrange : (s.proc p).ustackTop ≤ pgrounddown va ∧ pgrounddown va ≤ (s.proc p).sz
  · rw [uvlazyalloc_existing halloc hrange hmax hlevels hv] at hcall
    cases hcall
    have hentry := fun v => PageTable.entry_setPte (w := v) hlevels (lazyPte mem)
    have hmem := h₁.not_badPage (p := mem) (o := 0) List.mem_cons_self
    refine ⟨⟨_, h₁⟩, fun i => sz_setTable s p i _ _, fun i v hno => ?_, fun _ => ?_⟩
    · by_cases hi : i = p
      · subst hi
        have hne : v ≠ va / PGSIZE := fun heq => hno ⟨rfl, heq, hnone, hrange⟩
        rw [view_eq_none hpt, view_setTable_self, hentry, if_neg hne]
        cases (pt.entry v).getLsbD 0 <;> simp
      · exact view_setTable_of_ne hi v
    · rw [view_setTable_self, hentry, if_pos rfl, if_pos (by simp [lazyPte, PTE_V]),
        pte2pa_lazyPte hmem]
      exact ⟨_, by simp [KMem.memset]; rfl⟩
  · rw [uvlazyalloc_refused halloc hrange] at hcall
    cases hcall
    exact faultEffect_kept hpt (fun hhit => hrange hhit.2) (fun _ => rfl) ⟨_, h₁⟩

/-- `kfree` after a copy: the page is shared, or it is the one just taken. -/
theorem cowcopy_heap (h : HeapInv L ⟨m.buddy, live⟩) (hmod : va % PGSIZE = 0) (hva : va < MAXVA)
    (hv : (pt.entry (va / PGSIZE)).getLsbD 0 = true)
    (hcnt : m.cnt (pte2pa (pt.entry (va / PGSIZE)) / PGSIZE) ≠ 1) {page : ℕ}
    (hcall : cowcopy L (kalloc L) pt va (pt.entry (va / PGSIZE)) m = .ok (page, pt', m')) :
    (∀ v, (pt'.entry v).getLsbD 0 = (pt.entry v).getLsbD 0) ∧
      ∃ live, HeapInv L ⟨m'.buddy, live⟩ := by
  have hsome : (pt.pte? (va / PGSIZE)).isSome := by
    rw [PageTable.pte?_isSome_of_valid hv]
    rfl
  have hsome' : ((pt.setPte (va / PGSIZE) (pt.entry (va / PGSIZE) &&& ~~~PTE_V)).pte?
      (va / PGSIZE)).isSome := by
    rw [PageTable.pte?_isSome_setPte]
    exact hsome
  have hclear : ((pt.setPte (va / PGSIZE) (pt.entry (va / PGSIZE) &&& ~~~PTE_V)).entry
      (va / PGSIZE)).getLsbD 0 = false := by
    rw [PageTable.entry_setPte hsome, if_pos rfl]
    simp [PTE_V]
  simp only [cowcopy, bind_eq_ok] at hcall
  obtain ⟨⟨mem, m₁⟩, halloc, hcall⟩ := hcall
  simp only [if_neg (kalloc_ne_null halloc), mappages_existing (kalloc L) hmod hva hsome' hclear,
    ok_bind, ne_eq, not_true_eq_false, if_false, bind_eq_ok] at hcall
  obtain ⟨m₂, hfree, hcall⟩ := hcall
  obtain ⟨-, rfl, rfl⟩ : mem = page ∧ _ = pt' ∧ m₂ = m' := by
    simpa only [pure_eq_ok, Prod.mk.injEq] using hcall
  refine ⟨fun v => ?_, ?_⟩
  · rw [PageTable.entry_setPte hsome', PageTable.entry_setPte hsome]
    by_cases hvv : v = va / PGSIZE
    · rw [if_pos hvv, hvv, hv]
      simp [PTE_V]
    · rw [if_neg hvv, if_neg hvv]
  · have hround : pgrounddown (pte2pa (pt.entry (va / PGSIZE))) = pte2pa (pt.entry (va / PGSIZE)) :=
      Nat.div_mul_cancel (Nat.dvd_of_mod_eq_zero (pte2pa_mod _))
    rw [hround] at hfree
    have h₁ := h.kalloc halloc
    refine HeapInv.kfree (m := m₁.copyPage mem _) h₁ (fun hone => ?_) hfree
    have hframe : pte2pa (pt.entry (va / PGSIZE)) / PGSIZE = mem / PGSIZE := by
      by_contra hne
      exact hcnt ((kalloc_cnt halloc hne).symm.trans hone)
    have hmem := h₁.not_badPage (p := mem) (o := 0) List.mem_cons_self
    simp only [badPage, not_or, not_not] at hmem
    have heq : pte2pa (pt.entry (va / PGSIZE)) = mem := by
      rw [← Nat.div_add_mod mem PGSIZE, ← hframe, hmem.1, ← pte2pa_mod (pt.entry (va / PGSIZE)),
        Nat.div_add_mod]
    rw [heq]
    exact List.mem_cons_self

theorem cowalloc_heap (h : HeapInv L ⟨m.buddy, live⟩) (hva : va < MAXVA) {page : ℕ}
    (hcall : cowalloc L (kalloc L) pt (pgrounddown va) m = .ok (page, pt', m')) :
    (∀ v, (pt'.entry v).getLsbD 0 = (pt.entry v).getLsbD 0) ∧
      ∃ live, HeapInv L ⟨m'.buddy, live⟩ := by
  rcases cowalloc_cases hcall with ⟨-, rfl, rfl⟩ | ⟨hmod, hsome, hv, -, hbranch⟩
  · exact ⟨fun _ => rfl, live, h⟩
  · rcases hbranch with ⟨-, -, rfl, rfl⟩ | ⟨hcnt, hcopy⟩
    · refine ⟨fun v => ?_, live, h⟩
      rw [PageTable.entry_setPte hsome]
      by_cases hvv : v = pgrounddown va / PGSIZE
      · rw [if_pos hvv, hvv, getLsbD_uncow _ (by decide) (by decide)]
      · rw [if_neg hvv]
    · exact cowcopy_heap h hmod (pgrounddown_lt_maxva.mpr hva) hv hcnt hcopy

/-- The handler gives a page exactly on a lazy hit, and takes none away. -/
theorem pageFault_effect (h : HeapInv L ⟨s.mem.buddy, live⟩)
    (hcall : pageFault L (kalloc L) p va s = .ok s') : FaultEffect L s p va s' := by
  unfold pageFault at hcall
  split at hcall
  · cases hcall
  next pt hpt =>
  simp only [bind_eq_ok] at hcall
  obtain ⟨pte, hwalk, hcall⟩ := hcall
  cases pte with
  | none => cases hcall
  | some pte =>
    obtain ⟨hmax, hlevels, rfl⟩ := walk_valid hwalk
    simp only [Pte.has_V, Pte.has_F] at hcall
    cases hv : (pt.entry (va / PGSIZE)).getLsbD 0 with
    | false =>
      simp only [hv, Bool.not_false, if_true, bind_eq_ok, pure_eq_ok] at hcall
      obtain ⟨⟨r, pt', m'⟩, hlazy, rfl⟩ := hcall
      have heffect := lazy_effect h hpt hmax hlevels hv hlazy
      split
      · exact heffect.setkilled
      · exact heffect
    | true =>
      have hno : ¬ LazyHit s p va := by
        rintro ⟨hnone, -⟩
        rw [view_eq_none hpt, hv] at hnone
        cases hnone
      have hkilled := (faultEffect_unchanged hpt hno h).setkilled
      simp only [hv, Bool.not_true, Bool.false_eq_true, if_false] at hcall
      split at hcall
      · split at hcall
        · cases hcall
          exact hkilled
        simp only [bind_eq_ok] at hcall
        obtain ⟨r, -, hcall⟩ := hcall
        split at hcall
        · cases hcall
          exact hkilled
        simp only [bind_eq_ok, pure_eq_ok] at hcall
        obtain ⟨⟨page, pt', m'⟩, hcow, rfl⟩ := hcall
        have heffect : FaultEffect L s p va (s.setTable p pt' m') := by
          obtain ⟨hvalid, hheap⟩ := cowalloc_heap h hmax hcow
          exact faultEffect_kept hpt hno hvalid hheap
        split
        · exact heffect.setkilled
        · exact heffect
      · cases hcall
        exact hkilled

theorem exit_view (hcall : exit p s = .ok s') (i : Fin NPROC) (v : ℕ) :
    s'.view i v = s.view i v := by
  have htable : ∀ pr : Proc, (reparent p s.initproc pr).pagetable = pr.pagetable := fun pr => by
    rw [reparent]
    split <;> rfl
  unfold exit at hcall
  split at hcall
  · cases hcall
  · cases hcall
    by_cases hi : i = p
    · simp only [VmState.view, if_pos hi, htable]
    · simp only [VmState.view, if_neg hi, htable]

theorem usertrapFault_effect (h : HeapInv L ⟨s.mem.buddy, live⟩)
    (hcall : usertrapFault L (kalloc L) p va s = .ok s') : FaultEffect L s p va s' := by
  simp only [usertrapFault, bind_eq_ok] at hcall
  obtain ⟨s₁, hfault, hcall⟩ := hcall
  have heffect := pageFault_effect h hfault
  split at hcall
  · obtain ⟨hmem, -, hsz⟩ := own_exit hcall
    refine ⟨?_, fun i => (hsz i).trans (heffect.sz i), fun i v hno => ?_, fun hhit => ?_⟩
    · rw [hmem]
      exact heffect.heap
    · rw [exit_view hcall]
      exact heffect.kept i v hno
    · rw [exit_view hcall]
      exact heffect.mapped hhit
  · cases hcall
    exact heffect

/-! ## Steps and runs -/

/-- The allocator's invariant, and sizes that are words and in step with the mappings. -/
structure BreakInv (L : Layout) (s : VmState) : Prop where
  word : ∀ i, (s.proc i).sz < 2 ^ 64
  heap : ∃ live, HeapInv L ⟨s.mem.buddy, live⟩
  step : InStep s

theorem sysSbrk_nonpos {n r : ℤ} (hn : n ≤ 0) (hcall : sysSbrk L p n s = .ok (r, s')) :
    ((s.proc p).sz ≤ negAsUint64 n ∧ r = -1 ∧ s' = s) ∨
      (negAsUint64 n < (s.proc p).sz ∧ r = (s.proc p).sz ∧
        ∃ pt pt' m' r', (s.proc p).pagetable = some pt ∧
          uvmdealloc L pt (s.proc p).sz (addInt (s.proc p).sz n) s.mem = .ok (r', pt', m') ∧
          s' = s.setTable p pt' m') := by
  simp only [sysSbrk, if_neg (not_lt.mpr hn)] at hcall
  split at hcall
  · next hlt =>
      right
      split at hcall
      · cases hcall
      · next pt hpt =>
          simp only [bind_eq_ok, pure_eq_ok, Prod.mk.injEq] at hcall
          obtain ⟨⟨r', pt', m'⟩, hdealloc, rfl, rfl⟩ := hcall
          exact ⟨hlt, rfl, pt, pt', m', r', hpt, hdealloc, rfl⟩
  · next hle =>
      cases hcall
      exact Or.inl ⟨not_lt.mp hle, rfl, rfl⟩

theorem pgroundup_mono {a b : ℕ} (h : a ≤ b) : pgroundup a ≤ pgroundup b :=
  Nat.mul_le_mul_right _ (Nat.div_le_div_right (by omega))

theorem InStep.setProc (h : InStep s) (sz : ℕ) (hle : (s.proc p).sz ≤ sz) :
    InStep (s.setProc p { s.proc p with sz := sz }) := by
  intro i v hlow hhigh
  by_cases hi : i = p
  · subst hi
    simp only [VmState.setProc, update_self] at hlow
    have hview := h i v ((pgroundup_mono hle).trans hlow) hhigh
    simpa [VmState.view, VmState.setProc] using hview
  · have hproc : (s.setProc p { s.proc p with sz := sz }).proc i = s.proc i := by
      simp [VmState.setProc, hi]
    rw [hproc] at hlow
    have hview := h i v hlow hhigh
    simp only [VmState.view, hproc]
    exact hview

/-- A step that meets the condition obeys the law and leaves size and mappings in step. -/
theorem breakStep_keeps {op : BreakOp} (h : BreakInv L s) (hok : KeepsStep s op)
    (hstep : BreakStep L s op s') : BreakLaw s op s' ∧ BreakInv L s' := by
  cases hstep with
  | @sbrk _ p n r hrun hlow hhigh hcall =>
    rcases lt_or_ge 0 n with hn | hn
    · have hfit := hok.1 hn
      simp only [sysSbrk, if_pos hn] at hcall
      cases hcall
      have hsz : ((s.proc p).sz + n.toNat) % 2 ^ 64 = (s.proc p).sz + n.toNat :=
        Nat.mod_eq_of_lt (by omega)
      have hself : ((s.setProc p
          { s.proc p with sz := ((s.proc p).sz + n.toNat) % 2 ^ 64 }).proc p).sz =
            (s.proc p).sz + n.toNat := by
        simp only [VmState.setProc, update_self, hsz]
      have hstep := h.step.setProc (p := p) (((s.proc p).sz + n.toNat) % 2 ^ 64) (by omega)
      refine ⟨⟨fun _ => ⟨rfl, ?_⟩, fun hr => ?_, hstep⟩, fun i => ?_, h.heap, hstep⟩
      · rw [hself]
        omega
      · omega
      · by_cases hi : i = p
        · rw [hi, hself]
          omega
        · simpa [VmState.setProc, hi] using h.word i
    · rcases sysSbrk_nonpos hn hcall with ⟨-, rfl, rfl⟩ |
        ⟨hlt, rfl, pt, pt', m', r', hpt, hdealloc, rfl⟩
      · exact ⟨⟨fun hr => absurd rfl hr, fun _ => rfl, h.step⟩, h⟩
      · have hzero : n = 0 := by
          by_contra hne
          exact absurd (hok.2 (by omega)) (not_le.mpr hlt)
        subst hzero
        have hself : addInt (s.proc p).sz 0 = (s.proc p).sz := by
          have hword := h.word p
          simp only [addInt]
          omega
        simp only [hself, uvmdealloc, ge_iff_le, le_refl, if_true, pure_eq_ok,
          Prod.mk.injEq] at hdealloc
        obtain ⟨-, rfl, rfl⟩ := hdealloc
        rw [setTable_self hpt]
        exact ⟨⟨fun _ => ⟨rfl, (add_zero _).symm⟩, fun _ => rfl, h.step⟩, h⟩
  | @fault _ p va hrun hcall =>
    obtain ⟨live, hheap⟩ := h.heap
    have heffect := usertrapFault_effect hheap hcall
    have hstep : InStep s' := by
      intro i v hlow hhigh
      rw [heffect.sz] at hlow
      have hold := h.step i v hlow hhigh
      by_cases hhit : i = p ∧ v = va / PGSIZE ∧ LazyHit s p va
      · exfalso
        obtain ⟨rfl, rfl, hhit⟩ := hhit
        have hround : (s.proc i).sz ≤ pgroundup (s.proc i).sz := by
          simp only [pgroundup, PGSIZE]
          omega
        have hpage : va / PGSIZE * PGSIZE = pgrounddown va := rfl
        rw [hpage] at hlow hhigh
        exact hok ⟨hhit, le_antisymm hhit.2.2 (hround.trans hlow), hhigh⟩
      · exact (heffect.kept i v hhit).mpr hold
    refine ⟨⟨hstep, fun v page hnone hpage => ?_⟩, fun i => ?_, heffect.heap, hstep⟩
    swap
    · rw [heffect.sz]
      exact h.word i
    by_cases hhit : v = va / PGSIZE ∧ LazyHit s p va
    · obtain ⟨rfl, hhit⟩ := hhit
      obtain ⟨perms, hview⟩ := heffect.mapped hhit
      rw [hview] at hpage
      cases hpage
      rfl
    · rw [(heffect.kept p v fun hpv => hhit hpv.2).mpr hnone] at hpage
      cases hpage

/-- A step that obeys the law meets the condition. -/
theorem breakStep_law {op : BreakOp} (h : BreakInv L s) (hstep : BreakStep L s op s')
    (hlaw : BreakLaw s op s') : KeepsStep s op := by
  cases hstep with
  | @sbrk _ p n r hrun hlow hhigh hcall =>
    refine ⟨fun hn => ?_, fun hn => ?_⟩
    · simp only [sysSbrk, if_pos hn] at hcall
      cases hcall
      obtain ⟨-, hsz⟩ := hlaw.1 (by omega)
      simp only [VmState.setProc, update_self] at hsz
      omega
    · rcases sysSbrk_nonpos hn.le hcall with ⟨hle, -⟩ |
        ⟨hlt, rfl, pt, pt', m', r', hpt, hdealloc, rfl⟩
      · exact hle
      · obtain ⟨-, hsz⟩ := hlaw.1 (by omega)
        rw [sz_setTable] at hsz
        omega
  | @fault _ p va hrun hcall =>
    rintro ⟨hhit, hend, hheap⟩
    obtain ⟨live, hinv⟩ := h.heap
    have heffect := usertrapFault_effect hinv hcall
    obtain ⟨perms, hview⟩ := heffect.mapped hhit
    have hpage : va / PGSIZE * PGSIZE = pgrounddown va := rfl
    have hnone := hlaw.1 p (va / PGSIZE) (by
      rw [heffect.sz, hpage, ← hend]
      simp only [pgroundup, pgrounddown, PGSIZE]
      omega) hheap
    rw [hview] at hnone
    cases hnone

/-- The first process has its code and nothing else below the window. -/
theorem breakInv_firstUser (h : firstUser L = .ok s) : BreakInv L s := by
  obtain ⟨⟨live, ht⟩, -, hle⟩ := vmInv_firstUser h
  refine ⟨fun i => lt_of_le_of_lt (hle i) (by decide), ⟨live, ht.heap⟩, ?_⟩
  simp only [firstUser, userinit, bind_eq_ok] at h
  obtain ⟨b, hb, ⟨r, s₁⟩, halloc, h⟩ := h
  obtain ⟨b', hb', hheap⟩ := heapInv_init L ⟨⟨fun _ => 0, fun _ => 0⟩, fun _ => 0⟩
  rw [hb] at hb'
  cases hb'
  obtain ⟨live₀, ht₀⟩ := (vmInv_boot hheap).tracked
  rcases allocproc_spec ht₀ halloc with ⟨rfl, -⟩ | ⟨np, pt, trapframe, rfl, -, hproc, -, hzero, -⟩
  · cases h
  · have hpt : (s₁.proc np).pagetable = some pt := by rw [hproc, update_self]
    simp only [hpt, bind_eq_ok] at h
    obtain ⟨⟨pt', m'⟩, hfirst, h⟩ := h
    cases h
    intro i v hlow hhigh
    by_cases hi : i = np
    · subst hi
      simp only [VmState.setProc, update_self] at hlow
      rw [view_eq_none (show _ = some pt' by simp [VmState.setProc, VmState.setTable])]
      obtain ⟨mem, m₁, r, m₂, hmem, rfl, hmap⟩ := uvmfirst_ok hfirst
      have hpos : 1 ≤ v := by
        have hone : pgroundup PGSIZE = 1 * PGSIZE := rfl
        rw [hone] at hlow
        exact Nat.le_of_mul_le_mul_right hlow (by decide)
      have htop : HEAPTOP ≤ TRAPFRAME := by decide
      have hreserved := not_reserved_of_lt (page_lt_of_below htop hhigh)
      rw [(mappages_mapped hmap).2.old v (by
        have hpages : PGSIZE / PGSIZE = 1 := rfl
        have hfirstPage : 0 / PGSIZE = 0 := rfl
        omega), hzero v hreserved]
      rfl
    · have hnone : (s₁.proc i).pagetable = none := by
        rw [hproc, update_of_ne hi]
        rfl
      simp [VmState.view, VmState.setProc, VmState.setTable, hi, hnone]

/-- In a run of `sbrk` calls and page faults size and mappings follow the law exactly
if no call shrinks or overflows and no fault adds the page at the size. -/
theorem sbrk_lawful_iff {run : List (BreakOp × VmState)} (h : BreakInv L s)
    (hrun : IsRun (BreakStep L) s run) :
    IsRun BreakLaw s run ↔ Along KeepsStep s run :=
  IsRun.rel_iff_along KeepsStep (BreakInv L)
    (fun _ _ _ hinv hok hstep => breakStep_keeps hinv hok hstep)
    (fun _ _ _ hinv hstep hlaw => breakStep_law hinv hstep hlaw) h hrun

/-- The first process grows and touches the new page. -/
theorem sbrk_lawful_first_growth :
    ∃ s t u, firstUser smallLayout = .ok s ∧
      BreakStep smallLayout s (.sbrk 0 100 PGSIZE) t ∧
      BreakStep smallLayout t (.fault 0 (PGSIZE + 50)) u ∧
      IsRun BreakLaw s [(.sbrk 0 100 PGSIZE, t), (.fault 0 (PGSIZE + 50), u)] := by
  have hrun : (firstUser smallLayout).Yields fun s => Running s 0 ∧ (s.proc 0).sz = PGSIZE ∧
      (sysSbrk smallLayout 0 100 s).Yields fun x =>
        x.1 = PGSIZE ∧ Running x.2 0 ∧ (x.2.proc 0).sz = PGSIZE + 100 ∧
        (usertrapFault smallLayout (kalloc smallLayout) 0 (PGSIZE + 50) x.2).Yields fun _ =>
          True := by
    decide +kernel
  obtain ⟨s, hs, hrun, hsz, ⟨r, t⟩, ht, rfl, hrun₁, hsz₁, u, hu, -⟩ := hrun
  have hstep₁ : BreakStep smallLayout s (.sbrk 0 100 PGSIZE) t :=
    .sbrk hrun (by decide) (by decide) ht
  have hstep₂ : BreakStep smallLayout t (.fault 0 (PGSIZE + 50)) u := .fault hrun₁ hu
  have hrun : IsRun (BreakStep smallLayout) s
      [(.sbrk 0 100 PGSIZE, t), (.fault 0 (PGSIZE + 50), u)] := ⟨hstep₁, hstep₂, trivial⟩
  refine ⟨s, t, u, hs, hstep₁, hstep₂, (sbrk_lawful_iff (breakInv_firstUser hs) hrun).mpr
      ⟨⟨fun _ => ?_, fun hn => ?_⟩, ?_, trivial⟩⟩
  · rw [hsz]
    decide
  · exact absurd hn (by decide)
  · rintro ⟨-, hend, -⟩
    rw [hsz₁] at hend
    revert hend
    decide

/-- The first process grows by a page and shrinks by a page. The second call returns
success and the size is still that of two pages. -/
theorem sbrk_keeps_size_on_shrink :
    ∃ s t u, firstUser smallLayout = .ok s ∧
      BreakStep smallLayout s (.sbrk 0 PGSIZE PGSIZE) t ∧
      BreakStep smallLayout t (.sbrk 0 (-PGSIZE) (2 * PGSIZE)) u ∧
      (s.proc 0).sz = PGSIZE ∧ (u.proc 0).sz = 2 * PGSIZE ∧
      ¬ IsRun BreakLaw s [(.sbrk 0 PGSIZE PGSIZE, t), (.sbrk 0 (-PGSIZE) (2 * PGSIZE), u)] := by
  have hrun : (firstUser smallLayout).Yields fun s => Running s 0 ∧ (s.proc 0).sz = PGSIZE ∧
      (sysSbrk smallLayout 0 PGSIZE s).Yields fun x =>
        x.1 = PGSIZE ∧ Running x.2 0 ∧ (x.2.proc 0).sz = 2 * PGSIZE ∧
        (sysSbrk smallLayout 0 (-PGSIZE) x.2).Yields fun y =>
          y.1 = 2 * PGSIZE ∧ (y.2.proc 0).sz = 2 * PGSIZE := by
    decide +kernel
  obtain ⟨s, hs, hrun, hsz, ⟨r, t⟩, ht, rfl, hrun₁, hsz₁, ⟨r, u⟩, hu, rfl, hsz₂⟩ := hrun
  refine ⟨s, t, u, hs, .sbrk hrun (by decide) (by decide) ht,
    .sbrk hrun₁ (by decide) (by decide) hu, hsz, hsz₂, ?_⟩
  rintro ⟨-, hlaw, -⟩
  obtain ⟨-, hnew⟩ := hlaw.1 (by decide)
  rw [hsz₁, hsz₂] at hnew
  revert hnew
  decide

end LearnOS
