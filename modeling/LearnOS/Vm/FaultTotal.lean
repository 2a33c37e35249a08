import LearnOS.Vm.Cow
import LearnOS.Vm.LazyAlloc

/-!
# Which page faults the handler answers

`usertrap` reads the entry of the faulting page without testing whether there is one.
A fault is answered exactly where the two levels above the page exist, below `MAXVA`,
while a page is left for it.
-/

namespace LearnOS

open BuddySystem Kres

variable {L : Layout} {s s' : VmState} {p : Fin NPROC} {pt : PageTable} {live : List (ℕ × ℕ)}
  {acc : Access} {va : ℕ}

/-- The access is allowed when it is tried again. -/
def Resolved (acc : Access) (p : Fin NPROC) (va : ℕ) (s : VmState) : Prop :=
  ∃ pt, (s.proc p).pagetable = some pt ∧ acc.permits (pt.entry (va / PGSIZE)) = true

/-- The handler returns, with the process killed or the access allowed. On the heap
the access is allowed while a page is left. -/
def FaultTotal (L : Layout) (acc : Access) (p : Fin NPROC) (va : ℕ) (s : VmState) : Prop :=
  ∃ s', pageFault L (kalloc L) p va s = .ok s' ∧
    ((s'.proc p).killed = true ∨ Resolved acc p va s') ∧
    ((s.proc p).ustackTop ≤ va → va < (s.proc p).sz → HasPage L s.mem.buddy →
      Resolved acc p va s')

/-- A process at a faulting page: a copy-on-write page below `sz` is in use and readable,
and the stack ends with a page. -/
structure FaultState (L : Layout) (s : VmState) (p : Fin NPROC) (pt : PageTable) (va : ℕ)
    (live : List (ℕ × ℕ)) : Prop where
  table : (s.proc p).pagetable = some pt
  heap : HeapInv L ⟨s.mem.buddy, live⟩
  flagged : va < (s.proc p).sz → (pt.entry (va / PGSIZE)).getLsbD 0 = true →
    (pt.entry (va / PGSIZE)).getLsbD 8 = true → (pte2pa (pt.entry (va / PGSIZE)), 0) ∈ live
  readable : va < (s.proc p).sz → (pt.entry (va / PGSIZE)).getLsbD 0 = true →
    (pt.entry (va / PGSIZE)).getLsbD 8 = true → (pt.entry (va / PGSIZE)).getLsbD 4 = true →
    (pt.entry (va / PGSIZE)).getLsbD 1 = true
  aligned : (s.proc p).ustackTop % PGSIZE = 0

/-- What has to be there before the fault. -/
structure FaultAnswerable (L : Layout) (s : VmState) (p : Fin NPROC) (pt : PageTable) (va : ℕ) :
    Prop where
  below : va < MAXVA
  levels : (pt.pte? (va / PGSIZE)).isSome
  lazy : (pt.entry (va / PGSIZE)).getLsbD 0 = false → HasPage L s.mem.buddy
  copy : (pt.entry (va / PGSIZE)).getLsbD 0 = true → (pt.entry (va / PGSIZE)).getLsbD 8 = true →
    (pt.entry (va / PGSIZE)).getLsbD 4 = true → va < (s.proc p).sz →
    s.mem.cnt (pte2pa (pt.entry (va / PGSIZE)) / PGSIZE) = 1 ∨ HasPage L s.mem.buddy
  shared : (pt.entry (va / PGSIZE)).getLsbD 0 = true → (s.proc p).ustackTop ≤ va →
    va < (s.proc p).sz → HasPage L s.mem.buddy →
    (pt.entry (va / PGSIZE)).getLsbD 8 = true ∧ (pt.entry (va / PGSIZE)).getLsbD 4 = true

theorem CowInv.faultState (h : CowInv L s) (hpt : (s.proc p).pagetable = some pt)
    (hread : va < (s.proc p).sz → (pt.entry (va / PGSIZE)).getLsbD 0 = true →
      (pt.entry (va / PGSIZE)).getLsbD 8 = true → (pt.entry (va / PGSIZE)).getLsbD 4 = true →
      (pt.entry (va / PGSIZE)).getLsbD 1 = true)
    (htop : (s.proc p).ustackTop % PGSIZE = 0) : ∃ live, FaultState L s p pt va live := by
  obtain ⟨live, ht⟩ := h.tracked
  refine ⟨live, hpt, ht.heap, fun hva hv _ => ?_, hread, htop⟩
  have hbelow : va / PGSIZE * PGSIZE < (s.proc p).sz :=
    lt_of_le_of_lt (Nat.div_mul_le_self va PGSIZE) hva
  exact ht.held _ _ (own_user_of_valid hpt (page_lt_of_below (h.sz_le p) hbelow) hv)

theorem resolved_setTable {pt' : PageTable} {m' : KMem} :
    Resolved acc p va (s.setTable p pt' m') ↔ acc.permits (pt'.entry (va / PGSIZE)) = true := by
  have htable : ((s.setTable p pt' m').proc p).pagetable = some pt' := by simp [VmState.setTable]
  constructor
  · rintro ⟨pt₁, hpt₁, hpermits⟩
    rw [htable] at hpt₁
    cases hpt₁
    exact hpermits
  · exact fun hpermits => ⟨pt', htable, hpermits⟩

theorem killed_setkilled (p : Fin NPROC) (s : VmState) :
    ((setkilled p s).proc p).killed = true := by
  simp [setkilled, VmState.setProc]

theorem resolved_setkilled (h : Resolved acc p va (setkilled p s)) : Resolved acc p va s := by
  simpa [Resolved, setkilled, VmState.setProc] using h

/-- A fault that only kills the process is answered where the heap is not concerned. -/
theorem faultTotal_of_killed (hpt : (s.proc p).pagetable = some pt)
    (hfault : acc.permits (pt.entry (va / PGSIZE)) = false)
    (hcall : pageFault L (kalloc L) p va s = .ok (setkilled p s)) :
    FaultTotal L acc p va s ↔
      ¬ ((s.proc p).ustackTop ≤ va ∧ va < (s.proc p).sz ∧ HasPage L s.mem.buddy) := by
  constructor
  · rintro ⟨s', hs', -, hheap⟩ ⟨htop, hsz, hpage⟩
    rw [hcall] at hs'
    cases hs'
    obtain ⟨pt₁, hpt₁, hpermits⟩ := resolved_setkilled (hheap htop hsz hpage)
    rw [hpt] at hpt₁
    cases hpt₁
    rw [hfault] at hpermits
    cases hpermits
  · intro hnot
    exact ⟨_, hcall, Or.inl (killed_setkilled p s), fun htop hsz hpage =>
      absurd ⟨htop, hsz, hpage⟩ hnot⟩

theorem faultTotal_of_resolved (hcall : pageFault L (kalloc L) p va s = .ok s')
    (hres : Resolved acc p va s') : FaultTotal L acc p va s :=
  ⟨s', hcall, Or.inr hres, fun _ _ _ => hres⟩

theorem not_faultTotal_of_error {e : Fault} (hcall : pageFault L (kalloc L) p va s = .error e) :
    ¬ FaultTotal L acc p va s := by
  rintro ⟨s', hs', -⟩
  rw [hcall] at hs'
  cases hs'

theorem permits_repaired {pte pte' : Pte} (h : Repaired pte pte') (hR : pte.getLsbD 1 = true) :
    acc.permits pte' = true := by
  obtain ⟨hV', hR', hW', hU', -⟩ := h
  cases acc <;> simp only [Access.permits, hV', hR', hW', hU', hR, Bool.and_self]

theorem permits_lazy (mem : ℕ) : acc.permits (lazyPte mem) = true := by
  cases acc with
  | load | store => simp [Access.permits, lazyPte, PTE_R, PTE_U, PTE_W, PTE_X, PTE_V]

/-- A fault on a page without a mapping, where the levels exist, goes to `uvlazyalloc`. -/
theorem pageFault_unmapped (hpt : (s.proc p).pagetable = some pt) (hmax : va < MAXVA)
    (hlevels : (pt.pte? (va / PGSIZE)).isSome)
    (hv : (pt.entry (va / PGSIZE)).getLsbD 0 = false) :
    pageFault L (kalloc L) p va s =
      uvlazyalloc L (kalloc L) pt va (s.proc p).sz (s.proc p).ustackTop s.mem >>= fun r =>
        .ok (if r.1 < 0 then setkilled p (s.setTable p r.2.1 r.2.2)
          else s.setTable p r.2.1 r.2.2) := by
  obtain ⟨pte, hpte⟩ := Option.isSome_iff_exists.mp hlevels
  have hwalk : walk pt va = .ok (some pte) := by
    rw [walk, if_neg (Nat.not_le.mpr hmax), hpte]
  rw [PageTable.entry_of_pte? hpte] at hv
  simp only [pageFault, hpt, hwalk, ok_bind, Pte.has_V, hv, Bool.not_false, if_true]
  rfl

/-- The handler maps a page of zeros, or kills the process outside of its heap, or finds
no page. -/
theorem pageFault_lazy (h : HeapInv L ⟨s.mem.buddy, live⟩)
    (hpt : (s.proc p).pagetable = some pt) (hmax : va < MAXVA)
    (hlevels : (pt.pte? (va / PGSIZE)).isSome)
    (hv : (pt.entry (va / PGSIZE)).getLsbD 0 = false) :
    (∃ mem m₁, kalloc L s.mem = .ok (mem, m₁) ∧ pageFault L (kalloc L) p va s =
        if (s.proc p).ustackTop ≤ pgrounddown va ∧ pgrounddown va ≤ (s.proc p).sz then
          .ok (s.setTable p (pt.setPte (va / PGSIZE) (lazyPte mem)) (m₁.memset mem 0))
        else .ok (setkilled p (s.setTable p pt m₁))) ∧ HasPage L s.mem.buddy ∨
    (∃ e, pageFault L (kalloc L) p va s = .error e) ∧ ¬ HasPage L s.mem.buddy := by
  have heval := pageFault_unmapped (L := L) hpt hmax hlevels hv
  rw [← kalloc_returns_iff h]
  cases halloc : kalloc L s.mem with
  | error e =>
    refine Or.inr ⟨⟨e, ?_⟩, by simp⟩
    rw [heval, uvlazyalloc, halloc]
    rfl
  | ok r =>
    refine Or.inl ⟨⟨r.1, r.2, rfl, ?_⟩, ⟨r, rfl⟩⟩
    rw [heval]
    split
    · rename_i hrange
      rw [uvlazyalloc_existing halloc hrange hmax hlevels hv]
      rfl
    · rename_i hrange
      rw [uvlazyalloc_refused halloc hrange]
      rfl

theorem faultTotal_lazy (h : FaultState L s p pt va live) (hmax : va < MAXVA)
    (hlevels : (pt.pte? (va / PGSIZE)).isSome)
    (hv : (pt.entry (va / PGSIZE)).getLsbD 0 = false) :
    FaultTotal L acc p va s ↔ HasPage L s.mem.buddy := by
  rcases pageFault_lazy h.heap h.table hmax hlevels hv with
    ⟨⟨mem, m₁, -, heval⟩, hpage⟩ | ⟨⟨e, heval⟩, hpage⟩
  swap
  · exact iff_of_false (not_faultTotal_of_error heval) hpage
  refine iff_of_true ?_ hpage
  split at heval
  · refine faultTotal_of_resolved heval (resolved_setTable.mpr ?_)
    rw [PageTable.entry_setPte hlevels, if_pos rfl]
    exact permits_lazy mem
  · rename_i hrange
    refine ⟨_, heval, Or.inl (killed_setkilled p _), fun htop hsz _ => absurd ⟨?_, ?_⟩ hrange⟩
    · have haligned := h.aligned
      simp only [pgrounddown, PGSIZE] at haligned ⊢
      omega
    · exact (Nat.div_mul_le_self va PGSIZE).trans hsz.le

/-- A fault on a copy-on-write page of the process is repaired, unless a page is needed
and none is left. -/
theorem pageFault_repairs (h : HeapInv L ⟨s.mem.buddy, live⟩)
    (hpt : (s.proc p).pagetable = some pt) (hmax : va < MAXVA) (hsz : va < (s.proc p).sz)
    (hv : (pt.entry (va / PGSIZE)).getLsbD 0 = true)
    (hF : (pt.entry (va / PGSIZE)).getLsbD 8 = true)
    (hU : (pt.entry (va / PGSIZE)).getLsbD 4 = true)
    (hlive : (pte2pa (pt.entry (va / PGSIZE)), 0) ∈ live) :
    (∃ pt' m', pageFault L (kalloc L) p va s = .ok (s.setTable p pt' m') ∧
        Repaired (pt.entry (va / PGSIZE)) (pt'.entry (va / PGSIZE))) ∧
      (s.mem.cnt (pte2pa (pt.entry (va / PGSIZE)) / PGSIZE) = 1 ∨ HasPage L s.mem.buddy) ∨
    (∃ e, pageFault L (kalloc L) p va s = .error e) ∧
      ¬ (s.mem.cnt (pte2pa (pt.entry (va / PGSIZE)) / PGSIZE) = 1 ∨ HasPage L s.mem.buddy) := by
  have heval := pageFault_flagged h hpt hmax hsz hv hF hlive
  rw [if_pos hU] at heval
  by_cases hone : s.mem.cnt (pte2pa (pt.entry (va / PGSIZE)) / PGSIZE) = 1
  · rw [if_pos hone] at heval
    refine Or.inl ⟨⟨_, _, heval, ?_⟩, Or.inl hone⟩
    rw [PageTable.entry_setPte (by rw [PageTable.pte?_isSome_of_valid hv]; rfl), if_pos rfl]
    exact repaired_uncow hv hU
  · rw [if_neg hone] at heval
    rw [or_iff_right hone, ← kalloc_returns_iff h]
    cases halloc : kalloc L s.mem with
    | error e =>
      rw [halloc] at heval
      exact Or.inr ⟨⟨e, heval⟩, by simp⟩
    | ok r =>
      rw [halloc] at heval
      refine Or.inl ⟨⟨_, _, heval, ?_⟩, ⟨r, rfl⟩⟩
      rw [entry_copied hv, if_pos rfl]
      exact repaired_copiedPte r.1 hU

theorem faultTotal_copy (h : FaultState L s p pt va live) (hmax : va < MAXVA)
    (hsz : va < (s.proc p).sz) (hv : (pt.entry (va / PGSIZE)).getLsbD 0 = true)
    (hF : (pt.entry (va / PGSIZE)).getLsbD 8 = true)
    (hU : (pt.entry (va / PGSIZE)).getLsbD 4 = true) :
    FaultTotal L acc p va s ↔
      s.mem.cnt (pte2pa (pt.entry (va / PGSIZE)) / PGSIZE) = 1 ∨ HasPage L s.mem.buddy := by
  rcases pageFault_repairs h.heap h.table hmax hsz hv hF hU (h.flagged hsz hv hF) with
    ⟨⟨pt', m', hcall, hrep⟩, hroom⟩ | ⟨⟨e, hcall⟩, hroom⟩
  · refine iff_of_true (faultTotal_of_resolved hcall (resolved_setTable.mpr ?_)) hroom
    exact permits_repaired hrep (h.readable hsz hv hF hU)
  · exact iff_of_false (not_faultTotal_of_error hcall) hroom

/-- A fault on any other mapped page kills. -/
theorem pageFault_kills (hpt : (s.proc p).pagetable = some pt)
    (hheap : HeapInv L ⟨s.mem.buddy, live⟩) (hmax : va < MAXVA)
    (hv : (pt.entry (va / PGSIZE)).getLsbD 0 = true)
    (hlive : va < (s.proc p).sz → (pt.entry (va / PGSIZE)).getLsbD 0 = true →
      (pt.entry (va / PGSIZE)).getLsbD 8 = true → (pte2pa (pt.entry (va / PGSIZE)), 0) ∈ live)
    (hother : ¬ ((pt.entry (va / PGSIZE)).getLsbD 8 = true ∧
      (pt.entry (va / PGSIZE)).getLsbD 4 = true ∧ va < (s.proc p).sz)) :
    pageFault L (kalloc L) p va s = .ok (setkilled p s) := by
  cases hF : (pt.entry (va / PGSIZE)).getLsbD 8 with
  | false => exact pageFault_unflagged hpt hmax hv hF
  | true =>
    by_cases hsz : va < (s.proc p).sz
    · rw [pageFault_flagged hheap hpt hmax hsz hv hF (hlive hsz hv hF), if_neg]
      exact fun hU => hother ⟨hF, hU, hsz⟩
    · simp only [pageFault, hpt, walk_mapped hmax hv, ok_bind, Pte.has_V, hv,
        Bool.not_true, Bool.false_eq_true, if_false, Pte.has_F, hF, if_true,
        if_pos (Nat.not_lt.mp hsz), pure_eq]

/-- The handler answers a fault exactly if the levels above the page exist, the address
is below `MAXVA` and a page is left where one is needed. -/
theorem pageFault_total_iff (h : FaultState L s p pt va live)
    (hfault : acc.permits (pt.entry (va / PGSIZE)) = false) :
    FaultTotal L acc p va s ↔ FaultAnswerable L s p pt va := by
  by_cases hmax : va < MAXVA
  swap
  · refine iff_of_false (not_faultTotal_of_error (e := .panic "walk") ?_) fun ha => hmax ha.below
    simp only [pageFault, h.table, walk, if_pos (Nat.not_lt.mp hmax), error_bind]
  by_cases hlevels : (pt.pte? (va / PGSIZE)).isSome
  swap
  · refine iff_of_false (not_faultTotal_of_error (e := .nullLoad) ?_) fun ha => hlevels ha.levels
    have hnone := Option.not_isSome_iff_eq_none.mp hlevels
    simp only [pageFault, h.table, walk, if_neg (Nat.not_le.mpr hmax), hnone, ok_bind,
      throw_eq]
  cases hv : (pt.entry (va / PGSIZE)).getLsbD 0 with
  | false =>
    rw [faultTotal_lazy h hmax hlevels hv]
    have hnot : ¬ (pt.entry (va / PGSIZE)).getLsbD 0 = true := by
      rw [hv]
      exact Bool.false_ne_true
    exact ⟨fun hpage => ⟨hmax, hlevels, fun _ => hpage, fun hv' => absurd hv' hnot,
      fun hv' => absurd hv' hnot⟩, fun ha => ha.lazy hv⟩
  | true =>
    have hnot : ¬ (pt.entry (va / PGSIZE)).getLsbD 0 = false := by
      rw [hv]
      exact Bool.noConfusion
    by_cases hcow : (pt.entry (va / PGSIZE)).getLsbD 8 = true ∧
        (pt.entry (va / PGSIZE)).getLsbD 4 = true ∧ va < (s.proc p).sz
    · obtain ⟨hF, hU, hsz⟩ := hcow
      rw [faultTotal_copy h hmax hsz hv hF hU]
      exact ⟨fun hroom => ⟨hmax, hlevels, fun hv' => absurd hv' hnot, fun _ _ _ _ => hroom,
        fun _ _ _ _ => ⟨hF, hU⟩⟩, fun ha => ha.copy hv hF hU hsz⟩
    · rw [faultTotal_of_killed h.table hfault (pageFault_kills h.table h.heap hmax hv
        h.flagged hcow)]
      constructor
      · intro hheap
        exact ⟨hmax, hlevels, fun hv' => absurd hv' hnot,
          fun _ hF hU hsz => absurd ⟨hF, hU, hsz⟩ hcow,
          fun _ htop hsz hpage => absurd ⟨htop, hsz, hpage⟩ hheap⟩
      · rintro ha ⟨htop, hsz, hpage⟩
        obtain ⟨hF, hU⟩ := ha.shared hv htop hsz hpage
        exact hcow ⟨hF, hU, hsz⟩

/-- The first process writes to a page that it shares since a `fork`. -/
theorem pageFault_total_first_fork :
    ∃ s t, firstUser smallLayout = .ok s ∧
      fork smallLayout (kalloc smallLayout) 0 s = .ok (some 1, t) ∧
      FaultTotal smallLayout .store 0 8 t := by
  have hrun : (firstUser smallLayout).Yields fun s => Alive s 0 ∧
      (fork smallLayout (kalloc smallLayout) 0 s).Yields fun x =>
        x.1 = some 1 ∧ (x.2.proc 0).ustackTop % PGSIZE = 0 ∧ HasPage smallLayout x.2.mem.buddy ∧
        ∃ pt, (x.2.proc 0).pagetable = some pt ∧ (pt.pte? 0).isSome ∧
          Access.store.permits (pt.entry 0) = false ∧ (pt.entry 0).getLsbD 1 = true ∧
          (pt.entry 0).getLsbD 4 = true ∧ (pt.entry 0).getLsbD 8 = true := by
    decide +kernel
  obtain ⟨s, hs, halive, ⟨np, t⟩, ht, rfl, htop, hpage, pt, hpt, hlevels, hfault, hR, hU, hF⟩ :=
    hrun
  have hinv := (fork_simulated (shows_eagerOf (vmInv_firstUser hs).cowInv) halive ht).inv
  obtain ⟨live, hstate⟩ : ∃ live, FaultState smallLayout t 0 pt 8 live :=
    hinv.faultState hpt (fun _ _ _ _ => hR) htop
  refine ⟨s, t, hs, ht, (pageFault_total_iff hstate hfault).mpr ?_⟩
  exact ⟨by decide, hlevels, fun _ => hpage, fun _ _ _ _ => Or.inr hpage,
    fun _ _ _ _ => ⟨hF, hU⟩⟩

/-- The first process reads at `MAXVA`, and after `sbrk` a heap page whose level-0
page does not exist. -/
theorem pageFault_without_entry :
    ∃ s t, firstUser smallLayout = .ok s ∧
      pageFault smallLayout (kalloc smallLayout) 0 MAXVA s = .error (.panic "walk") ∧
      sysSbrk smallLayout 0 (2 ^ 21) s = .ok (PGSIZE, t) ∧
      (t.proc 0).ustackTop ≤ 2 ^ 21 ∧ 2 ^ 21 < (t.proc 0).sz ∧ HasPage smallLayout t.mem.buddy ∧
      pageFault smallLayout (kalloc smallLayout) 0 (2 ^ 21) t = .error .nullLoad := by
  have hrun : (firstUser smallLayout).Yields fun s => (s.proc 0).pagetable.isSome ∧
      (sysSbrk smallLayout 0 (2 ^ 21) s).Yields fun x => x.1 = PGSIZE ∧
        (x.2.proc 0).ustackTop ≤ 2 ^ 21 ∧ 2 ^ 21 < (x.2.proc 0).sz ∧
        HasPage smallLayout x.2.mem.buddy ∧
        ∃ pt, (x.2.proc 0).pagetable = some pt ∧ pt.pte? 512 = none := by
    decide +kernel
  obtain ⟨s, hs, hsome, ⟨r, t⟩, ht, rfl, htop, hsz, hpage, pt, hpt, hnone⟩ := hrun
  obtain ⟨old, hold⟩ := Option.isSome_iff_exists.mp hsome
  refine ⟨s, t, hs, ?_, ht, htop, hsz, hpage, ?_⟩
  · simp only [pageFault, hold, walk, ge_iff_le, le_refl, if_true, error_bind]
  · dsimp only at hpt
    have hpage : 2 ^ 21 / PGSIZE = 512 := rfl
    have hbelow : ¬ 2 ^ 21 ≥ MAXVA := by decide
    simp only [pageFault, hpt, walk, if_neg hbelow, hpage, hnone, ok_bind, throw_eq]

end LearnOS
