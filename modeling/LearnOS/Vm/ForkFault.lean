import LearnOS.Vm.FaultTotal
import LearnOS.Vm.ForkTables

/-!
# Faults of a child and of its parent

After a `fork` both processes may touch any address. What the fault handler does
depends on the entry of the page, on `sz` and `ustack_top`, on the `killed` flag
and on the pages that are left. The child inherits `sz`, the entries below it and the
attachments; `ustack_top` and `killed` are those of the former owner of its slot, and a
level of the table exists in the child only above a page that it maps.

## Main results

`accessOutcome_eq`: what user code sees of an access, in closed form.
`Inherited.sameFaults_iff_inherited`: parent and child answer every access alike exactly if
these differences cannot be seen at any address.
-/

namespace LearnOS

open BuddySystem Kres

variable {L : Layout} {s t : VmState} {p np : Fin NPROC} {pt : PageTable} {live : List (ℕ × ℕ)}
  {acc : Access} {va : ℕ}

/-! ## The outcome of an access -/

/-- What user code sees of a call, absent when the kernel itself faults. -/
def outcome? (r : Kres (Outcome × VmState)) : Option Outcome :=
  match r with
  | .ok (o, _) => some o
  | .error _ => none

/-- What user code sees of an access that reaches a byte. -/
def Access.result (acc : Access) (byte : BitVec 8) : Outcome :=
  match acc with
  | .load => .value byte
  | .store => .stored

theorem Access.result_ne_killed (acc : Access) (byte : BitVec 8) : acc.result byte ≠ .killed := by
  cases acc <;> simp [Access.result]

/-- The outcome of an access after its attempts. -/
def settled (acc : Access) (va : ℕ) : Kres (Attempt × VmState) → Option Outcome
  | .ok (.done pa, s) => some (acc.result (s.mem.frame (pa / PGSIZE) (va % PGSIZE)))
  | .ok (.killed, _) => some .killed
  | .ok (.again, _) => some .stuck
  | .error _ => none

/-- The outcome of a load or store of process `p`. -/
def accessOutcome (L : Layout) (acc : Access) (p : Fin NPROC) (va : ℕ) (s : VmState) :
    Option Outcome :=
  settled acc va (attempt L acc p va maxAttempts s)

theorem outcome?_userLoad (L : Layout) (p : Fin NPROC) (va : ℕ) (s : VmState) :
    outcome? (userLoad L p va s) = accessOutcome L .load p va s := by
  unfold userLoad accessOutcome
  cases attempt L .load p va maxAttempts s with
  | error e => rfl
  | ok r =>
    obtain ⟨r, s'⟩ := r
    cases r <;> rfl

theorem outcome?_userStore (L : Layout) (p : Fin NPROC) (va : ℕ) (b : BitVec 8) (s : VmState) :
    outcome? (userStore L p va b s) = accessOutcome L .store p va s := by
  unfold userStore accessOutcome
  cases attempt L .store p va maxAttempts s with
  | error e => rfl
  | ok r =>
    obtain ⟨r, s'⟩ := r
    cases r <;> rfl

theorem accessOutcome_permitted (hpt : (s.proc p).pagetable = some pt)
    (hperm : acc.permits (pt.entry (va / PGSIZE)) = true) :
    accessOutcome L acc p va s =
      some (acc.result (s.mem.frame (pte2pa (pt.entry (va / PGSIZE)) / PGSIZE) (va % PGSIZE))) := by
  simp only [accessOutcome, maxAttempts, attempt, hpt, hperm, if_true, settled]

theorem accessOutcome_error (hpt : (s.proc p).pagetable = some pt)
    (hperm : acc.permits (pt.entry (va / PGSIZE)) = false) {e : Fault}
    (hcall : pageFault L (kalloc L) p va s = .error e) : accessOutcome L acc p va s = none := by
  simp only [accessOutcome, maxAttempts, attempt, hpt, hperm, Bool.false_eq_true, if_false, hcall,
    error_bind, settled]

theorem accessOutcome_killed (hpt : (s.proc p).pagetable = some pt)
    (hperm : acc.permits (pt.entry (va / PGSIZE)) = false)
    (hcall : pageFault L (kalloc L) p va s = .ok t) (hkilled : (t.proc p).killed = true) :
    accessOutcome L acc p va s = some .killed := by
  rw [accessOutcome, maxAttempts, attempt_fault hpt hperm hcall, if_pos hkilled, settled]

/-- An access that is allowed once its fault has been handled. -/
theorem accessOutcome_resolved {pt' : PageTable} (hpt : (s.proc p).pagetable = some pt)
    (hperm : acc.permits (pt.entry (va / PGSIZE)) = false)
    (hcall : pageFault L (kalloc L) p va s = .ok t) (hlive : (t.proc p).killed = false)
    (hpt' : (t.proc p).pagetable = some pt')
    (hperm' : acc.permits (pt'.entry (va / PGSIZE)) = true) :
    accessOutcome L acc p va s =
      some (acc.result
        (t.mem.frame (pte2pa (pt'.entry (va / PGSIZE)) / PGSIZE) (va % PGSIZE))) := by
  have hnot : ¬ (t.proc p).killed = true := by
    rw [hlive]
    exact Bool.false_ne_true
  rw [accessOutcome, maxAttempts, attempt_fault hpt hperm hcall, if_neg hnot]
  simp only [attempt, hpt', hperm', if_true, settled]

theorem permits_invalid {pte : Pte} (hv : pte.getLsbD 0 = false) : acc.permits pte = false := by
  simp only [Access.permits, hv, Bool.false_and]

/-- No access gets past the end of the address space. -/
theorem accessOutcome_above (hpt : (s.proc p).pagetable = some pt) (hmax : ¬ va < MAXVA)
    (hv : (pt.entry (va / PGSIZE)).getLsbD 0 = false) : accessOutcome L acc p va s = none := by
  refine accessOutcome_error (e := .panic "walk") hpt (permits_invalid hv) ?_
  simp only [pageFault, hpt, walk, if_pos (Nat.not_lt.mp hmax), error_bind]

/-- Where a level is missing, the handler reads the null pointer. -/
theorem accessOutcome_missing (hpt : (s.proc p).pagetable = some pt) (hmax : va < MAXVA)
    (hlevels : ¬ (pt.pte? (va / PGSIZE)).isSome = true) : accessOutcome L acc p va s = none := by
  have hnone := Option.not_isSome_iff_eq_none.mp hlevels
  have hv : (pt.entry (va / PGSIZE)).getLsbD 0 = false := by
    rw [PageTable.entry_of_none hnone]
    rfl
  refine accessOutcome_error (e := .nullLoad) hpt (permits_invalid hv) ?_
  simp only [pageFault, hpt, walk, if_neg (Nat.not_le.mpr hmax), hnone, ok_bind, throw_eq]

/-- The handler serves the process at this address with a page of zeros. -/
def LazyServed (pr : Proc) (sz va : ℕ) : Prop :=
  pr.killed = false ∧ pr.ustackTop ≤ pgrounddown va ∧ pgrounddown va ≤ sz

instance (pr : Proc) (sz va : ℕ) : Decidable (LazyServed pr sz va) :=
  inferInstanceAs (Decidable (_ ∧ _))

variable (acc) in
/-- An access to a page without a mapping, where the levels exist. -/
theorem accessOutcome_lazy (h : HeapInv L ⟨s.mem.buddy, live⟩)
    (hpt : (s.proc p).pagetable = some pt) (hmax : va < MAXVA)
    (hlevels : (pt.pte? (va / PGSIZE)).isSome)
    (hv : (pt.entry (va / PGSIZE)).getLsbD 0 = false) :
    accessOutcome L acc p va s =
      if HasPage L s.mem.buddy then
        if LazyServed (s.proc p) (s.proc p).sz va then some (acc.result 0) else some .killed
      else none := by
  have hperm : acc.permits (pt.entry (va / PGSIZE)) = false := permits_invalid hv
  rcases pageFault_lazy h hpt hmax hlevels hv with
    ⟨⟨mem, m₁, halloc, heval⟩, hpage⟩ | ⟨⟨e, heval⟩, hpage⟩
  swap
  · rw [if_neg hpage, accessOutcome_error hpt hperm heval]
  rw [if_pos hpage]
  split at heval
  · rename_i hrange
    cases hkilled : (s.proc p).killed with
    | true =>
      rw [if_neg fun hserved => Bool.false_ne_true (hserved.1.symm.trans hkilled)]
      exact accessOutcome_killed hpt hperm heval (by simpa [VmState.setTable] using hkilled)
    | false =>
      have hmemOk := (h.kalloc halloc).not_badPage (p := mem) (o := 0) List.mem_cons_self
      have hentry := PageTable.entry_setPte (w := va / PGSIZE) hlevels (lazyPte mem)
      rw [if_pos rfl] at hentry
      rw [if_pos ⟨hkilled, hrange⟩, accessOutcome_resolved hpt hperm heval
        (by simpa [VmState.setTable] using hkilled) (VmState.setTable_pagetable ..)
        (by rw [hentry]; exact permits_lazy mem), hentry, pte2pa_lazyPte hmemOk]
      simp [VmState.setTable, KMem.memset]
  · rename_i hrange
    rw [if_neg fun hserved => hrange hserved.2]
    exact accessOutcome_killed hpt hperm heval (killed_setkilled p _)

/-- What a process sees once its copy-on-write page is its own. A load only faults on such a
page when it may not be read. -/
def Access.repaired (acc : Access) (killed : Bool) : Outcome :=
  match acc with
  | .load => .killed
  | .store => if killed then .killed else .stored

theorem accessOutcome_repaired {pt' : PageTable} {m' : KMem} (hpt : (s.proc p).pagetable = some pt)
    (hmax : va < MAXVA) (hperm : acc.permits (pt.entry (va / PGSIZE)) = false)
    (hv : (pt.entry (va / PGSIZE)).getLsbD 0 = true)
    (hU : (pt.entry (va / PGSIZE)).getLsbD 4 = true)
    (hcall : pageFault L (kalloc L) p va s = .ok (s.setTable p pt' m'))
    (hrep : Repaired (pt.entry (va / PGSIZE)) (pt'.entry (va / PGSIZE))) :
    accessOutcome L acc p va s = some (acc.repaired (s.proc p).killed) := by
  obtain ⟨hV', hR', hW', hU', hF'⟩ := hrep
  have hkilled : ((s.setTable p pt' m').proc p).killed = (s.proc p).killed := by
    simp [VmState.setTable]
  have hpt' : ((s.setTable p pt' m').proc p).pagetable = some pt' := VmState.setTable_pagetable ..
  cases hdead : (s.proc p).killed with
  | true =>
    rw [accessOutcome_killed hpt hperm hcall (hkilled.trans hdead)]
    cases acc <;> rfl
  | false =>
    cases acc with
    | store =>
      rw [accessOutcome_resolved hpt hperm hcall (hkilled.trans hdead) hpt'
        (by simp only [Access.permits, hV', hU', hW', Bool.and_self])]
      rfl
    | load =>
      -- the page is not readable, so the load faults again and kills
      have hR : (pt.entry (va / PGSIZE)).getLsbD 1 = false := by
        simpa only [Access.permits, hv, hU, Bool.true_and] using hperm
      have hperm' : Access.load.permits (pt'.entry (va / PGSIZE)) = false := by
        simp only [Access.permits, hR', hR, Bool.and_false]
      have hagain := pageFault_unflagged (L := L) hpt' hmax hV' hF'
      rw [accessOutcome, maxAttempts, attempt_fault hpt hperm hcall, hkilled, hdead,
        if_neg Bool.false_ne_true, attempt_fault hpt' hperm' hagain,
        if_pos (killed_setkilled p _)]
      rfl

/-- What user code sees of an access to a page with the entry `pte`, by a process `pr` of
the size `sz`. The table has the `levels` above the page or not, and a page is `left` or
not. -/
def answer (m : KMem) (left levels : Prop) [Decidable left] [Decidable levels] (pr : Proc)
    (sz : ℕ) (pte : Pte) (va : ℕ) (acc : Access) : Option Outcome :=
  if acc.permits pte then some (acc.result (m.frame (pte2pa pte / PGSIZE) (va % PGSIZE)))
  else if pte.getLsbD 0 then
    if pte.getLsbD 8 ∧ pte.getLsbD 4 ∧ va < sz then
      if m.cnt (pte2pa pte / PGSIZE) = 1 ∨ left then some (acc.repaired pr.killed) else none
    else some .killed
  else if levels ∧ left then if LazyServed pr sz va then some (acc.result 0) else some .killed
  else none

/-- The outcome of every access below `MAXVA`, where copy-on-write pages of the process are in
use. -/
theorem accessOutcome_eq (h : HeapInv L ⟨s.mem.buddy, live⟩)
    (hpt : (s.proc p).pagetable = some pt) (hmax : va < MAXVA)
    (hlive : va < (s.proc p).sz → (pt.entry (va / PGSIZE)).getLsbD 0 = true →
      (pt.entry (va / PGSIZE)).getLsbD 8 = true → (pte2pa (pt.entry (va / PGSIZE)), 0) ∈ live)
    (acc : Access) :
    accessOutcome L acc p va s = answer s.mem (HasPage L s.mem.buddy)
      ((pt.pte? (va / PGSIZE)).isSome = true) (s.proc p) (s.proc p).sz
      (pt.entry (va / PGSIZE)) va acc := by
  rw [answer]
  cases hperm : acc.permits (pt.entry (va / PGSIZE)) with
  | true => exact accessOutcome_permitted hpt hperm
  | false =>
    rw [if_neg Bool.false_ne_true]
    cases hv : (pt.entry (va / PGSIZE)).getLsbD 0 with
    | true =>
      rw [if_pos rfl]
      by_cases hcow : (pt.entry (va / PGSIZE)).getLsbD 8 = true ∧
          (pt.entry (va / PGSIZE)).getLsbD 4 = true ∧ va < (s.proc p).sz
      · obtain ⟨hF, hU, hsz⟩ := hcow
        rw [if_pos ⟨hF, hU, hsz⟩]
        rcases pageFault_repairs h hpt hmax hsz hv hF hU (hlive hsz hv hF) with
          ⟨⟨pt', m', hcall, hrep⟩, hroom⟩ | ⟨⟨e, hcall⟩, hroom⟩
        · rw [if_pos hroom]
          exact accessOutcome_repaired hpt hmax hperm hv hU hcall hrep
        · rw [if_neg hroom]
          exact accessOutcome_error hpt hperm hcall
      · rw [if_neg hcow]
        exact accessOutcome_killed hpt hperm (pageFault_kills hpt h hmax hv hlive hcow)
          (killed_setkilled p s)
    | false =>
      rw [if_neg Bool.false_ne_true]
      by_cases hlevels : (pt.pte? (va / PGSIZE)).isSome = true
      · simp only [accessOutcome_lazy acc h hpt hmax hlevels hv, hlevels, true_and]
      · rw [if_neg fun hboth => hlevels hboth.1]
        exact accessOutcome_missing hpt hmax hlevels

/-! ## Parent and child -/

/-- A load or a store at any address has the same outcome in both processes. -/
def SameFaults (L : Layout) (t : VmState) (p np : Fin NPROC) : Prop :=
  ∀ va, outcome? (userLoad L np va t) = outcome? (userLoad L p va t) ∧
    ∀ b, outcome? (userStore L np va b t) = outcome? (userStore L p va b t)

theorem sameFaults_iff :
    SameFaults L t p np ↔
      ∀ va acc, accessOutcome L acc np va t = accessOutcome L acc p va t := by
  simp only [SameFaults, outcome?_userLoad, outcome?_userStore, forall_const]
  refine forall_congr' fun va => ⟨fun h acc => ?_, fun h => ⟨h .load, h .store⟩⟩
  cases acc with
  | load => exact h.1
  | store => exact h.2

/-- The table maps the kernel's pages for the kernel only, and nothing from `MAXVA` on. -/
structure UserTable (pt : PageTable) : Prop where
  kernel : KernelMapped pt
  below : ∀ v, (pt.entry v).getLsbD 0 = true → v < MAXVA / PGSIZE

/-- The child has the levels above page `v`: one of its pages lies in the same region. -/
def ChildLevel (pt : PageTable) (sz : ℕ) (att : ℕ → Option Pte) (v : ℕ) : Prop :=
  px1 v ∈ Set.image px1 {w | PageTable.reserved w = true ∨ w ∈ copiedPages pt sz ∨
    (att w).isSome = true}

/-- The conditions for process `p` with table `pt` before the `fork`, for the slot `np` that
its child gets, the entries `att` of its attachments, and the memory `m` that the `fork`
leaves. -/
structure FaultsInherited (L : Layout) (s : VmState) (m : KMem) (p np : Fin NPROC)
    (pt : PageTable) (att : ℕ → Option Pte) : Prop where
  /-- A page that can be written is copied on a store, by the parent into a new page. -/
  copy : ∀ va < (s.proc p).sz, (pt.entry (va / PGSIZE)).getLsbD 0 = true →
    (pt.entry (va / PGSIZE)).getLsbD 4 = true →
    ((pt.entry (va / PGSIZE)).getLsbD 2 || (pt.entry (va / PGSIZE)).getLsbD 8) = true →
    (s.proc np).killed = false ∧
      (m.cnt (pte2pa (pt.entry (va / PGSIZE)) / PGSIZE) = 1 ∨ HasPage L m.buddy)
  /-- An attachment answers in the parent as its entry in the child does. -/
  attached : ∀ va < MAXVA, ∀ pte, att (va / PGSIZE) = some pte → ∀ acc : Access,
    answer m (HasPage L m.buddy) ((pt.pte? (va / PGSIZE)).isSome = true) (s.proc p) (s.proc p).sz
        (pt.entry (va / PGSIZE)) va acc =
      if acc.permits pte then some (acc.result (m.frame (pte2pa pte / PGSIZE) (va % PGSIZE)))
      else some .killed
  /-- Any other page that is mapped at the size or above is not copied: the child must find
  the same bytes in a page of zeros, or the parent must not be able to use the page
  either. -/
  beyond : ∀ va < MAXVA, PageTable.reserved (va / PGSIZE) = false → att (va / PGSIZE) = none →
    (s.proc p).sz ≤ pgrounddown va → (pt.entry (va / PGSIZE)).getLsbD 0 = true →
    HasPage L m.buddy ∧ ChildLevel pt (s.proc p).sz att (va / PGSIZE) ∧
      (LazyServed (s.proc np) (s.proc p).sz va →
        (∀ acc : Access, acc.permits (pt.entry (va / PGSIZE)) = true) ∧
        m.frame (pte2pa (pt.entry (va / PGSIZE)) / PGSIZE) (va % PGSIZE) = 0) ∧
      (¬ LazyServed (s.proc np) (s.proc p).sz va →
        ∀ acc : Access, acc.permits (pt.entry (va / PGSIZE)) = false)
  /-- A page that is not mapped is allocated on demand in both or in neither. -/
  demand : ∀ va < MAXVA, att (va / PGSIZE) = none →
    (pt.entry (va / PGSIZE)).getLsbD 0 = false → HasPage L m.buddy →
    ((pt.pte? (va / PGSIZE)).isSome = true ↔ ChildLevel pt (s.proc p).sz att (va / PGSIZE)) ∧
      ((pt.pte? (va / PGSIZE)).isSome = true →
        (LazyServed (s.proc np) (s.proc p).sz va ↔ LazyServed (s.proc p) (s.proc p).sz va))

theorem permits_congr {a b : Pte} (h : ∀ k < 10, a.getLsbD k = b.getLsbD k) :
    acc.permits a = acc.permits b := by
  cases acc with
  | load => simp only [Access.permits, h 0 (by decide), h 4 (by decide), h 1 (by decide)]
  | store => simp only [Access.permits, h 0 (by decide), h 4 (by decide), h 2 (by decide)]

theorem pgrounddown_le (va : ℕ) : pgrounddown va ≤ va := Nat.div_mul_le_self va PGSIZE

theorem mem_copiedPages_of_lt {sz : ℕ} (hva : va < sz)
    (hv : (pt.entry (va / PGSIZE)).getLsbD 0 = true) : va / PGSIZE ∈ copiedPages pt sz :=
  ⟨lt_of_le_of_lt (pgrounddown_le va) hva, hv⟩

section Answers

variable {m : KMem} {left levels : Prop} [Decidable left] [Decidable levels] {pr : Proc} {sz : ℕ}
  {pte : Pte}

/-- A mapped page that is not copied on a store. -/
theorem answer_mapped (hv : pte.getLsbD 0 = true)
    (hcow : ¬ (pte.getLsbD 8 = true ∧ pte.getLsbD 4 = true ∧ va < sz)) :
    answer m left levels pr sz pte va acc =
      if acc.permits pte then some (acc.result (m.frame (pte2pa pte / PGSIZE) (va % PGSIZE)))
      else some .killed := by
  rw [answer, if_pos hv, if_neg hcow]

/-- A page of the kernel. -/
theorem answer_kernel (hv : pte.getLsbD 0 = true) (hU : pte.getLsbD 4 = false) :
    answer m left levels pr sz pte va acc = some .killed := by
  have hcow : ¬ (pte.getLsbD 8 = true ∧ pte.getLsbD 4 = true ∧ va < sz) := by
    rw [hU]
    exact fun hcow => Bool.false_ne_true hcow.2.1
  rw [answer_mapped hv hcow]
  simp only [Access.permits, hU, Bool.and_false, Bool.false_and, Bool.false_eq_true, if_false]

/-- A page that is not mapped. -/
theorem answer_unmapped (hv : pte.getLsbD 0 = false) :
    answer m left levels pr sz pte va acc =
      if levels ∧ left then if LazyServed pr sz va then some (acc.result 0) else some .killed
      else none := by
  rw [answer, permits_invalid hv, hv, if_neg Bool.false_ne_true, if_neg Bool.false_ne_true]

/-- Two processes that do not map a page answer alike. -/
theorem unmapped_alike_iff {levels' served served' : Prop} [Decidable levels'] [Decidable served]
    [Decidable served'] :
    (∀ acc : Access,
      (if levels' ∧ left then if served' then some (acc.result 0) else some .killed else none) =
        if levels ∧ left then if served then some (acc.result 0) else some .killed else none) ↔
      (left → (levels ↔ levels') ∧ (levels → (served' ↔ served))) := by
  by_cases hleft : left
  swap
  · simp only [hleft, and_false, if_false, implies_true, false_implies]
  simp only [hleft, and_true, forall_true_left]
  constructor
  · intro hsame
    have heq := hsame .load
    by_cases hl : levels <;> by_cases hl' : levels' <;> by_cases hs : served <;>
      by_cases hs' : served' <;> simp_all [Access.result]
  · rintro ⟨hlevels, hserved⟩ acc
    by_cases hl : levels
    · simp only [hl, hlevels.mp hl, hserved hl, if_true]
    · simp only [hl, mt hlevels.mpr hl, if_false]

end Answers

namespace Inherited

variable {old old' new : PageTable} {att : ℕ → Option Pte}
  (h : Inherited L s t live p np old old' new att)

include h

theorem parent_table : (t.proc p).pagetable = some old' := by rw [h.parent]

theorem child_table : (t.proc np).pagetable = some new := by
  obtain ⟨trapframe, hchild⟩ := h.child
  rw [hchild]
  rfl

theorem parent_outcome (hmax : va < MAXVA) (acc : Access) :
    accessOutcome L acc p va t = answer t.mem (HasPage L t.mem.buddy)
      ((old.pte? (va / PGSIZE)).isSome = true) (s.proc p) (s.proc p).sz
      (old'.entry (va / PGSIZE)) va acc := by
  rw [accessOutcome_eq h.heap h.parent_table hmax (fun hsz hv _ => ?_) acc]
  · simp only [h.old_levels, h.parent]
    rfl
  · rw [h.parent] at hsz
    by_cases hmem : va / PGSIZE ∈ copiedPages old (s.proc p).sz
    · have hpage := h.copied _ hmem
      rw [hpage.parent, pte2pa_cowPte]
      exact hpage.old_live
    · rw [h.old_out _ hmem] at hv
      exact absurd (mem_copiedPages_of_lt hsz hv) hmem

/-- `ustack_top` and `killed` of the child are those that were in its slot. -/
theorem child_outcome (hsz : (s.proc p).sz ≤ TRAPFRAME) (hmax : va < MAXVA) (acc : Access) :
    accessOutcome L acc np va t = answer t.mem (HasPage L t.mem.buddy)
      ((new.pte? (va / PGSIZE)).isSome = true) (s.proc np) (s.proc p).sz
      (new.entry (va / PGSIZE)) va acc := by
  obtain ⟨trapframe, hchild⟩ := h.child
  rw [accessOutcome_eq h.heap h.child_table hmax (fun hva hv hF => ?_) acc]
  · rw [hchild]
    rfl
  · rw [hchild] at hva
    by_cases hmem : va / PGSIZE ∈ copiedPages old (s.proc p).sz
    · exact (h.copied _ hmem).new_live
    exfalso
    cases hatt : att (va / PGSIZE) with
    | some pte =>
      obtain ⟨hentry, -, hF', -⟩ := h.table.attached _ pte hatt
      rw [hentry, hF'] at hF
      cases hF
    | none =>
      have hlt := page_lt_of_below hsz (lt_of_le_of_lt (pgrounddown_le va) hva)
      rw [h.table.blank _ (not_reserved_of_lt hlt) hmem hatt] at hv
      cases hv

theorem child_level (v : ℕ) :
    (new.pte? v).isSome = true ↔ ChildLevel old (s.proc p).sz att v :=
  h.table.covers.pte?_isSome v

/-- A page that was copied. -/
theorem same_copied (hsz : (s.proc p).sz ≤ TRAPFRAME) (halive : (s.proc p).killed = false)
    (hmax : va < MAXVA) (hmem : va / PGSIZE ∈ copiedPages old (s.proc p).sz) :
    (∀ acc, accessOutcome L acc np va t = accessOutcome L acc p va t) ↔
      (va < (s.proc p).sz → (old.entry (va / PGSIZE)).getLsbD 4 = true →
        ((old.entry (va / PGSIZE)).getLsbD 2 || (old.entry (va / PGSIZE)).getLsbD 8) = true →
        (s.proc np).killed = false ∧
          (t.mem.cnt (pte2pa (old.entry (va / PGSIZE)) / PGSIZE) = 1 ∨
            HasPage L t.mem.buddy)) := by
  have hpage := h.copied _ hmem
  obtain ⟨hV, -, hW, hU, hF⟩ := cowPte_bits (old.entry (va / PGSIZE))
  rw [← hpage.parent] at hV hW hU hF
  rw [hmem.2] at hV
  have hpa : pte2pa (old'.entry (va / PGSIZE)) = pte2pa (old.entry (va / PGSIZE)) := by
    rw [hpage.parent, pte2pa_cowPte]
  have hstore : Access.store.permits (old'.entry (va / PGSIZE)) = false := by
    simp only [Access.permits, hW, Bool.and_false]
  simp only [h.child_outcome hsz hmax, h.parent_outcome hmax, answer, permits_congr hpage.flags,
    hpage.flags 0 (by decide), hpage.flags 8 (by decide), hpage.flags 4 (by decide), hpage.frame,
    hpage.single, hpa, hV, hU, hF, halive, true_or, if_true]
  by_cases hcow : ((old.entry (va / PGSIZE)).getLsbD 2 ||
      (old.entry (va / PGSIZE)).getLsbD 8) = true ∧
      (old.entry (va / PGSIZE)).getLsbD 4 = true ∧ va < (s.proc p).sz
  · simp only [if_pos hcow]
    constructor
    · intro hsame _ _ _
      have heq := hsame .store
      rw [hstore, if_neg Bool.false_ne_true, if_neg Bool.false_ne_true] at heq
      by_cases hroom : t.mem.cnt (pte2pa (old.entry (va / PGSIZE)) / PGSIZE) = 1 ∨
          HasPage L t.mem.buddy
      · refine ⟨?_, hroom⟩
        rw [if_pos hroom] at heq
        cases hdead : (s.proc np).killed with
        | false => rfl
        | true =>
          rw [hdead] at heq
          cases heq
      · rw [if_neg hroom] at heq
        cases heq
    · intro hcond acc
      obtain ⟨hdead, hroom⟩ := hcond hcow.2.2 hcow.2.1 hcow.1
      rw [hdead, if_pos hroom]
  · simp only [if_neg hcow, implies_true, true_iff]
    exact fun hva hU' hW' => absurd ⟨hW', hU', hva⟩ hcow

/-- A page that the parent has attached. -/
theorem same_attached (hsz : (s.proc p).sz ≤ TRAPFRAME) (hmax : va < MAXVA) {pte : Pte}
    (hatt : att (va / PGSIZE) = some pte) :
    (∀ acc, accessOutcome L acc np va t = accessOutcome L acc p va t) ↔ ∀ acc : Access,
      answer t.mem (HasPage L t.mem.buddy) ((old.pte? (va / PGSIZE)).isSome = true) (s.proc p)
          (s.proc p).sz (old.entry (va / PGSIZE)) va acc =
        if acc.permits pte then some (acc.result (t.mem.frame (pte2pa pte / PGSIZE) (va % PGSIZE)))
        else some .killed := by
  obtain ⟨hentry, hv, hF, -, -, hout⟩ := h.table.attached _ pte hatt
  have hcow : ¬ (pte.getLsbD 8 = true ∧ pte.getLsbD 4 = true ∧ va < (s.proc p).sz) := by
    rw [hF]
    exact fun hcow => Bool.false_ne_true hcow.1
  refine forall_congr' fun acc => ?_
  rw [h.child_outcome hsz hmax, h.parent_outcome hmax, hentry, h.old_out _ hout,
    answer_mapped hv hcow]
  exact eq_comm

/-- A page at the size or above that the parent maps for itself. -/
theorem same_beyond (hsz : (s.proc p).sz ≤ TRAPFRAME) (hmax : va < MAXVA)
    (hres : PageTable.reserved (va / PGSIZE) = false) (hatt : att (va / PGSIZE) = none)
    (hle : (s.proc p).sz ≤ pgrounddown va) (hv : (old.entry (va / PGSIZE)).getLsbD 0 = true) :
    (∀ acc, accessOutcome L acc np va t = accessOutcome L acc p va t) ↔
      HasPage L t.mem.buddy ∧ ChildLevel old (s.proc p).sz att (va / PGSIZE) ∧
        (LazyServed (s.proc np) (s.proc p).sz va →
          (∀ acc : Access, acc.permits (old.entry (va / PGSIZE)) = true) ∧
          t.mem.frame (pte2pa (old.entry (va / PGSIZE)) / PGSIZE) (va % PGSIZE) = 0) ∧
        (¬ LazyServed (s.proc np) (s.proc p).sz va →
          ∀ acc : Access, acc.permits (old.entry (va / PGSIZE)) = false) := by
  have hout : va / PGSIZE ∉ copiedPages old (s.proc p).sz := fun hin =>
    Nat.not_lt.mpr hle hin.1
  have hva : ¬ va < (s.proc p).sz := Nat.not_lt.mpr (hle.trans (pgrounddown_le va))
  have hblank : (new.entry (va / PGSIZE)).getLsbD 0 = false := by
    rw [h.table.blank _ hres hout hatt]
    rfl
  simp only [h.child_outcome hsz hmax, h.parent_outcome hmax, h.old_out _ hout,
    answer_unmapped hblank, answer_mapped hv (fun hcow => hva hcow.2.2), ← h.child_level]
  by_cases hroom : (new.pte? (va / PGSIZE)).isSome = true ∧ HasPage L t.mem.buddy
  swap
  · refine iff_of_false (fun hsame => ?_) fun hcond => hroom ⟨hcond.2.1, hcond.1⟩
    have heq := hsame .load
    rw [if_neg hroom] at heq
    split at heq <;> cases heq
  simp only [hroom, true_and, and_self, if_true]
  by_cases hserved : LazyServed (s.proc np) (s.proc p).sz va
  · simp only [hserved, if_true, forall_true_left, not_true_eq_false, false_implies, and_true]
    constructor
    · intro hsame
      have hall : ∀ acc : Access, acc.permits (old.entry (va / PGSIZE)) = true := by
        intro acc
        have heq := hsame acc
        by_contra hperm
        rw [if_neg hperm] at heq
        exact acc.result_ne_killed _ (Option.some.inj heq)
      have heq := hsame .load
      rw [if_pos (hall .load)] at heq
      exact ⟨hall, (Outcome.value.inj (Option.some.inj heq)).symm⟩
    · rintro ⟨hall, hzero⟩ acc
      rw [if_pos (hall acc), hzero]
  · simp only [hserved, if_false, false_implies, not_false_eq_true, forall_true_left, true_and]
    refine forall_congr' fun acc => ?_
    cases acc.permits (old.entry (va / PGSIZE)) with
    | true => simp [(acc.result_ne_killed _).symm]
    | false => simp

/-- A page that the parent does not map. -/
theorem same_demand (hsz : (s.proc p).sz ≤ TRAPFRAME) (hkernel : KernelMapped old)
    (hmax : va < MAXVA) (hatt : att (va / PGSIZE) = none)
    (hv : (old.entry (va / PGSIZE)).getLsbD 0 = false) :
    (∀ acc, accessOutcome L acc np va t = accessOutcome L acc p va t) ↔
      (HasPage L t.mem.buddy →
        ((old.pte? (va / PGSIZE)).isSome = true ↔
          ChildLevel old (s.proc p).sz att (va / PGSIZE)) ∧
        ((old.pte? (va / PGSIZE)).isSome = true →
          (LazyServed (s.proc np) (s.proc p).sz va ↔
            LazyServed (s.proc p) (s.proc p).sz va))) := by
  have hout : va / PGSIZE ∉ copiedPages old (s.proc p).sz := by
    intro hin
    rw [hin.2] at hv
    cases hv
  have hres : PageTable.reserved (va / PGSIZE) = false := by
    refine Bool.eq_false_iff.mpr fun hres => ?_
    rw [(hkernel _ hres).1] at hv
    cases hv
  have hblank : (new.entry (va / PGSIZE)).getLsbD 0 = false := by
    rw [h.table.blank _ hres hout hatt]
    rfl
  simp only [h.child_outcome hsz hmax, h.parent_outcome hmax, h.old_out _ hout,
    answer_unmapped hblank, answer_unmapped hv, ← h.child_level]
  exact unmapped_alike_iff

/-- The kernel's own pages kill in both. -/
theorem same_kernel (hsz : (s.proc p).sz ≤ TRAPFRAME) (hkernel : KernelMapped old)
    (hmax : va < MAXVA) (hres : PageTable.reserved (va / PGSIZE) = true) (acc : Access) :
    accessOutcome L acc np va t = accessOutcome L acc p va t := by
  have hout : va / PGSIZE ∉ copiedPages old (s.proc p).sz := by
    intro hin
    rw [not_reserved_of_copied hsz hin] at hres
    cases hres
  obtain ⟨hV, hU⟩ := hkernel _ hres
  obtain ⟨hV', hU'⟩ := h.table.kernel _ hres
  rw [h.child_outcome hsz hmax, h.parent_outcome hmax, h.old_out _ hout, answer_kernel hV' hU',
    answer_kernel hV hU]

/-- No access gets past the end of the address space. -/
theorem same_above (htable : UserTable old) (hmax : ¬ va < MAXVA) (acc : Access) :
    accessOutcome L acc np va t = accessOutcome L acc p va t := by
  have hfar : MAXVA / PGSIZE ≤ va / PGSIZE := Nat.div_le_div_right (Nat.not_lt.mp hmax)
  have hv : (old.entry (va / PGSIZE)).getLsbD 0 = false :=
    Bool.eq_false_iff.mpr fun hv => Nat.not_lt.mpr hfar (htable.below _ hv)
  have hout : va / PGSIZE ∉ copiedPages old (s.proc p).sz := by
    intro hin
    rw [hin.2] at hv
    cases hv
  have hres : PageTable.reserved (va / PGSIZE) = false := by
    refine Bool.eq_false_iff.mpr fun hres => ?_
    rw [(htable.kernel _ hres).1] at hv
    cases hv
  have hatt : att (va / PGSIZE) = none := by
    cases hatt : att (va / PGSIZE) with
    | none => rfl
    | some pte => exact absurd (h.table.attached _ pte hatt).2.2.2.1 (Nat.not_lt.mpr hfar)
  rw [accessOutcome_above h.child_table hmax (by rw [h.table.blank _ hres hout hatt]; rfl),
    accessOutcome_above h.parent_table hmax (by rw [h.old_out _ hout, hv])]

/-- Both processes answer every access alike exactly if no address shows what the child did
not inherit. -/
theorem sameFaults_iff_inherited (hsz : (s.proc p).sz ≤ TRAPFRAME)
    (halive : (s.proc p).killed = false) (htable : UserTable old) :
    SameFaults L t p np ↔ FaultsInherited L s t.mem p np old att := by
  rw [sameFaults_iff]
  constructor
  · intro hsame
    constructor
    · intro va hva hv hU hW
      exact (h.same_copied hsz halive (lt_maxva hsz hva) (mem_copiedPages_of_lt hva hv)).mp
        (hsame va) hva hU hW
    · intro va hmax pte hatt
      exact (h.same_attached hsz hmax hatt).mp (hsame va)
    · intro va hmax hres hatt hle hv
      exact (h.same_beyond hsz hmax hres hatt hle hv).mp (hsame va)
    · intro va hmax hatt hv
      exact (h.same_demand hsz htable.kernel hmax hatt hv).mp (hsame va)
  · intro hcond va
    by_cases hmax : va < MAXVA
    swap
    · exact h.same_above htable hmax
    cases hatt : att (va / PGSIZE) with
    | some pte => exact (h.same_attached hsz hmax hatt).mpr (hcond.attached va hmax pte hatt)
    | none =>
      cases hres : PageTable.reserved (va / PGSIZE) with
      | true => exact h.same_kernel hsz htable.kernel hmax hres
      | false =>
        cases hv : (old.entry (va / PGSIZE)).getLsbD 0 with
        | false =>
          exact (h.same_demand hsz htable.kernel hmax hatt hv).mpr (hcond.demand va hmax hatt hv)
        | true =>
          by_cases hmem : va / PGSIZE ∈ copiedPages old (s.proc p).sz
          · exact (h.same_copied hsz halive hmax hmem).mpr fun hva => hcond.copy va hva hv
          · have hle : (s.proc p).sz ≤ pgrounddown va :=
              Nat.not_lt.mp fun hlt => hmem ⟨hlt, hv⟩
            exact (h.same_beyond hsz hmax hres hatt hle hv).mpr
              (hcond.beyond va hmax hres hatt hle hv)

end Inherited

/-! ## Tables without further entries -/

namespace TableOf

variable {m : KMem} {att : ℕ → Option Pte}

theorem userTable {C : Set ℕ} (h : TableOf pt C att) (hC : ∀ w ∈ C, w < MAXVA / PGSIZE) :
    UserTable pt := by
  refine ⟨h.kernel, fun w hv => ?_⟩
  by_cases hres : PageTable.reserved w = true
  · have hle : TRAPFRAME / PGSIZE < MAXVA / PGSIZE ∧ TRAMPOLINE / PGSIZE < MAXVA / PGSIZE := by
      decide
    rcases reserved_iff.mp hres with rfl | rfl
    · exact hle.2
    · exact hle.1
  by_cases hw : w ∈ C
  · exact hC w hw
  cases hatt : att w with
  | some pte => exact (h.attached w pte hatt).2.2.2.1
  | none =>
    rw [h.blank w (Bool.eq_false_iff.mpr hres) hw hatt] at hv
    cases hv

/-- A parent that maps nothing but what its child inherits, with a slot for the child that
agrees with its own, while a page is left. -/
theorem faultsInherited (h : TableOf pt (copiedPages pt (s.proc p).sz) att)
    (hkilled : (s.proc p).killed = false) (hkilled' : (s.proc np).killed = false)
    (hstack : (s.proc np).ustackTop = (s.proc p).ustackTop) (hleft : HasPage L m.buddy) :
    FaultsInherited L s m p np pt att where
  copy _ _ _ _ _ := ⟨hkilled', Or.inr hleft⟩
  attached va hmax pte hatt acc := by
    obtain ⟨hentry, hv, hF, -⟩ := h.attached _ pte hatt
    rw [hentry, answer_mapped hv]
    rw [hF]
    exact fun hcow => Bool.false_ne_true hcow.1
  beyond va _ hres hatt hle hv := by
    have hout : va / PGSIZE ∉ copiedPages pt (s.proc p).sz := fun hin => Nat.not_lt.mpr hle hin.1
    rw [h.blank _ hres hout hatt] at hv
    cases hv
  demand va _ _ _ _ := by
    refine ⟨h.covers.pte?_isSome _, fun _ => ?_⟩
    simp only [LazyServed, hkilled, hkilled', hstack]

end TableOf

end LearnOS
