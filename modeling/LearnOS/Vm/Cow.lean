import LearnOS.Vm.Access

/-!
# Copy-on-write is transparent

User loads and stores, with the faults they take, against a machine in which
every process owns private copies of its pages from the moment of the fork.

## Main results

`cow_transparent`: at addresses below the size of the process the two machines
give the same answers in every interleaving, and permissions agree.
`store_above_size_killed`: at an address between the size and the end of its page
they do not, since `usertrap` kills the process there.
-/

namespace LearnOS

open Ownership Transition Function Kres

/-- What user code sees of an instruction. -/
inductive Outcome where
  | value (b : BitVec 8)
  | stored
  | killed
  | stuck
  | forked (np : Option (Fin NPROC))
  deriving DecidableEq

def userLoad (L : Layout) (p : Fin NPROC) (va : ℕ) (s : VmState) : Kres (Outcome × VmState) := do
  let (r, s) ← attempt L .load p va maxAttempts s
  match r with
  | .done pa => return (.value (s.mem.frame (pa / PGSIZE) (va % PGSIZE)), s)
  | .killed => return (.killed, s)
  | .again => return (.stuck, s)

def KMem.storeByte (m : KMem) (pa off : ℕ) (b : BitVec 8) : KMem :=
  { m with
    frame := update m.frame (pa / PGSIZE)
      (update (m.frame (pa / PGSIZE)) off b) }

def userStore (L : Layout) (p : Fin NPROC) (va : ℕ) (b : BitVec 8) (s : VmState) :
    Kres (Outcome × VmState) := do
  let (r, s) ← attempt L .store p va maxAttempts s
  match r with
  | .done pa => return (.stored, { s with mem := s.mem.storeByte pa (va % PGSIZE) b })
  | .killed => return (.killed, s)
  | .again => return (.stuck, s)

/-! ## Eager private copies -/

/-- The reference machine: each process has its own pages. -/
structure Eager where
  page : Fin NPROC → ℕ → Option PageView
  sz : Fin NPROC → ℕ

def Eager.load (e : Eager) (p : Fin NPROC) (va : ℕ) : Outcome :=
  match e.page p (va / PGSIZE) with
  | some pg =>
    if pg.perms.user && pg.perms.readable then .value (pg.data (va % PGSIZE)) else .killed
  | none => .killed

def Eager.store (e : Eager) (p : Fin NPROC) (va : ℕ) (b : BitVec 8) : Outcome × Eager :=
  match e.page p (va / PGSIZE) with
  | some pg =>
    if pg.perms.user && pg.perms.writable then
      (.stored, { e with
        page := update e.page p (update (e.page p) (va / PGSIZE)
          (some { pg with data := update pg.data (va % PGSIZE) b })) })
    else (.killed, e)
  | none => (.killed, e)

/-- The child receives copies of all pages below the size. -/
def Eager.fork (e : Eager) (p : Fin NPROC) : Option (Fin NPROC) → Eager
  | none => e
  | some np =>
    { page := update e.page np fun v => if v * PGSIZE < e.sz p then e.page p v else none
      sz := update e.sz np (e.sz p) }

inductive UserOp where
  | load (p : Fin NPROC) (va : ℕ)
  | store (p : Fin NPROC) (va : ℕ) (b : BitVec 8)
  | fork (p : Fin NPROC)
  deriving DecidableEq

/-- The steps of the reference machine; which slot the child gets is up to the
kernel. -/
inductive EagerStep : Eager → UserOp × Outcome → Eager → Prop
  | load (e : Eager) (p : Fin NPROC) (va : ℕ) : EagerStep e (.load p va, e.load p va) e
  | store (e : Eager) (p : Fin NPROC) (va : ℕ) (b : BitVec 8) :
      EagerStep e (.store p va b, (e.store p va b).1) (e.store p va b).2
  | fork (e : Eager) (p : Fin NPROC) (np : Option (Fin NPROC)) :
      EagerStep e (.fork p, .forked np) (e.fork p np)

theorem EagerStep.store_eq {e e' : Eager} {b : BitVec 8} (h : EagerStep e (.store p va b, o) e') :
    o = (e.store p va b).1 := by
  cases h
  rfl

theorem EagerStep.fork_eq {e e' : Eager} {np : Option (Fin NPROC)}
    (h : EagerStep e (.fork p, .forked np) e') : e' = e.fork p np := by
  cases h
  rfl

/-- Steps of the kernel's machine. An access is to an address in a mapped page. -/
inductive UserStep (L : Layout) : VmState → UserOp × Outcome → VmState → Prop
  | load {s s' : VmState} {p : Fin NPROC} {va : ℕ} {o : Outcome} (halive : Alive s p)
      (hpage : (s.view p (va / PGSIZE)).isSome) (hcall : userLoad L p va s = .ok (o, s')) :
      UserStep L s (.load p va, o) s'
  | store {s s' : VmState} {p : Fin NPROC} {va : ℕ} {b : BitVec 8} {o : Outcome}
      (halive : Alive s p) (hpage : (s.view p (va / PGSIZE)).isSome)
      (hcall : userStore L p va b s = .ok (o, s')) : UserStep L s (.store p va b, o) s'
  | fork {s s' : VmState} {p : Fin NPROC} {np : Option (Fin NPROC)} (halive : Alive s p)
      (hcall : fork L (kalloc L) p s = .ok (np, s')) :
      UserStep L s (.fork p, .forked np) s'

/-- The access lies below the size of the process. -/
def BelowSize (s : VmState) : UserOp × Outcome → Prop
  | (.load p va, _) => va < (s.proc p).sz
  | (.store p va _, _) => va < (s.proc p).sz
  | (.fork _, _) => True

variable {L : Layout} {s s' : VmState} {pt pt' : PageTable} {p : Fin NPROC} {e : Eager} {va : ℕ}
  {o : Outcome}

/-! ## Simulation -/

/-- The reference machine that starts in the current state. -/
def eagerOf (s : VmState) : Eager := { page := s.view, sz := fun i => (s.proc i).sz }

/-- The reference machine shows what the processes see below their sizes. -/
structure Shows (L : Layout) (s : VmState) (e : Eager) : Prop where
  inv : CowInv L s
  sz : ∀ i, (s.proc i).state ≠ .UNUSED → e.sz i = (s.proc i).sz
  page : ∀ i v, (s.proc i).state ≠ .UNUSED → v * PGSIZE < (s.proc i).sz → e.page i v = s.view i v

theorem Shows.of_unchanged (h : Shows L s e) (hinv : CowInv L s') (hsame : Unchanged s s' p) :
    Shows L s' e where
  inv := hinv
  sz i hi := by
    rw [hsame.sz_eq]
    exact h.sz i (by rwa [hsame.state_eq] at hi)
  page i v hi hv := by
    rw [hsame.sz_eq] at hv
    rw [hsame.view i v hv]
    exact h.page i v (by rwa [hsame.state_eq] at hi) hv

theorem exists_mapped {v : ℕ} (h : (s.view p v).isSome) :
    ∃ pt, (s.proc p).pagetable = some pt ∧ (pt.entry v).getLsbD 0 = true ∧
      s.view p v = some ⟨Pte.perms (pt.entry v), s.mem.frame (pte2pa (pt.entry v) / PGSIZE)⟩ := by
  cases hpt : (s.proc p).pagetable with
  | none => simp [VmState.view, hpt] at h
  | some pt =>
    rw [VmState.view_eq s hpt] at h ⊢
    cases hv : (pt.entry v).getLsbD 0 with
    | false =>
      rw [hv] at h
      cases h
    | true => exact ⟨pt, rfl, hv, if_pos rfl⟩

/-- The page that an answered access reaches holds what the view shows. -/
theorem frame_of_view (hsame : Unchanged s s' p) (hva : va / PGSIZE * PGSIZE < (s.proc p).sz)
    (hpt : (s.proc p).pagetable = some pt) (hv : (pt.entry (va / PGSIZE)).getLsbD 0 = true)
    (hpt' : (s'.proc p).pagetable = some pt') (hv' : (pt'.entry (va / PGSIZE)).getLsbD 0 = true) :
    s'.mem.frame (pte2pa (pt'.entry (va / PGSIZE)) / PGSIZE) =
        s.mem.frame (pte2pa (pt.entry (va / PGSIZE)) / PGSIZE) ∧
      Pte.perms (pt'.entry (va / PGSIZE)) = Pte.perms (pt.entry (va / PGSIZE)) := by
  have hview := hsame.view p _ hva
  rw [VmState.view_eq _ hpt, VmState.view_eq _ hpt', if_pos hv, if_pos hv', Option.some.injEq,
    PageView.mk.injEq] at hview
  exact ⟨hview.2, hview.1⟩

theorem load_simulated (h : Shows L s e) (halive : Alive s p)
    (hpage : (s.view p (va / PGSIZE)).isSome) (hva : va < (s.proc p).sz)
    (hcall : userLoad L p va s = .ok (o, s')) : o = e.load p va ∧ Shows L s' e := by
  obtain ⟨pt, hpt, hv, hview⟩ := exists_mapped hpage
  have hbelow : va / PGSIZE * PGSIZE < (s.proc p).sz :=
    lt_of_le_of_lt (Nat.div_mul_le_self va PGSIZE) hva
  have hload : e.load p va = if Access.load.allowed (Pte.perms (pt.entry (va / PGSIZE))) then
      .value (s.mem.frame (pte2pa (pt.entry (va / PGSIZE)) / PGSIZE) (va % PGSIZE))
      else .killed := by
    simp only [Eager.load, h.page p _ halive.1.ne_unused hbelow, hview, Access.allowed]
    rfl
  rcases attempt_answered .load h.inv halive.2 hpt hva hv with
    herr | ⟨r, t, hatt, hans⟩
  · simp only [userLoad, herr, error_bind] at hcall
    cases hcall
  · simp only [userLoad, hatt, ok_bind] at hcall
    cases hyes : Access.load.allowed (Pte.perms (pt.entry (va / PGSIZE))) with
    | true =>
      obtain ⟨pt', hpt', hv', rfl⟩ := hans.allowed hyes
      cases hcall
      refine ⟨?_, h.of_unchanged hans.inv hans.same⟩
      rw [hload, hyes, if_pos rfl, (frame_of_view hans.same hbelow hpt hv hpt' hv').1]
    | false =>
      obtain rfl := hans.denied hyes
      cases hcall
      refine ⟨?_, h.of_unchanged hans.inv hans.same⟩
      rw [hload, hyes]
      rfl

/-- A store changes one byte of one page of one process. -/
theorem Shows.store (b : BitVec 8) (h : Shows L s e) (halive : (s.proc p).state ≠ .UNUSED)
    (hva : va < (s.proc p).sz) (hpt : (s.proc p).pagetable = some pt)
    (hv : (pt.entry (va / PGSIZE)).getLsbD 0 = true) :
    Shows L { s with mem := s.mem.storeByte (pte2pa (pt.entry (va / PGSIZE))) (va % PGSIZE) b }
      { e with
        page := update e.page p (update (e.page p) (va / PGSIZE)
          (some ⟨Pte.perms (pt.entry (va / PGSIZE)), update
            (s.mem.frame (pte2pa (pt.entry (va / PGSIZE)) / PGSIZE)) (va % PGSIZE) b⟩)) } := by
  obtain ⟨live, ht⟩ := h.inv.tracked
  have hbelow : va / PGSIZE * PGSIZE < (s.proc p).sz :=
    lt_of_le_of_lt (Nat.div_mul_le_self va PGSIZE) hva
  have hown := own_user_of_valid hpt (page_lt_of_below (h.inv.sz_le p) hbelow) hv
  refine ⟨⟨⟨live, ht.heap, ht.held, ht.exclusive⟩, h.inv.sz_le⟩, h.sz, fun i w hi hw => ?_⟩
  simp only at hi hw ⊢
  by_cases hpage : i = p ∧ w = va / PGSIZE
  · obtain ⟨rfl, rfl⟩ := hpage
    rw [update_self, update_self]
    simp only [VmState.view, hpt, hv, if_true, KMem.storeByte, update_self]
  · have hleft : update e.page p (update (e.page p) (va / PGSIZE)
        (some ⟨Pte.perms (pt.entry (va / PGSIZE)), update
          (s.mem.frame (pte2pa (pt.entry (va / PGSIZE)) / PGSIZE)) (va % PGSIZE) b⟩)) i w =
        e.page i w := by
      by_cases hip : i = p
      · subst hip
        rw [update_self, update_of_ne fun hwv => hpage ⟨rfl, hwv⟩]
      · rw [update_of_ne hip]
    rw [hleft, h.page i w hi hw]
    simp only [VmState.view]
    split
    · rfl
    · next pt₁ hpt₁ =>
        split
        · next hvalid =>
            have hown₁ := own_user_of_valid hpt₁ (page_lt_of_below (h.inv.sz_le i) hw) hvalid
            have hne : pte2pa (pt₁.entry w) / PGSIZE ≠
                pte2pa (pt.entry (va / PGSIZE)) / PGSIZE := by
              intro heq
              have hsame := page_eq_of_frame_eq (ht.not_badPage hown₁) (ht.not_badPage hown) heq
              rw [hsame] at hown₁
              have hslot := ht.exclusive _ _ _ hown₁ hown
              exact hpage (by simpa using hslot)
            simp only [KMem.storeByte, update_of_ne hne]
        · rfl

theorem store_simulated {b : BitVec 8} (h : Shows L s e) (halive : Alive s p)
    (hpage : (s.view p (va / PGSIZE)).isSome) (hva : va < (s.proc p).sz)
    (hcall : userStore L p va b s = .ok (o, s')) :
    o = (e.store p va b).1 ∧ Shows L s' (e.store p va b).2 := by
  obtain ⟨pt, hpt, hv, hview⟩ := exists_mapped hpage
  have hbelow : va / PGSIZE * PGSIZE < (s.proc p).sz :=
    lt_of_le_of_lt (Nat.div_mul_le_self va PGSIZE) hva
  have hstore : e.store p va b =
      if Access.store.allowed (Pte.perms (pt.entry (va / PGSIZE))) then
        (.stored, { e with
          page := update e.page p (update (e.page p) (va / PGSIZE)
            (some ⟨Pte.perms (pt.entry (va / PGSIZE)), update
              (s.mem.frame (pte2pa (pt.entry (va / PGSIZE)) / PGSIZE)) (va % PGSIZE) b⟩)) })
      else (.killed, e) := by
    simp only [Eager.store, h.page p _ halive.1.ne_unused hbelow, hview, Access.allowed]
    rfl
  rcases attempt_answered .store h.inv halive.2 hpt hva hv with
    herr | ⟨r, t, hatt, hans⟩
  · simp only [userStore, herr, error_bind] at hcall
    cases hcall
  · simp only [userStore, hatt, ok_bind] at hcall
    cases hyes : Access.store.allowed (Pte.perms (pt.entry (va / PGSIZE))) with
    | true =>
      obtain ⟨pt', hpt', hv', rfl⟩ := hans.allowed hyes
      cases hcall
      rw [hstore, hyes, if_pos rfl]
      refine ⟨rfl, ?_⟩
      obtain ⟨hdata, hperms⟩ := frame_of_view hans.same hbelow hpt hv hpt' hv'
      rw [← hdata, ← hperms]
      exact (h.of_unchanged hans.inv hans.same).store b
        (by rw [hans.same.state]; exact halive.1.ne_unused)
        (by rw [hans.same.sz]; exact hva) hpt' hv'
    | false =>
      obtain rfl := hans.denied hyes
      cases hcall
      rw [hstore, hyes]
      exact ⟨rfl, h.of_unchanged hans.inv hans.same⟩

section Fork

variable {live : List (ℕ × ℕ)} {np : Fin NPROC} {old old' new' : PageTable}

/-- The child has the size of its parent, all others keep theirs. -/
theorem fork_shows_size (h : Shows L s e) (halive : Alive s p)
    (hf : Forked s s' live p np old old' new') (i : Fin NPROC)
    (hi : (s'.proc i).state ≠ .UNUSED) : (e.fork p (some np)).sz i = (s'.proc i).sz := by
  by_cases hnp : i = np
  · obtain ⟨trapframe, hchild⟩ := hf.child
    rw [hnp, hchild]
    simp only [Eager.fork, update_self]
    exact h.sz p halive.1.ne_unused
  · simp only [Eager.fork, update_of_ne hnp]
    by_cases hip : i = p
    · rw [hip, hf.parent]
      exact h.sz p halive.1.ne_unused
    · rw [hf.other i hip hnp] at hi ⊢
      exact h.sz i hi

/-- The child sees the pages of its parent. -/
theorem fork_shows_child (h : Shows L s e) (halive : Alive s p)
    (hpt : (s.proc p).pagetable = some old) (hf : Forked s s' live p np old old' new') {v : ℕ}
    (hv : v * PGSIZE < (s.proc p).sz) : (e.fork p (some np)).page np v = s'.view np v := by
  have hnew : (s'.proc np).pagetable = some new' := by
    obtain ⟨trapframe, hchild⟩ := hf.child
    rw [hchild]
    rfl
  simp only [Eager.fork, update_self, h.sz p halive.1.ne_unused, if_pos hv,
    h.page p v halive.1.ne_unused hv]
  rw [VmState.view_eq s hpt, VmState.view_eq s' hnew]
  cases hvalid : (old.entry v).getLsbD 0 with
  | true =>
    obtain ⟨hsim, hdata⟩ := hf.new_in v ⟨hv, hvalid⟩
    rw [hsim.valid, hvalid, hsim.perms, hdata]
  | false =>
    have hout : v ∉ copiedPages old (s.proc p).sz := fun hin => by
      rw [hin.2] at hvalid
      cases hvalid
    rw [hf.new_out v (not_reserved_of_lt (page_lt_of_below (h.inv.sz_le p) hv)) hout]
    rfl

/-- A page of any process keeps its contents. -/
theorem fork_keeps_frame (h : Shows L s e) (ht : Tracked L s.mem live s.own)
    (hf : Forked s s' live p np old old' new') {i : Fin NPROC} {v : ℕ}
    (hpt : (s.proc i).pagetable = some pt) (hv : v * PGSIZE < (s.proc i).sz)
    (hvalid : (pt.entry v).getLsbD 0 = true) :
    s'.mem.frame (pte2pa (pt.entry v) / PGSIZE) = s.mem.frame (pte2pa (pt.entry v) / PGSIZE) :=
  hf.frame _ (ht.held _ _ (own_user_of_valid hpt (page_lt_of_below (h.inv.sz_le i) hv) hvalid))

/-- The parent and the other processes see what they saw. -/
theorem fork_keeps_view (h : Shows L s e) (ht : Tracked L s.mem live s.own)
    (hpt : (s.proc p).pagetable = some old) (hf : Forked s s' live p np old old' new')
    {i : Fin NPROC} (hi : i ≠ np) {v : ℕ} (hv : v * PGSIZE < (s.proc i).sz) :
    s'.view i v = s.view i v := by
  by_cases hip : i = p
  · subst hip
    have hold : (s'.proc i).pagetable = some old' := by rw [hf.parent]
    obtain ⟨hsim, hpa⟩ := hf.old_entry v
    rw [VmState.view_eq s hpt, VmState.view_eq s' hold, hsim.valid, hsim.perms, hpa]
    cases hvalid : (old.entry v).getLsbD 0 with
    | true => rw [fork_keeps_frame h ht hf hpt hv hvalid]
    | false => rfl
  · simp only [VmState.view, hf.other i hip hi]
    split
    · rfl
    · next pt₁ hpt₁ =>
        split
        · next hvalid => rw [fork_keeps_frame h ht hf hpt₁ hv hvalid]
        · rfl

end Fork

theorem fork_simulated {np : Option (Fin NPROC)} (h : Shows L s e) (halive : Alive s p)
    (hcall : fork L (kalloc L) p s = .ok (np, s')) : Shows L s' (e.fork p np) := by
  obtain ⟨live, ht⟩ := h.inv.tracked
  rcases exists_pagetable_of_fork halive.1 hcall with ⟨rfl, rfl, -⟩ | ⟨old, hpt⟩
  · exact h
  rcases fork_spec ht halive.1.ne_unused hpt (h.inv.sz_le p) hcall with ⟨rfl, rfl, -⟩ |
    ⟨np, old', new', live', rfl, hf, hgain, -⟩
  · exact h
  refine ⟨⟨⟨live', hgain.tracked⟩, hf.sz_le h.inv.sz_le⟩, fork_shows_size h halive hf,
    fun i v hi hv => ?_⟩
  by_cases hnp : i = np
  · subst hnp
    obtain ⟨trapframe, hchild⟩ := hf.child
    rw [hchild] at hv
    exact fork_shows_child h halive hpt hf hv
  · have hsame : (s'.proc i).state = (s.proc i).state ∧ (s'.proc i).sz = (s.proc i).sz := by
      by_cases hip : i = p
      · rw [hip, hf.parent]
        exact ⟨rfl, rfl⟩
      · rw [hf.other i hip hnp]
        exact ⟨rfl, rfl⟩
    rw [hsame.1] at hi
    rw [hsame.2] at hv
    simp only [Eager.fork, update_of_ne hnp]
    rw [fork_keeps_view h ht hpt hf hnp hv, h.page i v hi hv]

theorem userStep_simulated {label : UserOp × Outcome} (h : Shows L s e)
    (hstep : UserStep L s label s') (hbelow : BelowSize s label) :
    ∃ e', EagerStep e label e' ∧ Shows L s' e' := by
  cases hstep with
  | @load _ p va o halive hpage hcall =>
    obtain ⟨rfl, hshow⟩ := load_simulated h halive hpage hbelow hcall
    exact ⟨e, .load e p va, hshow⟩
  | @store _ p va b o halive hpage hcall =>
    obtain ⟨rfl, hshow⟩ := store_simulated h halive hpage hbelow hcall
    exact ⟨_, .store e p va b, hshow⟩
  | @fork _ p np halive hcall =>
    exact ⟨_, .fork e p np, fork_simulated h halive hcall⟩

theorem shows_eagerOf (h : CowInv L s) : Shows L s (eagerOf s) :=
  ⟨h, fun _ _ => rfl, fun _ _ _ _ => rfl⟩

/-- An access below the size only fails when no page is left for a copy. -/
def FailsOnlyEmpty (L : Layout) (s : VmState) : Prop :=
  ∀ p va, Alive s p → (s.view p (va / PGSIZE)).isSome → va < (s.proc p).sz →
    (∀ e, userLoad L p va s = .error e → e = .nullStore) ∧
      ∀ b e, userStore L p va b s = .error e → e = .nullStore

theorem CowInv.failsOnlyEmpty (h : CowInv L s) : FailsOnlyEmpty L s := by
  intro p va halive hpage hva
  obtain ⟨pt, hpt, hv, -⟩ := exists_mapped hpage
  constructor
  · intro e herr
    rcases attempt_answered .load h halive.2 hpt hva hv with hfail | ⟨r, t, hatt, -⟩
    · simp only [userLoad, hfail, error_bind] at herr
      exact (Except.error.inj herr).symm
    · simp only [userLoad, hatt, ok_bind] at herr
      cases r <;> cases herr
  · intro b e herr
    rcases attempt_answered .store h halive.2 hpt hva hv with hfail | ⟨r, t, hatt, -⟩
    · simp only [userStore, hfail, error_bind] at herr
      exact (Except.error.inj herr).symm
    · simp only [userStore, hatt, ok_bind] at herr
      cases r <;> cases herr

/-- Copy-on-write is transparent: every interleaving of forks, loads and stores
below the sizes of the processes gives the outcomes of the machine with eager
private copies, whose pages keep their permissions. -/
theorem cow_transparent {run : List ((UserOp × Outcome) × VmState)} (h : CowInv L s)
    (hrun : IsRun (UserStep L) s run) (hbelow : Along BelowSize s run) :
    (∃ erun, IsRun EagerStep (eagerOf s) erun ∧ Matching (Shows L) run erun) ∧
      ∀ t ∈ visited s run, FailsOnlyEmpty L t := by
  constructor
  · exact IsRun.simulated (Shows L)
      (fun s a t e hshow hstep => userStep_simulated hshow hstep.1 hstep.2) (shows_eagerOf h)
      (hrun.and_along hbelow)
  · intro t ht
    refine CowInv.failsOnlyEmpty ?_
    refine IsRun.invariant BelowSize (CowInv L) ?_ h hrun hbelow t ht
    intro s a t hinv hok hstep
    obtain ⟨e, -, hshow⟩ := userStep_simulated (shows_eagerOf hinv) hstep hok
    exact hshow.inv

theorem VmInv.cowInv (h : VmInv L s) : CowInv L s := ⟨h.tracked, h.sz_le⟩

/-- The first process forks, and then both processes write and read a byte. -/
theorem cow_transparent_first_fork :
    ∃ s t u v, firstUser smallLayout = .ok s ∧
      UserStep smallLayout s (.fork 0, .forked (some 1)) t ∧
      UserStep smallLayout t (.store 0 8 7, .stored) u ∧
      UserStep smallLayout u (.load 1 8, .value 0x97) v ∧
      ∃ erun, IsRun EagerStep (eagerOf s) erun ∧
        Matching (Shows smallLayout)
          [((.fork 0, .forked (some 1)), t), ((.store 0 8 7, .stored), u),
            ((.load 1 8, .value 0x97), v)] erun := by
  have hrun : (firstUser smallLayout).Yields fun s => Alive s 0 ∧
      (fork smallLayout (kalloc smallLayout) 0 s).Yields fun x =>
        x.1 = some 1 ∧ Alive x.2 0 ∧ 8 < (x.2.proc 0).sz ∧ (x.2.view 0 0).isSome ∧
        (userStore smallLayout 0 8 7 x.2).Yields fun y =>
          y.1 = .stored ∧ Alive y.2 1 ∧ 8 < (y.2.proc 1).sz ∧ (y.2.view 1 0).isSome ∧
          (userLoad smallLayout 1 8 y.2).Yields fun z => z.1 = .value 0x97 := by
    decide +kernel
  obtain ⟨s, hs, halive, ⟨np, t⟩, ht, rfl, halive₁, hsz₁, hview₁, ⟨o, u⟩, hu, rfl, halive₂, hsz₂,
    hview₂, ⟨o, v⟩, hv, rfl⟩ := hrun
  have hstep₁ : UserStep smallLayout s (.fork 0, .forked (some 1)) t := .fork halive ht
  have hstep₂ : UserStep smallLayout t (.store 0 8 7, .stored) u := .store halive₁ hview₁ hu
  have hstep₃ : UserStep smallLayout u (.load 1 8, .value 0x97) v := .load halive₂ hview₂ hv
  have hrun : IsRun (UserStep smallLayout) s
      [((.fork 0, .forked (some 1)), t), ((.store 0 8 7, .stored), u),
        ((.load 1 8, .value 0x97), v)] := ⟨hstep₁, hstep₂, hstep₃, trivial⟩
  exact ⟨s, t, u, v, hs, hstep₁, hstep₂, hstep₃,
    (cow_transparent (vmInv_firstUser hs).cowInv hrun ⟨trivial, hsz₁, hsz₂, trivial⟩).1⟩

/-- The first process after `sbrk(100)` and a fault on its new page. -/
def unalignedUser (L : Layout) : Kres VmState := do
  let s ← firstUser L
  let (_, s) ← sysSbrk L 0 100 s
  usertrapFault L (kalloc L) 0 4146 s

/-- The size ends inside a mapped page. A store behind it, in that page, is killed
after a fork; with eager copies it succeeds. -/
theorem store_above_size_killed :
    ∃ s t u, unalignedUser smallLayout = .ok s ∧
      UserStep smallLayout s (.fork 0, .forked (some 1)) t ∧
      UserStep smallLayout t (.store 0 4296 7, .killed) u ∧
      ¬ ∃ erun, IsRun EagerStep (eagerOf s) erun ∧
        erun.map Prod.fst = [(.fork 0, .forked (some 1)), (.store 0 4296 7, .killed)] := by
  have hrun : (unalignedUser smallLayout).Yields fun s => Alive s 0 ∧
      (∃ pg, s.view 0 1 = some pg ∧ (pg.perms.user && pg.perms.writable) = true) ∧
      (fork smallLayout (kalloc smallLayout) 0 s).Yields fun x =>
        x.1 = some 1 ∧ Alive x.2 0 ∧ (x.2.view 0 1).isSome ∧
        (userStore smallLayout 0 4296 7 x.2).Yields fun y => y.1 = .killed := by
    decide +kernel
  obtain ⟨s, hs, halive, ⟨pg, hview, hallowed⟩, ⟨np, t⟩, ht, rfl, halive₁, hview₁, ⟨o, u⟩, hu,
    rfl⟩ := hrun
  refine ⟨s, t, u, hs, .fork halive ht, .store halive₁ hview₁ hu, ?_⟩
  rintro ⟨erun, herun, hlabels⟩
  obtain ⟨⟨l₁, e₁⟩, ⟨l₂, e₂⟩, rfl⟩ := List.length_eq_two.mp
    ((List.length_map Prod.fst).symm.trans (congrArg List.length hlabels))
  simp only [List.map_cons, List.map_nil, List.cons.injEq, and_true] at hlabels
  obtain ⟨rfl, rfl⟩ := hlabels
  have hforked := herun.1.fork_eq
  have hkilled := herun.2.1.store_eq
  rw [hforked] at hkilled
  have hpg : ((eagerOf s).fork 0 (some 1)).page 0 (4296 / PGSIZE) = some pg := hview
  simp only [Eager.store, hpg, hallowed, if_true] at hkilled
  cases hkilled

end LearnOS
