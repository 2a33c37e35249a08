import LearnOS.Ipc.LockPaths

/-!
# Handles that name nothing

A call is given the number of a slot, the index of a semaphore in a set, or the
address of an attachment. A handle that names nothing should be turned down
before anything is touched. The calls look at their arguments in different ways:
only `shmctl` refuses a negative number, `semctl` does not look at the index, and
`shmdt` does not expect that the address is not found.

## Implementation notes

`poolIndex` and `elements` are the accesses of a call to its pool and to the array
of a set, as the comparisons of the source leave them. The array of a set is as
long as the block that `semget` has asked for; the kernel does not keep that
number, so `capacities` follows it through a run.
-/

namespace LearnOS.Ipc

open LearnOS Transition Function Kres

variable {L : Layout} {k k' : Kernel} {op : Op} {p : Fin NPROC} {cap : ℕ → ℕ} {ops : List SemBuf}
  {events : List SemEvent} {id : ℕ} {z : ℤ}

/-- The number is that of a slot in use. -/
def Live (k : Kernel) (c : IpcKind) (z : ℤ) : Prop :=
  0 ≤ z ∧ z < c.max ∧ (k.slot (c, z.toNat)).state ≠ .UNUSED

instance (k : Kernel) (c : IpcKind) (z : ℤ) : Decidable (Live k c z) :=
  inferInstanceAs (Decidable (_ ∧ _ ∧ _))

/-- The call is given something that names nothing. -/
def BadHandle (k : Kernel) : Op → Prop
  | .shmat _ shmid _ _ _ | .shmctl _ shmid _ _ => ¬ Live k .shm shmid
  | .shmdt p shmaddr => ∀ n ∈ k.nodes (p, .shm), n.va ≠ shmaddr
  | .semop _ semid ops _ =>
    ¬ Live k .sem semid ∨ ∃ b ∈ ops, (k.semid semid.toNat).sz ≤ b.semIndex
  | .semctl _ semid semnum cmd _ _ =>
    ¬ Live k .sem semid ∨
      (cmd = GETVAL ∨ cmd = SETVAL) ∧ ¬ (0 ≤ semnum ∧ semnum < (k.semid semid.toNat).sz)
  | .msgsnd _ msqid _ _ _ | .msgrcv _ msqid _ _ _ _ _ | .msgctl _ msqid _ _ _ =>
    ¬ Live k .msq msqid
  | _ => False

/-- The call returns an error and changes nothing. `shmdt` has no result. -/
def Rejected (L : Layout) (k : Kernel) : Op → Prop
  | .shmat p shmid shmaddr rdonly _ => shmat L p shmid shmaddr rdonly k = .ok (NULL, k)
  | .shmdt p shmaddr => shmdt L p shmaddr k = .ok k
  | .shmctl _ shmid cmd bufFlag => ∃ r < 0, shmctl L shmid cmd bufFlag k = .ok (r, k)
  | .semop p semid ops _ =>
    ∃ r < 0, ∃ events, semop L p semid ops k = .ok (.done r, events, k)
  | .semctl p semid semnum cmd val array =>
    ∃ r < 0, semctl L p semid semnum cmd val array k = .ok (r, k)
  | .msgsnd _ msqid content nowait _ =>
    ∃ r < 0, msgsnd L msqid content nowait k = .ok (.done r, k)
  | .msgrcv _ msqid msgsz msgtype nowait _ _ =>
    ∃ r < 0, msgrcv L msqid msgsz msgtype nowait k = .ok (.done r, none, k)
  | .msgctl p msqid cmd maxlen flag => ∃ r < 0, msgctl L p msqid cmd maxlen flag k = .ok (r, k)
  | _ => True

/-- The index with which a call goes to its pool. -/
def Op.poolIndex (k : Kernel) : Op → Option (IpcKind × ℤ)
  | .shmat _ shmid _ _ _ => if shmid ≥ SHMMAX then none else some (.shm, shmid)
  | .shmdt p shmaddr =>
    ((k.nodes (p, .shm)).find? fun n => n.va = shmaddr).map fun n => (.shm, (n.slot : ℤ))
  | .shmctl _ shmid _ _ =>
    if shmid < 0 ∨ shmid ≥ SHMMAX then none else some (.shm, shmid)
  | .semop _ semid _ _ | .semctl _ semid _ _ _ _ =>
    if semid ≥ SEMMAX then none else some (.sem, semid)
  | .resume p _ => (k.semCall p).map fun x => (.sem, (x.1 : ℤ))
  | .msgsnd _ msqid _ _ _ | .msgrcv _ msqid _ _ _ _ _ | .msgctl _ msqid _ _ _ =>
    if msqid ≥ MSGMAX then none else some (.msq, msqid)
  | _ => none

/-- The elements of a set to which the loop of `semop` can come. -/
def touched (k : Kernel) (id : ℕ) (ops : List SemBuf) : List (ℕ × ℤ) :=
  (ops.takeWhile fun b => b.semIndex < (k.semid id).sz).map fun b => (id, (b.semIndex : ℤ))

/-- The elements of the array of a set that a call reads or writes. -/
def Op.elements (k : Kernel) : Op → List (ℕ × ℤ)
  | .semop _ semid ops _ => if Live k .sem semid then touched k semid.toNat ops else []
  | .resume p _ =>
    match k.semCall p with
    | some (id, _ :: rest) => touched k id rest
    | _ => []
  | .semctl _ semid semnum cmd _ _ =>
    if ¬ Live k .sem semid then []
    else if cmd = GETVAL ∨ cmd = SETVAL then [(semid.toNat, semnum)]
    else if cmd = GETALL ∨ cmd = SETALL then
      (List.range (k.semid semid.toNat).sz).map fun i : ℕ => (semid.toNat, (i : ℤ))
    else []
  | _ => []

/-- A call turns down what names nothing, and goes neither outside its pool nor
outside the array of a set, whose length is given. -/
structure HandlesSafe (L : Layout) (cap : ℕ → ℕ) (k : Kernel) (op : Op) : Prop where
  rejects : BadHandle k op → Rejected L k op
  pool : ∀ x ∈ op.poolIndex k, 0 ≤ x.2 ∧ x.2 < x.1.max
  array : ∀ x ∈ op.elements k, 0 ≤ x.2 ∧ x.2 < cap x.1

/-- What the caller has to see to. -/
def ArgsOk (k : Kernel) : Op → Prop
  | .shmat _ shmid _ _ _ => 0 ≤ shmid
  | .shmdt p shmaddr => ∃ n ∈ k.nodes (p, .shm), n.va = shmaddr
  | .semop _ semid ops _ =>
    0 ≤ semid ∧ (Live k .sem semid → ∀ b ∈ ops, b.semIndex < (k.semid semid.toNat).sz)
  | .semctl _ semid semnum cmd _ _ =>
    0 ≤ semid ∧ (Live k .sem semid → cmd = GETVAL ∨ cmd = SETVAL →
      0 ≤ semnum ∧ semnum < (k.semid semid.toNat).sz)
  | .msgsnd _ msqid _ _ _ | .msgrcv _ msqid _ _ _ _ _ | .msgctl _ msqid _ _ _ => 0 ≤ msqid
  | _ => True

/-! ## One call -/

/-- Slots in use lie in their pool, and no lock was left on another one; nodes refer
to slots in use; and no set is longer than its array. -/
structure HandleInv (cap : ℕ → ℕ) (k : Kernel) : Prop where
  inPool : ∀ c id, (k.slot (c, id)).state ≠ .UNUSED → id < c.max
  unlocked : ∀ x, (k.slot x).state = .UNUSED → (k.slot x).locked = false
  refs : RefsExact k.tables
  call : ∀ p x, k.semCall p = some x → x.1 < SEMMAX
  size : ∀ id, (k.semid id).sz ≤ cap id

theorem indexOf_nonneg (h : 0 ≤ z) : indexOf z = .ok z.toNat := if_neg (not_lt.mpr h)

theorem indexOf_neg (h : z < 0) : indexOf z = .error .undefined := if_pos h

/-- A slot number that is not negative and names no slot in use. -/
theorem HandleInv.not_live {c : IpcKind} (h : HandleInv cap k) (hz : 0 ≤ z) (hdead : ¬ Live k c z)
    (hmax : ¬ z ≥ c.max) :
    (k.slot (c, z.toNat)).state = .UNUSED ∧ k.acquire c z.toNat = .ok () := by
  have hunused : (k.slot (c, z.toNat)).state = .UNUSED := by
    by_contra huse
    exact hdead ⟨hz, not_le.mp hmax, huse⟩
  exact ⟨hunused, Kernel.acquire_eq_ok_iff.mpr (h.unlocked _ hunused)⟩

/-- A dead slot number is turned down by every call that takes one. -/
theorem HandleInv.rejected (h : HandleInv cap k) (hargs : ArgsOk k op) (hbad : BadHandle k op) :
    Rejected L k op := by
  cases op with
  | shmat p shmid shmaddr rdonly va =>
    simp only [Rejected, shmat]
    by_cases hmax : shmid ≥ SHMMAX
    · rw [if_pos hmax]
      rfl
    · obtain ⟨hunused, hacq⟩ := h.not_live hargs hbad hmax
      simp only [if_neg hmax, indexOf_nonneg hargs, hacq, ok_bind, if_pos hunused,
        pure_eq]
  | shmdt p shmaddr =>
    obtain ⟨n, hn, hva⟩ := hargs
    exact absurd hva (hbad n hn)
  | shmctl p shmid cmd bufFlag =>
    refine ⟨-1, by decide, ?_⟩
    simp only [shmctl]
    by_cases hmax : shmid < 0 ∨ shmid ≥ SHMMAX
    · rw [if_pos hmax]
      rfl
    · rw [not_or] at hmax
      obtain ⟨hunused, hacq⟩ := h.not_live (not_lt.mp hmax.1) hbad hmax.2
      simp only [if_neg (not_or.mpr hmax), hacq, ok_bind, if_pos hunused, pure_eq]
  | semop p semid ops events =>
    have hdead : ¬ Live k .sem semid := by
      intro hlive
      obtain ⟨b, hb, hindex⟩ := hbad.resolve_left (not_not.mpr hlive)
      exact absurd (hargs.2 hlive b hb) (not_lt.mpr hindex)
    simp only [Rejected, semop]
    by_cases hmax : semid ≥ SEMMAX
    · exact ⟨-1, by decide, [], if_pos hmax⟩
    · obtain ⟨hunused, hacq⟩ := h.not_live hargs.1 hdead hmax
      refine ⟨-2, by decide, [], ?_⟩
      simp only [if_neg hmax, indexOf_nonneg hargs.1, hacq, ok_bind, if_pos hunused,
        pure_eq]
  | semctl p semid semnum cmd val array =>
    have hdead : ¬ Live k .sem semid := by
      intro hlive
      obtain ⟨hcmd, hout⟩ := hbad.resolve_left (not_not.mpr hlive)
      exact hout (hargs.2 hlive hcmd)
    simp only [Rejected, semctl]
    by_cases hmax : semid ≥ SEMMAX
    · exact ⟨-1, by decide, if_pos hmax⟩
    · obtain ⟨hunused, hacq⟩ := h.not_live hargs.1 hdead hmax
      refine ⟨-2, by decide, ?_⟩
      simp only [if_neg hmax, indexOf_nonneg hargs.1, hacq, ok_bind, if_pos hunused,
        pure_eq]
  | msgsnd p msqid | msgrcv p msqid | msgctl p msqid =>
    simp only [Rejected, msgsnd, msgrcv, msgctl]
    by_cases hmax : msqid ≥ MSGMAX
    · exact ⟨-1, by decide, if_pos hmax⟩
    · obtain ⟨hunused, hacq⟩ := h.not_live hargs hbad hmax
      refine ⟨-2, by decide, ?_⟩
      simp only [if_neg hmax, indexOf_nonneg hargs, hacq, ok_bind, if_pos hunused,
        pure_eq]
  | _ => trivial

theorem HandleInv.pool (h : HandleInv cap k) (hargs : ArgsOk k op) :
    ∀ x ∈ op.poolIndex k, 0 ≤ x.2 ∧ x.2 < x.1.max := by
  have hbelow : ∀ {c : IpcKind} {z : ℤ}, 0 ≤ z →
      ∀ x ∈ (if z ≥ c.max then none else some (c, z)), 0 ≤ x.2 ∧ x.2 < (x.1.max : ℤ) := by
    intro c z hz x hx
    split at hx
    · cases hx
    · rename_i hmax
      obtain rfl := Option.some.inj hx
      exact ⟨hz, not_le.mp hmax⟩
  cases op with
  | shmat => exact hbelow (c := .shm) hargs
  | shmdt p shmaddr =>
    intro x hx
    obtain ⟨n, hn, rfl⟩ := Option.map_eq_some_iff.mp hx
    have huse := h.refs.used p .shm n (List.mem_of_find?_eq_some hn)
    exact ⟨Int.natCast_nonneg _, Int.ofNat_lt.mpr (h.inPool .shm n.slot huse)⟩
  | shmctl p shmid cmd bufFlag =>
    intro x hx
    simp only [Op.poolIndex] at hx
    split at hx
    · cases hx
    · rename_i hmax
      rw [not_or] at hmax
      obtain rfl := Option.some.inj hx
      exact ⟨not_lt.mp hmax.1, not_le.mp hmax.2⟩
  | semop | semctl => exact hbelow (c := .sem) hargs.1
  | resume p events =>
    intro x hx
    obtain ⟨y, hy, rfl⟩ := Option.map_eq_some_iff.mp hx
    exact ⟨Int.natCast_nonneg _, Int.ofNat_lt.mpr (h.call p y hy)⟩
  | msgsnd | msgrcv | msgctl => exact hbelow (c := .msq) hargs
  | _ => exact fun x hx => absurd hx (Option.not_mem_none x)

theorem HandleInv.touched (h : HandleInv cap k) :
    ∀ x ∈ touched k id ops, 0 ≤ x.2 ∧ x.2 < cap x.1 := by
  intro x hx
  obtain ⟨b, hb, rfl⟩ := List.mem_map.mp hx
  have hindex : b.semIndex < (k.semid id).sz :=
    of_decide_eq_true (List.all_eq_true.mp List.all_takeWhile b hb)
  exact ⟨Int.natCast_nonneg _, Int.ofNat_lt.mpr (hindex.trans_le (h.size id))⟩

theorem HandleInv.array (h : HandleInv cap k) (hargs : ArgsOk k op) :
    ∀ x ∈ op.elements k, 0 ≤ x.2 ∧ x.2 < cap x.1 := by
  cases op with
  | semop p semid ops events | resume p events =>
    simp only [Op.elements]
    split
    · exact h.touched
    · exact fun x hx => absurd hx List.not_mem_nil
  | semctl p semid semnum cmd val array =>
    intro x hx
    have hsize : ((k.semid semid.toNat).sz : ℤ) ≤ cap semid.toNat :=
      Int.ofNat_le.mpr (h.size semid.toNat)
    simp only [Op.elements] at hx
    split at hx
    · cases hx
    rename_i hlive
    split at hx
    · rename_i hcmd
      obtain rfl := List.mem_singleton.mp hx
      obtain ⟨hlow, hhigh⟩ := hargs.2 (not_not.mp hlive) hcmd
      exact ⟨hlow, hhigh.trans_le hsize⟩
    split at hx
    · obtain ⟨i, hi, rfl⟩ := List.mem_map.mp hx
      exact ⟨Int.natCast_nonneg _, (Int.ofNat_lt.mpr (List.mem_range.mp hi)).trans_le hsize⟩
    · cases hx
  | _ => exact fun x hx => absurd hx List.not_mem_nil

theorem HandleInv.safe (h : HandleInv cap k) (hargs : ArgsOk k op) : HandlesSafe L cap k op :=
  ⟨h.rejected hargs, h.pool hargs, h.array hargs⟩

/-! ## Calls that are not turned down -/

/-- A `semop` that serves nobody leaves the heap alone. -/
theorem semopLoop_heap {r : ℤ} (h : semopLoop L p id ops k = .ok (.done r, events, k'))
    (hnobody : ServesNobody (k.semid id).sz (k.fronts id) ops (k.values id)) :
    k'.heap = k.heap := by
  induction ops generalizing k events with
  | nil =>
    cases h
    rfl
  | cons b rest ih =>
    have hnext {events' : List SemEvent} (hindex : b.semIndex < (k.semid id).sz)
        (hrest : semopLoop L p id rest (k.applied id b) = .ok (.done r, events', k')) :
        k'.heap = k.heap := by
      have hrest' : k'.heap = (k.applied id b).heap := ih hrest (by
        rw [applied_sz, applied_fronts, applied_values]
        exact (hnobody hindex).2)
      exact hrest'
    cases semopLoop_turn h with
    | unknown => rfl
    | quiet hindex _ _ hrest => exact hnext hindex hrest
    | signal hindex hop hgrant hrest =>
      rw [grantLoop_nobody (by
        rw [applied_fronts, applied_values, update_self]
        exact (hnobody hindex).1 hop)] at hgrant
      cases hgrant
      exact hnext hindex hrest

/-- The buffer of the operations is never given back, so a `semop` on a set in use
leaves a trace, be it a failed one. -/
theorem semop_leaves_trace {semid r : ℤ} (hlive : Live k .sem semid) (hops : ops.length ≤ 256) :
    semop L p semid ops k ≠ .ok (.done r, events, k) := by
  intro h
  obtain ⟨hz, hmax, huse⟩ := hlive
  have hmax : ¬ semid ≥ SEMMAX := not_le.mpr hmax
  simp only [semop, if_neg hmax, indexOf_nonneg hz, ok_bind, if_neg huse,
    bind_eq_ok] at h
  obtain ⟨u, -, ⟨buf, k₁⟩, hk₁, h⟩ := h
  obtain ⟨s, hs, rfl⟩ := Kernel.kmalloc_ok hk₁
  split at h
  · cases h
  have hcancel := (semopLoop_untouched_iff h).mp ⟨rfl, rfl, rfl⟩
  have hheap : k.heap = s := semopLoop_heap h hcancel.nobody
  exact kmalloc_ne_self (by omega) hs hheap.symm

/-- Few operations: their buffer comes from a cache. -/
def Op.short : Op → Prop
  | .semop _ _ ops _ => ops.length ≤ 256
  | _ => True

/-- A handle that the caller has not seen to is not turned down. -/
theorem ArgsOk.of_rejects (hshort : op.short) (h : BadHandle k op → Rejected L k op) :
    ArgsOk k op := by
  have hneg : ∀ {c : IpcKind} {z : ℤ}, z < 0 → ¬ Live k c z := fun hz hlive =>
    absurd hlive.1 (not_le.mpr hz)
  have hbelow : ∀ {z : ℤ} {n : ℕ}, z < 0 → ¬ z ≥ n := fun hz hge => by omega
  cases op with
  | shmat p shmid shmaddr rdonly va =>
    by_contra hz
    have hz : shmid < 0 := not_le.mp hz
    have hcall := h (hneg hz)
    simp only [Rejected, shmat, if_neg (hbelow hz), indexOf_neg hz, error_bind] at hcall
    cases hcall
  | shmdt p shmaddr =>
    by_contra hnone
    have hall : ∀ n ∈ k.nodes (p, .shm), n.va ≠ shmaddr := fun n hn hva => hnone ⟨n, hn, hva⟩
    have hfind : (k.nodes (p, .shm)).find? (fun n => n.va = shmaddr) = none :=
      List.find?_eq_none.mpr fun n hn => by simpa using hall n hn
    have hcall := h hall
    simp only [Rejected, shmdt, hfind] at hcall
    cases hcall
  | semop p semid ops events =>
    constructor
    · by_contra hz
      have hz : semid < 0 := not_le.mp hz
      obtain ⟨r, -, events, hcall⟩ := h (Or.inl (hneg hz))
      simp only [semop, if_neg (hbelow hz), indexOf_neg hz, error_bind] at hcall
      cases hcall
    · intro hlive b hb
      by_contra hindex
      obtain ⟨r, -, events, hcall⟩ := h (Or.inr ⟨b, hb, not_lt.mp hindex⟩)
      exact semop_leaves_trace hlive hshort hcall
  | semctl p semid semnum cmd val array =>
    constructor
    · by_contra hz
      have hz : semid < 0 := not_le.mp hz
      obtain ⟨r, -, hcall⟩ := h (Or.inl (hneg hz))
      simp only [semctl, if_neg (hbelow hz), indexOf_neg hz, error_bind] at hcall
      cases hcall
    · intro hlive hcmd
      by_contra hout
      obtain ⟨r, -, hcall⟩ := h (Or.inr ⟨hcmd, hout⟩)
      obtain ⟨hz, hmax, huse⟩ := hlive
      have hmax : ¬ semid ≥ SEMMAX := not_le.mpr hmax
      have hindex : semnumOf k semid.toNat semnum = .error .undefined := if_neg hout
      simp only [semctl, if_neg hmax, indexOf_nonneg hz, ok_bind, if_neg huse,
        bind_eq_ok] at hcall
      obtain ⟨u, -, hcall⟩ := hcall
      rcases hcmd with rfl | rfl
      · simp only [GETVAL, IPC_RMID, IPC_STAT, GETALL, hindex] at hcall
        cases hcall
      · simp only [SETVAL, IPC_RMID, IPC_STAT, GETALL, GETVAL, SETALL, hindex] at hcall
        cases hcall
  | msgsnd p msqid | msgrcv p msqid | msgctl p msqid =>
    by_contra hz
    have hz : msqid < 0 := not_le.mp hz
    obtain ⟨r, -, hcall⟩ := h (hneg hz)
    simp only [msgsnd, msgrcv, msgctl, if_neg (hbelow hz), indexOf_neg hz, error_bind] at hcall
    cases hcall
  | _ => trivial

/-! ## What a step does to sets and slots -/

/-- The lengths of the sets. -/
def Kernel.lengths (k : Kernel) (id : ℕ) : ℕ := (k.semid id).sz

theorem lengths_values (k : Kernel) (id : ℕ) (sem : ℕ → Sem) :
    (k.setSem id { k.semid id with sem := sem }).lengths = k.lengths := by
  funext i
  simp only [Kernel.lengths, Kernel.setSem]
  by_cases hi : i = id
  · rw [hi, update_self]
  · rw [update_of_ne hi]

/-- A set keeps its length or loses it all. -/
theorem lengths_blind : SlotBlind Kernel.lengths fun a b => ∀ id, b id = a id ∨ b id = 0 where
  refl _ _ := Or.inl rfl
  trans a b c hab hbc id := by
    rcases hbc id with hc | hc
    · rw [hc]
      exact hab id
    · exact Or.inr hc
  heap _ _ := rfl
  table _ _ _ _ := rfl
  nodes _ _ _ _ := rfl
  freeva _ _ := rfl
  reset _ _ _ _ := Or.inl rfl
  slot _ _ _ _ := rfl
  shm _ _ _ := rfl
  msq _ _ _ := rfl
  msg _ _ _ := rfl
  values := lengths_values
  clearSet k id i := by
    simp only [Kernel.lengths, Kernel.clearObject, Kernel.setSem]
    by_cases hi : i = id
    · rw [hi, update_self]
      exact Or.inr rfl
    · rw [update_of_ne hi]
      exact Or.inl rfl

theorem lengths_quiet : Quiet Kernel.lengths where
  heap _ _ := rfl
  sem k id _ _ := lengths_values k id _
  msq _ _ _ := rfl
  msg _ _ _ := rfl
  state _ _ _ := rfl
  want _ _ _ := rfl
  call _ _ _ := rfl

theorem semCall_blind : SlotBlind Kernel.semCall (· = ·) where
  refl _ := rfl
  trans _ _ _ := Eq.trans
  heap _ _ := rfl
  table _ _ _ _ := rfl
  nodes _ _ _ _ := rfl
  freeva _ _ := rfl
  reset _ _ _ := rfl
  slot _ _ _ _ := rfl
  shm _ _ _ := rfl
  msq _ _ _ := rfl
  msg _ _ _ := rfl
  values _ _ _ := rfl
  clearSet _ _ := rfl

/-- A slot that is locked stays in use and locked. -/
structure StaysLocked (t t' : IpcKind × ℕ → Tag) : Prop where
  locked : ∀ x, (t' x).locked = (t x).locked
  used : ∀ x, (t x).locked = true → (t x).state ≠ .UNUSED → (t' x).state ≠ .UNUSED

theorem StaysLocked.refl (t : IpcKind × ℕ → Tag) : StaysLocked t t :=
  ⟨fun _ => rfl, fun _ _ huse => huse⟩

theorem StaysLocked.clear (hfree : (k.slot (c, id)).locked = false) (s : KHeap) (flag : ℕ) :
    StaysLocked k.tag (k.clear c id s flag).tag := by
  refine ⟨(tagMoves_clear k c id s flag).locked, fun x hlock huse => ?_⟩
  have hx : x ≠ (c, id) := fun hx => by
    rw [hx] at hlock
    exact absurd (hfree.symm.trans hlock) (by decide)
  rwa [clear_tag, update_of_ne hx]

theorem locked_retiring : Retiring Kernel.tag StaysLocked where
  toDropping := tag_dropping .refl
    (fun _ _ _ hab hbc => ⟨fun x => (hbc.locked x).trans (hab.locked x), fun x hlock huse =>
      hbc.used x ((hab.locked x).trans hlock) (hab.used x hlock huse)⟩)
    fun k c id s flag hfree => .clear hfree s flag
  reset k _ _ := .refl k.tag
  clear k c id s flag hfree := .clear hfree s flag
  flag _ _ _ _ := tag_setSlot_same rfl rfl rfl
  msq _ _ _ := rfl
  values _ _ _ := rfl
  retire k c id huse := by
    refine ⟨(TagMoves.locked (.single (retire_tag huse))), fun x _ hx => ?_⟩
    rw [tag_setSlot]
    by_cases heq : x = (c, id)
    · rw [heq, update_self]
      exact IpcState.noConfusion
    · rwa [update_of_ne heq]

/-- What a step does to keys, states and locks. -/
inductive TagStep (L : Layout) (k k' : Kernel) : Prop
  | moves (hmoves : TagMoves k.tag k'.tag) (hlocked : StaysLocked k.tag k'.tag)
  | get {c : IpcKind} {key : ℕ} {r : ℤ} (hget : GetCall L c key k r k')
  | keeps {id : ℕ} (huse : (k.slot (.sem, id)).state ≠ .UNUSED)
      (htag : k'.tag = update k.tag (.sem, id) { k.tag (.sem, id) with locked := true })

theorem TagStep.of_eq (h : k'.tag = k.tag) : TagStep L k k' :=
  .moves (TagMoves.of_eq h) (h ▸ .refl _)

theorem Step.tagStep (h : Step L k op k') : TagStep L k k' := by
  cases h.call with
  | shmget hcall => exact .get (c := .shm) ⟨_, _, hcall⟩
  | semget hcall => exact .get (c := .sem) ⟨_, _, _, hcall⟩
  | msgget hcall => exact .get (c := .msq) ⟨_, _, _, hcall⟩
  | shmdt hcall =>
    exact .moves (shmdt_dropping tag_retiring.toDropping hcall)
      (shmdt_dropping locked_retiring.toDropping hcall)
  | wait hcall =>
    exact .moves (wait_reaping tag_retiring.toReaping hcall)
      (wait_reaping locked_retiring.toReaping hcall)
  | shmctl hcall =>
    exact .moves (shmctl_retiring tag_retiring hcall) (shmctl_retiring locked_retiring hcall)
  | msgctl hcall =>
    exact .moves (msgctl_retiring tag_retiring hcall) (msgctl_retiring locked_retiring hcall)
  | @semctl _ p semid semnum cmd val _ array hcall =>
    by_cases hkeeps : KeepsLock k (.semctl p semid semnum cmd val array)
    · obtain ⟨id, rfl, -, rfl⟩ := semctl_keeps hcall hkeeps
      exact .keeps hkeeps.2.1 (tag_setSlot _)
    · exact .moves (semctl_gives tag_retiring hcall hkeeps)
        (semctl_gives locked_retiring hcall hkeeps)
  | _ => exact .of_eq (tag_kept h rfl rfl)

/-! ## Runs -/

/-- The set that a `semget` makes, with the number of semaphores for which the block
it asks for has room. -/
def Op.newArray (k : Kernel) : Op → Option (ℕ × ℕ)
  | .semget _ key size flag =>
    match ipcAt .sem key k with
    | .ok id =>
      if flagCreate flag ∧ (k.slot (.sem, id)).state = .UNUSED then
        some (id, size * 24 % 2 ^ 64 / 24)
      else none
    | .error _ => none
  | _ => none

/-- The lengths of the arrays after a call. -/
def Op.capAfter (k : Kernel) (op : Op) (cap : ℕ → ℕ) : ℕ → ℕ :=
  match op.newArray k with
  | some (id, n) => update cap id n
  | none => cap

/-- The lengths of the arrays at the end of a run. -/
def capacities : Kernel → List (Op × Kernel) → (ℕ → ℕ) → ℕ → ℕ
  | _, [], cap => cap
  | k, (op, k') :: rest, cap => capacities k' rest (op.capAfter k cap)

/-- A `semget` asks for a block that has room for the length it notes. -/
def SizeFits : Op → Prop
  | .semget _ _ size _ => size % 2 ^ 32 ≤ size * 24 % 2 ^ 64 / 24
  | _ => True

theorem HandleInv.tags (h : HandleInv cap k) (hstep : TagStep L k k') :
    (∀ c id, (k'.tag (c, id)).state ≠ .UNUSED → id < c.max) ∧
      ∀ x, (k'.tag x).state = .UNUSED → (k'.tag x).locked = false := by
  cases hstep with
  | moves hmoves hlocked =>
    refine ⟨fun c id huse => h.inPool c id (hmoves.used huse).1, fun x hstate => ?_⟩
    rw [hlocked.locked]
    by_contra hlock
    have hlock : (k.tag x).locked = true := by simpa using hlock
    have huse : (k.tag x).state ≠ .UNUSED := fun hfree =>
      absurd (h.unlocked x hfree) (by
        have hlock' : (k.slot x).locked = true := hlock
        simp [hlock'])
    exact hlocked.used x hlock huse hstate
  | @get c key r hget =>
    cases hget.got with
    | failed _ htag | found _ _ _ htag =>
      rw [htag]
      exact ⟨h.inPool, h.unlocked⟩
    | @created id _ hat hfree htag =>
      rw [htag]
      refine ⟨fun d i huse => ?_, fun x hstate => ?_⟩
      · by_cases hx : (d, i) = (c, id)
        · obtain ⟨rfl, rfl⟩ := Prod.mk.inj hx
          exact ipcAt_lt hat
        · rw [update_of_ne hx] at huse
          exact h.inPool d i huse
      · by_cases hx : x = (c, id)
        · rw [hx, update_self] at hstate
          cases hstate
        · rw [update_of_ne hx] at hstate ⊢
          exact h.unlocked x hstate
  | @keeps id huse htag =>
    rw [htag]
    refine ⟨fun d i huse' => ?_, fun x hstate => ?_⟩
    · by_cases hx : (d, i) = (.sem, id)
      · obtain ⟨rfl, rfl⟩ := Prod.mk.inj hx
        exact h.inPool _ _ huse
      · rw [update_of_ne hx] at huse'
        exact h.inPool d i huse'
    · by_cases hx : x = (.sem, id)
      · rw [hx, update_self] at hstate
        exact absurd hstate huse
      · rw [update_of_ne hx] at hstate ⊢
        exact h.unlocked x hstate

/-- A `semget` makes a set or leaves the lengths alone. -/
theorem semget_lengths {key size flag : ℕ} {r : ℤ} (h : semget L p key size flag k = .ok (r, k')) :
    (Op.semget p key size flag).newArray k = none ∧ k'.lengths = k.lengths ∨
      ∃ id, (Op.semget p key size flag).newArray k = some (id, size * 24 % 2 ^ 64 / 24) ∧
        k'.lengths = update k.lengths id (size % 2 ^ 32) := by
  obtain ⟨id, hat, hdone⟩ := ipcGet_done h
  simp only [Op.newArray, hat]
  cases hdone with
  | refused _ hwhy hk =>
    rw [hk]
    refine Or.inl ⟨if_neg fun hboth => ?_, rfl⟩
    rcases hwhy with hwhy | hwhy
    · exact hwhy.2 hboth.1
    · exact hwhy.1 hboth.2
  | shared _ huse _ hk =>
    exact Or.inl ⟨if_neg fun hboth => huse hboth.2, lengths_blind.addNode hk⟩
  | created _ hfree hmay hk₁ hk =>
    obtain ⟨ptr, s, rfl⟩ := semCreate_ok hk₁
    refine Or.inr ⟨id, if_pos ⟨hmay, hfree⟩, (lengths_blind.addNode hk).trans ?_⟩
    funext i
    simp only [Kernel.lengths, Kernel.setSlot, Kernel.setSem, Kernel.setHeap]
    by_cases hi : i = id
    · rw [hi, update_self, update_self]
    · rw [update_of_ne hi, update_of_ne hi]
      rfl

theorem HandleInv.lengths (h : HandleInv cap k) (hstep : Step L k op k') (hfits : SizeFits op) :
    ∀ id, k'.lengths id ≤ op.capAfter k cap id := by
  have hsame : k'.lengths = k.lengths → ∀ id, k'.lengths id ≤ cap id := fun heq id =>
    heq ▸ h.size id
  cases hstep.call with
  | semget hcall =>
    rcases semget_lengths hcall with ⟨hnone, heq⟩ | ⟨id, hnew, heq⟩
    · simp only [Op.capAfter, hnone]
      exact hsame heq
    · intro i
      simp only [Op.capAfter, hnew, heq]
      by_cases hi : i = id
      · rw [hi, update_self, update_self]
        exact hfits
      · rw [update_of_ne hi, update_of_ne hi]
        exact h.size i
  | semop hcall => exact hsame (semop_quiet lengths_quiet hcall)
  | resume hcall => exact hsame (semopResume_quiet lengths_quiet hcall)
  | _ =>
    intro id
    rcases hstep.call.setBlind lengths_blind (fun _ _ => rfl) rfl id with heq | heq
    · exact heq ▸ h.size id
    · exact heq ▸ Nat.zero_le _

/-- A process that goes to sleep in a set is inside a call on that set. -/
theorem semopLoop_call {r : SemResult} (h : semopLoop L p id ops k = .ok (r, events, k'))
    {q : Fin NPROC} {x : ℕ × List SemBuf} (hq : k'.semCall q = some x) :
    x.1 = id ∨ k.semCall q = some x := by
  induction ops generalizing k events with
  | nil =>
    cases h
    exact Or.inr hq
  | cons b rest ih =>
    cases semopLoop_turn h with
    | unknown => exact Or.inr hq
    | sleeps =>
      simp only [sleepSem, Kernel.setCall] at hq
      by_cases heq : q = p
      · rw [heq, update_self, Option.some.injEq] at hq
        exact Or.inl (hq ▸ rfl)
      · rw [update_of_ne heq] at hq
        exact Or.inr hq
    | quiet _ _ _ hrest =>
      have hcall := ih hrest
      exact hcall
    | signal _ _ hgrant hrest =>
      rcases ih hrest with hx | hx
      · exact Or.inl hx
      · rw [grantLoop_granting semCall_granting hgrant] at hx
        exact Or.inr hx

theorem HandleInv.calls (h : HandleInv cap k) (hstep : Step L k op k') :
    ∀ q x, k'.semCall q = some x → x.1 < SEMMAX := by
  intro q x hq
  cases hstep.call with
  | semop hcall =>
    cases semop_done hcall with
    | refused _ _ hk =>
      rw [hk] at hq
      exact h.call q x hq
    | entered _ hmax _ hloop =>
      rcases semopLoop_call hloop hq with hx | hx
      · omega
      · exact h.call q x hx
  | @resume _ p _ _ hcall =>
    obtain ⟨id, b, rest, events', hsleeps, -, hloop, -⟩ := semopResume_ok hcall
    rcases semopLoop_call hloop hq with hx | hx
    · have hid := h.call _ _ hsleeps
      omega
    · simp only [Kernel.setCall] at hx
      by_cases heq : q = p
      · rw [heq, update_self] at hx
        cases hx
      · rw [update_of_ne heq] at hx
        exact h.call q x hx
  | semget hcall =>
    rw [semCall_blind.semget (fun _ _ _ => rfl) hcall] at hq
    exact h.call q x hq
  | _ =>
    rw [← hstep.call.setBlind semCall_blind (fun _ _ => rfl) rfl] at hq
    exact h.call q x hq

theorem HandleInv.step (h : HandleInv cap k) (hstep : Step L k op k') (hfits : SizeFits op) :
    HandleInv (op.capAfter k cap) k' where
  inPool := (h.tags hstep.tagStep).1
  unlocked := (h.tags hstep.tagStep).2
  refs := hstep.call.effect.refsExact h.refs
  call := h.calls hstep
  size := h.lengths hstep hfits

theorem HandleInv.run {run : List (Op × Kernel)} (h : HandleInv cap k) (hrun : IsRun (Step L) k run)
    (hfits : ∀ x ∈ run, SizeFits x.1) : HandleInv (capacities k run cap) (last k run) := by
  induction run generalizing k cap with
  | nil => exact h
  | cons x rest ih =>
    obtain ⟨op, k'⟩ := x
    have hfirst := h.step hrun.1 (hfits (op, k') List.mem_cons_self)
    exact ih hfirst hrun.2 fun x hx => hfits x (List.mem_cons_of_mem _ hx)

/-- The pools after `shminit`, `seminit` and `msqinit`, before any call. -/
structure EmptyPools (k : Kernel) : Prop where
  tables : EmptyTables k
  unlocked : ∀ x, (k.slot x).locked = false
  sets : ∀ id, (k.semid id).sz = 0
  idle : ∀ p, k.semCall p = none

theorem EmptyPools.handleInv (h : EmptyPools k) : HandleInv (fun _ => 0) k where
  inPool c id huse := absurd (h.tables.1 (c, id)).2 huse
  unlocked x _ := h.unlocked x
  refs := h.tables.refsExact
  call p x hx := by
    rw [h.idle p] at hx
    cases hx
  size id := (h.sets id).le

/-- In every run from empty pools whose `semget`s ask for large enough blocks, a call
turns down what names nothing and stays inside its pool and its array, provided the
caller sees to the arguments that the call does not look at; and for a `semop` of at
most 256 operations, and every other call, only then. -/
theorem invalid_handles_rejected {k₀ : Kernel} {run : List (Op × Kernel)} (hempty : EmptyPools k₀)
    (hrun : IsRun (Step L) k₀ run) (hfits : ∀ x ∈ run, SizeFits x.1) (op : Op) :
    (ArgsOk (last k₀ run) op →
      HandlesSafe L (capacities k₀ run fun _ => 0) (last k₀ run) op) ∧
    (op.short → HandlesSafe L (capacities k₀ run fun _ => 0) (last k₀ run) op →
      ArgsOk (last k₀ run) op) := by
  have hinv := hempty.handleInv.run hrun hfits
  exact ⟨hinv.safe, fun hshort hsafe => ArgsOk.of_rejects hshort hsafe.rejects⟩

theorem smallBoot_emptyPools (h : smallBoot L = .ok k) : EmptyPools k := by
  have htables := smallBoot_empty h
  obtain ⟨vm, word, cache, free, rfl⟩ := smallBoot_ok h
  exact ⟨htables, fun _ => rfl, fun _ => rfl, fun _ => rfl⟩

/-- A process makes a set of one semaphore and may set its value. -/
theorem setval_handles_safe :
    ∃ k₀ before, smallBoot smallLayout = .ok k₀ ∧ IsRun (Step smallLayout) k₀ before ∧
      before.map Prod.fst = [.semget 0 0 1 0x8fff] ∧
      HandlesSafe smallLayout (capacities k₀ before fun _ => 0) (last k₀ before)
        (.semctl 0 0 0 SETVAL 3 fun _ => 0) := by
  obtain ⟨k₀, before, run, hk₀, hbefore, hops, -, hsz⟩ := boot_run_after (L := smallLayout)
    [.semget 0 0 1 0x8fff] [] (fun k _ => (k.semid 0).sz = 1) (by decide +kernel)
  have hfits : ∀ x ∈ before, SizeFits x.1 := by
    intro x hx
    have hop : x.1 ∈ before.map Prod.fst := List.mem_map_of_mem hx
    rw [hops, List.mem_singleton] at hop
    rw [hop]
    show 1 % 2 ^ 32 ≤ 1 * 24 % 2 ^ 64 / 24
    decide
  refine ⟨k₀, before, hk₀, hbefore, hops, ?_⟩
  refine (invalid_handles_rejected (smallBoot_emptyPools hk₀) hbefore hfits _).1 ⟨le_rfl, ?_⟩
  intro _ _
  refine ⟨le_rfl, ?_⟩
  rw [Int.toNat_zero, hsz]
  decide

/-- A process asks for 768614336404564651 semaphores, which is 8 bytes in 64 bits: the
set has no room for one semaphore, and `semop` comes to the one with the index 1000.
In the same state `shmat` indexes its pool with `-1`, and
`shmdt` panics at an address where nothing is attached. -/
theorem unchecked_handles :
    ∃ k₀ before, smallBoot smallLayout = .ok k₀ ∧ IsRun (Step smallLayout) k₀ before ∧
      ¬ HandlesSafe smallLayout (capacities k₀ before fun _ => 0) (last k₀ before)
        (.semop 0 0 [⟨1000, 0, 0⟩] []) ∧
      ¬ HandlesSafe smallLayout (capacities k₀ before fun _ => 0) (last k₀ before)
        (.shmat 0 (-1) 0 false 0) ∧
      ¬ HandlesSafe smallLayout (capacities k₀ before fun _ => 0) (last k₀ before)
        (.shmdt 0 4096) := by
  obtain ⟨k₀, before, hk₀, hbefore, hcap, hsz, huse, hnodes⟩ := boot_run (L := smallLayout)
    [.semget 0 0 768614336404564651 0x8fff]
    (fun k₀ run => capacities k₀ run (fun _ => 0) 0 = 0 ∧ 1000 < ((last k₀ run).semid 0).sz ∧
      ((last k₀ run).slot (.sem, 0)).state ≠ .UNUSED ∧ (last k₀ run).nodes (0, .shm) = [])
    (by decide +kernel)
  refine ⟨k₀, before, hk₀, hbefore, fun hsafe => ?_, fun hsafe => ?_, fun hsafe => ?_⟩
  · have hlive : Live (last k₀ before) .sem 0 := ⟨le_rfl, by decide, huse⟩
    have hmem : (0, (1000 : ℤ)) ∈ (Op.semop 0 0 [⟨1000, 0, 0⟩] []).elements (last k₀ before) := by
      simp [Op.elements, hlive, touched, hsz]
    have hlt := (hsafe.array _ hmem).2
    rw [hcap] at hlt
    exact absurd hlt (by decide)
  · have hbad : ¬ Live (last k₀ before) .shm (-1) := fun hlive => absurd hlive.1 (by decide)
    have hcall := hsafe.rejects hbad
    cases hcall
  · have hargs : ArgsOk (last k₀ before) (.shmdt 0 4096) := ArgsOk.of_rejects trivial hsafe.rejects
    obtain ⟨n, hn, -⟩ := hargs
    rw [hnodes] at hn
    cases hn

end LearnOS.Ipc
