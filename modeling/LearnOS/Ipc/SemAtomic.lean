import LearnOS.Ipc.SemWake

/-!
# A `semop` that fails

`semop` applies its operations one by one and returns `-3` when it comes to an
index outside the set; nothing is taken back. What it leaves behind is read off
the operations before that index: without a served waiter the values are those
that plain arithmetic gives, and a served waiter is gone from its queue for good.

## Main results

`failed_semop_untouched_iff`: the operations before the unknown index serve nobody
and cancel out, or the failed call has left a trace.
-/

namespace LearnOS.Ipc

open LearnOS Transition Function Kres

variable {L : Layout} {k k' : Kernel} {p : Fin NPROC} {id i : ℕ} {r : ℤ} {ops : List SemBuf}
  {events : List SemEvent}

/-- Values, wait queues, `sem_want` and the states of processes are the same. -/
structure Untouched (w w' : Waits) : Prop where
  sem : w'.sem = w.sem
  want : w'.want = w.want
  state : w'.state = w.state

/-- The values of a set. -/
def Kernel.values (k : Kernel) (id i : ℕ) : ℤ := (k.sem id i).value

/-- The demand at the head of each queue of a set. -/
def Kernel.fronts (k : Kernel) (id i : ℕ) : Option ℤ :=
  (k.sem id i).queue.head?.map fun w => k.semWant w.p

/-- A value after an operation by which nobody is served. -/
def SemBuf.apply (b : SemBuf) (v : ℤ) : ℤ :=
  if 0 < b.semOp then wrap32 (v + b.semOp) else v + b.semOp

/-- The values when a call comes to an index outside the set or to its end, if
nobody is served on the way. -/
def valuesAfter (sz : ℕ) : List SemBuf → (ℕ → ℤ) → ℕ → ℤ
  | [], v => v
  | b :: rest, v =>
    if sz ≤ b.semIndex then v
    else valuesAfter sz rest (update v b.semIndex (b.apply (v b.semIndex)))

/-- No signal before an index outside the set meets the demand at the head of a
queue. -/
def ServesNobody (sz : ℕ) (front : ℕ → Option ℤ) : List SemBuf → (ℕ → ℤ) → Prop
  | [], _ => True
  | b :: rest, v => b.semIndex < sz →
      (0 < b.semOp → ∀ n ∈ front b.semIndex, b.apply (v b.semIndex) < n) ∧
        ServesNobody sz front rest (update v b.semIndex (b.apply (v b.semIndex)))

/-- Before an index outside the set the operations serve nobody and cancel out. -/
structure CancelsOut (k : Kernel) (id : ℕ) (ops : List SemBuf) : Prop where
  nobody : ServesNobody (k.semid id).sz (k.fronts id) ops (k.values id)
  values : ∀ i, valuesAfter (k.semid id).sz ops (k.values id) i = k.values id i

/-! ## Serving -/

@[simp] theorem wakeupSem_sem (q : Fin NPROC) (k : Kernel) : (wakeupSem p q k).sem = k.sem := by
  rw [wakeupSem]
  split <;> rfl

theorem sem_setSemaphore_self (s : Sem) : (k.setSemaphore id i s).sem id i = s := by
  simp [Kernel.sem, Kernel.setSemaphore, Kernel.setSem]

theorem sem_setSemaphore_of_ne {id' i' : ℕ} (s : Sem) (hne : (id', i') ≠ (id, i)) :
    (k.setSemaphore id i s).sem id' i' = k.sem id' i' := by
  have hsem : (k.setSemaphore id i s).waits.sem (id', i') =
      update k.waits.sem (id, i) s (id', i') := by
    rw [waits_setSemaphore]
  exact hsem.trans (update_of_ne hne _ _)

theorem grantTo_self (w : WaitNode) (rest : List WaitNode) (k : Kernel) :
    (grantTo p id i w rest k).sem id i = ⟨k.values id i - k.semWant w.p, rest⟩ :=
  (sem_setSemaphore_self (k := wakeupSem p w.p k) _).trans (by rw [wakeupSem_sem]; rfl)

theorem grantTo_queue (w : WaitNode) (rest : List WaitNode) (k : Kernel) :
    ((grantTo p id i w rest k).sem id i).queue = rest := by
  rw [grantTo_self]

theorem grantTo_other (w : WaitNode) (rest : List WaitNode) (k : Kernel) {id' i' : ℕ}
    (hne : (id', i') ≠ (id, i)) : (grantTo p id i w rest k).sem id' i' = k.sem id' i' :=
  (sem_setSemaphore_of_ne (k := wakeupSem p w.p k) _ hne).trans (by rw [wakeupSem_sem])

theorem grantTo_want (w : WaitNode) (rest : List WaitNode) (k : Kernel) :
    (grantTo p id i w rest k).semWant = update k.semWant w.p 0 := by
  simp only [grantTo, Kernel.setWant]
  congr 1
  rw [wakeupSem]
  split <;> rfl

/-- The loop of a signal stops at once when the first demand cannot be met. -/
theorem grantLoop_nobody (hfront : ∀ n ∈ k.fronts id i, k.values id i < n) :
    grantLoop L p id i (k.sem id i).queue k = .ok ([], k) := by
  simp only [Kernel.fronts, Kernel.values] at hfront
  cases hq : (k.sem id i).queue with
  | nil => rfl
  | cons w rest =>
    rw [hq] at hfront
    simp only [List.head?_cons, Option.map_some, Option.mem_def, Option.some.injEq,
      forall_eq'] at hfront
    rw [grantLoop, if_pos hfront]

/-- Queues only lose processes. -/
theorem grantLoop_queue {queue : List WaitNode} (h : grantLoop L p id i queue k = .ok (events, k'))
    (hqueue : (k.sem id i).queue = queue) :
    (k'.sem id i).queue.length ≤ queue.length ∧
      ∀ id' i', (id', i') ≠ (id, i) → k'.sem id' i' = k.sem id' i' := by
  induction queue generalizing k events with
  | nil =>
    cases h
    exact ⟨by rw [hqueue], fun _ _ _ => rfl⟩
  | cons w rest ih =>
    obtain ⟨-, -, rfl⟩ | ⟨-, s, events', -, hloop, -⟩ := grantLoop_cons h
    · exact ⟨by rw [hqueue], fun _ _ _ => rfl⟩
    · obtain ⟨hlen, hother⟩ := ih hloop (grantTo_queue w rest k)
      exact ⟨hlen.trans (Nat.le_succ _), fun id' i' hne =>
        (hother id' i' hne).trans (grantTo_other w rest k hne)⟩

theorem grantLoop_sz {queue : List WaitNode} (h : grantLoop L p id i queue k = .ok (events, k')) :
    (k'.semid id).sz = (k.semid id).sz := by
  induction queue generalizing k events with
  | nil =>
    cases h
    rfl
  | cons w rest ih =>
    obtain ⟨-, -, rfl⟩ | ⟨-, s, events', -, hloop, -⟩ := grantLoop_cons h
    · rfl
    · refine (ih hloop).trans ?_
      simp only [Kernel.setHeap, grantTo, Kernel.setWant, Kernel.setSemaphore, Kernel.setSem,
        update_self, wakeupSem]
      split <;> rfl

/-- A demand that can be met is met. -/
theorem grantLoop_serves_front (h : grantLoop L p id i (k.sem id i).queue k = .ok (events, k'))
    (hfront : ¬ ∀ n ∈ k.fronts id i, k.values id i < n) :
    (k'.sem id i).queue.length < (k.sem id i).queue.length := by
  simp only [Kernel.fronts, Kernel.values] at hfront
  cases hq : (k.sem id i).queue with
  | nil =>
    rw [hq] at hfront
    exact absurd (by simp) hfront
  | cons w rest =>
    rw [hq] at hfront h
    simp only [List.head?_cons, Option.map_some, Option.mem_def, Option.some.injEq,
      forall_eq'] at hfront
    obtain ⟨hshort, -⟩ | ⟨-, s, events', -, hloop, -⟩ := grantLoop_cons h
    · exact absurd hshort hfront
    exact Nat.lt_succ_of_le (grantLoop_queue hloop (grantTo_queue w rest k)).1

/-! ## One turn of the loop -/

/-- An operation by which nobody sleeps and nobody is served yet. -/
def Kernel.applied (k : Kernel) (id : ℕ) (b : SemBuf) : Kernel :=
  k.setSemaphore id b.semIndex
    { k.sem id b.semIndex with value := b.apply (k.sem id b.semIndex).value }

/-- What the loop of `semop` does with its first operation, and how it ends. -/
inductive SemTurn (L : Layout) (p : Fin NPROC) (id : ℕ) (b : SemBuf) (rest : List SemBuf)
    (k : Kernel) : SemResult → Kernel → Prop
  | unknown (hindex : (k.semid id).sz ≤ b.semIndex) : SemTurn L p id b rest k (.done (-3)) k
  | sleeps {addr : ℕ} {s : KHeap} (hindex : b.semIndex < (k.semid id).sz) (hop : b.semOp < 0)
      (hlt : (k.sem id b.semIndex).value < -b.semOp) :
      SemTurn L p id b rest k .asleep (sleepSem p id (b :: rest)
        (((k.setHeap s).setSemaphore id b.semIndex { k.sem id b.semIndex with
          queue := (k.sem id b.semIndex).queue ++ [⟨addr, p⟩] }).setWant p (-b.semOp)))
  | quiet {r : SemResult} {events : List SemEvent} {k' : Kernel}
      (hindex : b.semIndex < (k.semid id).sz) (hop : b.semOp ≤ 0)
      (hle : b.semOp < 0 → -b.semOp ≤ (k.sem id b.semIndex).value)
      (hrest : semopLoop L p id rest (k.applied id b) = .ok (r, events, k')) :
      SemTurn L p id b rest k r k'
  | signal {r : SemResult} {grants events : List SemEvent} {k₁ k' : Kernel}
      (hindex : b.semIndex < (k.semid id).sz) (hop : 0 < b.semOp)
      (hgrant : grantLoop L p id b.semIndex ((k.applied id b).sem id b.semIndex).queue
        (k.applied id b) = .ok (grants, k₁))
      (hrest : semopLoop L p id rest k₁ = .ok (r, events, k')) : SemTurn L p id b rest k r k'

theorem setSemaphore_eq_self (k : Kernel) (id i : ℕ) : k.setSemaphore id i (k.sem id i) = k := by
  simp [Kernel.setSemaphore, Kernel.setSem, Kernel.sem]

theorem applied_zero {b : SemBuf} (hop : b.semOp = 0) : k.applied id b = k := by
  have hvalue : b.apply (k.sem id b.semIndex).value = (k.sem id b.semIndex).value := by
    simp [SemBuf.apply, hop]
  rw [Kernel.applied, hvalue]
  exact setSemaphore_eq_self k id b.semIndex

theorem semopLoop_turn {b : SemBuf} {rest : List SemBuf} {r : SemResult}
    (h : semopLoop L p id (b :: rest) k = .ok (r, events, k')) : SemTurn L p id b rest k r k' := by
  simp only [semopLoop] at h
  split at h
  · rename_i hindex
    cases h
    exact .unknown hindex
  rename_i hindex
  have hlt : b.semIndex < (k.semid id).sz := not_le.mp hindex
  split at h
  · rename_i hop
    have happly : b.apply (k.sem id b.semIndex).value = (k.sem id b.semIndex).value + b.semOp := by
      rw [SemBuf.apply, if_neg (by omega)]
    split at h
    · rename_i hshort
      rw [if_neg (by rw [nowait_clear]; decide)] at h
      simp only [insertLast, bind_eq_ok, pure_eq_ok, Prod.mk.injEq] at h
      obtain ⟨k₁, ⟨⟨addr, k₂⟩, hk₂, rfl⟩, rfl, -, rfl⟩ := h
      obtain ⟨s, -, rfl, -⟩ := Kernel.kmallocNode_ok hk₂
      exact .sleeps hlt hop hshort
    · rename_i henough
      simp only [bind_eq_ok, pure_eq_ok, Prod.mk.injEq] at h
      obtain ⟨⟨r', events', k₁⟩, hloop, rfl, -, rfl⟩ := h
      have hrest : semopLoop L p id rest (k.applied id b) = .ok (r', events', k₁) := by
        rw [Kernel.applied, happly]
        exact hloop
      exact .quiet hlt hop.le (fun _ => not_lt.mp henough) hrest
  · rename_i hop
    split at h
    · rename_i hpos
      have happly : b.apply (k.sem id b.semIndex).value =
          wrap32 ((k.sem id b.semIndex).value + b.semOp) := by
        rw [SemBuf.apply, if_pos hpos]
      simp only [bind_eq_ok, pure_eq_ok, Prod.mk.injEq] at h
      obtain ⟨⟨grants, k₁⟩, hgrant, ⟨r', events', k₂⟩, hloop, rfl, -, rfl⟩ := h
      have happlied : grantLoop L p id b.semIndex ((k.applied id b).sem id b.semIndex).queue
          (k.applied id b) = .ok (grants, k₁) := by
        rw [Kernel.applied, happly, sem_setSemaphore_self]
        exact hgrant
      exact .signal hlt hpos happlied hloop
    · rename_i hzero
      have hrest : semopLoop L p id rest (k.applied id b) = .ok (r, events, k') := by
        rw [applied_zero (by omega)]
        exact h
      exact .quiet hlt (by omega) (fun hneg => absurd hneg hop) hrest

section Applied

variable (k) (id : ℕ) (b : SemBuf)

theorem applied_sem_self : (k.applied id b).sem id b.semIndex =
    { k.sem id b.semIndex with value := b.apply (k.values id b.semIndex) } :=
  sem_setSemaphore_self _

theorem applied_queue (id' i' : ℕ) :
    ((k.applied id b).sem id' i').queue = (k.sem id' i').queue := by
  by_cases hx : (id', i') = (id, b.semIndex)
  · obtain ⟨rfl, rfl⟩ := Prod.mk.inj hx
    rw [applied_sem_self]
  · rw [Kernel.applied, sem_setSemaphore_of_ne _ hx]

theorem applied_sz : ((k.applied id b).semid id).sz = (k.semid id).sz := by
  simp [Kernel.applied, Kernel.setSemaphore, Kernel.setSem]

theorem applied_values : (k.applied id b).values id =
    update (k.values id) b.semIndex (b.apply (k.values id b.semIndex)) := by
  funext i
  by_cases hi : i = b.semIndex
  · subst hi
    rw [update_self, Kernel.values, applied_sem_self]
  · rw [update_of_ne hi, Kernel.values, Kernel.applied,
      sem_setSemaphore_of_ne _ fun hx => hi (Prod.mk.inj hx).2]
    rfl

theorem applied_fronts : (k.applied id b).fronts id = k.fronts id := by
  funext i
  rw [Kernel.fronts, applied_queue]
  rfl

theorem applied_assign (new : ℕ → ℤ) :
    (k.applied id b).waits.assign id new = k.waits.assign id new := by
  rw [Kernel.applied, waits_setSemaphore]
  simp only [Waits.assign, Waits.mk.injEq, and_true]
  funext x
  by_cases hx : x = (id, b.semIndex)
  · subst hx
    simp [Kernel.waits]
  · rw [update_of_ne hx]

end Applied

/-! ## The loop up to its return -/

/-- A section that returns lets nobody in. -/
theorem semopLoop_queue (h : semopLoop L p id ops k = .ok (.done r, events, k')) (id' i' : ℕ) :
    (k'.sem id' i').queue.length ≤ (k.sem id' i').queue.length := by
  induction ops generalizing k events with
  | nil =>
    cases h
    exact le_refl _
  | cons b rest ih =>
    cases semopLoop_turn h with
    | unknown => exact le_refl _
    | quiet _ _ _ hrest =>
      rw [← applied_queue k id b]
      exact ih hrest
    | signal _ _ hgrant hrest =>
      obtain ⟨hlen, hother⟩ := grantLoop_queue hgrant rfl
      refine (ih hrest).trans ?_
      rw [← applied_queue k id b]
      by_cases hx : (id', i') = (id, b.semIndex)
      · obtain ⟨rfl, rfl⟩ := Prod.mk.inj hx
        exact hlen
      · rw [hother id' i' hx]

/-- A process that is served leaves its queue. -/
theorem semopLoop_serves (h : semopLoop L p id ops k = .ok (.done r, events, k'))
    (hserves : ¬ ServesNobody (k.semid id).sz (k.fronts id) ops (k.values id)) :
    ∃ i, (k'.sem id i).queue.length < (k.sem id i).queue.length := by
  induction ops generalizing k events with
  | nil => exact absurd trivial hserves
  | cons b rest ih =>
    simp only [ServesNobody, Classical.not_imp] at hserves
    obtain ⟨hindex, hserves⟩ := hserves
    have hnext {events' : List SemEvent}
        (hrest : semopLoop L p id rest (k.applied id b) = .ok (.done r, events', k'))
        (hfront : 0 < b.semOp → ∀ n ∈ k.fronts id b.semIndex,
          b.apply (k.values id b.semIndex) < n) :
        ∃ i, (k'.sem id i).queue.length < (k.sem id i).queue.length := by
      obtain ⟨i, hi⟩ := ih hrest (by
        rw [applied_sz, applied_fronts, applied_values]
        exact fun hno => hserves ⟨hfront, hno⟩)
      exact ⟨i, by rwa [applied_queue] at hi⟩
    cases semopLoop_turn h with
    | unknown hout => exact absurd hindex (not_lt.mpr hout)
    | quiet _ hop _ hrest => exact hnext hrest fun hpos => absurd hpos (not_lt.mpr hop)
    | signal _ hop hgrant hrest =>
      have hvalue : (k.applied id b).values id b.semIndex = b.apply (k.values id b.semIndex) := by
        rw [applied_values, update_self]
      by_cases hfront : ∀ n ∈ k.fronts id b.semIndex, b.apply (k.values id b.semIndex) < n
      · rw [grantLoop_nobody (by rwa [applied_fronts, hvalue])] at hgrant
        cases hgrant
        exact hnext hrest fun _ => hfront
      · have hless := grantLoop_serves_front hgrant (by rwa [applied_fronts, hvalue])
        rw [applied_queue] at hless
        exact ⟨b.semIndex, lt_of_le_of_lt (semopLoop_queue hrest _ _) hless⟩

theorem assign_sem_iff {new : ℕ → ℤ} :
    (k.waits.assign id new).sem = k.waits.sem ↔ ∀ i, new i = k.values id i := by
  constructor
  · intro h i
    have hi := congrFun h (id, i)
    simp only [Waits.assign, if_true] at hi
    exact congrArg Sem.value hi
  · intro h
    funext x
    simp only [Waits.assign]
    split
    · rename_i hx
      rw [h, ← hx]
      rfl
    · rfl

theorem assign_values (k : Kernel) (id : ℕ) : k.waits.assign id (k.values id) = k.waits := by
  have hsem : (k.waits.assign id (k.values id)).sem = k.waits.sem :=
    assign_sem_iff.mpr fun _ => rfl
  exact congrArg (fun sem => { k.waits with sem := sem }) hsem

/-- As long as nobody is served the loop does plain arithmetic. -/
theorem semopLoop_values (h : semopLoop L p id ops k = .ok (.done r, events, k'))
    (hnobody : ServesNobody (k.semid id).sz (k.fronts id) ops (k.values id)) :
    k'.waits = k.waits.assign id (valuesAfter (k.semid id).sz ops (k.values id)) := by
  induction ops generalizing k events with
  | nil =>
    cases h
    exact (assign_values k' id).symm
  | cons b rest ih =>
    have hnext {events' : List SemEvent} (hindex : b.semIndex < (k.semid id).sz)
        (hrest : semopLoop L p id rest (k.applied id b) = .ok (.done r, events', k')) :
        k'.waits = k.waits.assign id (valuesAfter (k.semid id).sz (b :: rest) (k.values id)) := by
      have hafter := ih hrest (by
        rw [applied_sz, applied_fronts, applied_values]
        exact (hnobody hindex).2)
      rw [applied_sz, applied_values, applied_assign] at hafter
      rw [valuesAfter, if_neg (not_le.mpr hindex)]
      exact hafter
    cases semopLoop_turn h with
    | unknown hout =>
      rw [valuesAfter, if_pos hout]
      exact (assign_values k' id).symm
    | quiet hindex _ _ hrest => exact hnext hindex hrest
    | signal hindex hop hgrant hrest =>
      rw [grantLoop_nobody (by
        rw [applied_fronts, applied_values, update_self]
        exact (hnobody hindex).1 hop)] at hgrant
      cases hgrant
      exact hnext hindex hrest

theorem semopLoop_untouched_iff (h : semopLoop L p id ops k = .ok (.done r, events, k')) :
    Untouched k.waits k'.waits ↔ CancelsOut k id ops := by
  by_cases hnobody : ServesNobody (k.semid id).sz (k.fronts id) ops (k.values id)
  · have hwaits := semopLoop_values h hnobody
    constructor
    · intro hsame
      refine ⟨hnobody, assign_sem_iff.mp ?_⟩
      rw [← hwaits]
      exact hsame.sem
    · intro hcancel
      rw [hwaits]
      exact ⟨assign_sem_iff.mpr hcancel.values, rfl, rfl⟩
  · constructor
    · intro hsame
      obtain ⟨i, hi⟩ := semopLoop_serves h hnobody
      have hsem : k'.sem id i = k.sem id i := congrFun hsame.sem (id, i)
      rw [hsem] at hi
      exact absurd hi (lt_irrefl _)
    · exact fun hcancel => absurd hcancel.nobody hnobody

/-! ## Calls -/

/-- A call of `semop` that returns, with an error or without, has left everything as it was
exactly if it never came to its operations, or those before the first unknown index
serve nobody and cancel out; and so with the rest of a call that has slept. -/
theorem failed_semop_untouched_iff :
    (∀ semid ops events k', semop L p semid ops k = .ok (.done r, events, k') →
      (Untouched k.waits k'.waits ↔
        semid ≥ SEMMAX ∨ (k.slot (.sem, semid.toNat)).state = .UNUSED ∨
          CancelsOut k semid.toNat ops)) ∧
    ∀ id b rest events k', k.semCall p = some (id, b :: rest) →
      semopResume L p k = .ok (.done r, events, k') →
      (Untouched k.waits k'.waits ↔ CancelsOut k id rest) := by
  constructor
  · intro semid ops events k' h
    cases semop_done h with
    | refused hwhy _ hk =>
      rw [hk, ← or_assoc]
      exact iff_of_true ⟨rfl, rfl, rfl⟩ (.inl hwhy)
    | @entered id s hid hmax huse hloop =>
      subst hid
      have hiff : Untouched k.waits k'.waits ↔ CancelsOut (k.setHeap s) id ops :=
        semopLoop_untouched_iff hloop
      rw [Int.toNat_natCast, hiff, or_iff_right (by omega), or_iff_right huse]
      exact ⟨fun hc => ⟨hc.nobody, hc.values⟩, fun hc => ⟨hc.nobody, hc.values⟩⟩
  · intro id b rest events k' hcall h
    obtain ⟨id', b', rest', events', hcall', -, hloop, -⟩ := semopResume_ok h
    rw [hcall] at hcall'
    cases hcall'
    have hiff := semopLoop_untouched_iff hloop
    constructor
    · intro hsame
      have hc := hiff.mp ⟨hsame.sem, hsame.want, hsame.state⟩
      exact ⟨hc.nobody, hc.values⟩
    · intro hc
      have hsame := hiff.mpr ⟨hc.nobody, hc.values⟩
      exact ⟨hsame.sem, hsame.want, hsame.state⟩

/-- A call whose only operation names a semaphore that is not in the set. -/
theorem unknown_index_alone_untouched :
    ∃ k₀ before events k', smallBoot smallLayout = .ok k₀ ∧ IsRun (Step smallLayout) k₀ before ∧
      semop smallLayout 0 0 [⟨5, 1, 0⟩] (last k₀ before) = .ok (.done (-3), events, k') ∧
      Untouched (last k₀ before).waits k'.waits := by
  obtain ⟨k₀, before, hk₀, hbefore, hsz, ⟨r, events, k'⟩, hcall, rfl⟩ := boot_run
    (L := smallLayout) [.semget 0 0 1 0x8fff]
    (fun k₀ run => ((last k₀ run).semid 0).sz = 1 ∧
      (semop smallLayout 0 0 [⟨5, 1, 0⟩] (last k₀ run)).Yields fun x => x.1 = .done (-3))
    (by decide +kernel)
  refine ⟨k₀, before, events, k', hk₀, hbefore, hcall, ?_⟩
  apply (failed_semop_untouched_iff.1 _ _ _ _ hcall).mpr
  refine .inr (.inr ⟨?_, fun i => ?_⟩)
  · intro hlt
    exact absurd hlt (by simp [hsz])
  · simp [valuesAfter, hsz]

/-- A call puts a unit back and then names a semaphore that is not in the set: it
fails, and the unit stays. -/
theorem failed_semop_keeps_unit :
    ∃ k₀ before events k', smallBoot smallLayout = .ok k₀ ∧ IsRun (Step smallLayout) k₀ before ∧
      semop smallLayout 0 0 [⟨0, 1, 0⟩, ⟨5, 1, 0⟩] (last k₀ before) =
        .ok (.done (-3), events, k') ∧
      ((last k₀ before).sem 0 0).value = 0 ∧ (k'.sem 0 0).value = 1 ∧
      ¬ Untouched (last k₀ before).waits k'.waits := by
  obtain ⟨k₀, before, hk₀, hbefore, ⟨r, events, k'⟩, hcall, rfl, hbefore₀, hafter⟩ := boot_run
    (L := smallLayout) [.semget 0 0 1 0x8fff]
    (fun k₀ run => (semop smallLayout 0 0 [⟨0, 1, 0⟩, ⟨5, 1, 0⟩] (last k₀ run)).Yields fun x =>
      x.1 = .done (-3) ∧ ((last k₀ run).sem 0 0).value = 0 ∧ (x.2.2.sem 0 0).value = 1)
    (by decide +kernel)
  refine ⟨k₀, before, events, k', hk₀, hbefore, hcall, hbefore₀, hafter, fun hsame => ?_⟩
  have hsem : k'.sem 0 0 = (last k₀ before).sem 0 0 := congrFun hsame.sem (0, 0)
  rw [hsem, hbefore₀] at hafter
  exact absurd hafter (by decide)

end LearnOS.Ipc
