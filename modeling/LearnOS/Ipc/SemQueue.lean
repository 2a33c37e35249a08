import LearnOS.Ipc.Effect
import LearnOS.Lib.Semaphore

/-!
# Critical sections of `semop` as actions on semaphores

A semaphore is named by the set and the index in it. What a process is waiting
for is read off its interrupted call: asleep it stands in a queue, awake it has
been served. Every critical section is a sequence of the actions of
`Lib.Semaphore`, with the machine's addition.
-/

namespace LearnOS.Ipc

open LearnOS Semaphore Function Kres

variable {events : List SemEvent} {r : Option (Fin NPROC)} {ops : List SemBuf} {w w' : Waits}
  {c : IpcKind} {b : SemBuf}

/-- The part of the kernel that decides about waiting processes. -/
structure Waits where
  sem : ℕ × ℕ → Sem
  want : Fin NPROC → ℤ
  call : Fin NPROC → Option (ℕ × List SemBuf)
  state : Fin NPROC → ProcState

def Kernel.waits (k : Kernel) : Waits where
  sem x := k.sem x.1 x.2
  want := k.semWant
  call := k.semCall
  state p := (k.vm.proc p).state

namespace Waits

def phase (w : Waits) (p : Fin NPROC) : Phase (ℕ × ℕ) :=
  match w.call p with
  | some (id, b :: _) =>
    if w.state p = .SLEEPING then .queued (id, b.semIndex) (-b.semOp)
    else .served (id, b.semIndex) (-b.semOp)
  | _ => .out

def units (w : Waits) : State (ℕ × ℕ) (Fin NPROC) where
  value x := (w.sem x).value
  queue x := (w.sem x).queue.map WaitNode.p
  phase := w.phase

end Waits

/-- The event in the set `id`. -/
def SemEvent.at (id : ℕ) : SemEvent → Event (ℕ × ℕ) (Fin NPROC)
  | .take p i n => .take p (id, i) n
  | .give p i n => .give p (id, i) n
  | .grant q i n => .grant q (id, i) n
  | .pass p i n => .pass p (id, i) n

/-- The addition of a signal. -/
def machineAdd (v n : ℤ) : ℤ := wrap32 (v + n)

/-- Queues and interrupted calls agree. -/
structure WaitInv (w : Waits) : Prop where
  consistent : Consistent w.units
  want : ∀ p id b rest, w.call p = some (id, b :: rest) → w.state p = .SLEEPING →
    w.want p = -b.semOp
  live : ∀ p c, w.call p = some c →
    w.state p = .SLEEPING ∨ w.state p = .RUNNABLE ∨ w.state p = .RUNNING

section Waits

variable {k : Kernel}

@[simp] theorem waits_setSemaphore (id i : ℕ) (s : Sem) :
    (k.setSemaphore id i s).waits =
      { k.waits with sem := update k.waits.sem (id, i) s } := by
  have hsem : (k.setSemaphore id i s).waits.sem = update k.waits.sem (id, i) s := by
    funext x
    obtain ⟨id', i'⟩ := x
    by_cases hid : id' = id
    · subst hid
      by_cases hi : i' = i
      · subst hi
        simp [Kernel.waits, Kernel.sem, Kernel.setSemaphore, Kernel.setSem]
      · simp [Kernel.waits, Kernel.sem, Kernel.setSemaphore, Kernel.setSem, hi]
    · simp [Kernel.waits, Kernel.sem, Kernel.setSemaphore, Kernel.setSem, hid]
  rw [← hsem]
  rfl

@[simp] theorem waits_setWant (p : Fin NPROC) (n : ℤ) :
    (k.setWant p n).waits = { k.waits with want := update k.waits.want p n } := rfl

@[simp] theorem waits_setCall (p : Fin NPROC) (c : Option (ℕ × List SemBuf)) :
    (k.setCall p c).waits = { k.waits with call := update k.waits.call p c } := rfl

theorem state_setProc (s : VmState) (p : Fin NPROC) (pr : Proc) :
    (fun q => ((s.setProc p pr).proc q).state) =
      update (fun q => (s.proc q).state) p pr.state := by
  funext q
  by_cases hq : q = p
  · subst hq
    simp [VmState.setProc]
  · simp [VmState.setProc, hq]

@[simp] theorem waits_setState (p : Fin NPROC) (st : ProcState) :
    (k.setState p st).waits = { k.waits with state := update k.waits.state p st } := by
  rw [← show (k.setState p st).waits.state = update k.waits.state p st from
    state_setProc k.vm p { k.vm.proc p with state := st }]
  rfl

end Waits

section Phase

variable {w w' : Waits} {p q : Fin NPROC} {id : ℕ} {b : SemBuf} {rest : List SemBuf}

theorem Waits.phase_eq_queued_iff {x : ℕ × ℕ} {n : ℤ} :
    w.phase p = .queued x n ↔ ∃ id b rest, w.call p = some (id, b :: rest) ∧
      w.state p = .SLEEPING ∧ x = (id, b.semIndex) ∧ n = -b.semOp := by
  constructor
  · intro h
    simp only [Waits.phase] at h
    split at h
    · rename_i id b rest hcall
      split at h
      · rename_i hstate
        obtain ⟨hx, hn⟩ := Phase.queued.inj h
        exact ⟨id, b, rest, hcall, hstate, hx.symm, hn.symm⟩
      · cases h
    · cases h
  · rintro ⟨id, b, rest, hcall, hstate, rfl, rfl⟩
    simp [Waits.phase, hcall, hstate]

theorem Waits.phase_eq_served (hcall : w.call p = some (id, b :: rest))
    (hstate : w.state p ≠ .SLEEPING) : w.phase p = .served (id, b.semIndex) (-b.semOp) := by
  simp [Waits.phase, hcall, hstate]

theorem Waits.phase_eq_out (hcall : w.call p = none) : w.phase p = .out := by
  simp [Waits.phase, hcall]

/-- A process keeps its phase as long as its call and state stay. -/
theorem Waits.phase_congr (hcall : w'.call q = w.call q)
    (hstate : w.call q ≠ none → w'.state q = w.state q) : w'.phase q = w.phase q := by
  cases hc : w.call q with
  | none => rw [phase_eq_out hc, phase_eq_out (hcall.trans hc)]
  | some c =>
    have hs := hstate (by simp [hc])
    simp only [Waits.phase, hcall, hs]

/-- The phases after a change for one process. -/
theorem Waits.phase_update {f : Phase (ℕ × ℕ)} (hp : w'.phase p = f)
    (hcall : ∀ q, q ≠ p → w'.call q = w.call q)
    (hstate : ∀ q, q ≠ p → w'.state q = w.state q) :
    w'.phase = update w.phase p f := by
  funext q
  by_cases hq : q = p
  · subst hq
    simp [hp]
  · rw [update_of_ne hq]
    exact phase_congr (hcall q hq) fun _ => hstate q hq

end Phase

variable {L : Layout} {k k' : Kernel} {p : Fin NPROC} {id i : ℕ}

/-- A process whose call is not interrupted and that runs. -/
structure Inside (k : Kernel) (p : Fin NPROC) : Prop where
  call : k.semCall p = none
  run : Running k.vm p

/-! ## Serving the queue -/

section Grant

variable {w : WaitNode} {rest : List WaitNode}

theorem grantTo_waits (id i : ℕ) (rest : List WaitNode) (hne : w.p ≠ p)
    (hstate : k.waits.state w.p = .SLEEPING) (hcall : (k.semCall w.p).isSome) :
    (grantTo p id i w rest k).waits =
      { k.waits with
        sem := update k.waits.sem (id, i) ⟨(k.sem id i).value - k.semWant w.p, rest⟩
        want := update k.waits.want w.p 0
        state := update k.waits.state w.p .RUNNABLE } := by
  have hwake : (wakeupSem p w.p k).waits =
      { k.waits with state := update k.waits.state w.p .RUNNABLE } := by
    rw [wakeupSem, if_pos ⟨hne, hstate, hcall⟩, waits_setState]
  have hsem : (wakeupSem p w.p k).sem id i = k.sem id i :=
    congrFun (congrArg Waits.sem hwake) (id, i)
  simp only [grantTo, waits_setWant, waits_setSemaphore, hwake, hsem]

/-- The woken process has what it waited for. -/
theorem units_granted (rest : List WaitNode) {b : SemBuf} {ops : List SemBuf}
    (hcall : k.waits.call w.p = some (id, b :: ops)) (hwant : k.semWant w.p = -b.semOp)
    (hi : i = b.semIndex) :
    Waits.units { k.waits with
        sem := update k.waits.sem (id, i) ⟨(k.sem id i).value - k.semWant w.p, rest⟩
        want := update k.waits.want w.p 0
        state := update k.waits.state w.p .RUNNABLE } =
      k.waits.units.serve w.p (rest.map WaitNode.p) (id, i) (k.semWant w.p) := by
  refine State.ext ?_ ?_ ?_
  · funext x
    by_cases hx : x = (id, i)
    · subst hx
      simp [Waits.units, State.serve, Kernel.waits]
    · simp [Waits.units, State.serve, hx]
  · funext x
    by_cases hx : x = (id, i)
    · subst hx
      simp [Waits.units, State.serve]
    · simp [Waits.units, State.serve, hx]
  · refine Waits.phase_update ?_ (fun _ _ => rfl) fun q hq => by simp [hq]
    rw [hi, hwant]
    exact Waits.phase_eq_served hcall (by simp)

theorem grantTo_spec (hinv : WaitInv k.waits) (hin : Inside k p)
    (hqueue : (k.sem id i).queue = w :: rest) :
    k.waits.phase w.p = .queued (id, i) (k.semWant w.p) ∧
      (grantTo p id i w rest k).waits.units =
        k.waits.units.serve w.p (rest.map WaitNode.p) (id, i) (k.semWant w.p) ∧
      ((grantTo p id i w rest k).sem id i).queue = rest ∧
      WaitInv (grantTo p id i w rest k).waits ∧ Inside (grantTo p id i w rest k) p := by
  have hunits : k.waits.units.queue (id, i) = w.p :: rest.map WaitNode.p := by
    simp [Waits.units, Kernel.waits, hqueue]
  obtain ⟨n, hn⟩ := (hinv.consistent.mem_iff (id, i) w.p).mp (by simp [hunits])
  obtain ⟨id', b, ops, hcall, hstate, hx, rfl⟩ := Waits.phase_eq_queued_iff.mp hn
  obtain ⟨rfl, hi⟩ := Prod.mk.inj hx
  have hwant : k.semWant w.p = -b.semOp := hinv.want _ _ _ _ hcall hstate
  have hne : w.p ≠ p := by
    rintro heq
    rw [heq] at hcall
    have hnone := hin.call
    simp [Kernel.waits, hnone] at hcall
  have hwaits := grantTo_waits id i rest hne hstate
    (by simpa [Kernel.waits] using congrArg Option.isSome hcall)
  have hserve := hwaits ▸ units_granted rest hcall hwant hi
  refine ⟨hn.trans (by rw [hwant]), hserve, ?_, ?_, ?_⟩
  · have hsem := congrFun (congrArg Waits.sem hwaits) (id, i)
    simp only [update_self] at hsem
    exact congrArg Sem.queue hsem
  · refine ⟨?_, ?_, ?_⟩
    · rw [hserve]
      exact hinv.consistent.serve hunits (hn.trans (by rw [hwant]))
    · rw [hwaits]
      intro q id' b' rest' hc hs
      have hq : q ≠ w.p := by
        rintro rfl
        simp at hs
      simp only [update_of_ne hq] at hs ⊢
      exact hinv.want q id' b' rest' hc hs
    · rw [hwaits]
      intro q c hc
      by_cases hq : q = w.p
      · subst hq
        simp
      · simpa [hq] using hinv.live q c hc
  · refine ⟨?_, ?_⟩
    · exact (congrFun (congrArg Waits.call hwaits) p).trans hin.call
    · have hst := congrFun (congrArg Waits.state hwaits) p
      simp only [update_of_ne (Ne.symm hne)] at hst
      rcases hin.run with h | h
      · exact Or.inl (hst.trans h)
      · exact Or.inr (hst.trans h)

end Grant

/-- The loop of a signal serves the queue until it is settled. -/
theorem grantLoop_serves {queue : List WaitNode} (h : grantLoop L p id i queue k = .ok (events, k'))
    (hinv : WaitInv k.waits) (hin : Inside k p) (hqueue : (k.sem id i).queue = queue) :
    Serves (id, i) k.waits.units (events.map (SemEvent.at id)) k'.waits.units ∧
      WaitInv k'.waits ∧ Inside k' p := by
  induction queue generalizing k events with
  | nil =>
    cases h
    refine ⟨.stop fun q rest n hq _ => ?_, hinv, hin⟩
    simp [Waits.units, Kernel.waits, hqueue] at hq
  | cons w rest ih =>
    obtain ⟨hphase, hunits, hrest, hinv', hin'⟩ := grantTo_spec hinv hin hqueue
    obtain ⟨hgt, rfl, rfl⟩ | ⟨hle, s, events', -, hloop, rfl⟩ := grantLoop_cons h
    · refine ⟨.stop fun q tail n hq hn => ?_, hinv, hin⟩
      simp only [Waits.units, Kernel.waits, hqueue, List.map_cons, List.cons.injEq] at hq
      rw [← hq.1] at hn
      obtain ⟨-, rfl⟩ := Phase.queued.inj (hphase.symm.trans hn)
      exact hgt
    · obtain ⟨hserves, hinv₂, hin₂⟩ := ih hloop hinv' ⟨hin'.call, hin'.run⟩ hrest
      refine ⟨?_, hinv₂, hin₂⟩
      have hunitsq : k.waits.units.queue (id, i) = w.p :: rest.map WaitNode.p := by
        simp [Waits.units, Kernel.waits, hqueue]
      refine .grant hunitsq hphase hle ?_
      · rw [← hunits]
        exact hserves

/-! ## The loop of `semop` -/

theorem WaitInv.setValue (hinv : WaitInv k.waits) (id i : ℕ) (v : ℤ) :
    WaitInv (k.setSemaphore id i { k.sem id i with value := v }).waits ∧
      (k.setSemaphore id i { k.sem id i with value := v }).waits.units =
        k.waits.units.setValue (id, i) v := by
  have hunits : (k.setSemaphore id i { k.sem id i with value := v }).waits.units =
      k.waits.units.setValue (id, i) v := by
    rw [waits_setSemaphore]
    refine State.ext ?_ ?_ rfl
    · funext x
      by_cases hx : x = (id, i)
      · subst hx
        simp [Waits.units, State.setValue]
      · simp [Waits.units, State.setValue, hx]
    · funext x
      by_cases hx : x = (id, i)
      · subst hx
        simp [Waits.units, State.setValue, Kernel.waits]
      · simp [Waits.units, State.setValue, hx]
  refine ⟨⟨?_, ?_, ?_⟩, hunits⟩
  · rw [hunits]
    exact hinv.consistent.setValue v
  · rw [waits_setSemaphore]
    exact hinv.want
  · rw [waits_setSemaphore]
    exact hinv.live

/-- The kernel after a process has gone to sleep in `semop`. -/
theorem sleepSem_spec (id : ℕ) (rest : List SemBuf) (addr : ℕ) (hinv : WaitInv k.waits)
    (hin : Inside k p) (hop : b.semOp < 0) :
    let k' := sleepSem p id (b :: rest) ((k.setSemaphore id b.semIndex
      { k.sem id b.semIndex with queue := (k.sem id b.semIndex).queue ++ [⟨addr, p⟩] }).setWant p
        (-b.semOp))
    WaitInv k'.waits ∧
      k'.waits.units = k.waits.units.enqueue p (id, b.semIndex) (-b.semOp) := by
  intro k'
  have hwaits : k'.waits =
      { sem := update k.waits.sem (id, b.semIndex)
          { k.sem id b.semIndex with queue := (k.sem id b.semIndex).queue ++ [⟨addr, p⟩] }
        want := update k.waits.want p (-b.semOp)
        call := update k.waits.call p (some (id, b :: rest))
        state := update k.waits.state p .SLEEPING } := by
    simp only [k', sleepSem, waits_setCall, waits_setState, waits_setWant, waits_setSemaphore]
  have hunits : k'.waits.units = k.waits.units.enqueue p (id, b.semIndex) (-b.semOp) := by
    rw [hwaits]
    refine State.ext ?_ ?_ ?_
    · funext x
      by_cases hx : x = (id, b.semIndex)
      · subst hx
        simp [Waits.units, State.enqueue, Kernel.waits]
      · simp [Waits.units, State.enqueue, hx]
    · funext x
      by_cases hx : x = (id, b.semIndex)
      · subst hx
        simp [Waits.units, State.enqueue, Kernel.waits]
      · simp [Waits.units, State.enqueue, hx]
    · refine Waits.phase_update ?_ (fun q hq => by simp [hq]) fun q hq => by simp [hq]
      exact Waits.phase_eq_queued_iff.mpr ⟨id, b, rest, by simp, by simp, rfl, rfl⟩
  refine ⟨⟨?_, ?_, ?_⟩, hunits⟩
  · rw [hunits]
    exact hinv.consistent.enqueue (by omega) (Waits.phase_eq_out hin.call)
  · rw [hwaits]
    intro q id' b' rest' hc hs
    by_cases hq : q = p
    · subst hq
      simp only [update_self, Option.some.injEq, Prod.mk.injEq, List.cons.injEq] at hc ⊢
      rw [hc.2.1]
    · simp only [update_of_ne hq] at hc hs ⊢
      exact hinv.want q id' b' rest' hc hs
  · rw [hwaits]
    intro q c hc
    by_cases hq : q = p
    · subst hq
      simp
    · simp only [update_of_ne hq] at hc ⊢
      exact hinv.live q c hc

/-- The units that a list of operations may put back into a semaphore of set `id`. -/
def gives (id : ℕ) (ops : List SemBuf) (x : ℕ × ℕ) : ℤ :=
  (ops.map fun b => if (id, b.semIndex) = x ∧ 0 < b.semOp then b.semOp else 0).sum

theorem gives_cons (b : SemBuf) (rest : List SemBuf) (x : ℕ × ℕ) :
    gives id (b :: rest) x =
      (if (id, b.semIndex) = x ∧ 0 < b.semOp then b.semOp else 0) + gives id rest x := by
  simp [gives]

theorem gives_le_cons (b : SemBuf) (rest : List SemBuf) (x : ℕ × ℕ) :
    gives id rest x ≤ gives id (b :: rest) x := by
  rw [gives_cons]
  split <;> omega

theorem gives_nonneg (ops : List SemBuf) (x : ℕ × ℕ) : 0 ≤ gives id ops x := by
  induction ops with
  | nil => exact le_rfl
  | cons b rest ih => exact ih.trans (gives_le_cons b rest x)

/-- What a critical section with the operations `ops` does. -/
structure CriticalSection (id : ℕ) (ops : List SemBuf) (w : Waits) (events : List SemEvent)
    (w' : Waits) : Prop where
  actions : Actions machineAdd w.units (events.map (SemEvent.at id)) w'.units
  inv : WaitInv w'
  released_le : ∀ x, released x (events.map (SemEvent.at id)) ≤ gives id ops x

theorem CriticalSection.skip {w : Waits} (hinv : WaitInv w) : CriticalSection id ops w [] w :=
  ⟨.nil, hinv, fun x => gives_nonneg ops x⟩

theorem CriticalSection.take {rest : List SemBuf} {w' : Waits} (hop : b.semOp < 0)
    (hle : ¬ (k.sem id b.semIndex).value < -b.semOp)
    (h : CriticalSection id rest (k.setSemaphore id b.semIndex
      { k.sem id b.semIndex with value := (k.sem id b.semIndex).value + b.semOp }).waits events w')
    (hinv : WaitInv k.waits) :
    CriticalSection id (b :: rest) k.waits (.take p b.semIndex (-b.semOp) :: events) w' where
  actions := by
    have hact : Action machineAdd k.waits.units [.take p (id, b.semIndex) (-b.semOp)]
        (k.waits.units.setValue (id, b.semIndex) ((k.sem id b.semIndex).value - -b.semOp)) :=
      .take (by omega) (not_lt.mp hle)
    refine .cons hact ?_
    rw [sub_neg_eq_add, ← (hinv.setValue _ _ _).2]
    exact h.actions
  inv := h.inv
  released_le x := by
    simpa [SemEvent.at, Event.given] using (h.released_le x).trans (gives_le_cons b rest x)

theorem CriticalSection.signal {rest : List SemBuf} {grants events : List SemEvent} {w' : Waits}
    {k₁ : Kernel} (hop : 0 < b.semOp)
    (hserves : Serves (id, b.semIndex) (k.waits.units.setValue (id, b.semIndex)
      (wrap32 ((k.sem id b.semIndex).value + b.semOp))) (grants.map (SemEvent.at id))
      k₁.waits.units)
    (h : CriticalSection id rest k₁.waits events w') :
    CriticalSection id (b :: rest) k.waits (.give p b.semIndex b.semOp :: grants ++ events) w' where
  actions := by
    rw [List.map_append]
    exact .cons (.signal hop.le hserves) h.actions
  inv := h.inv
  released_le x := by
    have hrest := h.released_le x
    rw [List.map_append, released_append, List.map_cons, released_cons, hserves.released_eq x,
      gives_cons]
    simp only [SemEvent.at, Event.given, hop, and_true]
    omega

/-- A critical section is a sequence of actions. -/
theorem semopLoop_section {r : SemResult} (h : semopLoop L p id ops k = .ok (r, events, k'))
    (hinv : WaitInv k.waits) (hin : Inside k p) :
    CriticalSection id ops k.waits events k'.waits := by
  induction ops generalizing k r events with
  | nil =>
    cases h
    exact .skip hinv
  | cons b rest ih =>
    simp only [semopLoop] at h
    split at h
    · cases h
      exact .skip hinv
    split at h
    · rename_i hop
      split at h
      · rename_i hlt
        split at h
        · cases h
          exact .skip hinv
        · simp only [insertLast, bind_eq_ok, pure_eq_ok,
            Prod.mk.injEq] at h
          obtain ⟨k₁, ⟨⟨addr, k₂⟩, hk₂, rfl⟩, -, rfl, rfl⟩ := h
          obtain ⟨s, -, rfl, -⟩ := Kernel.kmallocNode_ok hk₂
          obtain ⟨hinv', hunits⟩ := sleepSem_spec id rest addr
            (k := k.setHeap s) hinv ⟨hin.call, hin.run⟩ hop
          refine ⟨?_, hinv', fun x => gives_nonneg _ x⟩
          rw [hunits]
          exact .cons (.sleep (by omega) (Waits.phase_eq_out hin.call) hlt) .nil
      · rename_i hle
        simp only [bind_eq_ok, pure_eq_ok, Prod.mk.injEq] at h
        obtain ⟨⟨r', events', k₁⟩, hloop, -, rfl, rfl⟩ := h
        have hrest := ih hloop (hinv.setValue _ _ _).1 ⟨hin.call, hin.run⟩
        exact .take hop hle hrest hinv
    · split at h
      · rename_i hop
        simp only [bind_eq_ok, pure_eq_ok, Prod.mk.injEq] at h
        obtain ⟨⟨grants, k₁⟩, hgrant, ⟨r', events', k₂⟩, hloop, -, rfl, rfl⟩ := h
        have hset := hinv.setValue id b.semIndex (wrap32 ((k.sem id b.semIndex).value + b.semOp))
        obtain ⟨hserves, hinv₁, hin₁⟩ := grantLoop_serves hgrant hset.1 ⟨hin.call, hin.run⟩
          (by simp [Kernel.sem, Kernel.setSemaphore, Kernel.setSem])
        rw [hset.2] at hserves
        exact .signal hop hserves (ih hloop hinv₁ hin₁)
      · have hrest := ih h hinv hin
        exact ⟨hrest.actions, hrest.inv, fun x =>
          (hrest.released_le x).trans (gives_le_cons b rest x)⟩

/-! ## The steps -/

/-- The set and the operations of a critical section. -/
def Op.critical (k : Kernel) : Op → Option (ℕ × List SemBuf × List SemEvent)
  | .semop _ semid ops events => some (semid.toNat, ops, events)
  | .resume p events =>
    match k.semCall p with
    | some (id, _ :: rest) => some (id, rest, events)
    | _ => none
  | _ => none

theorem semop_section {semid : ℤ} {r : SemResult} (h : semop L p semid ops k = .ok (r, events, k'))
    (hinv : WaitInv k.waits) (hin : Inside k p) :
    CriticalSection semid.toNat ops k.waits events k'.waits := by
  cases semop_done h with
  | refused _ hevents hk =>
    subst hevents hk
    exact .skip hinv
  | entered hid _ _ hloop =>
    rw [hid, Int.toNat_natCast]
    have hsection := semopLoop_section hloop hinv ⟨hin.call, hin.run⟩
    exact hsection

theorem semopResume_section {r : SemResult} (h : semopResume L p k = .ok (r, events, k'))
    (hinv : WaitInv k.waits) (hrun : Running k.vm p) :
    ∃ id b rest, k.semCall p = some (id, b :: rest) ∧
      CriticalSection id rest k.waits events k'.waits := by
  obtain ⟨id, b, rest, events', hcall, -, hloop, rfl⟩ := semopResume_ok h
  have hawake : k.waits.state p ≠ .SLEEPING := by
    intro hs
    rcases hrun with h | h <;> exact ProcState.noConfusion (hs.symm.trans h)
  have hserved : k.waits.units.phase p = .served (id, b.semIndex) (-b.semOp) :=
    Waits.phase_eq_served hcall hawake
  have hunits : (k.setCall p none).waits.units = k.waits.units.setPhase p .out := by
    rw [waits_setCall]
    refine State.ext rfl rfl (Waits.phase_update ?_ (fun q hq => by simp [hq]) fun _ _ => rfl)
    exact Waits.phase_eq_out (by simp)
  have hinv' : WaitInv (k.setCall p none).waits := by
    refine ⟨?_, ?_, ?_⟩
    · rw [hunits]
      exact hinv.consistent.setPhase (by simp [hserved]) (by simp)
    · intro q id' b' rest' hc
      by_cases hq : q = p
      · subst hq
        simp at hc
      · rw [waits_setCall] at hc ⊢
        simp only [update_of_ne hq] at hc
        exact hinv.want q id' b' rest' hc
    · intro q c hc
      by_cases hq : q = p
      · subst hq
        simp at hc
      · rw [waits_setCall] at hc ⊢
        simp only [update_of_ne hq] at hc
        exact hinv.live q c hc
  have hloop' := semopLoop_section hloop hinv' ⟨by simp [Kernel.setCall], hrun⟩
  refine ⟨id, b, rest, hcall, ⟨?_, hloop'.inv, fun x => ?_⟩⟩
  · refine Actions.cons (.pass hserved) ?_
    rw [← hunits]
    exact hloop'.actions
  · simpa [SemEvent.at, Event.given] using hloop'.released_le x

/-- A step of a process in `semop` is a critical section. -/
theorem Step.critical {op : Op} (h : Step L k op k') (hop : op.critical k = some (id, ops, events))
    (hinv : WaitInv k.waits) : CriticalSection id ops k.waits events k'.waits := by
  obtain ⟨hready, hcall⟩ := h
  cases hcall with
  | semop hcall =>
    obtain ⟨rfl, rfl, rfl⟩ : _ ∧ _ ∧ _ := by simpa [Op.critical] using hop
    exact semop_section hcall hinv ⟨hready.2, hready.1⟩
  | resume hcall =>
    obtain ⟨id', b, rest, hc, hsec⟩ := semopResume_section hcall hinv hready
    obtain ⟨rfl, rfl, rfl⟩ : _ ∧ _ ∧ _ := by simpa [Op.critical, hc] using hop
    exact hsec
  | _ => cases hop

/-! ## Calls outside `semop` -/

theorem waits_setTable (q : Fin NPROC) (pt : PageTable) (m : KMem) :
    { k with vm := k.vm.setTable q pt m }.waits = k.waits := by
  have hstate :
      (fun r => ((k.vm.setTable q pt m).proc r).state) = fun r => (k.vm.proc r).state := by
    funext r
    by_cases hr : r = q
    · subst hr
      simp [VmState.setTable]
    · simp [VmState.setTable, hr]
  simp only [Kernel.waits, hstate]
  rfl

theorem waits_sharing (p : Fin NPROC) : Sharing p Kernel.waits fun w w' => w' = w :=
  .of_kept (fun _ _ => rfl) (fun _ pt m => waits_setTable p pt m) fun _ _ _ => rfl

theorem clear_waits (k : Kernel) (c : IpcKind) (id : ℕ) (s : KHeap) (flag : ℕ) :
    (k.clear c id s flag).waits = k.waits := by
  cases c with
  | shm => rfl
  | msq => rfl
  | sem =>
    have hsem : (k.setSem id ⟨0, NULL, (k.semid id).sem⟩).waits.sem = k.waits.sem := by
      funext x
      by_cases hx : x.1 = id <;> simp [Kernel.waits, Kernel.sem, Kernel.setSem, hx]
    change ({ k.waits with sem := _ } : Waits) = k.waits
    rw [show k.waits = { k.waits with sem := k.waits.sem } from rfl, ← hsem]
    rfl

theorem waits_dropping : Dropping Kernel.waits fun w w' => w' = w :=
  Clearing.dropping ⟨fun _ => rfl, fun _ _ _ hab hbc => hbc.trans hab, fun _ _ => rfl,
    fun _ q pt m => waits_setTable q pt m, fun _ _ _ _ => rfl, fun _ _ _ => rfl,
    fun k c id s flag _ => clear_waits k c id s flag⟩

/-- What a process waits for depends on a process only while it is inside `semop`. -/
structure SameWaits (w w' : Waits) : Prop where
  sem : w'.sem = w.sem
  call : w'.call = w.call
  want : ∀ p, w.call p ≠ none → w'.want p = w.want p
  state : ∀ p, w.call p ≠ none → w'.state p = w.state p

theorem SameWaits.of_eq (h : w' = w) : SameWaits w w' := by
  subst h
  exact ⟨rfl, rfl, fun _ _ => rfl, fun _ _ => rfl⟩

theorem SameWaits.units_eq (h : SameWaits w w') : w'.units = w.units := by
  refine State.ext ?_ ?_ (funext fun q => Waits.phase_congr (by rw [h.call]) (h.state q))
  · simp only [Waits.units, h.sem]
  · simp only [Waits.units, h.sem]

theorem SameWaits.waitInv (h : SameWaits w w') (hinv : WaitInv w) : WaitInv w' where
  consistent := by
    rw [h.units_eq]
    exact hinv.consistent
  want q id b rest hc hs := by
    rw [h.call] at hc
    have hne : w.call q ≠ none := by simp [hc]
    rw [h.want q hne]
    exact hinv.want q id b rest hc ((h.state q hne).symm.trans hs)
  live q c hc := by
    rw [h.call] at hc
    rw [h.state q (by simp [hc])]
    exact hinv.live q c hc

/-- A process keeps its state through a `fork`. -/
theorem vmFork_state {s s' : VmState} (h : LearnOS.fork L (kalloc L) p s = .ok (r, s'))
    (q : Fin NPROC) (hq : (s.proc q).state ≠ .UNUSED) : (s'.proc q).state = (s.proc q).state := by
  rcases fork_ok h with ⟨-, rfl, -⟩ | ⟨np, s₁, trapframe, old, new, old', new', -, hdone⟩
  · rfl
  have hne : q ≠ np := by
    rintro rfl
    exact hq hdone.unused
  by_cases hqp : q = p
  · subst hqp
    rw [hdone.parent hne]
  · rw [hdone.other hqp hne]

theorem WaitInv.in_use (hinv : WaitInv k.waits) {q : Fin NPROC} (hq : k.semCall q ≠ none) :
    (k.vm.proc q).state ≠ .UNUSED ∧ (k.vm.proc q).state ≠ .ZOMBIE := by
  obtain ⟨c, hc⟩ := Option.ne_none_iff_exists'.mp hq
  rcases hinv.live q c hc with h | h | h
  · exact ⟨fun hu => by simp [Kernel.waits, hu] at h, fun hz => by simp [Kernel.waits, hz] at h⟩
  · exact ⟨fun hu => by simp [Kernel.waits, hu] at h, fun hz => by simp [Kernel.waits, hz] at h⟩
  · exact ⟨fun hu => by simp [Kernel.waits, hu] at h, fun hz => by simp [Kernel.waits, hz] at h⟩

theorem fork_sameWaits (h : fork L p k = .ok (r, k')) (hinv : WaitInv k.waits) :
    SameWaits k.waits k'.waits := by
  obtain ⟨vm, hvm, hwaits⟩ := fork_sharing waits_sharing h
  rw [hwaits]
  exact ⟨rfl, rfl, fun _ _ => rfl, fun q hq => vmFork_state hvm q (hinv.in_use hq).1⟩

theorem wait_sameWaits (h : wait L p k = .ok (r, k')) (hinv : WaitInv k.waits) :
    SameWaits k.waits k'.waits := by
  obtain rfl | ⟨pp, hzombie, h⟩ := wait_ok h
  · exact .of_eq rfl
  obtain ⟨s, s', k₁, free, hipc, rfl⟩ := freeproc_ok h
  have hwaits := freeIpc_dropping waits_dropping hipc
  change k₁.waits = k.waits at hwaits
  have hne : ∀ q, k.waits.call q ≠ none → q ≠ pp := by
    rintro q hq rfl
    exact (hinv.in_use hq).2 hzombie
  rw [← hwaits] at hne ⊢
  refine ⟨rfl, rfl, fun q hq => ?_, fun q hq => ?_⟩
  · exact update_of_ne (hne q hq) _ _
  · simp [Kernel.waits, Kernel.resetProc, Kernel.setWant, Kernel.setHeap, VmState.setProc, hne q hq]

theorem exit_sameWaits (h : exit p k = .ok k') (hin : k.semCall p = none) :
    SameWaits k.waits k'.waits := by
  simp only [exit, LearnOS.exit, bind_eq_ok, pure_eq_ok] at h
  obtain ⟨vm, hvm, rfl⟩ := h
  split at hvm
  · cases hvm
  cases hvm
  refine ⟨rfl, rfl, fun _ _ => rfl, fun q hq => ?_⟩
  have hne : q ≠ p := by
    rintro rfl
    exact hq hin
  simp only [Kernel.waits, if_neg hne, reparent]
  split <;> rfl

/-- Nobody waits: the state in which sets are made. -/
structure Idle (k : Kernel) : Prop where
  queue : ∀ id i, (k.sem id i).queue = []
  call : ∀ p, k.semCall p = none

theorem Idle.waitInv (h : Idle k) : WaitInv k.waits where
  consistent := by
    refine ⟨fun x => ?_, fun x q => ?_, fun q x n hq => ?_⟩
    · simp [Waits.units, Kernel.waits, h.queue]
    · simp [Waits.units, Kernel.waits, h.queue, Waits.phase, h.call]
    · simp [Waits.units, Kernel.waits, Waits.phase, h.call] at hq
  want q id b rest hc := by simp [Kernel.waits, h.call] at hc
  live q c hc := by simp [Kernel.waits, h.call] at hc

theorem Idle.phase (h : Idle k) (q : Fin NPROC) : k.waits.phase q = .out :=
  Waits.phase_eq_out (h.call q)

end LearnOS.Ipc
