import LearnOS.Ipc.SemQueue

/-!
# Lost wake-ups

Between critical sections nobody at the head of a wait queue could be served.
`semop` restores this whenever it changes a value; `semctl` with `SETVAL` or
`SETALL` assigns values and looks at no queue.

## Main results

`no_lost_wakeup_iff`: no wake-up is lost in a run if and only if every assignment
stays below the demand at the head of each queue.
-/

namespace LearnOS.Ipc

open LearnOS Transition Semaphore Kres

variable {L : Layout} {k k' : Kernel} {op : Op} {id i : ℕ}

/-- In a set whose lock is free, the process at the head of a queue wants more
than there is. -/
def NoLostWakeup (k : Kernel) : Prop :=
  ∀ id, (k.slot (.sem, id)).locked = false → ∀ i < (k.semid id).sz,
    ∀ w rest, (k.sem id i).queue = w :: rest → (k.sem id i).value < k.semWant w.p

/-- Calls of `semop`, and of `semctl` for values. -/
def Op.usesValues : Op → Bool
  | .semop _ _ _ _ => true
  | .resume _ _ => true
  | .semctl _ _ _ cmd _ _ => cmd = SETVAL ∨ cmd = SETALL ∨ cmd = GETVAL ∨ cmd = GETALL
  | _ => false

/-- The values of a set after `SETVAL` or `SETALL`. -/
def Op.assigns (k : Kernel) : Op → Option (ℕ × (ℕ → ℤ))
  | .semctl _ semid semnum cmd val array =>
    if (semid : ℤ) ≥ SEMMAX then none
    else if cmd = SETALL then
      some (semid.toNat, fun i =>
        if i < (k.semid semid.toNat).sz then wrap16 (array i) else (k.sem semid.toNat i).value)
    else if cmd = SETVAL then
      some (semid.toNat, fun i =>
        if i = semnum.toNat then wrap16 val else (k.sem semid.toNat i).value)
    else none
  | _ => none

/-- The value is below the demand at the head of the queue. -/
def BelowDemand (k : Kernel) (id i : ℕ) (v : ℤ) : Prop :=
  ∀ w ∈ (k.sem id i).queue.head?, v < k.semWant w.p

/-- An assignment to a set in use meets no demand at the head of a queue. -/
def AssignsBelowDemand (k : Kernel) (op : Op) : Prop :=
  ∀ a, op.assigns k = some a → (k.slot (.sem, a.1)).state ≠ .UNUSED →
    ∀ i < (k.semid a.1).sz, BelowDemand k a.1 i (a.2 i)

instance (k : Kernel) (id i : ℕ) (v : ℤ) : Decidable (BelowDemand k id i v) :=
  inferInstanceAs (Decidable (∀ w ∈ (k.sem id i).queue.head?, v < k.semWant w.p))

instance (k : Kernel) (op : Op) : Decidable (AssignsBelowDemand k op) :=
  match h : op.assigns k with
  | none => .isTrue fun a ha => by simp [h] at ha
  | some a =>
    decidable_of_iff ((k.slot (.sem, a.1)).state ≠ .UNUSED →
      ∀ i < (k.semid a.1).sz, BelowDemand k a.1 i (a.2 i)) (by simp [AssignsBelowDemand, h])

/-! ## Assignments -/

def Waits.assign (w : Waits) (id : ℕ) (new : ℕ → ℤ) : Waits :=
  { w with sem := fun x => if x.1 = id then ⟨new x.2, (w.sem x).queue⟩ else w.sem x }

theorem waitInv_assign {w : Waits} {new : ℕ → ℤ} (hinv : WaitInv w) :
    WaitInv (w.assign id new) := by
  have hqueue : (w.assign id new).units.queue = w.units.queue := by
    funext x
    simp only [Waits.units, Waits.assign]
    split <;> rfl
  refine ⟨⟨fun x => ?_, fun x q => ?_, hinv.consistent.demand⟩, hinv.want, hinv.live⟩
  · rw [hqueue]
    exact hinv.consistent.nodup x
  · rw [hqueue]
    exact hinv.consistent.mem_iff x q

/-- `semctl` for values either leaves the semaphores alone or assigns to a set in
use. -/
inductive Assigned (k : Kernel) (op : Op) (k' : Kernel) : Prop
  | none (hwaits : k'.waits = k.waits)
      (hnot : ∀ a, op.assigns k = some a → (k.slot (.sem, a.1)).state = .UNUSED)
  | some (id : ℕ) (new : ℕ → ℤ) (hop : op.assigns k = some (id, new))
      (huse : (k.slot (.sem, id)).state ≠ .UNUSED)
      (hfree : (k'.slot (.sem, id)).locked = false) (hsz : (k'.semid id).sz = (k.semid id).sz)
      (hwaits : k'.waits = k.waits.assign id new)
      (hout : ∀ i, (k.semid id).sz ≤ i → new i = (k.sem id i).value)

theorem semnumOf_ok {semnum : ℤ} (h : semnumOf k id semnum = .ok i) :
    semnum.toNat = i ∧ i < (k.semid id).sz := by
  simp only [semnumOf] at h
  split at h
  · rename_i hrange
    cases h
    exact ⟨rfl, by omega⟩
  · cases h

theorem setall_waits (k : Kernel) (id : ℕ) (array : ℕ → ℤ) :
    (k.setSem id { k.semid id with
      sem := fun i =>
        if i < (k.semid id).sz then ⟨wrap16 (array i), (k.sem id i).queue⟩
        else k.sem id i }).waits =
      k.waits.assign id fun i =>
        if i < (k.semid id).sz then wrap16 (array i) else (k.sem id i).value := by
  have hsem : (k.setSem id { k.semid id with
      sem := fun i =>
        if i < (k.semid id).sz then ⟨wrap16 (array i), (k.sem id i).queue⟩
        else k.sem id i }).waits.sem =
      (k.waits.assign id fun i =>
        if i < (k.semid id).sz then wrap16 (array i) else (k.sem id i).value).sem := by
    funext x
    obtain ⟨id', i⟩ := x
    by_cases hid : id' = id
    · subst hid
      by_cases hi : i < (k.semid id').sz
      · simp [Kernel.waits, Kernel.sem, Kernel.setSem, Waits.assign, hi]
      · simp [Kernel.waits, Kernel.sem, Kernel.setSem, Waits.assign, hi]
    · simp [Kernel.waits, Kernel.sem, Kernel.setSem, Waits.assign, hid]
  simp only [Waits.assign] at hsem ⊢
  rw [← hsem]
  rfl

theorem setval_waits (v : ℤ) :
    (k.setSemaphore id i ⟨v, (k.sem id i).queue⟩).waits =
      k.waits.assign id fun i' => if i' = i then v else (k.sem id i').value := by
  rw [waits_setSemaphore]
  simp only [Waits.assign]
  congr 1
  funext x
  obtain ⟨id', i'⟩ := x
  by_cases hid : id' = id
  · subst hid
    by_cases hi : i' = i
    · subst hi
      simp [Kernel.waits]
    · simp [Kernel.waits, hi]
  · simp [hid]

theorem semctl_assigned {p : Fin NPROC} {semid semnum cmd val r : ℤ} {array : ℕ → ℤ}
    (h : semctl L p semid semnum cmd val array k = .ok (r, k'))
    (hcmd : (Op.semctl p semid semnum cmd val array).usesValues) :
    Assigned k (.semctl p semid semnum cmd val array) k' := by
  simp only [Op.usesValues, decide_eq_true_eq] at hcmd
  obtain ⟨rfl, hwhy⟩ | ⟨id, rfl, hmax, hfree, huse, hdone⟩ := semctl_done h
  · refine .none rfl fun a ha => ?_
    simp only [Op.assigns] at ha
    split at ha
    · cases ha
    rename_i hmax
    have hid : a.1 = semid.toNat := by
      split at ha
      · simp [← Option.some.inj ha]
      · split at ha
        · simp [← Option.some.inj ha]
        · cases ha
    rw [hid]
    exact hwhy.resolve_left hmax
  have hmax' : ¬ (id : ℤ) ≥ SEMMAX := by omega
  cases hdone with
  | getall hget hk =>
    subst hk
    exact .none rfl fun a ha => by
      simp [Op.assigns, hmax', hget, show GETALL ≠ SETALL by decide,
        show GETALL ≠ SETVAL by decide] at ha
  | getval hget _ _ hk =>
    subst hk
    exact .none rfl fun a ha => by
      simp [Op.assigns, hmax', hget, show GETVAL ≠ SETALL by decide,
        show GETVAL ≠ SETVAL by decide] at ha
  | @setall s hset hk =>
    subst hk
    have hwaits : _ = k.waits.assign id _ := setall_waits k id array
    refine .some id
      (fun i => if i < (k.semid id).sz then wrap16 (array i) else (k.sem id i).value)
      (by simp [Op.assigns, hmax', hset]) huse hfree ?_ hwaits ?_
    · simp [Kernel.setSem, Kernel.setHeap]
    · intro i hi
      simp [not_lt.mpr hi]
  | @setval i hval hi hk =>
    subst hk
    obtain ⟨hnum, hlt⟩ := semnumOf_ok hi
    refine .some id (fun i' => if i' = i then wrap16 val else (k.sem id i').value)
      (by simp [Op.assigns, hmax', hval, hnum, show SETVAL ≠ SETALL by decide]) huse hfree ?_
      (setval_waits _) ?_
    · simp [Kernel.setSemaphore, Kernel.setSem]
    · intro i' hi'
      have hne : i' ≠ i := by omega
      simp [hne]
  | unknown hno => exact absurd hcmd (by simp only [Releases] at hno; tauto)
  | _ h => exact absurd hcmd (by rw [h]; decide)

/-! ## Steps -/

/-- A call of `semop`, or of `semctl` for values. -/
def ValueStep (L : Layout) (k : Kernel) (op : Op) (k' : Kernel) : Prop :=
  Step L k op k' ∧ op.usesValues

/-- Every queue is settled. -/
structure WakeInv (k : Kernel) : Prop where
  waits : WaitInv k.waits
  settled : ∀ x, Settled k.waits.units x

theorem WakeInv.head_demand (h : WaitInv k.waits) {w : WaitNode} {rest : List WaitNode}
    (hqueue : (k.sem id i).queue = w :: rest) :
    k.waits.phase w.p = .queued (id, i) (k.semWant w.p) := by
  obtain ⟨n, hn⟩ := (h.consistent.mem_iff (id, i) w.p).mp
    (by simp [Waits.units, Kernel.waits, hqueue])
  obtain ⟨id', b, ops, hcall, hstate, hx, rfl⟩ := Waits.phase_eq_queued_iff.mp hn
  rw [hx, show k.semWant w.p = -b.semOp from h.want _ _ _ _ hcall hstate]
  exact Waits.phase_eq_queued_iff.mpr ⟨id', b, ops, hcall, hstate, rfl, rfl⟩

theorem WakeInv.noLostWakeup (h : WakeInv k) : NoLostWakeup k := by
  intro id _ i _ w rest hqueue
  refine h.settled (id, i) w.p (rest.map WaitNode.p) _ ?_ (head_demand h.waits hqueue)
  simp [Waits.units, Kernel.waits, hqueue]

theorem WakeInv.assign {new : ℕ → ℤ} (h : WakeInv k)
    (hwaits : k'.waits = k.waits.assign id new)
    (hbelow : ∀ i < (k.semid id).sz, BelowDemand k id i (new i))
    (hout : ∀ i, (k.semid id).sz ≤ i → new i = (k.sem id i).value) : WakeInv k' := by
  refine ⟨hwaits ▸ waitInv_assign h.waits, fun x p rest n hqueue hphase => ?_⟩
  rw [hwaits] at hqueue hphase ⊢
  obtain ⟨id', i⟩ := x
  by_cases hid : id' = id
  · subst hid
    simp only [Waits.units, Waits.assign, if_true] at hqueue ⊢
    by_cases hi : i < (k.semid id').sz
    · obtain ⟨w, l, hq, rfl, -⟩ := List.map_eq_cons_iff.mp hqueue
      have hphase' := Phase.queued.inj ((WakeInv.head_demand h.waits hq).symm.trans hphase)
      rw [← hphase'.2]
      exact hbelow i hi w (by simp [show (k.sem id' i).queue = w :: l from hq])
    · rw [hout i (not_lt.mp hi)]
      exact h.settled (id', i) p rest n hqueue hphase
  · simp only [Waits.units, Waits.assign, if_neg hid] at hqueue ⊢
    exact h.settled (id', i) p rest n hqueue hphase

theorem ValueStep.keeps (hstep : ValueStep L k op k') (h : WakeInv k)
    (hok : AssignsBelowDemand k op) : WakeInv k' := by
  obtain ⟨hstep, hop⟩ := hstep
  have hcritical : ∀ c, op.critical k = some c → WakeInv k' := by
    intro c hc
    have hsec := hstep.critical hc h.waits
    exact ⟨hsec.inv, hsec.actions.settled h.settled⟩
  obtain ⟨hready, hcall⟩ := hstep
  cases hcall with
  | semop => exact hcritical _ rfl
  | @resume _ p r events hcall =>
    obtain ⟨id, b, rest, hc, -⟩ := semopResume_section hcall h.waits hready
    exact hcritical (id, rest, events) (by simp [Op.critical, hc])
  | semctl hcall =>
    cases semctl_assigned hcall hop with
    | none hwaits => exact ⟨hwaits ▸ h.waits, hwaits ▸ h.settled⟩
    | some id new ha huse _ _ hwaits hout =>
      exact h.assign hwaits (hok _ ha huse) hout
  | _ => cases hop

theorem ValueStep.breaks (hstep : ValueStep L k op k') (hok : ¬ AssignsBelowDemand k op) :
    ¬ NoLostWakeup k' := by
  simp only [AssignsBelowDemand, BelowDemand, not_forall] at hok
  obtain ⟨a, ha, huse, i, hi, w, hw, hge⟩ := hok
  obtain ⟨⟨-, hcall⟩, hop⟩ := hstep
  cases hcall with
  | semctl hcall =>
    cases semctl_assigned hcall hop with
    | none _ hnot => exact absurd (hnot a ha) huse
    | some id new ha' _ hfree hsz hwaits _ =>
      obtain rfl := Option.some.inj (ha.symm.trans ha')
      obtain ⟨rest, hqueue⟩ := List.head?_eq_some_iff.mp hw
      have hsem : k'.sem id i = ⟨new i, (k.sem id i).queue⟩ := by
        have heq := congrFun (congrArg Waits.sem hwaits) (id, i)
        simpa [Waits.assign, Kernel.waits] using heq
      have hwant : k'.semWant = k.semWant := congrArg Waits.want hwaits
      intro hno
      have hlt := hno id hfree i (hsz ▸ hi) w rest (by rw [hsem]; exact hqueue)
      rw [hsem, hwant] at hlt
      exact hge hlt
  | _ => cases ha

/-- In a run from a state in which nobody waits, no wake-up is lost if and only if
every assignment stays below the demands at the heads of the queues. -/
theorem no_lost_wakeup_iff {k₀ : Kernel} {run : List (Op × Kernel)} (hidle : Idle k₀)
    (hrun : IsRun (ValueStep L) k₀ run) :
    (∀ k ∈ visited k₀ run, NoLostWakeup k) ↔ Along AssignsBelowDemand k₀ run := by
  have hwake : WakeInv k₀ := by
    refine ⟨hidle.waitInv, fun x p rest n hqueue => ?_⟩
    simp [Waits.units, Kernel.waits, hidle.queue] at hqueue
  refine IsRun.visited_iff_along AssignsBelowDemand WakeInv NoLostWakeup ?_ ?_ hwake
    hwake.noLostWakeup hrun
  · intro k op k' hinv _ hok hstep
    exact ⟨hstep.keeps hinv hok, (hstep.keeps hinv hok).noLostWakeup⟩
  · intro k op k' _ _ hok hstep
    exact hstep.breaks hok

/-! ## Runs from the start -/

/-- All semaphores are as `semget` makes them, and no call is interrupted. -/
structure Fresh (k : Kernel) : Prop where
  sem : ∀ id i, k.sem id i = ⟨0, []⟩
  call : ∀ p, k.semCall p = none

theorem Fresh.idle (h : Fresh k) : Idle k := ⟨fun id i => by rw [h.sem], h.call⟩

theorem Fresh.of_sameWaits (h : Fresh k) (hsame : SameWaits k.waits k'.waits) : Fresh k' where
  sem id i := (congrFun hsame.sem (id, i)).trans (h.sem id i)
  call p := (congrFun hsame.call p).trans (h.call p)

theorem Fresh.semget {p : Fin NPROC} {key size flag : ℕ} {r : ℤ} (h : Fresh k)
    (hcall : semget L p key size flag k = .ok (r, k')) : Fresh k' := by
  obtain ⟨id, -, hdone⟩ := ipcGet_done hcall
  cases hdone with
  | refused _ _ hk =>
    rw [hk]
    exact h
  | shared _ _ _ hshare =>
    obtain ⟨s, addr, rfl⟩ := addNode_ok hshare
    exact ⟨h.sem, h.call⟩
  | created _ _ _ hcreate hshare =>
    obtain ⟨ptr, s, rfl⟩ := semCreate_ok hcreate
    obtain ⟨s', addr, rfl⟩ := addNode_ok hshare
    refine ⟨fun id' i => ?_, h.call⟩
    by_cases hid : id' = id
    · simp [Kernel.sem, addRef, Kernel.setNodes, Kernel.setSlot, Kernel.setSem, Kernel.setHeap, hid]
    · simpa [Kernel.sem, addRef, Kernel.setNodes, Kernel.setSlot, Kernel.setSem, Kernel.setHeap,
        hid] using h.sem id' i

theorem smallBoot_fresh (h : smallBoot L = .ok k) : Fresh k := by
  obtain ⟨vm, word, cache, free, rfl⟩ := smallBoot_ok h
  exact ⟨fun _ _ => rfl, fun _ => rfl⟩

/-- Calls that open sets or fork. -/
def Op.prepares : Op → Bool
  | .semget _ _ _ _ => true
  | .fork _ => true
  | _ => false

theorem Fresh.prepared {before : List (Op × Kernel)} (h : Fresh k)
    (hrun : IsRun (Step L) k before) (hops : ∀ op ∈ before.map Prod.fst, op.prepares) :
    Fresh (last k before) := by
  induction before generalizing k with
  | nil => exact h
  | cons x rest ih =>
    obtain ⟨op, k₁⟩ := x
    have hfresh : Fresh k₁ := by
      have hop := hops op List.mem_cons_self
      cases hrun.1.call with
      | semget hcall => exact h.semget hcall
      | fork hcall => exact h.of_sameWaits (fork_sameWaits hcall h.idle.waitInv)
      | _ => cases hop
    exact ih hfresh hrun.2 fun op hop => hops op (List.mem_cons_of_mem _ hop)

/-- A child waits for one unit; the parent then sets the value to five. -/
theorem setval_loses_wakeup :
    ∃ k₀ before run, smallBoot smallLayout = .ok k₀ ∧ IsRun (Step smallLayout) k₀ before ∧
      Idle (last k₀ before) ∧ IsRun (ValueStep smallLayout) (last k₀ before) run ∧
      ∃ k ∈ visited (last k₀ before) run, ¬ NoLostWakeup k := by
  obtain ⟨k₀, before, run, hk₀, hbefore, hops, hrun, hvalues, hfree, hsz, w, hhead, hle⟩ :=
    boot_run_after (L := smallLayout) [.semget 0 0 1 0x8fff, .fork 0]
    [.semop 1 0 [⟨0, -1, 0⟩] [], .semctl 0 0 0 SETVAL 5 fun _ => 0]
    (fun k run => Along (fun (_ : Kernel) (op : Op) => op.usesValues = true) k run ∧
      ((last k run).slot (.sem, 0)).locked = false ∧ 0 < ((last k run).semid 0).sz ∧
      ∃ w, ((last k run).sem 0 0).queue.head? = some w ∧
        (last k run).semWant w.p ≤ ((last k run).sem 0 0).value)
    (by decide +kernel)
  refine ⟨k₀, before, run, hk₀, hbefore,
    ((smallBoot_fresh hk₀).prepared hbefore (by rw [hops]; decide)).idle, hrun.and_along hvalues,
    _, last_mem_visited _ _, fun hno => ?_⟩
  obtain ⟨rest, hqueue⟩ := List.head?_eq_some_iff.mp hhead
  exact absurd (hno 0 hfree 0 hsz w rest hqueue) (not_lt.mpr hle)

/-- A child waits for two units; the parent sets the value to one. -/
theorem setval_below_demand :
    ∃ k₀ run, Idle k₀ ∧ IsRun (ValueStep smallLayout) k₀ run ∧ run.length = 2 ∧
      Along AssignsBelowDemand k₀ run ∧ ∀ k ∈ visited k₀ run, NoLostWakeup k := by
  obtain ⟨k₀, before, run, hk₀, hbefore, hops, hrun, hvalues, hlen, hok⟩ := boot_run_after
    (L := smallLayout) [.semget 0 0 1 0x8fff, .fork 0]
    [.semop 1 0 [⟨0, -2, 0⟩] [], .semctl 0 0 0 SETVAL 1 fun _ => 0]
    (fun k run => Along (fun (_ : Kernel) (op : Op) => op.usesValues = true) k run ∧
      run.length = 2 ∧ Along AssignsBelowDemand k run)
    (by decide +kernel)
  have hidle := ((smallBoot_fresh hk₀).prepared hbefore (by rw [hops]; decide)).idle
  have hsteps : IsRun (ValueStep smallLayout) (last k₀ before) run := hrun.and_along hvalues
  exact ⟨_, run, hidle, hsteps, hlen, hok, (no_lost_wakeup_iff hidle hsteps).mpr hok⟩

end LearnOS.Ipc
