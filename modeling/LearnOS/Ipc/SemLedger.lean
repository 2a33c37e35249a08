import LearnOS.Ipc.SemWake

/-!
# Conservation of units

The critical sections of a run leave a log of what they do with units. The log is
checked against the values of the semaphores and against the processes: whoever
goes on behind a wait has had its units taken before.

`kill` makes a process that sleeps in `semop` runnable. It then goes on without
its units, and stays in the queue.

## Main results

`units_conserved`: units are conserved in every run in which no process is killed
while it sleeps in `semop` and no signal exceeds the range of `int`.
-/

namespace LearnOS.Ipc

open LearnOS Transition Semaphore

variable {L : Layout} {k k' : Kernel} {op : Op}

/-- Critical sections of `semop`, and calls that create, kill and end processes. -/
def Op.schedules : Op → Bool
  | .semop _ _ _ _ => true
  | .resume _ _ => true
  | .kill _ _ => true
  | .exit _ => true
  | .fork _ => true
  | .wait _ => true
  | _ => false

def UnitStep (L : Layout) (k : Kernel) (op : Op) (k' : Kernel) : Prop :=
  Step L k op k' ∧ op.schedules

/-- The events of a step, each in its set. -/
def Op.semLog (k : Kernel) (op : Op) : List (Event (ℕ × ℕ) (Fin NPROC)) :=
  match op.critical k with
  | some (id, _, events) => events.map (SemEvent.at id)
  | none => []

/-- The events of a run. -/
def semLog : Kernel → List (Op × Kernel) → List (Event (ℕ × ℕ) (Fin NPROC))
  | _, [] => []
  | k, (op, k') :: rest => op.semLog k ++ semLog k' rest

/-- The call does not kill a process that sleeps in `semop`. -/
def SparesSleepers (k : Kernel) : Op → Prop
  | .kill _ q => (k.vm.proc q).state = .SLEEPING → (k.semCall q).isNone
  | _ => True

/-- What a critical section may put back does not exceed the range of `int`. -/
def FitsInt (k : Kernel) (op : Op) : Prop :=
  ∀ c ∈ op.critical k, ∀ b ∈ c.2.1,
    (k.sem c.1 b.semIndex).value + gives c.1 c.2.1 (c.1, b.semIndex) < 2 ^ 31

def KeepsUnits (k : Kernel) (op : Op) : Prop := SparesSleepers k op ∧ FitsInt k op

instance (k : Kernel) : (op : Op) → Decidable (SparesSleepers k op)
  | .kill _ q =>
    inferInstanceAs (Decidable ((k.vm.proc q).state = .SLEEPING → (k.semCall q).isNone))
  | .shmget .. | .shmat .. | .shmdt .. | .shmctl .. | .semget .. | .semop .. | .resume ..
  | .semctl .. | .msgget .. | .msgsnd .. | .msgrcv .. | .msgctl .. | .fork .. | .exit ..
  | .wait .. => .isTrue trivial

instance (k : Kernel) (op : Op) : Decidable (FitsInt k op) :=
  inferInstanceAs (Decidable (∀ c ∈ op.critical k, _))

instance (k : Kernel) (op : Op) : Decidable (KeepsUnits k op) :=
  inferInstanceAs (Decidable (_ ∧ _))

/-- Every value is an `int`. -/
def ValuesInt (k : Kernel) : Prop :=
  ∀ id i, -2 ^ 31 ≤ (k.sem id i).value ∧ (k.sem id i).value < 2 ^ 31

theorem machineAdd_eq {v n : ℤ} (hv : -2 ^ 31 ≤ v) (hn : 0 ≤ n) (hle : v + n ≤ 2 ^ 31 - 1) :
    machineAdd v n = v + n := by
  rw [machineAdd, wrap32]
  exact Int.bmod_eq_of_le (by omega) (by omega)

/-! ## One step -/

/-- The log so far accounts for the values, and for the processes inside `semop`. -/
structure Ledger (k₀ k : Kernel) (es : List (Event (ℕ × ℕ) (Fin NPROC))) : Prop where
  waits : WaitInv k.waits
  range : ValuesInt k
  sum : ∀ id i, (k.sem id i).value + granted (id, i) es =
    (k₀.sem id i).value + released (id, i) es
  due : replay es (fun _ => none) = some k.waits.units.due

variable {k₀ : Kernel} {es : List (Event (ℕ × ℕ) (Fin NPROC))}

theorem Ledger.sameWaits (h : Ledger k₀ k es) (hsame : SameWaits k.waits k'.waits) :
    Ledger k₀ k' es := by
  have hsem : ∀ id i, k'.sem id i = k.sem id i := fun id i => congrFun hsame.sem (id, i)
  refine ⟨hsame.waitInv h.waits, fun id i => ?_, fun id i => ?_, ?_⟩
  · rw [hsem]
    exact h.range id i
  · rw [hsem]
    exact h.sum id i
  · rw [hsame.units_eq]
    exact h.due

theorem gives_eq_zero {id : ℕ} {ops : List SemBuf} {x : ℕ × ℕ}
    (h : ∀ b ∈ ops, (id, b.semIndex) ≠ x) : gives id ops x = 0 := by
  induction ops with
  | nil => rfl
  | cons b rest ih =>
    rw [gives_cons, if_neg fun hx => h b List.mem_cons_self hx.1, zero_add]
    exact ih fun c hc => h c (List.mem_cons_of_mem _ hc)

theorem Ledger.critical {id : ℕ} {ops : List SemBuf} {events : List SemEvent}
    (h : Ledger k₀ k es) (hsec : CriticalSection id ops k.waits events k'.waits)
    (hok : ∀ b ∈ ops, (k.sem id b.semIndex).value + gives id ops (id, b.semIndex) < 2 ^ 31) :
    Ledger k₀ k' (es ++ events.map (SemEvent.at id)) := by
  have hhigh : ∀ x, k.waits.units.value x + released x (events.map (SemEvent.at id)) ≤
      2 ^ 31 - 1 := by
    intro x
    have hle := hsec.released_le x
    have hval : k.waits.units.value x = (k.sem x.1 x.2).value := rfl
    have hrange := h.range x.1 x.2
    by_cases hx : ∃ b ∈ ops, (id, b.semIndex) = x
    · obtain ⟨b, hb, rfl⟩ := hx
      have hlt := hok b hb
      simp only at hval
      omega
    · push Not at hx
      rw [gives_eq_zero hx] at hle
      omega
  have hbal := hsec.actions.balanced (fun v n hv hn hle => machineAdd_eq hv hn hle)
    (by decide : (-2 ^ 31 : ℤ) ≤ 0) (fun x => (h.range x.1 x.2).1) hhigh h.waits.consistent
  refine ⟨hsec.inv, fun id' i => ⟨hbal.low (id', i), ?_⟩, fun id' i => ?_, ?_⟩
  · have hsum : (k'.sem id' i).value + _ = _ := hbal.sum (id', i)
    have hpos := hbal.nonneg (id', i)
    have hle := hhigh (id', i)
    omega
  · have hsum : (k'.sem id' i).value + _ = (k.sem id' i).value + _ := hbal.sum (id', i)
    have hold := h.sum id' i
    rw [granted_append, released_append]
    omega
  · rw [replay_append, h.due, Option.bind_some, hsec.actions.replay]

theorem kill_sameWaits {q : Fin NPROC}
    (hq : (k.vm.proc q).state = .SLEEPING → k.semCall q = none) :
    SameWaits k.waits (kill q k).waits := by
  refine ⟨rfl, rfl, fun _ _ => rfl, fun p hp => ?_⟩
  by_cases hpq : p = q
  · subst hpq
    have hawake : (k.vm.proc p).state ≠ .SLEEPING := fun hs => hp (hq hs)
    simp [Kernel.waits, kill, VmState.setProc, hawake]
  · simp [Kernel.waits, kill, VmState.setProc, hpq]

theorem UnitStep.ledger (hstep : UnitStep L k op k') (h : Ledger k₀ k es)
    (hok : KeepsUnits k op) : Ledger k₀ k' (es ++ op.semLog k) := by
  obtain ⟨hstep, hop⟩ := hstep
  have hcritical : ∀ id ops events, op.critical k = some (id, ops, events) →
      Ledger k₀ k' (es ++ op.semLog k) := by
    intro id ops events hc
    rw [Op.semLog, hc]
    exact h.critical (hstep.critical hc h.waits) (hok.2 _ hc)
  have hquiet : op.critical k = none → SameWaits k.waits k'.waits →
      Ledger k₀ k' (es ++ op.semLog k) := by
    intro hc hsame
    rw [Op.semLog, hc, List.append_nil]
    exact h.sameWaits hsame
  obtain ⟨hready, hcall⟩ := hstep
  cases hcall with
  | semop => exact hcritical _ _ _ rfl
  | @resume _ p r events hcall =>
    obtain ⟨id, b, rest, hc, -⟩ := semopResume_section hcall h.waits hready
    exact hcritical id rest events (by simp [Op.critical, hc])
  | fork hcall => exact hquiet rfl (fork_sameWaits hcall h.waits)
  | wait hcall => exact hquiet rfl (wait_sameWaits hcall h.waits)
  | exit hcall => exact hquiet rfl (exit_sameWaits hcall hready.2)
  | kill => exact hquiet rfl (kill_sameWaits fun hs => Option.isNone_iff_eq_none.mp (hok.1 hs))
  | _ => cases hop

/-! ## Runs -/

theorem ledger_run {run : List (Op × Kernel)} (h : Ledger k₀ k es)
    (hrun : IsRun (UnitStep L) k run) (hok : Along KeepsUnits k run) :
    Ledger k₀ (last k run) (es ++ semLog k run) := by
  induction run generalizing k es with
  | nil => simpa [semLog, last] using h
  | cons x rest ih =>
    obtain ⟨op, k₁⟩ := x
    have hrest := ih (hrun.1.ledger h hok.1) hrun.2 hok.2
    rwa [List.append_assoc] at hrest

theorem Idle.ledger (h : Idle k) (hint : ValuesInt k) : Ledger k k [] where
  waits := h.waitInv
  range := hint
  sum _ _ := rfl
  due := by
    have hdue : k.waits.units.due = fun _ => none := by
      funext p
      simp [State.due, Waits.units, h.phase]
    rw [hdue]
    rfl

/-- In a run from a state in which nobody waits, as long as no sleeper is killed
and no `int` overflows, values and log agree, whoever goes on has been served, and
whoever has been served and not gone on yet is able to. -/
theorem units_conserved {run : List (Op × Kernel)} (hidle : Idle k₀) (hint : ValuesInt k₀)
    (hrun : IsRun (UnitStep L) k₀ run) (hok : Along KeepsUnits k₀ run) :
    (∀ id i, ((last k₀ run).sem id i).value + granted (id, i) (semLog k₀ run) =
      (k₀.sem id i).value + released (id, i) (semLog k₀ run)) ∧
    (∃ due, replay (semLog k₀ run) (fun _ => none) = some due ∧
      ∀ p id i n, due p = some ((id, i), n) → Running (last k₀ run).vm p ∧
        ∃ b rest, (last k₀ run).semCall p = some (id, b :: rest) ∧ b.semIndex = i ∧
          -b.semOp = n) ∧
    ∀ id i, ∀ w ∈ ((last k₀ run).sem id i).queue,
      ((last k₀ run).vm.proc w.p).state ≠ .UNUSED ∧
        ((last k₀ run).vm.proc w.p).state ≠ .ZOMBIE := by
  have hledger := ledger_run (hidle.ledger hint) hrun hok
  rw [List.nil_append] at hledger
  refine ⟨hledger.sum, ⟨_, hledger.due, fun p id i n hp => ?_⟩, fun id i w hw => ?_⟩
  · cases hcall : (last k₀ run).semCall p with
    | none => simp [State.due, Waits.units, Waits.phase, Kernel.waits, hcall] at hp
    | some c =>
      obtain ⟨id', ops⟩ := c
      have hlive := hledger.waits.live p _ hcall
      cases ops with
      | nil => simp [State.due, Waits.units, Waits.phase, Kernel.waits, hcall] at hp
      | cons b rest =>
        by_cases hs : (last k₀ run).waits.state p = .SLEEPING
        · simp [State.due, Waits.units, Waits.phase, show (last k₀ run).waits.call p = _ from hcall,
            hs] at hp
        · have hphase := Waits.phase_eq_served (w := (last k₀ run).waits) hcall hs
          simp only [State.due, Waits.units, hphase, Option.some.injEq, Prod.mk.injEq] at hp
          obtain ⟨⟨rfl, rfl⟩, rfl⟩ := hp
          exact ⟨hlive.resolve_left hs, b, rest, rfl, rfl, rfl⟩
  · have hmem : w.p ∈ (last k₀ run).waits.units.queue (id, i) := List.mem_map_of_mem hw
    obtain ⟨n, hn⟩ := (hledger.waits.consistent.mem_iff _ _).mp hmem
    obtain ⟨id', b, rest, hcall, hstate, -⟩ := Waits.phase_eq_queued_iff.mp hn
    refine hledger.waits.in_use ?_
    have hsome : (last k₀ run).semCall w.p = some (id', b :: rest) := hcall
    simp [hsome]

/-- A child waits for a unit and is killed: it goes on without the unit, and ends
while it stands in the queue. -/
theorem kill_passes_without_unit :
    ∃ k₀ before run, smallBoot smallLayout = .ok k₀ ∧ IsRun (Step smallLayout) k₀ before ∧
      Idle (last k₀ before) ∧ IsRun (UnitStep smallLayout) (last k₀ before) run ∧
      replay (semLog (last k₀ before) run) (fun _ => none) = none ∧
      ∃ w ∈ ((last (last k₀ before) run).sem 0 0).queue,
        ((last (last k₀ before) run).vm.proc w.p).state = .ZOMBIE := by
  obtain ⟨k₀, before, run, hk₀, hbefore, hops, hrun, hsched, hreplay, w, hw, hzombie⟩ :=
    boot_run_after (L := smallLayout) [.semget 0 0 1 0x8fff, .fork 0]
    [.semop 1 0 [⟨0, -1, 0⟩] [], .kill 0 1, .resume 1 [.pass 1 0 1], .exit 1]
    (fun k run => Along (fun (_ : Kernel) (op : Op) => op.schedules = true) k run ∧
      (replay (semLog k run) (fun _ => none)).isNone ∧
      ∃ w ∈ ((last k run).sem 0 0).queue, ((last k run).vm.proc w.p).state = .ZOMBIE)
    (by decide +kernel)
  exact ⟨k₀, before, run, hk₀, hbefore,
    ((smallBoot_fresh hk₀).prepared hbefore (by rw [hops]; decide)).idle, hrun.and_along hsched,
    Option.isNone_iff_eq_none.mp hreplay, w, hw, hzombie⟩

/-- A child waits for a unit, the parent puts one back, and the child goes on. -/
theorem signal_serves_waiter :
    ∃ k₀ run, Idle k₀ ∧ ValuesInt k₀ ∧ IsRun (UnitStep smallLayout) k₀ run ∧
      Along KeepsUnits k₀ run ∧
      semLog k₀ run = [.give 0 (0, 0) 1, .grant 1 (0, 0) 1, .pass 1 (0, 0) 1] ∧
      ((last k₀ run).sem 0 0).value + granted (0, 0) (semLog k₀ run) =
        (k₀.sem 0 0).value + released (0, 0) (semLog k₀ run) := by
  obtain ⟨k₀, before, run, hk₀, hbefore, hops, hrun, hsched, hok, hlog⟩ := boot_run_after
    (L := smallLayout) [.semget 0 0 1 0x8fff, .fork 0]
    [.semop 1 0 [⟨0, -1, 0⟩] [], .semop 0 0 [⟨0, 1, 0⟩] [.give 0 0 1, .grant 1 0 1],
      .resume 1 [.pass 1 0 1]]
    (fun k run => Along (fun (_ : Kernel) (op : Op) => op.schedules = true) k run ∧
      Along KeepsUnits k run ∧
      semLog k run = [.give 0 (0, 0) 1, .grant 1 (0, 0) 1, .pass 1 (0, 0) 1])
    (by decide +kernel)
  have hfresh := (smallBoot_fresh hk₀).prepared hbefore (by rw [hops]; decide)
  have hint : ValuesInt (last k₀ before) := fun id i => by
    rw [hfresh.sem]
    decide
  have hsteps : IsRun (UnitStep smallLayout) (last k₀ before) run := hrun.and_along hsched
  exact ⟨_, run, hfresh.idle, hint, hsteps, hok, hlog,
    (units_conserved hfresh.idle hint hsteps hok).1 0 0⟩

end LearnOS.Ipc
