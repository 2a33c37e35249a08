import LearnOS.Sched.Dispatch

/-!
# Fairness of the round-robin pass

Under `SCHED_RR` the pass over the process table visits the slots in order, and
between two visits of one slot it comes to every other slot once. The pass over the
queues that follows it may serve a process a second time.
-/

namespace LearnOS.Sched

open LearnOS LinkedList Transition Kres

variable {p q : Fin NPROC} {c c' : Cpu} {e : CpuEvent}

/-- The process may run: it is runnable, or it has the CPU. -/
def Cpu.Ready (c : Cpu) (q : Fin NPROC) : Prop :=
  (c.s.proc q).state = .RUNNABLE ∨ c.pos.running = some q

/-- A part of a run between two consecutive dispatches of a process. -/
structure Lap (run : List (CpuEvent × Cpu)) (p : Fin NPROC) (c₁ : Cpu)
    (mid : List (CpuEvent × Cpu)) : Prop where
  within : ∃ before after c₂, run = before ++ (.scan, c₁) :: (mid ++ (.scan, c₂) :: after) ∧
    c₂.pos.running = some p
  first : c₁.pos.running = some p
  consecutive : ∀ x ∈ mid, dispatched x ≠ some p

/-- Between two dispatches of `p`, a process that may run throughout is dispatched
once. -/
def FairTo (run : List (CpuEvent × Cpu)) (p q : Fin NPROC) : Prop :=
  ∀ c₁ mid, Lap run p c₁ mid → (∀ c ∈ visited c₁ mid, c.Ready q) →
    (mid.filterMap dispatched).count q = 1

/-- The node that the pass over the queues is about to visit. -/
def Pos.visits : Pos → ℕ
  | .mlfq _ node => node
  | _ => NULL

/-- The process of a node that was left in a queue cannot run when the pass over the
queues comes to it. -/
def LeftoversIdle (c : Cpu) (e : CpuEvent) : Prop :=
  e = .scan → c.pos.visits ≠ NULL → (c.s.proc (c.s.owner c.pos.visits)).state ≠ .RUNNABLE

instance (c : Cpu) (e : CpuEvent) : Decidable (LeftoversIdle c e) :=
  inferInstanceAs (Decidable (_ → _ → _))

/-! ## The order of the table -/

/-- How often `q` is still to be dispatched before `p` is, when the pass comes to the
slot `i`. -/
def dueAt (p q : Fin NPROC) (i : ℕ) : ℕ :=
  if i ≤ p then if i ≤ q ∧ q < p then 1 else 0
  else (if i ≤ (q : ℕ) then 1 else 0) + if q < p then 1 else 0

/-- The same from where `scheduler` stands. -/
def due (p q : Fin NPROC) : Pos → ℕ
  | .rr i => dueAt p q i
  | .rrRun i => dueAt p q (i + 1)
  | .top | .mlfq .. | .mlfqRun .. => dueAt p q 0

theorem dueAt_wrap {i : ℕ} (hi : NPROC ≤ i) : dueAt p q i = dueAt p q 0 := by
  have hp := p.isLt
  have hq := q.isLt
  have hpi : ¬ i ≤ (p : ℕ) := by omega
  have hqi : ¬ i ≤ (q : ℕ) := by omega
  simp [dueAt, hpi, hqi]

/-- The pass comes to a slot of another process. -/
theorem dueAt_succ {i : ℕ} (hip : i ≠ p) (hpq : p ≠ q) :
    dueAt p q i = (if i = q then 1 else 0) + dueAt p q (i + 1) := by
  have hne : (p : ℕ) ≠ q := fun heq => hpq (Fin.ext heq)
  simp only [dueAt, Fin.lt_def]
  split_ifs <;> omega

theorem due_resume (pos : Pos) : due p q pos.resume = due p q pos := by
  cases pos <;> rfl

theorem Cpu.Ready.runnable (h : c.Ready q) (hrun : c.pos.running = none) :
    (c.s.proc q).state = .RUNNABLE := by
  rcases h with h | h
  · exact h
  · rw [hrun] at h
    cases h

theorem due_scan (hm : c.s.method = .SCHED_RR) (hp : c.Ready p) (hq : c.Ready q)
    (hok : LeftoversIdle c .scan) (hpq : p ≠ q) (hstep : c.scan = .ok c')
    (hnot : c'.pos.running ≠ some p) :
    due p q c.pos = (if c'.pos.running = some q then 1 else 0) + due p q c'.pos := by
  cases hc : c.pos with
  | top =>
    simp only [Cpu.scan, hc, hm, Except.ok.injEq] at hstep
    subst hstep
    simp [due, Pos.running]
  | rr i =>
    have hidle : c.pos.running = none := by rw [hc]; rfl
    simp only [Cpu.scan, hc] at hstep
    split at hstep
    · rename_i hi
      split at hstep
      · cases hstep
        have hip : i ≠ p := fun heq => hnot (congrArg some (Fin.ext heq))
        simp only [due, Pos.running, Option.some.injEq, Fin.ext_iff]
        exact dueAt_succ hip hpq
      · rename_i hrun
        cases hstep
        have hip : i ≠ p := fun heq => hrun (by simp [heq, hp.runnable hidle])
        have hiq : i ≠ q := fun heq => hrun (by simp [heq, hq.runnable hidle])
        have hsucc := dueAt_succ hip hpq
        rw [if_neg hiq] at hsucc
        simpa [due, Pos.running] using hsucc
    · rename_i hi
      cases hstep
      simpa [due, Cpu.mlfqPass, Pos.running] using dueAt_wrap (not_lt.mp hi)
  | mlfq i node =>
    rcases Cpu.scan_mlfq hc hstep with ⟨-, rfl⟩ | ⟨hnull, hrun, -⟩ | ⟨-, -, rfl⟩
    · simp only [Cpu.afterQueue]
      split <;> simp [due, Pos.running]
    · rw [LeftoversIdle, hc] at hok
      exact absurd hrun (hok rfl hnull)
    · simp [due, Pos.running]
  | _ =>
    simp only [Cpu.scan, hc] at hstep
    cases hstep

theorem settle_pos_due (r : Fin NPROC) (s : SchedState) (c : Cpu) :
    due p q (c.settle r s).pos = due p q c.pos := by
  simp only [Cpu.settle]
  split
  · rfl
  · exact due_resume _

/-- Every step counts down the dispatches that are due. -/
theorem due_step (hm : c.s.method = .SCHED_RR) (hp : c.Ready p) (hq : c.Ready q)
    (hok : LeftoversIdle c e) (hpq : p ≠ q) (hstep : CpuStep c e c')
    (hnot : dispatched (e, c') ≠ some p) :
    due p q c.pos = (if dispatched (e, c') = some q then 1 else 0) + due p q c'.pos := by
  cases e with
  | scan => exact due_scan hm hp hq hok hpq hstep hnot
  | call op =>
    obtain ⟨s', -, -, rfl⟩ := Cpu.call_ok hstep
    simp [dispatched, settle_pos_due]
  | sleep chan =>
    obtain ⟨r, -, -, hpos⟩ := Cpu.sleep_ok hstep
    simp [dispatched, hpos, due_resume]
  | wake chan =>
    cases hstep
    simp [dispatched, Cpu.wake]

theorem count_dispatched_cons (x : CpuEvent × Cpu) (mid : List (CpuEvent × Cpu)) :
    ((x :: mid).filterMap dispatched).count q =
      (if dispatched x = some q then 1 else 0) + (mid.filterMap dispatched).count q := by
  rw [List.filterMap_cons]
  cases hx : dispatched x with
  | none => simp
  | some r =>
    simp only [List.count_cons, Option.some.injEq, beq_iff_eq]
    omega

/-- Up to the next dispatch of `p`, the dispatches of `q` are those that are due. -/
theorem count_of_run {mid : List (CpuEvent × Cpu)} (hrun : IsRun CpuStep c mid)
    (hm : ∀ d ∈ visited c mid, d.s.method = .SCHED_RR) (hok : Along LeftoversIdle c mid)
    (hp : ∀ d ∈ visited c mid, d.Ready p) (hq : ∀ d ∈ visited c mid, d.Ready q) (hpq : p ≠ q)
    (hnot : ∀ x ∈ mid, dispatched x ≠ some p) :
    due p q c.pos = (mid.filterMap dispatched).count q + due p q (last c mid).pos := by
  induction mid generalizing c with
  | nil => simp [Transition.last]
  | cons x mid ih =>
    obtain ⟨e, d⟩ := x
    have hmem : c ∈ visited c ((e, d) :: mid) := by simp [visited]
    have hrest : ∀ t ∈ visited d mid, t ∈ visited c ((e, d) :: mid) :=
      fun t ht => mem_visited_cons.mpr (Or.inr ht)
    have hstep := due_step (hm c hmem) (hp c hmem) (hq c hmem) hok.1 hpq hrun.1
      (hnot _ List.mem_cons_self)
    have hmid := ih hrun.2 (fun t ht => hm t (hrest t ht)) hok.2 (fun t ht => hp t (hrest t ht))
      (fun t ht => hq t (hrest t ht)) fun x hx => hnot x (List.mem_cons_of_mem _ hx)
    rw [count_dispatched_cons, Transition.last]
    omega

/-- A process is dispatched from its slot of the table only. -/
theorem dispatch_pos (hok : LeftoversIdle c .scan) (hstep : c.scan = .ok c')
    (hrun : c'.pos.running = some p) : c.pos = .rr p ∧ c'.pos = .rrRun p := by
  cases hc : c.pos with
  | top =>
    simp only [Cpu.scan, hc] at hstep
    split at hstep
    · cases hstep
    · cases hstep
      cases hrun
    · cases hstep
      cases hrun
  | rr i =>
    simp only [Cpu.scan, hc] at hstep
    split at hstep
    · split at hstep
      · cases hstep
        obtain rfl := Option.some.inj hrun
        exact ⟨rfl, rfl⟩
      · cases hstep
        cases hrun
    · cases hstep
      cases hrun
  | mlfq i node =>
    rcases Cpu.scan_mlfq hc hstep with ⟨-, rfl⟩ | ⟨hnull, hrunnable, -⟩ | ⟨-, -, rfl⟩
    · simp only [Cpu.afterQueue] at hrun
      split at hrun <;> cases hrun
    · rw [LeftoversIdle, hc] at hok
      exact absurd hrunnable (hok rfl hnull)
    · cases hrun
  | _ =>
    simp only [Cpu.scan, hc] at hstep
    cases hstep

/-! ## Runs -/

/-- While the policy is round robin and nobody is served from a queue that was left
behind, the processes that can run all the time are dispatched in turn. -/
theorem round_robin_fair {run : List (CpuEvent × Cpu)} (hrun : IsRun CpuStep c run)
    (hm : ∀ d ∈ visited c run, d.s.method = .SCHED_RR) (hok : Along LeftoversIdle c run)
    (hpq : p ≠ q) {c₁ : Cpu} {mid : List (CpuEvent × Cpu)} (hlap : Lap run p c₁ mid)
    (hp : ∀ d ∈ visited c₁ mid, d.Ready p) (hq : ∀ d ∈ visited c₁ mid, d.Ready q) :
    (mid.filterMap dispatched).count q = 1 := by
  obtain ⟨before, after, c₂, rfl, hc₂⟩ := hlap.within
  obtain ⟨-, hfirst, hrest⟩ := isRun_append.mp hrun
  obtain ⟨-, hok₁, hokrest⟩ := along_append.mp hok
  obtain ⟨hmid, hsecond, -⟩ := isRun_append.mp hrest
  obtain ⟨hokmid, hok₂, -⟩ := along_append.mp hokrest
  have hpos₁ := (dispatch_pos hok₁ hfirst hlap.first).2
  have hpos₂ := (dispatch_pos hok₂ hsecond hc₂).1
  have hmethod : ∀ d ∈ visited c₁ mid, d.s.method = .SCHED_RR := by
    intro d hd
    refine hm d ?_
    rcases List.mem_cons.mp hd with rfl | hd
    · simp [visited]
    · obtain ⟨x, hx, rfl⟩ := List.mem_map.mp hd
      refine List.mem_cons_of_mem _ (List.mem_map_of_mem ?_)
      simp [hx]
  have hcount := count_of_run hmid hmethod hokmid hp hq hpq hlap.consecutive
  have hne : (p : ℕ) ≠ q := fun heq => hpq (Fin.ext heq)
  rw [hpos₁, hpos₂] at hcount
  simp only [due, dueAt, Fin.lt_def] at hcount
  split_ifs at hcount <;> omega

/-! ## Two runs -/

instance (c : Cpu) (q : Fin NPROC) : Decidable (c.Ready q) := inferInstanceAs (Decidable (_ ∨ _))

/-- Two processes may run between two dispatches of the first, and the second is
dispatched `n` times. -/
def HasLap (run : List (CpuEvent × Cpu)) (p q : Fin NPROC) (n : ℕ) : Prop :=
  ∃ c₁ mid, Lap run p c₁ mid ∧ (∀ d ∈ visited c₁ mid, d.Ready p) ∧
    (∀ d ∈ visited c₁ mid, d.Ready q) ∧ (mid.filterMap dispatched).count q = n

/-- A lap from the step `k` on, of `m` steps. -/
def lapTest (p q : Fin NPROC) (n k m : ℕ) (run : List (CpuEvent × Cpu)) : Bool :=
  match run.drop k with
  | [] => false
  | (e₁, c₁) :: rest =>
    match rest.drop m with
    | [] => false
    | (e₂, c₂) :: _ =>
      decide (e₁ = .scan ∧ e₂ = .scan ∧ c₁.pos.running = some p ∧ c₂.pos.running = some p ∧
        (∀ x ∈ rest.take m, dispatched x ≠ some p) ∧
        (∀ d ∈ visited c₁ (rest.take m), d.Ready p ∧ d.Ready q) ∧
        ((rest.take m).filterMap dispatched).count q = n)

theorem hasLap_of_test {n k m : ℕ} {run : List (CpuEvent × Cpu)}
    (h : lapTest p q n k m run = true) : HasLap run p q n := by
  simp only [lapTest] at h
  split at h
  · cases h
  rename_i e₁ c₁ rest hk
  split at h
  · cases h
  rename_i e₂ c₂ after hm
  rw [decide_eq_true_eq] at h
  obtain ⟨rfl, rfl, hc₁, hc₂, hnot, hready, hcount⟩ := h
  refine ⟨c₁, rest.take m, ⟨⟨run.take k, after, c₂, ?_, hc₂⟩, hc₁, hnot⟩,
    fun d hd => (hready d hd).1, fun d hd => (hready d hd).2, hcount⟩
  rw [← hm, List.take_append_drop, ← hk, List.take_append_drop]

/-- Events executed after `userinit` lead to a state from which more of them make a
run with a property. -/
theorem bootCpu_phase (a : ℕ) (es es' : List CpuEvent) (P : Cpu → List (CpuEvent × Cpu) → Prop)
    (h : (userinit a initSched).Yields fun s =>
      Kres.Yields (execAll execCpu es (bootCpu s)) fun run =>
        Kres.Yields (execAll execCpu es' (last (bootCpu s) run)) (P (last (bootCpu s) run))) :
    ∃ s run run', userinit a initSched = .ok s ∧ IsRun CpuStep (bootCpu s) run ∧
      run.map Prod.fst = es ∧ IsRun CpuStep (last (bootCpu s) run) run' ∧ run'.map Prod.fst = es' ∧
      P (last (bootCpu s) run) run' := by
  obtain ⟨s, hs, run, hrun, run', hrun', htest⟩ := h
  obtain ⟨hrun, hes⟩ := execAll_isRun (fun s a t (h : CpuStep s a t) => h) hrun
  obtain ⟨hrun', hes'⟩ := execAll_isRun (fun s a t (h : CpuStep s a t) => h) hrun'
  exact ⟨s, run, run', hs, hrun, hes, hrun', hes', htest⟩

/-- The first process changes the policy, forks twice and sleeps. -/
def sleepingFirst : List CpuEvent :=
  [.scan, .scan, .call (.chrt 0 1), .call (.fork 0 32 true), .call (.fork 0 48 true), .sleep 5]

/-- One pass over the table, which serves the two children, the pass over the queues,
and the next pass. -/
def fairEvents : List CpuEvent :=
  List.replicate 7 .scan ++ [.call (.yield 1 64), .scan, .call (.yield 2 64)] ++
    List.replicate 70 .scan

theorem round_robin_fair_children :
    ∃ s run run', userinit 16 initSched = .ok s ∧ IsRun CpuStep (bootCpu s) run ∧
      run.map Prod.fst = sleepingFirst ∧ IsRun CpuStep (last (bootCpu s) run) run' ∧
      run'.map Prod.fst = fairEvents ∧
      (∀ d ∈ visited (last (bootCpu s) run) run', d.s.method = .SCHED_RR) ∧
      Along LeftoversIdle (last (bootCpu s) run) run' ∧
      ∃ c₁ mid, Lap run' 1 c₁ mid ∧ (mid.filterMap dispatched).count 2 = 1 := by
  obtain ⟨s, run, run', hs, hrun, hes, hrun', hes', hm, hok, hlap⟩ := bootCpu_phase 16
    sleepingFirst fairEvents (fun c run => (∀ d ∈ visited c run, d.s.method = .SCHED_RR) ∧
      Along LeftoversIdle c run ∧ lapTest 1 2 1 6 72 run = true) (by decide +kernel)
  obtain ⟨c₁, mid, hlap, hp, hq, -⟩ := hasLap_of_test hlap
  exact ⟨s, run, run', hs, hrun, hes, hrun', hes', hm, hok, c₁, mid, hlap,
    round_robin_fair hrun' hm hok (by decide) hlap hp hq⟩

/-- The first process, whose node has been left in a queue, forks under the new policy
and goes on. -/
def leftoverFirst : List CpuEvent :=
  [.scan, .scan, .call (.chrt 0 1), .call (.fork 0 32 true), .call (.yield 0 48)]

/-- The first process is served at the end of the pass over the queues and again at the
beginning of the next pass over the table. -/
def unfairEvents : List CpuEvent :=
  List.replicate 6 .scan ++ [.call (.yield 0 48), .scan, .call (.yield 1 48)] ++
    List.replicate 64 .scan ++ [.call (.yield 0 48)] ++ List.replicate 6 .scan

theorem leftover_served_twice :
    ∃ s run run', userinit 16 initSched = .ok s ∧ IsRun CpuStep (bootCpu s) run ∧
      run.map Prod.fst = leftoverFirst ∧ IsRun CpuStep (last (bootCpu s) run) run' ∧
      run'.map Prod.fst = unfairEvents ∧
      (∀ d ∈ visited (last (bootCpu s) run) run', d.s.method = .SCHED_RR) ∧
      HasLap run' 0 1 0 ∧ ¬ FairTo run' 0 1 := by
  obtain ⟨s, run, run', hs, hrun, hes, hrun', hes', hm, hlap⟩ := bootCpu_phase 16 leftoverFirst
    unfairEvents (fun c run => (∀ d ∈ visited c run, d.s.method = .SCHED_RR) ∧
      lapTest 0 1 0 72 6 run = true) (by decide +kernel)
  have hlap := hasLap_of_test hlap
  refine ⟨s, run, run', hs, hrun, hes, hrun', hes', hm, hlap, fun hfair => ?_⟩
  obtain ⟨c₁, mid, hlap, -, hq, hzero⟩ := hlap
  have hone := hfair c₁ mid hlap hq
  omega

end LearnOS.Sched
