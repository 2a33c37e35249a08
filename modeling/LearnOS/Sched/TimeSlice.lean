import LearnOS.Sched.Placement

/-!
# Time slices

A timer tick takes one from the counter of the running process and calls `yield`
when nothing is left. The test is for zero, so a counter that is ever below one
would never reach it again.
-/

namespace LearnOS.Sched

open LearnOS LinkedList Transition Function Kres

variable {s s' : SchedState} {ls : Fin NMLFQ → List ℕ} {p : Fin NPROC} {a : ℕ}
  {out : Fin NPROC → Prop}

/-- The end of `usertrap` and of `kerneltrap` for a timer interrupt. -/
def timerTick (p : Fin NPROC) (a : ℕ) (s : SchedState) : Kres SchedState :=
  let s := s.setProc p { s.proc p with runtime := (s.proc p).runtime - 1 }
  if (s.proc p).runtime = 0 then yield p a s else .ok s

/-- A timer interrupt while a process runs, or a call. -/
inductive SliceOp where
  | tick (p : Fin NPROC) (a : ℕ)
  | call (op : SchedOp)

/-- A tick of a process that may run, or a call. -/
inductive SliceStep : SchedState → SliceOp → SchedState → Prop
  | tick {s s' : SchedState} {p : Fin NPROC} {a : ℕ}
      (hrun : (s.proc p).state = .RUNNABLE ∨ (s.proc p).state = .RUNNING)
      (hcall : timerTick p a s = .ok s') : SliceStep s (.tick p a) s'
  | call {s s' : SchedState} {op : SchedOp} (hstep : SchedStep s op s') :
      SliceStep s (.call op) s'

/-- Ticks, `yield`, `fork`, `set_priority` within the queues, and `chrt` other than
to `SCHED_FCFS`. -/
def SliceOp.Admissible : SliceOp → Prop
  | .tick .. | .call (.yield ..) | .call (.fork ..) => True
  | .call (.setPriority _ _ priority _) => priority ≤ maxPriority
  | .call (.chrt _ type) => type ≠ 0
  | .call _ => False

/-- The counters of all processes in use are at least one, and those of the queued
processes at most the slice of their level. -/
structure SlicesBounded (s : SchedState) (ls : Fin NMLFQ → List ℕ) : Prop where
  linked : ∀ i, Seg NULL s.next (s.queue i).head (ls i) NULL
  positive : ∀ p, (s.proc p).state ≠ .UNUSED → 1 ≤ (s.proc p).runtime
  queued : ∀ i, ∀ a ∈ ls i, 1 ≤ (s.proc (s.owner a)).runtime ∧
    (s.proc (s.owner a)).runtime ≤ queueRuntime (s.proc (s.owner a)).mlqlevel

/-! ## The invariant -/

/-- The queues are well formed and the counters within their slices. -/
structure Sliced (s : SchedState) (ls : Fin NMLFQ → List ℕ) (out : Fin NPROC → Prop) : Prop where
  queued : Queued s ls out
  method : s.method ≠ .SCHED_FCFS
  unused : ∀ q, (s.proc q).state = .UNUSED → out q
  priority : ∀ q, (s.proc q).state ≠ .UNUSED → (s.proc q).priority ≤ maxPriority
  positive : ∀ q, (s.proc q).state ≠ .UNUSED → 1 ≤ (s.proc q).runtime
  bounded : ∀ q, ¬ out q → (s.proc q).runtime ≤ queueRuntime (s.proc q).mlqlevel

theorem one_le_queueRuntime (i : Fin NMLFQ) : 1 ≤ queueRuntime i := by
  simp [queueRuntime]

theorem Sliced.slicesBounded (h : Sliced s ls out) : SlicesBounded s ls where
  linked := h.queued.queues.linked
  positive := h.positive
  queued i a ha := by
    have hin := (h.queued.level i a ha).1
    exact ⟨h.positive _ fun hunused => hin (h.unused _ hunused), h.bounded _ hin⟩

/-- One process is changed and its counter stays within bounds. -/
theorem Sliced.setProc (h : Sliced s ls out) {t : Task}
    (hstate : t.state = .UNUSED → (s.proc p).state = .UNUSED)
    (hlevel : t.mlqlevel = (s.proc p).mlqlevel)
    (hprio : t.state ≠ .UNUSED → t.priority ≤ maxPriority)
    (hpos : t.state ≠ .UNUSED → 1 ≤ t.runtime) (hle : t.runtime ≤ (s.proc p).runtime) :
    Sliced (s.setProc p t) ls out := by
  have hself : (s.setProc p t).proc p = t := update_self ..
  have hother : ∀ q, q ≠ p → (s.setProc p t).proc q = s.proc q :=
    fun q hq => update_of_ne hq ..
  refine ⟨h.queued.congr rfl rfl rfl (fun _ => Iff.rfl) fun q _ => ?_, h.method, fun q hq => ?_,
    fun q hq => ?_, fun q hq => ?_, fun q hq => ?_⟩
  all_goals by_cases hqp : q = p
  · rw [hqp, hself, hlevel]
  · rw [hother q hqp]
  · rw [hqp, hself] at hq
    exact hqp ▸ h.unused p (hstate hq)
  · rw [hother q hqp] at hq
    exact h.unused q hq
  · rw [hqp, hself] at hq ⊢
    exact hprio hq
  · rw [hother q hqp] at hq ⊢
    exact h.priority q hq
  · rw [hqp, hself] at hq ⊢
    exact hpos hq
  · rw [hother q hqp] at hq ⊢
    exact h.positive q hq
  · rw [hqp] at hq
    rw [hqp, hself, hlevel]
    exact hle.trans (h.bounded p hq)
  · rw [hother q hqp]
    exact h.bounded q hq

/-- A process has been moved to a level, whose slice it starts anew. -/
theorem Moved.sliced {q : Fin NPROC} {t : Task} {i : Option (Fin NMLFQ)}
    (h : Moved q t a i s s' ls out) (hmethod : s.method ≠ .SCHED_FCFS)
    (hstate : t.state ≠ .UNUSED) (hprio : t.priority ≤ maxPriority)
    (hpos : i = none → 1 ≤ t.runtime)
    (hother : ∀ r, r ≠ q → (((s.proc r).state = .UNUSED → out r) ∧
      ((s.proc r).state ≠ .UNUSED → (s.proc r).priority ≤ maxPriority ∧ 1 ≤ (s.proc r).runtime) ∧
      (¬ out r → (s.proc r).runtime ≤ queueRuntime (s.proc r).mlqlevel))) :
    ∃ ls' out', Sliced s' ls' out' := by
  have hself : s'.proc q = t.atLevel i := by
    rw [h.proc]
    exact update_self ..
  have hsame : ∀ r, r ≠ q → s'.proc r = s.proc r := by
    intro r hr
    rw [h.proc]
    exact update_of_ne hr ..
  refine ⟨_, _, h.queued, by rw [h.method]; exact hmethod, fun r hr => ?_, fun r hr => ?_,
    fun r hr => ?_, fun r hr => ?_⟩
  all_goals by_cases hrq : r = q
  · rw [hrq, hself, Task.atLevel_state] at hr
    exact absurd hr hstate
  · rw [hsame r hrq] at hr
    exact ⟨Or.inl ((hother r hrq).1 hr), fun heq => absurd heq hrq⟩
  · rw [hrq, hself, Task.atLevel_priority]
    exact hprio
  · rw [hsame r hrq] at hr ⊢
    exact ((hother r hrq).2.1 hr).1
  · rw [hrq, hself]
    cases i with
    | none => exact hpos rfl
    | some l => exact one_le_queueRuntime l
  · rw [hsame r hrq] at hr ⊢
    exact ((hother r hrq).2.1 hr).2
  · rw [hrq, hself]
    cases i with
    | none => exact absurd ⟨Or.inr hrq, fun _ => rfl⟩ hr
    | some l => exact le_rfl
  · rw [hsame r hrq]
    exact (hother r hrq).2.2 fun hout => hr ⟨Or.inl hout, fun heq => absurd heq hrq⟩

theorem Sliced.others (h : Sliced s ls out) (r : Fin NPROC) :
    ((s.proc r).state = .UNUSED → out r) ∧
      ((s.proc r).state ≠ .UNUSED → (s.proc r).priority ≤ maxPriority ∧ 1 ≤ (s.proc r).runtime) ∧
      (¬ out r → (s.proc r).runtime ≤ queueRuntime (s.proc r).mlqlevel) :=
  ⟨h.unused r, fun hr => ⟨h.priority r hr, h.positive r hr⟩, h.bounded r⟩

/-- `yield` resets the counter, whatever a tick has left of it. -/
theorem Sliced.yield (h : Sliced s ls out) (hp : (s.proc p).state ≠ .UNUSED) (r : ℤ)
    (hcall : yield p a (s.setProc p { s.proc p with runtime := r }) = .ok s') :
    ∃ ls' out', Sliced s' ls' out' := by
  set s₁ := s.setProc p { s.proc p with runtime := r } with hs₁
  have hself : s₁.proc p = { s.proc p with runtime := r } := update_self ..
  have hother : ∀ q, q ≠ p → s₁.proc q = s.proc q := fun q hq => update_of_ne hq ..
  have hq₁ : Queued s₁ ls out := by
    refine h.queued.congr rfl rfl rfl (fun _ => Iff.rfl) fun q _ => ?_
    by_cases hq : q = p
    · rw [hq, hself]
    · rw [hother q hq]
  cases hm : s.method with
  | SCHED_FCFS => exact absurd hm h.method
  | SCHED_RR =>
    have hm₁ : (s₁.setProc p { s₁.proc p with state := .RUNNABLE }).method = .SCHED_RR := hm
    simp only [Sched.yield, hm₁, Except.ok.injEq] at hcall
    subst hcall
    refine ⟨ls, out, ?_⟩
    have hset := h.setProc (p := p) (t := { s.proc p with state := .RUNNABLE, runtime := 1 })
      (by simp) rfl (fun _ => h.priority p hp) (fun _ => le_rfl) (h.positive p hp)
    have heq : (s₁.setProc p { s₁.proc p with state := .RUNNABLE }).setProc p
        { (s₁.setProc p { s₁.proc p with state := .RUNNABLE }).proc p with runtime := 1 } =
        s.setProc p { s.proc p with state := .RUNNABLE, runtime := 1 } := by
      simp [hs₁, SchedState.setProc]
    rw [heq]
    exact hset
  | SCHED_MLFQ =>
    have hmoved := yield_moved hq₁ (show s₁.method = .SCHED_MLFQ from hm) hcall
    refine hmoved.sliced (by simp [hs₁, SchedState.setProc, hm]) (by simp) ?_ (by simp) ?_
    · rw [hself]
      exact h.priority p hp
    · intro q hq
      rw [hother q hq]
      exact h.others q

theorem Sliced.timerTick (h : Sliced s ls out) (hp : (s.proc p).state ≠ .UNUSED)
    (hcall : timerTick p a s = .ok s') : ∃ ls' out', Sliced s' ls' out' := by
  simp only [Sched.timerTick] at hcall
  have hself : (s.setProc p { s.proc p with runtime := (s.proc p).runtime - 1 }).proc p =
      { s.proc p with runtime := (s.proc p).runtime - 1 } := update_self ..
  rw [hself] at hcall
  split at hcall
  · exact h.yield hp _ hcall
  · rename_i hzero
    cases hcall
    have hpos := h.positive p hp
    simp only at hzero
    refine ⟨ls, out, h.setProc id rfl (fun _ => h.priority p hp) (fun _ => ?_) ?_⟩
    · simp only
      omega
    · simp only
      omega

theorem Sliced.fork {memory : Bool} (h : Sliced s ls out) (hp : (s.proc p).state ≠ .UNUSED)
    (hcall : fork p a memory s = .ok s') : ∃ ls' out', Sliced s' ls' out' := by
  simp only [Sched.fork, bind_eq_ok, pure_eq_ok] at hcall
  obtain ⟨⟨r, s₁⟩, hfork, rfl⟩ := hcall
  rcases forkWith_placed h.queued h.unused hp hfork with
    ⟨-, hs, hsame⟩ | ⟨np, -, hnp, hmoved⟩
  · refine ⟨ls, out, hs.queued h.queued, by rw [hs.method]; exact h.method,
      fun q hq => h.unused q (hs.unused q hq), fun q hq => ?_, fun q hq => ?_, fun q hq => ?_⟩
    · rw [hsame q hq]
      exact h.priority q fun hfree => hq (hs.free q hfree)
    · rw [hsame q hq]
      exact h.positive q fun hfree => hq (hs.free q hfree)
    · rw [hsame q fun hfree => hq (h.unused q (hs.unused q hfree))]
      exact h.bounded q hq
  · have hne : p ≠ np := fun heq => hp (heq ▸ hnp)
    refine hmoved.sliced h.method (by simp [newTask, childTask]) ?_ (fun _ => ?_)
      fun q _ => h.others q
    · rw [newTask_priority hne]
      exact h.priority p hp
    · simp [newTask, childTask, allocTask, SchedState.setProc]

theorem Sliced.setPriority {pid priority r : ℤ} (h : Sliced s ls out)
    (hprio : priority ≤ maxPriority) (hcall : setPriority pid priority a s = .ok (r, s')) :
    ∃ ls' out', Sliced s' ls' out' := by
  cases hm : s.method with
  | SCHED_FCFS => exact absurd hm h.method
  | SCHED_RR =>
    simp only [Sched.setPriority, hm] at hcall
    split at hcall
    · cases hcall
      exact ⟨ls, out, h⟩
    · rename_i q hfirst
      cases hcall
      exact ⟨ls, out, h.setProc id rfl (fun _ => hprio) (h.positive q) le_rfl⟩
  | SCHED_MLFQ =>
    rcases setPriority_moved h.queued hm hcall with ⟨-, rfl⟩ | ⟨q, -, hin, hmoved⟩
    · exact ⟨ls, out, h⟩
    · have hlive : (s.proc q).state ≠ .UNUSED := fun hunused => hin (h.unused q hunused)
      exact hmoved.sliced h.method hlive hprio (fun _ => h.positive q hlive)
        fun r _ => h.others r

theorem Sliced.chrt (h : Sliced s ls out) {type : ℤ} (htype : type ≠ 0) :
    Sliced (chrt type s) ls out := by
  have hsame : ∀ m, m ≠ .SCHED_FCFS → Sliced { s with method := m } ls out := fun m hm =>
    ⟨h.queued.congr rfl rfl rfl (fun _ => Iff.rfl) fun _ _ => rfl, hm, h.unused, h.priority,
      h.positive, h.bounded⟩
  simp only [Sched.chrt, if_neg htype]
  split
  · exact hsame _ (by simp)
  · split
    · exact hsame _ (by simp)
    · exact h

/-! ## Runs -/

theorem sliced_step {op : SliceOp} (h : ∃ ls out, Sliced s ls out) (hok : op.Admissible)
    (hstep : SliceStep s op s') : ∃ ls out, Sliced s' ls out := by
  obtain ⟨ls, out, h⟩ := h
  cases hstep with
  | tick hrun hcall =>
    refine h.timerTick (fun hunused => ?_) hcall
    rw [hunused] at hrun
    simp at hrun
  | @call _ op hstep =>
    obtain ⟨hready, hcall⟩ := hstep
    have hlive := SchedOp.live_of_ready hready
    cases op with
    | fork p a memory => exact h.fork hlive hcall
    | yield p a =>
      refine h.yield (p := p) (a := a) hlive (s.proc p).runtime ?_
      rw [show s.setProc p { s.proc p with runtime := (s.proc p).runtime } = s by
        simp [SchedState.setProc]]
      exact hcall
    | setPriority p pid priority a =>
      simp only [execOp, bind_eq_ok, pure_eq_ok] at hcall
      obtain ⟨⟨r, s₁⟩, hset, rfl⟩ := hcall
      exact h.setPriority hok hset
    | chrt p type =>
      cases hcall
      exact ⟨ls, out, h.chrt hok⟩
    | _ => exact absurd hok id

theorem userinit_sliced (h : userinit a initSched = .ok s) : ∃ ls out, Sliced s ls out := by
  have hplaced := userinit_placed h
  have hself : s.proc 0 = (beforeInsert.proc 0).atLevel (some 0) := by
    rw [hplaced.proc]
    exact update_self ..
  have hother : ∀ q, q ≠ 0 → s.proc q = beforeInsert.proc q := by
    intro q hq
    rw [hplaced.proc]
    exact update_of_ne hq ..
  have hunused : ∀ q, (s.proc q).state ≠ .UNUSED → q = 0 := by
    intro q hlive
    by_contra hq
    rw [hother q hq] at hlive
    exact hlive (beforeInsert_state hq)
  refine ⟨_, _, hplaced.queued, by rw [hplaced.method]; decide, fun q hq => ?_, fun q hq => ?_,
    fun q hq => ?_, fun q hq => ?_⟩
  · refine ⟨trivial, ?_⟩
    rintro rfl
    rw [hself] at hq
    exact absurd hq (by decide)
  · rw [hunused q hq, hself]
    decide
  · rw [hunused q hq, hself]
    decide
  · have hq : q = 0 := by
      by_contra hne
      exact hq ⟨trivial, fun heq => absurd heq hne⟩
    rw [hq, hself]
    decide

/-- A counter is at least one whenever its process is in use, hence a tick that brings
it to zero has reset it, and a queued process never has more than its slice. -/
theorem slices_never_stuck {run : List (SliceOp × SchedState)}
    (hboot : userinit a initSched = .ok s) (hrun : IsRun SliceStep s run)
    (hok : Along (fun _ op => op.Admissible) s run) :
    ∀ t ∈ visited s run, ∃ ls, SlicesBounded t ls := by
  intro t ht
  have hinv := hrun.invariant (fun _ op => op.Admissible) (fun t => ∃ ls out, Sliced t ls out)
    (fun _ _ _ h hok hstep => sliced_step h hok hstep) (userinit_sliced hboot) hok
  obtain ⟨ls, out, h⟩ := hinv t ht
  exact ⟨ls, h.slicesBounded⟩

/-! ## A run with both policies -/

def execSlice : SliceOp → SchedState → Kres SchedState
  | .tick p a, s =>
    if (s.proc p).state = .RUNNABLE ∨ (s.proc p).state = .RUNNING then timerTick p a s
    else .error .undefined
  | .call op, s => if op.ready s then execOp op s else .error .undefined

theorem execSlice_step (s : SchedState) (op : SliceOp) (s' : SchedState)
    (h : execSlice op s = .ok s') : SliceStep s op s' := by
  cases op with
  | tick p a =>
    simp only [execSlice] at h
    split at h
    · rename_i hrun
      exact .tick hrun h
    · cases h
  | call op =>
    simp only [execSlice] at h
    split at h
    · rename_i hready
      exact .call ⟨hready, h⟩
    · cases h

/-- The first process forks, is moved to the last queue, uses up part of its slice,
and goes on under the other policy. -/
def sliceOps : List SliceOp :=
  [.call (.fork 0 32 true), .call (.setPriority 0 1 7 16), .tick 0 64, .tick 0 64,
    .call (.chrt 0 1), .tick 1 64, .call (.yield 1 64), .call (.chrt 0 2), .tick 0 64, .tick 0 64]

theorem slices_never_stuck_both_policies :
    ∃ s run, userinit 16 initSched = .ok s ∧ IsRun SliceStep s run ∧ run.map Prod.fst = sliceOps ∧
      ∀ t ∈ visited s run, ∃ ls, SlicesBounded t ls := by
  have heval : (userinit 16 initSched).Yields fun s =>
      Kres.Yields (execAll execSlice sliceOps s) fun _ => True := by
    decide +kernel
  obtain ⟨s, hs, run, hrun, -⟩ := heval
  obtain ⟨hrun, hops⟩ := execAll_isRun execSlice_step hrun
  refine ⟨s, run, hs, hrun, hops, slices_never_stuck hs hrun (.of_labels ?_)⟩
  rw [hops]
  simp [sliceOps, SliceOp.Admissible, maxPriority, NMLFQ]

end LearnOS.Sched
