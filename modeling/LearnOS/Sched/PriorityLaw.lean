import LearnOS.Sched.Traversal

/-!
# Dispatching by priority

The pass over the queues does not start again when a process becomes runnable in a
queue that it has left behind, and it visits the last queue up to a node that was
the last one when the pointer was read.
-/

namespace LearnOS.Sched

open LearnOS LinkedList Transition Function Kres

variable {s s' : SchedState} {ls : Fin NMLFQ → List ℕ} {p q : Fin NPROC} {i j : Fin NMLFQ}
  {a : ℕ} {out : Fin NPROC → Prop} {c c' : Cpu}

/-- When the scheduler switches to a process of some queue, nobody is runnable in the
queues before it. -/
def DispatchesByPriority (_ : Cpu) (e : CpuEvent) (c : Cpu) : Prop :=
  e = .scan → ∀ i next p, c.pos = .mlfqRun i next p → ∀ j < i, ∀ l,
    Seg NULL c.s.next (c.s.queue j).head l NULL →
      ∀ b ∈ l, (c.s.proc (c.s.owner b)).state ≠ .RUNNABLE

/-- The queue comes after the one that is traversed, or is the last one. -/
def Pos.Later (pos : Pos) (j : Fin NMLFQ) : Prop :=
  ∀ i ∈ pos.level, i < j ∨ (j : ℕ) + 1 = NMLFQ

/-- The traversal will come to a node that is put at the end of the queue. -/
def Pos.Open (pos : Pos) (j : Fin NMLFQ) : Prop :=
  pos.Later j ∨ pos.level = some j ∧ pos.saved ≠ NULL

instance (pos : Pos) (j : Fin NMLFQ) : Decidable (pos.Later j) :=
  inferInstanceAs (Decidable (∀ i ∈ pos.level, i < j ∨ (j : ℕ) + 1 = NMLFQ))

instance (pos : Pos) (j : Fin NMLFQ) : Decidable (pos.Open j) :=
  inferInstanceAs (Decidable (_ ∨ _))

/-- A process becomes runnable, or is moved while it is runnable, only in a queue that
the pass has still to visit, and `set_priority` does not take out the node which is
to be visited next. -/
def KeepsOrder (c : Cpu) : CpuEvent → Prop
  | .scan | .sleep _ => True
  | .wake chan => ∀ q, c.sleepsOn chan q → c.pos.Later (c.s.proc q).mlqlevel
  | .call (.yield p _) => c.pos.Open (nextLevel (c.s.proc p).mlqlevel)
  | .call (.fork p _ _) => ∀ j ∈ levelOf (c.s.proc p).priority, c.pos.Open j
  | .call (.setPriority _ pid priority _) =>
    (c.pos.saved = NULL ∨ (c.s.proc (c.s.owner c.pos.saved)).pid ≠ pid) ∧
      ∀ q, (c.s.proc q).pid = pid → (c.s.proc q).state = .RUNNABLE →
        ∀ j ∈ levelOf priority, c.pos.Open j
  | .call _ => False

instance (c : Cpu) (e : CpuEvent) : Decidable (KeepsOrder c e) :=
  match e with
  | .scan | .sleep _ => .isTrue trivial
  | .wake chan =>
    inferInstanceAs (Decidable (∀ q, c.sleepsOn chan q → c.pos.Later (c.s.proc q).mlqlevel))
  | .call (.yield p _) =>
    inferInstanceAs (Decidable (c.pos.Open (nextLevel (c.s.proc p).mlqlevel)))
  | .call (.fork p _ _) =>
    inferInstanceAs (Decidable (∀ j ∈ levelOf (c.s.proc p).priority, c.pos.Open j))
  | .call (.setPriority _ pid priority _) =>
    inferInstanceAs (Decidable ((c.pos.saved = NULL ∨
      (c.s.proc (c.s.owner c.pos.saved)).pid ≠ pid) ∧
        ∀ q, (c.s.proc q).pid = pid → (c.s.proc q).state = .RUNNABLE →
          ∀ j ∈ levelOf priority, c.pos.Open j))
  | .call (.chrt ..) | .call (.vfork ..) | .call (.vforkReturn _) | .call (.exec _)
  | .call (.exit _) | .call (.kill ..) | .call (.wait _) => .isFalse id

/-! ## The part of the pass that is done -/

/-- Nobody is runnable in the queues that have been left behind, nor in the visited
part of the current one unless it is the last. -/
structure Passed (s : SchedState) (ls : Fin NMLFQ → List ℕ) (i : Fin NMLFQ) (pre : List ℕ) :
    Prop where
  queues : ∀ j < i, ∀ b ∈ ls j, (s.proc (s.owner b)).state ≠ .RUNNABLE
  nodes : (i : ℕ) + 1 < NMLFQ → ∀ b ∈ pre, (s.proc (s.owner b)).state ≠ .RUNNABLE

theorem Pos.Later.not_lt {pos : Pos} (h : pos.Later j) (hi : pos.level = some i) : ¬ j < i := by
  intro hj
  rcases h i hi with hij | hlast
  · exact absurd hij hj.not_gt
  · have hlt : (j : ℕ) < (i : ℕ) := hj
    omega

theorem Pos.Later.last {pos : Pos} (h : pos.Later i) (hi : pos.level = some i) :
    ¬ (i : ℕ) + 1 < NMLFQ := by
  rcases h i hi with hii | hlast
  · exact absurd hii (lt_irrefl i)
  · omega

/-- The processes are the same but for some that have become runnable in later
queues. -/
theorem Passed.congr {pre : List ℕ} {pos : Pos} (h : Passed s ls i pre) (hq : Queued s ls out)
    (hi : pos.level = some i) (hpre : pre ⊆ ls i) (howner : s'.owner = s.owner)
    (hstate : ∀ r, (s'.proc r).state = .RUNNABLE →
      (s.proc r).state = .RUNNABLE ∨ pos.Later (s.proc r).mlqlevel) : Passed s' ls i pre := by
  refine ⟨fun j hj b hb hrun => ?_, fun hlast b hb hrun => ?_⟩
  all_goals
    rw [howner] at hrun
  · rcases hstate _ hrun with hrun | hlater
    · exact h.queues j hj b hb hrun
    · rw [(hq.level j b hb).2] at hlater
      exact hlater.not_lt hi hj
  · rcases hstate _ hrun with hrun | hlater
    · exact h.nodes hlast b hb hrun
    · rw [(hq.level i b (hpre hb)).2] at hlater
      exact hlater.last hi hlast

/-- A runnable process is moved to a queue that is still open. -/
theorem Passed.moved {pre pre' : List ℕ} {t : Task} {k : Option (Fin NMLFQ)} {pos : Pos}
    (h : Passed s ls i pre) (hmoved : Moved q t a k s s' ls out) (hi : pos.level = some i)
    (hsub : pre ⊆ ls i)
    (hpre : ∀ b ∈ pre', b ∈ pre ∧ s.owner b ≠ q ∨ b = a ∧ k = some i ∧ pos.saved = NULL)
    (hopen : t.state = .RUNNABLE → ∀ j ∈ k, pos.Open j) :
    Passed s' (placeAt (withoutNodes s ls q) k a) i pre' := by
  -- the other processes keep their state
  have hother : ∀ j b, b ∈ ls j → s.owner b ≠ q →
      (s'.proc (s'.owner b)).state = (s.proc (s.owner b)).state := by
    intro j b hb hne
    rw [hmoved.owner j b (mem_withoutNodes.mpr ⟨hb, hne⟩), hmoved.proc, update_of_ne hne]
  have hnew : ∀ j, k = some j → (s'.proc (s'.owner a)).state = t.state := by
    intro j hj
    rw [hmoved.placed (by simp [hj]), hmoved.proc, update_self, Task.atLevel_state]
  refine ⟨fun j hj b hb => ?_, fun hlast b hb => ?_⟩
  · rcases mem_placeAt.mp hb with hb | ⟨rfl, hk⟩
    · obtain ⟨hb, hne⟩ := mem_withoutNodes.mp hb
      rw [hother j b hb hne]
      exact h.queues j hj b hb
    · rw [hnew j hk]
      intro hrun
      rcases hopen hrun j hk with hlater | ⟨hlevel, -⟩
      · exact hlater.not_lt hi hj
      · rw [hi, Option.some.injEq] at hlevel
        exact absurd hj (hlevel ▸ lt_irrefl _)
  · rcases hpre b hb with ⟨hb, hne⟩ | ⟨rfl, hk, hsaved⟩
    · rw [hother i b (hsub hb) hne]
      exact h.nodes hlast b hb
    · rw [hnew i hk]
      intro hrun
      rcases hopen hrun i hk with hlater | ⟨-, hne⟩
      · exact hlater.last hi hlast
      · exact hne hsaved

/-! ## Steps -/

/-- The traversal has passed its queue in order. -/
def OrderedPass (c : Cpu) : Prop := ∃ ls out, Traversing c ls out (Passed c.s ls)

/-- A process is moved by the running one. -/
theorem Traversing.moved_orderedPass {t : Task} {k : Option (Fin NMLFQ)}
    (h : Traversing c ls out (Passed c.s ls)) (hrun : c.pos.running = some p)
    (hmoved : Moved q t a k c.s s' ls out) (ht : t.state = .UNUSED → k = none)
    (hq : c.pos.saved = NULL ∨ c.s.owner c.pos.saved ≠ q)
    (hopen : t.state = .RUNNABLE → ∀ j ∈ k, c.pos.Open j) : OrderedPass (c.settle p s') := by
  have hmid : Traversing { c with s := s' } _ _
      (Passed s' (placeAt (withoutNodes c.s ls q) k a)) := h.moved hmoved ht hq hrun rfl
    fun i pre pre' hi hsub hpassed hpre => hpassed.moved hmoved hi hsub hpre hopen
  exact ⟨_, _, hmid.kept (Steady.refl _).toKept (settle_pos ..)
    fun _ _ _ _ hpassed => hpassed⟩

theorem orderedPass_scan (h : OrderedPass c) (hscan : c.scan = .ok c') : OrderedPass c' := by
  obtain ⟨ls, out, h⟩ := h
  refine ⟨ls, out, h.scan hscan ?_ ?_ ?_⟩
  · intro _
    exact ⟨fun j hj => absurd hj (Fin.not_lt_zero j), by simp⟩
  · intro i hi hs hpassed
    rw [hs]
    refine ⟨fun j hj b hb => ?_, by simp⟩
    rcases Nat.lt_succ_iff_lt_or_eq.mp (show (j : ℕ) < i + 1 from hj) with hlt | heq
    · exact hpassed.queues j hlt b hb
    · obtain rfl : j = i := Fin.ext heq
      exact hpassed.nodes hi b hb
  · intro i pre node hnode hpassed hs
    have hstate : ∀ r, (c'.s.proc r).state = .RUNNABLE →
        (c.s.proc r).state = .RUNNABLE ∧ r ≠ c.s.owner node := by
      intro r hr
      rcases hs with ⟨hs, hrun⟩ | hs
      · rw [hs] at hr
        exact ⟨hr, fun heq => hrun (heq ▸ hr)⟩
      · rw [hs, Cpu.dispatch] at hr
        by_cases hrn : r = c.s.owner node
        · rw [hrn, SchedState.setProc_self] at hr
          cases hr
        · rw [SchedState.setProc_of_ne _ hrn] at hr
          exact ⟨hr, hrn⟩
    have howner : c'.s.owner = c.s.owner := by
      rcases hs with ⟨hs, -⟩ | hs
      · rw [hs]
      · rw [hs]
        rfl
    refine ⟨fun j hj b hb hr => ?_, fun hlast b hb hr => ?_⟩
    · rw [howner] at hr
      exact hpassed.queues j hj b hb (hstate _ hr).1
    · rw [howner] at hr
      rcases List.mem_append.mp hb with hb | hb
      · exact hpassed.nodes hlast b hb (hstate _ hr).1
      · rw [List.mem_singleton.mp hb] at hr
        exact (hstate _ hr).2 rfl

theorem orderedPass_call {op : SchedOp} (h : OrderedPass c) (hok : KeepsOrder c (.call op))
    (hcall : c.call op = .ok c') : OrderedPass c' := by
  obtain ⟨ls, out, h⟩ := h
  obtain ⟨s', hrun, ⟨hready, hop⟩, rfl⟩ := Cpu.call_ok hcall
  have hlive := SchedOp.live_of_ready hready
  cases op with
  | yield p a =>
    refine h.moved_orderedPass hrun (yield_moved h.queued h.method hop)
      (fun ht => by cases ht) ?_ fun _ j hj => ?_
    · rw [or_iff_not_imp_left]
      exact fun hnull => (h.saved hrun hnull).2
    · cases hj
      exact hok
  | fork p a memory =>
    simp only [execOp, Sched.fork, bind_eq_ok, pure_eq_ok] at hop
    obtain ⟨⟨r, s₁⟩, hfork, rfl⟩ := hop
    rcases forkWith_placed h.queued h.unused hlive hfork with
      ⟨-, hs, hsame⟩ | ⟨np, -, hnp, hmoved⟩
    · refine ⟨ls, out, h.kept hs.toKept (settle_pos ..) fun i pre hi hsub hpassed => ?_⟩
      refine hpassed.congr h.queued hi hsub hs.owner fun r hr => Or.inl ?_
      rw [← hsame r fun hfree => absurd (hr.symm.trans hfree) (by decide)]
      exact hr
    · refine h.moved_orderedPass hrun hmoved (fun ht => by cases ht) ?_ fun _ j hj => hok j ?_
      · rw [or_iff_not_imp_left]
        rintro hnull rfl
        exact (h.saved hrun hnull).1 (h.unused _ hnp)
      · rw [forkLevel, if_pos h.method] at hj
        exact hj
  | setPriority p pid priority a =>
    simp only [execOp, bind_eq_ok, pure_eq_ok] at hop
    obtain ⟨⟨r, s₁⟩, hset, rfl⟩ := hop
    rcases setPriority_moved h.queued h.method hset with ⟨-, rfl⟩ | ⟨q, hfind, hin, hmoved⟩
    · exact ⟨ls, out, h.kept (Steady.refl _).toKept (settle_pos ..)
        fun _ _ _ _ hpassed => hpassed⟩
    · have hpid := (h.queued.find hfind).2
      refine h.moved_orderedPass hrun hmoved (fun ht => absurd (h.unused q ht) hin) ?_ fun ht =>
        hok.2 q hpid ht
      rcases hok.1 with hnull | hne
      · exact Or.inl hnull
      · refine Or.inr ?_
        rintro rfl
        exact hne hpid
  | _ => exact absurd hok id

theorem orderedPass_step {e : CpuEvent} (h : OrderedPass c) (hok : KeepsOrder c e)
    (hstep : CpuStep c e c') : OrderedPass c' := by
  cases e with
  | scan => exact orderedPass_scan h hstep
  | call op => exact orderedPass_call h hok hstep
  | sleep chan =>
    obtain ⟨ls, out, h⟩ := h
    obtain ⟨p, -, hs, hpos⟩ := Cpu.sleep_ok hstep
    have hkept : Kept c.s c'.s := by
      rw [hs]
      exact kept_setProc rfl fun ht => by cases ht
    refine ⟨ls, out, h.kept hkept (Or.inr hpos) fun i pre hi hsub hpassed => ?_⟩
    refine hpassed.congr h.queued hi hsub hkept.owner fun r hr => Or.inl ?_
    rw [hs] at hr
    by_cases hrp : r = p
    · rw [hrp, SchedState.setProc_self] at hr
      cases hr
    · rw [SchedState.setProc_of_ne _ hrp] at hr
      exact hr
  | wake chan =>
    obtain ⟨ls, out, h⟩ := h
    cases hstep
    refine ⟨ls, out, h.kept (steady_cpuWake chan).toKept (Or.inl rfl)
      fun i pre hi hsub hpassed => ?_⟩
    refine hpassed.congr h.queued hi hsub rfl fun r hr => ?_
    simp only [Cpu.wake] at hr
    split at hr
    · rename_i hsleeps
      exact Or.inr (hok r hsleeps)
    · exact Or.inl hr

theorem OrderedPass.dispatches {e : CpuEvent} (h : OrderedPass c') :
    DispatchesByPriority c e c' := by
  obtain ⟨ls, out, h⟩ := h
  intro _ i next p hpos j hj l hl b hb
  have hat := h.at_node
  rw [hpos] at hat
  obtain ⟨pre, suf, -, hpassed, -⟩ := hat
  rw [hl.unique (h.queued.queues.linked j)] at hb
  exact hpassed.queues j hj b hb

/-! ## Runs -/

/-- The scheduler dispatches by priority for as long as nobody becomes runnable in a
queue that it has left behind. -/
theorem scheduler_dispatches_by_priority {run : List (CpuEvent × Cpu)}
    (hboot : userinit a initSched = .ok s) (hrun : IsRun CpuStep (bootCpu s) run)
    (hok : Along KeepsOrder (bootCpu s) run) :
    IsRun DispatchesByPriority (bootCpu s) run := by
  have hstart : OrderedPass (bootCpu s) := by
    obtain ⟨ls, out, h⟩ := bootCpu_traversing hboot
    exact ⟨ls, out, h _⟩
  exact hrun.imp KeepsOrder OrderedPass (fun _ _ _ h hok hstep => orderedPass_step h hok hstep)
    (fun _ _ _ h hok hstep => (orderedPass_step h hok hstep).dispatches) hstart hok

/-- The first process goes to the second queue and forks; the child goes to the last
queue and sleeps, is woken, and is dispatched from there. -/
def orderedEvents : List CpuEvent :=
  [.scan, .scan, .call (.setPriority 0 1 3 32), .call (.fork 0 48 true), .call (.yield 0 32),
    .scan, .scan, .call (.setPriority 1 2 7 64), .sleep 5, .scan, .scan, .wake 5,
    .call (.yield 0 80), .scan, .scan]

theorem scheduler_dispatches_by_priority_ordered :
    ∃ s run, userinit 16 initSched = .ok s ∧ IsRun CpuStep (bootCpu s) run ∧
      run.map Prod.fst = orderedEvents ∧ Along KeepsOrder (bootCpu s) run ∧
      IsRun DispatchesByPriority (bootCpu s) run := by
  obtain ⟨s, run, hs, hrun, hes, hok⟩ := bootCpu_run 16 orderedEvents (Along KeepsOrder)
    (by decide +kernel)
  exact ⟨s, run, hs, hrun, hes, hok, scheduler_dispatches_by_priority hs hrun hok⟩

/-- The first process forks a child into the first queue and yields, and is dispatched
again from the second queue before the child. -/
theorem lower_queue_dispatched_first :
    ∃ s run, userinit 16 initSched = .ok s ∧ IsRun CpuStep (bootCpu s) run ∧
      run.map Prod.fst =
        [.scan, .scan, .call (.fork 0 32 true), .call (.yield 0 16), .scan, .scan] ∧
      ¬ IsRun DispatchesByPriority (bootCpu s) run := by
  obtain ⟨s, run, hs, hrun, hes, ⟨e, c⟩, hc, he, hpos, hhead, hnext, hrunnable⟩ := bootCpu_run 16
    [.scan, .scan, .call (.fork 0 32 true), .call (.yield 0 16), .scan, .scan]
    (fun _ run => ∃ x ∈ run, x.1 = .scan ∧ x.2.pos = .mlfqRun 1 NULL 0 ∧
      (x.2.s.queue 0).head = 32 ∧ x.2.s.next 32 = NULL ∧
      (x.2.s.proc (x.2.s.owner 32)).state = .RUNNABLE) (by decide +kernel)
  refine ⟨s, run, hs, hrun, hes, fun hall => ?_⟩
  obtain ⟨c₀, hstep⟩ := hall.exists_step hc
  exact hstep he 1 NULL 0 hpos 0 (by decide) [32] ⟨hhead, by decide, hnext⟩ 32 (by simp) hrunnable

end LearnOS.Sched
