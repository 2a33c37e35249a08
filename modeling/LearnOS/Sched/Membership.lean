import LearnOS.Sched.Placement

/-!
# Membership in the multi-level feedback queue

Every live process has exactly one node, in the queue of its level, as long as no
priority is above that of the last queue and processes come and go only while the
policy is `SCHED_MLFQ`. Neither is checked: `set_priority` drops a process whose
priority is too high, and a process that is created or reaped under another policy
is not put into the queues or not taken out of them.
-/

namespace LearnOS.Sched

open LearnOS LinkedList Transition Function Kres

variable {s s' : SchedState} {ls : Fin NMLFQ → List ℕ} {p : Fin NPROC} {a : ℕ}
  {out : Fin NPROC → Prop}

/-- What each queue is to hold. -/
structure Membership (s : SchedState) (ls : Fin NMLFQ → List ℕ) : Prop where
  linked : ∀ i, Seg NULL s.next (s.queue i).head (ls i) NULL
  nodup : ∀ i, (ls i).Nodup
  once : ∀ p, (s.proc p).state ∈ [.RUNNABLE, .RUNNING, .SLEEPING, .ZOMBIE] →
    (∃! a, a ∈ ls (s.proc p).mlqlevel ∧ s.owner a = p) ∧
      ∀ i, i ≠ (s.proc p).mlqlevel → ∀ a ∈ ls i, s.owner a ≠ p
  live : ∀ i, ∀ a ∈ ls i, (s.proc (s.owner a)).state ≠ .UNUSED
  empty : ∀ i, (s.queue i).head = NULL ↔ (s.queue i).tail = NULL
  last : ∀ i l a, ls i = l ++ [a] → (s.queue i).tail = a

/-- Under the policy of the queues, the live processes are queued. -/
def MlfqConsistent (s : SchedState) : Prop := s.method = .SCHED_MLFQ → ∃ ls, Membership s ls

/-! ## The invariant -/

/-- Exactly the live processes are queued, and their priorities have a queue. -/
structure Members (s : SchedState) (ls : Fin NMLFQ → List ℕ) : Prop where
  queued : Queued s ls fun q => (s.proc q).state = .UNUSED
  priority : ∀ q, (s.proc q).state ≠ .UNUSED → (s.proc q).priority ≤ maxPriority

theorem Members.steady (h : Members s ls) (hs : Steady s s') : Members s' ls where
  queued := (hs.queued h.queued).congr rfl rfl rfl (fun q => ⟨hs.unused q, hs.free q⟩)
    fun _ _ => rfl
  priority q hq := by
    rw [hs.priority q hq]
    exact h.priority q fun hfree => hq (hs.free q hfree)

/-- A process is moved to a queue, or is freed. -/
theorem Moved.members {q : Fin NPROC} {t : Task} {j : Option (Fin NMLFQ)}
    (h : Moved q t a j s s' ls out) (hs : Members s ls)
    (hout : ∀ r, out r ↔ (s.proc r).state = .UNUSED) (hj : j = none ↔ t.state = .UNUSED)
    (hprio : t.state ≠ .UNUSED → t.priority ≤ maxPriority) : ∃ ls', Members s' ls' := by
  have hself : s'.proc q = t.atLevel j := by
    rw [h.proc, update_self]
  have hother : ∀ r, r ≠ q → s'.proc r = s.proc r := by
    intro r hr
    rw [h.proc, update_of_ne hr]
  refine ⟨_, h.queued.congr rfl rfl rfl (fun r => ?_) fun _ _ => rfl, fun r hr => ?_⟩
  all_goals by_cases hrq : r = q
  · rw [hrq, hself, Task.atLevel_state, ← hj]
    simp
  · rw [hother r hrq, hout]
    simp [hrq]
  · rw [hrq, hself] at hr ⊢
    rw [Task.atLevel_state] at hr
    rw [Task.atLevel_priority]
    exact hprio hr
  · rw [hother r hrq] at hr ⊢
    exact hs.priority r hr

theorem Members.membership (h : Members s ls) : Membership s ls where
  linked := h.queued.queues.linked
  nodup := h.queued.queues.nodup
  once p hp := by
    have hlive : (s.proc p).state ≠ .UNUSED := by
      intro heq
      rw [heq] at hp
      simp at hp
    obtain ⟨a, ha, howner⟩ := h.queued.has p hlive
    refine ⟨⟨a, ⟨ha, howner⟩, fun b hb => ?_⟩, fun i hi b hb heq => hi ?_⟩
    · exact h.queued.once _ b hb.1 a ha (hb.2.trans howner.symm)
    · rw [← heq]
      exact (h.queued.level i b hb).2.symm
  live i a ha := (h.queued.level i a ha).1
  empty i := (h.queued.queues.head_eq_null_iff i).trans
    (h.queued.queues.tail_eq_null_iff i).symm
  last _ _ _ hl := h.queued.queues.tail_eq hl

/-! ## Runs -/

/-- Processes are created and reaped under `SCHED_MLFQ` only, and no priority is
above that of the last queue. -/
def KeepsQueues (s : SchedState) : SchedOp → Prop
  | .fork .. | .vfork .. => s.method = .SCHED_MLFQ
  | .wait p => s.method = .SCHED_MLFQ ∨
      ∀ q, ¬ ((s.proc q).parent = some p ∧ (s.proc q).state = .ZOMBIE)
  | .setPriority _ _ priority _ => priority ≤ maxPriority
  | _ => True

instance (s : SchedState) (op : SchedOp) : Decidable (KeepsQueues s op) :=
  match op with
  | .fork .. | .vfork .. => inferInstanceAs (Decidable (s.method = .SCHED_MLFQ))
  | .wait p => inferInstanceAs (Decidable (s.method = .SCHED_MLFQ ∨
      ∀ q, ¬ ((s.proc q).parent = some p ∧ (s.proc q).state = .ZOMBIE)))
  | .setPriority _ _ priority _ => inferInstanceAs (Decidable (priority ≤ maxPriority))
  | .vforkReturn _ | .exec _ | .exit _ | .kill .. | .yield .. | .chrt .. => .isTrue trivial

theorem Members.effect {op : SchedOp} (h : Members s ls) (hok : KeepsQueues s op)
    (heffect : Effect op s s' ls fun q => (s.proc q).state = .UNUSED) : ∃ ls', Members s' ls' := by
  cases heffect with
  | kept hs => exact ⟨ls, h.steady hs⟩
  | @moved q t a j s₁ s₂ hq hbefore hmoved ht hafter =>
    have hprio : t.state ≠ .UNUSED → t.priority ≤ maxPriority := by
      intro hlive
      rcases ht.priority hlive with ⟨r, hr, heq⟩ | ⟨p, pid, b, rfl⟩
      · rw [heq]
        exact h.priority r hr
      · exact hok
    have hj : j = none ↔ t.state = .UNUSED := by
      refine ⟨fun hnone => ?_, ht.unused⟩
      by_contra hlive
      exact absurd (hprio hlive) (not_le.mpr (ht.level hlive hnone))
    obtain ⟨ls', hls'⟩ := hmoved.members (h.steady hbefore)
      (fun r => ⟨hbefore.free r, hbefore.unused r⟩) hj hprio
    exact ⟨ls', hls'.steady hafter⟩

theorem Members.chrt (h : Members s ls) (type : ℤ) : Members (chrt type s) ls := by
  have hsame : ∀ m, Members { s with method := m } ls := fun m =>
    ⟨h.queued.congr rfl rfl rfl (fun _ => Iff.rfl) fun _ _ => rfl, h.priority⟩
  simp only [Sched.chrt]
  split_ifs
  · exact hsame _
  · exact hsame _
  · exact hsame _
  · exact h

/-- Under the other policies nobody is created or reaped, and the queues stay. -/
theorem Members.unqueued {op : SchedOp} (h : Members s ls) (hm : s.method ≠ .SCHED_MLFQ)
    (hok : KeepsQueues s op) (hstep : SchedStep s op s') : Members s' ls := by
  obtain ⟨hready, hcall⟩ := hstep
  have hlive := SchedOp.live_of_ready hready
  cases op with
  | fork p a memory => exact absurd hok hm
  | vfork p a memory => exact absurd hok hm
  | vforkReturn p | exec p =>
    cases hcall
    exact h.steady (steady_setProc rfl Iff.rfl fun _ => rfl)
  | exit p => exact h.steady (steady_exit hlive hcall)
  | wait p =>
    simp only [SchedOp.ready, Bool.and_eq_true, decide_eq_true_eq] at hready
    rcases wait_steady hready.1 hcall with hs | ⟨pp, s₁, hpp, -, -⟩
    · exact h.steady hs
    · exact absurd hpp (hok.resolve_left hm pp)
  | kill p pid =>
    cases hcall
    exact h.steady (steady_kill pid)
  | yield p a =>
    have hrun : Steady s (s.setProc p { s.proc p with state := .RUNNABLE }) :=
      steady_setProc rfl (iff_of_false (by simp) hlive) fun _ => rfl
    simp only [execOp, Sched.yield] at hcall
    split at hcall
    · cases hcall
      exact h.steady hrun
    · cases hcall
      exact h.steady (hrun.trans (steady_setProc rfl Iff.rfl fun _ => rfl))
    · rename_i hmlfq
      exact absurd hmlfq hm
  | setPriority p pid priority a =>
    simp only [execOp, bind_eq_ok, pure_eq_ok] at hcall
    obtain ⟨⟨r, s₁⟩, hset, rfl⟩ := hcall
    simp only [Sched.setPriority] at hset
    split at hset
    · cases hset
      exact h
    · split at hset
      · cases hset
        exact h
      · rename_i q _
        cases hset
        have hkept : Kept s (s.setProc q { s.proc q with priority := priority }) :=
          kept_setProc rfl id
        have hstate : ∀ r, ((s.setProc q { s.proc q with priority := priority }).proc r).state =
            (s.proc r).state := by
          intro r
          by_cases hr : r = q
          · rw [hr, SchedState.setProc_self]
          · rw [SchedState.setProc_of_ne _ hr]
        refine ⟨(hkept.queued h.queued).congr rfl rfl rfl (fun r => by rw [hstate]) fun _ _ => rfl,
          fun r hr => ?_⟩
        by_cases hrq : r = q
        · rw [hrq, SchedState.setProc_self]
          exact hok
        · rw [hstate] at hr
          rw [SchedState.setProc_of_ne _ hrq]
          exact h.priority r hr
    · rename_i hmlfq
      exact absurd hmlfq hm
  | chrt p type =>
    cases hcall
    exact h.chrt type

theorem members_step {op : SchedOp} (h : ∃ ls, Members s ls) (hok : KeepsQueues s op)
    (hstep : SchedStep s op s') : ∃ ls, Members s' ls := by
  obtain ⟨ls, h⟩ := h
  by_cases hm : s.method = .SCHED_MLFQ
  · by_cases hop : ∃ p type, op = .chrt p type
    · obtain ⟨p, type, rfl⟩ := hop
      cases hstep.call
      exact ⟨ls, h.chrt type⟩
    · simp only [not_exists] at hop
      exact h.effect hok (schedStep_effect h.queued hm (fun _ => id) hop hstep)
  · exact ⟨ls, h.unqueued hm hok hstep⟩

theorem userinit_members (h : userinit a initSched = .ok s) : ∃ ls, Members s ls := by
  have hplaced := userinit_placed h
  have hstate : ∀ q, (s.proc q).state = .UNUSED ↔ q ≠ 0 := by
    intro q
    rw [hplaced.proc]
    by_cases hq : q = 0
    · rw [hq, update_self]
      exact iff_of_false (by decide) (by simp)
    · rw [update_of_ne hq]
      exact iff_of_true (beforeInsert_state hq) hq
  refine ⟨_, hplaced.queued.congr rfl rfl rfl (fun q => ?_) fun _ _ => rfl, fun q hq => ?_⟩
  · rw [hstate]
    simp
  · rw [ne_eq, hstate, not_not] at hq
    rw [hq, hplaced.proc, update_self]
    decide

/-- In every run from the first process in which priorities stay within the queues
and processes come and go under `SCHED_MLFQ`, the live processes are exactly the
queued ones. -/
theorem mlfq_consistent {run : List (SchedOp × SchedState)}
    (hboot : userinit a initSched = .ok s) (hrun : IsRun SchedStep s run)
    (hok : Along KeepsQueues s run) : ∀ t ∈ visited s run, MlfqConsistent t := by
  intro t ht _
  have hinv := hrun.invariant KeepsQueues (fun t => ∃ ls, Members t ls)
    (fun _ _ _ h hok hstep => members_step h hok hstep) (userinit_members hboot) hok
  obtain ⟨ls, hm⟩ := hinv t ht
  exact ⟨ls, hm.membership⟩

/-! ## Two runs -/

/-- A live process without a node, when all queues are empty. -/
theorem not_consistent_of_empty (hm : s.method = .SCHED_MLFQ)
    (hhead : ∀ i, (s.queue i).head = NULL)
    (hp : (s.proc p).state ∈ [.RUNNABLE, .RUNNING, .SLEEPING, .ZOMBIE]) : ¬ MlfqConsistent s := by
  intro h
  obtain ⟨ls, hls⟩ := h hm
  obtain ⟨⟨a, ⟨ha, -⟩, -⟩, -⟩ := hls.once p hp
  have hnil := (hls.linked (s.proc p).mlqlevel).eq_nil_iff.mpr (hhead _)
  rw [hnil] at ha
  simp at ha

/-- A live process that owns none of the nodes, when the first queue has one node
and the others are empty. -/
theorem not_consistent_of_single (hm : s.method = .SCHED_MLFQ)
    (hhead : ∀ i, (s.queue i).head = if i = 0 then a else NULL) (hnull : a ≠ NULL)
    (hnext : s.next a = NULL) (howner : s.owner a ≠ p)
    (hp : (s.proc p).state ∈ [.RUNNABLE, .RUNNING, .SLEEPING, .ZOMBIE]) : ¬ MlfqConsistent s := by
  intro h
  obtain ⟨ls, hls⟩ := h hm
  obtain ⟨⟨b, ⟨hb, hbp⟩, -⟩, -⟩ := hls.once p hp
  have hlinked := hls.linked (s.proc p).mlqlevel
  by_cases hi : (s.proc p).mlqlevel = 0
  · have hsingle : Seg NULL s.next (s.queue (s.proc p).mlqlevel).head [a] NULL := by
      rw [hhead, if_pos hi]
      exact ⟨rfl, hnull, hnext⟩
    rw [hlinked.unique hsingle, List.mem_singleton] at hb
    exact howner (hb ▸ hbp)
  · have hempty : (s.queue (s.proc p).mlqlevel).head = NULL := by rw [hhead, if_neg hi]
    rw [hlinked.eq_nil_iff.mpr hempty] at hb
    simp at hb

/-- `set_priority(1, 8)` takes the only process out of the queues, and a process
that is forked under `SCHED_RR` is in none of them when the policy changes back. -/
theorem unqueued_runs :
    (∃ s run, userinit 16 initSched = .ok s ∧ IsRun SchedStep s run ∧
      run.map Prod.fst = [.setPriority 0 1 8 32] ∧ ¬ MlfqConsistent (last s run)) ∧
    ∃ s run, userinit 16 initSched = .ok s ∧ IsRun SchedStep s run ∧
      run.map Prod.fst = [.chrt 0 1, .fork 0 32 true, .chrt 0 2] ∧
      ¬ MlfqConsistent (last s run) := by
  constructor
  · obtain ⟨s, run, hs, hrun, hops, hm, hhead, hp⟩ := userinit_run 16 [.setPriority 0 1 8 32]
      (fun s run => (last s run).method = .SCHED_MLFQ ∧
        (∀ i, ((last s run).queue i).head = NULL) ∧
        ((last s run).proc 0).state ∈ [.RUNNABLE, .RUNNING, .SLEEPING, .ZOMBIE])
      (by decide +kernel)
    exact ⟨s, run, hs, hrun, hops, not_consistent_of_empty hm hhead hp⟩
  · obtain ⟨s, run, hs, hrun, hops, hm, hhead, hnext, howner, hp⟩ := userinit_run 16
      [.chrt 0 1, .fork 0 32 true, .chrt 0 2]
      (fun s run => (last s run).method = .SCHED_MLFQ ∧
        (∀ i, ((last s run).queue i).head = if i = 0 then 16 else NULL) ∧
        (last s run).next 16 = NULL ∧ (last s run).owner 16 ≠ 1 ∧
        ((last s run).proc 1).state ∈ [.RUNNABLE, .RUNNING, .SLEEPING, .ZOMBIE])
      (by decide +kernel)
    exact ⟨s, run, hs, hrun, hops, not_consistent_of_single hm hhead (by decide) hnext howner hp⟩

/-- A run with a new process that yields, changes its priority, exits and is
reaped. -/
theorem fork_yield_reap_consistent :
    ∃ s run, userinit 16 initSched = .ok s ∧ IsRun SchedStep s run ∧
      run.map Prod.fst = [.fork 0 32 true, .yield 1 32, .setPriority 0 2 5 48, .exit 1, .wait 0] ∧
      Along KeepsQueues s run ∧ ∀ t ∈ visited s run, MlfqConsistent t := by
  obtain ⟨s, run, hs, hrun, hops, hok⟩ := userinit_run 16
    [.fork 0 32 true, .yield 1 32, .setPriority 0 2 5 48, .exit 1, .wait 0]
    (Along KeepsQueues) (by decide +kernel)
  exact ⟨s, run, hs, hrun, hops, hok, mlfq_consistent hs hrun hok⟩

end LearnOS.Sched
