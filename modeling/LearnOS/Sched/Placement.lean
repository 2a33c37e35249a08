import LearnOS.Sched.Queued

/-!
# Where the calls put a process

The calls that change the queues take the node of a process out and put a new one
at the end of some queue, or of none: a process that was created under another
policy, or whose priority is too high, has no node. This module says what each
call does to the lists of nodes and to the processes, whatever the policy and the
priorities are.
-/

namespace LearnOS.Sched

open LearnOS LinkedList Transition Function Kres

variable {s s' : SchedState} {ls : Fin NMLFQ → List ℕ} {p q : Fin NPROC} {i : Option (Fin NMLFQ)}
  {a : ℕ} {out : Fin NPROC → Prop}
  {t : Task} {vfork : Bool}

/-- The lists with a new node at the end of one of them, if any. -/
def placeAt (ls : Fin NMLFQ → List ℕ) : Option (Fin NMLFQ) → ℕ → Fin NMLFQ → List ℕ
  | none, _ => ls
  | some i, a => appended ls i a

/-- The process at its new level, if it has one. -/
def Task.atLevel (t : Task) : Option (Fin NMLFQ) → Task
  | none => t
  | some i => { t with mlqlevel := i, runtime := queueRuntime i }

@[simp] theorem Task.atLevel_state (t : Task) (i : Option (Fin NMLFQ)) :
    (t.atLevel i).state = t.state := by
  cases i <;> rfl

@[simp] theorem Task.atLevel_priority (t : Task) (i : Option (Fin NMLFQ)) :
    (t.atLevel i).priority = t.priority := by
  cases i <;> rfl

/-- A process without a node has received one in the queue `i`. -/
structure Placed (q : Fin NPROC) (a : ℕ) (i : Option (Fin NMLFQ)) (s s' : SchedState)
    (ls : Fin NMLFQ → List ℕ) (out : Fin NPROC → Prop) : Prop where
  queued : Queued s' (placeAt ls i a) fun r => out r ∧ (r = q → i = none)
  proc : s'.proc = update s.proc q ((s.proc q).atLevel i)
  owner : ∀ j, ∀ b ∈ ls j, s'.owner b = s.owner b
  placed : i.isSome → s'.owner a = q
  method : s'.method = s.method

/-- The node of a process has been taken out, and a new one put into the queue `i`,
while the process has become `t` before its level was set. -/
structure Moved (q : Fin NPROC) (t : Task) (a : ℕ) (i : Option (Fin NMLFQ)) (s s' : SchedState)
    (ls : Fin NMLFQ → List ℕ) (out : Fin NPROC → Prop) : Prop where
  queued : Queued s' (placeAt (withoutNodes s ls q) i a) fun r =>
    (out r ∨ r = q) ∧ (r = q → i = none)
  proc : s'.proc = update s.proc q (t.atLevel i)
  owner : ∀ j, ∀ b ∈ withoutNodes s ls q j, s'.owner b = s.owner b
  placed : i.isSome → s'.owner a = q
  method : s'.method = s.method

theorem withoutNodes_absent (h : Queued s ls out) (hq : out q) : withoutNodes s ls q = ls := by
  funext j
  refine List.filter_eq_self.mpr fun b hb => decide_eq_true fun heq => ?_
  exact (h.level j b hb).1 (heq ▸ hq)

theorem mem_placeAt {j : Fin NMLFQ} {b : ℕ} :
    b ∈ placeAt ls i a j ↔ b ∈ ls j ∨ b = a ∧ i = some j := by
  cases i with
  | none => simp [placeAt]
  | some l =>
    simp only [placeAt, mem_appended, Option.some.injEq, eq_comm]

/-! ## Insertion and removal -/

theorem removeMlfq_queued (h : Queued s ls out) (hcall : removeMlfq q s = .ok s') :
    QueuesOnly s s' ∧ Queued s' (withoutNodes s ls q) fun r => out r ∨ r = q := by
  by_cases hq : out q
  · obtain rfl := h.remove_absent hq hcall
    rw [withoutNodes_absent h hq]
    refine ⟨⟨rfl, rfl, rfl, rfl⟩, h.congr rfl rfl rfl (fun r => ?_) fun _ _ => rfl⟩
    constructor
    · rintro (hr | rfl)
      · exact hr
      · exact hq
    · exact Or.inl
  · obtain ⟨s₁, hremove, honly, hqueued⟩ := h.remove hq
    rw [hremove, Except.ok.injEq] at hcall
    subst hcall
    exact ⟨honly, hqueued⟩

/-- A node that has just been allocated is put at the end of a queue. -/
theorem Queued.placed (h : Queued s ls out) (hq : out q) (hnull : a ≠ NULL) (hfresh : a ∉ s.used)
    (j : Fin NMLFQ) :
    Placed q a (some j) s ((appendNode j a ({ s with used := a :: s.used }.setNode a
      ⟨q, NULL⟩)).setProc q { s.proc q with mlqlevel := j, runtime := queueRuntime j }) ls out := by
  have honly := appendNode_only j a ({ s with used := a :: s.used }.setNode a ⟨q, NULL⟩)
  refine ⟨?_, ?_, fun k b hb => ?_, fun _ => ?_, honly.method⟩
  · have happend := h.append (i := j) hq hnull hfresh
      { s.proc q with mlqlevel := j, runtime := queueRuntime j } rfl
    refine happend.congr rfl rfl rfl (fun r => ?_) fun _ _ => rfl
    simp
  · exact congrArg (update · q _) honly.proc
  · rw [owner_append, if_neg]
    rintro rfl
    exact h.queues.fresh hfresh k hb
  · rw [owner_append, if_pos rfl]

theorem insertMlfq_placed {r : ℤ} (h : Queued s ls out) (hq : out q)
    (hcall : insertMlfq q a s = .ok (r, s')) :
    Placed q a (levelOf (s.proc q).priority) s s' ls out := by
  simp only [insertMlfq, bind_eq_ok] at hcall
  obtain ⟨s₁, hnew, hcall⟩ := hcall
  obtain ⟨hnull, hfresh, rfl⟩ := newNode_ok hnew
  have hsame : ({ s with used := a :: s.used }.setNode a ⟨q, NULL⟩).proc q = s.proc q := rfl
  rw [hsame] at hcall
  cases hlevel : levelOf (s.proc q).priority with
  | none =>
    simp only [hlevel, pure_eq_ok, Prod.mk.injEq] at hcall
    obtain ⟨-, rfl⟩ := hcall
    have hne : ∀ k, ∀ b ∈ ls k, b ≠ a := fun k b hb heq => h.queues.fresh hfresh k (heq ▸ hb)
    have howner : ∀ k, ∀ b ∈ ls k,
        ({ s with used := a :: s.used }.setNode a ⟨q, NULL⟩).owner b = s.owner b := by
      intro k b hb
      simp [SchedState.setNode, SchedState.owner, hne k b hb]
    refine ⟨⟨h.queues.newNode hfresh _, ?_, ?_, ?_⟩, ?_, howner, by simp, rfl⟩
    · intro r hr
      obtain ⟨b, hb, hbr⟩ := h.has r fun hout => hr ⟨hout, fun _ => rfl⟩
      exact ⟨b, hb, (howner _ b hb).trans hbr⟩
    · intro k b hb
      rw [howner k b hb]
      obtain ⟨hin, hk⟩ := h.level k b hb
      exact ⟨fun hout => hin hout.1, hk⟩
    · intro k b hb c hc heq
      rw [howner k b hb, howner k c hc] at heq
      exact h.once k b hb c hc heq
    · exact (update_eq_self q s.proc).symm
  | some j =>
    simp only [hlevel, pure_eq_ok, Prod.mk.injEq] at hcall
    obtain ⟨-, rfl⟩ := hcall
    have honly := appendNode_only j a ({ s with used := a :: s.used }.setNode a ⟨q, NULL⟩)
    rw [honly.proc]
    exact h.placed hq hnull hfresh j

theorem insertNextMlfqTail_placed (h : Queued s ls out) (hq : out q)
    (hcall : insertNextMlfqTail q a s = .ok s') :
    Placed q a (some (nextLevel (s.proc q).mlqlevel)) s s' ls out := by
  simp only [insertNextMlfqTail, bind_eq_ok, pure_eq_ok] at hcall
  obtain ⟨s₁, hnew, rfl⟩ := hcall
  obtain ⟨hnull, hfresh, rfl⟩ := newNode_ok hnew
  have honly := appendNode_only (nextLevel (({ s with used := a :: s.used }.setNode a
    ⟨q, NULL⟩).proc q).mlqlevel) a ({ s with used := a :: s.used }.setNode a ⟨q, NULL⟩)
  rw [honly.proc]
  exact h.placed hq hnull hfresh _

/-- A process is taken out, changed and put in again. -/
theorem Placed.moved {s₁ s₂ : SchedState}
    (h : Placed q a i s₂ s' (withoutNodes s ls q) fun r => out r ∨ r = q)
    (honly : QueuesOnly s s₁) (hproc : s₂.proc = update s₁.proc q t)
    (howner : s₂.owner = s₁.owner) (hmethod : s₂.method = s₁.method) :
    Moved q t a i s s' ls out where
  queued := h.queued
  proc := by
    rw [h.proc, hproc, honly.proc, update_self, update_idem]
  owner j b hb := (h.owner j b hb).trans ((congrFun howner b).trans (congrFun honly.owner b))
  placed := h.placed
  method := h.method.trans (hmethod.trans honly.method)

/-! ## Calls that leave the queues -/

/-- The queues and the policy are the same, every process is at its level, and none
has been freed. -/
structure Kept (s s' : SchedState) : Prop where
  queue : s'.queue = s.queue
  node : s'.node = s.node
  used : s'.used = s.used
  method : s'.method = s.method
  level : ∀ q, (s'.proc q).mlqlevel = (s.proc q).mlqlevel
  unused : ∀ q, (s'.proc q).state = .UNUSED → (s.proc q).state = .UNUSED

/-- In addition no process has been created, or changed its priority. -/
structure Steady (s s' : SchedState) : Prop extends Kept s s' where
  free : ∀ q, (s.proc q).state = .UNUSED → (s'.proc q).state = .UNUSED
  priority : ∀ q, (s'.proc q).state ≠ .UNUSED → (s'.proc q).priority = (s.proc q).priority

theorem Kept.queued (h : Kept s s') (hq : Queued s ls out) : Queued s' ls out :=
  hq.congr h.queue h.node h.used (fun _ => Iff.rfl) fun q _ => h.level q

theorem Kept.owner (h : Kept s s') : s'.owner = s.owner := by
  funext b
  simp only [SchedState.owner, h.node]

theorem Steady.refl (s : SchedState) : Steady s s :=
  ⟨⟨rfl, rfl, rfl, rfl, fun _ => rfl, fun _ => id⟩, fun _ => id, fun _ _ => rfl⟩

theorem Steady.trans {s'' : SchedState} (h : Steady s s') (h' : Steady s' s'') : Steady s s'' where
  queue := h'.queue.trans h.queue
  node := h'.node.trans h.node
  used := h'.used.trans h.used
  method := h'.method.trans h.method
  level q := (h'.level q).trans (h.level q)
  unused q hq := h.unused q (h'.unused q hq)
  free q hq := h'.free q (h.free q hq)
  priority q hq := (h'.priority q hq).trans (h.priority q fun hs => hq (h'.free q hs))

theorem kept_setProc (hlevel : t.mlqlevel = (s.proc p).mlqlevel)
    (hunused : t.state = .UNUSED → (s.proc p).state = .UNUSED) : Kept s (s.setProc p t) := by
  refine ⟨rfl, rfl, rfl, rfl, fun q => ?_, fun q => ?_⟩
  all_goals by_cases hq : q = p
  · rw [hq, SchedState.setProc_self, hlevel]
  · rw [SchedState.setProc_of_ne _ hq]
  · rw [hq, SchedState.setProc_self]
    exact hunused
  · rw [SchedState.setProc_of_ne _ hq]
    exact id

/-- A process is changed but for its level and its priority, and it stays in use. -/
theorem steady_setProc (hlevel : t.mlqlevel = (s.proc p).mlqlevel)
    (hunused : t.state = .UNUSED ↔ (s.proc p).state = .UNUSED)
    (hprio : t.state ≠ .UNUSED → t.priority = (s.proc p).priority) : Steady s (s.setProc p t) := by
  refine ⟨kept_setProc hlevel hunused.mp, fun q => ?_, fun q => ?_⟩
  all_goals by_cases hq : q = p
  · rw [hq, SchedState.setProc_self]
    exact hunused.mpr
  · rw [SchedState.setProc_of_ne _ hq]
    exact id
  · rw [hq, SchedState.setProc_self]
    exact hprio
  · rw [SchedState.setProc_of_ne _ hq]
    exact fun _ => rfl

/-- Some processes that were asleep are made runnable. -/
theorem steady_wake {P : Fin NPROC → Prop} [DecidablePred P]
    (hP : ∀ q, P q → (s.proc q).state = .SLEEPING) :
    Steady s { s with
      proc := fun q => if P q then { s.proc q with state := .RUNNABLE } else s.proc q } := by
  refine ⟨⟨rfl, rfl, rfl, rfl, fun q => ?_, fun q => ?_⟩, fun q => ?_, fun q => ?_⟩
  all_goals by_cases hq : P q
  all_goals simp [hq, hP]

theorem steady_wakeup (me chan : Fin NPROC) : Steady s (wakeup me chan s) :=
  steady_wake fun _ hq => hq.2.1

theorem steady_adopt (p : Fin NPROC) : Steady s (adopt p s) := by
  refine ⟨⟨rfl, rfl, rfl, rfl, fun q => ?_, fun q => ?_⟩, fun q => ?_, fun q => ?_⟩
  all_goals by_cases hq : (s.proc q).parent = some p
  all_goals simp [adopt, hq]

theorem steady_exit (hp : (s.proc p).state ≠ .UNUSED) (hcall : exit p s = .ok s') :
    Steady s s' := by
  simp only [Sched.exit] at hcall
  split at hcall
  · cases hcall
  have hreparent : Steady s (Sched.reparent p s) := by
    simp only [Sched.reparent]
    split
    · exact (steady_adopt p).trans (steady_wakeup ..)
    · exact steady_adopt p
  have hwake : Steady s (Sched.wakeParent p (Sched.reparent p s)) := by
    simp only [Sched.wakeParent]
    split
    · exact hreparent
    · exact hreparent.trans (steady_wakeup ..)
  cases hcall
  have hlive := fun hs => hp (hwake.unused p hs)
  exact hwake.trans (steady_setProc rfl (iff_of_false (by simp) hlive) fun _ => rfl)

theorem steady_kill (pid : ℤ) : Steady s (kill pid s) := by
  simp only [Sched.kill]
  split
  · exact .refl s
  · rename_i q _
    refine steady_setProc rfl ?_ fun _ => rfl
    by_cases hsleep : (s.proc q).state = .SLEEPING <;> simp [hsleep]

/-- `wait` frees a child, or returns or goes to sleep. -/
theorem wait_steady (hp : (s.proc p).state = .RUNNABLE ∨ (s.proc p).state = .RUNNING)
    (hcall : wait p s = .ok s') :
    Steady s s' ∨ ∃ pp s₁, ((s.proc pp).parent = some p ∧ (s.proc pp).state = .ZOMBIE) ∧
      Steady s s₁ ∧ freeproc pp s₁ = .ok s' := by
  set s₁ := s.setProc p { s.proc p with chan := none, place := .user } with hs₁
  have hself : s₁.proc p = { s.proc p with chan := none, place := .user } :=
    SchedState.setProc_self ..
  have hkept : Steady s s₁ := steady_setProc rfl Iff.rfl fun _ => rfl
  have hlive : (s.proc p).state ≠ .ZOMBIE ∧ (s.proc p).state ≠ .UNUSED := by
    rcases hp with hp | hp <;> simp [hp]
  simp only [Sched.wait, ← hs₁] at hcall
  split at hcall
  · rename_i pp hfirst
    have hpp := firstProc_spec hfirst
    rw [decide_eq_true_eq] at hpp
    have hne : pp ≠ p := by
      rintro rfl
      rw [hself] at hpp
      exact hlive.1 hpp.2
    rw [show s₁.proc pp = s.proc pp from SchedState.setProc_of_ne _ hne _] at hpp
    exact Or.inr ⟨pp, s₁, hpp, hkept, hcall⟩
  · split at hcall
    · rw [← Except.ok.inj hcall]
      exact Or.inl hkept
    · rw [← Except.ok.inj hcall]
      refine Or.inl (hkept.trans (steady_setProc rfl (iff_of_false (by simp) ?_) fun _ => rfl))
      rw [hself]
      exact hlive.2

/-! ## The calls -/

theorem yield_moved (h : Queued s ls out) (hm : s.method = .SCHED_MLFQ)
    (hcall : yield p a s = .ok s') :
    Moved p { s.proc p with state := .RUNNABLE } a (some (nextLevel (s.proc p).mlqlevel)) s s'
      ls out := by
  have hrun : Queued (s.setProc p { s.proc p with state := .RUNNABLE }) ls out := by
    refine h.congr rfl rfl rfl (fun _ => Iff.rfl) fun r _ => ?_
    by_cases hr : r = p <;> simp [SchedState.setProc, hr]
  have hm' : (s.setProc p { s.proc p with state := .RUNNABLE }).method = .SCHED_MLFQ := hm
  simp only [Sched.yield, hm', bind_eq_ok] at hcall
  obtain ⟨s₁, hremove, hinsert⟩ := hcall
  obtain ⟨honly, hqueued⟩ := removeMlfq_queued hrun hremove
  have hplaced := insertNextMlfqTail_placed hqueued (Or.inr rfl) hinsert
  have hself : s₁.proc p = { s.proc p with state := .RUNNABLE } := by
    rw [honly.proc]
    exact update_self ..
  have hlists : withoutNodes (s.setProc p { s.proc p with state := .RUNNABLE }) ls p =
      withoutNodes s ls p := rfl
  rw [hself, hlists] at hplaced
  refine ⟨hplaced.queued, ?_, fun j b hb => ?_, hplaced.placed, ?_⟩
  · rw [hplaced.proc, hself, honly.proc]
    exact update_idem ..
  · exact (hplaced.owner j b hb).trans (congrFun honly.owner b)
  · exact hplaced.method.trans honly.method

/-- Under the policy of the queues `set_priority` finds nobody, or moves a process
that has a node. -/
theorem setPriority_moved {pid priority r : ℤ} (h : Queued s ls out) (hm : s.method = .SCHED_MLFQ)
    (hcall : setPriority pid priority a s = .ok (r, s')) :
    (List.finRange NMLFQ).findSome? (findInQueue pid s) = none ∧ s' = s ∨
      ∃ q, (List.finRange NMLFQ).findSome? (findInQueue pid s) = some q ∧ ¬ out q ∧
        Moved q { s.proc q with priority := priority } a (levelOf priority) s s' ls out := by
  simp only [Sched.setPriority, hm] at hcall
  split at hcall
  · rename_i hfind
    cases hcall
    exact Or.inl ⟨hfind, rfl⟩
  · rename_i q hfind
    refine Or.inr ⟨q, hfind, (h.find hfind).1, ?_⟩
    simp only [bind_eq_ok, pure_eq_ok, Prod.mk.injEq] at hcall
    obtain ⟨s₁, hremove, ⟨level, s₂⟩, hinsert, -, rfl⟩ := hcall
    obtain ⟨honly, hqueued⟩ := removeMlfq_queued h hremove
    have hset : Queued (s₁.setProc q { s₁.proc q with priority := priority })
        (withoutNodes s ls q) fun r => out r ∨ r = q := by
      refine hqueued.congr rfl rfl rfl (fun _ => Iff.rfl) fun r _ => ?_
      by_cases hr : r = q <;> simp [SchedState.setProc, hr]
    have hplaced := insertMlfq_placed hset (Or.inr rfl) hinsert
    have hprio : ((s₁.setProc q { s₁.proc q with priority := priority }).proc q).priority =
        priority := by
      simp [SchedState.setProc]
    rw [hprio] at hplaced
    refine hplaced.moved honly ?_ rfl rfl
    simp only [SchedState.setProc, honly.proc]

/-- The process that `fork` or `vfork` creates. -/
def newTask (s : SchedState) (np p : Fin NPROC) (vfork : Bool) : Task :=
  childTask ((allocTask np s).proc np) ((allocTask np s).proc p) p vfork

/-- Where a process of the priority of `p` is put. -/
def forkLevel (s : SchedState) (p : Fin NPROC) : Option (Fin NMLFQ) :=
  if s.method = .SCHED_MLFQ then levelOf (s.proc p).priority else none

theorem newTask_priority {np : Fin NPROC} (hne : p ≠ np) :
    (newTask s np p vfork).priority = (s.proc p).priority := by
  simp [newTask, childTask, allocTask, SchedState.setProc, hne]

theorem allocTask_setProc (np : Fin NPROC) (t : Task) :
    ((allocTask np s).setProc np t).proc = update s.proc np t :=
  update_idem ..

/-- A slot that is in no queue is filled. -/
theorem Queued.fill {np : Fin NPROC} (h : Queued s ls out) (hout : out np)
    (hproc : s'.proc = update s.proc np t) (hqueue : s'.queue = s.queue)
    (hnode : s'.node = s.node) (hused : s'.used = s.used) : Queued s' ls out := by
  refine h.congr hqueue hnode hused (fun _ => Iff.rfl) fun q hq => ?_
  have hne : q ≠ np := fun heq => hq (heq ▸ hout)
  rw [hproc, update_of_ne hne]

/-- Without memory for the new process its slot is as it was. -/
theorem allocTask_freeproc {np : Fin NPROC} (h : Queued s ls out) (hout : out np)
    (hnp : (s.proc np).state = .UNUSED) (hcall : freeproc np (allocTask np s) = .ok s') :
    Steady s s' ∧ ∀ q, (s'.proc q).state ≠ .UNUSED → s'.proc q = s.proc q := by
  simp only [Sched.freeproc, dequeue, bind_eq_ok, pure_eq_ok] at hcall
  obtain ⟨s₁, hremove, rfl⟩ := hcall
  have halloc : Queued (allocTask np s) ls out := h.fill hout rfl rfl rfl rfl
  have hsame : s₁ = allocTask np s := by
    split at hremove
    · exact halloc.remove_absent hout hremove
    · exact (Except.ok.inj hremove).symm
  subst hsame
  have hsteady : Steady s (s.setProc np ((allocTask np s).proc np).reset) :=
    steady_setProc (by simp [allocTask, SchedState.setProc, Task.reset]) (iff_of_true rfl hnp)
      fun hne => absurd rfl hne
  have hproc : ((allocTask np s).setProc np ((allocTask np s).proc np).reset).proc =
      (s.setProc np ((allocTask np s).proc np).reset).proc := allocTask_setProc ..
  refine ⟨⟨⟨rfl, rfl, rfl, rfl, ?_, ?_⟩, ?_, ?_⟩, fun q hq => ?_⟩
  all_goals rw [hproc] at *
  · exact hsteady.level
  · exact hsteady.unused
  · exact hsteady.free
  · exact hsteady.priority
  · refine SchedState.setProc_of_ne _ (fun heq => hq ?_) _
    rw [heq, SchedState.setProc_self]
    rfl

/-- A process without a node gets one under the policy of the queues. -/
theorem enqueue_placed (h : Queued s ls out) (hout : out q) (hcall : enqueue q a s = .ok s') :
    Placed q a (forkLevel s q) s s' ls out := by
  simp only [enqueue] at hcall
  split at hcall
  · rename_i hm
    simp only [bind_eq_ok, pure_eq_ok] at hcall
    obtain ⟨⟨level, s₁⟩, hinsert, rfl⟩ := hcall
    rw [forkLevel, if_pos hm]
    exact insertMlfq_placed h hout hinsert
  · rename_i hm
    cases hcall
    rw [forkLevel, if_neg hm]
    refine ⟨h.congr rfl rfl rfl (fun r => ?_) (fun _ _ => rfl), ?_, fun _ _ _ => rfl, by simp, rfl⟩
    · simp
    · exact (update_eq_self ..).symm

/-- A process that had no node is put into a queue. -/
theorem Placed.moved_of_absent {s₁ : SchedState} (h : Placed q a i s₁ s' ls out)
    (hq : Queued s ls out) (hout : out q) (hproc : s₁.proc = update s.proc q t)
    (howner : s₁.owner = s.owner) (hmethod : s₁.method = s.method) :
    Moved q t a i s s' ls out := by
  have hsame : (fun r => out r ∨ r = q) = out := by
    funext r
    exact propext (or_iff_left_of_imp fun heq => heq ▸ hout)
  have hplaced : Placed q a i s₁ s' (withoutNodes s ls q) fun r => out r ∨ r = q := by
    rw [hsame, withoutNodes_absent hq hout]
    exact h
  exact hplaced.moved ⟨rfl, rfl, rfl, rfl⟩ hproc howner hmethod

/-- `fork` creates nobody, or a process in a slot that was unused. -/
theorem forkWith_placed {r : Option (Fin NPROC)} {memory : Bool} (h : Queued s ls out)
    (hunused : ∀ q, (s.proc q).state = .UNUSED → out q) (hp : (s.proc p).state ≠ .UNUSED)
    (hcall : forkWith p a memory vfork s = .ok (r, s')) :
    (r = none ∧ Steady s s' ∧ ∀ q, (s'.proc q).state ≠ .UNUSED → s'.proc q = s.proc q) ∨
      ∃ np, r = some np ∧ (s.proc np).state = .UNUSED ∧
        Moved np (newTask s np p vfork) a (forkLevel s p) s s' ls out := by
  simp only [Sched.forkWith] at hcall
  split at hcall
  · cases hcall
    exact Or.inl ⟨rfl, .refl s, fun _ _ => rfl⟩
  rename_i np hfirst
  have hnp : (s.proc np).state = .UNUSED := by simpa using firstProc_spec hfirst
  have hne : p ≠ np := fun heq => hp (heq ▸ hnp)
  have hout := hunused np hnp
  split at hcall
  · simp only [bind_eq_ok, pure_eq_ok, Prod.mk.injEq] at hcall
    obtain ⟨s₁, hinsert, rfl, rfl⟩ := hcall
    have hproc : ((allocTask np s).setProc np (newTask s np p vfork)).proc =
        update s.proc np (newTask s np p vfork) := allocTask_setProc ..
    have hplaced := enqueue_placed (h.fill hout hproc rfl rfl rfl) hout hinsert
    have hlevel : forkLevel ((allocTask np s).setProc np (newTask s np p vfork)) np =
        forkLevel s p := by
      rw [forkLevel, hproc, update_self, newTask_priority hne]
      rfl
    rw [hlevel] at hplaced
    exact Or.inr ⟨np, rfl, hnp, hplaced.moved_of_absent h hout hproc rfl rfl⟩
  · simp only [bind_eq_ok, pure_eq_ok, Prod.mk.injEq] at hcall
    obtain ⟨s₁, hfree, rfl, rfl⟩ := hcall
    exact Or.inl ⟨rfl, allocTask_freeproc h hout hnp hfree⟩

/-! ## What a call does to the queues -/

/-- The processes whose nodes a call may take out of the queues. -/
def SchedOp.Moves (op : SchedOp) (s : SchedState) (q : Fin NPROC) : Prop :=
  match op with
  | .yield p _ => q = p
  | .fork .. | .vfork .. => (s.proc q).state = .UNUSED
  | .setPriority _ pid _ _ => (s.proc q).pid = pid
  | .wait p => (s.proc q).parent = some p ∧ (s.proc q).state = .ZOMBIE
  | _ => False

/-- What a call makes of the process that it moves: it gets no queue if it is freed or
has a priority without a queue, and its priority is that of a process or is set by the
call. -/
structure Assigned (op : SchedOp) (s : SchedState) (t : Task) (j : Option (Fin NMLFQ)) : Prop where
  unused : t.state = .UNUSED → j = none
  level : t.state ≠ .UNUSED → j = none → maxPriority < t.priority
  priority : t.state ≠ .UNUSED → (∃ r, (s.proc r).state ≠ .UNUSED ∧
    t.priority = (s.proc r).priority) ∨ ∃ p pid a, op = .setPriority p pid t.priority a

/-- A call keeps the queues, or takes out the nodes of one process and puts a new
one at the end of some queue. -/
inductive Effect (op : SchedOp) (s s' : SchedState) (ls : Fin NMLFQ → List ℕ)
    (out : Fin NPROC → Prop) : Prop
  | kept (h : Steady s s')
  | moved {q : Fin NPROC} {t : Task} {a : ℕ} {j : Option (Fin NMLFQ)} {s₁ s₂ : SchedState}
      (hq : op.Moves s q) (hbefore : Steady s s₁) (h : Moved q t a j s₁ s₂ ls out)
      (ht : Assigned op s t j) (hafter : Steady s₂ s')

theorem Moved.effect {op : SchedOp} (h : Moved q t a i s s' ls out)
    (hq : op.Moves s q) (ht : Assigned op s t i) : Effect op s s' ls out :=
  .moved hq (.refl s) h ht (.refl s')

theorem Effect.steady {op : SchedOp} {s'' : SchedState} (h : Effect op s s' ls out)
    (hs : Steady s' s'') : Effect op s s'' ls out := by
  cases h with
  | kept h => exact .kept (h.trans hs)
  | moved hq hbefore h ht hafter => exact .moved hq hbefore h ht (hafter.trans hs)

/-- The caller is in use after the call if it was before. -/
theorem Effect.live {op : SchedOp} (h : Effect op s s' ls out) (hp : (s.proc p).state ≠ .UNUSED)
    (hmoves : ¬ op.Moves s p) : (s'.proc p).state ≠ .UNUSED := by
  cases h with
  | kept h => exact fun hs => hp (h.unused p hs)
  | @moved q _ _ _ _ _ hq hbefore h ht hafter =>
    intro hs
    have hpq : p ≠ q := fun heq => hmoves (heq ▸ hq)
    have hmid := hafter.unused p hs
    rw [h.proc, update_of_ne hpq] at hmid
    exact hp (hbefore.unused p hmid)

/-- A process that is freed is taken out of its queue. -/
theorem freeproc_moved (h : Queued s ls out) (hm : s.method = .SCHED_MLFQ)
    (hcall : freeproc q s = .ok s') : Moved q (s.proc q).reset a none s s' ls out := by
  simp only [Sched.freeproc, dequeue, hm, if_true, bind_eq_ok, pure_eq_ok] at hcall
  obtain ⟨s₁, hremove, rfl⟩ := hcall
  obtain ⟨honly, hqueued⟩ := removeMlfq_queued h hremove
  refine ⟨?_, ?_, fun k b _ => congrFun honly.owner b, (by simp), honly.method⟩
  · refine hqueued.congr rfl rfl rfl (fun r => ?_) fun r hr => ?_
    · simp
    · have hrq : r ≠ q := fun heq => hr (Or.inr heq)
      simp [SchedState.setProc, hrq]
  · simp only [SchedState.setProc, honly.proc, Task.atLevel]

theorem wait_effect (h : Queued s ls out) (hm : s.method = .SCHED_MLFQ)
    (hp : (s.proc p).state = .RUNNABLE ∨ (s.proc p).state = .RUNNING)
    (hcall : wait p s = .ok s') : Effect (.wait p) s s' ls out := by
  rcases wait_steady hp hcall with hs | ⟨pp, s₁, hpp, hs, hfree⟩
  · exact .kept hs
  · have hmoved := freeproc_moved (a := 0) (hs.queued h) (hs.method.trans hm) hfree
    exact .moved hpp hs hmoved ⟨fun _ => rfl, fun hne => absurd rfl hne, fun hne => absurd rfl hne⟩
      (.refl s')

theorem forkWith_effect {op : SchedOp} {r : Option (Fin NPROC)} {memory : Bool}
    (h : Queued s ls out) (hm : s.method = .SCHED_MLFQ)
    (hunused : ∀ q, (s.proc q).state = .UNUSED → out q)
    (hp : (s.proc p).state ≠ .UNUSED) (hop : ∀ q, op.Moves s q ↔ (s.proc q).state = .UNUSED)
    (hcall : forkWith p a memory vfork s = .ok (r, s')) : Effect op s s' ls out := by
  rcases forkWith_placed h hunused hp hcall with ⟨-, hs, -⟩ | ⟨np, -, hnp, hmoved⟩
  · exact .kept hs
  · have hne : p ≠ np := fun heq => hp (heq ▸ hnp)
    have hprio : (newTask s np p vfork).priority = _ := newTask_priority hne
    refine hmoved.effect ((hop np).mpr hnp) ⟨(by simp [newTask, childTask]), fun _ hlevel => ?_,
      fun _ => ?_⟩
    · rw [forkLevel, if_pos hm] at hlevel
      rw [hprio]
      exact levelOf_eq_none_iff.mp hlevel
    · exact Or.inl ⟨p, hp, hprio⟩

/-- What a call other than `chrt` does under the policy of the queues. -/
theorem schedStep_effect {op : SchedOp} (h : Queued s ls out) (hm : s.method = .SCHED_MLFQ)
    (hunused : ∀ q, (s.proc q).state = .UNUSED → out q) (hop : ∀ p type, op ≠ .chrt p type)
    (hstep : SchedStep s op s') : Effect op s s' ls out := by
  obtain ⟨hready, hcall⟩ := hstep
  have hlive := SchedOp.live_of_ready hready
  cases op with
  | fork p a memory =>
    simp only [execOp, Sched.fork, bind_eq_ok, pure_eq_ok] at hcall
    obtain ⟨⟨r, s₁⟩, hfork, rfl⟩ := hcall
    exact forkWith_effect h hm hunused hlive (fun _ => Iff.rfl) hfork
  | vfork p a memory =>
    simp only [execOp, Sched.vfork, bind_eq_ok] at hcall
    obtain ⟨⟨r, s₁⟩, hfork, hcall⟩ := hcall
    have heffect : Effect (.vfork p a memory) s s₁ ls out :=
      forkWith_effect h hm hunused hlive (fun _ => Iff.rfl) hfork
    cases r with
    | none =>
      cases hcall
      exact heffect
    | some np =>
      cases hcall
      have hlive₁ : (s₁.proc p).state ≠ .UNUSED := heffect.live hlive hlive
      exact heffect.steady (steady_setProc rfl (iff_of_false (by simp) hlive₁) fun _ => rfl)
  | vforkReturn p | exec p =>
    cases hcall
    exact .kept (steady_setProc rfl Iff.rfl fun _ => rfl)
  | exit p => exact .kept (steady_exit hlive hcall)
  | wait p =>
    simp only [SchedOp.ready, Bool.and_eq_true, decide_eq_true_eq] at hready
    exact wait_effect h hm hready.1 hcall
  | kill p pid =>
    cases hcall
    exact .kept (steady_kill pid)
  | yield p a =>
    exact (yield_moved h hm hcall).effect rfl ⟨by simp, by simp,
      fun _ => Or.inl ⟨p, hlive, rfl⟩⟩
  | setPriority p pid priority a =>
    simp only [execOp, bind_eq_ok, pure_eq_ok] at hcall
    obtain ⟨⟨r, s₁⟩, hset, rfl⟩ := hcall
    rcases setPriority_moved h hm hset with ⟨-, rfl⟩ | ⟨q, hfind, hin, hmoved⟩
    · exact .kept (.refl _)
    · exact hmoved.effect (h.find hfind).2 ⟨fun hq => absurd (hunused q hq) hin,
        fun _ hj => levelOf_eq_none_iff.mp hj, fun _ => Or.inr ⟨p, pid, a, rfl⟩⟩
  | chrt p type => exact absurd rfl (hop p type)

/-! ## The first process -/

/-- The state in which `userinit` inserts the first process. -/
def beforeInsert : SchedState :=
  { (allocTask 0 initSched).setProc 0 { (allocTask 0 initSched).proc 0 with state := .RUNNABLE }
    with initproc := 0 }

theorem beforeInsert_state (hp : p ≠ 0) : (beforeInsert.proc p).state = .UNUSED := by
  simp [beforeInsert, allocTask, SchedState.setProc, hp, initSched, Task.unused]

theorem userinit_placed (h : userinit a initSched = .ok s) :
    Placed 0 a (some 0) beforeInsert s (fun _ => []) fun _ => True := by
  have hfirst : initSched.firstProc (fun t => t.state = .UNUSED) = some 0 := by decide
  simp only [userinit, hfirst, bind_eq_ok, pure_eq_ok] at h
  obtain ⟨⟨r, s₁⟩, hinsert, rfl⟩ := h
  have hempty : Queues beforeInsert fun _ => [] :=
    ⟨fun _ => rfl, fun _ => rfl, fun _ => List.nodup_nil, by simp, by simp⟩
  have hq : Queued beforeInsert (fun _ => []) fun _ => True :=
    ⟨hempty, fun q hq => absurd trivial hq, by simp, by simp⟩
  have hlevel : levelOf (beforeInsert.proc 0).priority = some 0 := by decide
  have hplaced := insertMlfq_placed hq trivial hinsert
  rw [hlevel] at hplaced
  exact hplaced

end LearnOS.Sched
