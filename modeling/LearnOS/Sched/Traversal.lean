import LearnOS.Sched.Dispatch

/-!
# The pointer that the scheduler saves

While a process runs, the traversal of a queue hangs on the pointer to the next
node that was read before the switch. The pointer stays good for as long as nobody
takes that node out of its queue: `yield` takes out the node of the running process
only, but `set_priority` and `wait` take out nodes of others.
-/

namespace LearnOS.Sched

open LearnOS LinkedList Transition Function Kres

variable {s s' : SchedState} {ls : Fin NMLFQ → List ℕ} {p q : Fin NPROC} {i : Fin NMLFQ}
  {j : Option (Fin NMLFQ)} {a : ℕ} {out : Fin NPROC → Prop} {c c' : Cpu}

/-- The node that the traversal is about to visit is linked in its queue. -/
def FollowsLinked (c : Cpu) : Prop :=
  ∀ i node, c.pos = .mlfq i node →
    node = NULL ∨ ∃ l, Seg NULL c.s.next (c.s.queue i).head l NULL ∧ node ∈ l

/-- No call that takes out the node which is to be visited next, and no change of the
policy. -/
def SparesSuccessor (c : Cpu) : CpuEvent → Prop
  | .call (.chrt ..) => False
  | .call (.setPriority _ pid _ _) =>
    c.pos.saved = NULL ∨ (c.s.proc (c.s.owner c.pos.saved)).pid ≠ pid
  | .call (.wait p) =>
    c.pos.saved = NULL ∨ ¬ ((c.s.proc (c.s.owner c.pos.saved)).parent = some p ∧
      (c.s.proc (c.s.owner c.pos.saved)).state = .ZOMBIE)
  | _ => True

instance (c : Cpu) (e : CpuEvent) : Decidable (SparesSuccessor c e) :=
  match e with
  | .call (.chrt ..) => .isFalse id
  | .call (.setPriority _ pid _ _) =>
    inferInstanceAs (Decidable (c.pos.saved = NULL ∨
      (c.s.proc (c.s.owner c.pos.saved)).pid ≠ pid))
  | .call (.wait p) =>
    inferInstanceAs (Decidable (c.pos.saved = NULL ∨
      ¬ ((c.s.proc (c.s.owner c.pos.saved)).parent = some p ∧
        (c.s.proc (c.s.owner c.pos.saved)).state = .ZOMBIE)))
  | .scan | .sleep _ | .wake _ | .call (.fork ..) | .call (.vfork ..) | .call (.vforkReturn _)
  | .call (.exec _) | .call (.exit _) | .call (.kill ..) | .call (.yield ..) => .isTrue trivial

/-! ## The position in a queue -/

/-- The queue splits into the nodes before the one that is visited next, which meet a
condition, and the rest. -/
def AtNode (s : SchedState) (ls : Fin NMLFQ → List ℕ) (ok : Fin NMLFQ → List ℕ → Prop) :
    Pos → Prop
  | .top => True
  | .rr _ | .rrRun _ => False
  | .mlfq i node => ∃ pre suf, ls i = pre ++ suf ∧ ok i pre ∧ node = suf.head?.getD NULL
  | .mlfqRun i next p =>
    ∃ pre suf, ls i = pre ++ suf ∧ ok i pre ∧ next = suf.head?.getD NULL ∧
      ∀ b ∈ suf.head?, s.owner b ≠ p

variable {ok ok' : Fin NMLFQ → List ℕ → Prop} {pos : Pos}

theorem AtNode.resume (h : AtNode s ls ok pos) : AtNode s ls ok pos.resume := by
  cases pos with
  | mlfqRun i next p =>
    obtain ⟨pre, suf, hl, hok, hnext, -⟩ := h
    exact ⟨pre, suf, hl, hok, hnext⟩
  | _ => exact h

theorem AtNode.congr (h : AtNode s ls ok pos) (howner : s'.owner = s.owner)
    (himp : ∀ i pre, pos.level = some i → pre ⊆ ls i → ok i pre → ok' i pre) :
    AtNode s' ls ok' pos := by
  cases pos with
  | mlfq i node =>
    obtain ⟨pre, suf, hl, hok, hnode⟩ := h
    exact ⟨pre, suf, hl, himp i pre rfl (hl ▸ List.subset_append_left ..) hok, hnode⟩
  | mlfqRun i next p =>
    obtain ⟨pre, suf, hl, hok, hnext, hne⟩ := h
    refine ⟨pre, suf, hl, himp i pre rfl (hl ▸ List.subset_append_left ..) hok, hnext, ?_⟩
    rw [howner]
    exact hne
  | _ => exact h

theorem Queued.head_eq (h : Queued s ls out) (i : Fin NMLFQ) :
    (s.queue i).head = (ls i).head?.getD NULL :=
  (h.queues.linked i).head_eq

/-- The traversal goes on from a node to its successor, which belongs to another
process. -/
theorem Queued.advance {pre suf : List ℕ} {node : ℕ} (h : Queued s ls out)
    (hl : ls i = pre ++ suf) (hnode : node = suf.head?.getD NULL) (hnull : node ≠ NULL) :
    ∃ suf', suf = node :: suf' ∧ ls i = (pre ++ [node]) ++ suf' ∧
      s.next node = suf'.head?.getD NULL ∧ ∀ x ∈ suf', s.owner x ≠ s.owner node := by
  cases suf with
  | nil => exact absurd hnode hnull
  | cons b suf =>
    obtain rfl : node = b := hnode
    have hlinked := h.queues.linked i
    have hnodup := h.queues.nodup i
    rw [hl] at hlinked hnodup
    obtain ⟨x, -, -, -, hsuf⟩ := seg_append.mp hlinked
    refine ⟨suf, rfl, by simp [hl], hsuf.head_eq, fun x hx heq => ?_⟩
    have hxb : x = node := h.once i x (by simp [hl, hx]) node (by simp [hl]) heq
    have hcons := (List.nodup_append.mp hnodup).2.1
    exact (List.nodup_cons.mp hcons).1 (hxb ▸ hx)

/-- The nodes of a process that is not the next one are taken out, and a new one is
put at an end. -/
theorem split_placeAt {pre suf : List ℕ} (hl : ls i = pre ++ suf)
    (hq : ∀ b ∈ suf.head?, s.owner b ≠ q) :
    ∃ pre' suf', placeAt (withoutNodes s ls q) j a i = pre' ++ suf' ∧ suf'.head? = suf.head? ∧
      ∀ b ∈ pre', b ∈ pre ∧ s.owner b ≠ q ∨ b = a ∧ j = some i ∧ suf = [] := by
  cases suf with
  | nil =>
    refine ⟨_, [], (List.append_nil _).symm, rfl, fun b hb => ?_⟩
    rcases mem_placeAt.mp hb with hb | ⟨rfl, hj⟩
    · rw [mem_withoutNodes, hl, List.append_nil] at hb
      exact Or.inl hb
    · exact Or.inr ⟨rfl, hj, rfl⟩
  | cons x suf =>
    have hx : s.owner x ≠ q := hq x rfl
    have hfilter : withoutNodes s ls q i = pre.filter (fun b => s.owner b ≠ q) ++
        x :: suf.filter fun b => s.owner b ≠ q := by
      simp [withoutNodes, hl, List.filter_append, hx]
    have hpre : ∀ b ∈ pre.filter (fun b => s.owner b ≠ q), b ∈ pre ∧ s.owner b ≠ q ∨
        b = a ∧ j = some i ∧ x :: suf = [] := by
      intro b hb
      exact Or.inl (by simpa using hb)
    by_cases hj : j = some i
    · refine ⟨_, x :: (suf.filter fun b => s.owner b ≠ q) ++ [a], ?_, rfl, hpre⟩
      simp [hj, placeAt, appended, hfilter]
    · refine ⟨_, x :: suf.filter fun b => s.owner b ≠ q, ?_, rfl, hpre⟩
      cases j with
      | none => exact hfilter
      | some l =>
        have hli : i ≠ l := fun heq => hj (heq ▸ rfl)
        simp only [placeAt, appended, update_of_ne hli]
        exact hfilter

/-! ## The invariant -/

/-- The traversal stands at a node of the lists, and `ok` holds of what it has passed. -/
structure Traversing (c : Cpu) (ls : Fin NMLFQ → List ℕ) (out : Fin NPROC → Prop)
    (ok : Fin NMLFQ → List ℕ → Prop) : Prop where
  queued : Queued c.s ls out
  method : c.s.method = .SCHED_MLFQ
  unused : ∀ q, (c.s.proc q).state = .UNUSED → out q
  at_node : AtNode c.s ls ok c.pos

theorem Traversing.followsLinked (h : Traversing c ls out ok) : FollowsLinked c := by
  intro i node hpos
  have hat := h.at_node
  rw [hpos] at hat
  obtain ⟨pre, suf, hl, -, hnode⟩ := hat
  cases suf with
  | nil => exact Or.inl hnode
  | cons b suf =>
    refine Or.inr ⟨ls i, h.queued.queues.linked i, ?_⟩
    rw [hl, hnode]
    simp

/-- The saved node belongs to another process than the one that runs. -/
theorem Traversing.saved (h : Traversing c ls out ok) (hrun : c.pos.running = some p)
    (hnull : c.pos.saved ≠ NULL) :
    ¬ out (c.s.owner c.pos.saved) ∧ c.s.owner c.pos.saved ≠ p := by
  have hat := h.at_node
  cases hc : c.pos with
  | mlfqRun i next r =>
    rw [hc] at hat hrun hnull
    obtain rfl : r = p := Option.some.inj hrun
    obtain ⟨pre, suf, hl, -, hnext, hne⟩ := hat
    cases suf with
    | nil => exact absurd hnext hnull
    | cons b suf =>
      obtain rfl : next = b := hnext
      exact ⟨(h.queued.level i next (by simp [hl])).1, hne next rfl⟩
  | _ =>
    rw [hc] at hnull
    exact absurd rfl hnull

theorem Traversing.kept (h : Traversing c ls out ok) (hkept : Kept c.s c'.s)
    (hpos : c'.pos = c.pos ∨ c'.pos = c.pos.resume)
    (himp : ∀ i pre, c.pos.level = some i → pre ⊆ ls i → ok i pre → ok' i pre) :
    Traversing c' ls out ok' := by
  refine ⟨hkept.queued h.queued, hkept.method.trans h.method,
    fun q hq => h.unused q (hkept.unused q hq), ?_⟩
  have hat := h.at_node.congr hkept.owner himp
  rcases hpos with hpos | hpos
  · rw [hpos]
    exact hat
  · rw [hpos]
    exact hat.resume

/-- A process is moved while another one runs, whose saved node stays. -/
theorem Traversing.moved {t : Task} (h : Traversing c ls out ok)
    (hmoved : Moved q t a j c.s c'.s ls out) (ht : t.state = .UNUSED → j = none)
    (hq : c.pos.saved = NULL ∨ c.s.owner c.pos.saved ≠ q)
    (hrun : c.pos.running = some p) (hpos : c'.pos = c.pos)
    (himp : ∀ i pre pre', c.pos.level = some i → pre ⊆ ls i → ok i pre →
      (∀ b ∈ pre', b ∈ pre ∧ c.s.owner b ≠ q ∨ b = a ∧ j = some i ∧ c.pos.saved = NULL) →
        ok' i pre') :
    Traversing c' (placeAt (withoutNodes c.s ls q) j a)
      (fun r => (out r ∨ r = q) ∧ (r = q → j = none)) ok' := by
  refine ⟨hmoved.queued, hmoved.method.trans h.method, fun r hr => ?_, ?_⟩
  · rw [hmoved.proc] at hr
    by_cases hrq : r = q
    · rw [hrq, update_self, Task.atLevel_state] at hr
      exact ⟨Or.inr hrq, fun _ => ht hr⟩
    · rw [update_of_ne hrq] at hr
      exact ⟨Or.inl (h.unused r hr), fun heq => absurd heq hrq⟩
  · have hat := h.at_node
    rw [hpos]
    cases hc : c.pos with
    | mlfqRun i next p =>
      rw [hc] at hat hq himp
      obtain ⟨pre, suf, hl, hok, hnext, hne⟩ := hat
      have hhead : ∀ b ∈ suf.head?, c.s.owner b ≠ q := by
        intro b hb
        have hb' : suf.head? = some b := hb
        rw [hb', Option.getD_some] at hnext
        have hnull : b ≠ NULL := by
          refine (h.queued.queues.linked i).ne_null b ?_
          rw [hl]
          exact List.mem_append_right _ (List.mem_of_mem_head? hb)
        rcases hq with hq | hq
        · exact absurd (hnext.symm.trans hq) hnull
        · rw [← hnext]
          exact hq
      obtain ⟨pre', suf', hl', hhead', hpre⟩ := split_placeAt (j := j) (a := a) hl hhead
      refine ⟨pre', suf', hl', ?_, ?_, fun b hb => ?_⟩
      · refine himp i pre pre' rfl (hl ▸ List.subset_append_left ..) hok fun b hb => ?_
        rcases hpre b hb with hb | ⟨hb, hj, rfl⟩
        · exact Or.inl hb
        · exact Or.inr ⟨hb, hj, hnext⟩
      · rw [hhead']
        exact hnext
      · rw [hhead'] at hb
        have hmem : b ∈ withoutNodes c.s ls q i := by
          rw [mem_withoutNodes, hl]
          exact ⟨List.mem_append_right _ (List.mem_of_mem_head? hb), hhead b hb⟩
        rw [hmoved.owner i b hmem]
        exact hne b hb
    | rrRun i =>
      rw [hc] at hat
      exact hat
    | _ =>
      rw [hc] at hrun
      cases hrun

/-- One turn of the loops of `scheduler`: a pass begins, a queue ends, or a node is
visited. -/
theorem Traversing.scan (h : Traversing c ls out ok) (hscan : c.scan = .ok c')
    (hfirst : c'.s = c.s → ok' 0 [])
    (hqueue : ∀ (i : Fin NMLFQ) (hi : (i : ℕ) + 1 < NMLFQ), c'.s = c.s → ok i (ls i) →
      ok' ⟨i + 1, hi⟩ [])
    (hvisit : ∀ i pre node, node ∈ ls i → ok i pre →
      c'.s = c.s ∧ (c.s.proc (c.s.owner node)).state ≠ .RUNNABLE ∨
        c'.s = c.dispatch (c.s.owner node) → ok' i (pre ++ [node])) :
    Traversing c' ls out ok' := by
  have hat := h.at_node
  cases hc : c.pos with
  | top =>
    simp only [Cpu.scan, hc, h.method, Except.ok.injEq] at hscan
    subst hscan
    exact ⟨h.queued, h.method, h.unused, [], ls 0, rfl, hfirst rfl, h.queued.head_eq 0⟩
  | mlfq i node =>
    rw [hc] at hat
    obtain ⟨pre, suf, hl, hok, hnode⟩ := hat
    rcases Cpu.scan_mlfq hc hscan with ⟨hnull, rfl⟩ | ⟨hnull, -, rfl⟩ | ⟨hnull, hrun, rfl⟩
    · have hpre : ls i = pre := by
        cases suf with
        | nil => simpa using hl
        | cons b suf =>
          have hb := (h.queued.queues.linked i).ne_null b (by simp [hl])
          exact absurd (hnode.symm.trans hnull) hb
      refine ⟨h.queued, h.method, h.unused, ?_⟩
      simp only [Cpu.afterQueue]
      split
      · rename_i hi
        exact ⟨[], _, rfl, hqueue i hi rfl (hpre ▸ hok), h.queued.head_eq _⟩
      · trivial
    · obtain ⟨suf', -, hl', hnext, howner⟩ := h.queued.advance hl hnode hnull
      have hkept : Kept c.s (c.dispatch (c.s.owner node)) := kept_setProc rfl fun ht => by cases ht
      exact ⟨hkept.queued h.queued, h.method, fun q hq => h.unused q (hkept.unused q hq),
        pre ++ [node], suf', hl', hvisit i pre node (by simp [hl']) hok (Or.inr rfl), hnext,
        fun x hx => howner x (List.mem_of_mem_head? hx)⟩
    · obtain ⟨suf', -, hl', hnext, -⟩ := h.queued.advance hl hnode hnull
      exact ⟨h.queued, h.method, h.unused, pre ++ [node], suf', hl',
        hvisit i pre node (by simp [hl']) hok (Or.inl ⟨rfl, hrun⟩), hnext⟩
  | rr i =>
    rw [hc] at hat
    exact absurd hat id
  | _ =>
    simp only [Cpu.scan, hc] at hscan
    cases hscan

theorem settle_pos (p : Fin NPROC) (s : SchedState) (c : Cpu) :
    (c.settle p s).pos = c.pos ∨ (c.settle p s).pos = c.pos.resume := by
  simp only [Cpu.settle]
  split
  · exact Or.inl rfl
  · exact Or.inr rfl

theorem steady_cpuWake (chan : ℕ) : Steady c.s (c.wake chan).s :=
  steady_wake fun _ hq => hq.2.1

theorem bootCpu_traversing (hboot : userinit a initSched = .ok s) :
    ∃ ls out, ∀ ok, Traversing (bootCpu s) ls out ok := by
  have hplaced := userinit_placed hboot
  refine ⟨_, _, fun ok => ⟨hplaced.queued, hplaced.method, fun q hq => ⟨trivial, ?_⟩, trivial⟩⟩
  rintro rfl
  rw [show (bootCpu s).s = s from rfl, hplaced.proc, update_self] at hq
  exact absurd hq (by decide)

/-- The position alone. -/
def Linked (c : Cpu) : Prop := ∃ ls out, Traversing c ls out fun _ _ => True

theorem linked_call {op : SchedOp} (h : Linked c)
    (hok : SparesSuccessor c (.call op)) (hcall : c.call op = .ok c') : Linked c' := by
  obtain ⟨ls, out, h⟩ := h
  obtain ⟨s', hrun, hstep, rfl⟩ := Cpu.call_ok hcall
  have hop : ∀ p type, op ≠ .chrt p type := by
    rintro p type rfl
    exact hok
  cases schedStep_effect h.queued h.method h.unused hop hstep with
  | kept hkept =>
    exact ⟨ls, out, h.kept hkept.toKept (settle_pos ..) fun _ _ _ _ _ => trivial⟩
  | @moved q t a j s₁ s₂ hq hbefore hmoved ht hafter =>
    have h₁ : Traversing { c with s := s₁ } ls out fun _ _ => True :=
      h.kept hbefore.toKept (Or.inl rfl) fun _ _ _ _ _ => trivial
    -- the saved pointer does not belong to the process that is moved
    have hsucc : c.pos.saved = NULL ∨ s₁.owner c.pos.saved ≠ q := by
      rw [hbefore.owner, or_iff_not_imp_left]
      rintro hnull rfl
      obtain ⟨hin, hne⟩ := h.saved hrun hnull
      cases op with
      | yield p a => exact hne hq
      | fork p a memory | vfork p a memory => exact hin (h.unused _ hq)
      | setPriority p pid priority a | wait p => exact hok.resolve_left hnull hq
      | _ => exact hq
    have h₂ : Traversing { c with s := s₂ } _ _ fun _ _ => True :=
      h₁.moved hmoved ht.unused hsucc hrun rfl fun _ _ _ _ _ _ _ => trivial
    exact ⟨_, _, h₂.kept hafter.toKept (settle_pos ..)
      fun _ _ _ _ _ => trivial⟩

theorem linked_step {e : CpuEvent} (h : Linked c) (hok : SparesSuccessor c e)
    (hstep : CpuStep c e c') : Linked c' := by
  cases e with
  | call op => exact linked_call h hok hstep
  | scan =>
    obtain ⟨ls, out, h⟩ := h
    exact ⟨ls, out, h.scan hstep (fun _ => trivial) (fun _ _ _ _ => trivial)
      fun _ _ _ _ _ _ => trivial⟩
  | sleep chan =>
    obtain ⟨ls, out, h⟩ := h
    obtain ⟨p, -, hs, hpos⟩ := Cpu.sleep_ok hstep
    refine ⟨ls, out, h.kept ?_ (Or.inr hpos) fun _ _ _ _ _ => trivial⟩
    rw [hs]
    exact kept_setProc rfl fun ht => by cases ht
  | wake chan =>
    obtain ⟨ls, out, h⟩ := h
    cases hstep
    exact ⟨ls, out, h.kept (steady_cpuWake chan).toKept (Or.inl rfl) fun _ _ _ _ _ => trivial⟩

/-! ## Runs -/

/-- The scheduler follows linked nodes only, for as long as nobody takes out the node
that it has saved. -/
theorem scheduler_follows_linked {run : List (CpuEvent × Cpu)}
    (hboot : userinit a initSched = .ok s) (hrun : IsRun CpuStep (bootCpu s) run)
    (hok : Along SparesSuccessor (bootCpu s) run) :
    ∀ c ∈ visited (bootCpu s) run, FollowsLinked c := by
  intro c hc
  have hstart : Linked (bootCpu s) := by
    obtain ⟨ls, out, h⟩ := bootCpu_traversing hboot
    exact ⟨ls, out, h _⟩
  obtain ⟨ls, out, h⟩ := hrun.invariant SparesSuccessor Linked
    (fun _ _ _ h hok hstep => linked_step h hok hstep) hstart hok c hc
  exact h.followsLinked

/-- Two children of the first process, which sleeps on `chan`, and the switch to the
first child while the second one is saved as the next. -/
def twoChildren : List CpuEvent :=
  [.scan, .scan, .call (.fork 0 32 true), .call (.fork 0 64 true), .sleep 5, .scan, .scan, .scan,
    .scan, .scan, .scan, .scan]

theorem scheduler_follows_linked_children :
    ∃ s run, userinit 16 initSched = .ok s ∧ IsRun CpuStep (bootCpu s) run ∧
      run.map Prod.fst = twoChildren ++ [.call (.setPriority 1 2 7 32), .wake 5,
        .call (.yield 1 80), .scan, .call (.exit 2)] ∧
      Along SparesSuccessor (bootCpu s) run ∧ ∀ c ∈ visited (bootCpu s) run, FollowsLinked c := by
  obtain ⟨s, run, hs, hrun, hes, hok⟩ := bootCpu_run 16
    (twoChildren ++ [.call (.setPriority 1 2 7 32), .wake 5, .call (.yield 1 80), .scan,
      .call (.exit 2)])
    (Along SparesSuccessor) (by decide +kernel)
  exact ⟨s, run, hs, hrun, hes, hok, scheduler_follows_linked hs hrun hok⟩

/-- The first child sends the second one to another queue, and the scheduler goes on
at the node that has been freed and linked in the last queue. -/
theorem freed_node_followed :
    ∃ s run, userinit 16 initSched = .ok s ∧ IsRun CpuStep (bootCpu s) run ∧
      run.map Prod.fst = twoChildren ++ [.call (.setPriority 1 3 7 64), .call (.yield 1 32)] ∧
      ∃ c ∈ visited (bootCpu s) run, c.pos = .mlfq 0 64 ∧ (c.s.queue 3).head = 64 ∧
        ¬ FollowsLinked c := by
  obtain ⟨s, run, hs, hrun, hes, c, hc, hpos, hlast, hhead, hnext⟩ := bootCpu_run 16
    (twoChildren ++ [.call (.setPriority 1 3 7 64), .call (.yield 1 32)])
    (fun c run => ∃ d ∈ visited c run, d.pos = .mlfq 0 64 ∧ (d.s.queue 3).head = 64 ∧
      (d.s.queue 0).head = 16 ∧ d.s.next 16 = NULL)
    (by decide +kernel)
  refine ⟨s, run, hs, hrun, hes, c, hc, hpos, hlast, fun hfollows => ?_⟩
  rcases hfollows 0 64 hpos with hnull | ⟨l, hl, hmem⟩
  · exact absurd hnull (by decide)
  · have hsingle : Seg NULL c.s.next (c.s.queue 0).head [16] NULL :=
      ⟨hhead, by decide, hnext⟩
    rw [hl.unique hsingle] at hmem
    simp at hmem

end LearnOS.Sched
