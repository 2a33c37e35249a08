import LearnOS.Sched.Placement

/-!
# A process changes its place

`yield` and `set_priority` take the node of one process out of its queue and put a
new one at the end of a queue. The queues are compared as lists of processes.

## Main results

`yield_demotes`: the process that yields goes to the end of the queue below its own.
`setPriority_lawful_iff`: `set_priority` moves the process or reports a failure,
except for a priority that no queue admits.
-/

namespace LearnOS.Sched

open LearnOS LinkedList Transition Function Kres

variable {s s' : SchedState} {ls : Fin NMLFQ → List ℕ} {p q : Fin NPROC} {i : Fin NMLFQ} {a : ℕ}
  {out : Fin NPROC → Prop}

/-- The processes of a queue, from its head to its tail. -/
def lineup (s : SchedState) (ls : Fin NMLFQ → List ℕ) (i : Fin NMLFQ) : List (Fin NPROC) :=
  (ls i).map s.owner

/-- The queues when `q` has gone to the end of queue `i` and all others have stayed. -/
def movedTo (order : Fin NMLFQ → List (Fin NPROC)) (q : Fin NPROC) (i : Fin NMLFQ) :
    Fin NMLFQ → List (Fin NPROC) :=
  fun j => if j = i then (order j).filter (· ≠ q) ++ [q] else (order j).filter (· ≠ q)

/-- A block that `kmalloc` may return after `removeMlfq` has freed the node of `p`, such as
the one that has just been freed. -/
def FreshNode (p : Fin NPROC) (s : SchedState) (a : ℕ) : Prop :=
  a ≠ NULL ∧ (removeMlfq p s).Yields fun s' => a ∉ s'.used

instance (p : Fin NPROC) (s : SchedState) (a : ℕ) : Decidable (FreshNode p s a) :=
  inferInstanceAs (Decidable (_ ∧ _))

/-- Process `q` has become `t` and stands at the end of queue `i`; the pointers of all
queues are consistent, and every other process is as before. -/
structure Requeued (q : Fin NPROC) (t : Task) (i : Fin NMLFQ) (s s' : SchedState)
    (ls ls' : Fin NMLFQ → List ℕ) (out : Fin NPROC → Prop) : Prop where
  queued : Queued s' ls' out
  order : lineup s' ls' = movedTo (lineup s ls) q i
  proc : s'.proc = update s.proc q { t with mlqlevel := i, runtime := queueRuntime i }

theorem lineup_withoutNodes (hsame : ∀ b ∈ withoutNodes s ls q i, s'.owner b = s.owner b) :
    (withoutNodes s ls q i).map s'.owner = (lineup s ls i).filter (· ≠ q) := by
  rw [List.map_congr_left hsame, lineup, withoutNodes, List.filter_map]
  rfl

theorem Moved.requeued {t : Task} (h : Moved q t a (some i) s s' ls out) (hq : ¬ out q) :
    Requeued q t i s s' ls (appended (withoutNodes s ls q) i a) out where
  queued := by
    refine h.queued.congr rfl rfl rfl (fun r => ?_) fun _ _ => rfl
    constructor
    · intro hr
      refine ⟨Or.inl hr, fun heq => ?_⟩
      rw [heq] at hr
      exact absurd hr hq
    · rintro ⟨hr | hr, hne⟩
      · exact hr
      · cases hne hr
  order := by
    funext j
    rw [lineup, appended, movedTo]
    by_cases hj : j = i
    · subst hj
      rw [update_self, if_pos rfl, List.map_append, lineup_withoutNodes (h.owner j),
        List.map_singleton, h.placed rfl]
    · rw [update_of_ne hj, if_neg hj, lineup_withoutNodes (h.owner j)]
  proc := h.proc

/-! ## `yield` -/

theorem newNode_of_fresh (hnull : a ≠ NULL) (hfresh : a ∉ s.used) (p : Fin NPROC) :
    newNode p a s = .ok ({ s with used := a :: s.used }.setNode a ⟨p, NULL⟩) := by
  rw [newNode, if_neg hnull, if_neg hfresh]

theorem nextLevel_val (i : Fin NMLFQ) : (nextLevel i : ℕ) = min ((i : ℕ) + 1) (NMLFQ - 1) := by
  revert i
  decide

/-- The process that yields is taken out of its queue, wherever it stands in it, and
put at the end of the queue below, or of the same one if that is the last. -/
theorem yield_demotes (h : Queued s ls out) (hm : s.method = .SCHED_MLFQ) (hp : ¬ out p)
    (ha : FreshNode p (s.setProc p { s.proc p with state := .RUNNABLE }) a) :
    ∃ s' ls', yield p a s = .ok s' ∧
      Requeued p { s.proc p with state := .RUNNABLE } (nextLevel (s.proc p).mlqlevel) s s' ls ls'
        out ∧
      ((s'.proc p).mlqlevel : ℕ) = min (((s.proc p).mlqlevel : ℕ) + 1) (NMLFQ - 1) := by
  obtain ⟨s₁, hremove, hfresh⟩ := ha.2
  have hm' : (s.setProc p { s.proc p with state := .RUNNABLE }).method = .SCHED_MLFQ := hm
  have hcall : ∃ s', yield p a s = .ok s' := by
    simp only [yield, hm', hremove, ok_bind, insertNextMlfqTail, newNode_of_fresh ha.1 hfresh,
      pure_eq]
    exact ⟨_, rfl⟩
  obtain ⟨s', hcall⟩ := hcall
  have hmoved := (yield_moved h hm hcall).requeued hp
  refine ⟨s', _, hcall, hmoved, ?_⟩
  rw [hmoved.proc, update_self, nextLevel_val]

/-- The first process has forked twice. -/
def forkedTwice : Kres SchedState := do
  let s ← userinit 16 initSched
  let s ← fork 0 32 true s
  fork 0 48 true s

/-- The nodes of the three processes. -/
def threeNodes (i : Fin NMLFQ) : List ℕ := if i = 0 then [16, 32, 48] else []

/-- The first, the middle and the last process of a queue yield, and `kmalloc` returns the
block that `removeMlfq` has freed. -/
theorem yield_demotes_first :
    ∃ s, forkedTwice = .ok s ∧ lineup s threeNodes 0 = [0, 1, 2] ∧
      ∀ x ∈ ([(0, 16), (1, 32), (2, 48)] : List (Fin NPROC × ℕ)), ∃ s' ls',
        yield x.1 x.2 s = .ok s' ∧
        lineup s' ls' = movedTo (lineup s threeNodes) x.1 (nextLevel (s.proc x.1).mlqlevel) ∧
        ((s'.proc x.1).mlqlevel : ℕ) = min (((s.proc x.1).mlqlevel : ℕ) + 1) (NMLFQ - 1) := by
  have hrun : forkedTwice.Yields fun s => Queued s threeNodes (fun r => 3 ≤ (r : ℕ)) ∧
      s.method = .SCHED_MLFQ ∧ lineup s threeNodes 0 = [0, 1, 2] ∧
      ∀ x ∈ ([(0, 16), (1, 32), (2, 48)] : List (Fin NPROC × ℕ)), (x.1 : ℕ) < 3 ∧
        FreshNode x.1 (s.setProc x.1 { s.proc x.1 with state := .RUNNABLE }) x.2 := by
    decide +kernel
  obtain ⟨s, hs, hqueued, hm, hline, hfresh⟩ := hrun
  refine ⟨s, hs, hline, fun x hx => ?_⟩
  obtain ⟨hin, ha⟩ := hfresh x hx
  obtain ⟨s', ls', hcall, hmoved, hlevel⟩ := yield_demotes hqueued hm (Nat.not_le.mpr hin) ha
  exact ⟨s', ls', hcall, hmoved.order, hlevel⟩

/-! ## `set_priority` -/

/-- What `set_priority` is to do: with the result `0` the process with that pid has moved to the
first queue that admits the priority; a priority without queue or a pid that is not
queued gives `-1` and changes nothing. -/
def SetPriorityLawful (s : SchedState) (ls : Fin NMLFQ → List ℕ) (out : Fin NPROC → Prop)
    (pid priority : ℤ) (a : ℕ) : Prop :=
  ∃ r s', setPriority pid priority a s = .ok (r, s') ∧
    (r = 0 → ∃ q i ls', (s.proc q).pid = pid ∧ levelOf priority = some i ∧
      Requeued q { s.proc q with priority := priority } i s s' ls ls' out) ∧
    (levelOf priority = none ∨ (∀ i, ∀ q ∈ lineup s ls i, (s.proc q).pid ≠ pid) →
      r = -1 ∧ s' = s)

/-- The search of `set_priority` misses nobody. -/
theorem Queues.find_eq_none_iff (h : Queues s ls) {pid : ℤ} :
    (List.finRange NMLFQ).findSome? (findInQueue pid s) = none ↔
      ∀ i, ∀ q ∈ lineup s ls i, (s.proc q).pid ≠ pid := by
  rw [List.findSome?_eq_none_iff]
  constructor
  · intro hnone i q hq
    have hi := hnone i (List.mem_finRange i)
    rw [h.findInQueue_eq, Option.map_eq_none_iff, List.find?_eq_none] at hi
    obtain ⟨b, hb, rfl⟩ := List.mem_map.mp hq
    simpa using hi b hb
  · intro hnone i _
    rw [h.findInQueue_eq, Option.map_eq_none_iff, List.find?_eq_none]
    intro b hb
    simpa using hnone i (s.owner b) (List.mem_map_of_mem hb)

/-- A process that is found is moved, and the result is `0` whether a queue admits the
priority or not. -/
theorem setPriority_returns {pid : ℤ} (hm : s.method = .SCHED_MLFQ)
    (ha : FreshNode q s a)
    (hfind : (List.finRange NMLFQ).findSome? (findInQueue pid s) = some q) (priority : ℤ) :
    ∃ s', setPriority pid priority a s = .ok (0, s') := by
  obtain ⟨s₁, hremove, hfresh⟩ := ha.2
  have hfresh' : a ∉ (s₁.setProc q { s₁.proc q with priority := priority }).used := hfresh
  simp only [setPriority, hm, hfind, hremove, ok_bind, insertMlfq, newNode_of_fresh ha.1 hfresh']
  split <;> exact ⟨_, rfl⟩

/-- Nothing is lawful about a process that is found when no queue admits the priority. -/
theorem setPriority_unlawful {pid priority : ℤ} (hm : s.method = .SCHED_MLFQ)
    (ha : FreshNode q s a)
    (hfind : (List.finRange NMLFQ).findSome? (findInQueue pid s) = some q)
    (hprio : maxPriority < priority) : ¬ SetPriorityLawful s ls out pid priority a := by
  rintro ⟨r, s', hcall, -, hfail⟩
  obtain ⟨s₁, hzero⟩ := setPriority_returns hm ha hfind priority
  rw [hzero, Except.ok.injEq, Prod.mk.injEq] at hcall
  have hminus := (hfail (Or.inl (levelOf_eq_none_iff.mpr hprio))).1
  omega

/-- `set_priority` ignores what `insertMlfq` returns: a process that is found loses its
node when no queue admits the new priority, and the caller is told that all went well. -/
theorem setPriority_lawful_iff (h : Queued s ls out) (hm : s.method = .SCHED_MLFQ)
    (pid priority : ℤ)
    (ha : ∀ q ∈ (List.finRange NMLFQ).findSome? (findInQueue pid s), FreshNode q s a) :
    SetPriorityLawful s ls out pid priority a ↔
      priority ≤ maxPriority ∨ ∀ i, ∀ q ∈ lineup s ls i, (s.proc q).pid ≠ pid := by
  rw [← h.queues.find_eq_none_iff]
  cases hfind : (List.finRange NMLFQ).findSome? (findInQueue pid s) with
  | none =>
    refine iff_of_true ⟨-1, s, ?_, fun hzero => ?_, fun _ => ⟨rfl, rfl⟩⟩ (Or.inr rfl)
    · simp only [setPriority, hm, hfind]
    · cases hzero
  | some q =>
    constructor
    · intro hlaw
      refine Or.inl (not_lt.mp fun hlt => ?_)
      exact setPriority_unlawful hm (ha q hfind) hfind hlt hlaw
    · rintro (hle | hnone)
      · obtain ⟨i, hi⟩ := Option.isSome_iff_exists.mp (levelOf_isSome hle)
        obtain ⟨s', hcall⟩ := setPriority_returns hm (ha q hfind) hfind priority
        have hmoved : Moved q { s.proc q with priority := priority } a (some i) s s' ls out := by
          obtain ⟨hnone, -⟩ | ⟨q', hq', -, hmoved⟩ := setPriority_moved h hm hcall
          · rw [hfind] at hnone
            cases hnone
          · rw [hfind, Option.some.injEq] at hq'
            rwa [← hq', hi] at hmoved
        obtain ⟨hq, hpid⟩ := h.find hfind
        refine ⟨0, s', hcall, fun _ => ⟨q, i, _, hpid, hi, hmoved.requeued hq⟩, ?_⟩
        rintro (hnone | hnone)
        · rw [hi] at hnone
          cases hnone
        · rw [← h.queues.find_eq_none_iff, hfind] at hnone
          cases hnone
      · cases hnone

/-- The seventh child of `sche_test` gets the priority `8`; here the first of two. It is in
no queue afterwards. -/
theorem setPriority_loses_first :
    ∃ s s', forkedTwice = .ok s ∧ Queued s threeNodes (fun r => 3 ≤ (r : ℕ)) ∧
      (s.proc 1).pid = 2 ∧ setPriority 2 8 32 s = .ok (0, s') ∧
      Queued s' (fun i => if i = 0 then [16, 48] else []) (fun r => r = 1 ∨ 3 ≤ (r : ℕ)) ∧
      ¬ SetPriorityLawful s threeNodes (fun r => 3 ≤ (r : ℕ)) 2 8 32 := by
  have hrun : forkedTwice.Yields fun s => Queued s threeNodes (fun r => 3 ≤ (r : ℕ)) ∧
      s.method = .SCHED_MLFQ ∧ FreshNode 1 s 32 ∧ (s.proc 1).pid = 2 ∧
      (List.finRange NMLFQ).findSome? (findInQueue 2 s) = some 1 ∧
      (setPriority 2 8 32 s).Yields fun r => r.1 = 0 ∧
        Queued r.2 (fun i => if i = 0 then [16, 48] else []) (fun r => r = 1 ∨ 3 ≤ (r : ℕ)) := by
    decide +kernel
  obtain ⟨s, hs, hqueued, hm, hfresh, hpid, hfind, ⟨r, s'⟩, hcall, rfl, hlost⟩ := hrun
  exact ⟨s, s', hs, hqueued, hpid, hcall, hlost, setPriority_unlawful hm hfresh hfind (by decide)⟩

/-- The same process with a priority that some queue admits. -/
theorem setPriority_lawful_first :
    ∃ s, forkedTwice = .ok s ∧ lineup s threeNodes 0 = [0, 1, 2] ∧ (s.proc 1).pid = 2 ∧
      SetPriorityLawful s threeNodes (fun r => 3 ≤ (r : ℕ)) 2 7 32 := by
  have hrun : forkedTwice.Yields fun s => Queued s threeNodes (fun r => 3 ≤ (r : ℕ)) ∧
      s.method = .SCHED_MLFQ ∧ lineup s threeNodes 0 = [0, 1, 2] ∧ (s.proc 1).pid = 2 ∧
      ∀ q ∈ (List.finRange NMLFQ).findSome? (findInQueue 2 s), FreshNode q s 32 := by
    decide +kernel
  obtain ⟨s, hs, hqueued, hm, hline, hpid, hfresh⟩ := hrun
  exact ⟨s, hs, hline, hpid,
    (setPriority_lawful_iff hqueued hm 2 7 hfresh).mpr (Or.inl (by decide))⟩

end LearnOS.Sched
