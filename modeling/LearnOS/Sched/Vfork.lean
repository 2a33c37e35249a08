import LearnOS.Sched.Queued

/-!
# The parent of a vforked process

`vfork` puts the parent to sleep on its own address and does not look at anything
when it wakes. The same channel is used by `wait`, so the exit of any child of the
parent, and `kill`, end the sleep. `vfork_suspends` says that the parent stays
suspended in every run in which neither happens while a process runs on its page
table.
-/

namespace LearnOS.Sched

open LearnOS LinkedList Transition Kres

variable {s s' : SchedState} {p q : Fin NPROC} {a : ℕ}
  {t : Task} {c : Fin NPROC} {memory : Bool}

/-- The fields of a process that sleeping, waking and lending concern. -/
structure Life where
  state : ProcState
  chan : Option (Fin NPROC)
  parent : Option (Fin NPROC)
  lender : Option (Fin NPROC)
  place : Place

def SchedState.life (s : SchedState) (q : Fin NPROC) : Life :=
  let t := s.proc q
  ⟨t.state, t.chan, t.parent, t.lender, t.place⟩

/-- `c` has neither exited nor called `exec` since it took the page table of `p`. -/
def Borrows (s : SchedState) (c p : Fin NPROC) : Prop :=
  (s.proc c).lender = some p ∧ (s.proc c).state ≠ .UNUSED ∧ (s.proc c).state ≠ .ZOMBIE

instance (s : SchedState) (c p : Fin NPROC) : Decidable (Borrows s c p) :=
  inferInstanceAs (Decidable (_ ∧ _ ∧ _))

/-- `p` has not exited and is not in user mode, and what `c` has taken will go back
to it. -/
structure Suspended (s : SchedState) (c p : Fin NPROC) : Prop where
  alive : (s.proc p).state ≠ .UNUSED ∧ (s.proc p).state ≠ .ZOMBIE
  suspended : ¬ ((s.proc p).place = .user ∧
    ((s.proc p).state = .RUNNABLE ∨ (s.proc p).state = .RUNNING))
  parent : (s.proc c).parent = some p

/-- Nobody whose page table is borrowed is killed, or is woken by the exit of another
process than the borrower. -/
def SparesLenders (s : SchedState) : SchedOp → Prop
  | .kill _ pid => ∀ q, s.firstProc (fun t => decide (t.pid = pid)) = some q →
      ∀ d, ¬ Borrows s d q
  | .exit c => ∀ p, (s.proc c).parent = some p ∨
      (p = s.initproc ∧ ∃ q, (s.proc q).parent = some c) → ∀ d, Borrows s d p → d = c
  | _ => True

instance (s : SchedState) (op : SchedOp) : Decidable (SparesLenders s op) :=
  match op with
  | .kill _ pid => inferInstanceAs (Decidable (∀ q,
      s.firstProc (fun t => decide (t.pid = pid)) = some q → ∀ d, ¬ Borrows s d q))
  | .exit c => inferInstanceAs (Decidable (∀ p, (s.proc c).parent = some p ∨
      (p = s.initproc ∧ ∃ q, (s.proc q).parent = some c) → ∀ d, Borrows s d p → d = c))
  | .fork .. | .vfork .. | .vforkReturn _ | .exec _ | .wait _ | .yield .. | .setPriority ..
  | .chrt .. => .isTrue trivial

/-! ## The queues do not matter -/

theorem life_congr (h : s'.proc = s.proc) : s'.life = s.life := by
  funext q
  simp only [SchedState.life, h]

theorem life_setProc (hstate : t.state = (s.proc p).state)
    (hchan : t.chan = (s.proc p).chan) (hparent : t.parent = (s.proc p).parent)
    (hlender : t.lender = (s.proc p).lender) (hplace : t.place = (s.proc p).place) :
    (s.setProc p t).life = s.life := by
  funext q
  by_cases hq : q = p
  · simp [SchedState.life, SchedState.setProc, hq, hstate, hchan, hparent, hlender, hplace]
  · simp [SchedState.life, SchedState.setProc, hq]

theorem life_setProc_ne (hq : q ≠ p) : (s.setProc p t).life q = s.life q := by
  simp [SchedState.life, SchedState.setProc, hq]

theorem freeNode_life (h : freeNode a s = .ok s') : s'.life = s.life := by
  simp only [freeNode] at h
  split at h
  · cases h
    rfl
  · cases h

theorem removeMlfq_life (h : removeMlfq p s = .ok s') : s'.life = s.life := by
  simp only [removeMlfq] at h
  split at h
  · cases h
  split at h
  · cases h
    rfl
  split at h
  · have hfree := freeNode_life h
    exact hfree
  split at h
  · cases h
  split at h
  · cases h
    rfl
  · have hfree := freeNode_life h
    exact hfree

theorem newNode_life (h : newNode p a s = .ok s') : s'.life = s.life := by
  obtain ⟨-, -, rfl⟩ := newNode_ok h
  rfl

theorem appendNode_life (i : Fin NMLFQ) (a : ℕ) (s : SchedState) :
    (appendNode i a s).life = s.life :=
  life_congr (appendNode_only i a s).proc

theorem insertMlfq_life {r : ℤ} (h : insertMlfq p a s = .ok (r, s')) : s'.life = s.life := by
  simp only [insertMlfq, bind_eq_ok] at h
  obtain ⟨s₁, hnew, h⟩ := h
  rw [← newNode_life hnew]
  split at h
  · cases h
    rfl
  · rename_i i _
    cases h
    rw [← appendNode_life i a s₁]
    apply life_setProc <;> rfl

theorem insertNextMlfqTail_life (h : insertNextMlfqTail p a s = .ok s') : s'.life = s.life := by
  simp only [insertNextMlfqTail, bind_eq_ok, pure_eq_ok] at h
  obtain ⟨s₁, hnew, rfl⟩ := h
  rw [← newNode_life hnew, ← appendNode_life (nextLevel (s₁.proc p).mlqlevel) a s₁]
  apply life_setProc <;> rfl

theorem dequeue_life (h : dequeue p s = .ok s') : s'.life = s.life := by
  simp only [dequeue] at h
  split at h
  · exact removeMlfq_life h
  · cases h
    rfl

theorem enqueue_life (h : enqueue p a s = .ok s') : s'.life = s.life := by
  simp only [enqueue] at h
  split at h
  · simp only [bind_eq_ok, pure_eq_ok] at h
    obtain ⟨⟨r, s₁⟩, hinsert, rfl⟩ := h
    exact insertMlfq_life hinsert
  · cases h
    rfl

/-! ## One process changes -/

/-- Every lender sleeps in `vfork`, and its borrower is still its child. -/
structure Asleep (s : SchedState) (c p : Fin NPROC) : Prop where
  state : (s.life p).state = .SLEEPING
  place : (s.life p).place = .inVfork
  chan : (s.life p).chan = some p
  parent : (s.life c).parent = some p

def LendersSleep (s : SchedState) : Prop := ∀ c p, Borrows s c p → Asleep s c p

theorem Asleep.suspended (h : Asleep s c p) : Suspended s c p where
  alive := by
    have hstate : (s.proc p).state = .SLEEPING := h.state
    rw [hstate]
    simp
  suspended := by
    rintro ⟨hplace, -⟩
    exact absurd (h.place.symm.trans hplace) (by decide)
  parent := h.parent

theorem borrows_congr (h : s'.life c = s.life c) : Borrows s' c p ↔ Borrows s c p := by
  have hl : (s'.proc c).lender = (s.proc c).lender := congrArg Life.lender h
  have hs : (s'.proc c).state = (s.proc c).state := congrArg Life.state h
  rw [Borrows, Borrows, hl, hs]

theorem LendersSleep.congr (h : LendersSleep s) (hlife : s'.life = s.life) : LendersSleep s' := by
  intro c p hb
  obtain ⟨hstate, hplace, hchan, hparent⟩ := h c p ((borrows_congr (congrFun hlife c)).mp hb)
  rw [← hlife] at hstate hplace hchan hparent
  exact ⟨hstate, hplace, hchan, hparent⟩

/-- A process that is not asleep lends nothing. -/
theorem LendersSleep.not_lender (h : LendersSleep s) (hp : (s.proc p).state ≠ .SLEEPING)
    (c : Fin NPROC) : ¬ Borrows s c p :=
  fun hb => hp (h c p hb).state

/-- A process that nobody borrows from changes; as a borrower it keeps its lender and
its parent. -/
theorem LendersSleep.setProc (h : LendersSleep s) (hp : ∀ c, ¬ Borrows s c p)
    (ht : ∀ q, t.lender = some q → t.state ≠ .UNUSED → t.state ≠ .ZOMBIE →
      Borrows s p q ∧ t.parent = (s.proc p).parent) : LendersSleep (s.setProc p t) := by
  have hother : ∀ q, q ≠ p → (s.setProc p t).life q = s.life q := fun q => life_setProc_ne
  have hself : (s.setProc p t).proc p = t := by simp [SchedState.setProc]
  intro c q hb
  have hold : Borrows s c q ∧ ((s.setProc p t).life c).parent = (s.life c).parent := by
    by_cases hc : c = p
    · subst hc
      rw [Borrows, hself] at hb
      obtain ⟨hborrow, hparent⟩ := ht q hb.1 hb.2.1 hb.2.2
      refine ⟨hborrow, ?_⟩
      simpa [SchedState.life, hself] using hparent
    · rw [hother c hc]
      exact ⟨(borrows_congr (hother c hc)).mp hb, rfl⟩
  obtain ⟨hstate, hplace, hchan, hparent⟩ := h c q hold.1
  have hq : q ≠ p := fun heq => hp c (heq ▸ hold.1)
  refine ⟨?_, ?_, ?_, hold.2.trans hparent⟩
  · rw [hother q hq]
    exact hstate
  · rw [hother q hq]
    exact hplace
  · rw [hother q hq]
    exact hchan

/-- The same for a process whose lender and parent are not touched. -/
theorem LendersSleep.setProc_same (h : LendersSleep s) (hp : (s.proc p).state ≠ .SLEEPING)
    (hlive : (s.proc p).state ≠ .UNUSED ∧ (s.proc p).state ≠ .ZOMBIE)
    (hlender : t.lender = (s.proc p).lender) (hparent : t.parent = (s.proc p).parent) :
    LendersSleep (s.setProc p t) := by
  refine h.setProc (h.not_lender hp) fun q hq _ _ => ⟨⟨?_, hlive⟩, hparent⟩
  rw [← hlender]
  exact hq

theorem LendersSleep.freeproc (h : LendersSleep s) (hp : (s.proc p).state ≠ .SLEEPING)
    (hcall : freeproc p s = .ok s') : LendersSleep s' := by
  simp only [Sched.freeproc, bind_eq_ok, pure_eq_ok] at hcall
  obtain ⟨s₁, hs₁, rfl⟩ := hcall
  have h₁ := h.congr (dequeue_life hs₁)
  have hstate : (s₁.proc p).state = (s.proc p).state :=
    congrArg Life.state (congrFun (dequeue_life hs₁) p)
  refine h₁.setProc (h₁.not_lender (by rw [hstate]; exact hp)) fun q hq _ _ => ?_
  cases hq

/-! ## New processes -/

/-- A slot is taken that was free, and the new process is a child of `p`. -/
structure NewChild (s s' : SchedState) (p np : Fin NPROC) (lender : Option (Fin NPROC)) :
    Prop where
  free : (s.proc np).state = .UNUSED
  other : ∀ q, q ≠ np → s'.life q = s.life q
  parent : (s'.life np).parent = some p
  lender : (s'.life np).lender = lender

theorem forkWith_life {r : Option (Fin NPROC)} {vfork : Bool}
    (hcall : forkWith p a memory vfork s = .ok (r, s')) :
    (r = none ∧ s' = s) ∨
      (r = none ∧ ∃ np, (s.proc np).state = .UNUSED ∧ (∀ q, q ≠ np → s'.life q = s.life q) ∧
        (s'.proc np).lender = none) ∨
      ∃ np, r = some np ∧ NewChild s s' p np (if vfork then some p else none) := by
  simp only [forkWith] at hcall
  split at hcall
  · cases hcall
    exact Or.inl ⟨rfl, rfl⟩
  rename_i np hfirst
  have hnp : (s.proc np).state = .UNUSED := by simpa using firstProc_spec hfirst
  right
  cases memory with
  | false =>
    left
    simp only [Bool.false_eq_true, if_false, Sched.freeproc, bind_eq_ok, pure_eq_ok,
      Prod.mk.injEq] at hcall
    obtain ⟨s₁, ⟨s₂, hs₂, rfl⟩, rfl, rfl⟩ := hcall
    refine ⟨rfl, np, hnp, fun q hq => ?_, by simp [SchedState.setProc, Task.reset]⟩
    calc (s₂.setProc np (s₂.proc np).reset).life q
        = s₂.life q := life_setProc_ne hq
      _ = (allocTask np s).life q := congrFun (dequeue_life hs₂) q
      _ = s.life q := life_setProc_ne hq
  | true =>
    right
    simp only [if_true, bind_eq_ok, pure_eq_ok, Prod.mk.injEq] at hcall
    obtain ⟨s₁, hs₁, rfl, rfl⟩ := hcall
    refine ⟨np, rfl, hnp, fun q hq => ?_, ?_, ?_⟩
    · calc s₁.life q
          = _ := congrFun (enqueue_life hs₁) q
        _ = (allocTask np s).life q := life_setProc_ne hq
        _ = s.life q := life_setProc_ne hq
    · rw [congrFun (enqueue_life hs₁) np]
      simp [SchedState.life, SchedState.setProc, childTask]
    · rw [congrFun (enqueue_life hs₁) np]
      simp [SchedState.life, SchedState.setProc, childTask]

/-- A free slot is filled by a process that borrows nothing. -/
theorem LendersSleep.fill {np : Fin NPROC} (h : LendersSleep s)
    (hnp : (s.proc np).state = .UNUSED) (hother : ∀ q, q ≠ np → s'.life q = s.life q)
    (hlender : (s'.proc np).lender = none) : LendersSleep s' := by
  intro c q hb
  have hc : c ≠ np := by
    rintro rfl
    rw [Borrows, hlender] at hb
    cases hb.1
  have hold := (borrows_congr (hother c hc)).mp hb
  obtain ⟨hstate, hplace, hchan, hparent⟩ := h c q hold
  have hq : q ≠ np := by
    rintro rfl
    exact absurd (hnp.symm.trans hstate) (by decide)
  rw [← hother q hq] at hstate hplace hchan
  rw [← hother c hc] at hparent
  exact ⟨hstate, hplace, hchan, hparent⟩

theorem LendersSleep.fork (h : LendersSleep s)
    (hcall : fork p a memory s = .ok s') : LendersSleep s' := by
  simp only [Sched.fork, bind_eq_ok, pure_eq_ok] at hcall
  obtain ⟨⟨r, s₁⟩, hfork, rfl⟩ := hcall
  rcases forkWith_life hfork with ⟨-, rfl⟩ | ⟨-, np, hnp, hother, hlender⟩ | ⟨np, -, hnew⟩
  · exact h
  · exact h.fill hnp hother hlender
  · exact h.fill hnew.free hnew.other hnew.lender

theorem sleepAt_parent (q : Fin NPROC) :
    ((sleepAt p .inVfork s).life q).parent = (s.life q).parent := by
  by_cases hq : q = p
  · simp [SchedState.life, sleepAt, SchedState.setProc, hq]
  · exact congrArg Life.parent (life_setProc_ne hq)

/-- Whoever borrows after `vfork` has done so before, apart from the new child. -/
theorem NewChild.borrows {np : Fin NPROC} (hnew : NewChild s s' p np (some p))
    (hp : (s.proc p).state = .RUNNABLE ∨ (s.proc p).state = .RUNNING) (hc : c ≠ np)
    (hb : Borrows (sleepAt p .inVfork s') c q) : Borrows s c q := by
  by_cases hcp : c = p
  · subst hcp
    have hlender : (s.life c).lender = some q := by
      rw [← hnew.other c hc]
      simpa [SchedState.life, sleepAt, SchedState.setProc] using hb.1
    rcases hp with hp | hp
    · exact ⟨hlender, by rw [hp]; decide, by rw [hp]; decide⟩
    · exact ⟨hlender, by rw [hp]; decide, by rw [hp]; decide⟩
  · exact (borrows_congr ((life_setProc_ne hcp).trans (hnew.other c hc))).mp hb

theorem LendersSleep.vfork (h : LendersSleep s)
    (hp : (s.proc p).state = .RUNNABLE ∨ (s.proc p).state = .RUNNING)
    (hcall : vfork p a memory s = .ok s') : LendersSleep s' := by
  simp only [Sched.vfork, bind_eq_ok] at hcall
  obtain ⟨⟨r, s₁⟩, hfork, hcall⟩ := hcall
  rcases forkWith_life hfork with ⟨rfl, rfl⟩ | ⟨rfl, np, hnp, hother, hlender⟩ | ⟨np, rfl, hnew⟩
  · cases hcall
    exact h
  · cases hcall
    exact h.fill hnp hother hlender
  · cases hcall
    have hpn : p ≠ np := by
      rintro rfl
      have hfree := hnew.free
      rcases hp with hp | hp <;> exact absurd (hp.symm.trans hfree) (by decide)
    intro c q hb
    by_cases hc : c = np
    · subst hc
      have hlender : ((sleepAt p .inVfork s₁).life c).lender = some p :=
        (congrArg Life.lender (life_setProc_ne hpn.symm)).trans hnew.lender
      obtain rfl : p = q := Option.some.inj (hlender.symm.trans hb.1)
      refine ⟨?_, ?_, ?_, (sleepAt_parent c).trans hnew.parent⟩
      all_goals simp [SchedState.life, sleepAt, SchedState.setProc]
    · obtain ⟨hstate, hplace, hchan, hparent⟩ := h c q (hnew.borrows hp hc hb)
      have hqp : q ≠ p := by
        rintro rfl
        rcases hp with hp | hp <;> exact absurd (hp.symm.trans hstate) (by decide)
      have hqn : q ≠ np := by
        rintro rfl
        exact absurd (hnew.free.symm.trans hstate) (by decide)
      have hsame : (sleepAt p .inVfork s₁).life q = s.life q :=
        (life_setProc_ne hqp).trans (hnew.other q hqn)
      rw [← hsame] at hstate hplace hchan
      rw [← hnew.other c hc, ← sleepAt_parent] at hparent
      exact ⟨hstate, hplace, hchan, hparent⟩

/-! ## Waking -/

/-- A wakeup changes nothing but the state of those who sleep on the channel. -/
structure Woken (s s' : SchedState) (woken : Fin NPROC → Prop) : Prop where
  lender : ∀ q, (s'.life q).lender = (s.life q).lender
  place : ∀ q, (s'.life q).place = (s.life q).place
  chan : ∀ q, (s'.life q).chan = (s.life q).chan
  state : ∀ q, (s'.life q).state = (s.life q).state ∨
    ((s.life q).state = .SLEEPING ∧ (s'.life q).state = .RUNNABLE ∧
      ∃ c, (s.life q).chan = some c ∧ woken c)

theorem Woken.trans {s'' : SchedState} {woken : Fin NPROC → Prop} (h : Woken s s' woken)
    (h' : Woken s' s'' woken) : Woken s s'' woken where
  lender q := (h'.lender q).trans (h.lender q)
  place q := (h'.place q).trans (h.place q)
  chan q := (h'.chan q).trans (h.chan q)
  state q := by
    rcases h'.state q with hs' | ⟨hsleep, hrun, c, hc, hw⟩
    · rcases h.state q with hs | ⟨hsleep, hrun, hw⟩
      · exact Or.inl (hs'.trans hs)
      · exact Or.inr ⟨hsleep, hs'.trans hrun, hw⟩
    · rcases h.state q with hs | ⟨-, hrun', -⟩
      · exact Or.inr ⟨hs.symm.trans hsleep, hrun, c, (h.chan q).symm.trans hc, hw⟩
      · exact absurd (hrun'.symm.trans hsleep) (by decide)

theorem wakeup_woken {me : Fin NPROC} {woken : Fin NPROC → Prop} (hc : woken c) :
    Woken s (wakeup me c s) woken := by
  have hproc : ∀ q, (wakeup me c s).proc q = s.proc q ∨
      ((s.proc q).state = .SLEEPING ∧ (s.proc q).chan = some c ∧
        (wakeup me c s).proc q = { s.proc q with state := .RUNNABLE }) := by
    intro q
    by_cases hq : q ≠ me ∧ (s.proc q).state = .SLEEPING ∧ (s.proc q).chan = some c
    · exact Or.inr ⟨hq.2.1, hq.2.2, if_pos hq⟩
    · exact Or.inl (if_neg hq)
  constructor <;> intro q <;> rcases hproc q with heq | ⟨hsleep, hchan, heq⟩
  · simp [SchedState.life, heq]
  · simp [SchedState.life, heq]
  · simp [SchedState.life, heq]
  · simp [SchedState.life, heq]
  · simp [SchedState.life, heq]
  · simp [SchedState.life, heq]
  · exact Or.inl (by simp [SchedState.life, heq])
  · exact Or.inr ⟨hsleep, by simp [SchedState.life, heq], c, hchan, hc⟩

theorem adopt_woken (woken : Fin NPROC → Prop) : Woken s (adopt p s) woken := by
  constructor <;> intro q <;> by_cases hq : (s.proc q).parent = some p <;>
    simp [SchedState.life, adopt, hq]

/-- The channels on which the exit of `p` wakes. -/
def WokenByExit (s : SchedState) (p c : Fin NPROC) : Prop :=
  (s.proc p).parent = some c ∨ (c = s.initproc ∧ ∃ q, (s.proc q).parent = some p)

theorem wakeup_parent (me c q : Fin NPROC) :
    ((wakeup me c s).proc q).parent = (s.proc q).parent := by
  simp only [wakeup]
  split <;> rfl

theorem reparent_parent (q : Fin NPROC) :
    ((Sched.reparent p s).proc q).parent = ((adopt p s).proc q).parent := by
  rw [Sched.reparent]
  split
  · exact wakeup_parent p s.initproc q
  · rfl

theorem wakeParent_parent (q : Fin NPROC) :
    ((wakeParent p s).proc q).parent = (s.proc q).parent := by
  simp only [wakeParent]
  split
  · rfl
  · exact wakeup_parent p _ q

theorem reparent_woken : Woken s (Sched.reparent p s) (WokenByExit s p) := by
  rw [Sched.reparent]
  split
  · rename_i hchild
    exact (adopt_woken _).trans (wakeup_woken (Or.inr ⟨rfl, hchild⟩))
  · exact adopt_woken _

theorem wakeParent_woken :
    Woken (Sched.reparent p s) (wakeParent p (Sched.reparent p s)) (WokenByExit s p) := by
  cases hparent : ((Sched.reparent p s).proc p).parent with
  | none =>
    simp only [wakeParent, hparent]
    exact ⟨fun _ => rfl, fun _ => rfl, fun _ => rfl, fun _ => Or.inl rfl⟩
  | some c =>
    simp only [wakeParent, hparent]
    apply wakeup_woken
    rw [reparent_parent, adopt] at hparent
    by_cases hself : (s.proc p).parent = some p
    · simp only [hself, if_true, Option.some.injEq] at hparent
      exact Or.inr ⟨hparent.symm, p, hself⟩
    · simp only [hself, if_false] at hparent
      exact Or.inl hparent

theorem LendersSleep.exit (h : LendersSleep s) (hp : (s.proc p).state ≠ .SLEEPING)
    (hspares : SparesLenders s (.exit p)) (hcall : exit p s = .ok s') : LendersSleep s' := by
  simp only [Sched.exit] at hcall
  split at hcall
  · cases hcall
  cases hcall
  have hw : Woken s (wakeParent p (Sched.reparent p s)) (WokenByExit s p) :=
    reparent_woken.trans wakeParent_woken
  have hkept : ∀ c, (s.proc c).parent ≠ some p →
      ((wakeParent p (Sched.reparent p s)).proc c).parent = (s.proc c).parent := by
    intro c hne
    calc ((wakeParent p (Sched.reparent p s)).proc c).parent
        = ((Sched.reparent p s).proc c).parent := wakeParent_parent c
      _ = ((adopt p s).proc c).parent := reparent_parent c
      _ = (s.proc c).parent := by simp [adopt, hne]
  generalize wakeParent p (Sched.reparent p s) = s₁ at hw hkept ⊢
  intro c q hb
  have hcp : c ≠ p := by
    rintro rfl
    exact hb.2.2 (by simp [SchedState.setProc])
  have hb₁ : Borrows s₁ c q := (borrows_congr (life_setProc_ne hcp)).mp hb
  -- Whoever is woken was asleep, so a live process was live before.
  have hold : Borrows s c q := by
    refine ⟨(hw.lender c).symm.trans hb₁.1, ?_⟩
    rcases hw.state c with hstate | ⟨hsleep, -, -⟩
    · have hlive := hb₁.2
      have heq : (s₁.proc c).state = (s.proc c).state := hstate
      rw [heq] at hlive
      exact hlive
    · have heq : (s.proc c).state = .SLEEPING := hsleep
      rw [heq]
      decide
  obtain ⟨hstate, hplace, hchan, hparent⟩ := h c q hold
  have hqp : q ≠ p := by
    rintro rfl
    exact hp hstate
  refine ⟨?_, ?_, ?_, ?_⟩
  · rw [life_setProc_ne hqp]
    rcases hw.state q with hsame | ⟨-, -, d, hd, hwoken⟩
    · exact hsame.trans hstate
    · obtain rfl : q = d := Option.some.inj (hchan.symm.trans hd)
      exact absurd (hspares q hwoken c hold) hcp
  · rw [life_setProc_ne hqp]
    exact (hw.place q).trans hplace
  · rw [life_setProc_ne hqp]
    exact (hw.chan q).trans hchan
  · rw [life_setProc_ne hcp]
    have hne : (s.proc c).parent ≠ some p := by
      intro heq
      exact hqp (Option.some.inj (hparent.symm.trans heq))
    exact (hkept c hne).trans hparent

/-! ## The other calls -/

theorem LendersSleep.wait (h : LendersSleep s) (hp : (s.proc p).state ≠ .SLEEPING)
    (hlive : (s.proc p).state ≠ .UNUSED ∧ (s.proc p).state ≠ .ZOMBIE)
    (hcall : wait p s = .ok s') : LendersSleep s' := by
  simp only [Sched.wait] at hcall
  have h₁ : LendersSleep (s.setProc p { s.proc p with chan := none, place := .user }) :=
    h.setProc_same hp hlive rfl rfl
  generalize hs₁ : s.setProc p { s.proc p with chan := none, place := .user } = s₁ at hcall h₁
  have hstate : (s₁.proc p).state = (s.proc p).state := by simp [← hs₁, SchedState.setProc]
  split at hcall
  · rename_i pp hfirst
    have hzombie : (s₁.proc pp).parent = some p ∧ (s₁.proc pp).state = .ZOMBIE := by
      simpa using firstProc_spec hfirst
    refine h₁.freeproc ?_ hcall
    rw [hzombie.2]
    decide
  · split at hcall
    · cases hcall
      exact h₁
    · cases hcall
      apply h₁.setProc_same
      · rw [hstate]
        exact hp
      · rw [hstate]
        exact hlive
      · rfl
      · rfl

theorem LendersSleep.kill {me : Fin NPROC} {pid : ℤ} (h : LendersSleep s)
    (hspares : SparesLenders s (.kill me pid)) : LendersSleep (kill pid s) := by
  rw [Sched.kill]
  split
  · exact h
  · rename_i q hfirst
    refine h.setProc (hspares q hfirst) fun r hr hunused hzombie => ⟨⟨hr, ?_⟩, rfl⟩
    by_cases hsleep : (s.proc q).state = .SLEEPING
    · rw [hsleep]
      decide
    · simp only [hsleep, if_false] at hunused hzombie
      exact ⟨hunused, hzombie⟩

theorem LendersSleep.yield (h : LendersSleep s) (hp : (s.proc p).state ≠ .SLEEPING)
    (hlive : (s.proc p).state ≠ .UNUSED ∧ (s.proc p).state ≠ .ZOMBIE)
    (hcall : yield p a s = .ok s') : LendersSleep s' := by
  simp only [Sched.yield] at hcall
  have h₁ : LendersSleep (s.setProc p { s.proc p with state := .RUNNABLE }) :=
    h.setProc_same hp hlive rfl rfl
  split at hcall
  · cases hcall
    exact h₁
  · cases hcall
    refine h₁.congr ?_
    apply life_setProc <;> rfl
  · simp only [bind_eq_ok] at hcall
    obtain ⟨s₂, hremove, hinsert⟩ := hcall
    exact (h₁.congr (removeMlfq_life hremove)).congr (insertNextMlfqTail_life hinsert)

theorem setPriority_life {pid priority r : ℤ}
    (hcall : setPriority pid priority a s = .ok (r, s')) : s'.life = s.life := by
  simp only [setPriority] at hcall
  split at hcall
  · cases hcall
    rfl
  · split at hcall
    · cases hcall
      rfl
    · cases hcall
      apply life_setProc <;> rfl
  · split at hcall
    · cases hcall
      rfl
    · rename_i q _
      simp only [bind_eq_ok, pure_eq_ok, Prod.mk.injEq] at hcall
      obtain ⟨s₁, hremove, ⟨r', s₂⟩, hinsert, -, rfl⟩ := hcall
      calc s₂.life
          = (s₁.setProc q { s₁.proc q with priority := priority }).life := insertMlfq_life hinsert
        _ = s₁.life := by apply life_setProc <;> rfl
        _ = s.life := removeMlfq_life hremove

theorem chrt_life (type : ℤ) : (chrt type s).life = s.life := by
  simp only [chrt]
  split_ifs <;> rfl

/-! ## Runs -/

theorem ready_state {op : SchedOp} (h : op.ready s = true) :
    (s.proc op.caller).state = .RUNNABLE ∨ (s.proc op.caller).state = .RUNNING := by
  simp only [SchedOp.ready, Bool.and_eq_true, decide_eq_true_eq] at h
  exact h.1

theorem lendersSleep_step {op : SchedOp} (h : LendersSleep s) (hstep : SchedStep s op s')
    (hspares : SparesLenders s op) : LendersSleep s' := by
  have hruns := ready_state hstep.ready
  have hawake : (s.proc op.caller).state ≠ .SLEEPING := by
    rcases hruns with hr | hr <;> rw [hr] <;> decide
  have hlive : (s.proc op.caller).state ≠ .UNUSED ∧ (s.proc op.caller).state ≠ .ZOMBIE := by
    rcases hruns with hr | hr <;> rw [hr] <;> decide
  have hcall := hstep.call
  cases op with
  | fork p a memory => exact h.fork hcall
  | vfork p a memory => exact h.vfork hruns hcall
  | vforkReturn p =>
    cases hcall
    exact h.setProc_same hawake hlive rfl rfl
  | exec p =>
    cases hcall
    refine h.setProc (h.not_lender hawake) fun q hq _ _ => ?_
    cases hq
  | exit p => exact h.exit hawake hspares hcall
  | wait p => exact h.wait hawake hlive hcall
  | kill p pid =>
    cases hcall
    exact h.kill hspares
  | yield p a => exact h.yield hawake hlive hcall
  | setPriority p pid priority a =>
    simp only [execOp, bind_eq_ok, pure_eq_ok] at hcall
    obtain ⟨⟨r, s₁⟩, hset, rfl⟩ := hcall
    exact h.congr (setPriority_life hset)
  | chrt p type =>
    cases hcall
    exact h.congr (chrt_life type)

theorem userinit_lendersSleep (h : userinit a initSched = .ok s) : LendersSleep s := by
  simp only [userinit] at h
  split at h
  · cases h
  · rename_i p hfirst
    simp only [bind_eq_ok, pure_eq_ok] at h
    obtain ⟨⟨r, s₁⟩, hinsert, rfl⟩ := h
    refine LendersSleep.congr (fun c q hb => ?_) (insertMlfq_life hinsert)
    have hlender : ∀ d, ((allocTask p initSched).proc d).lender = none := by
      intro d
      by_cases hd : d = p <;> simp [allocTask, SchedState.setProc, initSched, Task.unused, hd]
    obtain ⟨hl, -⟩ := hb
    by_cases hc : c = p <;> simp [SchedState.setProc, hc, hlender] at hl

/-- In every run that spares the lenders, a process whose page table is in use by a
vforked child is suspended. -/
theorem vfork_suspends {run : List (SchedOp × SchedState)}
    (hboot : userinit a initSched = .ok s) (hrun : IsRun SchedStep s run)
    (hok : Along SparesLenders s run) :
    ∀ t ∈ visited s run, ∀ c p, Borrows t c p → Suspended t c p := by
  intro t ht c p hb
  have hinv := hrun.invariant SparesLenders LendersSleep
    (fun _ _ _ h hok hstep => lendersSleep_step h hstep hok) (userinit_lendersSleep hboot) hok
  exact (hinv t ht c p hb).suspended

/-- The exit of another child makes the parent runnable, and it leaves `vfork`. A
killed parent leaves it too and exits. -/
theorem lender_wakes :
    (∃ s run, userinit 16 initSched = .ok s ∧ IsRun SchedStep s run ∧
      run.map Prod.fst = [.fork 0 32 true, .vfork 0 48 true, .exit 1, .vforkReturn 0] ∧
      Borrows (last s run) 2 0 ∧ ¬ Suspended (last s run) 2 0) ∧
    ∃ s run, userinit 16 initSched = .ok s ∧ IsRun SchedStep s run ∧
      run.map Prod.fst =
        [.fork 0 32 true, .vfork 1 48 true, .kill 0 2, .vforkReturn 1, .exit 1] ∧
      Borrows (last s run) 2 1 ∧ ¬ Suspended (last s run) 2 1 := by
  constructor
  · obtain ⟨s, run, hs, hrun, hops, hb, hplace, hstate⟩ := userinit_run 16
      [.fork 0 32 true, .vfork 0 48 true, .exit 1, .vforkReturn 0]
      (fun s run => Borrows (last s run) 2 0 ∧ ((last s run).proc 0).place = .user ∧
        ((last s run).proc 0).state = .RUNNABLE) (by decide +kernel)
    exact ⟨s, run, hs, hrun, hops, hb, fun h => h.suspended ⟨hplace, Or.inl hstate⟩⟩
  · obtain ⟨s, run, hs, hrun, hops, hb, hstate⟩ := userinit_run 16
      [.fork 0 32 true, .vfork 1 48 true, .kill 0 2, .vforkReturn 1, .exit 1]
      (fun s run => Borrows (last s run) 2 1 ∧ ((last s run).proc 1).state = .ZOMBIE)
      (by decide +kernel)
    exact ⟨s, run, hs, hrun, hops, hb, fun h => h.alive.2 hstate⟩

/-- A run in which the borrower exits first, and then the other child. -/
theorem borrower_exits_first :
    ∃ s run, userinit 16 initSched = .ok s ∧ IsRun SchedStep s run ∧
      run.map Prod.fst =
        [.fork 0 32 true, .vfork 0 48 true, .exit 2, .exit 1, .vforkReturn 0, .wait 0] ∧
      Along SparesLenders s run ∧ (∃ t ∈ visited s run, Borrows t 2 0) ∧
      ∀ t ∈ visited s run, ∀ c p, Borrows t c p → Suspended t c p := by
  obtain ⟨s, run, hs, hrun, hops, hok, hborrows⟩ := userinit_run 16
    [.fork 0 32 true, .vfork 0 48 true, .exit 2, .exit 1, .vforkReturn 0, .wait 0]
    (fun s run => Along SparesLenders s run ∧ ∃ t ∈ visited s run, Borrows t 2 0)
    (by decide +kernel)
  exact ⟨s, run, hs, hrun, hops, hok, hborrows, vfork_suspends hs hrun hok⟩

end LearnOS.Sched
