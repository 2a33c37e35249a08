import LearnOS.Sched.Locks

/-!
# The order of the locks

`semop` takes the locks of processes under the lock of a semaphore set, in `wakeup`
and in `sleep`. `fork` and `wait` take the lock of a set under the lock of a
process, when the process they copy or free refers to one. `locks_ordered` says that
this is the only reversal: without it nobody waits in a circle.
-/

namespace LearnOS.Sched

open LearnOS Ipc LockProgram Transition

/-- Locks are taken in the order of their ranks. -/
def lockRank : Lock → ℕ
  | .wait => 0
  | .ipc .sem _ => 1
  | .proc _ => 2
  | .ipc .shm _ | .ipc .msq _ | .pid => 3

/-- The locks with which the loops begin. -/
def entryLocks : LockCall → Set Lock
  | .semLoop _ id _ | .semSignal _ id _ _ => {.ipc .sem id}
  | .waitLoop .. => {.wait}
  | _ => ∅

/-- `fork` copies and `freeproc` finds no semaphore node. -/
def NoSemNodes : (o : Op) → o.Ans → Prop
  | .nodes _ .sem, l => l = ([] : List ℕ)
  | _, _ => True

/-- In addition, `semop` never returns from inside its loop with the lock held. -/
def OrderGood : (o : Op) → o.Ans → Prop
  | .nodes _ .sem, l => l = ([] : List ℕ)
  | .semStep .., a => a ≠ SemAnswer.nowait
  | _, _ => True

instance (o : Op) (a : o.Ans) : Decidable (NoSemNodes o a) :=
  match o, a with
  | .nodes _ .sem, l => (inferInstance : DecidableEq (List ℕ)) l []
  | .nodes _ .shm, _ | .nodes _ .msq, _ | .state _, _ | .killed _, _ | .parent _, _
  | .pagetable _, _ | .vforked _, _ | .allocpid _, _ | .claim .., _ | .addNode .., _
  | .dropNode .., _ | .lend .., _ | .setParent .., _ | .setRunnable _, _ | .adopt .., _
  | .handBack _, _ | .zombie _, _ | .reset _, _ | .kill .., _ | .sleep .., _ | .wake .., _
  | .run _, _ | .semUsed _, _ | .semStep .., _ | .semFirst .., _ | .semGrant .., _ =>
    .isTrue trivial

/-- The code takes its locks in this order. -/
abbrev InOrder (held : Set Lock) (k : Code) : Prop := Ordered lockRank OrderGood entryLocks held k

variable {held : Set Lock} {k : Code} {p np : Fin NPROC}

/-! ## Parts of system calls -/

theorem inOrder_locked {l : Lock} {o : Op} {f : o.Ans → Code}
    (h : ∀ l' ∈ held, lockRank l' < lockRank l) (hk : ∀ a, OrderGood o a → InOrder held (f a)) :
    InOrder held (locked l o f) :=
  Ordered.critical h hk

theorem inOrder_brief {l : Lock} (h : ∀ l' ∈ held, lockRank l' < lockRank l)
    (hk : InOrder held k) : InOrder held (.acquire l .always (.release l k)) := by
  refine ⟨h, ?_⟩
  rw [Ordered, insert_diff_of_lt h]
  exact hk

theorem inOrder_wakeup {chan : Chan} (h : ∀ l ∈ held, lockRank l < 2) (hk : InOrder held k) :
    InOrder held (wakeupCode p chan k) := by
  refine Ordered.foldr (fun i _ k hk => ?_) hk
  split
  · exact hk
  · exact inOrder_locked h fun _ _ => hk

theorem inOrder_resume (h : ∀ l ∈ held, lockRank l < 2) (hk : InOrder held k) :
    InOrder held (resumeCode p k) := by
  rw [resumeCode]
  exact Ordered.critical h fun _ _ => hk

theorem inOrder_sleep {chan : Chan} {lk : Lock} (hlk : lockRank lk < 2) (hk : InOrder {lk} k) :
    InOrder {lk} (sleepCode p chan lk k) := by
  have hne : Lock.proc p ≠ lk := by
    rintro rfl
    simp [lockRank] at hlk
  have hfirst : insert (Lock.proc p) {lk} \ {lk} = ({.proc p} : Set Lock) := by
    rw [Set.insert_sdiff_of_notMem _ (by simpa using hne), Set.sdiff_self, insert_empty_eq]
  have hlast : ({.proc p} : Set Lock) \ {.proc p} = ∅ := Set.sdiff_self
  refine ⟨by simpa [lockRank] using hlk, ?_⟩
  rw [Ordered, hfirst]
  intro _ _
  rw [Ordered, hlast]
  refine inOrder_resume (by simp) ⟨by simp, ?_⟩
  rw [insert_empty_eq]
  exact hk

theorem inOrder_freeNodes {c : IpcKind} (h : ∀ l ∈ held, lockRank l < 3) (hk : InOrder held k) :
    InOrder held (freeNodesCode c p k) := by
  intro l hl
  cases c with
  | sem =>
    obtain rfl : l = ([] : List ℕ) := hl
    exact hk
  | shm | msq => exact Ordered.foldr (fun id _ k hk _ _ => inOrder_brief h hk) hk

theorem inOrder_copyNodes {c : IpcKind} (h : ∀ l ∈ held, lockRank l < 3) (hk : InOrder held k) :
    InOrder held (copyNodesCode c p np k) := by
  intro l hl
  cases c with
  | sem =>
    obtain rfl : l = ([] : List ℕ) := hl
    exact hk
  | shm | msq => exact Ordered.foldr (fun id _ k hk => inOrder_brief h fun _ _ => hk) hk

theorem inOrder_freeproc (h : ∀ l ∈ held, lockRank l < 3) (hk : InOrder held k) :
    InOrder held (freeprocCode p k) := by
  have hreset : InOrder held (.op (.reset p) fun _ => k) := fun _ _ => hk
  intro b _
  dsimp only
  split
  · refine inOrder_freeNodes h (inOrder_freeNodes h fun v _ => ?_)
    dsimp only
    split
    · exact hreset
    · exact inOrder_freeNodes h hreset
  · exact hreset

theorem inOrder_alloc {pagetable : Bool} {f : Fin NPROC → Code}
    (hf : ∀ np, InOrder {.proc np} (f np)) : InOrder ∅ (allocCode pagetable f) := by
  refine Ordered.foldr (fun i _ rest hrest => ⟨by simp, fun st _ => ?_⟩) rfl
  rw [insert_empty_eq]
  dsimp only
  split
  · exact inOrder_locked (by simp [lockRank]) fun _ _ _ _ => hf i
  · have hdone : ({.proc i} : Set Lock) \ {.proc i} = ∅ := Set.sdiff_self
    rw [Ordered, hdone]
    exact hrest

theorem inOrder_makeRunnable (hk : InOrder ∅ k) : InOrder ∅ (makeRunnable np k) :=
  inOrder_locked (by simp) fun _ _ => inOrder_brief (by simp) hk

theorem inOrder_publish (hk : InOrder ∅ k) : InOrder {.proc np} (publishCode p np k) := by
  have hdone : ({.proc np} : Set Lock) \ {.proc np} = ∅ := Set.sdiff_self
  rw [publishCode, InOrder, Ordered, hdone]
  exact inOrder_locked (by simp) fun _ _ => inOrder_makeRunnable hk

theorem inOrder_giveUp : InOrder {.proc np} (freeprocCode np (.release (.proc np) .ret)) :=
  inOrder_freeproc (by simp [lockRank]) Set.sdiff_self

theorem inOrder_reparent (hk : InOrder {.wait} k) : InOrder {.wait} (reparentCode p k) := by
  refine Ordered.foldr (fun pp _ k hk r _ => ?_) hk
  dsimp only
  split
  · exact hk
  · exact inOrder_wakeup (by simp [lockRank]) hk

/-! ## System calls -/

theorem inOrder_fork (memory : Memory) : InOrder ∅ (forkCode p memory) := by
  refine inOrder_alloc fun np => ?_
  have hrank : ∀ l ∈ ({.proc np} : Set Lock), lockRank l < 3 := by simp [lockRank]
  cases memory with
  | none => exact inOrder_giveUp
  | table => exact inOrder_giveUp
  | full =>
    apply inOrder_copyNodes hrank
    apply inOrder_copyNodes hrank
    apply inOrder_copyNodes hrank
    exact inOrder_publish rfl

theorem inOrder_vforkSleep : InOrder ∅ (vforkSleep p) := by
  refine ⟨by simp, ?_⟩
  rw [insert_empty_eq]
  exact inOrder_sleep (by decide) Set.sdiff_self

theorem inOrder_vfork (memory : Memory) : InOrder ∅ (vforkCode p memory) := by
  refine inOrder_alloc fun np => ?_
  cases memory with
  | none => exact inOrder_giveUp
  | table | full => exact fun _ _ => inOrder_publish inOrder_vforkSleep

theorem inOrder_exit : InOrder ∅ (exitCode p) := by
  refine ⟨by simp, ?_⟩
  rw [insert_empty_eq]
  refine inOrder_reparent fun _ _ q _ =>
    inOrder_wakeup (by simp [lockRank]) ⟨by simp [lockRank], ?_⟩
  intro _ _
  have hwait : insert (Lock.proc p) {.wait} \ {.wait} = ({.proc p} : Set Lock) := by
    rw [Set.insert_sdiff_of_notMem _ (by simp), Set.sdiff_self, insert_empty_eq]
  rw [Ordered, hwait]
  exact Set.sdiff_self

theorem inOrder_waitScan {copied : Bool} (procs : List (Fin NPROC)) (havekids : Bool) :
    InOrder {.wait} (waitScan p copied procs havekids) := by
  have hdone : InOrder {.wait} (.release .wait .ret) := Set.sdiff_self
  induction procs generalizing havekids with
  | nil =>
    rw [waitScan]
    split
    · refine inOrder_locked (by simp [lockRank]) fun killed _ => ?_
      split
      · exact hdone
      · exact inOrder_sleep (by decide) rfl
    · exact hdone
  | cons pp rest ih =>
    intro q _
    dsimp only
    split
    · have hrank : ∀ l ∈ ({.wait} : Set Lock), lockRank l < lockRank (.proc pp) := by
        simp [lockRank]
      have hleave : ∀ k, InOrder {.wait} k →
          InOrder (insert (.proc pp) {.wait}) (.release (.proc pp) k) := by
        intro k hk
        rw [InOrder, Ordered, insert_diff_of_lt hrank]
        exact hk
      refine ⟨hrank, fun st _ => ?_⟩
      dsimp only
      split
      · split
        · exact inOrder_freeproc (by simp [lockRank]) (hleave _ hdone)
        · exact hleave _ hdone
      · exact hleave _ (ih true)
    · exact ih havekids

theorem inOrder_semop (id : ℕ) (sops : List SemBuf) : InOrder ∅ (semopCode p id sops) := by
  rw [semopCode]
  split
  · rfl
  · refine inOrder_locked (by simp) fun used _ => ?_
    split
    · exact ⟨by simp, insert_empty_eq _⟩
    · rfl

theorem inOrder_semLoop (id : ℕ) (sops : List SemBuf) :
    InOrder {.ipc .sem id} (semLoopCode p id sops) := by
  cases sops with
  | nil => exact Set.sdiff_self
  | cons b rest =>
    intro a ha
    cases a with
    | range => exact Set.sdiff_self
    | nowait => exact absurd rfl ha
    | wait => exact inOrder_sleep (by simp [lockRank]) rfl
    | next => exact rfl
    | signal => exact rfl

theorem inOrder_semSignal (id i : ℕ) (rest : List SemBuf) :
    InOrder {.ipc .sem id} (semSignalCode p id i rest) := by
  intro q _
  dsimp only
  split
  · rfl
  · exact inOrder_wakeup (by simp [lockRank]) fun _ _ => rfl

theorem inOrder_kill (pid : ℤ) : InOrder ∅ (killCode pid) := by
  refine Ordered.foldr (fun q _ rest hrest => inOrder_locked (by simp) fun hit _ => ?_) rfl
  split
  · rfl
  · exact hrest

theorem inOrder_yield : InOrder ∅ (yieldCode p) :=
  inOrder_locked (by simp) fun _ _ => inOrder_resume (by simp) rfl

theorem lock_discipline : Discipline lockMachine lockRank OrderGood entryLocks where
  body c := by
    cases c with
    | semop p id sops => exact inOrder_semop id sops
    | semLoop p id sops => exact inOrder_semLoop id sops
    | semSignal p id i rest => exact inOrder_semSignal id i rest
    | fork p memory => exact inOrder_fork memory
    | vfork p memory => exact inOrder_vfork memory
    | exit p => exact inOrder_exit
    | wait p copied => exact ⟨by simp [entryLocks], insert_empty_eq _⟩
    | waitLoop p copied => exact inOrder_waitScan _ _
    | kill p pid => exact inOrder_kill pid
    | yield p => exact inOrder_yield
    | forkret p => exact inOrder_resume (by simp [entryLocks]) rfl
  start t c d h := by
    cases c with
    | semLoop p id sops => cases h
    | semSignal p id i rest => cases h
    | waitLoop p copied => cases h
    | _ => rfl

/-! ## Runs -/

/-- `sem_flg` has 16 bits, so `IPC_NOWAIT` is never found in it. -/
theorem semStep_ne_nowait (p : Fin NPROC) (id : ℕ) (b : SemBuf) (d : Shared) :
    (semStep p id b d).1 ≠ .nowait := by
  have hbit : (b.semFlg % 2 ^ 16).testBit 16 = false :=
    Nat.testBit_lt_two_pow (Nat.mod_lt _ (by decide))
  simp only [semStep, hbit]
  split_ifs <;> simp_all

theorem goodStep_of_noSemNodes {s : LockState} {a : LockAct}
    (h : GoodStep lockMachine NoSemNodes s a) : GoodStep lockMachine OrderGood s a := by
  cases a with
  | start t c => trivial
  | run t =>
    simp only [GoodStep] at h ⊢
    split
    · rename_i o k hprog
      rw [hprog] at h
      cases o with
      | semStep p id b => exact semStep_ne_nowait p id b s.data
      | nodes p c =>
        cases c with
        | sem => exact h
        | shm => trivial
        | msq => trivial
      | _ => trivial
    · trivial

theorem Idle.allOrdered {s : LockState} (h : Idle s) :
    AllOrdered lockRank OrderGood entryLocks s := by
  intro p
  rw [h.user p]
  exact Set.eq_empty_iff_forall_notMem.mpr fun l hl => by simp [h.free l] at hl

/-- In every run in which `fork` copies and `wait` frees no semaphore node, no
process waits for itself through others; in particular no two processes wait for
each other. -/
theorem locks_ordered {s : LockState} {run : List (LockAct × LockState)} (hidle : Idle s)
    (hrun : IsRun (Step lockMachine) s run)
    (hok : Along (GoodStep lockMachine NoSemNodes) s run) :
    ∀ t ∈ visited s run, (∀ p, ¬ Relation.TransGen (WaitsFor lockMachine t) p p) ∧
      ∀ p q, ¬ (WaitsFor lockMachine t p q ∧ WaitsFor lockMachine t q p) := by
  have hinv := hrun.invariant (GoodStep lockMachine NoSemNodes)
    (AllOrdered lockRank OrderGood entryLocks)
    (fun _ _ _ h hok hstep => h.step lock_discipline (goodStep_of_noSemNodes hok) hstep)
    hidle.allOrdered hok
  intro t ht
  refine ⟨fun p => (hinv t ht).no_circle, fun p q h => h.elim fun hpq hqp => ?_⟩
  exact (hinv t ht).no_circle (.tail (.single hpq) hqp)

/-! ## Two runs -/

/-- A process without semaphore nodes forks while its child signals a set, and
reaps the child. -/
def forkWithoutNodes : List LockAct :=
  [.start 0 (.fork 0 .full)] ++ steps 0 21 ++ [.start 1 (.forkret 1)] ++ steps 1 3 ++
  [.start 1 (.semop 1 0 [⟨0, 1, 0⟩])] ++ steps 1 6 ++
  [.start 0 (.fork 0 .full)] ++ steps 0 24 ++ steps 1 4 ++
  [.start 1 (.exit 1)] ++ steps 1 260 ++ [.start 0 (.wait 0 true)] ++ steps 0 14

theorem fork_without_nodes_ordered :
    ∃ run, IsRun (Step lockMachine) (idleState (oneProcess [])) run ∧
      run.map Prod.fst = forkWithoutNodes ∧
      Along (GoodStep lockMachine NoSemNodes) (idleState (oneProcess [])) run ∧
      ∀ t ∈ visited (idleState (oneProcess [])) run,
        (∀ p, ¬ Relation.TransGen (WaitsFor lockMachine t) p p) ∧
          ∀ p q, ¬ (WaitsFor lockMachine t p q ∧ WaitsFor lockMachine t q p) := by
  obtain ⟨run, hrun, hacts, hok⟩ := exists_run lockMachine forkWithoutNodes
    (idleState (oneProcess []))
    (Along (GoodStep lockMachine NoSemNodes) (idleState (oneProcess []))) (by decide +kernel)
  exact ⟨run, hrun, hacts, hok, locks_ordered (idle_idleState _) hrun hok⟩

/-- Two children share the set of their parent; one waits for the semaphore and
the other signals it. -/
def signalAndFork : List LockAct :=
  [.start 0 (.fork 0 .full)] ++ steps 0 24 ++ [.start 0 (.fork 0 .full)] ++ steps 0 27 ++
  [.start 1 (.forkret 1)] ++ steps 1 3 ++ [.start 2 (.forkret 2)] ++ steps 2 3 ++
  [.start 2 (.semop 2 0 [⟨0, -1, 0⟩])] ++ steps 2 10 ++
  [.start 1 (.semop 1 0 [⟨0, 1, 0⟩])] ++ steps 1 4 ++
  [.start 0 (.fork 0 .full)] ++ steps 0 17 ++ steps 1 10

/-- `fork` holds the lock of the new process and waits for the set, and `semop`
holds the set and waits for the new process. -/
theorem fork_deadlocks_semop :
    ∃ run, IsRun (Step lockMachine) (idleState (oneProcess [0])) run ∧
      run.map Prod.fst = signalAndFork ∧
      WaitsFor lockMachine (last (idleState (oneProcess [0])) run) 0 1 ∧
      WaitsFor lockMachine (last (idleState (oneProcess [0])) run) 1 0 := by
  obtain ⟨run, hrun, hacts, h0, hsem, h1, hproc⟩ := exists_run lockMachine signalAndFork
    (idleState (oneProcess [0]))
    (fun run =>
      let t := last (idleState (oneProcess [0])) run
      spinsOn lockMachine t 0 = some (.ipc .sem 0) ∧ t.holder (.ipc .sem 0) = some 1 ∧
        spinsOn lockMachine t 1 = some (.proc 3) ∧ t.holder (.proc 3) = some 0)
    (by decide +kernel)
  exact ⟨run, hrun, hacts, ⟨_, waits_of_spinsOn h0, hsem⟩, ⟨_, waits_of_spinsOn h1, hproc⟩⟩

end LearnOS.Sched
