import LearnOS.Sched.Locks

/-!
# The sleep of `vfork` and the exit of the child

`vfork` makes the child `RUNNABLE` before it takes `wait_lock` for its sleep, and it
sleeps without looking whether the child has exited in between. The child wakes its
parent once, under `wait_lock`. `vfork_not_missed` says that the wakeup is not lost
when the parent is first to take `wait_lock`.
-/

namespace LearnOS.Sched

open LearnOS Ipc LockProgram Transition Function

variable {s s' : LockState} {p c : Fin NPROC} {k : Code}

/-! ## The code of the parent and of the child -/

/-- The parent after it has slept. -/
def vforkRest (p : Fin NPROC) : Code :=
  resumeCode p (.acquire .wait .always (.release .wait .ret))

/-- The parent in `sleep`, with the lock of its own slot. -/
def vforkFall (p : Fin NPROC) : Code :=
  .op (.sleep p (.proc p)) fun _ => .release (.proc p) (vforkRest p)

/-- The parent has not yet taken `wait_lock`. -/
inductive BeforeSleep (p c : Fin NPROC) : Code → Prop where
  | publish : BeforeSleep p c (makeRunnable c (vforkSleep p))
  | runnable : BeforeSleep p c (.op (.setRunnable c) fun _ => .release (.proc c)
      (.acquire (.proc c) .always (.release (.proc c) (vforkSleep p))))
  | unlock : BeforeSleep p c (.release (.proc c)
      (.acquire (.proc c) .always (.release (.proc c) (vforkSleep p))))
  | priority : BeforeSleep p c (.acquire (.proc c) .always (.release (.proc c) (vforkSleep p)))
  | queue : BeforeSleep p c (.release (.proc c) (vforkSleep p))
  | sleep : BeforeSleep p c (vforkSleep p)

/-- The parent has gone to sleep. -/
inductive AfterSleep (p : Fin NPROC) : Code → Prop where
  | sched : AfterSleep p (.release (.proc p) (vforkRest p))
  | rest : AfterSleep p (vforkRest p)
  | run : AfterSleep p (.op (.run p) fun _ =>
    .release (.proc p) (.acquire .wait .always (.release .wait .ret)))
  | unlock : AfterSleep p (.release (.proc p) (.acquire .wait .always (.release .wait .ret)))
  | retake : AfterSleep p (.acquire .wait .always (.release .wait .ret))
  | leave : AfterSleep p (.release .wait .ret)
  | user : AfterSleep p .ret

/-- The child has not yet taken `wait_lock`. -/
inductive BeforeExit (c : Fin NPROC) : Code → Prop where
  | user : BeforeExit c .ret
  | start : BeforeExit c (resumeCode c .ret)
  | run : BeforeExit c (.op (.run c) fun _ => .release (.proc c) .ret)
  | unlock : BeforeExit c (.release (.proc c) .ret)
  | exit : BeforeExit c (exitCode c)

/-- An operation of `c` that keeps `p` as its parent, itself alive, and the channel of
`p`; it may wake `p`. -/
def Harmless (p c : Fin NPROC) (o : Op) : Prop :=
  ∀ d : Shared, (d.proc c).parent = some p →
    let d' := (execOperation o d).2
    (d'.proc c).parent = some p ∧ (d'.proc c).state = (d.proc c).state ∧
      (d'.proc p).chan = (d.proc p).chan ∧
      ((d'.proc p).state = (d.proc p).state ∨ (d'.proc p).state = .RUNNABLE)

/-- The next operation wakes `p` from its sleep in `vfork`. -/
def AtWake (p : Fin NPROC) (k : Code) : Prop := ∃ k', k = .op (.wake p (.proc p)) k'

/-- On every way through the code, `c` takes the lock of `p` and wakes it, and does
nothing of importance before. -/
def WakeAhead (p c : Fin NPROC) : Code → Prop
  | .ret => False
  | .acquire l _ k => (l = .proc p ∧ AtWake p k) ∨ WakeAhead p c k
  | .release _ k => WakeAhead p c k
  | .op o k => Harmless p c o ∧
      ∀ d : Shared, (d.proc c).parent = some p → WakeAhead p c (k (execOperation o d).1)
  | .jump _ => False

/-- The code puts nobody to sleep and does not leave the call. -/
def NoSleep : Code → Prop
  | .ret => True
  | .acquire _ _ k => NoSleep k
  | .release _ k => NoSleep k
  | .op o k => (∀ q chan, o ≠ .sleep q chan) ∧ ∀ a, NoSleep (k a)
  | .jump _ => False

/-! ## `exit` -/

theorem harmless_wake {i : Fin NPROC} {chan : Chan} (hi : i ≠ c) : Harmless p c (.wake i chan) := by
  intro d hd
  simp only [execOperation]
  split
  · refine ⟨?_, ?_, ?_, ?_⟩
    · simpa [Shared.setProc, hi.symm] using hd
    · simp [Shared.setProc, hi.symm]
    · by_cases hp : p = i <;> simp [Shared.setProc, hp]
    · by_cases hp : p = i
      · exact Or.inr (by simp [Shared.setProc, hp])
      · exact Or.inl (by simp [Shared.setProc, hp])
  · exact ⟨hd, rfl, rfl, Or.inl rfl⟩

theorem harmless_adopt {pp : Fin NPROC} (hpc : p ≠ c) : Harmless p c (.adopt pp c) := by
  intro d hd
  simp only [execOperation]
  split
  · rename_i hpp
    have hne : c ≠ pp := by
      rintro rfl
      exact hpc (Option.some.inj (hd.symm.trans hpp))
    refine ⟨?_, ?_, ?_, Or.inl ?_⟩
    · simpa [Shared.setProc, hne] using hd
    · simp [Shared.setProc, hne]
    · by_cases hp : p = pp <;> simp [Shared.setProc, hp]
    · by_cases hp : p = pp <;> simp [Shared.setProc, hp]
  · exact ⟨hd, rfl, rfl, Or.inl rfl⟩

/-- Nothing but the list of nodes changes. -/
theorem handBack_same (q : Fin NPROC) (d : Shared) :
    ((handBack c d).proc q).parent = (d.proc q).parent ∧
      ((handBack c d).proc q).state = (d.proc q).state ∧
      ((handBack c d).proc q).chan = (d.proc q).chan := by
  simp only [handBack]
  split
  · rename_i r _ _
    by_cases hqc : q = c <;> by_cases hqr : q = r <;> by_cases hcr : c = r <;>
      simp_all [Shared.setProc]
  · exact ⟨rfl, rfl, rfl⟩

theorem harmless_handBack : Harmless p c (.handBack c) := by
  intro d hd
  obtain ⟨hparent, hstate, -⟩ := handBack_same (c := c) c d
  obtain ⟨-, hstate', hchan⟩ := handBack_same (c := c) p d
  exact ⟨hparent.trans hd, hstate, hchan, Or.inl hstate'⟩

theorem harmless_parent {q : Fin NPROC} : Harmless p c (.parent q) :=
  fun _ hd => ⟨hd, rfl, rfl, Or.inl rfl⟩

theorem wakeAhead_foldr {ι : Type} {f : ι → Code → Code} {items : List ι}
    (hf : ∀ i ∈ items, ∀ k, WakeAhead p c k → WakeAhead p c (f i k)) (hk : WakeAhead p c k) :
    WakeAhead p c (items.foldr f k) := by
  induction items with
  | nil => exact hk
  | cons i rest ih =>
    exact hf i List.mem_cons_self _ (ih fun j hj => hf j (List.mem_cons_of_mem i hj))

theorem wakeAhead_round {i : Fin NPROC} {chan : Chan} (hk : WakeAhead p c k) :
    WakeAhead p c (if i = c then k else locked (.proc i) (.wake i chan) fun _ => k) := by
  split
  · exact hk
  · rename_i hi
    exact Or.inr ⟨harmless_wake hi, fun _ _ => hk⟩

theorem wakeAhead_wakeup {chan : Chan} (hk : WakeAhead p c k) :
    WakeAhead p c (wakeupCode c chan k) :=
  wakeAhead_foldr (fun _ _ _ hk => wakeAhead_round hk) hk

/-- A wakeup on the channel of `p` comes to `p`. -/
theorem wakeAhead_of_mem {items : List (Fin NPROC)} (hp : p ∈ items) (hpc : p ≠ c) :
    WakeAhead p c (items.foldr (fun i k => if i = c then k else
      locked (.proc i) (.wake i (.proc p)) fun _ => k) k) := by
  induction items with
  | nil => cases hp
  | cons i rest ih =>
    rw [List.foldr_cons]
    by_cases hi : i = p
    · subst hi
      rw [if_neg hpc]
      exact Or.inl ⟨rfl, _, rfl⟩
    · have hrest : p ∈ rest := by
        rcases List.mem_cons.mp hp with rfl | hrest
        · exact absurd rfl hi
        · exact hrest
      exact wakeAhead_round (ih hrest)

theorem wakeAhead_exit (hpc : p ≠ c) : WakeAhead p c (exitLocked c) := by
  refine wakeAhead_foldr (fun pp _ k hk => ?_) ?_
  · refine ⟨harmless_adopt hpc, fun d _ => ?_⟩
    dsimp only
    split
    · exact hk
    · exact wakeAhead_wakeup hk
  · refine ⟨harmless_handBack, fun _ _ => ⟨harmless_parent, fun d hd => ?_⟩⟩
    have hchan : (execOperation (.parent c) d).1 = some p := hd
    rw [hchan]
    exact wakeAhead_of_mem (List.mem_finRange p) hpc

theorem noSleep_foldr {ι : Type} {f : ι → Code → Code} {items : List ι}
    (hf : ∀ i k, NoSleep k → NoSleep (f i k)) (hk : NoSleep k) : NoSleep (items.foldr f k) := by
  induction items with
  | nil => exact hk
  | cons i rest ih => exact hf i _ ih

theorem noSleep_wakeup {chan : Chan} (hk : NoSleep k) : NoSleep (wakeupCode c chan k) := by
  refine noSleep_foldr (fun i k hk => ?_) hk
  split
  · exact hk
  · exact ⟨by simp, fun _ => hk⟩

theorem noSleep_exit : NoSleep (exitCode c) := by
  refine noSleep_foldr (fun pp k hk => ⟨by simp, fun r => ?_⟩) ?_
  · dsimp only
    split
    · exact hk
    · exact noSleep_wakeup hk
  · exact ⟨by simp, fun _ => ⟨by simp, fun q => noSleep_wakeup ⟨by simp, fun _ => trivial⟩⟩⟩

theorem BeforeExit.noSleep (h : BeforeExit c k) : NoSleep k := by
  cases h with
  | user => trivial
  | start | run => exact ⟨by simp, fun _ => trivial⟩
  | unlock => trivial
  | exit => exact noSleep_exit

/-! ## Steps of the child -/

theorem setProc_awake {d : Shared} {q : Fin NPROC} {t : ProcInfo}
    (h : (d.proc p).state ≠ .SLEEPING)
    (ht : (d.proc q).state ≠ .SLEEPING → t.state ≠ .SLEEPING) :
    ((d.setProc q t).proc p).state ≠ .SLEEPING := by
  by_cases hp : p = q
  · subst hp
    simpa [Shared.setProc] using ht h
  · simpa [Shared.setProc, hp] using h

/-- Only `sleep` puts a process to sleep. -/
theorem exec_awake {o : Op} {d : Shared} (ho : ∀ q chan, o ≠ .sleep q chan)
    (h : (d.proc p).state ≠ .SLEEPING) : ((execOperation o d).2.proc p).state ≠ .SLEEPING := by
  cases o with
  | sleep q chan => exact absurd rfl (ho q chan)
  | handBack q =>
    have hsame : ((execOperation (.handBack q) d).2.proc p).state = (d.proc p).state :=
      (handBack_same p d).2.1
    rw [hsame]
    exact h
  | adopt pp q =>
    simp only [execOperation]
    split
    · exact setProc_awake h id
    · exact h
  | kill q pid =>
    simp only [execOperation]
    split
    · refine setProc_awake h fun hq => ?_
      simp [hq]
    · exact h
  | wake q chan =>
    simp only [execOperation]
    split
    · exact setProc_awake h fun _ => by simp
    · exact h
  | semStep q id b =>
    simp only [execOperation, semStep]
    split_ifs
    · exact h
    · exact h
    · exact setProc_awake h fun hq => hq
    · exact h
    · exact h
    · exact h
  | semGrant id i q | allocpid q | lend q np
  | addNode q c id | dropNode q c | setParent q np => exact setProc_awake h fun hq => hq
  | reset q | claim q pagetable | setRunnable q | zombie q | run q =>
    exact setProc_awake h fun _ => by simp [ProcInfo.reset]
  | state q | killed q | parent q | pagetable q | vforked q | nodes q c | semUsed id
  | semFirst id i => exact h

/-- The child is alive and `p` is its parent. -/
structure ChildLive (s : LockState) (p c : Fin NPROC) : Prop where
  parent : (s.data.proc c).parent = some p
  live : (s.data.proc c).state ≠ .ZOMBIE ∧ (s.data.proc c).state ≠ .UNUSED

/-- What a step of the child before its wakeup leaves to the parent. -/
structure ChildMove (s s' : LockState) (p c : Fin NPROC) : Prop where
  prog : s'.prog p = s.prog p
  held : ∀ l, s.holder l = some p → s'.holder l = some p
  notHeld : ∀ l, s.holder l ≠ some p → s'.holder l ≠ some p
  chan : (s'.data.proc p).chan = (s.data.proc p).chan
  state : (s'.data.proc p).state = (s.data.proc p).state ∨ (s'.data.proc p).state = .RUNNABLE
  live : ChildLive s' p c

theorem childMove_acquire {l : Lock} (hpc : p ≠ c) (hlive : ChildLive s p c)
    (hfree : s.holder l = none) :
    ChildMove s ⟨s.data, update s.holder l (some c), update s.prog c k⟩ p c where
  prog := update_of_ne hpc _ _
  held l' hl' := by
    have hne : l' ≠ l := by
      rintro rfl
      rw [hfree] at hl'
      cases hl'
    simpa [hne] using hl'
  notHeld l' hl' := by
    by_cases hne : l' = l
    · simp [hne, hpc.symm]
    · simpa [hne] using hl'
  chan := rfl
  state := Or.inl rfl
  live := ⟨hlive.parent, hlive.live⟩

theorem childMove_release {l : Lock} (hpc : p ≠ c) (hlive : ChildLive s p c)
    (hmine : s.holder l = some c) :
    ChildMove s ⟨s.data, update s.holder l none, update s.prog c k⟩ p c where
  prog := update_of_ne hpc _ _
  held l' hl' := by
    have hne : l' ≠ l := by
      rintro rfl
      exact hpc (Option.some.inj (hl'.symm.trans hmine))
    simpa [hne] using hl'
  notHeld l' hl' := by
    by_cases hne : l' = l
    · simp [hne]
    · simpa [hne] using hl'
  chan := rfl
  state := Or.inl rfl
  live := ⟨hlive.parent, hlive.live⟩

theorem childMove_op {o : Op} (hpc : p ≠ c) (hlive : ChildLive s p c) (ho : Harmless p c o) :
    ChildMove s ⟨(execOperation o s.data).2, s.holder, update s.prog c k⟩ p c := by
  obtain ⟨hparent, hstate, hchan, hp⟩ := ho s.data hlive.parent
  refine ⟨update_of_ne hpc _ _, fun _ h => h, fun _ h => h, hchan, hp, hparent, ?_⟩
  rw [hstate]
  exact hlive.live

theorem ChildMove.awake (h : ChildMove s s' p c) (hs : (s.data.proc p).state ≠ .SLEEPING) :
    (s'.data.proc p).state ≠ .SLEEPING := by
  rcases h.state with hsame | hrun
  · rw [hsame]
    exact hs
  · rw [hrun]
    decide

/-- The next step takes `wait_lock`. -/
def takesWait : Code → Bool
  | .acquire .wait _ _ => true
  | _ => false

/-- Before its exit, the child goes on or takes `wait_lock` when it is free. -/
theorem BeforeExit.next (h : BeforeExit c (s.prog c)) (hpc : p ≠ c) (hlive : ChildLive s p c)
    (hstep : next lockMachine c s = some s') :
    ChildMove s s' p c ∧ (BeforeExit c (s'.prog c) ∨
      (takesWait (s.prog c) = true ∧ s.holder .wait = none ∧ WakeAhead p c (s'.prog c))) := by
  generalize hk : s.prog c = k at h
  cases h with
  | user =>
    rw [next_ret hk] at hstep
    cases hstep
  | start =>
    obtain ⟨hfree, -, rfl⟩ := next_acquire hk hstep
    refine ⟨childMove_acquire hpc hlive hfree, Or.inl ?_⟩
    simpa using BeforeExit.run
  | run =>
    obtain rfl := next_op hk hstep
    refine ⟨⟨update_of_ne hpc _ _, fun _ h => h, fun _ h => h, ?_, Or.inl ?_, ?_, ?_⟩,
      Or.inl ?_⟩
    · simp [lockMachine, execOperation, Shared.setProc, hpc]
    · simp [lockMachine, execOperation, Shared.setProc, hpc]
    · simpa [lockMachine, execOperation, Shared.setProc] using hlive.parent
    · simp [lockMachine, execOperation, Shared.setProc]
    · simpa using BeforeExit.unlock
  | unlock =>
    obtain ⟨hmine, rfl⟩ := next_release hk hstep
    refine ⟨childMove_release hpc hlive hmine, Or.inl ?_⟩
    simpa using BeforeExit.user
  | exit =>
    obtain ⟨hfree, -, rfl⟩ := next_acquire hk hstep
    refine ⟨childMove_acquire hpc hlive hfree, Or.inr ⟨rfl, hfree, ?_⟩⟩
    simpa using wakeAhead_exit hpc

/-- On its way to the wakeup, the child goes on or takes the lock of its parent. -/
theorem wakeAhead_next (h : WakeAhead p c (s.prog c)) (hpc : p ≠ c) (hlive : ChildLive s p c)
    (hstep : next lockMachine c s = some s') :
    ChildMove s s' p c ∧ (WakeAhead p c (s'.prog c) ∨
      (s.holder (.proc p) = none ∧ AtWake p (s'.prog c))) := by
  cases hk : s.prog c with
  | ret =>
    rw [hk] at h
    cases h
  | acquire l g k =>
    rw [hk] at h
    obtain ⟨hfree, -, rfl⟩ := next_acquire hk hstep
    refine ⟨childMove_acquire hpc hlive hfree, ?_⟩
    rcases h with ⟨rfl, hat⟩ | hahead
    · exact Or.inr ⟨hfree, by simpa using hat⟩
    · exact Or.inl (by simpa using hahead)
  | release l k =>
    rw [hk] at h
    obtain ⟨hmine, rfl⟩ := next_release hk hstep
    refine ⟨childMove_release hpc hlive hmine, Or.inl ?_⟩
    simp only [update_self]
    exact h
  | op o k =>
    rw [hk] at h
    obtain rfl := next_op hk hstep
    refine ⟨childMove_op hpc hlive h.1, Or.inl ?_⟩
    simp only [update_self]
    exact h.2 s.data hlive.parent
  | jump l =>
    rw [hk] at h
    cases h

/-- Code without a sleep stays so, and wakes nobody up wrongly. -/
theorem noSleep_next (h : NoSleep (s.prog c)) (hpc : p ≠ c)
    (hstep : next lockMachine c s = some s') :
    s'.prog p = s.prog p ∧ NoSleep (s'.prog c) ∧
      ((s.data.proc p).state ≠ .SLEEPING → (s'.data.proc p).state ≠ .SLEEPING) := by
  cases hk : s.prog c with
  | ret =>
    rw [next_ret hk] at hstep
    cases hstep
  | acquire l g k =>
    rw [hk] at h
    obtain ⟨-, -, rfl⟩ := next_acquire hk hstep
    refine ⟨update_of_ne hpc _ _, ?_, id⟩
    simp only [update_self]
    exact h
  | release l k =>
    rw [hk] at h
    obtain ⟨-, rfl⟩ := next_release hk hstep
    refine ⟨update_of_ne hpc _ _, ?_, id⟩
    simp only [update_self]
    exact h
  | op o k =>
    rw [hk] at h
    obtain rfl := next_op hk hstep
    exact ⟨update_of_ne hpc _ _, by simpa using h.2 _, exec_awake h.1⟩
  | jump l =>
    rw [hk] at h
    cases h

/-! ## The two together -/

/-- Where the parent and the child stand. Until the parent is awake again, the
wakeup of the child is still to come. -/
inductive VforkPhase (p c : Fin NPROC) (s : LockState) : Prop where
  | before (hp : BeforeSleep p c (s.prog p)) (hstate : (s.data.proc p).state ≠ .SLEEPING)
      (hlock : s.holder (.proc p) ≠ some p) (hc : BeforeExit c (s.prog c))
      (hlive : ChildLive s p c)
  | waiting (hp : s.prog p = .acquire (.proc p) .always (.release .wait (vforkFall p)))
      (hstate : (s.data.proc p).state ≠ .SLEEPING) (hwait : s.holder .wait = some p)
      (hc : BeforeExit c (s.prog c)) (hlive : ChildLive s p c)
  | both (hp : s.prog p = .release .wait (vforkFall p))
      (hstate : (s.data.proc p).state ≠ .SLEEPING) (hwait : s.holder .wait = some p)
      (hlock : s.holder (.proc p) = some p) (hc : BeforeExit c (s.prog c))
      (hlive : ChildLive s p c)
  | falling (hp : s.prog p = vforkFall p) (hstate : (s.data.proc p).state ≠ .SLEEPING)
      (hlock : s.holder (.proc p) = some p)
      (hc : BeforeExit c (s.prog c) ∨ WakeAhead p c (s.prog c)) (hlive : ChildLive s p c)
  | asleep (hp : s.prog p = .release (.proc p) (vforkRest p) ∨ s.prog p = vforkRest p)
      (hstate : (s.data.proc p).state = .SLEEPING) (hchan : (s.data.proc p).chan = .proc p)
      (hc : BeforeExit c (s.prog c) ∨ WakeAhead p c (s.prog c) ∨ AtWake p (s.prog c))
      (hlive : ChildLive s p c)
  | awake (hp : AfterSleep p (s.prog p)) (hstate : (s.data.proc p).state ≠ .SLEEPING)

/-- The parent sleeps in `vfork`, and the child that should wake it is gone. -/
def Stranded (p c : Fin NPROC) (s : LockState) : Prop :=
  (s.data.proc p).state = .SLEEPING ∧
    ((s.data.proc c).state = .ZOMBIE ∨ (s.data.proc c).state = .UNUSED)

theorem VforkPhase.not_stranded (h : VforkPhase p c s) : ¬ Stranded p c s := by
  rintro ⟨hsleep, hgone⟩
  cases h with
  | before _ hstate => exact hstate hsleep
  | waiting _ hstate => exact hstate hsleep
  | both _ hstate => exact hstate hsleep
  | falling _ hstate => exact hstate hsleep
  | asleep _ _ _ _ hlive =>
    rcases hgone with hgone | hgone
    · exact hlive.live.1 hgone
    · exact hlive.live.2 hgone
  | awake _ hstate => exact hstate hsleep

/-- When the child takes `wait_lock` in `exit`, the parent is inside `sleep`: it holds
its own lock, or sleeps already. -/
def ParentFirst (p c : Fin NPROC) (s : LockState) : LockAct → Prop
  | .run t => t = c → takesWait (s.prog c) = true →
      s.holder (.proc p) = some p ∨ (s.data.proc p).state = .SLEEPING
  | .start .. => True

instance (p c : Fin NPROC) (s : LockState) (a : LockAct) : Decidable (ParentFirst p c s a) :=
  match a with
  | .run t => inferInstanceAs (Decidable (t = c → takesWait (s.prog c) = true →
      s.holder (.proc p) = some p ∨ (s.data.proc p).state = .SLEEPING))
  | .start .. => .isTrue trivial

theorem AfterSleep.of_asleep {k : Code}
    (h : k = .release (.proc p) (vforkRest p) ∨ k = vforkRest p) : AfterSleep p k := by
  rcases h with rfl | rfl
  · exact .sched
  · exact .rest

/-- The child goes on while the parent sleeps, and may have woken it. -/
theorem ChildMove.asleep (hmove : ChildMove s s' p c)
    (hp : s.prog p = .release (.proc p) (vforkRest p) ∨ s.prog p = vforkRest p)
    (hstate : (s.data.proc p).state = .SLEEPING) (hchan : (s.data.proc p).chan = .proc p)
    (hc : BeforeExit c (s'.prog c) ∨ WakeAhead p c (s'.prog c) ∨ AtWake p (s'.prog c)) :
    VforkPhase p c s' := by
  rcases hmove.state with hsame | hrun
  · exact .asleep (hmove.prog ▸ hp) (hsame.trans hstate) (hmove.chan.trans hchan) hc hmove.live
  · exact .awake (hmove.prog ▸ .of_asleep hp) (by rw [hrun]; decide)

/-- The step of the child, which keeps its own part of the invariant. -/
theorem VforkPhase.child (h : VforkPhase p c s) (hpc : p ≠ c) (hquiet : NoSleep (s.prog c))
    (hfirst : ParentFirst p c s (.run c)) (hstep : next lockMachine c s = some s') :
    VforkPhase p c s' := by
  cases h with
  | before hp hstate hlock hc hlive =>
    obtain ⟨hmove, hnext⟩ := hc.next hpc hlive hstep
    rcases hnext with hnext | ⟨htakes, -, -⟩
    · exact .before (hmove.prog ▸ hp) (hmove.awake hstate) (hmove.notHeld _ hlock) hnext
        hmove.live
    · rcases hfirst rfl htakes with hheld | hsleep
      · exact absurd hheld hlock
      · exact absurd hsleep hstate
  | waiting hp hstate hwait hc hlive =>
    obtain ⟨hmove, hnext⟩ := hc.next hpc hlive hstep
    rcases hnext with hnext | ⟨-, hfree, -⟩
    · exact .waiting (hmove.prog.trans hp) (hmove.awake hstate) (hmove.held _ hwait) hnext
        hmove.live
    · rw [hwait] at hfree
      cases hfree
  | both hp hstate hwait hlock hc hlive =>
    obtain ⟨hmove, hnext⟩ := hc.next hpc hlive hstep
    rcases hnext with hnext | ⟨-, hfree, -⟩
    · exact .both (hmove.prog.trans hp) (hmove.awake hstate) (hmove.held _ hwait)
        (hmove.held _ hlock) hnext hmove.live
    · rw [hwait] at hfree
      cases hfree
  | falling hp hstate hlock hc hlive =>
    have hnext : ChildMove s s' p c ∧ (BeforeExit c (s'.prog c) ∨ WakeAhead p c (s'.prog c)) := by
      rcases hc with hc | hc
      · obtain ⟨hmove, hnext⟩ := hc.next hpc hlive hstep
        rcases hnext with hnext | ⟨-, -, hnext⟩
        · exact ⟨hmove, Or.inl hnext⟩
        · exact ⟨hmove, Or.inr hnext⟩
      · obtain ⟨hmove, hnext⟩ := wakeAhead_next hc hpc hlive hstep
        rcases hnext with hnext | ⟨hfree, -⟩
        · exact ⟨hmove, Or.inr hnext⟩
        · rw [hlock] at hfree
          cases hfree
    obtain ⟨hmove, hc'⟩ := hnext
    exact .falling (hmove.prog.trans hp) (hmove.awake hstate) (hmove.held _ hlock) hc' hmove.live
  | asleep hp hstate hchan hc hlive =>
    rcases hc with hc | hc | ⟨k, hk⟩
    · obtain ⟨hmove, hnext⟩ := hc.next hpc hlive hstep
      refine hmove.asleep hp hstate hchan ?_
      rcases hnext with hnext | ⟨-, -, hnext⟩
      · exact Or.inl hnext
      · exact Or.inr (Or.inl hnext)
    · obtain ⟨hmove, hnext⟩ := wakeAhead_next hc hpc hlive hstep
      refine hmove.asleep hp hstate hchan ?_
      rcases hnext with hnext | ⟨-, hnext⟩
      · exact Or.inr (Or.inl hnext)
      · exact Or.inr (Or.inr hnext)
    · obtain rfl := next_op hk hstep
      refine .awake ?_ ?_
      · simp only [update_of_ne hpc]
        exact .of_asleep hp
      · simp [lockMachine, execOperation, hstate, hchan, Shared.setProc]
  | awake hp hstate =>
    obtain ⟨hprog, -, hawake⟩ := noSleep_next hquiet hpc hstep
    exact .awake (hprog ▸ hp) (hawake hstate)

/-- A step of the parent that only moves locks. -/
theorem ChildLive.congr (h : ChildLive s p c) (hdata : s'.data = s.data) : ChildLive s' p c := by
  refine ⟨?_, ?_⟩
  · rw [hdata]
    exact h.parent
  · rw [hdata]
    exact h.live

/-- The parent goes on within the part before its sleep. -/
theorem VforkPhase.before_step {holder : Lock → Option (Fin NPROC)} (hpc : p ≠ c)
    (hk : BeforeSleep p c k) (hstate : (s.data.proc p).state ≠ .SLEEPING)
    (hlock : holder (.proc p) ≠ some p) (hc : BeforeExit c (s.prog c)) (hlive : ChildLive s p c) :
    VforkPhase p c ⟨s.data, holder, update s.prog p k⟩ := by
  refine .before ?_ hstate hlock ?_ (hlive.congr rfl)
  · simpa using hk
  · simpa [hpc.symm] using hc

theorem BeforeSleep.next (h : BeforeSleep p c (s.prog p)) (hpc : p ≠ c)
    (hstate : (s.data.proc p).state ≠ .SLEEPING) (hlock : s.holder (.proc p) ≠ some p)
    (hc : BeforeExit c (s.prog c)) (hlive : ChildLive s p c)
    (hstep : next lockMachine p s = some s') : VforkPhase p c s' := by
  have hother : ∀ o, update s.holder (.proc c) o (.proc p) ≠ some p := by
    intro o
    have hne : Lock.proc p ≠ .proc c := by simpa using hpc
    simpa [hne] using hlock
  generalize hk : s.prog p = k at h
  cases h with
  | publish =>
    obtain ⟨-, -, rfl⟩ := next_acquire hk hstep
    exact .before_step hpc .runnable hstate (hother _) hc hlive
  | runnable =>
    obtain rfl := next_op hk hstep
    refine .before ?_ ?_ hlock ?_ ⟨?_, ?_⟩
    · simpa using BeforeSleep.unlock
    · simpa [lockMachine, execOperation, Shared.setProc, hpc] using hstate
    · simpa [hpc.symm] using hc
    · simpa [lockMachine, execOperation, Shared.setProc] using hlive.parent
    · simp [lockMachine, execOperation, Shared.setProc]
  | unlock =>
    obtain ⟨-, rfl⟩ := next_release hk hstep
    exact .before_step hpc .priority hstate (hother _) hc hlive
  | priority =>
    obtain ⟨-, -, rfl⟩ := next_acquire hk hstep
    exact .before_step hpc .queue hstate (hother _) hc hlive
  | queue =>
    obtain ⟨-, rfl⟩ := next_release hk hstep
    exact .before_step hpc .sleep hstate (hother _) hc hlive
  | sleep =>
    obtain ⟨-, -, rfl⟩ := next_acquire hk hstep
    refine .waiting ?_ hstate (by simp) ?_ (hlive.congr rfl)
    · simp only [update_self]
      rfl
    · simpa [hpc.symm] using hc

theorem AfterSleep.next (h : AfterSleep p (s.prog p))
    (hstate : (s.data.proc p).state ≠ .SLEEPING) (hstep : next lockMachine p s = some s') :
    AfterSleep p (s'.prog p) ∧ (s'.data.proc p).state ≠ .SLEEPING := by
  generalize hk : s.prog p = k at h
  cases h with
  | sched =>
    obtain ⟨-, rfl⟩ := next_release hk hstep
    exact ⟨by simpa using AfterSleep.rest, hstate⟩
  | rest =>
    obtain ⟨-, -, rfl⟩ := next_acquire hk hstep
    exact ⟨by simpa using AfterSleep.run, hstate⟩
  | run =>
    obtain rfl := next_op hk hstep
    refine ⟨by simpa using AfterSleep.unlock, ?_⟩
    simp [lockMachine, execOperation, Shared.setProc]
  | unlock =>
    obtain ⟨-, rfl⟩ := next_release hk hstep
    exact ⟨by simpa using AfterSleep.retake, hstate⟩
  | retake =>
    obtain ⟨-, -, rfl⟩ := next_acquire hk hstep
    exact ⟨by simpa using AfterSleep.leave, hstate⟩
  | leave =>
    obtain ⟨-, rfl⟩ := next_release hk hstep
    exact ⟨by simpa using AfterSleep.user, hstate⟩
  | user =>
    rw [next_ret hk] at hstep
    cases hstep

theorem VforkPhase.parent (h : VforkPhase p c s) (hpc : p ≠ c)
    (hstep : next lockMachine p s = some s') : VforkPhase p c s' := by
  cases h with
  | before hp hstate hlock hc hlive => exact hp.next hpc hstate hlock hc hlive hstep
  | waiting hp hstate hwait hc hlive =>
    obtain ⟨-, -, rfl⟩ := next_acquire hp hstep
    refine .both (by simp) hstate ?_ (by simp) ?_ (hlive.congr rfl)
    · simpa using hwait
    · simpa [hpc.symm] using hc
  | both hp hstate hwait hlock hc hlive =>
    obtain ⟨-, rfl⟩ := next_release hp hstep
    refine .falling (by simp) hstate ?_ ?_ (hlive.congr rfl)
    · simpa using hlock
    · simpa [hpc.symm] using Or.inl hc
  | falling hp hstate hlock hc hlive =>
    obtain rfl := next_op hp hstep
    refine .asleep (Or.inl ?_) ?_ ?_ ?_ ⟨?_, ?_⟩
    · simp
    · simp [lockMachine, execOperation, Shared.setProc]
    · simp [lockMachine, execOperation, Shared.setProc]
    · simp only [update_of_ne hpc.symm]
      rcases hc with hc | hc
      · exact Or.inl hc
      · exact Or.inr (Or.inl hc)
    · simpa [lockMachine, execOperation, Shared.setProc, hpc.symm] using hlive.parent
    · simpa [lockMachine, execOperation, Shared.setProc, hpc.symm] using hlive.live
  | asleep hp hstate hchan hc hlive =>
    rcases hp with hp | hp
    · obtain ⟨-, rfl⟩ := next_release hp hstep
      refine .asleep (Or.inr (by simp)) hstate hchan ?_ (hlive.congr rfl)
      simp only [update_of_ne hpc.symm]
      exact hc
    · obtain ⟨-, hguard, -⟩ := next_acquire hp hstep
      simp [lockMachine, Guard.holds, hstate] at hguard
  | awake hp hstate =>
    obtain ⟨hp', hstate'⟩ := hp.next hstate hstep
    exact .awake hp' hstate'

/-! ## Runs -/

/-- The new process has its parent and waits to be made `RUNNABLE`. -/
structure VforkStart (s : LockState) (p c : Fin NPROC) : Prop where
  ne : p ≠ c
  code : s.prog p = makeRunnable c (vforkSleep p)
  child : s.prog c = .ret
  running : (s.data.proc p).state = .RUNNING
  used : (s.data.proc c).state = .USED
  parent : (s.data.proc c).parent = some p
  lock : s.holder (.proc p) ≠ some p

/-- The parent goes on in `vfork`, and the child starts to run and exits. -/
def VforkAct (p c : Fin NPROC) : LockAct → Prop
  | .run t => t = p ∨ t = c
  | .start t (.forkret q) | .start t (.exit q) => t = c ∧ q = c
  | .start .. => False

instance (p c : Fin NPROC) (a : LockAct) : Decidable (VforkAct p c a) :=
  match a with
  | .run t => inferInstanceAs (Decidable (t = p ∨ t = c))
  | .start t (.forkret q) | .start t (.exit q) => inferInstanceAs (Decidable (t = c ∧ q = c))
  | .start _ (.semop ..) | .start _ (.semLoop ..) | .start _ (.semSignal ..)
  | .start _ (.fork ..) | .start _ (.vfork ..) | .start _ (.wait ..) | .start _ (.waitLoop ..)
  | .start _ (.kill ..) | .start _ (.yield _) => .isFalse id

/-- The child starts to run, or begins its exit. -/
theorem VforkPhase.start (h : VforkPhase p c s) (hprog : s'.prog p = s.prog p)
    (hdata : s'.data = s.data) (hholder : s'.holder = s.holder)
    (hc' : BeforeExit c (s'.prog c)) : VforkPhase p c s' := by
  have hstate' : (s'.data.proc p).state = (s.data.proc p).state := by rw [hdata]
  cases h with
  | before hp hstate hlock hc hlive =>
    exact .before (hprog ▸ hp) (hstate' ▸ hstate) (hholder ▸ hlock) hc' (hlive.congr hdata)
  | waiting hp hstate hwait hc hlive =>
    exact .waiting (hprog.trans hp) (hstate' ▸ hstate) (hholder ▸ hwait) hc' (hlive.congr hdata)
  | both hp hstate hwait hlock hc hlive =>
    exact .both (hprog.trans hp) (hstate' ▸ hstate) (hholder ▸ hwait) (hholder ▸ hlock) hc'
      (hlive.congr hdata)
  | falling hp hstate hlock hc hlive =>
    exact .falling (hprog.trans hp) (hstate' ▸ hstate) (hholder ▸ hlock) (Or.inl hc')
      (hlive.congr hdata)
  | asleep hp hstate hchan hc hlive =>
    exact .asleep (hprog ▸ hp) (hstate'.trans hstate) (hdata ▸ hchan) (Or.inl hc')
      (hlive.congr hdata)
  | awake hp hstate => exact .awake (hprog ▸ hp) (hstate' ▸ hstate)

theorem vforkPhase_begin {call : LockCall} (h : VforkPhase p c s) (hpc : p ≠ c)
    (hbody : BeforeExit c (codeOf call)) (hstep : Step lockMachine s (.start c call) s') :
    VforkPhase p c s' ∧ NoSleep (s'.prog c) := by
  obtain ⟨-, -, rfl⟩ := step_start hstep
  have hcode : BeforeExit c (update s.prog c (lockMachine.body call) c) := by
    rw [update_self]
    exact hbody
  exact ⟨h.start (update_of_ne hpc _ _) rfl rfl hcode, hcode.noSleep⟩

theorem vforkPhase_step {a : LockAct} (h : VforkPhase p c s ∧ NoSleep (s.prog c)) (hpc : p ≠ c)
    (ha : VforkAct p c a) (hfirst : ParentFirst p c s a) (hstep : Step lockMachine s a s') :
    VforkPhase p c s' ∧ NoSleep (s'.prog c) := by
  obtain ⟨hphase, hquiet⟩ := h
  cases a with
  | run t =>
    rcases ha with rfl | rfl
    · refine ⟨hphase.parent hpc hstep, ?_⟩
      rw [next_prog_of_ne hpc.symm hstep]
      exact hquiet
    · exact ⟨hphase.child hpc hquiet hfirst hstep, (noSleep_next hquiet hpc hstep).2.1⟩
  | start t call =>
    cases call with
    | forkret q =>
      obtain ⟨rfl, rfl⟩ := ha
      exact vforkPhase_begin hphase hpc .start hstep
    | exit q =>
      obtain ⟨rfl, rfl⟩ := ha
      exact vforkPhase_begin hphase hpc .exit hstep
    | _ => cases ha

theorem VforkStart.phase (h : VforkStart s p c) : VforkPhase p c s ∧ NoSleep (s.prog c) := by
  rw [h.child]
  refine ⟨.before ?_ ?_ h.lock ?_ ⟨h.parent, ?_⟩, trivial⟩
  · rw [h.code]
    exact .publish
  · rw [h.running]
    decide
  · rw [h.child]
    exact .user
  · rw [h.used]
    decide

/-- In every interleaving in which the parent is first to take `wait_lock`, it never
sleeps in `vfork` when its child is a zombie or has been reaped. -/
theorem vfork_not_missed {run : List (LockAct × LockState)} (hstart : VforkStart s p c)
    (hrun : IsRun (Step lockMachine) s run) (hacts : ∀ a ∈ run.map Prod.fst, VforkAct p c a)
    (hok : Along (ParentFirst p c) s run) : ∀ t ∈ visited s run, ¬ Stranded p c t := by
  have hinv := hrun.invariant (fun s a => VforkAct p c a ∧ ParentFirst p c s a)
    (fun s => VforkPhase p c s ∧ NoSleep (s.prog c))
    (fun _ _ _ h hok hstep => vforkPhase_step h hstart.ne hok.1 hok.2 hstep) hstart.phase
    ((Along.of_labels hacts).and hok)
  intro t ht
  exact (hinv t ht).1.not_stranded

/-! ## Two runs -/

/-- The child runs and exits before the parent takes `wait_lock`. -/
def exitFirst : List LockAct :=
  [.start 0 (.vfork 0 .full)] ++ steps 0 19 ++ [.start 1 (.forkret 1)] ++ steps 1 3 ++
  [.start 1 (.exit 1)] ++ steps 1 260 ++ steps 0 5

/-- The child has nothing left to run, and its parent sleeps. -/
theorem exit_before_sleep :
    ∃ run, IsRun (Step lockMachine) (idleState (oneProcess [])) run ∧
      run.map Prod.fst = exitFirst ∧
      Stranded 0 1 (last (idleState (oneProcess [])) run) ∧
      (last (idleState (oneProcess [])) run).prog 1 = .ret := by
  obtain ⟨run, hrun, hacts, hsleep, hzombie, hret⟩ := exists_run lockMachine exitFirst
    (idleState (oneProcess []))
    (fun run =>
      let t := last (idleState (oneProcess [])) run
      (t.data.proc 0).state = .SLEEPING ∧ (t.data.proc 1).state = .ZOMBIE ∧
        (t.prog 1).isRet = true)
    (by decide +kernel)
  exact ⟨run, hrun, hacts, ⟨hsleep, Or.inl hzombie⟩, Prog.eq_ret hret⟩

/-- `vfork` of process 0 has filled in process 1. -/
def vforkPoint : LockState where
  data :=
    let d := oneProcess []
    d.setProc 1 { ProcInfo.unused with
      state := .USED, pid := 2, parent := some 0, vforked := true, pagetable := true }
  holder _ := none
  prog p := if p = 0 then makeRunnable 1 (vforkSleep 0) else .ret

theorem vforkStart_point : VforkStart vforkPoint 0 1 where
  ne := by decide
  code := rfl
  child := rfl
  running := rfl
  used := rfl
  parent := rfl
  lock := by simp [vforkPoint]

/-- The parent sleeps before its child exits. -/
def sleepFirst : List LockAct :=
  steps 0 10 ++ [.start 1 (.forkret 1)] ++ steps 1 3 ++ [.start 1 (.exit 1)] ++ steps 1 260 ++
  steps 0 5

theorem sleep_before_exit :
    ∃ run, IsRun (Step lockMachine) vforkPoint run ∧ run.map Prod.fst = sleepFirst ∧
      Along (ParentFirst 0 1) vforkPoint run ∧
      ((last vforkPoint run).data.proc 0).state = .RUNNING ∧
      ∀ t ∈ visited vforkPoint run, ¬ Stranded 0 1 t := by
  obtain ⟨run, hrun, hacts, hok, hawake⟩ := exists_run lockMachine sleepFirst vforkPoint
    (fun run => Along (ParentFirst 0 1) vforkPoint run ∧
      ((last vforkPoint run).data.proc 0).state = .RUNNING)
    (by decide +kernel)
  have hparties : ∀ a ∈ run.map Prod.fst, VforkAct 0 1 a := by
    rw [hacts]
    decide +kernel
  exact ⟨run, hrun, hacts, hok, hawake, vfork_not_missed vforkStart_point hrun hparties hok⟩

end LearnOS.Sched
