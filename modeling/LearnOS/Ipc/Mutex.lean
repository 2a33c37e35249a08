import LearnOS.Ipc.Keys
import LearnOS.Ipc.SemWake
import LearnOS.Lib.Mutex

/-!
# The user mutex

`mutex.c`: a set with one semaphore of value one. A process that finds the value
at zero sleeps in the queue; the releaser takes the unit for it before it runs
again.

## Implementation notes

The two critical sections of `semop` are one step. The first one only looks at
the state of the set, and no step of these runs changes it. The set of holders
is an observation of the run: a process enters it when `acquire_mutex` returns
and leaves it with the signal of `release_mutex`.
-/

namespace LearnOS.Ipc

open LearnOS Transition Semaphore Function Kres

variable {L : Layout} {k k' : Kernel} {id : ℕ} {p : Fin NPROC} {events : List SemEvent}
  {r : SemResult} {key : ℕ}

/-- `IPC_CREATE | IPC_EXCL | 0x0666`. -/
def mutexFlag : ℕ := 0xc666

def initMutex (L : Layout) (p : Fin NPROC) (key : ℕ) (k : Kernel) : Kres (ℤ × Kernel) := do
  let (mid, k) ← semget L p key 1 mutexFlag k
  let (_, k) ← semctl L p mid 0 SETVAL 1 (fun _ => 0) k
  return (mid, k)

def acquireBuf : SemBuf := ⟨0, -1, 0⟩

def releaseBuf : SemBuf := ⟨0, 1, 0⟩

def acquireMutex (L : Layout) (p : Fin NPROC) (mutexid : ℕ) (k : Kernel) :
    Kres (SemResult × List SemEvent × Kernel) :=
  semop L p mutexid [acquireBuf] k

def releaseMutex (L : Layout) (p : Fin NPROC) (mutexid : ℕ) (k : Kernel) :
    Kres (SemResult × List SemEvent × Kernel) :=
  semop L p mutexid [releaseBuf] k

structure MutexState where
  kernel : Kernel
  holders : Finset (Fin NPROC)

inductive MutexOp where
  | acquire (p : Fin NPROC)
  | release (p : Fin NPROC)
  | resume (p : Fin NPROC)
  | fork (p : Fin NPROC)
  | exit (p : Fin NPROC)

/-- The calls of the processes that share the mutex `id`. Only a holder releases. -/
inductive MutexStep (L : Layout) (id : ℕ) : MutexState → MutexOp → MutexState → Prop
  | acquire {k k' : Kernel} {held : Finset (Fin NPROC)} {p : Fin NPROC} {r : SemResult}
      {events : List SemEvent} (hin : Inside k p)
      (hcall : acquireMutex L p id k = .ok (r, events, k')) :
      MutexStep L id ⟨k, held⟩ (.acquire p) ⟨k', if r = .done 0 then insert p held else held⟩
  | release {k k' : Kernel} {held : Finset (Fin NPROC)} {p : Fin NPROC} {r : SemResult}
      {events : List SemEvent} (hin : Inside k p) (hholds : p ∈ held)
      (hcall : releaseMutex L p id k = .ok (r, events, k')) :
      MutexStep L id ⟨k, held⟩ (.release p) ⟨k', held.erase p⟩
  | resume {k k' : Kernel} {held : Finset (Fin NPROC)} {p : Fin NPROC} {r : SemResult}
      {events : List SemEvent} {ops : List SemBuf} (hrun : Running k.vm p)
      (hwait : k.semCall p = some (id, ops)) (hcall : semopResume L p k = .ok (r, events, k')) :
      MutexStep L id ⟨k, held⟩ (.resume p) ⟨k', if r = .done 0 then insert p held else held⟩
  | fork {k k' : Kernel} {held : Finset (Fin NPROC)} {p : Fin NPROC} {r : Option (Fin NPROC)}
      (hin : Inside k p) (hcall : fork L p k = .ok (r, k')) :
      MutexStep L id ⟨k, held⟩ (.fork p) ⟨k', held⟩
  | exit {k k' : Kernel} {held : Finset (Fin NPROC)} {p : Fin NPROC} (hin : Inside k p)
      (hcall : exit p k = .ok k') : MutexStep L id ⟨k, held⟩ (.exit p) ⟨k', held⟩

/-! ## The set -/

/-- The state and the length of every set. -/
def Kernel.sets (k : Kernel) (id : ℕ) : IpcState × ℕ := ((k.slot (.sem, id)).state, (k.semid id).sz)

theorem sets_quiet : Quiet Kernel.sets where
  heap _ _ := rfl
  sem k id i s := by
    funext j
    by_cases hj : j = id
    · subst hj
      simp [Kernel.sets, Kernel.setSemaphore, Kernel.setSem]
    · simp [Kernel.sets, Kernel.setSemaphore, Kernel.setSem, hj]
  state _ _ _ := rfl
  want _ _ _ := rfl
  msq _ _ _ := rfl
  msg _ _ _ := rfl
  call _ _ _ := rfl

theorem sets_share (k : Kernel) (c : IpcKind) (n : IpcNode) : (k.share p c n).sets = k.sets := by
  funext j
  by_cases hj : (IpcKind.sem, j) = (c, n.slot)
  · obtain ⟨rfl, rfl⟩ := Prod.mk.inj hj
    simp [Kernel.sets, Kernel.share, addRef, Kernel.setSlot, Kernel.setNodes]
  · simp only [Kernel.sets, Kernel.share, addRef, Kernel.setSlot, Kernel.setNodes,
      update_of_ne hj]

theorem sets_sharing (p : Fin NPROC) : Sharing p Kernel.sets fun a b => b = a :=
  .of_kept (fun _ _ => rfl) (fun _ _ _ => rfl) sets_share

/-! ## The critical sections -/

/-- The set is in use and has one semaphore. -/
structure OneSem (k : Kernel) (id : ℕ) : Prop where
  lt : id < SEMMAX
  used : (k.slot (.sem, id)).state ≠ .UNUSED
  size : (k.semid id).sz = 1

theorem OneSem.of_sets (h : OneSem k id) (hsets : k'.sets = k.sets) : OneSem k' id := by
  have hid := congrFun hsets id
  simp only [Kernel.sets, Prod.mk.injEq] at hid
  exact ⟨h.lt, hid.1 ▸ h.used, hid.2.trans h.size⟩

/-- A `semop` on the set that returns has executed its loop. -/
theorem semop_loop (h : OneSem k id) {b : SemBuf}
    (hcall : semop L p id [b] k = .ok (r, events, k')) :
    ∃ s, semopLoop L p id [b] (k.setHeap s) = .ok (r, events, k') := by
  cases semop_done hcall with
  | refused hwhy =>
    rcases hwhy with hmax | hunused
    · have hlt := h.lt
      omega
    · exact absurd hunused h.used
  | @entered id' s hid _ _ hloop =>
    obtain rfl : id = id' := Int.ofNat_inj.mp hid
    exact ⟨s, hloop⟩

/-- `acquire_mutex` takes the unit, or goes to sleep without it. -/
theorem acquire_section (h : OneSem k id) (hinv : WaitInv k.waits) (hin : Inside k p)
    (hcall : acquireMutex L p id k = .ok (r, events, k')) :
    WaitInv k'.waits ∧
      ((r = .done 0 ∧ 1 ≤ (k.sem id 0).value ∧ k'.semCall = k.semCall ∧
        k'.waits.units = k.waits.units.setValue (id, 0) ((k.sem id 0).value - 1)) ∨
      (r = .asleep ∧ (k.sem id 0).value < 1 ∧
        k'.semCall = update k.semCall p (some (id, [acquireBuf])) ∧
        k'.waits.units = k.waits.units.enqueue p (id, 0) 1)) := by
  obtain ⟨s, hloop⟩ := semop_loop h hcall
  have hsz : ((k.setHeap s).semid id).sz = 1 := h.size
  simp only [semopLoop] at hloop
  rw [if_neg (by rw [hsz]; decide), if_pos (by decide)] at hloop
  split at hloop
  · rename_i hlt
    rw [if_neg (by rw [nowait_clear]; decide)] at hloop
    simp only [insertLast, bind_eq_ok, pure_eq_ok, Prod.mk.injEq] at hloop
    obtain ⟨k₁, ⟨⟨addr, k₂⟩, hk₂, rfl⟩, rfl, -, rfl⟩ := hloop
    obtain ⟨s', -, rfl, -⟩ := Kernel.kmallocNode_ok hk₂
    obtain ⟨hinv', hunits⟩ := sleepSem_spec id (b := acquireBuf) [] addr
      (k := (k.setHeap s).setHeap s') hinv ⟨hin.call, hin.run⟩ (by decide)
    exact ⟨hinv', Or.inr ⟨rfl, hlt, rfl, hunits⟩⟩
  · rename_i hle
    simp only [bind_eq_ok, pure_eq_ok, Prod.mk.injEq] at hloop
    obtain ⟨⟨r', events', k₁⟩, hk₁, rfl, -, rfl⟩ := hloop
    cases hk₁
    have hset := WaitInv.setValue (k := k.setHeap s) hinv id 0 ((k.sem id 0).value - 1)
    exact ⟨hset.1, Or.inl ⟨rfl, not_lt.mp hle, rfl, hset.2⟩⟩

/-- `release_mutex` puts the unit back and serves the queue. -/
theorem release_section (h : OneSem k id) (hinv : WaitInv k.waits) (hin : Inside k p)
    (hvalue : (k.sem id 0).value = 0) (hcall : releaseMutex L p id k = .ok (r, events, k')) :
    WaitInv k'.waits ∧ k'.semCall = k.semCall ∧ ∃ es, Serves (id, 0)
      (k.waits.units.setValue (id, 0) (k.waits.units.value (id, 0) + 1)) es k'.waits.units := by
  obtain ⟨s, hloop⟩ := semop_loop h hcall
  have hsz : ((k.setHeap s).semid id).sz = 1 := h.size
  simp only [semopLoop] at hloop
  rw [if_neg (by rw [hsz]; decide), if_neg (by decide), if_pos (by decide)] at hloop
  simp only [bind_eq_ok, pure_eq_ok, Prod.mk.injEq] at hloop
  obtain ⟨⟨grants, k₁⟩, hgrant, ⟨r', events', k₂⟩, hk₂, rfl, -, rfl⟩ := hloop
  cases hk₂
  have hset := WaitInv.setValue (k := k.setHeap s) hinv id releaseBuf.semIndex
    (wrap32 (((k.setHeap s).sem id releaseBuf.semIndex).value + releaseBuf.semOp))
  obtain ⟨hserves, hinv₁, -⟩ := grantLoop_serves hgrant hset.1 ⟨hin.call, hin.run⟩
    (by simp [Kernel.sem, Kernel.setSemaphore, Kernel.setSem, releaseBuf])
  have hwrap : wrap32 (((k.setHeap s).sem id releaseBuf.semIndex).value + releaseBuf.semOp) =
      k.waits.units.value (id, 0) + 1 := by
    change wrap32 ((k.sem id 0).value + 1) = (k.sem id 0).value + 1
    rw [hvalue]
    decide
  have hcalls := grantLoop_granting semCall_granting hgrant
  rw [hset.2, hwrap] at hserves
  exact ⟨hinv₁, hcalls, _, hserves⟩

/-- A waiter that has been served goes on and `acquire_mutex` returns. -/
theorem resume_section (hinv : WaitInv k.waits) (hrun : Running k.vm p)
    (hwait : k.semCall p = some (id, [acquireBuf]))
    (hcall : semopResume L p k = .ok (r, events, k')) :
    r = .done 0 ∧ WaitInv k'.waits ∧ k'.semCall = update k.semCall p none ∧
      k.waits.units.phase p = .served (id, 0) 1 ∧
      k'.waits.units = k.waits.units.setPhase p .out := by
  obtain ⟨id', b, rest, hc, hsec⟩ := semopResume_section hcall hinv hrun
  rw [hwait] at hc
  obtain ⟨rfl, hops⟩ := Prod.mk.inj (Option.some.inj hc)
  obtain ⟨rfl, rfl⟩ := List.cons.inj hops
  obtain ⟨id, b, rest, events', hc, -, hloop, -⟩ := semopResume_ok hcall
  rw [hwait] at hc
  cases hc
  cases hloop
  have hawake : k.waits.state p ≠ .SLEEPING := by
    intro hs
    rcases hrun with h | h <;> exact ProcState.noConfusion (hs.symm.trans h)
  have hserved := Waits.phase_eq_served (w := k.waits) (b := acquireBuf) hwait hawake
  refine ⟨rfl, hsec.inv, rfl, hserved, ?_⟩
  rw [waits_setCall]
  refine State.ext rfl rfl (Waits.phase_update ?_ (fun q hq => by simp [hq]) fun _ _ => rfl)
  exact Waits.phase_eq_out (by simp)

/-! ## Runs -/

structure MutexInv (id : ℕ) (s : MutexState) : Prop where
  set : OneSem s.kernel id
  waits : WaitInv s.kernel.waits
  call : ∀ q ops, s.kernel.semCall q = some (id, ops) → ops = [acquireBuf]
  unit : Exclusive (id, 0) s.kernel.waits.units s.holders

theorem MutexInv.sameWaits {held : Finset (Fin NPROC)} (h : MutexInv id ⟨k, held⟩)
    (hset : OneSem k' id) (hsame : SameWaits k.waits k'.waits) : MutexInv id ⟨k', held⟩ where
  set := hset
  waits := hsame.waitInv h.waits
  call q ops hq := h.call q ops ((congrFun hsame.call q).symm.trans hq)
  unit := by
    have hunits := hsame.units_eq
    exact h.unit.congr (by rw [hunits]) (by rw [hunits]) (by rw [hunits])

theorem mutexInv_step {s t : MutexState} {op : MutexOp} (h : MutexInv id s)
    (hstep : MutexStep L id s op t) : MutexInv id t := by
  cases hstep with
  | @acquire k k' held p r events hin hcall =>
    have hset := h.set.of_sets (semop_quiet sets_quiet hcall)
    obtain ⟨hinv, ⟨rfl, hle, hcalls, hunits⟩ | ⟨rfl, hlt, hcalls, hunits⟩⟩ :=
      acquire_section h.set h.waits hin hcall
    · refine ⟨hset, hinv, fun q ops hq => h.call q ops (hcalls ▸ hq), ?_⟩
      rw [if_pos rfl, hunits]
      exact h.unit.take hle
    · refine ⟨hset, hinv, fun q ops hq => ?_, ?_⟩
      · change k'.semCall q = some (id, ops) at hq
        rw [hcalls] at hq
        by_cases hqp : q = p
        · subst hqp
          simpa [eq_comm] using hq
        · rw [update_of_ne hqp] at hq
          exact h.call q ops hq
      · rw [if_neg (by decide), hunits]
        exact h.unit.sleep (Waits.phase_eq_out hin.call) hlt
  | @release k k' held p r events hin hholds hcall =>
    have hset := h.set.of_sets (semop_quiet sets_quiet hcall)
    have hvalue : (k.sem id 0).value = 0 := by
      have hsum : (k.sem id 0).value + held.card + _ = 1 := h.unit.sum
      have hpos : 0 ≤ (k.sem id 0).value := h.unit.nonneg
      have hone : 0 < held.card := Finset.card_pos.mpr ⟨p, hholds⟩
      omega
    obtain ⟨hinv, hcalls, es, hserves⟩ := release_section h.set h.waits hin hvalue hcall
    exact ⟨hset, hinv, fun q ops hq => h.call q ops (hcalls ▸ hq), h.unit.signal hholds hserves⟩
  | @resume k k' held p r events ops hrun hwait hcall =>
    have hset := h.set.of_sets (semopResume_quiet sets_quiet hcall)
    obtain rfl := h.call p ops hwait
    obtain ⟨rfl, hinv, hcalls, hserved, hunits⟩ := resume_section h.waits hrun hwait hcall
    refine ⟨hset, hinv, fun q ops hq => ?_, ?_⟩
    · change k'.semCall q = some (id, ops) at hq
      rw [hcalls] at hq
      by_cases hqp : q = p
      · subst hqp
        simp at hq
      · rw [update_of_ne hqp] at hq
        exact h.call q ops hq
    · rw [if_pos rfl, hunits]
      exact h.unit.pass hserved
  | fork hin hcall =>
    obtain ⟨vm, -, hsets⟩ := fork_sharing sets_sharing hcall
    exact h.sameWaits (h.set.of_sets hsets) (fork_sameWaits hcall h.waits)
  | exit hin hcall =>
    have hsame := exit_sameWaits hcall hin.call
    simp only [exit, bind_eq_ok, pure_eq_ok] at hcall
    obtain ⟨vm, -, rfl⟩ := hcall
    exact h.sameWaits (h.set.of_sets rfl) hsame

/-! ## Creation -/

/-- A set made anew has no waiters. -/
theorem waitInv_setSem (hinv : WaitInv k.waits) (hfree : ∀ q ops, k.semCall q ≠ some (id, ops))
    (sz ptr : ℕ) : WaitInv (k.setSem id ⟨sz, ptr, fun _ => ⟨0, []⟩⟩).waits := by
  have hsem : ∀ i, (k.setSem id ⟨sz, ptr, fun _ => ⟨0, []⟩⟩).sem id i = ⟨0, []⟩ := fun i => by
    simp [Kernel.sem, Kernel.setSem]
  have hother : ∀ j i, j ≠ id →
      (k.setSem id ⟨sz, ptr, fun _ => ⟨0, []⟩⟩).sem j i = k.sem j i := fun j i hj => by
    simp [Kernel.sem, Kernel.setSem, hj]
  refine ⟨⟨fun x => ?_, fun x q => ?_, hinv.consistent.demand⟩, hinv.want, hinv.live⟩
  · obtain ⟨j, i⟩ := x
    by_cases hj : j = id
    · subst hj
      simp [Waits.units, Kernel.waits, hsem]
    · simpa [Waits.units, Kernel.waits, hother j i hj] using hinv.consistent.nodup (j, i)
  · obtain ⟨j, i⟩ := x
    by_cases hj : j = id
    · subst hj
      refine iff_of_false (by simp [Waits.units, Kernel.waits, hsem]) ?_
      rintro ⟨n, hn⟩
      change k.waits.phase q = .queued (j, i) n at hn
      obtain ⟨id', b, rest, hcall, -, hx, -⟩ := Waits.phase_eq_queued_iff.mp hn
      obtain ⟨rfl, -⟩ := Prod.mk.inj hx
      exact hfree q _ hcall
    · have hqueue : (k.setSem id ⟨sz, ptr, fun _ => ⟨0, []⟩⟩).waits.units.queue (j, i) =
          k.waits.units.queue (j, i) := by
        simp only [Waits.units, Kernel.waits, hother j i hj]
      rw [hqueue]
      exact hinv.consistent.mem_iff (j, i) q

/-- What `semget` does for `init_mutex` when it returns an index. -/
theorem semget_mutex {r : ℤ} (hcall : semget L p key 1 mutexFlag k = .ok (r, k')) (hr : 0 ≤ r) :
    ∃ id : ℕ, r = id ∧ OneSem k' id ∧ k'.sem id 0 = ⟨0, []⟩ ∧
      k'.semCall = k.semCall ∧
      (WaitInv k.waits → (∀ q ops, k.semCall q ≠ some (id, ops)) → WaitInv k'.waits) := by
  obtain ⟨id, hat, hdone⟩ := ipcGet_done hcall
  cases hdone with
  | refused hneg => exact absurd hr (not_le.mpr hneg)
  | shared _ _ hmay => exact absurd ⟨by decide, by decide⟩ hmay
  | created hn _ _ hk₁ hk₃ =>
    obtain ⟨ptr, s, rfl⟩ := semCreate_ok hk₁
    obtain ⟨s', addr, rfl⟩ := addNode_ok hk₃
    refine ⟨id, hn, ⟨ipcAt_lt hat, ?_, ?_⟩, ?_, rfl, fun hinv hfree => ?_⟩
    · simp [addRef, Kernel.setSlot, Kernel.setNodes, Kernel.setHeap, IpcSlot.create]
    · simp [addRef, Kernel.setSlot, Kernel.setNodes, Kernel.setHeap, Kernel.setSem]
    · simp [addRef, Kernel.setSlot, Kernel.setNodes, Kernel.setHeap, Kernel.setSem, Kernel.sem]
    · exact waitInv_setSem (k := k.setHeap s) hinv hfree _ _

theorem semctl_setval (h : OneSem k id) {v r : ℤ} {array : ℕ → ℤ}
    (hcall : semctl L p id 0 SETVAL v array k = .ok (r, k')) :
    k' = k.setSemaphore id 0 { k.sem id 0 with value := wrap16 v } := by
  have hlt := h.lt
  obtain ⟨-, hmax | hunused⟩ | ⟨id', hid, -, -, -, hdone⟩ := semctl_done hcall
  · omega
  · exact absurd hunused h.used
  obtain rfl : id = id' := Int.ofNat_inj.mp hid
  cases hdone with
  | @setval i _ hi hk =>
    simp only [semnumOf, h.size] at hi
    rw [if_pos (by decide)] at hi
    cases hi
    exact hk
  | unknown hno => exact absurd (by simp [Releases]) hno.1
  | _ hcmd => exact absurd hcmd (by decide)

/-- The process waits in the set, or has been served there. -/
theorem servedAt_iff {q : Fin NPROC} {i : ℕ} :
    (k.waits.phase q).servedAt (id, i) = true ↔ ∃ b rest, k.semCall q = some (id, b :: rest) ∧
      (k.vm.proc q).state ≠ .SLEEPING ∧ b.semIndex = i := by
  constructor
  · intro h
    simp only [Waits.phase] at h
    split at h
    · rename_i id' b rest hcall
      split at h
      · cases h
      · rename_i hawake
        obtain ⟨rfl, rfl⟩ := Prod.mk.inj (of_decide_eq_true h)
        exact ⟨b, rest, hcall, hawake, rfl⟩
    · cases h
  · rintro ⟨b, rest, hcall, hawake, rfl⟩
    rw [Waits.phase_eq_served (w := k.waits) hcall hawake]
    exact decide_eq_true rfl

/-- What `init_mutex` leaves behind. -/
theorem initMutex_ready {r : ℤ} (hinv : WaitInv k.waits)
    (hfree : ∀ q ops, k.semCall q ≠ some (r.toNat, ops))
    (hcall : initMutex L p key k = .ok (r, k')) :
    MutexInv r.toNat ⟨k', ∅⟩ := by
  simp only [initMutex, bind_eq_ok, pure_eq_ok, Prod.mk.injEq] at hcall
  obtain ⟨⟨mid, k₁⟩, hget, ⟨r', k₂⟩, hset, rfl, rfl⟩ := hcall
  dsimp only at hset hfree ⊢
  have hr : 0 ≤ mid := by
    by_contra hneg
    have hmax : ¬ mid ≥ (SEMMAX : ℤ) := fun hge => hneg ((by decide : (0 : ℤ) ≤ SEMMAX).trans hge)
    simp [semctl, hmax, indexOf, not_le.mp hneg] at hset
  obtain ⟨id, rfl, hone, hsem, hcalls, hwaits⟩ := semget_mutex hget hr
  rw [Int.toNat_natCast] at hfree ⊢
  have hinv₁ := hwaits hinv hfree
  obtain rfl := semctl_setval hone hset
  have hvalue := hinv₁.setValue id 0 (wrap16 1)
  have hout : ∀ q ops, k₁.semCall q ≠ some (id, ops) := fun q ops => by
    rw [hcalls]
    exact hfree q ops
  refine ⟨hone.of_sets (sets_quiet.sem ..), hvalue.1, fun q ops hq => absurd hq (hout q ops), ?_⟩
  rw [hvalue.2]
  have hserved : k₁.waits.units.served (id, 0) = ∅ := by
    refine Finset.filter_eq_empty_iff.mpr fun q _ hq => ?_
    obtain ⟨b, rest, hcall, -⟩ := servedAt_iff.mp hq
    exact hout q _ hcall
  refine ⟨?_, ?_, fun q n hn => ?_, fun q rest n hq => ?_⟩
  · have hkeep : (k₁.waits.units.setValue (id, 0) (wrap16 1)).served (id, 0) = ∅ := hserved
    rw [hkeep]
    simp only [State.setValue, update_self, Finset.card_empty]
    decide
  · simp only [State.setValue, update_self]
    decide
  · obtain ⟨id', b, rest, hcall, -, hx, -⟩ := Waits.phase_eq_queued_iff.mp hn
    obtain ⟨rfl, -⟩ := Prod.mk.inj hx
    exact absurd hcall (hout q _)
  · have hnil : (k₁.waits.units.setValue (id, 0) (wrap16 1)).queue (id, 0) = [] := by
      simp [State.setValue, Waits.units, Kernel.waits, hsem]
    rw [hnil] at hq
    cases hq

/-- The waiters that have been granted the mutex and have not resumed. -/
def grantedTo (k : Kernel) (id : ℕ) : Finset (Fin NPROC) :=
  Finset.univ.filter fun p =>
    (k.semCall p).any (fun c => c.1 = id) && decide ((k.vm.proc p).state ≠ .SLEEPING)

theorem MutexInv.grantedTo_eq {s : MutexState} (h : MutexInv id s) :
    grantedTo s.kernel id = s.kernel.waits.units.served (id, 0) := by
  ext q
  simp only [grantedTo, Finset.mem_filter, Finset.mem_univ, true_and, mem_served]
  change _ ↔ (s.kernel.waits.phase q).servedAt (id, 0) = true
  rw [servedAt_iff]
  cases hcall : s.kernel.semCall q with
  | none => simp
  | some c =>
    obtain ⟨id', ops⟩ := c
    constructor
    · intro hq
      simp only [Option.any_some, Bool.and_eq_true, decide_eq_true_eq] at hq
      obtain ⟨rfl, hawake⟩ := hq
      obtain rfl := h.call q ops hcall
      exact ⟨acquireBuf, [], rfl, hawake, rfl⟩
    · rintro ⟨b, rest, hc, hawake, -⟩
      obtain ⟨rfl, -⟩ := Prod.mk.inj (Option.some.inj hc)
      simpa using hawake

/-- The mutex excludes and is not lost, for processes that share a mutex of
`init_mutex` and release only what they hold. -/
theorem mutex_excludes {key : ℕ} {r : ℤ} {k₀ : Kernel} {run : List (MutexOp × MutexState)}
    (hinv : WaitInv k.waits) (hinit : initMutex L p key k = .ok (r, k₀))
    (hfree : ∀ q ops, k.semCall q ≠ some (r.toNat, ops))
    (hrun : IsRun (MutexStep L r.toNat) ⟨k₀, ∅⟩ run) :
    ∀ s ∈ visited ⟨k₀, ∅⟩ run,
      (∀ p ∈ s.holders, ∀ q ∈ s.holders, p = q) ∧
      (s.kernel.sem r.toNat 0).value + s.holders.card + (grantedTo s.kernel r.toNat).card = 1 ∧
      ((s.kernel.sem r.toNat 0).value = 1 → (s.kernel.sem r.toNat 0).queue = []) := by
  have hstart := initMutex_ready hinv hfree hinit
  intro s hs
  have h := IsRun.invariant_always (MutexInv r.toNat)
    (fun s op t hi hstep => mutexInv_step hi hstep) hstart hrun s hs
  refine ⟨fun p hp q hq => ?_, ?_, fun hone => ?_⟩
  · exact Finset.card_le_one.mp h.unit.held_le_one p hp q hq
  · rw [h.grantedTo_eq]
    exact h.unit.sum
  · have hqueue := h.unit.queue_eq_nil h.waits.consistent hone
    exact List.map_eq_nil_iff.mp hqueue

/-! ## A waiter -/

/-- What a step needs of the state. -/
def MutexOp.ready (id : ℕ) (s : MutexState) : MutexOp → Bool
  | .acquire p | .fork p | .exit p =>
    (s.kernel.semCall p).isNone && decide ((s.kernel.vm.proc p).state = .RUNNABLE)
  | .release p =>
    (s.kernel.semCall p).isNone && decide ((s.kernel.vm.proc p).state = .RUNNABLE) &&
      decide (p ∈ s.holders)
  | .resume p =>
    (s.kernel.semCall p).any (fun c => c.1 = id) &&
      decide ((s.kernel.vm.proc p).state = .RUNNABLE)

/-- The call of a step. -/
def execMutex (L : Layout) (id : ℕ) (op : MutexOp) (s : MutexState) : Kres MutexState :=
  match op with
  | .acquire p => do
      let (r, _, k) ← acquireMutex L p id s.kernel
      return ⟨k, if r = .done 0 then insert p s.holders else s.holders⟩
  | .release p => do
      let (_, _, k) ← releaseMutex L p id s.kernel
      return ⟨k, s.holders.erase p⟩
  | .resume p => do
      let (r, _, k) ← semopResume L p s.kernel
      return ⟨k, if r = .done 0 then insert p s.holders else s.holders⟩
  | .fork p => do
      let (_, k) ← fork L p s.kernel
      return ⟨k, s.holders⟩
  | .exit p => do
      let k ← exit p s.kernel
      return ⟨k, s.holders⟩

theorem execMutex_step {op : MutexOp} {s t : MutexState} (hready : op.ready id s = true)
    (h : execMutex L id op s = .ok t) : MutexStep L id s op t := by
  have hinside : ∀ q, (s.kernel.semCall q).isNone = true →
      (s.kernel.vm.proc q).state = .RUNNABLE → Inside s.kernel q := fun q hcall hrun =>
    ⟨Option.isNone_iff_eq_none.mp hcall, Or.inl hrun⟩
  cases op <;>
    simp only [MutexOp.ready, Bool.and_eq_true, decide_eq_true_eq] at hready <;>
    simp only [execMutex, bind_eq_ok, pure_eq_ok] at h
  case acquire p =>
    obtain ⟨⟨r, events, k⟩, hcall, rfl⟩ := h
    exact .acquire (hinside p hready.1 hready.2) hcall
  case release p =>
    obtain ⟨⟨r, events, k⟩, hcall, rfl⟩ := h
    exact .release (hinside p hready.1.1 hready.1.2) hready.2 hcall
  case resume p =>
    obtain ⟨⟨r, events, k⟩, hcall, rfl⟩ := h
    obtain ⟨hwait, hrun⟩ := hready
    cases hc : s.kernel.semCall p with
    | none => simp [hc] at hwait
    | some c =>
      obtain ⟨id', ops⟩ := c
      obtain rfl : id' = id := by simpa [hc] using hwait
      exact .resume (Or.inl hrun) hc hcall
  case fork p =>
    obtain ⟨⟨r, k⟩, hcall, rfl⟩ := h
    exact .fork (hinside p hready.1 hready.2) hcall
  case exit p =>
    obtain ⟨k, hcall, rfl⟩ := h
    exact .exit (hinside p hready.1 hready.2) hcall

/-- The call of a process that may make it. -/
def execReadyMutex (L : Layout) (id : ℕ) (op : MutexOp) (s : MutexState) : Kres MutexState :=
  if op.ready id s then execMutex L id op s else .error .undefined

theorem execReadyMutex_step (s : MutexState) (op : MutexOp) (t : MutexState)
    (h : execReadyMutex L id op s = .ok t) : MutexStep L id s op t := by
  simp only [execReadyMutex] at h
  split at h
  · rename_i hready
    exact execMutex_step hready h
  · cases h

/-- The parent locks, the child waits, and the release hands the mutex over. -/
theorem mutex_handed_over :
    ∃ k₀ k r run, smallBoot smallLayout = .ok k₀ ∧ initMutex smallLayout 0 0 k₀ = .ok (r, k) ∧
      IsRun (MutexStep smallLayout r.toNat) ⟨k, ∅⟩ run ∧
      run.map Prod.fst = [.fork 0, .acquire 0, .acquire 1, .release 0, .resume 1] ∧
      1 ∈ (last ⟨k, ∅⟩ run).holders ∧
      ((last ⟨k, ∅⟩ run).kernel.sem r.toNat 0).value + (last ⟨k, ∅⟩ run).holders.card +
        (grantedTo (last ⟨k, ∅⟩ run).kernel r.toNat).card = 1 := by
  have hexec : (smallBoot smallLayout).Yields fun k₀ =>
      (initMutex smallLayout 0 0 k₀).Yields fun x =>
        Kres.Yields (execAll (execReadyMutex smallLayout x.1.toNat)
          [.fork 0, .acquire 0, .acquire 1, .release 0, .resume 1] ⟨x.2, ∅⟩) fun run =>
            1 ∈ (last ⟨x.2, ∅⟩ run).holders := by
    decide +kernel
  obtain ⟨k₀, hk₀, ⟨r, k⟩, hinit, run, hexec, hholds⟩ := hexec
  obtain ⟨hrun, hops⟩ := execAll_isRun execReadyMutex_step hexec
  have hidle := (smallBoot_fresh hk₀).idle
  have hsum := mutex_excludes hidle.waitInv hinit (fun q ops => by simp [hidle.call]) hrun _
    (last_mem_visited _ _)
  exact ⟨k₀, k, r, run, hk₀, hinit, hrun, hops, hholds, hsum.2.1⟩

end LearnOS.Ipc
