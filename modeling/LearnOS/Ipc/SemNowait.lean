import LearnOS.Ipc.SemAtomic
import LearnOS.Ipc.Account

/-!
# Non-blocking semaphore operations

`IPC_NOWAIT` is bit 16, and `sem_flg` has 16 bits: an assignment of the constant
stores 0. The test in `semop` never succeeds, and a wait that cannot be satisfied
puts its caller to sleep whatever flags it was given.

`SemView` is what the operations of a call mean by themselves: values, queues and
demands, with the waiters served in turn. The result that a non-blocking call
should have is read off it.

## Main results

`nowait_returns_iff`: a non-blocking call returns that result exactly if each of
its waits can be satisfied when its turn comes.
-/

namespace LearnOS.Ipc

open LearnOS Transition Function Kres

variable {L : Layout} {k k' : Kernel} {p : Fin NPROC} {id i : ℕ} {ops : List SemBuf}
  {events : List SemEvent} {B : Multiset (ℕ × ℕ)}

def IPC_NOWAIT : ℕ := 2 ^ 16

/-- The user assigns `IPC_NOWAIT` to `sem_flg` of a wait. -/
def SemBuf.nowait (b : SemBuf) : SemBuf :=
  if b.semOp < 0 then { b with semFlg := IPC_NOWAIT % 2 ^ 16 } else b

/-! ## Operations in turn -/

/-- Values, waiting processes and demands. -/
structure SemView where
  value : ℕ → ℤ
  queue : ℕ → List (Fin NPROC)
  want : Fin NPROC → ℤ

namespace SemView

/-- The process `q` at the head of a queue is served, and `rest` is what stays. -/
def grant (s : SemView) (i : ℕ) (q : Fin NPROC) (rest : List (Fin NPROC)) : SemView where
  value := update s.value i (s.value i - s.want q)
  queue := update s.queue i rest
  want := update s.want q 0

/-- Waiting processes are served as long as the value allows. -/
def serve (i : ℕ) : List (Fin NPROC) → SemView → SemView
  | [], s => s
  | q :: rest, s => if s.value i < s.want q then s else serve i rest (s.grant i q rest)

/-- An operation takes effect. -/
def turn (s : SemView) (b : SemBuf) : SemView :=
  let s := { s with
    value := update s.value b.semIndex (b.apply (s.value b.semIndex)) }
  if 0 < b.semOp then s.serve b.semIndex (s.queue b.semIndex) else s

end SemView

/-- Each wait before an index outside the set is satisfied when its turn comes. -/
def InTurn (sz : ℕ) : List SemBuf → SemView → Prop
  | [], _ => True
  | b :: rest, s => b.semIndex < sz →
      (b.semOp < 0 → -b.semOp ≤ s.value b.semIndex) ∧ InTurn sz rest (s.turn b)

/-- The result of a call that never blocks: `-4` at the first wait that cannot be
satisfied, `-3` at an index outside the set. -/
def nowaitResult (sz : ℕ) : List SemBuf → SemView → ℤ
  | [], _ => 0
  | b :: rest, s =>
    if sz ≤ b.semIndex then -3
    else if b.semOp < 0 ∧ s.value b.semIndex < -b.semOp then -4
    else nowaitResult sz rest (s.turn b)

def Kernel.view (k : Kernel) (id : ℕ) : SemView where
  value := k.values id
  queue i := (k.sem id i).queue.map WaitNode.p
  want := k.semWant

/-! ## The loops do the operations in turn -/

theorem grantTo_view (w : WaitNode) (rest : List WaitNode) (k : Kernel) :
    (grantTo p id i w rest k).view id =
      (k.view id).grant i w.p (rest.map WaitNode.p) := by
  simp only [Kernel.view, SemView.grant, SemView.mk.injEq]
  refine ⟨?_, ?_, grantTo_want w rest k⟩
  · funext i'
    by_cases hi : i' = i
    · subst hi
      rw [update_self, Kernel.values, grantTo_self]
    · rw [update_of_ne hi, Kernel.values,
        grantTo_other w rest k fun hx => hi (Prod.mk.inj hx).2]
      rfl
  · funext i'
    by_cases hi : i' = i
    · subst hi
      rw [update_self, grantTo_self]
    · rw [update_of_ne hi, grantTo_other w rest k fun hx => hi (Prod.mk.inj hx).2]

theorem grantLoop_view {queue : List WaitNode}
    (h : grantLoop L p id i queue k = .ok (events, k')) :
    k'.view id = (k.view id).serve i (queue.map WaitNode.p) := by
  induction queue generalizing k events with
  | nil =>
    cases h
    rfl
  | cons w rest ih =>
    rw [List.map_cons, SemView.serve]
    obtain ⟨hshort, -, rfl⟩ | ⟨henough, s, events', -, hloop, -⟩ := grantLoop_cons h
    · exact (if_pos hshort).symm
    · have hnot : ¬ (k.view id).value i < (k.view id).want w.p := not_lt.mpr henough
      have hview := ih hloop
      rw [if_neg hnot, ← grantTo_view (p := p) w rest k]
      exact hview

theorem applied_view (k : Kernel) (id : ℕ) (b : SemBuf) :
    (k.applied id b).view id = { k.view id with
      value := update (k.values id) b.semIndex (b.apply (k.values id b.semIndex)) } := by
  simp only [Kernel.view, SemView.mk.injEq]
  refine ⟨applied_values k id b, ?_, rfl⟩
  funext i
  rw [applied_queue]

theorem turn_quiet {b : SemBuf} (hop : b.semOp ≤ 0) :
    (k.applied id b).view id = (k.view id).turn b := by
  rw [SemView.turn, if_neg (not_lt.mpr hop), applied_view]
  rfl

theorem turn_signal {b : SemBuf} (hop : 0 < b.semOp)
    (hgrant : grantLoop L p id b.semIndex ((k.applied id b).sem id b.semIndex).queue
      (k.applied id b) = .ok (events, k')) : k'.view id = (k.view id).turn b := by
  rw [grantLoop_view hgrant, SemView.turn, if_pos hop, applied_queue, applied_view]
  rfl

/-- A section that returns has satisfied its waits. -/
theorem inTurn_of_returns {r : ℤ} (h : semopLoop L p id ops k = .ok (.done r, events, k')) :
    InTurn (k.semid id).sz ops (k.view id) := by
  induction ops generalizing k events with
  | nil => trivial
  | cons b rest ih =>
    intro hindex
    cases semopLoop_turn h with
    | unknown hout => exact absurd hindex (not_lt.mpr hout)
    | quiet _ hop hle hrest =>
      have hturn := ih hrest
      rw [applied_sz, turn_quiet hop] at hturn
      exact ⟨hle, hturn⟩
    | signal _ hop hgrant hrest =>
      have hturn := ih hrest
      rw [grantLoop_sz hgrant, applied_sz, turn_signal hop hgrant] at hturn
      exact ⟨fun hneg => absurd hop (by omega), hturn⟩

/-! ## The loops return -/

/-- The blocks of the nodes of a queue. -/
def queueBlocks (queue : List WaitNode) : Multiset (ℕ × ℕ) := ↑(queue.map fun w => (w.addr, 16))

/-- The blocks of the nodes of all the queues of a set. -/
def waitBlocks (k : Kernel) (id : ℕ) : Multiset (ℕ × ℕ) :=
  ∑ i ∈ Finset.range (k.semid id).sz, queueBlocks (k.sem id i).queue

theorem grantTo_heap (w : WaitNode) (rest : List WaitNode) (k : Kernel) :
    (grantTo p id i w rest k).heap = k.heap := by
  have hwake : (wakeupSem p w.p k).heap = k.heap := by
    rw [wakeupSem]
    split <;> rfl
  exact hwake

theorem grantLoop_returns {queue : List WaitNode} (hqueue : (k.sem id i).queue = queue)
    (howns : Owns L k (queueBlocks queue + B)) :
    ∃ events k', grantLoop L p id i queue k = .ok (events, k') ∧
      Owns L k' (queueBlocks (k'.sem id i).queue + B) := by
  induction queue generalizing k with
  | nil => exact ⟨[], k, rfl, by rwa [hqueue]⟩
  | cons w rest ih =>
    simp only [grantLoop]
    split
    · exact ⟨[], k, rfl, by rwa [hqueue]⟩
    · have hhead : Owns L (grantTo p id i w rest k) ((w.addr, 16) ::ₘ (queueBlocks rest + B)) := by
        rw [queueBlocks, List.map_cons, ← Multiset.cons_coe, Multiset.cons_add] at howns
        exact howns.congr (grantTo_heap w rest k)
      have hsz : MatchedSize 16 := Or.inl (by decide)
      obtain ⟨k₁, hk₁⟩ := hhead.kmfree_returns hsz
      have howns₁ := hhead.kmfree hsz hk₁
      obtain ⟨s, -, rfl⟩ := Kernel.kmfree_ok hk₁
      obtain ⟨events, k', hloop, howns'⟩ := ih (k := (grantTo p id i w rest k).setHeap s)
        (grantTo_queue w rest k) howns₁
      refine ⟨.grant w.p i (k.semWant w.p) :: events, k', ?_, howns'⟩
      have hfree : Kernel.kmfree L w.addr 16 (grantTo p id i w rest k) = .ok _ := hk₁
      simp only [grantTo] at hfree hloop
      rw [hfree, ok_bind, hloop]
      rfl

theorem waitBlocks_split (hi : i < (k.semid id).sz) :
    waitBlocks k id = queueBlocks (k.sem id i).queue +
      ∑ j ∈ (Finset.range (k.semid id).sz).erase i, queueBlocks (k.sem id j).queue :=
  (Finset.add_sum_erase _ _ (Finset.mem_range.mpr hi)).symm

theorem applied_waitBlocks (k : Kernel) (id : ℕ) (b : SemBuf) :
    waitBlocks (k.applied id b) id = waitBlocks k id := by
  rw [waitBlocks, applied_sz]
  exact Finset.sum_congr rfl fun i _ => by rw [applied_queue]

theorem semopLoop_of_quiet {b : SemBuf} {rest : List SemBuf} {r : SemResult}
    (hindex : b.semIndex < (k.semid id).sz) (hop : b.semOp ≤ 0)
    (hle : b.semOp < 0 → -b.semOp ≤ k.values id b.semIndex)
    (hrest : semopLoop L p id rest (k.applied id b) = .ok (r, events, k')) :
    ∃ events', semopLoop L p id (b :: rest) k = .ok (r, events', k') := by
  simp only [semopLoop]
  rw [if_neg (not_le.mpr hindex)]
  by_cases hneg : b.semOp < 0
  · have hnot : ¬ (k.sem id b.semIndex).value < -b.semOp := not_lt.mpr (hle hneg)
    rw [Kernel.applied, SemBuf.apply, if_neg (by omega)] at hrest
    rw [if_pos hneg, if_neg hnot, hrest]
    exact ⟨_, rfl⟩
  · rw [applied_zero (by omega)] at hrest
    rw [if_neg hneg, if_neg (by omega)]
    exact ⟨events, hrest⟩

theorem semopLoop_of_signal {b : SemBuf} {rest : List SemBuf} {r : SemResult}
    {grants : List SemEvent} {k₁ : Kernel} (hindex : b.semIndex < (k.semid id).sz)
    (hop : 0 < b.semOp)
    (hgrant : grantLoop L p id b.semIndex ((k.applied id b).sem id b.semIndex).queue
      (k.applied id b) = .ok (grants, k₁))
    (hrest : semopLoop L p id rest k₁ = .ok (r, events, k')) :
    ∃ events', semopLoop L p id (b :: rest) k = .ok (r, events', k') := by
  simp only [semopLoop]
  rw [Kernel.applied, SemBuf.apply, if_pos hop, sem_setSemaphore_self] at hgrant
  rw [if_neg (not_le.mpr hindex), if_neg (by omega), if_pos hop, hgrant, ok_bind, hrest]
  exact ⟨_, rfl⟩

/-- A call all of whose waits can be satisfied in turn returns, and with the right
result. -/
theorem semopLoop_returns (hturn : InTurn (k.semid id).sz ops (k.view id))
    (howns : Owns L k (waitBlocks k id)) :
    ∃ events k', semopLoop L p id ops k =
      .ok (.done (nowaitResult (k.semid id).sz ops (k.view id)), events, k') := by
  induction ops generalizing k with
  | nil => exact ⟨[], k, rfl⟩
  | cons b rest ih =>
    rw [nowaitResult]
    by_cases hout : (k.semid id).sz ≤ b.semIndex
    · rw [if_pos hout]
      exact ⟨[], k, by simp only [semopLoop, if_pos hout]⟩
    have hindex := not_le.mp hout
    obtain ⟨hle, hturn⟩ := hturn hindex
    have hcovered : ¬ (b.semOp < 0 ∧ (k.view id).value b.semIndex < -b.semOp) :=
      fun hneg => absurd (hle hneg.1) (not_le.mpr hneg.2)
    rw [if_neg hout, if_neg hcovered]
    have howns₁ : Owns L (k.applied id b) (waitBlocks (k.applied id b) id) := by
      rw [applied_waitBlocks]
      exact howns.congr rfl
    by_cases hpos : 0 < b.semOp
    · have hindex₁ : b.semIndex < ((k.applied id b).semid id).sz := by rwa [applied_sz]
      rw [waitBlocks_split hindex₁] at howns₁
      obtain ⟨grants, k₁, hgrant, howns₂⟩ := grantLoop_returns (p := p) rfl howns₁
      have hview := turn_signal hpos hgrant
      have hsz : (k₁.semid id).sz = (k.semid id).sz := by rw [grantLoop_sz hgrant, applied_sz]
      have hother := (grantLoop_queue hgrant rfl).2
      obtain ⟨events, k', hloop⟩ := ih (k := k₁) (by rwa [hsz, hview]) (by
        rw [waitBlocks_split (i := b.semIndex) (by rwa [hsz]), hsz, ← applied_sz k id b]
        convert howns₂ using 2
        refine Finset.sum_congr rfl fun j hj => ?_
        rw [hother id j fun hx => Finset.ne_of_mem_erase hj (Prod.mk.inj hx).2])
      rw [hsz, hview] at hloop
      obtain ⟨events', hcons⟩ := semopLoop_of_signal hindex hpos hgrant hloop
      exact ⟨events', k', hcons⟩
    · have hop : b.semOp ≤ 0 := not_lt.mp hpos
      obtain ⟨events, k', hloop⟩ := ih (by rwa [applied_sz, turn_quiet hop]) howns₁
      rw [applied_sz, turn_quiet hop] at hloop
      obtain ⟨events', hcons⟩ := semopLoop_of_quiet hindex hop hle hloop
      exact ⟨events', k', hcons⟩

/-! ## Calls -/

/-- A set on which a call can be made, with memory for the buffer of the call. -/
structure SemCallable (L : Layout) (k : Kernel) (semid : ℤ) (n : ℕ) : Prop where
  low : 0 ≤ semid
  high : semid < SEMMAX
  used : (k.slot (.sem, semid.toNat)).state ≠ .UNUSED
  free : (k.slot (.sem, semid.toNat)).locked = false
  nodes : Owns L k (waitBlocks k semid.toNat)
  buffer : ∃ buf k₁, k.kmalloc L (8 * n) = .ok (buf, k₁) ∧ (n ≠ 0 → buf ≠ NULL)

/-- The call with `IPC_NOWAIT` for every wait returns what a non-blocking call
should. -/
def NowaitReturns (L : Layout) (p : Fin NPROC) (semid : ℤ) (ops : List SemBuf) (k : Kernel) :
    Prop :=
  ∃ events k', semop L p semid (ops.map SemBuf.nowait) k =
    .ok (.done (nowaitResult (k.semid semid.toNat).sz ops (k.view semid.toNat)), events, k')

section Nowait

variable (b : SemBuf)

@[simp] theorem nowait_semIndex : b.nowait.semIndex = b.semIndex := by
  rw [SemBuf.nowait]
  split <;> rfl

@[simp] theorem nowait_semOp : b.nowait.semOp = b.semOp := by
  rw [SemBuf.nowait]
  split <;> rfl

theorem nowait_turn (s : SemView) : s.turn b.nowait = s.turn b := by
  simp [SemView.turn, SemBuf.apply]

theorem inTurn_nowait (sz : ℕ) (ops : List SemBuf) (s : SemView) :
    InTurn sz (ops.map SemBuf.nowait) s ↔ InTurn sz ops s := by
  induction ops generalizing s with
  | nil => rfl
  | cons b rest ih =>
    simp only [List.map_cons, InTurn, nowait_semIndex, nowait_semOp, nowait_turn]
    rw [ih]

theorem nowaitResult_nowait (sz : ℕ) (ops : List SemBuf) (s : SemView) :
    nowaitResult sz (ops.map SemBuf.nowait) s = nowaitResult sz ops s := by
  induction ops generalizing s with
  | nil => rfl
  | cons b rest ih =>
    simp only [List.map_cons, nowaitResult, nowait_semIndex, nowait_semOp, nowait_turn]
    rw [ih]

end Nowait

/-- The call is the loop after the buffer has been allocated. -/
theorem SemCallable.semop_eq {semid : ℤ} (h : SemCallable L k semid ops.length) :
    ∃ s, semop L p semid ops k = semopLoop L p semid.toNat ops (k.setHeap s) ∧
      Owns L (k.setHeap s) (waitBlocks (k.setHeap s) semid.toNat) := by
  obtain ⟨buf, k₁, hbuf, hnull⟩ := h.buffer
  have howns := h.nodes.kmalloc hbuf
  obtain ⟨s, -, rfl⟩ := Kernel.kmalloc_ok hbuf
  refine ⟨s, ?_, howns⟩
  have hindex : indexOf semid = .ok semid.toNat := by
    rw [indexOf, if_neg (not_lt.mpr h.low)]
  have hlock : k.acquire .sem semid.toNat = .ok () := by
    simp [Kernel.acquire, h.free]
  have hfits : ¬ (buf = NULL ∧ ops ≠ []) := by
    rintro ⟨hzero, hne⟩
    exact hnull (fun hlen => hne (List.length_eq_zero_iff.mp hlen)) hzero
  simp only [semop, if_neg (not_le.mpr h.high), hindex, ok_bind, hlock, if_neg h.used, hbuf,
    if_neg hfits]

/-- A non-blocking call returns what it should exactly if each of its waits can be
satisfied when its turn comes. -/
theorem nowait_returns_iff {semid : ℤ} (h : SemCallable L k semid ops.length) :
    NowaitReturns L p semid ops k ↔
      InTurn (k.semid semid.toNat).sz ops (k.view semid.toNat) := by
  rw [← List.length_map SemBuf.nowait] at h
  obtain ⟨s, hcall, howns⟩ := h.semop_eq (p := p)
  rw [NowaitReturns, hcall, ← nowaitResult_nowait, ← inTurn_nowait]
  constructor
  · rintro ⟨events, k', hloop⟩
    exact inTurn_of_returns (k := k.setHeap s) hloop
  · intro hturn
    exact semopLoop_returns (k := k.setHeap s) hturn howns

/-- A kernel in which every set has one semaphore with one unit. -/
def oneUnit (h : KHeap) : Kernel :=
  { Kernel.start ⟨h.mem, fun _ => { Proc.unused with state := .RUNNABLE }, 0⟩ h.word h.cache with
    slot := fun _ => ⟨false, 1, 0, 0, .USED⟩
    semid := fun _ => ⟨1, NULL, fun _ => ⟨1, []⟩⟩ }

/-- A non-blocking wait for a unit that is there. -/
theorem nowait_takes_unit :
    ∃ h, slabBoot smallLayout = .ok h ∧ SemCallable smallLayout (oneUnit h) 0 1 ∧
      NowaitReturns smallLayout 0 0 [⟨0, -1, 0⟩] (oneUnit h) := by
  have hrun : (slabBoot smallLayout).Yields fun h =>
      (kmalloc smallLayout 8 h).Yields fun x => x.1 ≠ NULL := by
    decide +kernel
  obtain ⟨h, hboot, ⟨buf, s⟩, hbuf, hnull⟩ := hrun
  obtain ⟨s₀, hheap, hinit⟩ := slabBoot_init hboot
  obtain ⟨live, pool, hinv⟩ := kmInv_init hheap hinit
  have hcall : kmalloc smallLayout 8 (oneUnit h).heap = .ok (buf, s) := hbuf
  have hcallable : SemCallable smallLayout (oneUnit h) 0 [(⟨0, -1, 0⟩ : SemBuf)].length := by
    refine ⟨by decide, by decide, IpcState.noConfusion, rfl, ⟨[], live, pool, hinv, ?_⟩,
      ⟨buf, (oneUnit h).setHeap s, ?_, fun _ => hnull⟩⟩
    · simp [waitBlocks, queueBlocks, Kernel.sem, oneUnit]
    · simp [Kernel.kmalloc, hcall]
  refine ⟨h, hboot, hcallable, (nowait_returns_iff hcallable).mpr ?_⟩
  exact fun _ => ⟨fun _ => le_refl (1 : ℤ), trivial⟩

/-- A non-blocking wait for a unit that is not there: the caller sleeps. -/
theorem nowait_sleeps :
    ∃ k₀ before events k', smallBoot smallLayout = .ok k₀ ∧ IsRun (Step smallLayout) k₀ before ∧
      semop smallLayout 0 0 [SemBuf.nowait ⟨0, -1, 0⟩] (last k₀ before) =
        .ok (.asleep, events, k') ∧ (k'.vm.proc 0).state = .SLEEPING ∧
      ¬ NowaitReturns smallLayout 0 0 [⟨0, -1, 0⟩] (last k₀ before) := by
  obtain ⟨k₀, before, hk₀, hbefore, ⟨r, events, k'⟩, hcall, rfl, hstate⟩ := boot_run
    (L := smallLayout) [.semget 0 0 1 0x8fff]
    (fun k₀ run => (semop smallLayout 0 0 [SemBuf.nowait ⟨0, -1, 0⟩] (last k₀ run)).Yields fun x =>
      x.1 = .asleep ∧ (x.2.2.vm.proc 0).state = .SLEEPING)
    (by decide +kernel)
  refine ⟨k₀, before, events, k', hk₀, hbefore, hcall, hstate, ?_⟩
  rintro ⟨events', k'', hreturns⟩
  rw [List.map_cons, List.map_nil, hcall] at hreturns
  cases hreturns

end LearnOS.Ipc
