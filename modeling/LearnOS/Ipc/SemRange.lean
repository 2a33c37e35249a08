import LearnOS.Ipc.SemAtomic

/-!
# The range of semaphore values

`semctl` reads and writes values as `int16`, while a value itself is an `int` to
which `semop` adds without looking. As long as no signal carries a value above
`32767` the two agree: values stay in the range of the interface, what `GETVAL` and
`GETALL` report is the value, and `GETALL` followed by `SETALL` changes nothing.

## Implementation notes

The bound is checked against the sums of the operations so far. The value itself
is never larger, since waiting processes only take units away.
-/

namespace LearnOS.Ipc

open LearnOS Transition Function

variable {L : Layout} {k k' : Kernel} {p : Fin NPROC} {id i : ℕ} {r : SemResult}
  {ops : List SemBuf} {events : List SemEvent} {op : Op}

/-- The largest `int16`. -/
def SHRT_MAX : ℤ := 32767

/-- The array that `GETALL` copies to the caller. -/
def getallArray (k : Kernel) (id i : ℕ) : ℤ := wrap16 (k.values id i)

/-- Every value lies in the range that `semctl` can report. -/
def ShortValues (k : Kernel) : Prop := ∀ id i, 0 ≤ k.values id i ∧ k.values id i ≤ SHRT_MAX

/-- Values are in range, and `semctl` reports and restores them exactly. -/
structure Representable (L : Layout) (k : Kernel) : Prop where
  range : ShortValues k
  getval : ∀ p semid semnum val array r k',
    semctl L p semid semnum GETVAL val array k = .ok (r, k') → semid < SEMMAX →
      (k.slot (.sem, semid.toNat)).state ≠ .UNUSED → r = k.values semid.toNat semnum.toNat
  getall : ∀ id i, getallArray k id i = k.values id i
  setall : ∀ p semid semnum val array r r' k₁ k₂,
    semctl L p semid semnum GETALL val array k = .ok (r, k₁) →
      semctl L p semid semnum SETALL val (getallArray k semid.toNat) k₁ = .ok (r', k₂) →
      k₂.semid = k.semid

/-- No signal of a section carries the sum of a value and the operations so far
above `SHRT_MAX`, up to an index outside the set or a wait that has to sleep. -/
def FitsShort (sz : ℕ) : List SemBuf → (ℕ → ℤ) → Prop
  | [], _ => True
  | b :: rest, v => b.semIndex < sz → ¬ (b.semOp < 0 ∧ v b.semIndex < -b.semOp) →
      v b.semIndex + b.semOp ≤ SHRT_MAX ∧
        FitsShort sz rest (update v b.semIndex (v b.semIndex + b.semOp))

def StaysShort (k : Kernel) (op : Op) : Prop :=
  ∀ c ∈ op.critical k, FitsShort (k.semid c.1).sz c.2.1 (k.values c.1)

instance (sz : ℕ) : (ops : List SemBuf) → (v : ℕ → ℤ) → Decidable (FitsShort sz ops v)
  | [], _ => .isTrue trivial
  | b :: rest, v =>
    have := instDecidableFitsShort sz rest (update v b.semIndex (v b.semIndex + b.semOp))
    inferInstanceAs (Decidable (b.semIndex < sz → _ → _ ∧ FitsShort sz rest _))

instance (k : Kernel) (op : Op) : Decidable (StaysShort k op) :=
  inferInstanceAs (Decidable (∀ c ∈ op.critical k, _))

/-- `SETVAL` and `SETALL` are given values that are not negative. -/
def SetsNonneg (k : Kernel) : Op → Prop
  | .semctl _ semid _ cmd val array => (cmd = SETVAL → 0 ≤ wrap16 val) ∧
      (cmd = SETALL → ∀ i < (k.semid semid.toNat).sz, 0 ≤ wrap16 (array i))
  | _ => True

instance (k : Kernel) : (op : Op) → Decidable (SetsNonneg k op)
  | .semctl _ _ _ _ _ _ => inferInstanceAs (Decidable ((_ → _) ∧ (_ → _)))
  | .shmget .. | .shmat .. | .shmdt .. | .shmctl .. | .semget .. | .semop .. | .resume ..
  | .msgget .. | .msgsnd .. | .msgrcv .. | .msgctl .. | .fork .. | .exit .. | .wait ..
  | .kill .. => .isTrue trivial

/-! ## Sections of `semop` -/

/-- Values are in range, and nobody in a queue has a negative demand. -/
structure RangeInv (k : Kernel) : Prop where
  values : ShortValues k
  demands : ∀ id i, ∀ w ∈ (k.sem id i).queue, 0 ≤ k.semWant w.p

theorem FitsShort.mono {sz : ℕ} {v v' : ℕ → ℤ} (h : FitsShort sz ops v) (hle : ∀ i, v' i ≤ v i) :
    FitsShort sz ops v' := by
  induction ops generalizing v v' with
  | nil => trivial
  | cons b rest ih =>
    intro hindex hcovered
    have hb := hle b.semIndex
    obtain ⟨hmax, hrest⟩ := h hindex (fun hshort => hcovered ⟨hshort.1, by omega⟩)
    refine ⟨by omega, ih hrest fun i => ?_⟩
    by_cases hi : i = b.semIndex
    · subst hi
      simp only [update_self]
      omega
    · simpa only [update_of_ne hi] using hle i

/-- Serving the queue of a semaphore lowers its value, not below zero. -/
theorem grantLoop_range {queue : List WaitNode}
    (h : grantLoop L p id i queue k = .ok (events, k')) (hqueue : (k.sem id i).queue = queue)
    (hnonneg : 0 ≤ k.values id i) (hdemands : ∀ id i, ∀ w ∈ (k.sem id i).queue, 0 ≤ k.semWant w.p) :
    (0 ≤ k'.values id i ∧ k'.values id i ≤ k.values id i) ∧
      ∀ id i, ∀ w ∈ (k'.sem id i).queue, 0 ≤ k'.semWant w.p := by
  induction queue generalizing k events with
  | nil =>
    cases h
    exact ⟨⟨hnonneg, le_refl _⟩, hdemands⟩
  | cons w rest ih =>
    have hwant : 0 ≤ k.semWant w.p := hdemands id i w (by simp [hqueue])
    obtain ⟨-, -, rfl⟩ | ⟨hle, s, events', -, hloop, -⟩ := grantLoop_cons h
    · exact ⟨⟨hnonneg, le_refl _⟩, hdemands⟩
    · change k.semWant w.p ≤ k.values id i at hle
      have hvalue : (grantTo p id i w rest k).values id i = k.values id i - k.semWant w.p := by
        rw [Kernel.values, grantTo_self]
      have hgranted : ∀ id' i', ∀ w' ∈ ((grantTo p id i w rest k).sem id' i').queue,
          0 ≤ (grantTo p id i w rest k).semWant w'.p := by
        intro id' i' w' hw'
        have hold : 0 ≤ k.semWant w'.p := by
          by_cases hx : (id', i') = (id, i)
          · obtain ⟨rfl, rfl⟩ := Prod.mk.inj hx
            rw [grantTo_queue] at hw'
            exact hdemands id' i' w' (by rw [hqueue]; exact List.mem_cons_of_mem _ hw')
          · rw [grantTo_other w rest k hx] at hw'
            exact hdemands id' i' w' hw'
        rw [grantTo_want]
        by_cases hp : w'.p = w.p
        · simp [hp]
        · rwa [update_of_ne hp]
      obtain ⟨⟨hlow, hhigh⟩, hdemands'⟩ := ih hloop (grantTo_queue w rest k)
        (by have := hvalue; exact le_of_le_of_eq (sub_nonneg.mpr hle) this.symm) hgranted
      have hhigh' := hhigh.trans (le_of_eq hvalue)
      exact ⟨⟨hlow, by omega⟩, hdemands'⟩

theorem RangeInv.applied {b : SemBuf} (h : RangeInv k) (id : ℕ)
    (hlow : 0 ≤ b.apply (k.values id b.semIndex))
    (hhigh : b.apply (k.values id b.semIndex) ≤ SHRT_MAX) : RangeInv (k.applied id b) where
  values id' i' := by
    by_cases hx : (id', i') = (id, b.semIndex)
    · obtain ⟨rfl, rfl⟩ := Prod.mk.inj hx
      rw [Kernel.values, applied_sem_self]
      exact ⟨hlow, hhigh⟩
    · rw [Kernel.values, Kernel.applied, sem_setSemaphore_of_ne _ hx]
      exact h.values id' i'
  demands id' i' w hw := by
    rw [applied_queue] at hw
    exact h.demands id' i' w hw

theorem RangeInv.granted {queue : List WaitNode} (h : RangeInv k)
    (hgrant : grantLoop L p id i queue k = .ok (events, k')) (hqueue : (k.sem id i).queue = queue) :
    RangeInv k' ∧ ∀ j, k'.values id j ≤ k.values id j := by
  obtain ⟨hself, hdemands⟩ := grantLoop_range hgrant hqueue (h.values id i).1 h.demands
  have hother := (grantLoop_queue hgrant hqueue).2
  have hle : ∀ j, k'.values id j ≤ k.values id j := by
    intro j
    by_cases hj : j = i
    · subst hj
      exact hself.2
    · rw [Kernel.values, hother id j fun hx => hj (Prod.mk.inj hx).2]
      exact le_refl _
  refine ⟨⟨fun id' j => ?_, hdemands⟩, hle⟩
  by_cases hx : (id', j) = (id, i)
  · obtain ⟨rfl, rfl⟩ := Prod.mk.inj hx
    exact ⟨hself.1, hself.2.trans (h.values id' j).2⟩
  · rw [Kernel.values, hother id' j hx]
    exact h.values id' j

/-- A process that goes to sleep demands units and takes none. -/
theorem RangeInv.sleeps {b : SemBuf} (h : RangeInv k) (rest : List SemBuf) (addr : ℕ) (s : KHeap)
    (hop : b.semOp ≤ 0) :
    RangeInv (sleepSem p id (b :: rest) (((k.setHeap s).setSemaphore id b.semIndex
      { k.sem id b.semIndex with queue := (k.sem id b.semIndex).queue ++ [⟨addr, p⟩] }).setWant p
        (-b.semOp))) := by
  have hother : ∀ id' i', (id', i') ≠ (id, b.semIndex) → ((k.setHeap s).setSemaphore id b.semIndex
      { k.sem id b.semIndex with queue := (k.sem id b.semIndex).queue ++ [⟨addr, p⟩] }).sem id' i' =
        k.sem id' i' := fun id' i' hx => sem_setSemaphore_of_ne _ hx
  have hself : ((k.setHeap s).setSemaphore id b.semIndex
      { k.sem id b.semIndex with queue := (k.sem id b.semIndex).queue ++ [⟨addr, p⟩] }).sem
        id b.semIndex =
      ⟨k.values id b.semIndex, (k.sem id b.semIndex).queue ++ [⟨addr, p⟩]⟩ :=
    sem_setSemaphore_self _
  constructor
  · intro id' i'
    by_cases hx : (id', i') = (id, b.semIndex)
    · obtain ⟨rfl, rfl⟩ := Prod.mk.inj hx
      have hvalue := congrArg Sem.value hself
      exact ⟨le_of_le_of_eq (h.values id' b.semIndex).1 hvalue.symm,
        (le_of_eq hvalue).trans (h.values id' b.semIndex).2⟩
    · have hvalue := congrArg Sem.value (hother id' i' hx)
      exact ⟨le_of_le_of_eq (h.values id' i').1 hvalue.symm,
        (le_of_eq hvalue).trans (h.values id' i').2⟩
  · intro id' i' w hw
    change 0 ≤ update k.semWant p (-b.semOp) w.p
    by_cases hp : w.p = p
    · rw [hp, update_self]
      omega
    · rw [update_of_ne hp]
      change w ∈ (((k.setHeap s).setSemaphore id b.semIndex { k.sem id b.semIndex with
        queue := (k.sem id b.semIndex).queue ++ [⟨addr, p⟩] }).sem id' i').queue at hw
      by_cases hx : (id', i') = (id, b.semIndex)
      · obtain ⟨rfl, rfl⟩ := Prod.mk.inj hx
        rw [hself, List.mem_append, List.mem_singleton] at hw
        rcases hw with hw | rfl
        · exact h.demands _ _ w hw
        · exact absurd rfl hp
      · rw [hother id' i' hx] at hw
        exact h.demands id' i' w hw

/-- A section that fits keeps all values in range. -/
theorem semopLoop_range (h : semopLoop L p id ops k = .ok (r, events, k')) (hinv : RangeInv k)
    (hfits : FitsShort (k.semid id).sz ops (k.values id)) : RangeInv k' := by
  induction ops generalizing k events with
  | nil =>
    cases h
    exact hinv
  | cons b rest ih =>
    cases semopLoop_turn h with
    | unknown => exact hinv
    | sleeps _ hop => exact hinv.sleeps _ _ _ hop.le
    | quiet hindex hop hle hrest =>
      have happly : b.apply (k.values id b.semIndex) = k.values id b.semIndex + b.semOp := by
        rw [SemBuf.apply, if_neg (not_lt.mpr hop)]
      obtain ⟨hmax, hfits⟩ := hfits hindex fun hshort =>
        absurd (hle hshort.1) (not_le.mpr hshort.2)
      have hlow : 0 ≤ k.values id b.semIndex + b.semOp := by
        have hold := (hinv.values id b.semIndex).1
        by_cases hneg : b.semOp < 0
        · have hcovered : -b.semOp ≤ k.values id b.semIndex := hle hneg
          omega
        · omega
      apply ih hrest (hinv.applied id (by rwa [happly]) (by rwa [happly]))
      rw [applied_sz, applied_values, happly]
      exact hfits
    | signal hindex hop hgrant hrest =>
      obtain ⟨hmax, hfits⟩ := hfits hindex (fun hshort => absurd hshort.1 (by omega))
      have hold := (hinv.values id b.semIndex).1
      have happly : b.apply (k.values id b.semIndex) = k.values id b.semIndex + b.semOp := by
        rw [SemBuf.apply, if_pos hop]
        simp only [SHRT_MAX] at hmax
        exact Int.bmod_eq_of_le (by omega) (by omega)
      have hinv₁ := hinv.applied id (b := b) (by rw [happly]; omega) (by rwa [happly])
      obtain ⟨hinv₂, hle⟩ := hinv₁.granted hgrant rfl
      apply ih hrest hinv₂
      rw [grantLoop_sz hgrant, applied_sz]
      apply hfits.mono
      rw [← happly, ← applied_values]
      exact hle

/-! ## Runs -/

theorem RangeInv.of_waits (h : RangeInv k) (hwaits : k'.waits = k.waits) : RangeInv k' where
  values id i := by
    have hsem : k'.sem id i = k.sem id i := congrFun (congrArg Waits.sem hwaits) (id, i)
    rw [Kernel.values, hsem]
    exact h.values id i
  demands id i w hw := by
    have hsem : k'.sem id i = k.sem id i := congrFun (congrArg Waits.sem hwaits) (id, i)
    have hwant : k'.semWant w.p = k.semWant w.p := congrFun (congrArg Waits.want hwaits) w.p
    rw [hsem] at hw
    rw [hwant]
    exact h.demands id i w hw

theorem wrap16_le (z : ℤ) : wrap16 z ≤ SHRT_MAX := by
  have hlt : wrap16 z < _ := Int.bmod_lt (m := 2 ^ 16) (by decide)
  simp only [SHRT_MAX]
  omega

theorem wrap16_eq {z : ℤ} (hlow : 0 ≤ z) (hhigh : z ≤ SHRT_MAX) : wrap16 z = z := by
  simp only [SHRT_MAX] at hhigh
  exact Int.bmod_eq_of_le (by omega) (by omega)

/-- `SETVAL` and `SETALL` keep the range when they are given values that are not
negative. -/
theorem RangeInv.assigned (h : RangeInv k) (hassigned : Assigned k op k') (hset : SetsNonneg k op) :
    RangeInv k' := by
  cases hassigned with
  | none hwaits => exact h.of_waits hwaits
  | some id new hop _ _ _ hwaits =>
    have hnew : ∀ i, 0 ≤ new i ∧ new i ≤ SHRT_MAX := by
      intro i
      cases op with
      | semctl q semid semnum cmd val array =>
        simp only [Op.assigns] at hop
        split at hop
        · cases hop
        split at hop
        · rename_i hcmd
          cases hop
          simp only
          split
          · rename_i hi
            exact ⟨hset.2 hcmd i hi, wrap16_le _⟩
          · exact h.values _ i
        split at hop
        · rename_i hcmd
          cases hop
          simp only
          split
          · exact ⟨hset.1 hcmd, wrap16_le _⟩
          · exact h.values _ i
        · cases hop
      | _ => cases hop
    have hsem : ∀ id' i, k'.sem id' i =
        if id' = id then ⟨new i, (k.sem id' i).queue⟩ else k.sem id' i :=
      fun id' i => congrFun (congrArg Waits.sem hwaits) (id', i)
    have hwant : k'.semWant = k.semWant := congrArg Waits.want hwaits
    refine ⟨fun id' i => ?_, fun id' i w hw => ?_⟩
    · rw [Kernel.values, hsem]
      split
      · exact hnew i
      · exact h.values id' i
    · rw [hwant]
      apply h.demands id' i
      rw [hsem] at hw
      split at hw <;> exact hw

theorem ValueStep.range (hstep : ValueStep L k op k') (h : RangeInv k) (hset : SetsNonneg k op)
    (hfits : StaysShort k op) : RangeInv k' := by
  obtain ⟨⟨-, hcall⟩, hop⟩ := hstep
  cases hcall with
  | semop hcall =>
    cases semop_done hcall with
    | refused _ _ hk =>
      rw [hk]
      exact h
    | entered hid _ _ hloop =>
      subst hid
      exact semopLoop_range hloop ⟨h.values, h.demands⟩ (hfits _ rfl)
  | @resume _ p r events hcall =>
    obtain ⟨id, b, rest, events', hc, -, hloop, rfl⟩ := semopResume_ok hcall
    have hcritical : Op.critical k (.resume p (.pass p b.semIndex (-b.semOp) :: events')) =
        some (id, rest, .pass p b.semIndex (-b.semOp) :: events') := by
      simp only [Op.critical, hc]
    exact semopLoop_range hloop ⟨h.values, h.demands⟩ (hfits _ hcritical)
  | semctl hcall => exact h.assigned (semctl_assigned hcall hop) hset
  | _ => cases hop

section Copies

variable {semid semnum val res : ℤ} {array : ℕ → ℤ}

theorem semctl_getall_semid (h : semctl L p semid semnum GETALL val array k = .ok (res, k')) :
    k'.semid = k.semid := by
  obtain ⟨rfl, -⟩ | ⟨id, -, -, -, -, hdone⟩ := semctl_done h
  · rfl
  cases hdone with
  | getall _ hk =>
    rw [hk]
    rfl
  | unknown hno => exact absurd (by simp [Releases]) hno.1
  | _ hcmd => exact absurd hcmd (by decide)

/-- `SETALL` with the values that the semaphores have changes none of them. -/
theorem semctl_setall_semid (h : semctl L p semid semnum SETALL val array k = .ok (res, k'))
    (hsame : ∀ i, wrap16 (array i) = k.values semid.toNat i) : k'.semid = k.semid := by
  obtain ⟨rfl, -⟩ | ⟨id, rfl, -, -, -, hdone⟩ := semctl_done h
  · rfl
  rw [Int.toNat_natCast] at hsame
  cases hdone with
  | setall _ hk =>
    have hsem : (fun i => if i < (k.semid id).sz then
        (⟨wrap16 (array i), (k.sem id i).queue⟩ : Sem) else k.sem id i) = (k.semid id).sem := by
      funext i
      split
      · rw [hsame]
        rfl
      · rfl
    rw [hk, hsem]
    exact update_eq_self id k.semid
  | unknown hno => exact absurd (by simp [Releases]) hno.1
  | _ hcmd => exact absurd hcmd (by decide)

end Copies

theorem RangeInv.representable (h : RangeInv k) : Representable L k := by
  have hexact : ∀ id i, getallArray k id i = k.values id i := fun id i =>
    wrap16_eq (h.values id i).1 (h.values id i).2
  refine ⟨h.values, ?_, hexact, ?_⟩
  · intro p semid semnum val array r k' hcall hmax huse
    obtain ⟨-, hlarge | hunused⟩ | ⟨id, rfl, -, -, -, hdone⟩ := semctl_done hcall
    · exact absurd hmax (not_lt.mpr hlarge)
    · exact absurd hunused huse
    cases hdone with
    | @getval i _ hi hr =>
      rw [hr, (semnumOf_ok hi).1]
      exact hexact id i
    | unknown hno => exact absurd rfl hno.2
    | _ hcmd => exact absurd hcmd (by decide)
  · intro p semid semnum val array r r' k₁ k₂ hget hset
    have hsame := semctl_getall_semid hget
    rw [semctl_setall_semid hset fun i => ?_, hsame]
    have hvalue : k₁.values semid.toNat i = k.values semid.toNat i := by
      rw [Kernel.values, Kernel.sem, hsame]
      rfl
    rw [hvalue, hexact]
    exact hexact semid.toNat i

/-- In every run of `semop` calls with any operations and of `semctl` calls with
values that are not negative, as long as no signal carries a value above
`SHRT_MAX`, values stay representable. -/
theorem semaphores_representable {k₀ : Kernel} {run : List (Op × Kernel)} (hidle : Idle k₀)
    (hshort : ShortValues k₀) (hrun : IsRun (ValueStep L) k₀ run)
    (hset : Along SetsNonneg k₀ run) (hfits : Along StaysShort k₀ run) :
    ∀ k ∈ visited k₀ run, Representable L k := by
  have hstart : RangeInv k₀ := ⟨hshort, fun id i w hw => by simp [hidle.queue id i] at hw⟩
  have hall : ∀ k ∈ visited k₀ run, RangeInv k :=
    hrun.invariant (fun k op => SetsNonneg k op ∧ StaysShort k op) RangeInv
      (fun _ _ _ h hok hstep => hstep.range h hok.1 hok.2) hstart (hset.and hfits)
  exact fun k hk => (hall k hk).representable

/-- A signal, an assignment and a wait. -/
theorem representable_small_values :
    ∃ k₀ run, Idle k₀ ∧ ShortValues k₀ ∧ IsRun (ValueStep smallLayout) k₀ run ∧ run.length = 3 ∧
      Along SetsNonneg k₀ run ∧ Along StaysShort k₀ run ∧
      ∀ k ∈ visited k₀ run, Representable smallLayout k := by
  obtain ⟨k₀, before, run, hk₀, hbefore, hops, hrun, hvalues, hlen, hset, hfits⟩ := boot_run_after
    (L := smallLayout) [.semget 0 0 1 0x8fff]
    [.semop 0 0 [⟨0, 5, 0⟩] [.give 0 0 5], .semctl 0 0 0 SETVAL 7 fun _ => 0,
      .semop 0 0 [⟨0, -3, 0⟩] [.take 0 0 3]]
    (fun k run => Along (fun (_ : Kernel) (op : Op) => op.usesValues = true) k run ∧
      run.length = 3 ∧ Along SetsNonneg k run ∧ Along StaysShort k run)
    (by decide +kernel)
  have hfresh := (smallBoot_fresh hk₀).prepared hbefore (by rw [hops]; decide)
  have hshort : ShortValues (last k₀ before) := fun id i => by
    rw [Kernel.values, hfresh.sem]
    decide
  have hsteps : IsRun (ValueStep smallLayout) (last k₀ before) run := hrun.and_along hvalues
  exact ⟨_, run, hfresh.idle, hshort, hsteps, hlen, hset, hfits,
    semaphores_representable hfresh.idle hshort hsteps hset hfits⟩

/-- Two signals of `32767` units: the value is `65534`, and `GETVAL` reports `-2`. -/
theorem value_exceeds_short :
    ∃ k₀ before run, smallBoot smallLayout = .ok k₀ ∧ IsRun (Step smallLayout) k₀ before ∧
      Idle (last k₀ before) ∧ ShortValues (last k₀ before) ∧
      IsRun (ValueStep smallLayout) (last k₀ before) run ∧
      Along SetsNonneg (last k₀ before) run ∧
      (last (last k₀ before) run).values 0 0 = 65534 ∧
      getallArray (last (last k₀ before) run) 0 0 = -2 ∧
      ∃ k ∈ visited (last k₀ before) run, ¬ Representable smallLayout k := by
  obtain ⟨k₀, before, run, hk₀, hbefore, hops, hrun, hvalues, hset, hvalue, hgetall⟩ :=
    boot_run_after (L := smallLayout) [.semget 0 0 1 0x8fff]
    [.semop 0 0 [⟨0, 32767, 0⟩] [.give 0 0 32767], .semop 0 0 [⟨0, 32767, 0⟩] [.give 0 0 32767]]
    (fun k run => Along (fun (_ : Kernel) (op : Op) => op.usesValues = true) k run ∧
      Along SetsNonneg k run ∧ (last k run).values 0 0 = 65534 ∧
      getallArray (last k run) 0 0 = -2)
    (by decide +kernel)
  have hfresh := (smallBoot_fresh hk₀).prepared hbefore (by rw [hops]; decide)
  have hshort : ShortValues (last k₀ before) := fun id i => by
    rw [Kernel.values, hfresh.sem]
    decide
  refine ⟨k₀, before, run, hk₀, hbefore, hfresh.idle, hshort, hrun.and_along hvalues, hset, hvalue,
    hgetall, _, last_mem_visited _ _, fun hrep => ?_⟩
  have hexact := hrep.getall 0 0
  rw [hvalue, hgetall] at hexact
  exact absurd hexact (by decide)

end LearnOS.Ipc
