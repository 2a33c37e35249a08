import Mathlib.Algebra.BigOperators.Group.List.Basic
import Mathlib.Algebra.Order.Ring.Int
import Mathlib.Data.List.Basic
import Mathlib.Logic.Function.Basic

/-!
# Counting semaphores with wait queues

A semaphore holds units and a queue of processes. A process takes units, or joins
the queue with its demand; whoever puts units back then serves the queue from its
head. Serving a process takes the units for it, and the process goes on later
without a further look at the semaphore.

The addition of units is a parameter, so that the machine's own addition can be
put in its place. What the actions do with units is recorded in a log of events,
and the log is compared with the state: values with sums over the log, and
processes that were served with a replay of it.
-/

namespace Semaphore

open Function

variable {σ π : Type*}

/-- Where a process stands: outside, in the queue of a semaphore with its demand,
or served and not yet gone on. -/
inductive Phase (σ : Type*) where
  | out
  | queued (x : σ) (n : ℤ)
  | served (x : σ) (n : ℤ)

@[ext] structure State (σ π : Type*) where
  value : σ → ℤ
  queue : σ → List π
  phase : π → Phase σ

/-- Process `p` takes `n` units itself, puts `n` back, has `n` taken for it by the
process that serves it, or goes on after that. -/
inductive Event (σ π : Type*) where
  | take (p : π) (x : σ) (n : ℤ)
  | give (p : π) (x : σ) (n : ℤ)
  | grant (p : π) (x : σ) (n : ℤ)
  | pass (p : π) (x : σ) (n : ℤ)
  deriving DecidableEq

variable [DecidableEq σ] [DecidableEq π]

namespace State

def setValue (s : State σ π) (x : σ) (v : ℤ) : State σ π :=
  { s with value := update s.value x v }

def setPhase (s : State σ π) (p : π) (f : Phase σ) : State σ π :=
  { s with phase := update s.phase p f }

def enqueue (s : State σ π) (p : π) (x : σ) (n : ℤ) : State σ π :=
  { s with
    queue := update s.queue x (s.queue x ++ [p])
    phase := update s.phase p (.queued x n) }

/-- The head `p` of the queue is served, and `rest` is what stays. -/
def serve (s : State σ π) (p : π) (rest : List π) (x : σ) (n : ℤ) : State σ π where
  value := update s.value x (s.value x - n)
  queue := update s.queue x rest
  phase := update s.phase p (.served x n)

end State

/-- The demand at the head of the queue cannot be met. -/
def Settled (s : State σ π) (x : σ) : Prop :=
  ∀ p rest n, s.queue x = p :: rest → s.phase p = .queued x n → s.value x < n

/-- The queue is served until it is settled. -/
inductive Serves (x : σ) : State σ π → List (Event σ π) → State σ π → Prop
  | stop {s : State σ π} (hsettled : Settled s x) : Serves x s [] s
  | grant {s s' : State σ π} {p : π} {rest : List π} {n : ℤ} {es : List (Event σ π)}
      (hqueue : s.queue x = p :: rest) (hphase : s.phase p = .queued x n)
      (hle : n ≤ s.value x) (hrest : Serves x (s.serve p rest x n) es s') :
      Serves x s (.grant p x n :: es) s'

inductive Action (add : ℤ → ℤ → ℤ) (s : State σ π) : List (Event σ π) → State σ π → Prop
  | take {p : π} {x : σ} {n : ℤ} (hn : 0 ≤ n) (hle : n ≤ s.value x) :
      Action add s [.take p x n] (s.setValue x (s.value x - n))
  | signal {p : π} {x : σ} {n : ℤ} {es : List (Event σ π)} {t : State σ π} (hn : 0 ≤ n)
      (hserves : Serves x (s.setValue x (add (s.value x) n)) es t) :
      Action add s (.give p x n :: es) t
  | sleep {p : π} {x : σ} {n : ℤ} (hn : 0 ≤ n) (hout : s.phase p = .out)
      (hlt : s.value x < n) : Action add s [] (s.enqueue p x n)
  | pass {p : π} {x : σ} {n : ℤ} (hserved : s.phase p = .served x n) :
      Action add s [.pass p x n] (s.setPhase p .out)

/-- Actions one after the other, with their common log. -/
inductive Actions (add : ℤ → ℤ → ℤ) : State σ π → List (Event σ π) → State σ π → Prop
  | nil {s : State σ π} : Actions add s [] s
  | cons {s t u : State σ π} {es fs : List (Event σ π)} (hact : Action add s es t)
      (hrest : Actions add t fs u) : Actions add s (es ++ fs) u

/-! ## Queues -/

/-- A process stands in at most one queue, once, and with the demand it has. -/
structure Consistent (s : State σ π) : Prop where
  nodup : ∀ x, (s.queue x).Nodup
  mem_iff : ∀ x p, p ∈ s.queue x ↔ ∃ n, s.phase p = .queued x n
  demand : ∀ p x n, s.phase p = .queued x n → 0 ≤ n

section Consistent

variable {add : ℤ → ℤ → ℤ} {s t : State σ π} {x : σ} {p : π} {n : ℤ} {es : List (Event σ π)}

omit [DecidableEq π] in
theorem Consistent.setValue (h : Consistent s) (v : ℤ) : Consistent (s.setValue x v) :=
  ⟨h.nodup, h.mem_iff, h.demand⟩

omit [DecidableEq σ] in
/-- A change between two phases outside the queues. -/
theorem Consistent.setPhase (h : Consistent s) (hold : ∀ y m, s.phase p ≠ .queued y m)
    {f : Phase σ} (hnew : ∀ y m, f ≠ .queued y m) : Consistent (s.setPhase p f) := by
  have hiff : ∀ q y m, (s.setPhase p f).phase q = .queued y m ↔ s.phase q = .queued y m := by
    intro q y m
    by_cases hq : q = p
    · subst hq
      simp [State.setPhase, hold y m, hnew y m]
    · simp [State.setPhase, hq]
  refine ⟨h.nodup, fun y q => ?_, fun q y m hphase => h.demand q y m ((hiff q y m).mp hphase)⟩
  simp only [hiff]
  exact h.mem_iff y q

theorem Consistent.enqueue (h : Consistent s) (hn : 0 ≤ n) (hout : s.phase p = .out) :
    Consistent (s.enqueue p x n) := by
  have hnot : ∀ y, p ∉ s.queue y := by
    intro y hp
    obtain ⟨m, hm⟩ := (h.mem_iff y p).mp hp
    simp [hout] at hm
  refine ⟨fun y => ?_, fun y q => ?_, fun q y m hphase => ?_⟩
  · by_cases hy : y = x
    · subst hy
      simpa [State.enqueue, List.nodup_append, h.nodup y] using fun q hq (heq : q = p) =>
        hnot y (heq ▸ hq)
    · simpa [State.enqueue, hy] using h.nodup y
  · by_cases hq : q = p
    · subst hq
      by_cases hy : y = x
      · subst hy
        simp [State.enqueue]
      · simp [State.enqueue, hy, hnot y, Ne.symm hy]
    · by_cases hy : y = x
      · subst hy
        simpa [State.enqueue, hq] using h.mem_iff y q
      · simpa [State.enqueue, hq, hy] using h.mem_iff y q
  · by_cases hq : q = p
    · subst hq
      simp only [State.enqueue, update_self, Phase.queued.injEq] at hphase
      exact hphase.2 ▸ hn
    · simp only [State.enqueue, update_of_ne hq] at hphase
      exact h.demand q y m hphase

theorem Consistent.serve (h : Consistent s) {rest : List π} (hqueue : s.queue x = p :: rest)
    (hphase : s.phase p = .queued x n) : Consistent (s.serve p rest x n) := by
  have hnodup := h.nodup x
  rw [hqueue, List.nodup_cons] at hnodup
  refine ⟨fun y => ?_, fun y q => ?_, fun q y m hq => ?_⟩
  · by_cases hy : y = x
    · subst hy
      simpa [State.serve] using hnodup.2
    · simpa [State.serve, hy] using h.nodup y
  · have hmem := h.mem_iff y q
    by_cases hq : q = p
    · subst hq
      by_cases hy : y = x
      · subst hy
        simpa [State.serve] using hnodup.1
      · simpa [State.serve, hy, hphase, Ne.symm hy] using hmem
    · by_cases hy : y = x
      · subst hy
        simpa [State.serve, hq, hqueue] using hmem
      · simpa [State.serve, hq, hy] using hmem
  · by_cases hqp : q = p
    · subst hqp
      simp [State.serve] at hq
    · simp only [State.serve, update_of_ne hqp] at hq
      exact h.demand q y m hq

theorem Serves.consistent (hserves : Serves x s es t) (h : Consistent s) : Consistent t := by
  induction hserves with
  | stop => exact h
  | grant hqueue hphase _ _ ih => exact ih (h.serve hqueue hphase)

theorem Action.consistent (hact : Action add s es t) (h : Consistent s) : Consistent t := by
  cases hact with
  | take => exact h.setValue _
  | signal _ hserves => exact hserves.consistent (h.setValue _)
  | sleep hn hout => exact h.enqueue hn hout
  | pass hserved => exact h.setPhase (by simp [hserved]) (by simp)

end Consistent

/-! ## Settled queues -/

section Settled

variable {add : ℤ → ℤ → ℤ} {s t : State σ π} {x y : σ} {p : π} {n : ℤ} {es : List (Event σ π)}

omit [DecidableEq σ] [DecidableEq π] in
/-- Lower values and fewer demands keep a queue settled. -/
theorem Settled.mono (h : Settled s y) (hqueue : t.queue y = s.queue y)
    (hvalue : t.value y ≤ s.value y)
    (hphase : ∀ p n, t.phase p = .queued y n → s.phase p = .queued y n) : Settled t y :=
  fun p rest n hq hp => lt_of_le_of_lt hvalue (h p rest n (hqueue ▸ hq) (hphase p n hp))

theorem Serves.settled (hserves : Serves x s es t) : Settled t x := by
  induction hserves with
  | stop hsettled => exact hsettled
  | grant _ _ _ _ ih => exact ih

/-- Other queues are left alone. -/
theorem Serves.frame (hserves : Serves x s es t) (hy : y ≠ x) :
    t.queue y = s.queue y ∧ t.value y = s.value y ∧
      ∀ p n, t.phase p = .queued y n → s.phase p = .queued y n := by
  induction hserves with
  | stop => exact ⟨rfl, rfl, fun _ _ h => h⟩
  | @grant s s' p rest n es hqueue hphase hle hrest ih =>
    obtain ⟨hq, hv, hp⟩ := ih
    refine ⟨?_, ?_, fun q m hm => ?_⟩
    · simpa [State.serve, hy] using hq
    · simpa [State.serve, hy] using hv
    · have hold := hp q m hm
      by_cases hqp : q = p
      · subst hqp
        simp [State.serve] at hold
      · simpa [State.serve, hqp] using hold

theorem Action.settled (hact : Action add s es t) (h : ∀ y, Settled s y) (y : σ) :
    Settled t y := by
  cases hact with
  | @take p x n hn hle =>
    refine (h y).mono rfl ?_ fun _ _ hq => hq
    by_cases hy : y = x
    · subst hy
      simp only [State.setValue, update_self]
      omega
    · simp [State.setValue, hy]
  | @signal p x n es t hn hserves =>
    by_cases hy : y = x
    · subst hy
      exact hserves.settled
    · obtain ⟨hq, hv, hp⟩ := hserves.frame hy
      refine (h y).mono hq (le_of_eq ?_) hp
      simpa [State.setValue, hy] using hv
  | @sleep p x n hn hout hlt =>
    intro q rest m hq hphase
    by_cases hqp : q = p
    · subst hqp
      simp only [State.enqueue, update_self, Phase.queued.injEq] at hphase
      obtain ⟨rfl, rfl⟩ := hphase
      exact hlt
    · simp only [State.enqueue, update_of_ne hqp] at hphase
      by_cases hy : y = x
      · subst hy
        simp only [State.enqueue, update_self] at hq
        cases hqueue : s.queue y with
        | nil =>
          rw [hqueue] at hq
          exact absurd (List.cons.inj hq).1.symm hqp
        | cons r rest' =>
          rw [hqueue] at hq
          obtain ⟨rfl, -⟩ := List.cons.inj hq
          exact h y r rest' m hqueue hphase
      · simp only [State.enqueue, update_of_ne hy] at hq
        exact h y q rest m hq hphase
  | @pass p x n hserved =>
    refine (h y).mono rfl le_rfl fun q m hq => ?_
    by_cases hqp : q = p
    · subst hqp
      simp [State.setPhase] at hq
    · simpa [State.setPhase, hqp] using hq

theorem Actions.settled (hacts : Actions add s es t) (h : ∀ y, Settled s y) :
    ∀ y, Settled t y := by
  induction hacts with
  | nil => exact h
  | cons hact _ ih => exact ih (hact.settled h)

end Settled

/-! ## The log against the values -/

/-- The units that an event takes from semaphore `x`. -/
def Event.taken (x : σ) : Event σ π → ℤ
  | .take _ y n => if y = x then n else 0
  | .grant _ y n => if y = x then n else 0
  | _ => 0

/-- The units that an event puts back into semaphore `x`. -/
def Event.given (x : σ) : Event σ π → ℤ
  | .give _ y n => if y = x then n else 0
  | _ => 0

/-- The units granted according to a log. -/
def granted (x : σ) (es : List (Event σ π)) : ℤ := (es.map (Event.taken x)).sum

/-- The units released according to a log. -/
def released (x : σ) (es : List (Event σ π)) : ℤ := (es.map (Event.given x)).sum

section Balance

variable {add : ℤ → ℤ → ℤ} {s t : State σ π} {x y : σ} {es fs : List (Event σ π)}

omit [DecidableEq π] in
@[simp] theorem granted_nil : granted x ([] : List (Event σ π)) = 0 := rfl

omit [DecidableEq π] in
@[simp] theorem released_nil : released x ([] : List (Event σ π)) = 0 := rfl

omit [DecidableEq π] in
@[simp] theorem granted_cons (e : Event σ π) :
    granted x (e :: es) = e.taken x + granted x es := by
  simp [granted]

omit [DecidableEq π] in
@[simp] theorem released_cons (e : Event σ π) :
    released x (e :: es) = e.given x + released x es := by
  simp [released]

omit [DecidableEq π] in
@[simp] theorem granted_append : granted x (es ++ fs) = granted x es + granted x fs := by
  simp [granted]

omit [DecidableEq π] in
@[simp] theorem released_append : released x (es ++ fs) = released x es + released x fs := by
  simp [released]

/-- The log accounts for the change of the values, and no value sinks below `lo`. -/
structure Balanced (lo : ℤ) (s : State σ π) (es : List (Event σ π)) (t : State σ π) : Prop where
  sum : ∀ x, t.value x + granted x es = s.value x + released x es
  nonneg : ∀ x, 0 ≤ granted x es
  low : ∀ x, lo ≤ t.value x

variable {lo hi : ℤ}

theorem Serves.released_eq (hserves : Serves x s es t) (y : σ) : released y es = 0 := by
  induction hserves with
  | stop => simp
  | grant _ _ _ _ ih => simpa [Event.given] using ih

theorem Serves.balanced (hserves : Serves x s es t) (hlo : lo ≤ 0)
    (hs : ∀ y, lo ≤ s.value y) (hc : Consistent s) : Balanced lo s es t := by
  induction hserves with
  | stop => exact ⟨fun _ => by simp, fun _ => by simp, hs⟩
  | @grant s s' p rest n es hqueue hphase hle hrest ih =>
    have hn := hc.demand p x n hphase
    have hlow : ∀ y, lo ≤ (s.serve p rest x n).value y := by
      intro y
      by_cases hy : y = x
      · subst hy
        simp only [State.serve, update_self]
        omega
      · simpa [State.serve, hy] using hs y
    have hbal := ih hlow (hc.serve hqueue hphase)
    refine ⟨fun y => ?_, fun y => ?_, hbal.low⟩
    · have hsum := hbal.sum y
      by_cases hy : y = x
      · subst hy
        simp only [State.serve, update_self] at hsum
        simp only [granted_cons, released_cons, Event.taken, Event.given, if_true]
        omega
      · simp only [State.serve, update_of_ne hy] at hsum
        simpa [Event.taken, Event.given, Ne.symm hy] using hsum
    · have hpos := hbal.nonneg y
      simp only [granted_cons, Event.taken]
      split
      · omega
      · exact (zero_add (granted y es)).symm ▸ hpos

theorem Action.released_nonneg (hact : Action add s es t) (y : σ) : 0 ≤ released y es := by
  cases hact with
  | take => simp [Event.given]
  | signal hn hserves =>
    simp only [released_cons, Event.given, hserves.released_eq y, add_zero]
    split
    · exact hn
    · exact le_rfl
  | sleep => simp
  | pass => simp [Event.given]

theorem Actions.released_nonneg (hacts : Actions add s es t) (y : σ) : 0 ≤ released y es := by
  induction hacts with
  | nil => simp
  | cons hact _ ih =>
    rw [released_append]
    exact add_nonneg (hact.released_nonneg y) ih

/-- The sums of an action whose addition is exact. -/
theorem Action.balanced (hact : Action add s es t)
    (hadd : ∀ v n, lo ≤ v → 0 ≤ n → v + n ≤ hi → add v n = v + n) (hlo : lo ≤ 0)
    (hs : ∀ y, lo ≤ s.value y) (hhi : ∀ y, s.value y + released y es ≤ hi)
    (hc : Consistent s) : Balanced lo s es t := by
  cases hact with
  | @take p x n hn hle =>
    refine ⟨fun y => ?_, fun y => ?_, fun y => ?_⟩
    · by_cases hy : y = x
      · subst hy
        simp [State.setValue, Event.taken, Event.given]
      · simp [State.setValue, Event.taken, Event.given, hy, Ne.symm hy]
    · simp only [granted_cons, granted_nil, Event.taken, add_zero]
      split
      · exact hn
      · exact le_rfl
    · by_cases hy : y = x
      · subst hy
        simp only [State.setValue, update_self]
        omega
      · simpa [State.setValue, hy] using hs y
  | @signal p x n es t hn hserves =>
    have hexact : add (s.value x) n = s.value x + n := by
      refine hadd _ _ (hs x) hn ?_
      simpa [Event.given, hserves.released_eq x] using hhi x
    rw [hexact] at hserves
    have hlow : ∀ y, lo ≤ (s.setValue x (s.value x + n)).value y := by
      intro y
      by_cases hy : y = x
      · subst hy
        simp only [State.setValue, update_self]
        exact (hs y).trans (le_add_of_nonneg_right hn)
      · simpa [State.setValue, hy] using hs y
    have hbal := hserves.balanced hlo hlow (hc.setValue _)
    refine ⟨fun y => ?_, fun y => ?_, hbal.low⟩
    · have hsum := hbal.sum y
      by_cases hy : y = x
      · subst hy
        simp only [State.setValue, update_self] at hsum
        simp only [granted_cons, released_cons, Event.taken, Event.given, if_true]
        omega
      · simp only [State.setValue, update_of_ne hy] at hsum
        simpa [Event.taken, Event.given, Ne.symm hy] using hsum
    · simpa [Event.taken] using hbal.nonneg y
  | sleep => exact ⟨fun _ => by simp [State.enqueue], fun _ => by simp, hs⟩
  | pass => exact ⟨fun _ => by simp [State.setPhase, Event.taken, Event.given],
      fun _ => by simp [Event.taken], hs⟩

/-- An addition that is exact up to `hi` conserves the units as long as no more
than that is put back. -/
theorem Actions.balanced (hacts : Actions add s es t)
    (hadd : ∀ v n, lo ≤ v → 0 ≤ n → v + n ≤ hi → add v n = v + n) (hlo : lo ≤ 0)
    (hs : ∀ y, lo ≤ s.value y) (hhi : ∀ y, s.value y + released y es ≤ hi)
    (hc : Consistent s) : Balanced lo s es t := by
  induction hacts with
  | nil => exact ⟨fun _ => by simp, fun _ => by simp, hs⟩
  | @cons s t u es fs hact hrest ih =>
    have hfirst := hact.balanced hadd hlo hs (fun y => by
      have hle := hhi y
      have hpos := hrest.released_nonneg y
      rw [released_append] at hle
      omega) hc
    have hrest' := ih hfirst.low (fun y => by
      have hle := hhi y
      have hsum := hfirst.sum y
      have hpos := hfirst.nonneg y
      rw [released_append] at hle
      omega) (hact.consistent hc)
    refine ⟨fun y => ?_, fun y => ?_, hrest'.low⟩
    · have h₁ := hfirst.sum y
      have h₂ := hrest'.sum y
      rw [granted_append, released_append]
      omega
    · rw [granted_append]
      exact add_nonneg (hfirst.nonneg y) (hrest'.nonneg y)

end Balance

/-! ## The log against the processes -/

/-- The log read from the start, with the grants that are still to be received. A
process that goes on without its grant, or gets a second one, makes it fail. -/
def replay : List (Event σ π) → (π → Option (σ × ℤ)) → Option (π → Option (σ × ℤ))
  | [], due => some due
  | .grant p x n :: es, due =>
    if due p = none then replay es (update due p (some (x, n))) else none
  | .pass p x n :: es, due =>
    if due p = some (x, n) then replay es (update due p none) else none
  | .take _ _ _ :: es, due => replay es due
  | .give _ _ _ :: es, due => replay es due

/-- The grant a process has not received yet. -/
def State.due (s : State σ π) (p : π) : Option (σ × ℤ) :=
  match s.phase p with
  | .served x n => some (x, n)
  | _ => none

section Replay

variable {add : ℤ → ℤ → ℤ} {s t : State σ π} {x : σ} {p : π} {es fs : List (Event σ π)}

theorem replay_append (due : π → Option (σ × ℤ)) :
    replay (es ++ fs) due = (replay es due).bind (replay fs) := by
  induction es generalizing due with
  | nil => rfl
  | cons e es ih =>
    cases e with
    | take | give => exact ih due
    | grant | pass =>
      simp only [List.cons_append, replay]
      split
      · exact ih _
      · rfl

omit [DecidableEq σ] in
theorem due_of_phase {f : Phase σ} (h : t.phase = update s.phase p f) :
    t.due = update s.due p ((⟨t.value, t.queue, fun _ => f⟩ : State σ π).due p) := by
  funext q
  by_cases hq : q = p
  · subst hq
    simp [State.due, h]
  · simp [State.due, h, hq]

theorem Serves.replay (hserves : Serves x s es t) : replay es s.due = some t.due := by
  induction hserves with
  | stop => rfl
  | @grant s s' p rest n es hqueue hphase hle hrest ih =>
    have hnone : s.due p = none := by simp [State.due, hphase]
    have hdue : (s.serve p rest x n).due = update s.due p (some (x, n)) :=
      due_of_phase (f := .served x n) rfl
    rw [Semaphore.replay, if_pos hnone, ← hdue]
    exact ih

theorem Action.replay (hact : Action add s es t) : replay es s.due = some t.due := by
  cases hact with
  | take => rfl
  | signal _ hserves => exact hserves.replay
  | @sleep p x n hn hout hlt =>
    have hdue : (s.enqueue p x n).due = update s.due p none :=
      due_of_phase (f := .queued x n) rfl
    have hnone : s.due p = none := by simp [State.due, hout]
    rw [hdue, ← hnone, update_eq_self]
    rfl
  | @pass p x n hserved =>
    have hdue : (s.setPhase p .out).due = update s.due p none :=
      due_of_phase (f := .out) rfl
    have hsome : s.due p = some (x, n) := by simp [State.due, hserved]
    rw [Semaphore.replay, if_pos hsome, hdue]
    rfl

/-- Whoever goes on has been served before, with the units it waited for. -/
theorem Actions.replay (hacts : Actions add s es t) : replay es s.due = some t.due := by
  induction hacts with
  | nil => rfl
  | cons hact _ ih => rw [replay_append, hact.replay, Option.bind_some, ih]

end Replay

end Semaphore
