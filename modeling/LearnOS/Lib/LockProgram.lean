import LearnOS.Lib.Transition
import Mathlib.Order.BooleanAlgebra.Set
import Mathlib.Logic.Function.Basic
import Mathlib.Logic.Relation

/-!
# Threads that take spin locks

Code is a tree of lock operations and of operations on shared data, whose answers
choose the branch. Each thread has the tree it has still to run; a step runs the
next node of one thread, so the runs are all interleavings. When every thread
takes its locks in the order of a rank, no threads wait for each other in a
circle.

## Implementation notes

A lock can be taken only when a guard holds of the data. Code that spins has the
guard that always holds; the other guards are for threads that do not run until
something has happened. Loops are jumps to named code.
-/

namespace LockProgram

open Transition Function

variable {L G O C σ T : Type} {A : O → Type}

inductive Prog (L G O : Type) (A : O → Type) (C : Type) where
  | ret
  | acquire (l : L) (g : G) (k : Prog L G O A C)
  | release (l : L) (k : Prog L G O A C)
  | op (o : O) (k : A o → Prog L G O A C)
  | jump (c : C)

def Prog.isRet : Prog L G O A C → Bool
  | .ret => true
  | _ => false

theorem Prog.eq_ret {k : Prog L G O A C} (h : k.isRet = true) : k = .ret := by
  cases k <;> first | rfl | cases h

/-- What the names in a tree mean on the shared data, and when a thread that has
nothing left to run may start some named code. -/
structure Machine (L G O : Type) (A : O → Type) (C σ T : Type) where
  exec : (o : O) → σ → A o × σ
  holds : G → σ → Bool
  body : C → Prog L G O A C
  start : T → C → σ → Bool

structure State (L G O : Type) (A : O → Type) (C σ T : Type) where
  data : σ
  holder : L → Option T
  prog : T → Prog L G O A C

inductive Act (T C : Type) where
  | run (t : T)
  | start (t : T) (c : C)

section Step

variable [DecidableEq L] [DecidableEq T] (M : Machine L G O A C σ T)

/-- The next node of one thread, when it is not blocked. -/
def next (t : T) (s : State L G O A C σ T) : Option (State L G O A C σ T) :=
  match s.prog t with
  | .ret => none
  | .acquire l g k =>
    if s.holder l = none ∧ M.holds g s.data = true then
      some { s with
        holder := update s.holder l (some t), prog := update s.prog t k }
    else none
  | .release l k =>
    if s.holder l = some t then
      some { s with
        holder := update s.holder l none, prog := update s.prog t k }
    else none
  | .op o k =>
    let (a, d) := M.exec o s.data
    some { s with data := d, prog := update s.prog t (k a) }
  | .jump c => some { s with prog := update s.prog t (M.body c) }

section Inversion

variable {M} {s s' : State L G O A C σ T} {t : T} {l : L}

theorem next_ret (hk : s.prog t = .ret) : next M t s = none := by
  simp only [next, hk]

theorem next_acquire {g : G} {k : Prog L G O A C} (hk : s.prog t = .acquire l g k)
    (h : next M t s = some s') :
    s.holder l = none ∧ M.holds g s.data = true ∧
      s' = ⟨s.data, update s.holder l (some t), update s.prog t k⟩ := by
  simp only [next, hk, Option.ite_none_right_eq_some, Option.some.injEq] at h
  obtain ⟨⟨hfree, hg⟩, rfl⟩ := h
  exact ⟨hfree, hg, rfl⟩

theorem next_release {k : Prog L G O A C} (hk : s.prog t = .release l k)
    (h : next M t s = some s') :
    s.holder l = some t ∧
      s' = ⟨s.data, update s.holder l none, update s.prog t k⟩ := by
  simp only [next, hk, Option.ite_none_right_eq_some, Option.some.injEq] at h
  obtain ⟨hmine, rfl⟩ := h
  exact ⟨hmine, rfl⟩

theorem next_op {o : O} {k : A o → Prog L G O A C} (hk : s.prog t = .op o k)
    (h : next M t s = some s') :
    s' = ⟨(M.exec o s.data).2, s.holder, update s.prog t (k (M.exec o s.data).1)⟩ := by
  simp only [next, hk, Option.some.injEq] at h
  exact h.symm

theorem next_jump {c : C} (hk : s.prog t = .jump c) (h : next M t s = some s') :
    s' = ⟨s.data, s.holder, update s.prog t (M.body c)⟩ := by
  simp only [next, hk, Option.some.injEq] at h
  exact h.symm

/-- A step of one thread leaves the code of the others. -/
theorem next_prog_of_ne {u : T} (hu : u ≠ t) (h : next M t s = some s') : s'.prog u = s.prog u := by
  cases hk : s.prog t with
  | ret =>
    rw [next_ret hk] at h
    cases h
  | acquire l g k =>
    obtain ⟨-, -, rfl⟩ := next_acquire hk h
    exact update_of_ne hu _ _
  | release l k =>
    obtain ⟨-, rfl⟩ := next_release hk h
    exact update_of_ne hu _ _
  | op o k =>
    obtain rfl := next_op hk h
    exact update_of_ne hu _ _
  | jump c =>
    obtain rfl := next_jump hk h
    exact update_of_ne hu _ _

end Inversion

def stepAct (s : State L G O A C σ T) : Act T C → Option (State L G O A C σ T)
  | .run t => next M t s
  | .start t c =>
    if (s.prog t).isRet ∧ M.start t c s.data = true then
      some { s with prog := update s.prog t (M.body c) }
    else none

def Step (s : State L G O A C σ T) (a : Act T C) (s' : State L G O A C σ T) : Prop :=
  stepAct M s a = some s'

variable {M} in
theorem step_start {s s' : State L G O A C σ T} {t : T} {c : C} (h : Step M s (.start t c) s') :
    s.prog t = .ret ∧ M.start t c s.data = true ∧
      s' = ⟨s.data, s.holder, update s.prog t (M.body c)⟩ := by
  simp only [Step, stepAct, Option.ite_none_right_eq_some, Option.some.injEq] at h
  obtain ⟨⟨hret, hstart⟩, rfl⟩ := h
  exact ⟨Prog.eq_ret hret, hstart, rfl⟩

/-- The run that a schedule makes. -/
def schedule : List (Act T C) → State L G O A C σ T →
    Option (List (Act T C × State L G O A C σ T))
  | [], _ => some []
  | a :: rest, s =>
    match stepAct M s a with
    | none => none
    | some s' => (schedule rest s').map fun run => (a, s') :: run

theorem schedule_isRun {acts : List (Act T C)} {s : State L G O A C σ T}
    {run : List (Act T C × State L G O A C σ T)} (h : schedule M acts s = some run) :
    IsRun (Step M) s run ∧ run.map Prod.fst = acts := by
  induction acts generalizing s run with
  | nil =>
    cases h
    exact ⟨trivial, rfl⟩
  | cons a rest ih =>
    simp only [schedule] at h
    split at h
    · cases h
    · rename_i s' hs'
      obtain ⟨run', hrun', rfl⟩ := Option.map_eq_some_iff.mp h
      obtain ⟨hrun, hacts⟩ := ih hrun'
      exact ⟨⟨hs', hrun⟩, by simp [hacts]⟩

/-- A schedule that can be followed makes a run with a property. -/
theorem exists_run (acts : List (Act T C)) (s : State L G O A C σ T)
    (P : List (Act T C × State L G O A C σ T) → Prop)
    (h : ∃ run, schedule M acts s = some run ∧ P run) :
    ∃ run, IsRun (Step M) s run ∧ run.map Prod.fst = acts ∧ P run := by
  obtain ⟨run, hrun, htest⟩ := h
  obtain ⟨hisRun, hacts⟩ := schedule_isRun M hrun
  exact ⟨run, hisRun, hacts, htest⟩

end Step

/-! ## Lock order -/

section Order

variable (rank : L → ℕ) (good : (o : O) → A o → Prop) (entry : C → Set L)

/-- Code that begins with the locks `held` takes each lock above those it holds,
and returns without any. Only good answers are looked at, and named code begins
with the locks of its `entry`. -/
def Ordered : Set L → Prog L G O A C → Prop
  | held, .ret => held = ∅
  | held, .acquire l _ k => (∀ l' ∈ held, rank l' < rank l) ∧ Ordered (insert l held) k
  | held, .release l k => Ordered (held \ {l}) k
  | held, .op o k => ∀ a, good o a → Ordered held (k a)
  | held, .jump c => held = entry c

variable {rank good entry} {held : Set L} {k : Prog L G O A C} {l : L} {g : G}

theorem insert_diff_of_lt (h : ∀ l' ∈ held, rank l' < rank l) : insert l held \ {l} = held := by
  apply Set.insert_sdiff_self_of_notMem
  intro hl
  exact Nat.lt_irrefl _ (h l hl)

/-- A lock is taken above the others and given back. -/
theorem Ordered.critical {o : O} {f : A o → Prog L G O A C}
    (h : ∀ l' ∈ held, rank l' < rank l) (hk : ∀ a, good o a → Ordered rank good entry held (f a)) :
    Ordered rank good entry held (.acquire l g (.op o fun a => .release l (f a))) := by
  refine ⟨h, fun a ha => ?_⟩
  rw [Ordered, insert_diff_of_lt h]
  exact hk a ha

/-- A loop whose rounds end with the locks with which they begin. -/
theorem Ordered.foldr {ι : Type} {f : ι → Prog L G O A C → Prog L G O A C} {items : List ι}
    (hf : ∀ i ∈ items, ∀ k, Ordered rank good entry held k → Ordered rank good entry held (f i k))
    (hk : Ordered rank good entry held k) :
    Ordered rank good entry held (items.foldr f k) := by
  induction items with
  | nil => exact hk
  | cons i rest ih =>
    exact hf i List.mem_cons_self _ (ih fun j hj => hf j (List.mem_cons_of_mem i hj))

end Order

/-! ## Threads that wait for each other -/

section Deadlock

variable {M : Machine L G O A C σ T} {s s' : State L G O A C σ T} {t u : T}

/-- The thread spins on the lock. -/
def Waits (M : Machine L G O A C σ T) (s : State L G O A C σ T) (t : T) (l : L) : Prop :=
  ∃ g k, s.prog t = .acquire l g k ∧ M.holds g s.data = true

/-- The lock on which the thread spins. -/
def spinsOn (M : Machine L G O A C σ T) (s : State L G O A C σ T) (t : T) : Option L :=
  match s.prog t with
  | .acquire l g _ => if M.holds g s.data = true then some l else none
  | _ => none

theorem waits_of_spinsOn {l : L} (h : spinsOn M s t = some l) : Waits M s t l := by
  simp only [spinsOn] at h
  split at h
  · rename_i l' g k hprog
    simp only [Option.ite_none_right_eq_some, Option.some.injEq] at h
    obtain ⟨hg, rfl⟩ := h
    exact ⟨g, k, hprog, hg⟩
  · cases h

def WaitsFor (M : Machine L G O A C σ T) (s : State L G O A C σ T) (t u : T) : Prop :=
  ∃ l, Waits M s t l ∧ s.holder l = some u

/-- The code of a machine keeps to a lock order as long as the answers are good. -/
structure Discipline (M : Machine L G O A C σ T) (rank : L → ℕ)
    (good : (o : O) → A o → Prop) (entry : C → Set L) : Prop where
  body : ∀ c, Ordered rank good entry (entry c) (M.body c)
  start : ∀ t c d, M.start t c d = true → entry c = ∅

/-- The operation that the thread runs next has a good answer. -/
def GoodStep (M : Machine L G O A C σ T) (good : (o : O) → A o → Prop)
    (s : State L G O A C σ T) : Act T C → Prop
  | .run t =>
    match s.prog t with
    | .op o _ => good o (M.exec o s.data).1
    | _ => True
  | .start .. => True

instance decidableGoodStep (good : (o : O) → A o → Prop) [∀ o a, Decidable (good o a)]
    (s : State L G O A C σ T) (a : Act T C) : Decidable (GoodStep M good s a) :=
  match a with
  | .start .. => .isTrue trivial
  | .run t =>
    match h : s.prog t with
    | .op o k => decidable_of_iff (good o (M.exec o s.data).1) (by simp only [GoodStep, h])
    | .ret | .acquire .. | .release .. | .jump _ => .isTrue (by simp only [GoodStep, h])

variable {rank : L → ℕ} {good : (o : O) → A o → Prop} {entry : C → Set L}

def AllOrdered (rank : L → ℕ) (good : (o : O) → A o → Prop) (entry : C → Set L)
    (s : State L G O A C σ T) : Prop :=
  ∀ t, Ordered rank good entry {l | s.holder l = some t} (s.prog t)

/-- A thread that waits for a lock holds only locks below it. -/
theorem AllOrdered.lt (h : AllOrdered rank good entry s) {l l' : L} (hwait : Waits M s t l')
    (hheld : s.holder l = some t) : rank l < rank l' := by
  obtain ⟨g, k, hprog, -⟩ := hwait
  have ht := h t
  rw [hprog] at ht
  exact ht.1 l hheld

/-- Along a chain of waiting threads the locks waited for go up. -/
theorem AllOrdered.chain (h : AllOrdered rank good entry s)
    (hchain : Relation.TransGen (WaitsFor M s) t u) :
    ∃ l, Waits M s t l ∧ ∀ l', Waits M s u l' → rank l < rank l' := by
  induction hchain with
  | single hwait =>
    obtain ⟨l, hl, hheld⟩ := hwait
    exact ⟨l, hl, fun l' hl' => h.lt hl' hheld⟩
  | tail _ hwait ih =>
    obtain ⟨l, hl, hup⟩ := ih
    obtain ⟨l₁, hl₁, hheld⟩ := hwait
    exact ⟨l, hl, fun l' hl' => (hup l₁ hl₁).trans (h.lt hl' hheld)⟩

theorem AllOrdered.no_circle (h : AllOrdered rank good entry s) :
    ¬ Relation.TransGen (WaitsFor M s) t t := by
  intro hchain
  obtain ⟨l, hl, hup⟩ := h.chain hchain
  exact Nat.lt_irrefl _ (hup l hl)

variable [DecidableEq T]

/-- One thread goes on, and no other thread gains or loses a lock. -/
theorem AllOrdered.update {k : Prog L G O A C} (h : AllOrdered rank good entry s)
    (hprog : s'.prog = update s.prog t k)
    (hother : ∀ u, u ≠ t → ∀ l, s'.holder l = some u ↔ s.holder l = some u)
    (hk : Ordered rank good entry {l | s'.holder l = some t} k) :
    AllOrdered rank good entry s' := by
  intro u
  by_cases hu : u = t
  · subst hu
    rw [hprog, update_self]
    exact hk
  · have hheld : {l | s'.holder l = some u} = {l | s.holder l = some u} :=
      Set.ext fun l => hother u hu l
    rw [hprog, update_of_ne hu, hheld]
    exact h u

variable [DecidableEq L]

theorem AllOrdered.next (hM : Discipline M rank good entry) (h : AllOrdered rank good entry s)
    (hgood : GoodStep M good s (.run t)) (hstep : next M t s = some s') :
    AllOrdered rank good entry s' := by
  have ht := h t
  simp only [GoodStep] at hgood
  cases hprog : s.prog t with
  | ret =>
    rw [next_ret hprog] at hstep
    cases hstep
  | acquire l g k =>
    rw [hprog] at ht
    obtain ⟨hfree, -, rfl⟩ := next_acquire hprog hstep
    refine h.update rfl (fun u hu l' => ?_) ?_
    · by_cases hl : l' = l
      · simp [hl, hfree, hu.symm]
      · simp [hl]
    · have hheld : {l' | Function.update s.holder l (some t) l' = some t} =
          insert l {l' | s.holder l' = some t} := by
        ext l'
        by_cases hl : l' = l <;> simp [hl]
      rw [hheld]
      exact ht.2
  | release l k =>
    rw [hprog] at ht
    obtain ⟨hmine, rfl⟩ := next_release hprog hstep
    refine h.update rfl (fun u hu l' => ?_) ?_
    · by_cases hl : l' = l
      · simp [hl, hmine, hu.symm]
      · simp [hl]
    · have hheld : {l' | Function.update s.holder l none l' = some t} =
          {l' | s.holder l' = some t} \ {l} := by
        ext l'
        by_cases hl : l' = l <;> simp [hl]
      rw [hheld]
      exact ht
  | op o k =>
    rw [hprog] at ht hgood
    obtain rfl := next_op hprog hstep
    exact h.update rfl (fun _ _ _ => Iff.rfl) (ht _ hgood)
  | jump c =>
    rw [hprog] at ht
    obtain rfl := next_jump hprog hstep
    refine h.update rfl (fun _ _ _ => Iff.rfl) ?_
    have hheld : {l | s.holder l = some t} = entry c := ht
    rw [hheld]
    exact hM.body c

theorem AllOrdered.step {a : Act T C} (hM : Discipline M rank good entry)
    (h : AllOrdered rank good entry s) (hgood : GoodStep M good s a) (hstep : Step M s a s') :
    AllOrdered rank good entry s' := by
  cases a with
  | run t => exact h.next hM hgood hstep
  | start t c =>
    obtain ⟨hret, hstart, rfl⟩ := step_start hstep
    refine h.update rfl (fun _ _ _ => Iff.rfl) ?_
    have hheld : {l | s.holder l = some t} = ∅ := by
      have ht := h t
      rw [hret] at ht
      exact ht
    have hbody := hM.body c
    rw [hM.start t c s.data hstart] at hbody
    rw [hheld]
    exact hbody

end Deadlock

end LockProgram
