import Mathlib.Data.List.Basic
import Mathlib.Data.List.Forall2
import Mathlib.Data.List.Induction

/-!
# Runs of a labelled transition relation

A run records every label together with the state it leads to, so a property
of all states of a run and a condition on all steps of a run are both plain
recursions over one list. Invariants are proved once here by induction on the
run; a development supplies only what a single step does.
-/

namespace Transition

variable {σ ι : Type*} {run : List (ι × σ)} {step : σ → ι → σ → Prop} {s : σ}

/-- The list holds a run of `step` that starts in the given state. -/
def IsRun (step : σ → ι → σ → Prop) : σ → List (ι × σ) → Prop
  | _, [] => True
  | s, (a, t) :: rest => step s a t ∧ IsRun step t rest

/-- Every step of the run meets a condition on its label and the state before it. -/
def Along (ok : σ → ι → Prop) : σ → List (ι × σ) → Prop
  | _, [] => True
  | s, (a, t) :: rest => ok s a ∧ Along ok t rest

instance decidableAlong (ok : σ → ι → Prop) [∀ s a, Decidable (ok s a)] :
    (s : σ) → (run : List (ι × σ)) → Decidable (Along ok s run)
  | _, [] => .isTrue trivial
  | s, (a, t) :: rest =>
    have := decidableAlong ok t rest
    inferInstanceAs (Decidable (ok s a ∧ Along ok t rest))

/-- The states of a run, the first one included. -/
def visited (s : σ) (run : List (ι × σ)) : List σ := s :: run.map Prod.snd

@[simp] theorem mem_visited_nil {s t : σ} :
    t ∈ visited s ([] : List (ι × σ)) ↔ t = s := by
  simp [visited]

theorem mem_visited_cons {s t u : σ} {a : ι} {rest : List (ι × σ)} :
    u ∈ visited s ((a, t) :: rest) ↔ u = s ∨ u ∈ visited t rest := by
  simp [visited]

/-- The state in which a run ends. -/
def last (s : σ) : List (ι × σ) → σ
  | [] => s
  | (_, t) :: rest => last t rest

/-- Every entry of a run is a step from some state. -/
theorem IsRun.exists_step (hrun : IsRun step s run) {x : ι × σ} (hx : x ∈ run) :
    ∃ t, step t x.1 x.2 := by
  induction run generalizing s with
  | nil => cases hx
  | cons p rest ih =>
    rcases List.mem_cons.mp hx with rfl | hx
    · exact ⟨s, hrun.1⟩
    · exact ih hrun.2 hx

/-- The run that the labels make one after the other, when no step fails. -/
def execAll {ε : Type*} (f : ι → σ → Except ε σ) : List ι → σ → Except ε (List (ι × σ))
  | [], _ => .ok []
  | a :: as, s =>
    match f a s with
    | .error e => .error e
    | .ok t =>
      match execAll f as t with
      | .error e => .error e
      | .ok run => .ok ((a, t) :: run)

theorem execAll_isRun {ε : Type*} {f : ι → σ → Except ε σ} {as : List ι}
    (hf : ∀ s a t, f a s = .ok t → step s a t) (h : execAll f as s = .ok run) :
    IsRun step s run ∧ run.map Prod.fst = as := by
  induction as generalizing s run with
  | nil =>
    cases h
    exact ⟨trivial, rfl⟩
  | cons a as ih =>
    simp only [execAll] at h
    cases hstep : f a s with
    | error e => simp [hstep] at h
    | ok t =>
      cases hrest : execAll f as t with
      | error e => simp [hstep, hrest] at h
      | ok rest =>
        simp only [hstep, hrest, Except.ok.injEq] at h
        subst h
        obtain ⟨hrun, hlabels⟩ := ih hrest
        refine ⟨⟨hf s a t hstep, hrun⟩, ?_⟩
        rw [List.map_cons, hlabels]

/-- An invariant kept by every admitted step holds in every state of the run. -/
theorem IsRun.invariant (ok : σ → ι → Prop) (inv : σ → Prop)
    (hstep : ∀ s a t, inv s → ok s a → step s a t → inv t) (hs : inv s) (hrun : IsRun step s run)
    (hok : Along ok s run) : ∀ t ∈ visited s run, inv t := by
  induction run generalizing s with
  | nil => simpa using hs
  | cons p rest ih =>
    obtain ⟨a, t⟩ := p
    intro u hu
    rcases mem_visited_cons.mp hu with rfl | hu
    · exact hs
    · exact ih (hstep s a t hs hok.1 hrun.1) hrun.2 hok.2 u hu

/-- A condition that admits every step. -/
theorem along_true : Along (fun _ _ => True) s run := by
  induction run generalizing s with
  | nil => trivial
  | cons p rest ih => exact ⟨trivial, ih⟩

/-- A condition on the labels alone. -/
theorem Along.of_labels {ok : ι → Prop} (h : ∀ a ∈ run.map Prod.fst, ok a) :
    Along (fun _ a => ok a) s run := by
  induction run generalizing s with
  | nil => trivial
  | cons p rest ih =>
    exact ⟨h p.1 (by simp), ih fun a ha => h a (List.mem_cons_of_mem _ ha)⟩

theorem Along.and {ok ok' : σ → ι → Prop} (h : Along ok s run) (h' : Along ok' s run) :
    Along (fun s a => ok s a ∧ ok' s a) s run := by
  induction run generalizing s with
  | nil => trivial
  | cons p rest ih => exact ⟨⟨h.1, h'.1⟩, ih h.2 h'.2⟩

theorem Along.imp {ok ok' : σ → ι → Prop} (hok : ∀ s a, ok s a → ok' s a) (h : Along ok s run) :
    Along ok' s run := by
  induction run generalizing s with
  | nil => trivial
  | cons p rest ih => exact ⟨hok s p.1 h.1, ih h.2⟩

/-- An invariant kept by every step holds in every state of every run. -/
theorem IsRun.invariant_always (inv : σ → Prop) (hstep : ∀ s a t, inv s → step s a t → inv t)
    (hs : inv s) (hrun : IsRun step s run) : ∀ t ∈ visited s run, inv t :=
  IsRun.invariant (fun _ _ => True) inv (fun s a t hi _ h => hstep s a t hi h) hs hrun
    along_true

/-- When an admitted step keeps the property and every other step breaks it at
once, a run satisfies the property in all its states exactly when all its
steps are admitted. -/
theorem IsRun.visited_iff_along (ok : σ → ι → Prop) (inv prop : σ → Prop)
    (hkeep : ∀ s a t, inv s → prop s → ok s a → step s a t → inv t ∧ prop t)
    (hbreak : ∀ s a t, inv s → prop s → ¬ ok s a → step s a t → ¬ prop t) (hi : inv s) (hp : prop s)
    (hrun : IsRun step s run) : (∀ t ∈ visited s run, prop t) ↔ Along ok s run := by
  constructor
  · intro h
    induction run generalizing s with
    | nil => trivial
    | cons p rest ih =>
      obtain ⟨a, t⟩ := p
      have ht : prop t := h t (by simp [visited])
      have hok : ok s a := by
        by_contra hno
        exact hbreak s a t hi hp hno hrun.1 ht
      obtain ⟨hit, hpt⟩ := hkeep s a t hi hp hok hrun.1
      exact ⟨hok, ih hit hpt hrun.2 fun u hu => h u (mem_visited_cons.mpr (Or.inr hu))⟩
  · intro hok t ht
    exact (IsRun.invariant ok (fun s => inv s ∧ prop s)
      (fun s a t h hok hst => hkeep s a t h.1 h.2 hok hst) ⟨hi, hp⟩ hrun hok t ht).2

/-- When every admitted step from an invariant state satisfies a relation, so do
all steps of an admitted run. -/
theorem IsRun.imp {step rel : σ → ι → σ → Prop} (ok : σ → ι → Prop) (inv : σ → Prop)
    (hkeep : ∀ s a t, inv s → ok s a → step s a t → inv t)
    (hrel : ∀ s a t, inv s → ok s a → step s a t → rel s a t) (hs : inv s) (hrun : IsRun step s run)
    (hok : Along ok s run) : IsRun rel s run := by
  induction run generalizing s with
  | nil => trivial
  | cons p rest ih =>
    obtain ⟨a, t⟩ := p
    exact ⟨hrel s a t hs hok.1 hrun.1, ih (hkeep s a t hs hok.1 hrun.1) hrun.2 hok.2⟩

/-- When a step from an invariant state satisfies a relation exactly if it is
admitted, all steps of a run do exactly if all are admitted. -/
theorem IsRun.iff_along {step rel : σ → ι → σ → Prop} (ok : σ → ι → Prop) (inv : σ → Prop)
    (hkeep : ∀ s a t, inv s → step s a t → inv t)
    (hiff : ∀ s a t, inv s → step s a t → (rel s a t ↔ ok s a)) (hs : inv s)
    (hrun : IsRun step s run) : IsRun rel s run ↔ Along ok s run := by
  induction run generalizing s with
  | nil => exact Iff.rfl
  | cons p rest ih =>
    obtain ⟨a, t⟩ := p
    exact and_congr (hiff s a t hs hrun.1) (ih (hkeep s a t hs hrun.1) hrun.2)

/-- When a step from an invariant state satisfies a relation exactly if it is
admitted, and only such steps keep the invariant, all steps of a run satisfy the
relation exactly if all are admitted. -/
theorem IsRun.rel_iff_along {step rel : σ → ι → σ → Prop} (ok : σ → ι → Prop) (inv : σ → Prop)
    (hkeep : ∀ s a t, inv s → ok s a → step s a t → rel s a t ∧ inv t)
    (hbreak : ∀ s a t, inv s → step s a t → rel s a t → ok s a) (hs : inv s)
    (hrun : IsRun step s run) : IsRun rel s run ↔ Along ok s run := by
  induction run generalizing s with
  | nil => exact Iff.rfl
  | cons p rest ih =>
    obtain ⟨a, t⟩ := p
    constructor
    · intro h
      have hok := hbreak s a t hs hrun.1 h.1
      exact ⟨hok, (ih (hkeep s a t hs hok hrun.1).2 hrun.2).mp h.2⟩
    · intro h
      obtain ⟨hrel, ht⟩ := hkeep s a t hs h.1 hrun.1
      exact ⟨hrel, (ih ht hrun.2).mpr h.2⟩

/-- A property of the states of a run may be added to its steps. -/
theorem IsRun.and_visited (prop : σ → Prop) (hrun : IsRun step s run)
    (hall : ∀ t ∈ visited s run, prop t) : IsRun (fun s a t => step s a t ∧ prop t) s run := by
  induction run generalizing s with
  | nil => trivial
  | cons p rest ih =>
    refine ⟨⟨hrun.1, hall p.2 (by simp [visited])⟩, ih hrun.2 fun t ht => ?_⟩
    exact hall t (mem_visited_cons.mpr (Or.inr ht))

theorem last_mem_visited (s : σ) (run : List (ι × σ)) : last s run ∈ visited s run := by
  induction run generalizing s with
  | nil => exact List.mem_cons_self
  | cons p rest ih => exact List.mem_cons_of_mem _ (ih p.2)

theorem last_append (s : σ) (xs ys : List (ι × σ)) : last s (xs ++ ys) = last (last s xs) ys := by
  induction xs generalizing s with
  | nil => rfl
  | cons p rest ih => exact ih p.2

theorem isRun_append {xs ys : List (ι × σ)} :
    IsRun step s (xs ++ ys) ↔ IsRun step s xs ∧ IsRun step (last s xs) ys := by
  induction xs generalizing s with
  | nil => exact (and_iff_right trivial).symm
  | cons p rest ih => exact (and_congr Iff.rfl ih).trans and_assoc.symm

theorem along_append {ok : σ → ι → Prop} {xs ys : List (ι × σ)} :
    Along ok s (xs ++ ys) ↔ Along ok s xs ∧ Along ok (last s xs) ys := by
  induction xs generalizing s with
  | nil => exact (and_iff_right trivial).symm
  | cons p rest ih => exact (and_congr Iff.rfl ih).trans and_assoc.symm

/-- A condition met along the run may be added to its steps. -/
theorem IsRun.and_along {ok : σ → ι → Prop} (hrun : IsRun step s run) (hok : Along ok s run) :
    IsRun (fun s a t => step s a t ∧ ok s a) s run := by
  induction run generalizing s with
  | nil => trivial
  | cons p rest ih => exact ⟨⟨hrun.1, hok.1⟩, ih hrun.2 hok.2⟩

/-- The number of steps of a run that pass a test. -/
def countSteps (test : σ → ι → Prop) [∀ s a, Decidable (test s a)] : σ → List (ι × σ) → ℕ
  | _, [] => 0
  | s, (a, t) :: rest => (if test s a then 1 else 0) + countSteps test t rest

/-- When one kind of step enters a property, another leaves it and all others keep it,
the two kinds alternate. -/
theorem IsRun.countSteps_enter_leave {P : σ → Prop} {enter leave : σ → ι → Prop}
    [∀ s a, Decidable (enter s a)] [∀ s a, Decidable (leave s a)]
    (henter : ∀ s a t, step s a t → enter s a → ¬ P s ∧ P t ∧ ¬ leave s a)
    (hleave : ∀ s a t, step s a t → leave s a → P s ∧ ¬ P t)
    (hkeep : ∀ s a t, step s a t → ¬ enter s a → ¬ leave s a → (P t ↔ P s))
    (hrun : IsRun step s run) :
    (¬ P s → P (last s run) ∧ countSteps enter s run = countSteps leave s run + 1 ∨
      ¬ P (last s run) ∧ countSteps enter s run = countSteps leave s run) ∧
    (P s → P (last s run) ∧ countSteps enter s run = countSteps leave s run ∨
      ¬ P (last s run) ∧ countSteps enter s run + 1 = countSteps leave s run) := by
  induction run generalizing s with
  | nil => exact ⟨fun h => Or.inr ⟨h, rfl⟩, fun h => Or.inl ⟨h, rfl⟩⟩
  | cons p rest ih =>
    obtain ⟨a, t⟩ := p
    obtain ⟨hout, hin⟩ := ih hrun.2
    simp only [countSteps, last]
    by_cases he : enter s a
    · obtain ⟨hs, ht, hl⟩ := henter s a t hrun.1 he
      have hrest := hin ht
      simp only [if_pos he, if_neg hl]
      refine ⟨fun _ => ?_, fun h => absurd h hs⟩
      obtain ⟨hp, heq⟩ | ⟨hp, heq⟩ := hrest
      · exact Or.inl ⟨hp, by omega⟩
      · exact Or.inr ⟨hp, by omega⟩
    · by_cases hl : leave s a
      · obtain ⟨hs, ht⟩ := hleave s a t hrun.1 hl
        have hrest := hout ht
        simp only [if_neg he, if_pos hl]
        refine ⟨fun h => absurd hs h, fun _ => ?_⟩
        obtain ⟨hp, heq⟩ | ⟨hp, heq⟩ := hrest
        · exact Or.inl ⟨hp, by omega⟩
        · exact Or.inr ⟨hp, by omega⟩
      · have hsame := hkeep s a t hrun.1 he hl
        simp only [if_neg he, if_neg hl, Nat.zero_add]
        exact ⟨fun h => hout (mt hsame.mp h), fun h => hin (hsame.mpr h)⟩

/-- What holds at the end of a run and not at its start has held since some step. -/
theorem IsRun.exists_since {P : σ → Prop} (hrun : IsRun step s run) (hs : ¬ P s)
    (hlast : P (last s run)) :
    ∃ xs a t ys, run = xs ++ (a, t) :: ys ∧ step (last s xs) a t ∧ ¬ P (last s xs) ∧
      ∀ u ∈ visited t ys, P u := by
  induction run using List.reverseRecOn with
  | nil => exact absurd hlast hs
  | append_singleton ys p ih =>
    obtain ⟨a, t⟩ := p
    obtain ⟨hys, hstep, -⟩ := isRun_append.mp hrun
    have ht : P t := by rwa [last_append] at hlast
    by_cases hbefore : P (last s ys)
    · obtain ⟨xs, b, u, zs, rfl, hb, hnot, hall⟩ := ih hys hbefore
      refine ⟨xs, b, u, zs ++ [(a, t)], by simp, hb, hnot, fun v hv => ?_⟩
      have hv' : v ∈ visited u zs ∨ v = t := by simpa [visited, or_assoc] using hv
      rcases hv' with hv | rfl
      · exact hall v hv
      · exact ht
    · exact ⟨ys, a, t, [], rfl, hstep, hbefore, by simpa using ht⟩

/-- Two runs take the same labels through related states. -/
def Matching {τ : Type*} (rel : σ → τ → Prop) (run : List (ι × σ)) (run' : List (ι × τ)) : Prop :=
  List.Forall₂ (fun p q => p.1 = q.1 ∧ rel p.2 q.2) run run'

/-- Forward simulation: a step that can be answered with the same label from
every related state makes every run answerable. -/
theorem IsRun.simulated {τ : Type*} {step' : τ → ι → τ → Prop} (rel : σ → τ → Prop)
    (hsim : ∀ s a t u, rel s u → step s a t → ∃ v, step' u a v ∧ rel t v) {u : τ} (hu : rel s u)
    (hrun : IsRun step s run) : ∃ run', IsRun step' u run' ∧ Matching rel run run' := by
  induction run generalizing s u with
  | nil => exact ⟨[], trivial, List.Forall₂.nil⟩
  | cons p rest ih =>
    obtain ⟨a, t⟩ := p
    obtain ⟨v, hv, htv⟩ := hsim s a t u hu hrun.1
    obtain ⟨rest', hrest', hmatch⟩ := ih htv hrun.2
    exact ⟨(a, v) :: rest', ⟨hv, hrest'⟩, List.Forall₂.cons ⟨rfl, htv⟩ hmatch⟩

end Transition
