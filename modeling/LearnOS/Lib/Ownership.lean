import Mathlib.Logic.Function.Basic

/-!
# Exclusive ownership

A partial map from names to resources in which no resource has two names. The
rules say how the map may change when a resource is acquired, dropped or
handed to another name.
-/

namespace Ownership

open Function

variable {κ α : Type*}

/-- No resource is held under two names. -/
def Exclusive (own : κ → Option α) : Prop :=
  ∀ k k' a, own k = some a → own k' = some a → k = k'

theorem Exclusive.mono {own own' : κ → Option α} (h : Exclusive own)
    (hsub : ∀ k a, own' k = some a → own k = some a) : Exclusive own' :=
  fun k k' a hk hk' => h k k' a (hsub k a hk) (hsub k' a hk')

variable [DecidableEq κ]

theorem eq_some_of_update {own : κ → Option α} {name k : κ} {a b : α}
    (h : update own name (some a) k = some b) : k = name ∧ b = a ∨ k ≠ name ∧ own k = some b := by
  by_cases hn : k = name
  · subst hn
    rw [update_self, Option.some.injEq] at h
    exact Or.inl ⟨rfl, h.symm⟩
  · rw [update_of_ne hn] at h
    exact Or.inr ⟨hn, h⟩

/-- A resource that nobody holds may be acquired under any name. -/
theorem Exclusive.acquire {own : κ → Option α} (h : Exclusive own) {a : α} (name : κ)
    (hfresh : ∀ k, own k ≠ some a) : Exclusive (update own name (some a)) := by
  intro k k' b hk hk'
  rcases eq_some_of_update hk with ⟨rfl, rfl⟩ | ⟨-, hold⟩ <;>
    rcases eq_some_of_update hk' with ⟨rfl, heq⟩ | ⟨-, hold'⟩
  · rfl
  · exact absurd hold' (hfresh k')
  · exact absurd (heq ▸ hold) (hfresh k)
  · exact h k k' b hold hold'

/-- After a resource is dropped, nobody holds it. -/
theorem Exclusive.dropped {own : κ → Option α} (h : Exclusive own) {name k : κ} {a b : α}
    (ha : own name = some a) (hk : update own name none k = some b) :
    own k = some b ∧ b ≠ a := by
  by_cases hn : k = name
  · subst hn
    simp at hk
  · rw [update_of_ne hn] at hk
    refine ⟨hk, ?_⟩
    rintro rfl
    exact hn (h k name b hk ha)

/-- Ownership after some names have given up what they held. -/
def without (own : κ → Option α) (gone : κ → Bool) : κ → Option α :=
  fun k => if gone k then none else own k

omit [DecidableEq κ] in
theorem without_of_false {own : κ → Option α} {gone : κ → Bool} {k : κ} (h : gone k = false) :
    without own gone k = own k := by
  simp [without, h]

end Ownership
