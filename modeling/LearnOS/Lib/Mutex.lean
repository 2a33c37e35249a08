import LearnOS.Lib.Semaphore
import Mathlib.Data.Fintype.Card

/-!
# A semaphore as a lock

One unit stands for the right to be inside. A process has it from the moment it
takes it, or goes on after it was served, until it puts it back. Between serving
and going on the unit belongs to a process that is not inside yet.
-/

namespace Semaphore

open Function

variable {σ π : Type*} [DecidableEq σ] [DecidableEq π] [Fintype π]

/-- The process has been served at `x` and has not gone on. -/
def Phase.servedAt (x : σ) : Phase σ → Bool
  | .served y _ => y = x
  | _ => false

def State.served (s : State σ π) (x : σ) : Finset π :=
  Finset.univ.filter fun p => (s.phase p).servedAt x

/-- The unit of `x` is in the semaphore, with one of the processes in `held`, or
with one that has been served. -/
structure Exclusive (x : σ) (s : State σ π) (held : Finset π) : Prop where
  sum : s.value x + held.card + (s.served x).card = 1
  nonneg : 0 ≤ s.value x
  demand : ∀ p n, s.phase p = .queued x n → n = 1
  settled : Settled s x

variable {x : σ} {s t : State σ π} {held : Finset π} {p : π}

omit [DecidableEq π] in
theorem mem_served {q : π} : q ∈ s.served x ↔ (s.phase q).servedAt x = true := by
  simp [State.served]

omit [DecidableEq π] in
theorem served_congr (h : ∀ q, (t.phase q).servedAt x = (s.phase q).servedAt x) :
    t.served x = s.served x := by
  simp only [State.served, h]

theorem served_enqueue (hout : s.phase p = .out) (n : ℤ) :
    (s.enqueue p x n).served x = s.served x := by
  refine served_congr fun q => ?_
  by_cases hq : q = p
  · subst hq
    simp [State.enqueue, hout, Phase.servedAt]
  · simp [State.enqueue, hq]

theorem served_serve {rest : List π} (n : ℤ) :
    (s.serve p rest x n).served x = insert p (s.served x) := by
  ext q
  by_cases hq : q = p
  · subst hq
    simp [mem_served, State.serve, Phase.servedAt]
  · simp [mem_served, State.serve, hq]

theorem served_setPhase_out : (s.setPhase p .out).served x = (s.served x).erase p := by
  ext q
  by_cases hq : q = p
  · subst hq
    simp [mem_served, State.setPhase, Phase.servedAt]
  · simp [mem_served, State.setPhase, hq]

namespace Exclusive

omit [DecidableEq π] in
/-- Whatever keeps the value, the queue and the waiting processes of `x`. -/
theorem congr (h : Exclusive x s held) (hvalue : t.value x = s.value x)
    (hqueue : t.queue x = s.queue x) (hphase : t.phase = s.phase) : Exclusive x t held where
  sum := by
    have hserved : t.served x = s.served x := served_congr fun q => by rw [hphase]
    rw [hvalue, hserved]
    exact h.sum
  nonneg := hvalue ▸ h.nonneg
  demand q n hq := h.demand q n (hphase ▸ hq)
  settled q rest n hq hn := by
    rw [hvalue]
    exact h.settled q rest n (hqueue ▸ hq) (hphase ▸ hn)

omit [DecidableEq π] in
theorem held_le_one (h : Exclusive x s held) : held.card ≤ 1 := by
  have hsum := h.sum
  have hpos := h.nonneg
  omega

omit [DecidableEq π] in
theorem queue_eq_nil (h : Exclusive x s held) (hc : Consistent s) (hone : s.value x = 1) :
    s.queue x = [] := by
  cases hqueue : s.queue x with
  | nil => rfl
  | cons q rest =>
    obtain ⟨n, hn⟩ := (hc.mem_iff x q).mp (by simp [hqueue])
    have hlt := h.settled q rest n hqueue hn
    rw [h.demand q n hn, hone] at hlt
    exact absurd hlt (lt_irrefl 1)

theorem take (h : Exclusive x s held) (hle : 1 ≤ s.value x) :
    Exclusive x (s.setValue x (s.value x - 1)) (insert p held) := by
  have hsum := h.sum
  obtain rfl : held = ∅ := Finset.card_eq_zero.mp (by omega)
  have hserved : (s.served x).card = 0 := by omega
  have hkeep : (s.setValue x (s.value x - 1)).served x = s.served x := served_congr fun _ => rfl
  have hvalue : (s.setValue x (s.value x - 1)).value x = s.value x - 1 := update_self ..
  have hzero : s.value x = 1 := by
    rw [Finset.card_empty] at hsum
    omega
  refine ⟨?_, ?_, h.demand, fun q rest n _ hn => ?_⟩
  · rw [hvalue, hkeep, hserved, hzero]
    simp
  · rw [hvalue, hzero]
    omega
  · rw [hvalue, h.demand q n hn, hzero]
    omega

theorem sleep (h : Exclusive x s held) (hout : s.phase p = .out)
    (hlt : s.value x < 1) : Exclusive x (s.enqueue p x 1) held := by
  have hdemand : ∀ q n, (s.enqueue p x 1).phase q = .queued x n → n = 1 := by
    intro q n hq
    by_cases hqp : q = p
    · subst hqp
      simp only [State.enqueue, update_self, Phase.queued.injEq, true_and] at hq
      exact hq.symm
    · simp only [State.enqueue, update_of_ne hqp] at hq
      exact h.demand q n hq
  refine ⟨?_, h.nonneg, hdemand, fun q rest n _ hn => ?_⟩
  · rw [served_enqueue hout]
    exact h.sum
  · rw [hdemand q n hn]
    exact hlt

/-- The unit goes to the head of the queue, or back into the semaphore. -/
theorem signal (h : Exclusive x s held) (hp : p ∈ held) {es : List (Event σ π)}
    (hserves : Serves x (s.setValue x (s.value x + 1)) es t) : Exclusive x t (held.erase p) := by
  have hsum := h.sum
  have hpos := h.nonneg
  have hone : 0 < held.card := Finset.card_pos.mpr ⟨p, hp⟩
  have hheld : (held.erase p).card = 0 := by
    rw [Finset.card_erase_of_mem hp]
    omega
  have hserved : (s.served x).card = 0 := by omega
  have hzero : s.value x = 0 := by omega
  have hup : (s.setValue x (s.value x + 1)).value x = 1 := by
    simp [State.setValue, hzero]
  have hkeep : (s.setValue x (s.value x + 1)).served x = s.served x := served_congr fun _ => rfl
  cases hserves with
  | stop hsettled =>
    refine ⟨?_, ?_, h.demand, hsettled⟩
    · rw [hup, hkeep, hserved, hheld]
      rfl
    · rw [hup]
      decide
  | @grant _ _ q rest n es hqueue hphase hle hrest =>
    obtain rfl := h.demand q n hphase
    have hdown : ((s.setValue x (s.value x + 1)).serve q rest x 1).value x = 0 := by
      simp [State.serve, hup]
    have hdemand : ∀ r n, ((s.setValue x (s.value x + 1)).serve q rest x 1).phase r =
        .queued x n → n = 1 := by
      intro r n hr
      by_cases hrq : r = q
      · subst hrq
        simp [State.serve] at hr
      · simp only [State.serve, update_of_ne hrq] at hr
        exact h.demand r n hr
    have hcard : (((s.setValue x (s.value x + 1)).serve q rest x 1).served x).card = 1 := by
      rw [served_serve, hkeep, Finset.card_eq_zero.mp hserved]
      rfl
    cases hrest with
    | stop hsettled =>
      refine ⟨?_, hdown.ge, hdemand, hsettled⟩
      rw [hdown, hcard, hheld]
      rfl
    | @grant _ _ q' rest' n' es' hqueue' hphase' hle' _ =>
      -- the unit is gone after the first grant
      rw [hdemand q' n' hphase', hdown] at hle'
      exact absurd hle' (by decide)

theorem pass (h : Exclusive x s held) {n : ℤ} (hp : s.phase p = .served x n) :
    Exclusive x (s.setPhase p .out) (insert p held) := by
  have hsum := h.sum
  have hpos := h.nonneg
  have hmem : p ∈ s.served x := mem_served.mpr (by simp [hp, Phase.servedAt])
  have hone : 0 < (s.served x).card := Finset.card_pos.mpr ⟨p, hmem⟩
  obtain rfl : held = ∅ := Finset.card_eq_zero.mp (by omega)
  have hdemand : ∀ q m, (s.setPhase p .out).phase q = .queued x m → m = 1 := by
    intro q m hq
    by_cases hqp : q = p
    · subst hqp
      simp [State.setPhase] at hq
    · simp only [State.setPhase, update_of_ne hqp] at hq
      exact h.demand q m hq
  have hzero : s.value x = 0 := by omega
  refine ⟨?_, hpos, hdemand, fun q rest m _ hm => ?_⟩
  · rw [served_setPhase_out, Finset.card_erase_of_mem hmem]
    change s.value x + _ + _ = 1
    simp only [insert_empty_eq, Finset.card_singleton]
    rw [Finset.card_empty] at hsum
    omega
  · change s.value x < m
    rw [hdemand q m hm, hzero]
    decide

end Exclusive

end Semaphore
