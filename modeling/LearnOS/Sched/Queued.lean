import LearnOS.Sched.Queue

/-!
# The nodes of the processes

`Queued s ls out` says that the queues of `s` hold the lists `ls`, in which every
process outside `out` has one node, in the queue of its level. This module says what
an insertion and a removal do to it.
-/

namespace LearnOS.Sched

open LearnOS LinkedList Transition Function Kres

variable {s s' : SchedState} {ls : Fin NMLFQ → List ℕ} {p : Fin NPROC} {i : Fin NMLFQ} {a : ℕ}
  {out out' : Fin NPROC → Prop}

/-- Outside `out` every process has one node, and the nodes are of no others. -/
structure Queued (s : SchedState) (ls : Fin NMLFQ → List ℕ) (out : Fin NPROC → Prop) : Prop where
  queues : Queues s ls
  has : ∀ q, ¬ out q → ∃ a ∈ ls (s.proc q).mlqlevel, s.owner a = q
  level : ∀ i, ∀ a ∈ ls i, ¬ out (s.owner a) ∧ (s.proc (s.owner a)).mlqlevel = i
  once : ∀ i, ∀ a ∈ ls i, ∀ b ∈ ls i, s.owner a = s.owner b → a = b

instance (s : SchedState) (ls : Fin NMLFQ → List ℕ) (out : Fin NPROC → Prop) [DecidablePred out] :
    Decidable (Queued s ls out) :=
  decidable_of_iff
    (Queues s ls ∧ (∀ q, ¬ out q → ∃ a ∈ ls (s.proc q).mlqlevel, s.owner a = q) ∧
      (∀ i, ∀ a ∈ ls i, ¬ out (s.owner a) ∧ (s.proc (s.owner a)).mlqlevel = i) ∧
      ∀ i, ∀ a ∈ ls i, ∀ b ∈ ls i, s.owner a = s.owner b → a = b) (by
    constructor
    · rintro ⟨hqueues, hhas, hlevel, honce⟩
      exact ⟨hqueues, hhas, hlevel, honce⟩
    · exact fun h => ⟨h.queues, h.has, h.level, h.once⟩)

/-- A change of processes that leaves their levels. -/
theorem Queued.congr (h : Queued s ls out) (hqueue : s'.queue = s.queue)
    (hnode : s'.node = s.node) (hused : s'.used = s.used) (hout : ∀ q, out' q ↔ out q)
    (hlevel : ∀ q, ¬ out q → (s'.proc q).mlqlevel = (s.proc q).mlqlevel) : Queued s' ls out' := by
  have howner : s'.owner = s.owner := by
    funext a
    simp only [SchedState.owner, hnode]
  refine ⟨h.queues.congr hqueue hnode hused, fun q hq => ?_, fun i a ha => ?_, ?_⟩
  · rw [hout] at hq
    rw [hlevel q hq, howner]
    exact h.has q hq
  · obtain ⟨hin, hi⟩ := h.level i a ha
    rw [howner, hout, hlevel _ hin]
    exact ⟨hin, hi⟩
  · rw [howner]
    exact h.once

/-! ## Insertion and removal -/

/-- The lists after a node has been put at the end of one of them. -/
def appended (ls : Fin NMLFQ → List ℕ) (i : Fin NMLFQ) (a : ℕ) : Fin NMLFQ → List ℕ :=
  update ls i (ls i ++ [a])

/-- The lists without the nodes of a process. -/
def withoutNodes (s : SchedState) (ls : Fin NMLFQ → List ℕ) (p : Fin NPROC) :
    Fin NMLFQ → List ℕ :=
  fun i => (ls i).filter fun b => s.owner b ≠ p

theorem mem_appended {j : Fin NMLFQ} {b : ℕ} :
    b ∈ appended ls i a j ↔ b ∈ ls j ∨ b = a ∧ j = i := by
  by_cases hj : j = i
  · subst hj
    simp [appended]
  · simp [appended, hj]

theorem mem_withoutNodes {j : Fin NMLFQ} {b : ℕ} :
    b ∈ withoutNodes s ls p j ↔ b ∈ ls j ∧ s.owner b ≠ p := by
  simp [withoutNodes]

theorem owner_append (j : Fin NMLFQ) (t : Task) (b : ℕ) :
    ((appendNode j a ({ s with used := a :: s.used }.setNode a ⟨p, NULL⟩)).setProc p t).owner b =
      if b = a then p else s.owner b := by
  have hsame := congrFun (appendNode_only j a ({ s with used := a :: s.used }.setNode a
    ⟨p, NULL⟩)).owner b
  refine (show _ = _ from hsame).trans ?_
  by_cases hb : b = a <;> simp [SchedState.setNode, SchedState.owner, hb]

/-- A process without a node is appended at any level. -/
theorem Queued.append (h : Queued s ls out) (hp : out p) (hnull : a ≠ NULL) (hfresh : a ∉ s.used)
    (t : Task) (ht : t.mlqlevel = i) :
    Queued ((appendNode i a
        ({ s with used := a :: s.used }.setNode a ⟨p, NULL⟩)).setProc p t) (appended ls i a)
      fun q => out q ∧ q ≠ p := by
  set s₁ := { s with used := a :: s.used }.setNode a ⟨p, NULL⟩ with hs₁
  have hq₁ : Queues s₁ ls := h.queues.newNode hfresh ⟨p, NULL⟩
  have hnew : ∀ j, a ∉ ls j := fun j => h.queues.fresh hfresh j
  have hq₂ := hq₁.append (i := i) hnull hnew (by simp [hs₁, SchedState.setNode])
    (by simp [hs₁, SchedState.setNode, SchedState.next])
  have howner : ∀ b, ((appendNode i a s₁).setProc p t).owner b = if b = a then p else s.owner b :=
    owner_append i t
  have hproc : ∀ q, ((appendNode i a s₁).setProc p t).proc q = if q = p then t else s.proc q := by
    intro q
    have hsame : (appendNode i a s₁).proc = s₁.proc := (appendNode_only i a s₁).proc
    by_cases hq : q = p
    · simp [SchedState.setProc, hq]
    · rw [if_neg hq]
      exact (update_of_ne hq ..).trans (congrFun hsame q)
  have hold : ∀ j, ∀ b ∈ ls j, b ≠ a ∧ s.owner b ≠ p := by
    intro j b hb
    refine ⟨fun heq => hnew j (heq ▸ hb), fun heq => ?_⟩
    exact (h.level j b hb).1 (heq ▸ hp)
  refine ⟨hq₂.congr rfl rfl rfl, fun q hq => ?_, fun j b hb => ?_, fun j b hb c hc heq => ?_⟩
  · by_cases hqp : q = p
    · rw [hproc, if_pos hqp, ht]
      exact ⟨a, mem_appended.mpr (Or.inr ⟨rfl, rfl⟩), by rw [howner, if_pos rfl, hqp]⟩
    · have hin : ¬ out q := fun hout => hq ⟨hout, hqp⟩
      obtain ⟨b, hb, hbq⟩ := h.has q hin
      rw [hproc, if_neg hqp]
      exact ⟨b, mem_appended.mpr (Or.inl hb), by rwa [howner, if_neg (hold _ b hb).1]⟩
  · rcases mem_appended.mp hb with hb | ⟨rfl, rfl⟩
    · obtain ⟨hba, hbp⟩ := hold j b hb
      obtain ⟨hin, hj⟩ := h.level j b hb
      rw [howner, if_neg hba, hproc, if_neg hbp]
      exact ⟨fun hout => hin hout.1, hj⟩
    · rw [howner, if_pos rfl, hproc, if_pos rfl]
      exact ⟨fun hout => hout.2 rfl, ht⟩
  · rw [howner, howner] at heq
    rcases mem_appended.mp hb with hb | ⟨rfl, -⟩
    · obtain ⟨hba, hbp⟩ := hold j b hb
      rw [if_neg hba] at heq
      rcases mem_appended.mp hc with hc | ⟨rfl, -⟩
      · rw [if_neg (hold j c hc).1] at heq
        exact h.once j b hb c hc heq
      · rw [if_pos rfl] at heq
        exact absurd heq hbp
    · rw [if_pos rfl] at heq
      rcases mem_appended.mp hc with hc | ⟨rfl, -⟩
      · rw [if_neg (hold j c hc).1] at heq
        exact absurd heq.symm (hold j c hc).2
      · rfl

/-- A process with a node loses it. -/
theorem Queued.remove (h : Queued s ls out) (hp : ¬ out p) :
    ∃ s', removeMlfq p s = .ok s' ∧ QueuesOnly s s' ∧
      Queued s' (withoutNodes s ls p) fun q => out q ∨ q = p := by
  obtain ⟨a, ha, howner⟩ := h.has p hp
  obtain ⟨l₁, l₂, hl⟩ := List.append_of_mem ha
  have hother : ∀ b ∈ l₁ ++ l₂, s.owner b ≠ p := by
    intro b hb heq
    have hnodup := h.queues.nodup (s.proc p).mlqlevel
    rw [hl] at hnodup
    have hb' : b ∈ ls (s.proc p).mlqlevel := by
      rw [hl]
      exact List.perm_middle.mem_iff.mpr (List.mem_cons_of_mem _ hb)
    refine (List.nodup_middle.mp hnodup).notMem ?_
    rwa [← h.once _ b hb' a ha (heq.trans howner.symm)]
  obtain ⟨s', hs', honly, hq⟩ := removeMlfq_spec h.queues hl howner fun c hc =>
    hother c (List.mem_append_left _ hc)
  have hlists : withoutNodes s ls p = update ls (s.proc p).mlqlevel (l₁ ++ l₂) := by
    refine eq_update_iff.mpr ⟨?_, fun j hj => ?_⟩
    · rw [withoutNodes, hl, List.filter_append, List.filter_cons_of_neg (by simp [howner]),
        ← List.filter_append]
      exact List.filter_eq_self.mpr fun b hb => decide_eq_true (hother b hb)
    · refine List.filter_eq_self.mpr fun b hb => decide_eq_true fun heq => hj ?_
      rw [← heq]
      exact (h.level j b hb).2.symm
  refine ⟨s', hs', honly, hlists ▸ hq, fun q hq => ?_, fun j b hb => ?_, fun j b hb c hc heq => ?_⟩
  · obtain ⟨hin, hqp⟩ := not_or.mp hq
    obtain ⟨b, hb, hbq⟩ := h.has q hin
    rw [honly.proc, honly.owner]
    exact ⟨b, mem_withoutNodes.mpr ⟨hb, fun heq => hqp (hbq.symm.trans heq)⟩, hbq⟩
  · obtain ⟨hb, hbp⟩ := mem_withoutNodes.mp hb
    obtain ⟨hin, hj⟩ := h.level j b hb
    rw [honly.owner, honly.proc]
    exact ⟨fun hout => hout.elim hin hbp, hj⟩
  · rw [honly.owner] at heq
    exact h.once j b (mem_withoutNodes.mp hb).1 c (mem_withoutNodes.mp hc).1 heq

/-- A process without a node is not found, and nothing changes. -/
theorem Queued.remove_absent (h : Queued s ls out) (hp : out p) (hcall : removeMlfq p s = .ok s') :
    s' = s := by
  have hnot : ∀ i, ∀ b ∈ ls i, s.owner b ≠ p := fun i b hb heq => (h.level i b hb).1 (heq ▸ hp)
  simp only [removeMlfq] at hcall
  generalize (s.proc p).mlqlevel = i at hcall
  split at hcall
  · cases hcall
  rename_i hnull
  cases hl : ls i with
  | nil => exact absurd ((h.queues.head_eq_null_iff i).mpr hl) hnull
  | cons x l =>
    have hlinked := h.queues.linked i
    rw [hl] at hlinked
    have hhead : s.owner (s.queue i).head ≠ p := by
      rw [hlinked.1]
      exact hnot i x (by simp [hl])
    simp only [hhead, false_and, if_false] at hcall
    split at hcall
    · cases hcall
    rename_i node hnode
    split at hcall
    · exact (Except.ok.inj hcall).symm
    rename_i hnext
    exfalso
    rw [nodeBefore, (h.queues.linked i).seek_eq _ (h.queues.length_lt i), Option.some.injEq]
      at hnode
    cases hfind : (ls i).find? fun a => s.next a = NULL ∨ s.owner (s.next a) = p with
    | none =>
      have hlast : s.next ((ls i).getLast (by simp [hl])) = NULL := by
        have hseg := h.queues.linked i
        rw [← List.dropLast_append_getLast (by simp [hl] : ls i ≠ [])] at hseg
        obtain ⟨c, -, hc, -, hend⟩ := seg_append.mp hseg
        exact hend
      have hall := List.find?_eq_none.mp hfind _ (List.getLast_mem (by simp [hl]))
      simp [hlast] at hall
    | some y =>
      rw [hfind, Option.getD_some] at hnode
      subst hnode
      have hstop := List.find?_some hfind
      have hy := List.mem_of_find?_eq_some hfind
      simp only [hnext, false_or, decide_eq_true_eq] at hstop
      obtain ⟨m₁, m₂, hm⟩ := List.append_of_mem hy
      have hseg := h.queues.linked i
      rw [hm] at hseg
      obtain ⟨c, -, rfl, -, hrest⟩ := seg_append.mp hseg
      cases m₂ with
      | nil => exact hnext hrest
      | cons z m₂ =>
        rw [hrest.1] at hstop
        exact hnot i z (by simp [hm]) hstop

/-! ## Searches -/

theorem firstProc_spec {test : Task → Bool} (h : s.firstProc test = some p) :
    test (s.proc p) = true := by
  have hfind := List.find?_some h
  exact hfind

/-- The walk of `set_priority` finds the first node whose process has the pid. -/
theorem Queues.findInQueue_eq (h : Queues s ls) (pid : ℤ) (i : Fin NMLFQ) :
    findInQueue pid s i =
      ((ls i).find? fun a => (s.proc (s.owner a)).pid = pid).map s.owner := by
  simp only [findInQueue, (h.linked i).seek_eq _ (h.length_lt i)]
  cases hnode : (ls i).find? fun a => (s.proc (s.owner a)).pid = pid with
  | none => simp
  | some b =>
    have hne : b ≠ NULL := (h.linked i).ne_null b (List.mem_of_find?_eq_some hnode)
    simp [hne]

/-- The process that `set_priority` finds has a node. -/
theorem Queued.find (h : Queued s ls out) {pid : ℤ}
    (hfind : (List.finRange NMLFQ).findSome? (findInQueue pid s) = some p) :
    ¬ out p ∧ (s.proc p).pid = pid := by
  obtain ⟨i, -, hi⟩ := List.exists_of_findSome?_eq_some hfind
  rw [h.queues.findInQueue_eq, Option.map_eq_some_iff] at hi
  obtain ⟨b, hnode, rfl⟩ := hi
  refine ⟨(h.level i b (List.mem_of_find?_eq_some hnode)).1, ?_⟩
  simpa using List.find?_some hnode

/-- The priorities that a queue admits. -/
def maxPriority : ℤ := 2 * NMLFQ - 1

theorem levelOf_isSome {priority : ℤ} (h : priority ≤ maxPriority) : (levelOf priority).isSome := by
  rw [levelOf, List.find?_isSome]
  refine ⟨⟨3, by decide⟩, List.mem_finRange _, ?_⟩
  rw [decide_eq_true_eq]
  exact h.trans (by decide)

theorem levelOf_eq_none_iff {priority : ℤ} : levelOf priority = none ↔ maxPriority < priority := by
  constructor
  · intro hnone
    by_contra hle
    have hsome := levelOf_isSome (not_lt.mp hle)
    rw [hnone] at hsome
    cases hsome
  · intro hlt
    rw [levelOf, List.find?_eq_none]
    intro i _
    have hi : queuePriority i ≤ maxPriority := by
      revert i
      decide
    simpa using lt_of_le_of_lt hi hlt

theorem SchedOp.live_of_ready {op : SchedOp} (h : op.ready s = true) :
    (s.proc op.caller).state ≠ .UNUSED := by
  simp only [SchedOp.ready, Bool.and_eq_true, decide_eq_true_eq] at h
  rcases h.1 with hstate | hstate
  · rw [hstate]
    simp
  · rw [hstate]
    simp

end LearnOS.Sched
