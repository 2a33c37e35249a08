import LearnOS.Ipc.Effect
import LearnOS.Lib.Transition
import Mathlib.Algebra.BigOperators.Fin
import Mathlib.Algebra.Order.BigOperators.Group.Finset

/-!
# Reference counts of IPC slots

The count of a slot is compared with the number of nodes, over all processes,
that point to it.

## Main results

`refcounts_exact`: from empty tables on, the counts stay exact, no node points to
an unused slot, and a slot is reinitialised only when no node is left for it.
-/

namespace LearnOS.Ipc

open LearnOS Transition Relation Function Kres

/-- The nodes of a list that point to a slot. -/
def nodeCount (id : ℕ) (l : List IpcNode) : ℕ := l.countP fun n => n.slot = id

/-- The nodes of all processes that point to a slot. -/
def refs (t : Tables) (c : IpcKind) (id : ℕ) : ℕ := ∑ p, nodeCount id (t.nodes (p, c))

/-- Counts are exact, and what a node points to is in use. -/
structure RefsExact (t : Tables) : Prop where
  count : ∀ c id, t.ref (c, id) = refs t c id
  used : ∀ p c, ∀ n ∈ t.nodes (p, c), t.state (c, n.slot) ≠ .UNUSED

/-! ## Counting -/

section Count

variable {t : Tables} {p : Fin NPROC} {c : IpcKind} {n : IpcNode}

theorem nodeCount_cons (id : ℕ) (l : List IpcNode) :
    nodeCount id (n :: l) = nodeCount id l + if n.slot = id then 1 else 0 := by
  simp [nodeCount, List.countP_cons]

theorem nodeCount_append (id : ℕ) (l₁ l₂ : List IpcNode) :
    nodeCount id (l₁ ++ l₂) = nodeCount id l₁ + nodeCount id l₂ :=
  List.countP_append ..

/-- A new list for one process changes the sum by the difference of the lists. -/
theorem refs_setNodes (l : List IpcNode) (id : ℕ) :
    refs (t.setNodes p c l) c id + nodeCount id (t.nodes (p, c)) =
      refs t c id + nodeCount id l := by
  have hrest : ∑ q ∈ Finset.univ.erase p, nodeCount id ((t.setNodes p c l).nodes (q, c)) =
      ∑ q ∈ Finset.univ.erase p, nodeCount id (t.nodes (q, c)) := by
    refine Finset.sum_congr rfl fun q hq => ?_
    have hne : (q, c) ≠ (p, c) := fun heq => Finset.ne_of_mem_erase hq (congrArg Prod.fst heq)
    rw [Tables.setNodes_nodes, update_of_ne hne]
  have hself : (t.setNodes p c l).nodes (p, c) = l := update_self ..
  have hafter := Finset.add_sum_erase Finset.univ
    (fun q => nodeCount id ((t.setNodes p c l).nodes (q, c))) (Finset.mem_univ p)
  have hbefore := Finset.add_sum_erase Finset.univ
    (fun q => nodeCount id (t.nodes (q, c))) (Finset.mem_univ p)
  simp only [hself, hrest] at hafter
  simp only [refs]
  omega

theorem refs_setNodes_of_ne {c' : IpcKind} (h : c' ≠ c) (l : List IpcNode) (id : ℕ) :
    refs (t.setNodes p c l) c' id = refs t c' id := by
  refine Finset.sum_congr rfl fun q _ => ?_
  have hne : (q, c') ≠ (p, c) := fun heq => h (congrArg Prod.snd heq)
  rw [Tables.setNodes_nodes, update_of_ne hne]

/-- A slot that no list mentions has count zero, and conversely. -/
theorem refs_eq_zero_iff {id : ℕ} :
    refs t c id = 0 ↔ ∀ p, ∀ n ∈ t.nodes (p, c), n.slot ≠ id := by
  simp [refs, nodeCount, List.countP_eq_zero]

end Count

/-! ## The moves keep the counts -/

variable {t t' : Tables}

theorem RefsExact.setState (h : RefsExact t) (c : IpcKind) (id : ℕ) {st : IpcState}
    (hst : st ≠ .UNUSED) : RefsExact (t.setState c id st) where
  count := h.count
  used p d n hn := by
    by_cases heq : (d, n.slot) = (c, id)
    · simpa [Tables.setState, heq] using hst
    · simpa [Tables.setState, update_of_ne heq] using h.used p d n hn

/-- A slot without nodes may be destroyed. -/
theorem RefsExact.destroy (h : RefsExact t) {c : IpcKind} {id : ℕ} (hzero : refs t c id = 0) :
    RefsExact (t.destroy c id) where
  count := h.count
  used p d n hn := by
    have hne : (d, n.slot) ≠ (c, id) := by
      intro heq
      obtain ⟨rfl, hslot⟩ := Prod.mk.inj heq
      exact refs_eq_zero_iff.mp hzero p n hn hslot
    simpa [Tables.destroy, Tables.setState, update_of_ne hne] using h.used p d n hn

theorem RefsExact.share (h : RefsExact t) {p : Fin NPROC} {c : IpcKind} {n : IpcNode}
    (huse : t.state (c, n.slot) ≠ .UNUSED ∨ ∃ q, ∃ m ∈ t.nodes (q, c), m.slot = n.slot) :
    RefsExact (t.share p c n) where
  count d id := by
    have hrefs : refs (t.share p c n) d id =
        refs (t.setNodes p c (n :: t.nodes (p, c))) d id := rfl
    by_cases hd : d = c
    · subst hd
      have hsum := refs_setNodes (t := t) (p := p) (c := d) (n :: t.nodes (p, d)) id
      rw [nodeCount_cons] at hsum
      rw [hrefs]
      have hold := h.count d id
      by_cases hid : n.slot = id
      · subst hid
        rw [if_pos rfl] at hsum
        rw [Tables.share, Tables.setRef_ref, update_self]
        omega
      · have hne : (d, id) ≠ (d, n.slot) := fun heq => hid (Prod.mk.inj heq).2.symm
        rw [if_neg hid] at hsum
        rw [Tables.share, Tables.setRef_ref, update_of_ne hne, Tables.setNodes_ref]
        omega
    · have hne : (d, id) ≠ (c, n.slot) := fun heq => hd (Prod.mk.inj heq).1
      rw [hrefs, refs_setNodes_of_ne hd]
      rw [Tables.share, Tables.setRef_ref, update_of_ne hne]
      exact h.count d id
  used q d m hm := by
    change m ∈ (t.setNodes p c (n :: t.nodes (p, c))).nodes (q, d) at hm
    change t.state (d, m.slot) ≠ .UNUSED
    by_cases heq : (q, d) = (p, c)
    · obtain ⟨rfl, rfl⟩ := Prod.mk.inj heq
      rw [Tables.setNodes_nodes, update_self] at hm
      rcases List.mem_cons.mp hm with rfl | hm
      · rcases huse with huse | ⟨q', m', hm', hslot⟩
        · exact huse
        · exact hslot ▸ h.used q' d m' hm'
      · exact h.used q d m hm
    · rw [Tables.setNodes_nodes, update_of_ne heq] at hm
      exact h.used q d m hm

theorem RefsExact.drop (h : RefsExact t) {p : Fin NPROC} {c : IpcKind} {n : IpcNode}
    {l₁ l₂ : List IpcNode} (hnodes : t.nodes (p, c) = l₁ ++ n :: l₂) :
    RefsExact ((t.setNodes p c (l₁ ++ l₂)).setRef c n.slot (t.ref (c, n.slot) - 1)) where
  count d id := by
    have hrefs : refs ((t.setNodes p c (l₁ ++ l₂)).setRef c n.slot (t.ref (c, n.slot) - 1)) d id =
        refs (t.setNodes p c (l₁ ++ l₂)) d id := rfl
    rw [hrefs, Tables.setRef_ref]
    by_cases hd : d = c
    · subst hd
      have hsum := refs_setNodes (t := t) (p := p) (c := d) (l₁ ++ l₂) id
      rw [hnodes, nodeCount_append, nodeCount_append, nodeCount_cons] at hsum
      have hold := h.count d id
      by_cases hid : n.slot = id
      · subst hid
        rw [if_pos rfl] at hsum
        rw [update_self]
        omega
      · have hne : (d, id) ≠ (d, n.slot) := fun heq => hid (Prod.mk.inj heq).2.symm
        rw [if_neg hid] at hsum
        rw [update_of_ne hne, Tables.setNodes_ref]
        omega
    · have hne : (d, id) ≠ (c, n.slot) := fun heq => hd (Prod.mk.inj heq).1
      rw [refs_setNodes_of_ne hd, update_of_ne hne]
      exact h.count d id
  used q d m hm := by
    change m ∈ (t.setNodes p c (l₁ ++ l₂)).nodes (q, d) at hm
    refine h.used q d m ?_
    by_cases heq : (q, d) = (p, c)
    · rw [heq, Tables.setNodes_nodes, update_self] at hm
      rw [heq, hnodes]
      simp only [List.mem_append, List.mem_cons] at hm ⊢
      tauto
    · rwa [Tables.setNodes_nodes, update_of_ne heq] at hm

theorem Move.refsExact (hmove : Move t t') (h : RefsExact t) : RefsExact t' := by
  cases hmove with
  | share huse => exact h.share huse
  | @drop p c n l₁ l₂ hnodes =>
    have hdrop := h.drop hnodes
    simp only [Tables.unshare]
    split
    · rename_i hz
      refine hdrop.destroy ?_
      have hcount := hdrop.count c n.slot
      rw [Tables.setRef_ref, update_self] at hcount
      exact_mod_cast hcount.symm.trans hz.2
    · exact hdrop
  | @retireShm id huse =>
    have hzombie : RefsExact (t.setState .shm id .ZOMBIE) := h.setState .shm id (by decide)
    simp only [Tables.retireShm]
    split
    · rename_i hz
      refine hzombie.destroy ?_
      exact_mod_cast (h.count .shm id).symm.trans hz
    · exact hzombie

theorem Moves.refsExact (hmoves : Moves t t') (h : RefsExact t) : RefsExact t' := by
  induction hmoves with
  | refl => exact h
  | tail _ hmove ih => exact hmove.refsExact ih

theorem RefsExact.create (h : RefsExact t) {c : IpcKind} {id : ℕ} {b : ShmBlock} :
    RefsExact (t.create c id b) where
  count := h.count
  used :=
    have hused : RefsExact (t.setState c id .USED) := h.setState c id (by decide)
    hused.used

theorem Effect.refsExact {op : Op} (heffect : Effect op t t') (h : RefsExact t) :
    RefsExact t' := by
  cases heffect with
  | moves hmoves => exact hmoves.refsExact h
  | create _ hmoves => exact hmoves.refsExact h.create
  | retire _ _ hmoves => exact hmoves.refsExact (h.setState _ _ (by decide))

/-! ## Runs -/

/-- The tables after `shminit`, `seminit`, `msqinit` and `procinit`. -/
def EmptyTables (k : Kernel) : Prop :=
  (∀ x, (k.slot x).refCount = 0 ∧ (k.slot x).state = .UNUSED) ∧ ∀ x, k.nodes x = []

theorem EmptyTables.refsExact {k : Kernel} (h : EmptyTables k) : RefsExact k.tables where
  count c id := by
    have hzero : refs k.tables c id = 0 := refs_eq_zero_iff.mpr fun p n hn => by
      simp [Kernel.tables, h.2] at hn
    rw [hzero]
    exact (h.1 (c, id)).1
  used p c n hn := by
    simp [Kernel.tables, h.2] at hn

/-- The step has called the function that reinitialises the slot. -/
def Reinitialised (k k' : Kernel) (c : IpcKind) (id : ℕ) : Prop :=
  (k.slot (c, id)).state ≠ .UNUSED ∧ (k'.slot (c, id)).state = .UNUSED

/-- Reference counts of shared memory, semaphore sets and message queues are exact
in every run from empty tables. -/
theorem refcounts_exact {L : Layout} {k₀ : Kernel} {run : List (Op × Kernel)}
    (hempty : EmptyTables k₀) (hrun : IsRun (Step L) k₀ run) :
    (∀ k ∈ visited k₀ run,
      (∀ c id, (k.slot (c, id)).refCount = refs k.tables c id) ∧
      ∀ p c, ∀ n ∈ k.nodes (p, c), (k.slot (c, n.slot)).state ≠ .UNUSED) ∧
    IsRun (fun k _ k' => ∀ c id, Reinitialised k k' c id → refs k'.tables c id = 0) k₀ run := by
  have hstep : ∀ k op k', RefsExact k.tables → Step L k op k' → RefsExact k'.tables :=
    fun k op k' h hs => hs.call.effect.refsExact h
  have hinv := IsRun.invariant_always (fun k => RefsExact k.tables) hstep hempty.refsExact hrun
  constructor
  · exact fun k hk => ⟨(hinv k hk).count, (hinv k hk).used⟩
  · refine IsRun.imp (fun _ _ => True) (fun k => RefsExact k.tables)
      (fun k op k' h _ hs => hstep k op k' h hs) ?_ hempty.refsExact hrun along_true
    intro k op k' h _ hs c id hre
    refine refs_eq_zero_iff.mpr fun p n hn hslot => ?_
    exact (hstep k op k' h hs).used p c n hn (hslot ▸ hre.2)

theorem smallBoot_empty {L : Layout} {k : Kernel} (h : smallBoot L = .ok k) : EmptyTables k := by
  obtain ⟨vm, word, cache, free, rfl⟩ := smallBoot_ok h
  exact ⟨fun _ => ⟨rfl, rfl⟩, fun _ => rfl⟩

/-- The first process opens a queue and forks: both processes hold a node. -/
theorem refcounts_after_fork :
    ∃ k₀ run, smallBoot smallLayout = .ok k₀ ∧ IsRun (Step smallLayout) k₀ run ∧
      ∃ k ∈ visited k₀ run, (k.slot (.msq, 0)).refCount = 2 ∧ refs k.tables .msq 0 = 2 := by
  obtain ⟨k₀, run, hk₀, hrun, x, hx, htwo⟩ := boot_run (L := smallLayout)
    [.msgget 0 0 0 0x8fff, .fork 0]
    (fun _ run => ∃ x ∈ run, (x.2.slot (.msq, 0)).refCount = 2) (by decide +kernel)
  have hvisited : x.2 ∈ visited k₀ run := List.mem_cons_of_mem _ (List.mem_map_of_mem hx)
  have hexact := (refcounts_exact (smallBoot_empty hk₀) hrun).1 x.2 hvisited
  refine ⟨k₀, run, hk₀, hrun, x.2, hvisited, htwo, ?_⟩
  exact_mod_cast (hexact.1 .msq 0).symm.trans htwo

end LearnOS.Ipc
