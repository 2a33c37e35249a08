import LearnOS.Ipc.SemNowait
import LearnOS.Lib.Segment

/-!
# The linked wait queues of semaphores

The functions of `semaphore.c` on `struct wait_queue`, with its pointers, and the loop
of a signal over them. The kernel with lists is what they stand for: the pointers of a
queue represent its list, and the loop does what `grantLoop` does along the list.

## Main results

`signal_grants_longest_prefix`: a signal serves the waiting processes in their order as
long as the units last, and nobody else.

## Implementation notes

The lists of the kernel inside a `LinkedKernel` are empty. What `kmfree` writes into the
block of a node is part of the heap, so `node` keeps the fields of a node that is gone.
-/

namespace LearnOS.Ipc

open LearnOS LinkedList Function Kres

/-- `struct wait_queue`. -/
structure WaitQueue where
  first : ℕ
  last : ℕ

/-- `struct wait_queue_node`. -/
structure WaitQueueNode where
  p : Fin NPROC
  next : ℕ

/-- The kernel with linked queues, one for each set and index. -/
structure LinkedKernel where
  k : Kernel
  queue : ℕ × ℕ → WaitQueue
  node : ℕ → WaitQueueNode

namespace LinkedKernel

def next (x : LinkedKernel) (a : ℕ) : ℕ := (x.node a).next

def setNode (x : LinkedKernel) (a : ℕ) (w : WaitQueueNode) : LinkedKernel :=
  { x with node := update x.node a w }

def setQueue (x : LinkedKernel) (id i : ℕ) (q : WaitQueue) : LinkedKernel :=
  { x with queue := update x.queue (id, i) q }

end LinkedKernel

/-- `insert_last`. -/
def insertLastNode (L : Layout) (id i : ℕ) (p : Fin NPROC) (x : LinkedKernel) :
    Kres LinkedKernel := do
  let q := x.queue (id, i)
  let (newnode, k) ← x.k.kmallocNode L 16
  let x := { x with k := k }.setNode newnode ⟨p, NULL⟩
  if q.first = NULL then
    return x.setQueue id i ⟨newnode, newnode⟩
  else
    let x := x.setNode q.last { x.node q.last with next := newnode }
    return x.setQueue id i { q with last := newnode }

def getFirst (id i : ℕ) (x : LinkedKernel) : Option (Fin NPROC) :=
  if (x.queue (id, i)).first = NULL then none else some (x.node (x.queue (id, i)).first).p

def eraseFirst (L : Layout) (id i : ℕ) (x : LinkedKernel) : Kres LinkedKernel := do
  let q := x.queue (id, i)
  if q.first = NULL then
    throw (.panic "sem: erase_first.")
  let x := x.setQueue id i
    ⟨x.next q.first, if x.next q.first = NULL then NULL else q.last⟩
  let k ← x.k.kmfree L q.first 16
  return { x with k := k }

/-- The loop of a signal, with a bound on its rounds. -/
def signalLoop (L : Layout) (p : Fin NPROC) (id i : ℕ) :
    ℕ → LinkedKernel → Kres (List SemEvent × LinkedKernel)
  | 0, _ => .error .undefined
  | n + 1, x =>
    match getFirst id i x with
    | none => .ok ([], x)
    | some firstsleep =>
      let want := x.k.semWant firstsleep
      if want > (x.k.sem id i).value then .ok ([], x)
      else do
        let k := wakeupSem p firstsleep x.k
        let s := k.sem id i
        let k := (k.setSemaphore id i { s with value := s.value - want }).setWant firstsleep 0
        let x ← eraseFirst L id i { x with k := k }
        let (events, x) ← signalLoop L p id i n x
        return (.grant firstsleep i want :: events, x)

/-- The branch of `semop` for `sem_op > 0`. -/
def signalOp (L : Layout) (p : Fin NPROC) (id i : ℕ) (semOp : ℤ) (bound : ℕ) (x : LinkedKernel) :
    Kres (List SemEvent × LinkedKernel) :=
  let s := x.k.sem id i
  signalLoop L p id i bound
    { x with k := x.k.setSemaphore id i { s with value := wrap32 (s.value + semOp) } }

/-! ## What the pointers stand for -/

/-- The kernel without its lists of waiting processes. -/
def Kernel.bare (k : Kernel) : Kernel :=
  { k with semid := fun id =>
      { k.semid id with sem := fun i => { (k.semid id).sem i with queue := [] } } }

/-- The addresses of the nodes of a queue. -/
def Kernel.waitAddrs (k : Kernel) (s : ℕ × ℕ) : List ℕ := (k.sem s.1 s.2).queue.map WaitNode.addr

/-- The pointers of every queue lead along its list, and no node is in two places. -/
structure Represents (x : LinkedKernel) (k : Kernel) : Prop where
  kernel : x.k = k.bare
  linked : ∀ s, Seg NULL x.next (x.queue s).first (k.waitAddrs s) NULL
  last : ∀ s, (x.queue s).last = (k.waitAddrs s).getLast?.getD NULL
  owner : ∀ s : ℕ × ℕ, ∀ w ∈ (k.sem s.1 s.2).queue, (x.node w.addr).p = w.p
  nodup : ∀ s, (k.waitAddrs s).Nodup
  apart : ∀ s s', s ≠ s' → ∀ a ∈ k.waitAddrs s, a ∉ k.waitAddrs s'

variable {L : Layout} {x x' : LinkedKernel} {k k' : Kernel} {p : Fin NPROC} {id i : ℕ}
  {events : List SemEvent} {B : Multiset (ℕ × ℕ)} {queue : List WaitNode} {w : WaitNode}
  {rest : List WaitNode}

theorem bare_sem (k : Kernel) (id i : ℕ) : k.bare.sem id i = ⟨(k.sem id i).value, []⟩ := rfl

theorem bare_setSemaphore (k : Kernel) (id i : ℕ) (s : Sem) :
    (k.setSemaphore id i s).bare = k.bare.setSemaphore id i { s with queue := [] } := by
  simp only [Kernel.bare, Kernel.setSemaphore, Kernel.setSem, Kernel.mk.injEq, true_and, and_true]
  funext id'
  by_cases hid : id' = id
  · subst hid
    simp only [update_self, SemBlock.mk.injEq, true_and]
    funext i'
    by_cases hi : i' = i
    · subst hi
      simp
    · simp [hi]
  · simp [hid]

theorem bare_wakeupSem (p q : Fin NPROC) (k : Kernel) :
    (wakeupSem p q k).bare = wakeupSem p q k.bare := by
  unfold wakeupSem
  by_cases h : q ≠ p ∧ (k.vm.proc q).state = .SLEEPING ∧ (k.semCall q).isSome
  · rw [if_pos h, if_pos (by exact h)]
    rfl
  · rw [if_neg h, if_neg (by exact h)]

theorem bare_grantTo (w : WaitNode) (rest : List WaitNode) (k : Kernel) :
    (grantTo p id i w rest k).bare =
      ((wakeupSem p w.p k.bare).setSemaphore id i
        ⟨(k.sem id i).value - k.semWant w.p, []⟩).setWant w.p 0 := by
  have hvalue : ((wakeupSem p w.p k).sem id i).value = (k.sem id i).value := by
    rw [wakeupSem_sem]
  rw [← bare_wakeupSem, ← hvalue]
  exact congrArg (Kernel.setWant · w.p 0) (bare_setSemaphore (wakeupSem p w.p k) id i _)

/-- The allocator does not look at the lists. -/
theorem bare_kmallocNode (k : Kernel) (sz : ℕ) :
    k.bare.kmallocNode L sz = k.kmallocNode L sz >>= fun r => .ok (r.1, r.2.bare) := by
  simp only [Kernel.kmallocNode, Kernel.kmalloc, bind_assoc, pure_bind]
  refine bind_congr fun r => ?_
  by_cases hnull : r.1 = NULL
  · simp only [hnull, if_true]
    rfl
  · simp only [hnull, if_false]
    rfl

theorem bare_kmfree (k : Kernel) (a sz : ℕ) :
    k.bare.kmfree L a sz = k.kmfree L a sz >>= fun k => .ok k.bare := by
  simp only [Kernel.kmfree, bind_assoc, pure_bind]
  rfl

/-! ## The functions on queues -/

theorem waitAddrs_eq (hq : (k.sem id i).queue = queue) :
    k.waitAddrs (id, i) = queue.map WaitNode.addr := by
  rw [Kernel.waitAddrs, hq]

/-- One queue gets a new list; the others and their nodes stay. -/
theorem Represents.change {as : List ℕ} (h : Represents x k) (hkernel : x'.k = k'.bare)
    (hother : ∀ id' i', (id', i') ≠ (id, i) → k'.sem id' i' = k.sem id' i')
    (hqueue : ∀ s ≠ (id, i), x'.queue s = x.queue s) (has : k'.waitAddrs (id, i) = as)
    (hframe : ∀ s ≠ (id, i), ∀ a ∈ k.waitAddrs s, x'.node a = x.node a ∧ a ∉ as)
    (hlinked : Seg NULL x'.next (x'.queue (id, i)).first as NULL)
    (hlast : (x'.queue (id, i)).last = as.getLast?.getD NULL)
    (howner : ∀ w ∈ (k'.sem id i).queue, (x'.node w.addr).p = w.p) (hnodup : as.Nodup) :
    Represents x' k' := by
  subst has
  have haddrs : ∀ s ≠ (id, i), k'.waitAddrs s = k.waitAddrs s := fun s hs => by
    rw [Kernel.waitAddrs, Kernel.waitAddrs, hother s.1 s.2 hs]
  have hall : ∀ {prop : ℕ × ℕ → Prop}, prop (id, i) → (∀ s ≠ (id, i), prop s) → ∀ s, prop s :=
    fun hself hne s => (eq_or_ne s (id, i)).elim (fun hs => hs ▸ hself) (hne s)
  refine ⟨hkernel, hall hlinked fun s hs => ?_, hall hlast fun s hs => ?_,
    hall howner fun s hs w hw => ?_, hall hnodup fun s hs => ?_, fun s s' hne a ha ha' => ?_⟩
  · rw [haddrs s hs, hqueue s hs]
    exact (h.linked s).congr fun a ha => congrArg WaitQueueNode.next (hframe s hs a ha).1
  · rw [haddrs s hs, hqueue s hs]
    exact h.last s
  · rw [hother s.1 s.2 hs] at hw
    rw [(hframe s hs w.addr (List.mem_map_of_mem hw)).1]
    exact h.owner s w hw
  · rw [haddrs s hs]
    exact h.nodup s
  · by_cases hs : s = (id, i)
    · have hs' : s' ≠ (id, i) := fun heq => hne (hs.trans heq.symm)
      exact (hframe s' hs' a (haddrs s' hs' ▸ ha')).2 (hs ▸ ha)
    · rw [haddrs s hs] at ha
      by_cases hs' : s' = (id, i)
      · exact (hframe s hs a ha).2 (hs' ▸ ha')
      · exact h.apart s s' hne a ha (haddrs s' hs' ▸ ha')

theorem Represents.getFirst_eq (h : Represents x k) :
    getFirst id i x = (k.sem id i).queue.head?.map WaitNode.p := by
  have hlinked := h.linked (id, i)
  cases hq : (k.sem id i).queue with
  | nil =>
    rw [waitAddrs_eq hq] at hlinked
    exact if_pos hlinked
  | cons w rest =>
    rw [waitAddrs_eq hq] at hlinked
    obtain ⟨hfirst, hne, -⟩ := hlinked
    have howner := h.owner (id, i) w (by simp [hq])
    rw [getFirst, hfirst, if_neg hne, howner]
    rfl

/-- The queue without its first node. -/
def LinkedKernel.shifted (x : LinkedKernel) (id i : ℕ) (k : Kernel) : LinkedKernel :=
  { x.setQueue id i ⟨x.next (x.queue (id, i)).first,
      if x.next (x.queue (id, i)).first = NULL then NULL else (x.queue (id, i)).last⟩ with k := k }

theorem Represents.eraseFirst_eq (h : Represents x k)
    (hq : (k.sem id i).queue = w :: rest) (k₁ : Kernel) :
    eraseFirst L id i { x with k := k₁.bare } =
      k₁.kmfree L w.addr 16 >>= fun k₂ => .ok (x.shifted id i k₂.bare) := by
  have hlinked := h.linked (id, i)
  rw [waitAddrs_eq hq] at hlinked
  obtain ⟨hfirst, hne, -⟩ := hlinked
  have hkfree := bare_kmfree (L := L) k₁ w.addr 16
  simp only [eraseFirst, LinkedKernel.setQueue, hfirst, if_neg hne, hkfree, bind_assoc,
    LinkedKernel.shifted]
  rfl

theorem Represents.shifted (h : Represents x k)
    (hq : (k.sem id i).queue = w :: rest) (hself : (k'.sem id i).queue = rest)
    (hother : ∀ id' i', (id', i') ≠ (id, i) → k'.sem id' i' = k.sem id' i') :
    Represents (x.shifted id i k'.bare) k' := by
  have hlinked := h.linked (id, i)
  have hlast := h.last (id, i)
  have hnodup := h.nodup (id, i)
  have hapart := fun s hs => h.apart s (id, i) hs
  simp only [waitAddrs_eq hq] at hlinked hlast hnodup hapart
  obtain ⟨hfirst, -, hrest⟩ := hlinked
  refine h.change rfl hother (fun s hs => update_of_ne hs _ _) (waitAddrs_eq hself)
    (fun s hs a ha => ⟨rfl, fun hmem => hapart s hs a ha (List.mem_cons_of_mem _ hmem)⟩) ?_ ?_
    (fun v hv => ?_) (List.nodup_cons.mp hnodup).2
  · simp only [LinkedKernel.shifted, LinkedKernel.setQueue, update_self]
    rw [hfirst]
    exact hrest
  · simp only [LinkedKernel.shifted, LinkedKernel.setQueue, update_self]
    rw [hfirst, hlast]
    cases rest with
    | nil => simp [show x.next w.addr = NULL from hrest]
    | cons v rest =>
      rw [if_neg (by rw [hrest.1]; exact hrest.2.1)]
      rfl
  · rw [hself] at hv
    exact h.owner (id, i) v (by rw [hq]; exact List.mem_cons_of_mem _ hv)

/-- The address of a new node is that of no node in a queue. -/
theorem Owns.fresh_node {a : ℕ} (h : Owns L k (queueBlocks queue))
    (hcall : k.kmallocNode L 16 = .ok (a, k')) : a ∉ queue.map WaitNode.addr := by
  have hnodup := (h.kmallocNode hcall).nodup
  intro ha
  obtain ⟨w, hw, rfl⟩ := List.mem_map.mp ha
  have hmem : (w.addr, 16) ∈ queueBlocks queue :=
    Multiset.mem_coe.mpr (List.mem_map.mpr ⟨w, hw, rfl⟩)
  exact (Multiset.nodup_cons.mp hnodup).1 hmem

/-- A node that was in no queue is linked behind the last one. -/
theorem Represents.appended {a : ℕ} {first : ℕ} (h : Represents x k)
    (hfresh : ∀ s, a ∉ k.waitAddrs s) (hkernel : x'.k = k'.bare)
    (hself : (k'.sem id i).queue = (k.sem id i).queue ++ [⟨a, p⟩])
    (hother : ∀ id' i', (id', i') ≠ (id, i) → k'.sem id' i' = k.sem id' i')
    (hqueue : x'.queue = update x.queue (id, i) ⟨first, a⟩)
    (hlinked : Seg NULL x'.next first (k.waitAddrs (id, i) ++ [a]) NULL)
    (hframe : ∀ b ∉ k.waitAddrs (id, i) ++ [a], x'.node b = x.node b)
    (howner : ∀ b ≠ a, (x'.node b).p = (x.node b).p) (hnew : (x'.node a).p = p) :
    Represents x' k' := by
  have hnodup : (k.waitAddrs (id, i) ++ [a]).Nodup :=
    List.Nodup.append (h.nodup (id, i)) (List.nodup_singleton a) (by simpa using hfresh (id, i))
  refine h.change hkernel hother (fun s hs => by rw [hqueue, update_of_ne hs])
    ((waitAddrs_eq hself).trans List.map_append) (fun s hs b hb => ?_) ?_ ?_ (fun w hw => ?_) hnodup
  · have hba : b ≠ a := fun heq => hfresh s (heq ▸ hb)
    have hout : b ∉ k.waitAddrs (id, i) ++ [a] := by
      simpa [hba] using h.apart s (id, i) hs b hb
    exact ⟨hframe b hout, hout⟩
  · rw [hqueue, update_self]
    exact hlinked
  · simp [hqueue]
  · rw [hself] at hw
    rcases List.mem_append.mp hw with hw | hw
    · rw [howner w.addr fun heq => hfresh (id, i) (heq ▸ List.mem_map_of_mem hw)]
      exact h.owner (id, i) w hw
    · rw [List.mem_singleton.mp hw]
      exact hnew

/-- Putting a process at the end of a list and linking its node are the same. -/
theorem Represents.insertLast (h : Represents x k)
    (howns : ∀ s : ℕ × ℕ, Owns L k (queueBlocks (k.sem s.1 s.2).queue))
    (hcall : Ipc.insertLast L id i p k = .ok k') :
    ∃ x', insertLastNode L id i p x = .ok x' ∧ Represents x' k' := by
  simp only [Ipc.insertLast, bind_eq_ok, pure_eq_ok] at hcall
  obtain ⟨⟨a, k₁⟩, hnode, rfl⟩ := hcall
  have hfresh : ∀ s, a ∉ k.waitAddrs s := fun s => (howns s).fresh_node hnode
  have hcopy : x.k.kmallocNode L 16 = .ok (a, k₁.bare) := by
    rw [h.kernel, bare_kmallocNode, hnode]
    rfl
  obtain ⟨s₀, -, rfl, hnull⟩ := Kernel.kmallocNode_ok hnode
  have hbare : (k.setHeap s₀).bare = ((k.setHeap s₀).setSemaphore id i
      ⟨((k.setHeap s₀).sem id i).value, ((k.setHeap s₀).sem id i).queue ++ [⟨a, p⟩]⟩).bare := by
    rw [bare_setSemaphore]
    exact (setSemaphore_eq_self (k.setHeap s₀).bare id i).symm
  have hself : ∀ s : Sem, ((k.setHeap s₀).setSemaphore id i s).sem id i = s :=
    fun s => sem_setSemaphore_self s
  have hother : ∀ (s : Sem) id' i', (id', i') ≠ (id, i) →
      ((k.setHeap s₀).setSemaphore id i s).sem id' i' = k.sem id' i' :=
    fun s _ _ hne => sem_setSemaphore_of_ne (k := k.setHeap s₀) s hne
  have hlinked := h.linked (id, i)
  by_cases hempty : (x.queue (id, i)).first = NULL
  · have hnil := hlinked.eq_nil_iff.mpr hempty
    simp only [insertLastNode, hcopy, ok_bind, LinkedKernel.setNode, LinkedKernel.setQueue,
      if_pos hempty]
    refine ⟨_, rfl, h.appended hfresh hbare (congrArg Sem.queue (hself _)) (hother _) rfl ?_
      (fun b hb => update_of_ne (fun heq => hb (by simp [heq])) _ _)
      (fun b hb => by simp [hb]) (by simp)⟩
    rw [hnil]
    simp [LinkedKernel.next, hnull, seg_cons]
  · have hne : k.waitAddrs (id, i) ≠ [] := fun hnil => hempty (hlinked.eq_nil_iff.mp hnil)
    obtain ⟨l, b, hl⟩ : ∃ l b, k.waitAddrs (id, i) = l ++ [b] :=
      ⟨_, _, (List.dropLast_append_getLast hne).symm⟩
    have hlast := h.last (id, i)
    have hnodup := h.nodup (id, i)
    have hafresh := hfresh (id, i)
    rw [hl] at hlinked hnodup hafresh
    rw [hl, List.getLast?_concat, Option.getD_some] at hlast
    have hba : a ≠ b := fun heq => hafresh (by simp [heq])
    simp only [insertLastNode, hcopy, ok_bind, LinkedKernel.setNode, LinkedKernel.setQueue,
      if_neg hempty]
    refine ⟨_, rfl, h.appended hfresh hbare (congrArg Sem.queue (hself _)) (hother _) rfl ?_
      (fun c hc => ?_) (fun c hc => ?_) (by simp [hlast, hba])⟩
    · rw [hl]
      refine ((hlinked.store hafresh NULL).link hnodup hnull (update_self ..) hba).congr
        fun y _ => ?_
      by_cases hyb : y = b
      · simp [LinkedKernel.next, hlast, hyb]
      · by_cases hya : y = a <;> simp [LinkedKernel.next, hlast, hyb, hya, hba]
    · rw [hl] at hc
      have hcb : c ≠ b := fun heq => hc (by simp [heq])
      have hca : c ≠ a := fun heq => hc (by simp [heq])
      simp [hlast, hcb, hca]
    · by_cases hcb : c = b <;> simp [hlast, hcb, hc, hba.symm]

/-- The loop over the pointers does what the loop along the list does, within as many
rounds as the queue has nodes and one. -/
theorem signalLoop_refines (h : Represents x k) (hqueue : (k.sem id i).queue = queue) {n : ℕ}
    (hn : queue.length < n) (hcall : grantLoop L p id i queue k = .ok (events, k')) :
    ∃ x', signalLoop L p id i n x = .ok (events, x') ∧ Represents x' k' ∧
      ∀ s ≠ (id, i), x'.queue s = x.queue s := by
  obtain ⟨n, rfl⟩ := Nat.exists_eq_succ_of_ne_zero (Nat.ne_of_gt (Nat.zero_lt_of_lt hn))
  induction queue generalizing x k n events with
  | nil =>
    cases hcall
    refine ⟨x, ?_, h, fun _ _ => rfl⟩
    simp only [signalLoop, h.getFirst_eq, hqueue]
    rfl
  | cons w rest ih =>
    have hwant : x.k.semWant = k.semWant := by
      rw [h.kernel]
      rfl
    have hvalue : (x.k.sem id i).value = (k.sem id i).value := by rw [h.kernel, bare_sem]
    simp only [signalLoop, h.getFirst_eq, hqueue, List.head?_cons, Option.map_some, hwant, hvalue]
    obtain ⟨hshort, rfl, rfl⟩ | ⟨henough, s, events', hfree, hloop, rfl⟩ := grantLoop_cons hcall
    · exact ⟨x, if_pos hshort, h, fun _ _ => rfl⟩
    · rw [← not_lt] at henough
      have hshift : Represents (x.shifted id i ((grantTo p id i w rest k).setHeap s).bare)
          ((grantTo p id i w rest k).setHeap s) :=
        h.shifted hqueue (grantTo_queue w rest k) fun id' i' hne => grantTo_other w rest k hne
      obtain ⟨n, rfl⟩ : ∃ m, n = m + 1 := ⟨n - 1, by simp only [List.length_cons] at hn; omega⟩
      obtain ⟨x', hx', hrep, hsame⟩ := ih (k := (grantTo p id i w rest k).setHeap s) hshift
        (grantTo_queue w rest k) hloop n (by simp only [List.length_cons] at hn; omega)
      refine ⟨x', ?_, hrep, fun s hs => (hsame s hs).trans ?_⟩
      · have hbare : ((wakeupSem p w.p x.k).setSemaphore id i
            ⟨((wakeupSem p w.p x.k).sem id i).value - k.semWant w.p,
              ((wakeupSem p w.p x.k).sem id i).queue⟩).setWant w.p 0 =
            (grantTo p id i w rest k).bare := by
          rw [bare_grantTo, wakeupSem_sem, h.kernel, bare_sem]
        rw [if_neg henough, hbare, h.eraseFirst_eq hqueue, hfree]
        simp only [ok_bind, hx']
        rfl
      · exact update_of_ne hs _ _

/-- A bound that is large enough may be larger. -/
theorem signalLoop_mono {n m : ℕ} {r : List SemEvent × LinkedKernel} (hle : n ≤ m)
    (h : signalLoop L p id i n x = .ok r) : signalLoop L p id i m x = .ok r := by
  induction n generalizing m x r with
  | zero => cases h
  | succ n ih =>
    obtain ⟨m, rfl⟩ : ∃ j, m = j + 1 := ⟨m - 1, by omega⟩
    simp only [signalLoop] at h ⊢
    split at h
    · exact h
    · split at h
      · rename_i hshort
        rw [if_pos hshort]
        exact h
      · rename_i henough
        rw [if_neg henough]
        simp only [bind_eq_ok] at h ⊢
        obtain ⟨x₁, herase, r₁, hloop, hr⟩ := h
        exact ⟨x₁, herase, r₁, ih (by omega) hloop, hr⟩

theorem Represents.setValue (h : Represents x k) (id i : ℕ) (v : ℤ) :
    Represents { x with k := x.k.setSemaphore id i { x.k.sem id i with value := v } }
      (k.setSemaphore id i { k.sem id i with value := v }) := by
  have hself : (k.setSemaphore id i { k.sem id i with value := v }).sem id i = _ :=
    sem_setSemaphore_self _
  refine h.change ?_ (fun id' i' hne => sem_setSemaphore_of_ne _ hne) (fun _ _ => rfl)
    (congrArg (fun s : Sem => s.queue.map WaitNode.addr) hself)
    (fun s hs a ha => ⟨rfl, h.apart s (id, i) hs a ha⟩) (h.linked (id, i)) (h.last (id, i))
    (fun w hw => ?_) (h.nodup (id, i))
  · rw [bare_setSemaphore, h.kernel, bare_sem]
  · rw [hself] at hw
    exact h.owner (id, i) w hw

/-! ## Who is served -/

/-- What the processes of a queue wait for, taken together. -/
def demand (want : Fin NPROC → ℤ) (queue : List WaitNode) : ℤ :=
  (queue.map fun w => want w.p).sum

/-- `granted` is the longest initial part of the queue whose demands `v` units meet. -/
def LongestServed (want : Fin NPROC → ℤ) (v : ℤ) (queue granted : List WaitNode) : Prop :=
  granted <+: queue ∧ demand want granted ≤ v ∧
    ∀ l, l <+: queue → demand want l ≤ v → l <+: granted

theorem demand_nonneg {want : Fin NPROC → ℤ} (hpos : ∀ w ∈ queue, 0 < want w.p) :
    0 ≤ demand want queue := by
  refine List.sum_nonneg fun n hn => ?_
  obtain ⟨w, hw, rfl⟩ := List.mem_map.mp hn
  exact (hpos w hw).le

theorem demand_append (want : Fin NPROC → ℤ) (l l' : List WaitNode) :
    demand want (l ++ l') = demand want l + demand want l' := by
  simp [demand]

theorem demand_cons (want : Fin NPROC → ℤ) (w : WaitNode) (l : List WaitNode) :
    demand want (w :: l) = want w.p + demand want l := by
  simp [demand]

/-- Where the next demand cannot be met, the initial part is the longest one. -/
theorem longestServed_of_stops {want : Fin NPROC → ℤ} {v : ℤ} {granted : List WaitNode}
    (hpos : ∀ w ∈ granted ++ rest, 0 < want w.p) (hle : demand want granted ≤ v)
    (hstop : ∀ w ∈ rest.head?, v < demand want granted + want w.p) :
    LongestServed want v (granted ++ rest) granted := by
  refine ⟨List.prefix_append _ _, hle, fun l hl hdemand => ?_⟩
  rcases List.prefix_or_prefix_of_prefix hl (List.prefix_append granted rest) with h | h
  · exact h
  · obtain ⟨t, rfl⟩ := h
    cases t with
    | nil => simp
    | cons w t =>
      obtain ⟨t', ht'⟩ := (List.prefix_append_right_inj granted).mp hl
      subst ht'
      have hw := hstop w (by simp)
      have ht : 0 ≤ demand want t := demand_nonneg fun u hu => hpos u (by simp [hu])
      rw [demand_append, demand_cons] at hdemand
      omega

theorem wakeupSem_state (q r : Fin NPROC) (k : Kernel) (hr : r ≠ q) :
    ((wakeupSem p q k).vm.proc r).state = (k.vm.proc r).state := by
  unfold wakeupSem
  split
  · simp [Kernel.setState, VmState.setProc, hr]
  · rfl

theorem wakeupSem_call (q : Fin NPROC) (k : Kernel) : (wakeupSem p q k).semCall = k.semCall := by
  unfold wakeupSem
  split <;> rfl

/-- What the loop of a signal does, process by process. -/
structure Granted (p : Fin NPROC) (id i : ℕ) (granted rest : List WaitNode) (k k' : Kernel) :
    Prop where
  sem : k'.sem id i = ⟨(k.sem id i).value - demand k.semWant granted, rest⟩
  want : ∀ q, k'.semWant q = if q ∈ granted.map WaitNode.p then 0 else k.semWant q
  wakes : ∀ w ∈ granted, w.p ≠ p → (k.vm.proc w.p).state = .SLEEPING → (k.semCall w.p).isSome →
    (k'.vm.proc w.p).state = .RUNNABLE
  state : ∀ q, q ∉ granted.map WaitNode.p → (k'.vm.proc q).state = (k.vm.proc q).state
  other : ∀ id' i', (id', i') ≠ (id, i) → k'.sem id' i' = k.sem id' i'

theorem grantTo_state (w : WaitNode) (rest : List WaitNode) (k : Kernel) (q : Fin NPROC) :
    ((grantTo p id i w rest k).vm.proc q).state = ((wakeupSem p w.p k).vm.proc q).state := rfl

theorem Granted.cons {granted : List WaitNode} {s : KHeap}
    (h : Granted p id i granted rest ((grantTo p id i w (granted ++ rest) k).setHeap s) k')
    (hw : w.p ∉ granted.map WaitNode.p) : Granted p id i (w :: granted) rest k k' := by
  have hwant : ∀ q, q ≠ w.p →
      ((grantTo p id i w (granted ++ rest) k).setHeap s).semWant q = k.semWant q := by
    intro q hq
    calc (grantTo p id i w (granted ++ rest) k).semWant q
        = update k.semWant w.p 0 q := by rw [grantTo_want]
      _ = k.semWant q := update_of_ne hq _ _
  have hdemand : demand ((grantTo p id i w (granted ++ rest) k).setHeap s).semWant granted =
      demand k.semWant granted := by
    refine congrArg List.sum (List.map_congr_left fun u hu => hwant u.p ?_)
    rintro heq
    exact hw (heq ▸ List.mem_map_of_mem hu)
  refine ⟨?_, fun q => ?_, fun u hu hne hsleep hcall => ?_, fun q hq => ?_, fun id' i' hne => ?_⟩
  · have hself : ((grantTo p id i w (granted ++ rest) k).setHeap s).sem id i =
        ⟨(k.sem id i).value - k.semWant w.p, granted ++ rest⟩ := grantTo_self w _ k
    rw [h.sem, hself, hdemand, demand_cons, Sem.mk.injEq]
    refine ⟨?_, rfl⟩
    simp only
    omega
  · rw [h.want]
    by_cases hq : q = w.p
    · subst hq
      rw [if_neg hw, if_pos (by simp)]
      calc (grantTo p id i w (granted ++ rest) k).semWant w.p
          = update k.semWant w.p 0 w.p := by rw [grantTo_want]
        _ = 0 := update_self ..
    · rw [hwant q hq]
      simp [hq]
  · by_cases huw : u.p = w.p
    · rw [huw] at hne hsleep hcall ⊢
      have hkept := h.state w.p hw
      refine hkept.trans ((grantTo_state w _ k w.p).trans ?_)
      rw [wakeupSem, if_pos ⟨hne, hsleep, hcall⟩]
      simp [Kernel.setState, VmState.setProc]
    · have hmem : u ∈ granted := by
        rcases List.mem_cons.mp hu with rfl | hu
        · exact absurd rfl huw
        · exact hu
      refine h.wakes u hmem hne ?_ ?_
      · exact ((grantTo_state w _ k u.p).trans (wakeupSem_state w.p u.p k huw)).trans hsleep
      · have hsame := congrFun (wakeupSem_call (p := p) w.p k) u.p
        exact (congrArg Option.isSome hsame).trans hcall
  · rw [List.map_cons, List.mem_cons, not_or] at hq
    exact (h.state q hq.2).trans ((grantTo_state w _ k q).trans (wakeupSem_state w.p q k hq.1))
  · exact (h.other id' i' hne).trans (grantTo_other w _ k hne)

/-- The loop along the list serves the longest initial part. -/
theorem grantLoop_longest (hqueue : (k.sem id i).queue = queue)
    (hnodup : (queue.map WaitNode.p).Nodup) (hvalue : 0 ≤ (k.sem id i).value)
    (hpos : ∀ w ∈ queue, 0 < k.semWant w.p)
    (hcall : grantLoop L p id i queue k = .ok (events, k')) :
    ∃ granted rest, queue = granted ++ rest ∧
      events = granted.map (fun w => .grant w.p i (k.semWant w.p)) ∧
      demand k.semWant granted ≤ (k.sem id i).value ∧
      (∀ w ∈ rest.head?, (k.sem id i).value < demand k.semWant granted + k.semWant w.p) ∧
      Granted p id i granted rest k k' := by
  induction queue generalizing k events with
  | nil =>
    cases hcall
    refine ⟨[], [], rfl, rfl, hvalue, by simp, ?_, by simp, by simp, fun _ _ => rfl,
      fun _ _ _ => rfl⟩
    rw [demand, List.map_nil, List.sum_nil, sub_zero, ← hqueue]
  | cons w queue ih =>
    obtain ⟨hshort, rfl, rfl⟩ | ⟨henough, s, events', -, hloop, rfl⟩ := grantLoop_cons hcall
    · refine ⟨[], w :: queue, rfl, rfl, hvalue, ?_, ?_, by simp, by simp, fun _ _ => rfl,
        fun _ _ _ => rfl⟩
      · simpa [demand] using hshort
      · rw [demand, List.map_nil, List.sum_nil, sub_zero, ← hqueue]
    · obtain ⟨hw, hnodup⟩ := List.nodup_cons.mp hnodup
      have hself : ((grantTo p id i w queue k).setHeap s).sem id i =
          ⟨(k.sem id i).value - k.semWant w.p, queue⟩ := grantTo_self w queue k
      have hwant : ∀ u ∈ queue,
          ((grantTo p id i w queue k).setHeap s).semWant u.p = k.semWant u.p := by
        intro u hu
        have hne : u.p ≠ w.p := fun heq => hw (heq ▸ List.mem_map_of_mem hu)
        calc (grantTo p id i w queue k).semWant u.p
            = update k.semWant w.p 0 u.p := by rw [grantTo_want]
          _ = k.semWant u.p := update_of_ne hne _ _
      obtain ⟨granted, rest, rfl, rfl, hle, hstop, hgranted⟩ :=
        ih (k := (grantTo p id i w queue k).setHeap s) (congrArg Sem.queue hself) hnodup
          (by rw [hself]; simp only; omega)
          (fun u hu => by rw [hwant u hu]; exact hpos u (List.mem_cons_of_mem _ hu)) hloop
      have hdemand : demand ((grantTo p id i w (granted ++ rest) k).setHeap s).semWant granted =
          demand k.semWant granted :=
        congrArg List.sum (List.map_congr_left fun u hu => hwant u (List.mem_append_left _ hu))
      rw [hself, hdemand] at hle hstop
      refine ⟨w :: granted, rest, rfl, ?_, ?_, fun u hu => ?_, ?_⟩
      · rw [List.map_cons]
        congr 1
        exact List.map_congr_left fun u hu => by rw [hwant u (List.mem_append_left _ hu)]
      · rw [demand_cons]
        simp only at hle
        omega
      · have hlt := hstop u hu
        have hmem : u ∈ rest := List.mem_of_mem_head? hu
        rw [hwant u (List.mem_append_right _ hmem)] at hlt
        rw [demand_cons]
        simp only at hlt
        omega
      · refine hgranted.cons fun hin => hw ?_
        rw [List.map_append]
        exact List.mem_append_left _ hin

/-- A signal of `semOp` units serves the longest initial part of the queue that the
units meet: each of its processes once, in order, and nobody else. -/
theorem signal_grants_longest_prefix {semOp : ℤ} (h : Represents x k)
    (howns : Owns L k (queueBlocks (k.sem id i).queue))
    (hnodup : ((k.sem id i).queue.map WaitNode.p).Nodup)
    (hpos : ∀ w ∈ (k.sem id i).queue, 0 < k.semWant w.p) (hvalue : 0 ≤ (k.sem id i).value)
    (hop : 0 < semOp) (hmax : (k.sem id i).value + semOp < 2 ^ 31) :
    ∃ granted rest x' k', (k.sem id i).queue = granted ++ rest ∧
      LongestServed k.semWant ((k.sem id i).value + semOp) (k.sem id i).queue granted ∧
      (∀ bound > (k.sem id i).queue.length, signalOp L p id i semOp bound x =
        .ok (granted.map fun w => .grant w.p i (k.semWant w.p), x')) ∧
      Represents x' k' ∧
      k'.sem id i = ⟨(k.sem id i).value + semOp - demand k.semWant granted, rest⟩ ∧
      (∀ q, k'.semWant q = if q ∈ granted.map WaitNode.p then 0 else k.semWant q) ∧
      (∀ w ∈ granted, w.p ≠ p → (k.vm.proc w.p).state = .SLEEPING → (k.semCall w.p).isSome →
        (k'.vm.proc w.p).state = .RUNNABLE) ∧
      (∀ q, q ∉ granted.map WaitNode.p → (k'.vm.proc q).state = (k.vm.proc q).state) ∧
      ∀ id' i', (id', i') ≠ (id, i) →
        k'.sem id' i' = k.sem id' i' ∧ x'.queue (id', i') = x.queue (id', i') := by
  have hwrap : wrap32 ((k.sem id i).value + semOp) = (k.sem id i).value + semOp :=
    Int.bmod_eq_of_le (by omega) (by omega)
  have hstart := h.setValue id i (wrap32 ((k.sem id i).value + semOp))
  have hself : (k.setSemaphore id i
      { k.sem id i with value := wrap32 ((k.sem id i).value + semOp) }).sem id i =
        { k.sem id i with value := wrap32 ((k.sem id i).value + semOp) } :=
    sem_setSemaphore_self _
  have hvalue' : (x.k.sem id i).value = (k.sem id i).value := by rw [h.kernel, bare_sem]
  rw [hwrap] at hstart hself
  obtain ⟨events, k', hcall, -⟩ := grantLoop_returns (L := L) (p := p) (B := 0)
    (congrArg Sem.queue hself) (by rw [add_zero]; exact howns.congr rfl)
  obtain ⟨granted, rest, hsplit, rfl, hle, hstop, hgranted⟩ := grantLoop_longest
    (congrArg Sem.queue hself) hnodup (by rw [hself]; simp only; omega) hpos hcall
  obtain ⟨x', hx', hrep, hsame⟩ := signalLoop_refines hstart (congrArg Sem.queue hself)
    (Nat.lt_succ_self _) hcall
  rw [hself] at hle hstop
  have hsem := hgranted.sem
  rw [hself] at hsem
  refine ⟨granted, rest, x', k', hsplit, ?_, fun bound hbound => ?_, hrep, hsem, hgranted.want,
    hgranted.wakes, hgranted.state, fun id' i' hne => ⟨?_, hsame (id', i') hne⟩⟩
  · rw [hsplit] at hpos ⊢
    exact longestServed_of_stops hpos hle hstop
  · simp only [signalOp, hvalue', hwrap]
    exact signalLoop_mono hbound hx'
  · exact (hgranted.other id' i' hne).trans (sem_setSemaphore_of_ne _ hne)

theorem represents_empty (hempty : ∀ id i, (k.sem id i).queue = []) :
    Represents ⟨k.bare, fun _ => ⟨NULL, NULL⟩, fun _ => ⟨0, NULL⟩⟩ k := by
  have hnil : ∀ s, k.waitAddrs s = [] := fun s => waitAddrs_eq (hempty s.1 s.2)
  refine ⟨rfl, fun s => ?_, fun s => ?_, fun s w hw => ?_, fun s => ?_, fun s s' _ a ha => ?_⟩
  · rw [hnil]
    rfl
  · rw [hnil]
    rfl
  · rw [hempty] at hw
    cases hw
  · rw [hnil]
    exact List.nodup_nil
  · rw [hnil] at ha
    cases ha

/-- Process 1 sleeps until there are two units, one is there, and a signal adds one. -/
theorem signal_grants_waiter :
    ∃ x k a, Represents x k ∧ k.sem 0 0 = ⟨1, [⟨a, 1⟩]⟩ ∧ ∃ x' k',
      signalOp smallLayout 0 0 0 1 2 x = .ok ([.grant 1 0 2], x') ∧ Represents x' k' ∧
      k'.sem 0 0 = ⟨0, []⟩ ∧ (k'.vm.proc 1).state = .RUNNABLE := by
  have hrun : (slabBoot smallLayout).Yields fun h =>
      (insertLast smallLayout 0 0 1 (sleepSem 1 0 [⟨0, -2, 0⟩] ((oneUnit h).setWant 1 2))).Yields
        fun _ => True := by
    decide +kernel
  obtain ⟨h, hboot, k, hinsert, -⟩ := hrun
  obtain ⟨s₀, hheap, hinit⟩ := slabBoot_init hboot
  obtain ⟨live, pool, hinv⟩ := kmInv_init hheap hinit
  have howns : ∀ s : ℕ × ℕ, Owns smallLayout (sleepSem 1 0 [⟨0, -2, 0⟩] ((oneUnit h).setWant 1 2))
      (queueBlocks (((oneUnit h).sem s.1 s.2).queue)) :=
    fun s => ⟨[], live, pool, hinv, le_of_eq rfl⟩
  obtain ⟨x, -, hrep⟩ := (represents_empty fun _ _ => rfl).insertLast howns hinsert
  simp only [insertLast, bind_eq_ok, pure_eq_ok] at hinsert
  obtain ⟨⟨a, k₁⟩, hk₁, rfl⟩ := hinsert
  have hblock := (howns (0, 0)).kmallocNode hk₁
  obtain ⟨s₁, -, rfl, -⟩ := Kernel.kmallocNode_ok hk₁
  set k := ((sleepSem 1 0 [⟨0, -2, 0⟩] ((oneUnit h).setWant 1 2)).setHeap s₁).setSemaphore 0 0
    ⟨1, [⟨a, 1⟩]⟩ with hk
  have hsem : k.sem 0 0 = ⟨1, [⟨a, 1⟩]⟩ := sem_setSemaphore_self _
  have hwant : k.semWant 1 = 2 := by
    simp [hk, sleepSem, Kernel.setSemaphore, Kernel.setSem, Kernel.setHeap, Kernel.setCall,
      Kernel.setState, Kernel.setWant]
  have hstate : (k.vm.proc 1).state = .SLEEPING := by
    simp [hk, sleepSem, Kernel.setSemaphore, Kernel.setSem, Kernel.setHeap, Kernel.setCall,
      Kernel.setState, VmState.setProc]
  have hqueue : Owns smallLayout k (queueBlocks (k.sem 0 0).queue) := by
    rw [hsem]
    exact hblock.congr rfl
  have hnodup : ((k.sem 0 0).queue.map WaitNode.p).Nodup := by
    rw [hsem]
    simp
  have hpos : ∀ w ∈ (k.sem 0 0).queue, 0 < k.semWant w.p := by
    rw [hsem]
    simp [hwant]
  have hvalue : 0 ≤ (k.sem 0 0).value ∧ (k.sem 0 0).value + 1 < 2 ^ 31 := by
    rw [hsem]
    exact ⟨zero_le_one, (by decide : (1 : ℤ) + 1 < 2 ^ 31)⟩
  obtain ⟨granted, rest, x', k', hsplit, hlongest, hcall, hrep', hself, -, hwakes, -⟩ :=
    signal_grants_longest_prefix (p := 0) (k := k) hrep hqueue hnodup hpos hvalue.1 zero_lt_one
      hvalue.2
  have hgranted : granted = [⟨a, 1⟩] := by
    rw [hsem] at hlongest
    refine List.IsPrefix.eq_of_length_le hlongest.1 ?_
    exact (hlongest.2.2 _ (List.prefix_refl _) (by simp [demand, hwant])).length_le
  subst hgranted
  have hrest : rest = [] := by
    rw [hsem] at hsplit
    simpa using hsplit
  have hbound : signalOp smallLayout 0 0 0 1 2 x = _ := hcall 2 (by rw [hsem]; exact Nat.one_lt_two)
  refine ⟨x, k, a, hrep, hsem, x', k', ?_, hrep', ?_, ?_⟩
  · rw [hbound, List.map_singleton, hwant]
  · rw [hself, hsem, hrest]
    simp [demand, hwant]
  · exact hwakes ⟨a, 1⟩ (List.mem_singleton_self _) (by decide : (1 : Fin NPROC) ≠ 0) hstate rfl

end LearnOS.Ipc
