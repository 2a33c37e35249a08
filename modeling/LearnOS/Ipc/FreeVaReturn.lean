import Mathlib
import LearnOS.Ipc.FreeVa
import LearnOS.Lib.Segment

/-!
# Returning addresses to the free list

`ufreeva` of `uvapg.c` on the linked list with its sentinel. An entry names the highest
page of a run of free pages, as `uallocva` takes it. `Returned` says that the call adds a
range to the list, and `ufreeva_never_returns` that it does so for no list and no range.

## Implementation notes

The loop has a bound on its rounds, and the call returns if it does for some bound.
-/

namespace LearnOS.Ipc

open LearnOS LinkedList Function Kres

/-- `struct freeva`. -/
structure FreevaNode where
  ptr : ℕ
  next : ℕ
  npg : ℕ

/-- The kernel with the nodes of the free lists in memory. -/
structure FreevaMem where
  k : Kernel
  node : ℕ → FreevaNode

namespace FreevaMem

def next (x : FreevaMem) (a : ℕ) : ℕ := (x.node a).next

def setNode (x : FreevaMem) (a : ℕ) (n : FreevaNode) : FreevaMem :=
  { x with node := update x.node a n }

variable {x : FreevaMem} {a b : ℕ} {n : FreevaNode}

@[simp] theorem node_setNode_self : (x.setNode a n).node a = n := update_self ..

theorem node_setNode_of_ne (h : b ≠ a) : (x.setNode a n).node b = x.node b :=
  update_of_ne h ..

theorem next_setNode_of_ne (h : b ≠ a) : (x.setNode a n).next b = x.next b := by
  rw [next, node_setNode_of_ne h, next]

end FreevaMem

/-- The search for the position, with a bound on its rounds. -/
def ufreevaLoop (va : ℕ) : ℕ → ℕ → FreevaMem → Kres ℕ
  | 0, _, _ => .error .undefined
  | n + 1, workptr, x =>
    if workptr = NULL then .error .nullLoad
    else if (x.node workptr).ptr > va ∧
        (x.next workptr = NULL ∨ (x.node (x.next workptr)).ptr < va) then
      ufreevaLoop va n (x.next workptr) x
    else .ok workptr

/-- A node of its own after `workptr`. -/
def insertFreeva (L : Layout) (workptr va npg : ℕ) (x : FreevaMem) : Kres FreevaMem := do
  let (newnode, k) ← x.k.kmallocNode L 24
  let x := ({ x with k := k } : FreevaMem).setNode newnode ⟨va, x.next workptr, npg⟩
  return x.setNode workptr { x.node workptr with next := newnode }

/-- What follows the search. `next += npg` counts in nodes of 24 bytes. -/
def ufreevaAt (L : Layout) (workptr va npg : ℕ) (x : FreevaMem) : Kres FreevaMem :=
  let u := x.node workptr
  if x.next workptr = NULL then
    if (u.ptr + u.npg * PGSIZE) % 2 ^ 64 = va then
      .ok (x.setNode workptr { u with npg := (u.npg + npg) % 2 ^ 64 })
    else insertFreeva L workptr va npg x
  else
    let d := x.node (x.next workptr)
    let umerge : Bool := (u.ptr + u.npg * PGSIZE) % 2 ^ 64 = va
    let dmerge : Bool := (va + npg * PGSIZE) % 2 ^ 64 = d.ptr
    if umerge && dmerge then do
      let k ← x.k.kmfree L (x.next workptr) 24
      return ({ x with k := k } : FreevaMem).setNode workptr
        { u with npg := (npg + u.npg + d.npg) % 2 ^ 64, next := d.next }
    else if umerge then
      .ok (x.setNode workptr { u with npg := (u.npg + npg) % 2 ^ 64 })
    else if dmerge then
      .ok (x.setNode (x.next workptr) { d with ptr := va, next := (d.next + 24 * npg) % 2 ^ 64 })
    else insertFreeva L workptr va npg x

def ufreeva (L : Layout) (head va npg bound : ℕ) (x : FreevaMem) : Kres FreevaMem := do
  let workptr ← ufreevaLoop va bound head x
  ufreevaAt L workptr va npg x

/-! ## What a list stands for -/

/-- The nodes after the sentinel are the entries of a list. -/
structure Lists (x : FreevaMem) (head : ℕ) (l : List FreeVa) : Prop where
  head_ne : head ≠ NULL
  sentinel : (x.node head).ptr = 2 ^ 64 - 1 ∧ (x.node head).npg = 0
  linked : Seg NULL x.next (x.next head) (l.map FreeVa.addr) NULL
  fields : ∀ f ∈ l, (x.node f.addr).ptr = f.ptr ∧ (x.node f.addr).npg = f.npg

/-- A run of pages, named by the highest one. -/
def runPages (ptr npg : ℕ) : Set ℕ := {a | ∃ i < npg, a + i * PGSIZE = ptr}

def freePages (l : List FreeVa) : Set ℕ := {a | ∃ f ∈ l, a ∈ runPages f.ptr f.npg}

/-- A run that is not empty and lies in the window. -/
structure InWindow (ptr npg : ℕ) : Prop where
  pos : 1 ≤ npg
  aligned : ptr % PGSIZE = 0
  low : HEAPTOP + npg * PGSIZE ≤ ptr + PGSIZE
  high : ptr ≤ SHMTOP

/-- The shape of a free list. -/
structure FreeShape (l : List FreeVa) : Prop where
  window : ∀ f ∈ l, InWindow f.ptr f.npg
  descending : l.Pairwise fun f g => g.ptr < f.ptr
  disjoint : l.Pairwise fun f g => Disjoint (runPages f.ptr f.npg) (runPages g.ptr g.npg)
  apart : l.Pairwise fun f g => g.ptr + f.npg * PGSIZE ≠ f.ptr

/-- The call returns and leaves a list of the same shape whose pages are `pages`. -/
def LeavesPages (L : Layout) (head va npg : ℕ) (x : FreevaMem) (pages : Set ℕ) : Prop :=
  ∃ bound x' l, ufreeva L head va npg bound x = .ok x' ∧ Lists x' head l ∧ FreeShape l ∧
    freePages l = pages

variable {L : Layout} {x x' : FreevaMem} {head va npg bound w a : ℕ} {f g : FreeVa}
  {l : List FreeVa} {k k' : Kernel}

theorem InWindow.mem_runPages (h : InWindow va npg) : va ∈ runPages va npg :=
  ⟨0, h.pos, by simp⟩

theorem InWindow.lt_sentinel (h : InWindow va npg) : va < 2 ^ 64 - 1 :=
  lt_of_le_of_lt h.high (by decide)

/-- The first entry holds the highest page of all. -/
theorem FreeShape.le_first (h : FreeShape (f :: l)) (ha : a ∈ freePages (f :: l)) : a ≤ f.ptr := by
  obtain ⟨g, hg, i, -, heq⟩ := ha
  have hle : g.ptr ≤ f.ptr := by
    rcases List.mem_cons.mp hg with rfl | hg
    · exact le_rfl
    · exact ((List.pairwise_cons.mp h.descending).1 g hg).le
  omega

theorem Lists.eq_nil (h : Lists x head l) (hnull : x.next head = NULL) : l = [] := by
  have hnil := h.linked.eq_nil_iff.mpr hnull
  exact List.map_eq_nil_iff.mp hnil

theorem Lists.exists_cons (h : Lists x head l) (hnull : x.next head ≠ NULL) :
    ∃ f rest, l = f :: rest ∧ f.addr = x.next head ∧ f.ptr = (x.node (x.next head)).ptr ∧
      Seg NULL x.next (x.next (x.next head)) (rest.map FreeVa.addr) NULL := by
  cases l with
  | nil => exact absurd h.linked hnull
  | cons f rest =>
    obtain ⟨haddr, -, hrest⟩ := h.linked
    refine ⟨f, rest, rfl, haddr.symm, ?_, ?_⟩
    · rw [haddr]
      exact (h.fields f List.mem_cons_self).1.symm
    · rwa [haddr]

/-! ## Where the search ends -/

/-- The condition of the loop is the opposite of the one that finds the position: an empty
list is read past its end. -/
theorem ufreevaLoop_empty (hhead : head ≠ NULL) (hptr : va < (x.node head).ptr)
    (hnext : x.next head = NULL) : ufreevaLoop va bound head x ≠ .ok w := by
  cases bound with
  | zero => simp [ufreevaLoop]
  | succ n =>
    rw [ufreevaLoop, if_neg hhead, if_pos ⟨hptr, Or.inl hnext⟩, hnext]
    cases n with
    | zero => simp [ufreevaLoop]
    | succ n => simp [ufreevaLoop]

/-- Before a first entry that is higher the search stays at the sentinel. -/
theorem ufreevaLoop_above (hhead : head ≠ NULL) (hnext : x.next head ≠ NULL)
    (hlt : va < (x.node (x.next head)).ptr) (h : ufreevaLoop va bound head x = .ok w) :
    w = head := by
  cases bound with
  | zero => cases h
  | succ n =>
    have hstop : ¬ ((x.node head).ptr > va ∧
        (x.next head = NULL ∨ (x.node (x.next head)).ptr < va)) := by
      rintro ⟨-, hnull | hptr⟩
      · exact hnext hnull
      · omega
    rw [ufreevaLoop, if_neg hhead, if_neg hstop] at h
    exact (Except.ok.inj h).symm

/-- A first entry that is lower is where the search stops. -/
theorem ufreevaLoop_below (hhead : head ≠ NULL) (hptr : va < (x.node head).ptr)
    (hnext : x.next head ≠ NULL) (hlt : (x.node (x.next head)).ptr < va)
    (h : ufreevaLoop va bound head x = .ok w) : w = x.next head := by
  cases bound with
  | zero => cases h
  | succ n =>
    rw [ufreevaLoop, if_neg hhead, if_pos ⟨hptr, Or.inr hlt⟩] at h
    cases n with
    | zero => cases h
    | succ n =>
      have hstop : ¬ ((x.node (x.next head)).ptr > va ∧ (x.next (x.next head) = NULL ∨
          (x.node (x.next (x.next head))).ptr < va)) := fun hgo => absurd hgo.1 (by omega)
      rw [ufreevaLoop, if_neg hnext, if_neg hstop] at h
      exact (Except.ok.inj h).symm

/-! ## What the insertion does to the first entry -/

theorem insertFreeva_ok (h : insertFreeva L w va npg x = .ok x') :
    ∃ newnode k, x' = (({ x with k := k } : FreevaMem).setNode newnode
      ⟨va, x.next w, npg⟩).setNode w
        { (({ x with k := k } : FreevaMem).setNode newnode ⟨va, x.next w, npg⟩).node w with
          next := newnode } := by
  simp only [insertFreeva, bind_eq_ok, pure_eq_ok] at h
  obtain ⟨⟨newnode, k⟩, -, rfl⟩ := h
  exact ⟨newnode, k, rfl⟩

/-- After the sentinel the returned address comes first, unless the sentinel is lost. -/
theorem ufreevaAt_sentinel (hptr : (x.node head).ptr = 2 ^ 64 - 1) (hnpg : (x.node head).npg = 0)
    (hva : va < 2 ^ 64 - 1) (hnext : x.next head ≠ NULL) (hself : x.next head ≠ head)
    (h : ufreevaAt L head va npg x = .ok x') (hkept : (x'.node head).ptr = 2 ^ 64 - 1) :
    (x'.node (x'.next head)).ptr = va := by
  have humerge : ¬ ((x.node head).ptr + (x.node head).npg * PGSIZE) % 2 ^ 64 = va := by
    rw [hptr, hnpg]
    omega
  simp only [ufreevaAt, if_neg hnext, humerge, decide_false, Bool.false_and, Bool.false_eq_true,
    if_false] at h
  split at h
  · cases h
    rw [FreevaMem.next_setNode_of_ne (Ne.symm hself)]
    exact congrArg FreevaNode.ptr FreevaMem.node_setNode_self
  · obtain ⟨newnode, k, rfl⟩ := insertFreeva_ok h
    by_cases hnew : newnode = head
    · subst hnew
      simp only [FreevaMem.node_setNode_self] at hkept
      omega
    · have hlink : ((({ x with k := k } : FreevaMem).setNode newnode
          ⟨va, x.next head, npg⟩).setNode head
            { (({ x with k := k } : FreevaMem).setNode newnode
              ⟨va, x.next head, npg⟩).node head with next := newnode }).next head = newnode := by
        rw [FreevaMem.next, FreevaMem.node_setNode_self]
      rw [hlink, FreevaMem.node_setNode_of_ne hnew, FreevaMem.node_setNode_self]

/-- At an entry the address of the entry stays, or the entry is linked to itself. -/
theorem ufreevaAt_entry (hw : w ≠ head) (hself : x.next w ≠ w) (hva : va < 2 ^ 64 - 1)
    (h : ufreevaAt L w va npg x = .ok x') (hkept : (x'.node head).ptr = 2 ^ 64 - 1) :
    x'.next head = x.next head ∧ ((x'.node w).ptr = (x.node w).ptr ∨ x'.next w = w) := by
  have hinsert : insertFreeva L w va npg x = .ok x' →
      x'.next head = x.next head ∧ ((x'.node w).ptr = (x.node w).ptr ∨ x'.next w = w) := by
    intro hcall
    obtain ⟨newnode, k, rfl⟩ := insertFreeva_ok hcall
    have hnew : newnode ≠ head := by
      rintro rfl
      rw [FreevaMem.node_setNode_of_ne (Ne.symm hw), FreevaMem.node_setNode_self] at hkept
      simp only at hkept
      omega
    rw [FreevaMem.next_setNode_of_ne (Ne.symm hw), FreevaMem.next_setNode_of_ne (Ne.symm hnew)]
    refine ⟨rfl, ?_⟩
    by_cases hw' : newnode = w
    · right
      rw [FreevaMem.next, FreevaMem.node_setNode_self]
      exact hw'
    · left
      rw [FreevaMem.node_setNode_self, FreevaMem.node_setNode_of_ne (Ne.symm hw')]
  have hset : ∀ (k : Kernel) (n : FreevaNode), n.ptr = (x.node w).ptr →
      (({ x with k := k } : FreevaMem).setNode w n).next head = x.next head ∧
        (((({ x with k := k } : FreevaMem).setNode w n).node w).ptr = (x.node w).ptr ∨
          (({ x with k := k } : FreevaMem).setNode w n).next w = w) := by
    intro k n hn
    rw [FreevaMem.next_setNode_of_ne (Ne.symm hw), FreevaMem.node_setNode_self]
    exact ⟨rfl, Or.inl hn⟩
  simp only [ufreevaAt] at h
  split at h
  · split at h
    · cases h
      exact hset x.k _ rfl
    · exact hinsert h
  split at h
  · simp only [bind_eq_ok, pure_eq_ok] at h
    obtain ⟨k, -, rfl⟩ := h
    exact hset k _ rfl
  split at h
  · cases h
    exact hset x.k _ rfl
  split at h
  · cases h
    have hne : head ≠ x.next w := by
      intro heq
      rw [heq, FreevaMem.node_setNode_self] at hkept
      simp only at hkept
      omega
    rw [FreevaMem.next_setNode_of_ne hne, FreevaMem.node_setNode_of_ne (Ne.symm hself)]
    exact ⟨rfl, Or.inl rfl⟩
  · exact hinsert h

/-! ## No list and no range -/

/-- The list that is left begins below a page that has to be free. -/
theorem not_leavesPages_of_first {pages : Set ℕ} (ha : a ∈ pages)
    (hfirst : ∀ bound x', ufreeva L head va npg bound x = .ok x' →
      (x'.node head).ptr = 2 ^ 64 - 1 →
        (x'.next head ≠ NULL → (x'.node (x'.next head)).ptr < a ∨
          x'.next (x'.next head) = x'.next head)) :
    ¬ LeavesPages L head va npg x pages := by
  rintro ⟨bound, x', l, hcall, hlists, hshape, rfl⟩
  have hnull : x'.next head ≠ NULL := by
    intro hnull
    rw [hlists.eq_nil hnull] at ha
    obtain ⟨f, hf, -⟩ := ha
    cases hf
  obtain ⟨f, rest, rfl, haddr, hptr, hrest⟩ := hlists.exists_cons hnull
  rcases hfirst bound x' hcall hlists.sentinel.1 hnull with hlt | hself
  · have hle := hshape.le_first ha
    omega
  · -- A second entry at the same address would have to be lower than the first.
    rw [hself] at hrest
    cases rest with
    | nil => exact hnull hrest
    | cons g rest =>
      have hlt := (List.pairwise_cons.mp hshape.descending).1 g List.mem_cons_self
      have hg := (hlists.fields g (by simp)).1
      rw [← hrest.1, ← hptr] at hg
      omega

/-- The call never adds a range to the list. -/
theorem not_leavesPages (hlists : Lists x head l) (hshape : FreeShape l) (hrange : InWindow va npg)
    (hdisj : Disjoint (freePages l) (runPages va npg)) :
    ¬ LeavesPages L head va npg x (freePages l ∪ runPages va npg) := by
  have hva := hrange.lt_sentinel
  have hptr : va < (x.node head).ptr := by
    rw [hlists.sentinel.1]
    exact hva
  by_cases hnull : x.next head = NULL
  · rintro ⟨bound, x', l', hcall, -⟩
    obtain ⟨w, hw, -⟩ := bind_eq_ok.mp hcall
    exact ufreevaLoop_empty hlists.head_ne hptr hnull hw
  obtain ⟨f, rest, rfl, haddr, hfptr, hrest⟩ := hlists.exists_cons hnull
  have hf : f.ptr ∈ freePages (f :: rest) :=
    ⟨f, List.mem_cons_self, (hshape.window f List.mem_cons_self).mem_runPages⟩
  have hself : x.next head ≠ head := by
    intro heq
    rw [heq, hlists.sentinel.1] at hfptr
    have hlt := (hshape.window f List.mem_cons_self).lt_sentinel
    omega
  have hne : f.ptr ≠ va := by
    intro heq
    exact Set.disjoint_left.mp hdisj hf (heq ▸ hrange.mem_runPages)
  rcases lt_or_gt_of_ne hne with hlt | hgt
  · refine not_leavesPages_of_first (Or.inr hrange.mem_runPages) fun bound x' hcall hkept _ => ?_
    obtain ⟨w, hw, hat⟩ := bind_eq_ok.mp hcall
    obtain rfl := ufreevaLoop_below hlists.head_ne hptr hnull (hfptr ▸ hlt) hw
    have hsecond : x.next (x.next head) ≠ x.next head := by
      intro heq
      rw [heq] at hrest
      cases rest with
      | nil => exact hnull hrest
      | cons g rest =>
        have hlower := (List.pairwise_cons.mp hshape.descending).1 g List.mem_cons_self
        have hg := (hlists.fields g (by simp)).1
        rw [← hrest.1, ← hfptr] at hg
        omega
    obtain ⟨hhead, hentry⟩ := ufreevaAt_entry hself hsecond hva hat hkept
    rw [hhead]
    rcases hentry with hentry | hentry
    · left
      rw [hentry, ← hfptr]
      exact hlt
    · exact Or.inr hentry
  · refine not_leavesPages_of_first (Or.inl hf) fun bound x' hcall hkept _ => Or.inl ?_
    obtain ⟨w, hw, hat⟩ := bind_eq_ok.mp hcall
    obtain rfl := ufreevaLoop_above hlists.head_ne hnull (hfptr ▸ hgt) hw
    rw [(ufreevaAt_sentinel hlists.sentinel.1 hlists.sentinel.2 hva hnull hself hat hkept)]
    exact hgt

/-! ## A range that `uallocva` has just returned -/

theorem le_of_mem_runPages {ptr : ℕ} (ha : a ∈ runPages ptr npg) :
    a ≤ ptr ∧ ptr < a + npg * PGSIZE := by
  obtain ⟨i, hi, rfl⟩ := ha
  have hlt : i * PGSIZE < npg * PGSIZE := Nat.mul_lt_mul_of_pos_right hi (by decide)
  omega

theorem mem_runPages {ptr : ℕ} (ha : a % PGSIZE = 0) (hptr : ptr % PGSIZE = 0) (hle : a ≤ ptr)
    (hlt : ptr < a + npg * PGSIZE) : a ∈ runPages ptr npg := by
  refine ⟨(ptr - a) / PGSIZE, ?_, ?_⟩
  · rw [Nat.div_lt_iff_lt_mul (by decide)]
    omega
  · simp only [PGSIZE] at ha hptr ⊢
    omega

/-- One entry lies below another with a gap between them. -/
def Below (g f : FreeVa) : Prop := g.ptr + f.npg * PGSIZE < f.ptr

/-- The shape in one relation: each entry ends above the next one. -/
theorem freeShape_iff : FreeShape l ↔
    (∀ f ∈ l, InWindow f.ptr f.npg) ∧ l.Pairwise fun f g => Below g f := by
  constructor
  · rintro ⟨hwindow, hdesc, hdisj, hapart⟩
    refine ⟨hwindow, ?_⟩
    refine ((hdesc.and hdisj).and hapart).imp_of_mem ?_
    rintro f g hf hg ⟨⟨hlt, hdisjoint⟩, hne⟩
    by_contra hover
    simp only [Below, not_lt] at hover
    have hmem : g.ptr ∈ runPages f.ptr f.npg :=
      mem_runPages (hwindow g hg).aligned (hwindow f hf).aligned hlt.le (by omega)
    exact Set.disjoint_left.mp hdisjoint hmem (hwindow g hg).mem_runPages
  · rintro ⟨hwindow, hbelow⟩
    refine ⟨hwindow, hbelow.imp fun {f g} h => ?_, hbelow.imp fun {f g} h => ?_,
      hbelow.imp fun {f g} h => h.ne⟩
    · exact lt_of_le_of_lt (Nat.le_add_right _ _) h
    · refine Set.disjoint_left.mpr fun a haf hag => ?_
      have hf := le_of_mem_runPages haf
      have hg := le_of_mem_runPages hag
      simp only [Below] at h
      omega

theorem freePages_append (l l' : List FreeVa) :
    freePages (l ++ l') = freePages l ∪ freePages l' := by
  ext a
  simp only [freePages, List.mem_append, Set.mem_ofPred_eq, Set.mem_union]
  constructor
  · rintro ⟨f, hf | hf, ha⟩
    · exact Or.inl ⟨f, hf, ha⟩
    · exact Or.inr ⟨f, hf, ha⟩
  · rintro (⟨f, hf, ha⟩ | ⟨f, hf, ha⟩)
    · exact ⟨f, Or.inl hf, ha⟩
    · exact ⟨f, Or.inr hf, ha⟩

theorem freePages_cons (f : FreeVa) (l : List FreeVa) :
    freePages (f :: l) = runPages f.ptr f.npg ∪ freePages l := by
  ext a
  simp [freePages]

/-- The first entry that is large enough is shortened from above or goes. -/
theorem uallocva_ok {l' : List FreeVa} (h : uallocva L npg l k = .ok (va, l', k')) :
    ∃ pre f post, l = pre ++ f :: post ∧ va = f.ptr ∧
      (f.npg = npg ∧ l' = pre ++ post ∨ npg < f.npg ∧ l' = pre ++
        ⟨f.addr, (f.ptr + 2 ^ 64 - npg * PGSIZE) % 2 ^ 64, f.npg - npg⟩ :: post) := by
  induction l generalizing l' k' with
  | nil => cases h
  | cons f rest ih =>
    simp only [uallocva] at h
    split at h
    · simp only [bind_eq_ok, pure_eq_ok, Prod.mk.injEq] at h
      obtain ⟨⟨va, l₁, k₁⟩, hrest, rfl, rfl, rfl⟩ := h
      obtain ⟨pre, g, post, rfl, hva, hcase⟩ := ih hrest
      refine ⟨f :: pre, g, post, rfl, hva, ?_⟩
      rcases hcase with ⟨hnpg, hl₁⟩ | ⟨hnpg, hl₁⟩
      · exact Or.inl ⟨hnpg, congrArg (f :: ·) hl₁⟩
      · exact Or.inr ⟨hnpg, congrArg (f :: ·) hl₁⟩
    · split at h
      · rename_i hnpg
        simp only [bind_eq_ok, pure_eq_ok, Prod.mk.injEq] at h
        obtain ⟨k₁, -, rfl, rfl, rfl⟩ := h
        exact ⟨[], f, rest, rfl, rfl, Or.inl ⟨hnpg, rfl⟩⟩
      · simp only [pure_eq_ok, Prod.mk.injEq] at h
        obtain ⟨rfl, rfl, rfl⟩ := h
        exact ⟨[], f, rest, rfl, rfl, Or.inr ⟨by omega, rfl⟩⟩

/-- An entry of a list of the right shape shares no page with the others. -/
theorem FreeShape.disjoint_entry {pre post : List FreeVa} (h : FreeShape (pre ++ f :: post)) :
    Disjoint (freePages (pre ++ post)) (runPages f.ptr f.npg) := by
  obtain ⟨hpre, hpost, hcross⟩ := List.pairwise_append.mp h.disjoint
  refine Set.disjoint_left.mpr ?_
  rintro a ⟨g, hg, hag⟩ haf
  rcases List.mem_append.mp hg with hg | hg
  · exact Set.disjoint_left.mp (hcross g hg f List.mem_cons_self) hag haf
  · exact Set.disjoint_left.mp ((List.pairwise_cons.mp hpost).1 g hg) haf hag

theorem runPages_split {ptr ptr' n : ℕ} (n' : ℕ) (hptr : ptr' + n * PGSIZE = ptr) :
    runPages ptr (n + n') = runPages ptr' n' ∪ runPages ptr n ∧
      Disjoint (runPages ptr' n') (runPages ptr n) := by
  constructor
  · ext a
    simp only [runPages, Set.mem_ofPred_eq, Set.mem_union]
    constructor
    · rintro ⟨i, hi, heq⟩
      by_cases hin : i < n
      · exact Or.inr ⟨i, hin, heq⟩
      · refine Or.inl ⟨i - n, by omega, ?_⟩
        have hsplit : i * PGSIZE = (i - n) * PGSIZE + n * PGSIZE := by
          rw [← Nat.add_mul, Nat.sub_add_cancel (not_lt.mp hin)]
        omega
    · rintro (⟨i, hi, heq⟩ | ⟨i, hi, heq⟩)
      · refine ⟨i + n, by omega, ?_⟩
        rw [Nat.add_mul]
        omega
      · exact ⟨i, by omega, heq⟩
  · refine Set.disjoint_left.mpr fun a ha ha' => ?_
    have hle := (le_of_mem_runPages ha).1
    have hlt := (le_of_mem_runPages ha').2
    omega

/-- `uallocva` moves a range out of the list. -/
theorem uallocva_takes {l' : List FreeVa} (hshape : FreeShape l) (hn : 1 ≤ npg)
    (h : uallocva L npg l k = .ok (va, l', k')) :
    FreeShape l' ∧ InWindow va npg ∧ Disjoint (freePages l') (runPages va npg) ∧
      freePages l' ∪ runPages va npg = freePages l := by
  obtain ⟨pre, f, post, rfl, rfl, ⟨rfl, rfl⟩ | ⟨hlt, rfl⟩⟩ := uallocva_ok h
  · have hsub : (pre ++ post).Sublist (pre ++ f :: post) :=
      List.Sublist.append_left (List.sublist_cons_self f post) pre
    refine ⟨⟨fun g hg => hshape.window g (hsub.subset hg), hshape.descending.sublist hsub,
      hshape.disjoint.sublist hsub, hshape.apart.sublist hsub⟩, hshape.window f (by simp),
      hshape.disjoint_entry, ?_⟩
    rw [freePages_append, freePages_append, freePages_cons]
    ac_rfl
  · have hwin := hshape.window f (by simp)
    obtain ⟨-, haligned, hlow, hhigh⟩ := hwin
    have htop : SHMTOP < 2 ^ 64 := by decide
    have hbytes : f.npg * PGSIZE = npg * PGSIZE + (f.npg - npg) * PGSIZE := by
      rw [← Nat.add_mul, Nat.add_sub_cancel' hlt.le]
    have hrest : PGSIZE ≤ (f.npg - npg) * PGSIZE := Nat.le_mul_of_pos_left _ (by omega)
    have hpage : PGSIZE = 4096 := rfl
    have hptr : (f.ptr + 2 ^ 64 - npg * PGSIZE) % 2 ^ 64 = f.ptr - npg * PGSIZE := by
      omega
    rw [hptr]
    have hcut : f.ptr - npg * PGSIZE + npg * PGSIZE = f.ptr := by omega
    obtain ⟨hpages, hdisj⟩ := runPages_split (f.npg - npg) hcut
    rw [Nat.add_sub_cancel' hlt.le] at hpages
    have hentry := hshape.disjoint_entry
    obtain ⟨hwindow, hbelow⟩ := freeShape_iff.mp hshape
    obtain ⟨hpre, hpost, hcross⟩ := List.pairwise_append.mp hbelow
    obtain ⟨hfirst, hpost⟩ := List.pairwise_cons.mp hpost
    refine ⟨freeShape_iff.mpr ⟨fun g hg => ?_, ?_⟩, ⟨hn, haligned, ?_, hhigh⟩, ?_, ?_⟩
    · rcases List.mem_append.mp hg with hg | hg
      · exact hwindow g (List.mem_append_left _ hg)
      · rcases List.mem_cons.mp hg with rfl | hg
        · refine ⟨by simp only; omega, ?_, ?_, ?_⟩
          · simp only [PGSIZE] at haligned ⊢
            omega
          · simp only
            omega
          · simp only
            omega
        · exact hwindow g (List.mem_append_right _ (List.mem_cons_of_mem _ hg))
    · refine List.pairwise_append.mpr ⟨hpre, List.pairwise_cons.mpr ⟨fun g hg => ?_, hpost⟩,
        fun g hg e he => ?_⟩
      · have hgap := hfirst g hg
        simp only [Below] at hgap ⊢
        omega
      · rcases List.mem_cons.mp he with rfl | he
        · have hgap := hcross g hg f List.mem_cons_self
          simp only [Below] at hgap ⊢
          omega
        · exact hcross g hg e (List.mem_cons_of_mem _ he)
    · omega
    · rw [freePages_append, freePages_cons, Set.disjoint_union_left, Set.disjoint_union_left]
      rw [freePages_append, Set.disjoint_union_left, hpages, Set.disjoint_union_right,
        Set.disjoint_union_right] at hentry
      exact ⟨hentry.1.2, hdisj, hentry.2.2⟩
    · rw [freePages_append, freePages_append, freePages_cons, freePages_cons, hpages]
      ac_rfl

/-- A sentinel at 8 and one entry at 16. -/
def oneEntry (k : Kernel) (ptr npg : ℕ) : FreevaMem where
  k := k
  node a := if a = 8 then ⟨2 ^ 64 - 1, 16, 0⟩ else ⟨ptr, NULL, npg⟩

theorem oneEntry_lists (k : Kernel) (ptr npg : ℕ) :
    Lists (oneEntry k ptr npg) 8 [⟨16, ptr, npg⟩] := by
  refine ⟨by decide, ⟨rfl, rfl⟩, ⟨rfl, (by decide : 16 ≠ NULL), rfl⟩, fun f hf => ?_⟩
  rw [List.mem_singleton.mp hf]
  exact ⟨rfl, rfl⟩

theorem oneEntry_shape {ptr npg : ℕ} (h : InWindow ptr npg) : FreeShape [⟨16, ptr, npg⟩] := by
  refine ⟨fun f hf => ?_, List.pairwise_singleton _ _, List.pairwise_singleton _ _,
    List.pairwise_singleton _ _⟩
  rw [List.mem_singleton.mp hf]
  exact h

/-- The first page of a new process is taken and returned: it comes after the entry that it
lies above. -/
theorem ufreeva_misplaces_first_page :
    ∃ k x, smallBoot smallLayout = .ok k ∧
      uallocva smallLayout 1 [⟨16, SHMTOP, windowPages⟩] k =
        .ok (SHMTOP, [⟨16, SHMTOP - PGSIZE, windowPages - 1⟩], k) ∧
      ufreeva smallLayout 8 SHMTOP 1 3 (oneEntry k (SHMTOP - PGSIZE) (windowPages - 1)) = .ok x ∧
      x.next 8 = 16 ∧ (x.node 16).ptr = SHMTOP - PGSIZE ∧ (x.node (x.next 16)).ptr = SHMTOP ∧
      ¬ LeavesPages smallLayout 8 SHMTOP 1 (oneEntry k (SHMTOP - PGSIZE) (windowPages - 1))
        (freePages [⟨16, SHMTOP, windowPages⟩]) := by
  have hrun : (smallBoot smallLayout).Yields fun k =>
      (ufreeva smallLayout 8 SHMTOP 1 3 (oneEntry k (SHMTOP - PGSIZE) (windowPages - 1))).Yields
        fun x => x.next 8 = 16 ∧ (x.node 16).ptr = SHMTOP - PGSIZE ∧
          (x.node (x.next 16)).ptr = SHMTOP := by
    decide +kernel
  obtain ⟨k, hk, x, hx, hnext, hptr, hlast⟩ := hrun
  have hcall : uallocva smallLayout 1 [⟨16, SHMTOP, windowPages⟩] k =
      .ok (SHMTOP, [⟨16, SHMTOP - PGSIZE, windowPages - 1⟩], k) := rfl
  refine ⟨k, x, hk, hcall, hx, hnext, hptr, hlast, ?_⟩
  obtain ⟨hshape, hrange, hdisj, hpages⟩ := uallocva_takes
    (oneEntry_shape ⟨by decide, by decide, by decide, by decide⟩) le_rfl hcall
  rw [← hpages]
  exact not_leavesPages (oneEntry_lists k _ _) hshape hrange hdisj

/-- `ufreeva` never adds a range to the list: not one that is disjoint from the free pages,
and not one that `uallocva` has just taken. -/
theorem ufreeva_never_returns (hlists : Lists x head l) (hshape : FreeShape l) :
    (∀ va npg, InWindow va npg → Disjoint (freePages l) (runPages va npg) →
      ¬ LeavesPages L head va npg x (freePages l ∪ runPages va npg)) ∧
    ∀ npg va l' k k' x', 1 ≤ npg → uallocva L npg l k = .ok (va, l', k') → Lists x' head l' →
      ¬ LeavesPages L head va npg x' (freePages l) := by
  refine ⟨fun va npg => not_leavesPages hlists hshape, ?_⟩
  intro npg va l' k k' x' hn hcall hlists'
  obtain ⟨hshape', hrange, hdisj, hpages⟩ := uallocva_takes hshape hn hcall
  rw [← hpages]
  exact not_leavesPages hlists' hshape' hrange hdisj

/-- The second page of the window is free and the first one is returned. -/
theorem ufreeva_never_returns_first_page :
    ∃ k, smallBoot smallLayout = .ok k ∧
      Lists (oneEntry k (SHMTOP - PGSIZE) 1) 8 [⟨16, SHMTOP - PGSIZE, 1⟩] ∧
      ¬ LeavesPages smallLayout 8 SHMTOP 1 (oneEntry k (SHMTOP - PGSIZE) 1)
        (freePages [⟨16, SHMTOP - PGSIZE, 1⟩] ∪ runPages SHMTOP 1) := by
  have hrun : (smallBoot smallLayout).Yields fun _ => True := by decide +kernel
  obtain ⟨k, hk, -⟩ := hrun
  have hlists := oneEntry_lists k (SHMTOP - PGSIZE) 1
  have hrange : InWindow SHMTOP 1 := ⟨le_rfl, by decide, by decide, le_rfl⟩
  refine ⟨k, hk, hlists, (ufreeva_never_returns hlists
    (oneEntry_shape ⟨le_rfl, by decide, by decide, by decide⟩)).1 SHMTOP 1 hrange ?_⟩
  refine Set.disjoint_left.mpr ?_
  rintro a ⟨f, hf, ha⟩ ha'
  rw [List.mem_singleton.mp hf] at ha
  have hle := (le_of_mem_runPages ha).1
  have hlt := (le_of_mem_runPages ha').2
  have hpos : PGSIZE ≤ SHMTOP := by decide
  simp only at hle
  omega

end LearnOS.Ipc
