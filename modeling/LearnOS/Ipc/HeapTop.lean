import LearnOS.Ipc.Frame
import LearnOS.Lib.Transition

/-!
# The end of the heap

`sbrk` moves the end of the heap by 32 bits at most and never compares it with
the window of the attachments, the trapframe and the trampoline. What keeps the
heap below the window is a bound on each growth.

## Implementation notes

Lazy faults accept the page that begins at `sz` itself, so the pages they treat
as heap reach the window as soon as `sz` is `HEAPTOP`.
-/

namespace LearnOS.Ipc

open LearnOS Transition Kres

variable {L : Layout} {k k' : Kernel} {p : Fin NPROC}
  {s s' : VmState}

/-- A step of the system with the calls of `sbrk` and the page faults. -/
inductive SpaceOp where
  | ipc (op : Op)
  | sbrk (p : Fin NPROC) (n : ℤ)
  | fault (p : Fin NPROC) (va : ℕ)

inductive SpaceStep (L : Layout) : Kernel → SpaceOp → Kernel → Prop
  | ipc {k k' : Kernel} {op : Op} (hstep : Step L k op k') : SpaceStep L k (.ipc op) k'
  | sbrk {k : Kernel} {p : Fin NPROC} {n r : ℤ} {vm : VmState} (hrun : Running k.vm p)
      (hidle : k.semCall p = none) (hn : -2 ^ 31 ≤ n ∧ n < 2 ^ 31)
      (hcall : sysSbrk L p n k.vm = .ok (r, vm)) : SpaceStep L k (.sbrk p n) { k with vm := vm }
  | fault {k : Kernel} {p : Fin NPROC} {va : ℕ} {vm : VmState} (hrun : Running k.vm p)
      (hidle : k.semCall p = none) (hcall : usertrapFault L (kalloc L) p va k.vm = .ok vm) :
      SpaceStep L k (.fault p va) { k with vm := vm }

/-! ## Sizes -/

/-- The size of process `i`. -/
def Kernel.size (i : Fin NPROC) (k : Kernel) : ℕ := (k.vm.proc i).sz

theorem size_blind (i : Fin NPROC) : SlotBlind (Kernel.size i) fun a b => b = a ∨ b = 0 where
  refl _ := Or.inl rfl
  trans a b c hab hbc := by
    rcases hbc with rfl | rfl
    · exact hab
    · exact Or.inr rfl
  heap _ _ := rfl
  table k p pt m := sz_setTable k.vm p i pt m
  nodes _ _ _ _ := rfl
  freeva _ _ := rfl
  reset k p free := by
    by_cases hi : i = p
    · subst hi
      simp [Kernel.size, Kernel.resetProc, VmState.setProc, Proc.reset]
    · simp [Kernel.size, Kernel.resetProc, Kernel.setWant, VmState.setProc, hi]
  slot _ _ _ _ := rfl
  shm _ _ _ := rfl
  msq _ _ _ := rfl
  msg _ _ _ := rfl
  values _ _ _ := rfl
  clearSet _ _ := Or.inl rfl

theorem size_quiet (i : Fin NPROC) : Quiet (Kernel.size i) where
  heap _ _ := rfl
  sem _ _ _ _ := rfl
  msq _ _ _ := rfl
  msg _ _ _ := rfl
  state k q st := by
    by_cases hi : i = q
    · subst hi
      simp [Kernel.size, Kernel.setState, VmState.setProc]
    · simp [Kernel.size, Kernel.setState, VmState.setProc, hi]
  want _ _ _ := rfl
  call _ _ _ := rfl

theorem size_exit (h : LearnOS.exit p s = .ok s') (i : Fin NPROC) :
    (s'.proc i).sz = (s.proc i).sz := by
  have hsz : ∀ pr : Proc, (reparent p s.initproc pr).sz = pr.sz := fun pr => by
    rw [reparent]
    split <;> rfl
  unfold LearnOS.exit at h
  split at h
  · cases h
  · cases h
    dsimp only
    split <;> exact hsz _

theorem size_pageFault {va : ℕ} (h : pageFault L (kalloc L) p va s = .ok s')
    (i : Fin NPROC) : (s'.proc i).sz = (s.proc i).sz := by
  unfold pageFault at h
  split at h
  · cases h
  simp only [bind_eq_ok] at h
  obtain ⟨pte, -, h⟩ := h
  cases pte with
  | none => cases h
  | some pte =>
    dsimp only at h
    split at h
    · simp only [bind_eq_ok, pure_eq_ok] at h
      obtain ⟨⟨r, pt', m⟩, -, rfl⟩ := h
      split
      · rw [sz_setkilled, sz_setTable]
      · rw [sz_setTable]
    split at h
    · split at h
      · cases h
        exact sz_setkilled ..
      simp only [bind_eq_ok] at h
      obtain ⟨r, -, h⟩ := h
      split at h
      · cases h
        exact sz_setkilled ..
      simp only [bind_eq_ok, pure_eq_ok] at h
      obtain ⟨⟨page, pt', m⟩, -, rfl⟩ := h
      split
      · rw [sz_setkilled, sz_setTable]
      · rw [sz_setTable]
    · cases h
      exact sz_setkilled ..

theorem size_usertrapFault {va : ℕ}
    (h : usertrapFault L (kalloc L) p va s = .ok s') (i : Fin NPROC) :
    (s'.proc i).sz = (s.proc i).sz := by
  simp only [usertrapFault, bind_eq_ok] at h
  obtain ⟨s₁, hfault, h⟩ := h
  rw [← size_pageFault hfault i]
  split at h
  · exact size_exit h i
  · cases h
    rfl

theorem size_setProc (s : VmState) (p i : Fin NPROC) (pr : Proc) :
    ((s.setProc p pr).proc i).sz = if i = p then pr.sz else (s.proc i).sz := by
  by_cases hi : i = p
  · subst hi
    simp [VmState.setProc]
  · simp [VmState.setProc, hi]

/-- The child of a `fork` has the size of its parent. -/
theorem size_forkVm {r : Option (Fin NPROC)}
    (h : LearnOS.fork L (kalloc L) p s = .ok (r, s')) (i : Fin NPROC) :
    (s'.proc i).sz = (s.proc i).sz ∨ (s'.proc i).sz = (s.proc p).sz := by
  rcases fork_ok h with ⟨-, rfl, -⟩ | ⟨np, s₁, trapframe, old, new, old', new', -, hdone⟩
  · exact Or.inl rfl
  by_cases hi : i = np
  · rw [hi, hdone.child]
    exact Or.inr rfl
  by_cases hip : i = p
  · subst hip
    rw [hdone.parent hi]
    exact Or.inl rfl
  · rw [hdone.other hip hi]
    exact Or.inl rfl

/-- No IPC call makes a process larger than some process was. -/
theorem size_step {op : Op} (h : Step L k op k') (i : Fin NPROC) :
    k'.size i = 0 ∨ ∃ j, k'.size i = k.size j := by
  cases h.call with
  | semget hcall => exact Or.inr ⟨i, (size_blind i).semget (fun _ _ _ => rfl) hcall⟩
  | semop hcall => exact Or.inr ⟨i, semop_quiet (size_quiet i) hcall⟩
  | resume hcall => exact Or.inr ⟨i, semopResume_quiet (size_quiet i) hcall⟩
  | @fork _ p _ hcall =>
    obtain ⟨vm, hvm, hsize⟩ := fork_sharing (size_blind i).sharing hcall
    rw [hsize]
    rcases size_forkVm hvm i with hsame | hparent
    · exact Or.inr ⟨i, hsame⟩
    · exact Or.inr ⟨p, hparent⟩
  | exit hcall =>
    simp only [exit, bind_eq_ok, pure_eq_ok] at hcall
    obtain ⟨vm, hvm, rfl⟩ := hcall
    exact Or.inr ⟨i, size_exit hvm i⟩
  | @kill _ q =>
    refine Or.inr ⟨i, ?_⟩
    change (((k.vm.setProc q _).proc i).sz) = (k.vm.proc i).sz
    rw [size_setProc]
    split
    · next hi => rw [hi]
    · rfl
  | _ =>
    rcases h.call.slotBlind (size_blind i) rfl with hsame | hzero
    · exact Or.inr ⟨i, hsame⟩
    · exact Or.inl hzero

/-! ## The window -/

/-- The heap of a process of size `sz` and the window share no page: neither one
that a lazy fault may map, nor one that the loops of `uvmcopy` and `uvmfree`
pass, and these loops call `walk` below `MAXVA`. -/
structure HeapApart (sz : ℕ) : Prop where
  top : sz ≤ HEAPTOP
  fault : ∀ va, ¬ pgrounddown va > sz → va < HEAPTOP
  copy : ∀ i < pgroundup sz / PGSIZE, i * PGSIZE < HEAPTOP
  free : ∀ i < pgroundup64 sz / PGSIZE, i * PGSIZE < HEAPTOP
  walk : ∀ i < pgroundup sz / PGSIZE, ∀ pt, LearnOS.walk pt (i * PGSIZE) = .ok (pt.pte? i)

theorem heapApart_of_lt {sz : ℕ} (h : sz < HEAPTOP) : HeapApart sz := by
  have htop : HEAPTOP = 273804165120 := rfl
  have hmax : MAXVA = 274877906944 := rfl
  have hpage : PGSIZE = 4096 := rfl
  have hround : pgroundup64 sz = pgroundup sz :=
    Nat.mod_eq_of_lt (by simp only [pgroundup, hpage]; omega)
  have hloop : ∀ i < pgroundup sz / PGSIZE, i * PGSIZE < HEAPTOP := by
    intro i hi
    exact (below_iff.mp hi).trans h
  refine ⟨h.le, ?_, hloop, hround ▸ hloop, ?_⟩
  · intro va hva
    rw [pgrounddown, hpage] at hva
    omega
  · intro i hi pt
    rw [LearnOS.walk, if_neg, Nat.mul_div_cancel _ (by decide)]
    have := hloop i hi
    omega

theorem HeapApart.lt {sz : ℕ} (h : HeapApart sz) : sz < HEAPTOP := by
  refine h.top.lt_of_ne fun hsz => ?_
  have hpage := h.fault HEAPTOP (by rw [hsz]; decide)
  exact lt_irrefl _ hpage

/-- A growing `sbrk` stays below the window. -/
def GrowsBelow (k : Kernel) : SpaceOp → Prop
  | .sbrk p n => 0 < n → k.size p + n < HEAPTOP
  | _ => True

theorem size_sbrk {n r : ℤ} {vm : VmState} (h : sysSbrk L p n k.vm = .ok (r, vm)) (i : Fin NPROC) :
    (vm.proc i).sz =
      if 0 < n ∧ i = p then (k.size p + n.toNat) % 2 ^ 64 else k.size i := by
  obtain ⟨hn, rfl⟩ | ⟨hn, rfl | ⟨pt, pt', m', r', -, -, rfl⟩⟩ := sysSbrk_ok h
  · rw [size_setProc]
    simp only [hn, true_and]
    rfl
  · rw [if_neg (by omega)]
    rfl
  · rw [if_neg (by omega), sz_setTable]
    rfl

theorem heap_step {op : SpaceOp} (h : ∀ i, k.size i < HEAPTOP) (hstep : SpaceStep L k op k') :
    (∀ i, k'.size i < HEAPTOP) ↔ GrowsBelow k op := by
  cases hstep with
  | ipc hstep =>
    refine iff_of_true (fun i => ?_) trivial
    rcases size_step hstep i with hzero | ⟨j, hj⟩
    · rw [hzero]
      decide
    · rw [hj]
      exact h j
  | fault hrun hidle hcall =>
    refine iff_of_true (fun i => ?_) trivial
    exact (size_usertrapFault hcall i).trans_lt (h i)
  | @sbrk p n r vm hrun hidle hn hcall =>
    have hsize := size_sbrk hcall
    -- below the window the sum of a size and an `int` does not wrap
    have hsum : 0 < n → (k.size p + n.toNat) % 2 ^ 64 = k.size p + n.toNat := by
      intro hpos
      have htop : HEAPTOP = 273804165120 := rfl
      have hp := h p
      exact Nat.mod_eq_of_lt (by omega)
    constructor
    · intro hk hpos
      have hp := hk p
      change (vm.proc p).sz < HEAPTOP at hp
      rw [hsize, if_pos ⟨hpos, rfl⟩, hsum hpos] at hp
      omega
    · intro hok i
      change (vm.proc i).sz < HEAPTOP
      rw [hsize]
      split
      · next hi =>
          have hlt := hok hi.1
          rw [hsum hi.1]
          omega
      · exact h i

/-- From any state whose heaps lie below the window, the heaps stay apart from
the window exactly as long as every growing `sbrk` ends below it. -/
theorem heap_apart_iff {run : List (SpaceOp × Kernel)} (h : ∀ i, k.size i < HEAPTOP)
    (hrun : IsRun (SpaceStep L) k run) :
    (∀ t ∈ visited k run, ∀ i, HeapApart (t.size i)) ↔ Along GrowsBelow k run := by
  refine IsRun.visited_iff_along GrowsBelow (fun _ => True)
    (fun t => ∀ i, HeapApart (t.size i)) ?_ ?_ trivial (fun i => heapApart_of_lt (h i)) hrun
  · intro s op t _ hs hok hstep
    refine ⟨trivial, fun i => heapApart_of_lt ?_⟩
    exact (heap_step (fun i => (hs i).lt) hstep).mpr hok i
  · intro s op t _ hs hno hstep ht
    exact hno ((heap_step (fun i => (hs i).lt) hstep).mp fun i => (ht i).lt)

/-! ## A process that keeps growing -/

/-- `n` calls of `sbrk` with the largest argument. -/
theorem exists_sbrk_run (n : ℕ) {k : Kernel} (hrun : Running k.vm p) (hidle : k.semCall p = none)
    (hsz : k.size p + n * (2 ^ 31 - 1) < 2 ^ 64) :
    ∃ run : List (SpaceOp × Kernel), IsRun (SpaceStep L) k run ∧
      run.map Prod.fst = List.replicate n (.sbrk p (2 ^ 31 - 1)) ∧
      (last k run).size p = k.size p + n * (2 ^ 31 - 1) := by
  induction n generalizing k with
  | zero => exact ⟨[], trivial, rfl, by simp [last]⟩
  | succ n ih =>
    let vm := k.vm.setProc p { k.vm.proc p with
      sz := ((k.vm.proc p).sz + (2 ^ 31 - 1 : ℤ).toNat) % 2 ^ 64 }
    have hcall : sysSbrk L p (2 ^ 31 - 1) k.vm = .ok ((k.vm.proc p).sz, vm) := by
      simp only [sysSbrk]
      rw [if_pos (by decide)]
    have hsize : (vm.proc p).sz = k.size p + (2 ^ 31 - 1) := by
      rw [size_sbrk hcall, if_pos ⟨by decide, rfl⟩]
      have hnat : (2 ^ 31 - 1 : ℤ).toNat = 2 ^ 31 - 1 := by decide
      rw [hnat]
      exact Nat.mod_eq_of_lt (by omega)
    have hnext : Running vm p := by
      simpa [Running, vm, VmState.setProc] using hrun
    obtain ⟨run, hruns, hops, hlast⟩ := ih (k := { k with vm := vm }) hnext hidle (by
      change (vm.proc p).sz + _ < _
      omega)
    refine ⟨(.sbrk p (2 ^ 31 - 1), { k with vm := vm }) :: run,
      ⟨.sbrk hrun hidle (by decide) hcall, hruns⟩, ?_, ?_⟩
    · rw [List.map_cons, hops, List.replicate_succ]
    · change (last { k with vm := vm } run).size p = _
      rw [hlast]
      change (vm.proc p).sz + _ = _
      omega

/-- What the first process needs for calls of `sbrk`. -/
theorem smallBoot_ready : ∃ k₀, smallBoot smallLayout = .ok k₀ ∧ Running k₀.vm 0 ∧
    k₀.semCall 0 = none ∧ k₀.size 0 = PGSIZE ∧ ∀ i, k₀.size i < HEAPTOP := by
  have hboot : (smallBoot smallLayout).Yields fun k => Running k.vm 0 ∧ k.semCall 0 = none ∧
      k.size 0 = PGSIZE ∧ ∀ i, k.size i < HEAPTOP := by
    decide +kernel
  exact hboot

/-- The first process calls `sbrk` 128 times and its heap has passed the whole
window up to the trampoline. -/
theorem heap_grows_into_window :
    ∃ k₀ run, smallBoot smallLayout = .ok k₀ ∧ IsRun (SpaceStep smallLayout) k₀ run ∧
      run.map Prod.fst = List.replicate 128 (.sbrk 0 (2 ^ 31 - 1)) ∧
      TRAMPOLINE < (last k₀ run).size 0 ∧ ∃ t ∈ visited k₀ run, ¬ HeapApart (t.size 0) := by
  obtain ⟨k₀, hk₀, hrun, hidle, hsize, -⟩ := smallBoot_ready
  have hpage : PGSIZE = 4096 := rfl
  have htop : TRAMPOLINE = 274877902848 := rfl
  obtain ⟨run, hruns, hops, hlast⟩ := exists_sbrk_run (L := smallLayout) 128 hrun hidle (by omega)
  refine ⟨k₀, run, hk₀, hruns, hops, by omega, last k₀ run, last_mem_visited k₀ run, ?_⟩
  intro hapart
  have hlt := hapart.lt
  have : HEAPTOP = 273804165120 := rfl
  omega

/-- One call of `sbrk` of the first process stays below the window. -/
theorem heap_apart_after_sbrk :
    ∃ k₀ run, smallBoot smallLayout = .ok k₀ ∧ IsRun (SpaceStep smallLayout) k₀ run ∧
      run.map Prod.fst = [.sbrk 0 (2 ^ 31 - 1)] ∧
      ∀ t ∈ visited k₀ run, ∀ i, HeapApart (t.size i) := by
  obtain ⟨k₀, hk₀, hrun, hidle, hsize, hall⟩ := smallBoot_ready
  have hpage : PGSIZE = 4096 := rfl
  obtain ⟨run, hruns, hops, -⟩ := exists_sbrk_run (L := smallLayout) 1 hrun hidle (by omega)
  refine ⟨k₀, run, hk₀, hruns, hops, (heap_apart_iff hall hruns).mpr ?_⟩
  cases run with
  | nil => cases hops
  | cons x rest =>
    obtain ⟨op, t⟩ := x
    obtain ⟨rfl, hrest⟩ := List.cons.inj hops
    obtain rfl : rest = [] := List.map_eq_nil_iff.mp hrest
    refine ⟨fun _ => ?_, trivial⟩
    have : HEAPTOP = 273804165120 := rfl
    omega

end LearnOS.Ipc
