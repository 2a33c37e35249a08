import LearnOS.Mem.Kalloc

/-!
# Counted pages under concurrent calls

`kalloc` takes a page under `buddy.lock` and sets its count under `ref.lock`; `kfree`
lowers the count under `ref.lock` and gives the page back under `buddy.lock`. A call
holds no lock between its two sections. A step of this model is one section of one
caller, so a run is an interleaving of any number of calls.

## Main results

`counted_page_freed_once`: each page that `kalloc` returns goes back to the buddy
allocator once, from the `kfree` that drops its last reference.

## Implementation notes

A caller is whatever executes a call: a process on some CPU, or an interrupt handler.
The references are ghost state. They count what the calls have handed out, and the
code reads `ref.cnt` only.
-/

namespace LearnOS

open Transition Ownership Function Kres

/-- Where a caller stands. -/
inductive CallPoint where
  | idle
  /-- In `kalloc`: the page is off the free lists and its count is not set. -/
  | taken (pa : ℕ)
  /-- In `kfree`: the count has become zero and the page is not on a free list. -/
  | dropped (pa : ℕ)
deriving DecidableEq

/-- Memory, the callers, and the references to each page. -/
structure CountedState (C : Type) where
  mem : KMem
  point : C → CallPoint
  refs : ℕ → ℕ

/-- The sections of `kalloc` (`take`, `count`), `kaddrefcnt` (`add`) and `kfree`
(`drop`, `giveBack`). -/
inductive PageSection (C : Type) where
  | take (c : C)
  | count (c : C)
  | add (c : C) (pa : ℕ)
  | drop (c : C) (pa : ℕ)
  | giveBack (c : C)

variable {C : Type} [DecidableEq C]

/-- A section is entered by a caller that stands before it. -/
def PageSection.exec (L : Layout) : PageSection C → CountedState C → Kres (CountedState C)
  | .take c, s =>
    if s.point c = .idle then do
      let (result, b) ← buddyAlloc L 0 s.mem.buddy
      return { s with
        mem := { s.mem with buddy := b }, point := update s.point c (.taken result) }
    else throw .undefined
  | .count c, s =>
    match s.point c with
    | .taken pa =>
      if pa = NULL then throw .nullStore
      else return {
        mem := (s.mem.setCnt pa 1).memset pa 0
        point := update s.point c .idle
        refs := update s.refs pa (s.refs pa + 1) }
    | _ => throw .undefined
  | .add c pa, s =>
    if s.point c = .idle then
      let (r, m) := kaddrefcnt L pa s.mem
      if r = 0 then
        return { s with mem := m, refs := update s.refs pa (s.refs pa + 1) }
      else return { s with mem := m }
    else throw .undefined
  | .drop c pa, s =>
    if s.point c = .idle then
      if badPage L pa then throw (.panic "kfree")
      else
        let m := s.mem.setCnt pa (s.mem.cnt (pa / PGSIZE) - 1)
        return {
          mem := m
          point := if m.cnt (pa / PGSIZE) = 0 then update s.point c (.dropped pa)
            else s.point
          refs := update s.refs pa (s.refs pa - 1) }
    else throw .undefined
  | .giveBack c, s =>
    match s.point c with
    | .dropped pa => do
        let m := s.mem.memset pa 1
        let b ← buddyFree L pa 0 m.buddy
        return { s with
          mem := { m with buddy := b }, point := update s.point c .idle }
    | _ => throw .undefined

def PageStep (L : Layout) (s : CountedState C) (a : PageSection C) (t : CountedState C) : Prop :=
  a.exec L s = .ok t

variable {L : Layout} {s t : CountedState C} {c : C} {pa : ℕ} {live : List (ℕ × ℕ)}

/-! ## The calls are made of their sections -/

/-- `kalloc` is what a caller does that is not interrupted. -/
theorem kalloc_sections (hidle : s.point c = .idle) :
    (PageSection.take c).exec L s >>= (PageSection.count c).exec L =
      kalloc L s.mem >>= fun r =>
        .ok ⟨r.2, s.point, update s.refs r.1 (s.refs r.1 + 1)⟩ := by
  have hpoint : update s.point c .idle = s.point := by
    rw [← hidle, update_eq_self]
  simp only [PageSection.exec, hidle, if_true, kalloc, bind_assoc, pure_bind,
    update_self, update_idem, hpoint]
  refine bind_congr fun r => ?_
  by_cases hnull : r.1 = NULL
  · simp only [hnull, if_true]
    rfl
  · simp only [hnull, if_false]
    rfl

/-- So is `kfree`. -/
theorem kfree_sections (hidle : s.point c = .idle) :
    (PageSection.drop c pa).exec L s >>= (fun t =>
        if t.point c = .dropped pa then (PageSection.giveBack c).exec L t else .ok t) =
      kfree L pa s.mem >>= fun m =>
        .ok ⟨m, s.point, update s.refs pa (s.refs pa - 1)⟩ := by
  have hpoint : update s.point c .idle = s.point := by
    rw [← hidle, update_eq_self]
  simp only [PageSection.exec, hidle, if_true, kfree]
  by_cases hbad : badPage L pa
  · simp only [hbad, if_true]
    rfl
  · simp only [hbad, if_false, pure_bind]
    by_cases hzero : (s.mem.setCnt pa (s.mem.cnt (pa / PGSIZE) - 1)).cnt (pa / PGSIZE) = 0
    · simp only [hzero, if_true, update_self, update_idem, hpoint, bind_assoc,
        pure_bind]
      rfl
    · simp only [hzero, if_false, hidle, reduceCtorEq, pure_bind]

/-! ## What one section does -/

theorem PageStep.take_inv (h : PageStep L s (.take c) t) :
    s.point c = .idle ∧ ∃ result b, buddyAlloc L 0 s.mem.buddy = .ok (result, b) ∧
      t = ⟨{ s.mem with buddy := b }, update s.point c (.taken result), s.refs⟩ := by
  simp only [PageStep, PageSection.exec] at h
  split at h
  · rename_i hidle
    obtain ⟨⟨result, b⟩, halloc, hstep⟩ := bind_eq_ok.mp h
    cases hstep
    exact ⟨hidle, result, b, halloc, rfl⟩
  · cases h

theorem PageStep.count_inv (h : PageStep L s (.count c) t) :
    ∃ pa, s.point c = .taken pa ∧ pa ≠ NULL ∧
      t = ⟨(s.mem.setCnt pa 1).memset pa 0, update s.point c .idle,
        update s.refs pa (s.refs pa + 1)⟩ := by
  simp only [PageStep, PageSection.exec] at h
  split at h
  · rename_i pa hpoint
    split at h
    · cases h
    · rename_i hnull
      cases h
      exact ⟨pa, hpoint, hnull, rfl⟩
  · cases h

theorem PageStep.add_inv (h : PageStep L s (.add c pa) t) :
    s.point c = .idle ∧ (badPage L pa ∧ t = s ∨ ¬ badPage L pa ∧
      t = ⟨s.mem.setCnt pa (s.mem.cnt (pa / PGSIZE) + 1), s.point,
        update s.refs pa (s.refs pa + 1)⟩) := by
  simp only [PageStep, PageSection.exec] at h
  split at h
  · rename_i hidle
    refine ⟨hidle, ?_⟩
    by_cases hbad : badPage L pa
    · simp only [kaddrefcnt, if_pos hbad] at h
      cases h
      exact Or.inl ⟨hbad, rfl⟩
    · simp only [kaddrefcnt, if_neg hbad, if_true] at h
      cases h
      exact Or.inr ⟨hbad, rfl⟩
  · cases h

theorem PageStep.drop_inv (h : PageStep L s (.drop c pa) t) :
    s.point c = .idle ∧ ¬ badPage L pa ∧
      t = ⟨s.mem.setCnt pa (s.mem.cnt (pa / PGSIZE) - 1),
        if (s.mem.setCnt pa (s.mem.cnt (pa / PGSIZE) - 1)).cnt (pa / PGSIZE) = 0 then
          update s.point c (.dropped pa) else s.point,
        update s.refs pa (s.refs pa - 1)⟩ := by
  simp only [PageStep, PageSection.exec] at h
  split at h
  · rename_i hidle
    split at h
    · cases h
    · rename_i hbad
      cases h
      exact ⟨hidle, hbad, rfl⟩
  · cases h

theorem PageStep.giveBack_inv (h : PageStep L s (.giveBack c) t) :
    ∃ pa b, s.point c = .dropped pa ∧
      t = ⟨{ s.mem.memset pa 1 with buddy := b }, update s.point c .idle, s.refs⟩ := by
  simp only [PageStep, PageSection.exec] at h
  split at h
  · rename_i pa hpoint
    obtain ⟨b, hfree, hstep⟩ := bind_eq_ok.mp h
    cases hstep
    exact ⟨pa, b, hpoint, rfl⟩
  · cases h

/-! ## The invariant -/

/-- The page that a caller has in its hands. -/
def CallPoint.page : CallPoint → Option ℕ
  | .idle => none
  | .taken pa => if pa = NULL then none else some pa
  | .dropped pa => some pa

/-- A page belongs to its references or to one caller. -/
def CountedState.own (s : CountedState C) : ℕ ⊕ C → Option ℕ
  | .inl pa => if 0 < s.refs pa then some pa else none
  | .inr c => (s.point c).page

theorem own_setPoint (s : CountedState C) (m : KMem) (c : C) (x : CallPoint) :
    CountedState.own ⟨m, update s.point c x, s.refs⟩ =
      update s.own (.inr c) x.page := by
  funext k
  rcases k with pa | d
  · rw [update_of_ne (by simp)]
    rfl
  · by_cases hd : d = c
    · subst hd
      simp [CountedState.own]
    · rw [update_of_ne (by simpa using hd)]
      simp [CountedState.own, hd]

theorem own_setRefs (s : CountedState C) (m : KMem) (pa n : ℕ) :
    CountedState.own ⟨m, s.point, update s.refs pa n⟩ =
      update s.own (.inl pa) (if 0 < n then some pa else none) := by
  funext k
  rcases k with p | d
  · by_cases hp : p = pa
    · subst hp
      simp [CountedState.own]
    · rw [update_of_ne (by simpa using hp)]
      simp [CountedState.own, hp]
  · rw [update_of_ne (by simp)]
    rfl

/-- A page changes its name. -/
theorem Tracked.rename {κ : Type} [DecidableEq κ] {m : KMem} {own : κ → Option ℕ}
    (h : Tracked L m live own) {i : κ} (hp : own i = some pa) (j : κ) :
    Tracked L m live (update (update own i none) j (some pa)) where
  heap := h.heap
  held k p hk := by
    rcases eq_some_of_update hk with ⟨-, rfl⟩ | ⟨-, hk⟩
    · exact h.held i _ hp
    · exact h.held k p (h.exclusive.dropped hp hk).1
  exclusive := by
    refine Exclusive.acquire (h.exclusive.mono fun k p hk => (h.exclusive.dropped hp hk).1) j ?_
    intro k hk
    exact (h.exclusive.dropped hp hk).2 rfl

/-- Every page with a reference or in the hands of a caller is off the free lists, and
the counts are those of the references. -/
structure CountedInv (L : Layout) (live : List (ℕ × ℕ)) (s : CountedState C) : Prop where
  tracked : Tracked L s.mem live s.own
  cnt : ∀ pa, 0 < s.refs pa → (s.mem.cnt (pa / PGSIZE)).toNat = s.refs pa

omit [DecidableEq C] in
theorem own_inl (h : 0 < s.refs pa) : s.own (.inl pa) = some pa := if_pos h

omit [DecidableEq C] in
/-- What a caller has in its hands has no reference. -/
theorem CountedInv.refs_eq_zero (h : CountedInv L live s) (hpage : (s.point c).page = some pa) :
    s.refs pa = 0 := by
  by_contra hne
  have heq := h.tracked.exclusive (.inl pa) (.inr c) pa (own_inl (Nat.pos_of_ne_zero hne)) hpage
  cases heq

omit [DecidableEq C] in
theorem CountedInv.frame_ne (h : CountedInv L live s) {k : ℕ ⊕ C} {p : ℕ}
    (hk : s.own k = some pa) (hp : 0 < s.refs p) (hne : p ≠ pa) : p / PGSIZE ≠ pa / PGSIZE := by
  intro heq
  exact hne (page_eq_of_frame_eq (h.tracked.not_badPage (own_inl hp)) (h.tracked.not_badPage hk)
    heq)

theorem CountedInv.take (h : CountedInv L live s) (hstep : PageStep L s (.take c) t) :
    ∃ live', CountedInv L live' t := by
  obtain ⟨hidle, result, b, halloc, rfl⟩ := hstep.take_inv
  have hheap := heapInv_alloc h.tracked.heap (Nat.zero_le _) halloc
  by_cases hnull : result = NULL
  · have hown : CountedState.own ⟨{ s.mem with buddy := b },
        update s.point c (.taken result), s.refs⟩ = s.own := by
      rw [own_setPoint, CallPoint.page, if_pos hnull,
        ← show s.own (.inr c) = none from congrArg CallPoint.page hidle, update_eq_self]
    rw [if_pos hnull] at hheap
    refine ⟨live, ⟨hheap, ?_, ?_⟩, h.cnt⟩
    · rw [hown]
      exact h.tracked.held
    · rw [hown]
      exact h.tracked.exclusive
  · have hown : CountedState.own ⟨{ s.mem with buddy := b },
        update s.point c (.taken result), s.refs⟩ =
          update s.own (.inr c) (some result) := by
      rw [own_setPoint, CallPoint.page, if_neg hnull]
    rw [if_neg hnull] at hheap
    have hfresh : (result, 0) ∉ live := (List.nodup_cons.mp hheap.nodup).1
    refine ⟨(result, 0) :: live, ⟨hheap, fun k p hk => ?_, ?_⟩, h.cnt⟩
    · rw [hown] at hk
      rcases eq_some_of_update hk with ⟨-, rfl⟩ | ⟨-, hk⟩
      · exact List.mem_cons_self
      · exact List.mem_cons_of_mem _ (h.tracked.held k p hk)
    · rw [hown]
      exact h.tracked.exclusive.acquire _ fun k hk => hfresh (h.tracked.held k _ hk)

theorem CountedInv.count (h : CountedInv L live s) (hstep : PageStep L s (.count c) t) :
    CountedInv L live t := by
  obtain ⟨pa, hpoint, hnull, rfl⟩ := hstep.count_inv
  have hpage : (s.point c).page = some pa := by rw [hpoint, CallPoint.page, if_neg hnull]
  have hzero := h.refs_eq_zero hpage
  have hown : CountedState.own ⟨(s.mem.setCnt pa 1).memset pa 0,
      update s.point c .idle, update s.refs pa (s.refs pa + 1)⟩ =
      update (update s.own (.inr c) none) (.inl pa) (some pa) := by
    rw [own_setRefs ⟨s.mem, update s.point c .idle, s.refs⟩, own_setPoint s,
      if_pos (Nat.succ_pos _)]
    rfl
  have hrename := h.tracked.rename (i := .inr c) hpage (.inl pa)
  refine ⟨?_, fun p hp => ?_⟩
  · rw [hown]
    exact ⟨hrename.heap, hrename.held, hrename.exclusive⟩
  · by_cases hpp : p = pa
    · subst hpp
      simp [KMem.memset, hzero]
    · simp only [update_of_ne hpp] at hp ⊢
      have hne := h.frame_ne (k := .inr c) hpage hp hpp
      simpa [KMem.memset, KMem.setCnt, hne] using h.cnt p hp

theorem toNat_one : (1 : BitVec 32).toNat = 1 := rfl

theorem CountedInv.add (h : CountedInv L live s) (hpos : 0 < s.refs pa)
    (hmax : s.refs pa + 1 < 2 ^ 32) (hstep : PageStep L s (.add c pa) t) :
    CountedInv L live t := by
  have hok := h.tracked.not_badPage (own_inl hpos)
  obtain ⟨-, ⟨hbad, -⟩ | ⟨-, rfl⟩⟩ := hstep.add_inv
  · exact absurd hbad hok
  · have hown : CountedState.own ⟨s.mem.setCnt pa (s.mem.cnt (pa / PGSIZE) + 1), s.point,
        update s.refs pa (s.refs pa + 1)⟩ = s.own := by
      rw [own_setRefs, if_pos (Nat.succ_pos _), ← own_inl hpos, update_eq_self]
    refine ⟨?_, fun p hp => ?_⟩
    · rw [hown]
      exact ⟨h.tracked.heap, h.tracked.held, h.tracked.exclusive⟩
    · by_cases hpp : p = pa
      · subst hpp
        have hcnt := h.cnt p hpos
        simp only [update_self, KMem.setCnt_cnt_self]
        rw [BitVec.toNat_add, hcnt, toNat_one, Nat.mod_eq_of_lt hmax]
      · simp only [update_of_ne hpp] at hp ⊢
        have hne := h.frame_ne (own_inl hpos) hp hpp
        simpa [KMem.setCnt, hne] using h.cnt p hp

omit [DecidableEq C] in
/-- The count becomes zero exactly when the last reference goes. -/
theorem CountedInv.cnt_drop (h : CountedInv L live s) (hpos : 0 < s.refs pa) :
    (s.mem.cnt (pa / PGSIZE) - 1).toNat = s.refs pa - 1 := by
  have hcnt := h.cnt pa hpos
  have hlt := (s.mem.cnt (pa / PGSIZE)).isLt
  rw [BitVec.toNat_sub, hcnt, toNat_one]
  omega

omit [DecidableEq C] in
theorem CountedInv.dropped_iff (h : CountedInv L live s) (hpos : 0 < s.refs pa) :
    s.mem.cnt (pa / PGSIZE) - 1 = 0 ↔ s.refs pa = 1 := by
  rw [← BitVec.toNat_inj, h.cnt_drop hpos, show (0 : BitVec 32).toNat = 0 from rfl]
  omega

theorem CountedInv.drop (h : CountedInv L live s) (hpos : 0 < s.refs pa)
    (hstep : PageStep L s (.drop c pa) t) :
    CountedInv L live t ∧ t.point c = if s.refs pa = 1 then .dropped pa else .idle := by
  obtain ⟨hidle, -, rfl⟩ := hstep.drop_inv
  have hcnt : ∀ p, 0 < update s.refs pa (s.refs pa - 1) p →
      ((s.mem.setCnt pa (s.mem.cnt (pa / PGSIZE) - 1)).cnt (p / PGSIZE)).toNat =
        update s.refs pa (s.refs pa - 1) p := by
    intro p hp
    by_cases hpp : p = pa
    · subst hpp
      simpa using h.cnt_drop hpos
    · rw [update_of_ne hpp] at hp ⊢
      have hne := h.frame_ne (own_inl hpos) hp hpp
      simpa [KMem.setCnt, hne] using h.cnt p hp
  simp only [KMem.setCnt_cnt_self, h.dropped_iff hpos]
  by_cases hone : s.refs pa = 1
  · simp only [if_pos hone, update_self, and_true]
    have hown : CountedState.own ⟨s.mem.setCnt pa (s.mem.cnt (pa / PGSIZE) - 1),
        update s.point c (.dropped pa), update s.refs pa (s.refs pa - 1)⟩ =
        update (update s.own (.inl pa) none) (.inr c) (some pa) := by
      rw [own_setPoint ⟨s.mem, s.point, update s.refs pa (s.refs pa - 1)⟩, own_setRefs,
        hone]
      rfl
    have hrename := h.tracked.rename (own_inl hpos) (.inr c)
    refine ⟨?_, hcnt⟩
    rw [hown]
    exact ⟨hrename.heap, hrename.held, hrename.exclusive⟩
  · simp only [if_neg hone, hidle, and_true]
    have hown : CountedState.own ⟨s.mem.setCnt pa (s.mem.cnt (pa / PGSIZE) - 1), s.point,
        update s.refs pa (s.refs pa - 1)⟩ = s.own := by
      rw [own_setRefs, if_pos (by omega), ← own_inl hpos, update_eq_self]
    refine ⟨?_, hcnt⟩
    rw [hown]
    exact ⟨h.tracked.heap, h.tracked.held, h.tracked.exclusive⟩

/-- The page goes back, and `buddy_free` does not stop the kernel. -/
theorem CountedInv.giveBack (h : CountedInv L live s) (hpoint : s.point c = .dropped pa) :
    ∃ t live', PageStep L s (.giveBack c) t ∧ CountedInv L live' t := by
  have hpage : s.own (.inr c) = some pa := congrArg CallPoint.page hpoint
  obtain ⟨b, hb, hheap⟩ := heapInv_free h.tracked.heap (h.tracked.held _ pa hpage)
  refine ⟨⟨{ s.mem.memset pa 1 with buddy := b }, update s.point c .idle, s.refs⟩,
    live.erase (pa, 0), ?_, ⟨hheap, fun k p hk => ?_, ?_⟩, h.cnt⟩
  · simp only [PageStep, PageSection.exec, hpoint]
    exact congrArg (· >>= _) hb
  · rw [own_setPoint s] at hk
    obtain ⟨hk', hne⟩ := h.tracked.exclusive.dropped hpage hk
    exact (List.mem_erase_of_ne (by simpa using hne)).mpr (h.tracked.held k p hk')
  · rw [own_setPoint s]
    exact h.tracked.exclusive.mono fun k p hk => (h.tracked.exclusive.dropped hpage hk).1

/-! ## Runs -/

/-- A `kfree` drops a reference that was handed out. -/
def DropsHeld (s : CountedState C) : PageSection C → Prop
  | .drop _ pa => 0 < s.refs pa
  | _ => True

/-- Moreover `kaddrefcnt` is called for a page that has a reference, and the references
fit into the count. -/
def CountsHeld (s : CountedState C) : PageSection C → Prop
  | .add _ pa => 0 < s.refs pa ∧ s.refs pa + 1 < 2 ^ 32
  | a => DropsHeld s a

instance decidableDropsHeld (s : CountedState C) : (a : PageSection C) → Decidable (DropsHeld s a)
  | .drop _ pa => inferInstanceAs (Decidable (0 < s.refs pa))
  | .take _ => .isTrue trivial
  | .count _ => .isTrue trivial
  | .add _ _ => .isTrue trivial
  | .giveBack _ => .isTrue trivial

instance (s : CountedState C) : (a : PageSection C) → Decidable (CountsHeld s a)
  | .add _ pa => inferInstanceAs (Decidable (0 < s.refs pa ∧ s.refs pa + 1 < 2 ^ 32))
  | .take c => decidableDropsHeld s (.take c)
  | .count c => decidableDropsHeld s (.count c)
  | .drop c pa => decidableDropsHeld s (.drop c pa)
  | .giveBack c => decidableDropsHeld s (.giveBack c)

/-- `kalloc` returns a page without reference, `kfree` goes on to `buddy_free` exactly if
it has dropped the last one, and no reference has been added when it gets there. -/
def SectionLaw (s : CountedState C) (a : PageSection C) (t : CountedState C) : Prop :=
  match a with
  | .count c => ∀ pa, s.point c = .taken pa → s.refs pa = 0
  | .drop c pa => t.point c = if s.refs pa = 1 then .dropped pa else .idle
  | .giveBack c => ∀ pa, s.point c = .dropped pa → s.refs pa = 0
  | _ => True

theorem countedInv_step (h : CountedInv L live s) {a : PageSection C} (hok : CountsHeld s a)
    (hstep : PageStep L s a t) : (∃ live', CountedInv L live' t) ∧ SectionLaw s a t := by
  cases a with
  | take c => exact ⟨h.take hstep, trivial⟩
  | count c =>
    refine ⟨⟨live, h.count hstep⟩, fun pa hpoint => ?_⟩
    obtain ⟨pa', hpoint', hnull, -⟩ := hstep.count_inv
    rw [hpoint', CallPoint.taken.injEq] at hpoint
    subst hpoint
    exact h.refs_eq_zero (c := c) (by rw [hpoint', CallPoint.page, if_neg hnull])
  | add c pa => exact ⟨⟨live, h.add hok.1 hok.2 hstep⟩, trivial⟩
  | drop c pa =>
    obtain ⟨hinv, hpoint⟩ := h.drop hok hstep
    exact ⟨⟨live, hinv⟩, hpoint⟩
  | giveBack c =>
    obtain ⟨pa, b, hpoint, -⟩ := hstep.giveBack_inv
    obtain ⟨u, live', hstep', hinv⟩ := h.giveBack hpoint
    obtain rfl : u = t := Except.ok.inj (hstep'.symm.trans hstep)
    refine ⟨⟨live', hinv⟩, fun pa' hpoint' => ?_⟩
    exact h.refs_eq_zero (congrArg CallPoint.page hpoint')

/-- `kalloc` returns the page. -/
def Returns (pa : ℕ) (s : CountedState C) : PageSection C → Prop
  | .count c => s.point c = .taken pa
  | _ => False

/-- The page is passed to `buddy_free`. -/
def GivesBack (pa : ℕ) (s : CountedState C) : PageSection C → Prop
  | .giveBack c => s.point c = .dropped pa
  | _ => False

instance (pa : ℕ) (s : CountedState C) : (a : PageSection C) → Decidable (Returns pa s a)
  | .count c => inferInstanceAs (Decidable (s.point c = .taken pa))
  | .take _ => .isFalse id
  | .add _ _ => .isFalse id
  | .drop _ _ => .isFalse id
  | .giveBack _ => .isFalse id

instance (pa : ℕ) (s : CountedState C) : (a : PageSection C) → Decidable (GivesBack pa s a)
  | .giveBack c => inferInstanceAs (Decidable (s.point c = .dropped pa))
  | .take _ => .isFalse id
  | .count _ => .isFalse id
  | .add _ _ => .isFalse id
  | .drop _ _ => .isFalse id

/-- The page has references, or the call that dropped the last one is on its way. -/
def Unreturned (pa : ℕ) (s : CountedState C) : Prop :=
  0 < s.refs pa ∨ ∃ c, s.point c = .dropped pa

/-- An admitted step from a state that satisfies the invariant. -/
def CountedStep (L : Layout) (s : CountedState C) (a : PageSection C) (t : CountedState C) :
    Prop :=
  (∃ live, CountedInv L live s) ∧ CountsHeld s a ∧ PageStep L s a t

theorem exists_dropped_update {x : CallPoint} (hc : s.point c ≠ .dropped pa)
    (hx : x ≠ .dropped pa) :
    (∃ d, update s.point c x d = .dropped pa) ↔ ∃ d, s.point d = .dropped pa := by
  refine exists_congr fun d => ?_
  by_cases hd : d = c
  · subst hd
    simp [hc, hx]
  · rw [update_of_ne hd]

omit [DecidableEq C] in
theorem CountedInv.caller_unique (h : CountedInv L live s) {d : C}
    (hc : (s.point c).page = some pa) (hd : (s.point d).page = some pa) : c = d :=
  Sum.inr.inj (h.tracked.exclusive (.inr c) (.inr d) pa hc hd)

theorem unreturned_enter {a : PageSection C} (h : CountedStep L s a t) (hret : Returns pa s a) :
    ¬ Unreturned pa s ∧ Unreturned pa t ∧ ¬ GivesBack pa s a := by
  obtain ⟨⟨live, hinv⟩, -, hstep⟩ := h
  cases a with
  | count c =>
    obtain ⟨pa', hpoint, hnull, rfl⟩ := hstep.count_inv
    have hret : s.point c = .taken pa := hret
    obtain rfl : pa' = pa := by simpa [hpoint] using hret
    have hpage : (s.point c).page = some pa' := by rw [hpoint, CallPoint.page, if_neg hnull]
    refine ⟨?_, Or.inl (by simp), fun hgive => hgive⟩
    rintro (hpos | ⟨d, hd⟩)
    · have hzero := hinv.refs_eq_zero hpage
      omega
    · obtain rfl := hinv.caller_unique hpage (congrArg CallPoint.page hd)
      rw [hpoint] at hd
      cases hd
  | take c => exact hret.elim
  | add c p => exact hret.elim
  | drop c p => exact hret.elim
  | giveBack c => exact hret.elim

theorem unreturned_leave {a : PageSection C} (h : CountedStep L s a t)
    (hgive : GivesBack pa s a) : Unreturned pa s ∧ ¬ Unreturned pa t := by
  obtain ⟨⟨live, hinv⟩, -, hstep⟩ := h
  cases a with
  | giveBack c =>
    have hgive : s.point c = .dropped pa := hgive
    obtain ⟨pa', b, hpoint, rfl⟩ := hstep.giveBack_inv
    refine ⟨Or.inr ⟨c, hgive⟩, ?_⟩
    rintro (hpos | ⟨d, hd⟩)
    · have hzero := hinv.refs_eq_zero (congrArg CallPoint.page hgive)
      simp only [hzero] at hpos
      omega
    · by_cases hdc : d = c
      · simp [hdc] at hd
      · simp only [update_of_ne hdc] at hd
        exact hdc (hinv.caller_unique (congrArg CallPoint.page hd)
          (congrArg CallPoint.page hgive))
  | take c => exact hgive.elim
  | add c p => exact hgive.elim
  | drop c p => exact hgive.elim
  | count c => exact hgive.elim

theorem unreturned_keep {a : PageSection C} (h : CountedStep L s a t) (hret : ¬ Returns pa s a)
    (hgive : ¬ GivesBack pa s a) : Unreturned pa t ↔ Unreturned pa s := by
  obtain ⟨⟨live, hinv⟩, hok, hstep⟩ := h
  cases a with
  | take c =>
    obtain ⟨hidle, result, b, -, rfl⟩ := hstep.take_inv
    exact or_congr Iff.rfl (exists_dropped_update (by simp [hidle]) (by simp))
  | count c =>
    obtain ⟨pa', hpoint, -, rfl⟩ := hstep.count_inv
    have hne : pa ≠ pa' := by
      rintro rfl
      exact hret hpoint
    refine or_congr ?_ (exists_dropped_update (by simp [hpoint]) (by simp))
    simp only [update_of_ne hne]
  | add c p =>
    obtain ⟨-, ⟨-, rfl⟩ | ⟨-, rfl⟩⟩ := hstep.add_inv
    · exact Iff.rfl
    · refine or_congr ?_ Iff.rfl
      by_cases hp : pa = p
      · subst hp
        exact iff_of_true (by simp) hok.1
      · simp only [update_of_ne hp]
  | drop c p =>
    have hpos : 0 < s.refs p := hok
    obtain ⟨-, hpoint⟩ := hinv.drop hpos hstep
    obtain ⟨hidle, -, rfl⟩ := hstep.drop_inv
    by_cases hp : pa = p
    · subst hp
      refine iff_of_true ?_ (Or.inl hpos)
      by_cases hone : s.refs pa = 1
      · rw [if_pos hone] at hpoint
        exact Or.inr ⟨c, hpoint⟩
      · left
        simp only [update_self]
        omega
    · refine or_congr ?_ ?_
      · simp only [update_of_ne hp]
      · simp only
        split
        · exact exists_dropped_update (by simp [hidle]) (by simpa using Ne.symm hp)
        · exact Iff.rfl
  | giveBack c =>
    obtain ⟨pa', b, hpoint, rfl⟩ := hstep.giveBack_inv
    have hne : s.point c ≠ .dropped pa := hgive
    exact or_congr Iff.rfl (exists_dropped_update hne (by simp))

/-- The caller that is about to give a page back has dropped the last reference itself. -/
theorem dropped_inv {a : PageSection C} (h : CountedStep L s a t) (hs : s.point c ≠ .dropped pa)
    (ht : t.point c = .dropped pa) : a = .drop c pa ∧ s.refs pa = 1 := by
  obtain ⟨⟨live, hinv⟩, hok, hstep⟩ := h
  have hother : ∀ (d : C) (x : CallPoint), x ≠ .dropped pa →
      update s.point d x c ≠ .dropped pa := by
    intro d x hx
    by_cases hd : c = d
    · rwa [hd, update_self]
    · rwa [update_of_ne hd]
  cases a with
  | take d =>
    obtain ⟨-, result, b, -, rfl⟩ := hstep.take_inv
    exact absurd ht (hother d _ (by simp))
  | count d =>
    obtain ⟨pa', -, -, rfl⟩ := hstep.count_inv
    exact absurd ht (hother d _ (by simp))
  | add d p =>
    obtain ⟨-, ⟨-, rfl⟩ | ⟨-, rfl⟩⟩ := hstep.add_inv
    · exact absurd ht hs
    · exact absurd ht hs
  | drop d p =>
    have hpos : 0 < s.refs p := hok
    obtain ⟨-, hpoint⟩ := hinv.drop hpos hstep
    obtain ⟨hidle, -, rfl⟩ := hstep.drop_inv
    by_cases hd : c = d
    · subst hd
      rw [ht] at hpoint
      by_cases hone : s.refs p = 1
      · rw [if_pos hone, CallPoint.dropped.injEq] at hpoint
        rw [hpoint]
        exact ⟨rfl, hone⟩
      · rw [if_neg hone] at hpoint
        cases hpoint
    · refine absurd ?_ hs
      simp only at ht
      split at ht
      · rwa [update_of_ne hd] at ht
      · exact ht
  | giveBack d =>
    obtain ⟨pa', b, -, rfl⟩ := hstep.giveBack_inv
    exact absurd ht (hother d _ (by simp))

/-- Whatever the interleaving: `kalloc` never returns a page that has a reference. A page
goes back to the buddy allocator as often as `kalloc` has returned it, but for the
last time while it is in use. And a caller that is about to give a page back has itself
dropped the last reference; there has been none since, and `buddy_free` will return. -/
theorem counted_page_freed_once {run : List (PageSection C × CountedState C)}
    (hheap : HeapInv L ⟨s.mem.buddy, live⟩) (hidle : ∀ c, s.point c = .idle)
    (hrefs : ∀ pa, s.refs pa = 0) (hrun : IsRun (PageStep L) s run)
    (hok : Along CountsHeld s run) :
    IsRun SectionLaw s run ∧
    (∀ pa, Unreturned pa (last s run) ∧
        countSteps (Returns pa) s run = countSteps (GivesBack pa) s run + 1 ∨
      ¬ Unreturned pa (last s run) ∧
        countSteps (Returns pa) s run = countSteps (GivesBack pa) s run) ∧
    ∀ c pa, (last s run).point c = .dropped pa →
      (∃ t, PageStep L (last s run) (.giveBack c) t) ∧
      ∃ xs t ys, run = xs ++ (.drop c pa, t) :: ys ∧ (last s xs).refs pa = 1 ∧
        ∀ u ∈ visited t ys, u.point c = .dropped pa ∧ u.refs pa = 0 := by
  have hown : s.own = fun _ => none := by
    funext k
    rcases k with p | c
    · simp [CountedState.own, hrefs]
    · simp [CountedState.own, hidle, CallPoint.page]
  have hstart : ∃ live, CountedInv L live s := by
    refine ⟨live, ⟨hheap, ?_, ?_⟩, fun p hp => ?_⟩
    · simp [hown]
    · simp [hown, Exclusive]
    · rw [hrefs] at hp
      cases hp
  have hkeep : ∀ (s : CountedState C) a t, (∃ live, CountedInv L live s) → CountsHeld s a →
      PageStep L s a t → ∃ live, CountedInv L live t := by
    rintro s a t ⟨live, hinv⟩ hok hstep
    exact (countedInv_step hinv hok hstep).1
  have hsteps : IsRun (CountedStep L) s run :=
    IsRun.imp CountsHeld _ hkeep (fun s a t hi ho hs => ⟨hi, ho, hs⟩) hstart hrun hok
  have hinv := IsRun.invariant CountsHeld _ hkeep hstart hrun hok
  refine ⟨?_, fun pa => ?_, fun c pa hpoint => ⟨?_, ?_⟩⟩
  · refine IsRun.imp CountsHeld _ hkeep ?_ hstart hrun hok
    rintro s a t ⟨live, hi⟩ ho hs
    exact (countedInv_step hi ho hs).2
  · refine (hsteps.countSteps_enter_leave (P := Unreturned pa)
      (fun _ _ _ => unreturned_enter) (fun _ _ _ => unreturned_leave)
      (fun _ _ _ => unreturned_keep)).1 ?_
    simp [Unreturned, hrefs, hidle]
  · obtain ⟨live', hlast⟩ := hinv _ (last_mem_visited s run)
    obtain ⟨t, -, hstep, -⟩ := hlast.giveBack hpoint
    exact ⟨t, hstep⟩
  · obtain ⟨xs, a, t, ys, rfl, hstep, hnot, hall⟩ :=
      hsteps.exists_since (P := fun u => u.point c = .dropped pa) (by simp [hidle]) hpoint
    obtain ⟨rfl, hone⟩ := dropped_inv hstep hnot (hall t (by simp [visited]))
    refine ⟨xs, t, ys, rfl, hone, fun u hu => ⟨hall u hu, ?_⟩⟩
    obtain ⟨live', hu'⟩ := hinv u (by
      simp only [visited, List.map_append, List.map_cons, List.mem_cons, List.mem_append] at hu ⊢
      tauto)
    exact hu'.refs_eq_zero (congrArg CallPoint.page (hall u hu))

/-- Memory after `kinit`, and two callers. -/
def bootCounted (b : Buddy) : CountedState (Fin 2) :=
  ⟨⟨b, fun _ => 0, fun _ _ => 0⟩, fun _ => .idle, fun _ => 0⟩

/-- The run that the sections make from `kinit` on. -/
theorem bootCounted_run (sections : ℕ → List (PageSection (Fin 2)))
    (P : CountedState (Fin 2) → ℕ → List (PageSection (Fin 2) × CountedState (Fin 2)) → Prop)
    (h : (buddyInit smallLayout ⟨⟨fun _ => 0, fun _ => 0⟩, fun _ => 0⟩).Yields fun b =>
      (buddyAlloc smallLayout 0 b).Yields fun r =>
        Kres.Yields (execAll (PageSection.exec smallLayout) (sections r.1) (bootCounted b))
          (P (bootCounted b) r.1)) :
    ∃ b pa run, HeapInv smallLayout ⟨b, []⟩ ∧ IsRun (PageStep smallLayout) (bootCounted b) run ∧
      run.map Prod.fst = sections pa ∧ P (bootCounted b) pa run := by
  obtain ⟨b, hinit, r, -, run, hexec, htest⟩ := h
  obtain ⟨b', hinit', hheap⟩ := heapInv_init smallLayout ⟨⟨fun _ => 0, fun _ => 0⟩, fun _ => 0⟩
  obtain rfl : b' = b := Except.ok.inj (hinit'.symm.trans hinit)
  obtain ⟨hrun, hlabels⟩ := execAll_isRun (fun s a t (h : PageStep smallLayout s a t) => h) hexec
  exact ⟨b', r.1, run, hheap, hrun, hlabels, htest⟩

/-- A reference to a page that is on a free list does not keep it there: `kalloc` hands
out the page to another caller. -/
theorem kaddrefcnt_free_page :
    ∃ b pa run, HeapInv smallLayout ⟨b, []⟩ ∧ IsRun (PageStep smallLayout) (bootCounted b) run ∧
      run.map Prod.fst = [.add 0 pa, .take 1, .count 1] ∧ Along DropsHeld (bootCounted b) run ∧
      ¬ IsRun SectionLaw (bootCounted b) run := by
  obtain ⟨b, pa, run, hheap, hrun, hlabels, hdrops, hpoint, hrefs⟩ := bootCounted_run
    (fun pa => [.add 0 pa, .take 1, .count 1])
    (fun s pa run => Along DropsHeld s run ∧
      (run.getD 1 (.take 0, s)).2.point 1 = .taken pa ∧ (run.getD 1 (.take 0, s)).2.refs pa = 1)
    (by decide +kernel)
  refine ⟨b, pa, run, hheap, hrun, hlabels, hdrops, fun hlaw => ?_⟩
  obtain ⟨x, rest, rfl, -, hrest⟩ := List.map_eq_cons_iff.mp hlabels
  obtain ⟨y, rest, rfl, -, hrest⟩ := List.map_eq_cons_iff.mp hrest
  obtain ⟨z, rest, rfl, hz, -⟩ := List.map_eq_cons_iff.mp hrest
  have hcount : SectionLaw y.2 z.1 z.2 := hlaw.2.2.1
  rw [hz] at hcount
  have hzero := hcount pa hpoint
  have hone : y.2.refs pa = 1 := hrefs
  omega

/-- Two callers share a page; the second one drops the last reference. -/
theorem counted_page_freed_once_shared :
    ∃ b pa run, run.map Prod.fst =
        [.take 0, .count 0, .add 1 pa, .drop 0 pa, .drop 1 pa, .giveBack 1] ∧
      IsRun (PageStep smallLayout) (bootCounted b) run ∧ IsRun SectionLaw (bootCounted b) run ∧
      countSteps (Returns pa) (bootCounted b) run =
        countSteps (GivesBack pa) (bootCounted b) run := by
  obtain ⟨b, pa, run, hheap, hrun, hlabels, hok, hrefs, hidle⟩ := bootCounted_run
    (fun pa => [.take 0, .count 0, .add 1 pa, .drop 0 pa, .drop 1 pa, .giveBack 1])
    (fun s pa run => Along CountsHeld s run ∧
      (last s run).refs pa = 0 ∧ ∀ c, (last s run).point c = .idle)
    (by decide +kernel)
  obtain ⟨hlaw, hcount, -⟩ := counted_page_freed_once (s := bootCounted b) hheap (fun _ => rfl)
    (fun _ => rfl) hrun hok
  refine ⟨b, pa, run, hlabels, hrun, hlaw, ?_⟩
  rcases hcount pa with ⟨hin, -⟩ | ⟨-, heq⟩
  · rcases hin with hpos | ⟨c, hc⟩
    · omega
    · rw [hidle] at hc
      cases hc
  · exact heq

end LearnOS
