import LearnOS.Vm.Entry

/-!
# Who owns which page

Every page in use by the virtual memory system has one owner: a trapframe, a
page-table page at one place of one table, or one user page. The lemmas say how
ownership moves when a page-table function returns.
-/

namespace LearnOS

open Ownership Function Kres

/-- The places that hold a page. `hand` is a page that a function has
allocated and not yet stored. -/
inductive Slot where
  | trapframe (i : Fin NPROC)
  | root (i : Fin NPROC)
  | mid (i : Fin NPROC) (x : ℕ)
  | low (i : Fin NPROC) (x : ℕ)
  | user (i : Fin NPROC) (v : ℕ)
  | hand
  deriving DecidableEq

/-- The pages of table `i` are those of `pt`, all others as before. -/
def withTable (own : Slot → Option ℕ) (i : Fin NPROC) (pt : PageTable) : Slot → Option ℕ
  | .root j => if j = i then some pt.root else own (.root j)
  | .mid j x => if j = i then pt.midPage x else own (.mid j x)
  | .low j x => if j = i then pt.lowPage x else own (.low j x)
  | .user j v => if j = i then pt.user v else own (.user j v)
  | k => own k

/-- The owner of every page of the virtual memory system. -/
def VmState.own (s : VmState) : Slot → Option ℕ
  | .trapframe i => if (s.proc i).trapframe = 0 then none else some (s.proc i).trapframe
  | .root i => (s.proc i).pagetable.map PageTable.root
  | .mid i x => (s.proc i).pagetable.bind fun pt => pt.midPage x
  | .low i x => (s.proc i).pagetable.bind fun pt => pt.lowPage x
  | .user i v => (s.proc i).pagetable.bind fun pt => pt.user v
  | .hand => none

theorem VmState.own_eq_withTable {s : VmState} {i : Fin NPROC} {pt : PageTable}
    (hpt : (s.proc i).pagetable = some pt) :
    s.own = withTable s.own i pt := by
  funext k
  cases k with
  | trapframe j => rfl
  | hand => rfl
  | _ j =>
    by_cases hj : j = i
    · subst hj
      simp [own, withTable, hpt]
    · simp [withTable, hj]

theorem VmState.own_setTable (s : VmState) (i : Fin NPROC) (pt : PageTable) (m : KMem) :
    (s.setTable i pt m).own = withTable s.own i pt := by
  funext k
  cases k with
  | hand => rfl
  | _ j =>
    by_cases hj : j = i
    · subst hj
      simp [own, withTable, setTable]
    · simp [own, withTable, setTable, hj]

variable {L : Layout} {own : Slot → Option ℕ} {i : Fin NPROC} {pt pt' : PageTable} {m m' : KMem}
  {live : List (ℕ × ℕ)} {va pa : ℕ} {perm : Pte} {p : ℕ} {v : ℕ} {r : ℤ}

/-- Memory changed only on a page that was not in use before. -/
theorem Grows.write {live' : List (ℕ × ℕ)} (h : Grows m live m' live')
    (hheap : HeapInv L ⟨m'.buddy, live'⟩) (hp : (p, 0) ∈ live') (hnew : (p, 0) ∉ live)
    (c : ℕ → BitVec 8) :
    Grows m live { m' with frame := update m'.frame (p / PGSIZE) c } live' where
  subset := h.subset
  cnt := h.cnt
  frame q hq := by
    have hne : q / PGSIZE ≠ p / PGSIZE := by
      intro heq
      have hqp := page_eq_of_frame_eq (hheap.not_badPage (h.subset hq)) (hheap.not_badPage hp) heq
      exact hnew (hqp ▸ hq)
    simpa only [update_of_ne hne] using h.frame q hq
  fresh := h.fresh

theorem Acquires.write {live' : List (ℕ × ℕ)} {own' : Slot → Option ℕ}
    (h : Acquires L m live own m' live' own') (hp : (p, 0) ∈ live') (hnew : (p, 0) ∉ live)
    (c : ℕ → BitVec 8) :
    Acquires L m live own { m' with frame := update m'.frame (p / PGSIZE) c } live'
      own' where
  tracked := ⟨h.tracked.heap, h.tracked.held, h.tracked.exclusive⟩
  grows := h.grows.write h.tracked.heap hp hnew c
  old_or_new := h.old_or_new

/-- A page fresh from `kalloc` and cleared once more. -/
theorem Tracked.acquire_memset (h : Tracked L m live own) (hcall : kalloc L m = .ok (p, m'))
    (name : Slot) :
    Acquires L m live own (m'.memset p 0) ((p, 0) :: live)
      (update own name (some p)) := by
  obtain ⟨hnew, -⟩ := h.of_kalloc hcall name
  exact (h.acquire hcall name).write List.mem_cons_self hnew _

/-! ## Lookup and creation of entries -/

theorem user_congr (h : pt'.entry = pt.entry) : pt'.user = pt.user := by
  funext v
  simp only [PageTable.user, h]

/-- What the table of `i` gains when a level is created. -/
theorem walkMid_spec (h : Tracked L m live (withTable own i pt)) {found : Bool}
    (hcall : walkMid (kalloc L) pt v m = .ok (found, pt', m')) :
    ∃ live', Acquires L m live (withTable own i pt) m' live' (withTable own i pt') := by
  obtain ⟨-, ⟨-, rfl, rfl⟩ | ⟨page, m₁, hmid, halloc, rfl, rfl⟩⟩ := walkMid_ok hcall
  · exact ⟨live, Acquires.refl h⟩
  refine ⟨_, (h.acquire_memset halloc (.mid i (px2 v))).forget ?_⟩
  intro k p hk
  cases k with
  | mid j x =>
    by_cases hj : j = i
    · subst hj
      by_cases hx : x = px2 v
      · subst hx
        simp_all [withTable, PageTable.addMid, PageTable.midPage]
      · simp_all [withTable, PageTable.addMid, PageTable.midPage]
    · simp_all [withTable]
  | low j x => simpa [withTable, PageTable.lowPage_addMid hmid] using hk
  | user j x => simpa [withTable, user_congr (walkMid_entry hcall).1] using hk
  | root j => simpa [withTable, PageTable.addMid] using hk
  | trapframe j | hand => simpa [withTable] using hk

theorem walkLow_spec (h : Tracked L m live (withTable own i pt)) {found : Bool}
    (hcall : walkLow (kalloc L) pt v m = .ok (found, pt', m')) :
    ∃ live', Acquires L m live (withTable own i pt) m' live' (withTable own i pt') := by
  obtain ⟨-, ⟨-, rfl, rfl⟩ | ⟨page, m₁, hlow, halloc, rfl, rfl⟩⟩ := walkLow_ok hcall
  · exact ⟨live, Acquires.refl h⟩
  refine ⟨_, (h.acquire_memset halloc (.low i (px1 v))).forget ?_⟩
  intro k p hk
  cases k with
  | low j x =>
    by_cases hj : j = i
    · subst hj
      by_cases hx : x = px1 v
      · subst hx
        simp_all [withTable, PageTable.addLow, PageTable.lowPage]
      · simp_all [withTable, PageTable.addLow, PageTable.lowPage, PageTable.midPage]
    · simp_all [withTable]
  | user j x => simpa [withTable, user_congr (walkLow_entry hcall).1] using hk
  | mid j x => simpa [withTable, PageTable.addLow, PageTable.midPage] using hk
  | root j => simpa [withTable, PageTable.addLow] using hk
  | trapframe j | hand => simpa [withTable] using hk

theorem walkAlloc_spec (h : Tracked L m live (withTable own i pt)) {va : ℕ} {r : Option Pte}
    (hcall : walkAlloc (kalloc L) pt va m = .ok (r, pt', m')) :
    ∃ live', Acquires L m live (withTable own i pt) m' live' (withTable own i pt') := by
  obtain ⟨-, -, pt₁, m₁, hmid, hlow⟩ := walkAlloc_ok hcall
  obtain ⟨live₁, hacq₁⟩ := walkMid_spec h hmid
  obtain ⟨live₂, hacq₂⟩ := walkLow_spec hacq₁.tracked hlow
  exact ⟨live₂, hacq₁.trans hacq₂⟩

/-- `mappages` of one page: the levels are created, and then the entry is set. -/
theorem mappages_page (h : Tracked L m live (withTable own i pt))
    (hcall : mappages (kalloc L) pt va PGSIZE pa perm m = .ok (r, pt', m')) :
    r = 0 ∧ ∃ pt₁ live', pt₁.entry = pt.entry ∧ (pt₁.pte? (va / PGSIZE)).isSome ∧
        pt' = pt₁.setPte (va / PGSIZE) (pa2pte pa ||| perm ||| PTE_V) ∧
        Acquires L m live (withTable own i pt) m' live' (withTable own i pt₁) := by
  have hsize : PGSIZE % PGSIZE = 0 := rfl
  have hpages : PGSIZE / PGSIZE = 1 := rfl
  have hpos : ¬ PGSIZE = 0 := by decide
  unfold mappages at hcall
  by_cases hmod : va % PGSIZE = 0
  · simp only [hmod, ne_eq, not_true_eq_false, if_false, hsize, hpos, hpages, mapLoop,
      bind_eq_ok] at hcall
    obtain ⟨⟨pte, pt₁, m₁⟩, hwalk, hcall⟩ := hcall
    obtain ⟨-, rfl, hentry, hsome⟩ := walkAlloc_entry hwalk
    obtain ⟨live', hacq⟩ := walkAlloc_spec h hwalk
    by_cases hv : (pt.entry (va / PGSIZE)).getLsbD 0 = true
    · simp [hv] at hcall
    · simp only [Pte.has_V, hv] at hcall
      cases hcall
      exact ⟨rfl, pt₁, live', hentry, hsome, rfl, hacq⟩
  · simp [hmod] at hcall

theorem entry_mapped {v w : ℕ} {pt₁ : PageTable} (hentry : pt₁.entry = pt.entry)
    (hsome : (pt₁.pte? v).isSome) (word : Pte) :
    (pt₁.setPte v word).entry w = if w = v then word else pt.entry w := by
  rw [PageTable.entry_setPte hsome, hentry]

/-- The page of an entry for a page that can be handed out. -/
theorem pte2pa_page (hpa : ¬ badPage L pa) {flags : Pte} (hflags : FlagsOnly flags) :
    pte2pa (pa2pte pa ||| flags) = pa := by
  simp only [badPage, not_or, not_not, not_le] at hpa
  exact pte2pa_pa2pte_or hpa.1 (hpa.2.2.trans (by decide)) hflags

/-- The page in hand becomes a user page. -/
theorem mappages_user (h : Tracked L m live (withTable own i pt))
    (hcall : mappages (kalloc L) pt va PGSIZE pa perm m = .ok (r, pt', m'))
    (hhand : own .hand = some pa) (hperm : FlagsOnly perm) :
    r = 0 ∧
      (∀ w, pt'.entry w =
        if w = va / PGSIZE then pa2pte pa ||| (perm ||| PTE_V) else pt.entry w) ∧
      ∃ live', Acquires L m live (withTable own i pt) m' live'
        (withTable (update own .hand none) i pt') := by
  obtain ⟨hr, pt₁, live', hentry, hsome, hpt', hacq⟩ := mappages_page h hcall
  have hnew : ∀ w, pt'.entry w =
      if w = va / PGSIZE then pa2pte pa ||| (perm ||| PTE_V) else pt.entry w := by
    intro w
    rw [hpt', entry_mapped hentry hsome, BitVec.or_assoc]
  refine ⟨hr, hnew, live',
    hacq.move (Equiv.swap .hand (.user i (va / PGSIZE))) (Equiv.injective _) ?_⟩
  have hpage : ¬ badPage L pa := hacq.tracked.not_badPage (k := .hand) hhand
  have hpa : pte2pa (pa2pte pa ||| (perm ||| PTE_V)) = pa :=
    pte2pa_page hpage (hperm.or (flagsOnly_twoPow (by decide)))
  intro k p hk
  by_cases hkh : k = .hand
  · subst hkh
    simp [withTable] at hk
  · by_cases hku : k = .user i (va / PGSIZE)
    · subst hku
      rw [Equiv.swap_apply_right]
      simp only [withTable, if_true, PageTable.user, hnew, hpa] at hk ⊢
      rw [hhand]
      split at hk
      · exact hk
      · cases hk
    · rw [Equiv.swap_apply_of_ne_of_ne hkh hku]
      cases k with
      | user j w =>
        by_cases hj : j = i
        · subst hj
          have hw : w ≠ va / PGSIZE := fun hw => hku (by rw [hw])
          simpa only [withTable, if_true, PageTable.user, hnew, if_neg hw, hentry] using hk
        · simpa [withTable, hj] using hk
      | root j => simpa [withTable, hpt', PageTable.setPte] using hk
      | mid j x => simpa [withTable, hpt', PageTable.midPage_setPte] using hk
      | low j x => simpa [withTable, hpt', PageTable.lowPage_setPte] using hk
      | trapframe j => simpa [withTable] using hk
      | hand => exact absurd rfl hkh

/-- A page of the kernel is mapped at one of its reserved addresses. -/
theorem mappages_reserved (h : Tracked L m live (withTable own i pt))
    (hcall : mappages (kalloc L) pt va PGSIZE pa perm m = .ok (r, pt', m'))
    (hres : PageTable.reserved (va / PGSIZE) = true) :
    r = 0 ∧ (∀ w, PageTable.reserved w = false → pt'.entry w = pt.entry w) ∧
      ∃ live', Acquires L m live (withTable own i pt) m' live' (withTable own i pt') := by
  obtain ⟨hr, pt₁, live', hentry, hsome, hpt', hacq⟩ := mappages_page h hcall
  have hnew : ∀ w, PageTable.reserved w = false → pt'.entry w = pt.entry w := by
    intro w hw
    have hne : w ≠ va / PGSIZE := by
      rintro rfl
      simp [hres] at hw
    rw [hpt', entry_mapped hentry hsome, if_neg hne]
  refine ⟨hr, hnew, live', hacq.forget ?_⟩
  have huser : pt'.user = pt₁.user := by
    funext w
    cases hw : PageTable.reserved w with
    | true => simp [PageTable.user, hw]
    | false => simp only [PageTable.user, hnew w hw, hentry]
  intro k p hk
  cases k with
  | user j w => simpa [withTable, huser] using hk
  | root j => simpa [withTable, hpt', PageTable.setPte] using hk
  | mid j x => simpa [withTable, hpt', PageTable.midPage_setPte] using hk
  | low j x => simpa [withTable, hpt', PageTable.lowPage_setPte] using hk
  | trapframe j | hand => simpa [withTable] using hk

/-! ## Unmapping -/

/-- Pages above `TRAPFRAME` apart, a valid entry belongs to a user page. -/
theorem user_eq_some (hv : (pt.entry v).getLsbD 0 = true) (hres : PageTable.reserved v = false)
    (hlt : v < MAXVA / PGSIZE) : pt.user v = some (pte2pa (pt.entry v)) :=
  if_pos ⟨hv, hres, hlt⟩

/-- The slots of the valid ones among `n` entries. -/
def userSlots (i : Fin NPROC) (pt : PageTable) (lo n : ℕ) : List Slot :=
  ((List.range' lo n).filter fun v => (pt.entry v).getLsbD 0).map (.user i)

theorem mem_userSlots {lo n : ℕ} {k : Slot} :
    k ∈ userSlots i pt lo n ↔
      ∃ v, k = .user i v ∧ lo ≤ v ∧ v < lo + n ∧ (pt.entry v).getLsbD 0 = true := by
  simp only [userSlots, List.mem_map, List.mem_filter, List.mem_range'_1]
  constructor
  · rintro ⟨v, ⟨⟨hlo, hhi⟩, hv⟩, rfl⟩
    exact ⟨v, rfl, hlo, hhi, hv⟩
  · rintro ⟨v, rfl, hlo, hhi, hv⟩
    exact ⟨v, ⟨⟨hlo, hhi⟩, hv⟩, rfl⟩

theorem userSlots_nodup (lo n : ℕ) : (userSlots i pt lo n).Nodup :=
  ((List.nodup_range' : (List.range' lo n).Nodup).filter _).map fun _ _ h => (Slot.user.inj h).2

/-- Nothing of the kernel is mapped in the range. -/
def UserOnly (pt : PageTable) (lo n : ℕ) : Prop :=
  ∀ v, lo ≤ v → v < lo + n → (pt.entry v).getLsbD 0 = true →
    PageTable.reserved v = false ∧ v < MAXVA / PGSIZE

theorem userSlots_frames (own : Slot → Option ℕ) {lo n : ℕ} (h : UserOnly pt lo n) :
    (userSlots i pt lo n).filterMap (withTable own i pt) = pt.frames lo n := by
  rw [userSlots, List.filterMap_map, PageTable.frames, ← List.filterMap_eq_map]
  refine List.filterMap_congr fun v hv => ?_
  simp only [List.mem_filter, List.mem_range'_1] at hv
  obtain ⟨hres, hlt⟩ := h v hv.1.1 hv.1.2 hv.2
  simp only [Function.comp_apply, withTable, if_true, user_eq_some hv.2 hres hlt]

theorem withTable_clear (own : Slot → Option ℕ) (i : Fin NPROC) (pt : PageTable) (lo n : ℕ)
    (k : Slot) :
    withTable own i (pt.clear lo n) k =
      without (withTable own i pt) (fun k => decide (k ∈ userSlots i pt lo n)) k := by
  by_cases hk : k ∈ userSlots i pt lo n
  · rw [without, if_pos (decide_eq_true hk)]
    obtain ⟨v, rfl, hlo, hhi, hv⟩ := mem_userSlots.mp hk
    simp only [withTable, if_true, PageTable.user, PageTable.entry_clear, hlo, hhi, hv, and_self]
    simp
  · rw [without, if_neg (by simpa using hk)]
    cases k with
    | user j v =>
      by_cases hj : j = i
      · subst hj
        have hout : ¬ (lo ≤ v ∧ v < lo + n ∧ (pt.entry v).getLsbD 0 = true) :=
          fun h => hk (mem_userSlots.mpr ⟨v, rfl, h⟩)
        simp only [withTable, if_true, PageTable.user, PageTable.entry_clear, if_neg hout]
      · simp [withTable, hj]
    | _ => rfl

/-- Every page that is unmapped is a user page, and its owner gives it up. -/
theorem uvmunmap_frees {va n : ℕ} (own : Slot → Option ℕ) (i : Fin NPROC)
    (huser : UserOnly pt (va / PGSIZE) n)
    (hcall : uvmunmap L pt va n true m = .ok (pt', m')) :
    Frees L (withTable own i pt) m (withTable own i pt') m' := by
  obtain ⟨-, -, rfl, hfree⟩ := uvmunmap_ok hcall
  refine ⟨_, userSlots_nodup (i := i) (va / PGSIZE) n, fun k hk => ?_, ?_,
    withTable_clear own i pt _ _⟩
  · obtain ⟨v, rfl, hlo, hhi, hv⟩ := mem_userSlots.mp hk
    obtain ⟨hres, hlt⟩ := huser v hlo hhi hv
    simp only [withTable, if_true, user_eq_some hv hres hlt, Option.isSome_some]
  · rw [userSlots_frames own huser]
    exact hfree

/-- Unmapping the kernel's pages leaves the user pages alone. -/
theorem withTable_clear_reserved (own : Slot → Option ℕ) (i : Fin NPROC) {lo : ℕ}
    (hres : PageTable.reserved lo = true) :
    withTable own i (pt.clear lo 1) = withTable own i pt := by
  funext k
  rw [withTable_clear]
  by_cases hk : k ∈ userSlots i pt lo 1
  · obtain ⟨v, rfl, hlo, hhi, -⟩ := mem_userSlots.mp hk
    obtain rfl : v = lo := by omega
    rw [without, if_pos (decide_eq_true hk)]
    simp [withTable, PageTable.user, hres]
  · exact without_of_false (by simpa using hk)

end LearnOS
