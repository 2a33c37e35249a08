import LearnOS.Ipc.RefCount
import LearnOS.Lib.Probe

/-!
# Keys of the pools

The pools are tables with open addressing and deletion. Slots in the middle of a
probe sequence become free and are filled again with other keys; the search goes
once around the whole pool, so it never stops at a hole.
-/

namespace LearnOS.Ipc

open LearnOS Transition Relation Probe Function Kres

variable {L : Layout} {k k' : Kernel} {c : IpcKind} {id : ℕ} {p : Fin NPROC} {key : ℕ}
  {t' : IpcKind × ℕ → Tag} {r : ℤ} {x : IpcKind × ℕ} {op : Op}

/-- What the search reads of a slot. -/
structure Tag where
  key : ℕ
  state : IpcState
  locked : Bool

def Kernel.tag (k : Kernel) (x : IpcKind × ℕ) : Tag :=
  ⟨(k.slot x).key, (k.slot x).state, (k.slot x).locked⟩

/-- A slot is destroyed, or marked for removal. -/
inductive TagMove (t : IpcKind × ℕ → Tag) : (IpcKind × ℕ → Tag) → Prop
  | clear {x : IpcKind × ℕ} :
      TagMove t (update t x { t x with key := 0, state := .UNUSED })
  | retire {x : IpcKind × ℕ} (huse : (t x).state ≠ .UNUSED) :
      TagMove t (update t x { t x with state := .ZOMBIE })

abbrev TagMoves := ReflTransGen TagMove

theorem TagMoves.of_eq {t t' : IpcKind × ℕ → Tag} (h : t' = t) : TagMoves t t' := h ▸ .refl

/-! ## The calls -/

theorem tag_setSlot (b : IpcSlot) :
    (k.setSlot c id b).tag = update k.tag (c, id) ⟨b.key, b.state, b.locked⟩ := by
  funext x
  exact apply_update (fun _ (b : IpcSlot) => (⟨b.key, b.state, b.locked⟩ : Tag)) k.slot
    (c, id) b x

theorem tag_setSlot_same {b : IpcSlot} (hkey : b.key = (k.slot (c, id)).key)
    (hstate : b.state = (k.slot (c, id)).state) (hlock : b.locked = (k.slot (c, id)).locked) :
    (k.setSlot c id b).tag = k.tag := by
  rw [tag_setSlot, hkey, hstate, hlock]
  exact update_eq_self _ _

theorem tag_quiet : Quiet Kernel.tag where
  heap _ _ := rfl
  sem _ _ _ _ := rfl
  msq _ _ _ := rfl
  msg _ _ _ := rfl
  state _ _ _ := rfl
  want _ _ _ := rfl
  call _ _ _ := rfl

theorem addRef_tag : (addRef c id k).tag = k.tag := tag_setSlot_same rfl rfl rfl

theorem addNode_tag {flag : ℕ} (h : addNode L c p id flag k = .ok k') : k'.tag = k.tag := by
  obtain ⟨s, addr, rfl⟩ := addNode_ok h
  exact addRef_tag

theorem tag_sharing (p : Fin NPROC) : Sharing p Kernel.tag fun t t' => t' = t :=
  .of_kept (fun _ _ => rfl) (fun _ _ _ => rfl) fun _ _ _ => addRef_tag

theorem clear_tag (s : KHeap) (flag : ℕ) :
    (k.clear c id s flag).tag =
      update k.tag (c, id) { k.tag (c, id) with key := 0, state := .UNUSED } := by
  rw [Kernel.clear, tag_setSlot]
  cases c with
  | shm => rfl
  | sem => rfl
  | msq => rfl

theorem retire_tag (huse : (k.slot (c, id)).state ≠ .UNUSED) :
    TagMove k.tag (k.setSlot c id { k.slot (c, id) with state := .ZOMBIE }).tag := by
  rw [tag_setSlot]
  exact TagMove.retire (t := k.tag) (x := (c, id)) huse

/-- A relation between tags that allows the destruction of a slot. -/
theorem tag_dropping {r : (IpcKind × ℕ → Tag) → (IpcKind × ℕ → Tag) → Prop} (hrefl : ∀ a, r a a)
    (htrans : ∀ a b c, r a b → r b c → r a c)
    (hclear : ∀ (k : Kernel) c id s flag, (k.slot (c, id)).locked = false →
      r k.tag (k.clear c id s flag).tag) : Dropping Kernel.tag r :=
  Clearing.dropping ⟨hrefl, htrans, fun _ _ => rfl, fun _ _ _ _ => rfl, fun _ _ _ _ => rfl,
    fun _ _ _ => tag_setSlot_same rfl rfl rfl, hclear⟩

theorem tagMoves_clear (k : Kernel) (c : IpcKind) (id : ℕ) (s : KHeap) (flag : ℕ) :
    TagMoves k.tag (k.clear c id s flag).tag := by
  rw [clear_tag]
  exact .single .clear

theorem tag_retiring : Retiring Kernel.tag TagMoves where
  toDropping := tag_dropping (fun _ => .refl) (fun _ _ _ h h' => h.trans h')
    fun k c id s flag _ => tagMoves_clear k c id s flag
  reset _ _ _ := .refl
  retire _ _ _ huse := .single (retire_tag huse)
  clear k c id s flag _ := tagMoves_clear k c id s flag
  flag _ _ _ _ := tag_setSlot_same rfl rfl rfl
  msq _ _ _ := rfl
  values _ _ _ := rfl

theorem shmat_tag {shmid : ℤ} {shmaddr va : ℕ} {rdonly : Bool}
    (h : shmat L p shmid shmaddr rdonly k = .ok (va, k')) : k'.tag = k.tag := by
  obtain ⟨rfl, -⟩ | ⟨id, free, s, pt, pt', m, r, addr, k₁, -, -, -, -, -, hk₁, rfl⟩ := shmat_ok h
  · rfl
  · obtain ⟨s', -, rfl, -⟩ := Kernel.kmallocNode_ok hk₁
    exact addRef_tag

/-! ## The search -/

/-- The slot holds the key. -/
def hits (t : IpcKind × ℕ → Tag) (c : IpcKind) (key id : ℕ) : Bool := (t (c, id)).key = key

def unused (t : IpcKind × ℕ → Tag) (c : IpcKind) (id : ℕ) : Bool := (t (c, id)).state = .UNUSED

@[simp] theorem hits_iff {t : IpcKind × ℕ → Tag} :
    hits t c key id = true ↔ (t (c, id)).key = key := decide_eq_true_iff

@[simp] theorem unused_iff {t : IpcKind × ℕ → Tag} :
    unused t c id = true ↔ (t (c, id)).state = .UNUSED := decide_eq_true_iff

theorem IpcKind.max_pos (c : IpcKind) : 0 < c.max := by
  cases c with
  | shm => decide
  | sem => decide
  | msq => decide

theorem atLoop_ok {key n i : ℕ} {hole r : Option ℕ} (h : atLoop k c key n i hole = .ok r) :
    r = search c.max (hits k.tag c key) (unused k.tag c) n i hole := by
  induction n generalizing i hole with
  | zero =>
    cases h
    rfl
  | succ n ih =>
    simp only [atLoop, bind_eq_ok] at h
    obtain ⟨u, -, h⟩ := h
    rw [search]
    split at h
    · rename_i hkey
      cases h
      rw [if_pos (hits_iff.mpr hkey)]
    · rename_i hkey
      rw [if_neg (fun hhit => hkey (hits_iff.mp hhit)), ih h]
      simp only [unused_iff]
      rfl

theorem atLoop_eq (hfree : ∀ id, (k.tag (c, id)).locked = false) (key n i : ℕ) (hole : Option ℕ) :
    atLoop k c key n i hole =
      .ok (search c.max (hits k.tag c key) (unused k.tag c) n i hole) := by
  have hok : ∃ r, atLoop k c key n i hole = .ok r := by
    induction n generalizing i hole with
    | zero => exact ⟨hole, rfl⟩
    | succ n ih =>
      have hacq : k.acquire c i = .ok () := by
        have hi : (k.slot (c, i)).locked = false := hfree i
        simp [Kernel.acquire, hi]
      simp only [atLoop, hacq, ok_bind]
      split
      · exact ⟨some i, rfl⟩
      · exact ih _ _
  obtain ⟨r, hr⟩ := hok
  rw [hr, atLoop_ok hr]

/-- The slots of a pool in the order in which the search for a key meets them. -/
def probe (c : IpcKind) (key : ℕ) : List ℕ := order c.max key c.max

theorem search_probe (t : IpcKind × ℕ → Tag) (c : IpcKind) (key : ℕ) :
    search c.max (hits t c key) (unused t c) c.max (key % c.max) none =
      ((probe c key).find? (hits t c key)).or ((probe c key).find? (unused t c)) := by
  rw [search_eq _ _ (Nat.mod_lt _ c.max_pos), order_mod, Option.none_or]
  rfl

theorem ipcAt_ok (h : ipcAt c key k = .ok id) :
    ((probe c key).find? (hits k.tag c key)).or ((probe c key).find? (unused k.tag c)) =
      some id := by
  simp only [ipcAt, bind_eq_ok] at h
  obtain ⟨r, hr, h⟩ := h
  rw [← search_probe, ← atLoop_ok hr]
  cases r with
  | none => cases h
  | some id' =>
    cases h
    rfl

theorem ipcAt_eq (hfree : ∀ id, (k.tag (c, id)).locked = false)
    (h : ((probe c key).find? (hits k.tag c key)).or ((probe c key).find? (unused k.tag c)) =
      some id) :
    ipcAt c key k = .ok id := by
  simp only [ipcAt, atLoop_eq hfree, search_probe, h, ok_bind]
  rfl

/-! ## The invariant -/

/-- The keys of a pool: slots in use have different keys, and the others have
none. -/
structure KeysUnique (t : IpcKind × ℕ → Tag) (c : IpcKind) : Prop where
  unused_key : ∀ id < c.max, (t (c, id)).state = .UNUSED → (t (c, id)).key = 0
  used_key : ∀ id < c.max, (t (c, id)).state ≠ .UNUSED → (t (c, id)).key ≠ 0
  inj : ∀ id < c.max, ∀ id' < c.max, (t (c, id)).state ≠ .UNUSED →
    (t (c, id')).state ≠ .UNUSED → (t (c, id)).key = (t (c, id')).key → id = id'

section Search

variable {t : IpcKind × ℕ → Tag}

theorem KeysUnique.state_of_key (h : KeysUnique t c) (hid : id < c.max)
    (hkey : (t (c, id)).key ≠ 0) : (t (c, id)).state ≠ .UNUSED :=
  fun hstate => hkey (h.unused_key id hid hstate)

/-- The key is found where it is, whatever slots before it have been freed. -/
theorem KeysUnique.find_hit (h : KeysUnique t c) (hkey : key ≠ 0) (hid : id < c.max)
    (hholds : (t (c, id)).key = key) : (probe c key).find? (hits t c key) = some id := by
  have hhit : hits t c key id = true := hits_iff.mpr hholds
  cases hfind : (probe c key).find? (hits t c key) with
  | none => exact absurd hhit (List.find?_eq_none.mp hfind id (mem_order hid))
  | some id' =>
    have hkey' : (t (c, id')).key = key := hits_iff.mp (List.find?_some hfind)
    have hlt : id' < c.max := by
      obtain ⟨j, -, rfl⟩ := List.mem_map.mp (List.mem_of_find?_eq_some hfind)
      exact Nat.mod_lt _ c.max_pos
    have huse' := h.state_of_key hlt (hkey' ▸ hkey)
    have huse := h.state_of_key hid (hholds ▸ hkey)
    rw [h.inj id' hlt id hid huse' huse (hkey'.trans hholds.symm)]

theorem find_hit_eq_none (h : ∀ id < c.max, (t (c, id)).key ≠ key) :
    (probe c key).find? (hits t c key) = none := by
  refine List.find?_eq_none.mpr fun id hid => ?_
  obtain ⟨j, -, rfl⟩ := List.mem_map.mp hid
  simpa using h _ (Nat.mod_lt _ c.max_pos)

theorem KeysUnique.move (h : KeysUnique t c) (hmove : TagMove t t') : KeysUnique t' c := by
  cases hmove with
  | @clear x =>
    have hslot : ∀ id, x = (c, id) ∨ update t x { t x with key := 0, state := .UNUSED }
        (c, id) = t (c, id) := fun id => by
      by_cases hx : x = (c, id)
      · exact Or.inl hx
      · exact Or.inr (update_of_ne (Ne.symm hx) _ _)
    refine ⟨fun id hid => ?_, fun id hid => ?_, fun id hid id' hid' => ?_⟩
    · rcases hslot id with rfl | heq
      · simp
      · rw [heq]
        exact h.unused_key id hid
    · rcases hslot id with rfl | heq
      · simp
      · rw [heq]
        exact h.used_key id hid
    · rcases hslot id with rfl | heq
      · simp
      rcases hslot id' with rfl | heq'
      · simp
      rw [heq, heq']
      exact h.inj id hid id' hid'
  | @retire x huse =>
    have hkey : ∀ y, (update t x { t x with state := .ZOMBIE } y).key = (t y).key := by
      intro y
      by_cases hy : y = x
      · subst hy
        simp
      · rw [update_of_ne hy]
    have hstate : ∀ y, (update t x { t x with state := .ZOMBIE } y).state = .UNUSED ↔
        (t y).state = .UNUSED := by
      intro y
      by_cases hy : y = x
      · subst hy
        simp [huse]
      · rw [update_of_ne hy]
    refine ⟨fun id hid => ?_, fun id hid => ?_, fun id hid id' hid' => ?_⟩
    · rw [hkey, hstate]
      exact h.unused_key id hid
    · rw [hkey, ne_eq, hstate]
      exact h.used_key id hid
    · rw [hkey, hkey, ne_eq, ne_eq, hstate, hstate]
      exact h.inj id hid id' hid'

theorem KeysUnique.moves (h : KeysUnique t c) (hmoves : TagMoves t t') : KeysUnique t' c := by
  induction hmoves with
  | refl => exact h
  | tail _ hmove ih => exact ih.move hmove

/-- A new key goes to a slot that was free. -/
theorem KeysUnique.create (h : KeysUnique t c) {c' : IpcKind} (hkey : key ≠ 0)
    (hnew : ∀ id < c'.max, (t (c', id)).key ≠ key) :
    KeysUnique (update t (c', id) { t (c', id) with key := key, state := .USED }) c := by
  by_cases hc : c' = c
  · subst hc
    have hslot : ∀ j, j = id ∨ update t (c', id)
        { t (c', id) with key := key, state := .USED } (c', j) = t (c', j) := fun j => by
      by_cases hj : j = id
      · exact Or.inl hj
      · exact Or.inr (update_of_ne (by simpa using hj) _ _)
    refine ⟨fun i hi => ?_, fun i hi => ?_, fun i hi j hj => ?_⟩
    · rcases hslot i with rfl | heq
      · simp
      · rw [heq]
        exact h.unused_key i hi
    · rcases hslot i with rfl | heq
      · simpa using hkey
      · rw [heq]
        exact h.used_key i hi
    · rcases hslot i with rfl | heq
      · rcases hslot j with rfl | heq'
        · exact fun _ _ _ => rfl
        · rw [heq']
          intro _ _ hsame
          simp only [update_self] at hsame
          exact absurd hsame.symm (hnew j hj)
      · rcases hslot j with rfl | heq'
        · rw [heq]
          intro _ _ hsame
          simp only [update_self] at hsame
          exact absurd hsame (hnew i hi)
        · rw [heq, heq']
          exact h.inj i hi j hj
  · have hslot : ∀ j, update t (c', id)
        { t (c', id) with key := key, state := .USED } (c, j) = t (c, j) := fun j =>
      update_of_ne (by simp [Ne.symm hc]) _ _
    refine ⟨fun i hi => ?_, fun i hi => ?_, fun i hi j hj => ?_⟩
    · rw [hslot]
      exact h.unused_key i hi
    · rw [hslot]
      exact h.used_key i hi
    · rw [hslot, hslot]
      exact h.inj i hi j hj

theorem TagMoves.locked (h : TagMoves t t') (x : IpcKind × ℕ) : (t' x).locked = (t x).locked := by
  induction h with
  | refl => rfl
  | @tail t₁ t₂ _ hmove ih =>
    rw [← ih]
    cases hmove with
    | @clear y | @retire y _ =>
      by_cases hx : x = y
      · subst hx
        simp
      · rw [update_of_ne hx]

/-- A slot that is in use after some moves was in use before, under the same key. -/
theorem TagMoves.used (h : TagMoves t t') (huse : (t' x).state ≠ .UNUSED) :
    (t x).state ≠ .UNUSED ∧ (t' x).key = (t x).key := by
  induction h with
  | refl => exact ⟨huse, rfl⟩
  | @tail t₁ t₂ _ hmove ih =>
    cases hmove with
    | @clear y =>
      by_cases hx : x = y
      · subst hx
        simp at huse
      · rw [update_of_ne hx] at huse ⊢
        exact ih huse
    | @retire y huse₁ =>
      by_cases hx : x = y
      · subst hx
        rw [update_self]
        exact ih huse₁
      · rw [update_of_ne hx] at huse ⊢
        exact ih huse

end Search

/-! ## Gets -/

/-- A call of `shmget`, `semget` or `msgget`, by any process and with any size and
flags. -/
def GetCall (L : Layout) (c : IpcKind) (key : ℕ) (k : Kernel) (r : ℤ) (k' : Kernel) : Prop :=
  match c with
  | .shm => ∃ size flag, shmget L key size flag k = .ok (r, k')
  | .sem => ∃ p size flag, semget L p key size flag k = .ok (r, k')
  | .msq => ∃ p maxlen flag, msgget L p key maxlen flag k = .ok (r, k')

/-- What a get does: it fails, it returns the slot of the key, or it fills a free
slot. -/
inductive Got (c : IpcKind) (key : ℕ) (k : Kernel) (r : ℤ) (k' : Kernel) : Prop
  | failed (hr : r < 0) (htag : k'.tag = k.tag)
  | found {id : ℕ} (hr : r = id) (hat : ipcAt c key k = .ok id)
      (huse : (k.tag (c, id)).state ≠ .UNUSED) (htag : k'.tag = k.tag)
  | created {id : ℕ} (hr : r = id) (hat : ipcAt c key k = .ok id)
      (hfree : (k.tag (c, id)).state = .UNUSED)
      (htag : k'.tag = update k.tag (c, id)
        { k.tag (c, id) with key := key, state := .USED })

/-- What the last section does. It does not look at the key of the slot. -/
inductive GotAt (c : IpcKind) (key flag id : ℕ) (k : Kernel) (r : ℤ) (k' : Kernel) : Prop
  | refused (hr : r < 0)
      (hwhy : (k.tag (c, id)).state = .UNUSED ∧ ¬ flagCreate flag ∨
        (k.tag (c, id)).state ≠ .UNUSED ∧ flagCreate flag ∧ flagExcl flag)
      (htag : k'.tag = k.tag)
  | shared (hr : r = id) (huse : (k.tag (c, id)).state ≠ .UNUSED)
      (hmay : ¬ (flagCreate flag ∧ flagExcl flag)) (htag : k'.tag = k.tag)
  | created (hr : r = id) (hfree : (k.tag (c, id)).state = .UNUSED) (hmay : flagCreate flag)
      (htag : k'.tag = update k.tag (c, id)
        { k.tag (c, id) with key := key, state := .USED })

theorem ipcGetAt_got {key flag : ℕ} {create share : ℕ → Kernel → Kres Kernel}
    (hcreate : ∀ id k k', create id k = .ok k' → k'.tag = k.tag)
    (hshare : ∀ id k k', share id k = .ok k' → k'.tag = k.tag)
    (h : ipcGetAt c key flag create share id k = .ok (r, k')) : GotAt c key flag id k r k' := by
  cases ipcGetAt_done h with
  | refused hr hwhy hk => exact .refused hr hwhy (by rw [hk])
  | shared hr huse hmay hk => exact .shared hr huse hmay (hshare id k k' hk)
  | @created k₁ hr hfree hmay hk₁ hk =>
    refine .created hr hfree hmay ?_
    have htag := hcreate id k k₁ hk₁
    rw [hshare id _ _ hk, tag_setSlot, ← htag]
    rfl

/-- The arguments of a get. The size is the number of bytes, of semaphores or of
messages. -/
structure Get where
  kind : IpcKind
  key : ℕ
  size : ℕ
  flag : ℕ

/-- The last critical section of `shmget`, `semget` and `msgget`. -/
def getSection (L : Layout) (p : Fin NPROC) (g : Get) : ℕ → Kernel → Kres (ℤ × Kernel) :=
  match g.kind with
  | .shm => ipcGetAt .shm g.key g.flag
      (fun id k => do
        let (pa, k) ← k.kmalloc L g.size
        return k.setShm id ⟨g.size % 2 ^ 32, pa⟩)
      (fun _ k => .ok k)
  | .sem => ipcGetAt .sem g.key g.flag
      (fun id k => do
        let bytes := g.size * 24 % 2 ^ 64
        let (ptr, k) ← k.kmalloc L bytes
        if ptr = NULL ∧ bytes ≠ 0 then
          throw .nullStore
        return k.setSem id ⟨g.size % 2 ^ 32, ptr, fun _ => ⟨0, []⟩⟩)
      (procAddsem L p)
  | .msq => ipcGetAt .msq g.key g.flag
      (fun id k =>
        return if g.size > 0 then k.setMsq id { k.msqid id with maxlen := g.size } else k)
      (procAddmsq L p)

theorem getSection_got {g : Get} (h : getSection L p g id k = .ok (r, k')) :
    GotAt g.kind g.key g.flag id k r k' := by
  obtain ⟨kind, key, size, flag⟩ := g
  simp only [getSection] at h
  cases kind with
  | shm =>
    refine ipcGetAt_got ?_ ?_ h
    · intro id k k' hcreate
      obtain ⟨pa, s, -, rfl⟩ := shmCreate_ok hcreate
      rfl
    · intro id k k' hshare
      cases hshare
      rfl
  | sem =>
    refine ipcGetAt_got ?_ (fun id k k' => addNode_tag) h
    intro id k k' hcreate
    obtain ⟨ptr, s, rfl⟩ := semCreate_ok hcreate
    rfl
  | msq =>
    refine ipcGetAt_got ?_ (fun id k k' => addNode_tag) h
    intro id k k' hcreate
    split at hcreate
    · cases hcreate
      rfl
    · cases hcreate
      rfl

/-- A get is the search followed by the last section. -/
theorem GetCall.at_section (h : GetCall L c key k r k') :
    ∃ p size flag id, ipcAt c key k = .ok id ∧
      getSection L p ⟨c, key, size, flag⟩ id k = .ok (r, k') := by
  cases c with
  | shm =>
    obtain ⟨size, flag, h⟩ := h
    rw [shmget, ipcGet, bind_eq_ok] at h
    obtain ⟨id, hat, h⟩ := h
    exact ⟨0, size, flag, id, hat, h⟩
  | sem =>
    obtain ⟨p, size, flag, h⟩ := h
    rw [semget, ipcGet, bind_eq_ok] at h
    obtain ⟨id, hat, h⟩ := h
    exact ⟨p, size, flag, id, hat, h⟩
  | msq =>
    obtain ⟨p, maxlen, flag, h⟩ := h
    rw [msgget, ipcGet, bind_eq_ok] at h
    obtain ⟨id, hat, h⟩ := h
    exact ⟨p, maxlen, flag, id, hat, h⟩

theorem GetCall.got (h : GetCall L c key k r k') : Got c key k r k' := by
  obtain ⟨p, size, flag, id, hat, hsection⟩ := h.at_section
  cases getSection_got hsection with
  | refused hr _ htag => exact .failed hr htag
  | shared hr huse _ htag => exact .found hr hat huse htag
  | created hr hfree _ htag => exact .created hr hat hfree htag

/-- The keys of all pools are sound and no lock has been left held. -/
structure KeysInv (k : Kernel) : Prop where
  unique : ∀ c, KeysUnique k.tag c
  unlocked : ∀ x, (k.tag x).locked = false

theorem KeysInv.moves (h : KeysInv k) (hmoves : TagMoves k.tag k'.tag) : KeysInv k' :=
  ⟨fun c => (h.unique c).moves hmoves, fun x => (hmoves.locked x).trans (h.unlocked x)⟩

/-- A slot that the search returns although it is free means that no slot holds
the key. -/
theorem KeysInv.fresh (h : KeysInv k) (hkey : key ≠ 0) (hat : ipcAt c key k = .ok id)
    (hfree : (k.tag (c, id)).state = .UNUSED) : ∀ j < c.max, (k.tag (c, j)).key ≠ key := by
  intro j hj hholds
  have hfind := (h.unique c).find_hit hkey hj hholds
  have hid := ipcAt_ok hat
  rw [hfind, Option.some_or, Option.some.injEq] at hid
  subst hid
  exact (h.unique c).state_of_key hj (hholds ▸ hkey) hfree

theorem KeysInv.got (h : KeysInv k) (hkey : key ≠ 0) (hgot : Got c key k r k') : KeysInv k' := by
  cases hgot with
  | failed _ htag | found _ _ _ htag => exact h.moves (TagMoves.of_eq htag)
  | @created id _ hat hfree htag =>
    refine ⟨fun d => ?_, fun x => ?_⟩
    · rw [htag]
      exact (h.unique d).create hkey (h.fresh hkey hat hfree)
    · rw [htag]
      by_cases hx : x = (c, id)
      · rw [hx, update_self]
        exact h.unlocked _
      · rw [update_of_ne hx]
        exact h.unlocked x

theorem ipcAt_lt (h : ipcAt c key k = .ok id) : id < c.max := by
  have hmem : id ∈ probe c key := by
    have hfind := ipcAt_ok h
    rw [Option.or_eq_some_iff] at hfind
    rcases hfind with hfind | ⟨-, hfind⟩ <;> exact List.mem_of_find?_eq_some hfind
  obtain ⟨j, -, rfl⟩ := List.mem_map.mp hmem
  exact Nat.mod_lt _ c.max_pos

/-- The search finds a key that some slot holds. -/
theorem KeysInv.ipcAt_present (h : KeysInv k) (hkey : key ≠ 0) (hid : id < c.max)
    (hholds : (k.slot (c, id)).key = key) : ipcAt c key k = .ok id := by
  refine ipcAt_eq (fun j => h.unlocked (c, j)) ?_
  rw [(h.unique c).find_hit hkey hid hholds, Option.some_or]

/-- A get that succeeds leaves the key in the slot it returns. -/
theorem Got.holds (hgot : Got c key k r k') (hr : 0 ≤ r) :
    ∃ id : ℕ, r = id ∧ id < c.max ∧ (k'.slot (c, id)).key = key := by
  cases hgot with
  | failed hneg _ => omega
  | @found id hid hat huse htag =>
    refine ⟨id, hid, ipcAt_lt hat, ?_⟩
    change (k'.tag (c, id)).key = key
    rw [htag]
    have hfind := ipcAt_ok hat
    rw [Option.or_eq_some_iff] at hfind
    rcases hfind with hfind | ⟨-, hfind⟩
    · exact hits_iff.mp (List.find?_some hfind)
    · exact absurd (unused_iff.mp (List.find?_some hfind)) huse
  | @created id hid hat hfree htag =>
    refine ⟨id, hid, ipcAt_lt hat, ?_⟩
    change (k'.tag (c, id)).key = key
    rw [htag, update_self]

/-! ## Runs -/

/-- Gets use nonzero keys, and no call keeps the lock of a semaphore set. -/
def KeyOp : Op → Prop
  | .shmget _ key _ _ _ | .semget _ key _ _ | .msgget _ key _ _ => key ≠ 0
  | .semctl _ _ _ cmd _ _ => Releases cmd
  | _ => True

def Op.isGet : Op → Bool
  | .shmget .. | .semget .. | .msgget .. => true
  | _ => false

/-- Calls that can mark a slot for removal or destroy it. -/
def Op.mayClear : Op → Bool
  | .shmdt .. | .shmctl .. | .semctl .. | .msgctl .. | .wait .. => true
  | _ => false

theorem tag_kept (h : Step L k op k') (hget : op.isGet = false) (hrem : op.mayClear = false) :
    k'.tag = k.tag := by
  cases h.call with
  | shmget => cases hget
  | semget => cases hget
  | msgget => cases hget
  | shmdt => cases hrem
  | shmctl => cases hrem
  | semctl => cases hrem
  | msgctl => cases hrem
  | wait => cases hrem
  | shmat hcall => exact shmat_tag hcall
  | semop hcall => exact semop_quiet tag_quiet hcall
  | resume hcall => exact semopResume_quiet tag_quiet hcall
  | msgsnd hcall => exact msgsnd_quiet tag_quiet hcall
  | msgrcv hcall => exact msgrcv_quiet tag_quiet hcall
  | fork hcall =>
    obtain ⟨vm, -, htag⟩ := fork_sharing tag_sharing hcall
    exact htag
  | exit hcall =>
    simp only [exit, bind_eq_ok, pure_eq_ok] at hcall
    obtain ⟨vm, -, rfl⟩ := hcall
    rfl
  | kill => rfl

theorem other_tags (h : Step L k op k') (hop : KeyOp op) (hget : op.isGet = false) :
    TagMoves k.tag k'.tag := by
  cases hrem : op.mayClear with
  | false => exact TagMoves.of_eq (tag_kept h hget hrem)
  | true =>
    cases h.call with
    | shmdt hcall => exact shmdt_dropping tag_retiring.toDropping hcall
    | shmctl hcall => exact shmctl_retiring tag_retiring hcall
    | semctl hcall => exact semctl_retiring tag_retiring hop hcall
    | msgctl hcall => exact msgctl_retiring tag_retiring hcall
    | wait hcall => exact wait_reaping tag_retiring.toReaping hcall
    | _ => cases hrem

/-- The effect of a step on the keys. -/
theorem step_tags (h : Step L k op k') (hop : KeyOp op) :
    TagMoves k.tag k'.tag ∨ ∃ c key r, key ≠ 0 ∧ GetCall L c key k r k' := by
  cases hget : op.isGet with
  | false => exact Or.inl (other_tags h hop hget)
  | true =>
    cases h.call with
    | shmget hcall => exact Or.inr ⟨.shm, _, _, hop, _, _, hcall⟩
    | semget hcall => exact Or.inr ⟨.sem, _, _, hop, _, _, _, hcall⟩
    | msgget hcall => exact Or.inr ⟨.msq, _, _, hop, _, _, _, hcall⟩
    | _ => cases hget

theorem keysInv_step (h : KeysInv k) (hop : KeyOp op) (hstep : Step L k op k') : KeysInv k' := by
  rcases step_tags hstep hop with hmoves | ⟨c, key, r, hkey, hget⟩
  · exact h.moves hmoves
  · exact h.got hkey hget.got

/-- A slot keeps its key for as long as it is in use. -/
theorem key_step (hop : KeyOp op) (hstep : Step L k op k') (huse : (k.slot x).state ≠ .UNUSED)
    (huse' : (k'.slot x).state ≠ .UNUSED) : (k'.slot x).key = (k.slot x).key := by
  rcases step_tags hstep hop with hmoves | ⟨c, key, r, -, hget⟩
  · exact (hmoves.used huse').2
  · change (k'.tag x).key = (k.tag x).key
    cases hget.got with
    | failed _ htag => rw [htag]
    | found _ _ _ htag => rw [htag]
    | created _ _ hfree htag =>
      rw [htag, update_of_ne]
      exact fun hx => huse (hx ▸ hfree)

/-- The search for a key: a slot that holds it, or else the first free slot in
circular order. -/
structure KeysFindable (k : Kernel) (c : IpcKind) : Prop where
  present : ∀ key ≠ 0, ∀ id < c.max, (k.slot (c, id)).key = key → ipcAt c key k = .ok id
  absent : ∀ key, (∀ id < c.max, (k.slot (c, id)).key ≠ key) → ∀ j < c.max,
    (k.slot (c, (key + j) % c.max)).state = .UNUSED →
    (∀ i < j, (k.slot (c, (key + i) % c.max)).state ≠ .UNUSED) →
    ipcAt c key k = .ok ((key + j) % c.max)

theorem KeysInv.findable (h : KeysInv k) (c : IpcKind) : KeysFindable k c where
  present key hkey id hid hholds := h.ipcAt_present hkey hid hholds
  absent key hnone j hj hfree hfirst := by
    refine ipcAt_eq (fun i => h.unlocked (c, i)) ?_
    rw [find_hit_eq_none hnone, Option.none_or, probe, find?_order hj (unused_iff.mpr hfree)]
    intro i hi
    exact Bool.eq_false_iff.mpr fun hunused => hfirst i hi (unused_iff.mp hunused)

theorem KeysInv.key_kept {run : List (Op × Kernel)} (hrun : IsRun (Step L) k run)
    (hops : Along (fun _ op => KeyOp op) k run)
    (huse : ∀ u ∈ visited k run, (u.slot x).state ≠ .UNUSED) :
    ∀ u ∈ visited k run, (u.slot x).key = (k.slot x).key := by
  have hboth := (hrun.and_along hops).and_visited _ huse
  have hinv := IsRun.invariant_always
    (fun u => (u.slot x).state ≠ .UNUSED ∧ (u.slot x).key = (k.slot x).key) ?_
    ⟨huse k List.mem_cons_self, rfl⟩ hboth
  · exact fun u hu => (hinv u hu).2
  · intro u op u' hu hstep
    exact ⟨hstep.2, (key_step hstep.1.2 hstep.1.1 hu.1 hstep.2).trans hu.2⟩

/-- Keys stay unique and findable in every run of gets with nonzero keys, removals
and process exits, and gets for one key return one slot while it exists. -/
theorem ipc_keys_unique_findable {k₀ : Kernel} {run : List (Op × Kernel)} (h : KeysInv k₀)
    (hrun : IsRun (Step L) k₀ run) (hops : ∀ op ∈ run.map Prod.fst, KeyOp op) :
    ∀ k ∈ visited k₀ run, ∀ c, KeysUnique k.tag c ∧ KeysFindable k c ∧
      ∀ key ≠ 0, ∀ r k₁, GetCall L c key k r k₁ → 0 ≤ r →
        ∀ later, IsRun (Step L) k₁ later → (∀ op ∈ later.map Prod.fst, KeyOp op) →
        (∀ u ∈ visited k₁ later, (u.slot (c, r.toNat)).state ≠ .UNUSED) →
        ∀ r' k₂, GetCall L c key (last k₁ later) r' k₂ → 0 ≤ r' → r' = r := by
  have hall : ∀ {k : Kernel} {run : List (Op × Kernel)}, KeysInv k → IsRun (Step L) k run →
      (∀ op ∈ run.map Prod.fst, KeyOp op) → ∀ u ∈ visited k run, KeysInv u := by
    intro k run hk hrun hops
    exact IsRun.invariant (fun _ op => KeyOp op) KeysInv
      (fun s op t hs hop hstep => keysInv_step hs hop hstep) hk hrun (Along.of_labels hops)
  intro k hk c
  have hinv := hall h hrun hops k hk
  refine ⟨hinv.unique c, hinv.findable c, ?_⟩
  intro key hkey r k₁ hget hr later hlater hlaterOps huse r' k₂ hget' hr'
  obtain ⟨id, rfl, hid, hholds⟩ := hget.got.holds hr
  have hk₁ := hinv.got hkey hget.got
  have hlast := last_mem_visited k₁ later
  have hkept : ((last k₁ later).slot (c, id)).key = key :=
    (KeysInv.key_kept hlater (Along.of_labels hlaterOps) huse _ hlast).trans hholds
  -- the key is still in the slot, so the search of the second get ends there
  have hat := (hall hk₁ hlater hlaterOps _ hlast).ipcAt_present hkey hid hkept
  cases hget'.got with
  | failed hneg _ => omega
  | found hr' hat' _ _ | created hr' hat' _ _ =>
    rw [hat, Except.ok.injEq] at hat'
    rw [hr', hat']

theorem smallBoot_keys {k₀ : Kernel} (h : smallBoot L = .ok k₀) : KeysInv k₀ := by
  obtain ⟨vm, word, cache, free, rfl⟩ := smallBoot_ok h
  exact ⟨fun c => ⟨fun _ _ _ => rfl, fun _ _ huse => absurd rfl huse,
    fun _ _ _ _ huse => absurd rfl huse⟩, fun _ => rfl⟩

/-- Two queues whose keys collide; the first one is removed and the second one is
still found behind the hole. -/
theorem colliding_keys_found :
    ∃ k₀ run, smallBoot smallLayout = .ok k₀ ∧ IsRun (Step smallLayout) k₀ run ∧
      run.map Prod.fst = [.msgget 0 1 0 0x8fff, .msgget 0 17 0 0x8fff, .msgctl 0 1 IPC_RMID 0 0] ∧
      ((last k₀ run).slot (.msq, 1)).state = .UNUSED ∧
      ((last k₀ run).slot (.msq, 2)).key = 17 ∧ ipcAt .msq 17 (last k₀ run) = .ok 2 := by
  obtain ⟨k₀, run, rest, hk₀, hrun, hops, -, hhole, hkey⟩ := boot_run_after (L := smallLayout)
    [.msgget 0 1 0 0x8fff, .msgget 0 17 0 0x8fff, .msgctl 0 1 IPC_RMID 0 0] []
    (fun k _ => (k.slot (.msq, 1)).state = .UNUSED ∧ (k.slot (.msq, 2)).key = 17)
    (by decide +kernel)
  have hok : ∀ op ∈ run.map Prod.fst, KeyOp op := by
    rw [hops]
    simp [KeyOp]
  have hkeys := ipc_keys_unique_findable (smallBoot_keys hk₀) hrun hok _ (last_mem_visited k₀ run)
  refine ⟨k₀, run, hk₀, hrun, hops, hhole, hkey, ?_⟩
  exact (hkeys .msq).2.1.present 17 (by decide) 2 (by decide) hkey

end LearnOS.Ipc
