import LearnOS.Ipc.Keys

/-!
# Gets that fail cleanly

`shmget`, `semget` and `msgget` on any state of their pool. A get is clean when it
fails without a trace or returns a slot under the key that was asked for, with an
object of the size that was asked for when the slot is new.

## Implementation notes

A get reads outside its pool when the search returns `-1`, and a slot that was
left locked stops the search; both are faults of the model, so a get that returns
at all has done neither. `HeapServes` says that the blocks a get asks for can be
had one after the other.
-/

namespace LearnOS.Ipc

open LearnOS Probe Transition Function Kres

variable {L : Layout} {k k' : Kernel} {c : IpcKind} {p : Fin NPROC} {id key : ℕ} {g : Get}

def getCall (L : Layout) (p : Fin NPROC) (g : Get) (k : Kernel) : Kres (ℤ × Kernel) :=
  match g.kind with
  | .shm => shmget L g.key g.size g.flag k
  | .sem => semget L p g.key g.size g.flag k
  | .msq => msgget L p g.key g.size g.flag k

theorem getCall_eq :
    getCall L p g k = ipcAt g.kind g.key k >>= fun id => getSection L p g id k := by
  obtain ⟨kind, key, size, flag⟩ := g
  cases kind with
  | shm => rfl
  | sem => rfl
  | msq => rfl

/-- The pools and the lists of the processes. -/
structure SamePools (k k' : Kernel) : Prop where
  slot : k'.slot = k.slot
  shmid : k'.shmid = k.shmid
  semid : k'.semid = k.semid
  msqid : k'.msqid = k.msqid
  nodes : k'.nodes = k.nodes
  freeva : k'.freeva = k.freeva

/-- What a new slot refers to. A queue has no block; its size is the number of
messages, with `0` for the default. -/
def NewObject (c : IpcKind) (size id : ℕ) (k : Kernel) : Prop :=
  match c with
  | .shm => (k.shmid id).ptr ≠ NULL ∧ (k.shmid id).sz = size
  | .sem => (k.semid id).ptr ≠ NULL ∧ (k.semid id).sz = size
  | .msq => 0 < size → (k.msqid id).maxlen = size

/-- The slot that a get returns. -/
structure GivesSlot (g : Get) (k k' : Kernel) (id : ℕ) : Prop where
  lt : id < g.kind.max
  used : (k'.slot (g.kind, id)).state ≠ .UNUSED
  key : (k'.slot (g.kind, id)).key = g.key
  key_ne : g.key ≠ 0
  fresh : (k.slot (g.kind, id)).state = .UNUSED → NewObject g.kind g.size id k'

/-- A get returns, and it either fails without a trace or gives a slot. -/
def Clean (g : Get) (k : Kernel) (x : Kres (ℤ × Kernel)) : Prop :=
  ∃ r k', x = .ok (r, k') ∧ (r < 0 ∧ SamePools k k' ∨ ∃ id : ℕ, r = id ∧ GivesSlot g k k' id)

/-! ## The search -/

/-- No lock was left held on the slots that the search for a key meets. -/
def ProbeFree (k : Kernel) (c : IpcKind) (key : ℕ) : Prop :=
  ∀ j < c.max, (∀ i < j, (k.slot (c, (key + i) % c.max)).key ≠ key) →
    (k.slot (c, (key + j) % c.max)).locked = false

/-- The first slot that holds the key or, when none does, the first free slot. -/
def Target (k : Kernel) (c : IpcKind) (key id : ℕ) : Prop :=
  ∃ j < c.max, id = (key + j) % c.max ∧
    ((k.slot (c, id)).key = key ∧ (∀ i < j, (k.slot (c, (key + i) % c.max)).key ≠ key) ∨
      (k.slot (c, id)).state = .UNUSED ∧ (∀ i < c.max, (k.slot (c, i)).key ≠ key) ∧
        ∀ i < j, (k.slot (c, (key + i) % c.max)).state ≠ .UNUSED)

/-- The loop returns when it meets no lock before the key. -/
theorem atLoop_returns_iff {n start : ℕ} {hole : Option ℕ} :
    (∃ r, atLoop k c key n (start % c.max) hole = .ok r) ↔
      ∀ j < n, (∀ i < j, (k.slot (c, (start + i) % c.max)).key ≠ key) →
        (k.slot (c, (start + j) % c.max)).locked = false := by
  induction n generalizing start hole with
  | zero => simp [atLoop]
  | succ n ih =>
    have hshift : ∀ j, start + (j + 1) = start + 1 + j := fun j => by omega
    have hnext : (start % c.max + 1) % c.max = (start + 1) % c.max := Nat.mod_add_mod ..
    simp only [atLoop, bind_eq_ok, hnext]
    constructor
    · rintro ⟨r, u, hacq, h⟩ j hj hbefore
      cases j with
      | zero => exact Kernel.acquire_eq_ok_iff.mp hacq
      | succ j =>
        have hkey := hbefore 0 (Nat.succ_pos j)
        rw [Nat.add_zero] at hkey
        rw [if_neg hkey] at h
        rw [hshift]
        refine ih.mp ⟨r, h⟩ j (Nat.lt_of_succ_lt_succ hj) fun i hi => ?_
        rw [← hshift]
        exact hbefore (i + 1) (Nat.succ_lt_succ hi)
    · intro h
      have hacq := Kernel.acquire_eq_ok_iff.mpr
        (h 0 (Nat.succ_pos n) fun i hi => absurd hi (by omega))
      rw [Nat.add_zero] at hacq
      by_cases hkey : (k.slot (c, start % c.max)).key = key
      · exact ⟨_, (), hacq, if_pos hkey⟩
      · obtain ⟨r, hr⟩ := ih.mpr (fun j hj hbefore => by
          rw [← hshift]
          refine h (j + 1) (Nat.succ_lt_succ hj) fun i hi => ?_
          cases i with
          | zero => exact hkey
          | succ i =>
            rw [hshift]
            exact hbefore i (Nat.lt_of_succ_lt_succ hi))
        exact ⟨r, (), hacq, by rw [if_neg hkey]; exact hr⟩

theorem target_iff : Target k c key id ↔
    ((probe c key).find? (hits k.tag c key)).or ((probe c key).find? (unused k.tag c)) =
      some id := by
  rw [Option.or_eq_some_iff]
  constructor
  · rintro ⟨j, hj, rfl, ⟨hkey, hfirst⟩ | ⟨hfree, hnone, hfirst⟩⟩
    · refine Or.inl (find?_order hj (hits_iff.mpr hkey) fun i hi => ?_)
      exact Bool.eq_false_iff.mpr fun hhit => hfirst i hi (hits_iff.mp hhit)
    · refine Or.inr ⟨find_hit_eq_none hnone, find?_order hj (unused_iff.mpr hfree) fun i hi => ?_⟩
      exact Bool.eq_false_iff.mpr fun hhit => hfirst i hi (unused_iff.mp hhit)
  · rintro (hfind | ⟨hnone, hfind⟩)
    · obtain ⟨j, hj, hid, hhit, hfirst⟩ := exists_of_find?_order hfind
      refine ⟨j, hj, hid, Or.inl ⟨hits_iff.mp hhit, fun i hi hkey => ?_⟩⟩
      exact Bool.eq_false_iff.mp (hfirst i hi) (hits_iff.mpr hkey)
    · obtain ⟨j, hj, hid, hfree, hfirst⟩ := exists_of_find?_order hfind
      refine ⟨j, hj, hid, Or.inr ⟨unused_iff.mp hfree, fun i hi hkey => ?_, fun i hi hstate => ?_⟩⟩
      · exact List.find?_eq_none.mp hnone i (mem_order hi) (hits_iff.mpr hkey)
      · exact Bool.eq_false_iff.mp (hfirst i hi) (unused_iff.mpr hstate)

/-- When the search returns, and what. -/
theorem ipcAt_eq_ok_iff : ipcAt c key k = .ok id ↔ ProbeFree k c key ∧ Target k c key id := by
  constructor
  · intro h
    refine ⟨?_, target_iff.mpr (ipcAt_ok h)⟩
    simp only [ipcAt, bind_eq_ok] at h
    obtain ⟨r, hr, -⟩ := h
    exact atLoop_returns_iff.mp ⟨r, hr⟩
  · rintro ⟨hfree, htarget⟩
    obtain ⟨r, hr⟩ := atLoop_returns_iff.mpr hfree
    have hsearch := atLoop_ok hr
    rw [search_probe, target_iff.mp htarget] at hsearch
    subst hsearch
    simp only [ipcAt, hr, ok_bind]
    rfl

theorem Target.lt (h : Target k c key id) : id < c.max := by
  obtain ⟨j, -, rfl, -⟩ := h
  exact Nat.mod_lt _ c.max_pos

/-- A slot in use at which the search ends holds the key. -/
theorem Target.holds (h : Target k c key id) (huse : (k.slot (c, id)).state ≠ .UNUSED) :
    (k.slot (c, id)).key = key := by
  obtain ⟨j, -, -, ⟨hkey, -⟩ | ⟨hfree, -⟩⟩ := h
  · exact hkey
  · exact absurd hfree huse

theorem Target.acquire (h : Target k c key id) (hfree : ProbeFree k c key) :
    k.acquire c id = .ok () := by
  refine Kernel.acquire_eq_ok_iff.mpr ?_
  obtain ⟨j, hj, rfl, ⟨-, hfirst⟩ | ⟨-, hnone, -⟩⟩ := h
  · exact hfree j hj hfirst
  · exact hfree j hj fun i _ => hnone _ (Nat.mod_lt _ c.max_pos)

/-! ## The last section -/

/-- Blocks of the given sizes can be had one after the other. -/
def HeapServes (L : Layout) : List ℕ → KHeap → Prop
  | [], _ => True
  | sz :: rest, s => ∃ a s', LearnOS.kmalloc L sz s = .ok (a, s') ∧ a ≠ NULL ∧ HeapServes L rest s'

/-- The blocks that a get asks for: the object of a new slot, and the node of the
caller. -/
def Get.blocks (g : Get) (fresh : Bool) : List ℕ :=
  match g.kind with
  | .shm => if fresh then [g.size] else []
  | .sem => if fresh then [g.size * 24, IpcKind.sem.nodeSize] else [IpcKind.sem.nodeSize]
  | .msq => [IpcKind.msq.nodeSize]

/-- The flags do not allow the get. -/
def Get.Refused (g : Get) (state : IpcState) : Prop :=
  if state = .UNUSED then ¬ flagCreate g.flag else flagCreate g.flag ∧ flagExcl g.flag

/-- The size of a new object can be stored in its slot. -/
def Get.Fits (g : Get) : Prop := g.kind = .msq ∨ g.size < 2 ^ 32

/-- The get is not refused, its key is not the reserved one, and it is served. -/
def Get.Served (L : Layout) (g : Get) (k : Kernel) (state : IpcState) : Prop :=
  g.key ≠ 0 ∧ (state = .UNUSED → g.Fits) ∧ HeapServes L (g.blocks (state = .UNUSED)) k.heap

section Section

variable {create share : ℕ → Kernel → Kres Kernel}

theorem clean_refused {r : ℤ} (hr : r < 0) : Clean g k (.ok (r, k)) :=
  ⟨r, k, rfl, Or.inl ⟨hr, rfl, rfl, rfl, rfl, rfl, rfl⟩⟩

/-- A get that returns the slot of the key is clean when the key is not the
reserved one and the caller gets its node. -/
theorem clean_shared_iff (hshare : ∀ id k k', share id k = .ok k' → k'.tag = k.tag)
    (htarget : Target k g.kind g.key id) (huse : (k.slot (g.kind, id)).state ≠ .UNUSED) :
    Clean g k (share id k >>= fun k => .ok ((id : ℤ), k)) ↔
      g.key ≠ 0 ∧ ∃ k', share id k = .ok k' := by
  constructor
  · rintro ⟨r, k', hcall, hclean⟩
    simp only [bind_eq_ok, Except.ok.injEq, Prod.mk.injEq] at hcall
    obtain ⟨k₁, hk₁, rfl, rfl⟩ := hcall
    rcases hclean with ⟨hneg, -⟩ | ⟨id', -, hgives⟩
    · omega
    · exact ⟨hgives.key_ne, k₁, hk₁⟩
  · rintro ⟨hkey, k', hk'⟩
    have htag : k'.tag (g.kind, id) = k.tag (g.kind, id) := by rw [hshare id k k' hk']
    refine ⟨id, k', by rw [hk']; rfl, Or.inr ⟨id, rfl, htarget.lt, ?_, ?_, hkey, ?_⟩⟩
    · exact fun hstate => huse ((congrArg Tag.state htag).symm.trans hstate)
    · exact (congrArg Tag.key htag).trans (htarget.holds huse)
    · exact fun hstate => absurd hstate huse

theorem clean_created_iff (hshare : ∀ id k k', share id k = .ok k' → k'.tag = k.tag)
    (hlt : id < g.kind.max) (hfree : (k.slot (g.kind, id)).state = .UNUSED) :
    Clean g k (create id k >>= fun k =>
      share id (k.setSlot g.kind id ((k.slot (g.kind, id)).create g.key g.flag)) >>= fun k =>
        .ok ((id : ℤ), k)) ↔
      g.key ≠ 0 ∧ ∃ k₁ k₂, create id k = .ok k₁ ∧
        share id (k₁.setSlot g.kind id ((k₁.slot (g.kind, id)).create g.key g.flag)) = .ok k₂ ∧
        NewObject g.kind g.size id k₂ := by
  constructor
  · rintro ⟨r, k', hcall, hclean⟩
    simp only [bind_eq_ok, Except.ok.injEq, Prod.mk.injEq] at hcall
    obtain ⟨k₁, hk₁, k₂, hk₂, rfl, rfl⟩ := hcall
    rcases hclean with ⟨hneg, -⟩ | ⟨id', hid, hgives⟩
    · omega
    · obtain rfl : id = id' := Int.ofNat_inj.mp hid
      exact ⟨hgives.key_ne, k₁, k₂, hk₁, hk₂, hgives.fresh hfree⟩
  · rintro ⟨hkey, k₁, k₂, hk₁, hk₂, hnew⟩
    have htag := congrFun (hshare id _ _ hk₂) (g.kind, id)
    rw [tag_setSlot, update_self] at htag
    refine ⟨id, k₂, by rw [hk₁, ok_bind, hk₂]; rfl, Or.inr ⟨id, rfl, hlt, ?_, ?_, hkey, ?_⟩⟩
    · exact fun hstate => by
        have hused := (congrArg Tag.state htag).symm.trans hstate
        cases hused
    · exact congrArg Tag.key htag
    · exact fun _ => hnew

/-- The last section, for any way to create and to share. -/
theorem ipcGetAt_clean_iff (hshare : ∀ id k k', share id k = .ok k' → k'.tag = k.tag)
    (htarget : Target k g.kind g.key id) (hacq : k.acquire g.kind id = .ok ()) :
    Clean g k (ipcGetAt g.kind g.key g.flag create share id k) ↔
      g.Refused (k.slot (g.kind, id)).state ∨ g.key ≠ 0 ∧
        (((k.slot (g.kind, id)).state = .UNUSED ∧ ∃ k₁ k₂, create id k = .ok k₁ ∧
          share id (k₁.setSlot g.kind id ((k₁.slot (g.kind, id)).create g.key g.flag)) = .ok k₂ ∧
          NewObject g.kind g.size id k₂) ∨
        ((k.slot (g.kind, id)).state ≠ .UNUSED ∧ ∃ k', share id k = .ok k')) := by
  simp only [ipcGetAt, hacq, ok_bind, Get.Refused, pure_eq]
  by_cases hfree : (k.slot (g.kind, id)).state = .UNUSED
  · by_cases hflag : flagCreate g.flag = true
    · simpa [hfree, hflag] using clean_created_iff hshare htarget.lt hfree
    · simpa [hfree, hflag] using clean_refused (by decide)
  · by_cases hboth : flagCreate g.flag = true ∧ flagExcl g.flag = true
    · simpa [hfree, hboth.1, hboth.2] using clean_refused (by decide)
    · have hshared := clean_shared_iff hshare htarget hfree
      by_cases hflag : flagCreate g.flag = true
      · have hexcl : flagExcl g.flag = false := by simpa [hflag] using hboth
        simpa [hfree, hflag, hexcl] using hshared
      · simpa [hfree, hflag] using hshared

end Section

/-! ## Allocations -/

theorem kmallocNode_iff {sz : ℕ} :
    (∃ x, k.kmallocNode L sz = .ok x) ↔ HeapServes L [sz] k.heap := by
  constructor
  · rintro ⟨⟨a, k'⟩, h⟩
    obtain ⟨s, hs, -, hne⟩ := Kernel.kmallocNode_ok h
    exact ⟨a, s, hs, hne, trivial⟩
  · rintro ⟨a, s, hs, hne, -⟩
    exact ⟨(a, k.setHeap s), by simp [Kernel.kmallocNode, Kernel.kmalloc, hs, hne]⟩

theorem addNode_iff {flag : ℕ} :
    (∃ k', addNode L c p id flag k = .ok k') ↔ HeapServes L [c.nodeSize] k.heap := by
  rw [← kmallocNode_iff]
  constructor
  · rintro ⟨k', h⟩
    simp only [addNode, bind_eq_ok] at h
    obtain ⟨x, hx, -⟩ := h
    exact ⟨x, hx⟩
  · rintro ⟨x, hx⟩
    exact ⟨_, by rw [addNode, hx]; rfl⟩

/-- What a get makes for a free slot. -/
def Get.create (L : Layout) (g : Get) (id : ℕ) (k : Kernel) : Kres Kernel :=
  match g.kind with
  | .shm => do
      let (pa, k) ← k.kmalloc L g.size
      return k.setShm id ⟨g.size % 2 ^ 32, pa⟩
  | .sem => do
      let bytes := g.size * 24 % 2 ^ 64
      let (ptr, k) ← k.kmalloc L bytes
      if ptr = NULL ∧ bytes ≠ 0 then
        throw .nullStore
      return k.setSem id ⟨g.size % 2 ^ 32, ptr, fun _ => ⟨0, []⟩⟩
  | .msq => return if g.size > 0 then k.setMsq id { k.msqid id with maxlen := g.size } else k

/-- How a get records the reference of the caller. -/
def Get.share (L : Layout) (p : Fin NPROC) (g : Get) (id : ℕ) (k : Kernel) : Kres Kernel :=
  match g.kind with
  | .shm => .ok k
  | .sem => procAddsem L p id k
  | .msq => procAddmsq L p id k

theorem getSection_eq :
    getSection L p g id k = ipcGetAt g.kind g.key g.flag (g.create L) (g.share L p) id k := by
  obtain ⟨kind, key, size, flag⟩ := g
  cases kind with
  | shm => rfl
  | sem => rfl
  | msq => rfl

theorem share_iff :
    (∃ k', g.share L p id k = .ok k') ↔ HeapServes L (g.blocks false) k.heap := by
  obtain ⟨kind, key, size, flag⟩ := g
  cases kind with
  | shm => simp [Get.share, Get.blocks, HeapServes]
  | sem => exact addNode_iff
  | msq => exact addNode_iff

theorem share_objects (h : g.share L p id k = .ok k') :
    k'.tag = k.tag ∧ k'.shmid = k.shmid ∧ k'.semid = k.semid ∧ k'.msqid = k.msqid := by
  obtain ⟨kind, key, size, flag⟩ := g
  cases kind with
  | shm =>
    cases h
    exact ⟨rfl, rfl, rfl, rfl⟩
  | sem | msq =>
    refine ⟨addNode_tag h, ?_⟩
    obtain ⟨s, addr, rfl⟩ := addNode_ok h
    exact ⟨rfl, rfl, rfl⟩

theorem newObject_share (h : g.share L p id k = .ok k') :
    NewObject g.kind g.size id k' ↔ NewObject g.kind g.size id k := by
  obtain ⟨-, hshm, hsem, hmsq⟩ := share_objects h
  simp only [NewObject, hshm, hsem, hmsq]

theorem kmalloc_eq_ok {sz a : ℕ} {s : KHeap} (h : LearnOS.kmalloc L sz k.heap = .ok (a, s)) :
    k.kmalloc L sz = .ok (a, k.setHeap s) := by
  rw [Kernel.kmalloc, h]
  rfl

/-- A new slot is filled as it should be when its size fits and the blocks are
there. -/
theorem create_iff :
    (∃ k₁ k₂, g.create L id k = .ok k₁ ∧
      g.share L p id (k₁.setSlot g.kind id ((k₁.slot (g.kind, id)).create g.key g.flag)) = .ok k₂ ∧
      NewObject g.kind g.size id k₂) ↔ g.Fits ∧ HeapServes L (g.blocks true) k.heap := by
  have hshare : (∃ k₁ k₂, g.create L id k = .ok k₁ ∧
      g.share L p id (k₁.setSlot g.kind id ((k₁.slot (g.kind, id)).create g.key g.flag)) = .ok k₂ ∧
      NewObject g.kind g.size id k₂) ↔ ∃ k₁, g.create L id k = .ok k₁ ∧
        HeapServes L (g.blocks false) k₁.heap ∧ NewObject g.kind g.size id k₁ := by
    constructor
    · rintro ⟨k₁, k₂, hk₁, hk₂, hnew⟩
      have hserves := share_iff.mp ⟨k₂, hk₂⟩
      have hnew₁ := (newObject_share hk₂).mp hnew
      exact ⟨k₁, hk₁, hserves, hnew₁⟩
    · rintro ⟨k₁, hk₁, hserves, hnew⟩
      have hserves' : HeapServes L (g.blocks false) (k₁.setSlot g.kind id
        ((k₁.slot (g.kind, id)).create g.key g.flag)).heap := hserves
      obtain ⟨k₂, hk₂⟩ := share_iff.mpr hserves'
      exact ⟨k₁, k₂, hk₁, hk₂, (newObject_share hk₂).mpr hnew⟩
  rw [hshare]
  obtain ⟨kind, key, size, flag⟩ := g
  cases kind with
  | shm =>
    simp only [Get.create, bind_eq_ok, pure_eq_ok]
    constructor
    · rintro ⟨k₁, ⟨⟨pa, k₂⟩, hk₂, rfl⟩, -, hne, hsz⟩
      obtain ⟨s, hs, rfl⟩ := Kernel.kmalloc_ok hk₂
      simp only [Kernel.setShm, update_self] at hne hsz
      exact ⟨Or.inr (by show size < _; omega), pa, s, hs, hne, trivial⟩
    · rintro ⟨hfits, pa, s, hs, hne, -⟩
      have hlt : size < 2 ^ 32 := hfits.resolve_left (by simp)
      refine ⟨_, ⟨(pa, k.setHeap s), kmalloc_eq_ok hs, rfl⟩, trivial, ?_⟩
      simp only [NewObject, Kernel.setShm, update_self]
      exact ⟨hne, Nat.mod_eq_of_lt hlt⟩
  | sem =>
    simp only [Get.create, bind_eq_ok]
    constructor
    · rintro ⟨k₁, ⟨⟨ptr, k₂⟩, hk₂, hk₁⟩, hserves, hnew⟩
      obtain ⟨s, hs, rfl⟩ := Kernel.kmalloc_ok hk₂
      split at hk₁
      · cases hk₁
      cases hk₁
      obtain ⟨hne, hsz⟩ := hnew
      simp only [Kernel.setSem, update_self] at hne hsz
      have hlt : size < 2 ^ 32 := by omega
      rw [Nat.mod_eq_of_lt (by omega)] at hs
      exact ⟨Or.inr hlt, ptr, s, hs, hne, hserves⟩
    · rintro ⟨hfits, ptr, s, hs, hne, hserves⟩
      have hlt : size < 2 ^ 32 := hfits.resolve_left (by simp)
      have hbytes : size * 24 % 2 ^ 64 = size * 24 := Nat.mod_eq_of_lt (by omega)
      refine ⟨(k.setHeap s).setSem id ⟨size % 2 ^ 32, ptr, fun _ => ⟨0, []⟩⟩,
        ⟨(ptr, k.setHeap s), ?_, ?_⟩, hserves, ?_⟩
      · rw [hbytes]
        exact kmalloc_eq_ok hs
      · rw [if_neg (fun h => hne h.1)]
        rfl
      · simp only [NewObject, Kernel.setSem, update_self]
        exact ⟨hne, Nat.mod_eq_of_lt hlt⟩
  | msq =>
    simp only [Get.create, pure_eq_ok]
    by_cases hsize : size > 0
    · simp [hsize, Get.Fits, NewObject, Kernel.setMsq, Get.blocks, HeapServes, Kernel.heap]
    · simp [hsize, Get.Fits, NewObject, Get.blocks, HeapServes]

/-- A get is clean exactly when the search meets no lock that was left held and
ends at a slot, and there the flags refuse the get or it is served under a key
that is not the reserved one. -/
theorem get_clean_iff (L : Layout) (p : Fin NPROC) (g : Get) (k : Kernel) :
    Clean g k (getCall L p g k) ↔
      ProbeFree k g.kind g.key ∧ ∃ id, Target k g.kind g.key id ∧
        (g.Refused (k.slot (g.kind, id)).state ∨ g.Served L k (k.slot (g.kind, id)).state) := by
  have hlast : ∀ id, ProbeFree k g.kind g.key → Target k g.kind g.key id →
      (Clean g k (getSection L p g id k) ↔
        g.Refused (k.slot (g.kind, id)).state ∨ g.Served L k (k.slot (g.kind, id)).state) := by
    intro id hfree htarget
    rw [getSection_eq, ipcGetAt_clean_iff (fun _ _ _ h => (share_objects h).1) htarget
      (htarget.acquire hfree), create_iff, share_iff]
    by_cases hstate : (k.slot (g.kind, id)).state = .UNUSED <;> simp [Get.Served, hstate]
  rw [getCall_eq]
  constructor
  · rintro ⟨r, k', hcall, hclean⟩
    rw [bind_eq_ok] at hcall
    obtain ⟨id, hat, hsection⟩ := hcall
    obtain ⟨hfree, htarget⟩ := ipcAt_eq_ok_iff.mp hat
    exact ⟨hfree, id, htarget, (hlast id hfree htarget).mp ⟨r, k', hsection, hclean⟩⟩
  · rintro ⟨hfree, id, htarget, hcase⟩
    rw [ipcAt_eq_ok_iff.mpr ⟨hfree, htarget⟩, ok_bind]
    exact (hlast id hfree htarget).mpr hcase

/-- A process makes sixteen queues; the next get indexes the pool with `-1`. -/
theorem full_pool_faults :
    ∃ k₀ before, smallBoot smallLayout = .ok k₀ ∧ IsRun (Step smallLayout) k₀ before ∧
      getCall smallLayout 0 ⟨.msq, 17, 0, 0x8fff⟩ (last k₀ before) = .error .undefined ∧
      ¬ Clean ⟨.msq, 17, 0, 0x8fff⟩ (last k₀ before)
        (getCall smallLayout 0 ⟨.msq, 17, 0, 0x8fff⟩ (last k₀ before)) := by
  obtain ⟨k₀, before, hk₀, hbefore, hat⟩ := boot_run (L := smallLayout)
    ((List.range 16).map fun i => .msgget 0 (i + 1) 0 0x8fff)
    (fun k₀ run => ipcAt .msq 17 (last k₀ run) = .error .undefined)
    (by decide +kernel)
  have hcall :
      getCall smallLayout 0 ⟨.msq, 17, 0, 0x8fff⟩ (last k₀ before) = .error .undefined := by
    rw [getCall_eq]
    simp only [hat, error_bind]
  refine ⟨k₀, before, hk₀, hbefore, hcall, ?_⟩
  rintro ⟨r, k', hok, -⟩
  rw [hcall] at hok
  cases hok

end LearnOS.Ipc
