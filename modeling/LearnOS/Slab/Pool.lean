import LearnOS.Slab.Model
import LearnOS.Lib.Slots

/-!
# Pools of objects

A `Pool` says what a cache is: its pages, its free slots in the order in which
they are handed out, and its live objects. `PoolRep` ties a pool to the words
of its pages, and `PoolOk` says that free slots and live objects are different
slots of these pages, none of them the slot that holds the head of the list.
-/

namespace LearnOS

open LinkedList Slots

variable {c : CacheId} {pages : List ℕ} {x : ℕ}

namespace CacheId

/-- The object size that `slab_init` passes. -/
def objSize : CacheId → ℕ
  | gSlab8 => 8
  | gSlab16 => 16
  | gSlab32 => 32
  | gSlab64 => 64
  | gSlab128 => 128
  | gSlab256 => 256
  | gSlab512 => 512
  | gSlab1024 => 1024
  | gSlab2048 => 2048
  | gSlabKmemCache => sizeofKmemCache

/-- Every object size is a multiple of its alignment, so `unitsz` is that size. -/
def unit (c : CacheId) : ℕ := c.objSize

def Small (c : CacheId) : Prop := c.objSize ≤ 16

instance (c : CacheId) : Decidable c.Small := inferInstanceAs (Decidable (_ ≤ _))

/-- Slot 0 of a page in a small pool links the pages. -/
def firstSlot (c : CacheId) : ℕ := if c.Small then 1 else 0

theorem unit_pos (c : CacheId) : 0 < c.unit := by cases c <;> decide

theorem lastSlot_mul_le (c : CacheId) : (lastSlot c.unit + 1) * c.unit ≤ PGSIZE := by
  cases c <;> decide

/-- A page has room for the head of the list and for one more slot. -/
theorem firstSlot_lt (c : CacheId) : c.firstSlot < lastSlot c.unit := by cases c <;> decide

end CacheId

/-- The slots of a page that a cache may hand out. -/
def pageSlots (c : CacheId) (p : ℕ) : List ℕ :=
  Slots.range c.unit p c.firstSlot (lastSlot c.unit - c.firstSlot + 1)

structure Pool where
  pages : List ℕ
  nodes : List ℕ
  free : List ℕ
  live : List ℕ

/-- The slot of the first page that holds the head of the free list. -/
def headSlot (c : CacheId) (pages : List ℕ) : ℕ := pages.headD 0 + c.firstSlot * c.unit

structure PoolOk (c : CacheId) (P : Pool) : Prop where
  pages_ne : P.pages ≠ []
  aligned : ∀ p ∈ P.pages, PGSIZE ∣ p
  pages_nodup : P.pages.Nodup
  slots_nodup : (headSlot c P.pages :: (P.free ++ P.live)).Nodup
  slots : ∀ x ∈ P.free ++ P.live, x ∈ P.pages.flatMap (pageSlots c)

structure PoolRep (c : CacheId) (word : ℕ → ℕ) (k : KmemCache) (P : Pool) : Prop where
  size : k.size = c.objSize
  unitsz : k.unitsz = c.unit
  count : k.allocCount = P.live.length % 2 ^ 64
  free : Seg NULL word (word (headSlot c P.pages)) P.free NULL
  small : c.Small → Seg NULL word k.head P.pages NULL ∧ P.nodes = []
  large : ¬ c.Small → Seg NULL (fun n => word (lnodeNext n)) k.head P.nodes NULL ∧
    P.nodes.map word = P.pages

/-! ## Slots -/

theorem mem_pageSlots {p x : ℕ} :
    x ∈ pageSlots c p ↔ ∃ j, c.firstSlot ≤ j ∧ j ≤ lastSlot c.unit ∧ x = p + j * c.unit := by
  have hlt := c.firstSlot_lt
  simp only [pageSlots, mem_range]
  refine exists_congr fun j => ?_
  constructor
  · rintro ⟨hle, hj, rfl⟩
    exact ⟨hle, by omega, rfl⟩
  · rintro ⟨hle, hj, rfl⟩
    exact ⟨hle, by omega, rfl⟩

theorem slot_fits {j : ℕ} (hj : j ≤ lastSlot c.unit) : (j + 1) * c.unit ≤ PGSIZE :=
  (Nat.mul_le_mul_right _ (by omega)).trans c.lastSlot_mul_le

theorem mem_slots :
    x ∈ pages.flatMap (pageSlots c) ↔
      ∃ p ∈ pages, ∃ j, c.firstSlot ≤ j ∧ j ≤ lastSlot c.unit ∧ x = p + j * c.unit := by
  simp only [List.mem_flatMap, mem_pageSlots]

/-- Every byte of an object lies in a page of its pool. -/
theorem page_of_object (hal : ∀ p ∈ pages, PGSIZE ∣ p) {x a : ℕ}
    (hx : x ∈ pages.flatMap (pageSlots c)) (hle : x ≤ a) (hlt : a < x + c.unit) :
    paToPage a ∈ pages := by
  obtain ⟨p, hp, j, -, hj, rfl⟩ := mem_slots.mp hx
  have hin : In c.unit p j a := ⟨hle, hlt⟩
  have hpage : paToPage a = p := hin.pageOf_eq (hal p hp) (slot_fits hj)
  rw [hpage]
  exact hp

/-- Objects do not overlap. -/
theorem object_unique (hal : ∀ p ∈ pages, PGSIZE ∣ p) {x y a : ℕ}
    (hx : x ∈ pages.flatMap (pageSlots c)) (hy : y ∈ pages.flatMap (pageSlots c)) (hxle : x ≤ a)
    (hxlt : a < x + c.unit) (hyle : y ≤ a) (hylt : a < y + c.unit) : x = y := by
  obtain ⟨p, hp, j, -, hj, rfl⟩ := mem_slots.mp hx
  obtain ⟨p', hp', j', -, hj', rfl⟩ := mem_slots.mp hy
  obtain ⟨rfl, rfl⟩ := In.unique ⟨hxle, hxlt⟩ ⟨hyle, hylt⟩ (hal p hp) (hal p' hp')
    (slot_fits hj) (slot_fits hj')
  rfl

/-- The bytes before the first slot of a small pool belong to no object. -/
theorem link_not_object (hc : c.Small) (hal : ∀ p ∈ pages, PGSIZE ∣ p) {p x a : ℕ} (hp : p ∈ pages)
    (hx : x ∈ pages.flatMap (pageSlots c)) (hle : x ≤ a) (hlt : a < x + c.unit) :
    ¬ (p ≤ a ∧ a < p + c.unit) := by
  rintro ⟨hpa, hap⟩
  obtain ⟨p', hp', j, hfirst, hj, rfl⟩ := mem_slots.mp hx
  have hin : In c.unit p 0 a := ⟨by omega, by omega⟩
  obtain ⟨-, rfl⟩ := hin.unique ⟨hle, hlt⟩ (hal p hp) (hal p' hp')
    (slot_fits (Nat.zero_le _)) (slot_fits hj)
  simp [CacheId.firstSlot, hc] at hfirst

section Pool

variable {c : CacheId} {P : Pool} {word word' : ℕ → ℕ} {k : KmemCache}

theorem PoolOk.head_mem (h : PoolOk c P) :
    headSlot c P.pages ∈ P.pages.flatMap (pageSlots c) := by
  obtain ⟨p, rest, hp⟩ := List.exists_cons_of_ne_nil h.pages_ne
  refine mem_slots.mpr ⟨p, by simp [hp], c.firstSlot, le_rfl, c.firstSlot_lt.le, ?_⟩
  simp [headSlot, hp]

theorem PoolOk.head_not_mem (h : PoolOk c P) : headSlot c P.pages ∉ P.free ++ P.live :=
  (List.nodup_cons.mp h.slots_nodup).1

theorem PoolOk.free_slot (h : PoolOk c P) (hx : x ∈ P.free) :
    x ∈ P.pages.flatMap (pageSlots c) := h.slots x (List.mem_append_left _ hx)

theorem PoolOk.live_slot (h : PoolOk c P) (hx : x ∈ P.live) :
    x ∈ P.pages.flatMap (pageSlots c) := h.slots x (List.mem_append_right _ hx)

theorem PoolOk.not_mem_free (h : PoolOk c P) (hx : x ∈ P.live) : x ∉ P.free := by
  intro hfree
  exact (List.nodup_append.mp (List.nodup_cons.mp h.slots_nodup).2).2.2 x hfree x hx rfl

/-- The words inside the pages of a pool that its representation reads. -/
def ownWords (c : CacheId) (P : Pool) : List ℕ :=
  headSlot c P.pages :: (P.free ++ if c.Small then P.pages else [])

/-- The words of the page nodes. -/
def nodeWords (P : Pool) : List ℕ := P.nodes ++ P.nodes.map lnodeNext

/-- A representation depends only on the words it reads. -/
theorem PoolRep.congr (h : PoolRep c word k P)
    (hown : ∀ a ∈ ownWords c P, word' a = word a)
    (hnode : ∀ a ∈ nodeWords P, word' a = word a) : PoolRep c word' k P where
  size := h.size
  unitsz := h.unitsz
  count := h.count
  free := by
    rw [hown _ (by simp [ownWords])]
    exact h.free.congr fun x hx => hown x (by simp [ownWords, hx])
  small hc := by
    refine ⟨(h.small hc).1.congr fun x hx => hown x ?_, (h.small hc).2⟩
    simp [ownWords, hc, hx]
  large hc := by
    obtain ⟨hseg, hmap⟩ := h.large hc
    refine ⟨hseg.congr fun x hx => hnode _ ?_, ?_⟩
    · simp only [nodeWords, List.mem_append, List.mem_map]
      exact Or.inr ⟨x, hx, rfl⟩
    · rw [← hmap]
      exact List.map_congr_left fun x hx => hnode x (by simp [nodeWords, hx])

theorem PoolOk.page_of_own (h : PoolOk c P) {a : ℕ} (ha : a ∈ ownWords c P) :
    paToPage a ∈ P.pages := by
  have hpos := c.unit_pos
  simp only [ownWords, List.mem_cons, List.mem_append] at ha
  rcases ha with rfl | hfree | hpage
  · exact page_of_object h.aligned h.head_mem le_rfl (by omega)
  · exact page_of_object h.aligned (h.free_slot hfree) le_rfl (by omega)
  · have hmem : a ∈ P.pages := by
      by_cases hc : c.Small
      · simpa [hc] using hpage
      · simp [hc] at hpage
    rw [show paToPage a = a from pageOf_eq_self (h.aligned a hmem)]
    exact hmem

/-- No byte of a live object is read by the representation of its pool. -/
theorem PoolOk.object_not_own (h : PoolOk c P) {x a : ℕ} (hx : x ∈ P.live) (hle : x ≤ a)
    (hlt : a < x + c.unit) : a ∉ ownWords c P := by
  have hpos := c.unit_pos
  intro ha
  simp only [ownWords, List.mem_cons, List.mem_append] at ha
  rcases ha with rfl | hfree | hpage
  · have heq := object_unique h.aligned (h.live_slot hx) h.head_mem hle hlt le_rfl (by omega)
    exact h.head_not_mem (heq ▸ List.mem_append_right _ hx)
  · have heq := object_unique h.aligned (h.live_slot hx) (h.free_slot hfree) hle hlt le_rfl
      (by omega)
    exact h.not_mem_free hx (heq ▸ hfree)
  · by_cases hc : c.Small
    · have hmem : a ∈ P.pages := by simpa [hc] using hpage
      exact link_not_object hc h.aligned hmem (h.live_slot hx) hle hlt ⟨le_rfl, by omega⟩
    · simp [hc] at hpage

end Pool

end LearnOS
