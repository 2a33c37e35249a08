import LearnOS.Ipc.Keys

/-!
# Gets in steps

`AT_FUNC` looks at one slot after the other and gives each lock back before it
takes the next. The caller then locks the slot that the search returned and looks
only at its state. Other calls run in between.

## Main results

`racing_gets_iff`: a run keeps keys apart exactly when each get finds, in its last
section, what its search has established. `undisturbed_gets` names runs of this
kind: the pool changes only while no other get is under way on it.
-/

namespace LearnOS.Ipc

open LearnOS Transition Relation Probe Function Kres

variable {e : GetEvent} {run : List (GetEvent × GetState)} {s s' : GetState} {pc : GetPc}
  {k : Kernel}

variable {L : Layout} {c : IpcKind} {id : ℕ} {p : Fin NPROC}

/-! ## The steps of a get -/

/-- Where a process stands in a get. In `probe` the slot `id` is looked at next. In
`confirm` the loop has been left at `id`, which is compared once more. In `chosen`
the search has returned `id`. -/
inductive GetPc where
  | idle
  | probe (g : Get) (id : ℕ) (firstFree : Option ℕ)
  | confirm (g : Get) (id : ℕ) (firstFree : Option ℕ)
  | chosen (g : Get) (id : ℕ)

def GetPc.get? : GetPc → Option Get
  | .idle => none
  | .probe g _ _ | .confirm g _ _ | .chosen g _ => some g

/-- The next critical section of the search. The callers index their pool with the
result, and `-1` lies before it. -/
def GetPc.lookup (k : Kernel) : GetPc → Kres GetPc
  | .probe g id firstFree => do
      k.acquire g.kind id
      if (k.slot (g.kind, id)).key = g.key then
        return .confirm g id firstFree
      let firstFree :=
        if firstFree.isNone ∧ (k.slot (g.kind, id)).state = .UNUSED then some id else firstFree
      let id := (id + 1) % g.kind.max
      return if id = g.key % g.kind.max then .confirm g id firstFree else .probe g id firstFree
  | .confirm g id firstFree => do
      k.acquire g.kind id
      if (k.slot (g.kind, id)).key ≠ g.key then
        match firstFree with
        | none => throw .undefined
        | some id => return .chosen g id
      else return .chosen g id
  | _ => .error .undefined

structure GetState where
  k : Kernel
  pc : Fin NPROC → GetPc

namespace GetState

def setPc (s : GetState) (p : Fin NPROC) (pc : GetPc) : GetState :=
  { s with pc := update s.pc p pc }

@[simp] theorem setPc_k (s : GetState) (p : Fin NPROC) (pc : GetPc) : (s.setPc p pc).k = s.k := rfl

end GetState

inductive GetEvent where
  | call (p : Fin NPROC) (g : Get)
  | lookup (p : Fin NPROC)
  | finish (p : Fin NPROC) (r : ℤ)
  | other (op : Op)

/-- A process inside a get makes no other call. -/
inductive GetStep (L : Layout) (s : GetState) : GetEvent → GetState → Prop
  | call {p : Fin NPROC} {g : Get} (hready : Running s.k.vm p ∧ s.k.semCall p = none)
      (hidle : s.pc p = .idle) (hkey : g.key ≠ 0) :
      GetStep L s (.call p g) (s.setPc p (.probe g (g.key % g.kind.max) none))
  | lookup {p : Fin NPROC} {pc : GetPc} (hpc : (s.pc p).lookup s.k = .ok pc) :
      GetStep L s (.lookup p) (s.setPc p pc)
  | finish {p : Fin NPROC} {g : Get} {id : ℕ} {r : ℤ} {k' : Kernel}
      (hpc : s.pc p = .chosen g id) (hsection : getSection L p g id s.k = .ok (r, k')) :
      GetStep L s (.finish p r) (GetState.setPc { s with k := k' } p .idle)
  | other {op : Op} {k' : Kernel} (hidle : s.pc op.caller = .idle) (hget : op.isGet = false)
      (hop : KeyOp op) (hstep : Step L s.k op k') :
      GetStep L s (.other op) { s with k := k' }

/-! ## What each step does -/

/-- A get asks for a key, and its slots lie in the pool. -/
def GetPc.InRange : GetPc → Prop
  | .idle => True
  | .probe g id firstFree | .confirm g id firstFree =>
    g.key ≠ 0 ∧ id < g.kind.max ∧ ∀ f ∈ firstFree, f < g.kind.max
  | .chosen g id => g.key ≠ 0 ∧ id < g.kind.max

theorem GetPc.lookup_inRange {pc pc' : GetPc} (h : pc.lookup k = .ok pc') (hpc : pc.InRange) :
    pc'.InRange := by
  cases pc with
  | idle => cases h
  | chosen g id => cases h
  | probe g id firstFree =>
    obtain ⟨hkey, hid, hfree⟩ := hpc
    simp only [lookup, bind_eq_ok] at h
    obtain ⟨u, -, h⟩ := h
    split at h
    · cases h
      exact ⟨hkey, hid, hfree⟩
    have hnext : (id + 1) % g.kind.max < g.kind.max := Nat.mod_lt _ g.kind.max_pos
    have hfree' : ∀ f ∈ (if firstFree.isNone ∧ (k.slot (g.kind, id)).state = .UNUSED then some id
        else firstFree), f < g.kind.max := by
      intro f hf
      split at hf
      · cases hf
        exact hid
      · exact hfree f hf
    simp only [pure_eq_ok] at h
    split at h
    · subst h
      exact ⟨hkey, hnext, hfree'⟩
    · subst h
      exact ⟨hkey, hnext, hfree'⟩
  | confirm g id firstFree =>
    obtain ⟨hkey, hid, hfree⟩ := hpc
    simp only [lookup, bind_eq_ok] at h
    obtain ⟨u, -, h⟩ := h
    split at h
    · cases firstFree with
      | none => cases h
      | some f =>
        cases h
        exact ⟨hkey, hfree f rfl⟩
    · cases h
      exact ⟨hkey, hid⟩

/-- The states of all processes satisfy a property that idle ones have. -/
theorem forall_setPc {prop : GetPc → Prop} {s : GetState} (h : ∀ q, prop (s.pc q)) (hpc : prop pc)
    (q : Fin NPROC) : prop ((s.setPc p pc).pc q) := by
  by_cases hq : q = p
  · subst hq
    simpa [GetState.setPc] using hpc
  · simpa [GetState.setPc, hq] using h q

theorem GetStep.inRange (h : GetStep L s e s') (hrange : ∀ q, (s.pc q).InRange) :
    ∀ q, (s'.pc q).InRange := by
  cases h with
  | @call p g _ _ hkey =>
    exact forall_setPc hrange ⟨hkey, Nat.mod_lt _ g.kind.max_pos, by simp⟩
  | @lookup p pc hpc => exact forall_setPc hrange (GetPc.lookup_inRange hpc (hrange p))
  | finish _ _ => exact forall_setPc hrange trivial
  | other _ _ _ _ => exact hrange

/-! ## Keys -/

/-- Slots in use have different keys. -/
def SlotsDistinct (k : Kernel) : Prop :=
  ∀ c : IpcKind, ∀ id < c.max, ∀ id' < c.max, (k.slot (c, id)).state ≠ .UNUSED →
    (k.slot (c, id')).state ≠ .UNUSED → (k.slot (c, id)).key = (k.slot (c, id')).key → id = id'

/-- After a step slots in use have different keys, and a get that has returned a
slot has returned one with its key. -/
structure KeySound (s : GetState) (e : GetEvent) (s' : GetState) : Prop where
  distinct : SlotsDistinct s'.k
  returned : ∀ p r g id, e = .finish p r → s.pc p = .chosen g id → 0 ≤ r →
    (s'.k.slot (g.kind, r.toNat)).key = g.key

/-- What the last section of a get relies on without looking: a slot in use that it
shares has its key, and when it fills a free slot no other slot has the key. -/
def GetPc.StillHolds (k : Kernel) : GetPc → Prop
  | .chosen g id =>
    ((k.slot (g.kind, id)).state ≠ .UNUSED → ¬ (flagCreate g.flag ∧ flagExcl g.flag) →
      (k.slot (g.kind, id)).key = g.key) ∧
    ((k.slot (g.kind, id)).state = .UNUSED → flagCreate g.flag →
      ∀ j < g.kind.max, (k.slot (g.kind, j)).state ≠ .UNUSED → (k.slot (g.kind, j)).key ≠ g.key)
  | _ => True

def StillHolds (s : GetState) : GetEvent → Prop
  | .finish p _ => (s.pc p).StillHolds s.k
  | _ => True

instance (k : Kernel) : (pc : GetPc) → Decidable (pc.StillHolds k)
  | .chosen _ _ => inferInstanceAs (Decidable (_ ∧ _))
  | .idle | .probe .. | .confirm .. => .isTrue trivial

instance (s : GetState) : (e : GetEvent) → Decidable (StillHolds s e)
  | .finish p _ => inferInstanceAs (Decidable ((s.pc p).StillHolds s.k))
  | .call .. | .lookup _ | .other _ => .isTrue trivial

structure GetInv (s : GetState) : Prop where
  keys : KeysInv s.k
  range : ∀ q, (s.pc q).InRange

theorem KeysInv.distinct (h : KeysInv k) : SlotsDistinct k :=
  fun c => (h.unique c).inj

/-- A key that goes to a free slot while no other slot has it. -/
theorem KeysInv.create {k k' : Kernel} {key : ℕ} (h : KeysInv k) (hkey : key ≠ 0)
    (hnew : ∀ j < c.max, (k.tag (c, j)).key ≠ key)
    (htag : k'.tag = update k.tag (c, id)
      { k.tag (c, id) with key := key, state := .USED }) : KeysInv k' := by
  refine ⟨fun d => ?_, fun x => ?_⟩
  · rw [htag]
    exact (h.unique d).create hkey hnew
  · rw [htag]
    by_cases hx : x = (c, id)
    · rw [hx, update_self]
      exact h.unlocked _
    · rw [update_of_ne hx]
      exact h.unlocked x

theorem GetStep.sound (h : GetInv s) (hok : StillHolds s e) (hstep : GetStep L s e s') :
    KeySound s e s' ∧ GetInv s' := by
  have hrange := hstep.inRange h.range
  cases hstep with
  | call _ _ _ | lookup _ => exact ⟨⟨h.keys.distinct, by simp⟩, h.keys, hrange⟩
  | other _ hget hop hstep =>
    have hkeys := h.keys.moves (other_tags hstep hop hget)
    exact ⟨⟨hkeys.distinct, by simp⟩, hkeys, hrange⟩
  | @finish p g id r k' hpc hsection =>
    have hpr := h.range p
    have hholds : (s.pc p).StillHolds s.k := hok
    rw [hpc] at hpr hholds
    obtain ⟨hshare, hfill⟩ := hholds
    cases getSection_got hsection with
    | refused hr _ htag =>
      have hkeys : KeysInv k' := h.keys.moves (TagMoves.of_eq htag)
      refine ⟨⟨hkeys.distinct, ?_⟩, hkeys, hrange⟩
      rintro _ _ _ _ ⟨⟩ - hpos
      omega
    | shared hr huse hmay htag =>
      have hkeys : KeysInv k' := h.keys.moves (TagMoves.of_eq htag)
      refine ⟨⟨hkeys.distinct, ?_⟩, hkeys, hrange⟩
      rintro _ _ g' id' ⟨⟩ hpc' -
      cases hpc.symm.trans hpc'
      rw [hr, Int.toNat_natCast]
      change (k'.tag (g.kind, id)).key = g.key
      rw [htag]
      exact hshare huse hmay
    | created hr hfree hmay htag =>
      have hnew : ∀ j < g.kind.max, (s.k.tag (g.kind, j)).key ≠ g.key := by
        intro j hj
        by_cases huse : (s.k.tag (g.kind, j)).state = .UNUSED
        · rw [(h.keys.unique g.kind).unused_key j hj huse]
          exact hpr.1.symm
        · exact hfill hfree hmay j hj huse
      have hkeys : KeysInv k' := h.keys.create hpr.1 hnew htag
      refine ⟨⟨hkeys.distinct, ?_⟩, hkeys, hrange⟩
      rintro _ _ g' id' ⟨⟩ hpc' -
      cases hpc.symm.trans hpc'
      rw [hr, Int.toNat_natCast]
      change (k'.tag (g.kind, id)).key = g.key
      rw [htag, update_self]

theorem GetStep.stillHolds (h : GetInv s) (hstep : GetStep L s e s') (hsound : KeySound s e s') :
    StillHolds s e := by
  cases hstep with
  | call _ _ _ => trivial
  | lookup _ => trivial
  | other _ _ _ _ => trivial
  | @finish p g id r k' hpc hsection =>
    have hpr := h.range p
    change (s.pc p).StillHolds s.k
    rw [hpc] at hpr ⊢
    cases getSection_got hsection with
    | refused hr hwhy htag =>
      rcases hwhy with ⟨hfree, hmay⟩ | ⟨huse, hmay⟩
      · exact ⟨fun huse => absurd hfree huse, fun _ hcreate => absurd hcreate hmay⟩
      · exact ⟨fun _ hnot => absurd hmay hnot, fun hfree => absurd hfree huse⟩
    | shared hr huse hmay htag =>
      refine ⟨fun _ _ => ?_, fun hfree => absurd hfree huse⟩
      have hkey : (k'.tag (g.kind, r.toNat)).key = g.key :=
        hsound.returned p r g id rfl hpc (by omega)
      rw [htag, hr, Int.toNat_natCast] at hkey
      exact hkey
    | created hr hfree hmay htag =>
      refine ⟨fun huse => absurd hfree huse, fun _ _ j hj huse hkey => ?_⟩
      -- the slot with the key and the new one are both in use afterwards
      have hne : j ≠ id := by
        rintro rfl
        exact huse hfree
      have hj' : k'.tag (g.kind, j) = s.k.tag (g.kind, j) := by
        rw [htag, update_of_ne (by simpa using hne)]
      have hid' : k'.tag (g.kind, id) =
          { s.k.tag (g.kind, id) with key := g.key, state := .USED } := by
        rw [htag, update_self]
      refine hne (hsound.distinct g.kind j hj id hpr.2 ?_ ?_ ?_)
      · change (k'.tag (g.kind, j)).state ≠ .UNUSED
        rw [hj']
        exact huse
      · change (k'.tag (g.kind, id)).state ≠ .UNUSED
        rw [hid']
        simp
      · change (k'.tag (g.kind, j)).key = (k'.tag (g.kind, id)).key
        rw [hj', hid']
        exact hkey

/-- Gets in steps keep the keys apart exactly when each of them still finds in its
last section what its search has established. -/
theorem racing_gets_iff {s₀ : GetState} {run : List (GetEvent × GetState)} (hkeys : KeysInv s₀.k)
    (hidle : ∀ p, s₀.pc p = .idle) (hrun : IsRun (GetStep L) s₀ run) :
    SlotsDistinct s₀.k ∧ IsRun KeySound s₀ run ↔ Along StillHolds s₀ run := by
  have hinv : GetInv s₀ := ⟨hkeys, fun p => by rw [hidle p]; trivial⟩
  rw [IsRun.rel_iff_along StillHolds GetInv (fun s e s' h hok hstep => hstep.sound h hok)
    (fun s e s' h hstep hsound => hstep.stillHolds h hsound) hinv hrun]
  exact and_iff_right hkeys.distinct

/-! ## Undisturbed gets -/

/-- What the sections of a search have established so far, if the keys are still
the same. -/
def GetPc.Established (t : IpcKind × ℕ → Tag) : GetPc → Prop
  | .idle => True
  | .probe g id firstFree =>
    (∃ j < g.kind.max, id = (g.key + j) % g.kind.max ∧
      ∀ i < j, (t (g.kind, (g.key + i) % g.kind.max)).key ≠ g.key) ∧
    ∀ f ∈ firstFree, (t (g.kind, f)).state = .UNUSED
  | .confirm g id firstFree =>
    ((t (g.kind, id)).key = g.key ∨ ∀ i < g.kind.max, (t (g.kind, i)).key ≠ g.key) ∧
    ∀ f ∈ firstFree, (t (g.kind, f)).state = .UNUSED
  | .chosen g id => (t (g.kind, id)).key = g.key ∨
      (t (g.kind, id)).state = .UNUSED ∧ ∀ i < g.kind.max, (t (g.kind, i)).key ≠ g.key

/-- The slots of a pool have the same keys, and the same ones are free. -/
def SameKeys (c : IpcKind) (t t' : IpcKind × ℕ → Tag) : Prop :=
  ∀ j < c.max, (t' (c, j)).key = (t (c, j)).key ∧
    ((t' (c, j)).state = .UNUSED ↔ (t (c, j)).state = .UNUSED)

theorem GetPc.Established.congr {t t' : IpcKind × ℕ → Tag} (h : pc.Established t)
    (hrange : pc.InRange) (ht : ∀ g ∈ pc.get?, SameKeys g.kind t t') : pc.Established t' := by
  cases pc with
  | idle => trivial
  | probe g id firstFree =>
    obtain ⟨⟨j, hj, hid, hpassed⟩, hfree⟩ := h
    refine ⟨⟨j, hj, hid, fun i hi => ?_⟩, fun f hf => ?_⟩
    · rw [(ht g rfl _ (Nat.mod_lt _ g.kind.max_pos)).1]
      exact hpassed i hi
    · exact (ht g rfl f (hrange.2.2 f hf)).2.mpr (hfree f hf)
  | confirm g id firstFree =>
    refine ⟨h.1.imp (fun hkey => ?_) fun hnone i hi => ?_, fun f hf => ?_⟩
    · rwa [(ht g rfl id hrange.2.1).1]
    · rw [(ht g rfl i hi).1]
      exact hnone i hi
    · exact (ht g rfl f (hrange.2.2 f hf)).2.mpr (h.2 f hf)
  | chosen g id =>
    refine h.imp (fun hkey => ?_) fun hnone => ⟨?_, fun i hi => ?_⟩
    · rwa [(ht g rfl id hrange.2).1]
    · exact (ht g rfl id hrange.2).2.mpr hnone.1
    · rw [(ht g rfl i hi).1]
      exact hnone.2 i hi

theorem GetPc.lookup_established {pc pc' : GetPc} (h : pc.lookup k = .ok pc')
    (hpc : pc.Established k.tag) : pc'.Established k.tag := by
  cases pc with
  | idle => cases h
  | chosen g id => cases h
  | probe g id firstFree =>
    obtain ⟨⟨j, hj, rfl, hpassed⟩, hfree⟩ := hpc
    simp only [lookup, bind_eq_ok] at h
    obtain ⟨u, -, h⟩ := h
    split at h
    · rename_i hkey
      cases h
      exact ⟨Or.inl hkey, hfree⟩
    rename_i hkey
    have hpassed' : ∀ i < j + 1, (k.tag (g.kind, (g.key + i) % g.kind.max)).key ≠ g.key := by
      intro i hi
      rcases Nat.lt_succ_iff_lt_or_eq.mp hi with hi | rfl
      · exact hpassed i hi
      · exact hkey
    have hfree' : ∀ f ∈ (if firstFree.isNone ∧
        (k.slot (g.kind, (g.key + j) % g.kind.max)).state = .UNUSED
        then some ((g.key + j) % g.kind.max) else firstFree),
        (k.tag (g.kind, f)).state = .UNUSED := by
      intro f hf
      split at hf
      · rename_i hnew
        cases hf
        exact hnew.2
      · exact hfree f hf
    simp only [pure_eq_ok] at h
    split at h
    · rename_i hback
      subst h
      exact ⟨Or.inr (forall_of_back hj hback hpassed'), hfree'⟩
    · rename_i hback
      subst h
      refine ⟨⟨j + 1, ?_, ?_, hpassed'⟩, hfree'⟩
      · refine lt_of_le_of_ne hj fun hend => hback ?_
        rw [Nat.mod_add_mod, Nat.add_assoc, hend, Nat.add_mod_right]
      · rw [Nat.mod_add_mod, Nat.add_assoc]
  | confirm g id firstFree =>
    obtain ⟨hseen, hfree⟩ := hpc
    simp only [lookup, bind_eq_ok] at h
    obtain ⟨u, -, h⟩ := h
    split at h
    · rename_i hkey
      cases firstFree with
      | none => cases h
      | some f =>
        cases h
        exact Or.inr ⟨hfree f rfl, hseen.resolve_left hkey⟩
    · rename_i hkey
      cases h
      exact Or.inl (not_not.mp hkey)

/-- A slot is created only while no other get is under way on its pool, and cleared only
while none is. -/
def Undisturbed (L : Layout) (s : GetState) : GetEvent → Prop
  | .finish p _ => ∀ g id, s.pc p = .chosen g id → (s.k.slot (g.kind, id)).state = .UNUSED →
      flagCreate g.flag → ∀ q ≠ p, ∀ g' ∈ (s.pc q).get?, g'.kind ≠ g.kind
  | .other op => ∀ k', Step L s.k op k' → ∀ x, (s.k.slot x).state ≠ .UNUSED →
      (k'.slot x).state = .UNUSED → ∀ q, ∀ g ∈ (s.pc q).get?, g.kind ≠ x.1
  | _ => True

/-- A call that clears nothing in a pool leaves its keys. -/
theorem TagMoves.sameKeys {k' : Kernel} (h : TagMoves k.tag k'.tag) (hkeys : KeysInv k)
    (hkept : ∀ j, (k'.slot (c, j)).state = .UNUSED → (k.slot (c, j)).state = .UNUSED) :
    SameKeys c k.tag k'.tag := by
  intro j hj
  by_cases hfree : (k'.tag (c, j)).state = .UNUSED
  · have hold : (k.tag (c, j)).state = .UNUSED := hkept j hfree
    rw [((hkeys.moves h).unique c).unused_key j hj hfree, (hkeys.unique c).unused_key j hj hold]
    exact ⟨rfl, iff_of_true hfree hold⟩
  · obtain ⟨huse, hkey⟩ := h.used hfree
    exact ⟨hkey, iff_of_false hfree huse⟩

theorem GetInv.stillHolds {s : GetState} (h : GetInv s)
    (hseen : ∀ q, (s.pc q).Established s.k.tag) :
    StillHolds s e := by
  cases e with
  | call => trivial
  | lookup => trivial
  | other => trivial
  | finish p r =>
    change (s.pc p).StillHolds s.k
    have hpr := h.range p
    have hest := hseen p
    cases hpc : s.pc p with
    | idle => trivial
    | probe => trivial
    | confirm => trivial
    | chosen g id =>
      rw [hpc] at hpr hest
      refine ⟨fun huse _ => ?_, fun hfree _ j hj _ => ?_⟩
      · exact hest.resolve_right fun hnone => huse hnone.1
      · rcases hest with hkey | ⟨-, hnone⟩
        · refine absurd hfree ((h.keys.unique g.kind).state_of_key hpr.2 ?_)
          rw [hkey]
          exact hpr.1
        · exact hnone j hj

theorem GetStep.established (h : GetInv s) (hok : Undisturbed L s e)
    (hseen : ∀ q, (s.pc q).Established s.k.tag) (hstep : GetStep L s e s') :
    ∀ q, (s'.pc q).Established s'.k.tag := by
  cases hstep with
  | @call p g _ _ _ =>
    exact forall_setPc hseen ⟨⟨0, g.kind.max_pos, rfl, by simp⟩, by simp⟩
  | @lookup p pc hpc => exact forall_setPc hseen (GetPc.lookup_established hpc (hseen p))
  | @other op k' hidle hget hop hstep =>
    intro q
    refine (hseen q).congr (h.range q) fun g hg =>
      (other_tags hstep hop hget).sameKeys h.keys fun j hfree => ?_
    by_contra huse
    exact hok k' hstep (g.kind, j) huse hfree q g hg rfl
  | @finish p g id r k' hpc hsection =>
    intro q
    by_cases hq : q = p
    · subst hq
      simp [GetState.setPc, GetPc.Established]
    have hpcq : (GetState.setPc { s with k := k' } p .idle).pc q = s.pc q := by
      simp [GetState.setPc, hq]
    rw [hpcq]
    have hsame : ∀ g' ∈ (s.pc q).get?, ∀ j, k'.tag (g'.kind, j) = s.k.tag (g'.kind, j) := by
      intro g' hg' j
      cases getSection_got hsection with
      | refused _ _ htag => rw [htag]
      | shared _ _ _ htag => rw [htag]
      | created _ hfree hmay htag =>
        have hkind := hok g id hpc hfree hmay q hq g' hg'
        rw [htag, update_of_ne (by simp [hkind])]
    refine (hseen q).congr (h.range q) fun g' hg' j _ => ?_
    rw [GetState.setPc_k, hsame g' hg' j]
    exact ⟨rfl, Iff.rfl⟩

/-- Gets keep the keys apart when slots are created and cleared only while no other get is
under way on their pool. -/
theorem undisturbed_gets {s₀ : GetState} (hkeys : KeysInv s₀.k) (hidle : ∀ p, s₀.pc p = .idle)
    (hrun : IsRun (GetStep L) s₀ run) (hok : Along (Undisturbed L) s₀ run) :
    IsRun KeySound s₀ run := by
  have hinv : GetInv s₀ ∧ ∀ q, (s₀.pc q).Established s₀.k.tag := by
    refine ⟨⟨hkeys, fun q => ?_⟩, fun q => ?_⟩
    · rw [hidle q]
      trivial
    · rw [hidle q]
      trivial
  refine IsRun.imp (Undisturbed L) (fun s => GetInv s ∧ ∀ q, (s.pc q).Established s.k.tag)
    (fun s e s' h hok hstep => ?_) (fun s e s' h _ hstep => ?_) hinv hrun hok
  · exact ⟨(hstep.sound h.1 (h.1.stillHolds h.2)).2, hstep.established h.1 hok h.2⟩
  · exact (hstep.sound h.1 (h.1.stillHolds h.2)).1

/-! ## Crossing gets -/

/-- The step of an event, with the result that it names. -/
def execGet (L : Layout) (e : GetEvent) (s : GetState) : Kres GetState :=
  match e with
  | .call p g => return s.setPc p (.probe g (g.key % g.kind.max) none)
  | .lookup p => do
      let pc ← (s.pc p).lookup s.k
      return s.setPc p pc
  | .finish p r =>
    match s.pc p with
    | .chosen g id => do
        let (r', k) ← getSection L p g id s.k
        if r' = r then return GetState.setPc { s with k := k } p .idle else throw .undefined
    | _ => .error .undefined
  | .other op => do
      let k ← execOp L op s.k
      return { s with k := k }

def GetPc.isIdle : GetPc → Bool
  | .idle => true
  | _ => false

def GetEvent.ready (s : GetState) : GetEvent → Bool
  | .call p g => (Op.fork p).ready s.k && (s.pc p).isIdle && g.key != 0
  | .other op => op.ready s.k && (s.pc op.caller).isIdle && !op.isGet &&
      match op with
      | .semctl .. => false
      | _ => true
  | _ => true

/-- The event of a process that may take part in it. -/
def execReadyGet (L : Layout) (e : GetEvent) (s : GetState) : Kres GetState :=
  if e.ready s then execGet L e s else .error .undefined

/-- A search for a queue with the key has returned. -/
def GetPc.asks (key : ℕ) : GetPc → Bool
  | .chosen g _ => g.kind = .msq ∧ g.key = key
  | _ => false

theorem GetPc.exists_of_asks {key : ℕ} (h : pc.asks key = true) :
    ∃ g id, pc = .chosen g id ∧ g.kind = .msq ∧ g.key = key := by
  cases pc with
  | chosen g id => exact ⟨g, id, rfl, of_decide_eq_true h⟩
  | _ => cases h

theorem GetPc.isIdle_iff : pc.isIdle = true ↔ pc = .idle := by
  cases pc <;> simp [isIdle]

theorem execGet_step (hready : e.ready s = true) (h : execGet L e s = .ok s') :
    GetStep L s e s' := by
  cases e with
  | call p g =>
    simp only [GetEvent.ready, Bool.and_eq_true, bne_iff_ne, GetPc.isIdle_iff] at hready
    cases h
    exact .call (ready_of_eq_true hready.1.1) hready.1.2 hready.2
  | lookup p =>
    simp only [execGet, bind_eq_ok, pure_eq_ok] at h
    obtain ⟨pc, hpc, rfl⟩ := h
    exact .lookup hpc
  | finish p r =>
    simp only [execGet] at h
    split at h
    · rename_i g id hpc
      simp only [bind_eq_ok] at h
      obtain ⟨⟨r', k'⟩, hsection, h⟩ := h
      split at h
      · rename_i hr
        cases h
        exact .finish hpc (hr ▸ hsection)
      · cases h
    · cases h
  | other op =>
    simp only [GetEvent.ready, Bool.and_eq_true, Bool.not_eq_true', GetPc.isIdle_iff] at hready
    obtain ⟨⟨⟨hop, hidle⟩, hget⟩, hkeep⟩ := hready
    simp only [execGet, bind_eq_ok, pure_eq_ok] at h
    obtain ⟨k', hk', rfl⟩ := h
    refine .other hidle hget ?_ ⟨ready_of_eq_true hop, execOp_call hk'⟩
    cases op <;> trivial

theorem execReadyGet_step (s : GetState) (e : GetEvent) (s' : GetState)
    (h : execReadyGet L e s = .ok s') : GetStep L s e s' := by
  simp only [execReadyGet] at h
  split at h
  · rename_i hready
    exact execGet_step hready h
  · cases h

/-- The first process and its child are about to call. -/
def twoCallers (L : Layout) : Kres GetState := do
  let k ← smallBoot L
  let (_, k) ← fork L 0 k
  return ⟨k, fun _ => .idle⟩

theorem twoCallers_ready {s : GetState} (h : twoCallers L = .ok s) :
    KeysInv s.k ∧ ∀ p, s.pc p = .idle := by
  simp only [twoCallers, bind_eq_ok, pure_eq_ok] at h
  obtain ⟨k₀, hk₀, ⟨r, k⟩, hk, rfl⟩ := h
  obtain ⟨vm, -, htag⟩ := fork_sharing tag_sharing hk
  refine ⟨(smallBoot_keys hk₀).moves (TagMoves.of_eq htag), fun _ => rfl⟩

/-- The events run from `twoCallers` with a property. -/
theorem exists_get_run (es : List GetEvent) (P : GetState → List (GetEvent × GetState) → Prop)
    (h : (twoCallers L).Yields fun s => Kres.Yields (execAll (execReadyGet L) es s) (P s)) :
    ∃ s₀ run, KeysInv s₀.k ∧ (∀ p, s₀.pc p = .idle) ∧ IsRun (GetStep L) s₀ run ∧
      run.map Prod.fst = es ∧ P s₀ run := by
  obtain ⟨s₀, hs₀, run, hrun, htest⟩ := h
  obtain ⟨hkeys, hidle⟩ := twoCallers_ready hs₀
  obtain ⟨hisRun, hevents⟩ := execAll_isRun execReadyGet_step hrun
  exact ⟨s₀, run, hkeys, hidle, hisRun, hevents, htest⟩

/-- A whole search of the pool of message queues. -/
def searches (p : Fin NPROC) : List GetEvent := List.replicate 17 (.lookup p)

/-- A child gets a queue of its own while no other get is under way. -/
theorem get_alone : ∃ s₀ run, IsRun (GetStep smallLayout) s₀ run ∧
    run.map Prod.fst = .call 1 ⟨.msq, 17, 0, 0x8fff⟩ :: searches 1 ++ [.finish 1 1] ∧
    SlotsDistinct s₀.k ∧ IsRun KeySound s₀ run := by
  obtain ⟨s₀, run, hkeys, hidle, hrun, hevents, hholds⟩ := exists_get_run (L := smallLayout)
    (.call 1 ⟨.msq, 17, 0, 0x8fff⟩ :: searches 1 ++ [.finish 1 1]) (Along StillHolds)
    (by decide +kernel)
  exact ⟨s₀, run, hrun, hevents, (racing_gets_iff hkeys hidle hrun).mpr hholds⟩

/-- This get is not disturbed. -/
theorem get_alone_undisturbed : ∃ s₀ run, IsRun (GetStep smallLayout) s₀ run ∧
    run.map Prod.fst = .call 1 ⟨.msq, 17, 0, 0x8fff⟩ :: searches 1 ++ [.finish 1 1] ∧
    Along (Undisturbed smallLayout) s₀ run ∧ IsRun KeySound s₀ run := by
  obtain ⟨s₀, run, hkeys, hidle, hrun, hevents, halone⟩ := exists_get_run (L := smallLayout)
    (.call 1 ⟨.msq, 17, 0, 0x8fff⟩ :: searches 1 ++ [.finish 1 1])
    (Along fun s _ => ∀ q ≠ 1, (s.pc q).isIdle = true) (by decide +kernel)
  have hlabels : ∀ e ∈ run.map Prod.fst,
      e = .call 1 ⟨.msq, 17, 0, 0x8fff⟩ ∨ e = .lookup 1 ∨ e = .finish 1 1 := by
    rw [hevents]
    simp [searches]
  have hok : Along (Undisturbed smallLayout) s₀ run := by
    refine ((Along.of_labels hlabels).and halone).imp ?_
    rintro s e ⟨rfl | rfl | rfl, halone⟩
    · trivial
    · trivial
    · intro g id _ _ _ q hq g' hg'
      rw [GetPc.isIdle_iff.mp (halone q hq)] at hg'
      cases hg'
  exact ⟨s₀, run, hrun, hevents, hok, undisturbed_gets hkeys hidle hrun hok⟩

/-- Both searches return the free slot at which their keys meet. The second get
finds it in use and returns it, although the first has filled it with another
key. -/
def crossing : List GetEvent :=
  [.call 0 ⟨.msq, 1, 0, 0x8fff⟩, .call 1 ⟨.msq, 17, 0, 0x8fff⟩] ++ searches 0 ++ searches 1 ++
    [.finish 0 1]

theorem gets_cross_keys : ∃ s₀ run, KeysInv s₀.k ∧ (∀ p, s₀.pc p = .idle) ∧
    IsRun (GetStep smallLayout) s₀ run ∧ run.map Prod.fst = crossing ++ [.finish 1 1] ∧
    ¬ IsRun KeySound s₀ run := by
  obtain ⟨s₀, run, hkeys, hidle, hrun, hevents, hready, hasks, s', hs', hkey⟩ := exists_get_run
    (L := smallLayout) crossing (fun s run => (GetEvent.finish 1 1).ready (last s run) = true ∧
      ((last s run).pc 1).asks 17 = true ∧
      (execGet smallLayout (.finish 1 1) (last s run)).Yields fun s' =>
        (s'.k.slot (.msq, 1)).key = 1)
    (by decide +kernel)
  refine ⟨s₀, run ++ [(.finish 1 1, s')], hkeys, hidle, ?_, ?_, ?_⟩
  · exact isRun_append.mpr ⟨hrun, execGet_step hready hs', trivial⟩
  · rw [List.map_append, hevents]
    rfl
  · intro hsound
    have hlast := (isRun_append.mp hsound).2.1
    obtain ⟨g, id, hpc, hkind, hasked⟩ := GetPc.exists_of_asks hasks
    have hret := hlast.returned 1 1 g id rfl hpc (by decide)
    rw [hkind, hasked, Int.toNat_one, hkey] at hret
    exact absurd hret (by decide)

/-- The search of the child passes a queue in use and remembers the slot behind it.
The queue is removed, the first process gets the key in its place, and the child
gets the same key once more. -/
def creatingTwice : List GetEvent :=
  .call 0 ⟨.msq, 1, 0, 0x8fff⟩ :: searches 0 ++ [.finish 0 1] ++
    .call 1 ⟨.msq, 17, 0, 0x8fff⟩ :: searches 1 ++ [.other (.msgctl 0 1 IPC_RMID 0 0)] ++
    .call 0 ⟨.msq, 17, 0, 0x8fff⟩ :: searches 0 ++ [.finish 0 1, .finish 1 2]

theorem key_created_twice : ∃ s₀ run, KeysInv s₀.k ∧ (∀ p, s₀.pc p = .idle) ∧
    IsRun (GetStep smallLayout) s₀ run ∧ run.map Prod.fst = creatingTwice ∧
    ¬ SlotsDistinct (last s₀ run).k := by
  obtain ⟨s₀, run, hkeys, hidle, hrun, hevents, huse, huse', hsame⟩ := exists_get_run
    (L := smallLayout) creatingTwice
    (fun s run => ((last s run).k.slot (.msq, 1)).state ≠ .UNUSED ∧
      ((last s run).k.slot (.msq, 2)).state ≠ .UNUSED ∧
      ((last s run).k.slot (.msq, 1)).key = ((last s run).k.slot (.msq, 2)).key)
    (by decide +kernel)
  refine ⟨s₀, run, hkeys, hidle, hrun, hevents, fun hdistinct => ?_⟩
  exact absurd (hdistinct .msq 1 (by decide) 2 (by decide) huse huse' hsame) (by decide)

end LearnOS.Ipc
