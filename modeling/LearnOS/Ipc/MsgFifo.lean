import LearnOS.Ipc.MsgChain

/-!
# Message queues as typed lists

The chains of messages against lists of contents. The heap enters only by the
account of its blocks: a new message is none of the old ones, and a message that
was received can be freed.

## Main results

`msgs_refine_fifo`: the queues are lists to which `msgsnd` appends, and from which
`msgrcv` takes the earliest message of the wanted type.
-/

namespace LearnOS.Ipc

open LearnOS Transition LinkedList Function Kres

variable {L : Layout} {k k' : Kernel} {id : ℕ} {as : List ℕ} {chains : ℕ → List ℕ} {l₁ l₂ : List ℕ}
  {a : ℕ}
  {s : KHeap} {x msgtype : ℕ}

/-! ## Typed lists -/

/-- The message is of the type, or any type will do. -/
def ofType (msgtype : ℕ) (m : MsgBuf) : Bool := msgtype = 0 ∨ m.mtype = msgtype

/-- The content that arrives: a text longer than `msgsz` is cut there. -/
structure Delivered (msgsz : ℕ) (m d : MsgBuf) : Prop where
  mtype : d.mtype = m.mtype
  length : d.length = m.length
  mtext : ∀ i : Fin 496, d.mtext i = if 0 < msgsz ∧ i.val = msgsz then 0 else m.mtext i

/-- What the calls mean for lists of messages. A call that does not return zero has
no effect. -/
inductive FifoStep (q : ℕ → List MsgBuf) : Op → (ℕ → List MsgBuf) → Prop
  | send {p : Fin NPROC} {id : ℕ} {m : MsgBuf} {nowait : Bool} :
      FifoStep q (.msgsnd p id m nowait 0) (update q id (q id ++ [m]))
  | receive {p : Fin NPROC} {id msgsz msgtype : ℕ} {nowait : Bool} {m d : MsgBuf}
      (hfind : (q id).find? (ofType msgtype) = some m) (hd : Delivered msgsz m d) :
      FifoStep q (.msgrcv p id msgsz msgtype nowait 0 (some d))
        (update q id ((q id).eraseP (ofType msgtype)))
  | refuseSend {p : Fin NPROC} {msqid r : ℤ} {m : MsgBuf} {nowait : Bool} (hr : r ≠ 0) :
      FifoStep q (.msgsnd p msqid m nowait r) q
  | refuseReceive {p : Fin NPROC} {msqid r : ℤ} {msgsz msgtype : ℕ} {nowait : Bool} (hr : r ≠ 0) :
      FifoStep q (.msgrcv p msqid msgsz msgtype nowait r none) q

theorem FifoStep.congr {q q₁ q' : ℕ → List MsgBuf} {op : Op} (h : FifoStep q op q₁)
    (hq : q' = q₁) : FifoStep q op q' :=
  hq ▸ h

/-- Each queue holds its list, with the right count and within its bound. -/
def ShowsLists (k : Kernel) (q : ℕ → List MsgBuf) : Prop :=
  ∀ id, (∃ as, Seg NULL k.next (k.msqid id).first as NULL ∧ as.map k.content = q id) ∧
    (k.msqid id).msgCount = (q id).length ∧ (q id).length ≤ (k.msqid id).maxlen

theorem cut_delivered (m : MsgBuf) (msgsz : ℕ) : Delivered msgsz m (m.cut msgsz) := by
  rw [MsgBuf.cut]
  split
  · rename_i hsz
    refine ⟨rfl, rfl, fun i => ?_⟩
    simp only [hsz.1, true_and]
  · rename_i hsz
    refine ⟨rfl, rfl, fun i => ?_⟩
    rw [if_neg]
    rintro ⟨hpos, hi⟩
    exact hsz ⟨hpos, hi ▸ i.isLt⟩

/-- A type is a positive `int`. -/
def TypeInt (m : MsgBuf) : Prop := 0 < m.mtype ∧ m.mtype < 2 ^ 31

theorem wanted_eq_ofType {m : MsgBuf} (h : TypeInt m) (msgtype : ℕ) :
    wanted msgtype m = ofType msgtype m := by
  obtain ⟨hpos, hlt⟩ := h
  have hmod : m.mtype % 2 ^ 32 = m.mtype := Int.emod_eq_of_lt hpos.le (by omega)
  have hiff : m.mtype.toNat = msgtype ↔ m.mtype = msgtype := by omega
  simp only [wanted, ofType, hmod, hiff]

/-! ## The invariant -/

/-- The blocks of all messages are held by the allocator's account. -/
def HoldsChains (L : Layout) (s : KHeap) (chains : ℕ → List ℕ) : Prop :=
  ∃ held live pool, KmInv L ⟨s, held⟩ live pool ∧ ∀ id, ∀ a ∈ chains id, (a, 512) ∈ held

/-- The chains of messages, over a heap that holds them. -/
structure MsgInv (L : Layout) (k : Kernel) (chains : ℕ → List ℕ) : Prop where
  linked : Chains k chains
  bound : ∀ id, (k.msqid id).maxlen < 2 ^ 32
  fits : ∀ id, (chains id).length ≤ (k.msqid id).maxlen
  types : ∀ id, ∀ a ∈ chains id, TypeInt (k.content a)
  heap : HoldsChains L k.heap chains

def listsOf (k : Kernel) (chains : ℕ → List ℕ) (id : ℕ) : List MsgBuf :=
  (chains id).map k.content

theorem MsgInv.shows (h : MsgInv L k chains) : ShowsLists k (listsOf k chains) := by
  intro id
  have hchain := h.linked.chain id
  refine ⟨⟨chains id, hchain.seg, rfl⟩, ?_, ?_⟩
  · rw [listsOf, List.length_map]
    exact hchain.count
  · rw [listsOf, List.length_map]
    exact h.fits id

/-- One queue gets a new chain, and the messages of the others stay. -/
theorem MsgInv.move (h : MsgInv L k chains) (hlinked : Chains k' (update chains id as))
    (hmaxlen : ∀ id', (k'.msqid id').maxlen = (k.msqid id').maxlen)
    (hfits : as.length ≤ (k.msqid id).maxlen) (htypes : ∀ a ∈ as, TypeInt (k'.content a))
    (hkept : ∀ id' ≠ id, ∀ a ∈ chains id', k'.content a = k.content a)
    (hheap : HoldsChains L k'.heap (update chains id as)) :
    MsgInv L k' (update chains id as) ∧
      listsOf k' (update chains id as) =
        update (listsOf k chains) id (as.map k'.content) := by
  refine ⟨⟨hlinked, fun id' => ?_, ?_, ?_, hheap⟩, (eq_update_iff).mpr ⟨?_, fun id' hid => ?_⟩⟩
  · rw [hmaxlen]
    exact h.bound id'
  · refine (forall_update_iff chains fun id' l => l.length ≤ (k'.msqid id').maxlen).mpr
      ⟨?_, fun id' _ => ?_⟩ <;> rw [hmaxlen]
    exacts [hfits, h.fits id']
  · refine (forall_update_iff chains fun _ l => ∀ a ∈ l, TypeInt (k'.content a)).mpr
      ⟨htypes, fun id' hid a ha => ?_⟩
    rw [hkept id' hid a ha]
    exact h.types id' a ha
  · rw [listsOf, update_self]
  · rw [listsOf, update_of_ne hid]
    exact List.map_congr_left (hkept id' hid)

/-- A message put into a block outside the chains changes none of them. -/
theorem Chains.setMsg {m : MsgMsg} (h : Chains k chains) (ha : ∀ id, a ∉ chains id) :
    Chains (k.setMsg a m) chains ∧ ∀ id, ∀ b ∈ chains id,
      (k.setMsg a m).content b = k.content b := by
  have hne : ∀ id, ∀ b ∈ chains id, b ≠ a := fun id b hb heq => ha id (heq ▸ hb)
  refine ⟨⟨fun id => ?_, h.zero, h.nodup, h.apart⟩, fun id b hb => ?_⟩
  · refine (h.chain id).congr rfl fun b hb => ?_
    simp [Kernel.next, Kernel.setMsg, hne id b hb]
  · simp [Kernel.content, Kernel.setMsg, hne id b hb]

/-- A new block is outside all chains, and is held with them until it is freed. -/
theorem MsgInv.fresh (h : MsgInv L k chains)
    (hcall : LearnOS.kmalloc L 512 k.heap = .ok (a, s)) (hnull : a ≠ NULL) :
    (∀ id, a ∉ chains id) ∧ (∀ id, HoldsChains L s (update chains id (chains id ++ [a]))) ∧
      HoldsChains L s chains ∧
      ∀ s', LearnOS.kmfree L a 512 s = .ok s' → HoldsChains L s' chains := by
  obtain ⟨held, live, pool, hinv, hheld⟩ := h.heap
  obtain ⟨live', pool', hinv'⟩ := kmInv_kmalloc hinv hcall
  rw [if_neg hnull] at hinv'
  refine ⟨fun id ha => ?_, fun id => ⟨_, live', pool', hinv', ?_⟩,
    ⟨_, live', pool', hinv', fun id b hb => List.mem_cons_of_mem _ (hheld id b hb)⟩,
    fun s' hs' => ?_⟩
  · have hdistinct := (List.pairwise_cons.mp hinv'.distinct).1 (a, 512) (hheld id a ha)
    exact hdistinct (.slab .gSlab512) rfl rfl rfl
  · refine (forall_update_iff chains fun _ l => ∀ b ∈ l, (b, 512) ∈ (a, 512) :: held).mpr
      ⟨List.forall_mem_append.mpr ⟨fun b hb => List.mem_cons_of_mem _ (hheld id b hb), by simp⟩,
        fun id' _ b hb => List.mem_cons_of_mem _ (hheld id' b hb)⟩
  · obtain ⟨s₃, live₃, pool₃, hs₃, hinv₃⟩ := kmInv_kmfree hinv' List.mem_cons_self
      (Or.inl (by decide) : MatchedSize 512)
    obtain rfl : s₃ = s' := Except.ok.inj (hs₃.symm.trans hs')
    rw [List.erase_cons_head] at hinv₃
    exact ⟨held, live₃, pool₃, hinv₃, hheld⟩

/-! ## Sending -/

theorem linkMsg_heap (a : ℕ) : (linkMsg id a k).heap = k.heap := by
  simp only [linkMsg]
  split <;> rfl

theorem linkMsg_maxlen (a id' : ℕ) :
    ((linkMsg id a k).msqid id').maxlen = (k.msqid id').maxlen := by
  by_cases hid : id' = id
  · subst hid
    simp only [linkMsg]
    split <;> simp
  · simp only [linkMsg]
    split <;> simp [Kernel.setMsq, Kernel.setNext, Kernel.setMsg, hid]

theorem MsgInv.room (h : MsgInv L k chains) (hfull : msqFull (k.msqid id) = false) :
    (chains id).length < (k.msqid id).maxlen := by
  rw [← not_le, ← (h.linked.chain id).full_iff, hfull]
  exact Bool.false_ne_true

/-- A message that is stored and not linked. -/
theorem MsgInv.store (h : MsgInv L k chains) (content : MsgBuf)
    (hfresh : ∀ id, a ∉ chains id) (hheap : HoldsChains L s chains) :
    MsgInv L ((k.setMsg a { k.msg a with content := content }).setHeap s) chains ∧
      listsOf ((k.setMsg a { k.msg a with content := content }).setHeap s) chains =
        listsOf k chains := by
  obtain ⟨hset, hcontent⟩ := h.linked.setMsg (m := { k.msg a with content := content }) hfresh
  refine ⟨⟨⟨fun id => (hset.chain id).congr rfl fun _ _ => rfl, hset.zero, hset.nodup,
    hset.apart⟩, h.bound, h.fits, fun id b hb => ?_, hheap⟩, ?_⟩
  · have hb' := hcontent id b hb
    change TypeInt ((k.setMsg a { k.msg a with content := content }).content b)
    rw [hb']
    exact h.types id b hb
  · funext id
    exact List.map_congr_left (hcontent id)

theorem MsgInv.link {content : MsgBuf} (h : MsgInv L k chains) (hnull : a ≠ NULL)
    (hfresh : ∀ id', a ∉ chains id') (htype : TypeInt content)
    (hfull : msqFull (k.msqid id) = false)
    (hheap : HoldsChains L s (update chains id (chains id ++ [a]))) :
    let k' := linkMsg id a ((k.setHeap s).setMsg a { k.msg a with content := content })
    let chains' := update chains id (chains id ++ [a])
    MsgInv L k' chains' ∧
      listsOf k' chains' =
        update (listsOf k chains) id (listsOf k chains id ++ [content]) := by
  intro k' chains'
  obtain ⟨hset, hcontent⟩ := h.linked.setMsg (m := { k.msg a with content := content }) hfresh
  have hset' : Chains ((k.setHeap s).setMsg a { k.msg a with content := content }) chains :=
    ⟨fun id => (hset.chain id).congr rfl fun _ _ => rfl, hset.zero, hset.nodup, hset.apart⟩
  have hroom := h.room hfull
  have hbound := h.bound id
  have hnew : k'.content a = content := by
    rw [show k'.content = _ from linkMsg_content a]
    simp [Kernel.content, Kernel.setMsg]
  have hold : ∀ id', ∀ b ∈ chains id', k'.content b = k.content b := by
    intro id' b hb
    rw [show k'.content = _ from linkMsg_content a]
    exact hcontent id' b hb
  have htypes : ∀ b ∈ chains id ++ [a], TypeInt (k'.content b) := by
    refine List.forall_mem_append.mpr ⟨fun b hb => ?_, List.forall_mem_singleton.mpr ?_⟩
    · rw [hold id b hb]
      exact h.types id b hb
    · rw [hnew]
      exact htype
  have hlinked : Chains k' chains' := linkMsg_chains hset' hnull hfresh (by omega)
  obtain ⟨hinv, hlists⟩ := h.move hlinked (linkMsg_maxlen a)
    (by rw [List.length_append]; exact hroom) htypes (fun id' _ => hold id')
    (by rw [show k'.heap = _ from linkMsg_heap a]; exact hheap)
  rw [List.map_append, List.map_singleton, hnew, List.map_congr_left (hold id)] at hlists
  exact ⟨hinv, hlists⟩

theorem msgsnd_simulated {p : Fin NPROC} {msqid r : ℤ} {content : MsgBuf} {nowait : Bool}
    (h : MsgInv L k chains) (htype : content.mtype < 2 ^ 31)
    (hcall : msgsnd L msqid content nowait k = .ok (.done r, k')) :
    ∃ chains', MsgInv L k' chains' ∧
      FifoStep (listsOf k chains) (.msgsnd p msqid content nowait r) (listsOf k' chains') := by
  simp only [msgsnd] at hcall
  split at hcall
  · cases hcall
    exact ⟨chains, h, .refuseSend (by decide)⟩
  simp only [bind_eq_ok] at hcall
  obtain ⟨id, hid, u, -, hcall⟩ := hcall
  obtain rfl := indexOf_ok hid
  split at hcall
  · cases hcall
    exact ⟨chains, h, .refuseSend (by decide)⟩
  simp only [bind_eq_ok] at hcall
  obtain ⟨⟨a, k₁⟩, hk₁, hcall⟩ := hcall
  obtain ⟨s, hs, rfl, hnull⟩ := Kernel.kmallocNode_ok hk₁
  obtain ⟨hfresh, hlinked, hstored, hfreed⟩ := h.fresh hs hnull
  split at hcall
  · cases hcall
    obtain ⟨hinv', hlists'⟩ := h.store content hfresh hstored
    exact ⟨chains, hinv', .congr (.refuseSend (by decide)) hlists'⟩
  rename_i hpos
  split at hcall
  · split at hcall
    · simp only [bind_eq_ok, pure_eq_ok, Prod.mk.injEq,
        MsgResult.done.injEq] at hcall
      obtain ⟨k₂, hk₂, rfl, rfl⟩ := hcall
      obtain ⟨s₂, hs₂, rfl⟩ := Kernel.kmfree_ok hk₂
      obtain ⟨hinv', hlists'⟩ := h.store content hfresh (hfreed _ hs₂)
      exact ⟨chains, hinv', .congr (.refuseSend (by decide)) hlists'⟩
    · cases hcall
  · rename_i hfull
    simp only [pure_eq_ok, Prod.mk.injEq, MsgResult.done.injEq] at hcall
    obtain ⟨rfl, rfl⟩ := hcall
    obtain ⟨hinv', hlists'⟩ := h.link hnull hfresh ⟨not_le.mp hpos, htype⟩
      (Bool.eq_false_iff.mpr hfull) (hlinked id)
    exact ⟨_, hinv', .congr .send hlists'⟩

/-! ## Receiving -/

theorem unlinkMsg_heap (prev : Option ℕ) : (unlinkMsg id prev k).2.heap = k.heap := by
  cases prev with
  | none =>
    simp only [unlinkMsg]
    split <;> rfl
  | some prev => rfl

theorem unlinkMsg_maxlen (prev : Option ℕ) (id' : ℕ) :
    ((unlinkMsg id prev k).2.msqid id').maxlen = (k.msqid id').maxlen := by
  by_cases hid : id' = id
  · subst hid
    cases prev with
    | none =>
      simp only [unlinkMsg]
      split <;> simp
    | some prev => simp [unlinkMsg]
  · cases prev with
    | none =>
      simp only [unlinkMsg]
      split <;> simp [Kernel.setMsq, hid]
    | some prev => simp [unlinkMsg, Kernel.setMsq, Kernel.setNext, Kernel.setMsg, hid]

/-- The message at `x` leaves its chain. -/
theorem unlinkMsg_spec (h : Chains k chains) (hid : chains id = l₁ ++ x :: l₂) :
    (unlinkMsg id l₁.getLast? k).1 = x ∧
      Chains (unlinkMsg id l₁.getLast? k).2 (update chains id (l₁ ++ l₂)) := by
  by_cases hnil : l₁ = []
  · subst hnil
    exact unlinkMsg_first h hid
  · obtain ⟨l, prev, rfl⟩ := exists_concat hnil
    rw [List.getLast?_concat]
    exact unlinkMsg_later h hid

theorem mem_update_remove {a : ℕ} {id' : ℕ} (hid : chains id = l₁ ++ x :: l₂)
    (ha : a ∈ update chains id (l₁ ++ l₂) id') : a ∈ chains id' := by
  by_cases hne : id' = id
  · subst hne
    rw [update_self] at ha
    rw [hid]
    rcases List.mem_append.mp ha with ha | ha
    · exact List.mem_append_left _ ha
    · exact List.mem_append_right _ (List.mem_cons_of_mem _ ha)
  · rwa [update_of_ne hne] at ha

theorem MsgInv.unlink (h : MsgInv L k chains) (msgsz : ℕ) (hid : chains id = l₁ ++ x :: l₂) :
    ∃ s, LearnOS.kmfree L x 512 k.heap = .ok s ∧
      let k₁ := (unlinkMsg id l₁.getLast? k).2
      let k' := (k₁.setMsg x { k₁.msg x with content := (k.content x).cut msgsz }).setHeap s
      let chains' := update chains id (l₁ ++ l₂)
      MsgInv L k' chains' ∧
        listsOf k' chains' =
          update (listsOf k chains) id ((l₁ ++ l₂).map k.content) := by
  obtain ⟨held, live, pool, hinv, hheld⟩ := h.heap
  have hx : x ∈ chains id := by rw [hid]; simp
  obtain ⟨s, live', pool', hs, hinv'⟩ := kmInv_kmfree hinv (hheld id x hx)
    (Or.inl (by decide) : MatchedSize 512)
  refine ⟨s, hs, ?_⟩
  intro k₁ k' chains'
  have hunlink := (unlinkMsg_spec h.linked hid).2
  have hgone : ∀ id', x ∉ chains' id' := by
    intro id' hmem
    obtain rfl := h.linked.apart id' id x (mem_update_remove hid hmem) hx
    rw [show chains' id' = l₁ ++ l₂ from update_self _ _ _] at hmem
    have hnodup := h.linked.nodup id'
    rw [hid, List.nodup_append] at hnodup
    rcases List.mem_append.mp hmem with hmem | hmem
    · exact hnodup.2.2 x hmem x List.mem_cons_self rfl
    · exact (List.nodup_cons.mp hnodup.2.1).1 hmem
  obtain ⟨hset, hcontent⟩ := hunlink.setMsg
    (m := { k₁.msg x with content := (k.content x).cut msgsz }) hgone
  have hold : ∀ id', ∀ b ∈ chains' id', k'.content b = k.content b := by
    intro id' b hb
    have hb' : k'.content b = k₁.content b := hcontent id' b hb
    rw [hb', show k₁.content = k.content from unlinkMsg_content _ _]
  have hself : chains' id = l₁ ++ l₂ := update_self _ _ _
  rw [← List.map_congr_left fun b hb => hold id b (hself ▸ hb)]
  have hlinked : Chains k' chains' :=
    ⟨fun id' => (hset.chain id').congr rfl fun _ _ => rfl, hset.zero, hset.nodup, hset.apart⟩
  refine h.move hlinked (unlinkMsg_maxlen (k := k) _) ?_ (fun b hb => ?_)
    (fun id' hne b hb => hold id' b ?_)
    ⟨held.erase (x, 512), live', pool', hinv', fun id' b hb => ?_⟩
  · have hfits := h.fits id
    rw [hid] at hfits
    simp only [List.length_append, List.length_cons] at hfits ⊢
    omega
  · rw [← hself] at hb
    rw [hold id b hb]
    exact h.types id b (mem_update_remove hid hb)
  · rwa [show chains' id' = _ from update_of_ne hne _ _]
  · refine (List.mem_erase_of_ne ?_).mpr (hheld id' b (mem_update_remove hid hb))
    rintro heq
    obtain ⟨rfl, -⟩ := Prod.mk.inj heq
    exact hgone id' hb

/-- The first wanted message in a list of addresses is the first message of the
type in the list of contents. -/
theorem find_first (htypes : ∀ a ∈ l₁ ++ x :: l₂, TypeInt (k.content a))
    (hbefore : ∀ a ∈ l₁, wanted msgtype (k.content a) = false)
    (hx : wanted msgtype (k.content x) = true) :
    ((l₁ ++ x :: l₂).map k.content).find? (ofType msgtype) = some (k.content x) ∧
      ((l₁ ++ x :: l₂).map k.content).eraseP (ofType msgtype) = (l₁ ++ l₂).map k.content := by
  have hx' : ofType msgtype (k.content x) = true := by
    rw [← wanted_eq_ofType (htypes x (by simp))]
    exact hx
  have hbefore' : ∀ m ∈ l₁.map k.content, ¬ ofType msgtype m = true := by
    intro m hm
    obtain ⟨a, ha, rfl⟩ := List.mem_map.mp hm
    rw [← wanted_eq_ofType (htypes a (List.mem_append_left _ ha)), hbefore a ha]
    decide
  rw [List.map_append, List.map_append, List.map_cons]
  constructor
  · rw [List.find?_append, List.find?_eq_none.mpr hbefore', Option.none_or,
      List.find?_cons_of_pos hx']
  · rw [List.eraseP_append_right _ hbefore', List.eraseP_cons_of_pos hx']

/-- What a receive does with a queue in use that is not empty. -/
theorem msgrcv_found (msgsz : ℕ) (nowait : Bool) (h : MsgInv L k chains)
    (hmax : ¬ (id : ℤ) ≥ MSGMAX) (hfree : (k.slot (.msq, id)).locked = false)
    (huse : (k.slot (.msq, id)).state ≠ .UNUSED) (hid : chains id = l₁ ++ x :: l₂)
    (hfound : findWanted k (k.msqid id) msgtype = .ok (some l₁.getLast?)) :
    ∃ k', msgrcv L id msgsz msgtype nowait k =
        .ok (.done 0, some ((k.content x).cut msgsz), k') ∧
      MsgInv L k' (update chains id (l₁ ++ l₂)) ∧
      listsOf k' (update chains id (l₁ ++ l₂)) =
        update (listsOf k chains) id ((l₁ ++ l₂).map k.content) := by
  obtain ⟨s, hs, hinv', hlists⟩ := h.unlink msgsz hid
  refine ⟨_, ?_, hinv', hlists⟩
  have hne : (k.msqid id).first ≠ NULL := by
    intro hnull
    have hnil := (h.linked.chain id).first_eq_null_iff.mp hnull
    rw [hid] at hnil
    simp at hnil
  have hnode := (unlinkMsg_spec h.linked hid).1
  have hcontent : ((unlinkMsg id l₁.getLast? k).2.msg x).content = k.content x :=
    congrFun (unlinkMsg_content id l₁.getLast?) x
  have hs' : LearnOS.kmfree L x 512 ((unlinkMsg id l₁.getLast? k).2.setMsg x
      { (unlinkMsg id l₁.getLast? k).2.msg x with content := (k.content x).cut msgsz }).heap =
      .ok s := by
    rw [show Kernel.heap (Kernel.setMsg _ _ _) = _ from unlinkMsg_heap (k := k) _]
    exact hs
  simp only [msgrcv, if_neg hmax, indexOf, Int.not_lt.mpr (Int.natCast_nonneg id), if_false,
    Int.toNat_natCast, Kernel.acquire, hfree, Bool.false_eq_true, ok_bind, if_neg huse,
    if_neg hne, hfound, hnode, hcontent, Kernel.kmfree, hs', pure_eq]

theorem msgrcv_simulated {p : Fin NPROC} {msqid r : ℤ} {msgsz : ℕ} {nowait : Bool}
    {content : Option MsgBuf} (h : MsgInv L k chains)
    (hcall : msgrcv L msqid msgsz msgtype nowait k = .ok (.done r, content, k')) :
    ∃ chains', MsgInv L k' chains' ∧
      FifoStep (listsOf k chains) (.msgrcv p msqid msgsz msgtype nowait r content)
        (listsOf k' chains') := by
  have hcall' := hcall
  simp only [msgrcv] at hcall
  split at hcall
  · cases hcall
    exact ⟨chains, h, .refuseReceive (by decide)⟩
  rename_i hmax
  simp only [bind_eq_ok] at hcall
  obtain ⟨id, hid, u, hacq, hcall⟩ := hcall
  obtain rfl := indexOf_ok hid
  have hfree := Kernel.acquire_ok hacq
  split at hcall
  · cases hcall
    exact ⟨chains, h, .refuseReceive (by decide)⟩
  rename_i huse
  have hchain := h.linked.chain id
  split at hcall
  · cases nowait with
    | true =>
      cases hcall
      exact ⟨chains, h, .refuseReceive (by decide)⟩
    | false => cases hcall
  rename_i hne
  obtain ⟨found, hfound, hcases⟩ := findWanted_spec msgtype hchain
    fun hnil => hne (hchain.first_eq_null_iff.mpr hnil)
  rcases hcases with ⟨rfl, -⟩ | ⟨l₁, x, l₂, hsplit, hbefore, hx, rfl⟩
  · rw [hfound] at hcall
    cases nowait with
    | true =>
      cases hcall
      exact ⟨chains, h, .refuseReceive (by decide)⟩
    | false => cases hcall
  · obtain ⟨k₁, hk₁, hinv', hlists⟩ := msgrcv_found msgsz nowait h hmax hfree
      huse hsplit hfound
    rw [hk₁] at hcall'
    simp only [Except.ok.injEq, Prod.mk.injEq, MsgResult.done.injEq] at hcall'
    obtain ⟨rfl, rfl, rfl⟩ := hcall'
    have htypes := h.types id
    rw [hsplit] at htypes
    obtain ⟨hfind, herase⟩ := find_first htypes hbefore hx
    refine ⟨_, hinv', .congr (.receive (m := k.content x) ?_ (cut_delivered _ msgsz)) ?_⟩
    · rw [listsOf, hsplit]
      exact hfind
    · rw [hlists, ← herase, ← hsplit]
      rfl

/-! ## Runs -/

/-- Calls that send and receive. -/
def Op.passesMessages : Op → Bool
  | .msgsnd _ _ _ _ _ => true
  | .msgrcv _ _ _ _ _ _ _ => true
  | _ => false

def MsgStep (L : Layout) (k : Kernel) (op : Op) (k' : Kernel) : Prop :=
  Step L k op k' ∧ op.passesMessages

/-- The type of a message that is sent is an `int`. -/
def SendsInt (_ : Kernel) : Op → Prop
  | .msgsnd _ _ m _ _ => m.mtype < 2 ^ 31
  | _ => True

/-- The queues after `msqinit`, in use or not, over a heap in order. -/
structure EmptyQueues (L : Layout) (k : Kernel) : Prop where
  first : ∀ id, (k.msqid id).first = NULL
  last : ∀ id, (k.msqid id).last = NULL
  count : ∀ id, (k.msqid id).msgCount = 0
  bound : ∀ id, (k.msqid id).maxlen < 2 ^ 32
  heap : ∃ held live pool, KmInv L ⟨k.heap, held⟩ live pool

theorem EmptyQueues.msgInv (h : EmptyQueues L k) : MsgInv L k fun _ => [] where
  linked :=
    { chain := fun id => ⟨h.first id, by simp, h.count id, Nat.two_pow_pos _⟩
      zero := fun _ => h.last 0
      nodup := fun _ => List.nodup_nil
      apart := by simp }
  bound := h.bound
  fits := fun _ => Nat.zero_le _
  types := by simp
  heap := by
    obtain ⟨held, live, pool, hinv⟩ := h.heap
    exact ⟨held, live, pool, hinv, by simp⟩

theorem MsgStep.simulated {op : Op} (hstep : MsgStep L k op k') (hint : SendsInt k op)
    (h : MsgInv L k chains) :
    ∃ chains', MsgInv L k' chains' ∧
      FifoStep (listsOf k chains) op (listsOf k' chains') := by
  obtain ⟨⟨-, hcall⟩, hop⟩ := hstep
  cases hcall with
  | msgsnd hcall => exact msgsnd_simulated h hint hcall
  | msgrcv hcall => exact msgrcv_simulated h hcall
  | _ => cases hop

/-- The call returns, and it delivers a message exactly if there is one of the
type. -/
def Receives (L : Layout) (k : Kernel) (q : ℕ → List MsgBuf) : Prop :=
  ∀ id < MSGMAX, (k.slot (.msq, id)).locked = false → (k.slot (.msq, id)).state ≠ .UNUSED →
    ∀ msgsz msgtype nowait, ∃ r content k',
      msgrcv L id msgsz msgtype nowait k = .ok (r, content, k') ∧
      (r = .done 0 ↔ ∃ m ∈ q id, ofType msgtype m)

theorem MsgInv.receives (h : MsgInv L k chains) : Receives L k (listsOf k chains) := by
  intro id hlt hfree huse msgsz msgtype nowait
  have hchain := h.linked.chain id
  have hmax : ¬ (id : ℤ) ≥ MSGMAX := by omega
  have hindex : indexOf (id : ℤ) = .ok id := by
    rw [indexOf, if_neg (by omega), Int.toNat_natCast]
  have hacq : k.acquire .msq id = .ok () := by simp [Kernel.acquire, hfree]
  have hnone : (∀ a ∈ chains id, wanted msgtype (k.content a) = false) →
      ¬ ∃ m ∈ listsOf k chains id, ofType msgtype m := by
    rintro hall ⟨m, hm, htype⟩
    obtain ⟨a, ha, rfl⟩ := List.mem_map.mp hm
    rw [← wanted_eq_ofType (h.types id a ha), hall a ha] at htype
    cases htype
  by_cases hfirst : (k.msqid id).first = NULL
  · refine ⟨if nowait then .done (-1) else .blocked, none, k, ?_, ?_⟩
    · simp only [msgrcv, if_neg hmax, hindex, hacq, ok_bind, if_neg huse, if_pos hfirst,
        pure_eq]
    · refine iff_of_false (by cases nowait <;> decide) (hnone ?_)
      rw [hchain.first_eq_null_iff.mp hfirst]
      simp
  · obtain ⟨found, hfound, hcases⟩ := findWanted_spec msgtype hchain
      fun hnil => hfirst (hchain.first_eq_null_iff.mpr hnil)
    rcases hcases with ⟨rfl, hall⟩ | ⟨l₁, x, l₂, hsplit, hbefore, hx, rfl⟩
    · refine ⟨if nowait then .done (-1) else .blocked, none, k, ?_, ?_⟩
      · simp only [msgrcv, if_neg hmax, hindex, hacq, ok_bind, if_neg huse, if_neg hfirst,
          hfound, pure_eq]
      · exact iff_of_false (by cases nowait <;> decide) (hnone hall)
    · obtain ⟨k₁, hk₁, -⟩ := msgrcv_found msgsz nowait h hmax hfree huse
        hsplit hfound
      refine ⟨_, _, k₁, hk₁, iff_of_true rfl ⟨k.content x, ?_, ?_⟩⟩
      · refine List.mem_map_of_mem ?_
        rw [hsplit]
        simp
      · rw [← wanted_eq_ofType (h.types id x (by rw [hsplit]; simp))]
        exact hx

/-- A list shown by a kernel is determined by it. -/
theorem ShowsLists.unique {q q' : ℕ → List MsgBuf} (h : ShowsLists k q) (h' : ShowsLists k q') :
    q = q' := by
  funext id
  obtain ⟨⟨as, hseg, hq⟩, -⟩ := h id
  obtain ⟨⟨as', hseg', hq'⟩, -⟩ := h' id
  rw [← hq, ← hq', hseg.unique hseg']

/-- Every run of sends and receives from empty queues follows a run on lists, state
by state, and in every state each receive returns with the message that the list
determines, or with none when there is none. -/
theorem msgs_refine_fifo {k₀ : Kernel} {run : List (Op × Kernel)} (hempty : EmptyQueues L k₀)
    (hrun : IsRun (MsgStep L) k₀ run) (hint : Along SendsInt k₀ run) :
    (∃ run', IsRun FifoStep (fun _ => []) run' ∧ Matching ShowsLists run run') ∧
      ∀ k ∈ visited k₀ run, ∀ q, ShowsLists k q → Receives L k q := by
  have hstep := hrun.and_along hint
  have hsim : ∀ k op k' q, (∃ chains, MsgInv L k chains ∧ q = listsOf k chains) →
      MsgStep L k op k' ∧ SendsInt k op →
      ∃ q', FifoStep q op q' ∧ ∃ chains, MsgInv L k' chains ∧ q' = listsOf k' chains := by
    rintro k op k' q ⟨chains, hinv, rfl⟩ hs
    obtain ⟨chains', hinv', hfifo⟩ := hs.1.simulated hs.2 hinv
    exact ⟨_, hfifo, chains', hinv', rfl⟩
  constructor
  · obtain ⟨run', hrun', hmatch⟩ := IsRun.simulated _ hsim ⟨fun _ => [], hempty.msgInv, rfl⟩ hstep
    refine ⟨run', hrun', hmatch.imp fun x y hxy => ⟨hxy.1, ?_⟩⟩
    obtain ⟨chains, hinv, hq⟩ := hxy.2
    rw [hq]
    exact hinv.shows
  · intro k hk q hq
    obtain ⟨chains, hinv⟩ := IsRun.invariant_always (fun k => ∃ chains, MsgInv L k chains)
      (fun k op k' hinv hs => hinv.elim fun chains hinv =>
        (hs.1.simulated hs.2 hinv).imp fun _ hnext => hnext.1) ⟨_, hempty.msgInv⟩ hstep k hk
    rw [hq.unique hinv.shows]
    exact hinv.receives

/-- All queues are open and empty, over the heap that `slab_init` leaves. -/
def msgBoot (L : Layout) : Kres Kernel := do
  let s ← slabBoot L
  return {
    Kernel.start ⟨s.mem, fun _ => { Proc.unused with state := .RUNNABLE }, 0⟩ s.word s.cache with
    slot := fun _ => ⟨false, 1, 0, 0, .USED⟩ }

theorem msgBoot_empty {k : Kernel} (h : msgBoot L = .ok k) : EmptyQueues L k := by
  simp only [msgBoot, bind_eq_ok, pure_eq_ok] at h
  obtain ⟨s, hs, rfl⟩ := h
  obtain ⟨s₀, hheap, hinit⟩ := slabBoot_init hs
  obtain ⟨live, pool, hinv⟩ := kmInv_init hheap hinit
  exact ⟨fun _ => rfl, fun _ => rfl, fun _ => rfl, fun _ => (by decide : 16 < 2 ^ 32), [], live,
    pool, hinv⟩

/-- A message is sent to the second queue of the pool and received there. -/
theorem send_receive_run :
    ∃ k₀ run d, EmptyQueues smallLayout k₀ ∧ IsRun (MsgStep smallLayout) k₀ run ∧
      run.map Prod.fst =
        [.msgsnd 0 1 ⟨7, 3, fun _ => 1⟩ false 0, .msgrcv 0 1 2 7 false 0 (some d)] ∧
      Along SendsInt k₀ run ∧
      ∃ run', IsRun FifoStep (fun _ => []) run' ∧ Matching ShowsLists run run' := by
  have hrun : (msgBoot smallLayout).Yields fun k => (Op.fork 0).ready k = true ∧
      (msgsnd smallLayout 1 ⟨7, 3, fun _ => 1⟩ false k).Yields fun x =>
        (Op.fork 0).ready x.2 = true ∧ x.1 = .done 0 ∧
        (msgrcv smallLayout 1 2 7 false x.2).Yields fun y => y.1 = .done 0 ∧ y.2.1.isSome := by
    decide +kernel
  obtain ⟨k₀, hk₀, hready₀, ⟨r, k₁⟩, hsend, hready₁, rfl, ⟨r', content, k₂⟩, hreceive, rfl,
    hsome⟩ := hrun
  obtain ⟨d, rfl⟩ := Option.isSome_iff_exists.mp hsome
  have hempty := msgBoot_empty hk₀
  have hready₀ : Ready k₀ (.fork 0) := ready_of_eq_true hready₀
  have hready₁ : Ready k₁ (.fork 0) := ready_of_eq_true hready₁
  have hrun : IsRun (MsgStep smallLayout) k₀
      [(.msgsnd 0 1 ⟨7, 3, fun _ => 1⟩ false 0, k₁), (.msgrcv 0 1 2 7 false 0 (some d), k₂)] :=
    ⟨⟨⟨hready₀, .msgsnd hsend⟩, rfl⟩, ⟨⟨hready₁, .msgrcv hreceive⟩, rfl⟩, trivial⟩
  have hint : Along SendsInt k₀
      [(.msgsnd 0 1 ⟨7, 3, fun _ => 1⟩ false 0, k₁), (.msgrcv 0 1 2 7 false 0 (some d), k₂)] :=
    ⟨(by decide : (7 : ℤ) < 2 ^ 31), trivial, trivial⟩
  exact ⟨k₀, _, d, hempty, hrun, rfl, hint, (msgs_refine_fifo hempty hrun hint).1⟩

end LearnOS.Ipc
