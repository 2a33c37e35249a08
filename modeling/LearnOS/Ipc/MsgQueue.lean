import LearnOS.Ipc.MsgFifo
import LearnOS.Ipc.MsgSections

/-!
# A message queue in steps

What the critical sections do with one queue, said without pointers and blocks: a
list of messages, the calls that are under way, the state of the slot and its
references. `MsgRunStep.simulated` shows that the sections follow this model.
-/

namespace LearnOS.Ipc

open LearnOS Transition LinkedList Function Kres

variable {L : Layout} {k k' : Kernel} {id : ℕ} {chains : ℕ → List ℕ} {s s' : MsgState}
  {p : Fin NPROC} {e : MsgEvent} {msgsz msgtype seen : ℕ} {key maxlen flag : ℕ} {as : List ℕ}
  {nowait : Bool} {c : MsgCall} {v : QueueView} {a : ℕ} {r : ℤ}

/-! ## The model -/

structure QueueView where
  state : IpcState
  refs : ℤ
  nodes : Fin NPROC → ℕ
  queue : List ℕ
  content : ℕ → MsgBuf
  call : Fin NPROC → MsgCall
  born : ℕ
  stamp : ℕ → ℕ

namespace QueueView

def setCall (v : QueueView) (p : Fin NPROC) (c : MsgCall) : QueueView :=
  { v with call := update v.call p c }

/-- A reference of the process is new. -/
def addRef (v : QueueView) (p : Fin NPROC) : QueueView :=
  { v with refs := v.refs + 1, nodes := update v.nodes p (v.nodes p + 1) }

/-- A reference of the process goes, and a zombie without references is destroyed
with its messages. -/
def dropRef (v : QueueView) (p : Fin NPROC) : QueueView :=
  let v' := { v with refs := v.refs - 1, nodes := update v.nodes p (v.nodes p - 1) }
  if v.state = .ZOMBIE ∧ v.refs - 1 = 0 then { v' with state := .UNUSED, queue := [] } else v'

/-- The event takes the last reference from a queue that is marked for removal. -/
def Destroys (v : QueueView) : MsgEvent → Prop
  | .rmid p => v.state ≠ .UNUSED ∧ 0 < v.nodes p ∧ v.refs - 1 = 0
  | .drop p => v.state = .ZOMBIE ∧ 0 < v.nodes p ∧ v.refs - 1 = 0
  | _ => False

instance (v : QueueView) : (e : MsgEvent) → Decidable (v.Destroys e)
  | .rmid _ | .drop _ => inferInstanceAs (Decidable (_ ∧ _))
  | .send .. | .store _ | .enter _ | .receive .. | .resume _ | .deliver _ | .wakeup _ | .kill _
  | .get .. => .isFalse fun h => h

/-- A sender under the lock with its message. -/
def Sends (v : QueueView) (e : MsgEvent) (p : Fin NPROC) (a seen : ℕ) : Prop :=
  (∃ nowait, e = .enter p ∧ v.call p = .stored a nowait seen) ∨
    e = .resume p ∧ v.call p = .full a false seen

/-- A receiver under the lock that has not looked at the queue, or has just slept in
front of an empty one. -/
def Arrives (v : QueueView) (e : MsgEvent) (p : Fin NPROC) (msgsz msgtype seen : ℕ) : Prop :=
  (∃ nowait, e = .receive p msgsz msgtype nowait ∧ v.call p = .idle ∧ v.state ≠ .UNUSED ∧
    seen = v.born) ∨ e = .resume p ∧ v.call p = .empty msgsz msgtype false seen

/-- A receiver at the start of a round of its search loop. -/
def Searches (v : QueueView) (e : MsgEvent) (p : Fin NPROC) (msgsz msgtype seen : ℕ) : Prop :=
  v.Arrives e p msgsz msgtype seen ∨ e = .resume p ∧ v.call p = .search msgsz msgtype false seen

end QueueView

open QueueView

/-- The steps of a queue with a bound for its length. -/
inductive QueueStep (bound : ℕ) (v : QueueView) : MsgEvent → QueueView → Prop
  | sendRefused {p : Fin NPROC} {content : MsgBuf} {nowait : Bool} :
      QueueStep bound v (.send p content nowait) v
  | sendChecked {p : Fin NPROC} {content : MsgBuf} {nowait : Bool} (hidle : v.call p = .idle)
      (huse : v.state ≠ .UNUSED) :
      QueueStep bound v (.send p content nowait) (v.setCall p (.checked content nowait v.born))
  | store {p : Fin NPROC} {content : MsgBuf} {nowait : Bool} {seen a : ℕ}
      (hcall : v.call p = .checked content nowait seen) (hqueue : a ∉ v.queue)
      (hcalls : ∀ q, a ∉ (v.call q).message) :
      QueueStep bound v (.store p) (QueueView.setCall { v with
          content := update v.content a content
          stamp := update v.stamp a seen } p
        (if content.mtype ≤ 0 then .idle else .stored a nowait seen))
  | giveUp {p : Fin NPROC} {a seen : ℕ} (hcall : v.call p = .stored a true seen) :
      QueueStep bound v (.enter p) (v.setCall p .idle)
  | sleepFull {e : MsgEvent} {p : Fin NPROC} {a seen : ℕ} (hsend : v.Sends e p a seen)
      (hfull : bound ≤ v.queue.length) :
      QueueStep bound v e (v.setCall p (.full a true seen))
  | link {e : MsgEvent} {p : Fin NPROC} {a seen : ℕ} (hsend : v.Sends e p a seen) :
      QueueStep bound v e ({ v with queue := v.queue ++ [a] }.setCall p (.notify .rcv))
  | receiveRefused {p : Fin NPROC} {msgsz msgtype : ℕ} {nowait : Bool} :
      QueueStep bound v (.receive p msgsz msgtype nowait) v
  | sleepEmpty {e : MsgEvent} {p : Fin NPROC} {msgsz msgtype seen : ℕ}
      (harrive : v.Arrives e p msgsz msgtype seen) (hempty : v.queue = []) :
      QueueStep bound v e (v.setCall p (.empty msgsz msgtype true seen))
  | sleepSearch {e : MsgEvent} {p : Fin NPROC} {msgsz msgtype seen : ℕ}
      (hsearch : v.Searches e p msgsz msgtype seen) (hne : v.queue ≠ [])
      (hnone : ∀ a ∈ v.queue, wanted msgtype (v.content a) = false) :
      QueueStep bound v e (v.setCall p (.search msgsz msgtype true seen))
  | take {e : MsgEvent} {p : Fin NPROC} {msgsz msgtype seen x : ℕ} {l₁ l₂ : List ℕ}
      (hsearch : v.Searches e p msgsz msgtype seen) (hqueue : v.queue = l₁ ++ x :: l₂)
      (hbefore : ∀ a ∈ l₁, wanted msgtype (v.content a) = false)
      (hx : wanted msgtype (v.content x) = true) :
      QueueStep bound v e ({ v with queue := l₁ ++ l₂ }.setCall p (.taken x msgsz seen))
  | deliver {p : Fin NPROC} {node msgsz seen : ℕ} (hcall : v.call p = .taken node msgsz seen) :
      QueueStep bound v (.deliver p) (QueueView.setCall { v with
          content := update v.content node ((v.content node).cut msgsz) } p (.notify .snd))
  | wakeup {p : Fin NPROC} {chan : MsgChan} (hcall : v.call p = .notify chan) :
      QueueStep bound v (.wakeup p) ({ v with call := wakeAll chan v.call }.setCall p .idle)
  | kill {q : Fin NPROC} : QueueStep bound v (.kill q) (v.setCall q (v.call q).wake)
  | getRefused {p : Fin NPROC} {key maxlen flag : ℕ} : QueueStep bound v (.get p key maxlen flag) v
  | getShared {p : Fin NPROC} {key maxlen flag : ℕ} (huse : v.state ≠ .UNUSED) :
      QueueStep bound v (.get p key maxlen flag) (v.addRef p)
  | getCreated {p : Fin NPROC} {key maxlen flag : ℕ} (hfree : v.state = .UNUSED) :
      QueueStep bound v (.get p key maxlen flag)
        ({ v with state := .USED, born := v.born + 1 }.addRef p)
  | rmidRefused {p : Fin NPROC} (hfree : v.state = .UNUSED) : QueueStep bound v (.rmid p) v
  | rmidMarked {p : Fin NPROC} (huse : v.state ≠ .UNUSED) (hnone : v.nodes p = 0) :
      QueueStep bound v (.rmid p) { v with state := .ZOMBIE }
  | rmid {p : Fin NPROC} (hidle : v.call p = .idle) (huse : v.state ≠ .UNUSED)
      (hnode : 0 < v.nodes p) :
      QueueStep bound v (.rmid p) ({ v with state := .ZOMBIE }.dropRef p)
  | dropNone {p : Fin NPROC} (hnone : v.nodes p = 0) : QueueStep bound v (.drop p) v
  | drop {p : Fin NPROC} (hidle : v.call p = .idle) (hnode : 0 < v.nodes p) :
      QueueStep bound v (.drop p) (v.dropRef p)

/-! ## What the queue and the calls own -/

def nodeBlocks (l : List IpcNode) : Multiset (ℕ × ℕ) := ↑(l.map fun n => (n.addr, 24))

/-- The messages in the queues and in the hands of calls, and the nodes of all
processes. -/
def owned (k : Kernel) (call : Fin NPROC → MsgCall) (chains : ℕ → List ℕ) : Multiset (ℕ × ℕ) :=
  msgBlocks (∑ i ∈ Finset.range MSGMAX, (chains i : Multiset ℕ)) +
    msgBlocks (∑ q, (call q).message) + ∑ q, nodeBlocks (k.nodes (q, .msq))

/-- A step of the process `p` on the queue `id` moves messages between the two. -/
theorem owned_update (chains : ℕ → List ℕ) (hid : id < MSGMAX) (call : Fin NPROC → MsgCall)
    (p : Fin NPROC) (c : MsgCall) (as : List ℕ) :
    owned k (update call p c) (update chains id as) +
        msgBlocks (chains id + (call p).message) =
      owned k call chains + msgBlocks (as + c.message) := by
  have hchains := sum_update_add (Finset.mem_range.mpr hid) chains (fun l => (l : Multiset ℕ)) as
  have hcalls := sum_update_add (Finset.mem_univ p) call MsgCall.message c
  have hsplit : ∀ A B C X Y : Multiset (ℕ × ℕ), A + B + C + (X + Y) = (A + X) + (B + Y) + C := by
    intro A B C X Y
    abel
  rw [owned, owned, msgBlocks_add, msgBlocks_add, hsplit, hsplit, ← msgBlocks_add, ← msgBlocks_add,
    hchains, hcalls, msgBlocks_add, msgBlocks_add]

/-! ## The refinement -/

def MsgState.view (s : MsgState) (id : ℕ) (as : List ℕ) : QueueView where
  state := (s.k.slot (.msq, id)).state
  refs := (s.k.slot (.msq, id)).refCount
  nodes := fun p => (s.k.nodes (p, .msq)).countP fun n => n.slot = id
  queue := as
  content := fun a => (s.k.msg a).content
  call := s.call
  born := s.born
  stamp := s.stamp

/-- The chains of all queues, and the blocks that they, the calls and the processes
own. -/
structure Linked (L : Layout) (id : ℕ) (s : MsgState) (chains : ℕ → List ℕ) : Prop where
  linked : Chains s.k chains
  outside : ∀ i, MSGMAX ≤ i → chains i = []
  bound : (s.k.msqid id).maxlen < 2 ^ 32
  owns : Owns L s.k (owned s.k s.call chains)

/-- The bound changes only with the life of the queue. -/
def BoundKept (id : ℕ) (s : MsgState) (e : MsgEvent) (s' : MsgState) : Prop :=
  (s'.k.msqid id).maxlen = (s.k.msqid id).maxlen ∨
    s'.call = s.call ∧ ((s.view id []).Destroys e ∨ (s.k.slot (.msq, id)).state = .UNUSED)

/-- The step in the model. -/
def MsgState.Steps (id : ℕ) (s : MsgState) (as : List ℕ) (e : MsgEvent) (v : QueueView) : Prop :=
  QueueStep (s.k.msqid id).maxlen (s.view id as) e v

/-- The state afterwards is linked again, and the step is one of the model. -/
def Simulated (L : Layout) (id : ℕ) (s : MsgState) (chains : ℕ → List ℕ) (e : MsgEvent)
    (s' : MsgState) : Prop :=
  ∃ as, Linked L id s' (update chains id as) ∧ s.Steps id (chains id) e (s'.view id as) ∧
    BoundKept id s e s'

theorem Chains.congr {k' : Kernel} (h : Chains k chains) (hmsq : k'.msqid = k.msqid)
    (hmsg : k'.msg = k.msg) : Chains k' chains := by
  refine ⟨fun i => (h.chain i).congr (congrFun hmsq i) fun a _ => ?_, fun hnil => ?_, h.nodup,
    h.apart⟩
  · exact congrArg MsgMsg.next (congrFun hmsg a)
  · rw [hmsq]
    exact h.zero hnil

theorem view_call (as' : List ℕ) {k' : Kernel} (hslot : k'.slot (.msq, id) = s.k.slot (.msq, id))
    (hnodes : ∀ q, k'.nodes (q, .msq) = s.k.nodes (q, .msq)) (hcontent : k'.content = s.k.content) :
    ((s.setKernel k').setCall p c).view id as =
      { s.view id as' with queue := as }.setCall p c := by
  have hmsg : (fun a => (k'.msg a).content) = fun a => (s.k.msg a).content := hcontent
  simp only [MsgState.view, MsgState.setKernel, MsgState.setCall, QueueView.setCall, hslot, hnodes,
    hmsg]

theorem content_setMsg (a : ℕ) (m : MsgMsg) :
    (fun b => ((k.setMsg a m).msg b).content) =
      update (fun b => (k.msg b).content) a m.content := by
  funext b
  exact apply_update (fun _ => MsgMsg.content) k.msg a m b

/-- The process `p` has made a step on the queue. The blocks `B` that are owned then
differ from those before by the messages that came and went. -/
theorem Linked.move {k' : Kernel} {stamp : ℕ → ℕ} {B : Multiset (ℕ × ℕ)} (h : Linked L id s chains)
    (hid : id < MSGMAX) (hlink : Chains k' (update chains id as))
    (hmax : (k'.msqid id).maxlen = (s.k.msqid id).maxlen)
    (hnodes : ∀ q, k'.nodes (q, .msq) = s.k.nodes (q, .msq)) (hown : Owns L k' B)
    (hB : B + msgBlocks (chains id + (s.call p).message) =
      owned s.k s.call chains + msgBlocks (as + c.message)) :
    Linked L id ⟨k', update s.call p c, s.born, stamp⟩ (update chains id as) where
  linked := hlink
  outside i hi := by
    rw [update_of_ne (by omega)]
    exact h.outside i hi
  bound := by
    rw [hmax]
    exact h.bound
  owns := by
    have howned : owned k' (update s.call p c) (update chains id as) = B := by
      have hbalance := owned_update (k := s.k) chains hid s.call p c as
      rw [← hB] at hbalance
      have hsame : owned k' (update s.call p c) (update chains id as) =
          owned s.k (update s.call p c) (update chains id as) := by
        simp only [owned, hnodes]
      rw [hsame]
      exact add_right_cancel hbalance
    rwa [howned]

/-- The process `p` has made a step that moves no message. -/
theorem Linked.setCall (h : Linked L id s chains) (hmsg : c.message = (s.call p).message) :
    Linked L id (s.setCall p c) chains := by
  refine ⟨h.linked, h.outside, h.bound, ?_⟩
  have hcalls : ∀ q, ((s.setCall p c).call q).message = (s.call q).message := by
    intro q
    by_cases hq : q = p
    · subst hq
      simpa [MsgState.setCall] using hmsg
    · simp [MsgState.setCall, hq]
  have howned : owned (s.setCall p c).k (s.setCall p c).call chains = owned s.k s.call chains := by
    simp only [owned, hcalls]
    rfl
  rw [howned]
  exact h.owns

/-- A step that only changes where the process stands. -/
theorem Linked.simulated_call (h : Linked L id s chains) (hmsg : c.message = (s.call p).message)
    (hstep : s.Steps id (chains id) e ((s.view id (chains id)).setCall p c)) :
    Simulated L id s chains e (s.setCall p c) := by
  refine ⟨chains id, ?_, hstep, Or.inl rfl⟩
  rw [update_eq_self]
  exact h.setCall hmsg

theorem Linked.simulated_same (h : Linked L id s chains)
    (hstep : s.Steps id (chains id) e (s.view id (chains id))) :
    Simulated L id s chains e s := by
  refine ⟨chains id, ?_, hstep, Or.inl rfl⟩
  rw [update_eq_self]
  exact h

/-- What a new block is not. -/
theorem not_mem_owned (h : (a, 512) ∉ owned k s.call chains)
    (hout : ∀ i, MSGMAX ≤ i → chains i = []) :
    (∀ i, a ∉ chains i) ∧ ∀ q, a ∉ (s.call q).message := by
  refine ⟨fun i hi => h ?_, fun q hq => h ?_⟩
  · have hlt : i < MSGMAX := by
      by_contra hge
      rw [hout i (by omega)] at hi
      cases hi
    refine Multiset.mem_add.mpr (Or.inl (Multiset.mem_add.mpr (Or.inl ?_)))
    refine Multiset.mem_map.mpr ⟨a, ?_, rfl⟩
    exact Multiset.mem_sum.mpr ⟨i, Finset.mem_range.mpr hlt, hi⟩
  · refine Multiset.mem_add.mpr (Or.inl (Multiset.mem_add.mpr (Or.inr ?_)))
    refine Multiset.mem_map.mpr ⟨a, ?_, rfl⟩
    exact Multiset.mem_sum.mpr ⟨q, Finset.mem_univ q, hq⟩

/-! ### Sending -/

theorem sendCheck_simulated {content : MsgBuf} (h : Linked L id s chains) (hidle : s.call p = .idle)
    (hcall : sendCheck id p content nowait s = .ok s') :
    Simulated L id s chains (.send p content nowait) s' := by
  simp only [sendCheck, bind_eq_ok] at hcall
  obtain ⟨u, -, hcall⟩ := hcall
  split at hcall
  · cases hcall
    exact h.simulated_same .sendRefused
  · rename_i huse
    cases hcall
    exact h.simulated_call (by rw [hidle]; rfl) (.sendChecked hidle huse)

theorem msgBlocks_singleton (a : ℕ) : msgBlocks {a} = {(a, 512)} := Multiset.map_singleton _ _

theorem msgBlocks_zero : msgBlocks 0 = 0 := Multiset.map_zero _

theorem sendStore_simulated {content : MsgBuf} {seen : ℕ} (hid : id < MSGMAX)
    (h : Linked L id s chains) (hcalled : s.call p = .checked content nowait seen)
    (hcall : sendStore L p content nowait seen s = .ok s') :
    Simulated L id s chains (.store p) s' := by
  simp only [sendStore, bind_eq_ok, pure_eq_ok] at hcall
  obtain ⟨⟨a, k₁⟩, hk₁, rfl⟩ := hcall
  have hown := h.owns.kmallocNode hk₁
  obtain ⟨hqueue, hcalls⟩ := not_mem_owned (Multiset.nodup_cons.mp hown.nodup).1 h.outside
  obtain ⟨heap, -, rfl, -⟩ := Kernel.kmallocNode_ok hk₁
  have hlink := (h.linked.setMsg (m := { s.k.msg a with content := content }) hqueue).1
  have hstep : s.Steps id (chains id) (.store p) _ := .store hcalled (hqueue id) hcalls
  refine ⟨chains id, ?_, Eq.subst (congrArg (fun c => QueueView.setCall { s.view id (chains id) with
    content := c, stamp := update s.stamp a seen } p _)
      (content_setMsg a { s.k.msg a with content := content }).symm) hstep, Or.inl rfl⟩
  have hlink' : Chains ((s.k.setHeap heap).setMsg a { s.k.msg a with content := content })
      (update chains id (chains id)) := by
    rw [update_eq_self]
    exact hlink.congr rfl rfl
  have hnone : (s.call p).message = 0 := by rw [hcalled]; rfl
  by_cases htype : content.mtype ≤ 0
  · rw [if_pos htype]
    refine h.move hid hlink' rfl (fun _ => rfl) (hown.mono (Multiset.le_cons_self _ _)) ?_
    rw [hnone]
    rfl
  · rw [if_neg htype]
    refine h.move hid hlink' rfl (fun _ => rfl) hown ?_
    rw [hnone, add_zero, msgBlocks_add, show MsgCall.message (.stored a nowait seen) = {a} from rfl,
      msgBlocks_singleton, ← Multiset.singleton_add]
    abel

theorem linkMsg_slot (a : ℕ) : (linkMsg id a k).slot = k.slot := by
  simp only [linkMsg]
  split <;> rfl

theorem linkMsg_nodes (a : ℕ) : (linkMsg id a k).nodes = k.nodes := by
  simp only [linkMsg]
  split <;> rfl

theorem Linked.room (h : Linked L id s chains) (hfull : msqFull (s.k.msqid id) = false) :
    (chains id).length < (s.k.msqid id).maxlen := by
  rw [← not_le, ← (h.linked.chain id).full_iff, hfull]
  exact Bool.false_ne_true

/-- A message in the hands of a call is in no queue. -/
theorem Linked.not_mem_chain (h : Linked L id s chains) (ha : a ∈ (s.call p).message) (i : ℕ) :
    a ∉ chains i := by
  intro hi
  have hlt : i < MSGMAX := by
    by_contra hge
    rw [h.outside i (by omega)] at hi
    cases hi
  have hnodup : (msgBlocks (∑ i ∈ Finset.range MSGMAX, (chains i : Multiset ℕ)) +
      msgBlocks (∑ q, (s.call q).message)).Nodup :=
    Multiset.nodup_of_le (Multiset.le_add_right _ _) h.owns.nodup
  have hdisj := (Multiset.nodup_add.mp hnodup).2.2
  refine Multiset.disjoint_left.mp hdisj (?_ : (a, 512) ∈ _) ?_
  · exact Multiset.mem_map.mpr ⟨a, Multiset.mem_sum.mpr ⟨i, Finset.mem_range.mpr hlt, hi⟩, rfl⟩
  · exact Multiset.mem_map.mpr ⟨a, Multiset.mem_sum.mpr ⟨p, Finset.mem_univ p, ha⟩, rfl⟩

theorem Linked.ne_null (h : Linked L id s chains) (ha : a ∈ (s.call p).message) : a ≠ NULL := by
  refine h.owns.ne_null (Multiset.mem_add.mpr (Or.inl (Multiset.mem_add.mpr (Or.inr ?_))))
  exact Multiset.mem_map.mpr ⟨a, Multiset.mem_sum.mpr ⟨p, Finset.mem_univ p, ha⟩, rfl⟩

theorem enqueue_simulated {a seen : ℕ} (hid : id < MSGMAX) (h : Linked L id s chains)
    (hsend : (s.view id (chains id)).Sends e p a seen)
    (hfull : msqFull (s.k.msqid id) = false) : Simulated L id s chains e (enqueue id p a s) := by
  have hmsg : (s.call p).message = {a} := by
    rcases hsend with ⟨nowait, -, hcall⟩ | ⟨-, hcall⟩ <;> exact congrArg MsgCall.message hcall
  have ha : a ∈ (s.call p).message := by
    rw [hmsg]
    exact Multiset.mem_singleton_self a
  have hnull : a ≠ NULL := h.ne_null ha
  have hfresh : ∀ i, a ∉ chains i := h.not_mem_chain ha
  refine ⟨chains id ++ [a], ?_, ?_, Or.inl (linkMsg_maxlen a id)⟩
  · change Linked L id ⟨linkMsg id a s.k, update s.call p (.notify .rcv), s.born, s.stamp⟩ _
    have hroom : (chains id).length + 1 < 2 ^ 32 :=
      (Nat.succ_le_of_lt (h.room hfull)).trans_lt h.bound
    refine h.move (B := owned s.k s.call chains) hid
      (linkMsg_chains h.linked hnull hfresh hroom) (linkMsg_maxlen a id)
      (fun q => by rw [linkMsg_nodes]) (h.owns.congr (linkMsg_heap a)) ?_
    rw [hmsg, ← Multiset.coe_add, Multiset.coe_singleton,
      show MsgCall.message (.notify .rcv) = 0 from rfl, add_zero]
  · rw [enqueue, view_call (chains id) (by rw [linkMsg_slot]) (fun q => by rw [linkMsg_nodes])
      (linkMsg_content a)]
    exact .link hsend

/-- The message of a call is freed. -/
theorem Linked.owns_rest (h : Linked L id s chains) (hid : id < MSGMAX)
    (hmsg : (s.call p).message = {a}) (hnone : c.message = 0) :
    Owns L s.k ((a, 512) ::ₘ owned s.k (update s.call p c) chains) := by
  have hbalance := owned_update (k := s.k) chains hid s.call p c (chains id)
  rw [update_eq_self, hmsg, hnone, add_zero, msgBlocks_add, msgBlocks_singleton,
    add_comm (msgBlocks _), ← add_assoc] at hbalance
  have heq := add_right_cancel hbalance
  rw [← Multiset.singleton_add, add_comm, heq]
  exact h.owns

theorem sendEnter_simulated {a seen : ℕ} (hid : id < MSGMAX) (h : Linked L id s chains)
    (hcalled : s.call p = .stored a nowait seen)
    (hcall : sendEnter L id p a nowait seen s = .ok s') :
    Simulated L id s chains (.enter p) s' := by
  have hmsg : (s.call p).message = {a} := congrArg MsgCall.message hcalled
  simp only [sendEnter, bind_eq_ok] at hcall
  obtain ⟨u, -, hcall⟩ := hcall
  split at hcall
  · rename_i hfull
    cases nowait with
    | true =>
      simp only [if_true, bind_eq_ok, pure_eq_ok] at hcall
      obtain ⟨k₁, hk₁, rfl⟩ := hcall
      have hown := (h.owns_rest (c := .idle) hid hmsg rfl).kmfree
        (Or.inl (by decide) : MatchedSize 512) hk₁
      obtain ⟨heap, -, rfl⟩ := Kernel.kmfree_ok hk₁
      refine ⟨chains id, ?_, .giveUp hcalled, Or.inl rfl⟩
      rw [update_eq_self]
      exact ⟨h.linked.congr rfl rfl, h.outside, h.bound, hown⟩
    | false =>
      cases hcall
      exact h.simulated_call (by rw [hmsg]; rfl) (.sleepFull (Or.inl ⟨false, rfl, hcalled⟩)
        ((h.linked.chain id).full_iff.mp hfull))
  · rename_i hfull
    cases hcall
    exact enqueue_simulated hid h (Or.inl ⟨nowait, rfl, hcalled⟩) (Bool.eq_false_iff.mpr hfull)

/-! ### Receiving -/

theorem unlinkMsg_slot (prev : Option ℕ) : (unlinkMsg id prev k).2.slot = k.slot := by
  cases prev with
  | none =>
    simp only [unlinkMsg]
    split <;> rfl
  | some prev => rfl

theorem unlinkMsg_nodes (prev : Option ℕ) : (unlinkMsg id prev k).2.nodes = k.nodes := by
  cases prev with
  | none =>
    simp only [unlinkMsg]
    split <;> rfl
  | some prev => rfl

theorem QueueView.Arrives.message (h : v.Arrives e p msgsz msgtype seen) :
    (v.call p).message = 0 := by
  rcases h with ⟨nowait, -, hcall, -⟩ | ⟨-, hcall⟩ <;> exact congrArg MsgCall.message hcall

theorem QueueView.Searches.message (h : v.Searches e p msgsz msgtype seen) :
    (v.call p).message = 0 := by
  rcases h with h | ⟨-, hcall⟩
  · exact h.message
  · exact congrArg MsgCall.message hcall

/-- A call without `IPC_NOWAIT`, or the first section of the call. -/
def MayReturn (s : MsgState) (e : MsgEvent) (p : Fin NPROC) (nowait : Bool) : Prop :=
  nowait = true → s.call p = .idle ∧ ∃ msgsz msgtype, e = .receive p msgsz msgtype nowait

theorem setCall_idle (hidle : s.call p = .idle) : s.setCall p .idle = s := by
  rw [MsgState.setCall, ← hidle, update_eq_self]

theorem searchRound_simulated (hid : id < MSGMAX) (h : Linked L id s chains)
    (hsearch : (s.view id (chains id)).Searches e p msgsz msgtype seen)
    (hmay : MayReturn s e p nowait)
    (hcall : searchRound id p msgsz msgtype nowait seen s = .ok s') :
    Simulated L id s chains e s' := by
  have hmsg : (s.call p).message = 0 := hsearch.message
  have hchain := h.linked.chain id
  simp only [searchRound] at hcall
  split at hcall
  · cases hcall
  rename_i hfirst
  have hne : chains id ≠ [] := fun hnil => hfirst (hchain.first_eq_null_iff.mpr hnil)
  obtain ⟨found, hfound, hcases⟩ := findWanted_spec msgtype hchain hne
  rw [hfound, ok_bind] at hcall
  rcases hcases with ⟨rfl, hnone⟩ | ⟨l₁, x, l₂, hsplit, hbefore, hwanted, rfl⟩
  · cases nowait with
    | true =>
      obtain ⟨hidle, sz, ty, rfl⟩ := hmay rfl
      simp only [if_true, pure_eq_ok] at hcall
      rw [← hcall, setCall_idle hidle]
      exact h.simulated_same .receiveRefused
    | false =>
      cases hcall
      exact h.simulated_call (by rw [hmsg]; rfl) (.sleepSearch hsearch hne hnone)
  · simp only [pure_eq_ok] at hcall
    obtain ⟨hx, hlink⟩ := unlinkMsg_spec h.linked hsplit
    subst hcall
    refine ⟨l₁ ++ l₂, ?_, ?_, Or.inl (unlinkMsg_maxlen _ id)⟩
    · change Linked L id ⟨(unlinkMsg id l₁.getLast? s.k).2, update s.call p
        (.taken (unlinkMsg id l₁.getLast? s.k).1 msgsz seen), s.born, s.stamp⟩ _
      refine h.move (B := owned s.k s.call chains) hid hlink (unlinkMsg_maxlen _ id)
        (fun q => by rw [unlinkMsg_nodes]) (h.owns.congr (unlinkMsg_heap _)) ?_
      rw [hmsg, hx, hsplit, show MsgCall.message (.taken x msgsz seen) = {x} from rfl, add_zero]
      congr 2
      rw [← Multiset.coe_add, ← Multiset.coe_add, ← Multiset.cons_coe, ← Multiset.singleton_add]
      abel
    · rw [view_call (chains id) (by rw [unlinkMsg_slot]) (fun q => by rw [unlinkMsg_nodes])
        (unlinkMsg_content id _), hx]
      exact .take hsearch hsplit hbefore hwanted

theorem receiveCheck_simulated {msgsz msgtype : ℕ} (hid : id < MSGMAX) (h : Linked L id s chains)
    (hidle : s.call p = .idle) (hcall : receiveCheck id p msgsz msgtype nowait s = .ok s') :
    Simulated L id s chains (.receive p msgsz msgtype nowait) s' := by
  simp only [receiveCheck, bind_eq_ok] at hcall
  obtain ⟨u, -, hcall⟩ := hcall
  split at hcall
  · cases hcall
    exact h.simulated_same .receiveRefused
  rename_i huse
  have harrive : (s.view id (chains id)).Arrives (.receive p msgsz msgtype nowait) p msgsz msgtype
      s.born := Or.inl ⟨nowait, rfl, hidle, huse, rfl⟩
  split at hcall
  · rename_i hfirst
    cases nowait with
    | true =>
      simp only [if_true, pure_eq_ok] at hcall
      rw [← hcall, setCall_idle hidle]
      exact h.simulated_same .receiveRefused
    | false =>
      cases hcall
      exact h.simulated_call (by rw [hidle]; rfl)
        (.sleepEmpty harrive ((h.linked.chain id).first_eq_null_iff.mp hfirst))
  · exact searchRound_simulated hid h (Or.inl harrive) (fun _ => ⟨hidle, msgsz, msgtype, rfl⟩) hcall

theorem resumeCall_simulated (hid : id < MSGMAX) (h : Linked L id s chains)
    (hcall : resumeCall id p s = .ok s') : Simulated L id s chains (.resume p) s' := by
  simp only [resumeCall, bind_eq_ok] at hcall
  obtain ⟨u, -, hcall⟩ := hcall
  split at hcall
  · rename_i a seen hcalled
    have hsend : (s.view id (chains id)).Sends (.resume p) p a seen := Or.inr ⟨rfl, hcalled⟩
    simp only [pure_eq_ok] at hcall
    split at hcall
    · rename_i hfull
      subst hcall
      exact h.simulated_call (by rw [hcalled]; rfl)
        (.sleepFull hsend ((h.linked.chain id).full_iff.mp hfull))
    · rename_i hfull
      subst hcall
      exact enqueue_simulated hid h hsend (Bool.eq_false_iff.mpr hfull)
  · rename_i msgsz msgtype seen hcalled
    have harrive : (s.view id (chains id)).Arrives (.resume p) p msgsz msgtype seen :=
      Or.inr ⟨rfl, hcalled⟩
    split at hcall
    · rename_i hfirst
      cases hcall
      exact h.simulated_call (by rw [hcalled]; rfl)
        (.sleepEmpty harrive ((h.linked.chain id).first_eq_null_iff.mp hfirst))
    · exact searchRound_simulated hid h (Or.inl harrive) (fun hno => by cases hno) hcall
  · rename_i msgsz msgtype seen hcalled
    exact searchRound_simulated hid h (Or.inr ⟨rfl, hcalled⟩) (fun hno => by cases hno) hcall
  · cases hcall

theorem receiveDeliver_simulated {node msgsz seen : ℕ} (hid : id < MSGMAX)
    (h : Linked L id s chains) (hcalled : s.call p = .taken node msgsz seen)
    (hcall : receiveDeliver L p node msgsz s = .ok s') :
    Simulated L id s chains (.deliver p) s' := by
  have hmsg : (s.call p).message = {node} := congrArg MsgCall.message hcalled
  have hnode : node ∈ (s.call p).message := by
    rw [hmsg]
    exact Multiset.mem_singleton_self node
  simp only [receiveDeliver, bind_eq_ok, pure_eq_ok] at hcall
  obtain ⟨k₁, hk₁, rfl⟩ := hcall
  have hrest : Owns L (s.k.setMsg node
      { s.k.msg node with content := (s.k.msg node).content.cut msgsz })
      ((node, 512) ::ₘ owned s.k (update s.call p (.notify .snd)) chains) :=
    (h.owns_rest hid hmsg rfl).congr rfl
  have hown := hrest.kmfree (Or.inl (by decide) : MatchedSize 512) hk₁
  obtain ⟨heap, -, rfl⟩ := Kernel.kmfree_ok hk₁
  have hlink := (h.linked.setMsg
    (m := { s.k.msg node with content := (s.k.msg node).content.cut msgsz })
    (h.not_mem_chain hnode)).1
  have hstep : s.Steps id (chains id) (.deliver p) _ := .deliver hcalled
  refine ⟨chains id, ?_, Eq.subst (congrArg (fun c => QueueView.setCall
    { s.view id (chains id) with content := c } p (.notify .snd))
      (content_setMsg node
        { s.k.msg node with content := (s.k.msg node).content.cut msgsz }).symm) hstep,
    Or.inl rfl⟩
  rw [update_eq_self]
  exact ⟨hlink.congr rfl rfl, h.outside, h.bound, hown⟩

/-! ### Waking -/

theorem MsgCall.wake_message (c : MsgCall) : c.wake.message = c.message := by
  cases c <;> rfl

theorem wakeAll_message (chan : MsgChan) (call : Fin NPROC → MsgCall) (q : Fin NPROC) :
    (wakeAll chan call q).message = (call q).message := by
  simp only [wakeAll]
  split
  · exact (call q).wake_message
  · rfl

theorem wakeup_simulated {chan : MsgChan} (h : Linked L id s chains)
    (hcalled : s.call p = .notify chan) :
    Simulated L id s chains (.wakeup p)
      { s with call := update (wakeAll chan s.call) p .idle } := by
  have hwoken : Linked L id { s with call := wakeAll chan s.call } chains := by
    refine ⟨h.linked, h.outside, h.bound, ?_⟩
    have howned : owned s.k (wakeAll chan s.call) chains = owned s.k s.call chains := by
      simp only [owned, wakeAll_message]
    rw [howned]
    exact h.owns
  refine ⟨chains id, ?_, .wakeup hcalled, Or.inl rfl⟩
  rw [update_eq_self]
  refine hwoken.setCall (c := .idle) ?_
  rw [wakeAll_message, hcalled]
  rfl

/-! ### References -/

/-- The kernel has changed outside the queues and the calls. -/
theorem Linked.setKernel {k' : Kernel} (h : Linked L id s chains) (hmsq : k'.msqid = s.k.msqid)
    (hmsg : k'.msg = s.k.msg) (hown : Owns L k' (owned k' s.call chains)) :
    Linked L id (s.setKernel k') chains := by
  refine ⟨h.linked.congr hmsq hmsg, h.outside, ?_, hown⟩
  rw [show (s.setKernel k').k.msqid = s.k.msqid from hmsq]
  exact h.bound

theorem nodes_setNodes (p q : Fin NPROC) (l : List IpcNode) :
    (k.setNodes p .msq l).nodes (q, .msq) =
      update (fun q => k.nodes (q, .msq)) p l q := by
  by_cases hq : q = p
  · subst hq
    simp [Kernel.setNodes]
  · simp [Kernel.setNodes, hq]

theorem owned_setNodes (chains : ℕ → List ℕ) (call : Fin NPROC → MsgCall) (l : List IpcNode) :
    owned (k.setNodes p .msq l) call chains + nodeBlocks (k.nodes (p, .msq)) =
      owned k call chains + nodeBlocks l := by
  have hsum := sum_update_add (Finset.mem_univ p) (fun q => k.nodes (q, .msq)) nodeBlocks l
  rw [owned, owned, add_assoc, add_assoc (_ + _)]
  simp only [nodes_setNodes]
  rw [hsum]

theorem count_setNodes (id : ℕ) (l : List IpcNode) :
    (fun q => ((k.setNodes p .msq l).nodes (q, .msq)).countP fun n => decide (n.slot = id)) =
      update (fun q => (k.nodes (q, .msq)).countP fun n => decide (n.slot = id)) p
        (l.countP fun n => decide (n.slot = id)) := by
  funext q
  rw [nodes_setNodes]
  exact apply_update (fun _ (l : List IpcNode) => l.countP fun n => decide (n.slot = id))
    (fun q => k.nodes (q, .msq)) p l q

/-- The process gets a node for the queue. -/
theorem addNode_refines {flag : ℕ} (h : Linked L id s chains)
    (hcall : addNode L .msq p id flag s.k = .ok k') :
    Linked L id (s.setKernel k') chains ∧
      (s.setKernel k').view id (chains id) = (s.view id (chains id)).addRef p ∧
      k'.msqid = s.k.msqid := by
  simp only [addNode, bind_eq_ok, pure_eq_ok] at hcall
  obtain ⟨⟨addr, k₁⟩, hk₁, rfl⟩ := hcall
  have hown : Owns L k₁ ((addr, 24) ::ₘ owned s.k s.call chains) := h.owns.kmallocNode hk₁
  obtain ⟨heap, -, rfl, -⟩ := Kernel.kmallocNode_ok hk₁
  refine ⟨?_, ?_, rfl⟩
  · refine h.setKernel rfl rfl ?_
    have hbalance := owned_setNodes (k := s.k) (p := p) chains s.call
      (⟨addr, flag, id, 0⟩ :: s.k.nodes (p, .msq))
    rw [show nodeBlocks (⟨addr, flag, id, 0⟩ :: s.k.nodes (p, .msq)) =
      {(addr, 24)} + nodeBlocks (s.k.nodes (p, .msq)) from rfl, ← add_assoc] at hbalance
    have howned := add_right_cancel hbalance
    rw [add_comm, Multiset.singleton_add] at howned
    refine Owns.congr (k := s.k.setHeap heap) ?_ rfl
    rw [← howned] at hown
    exact hown
  · have hcount := count_setNodes (k := s.k) (p := p) id
      (⟨addr, flag, id, 0⟩ :: s.k.nodes (p, .msq))
    simp only [List.countP_cons, decide_true, if_true] at hcount
    simp only [MsgState.view, MsgState.setKernel, QueueView.addRef, QueueView.mk.injEq, and_true]
    refine ⟨by simp [Ipc.addRef, Kernel.setSlot, Kernel.setNodes, Kernel.setHeap],
      by simp [Ipc.addRef, Kernel.setSlot, Kernel.setNodes, Kernel.setHeap], hcount, trivial, rfl⟩

/-- The messages of one queue apart from the rest. -/
theorem owned_clear (hid : id < MSGMAX) (call : Fin NPROC → MsgCall) (p : Fin NPROC) :
    owned k call chains = msgBlocks (chains id) + owned k call (update chains id []) := by
  have hbalance := owned_update (k := k) chains hid call p (call p) []
  rw [update_eq_self, Multiset.coe_nil, zero_add, msgBlocks_add, ← add_assoc] at hbalance
  rw [add_comm, add_right_cancel hbalance]

/-- A reference goes; the last one of a zombie takes the queue with it. -/
theorem dropRef_msq {B : Multiset (ℕ × ℕ)} (hchain : Chain k id as)
    (hown : Owns L k (msgBlocks as + B)) (hcall : dropRef L .msq id k = .ok k') :
    let b := k.slot (.msq, id)
    (b.state = .ZOMBIE ∧ b.refCount - 1 = 0 ∧ Owns L k' B ∧
      k'.msqid = update k.msqid id ⟨NULL, NULL, 0, MSQLEN_MAX⟩ ∧ k'.msg = k.msg ∧
      k'.nodes = k.nodes ∧
      k'.slot (.msq, id) = ⟨b.locked, b.refCount - 1, 0, 0, .UNUSED⟩) ∨
    ¬ (b.state = .ZOMBIE ∧ b.refCount - 1 = 0) ∧
      k' = k.setSlot .msq id { b with refCount := b.refCount - 1 } := by
  intro b
  simp only [dropRef] at hcall
  split at hcall
  · rename_i hlast
    have hown' : Owns L (k.setSlot .msq id { b with refCount := b.refCount - 1 })
        (msgBlocks as + B) := hown.congr rfl
    have hseg : Seg NULL (k.setSlot .msq id { b with refCount := b.refCount - 1 }).next
        (k.msqid id).first as NULL := hchain.seg
    refine Or.inl ⟨hlast.1, hlast.2, msqReinit_owns hseg hown' hcall, ?_⟩
    simp only [reinit, msqReinit] at hcall
    split at hcall
    · cases hcall
    · simp only [bind_eq_ok, pure_eq_ok] at hcall
      obtain ⟨k₁, hk₁, rfl⟩ := hcall
      obtain ⟨heap, rfl⟩ := destructLoop_frame hk₁
      refine ⟨rfl, rfl, rfl, ?_⟩
      simp [Kernel.setSlot, Kernel.setMsq, Kernel.setHeap, b]
  · rename_i hlast
    cases hcall
    exact Or.inr ⟨hlast, rfl⟩

/-- The chains without the messages of the queue. -/
theorem Chains.clear {k' : Kernel} (h : Chains k chains)
    (hmsq : k'.msqid = Function.update k.msqid id ⟨NULL, NULL, 0, MSQLEN_MAX⟩)
    (hmsg : k'.msg = k.msg) : Chains k' (Function.update chains id []) := by
  have hslot : k'.msqid id = ⟨NULL, NULL, 0, MSQLEN_MAX⟩ := by rw [hmsq, update_self]
  refine h.update (fun i hi => by rw [hmsq, update_of_ne hi]) (fun i _ a _ => ?_)
    ⟨?_, by simp, ?_, by simp⟩ ?_ List.nodup_nil (by simp)
  · change (k'.msg a).next = (k.msg a).next
    rw [hmsg]
  · rw [hslot]
    rfl
  · rw [hslot]
    rfl
  · rintro rfl -
    rw [hslot]

/-- The state without the messages of the queue. -/
theorem Linked.clear (hid : id < MSGMAX) (h : Linked L id s chains)
    (hmsq : k'.msqid = Function.update s.k.msqid id ⟨NULL, NULL, 0, MSQLEN_MAX⟩)
    (hmsg : k'.msg = s.k.msg)
    (hown : Owns L k' (owned k' s.call (Function.update chains id []))) :
    Linked L id (s.setKernel k') (Function.update chains id []) := by
  refine ⟨h.linked.clear hmsq hmsg, fun i hi => ?_, ?_, hown⟩
  · rw [update_of_ne (by omega)]
    exact h.outside i hi
  · change (k'.msqid id).maxlen < 2 ^ 32
    rw [hmsq, update_self]
    decide

section Unlink

variable {n : IpcNode} {l₁ l₂ : List IpcNode} (hsplit : k.nodes (p, .msq) = l₁ ++ n :: l₂)

include hsplit

/-- The blocks apart from that of a node which is unlinked. -/
theorem owned_unlink (chains : ℕ → List ℕ) (call : Fin NPROC → MsgCall) :
    owned k call chains =
      (n.addr, 24) ::ₘ owned (k.setNodes p .msq (l₁ ++ l₂)) call chains := by
  have hbalance := owned_setNodes (k := k) (p := p) chains call (l₁ ++ l₂)
  have hblocks : nodeBlocks (k.nodes (p, .msq)) = {(n.addr, 24)} + nodeBlocks (l₁ ++ l₂) := by
    simp only [nodeBlocks, hsplit, List.map_append, List.map_cons, ← Multiset.coe_add,
      ← Multiset.cons_coe, ← Multiset.singleton_add]
    abel
  rw [hblocks, ← add_assoc] at hbalance
  rw [← add_right_cancel hbalance, add_comm, Multiset.singleton_add]

theorem count_unlink (hslot : n.slot = id) :
    (k.nodes (p, .msq)).countP (fun n => decide (n.slot = id)) =
      (l₁ ++ l₂).countP (fun n => decide (n.slot = id)) + 1 := by
  simp only [hsplit, List.countP_append, List.countP_cons, hslot, decide_true, if_true]
  omega

end Unlink

theorem procRem_refines (hid : id < MSGMAX) (h : Linked L id s chains)
    (hcall : procRem L .msq p id s.k = .ok (r, k')) :
    ((s.view id (chains id)).nodes p = 0 ∧ k' = s.k) ∨
    0 < (s.view id (chains id)).nodes p ∧ ∃ as,
      Linked L id (s.setKernel k') (update chains id as) ∧
        (s.setKernel k').view id as = (s.view id (chains id)).dropRef p ∧
        (k'.msqid = s.k.msqid ∨ (s.k.slot (.msq, id)).state = .ZOMBIE ∧
          (s.k.slot (.msq, id)).refCount - 1 = 0) := by
  simp only [procRem] at hcall
  split at hcall
  · rename_i hnone
    cases hcall
    refine Or.inl ⟨List.countP_eq_zero.mpr fun n hn => ?_, rfl⟩
    exact List.find?_eq_none.mp hnone n hn
  · rename_i n hfind
    have hslot : n.slot = id := by simpa using List.find?_some hfind
    obtain ⟨l₁, l₂, hsplit, herase⟩ := find?_eraseP hfind
    rw [herase] at hcall
    simp only [bind_eq_ok, pure_eq_ok, Prod.mk.injEq] at hcall
    obtain ⟨k₁, hk₁, k₂, hk₂, -, rfl⟩ := hcall
    have hcount : (s.view id (chains id)).nodes p = _ := count_unlink hsplit hslot
    refine Or.inr ⟨by omega, ?_⟩
    have hcounts := count_setNodes (k := s.k) (p := p) id (l₁ ++ l₂)
    rw [← Nat.sub_eq_of_eq_add hcount] at hcounts
    have hown : Owns L (s.k.setNodes p .msq (l₁ ++ l₂)) (msgBlocks (chains id) +
        ((n.addr, 24) ::ₘ owned (s.k.setNodes p .msq (l₁ ++ l₂)) s.call
          (update chains id []))) := by
      have hall : Owns L (s.k.setNodes p .msq (l₁ ++ l₂)) (owned s.k s.call chains) :=
        h.owns.congr rfl
      rwa [owned_unlink hsplit, owned_clear hid _ p, ← Multiset.add_cons] at hall
    have hchain : Chain (s.k.setNodes p .msq (l₁ ++ l₂)) id (chains id) :=
      (h.linked.chain id).congr rfl fun _ _ => rfl
    have hmatched : MatchedSize IpcKind.msq.nodeSize := Or.inl (by decide)
    rcases dropRef_msq hchain hown hk₁ with
      ⟨hzombie, hlast, hown₁, hmsq, hmsg, hnodes, hslot₁⟩ | ⟨hlast, rfl⟩
    · have hown₂ := hown₁.kmfree hmatched hk₂
      obtain ⟨heap, -, rfl⟩ := Kernel.kmfree_ok hk₂
      refine ⟨[], h.clear hid hmsq hmsg ?_, ?_, Or.inr ⟨hzombie, hlast⟩⟩
      · simpa only [owned, Kernel.setHeap, hnodes] using hown₂
      · have hdestroyed : (s.view id (chains id)).state = .ZOMBIE ∧
            (s.view id (chains id)).refs - 1 = 0 := ⟨hzombie, hlast⟩
        rw [QueueView.dropRef, if_pos hdestroyed]
        simp only [MsgState.view, MsgState.setKernel, Kernel.setHeap, hslot₁, hnodes, hmsg, hcounts]
        rfl
    · have hown₁ : Owns L ((s.k.setNodes p .msq (l₁ ++ l₂)).setSlot .msq id
          { s.k.slot (.msq, id) with refCount := (s.k.slot (.msq, id)).refCount - 1 })
          ((n.addr, 24) ::ₘ owned (s.k.setNodes p .msq (l₁ ++ l₂)) s.call chains) := by
        rw [owned_clear hid _ p, ← Multiset.add_cons]
        exact hown.congr rfl
      have hown₂ := hown₁.kmfree hmatched hk₂
      obtain ⟨heap, -, rfl⟩ := Kernel.kmfree_ok hk₂
      refine ⟨chains id, ?_, ?_, Or.inl rfl⟩
      · rw [update_eq_self]
        exact h.setKernel rfl rfl hown₂
      · have hkept : ¬ ((s.view id (chains id)).state = .ZOMBIE ∧
            (s.view id (chains id)).refs - 1 = 0) := hlast
        rw [QueueView.dropRef, if_neg hkept]
        simp only [MsgState.view, MsgState.setKernel, QueueView.mk.injEq, and_true]
        refine ⟨by simp [Kernel.setSlot, Kernel.setNodes, Kernel.setHeap],
          by simp [Kernel.setSlot, Kernel.setNodes, Kernel.setHeap], hcounts, trivial, rfl⟩

theorem msgctl_rmid (huse : (k.slot (.msq, id)).state ≠ .UNUSED)
    (h : msgctl L p id IPC_RMID 0 0 k = .ok (r, k')) (hid : id < MSGMAX) :
    ∃ r', procRem L .msq p id (k.setSlot .msq id { k.slot (.msq, id) with state := .ZOMBIE }) =
      .ok (r', k') := by
  obtain ⟨-, hmax | hunused⟩ | ⟨id', hid', -, -, -, hdone⟩ := msgctl_done h
  · omega
  · exact absurd hunused huse
  obtain rfl : id = id' := by exact_mod_cast hid'
  cases hdone with
  | set hcmd => exact absurd hcmd (by decide)
  | rmid _ hrem => exact ⟨_, hrem⟩
  | other hno => exact absurd rfl hno.2

theorem msgctl_refused {cmd : ℤ} {maxlen flag : ℕ} (hfree : (k.slot (.msq, id)).state = .UNUSED)
    (h : msgctl L p id cmd maxlen flag k = .ok (r, k')) : k' = k := by
  obtain ⟨hk, -⟩ | ⟨id', hid', -, -, huse, -⟩ := msgctl_done h
  · exact hk
  · obtain rfl : id = id' := by exact_mod_cast hid'
    exact absurd hfree huse

/-- The queue is marked for removal. -/
theorem Linked.mark (h : Linked L id s chains) :
    Linked L id (s.setKernel (s.k.setSlot .msq id { s.k.slot (.msq, id) with state := .ZOMBIE }))
      chains :=
  h.setKernel rfl rfl (h.owns.congr rfl)

theorem view_mark :
    (s.setKernel (s.k.setSlot .msq id { s.k.slot (.msq, id) with state := .ZOMBIE })).view id as =
      { s.view id as with state := .ZOMBIE } := by
  simp [MsgState.view, MsgState.setKernel, Kernel.setSlot]

theorem removeQueue_simulated (hid : id < MSGMAX) (h : Linked L id s chains)
    (hidle : s.call p = .idle) (hcall : removeQueue L id p s = .ok s') :
    Simulated L id s chains (.rmid p) s' := by
  simp only [removeQueue, bind_eq_ok, pure_eq_ok] at hcall
  obtain ⟨⟨r, k₁⟩, hk₁, rfl⟩ := hcall
  by_cases hstate : (s.k.slot (.msq, id)).state = .UNUSED
  · obtain rfl := msgctl_refused hstate hk₁
    exact h.simulated_same (.rmidRefused hstate)
  · obtain ⟨r', hrem⟩ := msgctl_rmid hstate hk₁ hid
    rcases procRem_refines hid h.mark hrem with
      ⟨hnone, rfl⟩ | ⟨hnode, as, hlinked, hafter, hbound⟩
    · refine ⟨chains id, ?_, ?_, Or.inl rfl⟩
      · rw [update_eq_self]
        exact h.mark
      · rw [view_mark] at hnone
        change s.Steps id _ _ ((s.setKernel
          (s.k.setSlot .msq id { s.k.slot (.msq, id) with state := .ZOMBIE })).view id (chains id))
        rw [view_mark]
        exact .rmidMarked hstate hnone
    · rw [view_mark] at hnode hafter
      have hstep : s.Steps id (chains id) _ _ := .rmid hidle hstate hnode
      refine ⟨as, hlinked, hafter ▸ hstep, hbound.imp (fun hsame => ?_) fun hlast => ?_⟩
      · exact congrArg MsgQueue.maxlen (congrFun hsame id)
      · refine ⟨rfl, Or.inl ⟨hstate, hnode, ?_⟩⟩
        simpa [MsgState.view, MsgState.setKernel, Kernel.setSlot] using hlast.2

theorem dropQueue_simulated (hid : id < MSGMAX) (h : Linked L id s chains)
    (hidle : s.call p = .idle) (hcall : dropQueue L id p s = .ok s') :
    Simulated L id s chains (.drop p) s' := by
  simp only [dropQueue, bind_eq_ok, pure_eq_ok] at hcall
  obtain ⟨u, -, ⟨r, k₁⟩, hk₁, rfl⟩ := hcall
  rcases procRem_refines hid h hk₁ with ⟨hnone, rfl⟩ | ⟨hnode, as, hlinked, hafter, hbound⟩
  · exact h.simulated_same (.dropNone hnone)
  · have hstep : s.Steps id (chains id) _ _ := .drop hidle hnode
    refine ⟨as, hlinked, hafter ▸ hstep, hbound.imp (fun hsame => ?_) fun hlast => ?_⟩
    · exact congrArg MsgQueue.maxlen (congrFun hsame id)
    · exact ⟨rfl, Or.inl ⟨hlast.1, hnode, hlast.2⟩⟩

/-- The argument `maxlen` is a `uint32`. -/
def MsgEvent.Fits : MsgEvent → Prop
  | .get _ _ maxlen _ => maxlen < 2 ^ 32
  | _ => True

/-- A new queue with its length. It keeps what is linked in the slot. -/
theorem Linked.create {maxlen : ℕ} (key flag : ℕ) (h : Linked L id s chains)
    (hmax : maxlen < 2 ^ 32) :
    let k₁ := if maxlen > 0 then s.k.setMsq id { s.k.msqid id with maxlen := maxlen } else s.k
    Linked L id ({ s with born := s.born + 1 }.setKernel
      (k₁.setSlot .msq id ((k₁.slot (.msq, id)).create key flag))) chains := by
  intro k₁
  have hslot : ∀ i ≠ id, k₁.msqid i = s.k.msqid i := by
    intro i hi
    simp only [k₁]
    split
    · simp [Kernel.setMsq, hi]
    · rfl
  have hfirst : (k₁.msqid id).first = (s.k.msqid id).first ∧
      (k₁.msqid id).last = (s.k.msqid id).last ∧
      (k₁.msqid id).msgCount = (s.k.msqid id).msgCount ∧ (k₁.msqid id).maxlen < 2 ^ 32 := by
    simp only [k₁]
    split
    · simpa [Kernel.setMsq] using hmax
    · exact ⟨rfl, rfl, rfl, h.bound⟩
  have hnodes : k₁.nodes = s.k.nodes ∧ k₁.msg = s.k.msg ∧ k₁.heap = s.k.heap := by
    simp only [k₁]
    split <;> exact ⟨rfl, rfl, rfl⟩
  have hnext : k₁.next = s.k.next := by
    funext a
    exact congrArg MsgMsg.next (congrFun hnodes.2.1 a)
  have hchain : Chain k₁ id (chains id) := by
    have hold := h.linked.chain id
    refine ⟨?_, fun l x hl => ?_, ?_, hold.fits⟩
    · rw [hfirst.1, hnext]
      exact hold.seg
    · rw [hfirst.2.1]
      exact hold.last l x hl
    · rw [hfirst.2.2.1]
      exact hold.count
  have hlinked : Chains k₁ chains := by
    refine ⟨fun i => ?_, fun hnil => ?_, h.linked.nodup, h.linked.apart⟩
    · by_cases hi : i = id
      · exact hi ▸ hchain
      · exact (h.linked.chain i).congr (hslot i hi) fun a _ => congrFun hnext a
    · have hzero := h.linked.zero hnil
      by_cases hi : 0 = id
      · subst hi
        rw [hfirst.2.1]
        exact hzero
      · rw [hslot 0 hi]
        exact hzero
  refine ⟨hlinked.congr rfl rfl, h.outside, hfirst.2.2.2, ?_⟩
  have howned : owned (k₁.setSlot .msq id ((k₁.slot (.msq, id)).create key flag)) s.call chains =
      owned s.k s.call chains := by
    simp only [owned, Kernel.setSlot, hnodes.1]
  change Owns L _ (owned (k₁.setSlot .msq id ((k₁.slot (.msq, id)).create key flag)) s.call chains)
  rw [howned]
  exact h.owns.congr hnodes.2.2

theorem view_create :
    let k₁ := if maxlen > 0 then s.k.setMsq id { s.k.msqid id with maxlen := maxlen } else s.k
    ({ s with born := s.born + 1 }.setKernel
      (k₁.setSlot .msq id ((k₁.slot (.msq, id)).create key flag))).view id as =
      { s.view id as with state := .USED, born := s.born + 1 } := by
  intro k₁
  have hsame : k₁.slot = s.k.slot ∧ k₁.nodes = s.k.nodes ∧ k₁.msg = s.k.msg := by
    simp only [k₁]
    split <;> exact ⟨rfl, rfl, rfl⟩
  simp [MsgState.view, MsgState.setKernel, Kernel.setSlot, IpcSlot.create, hsame]

theorem getQueue_simulated (h : Linked L id s chains) (hmax : maxlen < 2 ^ 32)
    (hcall : getQueue L id p key maxlen flag s = .ok s') :
    Simulated L id s chains (.get p key maxlen flag) s' := by
  simp only [getQueue, bind_eq_ok, pure_eq_ok] at hcall
  obtain ⟨⟨r, k₁⟩, hk₁, rfl⟩ := hcall
  simp only [getSection] at hk₁
  dsimp only
  cases ipcGetAt_done hk₁ with
  | refused _ hwhy hk =>
    rw [hk, if_neg fun hcreates => ?_]
    · exact h.simulated_same .getRefused
    · rcases hwhy with hwhy | hwhy
      · exact hwhy.2 hcreates.2
      · exact hwhy.1 hcreates.1
  | shared _ huse _ hadd =>
    rw [if_neg fun hcreates => huse hcreates.1]
    obtain ⟨hlinked, hview, hmsq⟩ := addNode_refines h hadd
    have hstep : s.Steps id (chains id) (.get p key maxlen flag) _ := .getShared huse
    refine ⟨chains id, ?_, hview ▸ hstep, Or.inl (congrArg MsgQueue.maxlen (congrFun hmsq id))⟩
    rwa [update_eq_self]
  | created _ hfree hmay hnew hadd =>
    cases hnew
    obtain ⟨hlinked, hview, -⟩ := addNode_refines (h.create key flag hmax) hadd
    rw [if_pos ⟨hfree, hmay⟩]
    refine ⟨chains id, ?_, ?_, Or.inr ⟨rfl, Or.inr hfree⟩⟩
    · rw [update_eq_self]
      exact hlinked
    · have hafter := hview.trans (congrArg (fun v => QueueView.addRef v p) view_create)
      have hstep : s.Steps id (chains id) (.get p key maxlen flag) _ := .getCreated hfree
      exact Eq.subst hafter.symm hstep

/-- Every section is a step of the model. -/
theorem MsgRunStep.simulated (hid : id < MSGMAX) (h : Linked L id s chains) (hfits : e.Fits)
    (hstep : MsgRunStep L id s e s') : Simulated L id s chains e s' := by
  have hcall : msgSection L id e s = .ok s' := hstep
  cases e with
  | resume p => exact resumeCall_simulated hid h hcall
  | kill q =>
    cases hcall
    exact h.simulated_call (s.call q).wake_message .kill
  | send p content nowait =>
    simp only [msgSection] at hcall
    split at hcall
    · rename_i hidle
      exact sendCheck_simulated h hidle hcall
    · cases hcall
  | store p =>
    simp only [msgSection] at hcall
    split at hcall
    · rename_i hcalled
      exact sendStore_simulated hid h hcalled hcall
    · cases hcall
  | enter p =>
    simp only [msgSection] at hcall
    split at hcall
    · rename_i hcalled
      exact sendEnter_simulated hid h hcalled hcall
    · cases hcall
  | receive p msgsz msgtype nowait =>
    simp only [msgSection] at hcall
    split at hcall
    · rename_i hidle
      exact receiveCheck_simulated hid h hidle hcall
    · cases hcall
  | deliver p =>
    simp only [msgSection] at hcall
    split at hcall
    · rename_i hcalled
      exact receiveDeliver_simulated hid h hcalled hcall
    · cases hcall
  | wakeup p =>
    simp only [msgSection] at hcall
    split at hcall
    · rename_i hcalled
      cases hcall
      exact wakeup_simulated h hcalled
    · cases hcall
  | get p key maxlen flag =>
    simp only [msgSection] at hcall
    split at hcall
    · exact getQueue_simulated h hfits hcall
    · cases hcall
  | rmid p =>
    simp only [msgSection] at hcall
    split at hcall
    · rename_i hidle
      exact removeQueue_simulated hid h hidle hcall
    · cases hcall
  | drop p =>
    simp only [msgSection] at hcall
    split at hcall
    · rename_i hidle
      exact dropQueue_simulated hid h hidle hcall
    · cases hcall

/-! ## Execution -/

/-- The pool after `msqinit`, with no slot in use. -/
def queueBoot (L : Layout) : Kres MsgState := do
  let k ← msgBoot L
  return ⟨{ k with slot := fun _ => ⟨false, 0, 0, 0, .UNUSED⟩ }, fun _ => .idle, 0, fun _ => 0⟩

theorem queueBoot_linked (h : queueBoot L = .ok s) :
    Linked L id s (fun _ => []) ∧ ∀ p, s.call p = .idle := by
  simp only [queueBoot, bind_eq_ok, pure_eq_ok] at h
  obtain ⟨k, hk, rfl⟩ := h
  have hempty := msgBoot_empty hk
  have hlinked := hempty.msgInv.linked
  refine ⟨⟨hlinked.congr rfl rfl, fun _ _ => rfl, hempty.bound id, ?_⟩, fun _ => rfl⟩
  obtain ⟨held, live, pool, hinv⟩ := hempty.heap
  refine ⟨held, live, pool, hinv, ?_⟩
  have hnodes : ∀ q, k.nodes (q, .msq) = [] := by
    simp only [msgBoot, bind_eq_ok, pure_eq_ok] at hk
    obtain ⟨heap, -, rfl⟩ := hk
    exact fun _ => rfl
  have howned : owned { k with slot := fun _ => ⟨false, 0, 0, 0, .UNUSED⟩ } (fun _ => .idle)
      (fun _ => []) = 0 := by
    simp [owned, hnodes, MsgCall.message, nodeBlocks, msgBlocks_zero]
  rw [howned]
  exact Multiset.zero_le _

theorem QueueView.Searches.event (h : v.Searches e p msgsz msgtype seen) :
    e = .resume p ∨ ∃ nowait, e = .receive p msgsz msgtype nowait := by
  rcases h with (⟨nowait, rfl, -⟩ | ⟨rfl, -⟩) | ⟨rfl, -⟩
  · exact Or.inr ⟨nowait, rfl⟩
  · exact Or.inl rfl
  · exact Or.inl rfl

theorem QueueStep.get_kept {bound : ℕ} {v v' : QueueView}
    (h : QueueStep bound v (.get p key maxlen flag) v') :
    v'.call = v.call ∧ v'.queue = v.queue := by
  cases h with
  | getRefused => exact ⟨rfl, rfl⟩
  | getShared _ => exact ⟨rfl, rfl⟩
  | getCreated _ => exact ⟨rfl, rfl⟩
  | sleepFull hsend _ | link hsend => rcases hsend with ⟨_, he, -⟩ | ⟨he, -⟩ <;> cases he
  | sleepEmpty harrive _ => rcases harrive with ⟨_, he, -⟩ | ⟨he, -⟩ <;> cases he
  | sleepSearch hsearch _ _
  | take hsearch _ _ _ => rcases hsearch.event with he | ⟨_, he⟩ <;> cases he

/-- The first queue of the system. -/
theorem queueBoot_get (hs : queueBoot L = .ok s) (hmax : maxlen < 2 ^ 32)
    (hget : getQueue L id p key maxlen flag s = .ok s') :
    Linked L id s' (fun _ => []) ∧ ∀ q, s'.call q = .idle := by
  obtain ⟨hlinked, hidle⟩ := queueBoot_linked hs
  obtain ⟨as, hlinked', hstep, -⟩ := getQueue_simulated hlinked hmax hget
  have hcall : s'.call = s.call ∧ as = [] := QueueStep.get_kept hstep
  obtain ⟨hcall, rfl⟩ := hcall
  refine ⟨?_, fun q => by rw [hcall]; exact hidle q⟩
  have hsame : update (fun _ : ℕ => ([] : List ℕ)) id [] = fun _ => [] :=
    update_eq_self id _
  rwa [hsame] at hlinked'

/-- The first process has created the queue. -/
def openQueue (L : Layout) (id : ℕ) : Kres MsgState := do
  let s ← queueBoot L
  getQueue L id 0 1 0 0x8fff s

theorem openQueue_linked (h : openQueue L id = .ok s) :
    Linked L id s (fun _ => []) ∧ ∀ p, s.call p = .idle := by
  simp only [openQueue, bind_eq_ok] at h
  obtain ⟨s₀, hs₀, hget⟩ := h
  exact queueBoot_get hs₀ (by decide) hget

/-- A list of events on a queue that has been opened, with a property of the run. -/
theorem exists_open_run (L : Layout) (id : ℕ) {E : Type} (exec : E → MsgState → Kres MsgState)
    (es : List E) (P : MsgState → List (E × MsgState) → Prop)
    (h : (openQueue L id).Yields fun s => Kres.Yields (execAll exec es s) (P s)) :
    ∃ s₀ run, Linked L id s₀ (fun _ => []) ∧ (∀ p, s₀.call p = .idle) ∧
      IsRun (fun s e t => exec e s = .ok t) s₀ run ∧ run.map Prod.fst = es ∧ P s₀ run := by
  obtain ⟨s₀, hs₀, run, hrun, htest⟩ := h
  obtain ⟨hlinked, hidle⟩ := openQueue_linked hs₀
  obtain ⟨hisRun, hevents⟩ := execAll_isRun (fun _ _ _ h => h) hrun
  exact ⟨s₀, run, hlinked, hidle, hisRun, hevents, htest⟩

end LearnOS.Ipc
