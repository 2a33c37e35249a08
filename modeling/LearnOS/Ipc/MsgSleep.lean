import LearnOS.Ipc.MsgLifetime

/-!
# Who sleeps on a message queue

A sender sleeps until there is room, a receiver until a message of its type has come.
A receive wakes the senders and a send wakes the receivers. Neither raising the bound
with `IPC_SET` nor destroying the queue wakes anybody.

## Main results

`sleepers_have_reason`: when the bound is raised only while no sender sleeps and the
queue is destroyed only while no call is under way on it, everybody who sleeps while
nothing else goes on has a reason to. `sleepers_left_behind` has a run for each of the
two missing wakeups.
-/

namespace LearnOS.Ipc

open LearnOS Transition LinkedList Function Kres

variable {L : Layout} {id : ℕ} {chains : ℕ → List ℕ} {s s' : MsgState} {e : MsgEvent}
  {k k' : Kernel} {p : Fin NPROC} {maxlen flag : ℕ} {a seen : ℕ} {r : ℤ}

/-- The sections of the calls, and `msgctl` with `IPC_SET`. -/
inductive QueueEvent where
  | call (e : MsgEvent)
  | set (p : Fin NPROC) (maxlen flag : ℕ)

def queueSection (L : Layout) (id : ℕ) (e : QueueEvent) (s : MsgState) : Kres MsgState :=
  match e with
  | .call e => msgSection L id e s
  | .set p maxlen flag =>
    match s.call p with
    | .idle => do
        let (_, k) ← msgctl L p id IPC_SET maxlen flag s.k
        return s.setKernel k
    | _ => .error .undefined

def QueueRunStep (L : Layout) (id : ℕ) (s : MsgState) (e : QueueEvent) (s' : MsgState) : Prop :=
  queueSection L id e s = .ok s'

/-- The lengths are `uint32`. -/
def QueueEvent.Fits : QueueEvent → Prop
  | .call e => e.Fits
  | .set _ maxlen _ => maxlen < 2 ^ 32

/-- The type that a sleeping receiver waits for. -/
def MsgCall.asleepFor : MsgCall → Option ℕ
  | .empty _ msgtype true _ | .search _ msgtype true _ => some msgtype
  | _ => none

/-- The process is in no call, or sleeps in one. -/
def MsgCall.resting : MsgCall → Bool
  | .idle => true
  | c => c.sleepsOn .snd || c.sleepsOn .rcv

/-- Every call that is under way sleeps. -/
def OnlySleepers (s : MsgState) : Prop := ∀ q, (s.call q).resting = true

instance (s : MsgState) : Decidable (OnlySleepers s) := inferInstanceAs (Decidable (∀ _, _))

/-- A sender sleeps on a queue that is full, a receiver on a queue without a message
that it wants. -/
structure SleepsForReason (id : ℕ) (s : MsgState) : Prop where
  sender : ∀ q newmsg seen, s.call q = .full newmsg true seen →
    (s.k.slot (.msq, id)).state ≠ .UNUSED ∧
      ((s.k.msqid id).maxlen : ℤ) ≤ (s.k.msqid id).msgCount
  receiver : ∀ q msgtype, (s.call q).asleepFor = some msgtype →
    (s.k.slot (.msq, id)).state ≠ .UNUSED ∧
      ∃ as, Seg NULL s.k.next (s.k.msqid id).first as NULL ∧
        ∀ a ∈ as, wanted msgtype (s.k.content a) = false

/-- The queue is destroyed only while no call is under way on it, and its bound is
raised above its length only while no sender sleeps. -/
def KeepsSleepers (id : ℕ) (s : MsgState) : QueueEvent → Prop
  | .call e => DestroysUnused id s e
  | .set _ maxlen _ =>
    (∃ q, (s.call q).sleepsOn .snd = true) → (maxlen : ℤ) ≤ (s.k.msqid id).msgCount

instance (id : ℕ) (s : MsgState) : (e : QueueEvent) → Decidable (KeepsSleepers id s e)
  | .call e => inferInstanceAs (Decidable (DestroysUnused id s e))
  | .set .. => inferInstanceAs (Decidable (_ → _))

/-! ## The invariant -/

/-- The call has made room or has linked a message, and will wake those who wait for it. -/
def MsgCall.owes (chan : MsgChan) : MsgCall → Bool
  | .taken .. => chan = .snd
  | .notify c => c = chan
  | _ => false

/-- What the sleeper waits for has not come. -/
def QueueView.Reason (v : QueueView) (maxlen : ℕ) : MsgCall → Prop
  | .full .. => maxlen ≤ v.queue.length
  | .empty _ msgtype _ _ | .search _ msgtype _ _ =>
    ∀ a ∈ v.queue, wanted msgtype (v.content a) = false
  | _ => True

/-- Whoever sleeps has a reason, or a wakeup is on its way. -/
def QueueView.Awaited (v : QueueView) (maxlen : ℕ) : Prop :=
  ∀ q chan, (v.call q).sleepsOn chan = true →
    v.Reason maxlen (v.call q) ∨ ∃ p, (v.call p).owes chan = true

namespace MsgCall

variable {c : MsgCall} {chan chan' : MsgChan}

theorem wake_sleepsOn (c : MsgCall) (chan : MsgChan) : c.wake.sleepsOn chan = false := by
  cases c <;> rfl

theorem wake_owes (c : MsgCall) (chan : MsgChan) : c.wake.owes chan = c.owes chan := by
  cases c <;> rfl

theorem seen_of_sleepsOn (h : c.sleepsOn chan = true) : ∃ n, c.seen? = some n := by
  cases c with
  | full _ _ n => exact ⟨n, rfl⟩
  | empty _ _ _ n => exact ⟨n, rfl⟩
  | search _ _ _ n => exact ⟨n, rfl⟩
  | _ => cases h

theorem sleepsOn_full {a seen : ℕ} {asleep : Bool} (h : (full a asleep seen).sleepsOn chan = true) :
    chan = .snd := by
  simp only [sleepsOn, Bool.and_eq_true, decide_eq_true_eq] at h
  exact h.2

theorem eq_rcv_of_and {asleep : Bool} (h : (asleep && decide (chan = .rcv)) = true) :
    chan = .rcv := by
  simpa using (Bool.and_eq_true_iff.mp h).2

theorem sleepsOn_of_asleepFor {msgtype : ℕ} (h : c.asleepFor = some msgtype) :
    c.sleepsOn .rcv = true := by
  cases c with
  | empty _ _ asleep _ | search _ _ asleep _ => cases asleep <;> first | rfl | cases h
  | _ => cases h

theorem wakeAll_owes (call : Fin NPROC → MsgCall) (q : Fin NPROC) :
    (wakeAll chan call q).owes chan' = (call q).owes chan' := by
  simp only [wakeAll]
  split
  · exact (call q).wake_owes chan'
  · rfl

theorem wakeAll_sleepsOn {call : Fin NPROC → MsgCall} {q : Fin NPROC}
    (h : (wakeAll chan call q).sleepsOn chan' = true) :
    wakeAll chan call q = call q ∧ chan' ≠ chan := by
  simp only [wakeAll] at h ⊢
  split at h
  · rw [wake_sleepsOn] at h
    cases h
  · rename_i hawake
    rw [if_neg hawake]
    exact ⟨rfl, fun heq => hawake (heq ▸ h)⟩

end MsgCall

namespace QueueView.Awaited

variable {v v' : QueueView} {c : MsgCall}

/-- The bound changes while no sender sleeps, or stays below the length. -/
theorem setBound {bound : ℕ} (h : v.Awaited maxlen)
    (hsnd : (∃ q, (v.call q).sleepsOn .snd = true) → bound ≤ v.queue.length) :
    v.Awaited bound := by
  intro q chan hq
  refine (h q chan hq).imp (fun hr => ?_) id
  cases hcall : v.call q with
  | full =>
    rw [hcall] at hq
    refine hsnd ⟨q, ?_⟩
    rwa [hcall, ← MsgCall.sleepsOn_full hq]
  | _ =>
    rw [hcall] at hr
    exact hr

/-- Nobody is between its check and its last section. -/
theorem of_idle (h : ∀ q, (v.call q).seen? = none) : v.Awaited maxlen := by
  intro q chan hq
  obtain ⟨n, hn⟩ := MsgCall.seen_of_sleepsOn hq
  rw [h q] at hn
  cases hn

/-- The process `p` goes on and keeps what it owes. For the others a reason to sleep is
left, or `p` will wake them. -/
theorem step (h : v.Awaited maxlen) (hcall : v'.call = update v.call p c)
    (howes : ∀ chan, (v.call p).owes chan = true → c.owes chan = true)
    (hself : ∀ chan, c.sleepsOn chan = true → v'.Reason maxlen c)
    (hother : ∀ chan c', c'.sleepsOn chan = true → v.Reason maxlen c' →
      v'.Reason maxlen c' ∨ c.owes chan = true) : v'.Awaited maxlen := by
  intro q chan hq
  by_cases hqp : q = p
  · rw [hcall, hqp, update_self] at hq ⊢
    exact Or.inl (hself chan hq)
  · rw [hcall, update_of_ne hqp] at hq
    have hp : (v'.call p).owes chan = c.owes chan := by rw [hcall, update_self]
    rw [show v'.call q = v.call q by rw [hcall, update_of_ne hqp]]
    rcases h q chan hq with hreason | ⟨r, hr⟩
    · exact (hother chan _ hq hreason).imp id fun hc => ⟨p, hp.trans hc⟩
    · refine Or.inr ?_
      by_cases hrp : r = p
      · exact ⟨p, hp.trans (howes chan (hrp ▸ hr))⟩
      · exact ⟨r, by rwa [hcall, update_of_ne hrp]⟩

/-- A process that owes nothing goes on, and the queue stays. -/
theorem setCall (h : v.Awaited maxlen) (howes : ∀ chan, (v.call p).owes chan = false)
    (hself : ∀ chan, c.sleepsOn chan = true → v.Reason maxlen c) :
    (v.setCall p c).Awaited maxlen := by
  refine h.step rfl (fun chan ho => ?_) hself fun _ _ _ hr => Or.inl hr
  rw [howes] at ho
  cases ho

theorem dropRef (h : v.Awaited maxlen)
    (hlast : v.state = .ZOMBIE ∧ v.refs - 1 = 0 → ∀ q, (v.call q).seen? = none) :
    (v.dropRef p).Awaited maxlen := by
  rw [QueueView.dropRef]
  split
  · rename_i hdestroyed
    exact of_idle (hlast hdestroyed)
  · exact h

end QueueView.Awaited

/-- The reasons of receivers depend on what is in the queue, that of senders on how much. -/
theorem QueueView.Reason.congr {v v' : QueueView} {c : MsgCall} (h : v.Reason maxlen c)
    (hlen : v.queue.length ≤ v'.queue.length) (hsub : ∀ a ∈ v'.queue, a ∈ v.queue ∧
      ∀ msgtype, wanted msgtype (v'.content a) = wanted msgtype (v.content a)) :
    v'.Reason maxlen c := by
  have hwanted : ∀ msgtype, (∀ a ∈ v.queue, wanted msgtype (v.content a) = false) →
      ∀ a ∈ v'.queue, wanted msgtype (v'.content a) = false := by
    intro msgtype hnone a ha
    rw [(hsub a ha).2]
    exact hnone a (hsub a ha).1
  cases c with
  | full => exact le_trans h hlen
  | empty => exact hwanted _ h
  | search => exact hwanted _ h
  | _ => trivial

theorem wanted_cut (msgtype msgsz : ℕ) (m : MsgBuf) :
    wanted msgtype (m.cut msgsz) = wanted msgtype m := by
  rw [wanted, wanted, (cut_delivered m msgsz).mtype]

theorem QueueView.Sends.owes {v : QueueView} (h : v.Sends e p a seen) (chan : MsgChan) :
    (v.call p).owes chan = false := by
  rcases h with ⟨nowait, -, hcall⟩ | ⟨-, hcall⟩
  · rw [hcall]
    rfl
  · rw [hcall]
    rfl

theorem QueueView.Searches.owes {v : QueueView} {msgsz msgtype seen : ℕ}
    (h : v.Searches e p msgsz msgtype seen) (chan : MsgChan) : (v.call p).owes chan = false := by
  rcases h with (⟨nowait, -, hcall, -, -⟩ | ⟨-, hcall⟩) | ⟨-, hcall⟩
  · rw [hcall]
    rfl
  · rw [hcall]
    rfl
  · rw [hcall]
    rfl

namespace QueueView.Awaited

variable {v : QueueView} {content : MsgBuf} {nowait : Bool} {msgsz msgtype x : ℕ} {l₁ l₂ : List ℕ}
  {chan : MsgChan}

/-- A block that is not in the queue becomes a message. -/
theorem store (h : v.Awaited maxlen) (hcall : v.call p = .checked content nowait seen)
    (hqueue : a ∉ v.queue) :
    (QueueView.setCall { v with
        content := update v.content a content
        stamp := update v.stamp a seen } p
      (if content.mtype ≤ 0 then .idle else .stored a nowait seen)).Awaited maxlen := by
  refine h.step rfl (fun chan ho => ?_) (fun chan hc => ?_) fun chan c' hc hr => Or.inl ?_
  · rw [hcall] at ho
    cases ho
  · split at hc <;> cases hc
  · refine hr.congr le_rfl fun b hb => ⟨hb, fun msgtype => ?_⟩
    have hba : b ≠ a := fun hba => hqueue (hba ▸ hb)
    exact congrArg (wanted msgtype) (update_of_ne hba ..)

/-- Senders find the queue longer, receivers are woken. -/
theorem link (h : v.Awaited maxlen) (hsend : v.Sends e p a seen) :
    ({ v with queue := v.queue ++ [a] }.setCall p (.notify .rcv)).Awaited maxlen := by
  refine h.step rfl (fun chan ho => ?_) (fun chan hc => by cases hc) fun chan c' hc hr => ?_
  · rw [hsend.owes] at ho
    cases ho
  · cases c' with
    | full =>
      refine Or.inl (le_trans hr ?_)
      simp [QueueView.setCall]
    | empty | search => exact Or.inr (decide_eq_true (MsgCall.eq_rcv_of_and hc).symm)
    | _ => exact Or.inl trivial

/-- Receivers find fewer messages, senders are woken. -/
theorem take (h : v.Awaited maxlen) (hsearch : v.Searches e p msgsz msgtype seen)
    (hqueue : v.queue = l₁ ++ x :: l₂) :
    ({ v with queue := l₁ ++ l₂ }.setCall p (.taken x msgsz seen)).Awaited maxlen := by
  refine h.step rfl (fun chan ho => ?_) (fun chan hc => by cases hc) fun chan c' hc hr => ?_
  · rw [hsearch.owes] at ho
    cases ho
  · have hsub : l₁ ++ l₂ ⊆ v.queue := by
      rw [hqueue]
      exact ((List.sublist_cons_self x l₂).append_left l₁).subset
    cases c' with
    | full => exact Or.inr (decide_eq_true (MsgCall.sleepsOn_full hc))
    | empty | search => exact Or.inl fun a ha => hr a (hsub ha)
    | _ => exact Or.inl trivial

/-- The message that is cut is still of its type, and the senders are still owed. -/
theorem deliver (h : v.Awaited maxlen) (hcall : v.call p = .taken x msgsz seen) :
    (QueueView.setCall { v with
        content := update v.content x ((v.content x).cut msgsz) } p
      (.notify .snd)).Awaited maxlen := by
  refine h.step rfl (fun chan ho => ?_) (fun chan hc => by cases hc)
    fun chan c' hc hr => Or.inl ?_
  · rw [hcall] at ho
    simpa [MsgCall.owes, eq_comm] using ho
  · refine hr.congr le_rfl fun b hb => ⟨hb, fun msgtype => ?_⟩
    by_cases hbx : b = x
    · simp [QueueView.setCall, hbx, wanted_cut]
    · exact congrArg (wanted msgtype) (update_of_ne hbx ..)

/-- Nobody is left asleep on the channel that was owed. -/
theorem wakeup (h : v.Awaited maxlen) (hcall : v.call p = .notify chan) :
    ({ v with call := wakeAll chan v.call }.setCall p .idle).Awaited maxlen := by
  intro q chan' hq
  have hqp : q ≠ p := by
    rintro rfl
    simp [QueueView.setCall, MsgCall.sleepsOn] at hq
  simp only [QueueView.setCall, update_of_ne hqp] at hq ⊢
  obtain ⟨hsame, hne⟩ := MsgCall.wakeAll_sleepsOn hq
  rw [hsame] at hq ⊢
  refine (h q chan' hq).imp id ?_
  rintro ⟨r, hr⟩
  have hrp : r ≠ p := by
    rintro rfl
    rw [hcall] at hr
    exact hne (of_decide_eq_true hr).symm
  exact ⟨r, by rwa [update_of_ne hrp, MsgCall.wakeAll_owes]⟩

end QueueView.Awaited

/-- A step of the model under one bound. -/
theorem QueueStep.awaited {v v' : QueueView} (hstep : QueueStep maxlen v e v')
    (h : v.Awaited maxlen) (hdestroy : v.Destroys e → ∀ q, (v.call q).seen? = none) :
    v'.Awaited maxlen := by
  cases hstep with
  | sendRefused | receiveRefused | getRefused | rmidRefused _ | dropNone _ => exact h
  | sendChecked hidle _ =>
    exact h.setCall (fun _ => by rw [hidle]; rfl) fun _ hc => by cases hc
  | store hcall hqueue _ => exact h.store hcall hqueue
  | giveUp hcall => exact h.setCall (fun _ => by rw [hcall]; rfl) fun _ hc => by cases hc
  | sleepFull hsend hfull => exact h.setCall hsend.owes fun _ _ => hfull
  | link hsend => exact h.link hsend
  | sleepEmpty harrive hempty =>
    refine h.setCall (QueueView.Searches.owes (Or.inl harrive)) fun _ _ a ha => ?_
    rw [hempty] at ha
    cases ha
  | sleepSearch hsearch _ hnone => exact h.setCall hsearch.owes fun _ _ => hnone
  | take hsearch hqueue _ _ => exact h.take hsearch hqueue
  | deliver hcall => exact h.deliver hcall
  | wakeup hcall => exact h.wakeup hcall
  | @kill q =>
    refine h.step rfl (fun chan ho => ?_) (fun chan hc => ?_) fun _ _ _ hr => Or.inl hr
    · rwa [MsgCall.wake_owes]
    · rw [MsgCall.wake_sleepsOn] at hc
      cases hc
  | getShared _ | getCreated _ | rmidMarked _ _ => exact h
  | @rmid p _ huse hnode =>
    have hmarked : QueueView.Awaited { v with state := .ZOMBIE } maxlen := h
    exact hmarked.dropRef fun hlast => hdestroy ⟨huse, hnode, hlast.2⟩
  | drop _ hnode => exact h.dropRef fun hlast => hdestroy ⟨hlast.1, hnode, hlast.2⟩

/-! ## Setting the bound -/

theorem msgctl_set (h : msgctl L p id IPC_SET maxlen flag k = .ok (r, k')) :
    k' = k ∨ k' = (k.setMsq id { k.msqid id with maxlen := maxlen }).setSlot .msq id
      { k.slot (.msq, id) with flag := flag } := by
  obtain ⟨hk, -⟩ | ⟨id', hid', -, -, -, hdone⟩ := msgctl_done h
  · exact Or.inl hk
  obtain rfl : id = id' := by exact_mod_cast hid'
  cases hdone with
  | set _ hk => exact Or.inr hk
  | rmid hcmd => exact absurd hcmd (by decide)
  | other _ hk => exact Or.inl hk

theorem Linked.setMaxlen (h : Linked L id s chains) (hmax : maxlen < 2 ^ 32) :
    Linked L id (s.setKernel ((s.k.setMsq id { s.k.msqid id with maxlen := maxlen }).setSlot
      .msq id { s.k.slot (.msq, id) with flag := flag })) chains := by
  have hchain := h.linked.chain id
  refine ⟨⟨fun i => ?_, fun hnil => ?_, h.linked.nodup, h.linked.apart⟩, h.outside, ?_,
    h.owns.congr rfl⟩
  · by_cases hi : i = id
    · subst hi
      refine ⟨?_, fun l x hl => ?_, ?_, hchain.fits⟩
      · have hfirst : (((s.k.setMsq i { s.k.msqid i with maxlen := maxlen }).setSlot .msq i
            { s.k.slot (.msq, i) with flag := flag }).msqid i).first = (s.k.msqid i).first := by
          simp [Kernel.setSlot, Kernel.setMsq]
        exact hfirst ▸ hchain.seg
      · simpa [MsgState.setKernel, Kernel.setSlot, Kernel.setMsq] using hchain.last l x hl
      · simpa [MsgState.setKernel, Kernel.setSlot, Kernel.setMsq] using hchain.count
    · exact (h.linked.chain i).congr
        (by simp [MsgState.setKernel, Kernel.setSlot, Kernel.setMsq, hi]) fun _ _ => rfl
  · have hzero := h.linked.zero hnil
    by_cases hi : 0 = id
    · subst hi
      simpa [MsgState.setKernel, Kernel.setSlot, Kernel.setMsq] using hzero
    · simpa [MsgState.setKernel, Kernel.setSlot, Kernel.setMsq, hi] using hzero
  · simpa [MsgState.setKernel, Kernel.setSlot, Kernel.setMsq] using hmax

theorem view_setMaxlen {as : List ℕ} :
    (s.setKernel ((s.k.setMsq id { s.k.msqid id with maxlen := maxlen }).setSlot .msq id
      { s.k.slot (.msq, id) with flag := flag })).view id as = s.view id as := by
  simp [MsgState.view, MsgState.setKernel, Kernel.setSlot, Kernel.setMsq]

/-! ## Runs -/

/-- The queue in order, with everybody's reason to sleep. -/
def SleepInv (L : Layout) (id : ℕ) (s : MsgState) : Prop :=
  ∃ chains, Linked L id s chains ∧ (s.view id (chains id)).Timely ∧
    (s.view id (chains id)).Awaited (s.k.msqid id).maxlen

theorem sleepInv_call (hid : id < MSGMAX) (h : SleepInv L id s) (hfits : e.Fits)
    (hok : DestroysUnused id s e) (hstep : MsgRunStep L id s e s') : SleepInv L id s' := by
  obtain ⟨chains, hlinked, ht, hawait⟩ := h
  have hdestroy : (s.view id (chains id)).Destroys e → ∀ q, (s.call q).seen? = none := by
    intro hdestroys
    have hdestroys' : (s.view id []).Destroys e := by
      cases e <;> exact hdestroys
    exact hok hdestroys'
  obtain ⟨as, hlinked', hqueue, hbound⟩ := hstep.simulated hid hlinked hfits
  have hawait' := QueueStep.awaited hqueue hawait hdestroy
  refine ⟨update chains id as, hlinked', ?_, ?_⟩
  · rw [update_self]
    exact QueueStep.timely hqueue ht hdestroy
  · rw [update_self]
    rcases hbound with hsame | ⟨hcall, hdestroys | hfree⟩
    · rw [hsame]
      exact hawait'
    · refine .of_idle fun q => ?_
      rw [show (s'.view id as).call q = s.call q from congrFun hcall q]
      exact hok hdestroys q
    · refine .of_idle fun q => ?_
      rw [show (s'.view id as).call q = s.call q from congrFun hcall q]
      exact (ht.unused hfree).2 q

theorem sleepInv_set (h : SleepInv L id s) (hfits : maxlen < 2 ^ 32)
    (hok : KeepsSleepers id s (.set p maxlen flag))
    (hstep : QueueRunStep L id s (.set p maxlen flag) s') : SleepInv L id s' := by
  obtain ⟨chains, hlinked, ht, hawait⟩ := h
  have hcall : queueSection L id (.set p maxlen flag) s = .ok s' := hstep
  simp only [queueSection] at hcall
  split at hcall
  · simp only [bind_eq_ok, pure_eq_ok] at hcall
    obtain ⟨⟨r, k₁⟩, hk₁, rfl⟩ := hcall
    rcases msgctl_set hk₁ with rfl | rfl
    · exact ⟨chains, hlinked, ht, hawait⟩
    · refine ⟨chains, hlinked.setMaxlen hfits, ?_, ?_⟩
      · rw [view_setMaxlen]
        exact ht
      · rw [view_setMaxlen]
        refine hawait.setBound fun hasleep => ?_
        have hle := hok hasleep
        rw [(hlinked.linked.chain id).count] at hle
        change ((s.k.setMsq id { s.k.msqid id with maxlen := maxlen }).msqid id).maxlen ≤
          (chains id).length
        rw [msqid_setMsq]
        exact_mod_cast hle
  · cases hcall

theorem sleepInv_step (hid : id < MSGMAX) {e : QueueEvent} (h : SleepInv L id s) (hfits : e.Fits)
    (hok : KeepsSleepers id s e) (hstep : QueueRunStep L id s e s') : SleepInv L id s' := by
  cases e with
  | call e => exact sleepInv_call hid h hfits hok hstep
  | set p maxlen flag => exact sleepInv_set h hfits hok hstep

/-- Whoever sleeps while nothing else goes on has a reason to. -/
theorem SleepInv.reason (h : SleepInv L id s) (honly : OnlySleepers s) : SleepsForReason id s := by
  obtain ⟨chains, hlinked, ht, hawait⟩ := h
  have hchain := hlinked.linked.chain id
  have howes : ∀ q chan, (s.call q).owes chan = false := by
    intro q chan
    have hrest := honly q
    cases hcall : s.call q with
    | taken | notify => simp [hcall, MsgCall.resting, MsgCall.sleepsOn] at hrest
    | _ => rfl
  have hreason : ∀ q chan, (s.call q).sleepsOn chan = true →
      (s.k.slot (.msq, id)).state ≠ .UNUSED ∧
        (s.view id (chains id)).Reason (s.k.msqid id).maxlen (s.call q) := by
    intro q chan hq
    obtain ⟨n, hn⟩ := MsgCall.seen_of_sleepsOn hq
    refine ⟨ht.used_of_seen (p := q) hn, (hawait q chan hq).resolve_right ?_⟩
    rintro ⟨r, hr⟩
    exact Bool.false_ne_true ((howes r chan).symm.trans hr)
  refine ⟨fun q a seen hq => ?_, fun q msgtype hq => ?_⟩
  · obtain ⟨huse, hfull⟩ := hreason q .snd (by rw [hq]; rfl)
    rw [hq] at hfull
    refine ⟨huse, ?_⟩
    rw [hchain.count]
    exact_mod_cast hfull
  · obtain ⟨huse, hnone⟩ := hreason q .rcv (MsgCall.sleepsOn_of_asleepFor hq)
    refine ⟨huse, chains id, hchain.seg, ?_⟩
    cases hcall : s.call q with
    | empty _ _ asleep _ | search _ _ asleep _ =>
      rw [hcall] at hq hnone
      cases asleep <;> cases hq
      exact hnone
    | _ => simp [hcall, MsgCall.asleepFor] at hq

theorem sleepInv_start (hlinked : Linked L id s chains) (hempty : chains id = [])
    (hidle : ∀ p, s.call p = .idle) : SleepInv L id s := by
  have hcall : ∀ q, (s.view id (chains id)).call q = .idle := hidle
  refine ⟨chains, hlinked, timely_start hempty hcall, .of_idle fun q => ?_⟩
  rw [hcall q]
  rfl

/-- When the bound is raised only while no sender sleeps and the queue is destroyed
only while no call is under way on it, nobody sleeps without reason. -/
theorem sleepers_have_reason {s₀ : MsgState} {run : List (QueueEvent × MsgState)}
    (hid : id < MSGMAX) (hlinked : Linked L id s₀ chains) (hempty : chains id = [])
    (hidle : ∀ p, s₀.call p = .idle) (hrun : IsRun (QueueRunStep L id) s₀ run)
    (hfits : ∀ e ∈ run.map Prod.fst, e.Fits) (hok : Along (KeepsSleepers id) s₀ run) :
    ∀ s ∈ visited s₀ run, OnlySleepers s → SleepsForReason id s := by
  have hcond := (Along.of_labels (s := s₀) hfits).and hok
  have hinv := IsRun.invariant _ (SleepInv L id)
    (fun s e s' hs hok hstep => sleepInv_step hid hs hok.1 hok.2 hstep)
    (sleepInv_start hlinked hempty hidle) hrun hcond
  exact fun s hs => (hinv s hs).reason

/-! ## Three runs -/

/-- The bound is set to nothing, and a process sends. -/
def blocking : List QueueEvent :=
  [.set 0 0 0, .call (.send 1 (plain 1) false), .call (.store 1), .call (.enter 1)]

/-- The sender sleeps on a queue that takes no message. -/
theorem sender_waits_for_room : ∃ s₀ run, IsRun (QueueRunStep smallLayout 1) s₀ run ∧
    run.map Prod.fst = blocking ∧ ((last s₀ run).call 1).sleepsOn .snd = true ∧
    SleepsForReason 1 (last s₀ run) := by
  obtain ⟨s₀, run, hlinked, hidle, hrun, hevents, hok, honly, hasleep⟩ := exists_open_run
    smallLayout 1 (queueSection smallLayout 1) blocking
    (fun s run => Along (KeepsSleepers 1) s run ∧
      OnlySleepers (last s run) ∧ ((last s run).call 1).sleepsOn .snd = true)
    (by decide +kernel)
  have hfits : ∀ e ∈ run.map Prod.fst, e.Fits := by
    rw [hevents]
    simp [blocking, QueueEvent.Fits, MsgEvent.Fits]
  exact ⟨s₀, run, hrun, hevents, hasleep, sleepers_have_reason (by decide) hlinked rfl hidle hrun
    hfits hok _ (last_mem_visited s₀ run) honly⟩

/-- The bound is raised while a sender sleeps; the queue is removed while a receiver
sleeps. -/
theorem sleepers_left_behind :
    (∃ s₀ run, Linked smallLayout 1 s₀ (fun _ => []) ∧ (∀ p, s₀.call p = .idle) ∧
      IsRun (QueueRunStep smallLayout 1) s₀ run ∧
      run.map Prod.fst = blocking ++ [.set 0 8 0] ∧ OnlySleepers (last s₀ run) ∧
      ¬ SleepsForReason 1 (last s₀ run)) ∧
    ∃ s₀ run, Linked smallLayout 1 s₀ (fun _ => []) ∧ (∀ p, s₀.call p = .idle) ∧
      IsRun (QueueRunStep smallLayout 1) s₀ run ∧
      run.map Prod.fst = [.call (.receive 1 0 0 false), .call (.rmid 0)] ∧
      OnlySleepers (last s₀ run) ∧ ¬ SleepsForReason 1 (last s₀ run) := by
  constructor
  · obtain ⟨s₀, run, hlinked, hidle, hrun, hevents, honly, hasleep, hroom⟩ := exists_open_run
      smallLayout 1 (queueSection smallLayout 1) (blocking ++ [.set 0 8 0])
      (fun s run => OnlySleepers (last s run) ∧ ((last s run).call 1).sleepsOn .snd = true ∧
        ((last s run).k.msqid 1).msgCount < ((last s run).k.msqid 1).maxlen)
      (by decide +kernel)
    refine ⟨s₀, run, hlinked, hidle, hrun, hevents, honly, fun hreason => ?_⟩
    cases hcall : (last s₀ run).call 1 with
    | full a asleep seen =>
      rw [hcall] at hasleep
      cases asleep with
      | true => exact absurd (hreason.sender 1 a seen hcall).2 (not_le.mpr hroom)
      | false => cases hasleep
    | empty _ _ asleep _
    | search _ _ asleep _ => cases asleep <;> simp [hcall, MsgCall.sleepsOn] at hasleep
    | _ => simp [hcall, MsgCall.sleepsOn] at hasleep
  · obtain ⟨s₀, run, hlinked, hidle, hrun, hevents, honly, hasleep, hunused⟩ := exists_open_run
      smallLayout 1 (queueSection smallLayout 1) [.call (.receive 1 0 0 false), .call (.rmid 0)]
      (fun s run => OnlySleepers (last s run) ∧ ((last s run).call 1).asleepFor = some 0 ∧
        ((last s run).k.slot (.msq, 1)).state = .UNUSED) (by decide +kernel)
    exact ⟨s₀, run, hlinked, hidle, hrun, hevents, honly, fun hreason =>
      (hreason.receiver 1 0 hasleep).1 hunused⟩

end LearnOS.Ipc
