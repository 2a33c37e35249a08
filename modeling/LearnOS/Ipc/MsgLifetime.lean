import LearnOS.Ipc.MsgSearch

/-!
# Messages and the lifetimes of a queue

A sender checks the slot, lets the lock go to fetch its message, and links the
message without another check. Senders and receivers sleep, too, while the slot is
destroyed and created again under another key.

## Main results

`messages_keep_lifetimes`: when a queue is destroyed only while no call is under
way on it, a free slot has no messages and a message reaches only receivers that
have checked the queue it was sent to. `message_outlives_queue` is a run in which a
message is linked after its queue has been removed. `messages_have_blocks`: even then
no message is freed early or twice.
-/

namespace LearnOS.Ipc

open LearnOS Transition LinkedList Function

variable {L : Layout} {id : ℕ} {chains : ℕ → List ℕ} {s s' : MsgState} {e : MsgEvent}

/-- The creation that the check of a call has seen, from the check to the last time
that the call has the lock. -/
def MsgCall.seen? : MsgCall → Option ℕ
  | .checked _ _ seen | .stored _ _ seen | .full _ _ seen | .empty _ _ _ seen
  | .search _ _ _ seen => some seen
  | .idle | .taken .. | .notify _ => none

/-- What a call knows of the message in its hands. -/
def MsgCall.Stamped (stamp : ℕ → ℕ) : MsgCall → Prop
  | .stored a _ seen | .full a _ seen | .taken a _ seen => stamp a = seen
  | _ => True

/-- A queue is destroyed only while no call is under way on it. -/
def DestroysUnused (id : ℕ) (s : MsgState) (e : MsgEvent) : Prop :=
  (s.view id []).Destroys e → ∀ q, (s.call q).seen? = none

instance (id : ℕ) (s : MsgState) (e : MsgEvent) : Decidable (DestroysUnused id s e) :=
  inferInstanceAs (Decidable (_ → _))

/-! ## The invariant -/

structure QueueView.Timely (v : QueueView) : Prop where
  unused : v.state = .UNUSED → v.queue = [] ∧ ∀ q, (v.call q).seen? = none
  seen : ∀ q n, (v.call q).seen? = some n → n = v.born
  queue : ∀ a ∈ v.queue, v.stamp a = v.born
  stamped : ∀ q, (v.call q).Stamped v.stamp

namespace QueueView.Timely

variable {v : QueueView} {p : Fin NPROC} {c : MsgCall}

theorem setCall (h : v.Timely) (hunused : v.state = .UNUSED → c.seen? = none)
    (hseen : ∀ n, c.seen? = some n → n = v.born) (hc : c.Stamped v.stamp) :
    (v.setCall p c).Timely where
  unused hstate := by
    refine ⟨(h.unused hstate).1, fun q => ?_⟩
    by_cases hq : q = p
    · subst hq
      simpa [QueueView.setCall] using hunused hstate
    · simpa [QueueView.setCall, hq] using (h.unused hstate).2 q
  seen q n hn := by
    by_cases hq : q = p
    · subst hq
      exact hseen n (by simpa [QueueView.setCall] using hn)
    · exact h.seen q n (by simpa [QueueView.setCall, hq] using hn)
  queue := h.queue
  stamped q := by
    by_cases hq : q = p
    · subst hq
      simpa [QueueView.setCall] using hc
    · simpa [QueueView.setCall, hq] using h.stamped q

/-- The call goes on with what it has seen. -/
theorem setCall_same (h : v.Timely) (hseen : c.seen? = (v.call p).seen?)
    (hc : c.Stamped v.stamp) : (v.setCall p c).Timely :=
  h.setCall (fun hstate => hseen.trans ((h.unused hstate).2 p))
    (fun n hn => h.seen p n (hseen ▸ hn)) hc

/-- The call is over, or has given the lock back for the last time. -/
theorem setCall_done (h : v.Timely) (hseen : c.seen? = none) (hc : c.Stamped v.stamp) :
    (v.setCall p c).Timely :=
  h.setCall (fun _ => hseen) (fun n hn => by rw [hseen] at hn; cases hn) hc

/-- A call has checked the queue that is there now. -/
theorem setCall_checked (h : v.Timely) (huse : v.state ≠ .UNUSED) (hseen : c.seen? = some v.born)
    (hc : c.Stamped v.stamp) : (v.setCall p c).Timely :=
  h.setCall (fun hstate => absurd hstate huse)
    (fun _ hn => Option.some.inj (hn.symm.trans hseen)) hc

theorem used_of_seen {n : ℕ} (h : v.Timely) (hn : (v.call p).seen? = some n) :
    v.state ≠ .UNUSED := by
  intro hstate
  have hnone := (h.unused hstate).2 p
  rw [hn] at hnone
  cases hnone

theorem sends {a seen : ℕ} (h : v.Timely) (hsend : v.Sends e p a seen) :
    (v.call p).seen? = some seen ∧ v.stamp a = seen := by
  have hstamped := h.stamped p
  rcases hsend with ⟨nowait, -, hcall⟩ | ⟨-, hcall⟩
  · rw [hcall] at hstamped ⊢
    exact ⟨rfl, hstamped⟩
  · rw [hcall] at hstamped ⊢
    exact ⟨rfl, hstamped⟩

theorem arrives {msgsz msgtype seen : ℕ} (h : v.Timely)
    (harrive : v.Arrives e p msgsz msgtype seen) : v.state ≠ .UNUSED ∧ seen = v.born := by
  rcases harrive with ⟨nowait, -, -, huse, hseen⟩ | ⟨-, hcall⟩
  · exact ⟨huse, hseen⟩
  · have hn : (v.call p).seen? = some seen := congrArg MsgCall.seen? hcall
    exact ⟨h.used_of_seen hn, h.seen p seen hn⟩

theorem searches {msgsz msgtype seen : ℕ} (h : v.Timely)
    (hsearch : v.Searches e p msgsz msgtype seen) : v.state ≠ .UNUSED ∧ seen = v.born := by
  rcases hsearch with harrive | ⟨-, hcall⟩
  · exact h.arrives harrive
  · have hn : (v.call p).seen? = some seen := congrArg MsgCall.seen? hcall
    exact ⟨h.used_of_seen hn, h.seen p seen hn⟩

theorem dropRef (h : v.Timely)
    (hlast : v.state = .ZOMBIE ∧ v.refs - 1 = 0 → ∀ q, (v.call q).seen? = none) :
    (v.dropRef p).Timely := by
  rw [QueueView.dropRef]
  split
  · rename_i hdestroyed
    exact ⟨fun _ => ⟨rfl, hlast hdestroyed⟩, h.seen, by simp, h.stamped⟩
  · exact ⟨h.unused, h.seen, h.queue, h.stamped⟩

end QueueView.Timely

theorem MsgCall.wake_seen (c : MsgCall) : c.wake.seen? = c.seen? := by
  cases c <;> rfl

theorem MsgCall.Stamped.wake {stamp : ℕ → ℕ} {c : MsgCall} (h : c.Stamped stamp) :
    c.wake.Stamped stamp := by
  cases c <;> exact h

/-- A message that a call does not hold gets a new stamp. -/
theorem MsgCall.Stamped.update {stamp : ℕ → ℕ} {c : MsgCall} {a seen : ℕ} (h : c.Stamped stamp)
    (ha : a ∉ c.message) : c.Stamped (update stamp a seen) := by
  have hne : ∀ b, b ∈ c.message → Function.update stamp a seen b = stamp b := by
    intro b hb
    refine update_of_ne ?_ _ _
    rintro rfl
    exact ha hb
  cases c with
  | stored b nowait n | full b asleep n
  | taken b msgsz n => exact (hne b (Multiset.mem_singleton_self b)).trans h
  | _ => trivial

namespace QueueView.Timely

variable {v : QueueView} {p : Fin NPROC} {a seen : ℕ}

/-- A block that nobody has becomes a message. -/
theorem store (h : v.Timely) (content : MsgBuf) (seen : ℕ) (hqueue : a ∉ v.queue)
    (hcalls : ∀ q, a ∉ (v.call q).message) :
    QueueView.Timely { v with
      content := update v.content a content
      stamp := update v.stamp a seen } := by
  refine ⟨h.unused, h.seen, fun b hb => ?_, fun q => (h.stamped q).update (hcalls q)⟩
  refine (update_of_ne ?_ _ _).trans (h.queue b hb)
  rintro rfl
  exact hqueue hb

/-- A call that has checked the queue links its message. -/
theorem link (h : v.Timely) (hsend : v.Sends e p a seen) :
    QueueView.Timely { v with queue := v.queue ++ [a] } := by
  obtain ⟨hn, hstamp⟩ := h.sends hsend
  refine ⟨fun hstate => absurd hstate (h.used_of_seen hn), h.seen, fun b hb => ?_, h.stamped⟩
  rcases List.mem_append.mp hb with hb | hb
  · exact h.queue b hb
  · rw [List.mem_singleton.mp hb]
    exact hstamp.trans (h.seen p seen hn)

theorem unlink {l₁ l₂ : List ℕ} (h : v.Timely) (huse : v.state ≠ .UNUSED)
    (hqueue : v.queue = l₁ ++ a :: l₂) : QueueView.Timely { v with queue := l₁ ++ l₂ } := by
  refine ⟨fun hstate => absurd hstate huse, h.seen, fun b hb => h.queue b ?_, h.stamped⟩
  rw [hqueue]
  exact ((List.sublist_cons_self a l₂).append_left l₁).subset hb

theorem wakeAll (h : v.Timely) (chan : MsgChan) :
    QueueView.Timely { v with call := Ipc.wakeAll chan v.call } := by
  have hwoken : ∀ q, (Ipc.wakeAll chan v.call q).seen? = (v.call q).seen? ∧
      (Ipc.wakeAll chan v.call q).Stamped v.stamp := by
    intro q
    simp only [Ipc.wakeAll]
    split
    · exact ⟨(v.call q).wake_seen, (h.stamped q).wake⟩
    · exact ⟨rfl, h.stamped q⟩
  refine ⟨fun hstate => ⟨(h.unused hstate).1, fun q => ?_⟩, fun q n hn => ?_, h.queue,
    fun q => (hwoken q).2⟩
  · exact (hwoken q).1.trans ((h.unused hstate).2 q)
  · exact h.seen q n ((hwoken q).1 ▸ hn)

end QueueView.Timely

theorem QueueStep.timely {bound : ℕ} {v v' : QueueView} (hstep : QueueStep bound v e v')
    (h : v.Timely) (hdestroy : v.Destroys e → ∀ q, (v.call q).seen? = none) : v'.Timely := by
  cases hstep with
  | sendRefused | receiveRefused | getRefused | rmidRefused _ | dropNone _ => exact h
  | sendChecked _ huse => exact h.setCall_checked huse rfl trivial
  | @store p content nowait seen a hcall hqueue hcalls =>
    have hn : (v.call p).seen? = some seen := congrArg MsgCall.seen? hcall
    have hstored := h.store content seen hqueue hcalls
    split
    · exact hstored.setCall_done rfl trivial
    · refine hstored.setCall_same hn.symm ?_
      exact update_self a seen v.stamp
  | giveUp _ => exact h.setCall_done rfl trivial
  | sleepFull hsend _ =>
    obtain ⟨hn, hstamp⟩ := h.sends hsend
    exact h.setCall_same hn.symm hstamp
  | link hsend => exact (h.link hsend).setCall_done rfl trivial
  | sleepEmpty harrive _ =>
    obtain ⟨huse, rfl⟩ := h.arrives harrive
    exact h.setCall_checked huse rfl trivial
  | sleepSearch hsearch _ _ =>
    obtain ⟨huse, rfl⟩ := h.searches hsearch
    exact h.setCall_checked huse rfl trivial
  | @take e p msgsz msgtype seen x l₁ l₂ hsearch hqueue _ _ =>
    obtain ⟨huse, rfl⟩ := h.searches hsearch
    refine (h.unlink huse hqueue).setCall_done rfl (h.queue x ?_)
    rw [hqueue]
    simp
  | @deliver p node msgsz seen _ =>
    have hcut : QueueView.Timely { v with
        content := update v.content node ((v.content node).cut msgsz) } :=
      ⟨h.unused, h.seen, h.queue, h.stamped⟩
    exact hcut.setCall_done rfl trivial
  | @wakeup p chan _ => exact (h.wakeAll chan).setCall_done rfl trivial
  | @kill q => exact h.setCall_same (v.call q).wake_seen (h.stamped q).wake
  | getShared _ => exact ⟨h.unused, h.seen, h.queue, h.stamped⟩
  | getCreated hfree =>
    obtain ⟨hempty, hnone⟩ := h.unused hfree
    refine ⟨fun hu => (by cases hu), fun q n hn => ?_, fun a ha => ?_, h.stamped⟩
    · cases hn.symm.trans (hnone q)
    · exact absurd (hempty ▸ ha : a ∈ []) List.not_mem_nil
  | rmidMarked _ _ => exact ⟨by simp, h.seen, h.queue, h.stamped⟩
  | @rmid p _ huse hnode =>
    have hmarked : QueueView.Timely { v with state := .ZOMBIE } :=
      ⟨by simp, h.seen, h.queue, h.stamped⟩
    exact hmarked.dropRef fun hlast => hdestroy ⟨huse, hnode, hlast.2⟩
  | drop _ hnode => exact h.dropRef fun hlast => hdestroy ⟨hlast.1, hnode, hlast.2⟩

/-! ## Runs -/

/-- A free slot has no messages, and the message that a receiver has taken was sent
to the queue that the receiver has checked. -/
structure LifetimesKept (id : ℕ) (s : MsgState) : Prop where
  unused : (s.k.slot (.msq, id)).state = .UNUSED →
    (s.k.msqid id).first = NULL ∧ (s.k.msqid id).msgCount = 0
  received : ∀ p node msgsz seen, s.call p = .taken node msgsz seen → s.stamp node = seen

theorem Linked.lifetimesKept (h : Linked L id s chains) (ht : (s.view id (chains id)).Timely) :
    LifetimesKept id s where
  unused hstate := by
    have hchain := h.linked.chain id
    have hempty : chains id = [] := (ht.unused hstate).1
    refine ⟨hchain.first_eq_null_iff.mpr hempty, ?_⟩
    rw [hchain.count, hempty]
    rfl
  received p node msgsz seen hcall := by
    have hstamped := ht.stamped p
    rw [show (s.view id (chains id)).call p = _ from hcall] at hstamped
    exact hstamped

theorem timely_step (hid : id < MSGMAX) (h : Linked L id s chains)
    (ht : (s.view id (chains id)).Timely) (hfits : e.Fits) (hok : DestroysUnused id s e)
    (hstep : MsgRunStep L id s e s') :
    ∃ as, Linked L id s' (update chains id as) ∧ (s'.view id as).Timely := by
  obtain ⟨as, hlinked, hqueue, -⟩ := hstep.simulated hid h hfits
  refine ⟨as, hlinked, QueueStep.timely hqueue ht fun hdestroys => ?_⟩
  have hdestroys' : (s.view id []).Destroys e := by
    cases e <;> exact hdestroys
  exact hok hdestroys'

theorem timely_start {v : QueueView} (hempty : v.queue = []) (hidle : ∀ q, v.call q = .idle) :
    v.Timely := by
  refine ⟨fun _ => ⟨hempty, fun q => ?_⟩, fun q n hn => ?_, fun a ha => ?_, fun q => ?_⟩
  · rw [hidle q]
    rfl
  · rw [hidle q] at hn
    cases hn
  · rw [hempty] at ha
    cases ha
  · rw [hidle q]
    trivial

/-- When a queue is destroyed only while no call is under way on it, messages stay
within the lifetime of the queue they were sent to. -/
theorem messages_keep_lifetimes {s₀ : MsgState} {run : List (MsgEvent × MsgState)}
    (hid : id < MSGMAX) (hlinked : Linked L id s₀ chains) (hempty : chains id = [])
    (hidle : ∀ p, s₀.call p = .idle) (hrun : IsRun (MsgRunStep L id) s₀ run)
    (hfits : ∀ e ∈ run.map Prod.fst, e.Fits) (hok : Along (DestroysUnused id) s₀ run) :
    ∀ s ∈ visited s₀ run, LifetimesKept id s := by
  have hcond := (Along.of_labels (s := s₀) hfits).and hok
  have hstart : (s₀.view id (chains id)).Timely := timely_start hempty hidle
  have hinv := IsRun.invariant _
    (fun s => ∃ chains, Linked L id s chains ∧ (s.view id (chains id)).Timely)
    (fun s e s' hs hok hstep => ?_) ⟨chains, hlinked, hstart⟩ hrun hcond
  · intro s hs
    obtain ⟨chains, hlinked, ht⟩ := hinv s hs
    exact hlinked.lifetimesKept ht
  · obtain ⟨chains, hlinked, ht⟩ := hs
    obtain ⟨as, hlinked', ht'⟩ := timely_step hid hlinked ht hok.1 hok.2 hstep
    refine ⟨_, hlinked', ?_⟩
    rwa [update_self]

/-! ## Two runs -/

/-- A message is sent and received while the queue exists. -/
theorem message_received_in_time : ∃ s₀ run, IsRun (MsgRunStep smallLayout 1) s₀ run ∧
    run.map Prod.fst = sends 1 1 ++ [.receive 2 0 0 false] ∧ LifetimesKept 1 (last s₀ run) := by
  obtain ⟨s₀, run, hlinked, hidle, hrun, hevents, hok⟩ := exists_open_run smallLayout 1
    (msgSection smallLayout 1) (sends 1 1 ++ [.receive 2 0 0 false]) (Along (DestroysUnused 1))
    (by decide +kernel)
  have hfits : ∀ e ∈ run.map Prod.fst, e.Fits := by
    rw [hevents]
    simp [sends, MsgEvent.Fits]
  exact ⟨s₀, run, hrun, hevents, messages_keep_lifetimes (by decide) hlinked rfl hidle hrun hfits
    hok _ (last_mem_visited s₀ run)⟩

/-- The queue is removed between the check and the rest of a send. -/
def outliving : List MsgEvent :=
  [.send 1 (plain 1) false, .rmid 0, .store 1, .enter 1]

/-- The message is linked into the free slot, where the next queue to be created
there finds it. -/
theorem message_outlives_queue : ∃ s₀ run, Linked smallLayout 1 s₀ (fun _ => []) ∧
    (∀ p, s₀.call p = .idle) ∧ IsRun (MsgRunStep smallLayout 1) s₀ run ∧
    run.map Prod.fst = outliving ∧ ¬ LifetimesKept 1 (last s₀ run) := by
  obtain ⟨s₀, run, hlinked, hidle, hrun, hevents, hunused, hfirst⟩ := exists_open_run smallLayout 1
    (msgSection smallLayout 1) outliving
    (fun s run => ((last s run).k.slot (.msq, 1)).state = .UNUSED ∧
      ((last s run).k.msqid 1).first ≠ NULL) (by decide +kernel)
  exact ⟨s₀, run, hlinked, hidle, hrun, hevents, fun hkept => hfirst (hkept.unused hunused).1⟩

/-! ## The blocks of messages -/

/-- The messages in the queues and in the hands of calls. -/
def MsgState.messages (s : MsgState) (chains : ℕ → List ℕ) : Multiset ℕ :=
  ∑ i ∈ Finset.range MSGMAX, (chains i : Multiset ℕ) + ∑ q, (s.call q).message

/-- Every queue is a list with its count, and each message has a block of its own that has
not been freed and can be. -/
structure MessagesSound (L : Layout) (s : MsgState) (chains : ℕ → List ℕ) : Prop where
  linked : ∀ i, Seg NULL s.k.next (s.k.msqid i).first (chains i) NULL
  count : ∀ i, (s.k.msqid i).msgCount = (chains i).length
  once : (s.messages chains).Nodup
  live : Owns L s.k (msgBlocks (s.messages chains))
  freed : ∀ a ∈ s.messages chains, ∃ k', s.k.kmfree L a 512 = .ok k'

theorem Linked.sound (h : Linked L id s chains) : MessagesSound L s chains := by
  have hlive : Owns L s.k (msgBlocks (s.messages chains)) := by
    refine h.owns.mono ?_
    rw [MsgState.messages, msgBlocks_add, owned]
    exact Multiset.le_add_right _ _
  refine ⟨fun i => (h.linked.chain i).seg, fun i => (h.linked.chain i).count,
    Multiset.Nodup.of_map _ hlive.nodup, hlive, fun a ha => ?_⟩
  obtain ⟨B, hB⟩ := Multiset.exists_cons_of_mem (Multiset.mem_map_of_mem (fun a => (a, 512)) ha)
  rw [msgBlocks, hB] at hlive
  exact hlive.kmfree_returns (by decide)

/-- However the sections of senders, receivers and removals follow each other, no message
is freed while a queue or a call has it, and no two of them have the same one. -/
theorem messages_have_blocks {s₀ : MsgState} {run : List (MsgEvent × MsgState)}
    (hid : id < MSGMAX) (hlinked : Linked L id s₀ chains) (hrun : IsRun (MsgRunStep L id) s₀ run)
    (hfits : ∀ e ∈ run.map Prod.fst, e.Fits) :
    ∀ s ∈ visited s₀ run, ∃ chains, MessagesSound L s chains := by
  have hinv := IsRun.invariant _ (fun s => ∃ chains, Linked L id s chains)
    (fun s e s' hs hfits hstep => ?_) ⟨chains, hlinked⟩ hrun (Along.of_labels hfits)
  · intro s hs
    obtain ⟨chains, hlinked⟩ := hinv s hs
    exact ⟨chains, hlinked.sound⟩
  · obtain ⟨chains, hlinked⟩ := hs
    obtain ⟨as, hlinked', -⟩ := hstep.simulated hid hlinked hfits
    exact ⟨_, hlinked'⟩

/-- The message that outlives its queue still has its block. -/
theorem outliving_message_has_block : ∃ s₀ run, IsRun (MsgRunStep smallLayout 1) s₀ run ∧
    run.map Prod.fst = outliving ∧ ((last s₀ run).k.msqid 1).first ≠ NULL ∧
    ∃ chains, MessagesSound smallLayout (last s₀ run) chains := by
  obtain ⟨s₀, run, hlinked, -, hrun, hevents, hfirst⟩ := exists_open_run smallLayout 1
    (msgSection smallLayout 1) outliving (fun s run => ((last s run).k.msqid 1).first ≠ NULL)
    (by decide +kernel)
  have hfits : ∀ e ∈ run.map Prod.fst, e.Fits := by
    rw [hevents]
    simp [outliving, MsgEvent.Fits]
  exact ⟨s₀, run, hrun, hevents, hfirst,
    messages_have_blocks (by decide) hlinked hrun hfits _ (last_mem_visited s₀ run)⟩

end LearnOS.Ipc
