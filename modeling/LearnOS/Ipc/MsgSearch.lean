import LearnOS.Ipc.MsgQueue

/-!
# Search in an empty queue

`msgrcv` makes sure that the queue is not empty before it enters its search loop,
but it sleeps inside that loop and starts the next round without looking again.

## Main results

`receive_finds_messages`: as long as nobody empties the queue while another
receiver is inside its search loop, every round starts with a message and takes one
out of the queue only if it is there. `drained_before_round` is a run in which a
round starts with an empty queue.
-/

namespace LearnOS.Ipc

open LearnOS Transition LinkedList Function Kres

variable {L : Layout} {id : ℕ} {chains : ℕ → List ℕ} {s s' : MsgState} {e : MsgEvent}
  {p : Fin NPROC}

/-- The wanted type of a receiver that starts a round of its search loop. -/
def roundType (id : ℕ) (s : MsgState) : MsgEvent → Option ℕ
  | .receive p _ msgtype _ =>
    match s.call p with
    | .idle =>
      if (s.k.slot (.msq, id)).state = .UNUSED ∨ (s.k.msqid id).first = NULL then none
      else some msgtype
    | _ => none
  | .resume p =>
    match s.call p with
    | .empty _ msgtype false _ => if (s.k.msqid id).first = NULL then none else some msgtype
    | .search _ msgtype false _ => some msgtype
    | _ => none
  | _ => none

/-- A round starts with a message, and the message that it takes is in the queue. -/
def RoundSafe (id : ℕ) (s : MsgState) (e : MsgEvent) : Prop :=
  ∀ msgtype, roundType id s e = some msgtype → (s.k.msqid id).first ≠ NULL ∧
    ∀ prev, findWanted s.k (s.k.msqid id) msgtype = .ok (some prev) →
      ∃ as, Seg NULL s.k.next (s.k.msqid id).first as NULL ∧ (unlinkMsg id prev s.k).1 ∈ as

def MsgCall.searching : MsgCall → Bool
  | .search .. => true
  | _ => false

/-- The process of an event. -/
def MsgEvent.process : MsgEvent → Fin NPROC
  | .send p _ _ | .store p | .enter p | .receive p _ _ _ | .resume p | .deliver p | .wakeup p
  | .kill p | .get p _ _ _ | .rmid p | .drop p => p

def MsgEvent.isGet : MsgEvent → Bool
  | .get .. => true
  | _ => false

/-- The event leaves an empty queue: the last reference of a zombie goes, or a round
starts at the only message, and wants it. -/
def Empties (id : ℕ) (s : MsgState) (e : MsgEvent) : Prop :=
  (s.view id []).Destroys e ∨ (s.k.msg (s.k.msqid id).first).next = NULL ∧
    ∃ msgtype ∈ roundType id s e, wanted msgtype (s.k.msg (s.k.msqid id).first).content = true

/-- Nobody empties the queue while another receiver is inside its search loop. -/
def SparesSearchers (id : ℕ) (s : MsgState) (e : MsgEvent) : Prop :=
  Empties id s e → ∀ q, (s.call q).searching = true → q = e.process

instance (id : ℕ) (s : MsgState) (e : MsgEvent) : Decidable (Empties id s e) :=
  inferInstanceAs (Decidable (_ ∨ _))

instance (id : ℕ) (s : MsgState) (e : MsgEvent) : Decidable (SparesSearchers id s e) :=
  inferInstanceAs (Decidable (_ → _))

/-! ## The invariant -/

/-- A receiver inside its search loop has a message to look at. -/
def QueueView.Searched (v : QueueView) : Prop := ∀ q, (v.call q).searching = true → v.queue ≠ []

theorem QueueView.Searched.setCall {v : QueueView} {c : MsgCall}
    (h : v.Searched) (hc : c.searching = true → v.queue ≠ []) : (v.setCall p c).Searched := by
  intro q hq
  by_cases hp : q = p
  · subst hp
    exact hc (by simpa [QueueView.setCall] using hq)
  · exact h q (by simpa [QueueView.setCall, hp] using hq)

theorem MsgCall.wake_searching (c : MsgCall) : c.wake.searching = c.searching := by
  cases c <;> rfl

theorem wakeAll_searching (chan : MsgChan) (call : Fin NPROC → MsgCall) (q : Fin NPROC) :
    (wakeAll chan call q).searching = (call q).searching := by
  simp only [wakeAll]
  split
  · exact (call q).wake_searching
  · rfl

theorem QueueView.dropRef_searched {v : QueueView} (h : v.Searched)
    (hidle : v.call p = .idle)
    (hlast : v.state = .ZOMBIE ∧ v.refs - 1 = 0 → ∀ q, (v.call q).searching = true → q = p) :
    (v.dropRef p).Searched := by
  rw [QueueView.dropRef]
  split
  · rename_i hdestroyed
    intro q hq
    obtain rfl := hlast hdestroyed q hq
    rw [show v.call q = _ from hidle] at hq
    cases hq
  · exact h

/-- A step that spares the receivers inside their search loops. -/
theorem QueueStep.searched {bound : ℕ} {v v' : QueueView} (hstep : QueueStep bound v e v')
    (h : v.Searched)
    (hdestroy : v.Destroys e → ∀ q, (v.call q).searching = true → q = e.process)
    (hround : ∀ p msgsz msgtype seen x, v.Searches e p msgsz msgtype seen → v.queue = [x] →
      wanted msgtype (v.content x) = true → ∀ q, (v.call q).searching = true → q = p) :
    v'.Searched := by
  cases hstep with
  | sendRefused => exact h
  | sendChecked _ _ => exact h.setCall (by simp [MsgCall.searching])
  | @store p content nowait seen a _ _ _ =>
    refine QueueView.Searched.setCall (v := { v with
      content := update v.content a content
      stamp := update v.stamp a seen }) h ?_
    split <;> simp [MsgCall.searching]
  | giveUp _ | sleepFull _ _ => exact h.setCall (by simp [MsgCall.searching])
  | link _ =>
    intro q _
    simp [QueueView.setCall]
  | receiveRefused => exact h
  | sleepEmpty _ _ => exact h.setCall (by simp [MsgCall.searching])
  | sleepSearch _ hne _ => exact h.setCall fun _ => hne
  | @take e p msgsz msgtype seen x l₁ l₂ hsearch hqueue _ hx =>
    intro q hq hnil
    have hp : q ≠ p := by
      rintro rfl
      simp [QueueView.setCall, MsgCall.searching] at hq
    obtain ⟨rfl, rfl⟩ := List.append_eq_nil_iff.mp hnil
    refine hp (hround p msgsz msgtype seen x hsearch hqueue hx q ?_)
    simpa [QueueView.setCall, hp] using hq
  | @deliver p node msgsz seen _ =>
    exact QueueView.Searched.setCall (v := { v with
      content := update v.content node ((v.content node).cut msgsz) }) h
      (by simp [MsgCall.searching])
  | @wakeup p chan _ =>
    refine QueueView.Searched.setCall (v := { v with call := wakeAll chan v.call }) ?_
      (by simp [MsgCall.searching])
    intro q hq
    exact h q (by rwa [← wakeAll_searching chan])
  | @kill q => exact h.setCall fun hq => h q (by rwa [← MsgCall.wake_searching])
  | getRefused => exact h
  | getShared _ => exact h
  | getCreated _ => exact h
  | rmidRefused _ => exact h
  | rmidMarked _ _ => exact h
  | @rmid p hidle huse hnode =>
    exact QueueView.dropRef_searched (v := { v with state := .ZOMBIE }) h hidle
      fun hlast => hdestroy ⟨huse, hnode, hlast.2⟩
  | dropNone _ => exact h
  | drop hidle hnode =>
    exact QueueView.dropRef_searched h hidle fun hlast => hdestroy ⟨hlast.1, hnode, hlast.2⟩

theorem roundType_of_searches {msgsz msgtype seen : ℕ} {as : List ℕ}
    (hfirst : (s.k.msqid id).first ≠ NULL)
    (h : (s.view id as).Searches e p msgsz msgtype seen) :
    roundType id s e = some msgtype ∧ e.process = p := by
  rcases h with (⟨nowait, rfl, hcall, huse, -⟩ | ⟨rfl, hcall⟩) | ⟨rfl, hcall⟩
  · have hidle : s.call p = .idle := hcall
    have hnot : ¬ ((s.k.slot (.msq, id)).state = .UNUSED ∨ (s.k.msqid id).first = NULL) :=
      not_or.mpr ⟨huse, hfirst⟩
    exact ⟨by simp only [roundType, hidle, if_neg hnot], rfl⟩
  · have hempty : s.call p = .empty msgsz msgtype false seen := hcall
    exact ⟨by simp only [roundType, hempty, if_neg hfirst], rfl⟩
  · have hsearch : s.call p = .search msgsz msgtype false seen := hcall
    exact ⟨by simp only [roundType, hsearch], rfl⟩

theorem searched_step (hid : id < MSGMAX) (h : Linked L id s chains)
    (hsearched : (s.view id (chains id)).Searched) (hget : e.isGet = false)
    (hspare : SparesSearchers id s e) (hstep : MsgRunStep L id s e s') :
    ∃ as, Linked L id s' (update chains id as) ∧ (s'.view id as).Searched := by
  have hfits : e.Fits := by
    cases e with
    | get => cases hget
    | _ => trivial
  obtain ⟨as, hlinked, hqueue, -⟩ := hstep.simulated hid h hfits
  refine ⟨as, hlinked, QueueStep.searched hqueue hsearched ?_ ?_⟩
  · intro hdestroys
    have hdestroys' : (s.view id []).Destroys e := by
      cases e <;> exact hdestroys
    exact hspare (Or.inl hdestroys')
  · intro p msgsz msgtype seen x hsearch hone hx q hq
    have hchain := h.linked.chain id
    have hseg := hchain.seg
    rw [show chains id = [x] from hone] at hseg
    obtain ⟨hfirst, hne, hnext⟩ := hseg
    have hfirst' : (s.k.msqid id).first = x := hfirst
    obtain ⟨hround, hp⟩ := roundType_of_searches (hfirst' ▸ hne) hsearch
    rw [← hp]
    refine hspare (Or.inr ⟨?_, msgtype, hround, ?_⟩) q hq
    · rw [hfirst']
      exact hnext
    · rw [hfirst']
      exact hx

/-- A round on a queue that is linked and not empty. -/
theorem Linked.roundSafe (h : Linked L id s chains) (hsearched : (s.view id (chains id)).Searched) :
    RoundSafe id s e := by
  intro msgtype hround
  have hchain := h.linked.chain id
  have hne : chains id ≠ [] := by
    intro hnil
    have hfirst := hchain.first_eq_null_iff.mpr hnil
    cases e with
    | receive p _ _ _ =>
      simp only [roundType] at hround
      split at hround
      · rw [if_pos (Or.inr hfirst)] at hround
        cases hround
      · cases hround
    | resume p =>
      simp only [roundType] at hround
      split at hround
      · rw [if_pos hfirst] at hround
        cases hround
      · rename_i hcall
        have hcall' : (s.view id (chains id)).call p = _ := hcall
        exact hsearched p (by rw [hcall']; rfl) hnil
      · cases hround
    | _ => cases hround
  refine ⟨fun hfirst => hne (hchain.first_eq_null_iff.mp hfirst), fun prev hfound => ?_⟩
  obtain ⟨found, hfound', hcases⟩ := findWanted_spec msgtype hchain hne
  rw [hfound, Except.ok.injEq] at hfound'
  subst hfound'
  rcases hcases with ⟨hnone, -⟩ | ⟨l₁, x, l₂, hsplit, -, -, hprev⟩
  · cases hnone
  · cases hprev
    refine ⟨chains id, hchain.seg, ?_⟩
    rw [(unlinkMsg_spec h.linked hsplit).1, hsplit]
    simp

/-- When nobody empties the queue while another receiver is inside its search loop,
every round of every receiver starts with a message and takes one that is in the
queue. -/
theorem receive_finds_messages {s₀ : MsgState} {run : List (MsgEvent × MsgState)}
    (hid : id < MSGMAX) (hlinked : Linked L id s₀ chains) (hidle : ∀ p, s₀.call p = .idle)
    (hrun : IsRun (MsgRunStep L id) s₀ run) (hgets : ∀ e ∈ run.map Prod.fst, e.isGet = false)
    (hspare : Along (SparesSearchers id) s₀ run) :
    ∀ s ∈ visited s₀ run, ∀ e, RoundSafe id s e := by
  have hok := (Along.of_labels (s := s₀) hgets).and hspare
  have hinv := IsRun.invariant _
    (fun s => ∃ chains, Linked L id s chains ∧ (s.view id (chains id)).Searched)
    (fun s e s' hs hok hstep => ?_) ⟨chains, hlinked, ?_⟩ hrun hok
  · intro s hs e
    obtain ⟨chains, hlinked, hsearched⟩ := hinv s hs
    exact hlinked.roundSafe hsearched
  · obtain ⟨chains, hlinked, hsearched⟩ := hs
    obtain ⟨as, hlinked', hsearched'⟩ := searched_step hid hlinked hsearched hok.1 hok.2 hstep
    refine ⟨_, hlinked', ?_⟩
    rwa [update_self]
  · intro q hq
    have hcall : (s₀.view id (chains id)).call q = .idle := hidle q
    rw [hcall] at hq
    cases hq

/-! ## Two runs -/

/-- A message without text. -/
def plain (mtype : ℤ) : MsgBuf := ⟨mtype, 0, fun _ => 0⟩

/-- `msgsnd` of a process that does not have to wait. -/
def sends (p : Fin NPROC) (mtype : ℤ) : List MsgEvent :=
  [.send p (plain mtype) false, .store p, .enter p, .wakeup p]

/-- `msgrcv` of any message by a process that does not have to wait. -/
def receives (p : Fin NPROC) : List MsgEvent := [.receive p 0 0 false, .deliver p, .wakeup p]

/-- A receiver that waits for type 2 inside its search loop is woken by `kill` while
there is still a message. -/
theorem woken_receiver_finds : ∃ s₀ run, IsRun (MsgRunStep smallLayout 1) s₀ run ∧
    run.map Prod.fst = sends 1 1 ++ [.receive 0 0 2 false, .kill 0] ∧
    roundType 1 (last s₀ run) (.resume 0) = some 2 ∧
    ((last s₀ run).k.msqid 1).first ≠ NULL := by
  obtain ⟨s₀, run, hlinked, hidle, hrun, hevents, hok, hround⟩ := exists_open_run smallLayout 1
    (msgSection smallLayout 1) (sends 1 1 ++ [.receive 0 0 2 false, .kill 0])
    (fun s run => Along (SparesSearchers 1) s run ∧
      roundType 1 (last s run) (.resume 0) = some 2) (by decide +kernel)
  have hgets : ∀ e ∈ run.map Prod.fst, e.isGet = false := by
    rw [hevents]
    decide
  have hsafe := receive_finds_messages (by decide) hlinked hidle hrun hgets hok _
    (last_mem_visited s₀ run) (.resume 0)
  exact ⟨s₀, run, hrun, hevents, hround, (hsafe 2 hround).1⟩

/-- The receiver sleeps inside its search loop, another receiver takes the only
message, and the first one is woken by `kill`. -/
theorem drained_before_round : ∃ s₀ run, Linked smallLayout 1 s₀ (fun _ => []) ∧
    (∀ p, s₀.call p = .idle) ∧ IsRun (MsgRunStep smallLayout 1) s₀ run ∧
    run.map Prod.fst = sends 1 1 ++ [.receive 0 0 2 false] ++ receives 2 ++ [.kill 0] ∧
    ¬ RoundSafe 1 (last s₀ run) (.resume 0) := by
  obtain ⟨s₀, run, hlinked, hidle, hrun, hevents, hround, hempty⟩ := exists_open_run smallLayout 1
    (msgSection smallLayout 1) (sends 1 1 ++ [.receive 0 0 2 false] ++ receives 2 ++ [.kill 0])
    (fun s run => roundType 1 (last s run) (.resume 0) = some 2 ∧
      ((last s run).k.msqid 1).first = NULL) (by decide +kernel)
  exact ⟨s₀, run, hlinked, hidle, hrun, hevents, fun hsafe => (hsafe 2 hround).1 hempty⟩

end LearnOS.Ipc
