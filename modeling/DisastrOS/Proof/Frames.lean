import DisastrOS.Proof.Schedule

/-!
# What the calls leave alone

`skeleton s` is the state without messages, user memory, answers and family bookkeeping: what the
lists of processes and the resources depend on. `Quiet s s'` says that the two have the same
skeleton. The calls on queues and the exit of a process are taken apart into quiet changes and moves
of processes between lists (`Serves`, `Blocks`, `mqSend_cases`, `mqDestroy_cases`, `exit_cases`, ...),
in any state, so that an invariant weaker than that of the undisturbed kernel can be carried over
them.
-/

namespace DisastrOS

open Lib State

/-! ## The skeleton -/

def PCB.bare (a : PCB) : PCB :=
  { a with returnValue := 0, signals := 0, signalsMask := 0, children := [], syscallRetvalue := 0 }

def MessageQueue.bare (mq : MessageQueue) : MessageQueue :=
  { mq with messages := [], currentMessages := 0, status := .open }

def skeleton (s : State) : State :=
  { s with
    pcbs := fun p => (s.pcbs p).bare, queues := fun q => (s.queues q).bare
    pcbPtrPool := .init 0, timerPool := .init 0, messagePool := .init 0
    mem := fun _ => 0, history := [] }

/-- `s'` has the skeleton of `s`. -/
def Quiet (s s' : State) : Prop := skeleton s' = skeleton s

section
variable {s s' s'' : State} {L : PcbList} {p q r : PcbRef} {ps : List PcbRef} {m : Message}

namespace Quiet

theorem refl (s : State) : Quiet s s := rfl

theorem trans (h : Quiet s s') (h' : Quiet s' s'') : Quiet s s'' := Eq.trans h' h

theorem bare (h : Quiet s s') (p : PcbRef) : (s'.pcbs p).bare = (s.pcbs p).bare :=
  congrFun (congrArg State.pcbs h) p

theorem queue (h : Quiet s s') (q : QueueRef) : (s'.queues q).bare = (s.queues q).bare :=
  congrFun (congrArg State.queues h) q

theorem status (h : Quiet s s') (p : PcbRef) : (s'.pcbs p).status = (s.pcbs p).status :=
  (congrArg PCB.status (h.bare p) :)
theorem syscallNum (h : Quiet s s') (p : PcbRef) :
    (s'.pcbs p).syscallNum = (s.pcbs p).syscallNum := (congrArg PCB.syscallNum (h.bare p) :)
theorem syscallArgs (h : Quiet s s') (p : PcbRef) :
    (s'.pcbs p).syscallArgs = (s.pcbs p).syscallArgs := (congrArg PCB.syscallArgs (h.bare p) :)
theorem pid (h : Quiet s s') (p : PcbRef) : (s'.pcbs p).pid = (s.pcbs p).pid :=
  (congrArg PCB.pid (h.bare p) :)
theorem parent (h : Quiet s s') (p : PcbRef) : (s'.pcbs p).parent = (s.pcbs p).parent :=
  (congrArg PCB.parent (h.bare p) :)
theorem descriptors (h : Quiet s s') (p : PcbRef) :
    (s'.pcbs p).descriptors = (s.pcbs p).descriptors := (congrArg PCB.descriptors (h.bare p) :)
theorem lastFd (h : Quiet s s') (p : PcbRef) : (s'.pcbs p).lastFd = (s.pcbs p).lastFd :=
  (congrArg PCB.lastFd (h.bare p) :)

theorem running (h : Quiet s s') : s'.running = s.running := (congrArg State.running h :)
theorem lastPid (h : Quiet s s') : s'.lastPid = s.lastPid := (congrArg State.lastPid h :)
theorem time (h : Quiet s s') : s'.time = s.time := (congrArg State.time h :)
theorem timerList (h : Quiet s s') : s'.timerList = s.timerList := (congrArg State.timerList h :)
theorem pcbPool (h : Quiet s s') : s'.pcbPool = s.pcbPool := (congrArg State.pcbPool h :)
theorem queuePool (h : Quiet s s') : s'.queuePool = s.queuePool := (congrArg State.queuePool h :)
theorem resourcePool (h : Quiet s s') : s'.resourcePool = s.resourcePool :=
  (congrArg State.resourcePool h :)
theorem descriptorPool (h : Quiet s s') : s'.descriptorPool = s.descriptorPool :=
  (congrArg State.descriptorPool h :)
theorem descriptorPtrPool (h : Quiet s s') : s'.descriptorPtrPool = s.descriptorPtrPool :=
  (congrArg State.descriptorPtrPool h :)
theorem resourcesList (h : Quiet s s') : s'.resourcesList = s.resourcesList :=
  (congrArg State.resourcesList h :)
theorem resources (h : Quiet s s') : s'.resources = s.resources := (congrArg State.resources h :)

theorem list (h : Quiet s s') (L : PcbList) : s'.list L = s.list L := by
  cases L with
  | receivers q => exact (congrArg MessageQueue.waitingReceivers (h.queue q) :)
  | senders q => exact (congrArg MessageQueue.waitingSenders (h.queue q) :)
  | ready => exact (congrArg State.readyList h :)
  | waiting => exact (congrArg State.waitingList h :)
  | zombie => exact (congrArg State.zombieList h :)

theorem alloc (h : Quiet s s') : s'.Alloc p ↔ s.Alloc p := by
  unfold State.Alloc; rw [h.pcbPool]

theorem queueId (h : Quiet s s') (q : QueueRef) : (s'.queues q).queueId = (s.queues q).queueId :=
  (congrArg MessageQueue.queueId (h.queue q) :)

theorem resource (h : Quiet s s') (r : ResourceRef) : s'.resource r = s.resource r := by
  cases r with
  | generic i => exact congrFun h.resources i
  | queue q => exact (congrArg MessageQueue.resource (h.queue q) :)

/-! ## Quiet operations -/

theorem ofPcbs {g : PcbRef → PCB} (h : ∀ p, (g p).bare = (s.pcbs p).bare) :
    Quiet s { s with pcbs := g } :=
  congrArg (fun g : PcbRef → PCB => ({ skeleton s with pcbs := g } : State)) (funext h)

theorem ofQueues {g : QueueRef → MessageQueue} (h : ∀ q, (g q).bare = (s.queues q).bare) :
    Quiet s { s with queues := g } :=
  congrArg (fun g : QueueRef → MessageQueue => ({ skeleton s with queues := g } : State)) (funext h)

theorem record (s : State) (a : Act) : Quiet s (s.record a) := rfl

theorem setRetvalue (s : State) (p : PcbRef) (r : Int) : Quiet s (s.setRetvalue p r) :=
  (ofPcbs (g := fun i =>
    if i = p then { s.pcbs i with syscallRetvalue := r } else s.pcbs i) fun i => by
      split <;> rfl).trans (record _ (.retval (s.pcbs p).call r))

theorem setChildren (s : State) (p : PcbRef) (cs : List PCBPtr) : Quiet s (s.setChildren p cs) :=
  ofPcbs fun i => by split <;> rfl

theorem signal (s : State) (p : PcbRef) (sig : BitVec 32) : Quiet s (s.signal p sig) :=
  ofPcbs fun i => by split <;> rfl

theorem updPcb {f : PCB → PCB} (h : ∀ a, (f a).bare = a.bare) : Quiet s (s.updPcb p f) :=
  ofPcbs fun i => by split <;> simp [h]

theorem updQueue {q : QueueRef} {f : MessageQueue → MessageQueue} (h : ∀ a, (f a).bare = a.bare) :
    Quiet s (s.updQueue q f) :=
  ofQueues fun i => by split <;> simp [h]

theorem messageFree (s : State) (m : Message) : Quiet s (messageFree s m) := rfl
theorem deliver (s : State) (p : PcbRef) (buffer : Int) (m : Message) :
    Quiet s (deliver s p buffer m) := rfl

theorem pushMessage (s : State) (q : QueueRef) (m : Message) : Quiet s (pushMessage s q m) :=
  (updQueue (q := q) (f := fun mq => { mq with
    messages := mq.messages ++ [m], currentMessages := mq.currentMessages + 1 }) fun _ => rfl).trans
    (record _ _)

theorem setMqStatus (s : State) (q : QueueRef) (st : MQStatus) : Quiet s (setMqStatus s q st) :=
  updQueue fun _ => rfl

theorem popMessage {q : QueueRef} (h : popMessage s q p = .ok (m, s')) : Quiet s s' := by
  unfold DisastrOS.popMessage at h
  split at h
  · cases h
  · rename_i ms _
    cases h
    exact (updQueue (q := q) (f := fun mq => { mq with
      messages := ms, currentMessages := mq.currentMessages - 1 }) fun _ => rfl).trans (record _ _)

theorem messageAlloc {size : Int} (h : messageAlloc s size = some (m, s')) : Quiet s s' := by
  unfold DisastrOS.messageAlloc at h
  split at h
  · cases h
  · split at h <;> cases h
    rfl

theorem storeResult (s : State) (result v : Int) : Quiet s (storeResult s result v) := by
  unfold DisastrOS.storeResult
  split <;> rfl

theorem freeMessages (q : QueueRef) : ∀ (ms : List Message) (s : State),
    Quiet s (freeMessages q ms s)
  | [], s => refl s
  | _ :: ms, _ => (updQueue (q := q) (f := ({ · with messages := ms })) fun _ => rfl).trans
      (freeMessages q ms _)

theorem pcbPtrAlloc {e : PCBPtr} (h : pcbPtrAlloc s p = some (e, s')) : Quiet s s' := by
  unfold DisastrOS.pcbPtrAlloc at h
  split at h <;> cases h
  rfl

theorem pcbPtrFree (s : State) (e : PCBPtr) : Quiet s (pcbPtrFree s e) := rfl

theorem reparentChildren : ∀ (fuel : Nat) {s s' : State}, reparentChildren fuel s = .ok s' →
    Quiet s s'
  | 0, _, _, h => by cases h
  | fuel + 1, s, s', h => by
    rw [DisastrOS.reparentChildren] at h
    split at h
    · cases h
      exact refl s
    · exact ((setChildren _ _ _).trans ((setChildren _ _ _).trans (signal _ _ _))).trans
        (reparentChildren fuel h)

end Quiet

/-! ## Queues -/

/-- The first process of list `L` is made ready. -/
def Wakes (L : PcbList) (s s' : State) : Prop :=
  ∃ p ps s₁, s.list L = p :: ps ∧ Quiet (s.setList L ps) s₁ ∧
    (s₁.setStatus p .ready).listInsertLast .ready p = .ok s'

/-- Nothing happens but quiet changes, and perhaps the first process of `L` is made ready. -/
def Serves (L : PcbList) (s s' : State) : Prop :=
  ∃ s₁ s₂, Quiet s s₁ ∧ (s₂ = s₁ ∨ Wakes L s₁ s₂) ∧ Quiet s₂ s'

/-- The running process goes to list `L`, and leaves it again if nobody can run instead. If the
scheduler comes back to it, the call goes on. -/
def Blocks (L L' : PcbList) (s s' : State) : Prop :=
  ∃ s₁ s₂, (s.setStatus s.running .waiting).listInsertLast L s.running = .ok s₁ ∧
    internalSchedule s₁ = .ok s₂ ∧
    (s₂.running ≠ s.running ∧ s' = s₂ ∨
      s₂.running = s.running ∧ (s₂.pcbs s.running).status = .waiting ∧
        (∃ s₃, s₂.listDetach L s.running = .ok s₃ ∧
          Quiet (s₃.setStatus s.running .running) s') ∨
      s₂.running = s.running ∧ (s₂.pcbs s.running).status ≠ .waiting ∧ Serves L' s₂ s')

theorem Serves.quiet (h : Quiet s s') : Serves L s s' := ⟨s', s', h, .inl rfl, .refl s'⟩

/-- An insertion that is refused changes nothing. -/
theorem listInsert_cases (h : s.listInsert L p ps = .ok s') : s' = s ∨ s' = s.setList L ps := by
  unfold State.listInsert at h
  split at h
  · cases h
    exact .inl rfl
  split at h <;> cases h
  exact .inr rfl

theorem listInsert_pcbs (h : s.listInsert L p ps = .ok s') : s'.pcbs = s.pcbs := by
  rcases listInsert_cases h with rfl | rfl
  exacts [rfl, setList_pcbs]

theorem listInsert_timerList (h : s.listInsert L p ps = .ok s') : s'.timerList = s.timerList := by
  rcases listInsert_cases h with rfl | rfl
  exacts [rfl, setList_timerList]

theorem listInsert_pcbPool (h : s.listInsert L p ps = .ok s') : s'.pcbPool = s.pcbPool := by
  rcases listInsert_cases h with rfl | rfl
  exacts [rfl, setList_pcbPool]

theorem listDetach_pcbPool (h : s.listDetach L p = .ok s') : s'.pcbPool = s.pcbPool := by
  obtain ⟨-, rfl⟩ := listDetach_cases h
  exact setList_pcbPool

/-- An insertion elsewhere leaves the ready list as it is. -/
theorem listInsert_readyList (h : s.listInsert L p ps = .ok s') (hL : L ≠ .ready) :
    s'.readyList = s.readyList := by
  rcases listInsert_cases h with rfl | rfl
  · rfl
  · exact (list_setList_of_ne hL.symm : (s.setList L ps).list .ready = s.list .ready)

theorem listDetachFirst_cases (h : s.listDetachFirst L = .ok (p, s')) :
    ∃ ps, s.list L = p :: ps ∧ s' = s.setList L ps := by
  unfold State.listDetachFirst at h
  split at h
  · cases h
  · rename_i ps hL
    cases h
    exact ⟨ps, hL, rfl⟩

theorem handOff_cases (h : handOff s q = .ok s') : Wakes (.receivers q) s s' := by
  unfold handOff at h
  obtain ⟨⟨p, s₁⟩, h₁, h⟩ := bind_eq_ok.1 h
  obtain ⟨ps, hL, rfl⟩ := listDetachFirst_cases h₁
  obtain ⟨⟨m, s₂⟩, h₂, h⟩ := bind_eq_ok.1 h
  refine ⟨p, ps, _, hL, (Quiet.popMessage h₂).trans ?_, h⟩
  split
  · exact (Quiet.setRetvalue _ _ _).trans (.messageFree _ _)
  · exact (Quiet.deliver _ _ _ _).trans ((Quiet.setRetvalue _ _ _).trans (.messageFree _ _))

theorem mqSendEnqueue_cases {buffer size : Int} (h : mqSendEnqueue s p q buffer size = .ok s') :
    Serves (.receivers q) s s' := by
  unfold mqSendEnqueue at h
  split at h
  · cases h
    exact .quiet ((Quiet.record _ _).trans (.setRetvalue _ _ _))
  · rename_i m s₁ hm
    have h₁ := (Quiet.messageAlloc hm).trans (.pushMessage s₁ q (m.fill s₁ p buffer))
    dsimp only at h
    split at h
    · obtain ⟨s₂, h₂, h⟩ := bind_eq_ok.1 h
      cases h
      exact ⟨_, s₂, h₁, .inr (handOff_cases h₂), .setRetvalue _ _ _⟩
    · cases h
      exact .quiet (h₁.trans (.setRetvalue _ _ _))

theorem completeSend_cases (h : completeSend s q = .ok s') : Wakes (.senders q) s s' := by
  unfold completeSend at h
  obtain ⟨⟨p, s₁⟩, h₁, h⟩ := bind_eq_ok.1 h
  obtain ⟨ps, hL, rfl⟩ := listDetachFirst_cases h₁
  refine ⟨p, ps, _, hL, ?_, h⟩
  split
  · exact (Quiet.record _ _).trans (.setRetvalue _ _ _)
  · split
    · exact (Quiet.record _ _).trans (.setRetvalue _ _ _)
    · rename_i hm
      exact (Quiet.messageAlloc hm).trans ((Quiet.pushMessage _ _ _).trans (.setRetvalue _ _ _))

theorem mqReceiveTake_cases {buffer size : Int} (h : mqReceiveTake s p q buffer size = .ok s') :
    Serves (.senders q) s s' := by
  unfold mqReceiveTake at h
  obtain ⟨⟨m, s₁⟩, h₁, h⟩ := bind_eq_ok.1 h
  have hp := Quiet.popMessage h₁
  dsimp only at h
  split at h
  · cases h
    exact .quiet (hp.trans ((Quiet.messageFree _ _).trans (.setRetvalue _ _ _)))
  · have h₂ := hp.trans ((Quiet.deliver _ p buffer m).trans (.messageFree _ m))
    split at h
    · obtain ⟨s₃, h₃, h⟩ := bind_eq_ok.1 h
      cases h
      exact ⟨_, s₃, h₂, .inr (completeSend_cases h₃), .setRetvalue _ _ _⟩
    · cases h
      exact .quiet (h₂.trans (.setRetvalue _ _ _))

/-- The part of a call that waits, with what the call does when the scheduler comes back to it. -/
theorem blocks_cases {L' : PcbList} {r : Int} {again : State → Except Halt State}
    (h : (do
      let s₁ ← (s.setStatus s.running .waiting).listInsertLast L s.running
      let s₂ ← internalSchedule s₁
      if s₂.running = s.running ∧ (s₂.pcbs s.running).status = .waiting then
        let s₃ ← s₂.listDetach L s.running
        return (s₃.setStatus s.running .running).setRetvalue s.running r
      if s₂.running ≠ s.running then
        return s₂
      again s₂ : Except Halt State) = .ok s')
    (hagain : ∀ s₂ s', again s₂ = .ok s' → Serves L' s₂ s') : Blocks L L' s s' := by
  obtain ⟨s₁, h₁, h⟩ := bind_eq_ok.1 h
  obtain ⟨s₂, h₂, h⟩ := bind_eq_ok.1 h
  refine ⟨s₁, s₂, h₁, h₂, ?_⟩
  split at h
  · rename_i hc
    obtain ⟨s₃, h₃, h⟩ := bind_eq_ok.1 h
    cases h
    exact .inr (.inl ⟨hc.1, hc.2, s₃, h₃, .setRetvalue _ _ _⟩)
  rename_i hc
  split at h
  · rename_i hne
    cases h
    exact .inl ⟨hne, rfl⟩
  · rename_i heq
    have hrun := not_not.1 heq
    exact .inr (.inr ⟨hrun, fun hw => hc ⟨hrun, hw⟩, hagain s₂ s' h⟩)

/-- **`mq_send`**. -/
theorem mqSend_cases (h : internalMqSend s = .ok s') : Quiet s s' ∨
    ∃ q, lookupQueue s ((s.pcbs s.running).syscallArgs 0) = .ok (some q) ∧
      (Serves (.receivers q) s s' ∨ Blocks (.senders q) (.receivers q) s s') := by
  unfold internalMqSend at h
  dsimp only at h
  split at h
  · cases h
    exact .inl (.setRetvalue _ _ _)
  split at h
  · cases h
    exact .inl (.setRetvalue _ _ _)
  obtain ⟨found, hq, h⟩ := bind_eq_ok.1 h
  cases found with
  | none =>
    cases h
    exact .inl (.setRetvalue _ _ _)
  | some q =>
    dsimp only at h
    split at h
    · split at h
      · cases h
        exact .inl (.setRetvalue _ _ _)
      refine .inr ⟨q, hq, .inr (blocks_cases h fun s₂ s' h => ?_)⟩
      split at h
      · cases h
        exact .quiet (.refl _)
      · exact mqSendEnqueue_cases h
    · exact .inr ⟨q, hq, .inl (mqSendEnqueue_cases h)⟩

/-- **`mq_receive`**. -/
theorem mqReceive_cases (h : internalMqReceive s = .ok s') : Quiet s s' ∨
    ∃ q, lookupQueue s ((s.pcbs s.running).syscallArgs 0) = .ok (some q) ∧
      (Serves (.senders q) s s' ∨ Blocks (.receivers q) (.senders q) s s') := by
  unfold internalMqReceive at h
  dsimp only at h
  split at h
  · cases h
    exact .inl (.setRetvalue _ _ _)
  split at h
  · cases h
    exact .inl (.setRetvalue _ _ _)
  obtain ⟨found, hq, h⟩ := bind_eq_ok.1 h
  cases found with
  | none =>
    cases h
    exact .inl (.setRetvalue _ _ _)
  | some q =>
    dsimp only at h
    split at h
    · split at h
      · cases h
        exact .inl (.setRetvalue _ _ _)
      refine .inr ⟨q, hq, .inr (blocks_cases h fun s₂ s' h => ?_)⟩
      split at h
      · cases h
        exact .quiet (.refl _)
      · exact mqReceiveTake_cases h
    · exact .inr ⟨q, hq, .inl (mqReceiveTake_cases h)⟩

theorem setStatus_setRetvalue {st : ProcessStatus} {r : Int} :
    (s.setStatus p st).setRetvalue p r = (s.setRetvalue p r).setStatus p st := by
  have hp : ((s.setStatus p st).setRetvalue p r).pcbs =
      ((s.setRetvalue p r).setStatus p st).pcbs := by
    funext i
    by_cases hi : i = p <;> simp [hi]
  have hh : ((s.setStatus p st).setRetvalue p r).history =
      ((s.setRetvalue p r).setStatus p st).history := by simp
  exact congr (congrArg (fun f h => ({ s with pcbs := f, history := h } : State)) hp) hh

/-- One turn of the loops that wake everybody. -/
theorem wakeAll_cases (h : wakeAll L (p :: ps) s = .ok s') :
    ∃ s₁, Wakes L s s₁ ∧ wakeAll L ps s₁ = .ok s' := by
  rw [wakeAll] at h
  obtain ⟨⟨p, s₁⟩, h₁, h⟩ := bind_eq_ok.1 h
  obtain ⟨qs, hL, rfl⟩ := listDetachFirst_cases h₁
  obtain ⟨s₂, h₂, h⟩ := bind_eq_ok.1 h
  rw [setStatus_setRetvalue] at h₂
  exact ⟨s₂, ⟨p, qs, _, hL, .setRetvalue _ p dsosEMqNotOpen, h₂⟩, h⟩

/-- **`mq_destroy`**. -/
theorem mqDestroy_cases (h : internalMqDestroy s = .ok s') : Quiet s s' ∨
    ∃ q s₁ s₂ s₃ s₄ s₅, lookupQueue s ((s.pcbs s.running).syscallArgs 0) = .ok (some q) ∧
      Quiet s s₁ ∧ wakeAll (.receivers q) (s₁.queues q).waitingReceivers s₁ = .ok s₂ ∧
      wakeAll (.senders q) (s₂.queues q).waitingSenders s₂ = .ok s₃ ∧ Quiet s₃ s₄ ∧
      detachResource s₄ (.queue q) = .ok s₅ ∧
      ∃ s₆, messageQueueFree s₅ q = .ok s₆ ∧ Quiet s₆ s' := by
  unfold internalMqDestroy at h
  dsimp only at h
  split at h
  · cases h
    exact .inl (.setRetvalue _ _ _)
  obtain ⟨found, hq, h⟩ := bind_eq_ok.1 h
  cases found with
  | none =>
    cases h
    exact .inl (.setRetvalue _ _ _)
  | some q =>
    dsimp only at h
    split at h
    · cases h
      exact .inl (.setRetvalue _ _ _)
    obtain ⟨s₂, h₂, h⟩ := bind_eq_ok.1 h
    obtain ⟨s₃, h₃, h⟩ := bind_eq_ok.1 h
    obtain ⟨s₅, h₅, h⟩ := bind_eq_ok.1 h
    obtain ⟨s₆, h₆, h⟩ := bind_eq_ok.1 h
    cases h
    exact .inr ⟨q, _, s₂, s₃, _, s₅, hq, .setMqStatus s q .closing, h₂, h₃,
      (Quiet.freeMessages q _ _).trans (.setMqStatus _ _ _), h₅, s₆, h₆,
      (Quiet.record _ _).trans (.setRetvalue _ _ _)⟩

/-! ## Processes -/

/-- The first ready process runs. -/
def Yields (s s' : State) : Prop :=
  ∃ p ps, s.readyList = p :: ps ∧ s' = ((s.setList .ready ps).setStatus p .running).setRunning p

/-- The caller has set its timer `b`. -/
def dozing (s : State) (b : Nat) : State :=
  { (s.setStatus s.running .waiting).setTimer s.running (some b) with
    timerList := timerInsert ⟨b, s.time + (s.pcbs s.running).syscallArgs 0, s.running⟩ s.timerList }

/-- The block `p` has become a process. -/
def newborn (s : State) (p : PcbRef) (pool : Pool) : State :=
  { s with
    pcbPool := pool
    lastPid := s.lastPid + 1
    pcbs := fun i =>
      if i = p then
        { s.pcbs i with
          pid := s.lastPid, status := .ready, lastFd := 0, descriptors := [],
          parent := some s.running, timer := none }
      else s.pcbs i }

/-- **`sleep`**. -/
theorem sleep_cases (h : internalSleep s = .ok s') :
    Quiet s s' ∧ (s'.pcbs s.running).syscallRetvalue = dsosESleep ∨
    (s.pcbs s.running).timer = none ∧ ∃ b s₁ s₂, Quiet (dozing s b) s₁ ∧
      s₁.listInsertLast .waiting s.running = .ok s₂ ∧ internalSchedule s₂ = .ok s' := by
  unfold internalSleep at h
  dsimp only at h
  split at h
  · cases h
    exact .inl ⟨.setRetvalue _ _ _, by simp⟩
  rename_i ht
  split at h
  · cases h
    exact .inl ⟨.setRetvalue _ _ _, by simp⟩
  rename_i b s₁ hadd
  unfold timerListAdd at hadd
  split at hadd
  · cases hadd
  cases hadd
  obtain ⟨s₂, h₂, h⟩ := bind_eq_ok.1 h
  refine .inr ⟨by simpa using ht, b, _, s₂, ?_, h₂, h⟩
  refine (Quiet.ofPcbs (s := dozing s b) fun i => ?_).trans rfl
  by_cases hi : i = s.running <;> simp [dozing, hi, PCB.bare]

/-- **`wait`**. -/
theorem wait_cases (h : internalWait s = .ok s') : Quiet s s' ∨
    (∃ e s₁ s₂ s₃, (s.pcbs e).status = .zombie ∧ Quiet s s₁ ∧
      s₁.listDetach .zombie e = .ok s₂ ∧ Quiet s₂ s₃ ∧ s' = pcbFree s₃ e) ∨
    ∃ s₁, (s.setStatus s.running .waiting).listInsertLast .waiting s.running = .ok s₁ ∧
      Yields s₁ s' := by
  have hsleep : internalWait.waitSleep s s.running = .ok s' →
      ∃ s₁, (s.setStatus s.running .waiting).listInsertLast .waiting s.running = .ok s₁ ∧
        Yields s₁ s' := by
    intro h
    obtain ⟨s₁, h₁, h⟩ := bind_eq_ok.1 h
    obtain ⟨⟨p, s₂⟩, h₂, h⟩ := bind_eq_ok.1 h
    obtain ⟨ps, hL, rfl⟩ := listDetachFirst_cases h₂
    cases h
    exact ⟨s₁, h₁, p, ps, hL, rfl⟩
  unfold internalWait at h
  dsimp only at h
  split at h
  · cases h
    exact .inl (.setRetvalue _ _ _)
  split at h
  · split at h
    · cases h
      exact .inl (.setRetvalue _ _ _)
    · exact .inr (.inr (hsleep h))
  rename_i e _
  split at h
  · rename_i hz
    obtain ⟨s₂, h₂, h⟩ := bind_eq_ok.1 h
    cases h
    exact .inr (.inl ⟨e.pcb, _, s₂, _, hz, (Quiet.setChildren _ _ _).trans (.pcbPtrFree _ _), h₂,
      (Quiet.setRetvalue _ _ _).trans (.storeResult _ _ _), rfl⟩)
  · exact .inr (.inr (hsleep h))

/-- The branch of `exit` in which the parent was waiting. -/
theorem exitToParent_cases {parent : PcbRef} (h : exitToParent s p parent = .ok s') :
    ∃ s₁ s₂ s₃ s₄, s.listDetach .waiting parent = .ok s₁ ∧
      Quiet (s₁.setStatus parent .running) s₂ ∧
      releaseDescriptors p (s₂.pcbs p).descriptors (purgeTimers s₂ p) = .ok s₃ ∧
      s₃.listDetach .zombie p = .ok s₄ ∧ s' = (pcbFree s₄ p).setRunning parent := by
  unfold exitToParent at h
  obtain ⟨s₁, h₁, h⟩ := bind_eq_ok.1 h
  dsimp only at h
  split at h
  · cases h
  obtain ⟨s₃, h₃, h⟩ := bind_eq_ok.1 h
  obtain ⟨s₄, h₄, h⟩ := bind_eq_ok.1 h
  cases h
  exact ⟨s₁, _, s₃, s₄, h₁, (Quiet.setChildren _ _ _).trans
    ((Quiet.setRetvalue _ _ _).trans (.storeResult _ _ _)), h₃, h₄, rfl⟩

/-- **`exit`**. -/
theorem exit_cases (h : internalExit s = .ok s') :
    ∃ s₁ s₂ s₃ parent, Quiet s s₁ ∧
      (s₁.setStatus s.running .zombie).listInsertLast .zombie s.running = .ok s₂ ∧
      (s₂.pcbs s.running).parent = some parent ∧ Quiet s₂ s₃ ∧
      (waitsFor s₃ parent (s₃.pcbs s.running).pid ∧ exitToParent s₃ s.running parent = .ok s' ∨
        ¬ waitsFor s₃ parent (s₃.pcbs s.running).pid ∧ Yields s₃ s') := by
  unfold internalExit at h
  dsimp only at h
  obtain ⟨s₁, h₁, h⟩ := bind_eq_ok.1 h
  obtain ⟨s₂, h₂, h⟩ := bind_eq_ok.1 h
  split at h
  · cases h
  rename_i parent hp
  have hv : Quiet s (s.updPcb s.running fun pcb => { pcb with returnValue := pcb.syscallArgs 0 }) :=
    .updPcb fun _ => rfl
  have hq := hv.trans (.reparentChildren _ h₁)
  refine ⟨s₁, s₂, _, parent, hq, h₂, hp, .signal s₂ parent dsosSigchld, ?_⟩
  split at h
  · rename_i hw
    exact .inl ⟨hw, h⟩
  · rename_i hw
    obtain ⟨⟨p, s₄⟩, h₄, h⟩ := bind_eq_ok.1 h
    obtain ⟨ps, hL, rfl⟩ := listDetachFirst_cases h₄
    cases h
    exact .inr ⟨hw, p, ps, hL, rfl⟩

/-- When the caller of `exit` has become a zombie, its parent waits for it iff it did before. -/
theorem waitsFor_retired {s₁ s₂ s₃ : State} {parent : PcbRef} {pid : Nat} (hq : Quiet s s₁)
    (hi : (s₁.setStatus s.running .zombie).listInsertLast .zombie s.running = .ok s₂)
    (hq' : Quiet s₂ s₃) (hn : (s.pcbs s.running).syscallNum ≠ dsosCallWait) :
    waitsFor s₃ parent pid ↔ waitsFor s parent pid := by
  have hpcbs := listInsert_pcbs hi
  have hnum : (s₃.pcbs parent).syscallNum = (s.pcbs parent).syscallNum := by
    rw [hq'.syscallNum, hpcbs]
    simp [hq.syscallNum]
  unfold waitsFor
  by_cases hp : parent = s.running
  · rw [hnum, hp]
    exact ⟨fun h => absurd h.2.1 hn, fun h => absurd h.2.1 hn⟩
  · rw [hnum, hq'.status, hq'.syscallArgs, hpcbs]
    simp [hp, hq.status, hq.syscallArgs]

/-- **`spawn`**. -/
theorem spawn_cases (h : internalSpawn s = .ok s') : Quiet s s' ∨
    ∃ p pool s₁ s₂, s.pcbPool.get = some (p, pool) ∧ Quiet (newborn s p pool) s₁ ∧
      s₁.listInsertLast .ready p = .ok s₂ ∧ Quiet s₂ s' := by
  unfold internalSpawn at h
  split at h
  · cases h
    exact .inl (.setRetvalue _ _ _)
  rename_i p s₁ hp
  unfold pcbAlloc at hp
  split at hp
  · cases hp
  rename_i pool hg
  cases hp
  dsimp only at h
  split at h
  · cases h
  rename_i e s₂ he
  obtain ⟨s₃, h₃, h⟩ := bind_eq_ok.1 h
  cases h
  refine .inr ⟨p, pool, _, s₃, hg, Quiet.trans ?_ ((Quiet.pcbPtrAlloc he).trans
    (.setChildren _ _ _)), h₃, .setRetvalue _ _ _⟩
  refine Quiet.ofPcbs (s := newborn s p pool) fun i => ?_
  by_cases hi : i = p <;> simp [newborn, hi, PCB.bare]

/-- **`fork`**. -/
theorem fork_cases (h : internalFork s = .ok s') : s.pcbPool.get = none ∧ Quiet s s' ∨
    ∃ p pool s₁ s₂ s₃, s.pcbPool.get = some (p, pool) ∧ Quiet (newborn s p pool) s₁ ∧
      forkDescriptors p (s₁.pcbs s.running).descriptors s₁ = .ok s₂ ∧ Quiet s₂ s₃ ∧
      s₃.listInsertLast .ready p = .ok s' := by
  unfold internalFork at h
  split at h
  · rename_i hp
    cases h
    refine .inl ⟨?_, .setRetvalue _ _ _⟩
    unfold pcbAlloc at hp
    split at hp
    · assumption
    · cases hp
  rename_i p s₁ hp
  unfold pcbAlloc at hp
  split at hp
  · cases hp
  rename_i pool hg
  cases hp
  dsimp only at h
  split at h
  · cases h
  rename_i e s₂ he
  obtain ⟨s₃, h₃, h⟩ := bind_eq_ok.1 h
  have hrun : s₂.running = s.running := (Quiet.pcbPtrAlloc he).running
  have hq := (Quiet.pcbPtrAlloc he).trans (.setChildren _ s₂.running
    ((s₂.pcbs s₂.running).children ++ [e]))
  refine .inr ⟨p, pool, _, s₃, _, hg, Quiet.trans ?_ hq, ?_, .setRetvalue _ _ _, h⟩
  · refine Quiet.ofPcbs (s := newborn s p pool) fun i => ?_
    by_cases hi : i = p <;> simp [newborn, hi, PCB.bare]
  · rw [← hrun]
    exact h₃

end

end DisastrOS
