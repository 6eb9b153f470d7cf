import DisastrOS.Proof.Consistent

/-!
# The kernel's state as channels

`State.channels` forgets processes, pools and lists: the channel of an id is read off the live queue
with that id, its blocked requests off the saved arguments of the processes on the waiting lists.
-/

namespace DisastrOS

open Lib State

/-- The request of the latest call of process `p`. -/
def State.request (s : State) (p : PcbRef) : Request :=
  ⟨(s.pcbs p).call, p, (s.pcbs p).syscallArgs 1, (s.pcbs p).syscallArgs 2⟩

def State.channel (s : State) (q : QueueRef) : Chan where
  cap := (s.queues q).maxMessages.toNat
  contents := (s.queues q).messages
  receivers := (s.queues q).waitingReceivers.map s.request
  senders := (s.queues q).waitingSenders.map s.request

/-- The abstraction function. -/
def State.channels (s : State) : Channels where
  chan id := (s.queueById id).map s.channel
  mem := s.mem
  calls := s.calls
  history := s.history

/-- The live queues between two syscalls. -/
def Idle (s : State) : Prop := ∀ q ∈ s.live, (s.queues q).status = .open ∧
  ((s.channel q).receivers ≠ [] → (s.channel q).contents = [])

/-- The invariant of the kernel at a return to user code. -/
structure Inv (s : State) : Prop extends Consistent s [s.running] [] where
  status : (s.pcbs s.running).status = .running
  idle : Idle s

theorem Inv.settled {s : State} (h : Inv s) : Settled s := ⟨h.placed, h.status, h.timed⟩

section
variable {s s' : State} {B : List Nat} {q : QueueRef} {p : PcbRef} {id : Int}

theorem channels_chan : s.channels.chan id = (s.queueById id).map s.channel := rfl

theorem Queues.chan (h : Queues s B) (hq : q ∈ s.live) :
    s.channels.chan (s.queues q).queueId = some (s.channel q) := by
  rw [channels_chan, h.queueById_eq_some.2 ⟨hq, rfl⟩]
  rfl

theorem queueById_congr (hl : s'.live = s.live)
    (hid : ∀ q, (s'.queues q).queueId = (s.queues q).queueId) :
    s'.queueById id = s.queueById id := by
  unfold State.queueById
  simp only [hl, hid]

theorem channel_congr (hq : s'.queues q = s.queues q)
    (hp : ∀ L, ∀ p ∈ s.list L, s'.request p = s.request p) : s'.channel q = s.channel q := by
  unfold State.channel
  rw [hq]
  exact congrArg₂ (fun r t => (⟨_, _, r, t⟩ : Chan)) (List.map_congr_left (hp (.receivers q)))
    (List.map_congr_left (hp (.senders q)))

/-- The channels read the resources, the queues, the requests of the processes on their lists, the
memory and the history. -/
theorem channels_congr (acts : List Act) (hr : s'.resourcesList = s.resourcesList)
    (hq : s'.queues = s.queues) (hp : ∀ L, ∀ p ∈ s.list L, s'.request p = s.request p)
    (hm : s'.mem = s.mem)
    (hc : s'.calls = s.calls) (hh : s'.history = s.history ++ acts) :
    s'.channels = s.channels.log acts := by
  have hch : s'.channel = s.channel := funext fun q => channel_congr (by rw [hq]) hp
  have hl : s'.live = s.live := by unfold State.live; rw [hr]
  unfold State.channels Channels.log
  simp only [hch, hm, hc, hh, queueById_congr hl fun q => by rw [hq]]

/-- Only the queue `q`, of id `id`, has changed. -/
theorem channels_chan_update (h : Queues s B) (hq : s.queueById id = some q)
    (hl : s'.live = s.live) (hid : ∀ i, (s'.queues i).queueId = (s.queues i).queueId)
    (hother : ∀ i, i ≠ q → s'.channel i = s.channel i) :
    s'.channels.chan = fun i => if i = id then some (s'.channel q) else s.channels.chan i := by
  funext i
  rw [channels_chan, queueById_congr hl hid]
  split
  · subst i
    rw [hq]
    rfl
  · rename_i hi
    rw [channels_chan]
    cases hq' : s.queueById i with
    | none => rfl
    | some q' =>
      have hne : q' ≠ q := by
        rintro rfl
        exact hi ((h.queueById_eq_some.1 hq').2.symm.trans (h.queueById_eq_some.1 hq).2)
      simp only [Option.map_some, hother q' hne]

theorem channels_same (hr : s'.resourcesList = s.resourcesList) (hq : s'.queues = s.queues)
    (hp : ∀ L, ∀ p ∈ s.list L, s'.request p = s.request p) (hm : s'.mem = s.mem)
    (hc : s'.calls = s.calls) (hh : s'.history = s.history) : s'.channels = s.channels :=
  (channels_congr [] hr hq hp hm hc (by simpa using hh)).trans Channels.log_nil

theorem Idle.congr (h : Idle s) (hr : s'.resourcesList = s.resourcesList)
    (hq : s'.queues = s.queues) (hp : ∀ L, ∀ p ∈ s.list L, s'.request p = s.request p) :
    Idle s' := by
  intro q hm
  unfold State.live at hm
  rw [hr] at hm
  rw [channel_congr (by rw [hq]) hp, hq]
  exact h q hm

theorem Rescheduled.channels (h : Rescheduled s s') : s'.channels = s.channels :=
  channels_same h.resourcesList h.queues (fun L p _ => by unfold State.request; rw [h.pcbs]) h.mem
    h.calls h.history

theorem channels_setRetvalue (r : Int) :
    (s.setRetvalue p r).channels = s.channels.log [.retval (s.pcbs p).call r] :=
  channels_congr _ rfl rfl (fun L p _ => by simp [State.request]) rfl rfl rfl

theorem channel_saveCall (h : Placed s [s.running]) (c : Syscall) :
    (saveCall s c).channel q = s.channel q := by
  refine channel_congr rfl fun L p hm => ?_
  have : p ≠ s.running := fun e => h.not_held hm (by simp [e])
  simp [State.request, saveCall, this]

/-- Saving a call is issuing it. -/
theorem channels_saveCall (h : Placed s [s.running]) (c : Syscall) :
    (saveCall s c).channels = s.channels.issue s.running c := by
  have hch := funext fun q => channel_saveCall h c (q := q)
  unfold State.channels Channels.issue
  rw [hch]
  rfl

end

/-! ## Operations on one queue -/

/-- `s` has been reached from `s₀` by operations on the queue `q`, of id `id`: the channels are those
of `a`, but that of `id` is `ch`, and the other queues are as they were. -/
structure At (s₀ s : State) (a : Channels) (id : Int) (q : QueueRef) (ch : Chan) : Prop where
  lookup : s.queueById id = some q
  channel : s.channel q = ch
  channels : s.channels = a.setChan id (some ch)
  live : s.live = s₀.live
  other : ∀ i, i ≠ q → s.channel i = s₀.channel i
  status : ∀ i, (s.queues i).status = (s₀.queues i).status
  request : ∀ p, s.request p = s₀.request p
  running : s.running = s₀.running

section
variable {s₀ s s' : State} {a a' : Channels} {B : List Nat} {q : QueueRef} {p : PcbRef} {id : Int}
  {ch ch' : Chan} {m : Message} {ms : List Message} {ps : List PcbRef}

theorem At.start (hq : s.queueById id = some q) : At s s s.channels id q (s.channel q) := by
  refine ⟨hq, rfl, ?_, rfl, fun _ _ => rfl, fun _ => rfl, fun _ => rfl, rfl⟩
  unfold Channels.setChan
  have : s.channels.chan = fun i => if i = id then some (s.channel q) else s.channels.chan i := by
    funext i
    split
    · subst i
      rw [channels_chan, hq]
      rfl
    · rfl
  rw [← this]

namespace At

theorem mem (h : At s₀ s a id q ch) : s.mem = a.mem := congrArg Channels.mem h.channels
theorem history (h : At s₀ s a id q ch) : s.history = a.history :=
  congrArg Channels.history h.channels
theorem calls (h : At s₀ s a id q ch) : s.calls = a.calls := congrArg Channels.calls h.channels

theorem mem_live (h : At s₀ s a id q ch) (hs : Queues s B) :
    q ∈ s.live ∧ (s.queues q).queueId = id := hs.queueById_eq_some.1 h.lookup

/-- An operation on the queue `q` only. -/
theorem step (h : At s₀ s a id q ch) (hs : Queues s B) (hl : s'.live = s.live)
    (hid : ∀ i, (s'.queues i).queueId = (s.queues i).queueId)
    (hst : ∀ i, (s'.queues i).status = (s.queues i).status)
    (hother : ∀ i, i ≠ q → s'.queues i = s.queues i) (hreq : ∀ p, s'.request p = s.request p)
    (hrun : s'.running = s.running) (hch : s'.channel q = ch')
    (hchan : a'.chan = a.chan) (hmem : s'.mem = a'.mem) (hcalls : s'.calls = a'.calls)
    (hhist : s'.history = a'.history) : At s₀ s' a' id q ch' := by
  have hch' : ∀ i, i ≠ q → s'.channel i = s.channel i :=
    fun i hi => channel_congr (hother i hi) fun _ p _ => hreq p
  refine ⟨(queueById_congr hl hid).trans h.lookup, hch, ?_, hl.trans h.live,
    fun i hi => (hch' i hi).trans (h.other i hi), fun i => (hst i).trans (h.status i),
    fun p => (hreq p).trans (h.request p), hrun.trans h.running⟩
  have h1 := channels_chan_update hs h.lookup hl hid hch'
  have h2 : s'.channels.chan = (a'.setChan id (some ch')).chan := by
    rw [h1, h.channels, hch]
    funext i
    simp only [Channels.setChan, hchan]
    split <;> rfl
  unfold State.channels at h2 ⊢
  unfold Channels.setChan at h2 ⊢
  simp only at h2
  rw [h2, hmem, hcalls, hhist]

/-- An operation on no queue. -/
theorem same (h : At s₀ s a id q ch) (hs : Queues s B) (hr : s'.resourcesList = s.resourcesList)
    (hq : s'.queues = s.queues) (hp : ∀ p, s'.request p = s.request p)
    (hrun : s'.running = s.running) (hchan : a'.chan = a.chan) (hmem : s'.mem = a'.mem)
    (hcalls : s'.calls = a'.calls) (hhist : s'.history = a'.history) : At s₀ s' a' id q ch :=
  h.step hs (by unfold State.live; rw [hr]) (fun i => by rw [hq]) (fun i => by rw [hq])
    (fun i _ => by rw [hq]) hp hrun
    ((channel_congr (by rw [hq]) fun _ p _ => hp p).trans h.channel) hchan hmem hcalls hhist

theorem setStatus (h : At s₀ s a id q ch) (hs : Queues s B) (p : PcbRef) (st : ProcessStatus) :
    At s₀ (s.setStatus p st) a id q ch :=
  h.same hs rfl rfl (by simp [State.request]) rfl rfl h.mem h.calls h.history

theorem setRetvalue (h : At s₀ s a id q ch) (hs : Queues s B) (p : PcbRef) (r : Int) :
    At s₀ (s.setRetvalue p r) (a.log [.retval (s.request p).call r]) id q ch :=
  h.same hs rfl rfl (by simp [State.request]) rfl rfl h.mem h.calls
    (by simp [Channels.log, h.history, State.request])

theorem setReady (h : At s₀ s a id q ch) (hs : Queues s B) (ps : List PcbRef) :
    At s₀ (s.setList .ready ps) a id q ch :=
  h.same hs rfl rfl (fun _ => rfl) rfl rfl h.mem h.calls h.history

theorem alloc (h : At s₀ s a id q ch) (hs : Queues s B) (pool : Pool) :
    At s₀ { s with messagePool := pool } a id q ch :=
  h.same hs rfl rfl (fun _ => rfl) rfl rfl h.mem h.calls h.history

theorem free (h : At s₀ s a id q ch) (hs : Queues s B) (m : Message) :
    At s₀ (messageFree s m) a id q ch :=
  h.same hs rfl rfl (fun _ => rfl) rfl rfl h.mem h.calls h.history

theorem deliver (h : At s₀ s a id q ch) (hs : Queues s B) (p : PcbRef) (buffer : Int)
    (m : Message) : At s₀ (deliver s p buffer m)
      ((a.log [.deliver (s.request p).call buffer m.data]).setMem (memWrite a.mem buffer m.data))
      id q ch :=
  h.same hs rfl rfl (fun _ => rfl) rfl rfl (congrArg (memWrite · buffer m.data) h.mem) h.calls
    (congrArg (· ++ [Act.deliver (s.pcbs p).call buffer m.data]) h.history)

theorem push (h : At s₀ s a id q ch) (hs : Queues s B) (m : Message) :
    At s₀ (pushMessage s q m) (a.log [.enqueue id m]) id q
      { ch with contents := ch.contents ++ [m] } := by
  have hid := (h.mem_live hs).2
  refine h.step hs rfl (fun i => ?_) (fun i => ?_) (fun i hi => ?_) (fun _ => rfl) rfl ?_ rfl h.mem
    h.calls ?_
  · simp [pushMessage]
  · simp [pushMessage]
  · simp [pushMessage, hi]
  · rw [← h.channel]
    simp [pushMessage, State.channel, State.request]
  · simp [pushMessage, Channels.log, h.history, hid]

theorem pop (h : At s₀ s a id q ch) (hs : Queues s B) (ms : List Message) (m : Message)
    (p : PcbRef) : At s₀ ((s.updQueue q fun mq =>
        { mq with messages := ms, currentMessages := mq.currentMessages - 1 }).record
        (.dequeue (s.queues q).queueId m (s.pcbs p).call))
      (a.log [.dequeue id m (s.request p).call]) id q { ch with contents := ms } := by
  have hid := (h.mem_live hs).2
  refine h.step hs rfl (fun i => ?_) (fun i => ?_) (fun i hi => ?_) (fun _ => rfl) rfl ?_ rfl h.mem
    h.calls ?_
  · simp
  · simp
  · simp [hi]
  · rw [← h.channel]
    simp [State.channel, State.request]
  · simp [Channels.log, h.history, hid, State.request]

theorem setReceivers (h : At s₀ s a id q ch) (hs : Queues s B) (ps : List PcbRef) :
    At s₀ (s.setList (.receivers q) ps) a id q { ch with receivers := ps.map s₀.request } := by
  refine h.step hs rfl (fun i => ?_) (fun i => ?_) (fun i hi => ?_) (fun _ => rfl) rfl ?_ rfl h.mem
    h.calls h.history
  · simp [State.setList]
  · simp [State.setList]
  · simp [State.setList, hi]
  · rw [← h.channel, List.map_congr_left fun p _ => (h.request p).symm]
    simp [State.setList, State.channel, State.request]

theorem setSenders (h : At s₀ s a id q ch) (hs : Queues s B) (ps : List PcbRef) :
    At s₀ (s.setList (.senders q) ps) a id q { ch with senders := ps.map s₀.request } := by
  refine h.step hs rfl (fun i => ?_) (fun i => ?_) (fun i hi => ?_) (fun _ => rfl) rfl ?_ rfl h.mem
    h.calls h.history
  · simp [State.setList]
  · simp [State.setList]
  · simp [State.setList, hi]
  · rw [← h.channel, List.map_congr_left fun p _ => (h.request p).symm]
    simp [State.setList, State.channel, State.request]

/-- The queues are idle again when the queue `q` is. -/
theorem idle (h : At s₀ s a id q ch) (h₀ : Idle s₀) (hch : ch.receivers ≠ [] → ch.contents = []) :
    Idle s := by
  intro i hi
  rw [h.live] at hi
  obtain ⟨h1, h2⟩ := h₀ i hi
  refine ⟨(h.status i).trans h1, ?_⟩
  by_cases hiq : i = q
  · subst hiq
    rw [h.channel]
    exact hch
  · rw [h.other i hiq]
    exact h2

end At

end

/-! ## A call in progress -/

theorem saveCall_running (s : State) (c : Syscall) : (saveCall s c).running = s.running := rfl

theorem list_saveCall (s : State) (c : Syscall) (L : PcbList) :
    (saveCall s c).list L = s.list L := by
  cases L <;> rfl

section
variable {s : State}

/-- The invariant when a syscall starts. -/
theorem Inv.saveCall (h : Inv s) (c : Syscall) : Inv (saveCall s c) := by
  have hp : ∀ L, ∀ p ∈ s.list L, p ≠ s.running :=
    fun L p hp e => h.placed.not_held hp (by simp [e])
  have hl : ∀ L, (DisastrOS.saveCall s c).list L = s.list L := fun L => by cases L <;> rfl
  refine ⟨⟨?_, ?_, ?_, ?_, h.answers.saveCall c⟩, ?_, fun q hq => ?_⟩
  · refine h.placed.congr rfl hl fun p hp' => ?_
    have : p ≠ s.running := by simpa using hp'
    simp [DisastrOS.saveCall, this]
  · refine h.timed.congr rfl fun t ht => ?_
    have hw := (h.timed.waiting t ht).1
    have := hp .waiting t.pcb hw
    exact ⟨hw, by simp [DisastrOS.saveCall, this]⟩
  · refine h.queues.congr rfl rfl rfl rfl fun L p hm => ?_
    simp [DisastrOS.saveCall, hp L p hm]
  · refine h.tree.congr rfl rfl rfl rfl ?_ ?_ ?_ ?_ <;> intro p <;> simp [DisastrOS.saveCall]
  · have := h.status
    simpa [DisastrOS.saveCall] using this
  · rw [channel_saveCall h.placed]
    exact h.idle q hq

theorem Idle.setRetvalue (h : Idle s) (p : PcbRef) (r : Int) : Idle (s.setRetvalue p r) :=
  h.congr rfl rfl fun _ p _ => by simp [State.request]

theorem Inv.setRetvalue (h : Inv s) (p : PcbRef) (r : Int) : Inv (s.setRetvalue p r) :=
  ⟨h.toConsistent.setRetvalue p r, by simpa using h.status, h.idle.setRetvalue p r⟩

/-- The scheduler keeps the invariant. -/
theorem Consistent.reschedule {s s' : State} {X : List PcbRef} {B : List Nat}
    (h : Consistent s X B) (hf : Rescheduled s s') (hs : Settled s') :
    Consistent s' [s'.running] B where
  placed := hs.placed
  timed := hs.timed
  queues := h.queues.congr hf.resourcesList hf.queues hf.queuePool hf.messagePool
    fun _ p _ => by rw [hf.pcbs]
  tree := h.tree.congr hf.initPcb hf.lastPid hf.pcbPool hf.zombieList (fun p => by rw [hf.pcbs])
    (fun p => by rw [hf.pcbs]) (fun p => by rw [hf.pcbs]) fun p => by rw [hf.pcbs]
  answers := h.answers.same hf.history hf.calls fun p => by
    rw [hf.pcbs]
    exact ⟨rfl, rfl, rfl, rfl⟩

theorem Idle.reschedule {s s' : State} (h : Idle s) (hf : Rescheduled s s') : Idle s' :=
  h.congr hf.resourcesList hf.queues fun _ p _ => by unfold State.request; rw [hf.pcbs]

/-! ## Blocking -/

/-- The arguments that the running process blocks with on the list `L` of queue `q`. -/
def Blockable (s : State) (q : QueueRef) (L : PcbList) : Prop :=
  (s.pcbs s.running).syscallArgs 0 = (s.queues q).queueId ∧
  (L = .receivers q ∧ (s.pcbs s.running).syscallNum = dsosCallMqReceive ∧
      0 < (s.pcbs s.running).syscallArgs 2 ∧ (s.channel q).contents = [] ∨
    L = .senders q ∧ (s.pcbs s.running).syscallNum = dsosCallMqSend ∧
      SendSize ((s.pcbs s.running).syscallArgs 2) ∧ (s.channel q).receivers = [])

/-- The channel with a new blocked request. -/
def blockedChan (ch : Chan) (r : Request) : PcbList → Chan
  | .receivers _ => { ch with receivers := ch.receivers ++ [r] }
  | _ => { ch with senders := ch.senders ++ [r] }

/-- The running process goes to a waiting list of a queue: either nobody else can run, and undoing
the block restores the state, or another process runs. -/
theorem block_spec {q : QueueRef} {id : Int} {L : PcbList} (h : Inv s)
    (hq : s.queueById id = some q) (hL : Blockable s q L) :
    ∃ s₁, (s.setStatus s.running .waiting).listInsertLast L s.running = .ok s₁ ∧
      s₁.running = s.running ∧ (s₁.pcbs s.running).status = .waiting ∧
      ((internalSchedule s₁ = .ok s₁ ∧ ∃ s₂, s₁.listDetach L s.running = .ok s₂ ∧
          s₂.setStatus s.running .running = s) ∨
        ∃ s', internalSchedule s₁ = .ok s' ∧ s'.running ≠ s.running ∧ Inv s' ∧
          s'.channels = s.channels.setChan id
            (some (blockedChan (s.channel q) (s.request s.running) L))) := by
  obtain ⟨hlive, hid⟩ := h.queues.queueById_eq_some.1 hq
  obtain ⟨hid', hL⟩ := hL
  have h1 := h.setStatus (p := s.running) (by simp) .waiting
  have a1 := (At.start hq).setStatus h.queues s.running .waiting
  set s₀ := s.setStatus s.running .waiting with hs₀
  have hacc : L.Accepts (s₀.pcbs s.running).syscallNum := by
    rcases hL with ⟨rfl, hn, -⟩ | ⟨rfl, hn, -⟩ <;> simpa [hs₀, PcbList.Accepts] using hn
  obtain ⟨h2, h3⟩ := h1.insertWaiting (L := L) (by simp) (by simp [hs₀]) hacc (by
    rcases hL with ⟨rfl, -, hsz, -⟩ | ⟨rfl, -, hsz, -⟩
    · exact .inl ⟨q, hlive, rfl, by simpa [hs₀] using hid', by simpa [hs₀] using hsz⟩
    · exact .inr ⟨q, hlive, rfl, by simpa [hs₀] using hid', by simpa [hs₀] using hsz⟩)
  have hl : s₀.list L = s.list L := by simp [hs₀]
  have a3 : At s (s₀.setList L (s₀.list L ++ [s.running])) s.channels id q
      (blockedChan (s.channel q) (s.request s.running) L) := by
    rcases hL with ⟨rfl, -⟩ | ⟨rfl, -⟩
    · have := a1.setReceivers h1.queues (s₀.list (.receivers q) ++ [s.running])
      simpa [blockedChan, State.list, hs₀, State.channel] using this
    · have := a1.setSenders h1.queues (s₀.list (.senders q) ++ [s.running])
      simpa [blockedChan, State.list, hs₀, State.channel] using this
  set s₁ := s₀.setList L (s₀.list L ++ [s.running]) with hs₁
  have hmem : s.running ∈ s₁.list L := by simp [hs₁]
  have hrun : s₁.running = s.running := by simp [hs₁, hs₀]
  refine ⟨s₁, h2, hrun, by simp [hs₁, hs₀], ?_⟩
  rcases schedule_blocked h3.placed h3.timed (h3.placed.alloc (hrun ▸ hmem)) with
    ⟨-, h4⟩ | ⟨-, s', h4, h5⟩
  · refine .inl ⟨h4, _, Placed.detach_eq hmem, ?_⟩
    have hn : s.running ∉ s.list L := h.placed.not_mem (by simp)
    rw [hs₁, list_setList_self, hl, erase_snoc_self hn, setList_setList, setList_setStatus, hs₀,
      setStatus_setStatus, ← h.status, setStatus_same, setList_same]
  · have hf := Rescheduled.schedule h4
    have hl' : s'.list L = s₁.list L := by
      rcases hL with ⟨rfl, -⟩ | ⟨rfl, -⟩ <;> simp only [State.list, hf.queues]
    refine .inr ⟨s', h4, fun e => ?_, ⟨h3.reschedule hf h5, h5.status, ?_⟩, ?_⟩
    · exact h5.placed.not_held (L := L) (p := s.running) (by rw [hl']; exact hmem) (by simp [e])
    · refine (a3.idle h.idle ?_).reschedule hf
      rcases hL with ⟨rfl, -, -, he⟩ | ⟨rfl, -, -, he⟩
      · exact fun _ => he
      · exact fun hne => absurd he hne
    · rw [hf.channels, a3.channels]

end

end DisastrOS
