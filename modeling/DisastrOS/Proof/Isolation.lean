import DisastrOS.Proof.Boot
import DisastrOS.Proof.Frames

/-!
# Isolation of queues

`view q s` is what there is to see of a state apart from the messages of the queues other than `q`:
it blanks those messages, their counters, the pool that all messages share, the block that a message
happens to have, and the history variables. Two runs of a call on queue `q` from states with the same
view lead to states with the same view, and leave the other queues alone (`isolated`).

`Alike q s₀ s t` is the relation that the operations of the queue calls keep: `s` and `t` have the
same view, and `s` has come about from `s₀` without a change of another queue.
-/

namespace DisastrOS

open Lib State

/-- The message without what tells it from another with its sender and its bytes. -/
def Message.anonymous (m : Message) : Message := { m with block := 0, call := 0 }

/-- A queue without its messages. -/
def MessageQueue.hidden (mq : MessageQueue) : MessageQueue :=
  { mq with messages := [], currentMessages := 0 }

/-- What there is to see from queue `q` (module doc). -/
def view (q : QueueRef) (s : State) : State :=
  { s with
    queues := fun i =>
      if i = q then { s.queues i with messages := (s.queues i).messages.map Message.anonymous }
      else (s.queues i).hidden
    pcbs := fun p => { s.pcbs p with call := 0 }
    messagePool := .init 0
    history := []
    calls := 0 }

structure Alike (q : QueueRef) (s₀ s t : State) : Prop where
  view : view q s = view q t
  other : ∀ i, i ≠ q → s.queues i = s₀.queues i

/-- The list is none of another queue. -/
def PcbList.Within (q : QueueRef) : PcbList → Prop
  | .receivers i | .senders i => i = q
  | _ => True

section
variable {s s₀ t : State} {q : QueueRef} {L : PcbList} {p : PcbRef} {ps : List PcbRef}
  {m m' : Message} {id : Int}

/-! ## Reading the view -/

theorem view_list : (view q s).list L = s.list L := by
  cases L with
  | receivers i => by_cases hi : i = q <;> simp [State.list, view, MessageQueue.hidden, hi]
  | senders i => by_cases hi : i = q <;> simp [State.list, view, MessageQueue.hidden, hi]
  | _ => rfl

theorem view_resource (r : ResourceRef) : (view q s).resource r = s.resource r := by
  cases r with
  | generic i => rfl
  | queue i => by_cases hi : i = q <;> simp [State.resource, view, MessageQueue.hidden, hi]

theorem popMessage_ok (h : popMessage s q p = .ok (m, t)) :
    m ∈ (s.queues q).messages ∧ t.messagePool = s.messagePool := by
  unfold popMessage at h
  split at h
  · cases h
  · rename_i m' ms hm
    cases h
    exact ⟨hm ▸ List.mem_cons_self, rfl⟩

namespace Alike

theorem refl (q : QueueRef) (s : State) : Alike q s s s := ⟨rfl, fun _ _ => rfl⟩

theorem list (h : Alike q s₀ s t) (L : PcbList) : s.list L = t.list L := by
  have := congrArg (State.list · L) h.view
  simpa only [view_list] using this

theorem running (h : Alike q s₀ s t) : s.running = t.running := (congrArg State.running h.view :)
theorem time (h : Alike q s₀ s t) : s.time = t.time := (congrArg State.time h.view :)
theorem timerList (h : Alike q s₀ s t) : s.timerList = t.timerList :=
  (congrArg State.timerList h.view :)
theorem readyList (h : Alike q s₀ s t) : s.readyList = t.readyList :=
  (congrArg State.readyList h.view :)
theorem resourcesList (h : Alike q s₀ s t) : s.resourcesList = t.resourcesList :=
  (congrArg State.resourcesList h.view :)
theorem mem (h : Alike q s₀ s t) : s.mem = t.mem := (congrArg State.mem h.view :)

theorem pcb (h : Alike q s₀ s t) (p : PcbRef) :
    { s.pcbs p with call := 0 } = { t.pcbs p with call := 0 } :=
  congrFun (congrArg State.pcbs h.view) p

theorem status (h : Alike q s₀ s t) (p : PcbRef) : (s.pcbs p).status = (t.pcbs p).status :=
  (congrArg PCB.status (h.pcb p) :)

theorem syscallArgs (h : Alike q s₀ s t) (p : PcbRef) :
    (s.pcbs p).syscallArgs = (t.pcbs p).syscallArgs := (congrArg PCB.syscallArgs (h.pcb p) :)

theorem resource (h : Alike q s₀ s t) (r : ResourceRef) : s.resource r = t.resource r := by
  have := congrArg (State.resource · r) h.view
  simpa only [view_resource] using this

theorem queue (h : Alike q s₀ s t) :
    { s.queues q with messages := (s.queues q).messages.map Message.anonymous } =
      { t.queues q with messages := (t.queues q).messages.map Message.anonymous } := by
  have := congrFun (congrArg State.queues h.view) q
  simpa [DisastrOS.view] using this

theorem messages (h : Alike q s₀ s t) : (s.queues q).messages.map Message.anonymous =
    (t.queues q).messages.map Message.anonymous := (congrArg MessageQueue.messages h.queue :)

theorem messages_eq_nil (h : Alike q s₀ s t) :
    (s.queues q).messages = [] ↔ (t.queues q).messages = [] := by
  rw [← List.map_eq_nil_iff (f := Message.anonymous), h.messages, List.map_eq_nil_iff]

theorem currentMessages (h : Alike q s₀ s t) :
    (s.queues q).currentMessages = (t.queues q).currentMessages :=
  (congrArg MessageQueue.currentMessages h.queue :)

theorem maxMessages (h : Alike q s₀ s t) :
    (s.queues q).maxMessages = (t.queues q).maxMessages :=
  (congrArg MessageQueue.maxMessages h.queue :)

theorem mqStatus (h : Alike q s₀ s t) : (s.queues q).status = (t.queues q).status :=
  (congrArg MessageQueue.status h.queue :)

/-! ## Operations -/

/-- An operation that can be carried out on the view. -/
theorem map (h : Alike q s₀ s t) (f g : State → State)
    (hf : ∀ s, DisastrOS.view q (f s) = g (DisastrOS.view q s))
    (ho : ∀ i, i ≠ q → (f s).queues i = s.queues i) : Alike q s₀ (f s) (f t) :=
  ⟨by rw [hf, hf, h.view], fun i hi => (ho i hi).trans (h.other i hi)⟩

/-- Operations that cannot be seen. -/
theorem hide {s' t' : State} (h : Alike q s₀ s t) (hs : DisastrOS.view q s' = DisastrOS.view q s)
    (ht : DisastrOS.view q t' = DisastrOS.view q t) (ho : ∀ i, i ≠ q → s'.queues i = s.queues i) :
    Alike q s₀ s' t' :=
  ⟨by rw [hs, ht, h.view], fun i hi => (ho i hi).trans (h.other i hi)⟩

theorem updPcb (h : Alike q s₀ s t) (p : PcbRef) {f : PCB → PCB}
    (hf : ∀ a, { f a with call := 0 } = f { a with call := 0 }) :
    Alike q s₀ (s.updPcb p f) (t.updPcb p f) := by
  refine h.map (State.updPcb · p f) (State.updPcb · p f) (fun s => ?_) fun _ _ => rfl
  unfold DisastrOS.view State.updPcb
  congr 1
  funext i
  by_cases hi : i = p
  · simp only [hi, if_true]
    exact hf _
  · simp only [hi, if_false]

theorem setStatus (h : Alike q s₀ s t) (p : PcbRef) (st : ProcessStatus) :
    Alike q s₀ (s.setStatus p st) (t.setStatus p st) :=
  h.updPcb p (f := ({ · with status := st })) fun _ => rfl

theorem setTimer (h : Alike q s₀ s t) (p : PcbRef) (x : Option Nat) :
    Alike q s₀ (s.setTimer p x) (t.setTimer p x) :=
  h.updPcb p (f := ({ · with timer := x })) fun _ => rfl

theorem record (h : Alike q s₀ s t) (a a' : Act) : Alike q s₀ (s.record a) (t.record a') :=
  h.hide rfl rfl fun _ _ => rfl

theorem setRetvalue (h : Alike q s₀ s t) (p : PcbRef) (r : Int) :
    Alike q s₀ (s.setRetvalue p r) (t.setRetvalue p r) :=
  (h.updPcb p (f := ({ · with syscallRetvalue := r })) fun _ => rfl).record _ _

theorem setRunning (h : Alike q s₀ s t) (p : PcbRef) : Alike q s₀ (s.setRunning p) (t.setRunning p) :=
  h.map (State.setRunning · p) (State.setRunning · p) (fun _ => rfl) fun _ _ => rfl

theorem messagePool (h : Alike q s₀ s t) (a a' : Pool) :
    Alike q s₀ { s with messagePool := a } { t with messagePool := a' } :=
  h.hide rfl rfl fun _ _ => rfl

theorem messageFree (h : Alike q s₀ s t) (m m' : Message) :
    Alike q s₀ (messageFree s m) (messageFree t m') := h.messagePool _ _

theorem deliver (h : Alike q s₀ s t) (hm : m.anonymous = m'.anonymous) (p : PcbRef) (buffer : Int) :
    Alike q s₀ (deliver s p buffer m) (deliver t p buffer m') := by
  have hd : m.data = m'.data := (congrArg Message.data hm :)
  unfold DisastrOS.deliver
  rw [hd]
  refine record ?_ _ _
  exact h.map (fun s => { s with mem := memWrite s.mem buffer m'.data })
    (fun s => { s with mem := memWrite s.mem buffer m'.data }) (fun _ => rfl) fun _ _ => rfl

/-! ## Lists -/

theorem setList (h : Alike q s₀ s t) (hL : L.Within q) (ps : List PcbRef) :
    Alike q s₀ (s.setList L ps) (t.setList L ps) := by
  refine h.map (State.setList · L ps) (State.setList · L ps) (fun s => ?_) fun i hi => ?_
  · cases L with
    | receivers j =>
      obtain rfl : j = q := hL
      unfold DisastrOS.view State.setList State.updQueue
      congr 1
      funext i
      by_cases hi : i = j <;> simp [hi]
    | senders j =>
      obtain rfl : j = q := hL
      unfold DisastrOS.view State.setList State.updQueue
      congr 1
      funext i
      by_cases hi : i = j <;> simp [hi]
    | _ => rfl
  · cases L with
    | receivers j =>
      obtain rfl : j = q := hL
      simp [State.setList, hi]
    | senders j =>
      obtain rfl : j = q := hL
      simp [State.setList, hi]
    | _ => rfl

theorem listInsert (h : Alike q s₀ s t) (hL : L.Within q) (p : PcbRef) (ps : List PcbRef) :
    Corresponds (Alike q s₀) (s.listInsert L p ps) (t.listInsert L p ps) := by
  have h1 : s.linked p = t.linked p := by simp only [State.linked, h.list]
  have h2 : s.listed p = t.listed p := by simp only [State.listed, h.list]
  unfold State.listInsert
  rw [h1, h2]
  split
  · exact h
  · split
    · exact rfl
    · exact h.setList hL ps

theorem listInsertLast (h : Alike q s₀ s t) (hL : L.Within q) (p : PcbRef) :
    Corresponds (Alike q s₀) (s.listInsertLast L p) (t.listInsertLast L p) := by
  unfold State.listInsertLast
  rw [h.list]
  exact h.listInsert hL p _

theorem listDetach (h : Alike q s₀ s t) (hL : L.Within q) (p : PcbRef) :
    Corresponds (Alike q s₀) (s.listDetach L p) (t.listDetach L p) := by
  unfold State.listDetach
  rw [h.list]
  split
  · exact h.setList hL _
  · exact rfl

theorem listDetachFirst (h : Alike q s₀ s t) (hL : L.Within q) :
    Corresponds (fun a b => a.1 = b.1 ∧ Alike q s₀ a.2 b.2) (s.listDetachFirst L)
      (t.listDetachFirst L) := by
  unfold State.listDetachFirst
  rw [h.list]
  split
  · exact rfl
  · exact ⟨rfl, h.setList hL _⟩

/-! ## The scheduler -/

theorem removeCurrent (h : Alike q s₀ s t) (x : TimerItem) :
    Alike q s₀ (timerListRemoveCurrent s x) (timerListRemoveCurrent t x) :=
  h.map (timerListRemoveCurrent · x) (timerListRemoveCurrent · x) (fun _ => rfl) fun _ _ => rfl

theorem wakeTimers (xs : List TimerItem) : ∀ (prev : Option PcbRef) {s t : State}, Alike q s₀ s t →
    Corresponds (Alike q s₀) (wakeTimers xs prev s) (wakeTimers xs prev t) := by
  induction xs with
  | nil =>
    intro _ _ _ h
    exact h
  | cons x xs ih =>
    intro prev s t h
    simp only [DisastrOS.wakeTimers, h.time]
    split
    · refine (h.listDetach (L := .waiting) trivial x.pcb).bind fun a b h1 => ?_
      have h2 := (h1.setStatus x.pcb .ready).setTimer x.pcb none
      unfold State.listInsertAfter
      rw [h2.list]
      refine (h2.listInsert (L := .ready) trivial x.pcb _).bind fun a b h3 => ?_
      exact ih _ (h3.removeCurrent x)
    · exact h

theorem dispatch (h : Alike q s₀ s t) : Corresponds (Alike q s₀) (dispatch s) (dispatch t) := by
  unfold DisastrOS.dispatch
  rw [h.readyList]
  split
  · exact h
  · refine (h.listDetachFirst (L := .ready) trivial).bind fun a b h1 => ?_
    obtain ⟨next, s₁⟩ := a
    obtain ⟨next', t₁⟩ := b
    obtain ⟨rfl, h1⟩ : next = next' ∧ Alike q s₀ s₁ t₁ := h1
    dsimp only
    rw [h1.running, h1.status]
    split
    · refine ((h1.setStatus _ .ready).listInsertLast (L := .ready) trivial _).bind fun a b h2 => ?_
      exact (h2.setStatus next .running).setRunning next
    · exact (h1.setStatus next .running).setRunning next

theorem schedule (h : Alike q s₀ s t) :
    Corresponds (Alike q s₀) (internalSchedule s) (internalSchedule t) := by
  unfold internalSchedule
  rw [h.timerList]
  exact (wakeTimers _ none h).bind fun _ _ h1 => h1.dispatch

/-! ## Messages -/

/-- An operation on the queue itself. -/
theorem updQueue {f f' g : MessageQueue → MessageQueue} (h : Alike q s₀ s t)
    (hf : ∀ a, { f a with messages := (f a).messages.map Message.anonymous } =
      g { a with messages := a.messages.map Message.anonymous })
    (hf' : ∀ a, { f' a with messages := (f' a).messages.map Message.anonymous } =
      g { a with messages := a.messages.map Message.anonymous }) :
    Alike q s₀ (s.updQueue q f) (t.updQueue q f') := by
  have key : ∀ (s : State) {f : MessageQueue → MessageQueue},
      (∀ a, { f a with messages := (f a).messages.map Message.anonymous } =
        g { a with messages := a.messages.map Message.anonymous }) →
      DisastrOS.view q (s.updQueue q f) = (DisastrOS.view q s).updQueue q g := by
    intro s f hf
    unfold DisastrOS.view State.updQueue
    congr 1
    funext i
    by_cases hi : i = q
    · simp only [hi, if_true]
      exact hf _
    · simp only [hi, if_false]
  refine ⟨by rw [key s hf, key t hf', h.view], fun i hi => ?_⟩
  rw [updQueue_queues, if_neg hi]
  exact h.other i hi

theorem setMqStatus (h : Alike q s₀ s t) (st : MQStatus) :
    Alike q s₀ (setMqStatus s q st) (setMqStatus t q st) :=
  h.updQueue (g := ({ · with status := st })) (fun _ => rfl) fun _ => rfl

theorem pushMessage (h : Alike q s₀ s t) (hm : m.anonymous = m'.anonymous) :
    Alike q s₀ (pushMessage s q m) (pushMessage t q m') := by
  refine record ?_ _ _
  refine h.updQueue (g := fun mq => { mq with
    messages := mq.messages ++ [m.anonymous], currentMessages := mq.currentMessages + 1 })
    (fun a => ?_) fun a => ?_
  · rw [List.map_append, List.map_singleton]
  · rw [List.map_append, List.map_singleton, hm]

theorem popMessage (h : Alike q s₀ s t) (p : PcbRef) :
    Corresponds (fun a b => a.1.anonymous = b.1.anonymous ∧ Alike q s₀ a.2 b.2)
      (popMessage s q p) (popMessage t q p) := by
  have hm := h.messages
  unfold DisastrOS.popMessage
  cases hs : (s.queues q).messages with
  | nil =>
    rw [h.messages_eq_nil.1 hs]
    exact rfl
  | cons m ms =>
    cases ht : (t.queues q).messages with
    | nil =>
      rw [h.messages_eq_nil.2 ht] at hs
      cases hs
    | cons m' ms' =>
      rw [hs, ht, List.map_cons, List.map_cons, List.cons.injEq] at hm
      refine ⟨hm.1, record ?_ _ _⟩
      exact h.updQueue (g := fun mq => { mq with
        messages := ms.map Message.anonymous, currentMessages := mq.currentMessages - 1 })
        (fun _ => rfl) fun _ => by rw [hm.2]

/-- A message with the bytes of the sender's buffer. -/
theorem fill (h : Alike q s₀ s t) (hm : m.anonymous = m'.anonymous) (p : PcbRef) (buffer : Int) :
    (m.fill s p buffer).anonymous = (m'.fill t p buffer).anonymous := by
  have h1 : m.size = m'.size := (congrArg Message.size hm :)
  have h2 : m.sender = m'.sender := (congrArg Message.sender hm :)
  unfold Message.fill Message.anonymous
  simp only [h1, h2, h.mem]

/-- With a free block on both sides, an allocation cannot be seen. -/
theorem messageAlloc (h : Alike q s₀ s t) (size : Int) (hs : s.messagePool.get ≠ none)
    (ht : t.messagePool.get ≠ none) :
    messageAlloc s size = none ∧ messageAlloc t size = none ∨
      ∃ m m' s' t', messageAlloc s size = some (m, s') ∧ messageAlloc t size = some (m', t') ∧
        m.anonymous = m'.anonymous ∧ Alike q s₀ s' t' := by
  unfold DisastrOS.messageAlloc
  split
  · exact .inl ⟨rfl, rfl⟩
  · obtain ⟨x, hx⟩ := Option.ne_none_iff_exists'.1 hs
    obtain ⟨y, hy⟩ := Option.ne_none_iff_exists'.1 ht
    rw [hx, hy]
    refine .inr ⟨_, _, _, _, rfl, rfl, ?_, h.messagePool x.2 y.2⟩
    simp only [Message.anonymous, h.running]

theorem freeMessages : ∀ (ms ms' : List Message) {s t : State},
    Alike q s₀ s t → ms.map Message.anonymous = ms'.map Message.anonymous →
    Alike q s₀ (freeMessages q ms s) (freeMessages q ms' t) := by
  intro ms
  induction ms with
  | nil =>
    intro ms' s t h hm
    obtain rfl := List.map_eq_nil_iff.1 hm.symm
    exact h
  | cons m ms ih =>
    intro ms' s t h hm
    cases ms' with
    | nil => cases hm
    | cons m' ms' =>
      rw [List.map_cons, List.map_cons, List.cons.injEq] at hm
      refine ih ms' (record (messageFree ?_ m m') _ _) hm.2
      exact h.updQueue (g := ({ · with messages := ms.map Message.anonymous }))
        (fun _ => rfl) fun _ => by rw [hm.2]

/-! ## Sending -/

theorem handOff (h : Alike q s₀ s t) : Corresponds (Alike q s₀) (handOff s q) (handOff t q) := by
  unfold DisastrOS.handOff
  refine (h.listDetachFirst (L := .receivers q) rfl).bind fun a b h1 => ?_
  obtain ⟨p, s₁⟩ := a
  obtain ⟨p', t₁⟩ := b
  obtain ⟨rfl, h1⟩ : p = p' ∧ Alike q s₀ s₁ t₁ := h1
  dsimp only
  rw [h1.syscallArgs]
  refine (h1.popMessage p).bind fun a b h2 => ?_
  obtain ⟨m, s₂⟩ := a
  obtain ⟨m', t₂⟩ := b
  obtain ⟨hm, h2⟩ : m.anonymous = m'.anonymous ∧ Alike q s₀ s₂ t₂ := h2
  have hsize : m.size = m'.size := (congrArg Message.size hm :)
  dsimp only
  rw [hsize]
  refine listInsertLast (L := .ready) (setStatus (messageFree ?_ m m') p .ready) trivial p
  split
  · exact h2.setRetvalue p _
  · exact (h2.deliver hm p _).setRetvalue p _

theorem mqSendEnqueue (h : Alike q s₀ s t) (hs : s.messagePool.get ≠ none)
    (ht : t.messagePool.get ≠ none) (p : PcbRef) (buffer size : Int) :
    Corresponds (Alike q s₀) (mqSendEnqueue s p q buffer size) (mqSendEnqueue t p q buffer size) := by
  unfold DisastrOS.mqSendEnqueue
  rcases h.messageAlloc size hs ht with ⟨h1, h2⟩ | ⟨m, m', s₁, t₁, h1, h2, hm, h3⟩
  · rw [h1, h2]
    exact (h.record _ _).setRetvalue p _
  · rw [h1, h2]
    have h4 := h3.pushMessage (h3.fill hm p buffer)
    have hr : (_ : List PcbRef) = _ := h4.list (.receivers q)
    dsimp only [State.list] at hr ⊢
    rw [hr]
    split
    · exact h4.handOff.bind fun _ _ h5 => h5.setRetvalue p _
    · exact h4.setRetvalue p _

/-! ## Receiving -/

theorem completeSend (h : Alike q s₀ s t) (hs : s.messagePool.get ≠ none)
    (ht : t.messagePool.get ≠ none) :
    Corresponds (Alike q s₀) (completeSend s q) (completeSend t q) := by
  unfold DisastrOS.completeSend
  refine (h.listDetachFirst (L := .senders q) rfl).bind_of fun a b e e' h1 => ?_
  obtain ⟨p, s₁⟩ := a
  obtain ⟨p', t₁⟩ := b
  obtain ⟨rfl, h1⟩ : p = p' ∧ Alike q s₀ s₁ t₁ := h1
  have hs₁ : s₁.messagePool.get ≠ none := by
    obtain ⟨ps, -, rfl⟩ := listDetachFirst_cases e
    rwa [setList_messagePool]
  have ht₁ : t₁.messagePool.get ≠ none := by
    obtain ⟨ps, -, rfl⟩ := listDetachFirst_cases e'
    rwa [setList_messagePool]
  dsimp only
  rw [h1.syscallArgs]
  refine listInsertLast (L := .ready) (setStatus ?_ p .ready) trivial p
  split
  · exact (h1.record _ _).setRetvalue p _
  · rcases h1.messageAlloc ((t₁.pcbs p).syscallArgs 2) hs₁ ht₁ with
      ⟨h2, h3⟩ | ⟨m, m', s₂, t₂, h2, h3, hm, h4⟩
    · rw [h2, h3]
      exact (h1.record _ _).setRetvalue p _
    · rw [h2, h3]
      exact (h4.pushMessage (h4.fill hm p _)).setRetvalue p _

/-- The block of a message of a live queue, once it is given back, is free. -/
theorem release_get (h : Inv s) (hq : q ∈ s.live) (hm : m ∈ (s.queues q).messages) :
    (s.messagePool.release m.block).get ≠ none := by
  have hu : s.messagePool.Used m.block := by
    refine h.queues.messages.mem_iff.1 ?_
    rw [List.nil_append, List.mem_flatMap]
    exact ⟨q, hq, List.mem_map_of_mem hm⟩
  rw [Ne, Pool.get_eq_none, Pool.release_free hu]
  exact List.cons_ne_nil _ _

theorem mqReceiveTake (h : Alike q s₀ s t) (hs : Inv s) (ht : Inv t) (hqs : q ∈ s.live)
    (hqt : q ∈ t.live) (p : PcbRef) (buffer size : Int) :
    Corresponds (Alike q s₀) (mqReceiveTake s p q buffer size) (mqReceiveTake t p q buffer size) := by
  unfold DisastrOS.mqReceiveTake
  refine (h.popMessage p).bind_of fun a b e e' h1 => ?_
  obtain ⟨m, s₁⟩ := a
  obtain ⟨m', t₁⟩ := b
  obtain ⟨hm, h1⟩ : m.anonymous = m'.anonymous ∧ Alike q s₀ s₁ t₁ := h1
  obtain ⟨hms, hps⟩ := popMessage_ok e
  obtain ⟨hmt, hpt⟩ := popMessage_ok e'
  have hsize : m.size = m'.size := (congrArg Message.size hm :)
  dsimp only
  rw [hsize]
  split
  · exact (h1.messageFree m m').setRetvalue p _
  · have h2 := (h1.deliver hm p buffer).messageFree m m'
    have hr : (_ : List PcbRef) = _ := h2.list (.senders q)
    dsimp only [State.list] at hr
    rw [hr]
    split
    · have h3 := h2.completeSend
        (by
          show (s₁.messagePool.release m.block).get ≠ none
          rw [hps]
          exact release_get hs hqs hms)
        (by
          show (t₁.messagePool.release m'.block).get ≠ none
          rw [hpt]
          exact release_get ht hqt hmt)
      exact h3.bind fun _ _ h4 => h4.setRetvalue p _
    · exact h2.setRetvalue p _

/-! ## Blocking -/

/-- The part of the calls that blocks the caller on the list `L`. What follows in case that the
caller goes on is never reached. -/
theorem block (h : Alike q s₀ s t) (hs : Inv s) (hq : s.queueById id = some q)
    (hb : Blockable s q L) (hL : L.Within q) (r : Int) (k k' : State → Except Halt State) :
    Corresponds (Alike q s₀)
      (do
        let s₁ ← (s.setStatus s.running .waiting).listInsertLast L s.running
        let s₁ ← internalSchedule s₁
        if s₁.running = s.running ∧ (s₁.pcbs s.running).status = .waiting then
          let s₁ ← s₁.listDetach L s.running
          .ok ((s₁.setStatus s.running .running).setRetvalue s.running r)
        else if s₁.running ≠ s.running then .ok s₁ else k s₁)
      (do
        let t₁ ← (t.setStatus s.running .waiting).listInsertLast L s.running
        let t₁ ← internalSchedule t₁
        if t₁.running = s.running ∧ (t₁.pcbs s.running).status = .waiting then
          let t₁ ← t₁.listDetach L s.running
          .ok ((t₁.setStatus s.running .running).setRetvalue s.running r)
        else if t₁.running ≠ s.running then .ok t₁ else k' t₁) := by
  obtain ⟨s₁, h1, h2, h3, h4⟩ := block_spec hs hq hb
  refine ((h.setStatus s.running .waiting).listInsertLast hL s.running).bind_of fun a b e _ h5 => ?_
  obtain rfl : s₁ = a := Except.ok.inj (h1.symm.trans e)
  refine h5.schedule.bind_of fun a b e _ h6 => ?_
  rw [← h6.running, ← h6.status]
  by_cases hc : a.running = s.running ∧ (a.pcbs s.running).status = .waiting
  · rw [if_pos hc, if_pos hc]
    refine (h6.listDetach hL s.running).bind fun _ _ h7 => ?_
    exact (h7.setStatus s.running .running).setRetvalue s.running r
  · have hne : a.running ≠ s.running := by
      rcases h4 with ⟨h4, -⟩ | ⟨s', h4, hne, -⟩
      · obtain rfl : s₁ = a := Except.ok.inj (h4.symm.trans e)
        exact absurd ⟨h2, h3⟩ hc
      · obtain rfl : s' = a := Except.ok.inj (h4.symm.trans e)
        exact hne
    rw [if_neg hc, if_neg hc, if_pos hne, if_pos hne]
    exact h6

/-! ## The calls -/

theorem lookupQueue (h : Alike q s₀ s t) (id : Int) : lookupQueue s id = lookupQueue t id := by
  unfold DisastrOS.lookupQueue resourceListById
  rw [h.resourcesList]
  simp only [h.resource]

theorem live (h : Alike q s₀ s t) : s.live = t.live := by
  unfold State.live
  rw [h.resourcesList]

theorem mqSend (h : Alike q s₀ s t) (hs : Inv s) (ht : Inv t) (hq : s.queueById id = some q)
    (hid : (s.pcbs s.running).syscallArgs 0 = id)
    (hn : (s.pcbs s.running).syscallNum = dsosCallMqSend) :
    Corresponds (Alike q s₀) (internalMqSend s) (internalMqSend t) := by
  obtain ⟨hlive, hqid⟩ := hs.queues.queueById_eq_some.1 hq
  have hlive' : q ∈ t.live := h.live ▸ hlive
  unfold internalMqSend
  simp only [← h.running, ← h.syscallArgs, ← h.lookupQueue, hid]
  split
  · exact h.setRetvalue _ _
  split
  · exact h.setRetvalue _ _
  rename_i hsize
  have hsize : SendSize ((s.pcbs s.running).syscallArgs 2) := by
    unfold SendSize
    omega
  rw [hs.queues.lookupQueue_eq, hq]
  simp only [ok_bind, ← h.currentMessages, ← h.maxMessages, ← h.mqStatus]
  by_cases hf : (s.queues q).currentMessages ≥ (s.queues q).maxMessages
  · rw [if_pos hf, if_pos hf, if_neg (by simp [(hs.idle q hlive).1]),
      if_neg (by simp [(hs.idle q hlive).1])]
    exact h.block hs hq (blockable_send hs hlive (hid.trans hqid.symm) hn hsize hf) rfl _ _ _
  · rw [if_neg hf, if_neg hf]
    have hroom : ∀ {u}, Inv u → q ∈ u.live →
        ¬ (u.queues q).currentMessages ≥ (u.queues q).maxMessages → u.messagePool.get ≠ none := by
      intro u hu hl hn
      have := (hu.queues.ok q hl).count
      obtain ⟨b, pool, hg⟩ := hu.queues.get_message hl (by omega)
      rw [hg]
      exact Option.some_ne_none _
    exact h.mqSendEnqueue (hroom hs hlive hf)
      (hroom ht hlive' (by rw [← h.currentMessages, ← h.maxMessages]; exact hf)) _ _ _

theorem mqReceive (h : Alike q s₀ s t) (hs : Inv s) (ht : Inv t) (hq : s.queueById id = some q)
    (hid : (s.pcbs s.running).syscallArgs 0 = id)
    (hn : (s.pcbs s.running).syscallNum = dsosCallMqReceive) :
    Corresponds (Alike q s₀) (internalMqReceive s) (internalMqReceive t) := by
  obtain ⟨hlive, hqid⟩ := hs.queues.queueById_eq_some.1 hq
  have hlive' : q ∈ t.live := h.live ▸ hlive
  unfold internalMqReceive
  simp only [← h.running, ← h.syscallArgs, ← h.lookupQueue, hid]
  split
  · exact h.setRetvalue _ _
  split
  · exact h.setRetvalue _ _
  rename_i hsize
  rw [hs.queues.lookupQueue_eq, hq]
  simp only [ok_bind, ← h.mqStatus]
  by_cases he : (s.queues q).messages = []
  · rw [if_pos he, if_pos (h.messages_eq_nil.1 he), if_neg (by simp [(hs.idle q hlive).1]),
      if_neg (by simp [(hs.idle q hlive).1])]
    exact h.block hs hq (blockable_receive (hid.trans hqid.symm) hn (by omega) he) rfl _ _ _
  · rw [if_neg he, if_neg (fun he' => he (h.messages_eq_nil.2 he'))]
    exact h.mqReceiveTake hs ht hlive hlive' _ _ _

theorem wakeAll (hL : L.Within q) : ∀ (ps : List PcbRef) {s t : State}, Alike q s₀ s t →
    Corresponds (Alike q s₀) (wakeAll L ps s) (wakeAll L ps t) := by
  intro ps
  induction ps with
  | nil => exact fun h => h
  | cons _ ps ih =>
    intro s t h
    refine (h.listDetachFirst hL).bind fun a b h1 => ?_
    obtain ⟨p, s₁⟩ := a
    obtain ⟨p', t₁⟩ := b
    obtain ⟨rfl, h1⟩ : p = p' ∧ Alike q s₀ s₁ t₁ := h1
    have h2 := (h1.setStatus p .ready).setRetvalue p dsosEMqNotOpen
    exact (h2.listInsertLast (L := .ready) trivial p).bind fun _ _ h3 => ih h3

theorem detachResource (h : Alike q s₀ s t) (r : ResourceRef) :
    Corresponds (Alike q s₀) (detachResource s r) (detachResource t r) := by
  unfold DisastrOS.detachResource
  rw [h.resourcesList]
  split
  · exact h.map (fun s => { s with resourcesList := t.resourcesList.erase r })
      (fun s => { s with resourcesList := t.resourcesList.erase r }) (fun _ => rfl) fun _ _ => rfl
  · exact rfl

theorem messageQueueFree (h : Alike q s₀ s t) :
    Corresponds (Alike q s₀) (messageQueueFree s q) (messageQueueFree t q) := by
  have h1 : (s.queues q).waitingReceivers = (t.queues q).waitingReceivers := h.list (.receivers q)
  have h2 : (s.queues q).waitingSenders = (t.queues q).waitingSenders := h.list (.senders q)
  have h3 : (s.queues q).resource = (t.queues q).resource := h.resource (.queue q)
  have h4 : s.queuePool = t.queuePool := (congrArg State.queuePool h.view :)
  unfold DisastrOS.messageQueueFree
  simp only [h1, h2, h3, Ne, h.messages_eq_nil]
  split
  · exact rfl
  · rw [h4]
    exact h.map (fun s => { s with queuePool := t.queuePool.release q })
      (fun s => { s with queuePool := t.queuePool.release q }) (fun _ => rfl) fun _ _ => rfl

theorem mqDestroy (h : Alike q s₀ s t) (hs : Inv s) (hq : s.queueById id = some q)
    (hid : (s.pcbs s.running).syscallArgs 0 = id) :
    Corresponds (Alike q s₀) (internalMqDestroy s) (internalMqDestroy t) := by
  unfold internalMqDestroy
  simp only [← h.running, ← h.syscallArgs, ← h.lookupQueue, hid]
  split
  · exact h.setRetvalue _ _
  rw [hs.queues.lookupQueue_eq, hq]
  simp only [ok_bind, ← h.mqStatus]
  split
  · exact h.setRetvalue _ _
  have h1 := h.setMqStatus .closing
  have hr : (_ : List PcbRef) = _ := h1.list (.receivers q)
  dsimp only [State.list] at hr
  rw [hr]
  refine (wakeAll (L := .receivers q) rfl _ h1).bind fun a b h2 => ?_
  have hw : (_ : List PcbRef) = _ := h2.list (.senders q)
  dsimp only [State.list] at hw
  rw [hw]
  refine (wakeAll (L := .senders q) rfl _ h2).bind fun a b h3 => ?_
  have h4 := (freeMessages _ _ h3 h3.messages).setMqStatus .closed
  refine (h4.detachResource (.queue q)).bind fun a b h5 => ?_
  exact h5.messageQueueFree.bind fun a b h6 => (h6.record _ _).setRetvalue _ _

theorem saveCall (h : Alike q s₀ s t) (c : Syscall) : Alike q s₀ (saveCall s c) (saveCall t c) := by
  have key : ∀ s, DisastrOS.view q (DisastrOS.saveCall s c) =
      (DisastrOS.view q s).updPcb s.running fun pcb =>
        { pcb with
          syscallArgs := fun i => c.args.getD i (pcb.syscallArgs i)
          syscallNum := c.num } := by
    intro s
    unfold DisastrOS.view DisastrOS.saveCall State.updPcb
    simp only [record_running, record_pcbs, record_queues]
    congr 1
    funext i
    by_cases hi : i = s.running <;> simp only [hi, if_true, if_false]
  exact ⟨by rw [key, key, h.view, h.running], h.other⟩

end Alike

/-- The call is a send, a receive or a destruction on queue `id`. -/
def Syscall.On (id : Int) : Syscall → Prop
  | .mqSend i _ _ | .mqReceive i _ _ | .mqDestroy i => i = id
  | _ => False

theorem Alike.call {c : Syscall} (h : Alike q s s t) (hs : Inv s) (ht : Inv t)
    (hq : s.queueById id = some q) (hc : c.On id) :
    Corresponds (Alike q s) (step s (.syscall c)) (step t (.syscall c)) := by
  have h1 := h.saveCall c
  have hs1 := hs.saveCall c
  have ht1 := ht.saveCall c
  have harg := saveCall_args s c 0
  have hnum := saveCall_num s c
  cases c with
  | mqSend i buffer size =>
    rw [step_syscall rfl, step_syscall rfl]
    exact h1.mqSend hs1 ht1 hq (harg.trans hc) hnum
  | mqReceive i buffer size =>
    rw [step_syscall rfl, step_syscall rfl]
    exact h1.mqReceive hs1 ht1 hq (harg.trans hc) hnum
  | mqDestroy i =>
    rw [step_syscall rfl, step_syscall rfl]
    exact h1.mqDestroy hs1 hq (harg.trans hc)
  | _ => exact hc.elim

/-- Such a call returns to user code. -/
theorem Inv.call_ok {c : Syscall} (h : Inv s) (hc : c.On id) :
    ∃ s', step s (.syscall c) = .ok s' := by
  cases c with
  | mqSend i buffer size =>
    obtain ⟨s', h1, -⟩ := mqSend_spec h i buffer size
    exact ⟨s', (step_syscall rfl).trans h1⟩
  | mqReceive i buffer size =>
    obtain ⟨s', h1, -⟩ := mqReceive_spec h i buffer size
    exact ⟨s', (step_syscall rfl).trans h1⟩
  | mqDestroy i =>
    obtain ⟨s', h1, -⟩ := mqDestroy_spec h i
    exact ⟨s', (step_syscall rfl).trans h1⟩
  | _ => exact hc.elim

/-! ## A message for another queue -/

variable {i : QueueRef}

theorem view_updPcb {f : PCB → PCB}
    (hf : { f (s.pcbs p) with call := 0 } = { s.pcbs p with call := 0 }) :
    view q (s.updPcb p f) = view q s := by
  unfold view
  congr 1
  funext i
  by_cases hi : i = p
  · subst hi
    simpa using hf
  · simp [hi]

theorem view_pushMessage (hi : i ≠ q) (m : Message) : view q (pushMessage s i m) = view q s := by
  unfold view pushMessage State.updQueue
  congr 1
  funext j
  by_cases hj : j = i
  · simp [hj, hi, MessageQueue.hidden]
  · simp [hj]

/-- A call that the PCB of its caller shows already. -/
theorem view_saveCall {c : Syscall} (hnum : (s.pcbs s.running).syscallNum = c.num)
    (hargs : ∀ j < c.args.length, (s.pcbs s.running).syscallArgs j = c.args.getD j 0) :
    view q (saveCall s c) = view q s := by
  have hpcb : (fun j => c.args.getD j ((s.pcbs s.running).syscallArgs j)) =
      (s.pcbs s.running).syscallArgs := by
    funext j
    by_cases hj : j < c.args.length
    · rw [hargs j hj]
      simp [hj]
    · simp [Nat.not_lt.1 hj]
  refine Eq.trans ?_ (view_updPcb (s := s) (p := s.running) (f := fun pcb =>
    { pcb with
      syscallArgs := fun i => c.args.getD i (pcb.syscallArgs i)
      syscallNum := c.num
      call := s.calls }) ?_)
  · rfl
  · dsimp only
    rw [hpcb, ← hnum]

/-- A message for a queue with room, where nobody waits for one, cannot be seen from another. -/
theorem view_mqSendEnqueue (buffer size : Int) (hi : i ≠ q) (hsize : SendSize size)
    (hfree : s.messagePool.get ≠ none) (hno : (s.queues i).waitingReceivers = [])
    (hret : (s.pcbs p).syscallRetvalue = 0) :
    ∃ t, mqSendEnqueue s p i buffer size = .ok t ∧ view q t = view q s := by
  obtain ⟨⟨b, pool⟩, hg⟩ := Option.ne_none_iff_exists'.1 hfree
  have halloc : messageAlloc s size = some
      (⟨b, size, List.replicate size.toNat 0, s.running, 0⟩, { s with messagePool := pool }) := by
    unfold messageAlloc
    obtain ⟨hpos, hmax⟩ := hsize
    rw [if_neg (by omega), hg]
  unfold mqSendEnqueue
  rw [halloc]
  have hno' (m : Message) :
      ((pushMessage { s with messagePool := pool } i m).queues i).waitingReceivers = [] := by
    simpa [pushMessage] using hno
  simp only [hno', ne_eq, not_true_eq_false, if_false]
  refine ⟨_, rfl, ?_⟩
  refine (view_updPcb (f := ({ · with syscallRetvalue := 0 })) ?_).trans (view_pushMessage hi _)
  simp [pushMessage, ← hret]

/-- The caller sends once more to a queue with room, and sees nothing of it from another queue. -/
theorem view_mqSend {buffer size : Int} (h : Inv s) (hi : s.queueById id = some i) (hiq : i ≠ q)
    (hid : 0 < id) (hsize : SendSize size)
    (hroom : (s.queues i).currentMessages < (s.queues i).maxMessages)
    (hno : (s.queues i).waitingReceivers = [])
    (hnum : (s.pcbs s.running).syscallNum = dsosCallMqSend)
    (hargs : ∀ j < 3, (s.pcbs s.running).syscallArgs j = [id, buffer, size].getD j 0)
    (hret : (s.pcbs s.running).syscallRetvalue = 0) :
    ∃ t, step s (.syscall (.mqSend id buffer size)) = .ok t ∧ view q t = view q s := by
  obtain ⟨hlive, -⟩ := h.queues.queueById_eq_some.1 hi
  have hcount := (h.queues.ok i hlive).count
  obtain ⟨b, pool, hg⟩ := h.queues.get_message hlive (by omega)
  have hfree : (saveCall s (.mqSend id buffer size)).messagePool.get ≠ none := by
    show s.messagePool.get ≠ none
    rw [hg]
    exact Option.some_ne_none _
  have hlook : lookupQueue (saveCall s (.mqSend id buffer size)) id = .ok (some i) := by
    rw [(h.saveCall _).queues.lookupQueue_eq]
    exact congrArg Except.ok hi
  obtain ⟨t, ht, hv⟩ := view_mqSendEnqueue (p := s.running) buffer size hiq hsize hfree hno
    (by simpa [saveCall] using hret)
  refine ⟨t, ?_, hv.trans (view_saveCall hnum hargs)⟩
  have hfull : ¬ ((saveCall s (.mqSend id buffer size)).queues i).currentMessages ≥
      ((saveCall s (.mqSend id buffer size)).queues i).maxMessages := not_le.2 hroom
  obtain ⟨hpos, hmax⟩ := hsize
  rw [step_syscall rfl, ← ht]
  unfold internalMqSend
  simp only [saveCall_running, saveCall_args, Syscall.args, List.getD_cons_zero,
    List.getD_cons_succ]
  rw [if_neg (by omega), if_neg (by omega), hlook, ok_bind]
  exact if_neg hfull

/-- **Queues are isolated from each other.** A call on queue `q` leaves every other queue as it was,
and what it does to all that can be seen of the state (return values, memory, the contents of `q`, the
lists, the running process) does not depend on the messages in other queues, although they come from
the same pool. -/
theorem isolated {c : Syscall} {es : List Event} (he : ∀ e ∈ es, e.IsMq)
    (hr : run step boot es = .ok s) (hq : s.queueById id = some q) (hc : c.On id) :
    ∃ s', step s (.syscall c) = .ok s' ∧ (∀ i, i ≠ q → s'.queues i = s.queues i) ∧
      ∀ (es' : List Event) (t : State), (∀ e ∈ es', e.IsMq) → run step boot es' = .ok t →
        view q s = view q t → ∃ t', step t (.syscall c) = .ok t' ∧ view q s' = view q t' := by
  have hs := (run_mq he hr).toInv
  obtain ⟨s', h1⟩ := hs.call_ok hc
  have h2 := ((Alike.refl q s).call hs hs hq hc).ok h1 h1
  refine ⟨s', h1, h2.other, fun es' t he' hr' hv => ?_⟩
  have ht := (run_mq he' hr').toInv
  obtain ⟨t', h3⟩ := ht.call_ok hc
  have h4 : Alike q s s t := ⟨hv, fun _ _ => rfl⟩
  exact ⟨t', h3, ((h4.call hs ht hq hc).ok h1 h3).view⟩

/-- Queue 6 holds a message when a process sends to queue 5. -/
def crowdedRun : List Event :=
  [.syscall (.mqCreate 5 1), .syscall (.mqCreate 6 2), .syscall (.mqSend 6 100 1)]

/-- Whether queue 6 holds one message or two does not matter to the send. -/
theorem isolated_crowdedRun : ∃ s s' t t', run step boot crowdedRun = .ok s ∧
    run step boot (crowdedRun ++ [.syscall (.mqSend 6 100 1)]) = .ok t ∧
    (s.queues 1).messages.length = 1 ∧ (t.queues 1).messages.length = 2 ∧ view 0 s = view 0 t ∧
    step s (.syscall (.mqSend 5 100 2)) = .ok s' ∧ s'.queues 1 = s.queues 1 ∧
    step t (.syscall (.mqSend 5 100 2)) = .ok t' ∧ view 0 s' = view 0 t' := by
  have hc : (run step boot crowdedRun).toOption.any (fun s =>
      s.queueById 5 = some 0 ∧ s.queueById 6 = some 1 ∧ (s.queues 1).messages.length = 1 ∧
        (s.queues 1).currentMessages < (s.queues 1).maxMessages ∧
        (s.queues 1).waitingReceivers = [] ∧ (s.pcbs s.running).syscallNum = dsosCallMqSend ∧
        (∀ j < 3, (s.pcbs s.running).syscallArgs j = ([6, 100, 1] : List Int).getD j 0) ∧
        (s.pcbs s.running).syscallRetvalue = 0) = true := by decide +kernel
  have hc' : (run step boot (crowdedRun ++ [.syscall (.mqSend 6 100 1)])).toOption.any (fun t =>
      (t.queues 1).messages.length = 2) = true := by decide +kernel
  obtain ⟨s, hr, hc⟩ := run_check hc
  obtain ⟨t, hr', hc'⟩ := run_check hc'
  obtain ⟨hq, hi, hlen, hroom, hno, hnum, hargs, hret⟩ := of_decide_eq_true hc
  have he : ∀ e ∈ crowdedRun, e.IsMq := by decide
  obtain ⟨t₁, ht, hv⟩ := view_mqSend (q := 0) (run_mq he hr).toInv hi (by decide) (by decide)
    ⟨by decide, by decide⟩ hroom hno hnum hargs hret
  obtain rfl : t₁ = t := by
    rw [run_snoc hr, ht] at hr'
    exact Except.ok.inj hr'
  obtain ⟨s', h1, h2, h3⟩ := isolated (c := .mqSend 5 100 2) he hr hq rfl
  obtain ⟨t', h4, h5⟩ := h3 _ t₁ (by decide) hr' hv.symm
  exact ⟨s, s', t₁, t', hr, hr', hlen, of_decide_eq_true hc', hv.symm, h1, h2 1 (by decide), h4, h5⟩

end

end DisastrOS
