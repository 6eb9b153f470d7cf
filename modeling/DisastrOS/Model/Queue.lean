import DisastrOS.Model.Resource
import DisastrOS.Model.Schedule

/-!
# Message queues

`disastrOS_message.c`, `disastrOS_message_queue.c` and the four syscalls on queues. Address 0 is
memory like any other here, where the code dies in `memcpy` if the buffer of a message is `NULL`.
-/

namespace DisastrOS

open Lib

/-! ## Messages -/

/-- The payload is zeroed; the sender is the running process. -/
def messageAlloc (s : State) (size : Int) : Option (Message × State) :=
  if size ≤ 0 ∨ size > messageMaxSize then none
  else
    match s.messagePool.get with
    | none => none
    | some (b, pool) =>
      some (⟨b, size, List.replicate size.toNat 0, s.running, 0⟩, { s with messagePool := pool })

def messageFree (s : State) (m : Message) : State :=
  { s with messagePool := s.messagePool.release m.block }

/-- The message with the payload copied from the user buffer of process `p`. -/
def Message.fill (m : Message) (s : State) (p : PcbRef) (buffer : Int) : Message :=
  { m with data := memRead s.mem buffer m.size.toNat, call := (s.pcbs p).call }

/-- `List_insert(&mq->messages, mq->messages.last, m)` and `mq->current_messages++`. -/
def pushMessage (s : State) (q : QueueRef) (m : Message) : State :=
  (s.updQueue q fun mq =>
    { mq with messages := mq.messages ++ [m], currentMessages := mq.currentMessages + 1 }).record
    (.enqueue (s.queues q).queueId m)

/-- `List_detach(&mq->messages, mq->messages.first)` and `mq->current_messages--`, for the receive
call of process `p`. -/
def popMessage (s : State) (q : QueueRef) (p : PcbRef) : Except Halt (Message × State) :=
  match (s.queues q).messages with
  | [] => .error .nullDeref
  | m :: ms =>
    .ok (m, (s.updQueue q fun mq =>
      { mq with messages := ms, currentMessages := mq.currentMessages - 1 }).record
      (.dequeue (s.queues q).queueId m (s.pcbs p).call))

/-- `memcpy(buffer, m->data, m->size)` into the user buffer of process `p`. -/
def deliver (s : State) (p : PcbRef) (buffer : Int) (m : Message) : State :=
  { s with mem := memWrite s.mem buffer m.data }.record (.deliver (s.pcbs p).call buffer m.data)

/-! ## Queues -/

def messageQueueAlloc (s : State) (queueId size : Int) : Option (QueueRef × State) :=
  match s.queuePool.get with
  | none => none
  | some (q, pool) =>
    some (q, { s with queuePool := pool }.updQueue q fun _ =>
      { resource := ⟨queueId, resourceMessageQueue, 0, []⟩
        messages := [], waitingReceivers := [], waitingSenders := [],
        maxMessages := size, currentMessages := 0, queueId := queueId, status := .open })

def messageQueueFree (s : State) (q : QueueRef) : Except Halt State :=
  let mq := s.queues q
  if mq.waitingReceivers ≠ [] ∨ mq.waitingSenders ≠ [] ∨ mq.messages ≠ [] ∨
      mq.resource.descriptorsPtrs ≠ [] then .error .assertion
  else .ok { s with queuePool := s.queuePool.release q }

def setMqStatus (s : State) (q : QueueRef) (st : MQStatus) : State :=
  s.updQueue q ({ · with status := st })

/-- The lookup that send, receive and destroy start with: the resource with this id, if it has the
type of a queue, cast to `MessageQueue*`. -/
def lookupQueue (s : State) (queueId : Int) : Except Halt (Option QueueRef) :=
  match resourceListById s queueId with
  | none => .ok none
  | some res =>
    if (s.resource res).type ≠ resourceMessageQueue then .ok none
    else
      match res with
      | .queue q => .ok (some q)
      | .generic _ => .error .badCast

/-! ## Create -/

def internalMqCreate (s : State) : Except Halt State :=
  let caller := s.running
  let queueId := (s.pcbs caller).syscallArgs 0
  let size := (s.pcbs caller).syscallArgs 1
  if queueId ≤ 0 ∨ size ≤ 0 ∨ size > maxMessagesPerQueue then
    .ok (s.setRetvalue caller dsosEMqInvalid)
  else if (resourceListById s queueId).any fun r => (s.resource r).type = resourceMessageQueue then
    .ok (s.setRetvalue caller dsosEMqExists)
  else
    match messageQueueAlloc s queueId size with
    | none => .ok (s.setRetvalue caller dsosEMqCreate)
    | some (q, s) =>
      let s := { s with resourcesList := s.resourcesList ++ [ResourceRef.queue q] }.record
        (.create queueId)
      .ok (s.setRetvalue caller queueId)

/-! ## Send -/

/-- The hand-off to the first waiting receiver. -/
def handOff (s : State) (q : QueueRef) : Except Halt State := do
  let (receiver, s) ← s.listDetachFirst (.receivers q)
  let receiverBuffer := (s.pcbs receiver).syscallArgs 1
  let receiverBufferSize := (s.pcbs receiver).syscallArgs 2
  let (msg, s) ← popMessage s q receiver
  let s := if receiverBufferSize < msg.size then s.setRetvalue receiver dsosEBuffer
    else (deliver s receiver receiverBuffer msg).setRetvalue receiver msg.size
  let s := messageFree s msg
  let s := s.setStatus receiver .ready
  s.listInsertLast .ready receiver

/-- The part of `internal_mq_send` that follows the full-queue check. -/
def mqSendEnqueue (s : State) (caller : PcbRef) (q : QueueRef) (userBuffer size : Int) :
    Except Halt State :=
  match messageAlloc s size with
  | none => .ok ((s.record (.noMessage (s.pcbs caller).call)).setRetvalue caller dsosEBuffer)
  | some (msg, s) => do
    let s := pushMessage s q (msg.fill s caller userBuffer)
    if (s.queues q).waitingReceivers ≠ [] then
      let s ← handOff s q
      .ok (s.setRetvalue caller 0)
    else .ok (s.setRetvalue caller 0)

def internalMqSend (s : State) : Except Halt State := do
  let caller := s.running
  let queueId := (s.pcbs caller).syscallArgs 0
  let userBuffer := (s.pcbs caller).syscallArgs 1
  let size := (s.pcbs caller).syscallArgs 2
  if queueId ≤ 0 then .ok (s.setRetvalue caller dsosEMqInvalid)
  else if size ≤ 0 ∨ size > messageMaxSize then .ok (s.setRetvalue caller dsosEBuffer)
  else
    match ← lookupQueue s queueId with
    | none => .ok (s.setRetvalue caller dsosEMqInvalid)
    | some q =>
      if (s.queues q).currentMessages ≥ (s.queues q).maxMessages then
        if (s.queues q).status ≠ .open then .ok (s.setRetvalue caller dsosEMqNotOpen)
        else
          let s := s.setStatus caller .waiting
          let s ← s.listInsertLast (.senders q) caller
          let s ← internalSchedule s
          -- no process was schedulable
          if s.running = caller ∧ (s.pcbs caller).status = .waiting then
            let s ← s.listDetach (.senders q) caller
            let s := s.setStatus caller .running
            .ok (s.setRetvalue caller dsosEMqFull)
          -- the scheduler switched to another process
          else if s.running ≠ caller then .ok s
          else if (s.queues q).currentMessages ≥ (s.queues q).maxMessages then .ok s
          else mqSendEnqueue s caller q userBuffer size
      else mqSendEnqueue s caller q userBuffer size

/-! ## Receive -/

/-- The completion of the first pending send. -/
def completeSend (s : State) (q : QueueRef) : Except Halt State := do
  let (sender, s) ← s.listDetachFirst (.senders q)
  let senderSize := (s.pcbs sender).syscallArgs 2
  let senderBuffer := (s.pcbs sender).syscallArgs 1
  let s :=
    if senderSize ≤ 0 ∨ senderSize > messageMaxSize then
      (s.record (.badSize (s.pcbs sender).call)).setRetvalue sender dsosEBuffer
    else
      match messageAlloc s senderSize with
      | none => (s.record (.noMessage (s.pcbs sender).call)).setRetvalue sender dsosEBuffer
      | some (senderMsg, s) =>
        (pushMessage s q (senderMsg.fill s sender senderBuffer)).setRetvalue sender 0
  let s := s.setStatus sender .ready
  s.listInsertLast .ready sender

/-- The part of `internal_mq_receive` that follows the empty-queue check. -/
def mqReceiveTake (s : State) (caller : PcbRef) (q : QueueRef) (userBuffer bufferSize : Int) :
    Except Halt State := do
  let (msg, s) ← popMessage s q caller
  if bufferSize < msg.size then
    .ok ((messageFree s msg).setRetvalue caller dsosEBuffer)
  else
    let s := deliver s caller userBuffer msg
    let s := messageFree s msg
    if (s.queues q).waitingSenders ≠ [] then
      let s ← completeSend s q
      .ok (s.setRetvalue caller msg.size)
    else .ok (s.setRetvalue caller msg.size)

def internalMqReceive (s : State) : Except Halt State := do
  let caller := s.running
  let queueId := (s.pcbs caller).syscallArgs 0
  let userBuffer := (s.pcbs caller).syscallArgs 1
  let bufferSize := (s.pcbs caller).syscallArgs 2
  if queueId ≤ 0 then .ok (s.setRetvalue caller dsosEMqInvalid)
  else if bufferSize ≤ 0 then .ok (s.setRetvalue caller dsosEBuffer)
  else
    match ← lookupQueue s queueId with
    | none => .ok (s.setRetvalue caller dsosEMqInvalid)
    | some q =>
      if (s.queues q).messages = [] then
        if (s.queues q).status ≠ .open then .ok (s.setRetvalue caller dsosEMqNotOpen)
        else
          let s := s.setStatus caller .waiting
          let s ← s.listInsertLast (.receivers q) caller
          let s ← internalSchedule s
          -- no process was schedulable
          if s.running = caller ∧ (s.pcbs caller).status = .waiting then
            let s ← s.listDetach (.receivers q) caller
            let s := s.setStatus caller .running
            .ok (s.setRetvalue caller dsosEMqEmpty)
          -- the scheduler switched to another process
          else if s.running ≠ caller then .ok s
          else if (s.queues q).messages = [] then .ok s
          else mqReceiveTake s caller q userBuffer bufferSize
      else mqReceiveTake s caller q userBuffer bufferSize

/-! ## Destroy -/

/-- The loops that wake the processes of a waiting list; the argument is the list. -/
def wakeAll (L : PcbList) : List PcbRef → State → Except Halt State
  | [], s => .ok s
  | _ :: ps, s => do
    let (pcb, s) ← s.listDetachFirst L
    let s := s.setStatus pcb .ready
    let s := s.setRetvalue pcb dsosEMqNotOpen
    let s ← s.listInsertLast .ready pcb
    wakeAll L ps s

/-- The loop that frees the messages of a queue; the argument is its list. -/
def freeMessages (q : QueueRef) : List Message → State → State
  | [], s => s
  | m :: ms, s =>
    let s := s.updQueue q ({ · with messages := ms })
    freeMessages q ms ((messageFree s m).record (.discard (s.queues q).queueId m))

def internalMqDestroy (s : State) : Except Halt State := do
  let caller := s.running
  let queueId := (s.pcbs caller).syscallArgs 0
  if queueId ≤ 0 then .ok (s.setRetvalue caller dsosEMqInvalid)
  else
    match ← lookupQueue s queueId with
    | none => .ok (s.setRetvalue caller dsosEMqInvalid)
    | some q =>
      if (s.queues q).status = .closed then .ok (s.setRetvalue caller dsosEMqClosed)
      else
        let s := setMqStatus s q .closing
        let s ← wakeAll (.receivers q) (s.queues q).waitingReceivers s
        let s ← wakeAll (.senders q) (s.queues q).waitingSenders s
        let s := freeMessages q (s.queues q).messages s
        let s := setMqStatus s q .closed
        let s ← detachResource s (.queue q)
        let s ← messageQueueFree s q
        .ok ((s.record (.destroy queueId)).setRetvalue caller queueId)

end DisastrOS
