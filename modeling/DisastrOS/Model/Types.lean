import DisastrOS.Lib.Pool

/-!
# The kernel's data

Constants (`disastrOS_constants.h`) and records of the kernel. A pointer to a block of a pool is the
block's index in that pool. An intrusive list is the sequence of its nodes, so the `ListItem` links
are not fields here; list nodes that never change once linked (`PCBPtr`, `TimerItem`, `Descriptor`,
`DescriptorPtr`, `Message`) are stored in the sequence itself and keep their block index. C integers
are `Int`s without bounds: pids, call numbers and ticks never wrap around, and the model agrees with
the code as long as they, and the `disastrOS_time + n` of every `sleep(n)`, are representable.
-/

namespace DisastrOS

/-! ## Constants -/

abbrev maxNumProcesses : Nat := 1024
abbrev maxNumResources : Nat := 1024
abbrev maxNumDescriptorsPerProcess : Nat := 32
abbrev maxMessageQueues : Nat := 32
abbrev maxMessagesPerQueue : Nat := 16
abbrev messageMaxSize : Nat := 256

abbrev dsosSigchld : BitVec 32 := 0x1
abbrev dsosSighup : BitVec 32 := 0x2

abbrev dsosESyscallNotImplemented : Int := -2
abbrev dsosEWait : Int := -5
abbrev dsosESpawn : Int := -6
abbrev dsosESleep : Int := -7
abbrev dsosEResourceCreate : Int := -8
abbrev dsosEResourceOpen : Int := -9
abbrev dsosEResourceNoExcl : Int := -10
abbrev dsosEResourceNoFd : Int := -11
abbrev dsosEResourceClose : Int := -12
abbrev dsosEResourceInUse : Int := -13
abbrev dsosEMqFull : Int := -14
abbrev dsosEMqEmpty : Int := -15
abbrev dsosEMqInvalid : Int := -16
abbrev dsosEMqCreate : Int := -18
abbrev dsosEMqExists : Int := -19
abbrev dsosEMqClosed : Int := -20
abbrev dsosEMqNotOpen : Int := -21
abbrev dsosEBuffer : Int := -22

abbrev dsosCallPreempt : Nat := 1
abbrev dsosCallFork : Nat := 2
abbrev dsosCallWait : Nat := 3
abbrev dsosCallExit : Nat := 4
abbrev dsosCallSpawn : Nat := 5
abbrev dsosCallSleep : Nat := 6
abbrev dsosCallOpenResource : Nat := 7
abbrev dsosCallCloseResource : Nat := 8
abbrev dsosCallDestroyResource : Nat := 9
abbrev dsosCallShutdown : Nat := 10
abbrev dsosCallMqCreate : Nat := 11
abbrev dsosCallMqSend : Nat := 12
abbrev dsosCallMqReceive : Nat := 13
abbrev dsosCallMqDestroy : Nat := 14

/-- Bit numbers of `DSOS_CREATE` and `DSOS_EXCL` in an open mode. -/
abbrev dsosCreateBit : Nat := 0
abbrev dsosExclBit : Nat := 2

/-- `mode & flag`, for a flag of one bit. -/
def hasFlag (mode : Int) (bit : Nat) : Bool := mode >>> bit % 2 = 1

/-- The values of `ResourceType`. -/
abbrev resourceGeneric : Int := 0
abbrev resourceMessageQueue : Int := 1

/-! ## Pointers -/

abbrev PcbRef := Nat
abbrev QueueRef := Nat

/-- A `Resource*`: a block of the resource pool, or the first field of a block of the queue pool. -/
inductive ResourceRef
  | generic (i : Nat)
  | queue (i : QueueRef)
  deriving DecidableEq, Repr

/-! ## Records -/

inductive ProcessStatus
  | invalid | created | running | ready | waiting | suspended | zombie
  deriving DecidableEq, Repr

inductive MQStatus
  | invalid | open | closing | closed
  deriving DecidableEq, Repr

/-- An entry of a children list. -/
structure PCBPtr where
  block : Nat
  pcb : PcbRef
  deriving DecidableEq

structure TimerItem where
  block : Nat
  awakeningTime : Int
  pcb : PcbRef
  deriving DecidableEq

/-- `ptr` is the block of the `DescriptorPtr` that stands for it in the resource's list. -/
structure Descriptor where
  block : Nat
  pcb : PcbRef
  resource : ResourceRef
  fd : Int
  ptr : Nat
  deriving DecidableEq

/-- `descriptor` is the block of a `Descriptor`. -/
structure DescriptorPtr where
  block : Nat
  descriptor : Nat
  deriving DecidableEq

structure Resource where
  id : Int := 0
  type : Int := 0
  refCount : Int := 0
  descriptorsPtrs : List DescriptorPtr := []

/-- `call` is a history variable: the number of the `mq_send` call that supplied the payload. -/
structure Message where
  block : Nat
  size : Int
  data : List UInt8
  sender : PcbRef
  call : Nat
  deriving DecidableEq

structure MessageQueue where
  resource : Resource := {}
  messages : List Message := []
  waitingReceivers : List PcbRef := []
  waitingSenders : List PcbRef := []
  maxMessages : Int := 0
  currentMessages : Int := 0
  queueId : Int := 0
  status : MQStatus := .open

/-- A process. The defaults are those of zeroed static memory. `call` is a history variable: the
number of the process's latest syscall, 0 if it has made none. -/
structure PCB where
  pid : Nat := 0
  returnValue : Int := 0
  status : ProcessStatus := .created
  signals : BitVec 32 := 0
  signalsMask : BitVec 32 := 0
  parent : Option PcbRef := none
  children : List PCBPtr := []
  timer : Option Nat := none
  lastFd : Int := 0
  descriptors : List Descriptor := []
  syscallNum : Nat := 0
  syscallArgs : Nat → Int := fun _ => 0
  syscallRetvalue : Int := 0
  call : Nat := 0

/-! ## Fields of a conditionally updated record -/

section
variable {c : Prop} [Decidable c]

@[simp] theorem PCB.ite_pid (a b : PCB) :
    (if c then a else b).pid = if c then a.pid else b.pid := apply_ite _ _ _ _
@[simp] theorem PCB.ite_returnValue (a b : PCB) :
    (if c then a else b).returnValue = if c then a.returnValue else b.returnValue :=
  apply_ite _ _ _ _
@[simp] theorem PCB.ite_status (a b : PCB) :
    (if c then a else b).status = if c then a.status else b.status := apply_ite _ _ _ _
@[simp] theorem PCB.ite_signals (a b : PCB) :
    (if c then a else b).signals = if c then a.signals else b.signals := apply_ite _ _ _ _
@[simp] theorem PCB.ite_signalsMask (a b : PCB) :
    (if c then a else b).signalsMask = if c then a.signalsMask else b.signalsMask :=
  apply_ite _ _ _ _
@[simp] theorem PCB.ite_parent (a b : PCB) :
    (if c then a else b).parent = if c then a.parent else b.parent := apply_ite _ _ _ _
@[simp] theorem PCB.ite_children (a b : PCB) :
    (if c then a else b).children = if c then a.children else b.children := apply_ite _ _ _ _
@[simp] theorem PCB.ite_timer (a b : PCB) :
    (if c then a else b).timer = if c then a.timer else b.timer := apply_ite _ _ _ _
@[simp] theorem PCB.ite_lastFd (a b : PCB) :
    (if c then a else b).lastFd = if c then a.lastFd else b.lastFd := apply_ite _ _ _ _
@[simp] theorem PCB.ite_descriptors (a b : PCB) :
    (if c then a else b).descriptors = if c then a.descriptors else b.descriptors :=
  apply_ite _ _ _ _
@[simp] theorem PCB.ite_syscallNum (a b : PCB) :
    (if c then a else b).syscallNum = if c then a.syscallNum else b.syscallNum := apply_ite _ _ _ _
@[simp] theorem PCB.ite_syscallArgs (a b : PCB) :
    (if c then a else b).syscallArgs = if c then a.syscallArgs else b.syscallArgs :=
  apply_ite _ _ _ _
@[simp] theorem PCB.ite_syscallRetvalue (a b : PCB) :
    (if c then a else b).syscallRetvalue = if c then a.syscallRetvalue else b.syscallRetvalue :=
  apply_ite _ _ _ _
@[simp] theorem PCB.ite_call (a b : PCB) :
    (if c then a else b).call = if c then a.call else b.call := apply_ite _ _ _ _

@[simp] theorem MessageQueue.ite_resource (a b : MessageQueue) :
    (if c then a else b).resource = if c then a.resource else b.resource := apply_ite _ _ _ _
@[simp] theorem MessageQueue.ite_messages (a b : MessageQueue) :
    (if c then a else b).messages = if c then a.messages else b.messages := apply_ite _ _ _ _
@[simp] theorem MessageQueue.ite_waitingReceivers (a b : MessageQueue) :
    (if c then a else b).waitingReceivers = if c then a.waitingReceivers else b.waitingReceivers :=
  apply_ite _ _ _ _
@[simp] theorem MessageQueue.ite_waitingSenders (a b : MessageQueue) :
    (if c then a else b).waitingSenders = if c then a.waitingSenders else b.waitingSenders :=
  apply_ite _ _ _ _
@[simp] theorem MessageQueue.ite_maxMessages (a b : MessageQueue) :
    (if c then a else b).maxMessages = if c then a.maxMessages else b.maxMessages :=
  apply_ite _ _ _ _
@[simp] theorem MessageQueue.ite_currentMessages (a b : MessageQueue) :
    (if c then a else b).currentMessages = if c then a.currentMessages else b.currentMessages :=
  apply_ite _ _ _ _
@[simp] theorem MessageQueue.ite_queueId (a b : MessageQueue) :
    (if c then a else b).queueId = if c then a.queueId else b.queueId := apply_ite _ _ _ _
@[simp] theorem MessageQueue.ite_status (a b : MessageQueue) :
    (if c then a else b).status = if c then a.status else b.status := apply_ite _ _ _ _

@[simp] theorem Resource.ite_id (a b : Resource) :
    (if c then a else b).id = if c then a.id else b.id := apply_ite _ _ _ _
@[simp] theorem Resource.ite_type (a b : Resource) :
    (if c then a else b).type = if c then a.type else b.type := apply_ite _ _ _ _
@[simp] theorem Resource.ite_refCount (a b : Resource) :
    (if c then a else b).refCount = if c then a.refCount else b.refCount := apply_ite _ _ _ _
@[simp] theorem Resource.ite_descriptorsPtrs (a b : Resource) :
    (if c then a else b).descriptorsPtrs = if c then a.descriptorsPtrs else b.descriptorsPtrs :=
  apply_ite _ _ _ _

end

/-! ## Syscalls -/

/-- The calls of `disastrOS.h`. Function and data pointers are addresses. -/
inductive Syscall
  | preempt
  | fork
  | wait (pid retval : Int)
  | exit (exitval : Int)
  | spawn (f args : Int)
  | sleep (sleepTime : Int)
  | openResource (id type mode : Int)
  | closeResource (fd : Int)
  | destroyResource (id : Int)
  | mqCreate (id size : Int)
  | mqSend (id msg size : Int)
  | mqReceive (id buffer size : Int)
  | mqDestroy (id : Int)
  | shutdown
  deriving DecidableEq, Repr

/-- The number in `running->syscall_num`. -/
def Syscall.num : Syscall → Nat
  | .preempt => dsosCallPreempt
  | .fork => dsosCallFork
  | .wait .. => dsosCallWait
  | .exit _ => dsosCallExit
  | .spawn .. => dsosCallSpawn
  | .sleep _ => dsosCallSleep
  | .openResource .. => dsosCallOpenResource
  | .closeResource _ => dsosCallCloseResource
  | .destroyResource _ => dsosCallDestroyResource
  | .mqCreate .. => dsosCallMqCreate
  | .mqSend .. => dsosCallMqSend
  | .mqReceive .. => dsosCallMqReceive
  | .mqDestroy _ => dsosCallMqDestroy
  | .shutdown => dsosCallShutdown

/-- The values in `running->syscall_args`. -/
def Syscall.args : Syscall → List Int
  | .preempt => []
  | .fork => []
  | .wait pid retval => [pid, retval]
  | .exit exitval => [exitval]
  | .spawn f args => [f, args]
  | .sleep sleepTime => [sleepTime]
  | .openResource id type mode => [id, type, mode]
  | .closeResource fd => [fd]
  | .destroyResource id => [id]
  | .mqCreate id size => [id, size]
  | .mqSend id msg size => [id, msg, size]
  | .mqReceive id buffer size => [id, buffer, size]
  | .mqDestroy id => [id]
  | .shutdown => []

/-! ## History -/

/-- An entry of the history variable: what the kernel did, in order. No kernel function reads it.
`call` and `m.call` are numbers of syscalls, counted from 1. -/
inductive Act
  /-- Process `p` issues a syscall, its `mq_send` buffer holding `payload`. -/
  | issue (call : Nat) (p : PcbRef) (c : Syscall) (payload : List UInt8)
  /-- `syscall_retvalue` of the caller is set. -/
  | retval (call : Nat) (r : Int)
  /-- `m` is inserted at the tail of queue `id`. -/
  | enqueue (id : Int) (m : Message)
  /-- `m` is detached from the head of queue `id` for the receive call `call`. -/
  | dequeue (id : Int) (m : Message) (call : Nat)
  /-- `bytes` are copied into the user buffer of the receive call `call`. -/
  | deliver (call : Nat) (addr : Int) (bytes : List UInt8)
  /-- `m` is freed with queue `id`. -/
  | discard (id : Int) (m : Message)
  | create (id : Int)
  | destroy (id : Int)
  /-- `Message_alloc` returned null for the send call `call`. -/
  | noMessage (call : Nat)
  /-- The invalid-size branch of a pending send's completion was taken. -/
  | badSize (call : Nat)
  deriving DecidableEq

/-! ## Stopping -/

/-- Why the kernel does not return to user code. `corrupted` stands for the states that a sequence
cannot represent: a node linked into two lists at once, or detached from a list it is not on. The
code goes on there, with lists that share their nodes; the model stops.
`badCast` is the use of a `Resource` that is no queue as a `MessageQueue`, `shutdown` the jump to
`main_context`. -/
inductive Halt
  | nullDeref | assertion | diverges | corrupted | badCast | shutdown
  deriving DecidableEq, Repr

end DisastrOS
