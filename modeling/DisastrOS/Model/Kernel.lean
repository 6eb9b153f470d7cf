import DisastrOS.Model.Process
import DisastrOS.Model.Queue
import DisastrOS.Lib.Machine

/-!
# The kernel as a machine

`disastrOS.c`: the trap, the timer interrupt and the start. The machine's events are the syscalls
of the running process, timer ticks, and stores of user code into its memory between two syscalls.
A syscall is one step, and so is a tick, which comes while user code runs: the code blocks the alarm
in the trap, but one that is pending then is taken inside the `setcontext` that ends the trap, and
the interrupt itself does not block it. Alarms that arrive in the kernel are not modelled.
-/

namespace DisastrOS

open Lib

/-- `syscall_vector`. -/
def syscallVector (num : Nat) : Option (State → Except Halt State) :=
  if num = dsosCallPreempt then some internalPreempt
  else if num = dsosCallFork then some internalFork
  else if num = dsosCallSpawn then some internalSpawn
  else if num = dsosCallWait then some internalWait
  else if num = dsosCallExit then some internalExit
  else if num = dsosCallSleep then some internalSleep
  else if num = dsosCallOpenResource then some internalOpenResource
  else if num = dsosCallCloseResource then some internalCloseResource
  else if num = dsosCallDestroyResource then some internalDestroyResource
  else if num = dsosCallMqCreate then some internalMqCreate
  else if num = dsosCallMqSend then some internalMqSend
  else if num = dsosCallMqReceive then some internalMqReceive
  else if num = dsosCallMqDestroy then some internalMqDestroy
  else if num = dsosCallShutdown then some fun _ => .error .shutdown
  else none

/-- The payload of an `mq_send`, as its buffer holds it. -/
def Syscall.payload (mem : Int → UInt8) : Syscall → List UInt8
  | .mqSend _ msg size => memRead mem msg size.toNat
  | _ => []

/-- `disastrOS_syscall` up to the trap: the arguments and the number go into the PCB. -/
def saveCall (s : State) (c : Syscall) : State :=
  let s' := s.updPcb s.running fun pcb =>
    { pcb with
      syscallArgs := fun i => c.args.getD i (pcb.syscallArgs i)
      syscallNum := c.num
      call := s.calls }
  { s' with calls := s.calls + 1 }.record (.issue s.calls s.running c (c.payload s.mem))

def disastrOSTrap (s : State) : Except Halt State :=
  match syscallVector (s.pcbs s.running).syscallNum with
  | none => .ok (s.setRetvalue s.running dsosESyscallNotImplemented)
  | some mySyscall => mySyscall s

def timerInterrupt (s : State) : Except Halt State :=
  internalSchedule { s with time := s.time + 1 }

inductive Event
  | syscall (c : Syscall)
  | tick
  | store (addr : Int) (bytes : List UInt8)
  deriving DecidableEq, Repr

def step (s : State) : Event → Except Halt State
  | .syscall c => disastrOSTrap (saveCall s c)
  | .tick => timerInterrupt s
  | .store addr bytes => .ok { s with mem := memWrite s.mem addr bytes }

/-- The step links a PCB that is alone on one list into another, or detaches an item from a list that
it is not on. The code goes on, with lists that share a node; a run of the model ends here, so that no
step of a run that reaches a state is of this kind. -/
def Relinks (s : State) (e : Event) : Prop := stopped (step s e) = some .corrupted

instance (s : State) (e : Event) : Decidable (Relinks s e) :=
  inferInstanceAs (Decidable (stopped (step s e) = some .corrupted))

/-- The zeroed globals after the `_init` functions. -/
def coldState : State where
  running := 0
  initPcb := 0
  lastPid := 0
  readyList := []
  waitingList := []
  zombieList := []
  timerList := []
  resourcesList := []
  time := 0
  pcbs := fun _ => {}
  resources := fun _ => {}
  queues := fun _ => {}
  pcbPool := .init maxNumProcesses
  pcbPtrPool := .init maxNumProcesses
  timerPool := .init maxNumProcesses
  resourcePool := .init maxNumResources
  descriptorPool := .init (maxNumDescriptorsPerProcess * maxNumProcesses)
  descriptorPtrPool := .init (maxNumDescriptorsPerProcess * maxNumProcesses)
  messagePool := .init (maxMessagesPerQueue * maxMessageQueues)
  queuePool := .init maxMessageQueues
  mem := fun _ => 0
  history := []
  calls := 1

/-- `disastrOS_start` up to the first process. -/
def boot : State :=
  match pcbAlloc coldState with
  | none => coldState
  | some (p, s) => { s.setStatus p .running with running := p, initPcb := p }

end DisastrOS
