import DisastrOS.Model.Types
import DisastrOS.Lib.Seq
import Mathlib.Tactic.Simps.Basic

/-!
# The kernel's state

`State` holds the globals of `disastrOS_globals.h`, the block pools with the contents of their
blocks, and the user memory. A block that is freed keeps its contents, as in the static buffers.
`PcbList` names the lists that PCBs are linked into through their own `ListItem`; `listInsertLast`,
`listInsertAfter`, `listDetach` and `listDetachFirst` are the uses of `List_insert` and
`List_detach` on them. A run ends (`.corrupted`) where a PCB that is alone on one list is linked
into another, or a PCB is detached from a list that it is not on: what the code does after that is
not modelled. Times are `Int`s and pids `Nat`s without bound, where the code has an `int` for both.
-/

namespace DisastrOS

open Lib

structure State where
  running : PcbRef
  initPcb : PcbRef
  lastPid : Nat
  readyList : List PcbRef
  waitingList : List PcbRef
  zombieList : List PcbRef
  timerList : List TimerItem
  resourcesList : List ResourceRef
  time : Int
  pcbs : PcbRef → PCB
  resources : Nat → Resource
  queues : QueueRef → MessageQueue
  pcbPool : Pool
  pcbPtrPool : Pool
  timerPool : Pool
  resourcePool : Pool
  descriptorPool : Pool
  descriptorPtrPool : Pool
  messagePool : Pool
  queuePool : Pool
  mem : Int → UInt8
  history : List Act
  calls : Nat

/-! ## User memory -/

/-- The `n` bytes at `addr`. -/
def memRead (mem : Int → UInt8) (addr : Int) (n : Nat) : List UInt8 :=
  (List.range n).map fun i : Nat => mem (addr + i)

/-- The memory with `bytes` stored at `addr`. -/
def memWrite (mem : Int → UInt8) (addr : Int) (bytes : List UInt8) : Int → UInt8 := fun a =>
  if addr ≤ a ∧ a < addr + bytes.length then bytes.getD (a - addr).toNat 0 else mem a

/-- The bytes of a C `int`, least significant first. -/
def intBytes (v : Int) : List UInt8 :=
  (List.range 4).map fun i : Nat => UInt8.ofNat (v >>> (8 * i) % 256).toNat

@[simp] theorem memRead_length {mem : Int → UInt8} {addr : Int} {n : Nat} :
    (memRead mem addr n).length = n := by simp [memRead]

theorem memRead_memWrite {mem : Int → UInt8} {addr : Int} {bytes : List UInt8} :
    memRead (memWrite mem addr bytes) addr bytes.length = bytes := by
  refine List.ext_getElem (by simp) fun i h₁ h₂ => ?_
  simp only [memRead, memWrite, List.getElem_map, List.getElem_range]
  rw [if_pos (by omega), show addr + (i : Int) - addr = i by omega, Int.toNat_natCast]
  simp [List.getD_eq_getElem?_getD, h₂]

/-! ## The lists of PCBs -/

inductive PcbList
  | ready | waiting | zombie
  | receivers (q : QueueRef)
  | senders (q : QueueRef)
  deriving DecidableEq, Repr

namespace PcbList

/-- The status of the processes on a list. -/
def status : PcbList → ProcessStatus
  | ready => .ready
  | zombie => .zombie
  | waiting | receivers _ | senders _ => .waiting

/-- The lists that exist. -/
def all : List PcbList :=
  [ready, waiting, zombie] ++
    (List.range maxMessageQueues).flatMap fun q => [receivers q, senders q]

end PcbList

namespace State

def list (s : State) : PcbList → List PcbRef
  | .ready => s.readyList
  | .waiting => s.waitingList
  | .zombie => s.zombieList
  | .receivers q => (s.queues q).waitingReceivers
  | .senders q => (s.queues q).waitingSenders

/-- Assigns to fields of the PCB `p`. -/
@[simps] def updPcb (s : State) (p : PcbRef) (f : PCB → PCB) : State :=
  { s with pcbs := fun i => if i = p then f (s.pcbs i) else s.pcbs i }

/-- Assigns to fields of the queue `q`. -/
@[simps] def updQueue (s : State) (q : QueueRef) (f : MessageQueue → MessageQueue) : State :=
  { s with queues := fun i => if i = q then f (s.queues i) else s.queues i }

def setList (s : State) (L : PcbList) (ps : List PcbRef) : State :=
  match L with
  | .ready => { s with readyList := ps }
  | .waiting => { s with waitingList := ps }
  | .zombie => { s with zombieList := ps }
  | .receivers q => s.updQueue q fun mq => { mq with waitingReceivers := ps }
  | .senders q => s.updQueue q fun mq => { mq with waitingSenders := ps }

/-- Appends to the history variable. -/
@[simps] def record (s : State) (a : Act) : State := { s with history := s.history ++ [a] }

@[simps] def setRunning (s : State) (p : PcbRef) : State := { s with running := p }

/-- `p->next || p->prev`: `p` has a neighbour on some list. -/
def linked (s : State) (p : PcbRef) : Bool :=
  PcbList.all.any fun L => p ∈ s.list L ∧ 2 ≤ (s.list L).length

/-- `p` is on some list. -/
def listed (s : State) (p : PcbRef) : Bool :=
  PcbList.all.any fun L => p ∈ s.list L

/-- `List_insert` of `p` into `L`, whose sequence becomes `ps`. It refuses a node with a neighbour;
a node alone on a list passes its test and would then be on two lists: there the model stops. -/
def listInsert (s : State) (L : PcbList) (p : PcbRef) (ps : List PcbRef) : Except Halt State :=
  if s.linked p then .ok s
  else if s.listed p then .error .corrupted
  else .ok (s.setList L ps)

/-- `List_insert(&L, L.last, p)`. -/
def listInsertLast (s : State) (L : PcbList) (p : PcbRef) : Except Halt State :=
  s.listInsert L p (s.list L ++ [p])

/-- `List_insert(&L, prev, p)`. -/
def listInsertAfter (s : State) (L : PcbList) (prev : Option PcbRef) (p : PcbRef) :
    Except Halt State :=
  s.listInsert L p (insertAfter prev p (s.list L))

/-- `List_detach(&L, p)`. -/
def listDetach (s : State) (L : PcbList) (p : PcbRef) : Except Halt State :=
  if p ∈ s.list L then .ok (s.setList L ((s.list L).erase p)) else .error .corrupted

/-- `List_detach(&L, L.first)`. -/
def listDetachFirst (s : State) (L : PcbList) : Except Halt (PcbRef × State) :=
  match s.list L with
  | [] => .error .nullDeref
  | p :: ps => .ok (p, s.setList L ps)

/-! ## Reading after an update -/

section
variable {s : State} {L L' : PcbList} {p q : PcbRef} {ps : List PcbRef}

@[simp] theorem list_setList_self : (s.setList L ps).list L = ps := by
  cases L <;> simp [setList, list]

theorem list_setList_of_ne (h : L' ≠ L) : (s.setList L ps).list L' = s.list L' := by
  cases L <;> cases L' <;> simp_all [setList, list]

@[simp] theorem list_updPcb {f : PCB → PCB} : (s.updPcb p f).list L = s.list L := by
  cases L <;> rfl

@[simp] theorem list_record {a : Act} : (s.record a).list L = s.list L := by
  cases L <;> rfl

@[simp] theorem list_setRunning : (s.setRunning p).list L = s.list L := by
  cases L <;> rfl

@[simp] theorem setList_running : (s.setList L ps).running = s.running := by cases L <;> rfl
@[simp] theorem setList_initPcb : (s.setList L ps).initPcb = s.initPcb := by cases L <;> rfl
@[simp] theorem setList_lastPid : (s.setList L ps).lastPid = s.lastPid := by cases L <;> rfl
@[simp] theorem setList_timerList : (s.setList L ps).timerList = s.timerList := by cases L <;> rfl
@[simp] theorem setList_resourcesList : (s.setList L ps).resourcesList = s.resourcesList := by
  cases L <;> rfl
@[simp] theorem setList_time : (s.setList L ps).time = s.time := by cases L <;> rfl
@[simp] theorem setList_pcbs : (s.setList L ps).pcbs = s.pcbs := by cases L <;> rfl
@[simp] theorem setList_resources : (s.setList L ps).resources = s.resources := by cases L <;> rfl
@[simp] theorem setList_pcbPool : (s.setList L ps).pcbPool = s.pcbPool := by cases L <;> rfl
@[simp] theorem setList_pcbPtrPool : (s.setList L ps).pcbPtrPool = s.pcbPtrPool := by
  cases L <;> rfl
@[simp] theorem setList_timerPool : (s.setList L ps).timerPool = s.timerPool := by cases L <;> rfl
@[simp] theorem setList_resourcePool : (s.setList L ps).resourcePool = s.resourcePool := by
  cases L <;> rfl
@[simp] theorem setList_descriptorPool : (s.setList L ps).descriptorPool = s.descriptorPool := by
  cases L <;> rfl
@[simp] theorem setList_descriptorPtrPool :
    (s.setList L ps).descriptorPtrPool = s.descriptorPtrPool := by cases L <;> rfl
@[simp] theorem setList_messagePool : (s.setList L ps).messagePool = s.messagePool := by
  cases L <;> rfl
@[simp] theorem setList_queuePool : (s.setList L ps).queuePool = s.queuePool := by cases L <;> rfl
@[simp] theorem setList_mem : (s.setList L ps).mem = s.mem := by cases L <;> rfl
@[simp] theorem setList_history : (s.setList L ps).history = s.history := by cases L <;> rfl
@[simp] theorem setList_calls : (s.setList L ps).calls = s.calls := by cases L <;> rfl

/-- Only the waiting lists of a queue change with a list. -/
theorem setList_queues {i : QueueRef} : (s.setList L ps).queues i =
    { s.queues i with
      waitingReceivers := (s.setList L ps).list (.receivers i)
      waitingSenders := (s.setList L ps).list (.senders i) } := by
  cases L <;> simp only [setList, list, updQueue_queues] <;> split <;> rfl

end

/-! ## Updates of single fields -/

@[simps] def setStatus (s : State) (p : PcbRef) (st : ProcessStatus) : State :=
  { s with pcbs := fun i => if i = p then { s.pcbs i with status := st } else s.pcbs i }

@[simps] def setTimer (s : State) (p : PcbRef) (t : Option Nat) : State :=
  { s with pcbs := fun i => if i = p then { s.pcbs i with timer := t } else s.pcbs i }

@[simps] def setChildren (s : State) (p : PcbRef) (cs : List PCBPtr) : State :=
  { s with pcbs := fun i => if i = p then { s.pcbs i with children := cs } else s.pcbs i }

@[simps] def setDescriptors (s : State) (p : PcbRef) (ds : List Descriptor) : State :=
  { s with pcbs := fun i => if i = p then { s.pcbs i with descriptors := ds } else s.pcbs i }

/-- `p->signals |= (sig & p->signals_mask)`. -/
@[simps] def signal (s : State) (p : PcbRef) (sig : BitVec 32) : State :=
  { s with
    pcbs := fun i =>
      if i = p then
        { s.pcbs i with signals := (s.pcbs i).signals ||| (sig &&& (s.pcbs i).signalsMask) }
      else s.pcbs i }

/-- `p->syscall_retvalue = r`. -/
@[simps] def setRetvalue (s : State) (p : PcbRef) (r : Int) : State :=
  { s with
    pcbs := fun i => if i = p then { s.pcbs i with syscallRetvalue := r } else s.pcbs i
    history := s.history ++ [.retval (s.pcbs p).call r] }

section
variable {s : State} {L : PcbList} {p : PcbRef}

@[simp] theorem list_setStatus {st : ProcessStatus} : (s.setStatus p st).list L = s.list L := by
  cases L <;> rfl

@[simp] theorem list_setTimer {t : Option Nat} : (s.setTimer p t).list L = s.list L := by
  cases L <;> rfl

@[simp] theorem list_setChildren {cs : List PCBPtr} : (s.setChildren p cs).list L = s.list L := by
  cases L <;> rfl

@[simp] theorem list_setDescriptors {ds : List Descriptor} :
    (s.setDescriptors p ds).list L = s.list L := by
  cases L <;> rfl

@[simp] theorem list_signal {sig : BitVec 32} : (s.signal p sig).list L = s.list L := by
  cases L <;> rfl

@[simp] theorem list_setRetvalue {r : Int} : (s.setRetvalue p r).list L = s.list L := by
  cases L <;> rfl

/-! ## Undoing an update -/

theorem setList_setList {ps qs : List PcbRef} :
    (s.setList L ps).setList L qs = s.setList L qs := by
  cases L <;> simp only [setList, updQueue] <;> congr 1 <;> funext i <;> split <;> simp_all

theorem setList_same : s.setList L (s.list L) = s := by
  cases L with
  | receivers q =>
    have : (fun i => if i = q then { s.queues i with
        waitingReceivers := (s.queues q).waitingReceivers } else s.queues i) = s.queues := by
      funext i; split <;> simp_all
    simp only [setList, updQueue, list, this]
  | senders q =>
    have : (fun i => if i = q then { s.queues i with
        waitingSenders := (s.queues q).waitingSenders } else s.queues i) = s.queues := by
      funext i; split <;> simp_all
    simp only [setList, updQueue, list, this]
  | _ => rfl

theorem setList_setStatus {ps : List PcbRef} {st : ProcessStatus} :
    (s.setList L ps).setStatus p st = (s.setStatus p st).setList L ps := by
  cases L <;> rfl

theorem setStatus_setStatus {st st' : ProcessStatus} :
    (s.setStatus p st).setStatus p st' = s.setStatus p st' := by
  simp only [setStatus]
  congr 1
  funext i
  split <;> simp_all

theorem setStatus_same : s.setStatus p (s.pcbs p).status = s := by
  have : (fun i => if i = p then { s.pcbs i with status := (s.pcbs p).status } else s.pcbs i) =
      s.pcbs := by
    funext i; split <;> simp_all
  simp only [setStatus, this]

end

/-- The resource behind a `Resource*`. -/
def resource (s : State) : ResourceRef → Resource
  | .generic i => s.resources i
  | .queue q => (s.queues q).resource

/-- Assigns to fields of a resource. -/
def updResource (s : State) (r : ResourceRef) (f : Resource → Resource) : State :=
  match r with
  | .generic i =>
    { s with resources := fun j => if j = i then f (s.resources j) else s.resources j }
  | .queue q => s.updQueue q fun mq => { mq with resource := f mq.resource }

end State

end DisastrOS
