import Mathlib.Logic.Relation
import DisastrOS.Proof.Frames

/-!
# The effects of a call

`essential s` is the state without answers, resources, descriptors, children and bookkeeping: the
processes with their saved calls, the ready list, the timers, the queues' messages and waiting
processes, and the user memory. Every call but a `sleep` that sets a timer is a sequence of
`Effect`s on it, in any state (`syscall_effects`), so that what a call can do to these is said once,
and an invariant of any run is one case for each effect (`step_effects`).
-/

namespace DisastrOS

open Lib State Relation

/-! ## The essential state -/

def PCB.essential (a : PCB) : PCB :=
  { a with timer := none, children := [], lastFd := 0, descriptors := [], syscallRetvalue := 0 }

def MessageQueue.essential (mq : MessageQueue) : MessageQueue :=
  { mq with resource := {}, maxMessages := 0, currentMessages := 0, queueId := 0, status := .open }

def essential (s : State) : State :=
  { s with
    pcbs := fun p => (s.pcbs p).essential, queues := fun q => (s.queues q).essential
    resources := fun _ => {}
    waitingList := [], zombieList := [], resourcesList := [], history := []
    pcbPtrPool := .init 0, resourcePool := .init 0, descriptorPool := .init 0
    descriptorPtrPool := .init 0, messagePool := .init 0, queuePool := .init 0 }

/-- `s'` has the essential state of `s`. -/
def Minor (s s' : State) : Prop := essential s' = essential s

/-- The block `p` has become a process. -/
def begun (s : State) (p : PcbRef) (pool : Pool) : State :=
  { s with
    pcbPool := pool
    lastPid := s.lastPid + 1
    pcbs := fun i =>
      if i = p then
        { s.pcbs i with
          pid := s.lastPid, returnValue := 0, status := .ready, signals := 0,
          signalsMask := 0xFFFFFFFF, parent := some s.running }
      else s.pcbs i }

/-- The running process has set the timer `b`. -/
def dozed (s : State) (b : Nat) (pool : Pool) : State :=
  { s with
    timerPool := pool
    timerList :=
      timerInsert ⟨b, s.time + (s.pcbs s.running).syscallArgs 0, s.running⟩ s.timerList }

/-- The calls that may end with the scheduler. A tick counts as a `preempt`. -/
def Reschedules (n : Nat) : Prop :=
  n = dsosCallPreempt ∨ n = dsosCallSleep ∨ n = dsosCallMqSend ∨ n = dsosCallMqReceive

/-- `L` is the list of queue `q` in which the callers of `n` wait. -/
def AwaitedBy (n : Nat) (L : PcbList) (q : QueueRef) : Prop :=
  L = .receivers q ∧ n = dsosCallMqReceive ∨ L = .senders q ∧ n = dsosCallMqSend

/-- `L` is a list of queue `q` whose processes are woken by `n`. -/
def ServedBy (n : Nat) (L : PcbList) (q : QueueRef) : Prop :=
  L = .receivers q ∧ (n = dsosCallMqSend ∨ n = dsosCallMqDestroy) ∨
    L = .senders q ∧ (n = dsosCallMqReceive ∨ n = dsosCallMqDestroy)

/-- What the syscall with the number `n` of process `r` does to the essential state, one thing at a
time. -/
inductive Effect (n : Nat) (r : PcbRef) : State → State → Prop
  | minor {s s' : State} : Minor s s' → Effect n r s s'
  /-- A ready process goes to the end of the ready list. -/
  | enqueue {s : State} {p : PcbRef} : (s.pcbs p).status = .ready →
      Effect n r s (s.setList .ready (s.readyList ++ [p]))
  /-- The first timer, which has elapsed, wakes its process, which goes to the front of the ready
  list, behind those woken before. -/
  | wake {s : State} {t : TimerItem} {ts : List TimerItem} {ps : List PcbRef} : Reschedules n →
      s.timerList = t :: ts → t.awakeningTime ≤ s.time →
      ps = s.readyList ∨ (∃ prev, ps = insertAfter prev t.pcb s.readyList) →
      Effect n r s { (s.setStatus t.pcb .ready).setList .ready ps with
        timerList := ts, timerPool := s.timerPool.release t.block }
  /-- The running process has to give way. -/
  | preempt {s : State} : Reschedules n → s.running = r → (s.pcbs r).status = .running →
      Effect n r s (s.setStatus r .ready)
  /-- The first ready process runs. -/
  | yield {s : State} {p : PcbRef} {ps : List PcbRef} :
      Reschedules n ∨ n = dsosCallWait ∨ n = dsosCallExit → s.readyList = p :: ps →
      Effect n r s (((s.setList .ready ps).setStatus p .running).setRunning p)
  /-- The caller is going to wait. -/
  | block {s : State} :
      n = dsosCallSleep ∨ n = dsosCallWait ∨ n = dsosCallMqSend ∨ n = dsosCallMqReceive →
      Effect n r s (s.setStatus r .waiting)
  | queueUp {s : State} {L : PcbList} {q : QueueRef} : AwaitedBy n L q →
      (s.pcbs r).syscallNum = n → Effect n r s (s.setList L (s.list L ++ [r]))
  /-- Nobody can run instead. -/
  | giveUp {s : State} {L : PcbList} {q : QueueRef} : AwaitedBy n L q →
      (s.pcbs r).status = .waiting →
      Effect n r s ((s.setList L ((s.list L).erase r)).setStatus r .running)
  /-- The first process that waits at a queue need not wait any longer. -/
  | serve {s : State} {L : PcbList} {q : QueueRef} {p : PcbRef} {ps : List PcbRef} :
      ServedBy n L q → s.list L = p :: ps → Effect n r s ((s.setList L ps).setStatus p .ready)
  | push {s : State} {q : QueueRef} {m : Message} :
      n = dsosCallMqSend ∨ n = dsosCallMqReceive → m.data.length = m.size.toNat →
      Effect n r s (s.updQueue q fun mq => { mq with messages := mq.messages ++ [m] })
  | pop {s : State} {q : QueueRef} {m : Message} {ms : List Message} :
      (s.queues q).messages = m :: ms → Effect n r s (s.updQueue q ({ · with messages := ms }))
  /-- A message that fits is copied to the process that has asked for it. -/
  | deliver {s : State} {p : PcbRef} {q : QueueRef} {m : Message} :
      n = dsosCallMqReceive ∧ p = r ∧ (s.pcbs r).syscallNum = n ∨
        n = dsosCallMqSend ∧ p ∈ (s.queues q).waitingReceivers →
      m ∈ (s.queues q).messages → m.size ≤ (s.pcbs p).syscallArgs 2 →
      Effect n r s { s with mem := memWrite s.mem ((s.pcbs p).syscallArgs 1) m.data }
  /-- A new queue is empty. -/
  | found {s : State} {q : QueueRef} : n = dsosCallMqCreate → Effect n r s (s.updQueue q
      ({ · with messages := [], waitingReceivers := [], waitingSenders := [] }))
  /-- A child of the caller comes into being. -/
  | birth {s : State} {p : PcbRef} {pool : Pool} : n = dsosCallFork ∨ n = dsosCallSpawn →
      s.running = r → s.pcbPool.get = some (p, pool) → Effect n r s (begun s p pool)
  /-- The caller leaves a value, and then becomes a zombie. -/
  | value {s : State} : n = dsosCallExit →
      Effect n r s (s.updPcb r fun pcb => { pcb with returnValue := pcb.syscallArgs 0 })
  | retire {s : State} : n = dsosCallExit → (s.pcbs r).syscallNum = n →
      (s.pcbs r).returnValue = (s.pcbs r).syscallArgs 0 → Effect n r s (s.setStatus r .zombie)
  | signal {s : State} (p : PcbRef) {sig : BitVec 32} : n = dsosCallExit →
      sig = dsosSighup ∨ sig = dsosSigchld ∧ (s.pcbs r).parent = some p →
      Effect n r s (s.signal p sig)
  /-- A parent that waits for the caller learns what it has returned, and runs. -/
  | rouse {s : State} {p : PcbRef} : n = dsosCallExit → (s.pcbs r).parent = some p →
      waitsFor s p (s.pcbs r).pid → Effect n r s (s.setStatus p .running)
  | switch {s : State} {p : PcbRef} : n = dsosCallExit → (s.pcbs r).parent = some p →
      (s.pcbs p).status = .running → Effect n r s (s.setRunning p)
  /-- The value of a zombie is stored where `wait` has been told to. -/
  | report {s : State} {p z : PcbRef} : n = dsosCallWait ∧ p = r ∨ n = dsosCallExit ∧ z = r →
      (s.pcbs p).syscallNum = dsosCallWait → (s.pcbs z).status = .zombie →
      Effect n r s
        { s with mem := (storeResult s ((s.pcbs p).syscallArgs 1) (s.pcbs z).returnValue).mem }
  | purge {s : State} : n = dsosCallExit → (s.pcbs r).status = .zombie →
      Effect n r s (purgeTimers s r)
  | free {s : State} {p : PcbRef} : n = dsosCallWait ∨ n = dsosCallExit ∧ p = r →
      (s.pcbs p).status = .zombie → Effect n r s (pcbFree s p)

/-- A sequence of effects. -/
abbrev Effects (n : Nat) (r : PcbRef) : State → State → Prop := ReflTransGen (Effect n r)

section
variable {s s' s'' : State} {L : PcbList} {p r : PcbRef} {q : QueueRef} {ps : List PcbRef}
  {m : Message} {n : Nat}

namespace Minor

theorem refl (s : State) : Minor s s := rfl

theorem trans (h : Minor s s') (h' : Minor s' s'') : Minor s s'' := Eq.trans h' h

theorem effects (h : Minor s s') : Effects n r s s' := .single (.minor h)

theorem pcb (h : Minor s s') (p : PcbRef) : (s'.pcbs p).essential = (s.pcbs p).essential :=
  congrFun (congrArg State.pcbs h) p

theorem queue (h : Minor s s') (q : QueueRef) : (s'.queues q).essential = (s.queues q).essential :=
  congrFun (congrArg State.queues h) q

theorem pid (h : Minor s s') (p : PcbRef) : (s'.pcbs p).pid = (s.pcbs p).pid :=
  (congrArg PCB.pid (h.pcb p) :)
theorem status (h : Minor s s') (p : PcbRef) : (s'.pcbs p).status = (s.pcbs p).status :=
  (congrArg PCB.status (h.pcb p) :)
theorem returnValue (h : Minor s s') (p : PcbRef) :
    (s'.pcbs p).returnValue = (s.pcbs p).returnValue := (congrArg PCB.returnValue (h.pcb p) :)
theorem signals (h : Minor s s') (p : PcbRef) : (s'.pcbs p).signals = (s.pcbs p).signals :=
  (congrArg PCB.signals (h.pcb p) :)
theorem signalsMask (h : Minor s s') (p : PcbRef) :
    (s'.pcbs p).signalsMask = (s.pcbs p).signalsMask := (congrArg PCB.signalsMask (h.pcb p) :)
theorem parent (h : Minor s s') (p : PcbRef) : (s'.pcbs p).parent = (s.pcbs p).parent :=
  (congrArg PCB.parent (h.pcb p) :)
theorem syscallNum (h : Minor s s') (p : PcbRef) :
    (s'.pcbs p).syscallNum = (s.pcbs p).syscallNum := (congrArg PCB.syscallNum (h.pcb p) :)
theorem syscallArgs (h : Minor s s') (p : PcbRef) :
    (s'.pcbs p).syscallArgs = (s.pcbs p).syscallArgs := (congrArg PCB.syscallArgs (h.pcb p) :)

theorem running (h : Minor s s') : s'.running = s.running := (congrArg State.running h :)
theorem lastPid (h : Minor s s') : s'.lastPid = s.lastPid := (congrArg State.lastPid h :)
theorem readyList (h : Minor s s') : s'.readyList = s.readyList := (congrArg State.readyList h :)
theorem timerList (h : Minor s s') : s'.timerList = s.timerList := (congrArg State.timerList h :)
theorem timerPool (h : Minor s s') : s'.timerPool = s.timerPool := (congrArg State.timerPool h :)
theorem time (h : Minor s s') : s'.time = s.time := (congrArg State.time h :)
theorem pcbPool (h : Minor s s') : s'.pcbPool = s.pcbPool := (congrArg State.pcbPool h :)
theorem mem (h : Minor s s') : s'.mem = s.mem := (congrArg State.mem h :)

theorem messages (h : Minor s s') (q : QueueRef) :
    (s'.queues q).messages = (s.queues q).messages :=
  (congrArg MessageQueue.messages (h.queue q) :)
theorem waitingReceivers (h : Minor s s') (q : QueueRef) :
    (s'.queues q).waitingReceivers = (s.queues q).waitingReceivers :=
  (congrArg MessageQueue.waitingReceivers (h.queue q) :)
theorem waitingSenders (h : Minor s s') (q : QueueRef) :
    (s'.queues q).waitingSenders = (s.queues q).waitingSenders :=
  (congrArg MessageQueue.waitingSenders (h.queue q) :)

/-! ## Minor operations -/

theorem ofPcbs {g : PcbRef → PCB} (h : ∀ p, (g p).essential = (s.pcbs p).essential) :
    Minor s { s with pcbs := g } :=
  congrArg (fun g : PcbRef → PCB => ({ essential s with pcbs := g } : State)) (funext h)

theorem ofQueues {g : QueueRef → MessageQueue} (h : ∀ q, (g q).essential = (s.queues q).essential) :
    Minor s { s with queues := g } :=
  congrArg (fun g : QueueRef → MessageQueue => ({ essential s with queues := g } : State))
    (funext h)

theorem updPcb {f : PCB → PCB} (h : ∀ a, (f a).essential = a.essential) : Minor s (s.updPcb p f) :=
  ofPcbs fun i => by split <;> simp [h]

theorem updQueue {f : MessageQueue → MessageQueue} (h : ∀ a, (f a).essential = a.essential) :
    Minor s (s.updQueue q f) :=
  ofQueues fun i => by split <;> simp [h]

theorem record (s : State) (a : Act) : Minor s (s.record a) := rfl

theorem setRetvalue (s : State) (p : PcbRef) (r : Int) : Minor s (s.setRetvalue p r) :=
  (ofPcbs (g := fun i =>
    if i = p then { s.pcbs i with syscallRetvalue := r } else s.pcbs i) fun i => by
      split <;> rfl).trans (record _ (.retval (s.pcbs p).call r))

theorem setTimer (s : State) (p : PcbRef) (t : Option Nat) : Minor s (s.setTimer p t) :=
  ofPcbs fun i => by split <;> rfl

theorem setChildren (s : State) (p : PcbRef) (cs : List PCBPtr) : Minor s (s.setChildren p cs) :=
  ofPcbs fun i => by split <;> rfl

theorem setDescriptors (s : State) (p : PcbRef) (ds : List Descriptor) :
    Minor s (s.setDescriptors p ds) :=
  ofPcbs fun i => by split <;> rfl

theorem setMqStatus (s : State) (q : QueueRef) (st : MQStatus) : Minor s (setMqStatus s q st) :=
  updQueue fun _ => rfl

theorem updResource {r : ResourceRef} {f : Resource → Resource} : Minor s (s.updResource r f) := by
  cases r with
  | generic i => rfl
  | queue q => exact updQueue fun _ => rfl

/-- The lists of the processes that wait or have exited. -/
theorem setList (hL : L = .waiting ∨ L = .zombie) : Minor s (s.setList L ps) := by
  rcases hL with rfl | rfl <;> rfl

theorem listInsert (hL : L = .waiting ∨ L = .zombie) (h : s.listInsert L p ps = .ok s') :
    Minor s s' := by
  rcases listInsert_cases h with rfl | rfl
  exacts [refl _, setList hL]

theorem listDetach (hL : L = .waiting ∨ L = .zombie) (h : s.listDetach L p = .ok s') :
    Minor s s' := by
  obtain ⟨-, rfl⟩ := listDetach_cases h
  exact setList hL

theorem messageFree (s : State) (m : Message) : Minor s (messageFree s m) := rfl

/-! ## Minor differences stay minor -/

theorem withMem (h : Minor s s') (mem : Int → UInt8) :
    Minor { s with mem := mem } { s' with mem := mem } :=
  congrArg (fun u : State => ({ u with mem := mem } : State)) h

theorem setStatus (h : Minor s s') (p : PcbRef) (st : ProcessStatus) :
    Minor (s.setStatus p st) (s'.setStatus p st) := by
  have hc : ∀ u : State, essential (u.setStatus p st) = (essential u).setStatus p st := fun u => by
    have : (fun i => (if i = p then { u.pcbs i with status := st } else u.pcbs i).essential) =
        fun i =>
          if i = p then { (u.pcbs i).essential with status := st } else (u.pcbs i).essential := by
      funext i
      split <;> rfl
    exact congrArg (fun f : PcbRef → PCB => ({ essential u with pcbs := f } : State)) this
  unfold Minor at h ⊢
  rw [hc, hc, h]

end Minor

theorem storeResult_mem (s : State) (result v : Int) :
    storeResult s result v = { s with mem := (storeResult s result v).mem } := by
  unfold storeResult
  split <;> rfl

theorem Effect.reported {p z : PcbRef} (hn : n = dsosCallWait ∧ p = r ∨ n = dsosCallExit ∧ z = r)
    (hp : (s.pcbs p).syscallNum = dsosCallWait) (hz : (s.pcbs z).status = .zombie) :
    Effect n r s (storeResult s ((s.pcbs p).syscallArgs 1) (s.pcbs z).returnValue) := by
  rw [storeResult_mem]
  exact .report hn hp hz

/-- No effect touches the saved call of a process. -/
theorem Effect.saved (h : Effect n r s s') (p : PcbRef) :
    (s'.pcbs p).syscallNum = (s.pcbs p).syscallNum ∧
      (s'.pcbs p).syscallArgs = (s.pcbs p).syscallArgs := by
  cases h with
  | minor h => exact ⟨h.syscallNum p, h.syscallArgs p⟩
  | _ => simp [begun, purgeTimers, pcbFree]

theorem Effects.saved (h : Effects n r s s') (p : PcbRef) :
    (s'.pcbs p).syscallNum = (s.pcbs p).syscallNum ∧
      (s'.pcbs p).syscallArgs = (s.pcbs p).syscallArgs := by
  induction h with
  | refl => exact ⟨rfl, rfl⟩
  | tail _ he ih => exact ⟨(he.saved p).1.trans ih.1, (he.saved p).2.trans ih.2⟩

end

end DisastrOS
