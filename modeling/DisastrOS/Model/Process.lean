import DisastrOS.Model.Resource

/-!
# Processes

`disastrOS_pcb.c`, `disastrOS_spawn.c`, `disastrOS_fork.c`, `disastrOS_wait.c` and
`disastrOS_exit.c`.
-/

namespace DisastrOS

open Lib

/-! ## Process control blocks -/

/-- Clears the fields of a new block; `syscall_num`, `syscall_args` and `syscall_retvalue` keep what
the block held before. -/
def pcbAlloc (s : State) : Option (PcbRef × State) :=
  match s.pcbPool.get with
  | none => none
  | some (p, pool) =>
    some (p, { s with pcbPool := pool, lastPid := s.lastPid + 1 }.updPcb p
      ({ · with
        pid := s.lastPid, returnValue := 0, status := .invalid, lastFd := 0, signals := 0,
        signalsMask := 0xFFFFFFFF, descriptors := [], parent := none, timer := none,
        children := [] }))

def pcbFree (s : State) (p : PcbRef) : State := { s with pcbPool := s.pcbPool.release p }

def pcbPtrAlloc (s : State) (p : PcbRef) : Option (PCBPtr × State) :=
  match s.pcbPtrPool.get with
  | none => none
  | some (b, pool) => some (⟨b, p⟩, { s with pcbPtrPool := pool })

def pcbPtrFree (s : State) (e : PCBPtr) : State :=
  { s with pcbPtrPool := s.pcbPtrPool.release e.block }

def pcbPtrByPid (s : State) (es : List PCBPtr) (pid : Nat) : Option PCBPtr :=
  es.find? fun e => (s.pcbs e.pcb).pid = pid

/-! ## Spawn and fork -/

def internalSpawn (s : State) : Except Halt State :=
  match pcbAlloc s with
  | none => .ok (s.setRetvalue s.running dsosESpawn)
  | some (newPcb, s) =>
    let s := s.updPcb newPcb ({ · with
      status := .ready, descriptors := [], lastFd := 0, timer := none, parent := some s.running })
    match pcbPtrAlloc s newPcb with
    | none => .error .assertion
    | some (newPcbPtr, s) => do
      let s := s.setChildren s.running ((s.pcbs s.running).children ++ [newPcbPtr])
      let s ← s.listInsertLast .ready newPcb
      .ok (s.setRetvalue s.running (s.pcbs newPcb).pid)

/-- The loop over the parent's descriptors. -/
def forkDescriptors (newPcb : PcbRef) : List Descriptor → State → Except Halt State
  | [], s => .ok s
  | parentDes :: ds, s =>
    match descriptorAlloc s parentDes.fd parentDes.resource newPcb with
    | none => .error .assertion
    | some (childDes, s) =>
      match descriptorPtrAlloc s childDes with
      | none => .error .assertion
      | some (childDesptr, s) =>
        forkDescriptors newPcb ds (linkDescriptor s newPcb childDes childDesptr)

/-- The child is put on the ready list, but its `cpu_state` is never set: on a fresh block the code
cannot switch to it, where the model lets it run. -/
def internalFork (s : State) : Except Halt State :=
  match pcbAlloc s with
  | none => .ok (s.setRetvalue s.running dsosESpawn)
  | some (newPcb, s) =>
    let s := s.updPcb newPcb ({ · with status := .ready, parent := some s.running })
    match pcbPtrAlloc s newPcb with
    | none => .error .assertion
    | some (newPcbPtr, s) => do
      let s := s.setChildren s.running ((s.pcbs s.running).children ++ [newPcbPtr])
      let s ← forkDescriptors newPcb (s.pcbs s.running).descriptors s
      let s := s.setRetvalue s.running (s.pcbs newPcb).pid
      s.listInsertLast .ready newPcb

/-! ## Wait -/

/-- The scan of the children: stops at the first zombie for `pidToWait = 0`, at the child with that
pid otherwise, and leaves the last child in the cursor when it finds none. -/
def waitScan (s : State) (pidToWait : Int) : Option PCBPtr → List PCBPtr → Option PCBPtr
  | cur, [] => cur
  | _, e :: es =>
    if pidToWait = 0 ∧ (s.pcbs e.pcb).status = .zombie then some e
    else if pidToWait ≠ 0 ∧ ((s.pcbs e.pcb).pid : Int) = pidToWait then some e
    else waitScan s pidToWait (some e) es

/-- `if (result) *result = v`. -/
def storeResult (s : State) (result v : Int) : State :=
  if result = 0 then s else { s with mem := memWrite s.mem result (intBytes v) }

def internalWait (s : State) : Except Halt State :=
  let caller := s.running
  let pidToWait := (s.pcbs caller).syscallArgs 0
  let result := (s.pcbs caller).syscallArgs 1
  if (s.pcbs caller).children = [] then .ok (s.setRetvalue caller dsosEWait)
  else
    match waitScan s pidToWait none (s.pcbs caller).children with
    | none =>
      if pidToWait > 0 then .ok (s.setRetvalue caller dsosEWait) else waitSleep s caller
    | some awaited =>
      if (s.pcbs awaited.pcb).status = .zombie then do
        let s := s.setChildren caller ((s.pcbs caller).children.erase awaited)
        let s := pcbPtrFree s awaited
        let s ← s.listDetach .zombie awaited.pcb
        let s := s.setRetvalue caller (s.pcbs awaited.pcb).pid
        let s := storeResult s result (s.pcbs awaited.pcb).returnValue
        .ok (pcbFree s awaited.pcb)
      else waitSleep s caller
where
  /-- The caller goes to sleep and the first ready process runs. -/
  waitSleep (s : State) (caller : PcbRef) : Except Halt State := do
    let s := s.setStatus caller .waiting
    let s ← s.listInsertLast .waiting caller
    let (nextRunning, s) ← s.listDetachFirst .ready
    .ok ((s.setStatus nextRunning .running).setRunning nextRunning)

/-! ## Exit -/

/-- The loop that moves the children of the running process to init, one by one. Its fuel bounds
the number of iterations. -/
def reparentChildren : Nat → State → Except Halt State
  | 0, _ => .error .diverges
  | fuel + 1, s =>
    match (s.pcbs s.running).children with
    | [] => .ok s
    | item :: items =>
      let s := s.setChildren s.running items
      let s := s.setChildren s.initPcb ((s.pcbs s.initPcb).children ++ [item])
      reparentChildren fuel (s.signal item.pcb dsosSighup)

/-- The parent sleeps in a `wait` for `pid` or for any child. -/
def waitsFor (s : State) (parent : PcbRef) (pid : Nat) : Prop :=
  (s.pcbs parent).status = .waiting ∧ (s.pcbs parent).syscallNum = dsosCallWait ∧
    ((s.pcbs parent).syscallArgs 0 = 0 ∨ (s.pcbs parent).syscallArgs 0 = pid)

instance (s : State) (parent : PcbRef) (pid : Nat) : Decidable (waitsFor s parent pid) :=
  inferInstanceAs (Decidable (_ ∧ _ ∧ _))

/-- The loop that releases all timers of process `p`. -/
def purgeTimers (s : State) (p : PcbRef) : State :=
  { s with
    timerList := s.timerList.filter (·.pcb ≠ p)
    timerPool := (s.timerList.filter (·.pcb = p)).foldl (fun a t => a.release t.block) s.timerPool }

/-- The loop that releases all descriptors of process `p`. -/
def releaseDescriptors (p : PcbRef) : List Descriptor → State → Except Halt State
  | [], s => .ok s
  | des :: ds, s => do
    let s := s.setDescriptors p ds
    let s ← detachDescriptorPtr s des
    let s := decRefCount s des.resource
    let s := descriptorPtrFree s des.ptr
    let s := descriptorFree s des
    if (s.resource des.resource).refCount = 0 then do
      let s ← detachResource s des.resource
      let s ← resourceFree s des.resource
      releaseDescriptors p ds s
    else releaseDescriptors p ds s

/-- The branch of `internal_exit` in which the parent was waiting: the process is reaped at once. -/
def exitToParent (s : State) (self parent : PcbRef) : Except Halt State := do
  let s ← s.listDetach .waiting parent
  let s := s.setStatus parent .running
  let pid := (s.pcbs self).pid
  match pcbPtrByPid s (s.pcbs parent).children pid with
  | none => .error .nullDeref
  | some selfInParent => do
    let s := s.setChildren parent ((s.pcbs parent).children.erase selfInParent)
    let s := s.setRetvalue parent pid
    let s := storeResult s ((s.pcbs parent).syscallArgs 1) (s.pcbs self).returnValue
    let s := purgeTimers s self
    let s ← releaseDescriptors self (s.pcbs self).descriptors s
    let s ← s.listDetach .zombie self
    .ok ((pcbFree s self).setRunning parent)

/-- The other branch: the process stays a zombie and the first ready process runs. -/
def exitToNext (s : State) : Except Halt State := do
  let (nextRunning, s) ← s.listDetachFirst .ready
  .ok ((s.setStatus nextRunning .running).setRunning nextRunning)

def internalExit (s : State) : Except Halt State := do
  let self := s.running
  let s := s.updPcb self fun pcb => { pcb with returnValue := pcb.syscallArgs 0 }
  let s ← reparentChildren ((s.pcbs self).children.length + 1) s
  let s := s.setStatus self .zombie
  let s ← s.listInsertLast .zombie self
  match (s.pcbs self).parent with
  | none => .error .nullDeref
  | some parent =>
    let s := s.signal parent dsosSigchld
    if waitsFor s parent (s.pcbs self).pid then exitToParent s self parent else exitToNext s

end DisastrOS
