import DisastrOS.Model.Kernel

/-!
# Syscalls, instruction by instruction

`disastrOS_syscall` stores the arguments and the number of a call in the PCB of the caller, one
after the other, and then traps. A tick may come before each of these instructions, and then others
run, and make calls, before the caller goes on. `step` takes the call as a whole; here it is taken
apart, and `calling` is where each process is in it. The trap is one instruction: an alarm that is
raised in it, and taken inside its closing `setcontext`, is not modelled.
-/

namespace DisastrOS

open Lib

/-- `syscall_numarg`. -/
def syscallNumarg (num : Nat) : Nat :=
  if num = dsosCallPreempt then 0
  else if num = dsosCallFork then 0
  else if num = dsosCallSpawn then 2
  else if num = dsosCallWait then 2
  else if num = dsosCallExit then 1
  else if num = dsosCallSleep then 1
  else if num = dsosCallOpenResource then 3
  else if num = dsosCallCloseResource then 1
  else if num = dsosCallDestroyResource then 1
  else if num = dsosCallMqCreate then 2
  else if num = dsosCallMqSend then 3
  else if num = dsosCallMqReceive then 3
  else if num = dsosCallMqDestroy then 1
  else 0

/-- Where a process is in `disastrOS_syscall`: in the loop that stores the arguments, or at the
`swapcontext` to the trap. -/
inductive Point
  | arg (i : Nat)
  | trap
  deriving DecidableEq, Repr

/-- A call that has not trapped yet. -/
structure Draft where
  call : Syscall
  point : Point
  deriving DecidableEq, Repr

/-- The kernel, and the calls that the processes are about to make. -/
structure Micro where
  state : State
  calling : PcbRef → Option Draft

/-- What user code does outside of `disastrOS_syscall`: it calls it, or stores into its memory. -/
inductive Instr
  | enter (c : Syscall)
  | store (addr : Int) (bytes : List UInt8)
  deriving DecidableEq, Repr

/-- `instr u`: the running process executes its next instruction, which is `u` if it is not in
`disastrOS_syscall`. -/
inductive MicroEvent
  | instr (u : Instr)
  | tick
  deriving DecidableEq, Repr

/-- The history entry of a call, and its number. -/
def issueCall (s : State) (c : Syscall) : State :=
  let s' := s.updPcb s.running ({ · with call := s.calls })
  { s' with calls := s.calls + 1 }.record (.issue s.calls s.running c (c.payload s.mem))

/-- The draft of process `p` becomes `d`. -/
def Micro.setCalling (m : Micro) (p : PcbRef) (d : Option Draft) : Micro :=
  { m with calling := fun i => if i = p then d else m.calling i }

/-- The next instruction of the running process. -/
def execInstr (m : Micro) (u : Instr) : Except Halt Micro :=
  let running := m.state.running
  match m.calling running with
  | none =>
    match u with
    | .enter c => .ok (m.setCalling running (some ⟨c, .arg 0⟩))
    | .store addr bytes =>
      .ok { m with state := { m.state with mem := memWrite m.state.mem addr bytes } }
  | some ⟨c, .arg i⟩ =>
    if i < syscallNumarg c.num then
      -- `running->syscall_args[i] = va_arg(ap, long int)`
      let s := m.state.updPcb running fun pcb =>
        { pcb with
          syscallArgs := fun j => if j = i then c.args.getD i 0 else pcb.syscallArgs j }
      .ok ({ m with state := s }.setCalling running (some ⟨c, .arg (i + 1)⟩))
    else
      let s := m.state.updPcb running ({ · with syscallNum := c.num })
      .ok ({ m with state := s }.setCalling running (some ⟨c, .trap⟩))
  | some ⟨c, .trap⟩ => do
    let s ← disastrOSTrap (issueCall m.state c)
    .ok ({ m with state := s }.setCalling running none)

def microStep (m : Micro) : MicroEvent → Except Halt Micro
  | .instr u => execInstr m u
  | .tick => do
    let s ← timerInterrupt m.state
    .ok { m with state := s }

/-- The first process starts in user code. -/
def microBoot : Micro := ⟨boot, fun _ => none⟩

/-- What an instruction or a tick is to the machine of whole calls. -/
def Micro.event (m : Micro) : MicroEvent → Option Event
  | .tick => some .tick
  | .instr u =>
    match m.calling m.state.running with
    | none =>
      match u with
      | .enter _ => none
      | .store addr bytes => some (.store addr bytes)
    | some ⟨_, .arg _⟩ => none
    | some ⟨c, .trap⟩ => some (.syscall c)

end DisastrOS
