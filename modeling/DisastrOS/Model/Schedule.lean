import DisastrOS.Model.State

/-!
# Timers and the scheduler

`disastrOS_timer.c`, `disastrOS_schedule.c`, `disastrOS_sleep.c`, `disastrOS_preempt.c`.
-/

namespace DisastrOS

open Lib

/-! ## Timers -/

/-- The scan of `TimerList_add`: behind every timer that elapses no later than `t`. -/
def timerInsert (t : TimerItem) : List TimerItem → List TimerItem
  | [] => [t]
  | x :: xs =>
    if t.awakeningTime < x.awakeningTime then t :: x :: xs else x :: timerInsert t xs

/-- `TimerItem_alloc` and the insertion of the item. -/
def timerListAdd (s : State) (awakeningTime : Int) (p : PcbRef) : Option (Nat × State) :=
  match s.timerPool.get with
  | none => none
  | some (block, pool) =>
    let s := { s with timerPool := pool }.setTimer p (some block)
    some (block, { s with timerList := timerInsert ⟨block, awakeningTime, p⟩ s.timerList })

/-- `TimerList_removeCurrent` on a list that starts with `t`. -/
def timerListRemoveCurrent (s : State) (t : TimerItem) : State :=
  { s with timerList := s.timerList.tail, timerPool := s.timerPool.release t.block }

/-! ## Scheduling -/

/-- The loop over the elapsed timers; `prev` is `previous_pcb`, and the argument the timers not
looked at yet. -/
def wakeTimers : List TimerItem → Option PcbRef → State → Except Halt State
  | [], _, s => .ok s
  | t :: ts, prev, s =>
    if t.awakeningTime ≤ s.time then do
      let s ← s.listDetach .waiting t.pcb
      let s := s.setStatus t.pcb .ready
      let s := s.setTimer t.pcb none
      let s ← s.listInsertAfter .ready prev t.pcb
      wakeTimers ts (some t.pcb) (timerListRemoveCurrent s t)
    else .ok s

/-- The switch to the first ready process, if there is one. -/
def dispatch (s : State) : Except Halt State :=
  if s.readyList = [] then .ok s
  else do
    let (next, s) ← s.listDetachFirst .ready
    -- the running process goes back to the ready list only if it was actually running
    let s ← if (s.pcbs s.running).status = .running then
        (s.setStatus s.running .ready).listInsertLast .ready s.running
      else .ok s
    .ok ((s.setStatus next .running).setRunning next)

def internalSchedule (s : State) : Except Halt State := do
  let s ← wakeTimers s.timerList none s
  dispatch s

def internalPreempt (s : State) : Except Halt State := internalSchedule s

/-- The sum of two `int`s is not wrapped: it is the code's as long as it is an `int`. -/
def internalSleep (s : State) : Except Halt State :=
  let caller := s.running
  if (s.pcbs caller).timer.isSome then .ok (s.setRetvalue caller dsosESleep)
  else
    let cyclesToSleep := (s.pcbs caller).syscallArgs 0
    match timerListAdd s (s.time + cyclesToSleep) caller with
    | none => .ok (s.setRetvalue caller dsosESleep)
    | some (newTimer, s) => do
      let s := s.setRetvalue caller 0
      let s := s.setStatus caller .waiting
      let s := s.setTimer caller (some newTimer)
      let s ← s.listInsertLast .waiting caller
      internalSchedule s

end DisastrOS
