import DisastrOS.Lib.Channel
import DisastrOS.Spec.History
import DisastrOS.Model.Kernel

/-!
# The queues as channels

What the queue calls are for, without processes, pools and lists: a queue id names a bounded channel
of messages on which calls may be blocked. `ChanStep` says what one call does to the channel it
names and what it leaves in the history, `Channels.Step` what an event of the machine does.
-/

namespace DisastrOS

open Lib

/-- A call that sends or receives: `buffer` and `size` are its saved arguments. -/
structure Request where
  call : Nat
  pcb : PcbRef
  buffer : Int
  size : Int
  deriving DecidableEq

abbrev Chan := Channel Message Request

structure Channels where
  chan : Int → Option Chan
  mem : Int → UInt8
  calls : Nat
  history : List Act

namespace Request

/-- The message of a send request, copied out of the memory `mem`; `b` is its block and `p` the
process that allocates it. -/
def message (r : Request) (b : Nat) (p : PcbRef) (mem : Int → UInt8) : Message :=
  ⟨b, r.size, memRead mem r.buffer r.size.toNat, p, r.call⟩

/-- How a receive request ends with the message `m`. -/
def receipt (r : Request) (m : Message) : List Act :=
  if r.size < m.size then [.retval r.call dsosEBuffer]
  else [.deliver r.call r.buffer m.data, .retval r.call m.size]

/-- The memory after that. -/
def memAfter (r : Request) (m : Message) (mem : Int → UInt8) : Int → UInt8 :=
  if r.size < m.size then mem else memWrite mem r.buffer m.data

end Request

/-- `size` is that of a message that `mq_send` accepts. -/
def SendSize (size : Int) : Prop := 0 < size ∧ size ≤ messageMaxSize

/-- What call number `n` of process `p` does to the channel of queue `id`: the syscall, the channel
before it, what it leaves in the history, and the channel and the memory after it. -/
inductive ChanStep (n : Nat) (p : PcbRef) (id : Int) (mem : Int → UInt8) :
    Syscall → Option Chan → List Act → Option Chan → (Int → UInt8) → Prop
  | create (size : Int) (hpos : 0 < size) (hmax : size ≤ maxMessagesPerQueue) :
      ChanStep n p id mem (.mqCreate id size) none [.create id, .retval n id]
        (some ⟨size.toNat, [], [], []⟩) mem
  | destroy (ch : Chan) :
      ChanStep n p id mem (.mqDestroy id) (some ch)
        ((ch.receivers ++ ch.senders).map (fun r => .retval r.call dsosEMqNotOpen) ++
          (ch.contents.map (.discard id) ++ [.destroy id, .retval n id]))
        none mem
  | blockSend (ch : Chan) (buffer size : Int) (hsize : SendSize size)
      (hfull : ch.cap ≤ ch.contents.length) :
      ChanStep n p id mem (.mqSend id buffer size) (some ch) []
        (some { ch with senders := ch.senders ++ [⟨n, p, buffer, size⟩] }) mem
  | blockReceive (ch : Chan) (buffer size : Int) (hsize : 0 < size) (hempty : ch.contents = []) :
      ChanStep n p id mem (.mqReceive id buffer size) (some ch) []
        (some { ch with receivers := ch.receivers ++ [⟨n, p, buffer, size⟩] }) mem
  | send (ch : Chan) (buffer size : Int) (b : Nat) (m : Message) (hsize : SendSize size)
      (hroom : ch.contents.length < ch.cap) (hr : ch.receivers = [])
      (hm : m = Request.message ⟨n, p, buffer, size⟩ b p mem) :
      ChanStep n p id mem (.mqSend id buffer size) (some ch) [.enqueue id m, .retval n 0]
        (some { ch with contents := ch.contents ++ [m] }) mem
  | handOff (ch : Chan) (buffer size : Int) (b : Nat) (m : Message) (r : Request)
      (rs : List Request) (hsize : SendSize size) (hroom : 0 < ch.cap) (hempty : ch.contents = [])
      (hr : ch.receivers = r :: rs) (hm : m = Request.message ⟨n, p, buffer, size⟩ b p mem) :
      ChanStep n p id mem (.mqSend id buffer size) (some ch)
        (.enqueue id m :: .dequeue id m r.call :: (r.receipt m ++ [.retval n 0]))
        (some { ch with receivers := rs }) (r.memAfter m mem)
  | receive (ch : Chan) (buffer size : Int) (m : Message) (ms : List Message) (hsize : 0 < size)
      (hm : ch.contents = m :: ms) (hfit : m.size ≤ size) (hs : ch.senders = []) :
      ChanStep n p id mem (.mqReceive id buffer size) (some ch)
        [.dequeue id m n, .deliver n buffer m.data, .retval n m.size]
        (some { ch with contents := ms }) (memWrite mem buffer m.data)
  | complete (ch : Chan) (buffer size : Int) (m m' : Message) (ms : List Message) (b : Nat)
      (r : Request) (rs : List Request) (hsize : 0 < size) (hm : ch.contents = m :: ms)
      (hfit : m.size ≤ size) (hs : ch.senders = r :: rs)
      (hm' : m' = r.message b p (memWrite mem buffer m.data)) :
      ChanStep n p id mem (.mqReceive id buffer size) (some ch)
        [.dequeue id m n, .deliver n buffer m.data, .enqueue id m', .retval r.call 0,
          .retval n m.size]
        (some { ch with contents := ms ++ [m'], senders := rs }) (memWrite mem buffer m.data)
  /-- The buffer is too small: the message is gone, and no blocked sender is let in. -/
  | drop (ch : Chan) (buffer size : Int) (m : Message) (ms : List Message) (hsize : 0 < size)
      (hm : ch.contents = m :: ms) (hfit : size < m.size) :
      ChanStep n p id mem (.mqReceive id buffer size) (some ch)
        [.dequeue id m n, .retval n dsosEBuffer] (some { ch with contents := ms }) mem

/-- The four calls on queues. -/
def Syscall.IsMq : Syscall → Prop
  | .mqCreate .. | .mqSend .. | .mqReceive .. | .mqDestroy .. => True
  | _ => False

namespace Channels

/-- A call on queues may fail at once: its arguments are invalid, there is no such queue (or there
is one to create, or no room for it), or it would have to block and nobody else can run. -/
def MayRefuse (a : Channels) : Syscall → Prop
  | .mqCreate .. => True
  | .mqSend id _ size =>
    id ≤ 0 ∨ ¬ SendSize size ∨ ∀ ch ∈ a.chan id, ch.cap ≤ ch.contents.length
  | .mqReceive id _ size => id ≤ 0 ∨ size ≤ 0 ∨ ∀ ch ∈ a.chan id, ch.contents = []
  | .mqDestroy id => id ≤ 0 ∨ a.chan id = none
  | _ => False

/-- Process `p` issues the call `c`. -/
def issue (a : Channels) (p : PcbRef) (c : Syscall) : Channels :=
  { a with
    calls := a.calls + 1
    history := a.history ++ [.issue a.calls p c (c.payload a.mem)] }

def log (a : Channels) (acts : List Act) : Channels := { a with history := a.history ++ acts }

def setChan (a : Channels) (id : Int) (o : Option Chan) : Channels :=
  { a with chan := fun i => if i = id then o else a.chan i }

def setMem (a : Channels) (mem : Int → UInt8) : Channels := { a with mem }

section
variable {a : Channels} {acts acts' : List Act} {id : Int} {o : Option Chan}
  {mem mem' : Int → UInt8}

@[simp] theorem log_log : (a.log acts).log acts' = a.log (acts ++ acts') := by
  simp [log, List.append_assoc]

@[simp] theorem log_nil : a.log [] = a := by simp [log]

@[simp] theorem setMem_log : (a.setMem mem).log acts = (a.log acts).setMem mem := rfl
@[simp] theorem setChan_log : (a.setChan id o).log acts = (a.log acts).setChan id o := rfl
@[simp] theorem setMem_setChan :
    (a.setMem mem).setChan id o = (a.setChan id o).setMem mem := rfl
@[simp] theorem setMem_setMem : (a.setMem mem).setMem mem' = a.setMem mem' := rfl
@[simp] theorem setMem_same : a.setMem a.mem = a := rfl
@[simp] theorem log_mem : (a.log acts).mem = a.mem := rfl

end

/-- What an event does to the channels. -/
inductive Step (a : Channels) : Event → Channels → Prop
  | tick : Step a .tick a
  | store (addr : Int) (bytes : List UInt8) :
      Step a (.store addr bytes) (a.setMem (memWrite a.mem addr bytes))
  /-- A call that is not about queues. -/
  | pass (p : PcbRef) (c : Syscall) (acts : List Act) (hc : ¬ c.IsMq)
      (hacts : acts = [] ∨ ∃ r, acts = [.retval a.calls r]) :
      Step a (.syscall c) ((a.issue p c).log acts)
  /-- A call on a queue that fails at once. -/
  | refuse (p : PcbRef) (c : Syscall) (r : Int) (hc : a.MayRefuse c) (hr : r < 0) :
      Step a (.syscall c) ((a.issue p c).log [.retval a.calls r])
  | call (p : PcbRef) (c : Syscall) (id : Int) (acts : List Act) (o : Option Chan)
      (mem : Int → UInt8) (hid : 0 < id)
      (h : ChanStep a.calls p id a.mem c (a.chan id) acts o mem) :
      Step a (.syscall c) ((((a.issue p c).log acts).setChan id o).setMem mem)

end Channels

end DisastrOS
