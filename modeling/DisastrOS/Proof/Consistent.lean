import DisastrOS.Proof.Queues
import DisastrOS.Proof.Tree

/-!
# The invariant inside a syscall

`Consistent s X B` puts together what holds at every point of a syscall that holds the processes of
`X` and the message blocks of `B`, and has a lemma for each operation that the queue calls are made
of. `Inv s` is what holds at a return to user code.
-/

namespace DisastrOS

open Lib State

structure Consistent (s : State) (X : List PcbRef) (B : List Nat) : Prop where
  placed : Placed s X
  timed : Timed s
  queues : Queues s B
  tree : Tree s
  answers : Answers s

section
variable {s s' : State} {X : List PcbRef} {B : List Nat} {L : PcbList} {p : PcbRef}
  {ps : List PcbRef} {q : QueueRef} {m : Message} {ms : List Message} {b : Nat} {pool : Pool}

theorem Timed.setList (h : Timed s) (hL : L ≠ .waiting) : Timed (s.setList L ps) := by
  refine h.congr (by simp) fun t ht => ⟨?_, by simp⟩
  have := (h.waiting t ht).1
  change _ ∈ (s.setList L ps).list .waiting
  rw [list_setList_of_ne hL.symm]
  exact this

theorem Tree.setList (h : Tree s) (hL : L ≠ .zombie) : Tree (s.setList L ps) :=
  h.congr (by simp) (by simp) (by simp) (list_setList_of_ne hL.symm :) (by simp)
    (by simp) (by simp) (by simp)

/-- What the invariant reads apart from lists and messages. -/
theorem Answers.same (h : Answers s) (hh : s'.history = s.history) (hc : s'.calls = s.calls)
    (hp : ∀ p, (s'.pcbs p).call = (s.pcbs p).call ∧
      (s'.pcbs p).syscallNum = (s.pcbs p).syscallNum ∧
      (s'.pcbs p).syscallArgs = (s.pcbs p).syscallArgs ∧
      (s'.pcbs p).syscallRetvalue = (s.pcbs p).syscallRetvalue) : Answers s' :=
  h.congr [] (by simpa using hh) hc (by simp) (by simp) (fun p => (hp p).1)
    (fun p => (hp p).2.1) (fun p => (hp p).2.2.1) fun p => (hp p).2.2.2

namespace Consistent

theorem setStatus (h : Consistent s X B) (hp : p ∈ X) (st : ProcessStatus) :
    Consistent (s.setStatus p st) X B where
  placed := h.placed.setStatus hp st
  timed := h.timed.congr rfl fun t ht => ⟨(h.timed.waiting t ht).1, by simp⟩
  queues := h.queues.congr rfl rfl rfl rfl fun _ _ _ => by simp
  tree := h.tree.congr rfl rfl rfl rfl (by simp) (by simp) (by simp) (by simp)
  answers := h.answers.same rfl rfl (by simp)

theorem setRetvalue (h : Consistent s X B) (p : PcbRef) (r : Int) :
    Consistent (s.setRetvalue p r) X B where
  placed := h.placed.setRetvalue p r
  timed := h.timed.congr rfl fun t ht => ⟨(h.timed.waiting t ht).1, by simp⟩
  queues := h.queues.congr rfl rfl rfl rfl fun _ _ _ => by simp
  tree := h.tree.congr rfl rfl rfl rfl (by simp) (by simp) (by simp) (by simp)
  answers := h.answers.setRetvalue p r

theorem setRunning (h : Consistent s X B) (p : PcbRef) : Consistent (s.setRunning p) X B where
  placed := h.placed.setRunning p
  timed := h.timed.congr rfl fun t ht => ⟨(h.timed.waiting t ht).1, rfl⟩
  queues := h.queues.congr rfl rfl rfl rfl fun _ _ _ => rfl
  tree := h.tree.congr rfl rfl rfl rfl (by simp) (by simp) (by simp) (by simp)
  answers := h.answers.same rfl rfl (by simp)

theorem record (h : Consistent s X B) {a : Act} (hi : ∀ n p c pay, a ≠ .issue n p c pay)
    (hr : ∀ n r, a ≠ .retval n r) : Consistent (s.record a) X B where
  placed := h.placed.record a
  timed := h.timed.congr rfl fun t ht => ⟨(h.timed.waiting t ht).1, rfl⟩
  queues := h.queues.congr rfl rfl rfl rfl fun _ _ _ => rfl
  tree := h.tree.congr rfl rfl rfl rfl (by simp) (by simp) (by simp) (by simp)
  answers := h.answers.congr [a] rfl rfl
    (by simpa using fun n p c pay => (hi n p c pay).symm) (by simpa using fun n r => (hr n r).symm)
    (by simp) (by simp) (by simp) (by simp)

/-! ## Lists -/

theorem setList {Y : List PcbRef} (h : Consistent s X B) (hp : Placed (s.setList L ps) Y)
    (hq : Queues (s.setList L ps) B) (hw : L ≠ .waiting) (hz : L ≠ .zombie) :
    Consistent (s.setList L ps) Y B where
  placed := hp
  timed := h.timed.setList hw
  queues := hq
  tree := h.tree.setList hz
  answers := h.answers.same (by simp) (by simp) (by simp)

/-- `List_detach(&L, L.first)`. -/
theorem detachFirst (h : Consistent s X B) (hL : s.list L = p :: ps) (hw : L ≠ .waiting)
    (hz : L ≠ .zombie) : s.listDetachFirst L = .ok (p, s.setList L ps) ∧
      Consistent (s.setList L ps) (p :: X) B := by
  obtain ⟨h1, h2⟩ := h.placed.detachFirst hL
  exact ⟨h1, h.setList h2 (h.queues.setList_sub fun q hq => hL ▸ List.mem_cons_of_mem _ hq) hw hz⟩

/-- `List_insert(&ready_list, ready_list.last, p)`. -/
theorem insertReady (h : Consistent s (p :: X) B) (hx : p ∉ X)
    (hst : (s.pcbs p).status = .ready) :
    s.listInsertLast .ready p = .ok (s.setList .ready (s.readyList ++ [p])) ∧
      Consistent (s.setList .ready (s.readyList ++ [p])) X B := by
  obtain ⟨h1, h2⟩ := h.placed.insertLast (L := .ready) hx hst trivial
  exact ⟨h1, h.setList h2 (h.queues.setList_other (by simp) (by simp)) (by simp) (by simp)⟩

/-- A process goes to a waiting list of a queue. -/
theorem insertWaiting (h : Consistent s (p :: X) B) (hx : p ∉ X)
    (hst : (s.pcbs p).status = .waiting) (hacc : L.Accepts (s.pcbs p).syscallNum)
    (hL : (∃ q ∈ s.live, L = .receivers q ∧
        (s.pcbs p).syscallArgs 0 = (s.queues q).queueId ∧ 0 < (s.pcbs p).syscallArgs 2) ∨
      ∃ q ∈ s.live, L = .senders q ∧
        (s.pcbs p).syscallArgs 0 = (s.queues q).queueId ∧ SendSize ((s.pcbs p).syscallArgs 2)) :
    s.listInsertLast L p = .ok (s.setList L (s.list L ++ [p])) ∧
      Consistent (s.setList L (s.list L ++ [p])) X B := by
  have hst' : (s.pcbs p).status = L.status := by
    rcases hL with ⟨q, -, rfl, -⟩ | ⟨q, -, rfl, -⟩ <;> exact hst
  obtain ⟨h1, h2⟩ := h.placed.insertLast hx hst' hacc
  refine ⟨h1, h.setList h2 ?_ ?_ ?_⟩
  · refine h.queues.setList (fun q' hL' x hx hn => ?_) fun q' hL' x hx hn => ?_
    · rcases List.mem_append.1 hx with hx | hx
      · exact absurd hx hn
      · obtain rfl := List.mem_singleton.1 hx
        subst hL'
        obtain ⟨q, hq, e, hargs⟩ | ⟨q, -, e, -⟩ := hL
        · cases e
          exact ⟨hq, hargs⟩
        · cases e
    · rcases List.mem_append.1 hx with hx | hx
      · exact absurd hx hn
      · obtain rfl := List.mem_singleton.1 hx
        subst hL'
        obtain ⟨q, -, e, -⟩ | ⟨q, hq, e, hargs⟩ := hL
        · cases e
        · cases e
          exact ⟨hq, hargs⟩
  · rcases hL with ⟨q, -, rfl, -⟩ | ⟨q, -, rfl, -⟩ <;> simp
  · rcases hL with ⟨q, -, rfl, -⟩ | ⟨q, -, rfl, -⟩ <;> simp

/-! ## Messages -/

/-- An operation on the messages. -/
theorem messages {B' : List Nat} (h : Consistent s X B) (acts : List Act) (hq : Queues s' B')
    (hl : ∀ L, s'.list L = s.list L) (hp : s'.pcbs = s.pcbs) (ht : s'.timerList = s.timerList)
    (hpool : s'.pcbPool = s.pcbPool) (hi : s'.initPcb = s.initPcb) (hlp : s'.lastPid = s.lastPid)
    (hc : s'.calls = s.calls) (hh : s'.history = s.history ++ acts)
    (hacts : ∀ n p c pay, .issue n p c pay ∉ acts) (hr : ∀ n r, .retval n r ∉ acts) :
    Consistent s' X B' where
  placed := h.placed.congr hpool hl fun _ _ => by rw [hp]; exact ⟨rfl, rfl⟩
  timed := h.timed.congr ht fun t htm => by
    have := hl .waiting
    change s'.waitingList = s.waitingList at this
    rw [this, hp]
    exact ⟨(h.timed.waiting t htm).1, rfl⟩
  queues := hq
  tree := h.tree.congr hi hlp hpool (hl .zombie) (by simp [hp]) (by simp [hp]) (by simp [hp])
    (by simp [hp])
  answers := h.answers.congr acts hh hc hacts hr (by simp [hp]) (by simp [hp]) (by simp [hp])
    (by simp [hp])

theorem alloc (h : Consistent s X B) (hg : s.messagePool.get = some (b, pool)) :
    Consistent { s with messagePool := pool } X (b :: B) :=
  h.messages [] (h.queues.alloc hg) (fun L => by cases L <;> rfl) rfl rfl rfl rfl rfl rfl
    (by simp) (by simp) (by simp)

theorem free (h : Consistent s X (m.block :: B)) : Consistent (messageFree s m) X B :=
  h.messages [] h.queues.free (fun L => by cases L <;> rfl) rfl rfl rfl rfl rfl rfl
    (by simp [messageFree]) (by simp) (by simp)

theorem push (h : Consistent s X (m.block :: B)) (hq : q ∈ s.live)
    (hlt : ((s.queues q).messages.length : Int) < (s.queues q).maxMessages) :
    Consistent (pushMessage s q m) X B :=
  h.messages [.enqueue (s.queues q).queueId m] (h.queues.push hq hlt)
    (fun L => by cases L <;> simp [pushMessage, State.list]) rfl rfl rfl rfl rfl rfl rfl
    (by simp) (by simp)

theorem pop (h : Consistent s X B) (hq : q ∈ s.live) (hm : (s.queues q).messages = m :: ms)
    (p : PcbRef) : ∃ s', popMessage s q p = .ok (m, s') ∧ Consistent s' X (m.block :: B) ∧
      s' = (s.updQueue q fun mq =>
        { mq with messages := ms, currentMessages := mq.currentMessages - 1 }).record
        (.dequeue (s.queues q).queueId m (s.pcbs p).call) := by
  refine ⟨_, ?_, ?_, rfl⟩
  · simp [popMessage, hm]
  · refine h.messages [.dequeue (s.queues q).queueId m (s.pcbs p).call]
      ((h.queues.pop hq hm).congr rfl rfl rfl rfl fun _ _ _ => rfl)
      (fun L => by cases L <;> simp [State.list]) rfl rfl rfl rfl rfl rfl rfl (by simp) (by simp)

theorem deliver (h : Consistent s X B) (p : PcbRef) (buffer : Int) (m : Message) :
    Consistent (deliver s p buffer m) X B :=
  h.messages [.deliver (s.pcbs p).call buffer m.data]
    (h.queues.congr rfl rfl rfl rfl fun _ _ _ => rfl) (fun L => by cases L <;> rfl) rfl rfl rfl rfl
    rfl rfl rfl (by simp) (by simp)

end Consistent

end

end DisastrOS
