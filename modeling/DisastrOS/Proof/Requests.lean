import DisastrOS.Proof.Boot

/-!
# Pending requests

A process on a waiting list of a queue is there because of its latest call, whose arguments are
still in its PCB and which has not returned (`pendingRequests`). So whoever completes the call reads
the arguments of that very call, and its process has the result when it is ready to run.
-/

namespace DisastrOS

open Lib State

section
variable {s : State} {es : List Event} {p : PcbRef} {q : QueueRef} {L : PcbList}

/-- `p` waits in a call of this number on this queue id. -/
def State.Blocked (s : State) (p : PcbRef) (num : Nat) (id : Int) : Prop :=
  (s.pcbs p).status = .waiting ∧ (s.pcbs p).syscallNum = num ∧ (s.pcbs p).syscallArgs 0 = id

/-- `p` is on the list `L`, once, and on no other list. -/
def State.OnlyOn (s : State) (p : PcbRef) (L : PcbList) : Prop :=
  (s.list L).count p = 1 ∧ ∀ L', p ∈ s.list L' → L' = L

/-- The latest call of `p` is `c`, and it is all that has happened to that call. -/
def State.Asks (s : State) (p : PcbRef) (c : Syscall) : Prop :=
  ∃ pay, trail (s.pcbs p).call s.history = [.issue (s.pcbs p).call p c pay]

/-- The blocked processes of the queues (module doc). -/
structure PendingRequests (s : State) : Prop where
  senders : ∀ q ∈ s.live, ∀ p, p ∈ (s.queues q).waitingSenders ↔
    s.Blocked p dsosCallMqSend (s.queues q).queueId
  receivers : ∀ q ∈ s.live, ∀ p, p ∈ (s.queues q).waitingReceivers ↔
    s.Blocked p dsosCallMqReceive (s.queues q).queueId
  sender : ∀ q, ∀ p ∈ (s.queues q).waitingSenders, q ∈ s.live ∧ s.OnlyOn p (.senders q) ∧
    1 ≤ (s.pcbs p).syscallArgs 2 ∧ (s.pcbs p).syscallArgs 2 ≤ messageMaxSize ∧
    s.Asks p (.mqSend (s.queues q).queueId ((s.pcbs p).syscallArgs 1) ((s.pcbs p).syscallArgs 2))
  receiver : ∀ q, ∀ p ∈ (s.queues q).waitingReceivers, q ∈ s.live ∧ s.OnlyOn p (.receivers q) ∧
    0 < (s.pcbs p).syscallArgs 2 ∧
    s.Asks p (.mqReceive (s.queues q).queueId ((s.pcbs p).syscallArgs 1)
      ((s.pcbs p).syscallArgs 2))
  valid : ∀ n, .badSize n ∉ s.history
  once : ∀ n, ((trail n s.history).filter fun a => a matches .retval ..).length ≤ 1
  answered : ∀ p n id buffer size pay, (s.pcbs p).status ≠ .waiting → (s.pcbs p).call = n →
    (.issue n p (.mqSend id buffer size) pay ∈ s.history ∨
      .issue n p (.mqReceive id buffer size) pay ∈ s.history) →
    ∃ r, .retval n r ∈ s.history ∧ (s.pcbs p).syscallRetvalue = r

/-! ## On one list -/

theorem Inv.onlyOn (h : Inv s) (hp : p ∈ s.list L) : s.OnlyOn p L :=
  ⟨List.count_eq_one_of_mem (h.placed.nodup L) hp, fun _ hp' => h.placed.disj hp' hp⟩

/-- A waiting process is on a list that takes callers of its call. -/
theorem Inv.list_of_waiting (h : Inv s) (hst : (s.pcbs p).status = .waiting) :
    ∃ L, p ∈ s.list L ∧ L.status = .waiting ∧ L.Accepts (s.pcbs p).syscallNum := by
  have ha : s.Alloc p := by
    by_contra ha
    exact h.placed.free ha hst
  have hne : p ≠ s.running := by
    rintro rfl
    rw [h.status] at hst
    cases hst
  obtain ⟨L, hL, hLst, hacc⟩ := h.mem_list ha hne
  exact ⟨L, hL, hLst.symm.trans hst, hacc⟩

/-- A process that is blocked on queue `q` in a call that only the lists `M` take is on that of `q`. -/
theorem Inv.mem_of_blocked {num : Nat} {M : QueueRef → PcbList} (h : Inv s) (hq : q ∈ s.live)
    (hb : s.Blocked p num (s.queues q).queueId)
    (hM : ∀ L : PcbList, L.status = .waiting → L.Accepts num → ∃ i, L = M i)
    (hid : ∀ i, p ∈ s.list (M i) →
      i ∈ s.live ∧ (s.pcbs p).syscallArgs 0 = (s.queues i).queueId) : p ∈ s.list (M q) := by
  obtain ⟨hst, hnum, hidq⟩ := hb
  obtain ⟨L, hL, hLst, hacc⟩ := h.list_of_waiting hst
  rw [hnum] at hacc
  obtain ⟨i, rfl⟩ := hM L hLst hacc
  obtain ⟨hi, hidi⟩ := hid i hL
  -- the ids of queues are distinct
  obtain rfl : i = q := by
    have h1 := h.queues.queueById_eq_some.2 ⟨hi, hidi.symm.trans hidq⟩
    have h2 := h.queues.queueById_eq_some.2 ⟨hq, rfl⟩
    exact Option.some.inj (h1.symm.trans h2)
  exact hL

theorem Inv.mem_senders_iff (h : Inv s) (hq : q ∈ s.live) : p ∈ (s.queues q).waitingSenders ↔
    s.Blocked p dsosCallMqSend (s.queues q).queueId := by
  refine ⟨fun hp => ?_, fun hb => h.mem_of_blocked (M := .senders) hq hb (fun L hLst hacc => ?_)
    fun i hp => ?_⟩
  · exact ⟨h.placed.status (L := .senders q) hp, h.placed.accepts (L := .senders q) hp,
      (h.queues.senders q p hp).2.1⟩
  · cases L with
    | ready => cases hLst
    | zombie => cases hLst
    | waiting => rcases hacc with hacc | hacc <;> cases hacc
    | receivers i => cases hacc
    | senders i => exact ⟨i, rfl⟩
  · exact ⟨(h.queues.senders i p hp).1, (h.queues.senders i p hp).2.1⟩

theorem Inv.mem_receivers_iff (h : Inv s) (hq : q ∈ s.live) :
    p ∈ (s.queues q).waitingReceivers ↔
      s.Blocked p dsosCallMqReceive (s.queues q).queueId := by
  refine ⟨fun hp => ?_, fun hb => h.mem_of_blocked (M := .receivers) hq hb (fun L hLst hacc => ?_)
    fun i hp => ?_⟩
  · exact ⟨h.placed.status (L := .receivers q) hp, h.placed.accepts (L := .receivers q) hp,
      (h.queues.receivers q p hp).2.1⟩
  · cases L with
    | ready => cases hLst
    | zombie => cases hLst
    | waiting => rcases hacc with hacc | hacc <;> cases hacc
    | senders i => cases hacc
    | receivers i => exact ⟨i, rfl⟩
  · exact ⟨(h.queues.receivers i p hp).1, (h.queues.receivers i p hp).2.1⟩

/-! ## The latest call -/

theorem MqInv.asks_send (h : MqInv s) (hp : p ∈ (s.queues q).waitingSenders) :
    s.Asks p (.mqSend (s.queues q).queueId ((s.pcbs p).syscallArgs 1)
      ((s.pcbs p).syscallArgs 2)) :=
  (h.trails.senders _ _ (h.queues.chan (h.queues.senders q p hp).1) (s.request p)
    (List.mem_map_of_mem hp)).2

theorem MqInv.asks_receive (h : MqInv s) (hp : p ∈ (s.queues q).waitingReceivers) :
    s.Asks p (.mqReceive (s.queues q).queueId ((s.pcbs p).syscallArgs 1)
      ((s.pcbs p).syscallArgs 2)) :=
  (h.trails.receivers _ _ (h.queues.chan (h.queues.receivers q p hp).1) (s.request p)
    (List.mem_map_of_mem hp)).2

theorem lastRetval_trail {n : Nat} {h : List Act} : lastRetval n (trail n h) = lastRetval n h := by
  unfold lastRetval trail
  rw [List.filterMap_filter]
  congr 1
  refine List.filterMap_congr fun a _ => ?_
  cases a <;> simp [Act.callOf]

/-- The last entry of a call that sends or receives and is not blocked is its return value. -/
theorem Trail.returned {chan : Int → Option Chan} {n : Nat} {t : List Act} {id buffer size : Int}
    {pay : List UInt8} (ht : Trail chan n t)
    (hi : .issue n p (.mqSend id buffer size) pay ∈ t ∨
      .issue n p (.mqReceive id buffer size) pay ∈ t) :
    (∃ r, lastRetval n t = some r ∧ .retval n r ∈ t) ∨
      ∃ ch, chan id = some ch ∧ ⟨n, p, buffer, size⟩ ∈ ch.receivers ++ ch.senders := by
  cases ht with
  | pass p' c pay' acts hc hacts =>
    have hcc : c ≠ .mqSend id buffer size ∧ c ≠ .mqReceive id buffer size := by
      constructor <;> rintro rfl <;> exact hc trivial
    rcases hacts with rfl | ⟨r, rfl⟩ <;> simp [Ne.symm hcc.1, Ne.symm hcc.2] at hi
  | sending p' id' buffer' size' pay' ch hch hr =>
    simp only [List.mem_singleton, Act.issue.injEq, Syscall.mqSend.injEq, reduceCtorEq, false_and,
      and_false, or_false, true_and] at hi
    obtain ⟨rfl, ⟨rfl, rfl, rfl⟩, -⟩ := hi
    exact .inr ⟨ch, hch, List.mem_append_right _ hr⟩
  | receiving p' id' buffer' size' pay' ch hch hr =>
    simp only [List.mem_singleton, Act.issue.injEq, Syscall.mqReceive.injEq, reduceCtorEq,
      false_and, and_false, false_or, true_and] at hi
    obtain ⟨rfl, ⟨rfl, rfl, rfl⟩, -⟩ := hi
    exact .inr ⟨ch, hch, List.mem_append_left _ hr⟩
  | managed p' c pay' id' => exact .inl ⟨id', by simp [lastRetval], by simp⟩
  | failed p' c pay' r => exact .inl ⟨r, by simp [lastRetval], by simp⟩
  | sent => exact .inl ⟨0, by simp [lastRetval], by simp⟩
  | received p' id' buffer' size' pay' m => exact .inl ⟨m.size, by simp [lastRetval], by simp⟩
  | dropped => exact .inl ⟨dsosEBuffer, by simp [lastRetval], by simp⟩

theorem MqInv.answered (h : MqInv s) {n : Nat} {id buffer size : Int} {pay : List UInt8}
    (hst : (s.pcbs p).status ≠ .waiting) (hn : (s.pcbs p).call = n)
    (hi : .issue n p (.mqSend id buffer size) pay ∈ s.history ∨
      .issue n p (.mqReceive id buffer size) pay ∈ s.history) :
    ∃ r, .retval n r ∈ s.history ∧ (s.pcbs p).syscallRetvalue = r := by
  obtain ⟨c, hc⟩ : ∃ c, .issue n p c pay ∈ s.history := by
    rcases hi with hi | hi <;> exact ⟨_, hi⟩
  obtain ⟨ht, -⟩ := h.trails.of_mem hc rfl
  have hi' := hi.imp (fun hi => mem_trail.2 ⟨hi, rfl⟩) fun hi => mem_trail.2 ⟨hi, rfl⟩
  rcases ht.returned hi' with ⟨r, hr, hm⟩ | ⟨ch, hch, hm⟩
  · rw [lastRetval_trail] at hr
    exact ⟨r, (mem_trail.1 hm).1, h.answers.value hc hn hr⟩
  · -- a blocked call has its process on a waiting list
    obtain ⟨q, -, rfl⟩ := Option.map_eq_some_iff.1 hch
    exfalso
    rcases List.mem_append.1 hm with hm | hm <;> obtain ⟨x, hx, he⟩ := List.mem_map.1 hm <;>
      obtain rfl : x = p := congrArg Request.pcb he
    · exact hst (h.placed.status (L := .receivers q) hx)
    · exact hst (h.placed.status (L := .senders q) hx)

/-! ## Runs -/

theorem MqInv.no_mishap (h : MqInv s) (n : Nat) :
    .noMessage n ∉ s.history ∧ .badSize n ∉ s.history := by
  constructor <;> intro hm <;> obtain ⟨ht, hm'⟩ := h.trails.of_mem hm rfl
  · exact (ht.no_mishap n).1 hm'
  · exact (ht.no_mishap n).2 hm'

theorem MqInv.retval_once (h : MqInv s) (n : Nat) :
    ((trail n s.history).filter fun a => a matches .retval ..).length ≤ 1 := by
  by_cases hn : 0 < n ∧ n < s.calls
  · exact (h.trails.old n hn.1 hn.2).retval_once
  · have h1 : trail n s.history = [] := h.trails.new n (by
      have : s.channels.calls = s.calls := rfl
      omega)
    rw [h1]
    exact Nat.zero_le _

/-- **Pending requests** are in order in every state that a run on queues reaches. -/
theorem pendingRequests (he : ∀ e ∈ es, e.IsMq) (hr : run step boot es = .ok s) :
    PendingRequests s := by
  have h := run_mq he hr
  exact {
    senders := fun q hq p => h.mem_senders_iff hq
    receivers := fun q hq p => h.mem_receivers_iff hq
    sender := fun q p hp =>
      have hq := h.queues.senders q p hp
      ⟨hq.1, h.onlyOn (L := .senders q) hp, hq.2.2.1, hq.2.2.2, h.asks_send hp⟩
    receiver := fun q p hp =>
      have hq := h.queues.receivers q p hp
      ⟨hq.1, h.onlyOn (L := .receivers q) hp, hq.2.2, h.asks_receive hp⟩
    valid := fun n => (h.no_mishap n).2
    once := h.retval_once
    answered := fun p n id buffer size pay => h.answered }

/-- The second sender blocks. -/
theorem pendingRequests_blocked : ∃ s, run step boot [.syscall (.mqCreate 5 1),
      .syscall (.spawn 0 0), .syscall (.mqSend 5 100 2), .syscall (.mqSend 5 100 2)] = .ok s ∧
    0 ∈ (s.queues 0).waitingSenders ∧ PendingRequests s := by
  have hc : (run step boot [.syscall (.mqCreate 5 1), .syscall (.spawn 0 0),
      .syscall (.mqSend 5 100 2), .syscall (.mqSend 5 100 2)]).toOption.any
      (fun s => 0 ∈ (s.queues 0).waitingSenders) = true := by decide +kernel
  obtain ⟨s, hr, hs⟩ := run_check hc
  exact ⟨s, hr, of_decide_eq_true hs, pendingRequests (by decide) hr⟩

end

end DisastrOS
