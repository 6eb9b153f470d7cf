import DisastrOS.Proof.Boot

/-!
# Blocked senders and receivers

A receive call whose buffer is too small for the message that it takes returns before it completes a
blocked send. These are the only steps after which a process waits for a slot that is free
(`noLostWakeup_iff`), and without them send calls are served in the order in which they were made
(`sendOrder`).
-/

namespace DisastrOS

open Lib State Channel

section
variable {s s' : State} {e : Event} {es : List Event}

/-! ## Lost wakeups -/

/-- Whoever waits on a queue has to. -/
def NoLostWakeup (s : State) : Prop := ∀ q ∈ s.live,
  ((s.queues q).waitingSenders ≠ [] → (s.queues q).currentMessages = (s.queues q).maxMessages) ∧
  ((s.queues q).waitingReceivers ≠ [] → (s.queues q).messages = []) ∧
  ((s.queues q).waitingSenders = [] ∨ (s.queues q).waitingReceivers = [])

/-- The event is a receive call whose buffer is smaller than the message it takes, from a queue on
which a sender is blocked. -/
def Strands (s : State) : Event → Prop
  | .syscall (.mqReceive id _ size) => 0 < size ∧
    ∃ q ∈ s.live, (s.queues q).queueId = id ∧ (s.queues q).waitingSenders ≠ [] ∧
      ∃ m ∈ (s.queues q).messages.head?, size < m.size
  | _ => False

instance (s : State) : Decidable (NoLostWakeup s) :=
  inferInstanceAs (Decidable (∀ q ∈ s.live, _ ∧ _ ∧ _))

instance (s : State) (e : Event) : Decidable (Strands s e) := by
  unfold Strands
  split <;> infer_instance

theorem mem_chan (h : Inv s) {id : Int} {ch : Chan} : ch ∈ s.channels.chan id ↔
    ∃ q ∈ s.live, (s.queues q).queueId = id ∧ s.channel q = ch := by
  rw [channels_chan, Option.mem_def, Option.map_eq_some_iff]
  simp only [h.queues.queueById_eq_some, and_assoc]

theorem strandedBy_iff {q : QueueRef} {size : Int} : (s.channel q).StrandedBy size ↔
    (s.queues q).waitingSenders ≠ [] ∧ ∃ m ∈ (s.queues q).messages.head?, size < m.size := by
  unfold Chan.StrandedBy
  refine and_congr (by simp [State.channel]) ⟨?_, ?_⟩
  · rintro ⟨m, ms, hm, hlt⟩
    exact ⟨m, by rw [show (s.queues q).messages = m :: ms from hm]; rfl, hlt⟩
  · rintro ⟨m, hm, hlt⟩
    obtain ⟨ms, hms⟩ := List.head?_eq_some_iff.1 hm
    exact ⟨m, ms, hms, hlt⟩

theorem strands_iff (h : Inv s) : s.channels.Strands e ↔ Strands s e := by
  constructor
  · rintro ⟨id, buffer, size, rfl, -, hsize, ch, hch, hstr⟩
    obtain ⟨q, hq, hid, rfl⟩ := (mem_chan h).1 hch
    exact ⟨hsize, q, hq, hid, strandedBy_iff.1 hstr⟩
  · intro hst
    match e, hst with
    | .syscall (.mqReceive id buffer size), ⟨hsize, q, hq, hid, hstr⟩ =>
      exact ⟨id, buffer, size, rfl, hid ▸ (h.queues.ok q hq).pos, hsize, _,
        (mem_chan h).2 ⟨q, hq, hid, rfl⟩, strandedBy_iff.2 hstr⟩

/-- A queue is full as a channel iff its counter has reached its maximum. -/
theorem full_iff (h : Inv s) {q : QueueRef} (hq : q ∈ s.live) : (s.channel q).Full ↔
    ((s.queues q).waitingSenders ≠ [] →
      (s.queues q).currentMessages = (s.queues q).maxMessages) := by
  have hcount := (h.queues.ok q hq).count
  have hpos := (h.queues.ok q hq).capPos
  unfold Channel.Full
  simp only [State.channel, ne_eq, List.map_eq_nil_iff]
  refine imp_congr_right fun _ => ?_
  omega

theorem noLostWakeup_of_full (h : Inv s) (hf : ∀ id, ∀ ch ∈ s.channels.chan id, ch.Full) :
    NoLostWakeup s := by
  intro q hq
  have hsend := (full_iff h hq).1 (hf _ _ ((mem_chan h).2 ⟨q, hq, rfl, rfl⟩))
  have hrecv : (s.queues q).waitingReceivers ≠ [] → (s.queues q).messages = [] := fun hr =>
    (h.idle q hq).2 (by simpa [State.channel] using hr)
  refine ⟨hsend, hrecv, ?_⟩
  by_contra hboth
  rw [not_or] at hboth
  have hcur := hsend hboth.1
  have hcount := (h.queues.ok q hq).count
  have hpos := (h.queues.ok q hq).capPos
  rw [hrecv hboth.2, List.length_nil] at hcount
  omega

theorem NoLostWakeup.full (hn : NoLostWakeup s) (h : Inv s) {id : Int} {ch : Chan}
    (hch : ch ∈ s.channels.chan id) : ch.Full := by
  obtain ⟨q, hq, -, rfl⟩ := (mem_chan h).1 hch
  exact (full_iff h hq).2 (hn q hq).1

/-- Runs on queues that strand nobody also keep the order of send calls. -/
structure OrderedInv (s : State) : Prop extends MqInv s where
  ordered : s.channels.Ordered

theorem OrderedInv.preserved (h : OrderedInv s) (he : e.IsMq) (hn : ¬ Strands s e)
    (hs : step s e = .ok s') : OrderedInv s' := by
  obtain ⟨h1, h2⟩ := h.toMqInv.preserved he hs
  exact ⟨h1, h2.ordered h.kept h.ordered fun hst => hn ((strands_iff h.toInv).1 hst)⟩

theorem boot_orderedInv : OrderedInv boot := ⟨boot_mqInv, boot_ordered⟩

/-- A step that strands a sender loses its wakeup. -/
theorem Strands.not_noLostWakeup (hst : Strands s e) (h : MqInv s) (he : e.IsMq)
    (hs : step s e = .ok s') : ¬ NoLostWakeup s' := by
  obtain ⟨h1, h2⟩ := h.preserved he hs
  obtain ⟨id, ch, hch, hnf⟩ := h2.not_full h.kept ((strands_iff h.toInv).2 hst)
  exact fun hn => hnf (hn.full h1.toInv hch)

/-- **No wakeup is lost** in a run on queues exactly if no step of it strands a sender. -/
theorem noLostWakeup_iff (he : ∀ e ∈ es, e.IsMq) (hr : run step boot es = .ok s) :
    Always step NoLostWakeup boot es ↔ Along step (fun s e => ¬ Strands s e) boot es :=
  always_iff_along (I := OrderedInv) (fun _ h => noLostWakeup_of_full h.toInv h.ordered.full)
    (fun _ _ _ h he hn hs => h.preserved he hn hs)
    (fun _ _ _ h he hst hs => (not_not.1 hst).not_noLostWakeup h.toMqInv he hs)
    boot_orderedInv he hr

/-- A run that strands a sender: process 0 blocks on a full queue, and process 1 receives the only
message into a buffer of one byte. -/
def strandingRun : List Event :=
  [.syscall (.mqCreate 5 1), .syscall (.spawn 0 0), .syscall (.mqSend 5 100 2),
    .syscall (.mqSend 5 100 2), .syscall (.mqReceive 5 200 1)]

theorem strandingRun_loses_wakeup : (∀ e ∈ strandingRun, e.IsMq) ∧
    ∃ s, run step boot strandingRun = .ok s ∧ ¬ NoLostWakeup s := by
  refine ⟨by decide, ?_⟩
  have hc : (run step boot strandingRun).toOption.any (fun s => ¬ NoLostWakeup s) = true := by
    decide +kernel
  obtain ⟨s, hr, hs⟩ := run_check hc
  exact ⟨s, hr, of_decide_eq_true hs⟩

/-- A receive with a large enough buffer lets the blocked sender in. -/
def admittingRun : List Event :=
  [.syscall (.mqCreate 5 1), .syscall (.spawn 0 0), .syscall (.mqSend 5 100 2),
    .syscall (.mqSend 5 100 2), .syscall (.mqReceive 5 200 2)]

theorem noLostWakeup_admittingRun : Always step NoLostWakeup boot admittingRun := by
  have hc : (run step boot admittingRun).toOption.any (fun _ => true) = true := by decide +kernel
  obtain ⟨s, hr, -⟩ := run_check hc
  exact (noLostWakeup_iff (by decide) hr).2 (by decide +kernel)

/-! ## The order of send calls -/

/-- `m` is the message that call `n` has inserted into queue `id`, and the only one. -/
def Sent (s : State) (id : Int) (n : Nat) (m : Message) : Prop :=
  (enqueues id s.history).filter (·.call = n) = [m]

/-- Of two send calls on a queue that have completed with 0, the one issued first has inserted its
message first. -/
def SendOrder (s : State) : Prop :=
  ∀ id n₁ p₁ buffer₁ size₁ pay₁ n₂ p₂ buffer₂ size₂ pay₂,
    Before s.history (.issue n₁ p₁ (.mqSend id buffer₁ size₁) pay₁)
      (.issue n₂ p₂ (.mqSend id buffer₂ size₂) pay₂) →
    .retval n₁ 0 ∈ s.history → .retval n₂ 0 ∈ s.history →
    ∃ m₁ m₂, Sent s id n₁ m₁ ∧ Sent s id n₂ m₂ ∧
      Before s.history (.enqueue id m₁) (.enqueue id m₂)

/-- A send call that has completed with 0 has inserted one message. -/
theorem MqInv.sent (h : MqInv s) {n : Nat} {p : PcbRef} {id buffer size : Int} {pay : List UInt8}
    (hi : .issue n p (.mqSend id buffer size) pay ∈ s.history) (hr : .retval n 0 ∈ s.history) :
    ∃ m, Sent s id n m ∧ trail n s.history = [.issue n p (.mqSend id buffer size) pay,
      .enqueue id m, .retval n 0] ∧ m.call = n ∧ m.size = size ∧ m.Whole := by
  obtain ⟨ht, hi'⟩ := h.trails.of_mem hi rfl
  obtain ⟨m, hm, hcall, hsize, hw⟩ := ht.sent_of hi' (mem_trail.2 ⟨hr, rfl⟩)
  refine ⟨m, ?_, hm, hcall, hsize, hw⟩
  have : enqueues id (trail n s.history) = _ := enqueues_trail
  rw [show trail n s.history = _ from hm] at this
  exact this.symm.trans (by simp [enqueues])

theorem Sent.mem {id : Int} {n : Nat} {m : Message} (h : Sent s id n m) :
    m ∈ enqueues id s.history ∧ m.call = n := by
  have hm : m ∈ (enqueues id s.history).filter (·.call = n) := h ▸ List.mem_singleton_self m
  simpa using hm

theorem sendOrder_of_inv (h : OrderedInv s) : SendOrder s := by
  intro id n₁ p₁ buffer₁ size₁ pay₁ n₂ p₂ buffer₂ size₂ pay₂ hb hr₁ hr₂
  have hlt := hb.lt h.numbered.order
  obtain ⟨m₁, hm₁, -⟩ := h.toMqInv.sent (hb.subset List.mem_cons_self) hr₁
  obtain ⟨m₂, hm₂, -⟩ := h.toMqInv.sent
    (hb.subset (List.mem_cons_of_mem _ List.mem_cons_self)) hr₂
  have hord : (enqueueCalls id s.history).Pairwise (· < ·) :=
    (List.pairwise_append.1 (h.ordered.sent id)).1
  refine ⟨m₁, m₂, hm₁, hm₂, before_enqueue hord hm₁.mem.1 hm₂.mem.1 ?_⟩
  rw [hm₁.mem.2, hm₂.mem.2]
  exact hlt

/-- **Send calls keep their order** in every run on queues in which no step strands a sender. -/
theorem sendOrder (he : ∀ e ∈ es, e.IsMq) (hn : Along step (fun s e => ¬ Strands s e) boot es)
    (hr : run step boot es = .ok s) : SendOrder s :=
  sendOrder_of_inv (run_inv (I := OrderedInv) (fun _ _ _ h he hn hs => h.preserved he hn hs)
    boot_orderedInv he hn hr)

/-- After a stranding step, process 1 sends into the free slot before the message of process 0, which
is still blocked, gets there. -/
def overtakingRun : List Event :=
  strandingRun ++ [.syscall (.mqSend 5 300 3), .syscall (.mqReceive 5 200 3)]

theorem overtakingRun_not_sendOrder : (∀ e ∈ overtakingRun, e.IsMq) ∧
    ∃ s, run step boot overtakingRun = .ok s ∧ ¬ SendOrder s := by
  refine ⟨by decide, ?_⟩
  have hc : (run step boot overtakingRun).toOption.any (fun s =>
      Before s.history (.issue 4 0 (.mqSend 5 100 2) [0, 0])
        (.issue 6 1 (.mqSend 5 300 3) [0, 0, 0]) ∧
      .retval 4 0 ∈ s.history ∧ .retval 6 0 ∈ s.history ∧
      enqueueCalls 5 s.history = [3, 6, 4]) = true := by decide +kernel
  obtain ⟨s, hr, hs⟩ := run_check hc
  obtain ⟨h1, h2, h3, h4⟩ := of_decide_eq_true hs
  refine ⟨s, hr, fun ho => ?_⟩
  obtain ⟨m₁, m₂, hm₁, hm₂, hb⟩ := ho _ _ _ _ _ _ _ _ _ _ _ h1 h2 h3
  have hsub : [4, 6].Sublist (enqueueCalls 5 s.history) := by
    have := hb.enqueues.map (·.call)
    rwa [List.map_cons, List.map_cons, hm₁.mem.2, hm₂.mem.2] at this
  rw [h4] at hsub
  exact absurd hsub (by decide)

theorem sendOrder_admittingRun :
    ∃ s, run step boot admittingRun = .ok s ∧ SendOrder s := by
  have hc : (run step boot admittingRun).toOption.any (fun _ => true) = true := by decide +kernel
  obtain ⟨s, hr, -⟩ := run_check hc
  exact ⟨s, hr, sendOrder (by decide) (by decide +kernel) hr⟩

end

end DisastrOS
