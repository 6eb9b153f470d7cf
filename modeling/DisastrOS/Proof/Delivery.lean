import DisastrOS.Proof.Wakeup

/-!
# The delivery of messages

Every queue is a first-in first-out queue over its whole life, and every call that completes has
moved the messages that its return value says (`exactlyOnce`). An acknowledged message is in its
queue, or has gone to one receiver, or has been discarded with its queue, unless a receiver with too
small a buffer has taken it (`acknowledged`).
-/

namespace DisastrOS

open Lib State

section
variable {s s' : State} {e : Event} {es : List Event}

/-! ## Exactly once -/

/-- Messages leave a queue in the order in which they have entered it, and calls have done what their
return values say. -/
structure ExactlyOnce (s : State) : Prop where
  fifo : ∀ q ∈ s.live, ∀ id, (s.queues q).queueId = id →
    dequeues id (lifetime id s.history) ++ (s.queues q).messages = enqueues id (lifetime id s.history)
  sent : ∀ n p id buffer size pay, .issue n p (.mqSend id buffer size) pay ∈ s.history →
    .retval n 0 ∈ s.history →
    ∃ m, trail n s.history =
        [.issue n p (.mqSend id buffer size) pay, .enqueue id m, .retval n 0] ∧
      m.call = n ∧ m.size = size ∧ m.data.length = size.toNat
  refused : ∀ n p id buffer size pay r, .issue n p (.mqSend id buffer size) pay ∈ s.history →
    .retval n r ∈ s.history → r ≠ 0 →
    trail n s.history = [.issue n p (.mqSend id buffer size) pay, .retval n r]
  received : ∀ n p id buffer size pay r, .issue n p (.mqReceive id buffer size) pay ∈ s.history →
    .retval n r ∈ s.history → 0 < r →
    ∃ m, trail n s.history = [.issue n p (.mqReceive id buffer size) pay, .dequeue id m n,
        .deliver n buffer m.data, .retval n r] ∧
      m.size = r ∧ r ≤ size ∧ m.data.length = r.toNat
  numbered : (issueCalls s.history).Pairwise (· < ·)
  served : ∀ q ∈ s.live, ∀ id, (s.queues q).queueId = id →
    (dequeueCalls id s.history ++
      (s.queues q).waitingReceivers.map fun p => (s.pcbs p).call).Pairwise (· < ·)

theorem exactlyOnce_of_inv (h : MqInv s) : ExactlyOnce s where
  fifo q hq id hid := by
    subst hid
    exact (h.kept _).fifo _ (h.queues.chan hq)
  sent n p id buffer size pay hi hr := by
    obtain ⟨m, -, ht, hcall, hsize, hw⟩ := h.sent hi hr
    exact ⟨m, ht, hcall, hsize, hsize ▸ hw.length⟩
  refused n p id buffer size pay r hi hr h0 := by
    obtain ⟨ht, hi'⟩ := h.trails.of_mem hi rfl
    exact ht.send_failed hi' (mem_trail.2 ⟨hr, rfl⟩) h0
  received n p id buffer size pay r hi hr h0 := by
    obtain ⟨ht, hi'⟩ := h.trails.of_mem hi rfl
    obtain ⟨m, hm, hsize, hfit, hw⟩ := ht.received_of hi' (mem_trail.2 ⟨hr, rfl⟩) (by omega)
    exact ⟨m, hm, hsize, hfit, hsize ▸ hw.length⟩
  numbered := h.numbered.order
  served q hq id hid := by
    subst hid
    have := (h.kept (s.queues q).queueId).served
    rw [h.queues.chan hq] at this
    simp only [receiverCalls_some, State.channel, List.map_map] at this
    exact this

/-- A step from `s` to `s'` copies messages in and out as the calls say. -/
def Copied (s s' : State) : Prop :=
  ∃ acts, s'.history = s.history ++ acts ∧ Copies s.calls s'.mem s'.history acts

/-- It leaves the buffers of the blocked senders as they are. -/
def Steady (s s' : State) : Prop :=
  ∀ q ∈ s.live, ∀ p ∈ (s.queues q).waitingSenders,
    memRead s'.mem ((s.pcbs p).syscallArgs 1) ((s.pcbs p).syscallArgs 2).toNat =
      memRead s.mem ((s.pcbs p).syscallArgs 1) ((s.pcbs p).syscallArgs 2).toNat

instance (s s' : State) : Decidable (Steady s s') :=
  inferInstanceAs (Decidable (∀ q ∈ s.live, ∀ p ∈ (s.queues q).waitingSenders, _))

/-- Every message carries the bytes that its sender's buffer held at the call. -/
def PayloadKept (s : State) : Prop := ∀ id m, .enqueue id m ∈ s.history →
  ∃ p buffer size, .issue m.call p (.mqSend id buffer size) m.data ∈ s.history

theorem Steady.channels (hst : Steady s s') (h : Inv s) : s.channels.Steady s'.channels := by
  intro id ch hch r hr
  obtain ⟨q, hq, -, rfl⟩ := (mem_chan h).1 hch
  obtain ⟨p, hp, rfl⟩ := List.mem_map.1 hr
  exact hst q hq p hp

theorem MqInv.copied (h : MqInv s) (he : e.IsMq) (hs : step s e = .ok s') : Copied s s' :=
  (h.preserved he hs).2.copies h.trails

/-- Runs on queues that leave the buffers of blocked senders alone also keep payloads. -/
structure CarriedInv (s : State) : Prop extends MqInv s where
  carried : s.channels.Carried

theorem CarriedInv.preserved (h : CarriedInv s) (he : e.IsMq)
    (hst : Leads step Steady s e) (hs : step s e = .ok s') : CarriedInv s' := by
  obtain ⟨h1, h2⟩ := h.toMqInv.preserved he hs
  exact ⟨h1, h2.carried h.carried ((hst s' hs).channels h.toInv)⟩

/-- **First in, first out, and exactly once**, in every state that a run on queues reaches. The bytes
are those in the sender's buffer when the message is inserted, and those of the call itself if
nobody writes into the buffer while the sender is blocked. -/
theorem exactlyOnce (he : ∀ e ∈ es, e.IsMq) (hr : run step boot es = .ok s) :
    ExactlyOnce s ∧
      Along step (Leads step Copied) boot es ∧
      (Along step (Leads step Steady) boot es → PayloadKept s) := by
  refine ⟨exactlyOnce_of_inv (run_mq he hr), ?_, fun hst => ?_⟩
  · exact along_of_inv (fun s e h he s' hs => MqInv.copied h he hs)
      (fun _ _ _ h he hs => (MqInv.preserved h he hs).1) boot_mqInv he
  · have h := run_inv (I := CarriedInv) (fun _ _ _ h he hst hs => h.preserved he hst hs)
      ⟨boot_mqInv, boot_carried⟩ he hst hr
    exact h.carried.sent

/-- A message is sent, and received. -/
def deliveringRun : List Event :=
  [.syscall (.mqCreate 5 1), .store 100 [7, 8], .syscall (.mqSend 5 100 2),
    .syscall (.mqReceive 5 200 4)]

/-- The second call, which sends, returns 0, and the third returns the size. -/
theorem exactlyOnce_delivered : ∃ s, run step boot deliveringRun = .ok s ∧
    ExactlyOnce s ∧ PayloadKept s ∧ .retval 2 0 ∈ s.history ∧ .retval 3 2 ∈ s.history ∧
    memRead s.mem 200 4 = [7, 8, 0, 0] := by
  have hc : (run step boot deliveringRun).toOption.any (fun s => .retval 2 0 ∈ s.history ∧
      .retval 3 2 ∈ s.history ∧ memRead s.mem 200 4 = [7, 8, 0, 0]) = true := by decide +kernel
  obtain ⟨s, hr, hc⟩ := run_check hc
  obtain ⟨h1, -, h2⟩ := exactlyOnce (by decide) hr
  exact ⟨s, hr, h1, h2 (by decide +kernel), of_decide_eq_true hc⟩

/-! ## Acknowledged messages -/

/-- What has become of a message; `n` is the receive call that has taken it. -/
inductive Fate
  | queued
  | received (n : Nat)
  | dropped (n : Nat)
  | discarded
  deriving DecidableEq

/-- The message `m` of queue `id` has met this fate. -/
def Fate.Met (s : State) (id : Int) (m : Message) : Fate → Prop
  | queued => ∃ q ∈ s.live, (s.queues q).queueId = id ∧ m ∈ (s.queues q).messages
  | received n => ∃ p buffer size pay, m.size ≤ size ∧ trail n s.history =
      [.issue n p (.mqReceive id buffer size) pay, .dequeue id m n, .deliver n buffer m.data,
        .retval n m.size]
  | dropped n => ∃ p buffer size pay, size < m.size ∧ trail n s.history =
      [.issue n p (.mqReceive id buffer size) pay, .dequeue id m n, .retval n dsosEBuffer]
  | discarded => .discard id m ∈ s.history

variable {id : Int} {m : Message} {f f' : Fate}

/-- The messages of a queue are different, wherever they are. -/
theorem MqInv.account (h : MqInv s) (id : Int) :
    (dequeues id s.history ++ discards id s.history ++ contentsOf (s.channels.chan id)).Nodup ∧
      ∀ m, m ∈ enqueues id s.history ↔ m ∈ dequeues id s.history ++ discards id s.history ++
        contentsOf (s.channels.chan id) := by
  have hl := h.kept id
  have hn : (enqueues id s.history).Nodup := (hl.sent.of_append_left).of_map
  exact ⟨hl.account.nodup_iff.2 hn, fun m => hl.account.mem_iff.symm⟩

/-- The messages that are queued, removed and discarded. -/
theorem Fate.Met.mem (hf : f.Met s id m) (h : MqInv s) :
    match f with
    | queued => m ∈ contentsOf (s.channels.chan id)
    | received n | dropped n => .dequeue id m n ∈ s.history
    | discarded => m ∈ discards id s.history := by
  cases f with
  | queued =>
    obtain ⟨q, hq, rfl, hm⟩ := hf
    rw [h.queues.chan hq]
    exact hm
  | received n =>
    obtain ⟨p, buffer, size, pay, -, ht⟩ := hf
    have hm : .dequeue id m n ∈ trail n s.history := by simp [ht]
    exact (mem_trail.1 hm).1
  | dropped n =>
    obtain ⟨p, buffer, size, pay, -, ht⟩ := hf
    have hm : .dequeue id m n ∈ trail n s.history := by simp [ht]
    exact (mem_trail.1 hm).1
  | discarded => exact mem_discards.2 hf

theorem MqInv.fate_exists (h : MqInv s) (hm : m ∈ enqueues id s.history) :
    ∃ f : Fate, f.Met s id m := by
  rcases List.mem_append.1 (((h.account id).2 m).1 hm) with hm | hm
  · rcases List.mem_append.1 hm with hm | hm
    · obtain ⟨n, hd⟩ := mem_dequeues.1 hm
      obtain ⟨ht, hd'⟩ := h.trails.of_mem hd rfl
      obtain ⟨p, buffer, size, pay, ⟨hfit, ht'⟩ | ⟨hfit, ht'⟩⟩ := ht.taken hd'
      · exact ⟨.received n, p, buffer, size, pay, hfit, ht'⟩
      · exact ⟨.dropped n, p, buffer, size, pay, hfit, ht'⟩
    · exact ⟨.discarded, mem_discards.1 hm⟩
  · cases hch : s.channels.chan id with
    | none =>
      rw [hch] at hm
      cases hm
    | some ch =>
      obtain ⟨q, hq, hid, rfl⟩ := (mem_chan h.toInv).1 hch
      rw [hch] at hm
      exact ⟨.queued, q, hq, hid, hm⟩

theorem MqInv.fate_unique (h : MqInv s) (hf : f.Met s id m) (hf' : f'.Met s id m) : f = f' := by
  obtain ⟨hn, -⟩ := h.account id
  rw [List.nodup_append, List.nodup_append] at hn
  obtain ⟨⟨hnd, -, hdx⟩, -, hc⟩ := hn
  have hmem := hf.mem h
  have hmem' := hf'.mem h
  have hdeq : ∀ {n}, .dequeue id m n ∈ s.history → m ∈ dequeues id s.history :=
    fun hd => mem_dequeues.2 ⟨_, hd⟩
  have hcd : m ∈ contentsOf (s.channels.chan id) → m ∉ dequeues id s.history :=
    fun h1 h2 => hc m (List.mem_append_left _ h2) m h1 rfl
  have hcx : m ∈ contentsOf (s.channels.chan id) → m ∉ discards id s.history :=
    fun h1 h2 => hc m (List.mem_append_right _ h2) m h1 rfl
  have hxd : m ∈ discards id s.history → m ∉ dequeues id s.history :=
    fun h1 h2 => hdx m h2 m h1 rfl
  -- the two ways of taking a message leave different trails
  have htaken : ∀ {n}, (Fate.received n).Met s id m → ¬ (Fate.dropped n).Met s id m := by
    rintro n ⟨_, _, _, _, -, h1⟩ ⟨_, _, _, _, -, h2⟩
    rw [h1] at h2
    simp at h2
  cases f with
  | queued =>
    cases f' with
    | queued => rfl
    | discarded => exact absurd hmem' (hcx hmem)
    | _ => exact absurd (hdeq hmem') (hcd hmem)
  | discarded =>
    cases f' with
    | discarded => rfl
    | queued => exact absurd hmem (hcx hmem')
    | _ => exact absurd (hdeq hmem') (hxd hmem)
  | received n =>
    cases f' with
    | queued => exact absurd (hdeq hmem) (hcd hmem')
    | discarded => exact absurd (hdeq hmem) (hxd hmem')
    | received k => exact congrArg _ (dequeue_inj hnd hmem hmem')
    | dropped k => exact absurd (dequeue_inj hnd hmem hmem' ▸ hf') (htaken hf)
  | dropped n =>
    cases f' with
    | queued => exact absurd (hdeq hmem) (hcd hmem')
    | discarded => exact absurd (hdeq hmem) (hxd hmem')
    | received k => exact absurd (dequeue_inj hnd hmem hmem' ▸ hf) (htaken hf')
    | dropped k => exact congrArg _ (dequeue_inj hnd hmem hmem')

/-- What is known of acknowledged messages and of receive calls that fail. -/
structure Acknowledged (s : State) : Prop where
  fate : ∀ n p id buffer size pay, .issue n p (.mqSend id buffer size) pay ∈ s.history →
    .retval n 0 ∈ s.history →
    ∃ m, Sent s id n m ∧ m.data.length = size.toNat ∧ ∃! f : Fate, f.Met s id m
  failed : ∀ n p id buffer size pay r, .issue n p (.mqReceive id buffer size) pay ∈ s.history →
    .retval n r ∈ s.history → r < 0 →
    trail n s.history = [.issue n p (.mqReceive id buffer size) pay, .retval n r] ∨
      r = dsosEBuffer ∧ ∃ m, (Fate.dropped n).Met s id m

/-- **An acknowledged message has exactly one fate**: it is in its queue, has gone whole to one
receiver, has been discarded with the queue, or has been taken by one receiver whose buffer is too
small for it. No other failed receive call removes a message. -/
theorem acknowledged (he : ∀ e ∈ es, e.IsMq) (hr : run step boot es = .ok s) : Acknowledged s := by
  have h := run_mq he hr
  constructor
  · intro n p id buffer size pay hi hr
    obtain ⟨m, hm, -, -, hsize, hw⟩ := h.sent hi hr
    obtain ⟨f, hf⟩ := h.fate_exists hm.mem.1
    exact ⟨m, hm, hsize ▸ hw.length, f, hf, fun f' hf' => h.fate_unique hf' hf⟩
  · intro n p id buffer size pay r hi hr h0
    obtain ⟨ht, hi'⟩ := h.trails.of_mem hi rfl
    rcases ht.receive_failed hi' (mem_trail.2 ⟨hr, rfl⟩) h0 with ht' | ⟨rfl, m, hfit, ht'⟩
    · exact .inl ht'
    · exact .inr ⟨rfl, m, p, buffer, size, pay, hfit, ht'⟩

/-- A message of two bytes is received into a buffer of one. -/
def droppingRun : List Event :=
  [.syscall (.mqCreate 5 1), .syscall (.mqSend 5 100 2), .syscall (.mqReceive 5 200 1)]

theorem droppingRun_loses_message : (∀ e ∈ droppingRun, e.IsMq) ∧
    ∃ s, run step boot droppingRun = .ok s ∧ .retval 2 0 ∈ s.history ∧
      ∃ m, Sent s 5 2 m ∧ ¬ ((Fate.queued).Met s 5 m ∨ (∃ n, (Fate.received n).Met s 5 m) ∨
        (Fate.discarded).Met s 5 m) := by
  refine ⟨by decide, ?_⟩
  have hc : (run step boot droppingRun).toOption.any (fun s => .retval 2 0 ∈ s.history ∧
      (enqueues 5 s.history).filter (·.call = 2) = [⟨0, 2, [0, 0], 0, 2⟩] ∧
      (∀ q ∈ s.live, (s.queues q).messages = []) ∧ dequeueCalls 5 s.history = [3] ∧
      .retval 3 2 ∉ s.history ∧ discards 5 s.history = []) = true := by decide +kernel
  obtain ⟨s, hr, hs⟩ := run_check hc
  obtain ⟨h1, h2, h3, h4, h5, h6⟩ := of_decide_eq_true hs
  refine ⟨s, hr, h1, _, h2, ?_⟩
  rintro (⟨q, hq, -, hm⟩ | ⟨n, p, buffer, size, pay, -, ht⟩ | hm)
  · rw [h3 q hq] at hm
    cases hm
  · have hd : .dequeue 5 ⟨0, 2, [0, 0], 0, 2⟩ n ∈ trail n s.history := by simp [ht]
    have hn : n ∈ dequeueCalls 5 s.history :=
      List.mem_filterMap.2 ⟨_, (mem_trail.1 hd).1, if_pos rfl⟩
    obtain rfl : n = 3 := by simpa [h4] using hn
    have hv : .retval 3 2 ∈ trail 3 s.history := by simp [ht]
    exact h5 (mem_trail.1 hv).1
  · have hd := mem_discards.2 hm
    rw [h6] at hd
    cases hd

theorem acknowledged_droppingRun : ∃ s, run step boot droppingRun = .ok s ∧ Acknowledged s := by
  have hc : (run step boot droppingRun).toOption.any (fun _ => true) = true := by decide +kernel
  obtain ⟨s, hr, -⟩ := run_check hc
  exact ⟨s, hr, acknowledged (by decide) hr⟩

end

end DisastrOS
