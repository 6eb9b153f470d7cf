import DisastrOS.Spec.Matching
import DisastrOS.Proof.Delivery

/-!
# Direct hand-off and buffered delivery

A message goes to a receiver that is blocked already (`mq_send` copies it) or to one that comes later
(`mq_receive` does). As long as no send finds the queue full and no receive is refused, the two cannot
be told apart: what every process sees depends on the sequence of sends and the sequence of receives
only, and not on how they are interleaved (`interleavings_agree`).
-/

namespace DisastrOS

open Lib State

/-- What the history of `s'` has that the one of `s` had not. -/
def since (s s' : State) : List Act := s'.history.drop s.history.length

/-- The sends on queue `id` between two states of a run, with their processes and bytes. -/
def sendsOn (id : Int) (s s' : State) : List (PcbRef × List UInt8) :=
  (postings id (since s s')).map fun x => (x.pcb, x.bytes)

/-- The receives on it, with their processes and the sizes of their buffers. -/
def receivesOn (id : Int) (s s' : State) : List (PcbRef × Int) :=
  (requests id (since s s')).map fun r => (r.pcb, r.size)

/-- The caller goes on with `DSOS_EMQEMPTY`. -/
def Refused (s s' : State) : Prop :=
  s'.running = s.running ∧ (s'.pcbs s.running).syscallRetvalue = dsosEMqEmpty

instance (s s' : State) : Decidable (Refused s s') := inferInstanceAs (Decidable (_ ∧ _))

/-- The event is no send that finds queue `id` full, no receive on it that is refused for want of a
message, and not its destruction. -/
def Proceeds (id : Int) (s : State) : Event → Prop
  | .syscall (.mqSend i _ size) => i = id → 0 < size → size ≤ messageMaxSize →
    ∀ q ∈ s.queueById id, (s.queues q).currentMessages < (s.queues q).maxMessages
  | .syscall (.mqReceive i buffer size) => i = id → 0 < size →
    Leads step (fun s s' => ¬ Refused s s') s (.syscall (.mqReceive i buffer size))
  | .syscall (.mqDestroy i) => i ≠ id
  | _ => True

instance (id : Int) (s : State) : DecidablePred (Proceeds id s)
  | .syscall (.mqSend i _ size) => inferInstanceAs (Decidable (i = id → 0 < size →
    size ≤ messageMaxSize →
    ∀ q ∈ s.queueById id, (s.queues q).currentMessages < (s.queues q).maxMessages))
  | .syscall (.mqReceive i buffer size) => inferInstanceAs (Decidable (i = id → 0 < size →
    Leads step (fun s s' => ¬ Refused s s') s (.syscall (.mqReceive i buffer size))))
  | .syscall (.mqDestroy i) => inferInstanceAs (Decidable (i ≠ id))
  | .syscall .preempt | .syscall .fork | .syscall (.wait ..) | .syscall (.spawn ..)
  | .syscall (.exit _) | .syscall (.sleep _) | .syscall (.openResource ..)
  | .syscall (.closeResource _) | .syscall (.destroyResource _) | .syscall (.mqCreate ..)
  | .syscall .shutdown | .tick | .store .. => isTrue trivial

/-- The sends and receives on queue `id` in the run from `s` to `s'` are matched in order: every send
has returned 0, the `i`-th receive has got the `i`-th message, the later receives are blocked, and
the later messages are in the queue. -/
structure MatchedRun (id : Int) (s s' : State) : Prop where
  sent : ∀ x ∈ postings id (since s s'), returned x.call s'.history = [0]
  received : ∀ x ∈ (postings id (since s s')).zip (requests id (since s s')),
    results x.2.call s'.history = outcome x.2.size x.1.bytes
  blocked : ∀ r ∈ (requests id (since s s')).drop (postings id (since s s')).length,
    results r.call s'.history = ([], [])
  queue : ∃ q, s'.queueById id = some q ∧
    (s'.queues q).messages.map Message.body =
      ((postings id (since s s')).drop (requests id (since s s')).length).map Posting.body ∧
    (s'.queues q).waitingReceivers =
      ((requests id (since s s')).drop (postings id (since s s')).length).map Request.pcb ∧
    (s'.queues q).waitingSenders = []

/-- Nobody can tell the runs from `s` to `s₁` and to `s₂` from each other by the queue `id`. -/
structure SameDelivery (id : Int) (s s₁ s₂ : State) : Prop where
  seen : ∀ (i : Nat) (r₁ r₂ : Request), (requests id (since s s₁))[i]? = some r₁ →
    (requests id (since s s₂))[i]? = some r₂ →
    results r₁.call s₁.history = results r₂.call s₂.history
  queue : ∃ q₁ q₂, s₁.queueById id = some q₁ ∧ s₂.queueById id = some q₂ ∧
    (s₁.queues q₁).messages.map Message.body = (s₂.queues q₂).messages.map Message.body ∧
    (s₁.queues q₁).waitingReceivers = (s₂.queues q₂).waitingReceivers ∧
    (s₁.queues q₁).waitingSenders = [] ∧ (s₂.queues q₂).waitingSenders = []

section
variable {s s' s₁ s₂ : State} {e : Event} {es es₀ es₁ es₂ : List Event} {id : Int} {q : QueueRef}

/-! ## One step -/

theorem Proceeds.admits (hp : Proceeds id s e) (h : Inv s) (hq : s.queueById id = some q)
    (hs : step s e = .ok s') : s.channels.Admits id e s'.channels := by
  have hchan : s.channels.chan id = some (s.channel q) := by rw [channels_chan, hq]; rfl
  obtain ⟨hlive, hqid⟩ := h.queues.queueById_eq_some.1 hq
  have hid : 0 < id := hqid ▸ (h.queues.ok q hlive).pos
  constructor
  · rintro buffer size rfl hsize ch hch
    obtain rfl := Option.some.inj (hchan.symm.trans hch)
    have h1 := hp rfl hsize.1 hsize.2 q hq
    have h2 := (not_congr (h.queues.full_iff hlive)).1 (by omega)
    omega
  · intro buffer size hsyscall hsize hnil p r hrefused
    subst hsyscall
    have he : (s.queues q).messages = [] := hnil _ hchan
    have hs' := (step_syscall rfl).symm.trans hs
    rcases mqReceive_empty h buffer hid hsize hq he with h1 | ⟨s₁, h1, -, -, h2⟩
    · obtain rfl := Except.ok.inj (h1.symm.trans hs')
      exact hp rfl hsize _ hs ⟨by simp [saveCall], by simp⟩
    · -- the caller is blocked, which it would not be after a refusal
      obtain rfl := Except.ok.inj (h1.symm.trans hs')
      have h3 := congrArg (fun a => Channels.chan a id) (h2.symm.trans hrefused)
      have h4 : some { s.channel q with
          receivers := (s.channel q).receivers ++ [⟨s.calls, s.running, buffer, size⟩] } =
          some (s.channel q) := by
        rw [← hchan]
        simpa [Channels.setChan, Channels.log, Channels.issue] using h3
      have h5 := congrArg (fun o : Option Chan => o.map fun c => c.receivers.length) h4
      simp at h5
  · rintro rfl
    exact hp rfl

/-- Since the state `s₀`, the sends and receives on queue `id` have been matched. -/
structure Paired (id : Int) (s₀ s : State) : Prop extends MqInv s where
  matched : ∃ acts q, s.history = s₀.history ++ acts ∧ s.queueById id = some q ∧
    Matched id (s.channel q) s.history acts

theorem Paired.preserved {s₀ : State} (h : Paired id s₀ s) (he : e.IsMq) (hp : Proceeds id s e)
    (hs : step s e = .ok s') : Paired id s₀ s' := by
  obtain ⟨acts, q, hh, hq, hm⟩ := h.matched
  have hlive := h.queues.queueById_eq_some.1 hq
  have hid : 0 < id := hlive.2 ▸ (h.queues.ok q hlive.1).pos
  have hchan : s.channels.chan id = some (s.channel q) := by rw [channels_chan, hq]; rfl
  obtain ⟨h1, h2⟩ := h.toMqInv.preserved he hs
  obtain ⟨ch', acts', h3, h4, h5⟩ := h2.matched h.kept h.trails hid hchan hm
    (hp.admits h.toInv hq hs)
  rw [channels_chan, Option.map_eq_some_iff] at h3
  obtain ⟨q', hq', rfl⟩ := h3
  have h4 : s'.history = s.history ++ acts' := h4
  refine ⟨h1, acts ++ acts', q', ?_, hq', h5⟩
  rw [h4, hh, List.append_assoc]

/-! ## Whole runs -/

theorem Paired.matchedRun {s₀ : State} (h : Paired id s₀ s) : MatchedRun id s₀ s := by
  obtain ⟨acts, q, hh, hq, hm⟩ := h.matched
  have hsince : since s₀ s = acts := by
    unfold since
    rw [hh, List.drop_left]
  have hchan : s.channels.chan id = some (s.channel q) := by rw [channels_chan, hq]; rfl
  refine ⟨?_, ?_, ?_, q, hq, ?_, ?_, ?_⟩
  · rw [hsince]
    exact hm.sent
  · rw [hsince]
    exact hm.received
  · rw [hsince, ← hm.receivers]
    intro r hr
    exact (h.trails.receivers id _ hchan r hr).2.results
  · rw [hsince]
    exact hm.contents
  · rw [hsince, ← hm.receivers]
    simp [State.channel, State.request, Function.comp_def]
  · exact List.map_eq_nil_iff.1 hm.senders

/-- A run from a state in which the queue is empty and nobody is blocked on it. -/
theorem run_matched (h : MqInv s) (hq : s.queueById id = some q)
    (hm : (s.queues q).messages = []) (hw : (s.queues q).waitingReceivers = [])
    (hws : (s.queues q).waitingSenders = []) (he : ∀ e ∈ es, e.IsMq)
    (hp : Along step (Proceeds id) s es) (hr : run step s es = .ok s') : MatchedRun id s s' := by
  have h0 : Paired id s s := by
    refine ⟨h, [], q, by simp, hq, .start hm ?_ ?_⟩
    · simp [State.channel, hw]
    · simp [State.channel, hws]
  exact (run_inv (fun _ _ _ h he hp hs => Paired.preserved h he hp hs) h0 he hp hr).matchedRun

/-- What the processes see of matched runs with the same sends and receives is the same. -/
theorem MatchedRun.same (h₁ : MatchedRun id s s₁) (h₂ : MatchedRun id s s₂)
    (hsend : sendsOn id s s₁ = sendsOn id s s₂)
    (hrecv : receivesOn id s s₁ = receivesOn id s s₂) : SameDelivery id s s₁ s₂ := by
  have hposts : (postings id (since s s₁)).length = (postings id (since s s₂)).length := by
    simpa [sendsOn] using congrArg List.length hsend
  have hreqs : (requests id (since s s₁)).length = (requests id (since s s₂)).length := by
    simpa [receivesOn] using congrArg List.length hrecv
  constructor
  · intro i r₁ r₂ hr₁ hr₂
    have hsize : r₁.size = r₂.size := congrArg Prod.snd (key_eq_of_map_eq hrecv hr₁ hr₂)
    by_cases hi : i < (postings id (since s s₁)).length
    · -- both have got the same message
      have hx₁ := List.getElem?_eq_getElem hi
      have hx₂ := List.getElem?_eq_getElem (hposts ▸ hi)
      have hbytes := congrArg Prod.snd (key_eq_of_map_eq hsend hx₁ hx₂)
      have hz₁ := List.mem_of_getElem? (List.getElem?_zip_eq_some (z := (_, _)) |>.2 ⟨hx₁, hr₁⟩)
      have hz₂ := List.mem_of_getElem? (List.getElem?_zip_eq_some (z := (_, _)) |>.2 ⟨hx₂, hr₂⟩)
      rw [h₁.received _ hz₁, h₂.received _ hz₂]
      exact congrArg₂ outcome hsize hbytes
    · -- both are blocked
      have hd₁ : r₁ ∈ (requests id (since s s₁)).drop (postings id (since s s₁)).length := by
        refine List.mem_of_getElem? (i := i - (postings id (since s s₁)).length) ?_
        rw [List.getElem?_drop, Nat.add_sub_cancel' (by omega)]
        exact hr₁
      have hd₂ : r₂ ∈ (requests id (since s s₂)).drop (postings id (since s s₂)).length := by
        refine List.mem_of_getElem? (i := i - (postings id (since s s₂)).length) ?_
        rw [List.getElem?_drop, Nat.add_sub_cancel' (by omega)]
        exact hr₂
      rw [h₁.blocked _ hd₁, h₂.blocked _ hd₂]
  · obtain ⟨q₁, hq₁, hm₁, hw₁, hs₁⟩ := h₁.queue
    obtain ⟨q₂, hq₂, hm₂, hw₂, hs₂⟩ := h₂.queue
    have hbody : (postings id (since s s₁)).map Posting.body =
        (postings id (since s s₂)).map Posting.body := by
      have := congrArg (List.map fun y => (y.1, (y.2.length : Int), y.2)) hsend
      rw [sendsOn, sendsOn, List.map_map, List.map_map] at this
      exact this
    have hpcb : (requests id (since s s₁)).map Request.pcb =
        (requests id (since s s₂)).map Request.pcb := by
      have := congrArg (List.map Prod.fst) hrecv
      simpa [receivesOn, Function.comp_def] using this
    refine ⟨q₁, q₂, hq₁, hq₂, ?_, ?_, hs₁, hs₂⟩
    · rw [hm₁, hm₂, List.map_drop, List.map_drop, hbody, hreqs]
    · rw [hw₁, hw₂, List.map_drop, List.map_drop, hpcb, hposts]

/-- **Two interleavings of the same sends and receives agree.** From a state in which the queue is
empty and nobody is blocked on it, in every two runs in which no send finds it full and no receive is
refused: the sends return 0, the `i`-th receive gets the `i`-th message, whichever comes first, and
what the receives return and get, the messages in the queue and the blocked receivers are the same.
The bytes that a receive gets are in its buffer after the step. -/
theorem interleavings_agree (he₀ : ∀ e ∈ es₀, e.IsMq) (hr₀ : run step boot es₀ = .ok s)
    (hq : s.queueById id = some q) (hm : (s.queues q).messages = [])
    (hw : (s.queues q).waitingReceivers = []) (hws : (s.queues q).waitingSenders = [])
    (he₁ : ∀ e ∈ es₁, e.IsMq) (hp₁ : Along step (Proceeds id) s es₁)
    (hr₁ : run step s es₁ = .ok s₁) (he₂ : ∀ e ∈ es₂, e.IsMq)
    (hp₂ : Along step (Proceeds id) s es₂) (hr₂ : run step s es₂ = .ok s₂)
    (hsend : sendsOn id s s₁ = sendsOn id s s₂)
    (hrecv : receivesOn id s s₁ = receivesOn id s s₂) :
    MatchedRun id s s₁ ∧ MatchedRun id s s₂ ∧ SameDelivery id s s₁ s₂ ∧
      Along step (Leads step Copied) s es₁ ∧ Along step (Leads step Copied) s es₂ := by
  have h := run_mq he₀ hr₀
  have h₁ := run_matched h hq hm hw hws he₁ hp₁ hr₁
  have h₂ := run_matched h hq hm hw hws he₂ hp₂ hr₂
  have hcopied : ∀ {es}, (∀ e ∈ es, e.IsMq) → Along step (Leads step Copied) s es := fun he =>
    along_of_inv (fun s e h he s' hs => MqInv.copied h he hs)
      (fun _ _ _ h he hs => (MqInv.preserved h he hs).1) h he
  exact ⟨h₁, h₂, h₁.same h₂ hsend hrecv, hcopied he₁, hcopied he₂⟩

/-- A queue, two processes and a payload. -/
def meetingPoint : List Event :=
  [.syscall (.mqCreate 5 2), .syscall (.spawn 0 0), .store 100 [7, 8]]

/-- Process 0 blocks, and process 1 sends to it. -/
def receiverFirst : List Event := [.syscall (.mqReceive 5 200 4), .syscall (.mqSend 5 100 2)]

/-- Process 1 sends, and process 0 receives. -/
def senderFirst : List Event :=
  [.syscall .preempt, .syscall (.mqSend 5 100 2), .syscall .preempt,
    .syscall (.mqReceive 5 200 4)]

theorem interleavings_agree_meeting : ∃ s s₁ s₂, run step boot meetingPoint = .ok s ∧
    run step s receiverFirst = .ok s₁ ∧ run step s senderFirst = .ok s₂ ∧
    receivesOn 5 s s₁ = [(0, 4)] ∧ sendsOn 5 s s₁ = [(1, [7, 8])] ∧ SameDelivery 5 s s₁ s₂ := by
  have hc : (run step boot meetingPoint).toOption.any (fun s =>
      (s.queueById 5 = some 0 ∧ (s.queues 0).messages = [] ∧ (s.queues 0).waitingReceivers = [] ∧
        (s.queues 0).waitingSenders = [] ∧ Along step (Proceeds 5) s receiverFirst ∧
        Along step (Proceeds 5) s senderFirst) ∧
      (run step s receiverFirst).toOption.any (fun s₁ =>
        (run step s senderFirst).toOption.any (fun s₂ =>
          sendsOn 5 s s₁ = [(1, [7, 8])] ∧ sendsOn 5 s s₁ = sendsOn 5 s s₂ ∧
            receivesOn 5 s s₁ = [(0, 4)] ∧ receivesOn 5 s s₁ = receivesOn 5 s s₂))) = true := by
    decide +kernel
  obtain ⟨s, hr, hc⟩ := run_check hc
  obtain ⟨⟨hq, hm, hw, hws, hp₁, hp₂⟩, hc⟩ := of_decide_eq_true hc
  obtain ⟨s₁, hr₁, hc⟩ := run_check hc
  obtain ⟨s₂, hr₂, hc⟩ := run_check hc
  obtain ⟨h1, h2, h3, h4⟩ := of_decide_eq_true hc
  exact ⟨s, s₁, s₂, hr, hr₁, hr₂, h3, h1, (interleavings_agree (by decide) hr hq hm hw hws
    (by decide) hp₁ hr₁ (by decide) hp₂ hr₂ h2 h4).2.2.1⟩

/-- A send of 257 bytes does not return 0, and a receive into a buffer of no bytes leaves the message
that is there. -/
theorem refusedCalls_take_no_part : ∃ s, run step boot meetingPoint = .ok s ∧
    s.queueById 5 = some 0 ∧ (s.queues 0).messages = [] ∧ (s.queues 0).waitingReceivers = [] ∧
    (s.queues 0).waitingSenders = [] ∧
    (∃ s₁, run step s [.syscall (.mqSend 5 100 257)] = .ok s₁ ∧
      (s₁.pcbs s.running).syscallRetvalue = dsosEBuffer ∧ dsosEBuffer ≠ 0) ∧
    ∃ s₂, run step s [.syscall (.mqSend 5 100 2), .syscall .preempt,
        .syscall (.mqReceive 5 200 0)] = .ok s₂ ∧
      (s₂.pcbs s₂.running).syscallRetvalue = dsosEBuffer ∧
      (s₂.queues 0).messages.map Message.body = [(0, 2, [7, 8])] := by
  have hc : (run step boot meetingPoint).toOption.any (fun s =>
      (s.queueById 5 = some 0 ∧ (s.queues 0).messages = [] ∧ (s.queues 0).waitingReceivers = [] ∧
        (s.queues 0).waitingSenders = []) ∧
      (run step s [.syscall (.mqSend 5 100 257)]).toOption.any (fun s₁ =>
        (s₁.pcbs s.running).syscallRetvalue = dsosEBuffer ∧ dsosEBuffer ≠ 0) ∧
      (run step s [.syscall (.mqSend 5 100 2), .syscall .preempt,
        .syscall (.mqReceive 5 200 0)]).toOption.any (fun s₂ =>
          (s₂.pcbs s₂.running).syscallRetvalue = dsosEBuffer ∧
          (s₂.queues 0).messages.map Message.body = [(0, 2, [7, 8])])) = true := by
    decide +kernel
  obtain ⟨s, hr, hc⟩ := run_check hc
  obtain ⟨⟨hq, hm, hw, hws⟩, hc₁, hc₂⟩ := of_decide_eq_true hc
  obtain ⟨s₁, hr₁, hc₁⟩ := run_check hc₁
  obtain ⟨s₂, hr₂, hc₂⟩ := run_check hc₂
  exact ⟨s, hr, hq, hm, hw, hws, ⟨s₁, hr₁, of_decide_eq_true hc₁⟩, s₂, hr₂, of_decide_eq_true hc₂⟩

end

end DisastrOS
