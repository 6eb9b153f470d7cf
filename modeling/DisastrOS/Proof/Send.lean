import DisastrOS.Proof.Channels

/-!
# `mq_send`

The message goes into the queue, or through it to the first waiting receiver, or the caller blocks,
or the call fails and only its return value is set (`mqSend_spec`).
-/

namespace DisastrOS

open Lib State

section
variable {s s₀ : State} {a : Channels} {q : QueueRef} {id buffer size : Int} {ch : Chan}
  {p caller : PcbRef} {ps : List PcbRef} {m : Message}

theorem messageAlloc_eq {b : Nat} {pool : Pool} (hsize : SendSize size)
    (hg : s.messagePool.get = some (b, pool)) :
    messageAlloc s size =
      some (⟨b, size, List.replicate size.toNat 0, s.running, 0⟩, { s with messagePool := pool }) := by
  unfold messageAlloc
  rw [if_neg (by have := hsize.1; have := hsize.2; omega), hg]

/-- The queue's counter tells whether its channel has room. -/
theorem Queues.full_iff {B : List Nat} (h : Queues s B) (hq : q ∈ s.live) :
    (s.queues q).currentMessages ≥ (s.queues q).maxMessages ↔
      (s.channel q).cap ≤ (s.channel q).contents.length := by
  have h1 := (h.ok q hq).count
  have h2 := (h.ok q hq).capPos
  simp only [State.channel]
  omega

/-- Delivering a message and setting the return value is what the receipt says. -/
theorem receipt_spec (h : Consistent s [p, caller] [m.block]) (ha : At s₀ s a id q ch) :
    let r := s₀.request p
    let s' := if r.size < m.size then s.setRetvalue p dsosEBuffer
      else (deliver s p r.buffer m).setRetvalue p m.size
    Consistent s' [p, caller] [m.block] ∧
      At s₀ s' ((a.log (r.receipt m)).setMem (r.memAfter m a.mem)) id q ch ∧
      (∀ i, (s'.pcbs i).status = (s.pcbs i).status) ∧ s'.readyList = s.readyList := by
  have hr := ha.request p
  intro r s'
  by_cases hfit : r.size < m.size
  · have hs' : s' = s.setRetvalue p dsosEBuffer := if_pos hfit
    have h1 : r.receipt m = [.retval (s.request p).call dsosEBuffer] := by
      rw [hr]; exact if_pos hfit
    have h2 : r.memAfter m a.mem = a.mem := if_pos hfit
    rw [hs', h1, h2]
    exact ⟨h.setRetvalue p _, ha.setRetvalue h.queues p _, by simp, rfl⟩
  · have hs' : s' = (deliver s p r.buffer m).setRetvalue p m.size := if_neg hfit
    have h1 : r.receipt m = [.deliver (s.request p).call r.buffer m.data] ++
        [.retval (s.request p).call m.size] := by
      rw [hr]; exact if_neg hfit
    have h2 : r.memAfter m a.mem = memWrite a.mem r.buffer m.data := if_neg hfit
    have h3 := h.deliver p r.buffer m
    have a3 := ha.deliver h.queues p r.buffer m
    have a4 := a3.setRetvalue h3.queues p m.size
    rw [hs', h1, h2]
    refine ⟨h3.setRetvalue p _, ?_, by simp [deliver], rfl⟩
    have hlog : (a.log ([.deliver (s.request p).call r.buffer m.data] ++
        [.retval (s.request p).call m.size])).setMem (memWrite a.mem r.buffer m.data) =
        ((a.log [.deliver (s.request p).call r.buffer m.data]).setMem
          (memWrite a.mem r.buffer m.data)).log [.retval (s.request p).call m.size] := by
      simp [Channels.log, Channels.setMem]
    rw [hlog]
    exact a4

/-- The hand-off of the queue's only message to its first waiting receiver. -/
theorem handOff_spec (h : Consistent s [caller] []) (ha : At s₀ s a id q ch)
    (hm : ch.contents = [m]) (hr : (s.queues q).waitingReceivers = p :: ps) :
    ∃ s', handOff s q = .ok s' ∧ Consistent s' [caller] [] ∧
      At s₀ s' ((a.log (.dequeue id m (s₀.request p).call :: (s₀.request p).receipt m)).setMem
        ((s₀.request p).memAfter m a.mem)) id q
        { ch with contents := [], receivers := ps.map s₀.request } ∧
      ∀ i, i ≠ p → (s'.pcbs i).status = (s.pcbs i).status := by
  obtain ⟨h1, h2⟩ := h.detachFirst (L := .receivers q) hr (by simp) (by simp)
  have a2 := ha.setReceivers h.queues ps
  set s₂ := s.setList (.receivers q) ps
  have hreq : s₂.request p = s₀.request p := a2.request p
  have hm2 : (s₂.queues q).messages = [m] := (congrArg Channel.contents a2.channel).trans hm
  obtain ⟨s₃, h3, h4, hs₃⟩ := h2.pop (a2.mem_live h2.queues).1 hm2 p
  have a3 := a2.pop h2.queues [] m p
  rw [← hs₃, hreq] at a3
  have hst3 : ∀ i, (s₃.pcbs i).status = (s.pcbs i).status := by simp [hs₃, s₂]
  obtain ⟨h5, a5, hst5, hrdy5⟩ := receipt_spec h4 a3
  set r := s₀.request p
  set s₅ := if r.size < m.size then s₃.setRetvalue p dsosEBuffer
    else (deliver s₃ p r.buffer m).setRetvalue p m.size with hs₅
  have h6 := h5.free
  have a6 := a5.free h5.queues m
  have h7 := h6.setStatus (p := p) (by simp) .ready
  have a7 := a6.setStatus h6.queues p .ready
  have hne : p ≠ caller := by
    rintro rfl
    exact h.placed.not_held (L := .receivers q) (p := p) (by simp [State.list, hr]) (by simp)
  obtain ⟨h8, h9⟩ := h7.insertReady (by simpa using hne) (by simp)
  have a9 := a7.setReady h7.queues (((messageFree s₅ m).setStatus p .ready).readyList ++ [p])
  refine ⟨_, ?_, h9, ?_, ?_⟩
  · unfold handOff
    rw [h1, ok_bind]
    have hargs : (s₂.pcbs p).syscallArgs 1 = r.buffer ∧ (s₂.pcbs p).syscallArgs 2 = r.size := by
      rw [← hreq]; exact ⟨rfl, rfl⟩
    simp only [hargs.1, hargs.2, h3, ok_bind]
    exact h8
  · have hlog : (a.log (.dequeue id m r.call :: r.receipt m)).setMem (r.memAfter m a.mem) =
        ((a.log [.dequeue id m r.call]).log (r.receipt m)).setMem (r.memAfter m a.mem) := by
      simp [Channels.log]
    rw [hlog]
    exact a9
  · intro i hi
    simp [messageFree, hi, hst5, hst3]

/-- The message goes into the queue, or through it to the first waiting receiver. -/
theorem mqSendEnqueue_spec (buffer : Int) (h : Inv s) (hq : s.queueById id = some q)
    (hsize : SendSize size) (hroom : (s.channel q).contents.length < (s.channel q).cap) :
    ∃ s' acts o mem, mqSendEnqueue s s.running q buffer size = .ok s' ∧ Inv s' ∧
      ChanStep (s.request s.running).call s.running id s.mem (.mqSend id buffer size)
        (s.channels.chan id) acts o mem ∧
      s'.channels = ((s.channels.log acts).setChan id o).setMem mem := by
  obtain ⟨hlive, hid⟩ := h.queues.queueById_eq_some.1 hq
  have hlt : ((s.queues q).messages.length : Int) < (s.queues q).maxMessages := by
    have := (h.queues.ok q hlive).capPos
    simp only [State.channel] at hroom
    omega
  obtain ⟨b, pool, hg⟩ := h.queues.get_message hlive hlt
  have hchan : s.channels.chan id = some (s.channel q) := by
    rw [← hid]; exact h.queues.chan hlive
  have ha := At.start hq
  set n := (s.request s.running).call
  set ch := s.channel q with hch
  set m : Message := Request.message ⟨n, s.running, buffer, size⟩ b s.running s.mem with hm
  have h1 := h.alloc hg
  have a1 := ha.alloc h.queues pool
  set s₁ : State := { s with messagePool := pool } with hs₁
  have h2 := h1.push (m := m) hlive hlt
  have a2 := a1.push h1.queues m
  have hfill : Message.fill ⟨b, size, List.replicate size.toNat 0, s.running, 0⟩ s₁ s.running
      buffer = m := rfl
  unfold mqSendEnqueue
  rw [messageAlloc_eq hsize hg]
  simp only [← hs₁, hfill]
  have hrecv : ((pushMessage s₁ q m).queues q).waitingReceivers = (s.queues q).waitingReceivers := by
    simp [pushMessage, hs₁]
  by_cases hr : (s.queues q).waitingReceivers = []
  · -- nobody waits: the message stays
    rw [if_neg (by simpa [hrecv] using hr)]
    have hr' : ch.receivers = [] := by simp [hch, State.channel, hr]
    have h3 := h2.setRetvalue s.running 0
    have a3 := a2.setRetvalue h2.queues s.running 0
    refine ⟨_, [.enqueue id m, .retval n 0], _, s.mem, rfl, ⟨h3, ?_, a3.idle h.idle ?_⟩,
      by rw [hchan]; exact .send ch buffer size b m hsize hroom hr' rfl, ?_⟩
    · have := h.status
      simpa [pushMessage, hs₁] using this
    · exact fun hne => absurd hr' hne
    · rw [a3.channels, a2.request]
      simp only [Channels.log_log, List.cons_append, List.nil_append]
      rfl
  · -- the first waiting receiver gets it
    rw [if_pos (by simpa [hrecv] using hr)]
    obtain ⟨p, ps, hr'⟩ := List.exists_cons_of_ne_nil hr
    have hempty : ch.contents = [] := (h.idle q hlive).2 (by simp [State.channel, hr])
    obtain ⟨s₂, h3, h4, a4, hst⟩ := handOff_spec (m := m) h2 a2 (by simp [hempty]) (hrecv.trans hr')
    have h5 := h4.setRetvalue s.running 0
    have a5 := a4.setRetvalue h4.queues s.running 0
    have hrun : s₂.running = s.running := a4.running
    refine ⟨s₂.setRetvalue s.running 0, _, _, _, ?_, ⟨by simpa [hrun] using h5, ?_, ?_⟩,
      by
        rw [hchan]
        exact .handOff ch buffer size b m (s.request p) (ps.map s.request) hsize (by omega) hempty
          (by simp [hch, State.channel, hr']) rfl, ?_⟩
    · rw [h3, ok_bind]
    · have hne : s.running ≠ p := by
        rintro rfl
        exact h.placed.not_held (L := .receivers q) (p := s.running) (by simp [State.list, hr'])
          (by simp)
      have := h.status
      simp only [setRetvalue_running, setRetvalue_pcbs, hrun, if_true]
      rw [hst _ hne]
      simpa [pushMessage, hs₁] using this
    · exact a5.idle h.idle fun _ => rfl
    · rw [a5.channels, a4.request]
      simp only [Channels.log_log, Channels.setMem_log, Channels.setMem_setChan, Channels.log_mem,
        List.cons_append, List.nil_append, hempty]
      rfl

/-- What the call finds in its PCB when it starts. -/
theorem saveCall_args (s : State) (c : Syscall) (i : Nat) :
    ((saveCall s c).pcbs s.running).syscallArgs i =
      c.args.getD i ((s.pcbs s.running).syscallArgs i) := by
  simp [saveCall]

theorem saveCall_num (s : State) (c : Syscall) :
    ((saveCall s c).pcbs s.running).syscallNum = c.num := by
  simp [saveCall]

theorem saveCall_request (s : State) (id buffer size : Int) (c : Syscall)
    (hc : c = .mqSend id buffer size ∨ c = .mqReceive id buffer size) :
    (saveCall s c).request s.running = ⟨s.calls, s.running, buffer, size⟩ := by
  rcases hc with rfl | rfl <;> simp [State.request, saveCall, Syscall.args]

/-- A call that fails sets its return value only. -/
theorem refuse_spec {c : Syscall} {r : Int} (h : Inv s) (hr : r < 0)
    (hc : s.channels.MayRefuse c) :
    Inv ((saveCall s c).setRetvalue s.running r) ∧
      s.channels.Step (.syscall c) ((saveCall s c).setRetvalue s.running r).channels := by
  refine ⟨(h.saveCall c).setRetvalue _ _, ?_⟩
  have hcall : ((saveCall s c).pcbs s.running).call = s.calls := by simp [saveCall]
  rw [channels_setRetvalue, channels_saveCall h.placed, hcall]
  exact .refuse s.running c r hc hr

/-- A send that finds its queue full can block on it. -/
theorem blockable_send (h : Inv s) (hq : q ∈ s.live)
    (hid : (s.pcbs s.running).syscallArgs 0 = (s.queues q).queueId)
    (hn : (s.pcbs s.running).syscallNum = dsosCallMqSend)
    (hsize : SendSize ((s.pcbs s.running).syscallArgs 2))
    (hf : (s.queues q).currentMessages ≥ (s.queues q).maxMessages) : Blockable s q (.senders q) := by
  refine ⟨hid, .inr ⟨rfl, hn, hsize, ?_⟩⟩
  by_contra hne
  have h1 := (h.idle q hq).2 hne
  have h2 := (h.queues.ok q hq).capPos
  have h3 := (h.queues.full_iff hq).1 hf
  rw [h1] at h3
  simp only [State.channel, List.length_nil] at h3
  omega

/-- **`mq_send`** returns to user code, keeps the invariant, and does to the channels what a send
call may do. -/
theorem mqSend_spec (h : Inv s) (id buffer size : Int) :
    ∃ s', internalMqSend (saveCall s (.mqSend id buffer size)) = .ok s' ∧ Inv s' ∧
      s.channels.Step (.syscall (.mqSend id buffer size)) s'.channels := by
  have h1 := h.saveCall (.mqSend id buffer size)
  have hargs := saveCall_args s (.mqSend id buffer size)
  have hreq := saveCall_request s id buffer size (.mqSend id buffer size) (.inl rfl)
  have hch := channels_saveCall h.placed (.mqSend id buffer size)
  have hrefuse := fun r hr hc => refuse_spec (c := .mqSend id buffer size) (r := r) h hr hc
  have hrun := saveCall_running s (.mqSend id buffer size)
  set t := saveCall s (.mqSend id buffer size)
  unfold internalMqSend
  have h0 : (t.pcbs s.running).syscallArgs 0 = id := hargs 0
  have ha1 : (t.pcbs s.running).syscallArgs 1 = buffer := hargs 1
  have ha2 : (t.pcbs s.running).syscallArgs 2 = size := hargs 2
  simp only [hrun, h0, ha1, ha2]
  by_cases hid : id ≤ 0
  · rw [if_pos hid]
    exact ⟨_, rfl, hrefuse _ (by decide) (.inl hid)⟩
  rw [if_neg hid]
  by_cases hsize : SendSize size
  swap
  · have : size ≤ 0 ∨ size > messageMaxSize := by
      unfold SendSize at hsize
      omega
    rw [if_pos this]
    exact ⟨_, rfl, hrefuse _ (by decide) (.inr (.inl hsize))⟩
  have : ¬ (size ≤ 0 ∨ size > messageMaxSize) := by
    have := hsize.1
    have := hsize.2
    omega
  rw [if_neg this, h1.queues.lookupQueue_eq]
  simp only [ok_bind]
  have hchan : s.channels.chan id = (t.queueById id).map t.channel :=
    (congrArg (fun a => Channels.chan a id) hch).symm
  cases hq : t.queueById id with
  | none =>
    rw [hq] at hchan
    exact ⟨_, rfl, hrefuse _ (by decide) (.inr (.inr (by simp [hchan])))⟩
  | some q =>
    rw [hq, Option.map_some] at hchan
    obtain ⟨hlive, hqid⟩ := h1.queues.queueById_eq_some.1 hq
    have hfull := h1.queues.full_iff hlive
    -- the message can be taken at once
    have henqueue : (t.channel q).contents.length < (t.channel q).cap →
        ∃ s', mqSendEnqueue t s.running q buffer size = .ok s' ∧ Inv s' ∧
          s.channels.Step (.syscall (.mqSend id buffer size)) s'.channels := by
      intro hroom
      obtain ⟨s', acts, o, mem, h2, h3, h4, h5⟩ := mqSendEnqueue_spec buffer h1 hq hsize hroom
      rw [hrun] at h2 h4
      rw [hreq, hch] at h4
      refine ⟨s', h2, h3, ?_⟩
      rw [h5, hch]
      exact .call s.running _ id acts o mem (by omega) h4
    simp only
    by_cases hf : (t.queues q).currentMessages ≥ (t.queues q).maxMessages
    swap
    · rw [if_neg hf]
      exact henqueue (by have := (not_congr hfull).1 hf; omega)
    rw [if_pos hf, if_neg (by simp [(h1.idle q hlive).1])]
    have hcap := hfull.1 hf
    have hb : Blockable t q (.senders q) := blockable_send h1 hlive (by rw [hrun, h0, hqid])
      (by simp [t, saveCall, Syscall.num]) (by rw [hrun, ha2]; exact hsize) hf
    obtain ⟨s₁, h2, h3, h4, h5⟩ := block_spec h1 hq hb
    rw [hrun] at h2 h3 h4 h5
    rw [h2, ok_bind]
    rcases h5 with ⟨h5, s₂, h6, h7⟩ | ⟨s', h5, h6, h7, h8⟩
    · rw [h5, ok_bind, if_pos ⟨h3, h4⟩, h6, ok_bind, h7]
      exact ⟨_, rfl, hrefuse _ (by decide) (.inr (.inr (by simp [hchan, hcap])))⟩
    · rw [h5, ok_bind, if_neg (fun e => h6 e.1), if_pos h6]
      refine ⟨s', rfl, h7, ?_⟩
      have hstep : ChanStep s.calls s.running id s.channels.mem (.mqSend id buffer size)
          (s.channels.chan id) [] (some { t.channel q with
            senders := (t.channel q).senders ++ [⟨s.calls, s.running, buffer, size⟩] })
          s.channels.mem := by
        rw [hchan]
        exact .blockSend _ buffer size hsize hcap
      have hres := Channels.Step.call (a := s.channels) s.running _ id _ _ _ (by omega) hstep
      rw [Channels.log_nil] at hres
      rw [h8, hch, hreq]
      exact hres

end

end DisastrOS
