import DisastrOS.Proof.Send

/-!
# `mq_receive`

The first message is delivered, and the first blocked sender is let in; or the message is dropped
because the buffer is too small, and no sender is let in; or the caller blocks, or the call fails
and only its return value is set (`mqReceive_spec`).
-/

namespace DisastrOS

open Lib State

section
variable {s s₀ : State} {a : Channels} {q : QueueRef} {id buffer size : Int} {ch : Chan}
  {p caller : PcbRef} {ps : List PcbRef} {m : Message} {ms : List Message}

/-- The completion of the first pending send. -/
theorem completeSend_spec (h : Consistent s [caller] []) (ha : At s₀ s a id q ch)
    (hroom : ch.contents.length < ch.cap) (hs : (s.queues q).waitingSenders = p :: ps) :
    ∃ s' b, completeSend s q = .ok s' ∧ Consistent s' [caller] [] ∧
      At s₀ s' (a.log [.enqueue id ((s₀.request p).message b s₀.running a.mem),
          .retval (s₀.request p).call 0]) id q
        { ch with
          contents := ch.contents ++ [(s₀.request p).message b s₀.running a.mem]
          senders := ps.map s₀.request } ∧
      ∀ i, i ≠ p → (s'.pcbs i).status = (s.pcbs i).status := by
  obtain ⟨h1, h2⟩ := h.detachFirst (L := .senders q) hs (by simp) (by simp)
  have a2 := ha.setSenders h.queues ps
  have hsize := (h.queues.senders q p (by simp [hs])).2.2
  set s₂ := s.setList (.senders q) ps
  have hreq : s₂.request p = s₀.request p := a2.request p
  have hargs : (s₂.pcbs p).syscallArgs 1 = (s₀.request p).buffer ∧
      (s₂.pcbs p).syscallArgs 2 = (s₀.request p).size := by
    rw [← hreq]; exact ⟨rfl, rfl⟩
  have hsize2 : SendSize (s₀.request p).size := by
    rw [← hargs.2]
    simpa [s₂] using hsize
  have hlive := (a2.mem_live h2.queues).1
  have hlt : ((s₂.queues q).messages.length : Int) < (s₂.queues q).maxMessages := by
    have h3 := (h2.queues.ok q hlive).capPos
    have h4 := a2.channel
    rw [← ha.channel] at hroom h4
    have h5 := congrArg (fun c => (c.contents.length, c.cap)) h4
    simp only [State.channel, Prod.mk.injEq] at h5 hroom
    omega
  obtain ⟨b, pool, hg⟩ := h2.queues.get_message hlive hlt
  have h3 := h2.alloc hg
  have a3 := a2.alloc h2.queues pool
  have halloc := messageAlloc_eq hsize2 hg
  set s₃ : State := { s₂ with messagePool := pool } with hs₃
  set m := (s₀.request p).message b s₀.running a.mem with hm
  have hfill : Message.fill ⟨b, (s₀.request p).size, List.replicate (s₀.request p).size.toNat 0,
      s₂.running, 0⟩ s₃ p (s₀.request p).buffer = m := by
    have hrun : s₂.running = s₀.running := a2.running
    have hmem : s₃.mem = a.mem := a3.mem
    have hcall : (s₃.pcbs p).call = (s₀.request p).call := congrArg Request.call (a3.request p)
    simp only [Message.fill, hm, Request.message, hrun, hmem, hcall]
  have h4 := h3.push (m := m) hlive hlt
  have a4 := a3.push h3.queues m
  have h5 := h4.setRetvalue p 0
  have a5 := a4.setRetvalue h4.queues p 0
  have h6 := h5.setStatus (p := p) (by simp) .ready
  have a6 := a5.setStatus h5.queues p .ready
  have hne : p ≠ caller := by
    rintro rfl
    exact h.placed.not_held (L := .senders q) (p := p) (by simp [State.list, hs]) (by simp)
  obtain ⟨h7, h8⟩ := h6.insertReady (by simpa using hne) (by simp)
  have a8 := a6.setReady h6.queues
    ((((pushMessage s₃ q m).setRetvalue p 0).setStatus p .ready).readyList ++ [p])
  refine ⟨_, b, ?_, h8, ?_, ?_⟩
  · unfold completeSend
    rw [h1, ok_bind]
    have hbad : ¬ ((s₀.request p).size ≤ 0 ∨ (s₀.request p).size > messageMaxSize) := by
      have := hsize2.1
      have := hsize2.2
      omega
    simp only [hargs.1, hargs.2, if_neg hbad, halloc, hfill]
    exact h7
  · rw [a4.request, Channels.log_log, List.cons_append, List.nil_append] at a8
    exact a8
  · intro i hi
    simp [pushMessage, hs₃, s₂, hi]

/-- The first message is taken. -/
theorem mqReceiveTake_spec (buffer size : Int) (h : Inv s) (hq : s.queueById id = some q)
    (hsize : 0 < size) (hne : (s.channel q).contents ≠ []) :
    ∃ s' acts o mem, mqReceiveTake s s.running q buffer size = .ok s' ∧ Inv s' ∧
      ChanStep (s.request s.running).call s.running id s.mem (.mqReceive id buffer size)
        (s.channels.chan id) acts o mem ∧
      s'.channels = ((s.channels.log acts).setChan id o).setMem mem := by
  obtain ⟨hlive, hid⟩ := h.queues.queueById_eq_some.1 hq
  have hchan : s.channels.chan id = some (s.channel q) := by
    rw [← hid]; exact h.queues.chan hlive
  have ha := At.start hq
  obtain ⟨m, ms, hm⟩ := List.exists_cons_of_ne_nil hne
  have hrecv : (s.channel q).receivers = [] := by
    by_contra hr
    exact hne ((h.idle q hlive).2 hr)
  have hroom : ms.length < (s.channel q).cap := by
    have h1 := (h.queues.ok q hlive).bound
    have h2 := congrArg List.length hm
    simp only [State.channel, List.length_cons] at h2 ⊢
    omega
  have hsend : (s.queues q).waitingSenders = [] ↔ (s.channel q).senders = [] := by
    simp [State.channel]
  set n := (s.request s.running).call
  set ch := s.channel q with hch
  obtain ⟨s₁, h1, h2, hs₁⟩ := h.pop hlive hm s.running
  have a2 := ha.pop h.queues ms m s.running
  rw [← hs₁] at a2
  have hst2 : (s₁.pcbs s.running).status = .running := by simpa [hs₁] using h.status
  have hcall2 : (s₁.request s.running).call = n := congrArg Request.call (a2.request _)
  unfold mqReceiveTake
  rw [h1, ok_bind]
  simp only
  by_cases hfit : size < m.size
  · -- the buffer is too small
    rw [if_pos hfit]
    have h3 := h2.free
    have a3 := a2.free h2.queues m
    have h4 := h3.setRetvalue s.running dsosEBuffer
    have a4 := a3.setRetvalue h3.queues s.running dsosEBuffer
    have hrun : s₁.running = s.running := a2.running
    refine ⟨_, [.dequeue id m n, .retval n dsosEBuffer], _, s.mem, rfl,
      ⟨by simpa [messageFree, hrun] using h4, ?_, a4.idle h.idle fun hr => absurd hrecv hr⟩,
      by rw [hchan]; exact .drop ch buffer size m ms hsize hm hfit, ?_⟩
    · simpa [messageFree, hrun] using hst2
    · rw [a4.channels, a3.request, Channels.log_log]
      rfl
  rw [if_neg hfit]
  have h3 := h2.deliver s.running buffer m
  have a3 := a2.deliver h2.queues s.running buffer m
  have h4 := h3.free
  have a4 := a3.free h3.queues m
  set s₂ := messageFree (deliver s₁ s.running buffer m) m with hs₂
  have hrun : s₂.running = s.running := a4.running
  have hst4 : (s₂.pcbs s.running).status = .running := by
    simpa [hs₂, messageFree, deliver] using hst2
  have hws : (s₂.queues q).waitingSenders = (s.queues q).waitingSenders := by
    simp [hs₂, messageFree, deliver, hs₁]
  by_cases hs : (s.queues q).waitingSenders = []
  · -- no sender is blocked
    rw [if_neg (by simpa [hws] using hs)]
    have h5 := h4.setRetvalue s.running m.size
    have a5 := a4.setRetvalue h4.queues s.running m.size
    refine ⟨_, [.dequeue id m n, .deliver n buffer m.data, .retval n m.size], _, _, rfl,
      ⟨by simpa [hrun] using h5, by simpa [hrun] using hst4,
        a5.idle h.idle fun hr => absurd hrecv hr⟩,
      by rw [hchan]; exact .receive ch buffer size m ms hsize hm (by omega) (hsend.1 hs), ?_⟩
    rw [a5.channels, a4.request, hcall2, Channels.setMem_log, Channels.log_log, Channels.log_log]
    rfl
  · -- the first blocked sender's message comes in
    rw [if_pos (by simpa [hws] using hs)]
    obtain ⟨p, ps, hs'⟩ := List.exists_cons_of_ne_nil hs
    obtain ⟨s₃, b, h5, h6, a6, hst6⟩ := completeSend_spec h4 a4 hroom (hws.trans hs')
    have h7 := h6.setRetvalue s.running m.size
    have a7 := a6.setRetvalue h6.queues s.running m.size
    have hrun3 : s₃.running = s.running := a6.running
    have hne' : s.running ≠ p := by
      intro e
      exact h.placed.not_held (L := .senders q) (p := p) (by simp [State.list, hs']) (by simp [e])
    refine ⟨s₃.setRetvalue s.running m.size, _, _, _, by rw [h5, ok_bind],
      ⟨by simpa [hrun3] using h7, ?_, a7.idle h.idle fun hr => absurd hrecv hr⟩,
      by
        rw [hchan]
        exact .complete ch buffer size m _ ms b (s.request p) (ps.map s.request) hsize hm (by omega)
          (by simp [hch, State.channel, hs']) rfl, ?_⟩
    · simp only [setRetvalue_running, setRetvalue_pcbs, hrun3, if_true]
      rw [hst6 _ hne']
      exact hst4
    · rw [a7.channels, a6.request, hcall2, Channels.setMem_log, Channels.setMem_log,
        Channels.log_log, Channels.log_log, Channels.log_log]
      rfl

/-- A receive that finds its queue empty can block on it. -/
theorem blockable_receive (hid : (s.pcbs s.running).syscallArgs 0 = (s.queues q).queueId)
    (hn : (s.pcbs s.running).syscallNum = dsosCallMqReceive)
    (hsize : 0 < (s.pcbs s.running).syscallArgs 2) (he : (s.queues q).messages = []) :
    Blockable s q (.receivers q) := ⟨hid, .inl ⟨rfl, hn, hsize, he⟩⟩

/-- The call finds no message: it is refused because nobody else can run, or it blocks. -/
theorem mqReceive_empty (h : Inv s) (buffer : Int) (hid : 0 < id) (hsize : 0 < size)
    (hq : s.queueById id = some q) (he : (s.queues q).messages = []) :
    internalMqReceive (saveCall s (.mqReceive id buffer size)) =
        .ok ((saveCall s (.mqReceive id buffer size)).setRetvalue s.running dsosEMqEmpty) ∨
      ∃ s', internalMqReceive (saveCall s (.mqReceive id buffer size)) = .ok s' ∧
        s'.running ≠ s.running ∧ Inv s' ∧
        s'.channels = (s.channels.issue s.running (.mqReceive id buffer size)).setChan id
          (some { s.channel q with
            receivers := (s.channel q).receivers ++ [⟨s.calls, s.running, buffer, size⟩] }) := by
  have h1 := h.saveCall (.mqReceive id buffer size)
  have hargs := saveCall_args s (.mqReceive id buffer size)
  have hreq := saveCall_request s id buffer size (.mqReceive id buffer size) (.inr rfl)
  have hch := channels_saveCall h.placed (.mqReceive id buffer size)
  have hchan : (saveCall s (.mqReceive id buffer size)).channel q = s.channel q :=
    channel_saveCall h.placed _
  have hrun := saveCall_running s (.mqReceive id buffer size)
  have hq' : (saveCall s (.mqReceive id buffer size)).queueById id = some q := hq
  have he' : ((saveCall s (.mqReceive id buffer size)).queues q).messages = [] := he
  set t := saveCall s (.mqReceive id buffer size) with ht
  have h0 : (t.pcbs s.running).syscallArgs 0 = id := hargs 0
  have ha1 : (t.pcbs s.running).syscallArgs 1 = buffer := hargs 1
  have ha2 : (t.pcbs s.running).syscallArgs 2 = size := hargs 2
  obtain ⟨hlive, hqid⟩ := h1.queues.queueById_eq_some.1 hq'
  have hb : Blockable t q (.receivers q) := blockable_receive (by rw [hrun, h0, hqid])
    (by simp [t, saveCall, Syscall.num]) (by rw [hrun, ha2]; exact hsize) he'
  unfold internalMqReceive
  simp only [hrun, h0, ha1, ha2]
  rw [if_neg (by omega), if_neg (by omega), h1.queues.lookupQueue_eq, hq']
  simp only [ok_bind]
  rw [if_pos he', if_neg (by simp [(h1.idle q hlive).1])]
  obtain ⟨s₁, h2, h3, h4, h5⟩ := block_spec h1 hq' hb
  rw [hrun] at h2 h3 h4 h5
  rw [h2, ok_bind]
  rcases h5 with ⟨h5, s₂, h6, h7⟩ | ⟨s', h5, h6, h7, h8⟩
  · rw [h5, ok_bind, if_pos ⟨h3, h4⟩, h6, ok_bind, h7]
    exact .inl rfl
  · rw [h5, ok_bind, if_neg (fun e => h6 e.1), if_pos h6]
    refine .inr ⟨s', rfl, h6, h7, ?_⟩
    rw [h8, hch, hreq, hchan]
    rfl

/-- The call finds a message. -/
theorem mqReceive_found (h : Inv s) (buffer : Int) (hid : 0 < id) (hsize : 0 < size)
    (hq : s.queueById id = some q) (he : (s.queues q).messages ≠ []) :
    internalMqReceive (saveCall s (.mqReceive id buffer size)) =
      mqReceiveTake (saveCall s (.mqReceive id buffer size)) s.running q buffer size := by
  have h1 := h.saveCall (.mqReceive id buffer size)
  have hargs := saveCall_args s (.mqReceive id buffer size)
  have hrun := saveCall_running s (.mqReceive id buffer size)
  have hq' : (saveCall s (.mqReceive id buffer size)).queueById id = some q := hq
  have he' : ((saveCall s (.mqReceive id buffer size)).queues q).messages ≠ [] := he
  set t := saveCall s (.mqReceive id buffer size)
  have h0 : (t.pcbs s.running).syscallArgs 0 = id := hargs 0
  have ha1 : (t.pcbs s.running).syscallArgs 1 = buffer := hargs 1
  have ha2 : (t.pcbs s.running).syscallArgs 2 = size := hargs 2
  unfold internalMqReceive
  simp only [hrun, h0, ha1, ha2]
  rw [if_neg (by omega), if_neg (by omega), h1.queues.lookupQueue_eq, hq']
  simp only [ok_bind]
  rw [if_neg he']

/-- **`mq_receive`** returns to user code, keeps the invariant, and does to the channels what a
receive call may do. -/
theorem mqReceive_spec (h : Inv s) (id buffer size : Int) :
    ∃ s', internalMqReceive (saveCall s (.mqReceive id buffer size)) = .ok s' ∧ Inv s' ∧
      s.channels.Step (.syscall (.mqReceive id buffer size)) s'.channels := by
  have h1 := h.saveCall (.mqReceive id buffer size)
  have hargs := saveCall_args s (.mqReceive id buffer size)
  have hreq := saveCall_request s id buffer size (.mqReceive id buffer size) (.inr rfl)
  have hch := channels_saveCall h.placed (.mqReceive id buffer size)
  have hrefuse := fun r hr hc => refuse_spec (c := .mqReceive id buffer size) (r := r) h hr hc
  have hrun := saveCall_running s (.mqReceive id buffer size)
  by_cases hempty : 0 < id ∧ 0 < size ∧ ∃ q, s.queueById id = some q ∧ (s.queues q).messages = []
  · -- there is no message
    obtain ⟨hid, hsize, q, hq, he⟩ := hempty
    have hchan : s.channels.chan id = some (s.channel q) := by rw [channels_chan, hq]; rfl
    have hnil : (s.channel q).contents = [] := he
    rcases mqReceive_empty h buffer hid hsize hq he with h2 | ⟨s', h2, -, h3, h4⟩
    · exact ⟨_, h2, hrefuse _ (by decide) (.inr (.inr (by simp [hchan, hnil])))⟩
    · refine ⟨s', h2, h3, ?_⟩
      have hstep : ChanStep s.calls s.running id s.channels.mem (.mqReceive id buffer size)
          (s.channels.chan id) [] (some { s.channel q with
            receivers := (s.channel q).receivers ++ [⟨s.calls, s.running, buffer, size⟩] })
          s.channels.mem := by
        rw [hchan]
        exact .blockReceive _ buffer size hsize hnil
      have hres := Channels.Step.call (a := s.channels) s.running _ id _ _ _ hid hstep
      rw [Channels.log_nil] at hres
      rw [h4]
      exact hres
  by_cases hfound : 0 < id ∧ 0 < size ∧ ∃ q, s.queueById id = some q
  · -- there is one
    obtain ⟨hid, hsize, q, hq⟩ := hfound
    have he : (s.queues q).messages ≠ [] := fun he => hempty ⟨hid, hsize, q, hq, he⟩
    obtain ⟨s', acts, o, mem, h2, h3, h4, h5⟩ := mqReceiveTake_spec buffer size h1 hq hsize he
    rw [hrun] at h2 h4
    rw [hreq, hch] at h4
    refine ⟨s', (mqReceive_found h buffer hid hsize hq he).trans h2, h3, ?_⟩
    rw [h5, hch]
    exact .call s.running _ id acts o mem hid h4
  set t := saveCall s (.mqReceive id buffer size)
  unfold internalMqReceive
  have h0 : (t.pcbs s.running).syscallArgs 0 = id := hargs 0
  have ha1 : (t.pcbs s.running).syscallArgs 1 = buffer := hargs 1
  have ha2 : (t.pcbs s.running).syscallArgs 2 = size := hargs 2
  simp only [hrun, h0, ha1, ha2]
  by_cases hid : id ≤ 0
  · rw [if_pos hid]
    exact ⟨_, rfl, hrefuse _ (by decide) (.inl hid)⟩
  rw [if_neg hid]
  by_cases hsize : size ≤ 0
  · rw [if_pos hsize]
    exact ⟨_, rfl, hrefuse _ (by decide) (.inr (.inl hsize))⟩
  have hq : s.queueById id = none := by
    rw [Option.eq_none_iff_forall_ne_some]
    exact fun q hq => hfound ⟨by omega, by omega, q, hq⟩
  have hq' : t.queueById id = none := hq
  rw [if_neg hsize, h1.queues.lookupQueue_eq, hq']
  exact ⟨_, rfl, hrefuse _ (by decide) (.inr (.inr (by simp [channels_chan, hq])))⟩

end

end DisastrOS
