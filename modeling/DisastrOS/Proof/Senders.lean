import DisastrOS.Proof.Wakeup

/-!
# The senders of messages

`Message_alloc` takes the running process for the sender. A message that `mq_receive` allocates to
complete a blocked send is therefore signed by the receiver. These are the only messages with a wrong
sender (`trueSenders_iff`).
-/

namespace DisastrOS

open Lib State Channel

/-- The entry for send call `n`, made by process `p`. -/
def Act.PostedBy (n : Nat) (p : PcbRef) : Act → Prop
  | .issue n' p' (.mqSend ..) _ => n' = n ∧ p' = p
  | _ => False

instance (n : Nat) (p : PcbRef) : DecidablePred (Act.PostedBy n p)
  | .issue n' p' (.mqSend ..) _ => inferInstanceAs (Decidable (n' = n ∧ p' = p))
  | .issue _ _ .preempt _ | .issue _ _ .fork _ | .issue _ _ (.wait ..) _ | .issue _ _ (.exit _) _
  | .issue _ _ (.spawn ..) _ | .issue _ _ (.sleep _) _ | .issue _ _ (.openResource ..) _
  | .issue _ _ (.closeResource _) _ | .issue _ _ (.destroyResource _) _
  | .issue _ _ (.mqCreate ..) _ | .issue _ _ (.mqReceive ..) _ | .issue _ _ (.mqDestroy _) _
  | .issue _ _ .shutdown _ | .retval .. | .enqueue .. | .dequeue .. | .deliver .. | .discard ..
  | .create _ | .destroy _ | .noMessage _ | .badSize _ => isFalse id

/-- The `mq_send` call that supplied the payload of a message was made by its sender. -/
def Message.Signed (h : List Act) (m : Message) : Prop := ∃ a ∈ h, a.PostedBy m.call m.sender

/-- Every message carries its true sender. -/
def TrueSenders (s : State) : Prop :=
  ∀ q ∈ s.live, ∀ m ∈ (s.queues q).messages, m.Signed s.history

instance (s : State) : Decidable (TrueSenders s) :=
  inferInstanceAs (Decidable (∀ q ∈ s.live, ∀ m ∈ (s.queues q).messages,
    ∃ a ∈ s.history, a.PostedBy m.call m.sender))

/-- The event is a receive call that completes a blocked send. -/
def Completes (s : State) : Event → Prop
  | .syscall (.mqReceive id _ size) => 0 < size ∧
    ∃ q ∈ s.live, (s.queues q).queueId = id ∧ (s.queues q).waitingSenders ≠ [] ∧
      ∃ m ∈ (s.queues q).messages.head?, m.size ≤ size
  | _ => False

instance (s : State) : DecidablePred (Completes s)
  | .syscall (.mqReceive id _ size) =>
    inferInstanceAs (Decidable (0 < size ∧
      ∃ q ∈ s.live, (s.queues q).queueId = id ∧ (s.queues q).waitingSenders ≠ [] ∧
        ∃ m ∈ (s.queues q).messages.head?, m.size ≤ size))
  | .syscall .preempt | .syscall .fork | .syscall (.wait ..) | .syscall (.exit _)
  | .syscall (.spawn ..) | .syscall (.sleep _) | .syscall (.openResource ..)
  | .syscall (.closeResource _) | .syscall (.destroyResource _) | .syscall (.mqSend ..)
  | .syscall (.mqCreate ..) | .syscall (.mqDestroy _) | .syscall .shutdown | .tick | .store .. =>
    isFalse id

/-- A receive call with a buffer of this size completes a blocked send. -/
def Chan.CompletedBy (ch : Chan) (size : Int) : Prop :=
  ch.senders ≠ [] ∧ ∃ m ∈ ch.contents.head?, m.size ≤ size

section
variable {s s' : State} {e : Event} {es : List Event} {n : Nat} {p : PcbRef} {id : Int}
  {mem mem' : Int → UInt8} {c : Syscall} {o o' : Option Chan} {acts h h' : List Act} {m : Message}
  {a a' : Channels}

theorem Message.Signed.mono (hm : m.Signed h) (hh : ∀ a ∈ h, a ∈ h') : m.Signed h' := by
  obtain ⟨a, ha, hp⟩ := hm
  exact ⟨a, hh a ha, hp⟩

/-- What is in a channel after a call was there before, or the call has sent it, or it has come from
a blocked sender. -/
theorem ChanStep.contents_cases (hs : ChanStep n p id mem c o acts o' mem') {ch' : Chan}
    (hch : ch' ∈ o') (hm : m ∈ ch'.contents) :
    (∃ ch ∈ o, m ∈ ch.contents) ∨
      (∃ buffer size, c = .mqSend id buffer size ∧ m.call = n ∧ m.sender = p) ∨
      ∃ buffer size, c = .mqReceive id buffer size ∧ 0 < size ∧ ∃ ch ∈ o, ch.CompletedBy size := by
  cases hs with
  | create => cases hch; cases hm
  | destroy => cases hch
  | blockSend => cases hch; exact .inl ⟨_, rfl, hm⟩
  | blockReceive => cases hch; exact .inl ⟨_, rfl, hm⟩
  | send ch buffer size b m' _ _ _ hm' =>
    cases hch
    rcases List.mem_append.1 hm with hm | hm
    · exact .inl ⟨_, rfl, hm⟩
    · obtain rfl := List.mem_singleton.1 hm
      subst hm'
      exact .inr (.inl ⟨buffer, size, rfl, rfl, rfl⟩)
  | handOff => cases hch; exact .inl ⟨_, rfl, hm⟩
  | receive ch buffer size m' ms _ hms =>
    cases hch
    exact .inl ⟨_, rfl, hms ▸ List.mem_cons_of_mem _ hm⟩
  | complete ch buffer size m₀ m' ms b r rs hsize hms hfit hsend =>
    refine .inr (.inr ⟨buffer, size, rfl, hsize, ch, rfl, ?_, m₀, ?_, hfit⟩)
    · rw [hsend]
      exact List.cons_ne_nil _ _
    · rw [hms]
      rfl
  | drop ch buffer size m' ms _ hms =>
    cases hch
    exact .inl ⟨_, rfl, hms ▸ List.mem_cons_of_mem _ hm⟩

/-- The messages of all channels are signed by their senders. -/
def Channels.Signed (a : Channels) : Prop :=
  ∀ id, ∀ ch ∈ a.chan id, ∀ m ∈ ch.contents, m.Signed a.history

theorem Channels.Step.signed (h : a.Step e a') (hs : a.Signed)
    (hn : ∀ id buffer size, e = .syscall (.mqReceive id buffer size) → 0 < size →
      ∀ ch ∈ a.chan id, ¬ ch.CompletedBy size) : a'.Signed := by
  -- a step that leaves the channels as they are
  have simple : a'.chan = a.chan → (∃ acts, a'.history = a.history ++ acts) → a'.Signed := by
    rintro hch ⟨acts, hh⟩ id ch hm m hmem
    rw [hch] at hm
    exact (hs id ch hm m hmem).mono fun x hx => hh ▸ List.mem_append_left _ hx
  cases h with
  | tick => exact hs
  | store => exact hs
  | pass p c acts => exact simple rfl ⟨_, List.append_assoc _ _ _⟩
  | refuse p c r => exact simple rfl ⟨_, List.append_assoc _ _ _⟩
  | call p c i acts o mem hpos hst =>
    intro j ch hm m hmem
    have hold : ∀ x ∈ a.history, x ∈ a.history ++ [.issue a.calls p c (c.payload a.mem)] ++ acts :=
      fun x hx => List.mem_append_left _ (List.mem_append_left _ hx)
    show m.Signed (a.history ++ [.issue a.calls p c (c.payload a.mem)] ++ acts)
    by_cases hj : j = i
    · subst hj
      have hm : ch ∈ o := by simpa [Channels.setMem, Channels.setChan] using hm
      rcases hst.contents_cases hm hmem with ⟨ch', hch', hmem⟩ | ⟨buffer, size, rfl, h1, h2⟩ |
        ⟨buffer, size, rfl, hsize, ch', hch', hcomp⟩
      · exact (hs j ch' hch' m hmem).mono hold
      · exact ⟨.issue a.calls p (.mqSend j buffer size)
          ((Syscall.mqSend j buffer size).payload a.mem), by simp, h1.symm, h2.symm⟩
      · exact absurd hcomp (hn j buffer size rfl hsize ch' hch')
    · have hm : ch ∈ a.chan j := by
        simpa [Channels.setMem, Channels.setChan, Channels.issue, Channels.log, hj] using hm
      exact (hs j ch hm m hmem).mono hold

theorem trueSenders_iff_signed (h : Inv s) : TrueSenders s ↔ s.channels.Signed := by
  constructor
  · intro ht id ch hch m hm
    obtain ⟨q, hq, -, rfl⟩ := (mem_chan h).1 hch
    exact ht q hq m hm
  · intro hs q hq m hm
    exact hs _ _ ((mem_chan h).2 ⟨q, hq, rfl, rfl⟩) m hm

theorem completedBy_iff {q : QueueRef} {size : Int} : (s.channel q).CompletedBy size ↔
    (s.queues q).waitingSenders ≠ [] ∧ ∃ m ∈ (s.queues q).messages.head?, m.size ≤ size :=
  and_congr (by simp [State.channel]) .rfl

/-- A receive call that completes a blocked send signs the new message with its caller. -/
theorem ChanStep.completes {ch : Chan} {buffer size : Int}
    (hs : ChanStep n p id mem (.mqReceive id buffer size) (some ch) acts o' mem')
    (hc : ch.CompletedBy size) :
    ∃ ch' ∈ o', ∃ m ∈ ch'.contents, m.sender = p ∧ ∃ r ∈ ch.senders, m.call = r.call := by
  obtain ⟨hne, m₀, hm₀, hfit⟩ := hc
  cases hs with
  | blockReceive _ _ _ _ hempty =>
    rw [hempty] at hm₀
    cases hm₀
  | receive _ _ _ _ _ _ _ _ hsend => exact absurd hsend hne
  | complete _ _ _ _ m' ms b r rs _ _ _ hsend hm' =>
    refine ⟨_, rfl, m', by simp, by rw [hm']; rfl, r, ?_, by rw [hm']; rfl⟩
    rw [hsend]
    exact List.mem_cons_self
  | drop _ _ _ m ms _ hms hlt =>
    rw [hms, List.head?_cons, Option.mem_some_iff] at hm₀
    subst hm₀
    omega

theorem Completes.receive (hc : Completes s e) : ∃ id buffer size,
    e = .syscall (.mqReceive id buffer size) ∧ 0 < size ∧
      ∃ q ∈ s.live, (s.queues q).queueId = id ∧ (s.queues q).waitingSenders ≠ [] ∧
        ∃ m ∈ (s.queues q).messages.head?, m.size ≤ size := by
  cases e with
  | syscall c =>
    cases c with
    | mqReceive id buffer size => exact ⟨id, buffer, size, rfl, hc⟩
    | _ => exact hc.elim
  | _ => exact hc.elim

/-- Such a message is not from its sender: the caller is not the one that is blocked. -/
theorem Completes.not_trueSenders (hc : Completes s e) (h : MqInv s) (he : e.IsMq)
    (hs : step s e = .ok s') : ¬ TrueSenders s' := by
  obtain ⟨h', -⟩ := h.preserved he hs
  obtain ⟨id, buffer, size, rfl, hsize, q, hq, hid, hcomp⟩ := hc.receive
  have hq' : s.queueById id = some q := h.queues.queueById_eq_some.2 ⟨hq, hid⟩
  have hpos : 0 < id := hid ▸ (h.queues.ok q hq).pos
  have hne : (s.queues q).messages ≠ [] := by
    obtain ⟨-, m, hm, -⟩ := hcomp
    intro hnil
    rw [hnil] at hm
    cases hm
  have h1 := h.saveCall (.mqReceive id buffer size)
  have hch := channels_saveCall h.placed (.mqReceive id buffer size)
  rw [step_syscall rfl, mqReceive_found h.toInv buffer hpos hsize hq' hne] at hs
  obtain ⟨s₁, acts, o, mem, h2, -, h4, h5⟩ := mqReceiveTake_spec buffer size h1 hq' hsize hne
  obtain rfl : s₁ = s' := Except.ok.inj (h2.symm.trans hs)
  have hchan : s.channels.chan id = some (s.channel q) := by
    rw [channels_chan, hq']
    rfl
  rw [hch] at h4 h5
  rw [show (s.channels.issue s.running (.mqReceive id buffer size)).chan id =
    some (s.channel q) from hchan] at h4
  obtain ⟨ch', hch', m, hm, hsender, r, hr, hcall⟩ := h4.completes (completedBy_iff.2 hcomp)
  -- the call that the message belongs to was made by the blocked process
  obtain ⟨p, hp, rfl⟩ := List.mem_map.1 hr
  obtain ⟨-, pay, hpend⟩ := h.trails.senders id _ hchan _ hr
  have hissue := (mem_trail.1 (hpend ▸ List.mem_singleton_self _)).1
  have hrun : p ≠ s.running := by
    rintro rfl
    exact h.placed.not_held (L := .senders q) hp (by simp)
  intro ht
  have hmem : ch' ∈ s₁.channels.chan id := by
    rw [h5]
    simpa [Channels.setMem, Channels.setChan] using hch'
  obtain ⟨x, hx, hpost⟩ := (trueSenders_iff_signed h'.toInv).1 ht id ch' hmem m hm
  have hold : .issue (s.request p).call p (.mqSend id (s.request p).buffer (s.request p).size)
      pay ∈ s₁.channels.history := by
    rw [h5]
    simp only [Channels.setMem, Channels.setChan, Channels.log, Channels.issue]
    exact List.mem_append_left _ (List.mem_append_left _ hissue)
  cases x with
  | issue k p' c' pay' =>
    cases c' with
    | mqSend i' buffer' size' =>
      obtain ⟨rfl, rfl⟩ := hpost
      rw [hcall] at hx
      have heq := filterMap_inj (h'.numbered.order.imp Nat.ne_of_lt) hx hold rfl rfl
      exact hrun ((Act.issue.inj heq).2.1.symm.trans hsender)
    | _ => exact hpost
  | _ => exact hpost

structure SignedInv (s : State) : Prop extends MqInv s where
  signed : s.channels.Signed

theorem SignedInv.preserved (h : SignedInv s) (he : e.IsMq) (hn : ¬ Completes s e)
    (hs : step s e = .ok s') : SignedInv s' := by
  obtain ⟨h1, h2⟩ := h.toMqInv.preserved he hs
  refine ⟨h1, h2.signed h.signed ?_⟩
  rintro id buffer size rfl hsize ch hch hcomp
  obtain ⟨q, hq, hid, rfl⟩ := (mem_chan h.toInv).1 hch
  exact hn ⟨hsize, q, hq, hid, completedBy_iff.1 hcomp⟩

theorem boot_signedInv : SignedInv boot := by
  refine ⟨boot_mqInv, fun id ch hch => ?_⟩
  rw [boot_channels] at hch
  cases hch

/-- **Every message carries its true sender** throughout a run on queues exactly if no receive call
of the run completes a blocked send. -/
theorem trueSenders_iff (he : ∀ e ∈ es, e.IsMq) (hr : run step boot es = .ok s) :
    Always step TrueSenders boot es ↔ Along step (fun s e => ¬ Completes s e) boot es :=
  always_iff_along (I := SignedInv) (fun _ h => (trueSenders_iff_signed h.toInv).2 h.signed)
    (fun _ _ _ h he hn hs => h.preserved he hn hs)
    (fun _ _ _ h he hc hs => (not_not.1 hc).not_trueSenders h.toMqInv he hs)
    boot_signedInv he hr

/-- Process 1 receives, and the second message of process 0, which is blocked, comes in as one of
process 1. -/
theorem admittingRun_not_trueSenders : (∀ e ∈ admittingRun, e.IsMq) ∧
    ∃ s, run step boot admittingRun = .ok s ∧ ¬ TrueSenders s := by
  refine ⟨by decide, ?_⟩
  have hc : (run step boot admittingRun).toOption.any (fun s => ¬ TrueSenders s) = true := by
    decide +kernel
  obtain ⟨s, hr, hs⟩ := run_check hc
  exact ⟨s, hr, of_decide_eq_true hs⟩

/-- Two processes send to a queue with room for both messages. -/
def postingRun : List Event :=
  [.syscall (.mqCreate 5 2), .syscall (.spawn 0 0), .syscall (.mqSend 5 100 2), .syscall .preempt,
    .syscall (.mqSend 5 100 2)]

theorem trueSenders_postingRun : Always step TrueSenders boot postingRun := by
  have hc : (run step boot postingRun).toOption.any (fun _ => true) = true := by decide +kernel
  obtain ⟨s, hr, -⟩ := run_check hc
  exact (trueSenders_iff (by decide) hr).2 (by decide +kernel)

end

end DisastrOS
