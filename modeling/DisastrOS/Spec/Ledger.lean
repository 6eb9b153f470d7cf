import DisastrOS.Spec.Channels

/-!
# The ledger of a queue

`Ledger` ties the channel of one queue id to the history: what was removed and what is there is what
was inserted, in that order (`fifo`, `account`), and receive calls are served in the order in which
they were made (`served`). Every step keeps it (`Channels.Step.kept`). The order of send calls
(`Channels.Ordered`) is kept by the steps that do not strand a sender.
-/

namespace DisastrOS

open Lib Channel

/-- The part of a channel, of which there may be none. -/
def contentsOf (o : Option Chan) : List Message := o.elim [] (·.contents)
def receiverCalls (o : Option Chan) : List Nat := o.elim [] (·.receivers.map (·.call))
def senderCalls (o : Option Chan) : List Nat := o.elim [] (·.senders.map (·.call))

section
variable {ch : Chan}

@[simp] theorem contentsOf_none : contentsOf none = [] := rfl
@[simp] theorem contentsOf_some : contentsOf (some ch) = ch.contents := rfl
@[simp] theorem receiverCalls_none : receiverCalls none = [] := rfl
@[simp] theorem receiverCalls_some : receiverCalls (some ch) = ch.receivers.map (·.call) := rfl
@[simp] theorem senderCalls_none : senderCalls none = [] := rfl
@[simp] theorem senderCalls_some : senderCalls (some ch) = ch.senders.map (·.call) := rfl

end

/-- The calls whose messages entered queue `id`. -/
def enqueueCalls (id : Int) (h : List Act) : List Nat := (enqueues id h).map (·.call)

@[simp] theorem enqueueCalls_append {id : Int} {h h' : List Act} :
    enqueueCalls id (h ++ h') = enqueueCalls id h ++ enqueueCalls id h' := by
  simp [enqueueCalls]

/-- The books of queue `id` after the history `h`, of `n` calls. -/
structure Ledger (n : Nat) (h : List Act) (id : Int) (o : Option Chan) : Prop where
  sound : ∀ ch ∈ o, ch.Sound
  fifo : ∀ ch ∈ o, dequeues id (lifetime id h) ++ ch.contents = enqueues id (lifetime id h)
  account : (dequeues id h ++ discards id h ++ contentsOf o).Perm (enqueues id h)
  served : (dequeueCalls id h ++ receiverCalls o).Pairwise (· < ·)
  served_lt : ∀ k ∈ dequeueCalls id h ++ receiverCalls o, k < n
  sent : (enqueueCalls id h ++ senderCalls o).Nodup
  sent_lt : ∀ k ∈ enqueueCalls id h ++ senderCalls o, k < n

/-! ## One call on one queue -/

section
variable {n n' : Nat} {p : PcbRef} {id i : Int} {mem mem' : Int → UInt8} {c : Syscall}
  {o o' : Option Chan} {acts h : List Act} {ch ch' : Chan}

theorem Request.receipt_queue {r : Request} {m : Message} :
    ∀ a ∈ r.receipt m, a.queue = none := by
  intro a ha
  unfold Request.receipt at ha
  split at ha <;> simp only [List.mem_cons, List.not_mem_nil, or_false] at ha
  · subst ha; rfl
  · rcases ha with rfl | rfl <;> rfl

/-- A call leaves entries about its own queue only. -/
theorem ChanStep.queue_eq (hs : ChanStep n p id mem c o acts o' mem') :
    ∀ a ∈ acts, a.queue = none ∨ a.queue = some id := by
  intro a ha
  cases hs with
  | destroy ch =>
    simp only [List.mem_append, List.mem_map, List.mem_cons, List.not_mem_nil, or_false] at ha
    rcases ha with ⟨r, -, rfl⟩ | ⟨m, -, rfl⟩ | rfl | rfl <;> simp [Act.queue]
  | handOff ch buffer size b m r rs =>
    simp only [List.mem_cons, List.mem_append, List.not_mem_nil, or_false] at ha
    rcases ha with rfl | rfl | ha | rfl
    · exact .inr rfl
    · exact .inr rfl
    · exact .inl (Request.receipt_queue a ha)
    · exact .inl rfl
  | blockSend => cases ha
  | blockReceive => cases ha
  | _ =>
    simp only [List.mem_cons, List.not_mem_nil, or_false] at ha
    grind [Act.queue]

/-- A receive call is about the queue it names, and its buffer has a size. -/
theorem ChanStep.receive_pos {buffer size : Int}
    (hs : ChanStep n p id mem (.mqReceive i buffer size) o acts o' mem') : i = id ∧ 0 < size := by
  cases hs <;> exact ⟨rfl, ‹_›⟩

/-- A receive call with a buffer of this size drops the first message while a sender is blocked. -/
def Chan.StrandedBy (ch : Chan) (size : Int) : Prop :=
  ch.senders ≠ [] ∧ ∃ m ms, ch.contents = m :: ms ∧ size < m.size

/-- A call that does not create or destroy its queue is a move on the channel. -/
theorem ChanStep.move (hs : ChanStep n p id mem c (some ch) acts (some ch') mem') :
    ∃ side r ops, ch.Move side r ops ch' ∧ r.call = n ∧
      enqueues id acts = (puts ops).map (·.2) ∧
      enqueueCalls id acts = (puts ops).map (·.1.call) ∧
      dequeues id acts = (takes ops).map (·.2) ∧
      dequeueCalls id acts = (takes ops).map (·.1.call) ∧
      discards id acts = [] ∧ .create id ∉ acts ∧
      (ch.Stranding ops ↔ ∃ buffer size, c = .mqReceive id buffer size ∧ ch.StrandedBy size) := by
  cases hs with
  | blockSend ch buffer size hsize hfull =>
    exact ⟨_, _, _, .blockSender _ hfull, rfl, rfl, rfl, rfl, rfl, rfl, by simp,
      by simp [Stranding]⟩
  | blockReceive ch buffer size hsize hempty =>
    exact ⟨_, _, _, .blockReceiver _ hempty, rfl, rfl, rfl, rfl, rfl, rfl, by simp,
      by simp [Stranding, Chan.StrandedBy, hempty]⟩
  | send ch buffer size b m hsize hroom hr hm =>
    refine ⟨_, _, _, .send ⟨n, p, buffer, size⟩ m hroom hr, rfl, ?_, ?_, rfl, rfl, rfl, by simp,
      by simp [Stranding]⟩
    · simp [enqueues]
    · simp [enqueueCalls, enqueues, hm, Request.message]
  | handOff ch buffer size b m r rs hsize hroom hempty hr hm =>
    have hq : ∀ a ∈ r.receipt m ++ [.retval n 0], a.queue ≠ some id := by
      intro a ha
      rcases List.mem_append.1 ha with ha | ha
      · rw [Request.receipt_queue a ha]; simp
      · rw [List.mem_singleton.1 ha]; simp [Act.queue]
    have hacts : Act.enqueue id m :: .dequeue id m r.call :: (r.receipt m ++ [.retval n 0]) =
        [.enqueue id m, .dequeue id m r.call] ++ (r.receipt m ++ [.retval n 0]) := rfl
    rw [hacts]
    refine ⟨_, _, _, .handOff ⟨n, p, buffer, size⟩ r rs m hempty hr hroom, rfl, ?_, ?_, ?_, ?_, ?_,
      ?_, by simp [Stranding]⟩
    · rw [enqueues_append, enqueues_eq_nil hq]
      simp [enqueues]
    · rw [enqueueCalls_append, enqueueCalls, enqueueCalls, enqueues_eq_nil hq, hm]
      simp [enqueues, Request.message]
    · rw [dequeues_append, dequeues_eq_nil hq]
      simp [dequeues]
    · rw [dequeueCalls_append, dequeueCalls_eq_nil hq]
      simp [dequeueCalls]
    · rw [discards_append, discards_eq_nil hq]
      rfl
    · intro hc
      rcases List.mem_append.1 hc with hc | hc
      · simp at hc
      · exact hq _ hc rfl
  | receive ch buffer size m ms hsize hm hfit hs =>
    refine ⟨_, _, _, .receive ⟨n, p, buffer, size⟩ m ms hm, rfl, rfl, rfl, ?_, ?_, rfl, by simp,
      by simp [Stranding, Chan.StrandedBy, hs]⟩
    · simp [dequeues]
    · simp [dequeueCalls]
  | complete ch buffer size m m' ms b r rs hsize hm hfit hs hm' =>
    refine ⟨_, _, _, .letIn ⟨n, p, buffer, size⟩ r rs m m' ms hm hs, rfl, ?_, ?_, ?_, ?_, rfl,
      by simp, ?_⟩
    · simp [enqueues]
    · simp [enqueueCalls, enqueues, hm', Request.message]
    · simp [dequeues]
    · simp [dequeueCalls]
    · simp [Stranding, Chan.StrandedBy, hm]
      omega
  | drop ch buffer size m ms hsize hm hfit =>
    refine ⟨_, _, _, .receive ⟨n, p, buffer, size⟩ m ms hm, rfl, rfl, rfl, ?_, ?_, rfl, by simp,
      by simp [Stranding, Chan.StrandedBy, hm, hfit]⟩
    · simp [dequeues]
    · simp [dequeueCalls]

/-- The entry of a call is about no queue. -/
theorem queue_cons_issue {c' : Syscall} {k : Nat} {pay : List UInt8}
    (hq : ∀ a ∈ acts, a.queue ≠ some i) :
    ∀ a ∈ Act.issue k p c' pay :: acts, a.queue ≠ some i := by
  intro a ha
  rcases List.mem_cons.1 ha with rfl | ha
  · simp [Act.queue]
  · exact hq a ha

namespace Ledger

/-- Entries about other queues do not matter. -/
theorem frame (hl : Ledger n h id o) (hq : ∀ a ∈ acts, a.queue ≠ some id) (hn : n ≤ n') :
    Ledger n' (h ++ acts) id o := by
  have hc : Act.create id ∉ acts := fun hc => hq _ hc rfl
  have he := enqueues_eq_nil hq
  have hec : enqueueCalls id acts = [] := by rw [enqueueCalls, he, List.map_nil]
  have hd := dequeues_eq_nil hq
  refine ⟨hl.sound, fun ch hch => ?_, ?_, ?_, fun k hk => ?_, ?_, fun k hk => ?_⟩
  · rw [lifetime_append hc, dequeues_append, enqueues_append, he, hd, List.append_nil,
      List.append_nil]
    exact hl.fifo ch hch
  · rw [dequeues_append, enqueues_append, discards_append, he, hd, discards_eq_nil hq]
    simpa using hl.account
  · rw [dequeueCalls_append, dequeueCalls_eq_nil hq, List.append_nil]
    exact hl.served
  · rw [dequeueCalls_append, dequeueCalls_eq_nil hq, List.append_nil] at hk
    exact Nat.lt_of_lt_of_le (hl.served_lt k hk) hn
  · rw [enqueueCalls_append, hec, List.append_nil]
    exact hl.sent
  · rw [enqueueCalls_append, hec, List.append_nil] at hk
    exact Nat.lt_of_lt_of_le (hl.sent_lt k hk) hn

theorem move {side : Side} {r : Request} {ops : List (ChannelOp Message Request)}
    (hl : Ledger n h id (some ch)) (hm : ch.Move side r ops ch') (hr : r.call = n)
    (he : enqueues id acts = (puts ops).map (·.2))
    (hec : enqueueCalls id acts = (puts ops).map (·.1.call))
    (hd : dequeues id acts = (takes ops).map (·.2))
    (hdc : dequeueCalls id acts = (takes ops).map (·.1.call))
    (hdi : discards id acts = []) (hc : .create id ∉ acts) :
    Ledger (n + 1) (h ++ acts) id (some ch') := by
  have hsound := hl.sound ch rfl
  have hfifo := hm.fifo
  rw [← he, ← hd] at hfifo
  have hrecv := congrArg (List.map (·.call)) (hm.receivers_order hsound)
  simp only [List.map_append, List.map_map, Function.comp_def, ← hdc] at hrecv
  have hsend := hm.senders_perm.map (·.call)
  simp only [List.map_append, List.map_map, Function.comp_def, ← hec] at hsend
  -- the calls of the channel afterwards are those before it and perhaps the new one
  have hsent : (enqueueCalls id (h ++ acts) ++ senderCalls (some ch')).Perm
      (enqueueCalls id h ++ senderCalls (some ch) ++
        (if side = .send then [r] else []).map (·.call)) := by
    simpa [List.append_assoc] using hsend.append_left (enqueueCalls id h)
  refine ⟨?_, ?_, ?_, ?_, ?_, ?_, ?_⟩
  · rintro _ ⟨⟩
    exact hm.sound hsound
  · rintro _ ⟨⟩
    rw [lifetime_append hc, dequeues_append, enqueues_append, ← hl.fifo ch rfl,
      List.append_assoc, List.append_assoc, hfifo]
  · have h1 := hl.account.append_right (enqueues id acts)
    rw [dequeues_append, discards_append, enqueues_append, hdi, List.append_nil, contentsOf_some]
    refine List.Perm.trans ?_ h1
    rw [contentsOf_some, List.append_assoc, List.append_assoc, List.append_assoc, List.append_assoc,
      hfifo]
    refine List.Perm.append_left _ ?_
    rw [← List.append_assoc, ← List.append_assoc]
    exact List.Perm.append_right _ List.perm_append_comm
  · rw [dequeueCalls_append]
    refine pairwise_lt_serve (n := n) hl.served hl.served_lt ?_ hrecv
    split
    · exact .inr (by simp [hr])
    · exact .inl rfl
  · intro k hk
    rw [dequeueCalls_append, List.append_assoc, receiverCalls_some, hrecv, ← List.append_assoc] at hk
    rcases List.mem_append.1 hk with hk | hk
    · exact Nat.lt_succ_of_lt (hl.served_lt k hk)
    · split at hk <;> simp_all
  · rw [hsent.nodup_iff]
    split
    · refine List.Nodup.append hl.sent (by simp) ?_
      intro k hk hk'
      have := hl.sent_lt k hk
      simp only [List.map_cons, List.map_nil, List.mem_singleton] at hk'
      omega
    · simpa using hl.sent
  · intro k hk
    rcases List.mem_append.1 (hsent.mem_iff.1 hk) with hk | hk
    · exact Nat.lt_succ_of_lt (hl.sent_lt k hk)
    · split at hk <;> simp_all

theorem create {size : Nat} (hl : Ledger n h id none) (hpos : 0 < size) :
    Ledger (n + 1) (h ++ [Act.create id, .retval n id]) id (some ⟨size, [], [], []⟩) := by
  have hlife : lifetime id (h ++ [Act.create id, .retval n id]) = [.retval n id] :=
    lifetime_create (by simp)
  refine ⟨?_, ?_, ?_, ?_, fun k hk => ?_, ?_, fun k hk => ?_⟩
  · rintro _ ⟨⟩
    exact sound_empty hpos
  · rintro _ ⟨⟩
    rw [hlife]
    rfl
  · simpa [dequeues, discards, enqueues] using hl.account
  · simpa [dequeueCalls] using hl.served
  · exact Nat.lt_succ_of_lt (hl.served_lt k (by simpa [dequeueCalls] using hk))
  · simpa [enqueueCalls, enqueues] using hl.sent
  · exact Nat.lt_succ_of_lt (hl.sent_lt k (by simpa [enqueueCalls, enqueues] using hk))

theorem destroy (hl : Ledger n h id (some ch)) :
    Ledger (n + 1) (h ++ ((ch.receivers ++ ch.senders).map
      (fun r => Act.retval r.call dsosEMqNotOpen) ++
        (ch.contents.map (.discard id) ++ [.destroy id, .retval n id]))) id none := by
  refine ⟨by simp, by simp, ?_, ?_, fun k hk => ?_, ?_, fun k hk => ?_⟩
  · have h1 := hl.account
    simpa [dequeues, enqueues, discards, List.filterMap_map, Function.comp_def] using h1
  · refine List.Pairwise.sublist ?_ hl.served
    simp [dequeueCalls, List.filterMap_map]
  · refine Nat.lt_succ_of_lt (hl.served_lt k (List.mem_append_left _ ?_))
    simpa [dequeueCalls, List.filterMap_map, Function.comp_def] using hk
  · refine List.Nodup.sublist ?_ hl.sent
    simp [enqueueCalls, enqueues, List.filterMap_map]
  · refine Nat.lt_succ_of_lt (hl.sent_lt k (List.mem_append_left _ ?_))
    simpa [enqueueCalls, enqueues, List.filterMap_map, Function.comp_def] using hk

end Ledger

/-- A call that strands nobody leaves nobody waiting for a free slot, and the send calls in order. -/
theorem ChanStep.ordered (hs : ChanStep n p id mem c o acts o' mem') (hl : Ledger n h id o)
    (hfull : ∀ ch ∈ o, ch.Full)
    (hsent : (enqueueCalls id h ++ senderCalls o).Pairwise (· < ·))
    (hn : ∀ ch ∈ o, ¬ ∃ buffer size, c = .mqReceive id buffer size ∧ ch.StrandedBy size) :
    (∀ ch ∈ o', ch.Full) ∧
      (enqueueCalls id h ++ enqueueCalls id acts ++ senderCalls o').Pairwise (· < ·) := by
  cases o with
  | none =>
    cases hs with
    | create size =>
      refine ⟨?_, by simpa [enqueueCalls, enqueues] using hsent⟩
      rintro _ ⟨⟩
      exact full_empty
  | some ch =>
    cases o' with
    | none =>
      cases hs with
      | destroy =>
        refine ⟨by simp, hsent.sublist ?_⟩
        simp [enqueueCalls, enqueues, List.filterMap_map]
    | some ch' =>
      obtain ⟨side, r, ops, hm, hr, -, hec, -, -, -, -, hstr⟩ := hs.move
      have hf := hfull ch rfl
      have hns : ¬ ch.Stranding ops := fun hst => hn ch rfl (hstr.1 hst)
      refine ⟨?_, ?_⟩
      · rintro _ ⟨⟩
        exact hm.full (hl.sound ch rfl) hf hns
      · have heq := congrArg (List.map (·.call)) (hm.senders_order hf)
        simp only [List.map_append, List.map_map, Function.comp_def, ← hec] at heq
        refine pairwise_lt_serve (n := n) hsent hl.sent_lt ?_ heq
        split
        · exact .inr (by simp [hr])
        · exact .inl rfl

/-! ## Steps of the machine -/

/-- The books of every queue. -/
def Channels.Kept (a : Channels) : Prop := ∀ id, Ledger a.calls a.history id (a.chan id)

/-- Nobody waits for a free slot, and send calls enter in the order in which they were made. -/
structure Channels.Ordered (a : Channels) : Prop where
  full : ∀ id, ∀ ch ∈ a.chan id, ch.Full
  sent : ∀ id, (enqueueCalls id a.history ++ senderCalls (a.chan id)).Pairwise (· < ·)

/-- The event is a receive call whose buffer is too small for the message it takes, from a queue on
which a sender is blocked. -/
def Channels.Strands (a : Channels) (e : Event) : Prop :=
  ∃ id buffer size, e = .syscall (.mqReceive id buffer size) ∧ 0 < id ∧ 0 < size ∧
    ∃ ch ∈ a.chan id, ch.StrandedBy size

namespace Channels

variable {a a' : Channels} {e : Event}

/-- The books before the entries of a call, its own entry included. -/
theorem Kept.issue {c' : Syscall} {pay : List UInt8} (hk : a.Kept) (i : Int) :
    Ledger a.calls (a.history ++ [.issue a.calls p c' pay]) i (a.chan i) :=
  (hk i).frame (by simp [Act.queue]) le_rfl

theorem Step.kept (h : a.Step e a') (hk : a.Kept) : a'.Kept := by
  intro i
  cases h with
  | tick => exact hk i
  | store => exact hk i
  | pass p c acts hc hacts =>
    refine (hk.issue i).frame ?_ (Nat.le_succ _)
    rcases hacts with rfl | ⟨r, rfl⟩ <;> simp [Act.queue]
  | refuse p c r => exact (hk.issue i).frame (by simp [Act.queue]) (Nat.le_succ _)
  | call p c id acts o mem hid hs =>
    show Ledger (a.calls + 1) (a.history ++ [.issue a.calls p c _] ++ acts) i
      (if i = id then o else a.chan i)
    by_cases hi : i = id
    · subst hi
      rw [if_pos rfl]
      have hl : Ledger a.calls (a.history ++ [Act.issue a.calls p c (c.payload a.mem)]) i
          (a.chan i) := hk.issue i
      cases ho : a.chan i with
      | none =>
        rw [ho] at hs hl
        cases hs with
        | create size hpos => exact hl.create (by omega)
      | some ch =>
        rw [ho] at hs hl
        cases o with
        | none =>
          cases hs with
          | destroy => exact hl.destroy
        | some ch' =>
          obtain ⟨side, r, ops, hm, hr, he, hec, hd, hdc, hdi, hc, -⟩ := hs.move
          exact hl.move hm hr he hec hd hdc hdi hc
    · rw [if_neg hi]
      refine (hk.issue i).frame (fun act hact => ?_) (Nat.le_succ _)
      rcases hs.queue_eq act hact with hq | hq <;> rw [hq] <;> simp [Ne.symm hi]

/-- A step that strands nobody keeps the order of send calls. -/
theorem Step.ordered (h : a.Step e a') (hk : a.Kept) (ho : a.Ordered) (hn : ¬ a.Strands e) :
    a'.Ordered := by
  -- entries of no queue and of other queues leave a queue as it is
  have same : ∀ (i : Int) {acts : List Act}, (∀ b ∈ acts, b.queue ≠ some i) →
      (enqueueCalls i (a.history ++ acts) ++ senderCalls (a.chan i)).Pairwise (· < ·) := by
    intro i acts hq
    rw [enqueueCalls_append, enqueueCalls, enqueueCalls, enqueues_eq_nil hq, List.map_nil,
      List.append_nil]
    exact ho.sent i
  cases h with
  | tick => exact ho
  | store => exact ⟨ho.full, ho.sent⟩
  | pass p c acts hc hacts =>
    refine ⟨ho.full, fun i => ?_⟩
    simp only [issue, log, List.append_assoc]
    exact same i (by rcases hacts with rfl | ⟨r, rfl⟩ <;> simp [Act.queue])
  | refuse p c r =>
    refine ⟨ho.full, fun i => ?_⟩
    simp only [issue, log, List.append_assoc]
    exact same i (by simp [Act.queue])
  | call p c id acts o mem hid hs =>
    have hother : ∀ i, i ≠ id → ∀ b ∈ Act.issue a.calls p c (c.payload a.mem) :: acts,
        b.queue ≠ some i := fun i hi => queue_cons_issue fun b hb => by
      rcases hs.queue_eq b hb with hq | hq <;> rw [hq] <;> simp [Ne.symm hi]
    have hissue : enqueueCalls id (a.history ++ [Act.issue a.calls p c (c.payload a.mem)] ++ acts) =
        enqueueCalls id a.history ++ enqueueCalls id acts := by
      simp [enqueueCalls, enqueues]
    -- the queue named by the call
    suffices hid : (∀ ch ∈ o, ch.Full) ∧
        (enqueueCalls id a.history ++ enqueueCalls id acts ++ senderCalls o).Pairwise (· < ·) by
      refine ⟨fun i ch hch => ?_, fun i => ?_⟩
      · by_cases hi : i = id
        · exact hid.1 ch (by simpa [setMem, setChan, hi] using hch)
        · exact ho.full i ch (by simpa [setMem, setChan, issue, log, hi] using hch)
      · by_cases hi : i = id
        · subst hi
          simp only [setMem, setChan, issue, log, if_true]
          rw [hissue]
          exact hid.2
        · simp only [setMem, setChan, issue, log, if_neg hi, List.append_assoc]
          exact same i (hother i hi)
    refine hs.ordered (hk id) (ho.full id) (ho.sent id) ?_
    rintro ch hch ⟨buffer, size, rfl, hsb⟩
    exact hn ⟨id, buffer, size, rfl, hid, hs.receive_pos.2, ch, hch, hsb⟩

/-- A step that strands a sender leaves it in front of a free slot. -/
theorem Step.not_full (h : a.Step e a') (hk : a.Kept) (hs : a.Strands e) :
    ∃ id, ∃ ch ∈ a'.chan id, ¬ ch.Full := by
  obtain ⟨id, buffer, size, rfl, hid, hsize, ch, hch, hstr⟩ := hs
  cases h with
  | pass p c acts hc => exact absurd trivial hc
  | refuse p c r hc =>
    rcases hc with h | h | h
    · omega
    · omega
    · obtain ⟨-, m, ms, hm, -⟩ := hstr
      rw [h ch hch] at hm
      cases hm
  | call p c i acts o mem hi hs =>
    obtain ⟨rfl, -⟩ := hs.receive_pos
    refine ⟨id, ?_⟩
    rw [Option.mem_def.1 hch] at hs
    cases o with
    | none => cases hs
    | some ch' =>
      obtain ⟨side, r, ops, hm, -, -, -, -, -, -, -, hstr'⟩ := hs.move
      refine ⟨ch', by simp [setMem, setChan], hm.not_full ((hk id).sound ch hch) ?_⟩
      exact hstr'.2 ⟨buffer, size, rfl, hstr⟩

end Channels

end

end DisastrOS
