import Mathlib.Data.List.Find
import DisastrOS.Proof.Schedule
import DisastrOS.Spec.Channels

/-!
# Queues and their blocks

`Queues s B`: the resources are exactly the outstanding blocks of the queue pool, under different
ids; the messages of the queues and the blocks of `B`, which the running syscall holds, are exactly
the outstanding blocks of the message pool; and whoever waits on a queue does so with valid
arguments that name it. Each operation of the queue calls keeps it, moving blocks in and out of `B`.
A queue with a free slot finds a free block (`Queues.get_message`).
-/

namespace DisastrOS

open Lib State

/-- The queues among resources. -/
def queueRefs (rs : List ResourceRef) : List QueueRef := rs.filterMap fun
  | .queue q => some q
  | .generic _ => none

/-- The queues on `resources_list`. -/
def State.live (s : State) : List QueueRef := queueRefs s.resourcesList

/-- A live queue. -/
structure QueueOk (mq : MessageQueue) : Prop where
  tag : mq.resource.type = resourceMessageQueue
  id : mq.resource.id = mq.queueId
  pos : 0 < mq.queueId
  refs : mq.resource.descriptorsPtrs = []
  count : mq.currentMessages = mq.messages.length
  capPos : 0 < mq.maxMessages
  capMax : mq.maxMessages ≤ maxMessagesPerQueue
  bound : (mq.messages.length : Int) ≤ mq.maxMessages

/-- The message blocks of a queue. -/
def MessageQueue.blocks (mq : MessageQueue) : List Nat := mq.messages.map (·.block)

/-- The queues and the pools they come from (module doc). -/
structure Queues (s : State) (B : List Nat) : Prop where
  only : s.resourcesList = s.live.map .queue
  pool : s.queuePool.Owns s.live
  poolSize : s.queuePool.sizeMax = maxMessageQueues
  ids : (s.live.map fun q => (s.queues q).queueId).Nodup
  ok : ∀ q ∈ s.live, QueueOk (s.queues q)
  messages : s.messagePool.Owns (B ++ s.live.flatMap fun q => (s.queues q).blocks)
  messageSize : s.messagePool.sizeMax = maxMessagesPerQueue * maxMessageQueues
  receivers : ∀ q, ∀ p ∈ (s.queues q).waitingReceivers, q ∈ s.live ∧
    (s.pcbs p).syscallArgs 0 = (s.queues q).queueId ∧ 0 < (s.pcbs p).syscallArgs 2
  senders : ∀ q, ∀ p ∈ (s.queues q).waitingSenders, q ∈ s.live ∧
    (s.pcbs p).syscallArgs 0 = (s.queues q).queueId ∧ SendSize ((s.pcbs p).syscallArgs 2)

/-- The live queue with this id. -/
def State.queueById (s : State) (id : Int) : Option QueueRef :=
  s.live.find? fun q => (s.queues q).queueId = id

section
variable {s s' : State} {B : List Nat} {q : QueueRef} {p : PcbRef} {id : Int} {m : Message}
  {ms : List Message} {b : Nat} {pool : Pool}

namespace Queues

/-! ## Lookup -/

theorem nodup (h : Queues s B) : s.live.Nodup := h.pool.nodup.of_append_right

theorem live_le (h : Queues s B) : s.live.length ≤ maxMessageQueues := by
  have := h.pool.length
  rw [h.poolSize] at this
  omega

theorem queueById_eq_some (h : Queues s B) :
    s.queueById id = some q ↔ q ∈ s.live ∧ (s.queues q).queueId = id :=
  find?_key_eq_some h.ids

theorem queueById_eq_none : s.queueById id = none ↔ ∀ q ∈ s.live, (s.queues q).queueId ≠ id := by
  simp [State.queueById]

/-- Looking up a resource is looking up a queue. -/
theorem resourceListById_eq (h : Queues s B) :
    resourceListById s id = (s.queueById id).map .queue := by
  unfold resourceListById State.queueById
  rw [h.only, List.find?_map]
  congr 1
  refine List.find?_congr fun q hq => ?_
  simp [State.resource, (h.ok q hq).id]

theorem lookupQueue_eq (h : Queues s B) : lookupQueue s id = .ok (s.queueById id) := by
  unfold lookupQueue
  rw [h.resourceListById_eq]
  cases hq : s.queueById id with
  | none => rfl
  | some q =>
    have := (h.ok q (h.queueById_eq_some.1 hq).1).tag
    simp [State.resource, this]

/-! ## Frames -/

/-- `Queues` reads the resources, the queues, their pools and the saved arguments. -/
theorem congr (h : Queues s B) (hr : s'.resourcesList = s.resourcesList)
    (hq : s'.queues = s.queues) (hqp : s'.queuePool = s.queuePool)
    (hmp : s'.messagePool = s.messagePool)
    (ha : ∀ L, ∀ p ∈ s.list L, (s'.pcbs p).syscallArgs = (s.pcbs p).syscallArgs) :
    Queues s' B := by
  have hl : s'.live = s.live := by unfold State.live; rw [hr]
  refine ⟨by rw [hl, hr]; exact h.only, by rw [hl, hqp]; exact h.pool, by rw [hqp]; exact h.poolSize,
    by rw [hl, hq]; exact h.ids, by rw [hl, hq]; exact h.ok, by rw [hl, hq, hmp]; exact h.messages,
    by rw [hmp]; exact h.messageSize, ?_, ?_⟩
  · intro q p hp
    rw [hq] at hp
    rw [hl, hq, ha (.receivers q) p hp]
    exact h.receivers q p hp
  · intro q p hp
    rw [hq] at hp
    rw [hl, hq, ha (.senders q) p hp]
    exact h.senders q p hp

/-- New members of a queue's waiting list must have valid arguments. -/
theorem setList (h : Queues s B) {L : PcbList} {ps : List PcbRef}
    (hr : ∀ q, L = .receivers q → ∀ p ∈ ps, p ∉ s.list L → q ∈ s.live ∧
      (s.pcbs p).syscallArgs 0 = (s.queues q).queueId ∧ 0 < (s.pcbs p).syscallArgs 2)
    (hs : ∀ q, L = .senders q → ∀ p ∈ ps, p ∉ s.list L → q ∈ s.live ∧
      (s.pcbs p).syscallArgs 0 = (s.queues q).queueId ∧ SendSize ((s.pcbs p).syscallArgs 2)) :
    Queues (s.setList L ps) B := by
  have hl : (s.setList L ps).live = s.live := by simp [State.live]
  refine ⟨by simpa [hl] using h.only, by simpa [hl] using h.pool, by simpa using h.poolSize,
    by simpa [hl, setList_queues] using h.ids, fun q hq => ?_,
    by simpa [hl, setList_queues, MessageQueue.blocks] using h.messages, by simpa using h.messageSize,
    fun q p hp => ?_, fun q p hp => ?_⟩
  · rw [hl] at hq
    obtain ⟨h1, h2, h3, h4, h5, h6, h7, h8⟩ := h.ok q hq
    rw [setList_queues]
    exact ⟨h1, h2, h3, h4, h5, h6, h7, h8⟩
  · rw [hl, setList_pcbs, setList_queues]
    change p ∈ (s.setList L ps).list (.receivers q) at hp
    by_cases hL : PcbList.receivers q = L
    · subst hL
      rw [list_setList_self] at hp
      by_cases hm : p ∈ s.list (.receivers q)
      · exact h.receivers q p hm
      · exact hr q rfl p hp hm
    · rw [list_setList_of_ne hL] at hp
      exact h.receivers q p hp
  · rw [hl, setList_pcbs, setList_queues]
    change p ∈ (s.setList L ps).list (.senders q) at hp
    by_cases hL : PcbList.senders q = L
    · subst hL
      rw [list_setList_self] at hp
      by_cases hm : p ∈ s.list (.senders q)
      · exact h.senders q p hm
      · exact hs q rfl p hp hm
    · rw [list_setList_of_ne hL] at hp
      exact h.senders q p hp

/-- A list that loses members. -/
theorem setList_sub (h : Queues s B) {L : PcbList} {ps : List PcbRef}
    (hsub : ∀ p ∈ ps, p ∈ s.list L) : Queues (s.setList L ps) B :=
  h.setList (fun _ _ p hp hn => absurd (hsub p hp) hn) fun _ _ p hp hn => absurd (hsub p hp) hn

/-- A list of no queue. -/
theorem setList_other (h : Queues s B) {L : PcbList} {ps : List PcbRef}
    (hr : ∀ q, L ≠ .receivers q) (hs : ∀ q, L ≠ .senders q) : Queues (s.setList L ps) B :=
  h.setList (fun q hq => absurd hq (hr q)) fun q hq => absurd hq (hs q)

/-! ## Messages -/

/-- A queue may change in its messages, its counter and its status, if the blocks it loses are
held. -/
theorem updQueue (h : Queues s B) (B' : List Nat) (hq : q ∈ s.live) {f : MessageQueue → MessageQueue}
    (hok : QueueOk (f (s.queues q))) (hid : (f (s.queues q)).queueId = (s.queues q).queueId)
    (hr : (f (s.queues q)).waitingReceivers = (s.queues q).waitingReceivers)
    (hs : (f (s.queues q)).waitingSenders = (s.queues q).waitingSenders)
    (hB : (B ++ (s.queues q).blocks).Perm (B' ++ (f (s.queues q)).blocks)) :
    Queues (s.updQueue q f) B' := by
  have hids : ∀ i, ((s.updQueue q f).queues i).queueId = (s.queues i).queueId := by
    intro i
    by_cases hi : i = q <;> simp [hi, hid]
  have hother : ∀ i, i ≠ q → ((s.updQueue q f).queues i).blocks = (s.queues i).blocks := by
    intro i hi
    simp [hi]
  refine ⟨h.only, h.pool, h.poolSize, ?_, fun i hi => ?_, ?_, h.messageSize, fun i p hp => ?_,
    fun i p hp => ?_⟩
  · change (s.live.map fun i => ((s.updQueue q f).queues i).queueId).Nodup
    simpa only [hids] using h.ids
  · by_cases hiq : i = q
    · simpa [hiq] using hok
    · simpa [hiq] using h.ok i hi
  · refine h.messages.perm ?_
    refine (List.Perm.append_left B (flatMap_perm_erase hq fun i => (s.queues i).blocks)).trans ?_
    refine List.Perm.trans ?_
      (List.Perm.append_left B' (flatMap_perm_of_eq h.nodup hq hother)).symm
    rw [← List.append_assoc, ← List.append_assoc]
    refine List.Perm.append_right _ ?_
    simpa using hB
  · rw [hids]
    refine h.receivers i p ?_
    by_cases hi : i = q
    · subst hi
      simpa [hr] using hp
    · simpa [hi] using hp
  · rw [hids]
    refine h.senders i p ?_
    by_cases hi : i = q
    · subst hi
      simpa [hs] using hp
    · simpa [hi] using hp

/-- A queue with a free slot finds a free message block. -/
theorem get_message (h : Queues s []) (hq : q ∈ s.live)
    (hlt : ((s.queues q).messages.length : Int) < (s.queues q).maxMessages) :
    ∃ b pool, s.messagePool.get = some (b, pool) := by
  cases hg : s.messagePool.get with
  | some x => exact ⟨x.1, x.2, rfl⟩
  | none =>
    have h1 := (h.messages.get_none).1 hg
    have hle : ∀ i ∈ s.live, (s.queues i).blocks.length ≤ maxMessagesPerQueue := by
      intro i hi
      have h2 := (h.ok i hi).bound
      have h3 := (h.ok i hi).capMax
      simp only [MessageQueue.blocks, List.length_map]
      omega
    have hql : (s.queues q).blocks.length < maxMessagesPerQueue := by
      have h3 := (h.ok q hq).capMax
      simp only [MessageQueue.blocks, List.length_map]
      omega
    have h4 := length_flatMap_lt hle hq hql
    have h5 := h.live_le
    rw [List.nil_append, h.messageSize] at h1
    simp only [maxMessagesPerQueue, maxMessageQueues] at h1 h4 h5
    omega

theorem alloc (h : Queues s B) (hg : s.messagePool.get = some (b, pool)) :
    Queues { s with messagePool := pool } (b :: B) :=
  { h with
    messages := h.messages.get hg
    messageSize := (Pool.get_eq hg).2.trans h.messageSize }

theorem free (h : Queues s (m.block :: B)) : Queues (messageFree s m) B :=
  { h with
    messages := by
      have := h.messages.release (b := m.block) (by simp)
      change (s.messagePool.release m.block).Owns
        (B ++ s.live.flatMap fun q => (s.queues q).blocks)
      simpa using this
    messageSize := by simpa [messageFree] using h.messageSize }

theorem push (h : Queues s (m.block :: B)) (hq : q ∈ s.live)
    (hlt : ((s.queues q).messages.length : Int) < (s.queues q).maxMessages) :
    Queues (pushMessage s q m) B := by
  obtain ⟨h1, h2, h3, h4, h5, h6, h7, h8⟩ := h.ok q hq
  have key := h.updQueue B hq (f := fun mq => { mq with
    messages := mq.messages ++ [m], currentMessages := mq.currentMessages + 1 }) ?_ rfl rfl rfl ?_
  · exact key.congr rfl rfl rfl rfl fun _ _ _ => rfl
  · refine ⟨h1, h2, h3, h4, ?_, h6, h7, ?_⟩
    · simp [h5]
    · simp only [List.length_append, List.length_singleton]
      omega
  · simp only [MessageQueue.blocks, List.map_append, List.map_singleton]
    rw [← List.append_assoc]
    exact (List.perm_append_singleton _ _).symm

/-- The state after `popMessage` has taken the first message, with `ms` behind it. -/
theorem pop (h : Queues s B) (hq : q ∈ s.live) (hm : (s.queues q).messages = m :: ms) :
    Queues (s.updQueue q fun mq =>
      { mq with messages := ms, currentMessages := mq.currentMessages - 1 }) (m.block :: B) := by
  obtain ⟨h1, h2, h3, h4, h5, h6, h7, h8⟩ := h.ok q hq
  rw [hm] at h5 h8
  refine h.updQueue _ hq ⟨h1, h2, h3, h4, ?_, h6, h7, ?_⟩ rfl rfl rfl ?_
  · simp only [List.length_cons] at h5
    simp only
    omega
  · simp only [List.length_cons] at h8
    simp only
    omega
  · simp only [MessageQueue.blocks, hm, List.map_cons]
    exact List.perm_middle

end Queues

end

end DisastrOS
