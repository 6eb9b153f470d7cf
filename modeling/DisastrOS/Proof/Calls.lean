import DisastrOS.Proof.Effects
import DisastrOS.Proof.Resources
import DisastrOS.Proof.Step

/-!
# The calls as sequences of effects

Every function of the kernel is taken apart into effects, in any state; `syscall_effects` puts them
together.
-/

namespace DisastrOS

open Lib State Relation

section
variable {s s' s'' : State} {L : PcbList} {p r : PcbRef} {q : QueueRef} {ps : List PcbRef}
  {m : Message} {n : Nat}

/-! ## The scheduler -/

theorem timerListRemoveCurrent_eq {t : TimerItem} {ts : List TimerItem}
    (h : s.timerList = t :: ts) : timerListRemoveCurrent s t =
      { s with timerList := ts, timerPool := s.timerPool.release t.block } := by
  simp [timerListRemoveCurrent, h]

/-- An insertion into the ready list, which may be refused. -/
theorem listInsertLast_effects (hst : (s.pcbs p).status = .ready)
    (h : s.listInsertLast .ready p = .ok s') : Effects n r s s' := by
  rcases listInsert_cases h with rfl | rfl
  · exact .refl
  · exact .single (.enqueue hst)

/-- The elapsed timers fire, one after the other. -/
theorem wakeTimers_effects (hn : Reschedules n) : ∀ (ts : List TimerItem) {prev : Option PcbRef}
    {s : State}, s.timerList = ts → wakeTimers ts prev s = .ok s' → Effects n r s s'
  | [], _, _, _, h => by
    cases h
    exact .refl
  | t :: ts, prev, s, hts, h => by
    rw [wakeTimers] at h
    split at h
    case isFalse =>
      cases h
      exact .refl
    rename_i hle
    obtain ⟨s₁, h₁, h⟩ := bind_eq_ok.1 h
    obtain ⟨s₂, h₂, h⟩ := bind_eq_ok.1 h
    have hd := Minor.listDetach (.inl rfl) h₁
    have hts₁ : s₁.timerList = t :: ts := hd.timerList.trans hts
    have hts₂ : s₂.timerList = t :: ts := (listInsert_timerList h₂).trans hts₁
    rw [timerListRemoveCurrent_eq hts₂] at h
    refine (hd.effects.trans ?_).trans (wakeTimers_effects hn ts rfl h)
    have hle₁ : t.awakeningTime ≤ s₁.time := by
      rw [hd.time]
      exact hle
    rcases listInsert_cases h₂ with rfl | rfl
    · exact (ReflTransGen.single (.wake hn hts₁ hle₁ (.inl rfl))).tail
        (.minor (.setTimer _ t.pcb none))
    · exact (ReflTransGen.single (.wake hn hts₁ hle₁ (.inr ⟨prev, rfl⟩))).tail
        (.minor (.setTimer _ t.pcb none))

theorem dispatch_effects (hn : Reschedules n) (hr : s.running = r) (h : dispatch s = .ok s') :
    Effects n r s s' := by
  subst hr
  unfold dispatch at h
  split at h
  · cases h
    exact .refl
  obtain ⟨⟨next, s₁⟩, h₁, h⟩ := bind_eq_ok.1 h
  obtain ⟨rest, hL, rfl⟩ := listDetachFirst_cases h₁
  dsimp only at h
  split at h
  · rename_i hst
    obtain ⟨s₂, h₂, h⟩ := bind_eq_ok.1 h
    cases h
    -- the running process is put back before the first ready one is taken
    have hp : Effects n s.running s (s.setStatus s.running .ready) :=
      .single (.preempt hn rfl hst)
    rcases listInsert_cases h₂ with rfl | rfl
    · exact hp.tail (.yield (.inl hn) hL)
    · have he : Effects n s.running s ((s.setStatus s.running .ready).setList .ready
          (s.readyList ++ [s.running])) := hp.tail (.enqueue (by simp))
      have hL' : s.readyList ++ [s.running] = next :: (rest ++ [s.running]) :=
        congrArg (· ++ [s.running]) hL
      rw [hL'] at he
      exact he.tail (.yield (.inl hn) rfl)
  · cases h
    exact .single (.yield (.inl hn) hL)

theorem schedule_effects (hn : Reschedules n) (hr : s.running = r)
    (h : internalSchedule s = .ok s') : Effects n r s s' := by
  obtain ⟨s₁, h₁, h⟩ := bind_eq_ok.1 h
  refine (wakeTimers_effects hn _ rfl h₁).trans (dispatch_effects hn ?_ h)
  exact (Rescheduled.wakeTimers _ _ h₁).2.trans hr

/-! ## Queues -/

theorem Minor.messageAlloc {size : Int} (h : messageAlloc s size = some (m, s')) :
    Minor s s' := by
  unfold DisastrOS.messageAlloc at h
  split at h
  · cases h
  · split at h <;> cases h
    rfl

theorem Minor.pushMessage (s : State) (q : QueueRef) (m : Message) :
    Minor (s.updQueue q fun mq => { mq with messages := mq.messages ++ [m] })
      (pushMessage s q m) := by
  refine (ofQueues fun i => ?_).trans (.record _ _)
  by_cases hi : i = q <;> simp [hi, MessageQueue.essential]

/-- The message that a process sends is as long as it says. -/
theorem fill_length {buffer : Int} :
    (m.fill s p buffer).data.length = (m.fill s p buffer).size.toNat := by
  simp [Message.fill]

theorem popMessage_cases (h : popMessage s q p = .ok (m, s')) : ∃ ms,
    (s.queues q).messages = m :: ms ∧ s' = (s.updQueue q fun mq =>
      { mq with messages := ms, currentMessages := mq.currentMessages - 1 }).record
        (.dequeue (s.queues q).queueId m (s.pcbs p).call) := by
  unfold popMessage at h
  split at h
  · cases h
  · rename_i ms hm
    cases h
    exact ⟨ms, hm, rfl⟩

/-- The first waiting receiver gets the first message, if it fits. -/
theorem handOff_effects (h : handOff s q = .ok s') : Effects dsosCallMqSend r s s' := by
  unfold handOff at h
  obtain ⟨⟨p, s₁⟩, h₁, h⟩ := bind_eq_ok.1 h
  obtain ⟨ps, hL, rfl⟩ := listDetachFirst_cases h₁
  obtain ⟨⟨msg, s₂⟩, h₂, h⟩ := bind_eq_ok.1 h
  obtain ⟨ms, hm, hs₂⟩ := popMessage_cases h₂
  have hm' : (s.queues q).messages = msg :: ms := by
    rw [setList_queues] at hm
    exact hm
  simp only [setList_pcbs] at h
  refine ReflTransGen.trans ?_ (listInsertLast_effects (by simp) h)
  have hq : Minor ((s.updQueue q ({ · with messages := ms })).setList (.receivers q) ps) s₂ := by
    rw [hs₂]
    refine (Minor.ofQueues fun i => ?_).trans (.record _ _)
    by_cases hi : i = q <;> simp [hi, MessageQueue.essential, State.setList]
  have hmem : s₂.mem = s.mem := hq.mem.trans setList_mem
  -- the message is delivered while it is still in the queue
  have key : ∀ s₁, Effects dsosCallMqSend r s s₁ → s₁.list (.receivers q) = p :: ps →
      (s₁.queues q).messages = msg :: ms → Effects dsosCallMqSend r s
        (((s₁.updQueue q ({ · with messages := ms })).setList (.receivers q) ps).setStatus p
          .ready) := fun s₁ he hL₁ hm₁ => (he.tail (.pop hm₁)).tail
    (.serve (q := q) (.inl ⟨rfl, .inl rfl⟩) (by simpa [State.list] using hL₁))
  split
  · have h1 := hq.trans ((Minor.setRetvalue s₂ p dsosEBuffer).trans (.messageFree _ msg))
    exact (key s .refl hL hm').tail (.minor (h1.setStatus p .ready))
  · rename_i hfit
    have hd : Effect dsosCallMqSend r s
        { s with mem := memWrite s.mem ((s.pcbs p).syscallArgs 1) msg.data } := by
      refine .deliver (q := q) (.inr ⟨rfl, ?_⟩) (hm' ▸ List.mem_cons_self) ?_
      · exact (hL ▸ List.mem_cons_self : p ∈ s.list (.receivers q))
      · exact Int.not_lt.1 hfit
    have h1 := hq.withMem (memWrite s.mem ((s.pcbs p).syscallArgs 1) msg.data)
    rw [← hmem] at h1
    have h2 := h1.trans ((Minor.record _ (.deliver (s₂.pcbs p).call ((s.pcbs p).syscallArgs 1)
      msg.data)).trans ((Minor.setRetvalue _ p msg.size).trans (.messageFree _ msg)))
    rw [← hmem] at hd
    exact (key _ (.single hd) hL hm').tail (.minor (h2.setStatus p .ready))

theorem mqSendEnqueue_effects {buffer size : Int} (h : mqSendEnqueue s p q buffer size = .ok s') :
    Effects dsosCallMqSend r s s' := by
  unfold mqSendEnqueue at h
  split at h
  · cases h
    exact ((Minor.record _ _).trans (.setRetvalue _ _ _)).effects
  · rename_i m s₁ hm
    have hp : Effects dsosCallMqSend r s (pushMessage s₁ q (m.fill s₁ p buffer)) :=
      ((Minor.messageAlloc hm).effects.tail (.push (.inl rfl) fill_length)).tail
        (.minor (.pushMessage _ _ _))
    dsimp only at h
    split at h
    · obtain ⟨s₂, h₂, h⟩ := bind_eq_ok.1 h
      cases h
      exact (hp.trans (handOff_effects h₂)).tail (.minor (.setRetvalue _ _ _))
    · cases h
      exact hp.tail (.minor (.setRetvalue _ _ _))

/-- The first waiting sender sends its message now. -/
theorem completeSend_effects (h : completeSend s q = .ok s') :
    Effects dsosCallMqReceive r s s' := by
  unfold completeSend at h
  obtain ⟨⟨p, s₁⟩, h₁, h⟩ := bind_eq_ok.1 h
  obtain ⟨ps, hL, rfl⟩ := listDetachFirst_cases h₁
  have hs : Effects dsosCallMqReceive r s ((s.setList (.senders q) ps).setStatus p .ready) :=
    .single (.serve (q := q) (.inr ⟨rfl, .inl rfl⟩) hL)
  refine ReflTransGen.trans ?_ (listInsertLast_effects (by simp) h)
  split
  · exact hs.tail (.minor (((Minor.record _ _).trans (.setRetvalue _ _ _)).setStatus p .ready))
  · split
    · exact hs.tail (.minor (((Minor.record _ _).trans (.setRetvalue _ _ _)).setStatus p .ready))
    · rename_i m s₂ hm
      have hp : Effects dsosCallMqReceive r s ((s₂.setStatus p .ready).updQueue q fun mq =>
          { mq with messages := mq.messages ++
            [m.fill s₂ p (((s.setList (.senders q) ps).pcbs p).syscallArgs 1)] }) :=
        (hs.tail (.minor ((Minor.messageAlloc hm).setStatus p .ready))).tail
          (.push (.inr rfl) fill_length)
      exact hp.tail (.minor (((Minor.pushMessage s₂ q _).trans (.setRetvalue _ _ _)).setStatus p
        .ready))

theorem mqReceiveTake_effects {size : Int}
    (hn : (s.pcbs s.running).syscallNum = dsosCallMqReceive)
    (hsize : (s.pcbs s.running).syscallArgs 2 = size)
    (h : mqReceiveTake s s.running q ((s.pcbs s.running).syscallArgs 1) size = .ok s') :
    Effects dsosCallMqReceive s.running s s' := by
  unfold mqReceiveTake at h
  obtain ⟨⟨m, s₁⟩, h₁, h⟩ := bind_eq_ok.1 h
  obtain ⟨ms, hm, hs₁⟩ := popMessage_cases h₁
  have hq : Minor (s.updQueue q ({ · with messages := ms })) s₁ := by
    rw [hs₁]
    refine (Minor.ofQueues fun i => ?_).trans (.record _ _)
    by_cases hi : i = q <;> simp [hi, MessageQueue.essential]
  dsimp only at h
  split at h
  · cases h
    exact (ReflTransGen.single (.pop hm)).tail
      (.minor (hq.trans ((Minor.messageFree _ m).trans (.setRetvalue _ _ _))))
  · rename_i hfit
    generalize hbuf : (s.pcbs s.running).syscallArgs 1 = buffer at h
    have hd : Effects dsosCallMqReceive s.running s
        { s with mem := memWrite s.mem buffer m.data } := by
      rw [← hbuf]
      exact .single (.deliver (q := q) (.inl ⟨rfl, rfl, hn⟩) (hm ▸ List.mem_cons_self) (by omega))
    have h2 := hq.withMem (memWrite s.mem buffer m.data)
    have hmem : s₁.mem = s.mem := hq.mem
    rw [← hmem] at h2 hd
    have hd₂ : Effects dsosCallMqReceive s.running s
        (messageFree (deliver s₁ s.running buffer m) m) :=
      (hd.tail (.pop hm)).tail (.minor (h2.trans ((Minor.record _ _).trans (.messageFree _ m))))
    split at h
    · obtain ⟨s₃, h₃, h⟩ := bind_eq_ok.1 h
      cases h
      exact (hd₂.trans (completeSend_effects h₃)).tail (.minor (.setRetvalue _ _ _))
    · cases h
      exact hd₂.tail (.minor (.setRetvalue _ _ _))

/-- The part of a call that waits, with what the call does when the scheduler comes back to it. -/
theorem blocks_effects {v : Int} {again : State → Except Halt State} (hL : AwaitedBy n L q)
    (hn : (s.pcbs s.running).syscallNum = n)
    (h : (do
      let s₁ ← (s.setStatus s.running .waiting).listInsertLast L s.running
      let s₂ ← internalSchedule s₁
      if s₂.running = s.running ∧ (s₂.pcbs s.running).status = .waiting then
        let s₃ ← s₂.listDetach L s.running
        return (s₃.setStatus s.running .running).setRetvalue s.running v
      if s₂.running ≠ s.running then
        return s₂
      again s₂ : Except Halt State) = .ok s')
    (hagain : ∀ s₂, Effects n s.running s s₂ → s₂.running = s.running → again s₂ = .ok s' →
      Effects n s.running s₂ s') : Effects n s.running s s' := by
  obtain ⟨s₁, h₁, h⟩ := bind_eq_ok.1 h
  obtain ⟨s₂, h₂, h⟩ := bind_eq_ok.1 h
  have hb : Effects n s.running s (s.setStatus s.running .waiting) :=
    .single (.block (.inr (.inr (hL.symm.imp And.right And.right))))
  have hi : Effects n s.running s s₁ ∧ s₁.running = s.running := by
    rcases listInsert_cases h₁ with rfl | rfl
    · exact ⟨hb, rfl⟩
    · exact ⟨hb.tail (.queueUp (q := q) hL (by simpa using hn)), setList_running⟩
  have hs := hi.1.trans (schedule_effects
    (.inr (.inr (hL.symm.imp And.right And.right))) hi.2 h₂)
  split at h
  · rename_i hc
    obtain ⟨s₃, h₃, h⟩ := bind_eq_ok.1 h
    cases h
    obtain ⟨-, rfl⟩ := listDetach_cases h₃
    exact (hs.tail (.giveUp (q := q) hL hc.2)).tail (.minor (.setRetvalue _ _ _))
  split at h
  · cases h
    exact hs
  · rename_i heq
    exact hs.trans (hagain s₂ hs (not_not.1 heq) h)

/-- **`mq_send`**. -/
theorem mqSend_effects (hn : (s.pcbs s.running).syscallNum = dsosCallMqSend)
    (h : internalMqSend s = .ok s') : Effects dsosCallMqSend s.running s s' := by
  unfold internalMqSend at h
  dsimp only at h
  split at h
  · cases h
    exact (Minor.setRetvalue _ _ _).effects
  split at h
  · cases h
    exact (Minor.setRetvalue _ _ _).effects
  obtain ⟨found, -, h⟩ := bind_eq_ok.1 h
  cases found with
  | none =>
    cases h
    exact (Minor.setRetvalue _ _ _).effects
  | some q =>
    dsimp only at h
    split at h
    · split at h
      · cases h
        exact (Minor.setRetvalue _ _ _).effects
      refine blocks_effects (q := q) (.inr ⟨rfl, rfl⟩) hn h fun s₂ _ _ h => ?_
      split at h
      · cases h
        exact .refl
      · exact mqSendEnqueue_effects h
    · exact mqSendEnqueue_effects h

/-- **`mq_receive`**. -/
theorem mqReceive_effects (hn : (s.pcbs s.running).syscallNum = dsosCallMqReceive)
    (h : internalMqReceive s = .ok s') : Effects dsosCallMqReceive s.running s s' := by
  unfold internalMqReceive at h
  dsimp only at h
  split at h
  · cases h
    exact (Minor.setRetvalue _ _ _).effects
  split at h
  · cases h
    exact (Minor.setRetvalue _ _ _).effects
  obtain ⟨found, -, h⟩ := bind_eq_ok.1 h
  cases found with
  | none =>
    cases h
    exact (Minor.setRetvalue _ _ _).effects
  | some q =>
    dsimp only at h
    split at h
    · split at h
      · cases h
        exact (Minor.setRetvalue _ _ _).effects
      refine blocks_effects (q := q) (.inl ⟨rfl, rfl⟩) hn h fun s₂ hs hrun h => ?_
      split at h
      · cases h
        exact .refl
      · -- the saved call is still the same
        have hsaved := hs.saved s.running
        rw [← hsaved.2, ← hrun] at h
        rw [← hrun]
        refine mqReceiveTake_effects ?_ rfl h
        rw [hrun, hsaved.1, hn]
    · exact mqReceiveTake_effects hn rfl h

/-- The loops that wake everybody. -/
theorem wakeAll_effects (hL : ServedBy n L q) : ∀ {ps : List PcbRef} {s : State},
    wakeAll L ps s = .ok s' → Effects n r s s'
  | [], _, h => by
    cases h
    exact .refl
  | _ :: ps, s, h => by
    rw [wakeAll] at h
    obtain ⟨⟨p, s₁⟩, h₁, h⟩ := bind_eq_ok.1 h
    obtain ⟨qs, hs, rfl⟩ := listDetachFirst_cases h₁
    obtain ⟨s₂, h₂, h⟩ := bind_eq_ok.1 h
    have hw : Effects n r s
        (((s.setList L qs).setStatus p .ready).setRetvalue p dsosEMqNotOpen) :=
      (ReflTransGen.single (.serve (q := q) hL hs)).tail (.minor (.setRetvalue _ _ _))
    exact (hw.trans (listInsertLast_effects (by simp) h₂)).trans (wakeAll_effects hL h)

theorem freeMessages_effects : ∀ (ms : List Message) {s : State}, (s.queues q).messages = ms →
    Effects n r s (freeMessages q ms s)
  | [], _, _ => .refl
  | m :: ms, s, h => by
    refine ReflTransGen.trans ?_ (freeMessages_effects ms (by simp [messageFree]))
    exact (ReflTransGen.single (.pop h)).tail
      (.minor ((Minor.messageFree _ m).trans (.record _ _)))

theorem Minor.detachResource {r : ResourceRef} (h : detachResource s r = .ok s') : Minor s s' := by
  obtain ⟨-, rfl⟩ := detachResource_cases h
  rfl

/-- **`mq_destroy`**. -/
theorem mqDestroy_effects (h : internalMqDestroy s = .ok s') :
    Effects dsosCallMqDestroy r s s' := by
  unfold internalMqDestroy at h
  dsimp only at h
  split at h
  · cases h
    exact (Minor.setRetvalue _ _ _).effects
  obtain ⟨found, -, h⟩ := bind_eq_ok.1 h
  cases found with
  | none =>
    cases h
    exact (Minor.setRetvalue _ _ _).effects
  | some q =>
    dsimp only at h
    split at h
    · cases h
      exact (Minor.setRetvalue _ _ _).effects
    obtain ⟨s₂, h₂, h⟩ := bind_eq_ok.1 h
    obtain ⟨s₃, h₃, h⟩ := bind_eq_ok.1 h
    obtain ⟨s₅, h₅, h⟩ := bind_eq_ok.1 h
    obtain ⟨s₆, h₆, h⟩ := bind_eq_ok.1 h
    cases h
    obtain ⟨-, -, rfl⟩ := messageQueueFree_cases h₆
    have hw : Effects dsosCallMqDestroy r s s₃ := ((Minor.setMqStatus s q .closing).effects.trans
      (wakeAll_effects (q := q) (.inl ⟨rfl, .inr rfl⟩) h₂)).trans
        (wakeAll_effects (q := q) (.inr ⟨rfl, .inr rfl⟩) h₃)
    have hf := (hw.trans (freeMessages_effects (q := q) _ rfl)).tail
      (.minor (.setMqStatus _ q .closed))
    refine (hf.tail (.minor (.detachResource h₅))).tail (.minor ?_)
    have hpool : Minor s₅ { s₅ with queuePool := s₅.queuePool.release q } := rfl
    exact hpool.trans ((Minor.record _ _).trans (.setRetvalue _ _ _))

/-- **`mq_create`**. -/
theorem mqCreate_effects (h : internalMqCreate s = .ok s') :
    Effects dsosCallMqCreate r s s' := by
  unfold internalMqCreate at h
  dsimp only at h
  split at h
  · cases h
    exact (Minor.setRetvalue _ _ _).effects
  split at h
  · cases h
    exact (Minor.setRetvalue _ _ _).effects
  split at h
  · cases h
    exact (Minor.setRetvalue _ _ _).effects
  rename_i q s₁ ha
  unfold messageQueueAlloc at ha
  split at ha <;> cases ha
  cases h
  refine (ReflTransGen.single (.found (q := q) rfl)).tail (.minor (.trans ?_ (.setRetvalue _ _ _)))
  refine .trans (Minor.ofQueues fun i => ?_) rfl
  by_cases hi : i = q <;> simp [hi, MessageQueue.essential]

/-! ## Resources -/

namespace Minor

theorem linkDescriptor (s : State) (p : PcbRef) (d : Descriptor) (dp : DescriptorPtr) :
    Minor s (linkDescriptor s p d dp) := (setDescriptors _ _ _).trans .updResource

theorem decRefCount (s : State) (r : ResourceRef) : Minor s (decRefCount s r) := updResource
theorem descriptorFree (s : State) (d : Descriptor) : Minor s (descriptorFree s d) := rfl
theorem descriptorPtrFree (s : State) (b : Nat) : Minor s (descriptorPtrFree s b) := rfl

theorem detachDescriptorPtr {d : Descriptor} (h : detachDescriptorPtr s d = .ok s') :
    Minor s s' := by
  obtain ⟨-, rfl⟩ := detachDescriptorPtr_cases h
  exact updResource

theorem openDescriptor {found : Option ResourceRef} {type mode : Int}
    (h : internalOpenResource.openDescriptor s p found type mode = .ok s') : Minor s s' := by
  unfold internalOpenResource.openDescriptor at h
  split at h
  · cases h
    exact .setRetvalue _ _ _
  split at h
  · cases h
    exact .setRetvalue _ _ _
  split at h
  · cases h
    exact .setRetvalue _ _ _
  split at h
  · cases h
    exact .setRetvalue _ _ _
  rename_i des s₁ hd
  have h₁ : Minor s s₁ := by
    unfold descriptorAlloc at hd
    split at hd <;> cases hd
    rfl
  split at h
  · cases h
    exact h₁.trans ((descriptorFree s₁ des).trans (.setRetvalue _ _ _))
  rename_i dp s₂ hp
  have h₂ : Minor s₁ s₂ := by
    unfold descriptorPtrAlloc at hp
    split at hp <;> cases hp
    rfl
  cases h
  have h₃ : Minor (DisastrOS.linkDescriptor s₂ p des dp) _ :=
    updPcb (p := p) (f := fun pcb => { pcb with lastFd := pcb.lastFd + 1 }) fun _ => rfl
  exact (h₁.trans h₂).trans ((linkDescriptor s₂ p des dp).trans (h₃.trans (.setRetvalue _ _ _)))

theorem granted {r : ResourceRef} {fd : Int} {b c : Nat} {pool ptrPool : Pool} :
    Minor s (granted s p r fd b c pool ptrPool) := by
  have h : Minor s { s with descriptorPool := pool, descriptorPtrPool := ptrPool } := rfl
  exact h.trans (linkDescriptor _ _ _ _)

theorem dropped {d : Descriptor} {ds : List Descriptor} : Minor s (dropped s p d ds) := by
  have h : Minor s ((s.setDescriptors p ds).updResource d.resource fun res =>
      { res with descriptorsPtrs := res.descriptorsPtrs.eraseP (·.block = d.ptr) }) :=
    (setDescriptors _ _ _).trans updResource
  exact (h.trans (decRefCount _ d.resource)).trans rfl

theorem resourceFree {r : ResourceRef} (h : resourceFree s r = .ok s') : Minor s s' := by
  obtain ⟨-, ⟨i, -, rfl⟩ | ⟨q, -, rfl⟩⟩ := resourceFree_cases h <;> rfl

theorem openResource (h : internalOpenResource s = .ok s') : Minor s s' := by
  unfold internalOpenResource at h
  dsimp only at h
  split at h
  case isFalse => exact openDescriptor h
  split at h
  · cases h
    exact .setRetvalue _ _ _
  split at h
  · cases h
    exact .setRetvalue _ _ _
  rename_i r s₁ ha
  have h₁ : Minor s { s₁ with resourcesList := s₁.resourcesList ++ [r] } := by
    unfold resourceAlloc at ha
    split at ha <;> cases ha
    rfl
  exact h₁.trans (openDescriptor h)

theorem closeResource (h : internalCloseResource s = .ok s') : Minor s s' := by
  unfold internalCloseResource at h
  dsimp only at h
  split at h
  · cases h
    exact .setRetvalue _ _ _
  rename_i d _
  obtain ⟨s₁, h₁, h⟩ := bind_eq_ok.1 h
  split at h <;> cases h
  have h₂ := (setDescriptors s s.running ((s.pcbs s.running).descriptors.erase d)).trans
    (detachDescriptorPtr h₁)
  exact h₂.trans ((descriptorFree s₁ d).trans ((descriptorPtrFree _ d.ptr).trans
    ((decRefCount _ d.resource).trans (.setRetvalue _ _ _))))

theorem destroyResource (h : internalDestroyResource s = .ok s') : Minor s s' := by
  unfold internalDestroyResource at h
  dsimp only at h
  split at h
  · cases h
    exact .setRetvalue _ _ _
  split at h
  · cases h
    exact .setRetvalue _ _ _
  obtain ⟨s₁, h₁, h⟩ := bind_eq_ok.1 h
  obtain ⟨s₂, h₂, h⟩ := bind_eq_ok.1 h
  cases h
  exact (detachResource h₁).trans ((resourceFree h₂).trans (.setRetvalue _ _ _))

theorem forkDescriptors : ∀ {ds : List Descriptor} {s : State},
    forkDescriptors p ds s = .ok s' → Minor s s'
  | [], _, h => by
    cases h
    exact refl _
  | _ :: _, _, h => by
    obtain ⟨b, c, pool, ptrPool, -, -, h⟩ := forkDescriptors_cases h
    exact granted.trans (forkDescriptors h)

theorem releaseDescriptors : ∀ {ds : List Descriptor} {s : State},
    releaseDescriptors p ds s = .ok s' → Minor s s'
  | [], _, h => by
    cases h
    exact refl _
  | _ :: _, _, h => by
    obtain ⟨-, ⟨-, s₁, s₂, h₁, h₂, h⟩ | ⟨-, h⟩⟩ := releaseDescriptors_cases h
    · exact dropped.trans ((detachResource h₁).trans ((resourceFree h₂).trans
        (releaseDescriptors h)))
    · exact dropped.trans (releaseDescriptors h)

theorem pcbPtrAlloc {e : PCBPtr} (h : pcbPtrAlloc s p = some (e, s')) : Minor s s' := by
  unfold DisastrOS.pcbPtrAlloc at h
  split at h <;> cases h
  rfl

theorem pcbPtrFree (s : State) (e : PCBPtr) : Minor s (pcbPtrFree s e) := rfl

end Minor

theorem storeResult_pcbs {r v : Int} : (storeResult s r v).pcbs = s.pcbs :=
  (congrArg State.pcbs (storeResult_mem s r v) :)

/-! ## Processes -/

/-- `PCB_alloc` and the assignments to the new block. -/
theorem pcbAlloc_effects {f : PCB → PCB} (hn : n = dsosCallFork ∨ n = dsosCallSpawn)
    (h : pcbAlloc s = some (p, s'))
    (hf : ∀ a, (f a).essential = { a.essential with status := .ready, parent := some s'.running }) :
    Effects n s.running s (s'.updPcb p f) ∧ ((s'.updPcb p f).pcbs p).status = .ready := by
  have hst : ∀ a, (f a).status = .ready := fun a => (congrArg PCB.status (hf a) :)
  refine ⟨?_, by simp [hst]⟩
  unfold pcbAlloc at h
  split at h
  · cases h
  rename_i pool hg
  cases h
  refine (ReflTransGen.single (.birth hn rfl hg)).tail (.minor (Minor.ofPcbs (s := begun s p pool)
    fun i => ?_))
  by_cases hi : i = p
  · simp only [begun, updPcb_pcbs, hi, if_true]
    rw [hf]
    rfl
  · simp [begun, hi]

/-- **`spawn`**. -/
theorem spawn_effects (h : internalSpawn s = .ok s') :
    Effects dsosCallSpawn s.running s s' := by
  unfold internalSpawn at h
  split at h
  · cases h
    exact (Minor.setRetvalue _ _ _).effects
  rename_i p s₁ hp
  dsimp only at h
  split at h
  · cases h
  rename_i e s₂ he
  obtain ⟨s₃, h₃, h⟩ := bind_eq_ok.1 h
  cases h
  obtain ⟨hb, hst⟩ := pcbAlloc_effects (.inr rfl) hp (f := ({ · with
    status := .ready, descriptors := [], lastFd := 0, timer := none, parent := some s₁.running }))
    fun _ => rfl
  have hm := (Minor.pcbPtrAlloc he).trans (.setChildren s₂ s₂.running
    ((s₂.pcbs s₂.running).children ++ [e]))
  have hi := (hb.tail (.minor hm)).trans (listInsertLast_effects ((hm.status p).trans hst) h₃)
  exact hi.tail (.minor (.setRetvalue _ _ _))

/-- **`fork`**. -/
theorem fork_effects (h : internalFork s = .ok s') : Effects dsosCallFork s.running s s' := by
  unfold internalFork at h
  split at h
  · cases h
    exact (Minor.setRetvalue _ _ _).effects
  rename_i p s₁ hp
  dsimp only at h
  split at h
  · cases h
  rename_i e s₂ he
  obtain ⟨s₃, h₃, h⟩ := bind_eq_ok.1 h
  obtain ⟨hb, hst⟩ := pcbAlloc_effects (.inl rfl) hp (f := ({ · with
    status := .ready, parent := some s₁.running })) fun _ => rfl
  have hm := ((Minor.pcbPtrAlloc he).trans (.setChildren s₂ s₂.running
    ((s₂.pcbs s₂.running).children ++ [e]))).trans ((Minor.forkDescriptors h₃).trans
      (.setRetvalue s₃ s₃.running (s₃.pcbs p).pid))
  exact (hb.tail (.minor hm)).trans (listInsertLast_effects ((hm.status p).trans hst) h)

/-- **`wait`**. -/
theorem wait_effects (hn : (s.pcbs s.running).syscallNum = dsosCallWait)
    (h : internalWait s = .ok s') : Effects dsosCallWait s.running s s' := by
  have hsleep : internalWait.waitSleep s s.running = .ok s' →
      Effects dsosCallWait s.running s s' := by
    intro h
    obtain ⟨s₁, h₁, h⟩ := bind_eq_ok.1 h
    obtain ⟨⟨p, s₂⟩, h₂, h⟩ := bind_eq_ok.1 h
    obtain ⟨ps, hL, rfl⟩ := listDetachFirst_cases h₂
    cases h
    exact ((ReflTransGen.single (.block (.inr (.inl rfl)))).tail
      (.minor (.listInsert (.inl rfl) h₁))).tail (.yield (.inr (.inl rfl)) hL)
  unfold internalWait at h
  dsimp only at h
  split at h
  · cases h
    exact (Minor.setRetvalue _ _ _).effects
  split at h
  · split at h
    · cases h
      exact (Minor.setRetvalue _ _ _).effects
    · exact hsleep h
  rename_i e _
  split at h
  · rename_i hz
    obtain ⟨s₂, h₂, h⟩ := bind_eq_ok.1 h
    cases h
    have hm := ((Minor.setChildren s s.running ((s.pcbs s.running).children.erase e)).trans
      ((Minor.pcbPtrFree _ e).trans (.listDetach (.inr rfl) h₂))).trans
        (.setRetvalue s₂ s.running (s₂.pcbs e.pcb).pid)
    have hz₂ := (hm.status e.pcb).trans hz
    have hr := hm.effects.tail (.reported (.inl ⟨rfl, rfl⟩) ((hm.syscallNum _).trans hn) hz₂)
    rw [hm.syscallArgs] at hr
    exact hr.tail (.free (.inl rfl) (by rw [storeResult_pcbs]; exact hz₂))
  · exact hsleep h

/-- The loop that moves the children to init, and tells each of them. -/
theorem reparentChildren_effects : ∀ (fuel : Nat) {s s' : State},
    reparentChildren fuel s = .ok s' → Effects dsosCallExit r s s' ∧ s'.running = s.running ∧
      ∀ p, (s'.pcbs p).returnValue = (s.pcbs p).returnValue
  | 0, _, _, h => by cases h
  | fuel + 1, s, s', h => by
    rw [reparentChildren] at h
    split at h
    · cases h
      exact ⟨.refl, rfl, fun _ => rfl⟩
    · rename_i item items _
      obtain ⟨h1, h2, h3⟩ := reparentChildren_effects fuel h
      have hm := (Minor.setChildren s s.running items).trans
        (.setChildren _ s.initPcb (((s.setChildren s.running items).pcbs s.initPcb).children ++
          [item]))
      refine ⟨(hm.effects.tail (.signal item.pcb rfl (.inl rfl))).trans h1, h2, fun p => ?_⟩
      rw [h3 p]
      simp

/-- The release of the descriptors changes no answer. -/
theorem releaseDescriptors_retvalue : ∀ {ds : List Descriptor} {s : State},
    releaseDescriptors p ds s = .ok s' →
      ∀ q, (s'.pcbs q).syscallRetvalue = (s.pcbs q).syscallRetvalue
  | [], _, h, _ => by
    cases h
    rfl
  | d :: ds, s, h, q => by
    have hd : ((dropped s p d ds).pcbs q).syscallRetvalue = (s.pcbs q).syscallRetvalue := by
      simp [dropped, decRefCount]
    obtain ⟨-, ⟨-, s₁, s₂, h₁, h₂, h⟩ | ⟨-, h⟩⟩ := releaseDescriptors_cases h
    · rw [releaseDescriptors_retvalue h q, ← hd]
      obtain ⟨-, rfl⟩ := detachResource_cases h₁
      obtain ⟨-, ⟨i, -, rfl⟩ | ⟨i, -, rfl⟩⟩ := resourceFree_cases h₂ <;> rfl
    · rw [releaseDescriptors_retvalue h q, hd]

/-- The branch of `exit` in which the parent was waiting, in pieces. -/
theorem exitToParent_parts {parent : PcbRef} (h : exitToParent s r parent = .ok s') :
    ∃ s₁ s₂ s₃, Minor s s₁ ∧ Minor (s₁.setStatus parent .running) s₂ ∧
      (s₂.pcbs parent).syscallRetvalue = (s.pcbs r).pid ∧
      Minor (purgeTimers
        (storeResult s₂ ((s₂.pcbs parent).syscallArgs 1) (s₂.pcbs r).returnValue) r) s₃ ∧
      (∀ q, (s₃.pcbs q).syscallRetvalue = (s₂.pcbs q).syscallRetvalue) ∧
      s' = (pcbFree s₃ r).setRunning parent := by
  unfold exitToParent at h
  obtain ⟨s₁, h₁, h⟩ := bind_eq_ok.1 h
  have hd : Minor s s₁ := .listDetach (.inl rfl) h₁
  dsimp only at h
  split at h
  · cases h
  rename_i e _
  obtain ⟨s₃, h₃, h⟩ := bind_eq_ok.1 h
  obtain ⟨s₄, h₄, h⟩ := bind_eq_ok.1 h
  cases h
  refine ⟨s₁, _, s₄, hd, (Minor.setChildren _ _ _).trans (.setRetvalue _ _ _), ?_,
    (Minor.releaseDescriptors h₃).trans (.listDetach (.inr rfl) h₄), fun q => ?_, rfl⟩
  · rw [← hd.pid]
    simp
  · have hpcbs : s₄.pcbs = s₃.pcbs := by
      obtain ⟨-, rfl⟩ := listDetach_cases h₄
      simp
    rw [hpcbs, releaseDescriptors_retvalue h₃]
    exact congrArg (fun f : PcbRef → PCB => (f q).syscallRetvalue) storeResult_pcbs

theorem exitToParent_effects {parent : PcbRef} (hp : (s.pcbs r).parent = some parent)
    (hw : waitsFor s parent (s.pcbs r).pid) (hz : (s.pcbs r).status = .zombie)
    (h : exitToParent s r parent = .ok s') : Effects dsosCallExit r s s' := by
  have hne : r ≠ parent := by
    rintro rfl
    have := hw.1
    rw [hz] at this
    cases this
  obtain ⟨s₁, s₂, s₃, hd, hm, -, hm₂, -, rfl⟩ := exitToParent_parts h
  have hw₁ : waitsFor s₁ parent (s₁.pcbs r).pid := by
    unfold waitsFor at hw ⊢
    rwa [hd.status, hd.syscallNum, hd.syscallArgs, hd.pid]
  have hr : Effects dsosCallExit r s s₂ :=
    (hd.effects.tail (.rouse rfl ((hd.parent r).trans hp) hw₁)).tail (.minor hm)
  have hz₂ : (s₂.pcbs r).status = .zombie := by
    rw [hm.status]
    simp [hne, hd.status, hz]
  have hnum : (s₂.pcbs parent).syscallNum = dsosCallWait := by
    rw [hm.syscallNum]
    simpa using hw₁.2.1
  have hrep := hr.tail (.reported (.inr ⟨rfl, rfl⟩) hnum hz₂)
  generalize hs₅ : storeResult s₂ ((s₂.pcbs parent).syscallArgs 1) (s₂.pcbs r).returnValue = s₅
    at hm₂ hrep
  have hpcbs : s₅.pcbs = s₂.pcbs := hs₅ ▸ storeResult_pcbs
  have hpu : Effects dsosCallExit r s (purgeTimers s₅ r) :=
    hrep.tail (.purge rfl (by rw [hpcbs]; exact hz₂))
  have hst : ∀ q, (s₃.pcbs q).status = (s₂.pcbs q).status := fun q => by
    rw [hm₂.status]
    exact congrArg (fun f : PcbRef → PCB => (f q).status) hpcbs
  have hpar : (s₃.pcbs r).parent = some parent := by
    rw [hm₂.parent]
    refine (congrArg (fun f : PcbRef → PCB => (f r).parent) hpcbs).trans ?_
    rw [hm.parent]
    simp [hd.parent, hp]
  refine ((hpu.tail (.minor hm₂)).tail (.free (.inr ⟨rfl, rfl⟩) ((hst r).trans hz₂))).tail
    (.switch rfl hpar ?_)
  refine (hst parent).trans ?_
  rw [hm.status]
  simp

/-- **`exit`**, in pieces. -/
theorem exit_parts (h : internalExit s = .ok s') : ∃ s₁ s₂ parent,
    reparentChildren ((s.pcbs s.running).children.length + 1)
      (s.updPcb s.running fun pcb => { pcb with returnValue := pcb.syscallArgs 0 }) = .ok s₁ ∧
    (s₁.setStatus s.running .zombie).listInsertLast .zombie s.running = .ok s₂ ∧
    (s₂.pcbs s.running).parent = some parent ∧
    (waitsFor (s₂.signal parent dsosSigchld) parent
        ((s₂.signal parent dsosSigchld).pcbs s.running).pid ∧
      exitToParent (s₂.signal parent dsosSigchld) s.running parent = .ok s' ∨
        Yields (s₂.signal parent dsosSigchld) s') := by
  unfold internalExit at h
  dsimp only at h
  obtain ⟨s₁, h₁, h⟩ := bind_eq_ok.1 h
  obtain ⟨s₂, h₂, h⟩ := bind_eq_ok.1 h
  have hlen : ∀ q, ((s.updPcb s.running fun pcb =>
      { pcb with returnValue := pcb.syscallArgs 0 }).pcbs q).children.length =
        (s.pcbs q).children.length := by simp
  rw [hlen] at h₁
  split at h
  · cases h
  rename_i parent hp
  refine ⟨s₁, s₂, parent, h₁, h₂, hp, ?_⟩
  split at h
  · rename_i hw
    exact .inl ⟨hw, h⟩
  · obtain ⟨⟨p, s₄⟩, h₄, h⟩ := bind_eq_ok.1 h
    obtain ⟨ps, hL, rfl⟩ := listDetachFirst_cases h₄
    cases h
    exact .inr ⟨p, ps, hL, rfl⟩

theorem exit_effects (hn : (s.pcbs s.running).syscallNum = dsosCallExit)
    (h : internalExit s = .ok s') : Effects dsosCallExit s.running s s' := by
  obtain ⟨s₁, s₂, parent, h₁, h₂, hp, hor⟩ := exit_parts h
  obtain ⟨hr, -, hrv⟩ := reparentChildren_effects (r := s.running) _ h₁
  have hv : Effects dsosCallExit s.running s s₁ := .head (.value rfl) hr
  have hsaved := hv.saved s.running
  have hz : Effects dsosCallExit s.running s (s₁.setStatus s.running .zombie) := by
    refine hv.tail (.retire rfl (hsaved.1.trans hn) ?_)
    rw [hrv, hsaved.2]
    simp
  have hi := hz.tail (.minor (.listInsert (.inr rfl) h₂))
  have hs := hi.tail (.signal parent rfl (.inr ⟨rfl, hp⟩))
  rcases hor with ⟨hw, h⟩ | ⟨p, ps, hL, rfl⟩
  · exact hs.trans (exitToParent_effects (by simpa using hp) hw
      (by simp [listInsert_pcbs h₂]) h)
  · exact hs.tail (.yield (.inr (.inr rfl)) hL)

/-- **`sleep`** sets a timer, and ends with the scheduler. -/
def Dozes (s s' : State) : Prop :=
  ∃ b pool s₁, s.timerPool.get = some (b, pool) ∧
    Minor ((dozed s b pool).setStatus s.running .waiting) s₁ ∧ internalSchedule s₁ = .ok s'

theorem sleep_effects (h : internalSleep s = .ok s') :
    ((s.pcbs s.running).timer.isSome ∨ s.timerPool.get = none) ∧ Minor s s' ∨
      (s.pcbs s.running).timer.isSome = false ∧ Dozes s s' := by
  unfold internalSleep at h
  dsimp only at h
  split at h
  · rename_i ht
    cases h
    exact .inl ⟨.inl ht, .setRetvalue _ _ _⟩
  rename_i ht
  unfold timerListAdd at h
  cases hg : s.timerPool.get with
  | none =>
    rw [hg] at h
    cases h
    exact .inl ⟨.inr rfl, .setRetvalue _ _ _⟩
  | some x =>
  obtain ⟨b, pool⟩ := x
  rw [hg] at h
  dsimp only at h
  obtain ⟨s₂, h₂, h⟩ := bind_eq_ok.1 h
  have hu : Minor (dozed s b pool) _ := (Minor.setTimer _ s.running (some b)).trans
    (.setRetvalue _ s.running 0)
  have hm := (hu.setStatus s.running .waiting).trans ((Minor.setTimer _ s.running (some b)).trans
    (.listInsert (.inl rfl) h₂))
  exact .inr ⟨by simpa using ht, b, pool, s₂, hg, hm, h⟩

theorem Dozes.effects (h : Dozes s s') : ∃ b pool, s.timerPool.get = some (b, pool) ∧
    Effects dsosCallSleep s.running (dozed s b pool) s' := by
  obtain ⟨b, pool, s₁, hg, hm, hsch⟩ := h
  have hb : Effects dsosCallSleep s.running (dozed s b pool) s₁ :=
    (ReflTransGen.single (.block (.inl rfl))).tail (.minor hm)
  exact ⟨b, pool, hg, hb.trans (schedule_effects (.inr (.inl rfl)) hm.running hsch)⟩

/-! ## Steps -/

/-- **Every syscall** is a sequence of effects, or a `sleep` that sets a timer. -/
theorem syscall_effects {c : Syscall} (h : step s (.syscall c) = .ok s') :
    Effects c.num s.running (saveCall s c) s' ∨ (∃ n, c = .sleep n) ∧ Dozes (saveCall s c) s' := by
  have hn : ((saveCall s c).pcbs (saveCall s c).running).syscallNum = c.num := by
    simp [saveCall]
  cases c with
  | preempt => exact .inl (schedule_effects (.inl rfl) rfl ((step_syscall rfl).symm.trans h))
  | fork => exact .inl (fork_effects ((step_syscall rfl).symm.trans h))
  | wait _ _ => exact .inl (wait_effects hn ((step_syscall rfl).symm.trans h))
  | exit _ => exact .inl (exit_effects hn ((step_syscall rfl).symm.trans h))
  | spawn _ _ => exact .inl (spawn_effects ((step_syscall rfl).symm.trans h))
  | sleep n =>
    exact (sleep_effects ((step_syscall rfl).symm.trans h)).imp (fun h => h.2.effects) fun h =>
      ⟨⟨n, rfl⟩, h.2⟩
  | openResource _ _ _ =>
    exact .inl (Minor.openResource ((step_syscall rfl).symm.trans h)).effects
  | closeResource _ => exact .inl (Minor.closeResource ((step_syscall rfl).symm.trans h)).effects
  | destroyResource _ =>
    exact .inl (Minor.destroyResource ((step_syscall rfl).symm.trans h)).effects
  | mqCreate _ _ => exact .inl (mqCreate_effects ((step_syscall rfl).symm.trans h))
  | mqSend _ _ _ => exact .inl (mqSend_effects hn ((step_syscall rfl).symm.trans h))
  | mqReceive _ _ _ => exact .inl (mqReceive_effects hn ((step_syscall rfl).symm.trans h))
  | mqDestroy _ => exact .inl (mqDestroy_effects ((step_syscall rfl).symm.trans h))
  | shutdown => cases (step_syscall (f := fun _ => .error .shutdown) rfl).symm.trans h

/-- A tick is the scheduler's work. -/
theorem tick_effects (h : step s .tick = .ok s') :
    Effects dsosCallPreempt s.running { s with time := s.time + 1 } s' :=
  schedule_effects (.inl rfl) rfl h

/-- An invariant kept by every effect is kept by every sequence of them. -/
theorem Effects.inv {I : State → Prop} (hI : ∀ {s s'}, Effect n r s s' → I s → I s')
    (h : Effects n r s s') (hs : I s) : I s' := by
  induction h with
  | refl => exact hs
  | tail _ he ih => exact hI he ih

/-- **An invariant of any run**, kept by effects, by setting a timer and by what happens between. -/
theorem step_effects {I : State → Prop} {e : Event}
    (hI : ∀ {n r s s'}, Effect n r s s' → I s → I s')
    (hdoze : ∀ {s b pool}, s.timerPool.get = some (b, pool) → I s → I (dozed s b pool))
    (hsave : ∀ c, e = .syscall c → I (saveCall s c))
    (htick : e = .tick → I { s with time := s.time + 1 })
    (hstore : ∀ addr bytes, e = .store addr bytes →
      I { s with mem := memWrite s.mem addr bytes })
    (h : step s e = .ok s') : I s' := by
  cases e with
  | tick => exact Effects.inv hI (tick_effects h) (htick rfl)
  | store addr bytes =>
    cases h
    exact hstore addr bytes rfl
  | syscall c =>
    rcases syscall_effects h with he | ⟨-, hd⟩
    · exact Effects.inv hI he (hsave c rfl)
    · obtain ⟨b, pool, hg, he⟩ := hd.effects
      exact Effects.inv hI he (hdoze hg (hsave c rfl))

end

end DisastrOS
