import DisastrOS.Proof.Receive

/-!
# `mq_create` and `mq_destroy`

A creation takes a block of the queue pool and appends it to `resources_list` (`mqCreate_spec`). A
destruction wakes everybody who waits on the queue, frees its messages and gives the block back
(`mqDestroy_spec`).
-/

namespace DisastrOS

open Lib State

section
variable {s s₀ s' : State} {a : Channels} {q : QueueRef} {id size : Int} {ch : Chan}
  {p caller : PcbRef} {ps : List PcbRef} {B : List Nat} {pool : Pool}

/-! ## Creation -/

/-- A queue that is not live has nobody on its lists. -/
theorem Queues.dead (h : Queues s B) (hq : q ∉ s.live) :
    (s.queues q).waitingReceivers = [] ∧ (s.queues q).waitingSenders = [] := by
  constructor
  · by_contra hne
    obtain ⟨p, ps, hp⟩ := List.exists_cons_of_ne_nil hne
    exact hq (h.receivers q p (by simp [hp])).1
  · by_contra hne
    obtain ⟨p, ps, hp⟩ := List.exists_cons_of_ne_nil hne
    exact hq (h.senders q p (by simp [hp])).1

/-- The queue that `MessageQueue_alloc` builds. -/
def newQueue (id size : Int) : MessageQueue :=
  { resource := ⟨id, resourceMessageQueue, 0, []⟩
    messages := [], waitingReceivers := [], waitingSenders := [],
    maxMessages := size, currentMessages := 0, queueId := id, status := .open }

/-- The state with the new queue `q` at the end of the list. -/
def created (s : State) (q : QueueRef) (pool : Pool) (id size : Int) : State :=
  { s with
    queuePool := pool
    queues := fun i => if i = q then newQueue id size else s.queues i
    resourcesList := s.resourcesList ++ [.queue q] }

theorem created_live : (created s q pool id size).live = s.live ++ [q] := by
  simp [State.live, queueRefs, created]

theorem created_list (h : Queues s B) (hq : q ∉ s.live) (L : PcbList) :
    (created s q pool id size).list L = s.list L := by
  obtain ⟨h1, h2⟩ := h.dead hq
  cases L with
  | receivers i => by_cases hi : i = q <;> simp [State.list, created, newQueue, hi, h1]
  | senders i => by_cases hi : i = q <;> simp [State.list, created, newQueue, hi, h2]
  | _ => rfl

theorem created_queues (h : Queues s B) (hg : s.queuePool.get = some (q, pool)) (hid : 0 < id)
    (hpos : 0 < size) (hmax : size ≤ maxMessagesPerQueue) (hfresh : s.queueById id = none) :
    Queues (created s q pool id size) B := by
  have hq : q ∉ s.live := h.pool.not_mem_get hg
  have hold : ∀ i ∈ s.live, (created s q pool id size).queues i = s.queues i := by
    intro i hi
    have : i ≠ q := fun e => hq (e ▸ hi)
    simp [created, this]
  have hnew : (created s q pool id size).queues q = newQueue id size := by simp [created]
  refine ⟨?_, ?_, ?_, ?_, fun i hi => ?_, ?_, h.messageSize, fun i p hp => ?_, fun i p hp => ?_⟩
  · rw [created_live, List.map_append, ← h.only]
    rfl
  · rw [created_live]
    exact (h.pool.get hg).perm (List.perm_append_singleton q s.live).symm
  · exact (Pool.get_eq hg).2.trans h.poolSize
  · rw [created_live, List.map_append, List.map_congr_left fun i hi => by rw [hold i hi]]
    refine List.Nodup.append h.ids (by simp) fun x hx hx' => ?_
    obtain ⟨i, hi, rfl⟩ := List.mem_map.1 hx
    rw [List.map_singleton, hnew, List.mem_singleton] at hx'
    exact Queues.queueById_eq_none.1 hfresh i hi hx'
  · rw [created_live, List.mem_append, List.mem_singleton] at hi
    rcases hi with hi | rfl
    · rw [hold i hi]
      exact h.ok i hi
    · rw [hnew]
      exact ⟨rfl, rfl, hid, rfl, rfl, hpos, hmax, by simp [newQueue]; omega⟩
  · have hflat : (s.live ++ [q]).flatMap (fun i => ((created s q pool id size).queues i).blocks) =
        s.live.flatMap fun i => (s.queues i).blocks := by
      rw [List.flatMap_append, List.flatMap_def, List.map_congr_left fun i hi => by rw [hold i hi],
        ← List.flatMap_def]
      simp [hnew, newQueue, MessageQueue.blocks]
    rw [created_live, hflat]
    exact h.messages
  · have hp' : p ∈ (created s q pool id size).list (.receivers i) := hp
    rw [created_list h hq] at hp'
    obtain ⟨h1, h2⟩ := h.receivers i p hp'
    rw [created_live, hold i h1]
    exact ⟨List.mem_append_left _ h1, h2⟩
  · have hp' : p ∈ (created s q pool id size).list (.senders i) := hp
    rw [created_list h hq] at hp'
    obtain ⟨h1, h2⟩ := h.senders i p hp'
    rw [created_live, hold i h1]
    exact ⟨List.mem_append_left _ h1, h2⟩

/-- The new queue, and no other, has the new id. -/
theorem created_channels (h : Queues s B) (hg : s.queuePool.get = some (q, pool))
    (hfresh : s.queueById id = none) :
    (created s q pool id size).channels =
      s.channels.setChan id (some ⟨size.toNat, [], [], []⟩) := by
  have hq : q ∉ s.live := h.pool.not_mem_get hg
  have hchan : ∀ i, i ≠ q → (created s q pool id size).channel i = s.channel i := fun i hi =>
    channel_congr (by simp [created, hi]) fun _ _ _ => rfl
  have hby : ∀ i, (created s q pool id size).queueById i =
      if i = id then some q else s.queueById i := by
    intro i
    unfold State.queueById
    rw [created_live, List.find?_append]
    have h1 : s.live.find? (fun j => ((created s q pool id size).queues j).queueId = i) =
        s.live.find? fun j => (s.queues j).queueId = i := by
      refine List.find?_congr fun j hj => ?_
      have : j ≠ q := fun e => hq (e ▸ hj)
      simp [created, this]
    rw [h1]
    by_cases hi : i = id
    · subst hi
      have h2 : (s.live.find? fun j => (s.queues j).queueId = i) = none := hfresh
      rw [h2, if_pos rfl]
      simp [created, newQueue]
    · have h2 : ¬ ((created s q pool id size).queues q).queueId = i := by
        simpa [created, newQueue] using Ne.symm hi
      rw [if_neg hi]
      simp [h2]
  unfold State.channels Channels.setChan
  simp only [hby]
  have : (fun i => Option.map (created s q pool id size).channel
      (if i = id then some q else s.queueById i)) = fun i =>
      if i = id then some ⟨size.toNat, [], [], []⟩ else (s.queueById i).map s.channel := by
    funext i
    split
    · simp [State.channel, created, newQueue]
    · cases hi : s.queueById i with
      | none => rfl
      | some j =>
        have : j ≠ q := fun e => hq (e ▸ (h.queueById_eq_some.1 hi).1)
        simp [hchan j this]
  rw [this]
  rfl

/-- A creation with valid arguments and a fresh id fails only for lack of a block. -/
theorem internalMqCreate_eq (h : Inv s) (id size : Int)
    (h0 : (s.pcbs s.running).syscallArgs 0 = id)
    (h1 : (s.pcbs s.running).syscallArgs 1 = size) (hid : 0 < id) (hpos : 0 < size)
    (hmax : size ≤ maxMessagesPerQueue) (hfresh : s.queueById id = none) :
    internalMqCreate s = .ok (match s.queuePool.get with
      | none => s.setRetvalue s.running dsosEMqCreate
      | some (q, pool) =>
        ((created s q pool id size).record (.create id)).setRetvalue s.running id) := by
  unfold internalMqCreate
  simp only [h0, h1]
  rw [if_neg (by omega), h.queues.resourceListById_eq, hfresh, if_neg (by simp)]
  unfold messageQueueAlloc
  cases s.queuePool.get with
  | none => rfl
  | some x => rfl

/-- **`mq_create`** returns to user code, keeps the invariant, and does to the channels what a
creation may do. -/
theorem mqCreate_spec (h : Inv s) (id size : Int) :
    ∃ s', internalMqCreate (saveCall s (.mqCreate id size)) = .ok s' ∧ Inv s' ∧
      s.channels.Step (.syscall (.mqCreate id size)) s'.channels := by
  have h1 := h.saveCall (.mqCreate id size)
  have hargs := saveCall_args s (.mqCreate id size)
  have hch := channels_saveCall h.placed (.mqCreate id size)
  have hrefuse := fun r hr => refuse_spec (c := .mqCreate id size) (r := r) h hr trivial
  have hrun := saveCall_running s (.mqCreate id size)
  have hcall : ((saveCall s (.mqCreate id size)).pcbs s.running).call = s.calls := by
    simp [saveCall]
  set t := saveCall s (.mqCreate id size)
  have h0 : (t.pcbs s.running).syscallArgs 0 = id := hargs 0
  have ha1 : (t.pcbs s.running).syscallArgs 1 = size := hargs 1
  by_cases hbad : id ≤ 0 ∨ size ≤ 0 ∨ size > maxMessagesPerQueue
  · unfold internalMqCreate
    simp only [hrun, h0, ha1]
    rw [if_pos hbad]
    exact ⟨_, rfl, hrefuse _ (by decide)⟩
  cases hfresh : t.queueById id with
  | some q =>
    have := (h1.queues.ok q (h1.queues.queueById_eq_some.1 hfresh).1).tag
    unfold internalMqCreate
    simp only [hrun, h0, ha1]
    rw [if_neg hbad, h1.queues.resourceListById_eq, hfresh, if_pos (by simp [State.resource, this])]
    exact ⟨_, rfl, hrefuse _ (by decide)⟩
  | none =>
    have hid : 0 < id := by omega
    have hpos : 0 < size := by omega
    have hmax : size ≤ maxMessagesPerQueue := by omega
    rw [internalMqCreate_eq h1 id size (hrun ▸ h0) (hrun ▸ ha1) hid hpos hmax hfresh]
    cases hg : t.queuePool.get with
    | none => exact ⟨_, rfl, hrefuse _ (by decide)⟩
    | some x =>
      obtain ⟨q, pool⟩ := x
      have h2 := created_queues h1.queues hg hid hpos hmax hfresh
      have h3 : (created t q pool id size).channels = _ := created_channels h1.queues hg hfresh
      have hq : q ∉ t.live := h1.queues.pool.not_mem_get hg
      set u := created t q pool id size with hu
      have h4 : Consistent u [s.running] [] :=
        h1.toConsistent.messages [] h2 (created_list h1.queues hq) rfl rfl rfl rfl rfl rfl
          (by simp [hu, created]) (by simp) (by simp)
      have h5 := (h4.record (a := .create id) (by simp) (by simp)).setRetvalue s.running id
      refine ⟨(u.record (.create id)).setRetvalue s.running id, rfl, ⟨?_, ?_, ?_⟩, ?_⟩
      · rw [setRetvalue_running, record_running, show u.running = s.running from hrun]
        exact h5
      · have := h1.status
        simpa [hu, created, hrun] using this
      · intro i hi
        have hi' : i ∈ t.live ++ [q] := by
          have h6 : u.live = t.live ++ [q] := created_live
          rw [← h6]
          exact hi
        rcases List.mem_append.1 hi' with hi' | hi'
        · have hne : i ≠ q := fun e => hq (e ▸ hi')
          have hci : ((u.record (.create id)).setRetvalue s.running id).channel i = t.channel i :=
            channel_congr (by simp [hu, created, hne]) fun _ _ _ => by simp [State.request, hu, created]
          rw [hci]
          simpa [hu, created, hne] using h1.idle i hi'
        · rw [List.mem_singleton] at hi'
          simp [hu, created, hi', newQueue, State.channel]
      · rw [channels_setRetvalue]
        have h6 : (u.record (.create id)).channels = u.channels.log [.create id] :=
          channels_congr _ rfl rfl (fun _ _ _ => rfl) rfl rfl rfl
        have h7 : ((u.record (.create id)).pcbs s.running).call = s.calls := hcall
        rw [h6, h3, hch, h7, Channels.log_log]
        have hnone : s.channels.chan id = none := by
          have := congrArg (fun a => Channels.chan a id) hch
          rw [channels_chan, hfresh] at this
          exact this.symm
        have hstep : ChanStep s.calls s.running id s.channels.mem (.mqCreate id size)
            (s.channels.chan id) [.create id, .retval s.calls id]
            (some ⟨size.toNat, [], [], []⟩) s.channels.mem := by
          rw [hnone]
          exact .create size hpos hmax
        exact .call (a := s.channels) s.running _ id _ _ _ hid hstep

/-! ## Destruction -/

/-- The channel with other blocked requests on the side of `L`. -/
def withWaiting (ch : Chan) (L : PcbList) (rs : List Request) : Chan :=
  match L with
  | .receivers _ => { ch with receivers := rs }
  | _ => { ch with senders := rs }

theorem At.setWaiting {L : PcbList} (h : At s₀ s a id q ch) (hs : Queues s B)
    (hL : L = .receivers q ∨ L = .senders q) (ps : List PcbRef) :
    At s₀ (s.setList L ps) a id q (withWaiting ch L (ps.map s₀.request)) := by
  rcases hL with rfl | rfl
  · exact h.setReceivers hs ps
  · exact h.setSenders hs ps

/-- Everybody on a waiting list of the queue becomes ready, with an error. -/
theorem wakeAll_spec {L : PcbList} (hL : L = .receivers q ∨ L = .senders q) :
    ∀ (ps : List PcbRef) {s : State} {a : Channels} {ch : Chan}, Consistent s [caller] B →
      At s₀ s a id q ch → s.list L = ps →
      ∃ s', wakeAll L ps s = .ok s' ∧ Consistent s' [caller] B ∧
        At s₀ s' (a.log (ps.map fun p => .retval (s₀.request p).call dsosEMqNotOpen)) id q
          (withWaiting ch L []) ∧
        s'.list L = [] ∧ (∀ L', L' ≠ L → L' ≠ .ready → s'.list L' = s.list L') ∧
        (s'.pcbs caller).status = (s.pcbs caller).status
  | [], s, a, ch, h, ha, hps => by
    have hsame : s.setList L [] = s := by rw [← hps, setList_same]
    have a1 := ha.setWaiting h.queues hL []
    rw [hsame] at a1
    exact ⟨s, rfl, h, by simpa using a1, hps, fun _ _ _ => rfl, rfl⟩
  | p :: ps, s, a, ch, h, ha, hps => by
    have hne : p ≠ caller := by
      rintro rfl
      exact h.placed.not_held (L := L) (p := p) (by simp [hps]) (by simp)
    have hw : L ≠ .waiting ∧ L ≠ .zombie ∧ L ≠ .ready := by rcases hL with rfl | rfl <;> simp
    obtain ⟨h1, h2⟩ := h.detachFirst hps hw.1 hw.2.1
    have a2 := ha.setWaiting h.queues hL ps
    set s₂ := s.setList L ps with hs₂
    have h3 := h2.setStatus (p := p) (by simp) .ready
    have a3 := a2.setStatus h2.queues p .ready
    have h4 := h3.setRetvalue p dsosEMqNotOpen
    have a4 := a3.setRetvalue h3.queues p dsosEMqNotOpen
    rw [a3.request] at a4
    obtain ⟨h5, h6⟩ := h4.insertReady (by simpa using hne) (by simp)
    have a6 := a4.setReady h4.queues
      (((s₂.setStatus p .ready).setRetvalue p dsosEMqNotOpen).readyList ++ [p])
    set s₄ := (s₂.setStatus p .ready).setRetvalue p dsosEMqNotOpen with hs₄
    have hl4 : ∀ L', s₄.list L' = s₂.list L' := by simp [hs₄]
    obtain ⟨s', h7, h8, h9, h10, h11, h12⟩ := wakeAll_spec hL ps h6 a6 (by
      rw [list_setList_of_ne hw.2.2, hl4, hs₂, list_setList_self])
    refine ⟨s', ?_, h8, ?_, h10, fun L' h' hr => ?_, ?_⟩
    · rw [wakeAll, h1]
      simp only [ok_bind, ← hs₄, h5]
      exact h7
    · have hch : withWaiting (withWaiting ch L (ps.map s₀.request)) L [] = withWaiting ch L [] := by
        rcases hL with rfl | rfl <;> rfl
      rw [hch] at h9
      simpa using h9
    · rw [h11 L' h' hr, list_setList_of_ne hr, hl4, hs₂, list_setList_of_ne h']
    · rw [h12]
      simp [hs₄, hs₂, Ne.symm hne]

/-- The state after the messages of queue `q` are freed. -/
def drained (s : State) (q : QueueRef) : State :=
  { s with
    queues := fun i => if i = q then { s.queues i with messages := [] } else s.queues i
    messagePool := (s.queues q).blocks.foldl Pool.release s.messagePool
    history := s.history ++ (s.queues q).messages.map (.discard (s.queues q).queueId) }

theorem freeMessages_eq : ∀ (ms : List Message) {s : State}, (s.queues q).messages = ms →
    freeMessages q ms s = drained s q
  | [], s, h => by
    have : (fun i => if i = q then { s.queues i with messages := [] } else s.queues i) =
        s.queues := by
      funext i
      split
      · subst i
        rw [← h]
      · rfl
    simp [freeMessages, drained, this, h, MessageQueue.blocks]
  | m :: ms, s, h => by
    rw [freeMessages, freeMessages_eq ms (by simp [messageFree])]
    simp only [drained, messageFree, MessageQueue.blocks, record_queues, updQueue_queues, h]
    congr 1
    · funext i
      split <;> rfl
    · simp

/-- The state after queue `q`, which has nobody on its lists, is gone. -/
def destroyed (s : State) (q : QueueRef) : State :=
  { s with
    queues := fun i =>
      if i = q then { s.queues i with messages := [], status := .closed } else s.queues i
    messagePool := (s.queues q).blocks.foldl Pool.release s.messagePool
    resourcesList := s.resourcesList.erase (.queue q)
    queuePool := s.queuePool.release q
    history := s.history ++ (s.queues q).messages.map (.discard (s.queues q).queueId) }

/-- The end of a destruction, which a queue with a descriptor does not survive. -/
theorem freeQueue_eq (hmem : ResourceRef.queue q ∈ s.resourcesList)
    (hr : (s.queues q).waitingReceivers = []) (hs : (s.queues q).waitingSenders = []) :
    (do
      let s ← detachResource (setMqStatus (freeMessages q (s.queues q).messages s) q .closed)
        (.queue q)
      messageQueueFree s q) =
      if (s.queues q).resource.descriptorsPtrs = [] then .ok (destroyed s q)
      else .error .assertion := by
  rw [freeMessages_eq _ rfl]
  have hqueues : (fun i => if i = q then
      { if i = q then { s.queues i with messages := [] } else s.queues i with status := .closed }
      else if i = q then { s.queues i with messages := [] } else s.queues i) =
      (destroyed s q).queues := by
    funext i
    by_cases hi : i = q <;> simp [destroyed, hi]
  simp only [detachResource, setMqStatus, State.updQueue, drained, hmem, if_true, ok_bind]
  rw [hqueues]
  by_cases hrefs : (s.queues q).resource.descriptorsPtrs = []
  · simp [messageQueueFree, destroyed, hr, hs, hrefs]
  · simp [messageQueueFree, destroyed, hrefs]

theorem destroyed_eq (h : Queues s B) (hq : q ∈ s.live) (hr : (s.queues q).waitingReceivers = [])
    (hs : (s.queues q).waitingSenders = []) :
    (do
      let s ← detachResource (setMqStatus (freeMessages q (s.queues q).messages s) q .closed)
        (.queue q)
      messageQueueFree s q) = .ok (destroyed s q) := by
  have hmem : ResourceRef.queue q ∈ s.resourcesList := by
    rw [h.only]
    exact List.mem_map_of_mem hq
  rw [freeQueue_eq hmem hr hs, if_pos (h.ok q hq).refs]

theorem queueRefs_map (qs : List QueueRef) : queueRefs (qs.map .queue) = qs := by
  simp [queueRefs, List.filterMap_map]

theorem destroyed_resources (h : Queues s B) :
    (destroyed s q).resourcesList = (s.live.erase q).map .queue := by
  rw [List.map_erase (fun _ _ e => ResourceRef.queue.inj e), ← h.only]
  rfl

theorem destroyed_live (h : Queues s B) : (destroyed s q).live = s.live.erase q := by
  unfold State.live
  rw [destroyed_resources h, queueRefs_map]
  rfl

theorem destroyed_list (L : PcbList) : (destroyed s q).list L = s.list L := by
  cases L with
  | receivers i => by_cases hi : i = q <;> simp [State.list, destroyed, hi]
  | senders i => by_cases hi : i = q <;> simp [State.list, destroyed, hi]
  | _ => rfl

theorem destroyed_queues_of_ne {i : QueueRef} (hi : i ≠ q) :
    (destroyed s q).queues i = s.queues i := by simp [destroyed, hi]

theorem destroyed_queues (h : Queues s []) (hq : q ∈ s.live)
    (hr : (s.queues q).waitingReceivers = []) (hs : (s.queues q).waitingSenders = []) :
    Queues (destroyed s q) [] := by
  have hne : ∀ i ∈ s.live.erase q, i ≠ q := by
    rintro i hi rfl
    exact h.nodup.not_mem_erase hi
  have hold : ∀ i ∈ s.live.erase q, (destroyed s q).queues i = s.queues i :=
    fun i hi => destroyed_queues_of_ne (hne i hi)
  have hsub : ∀ i ∈ s.live.erase q, i ∈ s.live := fun i => List.mem_of_mem_erase
  have hl := destroyed_live (q := q) h
  refine ⟨?_, ?_, ?_, ?_, fun i hi => ?_, ?_, ?_, fun i p hp => ?_, fun i p hp => ?_⟩
  · rw [destroyed_resources h, hl]
  · rw [hl]
    exact h.pool.release hq
  · simpa [destroyed] using h.poolSize
  · rw [hl, List.map_congr_left fun i hi => by rw [hold i hi]]
    exact h.ids.sublist (List.erase_sublist.map _)
  · rw [hl] at hi
    rw [hold i hi]
    exact h.ok i (hsub i hi)
  · have hflat : (s.live.erase q).flatMap (fun i => ((destroyed s q).queues i).blocks) =
        (s.live.erase q).flatMap fun i => (s.queues i).blocks := by
      rw [List.flatMap_def, List.map_congr_left fun i hi => by rw [hold i hi], ← List.flatMap_def]
    rw [hl, hflat]
    refine Pool.Owns.release_all (h.messages.perm ?_)
    exact flatMap_perm_erase hq _
  · have : ∀ (bs : List Nat) (a : Pool), (bs.foldl Pool.release a).sizeMax = a.sizeMax := by
      intro bs
      induction bs with
      | nil => exact fun _ => rfl
      | cons b bs ih => exact fun a => (ih _).trans Pool.release_sizeMax
    exact (this _ _).trans h.messageSize
  · rw [hl]
    by_cases hi : i = q
    · subst hi
      have : p ∈ s.list (.receivers i) := destroyed_list (s := s) (.receivers i) ▸ hp
      simp [State.list, hr] at this
    · rw [destroyed_queues_of_ne hi] at hp ⊢
      have h1 := h.receivers i p hp
      exact ⟨(List.mem_erase_of_ne hi).2 h1.1, h1.2⟩
  · rw [hl]
    by_cases hi : i = q
    · subst hi
      have : p ∈ s.list (.senders i) := destroyed_list (s := s) (.senders i) ▸ hp
      simp [State.list, hs] at this
    · rw [destroyed_queues_of_ne hi] at hp ⊢
      have h1 := h.senders i p hp
      exact ⟨(List.mem_erase_of_ne hi).2 h1.1, h1.2⟩

/-- The id of the queue names no channel any more. -/
theorem destroyed_channels (h : Queues s B) (hq : s.queueById id = some q) :
    (destroyed s q).channels =
      (s.channels.log ((s.queues q).messages.map (.discard id))).setChan id none := by
  obtain ⟨hlive, hid⟩ := h.queueById_eq_some.1 hq
  have hchan : ∀ i, i ≠ q → (destroyed s q).channel i = s.channel i := fun i hi =>
    channel_congr (destroyed_queues_of_ne hi) fun _ _ _ => rfl
  have hby : ∀ i, (destroyed s q).queueById i = if i = id then none else s.queueById i := by
    intro i
    have hids : ∀ j, ((destroyed s q).queues j).queueId = (s.queues j).queueId := by
      intro j
      by_cases hj : j = q <;> simp [destroyed, hj]
    unfold State.queueById
    simp only [destroyed_live h, hids]
    split
    · subst i
      rw [List.find?_eq_none]
      intro j hj hje
      have hjq : s.queueById id = some j :=
        h.queueById_eq_some.2 ⟨List.mem_of_mem_erase hj, of_decide_eq_true hje⟩
      rw [hq, Option.some.injEq] at hjq
      exact h.nodup.not_mem_erase (hjq ▸ hj)
    · rename_i hi
      cases hf : s.live.find? fun j => (s.queues j).queueId = i with
      | none =>
        rw [List.find?_eq_none] at hf ⊢
        exact fun j hj => hf j (List.mem_of_mem_erase hj)
      | some j =>
        obtain ⟨hj, hje⟩ := (find?_key_eq_some h.ids).1 hf
        have hne : j ≠ q := fun e => hi (by rw [← hje, e, hid])
        refine (find?_key_eq_some (h.ids.sublist (List.erase_sublist.map _))).2
          ⟨(List.mem_erase_of_ne hne).2 hj, hje⟩
  unfold State.channels Channels.setChan Channels.log
  have hc : (fun i => ((destroyed s q).queueById i).map (destroyed s q).channel) =
      fun i => if i = id then none else (s.queueById i).map s.channel := by
    funext i
    rw [hby]
    split
    · rfl
    · rename_i hi
      cases hi' : s.queueById i with
      | none => rfl
      | some j =>
        have hne : j ≠ q := by
          rintro rfl
          exact hi ((h.queueById_eq_some.1 hi').2.symm.trans hid)
        simp only [Option.map_some, hchan j hne]
  rw [hc]
  simp [destroyed, hid]

/-- The status of a queue is nothing that the channels or the invariant inside a call show. -/
theorem Consistent.setMqStatus (h : Consistent s ps B) (hq : q ∈ s.live) (st : MQStatus) :
    Consistent (setMqStatus s q st) ps B ∧ (setMqStatus s q st).channels = s.channels := by
  constructor
  · obtain ⟨h1, h2, h3, h4, h5, h6, h7, h8⟩ := h.queues.ok q hq
    have h9 : Queues (DisastrOS.setMqStatus s q st) B :=
      h.queues.updQueue B hq ⟨h1, h2, h3, h4, h5, h6, h7, h8⟩ rfl rfl rfl (.refl _)
    exact h.messages [] h9 (fun L => by cases L <;> simp [DisastrOS.setMqStatus, State.list]) rfl rfl
      rfl rfl rfl rfl (by simp [DisastrOS.setMqStatus]) (by simp) (by simp)
  · have hch : (DisastrOS.setMqStatus s q st).channel = s.channel := by
      funext i
      simp only [State.channel, DisastrOS.setMqStatus, updQueue_queues]
      split <;> rfl
    have hby : ∀ i, (DisastrOS.setMqStatus s q st).queueById i = s.queueById i := fun i =>
      queueById_congr rfl fun j => by simp [DisastrOS.setMqStatus]
    unfold State.channels
    simp only [hch, hby]
    rfl

/-- The destruction proper, of a queue that is there. -/
theorem destroyQueue_spec (h : Inv s) (hq : s.queueById id = some q) :
    ∃ s', (do
        let s := setMqStatus s q .closing
        let s ← wakeAll (.receivers q) (s.queues q).waitingReceivers s
        let s ← wakeAll (.senders q) (s.queues q).waitingSenders s
        let s ← detachResource (setMqStatus (freeMessages q (s.queues q).messages s) q .closed)
          (.queue q)
        messageQueueFree s q) = .ok s' ∧
      Consistent s' [s.running] [] ∧ s'.running = s.running ∧
      (s'.pcbs s.running).status = .running ∧ Idle s' ∧ (∀ p, s'.request p = s.request p) ∧
      s'.channels = (s.channels.log
        (((s.channel q).receivers ++ (s.channel q).senders).map
          (fun r => .retval r.call dsosEMqNotOpen) ++
          (s.channel q).contents.map (.discard id))).setChan id none := by
  obtain ⟨hlive, hid⟩ := h.queues.queueById_eq_some.1 hq
  obtain ⟨h1, hch1⟩ := h.toConsistent.setMqStatus hlive .closing
  have hl1 : ∀ L, (setMqStatus s q .closing).list L = s.list L := fun L => by
    cases L <;> simp [setMqStatus, State.list]
  have a1 : At (setMqStatus s q .closing) (setMqStatus s q .closing) s.channels id q
      (s.channel q) := by
    have hby : (setMqStatus s q .closing).queueById id = some q := by
      refine Eq.trans (queueById_congr ?_ fun j => ?_) hq
      · rfl
      · simp [setMqStatus]
    have hch : (setMqStatus s q .closing).channel q = s.channel q := by
      simp [State.channel, setMqStatus, State.request]
    exact hch ▸ hch1 ▸ At.start hby
  have hreq : (setMqStatus s q .closing).request = s.request := rfl
  have hst1 : ((setMqStatus s q .closing).pcbs s.running).status = .running := h.status
  have hrun1 : (setMqStatus s q .closing).running = s.running := rfl
  have hlive1 : (setMqStatus s q .closing).live = s.live := rfl
  have hold1 : ∀ i, i ≠ q → (setMqStatus s q .closing).queues i = s.queues i := fun i hi => by
    simp [setMqStatus, hi]
  set u := setMqStatus s q .closing
  -- the waiting processes
  obtain ⟨s₁, h2, h3, a3, hl3, hl3', hst3⟩ := wakeAll_spec (.inl rfl)
    (u.queues q).waitingReceivers h1 a1 rfl
  obtain ⟨s₂, h4, h5, a5, hl5, hl5', hst5⟩ := wakeAll_spec (.inr rfl)
    (s₁.queues q).waitingSenders h3 a3 rfl
  have hr5 : (s₂.queues q).waitingReceivers = [] :=
    (hl5' (.receivers q) (by simp) (by simp)).trans hl3
  have hs3 : (s₁.queues q).waitingSenders = (s.queues q).waitingSenders :=
    (hl3' (.senders q) (by simp) (by simp)).trans (hl1 (.senders q))
  have hr1 : (u.queues q).waitingReceivers = (s.queues q).waitingReceivers := hl1 (.receivers q)
  -- the messages and the queue
  have hlive5 := (a5.mem_live h5.queues).1
  have h6 := destroyed_eq h5.queues hlive5 hr5 hl5
  have h7 : Consistent (destroyed s₂ q) [s.running] [] :=
    h5.messages ((s₂.queues q).messages.map (.discard (s₂.queues q).queueId))
      (destroyed_queues h5.queues hlive5 hr5 hl5) destroyed_list rfl rfl rfl rfl rfl rfl rfl
      (by simp) (by simp)
  refine ⟨destroyed s₂ q, ?_, h7, a5.running.trans hrun1, ?_, fun i hi => ?_, ?_, ?_⟩
  · simp only [← h6, h2, h4, ok_bind]
  · change (s₂.pcbs s.running).status = .running
    rw [hst5, hst3, hst1]
  · rw [destroyed_live h5.queues, a5.live, hlive1] at hi
    have hne : i ≠ q := by
      rintro rfl
      exact h.queues.nodup.not_mem_erase hi
    have hch : (destroyed s₂ q).channel i = s.channel i := by
      refine (channel_congr (destroyed_queues_of_ne hne) fun _ _ _ => rfl).trans ?_
      rw [a5.other i hne]
      exact channel_congr (hold1 i hne) fun _ _ _ => rfl
    rw [hch, destroyed_queues_of_ne hne, a5.status, hold1 i hne]
    exact h.idle i (List.mem_of_mem_erase hi)
  · exact fun p => (a5.request p).trans (congrFun hreq p)
  · have hm : (s₂.queues q).messages = (s.channel q).contents := congrArg Channel.contents a5.channel
    rw [destroyed_channels h5.queues a5.lookup, a5.channels, hm, hs3, hr1, hreq]
    simp only [Channels.setChan, Channels.log, State.channel, List.map_append, List.map_map,
      Function.comp_def, List.append_assoc]
    congr 1
    funext i
    split <;> rfl

/-- **`mq_destroy`** returns to user code, keeps the invariant, and does to the channels what a
destruction may do. -/
theorem mqDestroy_spec (h : Inv s) (id : Int) :
    ∃ s', internalMqDestroy (saveCall s (.mqDestroy id)) = .ok s' ∧ Inv s' ∧
      s.channels.Step (.syscall (.mqDestroy id)) s'.channels := by
  have h1 := h.saveCall (.mqDestroy id)
  have hargs := saveCall_args s (.mqDestroy id)
  have hch := channels_saveCall h.placed (.mqDestroy id)
  have hrefuse := fun r hr hc => refuse_spec (c := .mqDestroy id) (r := r) h hr hc
  have hrun := saveCall_running s (.mqDestroy id)
  have hcall : ((saveCall s (.mqDestroy id)).request s.running).call = s.calls := by
    simp [saveCall, State.request]
  set t := saveCall s (.mqDestroy id)
  unfold internalMqDestroy
  have h0 : (t.pcbs s.running).syscallArgs 0 = id := hargs 0
  simp only [hrun, h0]
  by_cases hid : id ≤ 0
  · rw [if_pos hid]
    exact ⟨_, rfl, hrefuse _ (by decide) (.inl hid)⟩
  rw [if_neg hid, h1.queues.lookupQueue_eq]
  simp only [ok_bind]
  have hchan : s.channels.chan id = (t.queueById id).map t.channel :=
    (congrArg (fun a => Channels.chan a id) hch).symm
  cases hq : t.queueById id with
  | none =>
    rw [hq] at hchan
    exact ⟨_, rfl, hrefuse _ (by decide) (.inr (by simp [hchan]))⟩
  | some q =>
    rw [hq, Option.map_some] at hchan
    obtain ⟨hlive, hqid⟩ := h1.queues.queueById_eq_some.1 hq
    simp only [(h1.idle q hlive).1, reduceCtorEq, if_false]
    obtain ⟨s', h2, h3, h4, h5, h6, h7, h8⟩ := destroyQueue_spec h1 hq
    rw [hrun] at h3 h4 h5
    have h9 := (h3.record (a := .destroy id) (by simp) (by simp)).setRetvalue s.running id
    refine ⟨(s'.record (.destroy id)).setRetvalue s.running id, ?_,
      ⟨?_, ?_, Idle.setRetvalue (s := s'.record _) h6 _ _⟩, ?_⟩
    · simp only [bind_eq_ok] at h2
      obtain ⟨s₁, e₁, s₂, e₂, s₃, e₃, e₄⟩ := h2
      rw [e₁, ok_bind, e₂, ok_bind, e₃, ok_bind, e₄, ok_bind]
    · simpa [h4] using h9
    · simpa [h4] using h5
    · have hrec : (s'.record (.destroy id)).channels = s'.channels.log [.destroy id] :=
        channels_congr _ rfl rfl (fun _ _ _ => rfl) rfl rfl rfl
      have hcall' : ((s'.record (.destroy id)).pcbs s.running).call = s.calls :=
        (congrArg Request.call (h7 s.running)).trans hcall
      have hstep : ChanStep s.calls s.running id s.channels.mem (.mqDestroy id)
          (s.channels.chan id)
          (((t.channel q).receivers ++ (t.channel q).senders).map
              (fun r => .retval r.call dsosEMqNotOpen) ++
            ((t.channel q).contents.map (.discard id) ++ [.destroy id, .retval s.calls id]))
          none s.channels.mem := by
        rw [hchan]
        exact .destroy (t.channel q)
      have hres := Channels.Step.call (a := s.channels) s.running _ id _ _ _ (by omega) hstep
      rw [channels_setRetvalue, hrec, h8, hcall', hch]
      simpa [Channels.log, Channels.setChan, Channels.setMem, Channels.issue, List.append_assoc]
        using hres

end

end DisastrOS
