import DisastrOS.Proof.Sane

/-!
# What `mq_destroy` does

The two loops over the waiting lists move their processes, in order, behind the ready ones
(`wakeAll_eq`), so that the call takes a state to `demolished`, unless a descriptor is open on the
queue: then it fails an assertion at its end (`internalMqDestroy_eq`, `endsClean_iff`). While only queues
are used there is none, and the id can be given to a new queue afterwards (`mqDestroy_exact`).
-/

namespace DisastrOS

open Lib State

/-- The processes blocked on a queue, receivers first. -/
def waiters (s : State) (q : QueueRef) : List PcbRef :=
  (s.queues q).waitingReceivers ++ (s.queues q).waitingSenders

/-- Everybody on the list, which is one of a queue, is ready, with an error. -/
def roused (s : State) (L : PcbList) : State :=
  { s with
    readyList := s.readyList ++ s.list L
    pcbs := fun p =>
      if p ∈ s.list L then { s.pcbs p with status := .ready, syscallRetvalue := dsosEMqNotOpen }
      else s.pcbs p
    queues := (s.setList L []).queues
    history := s.history ++ (s.list L).map fun p => .retval (s.pcbs p).call dsosEMqNotOpen }

/-- The queue is gone, and those who were blocked on it are ready. -/
def demolished (s : State) (q : QueueRef) : State :=
  { s with
    readyList := s.readyList ++ waiters s q
    resourcesList := s.resourcesList.erase (.queue q)
    pcbs := fun p =>
      if p ∈ waiters s q then { s.pcbs p with status := .ready, syscallRetvalue := dsosEMqNotOpen }
      else s.pcbs p
    queues := fun i =>
      if i = q then { s.queues i with
        messages := [], waitingReceivers := [], waitingSenders := [], status := .closed }
      else s.queues i
    messagePool := (s.queues q).blocks.foldl Pool.release s.messagePool
    queuePool := s.queuePool.release q
    history := s.history ++ (waiters s q).map (fun p => .retval (s.pcbs p).call dsosEMqNotOpen) ++
      (s.queues q).messages.map (.discard (s.queues q).queueId) }

/-- `mq_destroy` on this id fails and sets its return value only, or destroys the queue. -/
def EndsClean (s : State) (id : Int) : Prop :=
  (∃ r < 0, step s (.syscall (.mqDestroy id)) =
    .ok ((saveCall s (.mqDestroy id)).setRetvalue s.running r)) ∨
  ∃ q, lookupQueue s id = .ok (some q) ∧ step s (.syscall (.mqDestroy id)) =
    .ok (((demolished (saveCall s (.mqDestroy id)) q).record (.destroy id)).setRetvalue
      s.running id)

/-- The id names no queue, or one that is closed or that nobody has open. -/
def Destroyable (s : State) (id : Int) : Prop :=
  id ≤ 0 ∨ ∃ o, lookupQueue s id = .ok o ∧
    ∀ q ∈ o, (s.queues q).status = .closed ∨ (s.queues q).resource.descriptorsPtrs = []

section
variable {s s' : State} {L L' : PcbList} {q : QueueRef} {p : PcbRef} {X ps : List PcbRef}
  {id size : Int} {es : List Event}

/-! ## The loops -/

/-- The lists of a queue are not those of the scheduler. -/
theorem PcbList.OfQueue.ne_ready (hL : L.OfQueue q) : L ≠ .ready := by
  rcases hL with rfl | rfl <;> simp

theorem roused_pcbs (s : State) (L : PcbList) (p : PcbRef) : (roused s L).pcbs p =
    if p ∈ s.list L then { s.pcbs p with status := .ready, syscallRetvalue := dsosEMqNotOpen }
    else s.pcbs p := rfl

theorem roused_readyList (s : State) (L : PcbList) :
    (roused s L).readyList = s.readyList ++ s.list L := rfl

theorem roused_history (s : State) (L : PcbList) : (roused s L).history =
    s.history ++ (s.list L).map fun p => .retval (s.pcbs p).call dsosEMqNotOpen := rfl

theorem roused_nil (hps : s.list L = []) : roused s L = s := by
  have hset : s.setList L [] = s := by
    rw [← hps]
    exact setList_same
  simp [roused, hset, hps]

/-- One turn of a loop, seen from its end. -/
theorem roused_cons (hL : L.OfQueue q) (hn : (s.list L).Nodup) (hps : s.list L = p :: ps) :
    let t := ((s.setList L ps).setStatus p .ready).setRetvalue p dsosEMqNotOpen
    roused (t.setList .ready (t.list .ready ++ [p])) L = roused s L := by
  intro t
  rw [hps] at hn
  have hp : p ∉ ps := (List.nodup_cons.1 hn).1
  have hready : t.list .ready = s.readyList := by
    simp only [t, list_setRetvalue, list_setStatus]
    exact list_setList_of_ne hL.ne_ready.symm
  have hlist : (t.setList .ready (t.list .ready ++ [p])).list L = ps := by
    rw [list_setList_of_ne hL.ne_ready]
    simp [t]
  have hpcbs : ∀ x, (roused (t.setList .ready (t.list .ready ++ [p])) L).pcbs x =
      (roused s L).pcbs x := by
    intro x
    simp only [roused, hlist, hps, List.mem_cons, setList_pcbs]
    by_cases hx : x = p
    · subst hx
      simp [hp, t]
    · simp [hx, t]
  have hcalls : ∀ x, (t.pcbs x).call = (s.pcbs x).call := by simp [t]
  have hhist : (roused (t.setList .ready (t.list .ready ++ [p])) L).history =
      (roused s L).history := by
    simp only [roused, hlist, hps, setList_history, setList_pcbs, hcalls]
    simp [t]
  have hr : (roused (t.setList .ready (t.list .ready ++ [p])) L).readyList =
      (roused s L).readyList := by
    show (t.list .ready ++ [p]) ++ _ = s.readyList ++ s.list L
    rw [hlist, hready, hps, List.append_assoc, List.singleton_append]
  have hqueues : (roused (t.setList .ready (t.list .ready ++ [p])) L).queues =
      (roused s L).queues := by
    funext i
    rcases hL with rfl | rfl <;>
      by_cases hi : i = q <;> simp [roused, State.setList, t, hi]
  simp only [roused, State.mk.injEq] at hpcbs hhist hr hqueues ⊢
  have hwaiting : (t.setList .ready (t.list .ready ++ [p])).waitingList = s.waitingList := by
    rcases hL with rfl | rfl <;> rfl
  have hzombie : (t.setList .ready (t.list .ready ++ [p])).zombieList = s.zombieList := by
    rcases hL with rfl | rfl <;> rfl
  refine ⟨?_, ?_, ?_, hr, hwaiting, hzombie, ?_, ?_, ?_, funext hpcbs, ?_, hqueues, ?_, ?_, ?_, ?_,
    ?_, ?_, ?_, ?_, ?_, hhist, ?_⟩
  case refine_7 => funext i; simp [t]
  case refine_16 => funext i; simp [t]
  all_goals simp [t]

theorem wakeAll_eq (hL : L.OfQueue q) (ps : List PcbRef) (h : Table s X) (hps : s.list L = ps) :
    wakeAll L ps s = .ok (roused s L) ∧ Table (roused s L) X := by
  induction ps generalizing s with
  | nil =>
    rw [roused_nil hps]
    exact ⟨rfl, h⟩
  | cons p ps ih =>
    obtain ⟨h1, hu⟩ := h.detach_first hps
    have hcons := roused_cons hL (h.nodup L) hps
    have h2 := (h1.setStatus hu .ready).still (.quiet (.setRetvalue _ p dsosEMqNotOpen))
    set t := ((s.setList L ps).setStatus p .ready).setRetvalue p dsosEMqNotOpen with ht
    have hu' : ∀ L', p ∉ t.list L' := by
      intro L'
      rw [ht, list_setRetvalue, list_setStatus]
      exact hu L'
    have ha : t.Alloc p := by
      have hp : p ∈ s.list L := hps ▸ List.mem_cons_self
      simpa [ht, State.Alloc] using h.alloc hp
    have h3 : Table (t.setList .ready (t.list .ready ++ [p])) X := by
      apply h2.insert hu' ha (by simp [ht, PcbList.status])
        (List.perm_append_singleton _ _)
      rintro q (hq | hq) <;> cases hq
    obtain ⟨h4, h5⟩ := ih h3 (by
      rw [list_setList_of_ne hL.ne_ready]
      simp [ht])
    rw [hcons] at h4 h5
    refine ⟨?_, h5⟩
    have hdet : s.listDetachFirst L = .ok (p, s.setList L ps) := by
      simp [State.listDetachFirst, hps]
    rw [wakeAll, hdet]
    simp only [ok_bind, ← ht, State.listInsertLast, listInsert_of_unlisted hu']
    exact h4

/-! ## The call -/

/-- The state when everybody is awake. -/
def emptied (s : State) (q : QueueRef) : State :=
  roused (roused (setMqStatus s q .closing) (.receivers q)) (.senders q)

theorem emptied_queues (s : State) (q i : QueueRef) : (emptied s q).queues i =
    if i = q then { s.queues i with
      waitingReceivers := [], waitingSenders := [], status := .closing }
    else s.queues i := by
  by_cases hi : i = q <;> simp [emptied, roused, State.setList, setMqStatus, hi]

theorem destroyed_emptied (s : State) (q : QueueRef) :
    destroyed (emptied s q) q = demolished s q := by
  have hr : (setMqStatus s q .closing).list (.receivers q) = (s.queues q).waitingReceivers := by
    simp [setMqStatus, State.list]
  have hs : (roused (setMqStatus s q .closing) (.receivers q)).list (.senders q) =
      (s.queues q).waitingSenders := by
    simp [roused, setMqStatus, State.list, State.setList]
  have hpcbs : ∀ p, (emptied s q).pcbs p = (demolished s q).pcbs p := by
    intro p
    rw [emptied, roused_pcbs, hs, roused_pcbs, hr]
    simp only [demolished, waiters, List.mem_append]
    by_cases h1 : p ∈ (s.queues q).waitingSenders <;>
      by_cases h2 : p ∈ (s.queues q).waitingReceivers <;> simp [h1, h2, setMqStatus]
  have hcalls : ∀ p, ((roused (setMqStatus s q .closing) (.receivers q)).pcbs p).call =
      (s.pcbs p).call := by
    intro p
    rw [roused_pcbs]
    split <;> rfl
  have hhist : (emptied s q).history = s.history ++
      (waiters s q).map fun p => Act.retval (s.pcbs p).call dsosEMqNotOpen := by
    rw [emptied, roused_history, hs, roused_history, hr]
    simp only [hcalls]
    simp only [waiters, List.map_append, List.append_assoc, setMqStatus, updQueue_history,
      updQueue_pcbs]
  have hready : (emptied s q).readyList = s.readyList ++ waiters s q := by
    rw [emptied, roused_readyList, hs, roused_readyList, hr, List.append_assoc]
    rfl
  have hblocks : ((emptied s q).queues q).blocks = (s.queues q).blocks := by
    rw [emptied_queues, if_pos rfl]
    rfl
  simp only [destroyed, demolished, State.mk.injEq]
  refine ⟨rfl, rfl, rfl, hready, rfl, rfl, rfl, rfl, rfl, funext hpcbs, rfl, ?_, rfl, rfl, rfl, rfl,
    rfl, rfl, ?_, rfl, rfl, ?_, rfl⟩
  · funext i
    rw [emptied_queues]
    by_cases hi : i = q <;> simp [hi]
  · rw [hblocks]
    rfl
  · rw [hhist, emptied_queues, if_pos rfl]

/-- **`mq_destroy`** of a queue that is not closed. -/
theorem internalMqDestroy_eq (h : Table s X) (hid : 0 < id)
    (h0 : (s.pcbs s.running).syscallArgs 0 = id) (hq : lookupQueue s id = .ok (some q))
    (hst : (s.queues q).status ≠ .closed) :
    internalMqDestroy s = if (s.queues q).resource.descriptorsPtrs = [] then
        .ok (((demolished s q).record (.destroy id)).setRetvalue s.running id)
      else .error .assertion := by
  have hmem : ResourceRef.queue q ∈ s.resourcesList :=
    List.mem_of_find?_eq_some (Listed.lookupQueue_some hq)
  have h1 : Table (setMqStatus s q .closing) X := h.still (.quiet (.setMqStatus s q .closing))
  obtain ⟨h2, h3⟩ := wakeAll_eq (.inl rfl)
    ((setMqStatus s q .closing).queues q).waitingReceivers h1 rfl
  obtain ⟨h4, -⟩ := wakeAll_eq (.inr rfl)
    ((roused (setMqStatus s q .closing) (.receivers q)).queues q).waitingSenders h3 rfl
  have hqueue : (emptied s q).queues q = { s.queues q with
      waitingReceivers := [], waitingSenders := [], status := .closing } := by
    rw [emptied_queues, if_pos rfl]
  have h5 := freeQueue_eq (q := q) (s := emptied s q) hmem (by rw [hqueue]) (by rw [hqueue])
  have hrefs : ((emptied s q).queues q).resource = (s.queues q).resource := by rw [hqueue]
  rw [destroyed_emptied, hrefs] at h5
  unfold internalMqDestroy
  simp only [h0, if_neg (not_le.2 hid), hq, ok_bind, if_neg hst, h2, h4]
  show (detachResource (setMqStatus (freeMessages q ((emptied s q).queues q).messages
    (emptied s q)) q .closed) (.queue q) >>= _) = _
  rw [← bind_assoc, h5]
  split <;> rfl

/-! ## Whatever is called -/

/-- **`mq_destroy`** in any run: it ends as it should exactly if nobody has the queue open. -/
theorem endsClean_iff (hr : run step boot es = .ok s) (id : Int) :
    EndsClean s id ↔ Destroyable s id := by
  have htable := ((run_sane hr).saveCall (.mqDestroy id)).table
  have hargs := saveCall_args s (.mqDestroy id)
  have hstep : step s (.syscall (.mqDestroy id)) = internalMqDestroy (saveCall s (.mqDestroy id)) :=
    step_syscall rfl
  have hlook : lookupQueue (saveCall s (.mqDestroy id)) id = lookupQueue s id := rfl
  have hqueues : (saveCall s (.mqDestroy id)).queues = s.queues := rfl
  have hrun := saveCall_running s (.mqDestroy id)
  unfold EndsClean Destroyable
  rw [hstep]
  set u := saveCall s (.mqDestroy id)
  have h0 : (u.pcbs s.running).syscallArgs 0 = id := hargs 0
  by_cases hid : id ≤ 0
  · refine iff_of_true (.inl ⟨dsosEMqInvalid, by decide, ?_⟩) (.inl hid)
    unfold internalMqDestroy
    simp only [hrun, h0, if_pos hid]
  have hpos : 0 < id := not_le.1 hid
  cases hq : lookupQueue s id with
  | error x =>
    have heq : internalMqDestroy u = .error x := by
      unfold internalMqDestroy
      simp only [hrun, h0, if_neg hid, hlook, hq, error_bind]
    rw [heq]
    simp [hid]
  | ok o =>
    cases o with
    | none =>
      refine iff_of_true (.inl ⟨dsosEMqInvalid, by decide, ?_⟩) (.inr ⟨none, rfl, by simp⟩)
      unfold internalMqDestroy
      simp only [hrun, h0, if_neg hid, hlook, hq, ok_bind]
    | some q =>
      by_cases hst : (s.queues q).status = .closed
      · refine iff_of_true (.inl ⟨dsosEMqClosed, by decide, ?_⟩)
          (.inr ⟨some q, rfl, by simp [hst]⟩)
        have hst' : (u.queues q).status = .closed := hst
        unfold internalMqDestroy
        simp only [hrun, h0, if_neg hid, hlook, hq, ok_bind, if_pos hst']
      · have heq := internalMqDestroy_eq htable hpos h0 (hlook.trans hq) hst
        rw [hqueues, hrun] at heq
        by_cases hd : (s.queues q).resource.descriptorsPtrs = []
        · rw [if_pos hd] at heq
          exact iff_of_true (.inr ⟨q, rfl, heq⟩) (.inr ⟨some q, rfl, by simp [hd]⟩)
        · rw [if_neg hd] at heq
          rw [heq]
          simp [hid, hst, hd]

/-- A queue that was open for some time. -/
def reclosedRun : List Event :=
  [.syscall (.mqCreate 5 1), .syscall (.openResource 5 1 0), .syscall (.closeResource 0)]

theorem endsClean_reclosedRun : ∃ s, run step boot reclosedRun = .ok s ∧ EndsClean s 5 := by
  have hc : (run step boot reclosedRun).toOption.any (fun s =>
      (lookupQueue s 5).toOption = some (some 0) ∧
        (s.queues 0).resource.descriptorsPtrs = []) = true := by decide +kernel
  obtain ⟨s, hr, hc⟩ := run_check hc
  obtain ⟨hq, hd⟩ := of_decide_eq_true hc
  refine ⟨s, hr, (endsClean_iff hr 5).2 (.inr ?_)⟩
  cases hl : lookupQueue s 5 with
  | error x =>
    rw [hl] at hq
    cases hq
  | ok o =>
    rw [hl] at hq
    cases hq
    exact ⟨some 0, rfl, by simp [hd]⟩

/-- Init opens a queue and blocks on it, and its child destroys it. -/
def openedRun : List Event :=
  [.syscall (.spawn 0 0), .syscall (.mqCreate 5 1), .syscall (.openResource 5 1 0),
    .syscall (.mqReceive 5 200 4)]

theorem openedRun_not_endsClean : ∃ s, run step boot openedRun = .ok s ∧ waiters s 0 = [0] ∧
    step s (.syscall (.mqDestroy 5)) = .error .assertion ∧ ¬ EndsClean s 5 := by
  have hc : (run step boot openedRun).toOption.any (fun s => waiters s 0 = [0] ∧
      stopped (step s (.syscall (.mqDestroy 5))) = some .assertion) = true := by decide +kernel
  obtain ⟨s, hr, hc⟩ := run_check hc
  obtain ⟨hw, hst⟩ := of_decide_eq_true hc
  have hs := eq_error_of_stopped hst
  refine ⟨s, hr, hw, hs, ?_⟩
  rintro (⟨r, -, h⟩ | ⟨q, -, h⟩)
  · cases hs.symm.trans h
  · cases hs.symm.trans h

/-! ## While only queues are used -/

theorem queueById_mem (h : Queues s []) (hq : q ∈ s.live) :
    s.queueById (s.queues q).queueId = some q :=
  h.queueById_eq_some.2 ⟨hq, rfl⟩

theorem mem_waiters (hp : p ∈ s.readyList ++ waiters s q) : ∃ L, p ∈ s.list L := by
  rcases List.mem_append.1 hp with hp | hp
  · exact ⟨.ready, hp⟩
  · rcases List.mem_append.1 hp with hp | hp
    · exact ⟨.receivers q, hp⟩
    · exact ⟨.senders q, hp⟩

/-- Everybody who is woken is woken once, and was not ready. -/
theorem Placed.nodup_waiters (h : Placed s X) : (s.readyList ++ waiters s q).Nodup := by
  have hn := (h.nodup (.receivers q)).append (h.nodup (.senders q))
    fun p hp hp' => by cases h.disj hp hp'
  refine (h.nodup .ready).append hn fun p hp hp' => ?_
  have hready : p ∈ s.list .ready := hp
  rcases List.mem_append.1 hp' with hp' | hp'
  · have hrec : p ∈ s.list (.receivers q) := hp'
    cases h.disj hready hrec
  · have hsend : p ∈ s.list (.senders q) := hp'
    cases h.disj hready hsend

/-- The id of a queue that is gone can be given to a new one. -/
theorem create_again (h : Inv s) (hid : 0 < id) (hfresh : s.queueById id = none)
    (hroom : s.live.length < maxMessageQueues) (hpos : 0 < size)
    (hmax : size ≤ maxMessagesPerQueue) :
    ∃ s' q', step s (.syscall (.mqCreate id size)) = .ok s' ∧
      (s'.pcbs s.running).syscallRetvalue = id ∧ s'.queueById id = some q' ∧
      s'.queues q' = newQueue id size := by
  have h1 := h.saveCall (.mqCreate id size)
  have hargs := saveCall_args s (.mqCreate id size)
  have heq := internalMqCreate_eq h1 id size (hargs 0) (hargs 1) hid hpos hmax hfresh
  rw [step_syscall rfl]
  set u := saveCall s (.mqCreate id size) with hu
  cases hg : u.queuePool.get with
  | none =>
    have hlen := h1.queues.pool.get_none.1 hg
    rw [h1.queues.poolSize] at hlen
    exact absurd hlen hroom.ne
  | some x =>
    obtain ⟨q', pool⟩ := x
    rw [hg] at heq
    have hcq := created_queues h1.queues hg hid hpos hmax hfresh
    have hnew : (created u q' pool id size).queues q' = newQueue id size := by simp [created]
    refine ⟨_, q', heq, ?_, ?_, hnew⟩
    · have hrun : u.running = s.running := saveCall_running s _
      simp [hrun]
    · have hby : (created u q' pool id size).queueById id = some q' := by
        refine hcq.queueById_eq_some.2 ⟨?_, by rw [hnew]; rfl⟩
        rw [created_live]
        exact List.mem_append_right _ (List.mem_singleton_self q')
      exact hby

/-- **`mq_destroy` of a live queue** wakes everybody who is blocked on it, once, and frees exactly
its messages and its block. -/
theorem mqDestroy_exact (he : ∀ e ∈ es, e.IsMq) (hr : run step boot es = .ok s) (hq : q ∈ s.live) :
    let id := (s.queues q).queueId
    ∃ s', step s (.syscall (.mqDestroy id)) = .ok s' ∧
      s' = ((demolished (saveCall s (.mqDestroy id)) q).record (.destroy id)).setRetvalue
        s.running id ∧
      (s.readyList ++ waiters s q).Nodup ∧ s.running ∉ s.readyList ++ waiters s q ∧
      s.messagePool.Owns (s.live.flatMap fun i => (s.queues i).blocks) ∧
      s'.messagePool.Owns ((s.live.erase q).flatMap fun i => (s.queues i).blocks) ∧
      s.queuePool.Owns s.live ∧ s'.queuePool.Owns (s.live.erase q) ∧
      s.resourcesList.Nodup ∧
      ∀ size : Int, 0 < size → size ≤ maxMessagesPerQueue →
        ∃ s'' q', step s' (.syscall (.mqCreate id size)) = .ok s'' ∧
          (s''.pcbs s'.running).syscallRetvalue = id ∧ s''.queueById id = some q' ∧
          s''.queues q' = newQueue id size := by
  intro id
  have h := (run_mq he hr).toInv
  have hok := h.queues.ok q hq
  have h1 := h.saveCall (.mqDestroy id)
  have hby : (saveCall s (.mqDestroy id)).queueById id = some q :=
    queueById_mem h1.queues hq
  have heq := internalMqDestroy_eq ((run_sane hr).saveCall (.mqDestroy id)).table hok.pos
    (saveCall_args s (.mqDestroy id) 0) (by rw [h1.queues.lookupQueue_eq, hby])
    (by rw [(h1.idle q hq).1]; decide)
  rw [if_pos (h1.queues.ok q hq).refs] at heq
  obtain ⟨s', h2, h3, -⟩ := mqDestroy_spec h id
  have hs' := Except.ok.inj (h2.symm.trans heq)
  have hlive : s'.live = s.live.erase q := by
    have hres : s'.resourcesList = s.resourcesList.erase (.queue q) := by
      rw [hs']
      rfl
    rw [State.live, hres, h.queues.only,
      ← List.map_erase (fun _ _ e => ResourceRef.queue.inj e), queueRefs_map]
  have hqueues : ∀ i ∈ s'.live, s'.queues i = s.queues i := by
    intro i hi
    have hne : i ≠ q := by
      rw [hlive] at hi
      exact fun e => h.queues.nodup.not_mem_erase (e ▸ hi)
    rw [hs']
    exact if_neg hne
  refine ⟨s', (step_syscall rfl).trans h2, hs', ?_, ?_, h.queues.messages, ?_, h.queues.pool, ?_, ?_, ?_⟩
  · exact h.placed.nodup_waiters
  · intro hm
    obtain ⟨L, hL⟩ := mem_waiters hm
    exact h.placed.not_mem (by simp) hL
  · have h4 := h3.queues.messages
    rwa [List.flatMap_def, List.map_congr_left fun i hi => by rw [hqueues i hi],
      ← List.flatMap_def, hlive] at h4
  · rw [← hlive]
    exact h3.queues.pool
  · rw [h.queues.only]
    exact (List.nodup_map_iff fun _ _ e => ResourceRef.queue.inj e).2 h.queues.nodup
  · intro size hpos hmax
    apply create_again h3 hok.pos _ _ hpos hmax
    · rw [Queues.queueById_eq_none]
      intro i hi e
      have hi' := hi
      rw [hlive] at hi'
      have hne : i ≠ q := fun e => h.queues.nodup.not_mem_erase (e ▸ hi')
      rw [hqueues i hi] at e
      have hby' := h.queues.queueById_eq_some.2 ⟨List.mem_of_mem_erase hi', e⟩
      rw [queueById_mem h.queues hq] at hby'
      exact hne (Option.some.inj hby').symm
    · have hlt := List.length_erase_of_mem hq
      have hle := h.queues.live_le
      have hpos := List.length_pos_of_mem hq
      rw [hlive, hlt]
      omega

/-- Init and its first child are blocked on a full queue, which the other child will destroy. -/
def crammedRun : List Event :=
  [.syscall (.spawn 0 0), .syscall (.spawn 0 0), .syscall (.mqCreate 5 1),
    .syscall (.mqSend 5 100 1), .syscall (.mqSend 5 100 1), .syscall (.mqSend 5 100 1)]

theorem mqDestroy_crammedRun : ∃ s s' s'' q', run step boot crammedRun = .ok s ∧ s.readyList = [] ∧
    waiters s 0 = [0, 1] ∧ step s (.syscall (.mqDestroy (s.queues 0).queueId)) = .ok s' ∧
    s'.readyList = [0, 1] ∧ (∀ p ∈ [0, 1], (s'.pcbs p).syscallRetvalue = dsosEMqNotOpen) ∧
    step s' (.syscall (.mqCreate (s.queues 0).queueId 1)) = .ok s'' ∧
    s''.queueById (s.queues 0).queueId = some q' := by
  have hc : (run step boot crammedRun).toOption.any (fun s =>
      0 ∈ s.live ∧ s.readyList = [] ∧ waiters s 0 = [0, 1] ∧ s.running = 2) = true := by
    decide +kernel
  obtain ⟨s, hr, hc⟩ := run_check hc
  obtain ⟨hq, hnil, hw, hrun⟩ := of_decide_eq_true hc
  obtain ⟨s', h1, h2, -, -, -, -, -, -, -, h3⟩ := mqDestroy_exact (by decide) hr hq
  obtain ⟨s'', q', h4, -, h5, -⟩ := h3 1 (by decide) (by decide)
  have hw' : waiters (saveCall s (.mqDestroy (s.queues 0).queueId)) 0 = [0, 1] := hw
  refine ⟨s, s', s'', q', hr, hnil, hw, h1, ?_, fun p hp => ?_, h4, h5⟩
  · rw [h2]
    show s.readyList ++ waiters (saveCall s (.mqDestroy (s.queues 0).queueId)) 0 = [0, 1]
    rw [hnil, hw', List.nil_append]
  · have hne : p ≠ s.running := by
      rw [hrun]
      rintro rfl
      simp at hp
    have hmem : p ∈ waiters (saveCall s (.mqDestroy (s.queues 0).queueId)) 0 := hw'.symm ▸ hp
    simp [h2, demolished, hmem, hne]

end

end DisastrOS
