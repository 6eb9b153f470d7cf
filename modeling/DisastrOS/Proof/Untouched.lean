import DisastrOS.Proof.Sane

/-!
# What the calls do to the resources

`Untouched s s'`: the resources and the descriptors are the same, and a process may have been
blocked on a queue only if the queue is found under its id. Most calls touch nothing else
(`step_untouched`). A call that hands out or takes back descriptors touches nothing before and after
it does so (`fork_untouched`, `exit_untouched`, `mqDestroy_untouched`).
-/

namespace DisastrOS

open Lib State

/-- Some process is blocked on queue `q`. -/
def Waited (s : State) (q : QueueRef) : Prop :=
  s.list (.receivers q) ≠ [] ∨ s.list (.senders q) ≠ []

/-- The lookup of the id of queue `q` finds `q`. -/
def Found (s : State) (q : QueueRef) : Prop :=
  resourceListById s (s.queues q).queueId = some (.queue q)

structure Untouched (s s' : State) : Prop where
  list : s'.resourcesList = s.resourcesList
  resourcePool : s'.resourcePool = s.resourcePool
  queuePool : s'.queuePool = s.queuePool
  descriptorPool : s'.descriptorPool = s.descriptorPool
  descriptorPtrPool : s'.descriptorPtrPool = s.descriptorPtrPool
  resource : ∀ r, s'.resource r = s.resource r
  queueId : ∀ q, (s'.queues q).queueId = (s.queues q).queueId
  descriptors : ∀ p, (s'.pcbs p).descriptors = (s.pcbs p).descriptors
  lastFd : ∀ p, (s'.pcbs p).lastFd = (s.pcbs p).lastFd
  waited : ∀ q, Waited s' q → Waited s q ∨ Found s q
  alloc : ∀ p, s'.Alloc p → s.Alloc p

section
variable {s s' s'' s₁ : State} {L L' : PcbList} {p : PcbRef} {q : QueueRef} {ps : List PcbRef}
  {e : Event} {id : Int}

theorem byId_congr (hl : s'.resourcesList = s.resourcesList)
    (hid : ∀ r, (s'.resource r).id = (s.resource r).id) :
    resourceListById s' id = resourceListById s id := by
  simp only [resourceListById, hl, hid]

namespace Untouched

theorem byId (h : Untouched s s') : resourceListById s' id = resourceListById s id :=
  byId_congr h.list fun r => by rw [h.resource]

theorem found (h : Untouched s s') : Found s' q ↔ Found s q := by
  unfold Found
  rw [h.byId, h.queueId]

theorem refl (s : State) : Untouched s s :=
  ⟨rfl, rfl, rfl, rfl, rfl, fun _ => rfl, fun _ => rfl, fun _ => rfl, fun _ => rfl, fun _ => .inl,
    fun _ => id⟩

theorem trans (h : Untouched s s') (h' : Untouched s' s'') : Untouched s s'' where
  list := h'.list.trans h.list
  resourcePool := h'.resourcePool.trans h.resourcePool
  queuePool := h'.queuePool.trans h.queuePool
  descriptorPool := h'.descriptorPool.trans h.descriptorPool
  descriptorPtrPool := h'.descriptorPtrPool.trans h.descriptorPtrPool
  resource r := (h'.resource r).trans (h.resource r)
  queueId q := (h'.queueId q).trans (h.queueId q)
  descriptors p := (h'.descriptors p).trans (h.descriptors p)
  lastFd p := (h'.lastFd p).trans (h.lastFd p)
  waited q hw := (h'.waited q hw).elim (h.waited q) fun hf => .inr (h.found.1 hf)
  alloc p ha := h.alloc p (h'.alloc p ha)

theorem keeps (h : Untouched s s') : Keeps s s' :=
  ⟨h.list, h.resourcePool, h.queuePool, fun r => by rw [h.resource], fun r => by rw [h.resource],
    h.queueId⟩

/-! ## Operations that touch nothing -/

theorem quiet (h : Quiet s s') : Untouched s s' :=
  ⟨h.resourcesList, h.resourcePool, h.queuePool, h.descriptorPool, h.descriptorPtrPool, h.resource,
    h.queueId, h.descriptors, h.lastFd, fun q hw => by
      unfold Waited at hw
      rw [h.list, h.list] at hw
      exact .inl hw, fun _ => h.alloc.1⟩

/-- Only fields of processes change, and only those that have nothing to do with resources. -/
theorem same (hl : s'.resourcesList = s.resourcesList) (hr : s'.resourcePool = s.resourcePool)
    (hq : s'.queuePool = s.queuePool) (hd : s'.descriptorPool = s.descriptorPool)
    (hdp : s'.descriptorPtrPool = s.descriptorPtrPool) (hrs : s'.resources = s.resources)
    (hqs : s'.queues = s.queues) (hp : ∀ p, (s'.pcbs p).descriptors = (s.pcbs p).descriptors ∧
      (s'.pcbs p).lastFd = (s.pcbs p).lastFd) (ha : ∀ p, s'.Alloc p → s.Alloc p) :
    Untouched s s' := by
  refine ⟨hl, hr, hq, hd, hdp, fun r => ?_, fun q => by rw [hqs], fun p => (hp p).1,
    fun p => (hp p).2, fun q hw => .inl ?_, ha⟩
  · cases r with
    | generic i => exact congrFun hrs i
    | queue q => exact congrArg MessageQueue.resource (congrFun hqs q)
  · unfold Waited at hw ⊢
    simpa [State.list, hqs] using hw

theorem rescheduled (h : Rescheduled s s') : Untouched s s' :=
  same h.resourcesList (congrArg State.resourcePool h.same :) h.queuePool
    (congrArg State.descriptorPool h.same :) (congrArg State.descriptorPtrPool h.same :)
    h.resources h.queues (fun p => by rw [h.pcbs]; exact ⟨rfl, rfl⟩) fun p => by
      unfold State.Alloc; rw [h.pcbPool]; exact id

theorem setStatus (s : State) (p : PcbRef) (st : ProcessStatus) :
    Untouched s (s.setStatus p st) :=
  same rfl rfl rfl rfl rfl rfl rfl (by simp) fun _ => id

theorem setRunning (s : State) (p : PcbRef) : Untouched s (s.setRunning p) :=
  same rfl rfl rfl rfl rfl rfl rfl (fun _ => ⟨rfl, rfl⟩) fun _ => id

theorem pcbFree (s : State) (p : PcbRef) : Untouched s (pcbFree s p) :=
  same rfl rfl rfl rfl rfl rfl rfl (fun _ => ⟨rfl, rfl⟩) fun _ => Pool.used_of_release

theorem saveCall (s : State) (c : Syscall) : Untouched s (saveCall s c) :=
  same rfl rfl rfl rfl rfl rfl rfl (fun p => by
    by_cases hp : p = s.running <;> simp [DisastrOS.saveCall, hp]) fun _ => id

/-- A queue that is not found gets no waiting processes. -/
theorem setList (h : ∀ q, L.OfQueue q → ps ≠ [] → s.list L ≠ [] ∨ Found s q) :
    Untouched s (s.setList L ps) := by
  have hk := Keeps.setList s L ps
  refine ⟨hk.list, hk.resourcePool, hk.queuePool, by simp, by simp, fun r => ?_, hk.queueId,
    by simp, by simp, fun q hw => ?_, fun p => by simp [State.Alloc]⟩
  · cases r with
    | generic i => exact congrFun setList_resources i
    | queue q => exact (congrArg MessageQueue.resource setList_queues :)
  · have key : ∀ {M}, M.OfQueue q → (s.setList L ps).list M ≠ [] → s.list M ≠ [] ∨ Found s q := by
      intro M hM hne
      by_cases hL : M = L
      · subst hL
        rw [list_setList_self] at hne
        exact h q hM hne
      · rw [list_setList_of_ne hL] at hne
        exact .inl hne
    rcases hw with hw | hw
    · exact (key (.inl rfl) hw).imp_left .inl
    · exact (key (.inr rfl) hw).imp_left .inr

theorem listInsert (h : s.listInsert L p ps = .ok s') (hL : ∀ q, L.OfQueue q → Found s q) :
    Untouched s s' := by
  rcases listInsert_cases h with rfl | rfl
  exacts [refl s', setList fun q hq _ => .inr (hL q hq)]

theorem listDetach (h : s.listDetach L p = .ok s') : Untouched s s' := by
  obtain ⟨hm, rfl⟩ := listDetach_cases h
  exact setList fun q _ _ => .inl (List.ne_nil_of_mem hm)

/-- The first process of a list leaves it. -/
theorem setList_tail (h : s.list L = p :: ps) : Untouched s (s.setList L ps) :=
  setList fun q _ _ => .inl (by rw [h]; simp)

theorem notQueue {M : PcbList} (hM : ∀ q, M ≠ .receivers q ∧ M ≠ .senders q) :
    ∀ q, M.OfQueue q → Found s q := fun q hq =>
  absurd hq (by simp [PcbList.OfQueue, hM q])

theorem yields (h : Yields s s') : Untouched s s' := by
  obtain ⟨p, ps, hL, rfl⟩ := h
  exact (setList_tail (L := .ready) hL).trans ((setStatus _ _ _).trans (setRunning _ _))

theorem wakes (h : Wakes L s s') : Untouched s s' := by
  obtain ⟨p, ps, s₁, hL, hq, hi⟩ := h
  exact (setList_tail hL).trans ((quiet hq).trans ((setStatus _ _ _).trans
    (listInsert hi (notQueue (by simp)))))

theorem serves (h : Serves L s s') : Untouched s s' := by
  obtain ⟨s₁, s₂, hq₁, rfl | hw, hq₂⟩ := h
  · exact (quiet hq₁).trans (quiet hq₂)
  · exact (quiet hq₁).trans ((wakes hw).trans (quiet hq₂))

theorem wakeAll : ∀ {ps : List PcbRef} {s : State}, wakeAll L ps s = .ok s' → Untouched s s'
  | [], _, h => by
    cases h
    exact refl _
  | _ :: _, _, h => by
    obtain ⟨s₁, h₁, h⟩ := wakeAll_cases h
    exact (wakes h₁).trans (wakeAll h)

theorem blocks (h : Blocks L L' s s') (hL : ∀ q, L.OfQueue q → Found s q) : Untouched s s' := by
  obtain ⟨s₁, s₂, hi, hsch, hor⟩ := h
  have h0 := setStatus s s.running .waiting
  have h1 := h0.trans ((listInsert hi fun q hq => h0.found.2 (hL q hq)).trans
    (rescheduled (.schedule hsch)))
  rcases hor with ⟨-, rfl⟩ | ⟨-, -, s₃, hd, hq⟩ | ⟨-, -, hv⟩
  · exact h1
  · exact h1.trans ((listDetach hd).trans ((setStatus _ _ _).trans (quiet hq)))
  · exact h1.trans (serves hv)

end Untouched

/-! ## Calls -/

/-- A queue that a call has looked up is found under its id. -/
theorem Listed.found (h : Listed s) (hq : lookupQueue s id = .ok (some q)) : Found s q := by
  have h1 := lookupQueue_some hq
  obtain ⟨h2, h3⟩ := mem_of_byId h1
  unfold Found
  rw [← h.id h2, h3]
  exact h1

theorem mqSend_untouched (h : Listed s) (hs : internalMqSend s = .ok s') : Untouched s s' := by
  rcases mqSend_cases hs with hq | ⟨q, hq, hv | hb⟩
  · exact .quiet hq
  · exact .serves hv
  · refine .blocks hb fun i hi => ?_
    obtain rfl : q = i := by rcases hi with e | e <;> cases e; rfl
    exact h.found hq

theorem mqReceive_untouched (h : Listed s) (hs : internalMqReceive s = .ok s') :
    Untouched s s' := by
  rcases mqReceive_cases hs with hq | ⟨q, hq, hv | hb⟩
  · exact .quiet hq
  · exact .serves hv
  · refine .blocks hb fun i hi => ?_
    obtain rfl : q = i := by rcases hi with e | e <;> cases e; rfl
    exact h.found hq

theorem sleep_untouched (hs : internalSleep s = .ok s') : Untouched s s' := by
  rcases sleep_cases hs with ⟨hq, -⟩ | ⟨-, b, s₁, s₂, hq, hi, hsch⟩
  · exact .quiet hq
  · have h0 : Untouched s (dozing s b) := .same rfl rfl rfl rfl rfl rfl rfl (by simp [dozing])
      fun _ => id
    exact h0.trans ((Untouched.quiet hq).trans ((Untouched.listInsert hi (Untouched.notQueue
      (by simp))).trans (.rescheduled (.schedule hsch))))

theorem wait_untouched (hs : internalWait s = .ok s') : Untouched s s' := by
  rcases wait_cases hs with hq | ⟨e, s₁, s₂, s₃, -, hq₁, hd, hq₂, rfl⟩ | ⟨s₁, hi, hy⟩
  · exact .quiet hq
  · exact (Untouched.quiet hq₁).trans ((Untouched.listDetach hd).trans
      ((Untouched.quiet hq₂).trans (.pcbFree _ _)))
  · exact (Untouched.setStatus _ _ _).trans ((Untouched.listInsert hi (Untouched.notQueue
      (by simp))).trans (.yields hy))

theorem preempt_untouched (hs : internalSchedule s = .ok s') : Untouched s s' :=
  .rescheduled (.schedule hs)

theorem spawn_untouched (hs : internalSpawn s = .ok s') :
    Untouched s s' ∧ s'.pcbPool = s.pcbPool ∨ ∃ p pool, s.pcbPool.get = some (p, pool) ∧
      Untouched (newborn s p pool) s' ∧ s'.pcbPool = pool := by
  rcases spawn_cases hs with hq | ⟨p, pool, s₁, s₂, hg, hq₁, hi, hq₂⟩
  · exact .inl ⟨.quiet hq, hq.pcbPool⟩
  · refine .inr ⟨p, pool, hg, (Untouched.quiet hq₁).trans ((Untouched.listInsert hi
      (Untouched.notQueue (by simp))).trans (.quiet hq₂)), ?_⟩
    rw [hq₂.pcbPool, listInsert_pcbPool hi, hq₁.pcbPool]
    rfl

theorem fork_untouched (hs : internalFork s = .ok s') :
    s.pcbPool.get = none ∧ Untouched s s' ∧ s'.pcbPool = s.pcbPool ∨
    ∃ p pool s₁ s₂, s.pcbPool.get = some (p, pool) ∧
      Untouched (newborn s p pool) s₁ ∧ s₁.pcbPool = pool ∧
      forkDescriptors p (s₁.pcbs s.running).descriptors s₁ = .ok s₂ ∧ Untouched s₂ s' ∧
      s'.pcbPool = s₂.pcbPool := by
  rcases fork_cases hs with ⟨hg, hq⟩ | ⟨p, pool, s₁, s₂, s₃, hg, hq₁, hd, hq₂, hi⟩
  · exact .inl ⟨hg, .quiet hq, hq.pcbPool⟩
  · refine .inr ⟨p, pool, s₁, s₂, hg, .quiet hq₁, hq₁.pcbPool, hd, (Untouched.quiet hq₂).trans
      (Untouched.listInsert hi (Untouched.notQueue (by simp))), ?_⟩
    rw [listInsert_pcbPool hi, hq₂.pcbPool]

theorem spawn_keeps (hs : internalSpawn s = .ok s') : Keeps s s' := by
  rcases spawn_untouched hs with ⟨hu, -⟩ | ⟨p, pool, -, hu, -⟩
  · exact hu.keeps
  · exact (Keeps.same rfl rfl rfl rfl rfl : Keeps s (newborn s p pool)).trans hu.keeps

theorem fork_keeps (hs : internalFork s = .ok s') : Keeps s s' := by
  rcases fork_untouched hs with ⟨-, hu, -⟩ | ⟨p, pool, s₁, s₂, -, hu₁, -, hd, hu₂, -⟩
  · exact hu.keeps
  · exact ((Keeps.same rfl rfl rfl rfl rfl : Keeps s (newborn s p pool)).trans hu₁.keeps).trans
      ((Keeps.forkDescriptors hd).trans hu₂.keeps)

theorem close_keeps (hs : internalCloseResource s = .ok s') : Keeps s s' := by
  rcases close_cases hs with ⟨-, hq⟩ | ⟨d, -, -, hq⟩
  · exact .quiet hq
  · exact Keeps.dropped.trans (.quiet hq)

/-- The caller of `exit` becomes a zombie, or its parent was waiting and it is reaped. -/
theorem exit_untouched (hs : internalExit s = .ok s')
    (hn : (s.pcbs s.running).syscallNum ≠ dsosCallWait) : ∃ parent,
    (s.pcbs s.running).parent = some parent ∧
      (¬ waitsFor s parent (s.pcbs s.running).pid ∧ Untouched s s' ∧ s'.pcbPool = s.pcbPool ∨
      waitsFor s parent (s.pcbs s.running).pid ∧ ∃ s₁ s₂, Untouched s s₁ ∧
        s₁.pcbPool = s.pcbPool ∧
        releaseDescriptors s.running (s.pcbs s.running).descriptors s₁ = .ok s₂ ∧
        Untouched s₂ s' ∧ s'.pcbPool = s₂.pcbPool.release s.running) := by
  obtain ⟨s₁, s₂, s₃, parent, hq₁, hi, hp, hq₂, hor⟩ := exit_cases hs
  have hpar : (s.pcbs s.running).parent = some parent := by
    rw [listInsert_pcbs hi] at hp
    simpa [hq₁.parent] using hp
  have hpid : (s₃.pcbs s.running).pid = (s.pcbs s.running).pid := by
    rw [hq₂.pid, listInsert_pcbs hi]
    simp [hq₁.pid]
  have hu : Untouched s s₃ := (Untouched.quiet hq₁).trans ((Untouched.setStatus _ _ _).trans
    ((Untouched.listInsert hi (Untouched.notQueue (by simp))).trans (.quiet hq₂)))
  have hpool : s₃.pcbPool = s.pcbPool := by
    rw [hq₂.pcbPool, listInsert_pcbPool hi]
    exact hq₁.pcbPool
  rw [waitsFor_retired hq₁ hi hq₂ hn, hpid] at hor
  refine ⟨parent, hpar, ?_⟩
  rcases hor with ⟨hw, he⟩ | ⟨hw, hy⟩
  · obtain ⟨t₁, t₂, t₃, t₄, hd, hq₃, hrel, hz, rfl⟩ := exitToParent_cases he
    have hu' : Untouched s t₂ := hu.trans ((Untouched.listDetach hd).trans
      ((Untouched.setStatus _ _ _).trans (.quiet hq₃)))
    rw [hu'.descriptors] at hrel
    refine .inr ⟨hw, purgeTimers t₂ s.running, t₃, hu'.trans ?_, ?_, hrel, ?_, ?_⟩
    · exact .same rfl rfl rfl rfl rfl rfl rfl (fun _ => ⟨rfl, rfl⟩) fun _ => id
    · show t₂.pcbPool = _
      rw [hq₃.pcbPool]
      exact (listDetach_pcbPool hd).trans hpool
    · exact (Untouched.listDetach hz).trans ((Untouched.pcbFree _ _).trans (.setRunning _ _))
    · show t₄.pcbPool.release _ = _
      rw [listDetach_pcbPool hz]
  · refine .inl ⟨hw, hu.trans (.yields hy), ?_⟩
    obtain ⟨p, ps, -, rfl⟩ := hy
    exact setList_pcbPool.trans hpool

/-- The caller of `exit` does not wait. -/
theorem exit_num (s : State) (v : Int) : ((saveCall s (.exit v)).pcbs
    (saveCall s (.exit v)).running).syscallNum ≠ dsosCallWait := by
  rw [saveCall_running, saveCall_num]
  simp [Syscall.num]

/-- The waiting processes of a queue are woken before it is taken off the list and freed. -/
theorem mqDestroy_untouched (hs : internalMqDestroy s = .ok s') : Untouched s s' ∨
    ∃ q s₁ s₂ s₃, lookupQueue s ((s.pcbs s.running).syscallArgs 0) = .ok (some q) ∧
      Untouched s s₁ ∧ detachResource s₁ (.queue q) = .ok s₂ ∧ messageQueueFree s₂ q = .ok s₃ ∧
      Untouched s₃ s' := by
  rcases mqDestroy_cases hs with hq | ⟨q, s₁, s₂, s₃, s₄, s₅, hlook, hq₁, hr, hw, hq₂, hd, s₆, hf,
    hq₃⟩
  · exact .inl (.quiet hq)
  · exact .inr ⟨q, s₄, s₅, s₆, hlook, (Untouched.quiet hq₁).trans ((Untouched.wakeAll hr).trans
      ((Untouched.wakeAll hw).trans (.quiet hq₂))), hd, hf, .quiet hq₃⟩

/-! ## Steps -/

/-- The calls that do something to resources or descriptors. -/
def Event.Touches : Event → Prop
  | .syscall .fork | .syscall (.spawn ..) | .syscall (.exit _) | .syscall (.openResource ..)
  | .syscall (.closeResource _) | .syscall (.destroyResource _) | .syscall (.mqCreate ..)
  | .syscall (.mqDestroy _) => True
  | _ => False

theorem Event.Touches.syscall (he : e.Touches) : ∃ c, e = .syscall c := by
  cases e with
  | syscall c => exact ⟨c, rfl⟩
  | _ => exact he.elim

/-- The other calls leave all of them alone. -/
theorem step_untouched (h : Sane s) (he : ¬ e.Touches) (hs : step s e = .ok s') :
    Untouched s s' := by
  cases e with
  | tick =>
    have h0 : Untouched s { s with time := s.time + 1 } :=
      .same rfl rfl rfl rfl rfl rfl rfl (fun _ => ⟨rfl, rfl⟩) fun _ => id
    exact h0.trans (preempt_untouched hs)
  | store addr bytes =>
    cases hs
    exact .same rfl rfl rfl rfl rfl rfl rfl (fun _ => ⟨rfl, rfl⟩) fun _ => id
  | syscall c =>
    have h0 := (h.saveCall c).listed
    refine (Untouched.saveCall s c).trans ?_
    cases c with
    | preempt => exact preempt_untouched ((step_syscall rfl).symm.trans hs)
    | wait _ _ => exact wait_untouched ((step_syscall rfl).symm.trans hs)
    | sleep _ => exact sleep_untouched ((step_syscall rfl).symm.trans hs)
    | mqSend _ _ _ => exact mqSend_untouched h0 ((step_syscall rfl).symm.trans hs)
    | mqReceive _ _ _ => exact mqReceive_untouched h0 ((step_syscall rfl).symm.trans hs)
    | shutdown => cases (step_syscall (f := fun _ => .error .shutdown) rfl).symm.trans hs
    | _ => exact absurd trivial he

end

end DisastrOS
