import DisastrOS.Proof.Drafts

/-!
# The kernel does not read what others have begun

Every syscall takes states that are `Drafted` to states that are, when the caller is not itself in
the middle of a call. The only saved calls read besides the caller's are those of the processes that
wait at a queue (`handOff`, `completeSend`) and of a parent that sleeps in `wait` (`waitsFor`).
-/

namespace DisastrOS

open Lib State

/-- The PCBs and the lists of processes. -/
def State.processes (s : State) :=
  (s.pcbs, s.readyList, s.waitingList, s.zombieList, s.queues)

section
variable {s t : State} {ds : PcbRef → Option Draft} {L : PcbList} {p q r : PcbRef}
  {ps : List PcbRef} {m : Message}

namespace Drafted

/-- An operation on anything but PCBs and the lists of processes. -/
theorem globals (h : Drafted ds s t) (f : State → State)
    (hf : ∀ s, f (s.withDrafts ds) = (f s).withDrafts ds)
    (hp : ∀ s, (f s).processes = s.processes) : Drafted ds (f s) (f t) := by
  have h1 := hp s
  simp only [processes, Prod.mk.injEq] at h1
  obtain ⟨h2, h3, h4, h5, h6⟩ := h1
  refine h.map f hf (fun p => by rw [h2]) fun L => ?_
  cases L <;> simp only [State.list, h3, h4, h5, h6]

theorem running (h : Drafted ds s t) : t.running = s.running := by
  rw [h.eq]
  rfl

theorem resourcesList (h : Drafted ds s t) : t.resourcesList = s.resourcesList := by
  rw [h.eq]
  rfl

theorem returnValue (h : Drafted ds s t) (p : PcbRef) :
    (t.pcbs p).returnValue = (s.pcbs p).returnValue := by
  rw [h.eq]
  rfl

theorem descriptors (h : Drafted ds s t) (p : PcbRef) :
    (t.pcbs p).descriptors = (s.pcbs p).descriptors := by
  rw [h.eq]
  rfl

theorem pid (h : Drafted ds s t) (p : PcbRef) : (t.pcbs p).pid = (s.pcbs p).pid := by
  rw [h.eq]
  rfl

theorem pcb_of_none (h : Drafted ds s t) (hp : ds p = none) : t.pcbs p = s.pcbs p := by
  rw [h.eq, withDrafts_pcbs_of_none hp]

theorem resource (h : Drafted ds s t) (x : ResourceRef) : t.resource x = s.resource x := by
  rw [h.eq, withDrafts_resource]

/-! ## Allocations -/

theorem pcbAlloc (h : Drafted ds s t) : Allocates ds (pcbAlloc s) (pcbAlloc t) := by
  obtain rfl := h.eq
  unfold DisastrOS.pcbAlloc
  simp only [withDrafts_pcbPool, withDrafts_lastPid]
  cases s.pcbPool.get with
  | none => exact .inl ⟨rfl, rfl⟩
  | some x =>
    have h1 := h.globals (fun s => { s with pcbPool := x.2, lastPid := s.lastPid + 1 })
      (fun _ => rfl) fun _ => rfl
    exact .inr ⟨x.1, _, _, rfl, rfl, h1.updPcb x.1 (fun _ => rfl) (.inl (by simp))⟩

theorem pcbPtrAlloc (h : Drafted ds s t) (p : PcbRef) :
    Allocates ds (pcbPtrAlloc s p) (pcbPtrAlloc t p) := by
  obtain rfl := h.eq
  unfold DisastrOS.pcbPtrAlloc
  simp only [withDrafts_pcbPtrPool]
  cases s.pcbPtrPool.get with
  | none => exact .inl ⟨rfl, rfl⟩
  | some x =>
    exact .inr ⟨_, _, _, rfl, rfl, h.globals (fun s => { s with pcbPtrPool := x.2 }) (fun _ => rfl)
      fun _ => rfl⟩

theorem resourceAlloc (h : Drafted ds s t) (id type : Int) :
    Allocates ds (resourceAlloc s id type) (resourceAlloc t id type) := by
  obtain rfl := h.eq
  unfold DisastrOS.resourceAlloc
  simp only [withDrafts_resourcePool]
  cases s.resourcePool.get with
  | none => exact .inl ⟨rfl, rfl⟩
  | some x =>
    have h1 := h.globals (fun s => { s with resourcePool := x.2 }) (fun _ => rfl) fun _ => rfl
    exact .inr ⟨_, _, _, rfl, rfl, h1.updResource (.generic x.1) _⟩

theorem descriptorAlloc (h : Drafted ds s t) (fd : Int) (x : ResourceRef) (p : PcbRef) :
    Allocates ds (descriptorAlloc s fd x p) (descriptorAlloc t fd x p) := by
  obtain rfl := h.eq
  unfold DisastrOS.descriptorAlloc
  simp only [withDrafts_descriptorPool]
  cases s.descriptorPool.get with
  | none => exact .inl ⟨rfl, rfl⟩
  | some x =>
    exact .inr ⟨_, _, _, rfl, rfl, h.globals (fun s => { s with descriptorPool := x.2 })
      (fun _ => rfl) fun _ => rfl⟩

theorem descriptorPtrAlloc (h : Drafted ds s t) (d : Descriptor) :
    Allocates ds (descriptorPtrAlloc s d) (descriptorPtrAlloc t d) := by
  obtain rfl := h.eq
  unfold DisastrOS.descriptorPtrAlloc
  simp only [withDrafts_descriptorPtrPool]
  cases s.descriptorPtrPool.get with
  | none => exact .inl ⟨rfl, rfl⟩
  | some x =>
    exact .inr ⟨_, _, _, rfl, rfl, h.globals (fun s => { s with descriptorPtrPool := x.2 })
      (fun _ => rfl) fun _ => rfl⟩

theorem messageAlloc (h : Drafted ds s t) (size : Int) :
    Allocates ds (messageAlloc s size) (messageAlloc t size) := by
  obtain rfl := h.eq
  unfold DisastrOS.messageAlloc
  split
  · exact .inl ⟨rfl, rfl⟩
  · simp only [withDrafts_messagePool, withDrafts_running]
    cases s.messagePool.get with
    | none => exact .inl ⟨rfl, rfl⟩
    | some x =>
      exact .inr ⟨_, _, _, rfl, rfl, h.globals (fun s => { s with messagePool := x.2 })
        (fun _ => rfl) fun _ => rfl⟩

/-- A queue that is set up has nobody waiting at it. -/
theorem messageQueueAlloc (h : Drafted ds s t) (id size : Int) :
    Allocates ds (messageQueueAlloc s id size) (messageQueueAlloc t id size) := by
  obtain rfl := h.eq
  unfold DisastrOS.messageQueueAlloc
  simp only [withDrafts_queuePool]
  cases s.queuePool.get with
  | none => exact .inl ⟨rfl, rfl⟩
  | some x =>
    obtain ⟨-, ha, hk⟩ := h
    refine .inr ⟨x.1, _, _, rfl, rfl, rfl, ha, fun p hd L hL hm => ?_⟩
    have hmem : p ∈ s.list L := by
      cases L with
      | receivers i | senders i =>
        simp only [State.list, updQueue_queues] at hm ⊢
        split at hm
        · exact absurd hm List.not_mem_nil
        · exact hm
      | _ => exact hm
    exact hk p hd L hL hmem

theorem timerListAdd (h : Drafted ds s t) (time : Int) (p : PcbRef) :
    Allocates ds (timerListAdd s time p) (timerListAdd t time p) := by
  obtain rfl := h.eq
  unfold DisastrOS.timerListAdd
  simp only [withDrafts_timerPool]
  cases s.timerPool.get with
  | none => exact .inl ⟨rfl, rfl⟩
  | some x =>
    have h1 := h.globals (fun s => { s with timerPool := x.2 }) (fun _ => rfl) fun _ => rfl
    have h2 := h1.setTimer p (some x.1)
    exact .inr ⟨_, _, _, rfl, rfl, h2.globals
      (fun s => { s with timerList := timerInsert ⟨x.1, time, p⟩ s.timerList })
      (fun _ => rfl) fun _ => rfl⟩

/-! ## Resources -/

theorem resourceFree (h : Drafted ds s t) (x : ResourceRef) :
    Corresponds (Drafted ds) (resourceFree s x) (resourceFree t x) := by
  have h1 : ∀ i, Drafted ds { s with resourcePool := s.resourcePool.release i }
      { t with resourcePool := t.resourcePool.release i } := fun i =>
    h.globals (fun s => { s with resourcePool := s.resourcePool.release i }) (fun _ => rfl)
      fun _ => rfl
  obtain rfl := h.eq
  unfold DisastrOS.resourceFree
  simp only [withDrafts_resource]
  split
  · exact rfl
  · cases x with
    | generic i => exact h1 i
    | queue q => exact h

theorem detachResource (h : Drafted ds s t) (x : ResourceRef) :
    Corresponds (Drafted ds) (detachResource s x) (detachResource t x) := by
  have h1 := h.globals (fun s => { s with resourcesList := s.resourcesList.erase x }) (fun _ => rfl)
    fun _ => rfl
  obtain rfl := h.eq
  unfold DisastrOS.detachResource
  simp only [withDrafts_resourcesList]
  split
  · exact h1
  · exact rfl

theorem descriptorFree (h : Drafted ds s t) (d : Descriptor) :
    Drafted ds (descriptorFree s d) (descriptorFree t d) :=
  h.globals (DisastrOS.descriptorFree · d) (fun _ => rfl) fun _ => rfl

theorem descriptorPtrFree (h : Drafted ds s t) (b : Nat) :
    Drafted ds (descriptorPtrFree s b) (descriptorPtrFree t b) :=
  h.globals (DisastrOS.descriptorPtrFree · b) (fun _ => rfl) fun _ => rfl

theorem detachDescriptorPtr (h : Drafted ds s t) (d : Descriptor) :
    Corresponds (Drafted ds) (detachDescriptorPtr s d) (detachDescriptorPtr t d) := by
  have h1 := h.updResource d.resource fun res =>
    { res with descriptorsPtrs := res.descriptorsPtrs.eraseP (·.block = d.ptr) }
  obtain rfl := h.eq
  unfold DisastrOS.detachDescriptorPtr
  simp only [withDrafts_resource]
  split
  · exact h1
  · exact rfl

theorem linkDescriptor (h : Drafted ds s t) (p : PcbRef) (d : Descriptor) (dp : DescriptorPtr) :
    Drafted ds (linkDescriptor s p d dp) (linkDescriptor t p d dp) := by
  have h1 := (h.setDescriptors p
    ((s.pcbs p).descriptors ++ [{ d with ptr := dp.block }])).updResource d.resource fun res =>
      { res with descriptorsPtrs := res.descriptorsPtrs ++ [dp], refCount := res.refCount + 1 }
  obtain rfl := h.eq
  exact h1

theorem openDescriptor (h : Drafted ds s t) (p : PcbRef) (found : Option ResourceRef)
    (type mode : Int) : Corresponds (Drafted ds)
      (internalOpenResource.openDescriptor s p found type mode)
      (internalOpenResource.openDescriptor t p found type mode) := by
  unfold internalOpenResource.openDescriptor
  cases found with
  | none => exact h.setRetvalue p _
  | some x =>
    have h1 := h.descriptorAlloc (s.pcbs p).lastFd x p
    obtain rfl := h.eq
    simp only [withDrafts_resource, withDrafts_pcbs, scribble_lastFd]
    split
    · exact h.setRetvalue p _
    split
    · exact h.setRetvalue p _
    rcases h1 with ⟨h2, h3⟩ | ⟨des, s₁, t₁, h2, h3, h1⟩
    · rw [h2, h3]
      exact h.setRetvalue p _
    · rw [h2, h3]
      dsimp only
      rcases h1.descriptorPtrAlloc des with ⟨h4, h5⟩ | ⟨dp, s₂, t₂, h4, h5, h6⟩
      · rw [h4, h5]
        exact (h1.descriptorFree des).setRetvalue p _
      · rw [h4, h5]
        have h7 := (h6.linkDescriptor p des dp).updPcb_same p
          (f := fun a => { a with lastFd := a.lastFd + 1 }) (fun _ => rfl) fun _ => rfl
        exact h7.setRetvalue p _

theorem openResource (h : Drafted ds s t) (hr : ds s.running = none) :
    Corresponds (Drafted ds) (internalOpenResource s) (internalOpenResource t) := by
  have h1 := h.resourceAlloc
  have h2 := h.openDescriptor s.running
  obtain rfl := h.eq
  unfold internalOpenResource resourceListById
  simp only [withDrafts_running, withDrafts_pcbs_of_none hr, withDrafts_resource,
    withDrafts_resourcesList]
  split
  · split
    · exact h.setRetvalue _ _
    · rcases h1 ((s.pcbs s.running).syscallArgs 0) ((s.pcbs s.running).syscallArgs 1) with
        ⟨h3, h4⟩ | ⟨x, s₁, t₁, h3, h4, h5⟩
      · rw [h3, h4]
        exact h.setRetvalue _ _
      · rw [h3, h4]
        have h6 := h5.globals (fun s => { s with resourcesList := s.resourcesList ++ [x] })
          (fun _ => rfl) fun _ => rfl
        exact h6.openDescriptor _ _ _ _
  · exact h2 _ _ _

theorem closeResource (h : Drafted ds s t) (hr : ds s.running = none) :
    Corresponds (Drafted ds) (internalCloseResource s) (internalCloseResource t) := by
  have h1 := h.setDescriptors s.running
  obtain rfl := h.eq
  unfold internalCloseResource
  simp only [withDrafts_running, withDrafts_pcbs_of_none hr]
  split
  · exact h.setRetvalue _ _
  · rename_i des _
    refine ((h1 _).detachDescriptorPtr des).bind fun a b h2 => ?_
    have h3 := (h2.descriptorFree des).descriptorPtrFree des.ptr
    rw [h3.resource]
    split
    · exact rfl
    · exact (h3.updResource _ _).setRetvalue _ _

theorem destroyResource (h : Drafted ds s t) (hr : ds s.running = none) :
    Corresponds (Drafted ds) (internalDestroyResource s) (internalDestroyResource t) := by
  have h1 := h.detachResource
  obtain rfl := h.eq
  unfold internalDestroyResource resourceListById
  simp only [withDrafts_running, withDrafts_pcbs_of_none hr, withDrafts_resource,
    withDrafts_resourcesList]
  split
  · exact h.setRetvalue _ _
  · split
    · exact h.setRetvalue _ _
    · refine (h1 _).bind fun a b h2 => ?_
      exact (h2.resourceFree _).bind fun a b h3 => h3.setRetvalue _ _

/-! ## Processes -/

theorem preempt (h : Drafted ds s t) :
    Corresponds (Drafted ds) (internalPreempt s) (internalPreempt t) := h.schedule

theorem sleep (h : Drafted ds s t) (hr : ds s.running = none) :
    Corresponds (Drafted ds) (internalSleep s) (internalSleep t) := by
  have h1 := h.timerListAdd (s.time + (s.pcbs s.running).syscallArgs 0) s.running
  obtain rfl := h.eq
  unfold internalSleep
  simp only [withDrafts_running, withDrafts_pcbs_of_none hr, withDrafts_time]
  split
  · exact h.setRetvalue _ _
  rcases h1 with ⟨h2, h3⟩ | ⟨b, s₁, t₁, h2, h3, h4⟩
  · rw [h2, h3]
    exact h.setRetvalue _ _
  · rw [h2, h3]
    have h5 := ((h4.setRetvalue s.running 0).setStatus s.running .waiting
      (.inr hr)).setTimer s.running (some b)
    exact (h5.listInsertLast (L := .waiting) _ fun _ => hr).bind fun _ _ h6 => h6.schedule

theorem spawn (h : Drafted ds s t) :
    Corresponds (Drafted ds) (internalSpawn s) (internalSpawn t) := by
  unfold internalSpawn
  rcases h.pcbAlloc with ⟨h1, h2⟩ | ⟨p, s₁, t₁, h1, h2, h3⟩
  · rw [h1, h2, h.running]
    exact h.setRetvalue _ _
  · rw [h1, h2]
    dsimp only
    rw [h3.running]
    have h4 := h3.updPcb p (f := ({ · with
      status := .ready, descriptors := [], lastFd := 0, timer := none, parent := some s₁.running }))
      (fun _ => rfl) (.inl (by simp))
    rcases h4.pcbPtrAlloc p with ⟨h5, h6⟩ | ⟨x, s₂, t₂, h5, h6, h7⟩
    · rw [h5, h6]
      exact rfl
    · rw [h5, h6]
      have h8 := h7.setChildren s₂.running ((s₂.pcbs s₂.running).children ++ [x])
      obtain rfl := h7.eq
      refine (h8.listInsertLast (L := .ready) p fun hL => by cases hL).bind fun a b h9 => ?_
      obtain rfl := h9.eq
      exact h9.setRetvalue _ _

theorem forkDescriptors (p : PcbRef) : ∀ (xs : List Descriptor) {s t : State}, Drafted ds s t →
    Corresponds (Drafted ds) (forkDescriptors p xs s) (forkDescriptors p xs t)
  | [], _, _, h => h
  | x :: xs, s, t, h => by
    simp only [DisastrOS.forkDescriptors]
    rcases h.descriptorAlloc x.fd x.resource p with ⟨h1, h2⟩ | ⟨des, s₁, t₁, h1, h2, h3⟩
    · rw [h1, h2]
      exact rfl
    · rw [h1, h2]
      dsimp only
      rcases h3.descriptorPtrAlloc des with ⟨h4, h5⟩ | ⟨dp, s₂, t₂, h4, h5, h6⟩
      · rw [h4, h5]
        exact rfl
      · rw [h4, h5]
        exact forkDescriptors p xs (h6.linkDescriptor p des dp)

theorem fork (h : Drafted ds s t) :
    Corresponds (Drafted ds) (internalFork s) (internalFork t) := by
  unfold internalFork
  rcases h.pcbAlloc with ⟨h1, h2⟩ | ⟨p, s₁, t₁, h1, h2, h3⟩
  · rw [h1, h2, h.running]
    exact h.setRetvalue _ _
  · rw [h1, h2]
    dsimp only
    rw [h3.running]
    have h4 := h3.updPcb p (f := ({ · with status := .ready, parent := some s₁.running }))
      (fun _ => rfl) (.inl (by simp))
    rcases h4.pcbPtrAlloc p with ⟨h5, h6⟩ | ⟨x, s₂, t₂, h5, h6, h7⟩
    · rw [h5, h6]
      exact rfl
    · rw [h5, h6]
      have h8 := h7.setChildren s₂.running ((s₂.pcbs s₂.running).children ++ [x])
      obtain rfl := h7.eq
      have h9 := forkDescriptors p ((s₂.setChildren s₂.running
        ((s₂.pcbs s₂.running).children ++ [x])).pcbs s₂.running).descriptors h8
      refine Corresponds.bind (R := Drafted ds) ?_ fun a b h10 => ?_
      · simpa using h9
      · obtain rfl := h10.eq
        exact (h10.setRetvalue _ _).listInsertLast (L := .ready) p fun hL => by cases hL

theorem waitScan (h : Drafted ds s t) (pid : Int) : ∀ (es : List PCBPtr) (cur : Option PCBPtr),
    waitScan t pid cur es = waitScan s pid cur es
  | [], _ => rfl
  | e :: es, cur => by
    have ih := waitScan h pid es
    obtain rfl := h.eq
    simp only [DisastrOS.waitScan, withDrafts_pcbs, scribble_status, scribble_pid, ih]

theorem storeResult (h : Drafted ds s t) (result : Int) {v w : Int} (hv : w = v) :
    Drafted ds (storeResult s result v) (storeResult t result w) := by
  subst hv
  unfold DisastrOS.storeResult
  split
  · exact h
  · exact h.globals (fun s => { s with mem := memWrite s.mem result (intBytes w) }) (fun _ => rfl)
      fun _ => rfl

theorem pcbFree (h : Drafted ds s t) (p : PcbRef) : Drafted ds (pcbFree s p) (pcbFree t p) :=
  h.globals (DisastrOS.pcbFree · p) (fun _ => rfl) fun _ => rfl

theorem pcbPtrFree (h : Drafted ds s t) (e : PCBPtr) :
    Drafted ds (pcbPtrFree s e) (pcbPtrFree t e) :=
  h.globals (DisastrOS.pcbPtrFree · e) (fun _ => rfl) fun _ => rfl

/-- The first ready process takes over. -/
theorem next (h : Drafted ds s t) : Corresponds (Drafted ds)
    (do
      let (next, s) ← s.listDetachFirst .ready
      .ok ((s.setStatus next .running).setRunning next))
    (do
      let (next, t) ← t.listDetachFirst .ready
      .ok ((t.setStatus next .running).setRunning next)) := by
  refine (h.listDetachFirst (L := .ready)).bind ?_
  rintro ⟨p, s₁⟩ ⟨p', t₁⟩ ⟨rfl, -, h1⟩
  exact (h1.setStatus p .running (.inl (by decide))).setRunning p

theorem waitSleep (h : Drafted ds s t) (hp : ds p = none) :
    Corresponds (Drafted ds) (internalWait.waitSleep s p) (internalWait.waitSleep t p) :=
  ((h.setStatus p .waiting (.inr hp)).listInsertLast (L := .waiting) p fun _ => hp).bind
    fun _ _ h1 => h1.next

theorem wait (h : Drafted ds s t) (hr : ds s.running = none) :
    Corresponds (Drafted ds) (internalWait s) (internalWait t) := by
  have h1 := h.waitScan
  have h2 := h.setChildren s.running
  have h3 := h.waitSleep hr
  obtain rfl := h.eq
  unfold internalWait
  simp only [withDrafts_running, withDrafts_pcbs_of_none hr, h1]
  split
  · exact h.setRetvalue _ _
  · split
    · split
      · exact h.setRetvalue _ _
      · exact h3
    · rename_i e _
      simp only [withDrafts_pcbs, scribble_status]
      split
      · refine (((h2 _).pcbPtrFree e).listDetach (L := .zombie) e.pcb).bind fun a b h4 => ?_
        obtain rfl := h4.eq
        have h5 := h4.setRetvalue s.running (a.pcbs e.pcb).pid
        exact (h5.storeResult _ (h5.returnValue e.pcb)).pcbFree e.pcb
      · exact h3

/-! ## Exit -/

theorem reparentChildren : ∀ (fuel : Nat) {s t : State}, Drafted ds s t →
    Corresponds (Drafted ds) (reparentChildren fuel s) (reparentChildren fuel t)
  | 0, _, _, _ => rfl
  | fuel + 1, s, t, h => by
    have h1 := h.setChildren s.running
    obtain rfl := h.eq
    simp only [DisastrOS.reparentChildren, withDrafts_running, withDrafts_pcbs, scribble_children]
    split
    · exact h
    · rename_i item items _
      have h2 := (h1 items).setChildren s.initPcb
        (((s.setChildren s.running items).pcbs s.initPcb).children ++ [item])
      have hc : (((s.withDrafts ds).setChildren s.running items).pcbs s.initPcb).children =
          ((s.setChildren s.running items).pcbs s.initPcb).children := by
        rw [(h1 items).eq]
        rfl
      simp only [setChildren_initPcb, withDrafts_initPcb, hc]
      exact reparentChildren fuel (h2.signal item.pcb dsosSighup)

/-- A parent that waits is not in the middle of a call, so that what it has saved can be read. -/
theorem waitsFor (h : Drafted ds s t) (parent : PcbRef) (pid : Nat) :
    waitsFor t parent pid ↔ waitsFor s parent pid := by
  have h1 := h.none_of_waiting (p := parent)
  obtain rfl := h.eq
  unfold DisastrOS.waitsFor
  by_cases hw : (s.pcbs parent).status = .waiting
  · rw [withDrafts_pcbs_of_none (h1 hw)]
  · simp [hw]

theorem purgeTimers (h : Drafted ds s t) (p : PcbRef) :
    Drafted ds (purgeTimers s p) (purgeTimers t p) :=
  h.globals (DisastrOS.purgeTimers · p) (fun _ => rfl) fun _ => rfl

theorem releaseDescriptors (p : PcbRef) : ∀ (xs : List Descriptor) {s t : State},
    Drafted ds s t →
      Corresponds (Drafted ds) (releaseDescriptors p xs s) (releaseDescriptors p xs t)
  | [], _, _, h => h
  | x :: xs, s, t, h => by
    simp only [DisastrOS.releaseDescriptors]
    refine ((h.setDescriptors p xs).detachDescriptorPtr x).bind fun a b h1 => ?_
    have h2 := ((h1.updResource x.resource fun res =>
      { res with refCount := res.refCount - 1 }).descriptorPtrFree x.ptr).descriptorFree x
    obtain rfl := h1.eq
    have hc := congrArg Resource.refCount (h2.resource x.resource)
    unfold decRefCount at *
    rw [hc]
    split
    · refine (h2.detachResource _).bind fun a b h3 => ?_
      exact (h3.resourceFree _).bind fun a b h4 => releaseDescriptors p xs h4
    · exact releaseDescriptors p xs h2

theorem pcbPtrByPid (h : Drafted ds s t) (es : List PCBPtr) (pid : Nat) :
    pcbPtrByPid t es pid = pcbPtrByPid s es pid := by
  rw [h.eq]
  rfl

theorem exitToParent (h : Drafted ds s t) (p : PcbRef) {parent : PcbRef} (hw : ds parent = none) :
    Corresponds (Drafted ds) (exitToParent s p parent) (exitToParent t p parent) := by
  unfold DisastrOS.exitToParent
  refine (h.listDetach (L := .waiting) parent).bind fun a b h1 => ?_
  have h2 := h1.setStatus parent .running (.inl (by decide))
  generalize a.setStatus parent .running = s₂ at *
  generalize b.setStatus parent .running = t₂ at *
  dsimp only
  rw [h2.pid, h2.pcb_of_none hw, h2.pcbPtrByPid]
  split
  · exact rfl
  · rename_i e _
    have h3 := (h2.setChildren parent ((s₂.pcbs parent).children.erase e)).setRetvalue parent
      (s₂.pcbs p).pid
    rw [h3.pcb_of_none hw]
    have h4 := fun result => (h3.storeResult result (h3.returnValue p)).purgeTimers p
    refine Corresponds.bind (R := Drafted ds) ?_ fun a b h5 => ?_
    · rw [(h4 _).descriptors]
      exact releaseDescriptors p _ (h4 _)
    · exact (h5.listDetach (L := .zombie) p).bind fun _ _ h6 => (h6.pcbFree p).setRunning parent

theorem exit (h : Drafted ds s t) (hr : ds s.running = none) :
    Corresponds (Drafted ds) (internalExit s) (internalExit t) := by
  have h1 := h.updPcb_same s.running (f := fun a => { a with returnValue := a.syscallArgs 0 })
    (by simp [hr]) fun _ => rfl
  obtain rfl := h.eq
  unfold internalExit
  rw [withDrafts_running]
  dsimp only
  rw [h1.pcb_of_none hr]
  refine (reparentChildren _ h1).bind fun a b h2 => ?_
  have h3 := h2.setStatus s.running .zombie (.inl (by decide))
  refine (h3.listInsertLast (L := .zombie) s.running fun hL => by cases hL).bind fun a b h4 => ?_
  rw [h4.pcb_of_none hr]
  split
  · exact rfl
  · rename_i parent _
    have h5 := h4.signal parent dsosSigchld
    by_cases hw : DisastrOS.waitsFor (a.signal parent dsosSigchld) parent
      ((a.signal parent dsosSigchld).pcbs s.running).pid
    · rw [if_pos hw, if_pos (by rwa [h5.pid, h5.waitsFor])]
      exact h5.exitToParent _ (h5.none_of_waiting hw.1)
    · rw [if_neg hw, if_neg (by rwa [h5.pid, h5.waitsFor])]
      exact h5.next

/-! ## Messages -/

theorem queue (h : Drafted ds s t) (q : QueueRef) : t.queues q = s.queues q := by
  rw [h.eq]
  rfl

theorem call (h : Drafted ds s t) (p : PcbRef) : (t.pcbs p).call = (s.pcbs p).call := by
  rw [h.eq]
  rfl

theorem messageFree (h : Drafted ds s t) (m : Message) :
    Drafted ds (messageFree s m) (messageFree t m) :=
  h.globals (DisastrOS.messageFree · m) (fun _ => rfl) fun _ => rfl

theorem fill (h : Drafted ds s t) (m : Message) (p : PcbRef) (buffer : Int) :
    m.fill t p buffer = m.fill s p buffer := by
  rw [h.eq]
  rfl

theorem pushMessage (h : Drafted ds s t) (q : QueueRef) (m : Message) :
    Drafted ds (pushMessage s q m) (pushMessage t q m) := by
  unfold DisastrOS.pushMessage
  rw [h.queue]
  exact (h.updQueue q (f := fun mq => { mq with
    messages := mq.messages ++ [m], currentMessages := mq.currentMessages + 1 })
    (fun _ => rfl) fun _ => rfl).record _

theorem popMessage (h : Drafted ds s t) (q : QueueRef) (p : PcbRef) :
    Corresponds (fun a b => a.1 = b.1 ∧ Drafted ds a.2 b.2) (popMessage s q p)
      (popMessage t q p) := by
  unfold DisastrOS.popMessage
  rw [h.queue, h.call]
  split
  · exact rfl
  · rename_i m ms _
    exact ⟨rfl, (h.updQueue q (f := fun mq => { mq with
      messages := ms, currentMessages := mq.currentMessages - 1 }) (fun _ => rfl)
      fun _ => rfl).record _⟩

theorem deliver (h : Drafted ds s t) (p : PcbRef) (buffer : Int) (m : Message) :
    Drafted ds (deliver s p buffer m) (deliver t p buffer m) := by
  unfold DisastrOS.deliver
  rw [h.call]
  refine record ?_ _
  rw [show t.mem = s.mem by rw [h.eq]; rfl]
  exact h.globals (fun u => { u with mem := memWrite s.mem buffer m.data }) (fun _ => rfl)
    fun _ => rfl

theorem lookupQueue (h : Drafted ds s t) (id : Int) : lookupQueue t id = lookupQueue s id := by
  unfold DisastrOS.lookupQueue resourceListById
  rw [h.resourcesList]
  simp only [h.resource]

/-! ## Sending -/

theorem handOff (h : Drafted ds s t) (q : QueueRef) :
    Corresponds (Drafted ds) (handOff s q) (handOff t q) := by
  unfold DisastrOS.handOff
  refine (h.listDetachFirst (L := .receivers q)).bind ?_
  rintro ⟨p, s₁⟩ ⟨p', t₁⟩ ⟨rfl, hp, h1⟩
  dsimp only
  -- the receiver has waited, so that its saved call is complete
  rw [h1.pcb_of_none (hp rfl)]
  refine (h1.popMessage q p).bind ?_
  rintro ⟨m, s₂⟩ ⟨m', t₂⟩ ⟨rfl, h2⟩
  refine listInsertLast (L := .ready) (setStatus ?_ p .ready (.inl (by decide))) p fun hL => by
    cases hL
  split
  · exact (h2.setRetvalue p _).messageFree m
  · exact ((h2.deliver p _ m).setRetvalue p _).messageFree m

theorem mqSendEnqueue (h : Drafted ds s t) (p : PcbRef) (q : QueueRef) (buffer size : Int) :
    Corresponds (Drafted ds) (mqSendEnqueue s p q buffer size)
      (mqSendEnqueue t p q buffer size) := by
  unfold DisastrOS.mqSendEnqueue
  rcases h.messageAlloc size with ⟨h1, h2⟩ | ⟨m, s₁, t₁, h1, h2, h3⟩
  · rw [h1, h2, h.call]
    exact (h.record _).setRetvalue p _
  · rw [h1, h2]
    have h4 := h3.pushMessage q (m.fill s₁ p buffer)
    dsimp only
    rw [h3.fill, h4.queue]
    split
    · exact (h4.handOff q).bind fun _ _ h5 => h5.setRetvalue p _
    · exact h4.setRetvalue p _

/-- The part of the calls that lets the caller wait in the list `L`. -/
theorem block (h : Drafted ds s t) (hp : ds p = none) (L : PcbList) (r : Int)
    {k k' : State → Except Halt State}
    (hk : ∀ a b, Drafted ds a b → Corresponds (Drafted ds) (k a) (k' b)) :
    Corresponds (Drafted ds)
      (do
        let s₁ ← (s.setStatus p .waiting).listInsertLast L p
        let s₁ ← internalSchedule s₁
        if s₁.running = p ∧ (s₁.pcbs p).status = .waiting then
          let s₁ ← s₁.listDetach L p
          .ok ((s₁.setStatus p .running).setRetvalue p r)
        else if s₁.running ≠ p then .ok s₁ else k s₁)
      (do
        let t₁ ← (t.setStatus p .waiting).listInsertLast L p
        let t₁ ← internalSchedule t₁
        if t₁.running = p ∧ (t₁.pcbs p).status = .waiting then
          let t₁ ← t₁.listDetach L p
          .ok ((t₁.setStatus p .running).setRetvalue p r)
        else if t₁.running ≠ p then .ok t₁ else k' t₁) := by
  refine ((h.setStatus p .waiting (.inr hp)).listInsertLast (L := L) p fun _ => hp).bind
    fun a b h1 => ?_
  refine h1.schedule.bind fun a b h2 => ?_
  rw [h2.pcb_of_none hp, h2.running]
  split
  · refine (h2.listDetach (L := L) p).bind fun a b h3 => ?_
    exact (h3.setStatus p .running (.inl (by decide))).setRetvalue p r
  · split
    · exact h2
    · exact hk a b h2

theorem mqSend (h : Drafted ds s t) (hr : ds s.running = none) :
    Corresponds (Drafted ds) (internalMqSend s) (internalMqSend t) := by
  unfold internalMqSend
  rw [h.running]
  simp only [h.pcb_of_none hr, h.lookupQueue]
  split
  · exact h.setRetvalue _ _
  split
  · exact h.setRetvalue _ _
  cases DisastrOS.lookupQueue s ((s.pcbs s.running).syscallArgs 0) with
  | error e => exact rfl
  | ok found =>
    simp only [ok_bind]
    cases found with
    | none => exact h.setRetvalue _ _
    | some q =>
      simp only [h.queue]
      split
      · split
        · exact h.setRetvalue _ _
        · refine h.block hr (.senders q) _ fun a b h1 => ?_
          rw [h1.queue]
          split
          · exact h1
          · exact h1.mqSendEnqueue _ _ _ _
      · exact h.mqSendEnqueue _ _ _ _

/-! ## Receiving -/

theorem completeSend (h : Drafted ds s t) (q : QueueRef) :
    Corresponds (Drafted ds) (completeSend s q) (completeSend t q) := by
  unfold DisastrOS.completeSend
  refine (h.listDetachFirst (L := .senders q)).bind ?_
  rintro ⟨p, s₁⟩ ⟨p', t₁⟩ ⟨rfl, hp, h1⟩
  dsimp only
  -- the sender has waited, so that its saved call is complete
  rw [h1.pcb_of_none (hp rfl)]
  refine listInsertLast (L := .ready) (setStatus ?_ p .ready (.inl (by decide))) p fun hL => by
    cases hL
  split
  · exact (h1.record _).setRetvalue p _
  · rcases h1.messageAlloc ((s₁.pcbs p).syscallArgs 2) with ⟨h2, h3⟩ | ⟨m, s₂, t₂, h2, h3, h4⟩
    · rw [h2, h3]
      exact (h1.record _).setRetvalue p _
    · rw [h2, h3]
      dsimp only
      rw [h4.fill]
      exact (h4.pushMessage q _).setRetvalue p 0

theorem mqReceiveTake (h : Drafted ds s t) (p : PcbRef) (q : QueueRef) (buffer size : Int) :
    Corresponds (Drafted ds) (mqReceiveTake s p q buffer size)
      (mqReceiveTake t p q buffer size) := by
  unfold DisastrOS.mqReceiveTake
  refine (h.popMessage q p).bind ?_
  rintro ⟨m, s₁⟩ ⟨m', t₁⟩ ⟨rfl, h1⟩
  dsimp only
  split
  · exact (h1.messageFree m).setRetvalue p _
  · have h2 := (h1.deliver p buffer m).messageFree m
    rw [h2.queue]
    split
    · exact (h2.completeSend q).bind fun _ _ h3 => h3.setRetvalue p _
    · exact h2.setRetvalue p _

theorem mqReceive (h : Drafted ds s t) (hr : ds s.running = none) :
    Corresponds (Drafted ds) (internalMqReceive s) (internalMqReceive t) := by
  unfold internalMqReceive
  rw [h.running]
  simp only [h.pcb_of_none hr, h.lookupQueue]
  split
  · exact h.setRetvalue _ _
  split
  · exact h.setRetvalue _ _
  cases DisastrOS.lookupQueue s ((s.pcbs s.running).syscallArgs 0) with
  | error e => exact rfl
  | ok found =>
    simp only [ok_bind]
    cases found with
    | none => exact h.setRetvalue _ _
    | some q =>
      simp only [h.queue]
      split
      · split
        · exact h.setRetvalue _ _
        · refine h.block hr (.receivers q) _ fun a b h1 => ?_
          rw [h1.queue]
          split
          · exact h1
          · exact h1.mqReceiveTake _ _ _ _
      · exact h.mqReceiveTake _ _ _ _

/-! ## Creating and destroying -/

theorem mqCreate (h : Drafted ds s t) (hr : ds s.running = none) :
    Corresponds (Drafted ds) (internalMqCreate s) (internalMqCreate t) := by
  unfold internalMqCreate resourceListById
  rw [h.running, h.resourcesList]
  simp only [h.pcb_of_none hr, h.resource]
  split
  · exact h.setRetvalue _ _
  split
  · exact h.setRetvalue _ _
  rcases h.messageQueueAlloc ((s.pcbs s.running).syscallArgs 0)
    ((s.pcbs s.running).syscallArgs 1) with ⟨h1, h2⟩ | ⟨q, s₁, t₁, h1, h2, h3⟩
  · rw [h1, h2]
    exact h.setRetvalue _ _
  · rw [h1, h2]
    have h4 := h3.globals (fun u => { u with resourcesList := u.resourcesList ++ [.queue q] })
      (fun _ => rfl) fun _ => rfl
    exact (h4.record _).setRetvalue _ _

theorem wakeAll : ∀ (ps : List PcbRef) {s t : State}, Drafted ds s t →
    Corresponds (Drafted ds) (wakeAll L ps s) (wakeAll L ps t)
  | [], _, _, h => h
  | _ :: ps, s, t, h => by
    refine (h.listDetachFirst (L := L)).bind ?_
    rintro ⟨p, s₁⟩ ⟨p', t₁⟩ ⟨rfl, -, h1⟩
    have h2 := (h1.setStatus p .ready (.inl (by decide))).setRetvalue p dsosEMqNotOpen
    exact (h2.listInsertLast (L := .ready) p fun hL => by cases hL).bind fun _ _ h3 => wakeAll ps h3

theorem freeMessages (q : QueueRef) : ∀ (ms : List Message) {s t : State}, Drafted ds s t →
    Drafted ds (freeMessages q ms s) (freeMessages q ms t)
  | [], _, _, h => h
  | m :: ms, s, t, h => by
    have h1 := h.updQueue q (f := ({ · with messages := ms })) (fun _ => rfl) fun _ => rfl
    simp only [DisastrOS.freeMessages]
    rw [h1.queue]
    exact freeMessages q ms ((h1.messageFree m).record _)

theorem messageQueueFree (h : Drafted ds s t) (q : QueueRef) :
    Corresponds (Drafted ds) (messageQueueFree s q) (messageQueueFree t q) := by
  unfold DisastrOS.messageQueueFree
  rw [h.queue]
  dsimp only
  split
  · exact rfl
  · exact h.globals (fun u => { u with queuePool := u.queuePool.release q }) (fun _ => rfl)
      fun _ => rfl

theorem setMqStatus (h : Drafted ds s t) (q : QueueRef) (st : MQStatus) :
    Drafted ds (setMqStatus s q st) (setMqStatus t q st) :=
  h.updQueue q (fun _ => rfl) fun _ => rfl

theorem mqDestroy (h : Drafted ds s t) (hr : ds s.running = none) :
    Corresponds (Drafted ds) (internalMqDestroy s) (internalMqDestroy t) := by
  unfold internalMqDestroy
  rw [h.running]
  simp only [h.pcb_of_none hr, h.lookupQueue]
  split
  · exact h.setRetvalue _ _
  cases DisastrOS.lookupQueue s ((s.pcbs s.running).syscallArgs 0) with
  | error e => exact rfl
  | ok found =>
    simp only [ok_bind]
    cases found with
    | none => exact h.setRetvalue _ _
    | some q =>
      simp only [h.queue]
      split
      · exact h.setRetvalue _ _
      have h1 := h.setMqStatus q .closing
      rw [h1.queue]
      refine (wakeAll _ h1).bind fun a b h2 => ?_
      rw [h2.queue]
      refine (wakeAll _ h2).bind fun a b h3 => ?_
      rw [h3.queue]
      have h4 := (freeMessages q (a.queues q).messages h3).setMqStatus q .closed
      refine (h4.detachResource (.queue q)).bind fun a b h5 => ?_
      exact (h5.messageQueueFree q).bind fun a b h6 => (h6.record _).setRetvalue _ _

/-! ## The trap -/

/-- An entry of `syscall_vector`, and the entries after it. -/
theorem entry {c : Prop} [Decidable c] {f g : State → Except Halt State}
    {rest : Option (State → Except Halt State)} (hf : Corresponds (Drafted ds) (f s) (f t))
    (hrest : rest = some g → Corresponds (Drafted ds) (g s) (g t))
    (hg : (if c then some f else rest) = some g) : Corresponds (Drafted ds) (g s) (g t) := by
  split at hg
  · cases hg
    exact hf
  · exact hrest hg

theorem mySyscall {f : State → Except Halt State} {num : Nat} (h : Drafted ds s t)
    (hr : ds s.running = none) (hf : syscallVector num = some f) :
    Corresponds (Drafted ds) (f s) (f t) := by
  revert hf
  unfold syscallVector
  refine entry h.preempt (entry h.fork ?_)
  refine entry h.spawn (entry (h.wait hr) ?_)
  refine entry (h.exit hr) (entry (h.sleep hr) ?_)
  refine entry (h.openResource hr) (entry (h.closeResource hr) ?_)
  refine entry (h.destroyResource hr) (entry (h.mqCreate hr) ?_)
  refine entry (h.mqSend hr) (entry (h.mqReceive hr) ?_)
  refine entry (h.mqDestroy hr) (entry rfl fun hf => ?_)
  cases hf

/-- **The kernel does not read what others have begun.** -/
theorem trap (h : Drafted ds s t) (hr : ds s.running = none) :
    Corresponds (Drafted ds) (disastrOSTrap s) (disastrOSTrap t) := by
  unfold disastrOSTrap
  rw [h.running, h.pcb_of_none hr]
  cases hf : syscallVector (s.pcbs s.running).syscallNum with
  | none => exact h.setRetvalue _ _
  | some f => exact h.mySyscall hr hf

theorem tick (h : Drafted ds s t) :
    Corresponds (Drafted ds) (timerInterrupt s) (timerInterrupt t) := by
  have h1 := h.globals (fun u => { u with time := u.time + 1 }) (fun _ => rfl) fun _ => rfl
  exact h1.schedule

end Drafted

end

end DisastrOS
