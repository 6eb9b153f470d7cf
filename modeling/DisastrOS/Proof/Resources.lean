import DisastrOS.Proof.Frames

/-!
# The list of resources in any run

`Listed s` holds after every run, whatever was opened, closed, created and destroyed: an entry of
`resources_list` is there once and is an outstanding block of its pool. `Keeps s s'` says that the
list, its two pools and the ids and types of the entries are unchanged. The calls on resources are
taken apart as those on processes are (`open_cases`, `close_cases`, ...).
-/

namespace DisastrOS

open Lib State

/-- What always holds of the list of resources. -/
structure Listed (s : State) : Prop where
  nodup : s.resourcesList.Nodup
  resourcePool : s.resourcePool.Ok
  queuePool : s.queuePool.Ok
  generic : ∀ {i}, .generic i ∈ s.resourcesList → s.resourcePool.Used i
  queue : ∀ {q}, .queue q ∈ s.resourcesList → s.queuePool.Used q
  type : ∀ {q}, .queue q ∈ s.resourcesList → (s.resource (.queue q)).type = resourceMessageQueue
  id : ∀ {q}, .queue q ∈ s.resourcesList → (s.resource (.queue q)).id = (s.queues q).queueId

/-- The same entries, with the same ids and types. -/
structure Keeps (s s' : State) : Prop where
  list : s'.resourcesList = s.resourcesList
  resourcePool : s'.resourcePool = s.resourcePool
  queuePool : s'.queuePool = s.queuePool
  id : ∀ r, (s'.resource r).id = (s.resource r).id
  type : ∀ r, (s'.resource r).type = (s.resource r).type
  queueId : ∀ q, (s'.queues q).queueId = (s.queues q).queueId

section
variable {s s' s'' : State} {L : PcbList} {p : PcbRef} {q : QueueRef} {r r' : ResourceRef}
  {ps : List PcbRef} {i : Nat} {id type : Int} {pool : Pool}

/-! ## Reading a resource after an update -/

theorem resource_updResource {f : Resource → Resource} : (s.updResource r f).resource r' =
    if r' = r then f (s.resource r) else s.resource r' := by
  cases r with
  | generic i =>
    cases r' with
    | generic j => by_cases hj : j = i <;> simp [State.updResource, State.resource, hj]
    | queue q => simp [State.updResource, State.resource]
  | queue q =>
    cases r' with
    | generic j => simp [State.updResource, State.resource]
    | queue j => by_cases hj : j = q <;> simp [State.updResource, State.resource, hj]

theorem queues_updResource {f : Resource → Resource} : ∃ res,
    (s.updResource r f).queues q = { s.queues q with resource := res } := by
  cases r with
  | generic i => exact ⟨_, rfl⟩
  | queue i =>
    by_cases hq : q = i
    · exact ⟨f (s.queues q).resource, by simp [State.updResource, hq]⟩
    · exact ⟨(s.queues q).resource, by simp [State.updResource, hq]⟩

@[simp] theorem list_updResource {f : Resource → Resource} : (s.updResource r f).list L = s.list L := by
  cases L with
  | receivers q =>
    obtain ⟨res, hres⟩ := queues_updResource (s := s) (r := r) (q := q) (f := f)
    simp [State.list, hres]
  | senders q =>
    obtain ⟨res, hres⟩ := queues_updResource (s := s) (r := r) (q := q) (f := f)
    simp [State.list, hres]
  | _ => cases r <;> rfl

/-- Everything but the resources and the queues is untouched. -/
theorem updResource_same {f : Resource → Resource} :
    { s.updResource r f with resources := s.resources, queues := s.queues } = s := by
  cases r <;> rfl

@[simp] theorem updResource_pcbs {f : Resource → Resource} : (s.updResource r f).pcbs = s.pcbs :=
  (congrArg State.pcbs (updResource_same (s := s) (r := r) (f := f)) :)
@[simp] theorem updResource_running {f : Resource → Resource} :
    (s.updResource r f).running = s.running :=
  (congrArg State.running (updResource_same (s := s) (r := r) (f := f)) :)
@[simp] theorem updResource_time {f : Resource → Resource} : (s.updResource r f).time = s.time :=
  (congrArg State.time (updResource_same (s := s) (r := r) (f := f)) :)
@[simp] theorem updResource_lastPid {f : Resource → Resource} :
    (s.updResource r f).lastPid = s.lastPid :=
  (congrArg State.lastPid (updResource_same (s := s) (r := r) (f := f)) :)
@[simp] theorem updResource_timerList {f : Resource → Resource} :
    (s.updResource r f).timerList = s.timerList :=
  (congrArg State.timerList (updResource_same (s := s) (r := r) (f := f)) :)
@[simp] theorem updResource_resourcesList {f : Resource → Resource} :
    (s.updResource r f).resourcesList = s.resourcesList :=
  (congrArg State.resourcesList (updResource_same (s := s) (r := r) (f := f)) :)
@[simp] theorem updResource_pcbPool {f : Resource → Resource} :
    (s.updResource r f).pcbPool = s.pcbPool :=
  (congrArg State.pcbPool (updResource_same (s := s) (r := r) (f := f)) :)
@[simp] theorem updResource_queuePool {f : Resource → Resource} :
    (s.updResource r f).queuePool = s.queuePool :=
  (congrArg State.queuePool (updResource_same (s := s) (r := r) (f := f)) :)
@[simp] theorem updResource_resourcePool {f : Resource → Resource} :
    (s.updResource r f).resourcePool = s.resourcePool :=
  (congrArg State.resourcePool (updResource_same (s := s) (r := r) (f := f)) :)
@[simp] theorem updResource_descriptorPool {f : Resource → Resource} :
    (s.updResource r f).descriptorPool = s.descriptorPool :=
  (congrArg State.descriptorPool (updResource_same (s := s) (r := r) (f := f)) :)
@[simp] theorem updResource_descriptorPtrPool {f : Resource → Resource} :
    (s.updResource r f).descriptorPtrPool = s.descriptorPtrPool :=
  (congrArg State.descriptorPtrPool (updResource_same (s := s) (r := r) (f := f)) :)

/-! ## Frames -/

namespace Keeps

theorem refl (s : State) : Keeps s s := ⟨rfl, rfl, rfl, fun _ => rfl, fun _ => rfl, fun _ => rfl⟩

theorem trans (h : Keeps s s') (h' : Keeps s' s'') : Keeps s s'' where
  list := h'.list.trans h.list
  resourcePool := h'.resourcePool.trans h.resourcePool
  queuePool := h'.queuePool.trans h.queuePool
  id r := (h'.id r).trans (h.id r)
  type r := (h'.type r).trans (h.type r)
  queueId q := (h'.queueId q).trans (h.queueId q)

theorem quiet (h : Quiet s s') : Keeps s s' :=
  ⟨h.resourcesList, h.resourcePool, h.queuePool, fun r => by rw [h.resource],
    fun r => by rw [h.resource], h.queueId⟩

/-- Nothing of the resources changes. -/
theorem same (hl : s'.resourcesList = s.resourcesList) (hr : s'.resourcePool = s.resourcePool)
    (hq : s'.queuePool = s.queuePool) (hrs : s'.resources = s.resources)
    (hqs : s'.queues = s.queues) : Keeps s s' := by
  have h : ∀ r, s'.resource r = s.resource r := fun r => by
    cases r with
    | generic i => exact congrFun hrs i
    | queue q => exact congrArg MessageQueue.resource (congrFun hqs q)
  exact ⟨hl, hr, hq, fun r => by rw [h], fun r => by rw [h], fun q => by rw [hqs]⟩

theorem rescheduled (h : Rescheduled s s') : Keeps s s' :=
  same h.resourcesList (congrArg State.resourcePool h.same :) h.queuePool h.resources h.queues

theorem setList (s : State) (L : PcbList) (ps : List PcbRef) : Keeps s (s.setList L ps) := by
  have h : ∀ r, (s.setList L ps).resource r = s.resource r := fun r => by
    cases r with
    | generic i => exact congrFun setList_resources i
    | queue q => exact (congrArg MessageQueue.resource setList_queues :)
  exact ⟨setList_resourcesList, setList_resourcePool, setList_queuePool, fun r => by rw [h],
    fun r => by rw [h], fun q => (congrArg MessageQueue.queueId setList_queues :)⟩

theorem updResource {f : Resource → Resource} (hid : ∀ a, (f a).id = a.id)
    (ht : ∀ a, (f a).type = a.type) : Keeps s (s.updResource r f) := by
  refine ⟨by simp, by simp, by simp, fun r' => ?_, fun r' => ?_, fun q => ?_⟩
  · rw [resource_updResource]
    split
    · rename_i h
      rw [hid, h]
    · rfl
  · rw [resource_updResource]
    split
    · rename_i h
      rw [ht, h]
    · rfl
  · obtain ⟨res, hres⟩ := queues_updResource (s := s) (r := r) (q := q) (f := f)
    rw [hres]

end Keeps

namespace Listed

theorem keeps (h : Listed s) (hk : Keeps s s') : Listed s' where
  nodup := hk.list ▸ h.nodup
  resourcePool := hk.resourcePool ▸ h.resourcePool
  queuePool := hk.queuePool ▸ h.queuePool
  generic hi := by rw [hk.list] at hi; rw [hk.resourcePool]; exact h.generic hi
  queue hq := by rw [hk.list] at hq; rw [hk.queuePool]; exact h.queue hq
  type hq := by rw [hk.list] at hq; rw [hk.type]; exact h.type hq
  id hq := by rw [hk.list] at hq; rw [hk.id, hk.queueId]; exact h.id hq

/-- The entry `r` leaves the list. -/
theorem erase (h : Listed s) (r : ResourceRef) :
    Listed { s with resourcesList := s.resourcesList.erase r } where
  nodup := h.nodup.erase r
  resourcePool := h.resourcePool
  queuePool := h.queuePool
  generic hi := h.generic (List.mem_of_mem_erase hi)
  queue hq := h.queue (List.mem_of_mem_erase hq)
  type hq := h.type (List.mem_of_mem_erase hq)
  id hq := h.id (List.mem_of_mem_erase hq)

/-- A resource off the list is freed. -/
theorem freeResource (h : Listed s) (hi : .generic i ∉ s.resourcesList) :
    Listed { s with resourcePool := s.resourcePool.release i } := by
  refine { h with resourcePool := h.resourcePool.release i, generic := fun {j} hj => ?_ }
  have hne : j ≠ i := fun e => hi (e ▸ hj)
  have hj := h.generic hj
  by_cases hu : s.resourcePool.Used i
  · exact (Pool.used_release hu).2 ⟨hne, hj⟩
  · unfold Pool.release
    rwa [if_neg hu]

theorem freeQueue (h : Listed s) (hq : .queue q ∉ s.resourcesList) :
    Listed { s with queuePool := s.queuePool.release q } := by
  refine { h with queuePool := h.queuePool.release q, queue := fun {j} hj => ?_ }
  have hne : j ≠ q := fun e => hq (e ▸ hj)
  have hj := h.queue hj
  by_cases hu : s.queuePool.Used q
  · exact (Pool.used_release hu).2 ⟨hne, hj⟩
  · unfold Pool.release
    rwa [if_neg hu]

/-- A lookup finds an entry of the list. -/
theorem mem_of_byId (h : resourceListById s id = some r) :
    r ∈ s.resourcesList ∧ (s.resource r).id = id := by
  unfold resourceListById at h
  exact ⟨List.mem_of_find?_eq_some h, by simpa using List.find?_some h⟩

/-- The lookup of the calls on queues, if it succeeds. -/
theorem lookupQueue_some (h : lookupQueue s id = .ok (some q)) :
    resourceListById s id = some (.queue q) := by
  unfold lookupQueue at h
  split at h
  · cases h
  rename_i r hr
  split at h
  · cases h
  split at h <;> cases h
  exact hr

theorem used_of_lookup (h : Listed s) (hq : lookupQueue s id = .ok (some q)) :
    s.queuePool.Used q :=
  h.queue (mem_of_byId (lookupQueue_some hq)).1

end Listed

/-! ## The list of resources -/

theorem detachResource_cases (h : detachResource s r = .ok s') :
    r ∈ s.resourcesList ∧ s' = { s with resourcesList := s.resourcesList.erase r } := by
  unfold detachResource at h
  split at h <;> cases h
  exact ⟨‹_›, rfl⟩

theorem resourceFree_cases (h : resourceFree s r = .ok s') : (s.resource r).descriptorsPtrs = [] ∧
    ((∃ i, r = .generic i ∧ s' = { s with resourcePool := s.resourcePool.release i }) ∨
      ∃ q, r = .queue q ∧ s' = s) := by
  unfold resourceFree at h
  split at h
  · cases h
  rename_i hd
  refine ⟨not_not.1 hd, ?_⟩
  cases r with
  | generic i =>
    cases h
    exact .inl ⟨i, rfl, rfl⟩
  | queue q =>
    cases h
    exact .inr ⟨q, rfl, rfl⟩

/-- The resources themselves stay as they are when one is removed. -/
theorem detachResource_resource {s₁ s₂ : State} (h : detachResource s r = .ok s₁)
    (h' : resourceFree s₁ r = .ok s₂) : s₂.resourcesList = s.resourcesList.erase r ∧
      s₂.queuePool = s.queuePool ∧ ∀ x, s₂.resource x = s.resource x := by
  obtain ⟨-, rfl⟩ := detachResource_cases h
  obtain ⟨-, ⟨i, -, rfl⟩ | ⟨q, -, rfl⟩⟩ := resourceFree_cases h'
  · exact ⟨rfl, rfl, fun x => by cases x <;> rfl⟩
  · exact ⟨rfl, rfl, fun x => by cases x <;> rfl⟩

/-- Nor does anything happen to the processes and the pools of descriptors. -/
theorem detachResource_pcbs {s₁ s₂ : State} (h : detachResource s r = .ok s₁)
    (h' : resourceFree s₁ r = .ok s₂) : s₂.pcbs = s.pcbs ∧ s₂.descriptorPool = s.descriptorPool ∧
      s₂.descriptorPtrPool = s.descriptorPtrPool := by
  obtain ⟨-, rfl⟩ := detachResource_cases h
  obtain ⟨-, ⟨i, -, rfl⟩ | ⟨q, -, rfl⟩⟩ := resourceFree_cases h' <;> exact ⟨rfl, rfl, rfl⟩

theorem messageQueueFree_cases (h : messageQueueFree s q = .ok s') :
    (s.queues q).waitingReceivers = [] ∧ (s.queues q).waitingSenders = [] ∧
      s' = { s with queuePool := s.queuePool.release q } := by
  unfold messageQueueFree at h
  dsimp only at h
  split at h
  · cases h
  rename_i hn
  cases h
  simp only [not_or, not_not] at hn
  exact ⟨hn.1, hn.2.1, rfl⟩

/-- `Resource_alloc` and the insertion of the block `i`. -/
def resourceCreated (s : State) (i : Nat) (pool : Pool) (id type : Int) : State :=
  { { s with resourcePool := pool }.updResource (.generic i) fun _ => ⟨id, type, 0, []⟩ with
    resourcesList := s.resourcesList ++ [.generic i] }

/-- `MessageQueue_alloc` and the insertion of the block `q`. -/
def queueCreated (s : State) (q : QueueRef) (pool : Pool) (id size : Int) : State :=
  { s with
    queuePool := pool
    resourcesList := s.resourcesList ++ [.queue q]
    queues := fun i =>
      if i = q then
        { resource := ⟨id, resourceMessageQueue, 0, []⟩
          messages := [], waitingReceivers := [], waitingSenders := [],
          maxMessages := size, currentMessages := 0, queueId := id, status := .open }
      else s.queues i }

theorem resource_resourceCreated : (resourceCreated s i pool id type).resource r =
    if r = .generic i then ⟨id, type, 0, []⟩ else s.resource r := by
  have h : (resourceCreated s i pool id type).resource r = ({ s with resourcePool := pool }.updResource
      (.generic i) fun _ => ⟨id, type, 0, []⟩).resource r := by
    cases r <;> rfl
  rw [h, resource_updResource]
  cases r <;> rfl

theorem resource_queueCreated {size : Int} : (queueCreated s q pool id size).resource r =
    if r = .queue q then ⟨id, resourceMessageQueue, 0, []⟩ else s.resource r := by
  cases r with
  | generic i => rfl
  | queue j => by_cases hj : j = q <;> simp [queueCreated, State.resource, hj]

/-- Process `p` has a new descriptor of block `b` for `r`, with the pointer `c`. -/
def granted (s : State) (p : PcbRef) (r : ResourceRef) (fd : Int) (b c : Nat) (pool ptrPool : Pool) :
    State :=
  linkDescriptor { s with descriptorPool := pool, descriptorPtrPool := ptrPool } p
    ⟨b, p, r, fd, 0⟩ ⟨c, b⟩

/-- The running process has opened `r`. -/
def opened (s : State) (r : ResourceRef) (b c : Nat) (pool ptrPool : Pool) : State :=
  (granted s s.running r (s.pcbs s.running).lastFd b c pool ptrPool).updPcb s.running fun pcb =>
    { pcb with lastFd := pcb.lastFd + 1 }

/-- Process `p` gives up its descriptor `d` and keeps `ds`. -/
def dropped (s : State) (p : PcbRef) (d : Descriptor) (ds : List Descriptor) : State :=
  { decRefCount ((s.setDescriptors p ds).updResource d.resource fun res =>
      { res with descriptorsPtrs := res.descriptorsPtrs.eraseP (·.block = d.ptr) }) d.resource with
    descriptorPool := s.descriptorPool.release d.block
    descriptorPtrPool := s.descriptorPtrPool.release d.ptr }

/-- The pointer of `d` is linked. -/
def Points (s : State) (d : Descriptor) : Prop :=
  (s.resource d.resource).descriptorsPtrs.any (·.block = d.ptr)

/-- The end of `openResource`: the descriptor is there, or there was none left. -/
def Opens (s : State) (r : ResourceRef) (s' : State) : Prop :=
  Quiet s s' ∨
  (∃ b pool, s.descriptorPool.get = some (b, pool) ∧
    Quiet { s with descriptorPool := pool.release b } s') ∨
  ∃ b c pool ptrPool, s.descriptorPool.get = some (b, pool) ∧
    s.descriptorPtrPool.get = some (c, ptrPool) ∧ Quiet (opened s r b c pool ptrPool) s'

theorem openDescriptor_cases {found : Option ResourceRef} {mode : Int}
    (h : internalOpenResource.openDescriptor s s.running found type mode = .ok s') :
    Quiet s s' ∨ ∃ r, found = some r ∧ Opens s r s' := by
  unfold internalOpenResource.openDescriptor at h
  split at h
  · cases h
    exact .inl (.setRetvalue _ _ _)
  rename_i r
  split at h
  · cases h
    exact .inl (.setRetvalue _ _ _)
  split at h
  · cases h
    exact .inl (.setRetvalue _ _ _)
  refine .inr ⟨r, rfl, ?_⟩
  split at h
  · cases h
    exact .inl (.setRetvalue _ _ _)
  rename_i des s₁ hd
  unfold descriptorAlloc at hd
  split at hd
  · cases hd
  rename_i b pool hg
  cases hd
  split at h
  · cases h
    exact .inr (.inl ⟨b, pool, hg, .setRetvalue _ _ _⟩)
  rename_i dp s₂ hp
  unfold descriptorPtrAlloc at hp
  split at hp
  · cases hp
  rename_i c ptrPool hg'
  cases hp
  cases h
  exact .inr (.inr ⟨b, c, pool, ptrPool, hg, hg', .setRetvalue _ _ _⟩)

/-- `openResource` creates a resource. -/
def CreatesResource (s : State) (id mode : Int) : Prop :=
  hasFlag mode dsosCreateBit ∧ resourceListById s id = none ∧ s.resourcePool.free ≠ []

/-- **`openResource`**. -/
theorem open_cases (h : internalOpenResource s = .ok s') :
    let id := (s.pcbs s.running).syscallArgs 0
    let type := (s.pcbs s.running).syscallArgs 1
    let mode := (s.pcbs s.running).syscallArgs 2
    ¬ CreatesResource s id mode ∧ (Quiet s s' ∨ ∃ r, resourceListById s id = some r ∧ Opens s r s') ∨
      CreatesResource s id mode ∧ ∃ i pool, s.resourcePool.get = some (i, pool) ∧
        (Quiet (resourceCreated s i pool id type) s' ∨
          Opens (resourceCreated s i pool id type) (.generic i) s') := by
  intro id type mode
  unfold internalOpenResource at h
  dsimp only at h
  split at h
  · rename_i hc
    split at h
    · rename_i hsome
      cases h
      refine .inl ⟨fun hcr => ?_, .inl (.setRetvalue _ _ _)⟩
      rw [hcr.2.1] at hsome
      cases hsome
    rename_i hnone
    split at h
    · rename_i ha
      cases h
      refine .inl ⟨fun hcr => ?_, .inl (.setRetvalue _ _ _)⟩
      unfold resourceAlloc at ha
      split at ha
      · rename_i hg
        exact hcr.2.2 (Pool.get_eq_none.1 hg)
      · cases ha
    rename_i r s₁ ha
    unfold resourceAlloc at ha
    split at ha
    · cases ha
    rename_i i pool hg
    cases ha
    refine .inr ⟨⟨hc, by simpa using hnone, fun e => ?_⟩, i, pool, hg, ?_⟩
    · rw [Pool.get_eq_none.2 e] at hg
      cases hg
    rcases openDescriptor_cases (s := resourceCreated s i pool id type) h with h | ⟨r, hr, h⟩
    · exact .inl h
    · cases hr
      exact .inr h
  · rename_i hc
    refine .inl ⟨fun hcr => hc hcr.1, ?_⟩
    rcases openDescriptor_cases h with h | ⟨r, hr, h⟩
    · exact .inl h
    · exact .inr ⟨r, hr, h⟩

theorem resource_setDescriptors {ds : List Descriptor} :
    (s.setDescriptors p ds).resource r = s.resource r := by
  cases r <;> rfl

theorem detachDescriptorPtr_cases {d : Descriptor} (h : detachDescriptorPtr s d = .ok s') :
    Points s d ∧ s' = s.updResource d.resource fun res =>
      { res with descriptorsPtrs := res.descriptorsPtrs.eraseP (·.block = d.ptr) } := by
  unfold detachDescriptorPtr at h
  split at h <;> cases h
  exact ⟨‹_›, rfl⟩

theorem resource_dropped {d : Descriptor} {ds : List Descriptor} :
    (dropped s p d ds).resource r = if r = d.resource then
      { s.resource r with
        descriptorsPtrs := (s.resource r).descriptorsPtrs.eraseP (·.block = d.ptr)
        refCount := (s.resource r).refCount - 1 }
      else s.resource r := by
  have h : (dropped s p d ds).resource r = (decRefCount ((s.setDescriptors p ds).updResource
      d.resource fun res =>
        { res with descriptorsPtrs := res.descriptorsPtrs.eraseP (·.block = d.ptr) })
      d.resource).resource r := by
    cases r <;> rfl
  rw [h, decRefCount, resource_updResource, resource_updResource, resource_updResource]
  by_cases hr : r = d.resource <;> simp [hr, resource_setDescriptors]

/-- **`closeResource`**. -/
theorem close_cases (h : internalCloseResource s = .ok s') :
    descriptorListByFd (s.pcbs s.running).descriptors ((s.pcbs s.running).syscallArgs 0) = none ∧
      Quiet s s' ∨
    ∃ d, descriptorListByFd (s.pcbs s.running).descriptors ((s.pcbs s.running).syscallArgs 0) =
        some d ∧ Points s d ∧
      Quiet (dropped s s.running d ((s.pcbs s.running).descriptors.erase d)) s' := by
  unfold internalCloseResource at h
  dsimp only at h
  split at h
  · rename_i hnone
    cases h
    exact .inl ⟨hnone, .setRetvalue _ _ _⟩
  rename_i d hd
  obtain ⟨s₁, h₁, h⟩ := bind_eq_ok.1 h
  obtain ⟨hp, rfl⟩ := detachDescriptorPtr_cases h₁
  split at h
  · cases h
  cases h
  have heq : decRefCount (descriptorPtrFree (descriptorFree ((s.setDescriptors s.running
      ((s.pcbs s.running).descriptors.erase d)).updResource d.resource fun res =>
        { res with descriptorsPtrs := res.descriptorsPtrs.eraseP (·.block = d.ptr) }) d) d.ptr)
      d.resource = dropped s s.running d ((s.pcbs s.running).descriptors.erase d) := by
    unfold dropped decRefCount descriptorPtrFree descriptorFree
    cases d.resource <;> rfl
  rw [heq]
  refine .inr ⟨d, hd, ?_, .setRetvalue _ _ _⟩
  unfold Points at hp ⊢
  rwa [resource_setDescriptors] at hp

/-- `destroyResource` removes `r`. -/
def Destroys (s : State) (id : Int) (r : ResourceRef) : Prop :=
  resourceListById s id = some r ∧ (s.resource r).refCount ≤ 0

/-- **`destroyResource`**. -/
theorem destroy_cases (h : internalDestroyResource s = .ok s') :
    (∀ r, ¬ Destroys s ((s.pcbs s.running).syscallArgs 0) r) ∧ Quiet s s' ∨
    ∃ r s₁ s₂, Destroys s ((s.pcbs s.running).syscallArgs 0) r ∧ detachResource s r = .ok s₁ ∧
      resourceFree s₁ r = .ok s₂ ∧ Quiet s₂ s' := by
  unfold internalDestroyResource at h
  dsimp only at h
  split at h
  · rename_i hnone
    cases h
    refine .inl ⟨fun r hr => ?_, .setRetvalue _ _ _⟩
    rw [hr.1] at hnone
    cases hnone
  rename_i r hr
  split at h
  · rename_i hc
    cases h
    refine .inl ⟨fun r' hr' => ?_, .setRetvalue _ _ _⟩
    obtain rfl : r = r' := Option.some.inj (hr.symm.trans hr'.1)
    exact absurd hr'.2 (Int.not_le.2 hc)
  rename_i hc
  obtain ⟨s₁, h₁, h⟩ := bind_eq_ok.1 h
  obtain ⟨s₂, h₂, h⟩ := bind_eq_ok.1 h
  cases h
  exact .inr ⟨r, s₁, s₂, ⟨hr, Int.not_lt.1 hc⟩, h₁, h₂, .setRetvalue _ _ _⟩

/-- One turn of the loop that releases the descriptors of an exiting process. -/
theorem releaseDescriptors_cons {d : Descriptor} {ds : List Descriptor} (h : Points s d) :
    releaseDescriptors p (d :: ds) s =
      if ((dropped s p d ds).resource d.resource).refCount = 0 then do
        let s ← detachResource (dropped s p d ds) d.resource
        let s ← resourceFree s d.resource
        releaseDescriptors p ds s
      else releaseDescriptors p ds (dropped s p d ds) := by
  have hp : detachDescriptorPtr (s.setDescriptors p ds) d = .ok ((s.setDescriptors p ds).updResource
      d.resource fun res =>
        { res with descriptorsPtrs := res.descriptorsPtrs.eraseP (·.block = d.ptr) }) := by
    unfold Points at h
    unfold detachDescriptorPtr
    rw [resource_setDescriptors, if_pos h]
  have heq : descriptorFree (descriptorPtrFree (decRefCount ((s.setDescriptors p ds).updResource
      d.resource fun res =>
        { res with descriptorsPtrs := res.descriptorsPtrs.eraseP (·.block = d.ptr) })
      d.resource) d.ptr) d = dropped s p d ds := by
    unfold dropped decRefCount descriptorPtrFree descriptorFree
    cases d.resource <;> rfl
  rw [releaseDescriptors, hp, ok_bind]
  dsimp only
  rw [heq]

theorem releaseDescriptors_cases {d : Descriptor} {ds : List Descriptor}
    (h : releaseDescriptors p (d :: ds) s = .ok s') : Points s d ∧
      (((dropped s p d ds).resource d.resource).refCount = 0 ∧
        (∃ s₁ s₂, detachResource (dropped s p d ds) d.resource = .ok s₁ ∧
          resourceFree s₁ d.resource = .ok s₂ ∧ releaseDescriptors p ds s₂ = .ok s') ∨
      ((dropped s p d ds).resource d.resource).refCount ≠ 0 ∧
        releaseDescriptors p ds (dropped s p d ds) = .ok s') := by
  have hp : Points s d := by
    rw [releaseDescriptors] at h
    obtain ⟨s₁, h₁, -⟩ := bind_eq_ok.1 h
    have hp := (detachDescriptorPtr_cases h₁).1
    unfold Points at hp ⊢
    rwa [resource_setDescriptors] at hp
  rw [releaseDescriptors_cons hp] at h
  refine ⟨hp, ?_⟩
  split at h
  · rename_i hc
    obtain ⟨s₁, h₁, h⟩ := bind_eq_ok.1 h
    obtain ⟨s₂, h₂, h⟩ := bind_eq_ok.1 h
    exact .inl ⟨hc, s₁, s₂, h₁, h₂, h⟩
  · rename_i hc
    exact .inr ⟨hc, h⟩

/-- One turn of the loop over the parent's descriptors. -/
theorem forkDescriptors_cases {d : Descriptor} {ds : List Descriptor}
    (h : forkDescriptors p (d :: ds) s = .ok s') : ∃ b c pool ptrPool,
      s.descriptorPool.get = some (b, pool) ∧ s.descriptorPtrPool.get = some (c, ptrPool) ∧
      forkDescriptors p ds (granted s p d.resource d.fd b c pool ptrPool) = .ok s' := by
  rw [forkDescriptors] at h
  split at h
  · cases h
  rename_i des s₁ hd
  unfold descriptorAlloc at hd
  split at hd
  · cases hd
  rename_i b pool hg
  cases hd
  split at h
  · cases h
  rename_i dp s₂ hp
  unfold descriptorPtrAlloc at hp
  split at hp
  · cases hp
  rename_i c ptrPool hg'
  cases hp
  exact ⟨b, c, pool, ptrPool, hg, hg', h⟩

/-- `mq_create` creates a queue. -/
def CreatesQueue (s : State) (id size : Int) : Prop :=
  (0 < id ∧ 0 < size ∧ size ≤ maxMessagesPerQueue) ∧
    (∀ r ∈ resourceListById s id, (s.resource r).type ≠ resourceMessageQueue) ∧
      s.queuePool.free ≠ []

/-- **`mq_create`**. -/
theorem mqCreate_cases (h : internalMqCreate s = .ok s') :
    let id := (s.pcbs s.running).syscallArgs 0
    let size := (s.pcbs s.running).syscallArgs 1
    ¬ CreatesQueue s id size ∧ Quiet s s' ∨
    CreatesQueue s id size ∧ ∃ q pool, s.queuePool.get = some (q, pool) ∧
      Quiet (queueCreated s q pool id size) s' := by
  intro id size
  unfold internalMqCreate at h
  dsimp only at h
  split at h
  · rename_i hargs
    cases h
    refine .inl ⟨fun hc => ?_, .setRetvalue _ _ _⟩
    have := hc.1
    omega
  rename_i hargs
  split at h
  · rename_i hmq
    cases h
    refine .inl ⟨fun hc => ?_, .setRetvalue _ _ _⟩
    cases hr : resourceListById s id with
    | none =>
      rw [hr] at hmq
      cases hmq
    | some r =>
      rw [hr] at hmq
      exact hc.2.1 r hr (by simpa using hmq)
  rename_i hno
  split at h
  · rename_i ha
    cases h
    refine .inl ⟨fun hc => ?_, .setRetvalue _ _ _⟩
    unfold messageQueueAlloc at ha
    split at ha
    · rename_i hg
      exact hc.2.2 (Pool.get_eq_none.1 hg)
    · cases ha
  rename_i q s₁ ha
  unfold messageQueueAlloc at ha
  split at ha
  · cases ha
  rename_i pool hg
  cases ha
  cases h
  refine .inr ⟨⟨by omega, fun r hr ht => hno ?_, fun e => ?_⟩, q, pool, hg, ?_⟩
  · rw [Option.mem_def.1 hr]
    simpa using ht
  · rw [Pool.get_eq_none.2 e] at hg
    cases hg
  · exact (Quiet.record (queueCreated s q pool id size) (.create id)).trans (.setRetvalue _ _ _)

/-! ## The list after the calls -/

namespace Keeps

theorem granted {fd : Int} {b c : Nat} {ptrPool : Pool} :
    Keeps s (granted s p r fd b c pool ptrPool) := by
  unfold DisastrOS.granted linkDescriptor
  refine trans ?_ (updResource (fun _ => ?_) fun _ => ?_)
  · exact same rfl rfl rfl rfl rfl
  · rfl
  · rfl

theorem opened {b c : Nat} {ptrPool : Pool} : Keeps s (opened s r b c pool ptrPool) :=
  granted.trans (same rfl rfl rfl rfl rfl)

theorem dropped {d : Descriptor} {ds : List Descriptor} : Keeps s (dropped s p d ds) := by
  have h : Keeps s (decRefCount ((s.setDescriptors p ds).updResource d.resource fun res =>
      { res with descriptorsPtrs := res.descriptorsPtrs.eraseP (·.block = d.ptr) })
      d.resource) := by
    refine trans (trans ?_ (updResource (fun _ => ?_) fun _ => ?_))
      (updResource (fun _ => ?_) fun _ => ?_)
    · exact same rfl rfl rfl rfl rfl
    all_goals rfl
  exact h.trans (same rfl rfl rfl rfl rfl)

theorem opens (h : Opens s r s') : Keeps s s' := by
  rcases h with h | ⟨b, pool, -, h⟩ | ⟨b, c, pool, ptrPool, -, -, h⟩
  · exact quiet h
  · exact (same rfl rfl rfl rfl rfl : Keeps s { s with descriptorPool := pool.release b }).trans
      (quiet h)
  · exact opened.trans (quiet h)

theorem forkDescriptors : ∀ {ds : List Descriptor} {s : State},
    forkDescriptors p ds s = .ok s' → Keeps s s'
  | [], _, h => by
    cases h
    exact refl _
  | d :: ds, _, h => by
    obtain ⟨b, c, pool, ptrPool, -, -, h⟩ := forkDescriptors_cases h
    exact granted.trans (forkDescriptors h)

end Keeps

namespace Listed

/-- A block that has just been allocated is a new entry. -/
theorem create (id type : Int) (h : Listed s) (hg : s.resourcePool.get = some (i, pool)) :
    Listed (resourceCreated s i pool id type) ∧ .generic i ∉ s.resourcesList := by
  have hnew : .generic i ∉ s.resourcesList := fun hm => Pool.not_used_get hg (h.generic hm)
  refine ⟨⟨h.nodup.append (List.nodup_singleton _) (by simpa using hnew), h.resourcePool.get hg,
    h.queuePool, fun hj => ?_, fun hq => ?_, fun hq => ?_, fun hq => ?_⟩, hnew⟩
  · refine (h.resourcePool.used_get hg).2 ?_
    rcases List.mem_append.1 hj with hj | hj
    · exact .inr (h.generic hj)
    · simp only [List.mem_singleton, ResourceRef.generic.injEq] at hj
      exact .inl hj
  · exact h.queue (by simpa [resourceCreated] using hq)
  · exact h.type (by simpa [resourceCreated] using hq)
  · exact h.id (by simpa [resourceCreated] using hq)

theorem createQueue (id size : Int) (h : Listed s) (hg : s.queuePool.get = some (q, pool)) :
    Listed (queueCreated s q pool id size) ∧ .queue q ∉ s.resourcesList := by
  have hnew : .queue q ∉ s.resourcesList := fun hm => Pool.not_used_get hg (h.queue hm)
  have hmem : ∀ {j}, .queue j ∈ (queueCreated s q pool id size).resourcesList →
      j = q ∨ j ≠ q ∧ .queue j ∈ s.resourcesList := fun {j} hj => by
    by_cases hjq : j = q
    · exact .inl hjq
    · exact .inr ⟨hjq, by simpa [queueCreated, hjq] using hj⟩
  refine ⟨⟨h.nodup.append (List.nodup_singleton _) (by simpa using hnew), h.resourcePool,
    h.queuePool.get hg, fun hj => ?_, fun hj => ?_, fun hj => ?_, fun hj => ?_⟩, hnew⟩
  · exact h.generic (by simpa [queueCreated] using hj)
  · exact (h.queuePool.used_get hg).2 ((hmem hj).imp_right fun h' => h.queue h'.2)
  · rcases hmem hj with rfl | ⟨hne, hj⟩
    · simp [queueCreated, State.resource]
    · simpa [queueCreated, State.resource, hne] using h.type hj
  · rcases hmem hj with rfl | ⟨hne, hj⟩
    · simp [queueCreated, State.resource]
    · simpa [queueCreated, State.resource, hne] using h.id hj

/-- An entry is taken off the list and freed, as the calls on resources do it. -/
theorem remove {s₁ : State} (h : Listed s) (h₁ : detachResource s r = .ok s₁)
    (h₂ : resourceFree s₁ r = .ok s') : Listed s' ∧ s'.resourcesList = s.resourcesList.erase r := by
  obtain ⟨-, rfl⟩ := detachResource_cases h₁
  obtain ⟨-, ⟨i, rfl, rfl⟩ | ⟨q, rfl, rfl⟩⟩ := resourceFree_cases h₂
  · exact ⟨(h.erase _).freeResource (i := i) fun hm => h.nodup.not_mem_erase hm, rfl⟩
  · exact ⟨h.erase _, rfl⟩

theorem removeQueue {s₁ : State} (h : Listed s) (h₁ : detachResource s (.queue q) = .ok s₁)
    (h₂ : messageQueueFree s₁ q = .ok s') :
    Listed s' ∧ s'.resourcesList = s.resourcesList.erase (.queue q) := by
  obtain ⟨-, rfl⟩ := detachResource_cases h₁
  obtain ⟨-, -, rfl⟩ := messageQueueFree_cases h₂
  exact ⟨(h.erase _).freeQueue (q := q) fun hm => h.nodup.not_mem_erase hm, rfl⟩

theorem releaseDescriptors : ∀ {ds : List Descriptor} {s : State}, Listed s →
    releaseDescriptors p ds s = .ok s' → Listed s'
  | [], _, h, hr => by
    cases hr
    exact h
  | d :: ds, s, h, hr => by
    have hk : Keeps s (dropped s p d ds) := .dropped
    have h₁ := h.keeps hk
    obtain ⟨-, ⟨-, s₁, s₂, hd, hf, hr⟩ | ⟨-, hr⟩⟩ := releaseDescriptors_cases hr
    · exact releaseDescriptors (h₁.remove hd hf).1 hr
    · exact releaseDescriptors h₁ hr

end Listed

end

end DisastrOS
