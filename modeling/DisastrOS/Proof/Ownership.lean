import DisastrOS.Proof.UniqueIds

/-!
# Who owns the queues

The blocks of the queue pool that are in use are the entries of `resources_list` with the type of a
queue, unless the calls on resources interfere: `openResource` creates a plain resource with that
type, `destroyResource` or the exit of the last holder takes a queue off the list without freeing its
block. Ownership holds throughout a run exactly if none of the three happens (`queuesOwned_iff`).
-/

namespace DisastrOS

open Lib State

section
variable {s s' s₁ s₂ : State} {r : ResourceRef} {q : QueueRef} {p : PcbRef} {n : Int} {e : Event}
  {es : List Event} {ds : List Descriptor}

structure QueuesOwned (s : State) : Prop where
  exact : ∀ r, r ∈ s.resourcesList ∧ (s.resource r).type = resourceMessageQueue ↔
    ∃ q, r = .queue q ∧ s.queuePool.Used q
  casts : ∀ id, lookupQueue s id ≠ .error .badCast
  reachable : ∀ q, Waited s q → 0 < (s.queues q).queueId ∧
    lookupQueue s (s.queues q).queueId = .ok (some q)

/-- Only `mq_destroy` takes queues off the list. -/
def KeepsQueues (s : State) (e : Event) : Prop :=
  (∀ id, e ≠ .syscall (.mqDestroy id)) →
    Leads step (fun s s' => ∀ q, .queue q ∈ s.resourcesList → .queue q ∈ s'.resourcesList) s e

/-- The descriptors `ds` are all that hold `r`, and there are some. -/
def LastHolder (s : State) (ds : List Descriptor) (r : ResourceRef) : Prop :=
  1 ≤ (s.resource r).refCount ∧ (s.resource r).refCount ≤ ds.countP (·.resource = r)

/-- The running process, the last holder of queue `q`, has a parent that waits for its exit. -/
def Abandons (s : State) (q : QueueRef) : Prop :=
  (∃ parent ∈ (s.pcbs s.running).parent, waitsFor s parent (s.pcbs s.running).pid) ∧
    .queue q ∈ s.resourcesList ∧ LastHolder s (s.pcbs s.running).descriptors (.queue q)

/-- The event creates a resource with the type of a queue, destroys a queue as a resource, or
releases the last descriptors on a queue when a process exits to its waiting parent. -/
def Interferes (s : State) : Event → Prop
  | .syscall (.openResource id type mode) => CreatesResource s id mode ∧ type = resourceMessageQueue
  | .syscall (.destroyResource id) => ∃ q, Destroys s id (.queue q)
  | .syscall (.exit v) => ∃ q, Abandons (saveCall s (.exit v)) q
  | _ => False

instance (s : State) (id mode : Int) : Decidable (CreatesResource s id mode) :=
  inferInstanceAs (Decidable (_ ∧ _ ∧ _))

instance (s : State) (id : Int) : Decidable (∃ q, Destroys s id (.queue q)) :=
  match h : resourceListById s id with
  | none => isFalse fun ⟨_, hq⟩ => nomatch h.symm.trans hq.1
  | some (.generic _) => isFalse fun ⟨_, hq⟩ => nomatch h.symm.trans hq.1
  | some (.queue q) =>
    decidable_of_iff ((s.resource (.queue q)).refCount ≤ 0)
      ⟨fun hc => ⟨q, h, hc⟩, fun ⟨_, hq, hc⟩ => Option.some.inj (hq.symm.trans h) ▸ hc⟩

instance (r : ResourceRef) : Decidable (∃ q, r = .queue q) :=
  match r with
  | .generic _ => isFalse fun ⟨_, hq⟩ => nomatch hq
  | .queue q => isTrue ⟨q, rfl⟩

instance (s : State) : Decidable (∃ q, Abandons s q) :=
  decidable_of_iff ((∃ parent ∈ (s.pcbs s.running).parent,
      waitsFor s parent (s.pcbs s.running).pid) ∧ ∃ r ∈ s.resourcesList, (∃ q, r = .queue q) ∧
        1 ≤ (s.resource r).refCount ∧
          (s.resource r).refCount ≤ (s.pcbs s.running).descriptors.countP (·.resource = r))
    ⟨fun ⟨hp, _, hm, ⟨q, hq⟩, hl⟩ => ⟨q, hp, hq ▸ hm, hq ▸ hl⟩,
      fun ⟨q, hp, hm, hl⟩ => ⟨hp, _, hm, ⟨q, rfl⟩, hl⟩⟩

instance (s : State) : DecidablePred (Interferes s)
  | .syscall (.openResource id type mode) =>
    inferInstanceAs (Decidable (CreatesResource s id mode ∧ type = resourceMessageQueue))
  | .syscall (.destroyResource id) => inferInstanceAs (Decidable (∃ q, Destroys s id (.queue q)))
  | .syscall (.exit v) => inferInstanceAs (Decidable (∃ q, Abandons (saveCall s (.exit v)) q))
  | .syscall .preempt | .syscall .fork | .syscall (.wait ..) | .syscall (.spawn ..)
  | .syscall (.sleep _) | .syscall (.closeResource _) | .syscall (.mqCreate ..)
  | .syscall (.mqSend ..) | .syscall (.mqReceive ..) | .syscall (.mqDestroy _) | .syscall .shutdown
  | .tick | .store .. => isFalse id

/-! ## The loop that releases descriptors -/

/-- It removes the resources of which the process is the last holder. -/
theorem releaseDescriptors_list : ∀ {ds : List Descriptor} {s : State}, s.resourcesList.Nodup →
    releaseDescriptors p ds s = .ok s' → s'.queuePool = s.queuePool ∧
      ∀ r, r ∈ s'.resourcesList ↔ r ∈ s.resourcesList ∧ ¬ LastHolder s ds r
  | [], _, _, h => by
    cases h
    refine ⟨rfl, fun r => ?_⟩
    unfold LastHolder
    rw [List.countP_nil]
    exact ⟨fun hr => ⟨hr, by omega⟩, fun hr => hr.1⟩
  | d :: ds, s, hn, h => by
    obtain ⟨hpool, hlist⟩ := (⟨Keeps.dropped.queuePool, Keeps.dropped.list⟩ :
      (dropped s p d ds).queuePool = s.queuePool ∧
        (dropped s p d ds).resourcesList = s.resourcesList)
    have hcount : ∀ r, (d :: ds).countP (·.resource = r) =
        ds.countP (·.resource = r) + if r = d.resource then 1 else 0 := fun r => by
      rw [List.countP_cons]
      simp [eq_comm]
    have href : ∀ r, ((dropped s p d ds).resource r).refCount =
        (s.resource r).refCount - if r = d.resource then 1 else 0 := fun r => by
      rw [resource_dropped]
      split <;> simp
    obtain ⟨-, ⟨h0, s₁, s₂, hd, hf, h⟩ | ⟨h0, h⟩⟩ := releaseDescriptors_cases h
    · obtain ⟨hl₂, hp₂, hr₂⟩ := detachResource_resource hd hf
      obtain ⟨h1, h2⟩ := releaseDescriptors_list (by rw [hl₂, hlist]; exact hn.erase _) h
      refine ⟨h1.trans (hp₂.trans hpool), fun r => ?_⟩
      rw [h2, hl₂, hlist, hn.mem_erase_iff]
      unfold LastHolder
      rw [hr₂, hcount, href]
      rw [href] at h0
      by_cases hr : r = d.resource
      · subst hr
        simp only [if_true] at h0 ⊢
        exact iff_of_false (fun hm => hm.1.1 rfl) fun hm => hm.2 (by omega)
      · simp only [ne_eq, hr, not_false_eq_true, true_and, if_false]
        exact and_congr_right fun _ => by omega
    · obtain ⟨h1, h2⟩ := releaseDescriptors_list (by rw [hlist]; exact hn) h
      refine ⟨h1.trans hpool, fun r => ?_⟩
      rw [h2, hlist]
      unfold LastHolder
      rw [hcount, href]
      rw [href] at h0
      refine and_congr_right fun _ => ?_
      by_cases hr : r = d.resource
      · subst hr
        simp only [if_true] at h0 ⊢
        omega
      · simp only [if_neg hr]
        omega

/-! ## The invariant -/

structure Owned (s : State) : Prop where
  built : ∀ r ∈ s.resourcesList, (s.resource r).type = resourceMessageQueue → ∃ q, r = .queue q
  used : ∀ q, s.queuePool.Used q → .queue q ∈ s.resourcesList
  found : ∀ q, Waited s q → Found s q
  positive : ∀ q, .queue q ∈ s.resourcesList → 0 < (s.queues q).queueId

theorem Found.mem (h : Found s q) : .queue q ∈ s.resourcesList := (Listed.mem_of_byId h).1

theorem Owned.queuesOwned (h : Owned s) (hl : Listed s) : QueuesOwned s where
  exact r := by
    constructor
    · rintro ⟨hm, ht⟩
      obtain ⟨q, rfl⟩ := h.built r hm ht
      exact ⟨q, rfl, hl.queue hm⟩
    · rintro ⟨q, rfl, hu⟩
      exact ⟨h.used q hu, hl.type (h.used q hu)⟩
  casts id := by
    unfold lookupQueue
    split
    · simp
    rename_i r hr
    split
    · simp
    rename_i ht
    obtain ⟨q, rfl⟩ := h.built r (Listed.mem_of_byId hr).1 (not_not.1 ht)
    simp
  reachable q hw := by
    have hf := h.found q hw
    refine ⟨h.positive q hf.mem, ?_⟩
    unfold Found at hf
    simp [lookupQueue, hf, hl.type (Listed.mem_of_byId hf).1]

/-- Entries leave the list, and no queue among them is in use afterwards. -/
theorem Owned.thins (h : Owned s) (hn : s.resourcesList.Nodup) (ht : Thins s s')
    (hu : ∀ q, s'.queuePool.Used q → .queue q ∈ s'.resourcesList)
    (hw : ∀ q, Waited s' q → (Waited s q ∨ Found s q) ∧ s'.queuePool.Used q) : Owned s' where
  built r hr hty := h.built r (ht.list.subset hr) (ht.type r ▸ hty)
  used := hu
  found q hq := by
    obtain ⟨hor, huse⟩ := hw q hq
    have hf : Found s q := hor.elim (h.found q) id
    unfold Found resourceListById at hf ⊢
    simp only [ht.queueId, ht.id]
    exact find?_sublist ht.list hn (hu q huse) hf
  positive q hq := by
    rw [ht.queueId]
    exact h.positive q (ht.list.subset hq)

theorem Owned.untouched (h : Owned s) (hl : Listed s) (hu : Untouched s s') : Owned s' := by
  refine h.thins hl.nodup (.untouched hu) (fun q hq => ?_) fun q hq => ?_
  · rw [hu.queuePool] at hq
    rw [hu.list]
    exact h.used q hq
  · have hor := hu.waited q hq
    refine ⟨hor, ?_⟩
    rw [hu.queuePool]
    exact hl.queue (hor.elim (fun hw => (h.found q hw).mem) Found.mem)

theorem waited_congr (hl : ∀ L, s'.list L = s.list L) : Waited s' q ↔ Waited s q := by
  unfold Waited
  rw [hl, hl]

theorem Owned.keeps (h : Owned s) (hl : Listed s) (hk : Keeps s s')
    (hw : ∀ q, Waited s' q → Waited s q) : Owned s' := by
  refine h.thins hl.nodup (.keeps hk) (fun q hq => ?_) fun q hq => ?_
  · rw [hk.queuePool] at hq
    rw [hk.list]
    exact h.used q hq
  · rw [hk.queuePool]
    exact ⟨.inl (hw q hq), hl.queue (h.found q (hw q hq)).mem⟩

theorem Owned.still (h : Owned s) (hl : Listed s) (hk : Keeps s s') (hs : Still s s') : Owned s' :=
  h.keeps hl hk fun _ => (waited_congr hs.list).1

/-- A new entry is put at the end of the list. -/
theorem Owned.append (h : Owned s) (hl : s'.resourcesList = s.resourcesList ++ [r])
    (hold : ∀ x ∈ s.resourcesList, (s'.resource x).id = (s.resource x).id ∧
      (s'.resource x).type = (s.resource x).type)
    (hid : ∀ q, .queue q ∈ s.resourcesList → (s'.queues q).queueId = (s.queues q).queueId)
    (hnew : (s'.resource r).type = resourceMessageQueue → ∃ q, r = .queue q)
    (hpos : ∀ q, r = .queue q → 0 < (s'.queues q).queueId)
    (hu : ∀ q, s'.queuePool.Used q → s.queuePool.Used q ∨ r = .queue q)
    (hw : ∀ q, Waited s' q → Waited s q) : Owned s' where
  built x hx ht := by
    rw [hl] at hx
    rcases List.mem_append.1 hx with hx | hx
    · exact h.built x hx ((hold x hx).2 ▸ ht)
    · rw [List.mem_singleton.1 hx] at ht ⊢
      exact hnew ht
  used q hq := by
    rw [hl]
    rcases hu q hq with hq | rfl
    · exact List.mem_append_left _ (h.used q hq)
    · exact List.mem_append_right _ (List.mem_singleton_self _)
  found q hq := by
    have hf := h.found q (hw q hq)
    have hm := hf.mem
    unfold Found resourceListById at hf ⊢
    rw [hid q hm, hl, List.find?_append, find?_congr fun x hx => by rw [(hold x hx).1], hf]
    rfl
  positive q hq := by
    rw [hl] at hq
    rcases List.mem_append.1 hq with hq | hq
    · rw [hid q hq]
      exact h.positive q hq
    · exact hpos q (List.mem_singleton.1 hq).symm

/-! ## Calls -/

theorem newborn_keeps {pool : Pool} : Keeps s (newborn s p pool) := .same rfl rfl rfl rfl rfl

theorem Owned.newborn {pool : Pool} (h : Owned s) (hl : Listed s) : Owned (newborn s p pool) :=
  h.keeps hl newborn_keeps fun _ => (waited_congr fun L => by cases L <;> rfl).1

theorem spawn_owned (h : Owned s) (hl : Listed s) (hs : internalSpawn s = .ok s') : Owned s' := by
  rcases spawn_untouched hs with ⟨hu, -⟩ | ⟨p, pool, -, hu, -⟩
  · exact h.untouched hl hu
  · exact (h.newborn hl).untouched (hl.keeps newborn_keeps) hu

theorem fork_owned (h : Owned s) (hl : Listed s) (hs : internalFork s = .ok s') : Owned s' := by
  rcases fork_untouched hs with ⟨-, hu, -⟩ | ⟨p, pool, s₁, s₂, -, hu₁, -, hd, hu₂, -⟩
  · exact h.untouched hl hu
  · have hl₀ : Listed (newborn s p pool) := hl.keeps newborn_keeps
    have h₁ := (h.newborn hl).untouched hl₀ hu₁
    have hl₁ := hl₀.keeps hu₁.keeps
    have h₂ := h₁.still hl₁ (.forkDescriptors hd) (.forkDescriptors hd)
    exact h₂.untouched (hl₁.keeps (.forkDescriptors hd)) hu₂

theorem Owned.opens (h : Owned s) (hl : Listed s) (ho : Opens s r s') : Owned s' :=
  h.still hl (.opens ho) (.opens ho)

/-- `openResource`, unless it creates a resource with the type of a queue. -/
theorem open_owned (h : Owned s) (hl : Listed s) (hs : internalOpenResource s = .ok s')
    (hn : ¬ (CreatesResource s ((s.pcbs s.running).syscallArgs 0)
        ((s.pcbs s.running).syscallArgs 2) ∧
      (s.pcbs s.running).syscallArgs 1 = resourceMessageQueue)) : Owned s' := by
  rcases open_cases hs with ⟨-, hq | ⟨r, -, ho⟩⟩ | ⟨hc, i, pool, hg, hor⟩
  · exact h.untouched hl (.quiet hq)
  · exact h.opens hl ho
  · obtain ⟨hl₁, hnew⟩ := hl.create ((s.pcbs s.running).syscallArgs 0)
      ((s.pcbs s.running).syscallArgs 1) hg
    have h₁ : Owned (resourceCreated s i pool ((s.pcbs s.running).syscallArgs 0)
        ((s.pcbs s.running).syscallArgs 1)) := by
      refine h.append rfl (fun x hx => ?_) (fun _ _ => rfl) (fun ht => ?_) (fun _ hq => ?_)
        (fun _ hq => .inl hq) fun _ => (waited_congr fun L => by cases L <;> rfl).1
      · have hne : x ≠ .generic i := fun e => hnew (e ▸ hx)
        rw [resource_resourceCreated, if_neg hne]
        exact ⟨rfl, rfl⟩
      · rw [resource_resourceCreated, if_pos rfl] at ht
        exact absurd ⟨hc, ht⟩ hn
      · cases hq
    rcases hor with hq | ho
    · exact h₁.untouched hl₁ (.quiet hq)
    · exact h₁.opens hl₁ ho

theorem close_owned (h : Owned s) (hl : Listed s) (hs : internalCloseResource s = .ok s') :
    Owned s' := by
  rcases close_cases hs with ⟨-, hq⟩ | ⟨d, -, -, hq⟩
  · exact h.untouched hl (.quiet hq)
  · exact (h.still hl .dropped .dropped).untouched (hl.keeps .dropped) (.quiet hq)

/-- `destroyResource`, unless it destroys a queue. -/
theorem destroy_owned (h : Owned s) (hl : Listed s) (hs : internalDestroyResource s = .ok s')
    (hn : ¬ ∃ q, Destroys s ((s.pcbs s.running).syscallArgs 0) (.queue q)) : Owned s' := by
  rcases destroy_cases hs with ⟨-, hq⟩ | ⟨r, s₁, s₂, hd, h₁, h₂, hq⟩
  · exact h.untouched hl (.quiet hq)
  · obtain ⟨hlist, hpool, -⟩ := detachResource_resource h₁ h₂
    have hstill := (Still.detachResource h₁).trans (.resourceFree h₂)
    have h' : Owned s₂ := by
      refine h.thins hl.nodup ((Thins.detachResource h₁).trans (.resourceFree h₂))
        (fun q hu => ?_) fun q hw => ?_
      · rw [hpool] at hu
        rw [hlist, hl.nodup.mem_erase_iff]
        exact ⟨fun e => hn ⟨q, e ▸ hd⟩, h.used q hu⟩
      · have hw' := (waited_congr hstill.list).1 hw
        exact ⟨.inl hw', hstill.used q (hl.queue (h.found q hw').mem)⟩
    exact h'.untouched (hl.remove h₁ h₂).1 (.quiet hq)

theorem mqCreate_owned (h : Owned s) (hl : Listed s) (hs : internalMqCreate s = .ok s') :
    Owned s' := by
  rcases mqCreate_cases hs with ⟨-, hq⟩ | ⟨hc, q, pool, hg, hq⟩
  · exact h.untouched hl (.quiet hq)
  · obtain ⟨hl₁, hnew⟩ := hl.createQueue ((s.pcbs s.running).syscallArgs 0)
      ((s.pcbs s.running).syscallArgs 1) hg
    refine Owned.untouched ?_ hl₁ (.quiet hq)
    have hother : ∀ i, i ≠ q → (queueCreated s q pool ((s.pcbs s.running).syscallArgs 0)
        ((s.pcbs s.running).syscallArgs 1)).queues i = s.queues i := fun i hi => if_neg hi
    refine h.append rfl (fun x hx => ?_) (fun i hi => ?_) (fun _ => ⟨q, rfl⟩) (fun i hi => ?_)
      (fun i hi => ?_) fun i hi => ?_
    · have hne : x ≠ .queue q := fun e => hnew (e ▸ hx)
      rw [resource_queueCreated, if_neg hne]
      exact ⟨rfl, rfl⟩
    · rw [hother i fun e => hnew (e ▸ hi)]
    · cases hi
      have hid := hc.1.1
      simpa [queueCreated] using hid
    · rcases (hl.queuePool.used_get hg).1 hi with rfl | hu
      exacts [.inr rfl, .inl hu]
    · by_cases hiq : i = q
      · subst hiq
        unfold Waited at hi
        simp [queueCreated, State.list] at hi
      · unfold Waited at hi ⊢
        simp only [State.list, hother i hiq] at hi ⊢
        exact hi

theorem mqDestroy_owned (h : Owned s) (hl : Listed s) (hs : internalMqDestroy s = .ok s') :
    Owned s' := by
  rcases mqDestroy_untouched hs with hu | ⟨q, s₁, s₂, s₃, -, hu₁, hd, hf, hu₂⟩
  · exact h.untouched hl hu
  · have h₁ := h.untouched hl hu₁
    have hl₁ := hl.keeps hu₁.keeps
    refine Owned.untouched ?_ (hl₁.removeQueue hd hf).1 hu₂
    have hlist := (hl₁.removeQueue hd hf).2
    have hthin := (Thins.detachResource hd).trans (.messageQueueFree hf)
    obtain ⟨hm, rfl⟩ := detachResource_cases hd
    obtain ⟨hr, hw, rfl⟩ := messageQueueFree_cases hf
    have hu : ∀ i, (s₁.queuePool.release q).Used i ↔ i ≠ q ∧ s₁.queuePool.Used i := fun i =>
      Pool.used_release (hl₁.queue hm)
    refine h₁.thins hl₁.nodup hthin (fun i hi => ?_) fun i hi => ?_
    · obtain ⟨hne, hi⟩ := (hu i).1 hi
      rw [hlist, hl₁.nodup.mem_erase_iff]
      exact ⟨by simpa using hne, h₁.used i hi⟩
    · have hi' : Waited s₁ i := hi
      refine ⟨.inl hi', (hu i).2 ⟨?_, hl₁.queue (h₁.found i hi').mem⟩⟩
      rintro rfl
      rcases hi' with e | e
      exacts [e hr, e hw]

/-- `exit`, unless the process is reaped and was the last holder of a queue. -/
theorem exit_owned (h : Owned s) (hl : Listed s) (hs : internalExit s = .ok s')
    (hnum : (s.pcbs s.running).syscallNum ≠ dsosCallWait) (hn : ¬ ∃ q, Abandons s q) :
    Owned s' := by
  obtain ⟨parent, hp, ⟨-, hu, -⟩ | ⟨hw, s₁, s₂, hu₁, -, hrel, hu₂, -⟩⟩ := exit_untouched hs hnum
  · exact h.untouched hl hu
  · have h₁ := h.untouched hl hu₁
    have hl₁ := hl.keeps hu₁.keeps
    have hstill := Still.releaseDescriptors hrel
    obtain ⟨hpool, hlist⟩ := releaseDescriptors_list hl₁.nodup hrel
    have hlast : ∀ r, LastHolder s₁ (s.pcbs s.running).descriptors r ↔
        LastHolder s (s.pcbs s.running).descriptors r := fun r => by
      unfold LastHolder
      rw [hu₁.resource]
    refine Owned.untouched ?_ (hl₁.releaseDescriptors hrel) hu₂
    refine h₁.thins hl₁.nodup (.releaseDescriptors hrel) (fun q hq => ?_) fun q hq => ?_
    · rw [hpool] at hq
      refine (hlist _).2 ⟨h₁.used q hq, fun hlq => hn ⟨q, ⟨parent, hp, hw⟩, ?_, (hlast _).1 hlq⟩⟩
      rw [← hu₁.list]
      exact h₁.used q hq
    · have hq' := (waited_congr hstill.list).1 hq
      exact ⟨.inl hq', hstill.used q (hl₁.queue (h₁.found q hq').mem)⟩

/-! ## Interference -/

/-- A plain resource with the type of a queue is on the list. -/
theorem not_queuesOwned_generic {i : Nat} (hm : .generic i ∈ s.resourcesList)
    (ht : (s.resource (.generic i)).type = resourceMessageQueue) : ¬ QueuesOwned s := by
  intro h
  obtain ⟨q, hq, -⟩ := (h.exact _).1 ⟨hm, ht⟩
  cases hq

/-- A queue in use is not on the list. -/
theorem not_queuesOwned_used (hu : s.queuePool.Used q) (hm : .queue q ∉ s.resourcesList) :
    ¬ QueuesOwned s :=
  fun h => hm ((h.exact _).2 ⟨q, rfl, hu⟩).1

theorem open_disowns (hs : internalOpenResource s = .ok s')
    (hc : CreatesResource s ((s.pcbs s.running).syscallArgs 0)
      ((s.pcbs s.running).syscallArgs 2))
    (ht : (s.pcbs s.running).syscallArgs 1 = resourceMessageQueue) : ¬ QueuesOwned s' := by
  rcases open_cases hs with ⟨hn, -⟩ | ⟨-, i, pool, hg, hor⟩
  · exact absurd hc hn
  · have hk : Keeps (resourceCreated s i pool ((s.pcbs s.running).syscallArgs 0)
        ((s.pcbs s.running).syscallArgs 1)) s' := by
      rcases hor with hq | ho
      exacts [.quiet hq, .opens ho]
    refine not_queuesOwned_generic (i := i) ?_ ?_
    · rw [hk.list]
      exact List.mem_append_right _ (List.mem_singleton_self _)
    · rw [hk.type, resource_resourceCreated, if_pos rfl]
      exact ht

theorem destroy_disowns (hl : Listed s) (hs : internalDestroyResource s = .ok s')
    (hd : Destroys s ((s.pcbs s.running).syscallArgs 0) (.queue q)) : ¬ QueuesOwned s' := by
  rcases destroy_cases hs with ⟨hn, -⟩ | ⟨r, s₁, s₂, hr, h₁, h₂, hq⟩
  · exact absurd hd (hn _)
  · obtain rfl : r = .queue q := Option.some.inj (hr.1.symm.trans hd.1)
    obtain ⟨hlist, hpool, -⟩ := detachResource_resource h₁ h₂
    have hm := (Listed.mem_of_byId hd.1).1
    refine not_queuesOwned_used (q := q) ?_ ?_
    · rw [hq.queuePool, hpool]
      exact hl.queue hm
    · rw [hq.resourcesList, hlist]
      exact hl.nodup.not_mem_erase

theorem exit_disowns (hl : Listed s) (hs : internalExit s = .ok s')
    (hnum : (s.pcbs s.running).syscallNum ≠ dsosCallWait)
    (hq : Abandons s q) : ¬ QueuesOwned s' := by
  obtain ⟨parent, hpar, hor⟩ := exit_untouched hs hnum
  obtain ⟨⟨parent', hpar', hw'⟩, hm, hlast⟩ := hq
  obtain rfl : parent = parent' := Option.some.inj (hpar.symm.trans hpar')
  obtain ⟨-, s₁, s₂, hu₁, -, hrel, hu₂, -⟩ := hor.resolve_left fun hn => hn.1 hw'
  obtain ⟨hpool, hlist⟩ := releaseDescriptors_list (hl.keeps hu₁.keeps).nodup hrel
  refine not_queuesOwned_used (q := q) ?_ fun hq => ?_
  · rw [hu₂.queuePool, hpool, hu₁.queuePool]
    exact hl.queue hm
  · rw [hu₂.list] at hq
    refine ((hlist _).1 hq).2 ?_
    unfold LastHolder
    rw [hu₁.resource]
    exact hlast

/-! ## Steps and runs -/

/-- A step keeps the ownership unless it interferes, and then it is lost. -/
theorem step_owned (h : Sane s) (ho : Owned s) (hs : step s e = .ok s') :
    (¬ Interferes s e → Owned s') ∧ (Interferes s e → ¬ QueuesOwned s') := by
  by_cases he : e.Touches
  · obtain ⟨c, rfl⟩ := he.syscall
    have hl := (h.saveCall c).listed
    have ho := ho.untouched h.listed (.saveCall s c)
    cases c with
    | fork => exact ⟨fun _ => fork_owned ho hl ((step_syscall rfl).symm.trans hs), False.elim⟩
    | spawn _ _ =>
      exact ⟨fun _ => spawn_owned ho hl ((step_syscall rfl).symm.trans hs), False.elim⟩
    | closeResource _ =>
      exact ⟨fun _ => close_owned ho hl ((step_syscall rfl).symm.trans hs), False.elim⟩
    | mqCreate _ _ =>
      exact ⟨fun _ => mqCreate_owned ho hl ((step_syscall rfl).symm.trans hs), False.elim⟩
    | mqDestroy _ =>
      exact ⟨fun _ => mqDestroy_owned ho hl ((step_syscall rfl).symm.trans hs), False.elim⟩
    | openResource n type mode =>
      have hs' : internalOpenResource (saveCall s (.openResource n type mode)) = .ok s' :=
        (step_syscall rfl).symm.trans hs
      have h1 := open_owned ho hl hs'
      have h2 := open_disowns hs'
      rw [saveCall_running, saveCall_args, saveCall_args, saveCall_args] at h1 h2
      exact ⟨h1, fun hi => h2 hi.1 hi.2⟩
    | destroyResource n =>
      have hs' : internalDestroyResource (saveCall s (.destroyResource n)) = .ok s' :=
        (step_syscall rfl).symm.trans hs
      have h1 := destroy_owned ho hl hs'
      rw [saveCall_running, saveCall_args] at h1
      refine ⟨h1, fun hi => ?_⟩
      obtain ⟨q, hq⟩ := hi
      apply destroy_disowns (q := q) hl hs'
      rw [saveCall_running, saveCall_args]
      exact hq
    | exit v =>
      have hs' : internalExit (saveCall s (.exit v)) = .ok s' := (step_syscall rfl).symm.trans hs
      have hn := exit_num s v
      refine ⟨exit_owned ho hl hs' hn, fun hi => ?_⟩
      obtain ⟨_, hq⟩ := hi
      exact exit_disowns hl hs' hn hq
    | _ => exact absurd he id
  · refine ⟨fun _ => ho.untouched h.listed (step_untouched h he hs), fun hi => absurd ?_ he⟩
    cases e with
    | syscall c =>
      cases c with
      | openResource _ _ _ => trivial
      | destroyResource _ => trivial
      | exit _ => trivial
      | _ => exact hi.elim
    | _ => exact hi.elim

/-- Only `mq_destroy` frees the block of a queue. -/
theorem step_used (h : Sane s) (hd : ∀ id, e ≠ .syscall (.mqDestroy id)) (hs : step s e = .ok s')
    (hq : s.queuePool.Used q) : s'.queuePool.Used q := by
  by_cases he : e.Touches
  · obtain ⟨c, rfl⟩ := he.syscall
    have hl := (h.saveCall c).listed
    have hq : (saveCall s c).queuePool.Used q := hq
    have hk : Keeps (saveCall s c) s' → s'.queuePool.Used q := fun hk => by rwa [hk.queuePool]
    cases c with
    | fork => exact hk (fork_keeps ((step_syscall rfl).symm.trans hs))
    | spawn _ _ => exact hk (spawn_keeps ((step_syscall rfl).symm.trans hs))
    | closeResource _ => exact hk (close_keeps ((step_syscall rfl).symm.trans hs))
    | openResource _ _ _ =>
      rcases open_cases ((step_syscall rfl).symm.trans hs) with
        ⟨-, hq' | ⟨r, -, ho⟩⟩ | ⟨-, i, pool, -, hq' | ho⟩
      · exact hk (.quiet hq')
      · exact hk (.opens ho)
      · exact (Still.resourceCreated.trans (.quiet hq')).used q hq
      · exact (Still.resourceCreated.trans (.opens ho)).used q hq
    | destroyResource _ =>
      rcases destroy_cases ((step_syscall rfl).symm.trans hs) with
        ⟨-, hq'⟩ | ⟨r, s₁, s₂, -, h₁, h₂, hq'⟩
      · exact hk (.quiet hq')
      · exact ((Still.detachResource h₁).trans
          ((Still.resourceFree h₂).trans (.quiet hq'))).used q hq
    | mqCreate _ _ =>
      rcases mqCreate_cases ((step_syscall rfl).symm.trans hs) with
        ⟨-, hq'⟩ | ⟨-, i, pool, hg, hq'⟩
      · exact hk (.quiet hq')
      · rw [hq'.queuePool]
        exact (hl.queuePool.used_get hg).2 (.inr hq)
    | exit _ =>
      obtain ⟨parent, -, ⟨-, hu, -⟩ | ⟨-, s₁, s₂, hu₁, -, hrel, hu₂, -⟩⟩ :=
        exit_untouched ((step_syscall rfl).symm.trans hs) (exit_num s _)
      · exact hk hu.keeps
      · rw [hu₂.queuePool]
        exact (Still.releaseDescriptors hrel).used q (by rwa [hu₁.queuePool])
    | mqDestroy n => exact absurd rfl (hd n)
    | _ => exact absurd he id
  · rw [(step_untouched h he hs).queuePool]
    exact hq

theorem boot_owned : Owned boot := by
  obtain ⟨pool, -, he⟩ := boot_eq
  have hl : boot.resourcesList = [] := by rw [he]; rfl
  have hw : ∀ q, ¬ Waited boot q := fun q hw => by
    rw [he] at hw
    rcases hw with hw | hw <;> exact hw rfl
  refine ⟨fun r hr => ?_, fun q hu => ?_, fun q hq => absurd hq (hw q), fun q hq => ?_⟩
  · rw [hl] at hr
    cases hr
  · rw [he] at hu
    exact absurd hu (Pool.not_used_init _ _)
  · rw [hl] at hq
    cases hq

/-- **Queues are owned by the queue calls**, and only `mq_destroy` removes them, throughout a run
exactly if no call of the run on resources interferes. -/
theorem queuesOwned_iff (hr : run step boot es = .ok s) :
    Always step QueuesOwned boot es ∧ Along step KeepsQueues boot es ↔
      Along step (fun s e => ¬ Interferes s e) boot es := by
  have h0 : Sane boot ∧ Owned boot := ⟨boot_sane, boot_owned⟩
  have hstep : ∀ s e s', Sane s ∧ Owned s → ¬ Interferes s e → step s e = .ok s' →
      Sane s' ∧ Owned s' := fun s e s' h hn hs =>
    ⟨(step_steps h.1 hs).sane, (step_owned h.1 h.2 hs).1 hn⟩
  have hiff := always_iff_along (P := QueuesOwned) (I := fun s => Sane s ∧ Owned s)
    (A := fun _ => True) (C := fun s e => ¬ Interferes s e)
    (fun _ h => h.2.queuesOwned h.1.listed) (fun s e s' h _ hn hs => hstep s e s' h hn hs)
    (fun _ _ _ h _ hn hs => (step_owned h.1 h.2 hs).2 (not_not.1 hn)) h0 (fun _ _ => trivial) hr
  refine ⟨fun h => hiff.1 h.1, fun h => ⟨hiff.2 h, ?_⟩⟩
  refine Along.mono_inv h (fun s e hi hn hd s' hs q hq => ?_) hstep h0
  exact (hstep s e s' hi hn hs).2.used q (step_used hi.1 hd hs (hi.1.listed.queue hq))

/-- A plain resource with the type of a queue is created, and sent to. -/
def interferingRun : List Event :=
  [.syscall (.openResource 5 resourceMessageQueue 1)]

theorem interferingRun_not_queuesOwned : ∃ s, run step boot interferingRun = .ok s ∧
    ¬ QueuesOwned s ∧ step s (.syscall (.mqSend 5 100 1)) = .error .badCast := by
  have hc : (run step boot interferingRun).toOption.any (fun s =>
      .generic 0 ∈ s.resourcesList ∧ (s.resource (.generic 0)).type = resourceMessageQueue ∧
        stopped (step s (.syscall (.mqSend 5 100 1))) = some .badCast) = true := by decide +kernel
  obtain ⟨s, hr, hc⟩ := run_check hc
  obtain ⟨h1, h2, h3⟩ := of_decide_eq_true hc
  exact ⟨s, hr, not_queuesOwned_generic h1 h2, eq_error_of_stopped h3⟩

/-- A process blocks on a queue next to another resource, which is closed and destroyed. -/
def owningRun : List Event :=
  [.syscall (.mqCreate 5 1), .syscall (.openResource 6 resourceGeneric 1),
    .syscall (.spawn 0 0), .syscall (.mqReceive 5 200 8), .syscall (.mqSend 5 100 4),
    .syscall .preempt, .syscall (.closeResource 0), .syscall (.destroyResource 6),
    .syscall (.mqDestroy 5)]

theorem queuesOwned_owningRun : Always step QueuesOwned boot owningRun ∧
    Along step KeepsQueues boot owningRun := by
  have hc : (run step boot owningRun).toOption.any (fun _ => true) = true := by decide +kernel
  obtain ⟨s, hr, -⟩ := run_check hc
  exact (queuesOwned_iff hr).2 (by decide +kernel)

end

end DisastrOS
