import DisastrOS.Proof.Descriptors

/-!
# Reference counts

As long as there are no queues, the count of a resource is the number of descriptors for it of the
processes that have not been reaped, exactly if no `wait` reaps a process that still has descriptors:
`wait` does not release them (`exactCounts_iff`).
-/

namespace DisastrOS

open Lib State

/-- The descriptors for `r` of the processes that have not been reaped. -/
def holders (s : State) (r : ResourceRef) : List Descriptor :=
  ((List.range s.pcbPool.sizeMax).filter fun p => s.Alloc p).flatMap fun p =>
    (s.pcbs p).descriptors.filter (·.resource = r)

/-- The counts are exact, and `destroyResource` succeeds on a resource that nobody holds. -/
structure ExactCounts (s : State) : Prop where
  count : ∀ r ∈ s.resourcesList, (s.resource r).refCount = (s.ptrs r).length
  held : ∀ r ∈ s.resourcesList, (s.ptrs r).length = (holders s r).length
  destroy : ∀ id r, resourceListById s id = some r → holders s r = [] → ∃ s',
    step s (.syscall (.destroyResource id)) = .ok s' ∧
      (s'.pcbs s.running).syscallRetvalue = 0 ∧ r ∉ s'.resourcesList

/-- The zombie that `wait` reaps. -/
def reapedZombie (s : State) : Option PCBPtr :=
  (waitScan s ((s.pcbs s.running).syscallArgs 0) none (s.pcbs s.running).children).filter fun e =>
    (s.pcbs e.pcb).status = .zombie

/-- The event is a `wait` that reaps a process with descriptors. -/
def LeaksDescriptors (s : State) : Event → Prop
  | .syscall (.wait pid retval) => ∃ e ∈ reapedZombie (saveCall s (.wait pid retval)),
      (s.pcbs e.pcb).descriptors ≠ []
  | _ => False

instance (s : State) : DecidablePred (LeaksDescriptors s)
  | .syscall (.wait pid retval) =>
    inferInstanceAs (Decidable (∃ e ∈ reapedZombie (saveCall s (.wait pid retval)),
      (s.pcbs e.pcb).descriptors ≠ []))
  | .syscall .preempt | .syscall .fork | .syscall (.exit _) | .syscall (.spawn ..)
  | .syscall (.sleep _) | .syscall (.openResource ..) | .syscall (.closeResource _)
  | .syscall (.destroyResource _) | .syscall (.mqCreate ..) | .syscall (.mqSend ..)
  | .syscall (.mqReceive ..) | .syscall (.mqDestroy _) | .syscall .shutdown | .tick | .store .. =>
    isFalse id

/-- Every pointer belongs to a descriptor that some process holds. -/
def Backed (s : State) : Prop :=
  ∀ r, ∀ dp ∈ s.ptrs r, ∃ p d, s.Holds p d ∧ d.resource = r ∧ d.ptr = dp.block

section
variable {s s' s₁ s₂ : State} {p q : PcbRef} {r r' : ResourceRef} {d d' : Descriptor}
  {ds : List Descriptor} {dp : DescriptorPtr} {fd : Int} {b c i : Nat} {pool ptrPool : Pool}
  {e : Event} {es : List Event}

/-! ## Counting -/

theorem mem_holders : d ∈ holders s r ↔ ∃ p, s.Holds p d ∧ d.resource = r := by
  unfold holders State.Holds
  simp only [List.mem_flatMap, List.mem_filter, List.mem_range, decide_eq_true_eq]
  constructor
  · rintro ⟨p, ⟨-, hp⟩, hd, hr⟩
    exact ⟨p, ⟨hp, hd⟩, hr⟩
  · rintro ⟨p, ⟨hp, hd⟩, hr⟩
    exact ⟨p, ⟨hp.1, hp⟩, hd, hr⟩

/-- The pointer of a descriptor. -/
def Descriptor.link (d : Descriptor) : DescriptorPtr := ⟨d.ptr, d.block⟩

namespace Held

theorem holders_nodup (h : Held s) (r : ResourceRef) : ((holders s r).map Descriptor.link).Nodup := by
  have hn : (holders s r).Nodup := by
    refine List.nodup_flatMap.2 ⟨fun p hp => ?_, ?_⟩
    · have ha : s.Alloc p := of_decide_eq_true (List.mem_filter.1 hp).2
      exact ((h.nodup ha).of_map _).filter _
    · refine (List.nodup_range.filter _).pairwise_of_forall_ne fun p hp q hq hne => ?_
      intro d hd hd'
      have hp' : s.Alloc p := of_decide_eq_true (List.mem_filter.1 hp).2
      have hq' : s.Alloc q := of_decide_eq_true (List.mem_filter.1 hq).2
      exact hne (h.only ⟨hp', (List.mem_filter.1 hd).1⟩ ⟨hq', (List.mem_filter.1 hd').1⟩ rfl)
  refine hn.map_on fun d hd d' hd' he => ?_
  obtain ⟨p, hp, -⟩ := mem_holders.1 hd
  obtain ⟨q, hq, -⟩ := mem_holders.1 hd'
  exact (h.eq_of_block hp hq (congrArg DescriptorPtr.descriptor he)).2

theorem holders_subset (h : Held s) (r : ResourceRef) :
    (holders s r).map Descriptor.link ⊆ s.ptrs r := by
  intro dp hm
  obtain ⟨d, hd, rfl⟩ := List.mem_map.1 hm
  obtain ⟨p, hp, rfl⟩ := mem_holders.1 hd
  exact h.linked hp

/-- If every pointer is backed, there are as many pointers as descriptors. -/
theorem length_holders (h : Held s) (hb : Backed s) (r : ResourceRef) :
    (s.ptrs r).length = (holders s r).length := by
  have hsub : s.ptrs r ⊆ (holders s r).map Descriptor.link := by
    intro dp hm
    obtain ⟨p, d, hd, rfl, hptr⟩ := hb r dp hm
    refine List.mem_map.2 ⟨d, mem_holders.2 ⟨p, hd, rfl⟩, ?_⟩
    exact List.inj_on_of_nodup_map (h.ptrNodup _) (h.linked hd) hm hptr
  have hperm := (List.perm_ext_iff_of_nodup ((h.ptrNodup r).of_map _) (h.holders_nodup r)).2
    fun dp => ⟨fun hm => hsub hm, fun hm => h.holders_subset r hm⟩
  rw [hperm.length_eq, List.length_map]

/-- A pointer that belongs to nobody is one too many. -/
theorem holders_lt (h : Held s) (hm : dp ∈ s.ptrs r)
    (hn : ∀ p d, s.Holds p d → d.ptr ≠ dp.block) : (holders s r).length < (s.ptrs r).length := by
  have hsub : (dp :: (holders s r).map Descriptor.link) ⊆ s.ptrs r :=
    List.cons_subset.2 ⟨hm, h.holders_subset r⟩
  have hnd : (dp :: (holders s r).map Descriptor.link).Nodup := by
    refine List.nodup_cons.2 ⟨fun hm => ?_, h.holders_nodup r⟩
    obtain ⟨d, hd, rfl⟩ := List.mem_map.1 hm
    obtain ⟨p, hp, -⟩ := mem_holders.1 hd
    exact hn p d hp rfl
  have := hnd.length_le_of_subset hsub
  rw [List.length_cons, List.length_map] at this
  omega

end Held

/-! ## Blocks of processes -/

/-- `wait` frees the block of the zombie that it reaps, and no other. -/
theorem wait_reaps (hs : internalWait s = .ok s') :
    (∃ e ∈ reapedZombie s, e.pcb ∈ s.list .zombie ∧ s'.pcbPool = s.pcbPool.release e.pcb) ∨
      reapedZombie s = none ∧ s'.pcbPool = s.pcbPool := by
  have hsleep : internalWait.waitSleep s s.running = .ok s' → s'.pcbPool = s.pcbPool := by
    intro h
    obtain ⟨s₁, h₁, h⟩ := bind_eq_ok.1 h
    obtain ⟨⟨p, s₂⟩, h₂, h⟩ := bind_eq_ok.1 h
    obtain ⟨ps, -, rfl⟩ := listDetachFirst_cases h₂
    cases h
    have h2 := listInsert_pcbPool h₁
    exact setList_pcbPool.trans h2
  unfold internalWait at hs
  dsimp only at hs
  split at hs
  · rename_i hnil
    cases hs
    exact .inr ⟨by simp [reapedZombie, hnil, waitScan], rfl⟩
  split at hs
  · rename_i hscan
    refine .inr ⟨by simp [reapedZombie, hscan], ?_⟩
    split at hs
    · cases hs
      rfl
    · exact hsleep hs
  rename_i e hscan
  split at hs
  · rename_i hz
    obtain ⟨s₁, h₁, hs⟩ := bind_eq_ok.1 hs
    cases hs
    refine .inl ⟨e, by simp [reapedZombie, hscan, hz], ?_, ?_⟩
    · exact (listDetach_cases h₁).1
    · have hq := (Quiet.setRetvalue s₁ s.running (s₁.pcbs e.pcb).pid).trans (.storeResult _
        ((s.pcbs s.running).syscallArgs 1)
        ((s₁.setRetvalue s.running (s₁.pcbs e.pcb).pid).pcbs e.pcb).returnValue)
      show Pool.release _ _ = _
      rw [hq.pcbPool, listDetach_pcbPool h₁]
      rfl
  · rename_i hz
    exact .inr ⟨by simp [reapedZombie, hscan, hz], hsleep hs⟩

theorem sleep_pcbPool (hs : internalSleep s = .ok s') : s'.pcbPool = s.pcbPool := by
  rcases sleep_cases hs with ⟨hq, -⟩ | ⟨-, b, s₁, s₂, hq, hi, hsch⟩
  · exact hq.pcbPool
  · rw [(Rescheduled.schedule hsch).pcbPool, listInsert_pcbPool hi, hq.pcbPool]
    rfl

/-! ## Every pointer is backed -/

namespace Backed

/-- No process with descriptors is reaped. -/
theorem untouched (h : Backed s) (hu : Untouched s s')
    (ha : ∀ p, s.Alloc p → (s.pcbs p).descriptors ≠ [] → s'.Alloc p) : Backed s' := by
  intro r dp hm
  unfold State.ptrs at hm
  rw [hu.resource] at hm
  obtain ⟨p, d, hd, hr, hptr⟩ := h r dp hm
  refine ⟨p, d, ⟨ha p hd.1 (List.ne_nil_of_mem hd.2), ?_⟩, hr, hptr⟩
  rw [hu.descriptors]
  exact hd.2

theorem pcbPool (h : Backed s) (hu : Untouched s s') (hp : s'.pcbPool = s.pcbPool) : Backed s' :=
  h.untouched hu fun p ha _ => by
    unfold State.Alloc
    rw [hp]
    exact ha

theorem newborn (h : Backed s) (hok : s.pcbPool.Ok) (hg : s.pcbPool.get = some (p, pool)) :
    Backed (newborn s p pool) := by
  intro r dp hm
  have hm : dp ∈ s.ptrs r := by cases r <;> exact hm
  obtain ⟨q, d, hd, hr, hptr⟩ := h r dp hm
  have hq : q ≠ p := fun e => Pool.not_used_get hg (e ▸ hd.1)
  refine ⟨q, d, ⟨(hok.used_get hg).2 (.inr hd.1), ?_⟩, hr, hptr⟩
  simp only [DisastrOS.newborn, if_neg hq]
  exact hd.2

theorem granted (h : Backed s) (ha : s.Alloc p) : Backed (granted s p r fd b c pool ptrPool) := by
  have hall : ∀ q, (DisastrOS.granted s p r fd b c pool ptrPool).Alloc q ↔ s.Alloc q := fun q =>
    (Still.granted (p := p)).alloc
  intro x dp hm
  rw [ptrs_granted] at hm
  have hor : dp ∈ s.ptrs x ∨ x = r ∧ dp = ⟨c, b⟩ := by
    split at hm
    · rename_i hx
      rw [List.mem_append, List.mem_singleton] at hm
      exact hm.imp_right fun e => ⟨hx, e⟩
    · exact .inl hm
  rcases hor with hm | ⟨rfl, rfl⟩
  · obtain ⟨q, d, hd, hr, hptr⟩ := h x dp hm
    refine ⟨q, d, ⟨(hall q).2 hd.1, ?_⟩, hr, hptr⟩
    rw [descriptors_granted]
    split
    · rename_i hq
      exact List.mem_append_left _ (hq ▸ hd.2)
    · exact hd.2
  · refine ⟨p, ⟨b, p, x, fd, c⟩, ⟨(hall p).2 ha, ?_⟩, rfl, rfl⟩
    rw [descriptors_granted, if_pos rfl]
    exact List.mem_append_right _ (List.mem_singleton_self _)

theorem dropped (h : Backed s) (hh : Held s) (ha : s.Alloc p)
    (hp : (s.pcbs p).descriptors.Perm (d :: ds)) : Backed (dropped s p d ds) := by
  have hd0 : s.Holds p d := ⟨ha, hp.mem_iff.2 List.mem_cons_self⟩
  intro x dp hm
  have hm : dp ∈ s.ptrs x ∧ dp.block ≠ d.ptr := by
    rw [ptrs_dropped] at hm
    split at hm
    · exact (mem_eraseP_key (hh.ptrNodup x)).1 hm
    · rename_i hx
      exact ⟨hm, fun e => hx (hh.ptrOnly hm (hh.linked hd0) e)⟩
  obtain ⟨q, d', hd, hr, hptr⟩ := h x dp hm.1
  refine ⟨q, d', ⟨(Still.dropped (p := p)).alloc.2 hd.1, ?_⟩, hr, hptr⟩
  rw [descriptors_dropped]
  split
  · rename_i hq
    have hd2 := hd.2
    rw [hq, hp.mem_iff, List.mem_cons] at hd2
    refine hd2.resolve_left fun e => hm.2 ?_
    rw [← hptr, e]
  · exact hd.2

theorem created {id type : Int} (h : Backed s) : Backed (resourceCreated s i pool id type) := by
  intro x dp hm
  unfold State.ptrs at hm
  rw [resource_resourceCreated] at hm
  split at hm
  · cases hm
  · exact h x dp hm

theorem removed (h : Backed s) (h₁ : detachResource s r = .ok s₁)
    (h₂ : resourceFree s₁ r = .ok s₂) : Backed s₂ := by
  obtain ⟨-, -, hr⟩ := detachResource_resource h₁ h₂
  intro x dp hm
  unfold State.ptrs at hm
  rw [hr] at hm
  obtain ⟨q, d, hd, hx, hptr⟩ := h x dp hm
  refine ⟨q, d, ⟨((Still.detachResource h₁).trans (.resourceFree h₂)).alloc.2 hd.1, ?_⟩, hx, hptr⟩
  rw [(detachResource_pcbs h₁ h₂).1]
  exact hd.2

/-- The loop leaves the process without descriptors. -/
theorem release : ∀ {ds : List Descriptor} {s : State}, Held s → Backed s → Listed s → s.Alloc p →
    (s.pcbs p).descriptors = ds → releaseDescriptors p ds s = .ok s' →
    Backed s' ∧ (s'.pcbs p).descriptors = []
  | [], _, _, h, _, _, hds, hr => by
    cases hr
    exact ⟨h, hds⟩
  | d :: ds, s, hh, h, hl, ha, hds, hr => by
    have hp : (s.pcbs p).descriptors.Perm (d :: ds) := by rw [hds]
    have hk : Keeps s (DisastrOS.dropped s p d ds) := .dropped
    have hl1 := hl.keeps hk
    have ht : Still s (DisastrOS.dropped s p d ds) := .dropped
    have ha1 := ht.alloc.2 ha
    have hds1 : ((DisastrOS.dropped s p d ds).pcbs p).descriptors = ds := by
      rw [descriptors_dropped, if_pos rfl]
    obtain ⟨-, ⟨-, s₁, s₂, h₁, h₂, hr⟩ | ⟨-, hr⟩⟩ := releaseDescriptors_cases hr
    · have hst := (Still.detachResource h₁).trans (.resourceFree h₂)
      have hds2 : (s₂.pcbs p).descriptors = ds := by
        rw [(detachResource_pcbs h₁ h₂).1]
        exact hds1
      exact release ((hh.dropped ha hp).removed hl1.nodup h₁ h₂) ((h.dropped hh ha hp).removed h₁ h₂)
        (hl1.remove h₁ h₂).1 (hst.alloc.2 ha1) hds2 hr
    · exact release (hh.dropped ha hp) (h.dropped hh ha hp) hl1 ha1 hds1 hr

theorem forkDescriptors : ∀ {ds : List Descriptor} {s : State}, Backed s → s.Alloc p →
    forkDescriptors p ds s = .ok s' → Backed s'
  | [], _, h, _, hf => by
    cases hf
    exact h
  | d :: ds, s, h, ha, hf => by
    obtain ⟨b, c, pool, ptrPool, -, -, hf⟩ := forkDescriptors_cases hf
    exact forkDescriptors (h.granted ha) (Still.granted.alloc.2 ha) hf

theorem opens (h : Backed s) (hh : Held s) (ha : s.Alloc s.running) (ho : Opens s r s') :
    Backed s' := by
  rcases ho with hq | ⟨b, pool, hg, hq⟩ | ⟨b, c, pool, ptrPool, -, -, hq⟩
  · exact h.pcbPool (.quiet hq) hq.pcbPool
  · rw [hh.pool.release_get hg] at hq
    exact h.pcbPool (.quiet hq) hq.pcbPool
  · have h1 : Backed (DisastrOS.granted s s.running r (s.pcbs s.running).lastFd b c pool ptrPool) :=
      h.granted ha
    refine pcbPool (s := opened s r b c pool ptrPool) (fun x dp hm => ?_) (.quiet hq) hq.pcbPool
    have hm : dp ∈ (DisastrOS.granted s s.running r (s.pcbs s.running).lastFd b c pool
        ptrPool).ptrs x := by cases x <;> exact hm
    obtain ⟨q, d, hd, hx, hptr⟩ := h1 x dp hm
    refine ⟨q, d, ⟨hd.1, ?_⟩, hx, hptr⟩
    have hd2 := hd.2
    by_cases hq : q = s.running <;> simpa [opened, hq] using hd2

end Backed

/-! ## Calls -/

theorem spawn_backed (h : Backed s) (hok : s.pcbPool.Ok) (hs : internalSpawn s = .ok s') :
    Backed s' := by
  rcases spawn_untouched hs with ⟨hu, hp⟩ | ⟨p, pool, hg, hu, hp⟩
  · exact h.pcbPool hu hp
  · exact (h.newborn hok hg).pcbPool hu hp

theorem fork_backed (h : Backed s) (hok : s.pcbPool.Ok) (hs : internalFork s = .ok s') :
    Backed s' := by
  rcases fork_untouched hs with ⟨-, hu, hp⟩ | ⟨p, pool, s₁, s₂, hg, hu₁, hp₁, hd, hu₂, hp₂⟩
  · exact h.pcbPool hu hp
  · have hp : s₁.Alloc p := by
      unfold State.Alloc
      rw [hp₁]
      exact (hok.used_get hg).2 (.inl rfl)
    exact (((h.newborn hok hg).pcbPool hu₁ hp₁).forkDescriptors hp hd).pcbPool hu₂ hp₂

theorem open_backed (h : Backed s) (hh : Held s) (hl : Listed s) (ha : s.Alloc s.running)
    (hs : internalOpenResource s = .ok s') : Backed s' := by
  rcases open_cases hs with ⟨-, hq | ⟨r, -, ho⟩⟩ | ⟨-, i, pool, hg, hq | ho⟩
  · exact h.pcbPool (.quiet hq) hq.pcbPool
  · exact h.opens hh ha ho
  · exact h.created.pcbPool (.quiet hq) hq.pcbPool
  · exact h.created.opens (hh.created hl hg) (Still.resourceCreated.alloc.2 ha) ho

theorem close_backed (h : Backed s) (hh : Held s) (ha : s.Alloc s.running)
    (hs : internalCloseResource s = .ok s') : Backed s' := by
  rcases close_cases hs with ⟨-, hq⟩ | ⟨d, hd, -, hq⟩
  · exact h.pcbPool (.quiet hq) hq.pcbPool
  · have hm : d ∈ (s.pcbs s.running).descriptors := List.mem_of_find?_eq_some hd
    exact (h.dropped hh ha (List.perm_cons_erase hm)).pcbPool (.quiet hq) hq.pcbPool

theorem destroy_backed (h : Backed s) (hs : internalDestroyResource s = .ok s') : Backed s' := by
  rcases destroy_cases hs with ⟨-, hq⟩ | ⟨r, s₁, s₂, -, h₁, h₂, hq⟩
  · exact h.pcbPool (.quiet hq) hq.pcbPool
  · exact (h.removed h₁ h₂).pcbPool (.quiet hq) hq.pcbPool

/-- The process that is reaped by its parent has released its descriptors. -/
theorem exit_backed (h : Backed s) (hh : Held s) (hl : Listed s) (ha : s.Alloc s.running)
    (hn : (s.pcbs s.running).syscallNum ≠ dsosCallWait) (hs : internalExit s = .ok s') :
    Backed s' := by
  obtain ⟨parent, -, ⟨-, hu, hp⟩ | ⟨-, s₁, s₂, hu₁, hp, hrel, hu₂, hp₂⟩⟩ := exit_untouched hs hn
  · exact h.pcbPool hu hp
  · have ha1 : s₁.Alloc s.running := by
      unfold State.Alloc
      rw [hp]
      exact ha
    obtain ⟨h2, hnil⟩ := (h.pcbPool hu₁ hp).release (hh.untouched hu₁) (hl.keeps hu₁.keeps) ha1
      (hu₁.descriptors s.running) hrel
    refine h2.untouched hu₂ fun p hpa hne => ?_
    have hps : p ≠ s.running := by
      rintro rfl
      exact hne hnil
    unfold State.Alloc
    rw [hp₂]
    exact (Pool.used_release ((Still.releaseDescriptors hrel).alloc.2 ha1)).2 ⟨hps, hpa⟩

/-- `wait`, unless it reaps a process with descriptors. -/
theorem wait_backed (h : Backed s) (ht : Table s [s.running])
    (hn : ∀ e ∈ reapedZombie s, (s.pcbs e.pcb).descriptors = []) (hs : internalWait s = .ok s') :
    Backed s' := by
  rcases wait_reaps hs with ⟨e, he, hz, hp⟩ | ⟨-, hp⟩
  · refine h.untouched (wait_untouched hs) fun p ha hne => ?_
    have hpe : p ≠ e.pcb := by
      rintro rfl
      exact hne (hn e he)
    unfold State.Alloc
    rw [hp]
    exact (Pool.used_release (ht.alloc hz)).2 ⟨hpe, ha⟩
  · exact h.pcbPool (wait_untouched hs) hp

/-- The descriptors of the process that it reaps are still counted. -/
theorem wait_leaks (hh : Held s) (hh' : Held s') (ht : Table s [s.running]) {e : PCBPtr}
    (he : e ∈ reapedZombie s) (hne : (s.pcbs e.pcb).descriptors ≠ [])
    (hs : internalWait s = .ok s') : ¬ ExactCounts s' := by
  intro hc
  have hu := wait_untouched hs
  rcases wait_reaps hs with ⟨e', he', hz, hp⟩ | ⟨hnone, -⟩
  · obtain rfl : e = e' := Option.some.inj (he.symm.trans he')
    obtain ⟨d, hd⟩ := List.exists_mem_of_ne_nil _ hne
    have ha := ht.alloc hz
    have hd : s.Holds e.pcb d := ⟨ha, hd⟩
    have hptr : s'.ptrs d.resource = s.ptrs d.resource :=
      congrArg Resource.descriptorsPtrs (hu.resource _)
    have hlt : (holders s' d.resource).length < (s'.ptrs d.resource).length := by
      have hlink : (⟨d.ptr, d.block⟩ : DescriptorPtr) ∈ s'.ptrs d.resource := by
        rw [hptr]
        exact hh.linked hd
      refine hh'.holders_lt hlink fun p d' hd' heq => ?_
      · obtain ⟨hp', hd'⟩ := hd'
        unfold State.Alloc at hp'
        rw [hp, Pool.used_release ha] at hp'
        rw [hu.descriptors] at hd'
        exact hp'.1 (hh.eq_of_ptr ⟨hp'.2, hd'⟩ hd heq).1
    have hm : d.resource ∈ s'.resourcesList := by
      rw [hu.list]
      exact hh.listed hd
    have := hc.held _ hm
    omega
  · rw [hnone] at he
    cases he

/-! ## Steps and runs -/

theorem step_backed (h : Sane s) (hh : Held s) (hb : Backed s) (he : e.OffQueues)
    (hn : ¬ LeaksDescriptors s e) (hs : step s e = .ok s') : Backed s' := by
  have hu : ¬ e.Touches → Untouched s s' := fun ht => step_untouched h ht hs
  cases e with
  | tick => exact hb.pcbPool (hu id) (Rescheduled.schedule hs).pcbPool
  | store addr bytes =>
    cases hs
    exact hb.pcbPool (hu id) rfl
  | syscall c =>
    have h0 := h.saveCall c
    have hh0 := hh.untouched (.saveCall s c)
    have hb0 : Backed (saveCall s c) := hb.pcbPool (.saveCall s c) rfl
    cases c with
    | preempt =>
      exact hb0.pcbPool (preempt_untouched ((step_syscall rfl).symm.trans hs))
        (Rescheduled.schedule ((step_syscall rfl).symm.trans hs)).pcbPool
    | sleep _ =>
      exact hb0.pcbPool (sleep_untouched ((step_syscall rfl).symm.trans hs))
        (sleep_pcbPool ((step_syscall rfl).symm.trans hs))
    | wait pid retval =>
      refine wait_backed hb0 h0.table (fun e he => ?_) ((step_syscall rfl).symm.trans hs)
      rw [(Untouched.saveCall s _).descriptors]
      exact not_not.1 fun hne => hn ⟨e, he, hne⟩
    | fork => exact fork_backed hb0 h0.table.pool ((step_syscall rfl).symm.trans hs)
    | spawn _ _ => exact spawn_backed hb0 h0.table.pool ((step_syscall rfl).symm.trans hs)
    | openResource _ _ _ =>
      exact open_backed hb0 hh0 h0.listed h0.alloc ((step_syscall rfl).symm.trans hs)
    | closeResource _ => exact close_backed hb0 hh0 h0.alloc ((step_syscall rfl).symm.trans hs)
    | destroyResource _ => exact destroy_backed hb0 ((step_syscall rfl).symm.trans hs)
    | exit _ =>
      exact exit_backed hb0 hh0 h0.listed h0.alloc (exit_num s _)
        ((step_syscall rfl).symm.trans hs)
    | shutdown => cases (step_syscall (f := fun _ => .error .shutdown) rfl).symm.trans hs
    | _ => exact he.elim

/-- `destroyResource` is not refused if nobody holds the resource. -/
theorem destroy_unheld {n : Int} (hl : Listed s) (hh : Held s)
    (hn : (s.pcbs s.running).syscallArgs 0 = n) (hr : resourceListById s n = some r)
    (hnil : s.ptrs r = []) : ∃ s', internalDestroyResource s = .ok s' ∧
      (s'.pcbs s.running).syscallRetvalue = 0 ∧ r ∉ s'.resourcesList := by
  have hm := (Listed.mem_of_byId hr).1
  have hc : (s.resource r).refCount ≤ 0 := by
    rw [hh.count hm, hnil]
    rfl
  obtain ⟨s₁, s₂, h₁, h₂⟩ := hh.removable hm hc
  refine ⟨s₂.setRetvalue s.running 0, ?_, by simp, fun hm' => ?_⟩
  · unfold internalDestroyResource
    dsimp only
    rw [hn, hr]
    dsimp only
    rw [if_neg (Int.not_lt.2 hc), h₁, ok_bind, h₂, ok_bind]
  · have hm' : r ∈ s₂.resourcesList := hm'
    rw [(detachResource_resource h₁ h₂).1] at hm'
    exact hl.nodup.not_mem_erase hm'

theorem exactCounts_of (h : Sane s) (hh : Held s) (hb : Backed s) : ExactCounts s where
  count _ hr := hh.count hr
  held r _ := hh.length_holders hb r
  destroy n r hr hnone := by
    have hu := Untouched.saveCall s (.destroyResource n)
    have hnil : (saveCall s (.destroyResource n)).ptrs r = [] := by
      have h1 := hh.length_holders hb r
      rw [hnone] at h1
      have h2 : s.ptrs r = [] := List.length_eq_zero_iff.1 h1
      exact (congrArg Resource.descriptorsPtrs (hu.resource r)).trans h2
    obtain ⟨s', hs', h3⟩ := destroy_unheld (h.saveCall _).listed (hh.untouched hu)
      (saveCall_args s _ 0) (hu.byId.trans hr) hnil
    exact ⟨s', (step_syscall rfl).trans hs', h3⟩

theorem boot_backed : Backed boot := by
  obtain ⟨pool, -, he⟩ := boot_eq
  intro r dp hm
  rw [he] at hm
  cases r <;> cases hm

theorem step_leaks (h : Sane s) (hh : Held s) (he : e.OffQueues) (hl : LeaksDescriptors s e)
    (hs : step s e = .ok s') : ¬ ExactCounts s' := by
  match e, hl with
  | .syscall (.wait pid retval), ⟨x, hx, hne⟩ =>
    refine wait_leaks (hh.untouched (.saveCall s _)) (step_held h hh he hs) (h.saveCall _).table hx
      ?_ ((step_syscall rfl).symm.trans hs)
    rw [(Untouched.saveCall s _).descriptors]
    exact hne

/-- **Reference counts are exact** throughout a run off the queues exactly if no `wait` of the run
reaps a process that has descriptors. -/
theorem exactCounts_iff (he : ∀ e ∈ es, e.OffQueues) (hr : run step boot es = .ok s) :
    Always step ExactCounts boot es ↔ Along step (fun s e => ¬ LeaksDescriptors s e) boot es :=
  always_iff_along (I := fun s => Sane s ∧ Held s ∧ Backed s) (A := Event.OffQueues)
    (fun _ h => exactCounts_of h.1 h.2.1 h.2.2)
    (fun _ _ _ h he hn hs => ⟨(step_steps h.1 hs).sane, step_held h.1 h.2.1 he hs,
      step_backed h.1 h.2.1 h.2.2 he hn hs⟩)
    (fun _ _ _ h he hn hs => step_leaks h.1 h.2.1 he (not_not.1 hn) hs)
    ⟨boot_sane, boot_held, boot_backed⟩ he hr

/-- A child opens a resource and exits before its parent waits. -/
def leakingRun : List Event :=
  [.syscall (.spawn 0 0), .syscall .preempt, .syscall (.openResource 5 resourceGeneric 1),
    .syscall (.exit 0)] ++ [.syscall (.wait 0 0)]

theorem leakingRun_not_exactCounts : (∀ e ∈ leakingRun, e.OffQueues) ∧
    ∃ s, run step boot leakingRun = .ok s ∧ ¬ ExactCounts s ∧ ∃ s',
      step s (.syscall (.destroyResource 5)) = .ok s' ∧
        (s'.pcbs s.running).syscallRetvalue = dsosEResourceInUse := by
  have hc : (run step boot [.syscall (.spawn 0 0), .syscall .preempt,
      .syscall (.openResource 5 resourceGeneric 1), .syscall (.exit 0)]).toOption.any (fun s =>
        LeaksDescriptors s (.syscall (.wait 0 0)) ∧
          (step s (.syscall (.wait 0 0))).toOption.any (fun s' =>
            (step s' (.syscall (.destroyResource 5))).toOption.any (fun s'' =>
              (s''.pcbs s'.running).syscallRetvalue = dsosEResourceInUse))) = true := by
    decide +kernel
  obtain ⟨s, hr, hc⟩ := run_check hc
  obtain ⟨hl, hc⟩ := of_decide_eq_true hc
  obtain ⟨s', hs, hc⟩ := ok_of_any hc
  obtain ⟨s'', hs', hc⟩ := ok_of_any hc
  obtain ⟨h1, h2⟩ := run_held (by decide) hr
  exact ⟨by decide, s', (run_snoc hr).trans hs, step_leaks h1 h2 (by decide) hl hs, s'', hs',
    of_decide_eq_true hc⟩

/-- The parent waits for a child with a descriptor, and a zombie without descriptors is reaped
later. -/
def releasingRun : List Event :=
  [.syscall (.openResource 5 resourceGeneric 1), .syscall (.spawn 0 0), .syscall (.wait 0 0),
    .syscall (.openResource 5 resourceGeneric 0), .syscall (.exit 0), .syscall (.spawn 0 0),
    .syscall .preempt, .syscall (.exit 0), .syscall (.wait 0 0), .syscall (.closeResource 0),
    .syscall (.destroyResource 5)]

theorem exactCounts_releasingRun : Always step ExactCounts boot releasingRun := by
  have hc : (run step boot releasingRun).toOption.any (fun _ => true) = true := by decide +kernel
  obtain ⟨s, hr, -⟩ := run_check hc
  exact (exactCounts_iff (by decide) hr).2 (by decide +kernel)

end

end DisastrOS
