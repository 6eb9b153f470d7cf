import DisastrOS.Proof.Untouched

/-!
# Descriptors

As long as there are no queues, `Held s` is invariant: the descriptors of the processes that have
not been reaped are linked with the resources on the list, each through its own pointer, and the
count of a resource is the length of its list of pointers. So no descriptor dangles, and no assertion
of the calls on resources fails (`noDangling`).
-/

namespace DisastrOS

open Lib State

/-- Process `p` has not been reaped and has the descriptor `d`. -/
def State.Holds (s : State) (p : PcbRef) (d : Descriptor) : Prop :=
  s.Alloc p ∧ d ∈ (s.pcbs p).descriptors

/-- The pointers to descriptors of `r`. -/
def State.ptrs (s : State) (r : ResourceRef) : List DescriptorPtr := (s.resource r).descriptorsPtrs

structure Held (s : State) : Prop where
  pool : s.descriptorPool.Ok
  ptrPool : s.descriptorPtrPool.Ok
  generic : ∀ {r}, r ∈ s.resourcesList → ∃ i, r = .generic i
  listed : ∀ {p d}, s.Holds p d → d.resource ∈ s.resourcesList
  owner : ∀ {p d}, s.Holds p d → d.pcb = p
  used : ∀ {p d}, s.Holds p d → s.descriptorPool.Used d.block
  linked : ∀ {p d}, s.Holds p d → ⟨d.ptr, d.block⟩ ∈ s.ptrs d.resource
  only : ∀ {p p' d d'}, s.Holds p d → s.Holds p' d' → d.block = d'.block → p = p'
  nodup : ∀ {p}, s.Alloc p → ((s.pcbs p).descriptors.map (·.block)).Nodup
  ptrUsed : ∀ {r dp}, dp ∈ s.ptrs r → s.descriptorPtrPool.Used dp.block
  ptrOnly : ∀ {r r' dp dp'}, dp ∈ s.ptrs r → dp' ∈ s.ptrs r' → dp.block = dp'.block → r = r'
  ptrNodup : ∀ r, ((s.ptrs r).map (·.block)).Nodup
  count : ∀ {r}, r ∈ s.resourcesList → (s.resource r).refCount = (s.ptrs r).length
  off : ∀ {r}, r ∉ s.resourcesList → s.ptrs r = []

/-- No descriptor dangles. A `Descriptor*` is the number of its block, which no other descriptor
has, and the calls on resources keep their assertions. -/
structure NoDangling (s : State) : Prop where
  listed : ∀ p d, s.Holds p d → d.resource ∈ s.resourcesList ∧
    ∃ i, d.resource = .generic i ∧ s.resourcePool.Used i
  linked : ∀ p d, s.Holds p d →
    ∃ dp ∈ s.ptrs d.resource, dp.block = d.ptr ∧ dp.descriptor = d.block
  only : ∀ p d r dp, s.Holds p d → dp ∈ s.ptrs r → dp.block = d.ptr →
    r = d.resource ∧ dp.descriptor = d.block
  unique : ∀ p d q d', s.Holds p d → s.Holds q d' → d.block = d'.block → p = q ∧ d = d'
  close : ∀ fd, ∃ s', step s (.syscall (.closeResource fd)) = .ok s'
  destroy : ∀ id, ∃ s', step s (.syscall (.destroyResource id)) = .ok s'
  exit : ∀ v, step s (.syscall (.exit v)) ≠ .error .assertion

section
variable {s s' s₁ s₂ : State} {p q : PcbRef} {r r' : ResourceRef} {d d' : Descriptor}
  {ds : List Descriptor} {dp : DescriptorPtr} {fd : Int} {b c i : Nat} {pool ptrPool : Pool}
  {e : Event} {es : List Event}

/-! ## Reading the links after an update -/

theorem resource_granted : (granted s p r fd b c pool ptrPool).resource r' = if r' = r then
    { s.resource r' with
      descriptorsPtrs := (s.resource r').descriptorsPtrs ++ [⟨c, b⟩]
      refCount := (s.resource r').refCount + 1 }
    else s.resource r' := by
  unfold granted linkDescriptor
  rw [resource_updResource]
  have h : ∀ x ds, (({ s with descriptorPool := pool, descriptorPtrPool := ptrPool } :
      State).setDescriptors p ds).resource x = s.resource x := fun x ds => by
    cases x <;> rfl
  by_cases hr : r' = r <;> simp [hr, h]

theorem descriptors_granted : ((granted s p r fd b c pool ptrPool).pcbs q).descriptors =
    if q = p then (s.pcbs p).descriptors ++ [⟨b, p, r, fd, c⟩] else (s.pcbs q).descriptors := by
  unfold granted linkDescriptor
  by_cases hq : q = p <;> simp [hq]

theorem descriptors_dropped : ((dropped s p d ds).pcbs q).descriptors =
    if q = p then ds else (s.pcbs q).descriptors := by
  unfold dropped decRefCount
  by_cases hq : q = p <;> simp [hq]

theorem ptrs_dropped : (dropped s p d ds).ptrs r = if r = d.resource then
    (s.ptrs r).eraseP (·.block = d.ptr) else s.ptrs r := by
  unfold State.ptrs
  rw [resource_dropped]
  split <;> rfl

theorem ptrs_granted : (granted s p r fd b c pool ptrPool).ptrs r' =
    if r' = r then s.ptrs r' ++ [⟨c, b⟩] else s.ptrs r' := by
  unfold State.ptrs
  rw [resource_granted]
  split <;> rfl

namespace Held

/-- The descriptor of a block is unique. -/
theorem eq_of_block (h : Held s) (hd : s.Holds p d) (hd' : s.Holds q d')
    (hb : d.block = d'.block) : p = q ∧ d = d' := by
  obtain rfl := h.only hd hd' hb
  exact ⟨rfl, List.inj_on_of_nodup_map (h.nodup hd.1) hd.2 hd'.2 hb⟩

/-- So is that of a pointer. -/
theorem eq_of_ptr (h : Held s) (hd : s.Holds p d) (hd' : s.Holds q d') (hp : d.ptr = d'.ptr) :
    p = q ∧ d = d' := by
  have h1 := h.linked hd
  have h2 := h.linked hd'
  rw [← h.ptrOnly h1 h2 hp] at h2
  have h3 := List.inj_on_of_nodup_map (h.ptrNodup _) h1 h2 hp
  exact h.eq_of_block hd hd' (congrArg DescriptorPtr.descriptor h3)

/-! ## Transitions -/

theorem congr (h : Held s) (hl : s'.resourcesList = s.resourcesList)
    (hp : s'.descriptorPool = s.descriptorPool) (hpp : s'.descriptorPtrPool = s.descriptorPtrPool)
    (hr : ∀ r, s'.resource r = s.resource r) (hh : ∀ {p d}, s'.Holds p d → s.Holds p d)
    (hn : ∀ {p}, s'.Alloc p → ((s'.pcbs p).descriptors.map (·.block)).Nodup) : Held s' := by
  have hptr : ∀ r, s'.ptrs r = s.ptrs r := fun r => congrArg Resource.descriptorsPtrs (hr r)
  exact {
    pool := hp ▸ h.pool
    ptrPool := hpp ▸ h.ptrPool
    generic := fun hm => h.generic (hl ▸ hm)
    listed := fun hd => hl ▸ h.listed (hh hd)
    owner := fun hd => h.owner (hh hd)
    used := fun hd => hp ▸ h.used (hh hd)
    linked := fun hd => hptr _ ▸ h.linked (hh hd)
    only := fun hd hd' => h.only (hh hd) (hh hd')
    nodup := hn
    ptrUsed := fun hm => hpp ▸ h.ptrUsed (hptr _ ▸ hm)
    ptrOnly := fun hm hm' => h.ptrOnly (hptr _ ▸ hm) (hptr _ ▸ hm')
    ptrNodup := fun r => hptr r ▸ h.ptrNodup r
    count := fun {r} hm => by rw [hptr, hr]; exact h.count (hl ▸ hm)
    off := fun {r} hm => by rw [hptr]; exact h.off (hl ▸ hm) }

theorem untouched (h : Held s) (hu : Untouched s s') : Held s' := by
  refine h.congr hu.list hu.descriptorPool hu.descriptorPtrPool hu.resource (fun hd => ?_) fun ha => ?_
  · have hd2 := hd.2
    rw [hu.descriptors] at hd2
    exact ⟨hu.alloc _ hd.1, hd2⟩
  · rw [hu.descriptors]
    exact h.nodup (hu.alloc _ ha)

/-- A new process has no descriptors. -/
theorem newborn (h : Held s) (hok : s.pcbPool.Ok) (hg : s.pcbPool.get = some (p, pool)) :
    Held (newborn s p pool) := by
  have hall : ∀ q, (DisastrOS.newborn s p pool).Alloc q → q = p ∨ s.Alloc q := fun q ha =>
    (hok.used_get hg).1 ha
  refine h.congr rfl rfl rfl (fun r => by cases r <;> rfl) (fun {q d} hd => ?_) fun {q} ha => ?_
  · by_cases hq : q = p
    · have hd2 := hd.2
      simp [DisastrOS.newborn, hq] at hd2
    · have hd2 := hd.2
      simp only [DisastrOS.newborn, if_neg hq] at hd2
      exact ⟨(hall q hd.1).resolve_left hq, hd2⟩
  · by_cases hq : q = p
    · simp [DisastrOS.newborn, hq]
    · simp only [DisastrOS.newborn, if_neg hq]
      exact h.nodup ((hall q ha).resolve_left hq)

/-- A process gets a new descriptor for a resource on the list. -/
theorem granted (h : Held s) (ha : s.Alloc p) (hr : r ∈ s.resourcesList)
    (hg : s.descriptorPool.get = some (b, pool))
    (hg' : s.descriptorPtrPool.get = some (c, ptrPool)) :
    Held (granted s p r fd b c pool ptrPool) := by
  have hk : Keeps s (DisastrOS.granted s p r fd b c pool ptrPool) := .granted
  have hpool : (DisastrOS.granted s p r fd b c pool ptrPool).descriptorPool = pool := by
    simp [DisastrOS.granted, linkDescriptor]
  have hptrPool : (DisastrOS.granted s p r fd b c pool ptrPool).descriptorPtrPool = ptrPool := by
    simp [DisastrOS.granted, linkDescriptor]
  have hold : ∀ {q d}, (DisastrOS.granted s p r fd b c pool ptrPool).Holds q d →
      s.Holds q d ∨ q = p ∧ d = ⟨b, p, r, fd, c⟩ := by
    intro q d hd
    obtain ⟨hq, hd⟩ := hd
    have hq : s.Alloc q := (Still.granted (p := p)).alloc.1 hq
    rw [descriptors_granted] at hd
    split at hd
    · rename_i hqp
      rw [List.mem_append, List.mem_singleton] at hd
      exact hd.imp (fun hd => ⟨hq, hqp ▸ hd⟩) fun hd => ⟨hqp, hd⟩
    · exact .inl ⟨hq, hd⟩
  have hptr : ∀ {x dp}, dp ∈ (DisastrOS.granted s p r fd b c pool ptrPool).ptrs x ↔
      dp ∈ s.ptrs x ∨ x = r ∧ dp = ⟨c, b⟩ := by
    intro x dp
    rw [ptrs_granted]
    split
    · rename_i hx
      simp [hx]
    · rename_i hx
      simp [hx]
  have hb : ∀ {q d}, s.Holds q d → d.block ≠ b := fun hd e =>
    Pool.not_used_get hg (e ▸ h.used hd)
  have hc : ∀ {x dp}, dp ∈ s.ptrs x → dp.block ≠ c := fun hm e =>
    Pool.not_used_get hg' (e ▸ h.ptrUsed hm)
  refine ⟨?_, ?_, fun hm => ?_, fun hd => ?_, fun hd => ?_, fun hd => ?_, fun hd => ?_,
    fun hd hd' he => ?_, fun {q} hq => ?_, fun hm => ?_, fun hm hm' he => ?_, fun x => ?_,
    fun {x} hm => ?_, fun {x} hm => ?_⟩
  · rw [hpool]
    exact h.pool.get hg
  · rw [hptrPool]
    exact h.ptrPool.get hg'
  · rw [hk.list] at hm
    exact h.generic hm
  · rw [hk.list]
    rcases hold hd with hd | ⟨-, rfl⟩
    exacts [h.listed hd, hr]
  · rcases hold hd with hd | ⟨rfl, rfl⟩
    exacts [h.owner hd, rfl]
  · rw [hpool]
    rcases hold hd with hd | ⟨-, rfl⟩
    exacts [(h.pool.used_get hg).2 (.inr (h.used hd)), (h.pool.used_get hg).2 (.inl rfl)]
  · rcases hold hd with hd | ⟨-, rfl⟩
    exacts [hptr.2 (.inl (h.linked hd)), hptr.2 (.inr ⟨rfl, rfl⟩)]
  · rcases hold hd with h1 | ⟨h1, h3⟩
    · rcases hold hd' with h2 | ⟨-, rfl⟩
      exacts [h.only h1 h2 he, absurd he (hb h1)]
    · rcases hold hd' with h2 | ⟨h2, -⟩
      · subst h3
        exact absurd he.symm (hb h2)
      · exact h1.trans h2.symm
  · have hq : s.Alloc q := (Still.granted (p := p)).alloc.1 hq
    rw [descriptors_granted]
    split
    · rw [List.map_append]
      refine nodup_snoc (fun hm => ?_) (h.nodup ha)
      obtain ⟨d, hd, he⟩ := List.mem_map.1 hm
      exact hb ⟨ha, hd⟩ he
    · exact h.nodup hq
  · rw [hptrPool]
    rcases hptr.1 hm with hm | ⟨-, rfl⟩
    exacts [(h.ptrPool.used_get hg').2 (.inr (h.ptrUsed hm)), (h.ptrPool.used_get hg').2 (.inl rfl)]
  · rcases hptr.1 hm with h1 | ⟨h1, h3⟩
    · rcases hptr.1 hm' with h2 | ⟨-, rfl⟩
      exacts [h.ptrOnly h1 h2 he, absurd he (hc h1)]
    · rcases hptr.1 hm' with h2 | ⟨h2, -⟩
      · subst h3
        exact absurd he.symm (hc h2)
      · exact h1.trans h2.symm
  · rw [ptrs_granted]
    split
    · rw [List.map_append]
      refine nodup_snoc (fun hm => ?_) (h.ptrNodup x)
      obtain ⟨dp, hdp, he⟩ := List.mem_map.1 hm
      exact hc hdp he
    · exact h.ptrNodup x
  · rw [hk.list] at hm
    have := h.count hm
    rw [ptrs_granted, resource_granted]
    split
    · rw [List.length_append, List.length_singleton]
      show (s.resource x).refCount + 1 = _
      omega
    · exact this
  · rw [hk.list] at hm
    rw [ptrs_granted, if_neg fun e => hm (by rw [e]; exact hr)]
    exact h.off hm

/-- A process gives up a descriptor. -/
theorem dropped (h : Held s) (ha : s.Alloc p) (hp : (s.pcbs p).descriptors.Perm (d :: ds)) :
    Held (dropped s p d ds) := by
  have hd0 : s.Holds p d := ⟨ha, hp.mem_iff.2 List.mem_cons_self⟩
  have hk : Keeps s (DisastrOS.dropped s p d ds) := .dropped
  have hnd := (hp.map (·.block)).nodup_iff.1 (h.nodup ha)
  rw [List.map_cons, List.nodup_cons] at hnd
  have hold : ∀ {q d'}, (DisastrOS.dropped s p d ds).Holds q d' → s.Holds q d' ∧
      d'.block ≠ d.block := by
    intro q d' hd
    obtain ⟨hq, hd⟩ := hd
    have hq : s.Alloc q := (Still.dropped (p := p)).alloc.1 hq
    rw [descriptors_dropped] at hd
    split at hd
    · rename_i hqp
      refine ⟨⟨hq, ?_⟩, fun e => hnd.1 (e ▸ List.mem_map_of_mem hd)⟩
      rw [hqp, hp.mem_iff]
      exact List.mem_cons_of_mem _ hd
    · rename_i hqp
      exact ⟨⟨hq, hd⟩, fun e => hqp (h.only ⟨hq, hd⟩ hd0 e)⟩
  have hptr : ∀ {x dp}, dp ∈ (DisastrOS.dropped s p d ds).ptrs x ↔
      dp ∈ s.ptrs x ∧ dp.block ≠ d.ptr := by
    intro x dp
    rw [ptrs_dropped]
    split
    · exact mem_eraseP_key (h.ptrNodup x)
    · rename_i hx
      refine ⟨fun hm => ⟨hm, fun e => hx ?_⟩, fun hm => hm.1⟩
      exact h.ptrOnly hm (h.linked hd0) e
  refine ⟨h.pool.release _, h.ptrPool.release _, fun hm => ?_, fun hd => ?_, fun hd => ?_,
    fun hd => ?_, fun hd => ?_, fun hd hd' he => ?_, fun {q} hq => ?_, fun hm => ?_,
    fun hm hm' he => ?_, fun x => ?_, fun {x} hm => ?_, fun {x} hm => ?_⟩
  · rw [hk.list] at hm
    exact h.generic hm
  · rw [hk.list]
    exact h.listed (hold hd).1
  · exact h.owner (hold hd).1
  · exact (Pool.used_release (h.used hd0)).2 ⟨(hold hd).2, h.used (hold hd).1⟩
  · refine hptr.2 ⟨h.linked (hold hd).1, fun e => (hold hd).2 ?_⟩
    rw [(h.eq_of_ptr (hold hd).1 hd0 e).2]
  · exact h.only (hold hd).1 (hold hd').1 he
  · have hq : s.Alloc q := (Still.dropped (p := p)).alloc.1 hq
    rw [descriptors_dropped]
    split
    exacts [hnd.2, h.nodup hq]
  · exact (Pool.used_release (h.ptrUsed (h.linked hd0))).2 ⟨(hptr.1 hm).2, h.ptrUsed (hptr.1 hm).1⟩
  · exact h.ptrOnly (hptr.1 hm).1 (hptr.1 hm').1 he
  · rw [ptrs_dropped]
    split
    · exact (h.ptrNodup x).sublist (List.eraseP_sublist.map _)
    · exact h.ptrNodup x
  · rw [hk.list] at hm
    have h1 := h.count hm
    rw [ptrs_dropped, resource_dropped]
    split
    · rename_i hx
      subst hx
      have h2 := List.length_pos_of_mem (h.linked hd0)
      have h3 : ((s.ptrs d.resource).eraseP (·.block = d.ptr)).length =
          (s.ptrs d.resource).length - 1 :=
        List.length_eraseP_of_mem (h.linked hd0) (by simp)
      show (s.resource d.resource).refCount - 1 = _
      omega
    · exact h1
  · rw [hk.list] at hm
    rw [ptrs_dropped, if_neg fun e => hm (by rw [e]; exact h.listed hd0)]
    exact h.off hm

/-- A new resource has no descriptors. -/
theorem created {id type : Int} (h : Held s) (hl : Listed s)
    (hg : s.resourcePool.get = some (i, pool)) : Held (resourceCreated s i pool id type) := by
  have hnew := (hl.create id type hg).2
  have hptr : ∀ r, (resourceCreated s i pool id type).ptrs r = s.ptrs r := by
    intro r
    unfold State.ptrs
    rw [resource_resourceCreated]
    split
    · rename_i hr
      exact (hr ▸ h.off hnew : s.ptrs r = []).symm
    · rfl
  have hmem : ∀ {r}, r ∈ (resourceCreated s i pool id type).resourcesList ↔
      r ∈ s.resourcesList ∨ r = .generic i := by
    intro r
    show r ∈ s.resourcesList ++ [ResourceRef.generic i] ↔ _
    rw [List.mem_append, List.mem_singleton]
  refine ⟨h.pool, h.ptrPool, fun hm => ?_, fun hd => hmem.2 (.inl (h.listed hd)), h.owner, h.used,
    fun hd => ?_, h.only, h.nodup, fun hm => ?_, fun hm hm' => ?_, fun r => ?_, fun {r} hm => ?_,
    fun {r} hm => ?_⟩
  · rcases hmem.1 hm with hm | rfl
    exacts [h.generic hm, ⟨i, rfl⟩]
  · rw [hptr]
    exact h.linked hd
  · rw [hptr] at hm
    exact h.ptrUsed hm
  · rw [hptr] at hm hm'
    exact h.ptrOnly hm hm'
  · rw [hptr]
    exact h.ptrNodup r
  · rw [hptr, resource_resourceCreated]
    split
    · rename_i hr
      rw [hr, h.off hnew]
      rfl
    · rename_i hr
      exact h.count ((hmem.1 hm).resolve_right hr)
  · rw [hptr]
    exact h.off fun hm' => hm (hmem.2 (.inl hm'))

/-- A resource without descriptors is removed. -/
theorem removed (h : Held s) (hl : s.resourcesList.Nodup) (h₁ : detachResource s r = .ok s₁)
    (h₂ : resourceFree s₁ r = .ok s₂) : Held s₂ := by
  obtain ⟨hlist, -, hr⟩ := detachResource_resource h₁ h₂
  obtain ⟨hpcbs, hpool, hptrPool⟩ := detachResource_pcbs h₁ h₂
  have hnil : s.ptrs r = [] := by
    obtain ⟨-, rfl⟩ := detachResource_cases h₁
    have h3 := (resourceFree_cases h₂).1
    cases r <;> exact h3
  have hst := (Still.detachResource h₁).trans (.resourceFree h₂)
  have hold : ∀ {p d}, s₂.Holds p d → s.Holds p d := by
    intro p d hd
    unfold State.Holds at hd ⊢
    rwa [hpcbs, hst.alloc] at hd
  have hmem : ∀ {x}, x ∈ s₂.resourcesList ↔ x ≠ r ∧ x ∈ s.resourcesList := by
    intro x
    rw [hlist, hl.mem_erase_iff]
  have hptr : ∀ x, s₂.ptrs x = s.ptrs x := fun x => congrArg Resource.descriptorsPtrs (hr x)
  exact {
    pool := hpool ▸ h.pool
    ptrPool := hptrPool ▸ h.ptrPool
    generic := fun hm => h.generic (hmem.1 hm).2
    listed := fun {p d} hd => by
      refine hmem.2 ⟨fun e => ?_, h.listed (hold hd)⟩
      have h3 := h.linked (hold hd)
      rw [e, hnil] at h3
      cases h3
    owner := fun hd => h.owner (hold hd)
    used := fun hd => hpool ▸ h.used (hold hd)
    linked := fun hd => hptr _ ▸ h.linked (hold hd)
    only := fun hd hd' => h.only (hold hd) (hold hd')
    nodup := fun hp => by rw [hpcbs]; exact h.nodup (hst.alloc.1 hp)
    ptrUsed := fun hm => hptrPool ▸ h.ptrUsed (hptr _ ▸ hm)
    ptrOnly := fun hm hm' => h.ptrOnly (hptr _ ▸ hm) (hptr _ ▸ hm')
    ptrNodup := fun x => hptr x ▸ h.ptrNodup x
    count := fun {x} hm => by rw [hptr, hr]; exact h.count (hmem.1 hm).2
    off := fun {x} hm => by
      rw [hptr]
      by_cases hx : x = r
      · rw [hx, hnil]
      · exact h.off fun hm' => hm (hmem.2 ⟨hx, hm'⟩) }

theorem points (h : Held s) (hd : s.Holds p d) : Points s d :=
  List.any_eq_true.2 ⟨_, h.linked hd, by simp⟩

/-- A resource on the list whose count is not positive can be removed. -/
theorem removable (h : Held s) (hr : r ∈ s.resourcesList) (hc : (s.resource r).refCount ≤ 0) :
    ∃ s₁ s₂, detachResource s r = .ok s₁ ∧ resourceFree s₁ r = .ok s₂ := by
  have hnil : s.ptrs r = [] := by
    have := h.count hr
    exact List.length_eq_zero_iff.1 (by omega)
  obtain ⟨i, rfl⟩ := h.generic hr
  exact ⟨_, { s with
    resourcesList := s.resourcesList.erase (.generic i)
    resourcePool := s.resourcePool.release i }, if_pos hr, if_neg fun hne => hne hnil⟩

/-- **The loop that releases the descriptors** of a process runs to its end. -/
theorem release : ∀ {ds : List Descriptor} {s : State}, Held s → Listed s → s.Alloc p →
    (s.pcbs p).descriptors = ds → ∃ s', releaseDescriptors p ds s = .ok s' ∧ Held s'
  | [], s, h, _, _, _ => ⟨s, rfl, h⟩
  | d :: ds, s, h, hl, ha, hds => by
    have hd : s.Holds p d := ⟨ha, by rw [hds]; exact List.mem_cons_self⟩
    have h1 := h.dropped ha (by rw [hds])
    have hk : Keeps s (DisastrOS.dropped s p d ds) := .dropped
    have hl1 := hl.keeps hk
    have ht : Still s (DisastrOS.dropped s p d ds) := .dropped
    have ha1 := ht.alloc.2 ha
    have hds1 : ((DisastrOS.dropped s p d ds).pcbs p).descriptors = ds := by
      rw [descriptors_dropped, if_pos rfl]
    rw [releaseDescriptors_cons (h.points hd)]
    split
    · rename_i hc
      have hr : d.resource ∈ (DisastrOS.dropped s p d ds).resourcesList := by
        rw [Keeps.dropped.list]
        exact h.listed hd
      obtain ⟨s₁, s₂, h₁, h₂⟩ := h1.removable hr (by omega)
      have hst := (Still.detachResource h₁).trans (.resourceFree h₂)
      have hds2 : (s₂.pcbs p).descriptors = ds := by
        rw [(detachResource_pcbs h₁ h₂).1]
        exact hds1
      rw [h₁, ok_bind, h₂, ok_bind]
      exact release (h1.removed hl1.nodup h₁ h₂) (hl1.remove h₁ h₂).1 (hst.alloc.2 ha1) hds2
    · exact release h1 hl1 ha1 hds1

/-- The loop over the parent's descriptors. -/
theorem forkDescriptors : ∀ {ds : List Descriptor} {s : State}, Held s → s.Alloc p →
    (∀ d ∈ ds, d.resource ∈ s.resourcesList) → forkDescriptors p ds s = .ok s' → Held s'
  | [], _, h, _, _, hf => by
    cases hf
    exact h
  | d :: ds, s, h, ha, hr, hf => by
    obtain ⟨b, c, pool, ptrPool, hg, hg', hf⟩ := forkDescriptors_cases hf
    refine forkDescriptors (h.granted ha (hr d List.mem_cons_self) hg hg') ?_ ?_ hf
    · exact Still.granted.alloc.2 ha
    · intro d' hd'
      rw [Keeps.granted.list]
      exact hr d' (List.mem_cons_of_mem _ hd')

theorem opens (h : Held s) (ha : s.Alloc s.running) (hr : r ∈ s.resourcesList)
    (ho : Opens s r s') : Held s' := by
  rcases ho with hq | ⟨b, pool, hg, hq⟩ | ⟨b, c, pool, ptrPool, hg, hg', hq⟩
  · exact h.untouched (.quiet hq)
  · rw [h.pool.release_get hg] at hq
    exact h.untouched (.quiet hq)
  · have h1 : Held (DisastrOS.granted s s.running r (s.pcbs s.running).lastFd b c pool ptrPool) :=
      h.granted ha hr hg hg'
    refine Held.untouched (s := opened s r b c pool ptrPool) ?_ (.quiet hq)
    refine h1.congr rfl rfl rfl (fun x => by cases x <;> rfl) (fun {q d} hd => ?_) fun {q} hq => ?_
    · refine ⟨hd.1, ?_⟩
      have hd2 := hd.2
      by_cases hq : q = s.running <;> simpa [opened, hq] using hd2
    · have hn := h1.nodup hq
      by_cases hq : q = s.running <;> simpa [opened, hq] using hn

end Held

/-! ## Calls -/

theorem spawn_held (h : Held s) (hok : s.pcbPool.Ok) (hs : internalSpawn s = .ok s') : Held s' := by
  rcases spawn_untouched hs with ⟨hu, -⟩ | ⟨p, pool, hg, hu, -⟩
  · exact h.untouched hu
  · exact (h.newborn hok hg).untouched hu

theorem fork_held (h : Held s) (hok : s.pcbPool.Ok) (ha : s.Alloc s.running)
    (hs : internalFork s = .ok s') : Held s' := by
  rcases fork_untouched hs with ⟨-, hu, -⟩ | ⟨p, pool, s₁, s₂, hg, hu₁, hp, hd, hu₂, -⟩
  · exact h.untouched hu
  · have h1 := (h.newborn hok hg).untouched hu₁
    have ha1 : ∀ q, q = p ∨ s.Alloc q → s₁.Alloc q := fun q hq => by
      unfold State.Alloc
      rw [hp]
      exact (hok.used_get hg).2 hq
    refine (h1.forkDescriptors (ha1 p (.inl rfl)) (fun d hd => ?_) hd).untouched hu₂
    exact h1.listed ⟨ha1 _ (.inr ha), hd⟩

theorem open_held (h : Held s) (hl : Listed s) (ha : s.Alloc s.running)
    (hs : internalOpenResource s = .ok s') : Held s' := by
  rcases open_cases hs with ⟨-, hq | ⟨r, hr, ho⟩⟩ | ⟨-, i, pool, hg, hq | ho⟩
  · exact h.untouched (.quiet hq)
  · exact h.opens ha (Listed.mem_of_byId hr).1 ho
  · exact (h.created hl hg).untouched (.quiet hq)
  · refine (h.created hl hg).opens (Still.resourceCreated.alloc.2 ha) ?_ ho
    exact List.mem_append_right _ (List.mem_singleton_self _)

theorem close_held (h : Held s) (ha : s.Alloc s.running) (hs : internalCloseResource s = .ok s') :
    Held s' := by
  rcases close_cases hs with ⟨-, hq⟩ | ⟨d, hd, -, hq⟩
  · exact h.untouched (.quiet hq)
  · have hm : d ∈ (s.pcbs s.running).descriptors := List.mem_of_find?_eq_some hd
    exact (h.dropped ha (List.perm_cons_erase hm)).untouched (.quiet hq)

theorem destroy_held (h : Held s) (hl : Listed s) (hs : internalDestroyResource s = .ok s') :
    Held s' := by
  rcases destroy_cases hs with ⟨-, hq⟩ | ⟨r, s₁, s₂, -, h₁, h₂, hq⟩
  · exact h.untouched (.quiet hq)
  · exact (h.removed hl.nodup h₁ h₂).untouched (.quiet hq)

theorem exit_held (h : Held s) (hl : Listed s) (ha : s.Alloc s.running)
    (hn : (s.pcbs s.running).syscallNum ≠ dsosCallWait) (hs : internalExit s = .ok s') :
    Held s' := by
  obtain ⟨parent, -, ⟨-, hu, -⟩ | ⟨-, s₁, s₂, hu₁, hp, hrel, hu₂, -⟩⟩ := exit_untouched hs hn
  · exact h.untouched hu
  · have ha1 : s₁.Alloc s.running := by
      unfold State.Alloc
      rw [hp]
      exact ha
    obtain ⟨s₃, hrel', h3⟩ := (h.untouched hu₁).release (hl.keeps hu₁.keeps) ha1
      (hu₁.descriptors s.running)
    obtain rfl : s₃ = s₂ := by
      rw [hrel'] at hrel
      exact Except.ok.inj hrel
    exact h3.untouched hu₂

/-! ## Assertions -/

theorem close_succeeds (h : Held s) (ha : s.Alloc s.running) :
    ∃ s', internalCloseResource s = .ok s' := by
  unfold internalCloseResource
  dsimp only
  split
  · exact ⟨_, rfl⟩
  rename_i d hd
  have hd : s.Holds s.running d := ⟨ha, List.mem_of_find?_eq_some hd⟩
  have hp : detachDescriptorPtr (s.setDescriptors s.running
      ((s.pcbs s.running).descriptors.erase d)) d = .ok ((s.setDescriptors s.running
        ((s.pcbs s.running).descriptors.erase d)).updResource d.resource fun res =>
          { res with descriptorsPtrs := res.descriptorsPtrs.eraseP (·.block = d.ptr) }) := by
    have := h.points hd
    unfold Points at this
    unfold detachDescriptorPtr
    rw [resource_setDescriptors, if_pos this]
  rw [hp, ok_bind]
  have hcount : 0 < (s.resource d.resource).refCount := by
    have h1 := h.count (h.listed hd)
    have h2 := List.length_pos_of_mem (h.linked hd)
    omega
  have hres : ((descriptorPtrFree (descriptorFree ((s.setDescriptors s.running
      ((s.pcbs s.running).descriptors.erase d)).updResource d.resource fun res =>
        { res with descriptorsPtrs := res.descriptorsPtrs.eraseP (·.block = d.ptr) }) d) d.ptr).resource
      d.resource).refCount = (s.resource d.resource).refCount := by
    have h1 : ∀ t : State, (descriptorPtrFree (descriptorFree t d) d.ptr).resource d.resource =
        t.resource d.resource := fun t => by cases d.resource <;> rfl
    rw [h1, resource_updResource, if_pos rfl, resource_setDescriptors]
  rw [if_neg (by rw [hres]; omega)]
  exact ⟨_, rfl⟩

theorem destroy_succeeds (h : Held s) : ∃ s', internalDestroyResource s = .ok s' := by
  unfold internalDestroyResource
  dsimp only
  split
  · exact ⟨_, rfl⟩
  rename_i r hr
  split
  · exact ⟨_, rfl⟩
  rename_i hc
  obtain ⟨s₁, s₂, h₁, h₂⟩ := h.removable (Listed.mem_of_byId hr).1 (Int.not_lt.1 hc)
  rw [h₁, ok_bind, h₂, ok_bind]
  exact ⟨_, rfl⟩

theorem listInsert_ne_assertion {L : PcbList} {ps : List PcbRef} :
    s.listInsert L p ps ≠ .error .assertion := by
  unfold State.listInsert
  split
  · simp
  · split <;> simp

theorem listDetach_ne_assertion {L : PcbList} : s.listDetach L p ≠ .error .assertion := by
  unfold State.listDetach
  split <;> simp

theorem reparentChildren_ne_assertion : ∀ {n : Nat} {s : State},
    reparentChildren n s ≠ .error .assertion
  | 0, _ => by simp [reparentChildren]
  | n + 1, s => by
    rw [reparentChildren]
    split
    · simp
    · exact reparentChildren_ne_assertion

theorem exitToParent_ne_assertion {parent : PcbRef} (h : Held s) (hl : Listed s) (ha : s.Alloc p) :
    exitToParent s p parent ≠ .error .assertion := by
  have key : ∀ t, Untouched s t → t.pcbPool = s.pcbPool →
      releaseDescriptors p (t.pcbs p).descriptors t ≠ .error .assertion := by
    intro t hu hp hx
    have ha' : t.Alloc p := by
      unfold State.Alloc
      rw [hp]
      exact ha
    obtain ⟨t', ht, -⟩ := (h.untouched hu).release (hl.keeps hu.keeps) ha' rfl
    rw [ht] at hx
    cases hx
  intro hx
  unfold exitToParent at hx
  rcases bind_eq_error.1 hx with hx | ⟨s₁, h₁, hx⟩
  · exact listDetach_ne_assertion hx
  dsimp only at hx
  split at hx
  · cases hx
  rcases bind_eq_error.1 hx with hx | ⟨s₂, -, hx⟩
  · have hq := fun cs pid addr v => (Quiet.setChildren (s₁.setStatus parent .running) parent cs).trans
      ((Quiet.setRetvalue _ parent pid).trans (.storeResult _ addr v))
    refine key _ ?_ ?_ hx
    · exact (Untouched.listDetach h₁).trans ((Untouched.setStatus _ _ _).trans
        ((Untouched.quiet (hq _ _ _ _)).trans
          (.same rfl rfl rfl rfl rfl rfl rfl (fun _ => ⟨rfl, rfl⟩) fun _ => id)))
    · have h2 := listDetach_pcbPool h₁
      exact (hq _ _ _ _).pcbPool.trans h2
  rcases bind_eq_error.1 hx with hx | ⟨s₃, -, hx⟩
  · exact listDetach_ne_assertion hx
  · cases hx

theorem exit_ne_assertion (h : Held s) (hl : Listed s) (ha : s.Alloc s.running) :
    internalExit s ≠ .error .assertion := by
  intro hx
  unfold internalExit at hx
  dsimp only at hx
  rcases bind_eq_error.1 hx with hx | ⟨s₁, h₁, hx⟩
  · exact reparentChildren_ne_assertion hx
  rcases bind_eq_error.1 hx with hx | ⟨s₂, h₂, hx⟩
  · exact listInsert_ne_assertion hx
  split at hx
  · cases hx
  rename_i parent _
  have hv : Quiet s (s.updPcb s.running fun pcb => { pcb with returnValue := pcb.syscallArgs 0 }) :=
    .updPcb fun _ => rfl
  have hq := hv.trans (.reparentChildren _ h₁)
  have hu : Untouched s (s₂.signal parent dsosSigchld) := (Untouched.quiet hq).trans
    ((Untouched.setStatus _ _ _).trans ((Untouched.listInsert h₂ (Untouched.notQueue
      (by simp))).trans (.quiet (.signal _ _ _))))
  have hp : (s₂.signal parent dsosSigchld).pcbPool = s.pcbPool :=
    (listInsert_pcbPool h₂).trans hq.pcbPool
  split at hx
  · refine exitToParent_ne_assertion (h.untouched hu) (hl.keeps hu.keeps) ?_ hx
    unfold State.Alloc
    rw [hp]
    exact ha
  · rcases bind_eq_error.1 hx with hx | ⟨s₃, -, hx⟩
    · unfold State.listDetachFirst at hx
      split at hx <;> cases hx
    · cases hx

/-! ## Steps and runs -/

/-- The event is not a call on queues. -/
def Event.OffQueues : Event → Prop
  | .syscall (.mqCreate ..) | .syscall (.mqSend ..) | .syscall (.mqReceive ..)
  | .syscall (.mqDestroy _) => False
  | _ => True

instance : DecidablePred Event.OffQueues
  | .syscall (.mqCreate ..) | .syscall (.mqSend ..) | .syscall (.mqReceive ..)
  | .syscall (.mqDestroy _) => isFalse id
  | .syscall .preempt | .syscall .fork | .syscall (.wait ..) | .syscall (.exit _)
  | .syscall (.spawn ..) | .syscall (.sleep _) | .syscall (.openResource ..)
  | .syscall (.closeResource _) | .syscall (.destroyResource _) | .syscall .shutdown | .tick
  | .store .. => isTrue trivial

/-- **Any step** off the queues keeps the descriptors linked. -/
theorem step_held (h : Sane s) (hh : Held s) (he : e.OffQueues) (hs : step s e = .ok s') :
    Held s' := by
  by_cases ht : e.Touches
  · obtain ⟨c, rfl⟩ := ht.syscall
    have h0 := h.saveCall c
    have hh := hh.untouched (.saveCall s c)
    cases c with
    | fork => exact fork_held hh h0.table.pool h0.alloc ((step_syscall rfl).symm.trans hs)
    | spawn _ _ => exact spawn_held hh h0.table.pool ((step_syscall rfl).symm.trans hs)
    | openResource _ _ _ =>
      exact open_held hh h0.listed h0.alloc ((step_syscall rfl).symm.trans hs)
    | closeResource _ => exact close_held hh h0.alloc ((step_syscall rfl).symm.trans hs)
    | destroyResource _ => exact destroy_held hh h0.listed ((step_syscall rfl).symm.trans hs)
    | exit v =>
      exact exit_held hh h0.listed h0.alloc (exit_num s v) ((step_syscall rfl).symm.trans hs)
    | mqCreate _ _ => exact he.elim
    | mqDestroy _ => exact he.elim
    | _ => exact absurd ht id
  · exact hh.untouched (step_untouched h ht hs)

theorem boot_held : Held boot := by
  obtain ⟨pool, -, he⟩ := boot_eq
  have hl : boot.resourcesList = [] := by rw [he]; rfl
  have hptr : ∀ r, boot.ptrs r = [] := fun r => by rw [he]; cases r <;> rfl
  have hds : ∀ p, (boot.pcbs p).descriptors = [] := fun p => by
    rw [he]
    by_cases hp : p = 0 <;> simp [booted, initProcess, hp]
  have hnone : ∀ {p d}, ¬ boot.Holds p d := fun {p d} hd => by
    have hd2 := hd.2
    rw [hds] at hd2
    cases hd2
  have hno : ∀ {r dp}, dp ∉ boot.ptrs r := fun {r dp} hm => by
    rw [hptr] at hm
    cases hm
  exact {
    pool := by rw [he]; exact Pool.ok_init _
    ptrPool := by rw [he]; exact Pool.ok_init _
    generic := fun hm => by rw [hl] at hm; cases hm
    listed := fun hd => absurd hd hnone
    owner := fun hd => absurd hd hnone
    used := fun hd => absurd hd hnone
    linked := fun hd => absurd hd hnone
    only := fun hd => absurd hd hnone
    nodup := fun _ => by rw [hds]; exact .nil
    ptrUsed := fun hm => absurd hm hno
    ptrOnly := fun hm => absurd hm hno
    ptrNodup := fun r => by rw [hptr]; exact .nil
    count := fun hm => by rw [hl] at hm; cases hm
    off := fun _ => hptr _ }

/-- **After any run** off the queues the descriptors are linked. -/
theorem run_held (he : ∀ e ∈ es, e.OffQueues) (hr : run step boot es = .ok s) :
    Sane s ∧ Held s :=
  run_inv' (I := fun s => Sane s ∧ Held s) (A := Event.OffQueues)
    (fun _ _ _ h he hs => ⟨(step_steps h.1 hs).sane, step_held h.1 h.2 he hs⟩)
    ⟨boot_sane, boot_held⟩ he hr

theorem Held.dangles_nowhere (h : Held s) (hs : Sane s) : NoDangling s where
  listed p d hd := by
    obtain ⟨i, hi⟩ := h.generic (h.listed hd)
    exact ⟨h.listed hd, i, hi, hs.listed.generic (hi ▸ h.listed hd)⟩
  linked _ _ hd := ⟨_, h.linked hd, rfl, rfl⟩
  only p d r dp hd hm hb := by
    obtain rfl := h.ptrOnly hm (h.linked hd) hb
    exact ⟨rfl, congrArg DescriptorPtr.descriptor
      (List.inj_on_of_nodup_map (h.ptrNodup _) hm (h.linked hd) hb)⟩
  unique _ _ _ _ hd hd' hb := h.eq_of_block hd hd' hb
  close fd := by
    have h0 := (hs.saveCall (.closeResource fd)).alloc
    obtain ⟨s', hs'⟩ := close_succeeds (h.untouched (.saveCall s (.closeResource fd))) h0
    exact ⟨s', (step_syscall rfl).trans hs'⟩
  destroy n := by
    obtain ⟨s', hs'⟩ := destroy_succeeds (h.untouched (.saveCall s (.destroyResource n)))
    exact ⟨s', (step_syscall rfl).trans hs'⟩
  exit v hx := by
    have h0 := hs.saveCall (.exit v)
    exact exit_ne_assertion (h.untouched (.saveCall s (.exit v))) h0.listed h0.alloc
      ((step_syscall rfl).symm.trans hx)

/-- **No descriptor dangles** after any calls but those on queues. -/
theorem noDangling (he : ∀ e ∈ es, e.OffQueues) (hr : run step boot es = .ok s) : NoDangling s :=
  (run_held he hr).2.dangles_nowhere (run_held he hr).1

/-- A child with a descriptor exits to its parent, which then forks with its own. -/
def sharingRun : List Event :=
  [.syscall (.openResource 5 resourceGeneric 1), .syscall (.spawn 0 0), .syscall (.wait 0 0),
    .syscall (.openResource 5 resourceGeneric 0), .syscall (.exit 0), .syscall .fork]

theorem noDangling_sharingRun : ∃ s, run step boot sharingRun = .ok s ∧ NoDangling s := by
  have hc : (run step boot sharingRun).toOption.any (fun _ => true) = true := by decide +kernel
  obtain ⟨s, hr, -⟩ := run_check hc
  exact ⟨s, hr, noDangling (by decide) hr⟩

end

end DisastrOS
