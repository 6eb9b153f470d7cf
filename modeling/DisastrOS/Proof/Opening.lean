import DisastrOS.Proof.Fds

/-!
# What a failed `openResource` leaves behind

The call links a new resource before it takes the blocks of the descriptor: when there is none left,
the resource stays behind with its block. Every other error leaves the resources, the descriptors
and the pools as they were (`allOrNothing_iff`).
-/

namespace DisastrOS

open Lib State

/-- The errors of `openResource`. -/
def openErrors : List Int :=
  [dsosEResourceCreate, dsosEResourceOpen, dsosEResourceNoExcl, dsosEResourceNoFd]

/-- The numbers of outstanding blocks, pool by pool. -/
def State.outstanding (s : State) : List Nat :=
  [s.pcbPool, s.pcbPtrPool, s.timerPool, s.resourcePool, s.descriptorPool, s.descriptorPtrPool,
    s.messagePool, s.queuePool].map Pool.outstanding

/-- Resources, descriptors and pools are as they were. -/
structure Unchanged (s s' : State) : Prop where
  list : s'.resourcesList = s.resourcesList
  count : ∀ r, (s'.resource r).refCount = (s.resource r).refCount
  ptrs : ∀ r, s'.ptrs r = s.ptrs r
  descriptors : ∀ p, (s'.pcbs p).descriptors = (s.pcbs p).descriptors
  lastFd : ∀ p, (s'.pcbs p).lastFd = (s.pcbs p).lastFd
  outstanding : s'.outstanding = s.outstanding

/-- `openResource` returns, and if it returns an error it has changed nothing. -/
def AllOrNothing (s : State) (id type mode : Int) : Prop :=
  ∃ s', step s (.syscall (.openResource id type mode)) = .ok s' ∧
    ((s'.pcbs s.running).syscallRetvalue ∈ openErrors → Unchanged s s')

/-- No descriptor can be had. -/
def State.NoFd (s : State) : Prop := s.descriptorPool.free = [] ∨ s.descriptorPtrPool.free = []

/-- `openResource` does not refuse `r`. -/
def Accepts (s : State) (r : ResourceRef) (type mode : Int) : Prop :=
  (s.resource r).type = type ∧ ¬ (hasFlag mode dsosExclBit ∧ (s.resource r).refCount > 0)

/-- The invariant: the pool of descriptors is in order, and no number is negative. -/
structure Stocked (s : State) : Prop where
  pool : s.descriptorPool.Ok
  lastFd : ∀ p, 0 ≤ (s.pcbs p).lastFd

section
variable {s s' s₁ s₂ : State} {p q : PcbRef} {r : ResourceRef} {d : Descriptor} {ds : List Descriptor}
  {fd id type mode : Int} {b c i n : Nat} {pool ptrPool : Pool} {e : Event} {es : List Event}

/-! ## The pool of descriptors throughout a run -/

theorem releaseDescriptors_pool (h : s.descriptorPool.Ok) (hr : releaseDescriptors p ds s = .ok s') :
    s'.descriptorPool.Ok := by
  induction ds generalizing s with
  | nil =>
    cases hr
    exact h
  | cons d ds ih =>
    have h1 : (dropped s p d ds).descriptorPool.Ok := h.release d.block
    obtain ⟨-, ⟨-, s₁, s₂, hd, hf, hr⟩ | ⟨-, hr⟩⟩ := releaseDescriptors_cases hr
    · rw [← (detachResource_pcbs hd hf).2.1] at h1
      exact ih h1 hr
    · exact ih h1 hr

namespace Stocked

theorem sheds (h : Stocked s) (hs : Sheds s s') (hp : s'.descriptorPool.Ok) : Stocked s' :=
  ⟨hp, fun p => by rw [hs.lastFd]; exact h.lastFd p⟩

theorem same (h : Stocked s) (hp : s'.pcbs = s.pcbs) (hd : s'.descriptorPool = s.descriptorPool) :
    Stocked s' :=
  h.sheds (.pcbs hp) (hd ▸ h.pool)

theorem untouched (h : Stocked s) (hu : Untouched s s') : Stocked s' :=
  h.sheds (.untouched hu) (hu.descriptorPool ▸ h.pool)

theorem newborn (h : Stocked s) : Stocked (newborn s p pool) := by
  refine ⟨h.pool, fun q => ?_⟩
  by_cases hq : q = p
  · simp [DisastrOS.newborn, hq]
  · simpa [DisastrOS.newborn, hq] using h.lastFd q

theorem granted (h : Stocked s) (hg : s.descriptorPool.get = some (b, pool)) :
    Stocked (granted s p r fd b c pool ptrPool) := by
  refine ⟨?_, fun q => ?_⟩
  · show ((linkDescriptor _ _ _ _).descriptorPool).Ok
    simpa [linkDescriptor] using h.pool.get hg
  · by_cases hq : q = p <;> simpa [DisastrOS.granted, linkDescriptor, hq] using h.lastFd q

theorem opened (h : Stocked s) (hg : s.descriptorPool.get = some (b, pool)) :
    Stocked (opened s r b c pool ptrPool) := by
  have h1 : Stocked (DisastrOS.granted s s.running r (s.pcbs s.running).lastFd b c pool ptrPool) :=
    h.granted hg
  refine ⟨h1.pool, fun q => ?_⟩
  have h2 := h1.lastFd q
  by_cases hq : q = s.running
  · simp only [DisastrOS.opened, updPcb_pcbs, if_pos hq]
    omega
  · simpa only [DisastrOS.opened, updPcb_pcbs, if_neg hq] using h2

theorem forkDescriptors (h : Stocked s) (hf : forkDescriptors p ds s = .ok s') : Stocked s' := by
  induction ds generalizing s with
  | nil =>
    cases hf
    exact h
  | cons d ds ih =>
    obtain ⟨b, c, pool, ptrPool, hg, -, hf⟩ := forkDescriptors_cases hf
    exact ih (h.granted hg) hf

theorem opens (h : Stocked s) (ho : Opens s r s') : Stocked s' := by
  rcases ho with hq | ⟨b, pool, hg, hq⟩ | ⟨b, c, pool, ptrPool, hg, -, hq⟩
  · exact h.untouched (.quiet hq)
  · rw [h.pool.release_get hg] at hq
    exact h.untouched (.quiet hq)
  · exact (h.opened hg).untouched (.quiet hq)

end Stocked

/-! ## Calls that give and take descriptors -/

theorem spawn_stocked (h : Stocked s) (hs : internalSpawn s = .ok s') : Stocked s' := by
  rcases spawn_untouched hs with ⟨hu, -⟩ | ⟨p, pool, -, hu, -⟩
  · exact h.untouched hu
  · exact h.newborn.untouched hu

theorem fork_stocked (h : Stocked s) (hs : internalFork s = .ok s') : Stocked s' := by
  rcases fork_untouched hs with ⟨-, hu, -⟩ | ⟨p, pool, s₁, s₂, -, hu₁, -, hd, hu₂, -⟩
  · exact h.untouched hu
  · exact ((h.newborn.untouched hu₁).forkDescriptors hd).untouched hu₂

theorem open_stocked (h : Stocked s) (hs : internalOpenResource s = .ok s') : Stocked s' := by
  have hc : ∀ i pool id type, Stocked (resourceCreated s i pool id type) := fun _ _ _ _ =>
    h.same rfl rfl
  rcases open_cases hs with ⟨-, hq | ⟨r, -, ho⟩⟩ | ⟨-, i, pool, -, hq | ho⟩
  · exact h.untouched (.quiet hq)
  · exact h.opens ho
  · exact (hc i pool _ _).untouched (.quiet hq)
  · exact (hc i pool _ _).opens ho

theorem close_stocked (h : Stocked s) (hs : internalCloseResource s = .ok s') : Stocked s' := by
  refine h.sheds (.close hs) ?_
  rcases close_cases hs with ⟨-, hq⟩ | ⟨d, -, -, hq⟩
  · exact hq.descriptorPool ▸ h.pool
  · rw [hq.descriptorPool]
    exact h.pool.release d.block

theorem destroy_stocked (h : Stocked s) (hs : internalDestroyResource s = .ok s') : Stocked s' := by
  rcases destroy_cases hs with ⟨-, hq⟩ | ⟨r, s₁, s₂, -, hd, hf, hq⟩
  · exact h.untouched (.quiet hq)
  · obtain ⟨hp, hpool, -⟩ := detachResource_pcbs hd hf
    exact (h.same hp hpool).untouched (.quiet hq)

theorem exit_stocked (h : Stocked s) (hn : (s.pcbs s.running).syscallNum ≠ dsosCallWait)
    (hs : internalExit s = .ok s') : Stocked s' := by
  refine h.sheds (.exit hn hs) ?_
  obtain ⟨parent, -, ⟨-, hu, -⟩ | ⟨-, s₁, s₂, hu₁, -, hrel, hu₂, -⟩⟩ := exit_untouched hs hn
  · exact hu.descriptorPool ▸ h.pool
  · rw [hu₂.descriptorPool]
    exact releaseDescriptors_pool (hu₁.descriptorPool ▸ h.pool) hrel

theorem mqCreate_stocked (h : Stocked s) (hs : internalMqCreate s = .ok s') : Stocked s' := by
  rcases mqCreate_cases hs with ⟨-, hq⟩ | ⟨-, q, pool, -, hq⟩
  · exact h.untouched (.quiet hq)
  · exact Stocked.untouched (s := queueCreated s q pool _ _) (h.same rfl rfl) (.quiet hq)

theorem mqDestroy_stocked (h : Stocked s) (hs : internalMqDestroy s = .ok s') : Stocked s' := by
  rcases mqDestroy_untouched hs with hu | ⟨q, s₁, s₂, s₃, -, hu₁, hd, hf, hu₂⟩
  · exact h.untouched hu
  · refine Stocked.untouched ((h.untouched hu₁).same ?_ ?_) hu₂ <;>
      obtain ⟨-, rfl⟩ := detachResource_cases hd <;>
      obtain ⟨-, -, rfl⟩ := messageQueueFree_cases hf <;> rfl

/-- **Any step** keeps the pool in order. -/
theorem step_stocked (h : Sane s) (hk : Stocked s) (hs : step s e = .ok s') : Stocked s' := by
  by_cases he : e.Touches
  · obtain ⟨c, rfl⟩ := he.syscall
    have hk := hk.untouched (.saveCall s c)
    cases c with
    | fork => exact fork_stocked hk ((step_syscall rfl).symm.trans hs)
    | spawn _ _ => exact spawn_stocked hk ((step_syscall rfl).symm.trans hs)
    | openResource _ _ _ => exact open_stocked hk ((step_syscall rfl).symm.trans hs)
    | closeResource _ => exact close_stocked hk ((step_syscall rfl).symm.trans hs)
    | destroyResource _ => exact destroy_stocked hk ((step_syscall rfl).symm.trans hs)
    | exit v => exact exit_stocked hk (exit_num s v) ((step_syscall rfl).symm.trans hs)
    | mqCreate _ _ => exact mqCreate_stocked hk ((step_syscall rfl).symm.trans hs)
    | mqDestroy _ => exact mqDestroy_stocked hk ((step_syscall rfl).symm.trans hs)
    | _ => exact absurd he id
  · exact hk.untouched (step_untouched h he hs)

theorem boot_stocked : Stocked boot := by
  refine ⟨?_, boot_fds.lastFd⟩
  obtain ⟨pool, -, he⟩ := boot_eq
  rw [he]
  exact Pool.ok_init _

theorem run_stocked (hr : run step boot es = .ok s) : Stocked s :=
  (run_inv' (I := fun s => Sane s ∧ Stocked s) (A := fun _ => True)
    (fun _ _ _ h _ hs => ⟨(step_steps h.1 hs).sane, step_stocked h.1 h.2 hs⟩)
    ⟨boot_sane, boot_stocked⟩ (fun _ _ => trivial) hr).2

/-! ## What the call returns -/

theorem descriptorAlloc_none (hg : s.descriptorPool.get = none) :
    descriptorAlloc s fd r p = none := by
  unfold descriptorAlloc
  rw [hg]

theorem descriptorAlloc_some (hg : s.descriptorPool.get = some (b, pool)) :
    descriptorAlloc s fd r p = some (⟨b, p, r, fd, 0⟩, { s with descriptorPool := pool }) := by
  unfold descriptorAlloc
  rw [hg]

theorem descriptorPtrAlloc_none (hg : s.descriptorPtrPool.get = none) :
    descriptorPtrAlloc s d = none := by
  unfold descriptorPtrAlloc
  rw [hg]

theorem descriptorPtrAlloc_some (hg : s.descriptorPtrPool.get = some (c, ptrPool)) :
    descriptorPtrAlloc s d = some (⟨c, d.block⟩, { s with descriptorPtrPool := ptrPool }) := by
  unfold descriptorPtrAlloc
  rw [hg]

theorem not_noFd (hg : s.descriptorPool.get = some (b, pool))
    (hg' : s.descriptorPtrPool.get = some (c, ptrPool)) : ¬ s.NoFd := by
  unfold State.NoFd
  rw [(Pool.get_eq hg).1, (Pool.get_eq hg').1]
  simp

/-- The part of the call after the resource has been looked up fails and changes nothing, or opens
the resource. -/
theorem openDescriptor_spec (hok : s.descriptorPool.Ok) (found : Option ResourceRef)
    (type mode : Int) :
    (∃ v ∈ openErrors,
      (∀ r, found = some r → Accepts s r type mode → s.NoFd ∧ v = dsosEResourceNoFd) ∧
      internalOpenResource.openDescriptor s s.running found type mode =
        .ok (s.setRetvalue s.running v)) ∨
    ∃ r b c pool ptrPool, found = some r ∧ s.descriptorPool.get = some (b, pool) ∧
      s.descriptorPtrPool.get = some (c, ptrPool) ∧
      internalOpenResource.openDescriptor s s.running found type mode =
        .ok ((opened s r b c pool ptrPool).setRetvalue s.running (s.pcbs s.running).lastFd) := by
  unfold internalOpenResource.openDescriptor
  split
  · exact .inl ⟨dsosEResourceOpen, by simp [openErrors], by simp, rfl⟩
  rename_i r
  split
  · rename_i ht
    refine .inl ⟨dsosEResourceOpen, by simp [openErrors], fun r' he ha => absurd ?_ ht, rfl⟩
    cases he
    exact ha.1
  split
  · rename_i hx
    refine .inl ⟨dsosEResourceNoExcl, by simp [openErrors], fun r' he ha => absurd hx ?_, rfl⟩
    cases he
    exact ha.2
  cases hg : s.descriptorPool.get with
  | none =>
    refine .inl ⟨dsosEResourceNoFd, by simp [openErrors],
      fun _ _ _ => ⟨.inl (Pool.get_eq_none.1 hg), rfl⟩, ?_⟩
    rw [descriptorAlloc_none hg]
  | some x =>
    obtain ⟨b, pool⟩ := x
    rw [descriptorAlloc_some hg]
    dsimp only
    cases hg' : s.descriptorPtrPool.get with
    | none =>
      refine .inl ⟨dsosEResourceNoFd, by simp [openErrors],
        fun _ _ _ => ⟨.inr (Pool.get_eq_none.1 hg'), rfl⟩, ?_⟩
      rw [descriptorPtrAlloc_none (by exact hg')]
      -- the block of the descriptor is given back
      have heq : { s with descriptorPool := pool.release b } = s := by
        rw [hok.release_get hg]
      exact congrArg (fun t : State => Except.ok (t.setRetvalue s.running dsosEResourceNoFd)) heq
    | some y =>
      obtain ⟨c, ptrPool⟩ := y
      rw [descriptorPtrAlloc_some (by exact hg')]
      exact .inr ⟨r, b, c, pool, ptrPool, rfl, rfl, rfl, rfl⟩

/-- What `openResource` does up to the descriptor. -/
theorem internalOpenResource_eq :
    let id := (s.pcbs s.running).syscallArgs 0
    let type := (s.pcbs s.running).syscallArgs 1
    let mode := (s.pcbs s.running).syscallArgs 2
    (¬ CreatesResource s id mode → (hasFlag mode dsosCreateBit ∧
        internalOpenResource s = .ok (s.setRetvalue s.running dsosEResourceCreate) ∨
      ¬ hasFlag mode dsosCreateBit ∧ internalOpenResource s =
        internalOpenResource.openDescriptor s s.running (resourceListById s id) type mode)) ∧
    (CreatesResource s id mode → ∃ i pool, s.resourcePool.get = some (i, pool) ∧
      internalOpenResource s = internalOpenResource.openDescriptor (resourceCreated s i pool id type)
        s.running (some (.generic i)) type mode) := by
  intro id type mode
  unfold internalOpenResource
  dsimp only
  refine ⟨fun hn => ?_, fun hc => ?_⟩
  · by_cases hf : hasFlag mode dsosCreateBit
    · refine .inl ⟨hf, ?_⟩
      rw [if_pos hf]
      split
      · rfl
      rename_i hnone
      have hfree : s.resourcePool.get = none :=
        Pool.get_eq_none.2 (not_not.1 fun hne => hn ⟨hf, by simpa using hnone, hne⟩)
      unfold resourceAlloc
      rw [hfree]
    · exact .inr ⟨hf, if_neg hf⟩
  · obtain ⟨hf, hnone, hfree⟩ := hc
    cases hg : s.resourcePool.get with
    | none => exact absurd (Pool.get_eq_none.1 hg) hfree
    | some x =>
      obtain ⟨i, pool⟩ := x
      refine ⟨i, pool, rfl, ?_⟩
      have hno : ¬ (resourceListById s id).isSome := by
        rw [hnone]
        simp
      rw [if_pos hf, if_neg hno]
      unfold resourceAlloc
      rw [hg]
      rfl

/-! ## All or nothing -/

theorem Unchanged.setRetvalue (s : State) (c : Syscall) (p : PcbRef) (v : Int) :
    Unchanged s ((saveCall s c).setRetvalue p v) := by
  have hu : Untouched s ((saveCall s c).setRetvalue p v) :=
    (Untouched.saveCall s c).trans (.quiet (.setRetvalue _ _ _))
  exact ⟨hu.list, fun r => by rw [hu.resource], fun r => congrArg Resource.descriptorsPtrs
    (hu.resource r), hu.descriptors, hu.lastFd, rfl⟩

/-- A number is not an error. -/
theorem not_mem_openErrors (h : 0 ≤ fd) : fd ∉ openErrors := by
  intro hm
  have hneg : ∀ v ∈ openErrors, v < 0 := by decide
  exact Int.not_lt.2 h (hneg fd hm)

theorem accepts_created : Accepts (resourceCreated s i pool id type) (.generic i) type mode := by
  unfold Accepts
  rw [resource_resourceCreated, if_pos rfl]
  simp

/-- A call that creates a resource opens it, or it fails and the resource is left behind. -/
theorem internalOpenResource_created (hok : s.descriptorPool.Ok)
    (h0 : (s.pcbs s.running).syscallArgs 0 = id) (h1 : (s.pcbs s.running).syscallArgs 1 = type)
    (h2 : (s.pcbs s.running).syscallArgs 2 = mode) (hc : CreatesResource s id mode) : ∃ i pool,
    s.resourcePool.get = some (i, pool) ∧
    let u := resourceCreated s i pool id type
    (s.NoFd ∧ internalOpenResource s = .ok (u.setRetvalue s.running dsosEResourceNoFd) ∨
      ¬ s.NoFd ∧ ∃ b c pool ptrPool, s.descriptorPool.get = some (b, pool) ∧
        s.descriptorPtrPool.get = some (c, ptrPool) ∧
        internalOpenResource s = .ok ((opened u (.generic i) b c pool ptrPool).setRetvalue s.running
          (s.pcbs s.running).lastFd)) := by
  subst h0 h1 h2
  obtain ⟨i, pool, hg, heq⟩ := (internalOpenResource_eq (s := s)).2 hc
  refine ⟨i, pool, hg, ?_⟩
  intro u
  have hu : u.descriptorPool = s.descriptorPool ∧ u.descriptorPtrPool = s.descriptorPtrPool :=
    ⟨rfl, rfl⟩
  have hno : u.NoFd ↔ s.NoFd := by
    unfold State.NoFd
    rw [hu.1, hu.2]
  rcases openDescriptor_spec (s := u) hok (some (.generic i)) _ _ with
    ⟨v, -, hv, he⟩ | ⟨r, b, c, pool', ptrPool, hr, hg₁, hg', he⟩
  · obtain ⟨hn, rfl⟩ := hv _ rfl accepts_created
    exact .inl ⟨hno.1 hn, heq.trans he⟩
  · cases hr
    refine .inr ⟨fun hn => not_noFd hg₁ hg' (hno.2 hn), b, c, pool', ptrPool, ?_, ?_, heq.trans he⟩
    · rw [← hu.1]
      exact hg₁
    · rw [← hu.2]
      exact hg'

/-- A call that creates no resource opens one, or it fails and changes nothing. -/
theorem internalOpenResource_found (hok : s.descriptorPool.Ok)
    (h0 : (s.pcbs s.running).syscallArgs 0 = id) (h1 : (s.pcbs s.running).syscallArgs 1 = type)
    (h2 : (s.pcbs s.running).syscallArgs 2 = mode) (hc : ¬ CreatesResource s id mode) :
    (∃ v, (∀ r, ¬ hasFlag mode dsosCreateBit → resourceListById s id = some r →
        Accepts s r type mode → s.NoFd) ∧
      internalOpenResource s = .ok (s.setRetvalue s.running v)) ∨
    ∃ r b c pool ptrPool, s.descriptorPool.get = some (b, pool) ∧
      s.descriptorPtrPool.get = some (c, ptrPool) ∧ internalOpenResource s =
        .ok ((opened s r b c pool ptrPool).setRetvalue s.running (s.pcbs s.running).lastFd) := by
  subst h0 h1 h2
  rcases (internalOpenResource_eq (s := s)).1 hc with ⟨hf, hs⟩ | ⟨-, hs⟩
  · exact .inl ⟨_, fun r hnf => absurd hf hnf, hs⟩
  · rcases openDescriptor_spec (s := s) hok (resourceListById s _) _ _ with
      ⟨v, -, hno, he⟩ | ⟨r, b, c, pool, ptrPool, -, hg, hg', he⟩
    · exact .inl ⟨v, fun r _ hr hacc => (hno r hr hacc).1, hs.trans he⟩
    · exact .inr ⟨r, b, c, pool, ptrPool, hg, hg', hs.trans he⟩

theorem creates_saveCall (c : Syscall) :
    CreatesResource (saveCall s c) id mode ↔ CreatesResource s id mode := by
  have hu := Untouched.saveCall s c
  unfold CreatesResource
  rw [hu.byId, hu.resourcePool]

theorem open_created (h : Stocked s) (hc : CreatesResource s id mode) (type : Int) : ∃ i pool,
    s.resourcePool.get = some (i, pool) ∧
    let t := saveCall s (.openResource id type mode)
    let u := resourceCreated t i pool id type
    (s.NoFd ∧ step s (.syscall (.openResource id type mode)) =
        .ok (u.setRetvalue s.running dsosEResourceNoFd) ∨
      ¬ s.NoFd ∧ ∃ b c pool ptrPool, s.descriptorPool.get = some (b, pool) ∧
        s.descriptorPtrPool.get = some (c, ptrPool) ∧
        step s (.syscall (.openResource id type mode)) =
          .ok ((opened u (.generic i) b c pool ptrPool).setRetvalue s.running
            (t.pcbs s.running).lastFd)) := by
  let c : Syscall := .openResource id type mode
  have hstep : step s (.syscall c) = internalOpenResource (saveCall s c) := step_syscall rfl
  have h1 := internalOpenResource_created (s := saveCall s c) h.pool (saveCall_args s c 0)
    (saveCall_args s c 1) (saveCall_args s c 2) ((creates_saveCall c).2 hc)
  rw [← hstep] at h1
  exact h1

theorem open_found (h : Stocked s) (hc : ¬ CreatesResource s id mode) (type : Int) :
    let t := saveCall s (.openResource id type mode)
    (∃ v, (∀ r, ¬ hasFlag mode dsosCreateBit → resourceListById s id = some r →
        Accepts s r type mode → s.NoFd) ∧
      step s (.syscall (.openResource id type mode)) = .ok (t.setRetvalue s.running v)) ∨
    ∃ r b c pool ptrPool, s.descriptorPool.get = some (b, pool) ∧
      s.descriptorPtrPool.get = some (c, ptrPool) ∧
      step s (.syscall (.openResource id type mode)) =
        .ok ((opened t r b c pool ptrPool).setRetvalue s.running (t.pcbs s.running).lastFd) := by
  let c : Syscall := .openResource id type mode
  have hstep : step s (.syscall c) = internalOpenResource (saveCall s c) := step_syscall rfl
  have h1 := internalOpenResource_found (s := saveCall s c) h.pool (saveCall_args s c 0)
    (saveCall_args s c 1) (saveCall_args s c 2) (mt (creates_saveCall c).1 hc)
  rw [← hstep] at h1
  exact h1

/-- **`openResource`** leaves a resource behind iff it creates one for which there is no
descriptor. -/
theorem open_allOrNothing (h : Stocked s) :
    AllOrNothing s id type mode ↔ ¬ (CreatesResource s id mode ∧ s.NoFd) := by
  have hu := Untouched.saveCall s (.openResource id type mode)
  -- a call that opens returns a number
  have hopen : ∀ u r b c pool ptrPool, step s (.syscall (.openResource id type mode)) =
        .ok ((opened u r b c pool ptrPool).setRetvalue s.running
          ((saveCall s (.openResource id type mode)).pcbs s.running).lastFd) →
      AllOrNothing s id type mode := by
    intro u r b c pool ptrPool hs
    refine ⟨_, hs, fun hm => absurd hm (not_mem_openErrors ?_)⟩
    have hpos := h.lastFd s.running
    rw [← hu.lastFd] at hpos
    simpa using hpos
  by_cases hc : CreatesResource s id mode
  · obtain ⟨i, pool, -, ⟨hn, hs⟩ | ⟨hn, b, c, pool', ptrPool, -, -, hs⟩⟩ :=
      open_created h hc type
    · refine iff_of_false (fun hall => ?_) fun hnot => hnot ⟨hc, hn⟩
      obtain ⟨s', hs', hun⟩ := hall
      obtain rfl := Except.ok.inj (hs.symm.trans hs')
      have hlist := (hun (by simp [openErrors])).list
      have : (s.resourcesList ++ [ResourceRef.generic i]).length = s.resourcesList.length :=
        congrArg List.length hlist
      simp at this
    · exact iff_of_true (hopen _ _ _ _ _ _ hs) fun hnot => hn hnot.2
  · refine iff_of_true ?_ fun hnot => hc hnot.1
    rcases open_found h hc type with ⟨v, -, hs⟩ | ⟨r, b, c, pool, ptrPool, -, -, hs⟩
    · exact ⟨_, hs, fun _ => .setRetvalue s _ s.running v⟩
    · exact hopen _ _ _ _ _ _ hs

/-- **`openResource` is all or nothing** after any run, exactly if it does not create a resource for
which there is no descriptor. -/
theorem allOrNothing_iff (hr : run step boot es = .ok s) (id type mode : Int) :
    AllOrNothing s id type mode ↔ ¬ (CreatesResource s id mode ∧
      (s.descriptorPool.free = [] ∨ s.descriptorPtrPool.free = [])) :=
  open_allOrNothing (run_stocked hr)

/-! ## Using up the descriptors -/

/-- The running process has opened the resource 1 `n` times, and nobody has opened anything else. -/
structure Hoards (s : State) (n : Nat) : Prop where
  resource : ∃ r, resourceListById s 1 = some r ∧ (s.resource r).type = resourceGeneric
  unknown : resourceListById s 2 = none
  resourcePool : s.resourcePool.free ≠ []
  pcbPool : s.pcbPool.free ≠ []
  descriptors : (s.pcbs s.running).descriptors.length = n
  free : s.descriptorPool.free.length + n = maxNumDescriptorsPerProcess * maxNumProcesses
  ptrFree : s.descriptorPtrPool.free.length + n = maxNumDescriptorsPerProcess * maxNumProcesses

/-- `openResource` of the resource 1, which exists. -/
def openAgain : Syscall := .openResource 1 resourceGeneric 0

/-- The resource 1 is created, and opened `n` times. -/
def hoardingRun (n : Nat) : List Event :=
  .syscall (.openResource 1 resourceGeneric 1) :: List.replicate (n - 1) (.syscall openAgain)

namespace Hoards

theorem untouched (h : Hoards s n) (hu : Untouched s s') (hr : s'.running = s.running)
    (hp : s'.pcbPool = s.pcbPool) : Hoards s' n := by
  obtain ⟨r, h1, h2⟩ := h.resource
  refine ⟨⟨r, hu.byId.trans h1, by rw [hu.resource]; exact h2⟩, hu.byId.trans h.unknown, ?_, ?_, ?_,
    ?_, ?_⟩
  · rw [hu.resourcePool]
    exact h.resourcePool
  · rw [hp]
    exact h.pcbPool
  · rw [hr, hu.descriptors]
    exact h.descriptors
  · rw [hu.descriptorPool]
    exact h.free
  · rw [hu.descriptorPtrPool]
    exact h.ptrFree

/-- One more descriptor. -/
theorem opened (h : Hoards s n) (hg : s.descriptorPool.get = some (b, pool))
    (hg' : s.descriptorPtrPool.get = some (c, ptrPool)) :
    Hoards (opened s r b c pool ptrPool) (n + 1) := by
  have hk : Keeps s (DisastrOS.opened s r b c pool ptrPool) := .opened
  obtain ⟨r', h1, h2⟩ := h.resource
  have hrun : (DisastrOS.opened s r b c pool ptrPool).running = s.running := by
    simp [DisastrOS.opened, granted, linkDescriptor]
  refine ⟨⟨r', (byId_congr hk.list hk.id).trans h1, by rw [hk.type]; exact h2⟩,
    (byId_congr hk.list hk.id).trans h.unknown, ?_, ?_, ?_, ?_, ?_⟩
  · rw [hk.resourcePool]
    exact h.resourcePool
  · simpa [DisastrOS.opened, granted, linkDescriptor] using h.pcbPool
  · rw [hrun, ← h.descriptors]
    simp [DisastrOS.opened, granted, linkDescriptor]
  · have h3 : pool.free.length + (n + 1) = maxNumDescriptorsPerProcess * maxNumProcesses := by
      rw [← h.free, (Pool.get_eq hg).1, List.length_cons]
      omega
    simpa [DisastrOS.opened, granted, linkDescriptor] using h3
  · have h3 : ptrPool.free.length + (n + 1) = maxNumDescriptorsPerProcess * maxNumProcesses := by
      rw [← h.ptrFree, (Pool.get_eq hg').1, List.length_cons]
      omega
    simpa [DisastrOS.opened, granted, linkDescriptor] using h3

theorem noFd_iff (h : Hoards s n) :
    s.NoFd ↔ n = maxNumDescriptorsPerProcess * maxNumProcesses := by
  have h1 := h.free
  have h2 := h.ptrFree
  unfold State.NoFd
  rw [← List.length_eq_zero_iff, ← List.length_eq_zero_iff]
  omega

theorem step (h : Hoards s n) (hok : Stocked s)
    (hn : n < maxNumDescriptorsPerProcess * maxNumProcesses) :
    ∃ s', step s (.syscall openAgain) = .ok s' ∧ Hoards s' (n + 1) := by
  obtain ⟨r, hr, htype⟩ := h.resource
  have hflag : ¬ hasFlag 0 dsosCreateBit := by decide
  have hacc : Accepts s r resourceGeneric 0 := ⟨htype, fun hx => absurd hx.1 (by decide)⟩
  have hcr : ¬ CreatesResource s 1 0 := fun hc => hflag hc.1
  rcases open_found hok hcr resourceGeneric with
    ⟨v, hno, -⟩ | ⟨r', b, c, pool, ptrPool, hg, hg', hs⟩
  · exact absurd (h.noFd_iff.1 (hno r hflag hr hacc)) hn.ne
  · have h1 : Hoards (saveCall s openAgain) n := h.untouched (.saveCall s openAgain) rfl rfl
    exact ⟨_, hs, (h1.opened hg hg').untouched (.quiet (.setRetvalue _ _ _)) rfl rfl⟩

theorem replicate {k : Nat} (h : Hoards s n) (hs : Sane s) (hok : Stocked s)
    (hn : n + k ≤ maxNumDescriptorsPerProcess * maxNumProcesses) :
    ∃ s', run DisastrOS.step s (List.replicate k (.syscall openAgain)) = .ok s' ∧
      Hoards s' (n + k) := by
  induction k generalizing s n with
  | zero => exact ⟨s, rfl, h⟩
  | succ k ih =>
    obtain ⟨s₁, hs₁, h1⟩ := h.step hok (by omega)
    obtain ⟨s', hs', h2⟩ := ih h1 (step_steps hs hs₁).sane (step_stocked hs hok hs₁) (by omega)
    refine ⟨s', ?_, by rwa [show n + (k + 1) = n + 1 + k by omega]⟩
    rw [List.replicate_succ, run_cons_ok hs₁]
    exact hs'

/-- The resource 1 is there, and nobody has opened it. -/
theorem created (hl : s.resourcesList = []) (hg : s.resourcePool.get = some (i, pool))
    (hr : 1 < s.resourcePool.free.length) (hp : s.pcbPool.free ≠ [])
    (hd : (s.pcbs s.running).descriptors = [])
    (hf : s.descriptorPool.free.length = maxNumDescriptorsPerProcess * maxNumProcesses)
    (hf' : s.descriptorPtrPool.free.length = maxNumDescriptorsPerProcess * maxNumProcesses) :
    Hoards (resourceCreated s i pool 1 resourceGeneric) 0 := by
  have hlist : (resourceCreated s i pool 1 resourceGeneric).resourcesList = [.generic i] :=
    congrArg (· ++ [ResourceRef.generic i]) hl
  have hres : (resourceCreated s i pool 1 resourceGeneric).resource (.generic i) =
      ⟨1, resourceGeneric, 0, []⟩ := by
    rw [resource_resourceCreated, if_pos rfl]
  refine ⟨⟨.generic i, ?_, by rw [hres]⟩, ?_, fun hnil => ?_, hp, congrArg List.length hd, hf, hf'⟩
  · simp [resourceListById, hlist, hres]
  · simp [resourceListById, hlist, hres]
  · have hnil : pool.free = [] := hnil
    rw [(Pool.get_eq hg).1, hnil, List.length_singleton] at hr
    omega

/-- The first `openResource` of a kernel in which nothing has been opened. -/
theorem first (hok : Stocked s) (hl : s.resourcesList = [])
    (hr : 1 < s.resourcePool.free.length) (hp : s.pcbPool.free ≠ [])
    (hd : (s.pcbs s.running).descriptors = [])
    (hf : s.descriptorPool.free.length = maxNumDescriptorsPerProcess * maxNumProcesses)
    (hf' : s.descriptorPtrPool.free.length = maxNumDescriptorsPerProcess * maxNumProcesses) :
    ∃ s', DisastrOS.step s (.syscall (.openResource 1 resourceGeneric 1)) = .ok s' ∧
      Hoards s' 1 := by
  have hu := Untouched.saveCall s (.openResource 1 resourceGeneric 1)
  have hne : s.resourcePool.free ≠ [] := fun e => by
    rw [e, List.length_nil] at hr
    omega
  have hcr : CreatesResource s 1 1 := ⟨by decide, by simp [resourceListById, hl], hne⟩
  obtain ⟨i, pool, hg, hor⟩ := open_created hok hcr resourceGeneric
  have hH : Hoards (resourceCreated (saveCall s (.openResource 1 resourceGeneric 1)) i pool 1
      resourceGeneric) 0 :=
    created hl hg hr hp ((hu.descriptors s.running).trans hd) hf hf'
  rcases hor with ⟨hn, -⟩ | ⟨-, b, c, pool', ptrPool, hg₁, hg', hs⟩
  · exact absurd (hH.noFd_iff.1 hn) (by decide)
  · exact ⟨_, hs, (hH.opened hg₁ hg').untouched (.quiet (.setRetvalue _ _ _)) rfl rfl⟩

theorem boot_first : ∃ s,
    DisastrOS.step boot (.syscall (.openResource 1 resourceGeneric 1)) = .ok s ∧ Hoards s 1 := by
  obtain ⟨pool, hg, hb⟩ := boot_eq
  have hpool : pool.free ≠ [] := fun e => by
    have h1 := congrArg List.length (Pool.get_eq hg).1
    rw [e, Pool.init_length, List.length_singleton] at h1
    exact absurd h1 (by decide)
  have hres : boot.resourcePool = .init maxNumResources := by rw [hb]; rfl
  have hdes : boot.descriptorPool = .init (maxNumDescriptorsPerProcess * maxNumProcesses) := by
    rw [hb]; rfl
  have hptr : boot.descriptorPtrPool = .init (maxNumDescriptorsPerProcess * maxNumProcesses) := by
    rw [hb]; rfl
  refine first boot_stocked (by rw [hb]; rfl) ?_ (by rw [hb]; exact hpool) (by rw [hb]; rfl) ?_
    ?_
  · rw [hres, Pool.init_length]
    decide
  · rw [hdes, Pool.init_length]
  · rw [hptr, Pool.init_length]

/-- The run goes through as long as there are descriptors. -/
theorem run (hpos : 0 < n) (hn : n ≤ maxNumDescriptorsPerProcess * maxNumProcesses) :
    ∃ s, Lib.run DisastrOS.step boot (hoardingRun n) = .ok s ∧ Hoards s n := by
  obtain ⟨s₁, hs₁, h1⟩ := boot_first
  obtain ⟨s, hs, h⟩ := h1.replicate (k := n - 1) (step_steps boot_sane hs₁).sane
    (step_stocked boot_sane boot_stocked hs₁) (by omega)
  refine ⟨s, ?_, by rwa [show 1 + (n - 1) = n by omega] at h⟩
  rw [hoardingRun, run_cons_ok hs₁]
  exact hs

end Hoards

/-- With all descriptors in use, the next resource is created and cannot be opened. -/
theorem hoardingRun_not_allOrNothing : ∃ s s' i,
    run step boot (hoardingRun (maxNumDescriptorsPerProcess * maxNumProcesses)) = .ok s ∧
    step s (.syscall (.openResource 2 resourceGeneric 1)) = .ok s' ∧
    (s'.pcbs s.running).syscallRetvalue = dsosEResourceNoFd ∧
    s'.resourcesList = s.resourcesList ++ [.generic i] ∧
    s.resourcePool.free = i :: s'.resourcePool.free ∧ ¬ AllOrNothing s 2 resourceGeneric 1 := by
  obtain ⟨s, hr, h⟩ := Hoards.run (n := maxNumDescriptorsPerProcess * maxNumProcesses)
    (by decide) le_rfl
  have hk := run_stocked hr
  have hn : s.NoFd := h.noFd_iff.2 rfl
  have hcr : CreatesResource s 2 1 := ⟨by decide, h.unknown, h.resourcePool⟩
  obtain ⟨i, pool, hg, ⟨-, hs⟩ | ⟨hne, -⟩⟩ := open_created hk hcr resourceGeneric
  · exact ⟨s, _, i, hr, hs, by simp, rfl, (Pool.get_eq hg).1, fun hall =>
      (open_allOrNothing hk).1 hall ⟨hcr, hn⟩⟩
  · exact absurd hn hne

/-- A resource is created, and a second one of its id is refused. -/
def refusingRun : List Event := [.syscall (.openResource 5 resourceGeneric 1)]

theorem allOrNothing_refusingRun : ∃ s s', run step boot refusingRun = .ok s ∧
    step s (.syscall (.openResource 5 resourceGeneric 1)) = .ok s' ∧
    (s'.pcbs s.running).syscallRetvalue = dsosEResourceCreate ∧ Unchanged s s' := by
  have hc : (run step boot refusingRun).toOption.any (fun s =>
      (resourceListById s 5).isSome ∧
      (step s (.syscall (.openResource 5 resourceGeneric 1))).toOption.any (fun s' =>
        (s'.pcbs s.running).syscallRetvalue = dsosEResourceCreate)) = true := by
    decide +kernel
  obtain ⟨s, hr, hc⟩ := run_check hc
  obtain ⟨hf, hc⟩ := of_decide_eq_true hc
  obtain ⟨s', hs, hv⟩ := ok_of_any hc
  have hv := of_decide_eq_true hv
  obtain ⟨t, ht, hun⟩ := (allOrNothing_iff hr 5 resourceGeneric 1).2 fun hcr => by
    rw [hcr.1.2.1] at hf
    exact absurd hf (by decide)
  obtain rfl : t = s' := Except.ok.inj (ht.symm.trans hs)
  exact ⟨s, t, hr, hs, hv, hun (by rw [hv]; decide)⟩

end

end DisastrOS
