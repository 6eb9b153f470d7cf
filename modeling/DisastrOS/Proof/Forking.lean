import DisastrOS.Proof.Opening

/-!
# What `fork` does

The call takes a block for the process, one for its entry in the children list and two for every
descriptor that it copies, and only the first of them may be missing: the others are asserted. So it
succeeds, or fails and changes nothing, exactly if the pools hold what it takes (`forksWhole_iff`).
-/

namespace DisastrOS

open Lib State

/-- What a descriptor stands for. -/
def Descriptor.binding (d : Descriptor) : Int × ResourceRef := (d.fd, d.resource)

/-- Process `p` is a new child of the running one, with a copy of its descriptors. -/
structure Forked (s s' : State) (p : PcbRef) (b : Nat) : Prop where
  fresh : ¬ s.Alloc p
  alloc : s'.Alloc p
  pid : (s'.pcbs p).pid = s.lastPid
  answer : (s'.pcbs s.running).syscallRetvalue = (s'.pcbs p).pid
  status : (s'.pcbs p).status = .ready
  parent : (s'.pcbs p).parent = some s.running
  ready : s'.readyList = s.readyList ++ [p]
  children : (s'.pcbs s.running).children = (s.pcbs s.running).children ++ [⟨b, p⟩]
  descriptors : (s'.pcbs p).descriptors.map Descriptor.binding =
    (s.pcbs s.running).descriptors.map Descriptor.binding
  count : ∀ r, (s'.resource r).refCount = (s.resource r).refCount +
    ((s.pcbs s.running).descriptors.filter (·.resource = r)).length

/-- `fork` forks, or it answers `DSOS_ESPAWN` and changes nothing. -/
def ForksWhole (s : State) : Prop :=
  (∃ s' p b, step s (.syscall .fork) = .ok s' ∧ Forked s s' p b) ∨
    step s (.syscall .fork) = .ok ((saveCall s .fork).setRetvalue s.running dsosESpawn)

/-- There is no block for a process, or there are blocks for all of it. -/
def CanFork (s : State) : Prop :=
  s.pcbPool.free = [] ∨ s.pcbPtrPool.free ≠ [] ∧
    (s.pcbs s.running).descriptors.length ≤ s.descriptorPool.free.length ∧
    (s.pcbs s.running).descriptors.length ≤ s.descriptorPtrPool.free.length

instance (s : State) : Decidable (CanFork s) := inferInstanceAs (Decidable (_ ∨ _ ∧ _ ∧ _))

/-- Process `p` has got copies of the descriptors in `ds`. -/
structure Duplicated (p : PcbRef) (ds : List Descriptor) (s s' : State) : Prop where
  descriptors : (s'.pcbs p).descriptors.map Descriptor.binding =
    (s.pcbs p).descriptors.map Descriptor.binding ++ ds.map Descriptor.binding
  count : ∀ r, (s'.resource r).refCount =
    (s.resource r).refCount + (ds.filter (·.resource = r)).length
  pcbs : ∀ q, { s'.pcbs q with descriptors := [] } = { s.pcbs q with descriptors := [] }

section
variable {s s' : State} {p q : PcbRef} {d : Descriptor} {ds : List Descriptor} {b c : Nat}
  {pool ptrPool : Pool} {es : List Event}

/-! ## The loop over the descriptors -/

theorem forkDescriptors_granted (hg : s.descriptorPool.get = some (b, pool))
    (hg' : s.descriptorPtrPool.get = some (c, ptrPool)) : forkDescriptors p (d :: ds) s =
      forkDescriptors p ds (granted s p d.resource d.fd b c pool ptrPool) := by
  rw [forkDescriptors, descriptorAlloc_some hg]
  dsimp only
  rw [descriptorPtrAlloc_some (by exact hg')]
  rfl

theorem forkDescriptors_noFd (hn : s.NoFd) : forkDescriptors p (d :: ds) s = .error .assertion := by
  rw [forkDescriptors]
  cases hg : s.descriptorPool.get with
  | none => rw [descriptorAlloc_none hg]
  | some x =>
    obtain ⟨b, pool⟩ := x
    have hne : s.descriptorPool.free ≠ [] := by
      rw [(Pool.get_eq hg).1]
      simp
    rw [descriptorAlloc_some hg]
    dsimp only
    rw [descriptorPtrAlloc_none (by exact Pool.get_eq_none.2 (hn.resolve_left hne))]

theorem Duplicated.granted : Duplicated p [d] s (granted s p d.resource d.fd b c pool ptrPool) := by
  refine ⟨?_, fun r => ?_, fun q => ?_⟩
  · rw [descriptors_granted, if_pos rfl, List.map_append]
    rfl
  · rw [resource_granted]
    by_cases hr : r = d.resource
    · simp [hr]
    · simp [hr, Ne.symm hr]
  · by_cases hq : q = p <;> simp [DisastrOS.granted, linkDescriptor, hq]

theorem Duplicated.trans {s₁ : State} {ds' : List Descriptor} (h : Duplicated p ds s s₁)
    (h' : Duplicated p ds' s₁ s') : Duplicated p (ds ++ ds') s s' := by
  refine ⟨?_, fun r => ?_, fun q => (h'.pcbs q).trans (h.pcbs q)⟩
  · rw [h'.descriptors, h.descriptors, List.map_append, List.append_assoc]
  · have h1 := h.count r
    have h2 := h'.count r
    rw [List.filter_append, List.length_append]
    omega

/-- The loop copies all descriptors if the pools have enough blocks, and stops otherwise. -/
theorem forkDescriptors_spec (p : PcbRef) (ds : List Descriptor) :
    (ds.length ≤ s.descriptorPool.free.length ∧
      ds.length ≤ s.descriptorPtrPool.free.length →
        ∃ s', forkDescriptors p ds s = .ok s' ∧ Duplicated p ds s s') ∧
    (¬ (ds.length ≤ s.descriptorPool.free.length ∧ ds.length ≤ s.descriptorPtrPool.free.length) →
      forkDescriptors p ds s = .error .assertion) := by
  induction ds generalizing s with
  | nil =>
    refine ⟨fun _ => ⟨s, rfl, by simp, by simp, fun _ => rfl⟩, fun h => absurd ?_ h⟩
    simp
  | cons d ds ih =>
    cases hg : s.descriptorPool.get with
    | none =>
      have hnil := Pool.get_eq_none.1 hg
      refine ⟨fun h => ?_, fun _ => forkDescriptors_noFd (.inl hnil)⟩
      rw [hnil] at h
      exact absurd h.1 (by simp)
    | some x =>
      obtain ⟨b, pool⟩ := x
      cases hg' : s.descriptorPtrPool.get with
      | none =>
        have hnil := Pool.get_eq_none.1 hg'
        refine ⟨fun h => ?_, fun _ => forkDescriptors_noFd (.inr hnil)⟩
        rw [hnil] at h
        exact absurd h.2 (by simp)
      | some y =>
        obtain ⟨c, ptrPool⟩ := y
        have hp : (granted s p d.resource d.fd b c pool ptrPool).descriptorPool = pool := by
          simp [granted, linkDescriptor]
        have hp' : (granted s p d.resource d.fd b c pool ptrPool).descriptorPtrPool = ptrPool := by
          simp [granted, linkDescriptor]
        have h1 := ih (s := granted s p d.resource d.fd b c pool ptrPool)
        rw [hp, hp'] at h1
        rw [forkDescriptors_granted hg hg', (Pool.get_eq hg).1, (Pool.get_eq hg').1,
          List.length_cons, List.length_cons, List.length_cons, Nat.add_le_add_iff_right,
          Nat.add_le_add_iff_right]
        refine ⟨fun h => ?_, h1.2⟩
        obtain ⟨s', hs', hc⟩ := h1.1 h
        exact ⟨s', hs', Duplicated.granted.trans hc⟩

/-! ## The call -/

/-- A child with its copies goes to the end of the ready list. -/
theorem fork_forks {v : State} (h : Sane s) (hg : s.pcbPool.get = some (p, pool))
    (hv : forkDescriptors p (s.pcbs s.running).descriptors
      (born (saveCall s .fork) p pool ptrPool ⟨b, p⟩) = .ok v)
    (hd : Duplicated p (s.pcbs s.running).descriptors
      (born (saveCall s .fork) p pool ptrPool ⟨b, p⟩) v) :
    ∃ s', (v.setRetvalue v.running (v.pcbs p).pid).listInsertLast .ready p = .ok s' ∧
      Forked s s' p b := by
  let u := born (saveCall s .fork) p pool ptrPool ⟨b, p⟩
  have hfresh : ¬ s.Alloc p := Pool.not_used_get hg
  have hne : p ≠ s.running := fun e => hfresh (e ▸ h.alloc)
  have hstill : Still u v := .forkDescriptors hv
  have hlist : ∀ L, v.list L = s.list L := fun L =>
    (hstill.list L).trans (by cases L <;> rfl)
  have hrun : v.running = s.running := hstill.running
  have hun : ∀ L, p ∉ (v.setRetvalue v.running (v.pcbs p).pid).list L := fun L hm => by
    rw [list_setRetvalue, hlist] at hm
    exact hfresh (h.table.alloc hm)
  have hp : (v.pcbs p).pid = s.lastPid ∧ (v.pcbs p).status = .ready ∧
      (v.pcbs p).parent = some s.running := by
    have h1 := hd.pcbs p
    refine ⟨(congrArg PCB.pid h1 :).trans ?_, (congrArg PCB.status h1 :).trans ?_,
      (congrArg PCB.parent h1 :).trans ?_⟩ <;> simp [born, saveCall]
  have hr : (v.pcbs s.running).children = (s.pcbs s.running).children ++ [⟨b, p⟩] := by
    refine (congrArg PCB.children (hd.pcbs s.running) :).trans ?_
    simp [born, saveCall, Ne.symm hne]
  have hds : (v.pcbs p).descriptors.map Descriptor.binding =
      (s.pcbs s.running).descriptors.map Descriptor.binding := by
    rw [hd.descriptors]
    simp [born]
  have hcount : ∀ r, (v.resource r).refCount = (s.resource r).refCount +
      ((s.pcbs s.running).descriptors.filter (·.resource = r)).length := fun r => by
    rw [hd.count]
    cases r <;> rfl
  have halloc : v.Alloc p := hstill.alloc.2 ((h.table.pool.used_get hg).2 (.inl rfl))
  refine ⟨_, listInsert_of_unlisted hun, hfresh, ?_, ?_, ?_, ?_, ?_, ?_, ?_, ?_, fun r => ?_⟩
  · exact halloc
  · simpa [hrun, hne] using hp.1
  · simp [hrun, hne]
  · simpa [hrun, hne] using hp.2.1
  · simpa [hrun, hne] using hp.2.2
  · have h1 := hlist .ready
    show v.readyList ++ [p] = _
    exact congrArg (· ++ [p]) h1
  · simpa [hrun] using hr
  · simpa [hrun, hne] using hds
  · rw [← hcount r]
    cases r <;> rfl

/-- `fork` once it has its two blocks. -/
theorem fork_born (h : Sane s) (hg : s.pcbPool.get = some (p, pool))
    (hb : s.pcbPtrPool.get = some (b, ptrPool)) : step s (.syscall .fork) =
      forkDescriptors p (s.pcbs s.running).descriptors
        (born (saveCall s .fork) p pool ptrPool ⟨b, p⟩) >>= fun v =>
          (v.setRetvalue v.running (v.pcbs p).pid).listInsertLast .ready p := by
  have hne : p ≠ s.running := fun e => Pool.not_used_get hg (e ▸ h.alloc)
  rw [← (Untouched.saveCall s .fork).descriptors s.running]
  exact (step_syscall rfl).trans (internalFork_born (s := saveCall s .fork) hne hg hb)

/-- With the blocks that it takes it succeeds, or there is none for the process. -/
theorem CanFork.forksWhole (h : Sane s) (hc : CanFork s) : ForksWhole s := by
  rcases hc with hnil | ⟨hb, hlen⟩
  · exact .inr ((step_syscall rfl).trans (internalFork_full (Pool.get_eq_none.2 hnil)))
  · cases hg : s.pcbPool.get with
    | none => exact .inr ((step_syscall rfl).trans (internalFork_full hg))
    | some x =>
      obtain ⟨p, pool⟩ := x
      obtain ⟨⟨b, ptrPool⟩, hb⟩ := Option.ne_none_iff_exists'.1 (mt Pool.get_eq_none.1 hb)
      have heq := fork_born h hg hb
      obtain ⟨v, hv, hd⟩ := (forkDescriptors_spec p _
        (s := born (saveCall s .fork) p pool ptrPool ⟨b, p⟩)).1 hlen
      obtain ⟨s', hs', hf⟩ := fork_forks h hg hv hd
      rw [hv, ok_bind] at heq
      exact .inl ⟨s', p, b, heq.trans hs', hf⟩

/-- Without them an assertion fails, possibly after some of the descriptors have been copied. -/
theorem fork_stops (h : Sane s) (hc : ¬ CanFork s) :
    step s (.syscall .fork) = .error .assertion := by
  unfold CanFork at hc
  rw [not_or] at hc
  obtain ⟨⟨p, pool⟩, hg⟩ := Option.ne_none_iff_exists'.1 (mt Pool.get_eq_none.1 hc.1)
  cases hb : s.pcbPtrPool.get with
  | none => exact (step_syscall rfl).trans (internalFork_noPtr hg hb)
  | some y =>
    obtain ⟨b, ptrPool⟩ := y
    have hbfree : s.pcbPtrPool.free ≠ [] := by
      rw [(Pool.get_eq hb).1]
      simp
    have hstop := (forkDescriptors_spec p (s.pcbs s.running).descriptors
      (s := born (saveCall s .fork) p pool ptrPool ⟨b, p⟩)).2 fun hlen => hc.2 ⟨hbfree, hlen⟩
    rw [fork_born h hg hb, hstop, error_bind]

/-- **`fork`** forks or fails without a trace iff the pools hold what it takes. -/
theorem fork_whole (h : Sane s) : ForksWhole s ↔ CanFork s := by
  refine ⟨fun hw => by_contra fun hc => ?_, fun hc => hc.forksWhole h⟩
  have hstop := fork_stops h hc
  rcases hw with ⟨s', p, b, hs, -⟩ | hs <;> rw [hstop] at hs <;> cases hs

/-- **`fork` is all or nothing** after any run, exactly if there is no block for a process or there
are blocks for its entry and for the copies of all descriptors. -/
theorem forksWhole_iff (hr : run step boot es = .ok s) : ForksWhole s ↔ CanFork s :=
  fork_whole (run_sane hr)

/-- With more descriptors than are left, `fork` stops the kernel. -/
theorem Hoards.not_canFork {n : Nat} (h : Hoards s n)
    (hn : maxNumDescriptorsPerProcess * maxNumProcesses < 2 * n) : ¬ CanFork s := by
  intro hc
  have h1 := (hc.resolve_left h.pcbPool).2.1
  have h2 := h.free
  rw [h.descriptors] at h1
  omega

/-- A process opens more than half of the descriptors. -/
def halfRun : List Event := hoardingRun 16385

theorem halfRun_not_forksWhole : ∃ s, run step boot halfRun = .ok s ∧
    step s (.syscall .fork) = .error .assertion ∧ ¬ ForksWhole s := by
  obtain ⟨s, hr, h⟩ := Hoards.run (n := 16385) (by decide) (by decide)
  have hc : ¬ CanFork s := h.not_canFork (by decide)
  exact ⟨s, hr, fork_stops (run_sane hr) hc, fun hw => hc ((fork_whole (run_sane hr)).1 hw)⟩

/-- A process opens two resources, one of them twice, and closes a descriptor. -/
def sharedRun : List Event :=
  [.syscall (.openResource 5 resourceGeneric 1), .syscall (.openResource 6 resourceGeneric 1),
    .syscall (.openResource 5 resourceGeneric 0)]

/-- Its child gets copies of the three descriptors. -/
theorem forksWhole_sharedRun : ∃ s s' p b, run step boot sharedRun = .ok s ∧
    step s (.syscall .fork) = .ok s' ∧ Forked s s' p b ∧
    (s'.pcbs p).descriptors.map Descriptor.binding =
      [(0, .generic 0), (1, .generic 1), (2, .generic 0)] := by
  have hc : (run step boot sharedRun).toOption.any (fun s => s.pcbPtrPool.free ≠ [] ∧
      (s.descriptorPool.free.take 3).length = 3 ∧ (s.descriptorPtrPool.free.take 3).length = 3 ∧
      (s.pcbs s.running).descriptors.map Descriptor.binding =
        [(0, .generic 0), (1, .generic 1), (2, .generic 0)] ∧
      (step s (.syscall .fork)).toOption.any (fun s' =>
        (s'.pcbs s.running).syscallRetvalue = 1)) = true := by
    decide +kernel
  obtain ⟨s, hr, hc⟩ := run_check hc
  obtain ⟨hb, hd, hdp, hds, hf⟩ := of_decide_eq_true hc
  obtain ⟨t, ht, hv⟩ := ok_of_any hf
  have hlen : (s.pcbs s.running).descriptors.length = 3 := by
    simpa using congrArg List.length hds
  rw [List.length_take] at hd hdp
  have hcan : CanFork s := .inr ⟨hb, by omega, by omega⟩
  rcases (forksWhole_iff hr).2 hcan with ⟨s', p, b, hs, hfork⟩ | hs
  · exact ⟨s, s', p, b, hr, hs, hfork, hfork.descriptors.trans hds⟩
  · obtain rfl : t = _ := Except.ok.inj (ht.symm.trans hs)
    have hone : dsosESpawn = 1 := by simpa using of_decide_eq_true hv
    exact absurd hone (by decide)

end

end DisastrOS
