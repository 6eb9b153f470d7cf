import DisastrOS.Proof.Descriptors
import DisastrOS.Proof.Zombies

/-!
# Descriptors stay good

A process that has a descriptor has it until it closes that number or exits, whatever the other
processes do (`step_uses`): a `fork` copies its descriptors, but takes none of them, and the exit of
another process releases that one's own. Until then the resource stays on the list, under its id and
with its type, and is counted, so that nobody can destroy it (`descriptor_stays`).
-/

namespace DisastrOS

open Lib State

/-- Process `p` has not exited, and has the descriptor `d`. -/
structure State.Uses (s : State) (p : PcbRef) (d : Descriptor) : Prop where
  alloc : s.Alloc p
  alive : (s.pcbs p).status ≠ .zombie
  mem : d ∈ (s.pcbs p).descriptors

/-- Process `p` gives up the number `fd`: it closes it, or exits. -/
def GivesUp (p : PcbRef) (fd : Int) (s : State) : Event → Prop
  | .syscall (.closeResource n) => s.running = p ∧ n = fd
  | .syscall (.exit _) => s.running = p
  | _ => False

instance (p : PcbRef) (fd : Int) (s : State) : DecidablePred (GivesUp p fd s)
  | .syscall (.closeResource _) => inferInstanceAs (Decidable (_ ∧ _))
  | .syscall (.exit _) => inferInstanceAs (Decidable (_ = _))
  | .tick | .store .. | .syscall .preempt | .syscall .fork | .syscall (.wait ..)
  | .syscall (.spawn ..) | .syscall (.sleep _) | .syscall (.openResource ..)
  | .syscall (.destroyResource _) | .syscall (.mqCreate ..) | .syscall (.mqSend ..)
  | .syscall (.mqReceive ..) | .syscall (.mqDestroy _) | .syscall .shutdown => isFalse id

/-- The resource `r` has the same id and type. -/
structure SameEntry (r : ResourceRef) (s s' : State) : Prop where
  id : (s'.resource r).id = (s.resource r).id
  type : (s'.resource r).type = (s.resource r).type

section
variable {s s' s₁ s₂ : State} {p q : PcbRef} {r x : ResourceRef} {d : Descriptor} {pool : Pool}
  {e : Event} {es es' : List Event}

/-! ## Ids and types -/

namespace SameEntry

theorem trans (h : SameEntry r s s₁) (h' : SameEntry r s₁ s') : SameEntry r s s' :=
  ⟨h'.id.trans h.id, h'.type.trans h.type⟩

theorem of_eq (h : s'.resource r = s.resource r) : SameEntry r s s' := ⟨by rw [h], by rw [h]⟩

theorem untouched (h : Untouched s s') : SameEntry r s s' := of_eq (h.resource r)

theorem keeps (h : Keeps s s') : SameEntry r s s' := ⟨h.id r, h.type r⟩

theorem removed (h₁ : detachResource s x = .ok s₁) (h₂ : resourceFree s₁ x = .ok s₂) :
    SameEntry r s s₂ :=
  of_eq ((detachResource_resource h₁ h₂).2.2 r)

theorem release : ∀ {ds : List Descriptor} {s : State}, releaseDescriptors q ds s = .ok s' →
    SameEntry r s s'
  | [], _, h => by
    cases h
    exact of_eq rfl
  | d :: ds, s, h => by
    have h1 : SameEntry r s (dropped s q d ds) := keeps .dropped
    obtain ⟨-, ⟨-, s₁, s₂, hd, hf, h⟩ | ⟨-, h⟩⟩ := releaseDescriptors_cases h
    · exact h1.trans ((removed hd hf).trans (release h))
    · exact h1.trans (release h)

/-- A resource that is created is not one of those on the list. -/
theorem opened (hl : Listed s) (hr : r ∈ s.resourcesList) (hs : internalOpenResource s = .ok s') :
    SameEntry r s s' := by
  rcases open_cases hs with ⟨-, hq | ⟨x, -, ho⟩⟩ | ⟨-, i, pool, hg, h⟩
  · exact untouched (.quiet hq)
  · exact keeps (.opens ho)
  · have hnew := (hl.create ((s.pcbs s.running).syscallArgs 0) ((s.pcbs s.running).syscallArgs 1)
      hg).2
    have hcr : ∀ id type, SameEntry r s (resourceCreated s i pool id type) := fun id type =>
      of_eq (resource_resourceCreated.trans (if_neg fun he : r = .generic i => hnew (he ▸ hr)))
    rcases h with hq | ho
    · exact (hcr _ _).trans (untouched (.quiet hq))
    · exact (hcr _ _).trans (keeps (.opens ho))

end SameEntry

theorem step_sameEntry (h : Sane s) (he : e.OffQueues) (hr : r ∈ s.resourcesList)
    (hs : step s e = .ok s') : SameEntry r s s' := by
  by_cases ht : e.Touches
  · obtain ⟨c, rfl⟩ := ht.syscall
    have h0 := h.saveCall c
    have hu := Untouched.saveCall s c
    have hr₀ : r ∈ (saveCall s c).resourcesList := hu.list ▸ hr
    refine (SameEntry.untouched hu).trans ?_
    cases c with
    | fork => exact .keeps (fork_keeps ((step_syscall rfl).symm.trans hs))
    | spawn _ _ => exact .keeps (spawn_keeps ((step_syscall rfl).symm.trans hs))
    | openResource _ _ _ => exact .opened h0.listed hr₀ ((step_syscall rfl).symm.trans hs)
    | closeResource _ => exact .keeps (close_keeps ((step_syscall rfl).symm.trans hs))
    | destroyResource _ =>
      rcases destroy_cases ((step_syscall rfl).symm.trans hs) with
        ⟨-, hq⟩ | ⟨x, s₁, s₂, -, hd, hf, hq⟩
      · exact .untouched (.quiet hq)
      · exact (SameEntry.removed hd hf).trans (.untouched (.quiet hq))
    | exit v =>
      obtain ⟨parent, -, ⟨-, hu, -⟩ | ⟨-, s₁, s₂, hu₁, -, hrel, hu₂, -⟩⟩ :=
        exit_untouched ((step_syscall rfl).symm.trans hs) (exit_num s v)
      · exact .untouched hu
      · exact (SameEntry.untouched hu₁).trans ((SameEntry.release hrel).trans (.untouched hu₂))
    | mqCreate _ _ => exact he.elim
    | mqDestroy _ => exact he.elim
    | _ => exact absurd ht id
  · exact .untouched (step_untouched h ht hs)

/-! ## Descriptors -/

theorem releaseDescriptors_others (hp : p ≠ q) : ∀ {ds : List Descriptor} {s : State},
    releaseDescriptors q ds s = .ok s' → (s'.pcbs p).descriptors = (s.pcbs p).descriptors
  | [], _, h => by
    cases h
    rfl
  | d :: ds, s, h => by
    have h1 : ((dropped s q d ds).pcbs p).descriptors = (s.pcbs p).descriptors := by
      rw [descriptors_dropped, if_neg hp]
    obtain ⟨-, ⟨-, s₁, s₂, hd, hf, h⟩ | ⟨-, h⟩⟩ := releaseDescriptors_cases h
    · rw [releaseDescriptors_others hp h, (detachResource_pcbs hd hf).1, h1]
    · rw [releaseDescriptors_others hp h, h1]

theorem forkDescriptors_others (hp : p ≠ q) : ∀ {ds : List Descriptor} {s : State},
    forkDescriptors q ds s = .ok s' → (s'.pcbs p).descriptors = (s.pcbs p).descriptors
  | [], _, h => by
    cases h
    rfl
  | d :: ds, s, h => by
    obtain ⟨b, c, pool, ptrPool, -, -, h⟩ := forkDescriptors_cases h
    rw [forkDescriptors_others hp h, descriptors_granted, if_neg hp]

theorem newborn_others (ha : s.Alloc p) (hg : s.pcbPool.get = some (q, pool)) :
    p ≠ q ∧ ((newborn s q pool).pcbs p).descriptors = (s.pcbs p).descriptors := by
  have hp : p ≠ q := fun he => Pool.not_used_get hg (he ▸ ha)
  exact ⟨hp, by simp [newborn, hp]⟩

/-- `openResource` adds a descriptor at most. -/
theorem opens_descriptors (ho : Opens s r s') (hd : d ∈ (s.pcbs p).descriptors) :
    d ∈ (s'.pcbs p).descriptors := by
  rcases ho with hq | ⟨b, pool, -, hq⟩ | ⟨b, c, pool, ptrPool, -, -, hq⟩
  · rwa [hq.descriptors]
  · rwa [hq.descriptors]
  · rw [hq.descriptors]
    have h1 : ((opened s r b c pool ptrPool).pcbs p).descriptors = ((granted s s.running r
        (s.pcbs s.running).lastFd b c pool ptrPool).pcbs p).descriptors := by
      by_cases hp : p = s.running <;> simp [opened, hp]
    rw [h1, descriptors_granted]
    split
    · rename_i hp
      exact List.mem_append_left _ (hp ▸ hd)
    · exact hd

theorem open_descriptors (hs : internalOpenResource s = .ok s')
    (hd : d ∈ (s.pcbs p).descriptors) : d ∈ (s'.pcbs p).descriptors := by
  rcases open_cases hs with ⟨-, hq | ⟨x, -, ho⟩⟩ | ⟨-, i, pool, hg, hq | ho⟩
  · rwa [hq.descriptors]
  · exact opens_descriptors ho hd
  · rwa [hq.descriptors]
  · exact opens_descriptors ho hd

/-- `closeResource` removes a descriptor of its caller with the number that it is given. -/
theorem close_descriptors (hs : internalCloseResource s = .ok s')
    (hn : s.running = p → (s.pcbs p).syscallArgs 0 ≠ d.fd) (hd : d ∈ (s.pcbs p).descriptors) :
    d ∈ (s'.pcbs p).descriptors := by
  rcases close_cases hs with ⟨-, hq⟩ | ⟨d', hfind, -, hq⟩
  · rwa [hq.descriptors]
  · rw [hq.descriptors, descriptors_dropped]
    split
    · rename_i hp
      subst hp
      have hfd : d'.fd = (s.pcbs s.running).syscallArgs 0 := by
        simpa using List.find?_some hfind
      have hne : d ≠ d' := fun he => hn rfl (he ▸ hfd.symm)
      exact (List.mem_erase_of_ne hne).2 hd
    · exact hd

theorem destroy_descriptors (hs : internalDestroyResource s = .ok s') :
    (s'.pcbs p).descriptors = (s.pcbs p).descriptors := by
  rcases destroy_cases hs with ⟨-, hq⟩ | ⟨x, s₁, s₂, -, hdet, hf, hq⟩
  · exact hq.descriptors p
  · rw [hq.descriptors, (detachResource_pcbs hdet hf).1]

/-- A process keeps its descriptors while it does not give them up. -/
theorem step_descriptors (h : Sane s) (he : e.OffQueues) (hu : s.Uses p d)
    (hn : ¬ GivesUp p d.fd s e) (hs : step s e = .ok s') : d ∈ (s'.pcbs p).descriptors := by
  by_cases ht : e.Touches
  · obtain ⟨c, rfl⟩ := ht.syscall
    have hu₀ := Untouched.saveCall s c
    have hd : d ∈ ((saveCall s c).pcbs p).descriptors := hu₀.descriptors p ▸ hu.mem
    have ha : (saveCall s c).Alloc p := hu.alloc
    cases c with
    | fork =>
      rcases fork_untouched ((step_syscall rfl).symm.trans hs) with
        ⟨-, h1, -⟩ | ⟨q, pool, s₁, s₂, hg, h1, -, hf, h2, -⟩
      · rwa [h1.descriptors]
      · obtain ⟨hp, hb⟩ := newborn_others ha hg
        rwa [h2.descriptors, forkDescriptors_others hp hf, h1.descriptors, hb]
    | spawn _ _ =>
      rcases spawn_untouched ((step_syscall rfl).symm.trans hs) with
        ⟨h1, -⟩ | ⟨q, pool, hg, h1, -⟩
      · rwa [h1.descriptors]
      · rwa [h1.descriptors, (newborn_others ha hg).2]
    | openResource _ _ _ => exact open_descriptors ((step_syscall rfl).symm.trans hs) hd
    | closeResource fd =>
      refine close_descriptors ((step_syscall rfl).symm.trans hs) (fun hp hfd => hn ?_) hd
      have hp : s.running = p := hp
      refine ⟨hp, ?_⟩
      rw [← hfd, ← hp, saveCall_args]
      rfl
    | destroyResource _ => rwa [destroy_descriptors ((step_syscall rfl).symm.trans hs)]
    | exit v =>
      have hp : p ≠ s.running := fun he => hn he.symm
      obtain ⟨parent, -, ⟨-, h1, -⟩ | ⟨-, s₁, s₂, h1, -, hrel, h2, -⟩⟩ :=
        exit_untouched ((step_syscall rfl).symm.trans hs) (exit_num s v)
      · rwa [h1.descriptors]
      · rwa [h2.descriptors, releaseDescriptors_others hp hrel, h1.descriptors]
    | mqCreate _ _ => exact he.elim
    | mqDestroy _ => exact he.elim
    | _ => exact absurd ht id
  · rw [(step_untouched h ht hs).descriptors]
    exact hu.mem

/-- It does not exit either. -/
theorem step_uses (h : Sane s) (he : e.OffQueues) (hu : s.Uses p d) (hn : ¬ GivesUp p d.fd s e)
    (hs : step s e = .ok s') : s'.Uses p d where
  alloc := by
    by_contra hf
    obtain hz | ⟨hp, v, rfl⟩ := step_freed h hs hu.alloc hf
    · exact hu.alive hz
    · exact hn hp.symm
  alive hz := by
    obtain ⟨-, ⟨hz, -⟩ | ⟨hp, he⟩⟩ := step_zombie hs hz
    · exact hu.alive hz
    · rw [he] at hn
      exact hn hp.symm
  mem := step_descriptors h he hu hn hs

/-! ## Runs -/

theorem Held.counted (h : Held s) (hd : s.Holds p d) : 0 < (s.resource d.resource).refCount := by
  have hm := h.linked hd
  rw [h.count (h.listed hd)]
  exact Int.natCast_pos.2 (List.length_pos_of_mem hm)

/-- **A descriptor stays good** until its process closes its number or exits, after any calls but
those on queues: the resource is on the list, is what it was, and cannot be destroyed. -/
theorem descriptor_stays (he : ∀ e ∈ es, e.OffQueues) (hr : run step boot es = .ok s)
    (hu : s.Uses p d) (he' : ∀ e ∈ es', e.OffQueues)
    (hn : Along step (fun s e => ¬ GivesUp p d.fd s e) s es') (hr' : run step s es' = .ok s') :
    s'.Uses p d ∧ d.resource ∈ s'.resourcesList ∧ SameEntry d.resource s s' ∧
      0 < (s'.resource d.resource).refCount := by
  have h := run_inv (I := fun s' => (Sane s' ∧ Held s') ∧ s'.Uses p d ∧
      SameEntry d.resource s s') (A := Event.OffQueues)
    (fun u e u' ⟨⟨hs, hh⟩, hu, hd⟩ he hn hstep =>
      ⟨⟨(step_steps hs hstep).sane, step_held hs hh he hstep⟩, step_uses hs he hu hn hstep,
        hd.trans (step_sameEntry hs he (hh.listed ⟨hu.alloc, hu.mem⟩) hstep)⟩)
    ⟨run_held he hr, hu, .of_eq rfl⟩ he' hn hr'
  obtain ⟨⟨-, hh⟩, hu', hd⟩ := h
  have hholds : s'.Holds p d := ⟨hu'.alloc, hu'.mem⟩
  exact ⟨hu', hh.listed hholds, hd, hh.counted hholds⟩

/-- The child of a process with the descriptor 0 opens the resource too, closes it, cannot destroy it,
and exits; then the process forks. -/
def lentRun : List Event :=
  [.syscall (.spawn 0 0), .syscall (.wait 0 0), .syscall (.openResource 5 resourceGeneric 0),
    .syscall (.closeResource 0), .syscall (.destroyResource 5), .syscall (.exit 3), .syscall .fork]

def lent : Descriptor := ⟨0, 0, .generic 0, 0, 0⟩

theorem descriptor_stays_lent : ∃ s s',
    run step boot [.syscall (.openResource 5 resourceGeneric 1)] = .ok s ∧ s.Uses 0 lent ∧
    run step s lentRun = .ok s' ∧ s'.Uses 0 lent ∧ .generic 0 ∈ s'.resourcesList ∧
    SameEntry (.generic 0) s s' ∧ 0 < (s'.resource (.generic 0)).refCount := by
  have hc : (run step boot [.syscall (.openResource 5 resourceGeneric 1)]).toOption.any (fun s =>
      (s.Alloc 0 ∧ (s.pcbs 0).status ≠ .zombie ∧ lent ∈ (s.pcbs 0).descriptors ∧
        Along step (fun s e => ¬ GivesUp 0 lent.fd s e) s lentRun) ∧
      (run step s lentRun).toOption.any (fun _ => true)) = true := by
    decide +kernel
  obtain ⟨s, hr, hc⟩ := run_check hc
  obtain ⟨⟨ha, hz, hm, hn⟩, hc⟩ := of_decide_eq_true hc
  obtain ⟨s', hr', -⟩ := run_check hc
  have hu : s.Uses 0 lent := ⟨ha, hz, hm⟩
  exact ⟨s, s', hr, hu, hr', descriptor_stays (by decide) hr hu (by decide) hn hr'⟩

end

end DisastrOS
