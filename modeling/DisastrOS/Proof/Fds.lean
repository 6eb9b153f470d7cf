import DisastrOS.Proof.Descriptors

/-!
# File descriptors

`openResource` numbers the descriptors of a process with its `last_fd`, so that their numbers are
distinct and below it. `fork` copies the numbers of the parent's descriptors into a child whose
`last_fd` is 0: the numbers stay unique throughout a run exactly if no process with descriptors forks
(`fdsUnique_iff`).
-/

namespace DisastrOS

open Lib State

/-- The numbers of a process's descriptors are distinct and below its `last_fd`; so each of them
finds its descriptor. -/
structure FdsUnique (s : State) : Prop where
  nodup : ∀ p, s.Alloc p → ((s.pcbs p).descriptors.map (·.fd)).Nodup
  bound : ∀ p, s.Alloc p → ∀ d ∈ (s.pcbs p).descriptors, d.fd < (s.pcbs p).lastFd
  byFd : ∀ p, s.Alloc p → ∀ d ∈ (s.pcbs p).descriptors,
    descriptorListByFd (s.pcbs p).descriptors d.fd = some d

/-- A successful `openResource` adds the one descriptor with the number that it returns, and
`closeResource` removes the one with its number. -/
def ClosesOpened (s : State) : Event → Prop
  | .syscall (.openResource id type mode) => Leads step (fun s s' =>
      0 ≤ (s'.pcbs s.running).syscallRetvalue → ∃ d, d.fd = (s'.pcbs s.running).syscallRetvalue ∧
        (s'.pcbs s.running).descriptors = (s.pcbs s.running).descriptors ++ [d] ∧
        ∀ d' ∈ (s.pcbs s.running).descriptors, d'.fd ≠ d.fd)
      s (.syscall (.openResource id type mode))
  | .syscall (.closeResource fd) => Leads step (fun s s' =>
      ∀ d ∈ (s.pcbs s.running).descriptors, d.fd = fd →
        (s'.pcbs s.running).descriptors = (s.pcbs s.running).descriptors.erase d ∧
        ∀ d' ∈ (s.pcbs s.running).descriptors, d'.fd = fd → d' = d)
      s (.syscall (.closeResource fd))
  | _ => True

/-- The event is a successful `fork` of a process with descriptors. -/
def CopiesFds (s : State) : Event → Prop
  | .syscall .fork => s.pcbPool.free ≠ [] ∧ (s.pcbs s.running).descriptors ≠ []
  | _ => False

instance (s : State) : DecidablePred (CopiesFds s)
  | .syscall .fork =>
    inferInstanceAs (Decidable (s.pcbPool.free ≠ [] ∧ (s.pcbs s.running).descriptors ≠ []))
  | .syscall .preempt | .syscall (.wait ..) | .syscall (.exit _) | .syscall (.spawn ..)
  | .syscall (.sleep _) | .syscall (.openResource ..) | .syscall (.closeResource _)
  | .syscall (.destroyResource _) | .syscall (.mqCreate ..) | .syscall (.mqSend ..)
  | .syscall (.mqReceive ..) | .syscall (.mqDestroy _) | .syscall .shutdown | .tick | .store .. =>
    isFalse id

/-- The invariant, of all blocks. -/
structure Numbered (s : State) : Prop where
  nodup : ∀ p, ((s.pcbs p).descriptors.map (·.fd)).Nodup
  bound : ∀ p, ∀ d ∈ (s.pcbs p).descriptors, 0 ≤ d.fd ∧ d.fd < (s.pcbs p).lastFd
  lastFd : ∀ p, 0 ≤ (s.pcbs p).lastFd

/-- No process gets a descriptor. -/
structure Sheds (s s' : State) : Prop where
  descriptors : ∀ p, (s'.pcbs p).descriptors.Sublist (s.pcbs p).descriptors
  lastFd : ∀ p, (s'.pcbs p).lastFd = (s.pcbs p).lastFd

section
variable {s s' s₁ s₂ : State} {p q : PcbRef} {r : ResourceRef} {d : Descriptor}
  {ds : List Descriptor} {fd : Int} {b c : Nat} {pool ptrPool : Pool} {e : Event} {es : List Event}

namespace Sheds

theorem refl (s : State) : Sheds s s := ⟨fun _ => .refl _, fun _ => rfl⟩

theorem trans (h : Sheds s s₁) (h' : Sheds s₁ s') : Sheds s s' :=
  ⟨fun p => (h'.descriptors p).trans (h.descriptors p), fun p => (h'.lastFd p).trans (h.lastFd p)⟩

theorem untouched (h : Untouched s s') : Sheds s s' :=
  ⟨fun p => by rw [h.descriptors], h.lastFd⟩

theorem pcbs (h : s'.pcbs = s.pcbs) : Sheds s s' :=
  ⟨fun p => by rw [h], fun p => by rw [h]⟩

theorem dropped (h : ds.Sublist (s.pcbs p).descriptors) : Sheds s (dropped s p d ds) := by
  refine ⟨fun q => ?_, fun q => ?_⟩
  · rw [descriptors_dropped]
    split
    · rename_i hq
      exact hq ▸ h
    · exact .refl _
  · by_cases hq : q = p <;> simp [DisastrOS.dropped, decRefCount, hq]

theorem detachResource (h : detachResource s r = .ok s') : Sheds s s' := by
  obtain ⟨-, rfl⟩ := detachResource_cases h
  exact pcbs rfl

theorem resourceFree (h : resourceFree s r = .ok s') : Sheds s s' := by
  obtain ⟨-, ⟨i, -, rfl⟩ | ⟨q, -, rfl⟩⟩ := resourceFree_cases h
  exacts [pcbs rfl, refl s']

theorem releaseDescriptors : ∀ {ds : List Descriptor} {s : State},
    ds.Sublist (s.pcbs p).descriptors → releaseDescriptors p ds s = .ok s' → Sheds s s'
  | [], _, _, h => by
    cases h
    exact refl _
  | d :: ds, s, hds, h => by
    have h1 : Sheds s (DisastrOS.dropped s p d ds) := dropped ((List.sublist_cons_self d ds).trans hds)
    have hds1 : ds.Sublist ((DisastrOS.dropped s p d ds).pcbs p).descriptors := by
      rw [descriptors_dropped, if_pos rfl]
    obtain ⟨-, ⟨-, s₁, s₂, hd, hf, h⟩ | ⟨-, h⟩⟩ := releaseDescriptors_cases h
    · have hpcbs := (detachResource_pcbs hd hf).1
      rw [← hpcbs] at hds1
      exact h1.trans ((pcbs hpcbs).trans (releaseDescriptors hds1 h))
    · exact h1.trans (releaseDescriptors hds1 h)

theorem close (hs : internalCloseResource s = .ok s') : Sheds s s' := by
  rcases close_cases hs with ⟨-, hq⟩ | ⟨d, -, -, hq⟩
  · exact untouched (.quiet hq)
  · exact (dropped List.erase_sublist).trans (untouched (.quiet hq))

theorem destroy (hs : internalDestroyResource s = .ok s') : Sheds s s' := by
  rcases destroy_cases hs with ⟨-, hq⟩ | ⟨r, s₁, s₂, -, hd, hf, hq⟩
  · exact untouched (.quiet hq)
  · exact (detachResource hd).trans ((resourceFree hf).trans (untouched (.quiet hq)))

theorem exit (hn : (s.pcbs s.running).syscallNum ≠ dsosCallWait) (hs : internalExit s = .ok s') :
    Sheds s s' := by
  obtain ⟨parent, -, ⟨-, hu, -⟩ | ⟨-, s₁, s₂, hu₁, -, hrel, hu₂, -⟩⟩ := exit_untouched hs hn
  · exact untouched hu
  · refine (untouched hu₁).trans ((releaseDescriptors ?_ hrel).trans (untouched hu₂))
    rw [hu₁.descriptors]

theorem mqCreate (hs : internalMqCreate s = .ok s') : Sheds s s' := by
  rcases mqCreate_cases hs with ⟨-, hq⟩ | ⟨-, q, pool, -, hq⟩
  · exact untouched (.quiet hq)
  · have hc : Sheds s (queueCreated s q pool ((s.pcbs s.running).syscallArgs 0)
        ((s.pcbs s.running).syscallArgs 1)) := pcbs rfl
    exact hc.trans (untouched (.quiet hq))

theorem mqDestroy (hs : internalMqDestroy s = .ok s') : Sheds s s' := by
  rcases mqDestroy_untouched hs with hu | ⟨q, s₁, s₂, s₃, -, hu₁, hd, hf, hu₂⟩
  · exact untouched hu
  · have hfree : Sheds s₂ s₃ := by
      obtain ⟨-, -, rfl⟩ := messageQueueFree_cases hf
      exact pcbs rfl
    exact (untouched hu₁).trans ((detachResource hd).trans (hfree.trans (untouched hu₂)))

end Sheds

namespace Numbered

theorem sheds (h : Numbered s) (hs : Sheds s s') : Numbered s' where
  nodup p := (h.nodup p).sublist ((hs.descriptors p).map _)
  bound p d hd := by
    rw [hs.lastFd]
    exact h.bound p d ((hs.descriptors p).subset hd)
  lastFd p := by
    rw [hs.lastFd]
    exact h.lastFd p

theorem newborn (h : Numbered s) : Numbered (newborn s p pool) := by
  refine ⟨fun q => ?_, fun q d hd => ?_, fun q => ?_⟩
  · by_cases hq : q = p
    · simp [DisastrOS.newborn, hq]
    · simpa [DisastrOS.newborn, hq] using h.nodup q
  · by_cases hq : q = p
    · simp [DisastrOS.newborn, hq] at hd
    · simp only [DisastrOS.newborn, if_neg hq] at hd ⊢
      exact h.bound q d hd
  · by_cases hq : q = p
    · simp [DisastrOS.newborn, hq]
    · simpa [DisastrOS.newborn, hq] using h.lastFd q

/-- A number finds its descriptor. -/
theorem byFd (h : Numbered s) (hd : d ∈ (s.pcbs p).descriptors) :
    descriptorListByFd (s.pcbs p).descriptors d.fd = some d :=
  (find?_key_eq_some (h.nodup p)).2 ⟨hd, rfl⟩

theorem opened (h : Numbered s) : Numbered (opened s r b c pool ptrPool) := by
  have hds : ∀ q, ((DisastrOS.opened s r b c pool ptrPool).pcbs q).descriptors =
      if q = s.running then (s.pcbs q).descriptors ++ [⟨b, s.running, r, (s.pcbs q).lastFd, c⟩]
      else (s.pcbs q).descriptors := by
    intro q
    have h1 : ((granted s s.running r (s.pcbs s.running).lastFd b c pool ptrPool).pcbs
        q).descriptors = _ := descriptors_granted
    by_cases hq : q = s.running
    · subst hq
      simpa [DisastrOS.opened] using h1
    · simpa [DisastrOS.opened, hq] using h1
  have hlast : ∀ q, ((DisastrOS.opened s r b c pool ptrPool).pcbs q).lastFd =
      if q = s.running then (s.pcbs q).lastFd + 1 else (s.pcbs q).lastFd := by
    intro q
    by_cases hq : q = s.running <;> simp [DisastrOS.opened, DisastrOS.granted, linkDescriptor, hq]
  refine ⟨fun q => ?_, fun q d hd => ?_, fun q => ?_⟩
  · rw [hds]
    split
    · rw [List.map_append]
      refine nodup_snoc (fun hm => ?_) (h.nodup q)
      obtain ⟨d, hd, he⟩ := List.mem_map.1 hm
      have hlt := (h.bound q d hd).2
      have he : d.fd = (s.pcbs q).lastFd := he
      omega
    · exact h.nodup q
  · have hpos := h.lastFd q
    rw [hds] at hd
    rw [hlast]
    by_cases hq : q = s.running
    · rw [if_pos hq, List.mem_append, List.mem_singleton] at hd
      rw [if_pos hq]
      rcases hd with hd | rfl
      · have := h.bound q d hd
        omega
      · show 0 ≤ (s.pcbs q).lastFd ∧ (s.pcbs q).lastFd < (s.pcbs q).lastFd + 1
        omega
    · rw [if_neg hq] at hd ⊢
      exact h.bound q d hd
  · have := h.lastFd q
    rw [hlast]
    split <;> omega

end Numbered

/-! ## Calls that give descriptors -/

theorem spawn_numbered (h : Numbered s) (hs : internalSpawn s = .ok s') : Numbered s' := by
  rcases spawn_untouched hs with ⟨hu, -⟩ | ⟨p, pool, -, hu, -⟩
  · exact h.sheds (.untouched hu)
  · exact h.newborn.sheds (.untouched hu)

theorem Numbered.opens (h : Numbered s) (ho : Opens s r s') : Numbered s' := by
  rcases ho with hq | ⟨b, pool, -, hq⟩ | ⟨b, c, pool, ptrPool, -, -, hq⟩
  · exact h.sheds (.untouched (.quiet hq))
  · have h1 : Sheds s { s with descriptorPool := pool.release b } := .pcbs rfl
    exact h.sheds (h1.trans (.untouched (.quiet hq)))
  · exact h.opened.sheds (.untouched (.quiet hq))

theorem open_numbered (h : Numbered s) (hs : internalOpenResource s = .ok s') : Numbered s' := by
  have hc : ∀ i pool id type, Sheds s (resourceCreated s i pool id type) := fun _ _ _ _ => .pcbs rfl
  rcases open_cases hs with ⟨-, hq | ⟨r, -, ho⟩⟩ | ⟨-, i, pool, -, hq | ho⟩
  · exact h.sheds (.untouched (.quiet hq))
  · exact h.opens ho
  · exact h.sheds ((hc i pool _ _).trans (.untouched (.quiet hq)))
  · exact (h.sheds (hc i pool _ _)).opens ho

/-- The child gets the numbers of its parent's descriptors, and its `last_fd` stays as it is. -/
theorem forkDescriptors_fds : ∀ {ds : List Descriptor} {s : State},
    forkDescriptors p ds s = .ok s' →
    (s'.pcbs p).descriptors.map (·.fd) = (s.pcbs p).descriptors.map (·.fd) ++ ds.map (·.fd) ∧
      (s'.pcbs p).lastFd = (s.pcbs p).lastFd
  | [], _, h => by
    cases h
    simp
  | d :: ds, s, h => by
    obtain ⟨b, c, pool, ptrPool, -, -, h⟩ := forkDescriptors_cases h
    obtain ⟨h1, h2⟩ := forkDescriptors_fds h
    refine ⟨?_, h2.trans (by simp [granted, linkDescriptor])⟩
    rw [h1, descriptors_granted, if_pos rfl]
    simp

/-- A `fork` keeps the numbers unique iff it fails or there is nothing to copy. -/
theorem fork_numbered (h : Numbered s) (hok : s.pcbPool.Ok) (ha : s.Alloc s.running)
    (hs : internalFork s = .ok s') :
    (¬ (s.pcbPool.free ≠ [] ∧ (s.pcbs s.running).descriptors ≠ []) → Numbered s') ∧
    (s.pcbPool.free ≠ [] ∧ (s.pcbs s.running).descriptors ≠ [] → ¬ FdsUnique s') := by
  rcases fork_untouched hs with ⟨hg, hu, -⟩ | ⟨p, pool, s₁, s₂, hg, hu₁, hp₁, hd, hu₂, hp₂⟩
  · exact ⟨fun _ => h.sheds (.untouched hu), fun hc => absurd (Pool.get_eq_none.1 hg) hc.1⟩
  · have hfree : s.pcbPool.free ≠ [] := fun e => by
      rw [Pool.get_eq_none.2 e] at hg
      cases hg
    have hne : s.running ≠ p := fun e => Pool.not_used_get hg (e ▸ ha)
    have hds : (s₁.pcbs s.running).descriptors = (s.pcbs s.running).descriptors := by
      rw [hu₁.descriptors]
      simp [newborn, hne]
    rw [hds] at hd
    refine ⟨fun hn => ?_, fun hc hf => ?_⟩
    · have hnil : (s.pcbs s.running).descriptors = [] := not_not.1 fun hne => hn ⟨hfree, hne⟩
      rw [hnil] at hd
      cases hd
      exact h.newborn.sheds ((Sheds.untouched hu₁).trans (.untouched hu₂))
    · obtain ⟨d, hm⟩ := List.exists_mem_of_ne_nil _ hc.2
      obtain ⟨h1, h2⟩ := forkDescriptors_fds hd
      have hfd : d.fd ∈ (s'.pcbs p).descriptors.map (·.fd) := by
        rw [hu₂.descriptors, h1]
        exact List.mem_append_right _ (List.mem_map_of_mem hm)
      obtain ⟨d', hd', he⟩ := List.mem_map.1 hfd
      have hap : s'.Alloc p := by
        unfold State.Alloc
        rw [hp₂, (Still.forkDescriptors hd).pcbPool, hp₁]
        exact (hok.used_get hg).2 (.inl rfl)
      have hlast : (s'.pcbs p).lastFd = 0 := by
        rw [hu₂.lastFd, h2, hu₁.lastFd]
        simp [newborn]
      have hlt := hf.bound p hap d' hd'
      have hpos := (h.bound s.running d hm).1
      have he : d'.fd = d.fd := he
      omega

/-! ## What the two calls do -/

/-- The answer of `openResource` is an error, or the number of the descriptor that it adds. -/
theorem open_returns (hs : internalOpenResource s = .ok s') :
    (s'.pcbs s.running).syscallRetvalue < 0 ∨ ∃ d, d.fd = (s'.pcbs s.running).syscallRetvalue ∧
      d.fd = (s.pcbs s.running).lastFd ∧
      (s'.pcbs s.running).descriptors = (s.pcbs s.running).descriptors ++ [d] := by
  have key : ∀ {t found type mode}, t.pcbs = s.pcbs →
      internalOpenResource.openDescriptor t s.running found type mode = .ok s' →
      (s'.pcbs s.running).syscallRetvalue < 0 ∨ ∃ d, d.fd = (s'.pcbs s.running).syscallRetvalue ∧
        d.fd = (s.pcbs s.running).lastFd ∧
        (s'.pcbs s.running).descriptors = (s.pcbs s.running).descriptors ++ [d] := by
    intro t found type mode hp h
    unfold internalOpenResource.openDescriptor at h
    split at h
    · cases h
      exact .inl (by simp)
    rename_i r
    split at h
    · cases h
      exact .inl (by simp)
    split at h
    · cases h
      exact .inl (by simp)
    split at h
    · cases h
      exact .inl (by simp)
    rename_i des t₁ hd
    unfold descriptorAlloc at hd
    split at hd <;> cases hd
    rename_i b pool _
    split at h
    · cases h
      exact .inl (by simp)
    rename_i dp t₂ hdp
    unfold descriptorPtrAlloc at hdp
    split at hdp <;> cases hdp
    rename_i c ptrPool _
    cases h
    refine .inr ⟨⟨b, s.running, r, (t.pcbs s.running).lastFd, c⟩, by simp, by rw [hp], ?_⟩
    simp [linkDescriptor, hp]
  unfold internalOpenResource at hs
  dsimp only at hs
  split at hs
  · split at hs
    · cases hs
      exact .inl (by simp)
    split at hs
    · cases hs
      exact .inl (by simp)
    rename_i r t ha
    refine key (t := { t with resourcesList := t.resourcesList ++ [r] }) ?_ hs
    unfold resourceAlloc at ha
    split at ha <;> cases ha
    rfl
  · exact key rfl hs

/-- `closeResource` of the number of a descriptor removes that descriptor. -/
theorem close_removes (h : Numbered s) (hd : d ∈ (s.pcbs s.running).descriptors)
    (hfd : (s.pcbs s.running).syscallArgs 0 = d.fd) (hs : internalCloseResource s = .ok s') :
    (s'.pcbs s.running).descriptors = (s.pcbs s.running).descriptors.erase d := by
  have hfind := h.byFd hd
  rcases close_cases hs with ⟨hnone, -⟩ | ⟨d', hd', -, hq⟩
  · rw [hfd, hfind] at hnone
    cases hnone
  · rw [hfd, hfind] at hd'
    cases hd'
    rw [hq.descriptors, descriptors_dropped, if_pos rfl]

/-! ## Steps and runs -/

/-- A step keeps the numbers unique unless it copies some, and then they are not. -/
theorem step_numbered (h : Sane s) (hn : Numbered s) (hs : step s e = .ok s') :
    (¬ CopiesFds s e → Numbered s') ∧ (CopiesFds s e → ¬ FdsUnique s') := by
  by_cases he : e.Touches
  · obtain ⟨c, rfl⟩ := he.syscall
    have h0 := h.saveCall c
    have hn0 := hn.sheds (.untouched (.saveCall s c))
    have key : Sheds (saveCall s c) s' → Numbered s' := hn0.sheds
    cases c with
    | fork =>
      have h1 := fork_numbered hn0 h0.table.pool h0.alloc ((step_syscall rfl).symm.trans hs)
      rw [(Untouched.saveCall s .fork).descriptors] at h1
      exact h1
    | spawn _ _ =>
      exact ⟨fun _ => spawn_numbered hn0 ((step_syscall rfl).symm.trans hs), False.elim⟩
    | openResource _ _ _ =>
      exact ⟨fun _ => open_numbered hn0 ((step_syscall rfl).symm.trans hs), False.elim⟩
    | closeResource _ =>
      exact ⟨fun _ => key (.close ((step_syscall rfl).symm.trans hs)), False.elim⟩
    | destroyResource _ =>
      exact ⟨fun _ => key (.destroy ((step_syscall rfl).symm.trans hs)), False.elim⟩
    | exit v =>
      exact ⟨fun _ => key (.exit (exit_num s v) ((step_syscall rfl).symm.trans hs)), False.elim⟩
    | mqCreate _ _ =>
      exact ⟨fun _ => key (.mqCreate ((step_syscall rfl).symm.trans hs)), False.elim⟩
    | mqDestroy _ =>
      exact ⟨fun _ => key (.mqDestroy ((step_syscall rfl).symm.trans hs)), False.elim⟩
    | _ => exact absurd he id
  · refine ⟨fun _ => hn.sheds (.untouched (step_untouched h he hs)), fun hc => absurd ?_ he⟩
    cases e with
    | syscall c =>
      cases c with
      | fork => trivial
      | _ => exact hc.elim
    | _ => exact hc.elim

theorem Numbered.closesOpened (h : Numbered s) : ClosesOpened s e := by
  match e with
  | .syscall (.openResource id type mode) =>
    intro s' hs hpos
    have hu := Untouched.saveCall s (.openResource id type mode)
    rcases open_returns ((step_syscall rfl).symm.trans hs) with hneg | ⟨d, h1, h2, h3⟩
    · rw [saveCall_running] at hneg
      omega
    · rw [saveCall_running] at h1 h2 h3
      rw [hu.descriptors] at h3
      rw [hu.lastFd] at h2
      refine ⟨d, h1, h3, fun d' hd' he => ?_⟩
      have := (h.bound s.running d' hd').2
      omega
  | .syscall (.closeResource fd) =>
    intro s' hs d hd hfd
    have hu := Untouched.saveCall s (.closeResource fd)
    refine ⟨?_, fun d' hd' he => List.inj_on_of_nodup_map (h.nodup _) hd' hd (he.trans hfd.symm)⟩
    have h1 := close_removes (d := d) (h.sheds (.untouched hu)) (by rw [hu.descriptors]; exact hd)
      ((saveCall_args s _ 0).trans hfd.symm) ((step_syscall rfl).symm.trans hs)
    rw [saveCall_running, hu.descriptors] at h1
    exact h1
  | .syscall .preempt | .syscall .fork | .syscall (.wait ..) | .syscall (.exit _)
  | .syscall (.spawn ..) | .syscall (.sleep _) | .syscall (.destroyResource _)
  | .syscall (.mqCreate ..) | .syscall (.mqSend ..) | .syscall (.mqReceive ..)
  | .syscall (.mqDestroy _) | .syscall .shutdown | .tick | .store .. => trivial

theorem Numbered.fdsUnique (h : Numbered s) : FdsUnique s :=
  ⟨fun p _ => h.nodup p, fun p _ d hd => (h.bound p d hd).2, fun _ _ _ hd => h.byFd hd⟩

theorem boot_fds : Numbered boot := by
  obtain ⟨pool, -, he⟩ := boot_eq
  have h : ∀ p, (boot.pcbs p).descriptors = [] ∧ (boot.pcbs p).lastFd = 0 := fun p => by
    rw [he]
    by_cases hp : p = 0 <;> simp [booted, initProcess, hp]
  refine ⟨fun p => ?_, fun p d hd => ?_, fun p => (h p).2.ge⟩
  · rw [(h p).1]
    exact .nil
  · rw [(h p).1] at hd
    cases hd

/-- **File descriptors are unique** throughout a run, and `closeResource` closes what `openResource`
has opened under a number, exactly if no process with descriptors forks in the run. -/
theorem fdsUnique_iff (hr : run step boot es = .ok s) :
    Always step FdsUnique boot es ∧ Along step ClosesOpened boot es ↔
      Along step (fun s e => ¬ CopiesFds s e) boot es := by
  have h0 : Sane boot ∧ Numbered boot := ⟨boot_sane, boot_fds⟩
  have hstep : ∀ s e s', Sane s ∧ Numbered s → ¬ CopiesFds s e → step s e = .ok s' →
      Sane s' ∧ Numbered s' := fun s e s' h hn hs =>
    ⟨(step_steps h.1 hs).sane, (step_numbered h.1 h.2 hs).1 hn⟩
  have hiff := always_iff_along (P := FdsUnique) (I := fun s => Sane s ∧ Numbered s)
    (A := fun _ => True) (C := fun s e => ¬ CopiesFds s e) (fun _ h => h.2.fdsUnique)
    (fun s e s' h _ hn hs => hstep s e s' h hn hs)
    (fun _ _ _ h _ hn hs => (step_numbered h.1 h.2 hs).2 (not_not.1 hn)) h0 (fun _ _ => trivial) hr
  exact ⟨fun h => hiff.1 h.1, fun h => ⟨hiff.2 h,
    Along.mono_inv h (fun _ _ hi _ => hi.2.closesOpened) hstep h0⟩⟩

/-- A process forks with a descriptor. -/
def copyingRun : List Event :=
  [.syscall (.openResource 5 resourceGeneric 1), .syscall .fork]

/-- Its child, process 1, has a descriptor with the number that it would give to the next one. -/
theorem copyingRun_not_fdsUnique : ∃ s, run step boot copyingRun = .ok s ∧ ¬ FdsUnique s ∧
    s.Alloc 1 ∧ (s.pcbs 1).descriptors.map (·.fd) = [0] ∧ (s.pcbs 1).lastFd = 0 := by
  have hc : (run step boot copyingRun).toOption.any (fun s =>
      s.Alloc 1 ∧ (s.pcbs 1).descriptors.map (·.fd) = [0] ∧ (s.pcbs 1).lastFd = 0) = true := by
    decide +kernel
  obtain ⟨s, hr, hc⟩ := run_check hc
  obtain ⟨h1, h2, h3⟩ := of_decide_eq_true hc
  refine ⟨s, hr, fun hf => ?_, h1, h2, h3⟩
  obtain ⟨d, hd, hfd⟩ := List.mem_map.1 (h2 ▸ List.mem_singleton_self (0 : Int))
  have hlt := hf.bound 1 h1 d hd
  rw [hfd, h3] at hlt
  exact absurd hlt (lt_irrefl 0)

/-- Two processes open and close, and one that has closed its descriptors forks. -/
def numberingRun : List Event :=
  [.syscall (.spawn 0 0), .syscall (.openResource 5 resourceGeneric 1),
    .syscall (.openResource 6 resourceGeneric 1), .syscall .preempt,
    .syscall (.openResource 5 resourceGeneric 0), .syscall (.closeResource 0), .syscall .fork]

theorem fdsUnique_numberingRun : Always step FdsUnique boot numberingRun ∧
    Along step ClosesOpened boot numberingRun := by
  have hc : (run step boot numberingRun).toOption.any (fun _ => true) = true := by decide +kernel
  obtain ⟨s, hr, -⟩ := run_check hc
  exact (fdsUnique_iff hr).2 (by decide +kernel)

end

end DisastrOS
