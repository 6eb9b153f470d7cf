import DisastrOS.Proof.Untouched

/-!
# Ids of resources

`openResource` refuses to create a resource under an id that is on the list, `mq_create` only under
the id of a queue. Ids are unique throughout a run, and every queue is found under its id, exactly
if no queue is created under the id of another resource (`uniqueIds_iff`).
-/

namespace DisastrOS

open Lib State

section
variable {s s' s₁ s₂ : State} {r : ResourceRef} {q : QueueRef} {p : PcbRef} {n : Int} {e : Event}
  {es : List Event}

/-- No two entries of the list have the same id. -/
def UniqueIds (s : State) : Prop := (s.resourcesList.map fun r => (s.resource r).id).Nodup

/-- Ids are unique, and every queue on the list is the one that its id finds. -/
def IdsName (s : State) : Prop :=
  UniqueIds s ∧ ∀ q, .queue q ∈ s.resourcesList → Found s q

/-- The event creates a queue under the id of another resource. -/
def Duplicates (s : State) : Event → Prop
  | .syscall (.mqCreate id size) => CreatesQueue s id size ∧ resourceListById s id ≠ none
  | _ => False

instance (s : State) (id size : Int) : Decidable (CreatesQueue s id size) :=
  inferInstanceAs (Decidable (_ ∧ _ ∧ _))

instance (s : State) : DecidablePred (Duplicates s)
  | .syscall (.mqCreate id size) =>
    inferInstanceAs (Decidable (CreatesQueue s id size ∧ resourceListById s id ≠ none))
  | .syscall .preempt | .syscall .fork | .syscall (.wait ..) | .syscall (.exit _)
  | .syscall (.spawn ..) | .syscall (.sleep _) | .syscall (.openResource ..)
  | .syscall (.closeResource _) | .syscall (.destroyResource _) | .syscall (.mqSend ..)
  | .syscall (.mqReceive ..) | .syscall (.mqDestroy _) | .syscall .shutdown | .tick | .store .. =>
    isFalse id

/-- No entries are added, and those that are left keep their ids and types. -/
structure Thins (s s' : State) : Prop where
  list : s'.resourcesList.Sublist s.resourcesList
  id : ∀ r, (s'.resource r).id = (s.resource r).id
  type : ∀ r, (s'.resource r).type = (s.resource r).type
  queueId : ∀ q, (s'.queues q).queueId = (s.queues q).queueId

namespace Thins

theorem trans (h : Thins s s₁) (h' : Thins s₁ s') : Thins s s' :=
  ⟨h'.list.trans h.list, fun r => (h'.id r).trans (h.id r), fun r => (h'.type r).trans (h.type r),
    fun q => (h'.queueId q).trans (h.queueId q)⟩

theorem keeps (h : Keeps s s') : Thins s s' := ⟨by rw [h.list], h.id, h.type, h.queueId⟩

/-- Only the list and the pools change. -/
theorem sublist (hl : s'.resourcesList.Sublist s.resourcesList) (hr : s'.resources = s.resources)
    (hq : s'.queues = s.queues) : Thins s s' := by
  have h : ∀ r, s'.resource r = s.resource r := fun r => by
    cases r with
    | generic i => exact congrFun hr i
    | queue q => exact congrArg MessageQueue.resource (congrFun hq q)
  exact ⟨hl, fun r => by rw [h], fun r => by rw [h], fun q => by rw [hq]⟩

theorem untouched (h : Untouched s s') : Thins s s' := keeps h.keeps

theorem detachResource (h : detachResource s r = .ok s') : Thins s s' := by
  obtain ⟨-, rfl⟩ := detachResource_cases h
  exact sublist List.erase_sublist rfl rfl

theorem resourceFree (h : resourceFree s r = .ok s') : Thins s s' := by
  obtain ⟨-, ⟨i, -, rfl⟩ | ⟨q, -, rfl⟩⟩ := resourceFree_cases h
  · exact sublist (.refl _) rfl rfl
  · exact sublist (.refl _) rfl rfl

theorem messageQueueFree (h : messageQueueFree s q = .ok s') : Thins s s' := by
  obtain ⟨-, -, rfl⟩ := messageQueueFree_cases h
  exact sublist (.refl _) rfl rfl

theorem releaseDescriptors : ∀ {ds : List Descriptor} {s : State},
    releaseDescriptors p ds s = .ok s' → Thins s s'
  | [], _, h => by
    cases h
    exact keeps (.refl _)
  | d :: ds, _, h => by
    obtain ⟨-, ⟨-, s₁, s₂, hd, hf, h⟩ | ⟨-, h⟩⟩ := releaseDescriptors_cases h
    · exact (keeps .dropped).trans ((detachResource hd).trans ((resourceFree hf).trans
        (releaseDescriptors h)))
    · exact (keeps .dropped).trans (releaseDescriptors h)

end Thins

theorem UniqueIds.thins (h : UniqueIds s) (ht : Thins s s') : UniqueIds s' := by
  unfold UniqueIds
  simp only [ht.id]
  exact h.sublist (ht.list.map _)

theorem byId_eq_none : resourceListById s n = none ↔
    ∀ r ∈ s.resourcesList, (s.resource r).id ≠ n := by
  simp [resourceListById]

/-- A new entry keeps the ids unique iff its id was not on the list. -/
theorem UniqueIds.append (h : UniqueIds s) (hl : s'.resourcesList = s.resourcesList ++ [r])
    (hid : ∀ x ∈ s.resourcesList, (s'.resource x).id = (s.resource x).id) :
    UniqueIds s' ↔ resourceListById s (s'.resource r).id = none := by
  have hmap : s'.resourcesList.map (fun x => (s'.resource x).id) =
      s.resourcesList.map (fun x => (s.resource x).id) ++ [(s'.resource r).id] := by
    rw [hl, List.map_append, List.map_congr_left hid]
    rfl
  unfold UniqueIds at h ⊢
  rw [hmap, List.nodup_append_comm, List.singleton_append, List.nodup_cons, byId_eq_none]
  constructor
  · intro hn x hx he
    exact hn.1 (he ▸ List.mem_map_of_mem hx)
  · intro hn
    refine ⟨fun hm => ?_, h⟩
    obtain ⟨x, hx, he⟩ := List.mem_map.1 hm
    exact hn x hx he

/-- If ids are unique, the lookup of a queue's id can only find that queue. -/
theorem UniqueIds.idsName (h : UniqueIds s) (hl : Listed s) : IdsName s :=
  ⟨h, fun _ hq => (find?_key_eq_some h).2 ⟨hq, hl.id hq⟩⟩

/-! ## Steps and runs -/

theorem open_uniqueIds (h : UniqueIds s) (hl : Listed s) (hs : internalOpenResource s = .ok s') :
    UniqueIds s' := by
  rcases open_cases hs with ⟨-, hq | ⟨r, -, ho⟩⟩ | ⟨hc, i, pool, hg, hor⟩
  · exact h.thins (.keeps (.quiet hq))
  · exact h.thins (.keeps (.opens ho))
  · have hnew := (hl.create ((s.pcbs s.running).syscallArgs 0)
      ((s.pcbs s.running).syscallArgs 1) hg).2
    have h1 : UniqueIds (resourceCreated s i pool ((s.pcbs s.running).syscallArgs 0)
        ((s.pcbs s.running).syscallArgs 1)) := by
      refine (h.append rfl fun x hx => ?_).2 ?_
      · have hne : x ≠ .generic i := fun e => hnew (e ▸ hx)
        rw [resource_resourceCreated, if_neg hne]
      · rw [resource_resourceCreated, if_pos rfl]
        exact hc.2.1
    rcases hor with hq | ho
    · exact h1.thins (.keeps (.quiet hq))
    · exact h1.thins (.keeps (.opens ho))

/-- `mq_create` keeps ids unique iff it does not create a queue under an id of the list. -/
theorem mqCreate_uniqueIds (h : UniqueIds s) (hl : Listed s) (hs : internalMqCreate s = .ok s') :
    UniqueIds s' ↔ ¬ (CreatesQueue s ((s.pcbs s.running).syscallArgs 0)
        ((s.pcbs s.running).syscallArgs 1) ∧
      resourceListById s ((s.pcbs s.running).syscallArgs 0) ≠ none) := by
  rcases mqCreate_cases hs with ⟨hc, hq⟩ | ⟨hc, q, pool, hg, hq⟩
  · exact ⟨fun _ hd => hc hd.1, fun _ => h.thins (.keeps (.quiet hq))⟩
  · have hnew := (hl.createQueue ((s.pcbs s.running).syscallArgs 0)
      ((s.pcbs s.running).syscallArgs 1) hg).2
    have h1 : UniqueIds s' ↔ UniqueIds (queueCreated s q pool ((s.pcbs s.running).syscallArgs 0)
        ((s.pcbs s.running).syscallArgs 1)) := by
      unfold UniqueIds
      simp only [hq.resourcesList, hq.resource]
    have hold : ∀ x ∈ s.resourcesList, ((queueCreated s q pool ((s.pcbs s.running).syscallArgs 0)
        ((s.pcbs s.running).syscallArgs 1)).resource x).id = (s.resource x).id := fun x hx => by
      have hne : x ≠ .queue q := fun e => hnew (e ▸ hx)
      rw [resource_queueCreated, if_neg hne]
    rw [h1, h.append rfl hold, resource_queueCreated, if_pos rfl]
    exact ⟨fun hn hd => hd.2 hn, fun hn => not_not.1 fun hne => hn ⟨hc, hne⟩⟩

theorem mqDestroy_thins (hs : internalMqDestroy s = .ok s') : Thins s s' := by
  rcases mqDestroy_untouched hs with hu | ⟨q, s₁, s₂, s₃, -, hu₁, hd, hf, hu₂⟩
  · exact .untouched hu
  · exact (Thins.untouched hu₁).trans ((Thins.detachResource hd).trans
      ((Thins.messageQueueFree hf).trans (.untouched hu₂)))

theorem destroy_thins (hs : internalDestroyResource s = .ok s') : Thins s s' := by
  rcases destroy_cases hs with ⟨-, hq⟩ | ⟨r, s₁, s₂, -, hd, hf, hq⟩
  · exact .keeps (.quiet hq)
  · exact (Thins.detachResource hd).trans ((Thins.resourceFree hf).trans (.keeps (.quiet hq)))

theorem exit_thins (hs : internalExit s = .ok s')
    (hn : (s.pcbs s.running).syscallNum ≠ dsosCallWait) : Thins s s' := by
  obtain ⟨parent, -, ⟨-, hu, -⟩ | ⟨-, s₁, s₂, hu₁, -, hrel, hu₂, -⟩⟩ := exit_untouched hs hn
  · exact .untouched hu
  · exact (Thins.untouched hu₁).trans ((Thins.releaseDescriptors hrel).trans (.untouched hu₂))

/-- The calls other than `mq_create` add no entry under an id of the list. -/
theorem step_uniqueIds (h : Sane s) (hi : UniqueIds s) (hs : step s e = .ok s') :
    UniqueIds s' ↔ ¬ Duplicates s e := by
  by_cases he : e.Touches
  · obtain ⟨c, rfl⟩ := he.syscall
    have h0 : Thins s (saveCall s c) := .untouched (.saveCall s c)
    have hi0 := hi.thins h0
    have hl0 := (h.saveCall c).listed
    cases c with
    | fork => exact iff_of_true (hi0.thins (.keeps (fork_keeps ((step_syscall rfl).symm.trans hs)))) id
    | spawn _ _ =>
      exact iff_of_true (hi0.thins (.keeps (spawn_keeps ((step_syscall rfl).symm.trans hs)))) id
    | exit v =>
      exact iff_of_true (hi0.thins (exit_thins ((step_syscall rfl).symm.trans hs)
        (exit_num s v))) id
    | closeResource _ =>
      exact iff_of_true (hi0.thins (.keeps (close_keeps ((step_syscall rfl).symm.trans hs)))) id
    | destroyResource _ =>
      exact iff_of_true (hi0.thins (destroy_thins ((step_syscall rfl).symm.trans hs))) id
    | mqDestroy _ =>
      exact iff_of_true (hi0.thins (mqDestroy_thins ((step_syscall rfl).symm.trans hs))) id
    | openResource _ _ _ =>
      exact iff_of_true (open_uniqueIds hi0 hl0 ((step_syscall rfl).symm.trans hs)) id
    | mqCreate n size =>
      have h1 := mqCreate_uniqueIds hi0 hl0 ((step_syscall rfl).symm.trans hs)
      rw [saveCall_running, saveCall_args, saveCall_args] at h1
      exact h1
    | _ => exact absurd he id
  · refine iff_of_true (hi.thins (.untouched (step_untouched h he hs))) fun hd => he ?_
    cases e with
    | syscall c =>
      cases c with
      | mqCreate _ _ => trivial
      | _ => exact hd.elim
    | _ => exact hd.elim

theorem boot_uniqueIds : UniqueIds boot := by
  obtain ⟨pool, -, he⟩ := boot_eq
  rw [he]
  exact .nil

/-- **Resource ids are unique**, and a queue is found under its id, throughout a run exactly if no
`mq_create` of the run creates a queue under the id of another resource. -/
theorem uniqueIds_iff (hr : run step boot es = .ok s) :
    Always step IdsName boot es ↔ Along step (fun s e => ¬ Duplicates s e) boot es :=
  always_iff_along (I := fun s => Sane s ∧ UniqueIds s) (A := fun _ => True)
    (fun _ h => h.2.idsName h.1.listed)
    (fun _ _ _ h _ hn hs => ⟨(step_steps h.1 hs).sane, (step_uniqueIds h.1 h.2 hs).2 hn⟩)
    (fun _ _ _ h _ hd hs hi => hd ((step_uniqueIds h.1 h.2 hs).1 hi.1))
    ⟨boot_sane, boot_uniqueIds⟩ (fun _ _ => trivial) hr

/-- A resource of another type and then a queue are created under the same id. -/
def duplicatingRun : List Event :=
  [.syscall (.openResource 5 resourceGeneric 1), .syscall (.mqCreate 5 1)]

theorem duplicatingRun_not_idsName : ∃ s, run step boot duplicatingRun = .ok s ∧
    (s.pcbs s.running).syscallRetvalue = 5 ∧ ¬ IdsName s := by
  have hc : (run step boot duplicatingRun).toOption.any (fun s =>
      (s.pcbs s.running).syscallRetvalue = 5 ∧
        ¬ (s.resourcesList.map fun r => (s.resource r).id).Nodup) = true := by decide +kernel
  obtain ⟨s, hr, hc⟩ := run_check hc
  obtain ⟨h1, h2⟩ := of_decide_eq_true hc
  exact ⟨s, hr, h1, fun hi => h2 hi.1⟩

/-- Queues and other resources come and go under different ids. -/
def namingRun : List Event :=
  [.syscall (.mqCreate 5 1), .syscall (.openResource 6 resourceGeneric 1),
    .syscall (.mqCreate 7 2), .syscall (.mqDestroy 5), .syscall (.mqCreate 5 1)]

theorem uniqueIds_namingRun : Always step IdsName boot namingRun := by
  have hc : (run step boot namingRun).toOption.any (fun _ => true) = true := by decide +kernel
  obtain ⟨s, hr, -⟩ := run_check hc
  exact (uniqueIds_iff hr).2 (by decide +kernel)

end

end DisastrOS
