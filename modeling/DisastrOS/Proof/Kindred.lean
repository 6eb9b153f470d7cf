import DisastrOS.Proof.Sane

/-!
# What leaves the process family alone

`State.kin` is the family of a state in which a zombie need not be on the zombie list, as after the
exit of a stalled process. `Kindred s s'` says that nothing happens to it, but that zombies may be
woken: true of all calls except `spawn`, `fork`, the exits and a `wait` that reaps.
-/

namespace DisastrOS

open Lib State

/-- The family, with the zombies that their status tells. -/
def State.kin (s : State) : Family :=
  { s.family with
    zombie := fun p => s.Alloc p ∧ (s.pcbs p).status = .zombie, asleep := fun _ => none }

/-- The family is left alone, and nobody becomes a zombie. -/
structure Kindred (s s' : State) : Prop where
  initPcb : s'.initPcb = s.initPcb
  lastPid : s'.lastPid = s.lastPid
  pcbPool : s'.pcbPool = s.pcbPool
  pid : ∀ p, (s'.pcbs p).pid = (s.pcbs p).pid
  parent : ∀ p, (s'.pcbs p).parent = (s.pcbs p).parent
  children : ∀ p, (s'.pcbs p).children = (s.pcbs p).children
  zombie : ∀ p, (s'.pcbs p).status = .zombie → (s.pcbs p).status = .zombie

section
variable {s s' s'' : State} {L : PcbList} {p q : PcbRef} {ps : List PcbRef} {m : Message}

namespace Kindred

theorem refl (s : State) : Kindred s s :=
  ⟨rfl, rfl, rfl, fun _ => rfl, fun _ => rfl, fun _ => rfl, fun _ => id⟩

theorem trans (h : Kindred s s') (h' : Kindred s' s'') : Kindred s s'' where
  initPcb := h'.initPcb.trans h.initPcb
  lastPid := h'.lastPid.trans h.lastPid
  pcbPool := h'.pcbPool.trans h.pcbPool
  pid p := (h'.pid p).trans (h.pid p)
  parent p := (h'.parent p).trans (h.parent p)
  children p := (h'.children p).trans (h.children p)
  zombie p hp := h.zombie p (h'.zombie p hp)

theorem wf (h : Kindred s s') (hw : s.kin.Wf) : s'.kin.Wf := by
  have ha : ∀ p, s'.Alloc p ↔ s.Alloc p := fun p => by unfold State.Alloc; rw [h.pcbPool]
  apply hw.congr h.initPcb ha (funext h.parent) _ (funext h.pid) h.lastPid
  · intro p hp
    exact ⟨(ha p).1 hp.1, h.zombie p hp.2⟩
  · funext p
    show (s'.pcbs p).children.map _ = _
    rw [h.children]
    rfl

/-! ## Single operations -/

/-- The PCBs do not change. -/
theorem same (hi : s'.initPcb = s.initPcb) (hl : s'.lastPid = s.lastPid)
    (hp : s'.pcbPool = s.pcbPool) (hs : s'.pcbs = s.pcbs) : Kindred s s' :=
  ⟨hi, hl, hp, fun p => by rw [hs], fun p => by rw [hs], fun p => by rw [hs],
    fun p => by rw [hs]; exact id⟩

/-- Something else changes as well. -/
theorem congr (h : Kindred s s'') (hi : s'.initPcb = s''.initPcb) (hl : s'.lastPid = s''.lastPid)
    (hp : s'.pcbPool = s''.pcbPool) (hs : s'.pcbs = s''.pcbs) : Kindred s s' :=
  h.trans (same hi hl hp hs)

theorem setStatus (s : State) (p : PcbRef) {st : ProcessStatus} (h : st ≠ .zombie) :
    Kindred s (s.setStatus p st) := by
  refine ⟨rfl, rfl, rfl, ?_, ?_, ?_, fun q => ?_⟩
  · simp
  · simp
  · simp
  · by_cases hq : q = p <;> simp [hq, h]

theorem setTimer (s : State) (p : PcbRef) (t : Option Nat) : Kindred s (s.setTimer p t) := by
  refine ⟨rfl, rfl, rfl, ?_, ?_, ?_, ?_⟩ <;> simp

theorem setDescriptors (s : State) (p : PcbRef) (ds : List Descriptor) :
    Kindred s (s.setDescriptors p ds) := by
  refine ⟨rfl, rfl, rfl, ?_, ?_, ?_, ?_⟩ <;> simp

theorem setRetvalue (s : State) (p : PcbRef) (r : Int) : Kindred s (s.setRetvalue p r) := by
  refine ⟨rfl, rfl, rfl, ?_, ?_, ?_, ?_⟩ <;> simp

theorem signal (s : State) (p : PcbRef) (sig : BitVec 32) : Kindred s (s.signal p sig) := by
  refine ⟨rfl, rfl, rfl, ?_, ?_, ?_, ?_⟩ <;> simp

theorem saveCall (s : State) (c : Syscall) : Kindred s (saveCall s c) := by
  refine ⟨rfl, rfl, rfl, ?_, ?_, ?_, ?_⟩ <;> simp [DisastrOS.saveCall]

theorem setList (s : State) (L : PcbList) (ps : List PcbRef) : Kindred s (s.setList L ps) :=
  same setList_initPcb setList_lastPid setList_pcbPool setList_pcbs

theorem updResource (s : State) (r : ResourceRef) (f : Resource → Resource) :
    Kindred s (s.updResource r f) := by
  cases r <;> exact same rfl rfl rfl rfl

theorem setRunning (s : State) (p : PcbRef) : Kindred s (s.setRunning p) := same rfl rfl rfl rfl

theorem listInsert (h : s.listInsert L p ps = .ok s') : Kindred s s' := by
  rcases listInsert_cases h with rfl | rfl
  · exact refl _
  · exact setList _ L ps

theorem listDetach (h : s.listDetach L p = .ok s') : Kindred s s' := by
  obtain ⟨-, rfl⟩ := listDetach_cases h
  exact setList _ _ _

theorem listDetachFirst (h : s.listDetachFirst L = .ok (p, s')) : Kindred s s' := by
  obtain ⟨ps, -, rfl⟩ := listDetachFirst_cases h
  exact setList s L ps

theorem linkDescriptor (s : State) (p : PcbRef) (d : Descriptor) (dp : DescriptorPtr) :
    Kindred s (linkDescriptor s p d dp) := by
  unfold DisastrOS.linkDescriptor
  apply Kindred.trans ?_ (updResource _ _ _)
  exact setDescriptors s p _

theorem nextFd (s : State) (p : PcbRef) :
    Kindred s (s.updPcb p fun pcb => { pcb with lastFd := pcb.lastFd + 1 }) := by
  refine ⟨rfl, rfl, rfl, ?_, ?_, ?_, ?_⟩ <;> simp

theorem storeResult (s : State) (result v : Int) : Kindred s (storeResult s result v) := by
  obtain ⟨mem, hm⟩ := storeResult_eq s result v
  rw [hm]
  exact same rfl rfl rfl rfl

theorem detachResource {r : ResourceRef} (h : detachResource s r = .ok s') : Kindred s s' := by
  unfold DisastrOS.detachResource at h
  split at h <;> cases h
  exact same rfl rfl rfl rfl

theorem resourceFree {r : ResourceRef} (h : resourceFree s r = .ok s') : Kindred s s' := by
  unfold DisastrOS.resourceFree at h
  split at h
  · cases h
  · cases r <;> cases h <;> exact same rfl rfl rfl rfl

theorem detachDescriptorPtr {d : Descriptor} (h : detachDescriptorPtr s d = .ok s') :
    Kindred s s' := by
  unfold DisastrOS.detachDescriptorPtr at h
  split at h <;> cases h
  exact updResource _ _ _

/-! ## Scheduling -/

theorem wakeTimers (ts : List TimerItem) : ∀ {prev : Option PcbRef} {s : State},
    wakeTimers ts prev s = .ok s' → Kindred s s' := by
  induction ts with
  | nil =>
    intro prev s h
    cases h
    exact refl _
  | cons t ts ih =>
    intro prev s h
    rw [DisastrOS.wakeTimers] at h
    split at h
    · obtain ⟨s₁, h₁, h⟩ := bind_eq_ok.1 h
      obtain ⟨s₂, h₂, h⟩ := bind_eq_ok.1 h
      have h3 := (setStatus s₁ t.pcb (by decide : ProcessStatus.ready ≠ .zombie)).trans
        (setTimer _ t.pcb none)
      have h4 : Kindred s₂ (timerListRemoveCurrent s₂ t) := same rfl rfl rfl rfl
      exact (listDetach h₁).trans (h3.trans ((listInsert h₂).trans (h4.trans (ih h))))
    · cases h
      exact refl _

theorem dispatch (h : dispatch s = .ok s') : Kindred s s' := by
  unfold DisastrOS.dispatch at h
  split at h
  · cases h
    exact refl _
  obtain ⟨⟨next, s₁⟩, h₁, h⟩ := bind_eq_ok.1 h
  have hrun : ∀ u, Kindred u ((u.setStatus next .running).setRunning next) := fun u =>
    (setStatus u next (by simp)).trans (setRunning _ next)
  apply (listDetachFirst h₁).trans
  dsimp only at h
  split at h
  · obtain ⟨s₂, h₂, h⟩ := bind_eq_ok.1 h
    cases h
    exact (setStatus s₁ _ (by simp)).trans ((listInsert h₂).trans (hrun s₂))
  · cases h
    exact hrun s₁

theorem schedule (h : internalSchedule s = .ok s') : Kindred s s' := by
  obtain ⟨s₁, h₁, h⟩ := bind_eq_ok.1 h
  exact (wakeTimers _ h₁).trans (dispatch h)

/-! ## Queues -/

theorem record (s : State) (a : Act) : Kindred s (s.record a) := same rfl rfl rfl rfl

theorem pushMessage (s : State) (q : QueueRef) (m : Message) : Kindred s (pushMessage s q m) :=
  same rfl rfl rfl rfl

theorem popMessage (h : popMessage s q p = .ok (m, s')) : Kindred s s' := by
  unfold DisastrOS.popMessage at h
  split at h <;> cases h
  exact same rfl rfl rfl rfl

theorem messageAlloc {size : Int} (h : messageAlloc s size = some (m, s')) : Kindred s s' := by
  unfold DisastrOS.messageAlloc at h
  split at h
  · cases h
  · split at h <;> cases h
    exact same rfl rfl rfl rfl

theorem messageFree (s : State) (m : Message) : Kindred s (messageFree s m) :=
  same rfl rfl rfl rfl

theorem deliver (s : State) (p : PcbRef) (buffer : Int) (m : Message) :
    Kindred s (deliver s p buffer m) := same rfl rfl rfl rfl

theorem setMqStatus (s : State) (q : QueueRef) (st : MQStatus) : Kindred s (setMqStatus s q st) :=
  same rfl rfl rfl rfl

/-- A process is made ready. -/
theorem makeReady (h : (s.setStatus p .ready).listInsert L q ps = .ok s') : Kindred s s' :=
  (setStatus s p (by simp)).trans (listInsert h)

theorem handOff (h : handOff s q = .ok s') : Kindred s s' := by
  unfold DisastrOS.handOff at h
  obtain ⟨⟨p, s₁⟩, h₁, h⟩ := bind_eq_ok.1 h
  obtain ⟨⟨m, s₂⟩, h₂, h⟩ := bind_eq_ok.1 h
  apply (listDetachFirst h₁).trans ((popMessage h₂).trans (Kindred.trans ?_ (makeReady h)))
  split
  · exact (setRetvalue s₂ p _).trans (messageFree _ m)
  · exact (deliver s₂ p _ m).trans ((setRetvalue _ p _).trans (messageFree _ m))

theorem mqSendEnqueue {buffer size : Int} (h : mqSendEnqueue s p q buffer size = .ok s') :
    Kindred s s' := by
  unfold DisastrOS.mqSendEnqueue at h
  split at h
  · cases h
    exact (record s _).trans (setRetvalue _ p _)
  · rename_i m s₁ hm
    apply (messageAlloc hm).trans ((pushMessage s₁ q (m.fill s₁ p buffer)).trans _)
    dsimp only at h
    split at h
    · obtain ⟨s₂, h₂, h⟩ := bind_eq_ok.1 h
      cases h
      exact (handOff h₂).trans (setRetvalue s₂ p 0)
    · cases h
      exact setRetvalue _ p 0

theorem completeSend (h : completeSend s q = .ok s') : Kindred s s' := by
  unfold DisastrOS.completeSend at h
  obtain ⟨⟨p, s₁⟩, h₁, h⟩ := bind_eq_ok.1 h
  apply (listDetachFirst h₁).trans (Kindred.trans ?_ (makeReady h))
  split
  · exact (record s₁ _).trans (setRetvalue _ p _)
  · split
    · exact (record s₁ _).trans (setRetvalue _ p _)
    · rename_i hm
      exact (messageAlloc hm).trans ((pushMessage _ q _).trans (setRetvalue _ p 0))

theorem mqReceiveTake {buffer size : Int} (h : mqReceiveTake s p q buffer size = .ok s') :
    Kindred s s' := by
  unfold DisastrOS.mqReceiveTake at h
  obtain ⟨⟨m, s₁⟩, h₁, h⟩ := bind_eq_ok.1 h
  apply (popMessage h₁).trans
  dsimp only at h
  split at h
  · cases h
    exact (messageFree s₁ m).trans (setRetvalue _ p _)
  · apply (deliver s₁ p buffer m).trans ((messageFree _ m).trans _)
    split at h
    · obtain ⟨s₃, h₃, h⟩ := bind_eq_ok.1 h
      cases h
      exact (completeSend h₃).trans (setRetvalue s₃ p _)
    · cases h
      exact setRetvalue _ p _

/-- The running process goes to a list, and the scheduler runs. -/
theorem blocks {s₁ : State} (h₁ : (s.setStatus p .waiting).listInsert L q ps = .ok s₁)
    (h : internalSchedule s₁ = .ok s') : Kindred s s' :=
  (setStatus s p (by simp)).trans ((listInsert h₁).trans (schedule h))

/-- It leaves the list again. -/
theorem unblocks (h : s.listDetach L q = .ok s') (r : Int) :
    Kindred s ((s'.setStatus p .running).setRetvalue p r) :=
  (listDetach h).trans ((setStatus s' p (by simp)).trans (setRetvalue _ p r))

theorem mqSend (h : internalMqSend s = .ok s') : Kindred s s' := by
  unfold internalMqSend at h
  dsimp only at h
  split at h
  · cases h
    exact setRetvalue s _ _
  split at h
  · cases h
    exact setRetvalue s _ _
  obtain ⟨found, -, h⟩ := bind_eq_ok.1 h
  cases found with
  | none =>
    cases h
    exact setRetvalue s _ _
  | some q =>
    dsimp only at h
    split at h
    · split at h
      · cases h
        exact setRetvalue s _ _
      obtain ⟨s₁, h₁, h⟩ := bind_eq_ok.1 h
      obtain ⟨s₂, h₂, h⟩ := bind_eq_ok.1 h
      apply (blocks h₁ h₂).trans
      split at h
      · obtain ⟨s₃, h₃, h⟩ := bind_eq_ok.1 h
        cases h
        exact unblocks h₃ _
      split at h
      · cases h
        exact refl _
      split at h
      · cases h
        exact refl _
      · exact mqSendEnqueue h
    · exact mqSendEnqueue h

theorem mqReceive (h : internalMqReceive s = .ok s') : Kindred s s' := by
  unfold internalMqReceive at h
  dsimp only at h
  split at h
  · cases h
    exact setRetvalue s _ _
  split at h
  · cases h
    exact setRetvalue s _ _
  obtain ⟨found, -, h⟩ := bind_eq_ok.1 h
  cases found with
  | none =>
    cases h
    exact setRetvalue s _ _
  | some q =>
    dsimp only at h
    split at h
    · split at h
      · cases h
        exact setRetvalue s _ _
      obtain ⟨s₁, h₁, h⟩ := bind_eq_ok.1 h
      obtain ⟨s₂, h₂, h⟩ := bind_eq_ok.1 h
      apply (blocks h₁ h₂).trans
      split at h
      · obtain ⟨s₃, h₃, h⟩ := bind_eq_ok.1 h
        cases h
        exact unblocks h₃ _
      split at h
      · cases h
        exact refl _
      split at h
      · cases h
        exact refl _
      · exact mqReceiveTake h
    · exact mqReceiveTake h

theorem wakeAll (ps : List PcbRef) : ∀ {s : State}, wakeAll L ps s = .ok s' → Kindred s s' := by
  induction ps with
  | nil =>
    intro s h
    cases h
    exact refl _
  | cons p ps ih =>
    intro s h
    rw [DisastrOS.wakeAll] at h
    obtain ⟨⟨p, s₁⟩, h₁, h⟩ := bind_eq_ok.1 h
    obtain ⟨s₂, h₂, h⟩ := bind_eq_ok.1 h
    have h3 := (setStatus s₁ p (by decide : ProcessStatus.ready ≠ .zombie)).trans
      (setRetvalue _ p dsosEMqNotOpen)
    exact (listDetachFirst h₁).trans (h3.trans ((listInsert h₂).trans (ih h)))

theorem freeMessages (q : QueueRef) (ms : List Message) : ∀ s, Kindred s (freeMessages q ms s) := by
  induction ms with
  | nil => exact refl
  | cons m ms ih =>
    intro s
    apply Kindred.trans ?_ (ih _)
    exact same rfl rfl rfl rfl

theorem mqDestroy (h : internalMqDestroy s = .ok s') : Kindred s s' := by
  unfold internalMqDestroy at h
  dsimp only at h
  split at h
  · cases h
    exact setRetvalue s _ _
  obtain ⟨found, -, h⟩ := bind_eq_ok.1 h
  cases found with
  | none =>
    cases h
    exact setRetvalue s _ _
  | some q =>
    dsimp only at h
    split at h
    · cases h
      exact setRetvalue s _ _
    obtain ⟨s₁, h₁, h⟩ := bind_eq_ok.1 h
    obtain ⟨s₂, h₂, h⟩ := bind_eq_ok.1 h
    obtain ⟨s₃, h₃, h⟩ := bind_eq_ok.1 h
    obtain ⟨s₄, h₄, h⟩ := bind_eq_ok.1 h
    cases h
    have h5 : Kindred s₃ s₄ := by
      unfold messageQueueFree at h₄
      dsimp only at h₄
      split at h₄ <;> cases h₄
      exact same rfl rfl rfl rfl
    have h6 := (freeMessages q (s₂.queues q).messages s₂).trans (setMqStatus _ q .closed)
    apply (setMqStatus s q .closing).trans ((wakeAll _ h₁).trans ((wakeAll _ h₂).trans ?_))
    exact h6.trans ((detachResource h₃).trans (h5.trans ((record s₄ _).trans (setRetvalue _ _ _))))

theorem mqCreate (h : internalMqCreate s = .ok s') : Kindred s s' := by
  unfold internalMqCreate at h
  dsimp only at h
  split at h
  · cases h
    exact setRetvalue s _ _
  split at h
  · cases h
    exact setRetvalue s _ _
  split at h
  · cases h
    exact setRetvalue s _ _
  rename_i q s₁ ha
  cases h
  unfold messageQueueAlloc at ha
  split at ha <;> cases ha
  exact (setRetvalue s s.running _).congr rfl rfl rfl rfl

/-! ## Resources -/

theorem openDescriptor {found : Option ResourceRef} {type mode : Int}
    (h : internalOpenResource.openDescriptor s p found type mode = .ok s') : Kindred s s' := by
  unfold internalOpenResource.openDescriptor at h
  split at h
  · cases h
    exact setRetvalue s _ _
  split at h
  · cases h
    exact setRetvalue s _ _
  split at h
  · cases h
    exact setRetvalue s _ _
  split at h
  · cases h
    exact setRetvalue s _ _
  rename_i d s₁ hd
  unfold descriptorAlloc at hd
  split at hd <;> cases hd
  split at h
  · cases h
    exact (setRetvalue s p _).congr rfl rfl rfl rfl
  rename_i dp s₂ hp
  unfold descriptorPtrAlloc at hp
  split at hp <;> cases hp
  cases h
  apply Kindred.trans ?_ (setRetvalue _ p _)
  apply Kindred.trans ?_ (nextFd _ p)
  apply Kindred.trans ?_ (linkDescriptor _ p _ _)
  exact same rfl rfl rfl rfl

theorem openResource (h : internalOpenResource s = .ok s') : Kindred s s' := by
  unfold internalOpenResource at h
  dsimp only at h
  split at h
  · split at h
    · cases h
      exact setRetvalue s _ _
    split at h
    · cases h
      exact setRetvalue s _ _
    rename_i r s₁ ha
    unfold resourceAlloc at ha
    split at ha <;> cases ha
    apply Kindred.trans ?_ (openDescriptor h)
    exact same rfl rfl rfl rfl
  · exact openDescriptor h

theorem closeResource (h : internalCloseResource s = .ok s') : Kindred s s' := by
  unfold internalCloseResource at h
  dsimp only at h
  split at h
  · cases h
    exact setRetvalue s _ _
  obtain ⟨s₁, h₁, h⟩ := bind_eq_ok.1 h
  split at h
  · cases h
  cases h
  apply (setDescriptors s _ _).trans ((detachDescriptorPtr h₁).trans ?_)
  apply Kindred.trans ?_ (setRetvalue _ _ 0)
  apply Kindred.trans ?_ (updResource _ _ _)
  exact same rfl rfl rfl rfl

theorem destroyResource (h : internalDestroyResource s = .ok s') : Kindred s s' := by
  unfold internalDestroyResource at h
  dsimp only at h
  split at h
  · cases h
    exact setRetvalue s _ _
  split at h
  · cases h
    exact setRetvalue s _ _
  obtain ⟨s₁, h₁, h⟩ := bind_eq_ok.1 h
  obtain ⟨s₂, h₂, h⟩ := bind_eq_ok.1 h
  cases h
  exact (detachResource h₁).trans ((resourceFree h₂).trans (setRetvalue s₂ _ 0))

theorem forkDescriptors (ds : List Descriptor) : ∀ {s : State},
    forkDescriptors p ds s = .ok s' → Kindred s s' := by
  induction ds with
  | nil =>
    intro s h
    cases h
    exact refl _
  | cons d ds ih =>
    intro s h
    obtain ⟨b, c, pool, ptrPool, -, -, h⟩ := forkDescriptors_cases h
    apply Kindred.trans ?_ (ih h)
    unfold granted
    apply Kindred.trans ?_ (linkDescriptor _ p _ _)
    exact same rfl rfl rfl rfl

theorem releaseDescriptors (ds : List Descriptor) : ∀ {s : State},
    releaseDescriptors p ds s = .ok s' → Kindred s s' := by
  induction ds with
  | nil =>
    intro s h
    cases h
    exact refl _
  | cons d ds ih =>
    intro s h
    rw [DisastrOS.releaseDescriptors] at h
    obtain ⟨s₁, h₁, h⟩ := bind_eq_ok.1 h
    apply (setDescriptors s p ds).trans ((detachDescriptorPtr h₁).trans _)
    have hdec : Kindred s₁ (descriptorFree (descriptorPtrFree (decRefCount s₁ d.resource) d.ptr) d) :=
      (updResource s₁ _ _).trans (same rfl rfl rfl rfl)
    apply hdec.trans
    dsimp only at h
    split at h
    · obtain ⟨s₂, h₂, h⟩ := bind_eq_ok.1 h
      obtain ⟨s₃, h₃, h⟩ := bind_eq_ok.1 h
      exact (detachResource h₂).trans ((resourceFree h₃).trans (ih h))
    · exact ih h

/-! ## Sleeping -/

theorem sleep (h : internalSleep s = .ok s') : Kindred s s' := by
  unfold internalSleep at h
  dsimp only at h
  split at h
  · cases h
    exact setRetvalue s _ _
  split at h
  · cases h
    exact setRetvalue s _ _
  rename_i b s₁ ha
  unfold timerListAdd at ha
  split at ha <;> cases ha
  obtain ⟨s₂, h₂, h⟩ := bind_eq_ok.1 h
  apply Kindred.trans ?_ ((listInsert h₂).trans (schedule h))
  apply Kindred.trans ?_ (setTimer _ _ _)
  apply Kindred.trans ?_ (setStatus _ _ (by simp))
  apply Kindred.trans ?_ (setRetvalue _ _ _)
  exact (setTimer s _ _).congr rfl rfl rfl rfl

theorem waitSleep (h : internalWait.waitSleep s p = .ok s') : Kindred s s' := by
  obtain ⟨s₁, h₁, h⟩ := bind_eq_ok.1 h
  obtain ⟨⟨q, s₂⟩, h₂, h⟩ := bind_eq_ok.1 h
  cases h
  apply (setStatus s p (by simp)).trans ((listInsert h₁).trans ((listDetachFirst h₂).trans _))
  exact (setStatus s₂ q (by simp)).trans (setRunning _ q)

end Kindred

end

end DisastrOS
