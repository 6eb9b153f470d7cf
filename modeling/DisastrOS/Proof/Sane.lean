import DisastrOS.Proof.Table
import DisastrOS.Proof.Boot

/-!
# What holds after any run

`Sane s` holds at every return to user code, after any calls whatsoever: the process table and the
list of resources are in order up to what a stalled `sleep` and the calls on foreign objects do, the
running process is on no list or, stalled, on the waiting list, and pids are given out once.
`Steps s s'` adds what happened in between: a block keeps its pid or gets a new one, and nothing
happens to a resting process.
-/

namespace DisastrOS

open Lib State

/-- The running process `p` is on no list, or it is stalled. -/
def State.Runs (s : State) (p : PcbRef) : Prop :=
  s.Unlisted p ∧ (s.pcbs p).status = .running ∨
    p ∈ s.list .waiting ∧ (s.pcbs p).status = .waiting

structure Sane (s : State) : Prop where
  table : Table s [s.running]
  listed : Listed s
  alloc : s.Alloc s.running
  runs : s.Runs s.running
  pids : ∀ p, (s.pcbs p).pid < s.lastPid

structure Steps (s s' : State) : Prop where
  sane : Sane s'
  lastPid : s.lastPid ≤ s'.lastPid
  pid : ∀ p, (s'.pcbs p).pid = (s.pcbs p).pid ∨ s.lastPid ≤ (s'.pcbs p).pid
  rests : ∀ p, Resting s p → (s'.pcbs p).pid = (s.pcbs p).pid ∨
    s.Alloc p ∧ (s.pcbs p).status ≠ .zombie → Rests p s s'
  alloc : ∀ p, Resting s p → s.Alloc p → (s.pcbs p).status ≠ .zombie → s'.Alloc p
  time : s'.time = s.time

section
variable {s s' s₁ s₂ : State} {X : List PcbRef} {L L' : PcbList} {p q r : PcbRef} {c : Syscall}
  {e : Event} {es : List Event}

/-! ## Pieces of a call -/

theorem State.Runs.current (h : s.Runs p) : s.Current p :=
  h.imp id fun ⟨hm, hst⟩ => ⟨⟨_, by simp, hm⟩, by simp [hst]⟩

/-- A process that nothing has happened to runs as it did. -/
theorem State.Runs.rests (h : s.Runs p) (ht : Table s' X) (hr : Rests p s s') : s'.Runs p := by
  rcases h with h | ⟨hw, hst⟩
  · have h1 := State.Current.rests (.inl h) ht hr
    exact .inl (h1.resolve_right fun hn => hn.2 (hr.status.trans h.2))
  · exact .inr ⟨(hr.list .waiting (by simp)).2 hw, hr.status.trans hst⟩

theorem State.Runs.only_waiting (h : s.Runs p) (ht : Table s X) (hm : p ∈ s.list L) :
    L = .waiting := by
  rcases h with ⟨hu, -⟩ | ⟨hw, -⟩
  · exact absurd hm (hu L)
  · exact ht.disj hm hw

namespace Steps

theorem ofShift (h : Sane s) (hsh : Shift s s') (ht : Table s' [s'.running])
    (ha : s'.Alloc s'.running) (hr : s'.Runs s'.running)
    (hrest : ∀ p, Resting s p → Rests p s s') : Steps s s' where
  sane := ⟨ht, h.listed.keeps hsh.toKeeps, ha, hr, fun p => by
    rw [hsh.pid, hsh.lastPid]
    exact h.pids p⟩
  lastPid := hsh.lastPid.ge
  pid p := .inl (hsh.pid p)
  rests p hp _ := hrest p hp
  alloc _ _ ha _ := hsh.alloc.2 ha
  time := hsh.time

/-- Nothing happens to the running process either. -/
theorem ofRests (h : Sane s) (hsh : Shift s s') (ht : Table s' [s.running])
    (hrun : s'.running = s.running) (hrr : Rests s.running s s')
    (hrest : ∀ p, Resting s p → Rests p s s') : Steps s s' := by
  refine ofShift h hsh ?_ ?_ ?_ hrest <;> rw [hrun]
  · exact ht
  · exact hsh.alloc.2 h.alloc
  · exact h.runs.rests ht hrr

theorem ofStill (h : Sane s) (hs : Still s s') (hl : Listed s') : Steps s s' where
  sane := by
    have ht := h.table.still hs
    refine ⟨?_, hl, ?_, ?_, fun p => ?_⟩
    · rw [hs.running]
      exact ht
    · rw [hs.running]
      exact hs.alloc.2 h.alloc
    · rw [hs.running]
      exact h.runs.rests ht (.still hs)
    · rw [hs.pid, hs.lastPid]
      exact h.pids p
  lastPid := hs.lastPid.ge
  pid p := .inl (hs.pid p)
  rests _ _ _ := .still hs
  alloc _ _ ha _ := hs.alloc.2 ha
  time := hs.time

theorem quiet (h : Sane s) (hq : Quiet s s') : Steps s s' :=
  ofStill h (.quiet hq) (h.listed.keeps (.quiet hq))

theorem trans (h : Sane s) (h₁ : Steps s s') (h₂ : Steps s' s₂) : Steps s s₂ where
  sane := h₂.sane
  lastPid := h₁.lastPid.trans h₂.lastPid
  pid p := by
    have := h₁.lastPid
    have h3 := h₁.pid p
    have h4 := h₂.pid p
    omega
  rests p hp hpid := by
    have hlt := h.pids p
    have hlt' := h₁.sane.pids p
    have h3 := h₁.pid p
    have h4 := h₂.pid p
    have h5 := h₁.rests p hp (hpid.imp_left (by omega))
    refine h5.trans (h₂.rests p (hp.rests h5) (hpid.imp (by omega) fun hl => ?_))
    exact ⟨h₁.alloc p hp hl.1 hl.2, h5.status ▸ hl.2⟩
  alloc p hp ha hst := by
    have h5 := h₁.rests p hp (.inr ⟨ha, hst⟩)
    exact h₂.alloc p (hp.rests h5) (h₁.alloc p hp ha hst) (h5.status ▸ hst)
  time := h₂.time.trans h₁.time

end Steps

/-! ## Wake-ups by a call -/

/-- The lists of a queue. -/
def PcbList.OfQueue (L : PcbList) (q : QueueRef) : Prop := L = .receivers q ∨ L = .senders q

theorem PcbList.OfQueue.ne_waiting {L : PcbList} {q : QueueRef} (h : L.OfQueue q) :
    L ≠ .waiting := by
  rcases h with rfl | rfl <;> simp

theorem PcbList.OfQueue.status {L : PcbList} {q : QueueRef} (h : L.OfQueue q) :
    L.status = .waiting := by
  rcases h with rfl | rfl <;> rfl

theorem Resting.not_mem {q : QueueRef} (h : Resting s p) (hL : L.OfQueue q) : p ∉ s.list L := by
  rcases hL with rfl | rfl
  exacts [h.receivers q, h.senders q]

theorem Wakes.steps {q : QueueRef} (hw : Wakes L s s') (h : Sane s) (hL : L.OfQueue q) :
    Steps s s' := by
  obtain ⟨h1, h2, h3, h4⟩ := hw.table h.table
  refine .ofRests h h2 h1 h3 (h4 _ fun hm => ?_) fun p hp => h4 p (hp.not_mem hL)
  exact hL.ne_waiting (h.runs.only_waiting h.table hm)

theorem Serves.steps {q : QueueRef} (hv : Serves L s s') (h : Sane s) (hL : L.OfQueue q) :
    Steps s s' := by
  obtain ⟨s₁, s₂, hq₁, hw, hq₂⟩ := hv
  have h1 := Steps.quiet h hq₁
  rcases hw with rfl | hw
  · exact h1.trans h (.quiet h1.sane hq₂)
  · have h2 := hw.steps h1.sane hL
    exact h1.trans h (h2.trans h1.sane (.quiet h2.sane hq₂))

theorem wakeAll_steps {q : QueueRef} (hL : L.OfQueue q) : ∀ {ps : List PcbRef} {s : State},
    Sane s → wakeAll L ps s = .ok s' → Steps s s'
  | [], _, h, hw => by
    cases hw
    exact .quiet h (.refl _)
  | _ :: _, _, h, hw => by
    obtain ⟨s₁, h₁, hw⟩ := wakeAll_cases hw
    have h1 := h₁.steps h hL
    exact h1.trans h (wakeAll_steps hL h1.sane hw)

/-! ## Blocking -/

/-- The status of a caller that is going to wait. -/
theorem Sane.setWaiting (h : Sane s) : Table (s.setStatus s.running .waiting) [s.running] ∧
    ((s.setStatus s.running .waiting).Unlisted s.running ∨
      s.running ∈ (s.setStatus s.running .waiting).list .waiting) := by
  rcases h.runs with ⟨hu, -⟩ | ⟨hw, hst⟩
  · exact ⟨h.table.setStatus hu _, .inl (Table.unlisted_setStatus.2 hu)⟩
  · have heq : s.setStatus s.running .waiting = s := by
      rw [← hst]
      exact setStatus_same
    rw [heq]
    exact ⟨h.table, .inr hw⟩

/-- A waiting process goes to a list, unless it is stalled. -/
theorem Table.block (h : Table s [r]) (ha : s.Alloc r) (hst : (s.pcbs r).status = .waiting)
    (hr : s.Unlisted r ∨ r ∈ s.list .waiting) (hL : L.status = .waiting)
    (hq : ∀ q, L.OfQueue q → s.queuePool.Used q) (hi : s.listInsertLast L r = .ok s') :
    Table s' [] ∧ Shift s s' ∧ s'.running = s.running ∧ (s'.pcbs r).status = .waiting ∧
      (r ∈ s'.list L ∨ r ∈ s'.list .waiting) ∧ ∀ p, r ≠ p → Rests p s s' := by
  have hsh := Shift.listInsert hi
  rcases h.surveyed.listInsert_cases hi with ⟨⟨L', hm⟩, rfl⟩ | ⟨hu, rfl⟩
  · exact ⟨h.drop hm, hsh, rfl, hst, .inr (hr.resolve_left fun hu => hu L' hm),
      fun p _ => .refl p _⟩
  · refine ⟨h.insert hu ha (hst.trans hL.symm) (List.perm_append_singleton _ _) hq, hsh,
      setList_running, by rw [setList_pcbs]; exact hst, .inl ?_, fun p hp => .setList ?_⟩
    · rw [list_setList_self]
      exact List.mem_append_right _ (List.mem_singleton_self _)
    · rw [List.mem_append, List.mem_singleton]
      exact or_iff_left (Ne.symm hp)

/-- A blocked process is on a list. -/
theorem State.Current.blocked (hst : (s.pcbs r).status = .waiting) (hL : L.status = .waiting)
    (hm : r ∈ s.list L ∨ r ∈ s.list .waiting) : s.Current r := by
  refine .inr ⟨?_, by simp [hst]⟩
  rcases hm with hm | hm
  · exact ⟨L, fun e => by simp [e, PcbList.status] at hL, hm⟩
  · exact ⟨_, by simp, hm⟩

/-- A call that blocks its caller on a queue, with the scheduler's answer. -/
theorem Blocks.steps {q : QueueRef} (hb : Blocks L L' s s') (h : Sane s)
    (hq : s.queuePool.Used q) (hL : L.OfQueue q) (hL' : L'.OfQueue q) : Steps s s' := by
  obtain ⟨s₁, s₂, hi, hsch, hb⟩ := hb
  obtain ⟨h0, hr0⟩ := h.setWaiting
  have hsh0 := Shift.setStatus s s.running .waiting
  have hq' : ∀ i, L.OfQueue i → s.queuePool.Used i := fun i hi => by
    rcases hL with rfl | rfl <;> rcases hi with e | e <;> cases e <;> exact hq
  obtain ⟨h1, hsh1, hrun1, hst1, hls1, hrest1⟩ := h0.block (hsh0.alloc.2 h.alloc) (by simp) hr0
    hL.status hq' hi
  have hsh := hsh0.trans hsh1
  have hrests : ∀ p, Resting s p → Rests p s s₁ := fun p hp =>
    (Rests.setStatus hp.running _).trans (hrest1 p hp.running)
  have hrun : s₁.running = s.running := hrun1
  obtain ⟨h2, hsh2, hrest2, hor⟩ := schedule_table (h1.mono (by simp))
    (by rw [hrun]; exact hsh.alloc.2 h.alloc)
    (by rw [hrun]; exact .blocked hst1 hL.status hls1) hsch
  have hrests2 : ∀ p, Resting s p → Rests p s s₂ := fun p hp =>
    (hrests p hp).trans (hrest2 p (hp.rests (hrests p hp)))
  rw [hrun] at hor
  rcases hb with ⟨hne, rfl⟩ | ⟨heq, hst, s₃, hd, hq₃⟩ | ⟨heq, hst, hv⟩
  · rcases hor with ⟨h3, h4, h5⟩ | ⟨h3, -⟩
    · exact .ofShift h (hsh.trans hsh2) h2 h3 (.inl ⟨h4, h5⟩) hrests2
    · exact absurd h3 hne
  · -- nobody can run, and the caller leaves the list again
    obtain ⟨hm, rfl⟩ := listDetach_cases hd
    obtain ⟨h3, hu3⟩ := h2.detach_erase hm
    have h4 := h3.setStatus hu3 .running
    have hrun₃ : s'.running = s.running := by
      rw [hq₃.running, setStatus_running, setList_running, heq]
    have h5 := (h4.still (.quiet hq₃)).mono (Y := [s'.running]) (by simp [hrun₃, heq])
    refine .ofShift h ((hsh.trans hsh2).trans ((Shift.setList _ _ _).trans
      ((Shift.setStatus _ _ _).trans (.quiet hq₃)))) h5 ?_ (.inl ⟨?_, ?_⟩) fun p hp => ?_
    · rw [hrun₃]
      exact ((hsh.trans hsh2).trans ((Shift.setList _ _ _).trans ((Shift.setStatus _ _ _).trans
        (.quiet hq₃)))).alloc.2 h.alloc
    · rw [hrun₃, (Still.quiet hq₃).unlisted, Table.unlisted_setStatus]
      exact hu3
    · rw [hrun₃, hq₃.status]
      simp
    · have hnp := hp.running
      refine (hrests2 p hp).trans ((Rests.setList ?_).trans ((Rests.setStatus hnp _).trans
        (.still (.quiet hq₃))))
      exact List.mem_erase_of_ne (Ne.symm hnp)
  · rcases hor with ⟨h3, h4, h5⟩ | ⟨-, h3⟩
    · have h6 : Steps s s₂ := .ofShift h (hsh.trans hsh2) h2 h3 (.inl ⟨h4, h5⟩) hrests2
      exact h6.trans h (hv.steps h6.sane hL')
    · exact absurd (h3.status.trans hst1) hst

theorem mqSend_steps (h : Sane s) (hs : internalMqSend s = .ok s') : Steps s s' := by
  rcases mqSend_cases hs with hq | ⟨q, hq, hv | hb⟩
  · exact .quiet h hq
  · exact hv.steps h (.inl rfl)
  · exact hb.steps h (h.listed.used_of_lookup hq) (.inr rfl) (.inl rfl)

theorem mqReceive_steps (h : Sane s) (hs : internalMqReceive s = .ok s') : Steps s s' := by
  rcases mqReceive_cases hs with hq | ⟨q, hq, hv | hb⟩
  · exact .quiet h hq
  · exact hv.steps h (.inr rfl)
  · exact hb.steps h (h.listed.used_of_lookup hq) (.inl rfl) (.inr rfl)

/-! ## Calls on resources -/

namespace Still

/-- The processes are the same. -/
theorem same (hr : s'.running = s.running) (ht : s'.time = s.time) (hp : s'.lastPid = s.lastPid)
    (htl : s'.timerList = s.timerList) (hpool : s'.pcbPool = s.pcbPool)
    (hl : ∀ L, s'.list L = s.list L) (hq : s'.queuePool = s.queuePool)
    (hpcb : ∀ p, (s'.pcbs p).status = (s.pcbs p).status ∧
      (s'.pcbs p).syscallNum = (s.pcbs p).syscallNum ∧ (s'.pcbs p).pid = (s.pcbs p).pid) :
    Still s s' :=
  ⟨hr, ht, hp, fun t hm => htl ▸ hm, hpool, hl, fun p => (hpcb p).1, fun p => (hpcb p).2.1,
    fun p => (hpcb p).2.2, fun q => by rw [hq]; exact id, by rw [hq]⟩

theorem updResource {r : ResourceRef} {f : Resource → Resource} : Still s (s.updResource r f) :=
  same (by simp) (by simp) (by simp) (by simp) (by simp) (fun _ => list_updResource) (by simp)
    (by simp)

theorem setDescriptors {ds : List Descriptor} : Still s (s.setDescriptors p ds) :=
  same rfl rfl rfl rfl rfl (fun _ => list_setDescriptors) rfl (by simp)

theorem granted {r : ResourceRef} {fd : Int} {b c : Nat} {pool ptrPool : Pool} :
    Still s (granted s p r fd b c pool ptrPool) := by
  unfold DisastrOS.granted linkDescriptor
  refine trans (trans ?_ setDescriptors) updResource
  exact same rfl rfl rfl rfl rfl (fun L => by cases L <;> rfl) rfl fun _ => ⟨rfl, rfl, rfl⟩

theorem dropped {d : Descriptor} {ds : List Descriptor} : Still s (dropped s p d ds) := by
  have h : Still s (decRefCount ((s.setDescriptors p ds).updResource d.resource fun res =>
      { res with descriptorsPtrs := res.descriptorsPtrs.eraseP (·.block = d.ptr) }) d.resource) :=
    setDescriptors.trans (updResource.trans updResource)
  exact h.trans (same rfl rfl rfl rfl rfl (fun L => by cases L <;> rfl) rfl fun _ => ⟨rfl, rfl, rfl⟩)

theorem opens {r : ResourceRef} (h : Opens s r s') : Still s s' := by
  rcases h with h | ⟨b, pool, -, h⟩ | ⟨b, c, pool, ptrPool, -, -, h⟩
  · exact quiet h
  · refine trans ?_ (quiet h)
    exact same rfl rfl rfl rfl rfl (fun L => by cases L <;> rfl) rfl fun _ => ⟨rfl, rfl, rfl⟩
  · have hg : Still s (DisastrOS.granted s s.running r (s.pcbs s.running).lastFd b c pool ptrPool) :=
      granted
    refine (hg.trans ?_).trans (quiet h)
    exact same rfl rfl rfl rfl rfl (fun L => by cases L <;> rfl) rfl fun _ => by simp [opened]

theorem resourceCreated {i : Nat} {pool : Pool} {id type : Int} :
    Still s (resourceCreated s i pool id type) := by
  refine same rfl rfl rfl rfl rfl (fun L => ?_) rfl fun _ => ⟨rfl, rfl, rfl⟩
  cases L <;> rfl

theorem detachResource {r : ResourceRef} (h : detachResource s r = .ok s') : Still s s' := by
  obtain ⟨-, rfl⟩ := detachResource_cases h
  exact same rfl rfl rfl rfl rfl (fun L => by cases L <;> rfl) rfl fun _ => ⟨rfl, rfl, rfl⟩

theorem resourceFree {r : ResourceRef} (h : resourceFree s r = .ok s') : Still s s' := by
  obtain ⟨-, ⟨i, -, rfl⟩ | ⟨q, -, rfl⟩⟩ := resourceFree_cases h
  · exact same rfl rfl rfl rfl rfl (fun L => by cases L <;> rfl) rfl fun _ => ⟨rfl, rfl, rfl⟩
  · exact refl _

theorem forkDescriptors : ∀ {ds : List Descriptor} {s : State},
    forkDescriptors p ds s = .ok s' → Still s s'
  | [], _, h => by
    cases h
    exact refl _
  | d :: ds, _, h => by
    obtain ⟨b, c, pool, ptrPool, -, -, h⟩ := forkDescriptors_cases h
    exact granted.trans (forkDescriptors h)

theorem releaseDescriptors : ∀ {ds : List Descriptor} {s : State},
    releaseDescriptors p ds s = .ok s' → Still s s'
  | [], _, h => by
    cases h
    exact refl _
  | d :: ds, _, h => by
    obtain ⟨-, ⟨-, s₁, s₂, hd, hf, h⟩ | ⟨-, h⟩⟩ := releaseDescriptors_cases h
    · exact dropped.trans ((detachResource hd).trans ((resourceFree hf).trans
        (releaseDescriptors h)))
    · exact dropped.trans (releaseDescriptors h)

theorem purgeTimers (s : State) (p : PcbRef) : Still s (purgeTimers s p) :=
  ⟨rfl, rfl, rfl, fun _ ht => (List.mem_filter.1 ht).1, rfl, fun L => by cases L <;> rfl,
    fun _ => rfl, fun _ => rfl, fun _ => rfl, fun _ => id, rfl⟩

/-- The new block of a queue has no waiting processes to lose. -/
theorem queueCreated {pool : Pool} {n size : Int} (h : Sane s)
    (hg : s.queuePool.get = some (q, pool)) : Still s (queueCreated s q pool n size) := by
  have hnew : ¬ s.queuePool.Used q := Pool.not_used_get hg
  have hnil : s.list (.receivers q) = [] ∧ s.list (.senders q) = [] :=
    ⟨List.eq_nil_iff_forall_not_mem.2 fun p hp => hnew (h.table.queues (.inl hp)),
      List.eq_nil_iff_forall_not_mem.2 fun p hp => hnew (h.table.queues (.inr hp))⟩
  refine ⟨rfl, rfl, rfl, fun _ => id, rfl, fun L => ?_, fun _ => rfl, fun _ => rfl, fun _ => rfl,
    fun i hi => (h.listed.queuePool.used_get hg).2 (.inr hi), (Pool.get_eq hg).2⟩
  cases L with
  | receivers i =>
    by_cases hi : i = q
    · subst hi
      rw [hnil.1]
      simp [DisastrOS.queueCreated, State.list]
    · simp [DisastrOS.queueCreated, State.list, hi]
  | senders i =>
    by_cases hi : i = q
    · subst hi
      rw [hnil.2]
      simp [DisastrOS.queueCreated, State.list]
    · simp [DisastrOS.queueCreated, State.list, hi]
  | _ => rfl

end Still

theorem open_steps (h : Sane s) (hs : internalOpenResource s = .ok s') : Steps s s' := by
  rcases open_cases hs with ⟨-, hq | ⟨r, -, ho⟩⟩ | ⟨-, i, pool, hg, hq | ho⟩
  · exact .quiet h hq
  · exact .ofStill h (.opens ho) (h.listed.keeps (.opens ho))
  · exact .ofStill h (Still.resourceCreated.trans (.quiet hq))
      ((h.listed.create _ _ hg).1.keeps (.quiet hq))
  · exact .ofStill h (Still.resourceCreated.trans (.opens ho))
      ((h.listed.create _ _ hg).1.keeps (.opens ho))

theorem close_steps (h : Sane s) (hs : internalCloseResource s = .ok s') : Steps s s' := by
  rcases close_cases hs with ⟨-, hq⟩ | ⟨d, -, -, hq⟩
  · exact .quiet h hq
  · exact .ofStill h (Still.dropped.trans (.quiet hq))
      (h.listed.keeps (Keeps.dropped.trans (.quiet hq)))

theorem destroy_steps (h : Sane s) (hs : internalDestroyResource s = .ok s') : Steps s s' := by
  rcases destroy_cases hs with ⟨-, hq⟩ | ⟨r, s₁, s₂, -, hd, hf, hq⟩
  · exact .quiet h hq
  · exact .ofStill h ((Still.detachResource hd).trans ((Still.resourceFree hf).trans (.quiet hq)))
      ((h.listed.remove hd hf).1.keeps (.quiet hq))

theorem mqCreate_steps (h : Sane s) (hs : internalMqCreate s = .ok s') : Steps s s' := by
  rcases mqCreate_cases hs with ⟨-, hq⟩ | ⟨-, q, pool, hg, hq⟩
  · exact .quiet h hq
  · exact .ofStill h ((Still.queueCreated h hg).trans (.quiet hq))
      ((h.listed.createQueue _ _ hg).1.keeps (.quiet hq))

/-- A queue without waiting processes is taken off the list and freed. -/
theorem freeQueue_steps (h : Sane s) (hd : detachResource s (.queue q) = .ok s₁)
    (hf : messageQueueFree s₁ q = .ok s') : Steps s s' := by
  have hl := (h.listed.removeQueue hd hf).1
  obtain ⟨hn1, hn2, rfl⟩ := messageQueueFree_cases hf
  have hst := Still.detachResource hd
  have ht := (h.table.still hst).freeQueue hn1 hn2
  have hrest : ∀ p, Rests p s { s₁ with queuePool := s₁.queuePool.release q } := fun p =>
    (Rests.still hst).trans
      ⟨rfl, rfl, rfl, fun L _ => by cases L <;> exact .rfl, fun _ hm _ => hm, rfl, id⟩
  refine ⟨⟨?_, hl, ?_, ?_, fun p => ?_⟩, hst.lastPid.ge, fun p => .inl (hst.pid p),
    fun p _ _ => hrest p, fun p _ ha _ => hst.alloc.2 ha, hst.time⟩
  · exact hst.running ▸ ht
  · exact hst.running ▸ hst.alloc.2 h.alloc
  · have hr := h.runs.rests ht (hrest _)
    rw [← hst.running] at hr
    exact hr
  · show (s₁.pcbs p).pid < s₁.lastPid
    rw [hst.pid, hst.lastPid]
    exact h.pids p

theorem mqDestroy_steps (h : Sane s) (hs : internalMqDestroy s = .ok s') : Steps s s' := by
  rcases mqDestroy_cases hs with hq | ⟨q, s₁, s₂, s₃, s₄, s₅, -, hq₁, hr, hw, hq₂, hd, s₆, hf, hq₃⟩
  · exact .quiet h hq
  have h1 := Steps.quiet h hq₁
  have h2 := wakeAll_steps (q := q) (.inl rfl) h1.sane hr
  have h3 := wakeAll_steps (q := q) (.inr rfl) h2.sane hw
  have h4 := Steps.quiet h3.sane hq₂
  have h5 := freeQueue_steps h4.sane hd hf
  exact h1.trans h (h2.trans h1.sane (h3.trans h2.sane (h4.trans h3.sane
    (h5.trans h4.sane (.quiet h5.sane hq₃)))))

/-! ## Calls on processes -/

theorem schedule_steps (h : Sane s) (hs : internalSchedule s = .ok s') : Steps s s' := by
  obtain ⟨h1, h2, h3, h4⟩ := schedule_table h.table h.alloc h.runs.current hs
  rcases h4 with ⟨h5, h6, h7⟩ | ⟨h5, h6⟩
  · exact .ofShift h h2 h1 h5 (.inl ⟨h6, h7⟩) h3
  · exact .ofRests h h2 (h5 ▸ h1) h5 h6 h3

/-- The switch of `wait` and `exit` to the first ready process. -/
theorem Yields.spec (hy : Yields s s') (h : Table s []) : Table s' [s'.running] ∧ Shift s s' ∧
    s.Alloc s'.running ∧ s'.Runs s'.running ∧ ∀ p, p ∉ s.list .ready → Rests p s s' := by
  obtain ⟨p, ps, hL, rfl⟩ := hy
  have hp : p ∈ s.list .ready := by
    rw [State.list, hL]
    exact List.mem_cons_self
  obtain ⟨h1, hu1⟩ := h.detach_first (L := .ready) hL
  obtain ⟨h2, h3, h4⟩ := h1.run hu1
  refine ⟨h2, (Shift.setList s .ready ps).trans ((Shift.setStatus _ _ _).trans (.setRunning _ _)),
    h.alloc hp, .inl ⟨h3, by simp⟩, fun q hq => (Rests.setList ?_).trans (h4 q fun e => hq (e ▸ hp))⟩
  refine ⟨fun hm => absurd ?_ hq, fun hm => absurd hm hq⟩
  rw [State.list, hL]
  exact List.mem_cons_of_mem _ hm

/-- A new process goes to the ready list. -/
theorem Sane.birth {pool : Pool} (h : Sane s) (hg : s.pcbPool.get = some (p, pool))
    (hs₁ : Still (newborn s p pool) s₁) (hl : Listed s₁) (hi : s₁.listInsertLast .ready p = .ok s') :
    Steps s s' := by
  obtain ⟨hnew, h1, hu1, hall⟩ := h.table.newborn hg
  have h2 := h1.still hs₁
  have hu2 := hs₁.unlisted.2 hu1
  have hst : (s₁.pcbs p).status = .ready := by
    rw [hs₁.status]
    simp [newborn]
  obtain rfl := h2.surveyed.listInsert_eq hu2 hi
  have h3 := h2.insert (L := .ready) hu2 (hs₁.alloc.2 ((hall p).2 (.inl rfl))) hst
    (List.perm_append_singleton _ _) (by simp)
  have hrest : ∀ q, q ≠ p → Rests q s (s₁.setList .ready (s₁.list .ready ++ [p])) := by
    intro q hq
    have h4 : Rests q s (newborn s p pool) :=
      ⟨by simp [newborn, hq], by simp [newborn], by simp [newborn, hq],
        fun L _ => by cases L <;> exact .rfl, fun _ hm _ => hm, rfl, id⟩
    refine h4.trans ((Rests.still hs₁).trans (.setList ⟨fun hm => ?_,
      fun hm => List.mem_append_left _ hm⟩))
    exact (List.mem_append.1 hm).resolve_right fun e => hq (List.mem_singleton.1 e)
  have hpid : ∀ q, ((s₁.setList .ready (s₁.list .ready ++ [p])).pcbs q).pid =
      if q = p then s.lastPid else (s.pcbs q).pid := by
    intro q
    rw [setList_pcbs, hs₁.pid]
    by_cases hq : q = p <;> simp [newborn, hq]
  have hlast : (s₁.setList .ready (s₁.list .ready ++ [p])).lastPid = s.lastPid + 1 := by
    rw [setList_lastPid, hs₁.lastPid]
    rfl
  have hrun : (s₁.setList .ready (s₁.list .ready ++ [p])).running = s.running :=
    setList_running.trans hs₁.running
  have hne : s.running ≠ p := fun e => hnew (e ▸ h.alloc)
  refine ⟨⟨?_, hl.keeps (.setList _ _ _), ?_, ?_, fun q => ?_⟩, ?_, fun q => ?_,
    fun q hq hqp => hrest q ?_, fun q _ ha _ => ?_, (hrest _ hne).time⟩
  · rw [hrun]
    exact h3
  · rw [hrun, (Shift.setList s₁ .ready _).alloc, hs₁.alloc]
    exact (hall _).2 (.inr h.alloc)
  · rw [hrun]
    exact h.runs.rests h3 (hrest _ hne)
  · rw [hpid, hlast]
    have := h.pids q
    split <;> omega
  · rw [hlast]
    exact Nat.le_succ _
  · rw [hpid]
    split
    · exact .inr le_rfl
    · exact .inl rfl
  · rintro rfl
    rcases hqp with hqp | ⟨ha, -⟩
    · rw [hpid, if_pos rfl] at hqp
      have := h.pids q
      omega
    · exact hnew ha
  · exact (Shift.setList s₁ .ready _).alloc.2 (hs₁.alloc.2 ((hall q).2 (.inr ha)))

theorem spawn_steps (h : Sane s) (hs : internalSpawn s = .ok s') : Steps s s' := by
  rcases spawn_cases hs with hq | ⟨p, pool, s₁, s₂, hg, hq₁, hi, hq₂⟩
  · exact .quiet h hq
  · have hk : Keeps s (newborn s p pool) := .same rfl rfl rfl rfl rfl
    have h1 := h.birth hg (.quiet hq₁) (h.listed.keeps (hk.trans (.quiet hq₁))) hi
    exact h1.trans h (.quiet h1.sane hq₂)

theorem fork_steps (h : Sane s) (hs : internalFork s = .ok s') : Steps s s' := by
  rcases fork_cases hs with ⟨-, hq⟩ | ⟨p, pool, s₁, s₂, s₃, hg, hq₁, hd, hq₂, hi⟩
  · exact .quiet h hq
  · have hk : Keeps s (newborn s p pool) := .same rfl rfl rfl rfl rfl
    exact h.birth hg ((Still.quiet hq₁).trans ((Still.forkDescriptors hd).trans (.quiet hq₂)))
      (h.listed.keeps ((hk.trans (.quiet hq₁)).trans ((Keeps.forkDescriptors hd).trans
        (.quiet hq₂)))) hi

/-- The caller of `sleep` has gone to the waiting list. -/
theorem Sane.doze {b : Nat} (h : Sane s) (hq : Quiet (dozing s b) s₁)
    (hi : s₁.listInsertLast .waiting s.running = .ok s₂) :
    Table s₂ [] ∧ Shift s s₂ ∧ s₂.running = s.running ∧ (s₂.pcbs s.running).status = .waiting ∧
      s.running ∈ s₂.list .waiting ∧ ∀ p, s.running ≠ p → Rests p s s₂ := by
  obtain ⟨h0, hr0⟩ := h.setWaiting
  have hst0 : ∀ q, ((dozing s b).pcbs q).status = ((s.setStatus s.running .waiting).pcbs q).status :=
    fun q => by simp [dozing]
  have hl0 : ∀ L, (dozing s b).list L = (s.setStatus s.running .waiting).list L := fun L => by
    cases L <;> rfl
  have hd0 : Table (dozing s b) [s.running] := h0.congr rfl hl0 hst0 h0.queues rfl
  have h1 : Table s₁ [s.running] := hd0.still (.quiet hq)
  have hrest0 : ∀ p, s.running ≠ p → Rests p s (dozing s b) := fun p hp => by
    refine ⟨?_, ?_, ?_, fun L _ => by rw [hl0, list_setStatus], fun t ht htp => ?_, rfl, id⟩
    · simp [dozing, Ne.symm hp]
    · simp [dozing]
    · simp [dozing]
    · rcases List.mem_cons.1 ((timerInsert_perm _ _).mem_iff.1 ht) with rfl | ht
      exacts [absurd htp hp, ht]
  have hsh0 : Shift s (dozing s b) :=
    ⟨.same rfl rfl rfl rfl rfl, rfl, rfl, rfl, fun p => by simp [dozing]⟩
  have hsh1 := hsh0.trans (.quiet hq)
  obtain ⟨h2, hsh2, hrun2, hst2, hls2, hrest2⟩ := h1.block (r := s.running) (L := .waiting)
    (hsh1.alloc.2 h.alloc) (by rw [hq.status]; simp [dozing])
    (hr0.imp (fun hu L => by rw [hq.list, hl0]; exact hu L) fun hm => by rwa [hq.list, hl0]) rfl
    (fun q hL => by rcases hL with e | e <;> cases e) hi
  exact ⟨h2, hsh1.trans hsh2, hrun2.trans hq.running, hst2, or_self_iff.1 hls2, fun p hp =>
    (hrest0 p hp).trans ((Rests.still (.quiet hq)).trans (hrest2 p hp))⟩

theorem sleep_steps (h : Sane s) (hs : internalSleep s = .ok s') : Steps s s' := by
  rcases sleep_cases hs with ⟨hq, -⟩ | ⟨-, b, s₁, s₂, hq, hi, hsch⟩
  · exact .quiet h hq
  obtain ⟨h1, hsh1, hrun, hst, hm, hrest⟩ := h.doze hq hi
  have ha : s₂.Alloc s.running := hsh1.alloc.2 h.alloc
  obtain ⟨h2, hsh2, hrest2, hor⟩ := schedule_table (h1.mono (by simp)) (hrun ▸ ha)
    (hrun ▸ .blocked (L := .waiting) hst rfl (.inr hm)) hsch
  have hsh := hsh1.trans hsh2
  have hrests : ∀ p, Resting s p → Rests p s s' := fun p hp =>
    (hrest p hp.running).trans (hrest2 p (hp.rests (hrest p hp.running)))
  rcases hor with ⟨h3, h4, h5⟩ | ⟨h3, h4⟩
  · exact .ofShift h hsh h2 h3 (.inl ⟨h4, h5⟩) hrests
  · -- the sleep has stalled
    rw [hrun] at h3 h4
    refine .ofShift h hsh h2 ?_ ?_ hrests <;> rw [h3]
    · exact hsh.alloc.2 h.alloc
    · exact .inr ⟨(h4.list .waiting (by simp)).2 hm, h4.status.trans hst⟩

/-- A zombie is reaped. -/
theorem Table.reap (h : Table s X) (hd : s.listDetach .zombie p = .ok s₁) (hq : Quiet s₁ s₂) :
    (s.pcbs p).status = .zombie ∧ p ∈ s.list .zombie ∧ Table (DisastrOS.pcbFree s₂ p) X ∧
      Shift s s₂ ∧ s₂.running = s.running ∧
      (∀ q, (DisastrOS.pcbFree s₂ p).Alloc q ↔ q ≠ p ∧ s.Alloc q) ∧
      ∀ q, Rests q s (DisastrOS.pcbFree s₂ p) := by
  obtain ⟨hm, rfl⟩ := listDetach_cases hd
  obtain ⟨h1, hu1⟩ := h.detach_erase hm
  have h2 := h1.still (.quiet hq)
  have hsh : Shift s s₂ := (Shift.setList _ _ _).trans (.quiet hq)
  have ha : s₂.Alloc p := hsh.alloc.2 (h.alloc hm)
  have hst : (s.pcbs p).status = .zombie := (h.status hm).resolve_right fun hn => by cases hn.1
  refine ⟨hst, hm, h2.pcbFree ((Still.quiet hq).unlisted.2 hu1) ha, hsh,
    hq.running.trans setList_running, fun q => ?_, fun q => ?_⟩
  · exact (Pool.used_release ha).trans (and_congr_right fun _ => hsh.alloc)
  · have h3 : Rests q s (s.setList .zombie ((s.list .zombie).erase p)) :=
      ⟨by simp, by simp, by simp, fun L hL => by rw [list_setList_of_ne hL],
        fun t ht _ => by simpa using ht, by simp, fun hr => by simpa using hr⟩
    exact h3.trans ((Rests.still (.quiet hq)).trans (.pcbFree p))

theorem wait_steps (h : Sane s) (hs : internalWait s = .ok s') : Steps s s' := by
  rcases wait_cases hs with hq | ⟨e, s₁, s₂, s₃, -, hq₁, hd, hq₂, rfl⟩ | ⟨s₁, hi, hy⟩
  · exact .quiet h hq
  · have h1 := Steps.quiet h hq₁
    obtain ⟨hst, hm, h2, hsh, hrun, hall, hrest⟩ := h1.sane.table.reap hd hq₂
    have hne : s₁.running ≠ e := by
      intro he
      have hL := h1.sane.runs.only_waiting h1.sane.table (he ▸ hm)
      cases hL
    have hk : Keeps s₁ (pcbFree s₃ e) := hsh.toKeeps.trans (.same rfl rfl rfl rfl rfl)
    refine h1.trans h ⟨⟨?_, h1.sane.listed.keeps hk, ?_, ?_, fun p => ?_⟩, hsh.lastPid.ge,
      fun p => .inl (hsh.pid p), fun p _ _ => hrest p, fun p _ ha hp => ?_, hsh.time⟩
    · show Table (pcbFree s₃ e) [s₃.running]
      rw [hrun]
      exact h2
    · show (pcbFree s₃ e).Alloc s₃.running
      rw [hrun]
      exact (hall _).2 ⟨hne, h1.sane.alloc⟩
    · show (pcbFree s₃ e).Runs s₃.running
      rw [hrun]
      exact h1.sane.runs.rests h2 (hrest _)
    · show (s₃.pcbs p).pid < s₃.lastPid
      rw [hsh.pid, hsh.lastPid]
      exact h1.sane.pids p
    · exact (hall p).2 ⟨fun e => hp (e ▸ hst), ha⟩
  · obtain ⟨h0, hr0⟩ := h.setWaiting
    have hsh0 := Shift.setStatus s s.running .waiting
    obtain ⟨h1, hsh1, -, -, -, hrest1⟩ := h0.block (hsh0.alloc.2 h.alloc) (by simp) hr0 rfl
      (fun q hL => by rcases hL with e | e <;> cases e) hi
    obtain ⟨h2, hsh2, h3, h4, hrest2⟩ := hy.spec h1
    have hsh := (hsh0.trans hsh1).trans hsh2
    refine .ofShift h hsh h2 (hsh2.alloc.2 h3) h4 fun p hp => ?_
    have hrest : Rests p s s₁ := (Rests.setStatus hp.running _).trans (hrest1 p hp.running)
    exact hrest.trans (hrest2 p (hp.rests hrest).ready)

/-- The caller of `exit` becomes a zombie; a stalled one stays on the waiting list. -/
theorem Sane.retire (h : Sane s) (hq : Quiet s s₁)
    (hi : (s₁.setStatus s.running .zombie).listInsertLast .zombie s.running = .ok s₂) :
    Table s₂ [] ∧ Shift s s₂ ∧ s₂.running = s.running ∧ (s₂.pcbs s.running).status = .zombie ∧
      ∀ p, s.running ≠ p → Rests p s s₂ := by
  have hrun : ∀ L, s.running ∈ s₁.list L → L = .waiting := fun L hm =>
    h.runs.only_waiting h.table (hq.list L ▸ hm)
  have h1 := (h.table.still (.quiet hq)).setZombie hrun
  have hsh : Shift s s₂ := (Shift.quiet hq).trans ((Shift.setStatus _ _ _).trans (.listInsert hi))
  have hrest : ∀ p, s.running ≠ p → Rests p s (s₁.setStatus s.running .zombie) := fun p hp =>
    (Rests.still (.quiet hq)).trans (.setStatus hp _)
  rcases h1.surveyed.listInsert_cases hi with ⟨⟨L, hm⟩, rfl⟩ | ⟨hu, rfl⟩
  · exact ⟨h1.drop hm, hsh, hq.running, by simp, hrest⟩
  · refine ⟨h1.insert hu ?_ (by simp [PcbList.status])
      (List.perm_append_singleton _ _) (by simp), hsh, setList_running.trans hq.running, by simp,
      fun p hp => (hrest p hp).trans (.setList ?_)⟩
    · exact ((Shift.quiet hq).trans (.setStatus s₁ s.running .zombie)).alloc.2 h.alloc
    · rw [List.mem_append, List.mem_singleton]
      exact or_iff_left (Ne.symm hp)

/-- The branch of `exit` in which the parent was waiting: the parent runs, and the caller is reaped
with its timers. -/
theorem exitToParent_table {parent : PcbRef} (h : Table s []) (hl : Listed s)
    (he : exitToParent s p parent = .ok s') :
    Table s' [parent] ∧ Listed s' ∧ s'.running = parent ∧ s'.Alloc parent ∧ s'.Runs parent ∧
      s'.lastPid = s.lastPid ∧ (∀ q, (s'.pcbs q).pid = (s.pcbs q).pid) ∧
      (∀ q, q ≠ p → s.Alloc q → s'.Alloc q) ∧ (∀ q, parent ≠ q → Rests q s s') ∧
      ∀ t ∈ s'.timerList, t.pcb ≠ p := by
  obtain ⟨s₁, s₂, s₃, s₄, hd, hq, hrel, hz, rfl⟩ := exitToParent_cases he
  obtain ⟨hm, rfl⟩ := listDetach_cases hd
  obtain ⟨h1, hu1⟩ := h.detach_erase hm
  have h2 := h1.setStatus hu1 .running
  have hst := (Still.quiet hq).trans ((Still.purgeTimers s₂ p).trans (.releaseDescriptors hrel))
  obtain ⟨hz3, -, h3, hsh3, -, hall, hrest3⟩ := (h2.still hst).reap hz (.refl _)
  have hsh : Shift s ((s.setList .waiting ((s.list .waiting).erase parent)).setStatus parent
      .running) := (Shift.setList _ _ _).trans (.setStatus _ _ _)
  have hall' : ∀ q, s₃.Alloc q ↔ s.Alloc q := fun q => hst.alloc.trans hsh.alloc
  have hparent : s₃.Unlisted parent ∧ (s₃.pcbs parent).status = .running := by
    rw [hst.unlisted, hst.status]
    exact ⟨Table.unlisted_setStatus.2 hu1, by simp⟩
  have hne : parent ≠ p := by
    rintro rfl
    rw [hparent.2] at hz3
    cases hz3
  have hlist : Listed s₃ := by
    have hk : Keeps s (purgeTimers s₂ p) := hsh.toKeeps.trans
      ((Keeps.quiet hq).trans (.same rfl rfl rfl rfl rfl))
    exact (hl.keeps hk).releaseDescriptors hrel
  have hk : Keeps s₃ ((pcbFree s₄ p).setRunning parent) :=
    hsh3.toKeeps.trans (.same rfl rfl rfl rfl rfl)
  refine ⟨h3.setRunning parent, hlist.keeps hk, rfl, ?_, .inl ⟨fun L hL => ?_, ?_⟩, ?_, fun q => ?_,
    fun q hq ha => ?_, fun q hq => ?_, fun t ht => ?_⟩
  · exact (hall parent).2 ⟨hne, (hall' parent).2 (h.alloc hm)⟩
  · rw [list_setRunning] at hL
    have hsub : parent ∈ s₃.list L := by
      have hL' : parent ∈ s₄.list L := by cases L <;> exact hL
      obtain ⟨-, rfl⟩ := listDetach_cases hz
      by_cases hLz : L = .zombie
      · subst hLz
        rw [list_setList_self] at hL'
        exact List.mem_of_mem_erase hL'
      · rwa [list_setList_of_ne hLz] at hL'
    exact hparent.1 L hsub
  · exact (hrest3 parent).status.trans hparent.2
  · exact hsh3.lastPid.trans (hst.lastPid.trans hsh.lastPid)
  · exact (hsh3.pid q).trans ((hst.pid q).trans (hsh.pid q))
  · exact (hall q).2 ⟨hq, (hall' q).2 ha⟩
  · exact (Rests.setList (List.mem_erase_of_ne (Ne.symm hq))).trans ((Rests.setStatus hq _).trans
      ((Rests.still hst).trans ((hrest3 q).trans (.setRunning hq))))
  · have h4 := (Still.releaseDescriptors hrel).timers t ((hrest3 t.pcb).timers t ht rfl)
    simpa using (List.mem_filter.1 h4).2

theorem exit_steps (h : Sane s) (hs : internalExit s = .ok s') : Steps s s' := by
  obtain ⟨s₁, s₂, s₃, parent, hq₁, hi, -, hq₂, hor⟩ := exit_cases hs
  obtain ⟨h1, hsh1, hrun1, hst1, hrest1⟩ := h.retire hq₁ hi
  have h2 := h1.still (.quiet hq₂)
  have hsh2 := hsh1.trans (.quiet hq₂)
  have hrest2 : ∀ p, s.running ≠ p → Rests p s s₃ := fun p hp =>
    (hrest1 p hp).trans (.still (.quiet hq₂))
  rcases hor with ⟨hw, he⟩ | ⟨-, hy⟩
  · obtain ⟨h3, hl, hrun, ha, hr, hlast, hpid, hall, hrest3, -⟩ :=
      exitToParent_table h2 (h.listed.keeps hsh2.toKeeps) he
    have hlast' := hlast.trans hsh2.lastPid
    have hpp : parent ≠ s.running := by
      rintro rfl
      have h4 := hw.1
      rw [hq₂.status, hst1] at h4
      cases h4
    refine ⟨⟨?_, hl, ?_, ?_, fun p => ?_⟩, hlast'.ge, fun p => .inl ((hpid p).trans (hsh2.pid p)),
      fun p hp _ => (hrest2 p hp.running).trans (hrest3 p ?_), fun p hp hpa _ =>
        hall p hp.running.symm (hsh2.alloc.2 hpa), (hrest3 _ hpp).time.trans hsh2.time⟩
    · rw [hrun]
      exact h3
    · rw [hrun]
      exact ha
    · rw [hrun]
      exact hr
    · rw [hpid, hsh2.pid, hlast']
      exact h.pids p
    · rintro rfl
      have h4 := hrest2 _ hp.running
      exact hp.wait (h4.status ▸ hw.1) (h4.syscallNum ▸ hw.2.1)
  · obtain ⟨h3, hsh3, h4, h5, hrest3⟩ := hy.spec h2
    refine .ofShift h (hsh2.trans hsh3) h3 (hsh3.alloc.2 h4) h5 fun p hp => ?_
    have hr := hrest2 p hp.running
    exact hr.trans (hrest3 p (hp.rests hr).ready)

/-! ## Steps and runs -/

/-- The state in which an event finds the kernel. -/
def clock (s : State) : Event → State
  | .tick => { s with time := s.time + 1 }
  | _ => s

theorem Rests.saveCall (hp : s.running ≠ p) : Rests p s (saveCall s c) :=
  ⟨by simp [DisastrOS.saveCall, Ne.symm hp], by simp [DisastrOS.saveCall, Ne.symm hp],
    by simp [DisastrOS.saveCall, Ne.symm hp], fun L _ => by rw [list_saveCall], fun _ hm _ => hm,
    rfl, id⟩

theorem Sane.saveCall (h : Sane s) (c : Syscall) : Sane (saveCall s c) := by
  have hst : ∀ p, ((DisastrOS.saveCall s c).pcbs p).status = (s.pcbs p).status := fun p => by
    by_cases hp : p = s.running <;> simp [DisastrOS.saveCall, hp]
  have ht : Table (DisastrOS.saveCall s c) [s.running] :=
    h.table.congr rfl (list_saveCall s c) hst h.table.queues rfl
  refine ⟨ht, h.listed.keeps (.same rfl rfl rfl rfl rfl), h.alloc, ?_, fun p => ?_⟩
  · show (DisastrOS.saveCall s c).Runs s.running
    unfold State.Runs State.Unlisted
    simp only [list_saveCall, hst]
    exact h.runs
  · have := h.pids p
    by_cases hp : p = s.running
    · subst hp
      simpa [DisastrOS.saveCall] using this
    · simpa [DisastrOS.saveCall, hp] using this

theorem saveCall_steps (h : Sane s) (c : Syscall) : Steps s (saveCall s c) where
  sane := h.saveCall c
  lastPid := le_rfl
  pid p := .inl (by by_cases hp : p = s.running <;> simp [saveCall, hp])
  rests _ hp _ := .saveCall hp.running
  alloc _ _ ha _ := ha
  time := rfl

theorem Sane.clock (h : Sane s) (e : Event) : Sane (clock s e) := by
  cases e with
  | tick =>
    have ht : Table { s with time := s.time + 1 } [s.running] :=
      h.table.congr rfl (fun L => by cases L <;> rfl) (fun _ => rfl) h.table.queues rfl
    refine ⟨ht, h.listed.keeps (.same rfl rfl rfl rfl rfl), h.alloc, ?_, h.pids⟩
    rcases h.runs with ⟨hu, hst⟩ | hw
    · exact .inl ⟨fun L hm => hu L (by cases L <;> exact hm), hst⟩
    · exact .inr hw
  | _ => exact h

/-- **Any step** of the machine keeps the kernel sane. -/
theorem step_steps (h : Sane s) (hs : step s e = .ok s') : Steps (clock s e) s' := by
  cases e with
  | tick => exact schedule_steps (h.clock .tick) hs
  | store addr bytes =>
    cases hs
    exact .quiet h rfl
  | syscall c =>
    have h0 := h.saveCall c
    refine (saveCall_steps h c).trans h ?_
    cases c with
    | preempt => exact schedule_steps h0 ((step_syscall rfl).symm.trans hs)
    | fork => exact fork_steps h0 ((step_syscall rfl).symm.trans hs)
    | wait _ _ => exact wait_steps h0 ((step_syscall rfl).symm.trans hs)
    | exit _ => exact exit_steps h0 ((step_syscall rfl).symm.trans hs)
    | spawn _ _ => exact spawn_steps h0 ((step_syscall rfl).symm.trans hs)
    | sleep _ => exact sleep_steps h0 ((step_syscall rfl).symm.trans hs)
    | openResource _ _ _ => exact open_steps h0 ((step_syscall rfl).symm.trans hs)
    | closeResource _ => exact close_steps h0 ((step_syscall rfl).symm.trans hs)
    | destroyResource _ => exact destroy_steps h0 ((step_syscall rfl).symm.trans hs)
    | mqCreate _ _ => exact mqCreate_steps h0 ((step_syscall rfl).symm.trans hs)
    | mqSend _ _ _ => exact mqSend_steps h0 ((step_syscall rfl).symm.trans hs)
    | mqReceive _ _ _ => exact mqReceive_steps h0 ((step_syscall rfl).symm.trans hs)
    | mqDestroy _ => exact mqDestroy_steps h0 ((step_syscall rfl).symm.trans hs)
    | shutdown => cases (step_syscall (f := fun _ => .error .shutdown) rfl).symm.trans hs

theorem boot_sane : Sane boot := by
  have hb := boot_inv
  obtain ⟨pool, -, he⟩ := boot_eq
  have hl : ∀ L, boot.list L = [] := fun L => by rw [he]; cases L <;> rfl
  have hnone : ∀ r, r ∉ boot.resourcesList := fun r => by rw [he]; exact List.not_mem_nil
  refine ⟨⟨hb.placed.pool, hb.placed.alloc, fun hm => .inl (hb.placed.status hm), hb.placed.nodup,
    hb.placed.disj, hb.placed.total, fun {q p} hm => ?_, by rw [he]; rfl⟩,
    ⟨by rw [he]; exact .nil, by rw [he]; exact Pool.ok_init _, by rw [he]; exact Pool.ok_init _,
      fun hm => absurd hm (hnone _), fun hm => absurd hm (hnone _), fun hm => absurd hm (hnone _),
      fun hm => absurd hm (hnone _)⟩,
    hb.placed.held (List.mem_singleton_self _), .inl ⟨fun L hm => ?_, hb.status⟩, fun p => ?_⟩
  · rw [hl, hl] at hm
    rcases hm with hm | hm <;> cases hm
  · rw [hl] at hm
    cases hm
  · rw [he]
    by_cases hp : p = 0 <;> simp [booted, initProcess, hp]

/-- **Any run** leaves the kernel sane. -/
theorem run_sane (hr : run step boot es = .ok s) : Sane s :=
  run_inv' (A := fun _ => True) (fun _ _ _ h _ hs => (step_steps h hs).sane) boot_sane
    (fun _ _ => trivial) hr

end

end DisastrOS
