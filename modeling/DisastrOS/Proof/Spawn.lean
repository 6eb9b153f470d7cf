import DisastrOS.Proof.Send

/-!
# `spawn` and `fork`

A new process is taken from the pool, becomes a child of the caller and goes to the end of the ready
list (`spawn_spec`, `fork_spec`). The module starts with what leaves the process family as it is.
-/

namespace DisastrOS

open Lib State

section
variable {s s' : State} {X : List PcbRef} {B : List Nat} {p q : PcbRef} {c : Syscall} {e : PCBPtr}
  {pool ptrPool : Pool} {r : Int}

/-! ## What leaves the family as it is -/

/-- Two states of one family, but for who sleeps. -/
theorem family_congr (hi : s'.initPcb = s.initPcb) (hl : s'.lastPid = s.lastPid)
    (hp : s'.pcbPool = s.pcbPool) (hz : s'.zombieList = s.zombieList)
    (hpid : ∀ p, (s'.pcbs p).pid = (s.pcbs p).pid)
    (hpar : ∀ p, (s'.pcbs p).parent = (s.pcbs p).parent)
    (hch : ∀ p, (s'.pcbs p).children = (s.pcbs p).children)
    (ha : s'.family.asleep = s.family.asleep) : s'.family = s.family := by
  unfold State.family at ha ⊢
  simp only at ha
  simp only [hi, hl, hz, hp, hpid, hpar, hch, ha, Family.mk.injEq, true_and, and_true]
  funext p
  simp only [State.Alloc, hp]

theorem family_setRetvalue : (s.setRetvalue p r).family = s.family :=
  family_congr rfl rfl rfl rfl (by simp) (by simp) (by simp) (funext fun q => by
    simp [State.family])

theorem asleep_eq_some {w : Int} : s.family.asleep p = some w ↔ (s.pcbs p).status = .waiting ∧
    (s.pcbs p).syscallNum = dsosCallWait ∧ (s.pcbs p).syscallArgs 0 = w := by
  simp only [State.family]
  split
  · rename_i h
    simp [h.1, h.2]
  · rename_i h
    simp only [reduceCtorEq, false_iff, not_and]
    exact fun h1 h2 => absurd ⟨h1, h2⟩ h

theorem asleep_of_running (h : (s.pcbs p).status = .running) : s.family.asleep p = none := by
  simp [State.family, h]

theorem family_saveCall (h : (s.pcbs s.running).status = .running) :
    (saveCall s c).family = s.family := by
  refine family_congr rfl rfl rfl rfl (fun p => ?_) (fun p => ?_) (fun p => ?_) (funext fun p => ?_)
  · simp [saveCall]
  · simp [saveCall]
  · simp [saveCall]
  · by_cases hp : p = s.running
    · subst hp
      rw [asleep_of_running h, asleep_of_running (by simpa [saveCall] using h)]
    · simp [State.family, saveCall, hp]

/-- The scheduler wakes nobody from a `wait`. -/
theorem Rescheduled.family (h : Rescheduled s s')
    (hw : ∀ q, (s.pcbs q).syscallNum ≠ dsosCallSleep →
      ((s'.pcbs q).status = .waiting ↔ (s.pcbs q).status = .waiting)) : s'.family = s.family := by
  refine family_congr h.initPcb h.lastPid h.pcbPool h.zombieList (fun p => by rw [h.pcbs])
    (fun p => by rw [h.pcbs]) (fun p => by rw [h.pcbs]) (funext fun p => ?_)
  have hn : (s'.pcbs p).syscallNum = (s.pcbs p).syscallNum := by rw [h.pcbs]
  have ha : (s'.pcbs p).syscallArgs = (s.pcbs p).syscallArgs := by rw [h.pcbs]
  simp only [State.family, hn, ha]
  by_cases hc : (s.pcbs p).syscallNum = dsosCallWait
  · have hne : (s.pcbs p).syscallNum ≠ dsosCallSleep := by rw [hc]; decide
    simp only [hw p hne]
  · simp [hc]

/-! ## A new process -/

/-- The state with the new process `p`, on no list yet, as a child of the running one. -/
def born (s : State) (p : PcbRef) (pool ptrPool : Pool) (e : PCBPtr) : State :=
  { s with
    pcbPool := pool
    pcbPtrPool := ptrPool
    lastPid := s.lastPid + 1
    pcbs := fun i =>
      if i = p then
        { s.pcbs i with
          pid := s.lastPid, returnValue := 0, status := .ready, lastFd := 0, signals := 0,
          signalsMask := 0xFFFFFFFF, descriptors := [], parent := some s.running, timer := none,
          children := [] }
      else if i = s.running then { s.pcbs i with children := (s.pcbs i).children ++ [e] }
      else s.pcbs i }

/-- Without a block for the process both calls fail, ... -/
theorem internalSpawn_full (hg : s.pcbPool.get = none) :
    internalSpawn s = .ok (s.setRetvalue s.running dsosESpawn) := by
  unfold internalSpawn pcbAlloc
  rw [hg]

theorem internalFork_full (hg : s.pcbPool.get = none) :
    internalFork s = .ok (s.setRetvalue s.running dsosESpawn) := by
  unfold internalFork pcbAlloc
  rw [hg]

/-- ... and without one for the entry in the children list their assertion does. -/
theorem internalSpawn_noPtr (hg : s.pcbPool.get = some (p, pool)) (hb : s.pcbPtrPool.get = none) :
    internalSpawn s = .error .assertion := by
  unfold internalSpawn pcbAlloc
  rw [hg]
  unfold pcbPtrAlloc
  simp only [updPcb_pcbPtrPool, hb]

theorem internalFork_noPtr (hg : s.pcbPool.get = some (p, pool)) (hb : s.pcbPtrPool.get = none) :
    internalFork s = .error .assertion := by
  unfold internalFork pcbAlloc
  rw [hg]
  unfold pcbPtrAlloc
  simp only [updPcb_pcbPtrPool, hb]

/-- `spawn` once it has its two blocks. -/
theorem internalSpawn_born {b : Nat} (hp : p ≠ s.running) (hg : s.pcbPool.get = some (p, pool))
    (hb : s.pcbPtrPool.get = some (b, ptrPool)) :
    internalSpawn s = (born s p pool ptrPool ⟨b, p⟩).listInsertLast .ready p >>= fun u =>
      .ok (u.setRetvalue u.running (u.pcbs p).pid) := by
  unfold internalSpawn pcbAlloc
  rw [hg]
  unfold pcbPtrAlloc
  simp only [updPcb_pcbPtrPool, hb]
  refine congrArg (fun v : State => v.listInsertLast .ready p >>= fun u =>
    Except.ok (u.setRetvalue u.running (u.pcbs p).pid)) ?_
  unfold born State.setChildren State.updPcb
  congr 1
  funext i
  by_cases hi : i = p
  · simp [hi, hp]
  · by_cases hi' : i = s.running <;> simp [hi, hi', Ne.symm hp]

theorem internalSpawn_eq {b : Nat} {u : State} (hp : p ≠ s.running)
    (hg : s.pcbPool.get = some (p, pool)) (hb : s.pcbPtrPool.get = some (b, ptrPool))
    (hu : (born s p pool ptrPool ⟨b, p⟩).listInsertLast .ready p = .ok u) :
    internalSpawn s = .ok (u.setRetvalue u.running (u.pcbs p).pid) := by
  rw [internalSpawn_born hp hg hb, hu]
  rfl

/-- `fork` once it has its two blocks. -/
theorem internalFork_born {b : Nat} (hp : p ≠ s.running) (hg : s.pcbPool.get = some (p, pool))
    (hb : s.pcbPtrPool.get = some (b, ptrPool)) :
    internalFork s = forkDescriptors p (s.pcbs s.running).descriptors
      (born s p pool ptrPool ⟨b, p⟩) >>= fun u =>
        (u.setRetvalue u.running (u.pcbs p).pid).listInsertLast .ready p := by
  unfold internalFork pcbAlloc
  rw [hg]
  unfold pcbPtrAlloc
  simp only [updPcb_pcbPtrPool, hb]
  have h1 : ((born s p pool ptrPool ⟨b, p⟩).pcbs s.running).descriptors =
      (s.pcbs s.running).descriptors := by
    simp [born, Ne.symm hp]
  rw [← h1]
  refine congrArg (fun v : State => forkDescriptors p (v.pcbs v.running).descriptors v >>=
    fun u => (u.setRetvalue u.running (u.pcbs p).pid).listInsertLast .ready p)
    (?_ : _ = born s p pool ptrPool ⟨b, p⟩)
  unfold born State.setChildren State.updPcb
  congr 1
  funext i
  by_cases hi : i = p
  · simp [hi, hp]
  · by_cases hi' : i = s.running <;> simp [hi, hi', Ne.symm hp]

theorem internalFork_eq {b : Nat} {u : State} (hp : p ≠ s.running)
    (hg : s.pcbPool.get = some (p, pool)) (hb : s.pcbPtrPool.get = some (b, ptrPool))
    (hd : (s.pcbs s.running).descriptors = [])
    (hu : ((born s p pool ptrPool ⟨b, p⟩).setRetvalue s.running s.lastPid).listInsertLast .ready p =
      .ok u) : internalFork s = .ok u := by
  have h2 : ((born s p pool ptrPool ⟨b, p⟩).pcbs p).pid = s.lastPid := by simp [born]
  rw [internalFork_born hp hg hb, hd, forkDescriptors, ok_bind, h2]
  exact hu

/-- A new process is a new child of the running one, and the rest is as it was. -/
theorem born_spec (h : Consistent s [s.running] B) (ptrPool : Pool) (b : Nat)
    (hg : s.pcbPool.get = some (p, pool)) :
    p ≠ s.running ∧ ¬ s.Alloc p ∧
      Consistent (born s p pool ptrPool ⟨b, p⟩) [p, s.running] B ∧
      (born s p pool ptrPool ⟨b, p⟩).family = s.family.birth s.running p := by
  obtain ⟨u, ha, hup, hul, huq⟩ : ∃ u, pcbAlloc s = some (p, u) ∧ u.pcbPool = pool ∧
      (∀ L, u.list L = s.list L) ∧ ∀ q, q ≠ p → u.pcbs q = s.pcbs q := by
    refine ⟨_, by unfold pcbAlloc; rw [hg], rfl, fun L => by cases L <;> rfl, fun q hq => ?_⟩
    simp [hq]
  obtain ⟨hnew, hall, hpl⟩ := h.placed.allocate ha
  simp only [State.Alloc, hup] at hall
  have hne : p ≠ s.running := fun e => hnew (e ▸ h.placed.held (by simp))
  have hz : s.running ∉ s.zombieList := fun hm => h.placed.not_held (L := .zombie) hm (by simp)
  have hout : ∀ {L q}, q ∈ s.list L → q ≠ p ∧ q ≠ s.running := fun {L q} hq =>
    ⟨fun e => hnew (e ▸ h.placed.alloc (L := L) hq), fun e => h.placed.not_held hq (by simp [e])⟩
  have hkeep : ∀ q, ((born s p pool ptrPool ⟨b, p⟩).pcbs q).syscallNum =
        (s.pcbs q).syscallNum ∧
      ((born s p pool ptrPool ⟨b, p⟩).pcbs q).syscallArgs = (s.pcbs q).syscallArgs ∧
      ((born s p pool ptrPool ⟨b, p⟩).pcbs q).syscallRetvalue =
        (s.pcbs q).syscallRetvalue ∧
      ((born s p pool ptrPool ⟨b, p⟩).pcbs q).call = (s.pcbs q).call := by
    intro q
    by_cases hq : q = p
    · simp [born, hq]
    · by_cases hq' : q = s.running <;> simp [born, hq, hq']
  have hfam : (born s p pool ptrPool ⟨b, p⟩).family = s.family.birth s.running p := by
    unfold State.family Family.birth
    simp only [Family.mk.injEq]
    refine ⟨(Pool.get_eq hg).2, rfl, funext fun q => propext (hall q), funext fun q => ?_,
      funext fun q => ?_, funext fun q => ?_, rfl, rfl, funext fun q => ?_⟩
    · by_cases hq : q = p
      · simp [born, hq]
      · by_cases hq' : q = s.running <;> simp [born, hq, hq']
    · by_cases hq : q = p
      · have := h.tree.wf.free (q := p) hnew
        simp only [State.family] at this
        simp [born, hq, hne, this]
      · by_cases hq' : q = s.running <;> simp [born, hq, hq', Ne.symm hne]
    · by_cases hq : q = p
      · simp [born, hq]
      · by_cases hq' : q = s.running <;> simp [born, hq, hq']
    · by_cases hq : q = p
      · have := h.placed.free hnew
        simp [born, hq, this]
      · by_cases hq' : q = s.running
        · simp [born, hq', Ne.symm hne]
        · simp [born, hq, hq']
  refine ⟨hne, hnew, ⟨?_, ?_, ?_, ⟨?_, fun q => ?_⟩, ?_⟩, hfam⟩
  · refine hpl.congr hup.symm (fun L => (by cases L <;> rfl : _ = s.list L).trans (hul L).symm)
      fun q hq => ?_
    simp only [List.mem_cons, List.not_mem_nil, or_false, not_or] at hq
    simp [born, hq.1, hq.2, huq]
  · exact h.timed.congr rfl fun t ht => ⟨(h.timed.waiting t ht).1, (hkeep _).1⟩
  · exact h.queues.congr rfl rfl rfl rfl fun _ q _ => (hkeep q).2.1
  · rw [hfam]
    exact h.tree.wf.birth (h.placed.held (by simp)) hz hnew
  · have := h.tree.descriptors q
    by_cases hq : q = p
    · simp [born, hq]
    · by_cases hq' : q = s.running
      · subst hq'
        simp [born, hq, this]
      · simp [born, hq, hq', this]
  · exact h.answers.same rfl rfl fun q => ⟨(hkeep q).2.2.2, (hkeep q).1, (hkeep q).2.1,
      (hkeep q).2.2.1⟩

theorem born_request {b : Nat} (q : PcbRef) :
    (born s p pool ptrPool ⟨b, p⟩).request q = s.request q := by
  by_cases hq : q = p
  · simp [State.request, born, hq]
  · by_cases hq' : q = s.running <;> simp [State.request, born, hq, hq']

/-! ## The calls -/

/-- What the result of a call about processes is to satisfy. -/
def Passes (s : State) (c : Syscall) (s' : State) : Prop :=
  Inv s' ∧ s.family.Step s.running c s'.family ∧ s.channels.Step (.syscall c) s'.channels

/-- A call that fails sets its return value only. -/
theorem fail_spec (h : Inv s) (hc : ¬ c.IsMq) (hu : s.family.Unmoved s.running c) (r : Int) :
    Passes s c ((saveCall s c).setRetvalue s.running r) := by
  have hcall : ((saveCall s c).pcbs s.running).call = s.calls := by simp [saveCall]
  refine ⟨(h.saveCall c).setRetvalue _ _, ?_, ?_⟩
  · rw [family_setRetvalue, family_saveCall h.status]
    exact .same c hu
  · rw [channels_setRetvalue, channels_saveCall h.placed, hcall]
    exact .pass s.running c _ hc (.inr ⟨r, rfl⟩)

/-- The pool of PCBs is exhausted. -/
theorem full_of_get (hg : s.pcbPool.get = none) : s.family.Full := fun p hp =>
  ⟨hp, by rw [Pool.get_eq_none.1 hg]; simp⟩

/-- The new process goes to the ready list and the caller gets an answer. -/
theorem grow_spec (h : Inv s) (ptrPool : Pool) (b : Nat) (r : Int) (hc : ¬ c.IsMq)
    (hf : c = .fork ∨ ∃ f args, c = .spawn f args)
    (hg : (saveCall s c).pcbPool.get = some (p, pool)) :
    let u := born (saveCall s c) p pool ptrPool ⟨b, p⟩
    u.listInsertLast .ready p = .ok (u.setList .ready (u.readyList ++ [p])) ∧
      (u.setRetvalue s.running r).listInsertLast .ready p =
        .ok ((u.setList .ready (u.readyList ++ [p])).setRetvalue s.running r) ∧
      Passes s c ((u.setList .ready (u.readyList ++ [p])).setRetvalue s.running r) := by
  intro u
  have h1 := h.saveCall c
  obtain ⟨hne, hnew, h2, hfam⟩ := born_spec h1.toConsistent ptrPool b hg
  have hst : (u.pcbs p).status = .ready := by simp [u, born]
  have hreq : ∀ q, u.request q = (saveCall s c).request q := fun q => born_request q
  obtain ⟨h3, h4⟩ := h2.insertReady (by simpa using hne) hst
  refine ⟨h3, ?_, ⟨?_, ?_, ?_⟩, ?_, ?_⟩
  · have := ((h2.setRetvalue s.running r).insertReady (by simpa using hne) (by simpa using hst)).1
    exact this
  · exact h4.setRetvalue s.running r
  · have := h1.status
    simpa [u, born, Ne.symm hne] using this
  · have h5 : Idle (u.setList .ready (u.readyList ++ [p])) :=
      h1.idle.congr rfl rfl fun _ q _ => hreq q
    exact h5.setRetvalue s.running r
  · have : (u.setList .ready (u.readyList ++ [p])).family = s.family.birth s.running p := by
      rw [← family_saveCall (c := c) h.status]
      exact hfam
    rw [family_setRetvalue, this]
    refine .birth c p hf fun hm => hnew ?_
    exact hm
  · have hch : (u.setList .ready (u.readyList ++ [p])).channels = (saveCall s c).channels :=
      channels_same rfl rfl (fun _ q _ => hreq q) rfl rfl rfl
    have hcall : ((u.setList .ready (u.readyList ++ [p])).pcbs s.running).call = s.calls := by
      refine (congrArg Request.call (hreq s.running)).trans ?_
      simp [State.request, saveCall]
    rw [channels_setRetvalue, hch, channels_saveCall h.placed, hcall]
    exact .pass s.running c _ hc (.inr ⟨r, rfl⟩)

/-- **`spawn`** keeps the invariant. -/
theorem spawn_spec (h : Inv s) (f args : Int) :
    Ensures (internalSpawn (saveCall s (.spawn f args))) (· = .assertion)
      (Passes s (.spawn f args)) := by
  have hrun := saveCall_running s (.spawn f args)
  cases hg : (saveCall s (.spawn f args)).pcbPool.get with
  | none =>
    rw [internalSpawn_full hg, hrun]
    exact fail_spec (c := .spawn f args) h id (full_of_get (s := s) hg) _
  | some x =>
    obtain ⟨p, pool⟩ := x
    cases hb : (saveCall s (.spawn f args)).pcbPtrPool.get with
    | none =>
      rw [internalSpawn_noPtr hg hb]
      rfl
    | some y =>
      obtain ⟨b, ptrPool⟩ := y
      have hne := (born_spec (h.saveCall _).toConsistent ptrPool b hg).1
      obtain ⟨h1, -, h2⟩ := grow_spec h ptrPool b
        (saveCall s (.spawn f args)).lastPid id (.inr ⟨f, args, rfl⟩) hg
      rw [internalSpawn_eq hne hg hb h1]
      simpa [born, saveCall] using h2

/-- **`fork`** keeps the invariant, as long as there are no descriptors to copy. -/
theorem fork_spec (h : Inv s) :
    Ensures (internalFork (saveCall s .fork)) (· = .assertion) (Passes s .fork) := by
  have hrun := saveCall_running s .fork
  cases hg : (saveCall s .fork).pcbPool.get with
  | none =>
    rw [internalFork_full hg, hrun]
    exact fail_spec (c := .fork) h id (full_of_get (s := s) hg) _
  | some x =>
    obtain ⟨p, pool⟩ := x
    cases hb : (saveCall s .fork).pcbPtrPool.get with
    | none =>
      rw [internalFork_noPtr hg hb]
      rfl
    | some y =>
      obtain ⟨b, ptrPool⟩ := y
      have hne := (born_spec (h.saveCall _).toConsistent ptrPool b hg).1
      obtain ⟨-, h1, h2⟩ := grow_spec h ptrPool b (saveCall s .fork).lastPid id (.inl rfl) hg
      rw [internalFork_eq hne hg hb ((h.saveCall _).tree.descriptors _) h1]
      exact h2

end

end DisastrOS
