import DisastrOS.Proof.Wait

/-!
# `exit`

The children of the caller move to init (`reparent_spec`), the caller becomes a zombie, and either its
parent, asleep in a `wait` that ends with it, reaps it and runs (`exitToParent_spec`), or the first
ready process runs. The exit of init never returns.
-/

namespace DisastrOS

open Lib State

section
variable {s s' : State} {X : List PcbRef} {B : List Nat} {p q self parent : PcbRef} {e : PCBPtr}
  {es : List PCBPtr} {v : Int}

/-! ## Reparenting -/

/-- What an exit leaves alone in every PCB. -/
def PCB.core (a : PCB) : PCB :=
  { a with children := [], signals := 0, returnValue := 0, status := .created }

/-- The children of the processes after those of the running one have moved to init. -/
def movedChildren (s : State) (p : PcbRef) : List PCBPtr :=
  if p = s.running then []
  else if p = s.initPcb then (s.pcbs p).children ++ (s.pcbs s.running).children
  else (s.pcbs p).children

/-- `s'` is `s` with the children of the running process moved to init, and some signals set. -/
structure Reparented (s s' : State) : Prop where
  same : { s' with pcbs := s.pcbs } = s
  core : ∀ p, (s'.pcbs p).core = (s.pcbs p).core
  status : ∀ p, (s'.pcbs p).status = (s.pcbs p).status
  value : ∀ p, (s'.pcbs p).returnValue = (s.pcbs p).returnValue
  children : ∀ p, (s'.pcbs p).children = movedChildren s p

/-- One turn of the loop moves one child; the induction is on the children. -/
theorem reparent_spec : ∀ (es : List PCBPtr) (fuel : Nat) {s : State},
    s.running ≠ s.initPcb → (s.pcbs s.running).children = es → es.length < fuel →
      ∃ s', reparentChildren fuel s = .ok s' ∧ Reparented s s'
  | _, 0, _, _, _, hl => absurd hl (Nat.not_lt_zero _)
  | [], fuel + 1, s, hne, hes, _ => by
    refine ⟨s, by simp [reparentChildren, hes], rfl, fun _ => rfl, fun _ => rfl, fun _ => rfl,
      fun p => ?_⟩
    by_cases hp : p = s.running <;> simp [movedChildren, hp, hes]
  | e :: es, fuel + 1, s, hne, hes, hl => by
    have hl' : es.length < fuel := by simpa using hl
    let s₁ := ((s.setChildren s.running es).setChildren s.initPcb
      (((s.setChildren s.running es).pcbs s.initPcb).children ++ [e])).signal e.pcb dsosSighup
    obtain ⟨s', h1, h2, h3, h4, h5, h6⟩ :=
      reparent_spec es fuel (s := s₁) hne (by simp [s₁, hne]) hl'
    have hcore : ∀ p, (s₁.pcbs p).core = (s.pcbs p).core := fun p => by
      simp only [s₁, signal_pcbs, setChildren_pcbs]
      split <;> split <;> split <;> rfl
    have hst : ∀ p, (s₁.pcbs p).status = (s.pcbs p).status := fun p => by simp [s₁]
    have hch : ∀ p, (s₁.pcbs p).children = if p = s.initPcb then
        (if p = s.running then es else (s.pcbs p).children) ++ [e]
        else if p = s.running then es else (s.pcbs p).children := fun p => by
      by_cases hp : p = s.initPcb
      · simp [s₁, hp, Ne.symm hne]
      · simp [s₁, hp]
    refine ⟨s', ?_, ?_, fun p => (h3 p).trans (hcore p), fun p => (h4 p).trans (hst p),
      fun p => (h5 p).trans (by simp [s₁]), fun p => ?_⟩
    · rw [reparentChildren, hes]
      exact h1
    · have := congrArg (fun u : State => { u with pcbs := s.pcbs }) h2
      exact this
    · rw [h6, movedChildren, movedChildren, hch, hch]
      by_cases hp : p = s.running
      · simp [hp, s₁]
      · by_cases hp' : p = s.initPcb <;> simp [hp, hp', hes, hne, Ne.symm hne, s₁]

/-- Init moves its children to itself forever. -/
theorem reparent_init : ∀ (fuel : Nat) {s : State}, s.running = s.initPcb →
    (s.pcbs s.running).children ≠ [] → reparentChildren fuel s = .error .diverges
  | 0, _, _, _ => rfl
  | fuel + 1, s, hrun, hc => by
    obtain ⟨e, es, hes⟩ := List.exists_cons_of_ne_nil hc
    rw [reparentChildren, hes]
    exact reparent_init fuel hrun (by simp [hrun])

/-! ## The new zombie -/

/-- `s'` is `s` after the running process has become a zombie with the value it leaves; besides, some
signals are set. -/
structure Retired (s s' : State) : Prop where
  same : { s' with pcbs := s.pcbs, zombieList := s.zombieList } = s
  core : ∀ p, (s'.pcbs p).core = (s.pcbs p).core
  status : ∀ p, (s'.pcbs p).status = if p = s.running then .zombie else (s.pcbs p).status
  value : (s'.pcbs s.running).returnValue = (s.pcbs s.running).syscallArgs 0
  children : ∀ p, (s'.pcbs p).children = movedChildren s p
  zombies : s'.zombieList = s.zombieList ++ [s.running]

theorem Placed.ofReparented (h : Placed s X) (hr : Reparented s s') : Placed s' X := by
  have hl : ∀ L, s'.list L = s.list L := fun L => by
    have h1 := congrArg (fun u : State => u.list L) hr.same
    have h2 : ({ s' with pcbs := s.pcbs } : State).list L = s'.list L := by cases L <;> rfl
    exact h2.symm.trans h1
  exact h.congr (congrArg State.pcbPool hr.same :) hl fun p _ =>
    ⟨hr.status p, (congrArg PCB.syscallNum (hr.core p) :)⟩

/-- `exit` up to the signal to the parent. -/
theorem retire_eq (h : Inv s) (hne : s.running ≠ s.initPcb) :
    ∃ s₁, reparentChildren ((s.pcbs s.running).children.length + 1)
        (s.updPcb s.running fun pcb => { pcb with returnValue := pcb.syscallArgs 0 }) = .ok s₁ ∧
      ∃ s₂, (s₁.setStatus s.running .zombie).listInsertLast .zombie s.running = .ok s₂ ∧
        Retired s s₂ := by
  set s₀ := s.updPcb s.running fun pcb => { pcb with returnValue := pcb.syscallArgs 0 } with hs₀
  have hch0 : ∀ p, (s₀.pcbs p).children = (s.pcbs p).children := fun p => by simp [hs₀]
  obtain ⟨s₁, h1, h2⟩ := reparent_spec _ _ (s := s₀) hne rfl (Nat.lt_succ_self _)
  rw [hch0] at h1
  have hcore0 : ∀ p, (s₀.pcbs p).core = (s.pcbs p).core := fun p => by
    simp only [hs₀, updPcb_pcbs]
    split <;> rfl
  have hpl0 : Placed s₀ [s.running] := h.placed.updPcb_held (by simp) _
  obtain ⟨h3, -⟩ := ((hpl0.ofReparented h2).setStatus (p := s.running) (by simp) .zombie).insertLast
    (L := .zombie) (by simp) (by simp [PcbList.status]) trivial
  refine ⟨s₁, h1, _, h3, ?_, fun p => ?_, fun p => ?_, ?_, fun p => ?_, ?_⟩
  · have := congrArg (fun u : State => { u with pcbs := s.pcbs, zombieList := s.zombieList }) h2.same
    exact this
  · rw [setList_pcbs, setStatus_pcbs, ← hcore0 p, ← h2.core p]
    split <;> rfl
  · by_cases hp : p = s.running
    · simp [hp]
    · simp [hp, h2.status, hs₀]
  · simp [h2.value, hs₀]
  · simp only [setList_pcbs, setStatus_pcbs, PCB.ite_children, ite_self]
    rw [h2.children]
    simp [movedChildren, hs₀]
  · have : s₁.zombieList = s.zombieList := (congrArg State.zombieList h2.same :)
    exact congrArg (· ++ [s.running]) this

theorem Retired.signal (h : Retired s s') (p : PcbRef) (sig : BitVec 32) :
    Retired s (s'.signal p sig) := by
  refine ⟨h.same, fun q => ?_, fun q => ?_, ?_, fun q => ?_, h.zombies⟩
  · rw [signal_pcbs, ← h.core q]
    split <;> rfl
  · simpa using h.status q
  · simpa using h.value
  · simpa using h.children q

namespace Retired

theorem request (h : Retired s s') (p : PcbRef) : s'.request p = s.request p :=
  (congrArg (fun a : PCB => (⟨a.call, p, a.syscallArgs 1, a.syscallArgs 2⟩ : Request)) (h.core p) :)

theorem list (h : Retired s s') {L : PcbList} (hL : L ≠ .zombie) : s'.list L = s.list L := by
  have h1 := congrArg (fun u : State => u.list L) h.same
  have h2 : ({ s' with pcbs := s.pcbs, zombieList := s.zombieList } : State).list L = s'.list L := by
    cases L <;> first | rfl | exact absurd rfl hL
  exact h2.symm.trans h1

theorem idle (h : Retired s s') (hi : Idle s) : Idle s' :=
  hi.congr (congrArg State.resourcesList h.same :) (congrArg State.queues h.same :)
    fun _ p _ => h.request p

theorem family (h : Retired s s') (hst : (s.pcbs s.running).status = .running) :
    s'.family = (s.family.orphan s.running).bury s.running := by
  unfold State.family Family.bury Family.orphan
  simp only [Family.mk.injEq]
  refine ⟨(congrArg (·.pcbPool.sizeMax) h.same :), (congrArg State.initPcb h.same :),
    funext fun q => ?_, funext fun q => ?_, funext fun q => ?_, funext fun q => ?_,
    (congrArg State.lastPid h.same :), funext fun q => ?_, funext fun q => ?_⟩
  · unfold State.Alloc
    rw [show s'.pcbPool = s.pcbPool from (congrArg State.pcbPool h.same :)]
  · exact (congrArg PCB.parent (h.core q) :)
  · rw [h.children, movedChildren]
    simp only [apply_ite (List.map PCBPtr.pcb), List.map_nil, List.map_append]
  · exact (congrArg PCB.pid (h.core q) :)
  · rw [h.zombies]
    simp [or_comm]
  · have hn : (s'.pcbs q).syscallNum = (s.pcbs q).syscallNum :=
      (congrArg PCB.syscallNum (h.core q) :)
    have ha : (s'.pcbs q).syscallArgs = (s.pcbs q).syscallArgs :=
      (congrArg PCB.syscallArgs (h.core q) :)
    simp only [h.status, hn, ha]
    by_cases hq : q = s.running <;> simp [hq, hst]

/-- Everybody is on a list now. -/
theorem consistent (h : Retired s s') (hi : Inv s) (hne : s.running ≠ s.initPcb) :
    Consistent s' [] [] := by
  have hn : ∀ p, (s'.pcbs p).syscallNum = (s.pcbs p).syscallNum :=
    fun p => (congrArg PCB.syscallNum (h.core p) :)
  have hpool : s'.pcbPool = s.pcbPool := (congrArg State.pcbPool h.same :)
  have hw : s'.waitingList = s.waitingList := h.list (L := .waiting) (by simp)
  refine ⟨?_, ?_, ?_, ⟨?_, fun p => ?_⟩, ?_⟩
  · have h1 := hi.placed.setStatus (p := s.running) (by simp) .zombie
    obtain ⟨-, h2⟩ := h1.insertLast (L := .zombie) (by simp) (by simp [PcbList.status]) trivial
    refine h2.congr (by simpa using hpool) (fun L => ?_) fun p _ => ⟨?_, ?_⟩
    · by_cases hL : L = .zombie
      · subst hL
        rw [list_setList_self]
        exact h.zombies
      · rw [list_setList_of_ne hL, list_setStatus, h.list hL]
    · rw [h.status]
      by_cases hp : p = s.running <;> simp [hp]
    · simpa using hn p
  · refine hi.timed.congr (congrArg State.timerList h.same :) fun t ht => ⟨?_, hn _⟩
    rw [hw]
    exact (hi.timed.waiting t ht).1
  · exact hi.queues.congr (congrArg State.resourcesList h.same :) (congrArg State.queues h.same :)
      (congrArg State.queuePool h.same :) (congrArg State.messagePool h.same :)
      fun _ p _ => (congrArg PCB.syscallArgs (h.core p) :)
  · rw [h.family hi.status]
    have h1 : (s.family.orphan s.running).Wf := hi.tree.wf.orphan hne
    have h2 := h1.bury hne Family.orphan_children
    exact h2
  · exact (congrArg PCB.descriptors (h.core p) :).trans (hi.tree.descriptors p)
  · exact hi.answers.same (congrArg State.history h.same :) (congrArg State.calls h.same :)
      fun p => ⟨(congrArg PCB.call (h.core p) :), hn p, (congrArg PCB.syscallArgs (h.core p) :),
        (congrArg PCB.syscallRetvalue (h.core p) :)⟩

end Retired

/-! ## The parent that waits -/

/-- The state after the zombie `self`, of entry `e`, is reaped by its parent, which runs. -/
def handedOver (s : State) (self parent : PcbRef) (e : PCBPtr) (mem : Int → UInt8) : State :=
  { s with
    running := parent
    pcbs := fun i =>
      if i = parent then
        { s.pcbs i with
          status := .running, children := (s.pcbs i).children.erase e,
          syscallRetvalue := (s.pcbs self).pid }
      else s.pcbs i
    waitingList := s.waitingList.erase parent
    zombieList := s.zombieList.erase self
    pcbPool := s.pcbPool.release self
    mem := mem
    history := s.history ++ [.retval (s.pcbs parent).call (s.pcbs self).pid] }

theorem purgeTimers_eq (h : ∀ t ∈ s.timerList, t.pcb ≠ p) : purgeTimers s p = s := by
  have h1 : s.timerList.filter (·.pcb ≠ p) = s.timerList :=
    List.filter_eq_self.2 fun t ht => by simpa using h t ht
  have h2 : s.timerList.filter (·.pcb = p) = [] :=
    List.filter_eq_nil_iff.2 fun t ht => by simpa using h t ht
  unfold purgeTimers
  rw [h1, h2]
  rfl

theorem exitToParent_none (hp : parent ∈ s.waitingList)
    (he : pcbPtrByPid s (s.pcbs parent).children (s.pcbs self).pid = none) :
    exitToParent s self parent = .error .nullDeref := by
  unfold exitToParent
  rw [Placed.detach_eq (L := .waiting) hp, ok_bind]
  have h1 : pcbPtrByPid ((s.setList .waiting ((s.list .waiting).erase parent)).setStatus parent
      .running) (s.pcbs parent).children (s.pcbs self).pid = none := by
    rw [← he]
    unfold pcbPtrByPid
    simp
  simp [h1]

theorem exitToParent_eq (hp : parent ∈ s.waitingList) (hz : self ∈ s.zombieList)
    (ht : ∀ t ∈ s.timerList, t.pcb ≠ self) (hd : (s.pcbs self).descriptors = [])
    (he : pcbPtrByPid s (s.pcbs parent).children (s.pcbs self).pid = some e) :
    exitToParent s self parent = .ok (handedOver s self parent e
      (storeResult s ((s.pcbs parent).syscallArgs 1) (s.pcbs self).returnValue).mem) := by
  unfold exitToParent
  rw [Placed.detach_eq (L := .waiting) hp, ok_bind]
  set u := (s.setList .waiting ((s.list .waiting).erase parent)).setStatus parent .running with hu
  have h1 : (u.pcbs self).pid = (s.pcbs self).pid := by simp [hu]
  have h2 : (u.pcbs parent).children = (s.pcbs parent).children := by simp [hu]
  have h3 : pcbPtrByPid u (s.pcbs parent).children (s.pcbs self).pid = some e := by
    rw [← he]
    unfold pcbPtrByPid
    simp [hu]
  simp only [h1, h2, h3]
  set w := (u.setChildren parent ((s.pcbs parent).children.erase e)).setRetvalue parent
    (s.pcbs self).pid with hw
  set mem := (storeResult s ((s.pcbs parent).syscallArgs 1) (s.pcbs self).returnValue).mem with hmem
  have hm : storeResult w ((w.pcbs parent).syscallArgs 1) (w.pcbs self).returnValue =
      { w with mem := mem } := by
    have ha : (w.pcbs parent).syscallArgs = (s.pcbs parent).syscallArgs := by simp [hw, hu]
    have hv : (w.pcbs self).returnValue = (s.pcbs self).returnValue := by simp [hw, hu]
    rw [ha, hv, hmem]
    unfold storeResult
    split <;> rfl
  have h4 : purgeTimers { w with mem := mem } self = { w with mem := mem } := purgeTimers_eq ht
  have h5 : ({ w with mem := mem }.pcbs self).descriptors = [] := by
    simp [hw, hu, hd]
  have h6 : self ∈ State.list { w with mem := mem } .zombie := hz
  rw [hm, h4, h5, releaseDescriptors, ok_bind, Placed.detach_eq h6, ok_bind]
  simp only [handedOver, pcbFree, Except.ok.injEq, hw, hu]
  simp only [State.setChildren, State.setList, State.setRetvalue, State.setStatus, State.setRunning,
    State.list]
  congr 1
  · funext i
    by_cases hi : i = parent <;> simp [hi]

theorem handedOver_spec (h : Consistent s [] []) (hi : Idle s) (hz : self ∈ s.zombieList)
    (hw : parent ∈ s.waitingList) (hn : (s.pcbs parent).syscallNum = dsosCallWait)
    (he : e ∈ (s.pcbs parent).children) (mem : Int → UInt8) (hself : e.pcb = self) :
    Inv (handedOver s self parent e mem) ∧
      (handedOver s self parent e mem).family = (s.family.reap parent self).wake parent := by
  have hne : self ≠ parent := by
    rintro rfl
    have hL : PcbList.zombie = .waiting := h.placed.disj hz hw
    cases hL
  have ha : s.Alloc self := h.placed.alloc (L := .zombie) hz
  have hzst : (s.pcbs self).status = .zombie := h.placed.status (L := .zombie) hz
  have hmem : self ∈ s.family.children parent := hself ▸ List.mem_map_of_mem he
  have hkeep : ∀ q, ((handedOver s self parent e mem).pcbs q).syscallNum = (s.pcbs q).syscallNum ∧
      ((handedOver s self parent e mem).pcbs q).syscallArgs = (s.pcbs q).syscallArgs ∧
      ((handedOver s self parent e mem).pcbs q).call = (s.pcbs q).call ∧
      ((handedOver s self parent e mem).pcbs q).pid = (s.pcbs q).pid ∧
      ((handedOver s self parent e mem).pcbs q).parent = (s.pcbs q).parent ∧
      ((handedOver s self parent e mem).pcbs q).descriptors = (s.pcbs q).descriptors := by
    intro q
    by_cases hq : q = parent <;> simp [handedOver, hq]
  have hfam : (handedOver s self parent e mem).family =
      (s.family.reap parent self).wake parent := by
    unfold State.family Family.reap Family.wake
    simp only [(hkeep _).1, (hkeep _).2.1, (hkeep _).2.2.2.1, (hkeep _).2.2.2.2.1,
      Family.mk.injEq, true_and]
    refine ⟨Pool.release_sizeMax, rfl, funext fun q => propext (Pool.used_release ha),
      funext fun q => ?_, rfl, funext fun q => propext ?_, funext fun q => ?_⟩
    · by_cases hq : q = parent
      · simp only [handedOver, hq, if_true]
        exact (map_erase_of_nodup (h.tree.wf.nodup parent) he).trans (by rw [hself])
      · simp [handedOver, hq]
    · exact (h.placed.nodup .zombie).mem_erase_iff
    · by_cases hq : q = parent <;> simp [handedOver, hq]
  have hpl : Placed (handedOver s self parent e mem) [parent] := by
    have h1 := (h.placed.detach_erase (L := .waiting) hw).setStatus (p := parent) (by simp) .running
    have h2 := h1.detach_erase (L := .zombie) (p := self) hz
    have h3 := h2.release (by simpa using hne) (by simp [hne, hzst])
    refine h3.congr rfl (fun L => by cases L <;> rfl) fun q hq => ?_
    have hq : q ≠ parent := by simpa using hq
    simp [handedOver, pcbFree, hq]
  refine ⟨⟨⟨hpl, ?_, ?_, ⟨?_, fun q => ?_⟩, ?_⟩, ?_, ?_⟩, hfam⟩
  · refine h.timed.congr rfl fun t ht => ⟨?_, (hkeep _).1⟩
    obtain ⟨h1, h2⟩ := h.timed.waiting t ht
    refine (List.mem_erase_of_ne ?_).2 h1
    intro e'
    rw [e', hn] at h2
    exact absurd h2 (by decide)
  · exact h.queues.congr rfl rfl rfl rfl fun _ q _ => (hkeep q).2.1
  · rw [hfam]
    exact (h.tree.wf.reap hmem (h.tree.wf.zombie hz)).congr rfl (fun _ => .rfl) rfl rfl rfl rfl
      fun _ => id
  · exact (hkeep q).2.2.2.2.2.trans (h.tree.descriptors q)
  · refine (h.answers.setRetvalue parent (s.pcbs self).pid).same rfl rfl fun q => ?_
    by_cases hq : q = parent <;> simp [handedOver, hq]
  · simp [handedOver]
  · exact hi.congr rfl rfl fun _ q _ => by simp [State.request, (hkeep q).2.1, (hkeep q).2.2.1]

/-! ## The call -/

/-- The exit of init. -/
theorem exit_init (h : Inv s) (hinit : s.running = s.initPcb) :
    internalExit s = .error .nullDeref ∨ internalExit s = .error .diverges := by
  unfold internalExit
  by_cases hc : (s.pcbs s.running).children = []
  · refine .inl ?_
    have hp : (s.pcbs s.running).parent = none := hinit ▸ h.tree.wf.rootParent
    have h1 := ((h.placed.updPcb_held (p := s.running) (by simp)
      fun pcb => { pcb with returnValue := pcb.syscallArgs 0 }).setStatus (p := s.running) (by simp)
        .zombie).insertLast (L := .zombie) (by simp) (by simp [PcbList.status]) trivial
    simp [reparentChildren, hc, h1.1, hp]
  · refine .inr ?_
    have h1 := reparent_init ((s.pcbs s.running).children.length + 1)
      (s := s.updPcb s.running fun pcb => { pcb with returnValue := pcb.syscallArgs 0 }) hinit
      (by simpa using hc)
    simp [h1]

/-- The parent, if it waits, reaps the caller and runs, unless it does not have it on its list. -/
theorem exitToParent_reaps (h : Inv s) (hne : s.running ≠ s.initPcb) (hr : Retired s s')
    (hw : waitsFor s' parent (s'.pcbs s.running).pid) :
    exitToParent s' s.running parent = .error .nullDeref ∨
      ∃ e ∈ (s'.pcbs parent).children, e.pcb = s.running ∧ parent ∈ s'.waitingList ∧
        exitToParent s' s.running parent = .ok (handedOver s' s.running parent e
          (storeResult s' ((s'.pcbs parent).syscallArgs 1) (s'.pcbs s.running).returnValue).mem) := by
  have h1 := hr.consistent h hne
  obtain ⟨hst, hn, -⟩ := hw
  have halloc : s'.Alloc parent := by
    by_contra ha
    exact h1.placed.free ha hst
  obtain ⟨L, hL⟩ := h1.placed.total halloc (by simp)
  have hwl : parent ∈ s'.waitingList := by
    have h2 := h1.placed.status hL
    have h3 := h1.placed.accepts hL
    rw [hst] at h2
    rw [hn] at h3
    cases L with
    | waiting => exact hL
    | ready => simp [PcbList.status] at h2
    | zombie => simp [PcbList.status] at h2
    | receivers q => exact absurd h3 (by simp only [PcbList.Accepts]; decide)
    | senders q => exact absurd h3 (by simp only [PcbList.Accepts]; decide)
  have hz : s.running ∈ s'.zombieList := by rw [hr.zombies]; simp
  cases he : pcbPtrByPid s' (s'.pcbs parent).children (s'.pcbs s.running).pid with
  | none => exact .inl (exitToParent_none hwl he)
  | some e =>
    have hmem : e ∈ (s'.pcbs parent).children := List.mem_of_find?_eq_some he
    have hpid : (s'.pcbs e.pcb).pid = (s'.pcbs s.running).pid := by simpa using List.find?_some he
    have hself : e.pcb = s.running :=
      h1.tree.wf.pid_inj (h1.tree.wf.entry (q := parent) (List.mem_map_of_mem hmem)).1
        (h1.placed.alloc (L := .zombie) hz) hpid
    exact .inr ⟨e, hmem, hself, hwl, exitToParent_eq hwl hz (fun t ht e' => by
      have hL : PcbList.waiting = .zombie := h1.placed.disj (h1.timed.waiting t ht).1 (e' ▸ hz)
      cases hL) (h1.tree.descriptors _) he⟩

/-- The parent sleeps in a `wait` that the exit of the running process ends, and has it among its
children, or gets it with the others. -/
structure Awaits (s : State) (parent : PcbRef) : Prop where
  asleep : s.family.asleep parent = some ((s.pcbs parent).syscallArgs 0)
  named : Matches ((s.pcbs parent).syscallArgs 0) (s.family.pid s.running)
  child : s.running ∈ (s.family.orphan s.running).children parent

/-- The parent reaps the caller, and the rest of the family is as the caller has left it. -/
theorem handedOver_family (h : Inv s) (hne : s.running ≠ s.initPcb) (hr : Retired s s')
    (hw : waitsFor s' parent (s'.pcbs s.running).pid) (he : e ∈ (s'.pcbs parent).children)
    (hself : e.pcb = s.running) (hwl : parent ∈ s'.waitingList) (mem : Int → UInt8) :
    Inv (handedOver s' s.running parent e mem) ∧
      (handedOver s' s.running parent e mem).family =
        ((s.family.orphan s.running).reap parent s.running).wake parent ∧ Awaits s parent := by
  have hfam := hr.family h.status
  obtain ⟨hst, hn, hargs⟩ := hw
  have hz : s.running ∈ s'.zombieList := by rw [hr.zombies]; simp
  obtain ⟨h2, h3⟩ := handedOver_spec (hr.consistent h hne) (hr.idle h.idle) hz hwl hn he mem hself
  have ha : (s'.pcbs parent).syscallArgs = (s.pcbs parent).syscallArgs :=
    (congrArg PCB.syscallArgs (hr.core parent) :)
  have hpid : (s'.pcbs s.running).pid = (s.pcbs s.running).pid :=
    (congrArg PCB.pid (hr.core s.running) :)
  refine ⟨h2, ?_, ?_, ?_, ?_⟩
  · rw [h3, hfam, Family.reap_bury]
  · have h4 := asleep_eq_some.2 ⟨hst, hn, rfl⟩
    rw [hfam, ha] at h4
    exact h4
  · rwa [ha, hpid] at hargs
  · have h5 : e.pcb ∈ s'.family.children parent := List.mem_map_of_mem he
    rw [hfam, hself] at h5
    exact h5

/-- A parent that does not wait for the caller sleeps in no `wait` that the caller ends. -/
theorem not_matches (hr : Retired s s') (hst : (s.pcbs s.running).status = .running)
    (hw : ¬ waitsFor s' parent (s'.pcbs s.running).pid) {w : Int}
    (ha : s.family.asleep parent = some w) : ¬ Matches w (s.family.pid s.running) := by
  intro hm
  have h1 : s'.family.asleep parent = some w := by
    rw [hr.family hst]
    exact ha
  obtain ⟨h2, h3, rfl⟩ := asleep_eq_some.1 h1
  have hpid : (s'.pcbs s.running).pid = (s.pcbs s.running).pid :=
    (congrArg PCB.pid (hr.core s.running) :)
  refine hw ⟨h2, h3, ?_⟩
  rw [hpid]
  exact hm

/-- What follows the signal to the parent, when the parent waits. -/
theorem exitToParent_spec (h : Inv s) (hne : s.running ≠ s.initPcb) (hr : Retired s s')
    (hp : (s.pcbs s.running).parent = some parent)
    (hw : waitsFor s' parent (s'.pcbs s.running).pid) :
    Ensures (exitToParent s' s.running parent) (· = .nullDeref) fun s'' =>
      Inv s'' ∧ s.family.Step s.running (.exit v) s''.family := by
  rcases exitToParent_reaps h hne hr hw with he | ⟨e, hmem, hself, hwl, hm⟩
  · rw [he]
    rfl
  obtain ⟨h1, h2, h3⟩ := handedOver_family h hne hr hw hmem hself hwl
    (storeResult s' ((s'.pcbs parent).syscallArgs 1) (s'.pcbs s.running).returnValue).mem
  rw [hm]
  refine ⟨h1, ?_⟩
  rw [h2]
  exact .exitToParent v parent _ hne hp h3.asleep h3.named h3.child

/-- The exit of any other process, up to the question whether the parent waits. -/
theorem exit_retires (h : Inv s) (hne : s.running ≠ s.initPcb) : ∃ s₁, Retired s s₁ ∧
    internalExit s = match (s.pcbs s.running).parent with
      | none => .error .nullDeref
      | some parent =>
        if waitsFor s₁ parent (s₁.pcbs s.running).pid then exitToParent s₁ s.running parent
        else exitToNext s₁ := by
  obtain ⟨s₁, h2, s₂, h3, h4⟩ := retire_eq h hne
  have hch : ((s.updPcb s.running fun pcb => { pcb with returnValue := pcb.syscallArgs 0 }).pcbs
      s.running).children = (s.pcbs s.running).children := by simp
  have hpar : (s₂.pcbs s.running).parent = (s.pcbs s.running).parent :=
    (congrArg PCB.parent (h4.core s.running) :)
  unfold internalExit
  simp only [hch, h2, ok_bind, h3, hpar]
  cases hp : (s.pcbs s.running).parent with
  | none => exact ⟨s₂, h4, rfl⟩
  | some parent => exact ⟨_, h4.signal parent dsosSigchld, rfl⟩

/-- **`exit`** keeps the invariant, and does to the family what an exit does. -/
theorem exit_spec (h : Inv s) (v : Int) :
    Ensures (internalExit (saveCall s (.exit v))) (fun x => x = .nullDeref ∨ x = .diverges)
      fun s' => Inv s' ∧ s.family.Step s.running (.exit v) s'.family := by
  have h1 := h.saveCall (.exit v)
  have hfam := family_saveCall (c := .exit v) h.status
  have hrun := saveCall_running s (.exit v)
  rw [← hfam, ← hrun]
  set t := saveCall s (.exit v)
  by_cases hinit : t.running = t.initPcb
  · rcases exit_init h1 hinit with h2 | h2 <;> rw [h2] <;> simp
  obtain ⟨s₁, h5, he⟩ := exit_retires h1 hinit
  rw [he]
  cases hp : (t.pcbs t.running).parent with
  | none => simp
  | some parent =>
    simp only
    split
    · rename_i hw
      exact (exitToParent_spec h1 hinit h5 hp hw).mono (fun _ => .inl) fun _ => id
    · rename_i hw
      have h6 := h5.consistent h1 hinit
      refine h6.runNext.mono (fun _ => .inl) fun s' ⟨h7, h8, h9⟩ => ⟨⟨h6.reschedule h7 h8, h8.status,
        (h5.idle h1.idle).reschedule h7⟩, ?_⟩
      rw [h9, h5.family h1.status]
      exact .exitToNext v parent hinit hp fun w hasleep => not_matches h5 h1.status hw hasleep

end

end DisastrOS
