import DisastrOS.Proof.Dispatch
import DisastrOS.Proof.System

/-!
# Where the kernel stops

`State.Halts` lists the reasons for which a call on queues or processes stops the kernel: `spawn` has
a PCB for the new process and no entry for the children list, `wait` and `exit` find nobody to run,
the parent that `exit` resumes does not have the caller on its list, or init exits. Runs of `Sound`
events stop for these reasons exactly (`run_stops_iff`): no list operation goes wrong, and no call
on queues stops the kernel. Ticks come while user code runs, as everywhere.
-/

namespace DisastrOS

open Lib State

section
variable {s s' : State} {p parent : PcbRef} {c : Syscall} {e : Event} {es : List Event} {x : Halt}
  {L : PcbList} {w : Int}

/-- Not a `fork`, whose child has no context to run in on a fresh block, nor a call with a buffer for a
message that is NULL, which the kernel does not check. -/
def Event.Sound : Event → Prop
  | .syscall .fork => False
  | .syscall (.mqSend _ msg _) => msg ≠ 0
  | .syscall (.mqReceive _ buffer _) => buffer ≠ 0
  | _ => True

instance : DecidablePred Event.Sound
  | .syscall .fork => isFalse id
  | .syscall (.mqSend ..) | .syscall (.mqReceive ..) => inferInstanceAs (Decidable (_ ≠ _))
  | .tick | .store .. | .syscall .preempt | .syscall (.wait ..) | .syscall (.exit _)
  | .syscall (.spawn ..) | .syscall (.sleep _) | .syscall (.openResource ..)
  | .syscall (.closeResource _) | .syscall (.destroyResource _) | .syscall .shutdown
  | .syscall (.mqCreate ..) | .syscall (.mqDestroy _) => isTrue trivial

/-- Why the event stops the kernel, if it does. -/
def State.Halts (s : State) : Event → Option Halt
  | .syscall (.spawn ..) =>
    if s.pcbPool.free ≠ [] ∧ s.pcbPtrPool.free = [] then some .assertion else none
  | .syscall (.wait pid _) =>
    if WaitSleeps s pid ∧ s.readyList = [] then some .nullDeref else none
  | .syscall (.exit _) =>
    if s.running = s.initPcb then
      if (s.pcbs s.running).children = [] then some .nullDeref else some .diverges
    else
      match (s.pcbs s.running).parent with
      | none => some .nullDeref
      | some parent =>
        if waitsFor s parent (s.pcbs s.running).pid then
          if s.running ∈ s.family.children parent then none else some .nullDeref
        else if s.readyList = [] then some .nullDeref else none
  | _ => none

/-! ## Saving a call -/

theorem waitsFor_saveCall (h : (s.pcbs s.running).status = .running) (c : Syscall) (pid : Nat) :
    waitsFor (saveCall s c) parent pid ↔ waitsFor s parent pid := by
  by_cases hp : parent = s.running
  · subst hp
    simp [waitsFor, saveCall, h]
  · simp [waitsFor, saveCall, hp]

theorem waitSleeps_saveCall : WaitSleeps (saveCall s c) w ↔ WaitSleeps s w := by
  have hst : ∀ p, ((saveCall s c).pcbs p).status = (s.pcbs p).status := fun p => by
    by_cases hp : p = s.running <;> simp [saveCall, hp]
  have hc : ((saveCall s c).pcbs s.running).children = (s.pcbs s.running).children := by
    simp [saveCall]
  simp only [WaitSleeps, saveCall_running, hc, hst, waitScan_saveCall]

theorem halts_saveCall (h : (s.pcbs s.running).status = .running) (c : Syscall) (e : Event) :
    (saveCall s c).Halts e = s.Halts e := by
  have hpcb : ((saveCall s c).pcbs s.running).children = (s.pcbs s.running).children ∧
      ((saveCall s c).pcbs s.running).parent = (s.pcbs s.running).parent ∧
      ((saveCall s c).pcbs s.running).pid = (s.pcbs s.running).pid := by
    simp [saveCall]
  unfold State.Halts
  simp only [saveCall_running, waitSleeps_saveCall, waitsFor_saveCall h, hpcb, family_saveCall h]
  rfl

/-! ## The calls -/

/-- `spawn` fails for want of a PCB, asserts that there is an entry for the children list, and goes
through with both. -/
theorem stopped_spawn (h : Inv s) (f args : Int) :
    stopped (internalSpawn (saveCall s (.spawn f args))) =
      (saveCall s (.spawn f args)).Halts (.syscall (.spawn f args)) := by
  simp only [State.Halts, ne_eq, ← Pool.get_eq_none]
  cases hg : (saveCall s (.spawn f args)).pcbPool.get with
  | none =>
    rw [internalSpawn_full hg, if_neg (by simp)]
    rfl
  | some x =>
    obtain ⟨p, pool⟩ := x
    cases hb : (saveCall s (.spawn f args)).pcbPtrPool.get with
    | none =>
      rw [internalSpawn_noPtr hg hb, if_pos (by simp)]
      rfl
    | some y =>
      obtain ⟨b, ptrPool⟩ := y
      have hne := (born_spec (h.saveCall _).toConsistent ptrPool b hg).1
      obtain ⟨h1, -⟩ := grow_spec h ptrPool b 0 id (.inr ⟨f, args, rfl⟩) hg
      rw [internalSpawn_eq hne hg hb h1, if_neg (by simp)]
      rfl

/-- The switch to the first ready process. -/
theorem stopped_runNext (s : State) : stopped (do
      let (next, s) ← s.listDetachFirst .ready
      .ok ((s.setStatus next .running).setRunning next)) =
    if s.readyList = [] then some Halt.nullDeref else none := by
  unfold State.listDetachFirst
  cases hr : s.readyList with
  | nil => simp [State.list, hr, stopped]
  | cons next rest => simp [State.list, hr, stopped]

theorem stopped_waitSleep (h : Inv s) (hn : (s.pcbs s.running).syscallNum = dsosCallWait) :
    stopped (internalWait.waitSleep s s.running) =
      if s.readyList = [] then some .nullDeref else none := by
  have h1 := h.setStatus (p := s.running) (by simp) .waiting
  obtain ⟨h2, -⟩ := h1.insertWait (by simp) (by simp) (by simpa using hn)
  unfold internalWait.waitSleep
  simp only [h2, ok_bind]
  exact stopped_runNext _

theorem stopped_wait (h : Inv s) (hn : (s.pcbs s.running).syscallNum = dsosCallWait)
    (hw : (s.pcbs s.running).syscallArgs 0 = w) (result : Int) :
    stopped (internalWait s) = s.Halts (.syscall (.wait w result)) := by
  have hsleep := stopped_waitSleep h hn
  show _ = if WaitSleeps s w ∧ s.readyList = [] then some Halt.nullDeref else none
  unfold internalWait
  simp only [hw]
  by_cases hc : (s.pcbs s.running).children = []
  · rw [if_pos hc, if_neg fun hh => hh.1.1 hc]
    rfl
  rw [if_neg hc]
  have hspec : (waitScan s w none (s.pcbs s.running).children = none → _) ∧ _ :=
    waitScan_spec _ none
  obtain ⟨hnone, hsome⟩ := hspec
  cases hscan : waitScan s w none (s.pcbs s.running).children with
  | none => exact absurd (hnone hscan).1 hc
  | some e =>
    have he : e ∈ (s.pcbs s.running).children := by simpa using (hsome e hscan).1
    have hsl : WaitSleeps s w ↔ (s.pcbs e.pcb).status ≠ .zombie := by simp [WaitSleeps, hc, hscan]
    simp only [hsl]
    by_cases hz : (s.pcbs e.pcb).status = .zombie
    · have hmem : e.pcb ∈ s.family.children s.running := List.mem_map_of_mem he
      have hzl := (h.zombie_iff (h.tree.wf.entry hmem).1).1 hz
      have hne : e.pcb ≠ s.running := fun hne => by
        rw [hne, h.status] at hz
        cases hz
      rw [if_pos hz, if_neg fun hh => hh.1 hz, reap_eq rfl hne, if_pos hzl]
      rfl
    · rw [if_neg hz, hsleep]
      simp [hz]

theorem listDetach_error (h : s.listDetach L p = .error x) : x = .corrupted := by
  unfold State.listDetach at h
  split at h <;> cases h
  rfl

/-- A parent that finds the caller on its list looks at no null item. -/
theorem exitToParent_nullDeref {self : PcbRef} (hd : (s.pcbs self).descriptors = [])
    (h : exitToParent s self parent = .error .nullDeref) :
    pcbPtrByPid s (s.pcbs parent).children (s.pcbs self).pid = none := by
  rcases bind_eq_error.1 h with h₁ | ⟨s₁, h₁, h⟩
  · cases listDetach_error h₁
  have hs₁ : s₁.pcbs = s.pcbs := by
    obtain ⟨-, rfl⟩ := listDetach_cases h₁
    simp
  dsimp only at h
  split at h
  · rename_i hnone
    have hfind : pcbPtrByPid (s₁.setStatus parent .running) (s.pcbs parent).children
        (s.pcbs self).pid = none := by simpa [hs₁] using hnone
    rw [← hfind]
    unfold pcbPtrByPid
    simp [hs₁]
  · rcases bind_eq_error.1 h with h₂ | ⟨s₂, h₂, h⟩
    · have hnil : ∀ {u : State} {ds : List Descriptor}, ds = [] →
          releaseDescriptors self ds u ≠ .error .nullDeref := by
        rintro u ds rfl h
        cases h
      refine absurd h₂ (hnil ?_)
      unfold purgeTimers storeResult
      split <;> by_cases hp : self = parent <;> simp [hs₁, hd, hp] <;> exact hp ▸ hd
    · rcases bind_eq_error.1 h with h₃ | ⟨s₃, -, h⟩
      · cases listDetach_error h₃
      · cases h

theorem stopped_exit_init (h : Inv s) (hinit : s.running = s.initPcb) :
    stopped (internalExit s) =
      if (s.pcbs s.running).children = [] then some .nullDeref else some .diverges := by
  unfold internalExit
  by_cases hc : (s.pcbs s.running).children = []
  · have hp : (s.pcbs s.running).parent = none := hinit ▸ h.tree.wf.rootParent
    have h1 := ((h.placed.updPcb_held (p := s.running) (by simp)
      fun pcb => { pcb with returnValue := pcb.syscallArgs 0 }).setStatus (p := s.running) (by simp)
        .zombie).insertLast (L := .zombie) (by simp) (by simp [PcbList.status]) trivial
    simp [reparentChildren, hc, h1.1, hp, stopped]
  · have h1 := reparent_init ((s.pcbs s.running).children.length + 1)
      (s := s.updPcb s.running fun pcb => { pcb with returnValue := pcb.syscallArgs 0 }) hinit
      (by simpa using hc)
    simp [h1, hc, stopped]

theorem stopped_exit (h : Inv s) (v : Int) :
    stopped (internalExit s) = s.Halts (.syscall (.exit v)) := by
  unfold State.Halts
  dsimp only
  by_cases hinit : s.running = s.initPcb
  · rw [if_pos hinit]
    exact stopped_exit_init h hinit
  rw [if_neg hinit]
  obtain ⟨s₁, hret, he⟩ := exit_retires h hinit
  rw [he]
  cases hp : (s.pcbs s.running).parent with
  | none => rfl
  | some parent =>
    have hw : waitsFor s₁ parent (s₁.pcbs s.running).pid ↔
        waitsFor s parent (s.pcbs s.running).pid := by
      have hcore := hret.core
      simp only [PCB.core, PCB.mk.injEq] at hcore
      by_cases hself : parent = s.running
      · simp [waitsFor, hself, hret.status, h.status]
      · simp [waitsFor, hself, hret.status, (hcore _).1, hcore]
    have hready : s₁.readyList = s.readyList := (congrArg State.readyList hret.same :)
    simp only [hw]
    by_cases hwait : waitsFor s parent (s.pcbs s.running).pid
    · rw [if_pos hwait, if_pos hwait]
      have hne : parent ≠ s.running := fun he => by
        have := hwait.1
        rw [he, h.status] at this
        cases this
      have hfam : s.running ∈ s₁.family.children parent ↔ s.running ∈ s.family.children parent := by
        rw [hret.family h.status]
        refine (Family.mem_orphan hinit).trans
          ⟨fun hm => hm.2.resolve_right fun hm => ?_, fun hm => ⟨hne, .inl hm⟩⟩
        exact h.tree.wf.irrefl _ hm.2
      simp only [← hfam]
      have h1 := hret.consistent h hinit
      rcases exitToParent_reaps h hinit hret (hw.2 hwait) with herr | ⟨e, hmem, hself, -, hok⟩
      · have hnone := exitToParent_nullDeref (h1.tree.descriptors _) herr
        rw [herr, if_neg]
        · rfl
        · intro hm
          obtain ⟨e, hmem, hself⟩ := List.mem_map.1 hm
          have := List.find?_eq_none.1 hnone e hmem
          simp [hself] at this
      · have hm : s.running ∈ s₁.family.children parent := List.mem_map.2 ⟨e, hmem, hself⟩
        rw [hok, if_pos hm]
        rfl
    · rw [if_neg hwait, if_neg hwait, ← hready]
      exact stopped_runNext s₁

/-! ## Steps and runs -/

theorem stopped_step (h : Inv s) (he : e.IsProcessOrMq) (hsound : e.Sound) :
    stopped (step s e) = s.Halts e := by
  have hok : ∀ {s'}, step s e = .ok s' → stopped (step s e) = none := fun hs => by
    rw [hs]
    rfl
  cases e with
  | tick => exact hok (tick_spec h).choose_spec.1
  | store addr bytes => rfl
  | syscall c =>
    rw [← halts_saveCall h.status c]
    have h0 := h.saveCall c
    have hnum := saveCall_num s c
    cases c with
    | preempt => exact hok (preempt_spec h).choose_spec.1
    | fork => exact hsound.elim
    | spawn f args => exact (congrArg stopped (step_syscall rfl)).trans (stopped_spawn h f args)
    | wait pid result =>
      exact (congrArg stopped (step_syscall rfl)).trans
        (stopped_wait h0 hnum (saveCall_args s (.wait pid result) 0) result)
    | exit v => exact (congrArg stopped (step_syscall rfl)).trans (stopped_exit h0 v)
    | sleep n => exact hok (step_sleep h n).choose_spec.1
    | mqCreate id size =>
      exact hok ((step_syscall rfl).trans (mqCreate_spec h id size).choose_spec.1)
    | mqSend id msg size =>
      exact hok ((step_syscall rfl).trans (mqSend_spec h id msg size).choose_spec.1)
    | mqReceive id buffer size =>
      exact hok ((step_syscall rfl).trans (mqReceive_spec h id buffer size).choose_spec.1)
    | mqDestroy id => exact hok ((step_syscall rfl).trans (mqDestroy_spec h id).choose_spec.1)
    | _ => rcases he with he | he | he <;> exact he.elim

/-- **The kernel stops for these reasons only**, and at once: a run of sound calls on queues and
processes in which no `sleep` stalls ends with an error exactly if it comes to a state and an event
with such a reason. -/
theorem run_stops_iff (he : ∀ e ∈ es, e.IsProcessOrMq ∧ e.Sound)
    (hn : Along step (fun s e => ¬ Stalls s e) boot es) :
    run step boot es = .error x ↔ ∃ es₁ e es₂ s, es = es₁ ++ e :: es₂ ∧
      run step boot es₁ = .ok s ∧ s.Halts e = some x := by
  have key : ∀ {es₁ e es₂ s}, es = es₁ ++ e :: es₂ → run step boot es₁ = .ok s →
      stopped (step s e) = s.Halts e := by
    rintro es₁ e es₂ s rfl hr
    have hI := run_unstalled (fun e he' => (he e (List.mem_append_left _ he')).1) hn.take hr
    obtain ⟨h1, h2⟩ := he e (List.mem_append_right _ List.mem_cons_self)
    exact stopped_step hI h1 h2
  rw [run_eq_error_iff]
  constructor
  · rintro ⟨es₁, e, es₂, s, hes, hr, hs⟩
    exact ⟨es₁, e, es₂, s, hes, hr, by rw [← key hes hr, hs]; rfl⟩
  · rintro ⟨es₁, e, es₂, s, hes, hr, hs⟩
    exact ⟨es₁, e, es₂, s, hes, hr, eq_error_of_stopped ((key hes hr).trans hs)⟩

/-- Init waits for a child that is blocked on a queue. -/
def hungChildRun : List Event :=
  [.syscall (.spawn 0 0), .syscall (.mqCreate 5 1), .syscall .preempt,
   .syscall (.mqReceive 5 200 4), .syscall (.wait 0 0)]

theorem run_stops_iff_hungChild : run step boot hungChildRun = .error .nullDeref ∧
    ∃ es₁ e es₂ s, hungChildRun = es₁ ++ e :: es₂ ∧ run step boot es₁ = .ok s ∧
      s.Halts e = some .nullDeref := by
  have hs : run step boot hungChildRun = .error .nullDeref :=
    eq_error_of_stopped (by decide +kernel)
  exact ⟨hs, (run_stops_iff (by decide) (by decide +kernel)).1 hs⟩

end

end DisastrOS
