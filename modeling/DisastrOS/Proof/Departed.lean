import DisastrOS.Proof.Sane

/-!
# Life after `exit`

A process that has called `exit` is a zombie, and nothing but a timer could wake it again. `exit`
purges the timers of the caller only when it resumes a waiting parent; a caller has a pending timer
if it has slept while nobody could run instead. In a run without an `exit` of this kind
(`Lingers`), in which no PCB gets on two lists (`Relinks`), no process runs again after its `exit`
(`exited_never_runs`).
-/

namespace DisastrOS

open Lib State

section
variable {s s' s₁ : State} {p : PcbRef} {pid : Nat} {v : Int} {e : Event} {es es' : List Event}

/-- The event is an `exit` that leaves a pending timer of its caller behind. -/
def Lingers (s : State) : Event → Prop
  | .syscall (.exit v) => (∃ t ∈ s.timerList, t.pcb = s.running) ∧
      ∀ parent ∈ (s.pcbs s.running).parent,
        ¬ waitsFor (saveCall s (.exit v)) parent (s.pcbs s.running).pid
  | _ => False

instance (s : State) : DecidablePred (Lingers s)
  | .syscall (.exit v) => inferInstanceAs (Decidable ((∃ t ∈ s.timerList, t.pcb = s.running) ∧
      ∀ parent ∈ (s.pcbs s.running).parent,
        ¬ waitsFor (saveCall s (.exit v)) parent (s.pcbs s.running).pid))
  | .syscall .preempt | .syscall .fork | .syscall (.wait ..) | .syscall (.spawn ..)
  | .syscall (.sleep _) | .syscall (.openResource ..) | .syscall (.closeResource _)
  | .syscall (.destroyResource _) | .syscall (.mqCreate ..) | .syscall (.mqSend ..)
  | .syscall (.mqReceive ..) | .syscall (.mqDestroy _) | .syscall .shutdown | .tick | .store .. =>
    isFalse id

/-- The process that got the number `pid` on block `p` does not run, and is not ready to. -/
def NeverRuns (p : PcbRef) (pid : Nat) (s : State) : Prop :=
  (s.pcbs p).pid = pid → s.running ≠ p ∧ p ∉ s.readyList ∧
    (s.pcbs p).status ≠ .ready ∧ (s.pcbs p).status ≠ .running

/-- It is a zombie, or its block is free, and no timer names it. -/
structure Departed (s : State) (p : PcbRef) : Prop extends Resting s p where
  status : (s.pcbs p).status = .zombie
  timeless : ∀ t ∈ s.timerList, t.pcb ≠ p

theorem Departed.rests (h : Departed s p) (hr : Rests p s s') : Departed s' p where
  toResting := h.toResting.rests hr
  status := hr.status.trans h.status
  timeless t ht he := h.timeless t (hr.timers t ht he) he

/-- A zombie that does not run and has no timers has departed. -/
theorem Sane.departed (h : Sane s) (hst : (s.pcbs p).status = .zombie) (hne : s.running ≠ p)
    (ht : ∀ t ∈ s.timerList, t.pcb ≠ p) : Departed s p := by
  have hL : ∀ {L}, p ∈ s.list L → L = .zombie ∨ L = .waiting := fun {L} hm => by
    rcases h.table.status hm with h1 | ⟨h1, -⟩
    · rw [hst] at h1
      cases L <;> first | exact .inl rfl | cases h1
    · exact .inr h1
  refine ⟨⟨hne, fun hm => ?_, fun q hm => ?_, fun q hm => ?_, fun t hm he => absurd he (ht t hm),
    fun hw => ?_⟩, hst, ht⟩
  · rcases hL hm with h1 | h1 <;> cases h1
  · rcases hL hm with h1 | h1 <;> cases h1
  · rcases hL hm with h1 | h1 <;> cases h1
  · rw [hst] at hw
    cases hw

/-- The caller of `exit`, unless it lingers. -/
theorem exit_departed (h : Sane s) (hs : internalExit s = .ok s')
    (hn : (s.pcbs s.running).syscallNum ≠ dsosCallWait)
    (ht : (∃ t ∈ s.timerList, t.pcb = s.running) → ∃ parent,
      (s.pcbs s.running).parent = some parent ∧ waitsFor s parent (s.pcbs s.running).pid) :
    Departed s' s.running := by
  have hsane := (exit_steps h hs).sane
  obtain ⟨s₁, s₂, s₃, parent, hq₁, hi, hp, hq₂, hor⟩ := exit_cases hs
  have htl : s₃.timerList = s.timerList := by
    rw [hq₂.timerList, listInsert_timerList hi, setStatus_timerList, hq₁.timerList]
  have hst : (s₃.pcbs s.running).status = .zombie := by
    rw [hq₂.status, listInsert_pcbs hi]
    simp
  have hpid : (s₃.pcbs s.running).pid = (s.pcbs s.running).pid := by
    rw [hq₂.pid, listInsert_pcbs hi]
    simp [hq₁.pid]
  have hpar : (s.pcbs s.running).parent = some parent := by
    rw [listInsert_pcbs hi] at hp
    simpa [hq₁.parent] using hp
  rw [waitsFor_retired hq₁ hi hq₂ hn, hpid] at hor
  have h1 := (h.retire hq₁ hi).1.still (.quiet hq₂)
  -- it stays a zombie, and no timer of it is left
  suffices key : (s'.pcbs s.running).status = .zombie ∧ ∀ t ∈ s'.timerList, t.pcb ≠ s.running by
    refine hsane.departed key.1 (fun e => ?_) key.2
    rcases hsane.runs with ⟨-, hr⟩ | ⟨-, hr⟩ <;> rw [e, key.1] at hr <;> cases hr
  rcases hor with ⟨hw, he⟩ | ⟨hw, hy⟩
  · have hwait := (waitsFor_retired hq₁ hi hq₂ hn).2 hw
    obtain ⟨-, -, -, -, -, -, -, -, hrest, htim⟩ := exitToParent_table h1
      (h.listed.keeps ((h.retire hq₁ hi).2.1.trans (.quiet hq₂)).toKeeps) he
    refine ⟨(hrest _ ?_).status.trans hst, htim⟩
    rintro rfl
    have h2 := hwait.1
    rw [hst] at h2
    cases h2
  · obtain ⟨-, -, -, -, hrest⟩ := hy.spec h1
    have hr := hrest s.running fun hm => by
      rcases h1.status hm with h3 | ⟨h3, -⟩
      · rw [hst] at h3
        cases h3
      · cases h3
    refine ⟨hr.status.trans hst, fun t hm he => ?_⟩
    obtain ⟨parent', hp', hw'⟩ := ht ⟨t, htl ▸ hr.timers t hm he, he⟩
    obtain rfl : parent = parent' := Option.some.inj (hpar.symm.trans hp')
    exact hw hw'

/-! ## Steps and runs -/

/-- What the number `pid` says about block `p`: it has been given out, and if the block still has it,
the process has departed. -/
def DepartedAs (p : PcbRef) (pid : Nat) (s : State) : Prop :=
  Sane s ∧ pid < s.lastPid ∧ ((s.pcbs p).pid = pid → Departed s p)

theorem Departed.clock (h : Departed s p) (e : Event) : Departed (clock s e) p := by
  cases e with
  | tick =>
    exact { h with
      ready := h.ready, receivers := h.receivers, senders := h.senders
      timers := fun t ht he => absurd he (h.timeless t ht) }
  | _ => exact h

theorem DepartedAs.step (h : DepartedAs p pid s) (hs : step s e = .ok s') :
    DepartedAs p pid s' := by
  obtain ⟨h1, h2, h3⟩ := h
  have h4 := step_steps h1 hs
  have hlast : (DisastrOS.clock s e).lastPid = s.lastPid := by cases e <;> rfl
  have hpcbs : (DisastrOS.clock s e).pcbs = s.pcbs := by cases e <;> rfl
  have hle := h4.lastPid
  have hpid := h4.pid p
  rw [hlast] at hle hpid
  rw [hpcbs] at hpid
  refine ⟨h4.sane, by omega, fun hp => ?_⟩
  have hold : (s.pcbs p).pid = pid := by omega
  have h5 := (h3 hold).clock e
  exact h5.rests (h4.rests p h5.toResting (.inl (by rw [hpcbs]; omega)))

theorem DepartedAs.neverRuns (h : DepartedAs p pid s) : NeverRuns p pid s := fun hp => by
  have h1 := h.2.2 hp
  exact ⟨h1.running, h1.ready, by simp [h1.status], by simp [h1.status]⟩

/-- **A process that has called `exit` never runs again**, in a run in which no `exit` leaves a
timer of its caller behind and no PCB that is alone on one list is linked into another. -/
theorem exited_never_runs
    (hn : Along step (fun s e => ¬ Relinks s e ∧ ¬ Lingers s e) boot
      (es ++ .syscall (.exit v) :: es'))
    (hr : run step boot es = .ok s) (hs : step s (.syscall (.exit v)) = .ok s₁) :
    Always step (NeverRuns s.running (s.pcbs s.running).pid) s₁ es' := by
  have h := run_sane hr
  have h0 := h.saveCall (.exit v)
  have hn' : ¬ Lingers s (.syscall (.exit v)) := (hn.drop hr).1.2
  have hpid : ((saveCall s (.exit v)).pcbs s.running).pid = (s.pcbs s.running).pid := by
    simp [saveCall]
  have hpar : ((saveCall s (.exit v)).pcbs s.running).parent = (s.pcbs s.running).parent := by
    simp [saveCall]
  have h1 : Departed s₁ (saveCall s (.exit v)).running := by
    refine exit_departed h0 ((step_syscall rfl).symm.trans hs) (by simp [saveCall, Syscall.num])
      fun ht => ?_
    rw [saveCall_running, hpid, hpar]
    by_contra hno
    exact hn' ⟨ht, fun parent hp hw => hno ⟨parent, hp, hw⟩⟩
  have h2 := step_steps h hs
  refine always_of_along (I := DepartedAs s.running (s.pcbs s.running).pid) (A := fun _ => True)
    (fun _ h => h.neverRuns) (fun _ _ _ h _ _ hs => h.step hs)
    ⟨h2.sane, (h.pids _).trans_le h2.lastPid, fun _ => h1⟩ (fun _ _ => trivial) along_true

/-- Init goes to sleep, and so does its child while nobody else is there; the child goes on running
and creates another process. -/
def dozingRun : List Event :=
  [.syscall (.spawn 0 0), .syscall (.sleep 100), .syscall (.sleep 2), .syscall (.spawn 0 0)]

/-- The child exits, and runs again when its timer elapses. -/
theorem dozingRun_runs_again : ∃ s s₁, run step boot dozingRun = .ok s ∧
    step s (.syscall (.exit 0)) = .ok s₁ ∧
    ¬ Always step (NeverRuns s.running (s.pcbs s.running).pid) s₁ [.tick, .tick] := by
  have hc : (run step boot dozingRun).toOption.any (fun s =>
      (step s (.syscall (.exit 0))).toOption.any fun s₁ =>
        (run step s₁ [.tick, .tick]).toOption.any fun s₂ =>
          s₂.running = s.running ∧ (s₂.pcbs s.running).pid = (s.pcbs s.running).pid) = true := by
    decide +kernel
  obtain ⟨s, hr, hc⟩ := run_check hc
  obtain ⟨s₁, h₁, hc⟩ := ok_of_any hc
  obtain ⟨s₂, h₂, hc⟩ := run_check hc
  obtain ⟨h3, h4⟩ := of_decide_eq_true hc
  exact ⟨s, s₁, hr, h₁, fun ha => (ha.last h₂ h4).1 h3⟩

/-- Init sleeps, and its children exit one after the other. -/
def departingRun : List Event :=
  [.syscall (.spawn 0 0), .syscall (.spawn 0 0), .syscall (.sleep 2)]

theorem exited_never_runs_departingRun : ∃ s s₁, run step boot departingRun = .ok s ∧
    step s (.syscall (.exit 0)) = .ok s₁ ∧
    Always step (NeverRuns s.running (s.pcbs s.running).pid) s₁
      [.tick, .tick, .syscall (.wait 0 0), .syscall (.spawn 0 0)] := by
  have hc : (run step boot departingRun).toOption.any (fun s =>
      (step s (.syscall (.exit 0))).toOption.any fun _ => true) = true := by decide +kernel
  obtain ⟨s, hr, hc⟩ := run_check hc
  obtain ⟨s₁, h₁, -⟩ := ok_of_any hc
  exact ⟨s, s₁, hr, h₁, exited_never_runs (by decide +kernel) hr h₁⟩

end

end DisastrOS
