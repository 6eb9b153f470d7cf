import DisastrOS.Proof.Mixed

/-!
# Whom `wait` and `exit` hand the processor to

`wait` and `exit` switch to the first ready process and look at it before they check that there is
one. Who is ready follows from what the processes have called: a process is held up only by a timer
that it has set and by a call that has not been answered (`ready_iff`). So `wait` and `exit` find
somebody throughout a run exactly if, whenever they hand over, there is a process that is not held
up (`dispatches_iff`).
-/

namespace DisastrOS

open Lib State

section
variable {s s' : State} {L : PcbList} {p r : PcbRef} {ps : List PcbRef} {n : Nat} {e : Event}
  {es : List Event} {x : Halt}

/-- `wait` decides to sleep. -/
def WaitSleeps (s : State) (pidToWait : Int) : Prop :=
  (s.pcbs s.running).children ≠ [] ∧
    match waitScan s pidToWait none (s.pcbs s.running).children with
    | none => ¬ pidToWait > 0
    | some awaited => (s.pcbs awaited.pcb).status ≠ .zombie

/-- The call sleeps in a `wait`, or is an `exit` that resumes no waiting parent. -/
def HandsOver (s : State) : Event → Prop
  | .syscall (.wait pid _) => WaitSleeps s pid
  | .syscall (.exit v) => ∃ parent ∈ (s.pcbs s.running).parent,
      ¬ waitsFor (saveCall s (.exit v)) parent (s.pcbs s.running).pid
  | _ => False

/-- A call that hands the processor over finds a ready process, and detaches no null item. -/
def Dispatches (s : State) (e : Event) : Prop :=
  HandsOver s e → s.readyList ≠ [] ∧ stopped (step s e) ≠ some .nullDeref

/-- A call of process `p` that has an answer has not been answered yet. -/
def Unanswered (s : State) (p : PcbRef) : Prop :=
  ∃ n c pay, .issue n p c pay ∈ s.history ∧ c.Returns ∧ returned n s.history = []

/-- Another process than the running one that has not exited, waits for no answer, and has no timer
set. -/
structure Free (s : State) (p : PcbRef) : Prop where
  alloc : s.Alloc p
  other : p ≠ s.running
  alive : (s.pcbs p).status ≠ .zombie
  answered : ¬ Unanswered s p
  timeless : ∀ t ∈ s.timerList, t.pcb ≠ p

instance (s : State) (w : Int) : Decidable (WaitSleeps s w) :=
  haveI : Decidable (match waitScan s w none (s.pcbs s.running).children with
      | none => ¬ w > 0
      | some awaited => (s.pcbs awaited.pcb).status ≠ .zombie) :=
    match waitScan s w none (s.pcbs s.running).children with
    | none => inferInstanceAs (Decidable (¬ w > 0))
    | some awaited => inferInstanceAs (Decidable ((s.pcbs awaited.pcb).status ≠ .zombie))
  (instDecidableAnd : Decidable (_ ∧ _))

instance (s : State) : DecidablePred (HandsOver s)
  | .syscall (.wait pid _) => inferInstanceAs (Decidable (WaitSleeps s pid))
  | .syscall (.exit v) => inferInstanceAs (Decidable (∃ parent ∈ (s.pcbs s.running).parent,
      ¬ waitsFor (saveCall s (.exit v)) parent (s.pcbs s.running).pid))
  | .syscall .preempt | .syscall .fork | .syscall (.spawn ..) | .syscall (.sleep _)
  | .syscall (.openResource ..) | .syscall (.closeResource _) | .syscall (.destroyResource _)
  | .syscall (.mqCreate ..) | .syscall (.mqSend ..) | .syscall (.mqReceive ..)
  | .syscall (.mqDestroy _) | .syscall .shutdown | .tick | .store .. => isFalse id

instance (s : State) (e : Event) : Decidable (Dispatches s e) :=
  inferInstanceAs (Decidable (HandsOver s e → _))

/-! ## Who is held up -/

/-- A process that sleeps has a timer. -/
def Slept (s : State) : Prop := ∀ p, (s.pcbs p).status = .waiting →
  (s.pcbs p).syscallNum = dsosCallSleep → ∃ t ∈ s.timerList, t.pcb = p

theorem Slept.setStatus {st : ProcessStatus} (h : Slept s)
    (hst : st = .waiting → (s.pcbs p).syscallNum ≠ dsosCallSleep) : Slept (s.setStatus p st) := by
  intro q hq hn
  by_cases hp : q = p
  · subst hp
    exact absurd (by simpa using hn) (hst (by simpa using hq))
  · exact h q (by simpa [hp] using hq) (by simpa [hp] using hn)

theorem Slept.congr (h : Slept s) (hst : ∀ p, (s'.pcbs p).status = (s.pcbs p).status)
    (hn : ∀ p, (s'.pcbs p).syscallNum = (s.pcbs p).syscallNum) (ht : s'.timerList = s.timerList) :
    Slept s' := by
  intro p hp hnum
  rw [hst] at hp
  rw [hn] at hnum
  rw [ht]
  exact h p hp hnum

theorem Slept.setList (h : Slept s) : Slept (s.setList L ps) :=
  h.congr (by simp) (by simp) (by simp)

/-- Whoever loses its timer wakes up, or has exited; and nobody but the caller falls asleep. -/
theorem Effect.slept (h : Effect n r s s') (hn : n ≠ dsosCallSleep)
    (hr : n = dsosCallPreempt ∨ (s.pcbs r).syscallNum = n) (hs : Slept s) : Slept s' := by
  cases h with
  | minor h => exact hs.congr h.status h.syscallNum h.timerList
  | @wake t ts ps _ hl =>
    intro q hq hnum
    have hne : q ≠ t.pcb := by
      rintro rfl
      simp at hq
    obtain ⟨u, hu, rfl⟩ := hs q (by simpa [hne] using hq) (by simpa [hne] using hnum)
    rw [hl] at hu
    rcases List.mem_cons.1 hu with rfl | hu
    · exact absurd rfl hne
    · exact ⟨u, hu, rfl⟩
  | block hb =>
    refine hs.setStatus fun _ => ?_
    rcases hr with rfl | hr
    · exact absurd hb (by decide)
    · exact hr ▸ hn
  | preempt | retire | rouse => exact hs.setStatus (by simp)
  | yield | serve | giveUp => exact hs.setList.setStatus (by simp)
  | birth =>
    intro q hq hnum
    simp only [begun] at hq hnum
    split at hq
    · cases hq
    · rename_i hne
      rw [if_neg hne] at hnum
      exact hs q hq hnum
  | @purge _ hz =>
    intro q hq hnum
    obtain ⟨t, ht, rfl⟩ := hs q hq hnum
    refine ⟨t, List.mem_filter.2 ⟨ht, decide_eq_true ?_⟩, rfl⟩
    rintro he
    have hz' : (s.pcbs t.pcb).status = .zombie := he ▸ hz
    rw [show (s.pcbs t.pcb).status = .waiting from hq] at hz'
    cases hz'
  | enqueue | queueUp => exact hs.setList
  | value | signal => exact hs.congr (by simp) (by simp) rfl
  | _ => exact hs.congr (fun _ => rfl) (fun _ => rfl) rfl

theorem Effects.slept (h : Effects n r s s') (hn : n ≠ dsosCallSleep)
    (hr : n = dsosCallPreempt ∨ (s.pcbs r).syscallNum = n) (hs : Slept s) : Slept s' := by
  induction h with
  | refl => exact hs
  | tail hu he ih => exact he.slept hn (hr.imp_right (Effects.saved hu r).1.trans) ih

theorem schedule_slept (h : Slept s) (hs : internalSchedule s = .ok s') : Slept s' :=
  (schedule_effects (n := dsosCallPreempt) (.inl rfl) rfl hs).slept (by decide) (.inl rfl) h

theorem sleep_slept (h : Slept s) (hs : internalSleep s = .ok s') : Slept s' := by
  rcases sleep_effects hs with ⟨-, hm⟩ | ⟨-, b, pool, s₁, -, hm, hsch⟩
  · exact h.congr hm.status hm.syscallNum hm.timerList
  refine schedule_slept (Slept.congr (fun p hp hnum => ?_) hm.status hm.syscallNum hm.timerList) hsch
  -- the timer of the caller has been set
  have hmem := fun t => (timerInsert_perm
    ⟨b, s.time + (s.pcbs s.running).syscallArgs 0, s.running⟩ s.timerList).mem_iff (a := t)
  by_cases hne : p = s.running
  · exact ⟨_, (hmem _).2 List.mem_cons_self, hne.symm⟩
  · obtain ⟨t, ht, rfl⟩ := h p (by simpa [hne, dozed] using hp) (by simpa [hne, dozed] using hnum)
    exact ⟨t, (hmem t).2 (List.mem_cons_of_mem _ ht), rfl⟩

theorem Slept.step (h : Slept s) (hrun : (s.pcbs s.running).status = .running)
    (hs : step s e = .ok s') : Slept s' := by
  have hsave : ∀ c, Slept (saveCall s c) := fun c p hp hnum => by
    by_cases hne : p = s.running
    · subst hne
      simp [saveCall, hrun] at hp
    · exact h p (by simpa [saveCall, hne] using hp) (by simpa [saveCall, hne] using hnum)
  cases e with
  | tick => exact schedule_slept (s := { s with time := s.time + 1 }) h hs
  | store =>
    cases hs
    exact h
  | syscall c =>
    by_cases hc : ∃ n, c = .sleep n
    · obtain ⟨n, rfl⟩ := hc
      exact sleep_slept (hsave _) ((step_syscall rfl).symm.trans hs)
    · have he := (syscall_effects hs).resolve_right fun hd => hc hd.1
      refine he.slept (fun hn => hc ?_) (.inr (by simp [saveCall])) (hsave c)
      cases c with
      | sleep n => exact ⟨n, rfl⟩
      | _ => cases hn

/-! ## The switch -/

theorem listInsert_error (h : s.listInsert L p ps = .error x) : x = .corrupted := by
  unfold State.listInsert at h
  split at h
  · cases h
  split at h <;> cases h
  rfl

theorem listDetachFirst_ne_error (h : s.list L ≠ []) : s.listDetachFirst L ≠ .error x := by
  unfold State.listDetachFirst
  split
  · exact absurd ‹_› h
  · simp

theorem reparentChildren_error : ∀ (fuel : Nat) {s : State},
    reparentChildren fuel s = .error x → x = .diverges
  | 0, _, h => by
    cases h
    rfl
  | fuel + 1, _, h => by
    rw [reparentChildren] at h
    split at h
    · cases h
    · exact reparentChildren_error fuel h

/-- `wait` goes to sleep. -/
theorem waitSleep_ne_nullDeref (hne : s.readyList ≠ []) :
    internalWait.waitSleep s s.running ≠ .error .nullDeref := by
  intro h
  rcases bind_eq_error.1 h with h₁ | ⟨s₁, h₁, h⟩
  · cases listInsert_error h₁
  rcases bind_eq_error.1 h with h₂ | ⟨⟨p, s₂⟩, -, h⟩
  · refine listDetachFirst_ne_error ?_ h₂
    show s₁.readyList ≠ []
    rw [listInsert_readyList h₁ (by simp)]
    exact hne
  · cases h

theorem wait_ne_nullDeref (hw : WaitSleeps s ((s.pcbs s.running).syscallArgs 0))
    (hne : s.readyList ≠ []) : internalWait s ≠ .error .nullDeref := by
  obtain ⟨hc, hw⟩ := hw
  unfold internalWait
  dsimp only
  rw [if_neg hc]
  cases hscan : waitScan s ((s.pcbs s.running).syscallArgs 0) none
      (s.pcbs s.running).children with
  | none =>
    simp only [hscan] at hw ⊢
    rw [if_neg hw]
    exact waitSleep_ne_nullDeref hne
  | some awaited =>
    simp only [hscan] at hw ⊢
    rw [if_neg hw]
    exact waitSleep_ne_nullDeref hne

theorem exit_ne_nullDeref {parent : PcbRef} (hp : (s.pcbs s.running).parent = some parent)
    (hw : ¬ waitsFor s parent (s.pcbs s.running).pid)
    (hn : (s.pcbs s.running).syscallNum ≠ dsosCallWait) (hne : s.readyList ≠ []) :
    internalExit s ≠ .error .nullDeref := by
  intro h
  unfold internalExit at h
  dsimp only at h
  rcases bind_eq_error.1 h with h₁ | ⟨s₁, h₁, h⟩
  · cases reparentChildren_error _ h₁
  rcases bind_eq_error.1 h with h₂ | ⟨s₂, h₂, h⟩
  · cases listInsert_error h₂
  have hv : Quiet s (s.updPcb s.running fun pcb => { pcb with returnValue := pcb.syscallArgs 0 }) :=
    .updPcb fun _ => rfl
  have hq := hv.trans (.reparentChildren _ h₁)
  have hpcbs := listInsert_pcbs h₂
  have hready : s₂.readyList = s.readyList :=
    (listInsert_readyList h₂ (by simp)).trans (hq.list .ready)
  split at h
  · rename_i hnone
    rw [hpcbs] at hnone
    simp only [setStatus_pcbs, if_true, hq.parent, hp] at hnone
    cases hnone
  · rename_i parent' hp'
    rw [hpcbs] at hp'
    simp only [setStatus_pcbs, if_true, hq.parent, hp, Option.some.injEq] at hp'
    subst hp'
    split at h
    · rename_i hw'
      rw [waitsFor_retired hq h₂ (.signal _ _ _) hn] at hw'
      refine hw ?_
      simpa [hpcbs, hq.pid] using hw'
    · rcases bind_eq_error.1 h with h₃ | ⟨⟨q, s₃⟩, -, h⟩
      · refine listDetachFirst_ne_error ?_ h₃
        show s₂.readyList ≠ []
        rw [hready]
        exact hne
      · cases h

/-! ## Steps and runs -/

theorem waitScan_saveCall {c : Syscall} {pid : Int} : ∀ (es : List PCBPtr) (cur : Option PCBPtr),
    waitScan (saveCall s c) pid cur es = waitScan s pid cur es
  | [], _ => rfl
  | x :: es, cur => by
    have hst : ((saveCall s c).pcbs x.pcb).status = (s.pcbs x.pcb).status ∧
        ((saveCall s c).pcbs x.pcb).pid = (s.pcbs x.pcb).pid := by
      by_cases hx : x.pcb = s.running <;> simp [saveCall, hx]
    simp only [waitScan, hst, waitScan_saveCall es]

theorem WaitSleeps.saveCall {c : Syscall} {pid : Int} (h : WaitSleeps s pid) :
    WaitSleeps (saveCall s c) pid := by
  have hc : ((DisastrOS.saveCall s c).pcbs s.running).children = (s.pcbs s.running).children := by
    simp [DisastrOS.saveCall]
  have hst : ∀ p, ((DisastrOS.saveCall s c).pcbs p).status = (s.pcbs p).status := fun p => by
    by_cases hp : p = s.running <;> simp [DisastrOS.saveCall, hp]
  unfold WaitSleeps at h ⊢
  simpa only [saveCall_running, hc, hst, waitScan_saveCall] using h

/-- With a ready process, a call that hands over does not look at a null item. -/
theorem step_ne_nullDeref (hh : HandsOver s e) (hne : s.readyList ≠ []) :
    step s e ≠ .error .nullDeref := by
  match e, hh with
  | .syscall (.wait pid result), hh =>
    rw [step_syscall rfl]
    exact wait_ne_nullDeref (by rw [saveCall_running, saveCall_args]; exact hh.saveCall) hne
  | .syscall (.exit v), ⟨parent, hp, hw⟩ =>
    rw [step_syscall rfl]
    have hp' : ((saveCall s (.exit v)).pcbs (saveCall s (.exit v)).running).parent =
        some parent := by
      simpa [saveCall] using hp
    refine exit_ne_nullDeref hp' ?_ ?_ hne
    · simpa [saveCall] using hw
    · simp [saveCall, Syscall.num]

theorem dispatches_step_iff : Dispatches s e ↔ (HandsOver s e → s.readyList ≠ []) :=
  ⟨fun hd hh => (hd hh).1, fun hn hh => ⟨hn hh, fun h =>
    step_ne_nullDeref hh (hn hh) (eq_error_of_stopped h)⟩⟩

theorem MixedInv.unanswered_iff (h : MixedInv s) : Unanswered s p ↔ s.Stuck p := by
  constructor
  · rintro ⟨n, c, pay, hi, hret, hr⟩
    exact (((h.missing hi).1 hr).resolve_left (not_not_intro hret)).2
  · intro hp
    obtain ⟨c, hret, hx, -⟩ := h.expects hp
    obtain ⟨pay, hi⟩ := hx.issued
    exact ⟨_, c, pay, hi, hret, hx.returned⟩

theorem boot_slept : Slept boot := by
  intro p hp
  obtain ⟨pool, -, he⟩ := boot_eq
  rw [he] at hp
  by_cases h0 : p = 0 <;> simp [booted, initProcess, h0] at hp

theorem MixedInv.free_of_ready (h : MixedInv s) (hp : p ∈ s.readyList) : Free s p := by
  have hr : p ∈ s.list .ready := hp
  have hst : (s.pcbs p).status = .ready := h.placed.status hr
  refine ⟨h.placed.alloc hr, fun e => ?_, by simp [hst], fun hu => ?_, fun t ht e => ?_⟩
  · exact h.placed.not_held hr (by simp [e])
  · rcases h.unanswered_iff.1 hu with ⟨w, hw⟩ | ⟨q, -, hq⟩
    · have := (asleep_eq_some.1 hw).1
      rw [hst] at this
      cases this
    · rcases List.mem_append.1 hq with hq | hq
      · cases h.placed.disj hr (show p ∈ s.list (.receivers q) from hq)
      · cases h.placed.disj hr (show p ∈ s.list (.senders q) from hq)
  · have hw : p ∈ s.list .waiting := e ▸ (h.timed.waiting t ht).1
    cases h.placed.disj hr hw

/-- Whoever is on another list is a zombie, sleeps with a timer, or has not been answered. -/
theorem MixedInv.ready_of_free (h : MixedInv s) (hsl : Slept s) (hp : Free s p) :
    p ∈ s.readyList := by
  obtain ⟨L, hm, hst, hacc⟩ := h.mem_list hp.alloc hp.other
  have hstuck : ¬ s.Stuck p := fun hs => hp.answered (h.unanswered_iff.2 hs)
  have hlive : ∀ q, p ∈ (s.queues q).waitingReceivers ++ (s.queues q).waitingSenders → False := by
    intro q hq
    refine hstuck (.inr ⟨q, h.partition.live q ?_, hq⟩)
    exact (List.mem_append.1 hq).symm.imp List.ne_nil_of_mem List.ne_nil_of_mem
  cases L with
  | ready => exact hm
  | waiting =>
    rcases hacc with hw | hsleep
    · exact absurd (.inl ⟨_, asleep_eq_some.2 ⟨hst, hw, rfl⟩⟩) hstuck
    · obtain ⟨t, ht, he⟩ := hsl p hst hsleep
      exact absurd he (hp.timeless t ht)
  | zombie => exact absurd hst hp.alive
  | receivers q => exact (hlive q (List.mem_append_left _ hm)).elim
  | senders q => exact (hlive q (List.mem_append_right _ hm)).elim

/-- There is a ready process exactly if there is one that nothing holds up. -/
theorem MixedInv.ready_iff (h : MixedInv s) (hsl : Slept s) :
    s.readyList ≠ [] ↔ ∃ p, Free s p := by
  constructor
  · intro hne
    obtain ⟨p, ps, hr⟩ := List.exists_cons_of_ne_nil hne
    exact ⟨p, h.free_of_ready (by simp [hr])⟩
  · rintro ⟨p, hp⟩
    exact List.ne_nil_of_mem (h.ready_of_free hsl hp)

/-- **`wait` and `exit` find a process to dispatch** throughout a run of calls on queues and
processes, in which no `sleep` stalls, exactly if there is another process that nothing holds up
whenever they are called, to sleep or without a waiting parent. -/
theorem dispatches_iff (he : ∀ e ∈ es, e.IsProcessOrMq)
    (hn : Along step (fun s e => ¬ Stalls s e) boot es) :
    Along step Dispatches boot es ↔
      Along step (fun s e => HandsOver s e → ∃ p, Free s p) boot es := by
  refine along_congr (I := fun s => MixedInv s ∧ Slept s) (fun s e h => ?_) (fun s e s' h he hn hs =>
    ⟨h.1.preserved he hn hs, h.2.step h.1.status hs⟩) ⟨boot_mixedInv, boot_slept⟩ he hn
  rw [dispatches_step_iff, h.1.ready_iff h.2]

/-- A child exits while its parent does not wait for it, and then the parent waits for the other. -/
def handingRun : List Event :=
  [.syscall (.spawn 0 0), .syscall (.spawn 0 0), .syscall .preempt, .syscall (.exit 3),
   .syscall .preempt, .syscall (.wait 2 0)]

theorem dispatches_iff_handing : Along step Dispatches boot handingRun ∧
    Along step (fun s e => HandsOver s e → ∃ p, Free s p) boot handingRun := by
  have hd : Along step Dispatches boot handingRun := by decide +kernel
  exact ⟨hd, (dispatches_iff (by decide) (by decide +kernel)).1 hd⟩

/-- The child of init sleeps while init waits for it. -/
def deadlockedRun : List Event := [.syscall (.spawn 0 0), .syscall .preempt, .syscall (.sleep 3)]

theorem deadlockedRun_not_dispatches :
    run step boot (deadlockedRun ++ [.syscall (.wait 0 0)]) = .error .nullDeref ∧
      ¬ Along step Dispatches boot (deadlockedRun ++ [.syscall (.wait 0 0)]) :=
  ⟨eq_error_of_stopped (by decide +kernel), by decide +kernel⟩

end

end DisastrOS
