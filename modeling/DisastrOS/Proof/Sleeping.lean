import DisastrOS.Proof.Sane

/-!
# How long a `sleep` lasts

A process that calls `sleep` goes to the waiting list, and only its timer takes it off again. If
nobody can run instead, the scheduler returns to it at once. A process sleeps until its time,
whatever is called later, if somebody else can run, no timer of an earlier process of the same block
is due before, and no PCB gets on two lists meanwhile (`sleeps_through`).
-/

namespace DisastrOS

open Lib State

section
variable {s s' s₁ : State} {p : PcbRef} {n t : Int} {e : Event} {es es' : List Event}

/-- Before time `t`, process `p` sleeps: it is on the waiting list, and does not run. -/
def SleepsUntil (p : PcbRef) (t : Int) (s : State) : Prop :=
  s.time < t → s.running ≠ p ∧ p ∈ s.waitingList ∧ (s.pcbs p).status = .waiting

/-- Somebody can run while the caller sleeps for `n`, and no timer names it that elapses before. -/
def Undisturbed (s : State) (n : Int) : Prop :=
  Schedulable s ∧ ∀ u ∈ s.timerList, u.pcb = s.running → s.time + n ≤ u.awakeningTime

/-- The process sleeps, and only a timer that elapses at time `t` or later can wake it. -/
structure Asleep (s : State) (p : PcbRef) (t : Int) : Prop extends Resting s p where
  alloc : s.Alloc p
  waiting : p ∈ s.list .waiting
  status : (s.pcbs p).status = .waiting
  due : ∀ u ∈ s.timerList, u.pcb = p → t ≤ u.awakeningTime

/-- Before time `t`, process `p` is asleep. -/
def AsleepUntil (p : PcbRef) (t : Int) (s : State) : Prop :=
  Sane s ∧ (s.time < t → Asleep s p t)

theorem AsleepUntil.sleepsUntil (h : AsleepUntil p t s) : SleepsUntil p t s := fun ht =>
  ⟨(h.2 ht).running, (h.2 ht).waiting, (h.2 ht).status⟩

theorem Asleep.clock (h : Asleep s p t) (ht : (clock s e).time < t) :
    Asleep (DisastrOS.clock s e) p t := by
  cases e with
  | tick =>
    exact { h with
      ready := h.ready, receivers := h.receivers, senders := h.senders
      timers := fun u hu he => ht.trans_le (h.due u hu he) }
  | _ => exact h

theorem AsleepUntil.step (h : AsleepUntil p t s) (hs : step s e = .ok s') :
    AsleepUntil p t s' := by
  have h1 := step_steps h.1 hs
  refine ⟨h1.sane, fun ht => ?_⟩
  rw [h1.time] at ht
  have hle : s.time ≤ (clock s e).time := by
    cases e with
    | tick => exact Int.le_add_one le_rfl
    | _ => exact le_rfl
  have h2 : Asleep (clock s e) p t := (h.2 (hle.trans_lt ht)).clock ht
  have hlive : (clock s e).Alloc p ∧ ((clock s e).pcbs p).status ≠ .zombie :=
    ⟨h2.alloc, by simp [h2.status]⟩
  have h3 := h1.rests p h2.toResting (.inr hlive)
  exact ⟨h2.toResting.rests h3, h1.alloc p h2.toResting hlive.1 hlive.2,
    (h3.list .waiting (by simp)).2 h2.waiting, h3.status.trans h2.status,
    fun u hu he => h2.due u (h3.timers u hu he) he⟩

theorem Sane.asleep (h : Sane s) (hm : p ∈ s.list .waiting) (hst : (s.pcbs p).status = .waiting)
    (hne : s.running ≠ p) (ht : s.time < t) (hdue : ∀ u ∈ s.timerList, u.pcb = p → t ≤ u.awakeningTime)
    (hnum : (s.pcbs p).syscallNum ≠ dsosCallWait) : Asleep s p t := by
  have hL : ∀ {L}, p ∈ s.list L → L = .waiting := fun hL => h.table.disj hL hm
  refine ⟨⟨hne, fun h1 => ?_, fun q h1 => ?_, fun q h1 => ?_, fun u hu he => ?_, fun _ => hnum⟩,
    h.table.alloc hm, hm, hst, hdue⟩
  · cases hL h1
  · cases hL h1
  · cases hL h1
  · exact ht.trans_le (hdue u hu he)

/-- The caller of `sleep`, if somebody can run instead. -/
theorem sleep_asleep (h : Sane s) (hs : internalSleep s = .ok s')
    (hok : (s'.pcbs s.running).syscallRetvalue = 0)
    (hnum : (s.pcbs s.running).syscallNum = dsosCallSleep)
    (hn : 0 < (s.pcbs s.running).syscallArgs 0) :
    (Undisturbed s ((s.pcbs s.running).syscallArgs 0) →
      Asleep s' s.running (s.time + (s.pcbs s.running).syscallArgs 0)) ∧
    (¬ Schedulable s → s'.running = s.running ∧ s'.time = s.time) := by
  rcases sleep_cases hs with ⟨-, hfail⟩ | ⟨-, b, s₁, s₂, hq, hi, hsch⟩
  · rw [hok] at hfail
    cases hfail
  obtain ⟨h1, hsh, hrun, hst, hm, -⟩ := h.doze hq hi
  obtain ⟨s₃, hw, hd⟩ := bind_eq_ok.1 hsch
  have htl : s₂.timerList =
      timerInsert ⟨b, s.time + (s.pcbs s.running).syscallArgs 0, s.running⟩ s.timerList := by
    rw [listInsert_timerList hi, hq.timerList]
    rfl
  have hready : s₂.readyList = s.readyList := by
    rw [listInsert_readyList hi (by simp)]
    exact hq.list .ready
  have hsched : Schedulable s₂ ↔ Schedulable s := by
    unfold Schedulable
    rw [htl, hready, timerInsert_elapsed, hsh.time]
    exact or_congr_right (or_iff_right fun hle => by simp at hle; omega)
  rcases wakeTimers_ready h1 hw with ⟨hsc, hne⟩ | ⟨hno, rfl⟩
  · refine ⟨fun ⟨_, hdue⟩ => ?_, fun hno => absurd (hsched.1 hsc) hno⟩
    have hdue₂ : ∀ u ∈ s₂.timerList, u.pcb = s.running →
        s.time + (s.pcbs s.running).syscallArgs 0 ≤ u.awakeningTime := by
      intro u hu he
      rw [htl] at hu
      rcases List.mem_cons.1 ((timerInsert_perm _ _).mem_iff.1 hu) with rfl | hu
      exacts [le_rfl, hdue u hu he]
    -- the loop does not wake the caller, and the switch is to somebody else
    obtain ⟨h2, hor⟩ := wakeTimers_table h1 rfl hw
    have hr₃ : Rests s.running s₂ s₃ := by
      rcases hor s.running with hr | ⟨-, -, u, hu, he, hle⟩
      · exact hr
      · have := hdue₂ u hu he
        rw [hsh.time] at hle
        omega
    have hrun₃ : s₃.running = s.running := (Rescheduled.wakeTimers _ _ hw).2.trans hrun
    have hm₃ : s.running ∈ s₃.list .waiting := (hr₃.list .waiting (by simp)).2 hm
    have hst₃ : (s₃.pcbs s.running).status = .waiting := hr₃.status.trans hst
    have hnr : s.running ∉ s₃.list .ready := fun hm' => by cases h2.disj hm' hm₃
    have hcur : s₃.Current s₃.running := by
      rw [hrun₃]
      exact .inr ⟨⟨_, by simp, hm₃⟩, by simp [hst₃]⟩
    rcases dispatch_table (h2.mono (by simp)) (hrun₃ ▸ h2.alloc hm₃) hcur hd with
      ⟨hnil, -⟩ | ⟨-, hnext, -, -, hrest⟩
    · exact absurd hnil hne
    have hr := hr₃.trans (hrest s.running hnr fun _ => by simp [hst₃])
    refine (sleep_steps h hs).sane.asleep ((hr.list .waiting (by simp)).2 hm)
      (hr.status.trans hst) (fun e => hnr (e ▸ hnext)) ?_ (fun u hu he =>
        hdue₂ u (hr.timers u hu he) he) ?_
    · rw [hr.time, hsh.time]
      omega
    · have hnum₁ : ((dozing s b).pcbs s.running).syscallNum = dsosCallSleep := by
        simp [dozing, hnum]
      rw [hr.syscallNum, listInsert_pcbs hi, hq.syscallNum, hnum₁]
      decide
  · refine ⟨fun hu => absurd (hsched.2 hu.1) hno, fun _ => ?_⟩
    have hnil : s₃.readyList = [] := by
      by_contra hne
      exact hno (.inl hne)
    unfold dispatch at hd
    rw [if_pos hnil] at hd
    cases hd
    exact ⟨hrun, hsh.time⟩

/-- **A sleeping process really sleeps**, whatever is called later, if somebody else can run when it
calls `sleep`, no older timer of its block is due before, and no PCB that is alone on one list is
linked into another; and only if somebody can run. -/
theorem sleeps_through (hr : run step boot es = .ok s) (hn : 0 < n)
    (hs : step s (.syscall (.sleep n)) = .ok s₁) (hok : (s₁.pcbs s.running).syscallRetvalue = 0) :
    (Undisturbed s n → ∀ es', Along step (fun s e => ¬ Relinks s e) s₁ es' →
      Always step (SleepsUntil s.running (s.time + n)) s₁ es') ∧
    ((∀ es', Along step (fun s e => ¬ Relinks s e) s₁ es' →
      Always step (SleepsUntil s.running (s.time + n)) s₁ es') → Schedulable s) := by
  have h := run_sane hr
  have hnum : ((saveCall s (.sleep n)).pcbs s.running).syscallNum = dsosCallSleep :=
    saveCall_num s (.sleep n)
  have hargs : ((saveCall s (.sleep n)).pcbs s.running).syscallArgs 0 = n :=
    saveCall_args s (.sleep n) 0
  have hsleep := sleep_asleep (h.saveCall (.sleep n)) ((step_syscall rfl).symm.trans hs) hok hnum
    (by rw [saveCall_running, hargs]; exact hn)
  rw [saveCall_running, hargs] at hsleep
  obtain ⟨h1, h2⟩ := hsleep
  constructor
  · intro hu es' _
    exact always_of_along (I := AsleepUntil s.running (s.time + n)) (A := fun _ => True)
      (fun _ h => h.sleepsUntil) (fun _ _ _ h _ _ hs => h.step hs)
      ⟨(step_steps h hs).sane, fun _ => h1 hu⟩ (fun _ _ => trivial) along_true
  · intro hall
    by_contra hno
    obtain ⟨h3, h4⟩ := h2 hno
    have h5 : SleepsUntil s.running (s.time + n) s₁ := hall [] trivial
    refine (h5 ?_).1 h3
    rw [h4]
    exact Int.lt_add_of_pos_right _ hn

/-- Init sleeps while there is no other process, and is running when the call returns. -/
theorem sleep_alone_not_sleepsUntil : ∃ s₁, step boot (.syscall (.sleep 3)) = .ok s₁ ∧
    (s₁.pcbs boot.running).syscallRetvalue = 0 ∧
    ¬ Always step (SleepsUntil boot.running (boot.time + 3)) s₁ [] := by
  have hc : (step boot (.syscall (.sleep 3))).toOption.any (fun s₁ =>
      (s₁.pcbs boot.running).syscallRetvalue = 0 ∧ s₁.time < boot.time + 3 ∧
        s₁.running = boot.running) = true := by decide +kernel
  obtain ⟨s₁, h₁, hc⟩ := ok_of_any hc
  obtain ⟨h2, h3, h4⟩ := of_decide_eq_true hc
  exact ⟨s₁, h₁, h2, fun ha => (ha h3).1 h4⟩

/-- Init sleeps while its child is ready. -/
theorem sleeps_through_child : ∃ s s₁, run step boot [.syscall (.spawn 0 0)] = .ok s ∧
    step s (.syscall (.sleep 2)) = .ok s₁ ∧
    ∀ es', Along step (fun s e => ¬ Relinks s e) s₁ es' →
      Always step (SleepsUntil s.running (s.time + 2)) s₁ es' := by
  have hc : (run step boot [.syscall (.spawn 0 0)]).toOption.any (fun s =>
      s.readyList ≠ [] ∧ s.timerList = [] ∧ (step s (.syscall (.sleep 2))).toOption.any (fun s₁ =>
        (s₁.pcbs s.running).syscallRetvalue = 0)) = true := by decide +kernel
  obtain ⟨s, hr, hc⟩ := run_check hc
  obtain ⟨h1, h2, hc⟩ := of_decide_eq_true hc
  obtain ⟨s₁, h₁, hc⟩ := ok_of_any hc
  exact ⟨s, s₁, hr, h₁, (sleeps_through hr (by decide) h₁ (of_decide_eq_true hc)).1
    ⟨.inl h1, fun u hu => by rw [h2] at hu; cases hu⟩⟩

end

end DisastrOS
