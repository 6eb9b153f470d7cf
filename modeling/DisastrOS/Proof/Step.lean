import DisastrOS.Proof.Exit
import DisastrOS.Proof.Manage

/-!
# One step of the machine

`sleep` keeps the invariant unless nobody can run instead of the caller, and then the caller goes on
running with the status of a sleeping process (`sleep_spec`). With the specs of the other calls this
gives what a step of the machine does: `step_mq` for the calls on queues, `step_process` for those
on processes.
-/

namespace DisastrOS

open Lib State

section
variable {s s' : State} {p q : PcbRef} {c : Syscall} {e : Event} {t : TimerItem}
  {ts : List TimerItem} {n : Int}

/-! ## Sleeping -/

theorem timerInsert_perm (t : TimerItem) : ∀ ts, (timerInsert t ts).Perm (t :: ts)
  | [] => .refl _
  | x :: xs => by
    rw [timerInsert]
    split
    · exact .refl _
    · exact ((timerInsert_perm t xs).cons x).trans (.swap _ _ _)

/-- The first timer has elapsed after the insertion of `t` iff it had, or `t` has. -/
theorem timerInsert_elapsed {time : Int} :
    (∃ x ∈ (timerInsert t ts).head?, x.awakeningTime ≤ time) ↔
      t.awakeningTime ≤ time ∨ ∃ x ∈ ts.head?, x.awakeningTime ≤ time := by
  cases ts with
  | nil => simp [timerInsert]
  | cons y ys =>
    rw [timerInsert]
    split <;> simp <;> omega

/-- The call `sleep n` is refused, or does not have to wait, or somebody can run instead. -/
def MaySleep (s : State) (n : Int) : Prop :=
  (s.pcbs s.running).timer.isSome ∨ s.timerPool.free = [] ∨ n ≤ 0 ∨ Schedulable s

/-- The state in which `sleep` puts the caller on the waiting list. -/
def drowsy (s : State) (b : Nat) (pool : Pool) (n : Int) : State :=
  let t : TimerItem := ⟨b, s.time + n, s.running⟩
  let u := { s with timerPool := pool, timerList := timerInsert t s.timerList }
  (((u.setTimer s.running (some b)).setRetvalue s.running 0).setStatus s.running .waiting).setTimer
    s.running (some b)

/-- The state in which it calls the scheduler. -/
def asleepFor (s : State) (b : Nat) (pool : Pool) (n : Int) : State :=
  (drowsy s b pool n).setList .waiting (s.waitingList ++ [s.running])

section
variable {b : Nat} {pool : Pool}

@[simp] theorem asleepFor_running : (asleepFor s b pool n).running = s.running := by
  simp [asleepFor, drowsy]

theorem asleepFor_time : (asleepFor s b pool n).time = s.time := by
  simp [asleepFor, drowsy]

theorem asleepFor_readyList : (asleepFor s b pool n).readyList = s.readyList := by
  simp [asleepFor, drowsy, State.setList]

theorem asleepFor_waitingList :
    (asleepFor s b pool n).waitingList = s.waitingList ++ [s.running] := by
  simp [asleepFor, State.setList]

theorem asleepFor_zombieList : (asleepFor s b pool n).zombieList = s.zombieList := by
  simp [asleepFor, drowsy, State.setList]

theorem asleepFor_timerList : (asleepFor s b pool n).timerList =
    timerInsert ⟨b, s.time + n, s.running⟩ s.timerList := by
  simp [asleepFor, drowsy]

theorem asleepFor_queues : (asleepFor s b pool n).queues = s.queues := rfl

end

theorem drowsy_placed (h : Inv s) (b : Nat) (pool : Pool) (n : Int) :
    Placed (drowsy s b pool n) [s.running] :=
  (h.placed.setStatus (p := s.running) (by simp) .waiting).congr rfl (fun L => by cases L <;> rfl)
    fun q _ => by simp [drowsy]

theorem internalSleep_eq {b : Nat} {pool : Pool} (h : Inv s)
    (hn : (s.pcbs s.running).syscallNum = dsosCallSleep)
    (ht : (s.pcbs s.running).timer.isSome = false) (hg : s.timerPool.get = some (b, pool)) :
    internalSleep s = internalSchedule (asleepFor s b pool ((s.pcbs s.running).syscallArgs 0)) := by
  unfold internalSleep timerListAdd
  simp only [ht, hg, Bool.false_eq_true, if_false]
  have h1 := ((drowsy_placed h b pool ((s.pcbs s.running).syscallArgs 0)).insertLast (L := .waiting)
    (by simp) (by simp [PcbList.status, drowsy])
    (.inr (by simpa [drowsy] using hn))).1
  exact congrArg (· >>= internalSchedule) h1

theorem asleepFor_spec (h : Inv s) (b : Nat) (pool : Pool) (n : Int)
    (hn : (s.pcbs s.running).syscallNum = dsosCallSleep) :
    Consistent (asleepFor s b pool n) [] [] ∧ Idle (asleepFor s b pool n) ∧
      (Schedulable (asleepFor s b pool n) ↔ n ≤ 0 ∨ Schedulable s) := by
  have hpl : Placed (asleepFor s b pool n) [] := ((drowsy_placed h b pool n).insertLast
    (L := .waiting) (by simp) (by simp [PcbList.status, drowsy]) (.inr (by simpa [drowsy] using hn))).2
  have hnot : ∀ t ∈ s.timerList, t.pcb ≠ s.running := fun t ht e =>
    h.placed.not_held (L := .waiting) (h.timed.waiting t ht).1 (by simp [e])
  have hperm := timerInsert_perm ⟨b, s.time + n, s.running⟩ s.timerList
  refine ⟨⟨hpl, ⟨?_, fun t ht => ?_⟩, ?_, ?_, ?_⟩, ?_, ?_⟩
  · rw [asleepFor_timerList]
    refine (hperm.map (·.pcb)).nodup_iff.2 (List.nodup_cons.2 ⟨?_, h.timed.nodup⟩)
    intro hm
    obtain ⟨t, ht, he⟩ := List.mem_map.1 hm
    exact hnot t ht he
  · rw [asleepFor_waitingList]
    rw [asleepFor_timerList] at ht
    rcases List.mem_cons.1 (hperm.mem_iff.1 ht) with rfl | ht
    · exact ⟨by simp, by simpa [asleepFor, drowsy] using hn⟩
    · obtain ⟨h2, h3⟩ := h.timed.waiting t ht
      exact ⟨List.mem_append_left _ h2, by simpa [asleepFor, drowsy] using h3⟩
  · exact h.queues.congr (by simp [asleepFor, drowsy]) asleepFor_queues
      (by simp [asleepFor, drowsy]) (by simp [asleepFor, drowsy]) fun _ q _ => by
        simp [asleepFor, drowsy]
  · exact h.tree.congr (by simp [asleepFor, drowsy]) (by simp [asleepFor, drowsy])
      (by simp [asleepFor, drowsy]) asleepFor_zombieList (by simp [asleepFor, drowsy])
      (by simp [asleepFor, drowsy]) (by simp [asleepFor, drowsy]) (by simp [asleepFor, drowsy])
  · refine (h.answers.setRetvalue s.running 0).same (by simp [asleepFor, drowsy])
      (by simp [asleepFor, drowsy]) fun q => ?_
    by_cases hq : q = s.running <;> simp [asleepFor, drowsy, hq]
  · exact h.idle.congr (by simp [asleepFor, drowsy]) asleepFor_queues fun _ q _ => by
      simp [State.request, asleepFor, drowsy]
  · unfold Schedulable
    rw [asleepFor_timerList, asleepFor_readyList, asleepFor_time, timerInsert_elapsed]
    have : s.time + n ≤ s.time ↔ n ≤ 0 := by omega
    rw [this]
    exact or_left_comm

/-- **`sleep`** keeps the invariant when it may sleep, and otherwise leaves the caller running with
the status of a sleeping process. -/
theorem sleep_spec (h : Inv s) (n : Int) :
    ∃ s', internalSleep (saveCall s (.sleep n)) = .ok s' ∧ (MaySleep s n → Inv s') ∧
      (¬ MaySleep s n → (s'.pcbs s'.running).status = .waiting) := by
  have h1 := h.saveCall (.sleep n)
  have hfail := (h1.setRetvalue s.running dsosESleep)
  have hnum : ((saveCall s (.sleep n)).pcbs (saveCall s (.sleep n)).running).syscallNum =
      dsosCallSleep := by simp [saveCall, Syscall.num]
  have h0 : ((saveCall s (.sleep n)).pcbs (saveCall s (.sleep n)).running).syscallArgs 0 = n :=
    saveCall_args s (.sleep n) 0
  have htimer : ((saveCall s (.sleep n)).pcbs (saveCall s (.sleep n)).running).timer =
      (s.pcbs s.running).timer := by simp [saveCall]
  by_cases ht : (s.pcbs s.running).timer.isSome
  · refine ⟨_, ?_, fun _ => hfail, fun hn => absurd (.inl ht) hn⟩
    unfold internalSleep
    simp only [htimer, ht, if_true]
    rfl
  have ht' : ((saveCall s (.sleep n)).pcbs (saveCall s (.sleep n)).running).timer.isSome = false := by
    rw [htimer]
    simpa using ht
  cases hg : (saveCall s (.sleep n)).timerPool.get with
  | none =>
    refine ⟨_, ?_, fun _ => hfail, fun hn => absurd (.inr (.inl (Pool.get_eq_none.1 hg))) hn⟩
    unfold internalSleep timerListAdd
    simp only [ht', hg, Bool.false_eq_true, if_false]
    rfl
  | some x =>
    obtain ⟨b, pool⟩ := x
    rw [internalSleep_eq h1 hnum ht' hg, h0]
    obtain ⟨h2, h3, h4⟩ := asleepFor_spec h1 b pool n hnum
    have hsched : Schedulable (saveCall s (.sleep n)) ↔ Schedulable s := .rfl
    rw [hsched] at h4
    have hfree : s.timerPool.free ≠ [] := fun e => by
      rw [(Pool.get_eq_none (a := (saveCall s (.sleep n)).timerPool)).2 e] at hg
      cases hg
    have hmay : MaySleep s n ↔ Schedulable (asleepFor (saveCall s (.sleep n)) b pool n) := by
      rw [h4]
      exact ⟨fun hm => (hm.resolve_left ht).resolve_left hfree, fun hm => .inr (.inr hm)⟩
    rcases schedule_blocked h2.placed h2.timed (by
      rw [asleepFor_running]
      exact h1.placed.held (by simp)) with
      ⟨h5, h6⟩ | ⟨h5, s', h6, h7⟩
    · exact ⟨_, h6, fun hm => absurd (hmay.1 hm) h5, fun _ => by simp [asleepFor, drowsy]⟩
    · have hf := Rescheduled.schedule h6
      exact ⟨s', h6, fun _ => ⟨h2.reschedule hf h7, h7.status, h3.reschedule hf⟩,
        fun hn => absurd (hmay.2 h5) hn⟩

/-! ## Events -/

/-- The trap runs the call that the vector has under its number. -/
theorem step_syscall {f : State → Except Halt State} (hf : syscallVector c.num = some f) :
    step s (.syscall c) = f (saveCall s c) := by
  simp only [step, disastrOSTrap, saveCall_running, saveCall_num, hf]

/-- The call of an event; a tick is a preemption as far as processes are concerned. -/
def Event.call : Event → Syscall
  | .syscall c => c
  | _ => .preempt

/-- The calls on queues, with the creation of processes, preemptions, ticks and stores. -/
def Event.IsMq : Event → Prop
  | .syscall (.mqCreate ..) | .syscall (.mqSend ..) | .syscall (.mqReceive ..)
  | .syscall (.mqDestroy _) | .syscall (.spawn ..) | .syscall .preempt | .tick | .store .. => True
  | _ => False

/-- The calls on processes, with preemptions, ticks and stores. -/
def Event.IsProcess : Event → Prop
  | .syscall (.spawn ..) | .syscall .fork | .syscall (.wait ..) | .syscall (.exit _)
  | .syscall .preempt | .tick | .store .. => True
  | _ => False

instance : DecidablePred Event.IsMq
  | .syscall (.mqCreate ..) | .syscall (.mqSend ..) | .syscall (.mqReceive ..)
  | .syscall (.mqDestroy _) | .syscall (.spawn ..) | .syscall .preempt | .tick | .store .. =>
    isTrue trivial
  | .syscall .fork | .syscall (.wait ..) | .syscall (.exit _) | .syscall (.sleep _)
  | .syscall (.openResource ..) | .syscall (.closeResource _) | .syscall (.destroyResource _)
  | .syscall .shutdown => isFalse id

instance : DecidablePred Event.IsProcess
  | .syscall (.spawn ..) | .syscall .fork | .syscall (.wait ..) | .syscall (.exit _)
  | .syscall .preempt | .tick | .store .. => isTrue trivial
  | .syscall (.mqCreate ..) | .syscall (.mqSend ..) | .syscall (.mqReceive ..)
  | .syscall (.mqDestroy _) | .syscall (.sleep _) | .syscall (.openResource ..)
  | .syscall (.closeResource _) | .syscall (.destroyResource _) | .syscall .shutdown => isFalse id

/-- The scheduler, called between two calls. -/
theorem schedule_spec (h : Inv s) : ∃ s', internalSchedule s = .ok s' ∧ Inv s' ∧
    s'.channels = s.channels ∧ s'.family = s.family := by
  obtain ⟨s', h1, h2, h3⟩ := schedule_settled h.settled
  have hf := Rescheduled.schedule h1
  exact ⟨s', h1, ⟨h.reschedule hf h2, h2.status, h.idle.reschedule hf⟩, hf.channels, hf.family h3⟩

theorem preempt_spec (h : Inv s) : ∃ s', step s (.syscall .preempt) = .ok s' ∧
    Passes s .preempt s' := by
  obtain ⟨s', h1, h2, h3, h4⟩ := schedule_spec (h.saveCall .preempt)
  refine ⟨s', (step_syscall rfl).trans h1, h2, ?_, ?_⟩
  · rw [h4, family_saveCall h.status]
    exact .same _ trivial
  · rw [h3, channels_saveCall h.placed]
    have := Channels.Step.pass (a := s.channels) s.running .preempt [] id (.inl rfl)
    rwa [Channels.log_nil] at this

theorem tick_spec (h : Inv s) : ∃ s', step s .tick = .ok s' ∧ Inv s' ∧
    s'.channels = s.channels ∧ s'.family = s.family := by
  have h0 : Inv { s with time := s.time + 1 } := by
    refine ⟨⟨h.placed.congr rfl (fun L => by cases L <;> rfl) fun _ _ => ⟨rfl, rfl⟩,
      h.timed.congr rfl fun t ht => ⟨(h.timed.waiting t ht).1, rfl⟩,
      h.queues.congr rfl rfl rfl rfl fun _ _ _ => rfl,
      h.tree.congr rfl rfl rfl rfl (fun _ => rfl) (fun _ => rfl) (fun _ => rfl) fun _ => rfl,
      h.answers.same rfl rfl fun _ => ⟨rfl, rfl, rfl, rfl⟩⟩, h.status,
      h.idle.congr rfl rfl fun _ _ _ => rfl⟩
  obtain ⟨s', h1, h2, h3, h4⟩ := schedule_spec h0
  exact ⟨s', h1, h2, h3, h4⟩

theorem store_spec (h : Inv s) (addr : Int) (bytes : List UInt8) :
    ∃ s', step s (.store addr bytes) = .ok s' ∧ Inv s' ∧
      s'.channels = s.channels.setMem (memWrite s.mem addr bytes) ∧ s'.family = s.family := by
  refine ⟨_, rfl, ⟨⟨h.placed.congr rfl (fun L => by cases L <;> rfl) fun _ _ => ⟨rfl, rfl⟩,
    h.timed.congr rfl fun t ht => ⟨(h.timed.waiting t ht).1, rfl⟩,
    h.queues.congr rfl rfl rfl rfl fun _ _ _ => rfl,
    h.tree.congr rfl rfl rfl rfl (fun _ => rfl) (fun _ => rfl) (fun _ => rfl) fun _ => rfl,
    h.answers.same rfl rfl fun _ => ⟨rfl, rfl, rfl, rfl⟩⟩, h.status,
    h.idle.congr rfl rfl fun _ _ _ => rfl⟩, rfl, rfl⟩

/-- **A step on queues** keeps the invariant and is a step of the channels. It stops only if there
are no blocks for a new process. -/
theorem step_mq (h : Inv s) (he : e.IsMq) :
    Ensures (step s e) (· = .assertion) fun s' => Inv s' ∧ s.channels.Step e s'.channels := by
  cases e with
  | tick =>
    obtain ⟨s', h1, h2, h3, -⟩ := tick_spec h
    rw [h1]
    exact ⟨h2, h3 ▸ .tick⟩
  | store addr bytes =>
    obtain ⟨s', h1, h2, h3, -⟩ := store_spec h addr bytes
    rw [h1]
    exact ⟨h2, h3 ▸ .store addr bytes⟩
  | syscall c =>
    cases c with
    | mqCreate id size =>
      obtain ⟨s', h1, h2⟩ := mqCreate_spec h id size
      rw [step_syscall rfl, h1]
      exact h2
    | mqSend id msg size =>
      obtain ⟨s', h1, h2⟩ := mqSend_spec h id msg size
      rw [step_syscall rfl, h1]
      exact h2
    | mqReceive id buffer size =>
      obtain ⟨s', h1, h2⟩ := mqReceive_spec h id buffer size
      rw [step_syscall rfl, h1]
      exact h2
    | mqDestroy id =>
      obtain ⟨s', h1, h2⟩ := mqDestroy_spec h id
      rw [step_syscall rfl, h1]
      exact h2
    | spawn f args =>
      rw [step_syscall rfl]
      exact (spawn_spec h f args).mono (fun _ => id) fun _ h1 => ⟨h1.1, h1.2.2⟩
    | preempt =>
      obtain ⟨s', h1, h2⟩ := preempt_spec h
      rw [h1]
      exact ⟨h2.1, h2.2.2⟩
    | _ => exact absurd he id

/-- **A step on processes** keeps the invariant and is a step of the family. -/
theorem step_process (h : Inv s) (he : e.IsProcess) :
    Ensures (step s e) (· ≠ .corrupted) fun s' =>
      Inv s' ∧ s.family.Step s.running e.call s'.family := by
  cases e with
  | tick =>
    obtain ⟨s', h1, h2, -, h3⟩ := tick_spec h
    rw [h1]
    exact ⟨h2, h3 ▸ .same _ trivial⟩
  | store addr bytes =>
    obtain ⟨s', h1, h2, -, h3⟩ := store_spec h addr bytes
    rw [h1]
    exact ⟨h2, h3 ▸ .same _ trivial⟩
  | syscall c =>
    cases c with
    | spawn f args =>
      rw [step_syscall rfl]
      exact (spawn_spec h f args).mono (by rintro _ rfl; decide) fun _ h1 => ⟨h1.1, h1.2.1⟩
    | fork =>
      rw [step_syscall rfl]
      exact (fork_spec h).mono (by rintro _ rfl; decide) fun _ h1 => ⟨h1.1, h1.2.1⟩
    | wait pid result =>
      rw [step_syscall rfl]
      exact (wait_spec h pid result).mono (by rintro _ rfl; decide) fun _ => id
    | exit v =>
      rw [step_syscall rfl]
      exact (exit_spec h v).mono (by rintro _ (rfl | rfl) <;> decide) fun _ => id
    | preempt =>
      obtain ⟨s', h1, h2⟩ := preempt_spec h
      rw [h1]
      exact ⟨h2.1, h2.2.1⟩
    | _ => exact absurd he id

end

end DisastrOS
