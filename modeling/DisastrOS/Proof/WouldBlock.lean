import DisastrOS.Proof.Scheduler

/-!
# Calls that would block

`mq_send` on a full queue and `mq_receive` on an empty one queue the caller and mark it as waiting
(`blocked`), and then call the scheduler. If nobody else can run, the undoing of the block leaves no
trace but the return value; otherwise another process runs (`wouldBlock_spec`). The timer list is in
order, as `TimerList_add` keeps it in every reachable state (`Punctual`).
-/

namespace DisastrOS

open Lib State

/-- A call with valid arguments that cannot be served now: the caller would go to the end of the
list, and the number is the error of a call that cannot block. -/
inductive WouldBlock (s : State) : Syscall → PcbList → Int → Prop
  | send {q : QueueRef} (id buffer size : Int) (hid : 0 < id) (hsize : SendSize size)
      (hq : lookupQueue s id = .ok (some q)) (hopen : (s.queues q).status = .open)
      (hfull : (s.queues q).currentMessages ≥ (s.queues q).maxMessages) :
      WouldBlock s (.mqSend id buffer size) (.senders q) dsosEMqFull
  | receive {q : QueueRef} (id buffer size : Int) (hid : 0 < id) (hsize : 0 < size)
      (hq : lookupQueue s id = .ok (some q)) (hopen : (s.queues q).status = .open)
      (hempty : (s.queues q).messages = []) :
      WouldBlock s (.mqReceive id buffer size) (.receivers q) dsosEMqEmpty

/-- No process is ready and no timer has elapsed. -/
def Alone (s : State) : Prop := s.readyList = [] ∧ ∀ t ∈ s.timerList, s.time < t.awakeningTime

instance (s : State) : Decidable (Alone s) := inferInstanceAs (Decidable (_ ∧ _))

/-- The caller is still running, with this return value. -/
def Returns (s : State) (c : Syscall) (r : Int) : Prop :=
  ∃ s', step s (.syscall c) = .ok s' ∧ s'.running = s.running ∧
    (s'.pcbs s.running).status = .running ∧ (s'.pcbs s.running).syscallRetvalue = r

def PcbList.Blocking : PcbList → Prop
  | .receivers _ | .senders _ => True
  | _ => False

/-- The running process is at the end of `L`, and waits. -/
def blocked (s : State) (L : PcbList) : State :=
  (s.setStatus s.running .waiting).setList L (s.list L ++ [s.running])

section
variable {s : State} {L L' : PcbList} {p : PcbRef} {c : Syscall} {r : Int}

/-! ## The block -/

theorem mem_blocked : p ∈ (blocked s L).list L' ↔ p ∈ s.list L' ∨ p = s.running ∧ L' = L := by
  by_cases hL : L' = L
  · subst hL
    simp [blocked]
  · rw [blocked, list_setList_of_ne hL, list_setStatus]
    simp [hL]

theorem WellFormed.not_running (h : WellFormed s) (hst : (s.pcbs s.running).status = .running)
    (hm : p ∈ s.list L) : p ≠ s.running := by
  intro e
  exact h.running hst L (e ▸ hm)

theorem WellFormed.blocked (h : WellFormed s) (hst : (s.pcbs s.running).status = .running)
    (hL : L.Blocking) : WellFormed (blocked s L) := by
  have hr := h.running hst
  refine ⟨fun L' => ?_, fun {L₁ L₂ p} h₁ h₂ => ?_, fun hst' => ?_, ?_, fun t ht => ?_⟩
  · by_cases hL' : L' = L
    · subst hL'
      rw [DisastrOS.blocked, list_setList_self]
      exact nodup_snoc (hr L') (h.nodup L')
    · rw [DisastrOS.blocked, list_setList_of_ne hL', list_setStatus]
      exact h.nodup L'
  · rcases mem_blocked.1 h₁ with h₁ | ⟨e₁, h₁⟩ <;> rcases mem_blocked.1 h₂ with h₂ | ⟨e₂, h₂⟩
    · exact h.disj h₁ h₂
    · exact absurd e₂ (h.not_running hst h₁)
    · exact absurd e₁ (h.not_running hst h₂)
    · rw [h₁, h₂]
  · simp [DisastrOS.blocked] at hst'
  · have ht : (DisastrOS.blocked s L).timerList = s.timerList := by simp [DisastrOS.blocked]
    rw [ht]
    exact h.timers
  · have he : (DisastrOS.blocked s L).timerList = s.timerList := by simp [DisastrOS.blocked]
    rw [he] at ht
    exact mem_blocked.2 (.inl (h.waiting t ht) : t.pcb ∈ s.list .waiting ∨ _)

/-! ## The scheduler on a blocked caller -/

theorem elapsed_blocked : elapsed (blocked s L) = elapsed s := by
  simp [elapsed, blocked]

theorem readyList_blocked (hL : L.Blocking) : (blocked s L).readyList = s.readyList := by
  cases L with
  | receivers q => rfl
  | senders q => rfl
  | _ => cases hL

theorem elapsed_eq_nil : elapsed s = [] ↔ ∀ t ∈ s.timerList, s.time < t.awakeningTime := by
  simp [elapsed, List.filter_eq_nil_iff]

/-- The scheduler changes nothing if nobody can run. -/
theorem dispatched_alone (hL : L.Blocking) (ha : Alone s) :
    dispatched (awakened (blocked s L)) = blocked s L := by
  have he : elapsed (blocked s L) = [] := elapsed_blocked.trans (elapsed_eq_nil.2 ha.2)
  have hr : (blocked s L).readyList = [] := (readyList_blocked hL).trans ha.1
  have hw : awakened (blocked s L) = blocked s L := awakened_none he
  rw [hw, dispatched, hr]

/-- Undoing the block restores the state. -/
theorem unblock (hst : (s.pcbs s.running).status = .running) (hn : s.running ∉ s.list L) :
    ∃ s₁, (blocked s L).listDetach L s.running = .ok s₁ ∧ s₁.setStatus s.running .running = s := by
  refine ⟨_, Placed.detach_eq (by simp [blocked]), ?_⟩
  rw [blocked, list_setList_self, erase_snoc_self hn, setList_setList, setList_setStatus,
    setStatus_setStatus, ← hst, setStatus_same, setList_same]

/-- Otherwise another process runs, and the caller stays where it is. -/
theorem dispatched_blocked (h : WellFormed s) (hst : (s.pcbs s.running).status = .running)
    (hL : L.Blocking) (ha : ¬ Alone s) :
    let s' := dispatched (awakened (blocked s L))
    s'.running ≠ s.running ∧ s'.list L = s.list L ++ [s.running] ∧
      (s'.pcbs s.running).status = .waiting ∧ s'.queues = (blocked s L).queues := by
  intro s'
  set u := awakened (blocked s L) with hu
  have hready : u.readyList = (elapsed s).map TimerItem.pcb ++ s.readyList := by
    show (elapsed (blocked s L)).map _ ++ (blocked s L).readyList = _
    rw [elapsed_blocked, readyList_blocked hL]
  have hne : u.readyList ≠ [] := by
    intro e
    rw [hready, List.append_eq_nil_iff, List.map_eq_nil_iff] at e
    exact ha ⟨e.2, elapsed_eq_nil.1 e.1⟩
  obtain ⟨next, rest, hnr⟩ := List.exists_cons_of_ne_nil hne
  have hrun : u.running = s.running := by simp [hu, awakened, blocked]
  -- the caller has no timer, so that it waits until it is switched
  have hcaller : ∀ p ∈ u.readyList, p ≠ s.running := by
    intro p hp
    rw [hready, List.mem_append] at hp
    rcases hp with hp | hp
    · obtain ⟨t, ht, rfl⟩ := List.mem_map.1 hp
      have hw := h.waiting t (List.mem_of_mem_filter ht)
      exact h.not_running hst (L := .waiting) hw
    · exact h.not_running hst (L := .ready) hp
  have hpcb : (u.pcbs s.running).status = .waiting := by
    have hn : s.running ∉ (elapsed (blocked s L)).map TimerItem.pcb := by
      intro hm
      rw [elapsed_blocked] at hm
      exact hcaller _ (hready ▸ List.mem_append_left _ hm) rfl
    have hu' : u.pcbs s.running = (blocked s L).pcbs s.running := if_neg hn
    rw [hu']
    simp [blocked]
  have hnext : next ≠ s.running := hcaller next (hnr ▸ List.mem_cons_self)
  have hs' : s' = ((u.setList .ready rest).setStatus next .running).setRunning next := by
    show dispatched u = _
    rw [dispatched, hnr]
    simp only [switched, hrun, hpcb, reduceCtorEq, if_false]
  have hqueues : s'.queues = (blocked s L).queues := by
    rw [hs']
    rfl
  refine ⟨by simpa [hs'] using hnext, ?_, ?_, hqueues⟩
  · have hlist : s'.list L = (blocked s L).list L := by
      cases L with
      | receivers q => simp only [State.list, hqueues]
      | senders q => simp only [State.list, hqueues]
      | _ => cases hL
    rw [hlist, blocked, list_setList_self]
  · rw [hs']
    simp [hnext.symm, hpcb]

/-! ## The calls -/

/-- The part of the two calls that tries to block. -/
theorem tryBlock (h : WellFormed s) (hst : (s.pcbs s.running).status = .running)
    (hs : s.timerList.Pairwise fun t u => t.awakeningTime ≤ u.awakeningTime) (hL : L.Blocking)
    (k : State → Except Halt State) :
    ((s.setStatus s.running .waiting).listInsertLast L s.running >>= fun s₁ =>
      internalSchedule s₁ >>= fun s₂ =>
        if s₂.running = s.running ∧ (s₂.pcbs s.running).status = .waiting then
          s₂.listDetach L s.running >>= fun s₃ =>
            .ok ((s₃.setStatus s.running .running).setRetvalue s.running r)
        else if s₂.running ≠ s.running then .ok s₂ else k s₂) =
      if Alone s then .ok (s.setRetvalue s.running r)
      else .ok (dispatched (awakened (blocked s L))) := by
  have hins : (s.setStatus s.running .waiting).listInsertLast L s.running = .ok (blocked s L) := by
    rw [State.listInsertLast, listInsert_of_unlisted]
    · rw [list_setStatus]
      rfl
    · intro L' hm
      rw [list_setStatus] at hm
      exact h.running hst L' hm
  have hsort : (blocked s L).timerList.Pairwise fun t u => t.awakeningTime ≤ u.awakeningTime := by
    have ht : (blocked s L).timerList = s.timerList := by simp [blocked]
    rw [ht]
    exact hs
  rw [hins, ok_bind, schedule_eq (h.blocked hst hL) hsort, ok_bind]
  by_cases ha : Alone s
  · obtain ⟨s₁, h₁, h₂⟩ := unblock (L := L) hst (h.running hst L)
    have hwaits : (blocked s L).running = s.running ∧
        ((blocked s L).pcbs s.running).status = .waiting := by simp [blocked]
    rw [dispatched_alone hL ha, if_pos ha, if_pos hwaits, h₁, ok_bind, h₂]
  · obtain ⟨h1, -⟩ := dispatched_blocked h hst hL ha
    rw [if_neg ha, if_neg fun e => h1 e.1, if_pos h1]

theorem WouldBlock.blocking (h : WouldBlock s c L r) : L.Blocking := by
  cases h <;> trivial

theorem saveCall_status (hst : (s.pcbs s.running).status = .running) (c : Syscall) :
    ((saveCall s c).pcbs (saveCall s c).running).status = .running := by
  rw [saveCall_running]
  simpa [saveCall] using hst

theorem WellFormed.saveCall (h : WellFormed s) (hst : (s.pcbs s.running).status = .running)
    (c : Syscall) : WellFormed (saveCall s c) := by
  refine ⟨fun L => ?_, fun {L L' p} hm hm' => ?_, fun _ L hm => ?_, h.timers, h.waiting⟩
  · rw [list_saveCall]
    exact h.nodup L
  · rw [list_saveCall] at hm hm'
    exact h.disj hm hm'
  · rw [list_saveCall] at hm
    exact h.running hst L hm

/-- The equation of the two calls. -/
theorem step_wouldBlock (h : WellFormed s) (hst : (s.pcbs s.running).status = .running)
    (hs : s.timerList.Pairwise fun t u => t.awakeningTime ≤ u.awakeningTime)
    (hb : WouldBlock s c L r) :
    step s (.syscall c) =
      if Alone s then .ok ((saveCall s c).setRetvalue s.running r)
      else .ok (dispatched (awakened (blocked (saveCall s c) L))) := by
  have key := tryBlock (r := r) (h.saveCall hst c) (saveCall_status hst c) hs hb.blocking
  have hargs := saveCall_args s c
  cases hb with
  | @send q id buffer size hid hsize hq hopen hfull =>
    rw [step_syscall rfl]
    set u := saveCall s (.mqSend id buffer size)
    have hq' : lookupQueue u id = .ok (some q) := hq
    have hopen' : (u.queues q).status = .open := hopen
    have hfull' : (u.queues q).currentMessages ≥ (u.queues q).maxMessages := hfull
    have h0 : (u.pcbs u.running).syscallArgs 0 = id := hargs 0
    have h2 : (u.pcbs u.running).syscallArgs 2 = size := hargs 2
    have hsize' : ¬ (size ≤ 0 ∨ size > messageMaxSize) := by
      have := hsize.1
      have := hsize.2
      omega
    unfold internalMqSend
    simp only [h0, h2, if_neg (not_le.2 hid), if_neg hsize', hq', ok_bind, if_pos hfull', hopen',
      ne_eq, not_true, if_false]
    exact key _
  | @receive q id buffer size hid hsize hq hopen hempty =>
    rw [step_syscall rfl]
    set u := saveCall s (.mqReceive id buffer size)
    have hq' : lookupQueue u id = .ok (some q) := hq
    have hopen' : (u.queues q).status = .open := hopen
    have hempty' : (u.queues q).messages = [] := hempty
    have h0 : (u.pcbs u.running).syscallArgs 0 = id := hargs 0
    have h2 : (u.pcbs u.running).syscallArgs 2 = size := hargs 2
    unfold internalMqReceive
    simp only [h0, h2, if_neg (not_le.2 hid), if_neg (not_le.2 hsize), hq', ok_bind,
      if_pos hempty', hopen', ne_eq, not_true, if_false]
    exact key _

/-- The messages are those from before the call. -/
theorem blocked_messages (c : Syscall) (i : QueueRef) :
    ((blocked (saveCall s c) L).queues i).messages = (s.queues i).messages ∧
      ((blocked (saveCall s c) L).queues i).currentMessages = (s.queues i).currentMessages := by
  rw [blocked, setList_queues]
  exact ⟨rfl, rfl⟩

/-- **A call that would block** returns with its error exactly if nobody else can run, and then has
changed nothing but the return value; otherwise its caller is the last one to wait. -/
theorem wouldBlock_spec (h : WellFormed s) (hst : (s.pcbs s.running).status = .running)
    (hs : s.timerList.Pairwise fun t u => t.awakeningTime ≤ u.awakeningTime)
    (hb : WouldBlock s c L r) :
    (Returns s c r ↔ Alone s) ∧
      (Alone s → step s (.syscall c) = .ok ((saveCall s c).setRetvalue s.running r)) ∧
      (¬ Alone s → ∃ s', step s (.syscall c) = .ok s' ∧ s'.running ≠ s.running ∧
        s'.list L = s.list L ++ [s.running] ∧ (s'.pcbs s.running).status = .waiting ∧
        ∀ i, (s'.queues i).messages = (s.queues i).messages ∧
          (s'.queues i).currentMessages = (s.queues i).currentMessages) := by
  have hstep := step_wouldBlock h hst hs hb
  have hstays : Alone s →
      step s (.syscall c) = .ok ((saveCall s c).setRetvalue s.running r) := by
    intro ha
    rw [hstep, if_pos ha]
  have hswitch : ¬ Alone s → ∃ s', step s (.syscall c) = .ok s' ∧ s'.running ≠ s.running ∧
      s'.list L = s.list L ++ [s.running] ∧ (s'.pcbs s.running).status = .waiting ∧
      ∀ i, (s'.queues i).messages = (s.queues i).messages ∧
        (s'.queues i).currentMessages = (s.queues i).currentMessages := by
    intro ha
    rw [if_neg ha] at hstep
    obtain ⟨h1, h2, h3, h4⟩ := dispatched_blocked (h.saveCall hst c) (saveCall_status hst c)
      hb.blocking ha
    rw [list_saveCall] at h2
    refine ⟨_, hstep, h1, h2, h3, fun i => ?_⟩
    rw [h4]
    exact blocked_messages c i
  refine ⟨⟨?_, ?_⟩, hstays, hswitch⟩
  · rintro ⟨s', hs', hrun, -, -⟩
    by_contra ha
    obtain ⟨s₁, h₁, hne, -⟩ := hswitch ha
    rw [Except.ok.inj (hs'.symm.trans h₁)] at hrun
    exact hne hrun
  · intro ha
    refine ⟨_, hstays ha, rfl, ?_, ?_⟩
    · simpa [saveCall] using hst
    · simp

/-- Init fills a queue. -/
def fillingRun : List Event := [.syscall (.mqCreate 5 1), .syscall (.mqSend 5 200 4)]

/-- With nobody to empty the queue the next send returns, with a child that is ready it blocks. -/
theorem wouldBlock_fillingRun :
    (∃ s, run step boot fillingRun = .ok s ∧ Returns s (.mqSend 5 200 4) dsosEMqFull) ∧
      ∃ s s', run step boot (.syscall (.spawn 0 0) :: fillingRun) = .ok s ∧
        step s (.syscall (.mqSend 5 200 4)) = .ok s' ∧ s'.running = 1 ∧
        (s'.queues 0).waitingSenders = [0] ∧ (s'.pcbs 0).status = .waiting := by
  have filled : ∀ {es : List Event} {s : State}, (∀ e ∈ es, e.IsMq) → run step boot es = .ok s →
      s.queueById 5 = some 0 → (s.queues 0).status = .open →
      (s.queues 0).currentMessages ≥ (s.queues 0).maxMessages →
      Inv s ∧ WouldBlock s (.mqSend 5 200 4) (.senders 0) dsosEMqFull := by
    intro es s he hr hq hopen hfull
    have hi := (run_mq he hr).toInv
    have hq' : lookupQueue s 5 = .ok (some 0) := by rw [hi.queues.lookupQueue_eq, hq]
    exact ⟨hi, .send 5 200 4 (by decide) ⟨by decide, by decide⟩ hq' hopen hfull⟩
  have sorted : ∀ {s : State}, s.timerList = [] →
      s.timerList.Pairwise fun t u => t.awakeningTime ≤ u.awakeningTime := by
    intro s ht
    rw [ht]
    exact .nil
  constructor
  · have hc : (run step boot fillingRun).toOption.any (fun s =>
        s.timerList = [] ∧ s.readyList = [] ∧ s.queueById 5 = some 0 ∧
          (s.queues 0).status = .open ∧
          (s.queues 0).currentMessages ≥ (s.queues 0).maxMessages) = true := by decide +kernel
    obtain ⟨s, hr, hc⟩ := run_check hc
    obtain ⟨ht, hready, hq, hopen, hfull⟩ := of_decide_eq_true hc
    obtain ⟨hi, hb⟩ := filled (by decide) hr hq hopen hfull
    exact ⟨s, hr, (wouldBlock_spec hi.wellFormed hi.status (sorted ht) hb).1.2
      ⟨hready, by simp [ht]⟩⟩
  · have hc : (run step boot (.syscall (.spawn 0 0) :: fillingRun)).toOption.any (fun s =>
        s.timerList = [] ∧ s.readyList = [1] ∧ s.running = 0 ∧ s.queueById 5 = some 0 ∧
          (s.queues 0).status = .open ∧ (s.queues 0).waitingSenders = [] ∧
          (s.queues 0).currentMessages ≥ (s.queues 0).maxMessages ∧
          (step s (.syscall (.mqSend 5 200 4))).toOption.any (·.running = 1)) = true := by
      decide +kernel
    obtain ⟨s, hr, hc⟩ := run_check hc
    obtain ⟨ht, hready, hrun, hq, hopen, hnobody, hfull, hone⟩ := of_decide_eq_true hc
    obtain ⟨hi, hb⟩ := filled (by decide) hr hq hopen hfull
    have ha : ¬ Alone s := by
      rintro ⟨hnone, -⟩
      rw [hready] at hnone
      cases hnone
    obtain ⟨s', hs, -, hl, hst, -⟩ :=
      (wouldBlock_spec hi.wellFormed hi.status (sorted ht) hb).2.2 ha
    rw [hs] at hone
    rw [hrun] at hl hst
    rw [show s.list (.senders 0) = [] from hnobody] at hl
    exact ⟨s, s', hr, hs, of_decide_eq_true hone, hl, hst⟩

end

end DisastrOS
