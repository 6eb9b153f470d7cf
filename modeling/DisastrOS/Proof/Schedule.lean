import DisastrOS.Proof.Placement

/-!
# The scheduler

`Settled s` is the state of the process table at a return to user code: the running process has
status `running` and is the only one on no list. `internalSchedule` takes a settled state to a
settled one (`schedule_settled`); called by a process that has just blocked, it either finds nobody
to run and changes nothing, or settles on another process (`schedule_blocked`).

`Rescheduled s s'` says that `s'` is `s` up to what the scheduler may change: the running process,
the ready list, the timers, the status and timer of the processes, and the waiting list, which may
lose members.
-/

namespace DisastrOS

open Lib State

/-! ## What the scheduler leaves alone -/

/-- The state with the scheduler's part blanked. -/
def unscheduled (s : State) : State :=
  { s with
    running := 0, readyList := [], waitingList := [], timerList := [], timerPool := .init 0,
    pcbs := fun p => { s.pcbs p with status := .created, timer := none } }

/-- `s'` differs from `s` in the scheduler's part only (module doc). -/
structure Rescheduled (s s' : State) : Prop where
  same : unscheduled s' = unscheduled s
  waiting : ∀ p ∈ s'.waitingList, p ∈ s.waitingList

section
variable {s s' s'' : State} {X : List PcbRef} {L : PcbList} {p q : PcbRef} {ps : List PcbRef}

namespace Rescheduled

theorem refl (s : State) : Rescheduled s s := ⟨rfl, fun _ => id⟩

theorem trans (h : Rescheduled s s') (h' : Rescheduled s' s'') : Rescheduled s s'' :=
  ⟨h'.same.trans h.same, fun p hp => h.waiting p (h'.waiting p hp)⟩

theorem pcbs (h : Rescheduled s s') (p : PcbRef) :
    s'.pcbs p = { s.pcbs p with status := (s'.pcbs p).status, timer := (s'.pcbs p).timer } := by
  have := congrFun (congrArg State.pcbs h.same) p
  simp only [unscheduled, PCB.mk.injEq] at this
  cases hp : s'.pcbs p
  simp_all

theorem queues (h : Rescheduled s s') : s'.queues = s.queues := (congrArg State.queues h.same :)
theorem history (h : Rescheduled s s') : s'.history = s.history := (congrArg State.history h.same :)
theorem calls (h : Rescheduled s s') : s'.calls = s.calls := (congrArg State.calls h.same :)
theorem mem (h : Rescheduled s s') : s'.mem = s.mem := (congrArg State.mem h.same :)
theorem pcbPool (h : Rescheduled s s') : s'.pcbPool = s.pcbPool := (congrArg State.pcbPool h.same :)
theorem queuePool (h : Rescheduled s s') : s'.queuePool = s.queuePool :=
  (congrArg State.queuePool h.same :)
theorem messagePool (h : Rescheduled s s') : s'.messagePool = s.messagePool :=
  (congrArg State.messagePool h.same :)
theorem resources (h : Rescheduled s s') : s'.resources = s.resources :=
  (congrArg State.resources h.same :)
theorem resourcesList (h : Rescheduled s s') : s'.resourcesList = s.resourcesList :=
  (congrArg State.resourcesList h.same :)
theorem zombieList (h : Rescheduled s s') : s'.zombieList = s.zombieList :=
  (congrArg State.zombieList h.same :)
theorem initPcb (h : Rescheduled s s') : s'.initPcb = s.initPcb :=
  (congrArg State.initPcb h.same :)
theorem lastPid (h : Rescheduled s s') : s'.lastPid = s.lastPid :=
  (congrArg State.lastPid h.same :)

theorem alloc (h : Rescheduled s s') : s'.Alloc p ↔ s.Alloc p := by
  unfold State.Alloc; rw [h.pcbPool]

theorem setStatus (s : State) (p : PcbRef) (st : ProcessStatus) :
    Rescheduled s (s.setStatus p st) := by
  refine ⟨?_, fun _ => id⟩
  simp only [unscheduled, setStatus_pcbs]
  congr 1
  funext i
  split <;> rfl

theorem setTimer (s : State) (p : PcbRef) (t : Option Nat) :
    Rescheduled s (s.setTimer p t) := by
  refine ⟨?_, fun _ => id⟩
  simp only [unscheduled, setTimer_pcbs]
  congr 1
  funext i
  split <;> rfl

theorem setRunning (s : State) (p : PcbRef) : Rescheduled s (s.setRunning p) := ⟨rfl, fun _ => id⟩

theorem setReady (s : State) (ps : List PcbRef) : Rescheduled s (s.setList .ready ps) :=
  ⟨rfl, fun _ => id⟩

theorem listInsert (h : s.listInsert .ready p ps = .ok s') :
    Rescheduled s s' ∧ s'.running = s.running := by
  unfold State.listInsert at h
  split at h
  · cases h; exact ⟨refl s, rfl⟩
  · split at h
    · cases h
    · cases h; exact ⟨setReady s ps, rfl⟩

theorem detachWaiting (h : s.listDetach .waiting p = .ok s') :
    Rescheduled s s' ∧ s'.running = s.running := by
  obtain ⟨-, rfl⟩ := listDetach_cases h
  exact ⟨⟨rfl, fun _ hq => List.mem_of_mem_erase hq⟩, rfl⟩

theorem removeCurrent (s : State) (t : TimerItem) : Rescheduled s (timerListRemoveCurrent s t) :=
  ⟨rfl, fun _ => id⟩

theorem wakeTimers : ∀ (ts : List TimerItem) (prev : Option PcbRef) {s s' : State},
    wakeTimers ts prev s = .ok s' → Rescheduled s s' ∧ s'.running = s.running
  | [], _, s, s', h => by
    cases h; exact ⟨refl s, rfl⟩
  | t :: ts, prev, s, s', h => by
    rw [DisastrOS.wakeTimers] at h
    split at h
    · obtain ⟨s₁, h₁, h⟩ := bind_eq_ok.1 h
      obtain ⟨s₂, h₂, h⟩ := bind_eq_ok.1 h
      obtain ⟨f₁, r₁⟩ := detachWaiting h₁
      obtain ⟨f₂, r₂⟩ := listInsert h₂
      obtain ⟨f₃, r₃⟩ := wakeTimers ts _ h
      refine ⟨f₁.trans ((setStatus _ _ _).trans ((setTimer _ _ _).trans (f₂.trans
        ((removeCurrent _ t).trans f₃)))), ?_⟩
      rw [r₃, ← r₁]
      exact r₂
    · cases h; exact ⟨refl s, rfl⟩

theorem dispatch (h : dispatch s = .ok s') : Rescheduled s s' := by
  unfold DisastrOS.dispatch at h
  split at h
  · cases h; exact refl s
  · obtain ⟨⟨next, s₁⟩, h₁, h⟩ := bind_eq_ok.1 h
    have f₁ : Rescheduled s s₁ := by
      unfold State.listDetachFirst at h₁
      split at h₁ <;> cases h₁
      exact setReady _ _
    dsimp only at h
    split at h
    · obtain ⟨s₂, h₂, h⟩ := bind_eq_ok.1 h
      cases h
      exact f₁.trans ((setStatus _ _ _).trans ((listInsert h₂).1.trans
        ((setStatus _ _ _).trans (setRunning _ _))))
    · cases h
      exact f₁.trans ((setStatus _ _ _).trans (setRunning _ _))

theorem schedule (h : internalSchedule s = .ok s') : Rescheduled s s' := by
  obtain ⟨s₁, h₁, h⟩ := bind_eq_ok.1 h
  exact (wakeTimers _ _ h₁).1.trans (dispatch h)

end Rescheduled

/-! ## Timers -/

/-- Each pending timer is that of one process, which sleeps on the waiting list. -/
structure Timed (s : State) : Prop where
  nodup : (s.timerList.map (·.pcb)).Nodup
  waiting : ∀ t ∈ s.timerList, t.pcb ∈ s.waitingList ∧ (s.pcbs t.pcb).syscallNum = dsosCallSleep

theorem Timed.congr (h : Timed s) (ht : s'.timerList = s.timerList)
    (hw : ∀ t ∈ s.timerList, t.pcb ∈ s'.waitingList ∧
      (s'.pcbs t.pcb).syscallNum = (s.pcbs t.pcb).syscallNum) : Timed s' := by
  refine ⟨ht ▸ h.nodup, fun t hm => ?_⟩
  rw [ht] at hm
  exact ⟨(hw t hm).1, (hw t hm).2 ▸ (h.waiting t hm).2⟩

/-- Some process can run instead of the running one, now or when the elapsed timers are served. -/
def Schedulable (s : State) : Prop :=
  s.readyList ≠ [] ∨ ∃ t ∈ s.timerList.head?, t.awakeningTime ≤ s.time

/-! ## The wake-up loop -/

/-- The state after one turn of the loop, which serves the first timer `t`. -/
def woken (s : State) (prev : Option PcbRef) (t : TimerItem) : State :=
  timerListRemoveCurrent ((((s.setList .waiting (s.waitingList.erase t.pcb)).setStatus t.pcb
    .ready).setTimer t.pcb none).setList .ready (insertAfter prev t.pcb s.readyList)) t

section
variable {t : TimerItem} {ts : List TimerItem} {prev : Option PcbRef}

theorem woken_pcbs (hq : q ≠ t.pcb) : (woken s prev t).pcbs q = s.pcbs q := by
  simp [woken, timerListRemoveCurrent, hq]

theorem woken_readyList : (woken s prev t).readyList = insertAfter prev t.pcb s.readyList := rfl

theorem woken_timerList (hts : s.timerList = t :: ts) : (woken s prev t).timerList = ts := by
  simp [woken, timerListRemoveCurrent, hts]

theorem woken_placed (ts : List TimerItem) (prev : Option PcbRef) (h : Placed s X)
    (hw : t.pcb ∈ s.waitingList) :
    wakeTimers (t :: ts) prev s = (if t.awakeningTime ≤ s.time then
        wakeTimers ts (some t.pcb) (woken s prev t) else .ok s) ∧ Placed (woken s prev t) X := by
  have h1 := h.detach_erase (L := .waiting) hw
  have h2 := (h1.setStatus List.mem_cons_self .ready).setTimer t.pcb none
  have h3 := h2.insert (L := .ready) (h.not_held (L := .waiting) hw)
    (by simp [PcbList.status]) trivial (insertAfter_perm prev _ _)
  constructor
  · rw [wakeTimers, Placed.detach_eq (L := .waiting) hw]
    simp only [State.listInsertAfter, ok_bind, h2.insert_eq List.mem_cons_self]
    rfl
  · refine h3.congr rfl (fun L => ?_) fun _ _ => ?_
    · cases L <;> rfl
    · simp [woken, timerListRemoveCurrent]

theorem woken_timed (ht : Timed s) (hts : s.timerList = t :: ts) : Timed (woken s prev t) := by
  have hnd := ht.nodup
  rw [hts, List.map_cons, List.nodup_cons] at hnd
  refine ⟨by rw [woken_timerList hts]; exact hnd.2, fun u hu => ?_⟩
  rw [woken_timerList hts] at hu
  have hne : u.pcb ≠ t.pcb := fun e => hnd.1 (e ▸ List.mem_map_of_mem hu)
  obtain ⟨h1, h2⟩ := ht.waiting u (hts ▸ List.mem_cons_of_mem _ hu)
  exact ⟨(List.mem_erase_of_ne hne).2 h1, by rw [woken_pcbs hne]; exact h2⟩

end

/-- The wake-up loop succeeds and keeps the process table; it makes somebody ready unless no timer
has elapsed, and then changes nothing. -/
theorem wakeTimers_spec : ∀ (ts : List TimerItem) (prev : Option PcbRef) {s : State},
    Placed s X → Timed s → s.timerList = ts →
    ∃ s', wakeTimers ts prev s = .ok s' ∧ Placed s' X ∧ Timed s' ∧
      (∀ q, q ∉ s.timerList.map (·.pcb) → s'.pcbs q = s.pcbs q) ∧
      (¬ Schedulable s → s' = s) ∧ (Schedulable s → s'.readyList ≠ []) ∧
      (s.readyList ≠ [] → s'.readyList ≠ [])
  | [], _, s, h, ht, hts =>
    ⟨s, rfl, h, ht, fun _ _ => rfl, fun _ => rfl, by simp [Schedulable, hts], id⟩
  | t :: ts, prev, s, h, ht, hts => by
    have hw := (ht.waiting t (hts ▸ List.mem_cons_self)).1
    obtain ⟨heq, hpl⟩ := woken_placed ts prev h hw
    rw [heq]
    by_cases he : t.awakeningTime ≤ s.time
    · obtain ⟨s', h1, h2, h3, h6, -, -, h9⟩ := wakeTimers_spec ts (some t.pcb) hpl
        (woken_timed ht hts) (woken_timerList hts)
      have hne : (woken s prev t).readyList ≠ [] := by
        intro e
        have := (insertAfter_perm prev t.pcb s.readyList).length_eq
        rw [← woken_readyList, e] at this
        simp at this
      refine ⟨s', by rw [if_pos he]; exact h1, h2, h3, ?_, ?_, fun _ => h9 hne, fun _ => h9 hne⟩
      · intro q hq
        rw [hts, List.map_cons, List.mem_cons, not_or] at hq
        rw [h6 q (by rw [woken_timerList hts]; exact hq.2), woken_pcbs hq.1]
      · exact fun hn => absurd (.inr ⟨t, by simp [hts], he⟩) hn
    · rw [if_neg he]
      refine ⟨s, rfl, h, ht, fun _ _ => rfl, fun _ => rfl, ?_, id⟩
      rintro (hr | ⟨u, hu, hue⟩)
      · exact hr
      · rw [hts, List.head?_cons, Option.mem_some_iff] at hu
        exact absurd (hu ▸ hue) he

/-! ## The switch -/

/-- The process table at a return to user code (module doc). -/
structure Settled (s : State) : Prop where
  placed : Placed s [s.running]
  status : (s.pcbs s.running).status = .running
  timed : Timed s

/-- The state after the switch to `next`, the first of the ready processes `next :: rest`; a process
that was running goes behind `rest`. -/
def switched (s : State) (next : PcbRef) (rest : List PcbRef) : State :=
  let s :=
    if (s.pcbs s.running).status = .running then
      (s.setStatus s.running .ready).setList .ready (rest ++ [s.running])
    else s.setList .ready rest
  (s.setStatus next .running).setRunning next

@[simp] theorem switched_running {next : PcbRef} {rest : List PcbRef} :
    (switched s next rest).running = next := by
  unfold switched; split <;> rfl

/-- The switch, made by a process that is still running or by one that has blocked. -/
theorem switched_spec {next : PcbRef} {rest : List PcbRef} (ht : Timed s)
    (hr : s.readyList = next :: rest)
    (h : (s.pcbs s.running).status = .running ∧ Placed s [s.running] ∨
      (s.pcbs s.running).status ≠ .running ∧ Placed s []) :
    dispatch s = .ok (switched s next rest) ∧ Settled (switched s next rest) := by
  -- it is enough to place the processes before the new one is marked as running
  suffices key : ∀ s₁, switched s next rest = (s₁.setStatus next .running).setRunning next →
      Placed s₁ [next] → dispatch s = .ok (switched s next rest) →
      dispatch s = .ok (switched s next rest) ∧ Settled (switched s next rest) by
    rcases h with ⟨hst, h⟩ | ⟨hst, h⟩
    · obtain ⟨h1, h2⟩ := h.detachFirst (L := .ready) hr
      have hne : s.running ≠ next := by
        intro e
        exact h.not_held (L := .ready) (p := next) (by simp [State.list, hr]) (by simp [e])
      have h3 : Placed ((s.setList .ready rest).setStatus s.running .ready) [s.running, next] :=
        (h2.perm (Y := [s.running, next]) (by simp [or_comm])).setStatus List.mem_cons_self .ready
      obtain ⟨h4, h5⟩ := h3.insertLast (L := .ready) (by simpa using hne)
        (by simp [PcbList.status]) trivial
      have hl : ((s.setList .ready rest).setStatus s.running .ready).list .ready = rest := rfl
      rw [hl] at h4 h5
      refine key _ (by simp only [switched, hst, if_true]; rfl) h5 ?_
      unfold dispatch
      rw [if_neg (by simp [hr]), h1]
      simp only [ok_bind, setList_pcbs, setList_running, hst, if_true, h4]
      simp only [switched, hst, if_true]
      rfl
    · obtain ⟨h1, h2⟩ := h.detachFirst (L := .ready) hr
      refine key _ (by simp only [switched, hst, if_false]) h2 ?_
      unfold dispatch
      rw [if_neg (by simp [hr]), h1]
      simp only [ok_bind, setList_pcbs, setList_running, hst, if_false, switched]
  intro s₁ hsw h₁ hd
  have hf := Rescheduled.dispatch hd
  refine ⟨hd, ⟨?_, ?_, ?_⟩⟩
  · rw [switched_running, hsw]
    exact (h₁.setStatus List.mem_cons_self .running).setRunning next
  · rw [switched_running, hsw]
    simp
  · refine ht.congr ?_ fun t hm => ⟨?_, by rw [hf.pcbs]⟩
    · unfold switched; split <;> rfl
    · unfold switched; split <;> exact (ht.waiting t hm).1

/-! ## The scheduler -/

theorem switched_status {next : PcbRef} {rest : List PcbRef} {st : ProcessStatus}
    (hn : (s.pcbs next).status ≠ st) (hr : (s.pcbs s.running).status ≠ st) (hst : st ≠ .running)
    (hst' : st ≠ .ready) :
    ((switched s next rest).pcbs q).status = st ↔ (s.pcbs q).status = st := by
  unfold switched
  by_cases hq : q = next
  · subst hq
    simp [hn, Ne.symm hst]
  · by_cases hq' : q = s.running
    · subst hq'
      split <;> simp [hq, hr, Ne.symm hst']
    · split <;> simp [hq, hq']

/-- The scheduler takes a return to user code to a return to user code, and wakes only those who
sleep for some time. -/
theorem schedule_settled (h : Settled s) : ∃ s', internalSchedule s = .ok s' ∧ Settled s' ∧
    ∀ q, (s.pcbs q).syscallNum ≠ dsosCallSleep →
      ((s'.pcbs q).status = .waiting ↔ (s.pcbs q).status = .waiting) := by
  obtain ⟨s₁, h1, h2, h3, h4, -, -, -⟩ := wakeTimers_spec _ none h.placed h.timed rfl
  have hkeep : ∀ q, (s.pcbs q).syscallNum ≠ dsosCallSleep → s₁.pcbs q = s.pcbs q := by
    refine fun q hq => h4 q fun hm => ?_
    obtain ⟨t, ht, rfl⟩ := List.mem_map.1 hm
    exact hq (h.timed.waiting t ht).2
  obtain ⟨hf, hrun⟩ := Rescheduled.wakeTimers _ _ h1
  have hst : (s₁.pcbs s₁.running).status = .running := by
    rw [hrun, h4, h.status]
    intro hm
    obtain ⟨t, ht, he⟩ := List.mem_map.1 hm
    exact h.placed.not_held (L := .waiting) (h.timed.waiting t ht).1 (by simp [he])
  unfold internalSchedule
  rw [h1, ok_bind]
  cases hr : s₁.readyList with
  | nil => exact ⟨s₁, by simp [dispatch, hr], ⟨hrun ▸ h2, hst, h3⟩, fun q hq => by rw [hkeep q hq]⟩
  | cons next rest =>
    obtain ⟨h5, h6⟩ := switched_spec h3 hr (.inl ⟨hst, hrun ▸ h2⟩)
    have hnext : (s₁.pcbs next).status = .ready := h2.status (L := .ready) (by simp [State.list, hr])
    refine ⟨_, h5, h6, fun q hq => ?_⟩
    rw [switched_status (by simp [hnext]) (by simp [hst]) (by simp) (by simp), hkeep q hq]

/-- The scheduler called for a process that has gone to a waiting list. -/
theorem schedule_blocked (h : Placed s []) (ht : Timed s) (ha : s.Alloc s.running) :
    (¬ Schedulable s ∧ internalSchedule s = .ok s) ∨
    (Schedulable s ∧ ∃ s', internalSchedule s = .ok s' ∧ Settled s') := by
  obtain ⟨s₁, h1, h2, h3, -, h4, h5, -⟩ := wakeTimers_spec _ none h ht rfl
  obtain ⟨hf, hrun⟩ := Rescheduled.wakeTimers _ _ h1
  unfold internalSchedule
  rw [h1, ok_bind]
  by_cases hs : Schedulable s
  · refine .inr ⟨hs, ?_⟩
    obtain ⟨next, rest, hr⟩ := List.exists_cons_of_ne_nil (h5 hs)
    obtain ⟨L, hL⟩ := h2.total (p := s₁.running) (by rw [hf.alloc, hrun]; exact ha) (by simp)
    have hst : (s₁.pcbs s₁.running).status ≠ .running := by
      rw [h2.status hL]
      exact L.status_ne_running
    obtain ⟨h6, h7⟩ := switched_spec h3 hr (.inr ⟨hst, h2⟩)
    exact ⟨_, h6, h7⟩
  · refine .inl ⟨hs, ?_⟩
    obtain rfl := h4 hs
    unfold dispatch
    rw [if_pos]
    by_contra hne
    exact hs (.inl hne)

end

end DisastrOS
