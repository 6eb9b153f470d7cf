import DisastrOS.Model.PoolAllocator
import DisastrOS.Proof.Calls
import DisastrOS.Proof.Scheduler
import DisastrOS.Proof.Sane

/-!
# The timer list in any run

At every return to user code the timer list is in order, its blocks are the outstanding ones of its
pool, and no timer on it has elapsed (`Punctual`). So only a tick makes timers fire, and they are
exactly those whose time has come; a timer is set only by a `sleep` and cancelled only by the exit
of its process (`TimersAfter`, `timers_exact`). It fires at its time, and then its process is ready
or runs (`timer_fires`). The times of the code are `int`s, and those of the model are the same as
long as every event is `Timely`. The runs reach a state, so that no step of theirs `Relinks`.
-/

namespace DisastrOS

open Lib State Relation

/-- The timer list is in order, and its blocks are the outstanding ones. -/
structure Filed (s : State) : Prop where
  sorted : s.timerList.Pairwise fun t u => t.awakeningTime ≤ u.awakeningTime
  owns : s.timerPool.Owns (s.timerList.map TimerItem.block)
  size : s.timerPool.sizeMax = maxNumProcesses

/-- No timer has elapsed either. -/
structure Punctual (s : State) : Prop extends Filed s where
  future : ∀ t ∈ s.timerList, s.time < t.awakeningTime

/-- The parent of the running process waits for it. -/
def Awaited (s : State) : Prop :=
  ∃ parent ∈ (s.pcbs s.running).parent, waitsFor s parent (s.pcbs s.running).pid

/-- `ts` are the timers that are left after the event. -/
def TimersAfter (s : State) (ts : List TimerItem) : Event → Prop
  | .tick => ts = s.timerList.filter (s.time + 1 < ·.awakeningTime)
  | .syscall (.sleep n) =>
    if (s.pcbs s.running).timer.isSome ∨ s.timerList.length = maxNumProcesses ∨ n ≤ 0 then
      ts = s.timerList
    else ∃ b, (∀ t ∈ s.timerList, t.block ≠ b) ∧
      ts = timerInsert ⟨b, s.time + n, s.running⟩ s.timerList
  | .syscall (.exit v) =>
    Awaited (saveCall s (.exit v)) ∧ ts = s.timerList.filter (·.pcb ≠ s.running) ∨
      ¬ Awaited (saveCall s (.exit v)) ∧ ts = s.timerList
  | _ => ts = s.timerList

/-- The time that the event computes. -/
def stamp (s : State) : Event → Int
  | .tick => s.time + 1
  | .syscall (.sleep n) => s.time + n
  | _ => s.time

/-- It is a value of type `int`. -/
def Timely (s : State) (e : Event) : Prop := FitsInt (stamp s e)

instance (s : State) (e : Event) : Decidable (Timely s e) :=
  inferInstanceAs (Decidable (FitsInt (stamp s e)))

/-- The clock and the timers hold values of type `int`. -/
structure Representable (s : State) : Prop where
  time : FitsInt s.time
  timers : ∀ t ∈ s.timerList, FitsInt t.awakeningTime

/-- Process `p` is ready, or runs. -/
def Awake (s : State) (p : PcbRef) : Prop := p ∈ s.readyList ∨ s.running = p

/-- The end of the timer `t`: its time has come, or its process exits. -/
def Ends (t : TimerItem) (s : State) (e : Event) (s' : State) : Prop :=
  e = .tick ∧ s'.time = t.awakeningTime ∧ Awake s' t.pcb ∨
    (∃ v, e = .syscall (.exit v)) ∧ s.running = t.pcb

section
variable {s s' s₁ s₂ : State} {p r : PcbRef} {n : Nat} {t : TimerItem} {ts : List TimerItem}
  {e : Event} {es es' : List Event} {L : PcbList}

/-! ## The list and its pool -/

theorem Filed.congr (h : Filed s) (hl : s'.timerList = s.timerList)
    (hp : s'.timerPool = s.timerPool) : Filed s' := by
  refine ⟨?_, ?_, ?_⟩
  · rw [hl]
    exact h.sorted
  · rw [hl, hp]
    exact h.owns
  · rw [hp]
    exact h.size

theorem Punctual.congr (h : Punctual s) (hl : s'.timerList = s.timerList)
    (hp : s'.timerPool = s.timerPool) (ht : s'.time = s.time) : Punctual s' :=
  ⟨h.toFiled.congr hl hp, by rw [hl, ht]; exact h.future⟩

/-- The first timer is removed. -/
theorem Filed.tail (h : Filed s) (hl : s.timerList = t :: ts) :
    Filed { s with timerList := ts, timerPool := s.timerPool.release t.block } := by
  have hs := h.sorted
  have ho := h.owns
  rw [hl] at hs ho
  have h1 := ho.release List.mem_cons_self
  rw [List.map_cons, List.erase_cons_head] at h1
  exact ⟨(List.pairwise_cons.1 hs).2, h1, Pool.release_sizeMax.trans h.size⟩

theorem foldl_release_sizeMax {a : Pool} : ∀ bs : List Nat,
    (bs.foldl Pool.release a).sizeMax = a.sizeMax
  | [] => rfl
  | _ :: bs => (foldl_release_sizeMax bs).trans Pool.release_sizeMax

theorem Filed.purge (h : Filed s) (p : PcbRef) : Filed (purgeTimers s p) := by
  refine ⟨h.sorted.filter _, ?_, ?_⟩
  · show ((s.timerList.filter (·.pcb = p)).foldl (fun a t => a.release t.block) s.timerPool).Owns _
    rw [← List.foldl_map (f := TimerItem.block) (g := Pool.release)]
    refine Pool.Owns.release_all (h.owns.perm ?_)
    rw [← List.map_append]
    have hneg : s.timerList.filter (·.pcb ≠ p) =
        s.timerList.filter fun t => !decide (t.pcb = p) := by simp
    show (s.timerList.map TimerItem.block).Perm
      ((s.timerList.filter (·.pcb = p) ++ s.timerList.filter (·.pcb ≠ p)).map TimerItem.block)
    rw [hneg]
    exact ((List.filter_append_perm _ _).map _).symm
  · show ((s.timerList.filter (·.pcb = p)).foldl (fun a t => a.release t.block)
      s.timerPool).sizeMax = _
    rw [← List.foldl_map (f := TimerItem.block) (g := Pool.release), foldl_release_sizeMax]
    exact h.size

theorem Filed.dozed {b : Nat} {pool : Pool} (h : Filed s) (hg : s.timerPool.get = some (b, pool)) :
    Filed (dozed s b pool) := by
  refine ⟨?_, ?_, (Pool.get_eq hg).2.trans h.size⟩
  · show (timerInsert _ s.timerList).Pairwise _
    rw [timerInsert_eq]
    exact sorted_insertByKey h.sorted
  · have hp := (timerInsert_perm
      ⟨b, s.time + (s.pcbs s.running).syscallArgs 0, s.running⟩ s.timerList).map TimerItem.block
    exact (h.owns.get hg).perm hp.symm

/-! ## Effects -/

/-- While no timer has elapsed, an effect leaves the timers alone, or cancels those of a process
that exits. -/
theorem Effect.timers (h : Effect n r s s') (hs : Punctual s) : Punctual s' ∧ s'.time = s.time ∧
    (s'.timerList = s.timerList ∨
      n = dsosCallExit ∧ s'.timerList = s.timerList.filter (·.pcb ≠ r)) := by
  have same : s'.timerList = s.timerList → s'.timerPool = s.timerPool → s'.time = s.time →
      Punctual s' ∧ s'.time = s.time ∧ (s'.timerList = s.timerList ∨
        n = dsosCallExit ∧ s'.timerList = s.timerList.filter (·.pcb ≠ r)) := fun hl hp ht =>
    ⟨hs.congr hl hp ht, ht, .inl hl⟩
  cases h with
  | minor h => exact same h.timerList h.timerPool h.time
  | wake _ hl hle =>
    have := hs.future _ (hl ▸ List.mem_cons_self)
    omega
  | purge hn =>
    exact ⟨⟨hs.toFiled.purge r, fun t ht => hs.future t (List.mem_of_mem_filter ht)⟩, rfl,
      .inr ⟨hn, rfl⟩⟩
  | enqueue | queueUp | yield | giveUp | serve => exact same (by simp) (by simp) (by simp)
  | _ => exact same rfl rfl rfl

theorem Effects.timers (h : Effects n r s s') (hs : Punctual s) : Punctual s' ∧ s'.time = s.time ∧
    (s'.timerList = s.timerList ∨
      n = dsosCallExit ∧ s'.timerList = s.timerList.filter (·.pcb ≠ r)) := by
  induction h with
  | refl => exact ⟨hs, rfl, .inl rfl⟩
  | tail _ he ih =>
    obtain ⟨h1, h2, h3⟩ := ih
    obtain ⟨h4, h5, h6⟩ := he.timers h1
    refine ⟨h4, h5.trans h2, ?_⟩
    rcases h6 with h6 | ⟨hn, h6⟩
    · rw [h6]
      exact h3
    · refine .inr ⟨hn, ?_⟩
      rcases h3 with h3 | ⟨-, h3⟩
      · rw [h6, h3]
      · rw [h6, h3, List.filter_filter]
        simp

/-- The loop of the scheduler on a list in order: all timers that have elapsed fire. -/
theorem wakeTimers_timers : ∀ (ts : List TimerItem) {prev : Option PcbRef} {s : State}, Filed s →
    s.timerList = ts → wakeTimers ts prev s = .ok s' →
      Punctual s' ∧ s'.timerList = ts.filter (s.time < ·.awakeningTime) ∧ s'.time = s.time
  | [], _, s, h, hl, hw => by
    cases hw
    exact ⟨⟨h, by simp [hl]⟩, hl, rfl⟩
  | t :: ts, prev, s, h, hl, hw => by
    rw [wakeTimers] at hw
    split at hw
    · rename_i hle
      obtain ⟨s₁, h₁, hw⟩ := bind_eq_ok.1 hw
      obtain ⟨s₂, h₂, hw⟩ := bind_eq_ok.1 hw
      have hd := Minor.listDetach (.inl rfl) h₁
      have hl₂ : s₂.timerList = t :: ts := ((listInsert_timerList h₂).trans hd.timerList).trans hl
      have hsame := (Rescheduled.listInsert h₂).1.same
      have ht₂ : s₂.time = s.time := Eq.trans (congrArg State.time hsame :) hd.time
      have hp₂ : s₂.timerPool = s.timerPool := by
        rcases listInsert_cases h₂ with rfl | rfl
        · exact hd.timerPool
        · rw [setList_timerPool]
          exact hd.timerPool
      rw [timerListRemoveCurrent_eq hl₂] at hw
      obtain ⟨h3, h4, h5⟩ := wakeTimers_timers ts
        ((h.congr (hl₂.trans hl.symm) hp₂).tail hl₂) rfl hw
      refine ⟨h3, h4.trans ?_, h5.trans ht₂⟩
      rw [List.filter_cons_of_neg (by simpa using hle)]
      simp only [ht₂]
    · rename_i hlt
      have hs := h.sorted
      rw [hl] at hs
      have hall : ∀ u ∈ t :: ts, s.time < u.awakeningTime := by
        intro u hu
        rcases List.mem_cons.1 hu with rfl | hu
        · omega
        · have := (List.pairwise_cons.1 hs).1 u hu
          omega
      have hf := List.filter_eq_self.2 fun u hu => decide_eq_true (hall u hu)
      cases hw
      exact ⟨⟨h, hl ▸ hall⟩, hl.trans hf.symm, rfl⟩

theorem schedule_timers (h : Filed s) (hs : internalSchedule s = .ok s') : Punctual s' ∧
    s'.timerList = s.timerList.filter (s.time < ·.awakeningTime) ∧ s'.time = s.time := by
  obtain ⟨s₁, hw, hd⟩ := bind_eq_ok.1 hs
  obtain ⟨h1, h2, h3⟩ := wakeTimers_timers _ h rfl hw
  obtain ⟨h4, h5, h6⟩ := (dispatch_effects (n := dsosCallPreempt) (.inl rfl) rfl hd).timers h1
  exact ⟨h4, (h6.resolve_right fun h => by cases h.1).trans h2, h5.trans h3⟩

/-! ## Calls -/

/-- Setting a timer and calling the scheduler. -/
theorem filter_timerInsert {time : Int} (h : ∀ u ∈ ts, time < u.awakeningTime) :
    (timerInsert t ts).filter (time < ·.awakeningTime) =
      if time < t.awakeningTime then timerInsert t ts else ts := by
  have hts : ts.filter (time < ·.awakeningTime) = ts :=
    List.filter_eq_self.2 fun u hu => decide_eq_true (h u hu)
  split
  · rename_i ht
    refine List.filter_eq_self.2 fun u hu => decide_eq_true ?_
    rcases List.mem_cons.1 ((timerInsert_perm t ts).mem_iff.1 hu) with rfl | hu
    exacts [ht, h u hu]
  · rename_i ht
    cases ts with
    | nil => simp [timerInsert, ht]
    | cons x xs =>
      have hx := h x List.mem_cons_self
      rw [timerInsert, if_pos (by omega), List.filter_cons_of_neg (by simpa using ht), hts]

theorem sleep_timers (h : Punctual s) (hs : internalSleep s = .ok s') : Punctual s' ∧
    s'.time = s.time ∧
    if (s.pcbs s.running).timer.isSome ∨ s.timerList.length = maxNumProcesses ∨
        (s.pcbs s.running).syscallArgs 0 ≤ 0 then s'.timerList = s.timerList
    else ∃ b, (∀ t ∈ s.timerList, t.block ≠ b) ∧ s'.timerList =
      timerInsert ⟨b, s.time + (s.pcbs s.running).syscallArgs 0, s.running⟩ s.timerList := by
  have hfull : s.timerPool.get = none ↔ s.timerList.length = maxNumProcesses := by
    rw [h.owns.get_none, List.length_map, h.size]
  rcases sleep_effects hs with ⟨hno, hm⟩ | ⟨hyes, b, pool, s₁, hg, hm, hsch⟩
  · refine ⟨h.congr hm.timerList hm.timerPool hm.time, hm.time, ?_⟩
    rw [if_pos (hno.imp_right fun h => .inl (hfull.1 h))]
    exact hm.timerList
  · obtain ⟨h1, h2, h3⟩ :=
      schedule_timers ((h.toFiled.dozed hg).congr hm.timerList hm.timerPool) hsch
    have ht : s₁.time = s.time := hm.time
    have hl : s₁.timerList = timerInsert
      ⟨b, s.time + (s.pcbs s.running).syscallArgs 0, s.running⟩ s.timerList := hm.timerList
    rw [ht, hl, filter_timerInsert h.future] at h2
    refine ⟨h1, h3.trans ht, ?_⟩
    have hlen : s.timerList.length ≠ maxNumProcesses := fun he => by
      rw [hfull.2 he] at hg
      cases hg
    split
    · rename_i hc
      have hle : (s.pcbs s.running).syscallArgs 0 ≤ 0 := by simpa [hyes, hlen] using hc
      rw [h2, if_neg (by dsimp only; omega)]
    · rename_i hc
      have hlt : ¬ (s.pcbs s.running).syscallArgs 0 ≤ 0 := fun hle => hc (.inr (.inr hle))
      refine ⟨b, fun t hmem he => ?_, ?_⟩
      · exact h.owns.not_mem_get hg (he ▸ List.mem_map_of_mem hmem)
      · rw [h2, if_pos (by dsimp only; omega)]

theorem exit_timers (hn : (s.pcbs s.running).syscallNum = dsosCallExit)
    (hs : internalExit s = .ok s') :
    Awaited s ∧ s'.timerList = s.timerList.filter (·.pcb ≠ s.running) ∨
      ¬ Awaited s ∧ s'.timerList = s.timerList := by
  obtain ⟨s₁, s₂, s₃, parent, hq, hi, hp, hq', hor⟩ := exit_cases hs
  have hp' : (s.pcbs s.running).parent = some parent := by
    rw [listInsert_pcbs hi] at hp
    simpa [hq.parent] using hp
  have hpid : (s₃.pcbs s.running).pid = (s.pcbs s.running).pid := by
    rw [hq'.pid, listInsert_pcbs hi]
    simp [hq.pid]
  have htl : s₃.timerList = s.timerList := by
    rw [hq'.timerList, listInsert_timerList hi]
    exact hq.timerList
  have hiff : Awaited s ↔ waitsFor s₃ parent (s₃.pcbs s.running).pid := by
    rw [waitsFor_retired hq hi hq' (by rw [hn]; decide), hpid]
    simp [Awaited, hp']
  rw [hiff]
  rcases hor with ⟨hw, he⟩ | ⟨hw, p, ps, -, rfl⟩
  · obtain ⟨s₄, s₅, s₆, s₇, hd, hq₄, hrel, hz, rfl⟩ := exitToParent_cases he
    refine .inl ⟨hw, ?_⟩
    have h4 : s₅.timerList = s₄.timerList := hq₄.timerList
    show s₇.timerList = _
    rw [(Minor.listDetach (.inr rfl) hz).timerList, (Minor.releaseDescriptors hrel).timerList]
    show s₅.timerList.filter _ = _
    rw [h4, (Minor.listDetach (.inl rfl) hd).timerList, htl]
  · exact .inr ⟨hw, htl⟩

/-! ## Who is woken -/

/-- What the switch does to the ready list. -/
theorem dispatch_cases (h : dispatch s = .ok s') : s.readyList = [] ∧ s' = s ∨
    ∃ next rest, s.readyList = next :: rest ∧ s'.running = next ∧ s'.timerList = s.timerList ∧
      (s'.readyList = rest ∨ s'.readyList = rest ++ [s.running]) := by
  unfold dispatch at h
  split at h
  · rename_i hr
    cases h
    exact .inl ⟨hr, rfl⟩
  obtain ⟨⟨next, s₁⟩, h₁, h⟩ := bind_eq_ok.1 h
  obtain ⟨rest, hL, rfl⟩ := listDetachFirst_cases h₁
  refine .inr ⟨next, rest, hL, ?_⟩
  dsimp only at h
  split at h
  · obtain ⟨s₂, h₂, h⟩ := bind_eq_ok.1 h
    cases h
    rcases listInsert_cases h₂ with rfl | rfl
    exacts [⟨rfl, rfl, .inl rfl⟩, ⟨rfl, rfl, .inr rfl⟩]
  · cases h
    exact ⟨rfl, rfl, .inl rfl⟩

/-- The loop makes the processes of the timers that fire ready. -/
theorem wakeTimers_wakes {X : List PcbRef} : ∀ {ts : List TimerItem} {prev : Option PcbRef}
    {s : State}, Table s X → s.timerList = ts → wakeTimers ts prev s = .ok s' →
      ∀ t ∈ ts, t ∉ s'.timerList → t.pcb ∈ s'.readyList
  | [], _, _, _, _, _, _, ht, _ => by cases ht
  | u :: ts, prev, s, h, hl, hw, t, ht, hn => by
    rcases wakeTimers_turn h hw with ⟨-, -, h1, -, hw'⟩ | ⟨-, rfl⟩
    · rcases List.mem_cons.1 ht with rfl | ht
      · have hm : t.pcb ∈ (woken s prev t).readyList :=
          (insertAfter_perm prev t.pcb s.readyList).mem_iff.2 List.mem_cons_self
        rcases (wakeTimers_table h1 (woken_timerList hl) hw').2 t.pcb with h2 | ⟨-, h2, -⟩
        · exact (h2.list .ready (by simp)).2 hm
        · exact h2
      · exact wakeTimers_wakes h1 (woken_timerList hl) hw' t ht hn
    · exact absurd (hl ▸ ht) hn

theorem schedule_wakes (h : Sane s) (hs : internalSchedule s = .ok s') (ht : t ∈ s.timerList)
    (hn : t ∉ s'.timerList) : Awake s' t.pcb := by
  obtain ⟨s₁, hw, hd⟩ := bind_eq_ok.1 hs
  rcases dispatch_cases hd with ⟨-, rfl⟩ | ⟨next, rest, hL, hrun, htl, hr⟩
  · exact .inl (wakeTimers_wakes h.table rfl hw t ht hn)
  · have hm := wakeTimers_wakes h.table rfl hw t ht (htl ▸ hn)
    rw [hL] at hm
    rcases List.mem_cons.1 hm with hm | hm
    · exact .inr (hrun.trans hm.symm)
    · refine .inl ?_
      rcases hr with hr | hr <;> simp [hr, hm]

/-! ## Steps and runs -/

theorem step_timers (h : Punctual s) (hs : step s e = .ok s') :
    Punctual s' ∧ s'.time = (clock s e).time ∧ TimersAfter s s'.timerList e := by
  cases e with
  | tick =>
    have h0 : Filed { s with time := s.time + 1 } := h.toFiled.congr rfl rfl
    obtain ⟨h1, h2, h3⟩ := schedule_timers h0 hs
    exact ⟨h1, h3, h2⟩
  | store addr bytes =>
    cases hs
    exact ⟨h.congr rfl rfl rfl, rfl, rfl⟩
  | syscall c =>
    have h0 : Punctual (saveCall s c) := h.congr rfl rfl rfl
    have hother : c.num ≠ dsosCallExit → (∀ n, c ≠ .sleep n) →
        Punctual s' ∧ s'.time = s.time ∧ s'.timerList = s.timerList := fun hne hns => by
      rcases syscall_effects hs with he | ⟨⟨n, hn⟩, -⟩
      · obtain ⟨h1, h2, h3⟩ := he.timers h0
        exact ⟨h1, h2, h3.resolve_right fun h => hne h.1⟩
      · exact absurd hn (hns n)
    cases c with
    | sleep n =>
      obtain ⟨h1, h2, h3⟩ := sleep_timers h0 ((step_syscall rfl).symm.trans hs)
      refine ⟨h1, h2, ?_⟩
      have hargs : ((saveCall s (.sleep n)).pcbs s.running).syscallArgs 0 = n :=
        saveCall_args s (.sleep n) 0
      have htimer : ((saveCall s (.sleep n)).pcbs s.running).timer =
          (s.pcbs s.running).timer := by simp [saveCall]
      simp only [saveCall_running, hargs, htimer] at h3
      exact h3
    | exit v =>
      rcases syscall_effects hs with he | ⟨⟨n, hn⟩, -⟩
      · obtain ⟨h1, h2, -⟩ := he.timers h0
        exact ⟨h1, h2, exit_timers (by simp [saveCall, Syscall.num])
          ((step_syscall rfl).symm.trans hs)⟩
      · cases hn
    | _ => exact hother (Nat.ne_of_beq_eq_false rfl) (by simp)

theorem boot_punctual : Punctual boot := by
  obtain ⟨pool, -, he⟩ := boot_eq
  have hl : boot.timerList = [] := by
    rw [he]
    rfl
  have hp : boot.timerPool = .init maxNumProcesses := by
    rw [he]
    rfl
  refine ⟨⟨?_, ?_, ?_⟩, by simp [hl]⟩
  · rw [hl]
    exact .nil
  · rw [hl, hp]
    exact Pool.owns_init _
  · rw [hp]
    rfl

theorem run_punctual (hr : run step boot es = .ok s) : Punctual s :=
  run_inv' (A := fun _ => True) (fun _ _ _ h _ hs => (step_timers h hs).1) boot_punctual
    (fun _ _ => trivial) hr

/-- A timer leaves the list when its time comes or its process exits. -/
theorem step_timer (h : Punctual s) (hsane : Sane s) (ht : t ∈ s.timerList)
    (hs : step s e = .ok s') : t ∈ s'.timerList ∨ Ends t s e s' := by
  obtain ⟨-, htime, hts⟩ := step_timers h hs
  have hkeep : s'.timerList = s.timerList → t ∈ s'.timerList := fun h => h ▸ ht
  cases e with
  | tick =>
    by_cases hm : t ∈ s'.timerList
    · exact .inl hm
    refine .inr (.inl ⟨rfl, ?_, schedule_wakes (hsane.clock .tick) hs ht hm⟩)
    have hf := h.future t ht
    have hts' : s'.timerList = s.timerList.filter (s.time + 1 < ·.awakeningTime) := hts
    have hle : ¬ s.time + 1 < t.awakeningTime := fun hlt =>
      hm (hts' ▸ List.mem_filter.2 ⟨ht, decide_eq_true hlt⟩)
    have : s'.time = s.time + 1 := htime
    omega
  | store => exact .inl (hkeep hts)
  | syscall c =>
    cases c with
    | sleep n =>
      simp only [TimersAfter] at hts
      split at hts
      · exact .inl (hkeep hts)
      · obtain ⟨b, -, hts⟩ := hts
        exact .inl (hts ▸ (timerInsert_perm _ _).mem_iff.2 (List.mem_cons_of_mem _ ht))
    | exit v =>
      rcases hts with ⟨-, hts⟩ | ⟨-, hts⟩
      · by_cases hp : t.pcb = s.running
        · exact .inr (.inr ⟨⟨v, rfl⟩, hp.symm⟩)
        · exact .inl (hts ▸ List.mem_filter.2 ⟨ht, decide_eq_true hp⟩)
      · exact .inl (hkeep hts)
    | _ => exact .inl (hkeep hts)

/-- Only the times that an event computes are stored. -/
theorem Representable.step (h : Representable s) (hp : Punctual s) (ht : Timely s e)
    (hs : step s e = .ok s') : Representable s' := by
  obtain ⟨-, htime, hts⟩ := step_timers hp hs
  have hkeep : s'.time = s.time → s'.timerList ⊆ s.timerList → Representable s' := fun h1 h2 =>
    ⟨h1 ▸ h.time, fun t hm => h.timers t (h2 hm)⟩
  cases e with
  | tick =>
    refine ⟨htime ▸ ht, fun t hm => h.timers t ?_⟩
    rw [show s'.timerList = _ from hts] at hm
    exact List.mem_of_mem_filter hm
  | store => exact hkeep htime (by rw [show s'.timerList = _ from hts]; exact List.Subset.refl _)
  | syscall c =>
    cases c with
    | sleep n =>
      simp only [TimersAfter] at hts
      split at hts
      · exact hkeep htime (by rw [hts]; exact List.Subset.refl _)
      · obtain ⟨b, -, hts⟩ := hts
        refine ⟨(show s'.time = s.time from htime) ▸ h.time, fun t hm => ?_⟩
        rw [hts, (timerInsert_perm _ _).mem_iff] at hm
        rcases List.mem_cons.1 hm with rfl | hm
        · exact ht
        · exact h.timers t hm
    | exit v =>
      refine hkeep htime ?_
      rcases hts with ⟨-, hts⟩ | ⟨-, hts⟩ <;> rw [hts]
      · exact List.filter_subset_self _
      · exact List.Subset.refl _
    | _ => exact hkeep htime (by rw [show s'.timerList = _ from hts]; exact List.Subset.refl _)

theorem run_representable (ht : Along step Timely boot es) (hr : run step boot es = .ok s) :
    Representable s := by
  have h0 : Representable boot := by
    obtain ⟨pool, -, he⟩ := boot_eq
    rw [he]
    exact ⟨by simp [booted, coldState, FitsInt], by simp [booted, coldState]⟩
  exact (run_inv (I := fun s => Punctual s ∧ Representable s) (A := fun _ => True)
    (fun _ _ _ h _ hc hs => ⟨(step_timers h.1 hs).1, h.2.step h.1 hc hs⟩)
    ⟨boot_punctual, h0⟩ (fun _ _ => trivial) ht hr).2

/-- **The timer list in any run** in which all times are of type `int`: at every return to user code
it is in order, its blocks are the outstanding ones, and nothing on it has elapsed; each event does
to it what it should, and a timer that is gone has fired at its time or belonged to the caller of
`exit`. -/
theorem timers_exact (ht : Along step Timely boot (es ++ [e])) (hr : run step boot es = .ok s)
    (hs : step s e = .ok s') :
    Punctual s ∧ Representable s' ∧ TimersAfter s s'.timerList e ∧
      ∀ t ∈ s.timerList, t ∈ s'.timerList ∨ Ends t s e s' :=
  ⟨run_punctual hr, run_representable ht ((run_snoc hr).trans hs),
    (step_timers (run_punctual hr) hs).2.2,
    fun _ ht => step_timer (run_punctual hr) (run_sane hr) ht hs⟩

/-- Two processes sleep until time 1, and a tick wakes both. -/
theorem timers_exact_tick : ∃ s s', run step boot drowsyRun = .ok s ∧ step s .tick = .ok s' ∧
    s.timerList.length = 2 ∧ s'.timerList = [] ∧ Punctual s ∧ Representable s' ∧
    TimersAfter s s'.timerList .tick ∧ ∀ t ∈ s.timerList, t ∈ s'.timerList ∨ Ends t s .tick s' := by
  have hc : (run step boot drowsyRun).toOption.any (fun s =>
      s.timerList.length = 2 ∧ (step s .tick).toOption.any (fun s' => s'.timerList = [])) =
      true := by
    decide +kernel
  obtain ⟨s, hr, hc⟩ := run_check hc
  obtain ⟨h2, hc⟩ := of_decide_eq_true hc
  obtain ⟨s', hs, hc⟩ := ok_of_any hc
  exact ⟨s, s', hr, hs, h2, of_decide_eq_true hc, timers_exact (by decide +kernel) hr hs⟩

/-- A timer fires at its time, and then its process is ready or runs, unless it has exited. -/
theorem timer_fires (hr : run step boot es = .ok s) (ht : t ∈ s.timerList)
    (hr' : run step s es' = .ok s₂) (hle : t.awakeningTime ≤ s₂.time) :
    ∃ es₁ e es₂ s₀ s₁, es' = es₁ ++ e :: es₂ ∧ run step s es₁ = .ok s₀ ∧ t ∈ s₀.timerList ∧
      step s₀ e = .ok s₁ ∧ Ends t s₀ e s₁ := by
  induction es' generalizing es s with
  | nil =>
    cases hr'
    have := (run_punctual hr).future t ht
    omega
  | cons e es' ih =>
    obtain ⟨s₁, h₁, hr'⟩ := run_cons_inv hr'
    rcases step_timer (run_punctual hr) (run_sane hr) ht h₁ with hm | hend
    · obtain ⟨es₁, e₁, es₂, s₀, s₃, rfl, h2, h3, h4, h5⟩ := ih ((run_snoc hr).trans h₁) hm hr'
      exact ⟨e :: es₁, e₁, es₂, s₀, s₃, rfl, (run_cons_ok h₁).trans h2, h3, h4, h5⟩
    · exact ⟨[], e, es', s, s₁, rfl, rfl, ht, h₁, hend⟩

end

end DisastrOS
