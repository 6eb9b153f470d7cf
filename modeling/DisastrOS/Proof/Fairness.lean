import DisastrOS.Proof.Timers

/-!
# Bounded waiting

The ready list is served in order, and only processes whose timers fire go ahead of the others. So
a ready process waits for those before it in the list and for as many timers as there are: `rank`
bounds the switches by ticks and preemptions until it runs (`ready_runs`), whatever is called in
between. A sleeping process is made ready in time, and then it runs (`sleeper_runs`). The runs are
those that reach a state, in which no step `Relinks`.
-/

namespace DisastrOS

open Lib State Relation

/-- How many switches it may take until the ready process `p` runs. -/
def rank (s : State) (p : PcbRef) : Nat := s.readyList.idxOf p + s.timerList.length

/-- Process `p` runs, or it is ready and `k` switches nearer to running. -/
def Nearer (p : PcbRef) (k : Nat) (s s' : State) : Prop :=
  s'.running = p ∨ p ∈ s'.readyList ∧ rank s' p + k ≤ rank s p

/-- Nobody stops waiting but by going to the end of the ready list, and no timer is set. -/
structure Passive (s s' : State) : Prop where
  running : s'.running = s.running
  timers : s'.timerList.length ≤ s.timerList.length
  ready : ∃ qs, s'.readyList = s.readyList ++ qs

/-- The calls in which the first ready process may run. -/
def Switches (n : Nat) : Prop := Reschedules n ∨ n = dsosCallWait ∨ n = dsosCallExit

instance : DecidablePred Switches := fun n =>
  inferInstanceAs (Decidable ((n = dsosCallPreempt ∨ n = dsosCallSleep ∨ n = dsosCallMqSend ∨
    n = dsosCallMqReceive) ∨ n = dsosCallWait ∨ n = dsosCallExit))

/-- Ticks and preemptions. -/
def Event.preempts : Event → Bool
  | .tick | .syscall .preempt => true
  | _ => false

def Event.isTick : Event → Bool
  | .tick => true
  | _ => false

section
variable {s s' s'' : State} {p r : PcbRef} {n k : Nat} {t : TimerItem} {ts : List TimerItem}
  {e : Event} {es es' : List Event} {L L' : PcbList} {ps : List PcbRef}

/-! ## Passive changes -/

namespace Passive

theorem refl (s : State) : Passive s s := ⟨rfl, le_rfl, [], (List.append_nil _).symm⟩

theorem trans (h : Passive s s') (h' : Passive s' s'') : Passive s s'' := by
  obtain ⟨qs, hq⟩ := h.ready
  obtain ⟨qs', hq'⟩ := h'.ready
  exact ⟨h'.running.trans h.running, h'.timers.trans h.timers, qs ++ qs', by
    rw [hq', hq, List.append_assoc]⟩

theorem same (hr : s'.running = s.running) (ht : s'.timerList = s.timerList)
    (hl : s'.readyList = s.readyList) : Passive s s' :=
  ⟨hr, ht ▸ le_rfl, [], by rw [hl, List.append_nil]⟩

theorem quiet (h : Quiet s s') : Passive s s' := same h.running h.timerList (h.list .ready)

theorem setStatus (s : State) (p : PcbRef) (st : ProcessStatus) : Passive s (s.setStatus p st) :=
  same rfl rfl rfl

theorem setList (hL : L ≠ .ready) : Passive s (s.setList L ps) := by
  cases L with
  | ready => exact absurd rfl hL
  | _ => exact same rfl rfl rfl

theorem listInsert (hL : L ≠ .ready) (h : s.listInsert L p ps = .ok s') : Passive s s' := by
  rcases listInsert_cases h with rfl | rfl
  exacts [refl _, setList hL]

theorem listInsertLast (h : s.listInsertLast .ready p = .ok s') : Passive s s' := by
  rcases listInsert_cases h with rfl | rfl
  exacts [refl _, ⟨rfl, le_rfl, [p], rfl⟩]

theorem listDetach (hL : L ≠ .ready) (h : s.listDetach L p = .ok s') : Passive s s' := by
  obtain ⟨-, rfl⟩ := listDetach_cases h
  exact setList hL

theorem wakes (hL : L ≠ .ready) (h : Wakes L s s') : Passive s s' := by
  obtain ⟨q, qs, s₁, -, hq, hi⟩ := h
  exact (setList hL).trans ((quiet hq).trans ((setStatus _ _ _).trans (listInsertLast hi)))

theorem serves (hL : L ≠ .ready) (h : Serves L s s') : Passive s s' := by
  obtain ⟨s₁, s₂, hq, rfl | hw, hq'⟩ := h
  · exact (quiet hq).trans (quiet hq')
  · exact (quiet hq).trans ((wakes hL hw).trans (quiet hq'))

end Passive

theorem AwaitedBy.ne_ready {q : QueueRef} (h : AwaitedBy n L q) : L ≠ .ready := by
  rcases h with ⟨rfl, -⟩ | ⟨rfl, -⟩ <;> simp

theorem ServedBy.ne_ready {q : QueueRef} (h : ServedBy n L q) : L ≠ .ready := by
  rcases h with ⟨rfl, -⟩ | ⟨rfl, -⟩ <;> simp

/-- The effects of the calls that do not switch. -/
theorem Effect.passive (h : Effect n r s s') (hn : ¬ Switches n) : Passive s s' := by
  cases h with
  | minor h => exact .same h.running h.timerList h.readyList
  | enqueue => exact ⟨rfl, le_rfl, [_], rfl⟩
  | wake h => exact absurd (.inl h) hn
  | yield h => exact absurd h hn
  | switch h => exact absurd (.inr (.inr h)) hn
  | purge h => exact absurd (.inr (.inr h)) hn
  | queueUp hL => exact .setList hL.ne_ready
  | giveUp hL => exact (Passive.setList hL.ne_ready).trans (.setStatus _ _ _)
  | serve hL => exact (Passive.setList hL.ne_ready).trans (.setStatus _ _ _)
  | _ => exact .same rfl rfl rfl

theorem Effects.passive (h : Effects n r s s') (hn : ¬ Switches n) : Passive s s' := by
  induction h with
  | refl => exact .refl s
  | tail _ he ih => exact ih.trans (he.passive hn)

/-! ## The scheduler -/

namespace Nearer

theorem before (h : Passive s s') (h' : Nearer p k s' s'') (hp : p ∈ s.readyList) :
    Nearer p k s s'' := by
  refine h'.imp_right fun ⟨hm, hle⟩ => ⟨hm, hle.trans ?_⟩
  obtain ⟨qs, hq⟩ := h.ready
  have := h.timers
  unfold rank
  rw [hq, List.idxOf_append_of_mem hp]
  omega

theorem after (h : Nearer p k s s') (h' : Passive s' s'') : Nearer p k s s'' := by
  rcases h with hr | ⟨hm, hle⟩
  · exact .inl (h'.running.trans hr)
  · obtain ⟨qs, hq⟩ := h'.ready
    have := h'.timers
    unfold rank at hle
    refine .inr ⟨hq ▸ List.mem_append_left _ hm, ?_⟩
    unfold rank
    rw [hq, List.idxOf_append_of_mem hm]
    omega

theorem passive (h : Passive s s') (hp : p ∈ s.readyList) : Nearer p 0 s s' :=
  after (.inr ⟨hp, le_rfl⟩) h

theorem le {j : Nat} (h : Nearer p k s s') (hj : j ≤ k) : Nearer p j s s' :=
  h.imp_right fun ⟨hm, hle⟩ => ⟨hm, (Nat.add_le_add_left hj _).trans hle⟩

end Nearer

/-- The process of a timer that fires goes ahead of `p`, and the timer is gone. -/
theorem wakeTimers_rank : ∀ (ts : List TimerItem) {prev : Option PcbRef} {s : State},
    s.timerList = ts → p ∈ s.readyList → wakeTimers ts prev s = .ok s' →
      p ∈ s'.readyList ∧ rank s' p ≤ rank s p
  | [], _, _, _, hp, h => by
    cases h
    exact ⟨hp, le_rfl⟩
  | t :: ts, prev, s, hl, hp, h => by
    rw [wakeTimers] at h
    split at h
    case isFalse =>
      cases h
      exact ⟨hp, le_rfl⟩
    obtain ⟨s₁, h₁, h⟩ := bind_eq_ok.1 h
    obtain ⟨s₂, h₂, h⟩ := bind_eq_ok.1 h
    have hd := Minor.listDetach (.inl rfl) h₁
    have hl₂ : s₂.timerList = t :: ts := ((listInsert_timerList h₂).trans hd.timerList).trans hl
    have hr₂ : p ∈ s₂.readyList ∧ s₂.readyList.idxOf p ≤ s.readyList.idxOf p + 1 := by
      have hp₁ : p ∈ s₁.readyList := hd.readyList ▸ hp
      rw [← hd.readyList]
      rcases listInsert_cases h₂ with rfl | rfl
      · exact ⟨hp₁, Nat.le_succ _⟩
      · exact ⟨(insertAfter_perm prev t.pcb _).mem_iff.2 (List.mem_cons_of_mem _ hp₁),
          idxOf_insertAfter_le prev t.pcb hp₁⟩
    rw [timerListRemoveCurrent_eq hl₂] at h
    generalize hs₃ : ({ s₂ with
      timerList := ts, timerPool := s₂.timerPool.release t.block } : State) = s₃ at h
    have hl₃ : s₃.timerList = ts := by rw [← hs₃]
    have hr₃ : s₃.readyList = s₂.readyList := by rw [← hs₃]
    obtain ⟨h3, h4⟩ := wakeTimers_rank ts hl₃ (hr₃ ▸ hr₂.1) h
    refine ⟨h3, h4.trans ?_⟩
    have h5 : s₂.readyList.idxOf p + ts.length ≤ s.readyList.idxOf p + (t :: ts).length := by
      have := hr₂.2
      simp only [List.length_cons]
      omega
    unfold rank
    rw [hl, hl₃, hr₃]
    exact h5

/-- The first ready process runs, and the others move up. -/
theorem nearer_of_pop (us : List PcbRef) {q : PcbRef} {qs : List PcbRef} (hp : p ∈ s.readyList)
    (hL : s.readyList = q :: qs) (hr : s'.running = q) (hl : s'.readyList = qs ++ us)
    (ht : s'.timerList = s.timerList) : Nearer p 1 s s' := by
  by_cases hq : q = p
  · exact .inl (hr.trans hq)
  · have hm : p ∈ qs := by
      rw [hL] at hp
      exact (List.mem_cons.1 hp).resolve_left (Ne.symm hq)
    refine .inr ⟨hl ▸ List.mem_append_left _ hm, ?_⟩
    unfold rank
    rw [hl, hL, ht, List.idxOf_append_of_mem hm, List.idxOf_cons_ne _ hq]
    omega

theorem dispatch_nearer (hp : p ∈ s.readyList) (h : dispatch s = .ok s') : Nearer p 1 s s' := by
  rcases dispatch_cases h with ⟨hnil, -⟩ | ⟨next, rest, hL, hr, ht, hl | hl⟩
  · exact absurd hnil (List.ne_nil_of_mem hp)
  · exact nearer_of_pop [] hp hL hr (hl.trans (List.append_nil _).symm) ht
  · exact nearer_of_pop _ hp hL hr hl ht

theorem Yields.nearer (h : Yields s s') (hp : p ∈ s.readyList) : Nearer p 1 s s' := by
  obtain ⟨q, qs, hL, rfl⟩ := h
  exact nearer_of_pop [] hp hL rfl (List.append_nil _).symm rfl

theorem schedule_nearer (hp : p ∈ s.readyList) (h : internalSchedule s = .ok s') :
    Nearer p 1 s s' := by
  obtain ⟨s₁, hw, hd⟩ := bind_eq_ok.1 h
  obtain ⟨h1, h2⟩ := wakeTimers_rank _ rfl hp hw
  exact (dispatch_nearer h1 hd).imp_right fun ⟨hm, hle⟩ => ⟨hm, hle.trans h2⟩

/-! ## Calls -/

/-- A call that waits at a queue. -/
theorem Blocks.nearer {q : QueueRef} (h : Blocks L L' s s') (hL : L.OfQueue q) (hL' : L'.OfQueue q)
    (hp : p ∈ s.readyList) : Nearer p 1 s s' := by
  have hne : ∀ {K : PcbList}, K.OfQueue q → K ≠ .ready := by
    rintro K (rfl | rfl) <;> simp
  obtain ⟨s₁, s₂, hi, hsch, hb⟩ := h
  have h₁ := (Passive.setStatus s s.running .waiting).trans (.listInsert (hne hL) hi)
  have hp₁ : p ∈ s₁.readyList := by
    obtain ⟨qs, hq⟩ := h₁.ready
    rw [hq]
    exact List.mem_append_left _ hp
  have h₂ := (schedule_nearer hp₁ hsch).before h₁ hp
  rcases hb with ⟨-, rfl⟩ | ⟨-, -, s₃, hd, hq⟩ | ⟨-, -, hv⟩
  · exact h₂
  · exact h₂.after ((Passive.listDetach (hne hL) hd).trans ((Passive.setStatus _ _ _).trans
      (.quiet hq)))
  · exact h₂.after (.serves (hne hL') hv)

theorem mqSend_nearer (h : internalMqSend s = .ok s') (hp : p ∈ s.readyList) :
    Nearer p 0 s s' := by
  rcases mqSend_cases h with hq | ⟨q, -, hv | hb⟩
  · exact .passive (.quiet hq) hp
  · exact .passive (.serves (by simp) hv) hp
  · exact (hb.nearer (q := q) (.inr rfl) (.inl rfl) hp).le (Nat.zero_le 1)

theorem mqReceive_nearer (h : internalMqReceive s = .ok s') (hp : p ∈ s.readyList) :
    Nearer p 0 s s' := by
  rcases mqReceive_cases h with hq | ⟨q, -, hv | hb⟩
  · exact .passive (.quiet hq) hp
  · exact .passive (.serves (by simp) hv) hp
  · exact (hb.nearer (q := q) (.inl rfl) (.inr rfl) hp).le (Nat.zero_le 1)

theorem wait_nearer (h : internalWait s = .ok s') (hp : p ∈ s.readyList) : Nearer p 0 s s' := by
  rcases wait_cases h with hq | ⟨z, s₁, s₂, s₃, -, hq, hd, hq', rfl⟩ | ⟨s₁, hi, hy⟩
  · exact .passive (.quiet hq) hp
  · have h₂ := (Passive.quiet hq).trans ((Passive.listDetach (by simp) hd).trans (.quiet hq'))
    exact .passive (h₂.trans (.same rfl rfl rfl)) hp
  · have h₁ := (Passive.setStatus s s.running .waiting).trans (.listInsert (by simp) hi)
    have hp₁ : p ∈ s₁.readyList := by
      rw [listInsert_readyList hi (by simp)]
      exact hp
    exact ((hy.nearer hp₁).before h₁ hp).le (Nat.zero_le 1)

theorem exit_nearer (h : internalExit s = .ok s') (hp : p ∈ s.readyList) : Nearer p 0 s s' := by
  obtain ⟨s₁, s₂, s₃, parent, hq, hi, -, hq', hor⟩ := exit_cases h
  have h₃ := (Passive.quiet hq).trans ((Passive.setStatus s₁ s.running .zombie).trans
    ((Passive.listInsert (by simp) hi).trans (.quiet hq')))
  rcases hor with ⟨-, he⟩ | ⟨-, hy⟩
  · -- the parent runs instead, and the ready list is as it was
    obtain ⟨s₄, s₅, s₆, s₇, hd, hq₅, hrel, hz, rfl⟩ := exitToParent_cases he
    have hpurge : Passive s₅ (purgeTimers s₅ s.running) :=
      ⟨rfl, List.length_filter_le _ _, [], (List.append_nil _).symm⟩
    have hrel' : Passive (purgeTimers s₅ s.running) s₆ :=
      have hm := Minor.releaseDescriptors hrel
      .same hm.running hm.timerList hm.readyList
    have h₇ := h₃.trans ((Passive.listDetach (by simp) hd).trans ((Passive.setStatus _ _ _).trans
      ((Passive.quiet hq₅).trans (hpurge.trans (hrel'.trans (.listDetach (by simp) hz))))))
    obtain ⟨qs, hl⟩ := h₇.ready
    have hready : ((pcbFree s₇ s.running).setRunning parent).readyList = s.readyList ++ qs := hl
    refine .inr ⟨hready ▸ List.mem_append_left _ hp, ?_⟩
    unfold rank
    rw [hready, List.idxOf_append_of_mem hp]
    exact Nat.add_le_add_left h₇.timers _
  · have hp₃ : p ∈ s₃.readyList := by
      obtain ⟨qs, hl⟩ := h₃.ready
      rw [hl]
      exact List.mem_append_left _ hp
    exact ((hy.nearer hp₃).before h₃ hp).le (Nat.zero_le 1)

/-- The timer that `sleep` sets is made up for by its switch. -/
theorem sleep_nearer (h : internalSleep s = .ok s') (hp : p ∈ s.readyList) : Nearer p 0 s s' := by
  rcases sleep_effects h with ⟨-, hm⟩ | ⟨-, b, pool, s₁, -, hm, hsch⟩
  · exact .passive (.same hm.running hm.timerList hm.readyList) hp
  · have hl : s₁.readyList = s.readyList := hm.readyList
    have ht : s₁.timerList.length = s.timerList.length + 1 := by
      rw [hm.timerList]
      exact (timerInsert_perm _ _).length_eq
    refine (schedule_nearer (hl ▸ hp) hsch).imp_right fun ⟨h1, h2⟩ => ⟨h1, ?_⟩
    have hrank : rank s₁ p = rank s p + 1 := by
      unfold rank
      rw [hl, ht]
      rfl
    omega

/-- **One step** leaves `p` where it is in the ready list or brings it nearer to running; a tick and
a preemption bring it nearer. -/
theorem step_nearer (hp : p ∈ s.readyList) (hs : step s e = .ok s') :
    Nearer p (if e.preempts then 1 else 0) s s' := by
  cases e with
  | tick => exact schedule_nearer (s := { s with time := s.time + 1 }) hp hs
  | store addr bytes =>
    cases hs
    exact .passive (.same rfl rfl rfl) hp
  | syscall c =>
    have h0 : Passive s (saveCall s c) := .same rfl rfl rfl
    have hp₀ : p ∈ (saveCall s c).readyList := hp
    have hother : ¬ Switches c.num → Nearer p 0 s s' := fun hn => by
      rcases syscall_effects hs with he | ⟨⟨n, rfl⟩, -⟩
      · exact .passive (h0.trans (he.passive hn)) hp
      · exact absurd (.inl (.inr (.inl rfl))) hn
    cases c with
    | preempt => exact (schedule_nearer hp₀ ((step_syscall rfl).symm.trans hs)).before h0 hp
    | wait => exact (wait_nearer ((step_syscall rfl).symm.trans hs) hp₀).before h0 hp
    | exit => exact (exit_nearer ((step_syscall rfl).symm.trans hs) hp₀).before h0 hp
    | sleep => exact (sleep_nearer ((step_syscall rfl).symm.trans hs) hp₀).before h0 hp
    | mqSend => exact (mqSend_nearer ((step_syscall rfl).symm.trans hs) hp₀).before h0 hp
    | mqReceive => exact (mqReceive_nearer ((step_syscall rfl).symm.trans hs) hp₀).before h0 hp
    | _ => exact hother (by simp only [Syscall.num]; decide)

/-! ## Runs -/

/-- The pool of PCBs has its size in any run. -/
theorem run_pcbPool (hr : run step boot es = .ok s) : s.pcbPool.sizeMax = maxNumProcesses := by
  have hI : ∀ {n r} {s s' : State}, Effect n r s s' → s.pcbPool.sizeMax = maxNumProcesses →
      s'.pcbPool.sizeMax = maxNumProcesses := fun he h => by
    cases he with
    | minor hm => exact hm.pcbPool ▸ h
    | birth _ _ hg => exact (Pool.get_eq hg).2.trans h
    | free => exact Pool.release_sizeMax.trans h
    | enqueue | queueUp | yield | giveUp | serve | wake => simpa using h
    | _ => exact h
  refine run_inv' (I := fun s => s.pcbPool.sizeMax = maxNumProcesses) (A := fun _ => True)
    (fun _ _ _ h _ hs => step_effects hI (fun _ h => h) (fun _ _ => h) (fun _ => h)
      (fun _ _ _ => h) hs) ?_ (fun _ _ => trivial) hr
  obtain ⟨pool, hg, he⟩ := boot_eq
  rw [he]
  exact (Pool.get_eq hg).2

theorem rank_lt (hr : run step boot es = .ok s) (hp : p ∈ s.readyList) :
    rank s p < 2 * maxNumProcesses := by
  have h := run_sane hr
  have hready : s.readyList.length ≤ maxNumProcesses := by
    rw [← List.length_range (n := maxNumProcesses)]
    refine (List.subperm_of_subset (h.table.nodup .ready) fun q hq => ?_).length_le
    have ha : s.pcbPool.Used q := h.table.alloc (L := .ready) hq
    exact List.mem_range.2 (run_pcbPool hr ▸ ha.1)
  have htimers := (run_punctual hr).owns.length
  rw [List.length_map, (run_punctual hr).size] at htimers
  have := List.idxOf_lt_length_iff.2 hp
  unfold rank
  omega

theorem runs_of_ready (hp : p ∈ s.readyList) (hr : run step s es = .ok s')
    (hn : rank s p < es.countP Event.preempts) :
    ∃ es₁ es₂ s₁, es = es₁ ++ es₂ ∧ run step s es₁ = .ok s₁ ∧ s₁.running = p :=
  reaches_of_count (W := fun s => p ∈ s.readyList) (μ := fun s => rank s p)
    (fun _ _ _ hp hs => step_nearer hp hs) hp hr hn

/-- **A ready process runs** after at most `rank` switches more, whatever is called, and these are
fewer than twice as many as there can be processes. -/
theorem ready_runs (hr : run step boot es = .ok s) (hp : p ∈ s.readyList) :
    rank s p < 2 * maxNumProcesses ∧ ∀ es' s', run step s es' = .ok s' →
      rank s p < es'.countP Event.preempts →
      ∃ es₁ es₂ s₁, es' = es₁ ++ es₂ ∧ run step s es₁ = .ok s₁ ∧ s₁.running = p :=
  ⟨rank_lt hr hp, fun _ _ hr' hn => runs_of_ready hp hr' hn⟩

/-- The second child waits for the first one, and nothing else can delay it. -/
theorem ready_runs_spawned : ∃ s s', run step boot [.syscall (.spawn 0 0), .syscall (.spawn 0 0)] =
      .ok s ∧ rank s 2 = 1 ∧ run step s [.tick, .syscall (.mqCreate 1 1), .tick] = .ok s' ∧
    ∃ es₁ es₂ s₁, [.tick, .syscall (.mqCreate 1 1), .tick] = es₁ ++ es₂ ∧
      run step s es₁ = .ok s₁ ∧ s₁.running = 2 := by
  have hc : (run step boot [.syscall (.spawn 0 0), .syscall (.spawn 0 0)]).toOption.any (fun s =>
      2 ∈ s.readyList ∧ rank s 2 = 1 ∧
        (run step s [.tick, .syscall (.mqCreate 1 1), .tick]).toOption.any (fun _ => true)) =
      true := by decide +kernel
  obtain ⟨s, hr, hc⟩ := run_check hc
  obtain ⟨hp, hrank, hc⟩ := of_decide_eq_true hc
  obtain ⟨s', hr', -⟩ := run_check hc
  exact ⟨s, s', hr, hrank, hr', (ready_runs hr hp).2 _ _ hr' (by rw [hrank]; decide)⟩

theorem run_time (h : Sane s) (hr : run step s es = .ok s') :
    s'.time = s.time + es.countP Event.isTick := by
  induction es generalizing s with
  | nil =>
    cases hr
    simp
  | cons e es ih =>
    obtain ⟨s₁, h₁, hr⟩ := run_cons_inv hr
    have hst := step_steps h h₁
    rw [ih hst.sane hr, hst.time, List.countP_cons]
    cases e <;> simp [clock, Event.isTick]
    omega

theorem countP_isTick_le : es.countP Event.isTick ≤ es.countP Event.preempts :=
  List.countP_mono_left fun e _ he => by
    cases e with
    | tick => rfl
    | _ => cases he

/-- **A sleeping process runs** once its time has come and as many ticks have passed as a ready
process may have to wait for. -/
theorem sleeper_runs (hr : run step boot es = .ok s) (ht : t ∈ s.timerList)
    (hr' : run step s es' = .ok s')
    (hn : t.awakeningTime + 2 * maxNumProcesses ≤ s.time + es'.countP Event.isTick) :
    ∃ es₁ es₂ s₁, es' = es₁ ++ es₂ ∧ run step s es₁ = .ok s₁ ∧ s₁.running = t.pcb := by
  have htime := run_time (run_sane hr) hr'
  obtain ⟨es₁, e, es₂, s₀, s₁, rfl, h₀, -, h₁, hend⟩ := timer_fires hr ht hr' (by omega)
  rcases hend with ⟨rfl, haw, hm | hrun⟩ | ⟨-, hrun⟩
  · -- it has been made ready, and is served within the ticks that are left
    have hr₁ : run step s (es₁ ++ [.tick]) = .ok s₁ := (run_snoc h₀).trans h₁
    have ht₁ := run_time (run_sane hr) hr₁
    have hr₂ : run step s₁ es₂ = .ok s' := by
      rw [← run_append hr₁, List.append_assoc]
      exact hr'
    have hlt := rank_lt ((run_append hr).trans hr₁) hm
    have hle : es₂.countP Event.isTick ≤ es₂.countP Event.preempts := countP_isTick_le
    have hall : (es₁ ++ Event.tick :: es₂).countP Event.isTick =
        es₁.countP Event.isTick + (es₂.countP Event.isTick + 1) := by
      rw [List.countP_append, List.countP_cons]
      rfl
    have hhead : (es₁ ++ [Event.tick]).countP Event.isTick = es₁.countP Event.isTick + 1 :=
      List.countP_append
    rw [hall] at hn
    rw [hhead] at ht₁
    obtain ⟨es₃, es₄, s₂, rfl, h₃, hrun⟩ := runs_of_ready hm hr₂ (by omega)
    exact ⟨es₁ ++ .tick :: es₃, es₄, s₂, by simp, by
      rw [← h₃, ← run_append hr₁, List.append_assoc]
      rfl, hrun⟩
  · exact ⟨es₁ ++ [.tick], es₂, s₁, by simp, (run_snoc h₀).trans h₁, hrun⟩
  · exact ⟨es₁, e :: es₂, s₀, rfl, h₀, hrun⟩

theorem ticks_run (h : Inv s) (n : Nat) :
    ∃ s', run step s (List.replicate n .tick) = .ok s' := by
  induction n generalizing s with
  | zero => exact ⟨s, rfl⟩
  | succ n ih =>
    obtain ⟨s₁, h₁, h2, -⟩ := tick_spec h
    obtain ⟨s', hr⟩ := ih h2
    exact ⟨s', by rw [List.replicate_succ, run_cons_ok h₁, hr]⟩

/-- Both processes that sleep until time 1 run, the clock ticking. -/
theorem sleeper_runs_drowsy : ∃ s t s', run step boot drowsyRun = .ok s ∧ t ∈ s.timerList ∧
    run step s (List.replicate 2049 .tick) = .ok s' ∧
    ∃ es₁ es₂ s₁, List.replicate 2049 .tick = es₁ ++ es₂ ∧ run step s es₁ = .ok s₁ ∧
      s₁.running = t.pcb := by
  have hc : (run step boot drowsyRun).toOption.any (fun s =>
      (⟨1, 1, 1⟩ : TimerItem) ∈ s.timerList ∧ s.time = 0) = true := by decide +kernel
  obtain ⟨s, hr, hc⟩ := run_check hc
  obtain ⟨ht, h0⟩ := of_decide_eq_true hc
  have hn : Along step (fun s e => ¬ Stalls s e) boot drowsyRun := by decide +kernel
  have hA : ∀ e ∈ drowsyRun, e.IsProcessOrMq := by decide
  obtain ⟨s', hr'⟩ := ticks_run (run_unstalled hA hn hr) 2049
  refine ⟨s, ⟨1, 1, 1⟩, s', hr, ht, hr', sleeper_runs hr ht hr' ?_⟩
  rw [h0, List.countP_replicate]
  decide

end

end DisastrOS
