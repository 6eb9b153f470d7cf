import DisastrOS.Proof.Partition
import DisastrOS.Lib.Agenda

/-!
# What the scheduler does

The timer list is an agenda (`timers_stamped`), so that the timers that have elapsed come first. The
scheduler makes their processes ready, ahead of all others and in the order of the agenda
(`awakened`), and then switches to the first ready process (`dispatched`): `schedule_eq`, in any
state whose lists are disjoint.
-/

namespace DisastrOS

open Lib State

/-! ## The timer list -/

inductive TimerCall
  | add (awakeningTime : Int) (p : PcbRef)
  | removeCurrent

/-- `TimerList_add` and `TimerList_removeCurrent`. -/
def timerCall (s : State) : TimerCall → Except Halt State
  | .add awakeningTime p =>
    match timerListAdd s awakeningTime p with
    | none => .ok s
    | some (_, s') => .ok s'
  | .removeCurrent =>
    match s.timerList with
    | [] => .error .nullDeref
    | t :: _ => .ok (timerListRemoveCurrent s t)

/-- The call adds the timer `t`. -/
def TimerCall.Adds : TimerCall → TimerItem → Prop
  | .add awakeningTime p, t => t.awakeningTime = awakeningTime ∧ t.pcb = p
  | .removeCurrent, _ => False

/-- The timers of the stamped agenda `st` of the calls, whose blocks are those in use. -/
structure Timers (calls : List TimerCall) (st : List (Nat × TimerItem)) (s : State) : Prop where
  stamped : Stamped TimerItem.awakeningTime TimerCall.Adds calls st
  list : st.map Prod.snd = s.timerList
  owns : s.timerPool.Owns (s.timerList.map TimerItem.block)

/-! ## The lists -/

/-- Nobody is on two lists, or twice on one, a running process is on none, and each timer is that of
one process, on the waiting list. -/
structure WellFormed (s : State) : Prop where
  nodup : ∀ L, (s.list L).Nodup
  disj : ∀ {L L' p}, p ∈ s.list L → p ∈ s.list L' → L = L'
  running : (s.pcbs s.running).status = .running → ∀ L, s.running ∉ s.list L
  timers : (s.timerList.map TimerItem.pcb).Nodup
  waiting : ∀ t ∈ s.timerList, t.pcb ∈ s.waitingList

/-! ## The scheduler -/

/-- The timers that have elapsed. -/
def elapsed (s : State) : List TimerItem := s.timerList.filter (·.awakeningTime ≤ s.time)

/-- The processes of the elapsed timers are made ready, and their timers cleared and freed. -/
def awakened (s : State) : State :=
  { s with
    readyList := (elapsed s).map TimerItem.pcb ++ s.readyList
    waitingList := s.waitingList.filter (· ∉ (elapsed s).map TimerItem.pcb)
    timerList := s.timerList.filter (s.time < ·.awakeningTime)
    timerPool := (elapsed s).foldl (fun a t => a.release t.block) s.timerPool
    pcbs := fun p =>
      if p ∈ (elapsed s).map TimerItem.pcb then { s.pcbs p with status := .ready, timer := none }
      else s.pcbs p }

/-- The first ready process runs, and the one that was running goes to the end of the list. -/
def dispatched (s : State) : State :=
  match s.readyList with
  | [] => s
  | next :: rest => switched s next rest

section
variable {s s' s₀ s₁ : State} {calls past : List TimerCall} {st : List (Nat × TimerItem)} {n : Nat}
  {t : TimerItem} {ts : List TimerItem} {prev : Option PcbRef} {p q : PcbRef} {L : PcbList}
  {done old : List PcbRef}

/-! ## Calls on the timer list -/

theorem timerInsert_eq (t : TimerItem) (ts : List TimerItem) :
    timerInsert t ts = insertByKey TimerItem.awakeningTime t ts := by
  induction ts with
  | nil => rfl
  | cons x xs ih => rw [timerInsert, insertByKey, ih]

theorem Timers.call {c : TimerCall} (h : Timers past st s) (hs : timerCall s c = .ok s') :
    ∃ st', Timers (past ++ [c]) st' s' := by
  cases c with
  | add awakeningTime p =>
    simp only [timerCall, timerListAdd] at hs
    cases hg : s.timerPool.get with
    | none =>
      rw [hg] at hs
      cases hs
      exact ⟨st, h.stamped.drop (.refl st) _, h.list, h.owns⟩
    | some x =>
      obtain ⟨b, pool⟩ := x
      rw [hg] at hs
      cases hs
      have hA : (TimerCall.add awakeningTime p).Adds ⟨b, awakeningTime, p⟩ := ⟨rfl, rfl⟩
      refine ⟨_, h.stamped.add hA, ?_, ?_⟩
      · rw [map_insertByKey, h.list, ← timerInsert_eq]
        rfl
      · show pool.Owns ((timerInsert ⟨b, awakeningTime, p⟩ s.timerList).map TimerItem.block)
        have hperm : ((timerInsert ⟨b, awakeningTime, p⟩ s.timerList).map TimerItem.block).Perm
            (b :: s.timerList.map TimerItem.block) := by
          rw [timerInsert_eq]
          exact (insertByKey_perm _ _ _).map TimerItem.block
        exact (h.owns.get hg).perm hperm.symm
  | removeCurrent =>
    simp only [timerCall] at hs
    cases hl : s.timerList with
    | nil =>
      rw [hl] at hs
      cases hs
    | cons t ts =>
      rw [hl] at hs
      cases hs
      have hlist := h.list
      have howns := h.owns
      rw [hl] at hlist howns
      obtain ⟨y, ys, rfl, rfl, hys⟩ := List.map_eq_cons_iff.1 hlist
      refine ⟨ys, h.stamped.drop (List.sublist_cons_self y ys) _, ?_, ?_⟩
      · show _ = s.timerList.tail
        rw [hl, hys, List.tail_cons]
      · show (s.timerPool.release _).Owns (s.timerList.tail.map TimerItem.block)
        rw [hl]
        have h1 := howns.release List.mem_cons_self
        rwa [List.map_cons, List.erase_cons_head] at h1

/-- The list built by any calls is an agenda. -/
theorem timers_stamped (h0 : s₀.timerList = []) (hp : s₀.timerPool = .init n)
    (hr : run timerCall s₀ calls = .ok s) : ∃ st, Timers calls st s := by
  suffices key : ∀ (cs past : List TimerCall) (st : List (Nat × TimerItem)) (s₀ : State),
      Timers past st s₀ → run timerCall s₀ cs = .ok s → ∃ st', Timers (past ++ cs) st' s by
    refine key calls [] [] s₀ ⟨.nil, h0.symm, ?_⟩ hr
    rw [h0, hp]
    exact Pool.owns_init n
  intro cs
  induction cs with
  | nil =>
    intro past st s₀ h hr
    cases hr
    exact ⟨st, by rwa [List.append_nil]⟩
  | cons c cs ih =>
    intro past st s₀ h hr
    obtain ⟨s₁, h₁, hr⟩ := run_cons_inv hr
    obtain ⟨st₁, h2⟩ := h.call h₁
    obtain ⟨st', h3⟩ := ih _ _ _ h2 hr
    exact ⟨st', by simpa using h3⟩

/-! ## The wake-up loop -/

namespace WellFormed

theorem not_mem (h : WellFormed s) (ht : t ∈ s.timerList) (hL : t.pcb ∈ s.list L) :
    L = .waiting :=
  h.disj hL (h.waiting t ht)

theorem mem_woken (h : WellFormed s) (ht : t ∈ s.timerList) : q ∈ (woken s prev t).list L ↔
    q = t.pcb ∧ L = .ready ∨ q ≠ t.pcb ∧ q ∈ s.list L := by
  have hw := h.waiting t ht
  cases L with
  | ready =>
    show q ∈ insertAfter prev t.pcb s.readyList ↔ _
    rw [(insertAfter_perm prev t.pcb s.readyList).mem_iff, List.mem_cons]
    by_cases hq : q = t.pcb
    · simp [hq]
    · simp [hq, State.list]
  | waiting =>
    show q ∈ s.waitingList.erase t.pcb ↔ _
    have hn : s.waitingList.Nodup := h.nodup .waiting
    rw [hn.mem_erase_iff]
    simp [State.list]
  | zombie =>
    have : q ∈ s.zombieList → q ≠ t.pcb := by
      rintro hq rfl
      cases h.not_mem (L := .zombie) ht hq
    show q ∈ s.zombieList ↔ _
    simpa [State.list] using this
  | receivers i =>
    have : q ∈ (s.queues i).waitingReceivers → q ≠ t.pcb := by
      rintro hq rfl
      cases h.not_mem (L := .receivers i) ht hq
    show q ∈ (s.queues i).waitingReceivers ↔ _
    simpa [State.list] using this
  | senders i =>
    have : q ∈ (s.queues i).waitingSenders → q ≠ t.pcb := by
      rintro hq rfl
      cases h.not_mem (L := .senders i) ht hq
    show q ∈ (s.queues i).waitingSenders ↔ _
    simpa [State.list] using this

/-- One turn of the loop leaves the lists disjoint. -/
theorem woken (h : WellFormed s) (hl : s.timerList = t :: ts) (prev : Option PcbRef) :
    WellFormed (woken s prev t) := by
  have ht : t ∈ s.timerList := hl ▸ List.mem_cons_self
  have hn := h.timers
  rw [hl, List.map_cons, List.nodup_cons] at hn
  refine ⟨fun L => ?_, fun {L L' q} hq hq' => ?_, fun hst L hm => ?_, ?_, fun u hu => ?_⟩
  · have hr : t.pcb ∉ s.readyList := fun hm => by cases h.not_mem (L := .ready) ht hm
    cases L with
    | ready =>
      exact (insertAfter_perm prev _ _).nodup_iff.2 (List.nodup_cons.2 ⟨hr, h.nodup .ready⟩)
    | waiting => exact (h.nodup .waiting).erase _
    | zombie => exact h.nodup .zombie
    | receivers i => exact h.nodup (.receivers i)
    | senders i => exact h.nodup (.senders i)
  · rcases (h.mem_woken ht).1 hq with ⟨h1, h2⟩ | ⟨h1, h2⟩ <;>
      rcases (h.mem_woken ht).1 hq' with ⟨h3, h4⟩ | ⟨h3, h4⟩
    · rw [h2, h4]
    · exact absurd h1 h3
    · exact absurd h3 h1
    · exact h.disj h2 h4
  · have hrun : (DisastrOS.woken s prev t).running = s.running := rfl
    rw [hrun] at hst hm
    by_cases hq : s.running = t.pcb
    · simp [DisastrOS.woken, timerListRemoveCurrent, hq] at hst
    · rw [woken_pcbs hq] at hst
      rcases (h.mem_woken ht).1 hm with ⟨h1, -⟩ | ⟨-, h2⟩
      · exact hq h1
      · exact h.running hst L h2
  · rw [woken_timerList hl]
    exact hn.2
  · rw [woken_timerList hl] at hu
    have hne : u.pcb ≠ t.pcb := fun he => hn.1 (he ▸ List.mem_map_of_mem hu)
    have hw := h.waiting u (hl ▸ List.mem_cons_of_mem _ hu)
    exact (h.mem_woken (L := .waiting) ht).2 (.inr ⟨hne, hw⟩)

end WellFormed

/-- The state at the end of the loop: `done` have been made ready, ahead of `old`. -/
def served (done old : List PcbRef) (s : State) : State :=
  { awakened s with readyList := done ++ (elapsed s).map TimerItem.pcb ++ old }

theorem served_nil : served [] s.readyList s = awakened s := rfl

theorem served_none (he : elapsed s = []) (hr : s.readyList = done ++ old) :
    served done old s = s := by
  have ht : s.timerList.filter (s.time < ·.awakeningTime) = s.timerList := by
    rw [List.filter_eq_self]
    intro t ht
    have := List.filter_eq_nil_iff.1 he t ht
    simpa using this
  simp [served, awakened, he, ht, ← hr]

theorem awakened_none (he : elapsed s = []) : awakened s = s := by
  have hr : s.readyList = [] ++ s.readyList := rfl
  exact served_none he hr

/-- One turn of the loop, seen from its end. -/
theorem served_woken (h : WellFormed s) (hl : s.timerList = t :: ts)
    (ht : t.awakeningTime ≤ s.time) (prev : Option PcbRef) :
    served (done ++ [t.pcb]) old (woken s prev t) = served done old s := by
  have he : elapsed s = t :: elapsed (woken s prev t) := by
    show s.timerList.filter _ = t :: (woken s prev t).timerList.filter _
    rw [woken_timerList hl, hl, List.filter_cons_of_pos (by simpa using ht)]
    rfl
  have hlt : s.timerList.filter (s.time < ·.awakeningTime) =
      (woken s prev t).timerList.filter (s.time < ·.awakeningTime) := by
    rw [woken_timerList hl, hl, List.filter_cons_of_neg (by simpa using ht)]
  have hw : (s.waitingList.erase t.pcb).filter
        (· ∉ (elapsed (woken s prev t)).map TimerItem.pcb) =
      s.waitingList.filter (· ∉ (elapsed s).map TimerItem.pcb) := by
    have hn : s.waitingList.Nodup := h.nodup .waiting
    rw [hn.erase_eq_filter, List.filter_filter, he]
    congr 1
    funext q
    by_cases hq : q = t.pcb <;> simp [hq]
  have hp : ∀ q, (served (done ++ [t.pcb]) old (woken s prev t)).pcbs q =
      (served done old s).pcbs q := by
    intro q
    simp only [served, awakened, he, List.map_cons, List.mem_cons]
    by_cases hq : q = t.pcb
    · subst hq
      simp [woken, timerListRemoveCurrent]
    · rw [woken_pcbs hq]
      simp [hq]
  simp only [served, awakened, State.mk.injEq]
  refine ⟨rfl, rfl, rfl, ?_, hw, rfl, hlt.symm, rfl, rfl, funext hp, rfl, rfl, rfl, rfl, ?_, rfl,
    rfl, rfl, rfl, rfl, rfl, rfl, rfl⟩
  · rw [he]
    simp
  · rw [he]
    rfl

/-- The loop over a sorted list serves its head segment. -/
theorem wakeTimers_eq (ts : List TimerItem) (h : WellFormed s) (hl : s.timerList = ts)
    (hs : ts.Pairwise fun t u => t.awakeningTime ≤ u.awakeningTime)
    (hr : s.readyList = done ++ old) : wakeTimers ts done.getLast? s = .ok (served done old s) ∧
      WellFormed (served done old s) := by
  induction ts generalizing s done with
  | nil =>
    rw [served_none (by simp [elapsed, hl]) hr]
    exact ⟨rfl, h⟩
  | cons t ts ih =>
    obtain ⟨ht, hts⟩ := List.pairwise_cons.1 hs
    rw [wakeTimers]
    split
    · rename_i hle
      have hmem : t ∈ s.timerList := hl ▸ List.mem_cons_self
      have hready : t.pcb ∉ s.readyList := fun hm => by cases h.not_mem (L := .ready) hmem hm
      have hn : s.readyList.Nodup := h.nodup .ready
      rw [hr] at hn
      have hins : (woken s done.getLast? t).readyList = done ++ [t.pcb] ++ old := by
        rw [woken_readyList, hr, insertAfter_getLast (List.nodup_append.1 hn).1]
        simp
      have key := ih (h.woken hl done.getLast?) (woken_timerList hl) hts hins
      rw [served_woken h hl hle, List.getLast?_append_of_ne_nil _ (by simp)] at key
      rw [Placed.detach_eq (L := .waiting) (h.waiting t hmem)]
      simp only [ok_bind, State.listInsertAfter]
      rw [listInsert_of_unlisted, ok_bind]
      · exact key
      · intro L hm
        have hm' : t.pcb ∈ s.list L := by
          cases L with
          | waiting => exact List.mem_of_mem_erase hm
          | _ => exact hm
        cases h.not_mem hmem hm'
        have hn : s.waitingList.Nodup := h.nodup .waiting
        exact hn.not_mem_erase hm
    · rename_i hlt
      rw [served_none _ hr]
      · exact ⟨rfl, h⟩
      · rw [elapsed, hl, List.filter_eq_nil_iff]
        intro u hu
        rcases List.mem_cons.1 hu with rfl | hu
        · simpa using hlt
        · have := ht u hu
          simp
          omega

/-! ## The switch -/

theorem dispatch_eq (h : WellFormed s) : dispatch s = .ok (dispatched s) := by
  unfold dispatch dispatched
  cases hr : s.readyList with
  | nil => rfl
  | cons next rest =>
    have h1 : s.listDetachFirst .ready = .ok (next, s.setList .ready rest) := by
      simp [State.listDetachFirst, State.list, hr]
    simp only [h1, ok_bind, reduceCtorEq, if_false, setList_pcbs, setList_running, switched]
    split
    · rename_i hst
      rw [State.listInsertLast, listInsert_of_unlisted]
      · rfl
      · intro L hm
        have hm' : s.running ∈ s.list L := by
          cases L with
          | ready =>
            show s.running ∈ s.readyList
            rw [hr]
            exact List.mem_cons_of_mem _ hm
          | _ => exact hm
        exact h.running hst L hm'
    · rfl

theorem WellFormed.running_awakened (h : WellFormed s)
    (hst : (s.pcbs s.running).status = .running) :
    (awakened s).pcbs s.running = s.pcbs s.running := by
  show (if _ then _ else _) = _
  rw [if_neg]
  intro hm
  obtain ⟨t, ht, he⟩ := List.mem_map.1 hm
  have hw := h.waiting t (List.mem_of_mem_filter ht)
  rw [he] at hw
  exact h.running hst .waiting hw

/-- The loop leaves a process running exactly if it was. -/
theorem running_awakened_iff (h : WellFormed s) :
    ((awakened s).pcbs s.running).status = .running ↔ (s.pcbs s.running).status = .running := by
  constructor
  · intro hst
    simp only [awakened] at hst
    split at hst
    · cases hst
    · exact hst
  · intro hst
    rw [h.running_awakened hst]
    exact hst

/-- The blocks of the timers that remain are the ones in use. -/
theorem owns_awakened (hp : s.timerPool.Owns (s.timerList.map TimerItem.block)) :
    (awakened s).timerPool.Owns ((awakened s).timerList.map TimerItem.block) := by
  show ((elapsed s).foldl (fun a t => a.release t.block) s.timerPool).Owns _
  rw [← List.foldl_map (f := TimerItem.block) (g := Pool.release)]
  refine Pool.Owns.release_all (hp.perm ?_)
  rw [← List.map_append]
  refine (List.Perm.map _ ?_).symm
  have hneg : s.timerList.filter (s.time < ·.awakeningTime) =
      s.timerList.filter fun t => !decide (t.awakeningTime ≤ s.time) := by
    apply List.filter_congr
    intro t _
    rw [← decide_not]
    exact decide_eq_decide.2 not_le.symm
  show (elapsed s ++ s.timerList.filter (s.time < ·.awakeningTime)).Perm _
  rw [hneg]
  exact List.filter_append_perm _ _

/-- The scheduler on a well-formed state with a sorted timer list. -/
theorem schedule_eq (h : WellFormed s)
    (hs : s.timerList.Pairwise fun t u => t.awakeningTime ≤ u.awakeningTime) :
    internalSchedule s = .ok (dispatched (awakened s)) := by
  have hr : s.readyList = [] ++ s.readyList := rfl
  obtain ⟨h1, h2⟩ := wakeTimers_eq s.timerList h rfl hs hr
  unfold internalSchedule
  rw [List.getLast?_nil, served_nil] at h1
  rw [h1, ok_bind, dispatch_eq (served_nil (s := s) ▸ h2)]

theorem timerList_dispatched : (dispatched s).timerList = s.timerList := by
  unfold dispatched
  split
  · rfl
  · unfold switched
    split <;> rfl

/-! ## The kernel's states -/

theorem Placed.wellFormed {X : List PcbRef} (h : Placed s X) (ht : Timed s)
    (hX : (s.pcbs s.running).status = .running → s.running ∈ X) : WellFormed s where
  nodup := h.nodup
  disj := h.disj
  running hst _ hm := h.not_held hm (hX hst)
  timers := ht.nodup
  waiting t hm := (ht.waiting t hm).1

theorem Settled.wellFormed (h : Settled s) : WellFormed s :=
  h.placed.wellFormed h.timed fun _ => List.mem_singleton_self _

theorem Inv.wellFormed (h : Inv s) : WellFormed s :=
  h.settled.wellFormed

/-! ## The order of service -/

/-- What the scheduler does with the list that any calls have built: `awakened` puts the processes
of the elapsed timers first, in the order in which those timers fall due and, for equal times, were
added. -/
theorem schedule_serves (h : WellFormed s) (h0 : s₀.timerList = []) (hp : s₀.timerPool = .init n)
    (hr : run timerCall s₀ calls = .ok s₁) (hl : s.timerList = s₁.timerList)
    (hpool : s.timerPool = s₁.timerPool) :
    internalSchedule s = .ok (dispatched (awakened s)) ∧
      (∃ st, Stamped TimerItem.awakeningTime TimerCall.Adds calls st ∧
        st.map Prod.snd = elapsed s) ∧
      s.timerPool.Owns (s.timerList.map TimerItem.block) ∧
      (awakened s).timerPool.Owns ((awakened s).timerList.map TimerItem.block) ∧
      (((awakened s).pcbs s.running).status = .running ↔
        (s.pcbs s.running).status = .running) ∧
      ∀ t ∈ (dispatched (awakened s)).timerList, s.time < t.awakeningTime := by
  obtain ⟨st, hst⟩ := timers_stamped h0 hp hr
  have hlist : st.map Prod.snd = s.timerList := hst.list.trans hl.symm
  have howns : s.timerPool.Owns (s.timerList.map TimerItem.block) := by
    rw [hl, hpool]
    exact hst.owns
  refine ⟨schedule_eq h (hlist ▸ hst.stamped.sorted), ?_, howns, owns_awakened howns,
    running_awakened_iff h, fun t ht => ?_⟩
  · refine ⟨_, hst.stamped.sublist (List.filter_sublist (p := fun y =>
      decide (y.2.awakeningTime ≤ s.time))), ?_⟩
    rw [elapsed, ← hlist, List.filter_map]
    rfl
  · rw [timerList_dispatched] at ht
    simpa using (List.mem_filter.1 ht).2

/-- Init and its first child sleep until the same time, and the second child runs. -/
def drowsyRun : List Event :=
  [.syscall (.spawn 0 0), .syscall (.spawn 0 0), .syscall (.sleep 1), .syscall (.sleep 1)]

theorem schedule_serves_drowsyRun : ∃ s, run step boot drowsyRun = .ok s ∧
    (elapsed { s with time := 1 }).map TimerItem.pcb = [0, 1] ∧
    internalSchedule { s with time := 1 } =
      .ok (dispatched (awakened { s with time := 1 })) := by
  have hc : (run step boot drowsyRun).toOption.any (fun s =>
      (run timerCall coldState [.add 1 0, .add 1 1]).toOption.any fun s₁ =>
        s.timerList = s₁.timerList ∧ s.timerPool.sizeMax = s₁.timerPool.sizeMax ∧
          s.timerPool.free = s₁.timerPool.free ∧
          (elapsed { s with time := 1 }).map TimerItem.pcb = [0, 1]) = true := by
    decide +kernel
  obtain ⟨s, hr, hc⟩ := run_check hc
  obtain ⟨s₁, hr₁, hc⟩ := run_check hc
  obtain ⟨hl, hm, hf, he⟩ := of_decide_eq_true hc
  have hp : s.timerPool = s₁.timerPool := by
    cases h : s.timerPool
    cases h₁ : s₁.timerPool
    rw [h, h₁] at hm hf
    exact congrArg₂ Pool.mk hm hf
  have hn : Along step (fun s e => ¬ Stalls s e) boot drowsyRun := by decide +kernel
  have hA : ∀ e ∈ drowsyRun, e.IsProcessOrMq := by decide
  have hw : WellFormed { s with time := 1 } := by
    obtain ⟨h1, h2, h3, h4, h5⟩ := (run_unstalled hA hn hr).wellFormed
    exact ⟨h1, h2, h3, h4, h5⟩
  have hcold : coldState.timerPool = .init maxNumProcesses := rfl
  exact ⟨s, hr, he, (schedule_serves (s := { s with time := 1 }) hw rfl hcold hr₁ hl hp).1⟩

end

end DisastrOS
