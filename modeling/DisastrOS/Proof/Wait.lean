import DisastrOS.Proof.Spawn

/-!
# `wait`

The caller reaps a zombie child, or sleeps when the child it waits for is none (`wait_spec`).
-/

namespace DisastrOS

open Lib State

section
variable {s s' : State} {X : List PcbRef} {B : List Nat} {p q : PcbRef} {c : Syscall}
  {e e' : PCBPtr} {es : List PCBPtr} {pid result : Int}

/-! ## The scan of the children -/

/-- The test of the scan. -/
def Wanted (s : State) (pid : Int) (e : PCBPtr) : Prop :=
  pid = 0 ∧ (s.pcbs e.pcb).status = .zombie ∨ pid ≠ 0 ∧ ((s.pcbs e.pcb).pid : Int) = pid

instance (s : State) (pid : Int) : DecidablePred (Wanted s pid) := fun _ =>
  inferInstanceAs (Decidable (_ ∨ _))

/-- The scan ends at the first child that passes its test, or else at the last one. -/
theorem waitScan_eq (es : List PCBPtr) (cur : Option PCBPtr) :
    waitScan s pid cur es = (es.find? (Wanted s pid ·)).or (es.getLast?.or cur) := by
  induction es generalizing cur with
  | nil => rfl
  | cons x es ih =>
    by_cases hx : Wanted s pid x
    · rw [List.find?_cons_of_pos (by simpa using hx), Option.some_or]
      rcases hx with hx | hx
      · rw [waitScan, if_pos hx]
      · rw [waitScan, if_neg fun h => hx.1 h.1, if_pos hx]
    · rw [List.find?_cons_of_neg (by simpa using hx), List.getLast?_cons]
      obtain ⟨h1, h2⟩ := not_or.1 hx
      rw [waitScan, if_neg h1, if_neg h2, ih]
      cases es.getLast? <;> rfl

/-- The scan ends at a child that passes its test, or else none does. -/
theorem waitScan_spec (es : List PCBPtr) (cur : Option PCBPtr) :
    (waitScan s pid cur es = none → es = [] ∧ cur = none) ∧ ∀ e, waitScan s pid cur es = some e →
      (e ∈ es ∨ cur = some e) ∧ (e ∈ es ∧ Wanted s pid e ∨ ∀ e' ∈ es, ¬ Wanted s pid e') := by
  rw [waitScan_eq]
  cases hf : es.find? (Wanted s pid ·) with
  | some x =>
    have hx := List.mem_of_find?_eq_some hf
    have hw : Wanted s pid x := by simpa using List.find?_some hf
    refine ⟨fun h => (by cases h), fun e he => ?_⟩
    cases he
    exact ⟨.inl hx, .inl ⟨hx, hw⟩⟩
  | none =>
    have hno : ∀ e ∈ es, ¬ Wanted s pid e := by simpa using hf
    rw [Option.none_or]
    refine ⟨fun h => ?_, fun e he => ⟨?_, .inr hno⟩⟩
    · rw [Option.or_eq_none_iff, List.getLast?_eq_none_iff] at h
      exact h
    · rcases Option.or_eq_some_iff.1 he with hl | ⟨-, hc⟩
      · exact .inl (List.mem_of_getLast? hl)
      · exact .inr hc

/-! ## Reaping -/

theorem storeResult_eq (s : State) (result v : Int) :
    ∃ mem, storeResult s result v = { s with mem := mem } := by
  unfold storeResult
  split
  exacts [⟨s.mem, rfl⟩, ⟨_, rfl⟩]

/-- The state after the running process has reaped its child `e`. -/
def reaped (s : State) (e : PCBPtr) (mem : Int → UInt8) : State :=
  { s with
    pcbs := fun i =>
      if i = s.running then
        { s.pcbs i with
          children := (s.pcbs i).children.erase e, syscallRetvalue := (s.pcbs e.pcb).pid }
      else s.pcbs i
    zombieList := s.zombieList.erase e.pcb
    pcbPtrPool := s.pcbPtrPool.release e.block
    pcbPool := s.pcbPool.release e.pcb
    mem := mem
    history := s.history ++ [.retval (s.pcbs s.running).call (s.pcbs e.pcb).pid] }

/-- The memory after the return value of the child `e` has been stored. -/
def reportedMem (s : State) (e : PCBPtr) (result : Int) : Int → UInt8 :=
  (storeResult s result (s.pcbs e.pcb).returnValue).mem

/-- What `wait` does with a zombie. -/
theorem reap_eq {caller : PcbRef} (hc : s.running = caller) (hne : e.pcb ≠ caller) (result : Int) :
    (do
      let s := s.setChildren caller ((s.pcbs caller).children.erase e)
      let s := pcbPtrFree s e
      let s ← s.listDetach .zombie e.pcb
      let s := s.setRetvalue caller (s.pcbs e.pcb).pid
      let s := storeResult s result (s.pcbs e.pcb).returnValue
      .ok (pcbFree s e.pcb)) =
      if e.pcb ∈ s.zombieList then .ok (reaped s e (reportedMem s e result))
      else (.error .corrupted : Except Halt State) := by
  have hl : (pcbPtrFree (s.setChildren caller ((s.pcbs caller).children.erase e)) e).list .zombie =
      s.zombieList := rfl
  by_cases hz : e.pcb ∈ s.zombieList
  · rw [if_pos hz]
    simp only [Placed.detach_eq (hl ▸ hz), ok_bind]
    set u := State.setRetvalue _ _ _ with hu
    have hr : (u.pcbs e.pcb).returnValue = (s.pcbs e.pcb).returnValue := by
      simp [hu, pcbPtrFree, State.setList, hne]
    have hm : storeResult u result (u.pcbs e.pcb).returnValue =
        { u with mem := reportedMem s e result } := by
      rw [hr, reportedMem]
      unfold storeResult
      split <;> rfl
    rw [hm, hu]
    simp only [reaped, pcbFree, Except.ok.injEq, hc]
    simp only [pcbPtrFree, State.setChildren, State.setList, State.setRetvalue, State.list]
    congr 1
    · funext i
      by_cases hi : i = caller <;> simp [hi, hne]
    · simp [hne]
  · rw [if_neg hz]
    simp only [State.listDetach, hl, if_neg hz, error_bind]

/-- A process with a status that a list has, other than the running one, is on that list. -/
theorem Inv.mem_list (h : Inv s) (ha : s.Alloc p) (hp : p ≠ s.running) :
    ∃ L, p ∈ s.list L ∧ (s.pcbs p).status = L.status ∧ L.Accepts (s.pcbs p).syscallNum := by
  obtain ⟨L, hL⟩ := h.placed.total ha (by simpa using hp)
  exact ⟨L, hL, h.placed.status hL, h.placed.accepts hL⟩

theorem Inv.zombie_iff (h : Inv s) (ha : s.Alloc p) :
    (s.pcbs p).status = .zombie ↔ p ∈ s.zombieList := by
  refine ⟨fun hz => ?_, fun hm => h.placed.status (L := .zombie) hm⟩
  obtain ⟨L, hL, hst, -⟩ := h.mem_list ha (by
    rintro rfl
    rw [h.status] at hz
    cases hz)
  rw [hz] at hst
  cases L with
  | zombie => exact hL
  | _ => simp [PcbList.status] at hst

theorem reaped_spec (h : Inv s) (he : e ∈ (s.pcbs s.running).children)
    (hz : (s.pcbs e.pcb).status = .zombie) (mem : Int → UInt8) :
    Inv (reaped s e mem) ∧ (reaped s e mem).family = s.family.reap s.running e.pcb := by
  have hmem : e.pcb ∈ s.family.children s.running := List.mem_map_of_mem he
  have ha : s.Alloc e.pcb := (h.tree.wf.entry hmem).1
  have hzl := (h.zombie_iff ha).1 hz
  have hne : e.pcb ≠ s.running := by
    intro e'
    rw [e', h.status] at hz
    cases hz
  have hkeep : ∀ q, ((reaped s e mem).pcbs q).status = (s.pcbs q).status ∧
      ((reaped s e mem).pcbs q).syscallNum = (s.pcbs q).syscallNum ∧
      ((reaped s e mem).pcbs q).syscallArgs = (s.pcbs q).syscallArgs ∧
      ((reaped s e mem).pcbs q).call = (s.pcbs q).call ∧
      ((reaped s e mem).pcbs q).pid = (s.pcbs q).pid ∧
      ((reaped s e mem).pcbs q).parent = (s.pcbs q).parent ∧
      ((reaped s e mem).pcbs q).descriptors = (s.pcbs q).descriptors := by
    intro q
    by_cases hq : q = s.running <;> simp [reaped, hq]
  have hfam : (reaped s e mem).family = s.family.reap s.running e.pcb := by
    unfold State.family Family.reap
    simp only [(hkeep _).1, (hkeep _).2.1, (hkeep _).2.2.1, (hkeep _).2.2.2.2.1,
      (hkeep _).2.2.2.2.2.1, Family.mk.injEq, true_and, and_true]
    refine ⟨Pool.release_sizeMax, rfl, funext fun q => propext (Pool.used_release ha),
      funext fun q => ?_, rfl, funext fun q => propext ?_⟩
    · by_cases hq : q = s.running
      · simp only [reaped, hq, if_true]
        exact map_erase_of_nodup (h.tree.wf.nodup s.running) he
      · simp [reaped, hq]
    · exact (h.placed.nodup .zombie).mem_erase_iff
  have hpl : Placed (reaped s e mem) [s.running] := by
    have h1 := h.placed.detach_erase (L := .zombie) hzl
    have h2 := h1.release (by simpa using hne) (by simp [hz])
    exact h2.congr rfl (fun L => by cases L <;> rfl) fun q _ => ⟨(hkeep q).1, (hkeep q).2.1⟩
  refine ⟨⟨⟨hpl, ?_, ?_, ⟨?_, fun q => ?_⟩, ?_⟩, ?_, ?_⟩, hfam⟩
  · exact h.timed.congr rfl fun t ht => ⟨(h.timed.waiting t ht).1, (hkeep _).2.1⟩
  · exact h.queues.congr rfl rfl rfl rfl fun _ q _ => (hkeep q).2.2.1
  · rw [hfam]
    exact h.tree.wf.reap hmem (h.tree.wf.zombie hzl)
  · exact (hkeep q).2.2.2.2.2.2.trans (h.tree.descriptors q)
  · refine (h.answers.setRetvalue s.running (s.pcbs e.pcb).pid).same rfl rfl fun q => ?_
    by_cases hq : q = s.running <;> simp [reaped, hq]
  · exact (hkeep s.running).1.trans h.status
  · exact h.idle.congr rfl rfl fun _ q _ => by
      simp [State.request, (hkeep q).2.2.1, (hkeep q).2.2.2.1]

/-! ## Sleeping -/

/-- The switch to the first ready process, from a process that has gone to a list. -/
theorem Consistent.runNext (h : Consistent s [] B) :
    Ensures (do
        let (next, s) ← s.listDetachFirst .ready
        .ok ((s.setStatus next .running).setRunning next)) (· = Halt.nullDeref) fun s' =>
      Rescheduled s s' ∧ Settled s' ∧ s'.family = s.family := by
  cases hr : s.list .ready with
  | nil => simp [State.listDetachFirst, hr]
  | cons next rest =>
    obtain ⟨h1, h2⟩ := h.detachFirst hr (by simp) (by simp)
    rw [h1, ok_bind, ensures_ok]
    have hst : (s.pcbs next).status = .ready := h.placed.status (L := .ready) (by simp [hr])
    have h3 := (h2.setStatus (p := next) (by simp) .running).setRunning next
    have hf : Rescheduled s (((s.setList .ready rest).setStatus next .running).setRunning next) :=
      (Rescheduled.setReady _ _).trans
        ((Rescheduled.setStatus _ _ _).trans (Rescheduled.setRunning _ _))
    refine ⟨hf, ⟨h3.placed, by simp, h3.timed⟩, hf.family fun q _ => ?_⟩
    by_cases hq : q = next
    · simp [hq, hst]
    · simp [hq]

theorem Consistent.insertWait (h : Consistent s (p :: X) B) (hx : p ∉ X)
    (hst : (s.pcbs p).status = .waiting) (hn : (s.pcbs p).syscallNum = dsosCallWait) :
    s.listInsertLast .waiting p = .ok (s.setList .waiting (s.waitingList ++ [p])) ∧
      Consistent (s.setList .waiting (s.waitingList ++ [p])) X B := by
  obtain ⟨h1, h2⟩ := h.placed.insertLast (L := .waiting) hx hst (.inl hn)
  exact ⟨h1, h2,
    h.timed.congr rfl fun t ht => ⟨List.mem_append_left _ (h.timed.waiting t ht).1, rfl⟩,
    h.queues.setList_other (by simp) (by simp), h.tree.setList (by simp),
    h.answers.same rfl rfl fun _ => ⟨rfl, rfl, rfl, rfl⟩⟩

/-- The running process goes to the waiting list and the first ready process runs. -/
theorem waitSleep_spec (h : Inv s) (hn : (s.pcbs s.running).syscallNum = dsosCallWait) :
    Ensures (internalWait.waitSleep s s.running) (· = .nullDeref) fun s' =>
      Inv s' ∧ s'.family = s.family.sleep s.running ((s.pcbs s.running).syscallArgs 0) := by
  have h1 := h.setStatus (p := s.running) (by simp) .waiting
  obtain ⟨h2, h3⟩ := h1.insertWait (by simp) (by simp) (by simpa using hn)
  unfold internalWait.waitSleep
  simp only [h2, ok_bind]
  refine h3.runNext.mono (fun _ => id) fun s' ⟨h4, h5, h6⟩ => ⟨⟨h3.reschedule h4 h5, h5.status, ?_⟩, ?_⟩
  · have h7 : Idle ((s.setStatus s.running .waiting).setList .waiting
        ((s.setStatus s.running .waiting).waitingList ++ [s.running])) :=
      h.idle.congr rfl rfl fun _ q _ => by simp [State.request]
    exact h7.reschedule h4
  · rw [h6]
    unfold State.family Family.sleep
    simp only [Family.mk.injEq]
    refine ⟨rfl, rfl, rfl, funext fun q => ?_, funext fun q => ?_, funext fun q => ?_, rfl, rfl,
      funext fun q => ?_⟩
    · simp
    · simp
    · simp
    · by_cases hq : q = s.running <;> simp [hq, hn]

/-! ## The call -/

/-- **`wait`** keeps the invariant, and reaps a zombie child or sleeps when it may. -/
theorem wait_spec (h : Inv s) (pid result : Int) :
    Ensures (internalWait (saveCall s (.wait pid result))) (· = .nullDeref) fun s' =>
      Inv s' ∧ s.family.Step s.running (.wait pid result) s'.family := by
  have h1 := h.saveCall (.wait pid result)
  have hargs := saveCall_args s (.wait pid result)
  have hfam := family_saveCall (c := .wait pid result) h.status
  have hfail := fun hc => fail_spec (c := .wait pid result) h id hc dsosEWait
  have hnum : ((saveCall s (.wait pid result)).pcbs s.running).syscallNum = dsosCallWait := by
    simp [saveCall, Syscall.num]
  have hrun := saveCall_running s (.wait pid result)
  set t := saveCall s (.wait pid result)
  have h0 : (t.pcbs s.running).syscallArgs 0 = pid := hargs 0
  have ha1 : (t.pcbs s.running).syscallArgs 1 = result := hargs 1
  have hsleep : (∀ e ∈ (t.pcbs s.running).children, (t.pcbs e.pcb).status = .zombie → 0 ≤ pid →
      ¬ Matches pid (t.pcbs e.pcb).pid) →
      Ensures (internalWait.waitSleep t s.running) (· = .nullDeref) fun s' =>
        Inv s' ∧ s.family.Step s.running (.wait pid result) s'.family := by
    intro hno
    have h2 := waitSleep_spec h1 (by rw [hrun]; exact hnum)
    rw [hrun, h0] at h2
    refine h2.mono (fun _ => id) fun s' h3 => ⟨h3.1, ?_⟩
    rw [h3.2, hfam]
    refine .sleep pid result fun p hp hz => ?_
    rw [← hfam] at hp hz ⊢
    obtain ⟨e, he, rfl⟩ := List.mem_map.1 hp
    exact hno e he (h1.placed.status (L := .zombie) hz)
  unfold internalWait
  simp only [hrun, h0, ha1]
  split
  · rename_i hnone
    have hc : t.family.children s.running = [] := List.map_eq_nil_iff.2 hnone
    rw [hfam] at hc
    exact ⟨(hfail hc).1, (hfail hc).2.1⟩
  rename_i hne
  have hspec : (waitScan t pid none (t.pcbs s.running).children = none → _) ∧ _ :=
    waitScan_spec _ none
  obtain ⟨hnone, hsome⟩ := hspec
  cases hscan : waitScan t pid none (t.pcbs s.running).children with
  | none => exact absurd (hnone hscan).1 hne
  | some e =>
    obtain ⟨hmem, hwant⟩ := hsome e hscan
    have hmem : e ∈ (t.pcbs s.running).children := by simpa using hmem
    have hchild : e.pcb ∈ t.family.children s.running := List.mem_map_of_mem hmem
    have ha : ∀ {x}, x ∈ (t.pcbs s.running).children → t.Alloc x.pcb := fun hx =>
      (h1.tree.wf.entry (q := s.running) (List.mem_map_of_mem hx)).1
    simp only
    split
    · rename_i hz
      have hzl := (h1.zombie_iff (ha hmem)).1 hz
      have hne : e.pcb ≠ s.running := by
        intro e'
        have := h1.status
        rw [hrun, ← e', hz] at this
        cases this
      rw [reap_eq hrun hne result, if_pos hzl]
      obtain ⟨h2, h3⟩ := reaped_spec h1 (by rwa [hrun]) hz (reportedMem t e result)
      refine ⟨h2, ?_⟩
      rw [h3, hfam, hrun]
      rw [hfam] at hchild
      exact .reap pid result e.pcb hchild (by rw [← hfam]; exact hzl)
    · rename_i hz
      refine hsleep fun e' he' hz' h0' hm => ?_
      rcases hwant with ⟨-, ⟨-, h2⟩ | ⟨h2, h3⟩⟩ | hwant
      · exact hz h2
      · have : (t.pcbs e'.pcb).pid = (t.pcbs e.pcb).pid := by
          have := hm.resolve_left h2
          omega
        exact hz (h1.tree.wf.pid_inj (ha he') (ha hmem) this ▸ hz')
      · refine hwant e' he' ?_
        by_cases h2 : pid = 0
        exacts [.inl ⟨h2, hz'⟩, .inr ⟨h2, (hm.resolve_left h2).symm⟩]

end

end DisastrOS
