import DisastrOS.Proof.Kin

/-!
# Whom `wait` reaps

A caller with children is to be refused when it names a process that is no child of it, to reap the
zombie that it names or the first one if it asks for any, and to sleep otherwise (`WaitsAsked`). The
scan of the children leaves its cursor on the last child when it finds none, and the caller then
sleeps, or reaps that child if it is a zombie. `MayWait` says when the call does what it is to do, in
any state that a run reaches without linking a PCB into two lists (`waitsAsked_iff`).
-/

namespace DisastrOS

open Lib State

/-- `pid` is that of a process, but of no child of the caller. -/
def NamesNone (s : State) (pid : Int) : Prop :=
  0 < pid ∧ ∀ e ∈ (s.pcbs s.running).children, ((s.pcbs e.pcb).pid : Int) ≠ pid

/-- The zombie `e` is the child that `wait pid` asks for. -/
def Due (s : State) (pid : Int) (e : PCBPtr) : Prop :=
  (s.pcbs e.pcb).status = .zombie ∧ (0 < pid ∧ ((s.pcbs e.pcb).pid : Int) = pid ∨ pid = 0 ∧
    (s.pcbs s.running).children.find? (fun x => (s.pcbs x.pcb).status = .zombie) = some e)

/-- The caller goes to sleep, the first ready process runs, and no child is reaped. -/
structure Sleeps (s s' : State) : Prop where
  caller : (s'.pcbs s.running).status = .waiting ∧ s.running ∈ s'.waitingList
  next : s.readyList = s'.running :: s'.readyList ∧ (s'.pcbs s'.running).status = .running
  children : ∀ p, (s'.pcbs p).children = (s.pcbs p).children
  zombies : s'.zombieList = s.zombieList
  pools : s'.pcbPool = s.pcbPool ∧ s'.pcbPtrPool = s.pcbPtrPool

/-- What `wait` is to do for a caller with children. -/
structure WaitsAsked (s : State) (pid result : Int) (o : Except Halt State) : Prop where
  refuses : NamesNone s pid → o = .ok (s.setRetvalue s.running dsosEWait)
  reaps : ∀ e ∈ (s.pcbs s.running).children, Due s pid e →
    o = .ok (reaped s e (reportedMem s e result))
  sleeps : ¬ NamesNone s pid → (∀ e ∈ (s.pcbs s.running).children, ¬ Due s pid e) →
    ∃ s', o = .ok s' ∧ Sleeps s s'

/-- No leftover of the scan is taken for the child asked for, a zombie to be reaped is on its list,
and a caller that is to sleep can do so: somebody is ready to run, and the caller is not already
alone on the waiting list. -/
@[mk_iff] structure MayWait (s : State) (pid : Int) : Prop where
  named : ¬ NamesNone s pid
  negative : pid < 0 → ∀ e ∈ (s.pcbs s.running).children.getLast?, (s.pcbs e.pcb).status ≠ .zombie
  zombie : ∀ e ∈ (s.pcbs s.running).children, Due s pid e → e.pcb ∈ s.zombieList
  sleeps : (∀ e ∈ (s.pcbs s.running).children, ¬ Due s pid e) →
    s.readyList ≠ [] ∧ s.waitingList ≠ [s.running]

instance (s : State) (pid : Int) : Decidable (NamesNone s pid) := inferInstanceAs (Decidable (_ ∧ _))
instance (s : State) (pid : Int) (e : PCBPtr) : Decidable (Due s pid e) :=
  inferInstanceAs (Decidable (_ ∧ (_ ∨ _)))
instance (s : State) (pid : Int) : Decidable (MayWait s pid) :=
  decidable_of_iff' _ (mayWait_iff s pid)

section
variable {s s' : State} {pid result : Int} {e : PCBPtr} {p : PcbRef} {es : List Event}

/-! ## Sleeping -/

/-- The caller goes to the waiting list, unless it is on it already. -/
theorem insertCaller (h : Sane s) (hw : s.waitingList ≠ [s.running]) :
    ∃ ps, (s.setStatus s.running .waiting).listInsertLast .waiting s.running =
      .ok ((s.setStatus s.running .waiting).setList .waiting ps) ∧ s.running ∈ ps := by
  set u := s.setStatus s.running .waiting with hu
  have hl : ∀ L, u.list L = s.list L := fun L => list_setStatus
  unfold State.listInsertLast
  by_cases hm : s.running ∈ s.waitingList
  · -- a stalled caller has a neighbour, so the insertion is refused
    have hmu : s.running ∈ u.list .waiting := (hl .waiting).symm ▸ hm
    have hwu : u.list .waiting ≠ [s.running] := (hl .waiting).symm ▸ hw
    refine ⟨s.waitingList, ?_, hm⟩
    rw [h.setWaiting.1.surveyed.listInsert_linked hmu hwu]
    exact congrArg _ (setList_same (s := u) (L := .waiting)).symm
  · have hun : ∀ L, s.running ∉ s.list L := fun L hL => by
      cases h.runs.only_waiting h.table hL
      exact hm hL
    refine ⟨u.list .waiting ++ [s.running], ?_, by simp⟩
    apply listInsert_of_unlisted
    intro L
    rw [hl]
    exact hun L

/-- Alone on the waiting list, it passes the test of `List_insert` and would be linked twice. -/
theorem insertCaller_alone (h : Sane s) (hw : s.waitingList = [s.running]) :
    (s.setStatus s.running .waiting).listInsertLast .waiting s.running = .error .corrupted := by
  have hone : (s.setStatus s.running .waiting).list .waiting = [s.running] := by
    rw [list_setStatus]
    exact hw
  exact h.setWaiting.1.surveyed.listInsert_alone hone

theorem waitSleep_readyList (hs : internalWait.waitSleep s p = .ok s') :
    s.readyList = s'.running :: s'.readyList := by
  obtain ⟨s₁, h₁, hs⟩ := bind_eq_ok.1 hs
  obtain ⟨⟨next, s₂⟩, h₂, hs⟩ := bind_eq_ok.1 hs
  obtain ⟨ps, hL, rfl⟩ := listDetachFirst_cases h₂
  cases hs
  have h3 : s₁.readyList = (s.setStatus p .waiting).readyList :=
    listInsert_readyList h₁ (L := .waiting) (by simp)
  exact h3.symm.trans hL

/-- The caller can go to sleep unless nobody is ready, or it is alone on the waiting list. -/
theorem waitSleep_iff (h : Sane s) :
    (∃ s', internalWait.waitSleep s s.running = .ok s' ∧ Sleeps s s') ↔
      s.readyList ≠ [] ∧ s.waitingList ≠ [s.running] := by
  constructor
  · intro hs
    obtain ⟨s', hs, -⟩ := hs
    constructor
    · rw [waitSleep_readyList hs]
      simp
    · intro hw
      obtain ⟨s₁, h₁, -⟩ := bind_eq_ok.1 hs
      rw [insertCaller_alone h hw] at h₁
      cases h₁
  · intro hs
    obtain ⟨next, rest, hr⟩ := List.exists_cons_of_ne_nil hs.1
    obtain ⟨ps, hins, hm⟩ := insertCaller h hs.2
    have hne : s.running ≠ next := by
      intro hne
      have hmem : s.running ∈ s.list .ready := by
        show s.running ∈ s.readyList
        rw [hr, hne]
        exact List.mem_cons_self
      cases h.runs.only_waiting h.table hmem
    set u := (s.setStatus s.running .waiting).setList .waiting ps with hu
    have hready : u.list .ready = next :: rest := hr
    have hdetach : u.listDetachFirst .ready = .ok (next, u.setList .ready rest) := by
      unfold State.listDetachFirst
      rw [hready]
    have heq : internalWait.waitSleep s s.running =
        .ok (((u.setList .ready rest).setStatus next .running).setRunning next) := by
      unfold internalWait.waitSleep
      simp only [hins, ok_bind, hdetach]
    refine ⟨_, heq, ⟨?_, hm⟩, ⟨hr, ?_⟩, (Kindred.waitSleep heq).children, rfl, rfl, rfl⟩
    · simp [hu, hne]
    · simp

/-! ## The scan -/

theorem wanted_pos (hp : 0 < pid) : Wanted s pid e ↔ ((s.pcbs e.pcb).pid : Int) = pid := by
  unfold Wanted
  omega

theorem wanted_zero : Wanted s 0 e ↔ (s.pcbs e.pcb).status = .zombie := by simp [Wanted]

theorem not_wanted_neg (hp : pid < 0) : ¬ Wanted s pid e := by
  unfold Wanted
  omega

/-- The child that is to be reaped is the first zombie that the scan stops at. -/
theorem due_iff (hw : s.kin.Wf) (he : e ∈ (s.pcbs s.running).children) : Due s pid e ↔
    (s.pcbs e.pcb).status = .zombie ∧
      (s.pcbs s.running).children.find? (Wanted s pid ·) = some e := by
  have hn : ∀ {x}, x ∈ (s.pcbs s.running).children → x.pcb ∈ s.kin.children s.running :=
    fun hx => mem_kin.2 ⟨_, hx, rfl⟩
  rcases lt_trichotomy pid 0 with hp | rfl | hp
  · have h1 : (s.pcbs s.running).children.find? (Wanted s pid ·) = none := by
      simp [not_wanted_neg hp]
    rw [h1]
    unfold Due
    constructor
    · intro hd
      omega
    · intro hd
      cases hd.2
  · simp only [Due, wanted_zero]
    simp
  · unfold Due
    refine and_congr_right fun _ => ?_
    constructor
    · intro hd
      have hpid : ((s.pcbs e.pcb).pid : Int) = pid := by
        rcases hd with hd | hd
        · exact hd.2
        · omega
      cases hf : (s.pcbs s.running).children.find? (Wanted s pid ·) with
      | none =>
        have := List.find?_eq_none.1 hf e he
        simp [wanted_pos hp, hpid] at this
      | some x =>
        have hx := List.mem_of_find?_eq_some hf
        have hxw : Wanted s pid x := by simpa using List.find?_some hf
        have hxp := (wanted_pos hp).1 hxw
        have hpcb : x.pcb = e.pcb := by
          apply hw.pid_inj (hw.entry (hn hx)).1 (hw.entry (hn he)).1
          show (s.pcbs x.pcb).pid = (s.pcbs e.pcb).pid
          omega
        rw [List.inj_on_of_nodup_map (hw.nodup s.running) hx he hpcb]
    · intro hf
      have hxw : Wanted s pid e := by simpa using List.find?_some hf
      exact .inl ⟨hp, (wanted_pos hp).1 hxw⟩

/-! ## The call -/

/-- What the call does once the scan has ended at the child `e`. -/
def waitAt (s : State) (result : Int) (e : PCBPtr) : Except Halt State :=
  if (s.pcbs e.pcb).status = .zombie then
    if e.pcb ∈ s.zombieList then .ok (reaped s e (reportedMem s e result))
    else .error .corrupted
  else internalWait.waitSleep s s.running

theorem internalWait_eq (h : Sane s) (hc : (s.pcbs s.running).children ≠ []) :
    ∃ e ∈ (s.pcbs s.running).children,
      ((s.pcbs s.running).children.find? (Wanted s ((s.pcbs s.running).syscallArgs 0) ·)).or
        (s.pcbs s.running).children.getLast? = some e ∧
      internalWait s = waitAt s ((s.pcbs s.running).syscallArgs 1) e := by
  obtain ⟨last, hlast⟩ : ∃ last, (s.pcbs s.running).children.getLast? = some last :=
    ⟨_, List.getLast?_eq_some_getLast hc⟩
  obtain ⟨e, he⟩ : ∃ e, ((s.pcbs s.running).children.find?
      (Wanted s ((s.pcbs s.running).syscallArgs 0) ·)).or
        (s.pcbs s.running).children.getLast? = some e := by
    cases (s.pcbs s.running).children.find? (Wanted s ((s.pcbs s.running).syscallArgs 0) ·) with
    | none => exact ⟨last, hlast⟩
    | some e => exact ⟨e, rfl⟩
  have hmem : e ∈ (s.pcbs s.running).children := by
    rcases Option.or_eq_some_iff.1 he with hf | ⟨-, hl⟩
    · exact List.mem_of_find?_eq_some hf
    · exact List.mem_of_getLast? hl
  have hscan : waitScan s ((s.pcbs s.running).syscallArgs 0) none (s.pcbs s.running).children =
      some e := by
    rw [waitScan_eq, Option.or_none, he]
  refine ⟨e, hmem, he, ?_⟩
  unfold internalWait waitAt
  dsimp only
  rw [if_neg hc]
  simp only [hscan]
  split
  · rename_i hz
    have hne : e.pcb ≠ s.running := by
      intro hne
      rw [hne] at hz
      rcases h.runs with ⟨-, hst⟩ | ⟨-, hst⟩ <;> rw [hst] at hz <;> cases hz
    exact reap_eq rfl hne _
  · rfl

/-- A call that sleeps does not return to its caller. -/
theorem waitSleep_ne_setRetvalue {r : Int} :
    internalWait.waitSleep s s.running ≠ .ok (s.setRetvalue s.running r) := by
  intro hs
  have := congrArg List.length (waitSleep_readyList hs)
  simp at this

theorem reaped_zombieList {mem : Int → UInt8} (hz : e.pcb ∈ s.zombieList) :
    (reaped s e mem).zombieList ≠ s.zombieList := by
  intro hl
  have h1 := List.length_erase_of_mem hz
  have h2 : 0 < s.zombieList.length := List.length_pos_of_mem hz
  have h3 := congrArg List.length hl
  have h4 : (reaped s e mem).zombieList = s.zombieList.erase e.pcb := rfl
  rw [h4] at h3
  omega

/-- The call sleeps, as it is to do, when it can. -/
theorem waitsAsked_sleep (h : Sane s) (hn : ¬ NamesNone s pid)
    (hd : ∀ e ∈ (s.pcbs s.running).children, ¬ Due s pid e)
    (hl : pid < 0 → ∀ e ∈ (s.pcbs s.running).children.getLast?, (s.pcbs e.pcb).status ≠ .zombie) :
    WaitsAsked s pid result (internalWait.waitSleep s s.running) ↔ MayWait s pid := by
  constructor
  · intro hw
    exact ⟨hn, hl, fun e he hd' => absurd hd' (hd e he),
      fun _ => (waitSleep_iff h).1 (hw.sleeps hn hd)⟩
  · intro hm
    exact ⟨fun hn' => absurd hn' hn, fun e he hd' => absurd hd' (hd e he),
      fun _ _ => (waitSleep_iff h).2 (hm.sleeps hd)⟩

/-- The scan has stopped at a child. -/
theorem waitsAsked_wanted (h : Sane s) (hw : s.kin.Wf) (he : e ∈ (s.pcbs s.running).children)
    (hf : (s.pcbs s.running).children.find? (Wanted s pid ·) = some e) :
    WaitsAsked s pid result (waitAt s result e) ↔ MayWait s pid := by
  have hwant : Wanted s pid e := by simpa using List.find?_some hf
  have hpid : ¬ pid < 0 := fun hneg => not_wanted_neg hneg hwant
  have hn : ¬ NamesNone s pid := fun hn => hn.2 e he ((wanted_pos hn.1).1 hwant)
  have hdue : ∀ x ∈ (s.pcbs s.running).children, Due s pid x →
      (s.pcbs e.pcb).status = .zombie ∧ x = e := by
    intro x hm hd
    obtain ⟨hz, hf'⟩ := (due_iff hw hm).1 hd
    have hx := Option.some.inj (hf.symm.trans hf')
    exact ⟨hx ▸ hz, hx.symm⟩
  unfold waitAt
  by_cases hz : (s.pcbs e.pcb).status = .zombie
  · have hd := (due_iff hw he).2 ⟨hz, hf⟩
    rw [if_pos hz]
    constructor
    · intro hwa
      have hm : e.pcb ∈ s.zombieList := by
        by_contra hm
        have := hwa.reaps e he hd
        rw [if_neg hm] at this
        cases this
      exact ⟨hn, fun hneg => absurd hneg hpid, fun x hm' hd' => (hdue x hm' hd').2 ▸ hm,
        fun hno => absurd hd (hno e he)⟩
    · intro hm
      rw [if_pos (hm.zombie e he hd)]
      exact ⟨fun hn' => absurd hn' hn, fun x hm' hd' => (hdue x hm' hd').2 ▸ rfl,
        fun _ hno => absurd hd (hno e he)⟩
  · rw [if_neg hz]
    apply waitsAsked_sleep h hn
    · exact fun x hm hd => hz (hdue x hm hd).1
    · exact fun hneg => absurd hneg hpid

/-- The scan for a child that does not exist has ended at the last one: the call does not fail. -/
theorem not_waitsAsked_named (hn : NamesNone s pid) :
    ¬ WaitsAsked s pid result (waitAt s result e) := by
  intro hwa
  have hout := hwa.refuses hn
  unfold waitAt at hout
  split at hout
  · split at hout
    · rename_i hz
      have := congrArg State.zombieList (Except.ok.inj hout)
      exact reaped_zombieList hz this
    · cases hout
  · exact waitSleep_ne_setRetvalue hout

/-- It has ended at a zombie that nobody asks for: the call does not sleep. -/
theorem not_waitsAsked_zombie (hn : ¬ NamesNone s pid)
    (hd : ∀ x ∈ (s.pcbs s.running).children, ¬ Due s pid x)
    (hz : (s.pcbs e.pcb).status = .zombie) : ¬ WaitsAsked s pid result (waitAt s result e) := by
  intro hwa
  obtain ⟨s', hout, hs⟩ := hwa.sleeps hn hd
  unfold waitAt at hout
  rw [if_pos hz] at hout
  split at hout
  · rename_i hzl
    cases hout
    exact reaped_zombieList hzl hs.zombies
  · cases hout

/-- The cases are whether the scan stops at a child, and what the last child is if it does not. -/
theorem waitsAsked_internal (h : Sane s) (hw : s.kin.Wf) (hc : (s.pcbs s.running).children ≠ [])
    (hp : (s.pcbs s.running).syscallArgs 0 = pid)
    (hr : (s.pcbs s.running).syscallArgs 1 = result) :
    WaitsAsked s pid result (internalWait s) ↔ MayWait s pid := by
  obtain ⟨e, he, hscan, heq⟩ := internalWait_eq h hc
  rw [hp] at hscan
  rw [heq, hr]
  cases hf : (s.pcbs s.running).children.find? (Wanted s pid ·) with
  | some x =>
    rw [hf, Option.some_or] at hscan
    obtain rfl := Option.some.inj hscan
    exact waitsAsked_wanted h hw he hf
  | none =>
    rw [hf, Option.none_or] at hscan
    have hnot : ∀ e ∈ (s.pcbs s.running).children, ¬ Wanted s pid e := by simpa using hf
    have hd : ∀ e ∈ (s.pcbs s.running).children, ¬ Due s pid e := by
      intro e hm hd
      have := ((due_iff hw hm).1 hd).2
      rw [hf] at this
      cases this
    by_cases hpid : 0 < pid
    · have hn : NamesNone s pid :=
        ⟨hpid, fun e hm hp' => hnot e hm ((wanted_pos hpid).2 hp')⟩
      exact iff_of_false (not_waitsAsked_named hn) fun hm => hm.named hn
    · have hn : ¬ NamesNone s pid := fun hn => hpid hn.1
      by_cases hz : (s.pcbs e.pcb).status = .zombie
      · have hneg : pid < 0 := by
          have hne : pid ≠ 0 := by
            rintro rfl
            exact hnot e he (wanted_zero.2 hz)
          omega
        exact iff_of_false (not_waitsAsked_zombie hn hd hz) fun hm => hm.negative hneg e hscan hz
      · unfold waitAt
        rw [if_neg hz]
        apply waitsAsked_sleep h hn hd
        intro _ x hx
        obtain rfl := Option.some.inj (hscan.symm.trans hx)
        exact hz

theorem mayWait_saveCall {c : Syscall} : MayWait (saveCall s c) pid ↔ MayWait s pid := by
  have hpid : ∀ p, ((saveCall s c).pcbs p).pid = (s.pcbs p).pid := fun p => by simp [saveCall]
  have hst : ∀ p, ((saveCall s c).pcbs p).status = (s.pcbs p).status := fun p => by simp [saveCall]
  have hch : ∀ p, ((saveCall s c).pcbs p).children = (s.pcbs p).children := fun p => by
    simp [saveCall]
  have hz : (saveCall s c).zombieList = s.zombieList := rfl
  have hl : (saveCall s c).readyList = s.readyList := rfl
  have hw : (saveCall s c).waitingList = s.waitingList := rfl
  simp only [mayWait_iff, NamesNone, Due, saveCall_running, hpid, hst, hch, hz, hl, hw]

/-- The child of init, of pid 1, has exited. -/
def bereftRun : List Event := [.syscall (.spawn 0 0), .syscall .preempt, .syscall (.exit 7)]

end

end DisastrOS
