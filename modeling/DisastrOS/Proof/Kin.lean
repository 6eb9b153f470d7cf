import DisastrOS.Proof.Kindred

/-!
# The process family in any run

The calls that do not leave the family alone do to it what they are for, so it is in order after any
run (`run_kin`): every process but init is on one children list, once, and no two have the same pid.
-/

namespace DisastrOS

open Lib State

section
variable {s s' : State} {p q : PcbRef} {pool ptrPool : Pool} {e : PCBPtr}

theorem mem_kin : q ∈ s.kin.children p ↔ ∃ e ∈ (s.pcbs p).children, e.pcb = q := List.mem_map

theorem Sane.not_kin_zombie (h : Sane s) : ¬ s.kin.zombie s.running := by
  intro hz
  have hst : (s.pcbs s.running).status = .zombie := hz.2
  rcases h.runs with ⟨-, hr⟩ | ⟨-, hr⟩ <;> rw [hst] at hr <;> cases hr

/-- A new process is a new child of the running one. -/
theorem born_kin (h : Sane s) (hw : s.kin.Wf) (hg : s.pcbPool.get = some (p, pool)) (b : Nat)
    (ptrPool : Pool) : p ≠ s.running ∧ (born s p pool ptrPool ⟨b, p⟩).kin.Wf := by
  have hnew : ¬ s.Alloc p := Pool.not_used_get hg
  have hne : p ≠ s.running := fun hp => hnew (hp ▸ h.alloc)
  have hall : ∀ q, (born s p pool ptrPool ⟨b, p⟩).Alloc q ↔ q = p ∨ s.Alloc q :=
    fun q => h.table.pool.used_get hg
  have hfree : (s.pcbs p).children = [] := List.map_eq_nil_iff.1 (hw.free hnew)
  have hpcb : ∀ q, q ≠ p → q ≠ s.running → (born s p pool ptrPool ⟨b, p⟩).pcbs q = s.pcbs q :=
    fun q hq hq' => by simp [born, hq, hq']
  refine ⟨hne, (hw.birth (r := s.running) h.alloc h.not_kin_zombie hnew).congr rfl hall ?_ ?_ ?_ rfl
    fun q hz => ?_⟩
  · funext q
    show ((born s p pool ptrPool ⟨b, p⟩).pcbs q).parent =
      if q = p then some s.running else (s.pcbs q).parent
    by_cases hq : q = p
    · simp [born, hq]
    · by_cases hq' : q = s.running <;> simp [born, hq, hq']
  · funext q
    show ((born s p pool ptrPool ⟨b, p⟩).pcbs q).children.map PCBPtr.pcb =
      if q = s.running then (s.pcbs q).children.map PCBPtr.pcb ++ [p]
      else (s.pcbs q).children.map PCBPtr.pcb
    by_cases hq : q = p
    · simp [born, hq, hne, hfree]
    · by_cases hq' : q = s.running <;> simp [born, hq, hq', Ne.symm hne]
  · funext q
    show ((born s p pool ptrPool ⟨b, p⟩).pcbs q).pid = if q = p then s.lastPid else (s.pcbs q).pid
    by_cases hq : q = p
    · simp [born, hq]
    · by_cases hq' : q = s.running <;> simp [born, hq, hq']
  · have hz' : ((born s p pool ptrPool ⟨b, p⟩).pcbs q).status = .zombie := hz.2
    have hq : q ≠ p := by
      intro hq
      simp [born, hq] at hz'
    refine ⟨((hall q).1 hz.1).resolve_left hq, ?_⟩
    by_cases hq' : q = s.running
    · simpa [born, hq', Ne.symm hne] using hz'
    · rwa [hpcb q hq hq'] at hz'

/-- A child of `q` without children leaves the list of `q` and is freed. -/
theorem Kindred.reap (hw : s.kin.Wf) (he : e ∈ (s.pcbs q).children)
    (h : Kindred (s.setChildren q ((s.pcbs q).children.erase e)) s')
    (hc : (s.pcbs e.pcb).children = []) : (DisastrOS.pcbFree s' e.pcb).kin.Wf := by
  have hm : e.pcb ∈ s.kin.children q := mem_kin.2 ⟨e, he, rfl⟩
  have hu : s.pcbPool.Used e.pcb := (hw.entry hm).1
  have hall : ∀ x, (DisastrOS.pcbFree s' e.pcb).Alloc x ↔ x ≠ e.pcb ∧ s.Alloc x := by
    intro x
    show (s'.pcbPool.release e.pcb).Used x ↔ _
    rw [h.pcbPool]
    exact Pool.used_release hu
  refine (hw.reap hm (List.map_eq_nil_iff.2 hc)).congr h.initPcb hall (funext fun x => ?_)
    (funext fun x => ?_) (funext fun x => ?_) h.lastPid fun x hz => ?_
  · show (s'.pcbs x).parent = (s.pcbs x).parent
    rw [h.parent]
    simp
  · show (s'.pcbs x).children.map PCBPtr.pcb =
      if x = q then ((s.pcbs x).children.map PCBPtr.pcb).erase e.pcb
      else (s.pcbs x).children.map PCBPtr.pcb
    rw [h.children]
    by_cases hx : x = q
    · simp only [setChildren_pcbs, hx, if_true]
      exact map_erase_of_nodup (hw.nodup q) he
    · simp [hx]
  · show (s'.pcbs x).pid = (s.pcbs x).pid
    rw [h.pid]
    simp
  · have hz' : (s'.pcbs x).status = .zombie := hz.2
    have hx := (hall x).1 hz.1
    exact ⟨hx.1, hx.2, by simpa using h.zombie x hz'⟩

theorem spawn_kin (h : Sane s) (hw : s.kin.Wf) (hs : internalSpawn s = .ok s') : s'.kin.Wf := by
  cases hg : s.pcbPool.get with
  | none =>
    rw [internalSpawn_full hg] at hs
    cases hs
    exact (Kindred.setRetvalue s _ _).wf hw
  | some x =>
    obtain ⟨p, pool⟩ := x
    cases hb : s.pcbPtrPool.get with
    | none =>
      rw [internalSpawn_noPtr hg hb] at hs
      cases hs
    | some y =>
      obtain ⟨b, ptrPool⟩ := y
      obtain ⟨hne, hbw⟩ := born_kin h hw hg b ptrPool
      rw [internalSpawn_born hne hg hb] at hs
      obtain ⟨u, hu, hs⟩ := bind_eq_ok.1 hs
      cases hs
      exact ((Kindred.listInsert hu).trans (.setRetvalue u _ _)).wf hbw

theorem fork_kin (h : Sane s) (hw : s.kin.Wf) (hs : internalFork s = .ok s') : s'.kin.Wf := by
  cases hg : s.pcbPool.get with
  | none =>
    rw [internalFork_full hg] at hs
    cases hs
    exact (Kindred.setRetvalue s _ _).wf hw
  | some x =>
    obtain ⟨p, pool⟩ := x
    cases hb : s.pcbPtrPool.get with
    | none =>
      rw [internalFork_noPtr hg hb] at hs
      cases hs
    | some y =>
      obtain ⟨b, ptrPool⟩ := y
      obtain ⟨hne, hbw⟩ := born_kin h hw hg b ptrPool
      rw [internalFork_born hne hg hb] at hs
      obtain ⟨u, hu, hs⟩ := bind_eq_ok.1 hs
      have h2 : Kindred (born s p pool ptrPool ⟨b, p⟩) s' :=
        (Kindred.forkDescriptors _ hu).trans ((Kindred.setRetvalue u _ _).trans (.listInsert hs))
      exact h2.wf hbw

theorem wait_kin (hw : s.kin.Wf) (hs : internalWait s = .ok s') : s'.kin.Wf := by
  unfold internalWait at hs
  dsimp only at hs
  split at hs
  · cases hs
    exact (Kindred.setRetvalue s _ _).wf hw
  split at hs
  · split at hs
    · cases hs
      exact (Kindred.setRetvalue s _ _).wf hw
    · exact (Kindred.waitSleep hs).wf hw
  rename_i e hscan
  split at hs
  · rename_i hz
    obtain ⟨u, hu, hs⟩ := bind_eq_ok.1 hs
    cases hs
    have he : e ∈ (s.pcbs s.running).children := by
      obtain ⟨hmem, -⟩ := (waitScan_spec _ none).2 e hscan
      exact hmem.resolve_right (by simp)
    have hm : e.pcb ∈ s.kin.children s.running := mem_kin.2 ⟨e, he, rfl⟩
    have hc : s.kin.children e.pcb = [] := hw.zombie ⟨(hw.entry hm).1, hz⟩
    apply Kindred.reap hw he _ (List.map_eq_nil_iff.1 hc)
    apply Kindred.trans ?_ ((Kindred.listDetach hu).trans ((Kindred.setRetvalue u _ _).trans
      (.storeResult _ _ _)))
    exact .same rfl rfl rfl rfl
  · exact (Kindred.waitSleep hs).wf hw

/-- The children of the running process move to init. -/
theorem Reparented.kin (h : Reparented s s') (hw : s.kin.Wf) (hne : s.running ≠ s.initPcb) :
    s'.kin.Wf := by
  have hpool : s'.pcbPool = s.pcbPool := (congrArg State.pcbPool h.same :)
  have hall : ∀ x, s'.Alloc x ↔ s.Alloc x := fun x => by unfold State.Alloc; rw [hpool]
  refine (hw.orphan hne).congr (congrArg State.initPcb h.same :) hall (funext fun x => ?_)
    (funext fun x => ?_) (funext fun x => ?_) (congrArg State.lastPid h.same :) fun x hz => ?_
  · exact (congrArg PCB.parent (h.core x) :)
  · show (s'.pcbs x).children.map PCBPtr.pcb = _
    rw [h.children, movedChildren]
    simp only [apply_ite (List.map PCBPtr.pcb), List.map_nil, List.map_append]
    rfl
  · exact (congrArg PCB.pid (h.core x) :)
  · exact ⟨(hall x).1 hz.1, (h.status x).symm.trans hz.2⟩

/-- A process without children becomes a zombie. -/
theorem kin_setZombie (hw : s.kin.Wf) (hne : p ≠ s.initPcb) (hc : (s.pcbs p).children = []) :
    (s.setStatus p .zombie).kin.Wf := by
  refine (hw.bury hne (List.map_eq_nil_iff.2 hc)).congr rfl (fun _ => .rfl) (funext fun x => ?_)
    (funext fun x => ?_) (funext fun x => ?_) rfl fun x hz => ?_
  · show ((s.setStatus p .zombie).pcbs x).parent = (s.pcbs x).parent
    simp
  · show ((s.setStatus p .zombie).pcbs x).children.map PCBPtr.pcb = _
    simp only [setStatus_pcbs, PCB.ite_children, ite_self]
    rfl
  · show ((s.setStatus p .zombie).pcbs x).pid = (s.pcbs x).pid
    simp
  · by_cases hx : x = p
    · exact .inl hx
    · have hz' : ((s.setStatus p .zombie).pcbs x).status = .zombie := hz.2
      exact .inr ⟨hz.1, by simpa [hx] using hz'⟩

theorem exitToParent_kin (hw : s.kin.Wf) (ha : s.Alloc p) (hc : (s.pcbs p).children = [])
    (hs : exitToParent s p q = .ok s') : s'.kin.Wf := by
  unfold exitToParent at hs
  obtain ⟨s₁, h₁, hs⟩ := bind_eq_ok.1 hs
  have h2 := (Kindred.listDetach h₁).trans
    (.setStatus s₁ q (by decide : ProcessStatus.running ≠ .zombie))
  set u := s₁.setStatus q .running
  have hwu := h2.wf hw
  dsimp only at hs
  split at hs
  · cases hs
  rename_i e hfind
  obtain ⟨s₃, h₃, hs⟩ := bind_eq_ok.1 hs
  obtain ⟨s₄, h₄, hs⟩ := bind_eq_ok.1 hs
  cases hs
  have he : e ∈ (u.pcbs q).children := List.mem_of_find?_eq_some hfind
  have hpid : (u.pcbs e.pcb).pid = (u.pcbs p).pid := by
    simpa using List.find?_some hfind
  have hau : u.Alloc p := by
    unfold State.Alloc
    rwa [h2.pcbPool]
  have hep : e.pcb = p := hwu.pid_inj (hwu.entry (mem_kin.2 ⟨e, he, rfl⟩)).1 hau hpid
  have hcu : (u.pcbs e.pcb).children = [] := by rw [h2.children, hep, hc]
  have h5 : Kindred (u.setChildren q ((u.pcbs q).children.erase e)) s₄ := by
    apply Kindred.trans ?_ ((Kindred.releaseDescriptors _ h₃).trans (.listDetach h₄))
    apply (Kindred.setRetvalue _ q _).trans
    exact (Kindred.storeResult _ _ _).congr rfl rfl rfl rfl
  have h6 := Kindred.reap hwu he h5 hcu
  rw [hep] at h6
  exact (Kindred.setRunning _ q).wf h6

theorem exit_kin (h : Sane s) (hw : s.kin.Wf) (hs : internalExit s = .ok s') : s'.kin.Wf := by
  have hne : s.running ≠ s.initPcb := by
    obtain ⟨s₁, s₂, s₃, parent, hq, hi, hp, -, -⟩ := exit_cases hs
    intro hinit
    have hnone : (s.pcbs s.running).parent = none := hinit ▸ hw.rootParent
    rw [listInsert_pcbs hi] at hp
    simp [hq.parent, hnone] at hp
  unfold internalExit at hs
  dsimp only at hs
  set s₀ := s.updPcb s.running fun pcb => { pcb with returnValue := pcb.syscallArgs 0 } with hs₀
  have h0 : Kindred s s₀ := by refine ⟨rfl, rfl, rfl, ?_, ?_, ?_, ?_⟩ <;> simp [hs₀]
  obtain ⟨s₁, h₁, hs⟩ := bind_eq_ok.1 hs
  obtain ⟨s₂, h₂, hs⟩ := bind_eq_ok.1 hs
  obtain ⟨u, h1, hr⟩ := reparent_spec _ _ (s := s₀) hne rfl (Nat.lt_succ_self _)
  rw [Except.ok.inj (h1.symm.trans h₁)] at hr
  have hc : (s₁.pcbs s.running).children = [] := by
    rw [hr.children, movedChildren]
    exact if_pos rfl
  have hinit : s₁.initPcb = s.initPcb := (congrArg State.initPcb hr.same :)
  have hw1 := kin_setZombie (p := s.running) (hr.kin (h0.wf hw) hne) (by rwa [hinit]) hc
  have hpool : s₁.pcbPool = s.pcbPool := (congrArg State.pcbPool hr.same :)
  split at hs
  · cases hs
  rename_i parent hp
  have h3 := (Kindred.listInsert h₂).trans (.signal s₂ parent dsosSigchld)
  split at hs
  · apply exitToParent_kin (h3.wf hw1) _ _ hs
    · unfold State.Alloc
      rw [h3.pcbPool]
      exact hpool ▸ h.alloc
    · rw [h3.children]
      simpa using hc
  · obtain ⟨⟨next, s₄⟩, h₄, hs⟩ := bind_eq_ok.1 hs
    cases hs
    apply (h3.trans ((Kindred.listDetachFirst h₄).trans _)).wf hw1
    exact (Kindred.setStatus s₄ next (by simp)).trans (.setRunning _ next)

/-! ## Any run -/

variable {ev : Event} {es : List Event}

theorem step_kin (h : Sane s) (hw : s.kin.Wf) (hs : step s ev = .ok s') : s'.kin.Wf := by
  cases ev with
  | tick =>
    have h1 : Kindred s { s with time := s.time + 1 } := .same rfl rfl rfl rfl
    exact (h1.trans (.schedule hs)).wf hw
  | store addr bytes =>
    cases hs
    exact (Kindred.same rfl rfl rfl rfl).wf hw
  | syscall c =>
    have h0 := h.saveCall c
    have hw0 := (Kindred.saveCall s c).wf hw
    cases c with
    | preempt => exact (Kindred.schedule ((step_syscall rfl).symm.trans hs)).wf hw0
    | fork => exact fork_kin h0 hw0 ((step_syscall rfl).symm.trans hs)
    | wait _ _ => exact wait_kin hw0 ((step_syscall rfl).symm.trans hs)
    | exit _ => exact exit_kin h0 hw0 ((step_syscall rfl).symm.trans hs)
    | spawn _ _ => exact spawn_kin h0 hw0 ((step_syscall rfl).symm.trans hs)
    | sleep _ => exact (Kindred.sleep ((step_syscall rfl).symm.trans hs)).wf hw0
    | openResource _ _ _ => exact (Kindred.openResource ((step_syscall rfl).symm.trans hs)).wf hw0
    | closeResource _ => exact (Kindred.closeResource ((step_syscall rfl).symm.trans hs)).wf hw0
    | destroyResource _ => exact (Kindred.destroyResource ((step_syscall rfl).symm.trans hs)).wf hw0
    | mqCreate _ _ => exact (Kindred.mqCreate ((step_syscall rfl).symm.trans hs)).wf hw0
    | mqSend _ _ _ => exact (Kindred.mqSend ((step_syscall rfl).symm.trans hs)).wf hw0
    | mqReceive _ _ _ => exact (Kindred.mqReceive ((step_syscall rfl).symm.trans hs)).wf hw0
    | mqDestroy _ => exact (Kindred.mqDestroy ((step_syscall rfl).symm.trans hs)).wf hw0
    | shutdown =>
      rw [step_syscall rfl] at hs
      cases hs

theorem Inv.kin (h : Inv s) : s.kin.Wf :=
  h.tree.wf.congr rfl (fun _ => .rfl) rfl rfl rfl rfl fun _ hz => (h.zombie_iff hz.1).1 hz.2

/-- **After any run** the process family is in order. -/
theorem run_kin (hr : run step boot es = .ok s) : s.kin.Wf :=
  (run_inv' (I := fun s => Sane s ∧ s.kin.Wf) (A := fun _ => True)
    (fun _ _ _ h _ hs => ⟨(step_steps h.1 hs).sane, step_kin h.1 h.2 hs⟩)
    ⟨boot_sane, boot_inv.kin⟩ (fun _ _ => trivial) hr).2

end

end DisastrOS
