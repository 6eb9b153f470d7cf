import DisastrOS.Proof.Kin

/-!
# The reparenting loop of `exit`

The loop takes the first child of the caller and appends it to the children of init, as long as there
is one. It ends after one turn per child, with every child moved once and signalled, unless the
caller is init itself, which never runs out of children (`reparentsAll_iff`).
-/

namespace DisastrOS

open Lib State

/-- The state in which the loop of `exit` starts. -/
def exiting (s : State) (v : Int) : State :=
  (saveCall s (.exit v)).updPcb s.running fun pcb => { pcb with returnValue := pcb.syscallArgs 0 }

/-- The loop ends after as many turns as the caller has children, and has moved them all to init, in
their order and each once, with a SIGHUP for each that does not mask it. -/
def ReparentsAll (s : State) : Prop :=
  ∃ s', (∀ fuel, reparentChildren fuel s =
      if (s.pcbs s.running).children.length < fuel then .ok s' else .error .diverges) ∧
    (s'.pcbs s.running).children = [] ∧
    (s'.pcbs s.initPcb).children = (s.pcbs s.initPcb).children ++ (s.pcbs s.running).children ∧
    ((s'.pcbs s.initPcb).children.map PCBPtr.pcb).Nodup ∧
    ∀ e ∈ (s.pcbs s.running).children, dsosSighup &&& (s.pcbs e.pcb).signalsMask = dsosSighup →
      dsosSighup &&& (s'.pcbs e.pcb).signals = dsosSighup

/-- One turn of the loop, which moves the child `e` and leaves `items`. -/
def turned (s : State) (e : PCBPtr) (items : List PCBPtr) : State :=
  ((s.setChildren s.running items).setChildren s.initPcb
    (((s.setChildren s.running items).pcbs s.initPcb).children ++ [e])).signal e.pcb dsosSighup

section
variable {s s' : State} {v : Int} {fuel : Nat} {es : List Event} {e : PCBPtr} {items : List PCBPtr}

theorem reparent_cons (h : (s.pcbs s.running).children = e :: items) :
    reparentChildren (fuel + 1) s = reparentChildren fuel (turned s e items) := by
  rw [reparentChildren, h]
  rfl

theorem reparent_nil (h : (s.pcbs s.running).children = []) :
    reparentChildren (fuel + 1) s = .ok s := by
  rw [reparentChildren, h]

theorem turned_children (hne : s.running ≠ s.initPcb) :
    ((turned s e items).pcbs s.running).children = items := by
  simp [turned, hne]

/-! ## The number of turns -/

/-- More fuel does not change the result. -/
theorem reparent_mono (h : reparentChildren fuel s = .ok s') (k : Nat) :
    reparentChildren (fuel + k) s = .ok s' := by
  induction fuel generalizing s with
  | zero => cases h
  | succ fuel ih =>
    rw [show fuel + 1 + k = fuel + k + 1 by omega]
    cases hc : (s.pcbs s.running).children with
    | nil =>
      rw [reparent_nil hc] at h ⊢
      exact h
    | cons e items =>
      rw [reparent_cons hc] at h ⊢
      exact ih h

/-- One child is moved in every turn, so the loop is not over before. -/
theorem reparent_short (hne : s.running ≠ s.initPcb)
    (hl : fuel ≤ (s.pcbs s.running).children.length) :
    reparentChildren fuel s = .error .diverges := by
  induction fuel generalizing s with
  | zero => rfl
  | succ fuel ih =>
    cases hc : (s.pcbs s.running).children with
    | nil =>
      rw [hc] at hl
      simp at hl
    | cons e items =>
      rw [reparent_cons hc]
      apply ih (s := turned s e items) hne
      show fuel ≤ ((turned s e items).pcbs s.running).children.length
      rw [turned_children hne]
      rw [hc, List.length_cons] at hl
      omega

/-! ## Signals -/

/-- A signal is set once for all: the children that are moved later may be signalled again. -/
theorem reparent_signals (hne : s.running ≠ s.initPcb) (h : reparentChildren fuel s = .ok s')
    (p : PcbRef) : (s'.pcbs p).signals =
      if p ∈ (s.pcbs s.running).children.map PCBPtr.pcb then
        (s.pcbs p).signals ||| (dsosSighup &&& (s.pcbs p).signalsMask)
      else (s.pcbs p).signals := by
  induction fuel generalizing s with
  | zero => cases h
  | succ fuel ih =>
    cases hc : (s.pcbs s.running).children with
    | nil =>
      rw [reparent_nil hc] at h
      cases h
      simp
    | cons e items =>
      rw [reparent_cons hc] at h
      have h1 := ih (s := turned s e items) hne h
      have hrun : (turned s e items).running = s.running := rfl
      rw [hrun, turned_children hne] at h1
      have hmask : ((turned s e items).pcbs p).signalsMask = (s.pcbs p).signalsMask := by
        simp [turned]
      have hsig : ((turned s e items).pcbs p).signals = if p = e.pcb then
          (s.pcbs p).signals ||| (dsosSighup &&& (s.pcbs p).signalsMask)
          else (s.pcbs p).signals := by
        by_cases hp : p = e.pcb <;> simp [turned, hp]
      rw [h1, hmask, hsig, List.map_cons]
      by_cases hp : p = e.pcb
      · simp [hp, BitVec.or_assoc]
      · simp [hp]

theorem sighup_pending {a m : BitVec 32} (h : dsosSighup &&& m = dsosSighup) :
    dsosSighup &&& (a ||| (dsosSighup &&& m)) = dsosSighup := by
  rw [h]
  ext i hi
  simp
  tauto

/-! ## The loop -/

theorem reparentsAll (hw : s.kin.Wf) (hne : s.running ≠ s.initPcb) : ReparentsAll s := by
  obtain ⟨s', h1, h2⟩ := reparent_spec _ _ hne rfl (Nat.lt_succ_self _)
  refine ⟨s', fun fuel => ?_, ?_, ?_, ?_, fun e he hm => ?_⟩
  · split
    · rename_i hl
      obtain ⟨k, rfl⟩ := Nat.exists_eq_add_of_le (Nat.succ_le_of_lt hl)
      exact reparent_mono h1 k
    · rename_i hl
      exact reparent_short hne (Nat.not_lt.1 hl)
  · rw [h2.children, movedChildren]
    exact if_pos rfl
  · rw [h2.children, movedChildren, if_neg (Ne.symm hne), if_pos rfl]
  · have hw' := h2.kin hw hne
    have hinit : s'.initPcb = s.initPcb := (congrArg State.initPcb h2.same :)
    exact hw'.nodup s.initPcb
  · rw [reparent_signals hne h1, if_pos (List.mem_map_of_mem he)]
    exact sighup_pending hm

/-- Without children there is nothing to do, also for init. -/
theorem reparentsAll_nil (hw : s.kin.Wf) (hc : (s.pcbs s.running).children = []) :
    ReparentsAll s := by
  refine ⟨s, fun fuel => ?_, hc, by rw [hc, List.append_nil], hw.nodup s.initPcb, fun e he => ?_⟩
  · rw [hc]
    cases fuel with
    | zero => rfl
    | succ fuel => exact reparent_nil hc
  · rw [hc] at he
    cases he

/-- Init gives its children to itself. -/
theorem not_reparentsAll (hinit : s.running = s.initPcb) (hc : (s.pcbs s.running).children ≠ []) :
    ¬ ReparentsAll s := by
  intro h
  obtain ⟨s', h, -⟩ := h
  have h1 := h ((s.pcbs s.running).children.length + 1)
  rw [reparent_init _ hinit hc, if_pos (Nat.lt_succ_self _)] at h1
  cases h1

theorem exiting_kin (hw : s.kin.Wf) : (exiting s v).kin.Wf := by
  have h : Kindred (saveCall s (.exit v)) (exiting s v) := by
    refine ⟨rfl, rfl, rfl, ?_, ?_, ?_, ?_⟩ <;> simp [exiting]
  exact ((Kindred.saveCall s _).trans h).wf hw

theorem exiting_children (p : PcbRef) : ((exiting s v).pcbs p).children = (s.pcbs p).children := by
  simp [exiting, saveCall]

/-- **The children of an exiting process all move to init** in a reachable state exactly if the
process is not init, or has no children. -/
theorem reparentsAll_iff (hr : run step boot es = .ok s) :
    ReparentsAll (exiting s v) ↔ s.running ≠ s.initPcb ∨ (s.pcbs s.running).children = [] := by
  have hw := exiting_kin (v := v) (run_kin hr)
  have hrun : (exiting s v).running = s.running := rfl
  have hinit : (exiting s v).initPcb = s.initPcb := rfl
  have hc : ((exiting s v).pcbs (exiting s v).running).children = (s.pcbs s.running).children :=
    exiting_children _
  constructor
  · intro h
    by_contra hn
    rw [not_or, not_not] at hn
    exact not_reparentsAll (hrun.trans (hn.1.trans hinit.symm)) (hc ▸ hn.2) h
  · intro h
    rcases h with h | h
    · exact reparentsAll hw h
    · exact reparentsAll_nil hw (hc.trans h)

/-- Init exits and has a child. -/
theorem init_not_reparentsAll : ∃ s, run step boot [.syscall (.spawn 0 0)] = .ok s ∧
    ¬ ReparentsAll (exiting s 0) := by
  have hc : (run step boot [.syscall (.spawn 0 0)]).toOption.any (fun s =>
      (exiting s 0).running = (exiting s 0).initPcb ∧
        ((exiting s 0).pcbs (exiting s 0).running).children ≠ []) = true := by decide +kernel
  obtain ⟨s, hr, hc⟩ := run_check hc
  obtain ⟨hinit, hne⟩ := of_decide_eq_true hc
  exact ⟨s, hr, not_reparentsAll hinit hne⟩

/-- The child of init has two children. -/
def branchingRun : List Event :=
  [.syscall (.spawn 0 0), .syscall .preempt, .syscall (.spawn 0 0), .syscall .fork]

theorem reparentsAll_branchingRun : ∃ s, run step boot branchingRun = .ok s ∧
    (s.pcbs s.running).children.length = 2 ∧ ReparentsAll (exiting s 0) := by
  have hc : (run step boot branchingRun).toOption.any (fun s =>
      s.running ≠ s.initPcb ∧ (s.pcbs s.running).children.length = 2) = true := by decide +kernel
  obtain ⟨s, hr, hc⟩ := run_check hc
  obtain ⟨hne, hlen⟩ := of_decide_eq_true hc
  exact ⟨s, hr, hlen, (reparentsAll_iff hr).2 (.inl hne)⟩

end

end DisastrOS
