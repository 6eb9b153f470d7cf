import DisastrOS.Proof.Zombies

/-!
# Signals

The kernel sends signals only in `exit`: SIGHUP to every child of the caller, SIGCHLD to its parent.
A process starts without any, its mask lets all of them through, and nothing takes a signal back. So
what a process has pending is exactly what it has been sent (`received`, `signals_exact`).
-/

namespace DisastrOS

open Lib State Relation

/-- What the event sends to process `p`. -/
def sent (s : State) (p : PcbRef) : Event → BitVec 32
  | .syscall (.exit _) =>
    (if p ∈ (s.pcbs s.running).children.map PCBPtr.pcb then dsosSighup else 0) |||
      if (s.pcbs s.running).parent = some p then dsosSigchld else 0
  | _ => 0

/-- What a run sends to it. -/
def received (s : State) (p : PcbRef) : List Event → BitVec 32
  | [] => 0
  | e :: es =>
    sent s p e ||| match step s e with
      | .ok s' => received s' p es
      | .error _ => 0

/-- The mask of `p` lets all signals through. -/
def Masked (p : PcbRef) (s : State) : Prop := (s.pcbs p).signalsMask = 0xFFFFFFFF

section
variable {s s' s₁ : State} {p q r parent : PcbRef} {n : Nat} {e : Event} {es es' : List Event}

/-! ## Calls other than `exit` -/

/-- A process keeps its signals, or has just been born without any. -/
theorem Effect.signals (h : Effect n r s s') (hn : n ≠ dsosCallExit) (p : PcbRef) :
    (s'.pcbs p).signals = (s.pcbs p).signals ∧ (s'.pcbs p).pid = (s.pcbs p).pid ∨
      (s'.pcbs p).signals = 0 ∧ (s'.pcbs p).pid = s.lastPid := by
  cases h with
  | minor h => exact .inl ⟨h.signals p, h.pid p⟩
  | @birth b =>
    by_cases hp : p = b
    · exact .inr (by simp [begun, hp])
    · exact .inl (by simp [begun, hp])
  | signal _ h => exact absurd h hn
  | deliver | report | purge | switch | found | push | pop | free => exact .inl ⟨rfl, rfl⟩
  | _ => exact .inl (by simp)

theorem Effects.signals (h : Effects n r s s') (hn : n ≠ dsosCallExit) (p : PcbRef) :
    s.lastPid ≤ s'.lastPid ∧ ((s'.pcbs p).signals = (s.pcbs p).signals ∧
      (s'.pcbs p).pid = (s.pcbs p).pid ∨
        (s'.pcbs p).signals = 0 ∧ s.lastPid ≤ (s'.pcbs p).pid) := by
  induction h with
  | refl => exact ⟨le_rfl, .inl ⟨rfl, rfl⟩⟩
  | tail _ he ih =>
    obtain ⟨hl, ih⟩ := ih
    have hl' := he.pids
    refine ⟨hl.trans ?_, ?_⟩
    · rcases hl' with ⟨b, -, hl', -⟩ | ⟨-, hl', -⟩ <;> omega
    · rcases he.signals hn p with ⟨h1, h2⟩ | ⟨h1, h2⟩
      · rw [h1, h2]
        exact ih
      · exact .inr ⟨h1, h2 ▸ hl⟩

/-! ## `exit` -/

theorem ite_or_ite {b : BitVec 32} {P Q : Prop} [Decidable P] [Decidable Q] :
    ((if P then b else 0) ||| if Q then b else 0) = if P ∨ Q then b else 0 := by
  by_cases hP : P <;> by_cases hQ : Q <;> simp [hP, hQ]

theorem signal_signals (sig : BitVec 32) (hm : (s.pcbs p).signalsMask = 0xFFFFFFFF) :
    ((s.signal q sig).pcbs p).signals =
      (s.pcbs p).signals ||| (if p = q then sig else 0) ∧
    ((s.signal q sig).pcbs p).signalsMask = 0xFFFFFFFF := by
  have hall : sig &&& 4294967295#32 = sig := BitVec.and_allOnes
  by_cases hq : p = q
  · subst hq
    simp [hm, hall]
  · simp [hq, hm]

/-- The loop that moves the children sends SIGHUP to each of them. -/
theorem reparentChildren_signals : ∀ (fuel : Nat) {s s' : State},
    reparentChildren fuel s = .ok s' → (s.pcbs p).signalsMask = 0xFFFFFFFF →
      (s'.pcbs p).signals = (s.pcbs p).signals |||
          (if p ∈ (s.pcbs s.running).children.map PCBPtr.pcb then dsosSighup else 0) ∧
        (s'.pcbs p).signalsMask = 0xFFFFFFFF
  | 0, _, _, h, _ => by cases h
  | fuel + 1, s, s', h, hm => by
    rw [reparentChildren] at h
    split at h
    · rename_i hc
      cases h
      simp [hc, hm]
    · rename_i item items hc
      set u := (s.setChildren s.running items).setChildren s.initPcb
        (((s.setChildren s.running items).pcbs s.initPcb).children ++ [item]) with hu
      have hu₁ : (u.pcbs p).signals = (s.pcbs p).signals ∧
          (u.pcbs p).signalsMask = 0xFFFFFFFF := by simp [hu, hm]
      have hch : ∀ q, q ∈ (u.pcbs u.running).children.map PCBPtr.pcb ∨ q = item.pcb ↔
          q ∈ (s.pcbs s.running).children.map PCBPtr.pcb := fun q => by
        rw [hc]
        by_cases hi : s.running = s.initPcb
        · simp [hu, hi, or_comm]
        · simp [hu, hi, or_comm]
      obtain ⟨h1, h2⟩ := signal_signals (q := item.pcb) dsosSighup hu₁.2
      obtain ⟨h3, h4⟩ := reparentChildren_signals fuel
        (s := u.signal item.pcb dsosSighup) h h2
      refine ⟨?_, h4⟩
      have hch' : ((u.signal item.pcb dsosSighup).pcbs
          (u.signal item.pcb dsosSighup).running).children = (u.pcbs u.running).children := by
        simp
      rw [h3, h1, hu₁.1, hch', BitVec.or_assoc, ite_or_ite]
      simp only [← hch p, or_comm]

theorem exit_signals (h : internalExit s = .ok s') (hm : (s.pcbs p).signalsMask = 0xFFFFFFFF) :
    (s'.pcbs p).signals = (s.pcbs p).signals |||
      ((if p ∈ (s.pcbs s.running).children.map PCBPtr.pcb then dsosSighup else 0) |||
        if (s.pcbs s.running).parent = some p then dsosSigchld else 0) := by
  obtain ⟨s₁, s₂, parent, h₁, h₂, hp, hor⟩ := exit_parts h
  have hparent : (s.pcbs s.running).parent = some parent := by
    rw [listInsert_pcbs h₂] at hp
    have hq := (Quiet.reparentChildren _ h₁).parent s.running
    simpa [hq] using hp
  obtain ⟨h3, h4⟩ := reparentChildren_signals (p := p) _ h₁ (by simpa using hm)
  have h5 : (s₂.pcbs p).signals = (s₁.pcbs p).signals ∧
      (s₂.pcbs p).signalsMask = 0xFFFFFFFF := by
    rw [listInsert_pcbs h₂]
    simpa using h4
  obtain ⟨h6, -⟩ := signal_signals (q := parent) dsosSigchld h5.2
  have hlast : (s'.pcbs p).signals = ((s₂.signal parent dsosSigchld).pcbs p).signals := by
    rcases hor with ⟨-, h⟩ | ⟨next, ps, -, rfl⟩
    · obtain ⟨u₁, u₂, u₃, hd, hm₂, -, hm₃, -, rfl⟩ := exitToParent_parts h
      refine (hm₃.signals p).trans ?_
      refine (congrArg (fun f : PcbRef → PCB => (f p).signals) storeResult_pcbs).trans ?_
      rw [hm₂.signals, ← hd.signals]
      simp
    · simp
  set u := s.updPcb s.running fun pcb => { pcb with returnValue := pcb.syscallArgs 0 } with hu
  have h7 : (u.pcbs p).signals = (s.pcbs p).signals := by
    by_cases hs : p = s.running <;> simp [hu, hs]
  have h8 : (u.pcbs u.running).children = (s.pcbs s.running).children := by simp [hu]
  rw [hlast, h6, h5.1, h3, h7, BitVec.or_assoc, hparent]
  simp only [Option.some.injEq, eq_comm, h8]

/-! ## Runs -/

/-- A birth sets the mask, and nothing else touches it. -/
theorem Effect.mask (h : Effect n r s s') (p : PcbRef) :
    (s'.pcbs p).signalsMask = (s.pcbs p).signalsMask ∨ (s'.pcbs p).signalsMask = 0xFFFFFFFF := by
  cases h with
  | minor h => exact .inl (h.signalsMask p)
  | @birth b =>
    by_cases hp : p = b
    · exact .inr (by simp [begun, hp])
    · exact .inl (by simp [begun, hp])
  | deliver | report | purge | switch | found | push | pop | free => exact .inl rfl
  | _ => exact .inl (by simp)

theorem Masked.effect (h : Effect n r s s') (hs : Masked p s) : Masked p s' :=
  (h.mask p).elim (fun he => he.trans hs) id

theorem Masked.saveCall (h : Masked p s) (c : Syscall) : Masked p (saveCall s c) := by
  unfold Masked at *
  simpa [DisastrOS.saveCall] using h

theorem Masked.step (h : Masked p s) (hs : step s e = .ok s') : Masked p s' :=
  step_effects (I := Masked p) (fun he h => h.effect he) (fun _ h => h) (fun c _ => h.saveCall c)
    (fun _ => h) (fun _ _ _ => h) hs

theorem Effect.pool (h : Effect n r s s') (hok : s.pcbPool.Ok) : s'.pcbPool.Ok := by
  rcases h.pids with ⟨p, hg, -⟩ | ⟨hpool, -⟩
  exacts [hok.get hg, (alloc_of_freed hpool hok).1]

theorem Effects.lastPid (h : Effects n r s s') : s.lastPid ≤ s'.lastPid := by
  induction h with
  | refl => exact le_rfl
  | tail _ he ih =>
    rcases he.pids with ⟨b, -, hl, -⟩ | ⟨-, hl, -⟩ <;> omega

theorem step_signals (hm : Masked p s) (hs : step s e = .ok s') : s.lastPid ≤ s'.lastPid ∧
    ((s'.pcbs p).signals = (s.pcbs p).signals ||| sent s p e ∧ (s'.pcbs p).pid = (s.pcbs p).pid ∨
      (s'.pcbs p).signals = 0 ∧ s.lastPid ≤ (s'.pcbs p).pid) := by
  cases e with
  | tick => simpa [sent] using (tick_effects hs).signals (by decide) p
  | store =>
    cases hs
    simp [sent]
  | syscall c =>
    have hc : ((saveCall s c).pcbs p).signals = (s.pcbs p).signals ∧
        ((saveCall s c).pcbs p).pid = (s.pcbs p).pid := by simp [saveCall]
    by_cases hn : c.num = dsosCallExit
    · obtain ⟨v, rfl⟩ := eq_exit_of_num hn
      have hexit := (step_syscall rfl).symm.trans hs
      have he := exit_effects (saveCall_num s (.exit v)) hexit
      refine ⟨he.lastPid, .inl ⟨?_, (he.pid (by decide) p).trans hc.2⟩⟩
      have hsig := exit_signals (p := p) hexit (hm.saveCall _)
      rw [hc.1] at hsig
      simpa [sent, saveCall] using hsig
    · have hsent : sent s p (.syscall c) = 0 := by
        cases c with
        | exit => exact absurd rfl hn
        | _ => rfl
      rw [hsent, ← hc.1, ← hc.2, show (0 : BitVec 32) = 0#32 from rfl, BitVec.or_zero]
      rcases syscall_effects hs with he | ⟨⟨m, rfl⟩, hd⟩
      · exact he.signals hn p
      · obtain ⟨b, pool, -, he⟩ := hd.effects
        exact he.signals (by decide) p

/-- A pid that was too young for `p` stays so. -/
theorem run_younger {k : Nat} (h : k < s.lastPid ∧ k < (s.pcbs p).pid ∧ Masked p s)
    (hr : run step s es = .ok s') : k < (s'.pcbs p).pid := by
  refine (run_inv' (I := fun s => k < s.lastPid ∧ k < (s.pcbs p).pid ∧ Masked p s)
    (A := fun _ => True) (fun s e s' h _ hs => ?_) h (fun _ _ => trivial) hr).2.1
  obtain ⟨hk, hp, hm⟩ := h
  obtain ⟨hl, hor⟩ := step_signals hm hs
  refine ⟨hk.trans_le hl, ?_, hm.step hs⟩
  rcases hor with ⟨-, he⟩ | ⟨-, he⟩
  · rwa [he]
  · exact hk.trans_le he

/-- As long as the block is that of one process, it gathers what is sent to it. -/
theorem run_signals (hm : Masked p s) (hb : (s.pcbs p).pid < s.lastPid)
    (hr : run step s es = .ok s') (hp : (s'.pcbs p).pid = (s.pcbs p).pid) :
    (s'.pcbs p).signals = (s.pcbs p).signals ||| received s p es := by
  induction es generalizing s with
  | nil =>
    cases hr
    simp [received]
  | cons e es ih =>
    obtain ⟨s₁, hs, hr⟩ := run_cons_inv hr
    obtain ⟨hl, ⟨hsig, hpid⟩ | ⟨-, hpid⟩⟩ := step_signals hm hs
    · rw [ih (hm.step hs) (by omega) hr (by rw [hp, hpid]), hsig, received, hs, BitVec.or_assoc]
    · have := run_younger ⟨hb.trans_le hl, hb.trans_le hpid, hm.step hs⟩ hr
      omega

/-- A block is allocated by a birth. -/
theorem Effect.fresh (h : Effect n r s s') (hok : s.pcbPool.Ok) (ha : s'.Alloc p) :
    s.Alloc p ∨ (n = dsosCallFork ∨ n = dsosCallSpawn) ∧ (s'.pcbs p).signals = 0 ∧ Masked p s' := by
  cases h with
  | birth hn _ hg =>
    rcases (hok.used_get hg).1 ha with rfl | ha
    · exact .inr ⟨hn, by simp [begun, Masked]⟩
    · exact .inl ha
  | free => exact .inl (Pool.used_of_release ha)
  | minor h => exact .inl (by unfold State.Alloc at *; rwa [← h.pcbPool])
  | deliver | report | purge | switch | found | push | pop => exact .inl ha
  | _ => exact .inl (by simpa [State.Alloc] using ha)

theorem Effects.fresh (h : Effects n r s s') (hok : s.pcbPool.Ok) :
    s'.pcbPool.Ok ∧ (s'.Alloc p → s.Alloc p ∨ (n = dsosCallFork ∨ n = dsosCallSpawn) ∧
      (s'.pcbs p).signals = 0 ∧ Masked p s') := by
  induction h with
  | refl => exact ⟨hok, .inl⟩
  | tail _ he ih =>
    obtain ⟨hok, ih⟩ := ih
    refine ⟨he.pool hok, fun ha => ?_⟩
    rcases he.fresh hok ha with ha | hb
    · refine (ih ha).imp_right fun ⟨hn, hsig, hm⟩ => ⟨hn, ?_, hm.effect he⟩
      rcases he.signals (by rcases hn with rfl | rfl <;> decide) p with ⟨h1, -⟩ | ⟨h1, -⟩
      exacts [h1.trans hsig, h1]
    · exact .inr hb

/-- A process is born without signals. -/
theorem step_fresh (hok : s.pcbPool.Ok) (hs : step s e = .ok s') (hb : ¬ s.Alloc p)
    (ha : s'.Alloc p) : (s'.pcbs p).signals = 0 ∧ Masked p s' := by
  cases e with
  | tick => exact (((tick_effects hs).fresh hok).2 ha).resolve_left hb |>.2
  | store =>
    cases hs
    exact absurd ha hb
  | syscall c =>
    rcases syscall_effects hs with he | ⟨-, hd⟩
    · exact ((he.fresh hok).2 ha).resolve_left hb |>.2
    · obtain ⟨b, pool, -, he⟩ := hd.effects
      exact ((he.fresh hok).2 ha).resolve_left hb |>.2

/-- **What is pending is what has been sent.** As long as a process lives, the signals that it has
pending are those that the exits of its parents and of its children have sent it since its birth. -/
theorem signals_exact (hr : run step boot es = .ok s) (hs : step s e = .ok s₁) (hb : ¬ s.Alloc p)
    (ha : s₁.Alloc p) (hr' : run step s₁ es' = .ok s')
    (hp : (s'.pcbs p).pid = (s₁.pcbs p).pid) : (s'.pcbs p).signals = received s₁ p es' := by
  have hn := run_named hr
  obtain ⟨h0, hm⟩ := step_fresh hn.pool hs hb ha
  rw [run_signals hm ((hn.step hs).bound p) hr' hp, h0]
  exact BitVec.zero_or

/-- Process 1 is there. -/
def parentRun : List Event := [.syscall (.spawn 0 0), .syscall (.wait 0 0)]

/-- Its child 2 has a child of its own, sees its parent exit, and then its child. -/
def hungUpRun : List Event :=
  [.syscall .preempt, .syscall (.spawn 0 0), .syscall (.wait 0 0), .syscall (.exit 0),
   .syscall (.wait 0 0), .syscall (.exit 0)]

theorem signals_exact_hungUp : ∃ s s₁ s', run step boot parentRun = .ok s ∧
    step s (.syscall (.spawn 0 0)) = .ok s₁ ∧ run step s₁ hungUpRun = .ok s' ∧
    (s'.pcbs 2).signals = dsosSighup ||| dsosSigchld ∧
    (s'.pcbs 2).signals = received s₁ 2 hungUpRun := by
  have hc : (run step boot parentRun).toOption.any (fun s => ¬ s.Alloc 2 ∧
      (step s (.syscall (.spawn 0 0))).toOption.any (fun s₁ => s₁.Alloc 2 ∧
        (run step s₁ hungUpRun).toOption.any (fun s' => (s'.pcbs 2).pid = (s₁.pcbs 2).pid ∧
          (s'.pcbs 2).signals = dsosSighup ||| dsosSigchld))) = true := by
    decide +kernel
  obtain ⟨s, hr, hc⟩ := run_check hc
  obtain ⟨hb, hc⟩ := of_decide_eq_true hc
  obtain ⟨s₁, hs, hc⟩ := ok_of_any hc
  obtain ⟨ha, hc⟩ := of_decide_eq_true hc
  obtain ⟨s', hr', hc⟩ := run_check hc
  obtain ⟨hp, hsig⟩ := of_decide_eq_true hc
  exact ⟨s, s₁, s', hr, hs, hr', hsig, signals_exact hr hs hb ha hr' hp⟩

end

end DisastrOS
