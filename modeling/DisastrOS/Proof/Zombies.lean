import DisastrOS.Proof.Calls
import DisastrOS.Proof.Reaping

/-!
# Pids and zombies

The allocated blocks have different pids (`run_named`), and no pid comes back once its block has been
freed (`absent_of_freed`). A zombie has exited with the value it holds (`zombie_exited`), and a block
is freed when its process is a zombie or exits (`step_freed`).
-/

namespace DisastrOS

open Lib State Relation

/-- In the run of `es`, process `k` has called `exit v`. -/
def Exited (es : List Event) (k : Nat) (v : Int) : Prop :=
  ∃ es₁ es₂ s₀, es = es₁ ++ .syscall (.exit v) :: es₂ ∧ run step boot es₁ = .ok s₀ ∧
    (s₀.pcbs s₀.running).pid = k

/-- The allocated blocks have different pids, all of which have been given out. -/
structure Named (s : State) : Prop where
  pool : s.pcbPool.Ok
  bound : ∀ p, (s.pcbs p).pid < s.lastPid
  inj : ∀ p q, s.Alloc p → s.Alloc q → (s.pcbs p).pid = (s.pcbs q).pid → p = q

/-- The pid `k` has been given out, and is that of no process but perhaps `z`. -/
structure Absent (z : Option PcbRef) (k : Nat) (s : State) : Prop where
  pool : s.pcbPool.Ok
  given : k < s.lastPid
  absent : ∀ p, z ≠ some p → s.Alloc p → (s.pcbs p).pid ≠ k

section
variable {s s' s₁ : State} {p q r z : PcbRef} {n k : Nat} {v : Int} {c : Syscall} {e : Event}
  {es es' : List Event} {o : Option PcbRef}

/-! ## Pids -/

/-- What an effect does to the blocks: one is born, with the next pid, or some are freed. -/
theorem Effect.pids (h : Effect n r s s') :
    (∃ p, s.pcbPool.get = some (p, s'.pcbPool) ∧ s'.lastPid = s.lastPid + 1 ∧
      (n = dsosCallFork ∨ n = dsosCallSpawn) ∧ (s'.pcbs p).status = .ready ∧
      ∀ q, (s'.pcbs q).pid = if q = p then s.lastPid else (s.pcbs q).pid) ∨
    (s'.pcbPool = s.pcbPool ∨ (n = dsosCallWait ∨ n = dsosCallExit) ∧
      ∃ p, s'.pcbPool = s.pcbPool.release p) ∧ s'.lastPid = s.lastPid ∧
      ∀ q, (s'.pcbs q).pid = (s.pcbs q).pid := by
  cases h with
  | minor h => exact .inr ⟨.inl h.pcbPool, h.lastPid, h.pid⟩
  | @birth p pool hn _ hg =>
    exact .inl ⟨p, hg, rfl, hn, by simp [begun], fun q => by simp [begun]⟩
  | @free p hn => exact .inr ⟨.inr ⟨hn.imp_right fun h => h.1, p, rfl⟩, rfl, fun _ => rfl⟩
  | deliver | report | purge | switch | found | push | pop =>
    exact .inr ⟨.inl rfl, rfl, fun _ => rfl⟩
  | _ => exact .inr ⟨.inl (by simp), by simp, by simp⟩

theorem alloc_of_freed {C : Prop} (hpool : s'.pcbPool = s.pcbPool ∨ C ∧
    ∃ p, s'.pcbPool = s.pcbPool.release p) (h : s.pcbPool.Ok) :
    s'.pcbPool.Ok ∧ ∀ q, s'.Alloc q → s.Alloc q := by
  unfold State.Alloc
  rcases hpool with hpool | ⟨-, p, hpool⟩ <;> rw [hpool]
  exacts [⟨h, fun _ => id⟩, ⟨h.release p, fun _ => Pool.used_of_release⟩]

theorem Named.effect (h : Effect n r s s') (hs : Named s) : Named s' := by
  rcases h.pids with ⟨p, hg, hl, -, -, hp⟩ | ⟨hpool, hl, hp⟩
  · have hall : ∀ q, s'.Alloc q ↔ q = p ∨ s.Alloc q := fun q => hs.pool.used_get hg
    have hb : ∀ q, (s.pcbs q).pid ≠ s.lastPid := fun q => (hs.bound q).ne
    refine ⟨hs.pool.get hg, fun q => ?_, fun q q' ha ha' he => ?_⟩
    · rw [hp, hl]
      split
      · exact Nat.lt_succ_self _
      · exact (hs.bound q).trans (Nat.lt_succ_self _)
    · rw [hp, hp] at he
      by_cases hq : q = p <;> by_cases hq' : q' = p
      · rw [hq, hq']
      · rw [if_pos hq, if_neg hq'] at he
        exact absurd he.symm (hb q')
      · rw [if_neg hq, if_pos hq'] at he
        exact absurd he (hb q)
      · rw [if_neg hq, if_neg hq'] at he
        exact hs.inj q q' (((hall q).1 ha).resolve_left hq) (((hall q').1 ha').resolve_left hq') he
  · have hsub := alloc_of_freed hpool hs.pool
    refine ⟨hsub.1, fun q => ?_, fun q q' ha ha' he => ?_⟩
    · rw [hp, hl]
      exact hs.bound q
    · rw [hp, hp] at he
      exact hs.inj q q' (hsub.2 q ha) (hsub.2 q' ha') he

theorem Absent.effect (h : Effect n r s s') (hs : Absent o k s) : Absent o k s' := by
  rcases h.pids with ⟨p, hg, hl, -, -, hp⟩ | ⟨hpool, hl, hp⟩
  · refine ⟨hs.pool.get hg, ?_, fun q ho ha => ?_⟩
    · rw [hl]
      exact hs.given.trans (Nat.lt_succ_self _)
    · rw [hp]
      split
      · exact hs.given.ne'
      · rename_i hq
        exact hs.absent q ho (((hs.pool.used_get hg).1 ha).resolve_left hq)
  · have hsub := alloc_of_freed hpool hs.pool
    refine ⟨hsub.1, hl ▸ hs.given, fun q ho ha => ?_⟩
    rw [hp]
    exact hs.absent q ho (hsub.2 q ha)

theorem Named.saveCall (h : Named s) (c : Syscall) : Named (saveCall s c) := by
  have hp : ∀ p, ((DisastrOS.saveCall s c).pcbs p).pid = (s.pcbs p).pid := fun p => by
    simp [DisastrOS.saveCall]
  refine ⟨h.pool, fun p => ?_, fun p q ha ha' he => h.inj p q ha ha' ?_⟩
  · rw [hp]
    exact h.bound p
  · rwa [hp, hp] at he

theorem Absent.saveCall (h : Absent o k s) (c : Syscall) : Absent o k (saveCall s c) :=
  ⟨h.pool, h.given, fun p ho ha => by
    have := h.absent p ho ha
    simpa [DisastrOS.saveCall] using this⟩

theorem Named.step (h : Named s) (hs : step s e = .ok s') : Named s' :=
  step_effects (I := Named) (fun he h => h.effect he) (fun _ h => ⟨h.pool, h.bound, h.inj⟩)
    (fun c _ => h.saveCall c) (fun _ => ⟨h.pool, h.bound, h.inj⟩)
    (fun _ _ _ => ⟨h.pool, h.bound, h.inj⟩) hs

theorem Absent.step (h : Absent o k s) (hs : step s e = .ok s') : Absent o k s' :=
  step_effects (I := Absent o k) (fun he h => h.effect he) (fun _ h => ⟨h.pool, h.given, h.absent⟩)
    (fun c _ => h.saveCall c) (fun _ => ⟨h.pool, h.given, h.absent⟩)
    (fun _ _ _ => ⟨h.pool, h.given, h.absent⟩) hs

theorem run_named (hr : run step boot es = .ok s) : Named s := by
  refine run_inv' (A := fun _ => True) (fun _ _ _ h _ hs => h.step hs) ?_ (fun _ _ => trivial) hr
  obtain ⟨pool, hg, he⟩ := boot_eq
  have hall : ∀ p, boot.Alloc p → p = 0 := fun p hp => by
    rw [he] at hp
    exact (((Pool.ok_init _).used_get hg).1 hp).resolve_right (Pool.not_used_init _ _)
  refine ⟨?_, fun p => ?_, fun p q hp hq _ => (hall p hp).trans (hall q hq).symm⟩
  · rw [he]
    exact (Pool.ok_init _).get hg
  · rw [he]
    by_cases hp : p = 0 <;> simp [booted, initProcess, hp]

/-! ## Zombies -/

/-- A status other than that of a zombie is set. -/
theorem zombie_setStatus {st : ProcessStatus} (hst : st ≠ .zombie)
    (hz : ((s.setStatus p st).pcbs z).status = .zombie) : (s.pcbs z).status = .zombie := by
  by_cases hp : z = p
  · simp [hp, hst] at hz
  · simpa [hp] using hz

theorem Effect.zombie (h : Effect n r s s') (hz : (s'.pcbs z).status = .zombie) :
    (s.pcbs z).status = .zombie ∧ (s'.pcbs z).returnValue = (s.pcbs z).returnValue ∨
      z = r ∧ n = dsosCallExit ∧ (s'.pcbs z).returnValue = (s.pcbs r).syscallArgs 0 := by
  cases h with
  | minor h => exact .inl ⟨h.status z ▸ hz, h.returnValue z⟩
  | birth =>
    simp only [begun] at hz ⊢
    split at hz
    · cases hz
    · rename_i hp
      exact .inl ⟨hz, by simp [hp]⟩
  | wake | yield | giveUp | serve =>
    refine .inl ⟨?_, by simp⟩
    simpa using zombie_setStatus (by simp) hz
  | preempt | block | rouse => exact .inl ⟨zombie_setStatus (by simp) hz, by simp⟩
  | value hn =>
    by_cases hp : z = r
    · exact .inr ⟨hp, hn, by simp [hp]⟩
    · exact .inl ⟨by simpa [hp] using hz, by simp [hp]⟩
  | retire hn _ hv =>
    by_cases hp : z = r
    · exact .inr ⟨hp, hn, by simpa [hp] using hv⟩
    · exact .inl ⟨by simpa [hp] using hz, by simp⟩
  | enqueue | queueUp => exact .inl ⟨by simpa using hz, by simp⟩
  | signal => exact .inl ⟨by simpa using hz, by simp⟩
  | _ => exact .inl ⟨hz, rfl⟩

theorem Effects.pid (h : Effects n r s s') (hn : n ≠ dsosCallFork ∧ n ≠ dsosCallSpawn)
    (p : PcbRef) :
    (s'.pcbs p).pid = (s.pcbs p).pid := by
  induction h with
  | refl => rfl
  | tail _ he ih =>
    rcases he.pids with ⟨-, -, -, hb, -⟩ | ⟨-, -, hp⟩
    · exact absurd hb (not_or.2 hn)
    · exact (hp p).trans ih

/-- A process becomes a zombie by its own `exit`, with the value it passes. -/
theorem Effects.zombie (h : Effects n r s s') (hz : (s'.pcbs z).status = .zombie) :
    (s'.pcbs z).pid = (s.pcbs z).pid ∧
      ((s.pcbs z).status = .zombie ∧ (s'.pcbs z).returnValue = (s.pcbs z).returnValue ∨
        z = r ∧ n = dsosCallExit ∧ (s'.pcbs z).returnValue = (s.pcbs r).syscallArgs 0) := by
  induction h with
  | refl => exact ⟨rfl, .inl ⟨hz, rfl⟩⟩
  | @tail u s' hu he ih =>
    have hall : Effects n r s s' := hu.tail he
    rcases he.zombie hz with ⟨hz', hv⟩ | ⟨rfl, rfl, hv⟩
    · obtain ⟨hp, h1⟩ := ih hz'
      refine ⟨?_, by rw [hv]; exact h1⟩
      rcases he.pids with ⟨p, -, -, -, hst, hpid⟩ | ⟨-, -, hpid⟩
      · rw [hpid, if_neg, hp]
        rintro rfl
        rw [hst] at hz
        cases hz
      · exact (hpid z).trans hp
    · refine ⟨hall.pid (by decide) z, .inr ⟨rfl, rfl, ?_⟩⟩
      rw [hv, (Effects.saved hu z).2]

/-- The call has a number; only `exit` has that of `exit`. -/
theorem eq_exit_of_num (h : c.num = dsosCallExit) : ∃ v, c = .exit v := by
  cases c with
  | exit v => exact ⟨v, rfl⟩
  | _ => cases h

theorem step_zombie (hs : step s e = .ok s') (hz : (s'.pcbs z).status = .zombie) :
    (s'.pcbs z).pid = (s.pcbs z).pid ∧
      ((s.pcbs z).status = .zombie ∧ (s'.pcbs z).returnValue = (s.pcbs z).returnValue ∨
        z = s.running ∧ e = .syscall (.exit (s'.pcbs z).returnValue)) := by
  cases e with
  | tick =>
    obtain ⟨h1, h2⟩ := (tick_effects hs).zombie hz
    exact ⟨h1, .inl (h2.resolve_right fun h => by cases h.2.1)⟩
  | store =>
    cases hs
    exact ⟨rfl, .inl ⟨hz, rfl⟩⟩
  | syscall c =>
    have hc : ∀ p, ((saveCall s c).pcbs p).pid = (s.pcbs p).pid ∧
        ((saveCall s c).pcbs p).status = (s.pcbs p).status ∧
        ((saveCall s c).pcbs p).returnValue = (s.pcbs p).returnValue := fun p => by simp [saveCall]
    rcases syscall_effects hs with he | ⟨⟨n, rfl⟩, hd⟩
    · obtain ⟨h1, h2⟩ := he.zombie hz
      rw [(hc z).1, (hc z).2.1, (hc z).2.2] at *
      refine ⟨h1, h2.imp_right fun h => ⟨h.1, ?_⟩⟩
      obtain ⟨-, hn, hv⟩ := h
      obtain ⟨v, rfl⟩ := eq_exit_of_num hn
      have : ((saveCall s (.exit v)).pcbs s.running).syscallArgs 0 = v :=
        saveCall_args s (.exit v) 0
      rw [hv, this]
    · obtain ⟨b, pool, -, he⟩ := hd.effects
      obtain ⟨h1, h2⟩ := he.zombie hz
      have h3 := h2.resolve_right fun h => by cases h.2.1
      exact ⟨h1.trans (hc z).1, .inl ⟨(hc z).2.1 ▸ h3.1, h3.2.trans (hc z).2.2⟩⟩

theorem Exited.append (h : Exited es k v) (es' : List Event) : Exited (es ++ es') k v := by
  obtain ⟨es₁, es₂, s₀, rfl, hr, hk⟩ := h
  exact ⟨es₁, es₂ ++ es', s₀, by simp, hr, hk⟩

/-- A zombie has exited with the value it holds. -/
theorem zombie_exited (hr : run step boot es = .ok s) (hz : (s.pcbs z).status = .zombie) :
    Exited es (s.pcbs z).pid (s.pcbs z).returnValue := by
  induction es using List.reverseRecOn generalizing s with
  | nil =>
    obtain ⟨pool, -, he⟩ := boot_eq
    have hs : s = booted pool := (Except.ok.inj hr).symm.trans he
    rw [hs] at hz
    by_cases hp : z = 0 <;> simp [booted, initProcess, hp] at hz
  | append_singleton es e ih =>
    obtain ⟨s₁, h₁, hs⟩ := run_snoc_inv hr
    obtain ⟨hp, ⟨hz', hv⟩ | ⟨hrun, he⟩⟩ := step_zombie hs hz
    · rw [hp, hv]
      exact (ih h₁ hz').append [e]
    · exact ⟨es, [], s₁, by rw [← he], h₁, by rw [← hrun, hp]⟩

/-! ## Whose block is freed -/

theorem eq_of_freed {a : Pool} {b i : Nat} (h : a.Used i) (hf : ¬ (a.release b).Used i) :
    i = b := by
  by_contra hne
  refine hf ?_
  by_cases hb : a.Used b
  · exact (Pool.used_release hb).2 ⟨hne, h⟩
  · unfold Pool.release
    rwa [if_neg hb]

theorem waitSleep_pcbPool (h : internalWait.waitSleep s p = .ok s') : s'.pcbPool = s.pcbPool := by
  obtain ⟨s₁, h₁, h⟩ := bind_eq_ok.1 h
  obtain ⟨⟨q, s₂⟩, h₂, h⟩ := bind_eq_ok.1 h
  obtain ⟨qs, -, rfl⟩ := listDetachFirst_cases h₂
  cases h
  have hp := listInsert_pcbPool h₁
  simpa using hp

theorem wait_freed (h : Sane s) (hs : internalWait s = .ok s') (ha : s.Alloc z)
    (hf : ¬ s'.Alloc z) : (s.pcbs z).status = .zombie := by
  by_cases hc : (s.pcbs s.running).children = []
  · unfold internalWait at hs
    dsimp only at hs
    rw [if_pos hc] at hs
    cases hs
    exact absurd ha hf
  obtain ⟨e, -, -, heq⟩ := internalWait_eq h hc
  rw [heq, waitAt] at hs
  split at hs
  · rename_i hz
    split at hs <;> cases hs
    obtain rfl : z = e.pcb := eq_of_freed ha hf
    exact hz
  · unfold State.Alloc at ha hf
    rw [waitSleep_pcbPool hs] at hf
    exact absurd ha hf

theorem exitToParent_pcbPool {parent : PcbRef} (h : exitToParent s p parent = .ok s') :
    s'.pcbPool = s.pcbPool.release p := by
  obtain ⟨s₁, s₂, s₃, hd, hm, -, hm₃, -, rfl⟩ := exitToParent_parts h
  have hpool : (storeResult s₂ ((s₂.pcbs parent).syscallArgs 1) (s₂.pcbs p).returnValue).pcbPool =
      s.pcbPool := by
    rw [storeResult_mem]
    exact hm.pcbPool.trans hd.pcbPool
  show s₃.pcbPool.release p = _
  rw [hm₃.pcbPool]
  exact congrArg (·.release p) hpool

theorem exit_freed (hs : internalExit s = .ok s') (ha : s.Alloc z) (hf : ¬ s'.Alloc z) :
    z = s.running := by
  obtain ⟨s₁, s₂, parent, h₁, h₂, -, hor⟩ := exit_parts hs
  have hpool₂ : s₂.pcbPool = s.pcbPool :=
    (listInsert_pcbPool h₂).trans (Quiet.reparentChildren _ h₁).pcbPool
  unfold State.Alloc at ha hf
  rcases hor with ⟨-, h⟩ | ⟨p, ps, hL, rfl⟩
  · refine eq_of_freed ha fun hu => hf ?_
    rw [exitToParent_pcbPool h]
    exact hpool₂ ▸ hu
  · rw [← hpool₂] at ha
    exact absurd ha hf

/-- Only `wait` and `exit` free the block of a process. -/
theorem Effects.alloc (h : Effects n r s s') (hn : n ≠ dsosCallWait ∧ n ≠ dsosCallExit)
    (hok : s.pcbPool.Ok) (ha : s.Alloc z) : s'.pcbPool.Ok ∧ s'.Alloc z := by
  induction h with
  | refl => exact ⟨hok, ha⟩
  | tail _ he ih =>
    obtain ⟨h1, h2⟩ := ih
    unfold State.Alloc at h2 ⊢
    rcases he.pids with ⟨p, hg, -⟩ | ⟨hp | ⟨hb, -⟩, -⟩
    · exact ⟨h1.get hg, (h1.used_get hg).2 (.inr h2)⟩
    · rw [hp]
      exact ⟨h1, h2⟩
    · exact absurd hb (not_or.2 hn)

theorem step_freed (h : Sane s) (hs : step s e = .ok s') (ha : s.Alloc z) (hf : ¬ s'.Alloc z) :
    (s.pcbs z).status = .zombie ∨ z = s.running ∧ ∃ v, e = .syscall (.exit v) := by
  cases e with
  | tick => exact absurd ((tick_effects hs).alloc (by decide) h.table.pool ha).2 hf
  | store =>
    cases hs
    exact absurd ha hf
  | syscall c =>
    have hother : c.num ≠ dsosCallWait → c.num ≠ dsosCallExit → s'.Alloc z := fun hw he => by
      rcases syscall_effects hs with heff | ⟨-, hd⟩
      · exact (heff.alloc ⟨hw, he⟩ h.table.pool ha).2
      · obtain ⟨b, pool, -, heff⟩ := hd.effects
        exact (heff.alloc (by decide) h.table.pool ha).2
    cases c with
    | wait pid result =>
      have hz := wait_freed (h.saveCall (.wait pid result)) ((step_syscall rfl).symm.trans hs) ha hf
      exact .inl (by simpa [saveCall] using hz)
    | exit v =>
      have hz := exit_freed (s := saveCall s (.exit v)) ((step_syscall rfl).symm.trans hs) ha hf
      exact .inr ⟨hz, v, rfl⟩
    | _ => exact absurd (hother (Nat.ne_of_beq_eq_false rfl) (Nat.ne_of_beq_eq_false rfl)) hf

theorem absent_of_freed (h : Named s) (hs : step s e = .ok s') (ha : s.Alloc z)
    (hf : ¬ s'.Alloc z) : Absent none (s.pcbs z).pid s' := by
  have h0 : Absent (some z) (s.pcbs z).pid s := ⟨h.pool, h.bound z, fun p hp ha' he =>
    hp (congrArg some (h.inj p z ha' ha he).symm)⟩
  have h1 := h0.step hs
  exact ⟨h1.pool, h1.given,
    fun p _ ha' => h1.absent p (fun he => hf (Option.some.inj he ▸ ha')) ha'⟩

end

end DisastrOS
