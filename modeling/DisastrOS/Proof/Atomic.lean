import DisastrOS.Proof.Unread
import DisastrOS.Proof.Calls

/-!
# Syscalls are atomic

Between the instructions of `disastrOS_syscall` the clock may tick and others may make calls. All
the same a run of instructions and ticks is a run of whole calls (`calls_atomic`), each taking place
when its process traps: it leads to the state that the whole calls lead to, but for what the
processes have stored of calls that are still to come, and it stops if and only if they stop.

The ticks are those that come while user code runs, up to the `swapcontext` to the trap. That the
trap itself is not cut is assumed: `execInstr` takes it as one instruction, and an alarm that is
pending at its closing `setcontext` is outside of this.

This needs that a process begins a call while its status says that it runs. After a `sleep` with
nobody to run instead a process goes on with the status of a sleeper, and an exiting child may take
the half-stored call of such a process for a `wait` that has been made (`stalledRun`).
-/

namespace DisastrOS

open Lib State Relation

/-- `p` is a process that runs or is ready. -/
structure Active (p : PcbRef) (s : State) : Prop where
  pool : s.pcbPool.Ok
  alloc : s.Alloc p
  waiting : (s.pcbs p).status ≠ .waiting
  zombie : (s.pcbs p).status ≠ .zombie

/-- A call is begun by a process whose status says that it runs. -/
def Micro.Begins (m : Micro) : MicroEvent → Prop
  | .instr (.enter _) =>
    m.calling m.state.running = none → (m.state.pcbs m.state.running).status = .running
  | _ => True

instance (m : Micro) (e : MicroEvent) : Decidable (m.Begins e) := by
  unfold Micro.Begins
  split <;> infer_instance

/-- A call without anything in between: it is entered, its arguments and its number are stored, and
it traps. -/
def Event.uncut : Event → List MicroEvent
  | .tick => [.tick]
  | .store addr bytes => [.instr (.store addr bytes)]
  | .syscall c => List.replicate (c.args.length + 3) (.instr (.enter c))

/-- Process `p` is at `d`, and nobody else is in a call. -/
def only (p : PcbRef) (d : Option Draft) : PcbRef → Option Draft :=
  fun i => if i = p then d else none

/-- `m` is in the state `s`, but for what has been stored of calls that are not finished. The
processes at those calls run or are ready. -/
structure UpToDrafts (s : State) (m : Micro) : Prop where
  state : m.state = s.withDrafts m.calling
  placed : ∀ p, m.calling p ≠ none → p = s.running ∨ p ∈ s.readyList

/-- What holds of the two throughout. -/
structure Midway (s : State) (m : Micro) : Prop where
  sane : Sane s
  state : m.state = s.withDrafts m.calling
  awake : ∀ p, m.calling p ≠ none → Active p s
  bound : ∀ p c i, m.calling p = some ⟨c, .arg i⟩ → i ≤ c.args.length

section
variable {s s' : State} {m : Micro} {p r : PcbRef} {n : Nat} {c : Syscall} {ds : List MicroEvent}

theorem syscallNumarg_num (c : Syscall) : syscallNumarg c.num = c.args.length := by
  cases c <;> rfl

/-! ## Who is active stays active -/

namespace Active

theorem congr (h : Active p s) (hpool : s'.pcbPool = s.pcbPool)
    (hst : (s'.pcbs p).status = (s.pcbs p).status) : Active p s' :=
  ⟨hpool ▸ h.pool, by
    unfold State.Alloc
    rw [hpool]
    exact h.alloc, hst ▸ h.waiting, hst ▸ h.zombie⟩

theorem setStatus (h : Active p s) (q : PcbRef) (st : ProcessStatus)
    (hq : q ≠ p ∨ st ≠ .waiting ∧ st ≠ .zombie) : Active p (s.setStatus q st) := by
  by_cases hp : p = q
  · have hst := hq.resolve_left fun hne => hne hp.symm
    exact ⟨h.pool, h.alloc, by simp [hp, hst], by simp [hp, hst]⟩
  · exact h.congr rfl (by simp [hp])

end Active

/-- Only the caller comes to wait or exits. -/
theorem Effect.active (h : Effect n r s s') (hp : p ≠ r ∨ n = dsosCallPreempt) (ha : Active p s) :
    Active p s' := by
  have hother : n ≠ dsosCallPreempt → r ≠ p := fun hn => (hp.resolve_right hn).symm
  cases h with
  | minor h => exact ha.congr h.pcbPool (h.status p)
  | @wake t =>
    exact (ha.setStatus t.pcb .ready (.inr (by decide))).congr (by simp) (by simp)
  | @yield q => exact (ha.setStatus q .running (.inr (by decide))).congr (by simp) (by simp)
  | @serve _ _ q => exact (ha.setStatus q .ready (.inr (by decide))).congr (by simp) (by simp)
  | giveUp => exact (ha.setStatus r .running (.inr (by decide))).congr (by simp) (by simp)
  | preempt => exact ha.setStatus _ _ (.inr (by decide))
  | rouse => exact ha.setStatus _ _ (.inr (by decide))
  | block hn =>
    exact ha.setStatus r _ (.inl (hother (by rcases hn with rfl | rfl | rfl | rfl <;> decide)))
  | retire hn => exact ha.setStatus r _ (.inl (hother (by rw [hn]; decide)))
  | @birth b pool _ _ hg =>
    have hb : p ≠ b := fun he => Pool.not_used_get hg (he ▸ ha.alloc)
    exact ⟨ha.pool.get hg, (ha.pool.used_get hg).2 (.inr ha.alloc),
      by simpa [begun, hb] using ha.waiting, by simpa [begun, hb] using ha.zombie⟩
  | @free b _ hz =>
    have hb : p ≠ b := fun he => ha.zombie (he ▸ hz)
    exact ⟨ha.pool.release b, Pool.used_of_ne hb ha.alloc, ha.waiting, ha.zombie⟩
  | push | pop | found | deliver | report | purge | switch => exact ha.congr rfl rfl
  | _ => exact ha.congr (by simp) (by simp)

theorem Effects.active (h : Effects n r s s') (hp : p ≠ r ∨ n = dsosCallPreempt)
    (ha : Active p s) : Active p s' := by
  induction h with
  | refl => exact ha
  | tail _ he ih => exact he.active hp ih

/-- What is not the running process stays active, and everything does in a tick. -/
theorem step_active {e : Event} (h : step s e = .ok s')
    (hp : ∀ c, e = .syscall c → p ≠ s.running) (ha : Active p s) : Active p s' := by
  cases e with
  | tick => exact (tick_effects h).active (.inr rfl) (ha.congr rfl rfl)
  | store addr bytes =>
    cases h
    exact ha.congr rfl rfl
  | syscall c =>
    have hp := hp c rfl
    have ha₀ : Active p (saveCall s c) := ha.congr rfl (by simp [saveCall])
    rcases syscall_effects h with he | ⟨-, hd⟩
    · exact he.active (.inl hp) ha₀
    · obtain ⟨b, pool, -, he⟩ := hd.effects
      exact he.active (.inl hp) (ha₀.congr rfl rfl)

/-- Whoever is active runs or is ready. -/
theorem Active.placed (ha : Active p s) (h : Sane s) : p = s.running ∨ p ∈ s.readyList := by
  by_cases hp : p = s.running
  · exact .inl hp
  · obtain ⟨L, hL⟩ := h.table.total ha.alloc (by simpa using hp)
    have hst : (s.pcbs p).status = L.status :=
      (h.table.status hL).resolve_right fun hz => ha.zombie hz.2
    cases L with
    | ready => exact .inr hL
    | zombie => exact absurd hst ha.zombie
    | _ => exact absurd hst ha.waiting

theorem Active.unparked (ha : Active p s) (h : Sane s) {L : PcbList} (hL : L.status = .waiting) :
    p ∉ s.list L := fun hm => by
  rcases h.table.status hm with hst | ⟨-, hst⟩
  · exact ha.waiting (hst.trans hL)
  · exact ha.zombie hst

/-! ## The instructions of a call -/

@[simp] theorem updPcb_self : s.updPcb p (fun pcb => pcb) = s := by
  simp only [State.updPcb, ite_self]

/-- One more argument. -/
theorem scribble_arg (c : Syscall) (i : Nat) (a : PCB) :
    (fun pcb : PCB => { pcb with
      syscallArgs := fun j => if j = i then c.args.getD i 0 else pcb.syscallArgs j })
      (scribble (some ⟨c, .arg i⟩) a) = scribble (some ⟨c, .arg (i + 1)⟩) a := by
  have : (fun j => if j = i then c.args.getD i 0 else if j < i then c.args.getD j 0
      else a.syscallArgs j) =
      fun j => if j < i + 1 then c.args.getD j 0 else a.syscallArgs j := by
    funext j
    by_cases hj : j = i
    · simp [hj]
    · simp only [hj, if_false, Nat.lt_succ_iff_lt_or_eq, or_false]
  simp only [scribble, draftArgs, draftNum, this]

/-- After the last argument, the number. -/
theorem scribble_num (c : Syscall) (a : PCB) :
    (fun pcb : PCB => { pcb with syscallNum := c.num })
      (scribble (some ⟨c, .arg c.args.length⟩) a) = scribble (some ⟨c, .trap⟩) a := by
  have : (fun j => if j < c.args.length then c.args.getD j 0 else a.syscallArgs j) =
      fun j => c.args.getD j (a.syscallArgs j) := by
    funext j
    split
    · rename_i hj
      simp [List.getD_eq_getElem?_getD, hj]
    · rename_i hj
      simp [List.getD_eq_getElem?_getD, Nat.not_lt.1 hj]
  simp only [scribble, draftArgs, draftNum, this]

/-- The running process stores one thing more. -/
theorem withDrafts_updPcb {ds : PcbRef → Option Draft} {f : PCB → PCB} {d : Draft}
    (hf : ∀ a, f (scribble (ds p) a) = scribble (some d) a) :
    (s.withDrafts ds).updPcb p f = s.withDrafts fun i => if i = p then some d else ds i := by
  refine congrArg (fun g : PcbRef → PCB => ({ s with pcbs := g } : State)) (funext fun i => ?_)
  by_cases hi : i = p
  · simp [hi, hf]
  · simp [hi]

/-- The saved call is complete when the call traps. -/
theorem issueCall_withDrafts {ds : PcbRef → Option Draft}
    (hd : ds s.running = some ⟨c, .trap⟩) : issueCall (s.withDrafts ds) c =
      (saveCall s c).withDrafts fun i => if i = s.running then none else ds i := by
  refine congrArg (fun g : PcbRef → PCB => ({ saveCall s c with pcbs := g } : State))
    (funext fun p => ?_)
  by_cases hp : p = s.running
  · simp [saveCall, hp, hd, scribble, draftArgs, draftNum]
  · simp [saveCall, hp]

namespace Midway

theorem drafted (h : Midway s m) : Drafted m.calling s m.state :=
  ⟨h.state, fun p hp => (h.awake p hp).waiting, fun p hp _ hL => (h.awake p hp).unparked h.sane hL⟩

theorem running (h : Midway s m) : m.state.running = s.running := by
  rw [h.state]
  rfl

/-- The running process has stored one thing more. -/
theorem redraft (h : Midway s m) {f : PCB → PCB} {d : Draft} (hr : Active s.running s)
    (hf : ∀ a, f (scribble (m.calling s.running) a) = scribble (some d) a)
    (hd : ∀ c i, d = ⟨c, .arg i⟩ → i ≤ c.args.length) :
    Midway s
      ({ m with state := m.state.updPcb s.running f }.setCalling s.running (some d)) := by
  refine ⟨h.sane, ?_, fun p hp => ?_, fun p c i hp => ?_⟩
  · rw [Micro.setCalling, h.state]
    exact withDrafts_updPcb hf
  · by_cases he : p = s.running
    · exact he ▸ hr
    · exact h.awake p (by simpa [Micro.setCalling, he] using hp)
  · by_cases he : p = s.running
    · simp only [Micro.setCalling, he, if_true, Option.some.injEq] at hp
      exact hd c i hp
    · exact h.bound p c i (by simpa [Micro.setCalling, he] using hp)

/-- Nothing has happened until the call traps. -/
theorem skip {e : MicroEvent} (h : Midway s m) (hb : m.Begins e) (he : m.event e = none) :
    ∃ m', microStep m e = .ok m' ∧ Midway s m' := by
  have hrun := h.running
  cases e with
  | tick => cases he
  | instr u =>
    simp only [microStep, execInstr, Micro.event, hrun] at he ⊢
    cases hd : m.calling s.running with
    | none =>
      rw [hd] at he
      cases u with
      | store addr bytes => cases he
      | enter c =>
        have hst : (s.pcbs s.running).status = .running := by
          have := hb (hrun ▸ hd)
          rw [hrun, h.state] at this
          exact this
        have hr : Active s.running s :=
          ⟨h.sane.table.pool, h.sane.alloc, by simp [hst], by simp [hst]⟩
        have h1 := h.redraft (f := fun pcb => pcb) (d := ⟨c, .arg 0⟩) hr
          (fun a => by rw [hd]; rfl) fun _ _ hi => by
            cases hi
            exact Nat.zero_le _
        rw [updPcb_self] at h1
        exact ⟨_, rfl, h1⟩
    | some d =>
      have hr := h.awake s.running (by simp [hd])
      rw [hd] at he
      obtain ⟨c, i | -⟩ := d
      · dsimp only
        rw [syscallNumarg_num]
        have hle := h.bound s.running c i hd
        split
        · rename_i hi
          refine ⟨_, rfl, h.redraft hr (fun a => ?_) fun _ _ hi' => ?_⟩
          · rw [hd]
            exact scribble_arg c i a
          · cases hi'
            exact hi
        · rename_i hi
          obtain rfl : i = c.args.length := le_antisymm hle (Nat.not_lt.1 hi)
          refine ⟨_, rfl, h.redraft hr (fun a => ?_) fun _ _ hi' => ?_⟩
          · rw [hd]
            exact scribble_num c a
          · cases hi'
      · cases he

/-- Whoever is in a call when the running process has left its own. -/
theorem others_calling {ds : PcbRef → Option Draft} (hp : (if p = r then none else ds p) ≠ none) :
    p ≠ r ∧ ds p ≠ none := by
  split at hp
  · exact absurd rfl hp
  · rename_i hne
    exact ⟨hne, hp⟩

/-- The call of the running process is saved when it traps. -/
theorem issue (h : Midway s m) (hd : m.calling s.running = some ⟨c, .trap⟩) :
    Drafted (fun p => if p = s.running then none else m.calling p) (saveCall s c)
      (issueCall m.state c) := by
  refine ⟨?_, fun p hp => ?_, fun p hp L hL => ?_⟩
  · rw [h.state]
    exact issueCall_withDrafts hd
  · obtain ⟨h1, h2⟩ := others_calling hp
    simpa [saveCall, h1] using (h.awake p h2).waiting
  · rw [list_saveCall]
    exact h.drafted.parked p (others_calling hp).2 L hL

/-- An event takes place in both. -/
theorem step {d : MicroEvent} {e : Event} (h : Midway s m) (he : m.event d = some e) :
    Corresponds Midway (step s e) (microStep m d) := by
  cases d with
  | tick =>
    cases he
    refine h.drafted.tick.bind_ok fun a b hs hab => ?_
    exact ⟨(step_steps h.sane (e := .tick) hs).sane, hab.eq,
      fun p hp => step_active (e := .tick) hs nofun (h.awake p hp), h.bound⟩
  | instr u =>
    simp only [Micro.event, h.running] at he
    simp only [microStep, execInstr, h.running]
    cases hd : m.calling s.running with
    | none =>
      rw [hd] at he
      cases u with
      | enter c => cases he
      | store addr bytes =>
        cases he
        have h1 := h.drafted.globals (fun u => { u with mem := memWrite u.mem addr bytes })
          (fun _ => rfl) fun _ => rfl
        obtain ⟨t, calling⟩ := m
        obtain rfl : t = s.withDrafts calling := h.state
        exact ⟨(step_steps h.sane (e := .store addr bytes) rfl).sane, h1.eq,
          fun p hp => step_active (e := .store addr bytes) rfl nofun (h.awake p hp), h.bound⟩
    | some d =>
      rw [hd] at he
      obtain ⟨c, i | -⟩ := d
      · cases he
      · cases he
        refine ((h.issue hd).trap (if_pos rfl)).bind_ok fun a b hs hab => ?_
        have hs : DisastrOS.step s (.syscall c) = .ok a := hs
        refine ⟨(step_steps h.sane hs).sane, hab.eq, fun p hp => ?_, fun p c' i hp => ?_⟩
        · obtain ⟨h1, h2⟩ := others_calling hp
          exact step_active hs (fun _ _ => h1) (h.awake p h2)
        · by_cases he : p = s.running
          · simp [Micro.setCalling, he] at hp
          · exact h.bound p c' i (by simpa [Micro.setCalling, he] using hp)

end Midway

/-! ## Calls without anything in between -/

theorem only_self {d : Option Draft} : only p d p = d := if_pos rfl

theorem set_only {d d' : Option Draft} :
    (fun i => if i = p then d' else only p d i) = only p d' := by
  funext i
  by_cases hi : i = p <;> simp [only, hi]

theorem only_none : only p none = fun _ => none := by
  funext i
  exact ite_self none

/-- The running process is at `d`, and nobody else in a call. -/
def State.solo (s : State) (d : Option Draft) : Micro :=
  ⟨s.withDrafts (only s.running d), only s.running d⟩

theorem solo_none : s.solo none = ⟨s, fun _ => none⟩ := by
  unfold State.solo
  rw [only_none]
  rfl

theorem solo_next {d : Option Draft} {d' : Draft} {f : PCB → PCB}
    (hf : ∀ a, f (scribble d a) = scribble (some d') a) :
    ({ s.solo d with state := (s.solo d).state.updPcb s.running f }.setCalling s.running
      (some d')) = s.solo (some d') := by
  unfold Micro.setCalling State.solo
  rw [withDrafts_updPcb (d := d') (by rwa [only_self]), set_only]

theorem microStep_solo {d : Draft} {u : Instr} {i : Nat} (hd : d = ⟨c, .arg i⟩)
    (hi : i ≤ c.args.length) : microStep (s.solo (some d)) (.instr u) =
      .ok (s.solo (some ⟨c, if i < c.args.length then .arg (i + 1) else .trap⟩)) := by
  have hcall : (s.solo (some d)).calling (s.solo (some d)).state.running = some ⟨c, .arg i⟩ := by
    rw [← hd]
    exact only_self
  simp only [microStep, execInstr, hcall, syscallNumarg_num]
  subst hd
  split
  · exact congrArg Except.ok (solo_next (scribble_arg c i))
  · rename_i hn
    obtain rfl : i = c.args.length := le_antisymm hi (Nat.not_lt.1 hn)
    exact congrArg Except.ok (solo_next (scribble_num c))

theorem run_args {u : Instr} : ∀ {k i : Nat}, i + k = c.args.length →
    run microStep (s.solo (some ⟨c, .arg i⟩)) (List.replicate (k + 1) (.instr u)) =
      .ok (s.solo (some ⟨c, .trap⟩))
  | 0, i, h => by
    have hs := microStep_solo (s := s) (u := u) rfl h.le
    rw [if_neg (by omega)] at hs
    exact run_cons_ok hs
  | k + 1, i, h => by
    have hs := microStep_solo (s := s) (c := c) (u := u) (i := i) rfl (by omega)
    rw [if_pos (by omega)] at hs
    rw [List.replicate_succ, run_cons_ok hs]
    exact run_args (by omega)

theorem run_uncut (e : Event) : run microStep (s.solo none) e.uncut =
    (step s e).map fun s => s.solo none := by
  cases e with
  | tick =>
    rw [solo_none]
    have hempty : run microStep ⟨s, fun _ => none⟩ [] = .ok ⟨s, fun _ => none⟩ := rfl
    refine (run_snoc hempty).trans ?_
    show (timerInterrupt s >>= _) = (timerInterrupt s).map _
    cases timerInterrupt s with
    | error h => rfl
    | ok s' => exact congrArg Except.ok solo_none.symm
  | store addr bytes =>
    rw [solo_none]
    exact congrArg Except.ok solo_none.symm
  | syscall c =>
    have henter : microStep (s.solo none) (.instr (.enter c)) =
        .ok (s.solo (some ⟨c, .arg 0⟩)) := by
      have hcall : (s.solo none).calling (s.solo none).state.running = none := only_self
      have hnext : ({ s.solo none with
          state := (s.solo none).state.updPcb s.running fun a => a }.setCalling s.running
            (some ⟨c, .arg 0⟩)) = s.solo (some ⟨c, .arg 0⟩) := solo_next fun _ => rfl
      rw [updPcb_self] at hnext
      simp only [microStep, execInstr, hcall]
      exact congrArg Except.ok hnext
    have htrap : microStep (s.solo (some ⟨c, .trap⟩)) (.instr (.enter c)) =
        (step s (.syscall c)).map fun s => s.solo none := by
      have hcall : (s.solo (some ⟨c, .trap⟩)).calling (s.solo (some ⟨c, .trap⟩)).state.running =
          some ⟨c, .trap⟩ := only_self
      have hissue : issueCall (s.solo (some ⟨c, .trap⟩)).state c = saveCall s c := by
        refine (issueCall_withDrafts only_self).trans ?_
        rw [set_only, only_none]
        rfl
      simp only [microStep, execInstr, hcall, hissue]
      show (step s (.syscall c) >>= _) = _
      cases step s (.syscall c) with
      | error h => rfl
      | ok s' =>
        exact congrArg Except.ok
          ((congrArg (Micro.mk s') (set_only.trans only_none)).trans solo_none.symm)
    rw [Event.uncut, List.replicate_succ, run_cons_ok henter, List.replicate_succ',
      run_snoc (run_args (Nat.zero_add _)), htrap]

theorem run_flatMap_uncut (es : List Event) :
    run microStep ⟨s, fun _ => none⟩ (es.flatMap Event.uncut) =
      (run step s es).map fun s => ⟨s, fun _ => none⟩ := by
  simp only [← solo_none]
  induction es generalizing s with
  | nil => rfl
  | cons e es ih =>
    rw [List.flatMap_cons, run_append_bind, run_uncut, run]
    cases step s e with
    | error h => rfl
    | ok s' => exact ih

/-! ## Runs -/

theorem Midway.start (h : Sane s) : Midway s ⟨s, fun _ => none⟩ :=
  ⟨h, rfl, fun _ hp => absurd rfl hp, fun _ _ _ hp => by cases hp⟩

/-- **Syscalls are atomic** for ticks outside the kernel. A run of single instructions, with ticks
and other processes' calls between them, does what its whole calls do one after the other, each when
it traps: it stops if and only if they stop, for the same reason (a step that relinks a PCB counts
as a stop), and leads to their state but for the stores of the calls that are not finished. And a
run of whole calls is one of the runs of single instructions. -/
theorem calls_atomic :
    (∀ ds, Along microStep Micro.Begins microBoot ds →
      Corresponds UpToDrafts (run step boot (trace microStep Micro.event microBoot ds))
        (run microStep microBoot ds)) ∧
    ∀ es, run microStep microBoot (es.flatMap Event.uncut) =
      (run step boot es).map fun s => ⟨s, fun _ => none⟩ := by
  refine ⟨fun ds hb => ?_, fun es => ?_⟩
  · have h := run_trace (fun _ _ _ _ h _ he => h.step he) (fun _ _ _ h hb he => h.skip hb he)
      (Midway.start boot_sane) hb
    exact h.mono fun s m h => ⟨h.state, fun p hp => (h.awake p hp).placed h.sane⟩
  · exact run_flatMap_uncut es

/-- The next instructions of a process that is in a call. -/
def goOn (n : Nat) : List MicroEvent := List.replicate n (.instr (.store 0 []))

/-- Init is interrupted twice while it prepares a send, and so is its child with a receive. -/
def cutRun : List MicroEvent :=
  .instr (.enter (.mqCreate 5 1)) :: goOn 4 ++ .instr (.enter (.spawn 0 0)) :: goOn 4 ++
    .instr (.enter (.mqSend 5 100 4)) :: goOn 1 ++ .tick ::
    .instr (.enter (.mqReceive 5 200 4)) :: goOn 2 ++ .tick :: goOn 3 ++ .tick :: goOn 3

/-- The child has received before init, which has stored its whole call, sends. -/
theorem calls_atomic_cut : ∃ s m,
    run step boot [.syscall (.mqCreate 5 1), .syscall (.spawn 0 0), .tick, .tick, .tick,
      .syscall (.mqReceive 5 200 4)] = .ok s ∧
    run microStep microBoot cutRun = .ok m ∧ m.calling 0 = some ⟨.mqSend 5 100 4, .trap⟩ ∧
    m.state = s.withDrafts m.calling := by
  have hc : (run microStep microBoot cutRun).toOption.any (fun m =>
      m.calling 0 = some ⟨.mqSend 5 100 4, .trap⟩) = true := by decide +kernel
  have hb : Along microStep Micro.Begins microBoot cutRun := by decide +kernel
  have ht : trace microStep Micro.event microBoot cutRun = [.syscall (.mqCreate 5 1),
      .syscall (.spawn 0 0), .tick, .tick, .tick, .syscall (.mqReceive 5 200 4)] := by
    decide +kernel
  generalize cutRun = ds at *
  rw [← ht]
  obtain ⟨m, hm, hcall⟩ := run_check hc
  have h := calls_atomic.1 ds hb
  rw [hm] at h
  cases hs : run step boot (trace microStep Micro.event microBoot ds) with
  | error e =>
    rw [hs] at h
    exact h.elim
  | ok s =>
    rw [hs] at h
    exact ⟨s, m, rfl, hm, of_decide_eq_true hcall, UpToDrafts.state h⟩

/-- Init sleeps with nobody to run instead, and has stored a `wait` when its child exits. -/
def stalledRun : List MicroEvent :=
  .instr (.enter (.spawn 0 0)) :: goOn 4 ++ .instr (.enter .preempt) :: goOn 2 ++
    .instr (.enter (.sleep 2)) :: goOn 3 ++ .instr (.enter (.sleep 100)) :: goOn 3 ++
    .instr (.enter (.wait 0 0)) :: goOn 3 ++ .tick :: .tick :: .instr (.enter (.exit 7)) :: goOn 3

/-- The exit takes the stored call for one that has been made; else nobody could run after it. -/
example : (run microStep microBoot stalledRun).toOption.isSome = true ∧
    stopped (run step boot (trace microStep Micro.event microBoot stalledRun)) =
      some .nullDeref := by decide +kernel

end

end DisastrOS
