import DisastrOS.Spec.System
import DisastrOS.Proof.Calls
import DisastrOS.Proof.Kin
import DisastrOS.Proof.Partition
import DisastrOS.Proof.Reaping
import DisastrOS.Proof.Zombies

/-!
# The kernel refines the two systems

A run of any calls on queues and processes, with `sleep`s that do not stall, is a run of `System`:
the calls on queues go their way through the channels and leave the family alone (`mq_family`), the
others have their outcome in the family and leave the channels alone but for their answer
(`wait_bypasses`, `exit_bypasses`, `sleep_bypasses`, `spawn_bypasses`, `fork_bypasses`). So what the
two are for holds whichever calls come in between (`system_refined`).
-/

namespace DisastrOS

open Lib State Relation

def State.system (s : State) : System := ⟨s.channels, s.family, fun p => (s.pcbs p).call⟩

/-- Process `p` is a zombie or sleeps in a `wait`. -/
def Gone (s : State) (p : PcbRef) : Prop :=
  (s.pcbs p).status = .zombie ∨
    (s.pcbs p).status = .waiting ∧ (s.pcbs p).syscallNum = dsosCallWait

/-- Process `p` is gone, and on no list from which it could be woken. -/
structure Dormant (p : PcbRef) (s : State) : Prop where
  gone : Gone s p
  unlisted : ∀ L, L ≠ .waiting → L ≠ .zombie → p ∉ s.list L
  timers : ∀ t ∈ s.timerList, t.pcb ≠ p

/-- Every zombie has left its value in its last call. -/
def Ended (s : State) : Prop :=
  ∀ p, (s.pcbs p).status = .zombie → s.system.Last p (.exit (s.pcbs p).returnValue)

/-- The number of a call that creates and ends no process and does not wait for one. -/
def Aloof (n : Nat) : Prop :=
  n ≠ dsosCallFork ∧ n ≠ dsosCallSpawn ∧ n ≠ dsosCallWait ∧ n ≠ dsosCallExit

section
variable {s s' s₁ : State} {p q r parent : PcbRef} {n : Nat} {c : Syscall} {e : Event}
  {es : List Event} {L : PcbList} {ps : List PcbRef}

/-! ## Calls on queues leave the family alone -/

theorem Gone.ne {st : ProcessStatus} (h : Gone s p) (hq : (s.pcbs q).status = st)
    (hst : st = .ready ∨ st = .running) : q ≠ p := by
  rintro rfl
  unfold Gone at h
  rcases hst with rfl | rfl <;> simp [hq] at h

namespace Dormant

theorem congr (h : Dormant p s) (hst : (s'.pcbs p).status = (s.pcbs p).status)
    (hn : (s'.pcbs p).syscallNum = (s.pcbs p).syscallNum) (hr : s'.readyList ⊆ s.readyList)
    (hrec : ∀ q, (s'.queues q).waitingReceivers ⊆ (s.queues q).waitingReceivers)
    (hsen : ∀ q, (s'.queues q).waitingSenders ⊆ (s.queues q).waitingSenders)
    (ht : s'.timerList ⊆ s.timerList) : Dormant p s' where
  gone := by
    unfold Gone
    rw [hst, hn]
    exact h.gone
  unlisted L h1 h2 hp := h.unlisted L h1 h2 <| by
    cases L with
    | ready => exact hr hp
    | waiting => exact absurd rfl h1
    | zombie => exact absurd rfl h2
    | receivers q => exact hrec q hp
    | senders q => exact hsen q hp
  timers t hm := h.timers t (ht hm)

theorem setList (h : Dormant p s) (hps : p ∉ ps) : Dormant p (s.setList L ps) where
  gone := by simpa [Gone] using h.gone
  unlisted L' h1 h2 hp := by
    by_cases hL : L' = L
    · rw [hL, list_setList_self] at hp
      exact hps hp
    · rw [list_setList_of_ne hL] at hp
      exact h.unlisted L' h1 h2 hp
  timers t hm := h.timers t (by simpa using hm)

theorem setStatus {st : ProcessStatus} (h : Dormant p s) (hq : q ≠ p) :
    Dormant p (s.setStatus q st) where
  gone := by simpa [Gone, hq.symm] using h.gone
  unlisted L h1 h2 hp := h.unlisted L h1 h2 (by simpa using hp)
  timers := h.timers

end Dormant

theorem AwaitedBy.ofQueue {L : PcbList} {q : QueueRef} (h : AwaitedBy n L q) :
    L ≠ .waiting ∧ L ≠ .zombie := by
  rcases h with ⟨rfl, -⟩ | ⟨rfl, -⟩ <;> simp

theorem ServedBy.ofQueue {L : PcbList} {q : QueueRef} (h : ServedBy n L q) :
    L ≠ .waiting ∧ L ≠ .zombie := by
  rcases h with ⟨rfl, -⟩ | ⟨rfl, -⟩ <;> simp

/-- A dormant process is not woken by a call that is not about processes. -/
theorem Effect.dormant (h : Effect n r s s') (hn : Aloof n) (hr : r ≠ p) (hp : Dormant p s) :
    Dormant p s' := by
  have hready : p ∉ s.readyList := hp.unlisted .ready (by simp) (by simp)
  have hmessages : ∀ {q f}, (f (s.queues q)).waitingReceivers ⊆ (s.queues q).waitingReceivers →
      (f (s.queues q)).waitingSenders ⊆ (s.queues q).waitingSenders →
      Dormant p (s.updQueue q f) := fun hrec hsen => by
    refine hp.congr rfl rfl (fun _ => id) (fun i => ?_) (fun i => ?_) (fun _ => id)
    · simp only [updQueue_queues]
      split
      · rename_i hi
        exact hi ▸ hrec
      · exact List.Subset.refl _
    · simp only [updQueue_queues]
      split
      · rename_i hi
        exact hi ▸ hsen
      · exact List.Subset.refl _
  cases h with
  | minor h =>
    exact hp.congr (h.status p) (h.syscallNum p) (by rw [h.readyList]; exact List.Subset.refl _)
      (fun q => by rw [h.waitingReceivers]; exact List.Subset.refl _)
      (fun q => by rw [h.waitingSenders]; exact List.Subset.refl _)
      (by rw [h.timerList]; exact List.Subset.refl _)
  | enqueue hst =>
    have hne := (hp.gone.ne hst (.inl rfl)).symm
    exact hp.setList (by simp [hready, hne])
  | @wake t ts ps _ hl _ hps =>
    have hne : t.pcb ≠ p := hp.timers t (hl ▸ List.mem_cons_self)
    have hps' : p ∉ ps := by
      rcases hps with rfl | ⟨prev, rfl⟩
      · exact hready
      · rw [(insertAfter_perm prev t.pcb s.readyList).mem_iff]
        simp [hready, hne.symm]
    exact ((hp.setStatus hne).setList hps').congr rfl rfl (fun _ => id) (fun _ _ => id)
      (fun _ _ => id) fun t' ht' => by
        simpa [hl] using List.mem_cons_of_mem t ht'
  | preempt => exact hp.setStatus hr
  | @yield q ps _ hl =>
    rw [hl, List.mem_cons, not_or] at hready
    exact ((hp.setList hready.2).setStatus (Ne.symm hready.1)).congr rfl rfl (fun _ => id)
      (fun _ _ => id) (fun _ _ => id) fun _ => id
  | block => exact hp.setStatus hr
  | queueUp hL =>
    obtain ⟨h1, h2⟩ := hL.ofQueue
    exact hp.setList (by simp [hp.unlisted _ h1 h2, hr.symm])
  | giveUp hL =>
    obtain ⟨h1, h2⟩ := hL.ofQueue
    exact (hp.setList fun hm => hp.unlisted _ h1 h2 (List.mem_of_mem_erase hm)).setStatus hr
  | serve hL hl =>
    obtain ⟨h1, h2⟩ := hL.ofQueue
    have hun := hp.unlisted _ h1 h2
    rw [hl, List.mem_cons, not_or] at hun
    exact (hp.setList hun.2).setStatus (Ne.symm hun.1)
  | push | pop => exact hmessages (List.Subset.refl _) (List.Subset.refl _)
  | found => exact hmessages (List.nil_subset _) (List.nil_subset _)
  | deliver =>
    exact hp.congr rfl rfl (fun _ => id) (fun _ _ => id) (fun _ _ => id) fun _ => id
  | birth hn' => exact absurd hn' (not_or.2 ⟨hn.1, hn.2.1⟩)
  | value hn' | retire hn' | signal _ hn' | rouse hn' | switch hn' | purge hn' =>
    exact absurd hn' hn.2.2.2
  | report hn' => exact absurd (hn'.imp And.left And.left) (not_or.2 hn.2.2)
  | free hn' => exact absurd (hn'.imp_right And.left) (not_or.2 hn.2.2)

/-- Nobody else becomes a zombie or goes to sleep in a `wait`. -/
theorem Effect.gone (h : Effect n r s s') (hn : Aloof n) (hr : r ≠ p) (hp : Gone s' p) :
    (s'.pcbs p).status = (s.pcbs p).status ∧ Gone s p := by
  have hnum := (h.saved p).1
  have key : (s'.pcbs p).status = (s.pcbs p).status →
      (s'.pcbs p).status = (s.pcbs p).status ∧ Gone s p := fun he => by
    refine ⟨he, ?_⟩
    unfold Gone at *
    rwa [← he, ← hnum]
  have set : ∀ {q st}, (s'.pcbs p).status = ((s.setStatus q st).pcbs p).status →
      st = .ready ∨ st = .running ∨ q = r → (s'.pcbs p).status = (s.pcbs p).status ∧ Gone s p := by
    intro q st hst hor
    refine key (hst.trans ?_)
    by_cases hq : p = q
    · subst hq
      exfalso
      rw [setStatus_pcbs] at hst
      rcases hor with rfl | rfl | rfl
      · exact hp.ne (by simpa using hst) (.inl rfl) rfl
      · exact hp.ne (by simpa using hst) (.inr rfl) rfl
      · exact hr rfl
    · simp [hq]
  cases h with
  | minor h => exact key (h.status p)
  | @wake t => exact set (q := t.pcb) (by simp) (.inl rfl)
  | @serve _ _ q => exact set (q := q) (by simp) (.inl rfl)
  | preempt | block => exact set rfl (.inr (.inr rfl))
  | @yield q => exact set (q := q) (by simp) (.inr (.inl rfl))
  | giveUp => exact set (q := r) (by simp) (.inr (.inl rfl))
  | enqueue | queueUp => exact key (by simp)
  | push | pop | found | deliver => exact key rfl
  | birth hn' => exact absurd hn' (not_or.2 ⟨hn.1, hn.2.1⟩)
  | value hn' | retire hn' | signal _ hn' | rouse hn' | switch hn' | purge hn' =>
    exact absurd hn' hn.2.2.2
  | report hn' => exact absurd (hn'.imp And.left And.left) (not_or.2 hn.2.2)
  | free hn' => exact absurd (hn'.imp_right And.left) (not_or.2 hn.2.2)

theorem Effects.dormant (h : Effects n r s s') (hn : Aloof n) (hr : r ≠ p) (hp : Dormant p s) :
    Dormant p s' := by
  induction h with
  | refl => exact hp
  | tail _ he ih => exact he.dormant hn hr ih

theorem Effects.gone (h : Effects n r s s') (hn : Aloof n) (hr : r ≠ p) (hp : Gone s' p) :
    (s'.pcbs p).status = (s.pcbs p).status ∧ Gone s p := by
  induction h with
  | refl => exact ⟨rfl, hp⟩
  | tail _ he ih =>
    obtain ⟨h1, h2⟩ := he.gone hn hr hp
    obtain ⟨h3, h4⟩ := ih h2
    exact ⟨h1.trans h3, h4⟩

/-- A process that is gone is on the waiting or on the zombie list only. -/
theorem Inv.dormant (h : Inv s) (hp : Gone s p) : Dormant p s := by
  refine ⟨hp, fun L h1 h2 hm => ?_, fun t ht he => ?_⟩
  · have hst := h.placed.status hm
    have hacc := h.placed.accepts hm
    rcases hp with hz | ⟨hw, hn⟩
    · rw [hz] at hst
      cases L with
      | zombie => exact h2 rfl
      | _ => cases hst
    · rw [hw] at hst
      rw [hn] at hacc
      cases L with
      | waiting => exact h1 rfl
      | ready | zombie => cases hst
      | receivers | senders => cases hacc
  · subst he
    obtain ⟨h1, h2⟩ := h.timed.waiting t ht
    have hst := h.placed.status (L := .waiting) h1
    rcases hp with hz | ⟨-, hn⟩
    · rw [hz] at hst
      cases hst
    · rw [hn] at h2
      cases h2

theorem Inv.family_zombie (h : Inv s) :
    s.family.zombie p ↔ s.Alloc p ∧ (s.pcbs p).status = .zombie :=
  ⟨fun hz => ⟨h.placed.alloc (L := .zombie) hz, h.placed.status (L := .zombie) hz⟩,
    fun hz => (h.zombie_iff hz.1).1 hz.2⟩

/-- A call that is not about processes leaves the family alone. Before its effects `s₁`, it may have
set a timer. -/
theorem Effects.family (he : Effects n s.running s₁ s') (hpcbs : s₁.pcbs = s.pcbs)
    (hd : ∀ p, Dormant p s → Dormant p s₁) (hk : Kindred s s') (hn : Aloof n)
    (hnum : (s.pcbs s.running).syscallNum = n) (h : Inv s) (h' : Inv s') :
    s'.family = s.family := by
  have hsaved : ∀ p, (s'.pcbs p).syscallNum = (s.pcbs p).syscallNum ∧
      (s'.pcbs p).syscallArgs = (s.pcbs p).syscallArgs := fun p => hpcbs ▸ he.saved p
  have ha : ∀ p, s'.Alloc p ↔ s.Alloc p := fun p => by unfold State.Alloc; rw [hk.pcbPool]
  have hrun : ¬ Gone s s.running := by simp [Gone, h.status]
  -- whoever is gone before or after has not moved
  have hst : ∀ p, Gone s p ∨ Gone s' p →
      (s'.pcbs p).status = (s.pcbs p).status := by
    intro p hp
    by_cases hr : s.running = p
    · subst hr
      rcases hp with hp | hz | ⟨-, hw⟩
      · exact absurd hp hrun
      · have hz' := hk.zombie _ hz
        exact absurd (.inl hz') hrun
      · rw [(hsaved _).1, hnum] at hw
        exact absurd hw hn.2.2.1
    · rw [← hpcbs]
      rcases hp with hp | hp
      · exact (he.gone hn hr (he.dormant hn hr (hd p (h.dormant hp))).gone).1
      · exact (he.gone hn hr hp).1
  have hgone : ∀ p, (s'.pcbs p).status = .zombie ↔ (s.pcbs p).status = .zombie := fun p =>
    ⟨hk.zombie p, fun hz => (hst p (.inl (.inl hz))).trans hz⟩
  have hasleep : s'.family.asleep = s.family.asleep := funext fun p => by
    obtain ⟨hn', ha'⟩ := hsaved p
    have hiff : (s'.pcbs p).status = .waiting ∧ (s'.pcbs p).syscallNum = dsosCallWait ↔
        (s.pcbs p).status = .waiting ∧ (s.pcbs p).syscallNum = dsosCallWait :=
      ⟨fun hp => by rwa [hst p (.inr (.inr hp)), hn'] at hp,
        fun hp => by rwa [← hst p (.inl (.inr hp)), ← hn'] at hp⟩
    simp only [State.family, hiff, ha']
  unfold State.family at hasleep ⊢
  simp only at hasleep
  simp only [Family.mk.injEq]
  refine ⟨congrArg Pool.sizeMax hk.pcbPool, hk.initPcb, funext fun p => propext (ha p),
    funext hk.parent, funext fun p => ?_, funext hk.pid, hk.lastPid, funext fun p => propext ?_,
    hasleep⟩
  · rw [hk.children]
  · exact h'.family_zombie.trans ((and_congr (ha p) (hgone p)).trans h.family_zombie.symm)

theorem aloof_of_mq (hc : c.IsMq) : Aloof c.num := by
  cases c with
  | mqCreate | mqSend | mqReceive | mqDestroy =>
    exact ⟨Nat.ne_of_beq_eq_false rfl, Nat.ne_of_beq_eq_false rfl, Nat.ne_of_beq_eq_false rfl,
      Nat.ne_of_beq_eq_false rfl⟩
  | _ => exact hc.elim

theorem mq_family (h : Inv s) (hc : c.IsMq) (hs : step s (.syscall c) = .ok s') (h' : Inv s') :
    s'.family = s.family := by
  have he := (syscall_effects hs).resolve_right fun hd => by
    obtain ⟨⟨n, rfl⟩, -⟩ := hd
    exact hc
  have hk : Kindred (saveCall s c) s' := by
    cases c with
    | mqCreate => exact .mqCreate ((step_syscall rfl).symm.trans hs)
    | mqSend => exact .mqSend ((step_syscall rfl).symm.trans hs)
    | mqReceive => exact .mqReceive ((step_syscall rfl).symm.trans hs)
    | mqDestroy => exact .mqDestroy ((step_syscall rfl).symm.trans hs)
    | _ => exact hc.elim
  rw [Effects.family (s := saveCall s c) he rfl (fun _ => id) hk (aloof_of_mq hc)
    (by simp [saveCall])
    (h.saveCall c) h', family_saveCall h.status]

/-! ## Other calls leave the channels alone -/

/-- The call `c`, saved in `s`, leaves the channels alone, but for a value that is stored and the
answer. -/
def Bypasses (s : State) (c : Syscall) (s' : State) : Prop :=
  ∃ acts, s.system.Outcome s.running c acts s'.mem s'.family ∧
    s'.channels = (s.channels.log acts).setMem s'.mem

/-- Nobody gets an answer. -/
theorem Bypasses.silent (ho : s.system.Outcome s.running c [] s'.mem s'.family)
    (h : s'.channels = s.channels) : Bypasses s c s' := by
  refine ⟨[], ho, ?_⟩
  rw [Channels.log_nil, h]
  have hm : s'.mem = s.mem := (congrArg Channels.mem h :)
  rw [hm]
  rfl

theorem channels_answer {v : Int} (hr : s'.resourcesList = s.resourcesList)
    (hq : s'.queues = s.queues) (hp : ∀ p, s'.request p = s.request p) (hc : s'.calls = s.calls)
    (hh : s'.history = s.history ++ [.retval n v]) :
    s'.channels = (s.channels.log [.retval n v]).setMem s'.mem :=
  channels_congr (s := { s with mem := s'.mem }) [.retval n v] hr hq
    (fun _ p _ => hp p) rfl hc hh

/-- The caller gets an answer, and that is all. -/
theorem Bypasses.setRetvalue {v : Int}
    (ho : s.system.Outcome s.running c [s.system.answer s.running v] s.mem s.family) :
    Bypasses s c (s.setRetvalue s.running v) := by
  refine ⟨_, ?_, channels_setRetvalue v⟩
  rw [family_setRetvalue]
  exact ho

theorem reported_eq (s : State) (result v : Int) :
    (storeResult s result v).mem = reported s.mem result v := by
  unfold storeResult reported
  split <;> rfl

/-! ## `wait` -/

/-- The search of the model is that of the family. -/
theorem Inv.cursor_eq (h : Inv s) {w : Int} : s.family.cursor s.running w =
    (((s.pcbs s.running).children.find? (Wanted s w ·)).or
      (s.pcbs s.running).children.getLast?).map (·.pcb) := by
  unfold Family.cursor
  have hfind : (s.family.children s.running).find? (fun p => @decide (s.family.Wants w p)
      (Classical.propDecidable _)) =
      ((s.pcbs s.running).children.find? (Wanted s w ·)).map (·.pcb) := by
    rw [show s.family.children s.running = (s.pcbs s.running).children.map (·.pcb) from rfl,
      List.find?_map]
    refine congrArg _ (find?_congr fun e he => ?_)
    have ha : s.Alloc e.pcb :=
      (h.tree.wf.entry (q := s.running) (List.mem_map_of_mem he)).1
    have hz : s.family.zombie e.pcb ↔ (s.pcbs e.pcb).status = .zombie := (h.zombie_iff ha).symm
    simp only [Function.comp_apply, Family.Wants, Wanted, hz]
    rfl
  rw [hfind, Option.map_or]
  exact congrArg _ List.getLast?_map

theorem wait_bypasses {w result : Int} (h : Inv s) (hS : Sane s) (hE : Ended s)
    (hn : (s.pcbs s.running).syscallNum = dsosCallWait)
    (h0 : (s.pcbs s.running).syscallArgs 0 = w) (h1 : (s.pcbs s.running).syscallArgs 1 = result)
    (hs : internalWait s = .ok s') : Bypasses s (.wait w result) s' := by
  by_cases hnone : (s.pcbs s.running).children = []
  · unfold internalWait at hs
    dsimp only at hs
    rw [if_pos hnone] at hs
    cases hs
    exact .setRetvalue (.childless w result (List.map_eq_nil_iff.2 hnone))
  obtain ⟨e, he, hscan, heq⟩ := internalWait_eq hS hnone
  have ha : s.Alloc e.pcb := (h.tree.wf.entry (q := s.running) (List.mem_map_of_mem he)).1
  have hcur : s.family.cursor s.running w = some e.pcb := by
    rw [h.cursor_eq, ← h0, hscan]
    rfl
  rw [heq, waitAt, h1] at hs
  split at hs
  · rename_i hz
    split at hs <;> cases hs
    obtain ⟨-, hfam⟩ := reaped_spec h he hz (reportedMem s e result)
    have hmem : reportedMem s e result = reported s.mem result (s.pcbs e.pcb).returnValue :=
      reported_eq _ _ _
    refine ⟨_, ?_, channels_answer rfl rfl (fun p => ?_) rfl rfl⟩
    · rw [hfam]
      show s.system.Outcome _ _ _ (reportedMem s e result) _
      rw [hmem]
      exact .reap w result _ e.pcb hcur ((h.zombie_iff ha).1 hz) (hE e.pcb hz)
    · by_cases hp : p = s.running <;> simp [State.request, reaped, hp]
  · rename_i hz
    have hfam := ((waitSleep_spec h hn).ok hs).2
    have h2 := h.setStatus (p := s.running) (by simp) .waiting
    obtain ⟨h3, h4⟩ := h2.insertWait (by simp) (by simp) (by simpa using hn)
    unfold internalWait.waitSleep at hs
    simp only [h3, ok_bind] at hs
    obtain ⟨h5, -⟩ := h4.runNext.ok hs
    have hch : s'.channels = s.channels := h5.channels.trans
      (channels_same rfl rfl (fun L p _ => by simp [State.request]) rfl rfl rfl)
    refine .silent ?_ hch
    rw [hfam, h0, show s'.mem = s.mem from (congrArg Channels.mem hch :)]
    exact .asleep w result e.pcb hcur fun hz' => hz ((h.zombie_iff ha).2 hz')

/-! ## `exit` -/

theorem Retired.channels (h : Retired s s') : s'.channels = s.channels :=
  channels_same (congrArg State.resourcesList h.same :) (congrArg State.queues h.same :)
    (fun _ p _ => h.request p) (congrArg State.mem h.same :) (congrArg State.calls h.same :)
    (congrArg State.history h.same :)

/-- The arguments of a `wait` in which a process sleeps. -/
theorem last_of_asleep {w : Int} (h : Inv s) (hi : s.system.Issued s.running c)
    (ha : s.family.asleep p = some w) :
    s.system.Last p (.wait w ((s.pcbs p).syscallArgs 1)) := by
  obtain ⟨result, hx⟩ := hi.asleep ha
  obtain ⟨pay, hp⟩ := hx.issued
  obtain rfl : (s.pcbs p).syscallArgs 1 = result := (h.answers.args hp rfl).2 1 result rfl
  exact ⟨pay, hp⟩

theorem exit_bypasses {v : Int} (h : Inv s) (hi : s.system.Issued s.running c)
    (h0 : (s.pcbs s.running).syscallArgs 0 = v) (hs : internalExit s = .ok s') :
    Bypasses s (.exit v) s' := by
  by_cases hinit : s.running = s.initPcb
  · rcases exit_init h hinit with h2 | h2 <;> rw [h2] at hs <;> cases hs
  obtain ⟨s₁, h5, he⟩ := exit_retires h hinit
  have hmem₁ : s₁.mem = s.mem := (congrArg State.mem h5.same :)
  rw [he] at hs
  split at hs
  · cases hs
  rename_i parent hp
  split at hs
  · rename_i hw
    rcases exitToParent_reaps h hinit h5 hw with h6 | ⟨e, he, hself, hwl, h6⟩
    · rw [h6] at hs
      cases hs
    rw [h6] at hs
    obtain ⟨-, hfam, ha⟩ := handedOver_family h hinit h5 hw he hself hwl
      (storeResult s₁ ((s₁.pcbs parent).syscallArgs 1) (s₁.pcbs s.running).returnValue).mem
    have hmem : (storeResult s₁ ((s₁.pcbs parent).syscallArgs 1)
        (s₁.pcbs s.running).returnValue).mem =
        reported s.mem ((s.pcbs parent).syscallArgs 1) v := by
      have hargs : (s₁.pcbs parent).syscallArgs = (s.pcbs parent).syscallArgs :=
        (congrArg PCB.syscallArgs (h5.core parent) :)
      rw [reported_eq, hmem₁, h5.value, h0, hargs]
    have hcall : (s₁.pcbs parent).call = (s.pcbs parent).call :=
      (congrArg PCB.call (h5.core parent) :)
    have hpid : (s₁.pcbs s.running).pid = (s.pcbs s.running).pid :=
      (congrArg PCB.pid (h5.core s.running) :)
    rw [hmem] at hs hfam
    cases hs
    refine ⟨[s.system.answer parent (s.pcbs s.running).pid], ?_, ?_⟩
    · rw [hfam]
      exact .exitToParent v _ _ parent hinit hp ha.asleep ha.named ha.child
        (last_of_asleep h hi ha.asleep)
    · rw [← h5.channels]
      refine channels_answer rfl rfl (fun p => ?_) rfl ?_
      · by_cases hq : p = parent <;> simp [State.request, handedOver, hq]
      · simp only [handedOver, hcall, hpid]
        rfl
  · rename_i hw
    obtain ⟨h7, -, h8⟩ := (h5.consistent h hinit).runNext.ok hs
    have hch : s'.channels = s.channels := h7.channels.trans h5.channels
    refine .silent ?_ hch
    rw [h8, h5.family h.status, show s'.mem = s.mem from (congrArg Channels.mem hch :)]
    exact .exitToNext v parent hinit hp fun w hasleep => not_matches h5 h.status hw hasleep

/-! ## `sleep` -/

theorem sleep_family (h : Inv s) (hn : (s.pcbs s.running).syscallNum = dsosCallSleep)
    (hs : internalSleep s = .ok s') (h' : Inv s') : s'.family = s.family := by
  have hal : Aloof dsosCallSleep := by simp only [Aloof]; decide
  have hk := Kindred.sleep hs
  rcases sleep_effects hs with ⟨-, hm⟩ | ⟨-, hd⟩
  · exact hm.effects.family rfl (fun _ => id) hk hal hn h h'
  · obtain ⟨b, pool, -, he⟩ := hd.effects
    refine he.family rfl (fun p hp => ⟨hp.gone, hp.unlisted, fun t ht => ?_⟩) hk hal hn h h'
    have hperm := timerInsert_perm
      ⟨b, s.time + (s.pcbs s.running).syscallArgs 0, s.running⟩ s.timerList
    rcases List.mem_cons.1 (hperm.mem_iff.1 ht) with rfl | ht
    · exact hp.gone.ne h.status (.inr rfl)
    · exact hp.timers t ht

theorem sleep_bypasses {k : Int} (h : Inv s)
    (hn : (s.pcbs s.running).syscallNum = dsosCallSleep) (hs : internalSleep s = .ok s')
    (hf : s'.family = s.family) : Bypasses s (.sleep k) s' := by
  by_cases ht : (s.pcbs s.running).timer.isSome
  · unfold internalSleep at hs
    simp only [ht, if_true] at hs
    cases hs
    exact .setRetvalue (.sleep k _ (.inr rfl))
  cases hg : s.timerPool.get with
  | none =>
    unfold internalSleep timerListAdd at hs
    simp only [ht, hg, Bool.false_eq_true, if_false] at hs
    cases hs
    exact .setRetvalue (.sleep k _ (.inr rfl))
  | some x =>
    obtain ⟨b, pool⟩ := x
    rw [internalSleep_eq h hn (by simpa using ht) hg] at hs
    set n := (s.pcbs s.running).syscallArgs 0
    have hch : (asleepFor s b pool n).channels =
        (s.channels.log [.retval (s.pcbs s.running).call 0]).setMem s.mem :=
      channels_answer rfl asleepFor_queues (fun p => by simp [State.request, asleepFor, drowsy]) rfl
        (by simp [asleepFor, drowsy])
    have hch' := (Rescheduled.schedule hs).channels.trans hch
    have hm : s'.mem = s.mem := (congrArg Channels.mem hch' :)
    refine ⟨_, ?_, hm ▸ hch'⟩
    rw [hf, hm]
    exact .sleep k 0 (.inl rfl)

/-! ## `spawn` and `fork` -/

/-- The caller gets the pid of the new process. -/
theorem grow_bypasses {pool ptrPool : Pool} {b : Nat} (h : Inv s)
    (hc : c = .fork ∨ ∃ f args, c = .spawn f args) (hg : s.pcbPool.get = some (p, pool))
    (hs : s' = ((born s p pool ptrPool ⟨b, p⟩).setList .ready (s.readyList ++ [p])).setRetvalue
      s.running s.lastPid) : Bypasses s c s' := by
  obtain ⟨hne, hnew, -, hfam⟩ := born_spec h.toConsistent ptrPool b hg
  have hcall : ((born s p pool ptrPool ⟨b, p⟩).pcbs s.running).call =
      (s.pcbs s.running).call := by
    simp [born, hne.symm]
  refine ⟨[s.system.answer s.running s.lastPid], ?_, ?_⟩
  · have hfam' : s'.family = s.family.birth s.running p := by
      rw [hs, family_setRetvalue]
      exact hfam
    rw [hfam', show s'.mem = s.mem from by rw [hs]; rfl]
    exact .birth c p hc hnew
  · subst hs
    refine channels_answer rfl rfl (fun q => ?_) rfl ?_
    · simpa [State.request] using born_request q
    · simp only [setRetvalue_history, setList_history, setList_pcbs, hcall]
      rfl

theorem spawn_bypasses {f args : Int} (h : Inv s) (hs : internalSpawn s = .ok s') :
    Bypasses s (.spawn f args) s' := by
  cases hg : s.pcbPool.get with
  | none =>
    rw [internalSpawn_full hg] at hs
    cases hs
    exact .setRetvalue (.full _ (.inr ⟨f, args, rfl⟩) (full_of_get hg))
  | some x =>
    obtain ⟨p, pool⟩ := x
    cases hb : s.pcbPtrPool.get with
    | none =>
      rw [internalSpawn_noPtr hg hb] at hs
      cases hs
    | some y =>
      obtain ⟨b, ptrPool⟩ := y
      obtain ⟨hne, -, h1, -⟩ := born_spec h.toConsistent ptrPool b hg
      have hu := (h1.insertReady (by simpa using hne) (by simp [born])).1
      have hpid : ((born s p pool ptrPool ⟨b, p⟩).pcbs p).pid = s.lastPid := by simp [born]
      rw [internalSpawn_eq hne hg hb hu, setList_pcbs, hpid] at hs
      exact grow_bypasses h (.inr ⟨f, args, rfl⟩) hg (Except.ok.inj hs).symm

/-- As long as there are no descriptors to copy. -/
theorem fork_bypasses (h : Inv s) (hs : internalFork s = .ok s') : Bypasses s .fork s' := by
  cases hg : s.pcbPool.get with
  | none =>
    rw [internalFork_full hg] at hs
    cases hs
    exact .setRetvalue (.full _ (.inl rfl) (full_of_get hg))
  | some x =>
    obtain ⟨p, pool⟩ := x
    cases hb : s.pcbPtrPool.get with
    | none =>
      rw [internalFork_noPtr hg hb] at hs
      cases hs
    | some y =>
      obtain ⟨b, ptrPool⟩ := y
      obtain ⟨hne, -, h1, -⟩ := born_spec h.toConsistent ptrPool b hg
      have hu := ((h1.setRetvalue s.running s.lastPid).insertReady (by simpa using hne)
        (by simp [born])).1
      rw [internalFork_eq hne hg hb (h.tree.descriptors _) hu] at hs
      exact grow_bypasses h (.inl rfl) hg (Except.ok.inj hs).symm

/-! ## Steps -/

theorem Inv.awake (h : Inv s) : s.family.Awake s.running :=
  ⟨h.placed.held (by simp), fun hz => h.placed.not_held (L := .zombie) hz (by simp),
    asleep_of_running h.status⟩

theorem Effect.call (h : Effect n r s s') (p : PcbRef) : (s'.pcbs p).call = (s.pcbs p).call := by
  cases h with
  | minor h => exact (congrArg PCB.call (h.pcb p) :)
  | _ => simp [begun, purgeTimers, pcbFree]

theorem Effects.call (h : Effects n r s s') (p : PcbRef) : (s'.pcbs p).call = (s.pcbs p).call := by
  induction h with
  | refl => rfl
  | tail _ he ih => exact (he.call p).trans ih

/-- The call in the PCB of the running process is this one; the others keep theirs. -/
theorem step_call (hs : step s (.syscall c) = .ok s') (p : PcbRef) :
    (s'.pcbs p).call = if p = s.running then s.calls else (s.pcbs p).call := by
  have h0 : ((saveCall s c).pcbs p).call = if p = s.running then s.calls else (s.pcbs p).call := by
    by_cases hp : p = s.running <;> simp [saveCall, hp]
  rcases syscall_effects hs with he | ⟨-, hd⟩
  · exact (he.call p).trans h0
  · obtain ⟨b, pool, -, he⟩ := hd.effects
    exact (he.call p).trans h0

/-- A call in the history with the next number is that of the running process. -/
theorem issued_by {pay : List UInt8} (hs : step s (.syscall c) = .ok s') (h : Inv s) (h' : Inv s')
    (hi : .issue s.calls p c pay ∈ s'.history) : p = s.running := by
  have hcall : (s'.pcbs s.running).call = s.calls := by simp [step_call hs]
  rcases h'.answers.own s.running with h0 | ⟨c', pay', hi'⟩
  · exact absurd (hcall.symm.trans h0) h.answers.first.ne'
  · rw [hcall] at hi'
    exact (h'.answers.caller hi hi').1

theorem system_saveCall (h : Inv s) (c : Syscall) :
    (saveCall s c).system = s.system.issue s.running c := by
  have hcall : (fun p => ((saveCall s c).pcbs p).call) =
      fun p => if p = s.running then s.calls else (s.pcbs p).call := funext fun p => by
    by_cases hp : p = s.running <;> simp [saveCall, hp]
  rw [State.system, channels_saveCall h.placed, family_saveCall h.status, hcall]
  rfl

/-- Any call but one on queues, from what comes of it. -/
theorem Bypasses.system (hs : step s (.syscall c) = .ok s') (h : Inv s)
    (hb : Bypasses (saveCall s c) c s') : s.system.Step (.syscall c) s'.system := by
  obtain ⟨acts, ho, heq⟩ := hb
  rw [system_saveCall h] at ho
  rw [channels_saveCall h.placed] at heq
  have hsys : s'.system = { s.system.issue s.running c with
      channels := ((s.channels.issue s.running c).log acts).setMem s'.mem
      family := s'.family } := by
    rw [← heq]
    simp only [State.system, System.issue, System.mk.injEq, true_and]
    exact funext fun p => step_call hs p
  rw [hsys]
  exact .process s.running c acts s'.mem s'.family h.awake ho

theorem Ended.saveCall (h : Ended s) (hst : (s.pcbs s.running).status = .running) (c : Syscall) :
    Ended (saveCall s c) := by
  intro p hz
  have hp : p ≠ s.running := by
    rintro rfl
    simp [DisastrOS.saveCall, hst] at hz
  obtain ⟨pay, hi⟩ := h p (by simpa [DisastrOS.saveCall] using hz)
  refine ⟨pay, ?_⟩
  have hv : ((DisastrOS.saveCall s c).pcbs p).returnValue = (s.pcbs p).returnValue ∧
      ((DisastrOS.saveCall s c).pcbs p).call = (s.pcbs p).call := by
    simp [DisastrOS.saveCall, hp]
  rw [hv.1]
  show Act.issue ((DisastrOS.saveCall s c).pcbs p).call _ _ _ ∈ (DisastrOS.saveCall s c).history
  rw [hv.2]
  exact List.mem_append_left _ hi

/-- The invariant of the runs of calls on queues and processes. -/
structure MixedInv (s : State) : Prop extends Inv s where
  sane : Sane s
  safe : s.system.Safe
  ended : Ended s

theorem step_system (h : MixedInv s) (he : e.IsProcessOrMq) (hn : ¬ Stalls s e)
    (hs : step s e = .ok s') : s.system.Step e s'.system := by
  have h' : Inv s' := (step_inv h.toInv he hn).ok hs
  cases e with
  | tick =>
    obtain ⟨s₁, h1, -, h2, h3⟩ := tick_spec h.toInv
    cases h1.symm.trans hs
    have hcall : (fun p => (s'.pcbs p).call) = fun p => (s.pcbs p).call :=
      funext fun p => (tick_effects hs).call p
    rw [State.system, State.system, h2, h3, hcall]
    exact .tick
  | store addr bytes =>
    obtain ⟨s₁, h1, -, h2, h3⟩ := store_spec h.toInv addr bytes
    cases h1.symm.trans hs
    have hcall : (fun p => (s'.pcbs p).call) = fun p => (s.pcbs p).call := by
      cases hs
      rfl
    rw [State.system, State.system, h2, h3, hcall]
    exact .store addr bytes
  | syscall c =>
    by_cases hc : c.IsMq
    · have hmq : (Event.syscall c).IsMq := by cases c <;> trivial
      have hch := ((step_mq h.toInv hmq).ok hs).2
      obtain ⟨p, hi⟩ := hch.issued
      obtain rfl := issued_by hs h.toInv h' hi
      have hsys : s'.system = { s.system.issue s.running c with channels := s'.channels } := by
        simp only [State.system, System.issue, System.mk.injEq, true_and]
        exact ⟨mq_family h.toInv hc hs h', funext fun p => step_call hs p⟩
      rw [hsys]
      exact .queue s.running c s'.channels hc h.awake hch hi
    · have hproc : ∀ {f}, syscallVector c.num = some f → f (saveCall s c) = .ok s' := fun hv =>
        (step_syscall hv).symm.trans hs
      have h1 := h.toInv.saveCall c
      have hnum := saveCall_num s c
      have hargs := saveCall_args s c
      refine Bypasses.system hs h.toInv ?_
      cases c with
      | preempt =>
        obtain ⟨s₁, h2, -, hch, hf⟩ := schedule_spec h1
        cases h2.symm.trans (hproc rfl)
        refine .silent ?_ hch
        rw [hf, show s'.mem = (saveCall s .preempt).mem from (congrArg Channels.mem hch :)]
        exact .preempt
      | fork => exact fork_bypasses h1 (hproc rfl)
      | spawn f args => exact spawn_bypasses h1 (hproc rfl)
      | wait pid result =>
        exact wait_bypasses h1 (h.sane.saveCall _) (h.ended.saveCall h.status _) hnum (hargs 0)
          (hargs 1) (hproc rfl)
      | exit v =>
        have hi := h.safe.issued (c := .exit v) hc h.awake
        exact exit_bypasses h1 (system_saveCall h.toInv (.exit v) ▸ hi) (hargs 0) (hproc rfl)
      | sleep n => exact sleep_bypasses h1 hnum (hproc rfl) (sleep_family h1 hnum (hproc rfl) h')
      | mqCreate | mqSend | mqReceive | mqDestroy => exact absurd trivial hc
      | _ => rcases he with he | he | he <;> exact he.elim

/-- Who becomes a zombie has called `exit`; nobody who is one calls anything. -/
theorem MixedInv.ended_step (h : MixedInv s) (hs : step s e = .ok s') (h' : Inv s')
    (hsys : s.system.Step e s'.system) : Ended s' := by
  intro p hz
  obtain ⟨acts, hh⟩ := hsys.history
  obtain ⟨-, ⟨hz', hv⟩ | ⟨rfl, rfl⟩⟩ := step_zombie hs hz
  · have hp : p ≠ s.running := by
      rintro rfl
      rw [h.status] at hz'
      cases hz'
    have hcall : (s'.pcbs p).call = (s.pcbs p).call := by
      cases e with
      | tick => exact (tick_effects hs).call p
      | store =>
        cases hs
        rfl
      | syscall c => rw [step_call hs, if_neg hp]
    obtain ⟨pay, hi⟩ := h.ended p hz'
    refine ⟨pay, ?_⟩
    rw [hv, hh]
    show Act.issue (s'.pcbs p).call _ _ _ ∈ _
    rw [hcall]
    exact List.mem_append_left _ hi
  · obtain ⟨q, hi⟩ := hsys.issued
    obtain rfl := issued_by hs h.toInv h' hi
    have hcall : (s'.pcbs s.running).call = s.calls := by rw [step_call hs, if_pos rfl]
    refine ⟨Syscall.payload s.mem (.exit (s'.pcbs s.running).returnValue), ?_⟩
    show Act.issue (s'.pcbs s.running).call _ _ _ ∈ _
    rw [hcall]
    exact hi

theorem MixedInv.preserved (h : MixedInv s) (he : e.IsProcessOrMq) (hn : ¬ Stalls s e)
    (hs : step s e = .ok s') : MixedInv s' :=
  have h' := (step_inv h.toInv he hn).ok hs
  have hsys := step_system h he hn hs
  ⟨h', (step_steps h.sane hs).sane, hsys.safe h.safe, h.ended_step hs h' hsys⟩

/-! ## Runs -/

theorem boot_system : boot.system = System.initial := by
  obtain ⟨pool, hg, he⟩ := boot_eq
  have hall : ∀ p, (booted pool).Alloc p ↔ p = 0 := fun p =>
    ((Pool.ok_init _).used_get hg).trans (or_iff_left (Pool.not_used_init _ _))
  have hpcb : ∀ p, ((booted pool).pcbs p).parent = none ∧ ((booted pool).pcbs p).children = [] ∧
      ((booted pool).pcbs p).pid = 0 ∧ ((booted pool).pcbs p).status ≠ .waiting := fun p => by
    by_cases hp : p = 0 <;> simp [booted, initProcess, hp]
  have hcall : ∀ p, ((booted pool).pcbs p).call = 0 := fun p => by
    by_cases hp : p = 0 <;> simp [booted, initProcess, hp]
  suffices hfam : boot.family = System.initial.family by
    rw [State.system, boot_channels, hfam, he]
    exact congrArg (System.mk _ _) (funext hcall)
  rw [he]
  unfold State.family System.initial
  simp only [Family.mk.injEq]
  refine ⟨(Pool.get_eq hg).2, by simp [booted, coldState], funext fun p => propext (hall p),
    funext fun p => (hpcb p).1, funext fun p => ?_, funext fun p => (hpcb p).2.2.1,
    by simp [booted], funext fun p => ?_, funext fun p => ?_⟩
  · rw [(hpcb p).2.1]
    rfl
  · simp [booted, coldState]
  · rw [if_neg fun h => (hpcb p).2.2.2 h.1]

theorem boot_safe : boot.system.Safe where
  books := ⟨boot_kept, boot_trails, boot_numbered⟩
  family := boot_inv.tree.wf
  asleep hp := by
    rw [boot_system] at hp
    cases hp
  answered hi := by
    rw [boot_system] at hi
    cases hi

theorem boot_ended : Ended boot := by
  intro p hz
  obtain ⟨pool, -, he⟩ := boot_eq
  rw [he] at hz
  by_cases hp : p = 0 <;> simp [booted, initProcess, hp] at hz

theorem boot_mixedInv : MixedInv boot := ⟨boot_inv, boot_sane, boot_safe, boot_ended⟩

theorem run_mixed (he : ∀ e ∈ es, e.IsProcessOrMq)
    (hn : Along step (fun s e => ¬ Stalls s e) boot es) (hr : run step boot es = .ok s) :
    MixedInv s :=
  run_inv (fun _ _ _ h he hn hs => h.preserved he hn hs) boot_mixedInv he hn hr

theorem run_system (he : ∀ e ∈ es, e.IsProcessOrMq)
    (hn : Along step (fun s e => ¬ Stalls s e) boot es) (hr : run step boot es = .ok s) :
    Moves System.Step boot.system es s.system :=
  run_moves (I := MixedInv) State.system
    (fun _ _ _ h he hn hs => ⟨h.preserved he hn hs, step_system h he hn hs⟩)
    boot_mixedInv he hn hr

/-- **The kernel refines the two systems.** A run of calls on queues and processes in which no
`sleep` stalls is a run of `System`, and leaves the channels and the family in order. -/
theorem system_refined (he : ∀ e ∈ es, e.IsProcessOrMq)
    (hn : Along step (fun s e => ¬ Stalls s e) boot es) (hr : run step boot es = .ok s) :
    Moves System.Step System.initial es s.system ∧ s.system.Safe := by
  have hm := run_system he hn hr
  rw [boot_system] at hm
  exact ⟨hm, (run_mixed he hn hr).safe⟩

/-- Init waits for a message of its child, and when it has got it for its end. -/
def messengerRun : List Event :=
  [.syscall (.spawn 0 0), .syscall (.mqCreate 5 1), .syscall (.mqReceive 5 200 4),
   .store 64 [1, 2], .syscall (.mqSend 5 64 2), .syscall (.exit 7), .syscall (.wait 0 100)]

theorem system_refined_messenger : ∃ s, run step boot messengerRun = .ok s ∧
    Moves System.Step System.initial messengerRun s.system ∧ s.system.Safe := by
  have hc : (run step boot messengerRun).toOption.any (fun _ => true) = true := by decide +kernel
  obtain ⟨s, hr, -⟩ := run_check hc
  exact ⟨s, hr, system_refined (by decide) (by decide +kernel) hr⟩

end

end DisastrOS
