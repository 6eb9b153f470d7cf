import DisastrOS.Model.Syscall
import DisastrOS.Proof.Sane

/-!
# Calls that others have begun

A process that is in the middle of `disastrOS_syscall` has stored a part of its next call in its PCB
(`State.withDrafts`). The kernel reads the saved call of the caller, and of processes that wait. So
as long as nobody waits who is in the middle of a call, all that the kernel does goes on as without
these stores: `Drafted ds s t` is kept by every function of the kernel on both sides.
-/

namespace DisastrOS

open Lib State

/-! ## Half-stored calls -/

/-- `syscall_num` of a process that has got as far as `d`. -/
def draftNum : Option Draft → Nat → Nat
  | some ⟨c, .trap⟩, _ => c.num
  | _, num => num

/-- `syscall_args` of a process that has got as far as `d`. -/
def draftArgs : Option Draft → (Nat → Int) → Nat → Int
  | none, args => args
  | some ⟨c, .arg i⟩, args => fun j => if j < i then c.args.getD j 0 else args j
  | some ⟨c, .trap⟩, args => fun j => c.args.getD j (args j)

@[simps] def scribble (d : Option Draft) (pcb : PCB) : PCB :=
  { pcb with
    syscallNum := draftNum d pcb.syscallNum, syscallArgs := draftArgs d pcb.syscallArgs }

/-- The state with what the processes have stored of the calls `ds`. -/
@[simps] def State.withDrafts (s : State) (ds : PcbRef → Option Draft) : State :=
  { s with pcbs := fun p => scribble (ds p) (s.pcbs p) }

/-- `t` is `s` with what has been stored of the calls `ds`, and nobody who is at one waits. -/
structure Drafted (ds : PcbRef → Option Draft) (s t : State) : Prop where
  eq : t = s.withDrafts ds
  awake : ∀ p, ds p ≠ none → (s.pcbs p).status ≠ .waiting
  parked : ∀ p, ds p ≠ none → ∀ L : PcbList, L.status = .waiting → p ∉ s.list L

/-- Both allocations fail, or both yield the same block. -/
def Allocates {α : Type} (ds : PcbRef → Option Draft) (x y : Option (α × State)) : Prop :=
  x = none ∧ y = none ∨
    ∃ a s t, x = some (a, s) ∧ y = some (a, t) ∧ Drafted ds s t

section
variable {s t : State} {ds : PcbRef → Option Draft} {L : PcbList} {p q r : PcbRef}
  {ps : List PcbRef} {d : Draft}

@[simp] theorem scribble_none {pcb : PCB} : scribble none pcb = pcb := rfl

@[simp] theorem withDrafts_list : (s.withDrafts ds).list L = s.list L := by cases L <;> rfl

@[simp] theorem withDrafts_resource {x : ResourceRef} :
    (s.withDrafts ds).resource x = s.resource x := by cases x <;> rfl

theorem withDrafts_pcbs_of_none (hp : ds p = none) : (s.withDrafts ds).pcbs p = s.pcbs p := by
  rw [withDrafts_pcbs, hp, scribble_none]

namespace Drafted

theorem list (h : Drafted ds s t) : t.list L = s.list L := by
  rw [h.eq, withDrafts_list]

theorem none_of_waiting (h : Drafted ds s t) (hp : (s.pcbs p).status = .waiting) : ds p = none := by
  by_contra hd
  exact h.awake p hd hp

theorem none_of_mem (h : Drafted ds s t) (hL : L.status = .waiting) (hp : p ∈ s.list L) :
    ds p = none := by
  by_contra hd
  exact h.parked p hd L hL hp

/-! ## Operations -/

/-- An operation to which statuses, lists and saved calls do not matter. -/
theorem map (h : Drafted ds s t) (f : State → State)
    (hf : ∀ s, f (s.withDrafts ds) = (f s).withDrafts ds)
    (hst : ∀ p, ((f s).pcbs p).status = (s.pcbs p).status) (hl : ∀ L, (f s).list L = s.list L) :
    Drafted ds (f s) (f t) := by
  obtain ⟨rfl, ha, hp⟩ := h
  exact ⟨hf s, fun p hd => hst p ▸ ha p hd, fun p hd L hL => hl L ▸ hp p hd L hL⟩

/-- An assignment to the PCB of `p`, which does not read its saved call. -/
theorem updPcb (h : Drafted ds s t) (p : PcbRef) {f : PCB → PCB}
    (hf : ∀ a, f (scribble (ds p) a) = scribble (ds p) (f a))
    (hst : (f (s.pcbs p)).status ≠ .waiting ∨ ds p = none) :
    Drafted ds (s.updPcb p f) (t.updPcb p f) := by
  obtain ⟨rfl, ha, hp⟩ := h
  refine ⟨?_, fun i hd => ?_, fun i hd L hL => ?_⟩
  · unfold State.updPcb State.withDrafts
    congr 1
    funext i
    by_cases hi : i = p
    · subst hi
      simp only [if_true, hf]
    · simp only [hi, if_false]
  · rw [updPcb_pcbs]
    split
    · rename_i hi
      subst hi
      exact hst.resolve_right hd
    · exact ha i hd
  · rw [list_updPcb]
    exact hp i hd L hL

theorem updPcb_same (h : Drafted ds s t) (p : PcbRef) {f : PCB → PCB}
    (hf : ∀ a, f (scribble (ds p) a) = scribble (ds p) (f a))
    (hst : ∀ a, (f a).status = a.status) : Drafted ds (s.updPcb p f) (t.updPcb p f) :=
  h.updPcb p hf <| by
    rw [hst]
    by_cases hd : ds p = none
    · exact .inr hd
    · exact .inl (h.awake p hd)

theorem setStatus (h : Drafted ds s t) (p : PcbRef) (st : ProcessStatus)
    (hst : st ≠ .waiting ∨ ds p = none) : Drafted ds (s.setStatus p st) (t.setStatus p st) :=
  h.updPcb p (f := ({ · with status := st })) (fun _ => rfl) hst

theorem setTimer (h : Drafted ds s t) (p : PcbRef) (x : Option Nat) :
    Drafted ds (s.setTimer p x) (t.setTimer p x) :=
  h.updPcb_same p (f := ({ · with timer := x })) (fun _ => rfl) fun _ => rfl

theorem setChildren (h : Drafted ds s t) (p : PcbRef) (cs : List PCBPtr) :
    Drafted ds (s.setChildren p cs) (t.setChildren p cs) :=
  h.updPcb_same p (f := ({ · with children := cs })) (fun _ => rfl) fun _ => rfl

theorem setDescriptors (h : Drafted ds s t) (p : PcbRef) (xs : List Descriptor) :
    Drafted ds (s.setDescriptors p xs) (t.setDescriptors p xs) :=
  h.updPcb_same p (f := ({ · with descriptors := xs })) (fun _ => rfl) fun _ => rfl

theorem signal (h : Drafted ds s t) (p : PcbRef) (sig : BitVec 32) :
    Drafted ds (s.signal p sig) (t.signal p sig) :=
  h.updPcb_same p (f := fun a => { a with signals := a.signals ||| (sig &&& a.signalsMask) })
    (fun _ => rfl) fun _ => rfl

theorem record (h : Drafted ds s t) (a : Act) : Drafted ds (s.record a) (t.record a) :=
  h.map (State.record · a) (fun _ => rfl) (fun _ => rfl) fun _ => list_record

theorem setRetvalue (h : Drafted ds s t) (p : PcbRef) (r : Int) :
    Drafted ds (s.setRetvalue p r) (t.setRetvalue p r) := by
  have h1 := (h.updPcb_same p (f := ({ · with syscallRetvalue := r })) (fun _ => rfl)
    fun _ => rfl).record (.retval (s.pcbs p).call r)
  obtain rfl := h.eq
  exact h1

theorem setRunning (h : Drafted ds s t) (p : PcbRef) :
    Drafted ds (s.setRunning p) (t.setRunning p) :=
  h.map (State.setRunning · p) (fun _ => rfl) (fun _ => rfl) fun _ => list_setRunning

/-- An assignment to a queue, but for those that wait at it. -/
theorem updQueue (h : Drafted ds s t) (q : QueueRef) {f : MessageQueue → MessageQueue}
    (hr : ∀ a, (f a).waitingReceivers = a.waitingReceivers)
    (hw : ∀ a, (f a).waitingSenders = a.waitingSenders) :
    Drafted ds (s.updQueue q f) (t.updQueue q f) :=
  h.map (State.updQueue · q f) (fun _ => rfl) (fun _ => rfl) fun L => by
    cases L with
    | receivers i | senders i => simp only [State.list, updQueue_queues]; split <;> simp [hr, hw]
    | _ => rfl

theorem updResource (h : Drafted ds s t) (x : ResourceRef) (f : Resource → Resource) :
    Drafted ds (s.updResource x f) (t.updResource x f) := by
  cases x with
  | generic i =>
    exact h.map (State.updResource · (.generic i) f) (fun _ => rfl) (fun _ => rfl) fun L => by
      cases L <;> rfl
  | queue q =>
    exact h.updQueue q (f := fun mq => { mq with resource := f mq.resource }) (fun _ => rfl)
      fun _ => rfl

/-! ## Lists -/

theorem setList (h : Drafted ds s t) (hps : L.status = .waiting → ∀ p ∈ ps, ds p = none) :
    Drafted ds (s.setList L ps) (t.setList L ps) := by
  obtain ⟨rfl, ha, hp⟩ := h
  refine ⟨by cases L <;> rfl, fun p hd => by simpa using ha p hd, fun p hd L' hL' hm => ?_⟩
  by_cases he : L' = L
  · subst he
    rw [list_setList_self] at hm
    exact hd (hps hL' p hm)
  · rw [list_setList_of_ne he] at hm
    exact hp p hd L' hL' hm

theorem listInsert (h : Drafted ds s t) (hps : L.status = .waiting → ∀ p ∈ ps, ds p = none)
    (p : PcbRef) : Corresponds (Drafted ds) (s.listInsert L p ps) (t.listInsert L p ps) := by
  have h1 := h.setList hps
  obtain rfl := h.eq
  unfold State.listInsert State.linked State.listed
  simp only [withDrafts_list]
  split
  · exact h
  · split
    · exact rfl
    · exact h1

theorem listInsertLast (h : Drafted ds s t) (p : PcbRef) (hp : L.status = .waiting → ds p = none) :
    Corresponds (Drafted ds) (s.listInsertLast L p) (t.listInsertLast L p) := by
  unfold State.listInsertLast
  rw [h.list]
  refine h.listInsert (fun hL i hi => ?_) p
  rcases List.mem_append.1 hi with hi | hi
  · exact h.none_of_mem hL hi
  · exact List.mem_singleton.1 hi ▸ hp hL

theorem listDetach (h : Drafted ds s t) (p : PcbRef) :
    Corresponds (Drafted ds) (s.listDetach L p) (t.listDetach L p) := by
  unfold State.listDetach
  rw [h.list]
  split
  · exact h.setList fun hL i hi => h.none_of_mem hL (List.mem_of_mem_erase hi)
  · exact rfl

theorem listDetachFirst (h : Drafted ds s t) :
    Corresponds (fun a b => a.1 = b.1 ∧ (L.status = .waiting → ds a.1 = none) ∧
      Drafted ds a.2 b.2) (s.listDetachFirst L) (t.listDetachFirst L) := by
  unfold State.listDetachFirst
  rw [h.list]
  cases hl : s.list L with
  | nil => exact rfl
  | cons p ps =>
    have hm : ∀ i ∈ p :: ps, i ∈ s.list L := fun i hi => hl ▸ hi
    exact ⟨rfl, fun hL => h.none_of_mem hL (hm p List.mem_cons_self),
      h.setList fun hL i hi => h.none_of_mem hL (hm i (List.mem_cons_of_mem _ hi))⟩

/-! ## Timers and the scheduler -/

theorem removeCurrent (h : Drafted ds s t) (x : TimerItem) :
    Drafted ds (timerListRemoveCurrent s x) (timerListRemoveCurrent t x) :=
  h.map (timerListRemoveCurrent · x) (fun _ => rfl) (fun _ => rfl) fun L => by cases L <;> rfl

theorem wakeTimers : ∀ (xs : List TimerItem) (prev : Option PcbRef) {s t : State},
    Drafted ds s t → Corresponds (Drafted ds) (wakeTimers xs prev s) (wakeTimers xs prev t)
  | [], _, _, _, h => h
  | x :: xs, prev, s, t, h => by
    simp only [DisastrOS.wakeTimers]
    rw [show t.time = s.time by rw [h.eq]; rfl]
    split
    · refine (h.listDetach x.pcb).bind fun a b h1 => ?_
      have h2 := (h1.setStatus x.pcb .ready (.inl (by decide))).setTimer x.pcb none
      unfold State.listInsertAfter
      rw [h2.list]
      refine (h2.listInsert (L := .ready) (fun hL => by cases hL) x.pcb).bind fun a b h3 => ?_
      exact wakeTimers xs _ (h3.removeCurrent x)
    · exact h

theorem dispatch (h : Drafted ds s t) :
    Corresponds (Drafted ds) (dispatch s) (dispatch t) := by
  unfold DisastrOS.dispatch
  rw [show t.readyList = s.readyList by rw [h.eq]; rfl]
  split
  · exact h
  · refine (h.listDetachFirst (L := .ready)).bind ?_
    rintro ⟨next, s₁⟩ ⟨next', t₁⟩ ⟨rfl, -, h1⟩
    have h2 := (h1.setStatus s₁.running .ready (.inl (by decide))).listInsertLast
      (L := .ready) s₁.running fun hL => by cases hL
    have h3 : ∀ {u v}, Drafted ds u v →
        Drafted ds ((u.setStatus next .running).setRunning next)
          ((v.setStatus next .running).setRunning next) := fun h =>
      (h.setStatus next .running (.inl (by decide))).setRunning next
    obtain rfl := h1.eq
    simp only [withDrafts_running, withDrafts_pcbs, scribble_status]
    split
    · exact h2.bind fun _ _ h => h3 h
    · exact h3 h1

theorem schedule (h : Drafted ds s t) :
    Corresponds (Drafted ds) (internalSchedule s) (internalSchedule t) := by
  unfold internalSchedule
  rw [show t.timerList = s.timerList by rw [h.eq]; rfl]
  exact (wakeTimers _ none h).bind fun _ _ h1 => h1.dispatch

end Drafted

end

end DisastrOS
