import DisastrOS.Proof.Resources

/-!
# The process table in any run

A `sleep` for which nobody can run instead of the caller leaves it running and on the waiting list.
`Table s X` is what remains true of the process table after that, whatever is called next: the lists
are disjoint, every allocated process but those of `X` is on one of them, and it has the status of
its list or is a zombie on the waiting list. An insertion of a process that has a neighbour on some
list does nothing.

`Rests p s s'` says that nothing has happened to process `p`, and `Resting s p` that nothing will
before a timer of `p` elapses.
-/

namespace DisastrOS

open Lib State

/-- `p` is on no list. -/
def State.Unlisted (s : State) (p : PcbRef) : Prop := ∀ L, p ∉ s.list L

/-- What always holds of the process table (module doc). -/
structure Table (s : State) (X : List PcbRef) : Prop where
  pool : s.pcbPool.Ok
  alloc : ∀ {L p}, p ∈ s.list L → s.Alloc p
  status : ∀ {L p}, p ∈ s.list L →
    (s.pcbs p).status = L.status ∨ L = .waiting ∧ (s.pcbs p).status = .zombie
  nodup : ∀ L, (s.list L).Nodup
  disj : ∀ {L L' p}, p ∈ s.list L → p ∈ s.list L' → L = L'
  total : ∀ {p}, s.Alloc p → p ∉ X → ∃ L, p ∈ s.list L
  queues : ∀ {q p}, p ∈ s.list (.receivers q) ∨ p ∈ s.list (.senders q) → s.queuePool.Used q
  size : s.queuePool.sizeMax = maxMessageQueues

/-- No process is twice on the lists, and those that are not looked at are empty. -/
structure Surveyed (s : State) : Prop extends Apart s where
  looked : ∀ {L p}, p ∈ s.list L → L ∈ PcbList.all

/-- Nothing has happened to process `p`. -/
structure Rests (p : PcbRef) (s s' : State) : Prop where
  status : (s'.pcbs p).status = (s.pcbs p).status
  syscallNum : (s'.pcbs p).syscallNum = (s.pcbs p).syscallNum
  pid : (s'.pcbs p).pid = (s.pcbs p).pid
  list : ∀ L, L ≠ .zombie → (p ∈ s'.list L ↔ p ∈ s.list L)
  timers : ∀ t ∈ s'.timerList, t.pcb = p → t ∈ s.timerList
  time : s'.time = s.time
  running : s'.running = p → s.running = p

/-- Nothing but an elapsed timer can wake `p`, and no timer of it has elapsed. -/
structure Resting (s : State) (p : PcbRef) : Prop where
  running : s.running ≠ p
  ready : p ∉ s.list .ready
  receivers : ∀ q, p ∉ s.list (.receivers q)
  senders : ∀ q, p ∉ s.list (.senders q)
  timers : ∀ t ∈ s.timerList, t.pcb = p → s.time < t.awakeningTime
  wait : (s.pcbs p).status = .waiting → (s.pcbs p).syscallNum ≠ dsosCallWait

/-- `s'` has the process table of `s`, perhaps with fewer timers. -/
structure Still (s s' : State) : Prop where
  running : s'.running = s.running
  time : s'.time = s.time
  lastPid : s'.lastPid = s.lastPid
  timers : ∀ t ∈ s'.timerList, t ∈ s.timerList
  pcbPool : s'.pcbPool = s.pcbPool
  list : ∀ L, s'.list L = s.list L
  status : ∀ p, (s'.pcbs p).status = (s.pcbs p).status
  syscallNum : ∀ p, (s'.pcbs p).syscallNum = (s.pcbs p).syscallNum
  pid : ∀ p, (s'.pcbs p).pid = (s.pcbs p).pid
  used : ∀ q, s.queuePool.Used q → s'.queuePool.Used q
  size : s'.queuePool.sizeMax = s.queuePool.sizeMax

section
variable {s s' s'' : State} {X Y : List PcbRef} {L L' : PcbList} {p q : PcbRef} {ps : List PcbRef}

namespace Still

theorem refl (s : State) : Still s s :=
  ⟨rfl, rfl, rfl, fun _ => id, rfl, fun _ => rfl, fun _ => rfl, fun _ => rfl, fun _ => rfl,
    fun _ => id, rfl⟩

theorem trans (h : Still s s') (h' : Still s' s'') : Still s s'' where
  running := h'.running.trans h.running
  time := h'.time.trans h.time
  lastPid := h'.lastPid.trans h.lastPid
  timers t ht := h.timers t (h'.timers t ht)
  pcbPool := h'.pcbPool.trans h.pcbPool
  list L := (h'.list L).trans (h.list L)
  status p := (h'.status p).trans (h.status p)
  syscallNum p := (h'.syscallNum p).trans (h.syscallNum p)
  pid p := (h'.pid p).trans (h.pid p)
  used q hq := h'.used q (h.used q hq)
  size := h'.size.trans h.size

theorem quiet (h : Quiet s s') : Still s s' :=
  ⟨h.running, h.time, h.lastPid, fun t ht => h.timerList ▸ ht, h.pcbPool, h.list, h.status,
    h.syscallNum, h.pid, fun q => by rw [h.queuePool]; exact id, by rw [h.queuePool]⟩

theorem alloc (h : Still s s') : s'.Alloc p ↔ s.Alloc p := by
  unfold State.Alloc; rw [h.pcbPool]

theorem unlisted (h : Still s s') : s'.Unlisted p ↔ s.Unlisted p := by
  simp only [State.Unlisted, h.list]

end Still

namespace Rests

theorem refl (p : PcbRef) (s : State) : Rests p s s :=
  ⟨rfl, rfl, rfl, fun _ _ => .rfl, fun _ h _ => h, rfl, id⟩

theorem trans (h : Rests p s s') (h' : Rests p s' s'') : Rests p s s'' where
  status := h'.status.trans h.status
  syscallNum := h'.syscallNum.trans h.syscallNum
  pid := h'.pid.trans h.pid
  list L hL := (h'.list L hL).trans (h.list L hL)
  timers t ht hp := h.timers t (h'.timers t ht hp) hp
  time := h'.time.trans h.time
  running hp := h.running (h'.running hp)

theorem still (h : Still s s') : Rests p s s' where
  status := h.status p
  syscallNum := h.syscallNum p
  pid := h.pid p
  list L _ := by rw [h.list]
  timers t ht _ := h.timers t ht
  time := h.time
  running hp := h.running ▸ hp

theorem setStatus (hq : q ≠ p) (st : ProcessStatus) : Rests p s (s.setStatus q st) := by
  refine ⟨?_, ?_, ?_, fun L _ => by rw [list_setStatus], fun _ h _ => h, rfl, id⟩ <;>
    simp [Ne.symm hq]

theorem setRunning (hq : q ≠ p) : Rests p s (s.setRunning q) :=
  ⟨rfl, rfl, rfl, fun L _ => by rw [list_setRunning], fun _ h _ => h, rfl, fun h => absurd h hq⟩

theorem pcbFree (q : PcbRef) : Rests p s (pcbFree s q) :=
  ⟨rfl, rfl, rfl, fun L _ => by cases L <;> rfl, fun _ h _ => h, rfl, id⟩

/-- Other processes come to `L` or leave it. -/
theorem setList (h : p ∈ ps ↔ p ∈ s.list L) : Rests p s (s.setList L ps) where
  status := by rw [setList_pcbs]
  syscallNum := by rw [setList_pcbs]
  pid := by rw [setList_pcbs]
  list L' _ := by
    by_cases hL : L' = L
    · subst hL
      rw [list_setList_self, h]
    · rw [list_setList_of_ne hL]
  timers t ht _ := by rwa [setList_timerList] at ht
  time := setList_time
  running hp := by rwa [setList_running] at hp

end Rests

theorem Resting.rests (h : Resting s p) (h' : Rests p s s') : Resting s' p where
  running hp := h.running (h'.running hp)
  ready hp := h.ready ((h'.list .ready (by simp)).1 hp)
  receivers q hp := h.receivers q ((h'.list (.receivers q) (by simp)).1 hp)
  senders q hp := h.senders q ((h'.list (.senders q) (by simp)).1 hp)
  timers t ht hp := by
    rw [h'.time]
    exact h.timers t (h'.timers t ht hp) hp
  wait hw := by
    rw [h'.status] at hw
    rw [h'.syscallNum]
    exact h.wait hw

/-! ## Insertions -/

namespace Surveyed

theorem linked_iff (h : Surveyed s) : s.linked p ↔ ∃ L, p ∈ s.list L ∧ s.list L ≠ [p] := by
  simp only [State.linked, List.any_eq_true, decide_eq_true_eq]
  constructor
  · intro hp
    obtain ⟨L, -, hp, hlen⟩ := hp
    exact ⟨L, hp, (two_le_length_iff hp).1 hlen⟩
  · intro hp
    obtain ⟨L, hp, hne⟩ := hp
    exact ⟨L, h.looked hp, hp, (two_le_length_iff hp).2 hne⟩

theorem listed_iff (h : Surveyed s) : s.listed p ↔ ∃ L, p ∈ s.list L := by
  simp only [State.listed, List.any_eq_true, decide_eq_true_eq]
  constructor
  · intro hp
    obtain ⟨L, -, hp⟩ := hp
    exact ⟨L, hp⟩
  · intro hp
    obtain ⟨L, hp⟩ := hp
    exact ⟨L, h.looked hp, hp⟩

/-- `List_insert` refuses a process with a neighbour. -/
theorem listInsert_linked (h : Surveyed s) (hp : p ∈ s.list L') (hne : s.list L' ≠ [p]) :
    s.listInsert L p ps = .ok s := by
  unfold State.listInsert
  rw [if_pos (h.linked_iff.2 ⟨L', hp, hne⟩)]

/-- A process alone on a list passes its test and would be linked twice. -/
theorem listInsert_alone (h : Surveyed s) (hone : s.list L' = [p]) :
    s.listInsert L p ps = .error .corrupted := by
  have hp : p ∈ s.list L' := by simp [hone]
  have hlinked : ¬ s.linked p := by
    intro hl
    obtain ⟨L'', hp', hne⟩ := h.linked_iff.1 hl
    exact hne (h.disj hp' hp ▸ hone)
  unfold State.listInsert
  rw [if_neg hlinked, if_pos (h.listed_iff.2 ⟨L', hp⟩)]

/-- `List_insert` does nothing to a process with a neighbour; otherwise it finds it on no list. -/
theorem listInsert_cases (h : Surveyed s) (hi : s.listInsert L p ps = .ok s') :
    (∃ L', p ∈ s.list L') ∧ s' = s ∨ s.Unlisted p ∧ s' = s.setList L ps := by
  by_cases hlisted : ∃ L', p ∈ s.list L'
  · obtain ⟨L', hp⟩ := hlisted
    by_cases hone : s.list L' = [p]
    · rw [h.listInsert_alone hone] at hi
      cases hi
    · rw [h.listInsert_linked hp hone] at hi
      cases hi
      exact .inl ⟨⟨L', hp⟩, rfl⟩
  · have hno : s.Unlisted p := fun L' hp => hlisted ⟨L', hp⟩
    rw [listInsert_of_unlisted hno] at hi
    cases hi
    exact .inr ⟨hno, rfl⟩

/-- The insertion of a process on no list. -/
theorem listInsert_eq (h : Surveyed s) (hp : s.Unlisted p) (hi : s.listInsert L p ps = .ok s') :
    s' = s.setList L ps := by
  rcases h.listInsert_cases hi with ⟨⟨L', hL'⟩, -⟩ | ⟨-, rfl⟩
  · exact absurd hL' (hp L')
  · rfl

end Surveyed

namespace Table

/-! ## Frames -/

theorem congr (h : Table s X) (hp : s'.pcbPool = s.pcbPool) (hl : ∀ L, s'.list L = s.list L)
    (hs : ∀ p, (s'.pcbs p).status = (s.pcbs p).status)
    (hq : ∀ {q p}, p ∈ s.list (.receivers q) ∨ p ∈ s.list (.senders q) → s'.queuePool.Used q)
    (hz : s'.queuePool.sizeMax = s.queuePool.sizeMax) : Table s' X where
  pool := hp ▸ h.pool
  alloc hm := by rw [hl] at hm; unfold State.Alloc; rw [hp]; exact h.alloc hm
  status hm := by rw [hl] at hm; rw [hs]; exact h.status hm
  nodup L := by rw [hl]; exact h.nodup L
  disj hm hm' := by rw [hl] at hm hm'; exact h.disj hm hm'
  total ha hx := by
    unfold State.Alloc at ha
    rw [hp] at ha
    simp only [hl]
    exact h.total ha hx
  queues hm := by rw [hl, hl] at hm; exact hq hm
  size := hz.trans h.size

theorem still (h : Table s X) (hs : Still s s') : Table s' X :=
  h.congr hs.pcbPool hs.list hs.status (fun hm => hs.used _ (h.queues hm)) hs.size

theorem setRunning (h : Table s X) (p : PcbRef) : Table (s.setRunning p) X :=
  h.congr rfl (fun _ => list_setRunning) (fun _ => rfl) h.queues rfl

/-- A process on a list needs no exemption. -/
theorem drop (h : Table s (p :: X)) (hp : p ∈ s.list L) : Table s X :=
  { h with
    total := fun {q} ha hx => by
      by_cases hq : q = p
      · exact ⟨L, hq ▸ hp⟩
      · exact h.total ha (by simp [hq, hx]) }

theorem mono (h : Table s X) (hX : ∀ p ∈ X, p ∈ Y) : Table s Y :=
  { h with total := fun ha hx => h.total ha fun hm => hx (hX _ hm) }

theorem setStatus_of (h : Table s X) {st : ProcessStatus}
    (hp : ∀ L, p ∈ s.list L → st = L.status ∨ L = .waiting ∧ st = .zombie) :
    Table (s.setStatus p st) X := by
  refine { h with alloc := ?_, status := ?_, nodup := ?_, disj := ?_, total := ?_, queues := ?_ } <;>
    simp only [list_setStatus]
  · exact h.alloc
  · intro L q hq
    by_cases hqp : q = p
    · subst hqp
      simpa using hp L hq
    · simpa [hqp] using h.status hq
  · exact h.nodup
  · exact h.disj
  · exact h.total
  · exact h.queues

/-- A process on no list may have any status. -/
theorem setStatus (h : Table s X) (hp : s.Unlisted p) (st : ProcessStatus) :
    Table (s.setStatus p st) X :=
  h.setStatus_of fun L hm => absurd hm (hp L)

/-- A process on no list but the waiting list may exit. -/
theorem setZombie (h : Table s X) (hp : ∀ L, p ∈ s.list L → L = .waiting) :
    Table (s.setStatus p .zombie) X :=
  h.setStatus_of fun L hm => .inr ⟨hp L hm, rfl⟩

/-- The block of a process on no list is freed. -/
theorem pcbFree (h : Table s (p :: X)) (hp : s.Unlisted p) (ha : s.Alloc p) :
    Table (pcbFree s p) X := by
  have hl : ∀ L, (DisastrOS.pcbFree s p).list L = s.list L := fun L => by cases L <;> rfl
  have hall : ∀ q, (DisastrOS.pcbFree s p).Alloc q ↔ q ≠ p ∧ s.Alloc q := fun q =>
    Pool.used_release ha
  refine ⟨h.pool.release p, fun {L q} hm => ?_, fun {L q} hm => ?_, fun L => ?_,
    fun {L L' q} hm hm' => ?_, fun {q} ha' hx => ?_, fun {i q} hm => ?_, h.size⟩
  · rw [hl] at hm
    exact (hall q).2 ⟨fun e => hp L (e ▸ hm), h.alloc hm⟩
  · rw [hl] at hm
    exact h.status hm
  · rw [hl]
    exact h.nodup L
  · rw [hl] at hm hm'
    exact h.disj hm hm'
  · simp only [hl]
    exact h.total ((hall q).1 ha').2 (by simp [((hall q).1 ha').1, hx])
  · rw [hl, hl] at hm
    exact h.queues hm

/-- A free block becomes a process, which is on no list yet. -/
theorem newborn {pool : Pool} (h : Table s X) (hg : s.pcbPool.get = some (p, pool)) :
    ¬ s.Alloc p ∧ Table (newborn s p pool) (p :: X) ∧ (newborn s p pool).Unlisted p ∧
      ∀ q, (DisastrOS.newborn s p pool).Alloc q ↔ q = p ∨ s.Alloc q := by
  have hnew : ¬ s.Alloc p := Pool.not_used_get hg
  have hl : ∀ L, (DisastrOS.newborn s p pool).list L = s.list L := fun L => by cases L <;> rfl
  have hall : ∀ q, (DisastrOS.newborn s p pool).Alloc q ↔ q = p ∨ s.Alloc q := fun q =>
    h.pool.used_get hg
  have hne : ∀ {L q}, q ∈ s.list L → q ≠ p := fun hq e => hnew (e ▸ h.alloc hq)
  refine ⟨hnew, ⟨h.pool.get hg, fun {L q} hm => ?_, fun {L q} hm => ?_, fun L => ?_,
    fun {L L' q} hm hm' => ?_, fun {q} ha hx => ?_, fun {i q} hm => ?_, h.size⟩,
    fun L hm => ?_, hall⟩
  · rw [hl] at hm
    exact (hall q).2 (.inr (h.alloc hm))
  · rw [hl] at hm
    simpa [DisastrOS.newborn, hne hm] using h.status hm
  · rw [hl]
    exact h.nodup L
  · rw [hl] at hm hm'
    exact h.disj hm hm'
  · simp only [hl]
    simp only [List.mem_cons, not_or] at hx
    exact h.total (((hall q).1 ha).resolve_left hx.1) hx.2
  · rw [hl, hl] at hm
    exact h.queues hm
  · rw [hl] at hm
    exact hne hm rfl

/-- The block of a queue without waiting processes is freed. -/
theorem freeQueue {q : QueueRef} (h : Table s X) (hr : s.list (.receivers q) = [])
    (hs : s.list (.senders q) = []) : Table { s with queuePool := s.queuePool.release q } X := by
  refine h.congr rfl (fun L => by cases L <;> rfl) (fun _ => rfl) (fun {i p} hm => ?_)
    Pool.release_sizeMax
  have hne : i ≠ q := by
    rintro rfl
    rw [hr, hs] at hm
    rcases hm with hm | hm <;> cases hm
  by_cases hu : s.queuePool.Used q
  · exact (Pool.used_release hu).2 ⟨hne, h.queues hm⟩
  · unfold Pool.release
    rw [if_neg hu]
    exact h.queues hm

/-! ## Lists -/

theorem unlisted_setStatus {st : ProcessStatus} : (s.setStatus q st).Unlisted p ↔ s.Unlisted p := by
  simp [State.Unlisted]

theorem apart (h : Table s X) : Apart s := ⟨h.nodup, h.disj⟩

theorem surveyed (h : Table s X) : Surveyed s where
  toApart := h.apart
  looked {L p} hp := by
    have hlt : ∀ {q}, s.queuePool.Used q → q < maxMessageQueues := fun hu => h.size ▸ hu.1
    cases L with
    | receivers q => simpa [PcbList.all] using hlt (h.queues (.inl hp))
    | senders q => simpa [PcbList.all] using hlt (h.queues (.inr hp))
    | _ => simp [PcbList.all]

theorem detach (h : Table s X) (hps : (s.list L).Perm (p :: ps)) :
    Table (s.setList L ps) (p :: X) ∧ (s.setList L ps).Unlisted p := by
  have key : ∀ {L' q}, q ∈ (s.setList L ps).list L' ↔ q ≠ p ∧ q ∈ s.list L' :=
    h.apart.mem_detach hps
  have hap := h.apart.detach hps
  refine ⟨⟨by simpa using h.pool, ?_, ?_, hap.nodup, hap.disj, ?_, ?_, by simpa using h.size⟩,
    fun L' hp => (key.1 hp).1 rfl⟩
  · intro L' q hq
    unfold State.Alloc
    rw [setList_pcbPool]
    exact h.alloc (key.1 hq).2
  · intro L' q hq
    rw [setList_pcbs]
    exact h.status (key.1 hq).2
  · intro q ha hx
    unfold State.Alloc at ha
    rw [setList_pcbPool] at ha
    simp only [List.mem_cons, not_or] at hx
    obtain ⟨L', hm⟩ := h.total ha hx.2
    exact ⟨L', key.2 ⟨hx.1, hm⟩⟩
  · intro i q hq
    rw [setList_queuePool]
    exact h.queues (hq.imp (fun hq => (key.1 hq).2) fun hq => (key.1 hq).2)

theorem detach_erase (h : Table s X) (hp : p ∈ s.list L) :
    Table (s.setList L ((s.list L).erase p)) (p :: X) ∧
      (s.setList L ((s.list L).erase p)).Unlisted p :=
  h.detach (List.perm_cons_erase hp)

theorem detach_first (h : Table s X) (hL : s.list L = p :: ps) :
    Table (s.setList L ps) (p :: X) ∧ (s.setList L ps).Unlisted p :=
  h.detach (hL ▸ .refl _)

/-- A process on no list goes to `L`, whose status it has. -/
theorem insert (h : Table s (p :: X)) (hp : s.Unlisted p) (ha : s.Alloc p)
    (hst : (s.pcbs p).status = L.status) (hps : ps.Perm (p :: s.list L))
    (hq : ∀ q, L = .receivers q ∨ L = .senders q → s.queuePool.Used q) :
    Table (s.setList L ps) X := by
  have key : ∀ {L' q}, q ∈ (s.setList L ps).list L' ↔ L' = L ∧ q = p ∨ q ∈ s.list L' :=
    mem_insert hps
  have hap := h.apart.insert hp hps
  refine ⟨by simpa using h.pool, ?_, ?_, hap.nodup, hap.disj, ?_, ?_, by simpa using h.size⟩
  · intro L' q hq
    unfold State.Alloc
    rw [setList_pcbPool]
    rcases key.1 hq with ⟨-, rfl⟩ | hq
    exacts [ha, h.alloc hq]
  · intro L' q hq
    rw [setList_pcbs]
    rcases key.1 hq with ⟨rfl, rfl⟩ | hq
    exacts [.inl hst, h.status hq]
  · intro q ha' hx
    unfold State.Alloc at ha'
    rw [setList_pcbPool] at ha'
    by_cases hqp : q = p
    · exact ⟨L, key.2 (.inl ⟨rfl, hqp⟩)⟩
    · obtain ⟨L', hm⟩ := h.total ha' (by simp [hqp, hx])
      exact ⟨L', key.2 (.inr hm)⟩
  · intro i q hm
    rw [setList_queuePool]
    rcases hm with hm | hm
    · rcases key.1 hm with ⟨e, -⟩ | hm
      exacts [hq i (.inl e.symm), h.queues (.inl hm)]
    · rcases key.1 hm with ⟨e, -⟩ | hm
      exacts [hq i (.inr e.symm), h.queues (.inr hm)]

/-- A process on no list becomes the running one. -/
theorem run (h : Table s [p]) (hp : s.Unlisted p) :
    Table ((s.setStatus p .running).setRunning p) [p] ∧
      ((s.setStatus p .running).setRunning p).Unlisted p ∧
      ∀ q, p ≠ q → Rests q s ((s.setStatus p .running).setRunning p) := by
  have h1 := h.setStatus hp .running
  refine ⟨h1.setRunning p, fun L hm => ?_, fun q hq => (Rests.setStatus hq _).trans (.setRunning hq)⟩
  rw [list_setRunning, list_setStatus] at hm
  exact hp L hm

end Table

/-! ## Wake-ups -/

/-- Processes may have moved, but none was created or freed, and the resources are the same. -/
structure Shift (s s' : State) : Prop extends Keeps s s' where
  time : s'.time = s.time
  pcbPool : s'.pcbPool = s.pcbPool
  lastPid : s'.lastPid = s.lastPid
  pid : ∀ p, (s'.pcbs p).pid = (s.pcbs p).pid

namespace Shift

theorem trans (h : Shift s s') (h' : Shift s' s'') : Shift s s'' :=
  ⟨h.toKeeps.trans h'.toKeeps, h'.time.trans h.time, h'.pcbPool.trans h.pcbPool,
    h'.lastPid.trans h.lastPid, fun p => (h'.pid p).trans (h.pid p)⟩

theorem quiet (h : Quiet s s') : Shift s s' := ⟨.quiet h, h.time, h.pcbPool, h.lastPid, h.pid⟩

theorem rescheduled (h : Rescheduled s s') : Shift s s' :=
  ⟨.rescheduled h, (congrArg State.time h.same :), h.pcbPool, h.lastPid, fun p => by rw [h.pcbs]⟩

theorem setList (s : State) (L : PcbList) (ps : List PcbRef) : Shift s (s.setList L ps) :=
  ⟨.setList s L ps, setList_time, setList_pcbPool, setList_lastPid, fun p => by rw [setList_pcbs]⟩

theorem setStatus (s : State) (p : PcbRef) (st : ProcessStatus) : Shift s (s.setStatus p st) :=
  ⟨.same rfl rfl rfl rfl rfl, rfl, rfl, rfl, fun q => by simp⟩

theorem setRunning (s : State) (p : PcbRef) : Shift s (s.setRunning p) :=
  ⟨.same rfl rfl rfl rfl rfl, rfl, rfl, rfl, fun _ => rfl⟩

theorem listInsert (h : s.listInsert L p ps = .ok s') : Shift s s' := by
  rcases listInsert_cases h with rfl | rfl
  exacts [quiet (.refl s'), setList s L ps]

theorem alloc (h : Shift s s') : s'.Alloc p ↔ s.Alloc p := by
  unfold State.Alloc; rw [h.pcbPool]

end Shift

/-- The first process of a queue's list is made ready, and nobody else is touched. -/
theorem Wakes.table (h : Table s X) (hw : Wakes L s s') :
    Table s' X ∧ Shift s s' ∧ s'.running = s.running ∧ ∀ p, p ∉ s.list L → Rests p s s' := by
  obtain ⟨p, ps, s₁, hL, hq, hi⟩ := hw
  have hpL : p ∈ s.list L := hL ▸ List.mem_cons_self
  obtain ⟨h1, hu1⟩ := h.detach_first hL
  have h2 := h1.still (.quiet hq)
  have hu2 : s₁.Unlisted p := (Still.quiet hq).unlisted.2 hu1
  have hu3 : (s₁.setStatus p .ready).Unlisted p := Table.unlisted_setStatus.2 hu2
  have h3 := h2.setStatus hu2 .ready
  have heq := h3.surveyed.listInsert_eq hu3 hi
  have hsh : Shift s s' := ((Shift.setList s L ps).trans (.quiet hq)).trans
    ((Shift.setStatus s₁ p .ready).trans (.listInsert hi))
  have ha : (s₁.setStatus p .ready).Alloc p :=
    ((Shift.setList s L ps).trans (.quiet hq)).alloc.2 (h.alloc hpL)
  subst heq
  refine ⟨h3.insert hu3 ha (by simp [PcbList.status]) (List.perm_append_singleton _ _) (by simp),
    hsh, ?_, fun q hqL => ?_⟩
  · rw [setList_running]
    exact hq.running.trans setList_running
  · have hne : p ≠ q := fun e => hqL (e ▸ hpL)
    have h4 : Rests q s (s.setList L ps) := .setList ⟨fun hm => hL ▸ List.mem_cons_of_mem _ hm,
      fun hm => (List.mem_cons.1 (hL ▸ hm)).resolve_left (Ne.symm hne)⟩
    refine h4.trans ((Rests.still (.quiet hq)).trans ((Rests.setStatus hne .ready).trans
      (.setList ⟨fun hm => ?_, fun hm => List.mem_append_left _ hm⟩)))
    exact (List.mem_append.1 hm).resolve_right fun e => hne (List.mem_singleton.1 e).symm

/-! ## The scheduler -/

/-- One turn of the wake-up loop. -/
theorem wakeTimers_turn {t : TimerItem} {ts : List TimerItem} {prev : Option PcbRef}
    (h : Table s X) (hw : wakeTimers (t :: ts) prev s = .ok s') :
    (t.awakeningTime ≤ s.time ∧ t.pcb ∈ s.list .waiting ∧ Table (woken s prev t) X ∧
      (∀ p, p ≠ t.pcb → Rests p s (woken s prev t)) ∧
      wakeTimers ts (some t.pcb) (woken s prev t) = .ok s') ∨
    s.time < t.awakeningTime ∧ s' = s := by
  rw [wakeTimers] at hw
  split at hw
  · rename_i hle
    obtain ⟨s₁, h₁, hw⟩ := bind_eq_ok.1 hw
    obtain ⟨s₂, h₂, hw⟩ := bind_eq_ok.1 hw
    obtain ⟨hp, rfl⟩ := listDetach_cases h₁
    obtain ⟨h1, hu1⟩ := h.detach_erase hp
    have h2 := h1.setStatus hu1 .ready
    have hst : Still ((s.setList .waiting ((s.list .waiting).erase t.pcb)).setStatus t.pcb .ready)
        (((s.setList .waiting ((s.list .waiting).erase t.pcb)).setStatus t.pcb .ready).setTimer
          t.pcb none) := by
      refine ⟨rfl, rfl, rfl, fun _ => id, rfl, fun _ => list_setTimer, fun q => ?_, fun q => ?_,
        fun q => ?_, fun _ => id, rfl⟩ <;> simp
    have h3 := h2.still hst
    have hu3 := hst.unlisted.2 (Table.unlisted_setStatus.2 hu1)
    obtain rfl := h3.surveyed.listInsert_eq hu3 h₂
    have h4 := h3.insert (L := .ready) hu3 (h.alloc hp) (by simp [PcbList.status])
      (insertAfter_perm prev _ _) (by simp)
    refine .inl ⟨hle, hp, h4.still ?_, fun q hq => ?_, hw⟩
    · exact ⟨rfl, rfl, rfl, fun t' ht' => List.mem_of_mem_tail ht', rfl, fun L => by cases L <;> rfl,
        fun _ => rfl, fun _ => rfl, fun _ => rfl, fun _ => id, rfl⟩
    · refine ⟨?_, ?_, ?_, fun L _ => ?_, fun t' ht' _ => List.mem_of_mem_tail ht', rfl, id⟩
      · rw [woken_pcbs hq]
      · rw [woken_pcbs hq]
      · rw [woken_pcbs hq]
      · cases L with
        | ready =>
          change q ∈ insertAfter prev t.pcb s.readyList ↔ _
          rw [(insertAfter_perm prev t.pcb s.readyList).mem_iff, List.mem_cons]
          exact or_iff_right hq
        | waiting => exact List.mem_erase_of_ne hq
        | _ => exact .rfl
  · cases hw
    exact .inr ⟨Int.not_le.1 ‹_›, rfl⟩

/-- The wake-up loop moves processes whose timers have elapsed to the ready list. -/
theorem wakeTimers_table : ∀ {ts : List TimerItem} {prev : Option PcbRef} {s : State}, Table s X →
    s.timerList = ts → wakeTimers ts prev s = .ok s' → Table s' X ∧ ∀ p, Rests p s s' ∨
      p ∈ s.list .waiting ∧ p ∈ s'.list .ready ∧
        ∃ t ∈ s.timerList, t.pcb = p ∧ t.awakeningTime ≤ s.time
  | [], _, s, h, _, hw => by
    cases hw
    exact ⟨h, fun p => .inl (.refl p _)⟩
  | t :: ts, prev, s, h, hts, hw => by
    rcases wakeTimers_turn h hw with ⟨hle, hp, h1, h2, hw⟩ | ⟨-, rfl⟩
    · obtain ⟨h3, h4⟩ := wakeTimers_table h1 (woken_timerList hts) hw
      refine ⟨h3, fun p => ?_⟩
      by_cases hpt : p = t.pcb
      · subst hpt
        have hr : t.pcb ∈ (woken s prev t).list .ready :=
          (insertAfter_perm prev t.pcb s.readyList).mem_iff.2 List.mem_cons_self
        refine .inr ⟨hp, ?_, t, hts ▸ List.mem_cons_self, rfl, hle⟩
        rcases h4 t.pcb with h5 | ⟨h5, -⟩
        · exact (h5.list .ready (by simp)).2 hr
        · cases h1.disj h5 hr
      · rcases h4 p with h5 | ⟨h5, h6, u, hu, hup, hue⟩
        · exact .inl ((h2 p hpt).trans h5)
        · exact .inr ⟨((h2 p hpt).list .waiting (by simp)).1 h5, h6, u,
            (h2 p hpt).timers u hu hup, hup, hue⟩
    · exact ⟨h, fun p => .inl (.refl p _)⟩

/-- If somebody can run, there is a ready process after the loop; otherwise it does nothing. -/
theorem wakeTimers_ready (h : Table s X) (hw : wakeTimers s.timerList none s = .ok s') :
    Schedulable s ∧ s'.list .ready ≠ [] ∨ ¬ Schedulable s ∧ s' = s := by
  obtain ⟨-, hor⟩ := wakeTimers_table h rfl hw
  by_cases hr : s.readyList = []
  · cases hts : s.timerList with
    | nil =>
      rw [hts] at hw
      cases hw
      exact .inr ⟨by simp [Schedulable, hr, hts], rfl⟩
    | cons t ts =>
      have hsched : Schedulable s ↔ t.awakeningTime ≤ s.time := by simp [Schedulable, hr, hts]
      rw [hts] at hw
      rcases wakeTimers_turn h hw with ⟨hle, -, h1, -, hw'⟩ | ⟨hlt, rfl⟩
      · have hm : t.pcb ∈ (woken s none t).list .ready :=
          (insertAfter_perm none t.pcb s.readyList).mem_iff.2 List.mem_cons_self
        refine .inl ⟨hsched.2 hle, List.ne_nil_of_mem (a := t.pcb) ?_⟩
        rcases (wakeTimers_table h1 (woken_timerList hts) hw').2 t.pcb with h2 | ⟨-, h2, -⟩
        exacts [(h2.list .ready (by simp)).2 hm, h2]
      · exact .inr ⟨fun hs => absurd (hsched.1 hs) (Int.not_le.2 hlt), rfl⟩
  · obtain ⟨p, hp⟩ := List.exists_mem_of_ne_nil _ hr
    refine .inl ⟨.inl hr, List.ne_nil_of_mem (a := p) ?_⟩
    rcases hor p with h1 | ⟨-, h1, -⟩
    exacts [(h1.list .ready (by simp)).2 hp, h1]

/-- The running process is on no list; one that waits is on some list. -/
def State.Current (s : State) (p : PcbRef) : Prop :=
  s.Unlisted p ∧ (s.pcbs p).status = .running ∨
    (∃ L, L ≠ .zombie ∧ p ∈ s.list L) ∧ (s.pcbs p).status ≠ .running

theorem State.Current.rests (h : s.Current p) (ht : Table s' X) (hr : Rests p s s') :
    s'.Current p := by
  rcases h with ⟨hu, hst⟩ | ⟨⟨L, hL, hm⟩, hst⟩
  · have hst' := hr.status.trans hst
    refine .inl ⟨fun L hm => ?_, hst'⟩
    by_cases hL : L = .zombie
    · subst hL
      rcases ht.status hm with h1 | ⟨h1, -⟩
      · rw [hst'] at h1
        cases h1
      · cases h1
    · exact hu L ((hr.list L hL).1 hm)
  · exact .inr ⟨⟨L, hL, (hr.list L hL).2 hm⟩, hr.status ▸ hst⟩

/-- The switch to the first ready process. -/
theorem dispatch_table (h : Table s [s.running]) (ha : s.Alloc s.running)
    (hr : s.Current s.running) (hd : dispatch s = .ok s') : s.list .ready = [] ∧ s' = s ∨
      Table s' [s'.running] ∧ s'.running ∈ s.list .ready ∧ s'.Unlisted s'.running ∧
        (s'.pcbs s'.running).status = .running ∧
        ∀ p, p ∉ s.list .ready → (s.running = p → (s.pcbs p).status ≠ .running) → Rests p s s' := by
  unfold dispatch at hd
  split at hd
  · cases hd
    exact .inl ⟨‹_›, rfl⟩
  obtain ⟨⟨next, s₁⟩, h₁, hd⟩ := bind_eq_ok.1 hd
  obtain ⟨rest, hL, rfl⟩ := listDetachFirst_cases h₁
  have hnext : next ∈ s.list .ready := hL ▸ List.mem_cons_self
  obtain ⟨h1, hu1⟩ := h.detach_first hL
  have hperm : (s.list .ready).Perm (next :: rest) := hL ▸ .refl _
  have hrest : ∀ p, p ∉ s.list .ready → Rests p s (s.setList .ready rest) := fun p hp =>
    .setList ⟨fun hm => hL ▸ List.mem_cons_of_mem _ hm, fun hm => absurd hm hp⟩
  -- it is enough to look at the state in which the new process is made to run
  suffices key : ∀ s₂, Table s₂ [next] → s₂.Unlisted next →
      (∀ p, p ∉ s.list .ready → (s.running = p → (s.pcbs p).status ≠ .running) → Rests p s s₂) →
      s' = (s₂.setStatus next .running).setRunning next →
      Table s' [s'.running] ∧ s'.running ∈ s.list .ready ∧ s'.Unlisted s'.running ∧
        (s'.pcbs s'.running).status = .running ∧
        ∀ p, p ∉ s.list .ready → (s.running = p → (s.pcbs p).status ≠ .running) → Rests p s s' by
    dsimp only at hd
    split at hd
    · rename_i hst
      obtain ⟨s₂, h₂, hd⟩ := bind_eq_ok.1 hd
      cases hd
      rw [setList_running] at hst h₂
      rw [setList_pcbs] at hst
      have hu := (hr.resolve_right fun hn => hn.2 hst).1
      have hne : s.running ≠ next := fun e => hu .ready (e ▸ hnext)
      have hu2 : (s.setList .ready rest).Unlisted s.running := fun L hm =>
        hu L ((h.apart.mem_detach hperm).1 hm).2
      have h2 := (h1.mono (Y := [s.running, next]) (by simp)).setStatus hu2 .ready
      have hu3 : ((s.setList .ready rest).setStatus s.running .ready).Unlisted s.running :=
        Table.unlisted_setStatus.2 hu2
      obtain rfl := h2.surveyed.listInsert_eq hu3 h₂
      refine .inr (key _ (h2.insert (L := .ready) hu3 ?_ (by simp [PcbList.status])
        (List.perm_append_singleton _ _) (by simp)) (fun L hm => ?_) (fun p hp hp' => ?_) rfl)
      · exact (Shift.setList s .ready rest).alloc.2 ha
      · by_cases hLr : L = .ready
        · subst hLr
          rw [list_setList_self, List.mem_append, list_setStatus, List.mem_singleton] at hm
          rcases hm with hm | rfl
          exacts [hu1 .ready hm, hne rfl]
        · rw [list_setList_of_ne hLr, list_setStatus] at hm
          exact hu1 L hm
      · have hnp : s.running ≠ p := fun e => hp' e (e ▸ hst)
        refine (hrest p hp).trans ((Rests.setStatus hnp .ready).trans (.setList ⟨fun hm => ?_,
          fun hm => List.mem_append_left _ hm⟩))
        exact (List.mem_append.1 hm).resolve_right fun e => hnp (List.mem_singleton.1 e).symm
    · rename_i hst
      cases hd
      rw [setList_running, setList_pcbs] at hst
      obtain ⟨⟨L, -, hm⟩, -⟩ := hr.resolve_left fun hn => hst hn.2
      refine .inr (key _ ?_ hu1 (fun p hp _ => hrest p hp) rfl)
      by_cases hne : s.running = next
      · exact h1.mono (by simp [hne])
      · exact (h1.mono (Y := [s.running, next]) (by simp)).drop ((h.apart.mem_detach hperm).2 ⟨hne, hm⟩)
  intro s₂ h2 hu hrests hs'
  obtain ⟨h3, h4, h5⟩ := h2.run hu
  subst hs'
  exact ⟨h3, hnext, h4, by simp, fun p hp hp' => (hrests p hp hp').trans
    (h5 p fun e => hp (e ▸ hnext))⟩

/-- **The scheduler** keeps the table. It settles on a process, or nobody can run and the running
process is left as it was; nothing happens to the resting processes. -/
theorem schedule_table (h : Table s [s.running]) (ha : s.Alloc s.running)
    (hr : s.Current s.running) (hs : internalSchedule s = .ok s') :
    Table s' [s'.running] ∧ Shift s s' ∧ (∀ p, Resting s p → Rests p s s') ∧
      (s'.Alloc s'.running ∧ s'.Unlisted s'.running ∧ (s'.pcbs s'.running).status = .running ∨
        s'.running = s.running ∧ Rests s.running s s') := by
  have hsh := Shift.rescheduled (Rescheduled.schedule hs)
  obtain ⟨s₁, h₁, hd⟩ := bind_eq_ok.1 hs
  obtain ⟨h1, h2⟩ := wakeTimers_table h rfl h₁
  have hrun := (Rescheduled.wakeTimers _ _ h₁).2
  have hsh₁ := Shift.rescheduled (Rescheduled.wakeTimers _ _ h₁).1
  have ha₁ : s₁.Alloc s₁.running := by
    rw [hrun]
    exact hsh₁.alloc.2 ha
  have hresting : ∀ p, Resting s p → Rests p s s₁ := fun p hp => by
    rcases h2 p with h3 | ⟨-, -, t, ht, htp, hle⟩
    · exact h3
    · have := hp.timers t ht htp
      omega
  have hr₁ : s₁.Current s₁.running := by
    rw [hrun]
    rcases h2 s.running with h3 | ⟨-, h3, -⟩
    · exact hr.rests h1 h3
    · refine .inr ⟨⟨_, by simp, h3⟩, ?_⟩
      rcases h1.status h3 with h4 | ⟨h4, -⟩
      · rw [h4]
        simp [PcbList.status]
      · cases h4
  rcases dispatch_table (hrun ▸ h1) ha₁ hr₁ hd with ⟨hnil, rfl⟩ | ⟨h3, h4, h5, h6, h7⟩
  · refine ⟨hrun ▸ h1, hsh, hresting, .inr ⟨hrun, ?_⟩⟩
    rcases h2 s.running with h3 | ⟨-, h3, -⟩
    · exact h3
    · rw [hnil] at h3
      cases h3
  · refine ⟨h3, hsh, fun p hp => (hresting p hp).trans (h7 p ?_ ?_), .inl ⟨?_, h5, h6⟩⟩
    · exact fun hm => hp.ready (((hresting p hp).list .ready (by simp)).1 hm)
    · intro he
      rw [hrun] at he
      exact absurd he hp.running
    · exact hsh.alloc.2 (hsh₁.alloc.1 (h1.alloc h4))

end

end DisastrOS
