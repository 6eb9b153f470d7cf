import DisastrOS.Model.Kernel

/-!
# Where every process is

`Placed s X`: every allocated PCB is on exactly one list, whose status it has, except those of `X`,
which are on none. `X` holds the running process and the PCBs a syscall has detached and not yet
inserted again, so that the invariant describes every point inside a syscall. The list operations
succeed on a placed state (`Placed.insert_eq`, `Placed.detach_eq`) and move a process between `X`
and a list (`Placed.insert`, `Placed.detach`).
-/

namespace DisastrOS

open Lib State

/-- The PCB of block `p` is allocated. -/
def State.Alloc (s : State) (p : PcbRef) : Prop := s.pcbPool.Used p

instance (s : State) (p : PcbRef) : Decidable (s.Alloc p) :=
  inferInstanceAs (Decidable (s.pcbPool.Used p))

/-- The syscalls whose callers are on a list. -/
def PcbList.Accepts : PcbList → Nat → Prop
  | .ready, _ | .zombie, _ => True
  | .waiting, n => n = dsosCallWait ∨ n = dsosCallSleep
  | .receivers _, n => n = dsosCallMqReceive
  | .senders _, n => n = dsosCallMqSend

/-- The process table is partitioned among the lists and the processes of `X` (module doc). -/
structure Placed (s : State) (X : List PcbRef) : Prop where
  pool : s.pcbPool.Ok
  held : ∀ {p}, p ∈ X → s.Alloc p
  free : ∀ {p}, ¬ s.Alloc p → (s.pcbs p).status ≠ .waiting
  alloc : ∀ {L p}, p ∈ s.list L → s.Alloc p
  status : ∀ {L p}, p ∈ s.list L → (s.pcbs p).status = L.status
  accepts : ∀ {L p}, p ∈ s.list L → L.Accepts (s.pcbs p).syscallNum
  not_held : ∀ {L p}, p ∈ s.list L → p ∉ X
  nodup : ∀ L, (s.list L).Nodup
  disj : ∀ {L L' p}, p ∈ s.list L → p ∈ s.list L' → L = L'
  total : ∀ {p}, s.Alloc p → p ∉ X → ∃ L, p ∈ s.list L

/-- No process is twice on the lists. -/
structure Apart (s : State) : Prop where
  nodup : ∀ L, (s.list L).Nodup
  disj : ∀ {L L' p}, p ∈ s.list L → p ∈ s.list L' → L = L'

section
variable {s s' : State} {X Y : List PcbRef} {L L' : PcbList} {p q : PcbRef} {ps : List PcbRef}

theorem PcbList.status_ne_running (L : PcbList) : L.status ≠ .running := by
  cases L <;> simp [PcbList.status]

/-- The test of `List_insert` passes for a process on no list. -/
theorem listInsert_of_unlisted (h : ∀ L, p ∉ s.list L) :
    s.listInsert L p ps = .ok (s.setList L ps) := by
  have h1 : s.linked p = false := by
    simp only [State.linked, List.any_eq_false, decide_eq_true_eq]
    exact fun L _ hm => h L hm.1
  have h2 : s.listed p = false := by
    simp only [State.listed, List.any_eq_false, decide_eq_true_eq]
    exact fun L _ hm => h L hm
  simp [State.listInsert, h1, h2]

/-- A detachment that is done takes a process off its list. -/
theorem listDetach_cases (h : s.listDetach L p = .ok s') :
    p ∈ s.list L ∧ s' = s.setList L ((s.list L).erase p) := by
  unfold State.listDetach at h
  split at h <;> cases h
  exact ⟨‹_›, rfl⟩

/-- A member of a list is `p` on `L`, to which it has been added, or was there before. -/
theorem mem_insert (hps : ps.Perm (p :: s.list L)) :
    q ∈ (s.setList L ps).list L' ↔ L' = L ∧ q = p ∨ q ∈ s.list L' := by
  by_cases hL : L' = L
  · subst hL
    rw [list_setList_self, hps.mem_iff, List.mem_cons]
    simp
  · rw [list_setList_of_ne hL]
    simp [hL]

namespace Apart

theorem insert (h : Apart s) (hp : ∀ L, p ∉ s.list L) (hps : ps.Perm (p :: s.list L)) :
    Apart (s.setList L ps) := by
  constructor
  · intro L'
    by_cases hL : L' = L
    · subst hL
      rw [list_setList_self]
      exact hps.nodup_iff.2 (List.nodup_cons.2 ⟨hp _, h.nodup _⟩)
    · rw [list_setList_of_ne hL]
      exact h.nodup L'
  · intro L₁ L₂ q h₁ h₂
    rcases (mem_insert hps).1 h₁ with ⟨rfl, rfl⟩ | h₁' <;>
      rcases (mem_insert hps).1 h₂ with ⟨rfl, e⟩ | h₂'
    · rfl
    · exact absurd h₂' (hp _)
    · exact absurd (e ▸ h₁') (hp _)
    · exact h.disj h₁' h₂'

/-- A member of a list other than `p`, which has been taken off `L`, stays where it was. -/
theorem mem_detach (h : Apart s) (hps : (s.list L).Perm (p :: ps)) :
    q ∈ (s.setList L ps).list L' ↔ q ≠ p ∧ q ∈ s.list L' := by
  have hpL : p ∈ s.list L := hps.mem_iff.2 List.mem_cons_self
  have hn := hps.nodup_iff.1 (h.nodup L)
  by_cases hL : L' = L
  · subst hL
    rw [list_setList_self, hps.mem_iff, List.mem_cons]
    constructor
    · exact fun hq => ⟨fun e => (List.nodup_cons.1 hn).1 (e ▸ hq), .inr hq⟩
    · rintro ⟨hne, e | hq⟩
      exacts [absurd e hne, hq]
  · rw [list_setList_of_ne hL]
    exact ⟨fun hq => ⟨fun e => hL (h.disj (e ▸ hq) hpL), hq⟩, fun hq => hq.2⟩

theorem detach (h : Apart s) (hps : (s.list L).Perm (p :: ps)) : Apart (s.setList L ps) := by
  constructor
  · intro L'
    by_cases hL : L' = L
    · subst hL
      rw [list_setList_self]
      exact (List.nodup_cons.1 (hps.nodup_iff.1 (h.nodup L'))).2
    · rw [list_setList_of_ne hL]
      exact h.nodup L'
  · intro L₁ L₂ q h₁ h₂
    exact h.disj ((h.mem_detach hps).1 h₁).2 ((h.mem_detach hps).1 h₂).2

end Apart

namespace Placed

theorem apart (h : Placed s X) : Apart s := ⟨h.nodup, h.disj⟩

/-! ## Frames -/

/-- `Placed` reads the PCB pool, the lists, and the status and syscall number of the processes. -/
theorem congr (h : Placed s X) (hp : s'.pcbPool = s.pcbPool) (hl : ∀ L, s'.list L = s.list L)
    (hs : ∀ p, p ∉ X → (s'.pcbs p).status = (s.pcbs p).status ∧
      (s'.pcbs p).syscallNum = (s.pcbs p).syscallNum) : Placed s' X where
  pool := hp ▸ h.pool
  held hx := by unfold State.Alloc; rw [hp]; exact h.held hx
  free ha := by
    unfold State.Alloc at ha
    rw [hp] at ha
    rw [(hs _ fun hx => ha (h.held hx)).1]
    exact h.free ha
  alloc hm := by rw [hl] at hm; unfold State.Alloc; rw [hp]; exact h.alloc hm
  status hm := by rw [hl] at hm; rw [(hs _ (h.not_held hm)).1]; exact h.status hm
  accepts hm := by rw [hl] at hm; rw [(hs _ (h.not_held hm)).2]; exact h.accepts hm
  not_held hm := by rw [hl] at hm; exact h.not_held hm
  nodup L := by rw [hl]; exact h.nodup L
  disj hm hm' := by rw [hl] at hm hm'; exact h.disj hm hm'
  total ha hx := by
    simp only [hl]
    exact h.total (by unfold State.Alloc at ha ⊢; rwa [hp] at ha) hx

theorem perm (h : Placed s X) (hX : ∀ p, p ∈ Y ↔ p ∈ X) : Placed s Y :=
  { h with
    held := fun hy => h.held ((hX _).1 hy)
    not_held := fun hm hy => h.not_held hm ((hX _).1 hy)
    total := fun ha hy => h.total ha fun hx => hy ((hX _).2 hx) }

/-- A process of `X` may change in any way. -/
theorem updPcb_held (h : Placed s X) (hp : p ∈ X) (f : PCB → PCB) : Placed (s.updPcb p f) X :=
  h.congr rfl (fun _ => list_updPcb) fun q hq => by
    have : q ≠ p := fun e => hq (e ▸ hp)
    simp [this]

theorem record (h : Placed s X) (a : Act) : Placed (s.record a) X :=
  h.congr rfl (fun _ => list_record) fun _ _ => ⟨rfl, rfl⟩

theorem setRunning (h : Placed s X) (p : PcbRef) : Placed (s.setRunning p) X :=
  h.congr rfl (fun _ => list_setRunning) fun _ _ => ⟨rfl, rfl⟩

theorem setRetvalue (h : Placed s X) (p : PcbRef) (r : Int) : Placed (s.setRetvalue p r) X :=
  h.congr rfl (fun _ => list_setRetvalue) fun _ _ => by simp

/-- The status of a held process may change. -/
theorem setStatus (h : Placed s X) (hp : p ∈ X) (st : ProcessStatus) :
    Placed (s.setStatus p st) X := h.updPcb_held hp ({ · with status := st })

theorem setTimer (h : Placed s X) (p : PcbRef) (t : Option Nat) : Placed (s.setTimer p t) X :=
  h.congr rfl (fun _ => list_setTimer) fun _ _ => by simp

/-! ## Insertion -/

theorem not_mem (h : Placed s X) (hp : p ∈ X) : p ∉ s.list L := fun hm => h.not_held hm hp

theorem insert_eq (h : Placed s X) (hp : p ∈ X) : s.listInsert L p ps = .ok (s.setList L ps) :=
  listInsert_of_unlisted fun _ hm => h.not_mem hp hm

theorem insert (h : Placed s (p :: X)) (hx : p ∉ X)
    (hst : (s.pcbs p).status = L.status) (hk : L.Accepts (s.pcbs p).syscallNum)
    (hps : ps.Perm (p :: s.list L)) : Placed (s.setList L ps) X := by
  have key : ∀ {L' q}, q ∈ (s.setList L ps).list L' ↔ L' = L ∧ q = p ∨ q ∈ s.list L' :=
    mem_insert hps
  have hap := h.apart.insert (fun L' => h.not_mem List.mem_cons_self) hps
  refine ⟨by simpa using h.pool, ?_, ?_, ?_, ?_, ?_, ?_, hap.nodup, hap.disj, ?_⟩
  · intro q hq
    unfold State.Alloc
    rw [setList_pcbPool]
    exact h.held (List.mem_cons_of_mem _ hq)
  · intro q hq
    unfold State.Alloc at hq
    rw [setList_pcbPool] at hq
    rw [setList_pcbs]
    exact h.free hq
  · intro L' q hq
    unfold State.Alloc
    rw [setList_pcbPool]
    rcases key.1 hq with ⟨-, rfl⟩ | hq
    exacts [h.held List.mem_cons_self, h.alloc hq]
  · intro L' q hq
    rw [setList_pcbs]
    rcases key.1 hq with ⟨rfl, rfl⟩ | hq
    exacts [hst, h.status hq]
  · intro L' q hq
    rw [setList_pcbs]
    rcases key.1 hq with ⟨rfl, rfl⟩ | hq
    exacts [hk, h.accepts hq]
  · intro L' q hq
    rcases key.1 hq with ⟨-, rfl⟩ | hq
    exacts [hx, fun hX => h.not_held hq (List.mem_cons_of_mem _ hX)]
  · intro q hq hX
    by_cases hqp : q = p
    · exact ⟨L, key.2 (.inl ⟨rfl, hqp⟩)⟩
    · unfold State.Alloc at hq
      rw [setList_pcbPool] at hq
      obtain ⟨L', hL'⟩ := h.total hq (by simp [hqp, hX])
      exact ⟨L', key.2 (.inr hL')⟩

/-- `List_insert(&L, L.last, p)`. -/
theorem insertLast (h : Placed s (p :: X)) (hx : p ∉ X)
    (hst : (s.pcbs p).status = L.status) (hk : L.Accepts (s.pcbs p).syscallNum) :
    s.listInsertLast L p = .ok (s.setList L (s.list L ++ [p])) ∧
      Placed (s.setList L (s.list L ++ [p])) X :=
  ⟨h.insert_eq List.mem_cons_self, h.insert hx hst hk (List.perm_append_singleton _ _)⟩

/-! ## Detachment -/

theorem detach (h : Placed s X) (hps : (s.list L).Perm (p :: ps)) :
    Placed (s.setList L ps) (p :: X) := by
  have hpL : p ∈ s.list L := hps.mem_iff.2 List.mem_cons_self
  have key : ∀ {L' q}, q ∈ (s.setList L ps).list L' ↔ q ≠ p ∧ q ∈ s.list L' :=
    h.apart.mem_detach hps
  have hap := h.apart.detach hps
  refine ⟨by simpa using h.pool, ?_, ?_, ?_, ?_, ?_, ?_, hap.nodup, hap.disj, ?_⟩
  · intro q hq
    unfold State.Alloc
    rw [setList_pcbPool]
    rcases List.mem_cons.1 hq with rfl | hq
    exacts [h.alloc hpL, h.held hq]
  · intro q hq
    unfold State.Alloc at hq
    rw [setList_pcbPool] at hq
    rw [setList_pcbs]
    exact h.free hq
  · intro L' q hq
    unfold State.Alloc
    rw [setList_pcbPool]
    exact h.alloc (key.1 hq).2
  · intro L' q hq
    rw [setList_pcbs]
    exact h.status (key.1 hq).2
  · intro L' q hq
    rw [setList_pcbs]
    exact h.accepts (key.1 hq).2
  · intro L' q hq hX
    rcases List.mem_cons.1 hX with e | hX
    exacts [(key.1 hq).1 e, h.not_held (key.1 hq).2 hX]
  · intro q hq hX
    unfold State.Alloc at hq
    rw [setList_pcbPool] at hq
    simp only [List.mem_cons, not_or] at hX
    obtain ⟨L', hL'⟩ := h.total hq hX.2
    exact ⟨L', key.2 ⟨hX.1, hL'⟩⟩

theorem detach_eq (hp : p ∈ s.list L) :
    s.listDetach L p = .ok (s.setList L ((s.list L).erase p)) := by
  simp [State.listDetach, hp]

theorem detach_erase (h : Placed s X) (hp : p ∈ s.list L) :
    Placed (s.setList L ((s.list L).erase p)) (p :: X) :=
  h.detach (List.perm_cons_erase hp)

/-- `List_detach(&L, L.first)`. -/
theorem detachFirst (h : Placed s X) (hL : s.list L = p :: ps) :
    s.listDetachFirst L = .ok (p, s.setList L ps) ∧ Placed (s.setList L ps) (p :: X) :=
  ⟨by simp [State.listDetachFirst, hL], h.detach (hL ▸ .refl _)⟩

/-! ## Allocation -/

/-- A new process is held. -/
theorem allocate (h : Placed s X) {s' : State} {p : PcbRef} (ha : pcbAlloc s = some (p, s')) :
    ¬ s.Alloc p ∧ (∀ q, s'.Alloc q ↔ q = p ∨ s.Alloc q) ∧ Placed s' (p :: X) := by
  unfold pcbAlloc at ha
  split at ha
  · cases ha
  rename_i p' pool hg
  simp only [Option.some.injEq, Prod.mk.injEq] at ha
  obtain ⟨rfl, rfl⟩ := ha
  have hnew : ¬ s.Alloc p' := Pool.not_used_get hg
  have hall : ∀ q, pool.Used q ↔ q = p' ∨ s.Alloc q := fun q => h.pool.used_get hg
  have hne : ∀ {L q}, q ∈ s.list L → q ≠ p' := fun hq e => hnew (e ▸ h.alloc hq)
  refine ⟨hnew, hall, ⟨h.pool.get hg, ?_, ?_, ?_, ?_, ?_, ?_, h.nodup, h.disj, ?_⟩⟩
  · intro q hq
    rcases List.mem_cons.1 hq with rfl | hq
    exacts [(hall _).2 (.inl rfl), (hall _).2 (.inr (h.held hq))]
  · intro q hq
    have h1 := (not_congr (hall q)).1 hq
    rw [not_or] at h1
    simpa [h1.1] using h.free h1.2
  · exact fun hq => (hall _).2 (.inr (h.alloc hq))
  · intro L q hq
    have := hne (L := L) hq
    simpa [this] using h.status (L := L) hq
  · intro L q hq
    have := hne (L := L) hq
    simpa [this] using h.accepts (L := L) hq
  · intro L q hq hX
    rcases List.mem_cons.1 hX with e | hX
    exacts [hne (L := L) hq e, h.not_held (L := L) hq hX]
  · intro q hq hX
    simp only [List.mem_cons, not_or] at hX
    exact h.total (((hall q).1 hq).resolve_left hX.1) hX.2

/-- A freed process leaves the table. -/
theorem release (h : Placed s (p :: X)) (hx : p ∉ X) (hst : (s.pcbs p).status ≠ .waiting) :
    Placed (pcbFree s p) X := by
  have ha := h.held List.mem_cons_self
  have hall : ∀ q, (pcbFree s p).Alloc q ↔ q ≠ p ∧ s.Alloc q := fun q => Pool.used_release ha
  have hne : ∀ {L q}, q ∈ s.list L → q ≠ p :=
    fun hq e => h.not_held hq (e ▸ List.mem_cons_self)
  refine ⟨h.pool.release p, ?_, ?_, ?_, h.status, h.accepts, ?_, h.nodup, h.disj, ?_⟩
  · exact fun hq => (hall _).2 ⟨fun e => hx (e ▸ hq), h.held (List.mem_cons_of_mem _ hq)⟩
  · intro q hq
    by_cases hqp : q = p
    · exact hqp ▸ hst
    · exact h.free fun ha' => hq ((hall q).2 ⟨hqp, ha'⟩)
  · exact fun {L q} hq => (hall q).2 ⟨hne (L := L) hq, h.alloc (L := L) hq⟩
  · exact fun {L q} hq hX => h.not_held (L := L) hq (List.mem_cons_of_mem _ hX)
  · intro q hq hX
    have := (hall q).1 hq
    exact h.total this.2 (by simp [this.1, hX])

end Placed

end

end DisastrOS
