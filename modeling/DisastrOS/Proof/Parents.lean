import DisastrOS.Proof.Boot

/-!
# Parents and children

`exit` moves the children of the caller to init, but leaves their parent pointers as they are and
does not look whether init waits for one of them. So the two records of the process tree agree as
long as no process with children exits (`treeConsistent_iff`), and nobody sleeps in a `wait` that
could end as long as no exit gives a sleeping init what it waits for (`noMissedZombie_iff`).
-/

namespace DisastrOS

open Lib State

section
variable {s s' : State} {e : Event} {es : List Event} {p q : PcbRef}

theorem mem_children : p ∈ s.family.children q ↔ ∃ x ∈ (s.pcbs q).children, x.pcb = p :=
  List.mem_map

theorem Inv.step_process (h : Inv s) (he : e.IsProcess) (hs : step s e = .ok s') :
    Inv s' ∧ s.family.Step s.running e.call s'.family :=
  (DisastrOS.step_process h he).ok hs

theorem Inv.not_zombie (h : Inv s) : ¬ s.family.zombie s.running := fun hz =>
  h.placed.not_held (L := .zombie) hz (List.mem_singleton_self _)

theorem Event.call_exit {v : Int} (hc : e.call = .exit v) : e = .syscall (.exit v) := by
  cases e <;> simp_all [Event.call]

/-! ## The process tree -/

/-- The children lists and the parent pointers describe one tree of the allocated processes. -/
structure TreeConsistent (s : State) : Prop where
  entry : ∀ p q, s.Alloc p → s.Alloc q →
    ((∃ x ∈ (s.pcbs q).children, x.pcb = p) ↔ (s.pcbs p).parent = some q)
  once : ∀ p, s.Alloc p → p ≠ s.initPcb →
    ∃ q, s.Alloc q ∧ ((s.pcbs q).children.filter (·.pcb = p)).length = 1 ∧
      ∀ q', (∃ x ∈ (s.pcbs q').children, x.pcb = p) → q' = q
  parent : ∀ p q, s.Alloc p → (s.pcbs p).parent = some q → s.Alloc q

/-- The event is the exit of a process with children. -/
def Orphans (s : State) : Event → Prop
  | .syscall (.exit _) => (s.pcbs s.running).children ≠ []
  | _ => False

instance (s : State) (e : Event) : Decidable (Orphans s e) := by
  unfold Orphans
  split <;> infer_instance

theorem orphans_iff : Orphans s e ↔
    ∃ v, e = .syscall (.exit v) ∧ s.family.children s.running ≠ [] := by
  unfold Orphans
  split
  · simp [State.family]
  · rename_i hne
    simp only [false_iff, not_exists, not_and]
    exact fun v hv => absurd hv (hne v)

theorem treeConsistent_of_rooted (h : Inv s) (ho : s.family.Rooted) : TreeConsistent s where
  entry p q hp _ := mem_children.symm.trans (ho p hp q)
  once p hp hne := by
    obtain ⟨q, hq⟩ := h.tree.wf.adopted hp hne
    have hqa : s.Alloc q := by
      by_contra hn
      rw [h.tree.wf.free hn] at hq
      cases hq
    refine ⟨q, hqa, ?_, fun q' hq' => h.tree.wf.owner (mem_children.2 hq') hq⟩
    obtain ⟨x, hx, rfl⟩ := List.mem_map.1 hq
    exact congrArg List.length (filter_key_eq (h.tree.wf.nodup q) hx)
  parent p q hp hpq := by
    have hm := (ho p hp q).2 hpq
    by_contra hn
    rw [h.tree.wf.free hn] at hm
    cases hm

theorem TreeConsistent.rooted (ht : TreeConsistent s) (h : Inv s) : s.family.Rooted := by
  intro p hp q
  by_cases hq : s.Alloc q
  · exact mem_children.trans (ht.entry p q hp hq)
  · rw [h.tree.wf.free hq]
    exact ⟨fun hm => absurd hm List.not_mem_nil, fun hpq => absurd (ht.parent p q hp hpq) hq⟩

/-- Runs in which nobody is orphaned also keep parents. -/
structure RootedInv (s : State) : Prop extends Inv s where
  rooted : s.family.Rooted

theorem RootedInv.preserved (h : RootedInv s) (he : e.IsProcess) (hn : ¬ Orphans s e)
    (hs : step s e = .ok s') : RootedInv s' := by
  obtain ⟨h1, h2⟩ := h.toInv.step_process he hs
  refine ⟨h1, h2.rooted h.tree.wf h.rooted fun v hc => ?_⟩
  by_contra hch
  exact hn (orphans_iff.2 ⟨v, Event.call_exit hc, hch⟩)

theorem Orphans.not_treeConsistent (ho : Orphans s e) (h : RootedInv s)
    (hs : step s e = .ok s') : ¬ TreeConsistent s' := by
  obtain ⟨v, rfl, hch⟩ := orphans_iff.1 ho
  obtain ⟨h1, h2⟩ := h.toInv.step_process (e := .syscall (.exit v)) trivial hs
  exact fun ht => h2.not_rooted h.tree.wf h.rooted h2.exit_ne_root hch (ht.rooted h1)

/-- **The process tree is consistent** throughout a run exactly if no process with children exits
in it. -/
theorem treeConsistent_iff (he : ∀ e ∈ es, e.IsProcess) (hr : run step boot es = .ok s) :
    Always step TreeConsistent boot es ↔ Along step (fun s e => ¬ Orphans s e) boot es :=
  always_iff_along (I := RootedInv) (fun _ h => treeConsistent_of_rooted h.toInv h.rooted)
    (fun _ _ _ h he hn hs => h.preserved he hn hs)
    (fun _ _ _ h _ ho hs => (not_not.1 ho).not_treeConsistent h hs)
    ⟨boot_inv, boot_rooted⟩ he hr

/-- Process 1 exits and leaves its child, process 2, to init. -/
def orphaningRun : List Event :=
  [.syscall (.spawn 0 0), .syscall .preempt, .syscall (.spawn 0 0), .syscall (.exit 0)]

theorem orphaningRun_not_treeConsistent : (∀ e ∈ orphaningRun, e.IsProcess) ∧
    ∃ s, run step boot orphaningRun = .ok s ∧ ¬ TreeConsistent s := by
  refine ⟨by decide, ?_⟩
  have hc : (run step boot orphaningRun).toOption.any (fun s =>
      s.pcbPool.Used 2 ∧ s.pcbPool.Used 0 ∧ (∃ x ∈ (s.pcbs 0).children, x.pcb = 2) ∧
        (s.pcbs 2).parent = some 1) = true := by decide +kernel
  obtain ⟨s, hr, hs⟩ := run_check hc
  obtain ⟨h2, h0, hx, hp⟩ := of_decide_eq_true hs
  refine ⟨s, hr, fun ht => ?_⟩
  have := (ht.entry 2 0 h2 h0).1 hx
  rw [hp] at this
  cases this

/-- A child that exits while init waits for it. -/
def reapingRun : List Event :=
  [.syscall (.spawn 0 0), .syscall (.wait 0 0), .syscall (.exit 7)]

theorem treeConsistent_reapingRun : Always step TreeConsistent boot reapingRun := by
  have hc : (run step boot reapingRun).toOption.any (fun _ => true) = true := by decide +kernel
  obtain ⟨s, hr, -⟩ := run_check hc
  exact (treeConsistent_iff (by decide) hr).2 (by decide +kernel)

/-! ## Waiting for a child -/

/-- `q` sleeps in a `wait` that `p` would end. -/
def WaitsOn (s : State) (q p : PcbRef) : Prop :=
  (s.pcbs q).status = .waiting ∧ (s.pcbs q).syscallNum = dsosCallWait ∧
    0 ≤ (s.pcbs q).syscallArgs 0 ∧ Matches ((s.pcbs q).syscallArgs 0) (s.pcbs p).pid

/-- Nobody sleeps in a `wait` that one of its zombies would end. -/
def NoMissedZombie (s : State) : Prop := ∀ q, ∀ x ∈ (s.pcbs q).children,
  (s.pcbs x.pcb).status = .zombie → ¬ WaitsOn s q x.pcb

/-- The event is an exit that gives init what it waits for, a zombie of the caller or the caller
itself, without waking it: init is not the parent that the caller wakes. -/
def Misses (s : State) : Event → Prop
  | .syscall (.exit _) =>
    ¬ ((s.pcbs s.running).parent = some s.initPcb ∧ WaitsOn s s.initPcb s.running) ∧
    ((∃ x ∈ (s.pcbs s.running).children, (s.pcbs x.pcb).status = .zombie ∧
        WaitsOn s s.initPcb x.pcb) ∨
      (∃ x ∈ (s.pcbs s.initPcb).children, x.pcb = s.running) ∧ WaitsOn s s.initPcb s.running)
  | _ => False

instance (w : Int) (pid : Nat) : Decidable (Matches w pid) := inferInstanceAs (Decidable (_ ∨ _))

instance (s : State) (q p : PcbRef) : Decidable (WaitsOn s q p) :=
  inferInstanceAs (Decidable (_ ∧ _ ∧ _ ∧ _))

instance (s : State) (e : Event) : Decidable (Misses s e) := by
  unfold Misses
  split <;> infer_instance

theorem waitsOn_iff : WaitsOn s q p ↔
    ∃ w, s.family.asleep q = some w ∧ 0 ≤ w ∧ Matches w (s.family.pid p) := by
  constructor
  · rintro ⟨h1, h2, h3, h4⟩
    exact ⟨_, asleep_eq_some.2 ⟨h1, h2, rfl⟩, h3, h4⟩
  · rintro ⟨w, hw, h3, h4⟩
    obtain ⟨h1, h2, rfl⟩ := asleep_eq_some.1 hw
    exact ⟨h1, h2, h3, h4⟩

/-- A zombie on a children list is on the list of zombies. -/
theorem Inv.child_zombie_iff (h : Inv s) (hp : p ∈ s.family.children q) :
    (s.pcbs p).status = .zombie ↔ s.family.zombie p :=
  h.zombie_iff (h.tree.wf.entry hp).1

theorem noMissedZombie_iff_answered (h : Inv s) : NoMissedZombie s ↔ s.family.Answered := by
  constructor
  · intro hn q w hw h0 p hp hz hm
    obtain ⟨x, hx, rfl⟩ := List.mem_map.1 hp
    exact hn q x hx ((h.child_zombie_iff hp).2 hz) (waitsOn_iff.2 ⟨w, hw, h0, hm⟩)
  · intro ha q x hx hz hw
    have hp : x.pcb ∈ s.family.children q := List.mem_map_of_mem hx
    obtain ⟨w, hw, h0, hm⟩ := waitsOn_iff.1 hw
    exact ha q w hw h0 x.pcb hp ((h.child_zombie_iff hp).1 hz) hm

theorem misses_iff (h : Inv s) : Misses s e ↔
    ∃ v, e = .syscall (.exit v) ∧ ¬ s.family.Harmless s.running := by
  unfold Misses
  split
  · rename_i v
    simp only [Event.syscall.injEq, Syscall.exit.injEq, exists_eq_left']
    simp only [waitsOn_iff, Family.Harmless]
    constructor
    · rintro ⟨hpar, hmiss⟩ hh
      rcases hmiss with ⟨x, hx, hz, w, hw, h0, hm⟩ | ⟨hx, w, hw, h0, hm⟩
      · rcases hh w hw h0 with ⟨hp, hm'⟩ | ⟨hno, -⟩
        · exact hpar ⟨hp, w, hw, h0, hm'⟩
        · have hc : x.pcb ∈ s.family.children s.running := List.mem_map_of_mem hx
          exact hno x.pcb hc ((h.child_zombie_iff hc).1 hz) hm
      · rcases hh w hw h0 with ⟨hp, hm'⟩ | ⟨-, hno⟩
        · exact hpar ⟨hp, w, hw, h0, hm'⟩
        · exact hno (mem_children.2 hx) hm
    · intro hh
      simp only [not_forall, not_or] at hh
      obtain ⟨w, hw, h0, hpar, hmiss⟩ := hh
      refine ⟨?_, ?_⟩
      · rintro ⟨hp, w', hw', -, hm⟩
        obtain rfl := Option.some.inj (hw.symm.trans hw')
        exact hpar ⟨hp, hm⟩
      · by_contra hno
        rw [not_or] at hno
        refine hmiss ⟨fun p hp hz hm => ?_, fun hr hm => ?_⟩
        · obtain ⟨x, hx, rfl⟩ := List.mem_map.1 hp
          exact hno.1 ⟨x, hx, (h.child_zombie_iff hp).2 hz, w, hw, h0, hm⟩
        · exact hno.2 ⟨mem_children.1 hr, w, hw, h0, hm⟩
  · rename_i hne
    simp only [false_iff, not_exists, not_and]
    exact fun v hv => absurd hv (hne v)

/-- Runs in which no exit misses a waiting init also keep the others waiting rightly. -/
structure AnsweredInv (s : State) : Prop extends Inv s where
  answered : s.family.Answered

theorem AnsweredInv.preserved (h : AnsweredInv s) (he : e.IsProcess) (hn : ¬ Misses s e)
    (hs : step s e = .ok s') : AnsweredInv s' := by
  obtain ⟨h1, h2⟩ := h.toInv.step_process he hs
  refine ⟨h1, h2.answered h.tree.wf h.answered (asleep_of_running h.status) h.not_zombie
    fun v hc => ?_⟩
  by_contra hh
  exact hn ((misses_iff h.toInv).2 ⟨v, Event.call_exit hc, hh⟩)

theorem Misses.not_noMissedZombie (hm : Misses s e) (h : AnsweredInv s)
    (hs : step s e = .ok s') : ¬ NoMissedZombie s' := by
  obtain ⟨v, rfl, hh⟩ := (misses_iff h.toInv).1 hm
  obtain ⟨h1, h2⟩ := h.toInv.step_process (e := .syscall (.exit v)) trivial hs
  exact fun hz => h2.not_answered h.tree.wf h.not_zombie h2.exit_ne_root hh
    ((noMissedZombie_iff_answered h1).1 hz)

/-- **No zombie is missed** throughout a run exactly if no exit in it gives a sleeping init what it
waits for without waking it. -/
theorem noMissedZombie_iff (he : ∀ e ∈ es, e.IsProcess) (hr : run step boot es = .ok s) :
    Always step NoMissedZombie boot es ↔ Along step (fun s e => ¬ Misses s e) boot es :=
  always_iff_along (I := AnsweredInv)
    (fun _ h => (noMissedZombie_iff_answered h.toInv).2 h.answered)
    (fun _ _ _ h he hn hs => h.preserved he hn hs)
    (fun _ _ _ h _ hm hs => (not_not.1 hm).not_noMissedZombie h hs)
    ⟨boot_inv, boot_answered⟩ he hr

/-- Process 1 exits and leaves process 3 to init, which waits for 1 and then for any other; then
process 3 exits and wakes the PCB of 1. -/
def missingRun : List Event :=
  [.syscall (.spawn 0 0), .syscall (.spawn 0 0), .syscall .preempt, .syscall (.spawn 0 0),
    .syscall (.exit 0), .syscall .preempt, .syscall (.wait 0 0), .syscall (.wait 0 0),
    .syscall (.exit 0)]

theorem missingRun_misses_zombie : (∀ e ∈ missingRun, e.IsProcess) ∧
    ∃ s, run step boot missingRun = .ok s ∧ ¬ NoMissedZombie s := by
  refine ⟨by decide, ?_⟩
  have hc : (run step boot missingRun).toOption.any (fun s =>
      ∃ x ∈ (s.pcbs 0).children, (s.pcbs x.pcb).status = .zombie ∧ WaitsOn s 0 x.pcb) = true := by
    decide +kernel
  obtain ⟨s, hr, hs⟩ := run_check hc
  obtain ⟨x, hx, hz, hw⟩ := of_decide_eq_true hs
  exact ⟨s, hr, fun hn => hn 0 x hx hz hw⟩

theorem noMissedZombie_reapingRun : Always step NoMissedZombie boot reapingRun := by
  have hc : (run step boot reapingRun).toOption.any (fun _ => true) = true := by decide +kernel
  obtain ⟨s, hr, -⟩ := run_check hc
  exact (noMissedZombie_iff (by decide) hr).2 (by decide +kernel)

end

end DisastrOS
