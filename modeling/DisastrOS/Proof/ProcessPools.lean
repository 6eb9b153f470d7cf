import DisastrOS.Proof.Boot
import DisastrOS.Proof.Frames

/-!
# The pools of processes

Every block of the pool of children entries is on the children list of an allocated process. The one
call that breaks this is an `exit` that ends the `wait` of the parent: it takes the caller off the
children list and never frees the entry, which `wait` does when it reaps a zombie. So the pools are
exact in a run exactly if no process of it exits while its parent waits for it, and in such a run the
assertions of `spawn` and `fork` hold (`exactPools_iff`).
-/

namespace DisastrOS

open Lib State

/-- The entries on the children lists of the allocated processes. -/
def entries (s : State) : List PCBPtr :=
  ((List.range s.pcbPool.sizeMax).filter fun p => s.Alloc p).flatMap fun p => (s.pcbs p).children

/-- The pools hold what the processes need, and nothing else. -/
structure ExactPools (s : State) : Prop where
  entries : s.pcbPtrPool.outstanding = (entries s).length
  live : ∀ p, s.Alloc p → p = s.running ∧ (s.pcbs p).status = .running ∨
    ∃ L, p ∈ s.list L ∧ (s.pcbs p).status = L.status
  unreaped : ∀ p ∈ s.zombieList, ∃ q, s.Alloc q ∧ ∃ e ∈ (s.pcbs q).children, e.pcb = p
  enough : s.pcbPool.get ≠ none → s.pcbPtrPool.get ≠ none

/-- The event is the exit of a process whose parent waits for it. -/
def EndsWait (s : State) : Event → Prop
  | .syscall (.exit v) => ∃ parent ∈ (s.pcbs s.running).parent,
      waitsFor (saveCall s (.exit v)) parent (s.pcbs s.running).pid
  | _ => False

instance (s : State) : DecidablePred (EndsWait s)
  | .syscall (.exit v) => inferInstanceAs (Decidable (∃ parent ∈ (s.pcbs s.running).parent,
      waitsFor (saveCall s (.exit v)) parent (s.pcbs s.running).pid))
  | .syscall .preempt | .syscall .fork | .syscall (.wait ..) | .syscall (.spawn ..)
  | .syscall (.sleep _) | .syscall (.openResource ..) | .syscall (.closeResource _)
  | .syscall (.destroyResource _) | .syscall (.mqCreate ..) | .syscall (.mqSend ..)
  | .syscall (.mqReceive ..) | .syscall (.mqDestroy _) | .syscall .shutdown | .tick | .store .. =>
    isFalse id

/-- The blocks of the pool are those of the entries. -/
structure Linked (s : State) : Prop where
  size : s.pcbPtrPool.sizeMax = s.pcbPool.sizeMax
  owns : s.pcbPtrPool.Owns ((entries s).map PCBPtr.block)

section
variable {s s' u : State} {p parent : PcbRef} {B : List Nat} {X : List PcbRef} {b : Nat}
  {pool ptrPool : Pool} {e : PCBPtr} {ev : Event} {es : List Event} {mem : Int → UInt8}

/-! ## The entries -/

/-- Blocks that are not allocated have no children. -/
theorem entries_eq (hw : s.family.Wf) :
    entries s = (List.range s.pcbPool.sizeMax).flatMap fun p => (s.pcbs p).children := by
  refine flatMap_filter_of_nil fun p _ hp => ?_
  have hn : ¬ s.Alloc p := of_decide_eq_false hp
  exact List.map_eq_nil_iff.1 (hw.free hn)

/-- Only the children list of `p` changes. -/
theorem entries_perm (hw : s.family.Wf) (hw' : s'.family.Wf)
    (hs : s'.pcbPool.sizeMax = s.pcbPool.sizeMax) (hp : p < s.pcbPool.sizeMax)
    (ho : ∀ q, q ≠ p → (s'.pcbs q).children = (s.pcbs q).children) {as bs : List PCBPtr}
    (h : (as ++ (s'.pcbs p).children).Perm (bs ++ (s.pcbs p).children)) :
    (as ++ entries s').Perm (bs ++ entries s) := by
  rw [entries_eq hw, entries_eq hw', hs]
  exact flatMap_perm_update List.nodup_range (List.mem_range.2 hp) ho as bs h

theorem mem_entries (hw : s.family.Wf) (hm : s.Alloc p) (he : e ∈ (s.pcbs p).children) :
    e ∈ entries s := by
  rw [entries_eq hw]
  exact List.mem_flatMap.2 ⟨p, List.mem_range.2 hm.1, he⟩

/-- Every process but init has one entry, so one entry is always left. -/
theorem length_entries_lt (hw : s.family.Wf) : (entries s).length < s.pcbPool.sizeMax := by
  have hflat : (entries s).map PCBPtr.pcb =
      (List.range s.pcbPool.sizeMax).flatMap fun p => s.family.children p := by
    rw [entries_eq hw, List.map_flatMap]
    rfl
  have hn : ((entries s).map PCBPtr.pcb).Nodup := by
    rw [hflat]
    refine List.nodup_flatMap.2 ⟨fun p _ => hw.nodup p, List.nodup_range.imp fun hne => ?_⟩
    exact fun x hx hx' => hne (hw.owner hx hx')
  have hroot : s.family.root ∉ (entries s).map PCBPtr.pcb := by
    rw [hflat, List.mem_flatMap]
    rintro ⟨p, -, hp⟩
    exact (hw.entry hp).2 rfl
  have hsub : (s.family.root :: (entries s).map PCBPtr.pcb) ⊆ List.range s.pcbPool.sizeMax := by
    intro x hx
    rcases List.mem_cons.1 hx with rfl | hx
    · exact List.mem_range.2 hw.rootMem.1
    · rw [hflat, List.mem_flatMap] at hx
      obtain ⟨p, -, hp⟩ := hx
      exact List.mem_range.2 (hw.entry hp).1.1
  have hle := (List.subperm_of_subset (List.nodup_cons.2 ⟨hroot, hn⟩) hsub).length_le
  simp only [List.length_cons, List.length_map, List.length_range] at hle
  omega

namespace Linked

theorem get_ne_none (h : Linked s) (hw : s.family.Wf) : s.pcbPtrPool.get ≠ none := by
  intro hg
  have h1 := h.owns.get_none.1 hg
  rw [List.length_map, h.size] at h1
  have h2 := length_entries_lt hw
  omega

theorem exactPools (h : Linked s) (hi : Inv s) : ExactPools s where
  entries := by
    rw [h.owns.outstanding, List.length_map]
  live p hp := by
    by_cases hrun : p = s.running
    · exact .inl ⟨hrun, hrun ▸ hi.status⟩
    · obtain ⟨L, hL, hst, -⟩ := hi.mem_list hp hrun
      exact .inr ⟨L, hL, hst⟩
  unreaped p hp := by
    have hm : s.Alloc p := hi.placed.alloc (L := .zombie) hp
    have hne : p ≠ s.initPcb := by
      rintro rfl
      exact hi.tree.wf.rootAlive hp
    obtain ⟨q, hq⟩ := hi.tree.wf.adopted hm hne
    refine ⟨q, ?_, List.mem_map.1 hq⟩
    by_contra hn
    rw [hi.tree.wf.free hn] at hq
    cases hq
  enough _ := h.get_ne_none hi.tree.wf

theorem same (h : Linked s) (hp : s'.pcbPool = s.pcbPool) (hpp : s'.pcbPtrPool = s.pcbPtrPool)
    (hc : ∀ p, (s'.pcbs p).children = (s.pcbs p).children) : Linked s' := by
  have he : entries s' = entries s := by
    have ha : ∀ p, s'.Alloc p ↔ s.Alloc p := fun p => by
      unfold State.Alloc
      rw [hp]
    have hf : (List.range s.pcbPool.sizeMax).filter (fun p => s'.Alloc p) =
        (List.range s.pcbPool.sizeMax).filter fun p => s.Alloc p :=
      List.filter_congr fun p _ => decide_eq_decide.2 (ha p)
    unfold entries
    rw [hp, hf]
    simp only [hc]
  exact ⟨by rw [hp, hpp, h.size], by rw [he, hpp]; exact h.owns⟩

theorem rescheduled (h : Linked s) (hr : Rescheduled s s') : Linked s' :=
  h.same hr.pcbPool (congrArg State.pcbPtrPool hr.same :) fun p => by rw [hr.pcbs]

theorem saveCall (h : Linked s) (c : Syscall) : Linked (saveCall s c) :=
  h.same rfl rfl fun p => by simp [DisastrOS.saveCall]

/-- A new process gets the entry that was taken for it. -/
theorem born (h : Linked s) (hi : Inv s) (hg : s.pcbPool.get = some (p, pool))
    (hb : s.pcbPtrPool.get = some (b, ptrPool)) : Linked (born s p pool ptrPool ⟨b, p⟩) := by
  obtain ⟨hne, hnew, h1, -⟩ := born_spec hi.toConsistent ptrPool b hg
  have hsize : pool.sizeMax = s.pcbPool.sizeMax := (Pool.get_eq hg).2
  refine ⟨((Pool.get_eq hb).2.trans h.size).trans hsize.symm, (h.owns.get hb).perm ?_⟩
  have hrun : s.Alloc s.running := hi.placed.held (by simp)
  have hfree : (s.pcbs p).children = [] := List.map_eq_nil_iff.1 (hi.tree.wf.free (q := p) hnew)
  have hperm : ([] ++ entries (DisastrOS.born s p pool ptrPool ⟨b, p⟩)).Perm
      ([(⟨b, p⟩ : PCBPtr)] ++ entries s) := by
    refine entries_perm hi.tree.wf h1.tree.wf hsize hrun.1 (fun q hq => ?_) ?_
    · by_cases hqp : q = p
      · simp [DisastrOS.born, hqp, hfree]
      · simp [DisastrOS.born, hqp, hq]
    · simp [DisastrOS.born, Ne.symm hne]
  exact (hperm.map PCBPtr.block).symm

/-- `wait` frees the entry of the zombie that it reaps. -/
theorem reaped (h : Linked s) (hi : Inv s) (he : e ∈ (s.pcbs s.running).children)
    (hz : (s.pcbs e.pcb).status = .zombie) (mem : Int → UInt8) : Linked (reaped s e mem) := by
  have h1 := (reaped_spec hi he hz mem).1
  have hrun : s.Alloc s.running := hi.placed.held (by simp)
  refine ⟨by simp [DisastrOS.reaped, h.size], ?_⟩
  have hperm : ([e] ++ entries (DisastrOS.reaped s e mem)).Perm ([] ++ entries s) := by
    refine entries_perm hi.tree.wf h1.tree.wf (by simp [DisastrOS.reaped]) hrun.1
      (fun q hq => by simp [DisastrOS.reaped, hq]) ?_
    simpa [DisastrOS.reaped] using (List.perm_cons_erase he).symm
  have hmap := hperm.map PCBPtr.block
  have hmem : e.block ∈ (entries s).map PCBPtr.block :=
    List.mem_map_of_mem (mem_entries hi.tree.wf hrun he)
  refine (h.owns.release hmem).perm ?_
  simpa using hmap.symm.erase e.block

/-- The entries of the children of an exiting process stay in use. -/
theorem retired (h : Linked s) (hi : Inv s) (hne : s.running ≠ s.initPcb) (hr : Retired s s') :
    Linked s' := by
  have hp : s'.pcbPool = s.pcbPool := (congrArg State.pcbPool hr.same :)
  have hpp : s'.pcbPtrPool = s.pcbPtrPool := (congrArg State.pcbPtrPool hr.same :)
  refine ⟨by rw [hp, hpp, h.size], ?_⟩
  rw [hpp]
  refine h.owns.perm (List.Perm.map _ ?_)
  rw [entries_eq hi.tree.wf, entries_eq (hr.consistent hi hne).tree.wf, hp]
  -- first the running process loses its children, then init gets them
  have hrun : s.Alloc s.running := hi.placed.held (by simp)
  have hinit : s.Alloc s.initPcb := hi.tree.wf.rootMem
  have h1 := flatMap_perm_update (g := fun p => if p = s.running then [] else (s.pcbs p).children)
    List.nodup_range (List.mem_range.2 hrun.1) (fun q hq => by simp [hq])
    (f := fun p => (s.pcbs p).children) (s.pcbs s.running).children [] (by simp)
  have h2 := flatMap_perm_update (g := fun p => (s'.pcbs p).children)
    List.nodup_range (List.mem_range.2 hinit.1)
    (fun q hq => by simp [hr.children, movedChildren, hq])
    (f := fun p => if p = s.running then [] else (s.pcbs p).children) []
    (s.pcbs s.running).children (by
      simpa [hr.children, movedChildren, Ne.symm hne] using List.perm_append_comm)
  exact (h2.trans h1).symm

end Linked

/-! ## The calls -/

/-- `spawn` finds an entry for the new process. -/
theorem spawn_linked (hi : Inv s) (h : Linked s) : ∃ s', internalSpawn s = .ok s' ∧ Linked s' := by
  cases hg : s.pcbPool.get with
  | none =>
    exact ⟨_, internalSpawn_full hg, h.same rfl rfl (by simp)⟩
  | some x =>
    obtain ⟨p, pool⟩ := x
    obtain ⟨⟨b, ptrPool⟩, hb⟩ := Option.ne_none_iff_exists'.1 (h.get_ne_none hi.tree.wf)
    obtain ⟨hne, -, h1, -⟩ := born_spec hi.toConsistent ptrPool b hg
    have h2 := (h1.insertReady (by simpa using hne) (by simp [born])).1
    refine ⟨_, internalSpawn_eq hne hg hb h2, (h.born hi hg hb).same rfl rfl fun q => ?_⟩
    simp

theorem fork_linked (hi : Inv s) (h : Linked s) : ∃ s', internalFork s = .ok s' ∧ Linked s' := by
  cases hg : s.pcbPool.get with
  | none =>
    exact ⟨_, internalFork_full hg, h.same rfl rfl (by simp)⟩
  | some x =>
    obtain ⟨p, pool⟩ := x
    obtain ⟨⟨b, ptrPool⟩, hb⟩ := Option.ne_none_iff_exists'.1 (h.get_ne_none hi.tree.wf)
    obtain ⟨hne, -, h1, -⟩ := born_spec hi.toConsistent ptrPool b hg
    have h2 := ((h1.setRetvalue s.running s.lastPid).insertReady (by simpa using hne)
      (by simp [born])).1
    refine ⟨_, internalFork_eq hne hg hb (hi.tree.descriptors _) h2,
      (h.born hi hg hb).same rfl rfl fun q => ?_⟩
    simp

theorem waitSleep_linked (h : Linked s) (hs : internalWait.waitSleep s p = .ok s') : Linked s' := by
  obtain ⟨s₁, h₁, hs⟩ := bind_eq_ok.1 hs
  obtain ⟨⟨next, s₂⟩, h₂, hs⟩ := bind_eq_ok.1 hs
  obtain ⟨ps, -, rfl⟩ := listDetachFirst_cases h₂
  cases hs
  have h0 : Linked (s.setStatus p .waiting) := h.same rfl rfl (by simp)
  have h1 : Linked s₁ := by
    rcases listInsert_cases h₁ with rfl | rfl
    exacts [h0, h0.same rfl rfl (by simp)]
  exact h1.same rfl rfl (by simp)

theorem wait_linked (hi : Inv s) (h : Linked s) (hs : internalWait s = .ok s') : Linked s' := by
  unfold internalWait at hs
  dsimp only at hs
  split at hs
  · cases hs
    exact h.same rfl rfl (by simp)
  split at hs
  · split at hs
    · cases hs
      exact h.same rfl rfl (by simp)
    · exact waitSleep_linked h hs
  rename_i e hscan
  split at hs
  · rename_i hz
    have he : e ∈ (s.pcbs s.running).children := by
      simpa using ((waitScan_spec _ none).2 e hscan).1
    have hm : s.Alloc e.pcb := (hi.tree.wf.entry (q := s.running) (List.mem_map_of_mem he)).1
    have hne : e.pcb ≠ s.running := by
      intro heq
      rw [heq, hi.status] at hz
      cases hz
    have hr := reap_eq rfl hne ((s.pcbs s.running).syscallArgs 1)
    rw [if_pos ((hi.zombie_iff hm).1 hz)] at hr
    obtain rfl := Except.ok.inj (hr.symm.trans hs)
    exact h.reaped hi he hz _
  · exact waitSleep_linked h hs

/-- The parent waits for a process that has retired if it did before. -/
theorem Retired.waitsFor (hr : Retired s s') (hst : (s.pcbs s.running).status = .running) :
    waitsFor s' parent (s'.pcbs s.running).pid ↔ waitsFor s parent (s.pcbs s.running).pid := by
  have hn : (s'.pcbs parent).syscallNum = (s.pcbs parent).syscallNum :=
    (congrArg PCB.syscallNum (hr.core parent) :)
  have ha : (s'.pcbs parent).syscallArgs = (s.pcbs parent).syscallArgs :=
    (congrArg PCB.syscallArgs (hr.core parent) :)
  have hp : (s'.pcbs s.running).pid = (s.pcbs s.running).pid :=
    (congrArg PCB.pid (hr.core s.running) :)
  unfold DisastrOS.waitsFor
  rw [hr.status, hn, ha, hp]
  by_cases hrun : parent = s.running
  · simp [hrun, hst]
  · simp [hrun]

/-- An exit frees the entry of the caller with `wait`, unless the parent waits already. -/
theorem exit_linked (hi : Inv s) (h : Linked s) (hs : internalExit s = .ok s') :
    (∃ parent ∈ (s.pcbs s.running).parent, waitsFor s parent (s.pcbs s.running).pid) ∧
        ¬ ExactPools s' ∨
      (¬ ∃ parent ∈ (s.pcbs s.running).parent, waitsFor s parent (s.pcbs s.running).pid) ∧
        Linked s' := by
  by_cases hinit : s.running = s.initPcb
  · rcases exit_init hi hinit with he | he <;> cases he.symm.trans hs
  obtain ⟨s₁, hr, he⟩ := exit_retires hi hinit
  have h1 := h.retired hi hinit hr
  have hc := hr.consistent hi hinit
  rw [he] at hs
  cases hp : (s.pcbs s.running).parent with
  | none =>
    rw [hp] at hs
    cases hs
  | some parent =>
    rw [hp] at hs
    dsimp only at hs
    split at hs
    · rename_i hw
      refine .inl ⟨⟨parent, rfl, (hr.waitsFor hi.status).1 hw⟩, fun hx => ?_⟩
      rcases exitToParent_reaps hi hinit hr hw with hn | ⟨e, hm, hself, hwl, hok⟩
      · cases hn.symm.trans hs
      generalize (storeResult ..).mem = mem at hok
      obtain rfl := Except.ok.inj (hok.symm.trans hs)
      have hz : s.running ∈ s₁.zombieList := by rw [hr.zombies]; simp
      have h2 := (handedOver_spec hc (hr.idle hi.idle) hz hwl hw.2.1 hm mem hself).1
      have hpar : s₁.Alloc parent := hc.placed.alloc (L := .waiting) hwl
      -- the entry `e` has left the children list, and its block is still in use
      have hperm : ([e] ++ entries (handedOver s₁ s.running parent e mem)).Perm
          ([] ++ entries s₁) := by
        refine entries_perm hc.tree.wf h2.tree.wf (by simp [handedOver]) hpar.1
          (fun q hq => by simp [handedOver, hq]) ?_
        simpa [handedOver] using (List.perm_cons_erase hm).symm
      have hlen := hperm.length_eq
      have hout : (handedOver s₁ s.running parent e mem).pcbPtrPool.outstanding =
          (entries s₁).length := by
        rw [← List.length_map (f := PCBPtr.block)]
        exact h1.owns.outstanding
      have hexact := hx.entries
      rw [hout] at hexact
      simp only [List.length_append, List.length_singleton, List.length_nil] at hlen
      omega
    · rename_i hw
      refine .inr ⟨?_, ?_⟩
      · rintro ⟨q, hq, hw'⟩
        obtain rfl := Option.some.inj hq
        exact hw ((hr.waitsFor hi.status).2 hw')
      · obtain ⟨⟨next, s₂⟩, h₂, hs⟩ := bind_eq_ok.1 hs
        obtain ⟨ps, -, rfl⟩ := listDetachFirst_cases h₂
        cases hs
        exact h1.same rfl rfl (by simp)

/-! ## Steps and runs -/

/-- A step keeps the entries linked, unless it ends a `wait`. -/
theorem step_linked (hi : Inv s) (h : Linked s) (he : ev.IsProcess) (hs : step s ev = .ok s') :
    EndsWait s ev ∧ ¬ ExactPools s' ∨ ¬ EndsWait s ev ∧ Linked s' := by
  cases ev with
  | tick =>
    have h0 : Linked { s with time := s.time + 1 } := h.same rfl rfl fun _ => rfl
    exact .inr ⟨id, h0.rescheduled (.schedule hs)⟩
  | store addr bytes =>
    cases hs
    exact .inr ⟨id, h.same rfl rfl fun _ => rfl⟩
  | syscall c =>
    have hi0 := hi.saveCall c
    have h0 := h.saveCall c
    cases c with
    | spawn f args =>
      obtain ⟨s₁, h1, h2⟩ := spawn_linked hi0 h0
      obtain rfl := Except.ok.inj (h1.symm.trans ((step_syscall rfl).symm.trans hs))
      exact .inr ⟨id, h2⟩
    | fork =>
      obtain ⟨s₁, h1, h2⟩ := fork_linked hi0 h0
      obtain rfl := Except.ok.inj (h1.symm.trans ((step_syscall rfl).symm.trans hs))
      exact .inr ⟨id, h2⟩
    | wait pid result =>
      exact .inr ⟨id, wait_linked hi0 h0 ((step_syscall rfl).symm.trans hs)⟩
    | exit v =>
      have hpar : ((saveCall s (.exit v)).pcbs (saveCall s (.exit v)).running).parent =
          (s.pcbs s.running).parent := by simp [saveCall]
      have hpid : ((saveCall s (.exit v)).pcbs (saveCall s (.exit v)).running).pid =
          (s.pcbs s.running).pid := by simp [saveCall]
      have h1 := exit_linked hi0 h0 ((step_syscall rfl).symm.trans hs)
      rw [hpar, hpid] at h1
      exact h1
    | preempt => exact .inr ⟨id, h0.rescheduled (.schedule ((step_syscall rfl).symm.trans hs))⟩
    | _ => exact absurd he id

/-- The assertions of `spawn` and `fork` hold. -/
theorem step_asserts (hi : Inv s) (h : Linked s) (he : ev.IsProcess) :
    step s ev ≠ .error .assertion := by
  intro hs
  cases ev with
  | tick =>
    obtain ⟨s₁, h1, -⟩ := tick_spec hi
    cases h1.symm.trans hs
  | store addr bytes => cases hs
  | syscall c =>
    have hi0 := hi.saveCall c
    have h0 := h.saveCall c
    cases c with
    | spawn f args =>
      obtain ⟨s₁, h1, -⟩ := spawn_linked hi0 h0
      cases h1.symm.trans ((step_syscall rfl).symm.trans hs)
    | fork =>
      obtain ⟨s₁, h1, -⟩ := fork_linked hi0 h0
      cases h1.symm.trans ((step_syscall rfl).symm.trans hs)
    | wait pid result => cases (wait_spec hi pid result).error ((step_syscall rfl).symm.trans hs)
    | exit v => rcases (exit_spec hi v).error ((step_syscall rfl).symm.trans hs) with e | e <;> cases e
    | preempt =>
      obtain ⟨s₁, h1, -⟩ := preempt_spec hi
      cases h1.symm.trans hs
    | _ => exact absurd he id

theorem boot_linked : Linked boot := by
  obtain ⟨pool, hg, hb⟩ := boot_eq
  have hchild : ∀ p, (boot.pcbs p).children = [] := fun p => by
    rw [hb]
    by_cases hp : p = 0 <;> simp [booted, hp, initProcess]
  have hnil : entries boot = [] := by
    unfold entries
    simp [hchild]
  refine ⟨?_, ?_⟩
  · rw [hb]
    exact (Pool.get_eq hg).2.symm
  · rw [hnil, hb]
    exact Pool.owns_init _

/-- What a run in which no exit ends a `wait` keeps. -/
theorem ensures_linked (hi : Inv s ∧ Linked s) (he : ev.IsProcess) (hn : ¬ EndsWait s ev) :
    Ensures (step s ev) (· ≠ .assertion) fun s' => Inv s' ∧ Linked s' := by
  cases hs : step s ev with
  | error x =>
    rintro rfl
    exact step_asserts hi.1 hi.2 he hs
  | ok s' =>
    have h1 := ((step_process hi.1 he).ok hs).1
    rcases step_linked hi.1 hi.2 he hs with ⟨hw, -⟩ | ⟨-, h2⟩
    exacts [absurd hw hn, ⟨h1, h2⟩]

theorem run_linked (he : ∀ ev ∈ es, ev.IsProcess)
    (hn : Along step (fun s ev => ¬ EndsWait s ev) boot es) (hr : run step boot es = .ok s) :
    Inv s ∧ Linked s :=
  run_inv (I := fun s => Inv s ∧ Linked s) (fun _ _ _ h he hn hs => (ensures_linked h he hn).ok hs)
    ⟨boot_inv, boot_linked⟩ he hn hr

/-- **The pools of processes are exact** throughout a run exactly if no process of the run exits while
its parent waits for it, and then the assertions of `spawn` and `fork` never fail. -/
theorem exactPools_iff (he : ∀ ev ∈ es, ev.IsProcess) :
    (∀ s, run step boot es = .ok s →
      (Always step ExactPools boot es ↔ Along step (fun s ev => ¬ EndsWait s ev) boot es)) ∧
    (Along step (fun s ev => ¬ EndsWait s ev) boot es → run step boot es ≠ .error .assertion) := by
  constructor
  · intro s hr
    refine always_iff_along (I := fun s => Inv s ∧ Linked s) (A := Event.IsProcess)
      (fun _ h => h.2.exactPools h.1) (fun _ _ _ h he hn hs => (ensures_linked h he hn).ok hs)
      (fun s ev s' h he hn hs => ?_) ⟨boot_inv, boot_linked⟩ he hr
    rcases step_linked h.1 h.2 he hs with ⟨-, hx⟩ | ⟨hw, -⟩
    exacts [hx, absurd hw hn]
  · intro hn hr
    have h : Ensures (run step boot es) (· ≠ .assertion) fun s => Inv s ∧ Linked s :=
      run_ensures (fun _ _ h he hn => ensures_linked h he hn) ⟨boot_inv, boot_linked⟩ he hn
    exact h.error hr rfl

/-- Init waits for its child, which exits. -/
def lingeringRun : List Event :=
  [.syscall (.spawn 0 0), .syscall (.wait 0 0)] ++ [.syscall (.exit 0)]

theorem lingeringRun_not_exactPools : (∀ ev ∈ lingeringRun, ev.IsProcess) ∧
    ∃ s, run step boot lingeringRun = .ok s ∧ ¬ ExactPools s := by
  refine ⟨by decide, ?_⟩
  have hc : (run step boot [.syscall (.spawn 0 0), .syscall (.wait 0 0)]).toOption.any (fun s =>
      EndsWait s (.syscall (.exit 0)) ∧
        (step s (.syscall (.exit 0))).toOption.any (fun _ => true)) = true := by decide +kernel
  have hn : Along step (fun s ev => ¬ EndsWait s ev) boot
      [.syscall (.spawn 0 0), .syscall (.wait 0 0)] := by decide +kernel
  obtain ⟨s, hr, hc⟩ := run_check hc
  obtain ⟨hw, hc⟩ := of_decide_eq_true hc
  obtain ⟨s', hs, -⟩ := ok_of_any hc
  have h : Inv s ∧ Linked s := run_linked (by decide) hn hr
  refine ⟨s', (run_snoc hr).trans hs, ?_⟩
  rcases step_linked h.1 h.2 (by decide) hs with ⟨-, hx⟩ | ⟨hn, -⟩
  exacts [hx, absurd hw hn]

/-- Two children exit, and init reaps them afterwards and forks. -/
def harvestingRun : List Event :=
  [.syscall (.spawn 0 0), .syscall (.spawn 0 0), .syscall .preempt, .syscall (.exit 3), .tick,
    .syscall (.wait 1 0), .syscall .preempt, .syscall (.exit 4), .syscall (.wait 0 0),
    .syscall .fork]

theorem exactPools_harvestingRun : Always step ExactPools boot harvestingRun ∧
    run step boot harvestingRun ≠ .error .assertion := by
  have hc : (run step boot harvestingRun).toOption.any (fun _ => true) = true := by decide +kernel
  have hn : Along step (fun s ev => ¬ EndsWait s ev) boot harvestingRun := by decide +kernel
  obtain ⟨s, hr, -⟩ := run_check hc
  have hev : ∀ ev ∈ harvestingRun, ev.IsProcess := by decide
  have h := exactPools_iff hev
  exact ⟨(h.1 s hr).2 hn, h.2 hn⟩

end

end DisastrOS
