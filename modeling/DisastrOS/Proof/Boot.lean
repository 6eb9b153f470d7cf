import DisastrOS.Proof.Step
import DisastrOS.Spec.Payload

/-!
# Runs from the start

The first state satisfies the invariants of the kernel, of the channels and of the family
(`boot_inv`, `boot_trails`, ...), and the runs on queues keep them (`run_mq`).
-/

namespace DisastrOS

open Lib State

section
variable {s s' : State} {e : Event} {es : List Event}

/-! ## The first state -/

/-- The PCB of init. -/
def initProcess : PCB := { status := .running, signalsMask := 0xFFFFFFFF }

/-- The first state; `pool` holds the PCBs that are left. -/
def booted (pool : Pool) : State :=
  { coldState with
    pcbPool := pool, lastPid := 1, pcbs := fun i => if i = 0 then initProcess else {} }

theorem pcbAlloc_eq {p : PcbRef} {pool : Pool} (hg : s.pcbPool.get = some (p, pool)) :
    pcbAlloc s = some (p, { s with pcbPool := pool, lastPid := s.lastPid + 1 }.updPcb p
      ({ · with
        pid := s.lastPid, returnValue := 0, status := .invalid, lastFd := 0, signals := 0,
        signalsMask := 0xFFFFFFFF, descriptors := [], parent := none, timer := none,
        children := [] })) := by
  unfold pcbAlloc
  rw [hg]

theorem boot_eq : ∃ pool, (Pool.init maxNumProcesses).get = some (0, pool) ∧
    boot = booted pool := by
  obtain ⟨pool, hg⟩ := Pool.get_init (n := maxNumProcesses) (by decide)
  refine ⟨pool, hg, ?_⟩
  unfold boot
  rw [pcbAlloc_eq (s := coldState) hg]
  have hp : ∀ i, ((({ coldState with pcbPool := pool, lastPid := coldState.lastPid + 1 } :
      State).updPcb 0 ({ · with
        pid := coldState.lastPid, returnValue := 0, status := .invalid, lastFd := 0, signals := 0,
        signalsMask := 0xFFFFFFFF, descriptors := [], parent := none, timer := none,
        children := [] })).setStatus 0 .running).pcbs i = (booted pool).pcbs i := fun i => by
    by_cases hi : i = 0 <;> simp [hi, booted, initProcess, coldState]
  exact congrArg (fun f => ({ coldState with
    pcbPool := pool, lastPid := 1, pcbs := f } : State)) (funext hp)

theorem booted_inv {pool : Pool} (hg : (Pool.init maxNumProcesses).get = some (0, pool)) :
    Inv (booted pool) := by
  have hown : pool.Owns [0] := (Pool.owns_init maxNumProcesses).get hg
  have halloc : ∀ {p}, (booted pool).Alloc p ↔ p = 0 := fun {p} => by
    have := hown.mem_iff (b := p)
    rw [List.mem_singleton] at this
    exact this.symm
  have hlist : ∀ L, (booted pool).list L = [] := fun L => by cases L <;> rfl
  have hother : ∀ {p}, p ≠ 0 → (booted pool).pcbs p = {} := fun hp => if_neg hp
  have hinit : (booted pool).pcbs 0 = initProcess := by simp [booted]
  have hchildren : ∀ p, ((booted pool).pcbs p).children = [] := fun p => by
    by_cases hp : p = 0
    · rw [hp, hinit]; rfl
    · rw [hother hp]
  have hfam : ∀ p, (booted pool).family.children p = [] := fun p => by
    simp [State.family, hchildren]
  have hnone : ∀ {p q}, p ∉ (booted pool).family.children q := fun {p q} => by simp [hfam]
  have hmem : ∀ {p}, (booted pool).family.member p ↔ p = 0 := halloc
  have hcall : ∀ p, ((booted pool).pcbs p).call = 0 := fun p => by
    by_cases hp : p = 0
    · rw [hp, hinit]; rfl
    · rw [hother hp]
  have hrun : (booted pool).running = 0 := rfl
  have hlive : (booted pool).live = [] := rfl
  have hhist : ∀ a, a ∉ (booted pool).history := fun a => List.not_mem_nil
  refine ⟨⟨?_, ⟨?_, ?_⟩, ?_, ⟨?_, ?_⟩, ?_⟩, ?_, ?_⟩
  · refine ⟨hown.ok, ?_, ?_, ?_, ?_, ?_, ?_, ?_, ?_, ?_⟩ <;> simp only [hlist, hrun, halloc]
    · simp
    · intro p hp
      rw [hother hp]
      simp
    all_goals simp
  · simp [booted, coldState]
  · simp [booted, coldState]
  · refine ⟨rfl, Pool.owns_init maxMessageQueues, rfl, ?_, ?_, ?_, rfl, ?_, ?_⟩
    · simp [hlive]
    · simp [hlive]
    · exact Pool.owns_init (maxMessagesPerQueue * maxMessageQueues)
    · intro q p hp
      cases hp
    · intro q p hp
      cases hp
  · exact {
      rootMem := hmem.2 rfl
      rootParent := congrArg PCB.parent hinit
      rootAlive := List.not_mem_nil
      entry := fun h => absurd h hnone
      irrefl := fun _ => hnone
      owner := fun h => absurd h hnone
      nodup := fun q => by rw [hfam]; exact List.nodup_nil
      parent := fun h => absurd h hnone
      adopted := fun hm hne => absurd (hmem.1 hm) hne
      free := fun _ => hfam _
      zombie := fun _ => hfam _
      pid_lt := fun hm => by
        obtain rfl := hmem.1 hm
        exact (congrArg PCB.pid hinit).trans_lt Nat.one_pos
      pid_inj := fun hm hm' _ => (hmem.1 hm).trans (hmem.1 hm').symm }
  · intro p
    by_cases hp : p = 0
    · rw [hp, hinit]; rfl
    · rw [hother hp]
  · exact ⟨Nat.one_pos, fun h => absurd h (hhist _), fun h => absurd h (hhist _),
      fun p => .inl (hcall p), fun h => absurd h (hhist _), fun h => absurd h (hhist _),
      fun h => absurd h (hhist _)⟩
  · rw [hrun, hinit]; rfl
  · intro q hq
    rw [hlive] at hq
    cases hq

theorem boot_inv : Inv boot := by
  obtain ⟨pool, hg, hb⟩ := boot_eq
  exact hb ▸ booted_inv hg

/-- At the start there are no queues and nothing has happened. -/
theorem boot_channels : boot.channels = ⟨fun _ => none, fun _ => 0, 1, []⟩ := by
  obtain ⟨pool, -, hb⟩ := boot_eq
  rw [hb]
  rfl

theorem boot_kept : boot.channels.Kept := by
  rw [boot_channels]
  intro id
  exact ⟨by simp, by simp, .nil, .nil, by simp [dequeueCalls], .nil,
    by simp [enqueueCalls, enqueues]⟩

theorem boot_ordered : boot.channels.Ordered := by
  rw [boot_channels]
  exact ⟨by simp, fun _ => .nil⟩

theorem boot_trails : boot.channels.Trails := by
  rw [boot_channels]
  refine ⟨Nat.one_pos, fun n h0 h1 => ?_, fun _ _ => rfl, by simp [enqueues], by simp, by simp⟩
  change n < 1 at h1
  omega

theorem boot_numbered : boot.channels.Numbered := by
  rw [boot_channels]
  exact ⟨.nil, by simp [issueCalls]⟩

theorem boot_carried : boot.channels.Carried := by
  rw [boot_channels]
  exact ⟨by simp, by simp⟩

/-- Nobody has children. -/
theorem boot_children (q : PcbRef) : boot.family.children q = [] := by
  obtain ⟨pool, -, hb⟩ := boot_eq
  rw [hb]
  by_cases hq : q = 0 <;> simp [State.family, booted, hq, initProcess]

theorem boot_parent (p : PcbRef) : boot.family.parent p = none := by
  obtain ⟨pool, -, hb⟩ := boot_eq
  rw [hb]
  by_cases hp : p = 0 <;> simp [State.family, booted, hp, initProcess]

theorem boot_rooted : boot.family.Rooted := fun p _ q => by
  simp [boot_children, boot_parent]

theorem boot_answered : boot.family.Answered := fun q w _ _ p hp => by
  simp [boot_children] at hp

/-! ## Runs on queues -/

/-- The invariant of the runs on queues. -/
structure MqInv (s : State) : Prop extends Inv s where
  kept : s.channels.Kept
  trails : s.channels.Trails
  numbered : s.channels.Numbered

theorem MqInv.preserved (h : MqInv s) (he : e.IsMq) (hs : step s e = .ok s') :
    MqInv s' ∧ s.channels.Step e s'.channels := by
  obtain ⟨h1, h2⟩ := (step_mq h.toInv he).ok hs
  exact ⟨⟨h1, h2.kept h.kept, h2.trails h.kept h.trails, h2.numbered h.numbered⟩, h2⟩

theorem boot_mqInv : MqInv boot := ⟨boot_inv, boot_kept, boot_trails, boot_numbered⟩

theorem run_mq (he : ∀ e ∈ es, e.IsMq) (hr : run step boot es = .ok s) : MqInv s :=
  run_inv' (fun _ _ _ h he hs => (h.preserved he hs).1) boot_mqInv he hr

end

end DisastrOS
