import DisastrOS.Proof.Requests

/-!
# The process table

Every allocated PCB but the running one is on exactly one list, with the status of that list. The
only call that breaks this is a `sleep` for which nobody can run instead of the caller: the caller
goes on running with the status of a sleeping process, and on the waiting list (`partition_iff`).
-/

namespace DisastrOS

open Lib State

section
variable {s s' : State} {e : Event} {es : List Event}

/-- The process table is partitioned among the running process and the lists. -/
structure Partition (s : State) : Prop where
  running : s.Alloc s.running ∧ (s.pcbs s.running).status = .running
  unlisted : ∀ L, s.running ∉ s.list L
  listed : ∀ p, s.Alloc p → p ≠ s.running → ∃ L, s.OnlyOn p L ∧ (s.pcbs p).status = L.status
  allocated : ∀ L, ∀ p ∈ s.list L, s.Alloc p
  live : ∀ q, (s.queues q).waitingSenders ≠ [] ∨ (s.queues q).waitingReceivers ≠ [] → q ∈ s.live

theorem Inv.partition (h : Inv s) : Partition s where
  running := ⟨h.placed.held (List.mem_singleton_self _), h.status⟩
  unlisted _ hp := h.placed.not_held hp (List.mem_singleton_self _)
  listed p hp hne := by
    obtain ⟨L, hL, hst, -⟩ := h.mem_list hp hne
    exact ⟨L, h.onlyOn hL, hst⟩
  allocated _ _ hp := h.placed.alloc hp
  live q hq := by
    by_contra hn
    obtain ⟨hr, hs⟩ := h.queues.dead hn
    exact hq.elim (fun hne => hne hs) fun hne => hne hr

def Event.IsSleep : Event → Prop
  | .syscall (.sleep _) => True
  | _ => False

instance (e : Event) : Decidable e.IsSleep := by
  unfold Event.IsSleep
  split <;> infer_instance

/-- The calls on processes and queues, with `sleep`, preemptions, ticks and stores. -/
def Event.IsProcessOrMq (e : Event) : Prop := e.IsMq ∨ e.IsProcess ∨ e.IsSleep

instance (e : Event) : Decidable e.IsProcessOrMq := inferInstanceAs (Decidable (_ ∨ _ ∨ _))

/-- The event is a `sleep` that has to wait while nobody can run instead of the caller. -/
def Stalls (s : State) : Event → Prop
  | .syscall (.sleep n) => ¬ MaySleep s n
  | _ => False

instance (s : State) : Decidable (Schedulable s) := inferInstanceAs (Decidable (_ ∨ _))
instance (s : State) (n : Int) : Decidable (MaySleep s n) :=
  inferInstanceAs (Decidable (_ ∨ _ ∨ _ ∨ _))

instance (s : State) (e : Event) : Decidable (Stalls s e) := by
  unfold Stalls
  split <;> infer_instance

theorem step_sleep (h : Inv s) (n : Int) : ∃ s', step s (.syscall (.sleep n)) = .ok s' ∧
    (MaySleep s n → Inv s') ∧ (¬ MaySleep s n → (s'.pcbs s'.running).status = .waiting) := by
  obtain ⟨s', h1, h2, h3⟩ := sleep_spec h n
  exact ⟨s', (step_syscall rfl).trans h1, h2, h3⟩

/-- A step that does not stall keeps the invariant, and stops the kernel for no list that cannot be
represented. -/
theorem step_inv (h : Inv s) (he : e.IsProcessOrMq) (hn : ¬ Stalls s e) :
    Ensures (step s e) (· ≠ .corrupted) Inv := by
  rcases he with he | he | he
  · exact (step_mq h he).mono (by rintro _ rfl; decide) fun _ => And.left
  · exact (step_process h he).mono (fun _ => id) fun _ => And.left
  · match e, he with
    | .syscall (.sleep n), _ =>
      obtain ⟨s', h1, h2, -⟩ := step_sleep h n
      rw [h1]
      exact h2 (not_not.1 hn)

theorem Stalls.not_partition (hst : Stalls s e) (h : Inv s) (hs : step s e = .ok s') :
    ¬ Partition s' := by
  match e, hst with
  | .syscall (.sleep n), hn =>
    obtain ⟨s₁, h1, -, h2⟩ := step_sleep h n
    obtain rfl : s₁ = s' := Except.ok.inj (h1.symm.trans hs)
    intro hp
    have := hp.running.2
    rw [h2 hn] at this
    cases this

theorem run_ensures_inv (he : ∀ e ∈ es, e.IsProcessOrMq)
    (hn : Along step (fun s e => ¬ Stalls s e) boot es) :
    Ensures (run step boot es) (· ≠ .corrupted) Inv :=
  run_ensures (fun _ _ h he hn => step_inv h he hn) boot_inv he hn

theorem run_unstalled (he : ∀ e ∈ es, e.IsProcessOrMq)
    (hn : Along step (fun s e => ¬ Stalls s e) boot es) (hr : run step boot es = .ok s) : Inv s :=
  (run_ensures_inv he hn).ok hr

/-- **The process table is partitioned** throughout a run exactly if no `sleep` in it stalls, and
then no list operation of the run ever goes wrong. -/
theorem partition_iff (he : ∀ e ∈ es, e.IsProcessOrMq) :
    (∀ s, run step boot es = .ok s →
      (Always step Partition boot es ↔ Along step (fun s e => ¬ Stalls s e) boot es)) ∧
    (Along step (fun s e => ¬ Stalls s e) boot es → run step boot es ≠ .error .corrupted) := by
  constructor
  · intro s hr
    exact always_iff_along (I := Inv) (fun _ h => h.partition)
      (fun _ _ _ h he hn hs => (step_inv h he hn).ok hs)
      (fun _ _ _ h _ hst hs => (not_not.1 hst).not_partition h hs) boot_inv he hr
  · intro hn hr
    exact (run_ensures_inv he hn).error hr rfl

/-- Init sleeps while there is no other process. -/
def stallingRun : List Event := [.syscall (.sleep 3)]

theorem stallingRun_not_partition : (∀ e ∈ stallingRun, e.IsProcessOrMq) ∧
    ∃ s, run step boot stallingRun = .ok s ∧ ¬ Partition s := by
  refine ⟨by decide, ?_⟩
  have hc : (run step boot stallingRun).toOption.any (fun s =>
      s.running ∈ s.waitingList) = true := by decide +kernel
  obtain ⟨s, hr, hs⟩ := run_check hc
  exact ⟨s, hr, fun hp => hp.unlisted .waiting (of_decide_eq_true hs)⟩

/-- Init sleeps for two ticks while its child runs, and then the child blocks on a queue. -/
def wakingRun : List Event :=
  [.syscall (.spawn 0 0), .syscall (.mqCreate 5 1), .syscall (.sleep 2), .tick, .tick,
    .syscall (.mqReceive 5 200 4)]

theorem partition_wakingRun : Always step Partition boot wakingRun := by
  have hc : (run step boot wakingRun).toOption.any (fun _ => true) = true := by decide +kernel
  obtain ⟨s, hr, -⟩ := run_check hc
  exact ((partition_iff (by decide)).1 s hr).2 (by decide +kernel)

end

end DisastrOS
