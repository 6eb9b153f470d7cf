import Mathlib
import DisastrOS.Proof.Requests

/-!
# Counters and pools

The counters of the queues, their lists of messages and the two pools agree in every state that a
run on queues reaches (`accounts`). So an allocation of a message never fails, and a creation fails
only while the greatest number of queues is live (`creates_of_fresh`).
-/

namespace DisastrOS

open Lib State

section
variable {s : State} {es : List Event} {B : List Nat} {id size : Int}

/-- The counters and the pools agree. -/
structure Balanced (s : State) : Prop where
  count : ∀ q ∈ s.live, (s.queues q).currentMessages = (s.queues q).messages.length ∧
    (s.queues q).currentMessages ≤ (s.queues q).maxMessages ∧
    (s.queues q).maxMessages ≤ maxMessagesPerQueue
  messages : (s.messagePool.outstanding : Int) =
    (s.live.map fun q => (s.queues q).currentMessages).sum
  queues : s.queuePool.outstanding = s.live.length

/-- The next call creates the queue `id` if there is a block for it. -/
def Creates (s : State) (id size : Int) : Prop :=
  ∃ s', step s (.syscall (.mqCreate id size)) = .ok s' ∧
    (s'.pcbs s.running).syscallRetvalue =
      if s.live.length = maxMessageQueues then dsosEMqCreate else id

theorem sum_length (f : QueueRef → List Nat) (g : QueueRef → Int) : ∀ qs : List QueueRef,
    (∀ q ∈ qs, g q = (f q).length) → ((qs.flatMap f).length : Int) = (qs.map g).sum
  | [], _ => rfl
  | q :: qs, h => by
    have ih := sum_length f g qs fun i hi => h i (List.mem_cons_of_mem _ hi)
    rw [List.flatMap_cons, List.length_append, List.map_cons, List.sum_cons, ← ih,
      h q List.mem_cons_self]
    exact Int.natCast_add _ _

theorem Queues.balanced (h : Queues s []) : Balanced s where
  count q hq := by
    have h1 := h.ok q hq
    exact ⟨h1.count, h1.count ▸ h1.bound, h1.capMax⟩
  messages := by
    rw [h.messages.outstanding, List.nil_append]
    refine sum_length _ _ _ fun q hq => ?_
    rw [(h.ok q hq).count, MessageQueue.blocks, List.length_map]
  queues := h.pool.outstanding

/-- A creation with valid arguments and a fresh id. -/
theorem creates_of_fresh (h : Inv s) (hid : 0 < id) (hpos : 0 < size)
    (hmax : size ≤ maxMessagesPerQueue) (hfresh : ∀ q ∈ s.live, (s.queues q).queueId ≠ id) :
    Creates s id size := by
  have h1 := h.saveCall (.mqCreate id size)
  have hrun := saveCall_running s (.mqCreate id size)
  have h2 : internalMqCreate (saveCall s (.mqCreate id size)) = _ :=
    internalMqCreate_eq h1 id size (saveCall_args s (.mqCreate id size) 0)
      (saveCall_args s (.mqCreate id size) 1) hid hpos hmax (Queues.queueById_eq_none.2 hfresh)
  refine ⟨_, (step_syscall rfl).trans h2, ?_⟩
  have hpool : (saveCall s (.mqCreate id size)).queuePool = s.queuePool := rfl
  have hnone : s.queuePool.get = none ↔ s.live.length = maxMessageQueues := by
    rw [h.queues.pool.get_none, h.queues.poolSize]
  rw [hpool, hrun]
  cases hg : s.queuePool.get with
  | none => simp [hnone.1 hg]
  | some x =>
    have : s.live.length ≠ maxMessageQueues := fun hl => by
      rw [hnone.2 hl] at hg
      cases hg
    simp [this]

/-- **Counters and pools agree** in every state that a run on queues reaches, no message has been
refused for lack of a block, and a creation is refused only if the most queues are live. -/
theorem accounts (he : ∀ e ∈ es, e.IsMq) (hr : run step boot es = .ok s) :
    Balanced s ∧ (∀ n, .noMessage n ∉ s.history) ∧
      ∀ id size : Int, 0 < id → 0 < size → size ≤ maxMessagesPerQueue →
        (∀ q ∈ s.live, (s.queues q).queueId ≠ id) → Creates s id size := by
  have h := run_mq he hr
  exact ⟨h.queues.balanced, fun n => (h.no_mishap n).1, fun _ _ => creates_of_fresh h.toInv⟩

/-- One queue with a message is live when another is created. -/
def accountingRun : List Event := [.syscall (.mqCreate 5 2), .syscall (.mqSend 5 100 2)]

theorem accounts_create : ∃ s s', run step boot accountingRun = .ok s ∧ Balanced s ∧
    step s (.syscall (.mqCreate 6 16)) = .ok s' ∧ (s'.pcbs s.running).syscallRetvalue = 6 ∧
    s'.queueById 6 = some 1 ∧ (s'.queues 1).maxMessages = 16 := by
  have hc : (run step boot accountingRun).toOption.any (fun s =>
      (∀ q ∈ s.live, (s.queues q).queueId ≠ 6) ∧ s.live.length ≠ maxMessageQueues) = true := by
    decide +kernel
  have hc' : (run step boot (accountingRun ++ [.syscall (.mqCreate 6 16)])).toOption.any
      (fun s' => s'.queueById 6 = some 1 ∧ (s'.queues 1).maxMessages = 16) = true := by
    decide +kernel
  obtain ⟨s, hr, hc⟩ := run_check hc
  obtain ⟨s', hr', hc'⟩ := run_check hc'
  obtain ⟨hfresh, hlen⟩ := of_decide_eq_true hc
  rw [run_snoc hr] at hr'
  obtain ⟨h1, -, h2⟩ := accounts (by decide) hr
  obtain ⟨t, ht, hret⟩ := h2 6 16 (by decide) (by decide) (by decide) hfresh
  obtain rfl : t = s' := Except.ok.inj (ht.symm.trans hr')
  rw [if_neg hlen] at hret
  exact ⟨s, t, hr, h1, ht, hret, of_decide_eq_true hc'⟩

end

end DisastrOS
