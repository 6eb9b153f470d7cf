import DisastrOS.Proof.Requests
import DisastrOS.Proof.Delivery
import DisastrOS.Proof.System

/-!
# Messages and answers in any run

What runs on queues keep, the runs of any calls on queues and processes keep as well
(`mixed_exactlyOnce`): the calls on processes leave the channels alone. And no answer is lost or
given twice: the calls without an answer are those that have none, and the last ones of the
processes that are blocked (`answered_exactly`).
-/

namespace DisastrOS

open Lib State

section
variable {s s' : State} {p q : PcbRef} {c : Syscall} {n : Nat} {id r : Int} {pay : List UInt8}
  {h : List Act} {e : Event} {es : List Event}

/-- The process sleeps in a `wait`, or is on a waiting list of a queue. -/
def State.Stuck (s : State) (p : PcbRef) : Prop :=
  s.system.Asleep p ∨
    ∃ q ∈ s.live, p ∈ (s.queues q).waitingReceivers ++ (s.queues q).waitingSenders

theorem MixedInv.mqInv (h : MixedInv s) : MqInv s :=
  ⟨h.toInv, h.safe.books.kept, h.safe.books.trails, h.safe.books.numbered⟩

/-! ## Messages -/

theorem MixedInv.copied (h : MixedInv s) (he : e.IsProcessOrMq) (hn : ¬ Stalls s e)
    (hs : step s e = .ok s') : Copied s s' :=
  (step_system h he hn hs).copies h.safe

/-- **Exactly once, whatever else happens.** In every state that a run of calls on queues and
processes reaches, messages have gone first in, first out and each has exactly one fate, and every
call has moved the messages that its return value says, whole; with the bytes of the call, if nobody
writes into the buffer of a blocked sender. -/
theorem mixed_exactlyOnce (he : ∀ e ∈ es, e.IsProcessOrMq)
    (hn : Along step (fun s e => ¬ Stalls s e) boot es) (hr : run step boot es = .ok s) :
    ExactlyOnce s ∧ (∀ id, ∀ m ∈ enqueues id s.history, ∃! f : Fate, f.Met s id m) ∧
      Along step (Leads step Copied) boot es ∧
      (Along step (Leads step Steady) boot es → PayloadKept s) := by
  have h := run_mixed he hn hr
  refine ⟨exactlyOnce_of_inv h.mqInv, fun id m hm => ?_, ?_, fun hst => ?_⟩
  · obtain ⟨f, hf⟩ := h.mqInv.fate_exists hm
    exact ⟨f, hf, fun f' hf' => h.mqInv.fate_unique hf' hf⟩
  · have hall : Along step (fun _ e => e.IsProcessOrMq) boot es :=
      along_of_inv (I := fun _ => True) (fun _ _ _ he => he) (fun _ _ _ _ _ _ => trivial) trivial he
    exact (hall.and hn).mono_inv (I := MixedInv) (fun _ _ h hc _ hs => h.copied hc.1 hc.2 hs)
      (fun _ _ _ h hc hs => h.preserved hc.1 hc.2 hs) boot_mixedInv
  · have hc := run_inv (I := fun s => MixedInv s ∧ s.channels.Carried)
      (fun s e s' h he hc hs => ⟨h.1.preserved he hc.1 hs,
        (step_system h.1 he hc.1 hs).carried h.2
          ((hc.2 s' hs).channels h.1.toInv)⟩)
      ⟨boot_mixedInv, boot_carried⟩ he (hn.and hst) hr
    exact hc.2.sent

theorem mixed_exactlyOnce_messenger : ∃ s, run step boot messengerRun = .ok s ∧
    ExactlyOnce s ∧ PayloadKept s := by
  have hc : (run step boot messengerRun).toOption.any (fun _ => true) = true := by decide +kernel
  obtain ⟨s, hr, -⟩ := run_check hc
  obtain ⟨h1, -, -, h2⟩ := mixed_exactlyOnce (by decide) (by decide +kernel) hr
  exact ⟨s, hr, h1, h2 (by decide +kernel)⟩

/-! ## Answers -/

/-- A call on queues that has not returned is blocked on one. -/
theorem Trail.blocked {chan : Int → Option Chan} (ht : Trail chan n h)
    (hi : .issue n p c pay ∈ h) (hc : c.IsMq) (hr : DisastrOS.returned n h = []) :
    ∃ id, ∃ ch ∈ chan id, ∃ rq ∈ ch.receivers ++ ch.senders, rq.call = n ∧ rq.pcb = p := by
  cases ht with
  | pass p' c' pay' acts hc' hacts =>
    have : c' = c := by
      rcases hacts with rfl | ⟨r, rfl⟩ <;> simp at hi <;> exact hi.2.1.symm
    exact absurd (this ▸ hc) hc'
  | sending p' id buffer size pay' ch hch hmem =>
    simp only [List.mem_singleton, Act.issue.injEq, true_and] at hi
    exact ⟨id, ch, hch, _, List.mem_append_right _ hmem, rfl, hi.1.symm⟩
  | receiving p' id buffer size pay' ch hch hmem =>
    simp only [List.mem_singleton, Act.issue.injEq, true_and] at hi
    exact ⟨id, ch, hch, _, List.mem_append_left _ hmem, rfl, hi.1.symm⟩
  | _ => simp [DisastrOS.returned] at hr

namespace MixedInv

/-- The last call of a blocked process has an answer, and it has not been given. -/
theorem expects (h : MixedInv s) (hp : s.Stuck p) :
    ∃ c, c.Returns ∧ Expects s.history (s.pcbs p).call p c ∧ (c.IsMq ∨ s.system.Asleep p) := by
  rcases hp with ⟨w, hw⟩ | ⟨q, -, hp⟩
  · obtain ⟨result, hx⟩ := h.safe.asleep hw
    exact ⟨.wait w result, trivial, hx, .inr ⟨w, hw⟩⟩
  · rcases List.mem_append.1 hp with hp | hp
    · exact ⟨.mqReceive .., trivial, h.mqInv.asks_receive hp, .inl trivial⟩
    · exact ⟨.mqSend .., trivial, h.mqInv.asks_send hp, .inl trivial⟩

/-- A call on queues that has not returned is the last one of a blocked process. -/
theorem stuck (h : MixedInv s) (hi : .issue n p c pay ∈ s.history) (hc : c.IsMq)
    (hr : returned n s.history = []) : (s.pcbs p).call = n ∧ s.Stuck p := by
  obtain ⟨ht, hi'⟩ := h.mqInv.trails.of_mem hi rfl
  rw [← returned_trail] at hr
  obtain ⟨id, ch, hch, rq, hrq, rfl, rfl⟩ := ht.blocked hi' hc hr
  obtain ⟨q, hq, rfl, rfl⟩ := (mem_chan h.toInv).1 hch
  have hmem : ∃ x ∈ (s.queues q).waitingReceivers ++ (s.queues q).waitingSenders,
      s.request x = rq := by
    rw [← List.mem_map, List.map_append]
    exact hrq
  obtain ⟨x, hx, rfl⟩ := hmem
  exact ⟨rfl, .inr ⟨q, hq, hx⟩⟩

theorem missing (h : MixedInv s) (hi : .issue n p c pay ∈ s.history) :
    returned n s.history = [] ↔ ¬ c.Returns ∨ (s.pcbs p).call = n ∧ s.Stuck p := by
  constructor
  · intro hr
    by_cases hc : c.IsMq
    · exact .inr (h.stuck hi hc hr)
    · exact ((h.safe.answered hi hc).1 hr).imp_right fun ⟨hcall, hp⟩ => ⟨hcall, .inl hp⟩
  · rintro (hno | ⟨rfl, hp⟩)
    · refine (h.safe.answered hi fun hc => hno ?_).2 (.inl hno)
      cases c with
      | mqCreate | mqSend | mqReceive | mqDestroy => trivial
      | _ => exact hc.elim
    · obtain ⟨c', -, hx, -⟩ := h.expects hp
      exact hx.returned

end MixedInv

/-- What is known of the answers to call number `n`, `c` of process `p`. -/
structure Replied (s : State) (n : Nat) (p : PcbRef) (c : Syscall) : Prop where
  once : (returned n s.history).length ≤ 1
  missing : returned n s.history = [] ↔ ¬ c.Returns ∨ (s.pcbs p).call = n ∧ s.Stuck p
  value : (s.pcbs p).call = n → ∀ r ∈ returned n s.history, (s.pcbs p).syscallRetvalue = r

/-- **No answer is lost or given twice.** In every state that a run of calls on queues and processes
reaches, a call has been answered at most once, and not at all exactly when it has no answer or is
the last call of a process that is blocked; the answer to the last call of a process is in its
PCB. -/
theorem answered_exactly (he : ∀ e ∈ es, e.IsProcessOrMq)
    (hn : Along step (fun s e => ¬ Stalls s e) boot es) (hr : run step boot es = .ok s) :
    ∀ n p c pay, .issue n p c pay ∈ s.history → Replied s n p c := by
  intro n p c pay hi
  have h := run_mixed he hn hr
  have honce : (returned n s.history).length ≤ 1 := h.mqInv.trails.returned_once n
  refine ⟨honce, h.missing hi, fun hcall r hr => h.answers.value hi hcall ?_⟩
  obtain ⟨x, hx⟩ : ∃ x, returned n s.history = [x] :=
    List.length_eq_one_iff.1 (Nat.le_antisymm honce (List.length_pos_of_mem hr))
  rw [hx, List.mem_singleton] at hr
  have hlast : lastRetval n s.history = (returned n s.history).getLast? := rfl
  rw [hlast, hx, hr]
  rfl

theorem answered_exactly_messenger : ∃ s, run step boot messengerRun = .ok s ∧
    .issue 3 0 (.mqReceive 5 200 4) [] ∈ s.history ∧ Replied s 3 0 (.mqReceive 5 200 4) := by
  have hc : (run step boot messengerRun).toOption.any
      (fun s => .issue 3 0 (.mqReceive 5 200 4) [] ∈ s.history) = true := by decide +kernel
  obtain ⟨s, hr, hs⟩ := run_check hc
  have hi := of_decide_eq_true hs
  exact ⟨s, hr, hi, answered_exactly (by decide) (by decide +kernel) hr _ _ _ _ hi⟩

end

end DisastrOS
