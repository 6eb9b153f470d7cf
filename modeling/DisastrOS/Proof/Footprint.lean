import DisastrOS.Proof.Calls
import DisastrOS.Proof.Sane

/-!
# Where the kernel writes

The kernel stores to user memory in two places: the payload of a message goes to the buffer of a
receive, and the value of a zombie to the address that `wait` was given. Whatever is called, and
however long after the request, it writes nowhere else (`mem_spared`): a byte keeps its value in
every run in which no program stores to it or passes it in such a call, and no step `Relinks`.
-/

namespace DisastrOS

open Lib State Relation

/-- The call with the saved number and arguments asks the kernel to write to address `a`. -/
def Asks (a : Int) (num : Nat) (args : Nat → Int) : Prop :=
  num = dsosCallMqReceive ∧ args 1 ≤ a ∧ a < args 1 + args 2 ∨
    num = dsosCallWait ∧ args 1 ≠ 0 ∧ args 1 ≤ a ∧ a < args 1 + 4

/-- The event stores to address `a`, or asks the kernel to. -/
def Event.Writes (a : Int) : Event → Prop
  | .store addr bytes => addr ≤ a ∧ a < addr + bytes.length
  | .syscall (.mqReceive _ buffer size) => buffer ≤ a ∧ a < buffer + size
  | .syscall (.wait _ retval) => retval ≠ 0 ∧ retval ≤ a ∧ a < retval + 4
  | _ => False

instance (a : Int) : DecidablePred (Event.Writes a)
  | .store .. | .syscall (.mqReceive ..) => inferInstanceAs (Decidable (_ ∧ _))
  | .syscall (.wait ..) => inferInstanceAs (Decidable (_ ∧ _ ∧ _))
  | .tick | .syscall .preempt | .syscall .fork | .syscall (.exit _) | .syscall (.spawn ..)
  | .syscall (.sleep _) | .syscall (.openResource ..) | .syscall (.closeResource _)
  | .syscall (.destroyResource _) | .syscall (.mqCreate ..) | .syscall (.mqSend ..)
  | .syscall (.mqDestroy _) | .syscall .shutdown => isFalse id

/-- The byte at `a` has its value `v`, and no call that has been made is going to change it. -/
structure Spared (a : Int) (v : UInt8) (s : State) : Prop where
  mem : s.mem a = v
  calls : ∀ p, ¬ Asks a (s.pcbs p).syscallNum (s.pcbs p).syscallArgs
  receivers : ∀ q, ∀ p ∈ (s.queues q).waitingReceivers, (s.pcbs p).syscallNum = dsosCallMqReceive
  messages : ∀ q, ∀ m ∈ (s.queues q).messages, m.data.length = m.size.toNat

section
variable {s s' : State} {a : Int} {v : UInt8} {p r : PcbRef} {q : QueueRef} {n : Nat}
  {L : PcbList} {ps : List PcbRef} {c : Syscall} {e : Event} {es : List Event}

theorem memWrite_of_not {mem : Int → UInt8} {addr : Int} {bytes : List UInt8}
    (h : ¬ (addr ≤ a ∧ a < addr + bytes.length)) : memWrite mem addr bytes a = mem a := by
  unfold memWrite
  rw [if_neg h]

namespace Spared

/-- The calls of the processes are the same, and the queues hold nothing else. -/
theorem congr (h : Spared a v s) (hmem : s'.mem = s.mem)
    (hnum : ∀ p, (s'.pcbs p).syscallNum = (s.pcbs p).syscallNum)
    (hargs : ∀ p, (s'.pcbs p).syscallArgs = (s.pcbs p).syscallArgs)
    (hrec : ∀ q, ∀ p ∈ (s'.queues q).waitingReceivers, p ∈ (s.queues q).waitingReceivers)
    (hmsg : ∀ q, ∀ m ∈ (s'.queues q).messages, m ∈ (s.queues q).messages) : Spared a v s' := by
  refine ⟨hmem ▸ h.mem, fun p => ?_, fun q p hp => ?_, fun q m hm => h.messages q m (hmsg q m hm)⟩
  · rw [hnum, hargs]
    exact h.calls p
  · rw [hnum]
    exact h.receivers q p (hrec q p hp)

theorem setList (h : Spared a v s) (hL : ∀ q, L = .receivers q →
    ∀ p ∈ ps, (s.pcbs p).syscallNum = dsosCallMqReceive) : Spared a v (s.setList L ps) := by
  refine ⟨?_, fun p => ?_, fun q p hp => ?_, fun q m hm => ?_⟩
  · rw [setList_mem]
    exact h.mem
  · rw [setList_pcbs]
    exact h.calls p
  · rw [setList_pcbs]
    have hp' : p ∈ (s.setList L ps).list (.receivers q) := hp
    by_cases he : L = .receivers q
    · subst he
      rw [list_setList_self] at hp'
      exact hL q rfl p hp'
    · rw [list_setList_of_ne (Ne.symm he)] at hp'
      exact h.receivers q p hp'
  · rw [setList_queues] at hm
    exact h.messages q m hm

theorem setStatus (h : Spared a v s) (p : PcbRef) (st : ProcessStatus) :
    Spared a v (s.setStatus p st) :=
  h.congr rfl (by simp) (by simp) (fun _ _ => id) fun _ _ => id

/-- A buffer that is not `a`'s is written to. -/
theorem write {addr : Int} {bytes : List UInt8} (h : Spared a v s)
    (ha : ¬ (addr ≤ a ∧ a < addr + bytes.length)) :
    Spared a v { s with mem := memWrite s.mem addr bytes } :=
  ⟨(memWrite_of_not ha).trans h.mem, h.calls, h.receivers, h.messages⟩

end Spared

theorem intBytes_length (v : Int) : (intBytes v).length = 4 := by simp [intBytes]

/-- No effect writes where no saved call asks it to. -/
theorem Effect.spared (h : Effect n r s s') (hs : Spared a v s) : Spared a v s' := by
  cases h with
  | minor h =>
    exact hs.congr h.mem h.syscallNum h.syscallArgs (fun q p hp => h.waitingReceivers q ▸ hp)
      fun q m hm => h.messages q ▸ hm
  | enqueue | wake | yield =>
    exact hs.congr rfl (by simp) (by simp) (fun _ _ => id) fun _ _ => id
  | queueUp hL hn =>
    refine hs.setList fun q hq p hp => ?_
    subst hq
    rcases List.mem_append.1 hp with hp | hp
    · exact hs.receivers q p hp
    · rw [List.mem_singleton.1 hp, hn]
      exact (hL.resolve_right fun h => by cases h.1).2
  | giveUp =>
    refine (hs.setList fun q hq p hp => ?_).setStatus _ _
    subst hq
    exact hs.receivers q p (List.mem_of_mem_erase hp)
  | serve _ hl =>
    refine (hs.setList fun q hq p hp => ?_).setStatus _ _
    subst hq
    have hl' : (s.queues q).waitingReceivers = _ := hl
    exact hs.receivers q p (hl' ▸ List.mem_cons_of_mem _ hp)
  | @push q m _ hlen =>
    refine ⟨hs.mem, hs.calls, fun i p hp => hs.receivers i p ?_, fun i m' hm => ?_⟩
    · by_cases hi : i = q <;> simpa [hi] using hp
    · by_cases hi : i = q
      · subst hi
        simp only [updQueue_queues, if_true, List.mem_append, List.mem_singleton] at hm
        rcases hm with hm | rfl
        exacts [hs.messages i m' hm, hlen]
      · exact hs.messages i m' (by simpa [hi] using hm)
  | @pop q m ms hl =>
    refine hs.congr rfl (fun _ => rfl) (fun _ => rfl) (fun i p hp => ?_) fun i m' hm => ?_
    · by_cases hi : i = q <;> simpa [hi] using hp
    · by_cases hi : i = q
      · subst hi
        simp only [updQueue_queues, if_true] at hm
        exact hl ▸ List.mem_cons_of_mem _ hm
      · simpa [hi] using hm
  | @deliver p q m hp hm hle =>
    have hnum : (s.pcbs p).syscallNum = dsosCallMqReceive := by
      rcases hp with ⟨rfl, rfl, hn⟩ | ⟨-, hp⟩
      exacts [hn, hs.receivers q p hp]
    have hlen := hs.messages q m hm
    refine hs.write fun ha => hs.calls p (.inl ⟨hnum, ha.1, ?_⟩)
    have := ha.2
    rw [hlen] at this
    omega
  | found =>
    refine hs.congr rfl (fun _ => rfl) (fun _ => rfl) (fun i p hp => ?_) fun i m' hm => ?_
    · simp only [updQueue_queues, MessageQueue.ite_waitingReceivers] at hp
      split at hp
      · cases hp
      · exact hp
    · simp only [updQueue_queues, MessageQueue.ite_messages] at hm
      split at hm
      · cases hm
      · exact hm
  | @report p z _ hn _ =>
    unfold storeResult
    split
    · exact hs.congr rfl (fun _ => rfl) (fun _ => rfl) (fun _ _ => id) fun _ _ => id
    · rename_i hne
      refine hs.write fun ha => hs.calls p (.inr ⟨hn, hne, ha.1, ?_⟩)
      simpa [intBytes_length] using ha.2
  | purge | free =>
    exact hs.congr rfl (fun _ => rfl) (fun _ => rfl) (fun _ _ => id) fun _ _ => id
  | birth =>
    exact hs.congr rfl (by simp [begun]) (by simp [begun]) (fun _ _ => id) fun _ _ => id
  | _ => exact hs.congr rfl (by simp) (by simp) (fun _ _ => id) fun _ _ => id

/-- The running process makes a call that does not touch `a`. -/
theorem Spared.saveCall (h : Spared a v s) (hs : Sane s)
    (hc : ¬ (Event.syscall c).Writes a) : Spared a v (saveCall s c) := by
  refine ⟨h.mem, fun p => ?_, fun q p hp => ?_, h.messages⟩
  · by_cases hp : p = s.running
    · subst hp
      rw [saveCall_num]
      cases c with
      | mqReceive id buffer size =>
        rintro (⟨-, ha⟩ | ⟨hn, -⟩)
        · rw [saveCall_args, saveCall_args] at ha
          exact hc ha
        · cases hn
      | wait pid retval =>
        rintro (⟨hn, -⟩ | ⟨-, ha⟩)
        · cases hn
        · rw [saveCall_args] at ha
          exact hc ha
      | _ =>
        rintro (⟨hn, -⟩ | ⟨hn, -⟩) <;> cases hn
    · simpa [DisastrOS.saveCall, hp] using h.calls p
  · have hp' : p ∈ s.list (.receivers q) := hp
    have hne : p ≠ s.running := by
      rintro rfl
      cases hs.runs.only_waiting hs.table hp'
    simpa [DisastrOS.saveCall, hne] using h.receivers q p hp

theorem Spared.step (h : Spared a v s) (hs : Sane s) (he : ¬ e.Writes a)
    (hstep : step s e = .ok s') : Spared a v s' := by
  refine step_effects (I := Spared a v) (fun he h => he.spared h) (fun _ h => ?_) ?_ (fun _ => ?_)
    ?_ hstep
  · exact h.congr rfl (fun _ => rfl) (fun _ => rfl) (fun _ _ => id) fun _ _ => id
  · rintro c rfl
    exact h.saveCall hs he
  · exact h.congr rfl (fun _ => rfl) (fun _ => rfl) (fun _ _ => id) fun _ _ => id
  · rintro addr bytes rfl
    exact h.write he

theorem Sane.withMem (h : Sane s) (mem : Int → UInt8) : Sane { s with mem := mem } := by
  have hq : Quiet s { s with mem := mem } := rfl
  exact (Steps.quiet h hq).sane

/-- At the start nothing has been asked for. -/
theorem booted_spared (mem : Int → UInt8) (pool : Pool) :
    Spared a (mem a) { booted pool with mem := mem } := by
  refine ⟨rfl, fun p => ?_, fun q p hp => ?_, fun q m hm => ?_⟩
  · by_cases hp : p = 0 <;> simp [hp, booted, initProcess, Asks, dsosCallMqReceive, dsosCallWait]
  · cases hp
  · cases hm

/-- **The kernel writes only where it is asked to.** From the start, whatever is in memory, a byte
keeps its value in every run in which no program stores to it, gives it as part of the buffer of a
`mq_receive`, or of the result of a `wait`; a run ends where a step `Relinks`. -/
theorem mem_spared (mem : Int → UInt8) (hr : run step { boot with mem := mem } es = .ok s)
    (he : ∀ e ∈ es, ¬ e.Writes a) : s.mem a = mem a := by
  obtain ⟨pool, -, hboot⟩ := boot_eq
  have h0 : Sane { boot with mem := mem } ∧ Spared a (mem a) { boot with mem := mem } :=
    ⟨boot_sane.withMem mem, hboot ▸ booted_spared mem pool⟩
  exact (run_inv' (I := fun s => Sane s ∧ Spared a (mem a) s) (A := fun e => ¬ e.Writes a)
    (fun s e s' h he hs => ⟨(step_steps h.1 hs).sane, h.2.step h.1 he hs⟩) h0 he hr).2.mem

/-- A message is received into the buffer at 8, and the byte at 12 is out of its reach. -/
theorem mem_spared_received : ∃ s, run step { boot with mem := fun _ => 7 }
      [.syscall (.mqCreate 5 1), .syscall (.mqSend 5 64 4), .syscall (.mqReceive 5 8 4),
        .store 8 [1]] = .ok s ∧
    s.mem 8 = 1 ∧ s.mem 12 = 7 := by
  have hc : (run step { boot with mem := fun _ => 7 }
      [.syscall (.mqCreate 5 1), .syscall (.mqSend 5 64 4), .syscall (.mqReceive 5 8 4),
        .store 8 [1]]).toOption.any (fun s => s.mem 8 = 1) = true := by decide +kernel
  obtain ⟨s, hr, hc⟩ := run_check hc
  exact ⟨s, hr, of_decide_eq_true hc, mem_spared (fun _ => 7) hr (by decide)⟩

end

end DisastrOS
