import DisastrOS.Spec.Reports
import DisastrOS.Proof.System

/-!
# The end of a process is reported once, and truly

In the runs of calls on queues and processes in which no `sleep` stalls, the pids of the processes
that are gone are the answers to as many `wait`s, and the step that frees a process answers one with
its pid and the value of its `exit` (`exit_values`).
-/

namespace DisastrOS

open Lib State

section
variable {s s' : State} {z q : PcbRef} {v : Int} {e : Event} {es : List Event}

/-- Whose block is freed has been reported, with the value of its `exit`. -/
theorem MixedInv.tells (h : MixedInv s) (he : e.IsProcessOrMq) (hn : ¬ Stalls s e)
    (hs : step s e = .ok s') (ha : s.Alloc z) (hf : ¬ s'.Alloc z) :
    ∃ q v, s.system.Tells s'.system z q v := by
  rcases (step_system h he hn hs).keeps_or_tells h.safe with hk | ⟨p, q, v, ht⟩
  · exact absurd (hk.member z ha) hf
  · have hz : z = p := by
      by_contra hne
      exact hf ((ht.freed z).2 ⟨hne, ha⟩)
    exact ⟨q, v, hz ▸ ht⟩

/-- The value is that of the `exit` of the process. -/
theorem MixedInv.exited (h : MixedInv s) (he : e.IsProcessOrMq) (hn : ¬ Stalls s e)
    (hr : run step boot es = .ok s) (hs : step s e = .ok s') (ha : s.Alloc z) (hf : ¬ s'.Alloc z)
    (ht : s.system.Tells s'.system z q v) : Exited (es ++ [e]) (s.pcbs z).pid v := by
  have h' := h.preserved he hn hs
  obtain ⟨pay, hi⟩ := ht.exit
  obtain ⟨acts, hh⟩ := (step_system h he hn hs).history
  rcases step_freed h.sane hs ha hf with hz | ⟨rfl, v', rfl⟩
  · -- its last call has been the `exit` that made it a zombie
    have hne : z ≠ s.running := by
      rintro rfl
      rw [h.status] at hz
      cases hz
    have hcall : (s'.pcbs z).call = (s.pcbs z).call := by
      cases e with
      | tick => exact (tick_effects hs).call z
      | store =>
        cases hs
        rfl
      | syscall c => rw [step_call hs, if_neg hne]
    obtain ⟨pay', hi'⟩ := h.ended z hz
    have hi'' : .issue (s'.pcbs z).call z (.exit (s.pcbs z).returnValue) pay' ∈ s'.history := by
      have hmem : .issue (s.pcbs z).call z (.exit (s.pcbs z).returnValue) pay' ∈
          s'.system.channels.history := hh ▸ List.mem_append_left _ hi'
      rwa [hcall]
    have hv := (h'.answers.caller hi hi'').2
    simp only [Syscall.exit.injEq] at hv
    rw [hv]
    exact (zombie_exited hr hz).append [e]
  · have hcall : (s'.pcbs s.running).call = s.calls := by rw [step_call hs, if_pos rfl]
    obtain ⟨p, hi'⟩ := (step_system h he hn hs).issued
    have hi'' : .issue s.calls s.running (.exit v) pay ∈ s'.history := hcall ▸ hi
    have hv := (h'.answers.caller hi'' hi').2
    simp only [Syscall.exit.injEq] at hv
    exact ⟨es, [], s, by rw [hv], hr, rfl⟩

theorem run_reported (he : ∀ e ∈ es, e.IsProcessOrMq)
    (hn : Along step (fun s e => ¬ Stalls s e) boot es) (hr : run step boot es = .ok s) :
    s.system.Reported := by
  have h0 : boot.system.Safe ∧ boot.system.Reported :=
    ⟨boot_safe, boot_system ▸ System.initial_reported⟩
  exact ((run_system he hn hr).inv (J := fun a => a.Safe ∧ a.Reported)
    (fun _ _ _ h hs => ⟨hs.safe h.1, hs.reported h.1 h.2⟩) h0).2

/-- **The end of a process is reported once, and truly.** The pids that have been given out and are
those of no process any more are the answers to `wait`s, each to one of them. When a process is
freed, it has called `exit`, a `wait` that had no answer is answered with its pid, and is given the
value of that `exit`; and no process ever has that pid again. -/
theorem exit_values (he : ∀ x ∈ es ++ [e], x.IsProcessOrMq)
    (hn : Along step (fun s e => ¬ Stalls s e) boot (es ++ [e])) (hr : run step boot es = .ok s)
    (hs : step s e = .ok s') :
    s'.system.Reported ∧ ∀ z, s.Alloc z → ¬ s'.Alloc z →
      (∃ q v, Exited (es ++ [e]) (s.pcbs z).pid v ∧ s.system.Tells s'.system z q v ∧
        (s'.pcbs q).syscallRetvalue = (s.pcbs z).pid) ∧
      ∀ es' s₁, run step s' es' = .ok s₁ → ∀ p, s₁.Alloc p → (s₁.pcbs p).pid ≠ (s.pcbs z).pid := by
  have hr' : run step boot (es ++ [e]) = .ok s' := (run_snoc hr).trans hs
  have h := run_mixed (fun x hx => he x (List.mem_append_left _ hx)) hn.take hr
  have hne : ¬ Stalls s e := (hn.drop hr).1
  have hee := he e (by simp)
  refine ⟨run_reported he hn hr', fun z ha hf => ⟨?_, fun es' s₁ h₁ p hp => ?_⟩⟩
  · obtain ⟨q, v, ht⟩ := h.tells hee hne hs ha hf
    refine ⟨q, v, h.exited hee hne hr hs ha hf ht, ht, ?_⟩
    obtain ⟨w, result, ⟨pay, hi⟩, -⟩ := ht.wait
    refine (h.preserved hee hne hs).answers.value hi rfl ?_
    show (returned (s'.pcbs q).call s'.history).getLast? = _
    rw [show returned (s'.pcbs q).call s'.history = _ from ht.answer]
    rfl
  · have h0 := absent_of_freed (run_named hr) hs ha hf
    exact (run_inv' (I := Absent none (s.pcbs z).pid) (A := fun _ => True)
      (fun _ _ _ h _ hs => h.step hs) h0 (fun _ _ => trivial) h₁).absent p (by simp) hp

/-- The child exits with 42 while its parent waits for it, with room for the value at 64. -/
def awaitedRun : List Event := [.syscall (.spawn 0 0), .syscall (.wait 0 64)]

theorem exit_values_awaited : ∃ s s', run step boot awaitedRun = .ok s ∧
    step s (.syscall (.exit 42)) = .ok s' ∧ s.Alloc 1 ∧ ¬ s'.Alloc 1 ∧ s'.system.Reported ∧
    ∃ q v, Exited (awaitedRun ++ [.syscall (.exit 42)]) (s.pcbs 1).pid v ∧
      s.system.Tells s'.system 1 q v ∧ (s'.pcbs q).syscallRetvalue = (s.pcbs 1).pid := by
  have hc : (run step boot awaitedRun).toOption.any (fun s => s.Alloc 1 ∧
      (step s (.syscall (.exit 42))).toOption.any (fun s' => ¬ s'.Alloc 1)) = true := by
    decide +kernel
  obtain ⟨s, hr, hc⟩ := run_check hc
  obtain ⟨ha, hc⟩ := of_decide_eq_true hc
  obtain ⟨s', hs, hc⟩ := ok_of_any hc
  have hf : ¬ s'.Alloc 1 := of_decide_eq_true hc
  have he : ∀ x ∈ awaitedRun ++ [.syscall (.exit 42)], x.IsProcessOrMq := by decide
  obtain ⟨h1, h2⟩ := exit_values he (by decide +kernel) hr hs
  exact ⟨s, s', hr, hs, ha, hf, h1, (h2 1 ha hf).1⟩

end

end DisastrOS
