import DisastrOS.Proof.Schedule
import DisastrOS.Spec.Family

/-!
# The process tree and the answers to calls

`State.family` reads the process family off the PCBs; `Tree s` says that its children lists are in
order. `Answers s` ties the saved arguments and the return value of a process to the history of its
latest call.
-/

namespace DisastrOS

open Lib State

/-- The abstraction function. -/
def State.family (s : State) : Family where
  capacity := s.pcbPool.sizeMax
  root := s.initPcb
  member := s.Alloc
  parent p := (s.pcbs p).parent
  children p := (s.pcbs p).children.map (·.pcb)
  pid p := (s.pcbs p).pid
  nextPid := s.lastPid
  zombie p := p ∈ s.zombieList
  asleep p :=
    if (s.pcbs p).status = .waiting ∧ (s.pcbs p).syscallNum = dsosCallWait then
      some ((s.pcbs p).syscallArgs 0)
    else none

/-- The family is in order, and no process has descriptors. -/
structure Tree (s : State) : Prop where
  wf : s.family.Wf
  descriptors : ∀ p, (s.pcbs p).descriptors = []

/-- The value that call `n` has returned last. -/
def lastRetval (n : Nat) (h : List Act) : Option Int :=
  (h.filterMap fun
    | .retval k r => if k = n then some r else none
    | _ => none).getLast?

/-- The calls in the history, and what the PCBs of their callers say about them. -/
structure Answers (s : State) : Prop where
  first : 0 < s.calls
  returned : ∀ {n r}, .retval n r ∈ s.history → n < s.calls
  issued : ∀ {n p c pay}, .issue n p c pay ∈ s.history → 0 < n ∧ n < s.calls
  own : ∀ p, (s.pcbs p).call = 0 ∨ ∃ c pay, .issue (s.pcbs p).call p c pay ∈ s.history
  caller : ∀ {n p c pay p' c' pay'}, .issue n p c pay ∈ s.history →
    .issue n p' c' pay' ∈ s.history → p = p' ∧ c = c'
  args : ∀ {n p c pay}, .issue n p c pay ∈ s.history → (s.pcbs p).call = n →
    (s.pcbs p).syscallNum = c.num ∧ ∀ i x, c.args[i]? = some x → (s.pcbs p).syscallArgs i = x
  value : ∀ {n p c pay r}, .issue n p c pay ∈ s.history → (s.pcbs p).call = n →
    lastRetval n s.history = some r → (s.pcbs p).syscallRetvalue = r

section
variable {s s' : State} {p q : PcbRef}

theorem lastRetval_append_of {n : Nat} {h acts : List Act} (hn : ∀ r, .retval n r ∉ acts) :
    lastRetval n (h ++ acts) = lastRetval n h := by
  have hnil : (acts.filterMap fun
      | .retval k r => if k = n then some r else none
      | _ => none) = [] := by
    refine List.filterMap_eq_nil_iff.2 fun a ha => ?_
    cases a with
    | retval k r =>
      have hk : k ≠ n := fun e => hn r (e ▸ ha)
      simp [hk]
    | _ => rfl
  rw [lastRetval, List.filterMap_append, hnil, List.append_nil]
  rfl

theorem lastRetval_snoc {n : Nat} {h : List Act} {r : Int} :
    lastRetval n (h ++ [.retval n r]) = some r := by
  simp [lastRetval]

/-- `Tree` reads the PCB pool, the zombies, and the family of the processes. -/
theorem Tree.congr (h : Tree s) (hi : s'.initPcb = s.initPcb) (hl : s'.lastPid = s.lastPid)
    (hp : s'.pcbPool = s.pcbPool) (hz : s'.zombieList = s.zombieList)
    (hpid : ∀ p, (s'.pcbs p).pid = (s.pcbs p).pid)
    (hpar : ∀ p, (s'.pcbs p).parent = (s.pcbs p).parent)
    (hch : ∀ p, (s'.pcbs p).children = (s.pcbs p).children)
    (hd : ∀ p, (s'.pcbs p).descriptors = (s.pcbs p).descriptors) : Tree s' where
  wf := h.wf.congr hi (fun p => by simp [State.family, State.Alloc, hp]) (funext hpar)
    (funext fun p => by simp only [State.family, hch p]) (funext hpid) hl
    fun p => by simp [State.family, hz]
  descriptors p := (hd p).trans (h.descriptors p)

/-- `Answers` reads the history and the calls of the processes; entries that neither issue a call
nor return from one do not matter. -/
theorem Answers.congr (h : Answers s) (acts : List Act) (hh : s'.history = s.history ++ acts)
    (hc : s'.calls = s.calls) (hi : ∀ n p c pay, .issue n p c pay ∉ acts)
    (hr : ∀ n r, .retval n r ∉ acts) (hcall : ∀ p, (s'.pcbs p).call = (s.pcbs p).call)
    (hn : ∀ p, (s'.pcbs p).syscallNum = (s.pcbs p).syscallNum)
    (ha : ∀ p, (s'.pcbs p).syscallArgs = (s.pcbs p).syscallArgs)
    (hv : ∀ p, (s'.pcbs p).syscallRetvalue = (s.pcbs p).syscallRetvalue) : Answers s' := by
  have hm : ∀ {n p c pay}, Act.issue n p c pay ∈ s'.history ↔ .issue n p c pay ∈ s.history := by
    intro n p c pay
    rw [hh, List.mem_append]
    exact or_iff_left (hi n p c pay)
  have hl : ∀ n, lastRetval n s'.history = lastRetval n s.history :=
    fun n => by rw [hh, lastRetval_append_of (hr n)]
  have hm' : ∀ {n r}, Act.retval n r ∈ s'.history ↔ .retval n r ∈ s.history := by
    intro n r
    rw [hh, List.mem_append]
    exact or_iff_left (hr n r)
  refine ⟨?_, ?_, ?_, ?_, ?_, ?_, ?_⟩ <;> simp only [hm, hm', hl, hc, hcall, hn, ha, hv]
  exacts [h.first, h.returned, h.issued, h.own, h.caller, h.args, h.value]

theorem Answers.call_lt (h : Answers s) (p : PcbRef) : (s.pcbs p).call < s.calls := by
  rcases h.own p with h1 | ⟨c, pay, h1⟩
  · rw [h1]
    exact h.first
  · exact (h.issued h1).2

/-- A return value answers the latest call of its process. -/
theorem Answers.setRetvalue (h : Answers s) (p : PcbRef) (r : Int) :
    Answers (s.setRetvalue p r) := by
  have hm : ∀ {n q c pay}, Act.issue n q c pay ∈ (s.setRetvalue p r).history ↔
      .issue n q c pay ∈ s.history := by simp
  have hcall : ∀ q, ((s.setRetvalue p r).pcbs q).call = (s.pcbs q).call := by simp
  refine ⟨h.first, fun {n r'} hr => ?_, fun hq => h.issued (hm.1 hq), fun q => ?_,
    fun hq hq' => h.caller (hm.1 hq) (hm.1 hq'), fun hq hc => ?_,
    fun {n q c pay r'} hq hc hlast => ?_⟩
  · rw [setRetvalue_history, List.mem_append, List.mem_singleton] at hr
    rcases hr with hr | hr
    · exact h.returned hr
    · cases hr
      exact h.call_lt p
  · simp only [hm, hcall]
    exact h.own q
  · simpa using h.args (hm.1 hq) (by simpa using hc)
  · rw [hm] at hq
    rw [hcall] at hc
    by_cases hn : (s.pcbs p).call = n
    · rw [setRetvalue_history, hn, lastRetval_snoc, Option.some.injEq] at hlast
      have hqp : q = p := by
        rcases h.own p with h0 | ⟨c', pay', hp⟩
        · have := (h.issued hq).1
          omega
        · exact (h.caller hq (hn ▸ hp)).1
      simp [hqp, hlast]
    · rw [setRetvalue_history, lastRetval_append_of (by simpa using Ne.symm hn)] at hlast
      have hqp : q ≠ p := fun e => hn (e ▸ hc)
      simpa [hqp] using h.value hq hc hlast

/-- A new call has no answer yet. -/
theorem Answers.saveCall (h : Answers s) (c : Syscall) :
    Answers (saveCall s c) := by
  have hcall : ∀ q, ((DisastrOS.saveCall s c).pcbs q).call =
      if q = s.running then s.calls else (s.pcbs q).call := by
    intro q
    simp [DisastrOS.saveCall]
  have hm : ∀ {n q c' pay}, Act.issue n q c' pay ∈ (DisastrOS.saveCall s c).history ↔
      .issue n q c' pay ∈ s.history ∨
        n = s.calls ∧ q = s.running ∧ c' = c ∧ pay = c.payload s.mem := by
    intro n q c' pay
    simp [DisastrOS.saveCall]
  -- an entry of an old call is that of a process that is not running now, or not its latest
  have hold : ∀ {n q c' pay}, .issue n q c' pay ∈ s.history →
      ((DisastrOS.saveCall s c).pcbs q).call = n → q ≠ s.running ∧ (s.pcbs q).call = n := by
    intro n q c' pay hq hn
    rw [hcall] at hn
    split at hn
    · have := (h.issued hq).2
      omega
    · exact ⟨‹_›, hn⟩
  refine ⟨Nat.succ_pos _, fun {n r} hr => ?_, fun hq => ?_, fun q => ?_, fun hq hq' => ?_,
    fun {n q c' pay} hq hn => ?_, fun {n q c' pay r} hq hn hlast => ?_⟩
  · exact Nat.lt_succ_of_lt (h.returned (by simpa [DisastrOS.saveCall] using hr))
  · change _ ∧ _ < s.calls + 1
    have := h.first
    rcases hm.1 hq with hq | ⟨rfl, -⟩
    · have := h.issued hq
      omega
    · omega
  · rw [hcall]
    by_cases hqr : q = s.running
    · rw [if_pos hqr]
      exact .inr ⟨c, _, hm.2 (.inr ⟨rfl, hqr, rfl, rfl⟩)⟩
    · rw [if_neg hqr]
      rcases h.own q with h1 | ⟨c', pay', h1⟩
      · exact .inl h1
      · exact .inr ⟨c', pay', hm.2 (.inl h1)⟩
  · rcases hm.1 hq with h1 | ⟨rfl, rfl, rfl, -⟩ <;> rcases hm.1 hq' with h2 | ⟨e, rfl, rfl, -⟩
    · exact h.caller h1 h2
    · have := (h.issued h1).2
      omega
    · have := (h.issued h2).2
      omega
    · exact ⟨rfl, rfl⟩
  · rcases hm.1 hq with h1 | ⟨rfl, rfl, rfl, -⟩
    · obtain ⟨hqr, hn'⟩ := hold h1 hn
      simpa [DisastrOS.saveCall, hqr] using h.args h1 hn'
    · refine ⟨by simp [DisastrOS.saveCall], fun i x hx => ?_⟩
      simp [DisastrOS.saveCall, List.getD_eq_getElem?_getD, hx]
  · have hl : lastRetval n (DisastrOS.saveCall s c).history = lastRetval n s.history :=
      lastRetval_append_of (by simp)
    rw [hl] at hlast
    rcases hm.1 hq with h1 | ⟨rfl, rfl, rfl, -⟩
    · obtain ⟨hqr, hn'⟩ := hold h1 hn
      simpa [DisastrOS.saveCall, hqr] using h.value h1 hn' hlast
    · have := List.mem_of_getLast? hlast
      simp only [List.mem_filterMap] at this
      obtain ⟨a, ha, har⟩ := this
      cases a <;> simp at har
      have := h.returned ha
      omega

end

end DisastrOS
