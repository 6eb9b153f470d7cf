import DisastrOS.Spec.System

/-!
# How the end of a process is reported

The end of a process is the answer to one `wait`. `Tells` is a step in which a process goes away:
its pid answers a `wait` that had no answer, and the value of its `exit` goes where that `wait` has
asked for it. Every step is one of these or leaves all processes and all reports alone
(`Step.keeps_or_tells`), so that the processes that are gone are those that have been reported, each
of them once (`Reported`).
-/

namespace DisastrOS

open Lib

/-- The pid `k` has been given out, and its process is gone. -/
def Family.Departed (a : Family) (k : Nat) : Prop :=
  k < a.nextPid ∧ ∀ p, a.member p → a.pid p ≠ k

namespace System

/-- Call number `n` is a `wait`, and its answer is the pid `k`. -/
def Reports (a : System) (n k : Nat) : Prop :=
  returned n a.channels.history = [(k : Int)] ∧
    ∃ p w result pay, .issue n p (.wait w result) pay ∈ a.channels.history

/-- The processes that are gone are those that have been reported, each of them once. -/
structure Reported (a : System) : Prop where
  departed_iff : ∀ k, a.family.Departed k ↔ ∃ n, a.Reports n k
  unique : ∀ {n n' k}, a.Reports n k → a.Reports n' k → n = n'

/-- Between `a` and `b`, no process goes away and none is reported. -/
structure Keeps (a b : System) : Prop where
  member : ∀ x, a.family.member x → b.family.member x
  departed : ∀ k, b.family.Departed k ↔ a.family.Departed k
  reports : ∀ n k, b.Reports n k ↔ a.Reports n k

/-- Between `a` and `b`, process `p` goes away: the last call of process `q`, a `wait`, had no answer
and gets its pid, and the value `v` of its last call, an `exit`. -/
structure Tells (a b : System) (p q : PcbRef) (v : Int) : Prop where
  member : a.family.member p
  freed : ∀ x, b.family.member x ↔ x ≠ p ∧ a.family.member x
  pids : b.family.pid = a.family.pid ∧ b.family.nextPid = a.family.nextPid
  missing : returned (b.call q) a.channels.history = []
  answer : returned (b.call q) b.channels.history = [(a.family.pid p : Int)]
  wait : ∃ w result, b.Last q (.wait w result) ∧
    b.channels.mem = reported a.channels.mem result v
  exit : b.Last p (.exit v)
  others : ∀ n k, n ≠ b.call q → (b.Reports n k ↔ a.Reports n k)

section
variable {a b : System} {f : Family} {p q r x : PcbRef} {n n' k m : Nat} {c c' : Syscall}
  {acts : List Act} {mem : Int → UInt8} {v w result : Int} {e : Event}

/-! ## What a step reports -/

/-- A call that has been answered has been reported to before, or not at all. -/
theorem Step.reports_iff (hs : a.Step e b) (h : a.Safe)
    (hr : returned n a.channels.history ≠ []) : b.Reports n k ↔ a.Reports n k := by
  obtain ⟨acts, hh⟩ := hs.history
  have hdone := (hs.safe h).books.trails.done hh hr
  have hret : returned n b.channels.history = returned n a.channels.history := by
    rw [hh, returned_append, ← returned_trail (h := acts), hdone]
    exact List.append_nil _
  unfold Reports
  rw [hret]
  refine and_congr_right fun _ => ⟨?_, ?_⟩
  · rintro ⟨p, w, result, pay, hi⟩
    refine ⟨p, w, result, pay, ?_⟩
    rw [hh] at hi
    refine (List.mem_append.1 hi).resolve_right fun hm => ?_
    have : .issue n p (.wait w result) pay ∈ trail n acts := mem_trail.2 ⟨hm, rfl⟩
    rw [hdone] at this
    cases this
  · rintro ⟨p, w, result, pay, hi⟩
    exact ⟨p, w, result, pay, hh ▸ List.mem_append_left _ hi⟩

/-- No call that has not been answered is reported to. -/
theorem Step.reports_of (hs : a.Step e b) (h : a.Safe)
    (hno : ∀ n k, returned n a.channels.history = [] → ¬ b.Reports n k) (n k : Nat) :
    b.Reports n k ↔ a.Reports n k := by
  by_cases hr : returned n a.channels.history = []
  · exact ⟨fun hb => absurd hb (hno n k hr), fun ha => by simp [ha.1] at hr⟩
  · exact hs.reports_iff h hr

/-- Nothing is reported by a call on queues. -/
theorem not_reports_queue {ch : Channels} (h : a.Safe) (hc : c.IsMq)
    (hs : a.channels.Step (.syscall c) ch) (hr : returned n a.channels.history = []) :
    ¬ { a.issue r c with channels := ch }.Reports n k := by
  rintro ⟨hret, p, w, result, pay, hi⟩
  rcases hs.issue_cases hi with hi | rfl
  · rw [(h.books.returned_iff hs hi id).2 hr] at hret
    cases hret
  · exact hc

/-- The answer to a call that is no `wait` reports nothing. -/
theorem not_reports_own (h : a.Safe) (hr : a.family.Awake r) (hc : ¬ c.IsMq)
    (hk : (∀ w result, c ≠ .wait w result) ∨ v < 0) (hn : returned n a.channels.history = []) :
    ¬ { a.issue r c with
        channels := ((a.channels.issue r c).log [(a.issue r c).answer r v]).setMem mem
        family := f }.Reports n k := by
  rintro ⟨hret, p, w, result, pay, hi⟩
  have hcall : (a.issue r c).call r = a.channels.calls := if_pos rfl
  have hret' : returned n a.channels.history ++
      returned n [(a.issue r c).answer r v] = [(k : Int)] := by
    rw [← hret]
    simp [Channels.log, Channels.issue, Channels.setMem, returned]
  rw [hn, List.nil_append] at hret'
  have hnk : a.channels.calls = n ∧ v = k := by
    by_cases he : a.channels.calls = n
    · simpa [answer, hcall, returned, he] using hret'
    · simp [answer, hcall, returned, he] at hret'
  obtain ⟨rfl, rfl⟩ := hnk
  rcases hk with hk | hk
  · have hown := (h.issued hc hr).own
    rw [hcall] at hown
    have hi' : .issue a.channels.calls p (.wait w result) pay ∈
        (a.channels.issue r c).history := by
      refine (List.mem_append.1 hi).resolve_right ?_
      simp [answer]
    exact hk w result (hown.unique hi').2.symm
  · omega

/-- Nothing is reported without an answer. -/
theorem not_reports_silent (hn : returned n a.channels.history = []) :
    ¬ { a.issue r c with
        channels := ((a.channels.issue r c).log []).setMem mem
        family := f }.Reports n k := by
  rintro ⟨hret, -⟩
  have hret' : returned n a.channels.history = [(k : Int)] := by
    rw [← hret]
    simp [Channels.log, Channels.issue, Channels.setMem, returned]
  rw [hn] at hret'
  cases hret'

/-! ## The steps -/

/-- The family has changed only in who sleeps. -/
theorem Keeps.of_same (hm : b.family.member = a.family.member)
    (hp : b.family.pid = a.family.pid) (hn : b.family.nextPid = a.family.nextPid)
    (hr : ∀ n k, b.Reports n k ↔ a.Reports n k) : a.Keeps b where
  member x hx := hm ▸ hx
  departed k := by rw [Family.Departed, Family.Departed, hm, hp, hn]
  reports := hr

theorem departed_birth {g : Family} (hp : ¬ g.member p) :
    (g.birth r p).Departed k ↔ g.Departed k := by
  have hne : ∀ x, g.member x → x ≠ p := fun x hx e => hp (e ▸ hx)
  constructor
  · rintro ⟨hlt, hno⟩
    have hlt' : k < g.nextPid + 1 := hlt
    have hnew : g.nextPid ≠ k := by simpa [Family.birth] using hno p (.inl rfl)
    refine ⟨by omega, fun x hx => ?_⟩
    simpa [Family.birth, hne x hx] using hno x (.inr hx)
  · rintro ⟨hlt, hno⟩
    refine ⟨Nat.lt_succ_of_lt hlt, ?_⟩
    rintro x (rfl | hx)
    · simpa [Family.birth] using hlt.ne'
    · simpa [Family.birth, hne x hx] using hno x hx

/-- A call that neither is answered by the step nor has been answered is reported to neither time. -/
theorem Step.reports_others (hs : a.Step e b) (h : a.Safe)
    (hh : b.channels.history = a.channels.history ++ acts) (hn : returned n acts = []) :
    b.Reports n k ↔ a.Reports n k := by
  by_cases hr : returned n a.channels.history = []
  · have hb : returned n b.channels.history = [] := by
      rw [hh, returned_append, hr, hn]
      rfl
    unfold Reports
    rw [hr, hb]
    simp
  · exact hs.reports_iff h hr

theorem last_issue : (a.issue r c).Last r c := by
  refine ⟨c.payload a.channels.mem, ?_⟩
  have hcall : (a.issue r c).call r = a.channels.calls := if_pos rfl
  rw [hcall]
  exact List.mem_append_right _ List.mem_cons_self

/-- A step that frees `p` and answers a `wait` with its pid. -/
theorem Tells.of_answer
    (hb : b = { a.issue r c with
      channels := ((a.channels.issue r c).log [(a.issue r c).answer q (a.family.pid p)]).setMem
        (reported a.channels.mem result v)
      family := f })
    (hs : a.Step e b) (h : a.Safe) (hp : a.family.member p)
    (hf : ∀ x, f.member x ↔ x ≠ p ∧ a.family.member x)
    (hi : f.pid = a.family.pid ∧ f.nextPid = a.family.nextPid)
    (hn : returned ((a.issue r c).call q) a.channels.history = [])
    (hw : (a.issue r c).Last q (.wait w result)) (hx : (a.issue r c).Last p (.exit v)) :
    a.Tells b p q v := by
  have hh : b.channels.history = a.channels.history ++
      ([.issue a.channels.calls r c (c.payload a.channels.mem)] ++
        [(a.issue r c).answer q (a.family.pid p)]) := by
    rw [hb]
    exact List.append_assoc _ _ _
  have hcall : b.call = (a.issue r c).call := by rw [hb]
  have hlast : ∀ {x c'}, (a.issue r c).Last x c' → b.Last x c' := by
    rintro x c' ⟨pay, hi⟩
    refine ⟨pay, ?_⟩
    rw [hcall, hb]
    exact List.mem_append_left _ hi
  have hother : ∀ n, n ≠ b.call q →
      returned n ([.issue a.channels.calls r c (c.payload a.channels.mem)] ++
        [(a.issue r c).answer q (a.family.pid p)]) = [] := by
    intro n hne
    rw [hcall] at hne
    simp [returned, System.answer, hne.symm]
  refine ⟨hp, ?_, ?_, hcall ▸ hn, ?_, ⟨w, result, hlast hw, ?_⟩, hlast hx,
    fun n k hne => hs.reports_others h hh (hother n hne)⟩
  · rw [hb]
    exact hf
  · rw [hb]
    exact hi
  · rw [hh, returned_append, hcall, hn]
    simp [returned, System.answer]
  · rw [hb]
    rfl

/-- **Every step keeps all processes and reports, or frees one process and reports it.** -/
theorem Step.keeps_or_tells (hs : a.Step e b) (h : a.Safe) :
    a.Keeps b ∨ ∃ p q v, a.Tells b p q v := by
  have hs' := hs
  cases hs with
  | tick => exact .inl (.of_same rfl rfl rfl fun _ _ => .rfl)
  | store => exact .inl (.of_same rfl rfl rfl fun _ _ => .rfl)
  | queue r c ch hc hr hch =>
    exact .inl (.of_same rfl rfl rfl (hs'.reports_of h fun n k hn =>
      not_reports_queue h hc hch hn))
  | process r c acts mem f hr ho =>
    have hmq := ho.not_mq
    cases ho with
    | preempt | asleep | exitToNext =>
      exact .inl (.of_same rfl rfl rfl (hs'.reports_of h fun n k => not_reports_silent))
    | sleep =>
      exact .inl (.of_same rfl rfl rfl (hs'.reports_of h fun n k =>
        not_reports_own h hr hmq (.inl (by simp))))
    | childless =>
      exact .inl (.of_same rfl rfl rfl (hs'.reports_of h fun n k =>
        not_reports_own h hr hmq (.inr (by decide))))
    | full _ hc =>
      exact .inl (.of_same rfl rfl rfl (hs'.reports_of h fun n k =>
        not_reports_own h hr hmq (.inl (by rcases hc with rfl | ⟨_, _, rfl⟩ <;> simp))))
    | birth _ p hc hp =>
      exact .inl ⟨fun x => .inr, fun k => departed_birth hp, hs'.reports_of h fun n k =>
        not_reports_own h hr hmq (.inl (by rcases hc with rfl | ⟨_, _, rfl⟩ <;> simp))⟩
    | reap w result v p hp hz hv =>
      have hm := Family.mem_of_cursor hp
      refine .inr ⟨p, r, v, .of_answer rfl hs' h (h.family.entry hm).1 (fun _ => .rfl) ⟨rfl, rfl⟩
        ?_ last_issue hv⟩
      have hcall : (a.issue r (.wait w result)).call r = a.channels.calls := if_pos rfl
      rw [hcall, ← returned_trail, h.books.trails.new _ (.inr le_rfl)]
      rfl
    | exitToParent v w result q hne hq hw hm hc hl =>
      refine .inr ⟨r, q, v, .of_answer rfl hs' h hr.member (fun _ => .rfl) ⟨rfl, rfl⟩ ?_ hl
        last_issue⟩
      obtain ⟨result', hx⟩ := h.asleep hw
      simpa [issue, ne_of_awake hr hw] using hx.returned

/-! ## What is kept -/

theorem Tells.departed (ht : a.Tells b p q v) (hw : a.family.Wf) :
    b.family.Departed k ↔ a.family.Departed k ∨ k = a.family.pid p := by
  unfold Family.Departed
  rw [ht.pids.1, ht.pids.2]
  constructor
  · rintro ⟨hlt, hno⟩
    by_cases hk : k = a.family.pid p
    · exact .inr hk
    · refine .inl ⟨hlt, fun x hx he => ?_⟩
      have hxp : x ≠ p := by
        rintro rfl
        exact hk he.symm
      exact hno x ((ht.freed x).2 ⟨hxp, hx⟩) he
  · rintro (⟨hlt, hno⟩ | rfl)
    · exact ⟨hlt, fun x hx => hno x ((ht.freed x).1 hx).2⟩
    · refine ⟨hw.pid_lt ht.member, fun x hx he => ?_⟩
      obtain ⟨hne, hx⟩ := (ht.freed x).1 hx
      exact hne (hw.pid_inj hx ht.member he)

/-- The `wait` that is answered has reported nothing before. -/
theorem Tells.reports (ht : a.Tells b p q v) :
    b.Reports n k ↔ a.Reports n k ∨ n = b.call q ∧ k = a.family.pid p := by
  by_cases hn : n = b.call q
  · subst hn
    have hno : ¬ a.Reports (b.call q) k := fun hr => by
      have := ht.missing.symm.trans hr.1
      cases this
    obtain ⟨w, result, ⟨pay, hi⟩, -⟩ := ht.wait
    simp only [hno, false_or, true_and]
    constructor
    · intro hr
      have := ht.answer.symm.trans hr.1
      simp only [List.cons.injEq, Int.natCast_inj, and_true] at this
      exact this.symm
    · rintro rfl
      exact ⟨ht.answer, q, w, result, pay, hi⟩
  · rw [ht.others n k hn]
    exact ⟨.inl, fun h => h.resolve_right fun h' => hn h'.1⟩

/-- **Whoever goes away has been reported once.** -/
theorem Step.reported (hs : a.Step e b) (h : a.Safe) (hr : a.Reported) : b.Reported := by
  rcases hs.keeps_or_tells h with hk | ⟨p, q, v, ht⟩
  · refine ⟨fun k => ?_, fun h1 h2 => hr.unique ((hk.reports _ _).1 h1) ((hk.reports _ _).1 h2)⟩
    simp only [hk.departed, hk.reports]
    exact hr.departed_iff k
  · -- nobody has been told the pid of a process that is there
    have hnew : ∀ {n}, ¬ a.Reports n (a.family.pid p) := fun hn =>
      ((hr.departed_iff _).2 ⟨_, hn⟩).2 p ht.member rfl
    refine ⟨fun k => ?_, fun {n n' k} h1 h2 => ?_⟩
    · rw [ht.departed h.family, hr.departed_iff]
      simp only [ht.reports]
      constructor
      · rintro (⟨n, hn⟩ | rfl)
        exacts [⟨n, .inl hn⟩, ⟨_, .inr ⟨rfl, rfl⟩⟩]
      · rintro ⟨n, hn | ⟨-, rfl⟩⟩
        exacts [.inl ⟨n, hn⟩, .inr rfl]
    · rcases ht.reports.1 h1 with hn | ⟨hn, hk⟩ <;> rcases ht.reports.1 h2 with hn' | ⟨hn', hk'⟩
      · exact hr.unique hn hn'
      · exact absurd (hk' ▸ hn) hnew
      · exact absurd (hk ▸ hn') hnew
      · exact hn.trans hn'.symm

theorem initial_reported : initial.Reported where
  departed_iff k := by
    constructor
    · rintro ⟨hlt, hno⟩
      have h0 : k = 0 := Nat.lt_one_iff.1 hlt
      exact absurd h0.symm (hno 0 rfl)
    · rintro ⟨n, hret, -⟩
      cases hret
  unique h := by
    cases h.1

end

end System

end DisastrOS
