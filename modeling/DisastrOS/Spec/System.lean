import DisastrOS.Spec.Family
import DisastrOS.Spec.Matching

/-!
# The kernel as a whole

Two systems side by side: the channels and the process family. A call on queues is one of the
channels and leaves the family alone; any other call is one of the family and leaves the channels
alone, but for the history and the value that `wait` stores. What comes of such a call, to whom it
gives an answer and which, is `System.Outcome`. `System.Step` says all this, and `System.Step.safe`
what both keep together: in particular, the calls that have not been answered are those in which a
process sleeps, and those that have no answer.
-/

namespace DisastrOS

open Lib

structure System where
  channels : Channels
  family : Family
  /-- The number of the last call of each process. -/
  call : PcbRef → Nat

/-- Process `r` has not exited and does not sleep in a `wait`. -/
structure Family.Awake (a : Family) (r : PcbRef) : Prop where
  member : a.member r
  alive : ¬ a.zombie r
  awake : a.asleep r = none

/-- The memory with the value of an `exit` where a `wait` has asked for it. -/
def reported (mem : Int → UInt8) (result v : Int) : Int → UInt8 :=
  if result = 0 then mem else memWrite mem result (intBytes v)

/-- Call number `n` is `c` of process `p`, and has not been answered. -/
def Expects (h : List Act) (n : Nat) (p : PcbRef) (c : Syscall) : Prop :=
  ∃ pay, trail n h = [.issue n p c pay]

/-- The call has an answer: `preempt`, `exit` and `shutdown` have none. -/
def Syscall.Returns : Syscall → Prop
  | .preempt | .exit _ | .shutdown => False
  | _ => True

namespace System

/-- No queues, and one process. -/
def initial : System where
  channels := { chan := fun _ => none, mem := fun _ => 0, calls := 1, history := [] }
  family :=
    { capacity := maxNumProcesses, root := 0, member := fun p => p = 0, parent := fun _ => none
      children := fun _ => [], pid := fun _ => 0, nextPid := 1, zombie := fun _ => False
      asleep := fun _ => none }
  call _ := 0

/-- Process `r` issues the call `c`. -/
def issue (a : System) (r : PcbRef) (c : Syscall) : System :=
  { a with
    channels := a.channels.issue r c
    call := fun p => if p = r then a.channels.calls else a.call p }

/-- Process `p` is to get an answer when `r` has made the call `c`, and the family is `b` then: it
has made that call and goes on, or it is woken from a `wait`. -/
def Due (a : System) (r : PcbRef) (c : Syscall) (b : Family) (p : PcbRef) : Prop :=
  b.asleep p = none ∧ (p = r ∧ c.Returns ∨ ∃ w, a.family.asleep p = some w)

/-- Exactly the process that is to get an answer gets one. -/
def Replies (a : System) (r : PcbRef) (c : Syscall) (b : Family) (acts : List Act) : Prop :=
  acts = [] ∧ (∀ p, ¬ a.Due r c b p) ∨
    ∃ p v, acts = [.retval (a.call p) v] ∧ ∀ q, a.Due r c b q ↔ q = p

/-- The last call of process `p` is `c`. -/
def Last (a : System) (p : PcbRef) (c : Syscall) : Prop :=
  ∃ pay, .issue (a.call p) p c pay ∈ a.channels.history

/-- The answer `v` to the last call of process `p`. -/
def answer (a : System) (p : PcbRef) (v : Int) : Act := .retval (a.call p) v

/-- What comes of a call that is not about queues, when process `r` has issued it: the answer, the
memory and the family. -/
inductive Outcome (a : System) (r : PcbRef) :
    Syscall → List Act → (Int → UInt8) → Family → Prop
  | preempt : Outcome a r .preempt [] a.channels.mem a.family
  /-- The answer when the time is over, or when there is no timer. -/
  | sleep (n v : Int) (hv : v = 0 ∨ v = dsosESleep) :
      Outcome a r (.sleep n) [a.answer r v] a.channels.mem a.family
  | full (c : Syscall) (hc : c = .fork ∨ ∃ f args, c = .spawn f args) (hf : a.family.Full) :
      Outcome a r c [a.answer r dsosESpawn] a.channels.mem a.family
  | birth (c : Syscall) (p : PcbRef) (hc : c = .fork ∨ ∃ f args, c = .spawn f args)
      (hp : ¬ a.family.member p) :
      Outcome a r c [a.answer r a.family.nextPid] a.channels.mem (a.family.birth r p)
  | childless (w result : Int) (hc : a.family.children r = []) :
      Outcome a r (.wait w result) [a.answer r dsosEWait] a.channels.mem a.family
  | asleep (w result : Int) (p : PcbRef) (hp : a.family.cursor r w = some p)
      (hz : ¬ a.family.zombie p) :
      Outcome a r (.wait w result) [] a.channels.mem (a.family.sleep r w)
  /-- The zombie has left its value in its last call. -/
  | reap (w result v : Int) (p : PcbRef) (hp : a.family.cursor r w = some p)
      (hz : a.family.zombie p) (hv : a.Last p (.exit v)) :
      Outcome a r (.wait w result) [a.answer r (a.family.pid p)]
        (reported a.channels.mem result v) (a.family.reap r p)
  /-- The parent sleeps in a `wait` that ends with `r`, and gets the answer. -/
  | exitToParent (v w result : Int) (q : PcbRef) (hr : r ≠ a.family.root)
      (hq : a.family.parent r = some q) (hw : a.family.asleep q = some w)
      (hm : Matches w (a.family.pid r)) (hc : r ∈ (a.family.orphan r).children q)
      (hl : a.Last q (.wait w result)) :
      Outcome a r (.exit v) [a.answer q (a.family.pid r)] (reported a.channels.mem result v)
        (((a.family.orphan r).reap q r).wake q)
  | exitToNext (v : Int) (q : PcbRef) (hr : r ≠ a.family.root) (hq : a.family.parent r = some q)
      (hn : ∀ w, a.family.asleep q = some w → ¬ Matches w (a.family.pid r)) :
      Outcome a r (.exit v) [] a.channels.mem ((a.family.orphan r).bury r)

inductive Step (a : System) : Event → System → Prop
  | tick : Step a .tick a
  | store (addr : Int) (bytes : List UInt8) : Step a (.store addr bytes)
      { a with channels := a.channels.setMem (memWrite a.channels.mem addr bytes) }
  /-- A call on queues of process `r`. -/
  | queue (r : PcbRef) (c : Syscall) (b : Channels) (hc : c.IsMq) (hr : a.family.Awake r)
      (h : a.channels.Step (.syscall c) b)
      (hi : .issue a.channels.calls r c (c.payload a.channels.mem) ∈ b.history) :
      Step a (.syscall c) { a.issue r c with channels := b }
  /-- Any other call of process `r`. -/
  | process (r : PcbRef) (c : Syscall) (acts : List Act) (mem : Int → UInt8) (b : Family)
      (hr : a.family.Awake r) (h : (a.issue r c).Outcome r c acts mem b) :
      Step a (.syscall c)
        { a.issue r c with
          channels := ((a.channels.issue r c).log acts).setMem mem
          family := b }

end System

section
variable {a b : System} {ch ch' : Channels} {f g : Family} {id : Int} {k n : Nat}
  {p q r : PcbRef} {c c' : Syscall} {acts h : List Act} {e : Event} {v w : Int} {pay : List UInt8}

/-! ## Calls that are not about queues -/

theorem Expects.pos (hx : Expects ch.history n p c) (ht : ch.Trails) : 0 < n ∧ n < ch.calls := by
  obtain ⟨pay, hx⟩ := hx
  by_contra hn
  rw [ht.new n (by omega)] at hx
  cases hx

/-- It is this call of this process. -/
theorem Expects.unique (hx : Expects h n p c) (hi : .issue n q c' pay ∈ h) : q = p ∧ c' = c := by
  obtain ⟨pay', hx⟩ := hx
  have hm : .issue n q c' pay ∈ trail n h := mem_trail.2 ⟨hi, rfl⟩
  rw [hx] at hm
  simp only [List.mem_singleton, Act.issue.injEq, true_and] at hm
  exact ⟨hm.1, hm.2.1⟩

theorem Expects.issued (hx : Expects h n p c) : ∃ pay, .issue n p c pay ∈ h := by
  obtain ⟨pay, hx⟩ := hx
  have hm : .issue n p c pay ∈ trail n h := by simp [hx]
  exact ⟨pay, (mem_trail.1 hm).1⟩

theorem returned_trail : returned n (trail n h) = returned n h := by
  unfold returned trail
  rw [List.filterMap_filter]
  refine List.filterMap_congr fun a _ => ?_
  cases a <;> simp [Act.callOf]

theorem length_returned :
    (returned n h).length = ((trail n h).filter fun a => a matches .retval ..).length := by
  induction h with
  | nil => rfl
  | cons a h ih =>
    rw [trail_cons]
    unfold returned at ih ⊢
    cases a with
    | retval k r => by_cases hk : k = n <;> simp [hk, ih]
    | _ => split <;> simp [ih]

/-- A call is answered at most once. -/
theorem Channels.Trails.returned_once (ht : ch.Trails) (n : Nat) :
    (DisastrOS.returned n ch.history).length ≤ 1 := by
  rw [length_returned]
  by_cases hn : 0 < n ∧ n < ch.calls
  · exact (ht.old n hn.1 hn.2).retval_once
  · rw [ht.new n (by omega)]
    exact Nat.zero_le _

theorem Expects.returned (hx : Expects h n p c) : returned n h = [] := by
  obtain ⟨pay, hx⟩ := hx
  rw [← returned_trail, hx]
  rfl

/-- A call that is not about queues has been answered, or nothing has happened to it. -/
theorem Channels.Trails.expects (ht : ch.Trails) (hi : .issue n p c pay ∈ ch.history)
    (hc : ¬ c.IsMq) (hr : DisastrOS.returned n ch.history = []) : Expects ch.history n p c := by
  obtain ⟨h1, h2⟩ := ht.of_mem hi rfl
  rw [← returned_trail] at hr
  unfold Expects
  generalize trail n ch.history = t at h1 h2 hr
  cases h1 with
  | pass p' c' pay' acts _ hacts =>
    rcases hacts with rfl | ⟨v, rfl⟩
    · simp only [List.mem_singleton, Act.issue.injEq, true_and] at h2
      obtain ⟨rfl, rfl, -⟩ := h2
      exact ⟨_, rfl⟩
    · simp [DisastrOS.returned] at hr
  | sending | receiving =>
    simp only [List.mem_singleton, Act.issue.injEq, true_and] at h2
    obtain ⟨-, rfl, -⟩ := h2
    exact absurd trivial hc
  | _ => simp [DisastrOS.returned] at hr

/-- A call on queues is no such call. -/
theorem Expects.ne_pending {rq : Request} (hx : Expects h n p c) (hc : ¬ c.IsMq)
    (hp : Pending h rq c') (hc' : c'.IsMq) : rq.call ≠ n := by
  rintro rfl
  obtain ⟨pay, hx⟩ := hx
  obtain ⟨pay', hp⟩ := hp
  rw [hp] at hx
  simp only [List.cons.injEq, Act.issue.injEq, and_true, true_and] at hx
  exact hc (hx.2.1 ▸ hc')

/-- Nobody who is blocked on a queue makes such a call. -/
theorem Expects.not_blocked (hx : Expects ch.history n p c) (hc : ¬ c.IsMq) (ht : ch.Trails) :
    ∀ o ∈ ch.chan id, ∀ rq ∈ o.receivers ++ o.senders, rq.call ≠ n := by
  intro o ho rq hrq
  rcases List.mem_append.1 hrq with hrq | hrq
  · exact hx.ne_pending hc (ht.receivers id o ho rq hrq).2 trivial
  · exact hx.ne_pending hc (ht.senders id o ho rq hrq).2 trivial

theorem Expects.append (hx : Expects h n p c) (hacts : trail n acts = []) :
    Expects (h ++ acts) n p c := by
  obtain ⟨pay, hx⟩ := hx
  exact ⟨pay, by rw [trail_append, hx, hacts, List.append_nil]⟩

/-- A call of the channels answers calls on queues only. -/
theorem Channels.Step.expects (hs : ch.Step e ch') (hk : ch.Kept) (ht : ch.Trails)
    (hx : Expects ch.history n p c) (hc : ¬ c.IsMq) : Expects ch'.history n p c := by
  have hlt := (hx.pos ht).2
  have hne : ch.calls ≠ n := hlt.ne'
  cases hs with
  | tick | store => exact hx
  | pass r call acts _ hacts =>
    refine (hx.append (by simp [hne])).append ?_
    rcases hacts with rfl | ⟨v, rfl⟩ <;> simp [hne]
  | refuse r call v => exact (hx.append (by simp [hne])).append (by simp [hne])
  | call r call id acts o mem hid hs =>
    refine (hx.append (by simp [hne])).append ?_
    have hp := hs.part (k := n) hlt.ne (fun o ho => ht.nodup hk ho)
      fun o ho rq hrq => (ht.senders id o ho rq hrq).1.1
    exact hp.eq_nil (hx.not_blocked hc ht)

/-- The new entry is that of the call. -/
theorem Channels.Step.issue_cases (hs : ch.Step (.syscall c) ch')
    (hi : .issue n p c' pay ∈ ch'.history) : .issue n p c' pay ∈ ch.history ∨ c' = c := by
  have key : ∀ {r acts}, issueCalls acts = [] →
      .issue n p c' pay ∈ ((ch.issue r c).log acts).history →
      .issue n p c' pay ∈ ch.history ∨ c' = c := by
    intro r acts hacts hi
    rcases List.mem_append.1 hi with hi | hi
    · rcases List.mem_append.1 hi with hi | hi
      · exact .inl hi
      · simp only [List.mem_singleton, Act.issue.injEq] at hi
        exact .inr hi.2.2.1
    · have hm : n ∈ issueCalls acts := List.mem_filterMap.2 ⟨_, hi, rfl⟩
      rw [hacts] at hm
      cases hm
  cases hs with
  | pass r _ acts _ hacts => exact key (by rcases hacts with rfl | ⟨v, rfl⟩ <;> rfl) hi
  | refuse r _ v => exact key rfl hi
  | call r _ id acts o mem _ hs => exact key hs.issueCalls_eq hi

/-- The call is in the history. -/
theorem Channels.Step.issued (hs : ch.Step (.syscall c) ch') :
    ∃ p, .issue ch.calls p c (c.payload ch.mem) ∈ ch'.history := by
  cases hs with
  | pass p _ acts | refuse p _ acts =>
    exact ⟨p, List.mem_append_left _ (List.mem_append_right _ List.mem_cons_self)⟩
  | call p =>
    exact ⟨p, List.mem_append_left _ (List.mem_append_right _ List.mem_cons_self)⟩

theorem Channels.Step.history (hs : ch.Step e ch') : ∃ acts, ch'.history = ch.history ++ acts := by
  cases hs with
  | tick | store => exact ⟨[], (List.append_nil _).symm⟩
  | pass | refuse | call => exact ⟨_, List.append_assoc _ _ _⟩

/-! ## The books -/

/-- The books of the channels and of the calls. -/
structure Channels.Books (a : Channels) : Prop where
  kept : a.Kept
  trails : a.Trails
  numbered : a.Numbered

namespace Channels.Books

theorem step (h : ch.Books) (hs : ch.Step e ch') : ch'.Books :=
  ⟨hs.kept h.kept, hs.trails h.kept h.trails, hs.numbered h.numbered⟩

theorem setMem (h : ch.Books) (mem : Int → UInt8) : (ch.setMem mem).Books := by
  have ht := h.trails
  exact ⟨h.kept, ⟨ht.first, ht.old, ht.new, ht.whole, ht.senders, ht.receivers⟩,
    ⟨h.numbered.order, h.numbered.lt⟩⟩

/-- A call that has not been answered may be. -/
theorem reply (h : ch.Books) (hx : Expects ch.history n p c) (hc : ¬ c.IsMq) (v : Int) :
    (ch.log [.retval n v]).Books := by
  have ht := h.trails
  have hpend : ∀ {rq : Request} {c'}, c'.IsMq → Pending ch.history rq c' →
      Pending (ch.history ++ [.retval n v]) rq c' := fun hc' ⟨pay, hp⟩ =>
    ⟨pay, by simp [hp, (hx.ne_pending hc ⟨pay, hp⟩ hc').symm]⟩
  have hissue : issueCalls (ch.history ++ [.retval n v]) = issueCalls ch.history := by
    simp [issueCalls]
  refine ⟨fun i => (h.kept i).frame (by simp [Act.queue]) le_rfl,
    ⟨ht.first, fun k h0 hk => ?_, fun k hk => ?_, fun id m hm => ?_, fun id o ho rq hrq => ?_,
      fun id o ho rq hrq => ?_⟩, ⟨?_, ?_⟩⟩
  · show Trail ch.chan k (trail k (ch.history ++ [.retval n v]))
    rw [trail_append]
    by_cases hkn : n = k
    · subst hkn
      obtain ⟨pay, hx⟩ := hx
      rw [hx]
      simpa using Trail.pass p c pay [.retval n v] hc (.inr ⟨v, rfl⟩)
    · simpa [hkn] using ht.old k h0 hk
  · show trail k (ch.history ++ [.retval n v]) = []
    have hkn : n ≠ k := by
      have := hx.pos ht
      change k = 0 ∨ ch.calls ≤ k at hk
      omega
    simpa [hkn] using ht.new k hk
  · exact ht.whole id m (by simpa [log, enqueues] using hm)
  · obtain ⟨h1, h2⟩ := ht.senders id o ho rq hrq
    exact ⟨h1, hpend trivial h2⟩
  · obtain ⟨h1, h2⟩ := ht.receivers id o ho rq hrq
    exact ⟨h1, hpend trivial h2⟩
  · rw [log, hissue]
    exact h.numbered.order
  · rw [log, hissue]
    exact h.numbered.lt

/-- Whether a call that is not about queues has been answered is not changed by the others. -/
theorem returned_iff (h : ch.Books) (hs : ch.Step e ch') (hi : .issue n p c pay ∈ ch.history)
    (hc : ¬ c.IsMq) : returned n ch'.history = [] ↔ returned n ch.history = [] := by
  constructor
  · obtain ⟨acts, hh⟩ := hs.history
    rw [hh, returned_append]
    exact fun hr => (List.append_eq_nil_iff.1 hr).1
  · exact fun hr => (hs.expects h.kept h.trails (h.trails.expects hi hc hr) hc).returned

end Channels.Books

/-! ## What is kept -/

/-- Only the caller of `wait` falls asleep. -/
theorem Family.Step.asleep_of (hs : f.Step r c g) (hp : g.asleep p = some w) :
    f.asleep p = some w ∨ p = r ∧ ∃ result, c = .wait w result := by
  cases hs with
  | same | birth | reap | exitToNext => exact .inl hp
  | sleep w' result =>
    by_cases hpr : p = r
    · have : w' = w := by simpa [Family.sleep, hpr] using hp
      exact .inr ⟨hpr, result, by rw [this]⟩
    · exact .inl (by simpa [Family.sleep, hpr] using hp)
  | exitToParent v q w' =>
    have : p ≠ q ∧ f.asleep p = some w := by
      simpa [Family.wake, Family.reap, Family.orphan] using hp
    exact .inl this.2

namespace System

/-- Process `p` sleeps in a `wait`. -/
def Asleep (a : System) (p : PcbRef) : Prop := ∃ w, a.family.asleep p = some w

/-- The books are in order and so is the family. Whoever sleeps in a `wait` has not got an answer;
of the other calls that are not about queues, those that have answers have got them. -/
structure Safe (a : System) : Prop where
  books : a.channels.Books
  family : a.family.Wf
  asleep : ∀ {p w}, a.family.asleep p = some w →
    ∃ result, Expects a.channels.history (a.call p) p (.wait w result)
  answered : ∀ {n p c pay}, .issue n p c pay ∈ a.channels.history → ¬ c.IsMq →
    (returned n a.channels.history = [] ↔ ¬ c.Returns ∨ a.call p = n ∧ a.Asleep p)

/-- The same, when process `r` has issued the call `c` and has not got an answer. -/
structure Issued (a : System) (r : PcbRef) (c : Syscall) : Prop where
  books : a.channels.Books
  own : Expects a.channels.history (a.call r) r c
  asleep : ∀ {p w}, a.family.asleep p = some w →
    ∃ result, Expects a.channels.history (a.call p) p (.wait w result)
  answered : ∀ {n p c pay}, .issue n p c pay ∈ a.channels.history → ¬ c.IsMq →
    (returned n a.channels.history = [] ↔ ¬ c.Returns ∨ a.call p = n ∧ (p = r ∨ a.Asleep p))

theorem ne_of_awake (hr : a.family.Awake r) (hp : a.family.asleep p = some w) : p ≠ r := by
  rintro rfl
  exact absurd (hr.awake.symm.trans hp) nofun

theorem Safe.issued (h : a.Safe) (hc : ¬ c.IsMq) (hr : a.family.Awake r) :
    (a.issue r c).Issued r c := by
  have hs : a.channels.Step (.syscall c) (a.issue r c).channels := by
    simpa [System.issue] using Channels.Step.pass r c [] hc (.inl rfl)
  have hown : Expects (a.issue r c).channels.history ((a.issue r c).call r) r c :=
    ⟨c.payload a.channels.mem, by
      simp [System.issue, Channels.issue, h.books.trails.new _ (.inr le_rfl)]⟩
  refine ⟨h.books.step hs, hown, fun {p w} hp => ?_, fun {n p c' pay} hi hc' => ?_⟩
  · obtain ⟨result, hx⟩ := h.asleep hp
    refine ⟨result, ?_⟩
    simpa [System.issue, ne_of_awake hr hp] using
      hs.expects h.books.kept h.books.trails hx id
  · rcases List.mem_append.1 hi with hold | hnew
    · rw [h.books.returned_iff hs hold hc', h.answered hold hc']
      have hn : n < a.channels.calls := h.books.numbered.lt n (List.mem_filterMap.2 ⟨_, hold, rfl⟩)
      by_cases hp : p = r
      · subst hp
        simp [System.issue, Asleep, hr.awake, hn.ne']
      · simp [System.issue, Asleep, hp]
    · simp only [List.mem_singleton, Act.issue.injEq] at hnew
      obtain ⟨rfl, rfl, rfl, -⟩ := hnew
      have hret := hown.returned
      simp only [System.issue, if_true] at hret
      simp [System.issue, hret]

theorem Outcome.not_mq {mem : Int → UInt8} (h : a.Outcome r c acts mem f) : ¬ c.IsMq := by
  cases h with
  | full _ hc | birth _ _ hc => rcases hc with rfl | ⟨_, _, rfl⟩ <;> exact id
  | _ => exact id

/-- The family takes a step. -/
theorem Outcome.step {mem : Int → UInt8} (h : a.Outcome r c acts mem f) (hw : a.family.Wf) :
    a.family.Step r c f := by
  cases h with
  | preempt | sleep => exact .same _ trivial
  | full _ hc hf => rcases hc with rfl | ⟨_, _, rfl⟩ <;> exact .same _ hf
  | birth _ p hc hp => exact .birth c p hc hp
  | childless w result hc => exact .same _ hc
  | asleep w result p hp hz =>
    exact .sleep w result fun x hx hzx _ => hw.cursor_alive hp hz hx hzx
  | reap w result v p hp hz => exact .reap w result p (Family.mem_of_cursor hp) hz
  | exitToParent v w result q hr hq hw' hm hc => exact .exitToParent v q w hr hq hw' hm hc
  | exitToNext v q hr hq hn => exact .exitToNext v q hr hq hn

/-- The answer is for the one process that is to get it. -/
theorem Outcome.replies {mem : Int → UInt8} (h : a.Outcome r c acts mem f)
    (hr : a.family.asleep r = none) : a.Replies r c f acts := by
  -- nobody but the caller is to get an answer when nobody is woken
  have own : ∀ {c g} {v : Int}, c.Returns → g.asleep = a.family.asleep →
      a.Replies r c g [a.answer r v] := by
    intro c g v hret hg
    refine .inr ⟨r, v, rfl, fun q => ⟨?_, ?_⟩⟩
    · rintro ⟨hq, ⟨rfl, -⟩ | ⟨w, hw⟩⟩
      · rfl
      · rw [hg, hw] at hq
        cases hq
    · rintro rfl
      exact ⟨hg ▸ hr, .inl ⟨rfl, hret⟩⟩
  have silent : ∀ {c g}, ¬ c.Returns ∨ g.asleep r ≠ none →
      (∀ p, g.asleep p = none → a.family.asleep p = none) → a.Replies r c g [] := by
    intro c g hc hg
    refine .inl ⟨rfl, ?_⟩
    rintro p ⟨hp, ⟨rfl, hret⟩ | ⟨w, hw⟩⟩
    · exact hc.elim (absurd hret) (absurd hp)
    · exact absurd ((hg p hp).symm.trans hw) nofun
  cases h with
  | preempt => exact silent (.inl id) fun _ => id
  | sleep | childless => exact own trivial rfl
  | full _ hc | birth _ _ hc => rcases hc with rfl | ⟨_, _, rfl⟩ <;> exact own trivial rfl
  | reap => exact own trivial rfl
  | asleep w =>
    refine silent (.inr (by simp [Family.sleep])) fun p hp => ?_
    by_cases hpr : p = r
    · exact hpr ▸ hr
    · simpa [Family.sleep, hpr] using hp
  | exitToParent v w result q _ _ hw =>
    refine .inr ⟨q, _, rfl, fun p => ⟨?_, ?_⟩⟩
    · rintro ⟨hp, ⟨-, hret⟩ | ⟨w', hw'⟩⟩
      · exact hret.elim
      · by_contra hpq
        have : a.family.asleep p = none := by
          simpa [Family.wake, Family.reap, Family.orphan, hpq] using hp
        rw [hw'] at this
        cases this
    · rintro rfl
      exact ⟨by simp [Family.wake], .inr ⟨w, hw⟩⟩
  | exitToNext => exact silent (.inl id) fun _ => id

/-- Whoever is to get an answer waits for it. -/
theorem Issued.due (h : a.Issued r c) (hc : ¬ c.IsMq) (hp : a.Due r c f p) :
    ∃ c', c'.Returns ∧ ¬ c'.IsMq ∧ Expects a.channels.history (a.call p) p c' := by
  rcases hp.2 with ⟨rfl, hret⟩ | ⟨w, hw⟩
  · exact ⟨c, hret, hc, h.own⟩
  · obtain ⟨result, hx⟩ := h.asleep hw
    exact ⟨.wait w result, trivial, id, hx⟩

theorem Replies.returned (h : a.Replies r c f acts) :
    DisastrOS.returned n acts = [] ↔ ∀ p, a.Due r c f p → a.call p ≠ n := by
  rcases h with ⟨rfl, hno⟩ | ⟨p, v, rfl, hdue⟩
  · exact ⟨fun _ p hp => absurd hp (hno p), fun _ => rfl⟩
  · simp only [hdue, forall_eq]
    by_cases hp : a.call p = n <;> simp [DisastrOS.returned, hp]

/-- When the answers have been given, everybody sleeps or waits for nothing. -/
theorem Issued.answer (h : a.Issued r c) (hc : ¬ c.IsMq) (hacts : a.Replies r c f acts)
    (hs : a.family.Step r c f) (hwf : f.Wf) (mem : Int → UInt8) :
    Safe { a with channels := (a.channels.log acts).setMem mem, family := f } := by
  have hbooks : (a.channels.log acts).Books := by
    rcases hacts with ⟨rfl, -⟩ | ⟨q, v, rfl, hdue⟩
    · simpa using h.books
    · obtain ⟨c', -, hc', hx⟩ := h.due hc ((hdue q).2 rfl)
      exact h.books.reply hx hc' v
  -- whoever sleeps now has slept before, or makes this call
  have hwait : ∀ {p w}, f.asleep p = some w →
      ∃ result, Expects a.channels.history (a.call p) p (.wait w result) := by
    intro p w hp
    rcases hs.asleep_of hp with hp | ⟨rfl, result, rfl⟩
    · exact h.asleep hp
    · exact ⟨result, h.own⟩
  -- and is not the one that gets the answer
  have hkeep : ∀ {p q w}, f.asleep p = some w → a.Due r c f q → a.call q ≠ a.call p := by
    intro p q w hp hq he
    obtain ⟨result, hx⟩ := hwait hp
    obtain ⟨c', -, -, hx'⟩ := h.due hc hq
    obtain ⟨pay, hi⟩ := hx'.issued
    obtain ⟨rfl, -⟩ := hx.unique (he ▸ hi)
    exact absurd (hq.1.symm.trans hp) nofun
  refine ⟨hbooks.setMem mem, hwf, fun {p w} hp => ?_, fun {n p c' pay} hi hc' => ?_⟩
  · obtain ⟨result, hx⟩ := hwait hp
    refine ⟨result, hx.append ?_⟩
    rcases hacts with ⟨rfl, -⟩ | ⟨q, v, rfl, hdue⟩
    · rfl
    · simp [hkeep hp ((hdue q).2 rfl)]
  · have hold : .issue n p c' pay ∈ a.channels.history := by
      refine (List.mem_append.1 hi).resolve_right fun hm => ?_
      rcases hacts with ⟨rfl, -⟩ | ⟨q, v, rfl, -⟩ <;> simp at hm
    show returned n (a.channels.history ++ acts) = [] ↔ _
    rw [returned_append, List.append_eq_nil_iff, h.answered hold hc', hacts.returned]
    constructor
    · rintro ⟨hno | ⟨rfl, hp⟩, hdue⟩
      · exact .inl hno
      · by_cases ha : f.asleep p = none
        · rcases hp with rfl | hp
          · refine .inl fun hret => hdue p ⟨ha, .inl ⟨rfl, ?_⟩⟩ rfl
            rwa [← (h.own.unique hold).2]
          · exact absurd rfl (hdue p ⟨ha, .inr hp⟩)
        · exact .inr ⟨rfl, Option.ne_none_iff_exists'.1 ha⟩
    · rintro (hno | ⟨rfl, w, hp⟩)
      · refine ⟨.inl hno, fun q hq he => hno ?_⟩
        subst he
        obtain ⟨c'', hret, -, hx⟩ := h.due hc hq
        rwa [(hx.unique hold).2]
      · refine ⟨.inr ⟨rfl, ?_⟩, fun q hq => hkeep hp hq⟩
        exact (hs.asleep_of hp).symm.imp And.left fun hp => ⟨w, hp⟩

/-- **Every step keeps both parts in order.** -/
theorem Step.safe (hs : a.Step e b) (h : a.Safe) : b.Safe := by
  cases hs with
  | tick => exact h
  | store addr bytes => exact ⟨h.books.setMem _, h.family, h.asleep, h.answered⟩
  | queue r c b hc hr hs =>
    refine ⟨h.books.step hs, h.family, fun {p w} hp => ?_, fun {n p c' pay} hi hc' => ?_⟩
    · obtain ⟨result, hx⟩ := h.asleep hp
      refine ⟨result, ?_⟩
      simpa [System.issue, ne_of_awake hr hp] using
        hs.expects h.books.kept h.books.trails hx id
    · have hold := (hs.issue_cases hi).resolve_right fun he => hc' (he ▸ hc)
      rw [h.books.returned_iff hs hold hc', h.answered hold hc']
      have hn : n < a.channels.calls := h.books.numbered.lt n (List.mem_filterMap.2 ⟨_, hold, rfl⟩)
      by_cases hp : p = r
      · subst hp
        simp [System.issue, Asleep, hr.awake]
      · simp [System.issue, Asleep, hp]
  | process r c acts mem b hr ho =>
    have hst := ho.step h.family
    exact (h.issued ho.not_mq hr).answer ho.not_mq (ho.replies hr.awake) hst
      (hst.wf h.family hr.member hr.alive) mem

/-! ## The bytes -/

/-- The entries that a call which is not about queues adds to the history. -/
theorem Replies.entries (h : a.Replies r c f acts) :
    acts = [] ∨ ∃ n v, acts = [.retval n v] :=
  h.imp And.left fun ⟨_, v, he, _⟩ => ⟨_, v, he⟩

theorem Step.history (hs : a.Step e b) :
    ∃ acts, b.channels.history = a.channels.history ++ acts := by
  cases hs with
  | tick | store => exact ⟨[], (List.append_nil _).symm⟩
  | queue _ _ _ _ _ hs => exact hs.history
  | process => exact ⟨_, List.append_assoc _ _ _⟩

/-- The call is in the history. -/
theorem Step.issued (hs : a.Step (.syscall c) b) :
    ∃ p, .issue a.channels.calls p c (c.payload a.channels.mem) ∈ b.channels.history := by
  cases hs with
  | queue r _ _ _ _ _ hi => exact ⟨r, hi⟩
  | process r =>
    exact ⟨r, List.mem_append_left _ (List.mem_append_right _ List.mem_cons_self)⟩

theorem Step.copies (hs : a.Step e b) (h : a.Safe) :
    ∃ acts, b.channels.history = a.channels.history ++ acts ∧
      Copies a.channels.calls b.channels.mem b.channels.history acts := by
  cases hs with
  | tick => exact ⟨[], (List.append_nil _).symm, nofun, nofun⟩
  | store => exact ⟨[], (List.append_nil _).symm, nofun, nofun⟩
  | queue r c b hc hr hs => exact hs.copies h.books.trails
  | process r c acts mem b hr ho =>
    refine ⟨_, List.append_assoc _ _ _, ?_⟩
    rcases (ho.replies hr.awake).entries with rfl | ⟨n, v, rfl⟩ <;> exact ⟨by simp, by simp⟩

theorem Step.carried (hs : a.Step e b) (hc : a.channels.Carried)
    (hst : a.channels.Steady b.channels) : b.channels.Carried := by
  cases hs with
  | tick => exact hc
  | store addr bytes => exact (Channels.Step.store addr bytes).carried hc hst
  | queue r c b _ hr hs => exact hs.carried hc hst
  | process r c acts mem b hr ho =>
    refine ⟨fun id ch hch rq hrq => ?_, fun id m hm => ?_⟩
    · rw [hst id ch hch rq hrq]
      exact List.mem_append_left _ (List.mem_append_left _ (hc.blocked id ch hch rq hrq))
    · have hm' : .enqueue id m ∈ a.channels.history := by
        rcases (ho.replies hr.awake).entries with rfl | ⟨n, v, rfl⟩ <;>
          simpa [Channels.setMem, Channels.log, Channels.issue] using hm
      obtain ⟨p, buffer, size, hi⟩ := hc.sent id m hm'
      exact ⟨p, buffer, size, List.mem_append_left _ (List.mem_append_left _ hi)⟩

end System

end

end DisastrOS
