import DisastrOS.Spec.Trails

/-!
# The bytes that messages carry

A message carries the bytes that its sender's buffer holds when it is inserted, and a delivered
message is in the receiver's buffer after the step (`Channels.Step.copies`). While nobody writes into
the buffers of blocked senders (`Channels.Steady`), these are the bytes of the call
(`Channels.Step.carried`).
-/

namespace DisastrOS

open Lib

/-- The calls in the history are numbered in the order of their issue. -/
structure Channels.Numbered (a : Channels) : Prop where
  order : (issueCalls a.history).Pairwise (· < ·)
  lt : ∀ n ∈ issueCalls a.history, n < a.calls

/-- The step leaves the buffers of the blocked senders as they are. -/
def Channels.Steady (a a' : Channels) : Prop :=
  ∀ id, ∀ ch ∈ a.chan id, ∀ r ∈ ch.senders,
    memRead a'.mem r.buffer r.size.toNat = memRead a.mem r.buffer r.size.toNat

/-- Every message carries the payload of its call, and the buffers of blocked senders still hold
theirs. -/
structure Channels.Carried (a : Channels) : Prop where
  blocked : ∀ id, ∀ ch ∈ a.chan id, ∀ r ∈ ch.senders,
    .issue r.call r.pcb (.mqSend id r.buffer r.size) (memRead a.mem r.buffer r.size.toNat) ∈
      a.history
  sent : ∀ id m, .enqueue id m ∈ a.history →
    ∃ p buffer size, .issue m.call p (.mqSend id buffer size) m.data ∈ a.history

/-- What is copied in a step that adds `acts` to the history: a message of this very call, number
`n`, has its payload, one of a blocked call what its buffer holds after the step; and what is
delivered is in the receiver's buffer after the step. `h` and `mem` are the history and the memory
after the step. -/
structure Copies (n : Nat) (mem : Int → UInt8) (h acts : List Act) : Prop where
  sent : ∀ id m, .enqueue id m ∈ acts →
    ∃ p buffer pay, .issue m.call p (.mqSend id buffer m.size) pay ∈ h ∧
      (m.call = n ∧ m.data = pay ∨ m.data = memRead mem buffer m.size.toNat)
  delivered : ∀ k addr bytes, .deliver k addr bytes ∈ acts →
    memRead mem addr bytes.length = bytes ∧ ∃ id m, .dequeue id m k ∈ acts ∧ m.data = bytes

section
variable {n : Nat} {p : PcbRef} {id : Int} {mem mem' : Int → UInt8} {c : Syscall}
  {o o' : Option Chan} {acts : List Act}

/-! ## One call on one queue -/

theorem issueCalls_receipt {r : Request} {m : Message} : issueCalls (r.receipt m) = [] := by
  unfold Request.receipt
  split <;> rfl

/-- No call is issued inside a call. -/
theorem ChanStep.issueCalls_eq (hs : ChanStep n p id mem c o acts o' mem') :
    issueCalls acts = [] := by
  cases hs with
  | destroy => simp [issueCalls]
  | handOff ch buffer size b m r =>
    have := issueCalls_receipt (r := r) (m := m)
    simp_all [issueCalls]
  | _ => rfl

/-- Whoever is blocked after a call was blocked before, or is its caller, and then nothing has been
copied. -/
theorem ChanStep.senders_cases (hs : ChanStep n p id mem c o acts o' mem') {ch' : Chan}
    (hch : ch' ∈ o') {r : Request} (hr : r ∈ ch'.senders) :
    (∃ ch ∈ o, r ∈ ch.senders) ∨ ∃ buffer size, c = .mqSend id buffer size ∧
      r = ⟨n, p, buffer, size⟩ ∧ mem' = mem := by
  cases hs <;> cases hch
  case create => cases hr
  case blockSend ch buffer size _ _ =>
    rcases List.mem_append.1 hr with hr | hr
    · exact .inl ⟨_, rfl, hr⟩
    · exact .inr ⟨buffer, size, rfl, List.mem_singleton.1 hr, rfl⟩
  case complete ch _ _ _ _ _ _ _ _ _ _ _ hs _ =>
    exact .inl ⟨_, rfl, hs ▸ List.mem_cons_of_mem _ hr⟩
  all_goals exact .inl ⟨_, rfl, hr⟩

/-- What enters a queue comes from the caller or from a blocked sender. -/
theorem ChanStep.enqueue_cases (hs : ChanStep n p id mem c o acts o' mem') {i : Int} {m : Message}
    (hm : .enqueue i m ∈ acts) : i = id ∧
      ((∃ buffer, c = .mqSend id buffer m.size ∧ m.call = n ∧
          m.data = memRead mem buffer m.size.toNat) ∨
        ∃ ch ∈ o, ∃ r ∈ ch.senders, m.call = r.call ∧ m.size = r.size ∧
          m.data = memRead mem' r.buffer r.size.toNat) := by
  cases hs with
  | destroy => simp at hm
  | send ch buffer size b m' _ _ _ hm' =>
    simp only [List.mem_cons, Act.enqueue.injEq, reduceCtorEq, List.not_mem_nil, or_false] at hm
    obtain ⟨rfl, rfl⟩ := hm
    subst hm'
    exact ⟨rfl, .inl ⟨buffer, rfl, rfl, rfl⟩⟩
  | handOff ch buffer size b m' r rs _ _ _ _ hm' =>
    have hr : .enqueue i m ∉ r.receipt m' := by
      unfold Request.receipt
      split <;> simp
    simp only [List.mem_cons, List.mem_append, Act.enqueue.injEq, reduceCtorEq, hr,
      List.not_mem_nil, or_false] at hm
    obtain ⟨rfl, rfl⟩ := hm
    subst hm'
    exact ⟨rfl, .inl ⟨buffer, rfl, rfl, rfl⟩⟩
  | complete ch buffer size m₀ m' ms b r rs _ _ _ hs hm' =>
    simp only [List.mem_cons, Act.enqueue.injEq, reduceCtorEq, List.not_mem_nil, or_false,
      false_or] at hm
    obtain ⟨rfl, rfl⟩ := hm
    subst hm'
    exact ⟨rfl, .inr ⟨ch, rfl, r, by simp [hs], rfl, rfl, rfl⟩⟩
  | _ => simp at hm

/-- What is delivered has left the queue and is in the buffer afterwards. -/
theorem ChanStep.deliver_cases (hs : ChanStep n p id mem c o acts o' mem') {k : Nat} {addr : Int}
    {bytes : List UInt8} (hm : .deliver k addr bytes ∈ acts) :
    memRead mem' addr bytes.length = bytes ∧ ∃ m, .dequeue id m k ∈ acts ∧ m.data = bytes := by
  cases hs with
  | destroy => simp at hm
  | handOff ch buffer size b m r rs =>
    simp only [List.mem_cons, List.mem_append, reduceCtorEq, List.not_mem_nil, or_false,
      false_or] at hm
    unfold Request.receipt at hm
    split at hm
    · simp at hm
    · rename_i hfit
      simp only [List.mem_cons, Act.deliver.injEq, reduceCtorEq, List.not_mem_nil, or_false] at hm
      obtain ⟨rfl, rfl, rfl⟩ := hm
      rw [Request.memAfter, if_neg hfit]
      exact ⟨memRead_memWrite, m, by simp, rfl⟩
  | receive ch buffer size m =>
    simp only [List.mem_cons, Act.deliver.injEq, reduceCtorEq, List.not_mem_nil, or_false,
      false_or] at hm
    obtain ⟨rfl, rfl, rfl⟩ := hm
    exact ⟨memRead_memWrite, m, by simp, rfl⟩
  | complete ch buffer size m =>
    simp only [List.mem_cons, Act.deliver.injEq, reduceCtorEq, List.not_mem_nil, or_false,
      false_or] at hm
    obtain ⟨rfl, rfl, rfl⟩ := hm
    exact ⟨memRead_memWrite, m, by simp, rfl⟩
  | _ => simp at hm

end

/-! ## Steps of the machine -/

namespace Channels

variable {a a' : Channels} {e : Event}

theorem Step.numbered (h : a.Step e a') (hn : a.Numbered) : a'.Numbered := by
  have key : ∀ {p : PcbRef} {c : Syscall} {acts : List Act}, issueCalls acts = [] →
      a'.history = a.history ++ [Act.issue a.calls p c (c.payload a.mem)] ++ acts →
      a'.calls = a.calls + 1 → a'.Numbered := by
    intro p c acts hacts hh hc
    have hi : issueCalls a'.history = issueCalls a.history ++ [a.calls] := by
      rw [hh, issueCalls_append, issueCalls_append, hacts, List.append_nil]
      rfl
    refine ⟨?_, fun n hm => ?_⟩
    · rw [hi]
      exact List.pairwise_append.2 ⟨hn.order, List.pairwise_singleton _ _, fun n hm k hk =>
        List.mem_singleton.1 hk ▸ hn.lt n hm⟩
    · rw [hi, List.mem_append, List.mem_singleton] at hm
      rw [hc]
      rcases hm with hm | rfl
      · exact Nat.lt_succ_of_lt (hn.lt n hm)
      · exact Nat.lt_succ_self _
  cases h with
  | tick => exact hn
  | store => exact ⟨hn.order, hn.lt⟩
  | pass p c acts hc hacts =>
    exact key (by rcases hacts with rfl | ⟨r, rfl⟩ <;> rfl) rfl rfl
  | refuse p c r =>
    have hacts : issueCalls [.retval a.calls r] = [] := rfl
    exact key hacts rfl rfl
  | call p c id acts o mem hid hs => exact key hs.issueCalls_eq rfl rfl

theorem Step.copies (h : a.Step e a') (ht : a.Trails) :
    ∃ acts, a'.history = a.history ++ acts ∧ Copies a.calls a'.mem a'.history acts := by
  cases h with
  | tick => exact ⟨[], by simp, by simp, by simp⟩
  | store => exact ⟨[], by simp [setMem], by simp, by simp⟩
  | pass p c acts hc hacts =>
    refine ⟨.issue a.calls p c (c.payload a.mem) :: acts, by simp [issue, log], ?_⟩
    rcases hacts with rfl | ⟨r, rfl⟩ <;> exact ⟨by simp, by simp⟩
  | refuse p c r =>
    exact ⟨[.issue a.calls p c (c.payload a.mem), .retval a.calls r], by simp [issue, log],
      by simp, by simp⟩
  | call p c id acts o mem hid hs =>
    refine ⟨.issue a.calls p c (c.payload a.mem) :: acts, by simp [issue, log, setChan, setMem],
      fun i m hm => ?_, fun n addr bytes hm => ?_⟩
    · rw [List.mem_cons, or_iff_right (by simp)] at hm
      obtain ⟨rfl, ⟨buffer, rfl, hc, hd⟩ | ⟨ch, hch, r, hr, hc, hsize, hd⟩⟩ := hs.enqueue_cases hm
      · exact ⟨p, buffer, _, by simp [issue, log, setChan, setMem, hc, Syscall.payload],
          .inl ⟨hc, hd⟩⟩
      · obtain ⟨-, pay, hp⟩ := ht.senders i ch hch r hr
        have hmem := (mem_trail.1 (hp ▸ List.mem_singleton_self _)).1
        refine ⟨r.pcb, r.buffer, pay, ?_, .inr (by rw [hsize]; exact hd)⟩
        rw [hc, hsize]
        simp [issue, log, setChan, setMem, hmem]
    · rw [List.mem_cons, or_iff_right (by simp)] at hm
      obtain ⟨h1, m, h2, h3⟩ := hs.deliver_cases hm
      exact ⟨h1, id, m, List.mem_cons_of_mem _ h2, h3⟩

theorem Step.carried (h : a.Step e a') (hc : a.Carried) (hst : a.Steady a') : a'.Carried := by
  -- a step that neither blocks a sender nor inserts a message
  have simple : a'.chan = a.chan → (∃ acts, a'.history = a.history ++ acts ∧
      ∀ id m, .enqueue id m ∉ acts) → a'.Carried := by
    rintro hch ⟨acts, hh, hacts⟩
    refine ⟨fun id ch hm r hr => ?_, fun id m hm => ?_⟩
    · rw [hch] at hm
      rw [hst id ch hm r hr, hh]
      exact List.mem_append_left _ (hc.blocked id ch hm r hr)
    · rw [hh, List.mem_append, or_iff_left (hacts id m)] at hm
      obtain ⟨p, buffer, size, hi⟩ := hc.sent id m hm
      exact ⟨p, buffer, size, hh ▸ List.mem_append_left _ hi⟩
  cases h with
  | tick => exact hc
  | store => exact simple rfl ⟨[], by simp [setMem], by simp⟩
  | pass p c acts hc hacts =>
    refine simple rfl ⟨_, List.append_assoc _ _ _, ?_⟩
    rcases hacts with rfl | ⟨r, rfl⟩ <;> simp
  | refuse p c r => exact simple rfl ⟨_, List.append_assoc _ _ _, by simp⟩
  | call p c id acts o mem hid hs =>
    have hold : ∀ {x}, x ∈ a.history →
        x ∈ a.history ++ [Act.issue a.calls p c (c.payload a.mem)] ++ acts :=
      fun hx => List.mem_append_left _ (List.mem_append_left _ hx)
    have hnew : Act.issue a.calls p c (c.payload a.mem) ∈ a.history ++
        [Act.issue a.calls p c (c.payload a.mem)] ++ acts := by simp
    refine ⟨fun i ch hm r hr => ?_, fun i m hm => ?_⟩
    · by_cases hi : i = id
      · subst hi
        have hm' : ch ∈ o := by simpa [setMem, setChan] using hm
        rcases hs.senders_cases hm' hr with ⟨ch', hch', hr'⟩ | ⟨buffer, size, rfl, rfl, hmem⟩
        · rw [hst i ch' hch' r hr']
          exact hold (hc.blocked i ch' hch' r hr')
        · change _ ∈ a.history ++ [_] ++ acts
          change Act.issue _ _ _ (memRead mem buffer size.toNat) ∈ _
          rw [hmem]
          exact hnew
      · have hm' : ch ∈ a.chan i := by simpa [setMem, setChan, issue, log, hi] using hm
        rw [hst i ch hm' r hr]
        exact hold (hc.blocked i ch hm' r hr)
    · change _ ∈ a.history ++ [_] ++ acts at hm
      rcases List.mem_append.1 hm with hm | hm
      · rw [List.mem_append, or_iff_left (by simp)] at hm
        obtain ⟨p', buffer, size, hi⟩ := hc.sent i m hm
        exact ⟨p', buffer, size, hold hi⟩
      · obtain ⟨rfl, ⟨buffer, rfl, hcall, hd⟩ | ⟨ch, hch, r, hr, hcall, hsize, hd⟩⟩ :=
          hs.enqueue_cases hm
        · refine ⟨p, buffer, m.size, ?_⟩
          rw [hcall, hd]
          exact hnew
        · refine ⟨r.pcb, r.buffer, r.size, ?_⟩
          rw [hcall, hd]
          exact hold ((hst i ch hch r hr : memRead mem _ _ = _) ▸ hc.blocked i ch hch r hr)

end Channels

end DisastrOS
