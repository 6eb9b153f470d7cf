import DisastrOS.Spec.Payload

/-!
# Sends matched with receives

The calls on one queue since some moment at which it was empty and nobody was blocked on it, as two
sequences: `postings`, with their bytes, and `requests`, with the sizes of their buffers. As long as
no send finds the queue full and no receive is refused, the `i`-th receive ends with the `i`-th
message, whichever comes first (`Matched`, kept by `Channels.Step.matched`).
-/

namespace DisastrOS

open Lib

/-- A send call and its bytes. -/
structure Posting where
  call : Nat
  pcb : PcbRef
  bytes : List UInt8

/-- The sends on queue `id` with a size that `mq_send` accepts. -/
def postings (id : Int) (h : List Act) : List Posting := h.filterMap fun
  | .issue n p (.mqSend i _ size) pay =>
    if i = id ∧ 0 < size ∧ size ≤ messageMaxSize then some ⟨n, p, pay⟩ else none
  | _ => none

/-- The receives on queue `id` into buffers that `mq_receive` accepts. -/
def requests (id : Int) (h : List Act) : List Request := h.filterMap fun
  | .issue n p (.mqReceive i buffer size) _ =>
    if i = id ∧ 0 < size then some ⟨n, p, buffer, size⟩ else none
  | _ => none

/-- The values that call `n` has returned. -/
def returned (n : Nat) (h : List Act) : List Int := h.filterMap fun
  | .retval k r => if k = n then some r else none
  | _ => none

/-- The bytes that have been copied into the buffer of call `n`. -/
def copied (n : Nat) (h : List Act) : List (List UInt8) := h.filterMap fun
  | .deliver k _ bytes => if k = n then some bytes else none
  | _ => none

/-- What the process of call `n` sees of it. -/
def results (n : Nat) (h : List Act) : List Int × List (List UInt8) := (returned n h, copied n h)

/-- What a receive with a buffer of this size sees that gets this message. -/
def outcome (size : Int) (bytes : List UInt8) : List Int × List (List UInt8) :=
  if size < bytes.length then ([dsosEBuffer], []) else ([(bytes.length : Int)], [bytes])

/-- A message but for its block and its call. -/
def Message.body (m : Message) : PcbRef × Int × List UInt8 := (m.sender, m.size, m.data)
def Posting.body (x : Posting) : PcbRef × Int × List UInt8 := (x.pcb, x.bytes.length, x.bytes)

/-- The calls on queue `id` in the part `h` of the history `hist` are matched in order. -/
structure Matched (id : Int) (ch : Chan) (hist h : List Act) : Prop where
  contents : ch.contents.map Message.body =
    ((postings id h).drop (requests id h).length).map Posting.body
  receivers : ch.receivers = (requests id h).drop (postings id h).length
  senders : ch.senders = []
  sent : ∀ x ∈ postings id h, returned x.call hist = [0]
  received : ∀ x ∈ (postings id h).zip (requests id h),
    results x.2.call hist = outcome x.2.size x.1.bytes

section
variable {n k : Nat} {id i : Int} {p : PcbRef} {c : Syscall} {pay : List UInt8} {r : Request}
  {m : Message} {h h' hist acts t t' : List Act} {ch : Chan} {buffer size ret : Int}
  {chan : Int → Option Chan}

/-! ## Reading the history -/

@[simp] theorem postings_append : postings id (h ++ h') = postings id h ++ postings id h' :=
  List.filterMap_append

@[simp] theorem requests_append : requests id (h ++ h') = requests id h ++ requests id h' :=
  List.filterMap_append

@[simp] theorem returned_append : returned n (h ++ h') = returned n h ++ returned n h' :=
  List.filterMap_append

@[simp] theorem copied_append : copied n (h ++ h') = copied n h ++ copied n h' :=
  List.filterMap_append

theorem postings_of_issueCalls (hi : issueCalls acts = []) : postings id acts = [] := by
  refine List.filterMap_eq_nil_iff.2 fun a ha => ?_
  have := List.filterMap_eq_nil_iff.1 hi a ha
  cases a <;> simp_all

theorem requests_of_issueCalls (hi : issueCalls acts = []) : requests id acts = [] := by
  refine List.filterMap_eq_nil_iff.2 fun a ha => ?_
  have := List.filterMap_eq_nil_iff.1 hi a ha
  cases a <;> simp_all

theorem results_eq_nil (ht : trail n h = []) : results n h = ([], []) := by
  have hne : ∀ a ∈ h, a.callOf ≠ some n := fun a ha hn => by
    have := mem_trail.2 ⟨ha, hn⟩
    rw [ht] at this
    cases this
  refine Prod.ext (List.filterMap_eq_nil_iff.2 fun a ha => ?_)
    (List.filterMap_eq_nil_iff.2 fun a ha => ?_)
  · have := hne a ha
    cases a <;> simp_all [Act.callOf]
  · have := hne a ha
    cases a <;> simp_all [Act.callOf]

theorem results_append : results n (h ++ h') =
    ((results n h).1 ++ (results n h').1, (results n h).2 ++ (results n h').2) := by
  simp [results]

/-- Entries of other calls add nothing. -/
theorem results_append_right (ht : trail n h' = []) : results n (h ++ h') = results n h := by
  rw [results_append, results_eq_nil ht]
  simp

theorem results_append_left (ht : results n h = ([], [])) :
    results n (h ++ h') = results n h' := by
  rw [results_append, ht]
  simp

/-- A call that is only issued has seen nothing. -/
theorem Pending.results (hp : Pending h r c) : results r.call h = ([], []) := by
  obtain ⟨pay, hp⟩ := hp
  have hall : ∀ a ∈ h, a.callOf = some r.call → a = .issue r.call r.pcb c pay := fun a ha hn => by
    have := mem_trail.2 ⟨ha, hn⟩
    rw [hp] at this
    exact List.mem_singleton.1 this
  refine Prod.ext (List.filterMap_eq_nil_iff.2 fun a ha => ?_)
    (List.filterMap_eq_nil_iff.2 fun a ha => ?_)
  · have := hall a ha
    cases a <;> simp_all [Act.callOf]
  · have := hall a ha
    cases a <;> simp_all [Act.callOf]

theorem results_receipt (hw : m.size = m.data.length) :
    results r.call (r.receipt m) = outcome r.size m.data := by
  unfold Request.receipt outcome
  rw [hw]
  split <;> simp [results, returned, copied]

/-! ## Calls that have returned -/

/-- The return value is the last entry of a trail. -/
theorem Trail.done (ht : Trail chan n (t ++ t')) (hr : .retval n ret ∈ t) : t' = [] := by
  have key : ∀ {l a}, t ++ t' = l ++ [a] → Act.retval n ret ∉ l → t' = [] := by
    intro l a hl hn
    rcases List.eq_nil_or_concat t' with hnil | ⟨init, x, rfl⟩
    · exact hnil
    · have hl' : (t ++ init) ++ [x] = l ++ [a] := by simpa using hl
      obtain ⟨rfl, -⟩ := List.append_inj' hl' rfl
      exact absurd (List.mem_append_left _ hr) hn
  have hmem : Act.retval n ret ∈ t ++ t' := List.mem_append_left _ hr
  generalize hl : t ++ t' = l at ht hmem
  cases ht with
  | pass p c pay acts hc hacts =>
    rcases hacts with rfl | ⟨r, rfl⟩
    · simp at hmem
    · exact key (l := [_]) hl (by simp)
  | managed => exact key (l := [_]) hl (by simp)
  | failed => exact key (l := [_]) hl (by simp)
  | sending => simp at hmem
  | sent => exact key (l := [_, _]) hl (by simp)
  | receiving => simp at hmem
  | received => exact key (l := [_, _, _]) hl (by simp)
  | dropped => exact key (l := [_, _]) hl (by simp)

theorem mem_returned : ret ∈ returned n h ↔ .retval n ret ∈ h := by
  refine List.mem_filterMap.trans ⟨?_, fun hm => ⟨_, hm, if_pos rfl⟩⟩
  rintro ⟨a, ha, he⟩
  cases a <;> simp_all

/-- A call that has returned has no part in later steps. -/
theorem Channels.Trails.done {a a' : Channels} (ht : a'.Trails) (hh : a'.history = a.history ++ acts)
    (hr : returned n a.history ≠ []) : trail n acts = [] := by
  obtain ⟨ret, hret⟩ := List.exists_mem_of_ne_nil _ hr
  have hm : .retval n ret ∈ a.history := mem_returned.1 hret
  have hm' : .retval n ret ∈ a'.history := hh ▸ List.mem_append_left _ hm
  obtain ⟨h1, -⟩ := ht.of_mem hm' rfl
  rw [hh, trail_append] at h1
  exact h1.done (mem_trail.2 ⟨hm, rfl⟩)

/-! ## One call on one queue -/

theorem calls_send (id : Int) (n : Nat) (p : PcbRef) (buffer : Int) (pay : List UInt8)
    (hi : issueCalls acts = []) (hsize : SendSize size) :
    postings id (.issue n p (.mqSend id buffer size) pay :: acts) = [⟨n, p, pay⟩] ∧
      requests id (.issue n p (.mqSend id buffer size) pay :: acts) = [] := by
  have h1 : postings id (.issue n p (.mqSend id buffer size) pay :: acts) =
      ⟨n, p, pay⟩ :: postings id acts :=
    List.filterMap_cons_some (if_pos ⟨rfl, hsize.1, hsize.2⟩)
  rw [h1, postings_of_issueCalls hi]
  exact ⟨rfl, (List.filterMap_cons_none rfl).trans (requests_of_issueCalls hi)⟩

theorem calls_receive (id : Int) (n : Nat) (p : PcbRef) (buffer : Int) (pay : List UInt8)
    (hi : issueCalls acts = []) (hsize : 0 < size) :
    postings id (.issue n p (.mqReceive id buffer size) pay :: acts) = [] ∧
      requests id (.issue n p (.mqReceive id buffer size) pay :: acts) =
        [⟨n, p, buffer, size⟩] := by
  have h1 : requests id (.issue n p (.mqReceive id buffer size) pay :: acts) =
      ⟨n, p, buffer, size⟩ :: requests id acts := List.filterMap_cons_some (if_pos ⟨rfl, hsize⟩)
  rw [h1, requests_of_issueCalls hi]
  exact ⟨(List.filterMap_cons_none rfl).trans (postings_of_issueCalls hi), rfl⟩

namespace Matched

theorem start (hc : ch.contents = []) (hr : ch.receivers = []) (hs : ch.senders = []) :
    Matched id ch hist [] := by
  refine ⟨?_, ?_, hs, fun x hx => absurd hx List.not_mem_nil,
    fun x hx => absurd hx List.not_mem_nil⟩
  · rw [hc]
    rfl
  · rw [hr]
    rfl

/-- What has ended is not changed by a step that has no part in it. -/
theorem ended (hm : Matched id ch hist h)
    (hdone : ∀ k, returned k hist ≠ [] → trail k acts = []) :
    (∀ x ∈ postings id h, returned x.call (hist ++ acts) = [0]) ∧
      ∀ x ∈ (postings id h).zip (requests id h),
        results x.2.call (hist ++ acts) = outcome x.2.size x.1.bytes := by
  constructor
  · intro x hx
    have h1 := hm.sent x hx
    have h2 := results_append_right (h := hist) (hdone x.call (by rw [h1]; simp))
    exact (congrArg Prod.fst h2).trans h1
  · intro x hx
    have h1 := hm.received x hx
    have hne : returned x.2.call hist ≠ [] := by
      have h2 : returned x.2.call hist = _ := congrArg Prod.fst h1
      rw [h2]
      unfold outcome
      split <;> simp
    exact (results_append_right (hdone x.2.call hne)).trans h1

/-- A step with no call on the queue. -/
theorem frame (hm : Matched id ch hist h)
    (hdone : ∀ k, returned k hist ≠ [] → trail k acts = [])
    (hp : postings id acts = []) (hr : requests id acts = []) :
    Matched id ch (hist ++ acts) (h ++ acts) := by
  obtain ⟨h1, h2⟩ := hm.ended hdone
  refine ⟨?_, ?_, hm.senders, ?_, ?_⟩ <;>
    simp only [postings_append, requests_append, hp, hr, List.append_nil]
  exacts [hm.contents, hm.receivers, h1, h2]

theorem matching (hm : Matched id ch hist h) : Matching (postings id h) (requests id h)
    ((postings id h).drop (requests id h).length) ch.receivers := ⟨rfl, hm.receivers⟩

/-- A send that returns 0 and leaves its message, as nobody waits for it. -/
theorem put {x : Posting} (hm : Matched id ch hist h)
    (hdone : ∀ k, returned k hist ≠ [] → trail k acts = []) (hnone : ch.receivers = [])
    (hp : postings id acts = [x]) (hr : requests id acts = []) (hbody : m.body = x.body)
    (hret : returned x.call (hist ++ acts) = [0]) :
    Matched id { ch with contents := ch.contents ++ [m] } (hist ++ acts) (h ++ acts) := by
  obtain ⟨hsent, hrecv⟩ := hm.ended hdone
  have hmatch := hm.matching
  rw [hnone] at hmatch
  obtain ⟨h1, h2⟩ := hmatch.put x
  refine ⟨?_, ?_, hm.senders, ?_, ?_⟩ <;>
    simp only [postings_append, requests_append, hp, hr, List.append_nil]
  · rw [← h1.contents, List.map_append, List.map_append, hm.contents, List.map_singleton, hbody]
    rfl
  · rw [hnone]
    exact h1.waiting
  · intro y hy
    rcases List.mem_append.1 hy with hy | hy
    · exact hsent y hy
    · rw [List.mem_singleton.1 hy]
      exact hret
  · rw [h2]
    exact hrecv

/-- A send that returns 0 and whose message the first waiting receive gets. -/
theorem handOff {x : Posting} {rs : List Request} (hm : Matched id ch hist h)
    (hdone : ∀ k, returned k hist ≠ [] → trail k acts = []) (hempty : ch.contents = [])
    (hwait : ch.receivers = r :: rs) (hp : postings id acts = [x]) (hr : requests id acts = [])
    (hret : returned x.call (hist ++ acts) = [0])
    (hout : results r.call (hist ++ acts) = outcome r.size x.bytes) :
    Matched id { ch with receivers := rs } (hist ++ acts) (h ++ acts) := by
  obtain ⟨hsent, hrecv⟩ := hm.ended hdone
  have hmatch := hm.matching
  rw [hwait] at hmatch
  obtain ⟨h1, h2⟩ := hmatch.handOff x
  refine ⟨?_, ?_, hm.senders, ?_, ?_⟩ <;>
    simp only [postings_append, requests_append, hp, hr, List.append_nil]
  · rw [← h1.contents, hempty]
    rfl
  · exact h1.waiting
  · intro y hy
    rcases List.mem_append.1 hy with hy | hy
    · exact hsent y hy
    · rw [List.mem_singleton.1 hy]
      exact hret
  · rw [h2]
    intro y hy
    rcases List.mem_append.1 hy with hy | hy
    · exact hrecv y hy
    · rw [List.mem_singleton.1 hy]
      exact hout

/-- A receive that finds the queue empty. -/
theorem block (hm : Matched id ch hist h)
    (hdone : ∀ k, returned k hist ≠ [] → trail k acts = []) (hempty : ch.contents = [])
    (hp : postings id acts = []) (hr : requests id acts = [r]) :
    Matched id { ch with receivers := ch.receivers ++ [r] } (hist ++ acts) (h ++ acts) := by
  obtain ⟨hsent, hrecv⟩ := hm.ended hdone
  have hmatch := hm.matching
  have hnil : (postings id h).drop (requests id h).length = [] := by
    have h1 := hm.contents
    rw [hempty] at h1
    exact List.map_eq_nil_iff.1 h1.symm
  rw [hnil] at hmatch
  obtain ⟨h1, h2⟩ := hmatch.block r
  refine ⟨?_, ?_, hm.senders, ?_, ?_⟩ <;>
    simp only [postings_append, requests_append, hp, hr, List.append_nil]
  · rw [← h1.contents, hempty]
    rfl
  · exact h1.waiting
  · exact hsent
  · rw [h2]
    exact hrecv

/-- A receive that takes the first message. -/
theorem take {ms : List Message} (hm : Matched id ch hist h)
    (hdone : ∀ k, returned k hist ≠ [] → trail k acts = []) (hcont : ch.contents = m :: ms)
    (hp : postings id acts = []) (hr : requests id acts = [r])
    (hout : m.size = m.data.length → results r.call (hist ++ acts) = outcome r.size m.data) :
    Matched id { ch with contents := ms } (hist ++ acts) (h ++ acts) := by
  obtain ⟨hsent, hrecv⟩ := hm.ended hdone
  have hmatch := hm.matching
  have hbody := hm.contents
  rw [hcont, List.map_cons] at hbody
  -- what the queue holds are the postings that nobody has requested yet
  obtain ⟨x, cs, hdrop, hx, hcs⟩ := List.map_eq_cons_iff.1 hbody.symm
  rw [hdrop] at hmatch
  obtain ⟨h1, h2⟩ := hmatch.take r
  have hwait := hmatch.waiting_nil
  simp only [Message.body, Posting.body, Prod.mk.injEq] at hx
  obtain ⟨-, hsize, hdata⟩ := hx
  refine ⟨?_, ?_, hm.senders, ?_, ?_⟩ <;>
    simp only [postings_append, requests_append, hp, hr, List.append_nil]
  · rw [← h1.contents]
    exact hcs.symm
  · rw [hwait]
    exact h1.waiting
  · exact hsent
  · rw [h2]
    intro y hy
    rcases List.mem_append.1 hy with hy | hy
    · exact hrecv y hy
    · rw [List.mem_singleton.1 hy]
      show _ = outcome r.size x.bytes
      rw [hdata]
      exact hout (by rw [← hsize, hdata])

end Matched

/-- **A call on the queue** keeps its sends and receives matched. -/
theorem ChanStep.matched {o : Option Chan} {mem mem' : Int → UInt8}
    (hs : ChanStep n p id mem c (some ch) acts o mem') (hm : Matched id ch hist h)
    (hdone : ∀ k, returned k hist ≠ [] → trail k (.issue n p c (c.payload mem) :: acts) = [])
    (hnew : results n hist = ([], []))
    (hpend : ∀ r ∈ ch.receivers, r.call ≠ n ∧ results r.call hist = ([], []))
    (hroom : ∀ buffer size, c = .mqSend id buffer size → SendSize size →
      ch.contents.length < ch.cap)
    (hc : c ≠ .mqDestroy id) :
    ∃ ch', o = some ch' ∧ Matched id ch' (hist ++ (.issue n p c (c.payload mem) :: acts))
      (h ++ (.issue n p c (c.payload mem) :: acts)) := by
  have hi := hs.issueCalls_eq
  cases hs with
  | destroy => exact absurd rfl hc
  | blockSend ch buffer size hsize hfull =>
    have := hroom buffer size rfl hsize
    omega
  | complete ch buffer size m m' ms b r rs _ _ _ hsend =>
    rw [hm.senders] at hsend
    cases hsend
  | blockReceive ch buffer size hsize hempty =>
    obtain ⟨hp, hr⟩ := calls_receive id n p buffer
      ((Syscall.mqReceive id buffer size).payload mem) hi hsize
    exact ⟨_, rfl, hm.block hdone hempty hp hr⟩
  | send ch buffer size b m hsize hroom' hnone hmsg =>
    obtain ⟨hp, hr⟩ := calls_send id n p buffer
      ((Syscall.mqSend id buffer size).payload mem) hi hsize
    have hbody : m.body =
        Posting.body ⟨n, p, (Syscall.mqSend id buffer size).payload mem⟩ := by
      have := hsize.1
      rw [hmsg]
      simp only [Message.body, Posting.body, Request.message, Syscall.payload, memRead_length,
        Prod.mk.injEq, true_and, and_true]
      omega
    refine ⟨_, rfl, hm.put hdone hnone hp hr hbody ?_⟩
    refine (congrArg Prod.fst (results_append_left hnew)).trans ?_
    simp [results, returned]
  | handOff ch buffer size b m r rs hsize hroom' hempty hwait hmsg =>
    obtain ⟨hp, hr⟩ := calls_send id n p buffer
      ((Syscall.mqSend id buffer size).payload mem) hi hsize
    obtain ⟨hne, hpend⟩ := hpend r (by simp [hwait])
    have hdata : m.data = (Syscall.mqSend id buffer size).payload mem := by
      rw [hmsg]
      rfl
    have hwhole : m.size = m.data.length := by
      have := hsize.1
      rw [hmsg]
      simp only [Request.message, memRead_length]
      omega
    refine ⟨_, rfl, hm.handOff hdone hempty hwait hp hr ?_ ?_⟩
    · have h3 : results n (r.receipt m) = ([], []) := results_eq_nil (trail_receipt_ne hne)
      have h4 : returned n (r.receipt m ++ [Act.retval n 0]) = returned n [.retval n 0] :=
        congrArg Prod.fst (results_append_left h3)
      refine (congrArg Prod.fst (results_append_left hnew)).trans (h4.trans ?_)
      simp [returned]
    · have h3 : trail r.call [Act.retval n 0] = [] := by simp [Ne.symm hne]
      refine (results_append_left hpend).trans ?_
      refine (results_append_right h3 : results r.call (r.receipt m ++ _) = _).trans ?_
      rw [results_receipt hwhole, hdata]
  | receive ch buffer size m ms hsize hcont hfit =>
    obtain ⟨hp, hr⟩ := calls_receive id n p buffer
      ((Syscall.mqReceive id buffer size).payload mem) hi hsize
    refine ⟨_, rfl, hm.take hdone hcont hp hr fun hwhole => (results_append_left hnew).trans ?_⟩
    have hle : ¬ size < m.data.length := by omega
    simp [results, returned, copied, outcome, hle, hwhole]
  | drop ch buffer size m ms hsize hcont hfit =>
    obtain ⟨hp, hr⟩ := calls_receive id n p buffer
      ((Syscall.mqReceive id buffer size).payload mem) hi hsize
    refine ⟨_, rfl, hm.take hdone hcont hp hr fun hwhole => (results_append_left hnew).trans ?_⟩
    have hlt : size < m.data.length := by omega
    simp [results, returned, copied, outcome, hlt]

/-! ## Steps of the machine -/

/-- A call that is no send on the queue of an accepted size and no receive on it. -/
theorem calls_other (id : Int) (n : Nat) (p : PcbRef) (c : Syscall) (pay : List UInt8)
    (hi : issueCalls acts = [])
    (hsend : ∀ buffer size, c = .mqSend id buffer size → ¬ SendSize size)
    (hrecv : ∀ buffer size, c = .mqReceive id buffer size → ¬ 0 < size) :
    postings id (.issue n p c pay :: acts) = [] ∧ requests id (.issue n p c pay :: acts) = [] := by
  constructor
  · refine Eq.trans (List.filterMap_cons_none ?_) (postings_of_issueCalls hi)
    cases c with
    | mqSend i buffer size =>
      refine if_neg ?_
      rintro ⟨rfl, h1, h2⟩
      exact hsend buffer size rfl ⟨h1, h2⟩
    | _ => rfl
  · refine Eq.trans (List.filterMap_cons_none ?_) (requests_of_issueCalls hi)
    cases c with
    | mqReceive i buffer size =>
      refine if_neg ?_
      rintro ⟨rfl, h1⟩
      exact hrecv buffer size rfl h1
    | _ => rfl

theorem ChanStep.send_id {o o' : Option Chan} {mem mem' : Int → UInt8}
    (hs : ChanStep n p id mem (.mqSend i buffer size) o acts o' mem') : i = id := by
  cases hs <;> rfl

namespace Channels

variable {a a' : Channels} {e : Event}

/-- In the step a send on queue `id` does not find it full, a receive on it is not refused, and it is
not destroyed. -/
structure Admits (a : Channels) (id : Int) (e : Event) (a' : Channels) : Prop where
  room : ∀ buffer size, e = .syscall (.mqSend id buffer size) → SendSize size →
    ∀ ch ∈ a.chan id, ch.contents.length < ch.cap
  accepted : ∀ buffer size, e = .syscall (.mqReceive id buffer size) → 0 < size →
    (∀ ch ∈ a.chan id, ch.contents = []) →
    ∀ p r, a' ≠ (a.issue p (.mqReceive id buffer size)).log [.retval a.calls r]
  kept : e ≠ .syscall (.mqDestroy id)

/-- **Every such step** keeps the sends and receives on the queue matched. -/
theorem Step.matched (h : a.Step e a') (hk : a.Kept) (ht : a.Trails) (hid : 0 < id)
    (hch : a.chan id = some ch) (hm : Matched id ch a.history t) (hc : a.Admits id e a') :
    ∃ ch' acts, a'.chan id = some ch' ∧ a'.history = a.history ++ acts ∧
      Matched id ch' a'.history (t ++ acts) := by
  have ht' := h.trails hk ht
  cases h with
  | tick => exact ⟨ch, [], hch, by simp, by simpa using hm⟩
  | store => exact ⟨ch, [], hch, by simp [setMem], by simpa [setMem] using hm⟩
  | pass p c acts hmq hacts =>
    have hh : ((a.issue p c).log acts).history =
        a.history ++ (.issue a.calls p c (c.payload a.mem) :: acts) := by simp [issue, log]
    have hi : issueCalls acts = [] := by rcases hacts with rfl | ⟨r, rfl⟩ <;> rfl
    obtain ⟨h1, h2⟩ := calls_other id a.calls p c
      (c.payload a.mem) hi (fun _ _ e => by subst e; exact absurd trivial hmq)
      (fun _ _ e => by subst e; exact absurd trivial hmq)
    refine ⟨ch, _, hch, hh, ?_⟩
    rw [hh]
    exact hm.frame (fun k => ht'.done hh) h1 h2
  | refuse p c r hrefuse hr =>
    have hh : ((a.issue p c).log [.retval a.calls r]).history =
        a.history ++ (.issue a.calls p c (c.payload a.mem) :: [.retval a.calls r]) := by
      simp [issue, log]
    have hi : issueCalls [.retval a.calls r] = [] := rfl
    obtain ⟨h1, h2⟩ := calls_other id a.calls p c
      (c.payload a.mem) hi (fun buffer size e hsize => by
        subst e
        have hroom := hc.room buffer size rfl hsize ch hch
        rcases hrefuse with h3 | h3 | h3
        · omega
        · exact h3 hsize
        · have := h3 ch hch
          omega)
      (fun buffer size e hsize => by
        subst e
        rcases hrefuse with h3 | h3 | h3
        · omega
        · omega
        · exact hc.accepted buffer size rfl hsize h3 p r rfl)
    refine ⟨ch, _, hch, hh, ?_⟩
    rw [hh]
    exact hm.frame (fun k => ht'.done hh) h1 h2
  | call p c i acts o mem hpos hs =>
    have hh : ((((a.issue p c).log acts).setChan i o).setMem mem).history =
        a.history ++ (.issue a.calls p c (c.payload a.mem) :: acts) := by
      simp [issue, log, setChan, setMem]
    have hdone := fun k => ht'.done (n := k) hh
    by_cases hi : i = id
    · subst hi
      rw [hch] at hs
      obtain ⟨ch', ho, hm'⟩ := hs.matched hm hdone (results_eq_nil (ht.new _ (.inr le_rfl)))
        (fun r hr => ⟨Nat.ne_of_lt (hk.blocked_lt hch (List.mem_append_left _ hr)),
          (ht.receivers i ch hch r hr).2.results⟩)
        (fun buffer size e hsize => hc.room buffer size (e ▸ rfl) hsize ch hch)
        (fun e => hc.kept (e ▸ rfl))
      refine ⟨ch', _, by simp [setMem, setChan, ho], hh, ?_⟩
      rw [hh]
      exact hm'
    · obtain ⟨h1, h2⟩ := calls_other id a.calls p c
        (c.payload a.mem) hs.issueCalls_eq
        (fun _ _ e => absurd (ChanStep.send_id (e ▸ hs)).symm hi)
        (fun _ _ e => absurd (ChanStep.receive_pos (e ▸ hs)).1.symm hi)
      refine ⟨ch, _, ?_, hh, ?_⟩
      · have : ¬ id = i := fun e => hi e.symm
        simpa [setMem, setChan, issue, log, this] using hch
      · rw [hh]
        exact hm.frame hdone h1 h2

end Channels

end

end DisastrOS
