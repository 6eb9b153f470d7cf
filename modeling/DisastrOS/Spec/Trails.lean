import DisastrOS.Lib.Seq
import DisastrOS.Spec.Ledger

/-!
# What happens to a call

`Trail chan n acts` lists the ways in which call number `n` can have gone, `acts` being its part of
the history: it is blocked in the channel it names, or it has failed, or it has completed with
exactly one message. Every step keeps the trails of all calls (`Channels.Step.trails`).
-/

namespace DisastrOS

open Lib Channel

/-- The payload is as long as the message says. -/
structure Message.Whole (m : Message) : Prop where
  pos : 0 < m.size
  length : m.data.length = m.size.toNat

inductive Trail (chan : Int → Option Chan) (n : Nat) : List Act → Prop
  | pass (p : PcbRef) (c : Syscall) (pay : List UInt8) (acts : List Act) (hc : ¬ c.IsMq)
      (hacts : acts = [] ∨ ∃ r, acts = [.retval n r]) : Trail chan n (.issue n p c pay :: acts)
  | managed (p : PcbRef) (c : Syscall) (pay : List UInt8) (id : Int)
      (hc : (∃ size, c = .mqCreate id size) ∨ c = .mqDestroy id) :
      Trail chan n [.issue n p c pay, .retval n id]
  | failed (p : PcbRef) (c : Syscall) (pay : List UInt8) (r : Int) (hr : r < 0) :
      Trail chan n [.issue n p c pay, .retval n r]
  | sending (p : PcbRef) (id buffer size : Int) (pay : List UInt8) (ch : Chan)
      (hch : chan id = some ch) (hr : ⟨n, p, buffer, size⟩ ∈ ch.senders) :
      Trail chan n [.issue n p (.mqSend id buffer size) pay]
  | sent (p : PcbRef) (id buffer size : Int) (pay : List UInt8) (m : Message) (hcall : m.call = n)
      (hsize : m.size = size) (hwhole : m.Whole) :
      Trail chan n [.issue n p (.mqSend id buffer size) pay, .enqueue id m, .retval n 0]
  | receiving (p : PcbRef) (id buffer size : Int) (pay : List UInt8) (ch : Chan)
      (hch : chan id = some ch) (hr : ⟨n, p, buffer, size⟩ ∈ ch.receivers) :
      Trail chan n [.issue n p (.mqReceive id buffer size) pay]
  | received (p : PcbRef) (id buffer size : Int) (pay : List UInt8) (m : Message)
      (hfit : m.size ≤ size) (hwhole : m.Whole) :
      Trail chan n [.issue n p (.mqReceive id buffer size) pay, .dequeue id m n,
        .deliver n buffer m.data, .retval n m.size]
  | dropped (p : PcbRef) (id buffer size : Int) (pay : List UInt8) (m : Message)
      (hfit : size < m.size) :
      Trail chan n [.issue n p (.mqReceive id buffer size) pay, .dequeue id m n,
        .retval n dsosEBuffer]

/-- The request is that of a call that has not completed. -/
def Pending (h : List Act) (r : Request) (c : Syscall) : Prop :=
  ∃ pay, trail r.call h = [.issue r.call r.pcb c pay]

/-- The trails of all calls, and those of the blocked ones. -/
structure Channels.Trails (a : Channels) : Prop where
  first : 0 < a.calls
  old : ∀ n, 0 < n → n < a.calls → Trail a.chan n (trail n a.history)
  new : ∀ n, n = 0 ∨ a.calls ≤ n → trail n a.history = []
  whole : ∀ id, ∀ m ∈ enqueues id a.history, m.Whole
  senders : ∀ id, ∀ ch ∈ a.chan id, ∀ r ∈ ch.senders,
    SendSize r.size ∧ Pending a.history r (.mqSend id r.buffer r.size)
  receivers : ∀ id, ∀ ch ∈ a.chan id, ∀ r ∈ ch.receivers,
    0 < r.size ∧ Pending a.history r (.mqReceive id r.buffer r.size)

theorem Request.message_whole {r : Request} {b : Nat} {p : PcbRef} {mem : Int → UInt8}
    (hr : 0 < r.size) : (r.message b p mem).Whole :=
  ⟨hr, by simp [Request.message]⟩

/-! ## The other calls -/

section
variable {n k : Nat} {p : PcbRef} {id i : Int} {mem mem' : Int → UInt8} {c : Syscall}
  {o o' : Option Chan} {acts h : List Act} {ch : Chan}

theorem trail_receipt {r : Request} {m : Message} (hk : r.call = k) :
    trail k (r.receipt m) = r.receipt m := by
  unfold Request.receipt
  split <;> simp [hk]

theorem trail_receipt_ne {r : Request} {m : Message} (hk : r.call ≠ k) :
    trail k (r.receipt m) = [] := by
  unfold Request.receipt
  split <;> simp [hk]

/-- The part of a step in the history of an earlier call `k`: none, and it stays blocked if it is,
or the completion of `k`. -/
inductive Part (id : Int) (k : Nat) (o o' : Option Chan) : List Act → Prop
  | none (hs : ∀ ch ∈ o, ∀ r ∈ ch.senders, r.call = k → ∃ ch' ∈ o', r ∈ ch'.senders)
      (hr : ∀ ch ∈ o, ∀ r ∈ ch.receivers, r.call = k → ∃ ch' ∈ o', r ∈ ch'.receivers) :
      Part id k o o' []
  | sent (ch : Chan) (r : Request) (m : Message) (hch : ch ∈ o) (hr : r ∈ ch.senders)
      (hk : r.call = k) (hcall : m.call = k) (hsize : m.size = r.size) (hwhole : m.Whole) :
      Part id k o o' [.enqueue id m, .retval k 0]
  | received (ch : Chan) (r : Request) (m : Message) (hch : ch ∈ o) (hr : r ∈ ch.receivers)
      (hk : r.call = k) (hwhole : m.Whole) : Part id k o o' (.dequeue id m k :: r.receipt m)
  | closed (ch : Chan) (r : Request) (hch : ch ∈ o) (hr : r ∈ ch.senders ∨ r ∈ ch.receivers)
      (hk : r.call = k) : Part id k o o' [.retval k dsosEMqNotOpen]

/-- A call that is not blocked on the queue has no part in the step. -/
theorem Part.eq_nil {t : List Act} (hp : Part id k o o' t)
    (hno : ∀ ch ∈ o, ∀ r ∈ ch.receivers ++ ch.senders, r.call ≠ k) : t = [] := by
  cases hp with
  | none => rfl
  | sent ch r m hch hr hk => exact absurd hk (hno ch hch r (List.mem_append_right _ hr))
  | received ch r m hch hr hk => exact absurd hk (hno ch hch r (List.mem_append_left _ hr))
  | closed ch r hch hr hk => exact absurd hk (hno ch hch r (List.mem_append.2 hr.symm))

/-- Nobody who is blocked on the queue has a part in the step, and they all stay blocked. -/
theorem Part.stay {t : List Act} {ch' : Chan} (ht : t = []) (hs : ch.senders ⊆ ch'.senders)
    (hr : ch.receivers ⊆ ch'.receivers) : Part id k (some ch) (some ch') t := by
  rw [ht]
  refine .none ?_ ?_ <;> rintro _ ⟨⟩ r hmem -
  · exact ⟨ch', rfl, hs hmem⟩
  · exact ⟨ch', rfl, hr hmem⟩

theorem ChanStep.part (hs : ChanStep n p id mem c o acts o' mem') (hk : k ≠ n)
    (hnd : ∀ ch ∈ o, ((ch.receivers ++ ch.senders).map (·.call)).Nodup)
    (hsend : ∀ ch ∈ o, ∀ r ∈ ch.senders, 0 < r.size) : Part id k o o' (trail k acts) := by
  have hkn : n ≠ k := hk.symm
  cases hs with
  | create =>
    have ht : trail k [.create id, .retval n id] = [] := by simp [hkn]
    rw [ht]
    exact .none (by simp) (by simp)
  | destroy ch =>
    have hd : trail k (ch.contents.map (.discard id) ++ [.destroy id, .retval n id]) = [] := by
      refine trail_eq_nil fun a ha => ?_
      simp only [List.mem_append, List.mem_map, List.mem_cons, List.not_mem_nil, or_false] at ha
      rcases ha with ⟨m, -, rfl⟩ | rfl | rfl <;> simp [hkn]
    rw [trail_append, hd, List.append_nil]
    by_cases hm : ∃ r ∈ ch.receivers ++ ch.senders, r.call = k
    · obtain ⟨r, hr, rfl⟩ := hm
      have := filter_key_eq (hnd ch rfl) hr
      simp only [trail, List.filter_map, Function.comp_def, Act.callOf_retval,
        Option.some.injEq, this]
      exact .closed ch r rfl (List.mem_append.1 hr).symm rfl
    · simp only [List.mem_append, not_exists, not_and] at hm
      rw [trail_eq_nil]
      · exact .none (fun ch' h r hr hrk => by cases h; exact absurd hrk (hm r (.inr hr)))
          fun ch' h r hr hrk => by cases h; exact absurd hrk (hm r (.inl hr))
      · intro a ha
        obtain ⟨r, hr, rfl⟩ := List.mem_map.1 ha
        simpa using hm r (List.mem_append.1 hr)
  | blockSend ch buffer size =>
    exact .stay rfl (List.subset_append_left _ _) (List.Subset.refl _)
  | blockReceive ch buffer size =>
    exact .stay rfl (List.Subset.refl _) (List.subset_append_left _ _)
  | send ch buffer size b m hsize hroom hr hm =>
    have ht : trail k [.enqueue id m, .retval n 0] = [] := by
      simp [hm, Request.message, hkn]
    exact .stay ht (List.Subset.refl _) (List.Subset.refl _)
  | handOff ch buffer size b m r rs hsize hroom hempty hr hm =>
    have hmn : m.call = n := by rw [hm]; rfl
    by_cases hrk : r.call = k
    · have ht : trail k (.enqueue id m :: .dequeue id m r.call :: (r.receipt m ++ [.retval n 0])) =
          .dequeue id m k :: r.receipt m := by
        simp [hmn, hkn, hrk, trail_receipt hrk]
      rw [ht]
      exact .received ch r m rfl (by simp [hr]) hrk (hm ▸ Request.message_whole hsize.1)
    · have ht : trail k (.enqueue id m :: .dequeue id m r.call :: (r.receipt m ++ [.retval n 0])) =
          [] := by
        simp [hmn, hkn, hrk, trail_receipt_ne hrk]
      rw [ht]
      refine .none ?_ ?_ <;> rintro _ ⟨⟩ r' hr' hr'k
      · exact ⟨_, rfl, hr'⟩
      · refine ⟨_, rfl, ?_⟩
        rw [hr] at hr'
        rcases List.mem_cons.1 hr' with rfl | hr'
        · exact absurd hr'k hrk
        · exact hr'
  | receive ch buffer size m ms =>
    have ht : trail k [.dequeue id m n, .deliver n buffer m.data, .retval n m.size] = [] := by
      simp [hkn]
    exact .stay ht (List.Subset.refl _) (List.Subset.refl _)
  | complete ch buffer size m m' ms b r rs hsize hm hfit hs hm' =>
    have hmr : m'.call = r.call := by rw [hm']; rfl
    by_cases hrk : r.call = k
    · have ht : trail k [.dequeue id m n, .deliver n buffer m.data, .enqueue id m',
          .retval r.call 0, .retval n m.size] = [.enqueue id m', .retval k 0] := by
        simp [hkn, hmr, hrk]
      rw [ht]
      exact .sent ch r m' rfl (by simp [hs]) hrk (hmr.trans hrk) (by rw [hm']; rfl)
        (hm' ▸ Request.message_whole (hsend ch rfl r (by simp [hs])))
    · have ht : trail k [.dequeue id m n, .deliver n buffer m.data, .enqueue id m',
          .retval r.call 0, .retval n m.size] = [] := by
        simp [hkn, hmr, hrk]
      rw [ht]
      refine .none ?_ ?_ <;> rintro _ ⟨⟩ r' hr' hr'k
      · refine ⟨_, rfl, ?_⟩
        rw [hs] at hr'
        rcases List.mem_cons.1 hr' with rfl | hr'
        · exact absurd hr'k hrk
        · exact hr'
      · exact ⟨_, rfl, hr'⟩
  | drop ch buffer size m ms =>
    have ht : trail k [.dequeue id m n, .retval n dsosEBuffer] = [] := by
      simp [hkn]
    exact .stay ht (List.Subset.refl _) (List.Subset.refl _)

/-- A blocked call that is still blocked after a step has no part in it. -/
theorem ChanStep.blocked_senders (hs : ChanStep n p id mem c o acts o' mem')
    (hnd : ∀ ch ∈ o, ((ch.receivers ++ ch.senders).map (·.call)).Nodup)
    (hlt : ∀ ch ∈ o, ∀ r ∈ ch.receivers ++ ch.senders, r.call ≠ n) :
    ∀ ch' ∈ o', ∀ r ∈ ch'.senders,
      (∃ ch ∈ o, r ∈ ch.senders ∧ trail r.call acts = []) ∨
      (∃ buffer size, r = ⟨n, p, buffer, size⟩ ∧ c = .mqSend id buffer size ∧ SendSize size ∧
        acts = []) := by
  intro ch' hch' r hr
  cases hs with
  | destroy => cases hch'
  | create => cases hch'; cases hr
  | blockSend ch buffer size hsize =>
    cases hch'
    rcases List.mem_append.1 hr with hr | hr
    · exact .inl ⟨ch, rfl, hr, rfl⟩
    · exact .inr ⟨buffer, size, List.mem_singleton.1 hr, rfl, hsize, rfl⟩
  | blockReceive ch => cases hch'; exact .inl ⟨ch, rfl, hr, rfl⟩
  | send ch buffer size b m hsize hroom hr' hm =>
    cases hch'
    have hn := hlt ch rfl r (List.mem_append_right _ hr)
    exact .inl ⟨ch, rfl, hr, by simp [hm, Request.message, hn.symm]⟩
  | handOff ch buffer size b m r' rs hsize hroom hempty hr' hm =>
    cases hch'
    have hn := hlt ch rfl r (List.mem_append_right _ hr)
    have hne : r'.call ≠ r.call := by
      have := hnd ch rfl
      rw [List.map_append, List.nodup_append] at this
      exact this.2.2 _ (by simp [hr']) _ (List.mem_map_of_mem hr)
    exact .inl ⟨ch, rfl, hr, by simp [hm, Request.message, hn.symm, hne, trail_receipt_ne hne]⟩
  | receive ch =>
    cases hch'
    have hn := hlt ch rfl r (List.mem_append_right _ hr)
    exact .inl ⟨ch, rfl, hr, by simp [hn.symm]⟩
  | complete ch buffer size m m' ms b r' rs hsize hm hfit hs hm' =>
    cases hch'
    have hr2 : r ∈ ch.senders := by rw [hs]; exact List.mem_cons_of_mem _ hr
    have hn := hlt ch rfl r (List.mem_append_right _ hr2)
    have hne : r'.call ≠ r.call := by
      have := hnd ch rfl
      rw [List.map_append, List.nodup_append, hs, List.map_cons, List.nodup_cons] at this
      exact fun h => this.2.1.1 (h ▸ List.mem_map_of_mem hr)
    exact .inl ⟨ch, rfl, hr2, by simp [hm', Request.message, hn.symm, hne]⟩
  | drop ch =>
    cases hch'
    have hn := hlt ch rfl r (List.mem_append_right _ hr)
    exact .inl ⟨ch, rfl, hr, by simp [hn.symm]⟩

theorem ChanStep.blocked_receivers (hs : ChanStep n p id mem c o acts o' mem')
    (hnd : ∀ ch ∈ o, ((ch.receivers ++ ch.senders).map (·.call)).Nodup)
    (hlt : ∀ ch ∈ o, ∀ r ∈ ch.receivers ++ ch.senders, r.call ≠ n) :
    ∀ ch' ∈ o', ∀ r ∈ ch'.receivers,
      (∃ ch ∈ o, r ∈ ch.receivers ∧ trail r.call acts = []) ∨
      (∃ buffer size, r = ⟨n, p, buffer, size⟩ ∧ c = .mqReceive id buffer size ∧ 0 < size ∧
        acts = []) := by
  intro ch' hch' r hr
  cases hs with
  | destroy => cases hch'
  | create => cases hch'; cases hr
  | blockSend ch => cases hch'; exact .inl ⟨ch, rfl, hr, rfl⟩
  | blockReceive ch buffer size hsize =>
    cases hch'
    rcases List.mem_append.1 hr with hr | hr
    · exact .inl ⟨ch, rfl, hr, rfl⟩
    · exact .inr ⟨buffer, size, List.mem_singleton.1 hr, rfl, hsize, rfl⟩
  | send ch buffer size b m hsize hroom hr' hm =>
    cases hch'
    have hn := hlt ch rfl r (List.mem_append_left _ hr)
    exact .inl ⟨ch, rfl, hr, by simp [hm, Request.message, hn.symm]⟩
  | handOff ch buffer size b m r' rs hsize hroom hempty hr' hm =>
    cases hch'
    have hr2 : r ∈ ch.receivers := by rw [hr']; exact List.mem_cons_of_mem _ hr
    have hn := hlt ch rfl r (List.mem_append_left _ hr2)
    have hne : r'.call ≠ r.call := by
      have := hnd ch rfl
      rw [List.map_append, List.nodup_append, hr', List.map_cons, List.nodup_cons] at this
      exact fun h => this.1.1 (h ▸ List.mem_map_of_mem hr)
    exact .inl ⟨ch, rfl, hr2, by simp [hm, Request.message, hn.symm, hne, trail_receipt_ne hne]⟩
  | receive ch =>
    cases hch'
    have hn := hlt ch rfl r (List.mem_append_left _ hr)
    exact .inl ⟨ch, rfl, hr, by simp [hn.symm]⟩
  | complete ch buffer size m m' ms b r' rs hsize hm hfit hs hm' =>
    cases hch'
    have hn := hlt ch rfl r (List.mem_append_left _ hr)
    have hne : r'.call ≠ r.call := by
      have := hnd ch rfl
      rw [List.map_append, List.nodup_append] at this
      exact (this.2.2 _ (List.mem_map_of_mem hr) _ (by simp [hs])).symm
    exact .inl ⟨ch, rfl, hr, by simp [hm', Request.message, hn.symm, hne]⟩
  | drop ch =>
    cases hch'
    have hn := hlt ch rfl r (List.mem_append_left _ hr)
    exact .inl ⟨ch, rfl, hr, by simp [hn.symm]⟩

theorem ChanStep.enqueues_whole (hs : ChanStep n p id mem c o acts o' mem')
    (hsend : ∀ ch ∈ o, ∀ r ∈ ch.senders, 0 < r.size) : ∀ i, ∀ m ∈ enqueues i acts, m.Whole := by
  intro i m hm
  have hmem : ∃ i, Act.enqueue i m ∈ acts := by
    simp only [enqueues, List.mem_filterMap] at hm
    obtain ⟨b, hb, hbm⟩ := hm
    cases b <;> simp at hbm
    exact ⟨_, hbm.2 ▸ hb⟩
  obtain ⟨j, hj⟩ := hmem
  cases hs with
  | send ch buffer size b m' hsize hroom hr hm' =>
    have : m = m' := by simp at hj; exact hj.2
    exact this ▸ hm' ▸ Request.message_whole hsize.1
  | handOff ch buffer size b m' r rs hsize hroom hempty hr hm' =>
    have hnr : Act.enqueue j m ∉ r.receipt m' := fun h => by
      have := Request.receipt_queue _ h
      cases this
    have : m = m' := by simp [hnr] at hj; exact hj.2
    exact this ▸ hm' ▸ Request.message_whole hsize.1
  | complete ch buffer size m₁ m' ms b r rs hsize hm₁ hfit hs hm' =>
    have : m = m' := by simp at hj; exact hj.2
    exact this ▸ hm' ▸ Request.message_whole (hsend ch rfl r (by simp [hs]))
  | _ => simp at hj

/-! ## The new call -/

theorem ChanStep.trail_new {chan : Int → Option Chan} {pay : List UInt8}
    (hs : ChanStep n p id mem c o acts o' mem') (ho' : chan id = o')
    (hlt : ∀ ch ∈ o, ∀ r ∈ ch.receivers ++ ch.senders, r.call ≠ n)
    (hw : ∀ m ∈ contentsOf o, m.Whole) : Trail chan n (.issue n p c pay :: trail n acts) := by
  cases hs with
  | create size => simpa using .managed p _ pay id (.inl ⟨size, rfl⟩)
  | destroy ch =>
    have h1 : trail n ((ch.receivers ++ ch.senders).map
        fun r => Act.retval r.call dsosEMqNotOpen) = [] := by
      refine trail_eq_nil fun a ha => ?_
      obtain ⟨r, hr, rfl⟩ := List.mem_map.1 ha
      simpa using hlt ch rfl r hr
    have h2 : trail n (ch.contents.map (.discard id)) = [] := by
      refine trail_eq_nil fun a ha => ?_
      obtain ⟨m, -, rfl⟩ := List.mem_map.1 ha
      simp
    rw [trail_append, trail_append, h1, h2]
    simpa using .managed p _ pay id (.inr rfl)
  | blockSend ch buffer size => exact .sending p id buffer size pay _ ho' (by simp)
  | blockReceive ch buffer size => exact .receiving p id buffer size pay _ ho' (by simp)
  | send ch buffer size b m hsize hroom hr hm =>
    have hmn : m.call = n := by rw [hm]; rfl
    simpa [hmn] using .sent p id buffer size pay m hmn (by rw [hm]; rfl)
      (hm ▸ Request.message_whole hsize.1)
  | handOff ch buffer size b m r rs hsize hroom hempty hr hm =>
    have hmn : m.call = n := by rw [hm]; rfl
    have hne := hlt ch rfl r (by simp [hr])
    simpa [hmn, hne, trail_receipt_ne hne] using .sent p id buffer size pay m hmn (by rw [hm]; rfl)
      (hm ▸ Request.message_whole hsize.1)
  | receive ch buffer size m ms hsize hm hfit =>
    simpa using .received p id buffer size pay m hfit (hw m (by simp [hm]))
  | complete ch buffer size m m' ms b r rs hsize hm hfit hs hm' =>
    have hne := hlt ch rfl r (by simp [hs])
    simpa [hm', Request.message, hne] using
      .received p id buffer size pay m hfit (hw m (by simp [hm]))
  | drop ch buffer size m ms hsize hm hfit => simpa using .dropped p id buffer size pay m hfit

end

/-! ## Steps of the machine -/

section
variable {n k : Nat} {id : Int} {o o' : Option Chan} {acts t : List Act}
  {chan chan' : Int → Option Chan}

/-- The trail of an earlier call goes on with its part of a step. -/
theorem Part.extend (hp : Part id k (chan id) o' acts) (ht : Trail chan k t)
    (hid : chan' id = o') (hne : ∀ i, i ≠ id → chan' i = chan i)
    (hs : ∀ ch ∈ chan id, ∀ r ∈ ch.senders, r.call = k →
      ∃ pay, t = [.issue k r.pcb (.mqSend id r.buffer r.size) pay])
    (hr : ∀ ch ∈ chan id, ∀ r ∈ ch.receivers, r.call = k →
      ∃ pay, t = [.issue k r.pcb (.mqReceive id r.buffer r.size) pay]) :
    Trail chan' k (t ++ acts) := by
  cases hp with
  | none hs' hr' =>
    rw [List.append_nil]
    cases ht with
    | pass p c pay acts hc hacts => exact .pass p c pay acts hc hacts
    | managed p c pay i hc => exact .managed p c pay i hc
    | failed p c pay r hneg => exact .failed p c pay r hneg
    | sent p i buffer size pay m hcall hsize hwhole =>
      exact .sent p i buffer size pay m hcall hsize hwhole
    | received p i buffer size pay m hfit hwhole =>
      exact .received p i buffer size pay m hfit hwhole
    | dropped p i buffer size pay m hfit => exact .dropped p i buffer size pay m hfit
    | sending p i buffer size pay ch hch hmem =>
      by_cases hi : i = id
      · subst hi
        obtain ⟨ch', hch', hmem'⟩ := hs' ch hch _ hmem rfl
        exact .sending p i buffer size pay ch' (hid.trans hch') hmem'
      · exact .sending p i buffer size pay ch ((hne i hi).trans hch) hmem
    | receiving p i buffer size pay ch hch hmem =>
      by_cases hi : i = id
      · subst hi
        obtain ⟨ch', hch', hmem'⟩ := hr' ch hch _ hmem rfl
        exact .receiving p i buffer size pay ch' (hid.trans hch') hmem'
      · exact .receiving p i buffer size pay ch ((hne i hi).trans hch) hmem
  | sent ch r m hch hmem hk hcall hsize hwhole =>
    obtain ⟨pay, rfl⟩ := hs ch hch r hmem hk
    exact .sent r.pcb id r.buffer r.size pay m hcall hsize hwhole
  | received ch r m hch hmem hk hwhole =>
    obtain ⟨pay, rfl⟩ := hr ch hch r hmem hk
    unfold Request.receipt
    rw [hk]
    split
    · exact .dropped r.pcb id r.buffer r.size pay m ‹_›
    · exact .received r.pcb id r.buffer r.size pay m (by omega) hwhole
  | closed ch r hch hmem hk =>
    rcases hmem with hmem | hmem
    · obtain ⟨pay, rfl⟩ := hs ch hch r hmem hk
      exact .failed r.pcb _ pay _ (by decide)
    · obtain ⟨pay, rfl⟩ := hr ch hch r hmem hk
      exact .failed r.pcb _ pay _ (by decide)

/-- A blocked call stays pending while nothing is added to its trail. -/
theorem Pending.append {h : List Act} {r : Request} {c c' : Syscall} {p : PcbRef}
    {pay : List UInt8} (hp : Pending h r c) (hne : r.call ≠ n) (hacts : trail r.call acts = []) :
    Pending (h ++ (.issue n p c' pay :: acts)) r c := by
  obtain ⟨pay', hp⟩ := hp
  exact ⟨pay', by simp [hp, hacts, hne.symm]⟩

namespace Channels

variable {a a' : Channels} {e : Event}

/-- The calls blocked on one queue are different. -/
theorem Trails.nodup (ht : a.Trails) (hk : a.Kept) {ch : Chan} (hch : ch ∈ a.chan id) :
    ((ch.receivers ++ ch.senders).map (·.call)).Nodup := by
  have hl := hk id
  rw [Option.mem_def.1 hch] at hl
  rw [List.map_append]
  refine List.Nodup.append ?_ ?_ fun k hkr hks => ?_
  · exact (List.pairwise_append.1 hl.served).2.1.imp Nat.ne_of_lt
  · exact hl.sent.of_append_right
  · obtain ⟨r, hr, rfl⟩ := List.mem_map.1 hkr
    obtain ⟨r', hs, he⟩ := List.mem_map.1 hks
    obtain ⟨-, pay, h1⟩ := ht.receivers id ch hch r hr
    obtain ⟨-, pay', h2⟩ := ht.senders id ch hch r' hs
    rw [he, h1] at h2
    simp at h2

/-- They are earlier than the next call. -/
theorem Kept.blocked_lt (hk : a.Kept) {ch : Chan} (hch : ch ∈ a.chan id) {r : Request}
    (hr : r ∈ ch.receivers ++ ch.senders) : r.call < a.calls := by
  have hl := hk id
  rw [Option.mem_def.1 hch] at hl
  rcases List.mem_append.1 hr with hr | hr
  · exact hl.served_lt _ (List.mem_append_right _ (List.mem_map_of_mem hr))
  · exact hl.sent_lt _ (List.mem_append_right _ (List.mem_map_of_mem hr))

theorem Trails.blocked_pos (ht : a.Trails) {ch : Chan} (hch : ch ∈ a.chan id) {r : Request}
    (hr : r ∈ ch.receivers ++ ch.senders) : 0 < r.call := by
  have hne : trail r.call a.history ≠ [] := by
    rcases List.mem_append.1 hr with hr | hr
    · obtain ⟨-, pay, h⟩ := ht.receivers id ch hch r hr
      rw [h]
      exact List.cons_ne_nil _ _
    · obtain ⟨-, pay, h⟩ := ht.senders id ch hch r hr
      rw [h]
      exact List.cons_ne_nil _ _
  exact Nat.pos_of_ne_zero fun h0 => hne (ht.new _ (.inl h0))

theorem Trails.contents_whole (ht : a.Trails) (hk : a.Kept) :
    ∀ m ∈ contentsOf (a.chan id), m.Whole := fun m hm =>
  ht.whole id m ((hk id).account.mem_iff.1 (List.mem_append_right _ hm))

/-- The trails after a call, from what it adds to them. -/
theorem Trails.extend {p : PcbRef} {c : Syscall} {pay : List UInt8} (ht : a.Trails)
    (hcalls : a'.calls = a.calls + 1)
    (hh : a'.history = a.history ++ (.issue a.calls p c pay :: acts))
    (hnew : Trail a'.chan a.calls (.issue a.calls p c pay :: trail a.calls acts))
    (hold : ∀ k, 0 < k → k < a.calls → Trail a'.chan k (trail k a.history ++ trail k acts))
    (hlater : ∀ k, k = 0 ∨ a.calls < k → trail k acts = [])
    (hw : ∀ id, ∀ m ∈ enqueues id acts, m.Whole)
    (hs : ∀ id, ∀ ch ∈ a'.chan id, ∀ r ∈ ch.senders,
      SendSize r.size ∧ Pending a'.history r (.mqSend id r.buffer r.size))
    (hr : ∀ id, ∀ ch ∈ a'.chan id, ∀ r ∈ ch.receivers,
      0 < r.size ∧ Pending a'.history r (.mqReceive id r.buffer r.size)) : a'.Trails := by
  have hfirst := ht.first
  refine ⟨by omega, fun k h0 hk => ?_, fun k hk => ?_, fun id m hm => ?_, hs, hr⟩
  · rw [hh, trail_append, trail_cons, Act.callOf_issue]
    rcases Nat.lt_succ_iff_lt_or_eq.1 (hcalls ▸ hk) with hk | rfl
    · rw [if_neg (by simp; omega)]
      exact hold k h0 hk
    · rw [ht.new _ (.inr le_rfl), if_pos rfl, List.nil_append]
      exact hnew
  · rw [hh, trail_append, trail_cons, Act.callOf_issue, if_neg (by simp; omega),
      ht.new k (by omega), List.nil_append]
    exact hlater k (by omega)
  · rw [hh, enqueues_append] at hm
    rcases List.mem_append.1 hm with hm | hm
    · exact ht.whole id m hm
    · exact hw id m (by simpa [enqueues] using hm)

/-- A call that adds only its own return value, if anything. -/
theorem Trails.answer {p : PcbRef} {c : Syscall} (ht : a.Trails) (hk : a.Kept)
    (hacts : acts = [] ∨ ∃ r, acts = [.retval a.calls r])
    (hnew : Trail a.chan a.calls (.issue a.calls p c (c.payload a.mem) :: acts)) :
    ((a.issue p c).log acts).Trails := by
  have hne : ∀ k, k ≠ a.calls → trail k acts = [] := by
    intro k hk'
    rcases hacts with rfl | ⟨r, rfl⟩ <;> simp [hk'.symm]
  have hh : ((a.issue p c).log acts).history =
      a.history ++ (.issue a.calls p c (c.payload a.mem) :: acts) := by simp [issue, log]
  refine ht.extend rfl hh ?_ ?_ (fun k hk' => hne k (by have := ht.first; omega)) ?_ ?_ ?_
  · rcases hacts with rfl | ⟨r, rfl⟩ <;> simpa [issue, log] using hnew
  · intro k h0 hlt
    rw [hne k (by omega), List.append_nil]
    exact ht.old k h0 hlt
  · rcases hacts with rfl | ⟨r, rfl⟩ <;> simp [enqueues]
  · intro id ch hch r hr
    have hlt := hk.blocked_lt hch (List.mem_append_right _ hr)
    obtain ⟨h1, h2⟩ := ht.senders id ch hch r hr
    rw [hh]
    exact ⟨h1, h2.append (by omega) (hne _ (by omega))⟩
  · intro id ch hch r hr
    have hlt := hk.blocked_lt hch (List.mem_append_left _ hr)
    obtain ⟨h1, h2⟩ := ht.receivers id ch hch r hr
    rw [hh]
    exact ⟨h1, h2.append (by omega) (hne _ (by omega))⟩

/-- A call that is pending on one queue is not blocked on another. -/
theorem Trails.apart {r : Request} (ht : a.Trails) (hi : i ≠ id)
    (hp : Pending a.history r (.mqSend i r.buffer r.size) ∨
      Pending a.history r (.mqReceive i r.buffer r.size)) :
    ∀ ch ∈ a.chan id, ∀ r' ∈ ch.receivers ++ ch.senders, r'.call ≠ r.call := by
  intro ch hch r' hr' he
  rcases List.mem_append.1 hr' with hr' | hr'
  · obtain ⟨-, pay', h2⟩ := ht.receivers id ch hch r' hr'
    rcases hp with ⟨pay, h1⟩ | ⟨pay, h1⟩ <;> simp [he, h1, hi] at h2
  · obtain ⟨-, pay', h2⟩ := ht.senders id ch hch r' hr'
    rcases hp with ⟨pay, h1⟩ | ⟨pay, h1⟩ <;> simp [he, h1, hi] at h2

/-- A call on queue `id`: what it adds to the trails is its own, or completes a call blocked on the
queue. -/
theorem Trails.call {p : PcbRef} (ht : a.Trails) (hk : a.Kept)
    (hs : ChanStep a.calls p id a.mem c (a.chan id) acts o mem') :
    ((((a.issue p c).log acts).setChan id o).setMem mem').Trails := by
  have hnd : ∀ ch ∈ a.chan id, ((ch.receivers ++ ch.senders).map (·.call)).Nodup :=
    fun ch hch => ht.nodup hk hch
  have hlt : ∀ ch ∈ a.chan id, ∀ r ∈ ch.receivers ++ ch.senders, r.call < a.calls :=
    fun ch hch r hr => hk.blocked_lt hch hr
  have hlt' : ∀ ch ∈ a.chan id, ∀ r ∈ ch.receivers ++ ch.senders, r.call ≠ a.calls :=
    fun ch hch r hr => Nat.ne_of_lt (hlt ch hch r hr)
  have hsend : ∀ ch ∈ a.chan id, ∀ r ∈ ch.senders, 0 < r.size :=
    fun ch hch r hr => (ht.senders id ch hch r hr).1.1
  have hpart := fun k (hk' : k ≠ a.calls) => hs.part hk' hnd hsend
  have hh : ((((a.issue p c).log acts).setChan id o).setMem mem').history =
      a.history ++ (.issue a.calls p c (c.payload a.mem) :: acts) := by
    simp [issue, log, setChan, setMem]
  have hid' : ((((a.issue p c).log acts).setChan id o).setMem mem').chan id = o := by
    simp [setChan, setMem]
  have hother : ∀ i, i ≠ id →
      ((((a.issue p c).log acts).setChan id o).setMem mem').chan i = a.chan i := by
    intro i hi
    simp [setChan, setMem, issue, log, hi]
  refine ht.extend rfl hh ?_ ?_ ?_ (hs.enqueues_whole hsend) ?_ ?_
  · exact hs.trail_new hid' hlt' (ht.contents_whole hk)
  · intro k h0 hk'
    refine (hpart k (Nat.ne_of_lt hk')).extend (ht.old k h0 hk') hid' hother ?_ ?_
    · rintro ch hch r hr rfl
      exact (ht.senders id ch hch r hr).2
    · rintro ch hch r hr rfl
      exact (ht.receivers id ch hch r hr).2
  · intro k hk'
    have := ht.first
    refine (hpart k (by omega)).eq_nil fun ch hch r hr => ?_
    have h1 := hlt ch hch r hr
    have h2 := ht.blocked_pos hch hr
    omega
  · intro i ch' hch' r hr
    rw [hh]
    by_cases hi : i = id
    · subst hi
      rw [hid'] at hch'
      rcases hs.blocked_senders hnd hlt' ch' hch' r hr with
        ⟨ch, hch, hr', hacts⟩ | ⟨buffer, size, rfl, rfl, hsize, rfl⟩
      · obtain ⟨h1, h2⟩ := ht.senders i ch hch r hr'
        exact ⟨h1, h2.append (hlt' ch hch r (List.mem_append_right _ hr')) hacts⟩
      · exact ⟨hsize, (Syscall.mqSend i buffer size).payload a.mem,
          by simp [ht.new _ (.inr le_rfl)]⟩
    · rw [hother i hi] at hch'
      obtain ⟨h1, h2⟩ := ht.senders i ch' hch' r hr
      have hne := Nat.ne_of_lt (hk.blocked_lt hch' (List.mem_append_right _ hr))
      exact ⟨h1, h2.append hne ((hpart _ hne).eq_nil (ht.apart hi (.inl h2)))⟩
  · intro i ch' hch' r hr
    rw [hh]
    by_cases hi : i = id
    · subst hi
      rw [hid'] at hch'
      rcases hs.blocked_receivers hnd hlt' ch' hch' r hr with
        ⟨ch, hch, hr', hacts⟩ | ⟨buffer, size, rfl, rfl, hsize, rfl⟩
      · obtain ⟨h1, h2⟩ := ht.receivers i ch hch r hr'
        exact ⟨h1, h2.append (hlt' ch hch r (List.mem_append_left _ hr')) hacts⟩
      · exact ⟨hsize, (Syscall.mqReceive i buffer size).payload a.mem,
          by simp [ht.new _ (.inr le_rfl)]⟩
    · rw [hother i hi] at hch'
      obtain ⟨h1, h2⟩ := ht.receivers i ch' hch' r hr
      have hne := Nat.ne_of_lt (hk.blocked_lt hch' (List.mem_append_left _ hr))
      exact ⟨h1, h2.append hne ((hpart _ hne).eq_nil (ht.apart hi (.inr h2)))⟩

theorem Step.trails (h : a.Step e a') (hk : a.Kept) (ht : a.Trails) : a'.Trails := by
  cases h with
  | tick => exact ht
  | store => exact ⟨ht.first, ht.old, ht.new, ht.whole, ht.senders, ht.receivers⟩
  | pass p c acts hc hacts => exact ht.answer hk hacts (.pass p c _ acts hc hacts)
  | refuse p c r hc hr => exact ht.answer hk (.inr ⟨r, rfl⟩) (.failed p c _ r hr)
  | call p c id acts o mem hid hs => exact ht.call hk hs

/-! ## Reading a trail -/

/-- Every entry of a call is on a trail. -/
theorem Trails.of_mem (ht : a.Trails) {b : Act} (hb : b ∈ a.history) (hn : b.callOf = some n) :
    Trail a.chan n (trail n a.history) ∧ b ∈ trail n a.history := by
  have hm : b ∈ trail n a.history := mem_trail.2 ⟨hb, hn⟩
  refine ⟨ht.old n ?_ ?_, hm⟩ <;> by_contra h
  · rw [ht.new n (.inl (by omega))] at hm
    cases hm
  · rw [ht.new n (.inr (by omega))] at hm
    cases hm

end Channels

section
variable {chan : Int → Option Chan} {t : List Act} {pay : List UInt8} {buffer size r : Int}

/-- A send that completes with 0 has inserted one message of its size. -/
theorem Trail.sent_of (ht : Trail chan n t) (hi : .issue n p (.mqSend id buffer size) pay ∈ t)
    (hr : .retval n 0 ∈ t) : ∃ m, t = [.issue n p (.mqSend id buffer size) pay, .enqueue id m,
      .retval n 0] ∧ m.call = n ∧ m.size = size ∧ m.Whole := by
  cases ht with
  | sent p' id' buffer' size' pay' m hcall hsize hwhole =>
    simp only [List.mem_cons, Act.issue.injEq, Syscall.mqSend.injEq, reduceCtorEq,
      List.not_mem_nil, or_false, true_and] at hi
    obtain ⟨rfl, ⟨rfl, rfl, rfl⟩, rfl⟩ := hi
    exact ⟨m, rfl, hcall, hsize, hwhole⟩
  | managed p' c pay' id' hc => rcases hc with ⟨_, rfl⟩ | rfl <;> simp at hi
  | pass p' c pay' acts hc hacts =>
    rcases hacts with rfl | ⟨r, rfl⟩ <;> simp at hi <;> simp [← hi.2.1, Syscall.IsMq] at hc
  | failed p' c pay' r' hr' =>
    simp at hr
    omega
  | _ => simp at hi hr

/-- A send that completes with an error has inserted none. -/
theorem Trail.send_failed (ht : Trail chan n t) (hi : .issue n p (.mqSend id buffer size) pay ∈ t)
    (hr : .retval n r ∈ t) (h0 : r ≠ 0) :
    t = [.issue n p (.mqSend id buffer size) pay, .retval n r] := by
  cases ht with
  | managed p' c pay' id' hc => rcases hc with ⟨_, rfl⟩ | rfl <;> simp at hi
  | pass p' c pay' acts hc hacts =>
    rcases hacts with rfl | ⟨r, rfl⟩ <;> simp at hi <;> simp [← hi.2.1, Syscall.IsMq] at hc
  | failed p' c pay' r' hr' => simp_all
  | sent => simp [h0] at hr
  | _ => simp at hi hr

/-- A receive that completes with a size has removed one message of that size, which fits into its
buffer, and has been given its bytes. -/
theorem Trail.received_of (ht : Trail chan n t)
    (hi : .issue n p (.mqReceive id buffer size) pay ∈ t) (hr : .retval n r ∈ t) (h0 : 0 ≤ r) :
    ∃ m, t = [.issue n p (.mqReceive id buffer size) pay, .dequeue id m n,
      .deliver n buffer m.data, .retval n r] ∧ m.size = r ∧ r ≤ size ∧ m.Whole := by
  cases ht with
  | managed p' c pay' id' hc => rcases hc with ⟨_, rfl⟩ | rfl <;> simp at hi
  | pass p' c pay' acts hc hacts =>
    rcases hacts with rfl | ⟨r, rfl⟩ <;> simp at hi <;> simp [← hi.2.1, Syscall.IsMq] at hc
  | failed p' c pay' r' hr' =>
    simp at hr
    omega
  | received p' id' buffer' size' pay' m hfit hwhole =>
    simp only [List.mem_cons, Act.issue.injEq, Syscall.mqReceive.injEq, Act.retval.injEq,
      reduceCtorEq, List.not_mem_nil, or_false, false_or, true_and] at hi hr
    obtain ⟨rfl, ⟨rfl, rfl, rfl⟩, rfl⟩ := hi
    subst hr
    exact ⟨m, rfl, rfl, hfit, hwhole⟩
  | dropped =>
    simp only [List.mem_cons, Act.retval.injEq, reduceCtorEq, List.not_mem_nil, or_false,
      false_or, true_and] at hr
    exact absurd (hr ▸ h0) (by decide)
  | _ => simp at hi hr

/-- A receive that completes with an error has removed no message, unless its buffer was too small
for it. -/
theorem Trail.receive_failed (ht : Trail chan n t)
    (hi : .issue n p (.mqReceive id buffer size) pay ∈ t) (hr : .retval n r ∈ t) (h0 : r < 0) :
    t = [.issue n p (.mqReceive id buffer size) pay, .retval n r] ∨
      r = dsosEBuffer ∧ ∃ m, size < m.size ∧
        t = [.issue n p (.mqReceive id buffer size) pay, .dequeue id m n, .retval n r] := by
  cases ht with
  | managed p' c pay' id' hc => rcases hc with ⟨_, rfl⟩ | rfl <;> simp at hi
  | pass p' c pay' acts hc hacts =>
    rcases hacts with rfl | ⟨r, rfl⟩ <;> simp at hi <;> simp [← hi.2.1, Syscall.IsMq] at hc
  | failed p' c pay' r' hr' => simp_all
  | received p' id' buffer' size' pay' m hfit hwhole =>
    have := hwhole.pos
    simp only [List.mem_cons, Act.retval.injEq, reduceCtorEq, List.not_mem_nil, or_false,
      false_or, true_and] at hr
    omega
  | dropped p' id' buffer' size' pay' m hfit =>
    simp only [List.mem_cons, Act.issue.injEq, Syscall.mqReceive.injEq, Act.retval.injEq,
      reduceCtorEq, List.not_mem_nil, or_false, false_or, true_and] at hi hr
    obtain ⟨rfl, ⟨rfl, rfl, rfl⟩, rfl⟩ := hi
    subst hr
    exact .inr ⟨rfl, m, hfit, rfl⟩
  | _ => simp at hi hr

/-- A message is removed for a receive call that gets it or has too small a buffer. -/
theorem Trail.taken {m : Message} (ht : Trail chan n t) (hd : .dequeue id m n ∈ t) :
    ∃ p buffer size pay,
      (m.size ≤ size ∧ t = [.issue n p (.mqReceive id buffer size) pay, .dequeue id m n,
        .deliver n buffer m.data, .retval n m.size]) ∨
      (size < m.size ∧ t = [.issue n p (.mqReceive id buffer size) pay, .dequeue id m n,
        .retval n dsosEBuffer]) := by
  cases ht with
  | pass p' c pay' acts hc hacts => rcases hacts with rfl | ⟨r, rfl⟩ <;> simp at hd
  | received p' id' buffer' size' pay' m' hfit =>
    simp only [List.mem_cons, Act.dequeue.injEq, reduceCtorEq, List.not_mem_nil, or_false,
      false_or, and_true] at hd
    obtain ⟨rfl, rfl⟩ := hd
    exact ⟨p', buffer', size', pay', .inl ⟨hfit, rfl⟩⟩
  | dropped p' id' buffer' size' pay' m' hfit =>
    simp only [List.mem_cons, Act.dequeue.injEq, reduceCtorEq, List.not_mem_nil, or_false,
      false_or, and_true] at hd
    obtain ⟨rfl, rfl⟩ := hd
    exact ⟨p', buffer', size', pay', .inr ⟨hfit, rfl⟩⟩
  | _ => simp at hd

/-- Memory for messages never runs out, and the size of a blocked send is never found invalid. -/
theorem Trail.no_mishap (ht : Trail chan n t) (k : Nat) : .noMessage k ∉ t ∧ .badSize k ∉ t := by
  cases ht with
  | pass p c pay acts hc hacts => rcases hacts with rfl | ⟨r, rfl⟩ <;> simp
  | _ => simp

/-- A call is completed at most once. -/
theorem Trail.retval_once (ht : Trail chan n t) :
    (t.filter fun a => a matches .retval ..).length ≤ 1 := by
  cases ht with
  | pass p c pay acts hc hacts => rcases hacts with rfl | ⟨r, rfl⟩ <;> simp
  | _ => simp

end

end

end DisastrOS
