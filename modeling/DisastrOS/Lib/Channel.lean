import Mathlib.Data.List.Basic
import Mathlib.Data.List.Pairwise
import Mathlib.Data.List.Zip
import Mathlib.Tactic.Common

/-!
# Bounded channels

A channel holds messages of `μ`, at most `cap` of them, in the order in which they were put, and two
queues of blocked requests of `ρ`. `Move c side r ops c'` says what the arrival of the request `r`
may do: block it, complete it, or complete it together with the first blocked request of the other
side. `ops` are the messages that enter and leave, each with the request it belongs to.

* `Move.fifo`: what was in the channel followed by what is put is what is taken followed by what
  remains.
* `Move.sound`: nobody waits for a message while there is one.
* `Move.full`, `Move.not_full`: the same for free slots, unless the move is `Stranding`.
* `Move.receivers_order`, `Move.senders_order`: requests are served in order of arrival.

`Matching ps ts cs ws` is the same for the sequences of all puts and takes: the `i`-th take is
matched with the `i`-th put, in whichever order they come.
-/

namespace Lib

structure Channel (μ ρ : Type) where
  cap : Nat
  contents : List μ
  receivers : List ρ
  senders : List ρ

/-- A message put into or taken out of a channel, on behalf of a request. -/
inductive ChannelOp (μ ρ : Type)
  | put (r : ρ) (m : μ)
  | take (r : ρ) (m : μ)

inductive Side
  | send | receive
  deriving DecidableEq

namespace Channel

variable {μ ρ : Type}

/-- The messages put, with their requests. -/
def puts (ops : List (ChannelOp μ ρ)) : List (ρ × μ) := ops.filterMap fun
  | .put r m => some (r, m)
  | .take .. => none

/-- The messages taken, with their requests. -/
def takes (ops : List (ChannelOp μ ρ)) : List (ρ × μ) := ops.filterMap fun
  | .put .. => none
  | .take r m => some (r, m)

@[simp] theorem puts_nil : puts ([] : List (ChannelOp μ ρ)) = [] := rfl
@[simp] theorem takes_nil : takes ([] : List (ChannelOp μ ρ)) = [] := rfl

section
variable {r : ρ} {m : μ} {ops : List (ChannelOp μ ρ)}

@[simp] theorem puts_put : puts (.put r m :: ops) = (r, m) :: puts ops := rfl
@[simp] theorem puts_take : puts (.take r m :: ops) = puts ops := rfl
@[simp] theorem takes_put : takes (.put r m :: ops) = takes ops := rfl
@[simp] theorem takes_take : takes (.take r m :: ops) = (r, m) :: takes ops := rfl

end

inductive Move (c : Channel μ ρ) : Side → ρ → List (ChannelOp μ ρ) → Channel μ ρ → Prop
  | blockSender (r : ρ) (hfull : c.cap ≤ c.contents.length) :
      Move c .send r [] { c with senders := c.senders ++ [r] }
  | blockReceiver (r : ρ) (hempty : c.contents = []) :
      Move c .receive r [] { c with receivers := c.receivers ++ [r] }
  | send (r : ρ) (m : μ) (hroom : c.contents.length < c.cap) (hr : c.receivers = []) :
      Move c .send r [.put r m] { c with contents := c.contents ++ [m] }
  | handOff (r r' : ρ) (rs : List ρ) (m : μ) (hempty : c.contents = [])
      (hr : c.receivers = r' :: rs) (hroom : 0 < c.cap) :
      Move c .send r [.put r m, .take r' m] { c with receivers := rs }
  | receive (r : ρ) (m : μ) (ms : List μ) (hm : c.contents = m :: ms) :
      Move c .receive r [.take r m] { c with contents := ms }
  | letIn (r r' : ρ) (rs : List ρ) (m m' : μ) (ms : List μ) (hm : c.contents = m :: ms)
      (hs : c.senders = r' :: rs) :
      Move c .receive r [.take r m, .put r' m'] { c with contents := ms ++ [m'], senders := rs }

/-- A message leaves and no blocked sender is let in. -/
def Stranding (c : Channel μ ρ) (ops : List (ChannelOp μ ρ)) : Prop :=
  c.senders ≠ [] ∧ ∃ r m, ops = [.take r m]

/-- No receiver waits for a message that is there. -/
structure Sound (c : Channel μ ρ) : Prop where
  pos : 0 < c.cap
  bound : c.contents.length ≤ c.cap
  receivers : c.receivers ≠ [] → c.contents = []

/-- No sender waits for a slot that is free. -/
def Full (c : Channel μ ρ) : Prop := c.senders ≠ [] → c.contents.length = c.cap

section
variable {c c' : Channel μ ρ} {side : Side} {r : ρ} {ops : List (ChannelOp μ ρ)}

theorem sound_empty {n : Nat} (hn : 0 < n) : Sound (⟨n, [], [], []⟩ : Channel μ ρ) :=
  ⟨hn, Nat.zero_le _, fun _ => rfl⟩

theorem full_empty {n : Nat} : Full (⟨n, [], [], []⟩ : Channel μ ρ) := fun h => absurd rfl h

theorem Sound.receivers_nil (hc : Sound c) {m : μ} {ms : List μ} (hm : c.contents = m :: ms) :
    c.receivers = [] := by
  by_contra h
  rw [hc.receivers h] at hm
  cases hm

theorem Full.senders_nil (hf : Full c) (hroom : c.contents.length < c.cap) : c.senders = [] := by
  by_contra h
  have := hf h
  omega

/-- First in, first out. -/
theorem Move.fifo (h : Move c side r ops c') :
    c.contents ++ (puts ops).map (·.2) = (takes ops).map (·.2) ++ c'.contents := by
  cases h <;> simp_all

theorem Move.sound (h : Move c side r ops c') (hc : Sound c) : Sound c' := by
  have hb := hc.bound
  cases h with
  | blockSender => exact ⟨hc.pos, hb, hc.receivers⟩
  | blockReceiver _ hempty => exact ⟨hc.pos, hb, fun _ => hempty⟩
  | send _ m hroom hr => exact ⟨hc.pos, by simpa using Nat.succ_le_of_lt hroom, fun h => absurd hr h⟩
  | handOff _ r' rs m hempty => exact ⟨hc.pos, hb, fun _ => hempty⟩
  | receive _ m ms hm =>
    refine ⟨hc.pos, ?_, fun h => absurd (hc.receivers_nil hm) h⟩
    rw [hm, List.length_cons] at hb
    simp only
    omega
  | letIn _ r' rs m m' ms hm =>
    refine ⟨hc.pos, ?_, fun h => absurd (hc.receivers_nil hm) h⟩
    rw [hm] at hb
    simpa using hb

/-- Every move but a stranding one keeps blocked senders in front of a full channel. -/
theorem Move.full (h : Move c side r ops c') (hc : Sound c) (hf : Full c)
    (hn : ¬ Stranding c ops) : Full c' := by
  have hb := hc.bound
  cases h with
  | blockSender _ hfull => exact fun _ => Nat.le_antisymm hb hfull
  | blockReceiver => exact hf
  | send _ m hroom => exact fun h => absurd (hf.senders_nil hroom) h
  | handOff => exact hf
  | receive _ m ms hm =>
    intro h
    exact absurd ⟨h, _, _, rfl⟩ hn
  | letIn _ r' rs m m' ms hm hs =>
    intro _
    have := hf (by simp [hs])
    rw [hm] at this
    simpa using this

/-- A stranding move leaves a sender blocked in front of a free slot. -/
theorem Move.not_full (h : Move c side r ops c') (hc : Sound c) (hs : Stranding c ops) :
    ¬ Full c' := by
  obtain ⟨hs, _, _, ho⟩ := hs
  have hb := hc.bound
  cases h <;> simp_all [Full]
  omega

/-- Receive requests are served in order of arrival. -/
theorem Move.receivers_order (h : Move c side r ops c') (hc : Sound c) :
    (takes ops).map (·.1) ++ c'.receivers =
      c.receivers ++ (if side = .receive then [r] else []) := by
  cases h with
  | receive _ m ms hm => simp [hc.receivers_nil hm]
  | letIn _ r' rs m m' ms hm => simp [hc.receivers_nil hm]
  | _ => simp_all

/-- Send requests are served in order of arrival, as long as no move is stranding. -/
theorem Move.senders_order (h : Move c side r ops c') (hf : Full c) :
    (puts ops).map (·.1) ++ c'.senders = c.senders ++ (if side = .send then [r] else []) := by
  cases h with
  | send _ m hroom => simp [hf.senders_nil hroom]
  | handOff _ r' rs m hempty hr hroom => simp [hf.senders_nil (by simpa [hempty] using hroom)]
  | _ => simp_all

/-- No request is lost or served twice. -/
theorem Move.senders_perm (h : Move c side r ops c') :
    ((puts ops).map (·.1) ++ c'.senders).Perm (c.senders ++ (if side = .send then [r] else [])) := by
  cases h with
  | send => simpa using (List.perm_append_singleton r c.senders).symm
  | handOff => simpa using (List.perm_append_singleton r c.senders).symm
  | _ => simp_all

end

end Channel

/-! ## Matching -/

section
variable {α β : Type} {ps cs : List α} {ts ws : List β} {a : α} {b : β}

/-- The sequences `ps` of puts and `ts` of takes, matched in order: `cs` is what has been put and not
taken, and `ws` are the takes that wait. -/
structure Matching (ps : List α) (ts : List β) (cs : List α) (ws : List β) : Prop where
  contents : cs = ps.drop ts.length
  waiting : ws = ts.drop ps.length

theorem zip_snoc_of_le : ∀ {ps : List α} {ts : List β}, ts.length ≤ ps.length →
    (ps ++ [a]).zip ts = ps.zip ts
  | _, [], _ => by simp
  | [], _ :: _, h => absurd h (by simp)
  | p :: ps, t :: ts, h => by
    have h : ts.length ≤ ps.length := by simpa using h
    rw [List.cons_append, List.zip_cons_cons, zip_snoc_of_le h, List.zip_cons_cons]

theorem zip_snoc_of_drop : ∀ {ps : List α} {ts : List β}, ts.drop ps.length = b :: ws →
    (ps ++ [a]).zip ts = ps.zip ts ++ [(a, b)]
  | [], ts, h => by
    have h : ts = b :: ws := by simpa using h
    simp [h]
  | _ :: _, [], h => by simp at h
  | p :: ps, t :: ts, h => by
    have h : ts.drop ps.length = b :: ws := by simpa using h
    rw [List.cons_append, List.zip_cons_cons, zip_snoc_of_drop h, List.zip_cons_cons,
      List.cons_append]

namespace Matching

theorem symm (h : Matching ps ts cs ws) : Matching ts ps ws cs := ⟨h.waiting, h.contents⟩

/-- Nobody waits for what is put. -/
theorem put (h : Matching ps ts cs []) (a : α) :
    Matching (ps ++ [a]) ts (cs ++ [a]) [] ∧ (ps ++ [a]).zip ts = ps.zip ts := by
  have hle : ts.length ≤ ps.length := List.drop_eq_nil_iff.1 h.waiting.symm
  refine ⟨⟨?_, ?_⟩, zip_snoc_of_le hle⟩
  · rw [h.contents, List.drop_append_of_le_length hle]
  · rw [List.length_append, List.drop_eq_nil_of_le]
    omega

/-- Somebody waits for it. -/
theorem handOff (h : Matching ps ts cs (b :: ws)) (a : α) :
    Matching (ps ++ [a]) ts [] ws ∧ (ps ++ [a]).zip ts = ps.zip ts ++ [(a, b)] := by
  have hlt : ps.length < ts.length := by
    have := congrArg List.length h.waiting
    rw [List.length_cons, List.length_drop] at this
    omega
  refine ⟨⟨?_, ?_⟩, zip_snoc_of_drop h.waiting.symm⟩
  · rw [List.drop_eq_nil_of_le]
    rw [List.length_append, List.length_singleton]
    omega
  · rw [List.length_append, List.length_singleton, ← List.drop_drop, ← h.waiting]
    rfl

/-- Nobody waits while there is something to take. -/
theorem waiting_nil (h : Matching ps ts (a :: cs) ws) : ws = [] := by
  have hlt := congrArg List.length h.contents
  rw [List.length_cons, List.length_drop] at hlt
  rw [h.waiting, List.drop_eq_nil_of_le]
  omega

/-- There is nothing to take. -/
theorem block (h : Matching ps ts [] ws) (b : β) :
    Matching ps (ts ++ [b]) [] (ws ++ [b]) ∧ ps.zip (ts ++ [b]) = ps.zip ts := by
  obtain ⟨h1, h2⟩ := h.symm.put b
  refine ⟨h1.symm, ?_⟩
  rw [← List.zip_swap, h2, List.zip_swap]

/-- There is something. -/
theorem take (h : Matching ps ts (a :: cs) ws) (b : β) :
    Matching ps (ts ++ [b]) cs [] ∧ ps.zip (ts ++ [b]) = ps.zip ts ++ [(a, b)] := by
  obtain ⟨h1, h2⟩ := h.symm.handOff b
  refine ⟨h1.symm, ?_⟩
  rw [← List.zip_swap, h2, List.map_append, List.zip_swap]
  rfl

end Matching

end

/-! ## Increasing sequences -/

/-- What is served moves from the waiting sequence to the served one, and the new last member is
greater than all others. -/
theorem pairwise_lt_serve {done waiting out waiting' new : List Nat} {n : Nat}
    (h : (done ++ waiting).Pairwise (· < ·)) (hlt : ∀ k ∈ done ++ waiting, k < n)
    (hnew : new = [] ∨ new = [n]) (heq : out ++ waiting' = waiting ++ new) :
    (done ++ out ++ waiting').Pairwise (· < ·) := by
  rw [List.append_assoc, heq, ← List.append_assoc]
  rcases hnew with rfl | rfl
  · simpa using h
  · refine List.pairwise_append.2 ⟨h, List.pairwise_singleton _ _, fun a ha b hb => ?_⟩
    rw [List.mem_singleton.1 hb]
    exact hlt a ha

end Lib
