import DisastrOS.Lib.Seq
import DisastrOS.Model.Types

/-!
# Reading the history

The messages that entered (`enqueues`) and left (`dequeues`, `discards`) the queue of an id, over
the whole history or since the queue's creation (`lifetime`), and what happened to one call
(`trail`).
-/

namespace DisastrOS

open Lib

/-- The queue id of an entry. -/
def Act.queue : Act → Option Int
  | .enqueue id _ | .dequeue id _ _ | .discard id _ | .create id | .destroy id => some id
  | _ => none

/-- The call of an entry; an enqueued message belongs to the call that sent it. -/
def Act.callOf : Act → Option Nat
  | .issue call .. | .retval call _ | .dequeue _ _ call | .deliver call .. | .noMessage call
  | .badSize call => some call
  | .enqueue _ m => some m.call
  | _ => none

/-- The messages inserted into queue `id`. -/
def enqueues (id : Int) (h : List Act) : List Message := h.filterMap fun
  | .enqueue i m => if i = id then some m else none
  | _ => none

/-- The messages received from queue `id`. -/
def dequeues (id : Int) (h : List Act) : List Message := h.filterMap fun
  | .dequeue i m _ => if i = id then some m else none
  | _ => none

/-- The receive calls that they were removed for. -/
def dequeueCalls (id : Int) (h : List Act) : List Nat := h.filterMap fun
  | .dequeue i _ call => if i = id then some call else none
  | _ => none

/-- The messages freed with queue `id`. -/
def discards (id : Int) (h : List Act) : List Message := h.filterMap fun
  | .discard i m => if i = id then some m else none
  | _ => none

/-- The history since the last creation of queue `id`. -/
def lifetime (id : Int) (h : List Act) : List Act :=
  h.foldl (fun acc a => if a = .create id then [] else acc ++ [a]) []

/-- The history of one call. -/
def trail (n : Nat) (h : List Act) : List Act := h.filter (·.callOf = some n)

/-- The numbers of the calls, in the order in which they were issued. -/
def issueCalls (h : List Act) : List Nat := h.filterMap fun
  | .issue n .. => some n
  | _ => none

/-- The entry `a` stands before the entry `b`. -/
def Before (h : List Act) (a b : Act) : Prop := [a, b].Sublist h

instance (h : List Act) (a b : Act) : Decidable (Before h a b) :=
  inferInstanceAs (Decidable ([a, b].Sublist h))

section
variable {id i : Int} {n k : Nat} {h h' : List Act} {m : Message} {a : Act}

@[simp] theorem enqueues_append : enqueues id (h ++ h') = enqueues id h ++ enqueues id h' :=
  List.filterMap_append

@[simp] theorem dequeues_append : dequeues id (h ++ h') = dequeues id h ++ dequeues id h' :=
  List.filterMap_append

@[simp] theorem dequeueCalls_append :
    dequeueCalls id (h ++ h') = dequeueCalls id h ++ dequeueCalls id h' := List.filterMap_append

@[simp] theorem discards_append : discards id (h ++ h') = discards id h ++ discards id h' :=
  List.filterMap_append

@[simp] theorem issueCalls_append : issueCalls (h ++ h') = issueCalls h ++ issueCalls h' :=
  List.filterMap_append

@[simp] theorem trail_append : trail n (h ++ h') = trail n h ++ trail n h' := List.filter_append ..

/-! ## Entries of other queues -/

theorem enqueues_eq_nil (hq : ∀ a ∈ h, a.queue ≠ some id) : enqueues id h = [] := by
  refine List.filterMap_eq_nil_iff.2 fun a ha => ?_
  have := hq a ha
  cases a <;> simp_all [Act.queue]

theorem dequeues_eq_nil (hq : ∀ a ∈ h, a.queue ≠ some id) : dequeues id h = [] := by
  refine List.filterMap_eq_nil_iff.2 fun a ha => ?_
  have := hq a ha
  cases a <;> simp_all [Act.queue]

theorem dequeueCalls_eq_nil (hq : ∀ a ∈ h, a.queue ≠ some id) : dequeueCalls id h = [] := by
  refine List.filterMap_eq_nil_iff.2 fun a ha => ?_
  have := hq a ha
  cases a <;> simp_all [Act.queue]

theorem discards_eq_nil (hq : ∀ a ∈ h, a.queue ≠ some id) : discards id h = [] := by
  refine List.filterMap_eq_nil_iff.2 fun a ha => ?_
  have := hq a ha
  cases a <;> simp_all [Act.queue]

/-! ## Lifetimes -/

theorem lifetime_append (hc : .create id ∉ h') : lifetime id (h ++ h') = lifetime id h ++ h' := by
  induction h' generalizing h with
  | nil => simp
  | cons a h' ih =>
    rw [List.mem_cons, not_or] at hc
    rw [List.append_cons, ih hc.2, List.append_cons]
    simp [lifetime, Ne.symm hc.1]

theorem lifetime_create (hc : .create id ∉ h') :
    lifetime id (h ++ .create id :: h') = h' := by
  rw [List.append_cons, lifetime_append hc]
  simp [lifetime]

/-! ## Trails -/

section
variable {p : PcbRef} {c : Syscall} {pay : List UInt8} {r addr : Int}

@[simp] theorem Act.callOf_issue : (Act.issue k p c pay).callOf = some k := rfl
@[simp] theorem Act.callOf_retval : (Act.retval k r).callOf = some k := rfl
@[simp] theorem Act.callOf_enqueue : (Act.enqueue id m).callOf = some m.call := rfl
@[simp] theorem Act.callOf_dequeue : (Act.dequeue id m k).callOf = some k := rfl
@[simp] theorem Act.callOf_deliver : (Act.deliver k addr pay).callOf = some k := rfl
@[simp] theorem Act.callOf_discard : (Act.discard id m).callOf = none := rfl
@[simp] theorem Act.callOf_create : (Act.create id).callOf = none := rfl
@[simp] theorem Act.callOf_destroy : (Act.destroy id).callOf = none := rfl

end

@[simp] theorem trail_nil : trail n [] = [] := rfl

@[simp] theorem trail_cons :
    trail n (a :: h) = if a.callOf = some n then a :: trail n h else trail n h := by
  simp [trail, List.filter_cons]

theorem mem_trail : a ∈ trail n h ↔ a ∈ h ∧ a.callOf = some n := by simp [trail]

theorem mem_dequeues : m ∈ dequeues id h ↔ ∃ n, .dequeue id m n ∈ h := by
  refine List.mem_filterMap.trans ⟨?_, fun ⟨n, hm⟩ => ⟨_, hm, if_pos rfl⟩⟩
  rintro ⟨a, ha, he⟩
  cases a <;> simp_all
  exact ⟨_, ha⟩

theorem mem_discards : m ∈ discards id h ↔ .discard id m ∈ h := by
  refine List.mem_filterMap.trans ⟨?_, fun hm => ⟨_, hm, if_pos rfl⟩⟩
  rintro ⟨a, ha, he⟩
  cases a <;> simp_all

/-- A message that has been removed once has been removed for one call. -/
theorem dequeue_inj (hn : (dequeues id h).Nodup) (h1 : .dequeue id m n ∈ h)
    (h2 : .dequeue id m k ∈ h) : n = k := by
  have := filterMap_inj hn h1 h2 (if_pos rfl) (if_pos rfl)
  simpa using this

/-- The messages of one call. -/
theorem enqueues_trail : enqueues id (trail n h) = (enqueues id h).filter (·.call = n) := by
  induction h with
  | nil => rfl
  | cons a h ih =>
    rw [trail_cons]
    cases a <;> simp only [enqueues] at ih ⊢ <;> grind [Act.callOf]

/-- Calls that are numbered in the order of their issue come in the order of their numbers. -/
theorem Before.lt {c c' : Syscall} {p p' : PcbRef} {pay pay' : List UInt8}
    (hb : Before h (.issue n p c pay) (.issue k p' c' pay'))
    (hi : (issueCalls h).Pairwise (· < ·)) : n < k := by
  have := hi.sublist (hb.filterMap _)
  simpa using this

theorem Before.enqueues {m' : Message} (hb : Before h (.enqueue id m) (.enqueue id m')) :
    [m, m'].Sublist (enqueues id h) := by
  have hs : (DisastrOS.enqueues id [.enqueue id m, .enqueue id m']).Sublist
      (DisastrOS.enqueues id h) := hb.filterMap _
  have he : DisastrOS.enqueues id [.enqueue id m, .enqueue id m'] = [m, m'] := by
    simp [DisastrOS.enqueues]
  rwa [he] at hs

/-- Messages whose calls are in increasing order were inserted in that order. -/
theorem before_enqueue {m' : Message} (hs : ((enqueues id h).map (·.call)).Pairwise (· < ·))
    (hm : m ∈ enqueues id h) (hm' : m' ∈ enqueues id h) (hlt : m.call < m'.call) :
    Before h (.enqueue id m) (.enqueue id m') := by
  refine ((pair_sublist hs hm hm' hlt).map (Act.enqueue id)).trans ?_
  refine map_filterMap_sublist (fun a m he => ?_) h
  cases a <;> grind

theorem trail_eq_nil (hn : ∀ a ∈ h, a.callOf ≠ some n) : trail n h = [] := by
  simpa [trail, List.filter_eq_nil_iff] using hn

end

end DisastrOS
