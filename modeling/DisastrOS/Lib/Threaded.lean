import Mathlib.Tactic.Common

/-!
# Lists threaded through an array

`next` gives the index that each node of an array holds, if it is a node. A list of nodes is
threaded through it from `k` if `k` is the first node, each node holds the index of the one behind
it, and the last one holds `null`, which is no node. Such a list is determined by where it starts
(`Threaded.unique`), so it does not meet a node twice (`Threaded.nodup`).
-/

namespace Lib

/-- Following `next` from `k` visits the nodes of the list and ends at `null`. -/
def Threaded (next : Nat → Option Int) (null : Int) : Int → List Nat → Prop
  | k, [] => k = null
  | k, i :: is => k = i ∧ ∃ v, next i = some v ∧ Threaded next null v is

namespace Threaded

variable {next next' : Nat → Option Int} {null k : Int} {i : Nat} {is js : List Nat}

/-- Only the nodes that are visited matter. -/
theorem congr (h : Threaded next null k is) (hn : ∀ i ∈ is, next' i = next i) :
    Threaded next' null k is := by
  induction is generalizing k with
  | nil => exact h
  | cons i is ih =>
    obtain ⟨hk, v, hv, h⟩ := h
    refine ⟨hk, v, ?_, ih h fun j hj => hn j (List.mem_cons_of_mem _ hj)⟩
    rw [hn i List.mem_cons_self, hv]

theorem unique (h0 : null < 0) (h : Threaded next null k is) (h' : Threaded next null k js) :
    is = js := by
  induction is generalizing k js with
  | nil =>
    cases js with
    | nil => rfl
    | cons j js =>
      have h1 : k = null := h
      have h2 : k = j := h'.1
      omega
  | cons i is ih =>
    cases js with
    | nil =>
      have h1 : k = i := h.1
      have h2 : k = null := h'
      omega
    | cons j js =>
      obtain ⟨hi, v, hv, h⟩ := h
      obtain ⟨hj, w, hw, h'⟩ := h'
      obtain rfl : i = j := by omega
      have hvw : v = w := Option.some.inj (hv.symm.trans hw)
      rw [ih h (hvw ▸ h')]

/-- The rest of the list is threaded from each of its nodes. -/
theorem suffix (h : Threaded next null k (is ++ i :: js)) : Threaded next null i (i :: js) := by
  induction is generalizing k with
  | nil => exact ⟨rfl, h.2⟩
  | cons j is ih =>
    obtain ⟨-, v, -, h⟩ := h
    exact ih h

/-- No node is met twice. -/
theorem nodup (h0 : null < 0) (h : Threaded next null k is) : is.Nodup := by
  induction is generalizing k with
  | nil => exact List.nodup_nil
  | cons i is ih =>
    obtain ⟨hk, v, hv, h'⟩ := h
    refine List.nodup_cons.2 ⟨fun hi => ?_, ih h'⟩
    -- the list would have to go on for ever
    obtain ⟨as, bs, rfl⟩ := List.append_of_mem hi
    have hall : Threaded next null i (i :: (as ++ i :: bs)) := ⟨rfl, v, hv, h'⟩
    have heq := h'.suffix.unique h0 hall
    have hlen := congrArg List.length heq
    simp only [List.length_cons, List.length_append] at hlen
    omega

end Threaded

end Lib
