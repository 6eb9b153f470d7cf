import Mathlib.Data.List.Nodup
import Mathlib.Tactic.Common

/-!
# Linked nodes

`next` gives the node that each node points to, if there is one. A list of nodes is a path if each
node points to the one behind it (`Path`), and it is linked if there is also a path back
(`Linked`). A node is put between two neighbours by `splice` and taken out again by `unsplice`;
the two are the same for both directions, so each fact about paths is used once for either.
-/

namespace Lib

variable {α : Type}

/-- Following `next` from `k` visits the nodes of the list and ends at `j`. -/
def Path (next : α → Option α) : Option α → List α → Option α → Prop
  | k, [], j => k = j
  | k, x :: xs, j => k = some x ∧ Path next (next x) xs j

/-- A path from `first` to an end, and the way back from `last`. -/
structure Linked (next prev : α → Option α) (first last : Option α) (xs : List α) : Prop where
  forward : Path next first xs none
  backward : Path prev last xs.reverse none

section
variable {next next' prev prev' : α → Option α} {first last k k' j m : Option α} {x : α}
  {xs ys as bs : List α}

/-! ## Paths -/

theorem path_append :
    Path next k (as ++ bs) j ↔ ∃ m, Path next k as m ∧ Path next m bs j := by
  induction as generalizing k with
  | nil => simp [Path]
  | cons a as ih =>
    simp only [List.cons_append, Path, ih]
    constructor
    · rintro ⟨hk, m, h1, h2⟩
      exact ⟨m, ⟨hk, h1⟩, h2⟩
    · rintro ⟨m, ⟨hk, h1⟩, h2⟩
      exact ⟨hk, m, h1, h2⟩

theorem path_snoc : Path next k (as ++ [x]) j ↔ Path next k as (some x) ∧ next x = j := by
  rw [path_append]
  constructor
  · rintro ⟨m, h1, rfl, h2⟩
    exact ⟨h1, h2⟩
  · rintro ⟨h1, h2⟩
    exact ⟨some x, h1, rfl, h2⟩

namespace Path

/-- Only the nodes that are visited matter. -/
theorem congr (h : Path next k xs j) (hn : ∀ i ∈ xs, next' i = next i) : Path next' k xs j := by
  induction xs generalizing k with
  | nil => exact h
  | cons x xs ih =>
    obtain ⟨hk, h⟩ := h
    refine ⟨hk, ?_⟩
    rw [hn x List.mem_cons_self]
    exact ih h fun i hi => hn i (List.mem_cons_of_mem _ hi)

/-- A path starts at its first node. -/
theorem head (h : Path next k xs none) : k = xs.head? := by
  cases xs with
  | nil => exact h
  | cons x xs => exact h.1

theorem unique (h : Path next k xs none) (h' : Path next k ys none) : xs = ys := by
  induction xs generalizing k ys with
  | nil =>
    cases ys with
    | nil => rfl
    | cons y ys =>
      have h1 : k = none := h
      cases h1.symm.trans h'.1
  | cons x xs ih =>
    cases ys with
    | nil =>
      have h1 : k = none := h'
      cases h1.symm.trans h.1
    | cons y ys =>
      obtain ⟨rfl, h⟩ := h
      obtain ⟨hxy, h'⟩ := h'
      cases hxy
      rw [ih h h']

/-- No node is met twice. -/
theorem nodup (h : Path next k xs none) : xs.Nodup := by
  induction xs generalizing k with
  | nil => exact List.nodup_nil
  | cons x xs ih =>
    obtain ⟨-, h⟩ := h
    refine List.nodup_cons.2 ⟨fun hx => ?_, ih h⟩
    -- the path from `x` would go through `x` again, and so be longer than itself
    obtain ⟨as, bs, rfl⟩ := List.append_of_mem hx
    obtain ⟨m, -, hm, h2⟩ := path_append.1 h
    have heq := congrArg List.length (h.unique h2)
    simp only [List.length_append, List.length_cons] at heq
    omega

/-- A node points to the one behind it. -/
theorem next_eq (h : Path next k (as ++ x :: bs) none) : next x = bs.head? := by
  obtain ⟨m, -, -, h⟩ := path_append.1 h
  exact h.head

/-- The last node of a segment is made to point elsewhere. -/
theorem redirect (h : Path next k as m) (hn : as.Nodup) (hk : k' = if as = [] then j else k)
    (hlast : ∀ p, as.getLast? = some p → next' p = j)
    (hsame : ∀ i ∈ as, as.getLast? ≠ some i → next' i = next i) : Path next' k' as j := by
  rcases List.eq_nil_or_concat as with rfl | ⟨init, p, rfl⟩
  · exact hk.trans (if_pos rfl)
  · rw [List.concat_eq_append] at *
    rw [if_neg (by simp)] at hk
    rw [hk, path_snoc]
    have hp : p ∉ init := fun hp => (List.nodup_append.1 hn).2.2 p hp p (by simp) rfl
    refine ⟨(path_snoc.1 h).1.congr fun i hi => ?_, hlast p (by simp)⟩
    apply hsame i (List.mem_append_left _ hi)
    intro he
    rw [List.getLast?_concat] at he
    cases he
    exact hp hi

end Path

/-! ## Linked nodes -/

namespace Linked

theorem nodup (h : Linked next prev first last xs) : xs.Nodup := h.forward.nodup

theorem first_eq (h : Linked next prev first last xs) : first = xs.head? := h.forward.head

theorem last_eq (h : Linked next prev first last xs) : last = xs.getLast? := by
  rw [h.backward.head, List.head?_reverse]

theorem next_eq (h : Linked next prev first last (as ++ x :: bs)) : next x = bs.head? :=
  h.forward.next_eq

/-- The same nodes from the other end. -/
theorem symm (h : Linked next prev first last (as ++ x :: bs)) :
    Linked prev next last first (bs.reverse ++ x :: as.reverse) := by
  have hb := h.backward
  rw [List.reverse_append, List.reverse_cons, List.append_assoc] at hb
  refine ⟨hb, ?_⟩
  simpa using h.forward

theorem prev_eq (h : Linked next prev first last (as ++ x :: bs)) : prev x = as.getLast? :=
  h.symm.next_eq.trans List.head?_reverse

theorem first_iff (h : Linked next prev first last (as ++ x :: bs)) :
    first = some x ↔ as = [] := by
  rw [h.first_eq]
  cases as with
  | nil => simp
  | cons a as =>
    have hn := (List.nodup_cons.1 h.nodup).1
    have hne : a ≠ x := by
      rintro rfl
      exact hn (by simp)
    simp [hne]

theorem last_iff (h : Linked next prev first last (as ++ x :: bs)) : last = some x ↔ bs = [] :=
  h.symm.first_iff.trans List.reverse_eq_nil_iff

/-- A node that is both the first and the last. -/
theorem eq_singleton (h : Linked next prev (some x) (some x) xs) : xs = [x] := by
  obtain ⟨as, bs, rfl⟩ := List.append_of_mem (List.mem_of_head? h.first_eq.symm)
  rw [h.first_iff.1 rfl, h.last_iff.1 rfl]
  rfl

theorem congr (h : Linked next prev first last xs)
    (hn : ∀ i ∈ xs, next' i = next i) (hp : ∀ i ∈ xs, prev' i = prev i) :
    Linked next' prev' first last xs :=
  ⟨h.forward.congr hn, h.backward.congr fun i hi => hp i (List.mem_reverse.1 hi)⟩

end Linked

end

/-! ## Insertion and removal -/

section
variable [DecidableEq α] {next prev : α → Option α} {first last k : Option α} {x i : α}
  {p n : Option α} {xs as bs : List α}

/-- The pointers of one direction when `x` has been put between `p` and `n`. -/
def splice (next : α → Option α) (x : α) (p n : Option α) : α → Option α := fun i =>
  if i = x then n else if some i = p then some x else next i

/-- The pointers when `x` has been taken out from between `p` and `n`. -/
def unsplice (next : α → Option α) (x : α) (p n : Option α) : α → Option α := fun i =>
  if i = x then none else if some i = p then n else next i

@[simp] theorem splice_self : splice next x p n x = n := if_pos rfl

@[simp] theorem unsplice_self : unsplice next x p n x = none := if_pos rfl

/-- Only `x` and the node before it are changed. -/
theorem splice_of_ne (hx : i ≠ x) (hp : some i ≠ p) : splice next x p n i = next i := by
  rw [splice, if_neg hx, if_neg hp]

theorem unsplice_of_ne (hx : i ≠ x) (hp : some i ≠ p) : unsplice next x p n i = next i := by
  rw [unsplice, if_neg hx, if_neg hp]

theorem unsplice_splice (hx : next x = none) (hp : ∀ i, p = some i → next i = n) :
    unsplice (splice next x p n) x p n = next := by
  funext i
  by_cases hi : i = x
  · rw [hi, unsplice_self, hx]
  · by_cases hpi : some i = p
    · rw [unsplice, if_neg hi, if_pos hpi, hp i hpi.symm]
    · rw [unsplice_of_ne hi hpi, splice_of_ne hi hpi]

namespace Path

theorem insert (h : Path next k (as ++ bs) none) (hx : x ∉ as ++ bs) :
    Path (splice next x as.getLast? bs.head?) (if as = [] then some x else k) (as ++ x :: bs)
      none := by
  have hn := List.nodup_append.1 h.nodup
  obtain ⟨m, h1, h2⟩ := path_append.1 h
  rw [List.mem_append, not_or] at hx
  refine path_append.2 ⟨some x, h1.redirect hn.1 rfl (fun p hp => ?_) fun i hi hl => ?_, rfl, ?_⟩
  · have hne : p ≠ x := fun e => hx.1 (e ▸ List.mem_of_getLast? hp)
    rw [splice, if_neg hne, if_pos hp.symm]
  · exact splice_of_ne (fun e => hx.1 (e ▸ hi)) (Ne.symm hl)
  · rw [splice_self, ← h2.head]
    refine h2.congr fun i hi => splice_of_ne (fun e => hx.2 (e ▸ hi)) fun hl => ?_
    exact hn.2.2 i (List.mem_of_getLast? hl.symm) i hi rfl

theorem remove (h : Path next k (as ++ x :: bs) none) :
    Path (unsplice next x as.getLast? bs.head?) (if as = [] then bs.head? else k) (as ++ bs)
      none := by
  have hn := List.nodup_append.1 h.nodup
  obtain ⟨hxb, -⟩ := List.nodup_cons.1 hn.2.1
  obtain ⟨m, h1, -, h2⟩ := path_append.1 h
  have hxa : x ∉ as := fun hx => hn.2.2 x hx x List.mem_cons_self rfl
  refine path_append.2 ⟨bs.head?, h1.redirect hn.1 rfl (fun p hp => ?_) fun i hi hl => ?_, ?_⟩
  · have hne : p ≠ x := fun e => hxa (e ▸ List.mem_of_getLast? hp)
    rw [unsplice, if_neg hne, if_pos hp.symm]
  · exact unsplice_of_ne (fun e => hxa (e ▸ hi)) (Ne.symm hl)
  · rw [← h2.head]
    refine h2.congr fun i hi => unsplice_of_ne (fun e => hxb (e ▸ hi)) fun hl => ?_
    exact hn.2.2 i (List.mem_of_getLast? hl.symm) i (List.mem_cons_of_mem _ hi) rfl

end Path

namespace Linked

/-- `x` is put between `as` and `bs`. -/
theorem insert (h : Linked next prev first last (as ++ bs)) (hx : x ∉ as ++ bs) :
    Linked (splice next x as.getLast? bs.head?) (splice prev x bs.head? as.getLast?)
      (if as = [] then some x else first) (if bs = [] then some x else last)
      (as ++ x :: bs) := by
  refine ⟨h.forward.insert hx, ?_⟩
  have hb := h.backward
  rw [List.reverse_append] at hb
  have h1 := hb.insert (x := x) fun hm => hx <| by
    rwa [← List.reverse_append, List.mem_reverse] at hm
  simpa using h1

/-- `x` is taken out. -/
theorem remove (h : Linked next prev first last (as ++ x :: bs)) :
    Linked (unsplice next x as.getLast? bs.head?) (unsplice prev x bs.head? as.getLast?)
      (if as = [] then bs.head? else first) (if bs = [] then as.getLast? else last)
      (as ++ bs) := by
  refine ⟨h.forward.remove, ?_⟩
  simpa using h.symm.forward.remove

end Linked

end

end Lib
