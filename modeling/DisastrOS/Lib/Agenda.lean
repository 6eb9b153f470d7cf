import Mathlib.Order.Lattice
import Mathlib.Tactic.Common

/-!
# Agendas

An agenda is a list of elements ordered by a key. A new element goes behind those with the same key
(`insertByKey`), and elements are removed. Each element is stamped with the number of the call that
has added it, so that `Stamped` says in which order elements with the same key are served.
-/

namespace Lib

variable {α β ε κ : Type} [LinearOrder κ]

/-- Puts `x` behind every element whose key is not greater. -/
def insertByKey (key : α → κ) (x : α) : List α → List α
  | [] => [x]
  | y :: ys => if key x < key y then x :: y :: ys else y :: insertByKey key x ys

/-- `a` is served before `b`. -/
def Earlier (key : α → κ) (a b : Nat × α) : Prop :=
  key a.2 < key b.2 ∨ key a.2 = key b.2 ∧ a.1 < b.1

/-- `xs` is an agenda whose elements come from the calls with their stamps; `A e x` says that the
call `e` adds `x`. -/
structure Stamped (key : α → κ) (A : ε → α → Prop) (calls : List ε) (xs : List (Nat × α)) :
    Prop where
  ordered : xs.Pairwise (Earlier key)
  added : ∀ y ∈ xs, ∃ e, calls[y.1]? = some e ∧ A e y.2

section
variable {key : α → κ} {x : α}

theorem insertByKey_perm (key : α → κ) (x : α) (xs : List α) :
    (insertByKey key x xs).Perm (x :: xs) := by
  induction xs with
  | nil => exact .refl _
  | cons y ys ih =>
    rw [insertByKey]
    split
    · exact .refl _
    · exact (ih.cons y).trans (.swap x y ys)

theorem sorted_insertByKey {xs : List α} (h : xs.Pairwise fun a b => key a ≤ key b) :
    (insertByKey key x xs).Pairwise fun a b => key a ≤ key b := by
  induction xs with
  | nil => exact List.pairwise_singleton _ _
  | cons y ys ih =>
    rw [insertByKey]
    obtain ⟨hy, hys⟩ := List.pairwise_cons.1 h
    split
    · rename_i hlt
      apply List.pairwise_cons.2 ⟨_, h⟩
      intro z hz
      rcases List.mem_cons.1 hz with rfl | hz
      · exact hlt.le
      · exact hlt.le.trans (hy z hz)
    · rename_i hle
      apply List.pairwise_cons.2 ⟨_, ih hys⟩
      intro z hz
      rcases List.mem_cons.1 ((insertByKey_perm _ _ ys).mem_iff.1 hz) with rfl | hz
      · exact not_lt.1 hle
      · exact hy z hz

theorem map_insertByKey (f : β → α) (x : β) (xs : List β) :
    (insertByKey (fun z => key (f z)) x xs).map f = insertByKey key (f x) (xs.map f) := by
  induction xs with
  | nil => rfl
  | cons y ys ih =>
    rw [insertByKey, List.map_cons, insertByKey]
    split
    · rfl
    · rw [List.map_cons, ih]

theorem Earlier.trans {a b c : Nat × α} (h : Earlier key a b) (h' : Earlier key b c) :
    Earlier key a c := by
  rcases h with h | ⟨h, hn⟩ <;> rcases h' with h' | ⟨h', hn'⟩
  · exact .inl (h.trans h')
  · exact .inl (h' ▸ h)
  · exact .inl (h ▸ h')
  · exact .inr ⟨h.trans h', hn.trans hn'⟩

/-- A new stamp makes an insertion stable. -/
theorem pairwise_insertByKey {n : Nat} {xs : List (Nat × α)} (h : xs.Pairwise (Earlier key))
    (hn : ∀ y ∈ xs, y.1 < n) :
    (insertByKey (fun y => key y.2) (n, x) xs).Pairwise (Earlier key) := by
  induction xs with
  | nil => exact List.pairwise_singleton _ _
  | cons y ys ih =>
    rw [insertByKey]
    obtain ⟨hy, hys⟩ := List.pairwise_cons.1 h
    split
    · rename_i hlt
      have hxy : Earlier key (n, x) y := .inl hlt
      apply List.pairwise_cons.2 ⟨_, h⟩
      intro z hz
      rcases List.mem_cons.1 hz with rfl | hz
      · exact hxy
      · exact hxy.trans (hy z hz)
    · rename_i hle
      apply List.pairwise_cons.2 ⟨_, ih hys fun z hz => hn z (List.mem_cons_of_mem _ hz)⟩
      intro z hz
      rcases List.mem_cons.1 ((insertByKey_perm _ _ ys).mem_iff.1 hz) with rfl | hz
      · rcases (not_lt.1 hle).lt_or_eq with hlt | heq
        · exact .inl hlt
        · exact .inr ⟨heq, hn y List.mem_cons_self⟩
      · exact hy z hz

namespace Stamped

variable {A : ε → α → Prop} {calls : List ε} {st st' : List (Nat × α)} {e : ε}

theorem nil : Stamped key A [] ([] : List (Nat × α)) := ⟨.nil, by simp⟩

theorem sublist (h : Stamped key A calls st) (hs : st'.Sublist st) : Stamped key A calls st' :=
  ⟨h.ordered.sublist hs, fun y hy => h.added y (hs.subset hy)⟩

/-- A call that adds nothing. -/
theorem drop (h : Stamped key A calls st) (hs : st'.Sublist st) (e : ε) :
    Stamped key A (calls ++ [e]) st' := by
  refine ⟨h.ordered.sublist hs, fun y hy => ?_⟩
  obtain ⟨e', he, hA⟩ := h.added y (hs.subset hy)
  obtain ⟨hlt, -⟩ := List.getElem?_eq_some_iff.1 he
  exact ⟨e', by rw [List.getElem?_append_left hlt, he], hA⟩

theorem lt_length (h : Stamped key A calls st) {y : Nat × α} (hy : y ∈ st) :
    y.1 < calls.length := by
  obtain ⟨e, he, -⟩ := h.added y hy
  exact (List.getElem?_eq_some_iff.1 he).1

/-- A call that adds an element, stamped with the number of the call. -/
theorem add (h : Stamped key A calls st) (hA : A e x) :
    Stamped key A (calls ++ [e]) (insertByKey (fun y => key y.2) (calls.length, x) st) := by
  refine ⟨pairwise_insertByKey h.ordered fun y hy => h.lt_length hy, fun y hy => ?_⟩
  rcases List.mem_cons.1 ((insertByKey_perm _ _ st).mem_iff.1 hy) with rfl | hy
  · exact ⟨e, by simp, hA⟩
  · exact (h.drop (.refl st) e).added y hy

theorem sorted (h : Stamped key A calls st) :
    (st.map Prod.snd).Pairwise fun a b => key a ≤ key b := by
  rw [List.pairwise_map]
  refine h.ordered.imp fun hab => ?_
  rcases hab with hab | hab
  · exact hab.le
  · exact hab.1.le

end Stamped

end

end Lib
