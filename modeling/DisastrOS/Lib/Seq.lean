import Mathlib.Data.List.Perm.Basic
import Mathlib.Data.List.Nodup
import Mathlib.Data.List.Range
import Mathlib.Tactic.Common

/-!
# Sequences

Lemmas about lists as sequences of nodes: insertion behind a given element (`insertAfter`), removal
of one occurrence, and the concatenation of a family of sequences of which one is replaced
(`flatMap_perm_of_eq`).
-/

namespace Lib

variable {α β : Type}

theorem nodup_snoc {x : α} {xs : List α} (hx : x ∉ xs) (hn : xs.Nodup) : (xs ++ [x]).Nodup :=
  (List.perm_append_singleton x xs).nodup_iff.2 (List.nodup_cons.2 ⟨hx, hn⟩)

theorem two_le_length_iff {x : α} {xs : List α} (hx : x ∈ xs) : 2 ≤ xs.length ↔ xs ≠ [x] := by
  cases xs with
  | nil => cases hx
  | cons y ys =>
    cases ys with
    | nil =>
      rw [List.mem_singleton] at hx
      simp [hx]
    | cons z zs => simp

/-- A key that occurs once selects one element. -/
theorem filter_key_eq [DecidableEq β] {f : α → β} {xs : List α} (hn : (xs.map f).Nodup) {x : α}
    (hx : x ∈ xs) : xs.filter (f · = f x) = [x] := by
  induction xs with
  | nil => cases hx
  | cons y ys ih =>
    rw [List.map_cons, List.nodup_cons] at hn
    rcases List.mem_cons.1 hx with rfl | hx
    · rw [List.filter_cons_of_pos (by simp), List.filter_eq_nil_iff.2]
      intro z hz he
      exact hn.1 (of_decide_eq_true he ▸ List.mem_map_of_mem hz)
    · rw [List.filter_cons_of_neg, ih hn.2 hx]
      intro he
      exact hn.1 (of_decide_eq_true he ▸ List.mem_map_of_mem hx)

/-- So a search for it finds that element. -/
theorem find?_key_eq_some [DecidableEq β] {f : α → β} {xs : List α} (hn : (xs.map f).Nodup) {k : β}
    {x : α} : xs.find? (f · = k) = some x ↔ x ∈ xs ∧ f x = k := by
  refine ⟨fun h => ⟨List.mem_of_find?_eq_some h, by simpa using List.find?_some h⟩, ?_⟩
  rintro ⟨hx, rfl⟩
  rw [← List.head?_filter, filter_key_eq hn hx, List.head?_cons]

theorem find?_congr {p p' : α → Bool} {xs : List α} (h : ∀ x ∈ xs, p x = p' x) :
    xs.find? p = xs.find? p' := by
  induction xs with
  | nil => rfl
  | cons x xs ih =>
    rw [List.find?_cons, List.find?_cons, h x List.mem_cons_self,
      ih fun y hy => h y (List.mem_cons_of_mem _ hy)]

/-- Sequences with the same keys have the same key at every place. -/
theorem key_eq_of_map_eq {f : α → β} {xs ys : List α} (h : xs.map f = ys.map f) {i : Nat} {x y : α}
    (hx : xs[i]? = some x) (hy : ys[i]? = some y) : f x = f y := by
  have := congrArg (·[i]?) h
  simpa [hx, hy] using this

/-- A search that finds `x` still does when other elements are removed. -/
theorem find?_sublist {p : α → Bool} {xs ys : List α} (hs : ys.Sublist xs) (hn : xs.Nodup) {x : α}
    (hx : x ∈ ys) (hf : xs.find? p = some x) : ys.find? p = some x := by
  induction hs with
  | slnil => cases hx
  | cons y hs ih =>
    have hne : y ≠ x := fun e => (List.nodup_cons.1 hn).1 (hs.subset (e ▸ hx))
    refine ih (List.nodup_cons.1 hn).2 hx ?_
    rw [List.find?_cons] at hf
    split at hf
    · exact absurd (Option.some.inj hf) hne
    · exact hf
  | cons_cons y hs ih =>
    rw [List.find?_cons] at hf ⊢
    split
    · rename_i hp
      rwa [hp] at hf
    · rename_i hp
      rw [hp] at hf
      have hne : y ≠ x := fun e => by
        have := List.find?_some hf
        rw [← e, hp] at this
        cases this
      exact ih (List.nodup_cons.1 hn).2 ((List.mem_cons.1 hx).resolve_left hne.symm) hf

/-- The removal of a key that occurs once removes all its elements. -/
theorem mem_eraseP_key [DecidableEq β] {f : α → β} {xs : List α} (hn : (xs.map f).Nodup) {k : β}
    {x : α} : x ∈ xs.eraseP (f · = k) ↔ x ∈ xs ∧ f x ≠ k := by
  induction xs with
  | nil => simp
  | cons y ys ih =>
    rw [List.map_cons, List.nodup_cons] at hn
    by_cases hy : f y = k
    · rw [List.eraseP_cons_of_pos (by simpa using hy), List.mem_cons]
      constructor
      · intro hx
        exact ⟨.inr hx, fun hk => hn.1 (hy ▸ hk ▸ List.mem_map_of_mem hx)⟩
      · rintro ⟨rfl | hx, hk⟩
        exacts [absurd hy hk, hx]
    · rw [List.eraseP_cons_of_neg (by simpa using hy), List.mem_cons, List.mem_cons, ih hn.2]
      constructor
      · rintro (rfl | hx)
        exacts [⟨.inl rfl, hy⟩, ⟨.inr hx.1, hx.2⟩]
      · rintro ⟨rfl | hx, hk⟩
        exacts [.inl rfl, .inr ⟨hx, hk⟩]

/-- Removing an element removes its key. -/
theorem map_erase_of_nodup [DecidableEq α] [DecidableEq β] {f : α → β} {xs : List α}
    (hn : (xs.map f).Nodup) {x : α} (hx : x ∈ xs) : (xs.erase x).map f = (xs.map f).erase (f x) := by
  induction xs with
  | nil => cases hx
  | cons y ys ih =>
    rw [List.map_cons, List.nodup_cons] at hn
    by_cases hxy : y = x
    · subst hxy
      simp
    · have hx' := (List.mem_cons.1 hx).resolve_left (Ne.symm hxy)
      have hne : f y ≠ f x := fun e => hn.1 (e ▸ List.mem_map_of_mem hx')
      rw [List.erase_cons_tail (by simpa using hxy), List.map_cons, List.map_cons,
        List.erase_cons_tail (by simpa using hne), ih hn.2 hx']

/-- Elements whose keys are in increasing order occur in that order. -/
theorem pair_sublist {f : α → Nat} {xs : List α} (h : (xs.map f).Pairwise (· < ·)) {x y : α}
    (hx : x ∈ xs) (hy : y ∈ xs) (hlt : f x < f y) : [x, y].Sublist xs := by
  induction xs with
  | nil => cases hx
  | cons z zs ih =>
    rw [List.map_cons, List.pairwise_cons] at h
    rcases List.mem_cons.1 hx with rfl | hx'
    · have hy' := (List.mem_cons.1 hy).resolve_left fun e => Nat.lt_irrefl _ (e ▸ hlt)
      exact (List.singleton_sublist.2 hy').cons_cons _
    · rcases List.mem_cons.1 hy with rfl | hy'
      · have := h.1 _ (List.mem_map_of_mem hx')
        omega
      · exact (ih h.2 hx' hy').cons _

/-- What a partial map reads off a list, written back, is a part of it. -/
theorem map_filterMap_sublist {f : α → Option β} {g : β → α} (hg : ∀ x y, f x = some y → g y = x)
    (xs : List α) : ((xs.filterMap f).map g).Sublist xs := by
  induction xs with
  | nil => exact .slnil
  | cons x xs ih =>
    cases hx : f x with
    | none =>
      rw [List.filterMap_cons_none hx]
      exact ih.cons _
    | some y =>
      rw [List.filterMap_cons_some hx, List.map_cons, hg x y hx]
      exact ih.cons_cons _

/-- What a partial map reads off a list without repetition comes from one element. -/
theorem filterMap_inj {f : α → Option β} {xs : List α} (hn : (xs.filterMap f).Nodup) {a b : α}
    {y : β} (ha : a ∈ xs) (hb : b ∈ xs) (hfa : f a = some y) (hfb : f b = some y) : a = b := by
  induction xs with
  | nil => cases ha
  | cons x xs ih =>
    have hin : ∀ {z}, z ∈ xs → f z = some y → y ∈ xs.filterMap f :=
      fun hz hfz => List.mem_filterMap.2 ⟨_, hz, hfz⟩
    rcases List.mem_cons.1 ha with rfl | ha' <;> rcases List.mem_cons.1 hb with rfl | hb'
    · rfl
    · rw [List.filterMap_cons_some hfa, List.nodup_cons] at hn
      exact absurd (hin hb' hfb) hn.1
    · rw [List.filterMap_cons_some hfb, List.nodup_cons] at hn
      exact absurd (hin ha' hfa) hn.1
    · exact ih (hn.sublist ((List.sublist_cons_self x xs).filterMap f)) ha' hb'

/-- Members without elements may be left out of the concatenation. -/
theorem flatMap_filter_of_nil {p : α → Bool} {f : α → List β} {is : List α}
    (h : ∀ i ∈ is, p i = false → f i = []) : (is.filter p).flatMap f = is.flatMap f := by
  induction is with
  | nil => rfl
  | cons i is ih =>
    have ih := ih fun j hj => h j (List.mem_cons_of_mem _ hj)
    cases hp : p i with
    | true => rw [List.filter_cons_of_pos hp, List.flatMap_cons, List.flatMap_cons, ih]
    | false =>
      rw [List.filter_cons_of_neg (by simp [hp]), List.flatMap_cons, h i List.mem_cons_self hp, ih,
        List.nil_append]

theorem length_flatMap_le {is : List α} {f : α → List β} {n : Nat}
    (h : ∀ i ∈ is, (f i).length ≤ n) : (is.flatMap f).length ≤ is.length * n := by
  induction is with
  | nil => simp
  | cons i is ih =>
    have h1 := h i List.mem_cons_self
    have h2 := ih fun j hj => h j (List.mem_cons_of_mem _ hj)
    rw [List.flatMap_cons, List.length_append, List.length_cons, Nat.add_mul]
    omega

section
variable [DecidableEq α]

/-- `x` put right behind `prev`, or at the front. -/
def insertAfter (prev : Option α) (x : α) : List α → List α
  | [] => [x]
  | y :: ys =>
    match prev with
    | none => x :: y :: ys
    | some p => if y = p then y :: x :: ys else y :: insertAfter prev x ys

theorem insertAfter_perm (prev : Option α) (x : α) : ∀ xs : List α,
    (insertAfter prev x xs).Perm (x :: xs)
  | [] => .refl _
  | y :: ys => by
    cases prev with
    | none => exact .refl _
    | some p =>
      simp only [insertAfter]
      split
      · exact .swap _ _ _
      · exact ((insertAfter_perm (some p) x ys).cons y).trans (.swap _ _ _)

/-- Insertion behind the last element of a head segment. -/
theorem insertAfter_getLast {ds : List α} (hn : ds.Nodup) (x : α) (ys : List α) :
    insertAfter ds.getLast? x (ds ++ ys) = ds ++ x :: ys := by
  induction ds with
  | nil => cases ys <;> rfl
  | cons d ds ih =>
    obtain ⟨hd, hn⟩ := List.nodup_cons.1 hn
    cases hl : ds.getLast? with
    | none =>
      rw [List.getLast?_eq_none_iff] at hl
      subst hl
      simp [insertAfter]
    | some p =>
      have hp : d ≠ p := fun e => hd (e ▸ List.mem_of_getLast? hl)
      have hg : (d :: ds).getLast? = some p := by simp [List.getLast?_cons, hl]
      rw [hl] at ih
      rw [hg, List.cons_append, insertAfter]
      simp only [hp, if_false]
      rw [ih hn, List.cons_append]

theorem idxOf_cons_le {x y : α} {ys : List α} : (x :: ys).idxOf y ≤ ys.idxOf y + 1 := by
  by_cases hx : x = y
  · subst hx
    simp
  · rw [List.idxOf_cons_ne _ hx]

/-- An insertion moves the other elements by at most one place. -/
theorem idxOf_insertAfter_le (prev : Option α) (x : α) {y : α} : ∀ {xs : List α}, y ∈ xs →
    (insertAfter prev x xs).idxOf y ≤ xs.idxOf y + 1
  | z :: zs, h => by
    cases prev with
    | none => exact idxOf_cons_le
    | some p =>
      rw [insertAfter]
      by_cases hz : z = y
      · subst hz
        split <;> simp
      have hy : y ∈ zs := (List.mem_cons.1 h).resolve_left (Ne.symm hz)
      rw [List.idxOf_cons_ne _ hz]
      split
      · rw [List.idxOf_cons_ne _ hz]
        exact Nat.succ_le_succ idxOf_cons_le
      · rw [List.idxOf_cons_ne _ hz]
        exact Nat.succ_le_succ (idxOf_insertAfter_le (some p) x hy)

theorem insertAfter_last {xs : List α} (hn : xs.Nodup) (x : α) :
    insertAfter xs.getLast? x xs = xs ++ [x] := by
  have h := insertAfter_getLast hn x []
  rwa [List.append_nil] at h

theorem erase_snoc_self {x : α} {xs : List α} (hx : x ∉ xs) : (xs ++ [x]).erase x = xs := by
  rw [List.erase_append_right _ hx]; simp

/-- The family's concatenation, with member `i` first. -/
theorem flatMap_perm_erase {is : List α} {i : α} (hi : i ∈ is) (f : α → List β) :
    (is.flatMap f).Perm (f i ++ (is.erase i).flatMap f) := by
  have h := (List.perm_cons_erase hi).flatMap_right f
  simpa using h

/-- Replacing member `i` of a family of sequences replaces its part of the concatenation. -/
theorem flatMap_perm_of_eq {is : List α} {i : α} (hn : is.Nodup) (hi : i ∈ is) {f g : α → List β}
    (hg : ∀ j, j ≠ i → g j = f j) :
    (is.flatMap g).Perm (g i ++ (is.erase i).flatMap f) := by
  refine (flatMap_perm_erase hi g).trans (List.Perm.append_left _ ?_)
  rw [List.flatMap_def, List.flatMap_def, List.map_congr_left fun j hj => hg j ?_]
  rintro rfl
  exact hn.not_mem_erase hj

/-- A member that gets the elements `bs` and loses the elements `as`. -/
theorem flatMap_perm_update {is : List α} {i : α} (hn : is.Nodup) (hi : i ∈ is) {f g : α → List β}
    (hg : ∀ j, j ≠ i → g j = f j) (as bs : List β) (h : (as ++ g i).Perm (bs ++ f i)) :
    (as ++ is.flatMap g).Perm (bs ++ is.flatMap f) := by
  have h1 := (flatMap_perm_of_eq hn hi hg).append_left as
  have h2 := (flatMap_perm_erase hi f).append_left bs
  have h3 := h.append_right ((is.erase i).flatMap f)
  rw [List.append_assoc, List.append_assoc] at h3
  exact h1.trans (h3.trans h2.symm)

/-- One member short of the bound makes the concatenation short of it. -/
theorem length_flatMap_lt {is : List α} {f : α → List β} {n : Nat}
    (h : ∀ i ∈ is, (f i).length ≤ n) {i : α} (hi : i ∈ is) (hlt : (f i).length < n) :
    (is.flatMap f).length < is.length * n := by
  have h1 : ((is.erase i).flatMap f).length ≤ (is.erase i).length * n :=
    length_flatMap_le fun j hj => h j (List.mem_of_mem_erase hj)
  have h2 := (flatMap_perm_erase hi f).length_eq
  have h3 := List.length_erase_of_mem hi
  have h4 := List.length_pos_of_mem hi
  rw [List.length_append] at h2
  obtain ⟨k, hk⟩ : ∃ k, is.length = k + 1 := ⟨is.length - 1, by omega⟩
  rw [h3, hk, Nat.add_sub_cancel] at h1
  rw [hk, Nat.add_mul]
  omega

end

end Lib
