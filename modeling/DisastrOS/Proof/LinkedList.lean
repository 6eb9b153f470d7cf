import Mathlib.Logic.Function.Basic
import DisastrOS.Lib.Linked
import DisastrOS.Lib.Seq
import DisastrOS.Model.LinkedList
import DisastrOS.Model.State

/-!
# The linked lists are sequences

`Heap.Holds`: the heads have disjoint lists, each linked in both directions. On such memory
`List_insert` and `List_detach` do to the list of a head what `insertAfter` and `List.erase` do to a
sequence, and nothing to the other lists (`lists_refine`). `List_insert` takes an item that is alone
on a list for one that is on none, and refuses the other members (`refuses_iff`).
-/

namespace DisastrOS

open Lib

variable {α ι : Type}

/-- The heads have these lists, of which no two share an item. -/
structure Heap.Holds (h : Heap α ι) (lists : ι → List α) : Prop where
  linked : ∀ l, Linked h.next h.prev (h.heads l).first (h.heads l).last (lists l)
  size : ∀ l, (h.heads l).size = (lists l).length
  disjoint : ∀ l l', l ≠ l' → (lists l).Disjoint (lists l')

/-- At most the head `l` and the items `xs` differ. -/
structure Heap.Frame (h h' : Heap α ι) (l : ι) (xs : List α) : Prop where
  heads : ∀ l', l' ≠ l → h'.heads l' = h.heads l'
  items : ∀ i, i ∉ xs → h'.items i = h.items i

namespace Heap

variable {h h' : Heap α ι} {lists : ι → List α} {l j : ι} {p n prev : Option α} {x i : α}
  {as bs xs ys : List α}

/-! ## The lists of the heads -/

/-- An operation between `as` and `bs` stays within them. -/
theorem neighbours_subset : x :: as.getLast?.toList ++ bs.head?.toList ⊆ x :: (as ++ bs) := by
  intro i hi
  simp only [List.cons_append, List.mem_cons, List.mem_append, Option.mem_toList] at hi ⊢
  rcases hi with hi | hi | hi
  · exact .inl hi
  · exact .inr (.inl (List.mem_of_getLast? hi))
  · exact .inr (.inr (List.mem_of_head? hi))

theorem Frame.mono (hf : Frame h h' l xs) (hxs : xs ⊆ ys) : Frame h h' l ys :=
  ⟨hf.heads, fun i hi => hf.items i fun hm => hi (hxs hm)⟩

/-- The list of another head. -/
theorem Frame.linked (hf : Frame h h' l xs) (hj : j ≠ l) (hxs : ys.Disjoint xs)
    (hl : Linked h.next h.prev (h.heads j).first (h.heads j).last ys) :
    Linked h'.next h'.prev (h'.heads j).first (h'.heads j).last ys := by
  rw [hf.heads j hj]
  exact hl.congr (fun i hi => congrArg ListItem.next (hf.items i (hxs hi)))
    fun i hi => congrArg ListItem.prev (hf.items i (hxs hi))

namespace Holds

/-- A place in the list of `l` is behind a member, or at the front. -/
theorem place (hp : ∀ p ∈ prev, p ∈ lists l) :
    ∃ as bs, lists l = as ++ bs ∧ prev = as.getLast? := by
  cases prev with
  | none => exact ⟨[], lists l, rfl, rfl⟩
  | some p =>
    obtain ⟨as, bs, hl⟩ := List.append_of_mem (hp p rfl)
    refine ⟨as ++ [p], bs, ?_, by simp⟩
    rw [hl, List.append_assoc]
    rfl

/-- What is behind a place. -/
theorem next_place (hh : h.Holds lists) (hl : lists l = as ++ bs) :
    as.getLast?.elim (h.heads l).first h.next = bs.head? := by
  have hlink := hh.linked l
  rw [hl] at hlink
  rcases List.eq_nil_or_concat as with rfl | ⟨init, p, rfl⟩
  · exact hlink.first_eq
  · rw [List.concat_eq_append, List.append_assoc] at hlink
    rw [List.concat_eq_append, List.getLast?_concat]
    exact hlink.next_eq

/-- What is before a place. -/
theorem prev_place (hh : h.Holds lists) (hl : lists l = as ++ bs) :
    bs.head?.elim (h.heads l).last h.prev = as.getLast? := by
  have hlink := hh.linked l
  rw [hl] at hlink
  cases bs with
  | nil =>
    rw [List.append_nil] at hlink
    exact hlink.last_eq
  | cons b bs => exact hlink.prev_eq

/-- The links of a member are null if it has no neighbour. -/
theorem unlinked_iff (hh : h.Holds lists) (hx : x ∈ lists j) :
    h.items x = ⟨none, none⟩ ↔ lists j = [x] := by
  have hlink := hh.linked j
  obtain ⟨as, bs, hj⟩ := List.append_of_mem hx
  rw [hj] at hlink ⊢
  have hn := hlink.next_eq
  have hp := hlink.prev_eq
  constructor
  · intro hnull
    rw [show h.next x = none from congrArg ListItem.next hnull] at hn
    rw [show h.prev x = none from congrArg ListItem.prev hnull] at hp
    rw [List.head?_eq_none_iff.1 hn.symm, List.getLast?_eq_none_iff.1 hp.symm]
    rfl
  · intro hone
    obtain ⟨rfl, hbs⟩ : as = [] ∧ bs = [] := by
      rw [List.append_eq_singleton_iff] at hone
      simpa using hone
    subst hbs
    exact ListItem.ext hn hp

/-- Only the list of `l` has changed. -/
theorem replace [DecidableEq ι] (hh : h.Holds lists) (hf : Frame h h' l xs)
    (hxs : ∀ j, j ≠ l → (lists j).Disjoint xs) (hys : ∀ j, j ≠ l → (lists j).Disjoint ys)
    (hl : Linked h'.next h'.prev (h'.heads l).first (h'.heads l).last ys)
    (hsize : (h'.heads l).size = ys.length) : h'.Holds (Function.update lists l ys) := by
  refine ⟨fun j => ?_, fun j => ?_, fun i j hij => ?_⟩
  · by_cases hj : j = l
    · subst hj
      rwa [Function.update_self]
    · rw [Function.update_of_ne hj]
      exact hf.linked hj (hxs j hj) (hh.linked j)
  · by_cases hj : j = l
    · subst hj
      rwa [Function.update_self]
    · rw [Function.update_of_ne hj, hf.heads j hj]
      exact hh.size j
  · by_cases hi : i = l
    · subst hi
      rw [Function.update_self, Function.update_of_ne (Ne.symm hij)]
      exact fun x hx hx' => hys j (Ne.symm hij) hx' hx
    · rw [Function.update_of_ne hi]
      by_cases hj : j = l
      · subst hj
        rw [Function.update_self]
        exact hys i hi
      · rw [Function.update_of_ne hj]
        exact hh.disjoint i j hij

end Holds

variable [DecidableEq α] [DecidableEq ι]

/-! ## The links after an operation -/

/-- `x` is linked between `p` and `n`. -/
def inserted (h : Heap α ι) (l : ι) (p n : Option α) (x : α) : Heap α ι where
  items i := ⟨splice h.next x p n i, splice h.prev x n p i⟩
  heads j := if j = l then
      ⟨if p = none then some x else (h.heads l).first,
        if n = none then some x else (h.heads l).last, (h.heads l).size + 1⟩
    else h.heads j

/-- `x` is unlinked from between `p` and `n`. -/
def detached (h : Heap α ι) (l : ι) (p n : Option α) (x : α) : Heap α ι where
  items i := ⟨unsplice h.next x p n i, unsplice h.prev x n p i⟩
  heads j := if j = l then
      ⟨if (h.heads l).first = some x then n else (h.heads l).first,
        if (h.heads l).last = some x then p else (h.heads l).last, (h.heads l).size - 1⟩
    else h.heads j

theorem next_inserted : (inserted h l p n x).next = splice h.next x p n := rfl

theorem prev_inserted : (inserted h l p n x).prev = splice h.prev x n p := rfl

theorem next_detached : (detached h l p n x).next = unsplice h.next x p n := rfl

theorem prev_detached : (detached h l p n x).prev = unsplice h.prev x n p := rfl

theorem heads_inserted_self : (inserted h l p n x).heads l =
    ⟨if p = none then some x else (h.heads l).first,
      if n = none then some x else (h.heads l).last, (h.heads l).size + 1⟩ := if_pos rfl

theorem heads_detached_self : (detached h l p n x).heads l =
    ⟨if (h.heads l).first = some x then n else (h.heads l).first,
      if (h.heads l).last = some x then p else (h.heads l).last, (h.heads l).size - 1⟩ := if_pos rfl

theorem frame_inserted : Frame h (inserted h l p n x) l (x :: p.toList ++ n.toList) where
  heads _ hl := if_neg hl
  items i hi := by
    simp only [List.cons_append, List.mem_cons, List.mem_append, Option.mem_toList, not_or] at hi
    exact ListItem.ext (splice_of_ne hi.1 (Ne.symm hi.2.1)) (splice_of_ne hi.1 (Ne.symm hi.2.2))

theorem frame_detached : Frame h (detached h l p n x) l (x :: p.toList ++ n.toList) where
  heads _ hl := if_neg hl
  items i hi := by
    simp only [List.cons_append, List.mem_cons, List.mem_append, Option.mem_toList, not_or] at hi
    exact ListItem.ext (unsplice_of_ne hi.1 (Ne.symm hi.2.1))
      (unsplice_of_ne hi.1 (Ne.symm hi.2.2))

theorem listInsert_refused (hx : h.items x ≠ ⟨none, none⟩) :
    h.listInsert l p x = (none, h) := by
  unfold Heap.listInsert
  rw [if_pos]
  by_contra hc
  rw [not_or, Option.not_isSome_iff_eq_none, Option.not_isSome_iff_eq_none] at hc
  exact hx (ListItem.ext hc.1 hc.2)

/-- The head and the result do not depend on where `p` is. -/
theorem listInsert_heads (hx : h.items x = ⟨none, none⟩)
    (hnext : p.elim (h.heads l).first h.next = n) :
    (h.listInsert l p x).1 = some x ∧
      ∀ j, (h.listInsert l p x).2.heads j = (inserted h l p n x).heads j := by
  have hxn : h.next x = none := congrArg ListItem.next hx
  have hxp : h.prev x = none := congrArg ListItem.prev hx
  unfold Heap.listInsert
  rw [if_neg (by simp [hxn, hxp]), hnext]
  clear hnext
  refine ⟨rfl, fun j => ?_⟩
  by_cases hj : j = l <;> cases p <;> cases n <;> simp [inserted, hj]

theorem listInsert_eq (hx : h.items x = ⟨none, none⟩) (hp : some x ≠ p) (hn : some x ≠ n)
    (hnext : p.elim (h.heads l).first h.next = n) :
    h.listInsert l p x = (some x, inserted h l p n x) := by
  obtain ⟨hfst, hheads⟩ := listInsert_heads hx hnext
  refine Prod.ext hfst (ext_links (fun i => ?_) (fun i => ?_) hheads)
  all_goals
    have hxn : h.next x = none := congrArg ListItem.next hx
    have hxp : h.prev x = none := congrArg ListItem.prev hx
    unfold Heap.listInsert
    rw [if_neg (by simp [hxn, hxp]), hnext]
    clear hnext
  · rw [next_inserted, splice]
    by_cases hi : i = x
    · subst hi
      cases p <;> cases n <;> simp_all
    · cases p <;> cases n <;> simp [hi]
  · rw [prev_inserted, splice]
    by_cases hi : i = x
    · subst hi
      cases p <;> cases n <;> simp_all
    · cases p <;> cases n <;> simp [hi]

/-- The item is linked to its neighbours, even if it is one of them itself. -/
theorem listInsert_links (hx : h.items x = ⟨none, none⟩)
    (hnext : p.elim (h.heads l).first h.next = n) :
    (p ≠ none → (h.listInsert l p x).2.prev x ≠ none) ∧
      (n ≠ none → (h.listInsert l p x).2.next x ≠ none) := by
  have hxn : h.next x = none := congrArg ListItem.next hx
  have hxp : h.prev x = none := congrArg ListItem.prev hx
  unfold Heap.listInsert
  rw [if_neg (by simp [hxn, hxp]), hnext]
  clear hnext
  constructor
  · intro hp
    cases p with
    | none => exact absurd rfl hp
    | some p =>
      cases n with
      | none => simp
      | some n => by_cases hn : x = n <;> simp [hn]
  · intro hn
    cases n with
    | none => exact absurd rfl hn
    | some n => cases p <;> simp

theorem listDetach_eq (h : Heap α ι) (l : ι) (x : α) :
    h.listDetach l x = (x, detached h l (h.prev x) (h.next x) x) := by
  unfold Heap.listDetach
  generalize h.prev x = p
  generalize h.next x = n
  refine Prod.ext rfl (ext_links (fun i => ?_) (fun i => ?_) (fun j => ?_))
  · rw [next_detached, unsplice]
    by_cases hi : i = x <;> cases p <;> cases n <;> simp [hi]
  · rw [prev_detached, unsplice]
    by_cases hi : i = x <;> cases p <;> cases n <;> simp [hi]
  · by_cases hj : j = l
    · subst hj
      by_cases hf : (h.heads j).first = some x <;> by_cases hl : (h.heads j).last = some x <;>
        cases p <;> cases n <;> simp [detached, hf, hl]
    · cases p <;> cases n <;> simp [detached, hj]

/-- An item that is put between two neighbours and taken out again. -/
theorem detached_inserted (hx : h.items x = ⟨none, none⟩) (hp : ∀ i, p = some i → h.next i = n)
    (hn : ∀ i, n = some i → h.prev i = p) (hf : (h.heads l).first ≠ some x)
    (hl : (h.heads l).last ≠ some x) (hpf : p = none → (h.heads l).first = n)
    (hnl : n = none → (h.heads l).last = p) :
    detached (inserted h l p n x) l p n x = h := by
  refine ext_links (fun i => ?_) (fun i => ?_) (fun j => ?_)
  · rw [next_detached, next_inserted, unsplice_splice (congrArg ListItem.next hx) hp]
  · rw [prev_detached, prev_inserted, unsplice_splice (congrArg ListItem.prev hx) hn]
  · by_cases hj : j = l
    · rw [hj, heads_detached_self, heads_inserted_self]
      have hfirst : (if (if p = none then some x else (h.heads l).first) = some x then n
          else (if p = none then some x else (h.heads l).first)) = (h.heads l).first := by
        by_cases hp0 : p = none
        · rw [if_pos hp0, if_pos rfl, hpf hp0]
        · rw [if_neg hp0, if_neg hf]
      have hlast : (if (if n = none then some x else (h.heads l).last) = some x then p
          else (if n = none then some x else (h.heads l).last)) = (h.heads l).last := by
        by_cases hn0 : n = none
        · rw [if_pos hn0, if_pos rfl, hnl hn0]
        · rw [if_neg hn0, if_neg hl]
      rw [hfirst, hlast, Int.add_sub_cancel]
    · exact (if_neg hj).trans (if_neg hj)

/-! ## The functions -/

namespace Holds

/-- `List_insert` behind `as`, and `List_detach` after it. -/
theorem insert (hh : h.Holds lists) (hl : lists l = as ++ bs) (hx : ∀ j, x ∉ lists j)
    (hnull : h.items x = ⟨none, none⟩) :
    ∃ h', h.listInsert l as.getLast? x = (some x, h') ∧
      h'.Holds (Function.update lists l (as ++ x :: bs)) ∧ Frame h h' l (x :: lists l) ∧
      h'.listDetach l x = (x, h) := by
  have hxl := hl ▸ hx l
  have hlink := hh.linked l
  rw [hl] at hlink
  have hxa : some x ≠ as.getLast? := fun e =>
    hxl (List.mem_append_left _ (List.mem_of_getLast? e.symm))
  have hxb : some x ≠ bs.head? := fun e =>
    hxl (List.mem_append_right _ (List.mem_of_head? e.symm))
  have hp := hh.prev_place hl
  have hn := hh.next_place hl
  have hf : Frame h (inserted h l as.getLast? bs.head? x) l (x :: lists l) :=
    frame_inserted.mono (hl ▸ neighbours_subset)
  refine ⟨_, listInsert_eq hnull hxa hxb hn, hh.replace hf ?_ ?_ ?_ ?_, hf, ?_⟩
  · intro j hj i hi hm
    rcases List.mem_cons.1 hm with rfl | hm
    · exact hx j hi
    · exact hh.disjoint j l hj hi hm
  · intro j hj i hi hm
    rcases List.mem_cons.1 (List.perm_middle.mem_iff.1 hm) with rfl | hm
    · exact hx j hi
    · exact hh.disjoint j l hj hi (hl ▸ hm)
  · rw [next_inserted, prev_inserted, heads_inserted_self]
    simpa using hlink.insert hxl
  · rw [heads_inserted_self, hh.size l, hl]
    simp only [List.length_append, List.length_cons]
    omega
  · rw [listDetach_eq, next_inserted, prev_inserted, splice_self, splice_self]
    refine Prod.ext rfl (detached_inserted hnull (fun i hi => ?_) (fun i hi => ?_) ?_ ?_ ?_ ?_)
    · rw [hi] at hn
      exact hn
    · rw [hi] at hp
      exact hp
    · rw [hlink.first_eq]
      exact fun e => hxl (List.mem_of_head? e)
    · rw [hlink.last_eq]
      exact fun e => hxl (List.mem_of_getLast? e)
    · intro hnone
      rw [hnone] at hn
      exact hn
    · intro hnone
      rw [hnone] at hp
      exact hp

/-- `List_detach` of the member between `as` and `bs`. -/
theorem detach (hh : h.Holds lists) (hl : lists l = as ++ x :: bs) :
    ∃ h', h.listDetach l x = (x, h') ∧ h'.Holds (Function.update lists l (as ++ bs)) ∧
      h'.items x = ⟨none, none⟩ ∧ Frame h h' l (lists l) := by
  have hlink := hh.linked l
  rw [hl] at hlink
  have hn := List.nodup_cons.1 (List.perm_middle.nodup_iff.1 hlink.nodup)
  have hf : Frame h (detached h l as.getLast? bs.head? x) l (lists l) := by
    refine frame_detached.mono fun i hi => ?_
    rw [hl, List.perm_middle.mem_iff]
    exact neighbours_subset hi
  rw [listDetach_eq, hlink.prev_eq, hlink.next_eq]
  refine ⟨_, rfl, hh.replace hf (fun j hj => hh.disjoint j l hj) ?_ ?_ ?_, ?_, hf⟩
  · intro j hj i hi hm
    apply hh.disjoint j l hj hi
    rw [hl, List.perm_middle.mem_iff]
    exact List.mem_cons_of_mem _ hm
  · rw [next_detached, prev_detached, heads_detached_self]
    simpa only [hlink.first_iff, hlink.last_iff] using hlink.remove
  · rw [heads_detached_self, hh.size l, hl]
    simp only [List.length_append, List.length_cons]
    omega
  · exact ListItem.ext unsplice_self unsplice_self

/-- `List_insert` behind a member, or at the front. -/
theorem insert_after (hh : h.Holds lists) (hprev : ∀ p ∈ prev, p ∈ lists l)
    (hx : ∀ j, x ∉ lists j) (hnull : h.items x = ⟨none, none⟩) :
    ∃ h', h.listInsert l prev x = (some x, h') ∧
      h'.Holds (Function.update lists l (insertAfter prev x (lists l))) ∧
      Frame h h' l (x :: lists l) ∧ h'.listDetach l x = (x, h) := by
  obtain ⟨as, bs, hl, rfl⟩ := place hprev
  have hn := (hh.linked l).nodup
  rw [hl, List.nodup_append] at hn
  have hseq : insertAfter as.getLast? x (lists l) = as ++ x :: bs := by
    rw [hl, insertAfter_getLast hn.1]
  rw [hseq]
  exact hh.insert hl hx hnull

/-- `List_detach` of a member. -/
theorem detach_erase (hh : h.Holds lists) (hx : x ∈ lists l) :
    ∃ h', h.listDetach l x = (x, h') ∧
      h'.Holds (Function.update lists l ((lists l).erase x)) ∧
      h'.items x = ⟨none, none⟩ ∧ Frame h h' l (lists l) := by
  obtain ⟨as, bs, hl⟩ := List.append_of_mem hx
  have hn := (hh.linked l).nodup
  rw [hl, List.nodup_append] at hn
  have hxa : x ∉ as := fun hm => hn.2.2 x hm x List.mem_cons_self rfl
  have hseq : (lists l).erase x = as ++ bs := by
    rw [hl, List.erase_append_right _ hxa, List.erase_cons_head]
  rw [hseq]
  exact hh.detach hl

/-- **The list functions are those of sequences**: `List_insert` puts an item that is on no list
behind a member, or at the front, `List_detach` takes a member out and clears its links, and the
other lists stay as they are. Taking out what was put in restores the memory. -/
theorem lists_refine (hh : h.Holds lists) (l : ι) :
    (∀ prev x, (∀ p ∈ prev, p ∈ lists l) → (∀ j, x ∉ lists j) → h.items x = ⟨none, none⟩ →
      ∃ h', h.listInsert l prev x = (some x, h') ∧
        h'.Holds (Function.update lists l (insertAfter prev x (lists l))) ∧
        Frame h h' l (x :: lists l) ∧ h'.listDetach l x = (x, h)) ∧
    ∀ x ∈ lists l, ∃ h', h.listDetach l x = (x, h') ∧
      h'.Holds (Function.update lists l ((lists l).erase x)) ∧
      h'.items x = ⟨none, none⟩ ∧ Frame h h' l (lists l) := by
  constructor
  · intro prev x hprev hx hnull
    exact hh.insert_after hprev hx hnull
  · intro x hx
    exact hh.detach_erase hx

end Holds

/-- Two processes are ready, and process 2 is alone on the waiting list. -/
def sleeperHeap : Heap PcbRef PcbList where
  items
    | 0 => ⟨some 1, none⟩
    | 1 => ⟨none, some 0⟩
    | _ => ⟨none, none⟩
  heads
    | .ready => ⟨some 0, some 1, 2⟩
    | .waiting => ⟨some 2, some 2, 1⟩
    | _ => ⟨none, none, 0⟩

def sleeperLists : PcbList → List PcbRef
  | .ready => [0, 1]
  | .waiting => [2]
  | _ => []

theorem sleeperHeap_holds : sleeperHeap.Holds sleeperLists := by
  refine ⟨fun l => ?_, fun l => ?_, fun l l' hl => ?_⟩
  · cases l with
    | ready => exact ⟨⟨rfl, rfl, rfl⟩, rfl, rfl, rfl⟩
    | waiting => exact ⟨⟨rfl, rfl⟩, rfl, rfl⟩
    | zombie | receivers | senders => exact ⟨rfl, rfl⟩
  · cases l <;> rfl
  · cases l <;> cases l' <;> simp_all [sleeperLists]

theorem lists_refine_sleeperHeap :
    (∃ h', sleeperHeap.listInsert .ready (some 0) 3 = (some 3, h') ∧
      h'.Holds (Function.update sleeperLists .ready [0, 3, 1]) ∧
      Frame sleeperHeap h' .ready [3, 0, 1] ∧ h'.listDetach .ready 3 = (3, sleeperHeap)) ∧
    ∃ h', sleeperHeap.listDetach .ready 1 = (1, h') ∧
      h'.Holds (Function.update sleeperLists .ready [0]) ∧ h'.items 1 = ⟨none, none⟩ ∧
      Frame sleeperHeap h' .ready [0, 1] :=
  let refines := sleeperHeap_holds.lists_refine .ready
  ⟨refines.1 (some 0) 3 (by simp [sleeperLists])
    (fun j => by cases j <;> simp [sleeperLists]) rfl, refines.2 1 (by simp [sleeperLists])⟩

/-! ## Items that are on a list already -/

/-- `List_insert` returns null, and the heads have the lists that they had. -/
def Refuses (h : Heap α ι) (lists : ι → List α) (l : ι) (prev : Option α) (x : α) : Prop :=
  (h.listInsert l prev x).1 = none ∧ (h.listInsert l prev x).2.Holds lists

namespace Holds

/-- An item that is alone on its list is inserted, and after that the heads have no lists: `x` is
the first item of two of them, or its own neighbour. -/
theorem alone_corrupts (hh : h.Holds lists) (hj : lists j = [x]) :
    (h.listInsert l p x).1 = some x ∧
      ∀ lists', ¬ (h.listInsert l p x).2.Holds lists' := by
  have hnull : h.items x = ⟨none, none⟩ := (hh.unlinked_iff (by simp [hj])).2 hj
  obtain ⟨hfst, hheads⟩ := listInsert_heads hnull (l := l) (p := p) rfl
  obtain ⟨hprev, hnext⟩ := listInsert_links hnull (l := l) (p := p) rfl
  refine ⟨hfst, fun lists' hh' => ?_⟩
  have hlink := hh.linked j
  rw [hj] at hlink
  have hfirst : (h.heads j).first = some x := hlink.first_eq
  have hlast : (h.heads j).last = some x := hlink.last_eq
  -- `x` is the first and the last item of `j` as before
  have hj' : lists' j = [x] := by
    have hlink' := hh'.linked j
    rw [hheads] at hlink'
    by_cases hjl : j = l
    · subst hjl
      rw [heads_inserted_self, hfirst, hlast, ite_self, ite_self] at hlink'
      exact hlink'.eq_singleton
    · rw [show (inserted h l _ _ x).heads j = h.heads j from if_neg hjl, hfirst, hlast] at hlink'
      exact hlink'.eq_singleton
  have hnull' := (hh'.unlinked_iff (by simp [hj'])).2 hj'
  have hp : p = none := by
    by_contra hp
    exact hprev hp (congrArg ListItem.prev hnull')
  subst hp
  have hl : (h.heads l).first = none := by
    by_contra hl
    exact hnext hl (congrArg ListItem.next hnull')
  have hjl : l ≠ j := by
    rintro rfl
    cases hl.symm.trans hfirst
  -- and now the first item of `l`
  have hxl : x ∈ lists' l := by
    refine List.mem_of_head? ?_
    rw [← (hh'.linked l).first_eq, hheads, heads_inserted_self]
    rfl
  exact hh'.disjoint l j hjl hxl (by simp [hj'])

/-- **`List_insert` refuses an item that is on a list** if and only if the item has a neighbour on
it: an item alone on its list has null links, like one that is on none. Only then do the heads have
lists afterwards. -/
theorem refuses_iff (hh : h.Holds lists) (l : ι) (prev : Option α) (hx : x ∈ lists j) :
    (h.Refuses lists l prev x ↔ lists j ≠ [x]) ∧
      ((∃ lists', (h.listInsert l prev x).2.Holds lists') ↔ lists j ≠ [x]) := by
  have hrefuses (hj : lists j ≠ [x]) : h.Refuses lists l prev x := by
    have hlinked : h.items x ≠ ⟨none, none⟩ := fun hnull => hj ((hh.unlinked_iff hx).1 hnull)
    rw [Refuses, listInsert_refused hlinked]
    exact ⟨rfl, hh⟩
  refine ⟨⟨fun href hj => ?_, hrefuses⟩, ⟨?_, fun hj => ⟨lists, (hrefuses hj).2⟩⟩⟩
  · exact (hh.alone_corrupts hj).2 lists href.2
  · rintro ⟨lists', hh'⟩ hj
    exact (hh.alone_corrupts hj).2 lists' hh'

end Holds

/-- Process 0 has a neighbour on the ready list. -/
theorem refuses_iff_sleeperHeap :
    (sleeperHeap.Refuses sleeperLists .waiting (some 2) 0 ↔ [0, 1] ≠ [0]) ∧
      ((∃ lists, (sleeperHeap.listInsert .waiting (some 2) 0).2.Holds lists) ↔ [0, 1] ≠ [0]) :=
  sleeperHeap_holds.refuses_iff .waiting (some 2) (j := .ready) (by simp [sleeperLists])

/-- Process 2 has none, and becomes ready while it is on the waiting list. -/
theorem sleeper_not_refused :
    sleeperHeap.Holds sleeperLists ∧ 1 ∈ sleeperLists .ready ∧ 2 ∈ sleeperLists .waiting ∧
      (sleeperHeap.listInsert .ready (some 1) 2).1 = some 2 ∧
      ¬ sleeperHeap.Refuses sleeperLists .ready (some 1) 2 ∧
      ∀ lists', ¬ (sleeperHeap.listInsert .ready (some 1) 2).2.Holds lists' := by
  obtain ⟨hfst, hlost⟩ := sleeperHeap_holds.alone_corrupts (l := .ready) (p := some 1)
    (show sleeperLists .waiting = [2] from rfl)
  refine ⟨sleeperHeap_holds, by decide, by decide, hfst, fun href => ?_, hlost⟩
  exact hlost _ href.2

end Heap

end DisastrOS
