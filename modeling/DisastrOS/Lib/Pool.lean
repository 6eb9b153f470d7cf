import Mathlib.Data.List.Perm.Basic
import Mathlib.Data.List.Nodup
import Mathlib.Data.List.Range
import Mathlib.Tactic.Common

/-!
# Pools of fixed-size blocks

A pool hands out the block indices `0, …, sizeMax - 1`. `Pool.free` lists the free ones in the
order in which they will be handed out; a released block goes to the front. `Pool.Used a b` says
that block `b` is outstanding, and `Pool.Owns a bs` that the blocks of `bs`, each once, are all the
outstanding ones: the form in which a client accounts for a pool (`Owns.get`, `Owns.release`,
`Owns.get_none`).
-/

namespace Lib

/-- A pool of `sizeMax` blocks, with its free ones in hand-out order. -/
structure Pool where
  sizeMax : Nat
  free : List Nat

namespace Pool

/-- A pool with every block free. -/
def init (n : Nat) : Pool := ⟨n, List.range n⟩

/-- Takes the first free block, if any. -/
def get (a : Pool) : Option (Nat × Pool) :=
  match a.free with
  | [] => none
  | b :: rest => some (b, { a with free := rest })

/-- Block `b` is outstanding. -/
def Used (a : Pool) (b : Nat) : Prop := b < a.sizeMax ∧ b ∉ a.free

instance (a : Pool) (b : Nat) : Decidable (a.Used b) := inferInstanceAs (Decidable (_ ∧ _))

/-- Gives block `b` back; an index out of range or a block already free changes nothing. -/
def release (a : Pool) (b : Nat) : Pool :=
  if a.Used b then { a with free := b :: a.free } else a

/-- The number of outstanding blocks. -/
def outstanding (a : Pool) : Nat := a.sizeMax - a.free.length

/-- No block is free twice, and every free block is one of the pool's. -/
structure Ok (a : Pool) : Prop where
  nodup : a.free.Nodup
  bound : ∀ b ∈ a.free, b < a.sizeMax

/-- The blocks of `bs` are the outstanding blocks, each listed once. -/
def Owns (a : Pool) (bs : List Nat) : Prop := (a.free ++ bs).Perm (List.range a.sizeMax)

variable {a a' : Pool} {b c : Nat} {bs cs : List Nat}

@[simp] theorem init_sizeMax (n : Nat) : (init n).sizeMax = n := rfl

@[simp] theorem init_length (n : Nat) : (init n).free.length = n := List.length_range

theorem get_init {n : Nat} (hn : 0 < n) : ∃ a', (init n).get = some (0, a') := by
  obtain ⟨k, rfl⟩ := Nat.exists_eq_add_of_lt hn
  rw [Nat.zero_add]
  exact ⟨⟨k + 1, (List.range k).map Nat.succ⟩, by simp [init, get, List.range_succ_eq_map]⟩

theorem get_eq (h : a.get = some (b, a')) : a.free = b :: a'.free ∧ a'.sizeMax = a.sizeMax := by
  unfold get at h
  split at h
  · cases h
  · rename_i hf
    simp only [Option.some.injEq, Prod.mk.injEq] at h
    obtain ⟨rfl, rfl⟩ := h
    exact ⟨hf, rfl⟩

@[simp] theorem get_eq_none : a.get = none ↔ a.free = [] := by
  unfold get
  split <;> simp_all

@[simp] theorem release_sizeMax : (a.release b).sizeMax = a.sizeMax := by
  unfold release; split <;> rfl

theorem release_free (h : a.Used b) : (a.release b).free = b :: a.free := by
  unfold release; rw [if_pos h]

/-! ## Outstanding blocks -/

theorem ok_init (n : Nat) : (init n).Ok :=
  ⟨List.nodup_range, fun _ hb => List.mem_range.1 hb⟩

theorem not_used_init (n b : Nat) : ¬ (init n).Used b :=
  fun h => h.2 (List.mem_range.2 h.1)

theorem Ok.get (ha : a.Ok) (h : a.get = some (b, a')) : a'.Ok := by
  obtain ⟨hf, hs⟩ := get_eq h
  have hn := ha.nodup
  rw [hf] at hn
  exact ⟨(List.nodup_cons.1 hn).2, fun c hc => hs ▸ ha.bound c (hf ▸ List.mem_cons_of_mem _ hc)⟩

theorem not_used_get (h : a.get = some (b, a')) : ¬ a.Used b :=
  fun hu => hu.2 ((get_eq h).1 ▸ List.mem_cons_self)

/-- Taking a block makes it, and nothing else, outstanding. -/
theorem Ok.used_get (ha : a.Ok) (h : a.get = some (b, a')) : a'.Used c ↔ c = b ∨ a.Used c := by
  obtain ⟨hf, hs⟩ := get_eq h
  have hn := ha.nodup
  have hb := ha.bound b (hf ▸ List.mem_cons_self)
  rw [hf, List.nodup_cons] at hn
  unfold Used
  rw [hf, hs, List.mem_cons, not_or]
  constructor
  · rintro ⟨hc, hm⟩
    by_cases hcb : c = b
    · exact .inl hcb
    · exact .inr ⟨hc, hcb, hm⟩
  · rintro (rfl | ⟨hc, -, hm⟩)
    · exact ⟨hb, hn.1⟩
    · exact ⟨hc, hm⟩

theorem Ok.release (ha : a.Ok) (b : Nat) : (a.release b).Ok := by
  unfold Pool.release
  split
  · rename_i h
    refine ⟨List.nodup_cons.2 ⟨h.2, ha.nodup⟩, fun c hc => ?_⟩
    rcases List.mem_cons.1 hc with rfl | hc
    · exact h.1
    · exact ha.bound c hc
  · exact ha

/-- Releasing an outstanding block makes it, and nothing else, free. -/
theorem used_release (h : a.Used b) : (a.release b).Used c ↔ c ≠ b ∧ a.Used c := by
  unfold Used
  rw [release_free h, release_sizeMax, List.mem_cons, not_or]
  tauto

theorem used_of_ne (hc : c ≠ b) (h : a.Used c) : (a.release b).Used c := by
  by_cases hb : a.Used b
  · exact (used_release hb).2 ⟨hc, h⟩
  · unfold release
    rwa [if_neg hb]

/-- What has been released is what is handed out next. -/
theorem get_release (h : a.Used b) : (a.release b).get = some (b, a) := by
  unfold get
  rw [release_free h]
  unfold release
  rw [if_pos h]

/-- A block that is given back at once. -/
theorem Ok.release_get (ha : a.Ok) (h : a.get = some (b, a')) : a'.release b = a := by
  have hu := (ha.used_get h (c := b)).2 (.inl rfl)
  obtain ⟨hf, hs⟩ := get_eq h
  unfold Pool.release
  rw [if_pos hu]
  cases a
  cases a'
  simp_all

/-- A release makes nothing outstanding. -/
theorem used_of_release (h : (a.release b).Used c) : a.Used c := by
  by_cases hb : a.Used b
  · exact ((used_release hb).1 h).2
  · unfold release at h
    rwa [if_neg hb] at h

/-! ## Ownership -/

theorem owns_init (n : Nat) : (init n).Owns [] := by simp [Owns, init]

theorem Owns.perm (h : a.Owns bs) (hp : bs.Perm cs) : a.Owns cs :=
  (List.Perm.append_left _ hp.symm).trans h

theorem Owns.nodup (h : a.Owns bs) : (a.free ++ bs).Nodup :=
  h.nodup_iff.2 List.nodup_range

theorem Owns.ok (h : a.Owns bs) : a.Ok :=
  ⟨h.nodup.of_append_left, fun _ hb => List.mem_range.1 (h.mem_iff.1 (List.mem_append_left _ hb))⟩

theorem Owns.mem_iff (h : a.Owns bs) : b ∈ bs ↔ a.Used b := by
  have hd := List.nodup_append.1 h.nodup
  constructor
  · intro hb
    exact ⟨List.mem_range.1 (List.Perm.mem_iff h |>.1 (List.mem_append_right _ hb)),
      fun hf => hd.2.2 b hf b hb rfl⟩
  · rintro ⟨hlt, hf⟩
    rcases List.mem_append.1 (List.Perm.mem_iff h |>.2 (List.mem_range.2 hlt)) with hm | hm
    · exact absurd hm hf
    · exact hm

theorem Owns.length (h : a.Owns bs) : a.free.length + bs.length = a.sizeMax := by
  simpa using h.length_eq

/-- The number of outstanding blocks is the number of owned ones. -/
theorem Owns.outstanding (h : a.Owns bs) : a.outstanding = bs.length := by
  have := h.length
  unfold Pool.outstanding
  omega

theorem Owns.get (h : a.Owns bs) (hg : a.get = some (b, a')) : a'.Owns (b :: bs) := by
  obtain ⟨hf, hs⟩ := get_eq hg
  unfold Owns at h ⊢
  rw [hf] at h
  rw [hs]
  exact List.perm_middle.trans h

theorem Owns.not_mem_get (h : a.Owns bs) (hg : a.get = some (b, a')) : b ∉ bs :=
  fun hb => not_used_get hg (h.mem_iff.1 hb)

/-- A pool is exhausted exactly when its clients hold every block. -/
theorem Owns.get_none (h : a.Owns bs) : a.get = none ↔ bs.length = a.sizeMax := by
  rw [get_eq_none, ← List.length_eq_zero_iff]
  have := h.length
  omega

theorem Owns.release (h : a.Owns bs) (hb : b ∈ bs) : (a.release b).Owns (bs.erase b) := by
  unfold Owns
  rw [release_free (h.mem_iff.1 hb), release_sizeMax]
  refine List.Perm.trans ?_ h
  rw [List.cons_append]
  exact List.perm_middle.symm.trans (List.Perm.append_left _ (List.perm_cons_erase hb).symm)

theorem Owns.release_all (h : a.Owns (bs ++ cs)) : (bs.foldl Pool.release a).Owns cs := by
  induction bs generalizing a with
  | nil => exact h
  | cons b bs ih =>
    refine ih ?_
    have := h.release (b := b) (by simp)
    simpa using this

end Pool

end Lib
