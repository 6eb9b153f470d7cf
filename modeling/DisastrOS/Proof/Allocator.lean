import Mathlib.Algebra.Order.Ring.Int
import Mathlib.Tactic.Ring
import Mathlib.Tactic.Linarith
import DisastrOS.Lib.Machine
import DisastrOS.Lib.Pool
import DisastrOS.Lib.Threaded
import DisastrOS.Model.PoolAllocator

/-!
# The pool allocator refines a pool

`Represents a p`: the free list of the allocator `a` is that of the pool `p`. It holds after
`PoolAllocator_init` (`init_represents`), and the calls do to the allocator what `Pool.get` and
`Pool.release` do to the pool (`Represents.getBlock`, `Represents.releaseBlock`), so that any
sequence of calls leaves a well-formed free list and serves each block to one client at a time
(`poolAllocator_refines`).
-/

namespace DisastrOS

open Lib

/-- `a` represents `p`: the free items are threaded in the order of the pool, and the entries of the
other ones are marked. -/
structure Represents (a : PoolAllocator) (p : Pool) : Prop where
  item : 0 < a.itemSize
  sizeMax : a.sizeMax = p.sizeMax
  length : a.indices.length = p.sizeMax
  chain : Threaded (a.indices[·]?) nullIdx a.firstIdx p.free
  marked : ∀ i < p.sizeMax, a.indices[i]? = some detachedIdx ↔ i ∉ p.free
  size : a.size = p.free.length
  freeList : a.freeList = a.buffer + a.itemSize * a.sizeMax

/-- The address of an item. -/
def PoolAllocator.item (a : PoolAllocator) (i : Nat) : Int := a.buffer + i * a.itemSize

/-- The allocators have the same items. -/
structure SameItems (a a' : PoolAllocator) : Prop where
  buffer : a'.buffer = a.buffer
  itemSize : a'.itemSize = a.itemSize
  sizeMax : a'.sizeMax = a.sizeMax

/-- The free list ends, repeats no index, and visits the indices that are not marked. -/
def PoolAllocator.FreeListOk (a : PoolAllocator) : Prop :=
  ∃ is, Threaded (a.indices[·]?) nullIdx a.firstIdx is ∧ is.Nodup ∧
    (∀ i, i ∈ is ↔ ∃ v, a.indices[i]? = some v ∧ v ≠ detachedIdx) ∧ a.size = is.length

/-- `b` is the start of an item between `buffer` and `freeList`. -/
structure PoolAllocator.IsItem (a : PoolAllocator) (b : Int) : Prop where
  aligned : (b - a.buffer) % a.itemSize = 0
  lower : a.buffer ≤ b
  upper : b + a.itemSize ≤ a.freeList

inductive PoolCall
  | getBlock
  | releaseBlock (block : Int)

/-- The distance of the address from the buffer is an `int`. -/
def PoolCall.Fits (buffer : Int) : PoolCall → Prop
  | .getBlock => True
  | .releaseBlock block => FitsInt (block - buffer)

/-- A call, with the addresses that have been handed out and not taken back. -/
def poolCall (t : PoolAllocator × List Int) : PoolCall → Except Fault (PoolAllocator × List Int)
  | .getBlock => do
    let (block, a) ← poolAllocatorGetBlock t.1
    .ok (a, block.toList ++ t.2)
  | .releaseBlock block => do
    let (result, a) ← poolAllocatorReleaseBlock t.1 block
    .ok (a, if result = .success then t.2.erase block else t.2)

/-- The addresses are those of the outstanding blocks of a pool that the allocator represents. -/
def Clients (a₀ : PoolAllocator) (t : PoolAllocator × List Int) : Prop :=
  ∃ p bs, Represents t.1 p ∧ p.Owns bs ∧ t.2 = bs.map a₀.item ∧ SameItems a₀ t.1

section
variable {a a' a₀ : PoolAllocator} {p p' : Pool} {i : Nat} {v block : Int}

/-! ## Access to the array -/

theorem read_eq (h : a.indices[i]? = some v) : a.read i = .ok v := by
  obtain ⟨hi, he⟩ := List.getElem?_eq_some_iff.1 h
  unfold PoolAllocator.read
  rw [if_pos (by omega), Int.toNat_natCast, List.getD_eq_getElem?_getD, h, Option.getD_some]

theorem write_eq (hi : i < a.indices.length) (v : Int) :
    a.write i v = .ok { a with indices := a.indices.set i v } := by
  unfold PoolAllocator.write
  rw [if_pos (by omega), Int.toNat_natCast]

/-! ## Initialization -/

/-- The loop sets the entries that it runs over. -/
theorem linkItems_eq (k i : Nat) (hk : i + k ≤ a.indices.length) :
    ∃ is, linkItems k i a = .ok { a with indices := is } ∧ is.length = a.indices.length ∧
      ∀ j < a.indices.length, is[j]? =
        if i ≤ j ∧ j < i + k then some ((j : Int) + 1) else a.indices[j]? := by
  induction k generalizing i a with
  | zero =>
    refine ⟨a.indices, rfl, rfl, fun j _ => ?_⟩
    rw [if_neg (by omega)]
  | succ k ih =>
    rw [linkItems, write_eq (by omega), ok_bind]
    obtain ⟨is, h1, h2, h3⟩ := ih (a := { a with indices := a.indices.set i (i + 1) }) (i + 1)
      (by simp; omega)
    rw [List.length_set] at h2
    refine ⟨is, h1, h2, fun j hj => ?_⟩
    rw [h3 j (by simpa using hj), List.getElem?_set]
    by_cases hij : i = j
    · subst hij
      rw [if_neg (by omega), if_pos rfl, if_pos hj, if_pos (by omega)]
    · rw [if_neg hij]
      by_cases hjk : i + 1 ≤ j ∧ j < i + 1 + k
      · rw [if_pos hjk, if_pos (by omega)]
      · rw [if_neg hjk, if_neg (by omega)]

/-- The list that starts at an index and goes through all the larger ones. -/
theorem threaded_range {is : List Int} {n : Nat} (k i : Nat) (hn : i + k + 1 = n)
    (hlink : ∀ j < n - 1, is[j]? = some ((j : Int) + 1)) (hlast : is[n - 1]? = some nullIdx) :
    Threaded (is[·]?) nullIdx i (List.range' i (k + 1)) := by
  induction k generalizing i with
  | zero =>
    obtain rfl : i = n - 1 := by omega
    exact ⟨rfl, nullIdx, hlast, rfl⟩
  | succ k ih =>
    rw [List.range'_succ]
    refine ⟨rfl, ((i + 1 : Nat) : Int), ?_, ih (i + 1) (by omega)⟩
    exact hlink i (by omega)

theorem toInt_eq {x : Int} (hx : FitsInt x) : toInt x = x := by
  obtain ⟨h1, h2⟩ := hx
  apply Int.bmod_eq_of_le_mul_two
  · push_cast
    omega
  · push_cast
    omega

/-- What `PoolAllocator_init` does when it succeeds: all items are free, in order, and with the
array behind them they fit into the memory block. -/
theorem init_represents {itemSize memoryBlock memorySize : Int} {n : Nat} {memory : Nat → Int}
    (hn : 1 ≤ n) (hi : 1 ≤ itemSize) (hint : FitsInt (n * (itemSize + intSize)))
    (hinit : poolAllocatorInit a₀ itemSize n memoryBlock memorySize memory = .ok (.success, a)) :
    Represents a (.init n) ∧ a.buffer = memoryBlock ∧ a.itemSize = itemSize ∧
      a.freeList + intSize * n ≤ memoryBlock + memorySize := by
  unfold poolAllocatorInit at hinit
  simp only [toInt_eq hint] at hinit
  split at hinit
  · cases hinit
  rename_i hmem
  obtain ⟨a₁, h₁, hinit⟩ := bind_eq_ok.1 hinit
  have hk : ((n : Int) - 1).toNat = n - 1 := by omega
  obtain ⟨is, h2, h3, h4⟩ := linkItems_eq (a := ⟨memoryBlock, memoryBlock + itemSize * n,
    (List.range (n : Int).toNat).map memory, itemSize * n, n, n, itemSize, a₀.firstIdx⟩) (n - 1) 0
    (by simp)
  simp only [List.length_map, List.length_range, Int.toNat_natCast] at h3 h4
  rw [hk, Int.toNat_natCast] at h₁
  rw [Int.toNat_natCast] at h2
  cases h2.symm.trans h₁
  have hwrite : ((n : Int) - 1) = ((n - 1 : Nat) : Int) := by omega
  obtain ⟨a₂, h₂, hinit⟩ := bind_eq_ok.1 hinit
  have hlen : n - 1 < is.length := by omega
  have hpos : 0 < itemSize := by omega
  rw [hwrite, write_eq (by exact hlen)] at h₂
  cases h₂
  cases hinit
  have hlink : ∀ j < n - 1, (is.set (n - 1) nullIdx)[j]? = some ((j : Int) + 1) := by
    intro j hj
    rw [List.getElem?_set_ne (by omega), h4 j (by omega), if_pos (by omega)]
  have hlast : (is.set (n - 1) nullIdx)[n - 1]? = some nullIdx :=
    List.getElem?_set_self (by omega)
  refine ⟨⟨hpos, rfl, by simpa using h3, ?_, fun i hi => ?_, ?_, rfl⟩, rfl, rfl, ?_⟩
  · have h5 := threaded_range (n - 1) 0 (by omega) hlink hlast
    rwa [Nat.sub_add_cancel hn, ← List.range_eq_range'] at h5
  · have hfree : i ∈ (Pool.init n).free := List.mem_range.2 hi
    refine iff_of_false (fun h => ?_) (not_not.2 hfree)
    by_cases hin : i < n - 1
    · have h5 : (i : Int) + 1 = -2 := Option.some.inj ((hlink i hin).symm.trans h)
      omega
    · obtain rfl : i = n - 1 := by
        have : i < n := hi
        omega
      cases Option.some.inj (hlast.symm.trans h)
  · show (n : Int) = ((List.range n).length : Int)
    rw [List.length_range]
  · show memoryBlock + itemSize * n + 4 * n ≤ memoryBlock + memorySize
    have h5 : (n : Int) * (itemSize + 4) = itemSize * n + 4 * n := by ring
    rw [h5] at hmem
    omega

/-! ## The calls -/

theorem SameItems.item (h : SameItems a a') (i : Nat) : a'.item i = a.item i := by
  rw [PoolAllocator.item, PoolAllocator.item, h.buffer, h.itemSize]

namespace Represents

/-- The first free item comes off the chain, and its entry is marked. -/
theorem take (h : Represents a p) (hp : p.Ok) (hg : p.get = some (i, p')) :
    a.firstIdx = i ∧ i < a.indices.length ∧ ∃ v, a.indices[i]? = some v ∧
      Represents { a with
        firstIdx := v
        size := a.size - 1
        indices := a.indices.set i detachedIdx } p' := by
  obtain ⟨hfree, hmax⟩ := Pool.get_eq hg
  have hchain := h.chain
  have hnd := hp.nodup
  have hbound := hp.bound
  rw [hfree] at hchain hnd hbound
  obtain ⟨hfirst, v, hv, hrest⟩ := hchain
  have hi : i < a.indices.length := h.length ▸ hbound i List.mem_cons_self
  have hn : i ∉ p'.free := (List.nodup_cons.1 hnd).1
  refine ⟨hfirst, hi, v, hv, h.item, ?_, ?_, ?_, fun j hj => ?_, ?_, h.freeList⟩
  · rw [hmax]
    exact h.sizeMax
  · rw [List.length_set, hmax]
    exact h.length
  · apply hrest.congr
    intro j hj
    show (a.indices.set i detachedIdx)[j]? = a.indices[j]?
    rw [List.getElem?_set_ne]
    intro e
    exact hn (e ▸ hj)
  · by_cases hij : i = j
    · subst hij
      exact iff_of_true (List.getElem?_set_self hi) hn
    · rw [hmax] at hj
      show (a.indices.set i detachedIdx)[j]? = _ ↔ _
      rw [List.getElem?_set_ne hij, h.marked j hj, hfree, List.mem_cons]
      simp [Ne.symm hij]
  · have hsize := h.size
    rw [hfree, List.length_cons] at hsize
    show a.size - 1 = _
    omega

/-- `PoolAllocator_getBlock` hands out the first free item. -/
theorem getBlock (h : Represents a p) (hp : p.Ok) :
    (p.get = none → poolAllocatorGetBlock a = .ok (none, a)) ∧
    ∀ i p', p.get = some (i, p') → ∃ a', poolAllocatorGetBlock a = .ok (some (a.item i), a') ∧
      Represents a' p' ∧ SameItems a a' := by
  unfold poolAllocatorGetBlock
  constructor
  · intro hg
    have hchain := h.chain
    rw [Pool.get_eq_none.1 hg] at hchain
    have hnull : a.firstIdx = -1 := hchain
    rw [if_pos hnull]
  · intro i p' hg
    obtain ⟨hfirst, hi, v, hv, h'⟩ := h.take hp hg
    rw [if_neg (by omega), hfirst]
    simp only [read_eq hv, ok_bind]
    rw [write_eq (by exact hi), ok_bind]
    exact ⟨_, rfl, h', rfl, rfl, rfl⟩

/-- The mark is no index. -/
theorem first_ne (h : Represents a p) : a.firstIdx ≠ detachedIdx := by
  have hchain := h.chain
  show a.firstIdx ≠ -2
  cases hfree : p.free with
  | nil =>
    rw [hfree] at hchain
    have hnull : a.firstIdx = -1 := hchain
    omega
  | cons i is =>
    rw [hfree] at hchain
    have hfirst := hchain.1
    omega

/-- An item that is handed out comes back in front of the chain. -/
theorem putBack (h : Represents a p) (hu : p.Used i) :
    Represents { a with
      indices := a.indices.set i a.firstIdx
      firstIdx := i
      size := a.size + 1 } (p.release i) := by
  have hlen : i < a.indices.length := h.length ▸ hu.1
  refine ⟨h.item, ?_, ?_, ?_, fun j hj => ?_, ?_, h.freeList⟩
  · rw [Pool.release_sizeMax]
    exact h.sizeMax
  · rw [Pool.release_sizeMax, List.length_set]
    exact h.length
  · rw [Pool.release_free hu]
    refine ⟨rfl, a.firstIdx, List.getElem?_set_self hlen, ?_⟩
    apply h.chain.congr
    intro j hj
    show (a.indices.set i a.firstIdx)[j]? = a.indices[j]?
    rw [List.getElem?_set_ne]
    intro e
    exact hu.2 (e ▸ hj)
  · rw [Pool.release_sizeMax] at hj
    rw [Pool.release_free hu, List.mem_cons]
    show (a.indices.set i a.firstIdx)[j]? = some detachedIdx ↔ _
    by_cases hij : i = j
    · subst hij
      rw [List.getElem?_set_self hlen, Option.some.injEq]
      refine iff_of_false (fun e => ?_) (by simp)
      exact h.first_ne e
    · rw [List.getElem?_set_ne hij, h.marked j hj]
      simp [Ne.symm hij]
  · have hsize := h.size
    rw [Pool.release_free hu, List.length_cons]
    show a.size + 1 = _
    omega

/-- The test of `PoolAllocator_releaseBlock` for the address of an item. -/
theorem eq_item_iff (h : Represents a p) : block = a.item i ↔
    (block - a.buffer).tmod a.itemSize = 0 ∧ (block - a.buffer).tdiv a.itemSize = i := by
  have hpos := h.item
  constructor
  · intro hi
    have he : block - a.buffer = i * a.itemSize := by
      rw [hi, PoolAllocator.item]
      omega
    rw [he]
    exact ⟨Int.mul_tmod_left _ _, Int.mul_tdiv_cancel _ (by omega)⟩
  · rintro ⟨hmod, hdiv⟩
    have h1 := Int.mul_tdiv_cancel_of_tmod_eq_zero hmod
    rw [hdiv, mul_comm] at h1
    rw [PoolAllocator.item]
    omega

/-- `PoolAllocator_releaseBlock` accepts the addresses of the items that are handed out. -/
theorem releaseBlock (h : Represents a p) (hf : FitsInt (block - a.buffer)) :
    (∃ i a', block = a.item i ∧ p.Used i ∧
      poolAllocatorReleaseBlock a block = .ok (.success, a') ∧ Represents a' (p.release i) ∧
      SameItems a a') ∨
    (∀ i, p.Used i → block ≠ a.item i) ∧ ∃ r, poolAllocatorReleaseBlock a block = .ok (r, a) ∧
      (r = .unalignedFree ∨ r = .outOfRange ∨ r = .doubleFree) := by
  unfold poolAllocatorReleaseBlock
  simp only [toInt_eq hf]
  by_cases hmod : (block - a.buffer).tmod a.itemSize = 0
  swap
  · rw [if_pos hmod]
    exact .inr ⟨fun i _ hi => hmod (h.eq_item_iff.1 hi).1, _, rfl, .inl rfl⟩
  rw [if_neg (not_not.2 hmod)]
  by_cases hrange : (block - a.buffer).tdiv a.itemSize < 0 ∨
      (block - a.buffer).tdiv a.itemSize ≥ a.sizeMax
  · rw [if_pos hrange]
    refine .inr ⟨fun i hu hi => ?_, _, rfl, .inr (.inl rfl)⟩
    have hlt := hu.1
    rw [(h.eq_item_iff.1 hi).2, h.sizeMax] at hrange
    omega
  rw [if_neg hrange]
  obtain ⟨j, hj⟩ := Int.eq_ofNat_of_zero_le (by omega : 0 ≤ (block - a.buffer).tdiv a.itemSize)
  have hlt : j < p.sizeMax := by
    rw [hj, h.sizeMax] at hrange
    omega
  have hlen : j < a.indices.length := h.length ▸ hlt
  have hread : a.read j = .ok a.indices[j] := read_eq (List.getElem?_eq_getElem hlen)
  have hmark := h.marked j hlt
  rw [List.getElem?_eq_getElem hlen, Option.some.injEq] at hmark
  rw [hj, hread, ok_bind]
  by_cases hv : a.indices[j] = detachedIdx
  · rw [if_neg (not_not.2 hv), write_eq hlen, ok_bind]
    have hused : p.Used j := ⟨hlt, hmark.1 hv⟩
    exact .inl ⟨j, _, h.eq_item_iff.2 ⟨hmod, hj⟩, hused, rfl, h.putBack hused, rfl, rfl, rfl⟩
  · rw [if_pos hv]
    refine .inr ⟨fun i hu hi => ?_, _, rfl, .inr (.inr rfl)⟩
    have hij := (h.eq_item_iff.1 hi).2
    rw [hj] at hij
    obtain rfl : j = i := by omega
    exact hu.2 (not_not.1 fun hn => hv (hmark.2 hn))

end Represents

/-! ## Items -/

theorem item_add_le (hpos : 0 < a.itemSize) {j : Nat} (hij : i < j) :
    a.item i + a.itemSize ≤ a.item j := by
  have h1 : ((i : Int) + 1) * a.itemSize ≤ j * a.itemSize :=
    Int.mul_le_mul_of_nonneg_right (by omega) (by omega)
  rw [add_mul, one_mul] at h1
  rw [PoolAllocator.item, PoolAllocator.item]
  omega

theorem item_injective (hpos : 0 < a.itemSize) : Function.Injective a.item := by
  intro i j hij
  by_contra hne
  rcases Nat.lt_or_gt_of_ne hne with hlt | hlt
  · have := item_add_le hpos hlt
    omega
  · have := item_add_le hpos hlt
    omega

theorem Represents.isItem (h : Represents a p) (hi : i < p.sizeMax) : a.IsItem (a.item i) := by
  have hpos := h.item
  refine ⟨?_, ?_, ?_⟩
  · have he : a.item i - a.buffer = i * a.itemSize := by
      rw [PoolAllocator.item]
      omega
    rw [he, Int.mul_emod_left]
  · have h0 : 0 ≤ (i : Int) * a.itemSize := Int.mul_nonneg (by omega) (by omega)
    rw [PoolAllocator.item]
    omega
  · have h1 := item_add_le hpos hi
    have h2 : a.item p.sizeMax = a.freeList := by
      rw [h.freeList, h.sizeMax, PoolAllocator.item, mul_comm]
    omega

theorem Represents.freeListOk (h : Represents a p) (hp : p.Ok) : a.FreeListOk := by
  refine ⟨p.free, h.chain, h.chain.nodup (by decide), fun i => ?_, h.size⟩
  constructor
  · intro hi
    have hlt := hp.bound i hi
    have hlen : i < a.indices.length := h.length ▸ hlt
    refine ⟨a.indices[i], List.getElem?_eq_getElem hlen, fun hv => ?_⟩
    apply (h.marked i hlt).1 _ hi
    rw [List.getElem?_eq_getElem hlen, hv]
  · rintro ⟨v, hv, hne⟩
    by_contra hi
    have hlt : i < p.sizeMax := h.length ▸ (List.getElem?_eq_some_iff.1 hv).1
    have hd := (h.marked i hlt).2 hi
    exact hne (Option.some.inj (hv.symm.trans hd))

/-! ## Sequences of calls -/

theorem SameItems.trans {a₁ a₂ : PoolAllocator} (h : SameItems a a₁) (h' : SameItems a₁ a₂) :
    SameItems a a₂ :=
  ⟨h'.buffer.trans h.buffer, h'.itemSize.trans h.itemSize, h'.sizeMax.trans h.sizeMax⟩

theorem Clients.poolCall {t : PoolAllocator × List Int} {c : PoolCall} (h : Clients a₀ t)
    (hf : c.Fits a₀.buffer) : ∃ t', poolCall t c = .ok t' ∧ Clients a₀ t' := by
  obtain ⟨p, bs, hrep, howns, hout, hsame⟩ := h
  cases c with
  | getBlock =>
    obtain ⟨h1, h2⟩ := hrep.getBlock howns.ok
    unfold DisastrOS.poolCall
    cases hg : p.get with
    | none =>
      rw [h1 hg]
      exact ⟨_, rfl, p, bs, hrep, howns, hout, hsame⟩
    | some x =>
      obtain ⟨i, p'⟩ := x
      obtain ⟨a', h3, h4, h5⟩ := h2 i p' hg
      rw [h3]
      refine ⟨_, rfl, p', i :: bs, h4, howns.get hg, ?_, hsame.trans h5⟩
      rw [hout, hsame.item]
      rfl
  | releaseBlock block =>
    have hf' : FitsInt (block - t.1.buffer) := hsame.buffer ▸ hf
    unfold DisastrOS.poolCall
    dsimp only
    rcases hrep.releaseBlock hf' with ⟨i, a', h1, h2, h3, h4, h5⟩ | ⟨-, r, h2, h3⟩
    · rw [h3]
      refine ⟨_, rfl, p.release i, bs.erase i, h4, howns.release (howns.mem_iff.2 h2), ?_,
        hsame.trans h5⟩
      have hinj : Function.Injective a₀.item := by
        apply item_injective
        rw [← hsame.itemSize]
        exact hrep.item
      show t.2.erase block = _
      rw [hout, h1, hsame.item, List.map_erase hinj]
    · rw [h2]
      have hr : r ≠ .success := by
        rintro rfl
        rcases h3 with h3 | h3 | h3 <;> cases h3
      refine ⟨_, rfl, p, bs, hrep, howns, ?_, hsame⟩
      show (if r = .success then _ else _) = _
      rw [if_neg hr, hout]

theorem Clients.run {calls : List PoolCall} {t : PoolAllocator × List Int} (h : Clients a₀ t)
    (hf : ∀ c ∈ calls, c.Fits a₀.buffer) :
    ∃ t', run DisastrOS.poolCall t calls = .ok t' ∧ Clients a₀ t' := by
  induction calls generalizing t with
  | nil => exact ⟨t, rfl, h⟩
  | cons c cs ih =>
    obtain ⟨t₁, h1, h2⟩ := h.poolCall (hf c List.mem_cons_self)
    obtain ⟨t', h3, h4⟩ := ih h2 fun c hc => hf c (List.mem_cons_of_mem _ hc)
    exact ⟨t', (run_cons_ok h1).trans h3, h4⟩

/-- The addresses are those of the outstanding blocks, in the allocator as it is. -/
theorem Clients.represents {out : List Int} (h : Clients a₀ (a, out)) :
    ∃ p bs, Represents a p ∧ p.Owns bs ∧ out = bs.map a.item := by
  obtain ⟨p, bs, hrep, howns, hout, hsame⟩ := h
  have hfun : a.item = a₀.item := funext hsame.item
  exact ⟨p, bs, hrep, howns, hfun ▸ hout⟩

/-- `PoolAllocator_getBlock` hands out an item that nobody has. -/
theorem Clients.getBlock {out : List Int} (h : Clients a₀ (a, out)) :
    ∃ block a', poolAllocatorGetBlock a = .ok (block, a') ∧
      (block = none ↔ out.length = a.sizeMax) ∧
      ∀ b, block = some b → a.IsItem b ∧
        ∀ c ∈ out, b + a.itemSize ≤ c ∨ c + a.itemSize ≤ b := by
  obtain ⟨p, bs, hrep, howns, hout⟩ := h.represents
  have hpos := hrep.item
  have hmax := hrep.sizeMax
  have hlen : out.length = bs.length := by rw [hout, List.length_map]
  obtain ⟨h1, h2⟩ := hrep.getBlock howns.ok
  cases hg : p.get with
  | none =>
    have hfull := howns.get_none.1 hg
    exact ⟨none, a, h1 hg, iff_of_true rfl (by omega), fun b hb => by cases hb⟩
  | some x =>
    obtain ⟨i, p'⟩ := x
    obtain ⟨a', h3, -, -⟩ := h2 i p' hg
    have hnot : bs.length ≠ p.sizeMax := by
      intro he
      have hnone := howns.get_none.2 he
      rw [hg] at hnone
      cases hnone
    refine ⟨_, a', h3, iff_of_false (by simp) (by omega), fun b hb => ?_⟩
    cases hb
    have hfree := (Pool.get_eq hg).1
    refine ⟨hrep.isItem (howns.ok.bound i (hfree ▸ List.mem_cons_self)), fun c hc => ?_⟩
    rw [hout] at hc
    obtain ⟨j, hj, rfl⟩ := List.mem_map.1 hc
    have hne : i ≠ j := fun e => howns.not_mem_get hg (e ▸ hj)
    rcases Nat.lt_or_gt_of_ne hne with hlt | hlt
    · exact .inl (item_add_le hpos hlt)
    · exact .inr (item_add_le hpos hlt)

/-- `PoolAllocator_releaseBlock` takes back what is handed out, to hand it out next. -/
theorem Clients.releaseBlock {out : List Int} (h : Clients a₀ (a, out))
    (hf : FitsInt (block - a.buffer)) :
    ∃ result a', poolAllocatorReleaseBlock a block = .ok (result, a') ∧
      (result = .success ↔ block ∈ out) ∧
      (result = .success → ∃ a₂, poolAllocatorGetBlock a' = .ok (some block, a₂)) ∧
      (result ≠ .success → a' = a ∧
        (result = .unalignedFree ∨ result = .outOfRange ∨ result = .doubleFree)) := by
  obtain ⟨p, bs, hrep, howns, hout⟩ := h.represents
  rcases hrep.releaseBlock hf with ⟨i, a', hi, hu, h1, h2, h3⟩ | ⟨hno, r, h1, h2⟩
  · have hmem : block ∈ out := by
      rw [hout, hi]
      exact List.mem_map_of_mem (howns.mem_iff.2 hu)
    refine ⟨_, a', h1, iff_of_true rfl hmem, fun _ => ?_, fun hne => absurd rfl hne⟩
    have hg := Pool.get_release hu
    obtain ⟨a₂, h4, -, -⟩ := (h2.getBlock (howns.ok.release i)).2 i p hg
    exact ⟨a₂, by rw [h4, h3.item, hi]⟩
  · have hr : r ≠ .success := by
      rintro rfl
      rcases h2 with h2 | h2 | h2 <;> cases h2
    refine ⟨r, a, h1, iff_of_false hr fun hmem => ?_, fun e => absurd e hr, fun _ => ⟨rfl, h2⟩⟩
    rw [hout] at hmem
    obtain ⟨i, hi, rfl⟩ := List.mem_map.1 hmem
    exact hno i (howns.mem_iff.1 hi) rfl

/-- **The pool allocator.** After any calls the free list is well-formed; `PoolAllocator_getBlock`
fails exactly if all items are handed out, and otherwise hands out an item that nobody has; and
`PoolAllocator_releaseBlock` takes back exactly what is handed out. -/
theorem poolAllocator_refines {numItems itemSize memoryBlock memorySize : Int}
    {memory : Nat → Int} {calls : List PoolCall} (hn : 1 ≤ numItems) (hi : 1 ≤ itemSize)
    (hint : FitsInt (numItems * (itemSize + intSize)))
    (hinit : poolAllocatorInit a₀ itemSize numItems memoryBlock memorySize memory =
      .ok (.success, a))
    (hf : ∀ c ∈ calls, c.Fits memoryBlock) :
    ∃ a' out, run poolCall (a, []) calls = .ok (a', out) ∧ a'.FreeListOk ∧
      a'.buffer = memoryBlock ∧ a'.itemSize = itemSize ∧
      a'.freeList = memoryBlock + itemSize * numItems ∧
      a'.freeList + intSize * numItems ≤ memoryBlock + memorySize ∧
      (∃ block a'', poolAllocatorGetBlock a' = .ok (block, a'') ∧
        (block = none ↔ out.length = numItems) ∧
        ∀ b, block = some b → a'.IsItem b ∧
          ∀ c ∈ out, b + itemSize ≤ c ∨ c + itemSize ≤ b) ∧
      ∀ block, FitsInt (block - memoryBlock) →
        ∃ result a'', poolAllocatorReleaseBlock a' block = .ok (result, a'') ∧
          (result = .success ↔ block ∈ out) ∧
          (result = .success → ∃ a₃, poolAllocatorGetBlock a'' = .ok (some block, a₃)) ∧
          (result ≠ .success → a'' = a' ∧
            (result = .unalignedFree ∨ result = .outOfRange ∨ result = .doubleFree)) := by
  obtain ⟨n, rfl⟩ := Int.eq_ofNat_of_zero_le (by omega : 0 ≤ numItems)
  obtain ⟨h1, hbuf, hitem, hmem⟩ := init_represents (by omega) hi hint hinit
  have hclients : Clients a (a, []) :=
    ⟨.init n, [], h1, Pool.owns_init n, rfl, ⟨rfl, rfl, rfl⟩⟩
  obtain ⟨⟨a', out⟩, hrun, hclients'⟩ := hclients.run (hbuf ▸ hf)
  obtain ⟨p, bs, hrep, howns, -, hsame⟩ := id hclients'
  have hb' : a'.buffer = memoryBlock := hsame.buffer.trans hbuf
  have hi' : a'.itemSize = itemSize := hsame.itemSize.trans hitem
  have hmax : a'.sizeMax = n := hsame.sizeMax.trans h1.sizeMax
  have hfl : a'.freeList = memoryBlock + itemSize * n := by
    rw [hrep.freeList, hb', hi', hmax]
  have hfl₁ : a.freeList = memoryBlock + itemSize * n := by
    rw [h1.freeList, hbuf, hitem, h1.sizeMax]
    rfl
  refine ⟨a', out, hrun, hrep.freeListOk howns.ok, hb', hi', hfl, by omega, ?_,
    fun block hfit => ?_⟩
  · rw [← hi', ← hmax]
    exact hclients'.getBlock
  · exact hclients'.releaseBlock (hb' ▸ hfit)

/-- Two items are handed out, and the first one is given back twice. -/
def reusingCalls : List PoolCall :=
  [.getBlock, .getBlock, .releaseBlock 1000, .releaseBlock 1000, .releaseBlock 990]

theorem poolAllocator_reusingCalls : ∃ a a' out,
    poolAllocatorInit ⟨0, 0, [], 0, 0, 0, 0, 0⟩ 8 2 1000 24 (fun _ => 7) = .ok (.success, a) ∧
    run poolCall (a, []) reusingCalls = .ok (a', out) ∧ a'.FreeListOk := by
  obtain ⟨a, ha⟩ : ∃ a, poolAllocatorInit ⟨0, 0, [], 0, 0, 0, 0, 0⟩ 8 2 1000 24 (fun _ => 7) =
      .ok (.success, a) := ⟨_, rfl⟩
  have hf : ∀ c ∈ reusingCalls, c.Fits 1000 := by
    simp [reusingCalls, PoolCall.Fits, FitsInt]
  obtain ⟨a', out, h1, h2, -⟩ :=
    poolAllocator_refines (by decide) (by decide) ⟨by decide, by decide⟩ ha hf
  exact ⟨a, a', out, ha, h1, h2⟩

end

end DisastrOS
