import Mathlib.Tactic.Common

/-!
# The pool allocator

`pool_allocator.c`. The memory block of a pool holds its items and, behind them, the array
`free_list` of their indices: the free items are a list threaded through it from `first_idx`, and
the entry of an item that is handed out is marked. Addresses and C integers are `Int`s.
-/

namespace DisastrOS

abbrev nullIdx : Int := -1
abbrev detachedIdx : Int := -2

/-- `sizeof(int)`. -/
abbrev intSize : Int := 4

/-- `n` is a value of type `int`. -/
def FitsInt (n : Int) : Prop := -0x80000000 ≤ n ∧ n < 0x80000000

instance (n : Int) : Decidable (FitsInt n) := inferInstanceAs (Decidable (_ ∧ _))

/-- The conversion of a wider integer to `int`. -/
def toInt (n : Int) : Int := n.bmod 0x100000000

inductive PoolAllocatorResult
  | success | notEnoughMemory | unalignedFree | outOfRange | doubleFree
  deriving DecidableEq, Repr

/-- `freeList` is the address of the array and `indices` are its entries. -/
structure PoolAllocator where
  buffer : Int
  freeList : Int
  indices : List Int
  bufferSize : Int
  size : Int
  sizeMax : Int
  itemSize : Int
  firstIdx : Int

/-- An access outside an array. -/
inductive Fault
  | outOfBounds

/-- `a->free_list[i]`. -/
def PoolAllocator.read (a : PoolAllocator) (i : Int) : Except Fault Int :=
  if 0 ≤ i ∧ i < a.indices.length then .ok (a.indices.getD i.toNat 0) else .error .outOfBounds

/-- `a->free_list[i]=v`. -/
def PoolAllocator.write (a : PoolAllocator) (i v : Int) : Except Fault PoolAllocator :=
  if 0 ≤ i ∧ i < a.indices.length then .ok { a with indices := a.indices.set i.toNat v }
  else .error .outOfBounds

/-- `k` iterations of the loop that links the items, from index `i` on. -/
def linkItems : Nat → Int → PoolAllocator → Except Fault PoolAllocator
  | 0, _, a => .ok a
  | k + 1, i, a => do
    let a ← a.write i (i + 1)
    linkItems k (i + 1) a

/-- `memory` is what the memory of the array holds. -/
def poolAllocatorInit (a : PoolAllocator) (itemSize numItems memoryBlock memorySize : Int)
    (memory : Nat → Int) : Except Fault (PoolAllocatorResult × PoolAllocator) :=
  let requestedSize := toInt (numItems * (itemSize + intSize))
  if memorySize < requestedSize then .ok (.notEnoughMemory, a)
  else do
    let a : PoolAllocator :=
      { itemSize := itemSize
        size := numItems
        bufferSize := itemSize * numItems
        sizeMax := numItems
        buffer := memoryBlock
        freeList := memoryBlock + itemSize * numItems
        indices := (List.range numItems.toNat).map memory
        firstIdx := a.firstIdx }
    let a ← linkItems (a.size - 1).toNat 0 a
    let a ← a.write (a.size - 1) nullIdx
    .ok (.success, { a with firstIdx := 0 })

/-- The block, if there is one. -/
def poolAllocatorGetBlock (a : PoolAllocator) : Except Fault (Option Int × PoolAllocator) :=
  if a.firstIdx = -1 then .ok (none, a)
  else do
    let idx := a.firstIdx
    let next ← a.read idx
    let a := { a with firstIdx := next, size := a.size - 1 }
    let a ← a.write idx detachedIdx
    .ok (some (a.buffer + idx * a.itemSize), a)

/-- The remainder and the quotient of C have the sign of the dividend. -/
def poolAllocatorReleaseBlock (a : PoolAllocator) (block : Int) :
    Except Fault (PoolAllocatorResult × PoolAllocator) :=
  let offset := toInt (block - a.buffer)
  if offset.tmod a.itemSize ≠ 0 then .ok (.unalignedFree, a)
  else
    let idx := offset.tdiv a.itemSize
    if idx < 0 ∨ idx ≥ a.sizeMax then .ok (.outOfRange, a)
    else do
      if (← a.read idx) ≠ detachedIdx then .ok (.doubleFree, a)
      else
        let a ← a.write idx a.firstIdx
        .ok (.success, { a with firstIdx := idx, size := a.size + 1 })

end DisastrOS
