import DisastrOS.Model.State

/-!
# Resources and descriptors

`disastrOS_resource.c`, `disastrOS_descriptor.c` and the syscalls on resources. `Resource_free`
gives a block to the resource pool; the block of a queue is not one of that pool's, which refuses it.
-/

namespace DisastrOS

open Lib

/-! ## Resources -/

def resourceAlloc (s : State) (id type : Int) : Option (ResourceRef × State) :=
  match s.resourcePool.get with
  | none => none
  | some (i, pool) =>
    some (.generic i, { s with resourcePool := pool }.updResource (.generic i) fun _ =>
      ⟨id, type, 0, []⟩)

def resourceFree (s : State) (r : ResourceRef) : Except Halt State :=
  if (s.resource r).descriptorsPtrs ≠ [] then .error .assertion
  else
    match r with
    | .generic i => .ok { s with resourcePool := s.resourcePool.release i }
    | .queue _ => .ok s

/-- The first entry of `resources_list` with this id. -/
def resourceListById (s : State) (id : Int) : Option ResourceRef :=
  s.resourcesList.find? fun r => (s.resource r).id = id

/-- `List_detach(&resources_list, r)`. -/
def detachResource (s : State) (r : ResourceRef) : Except Halt State :=
  if r ∈ s.resourcesList then .ok { s with resourcesList := s.resourcesList.erase r }
  else .error .corrupted

/-! ## Descriptors -/

/-- `ptr` is linked by the caller. -/
def descriptorAlloc (s : State) (fd : Int) (r : ResourceRef) (p : PcbRef) :
    Option (Descriptor × State) :=
  match s.descriptorPool.get with
  | none => none
  | some (b, pool) => some (⟨b, p, r, fd, 0⟩, { s with descriptorPool := pool })

def descriptorFree (s : State) (d : Descriptor) : State :=
  { s with descriptorPool := s.descriptorPool.release d.block }

def descriptorPtrAlloc (s : State) (d : Descriptor) : Option (DescriptorPtr × State) :=
  match s.descriptorPtrPool.get with
  | none => none
  | some (b, pool) => some (⟨b, d.block⟩, { s with descriptorPtrPool := pool })

def descriptorPtrFree (s : State) (b : Nat) : State :=
  { s with descriptorPtrPool := s.descriptorPtrPool.release b }

def descriptorListByFd (ds : List Descriptor) (fd : Int) : Option Descriptor :=
  ds.find? fun d => d.fd = fd

/-- Links descriptor `d` of process `p`, with its pointer entry, into the lists of `p` and of the
resource, and counts it. -/
def linkDescriptor (s : State) (p : PcbRef) (d : Descriptor) (dp : DescriptorPtr) : State :=
  let s := s.setDescriptors p ((s.pcbs p).descriptors ++ [{ d with ptr := dp.block }])
  s.updResource d.resource fun res =>
    { res with descriptorsPtrs := res.descriptorsPtrs ++ [dp], refCount := res.refCount + 1 }

/-- `List_detach(&res->descriptors_ptrs, des->ptr)`. -/
def detachDescriptorPtr (s : State) (d : Descriptor) : Except Halt State :=
  if (s.resource d.resource).descriptorsPtrs.any (·.block = d.ptr) then
    .ok (s.updResource d.resource fun res =>
      { res with descriptorsPtrs := res.descriptorsPtrs.eraseP (·.block = d.ptr) })
  else .error .corrupted

/-- `res->ref_count--`. -/
def decRefCount (s : State) (r : ResourceRef) : State :=
  s.updResource r fun res => { res with refCount := res.refCount - 1 }

/-! ## Syscalls -/

def internalOpenResource (s : State) : Except Halt State :=
  let caller := s.running
  let id := (s.pcbs caller).syscallArgs 0
  let type := (s.pcbs caller).syscallArgs 1
  let openMode := (s.pcbs caller).syscallArgs 2
  let found := resourceListById s id
  -- in CREATE mode the resource must be new, otherwise it must exist
  if hasFlag openMode dsosCreateBit then
    if found.isSome then .ok (s.setRetvalue caller dsosEResourceCreate)
    else
      match resourceAlloc s id type with
      | none => .ok (s.setRetvalue caller dsosEResourceCreate)
      | some (res, s) =>
        openDescriptor { s with resourcesList := s.resourcesList ++ [res] } caller (some res) type
          openMode
  else openDescriptor s caller found type openMode
where
  /-- The part of the call after the resource has been looked up or created. -/
  openDescriptor (s : State) (caller : PcbRef) (found : Option ResourceRef) (type openMode : Int) :
      Except Halt State :=
    match found with
    | none => .ok (s.setRetvalue caller dsosEResourceOpen)
    | some res =>
      if (s.resource res).type ≠ type then .ok (s.setRetvalue caller dsosEResourceOpen)
      else if hasFlag openMode dsosExclBit ∧ (s.resource res).refCount > 0 then
        .ok (s.setRetvalue caller dsosEResourceNoExcl)
      else
        match descriptorAlloc s (s.pcbs caller).lastFd res caller with
        | none => .ok (s.setRetvalue caller dsosEResourceNoFd)
        | some (des, s) =>
          match descriptorPtrAlloc s des with
          | none => .ok ((descriptorFree s des).setRetvalue caller dsosEResourceNoFd)
          | some (desptr, s) =>
            let s := linkDescriptor s caller des desptr
            let s := s.updPcb caller fun pcb => { pcb with lastFd := pcb.lastFd + 1 }
            .ok (s.setRetvalue caller des.fd)

def internalCloseResource (s : State) : Except Halt State :=
  let caller := s.running
  let fd := (s.pcbs caller).syscallArgs 0
  match descriptorListByFd (s.pcbs caller).descriptors fd with
  | none => .ok (s.setRetvalue caller dsosEResourceClose)
  | some des => do
    let s := s.setDescriptors caller ((s.pcbs caller).descriptors.erase des)
    let s ← detachDescriptorPtr s des
    let s := descriptorFree s des
    let s := descriptorPtrFree s des.ptr
    if (s.resource des.resource).refCount ≤ 0 then .error .assertion
    else .ok ((decRefCount s des.resource).setRetvalue caller 0)

def internalDestroyResource (s : State) : Except Halt State :=
  let caller := s.running
  let id := (s.pcbs caller).syscallArgs 0
  match resourceListById s id with
  | none => .ok (s.setRetvalue caller dsosEResourceClose)
  | some res =>
    if (s.resource res).refCount > 0 then .ok (s.setRetvalue caller dsosEResourceInUse)
    else do
      let s ← detachResource s res
      let s ← resourceFree s res
      .ok (s.setRetvalue caller 0)

end DisastrOS
