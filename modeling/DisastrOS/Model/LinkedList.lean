/-!
# The linked lists

`linked_list.c`. The memory holds the links of the items, which are part of the objects on the
lists, and the heads. A pointer is the object that it points to, and null is `none`; an argument
that the code follows without a test is not null. The checks of `_LIST_DEBUG_`, which the build does
not define, are left out, and with them `List_find`.
-/

namespace DisastrOS

@[ext] structure ListItem (α : Type) where
  next : Option α
  prev : Option α
  deriving DecidableEq

structure ListHead (α : Type) where
  first : Option α
  last : Option α
  size : Int
  deriving DecidableEq

/-- The items and the heads. -/
structure Heap (α ι : Type) where
  items : α → ListItem α
  heads : ι → ListHead α

namespace Heap

variable {α ι : Type}

/-- `p->next`. -/
def next (h : Heap α ι) (p : α) : Option α := (h.items p).next

/-- `p->prev`. -/
def prev (h : Heap α ι) (p : α) : Option α := (h.items p).prev

/-- `p->next=v`. -/
def setNext [DecidableEq α] (h : Heap α ι) (p : α) (v : Option α) : Heap α ι :=
  { h with items := fun i => if i = p then { h.items i with next := v } else h.items i }

/-- `p->prev=v`. -/
def setPrev [DecidableEq α] (h : Heap α ι) (p : α) (v : Option α) : Heap α ι :=
  { h with items := fun i => if i = p then { h.items i with prev := v } else h.items i }

/-- Assigns to fields of the head `l`. -/
def updHead [DecidableEq ι] (h : Heap α ι) (l : ι) (f : ListHead α → ListHead α) :
    Heap α ι :=
  { h with heads := fun j => if j = l then f (h.heads j) else h.heads j }

/-! ## Reading after an assignment -/

section
variable {h h' : Heap α ι} {p i : α} {v : Option α} {l j : ι} {f : ListHead α → ListHead α}

theorem ext_links (hn : ∀ i, h.next i = h'.next i) (hp : ∀ i, h.prev i = h'.prev i)
    (hh : ∀ j, h.heads j = h'.heads j) : h = h' := by
  obtain ⟨items, heads⟩ := h
  obtain ⟨items', heads'⟩ := h'
  have hitems : items = items' := funext fun i => ListItem.ext (hn i) (hp i)
  rw [hitems, show heads = heads' from funext hh]

@[simp] theorem next_setNext [DecidableEq α] :
    (h.setNext p v).next i = if i = p then v else h.next i := by
  unfold next setNext
  dsimp only
  split <;> rfl

@[simp] theorem prev_setNext [DecidableEq α] : (h.setNext p v).prev i = h.prev i := by
  unfold prev setNext
  dsimp only
  split <;> rfl

@[simp] theorem next_setPrev [DecidableEq α] : (h.setPrev p v).next i = h.next i := by
  unfold next setPrev
  dsimp only
  split <;> rfl

@[simp] theorem prev_setPrev [DecidableEq α] :
    (h.setPrev p v).prev i = if i = p then v else h.prev i := by
  unfold prev setPrev
  dsimp only
  split <;> rfl

@[simp] theorem heads_setNext [DecidableEq α] : (h.setNext p v).heads = h.heads := rfl

@[simp] theorem heads_setPrev [DecidableEq α] : (h.setPrev p v).heads = h.heads := rfl

@[simp] theorem next_updHead [DecidableEq ι] : (h.updHead l f).next i = h.next i := rfl

@[simp] theorem prev_updHead [DecidableEq ι] : (h.updHead l f).prev i = h.prev i := rfl

@[simp] theorem heads_updHead [DecidableEq ι] :
    (h.updHead l f).heads j = if j = l then f (h.heads j) else h.heads j := rfl

end

/-! ## The functions -/

def listInit [DecidableEq ι] (h : Heap α ι) (head : ι) : Heap α ι :=
  h.updHead head fun _ => ⟨none, none, 0⟩

variable [DecidableEq α] [DecidableEq ι]

/-- What is returned, and the memory. -/
def listInsert (h : Heap α ι) (head : ι) (prev : Option α) (item : α) : Option α × Heap α ι :=
  if (h.next item).isSome ∨ (h.prev item).isSome then (none, h)
  else
    let next := prev.elim (h.heads head).first h.next
    let h := match prev with
      | some prev => (h.setPrev item (some prev)).setNext prev (some item)
      | none => h
    let h := match next with
      | some next => (h.setNext item (some next)).setPrev next (some item)
      | none => h
    let h := h.updHead head fun hd => if prev = none then { hd with first := some item } else hd
    let h := h.updHead head fun hd => if next = none then { hd with last := some item } else hd
    (some item, h.updHead head fun hd => { hd with size := hd.size + 1 })

def listDetach (h : Heap α ι) (head : ι) (item : α) : α × Heap α ι :=
  let prev := h.prev item
  let next := h.next item
  let h := match prev with
    | some prev => h.setNext prev next
    | none => h
  let h := match next with
    | some next => h.setPrev next prev
    | none => h
  let h := h.updHead head fun hd => if hd.first = some item then { hd with first := next } else hd
  let h := h.updHead head fun hd => if hd.last = some item then { hd with last := prev } else hd
  let h := h.updHead head fun hd => { hd with size := hd.size - 1 }
  (item, (h.setPrev item none).setNext item none)

def listPopFront (h : Heap α ι) (head : ι) : Option α × Heap α ι :=
  match (h.heads head).first with
  | none => (none, h)
  | some first =>
    let (item, h) := h.listDetach head first
    (some item, h)

def listPushBack (h : Heap α ι) (head : ι) (item : α) : Heap α ι :=
  (h.listInsert head (h.heads head).last item).2

end Heap

end DisastrOS
