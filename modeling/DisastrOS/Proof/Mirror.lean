import DisastrOS.Proof.LinkedList
import DisastrOS.Proof.Sane

/-!
# The kernel's lists in memory

`Heap.Mirrors h lists`: the heads have these lists in the memory `h`, and the links of an item on no
list are null. `Mirrored (s, h)`: these are the lists of the PCBs in the state `s`.

* `listInsertAfter_mirrored` and the like: what the model of the kernel does to its sequences is
  what the functions of `linked_list.c` do to the memory. Where it stops because the PCB to insert
  is alone on a list, the memory has no lists afterwards.
* `Carries` takes the memory along: next to each change of a sequence the function that the code
  calls there changes the memory. Every step is made of such pieces (`step_tracks`), and from the
  zeroed memory every run keeps the two alike (`run_mirrored`).
-/

namespace DisastrOS

open Lib State Relation

/-- The heads have these lists, and the other items have null links. -/
structure Heap.Mirrors {α ι : Type} (h : Heap α ι) (lists : ι → List α) : Prop extends
    h.Holds lists where
  free : ∀ {x}, (∀ l, x ∉ lists l) → h.items x = ⟨none, none⟩

/-- The memory has the lists of the PCBs, of which those that are not looked at are empty. -/
structure Mirrored (a : State × Heap PcbRef PcbList) : Prop extends a.2.Mirrors a.1.list where
  looked : ∀ {L p}, p ∈ a.1.list L → L ∈ PcbList.all

/-- One thing that the kernel does, to the sequences and in memory. -/
inductive Carries : State × Heap PcbRef PcbList → State × Heap PcbRef PcbList → Prop
  /-- The lists are left alone. -/
  | keep {s s' : State} {h : Heap PcbRef PcbList} : (∀ L, s'.list L = s.list L) →
      Carries (s, h) (s', h)
  /-- The heads of a new queue, on whose lists nobody is. -/
  | init {s : State} {h : Heap PcbRef PcbList} {L : PcbList} : s.list L = [] →
      Carries (s, h) (s, h.listInit L)
  | insertAfter {s s' : State} {h : Heap PcbRef PcbList} {L : PcbList} {prev : Option PcbRef}
      {p : PcbRef} : L ∈ PcbList.all → (∀ q ∈ prev, q ∈ s.list L) →
      s.listInsertAfter L prev p = .ok s' → Carries (s, h) (s', (h.listInsert L prev p).2)
  | insertLast {s s' : State} {h : Heap PcbRef PcbList} {L : PcbList} {p : PcbRef} :
      L ∈ PcbList.all → s.listInsertLast L p = .ok s' → Carries (s, h) (s', h.listPushBack L p)
  | detach {s s' : State} {h : Heap PcbRef PcbList} {L : PcbList} {p : PcbRef} :
      s.listDetach L p = .ok s' → Carries (s, h) (s', (h.listDetach L p).2)
  | detachFirst {s s' : State} {h : Heap PcbRef PcbList} {L : PcbList} {p : PcbRef} :
      s.listDetachFirst L = .ok (p, s') → Carries (s, h) (s', (h.listPopFront L).2)

/-- `s'` comes from `s` by such things, whatever memory has the lists of `s`. -/
def Tracks (s s' : State) : Prop :=
  ∀ h, Mirrored (s, h) → ∃ h', ReflTransGen Carries (s, h) (s', h')

namespace Heap

section
variable {α ι : Type} {h h' : Heap α ι} {lists : ι → List α} {l j : ι} {p : Option α} {x : α}
  {xs ys : List α}

/-- The zeroed memory. -/
def zeroed (α ι : Type) : Heap α ι := ⟨fun _ => ⟨none, none⟩, fun _ => ⟨none, none, 0⟩⟩

theorem zeroed_mirrors : (zeroed α ι).Mirrors fun _ => [] where
  linked _ := ⟨rfl, rfl⟩
  size _ := rfl
  disjoint _ _ _ := List.disjoint_nil_left _
  free _ := rfl

theorem Mirrors.first_eq (hm : h.Mirrors lists) : (h.heads l).first = (lists l).head? :=
  (hm.linked l).first_eq

theorem Mirrors.last_eq (hm : h.Mirrors lists) : (h.heads l).last = (lists l).getLast? :=
  (hm.linked l).last_eq

/-- The links of the items that are on no list after the list of `l` has changed. -/
theorem Mirrors.free_of_frame [DecidableEq ι] (hm : h.Mirrors lists) (hf : Frame h h' l xs)
    (hsub : lists l ⊆ xs) (hx : ∀ j, x ∉ Function.update lists l ys j) (hxs : x ∉ xs) :
    h'.items x = ⟨none, none⟩ := by
  rw [hf.items x hxs]
  refine hm.free fun j hj => ?_
  by_cases hjl : j = l
  · subst hjl
    exact hxs (hsub hj)
  · have h1 := hx j
    rw [Function.update_of_ne hjl] at h1
    exact h1 hj

/-! ## The functions -/

namespace Mirrors

variable [DecidableEq ι]

/-- `List_init` of a head whose list is empty. -/
theorem init (hm : h.Mirrors lists) (hl : lists l = []) : (h.listInit l).Mirrors lists := by
  have hhead : h.heads l = ⟨none, none, 0⟩ := by
    have h1 := hm.first_eq (l := l)
    have h2 := hm.last_eq (l := l)
    have h3 := hm.size l
    rw [hl] at h1 h2 h3
    exact congr (congrArg₂ ListHead.mk h1 h2) h3
  have hsame : h.listInit l = h := by
    unfold listInit updHead
    congr 1
    funext j
    by_cases hj : j = l <;> simp [hj, hhead]
  rwa [hsame]

variable [DecidableEq α]

/-- `List_insert` of an item that is on no list. -/
theorem insert (hm : h.Mirrors lists) (hp : ∀ q ∈ p, q ∈ lists l) (hx : ∀ j, x ∉ lists j) :
    (h.listInsert l p x).2.Mirrors (Function.update lists l (insertAfter p x (lists l))) := by
  obtain ⟨h', he, hh', hf, -⟩ := hm.insert_after hp hx (hm.free hx)
  rw [he]
  refine ⟨hh', fun {y} hy => hm.free_of_frame hf (List.subset_cons_self _ _) hy ?_⟩
  have h1 := hy l
  rwa [Function.update_self, (insertAfter_perm _ _ _).mem_iff] at h1

/-- `List_insert` of an item that has a neighbour. -/
theorem insert_linked (hm : h.Mirrors lists) (hx : x ∈ lists j) (hne : lists j ≠ [x]) :
    h.listInsert l p x = (none, h) :=
  listInsert_refused fun hnull => hne ((hm.unlinked_iff hx).1 hnull)

/-- `List_detach` of a member. -/
theorem detach (hm : h.Mirrors lists) (hx : x ∈ lists l) :
    (h.listDetach l x).2.Mirrors (Function.update lists l ((lists l).erase x)) := by
  obtain ⟨h', he, hh', hnull, hf⟩ := hm.detach_erase hx
  rw [he]
  refine ⟨hh', fun {y} hy => ?_⟩
  by_cases hyx : y = x
  · rw [hyx, hnull]
  · have hyl : y ∉ lists l := by
      have h1 := hy l
      rw [Function.update_self] at h1
      exact fun hm => h1 ((List.mem_erase_of_ne hyx).2 hm)
    exact hm.free_of_frame hf (List.Subset.refl _) hy hyl

/-- `List_popFront`, of an empty list too. -/
theorem popFront (hm : h.Mirrors lists) :
    (h.listPopFront l).1 = (lists l).head? ∧
      (h.listPopFront l).2.Mirrors (Function.update lists l (lists l).tail) := by
  unfold listPopFront
  rw [hm.first_eq]
  cases hl : lists l with
  | nil =>
    have hsame : Function.update lists l [] = lists := by
      rw [← hl, Function.update_eq_self]
    rw [List.tail_nil, hsame]
    exact ⟨rfl, hm⟩
  | cons x xs =>
    have h1 := hm.detach (l := l) (x := x) (by simp [hl])
    rw [hl, List.erase_cons_head] at h1
    exact ⟨rfl, h1⟩

end Mirrors

end

end Heap

/-! ## The lists of the PCBs -/

section
variable {s s' s'' : State} {L : PcbList} {p : PcbRef} {q : QueueRef} {prev : Option PcbRef}
  {h : Heap PcbRef PcbList} {a b : State × Heap PcbRef PcbList} {e : Event} {es : List Event}

theorem list_setList_eq {ps : List PcbRef} :
    (s.setList L ps).list = Function.update s.list L ps := by
  funext L'
  by_cases hL : L' = L
  · rw [hL, list_setList_self, Function.update_self]
  · rw [list_setList_of_ne hL, Function.update_of_ne hL]

theorem Mirrored.surveyed (hm : Mirrored (s, h)) : Surveyed s where
  nodup L := (hm.linked L).nodup
  disj {L L' p} hp hp' := by
    by_contra hne
    exact hm.disjoint L L' hne hp hp'
  looked := hm.looked

/-- The kernel's insertions: what is refused, done and corrupted in the model is so in memory. -/
theorem listInsertAfter_mirrored (hm : h.Mirrors s.list) (hs : Surveyed s)
    (hprev : ∀ q ∈ prev, q ∈ s.list L) :
    Ensures (s.listInsertAfter L prev p)
      (fun _ => ∀ lists, ¬ (h.listInsert L prev p).2.Holds lists)
      fun s' => (h.listInsert L prev p).2.Mirrors s'.list := by
  unfold State.listInsertAfter
  by_cases hlisted : ∃ L', p ∈ s.list L'
  · obtain ⟨L', hp⟩ := hlisted
    by_cases hone : s.list L' = [p]
    · rw [hs.listInsert_alone hone]
      exact (hm.alone_corrupts hone).2
    · rw [hs.listInsert_linked hp hone, hm.insert_linked hp hone]
      exact hm
  · have hno (L' : PcbList) (hp : p ∈ s.list L') : False := hlisted ⟨L', hp⟩
    have h1 := hm.insert hprev hno
    rw [← list_setList_eq] at h1
    rw [listInsert_of_unlisted hno]
    exact h1

theorem listInsertLast_mirrored (hm : h.Mirrors s.list) (hs : Surveyed s) :
    Ensures (s.listInsertLast L p) (fun _ => ∀ lists, ¬ (h.listPushBack L p).Holds lists)
      fun s' => (h.listPushBack L p).Mirrors s'.list := by
  have h1 := listInsertAfter_mirrored (p := p) (L := L) hm hs fun q hq => List.mem_of_getLast? hq
  rw [State.listInsertAfter, insertAfter_last (hs.nodup L)] at h1
  rw [State.listInsertLast, Heap.listPushBack, hm.last_eq]
  exact h1

theorem listDetach_mirrored (hm : h.Mirrors s.list) :
    Ensures (s.listDetach L p) (fun _ => p ∉ s.list L)
      fun s' => (h.listDetach L p).2.Mirrors s'.list := by
  unfold State.listDetach
  by_cases hp : p ∈ s.list L
  · rw [if_pos hp, ensures_ok, list_setList_eq]
    exact hm.detach hp
  · rw [if_neg hp]
    exact hp

theorem listDetachFirst_mirrored (hm : h.Mirrors s.list) :
    Ensures (s.listDetachFirst L) (fun _ => (h.listPopFront L).1 = none)
      fun r => (h.listPopFront L).1 = some r.1 ∧ (h.listPopFront L).2.Mirrors r.2.list := by
  have h1 := hm.popFront (l := L)
  unfold State.listDetachFirst
  cases hl : s.list L with
  | nil =>
    rw [hl] at h1
    exact h1.1
  | cons q qs =>
    rw [hl, List.tail_cons, ← list_setList_eq] at h1
    exact h1

/-! ## The memory is taken along -/

/-- An insertion brings nobody to a list that is not looked at. -/
theorem looked_insert {ps : List PcbRef} (hl : ∀ {L p}, p ∈ s.list L → L ∈ PcbList.all)
    (hL : L ∈ PcbList.all) (hi : s.listInsert L p ps = .ok s') {L' : PcbList} {r : PcbRef}
    (hr : r ∈ s'.list L') : L' ∈ PcbList.all := by
  rcases listInsert_cases hi with rfl | rfl
  · exact hl hr
  · by_cases hL' : L' = L
    · exact hL' ▸ hL
    · rw [list_setList_of_ne hL'] at hr
      exact hl hr

/-- The sequences and the memory go together. -/
theorem Carries.mirrored (hc : Carries a b) (hm : Mirrored a) : Mirrored b := by
  cases hc with
  | @keep s s' h hl =>
    have heq : s'.list = s.list := funext hl
    exact ⟨heq ▸ hm.toMirrors, fun {L p} hp => hm.looked (hl L ▸ hp)⟩
  | init hL => exact ⟨hm.toMirrors.init hL, hm.looked⟩
  | insertAfter hL hprev hi =>
    exact ⟨(listInsertAfter_mirrored hm.toMirrors hm.surveyed hprev).ok hi,
      looked_insert hm.looked hL hi⟩
  | insertLast hL hi =>
    exact ⟨(listInsertLast_mirrored hm.toMirrors hm.surveyed).ok hi, looked_insert hm.looked hL hi⟩
  | @detach s s' h L p hd =>
    refine ⟨(listDetach_mirrored hm.toMirrors).ok hd, fun {L' r} hr => ?_⟩
    obtain ⟨hp, rfl⟩ := listDetach_cases hd
    exact hm.looked ((hm.surveyed.mem_detach (List.perm_cons_erase hp)).1 hr).2
  | @detachFirst s s' h L p hd =>
    refine ⟨((listDetachFirst_mirrored hm.toMirrors).ok hd).2, fun {L' r} hr => ?_⟩
    obtain ⟨ps, hps, rfl⟩ := listDetachFirst_cases hd
    exact hm.looked ((hm.surveyed.mem_detach (.of_eq hps)).1 hr).2

theorem mirrored_of_carries (hc : ReflTransGen Carries a b) (hm : Mirrored a) : Mirrored b := by
  induction hc with
  | refl => exact hm
  | tail _ hc ih => exact hc.mirrored ih

namespace Tracks

theorem refl (s : State) : Tracks s s := fun h _ => ⟨h, .refl⟩

theorem trans (h₁ : Tracks s s') (h₂ : Tracks s' s'') : Tracks s s'' := fun h hm => by
  obtain ⟨h', hc⟩ := h₁ h hm
  obtain ⟨h'', hc'⟩ := h₂ h' (mirrored_of_carries hc hm)
  exact ⟨h'', hc.trans hc'⟩

/-- What holds of any state with lists in memory may be assumed. -/
theorem of_apart (ht : Apart s → Tracks s s') : Tracks s s' := fun h hm =>
  ht hm.surveyed.toApart h hm

theorem keep (hl : ∀ L, s'.list L = s.list L) : Tracks s s' := fun h _ => ⟨h, .single (.keep hl)⟩

theorem still (hs : Still s s') : Tracks s s' := keep hs.list

theorem quiet (hq : Quiet s s') : Tracks s s' := keep hq.list

theorem setStatus (s : State) (p : PcbRef) (st : ProcessStatus) : Tracks s (s.setStatus p st) :=
  keep fun _ => list_setStatus

theorem init (hL : s.list L = []) : Tracks s s := fun _ _ => ⟨_, .single (.init hL)⟩

theorem insertAfter (hL : L ∈ PcbList.all) (hprev : ∀ q ∈ prev, q ∈ s.list L)
    (hi : s.listInsertAfter L prev p = .ok s') : Tracks s s' := fun _ _ =>
  ⟨_, .single (.insertAfter hL hprev hi)⟩

theorem insertLast (hL : L ∈ PcbList.all) (hi : s.listInsertLast L p = .ok s') : Tracks s s' :=
  fun _ _ => ⟨_, .single (.insertLast hL hi)⟩

theorem detach (hd : s.listDetach L p = .ok s') : Tracks s s' := fun _ _ =>
  ⟨_, .single (.detach hd)⟩

theorem detachFirst (hd : s.listDetachFirst L = .ok (p, s')) : Tracks s s' := fun _ _ =>
  ⟨_, .single (.detachFirst hd)⟩

/-- The first of a list is taken off it. -/
theorem pop {ps : List PcbRef} (hL : s.list L = p :: ps) : Tracks s (s.setList L ps) := by
  refine detachFirst (L := L) (p := p) ?_
  unfold State.listDetachFirst
  rw [hL]

end Tracks

/-! ## The calls -/

theorem Wakes.tracks (hw : Wakes L s s') : Tracks s s' := by
  obtain ⟨p, ps, s₁, hL, hq, hi⟩ := hw
  exact (Tracks.pop hL).trans ((Tracks.quiet hq).trans
    ((Tracks.setStatus s₁ p .ready).trans (.insertLast (by simp [PcbList.all]) hi)))

theorem Serves.tracks (hv : Serves L s s') : Tracks s s' := by
  obtain ⟨s₁, s₂, hq₁, hw, hq₂⟩ := hv
  have h1 : Tracks s₁ s₂ := by
    rcases hw with rfl | hw
    · exact .refl s₂
    · exact hw.tracks
  exact (Tracks.quiet hq₁).trans (h1.trans (.quiet hq₂))

theorem wakeAll_tracks : ∀ {ps : List PcbRef} {s : State}, wakeAll L ps s = .ok s' → Tracks s s'
  | [], _, hw => by
    cases hw
    exact .refl _
  | _ :: _, _, hw => by
    obtain ⟨s₁, h₁, hw⟩ := wakeAll_cases hw
    exact h₁.tracks.trans (wakeAll_tracks hw)

/-- A process that is taken off the waiting list is on the ready list after its insertion. -/
theorem Apart.mem_woken {s₁ : State} (ha : Apart s) (hd : s.listDetach .waiting p = .ok s₁)
    (hi : ((s₁.setStatus p .ready).setTimer p none).listInsertAfter .ready prev p = .ok s') :
    p ∈ s'.list .ready := by
  obtain ⟨hp, rfl⟩ := listDetach_cases hd
  rw [State.listInsertAfter, listInsert_of_unlisted fun L hL => ?_] at hi
  · cases hi
    rw [list_setList_self]
    exact (insertAfter_perm prev _ _).mem_iff.2 List.mem_cons_self
  · rw [list_setTimer, list_setStatus] at hL
    exact ((ha.mem_detach (List.perm_cons_erase hp)).1 hL).1 rfl

/-- The loop over the timers: the process woken last is on the ready list. -/
theorem wakeTimers_tracks : ∀ {ts : List TimerItem} {prev : Option PcbRef} {s : State},
    (∀ q ∈ prev, q ∈ s.list .ready) → wakeTimers ts prev s = .ok s' → Tracks s s'
  | [], _, _, _, hw => by
    cases hw
    exact .refl _
  | t :: ts, prev, s, hprev, hw => .of_apart fun ha => by
    rw [wakeTimers] at hw
    split at hw
    · obtain ⟨s₁, h₁, hw⟩ := bind_eq_ok.1 hw
      obtain ⟨s₂, h₂, hw⟩ := bind_eq_ok.1 hw
      set s₁' := (s₁.setStatus t.pcb .ready).setTimer t.pcb none with hs₁'
      have h1 : Tracks s₁ s₁' := .keep fun _ => list_setTimer.trans list_setStatus
      have hready : s₁.list .ready = s.list .ready := by
        obtain ⟨-, rfl⟩ := listDetach_cases h₁
        exact list_setList_of_ne (by simp)
      have hprev' : ∀ q ∈ prev, q ∈ s₁'.list .ready := by
        rw [hs₁', list_setTimer, list_setStatus, hready]
        exact hprev
      have h2 : Tracks s₂ (timerListRemoveCurrent s₂ t) := .keep fun L => by cases L <;> rfl
      have hlast : ∀ q ∈ some t.pcb, q ∈ (timerListRemoveCurrent s₂ t).list .ready := by
        intro q hq
        cases hq
        have hmem : t.pcb ∈ s₂.list .ready := ha.mem_woken h₁ h₂
        exact hmem
      exact (Tracks.detach h₁).trans (h1.trans
        ((Tracks.insertAfter (by simp [PcbList.all]) hprev' h₂).trans
          (h2.trans (wakeTimers_tracks hlast hw))))
    · cases hw
      exact .refl _

theorem dispatch_tracks (hd : dispatch s = .ok s') : Tracks s s' := by
  unfold dispatch at hd
  split at hd
  · cases hd
    exact .refl _
  obtain ⟨⟨next, s₁⟩, h₁, hd⟩ := bind_eq_ok.1 hd
  have hrun (s₂ : State) : Tracks s₂ ((s₂.setStatus next .running).setRunning next) :=
    (Tracks.setStatus s₂ next .running).trans (.keep fun _ => list_setRunning)
  refine (Tracks.detachFirst h₁).trans ?_
  dsimp only at hd
  split at hd
  · obtain ⟨s₂, h₂, hd⟩ := bind_eq_ok.1 hd
    cases hd
    exact (Tracks.setStatus s₁ _ .ready).trans
      ((Tracks.insertLast (by simp [PcbList.all]) h₂).trans (hrun s₂))
  · cases hd
    exact hrun s₁

theorem schedule_tracks (hs : internalSchedule s = .ok s') : Tracks s s' := by
  obtain ⟨s₁, h₁, hd⟩ := bind_eq_ok.1 hs
  exact (wakeTimers_tracks (by simp) h₁).trans (dispatch_tracks hd)

theorem Yields.tracks (hy : Yields s s') : Tracks s s' := by
  obtain ⟨p, ps, hL, rfl⟩ := hy
  refine (Tracks.pop (L := .ready) hL).trans ((Tracks.setStatus _ p .running).trans ?_)
  exact .keep fun _ => list_setRunning

theorem Blocks.tracks {L' : PcbList} (hb : Blocks L L' s s') (hL : L ∈ PcbList.all) :
    Tracks s s' := by
  obtain ⟨s₁, s₂, hi, hsch, hb⟩ := hb
  have h1 := (Tracks.setStatus s s.running .waiting).trans
    ((Tracks.insertLast hL hi).trans (schedule_tracks hsch))
  rcases hb with ⟨-, rfl⟩ | ⟨-, -, s₃, hd, hq⟩ | ⟨-, -, hv⟩
  · exact h1
  · exact h1.trans ((Tracks.detach hd).trans ((Tracks.setStatus s₃ _ .running).trans (.quiet hq)))
  · exact h1.trans hv.tracks

/-- The lists of a queue that is found are looked at. -/
theorem Sane.queue_looked {id : Int} (h : Sane s) (hq : lookupQueue s id = .ok (some q)) :
    .receivers q ∈ PcbList.all ∧ .senders q ∈ PcbList.all := by
  have hlt : q < maxMessageQueues := h.table.size ▸ (h.listed.used_of_lookup hq).1
  simpa [PcbList.all] using hlt

theorem mqSend_tracks (h : Sane s) (hs : internalMqSend s = .ok s') : Tracks s s' := by
  rcases mqSend_cases hs with hq | ⟨q, hq, hv | hb⟩
  · exact .quiet hq
  · exact hv.tracks
  · exact hb.tracks (h.queue_looked hq).2

theorem mqReceive_tracks (h : Sane s) (hs : internalMqReceive s = .ok s') : Tracks s s' := by
  rcases mqReceive_cases hs with hq | ⟨q, hq, hv | hb⟩
  · exact .quiet hq
  · exact hv.tracks
  · exact hb.tracks (h.queue_looked hq).1

theorem mqCreate_tracks (h : Sane s) (hs : internalMqCreate s = .ok s') : Tracks s s' := by
  rcases mqCreate_cases hs with ⟨-, hq⟩ | ⟨-, q, pool, hg, hq⟩
  · exact .quiet hq
  have hinit {id size : Int} : Tracks (queueCreated s q pool id size)
      (queueCreated s q pool id size) :=
    (Tracks.init (L := .receivers q) (by simp [queueCreated, State.list])).trans
      (.init (L := .senders q) (by simp [queueCreated, State.list]))
  exact (Tracks.still (.queueCreated h hg)).trans (hinit.trans (.quiet hq))

theorem mqDestroy_tracks (hs : internalMqDestroy s = .ok s') : Tracks s s' := by
  rcases mqDestroy_cases hs with hq | ⟨q, s₁, s₂, s₃, s₄, s₅, -, hq₁, hr, hw, hq₂, hd, s₆, hf, hq₃⟩
  · exact .quiet hq
  have h1 : Tracks s₅ s₆ := by
    obtain ⟨-, -, rfl⟩ := messageQueueFree_cases hf
    exact .keep fun L => by cases L <;> rfl
  exact (Tracks.quiet hq₁).trans ((wakeAll_tracks hr).trans ((wakeAll_tracks hw).trans
    ((Tracks.quiet hq₂).trans ((Tracks.still (.detachResource hd)).trans (h1.trans (.quiet hq₃))))))

theorem born_tracks {pool : Pool} (hs₁ : Still (newborn s p pool) s')
    (hi : s'.listInsertLast .ready p = .ok s'') : Tracks s s'' :=
  (Tracks.keep fun L => by cases L <;> rfl).trans ((Tracks.still hs₁).trans
    (.insertLast (by simp [PcbList.all]) hi))

theorem spawn_tracks (hs : internalSpawn s = .ok s') : Tracks s s' := by
  rcases spawn_cases hs with hq | ⟨p, pool, s₁, s₂, -, hq₁, hi, hq₂⟩
  · exact .quiet hq
  · exact (born_tracks (.quiet hq₁) hi).trans (.quiet hq₂)

theorem fork_tracks (hs : internalFork s = .ok s') : Tracks s s' := by
  rcases fork_cases hs with ⟨-, hq⟩ | ⟨p, pool, s₁, s₂, s₃, -, hq₁, hd, hq₂, hi⟩
  · exact .quiet hq
  · exact born_tracks ((Still.quiet hq₁).trans ((Still.forkDescriptors hd).trans (.quiet hq₂))) hi

theorem sleep_tracks (hs : internalSleep s = .ok s') : Tracks s s' := by
  rcases sleep_cases hs with ⟨hq, -⟩ | ⟨-, b, s₁, s₂, hq, hi, hsch⟩
  · exact .quiet hq
  have h1 : Tracks s (dozing s b) := .keep fun L => by cases L <;> rfl
  exact h1.trans ((Tracks.quiet hq).trans
    ((Tracks.insertLast (by simp [PcbList.all]) hi).trans (schedule_tracks hsch)))

theorem pcbFree_tracks (s : State) (p : PcbRef) : Tracks s (pcbFree s p) :=
  .keep fun L => by cases L <;> rfl

theorem wait_tracks (hs : internalWait s = .ok s') : Tracks s s' := by
  rcases wait_cases hs with hq | ⟨e, s₁, s₂, s₃, -, hq₁, hd, hq₂, rfl⟩ | ⟨s₁, hi, hy⟩
  · exact .quiet hq
  · exact (Tracks.quiet hq₁).trans ((Tracks.detach hd).trans ((Tracks.quiet hq₂).trans
      (pcbFree_tracks _ _)))
  · exact (Tracks.setStatus _ _ _).trans ((Tracks.insertLast (by simp [PcbList.all]) hi).trans
      hy.tracks)

theorem exitToParent_tracks {parent : PcbRef} (he : exitToParent s p parent = .ok s') :
    Tracks s s' := by
  obtain ⟨s₁, s₂, s₃, s₄, hd, hq, hrel, hz, rfl⟩ := exitToParent_cases he
  have h1 : Tracks (pcbFree s₄ p) ((pcbFree s₄ p).setRunning parent) :=
    .keep fun _ => list_setRunning
  exact (Tracks.detach hd).trans ((Tracks.setStatus s₁ parent .running).trans
    ((Tracks.quiet hq).trans ((Tracks.still (.purgeTimers s₂ p)).trans
      ((Tracks.still (.releaseDescriptors hrel)).trans ((Tracks.detach hz).trans
        ((pcbFree_tracks s₄ p).trans h1))))))

theorem exit_tracks (hs : internalExit s = .ok s') : Tracks s s' := by
  obtain ⟨s₁, s₂, s₃, parent, hq₁, hi, -, hq₂, hor⟩ := exit_cases hs
  have h1 : Tracks s s₃ := (Tracks.quiet hq₁).trans ((Tracks.setStatus s₁ _ .zombie).trans
    ((Tracks.insertLast (by simp [PcbList.all]) hi).trans (.quiet hq₂)))
  rcases hor with ⟨-, he⟩ | ⟨-, hy⟩
  · exact h1.trans (exitToParent_tracks he)
  · exact h1.trans hy.tracks

theorem open_tracks (hs : internalOpenResource s = .ok s') : Tracks s s' := by
  rcases open_cases hs with ⟨-, hq | ⟨r, -, ho⟩⟩ | ⟨-, i, pool, -, hq | ho⟩
  · exact .quiet hq
  · exact .still (.opens ho)
  · exact .still (Still.resourceCreated.trans (.quiet hq))
  · exact .still (Still.resourceCreated.trans (.opens ho))

theorem close_tracks (hs : internalCloseResource s = .ok s') : Tracks s s' := by
  rcases close_cases hs with ⟨-, hq⟩ | ⟨d, -, -, hq⟩
  · exact .quiet hq
  · exact .still (Still.dropped.trans (.quiet hq))

theorem destroy_tracks (hs : internalDestroyResource s = .ok s') : Tracks s s' := by
  rcases destroy_cases hs with ⟨-, hq⟩ | ⟨r, s₁, s₂, -, hd, hf, hq⟩
  · exact .quiet hq
  · exact .still ((Still.detachResource hd).trans ((Still.resourceFree hf).trans (.quiet hq)))

/-! ## Runs -/

/-- **Every step takes the memory along**: what it does to the sequences of the PCBs, the functions
of `linked_list.c` do to their memory. -/
theorem step_tracks (h : Sane s) (hs : step s e = .ok s') : Tracks s s' := by
  cases e with
  | tick =>
    exact (Tracks.keep fun L => by cases L <;> rfl).trans (schedule_tracks hs)
  | store addr bytes =>
    cases hs
    exact .quiet rfl
  | syscall c =>
    have h0 := h.saveCall c
    refine (Tracks.keep (list_saveCall s c)).trans ?_
    cases c with
    | preempt => exact schedule_tracks ((step_syscall rfl).symm.trans hs)
    | fork => exact fork_tracks ((step_syscall rfl).symm.trans hs)
    | wait _ _ => exact wait_tracks ((step_syscall rfl).symm.trans hs)
    | exit _ => exact exit_tracks ((step_syscall rfl).symm.trans hs)
    | spawn _ _ => exact spawn_tracks ((step_syscall rfl).symm.trans hs)
    | sleep _ => exact sleep_tracks ((step_syscall rfl).symm.trans hs)
    | openResource _ _ _ => exact open_tracks ((step_syscall rfl).symm.trans hs)
    | closeResource _ => exact close_tracks ((step_syscall rfl).symm.trans hs)
    | destroyResource _ => exact destroy_tracks ((step_syscall rfl).symm.trans hs)
    | mqCreate _ _ => exact mqCreate_tracks h0 ((step_syscall rfl).symm.trans hs)
    | mqSend _ _ _ => exact mqSend_tracks h0 ((step_syscall rfl).symm.trans hs)
    | mqReceive _ _ _ => exact mqReceive_tracks h0 ((step_syscall rfl).symm.trans hs)
    | mqDestroy _ => exact mqDestroy_tracks ((step_syscall rfl).symm.trans hs)
    | shutdown => cases (step_syscall (f := fun _ => .error .shutdown) rfl).symm.trans hs

/-- At the start no list has an item and no link is set. -/
theorem coldState_mirrored : Mirrored (coldState, .zeroed PcbRef PcbList) := by
  have hnil (L : PcbList) : coldState.list L = [] := by cases L <;> rfl
  refine ⟨?_, fun {L p} hp => ?_⟩
  · rw [funext hnil]
    exact Heap.zeroed_mirrors
  · rw [hnil] at hp
    cases hp

/-- **The kernel's lists are linked lists.** Take the zeroed memory along through a run: it has the
lists of every state that is reached. -/
theorem run_mirrored (hr : run step boot es = .ok s) : ∃ h,
    ReflTransGen Carries (coldState, .zeroed PcbRef PcbList) (s, h) ∧ h.Mirrors s.list := by
  have h0 : Tracks coldState boot := by
    obtain ⟨pool, -, he⟩ := boot_eq
    exact .keep fun L => by rw [he]; cases L <;> rfl
  have h1 : Sane s ∧ Tracks coldState s :=
    run_inv' (I := fun s => Sane s ∧ Tracks coldState s) (A := fun _ => True)
      (fun _ _ _ h _ hs => ⟨(step_steps h.1 hs).sane, h.2.trans (step_tracks h.1 hs)⟩)
      ⟨boot_sane, h0⟩ (fun _ _ => trivial) hr
  obtain ⟨h, hc⟩ := h1.2 _ coldState_mirrored
  exact ⟨h, hc, (mirrored_of_carries hc coldState_mirrored).toMirrors⟩

end

end DisastrOS
