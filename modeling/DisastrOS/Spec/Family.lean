import DisastrOS.Model.Kernel

/-!
# The process family

What spawn, fork, wait and exit are for, without lists and pools: every process but the root is a
child of some process, an exited process is a zombie until it is waited for, and the children of an
exiting process move to the root. `Family.Step r` says what a call of process `r` does.

* `Wf` is kept by every step (`Step.wf`).
* `Rooted`, which makes the parent of a process the owner of its entry, is kept exactly by the steps
  in which no process with children exits (`Step.rooted`, `Step.not_rooted`).
* `Answered`, by which nobody sleeps in a `wait` that could end, is kept exactly by the exits that
  leave the root nothing to wait for (`Step.answered`, `Step.not_answered`).
-/

namespace DisastrOS

structure Family where
  /-- The blocks there are for processes. -/
  capacity : Nat
  root : PcbRef
  member : PcbRef → Prop
  parent : PcbRef → Option PcbRef
  children : PcbRef → List PcbRef
  pid : PcbRef → Nat
  nextPid : Nat
  zombie : PcbRef → Prop
  /-- The pid that a process sleeps in a `wait` for. -/
  asleep : PcbRef → Option Int

/-- The process with this pid ends a `wait` for `w`. -/
def Matches (w : Int) (pid : Nat) : Prop := w = 0 ∨ w = pid

namespace Family

/-! ## What happens to a family -/

/-- `r` has a new child `p`. -/
def birth (a : Family) (r p : PcbRef) : Family :=
  { a with
    member := fun x => x = p ∨ a.member x
    parent := fun x => if x = p then some r else a.parent x
    children := fun x => if x = r then a.children x ++ [p] else a.children x
    pid := fun x => if x = p then a.nextPid else a.pid x
    nextPid := a.nextPid + 1 }

/-- The child `p` of `r` is waited for. -/
def reap (a : Family) (r p : PcbRef) : Family :=
  { a with
    member := fun x => x ≠ p ∧ a.member x
    children := fun x => if x = r then (a.children x).erase p else a.children x
    zombie := fun x => x ≠ p ∧ a.zombie x }

/-- The children of `r` move to the root. -/
def orphan (a : Family) (r : PcbRef) : Family :=
  { a with
    children := fun x =>
      if x = r then [] else if x = a.root then a.children x ++ a.children r else a.children x }

def bury (a : Family) (r : PcbRef) : Family := { a with zombie := fun x => x = r ∨ a.zombie x }

def sleep (a : Family) (r : PcbRef) (w : Int) : Family :=
  { a with asleep := fun x => if x = r then some w else a.asleep x }

def wake (a : Family) (q : PcbRef) : Family :=
  { a with asleep := fun x => if x = q then none else a.asleep x }

/-- There is no block for another process. -/
def Full (a : Family) : Prop := ∀ p < a.capacity, a.member p

/-- The call `c` of `r` leaves the family as it is: it is about other things, or fails. -/
def Unmoved (a : Family) (r : PcbRef) : Syscall → Prop
  | .fork | .spawn .. => a.Full
  | .wait .. => a.children r = []
  | .exit _ => False
  | _ => True

/-- A `wait` for `w` looks for such a child. -/
def Wants (a : Family) (w : Int) (p : PcbRef) : Prop :=
  w = 0 ∧ a.zombie p ∨ w ≠ 0 ∧ (a.pid p : Int) = w

open Classical in
/-- The child at which the search ends: the first such child, or the last of all if there is none. -/
noncomputable def cursor (a : Family) (r : PcbRef) (w : Int) : Option PcbRef :=
  ((a.children r).find? (a.Wants w ·)).or (a.children r).getLast?

inductive Step (r : PcbRef) (a : Family) : Syscall → Family → Prop
  | same (c : Syscall) (hc : a.Unmoved r c) : Step r a c a
  | birth (c : Syscall) (p : PcbRef) (hc : c = .fork ∨ ∃ f args, c = .spawn f args)
      (hp : ¬ a.member p) : Step r a c (a.birth r p)
  | sleep (w result : Int)
      (h : ∀ p ∈ a.children r, a.zombie p → 0 ≤ w → ¬ Matches w (a.pid p)) :
      Step r a (.wait w result) (a.sleep r w)
  | reap (w result : Int) (p : PcbRef) (hp : p ∈ a.children r) (hz : a.zombie p) :
      Step r a (.wait w result) (a.reap r p)
  /-- The parent sleeps in a `wait` that ends with `r`, which is reaped at once. -/
  | exitToParent (v : Int) (q : PcbRef) (w : Int) (hr : r ≠ a.root) (hq : a.parent r = some q)
      (hw : a.asleep q = some w) (hm : Matches w (a.pid r)) (hc : r ∈ (a.orphan r).children q) :
      Step r a (.exit v) (((a.orphan r).reap q r).wake q)
  | exitToNext (v : Int) (q : PcbRef) (hr : r ≠ a.root) (hq : a.parent r = some q)
      (hn : ∀ w, a.asleep q = some w → ¬ Matches w (a.pid r)) :
      Step r a (.exit v) ((a.orphan r).bury r)

/-! ## The children lists -/

/-- Every child is on one list, that of its parent or of the root. -/
structure Wf (a : Family) : Prop where
  rootMem : a.member a.root
  rootParent : a.parent a.root = none
  rootAlive : ¬ a.zombie a.root
  entry : ∀ {q p}, p ∈ a.children q → a.member p ∧ p ≠ a.root
  irrefl : ∀ p, p ∉ a.children p
  owner : ∀ {q q' p}, p ∈ a.children q → p ∈ a.children q' → q = q'
  nodup : ∀ q, (a.children q).Nodup
  parent : ∀ {q p}, p ∈ a.children q → a.parent p = some q ∨ q = a.root
  adopted : ∀ {p}, a.member p → p ≠ a.root → ∃ q, p ∈ a.children q
  free : ∀ {q}, ¬ a.member q → a.children q = []
  zombie : ∀ {q}, a.zombie q → a.children q = []
  pid_lt : ∀ {p}, a.member p → a.pid p < a.nextPid
  pid_inj : ∀ {p q}, a.member p → a.member q → a.pid p = a.pid q → p = q

section
variable {a a' : Family} {r p q x y : PcbRef} {c : Syscall} {w : Int}

/-- `Wf` is not about who sleeps, and holds with fewer zombies. -/
theorem Wf.congr (h : a.Wf) (hr : a'.root = a.root) (hm : ∀ p, a'.member p ↔ a.member p)
    (hp : a'.parent = a.parent) (hc : a'.children = a.children) (hi : a'.pid = a.pid)
    (hn : a'.nextPid = a.nextPid) (hz : ∀ p, a'.zombie p → a.zombie p) : a'.Wf := by
  refine ⟨?_, ?_, ?_, ?_, ?_, ?_, ?_, ?_, ?_, ?_, fun hq => hc ▸ h.zombie (hz _ hq), ?_, ?_⟩ <;>
    simp only [hr, hm, hp, hc, hi, hn]
  exacts [h.rootMem, h.rootParent, fun hq => h.rootAlive (hz _ hq), h.entry, h.irrefl, h.owner,
    h.nodup, h.parent, h.adopted, h.free, h.pid_lt, h.pid_inj]

theorem mem_birth : x ∈ (a.birth r p).children y ↔ x ∈ a.children y ∨ y = r ∧ x = p := by
  by_cases hy : y = r <;> simp [birth, hy]

theorem Wf.mem_reap (h : a.Wf) (hp : p ∈ a.children r) :
    x ∈ (a.reap r p).children y ↔ x ≠ p ∧ x ∈ a.children y := by
  by_cases hy : y = r
  · simp [reap, hy, (h.nodup r).mem_erase_iff]
  · simp only [reap, if_neg hy]
    refine ⟨fun hx => ⟨?_, hx⟩, fun hx => hx.2⟩
    rintro rfl
    exact hy (h.owner hx hp)

theorem mem_orphan (hr : r ≠ a.root) : x ∈ (a.orphan r).children y ↔
    y ≠ r ∧ (x ∈ a.children y ∨ y = a.root ∧ x ∈ a.children r) := by
  by_cases hy : y = r
  · simp [orphan, hy]
  · by_cases hy' : y = a.root <;> simp [orphan, hy, hy', Ne.symm hr]

theorem Wf.birth (h : a.Wf) (hr : a.member r) (hz : ¬ a.zombie r) (hp : ¬ a.member p) :
    (a.birth r p).Wf := by
  have hpr : p ≠ a.root := fun e => hp (e ▸ h.rootMem)
  have hne : ∀ {x}, a.member x → x ≠ p := fun hx e => hp (e ▸ hx)
  have hpc : ∀ y, p ∉ a.children y := fun y hm => hp (h.entry hm).1
  refine ⟨.inr h.rootMem, ?_, h.rootAlive, ?_, fun y hy => ?_, ?_, fun y => ?_, ?_, ?_, ?_, ?_, ?_,
    ?_⟩
  · simp [Family.birth, hpr.symm, h.rootParent]
  · intro y x hx
    rcases mem_birth.1 hx with hx | ⟨rfl, rfl⟩
    exacts [⟨.inr (h.entry hx).1, (h.entry hx).2⟩, ⟨.inl rfl, hpr⟩]
  · rcases mem_birth.1 hy with hy | ⟨rfl, rfl⟩
    exacts [h.irrefl y hy, hp hr]
  · intro y y' x hx hx'
    rcases mem_birth.1 hx with h1 | ⟨h1, e⟩ <;> rcases mem_birth.1 hx' with h2 | ⟨h2, e'⟩
    · exact h.owner h1 h2
    · exact absurd (e' ▸ h1) (hpc y)
    · exact absurd (e ▸ h2) (hpc y')
    · exact h1.trans h2.symm
  · by_cases hy : y = r
    · simp only [Family.birth, hy, if_true]
      exact (h.nodup r).append (by simp) (by simpa using hpc r)
    · simpa [Family.birth, hy] using h.nodup y
  · intro y x hx
    rcases mem_birth.1 hx with hx | ⟨rfl, rfl⟩
    · simpa [Family.birth, hne (h.entry hx).1] using h.parent hx
    · simp [Family.birth]
  · rintro x (rfl | hx) hxr
    · exact ⟨r, mem_birth.2 (.inr ⟨rfl, rfl⟩)⟩
    · obtain ⟨y, hy⟩ := h.adopted hx hxr
      exact ⟨y, mem_birth.2 (.inl hy)⟩
  · intro y hy
    change ¬ (y = p ∨ a.member y) at hy
    rw [not_or] at hy
    have hyr : y ≠ r := fun e => hy.2 (e ▸ hr)
    simpa [Family.birth, hyr] using h.free hy.2
  · intro y hy
    have hyr : y ≠ r := fun e => hz (e ▸ hy)
    simpa [Family.birth, hyr] using h.zombie hy
  · rintro x (rfl | hx)
    · simp [Family.birth]
    · simpa [Family.birth, hne hx] using Nat.lt_succ_of_lt (h.pid_lt hx)
  · rintro x y (rfl | hx) (rfl | hy) he
    · rfl
    · simp only [Family.birth, if_true, if_neg (hne hy)] at he
      exact absurd (h.pid_lt hy) (by omega)
    · simp only [Family.birth, if_true, if_neg (hne hx)] at he
      exact absurd (h.pid_lt hx) (by omega)
    · simp only [Family.birth, if_neg (hne hx), if_neg (hne hy)] at he
      exact h.pid_inj hx hy he

/-- A process without children that is waited for. -/
theorem Wf.reap (h : a.Wf) (hp : p ∈ a.children r) (hc : a.children p = []) :
    (a.reap r p).Wf := by
  have hpr := (h.entry hp).2
  refine ⟨⟨hpr.symm, h.rootMem⟩, h.rootParent, fun hz => h.rootAlive hz.2, ?_, fun y hy => ?_, ?_,
    fun y => ?_, ?_, ?_, ?_, ?_, fun hx => h.pid_lt hx.2, fun hx hy => h.pid_inj hx.2 hy.2⟩
  · intro y x hx
    obtain ⟨hne, hx⟩ := (h.mem_reap hp).1 hx
    exact ⟨⟨hne, (h.entry hx).1⟩, (h.entry hx).2⟩
  · exact h.irrefl y ((h.mem_reap hp).1 hy).2
  · exact fun hx hx' => h.owner ((h.mem_reap hp).1 hx).2 ((h.mem_reap hp).1 hx').2
  · by_cases hy : y = r
    · simpa [Family.reap, hy] using (h.nodup r).erase p
    · simpa [Family.reap, hy] using h.nodup y
  · exact fun hx => h.parent ((h.mem_reap hp).1 hx).2
  · rintro x ⟨hne, hx⟩ hxr
    obtain ⟨y, hy⟩ := h.adopted hx hxr
    exact ⟨y, (h.mem_reap hp).2 ⟨hne, hy⟩⟩
  · intro y hy
    refine List.eq_nil_iff_forall_not_mem.2 fun x hx => ?_
    obtain ⟨hne, hx⟩ := (h.mem_reap hp).1 hx
    by_cases hyp : y = p
    · simp [hyp, hc] at hx
    · simp [h.free fun hm => hy ⟨hyp, hm⟩] at hx
  · rintro y ⟨-, hy⟩
    refine List.eq_nil_iff_forall_not_mem.2 fun x hx => ?_
    have := ((h.mem_reap hp).1 hx).2
    rw [h.zombie hy] at this
    cases this

/-- A zombie that is reaped at once has never been one. -/
theorem reap_bury : (a.bury r).reap q r = a.reap q r := by
  unfold Family.reap Family.bury
  congr 1
  funext x
  simp only [eq_iff_iff]
  tauto

theorem Wf.orphan (h : a.Wf) (hr : r ≠ a.root) : (a.orphan r).Wf := by
  refine ⟨h.rootMem, h.rootParent, h.rootAlive, ?_, fun y hy => ?_, ?_, fun y => ?_, ?_, ?_, ?_, ?_,
    h.pid_lt, h.pid_inj⟩
  · intro y x hx
    rcases ((mem_orphan hr).1 hx).2 with hx | ⟨-, hx⟩ <;> exact h.entry hx
  · rcases ((mem_orphan hr).1 hy).2 with hy | ⟨rfl, hy⟩
    exacts [h.irrefl y hy, (h.entry hy).2 rfl]
  · intro y y' x hx hx'
    obtain ⟨hy, h1⟩ := (mem_orphan hr).1 hx
    obtain ⟨hy', h2⟩ := (mem_orphan hr).1 hx'
    rcases h1 with h1 | ⟨e, h1⟩ <;> rcases h2 with h2 | ⟨e', h2⟩
    · exact h.owner h1 h2
    · exact absurd (h.owner h1 h2) hy
    · exact absurd (h.owner h2 h1) hy'
    · exact e.trans e'.symm
  · simp only [Family.orphan]
    split
    · exact List.nodup_nil
    split
    · rename_i hyr hy
      subst hy
      exact (h.nodup _).append (h.nodup r) fun x hx hx' => hr (h.owner hx' hx)
    · exact h.nodup y
  · intro y x hx
    rcases ((mem_orphan hr).1 hx).2 with hx | ⟨rfl, -⟩
    exacts [h.parent hx, .inr rfl]
  · intro x hx hxr
    obtain ⟨y, hy⟩ := h.adopted hx hxr
    by_cases hyr : y = r
    · exact ⟨a.root, (mem_orphan hr).2 ⟨hr.symm, .inr ⟨rfl, hyr ▸ hy⟩⟩⟩
    · exact ⟨y, (mem_orphan hr).2 ⟨hyr, .inl hy⟩⟩
  · intro y hy
    have hyr : y ≠ a.root := fun e => hy (e ▸ h.rootMem)
    simp only [Family.orphan, if_neg hyr]
    split
    exacts [rfl, h.free hy]
  · intro y hy
    have hyr : y ≠ a.root := fun e => h.rootAlive (e ▸ hy)
    simp only [Family.orphan, if_neg hyr]
    split
    exacts [rfl, h.zombie hy]

theorem orphan_children : (a.orphan r).children r = [] := if_pos rfl

theorem Wf.bury (h : a.Wf) (hr : r ≠ a.root) (hc : a.children r = []) : (a.bury r).Wf := by
  refine { h with rootAlive := ?_, zombie := ?_ }
  · rintro (e | hz)
    exacts [hr e.symm, h.rootAlive hz]
  · rintro y (rfl | hy)
    exacts [hc, h.zombie hy]

/-! ## The search of a `wait` -/

theorem mem_of_cursor (h : a.cursor r w = some p) : p ∈ a.children r := by
  rcases Option.or_eq_some_iff.1 h with hf | ⟨-, hl⟩
  · exact List.mem_of_find?_eq_some hf
  · exact List.mem_of_getLast? hl

/-- When the search ends at a child that is alive, no zombie is waited for. -/
theorem Wf.cursor_alive (h : a.Wf) (hc : a.cursor r w = some p) (hz : ¬ a.zombie p)
    (hx : x ∈ a.children r) (hzx : a.zombie x) : ¬ Matches w (a.pid x) := by
  intro hm
  have hw : a.Wants w x := by
    by_cases h1 : w = 0
    · exact .inl ⟨h1, hzx⟩
    · exact .inr ⟨h1, (hm.resolve_left h1).symm⟩
  rcases Option.or_eq_some_iff.1 hc with hf | ⟨hf, -⟩
  · have hp := List.mem_of_find?_eq_some hf
    have hwp : a.Wants w p := by simpa using List.find?_some hf
    rcases hwp with hwp | hwp
    · exact hz hwp.2
    · have hpid : a.pid x = a.pid p := by
        have := hm.resolve_left hwp.1
        omega
      exact hz (h.pid_inj (h.entry hx).1 (h.entry hp).1 hpid ▸ hzx)
  · have := List.find?_eq_none.1 hf x hx
    exact this (by simpa using hw)

/-! ## Steps -/

/-- What the running process `r` does keeps the children lists in order. -/
theorem Step.wf (hs : a.Step r c a') (h : a.Wf) (hr : a.member r) (hz : ¬ a.zombie r) : a'.Wf := by
  cases hs with
  | same => exact h
  | birth _ p _ hp => exact h.birth hr hz hp
  | sleep => exact h.congr rfl (fun _ => .rfl) rfl rfl rfl rfl fun _ => id
  | reap _ _ p hp hzp => exact h.reap hp (h.zombie hzp)
  | exitToParent _ q w hne _ _ _ hc =>
    exact ((h.orphan hne).reap hc orphan_children).congr rfl (fun _ => .rfl) rfl rfl rfl rfl
      fun _ => id
  | exitToNext _ q hne => exact (h.orphan hne).bury hne orphan_children

/-- The root does not exit. -/
theorem Step.exit_ne_root {v : Int} (hs : a.Step r (.exit v) a') : r ≠ a.root := by
  cases hs with
  | same _ hc => exact hc.elim
  | birth _ _ hc => rcases hc with hc | ⟨_, _, hc⟩ <;> cases hc
  | exitToParent _ _ _ hr => exact hr
  | exitToNext _ _ hr => exact hr

/-! ## Parents -/

/-- The parent of a process is whoever has it on the children list. -/
def Rooted (a : Family) : Prop := ∀ p, a.member p → ∀ q, p ∈ a.children q ↔ a.parent p = some q

theorem Rooted.birth (h : a.Wf) (ho : a.Rooted) (hp : ¬ a.member p) :
    (a.birth r p).Rooted := by
  rintro x (rfl | hx) q
  · have : x ∉ a.children q := fun hm => hp (h.entry hm).1
    rw [mem_birth]
    simp [this, Family.birth, eq_comm]
  · have hne : x ≠ p := fun e => hp (e ▸ hx)
    rw [mem_birth]
    simpa [hne, Family.birth] using ho x hx q

theorem Rooted.reap (h : a.Wf) (ho : a.Rooted) (hp : p ∈ a.children r) : (a.reap r p).Rooted := by
  rintro x ⟨hne, hx⟩ q
  rw [h.mem_reap hp]
  exact (and_iff_right hne).trans (ho x hx q)

/-- Nobody to move. -/
theorem orphan_eq (hc : a.children r = []) : a.orphan r = a := by
  have : (fun x => if x = r then [] else if x = a.root then a.children x ++ a.children r
      else a.children x) = a.children := by
    funext x
    by_cases hx : x = r
    · simp [hx, hc]
    · simp [hx, hc]
  unfold Family.orphan
  rw [this]

/-- Parents stay the owners as long as no process with children exits. -/
theorem Step.rooted (hs : a.Step r c a') (h : a.Wf) (ho : a.Rooted)
    (hn : ∀ v, c = .exit v → a.children r = []) : a'.Rooted := by
  cases hs with
  | same => exact ho
  | birth _ p _ hp => exact ho.birth h hp
  | sleep => exact ho
  | reap _ _ p hp => exact ho.reap h hp
  | exitToParent v q w _ _ _ _ hc =>
    rw [orphan_eq (hn v rfl)] at hc ⊢
    exact ho.reap h hc
  | exitToNext v q =>
    rw [orphan_eq (hn v rfl)]
    exact ho

/-- The exit of a process with children leaves them with a parent that is not their owner. -/
theorem Step.not_rooted {v : Int} (hs : a.Step r (.exit v) a') (h : a.Wf) (ho : a.Rooted)
    (hr : r ≠ a.root) (hc : a.children r ≠ []) : ¬ a'.Rooted := by
  obtain ⟨p, ps, hps⟩ := List.exists_cons_of_ne_nil hc
  have hp : p ∈ a.children r := by simp [hps]
  have hmem := (h.entry hp).1
  have hpar := (ho p hmem r).1 hp
  have horph : p ∈ (a.orphan r).children a.root := (mem_orphan hr).2 ⟨hr.symm, .inr ⟨rfl, hp⟩⟩
  -- the parent of `p` is `r`, its owner the root
  suffices hnew : a'.member p ∧ p ∈ a'.children a.root ∧ a'.parent p = some r by
    intro hroot
    have := (hroot p hnew.1 a.root).1 hnew.2.1
    rw [hnew.2.2, Option.some.injEq] at this
    exact hr this
  cases hs with
  | same _ hc => exact hc.elim
  | birth _ _ hc => rcases hc with hc | ⟨_, _, hc⟩ <;> cases hc
  | exitToParent _ q w _ hq hw hm hcq =>
    have hne : p ≠ r := fun e => h.irrefl r (e ▸ hp)
    exact ⟨⟨hne, hmem⟩, ((h.orphan hr).mem_reap hcq).2 ⟨hne, horph⟩, hpar⟩
  | exitToNext => exact ⟨hmem, horph, hpar⟩

/-! ## Waiting for a zombie -/

/-- Nobody sleeps in a `wait` that one of its zombies would end. -/
def Answered (a : Family) : Prop :=
  ∀ q w, a.asleep q = some w → 0 ≤ w → ∀ p ∈ a.children q, a.zombie p → ¬ Matches w (a.pid p)

/-- The exit of `r` leaves the root nothing to wait for: the root does not sleep, or it is the parent
and waits for `r`, or neither `r` nor a zombie that `r` leaves to it ends its `wait`. -/
def Harmless (a : Family) (r : PcbRef) : Prop :=
  ∀ w, a.asleep a.root = some w → 0 ≤ w →
    (a.parent r = some a.root ∧ Matches w (a.pid r)) ∨
    ((∀ p ∈ a.children r, a.zombie p → ¬ Matches w (a.pid p)) ∧
      (r ∈ a.children a.root → ¬ Matches w (a.pid r)))

theorem Step.answered (hs : a.Step r c a') (h : a.Wf) (ho : a.Answered) (ha : a.asleep r = none)
    (hz : ¬ a.zombie r) (hn : ∀ v, c = .exit v → a.Harmless r) : a'.Answered := by
  cases hs with
  | same => exact ho
  | birth _ p _ hp =>
    intro q w hw h0 x hx hzx
    rcases mem_birth.1 hx with hx | ⟨rfl, rfl⟩
    · have hne : x ≠ p := fun e => hp (e ▸ (h.entry hx).1)
      simpa [Family.birth, hne] using ho q w hw h0 x hx hzx
    · rw [show (a.birth q x).asleep q = a.asleep q from rfl, ha] at hw
      cases hw
  | sleep w' _ hw' =>
    intro q w hw h0 x hx hzx
    by_cases hq : q = r
    · subst hq
      simp only [Family.sleep, if_true, Option.some.injEq] at hw
      subst hw
      exact hw' x hx hzx h0
    · simp only [Family.sleep, if_neg hq] at hw
      exact ho q w hw h0 x hx hzx
  | reap _ _ p hp =>
    intro q w hw h0 x hx hzx
    exact ho q w hw h0 x ((h.mem_reap hp).1 hx).2 hzx.2
  | exitToParent v q' w' hr hq' hw' hm hc =>
    intro q w hw h0 x hx hzx
    have hqq : q ≠ q' := by
      rintro rfl
      simp [Family.wake] at hw
    have hw1 : a.asleep q = some w := by
      simp only [Family.wake, if_neg hqq] at hw
      exact hw
    rcases (mem_orphan hr).1 (((h.orphan hr).mem_reap hc).1 hx).2 with ⟨-, h1 | ⟨rfl, h1⟩⟩
    · exact ho q w hw1 h0 x h1 hzx.2
    · rcases hn v rfl w hw1 h0 with ⟨h2, -⟩ | ⟨h2, -⟩
      · rw [hq', Option.some.injEq] at h2
        exact absurd h2.symm hqq
      · exact h2 x h1 hzx.2
  | exitToNext v q' hr hq' hno =>
    intro q w hw h0 x hx hzx
    have hw1 : a.asleep q = some w := hw
    -- the exiting process is the root's child and ends its `wait`
    have hroot : ¬ (a.parent r = some a.root ∧ a.asleep a.root = some w ∧ Matches w (a.pid r)) := by
      rintro ⟨h1, h2, h3⟩
      rw [hq', Option.some.injEq] at h1
      exact hno w (h1 ▸ h2) h3
    rcases (mem_orphan hr).1 hx with ⟨hqr, h1 | ⟨rfl, h1⟩⟩
    · rcases hzx with rfl | hzx
      · rcases h.parent h1 with hp | rfl
        · rw [hq', Option.some.injEq] at hp
          exact hno w (hp ▸ hw1)
        · rcases hn v rfl w hw1 h0 with ⟨h2, h3⟩ | ⟨-, h2⟩
          · exact absurd ⟨h2, hw1, h3⟩ hroot
          · exact h2 h1
      · exact ho q w hw1 h0 x h1 hzx
    · rcases hn v rfl w hw1 h0 with ⟨h2, h3⟩ | ⟨h2, -⟩
      · exact absurd ⟨h2, hw1, h3⟩ hroot
      · rcases hzx with rfl | hzx
        exacts [absurd h1 (h.irrefl x), h2 x h1 hzx]

/-- An exit that leaves the root something to wait for does not wake it. -/
theorem Step.not_answered {v : Int} (hs : a.Step r (.exit v) a') (h : a.Wf) (hz : ¬ a.zombie r)
    (hr : r ≠ a.root) (hn : ¬ a.Harmless r) : ¬ a'.Answered := by
  simp only [Harmless, not_forall, not_or] at hn
  obtain ⟨w, hw, h0, h1, h2⟩ := hn
  -- the zombie that the root has afterwards
  suffices hnew : a'.asleep a.root = some w ∧
      ∃ p ∈ a'.children a.root, a'.zombie p ∧ Matches w (a'.pid p) by
    intro ho
    obtain ⟨h3, p, hp, hzp, hm⟩ := hnew
    exact ho a.root w h3 h0 p hp hzp hm
  have hne : ∀ p, a.zombie p → p ≠ r := fun p hp e => hz (e ▸ hp)
  have hchild : (∀ p ∈ a.children r, a.zombie p → ¬ Matches w (a.pid p)) →
      r ∈ a.children a.root ∧ Matches w (a.pid r) := by
    intro h3
    by_contra h4
    exact h2 ⟨h3, fun h5 h6 => h4 ⟨h5, h6⟩⟩
  have hor : ∀ {p}, p ∈ a.children a.root ∨ p ∈ a.children r → p ∈ (a.orphan r).children a.root :=
    fun hp => (mem_orphan hr).2 ⟨hr.symm, hp.imp_right fun hp => ⟨rfl, hp⟩⟩
  cases hs with
  | same _ hc => exact hc.elim
  | birth _ _ hc => rcases hc with hc | ⟨_, _, hc⟩ <;> cases hc
  | exitToParent _ q w' _ hq hw' hm hcq =>
    have hqr : q ≠ a.root := by
      rintro rfl
      rw [hw, Option.some.injEq] at hw'
      exact h1 ⟨hq, hw' ▸ hm⟩
    refine ⟨(if_neg hqr.symm).trans hw, ?_⟩
    by_cases h3 : ∀ p ∈ a.children r, a.zombie p → ¬ Matches w (a.pid p)
    · -- `r` is a child of the root, and not of the process that waits for it
      obtain ⟨h4, -⟩ := hchild h3
      exact absurd ((h.orphan hr).owner hcq (hor (.inl h4))) hqr
    · simp only [not_forall, not_not] at h3
      obtain ⟨p, hp, hzp, hm'⟩ := h3
      exact ⟨p, ((h.orphan hr).mem_reap hcq).2 ⟨hne p hzp, hor (.inr hp)⟩, ⟨hne p hzp, hzp⟩, hm'⟩
  | exitToNext _ q _ hq hno =>
    refine ⟨hw, ?_⟩
    by_cases h3 : ∀ p ∈ a.children r, a.zombie p → ¬ Matches w (a.pid p)
    · obtain ⟨h4, hm'⟩ := hchild h3
      exact ⟨r, hor (.inl h4), .inl rfl, hm'⟩
    · simp only [not_forall, not_not] at h3
      obtain ⟨p, hp, hzp, hm'⟩ := h3
      exact ⟨p, hor (.inr hp), .inr hzp, hm'⟩

end

end Family

end DisastrOS
