import Mathlib.Tactic.Common

/-!
# Runs of a deterministic machine

A machine is a partial step function `step : σ → ε → Except η σ`: in state `s` the event `e` leads
to a state, or stops the machine with a reason in `η`. `run` takes a list of events, `Along C` says
that every step of the run meets the condition `C` (on the state before it and its event), and
`Always P` that every state of the run satisfies `P`.

* `run_inv`: an invariant kept by every step that meets `C` holds after every run along `C`.
* `reaches_of_count`: a measure that some events lower and none raises bounds the number of them
  before the run gets where it should.
* `run_moves`: a run of the machine is a run of a transition system that its steps are steps of.
* `run_trace`: a run of a finer machine does what the events of its steps do in the coarser one.
* `always_of_along`, `always_iff_along`: the same for all states of the run, and, when a step that
  breaks `C` also breaks `P`, its converse: `C` is the exact condition.
-/

namespace Lib

variable {α β σ ε η : Type}

/-! ## Computations that may stop -/

@[simp] theorem ok_bind (a : α) (f : α → Except η β) : (Except.ok a >>= f) = f a := rfl

@[simp] theorem error_bind (h : η) (f : α → Except η β) :
    ((Except.error h : Except η α) >>= f) = .error h := rfl

theorem bind_eq_ok {x : Except η α} {f : α → Except η β} {b : β} :
    (x >>= f) = .ok b ↔ ∃ a, x = .ok a ∧ f a = .ok b := by
  cases x <;> simp

theorem bind_eq_error {x : Except η α} {f : α → Except η β} {h : η} :
    (x >>= f) = .error h ↔ x = .error h ∨ ∃ a, x = .ok a ∧ f a = .error h := by
  cases x <;> simp

/-- `x` yields a value of `P`, or stops for a reason in `E`. -/
def Ensures (x : Except η α) (E : η → Prop) (P : α → Prop) : Prop :=
  match x with
  | .ok a => P a
  | .error h => E h

section
variable {x : Except η α} {E : η → Prop} {P Q : α → Prop}

@[simp] theorem ensures_ok {a : α} : Ensures (.ok a : Except η α) E P ↔ P a := .rfl
@[simp] theorem ensures_error {h : η} : Ensures (.error h : Except η α) E P ↔ E h := .rfl

theorem Ensures.ok {a : α} (h : Ensures x E P) (hx : x = .ok a) : P a := by
  subst hx; exact h

theorem Ensures.error {e : η} (h : Ensures x E P) (hx : x = .error e) : E e := by
  subst hx; exact h

theorem Ensures.mono {E' : η → Prop} (h : Ensures x E P) (hE : ∀ e, E e → E' e)
    (hP : ∀ a, P a → Q a) : Ensures x E' Q := by
  cases x with
  | ok a => exact hP a h
  | error e => exact hE e h

end

/-! ## Two computations side by side -/

/-- Both yield a value, and the values are related, or both stop for the same reason. -/
def Corresponds (R : α → β → Prop) (x : Except η α) (y : Except η β) : Prop :=
  match x, y with
  | .ok a, .ok b => R a b
  | .error h, .error h' => h = h'
  | _, _ => False

section
variable {γ δ : Type} {R : α → β → Prop} {T : γ → δ → Prop} {x : Except η α} {y : Except η β}

@[simp] theorem corresponds_ok {a : α} {b : β} :
    Corresponds R (.ok a : Except η α) (.ok b) ↔ R a b := .rfl

@[simp] theorem corresponds_error {h h' : η} : Corresponds R (.error h) (.error h') ↔ h = h' := .rfl

/-- What follows may depend on how the values have come about. -/
theorem Corresponds.bind_of {f : α → Except η γ} {g : β → Except η δ} (h : Corresponds R x y)
    (hf : ∀ a b, x = .ok a → y = .ok b → R a b → Corresponds T (f a) (g b)) :
    Corresponds T (x >>= f) (y >>= g) := by
  cases x with
  | ok a =>
    cases y with
    | ok b => exact hf a b rfl rfl h
    | error e => exact h.elim
  | error e =>
    cases y with
    | ok b => exact h.elim
    | error e' => exact h

theorem Corresponds.bind {f : α → Except η γ} {g : β → Except η δ} (h : Corresponds R x y)
    (hf : ∀ a b, R a b → Corresponds T (f a) (g b)) : Corresponds T (x >>= f) (y >>= g) :=
  h.bind_of fun a b _ _ => hf a b

theorem Corresponds.mono {R' : α → β → Prop} (h : Corresponds R x y) (hR : ∀ a b, R a b → R' a b) :
    Corresponds R' x y := by
  cases x <;> cases y <;> first | exact hR _ _ h | exact h

/-- One of the two does something more that cannot fail. -/
theorem Corresponds.bind_ok {T : α → γ → Prop} {g : β → γ} (h : Corresponds R x y)
    (hg : ∀ a b, x = .ok a → R a b → T a (g b)) : Corresponds T x (y >>= fun b => .ok (g b)) := by
  cases x with
  | ok a =>
    cases y with
    | ok b => exact hg a b rfl h
    | error e => exact h.elim
  | error e =>
    cases y with
    | ok b => exact h.elim
    | error e' => exact h

theorem Corresponds.ok {a : α} {b : β} (h : Corresponds R x y) (hx : x = .ok a) (hy : y = .ok b) :
    R a b := by
  subst hx hy
  exact h

end

/-! ## Runs -/

variable (step : σ → ε → Except η σ)

/-- The machine's run over a list of events. -/
def run (s : σ) : List ε → Except η σ
  | [] => .ok s
  | e :: es =>
    match step s e with
    | .ok s' => run s' es
    | .error h => .error h

/-- Every step of the run meets `C`. -/
def Along (C : σ → ε → Prop) (s : σ) : List ε → Prop
  | [] => True
  | e :: es => C s e ∧ ∀ s', step s e = .ok s' → Along C s' es

/-- Every state of the run satisfies `P`. -/
def Always (P : σ → Prop) (s : σ) : List ε → Prop
  | [] => P s
  | e :: es => P s ∧ ∀ s', step s e = .ok s' → Always P s' es

/-- The step leads to a state in the relation `R`. -/
def Leads (R : σ → σ → Prop) (s : σ) (e : ε) : Prop := ∀ s', step s e = .ok s' → R s s'

/-! All three can be tested by running the machine. -/

instance decidableLeads (R : σ → σ → Prop) [∀ s s', Decidable (R s s')] (s : σ) (e : ε) :
    Decidable (Leads step R s e) :=
  match h : step s e with
  | .ok s₁ => decidable_of_iff (R s s₁) (by simp [Leads, h])
  | .error _ => .isTrue (by simp [Leads, h])

instance decidableAlong (C : σ → ε → Prop) [∀ s e, Decidable (C s e)] :
    (s : σ) → (es : List ε) → Decidable (Along step C s es)
  | _, [] => .isTrue trivial
  | s, e :: es =>
    haveI : Decidable (∀ s', step s e = .ok s' → Along step C s' es) :=
      match step s e with
      | .ok s₁ =>
        haveI := decidableAlong C s₁ es
        decidable_of_iff (Along step C s₁ es) (by simp)
      | .error _ => .isTrue (by simp)
    inferInstanceAs (Decidable (_ ∧ _))

instance decidableAlways (P : σ → Prop) [DecidablePred P] :
    (s : σ) → (es : List ε) → Decidable (Always step P s es)
  | s, [] => inferInstanceAs (Decidable (P s))
  | s, e :: es =>
    haveI : Decidable (∀ s', step s e = .ok s' → Always step P s' es) :=
      match step s e with
      | .ok s₁ =>
        haveI := decidableAlways P s₁ es
        decidable_of_iff (Always step P s₁ es) (by simp)
      | .error _ => .isTrue (by simp)
    inferInstanceAs (Decidable (_ ∧ _))

variable {step} {C : σ → ε → Prop} {P I : σ → Prop} {A : ε → Prop} {s s' : σ} {e : ε} {es : List ε}

theorem run_cons_ok (h : step s e = .ok s') : run step s (e :: es) = run step s' es := by
  simp [run, h]

theorem run_cons_inv (h : run step s (e :: es) = .ok s') :
    ∃ s₁, step s e = .ok s₁ ∧ run step s₁ es = .ok s' := by
  simp only [run] at h
  split at h
  · exact ⟨_, ‹_›, h⟩
  · cases h

theorem run_snoc (h : run step s es = .ok s') : run step s (es ++ [e]) = step s' e := by
  induction es generalizing s with
  | nil =>
    simp only [run, Except.ok.injEq] at h
    subst h
    simp only [List.nil_append, run]
    split <;> simp_all
  | cons e' es ih =>
    obtain ⟨s₁, h₁, h₂⟩ := run_cons_inv h
    rw [List.cons_append, run_cons_ok h₁]
    exact ih h₂

theorem run_append_bind {es' : List ε} :
    run step s (es ++ es') = run step s es >>= fun s' => run step s' es' := by
  induction es generalizing s with
  | nil => rfl
  | cons e es ih =>
    rw [List.cons_append, run, run]
    cases step s e with
    | error x => rfl
    | ok s₁ => exact ih

theorem run_append {es' : List ε} (h : run step s es = .ok s') :
    run step s (es ++ es') = run step s' es' := by
  rw [run_append_bind, h, ok_bind]

theorem run_snoc_inv (h : run step s (es ++ [e]) = .ok s') :
    ∃ s₁, run step s es = .ok s₁ ∧ step s₁ e = .ok s' := by
  induction es generalizing s with
  | nil =>
    obtain ⟨s₁, h₁, h₂⟩ := run_cons_inv h
    cases h₂
    exact ⟨s, rfl, h₁⟩
  | cons e' es ih =>
    obtain ⟨s₁, h₁, h₂⟩ := run_cons_inv h
    obtain ⟨s₂, h₃, h₄⟩ := ih h₂
    exact ⟨s₂, (run_cons_ok h₁).trans h₃, h₄⟩

/-- A run that stops does so at one of its events. -/
theorem run_eq_error_iff {x : η} : run step s es = .error x ↔ ∃ es₁ e es₂ s₁,
    es = es₁ ++ e :: es₂ ∧ run step s es₁ = .ok s₁ ∧ step s₁ e = .error x := by
  constructor
  · intro h
    induction es generalizing s with
    | nil => cases h
    | cons e es ih =>
      rw [run] at h
      cases hs : step s e with
      | error y =>
        rw [hs] at h
        cases h
        exact ⟨[], e, es, s, rfl, rfl, hs⟩
      | ok s₁ =>
        rw [hs] at h
        obtain ⟨es₁, e', es₂, s₂, rfl, hr, he⟩ := ih h
        exact ⟨e :: es₁, e', es₂, s₂, rfl, (run_cons_ok hs).trans hr, he⟩
  · rintro ⟨es₁, e, es₂, s₁, rfl, hr, he⟩
    rw [run_append hr, run, he]

theorem along_true : Along step (fun _ _ => True) s es := by
  induction es generalizing s with
  | nil => trivial
  | cons e es ih => exact ⟨trivial, fun _ _ => ih⟩

/-- A computation whose outcome passes a test has a result, which passes it. -/
theorem ok_of_any {x : Except η α} {p : α → Bool} (h : x.toOption.any p = true) :
    ∃ a, x = .ok a ∧ p a = true := by
  cases x with
  | error x => simp [Except.toOption] at h
  | ok a => exact ⟨a, rfl, by simpa [Except.toOption] using h⟩

/-- The last state of a run that passes a test. -/
theorem run_check {p : σ → Bool} (h : (run step s es).toOption.any p = true) :
    ∃ s', run step s es = .ok s' ∧ p s' = true := ok_of_any h

/-- The reason for which a computation stops. -/
def stopped : Except η α → Option η
  | .ok _ => none
  | .error x => some x

theorem eq_error_of_stopped {x : Except η α} {h : η} (hx : stopped x = some h) : x = .error h := by
  cases x with
  | ok a => cases hx
  | error x => exact congrArg Except.error (Option.some.inj hx)

/-- What a run does after `es`. -/
theorem Along.drop {es' : List ε} (h : Along step C s (es ++ es')) (hr : run step s es = .ok s') :
    Along step C s' es' := by
  induction es generalizing s with
  | nil =>
    simp only [run, Except.ok.injEq] at hr
    exact hr ▸ h
  | cons e' es ih =>
    obtain ⟨s₁, h₁, h₂⟩ := run_cons_inv hr
    exact ih (h.2 s₁ h₁) h₂

/-- An invariant that every step meeting `C` keeps holds after every run along `C`. -/
theorem run_inv (hstep : ∀ s e s', I s → A e → C s e → step s e = .ok s' → I s') (h0 : I s)
    (hA : ∀ e ∈ es, A e) (hC : Along step C s es) (hr : run step s es = .ok s') : I s' := by
  induction es generalizing s with
  | nil =>
    simp only [run, Except.ok.injEq] at hr
    exact hr ▸ h0
  | cons e es ih =>
    obtain ⟨s₁, h₁, h₂⟩ := run_cons_inv hr
    have hs₁ := hstep s e s₁ h0 (hA e List.mem_cons_self) hC.1 h₁
    exact ih hs₁ (fun e he => hA e (List.mem_cons_of_mem _ he)) (hC.2 s₁ h₁) h₂

/-- Such a run stops only for the reasons for which its steps may stop. -/
theorem run_ensures {E : η → Prop}
    (hstep : ∀ s e, I s → A e → C s e → Ensures (step s e) E I) (h0 : I s) (hA : ∀ e ∈ es, A e)
    (hC : Along step C s es) : Ensures (run step s es) E I := by
  induction es generalizing s with
  | nil => exact h0
  | cons e es ih =>
    have h1 := hstep s e h0 (hA e List.mem_cons_self) hC.1
    cases hs : step s e with
    | ok s₁ =>
      rw [run_cons_ok hs]
      exact ih (h1.ok hs) (fun e he => hA e (List.mem_cons_of_mem _ he)) (hC.2 s₁ hs)
    | error x =>
      have hr : run step s (e :: es) = .error x := by simp [run, hs]
      rw [hr]
      exact h1.error hs

/-- The same for an invariant that every step keeps. -/
theorem run_inv' (hstep : ∀ s e s', I s → A e → step s e = .ok s' → I s') (h0 : I s)
    (hA : ∀ e ∈ es, A e) (hr : run step s es = .ok s') : I s' :=
  run_inv (C := fun _ _ => True) (fun s e s' hi he _ => hstep s e s' hi he) h0 hA along_true hr

/-- What an invariant implies of every step holds along every run. -/
theorem along_of_inv (hI : ∀ s e, I s → A e → C s e)
    (hstep : ∀ s e s', I s → A e → step s e = .ok s' → I s') (h0 : I s) (hA : ∀ e ∈ es, A e) :
    Along step C s es := by
  induction es generalizing s with
  | nil => trivial
  | cons e es ih =>
    have he := hA e List.mem_cons_self
    exact ⟨hI s e h0 he, fun s₁ h₁ => ih (hstep s e s₁ h0 he h₁) fun e he =>
      hA e (List.mem_cons_of_mem _ he)⟩

theorem Along.take {es' : List ε} (h : Along step C s (es ++ es')) : Along step C s es := by
  induction es generalizing s with
  | nil => trivial
  | cons e es ih => exact ⟨h.1, fun s₁ h₁ => ih (h.2 s₁ h₁)⟩

theorem Along.and {D : σ → ε → Prop} (hC : Along step C s es) (hD : Along step D s es) :
    Along step (fun s e => C s e ∧ D s e) s es := by
  induction es generalizing s with
  | nil => trivial
  | cons e es ih => exact ⟨⟨hC.1, hD.1⟩, fun s₁ h₁ => ih (hC.2 s₁ h₁) (hD.2 s₁ h₁)⟩

/-- A condition that an invariant turns into another. -/
theorem Along.mono_inv {D : σ → ε → Prop} (hC : Along step C s es)
    (hI : ∀ s e, I s → C s e → D s e)
    (hstep : ∀ s e s', I s → C s e → step s e = .ok s' → I s') (h0 : I s) : Along step D s es := by
  induction es generalizing s with
  | nil => trivial
  | cons e es ih =>
    exact ⟨hI s e h0 hC.1, fun s₁ h₁ => ih (hC.2 s₁ h₁) (hstep s e s₁ h0 hC.1 h₁)⟩

/-- Conditions that agree where an invariant holds are met by the same runs. -/
theorem along_congr {D D' : σ → ε → Prop} (hI : ∀ s e, I s → (D s e ↔ D' s e))
    (hstep : ∀ s e s', I s → A e → C s e → step s e = .ok s' → I s') (h0 : I s)
    (hA : ∀ e ∈ es, A e) (hC : Along step C s es) : Along step D s es ↔ Along step D' s es := by
  induction es generalizing s with
  | nil => exact .rfl
  | cons e es ih =>
    simp only [Along]
    refine and_congr (hI s e h0) (forall_congr' fun s₁ => forall_congr' fun h₁ => ?_)
    exact ih (hstep s e s₁ h0 (hA e List.mem_cons_self) hC.1 h₁)
      (fun e he => hA e (List.mem_cons_of_mem _ he)) (hC.2 s₁ h₁)

theorem Always.head (h : Always step P s es) : P s := by
  cases es with
  | nil => exact h
  | cons e es => exact h.1

/-- What holds of every state of a run holds of its last one. -/
theorem Always.last (h : Always step P s es) (hr : run step s es = .ok s') : P s' := by
  induction es generalizing s with
  | nil =>
    simp only [run, Except.ok.injEq] at hr
    exact hr ▸ h
  | cons e es ih =>
    obtain ⟨s₁, h₁, h₂⟩ := run_cons_inv hr
    exact ih (h.2 s₁ h₁) h₂

theorem always_of_along (hI : ∀ s, I s → P s)
    (hstep : ∀ s e s', I s → A e → C s e → step s e = .ok s' → I s') (h0 : I s)
    (hA : ∀ e ∈ es, A e) (hC : Along step C s es) : Always step P s es := by
  induction es generalizing s with
  | nil => exact hI s h0
  | cons e es ih =>
    refine ⟨hI s h0, fun s₁ h₁ => ?_⟩
    exact ih (hstep s e s₁ h0 (hA e List.mem_cons_self) hC.1 h₁)
      (fun e he => hA e (List.mem_cons_of_mem _ he)) (hC.2 s₁ h₁)

/-- **The exact condition of a run.** `I` implies `P` and is kept by the steps that meet `C`, and a
step that does not meet `C` leads out of `P`: a run stays in `P` iff all its steps meet `C`. -/
theorem always_iff_along (hI : ∀ s, I s → P s)
    (hstep : ∀ s e s', I s → A e → C s e → step s e = .ok s' → I s')
    (hbad : ∀ s e s', I s → A e → ¬ C s e → step s e = .ok s' → ¬ P s')
    (h0 : I s) (hA : ∀ e ∈ es, A e) (hr : run step s es = .ok s') :
    Always step P s es ↔ Along step C s es := by
  refine ⟨fun h => ?_, always_of_along hI hstep h0 hA⟩
  induction es generalizing s with
  | nil => trivial
  | cons e es ih =>
    obtain ⟨s₁, h₁, h₂⟩ := run_cons_inv hr
    have he := hA e List.mem_cons_self
    have hP := h.2 s₁ h₁
    have hC : C s e := by
      by_contra hn
      exact hbad s e s₁ h0 he hn h₁ hP.head
    refine ⟨hC, fun s₂ h₂' => ?_⟩
    obtain rfl : s₁ = s₂ := by rw [h₁] at h₂'; exact Except.ok.inj h₂'
    exact ih (hstep s e s₁ h0 he hC h₁) (fun e he => hA e (List.mem_cons_of_mem _ he)) h₂ hP

/-- **Progress.** While `W` holds no step raises the measure `μ`, those with the events of `d` lower
it, and a step that ends `W` reaches `P`: then a run with more such events than the measure has
reached `P`. -/
theorem reaches_of_count {W : σ → Prop} {μ : σ → Nat} {d : ε → Bool}
    (hstep : ∀ s e s', W s → step s e = .ok s' →
      P s' ∨ W s' ∧ μ s' + (if d e then 1 else 0) ≤ μ s)
    (h0 : W s) (hr : run step s es = .ok s') (hn : μ s < es.countP d) :
    ∃ es₁ es₂ s₁, es = es₁ ++ es₂ ∧ run step s es₁ = .ok s₁ ∧ P s₁ := by
  induction es generalizing s with
  | nil => simp at hn
  | cons e es ih =>
    obtain ⟨s₁, h₁, hr⟩ := run_cons_inv hr
    rcases hstep s e s₁ h0 h₁ with hp | ⟨hw, hle⟩
    · refine ⟨[e], es, s₁, rfl, ?_, hp⟩
      rw [run_cons_ok h₁]
      rfl
    · rw [List.countP_cons] at hn
      obtain ⟨es₁, es₂, s₂, rfl, h2, hp⟩ := ih hw hr (by omega)
      exact ⟨e :: es₁, es₂, s₂, rfl, (run_cons_ok h₁).trans h2, hp⟩

/-! ## Two levels -/

/-- The events lead from `a` to `b` in the transition system `R`. -/
inductive Moves {τ : Type} (R : τ → ε → τ → Prop) : τ → List ε → τ → Prop
  | nil (a : τ) : Moves R a [] a
  | cons {a b c : τ} {e : ε} {es : List ε} : R a e b → Moves R b es c → Moves R a (e :: es) c

theorem Moves.inv {τ : Type} {R : τ → ε → τ → Prop} {J : τ → Prop} {a b : τ}
    (hstep : ∀ a e b, J a → R a e b → J b) (h : Moves R a es b) (ha : J a) : J b := by
  induction h with
  | nil => exact ha
  | cons he _ ih => exact ih (hstep _ _ _ ha he)

/-- **Refinement.** When an invariant makes the steps that meet `C` steps of `R` between the
abstractions, a run along `C` is a run of `R`. -/
theorem run_moves {τ : Type} {R : τ → ε → τ → Prop} (f : σ → τ)
    (hstep : ∀ s e s', I s → A e → C s e → step s e = .ok s' → I s' ∧ R (f s) e (f s')) (h0 : I s)
    (hA : ∀ e ∈ es, A e) (hC : Along step C s es) (hr : run step s es = .ok s') :
    Moves R (f s) es (f s') := by
  induction es generalizing s with
  | nil =>
    cases hr
    exact .nil _
  | cons e es ih =>
    obtain ⟨s₁, h₁, hr⟩ := run_cons_inv hr
    obtain ⟨hI, hR⟩ := hstep s e s₁ h0 (hA e List.mem_cons_self) hC.1 h₁
    exact .cons hR (ih hI (fun e he => hA e (List.mem_cons_of_mem _ he)) (hC.2 s₁ h₁) hr)

section
variable {τ δ : Type} (micro : τ → δ → Except η τ) (event : τ → δ → Option ε)

/-- The events that a run of the machine `micro` comes to, when its steps are events or nothing. -/
def trace (m : τ) : List δ → List ε
  | [] => []
  | d :: ds =>
    (event m d).toList ++
      match micro m d with
      | .ok m' => trace m' ds
      | .error _ => []

variable {micro event} {R : σ → τ → Prop} {C : τ → δ → Prop} {m : τ} {ds : List δ}

/-- **Stuttering.** When the steps of `micro` that meet `C` do to related states what their events
do, and the others nothing, a run does what its trace does. -/
theorem run_trace
    (hstep : ∀ s m d e, R s m → C m d → event m d = some e → Corresponds R (step s e) (micro m d))
    (hskip : ∀ s m d, R s m → C m d → event m d = none → ∃ m', micro m d = .ok m' ∧ R s m')
    (h : R s m) (hC : Along micro C m ds) :
    Corresponds R (run step s (trace micro event m ds)) (run micro m ds) := by
  induction ds generalizing s m with
  | nil => exact h
  | cons d ds ih =>
    rw [trace, run]
    cases he : event m d with
    | none =>
      obtain ⟨m', hm, h'⟩ := hskip s m d h hC.1 he
      rw [hm]
      exact ih h' (hC.2 m' hm)
    | some e =>
      have h1 := hstep s m d e h hC.1 he
      rw [Option.toList_some, List.singleton_append, run]
      cases hm : micro m d with
      | error x =>
        rw [hm] at h1
        cases hs : step s e with
        | ok s' =>
          rw [hs] at h1
          exact h1.elim
        | error y =>
          rw [hs] at h1
          exact h1
      | ok m' =>
        rw [hm] at h1
        cases hs : step s e with
        | error y =>
          rw [hs] at h1
          exact h1.elim
        | ok s' =>
          rw [hs] at h1
          exact ih h1 (hC.2 m' hm)

end

end Lib
