import Mathlib.Algebra.Order.Ring.Int

/-!
# Deterministic machines with observations

A machine takes an input in a state and either stops with an error or answers with an observation
and a next state. What a client can see of a run is the list of observations, so a refinement is
stated on runs: a machine that may stop (`runFrom`) against one that never does (`trace`).

* `Simulates R cstep astep` is the one-step condition: from related states every input is answered,
  with the observation the specification gives, and the next states are related again. It claims the
  absence of errors together with the agreement, so nothing is left to be said "if the run returns".
* `Simulates.run` carries it to runs of any length.
* `trace_abs` is the simpler case of an abstraction function between machines that always answer.
* `exec` is the run of a machine that may refuse an input, and `Along` says that something holds
  before each of its steps. `exec_iff_along` is the rule for the exact condition under which a run
  stays good: an invariant that the condition preserves, and a step outside the condition that can
  be seen to be bad ever after.
-/

namespace Machine

variable {σ τ ι ο ε : Type*}

/-! ### Runs -/

/-- The run of a machine that may stop, over a list of inputs. -/
def runFrom (step : σ → ι → Except ε (ο × σ)) : σ → List ι → Except ε (List ο × σ)
  | s, [] => pure ([], s)
  | s, i :: is => do
    let (o, s') ← step s i
    let (os, t) ← runFrom step s' is
    pure (o :: os, t)

/-- The run of a machine that always answers. -/
def trace (step : τ → ι → ο × τ) : τ → List ι → List ο × τ
  | a, [] => ([], a)
  | a, i :: is =>
    let rest := trace step (step a i).2 is
    ((step a i).1 :: rest.1, rest.2)

variable {step : σ → ι → Except ε (ο × σ)} {astep : τ → ι → ο × τ}

theorem runFrom_cons {s s' : σ} {i : ι} {o : ο} (h : step s i = pure (o, s')) (is : List ι) :
    runFrom step s (i :: is) =
      runFrom step s' is >>= fun p ↦ pure (o :: p.1, p.2) := by
  rw [runFrom, h, pure_bind]

@[simp] theorem trace_nil (a : τ) : trace astep a [] = ([], a) := rfl

@[simp] theorem trace_cons (a : τ) (i : ι) (is : List ι) :
    trace astep a (i :: is) =
      ((astep a i).1 :: (trace astep (astep a i).2 is).1, (trace astep (astep a i).2 is).2) :=
  rfl

/-- Running two lists of inputs one after the other. -/
theorem trace_append (a : τ) (is js : List ι) :
    trace astep a (is ++ js) =
      ((trace astep a is).1 ++ (trace astep (trace astep a is).2 js).1,
        (trace astep (trace astep a is).2 js).2) := by
  induction is generalizing a with
  | nil => rfl
  | cons i is ih => simp only [List.cons_append, trace_cons, ih]

/-! ### Simulation -/

/-- From related states, every input is answered as the specification answers it, and the next
states are related. -/
def Simulates (R : σ → τ → Prop) (step : σ → ι → Except ε (ο × σ)) (astep : τ → ι → ο × τ) : Prop :=
  ∀ s a i, R s a → ∃ s', step s i = pure ((astep a i).1, s') ∧ R s' (astep a i).2

variable {R : σ → τ → Prop}

/-- **The simulation carries over to runs**: no run stops, and all observations agree. -/
theorem Simulates.run (h : Simulates R step astep) {s : σ} {a : τ} (hR : R s a) (is : List ι) :
    ∃ s', runFrom step s is = pure ((trace astep a is).1, s') ∧ R s' (trace astep a is).2 := by
  induction is generalizing s a with
  | nil => exact ⟨s, rfl, hR⟩
  | cons i is ih =>
    obtain ⟨s₁, hs₁, hR₁⟩ := h s a i hR
    obtain ⟨s₂, hs₂, hR₂⟩ := ih hR₁
    refine ⟨s₂, ?_, hR₂⟩
    rw [runFrom_cons hs₁, hs₂, pure_bind]
    rfl

/-- **Abstraction functions**: if one step commutes with `abs`, so does every run, and the
observations are the same. -/
theorem trace_abs {step : σ → ι → ο × σ} {abs : σ → τ}
    (h : ∀ s i, astep (abs s) i = ((step s i).1, abs (step s i).2)) (s : σ) (is : List ι) :
    trace astep (abs s) is = ((trace step s is).1, abs (trace step s is).2) := by
  induction is generalizing s with
  | nil => rfl
  | cons i is ih => rw [trace_cons, trace_cons, h, ih]

/-! ### Machines that refuse inputs -/

/-- The state after a list of inputs, if all of them were accepted. -/
def exec (step : σ → ι → Option σ) : List ι → σ → Option σ
  | [], s => some s
  | i :: is, s => step s i >>= exec step is

/-- Before every step of the run, `C` holds of the state and the input. -/
def Along (step : σ → ι → Option σ) (C : σ → ι → Prop) : List ι → σ → Prop
  | [], _ => True
  | i :: is, s => C s i ∧ ∀ s', step s i = some s' → Along step C is s'

instance decidableAlong {step : σ → ι → Option σ} {C : σ → ι → Prop} [∀ s i, Decidable (C s i)] :
    ∀ is s, Decidable (Along step C is s)
  | [], _ => isTrue trivial
  | i :: is, s =>
    match h : step s i with
    | none => decidable_of_iff (C s i)
        ⟨fun hC ↦ ⟨hC, fun _ hs' ↦ nomatch h.symm.trans hs'⟩, fun halong ↦ halong.1⟩
    | some s' =>
      have : Decidable (Along step C is s') := decidableAlong is s'
      decidable_of_iff (C s i ∧ Along step C is s')
        ⟨fun hC ↦ ⟨hC.1, fun _ ht ↦ Option.some.inj (h.symm.trans ht) ▸ hC.2⟩,
          fun halong ↦ ⟨halong.1, halong.2 s' h⟩⟩

section Exec

variable {step : σ → ι → Option σ} {C : σ → ι → Prop} {Good Inv : σ → Prop}

/-- **The invariant rule** for runs. -/
theorem exec_inv (hstep : ∀ s i s', Inv s → step s i = some s' → Inv s') {is : List ι} {s t : σ}
    (hs : Inv s) (h : exec step is s = some t) : Inv t := by
  induction is generalizing s with
  | nil =>
    obtain rfl := Option.some.inj h
    exact hs
  | cons i is ih =>
    obtain ⟨s', hs', h'⟩ := Option.bind_eq_some_iff.1 h
    exact ih (hstep s i s' hs hs') h'

/-- The invariant rule for runs along which a condition holds. -/
theorem exec_inv_along (hstep : ∀ s i s', Inv s → C s i → step s i = some s' → Inv s')
    {is : List ι} {s t : σ} (hs : Inv s) (halong : Along step C is s)
    (h : exec step is s = some t) : Inv t := by
  induction is generalizing s with
  | nil =>
    obtain rfl := Option.some.inj h
    exact hs
  | cons i is ih =>
    obtain ⟨s', hs', h'⟩ := Option.bind_eq_some_iff.1 h
    exact ih (hstep s i s' hs halong.1 hs') (halong.2 s' hs') h'

/-- What is lost in a step stays lost in the run. -/
theorem exec_of_mono (hmono : ∀ s i s', step s i = some s' → Good s' → Good s) {is : List ι}
    {s t : σ} (h : exec step is s = some t) (hgood : Good t) : Good s := by
  induction is generalizing s with
  | nil =>
    obtain rfl := Option.some.inj h
    exact hgood
  | cons i is ih =>
    obtain ⟨s', hs', h'⟩ := Option.bind_eq_some_iff.1 h
    exact hmono s i s' hs' (ih h')

/-- **The exact condition for a run to stay good.** -/
theorem exec_iff_along (hinv : ∀ s, Inv s → Good s)
    (hstep : ∀ s i s', Inv s → C s i → step s i = some s' → Inv s')
    (hbad : ∀ s i s', Inv s → ¬ C s i → step s i = some s' → ¬ Good s')
    (hmono : ∀ s i s', step s i = some s' → Good s' → Good s)
    {is : List ι} {s t : σ} (hs : Inv s) (h : exec step is s = some t) :
    Good t ↔ Along step C is s := by
  induction is generalizing s with
  | nil =>
    obtain rfl := Option.some.inj h
    exact iff_of_true (hinv s hs) trivial
  | cons i is ih =>
    obtain ⟨s', hs', h'⟩ := Option.bind_eq_some_iff.1 h
    by_cases hC : C s i
    · rw [ih (hstep s i s' hs hC hs') h']
      refine ⟨fun halong ↦ ⟨hC, fun s'' hs'' ↦ ?_⟩, fun halong ↦ halong.2 s' hs'⟩
      obtain rfl := Option.some.inj (hs'.symm.trans hs'')
      exact halong
    · refine iff_of_false (fun hgood ↦ ?_) fun halong ↦ hC halong.1
      exact hbad s i s' hs hC hs' (exec_of_mono hmono h' hgood)

end Exec

end Machine
