import Mathlib

/-! # Labelled step functions and the states their runs visit

A system here is an executable step function: from a state, a label is either
refused (`none`) or leads to one next state.  All nondeterminism — which party
moves next, what the environment supplies — is in the label, so a concrete run
is a list of labels that can be evaluated (`run`), and a property of every run
is a property of every reachable state (`Reachable`).

`Reachable` carries a side condition on the steps taken: with the condition
`Always` it is plain reachability, with a narrower one it ranges over the runs
all of whose steps meet it.
-/
namespace Transition

variable {σ τ α β : Type*}

/-- Perform the labels in order; `none` as soon as one is refused. -/
def run (step : σ → α → Option σ) : σ → List α → Option σ
  | s, [] => some s
  | s, a :: as => (step s a).bind fun t => run step t as

/-- Perform the labels in order while each meets `C`. -/
def runWhile (step : σ → α → Option σ) (C : σ → α → Prop) [∀ s a, Decidable (C s a)] :
    σ → List α → Option σ
  | s, [] => some s
  | s, a :: as => if C s a then (step s a).bind fun t => runWhile step C t as else none

/-- The states visited by runs from an initial state, all of whose steps meet
`C`. -/
inductive Reachable (step : σ → α → Option σ) (C : σ → α → Prop) (init : σ → Prop) : σ → Prop
  | initial {s : σ} (h : init s) : Reachable step C init s
  | step {s t : σ} (h : Reachable step C init s) (a : α) (hc : C s a)
      (hs : step s a = some t) : Reachable step C init t

/-- The condition every step meets. -/
def Always : σ → α → Prop := fun _ _ => True

/-- The states of all runs from `s₀`. -/
abbrev ReachableFrom (step : σ → α → Option σ) (s₀ : σ) : σ → Prop :=
  Reachable step Always (· = s₀)

variable {step : σ → α → Option σ} {C D : σ → α → Prop} {init : σ → Prop}

@[simp] theorem run_nil (s : σ) : run step s [] = some s := rfl

theorem run_cons (s : σ) (a : α) (as : List α) :
    run step s (a :: as) = (step s a).bind fun t => run step t as := rfl

theorem run_append (s : σ) (as bs : List α) :
    run step s (as ++ bs) = (run step s as).bind fun t => run step t bs := by
  induction as generalizing s with
  | nil => rfl
  | cons a as ih =>
    simp only [List.cons_append, run_cons]
    cases step s a with
    | none => rfl
    | some t => simpa using ih t

/-- **The invariant rule.**  What holds initially and is preserved by every
step that meets the condition holds in every reachable state. -/
theorem Reachable.invariant {I : σ → Prop} (h0 : ∀ s, init s → I s)
    (hstep : ∀ s a t, I s → C s a → step s a = some t → I t) {s : σ}
    (h : Reachable step C init s) : I s := by
  induction h with
  | initial h => exact h0 _ h
  | step _ a hc hs ih => exact hstep _ a _ ih hc hs

/-- The invariant rule with a bound `B` that can only be lost along a run: the
invariant is needed, and shown, only where the bound still holds. -/
theorem Reachable.invariant_while {I B : σ → Prop} (h0 : ∀ s, init s → I s)
    (hback : ∀ s a t, step s a = some t → B t → B s)
    (hstep : ∀ s a t, I s → C s a → step s a = some t → B t → I t) {s : σ}
    (h : Reachable step C init s) (hb : B s) : I s := by
  induction h with
  | initial h => exact h0 _ h
  | step _ a hc hs ih => exact hstep _ a _ (ih (hback _ a _ hs hb)) hc hs hb

/-- A weaker condition reaches more. -/
theorem Reachable.mono (hCD : ∀ s a, C s a → D s a) {s : σ}
    (h : Reachable step C init s) : Reachable step D init s := by
  induction h with
  | initial h => exact .initial h
  | step _ a hc hs ih => exact ih.step a (hCD _ a hc) hs

/-- A run reaches the state it starts in. -/
theorem Reachable.self (s : σ) : Reachable step C (· = s) s := .initial rfl

/-- A run of unconditioned steps stays reachable. -/
theorem Reachable.run_always {s t : σ} (h : Reachable step Always init s) {as : List α}
    (hr : run step s as = some t) : Reachable step Always init t := by
  induction as generalizing s with
  | nil => cases hr; exact h
  | cons a as ih =>
    rw [run_cons] at hr
    obtain ⟨u, hu, hr⟩ := Option.bind_eq_some_iff.mp hr
    exact ih (h.step a trivial hu) hr

/-- A run of steps that meet the condition stays reachable. -/
theorem Reachable.runWhile [∀ s a, Decidable (C s a)] {s t : σ} (h : Reachable step C init s)
    {as : List α} (hr : runWhile step C s as = some t) : Reachable step C init t := by
  induction as generalizing s with
  | nil => cases hr; exact h
  | cons a as ih =>
    simp only [Transition.runWhile] at hr
    split at hr
    · obtain ⟨u, hu, hr⟩ := Option.bind_eq_some_iff.mp hr
      exact ih (h.step a ‹_› hu) hr
    · cases hr

/-- The same for a narrower condition that is decided instead. -/
theorem Reachable.runWhile_of [∀ s a, Decidable (D s a)] (hDC : ∀ s a, D s a → C s a) {s t : σ}
    (h : Reachable step C init s) {as : List α} (hr : Transition.runWhile step D s as = some t) :
    Reachable step C init t := by
  induction as generalizing s with
  | nil => cases hr; exact h
  | cons a as ih =>
    simp only [Transition.runWhile] at hr
    split at hr
    · obtain ⟨u, hu, hr⟩ := Option.bind_eq_some_iff.mp hr
      exact ih (h.step a (hDC _ _ ‹_›) hu) hr
    · cases hr

/-- A run from a reachable state stays reachable. -/
theorem Reachable.trans {s t : σ} (h : Reachable step C init s) (h' : Reachable step C (· = s) t) :
    Reachable step C init t := by
  induction h' with
  | initial h' => exact h' ▸ h
  | step _ a hc hs ih => exact ih.step a hc hs

/-- **Projection.**  If every allowed step of one system is a step of another,
or leaves the projected state unchanged, then projections of reachable states
are reachable. -/
theorem Reachable.project {step' : τ → β → Option τ} {C' : τ → β → Prop} {init' : τ → Prop}
    (π : σ → τ) (h0 : ∀ s, init s → init' (π s))
    (hstep : ∀ s a t, C s a → step s a = some t →
      π t = π s ∨ ∃ b, C' (π s) b ∧ step' (π s) b = some (π t)) {s : σ}
    (h : Reachable step C init s) : Reachable step' C' init' (π s) := by
  induction h with
  | initial h => exact .initial (h0 _ h)
  | step _ a hc hs ih =>
    rcases hstep _ a _ hc hs with he | ⟨b, hb, hs'⟩
    · rw [he]; exact ih
    · exact ih.step b hb hs'

end Transition
