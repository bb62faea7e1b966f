import Mathlib.Logic.Relation

/-! # State machines: reachable states and invariant induction

The few rules every run-level result below is built on. A machine is given by
a predicate on its initial states and an action, the relation between the
states before and after one step; runs are `Relation.ReflTransGen` of the
action.
-/

namespace Machine

open Relation

/-- A predicate on states. -/
abbrev StatePred (σ : Type*) := σ → Prop

/-- A step, as a relation between the states before and after it. -/
abbrev Action (σ : Type*) := σ → σ → Prop

variable {σ : Type*} {init : StatePred σ} {next : Action σ} {inv p : StatePred σ}

/-- The states some run from an initial state arrives at. -/
inductive Reachable (init : StatePred σ) (next : Action σ) : StatePred σ where
  | init {s : σ} : init s → Reachable init next s
  | step {s s' : σ} : Reachable init next s → next s s' → Reachable init next s'

/-- Standard invariant induction. -/
theorem Reachable.invariant {s : σ} (h : Reachable init next s)
    (hinit : ∀ s, init s → inv s)
    (hstep : ∀ s s', next s s' → inv s → inv s') : inv s := by
  induction h with
  | init h0 => exact hinit _ h0
  | step _ hnext ih => exact hstep _ _ hnext ih

/-- Fewer transitions reach fewer states. -/
theorem Reachable.mono {next' : Action σ} {s : σ} (h : Reachable init next s)
    (hnext : ∀ s s', next s s' → next' s s') : Reachable init next' s := by
  induction h with
  | init h => exact .init h
  | step _ hstep ih => exact .step ih (hnext _ _ hstep)

/-- A run that starts in a reachable state stays in reachable states. -/
theorem Reachable.steps {s s' : σ} (h : Reachable init next s)
    (hrun : ReflTransGen next s s') : Reachable init next s' := by
  induction hrun with
  | refl => exact h
  | tail _ hnext ih => exact .step ih hnext

/-- What every step out of a reachable state keeps, every run out of one
keeps. -/
theorem Reachable.stable {s s' : σ} (h : Reachable init next s)
    (hrun : ReflTransGen next s s')
    (hstep : ∀ u u', Reachable init next u → next u u' → p u → p u')
    (hp : p s) : p s' := by
  induction hrun with
  | refl => exact hp
  | tail hpre hnext ih => exact hstep _ _ (h.steps hpre) hnext ih

end Machine
