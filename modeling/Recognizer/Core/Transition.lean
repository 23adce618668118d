import Mathlib.Logic.Relation

/-!
# Transition systems and guarded runs

A run of a transition system is a chain of steps from an initial state. A guard
restricts the runs to those whose steps all start in a state that meets it. The
invariant rules are stated once for both.
-/

namespace TransitionSystem

universe u

/-- Initial states and a step relation. -/
structure System (σ : Type u) where
  init : σ → Prop
  step : σ → σ → Prop

variable {σ : Type u} {S : System σ} {G I : σ → Prop}

/-- The states on the runs of a system. -/
inductive Reachable (S : System σ) : σ → Prop where
  | init {s : σ} (h : S.init s) : Reachable S s
  | step {s t : σ} (hs : Reachable S s) (h : S.step s t) : Reachable S t

/-- The system whose steps start in states that meet the guard. -/
def System.guard (S : System σ) (G : σ → Prop) : System σ where
  init := S.init
  step s t := G s ∧ S.step s t

/-- What holds initially and survives each step holds on every run. -/
theorem Reachable.invariant {s : σ} (h : Reachable S s) (hinit : ∀ s, S.init s → I s)
    (hstep : ∀ s t, I s → S.step s t → I t) : I s := by
  induction h with
  | init h => exact hinit _ h
  | step _ h ih => exact hstep _ _ ih h

/-- The invariant rule for a guarded run: a step may assume the guard. -/
theorem Reachable.guarded_invariant {s : σ} (h : Reachable (S.guard G) s)
    (hinit : ∀ s, S.init s → I s) (hstep : ∀ s t, I s → G s → S.step s t → I t) : I s :=
  h.invariant hinit fun s t hs hst => hstep s t hs hst.1 hst.2

/-- Runs are closed under chains of steps. -/
theorem Reachable.chain {s t : σ} (h : Reachable S s) (hst : Relation.ReflTransGen S.step s t) :
    Reachable S t := by
  induction hst with
  | refl => exact h
  | tail _ h ih => exact .step ih h

end TransitionSystem
