import Recognizer.Core.Transition

/-!
# Two partial computations in lockstep

`Option.Rel r` relates the results of two computations that fail together and whose values are
related by `r`. The rules below take two such computations apart step by step. A system whose
steps are matched by those of another one reaches only states that the other one matches.
-/

namespace Lockstep

universe u

variable {α α' β β' γ : Type u} {r r' : α → β → Prop} {x : Option α} {y : Option β}

/-- Two results in lockstep are both missing, or two related values. -/
theorem rel_cases (h : Option.Rel r x y) :
    x = none ∧ y = none ∨ ∃ a b, x = some a ∧ y = some b ∧ r a b := by
  cases h with
  | some hr => exact .inr ⟨_, _, rfl, rfl, hr⟩
  | none => exact .inl ⟨rfl, rfl⟩

/-- The relation on the values may be weakened. -/
theorem rel_imp (h : Option.Rel r x y) (himp : ∀ a b, r a b → r' a b) : Option.Rel r' x y := by
  cases h with
  | some hr => exact .some (himp _ _ hr)
  | none => exact .none

/-- A result of the second computation is matched by one of the first. -/
theorem rel_some_right {b : β} (h : Option.Rel r x (some b)) : ∃ a, x = some a ∧ r a b := by
  cases h with
  | some hr => exact ⟨_, rfl, hr⟩

/-- Functions of the values go on in lockstep. -/
theorem rel_map {s : α' → β' → Prop} {f : α → α'} {g : β → β'} (h : Option.Rel r x y)
    (hfg : ∀ a b, r a b → s (f a) (g b)) : Option.Rel s (x.map f) (y.map g) := by
  cases h with
  | some hr => exact .some (hfg _ _ hr)
  | none => exact .none

/-- Computations that go on in lockstep from related values. -/
theorem rel_bind {s : α' → β' → Prop} {f : α → Option α'} {g : β → Option β'}
    (h : Option.Rel r x y) (hfg : ∀ a b, r a b → Option.Rel s (f a) (g b)) :
    Option.Rel s (x.bind f) (y.bind g) := by
  cases h with
  | some hr => exact hfg _ _ hr
  | none => exact .none

/-- A walk along a list stays in lockstep when each of its steps does. -/
theorem rel_foldlM {f : α → γ → Option α} {g : β → γ → Option β}
    (hstep : ∀ c a b, r a b → Option.Rel r (f a c) (g b c)) (cs : List γ) {a : α} {b : β}
    (h : r a b) : Option.Rel r (cs.foldlM f a) (cs.foldlM g b) := by
  induction cs generalizing a b with
  | nil => exact .some h
  | cons c cs ih =>
    simp only [List.foldlM_cons, Option.bind_eq_bind]
    exact rel_bind (hstep c a b h) fun a b hab => ih hab

open TransitionSystem

/-- The states of a system whose steps are matched by the steps of another one. -/
theorem reachable_matched {σ τ : Type u} {S : System σ} {T : System τ} {R : σ → τ → Prop}
    (hinit : ∀ t, T.init t → ∃ s, S.init s ∧ R s t)
    (hstep : ∀ s t t', R s t → T.step t t' → ∃ s', S.step s s' ∧ R s' t') {t : τ}
    (h : Reachable T t) : ∃ s, Reachable S s ∧ R s t := by
  induction h with
  | init h =>
    obtain ⟨s, hs, hR⟩ := hinit _ h
    exact ⟨s, .init hs, hR⟩
  | step _ h ih =>
    obtain ⟨s, hs, hR⟩ := ih
    obtain ⟨s', hs', hR'⟩ := hstep s _ _ hR h
    exact ⟨s', hs.step hs', hR'⟩

end Lockstep
