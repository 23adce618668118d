import Mathlib.Data.List.Basic

/-!
# Leftmost longest spans

A search for spans takes the first position from which a span leads on, the longest span
there, and goes on behind it. Which spans it takes is determined by the spans there are.
-/

namespace Recognizer

/-- The spans a search takes from a position on. -/
inductive LeftmostLongest (Span : Nat → Nat → Prop) : Nat → List (Nat × Nat) → Prop where
  | done {p : Nat} (hnone : ∀ i j, p ≤ i → ¬ Span i j) : LeftmostLongest Span p []
  | found {p i j : Nat} {rest : List (Nat × Nat)} (hp : p ≤ i) (hspan : Span i j)
      (hleft : ∀ i' j', p ≤ i' → Span i' j' → i ≤ i') (hlong : ∀ j', Span i j' → j' ≤ j)
      (hrest : LeftmostLongest Span (j + 1) rest) : LeftmostLongest Span p ((i, j) :: rest)

namespace LeftmostLongest

variable {Span : Nat → Nat → Prop} {p : Nat} {spans spans' : List (Nat × Nat)}

/-- A position at which no span begins is left out. -/
theorem skip (h : LeftmostLongest Span (p + 1) spans) (hnone : ∀ j, ¬ Span p j) :
    LeftmostLongest Span p spans := by
  -- a span from `p` on begins behind `p`
  have hpast : ∀ i j, p ≤ i → Span i j → p + 1 ≤ i := by
    intro i j hp hspan
    rcases Nat.lt_or_eq_of_le hp with hlt | rfl
    · exact hlt
    · exact absurd hspan (hnone j)
  cases h with
  | done hnone' => exact .done fun i j hp hspan => hnone' i j (hpast i j hp hspan) hspan
  | found hp hspan hleft hlong hrest =>
    exact .found (Nat.le_of_succ_le hp) hspan
      (fun i' j' hp' hspan' => hleft i' j' (hpast i' j' hp' hspan') hspan') hlong hrest

/-- Positions at which no span begins are left out. -/
theorem skipTo {q : Nat} (h : LeftmostLongest Span q spans) (hle : p ≤ q)
    (hnone : ∀ i j, p ≤ i → i < q → ¬ Span i j) : LeftmostLongest Span p spans := by
  -- a span from `p` on begins at `q` or behind it
  have hpast : ∀ i j, p ≤ i → Span i j → q ≤ i := fun i j hp hspan =>
    Nat.not_lt.mp fun hlt => hnone i j hp hlt hspan
  cases h with
  | done hnone' => exact .done fun i j hp hspan => hnone' i j (hpast i j hp hspan) hspan
  | found hq hspan hleft hlong hrest =>
    exact .found (Nat.le_trans hle hq) hspan
      (fun i' j' hp' hspan' => hleft i' j' (hpast i' j' hp' hspan') hspan') hlong hrest

/-- Only the spans there are matter. -/
theorem congr {Span' : Nat → Nat → Prop} (h : LeftmostLongest Span p spans)
    (hspans : ∀ i j, Span' i j ↔ Span i j) : LeftmostLongest Span' p spans := by
  obtain rfl : Span' = Span := funext₂ fun i j => propext (hspans i j)
  exact h

/-- With fewer spans the same ones are taken exactly if those that were taken are left. -/
theorem restrict_iff {Start : Nat → Prop} (h : LeftmostLongest Span p spans) :
    LeftmostLongest (fun i j => Span i j ∧ Start i) p spans ↔ ∀ a ∈ spans, Start a.1 := by
  constructor
  · intro h' a ha
    clear h
    induction h' with
    | done => cases ha
    | found _ hspan _ _ _ ih =>
      rcases List.mem_cons.mp ha with rfl | ha
      · exact hspan.2
      · exact ih ha
  · intro hstarts
    induction h with
    | done hnone => exact .done fun i j hp hspan => hnone i j hp hspan.1
    | found hp hspan hleft hlong _ ih =>
      obtain ⟨hstart, hrest⟩ := List.forall_mem_cons.mp hstarts
      exact .found hp ⟨hspan, hstart⟩ (fun i' j' hp' hspan' => hleft i' j' hp' hspan'.1)
        (fun j' hspan' => hlong j' hspan'.1) (ih hrest)

/-- The spans taken are determined. -/
theorem unique (h : LeftmostLongest Span p spans) (h' : LeftmostLongest Span p spans') :
    spans = spans' := by
  induction h generalizing spans' with
  | done hnone =>
    cases h' with
    | done => rfl
    | found hp hspan => exact absurd hspan (hnone _ _ hp)
  | found hp hspan hleft hlong _ ih =>
    cases h' with
    | done hnone => exact absurd hspan (hnone _ _ hp)
    | found hp' hspan' hleft' hlong' hrest' =>
      obtain rfl := Nat.le_antisymm (hleft _ _ hp' hspan') (hleft' _ _ hp hspan)
      obtain rfl := Nat.le_antisymm (hlong' _ hspan) (hlong _ hspan')
      rw [ih hrest']

/-- Some span is taken where there is one. -/
theorem ne_nil_iff (h : LeftmostLongest Span p spans) :
    spans ≠ [] ↔ ∃ i j, p ≤ i ∧ Span i j := by
  cases h with
  | done hnone =>
    refine iff_of_false (fun hne => hne rfl) ?_
    rintro ⟨i, j, hp, hspan⟩
    exact hnone i j hp hspan
  | found hp hspan => exact iff_of_true (List.cons_ne_nil _ _) ⟨_, _, hp, hspan⟩

/-- What is taken is a span behind the position. -/
theorem span_of_mem (hle : ∀ i j, Span i j → i ≤ j) (h : LeftmostLongest Span p spans)
    {i j : Nat} (hmem : (i, j) ∈ spans) : p ≤ i ∧ Span i j := by
  induction h with
  | done => cases hmem
  | found hp hspan _ _ _ ih =>
    rcases List.mem_cons.mp hmem with heq | hmem
    · cases heq
      exact ⟨hp, hspan⟩
    · obtain ⟨hbehind, hspan'⟩ := ih hmem
      have := hle _ _ hspan
      exact ⟨by omega, hspan'⟩

/-- The spans are taken in order, and none overlaps another one. -/
theorem ordered (hle : ∀ i j, Span i j → i ≤ j) (h : LeftmostLongest Span p spans) :
    spans.Pairwise fun a b => a.2 < b.1 := by
  induction h with
  | done => exact .nil
  | found _ _ _ _ hrest ih =>
    refine .cons (fun b hb => ?_) ih
    exact (span_of_mem hle hrest (i := b.1) (j := b.2) hb).1

end LeftmostLongest

end Recognizer
