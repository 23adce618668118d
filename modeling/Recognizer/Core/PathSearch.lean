import Mathlib.Data.Finset.Card
import Mathlib.Data.Set.Insert
import Mathlib.Logic.Relation

/-!
# Searches that mark the nodes of their path

A search passes through some nodes of a graph and stops at the others. While it
is below a node it passes, that node may be marked, and a marked node is not
entered again. Marking loses nothing: a stop that can be reached can be reached
without coming back to the node the search starts from.
-/

namespace PathSearch

universe u

variable {V : Type u} {edge : V → V → Prop} {pass : V → Prop} {P : Set V} {u v w s : V}

/-- A stop the search finds from a node while the nodes of `P` are marked. -/
inductive Found (edge : V → V → Prop) (pass : V → Prop) (P : Set V) : V → V → Prop where
  | stop {v : V} (h : ¬ pass v) : Found edge pass P v v
  | step {v w s : V} (hpass : pass v) (hv : v ∉ P) (hedge : edge v w)
      (h : Found edge pass P w s) : Found edge pass P v s

namespace Found

theorem not_pass (h : Found edge pass P v s) : ¬ pass s := by
  induction h with
  | stop h => exact h
  | step _ _ _ _ ih => exact ih

/-- Fewer marks find more. -/
theorem mono {Q : Set V} (hsub : Q ⊆ P) (h : Found edge pass P v s) : Found edge pass Q v s := by
  induction h with
  | stop h => exact .stop h
  | step hpass hv hedge _ ih => exact .step hpass (fun hq => hv (hsub hq)) hedge ih

theorem iff_of_not_pass (h : ¬ pass v) : Found edge pass P v s ↔ s = v := by
  constructor
  · intro hf
    cases hf with
    | stop => rfl
    | step hpass => exact absurd hpass h
  · rintro rfl
    exact .stop h

/-- A marked node that is passed is a dead end. -/
theorem not_of_mem (hpass : pass v) (hv : v ∈ P) : ¬ Found edge pass P v s := by
  intro hf
  cases hf with
  | stop h => exact h hpass
  | step _ hnot => exact hnot hv

/-- An unmarked node that is passed without a mark leads to its successors. -/
theorem iff_step (hpass : pass v) (hv : v ∉ P) :
    Found edge pass P v s ↔ ∃ w, edge v w ∧ Found edge pass P w s := by
  constructor
  · intro hf
    cases hf with
    | stop h => exact absurd hpass h
    | step _ _ hedge h => exact ⟨_, hedge, h⟩
  · rintro ⟨w, hedge, h⟩
    exact .step hpass hv hedge h

/-- A search either never meets `v`, or can be cut to start behind its last visit of `v`. -/
theorem avoid_or_restart (v : V) (h : Found edge pass P u s) :
    Found edge pass (insert v P) u s ∨ ∃ w, edge v w ∧ Found edge pass (insert v P) w s := by
  induction h with
  | stop h => exact Or.inl (.stop h)
  | @step u w s hpass hu hedge _ ih =>
    rcases ih with havoid | hrestart
    · by_cases huv : u = v
      · exact Or.inr ⟨w, huv ▸ hedge, havoid⟩
      · exact Or.inl (.step hpass (by simp [huv, hu]) hedge havoid)
    · exact Or.inr hrestart

/-- An unmarked node that is passed under its own mark leads to its successors. -/
theorem iff_mark (hpass : pass v) (hv : v ∉ P) :
    Found edge pass P v s ↔ ∃ w, edge v w ∧ Found edge pass (insert v P) w s := by
  constructor
  · intro hf
    rcases hf.avoid_or_restart v with havoid | hrestart
    · exact absurd havoid (not_of_mem hpass (Set.mem_insert v P))
    · exact hrestart
  · rintro ⟨w, hedge, h⟩
    exact .step hpass hv hedge (h.mono (Set.subset_insert v P))

/-- Without marks the search finds the stops at the ends of the paths it can pass. -/
theorem iff_reflTransGen :
    Found edge pass ∅ v s ↔
      ¬ pass s ∧ Relation.ReflTransGen (fun a b => pass a ∧ edge a b) v s := by
  constructor
  · intro hf
    refine ⟨hf.not_pass, ?_⟩
    induction hf with
    | stop => exact .refl
    | step hpass _ hedge _ ih => exact .head ⟨hpass, hedge⟩ ih
  · rintro ⟨hstop, hpath⟩
    induction hpath using Relation.ReflTransGen.head_induction_on with
    | refl => exact .stop hstop
    | head h _ ih => exact .step h.1 (Set.notMem_empty _) h.2 ih

end Found

section Rank

variable {nodes : Finset V}

open Classical in
/-- The number of nodes of a finite set that can be reached by one edge or more. -/
noncomputable def rank (edge : V → V → Prop) (nodes : Finset V) (v : V) : Nat :=
  (nodes.filter fun b => Relation.TransGen edge v b).card

theorem rank_le (edge : V → V → Prop) (nodes : Finset V) (v : V) :
    rank edge nodes v ≤ nodes.card := by
  classical
  unfold rank
  exact Finset.card_filter_le _ _

/-- An edge to a node on no loop leads to a smaller rank. -/
theorem rank_lt (hloop : ¬ Relation.TransGen edge w w) (hw : w ∈ nodes) (hedge : edge v w) :
    rank edge nodes w < rank edge nodes v := by
  classical
  unfold rank
  refine Finset.card_lt_card (Finset.ssubset_iff_of_subset (fun b hb => ?_) |>.mpr ⟨w, ?_, ?_⟩)
  · rw [Finset.mem_filter] at hb ⊢
    exact ⟨hb.1, .head hedge hb.2⟩
  · rw [Finset.mem_filter]
    exact ⟨hw, .single hedge⟩
  · rw [Finset.mem_filter]
    exact fun hb => hloop hb.2

/-- An edge relation that descends along a measure has no loops. -/
theorem no_loop_of_measure (f : V → Nat)
    (hedge : ∀ a ∈ nodes, ∀ b, edge a b → b ∈ nodes ∧ f b < f a) :
    ∀ a ∈ nodes, ¬ Relation.TransGen edge a a := by
  suffices hdesc : ∀ a ∈ nodes, ∀ b, Relation.TransGen edge a b → b ∈ nodes ∧ f b < f a from
    fun a ha hcycle => lt_irrefl _ (hdesc a ha a hcycle).2
  intro a ha b hpath
  induction hpath with
  | single h => exact hedge a ha _ h
  | tail _ h ih =>
    obtain ⟨hmem, hlt⟩ := hedge _ ih.1 _ h
    exact ⟨hmem, hlt.trans ih.2⟩

end Rank

end PathSearch
