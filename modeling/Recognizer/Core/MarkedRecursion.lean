import Recognizer.Core.PathSearch

/-!
# Recursions that mark some of their nodes

A recursion over the states of a graph makes two kinds of moves. Some slip from one
state to the next without a mark; others are made under a mark on the node of the
state, and a marked node makes no moves of this kind again. On a finite graph the
recursion returns unless it is led into a loop of moves without marks, or to a state
where it dies.
-/

namespace MarkedRecursion

open PathSearch

universe u w

variable {S : Type u} {V : Type w}

/-- A graph to recurse over: the moves without and with a mark, the node of a state
that the marks are put on, and the states where the recursion dies. -/
structure Graph (S : Type u) (V : Type w) where
  slip : S → S → Prop
  enter : S → S → Prop
  node : S → V
  dead : S → Prop

variable {G : Graph S V} {M : Set V} {s t : S}

/-- The recursion from a state returns while the nodes of `M` are marked. -/
inductive Halts (G : Graph S V) : Set V → S → Prop where
  | intro {M : Set V} {s : S} (halive : ¬ G.dead s) (hslip : ∀ t, G.slip s t → Halts G M t)
      (henter : G.node s ∉ M → ∀ t, G.enter s t → Halts G (insert (G.node s) M) t) : Halts G M s

/-- The recursion from a state is led to its death or into a loop without marks. -/
inductive Trapped (G : Graph S V) : Set V → S → Prop where
  | dead {M : Set V} {s : S} (h : G.dead s) : Trapped G M s
  | loop {M : Set V} {s : S} (h : Relation.TransGen G.slip s s) : Trapped G M s
  | slip {M : Set V} {s t : S} (hslip : G.slip s t) (h : Trapped G M t) : Trapped G M s
  | enter {M : Set V} {s t : S} (hnew : G.node s ∉ M) (henter : G.enter s t)
      (h : Trapped G (insert (G.node s) M) t) : Trapped G M s

/-- A recursion that returns is on no loop without marks. -/
theorem Halts.no_loop (h : Halts G M s) : ¬ Relation.TransGen G.slip s s := by
  induction h with
  | intro halive hslip henter ih =>
    intro hloop
    obtain ⟨t, hst, hback⟩ := Relation.TransGen.head'_iff.mp hloop
    exact ih t hst (Relation.TransGen.tail' hback hst)

theorem Halts.not_trapped (h : Halts G M s) : ¬ Trapped G M s := by
  induction h with
  | @intro M s halive hslip henter ihslip ihenter =>
    intro htrap
    cases htrap with
    | dead hdead => exact halive hdead
    | loop hloop => exact (Halts.intro halive hslip henter).no_loop hloop
    | slip hmove hrest => exact ihslip _ hmove hrest
    | enter hnew hmove hrest => exact ihenter hnew _ hmove hrest

open Classical in
/-- The number of nodes of a finite set that are left to mark. -/
noncomputable def unmarked (nodes : Finset V) (M : Set V) : Nat :=
  (nodes.filter (· ∉ M)).card

/-- With a new node marked, less is left to mark. -/
theorem unmarked_lt {nodes : Finset V} {M' : Set V} {v : V} (hsub : M ⊆ M') (hv : v ∈ nodes)
    (hnew : v ∉ M) (hmark : v ∈ M') : unmarked nodes M' < unmarked nodes M := by
  classical
  apply Finset.card_lt_card
  refine Finset.ssubset_iff_of_subset (fun a ha => ?_) |>.mpr ⟨v, ?_, ?_⟩
  · rw [Finset.mem_filter] at ha ⊢
    exact ⟨ha.1, fun hmem => ha.2 (hsub hmem)⟩
  · rw [Finset.mem_filter]
    exact ⟨hv, hnew⟩
  · rw [Finset.mem_filter]
    exact fun hmem => hmem.2 hmark

/-- On a finite graph a recursion that is not trapped returns. -/
theorem halts_of_not_trapped {states : Finset S}
    (hclosed : ∀ s ∈ states, ∀ t, G.slip s t ∨ G.enter s t → t ∈ states) (hs : s ∈ states)
    (hfree : ¬ Trapped G M s) : Halts G M s := by
  classical
  -- First the number of nodes left to mark falls, then the length of the way without marks.
  induction hc : unmarked (states.image G.node) M using Nat.strong_induction_on
    generalizing M s with
  | _ c ihc =>
    induction hr : rank G.slip states s using Nat.strong_induction_on generalizing s with
    | _ r ihr =>
      refine .intro (fun hdead => hfree (.dead hdead)) (fun t ht => ?_) fun hnew t ht => ?_
      · have hmem := hclosed s hs t (Or.inl ht)
        have hfree' : ¬ Trapped G M t := fun htrap => hfree (.slip ht htrap)
        have hlt := rank_lt (fun hloop => hfree' (.loop hloop)) hmem ht
        exact ihr _ (hr ▸ hlt) hmem hfree' rfl
      · have hlt := unmarked_lt (Set.subset_insert _ M) (Finset.mem_image_of_mem G.node hs) hnew
          (Set.mem_insert _ M)
        exact ihc _ (hc ▸ hlt) (hclosed s hs t (Or.inr ht))
          (fun htrap => hfree (.enter hnew ht htrap)) rfl

theorem halts_iff_not_trapped {states : Finset S}
    (hclosed : ∀ s ∈ states, ∀ t, G.slip s t ∨ G.enter s t → t ∈ states) (hs : s ∈ states) :
    Halts G M s ↔ ¬ Trapped G M s :=
  ⟨Halts.not_trapped, halts_of_not_trapped hclosed hs⟩

end MarkedRecursion
