import Recognizer.Source.Nfa

/-!
# Edges of the pattern graph

The compiler walks through `EPSILON`, `SPLIT` and `TREE` nodes and stops at all
others.
-/

namespace Recognizer

/-- The compiler walks through a node. -/
def Passes (n : NFA) : Prop := n.type = .epsilon ∨ n.type = .split ∨ n.type = .tree

instance (n : NFA) : Decidable (Passes n) := by
  unfold Passes
  infer_instance

/-- The edges out of the nodes the compiler walks through. -/
inductive WalkEdge (h : Heap) : Addr → Addr → Prop where
  | epsilon {a : Addr} (htype : (h a).type = .epsilon) : WalkEdge h a (h a).out2
  | splitLeft {a : Addr} (htype : (h a).type = .split) : WalkEdge h a (h a).out1
  | splitRight {a : Addr} (htype : (h a).type = .split) : WalkEdge h a (h a).out2
  | branch {a b : Addr} (htype : (h a).type = .tree) (hb : b ∈ (h a).branches.items) :
    WalkEdge h a b

/-- Only the nodes the compiler walks through have edges it walks. -/
theorem WalkEdge.passes {a b : Addr} (hedge : WalkEdge h a b) : Passes (h a) := by
  cases hedge with
  | epsilon ht => exact Or.inl ht
  | splitLeft ht | splitRight ht => exact Or.inr (Or.inl ht)
  | branch ht => exact Or.inr (Or.inr ht)

/-- The edges of the graph: those the compiler walks and those of the stops that
do not accept. -/
inductive Leads (h : Heap) : Addr → Addr → Prop where
  | walk {a b : Addr} (hedge : WalkEdge h a b) : Leads h a b
  | out2 {a : Addr} (hstop : ¬ Passes (h a)) (hacc : (h a).type ≠ .accepting) :
    Leads h a (h a).out2

/-- A node with a reachable list of its own: a stop that does not accept. -/
def Collectable (n : NFA) : Prop := ¬ Passes n ∧ n.type ≠ .accepting

instance (n : NFA) : Decidable (Collectable n) := by
  unfold Collectable
  infer_instance

/-- A node as the parser leaves it: without flags, its list empty. -/
def NFA.Blank (n : NFA) : Prop :=
  n.visitedFlag = false ∧ n.doneFlag = false ∧ n.reachable = []

/-- No node carries a mark of the compiler. -/
def Blank (h : Heap) : Prop := ∀ a, (h a).Blank

theorem Blank.modify {h : Heap} (hb : Blank h) (a : Addr) {f : NFA → NFA}
    (hf : ∀ n, n.Blank → (f n).Blank) : Blank (h.modify a f) := by
  intro b
  rw [Heap.modify_apply]
  split
  · exact hf _ (hb a)
  · exact hb b

/-- A branch list whose size and tail belong to its chain. -/
def BranchList.WellFormed (l : BranchList) : Prop :=
  l.size = l.items.length ∧ l.tail = l.items.getLastD 0

/-- The nodes a node points to. -/
def NFA.targets (n : NFA) : List Addr :=
  match n.type with
  | .accepting => []
  | .split | .interval => [n.out1, n.out2]
  | .tree => n.branches.items
  | _ => [n.out2]

/-- The nodes a node points to unless it closes a loop. -/
def NFA.forward (n : NFA) : List Addr :=
  match n.type with
  | .accepting | .interval => []
  | .split => if n.literal = 63 then [n.out1, n.out2] else []
  | .tree => n.branches.items
  | _ => [n.out2]

theorem NFA.forward_subset (n : NFA) : n.forward ⊆ n.targets := by
  unfold NFA.forward NFA.targets
  split <;> rename_i ht <;> simp only [ht]
  · simp
  · simp
  · split <;> simp
  · simp
  · exact List.Subset.refl _

/-- A node without branches and loops points to its only successor. -/
theorem NFA.targets_eq {n : NFA}
    (htype : n.type ≠ .accepting ∧ n.type ≠ .split ∧ n.type ≠ .tree ∧ n.type ≠ .interval) :
    n.targets = [n.out2] := by
  obtain ⟨hacc, hsplit, htree, hint⟩ := htype
  unfold NFA.targets
  cases ht : n.type <;> simp_all

theorem Leads.mem_targets {h : Heap} {a b : Addr} (hlead : Leads h a b) :
    b ∈ (h a).targets := by
  cases hlead with
  | walk hedge =>
    cases hedge with
    | epsilon ht | splitLeft ht | splitRight ht => simp [NFA.targets, ht]
    | branch ht hb => simpa [NFA.targets, ht] using hb
  | out2 hstop hacc =>
    unfold Passes at hstop
    cases ht : (h a).type <;> simp_all [NFA.targets]

end Recognizer
