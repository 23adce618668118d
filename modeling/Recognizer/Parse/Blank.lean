import Recognizer.Parse.Rule
import Recognizer.Compile.Graph

/-!
# The parser hands over unmarked nodes and an empty branch stack

No routine of the parser writes a flag or a reachable list, and an alternation
that is not inside another one takes all branches off the branch stack.
-/

namespace Recognizer

variable {c : NFACtrl} {h : Heap}

/-- A property of heaps that survives copies of nodes and writes of members that are no marks, as
long as the types that are written are in `T`, which may leave out the interval. -/
structure Survives (T : NfaType → Prop) (P : Heap → Prop) : Prop where
  types : ∀ {type : NfaType}, type ≠ .interval → T type
  modify : ∀ {h : Heap} (a : Addr) {f : NFA → NFA}, (∀ n, n.Blank → (f n).Blank) →
    (∀ n, (f n).type = n.type ∨ T (f n).type) → P h → P (h.modify a f)
  copy : ∀ {h : Heap} (a b : Addr), P h → P (h.modify a fun _ => h b)

/-- Nodes without marks keep none of them under every write of the constructors. -/
theorem survives_blank : Survives (fun _ => True) Blank where
  types _ := trivial
  modify a _ hf _ hb := hb.modify a hf
  copy a b hb := hb.modify a fun _ _ => hb b

/-- No node is an interval. -/
def NoIntervals (h : Heap) : Prop := ∀ a, (h a).type ≠ .interval

/-- The absence of interval nodes survives every write that makes no interval node. -/
theorem survives_noIntervals : Survives (· ≠ .interval) NoIntervals where
  types := id
  modify {h} a f _ htype hn := by
    intro b
    rw [Heap.modify_apply]
    split
    · rcases htype (h a) with heq | hne
      · rw [heq]
        exact hn a
      · exact hne
    · exact hn b
  copy {h} a b hn := by
    intro x
    rw [Heap.modify_apply]
    split
    · exact hn b
    · exact hn x

/-- From some address on no node has been given a type. -/
def FinitelyMany (h : Heap) : Prop := ∃ n, ∀ a, n ≤ a → (h a).type = .any

/-- Writing one node leaves finitely many nodes in use. -/
theorem FinitelyMany.modify (hn : FinitelyMany h) (a : Addr) (f : NFA → NFA) :
    FinitelyMany (h.modify a f) := by
  obtain ⟨n, hn⟩ := hn
  refine ⟨max n (a + 1), fun b hb => ?_⟩
  obtain ⟨hnb, hab⟩ := max_le_iff.mp hb
  rw [Heap.modify_of_ne h (Nat.ne_of_gt hab)]
  exact hn b hnb

/-- Finiteness of the nodes in use survives every write. -/
theorem survives_finitelyMany : Survives (fun _ => True) FinitelyMany where
  types _ := trivial
  modify a f _ _ hn := hn.modify a f
  copy a _ hn := hn.modify a _

namespace Survives

variable {T : NfaType → Prop} {P : Heap → Prop} (hP : Survives T P)

include hP

/-- Writing to members of a node that are no marks. -/
theorem ctrl_modify (hb : P c.heap) (a : Addr) {f : NFA → NFA} (hf : ∀ n, n.Blank → (f n).Blank)
    (htype : ∀ n, (f n).type = n.type) : P (c.modify a f).heap :=
  hP.modify a hf (fun n => .inl (htype n)) hb

/-- Writing a type, too. -/
theorem ctrl_retype (hb : P c.heap) (a : Addr) {f : NFA → NFA} (hf : ∀ n, n.Blank → (f n).Blank)
    {type : NfaType} (htype : ∀ n, (f n).type = type) (hT : T type) : P (c.modify a f).heap :=
  hP.modify a hf (fun n => .inr (htype n ▸ hT)) hb

/-- A node from the allocator is given an allowed type. -/
theorem newNfa (hb : P c.heap) {type : NfaType} (htype : T type) {n : Addr} {c' : NFACtrl}
    (hrun : c.newNfa type = (n, c')) : P c'.heap := by
  have hheap : ∀ r : Addr × NFACtrl, c.nfaAlloc = r → r.2.heap = c.heap := by
    rintro r rfl
    unfold NFACtrl.nfaAlloc
    dsimp only
    split <;> rfl
  rcases halloc : c.nfaAlloc with ⟨m, c₁⟩
  have heq := hheap _ halloc
  simp only [NFACtrl.newNfa, halloc, Prod.mk.injEq] at hrun
  obtain ⟨rfl, rfl⟩ := hrun
  refine hP.ctrl_retype (c := c₁) ?_ _ (fun _ h => h) (fun _ => rfl) htype
  exact heq ▸ hb

/-- A new node that is no interval. -/
theorem newNode (hb : P c.heap) {type : NfaType} {n : Addr} {c' : NFACtrl}
    (hrun : c.newNfa type = (n, c')) (htype : type ≠ .interval) : P c'.heap :=
  hP.newNfa hb (hP.types htype) hrun

/-- Two new nodes that are no intervals. -/
theorem newNodes (hb : P c.heap) {type type' : NfaType} {m n : Addr} {c' c'' : NFACtrl}
    (hrun : c.newNfa type = (m, c')) (hrun' : c'.newNfa type' = (n, c''))
    (htype : type ≠ .interval ∧ type' ≠ .interval) : P c''.heap :=
  hP.newNode (hP.newNode hb hrun htype.1) hrun' htype.2

omit hP in
/-- A freed node goes onto the allocator's ring: no node is written. -/
theorem nfaDealloc (hb : P c.heap) (n : Addr) : P (c.nfaDealloc n).heap := by
  unfold NFACtrl.nfaDealloc
  repeat' split
  all_goals exact hb

/-- Marking writes the identifier of one node. -/
theorem markNfa (hb : P c.heap) (n : Addr) : P (c.markNfa n).heap := by
  unfold NFACtrl.markNfa
  split
  · exact hP.ctrl_modify (f := fun x => { x with id := c.nextSeqId }) hb n (fun _ h => h)
      fun _ => rfl
  · exact hb

/-- Marking an interval writes the identifier of one node. -/
theorem markIntervalNfa (hb : P c.heap) (n : Addr) : P (c.markIntervalNfa n).heap := by
  unfold NFACtrl.markIntervalNfa
  split
  · exact hP.ctrl_modify (f := fun x => { x with id := c.nextIntervalSeqId }) hb n (fun _ h => h)
      fun _ => rfl
  · exact hb

/-- A literal: two nodes are allocated, one of them is marked and both are linked. -/
theorem newLiteralNfa (hb : P c.heap) (literal : Int) {type : NfaType} (htype : type ≠ .interval) :
    P (c.newLiteralNfa literal type).2.heap := by
  rcases hrun : c.newNfa .accepting with ⟨t, c₁⟩
  rcases hrun' : c₁.newNfa type with ⟨s, c₂⟩
  simp only [NFACtrl.newLiteralNfa, hrun, hrun']
  iterate 2 refine hP.ctrl_modify ?_ _ (fun _ h => h) fun _ => rfl
  exact hP.markNfa (hP.newNodes hb hrun hrun' ⟨by simp, htype⟩) s

/-- A bracket: two nodes are allocated, one of them is marked and its set is initialised. -/
theorem newRangeNfa (hb : P c.heap) (negate : Bool) :
    P (c.newRangeNfa negate).2.heap := by
  rcases hrun : c.newNfa .range with ⟨s, c₁⟩
  rcases hrun' : c₁.newNfa .accepting with ⟨t, c₂⟩
  simp only [NFACtrl.newRangeNfa, hrun, hrun']
  iterate 3 refine hP.ctrl_modify ?_ _ (fun _ h => h) fun _ => rfl
  exact hP.markNfa (hP.newNodes hb hrun hrun' (by simp)) s

/-- Adding a range writes the set of one node. -/
theorem updateRangeNfa (hb : P c.heap) (low high : Nat) (n : Addr) (negate : Bool) :
    P (c.updateRangeNfa low high n negate).heap := by
  unfold NFACtrl.updateRangeNfa
  generalize List.range' low (high + 1 - low) = is
  induction is generalizing c with
  | nil => exact hb
  | cons i is ih =>
    refine ih ?_
    exact hP.ctrl_modify hb n (fun _ h => h) fun _ => rfl

/-- A backreference: two nodes are allocated and linked, none is marked. -/
theorem newBackreferenceNfa (hb : P c.heap) (group : Nat) :
    P (c.newBackreferenceNfa group).2.heap := by
  rcases hrun : c.newNfa .backreference with ⟨s, c₁⟩
  rcases hrun' : c₁.newNfa .accepting with ⟨t, c₂⟩
  simp only [NFACtrl.newBackreferenceNfa, hrun, hrun']
  iterate 2 refine hP.ctrl_modify ?_ _ (fun _ h => h) fun _ => rfl
  exact hP.newNodes hb hrun hrun' (by simp)

/-- A Kleene closure: a split before the body, and the body's end turned back to it. -/
theorem newKleeneNfa (hb : P c.heap) (body : Addr) :
    P (c.newKleeneNfa body).2.heap := by
  rcases hrun : c.newNfa .split with ⟨s, c₁⟩
  rcases hrun' : c₁.newNfa .accepting with ⟨t, c₂⟩
  simp only [NFACtrl.newKleeneNfa, hrun, hrun']
  iterate 2 refine hP.ctrl_modify ?_ _ (fun _ h => h) fun _ => rfl
  refine hP.ctrl_retype ?_ _ (fun _ h => h) (fun _ => rfl) (hP.types (by simp))
  refine hP.ctrl_modify ?_ _ (fun _ h => h) fun _ => rfl
  exact hP.newNodes hb hrun hrun' (by simp)

/-- An optional operand: a split before the body, and the body's end led to the exit. -/
theorem newQmarkNfa (hb : P c.heap) (body : Addr) :
    P (c.newQmarkNfa body).2.heap := by
  rcases hrun : c.newNfa .split with ⟨s, c₁⟩
  rcases hrun' : c₁.newNfa .accepting with ⟨t, c₂⟩
  simp only [NFACtrl.newQmarkNfa, hrun, hrun']
  refine hP.ctrl_modify ?_ _ (fun _ h => h) fun _ => rfl
  refine hP.ctrl_retype ?_ _ (fun _ h => h) (fun _ => rfl) (hP.types (by simp))
  refine hP.ctrl_modify ?_ _ (fun _ h => h) fun _ => rfl
  exact hP.newNodes hb hrun hrun' (by simp)

/-- A positive closure: the body's end becomes the split that returns to its start. -/
theorem newPosclosureNfa (hb : P c.heap) (body : Addr) :
    P (c.newPosclosureNfa body).2.heap := by
  rcases hrun : c.newNfa .epsilon with ⟨s, c₁⟩
  rcases hrun' : c₁.newNfa .accepting with ⟨t, c₂⟩
  simp only [NFACtrl.newPosclosureNfa, hrun, hrun']
  iterate 3 refine hP.ctrl_modify ?_ _ (fun _ h => h) fun _ => rfl
  refine hP.ctrl_retype ?_ _ (fun _ h => h) (fun _ => rfl) (hP.types (by simp))
  refine hP.ctrl_modify ?_ _ (fun _ h => h) fun _ => rfl
  exact hP.newNodes hb hrun hrun' (by simp)

/-- The only constructor that makes an interval node needs the type to be allowed. -/
theorem newIntervalNfa (hT : T .interval) (hb : P c.heap) (target : Addr) (min max : Int) :
    P (c.newIntervalNfa target min max).2.2.2.heap := by
  rcases hrun : c.newNfa .epsilon with ⟨s, c₁⟩
  rcases hrun' : c₁.newNfa .accepting with ⟨t, c₂⟩
  rcases hrun'' : c₂.newNfa .interval with ⟨i, c₃⟩
  simp only [NFACtrl.newIntervalNfa, hrun, hrun', hrun'']
  iterate 3 refine hP.ctrl_modify ?_ _ (fun _ h => h) fun _ => rfl
  refine hP.markIntervalNfa ?_ i
  refine hP.ctrl_retype ?_ _ (fun _ h => h) (fun _ => rfl) (hP.types (by simp))
  refine hP.ctrl_modify ?_ _ (fun _ h => h) fun _ => rfl
  have hb₃ := hP.newNfa (hP.newNodes hb hrun hrun' (by simp)) hT hrun''
  split
  · exact hP.ctrl_retype hb₃ _ (fun _ h => h) (fun _ => rfl) (hP.types (by simp))
  · exact hP.ctrl_modify hb₃ _ (fun _ h => h) fun _ => rfl

/-- Concatenation copies a node over the joint, links the two graphs and frees the copied node. -/
theorem concatenateNfa (hb : P c.heap) (prev next : Addr) :
    P (c.concatenateNfa prev next).2.heap := by
  unfold NFACtrl.concatenateNfa
  split
  · exact hb
  · split
    · exact hb
    · refine Survives.nfaDealloc ?_ _
      iterate 2 refine hP.ctrl_modify ?_ _ (fun _ h => h) fun _ => rfl
      exact hP.copy prev _ hb

/-- A literal run concatenates one literal after another, by induction on the text. -/
theorem newLliteralNfa (hb : P c.heap) (src : List Int) :
    P (c.newLliteralNfa src).2.heap := by
  cases src with
  | nil => exact hb
  | cons s src =>
    suffices hfold : ∀ (src : List Int) (t : Addr × NFACtrl), P t.2.heap →
        P (src.foldl NFACtrl.appendLiteral t).2.heap from
      hfold src _ (hP.newLiteralNfa hb s (by simp))
    intro src
    induction src with
    | nil => exact fun _ h => h
    | cons s src ih =>
      exact fun t h => ih _ (hP.concatenateNfa (hP.newLiteralNfa h s (by simp)) _ _)

/-- Collecting the branches of nested trees redirects and frees their ends, one tree at a time. -/
theorem collectTrees (hb : P c.heap) (terminator : Addr) (l : List Addr) :
    P (c.collectTrees terminator l).2.2.heap := by
  induction l generalizing c with
  | nil => exact hb
  | cons n l ih =>
    rw [NFACtrl.collectTrees]
    dsimp only
    split
    · refine ih (Survives.nfaDealloc ?_ _)
      exact hP.ctrl_retype hb n (fun _ h => h) (fun _ => rfl) (hP.types (by simp))
    · exact ih hb

/-- Redirecting the branches to one terminator writes one node of each. -/
theorem redirectBranches (hb : P c.heap) (terminator : Addr) (l : List Addr) :
    P (c.redirectBranches terminator l).2.heap := by
  induction l generalizing c with
  | nil => exact hb
  | cons n l ih =>
    rw [NFACtrl.redirectBranches]
    refine ih ?_
    exact hP.ctrl_retype hb n (fun _ h => h) (fun _ => rfl) (hP.types (by simp))

/-- An alternation: the branches are collected and redirected, then a tree is made over them. -/
theorem newAlternationNfa (hb : P c.heap) {branches rest : List Addr} {num : Nat} {t : Addr}
    {c' : NFACtrl} (hrun : c.newAlternationNfa branches num = some (t, rest, c')) :
    P c'.heap := by
  rcases hrun₁ : c.newNfa .tree with ⟨s, c₁⟩
  rcases hrun₂ : c₁.newNfa .accepting with ⟨t', c₂⟩
  simp only [NFACtrl.newAlternationNfa, hrun₁, hrun₂] at hrun
  split at hrun
  · cases hrun
    exact hb
  · split at hrun
    · cases hrun
    · cases hrun
      iterate 2 refine hP.ctrl_modify ?_ _ (fun _ h => h) fun _ => rfl
      refine hP.redirectBranches (hP.collectTrees ?_ _ _) _ _
      exact hP.ctrl_modify (hP.newNodes hb hrun₁ hrun₂ (by simp)) _ (fun _ h => h) fun _ => rfl

end Survives

namespace Parser

variable {p q r : Parser} {T : NfaType → Prop} {P : Heap → Prop}

/-- What the descent keeps: the depth of alternatives, outside all alternatives the
empty branch stack, and what survives its writes to the nodes. -/
structure Keeps (P : Heap → Prop) (p q : Parser) : Prop where
  level : q.inAlternation = p.inAlternation
  stack : p.inAlternation = 0 → p.branchStack = [] → q.branchStack = []
  heap : P p.ctrl.heap → P q.ctrl.heap

namespace Keeps

/-- A parser that does nothing keeps the property. -/
theorem refl (p : Parser) : Keeps P p p := ⟨rfl, fun _ => id, id⟩

/-- Two keeping stretches make one. -/
theorem trans (h₁ : Keeps P p q) (h₂ : Keeps P q r) : Keeps P p r where
  level := h₂.level.trans h₁.level
  stack hzero hstack := h₂.stack (h₁.level.trans hzero) (h₁.stack hzero hstack)
  heap hp := h₂.heap (h₁.heap hp)

/-- Changing the symbol stack. -/
theorem stack_only (p : Parser) (l : List Addr) : Keeps P p { p with symbolStack := l } :=
  ⟨rfl, fun _ => id, id⟩

/-- Reading keeps the property: neither the nodes nor the alternation's stack is touched. -/
theorem reads (h : Reads p q) : Keeps P p q := by
  obtain ⟨s, t, -, rfl⟩ := h
  exact ⟨rfl, fun _ => id, id⟩

/-- An outermost alternation takes every branch. -/
theorem newAlternationNfa_all {c c' : NFACtrl} {branches rest : List Addr} {t : Addr}
    (hrun : c.newAlternationNfa branches branches.length = some (t, rest, c')) : rest = [] := by
  unfold NFACtrl.newAlternationNfa at hrun
  split at hrun
  · rename_i hlen
    cases hrun
    cases branches with
    | nil => rfl
    | cons b branches =>
      simp only [List.length_cons] at hlen
      exact List.eq_nil_of_length_eq_zero (by simp only [List.tail_cons]; omega)
  · split at hrun
    · cases hrun
    · cases hrun
      exact List.drop_length

variable (hP : Survives T P)

include hP

/-- Concatenating two operands keeps the property. -/
theorem concatenate (left right : Addr) (p : Parser) :
    Keeps P p { p with ctrl := (p.ctrl.concatenateNfa left right).2 } :=
  ⟨rfl, fun _ => id, fun hb => hP.concatenateNfa hb left right⟩

/-- Concatenating the two operands on top of the stack keeps the property. -/
theorem concatenateTop (p : Parser) : Keeps P p p.concatenateTop :=
  ⟨rfl, fun _ => id, fun hb => hP.concatenateNfa hb _ _⟩

/-- A closure around one operand keeps the property, whichever of the three it is. -/
theorem quantify {build : NFACtrl → Addr → Addr × NFACtrl} {body : Addr}
    (hbuild : build = NFACtrl.newPosclosureNfa ∨ build = NFACtrl.newKleeneNfa ∨
      build = NFACtrl.newQmarkNfa) (hrun : p.quantify build body = .ok q) : Keeps P p q := by
  unfold Parser.quantify at hrun
  split at hrun
  · cases hrun
  · cases hrun
    refine ⟨rfl, fun _ => id, fun hb => ?_⟩
    rcases hbuild with rfl | rfl | rfl
    · exact hP.newPosclosureNfa hb body
    · exact hP.newKleeneNfa hb body
    · exact hP.newQmarkNfa hb body

/-- Dropping an operand keeps the property. -/
theorem dropOperand (p : Parser) (target : Addr) : Keeps P p (p.dropOperand target) := by
  have hb : P p.ctrl.heap → P (p.ctrl.nfaDealloc target).heap := fun hb =>
    Survives.nfaDealloc hb target
  unfold Parser.dropOperand
  dsimp only
  split
  all_goals
    split
    · refine ⟨rfl, fun _ => id, fun hblank => ?_⟩
      refine hP.ctrl_modify ?_ _ (fun _ h => ⟨h.1, h.2.1, h.2.2⟩) fun _ => rfl
      exact hP.newNode (hb hblank) (Prod.mk.eta.symm) (by simp)
    · exact ⟨rfl, fun _ => id, hb⟩

/-- Merging the bounds into an interval node keeps the property: only bounds are written. -/
theorem mergeIntervals {min max : Int} {target : Addr} {merged : Bool}
    (hrun : p.mergeIntervals min max target = .ok (merged, q)) : Keeps P p q := by
  rcases mergeIntervals_cases hrun with ⟨-, minRep, maxRep, rfl⟩ | ⟨-, rfl⟩
  · exact ⟨rfl, fun _ => id, fun hb => hP.ctrl_modify hb _ (fun _ h => h) fun _ => rfl⟩
  · exact refl q

/-- Every move outside the intervals keeps the property. -/
theorem move (hm : Move p q) : Keeps P p q := by
  cases hm with
  | read | separate | unwrap => exact ⟨rfl, fun _ => id, id⟩
  | literal c htype =>
    exact ⟨rfl, fun _ => id, fun hb =>
      hP.newLiteralNfa hb c (by rcases htype with rfl | rfl | rfl | rfl <;> simp)⟩
  | lliteral src => exact ⟨rfl, fun _ => id, fun hb => hP.newLliteralNfa hb src⟩
  | range negate => exact ⟨rfl, fun _ => id, fun hb => hP.newRangeNfa hb negate⟩
  | setRange low high n negate =>
    exact ⟨rfl, fun _ => id, fun hb => hP.updateRangeNfa hb low high n negate⟩
  | backreference => exact ⟨rfl, fun _ => id, fun hb => hP.newBackreferenceNfa hb _⟩
  | quantify hbuild hrun => exact (stack_only p _).trans (quantify hP hbuild hrun)
  | join => exact concatenateTop hP p

/-- A move that may make an interval node keeps a property that allows them. -/
theorem intervalMove (hT : T .interval) (hm : IntervalMove p q) : Keeps P p q := by
  cases hm with
  | count | keep => exact ⟨rfl, fun _ => id, id⟩
  | merge min max _ hrun => exact (stack_only p _).trans (mergeIntervals hP hrun)
  | interval min max => exact ⟨rfl, fun _ => id, fun hb => hP.newIntervalNfa hT hb _ _ _⟩
  | drop => exact (stack_only p _).trans (dropOperand hP _ _)

/-- A tracked capture group gets one marker node, which is concatenated to the operand. -/
theorem trackCaptureGroup (p : Parser) (isEnd : Bool) :
    Keeps P p (p.trackCaptureGroup isEnd).2 := by
  have hmark : ∀ hb : P p.ctrl.heap, ∀ {t : NfaType}, t ≠ .interval → ∀ k (left right : Addr),
      P ((((p.ctrl.newLiteralNfa 2 t).2.modify k fun x =>
        { x with id := (p.parenStack (p.parenIdx - 1) - 1).toNat }).concatenateNfa
          left right).2).heap := by
    intro hb t ht k left right
    refine hP.concatenateNfa ?_ _ _
    exact hP.ctrl_modify (hP.newLiteralNfa hb 2 ht) k (fun _ h => h) fun _ => rfl
  unfold Parser.trackCaptureGroup
  dsimp only
  cases p.cgrpHasBackref p.currentCgrp
  · cases isEnd
    · exact refl p
    · exact ⟨rfl, fun _ => id, id⟩
  · cases isEnd
    · exact ⟨rfl, fun _ => id, fun hb => hmark hb (by simp) _ _ _⟩
    · exact ⟨rfl, fun _ => id, fun hb => hmark hb (by simp) _ _ _⟩

/-- Joining the operands back to the separator keeps the property, by induction on the fuel. -/
theorem joinToSeparator {fuel : Nat} (hrun : p.joinToSeparator fuel = .ok q) : Keeps P p q := by
  induction fuel generalizing p with
  | zero => cases hrun
  | succ fuel ih =>
    rw [Parser.joinToSeparator] at hrun
    split at hrun
    · cases hrun
      exact refl _
    · dsimp only at hrun
      split at hrun
      · cases hrun
        exact stack_only p _
      · refine trans (q := p.concatenateTop) (concatenateTop hP p) (ih hrun)

/-- Joining one branch of an alternation keeps the property. -/
theorem joinBranch {fuel : Nat} {right t : Addr} (hrun : p.joinBranch fuel right = .ok (t, q)) :
    Keeps P p q := by
  induction fuel generalizing p right with
  | zero => cases hrun
  | succ fuel ih =>
    rw [Parser.joinBranch] at hrun
    dsimp only at hrun
    split at hrun
    · cases hrun
      exact stack_only p _
    · exact ((stack_only p _).trans (concatenate hP p.pop.1 right _)).trans (ih hrun)

/-- Joining the operands of a group keeps the property, by induction on their number. -/
theorem joinGroup (n : Nat) (right : Addr) (p : Parser) :
    Keeps P p (Parser.joinGroup n right p).2 := by
  induction n generalizing p right with
  | zero => exact refl p
  | succ n ih =>
    rw [Parser.joinGroup]
    exact ((stack_only p _).trans (concatenate hP p.pop.1 right _)).trans (ih _ _)

/-- The end of a group. -/
theorem leaveGroup (p : Parser) (hasBackref : Bool) (k : Nat) :
    Keeps P p (p.leaveGroup hasBackref k) := by
  have hjoined := (stack_only p p.symbolStack.tail).trans
    (joinGroup hP (p.pop.2.symbolStack.length - k) p.pop.1 p.pop.2)
  unfold Parser.leaveGroup
  dsimp only
  generalize Parser.joinGroup _ p.pop.1 p.pop.2 = joined at hjoined ⊢
  cases hasBackref
  · exact hjoined.trans (stack_only _ _)
  · exact hjoined.trans ⟨rfl, fun _ => id, fun hb => hP.concatenateNfa hb _ _⟩

/-- A group keeps what stands in its parentheses keeps. -/
theorem paren {n : Int} {b : Bool} {k : Nat}
    (hinner : Keeps P (p.updateOpenParenAccounting.2.consumeToken.push 0) q)
    (hclose : q.closeParen n b k = .ok r) : Keeps P p r := by
  have hopen : Keeps P p (p.updateOpenParenAccounting.2.consumeToken.push 0) := by
    have htrack := trackCaptureGroup hP { p with
      inNewCgrp := true
      parenCount := p.parenCount + 1
      cgrpCount := p.cgrpCount + 1
      currentCgrp := p.cgrpCount + 1
      parenStack := Function.update p.parenStack p.parenIdx (p.cgrpCount + 1)
      parenIdx := p.parenIdx + 1 } false
    exact ⟨htrack.level, htrack.stack, htrack.heap⟩
  refine hopen.trans (hinner.trans ?_)
  unfold Parser.closeParen at hclose
  split at hclose
  · split at hclose
    · cases hclose
    · cases hclose
      refine (trackCaptureGroup hP q true).trans (Keeps.trans ?_ (leaveGroup hP _ _ _))
      exact ⟨rfl, fun _ => id, id⟩
  · cases hclose

/-- What an alternative starts with. -/
theorem beginAlternative (h : p.beginAlternative = .ok q) :
    q.inAlternation = p.inAlternation + 1 ∧ (P p.ctrl.heap → P q.ctrl.heap) := by
  unfold Parser.beginAlternative at h
  obtain ⟨p₁, h₁, h⟩ := bind_ok h
  have hjoin := joinToSeparator hP h₁
  have hlevel : p₁.inAlternation = p.inAlternation + 1 := hjoin.level
  have hblank : P p.ctrl.heap → P p₁.ctrl.heap := fun hb => hjoin.heap hb
  clear h₁ hjoin
  cases h
  dsimp only
  split
  all_goals
    split
    all_goals exact ⟨hlevel, hblank⟩

/-- Moving the last branch onto the alternation's stack keeps the property and the depth. -/
theorem moveLastBranch (h : p.moveLastBranch = .ok q) :
    q.inAlternation = p.inAlternation ∧ (P p.ctrl.heap → P q.ctrl.heap) := by
  unfold Parser.moveLastBranch at h
  split at h
  · obtain ⟨⟨right, p₂⟩, h₂, h⟩ := bind_ok h
    have hbranch := (stack_only p p.symbolStack.tail).trans (joinBranch hP h₂)
    cases h
    exact ⟨hbranch.level, hbranch.heap⟩
  · cases h
    exact ⟨rfl, id⟩

/-- Closing one level of alternation keeps the property and empties the stack at the outermost. -/
theorem pushAlternation (h : p.pushAlternation = .ok q) :
    q.inAlternation = p.inAlternation - 1 ∧ (p.inAlternation - 1 = 0 → q.branchStack = []) ∧
      (P p.ctrl.heap → P q.ctrl.heap) := by
  unfold Parser.pushAlternation at h
  dsimp only at h
  split at h
  · cases h
  · rename_i left rest ctrl hrun
    cases h
    refine ⟨?_, fun hzero => ?_, fun hb => ?_⟩
    · split <;> rfl
    · rw [if_pos hzero] at hrun
      have hrest := newAlternationNfa_all hrun
      split <;> exact hrest
    · have hb' := hP.newAlternationNfa hb hrun
      split <;> exact hb'

/-- What an alternative ends with. -/
theorem endAlternative (h : p.endAlternative = .ok q) :
    q.inAlternation = p.inAlternation - 1 ∧ (p.inAlternation - 1 = 0 → q.branchStack = []) ∧
      (P p.ctrl.heap → P q.ctrl.heap) := by
  obtain ⟨p₁, h₁, h⟩ := bind_ok h
  obtain ⟨hlevel, hblank⟩ := moveLastBranch hP h₁
  obtain ⟨hlevel', hstack, hblank'⟩ := pushAlternation hP h
  rw [hlevel] at hlevel' hstack
  exact ⟨hlevel', hstack, fun hb => hblank' (hblank hb)⟩

/-- An alternative keeps what its branches keep. -/
theorem alternative {s : Parser} (hbegin : p.beginAlternative = .ok q) (hinner : Keeps P q r)
    (hend : r.endAlternative = .ok s) : Keeps P p s := by
  obtain ⟨hlevel, hblank⟩ := beginAlternative hP hbegin
  obtain ⟨hlevel', hstack, hblank'⟩ := endAlternative hP hend
  have hback : r.inAlternation - 1 = p.inAlternation := by
    rw [hinner.level, hlevel]
    rfl
  exact ⟨hlevel'.trans hback, fun hzero _ => hstack (hback.trans hzero),
    fun hb => hblank' (hinner.heap (hblank hb))⟩

/-- Keeping a property is a plain rule of the parser, whatever property survives. -/
theorem plainRule : PlainRule (Keeps P) :=
  ⟨refl, trans, move hP, alternative hP, paren hP⟩

/-- Keeping a property that allows interval nodes is a rule of the whole parser. -/
theorem parseRule (hT : T .interval) : ParseRule (Keeps P) :=
  ⟨plainRule hP, intervalMove hP hT⟩

/-- Joining everything that is left keeps the property, by induction on the operands. -/
theorem joinAll (n : Nat) (right : Addr) (p : Parser) : Keeps P p (Parser.joinAll n right p).2 := by
  induction n generalizing p right with
  | zero => exact refl p
  | succ n ih =>
    rw [Parser.joinAll]
    exact ((stack_only p _).trans (concatenate hP p.pop.1 right _)).trans (ih _ _)

/-- The start node put before the finished graph keeps the property. -/
theorem insertEpsilonStart (p : Parser) : Keeps P p p.insertEpsilonStart := by
  unfold Parser.insertEpsilonStart
  dsimp only
  split
  · rcases hrun : p.ctrl.newNfa .epsilon with ⟨s, c⟩
    refine ⟨rfl, fun _ => id, fun hb => ?_⟩
    iterate 2 refine hP.ctrl_modify ?_ _ (fun _ h => h) fun _ => rfl
    exact hP.newNode hb hrun (by simp)
  · exact refl p

end Keeps

/-- The concatenations of `parse_regex` behind the descent. -/
def joined (p : Parser) : Parser :=
  if 1 < p.symbolStack.length then
    (joinAll p.pop.2.symbolStack.length p.pop.1 p.pop.2).2.push
      (joinAll p.pop.2.symbolStack.length p.pop.1 p.pop.2).1
  else p

/-- The last steps of `parse_regex`: the accepting node gets a number, and the start node a node
to walk through in front of it. -/
def complete (p : Parser) : Parser :=
  { p with
    ctrl := p.ctrl.markNfa p.peek
    totalNfaIds := (p.ctrl.markNfa p.peek).nextSeqId }.insertEpsilonStart

/-- The parser in front of the descent. -/
def prepared (pattern : List Int) (ignoreCase : Bool) (map : Nat → Bool) (tokenCount : Nat) :
    Parser :=
  { initParser pattern ignoreCase with
    cgrpMap := map, ctrl := (initParser pattern ignoreCase).ctrl.allocInit tokenCount }

/-- `parse_regex` that returns has scanned the text for backreferences, descended and joined what
is left on the stack. -/
theorem parseRegex_stages {fuel : Nat} {pattern : List Int} {ignoreCase : Bool}
    (hrun : parseRegex fuel pattern ignoreCase = .ok p) : ∃ map tokenCount p₁,
      prescanInput (initParser pattern ignoreCase).prescanBuffer (fun _ => false) 0 =
        .ok (map, tokenCount) ∧
      regexParserStart fuel (prepared pattern ignoreCase map tokenCount) = .ok p₁ ∧
      p₁.joined.peek ≠ 0 ∧ p = p₁.joined.complete := by
  obtain ⟨⟨map, tokenCount⟩, hscan, hrun⟩ := bind_ok hrun
  obtain ⟨p₁, hstart, hrun⟩ := bind_ok hrun
  refine ⟨map, tokenCount, p₁, hscan, hstart, ?_⟩
  change (if p₁.joined.peek = 0 then _ else Except.ok p₁.joined.complete) = _ at hrun
  split at hrun
  · cases hrun
  · next hpeek => exact ⟨hpeek, (Except.ok.inj hrun).symm⟩

/-- Without its last steps `parse_regex` keeps what the descent does. -/
theorem Keeps.parsed (hP : Survives T P) {tokenCount : Nat} {map : Nat → Bool}
    {pattern : List Int} {ignoreCase : Bool} (hinit : P fun _ => {})
    (hdescent : Keeps P (prepared pattern ignoreCase map tokenCount) q) :
    P q.joined.complete.ctrl.heap ∧ q.joined.complete.branchStack = [] := by
  have hstart : (prepared pattern ignoreCase map tokenCount).inAlternation = 0 ∧
      (prepared pattern ignoreCase map tokenCount).branchStack = [] ∧
      P (prepared pattern ignoreCase map tokenCount).ctrl.heap := by
    cases ignoreCase <;> exact ⟨rfl, rfl, hinit⟩
  have hjoined : Keeps P q q.joined := by
    unfold joined
    split
    · exact ((Keeps.stack_only q _).trans (Keeps.joinAll hP _ _ q.pop.2)).trans
        (Keeps.stack_only _ _)
    · exact Keeps.refl q
  have hend := Keeps.insertEpsilonStart hP { q.joined with
    ctrl := q.joined.ctrl.markNfa q.joined.peek
    totalNfaIds := (q.joined.ctrl.markNfa q.joined.peek).nextSeqId }
  refine ⟨hend.heap ?_, hend.stack ?_ ?_⟩
  · exact hP.markNfa (hjoined.heap (hdescent.heap hstart.2.2)) _
  · exact (hjoined.level.trans hdescent.level).trans hstart.1
  · exact hjoined.stack (hdescent.level.trans hstart.1) (hdescent.stack hstart.1 hstart.2.1)

/-- Parsing keeps what survives its writes to the nodes; no branch waits at its end. -/
theorem parseRegex_survives (hP : Survives (fun _ => True) P) {fuel : Nat} {pattern : List Int}
    {ignoreCase : Bool} (hinit : P fun _ => {})
    (hrun : parseRegex fuel pattern ignoreCase = .ok p) :
    P p.ctrl.heap ∧ p.branchStack = [] := by
  obtain ⟨map, tokenCount, p₁, -, hstart, -, rfl⟩ := parseRegex_stages hrun
  exact Keeps.parsed hP hinit (((Keeps.parseRule hP trivial).parses fuel).start hstart)

/-- Sitting on the stack, the parsed graph carries no marks and no branch waits. -/
theorem parseRegex_blank {fuel : Nat} {pattern : List Int} {ignoreCase : Bool}
    (hrun : parseRegex fuel pattern ignoreCase = .ok p) :
    Blank p.ctrl.heap ∧ p.branchStack = [] :=
  parseRegex_survives survives_blank (fun _ => ⟨rfl, rfl, rfl⟩) hrun

/-- The parsed graph is finite. -/
theorem parseRegex_finitelyMany {fuel : Nat} {pattern : List Int} {ignoreCase : Bool}
    (hrun : parseRegex fuel pattern ignoreCase = .ok p) : FinitelyMany p.ctrl.heap :=
  (parseRegex_survives survives_finitelyMany ⟨0, fun _ _ => rfl⟩ hrun).1

end Parser

end Recognizer
