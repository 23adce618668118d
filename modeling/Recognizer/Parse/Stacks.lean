import Recognizer.Parse.Alternation
import Recognizer.Parse.CoreNodes
import Recognizer.Parse.WithoutIntervals

/-!
# The automata on the parser's stacks

Between its steps the parser keeps automata on the symbol stack and, below an alternation, on the
branch stack; inside a step it holds some more. Without intervals no step releases a node that is
still in use: the automata own their nodes, of which the numbered ones are fewer than the next
number.
-/

namespace Recognizer

variable {c c' : NFACtrl} {l : List Addr} {t : Addr} {n : Nat}

/-- A missing automaton is left out of the account. -/
theorem Owns.zero_cons (ho : Owns c l) : Owns c (0 :: l) := by
  unfold Owns at ho ⊢
  rwa [List.filter_cons_of_neg (by simp)]

/-- `new_alternation_nfa` takes entries from the branch stack and gives back one automaton. -/
theorem Owns.newAlternationNfa {branches rest others : List Addr}
    (ho : Owns c (others ++ branches)) (hzero : 0 ∉ branches)
    (hrun : c.newAlternationNfa branches n = some (t, rest, c')) :
    Owns c' (t :: (others ++ rest)) ∧ rest ⊆ branches := by
  by_cases htwo : n < 2
  · rw [NFACtrl.newAlternationNfa, if_pos htwo] at hrun
    obtain ⟨rfl, rfl, rfl⟩ : branches.headD 0 = t ∧ branches.tail = rest ∧ c = c' := by
      simpa using hrun
    refine ⟨?_, List.tail_subset branches⟩
    cases branches with
    | nil => exact ho.zero_cons
    | cons b branches => exact ho.subperm List.perm_middle.symm.subperm
  · have hne : branches ≠ [] := by
      rintro rfl
      simp [NFACtrl.newAlternationNfa, htwo] at hrun
    have hall : branches.filter (· ≠ 0) = branches := List.filter_eq_self.mpr fun b hb =>
      decide_eq_true fun h => hzero (h ▸ hb)
    have hswap : (branches ++ others).Perm (others ++ branches) := List.perm_append_comm
    obtain ⟨live, frag, ho⟩ := ho.subperm hswap.subperm
    rw [List.filter_append, hall] at ho
    obtain ⟨t', s, c'', hrun', halt, live', frag', ho'⟩ := ho.alternate (Nat.not_lt.mp htwo) hne
    obtain ⟨rfl, rfl, rfl⟩ : t' = t ∧ branches.drop n = rest ∧ c'' = c' := by
      simpa using hrun'.symm.trans hrun
    have hrest : (branches.drop n).filter (· ≠ 0) = branches.drop n :=
      List.filter_eq_self.mpr fun b hb =>
        decide_eq_true fun h => hzero (h ▸ List.mem_of_mem_drop hb)
    have hkept : Owns c'' (t' :: (branches.drop n ++ others)) := by
      refine .of_cons (fun h => ?_) ⟨live', frag', ?_⟩
      · exact ho'.alloc.zero_notMem (h ▸ (ho'.shape.root t' (by simp)).1)
      · rwa [List.filter_append, hrest]
    exact ⟨hkept.subperm (List.perm_append_comm.cons _).subperm, List.drop_subset n branches⟩

namespace Parser

variable {p q r s : Parser} {held : List Addr} {a b left right : Addr} {fuel : Nat}

/-- The automata in hand and those on the two stacks own their nodes, and every entry of the
branch stack is an automaton. -/
structure Sound (p : Parser) (held : List Addr) : Prop where
  owns : Owns p.ctrl (held ++ (p.symbolStack ++ p.branchStack))
  waits : 0 ∉ p.branchStack

namespace Sound

/-- Only the nodes and the stacks matter. -/
theorem congr (h : p.Sound held) (hctrl : q.ctrl = p.ctrl)
    (hsymbols : q.symbolStack = p.symbolStack) (hbranches : q.branchStack = p.branchStack) :
    q.Sound held :=
  ⟨by rw [hctrl, hsymbols, hbranches]; exact h.owns, by rw [hbranches]; exact h.waits⟩

/-- The top of the symbol stack is taken in hand. -/
theorem pop (h : p.Sound held) : p.pop.2.Sound (p.pop.1 :: held) := by
  refine ⟨?_, h.waits⟩
  have ho := h.owns
  unfold Parser.pop
  cases hs : p.symbolStack with
  | nil =>
    rw [hs] at ho
    exact ho.zero_cons
  | cons a l =>
    rw [hs] at ho
    exact ho.subperm List.perm_middle.symm.subperm

/-- The automaton in hand goes onto the symbol stack. -/
theorem push (h : p.Sound (a :: held)) : (p.push a).Sound held :=
  ⟨h.owns.subperm List.perm_middle.subperm, h.waits⟩

/-- An automaton in hand may be left where it is. -/
theorem forget (h : p.Sound (a :: held)) : p.Sound held :=
  ⟨h.owns.subperm (List.sublist_cons_self _ _).subperm, h.waits⟩

/-- A separator on the symbol stack is no automaton. -/
theorem push_zero (h : p.Sound held) : (p.push 0).Sound held :=
  push ⟨h.owns.zero_cons, h.waits⟩

/-- An automaton moves from the hand to the branch stack. -/
theorem wait (h : p.Sound (a :: held)) (ha : a ≠ 0) :
    ({ p with branchStack := a :: p.branchStack } : Parser).Sound held := by
  refine ⟨h.owns.subperm (List.Perm.subperm ?_), ?_⟩
  · rw [← List.append_assoc, List.cons_append, ← List.append_assoc]
    exact List.perm_middle
  · simp only [List.mem_cons, not_or]
    exact ⟨ha.symm, h.waits⟩

/-- A literal node in hand is one more automaton. -/
theorem literal (h : p.Sound held) (ch : Int) {type : NfaType}
    (htype : type ≠ .accepting ∧ type ≠ .split ∧ type ≠ .tree ∧ type ≠ .interval) :
    ({ p with ctrl := (p.ctrl.newLiteralNfa ch type).2 } : Parser).Sound
      ((p.ctrl.newLiteralNfa ch type).1 :: held) := by
  obtain ⟨t, c', hrun, -, ho⟩ := h.owns.newLiteralNfa ch type htype
  rw [hrun]
  exact ⟨ho, h.waits⟩

/-- Two automata in hand are joined. -/
theorem concatenate (h : p.Sound (left :: right :: held)) :
    ({ p with ctrl := (p.ctrl.concatenateNfa left right).2 } : Parser).Sound
        ((p.ctrl.concatenateNfa left right).1 :: held) ∧
      (right ≠ 0 → (p.ctrl.concatenateNfa left right).1 ≠ 0) := by
  obtain ⟨t, c', hrun, hne, ho⟩ := h.owns.concatenateNfa
  rw [hrun]
  exact ⟨⟨ho, h.waits⟩, hne⟩

/-- Two automata in hand are joined and go onto the symbol stack. -/
theorem pushConcatenated (h : p.Sound (left :: right :: held)) :
    (p.pushConcatenated left right).Sound held :=
  h.concatenate.1.push

/-- The two automata on top of the symbol stack are joined. -/
theorem concatenateTop (h : p.Sound held) : p.concatenateTop.Sound held :=
  h.pop.pop.pushConcatenated

/-- Writing a member that is no link moves no automaton. -/
theorem modify (h : p.Sound held) (a : Addr) {f : NFA → NFA}
    (hf : ∀ n, (f n).links = n.links) : (p.modify a f).Sound held :=
  ⟨h.owns.modify a hf, h.waits⟩

/-- An operand in hand gets its quantifier. -/
theorem quantify {build : NFACtrl → Addr → Addr × NFACtrl}
    (h : p.Sound (a :: held)) (hbuild : build = NFACtrl.newPosclosureNfa ∨
      build = NFACtrl.newKleeneNfa ∨ build = NFACtrl.newQmarkNfa)
    (hrun : p.quantify build a = .ok q) : q.Sound held := by
  unfold Parser.quantify at hrun
  split at hrun
  · cases hrun
  · rename_i ha
    have hbuilt : Owns (build p.ctrl a).2
        ((build p.ctrl a).1 :: (held ++ (p.symbolStack ++ p.branchStack))) := by
      rcases hbuild with rfl | rfl | rfl
      · obtain ⟨t, c', hrun, -, ho⟩ := h.owns.newPosclosureNfa ha
        rwa [hrun]
      · obtain ⟨t, c', hrun, -, ho⟩ := h.owns.newKleeneNfa ha
        rwa [hrun]
      · obtain ⟨t, c', hrun, -, ho⟩ := h.owns.newQmarkNfa ha
        rwa [hrun]
    cases hrun
    exact push ⟨hbuilt, h.waits⟩

/-- Every move outside the intervals leaves the automata whole. -/
theorem move (h : p.Sound []) (hm : Move p q) : q.Sound [] := by
  cases hm with
  | read => exact ⟨h.owns, h.waits⟩
  | separate => exact h.push_zero
  | literal ch htype =>
    exact (h.literal ch (by rcases htype with rfl | rfl | rfl | rfl <;> simp)).push
  | lliteral src hsrc =>
    obtain ⟨t, c', hrun, -, ho⟩ := h.owns.newLliteralNfa src
    rw [hrun]
    exact push ⟨ho, h.waits⟩
  | range negate =>
    obtain ⟨t, c', hrun, -, ho⟩ := h.owns.newRangeNfa negate
    rw [hrun]
    exact push ⟨ho, h.waits⟩
  | setRange low high n negate => exact ⟨h.owns.updateRangeNfa low high n negate, h.waits⟩
  | backreference =>
    obtain ⟨t, c', hrun, -, ho⟩ := h.owns.newBackreferenceNfa (p.lookahead.value - 1).toNat
    rw [hrun]
    exact push ⟨ho, h.waits⟩
  | quantify hbuild hrun => exact h.pop.quantify hbuild hrun
  | unwrap => exact h.pop.pop.forget.push
  | join => exact h.concatenateTop

/-- The operands behind the separator become one automaton, by induction on the fuel. -/
theorem joinToSeparator (h : p.Sound []) (hrun : p.joinToSeparator fuel = .ok q) :
    q.Sound [] := by
  induction fuel generalizing p with
  | zero => cases hrun
  | succ fuel ih =>
    rw [Parser.joinToSeparator] at hrun
    split at hrun
    · cases hrun
      exact h
    · dsimp only at hrun
      split at hrun
      · cases hrun
        exact h.pop.pop.forget.push_zero.push
      · exact ih h.pop.pop.pushConcatenated hrun

/-- The last branch becomes one automaton, and it is not missing. -/
theorem joinBranch (h : p.Sound [right]) (hright : right ≠ 0)
    (hrun : p.joinBranch fuel right = .ok (t, q)) : q.Sound [t] ∧ t ≠ 0 := by
  induction fuel generalizing p right with
  | zero => cases hrun
  | succ fuel ih =>
    rw [Parser.joinBranch] at hrun
    dsimp only at hrun
    split at hrun
    · cases hrun
      exact ⟨h.pop.forget, hright⟩
    · obtain ⟨hjoin, hne⟩ := h.pop.concatenate
      exact ih hjoin (hne hright) hrun

/-- The operands of a group become one automaton in hand. -/
theorem joinGroup (h : p.Sound [right]) (n : Nat) :
    (Parser.joinGroup n right p).2.Sound [(Parser.joinGroup n right p).1] := by
  induction n generalizing p right with
  | zero => exact h
  | succ n ih => exact ih h.pop.concatenate.1

/-- Everything on the symbol stack becomes one automaton in hand. -/
theorem joinAll (h : p.Sound [right]) (n : Nat) :
    (Parser.joinAll n right p).2.Sound [(Parser.joinAll n right p).1] := by
  induction n generalizing p right with
  | zero => exact h
  | succ n ih => exact ih h.pop.concatenate.1

/-- At a bar what stands to its left waits on the branch stack. -/
theorem beginAlternative (h : p.Sound []) (hrun : p.beginAlternative = .ok q) : q.Sound [] := by
  obtain ⟨r, hr, hrun⟩ := bind_ok hrun
  have hjoined : r.Sound [] := by
    refine joinToSeparator ?_ hr
    exact h.congr rfl rfl rfl
  cases hrun
  dsimp only
  split
  · next hne =>
    have hleft := hjoined.pop.wait hne
    split <;> exact push_zero (hleft.congr rfl rfl rfl)
  · have hleft := hjoined.pop.forget
    split <;> exact push_zero (hleft.congr rfl rfl rfl)

/-- The branch in front of the end of an alternation waits, too. -/
theorem moveLastBranch (h : p.Sound []) (hrun : p.moveLastBranch = .ok q) : q.Sound [] := by
  unfold Parser.moveLastBranch at hrun
  split at hrun
  · rename_i hpeek
    obtain ⟨⟨right, r⟩, hr, hrun⟩ := bind_ok hrun
    obtain ⟨hjoined, hne⟩ := joinBranch h.pop hpeek hr
    cases hrun
    exact wait (p := r.push 0) (push (p := r) ⟨(hjoined.owns).zero_cons, hjoined.waits⟩) hne
  · cases hrun
    exact h

/-- The waiting branches become one automaton on the symbol stack. -/
theorem pushAlternation (h : p.Sound []) (hrun : p.pushAlternation = .ok q) : q.Sound [] := by
  unfold Parser.pushAlternation at hrun
  dsimp only at hrun
  split at hrun
  · cases hrun
  · rename_i left rest ctrl hnew
    have howns : Owns p.ctrl (p.symbolStack ++ p.branchStack) := h.owns
    obtain ⟨ho, hrest⟩ := howns.newAlternationNfa h.waits hnew
    have hwaits : 0 ∉ rest := fun hmem => h.waits (hrest hmem)
    rw [← Except.ok.inj hrun]
    split
    · exact ⟨ho, hwaits⟩
    · exact ⟨ho, hwaits⟩

/-- The end of an alternation leaves the automata whole. -/
theorem endAlternative (h : p.Sound []) (hrun : p.endAlternative = .ok q) : q.Sound [] := by
  obtain ⟨r, hr, hrun⟩ := bind_ok hrun
  exact (h.moveLastBranch hr).pushAlternation hrun

/-- The marker of a tracked group is joined to what stands in front of it. -/
theorem trackCaptureGroup (h : p.Sound []) (isEnd : Bool) :
    (p.trackCaptureGroup isEnd).2.Sound [] := by
  have htype : ∀ {type : NfaType}, type = (if isEnd then .capturegrpEnd else .capturegrpBegin) →
      type ≠ .accepting ∧ type ≠ .split ∧ type ≠ .tree ∧ type ≠ .interval := by
    rintro type rfl
    cases isEnd <;> simp
  have hmarker := (h.literal 2 (htype rfl)).pop
  have hnamed := fun (marker : Addr) (id : Nat) =>
    (hmarker.modify marker (f := fun x => { x with id := id }) fun _ => rfl).pushConcatenated
  unfold Parser.trackCaptureGroup
  dsimp only
  cases p.cgrpHasBackref p.currentCgrp
  · cases isEnd <;> exact h.congr rfl rfl rfl
  · cases isEnd <;> exact (hnamed _ _).congr rfl rfl rfl

/-- The marker of an opening parenthesis is one more automaton, or there is none. -/
theorem updateOpenParenAccounting (h : p.Sound []) : p.updateOpenParenAccounting.2.Sound [] := by
  have htrack : ({ p with
      inNewCgrp := true
      parenCount := p.parenCount + 1
      cgrpCount := p.cgrpCount + 1
      currentCgrp := p.cgrpCount + 1
      parenStack := Function.update p.parenStack p.parenIdx (p.cgrpCount + 1)
      parenIdx := p.parenIdx + 1 } : Parser).Sound [] := h.congr rfl rfl rfl
  exact (htrack.trackCaptureGroup false).congr rfl rfl rfl

/-- The end of a group joins its automata, with the opening marker in front. -/
theorem leaveGroup (h : p.Sound []) (hasBackref : Bool) (n : Nat) :
    (p.leaveGroup hasBackref n).Sound [] := by
  have hjoined := h.pop.joinGroup (p.pop.2.symbolStack.length - n)
  unfold Parser.leaveGroup
  dsimp only
  split
  · exact hjoined.pop.pushConcatenated
  · exact hjoined.push

/-- A closing parenthesis leaves the automata whole. -/
theorem closeParen {k : Int} {b : Bool} (h : p.Sound []) (hrun : p.closeParen k b n = .ok q) :
    q.Sound [] := by
  unfold Parser.closeParen at hrun
  split at hrun
  · split at hrun
    · cases hrun
    · have htrack := h.trackCaptureGroup true
      rcases htracked : p.trackCaptureGroup true with ⟨hasBackref, r⟩
      rw [htracked] at hrun htrack
      have hleft : (r.updateCloseParenAccounting k b).Sound [] := htrack.congr rfl rfl rfl
      rw [← Except.ok.inj hrun]
      exact hleft.leaveGroup hasBackref n
  · cases hrun

/-- Without intervals the automata stay whole. -/
theorem plainRule : PlainRule fun p q => p.Sound [] → q.Sound [] where
  refl _ := id
  trans h₁ h₂ := fun h => h₂ (h₁ h)
  move hm := fun h => h.move hm
  alternative hbegin hinner hend := fun h =>
    (hinner (h.beginAlternative hbegin)).endAlternative hend
  paren hinner hclose := fun h =>
    (hinner (push_zero (h.updateOpenParenAccounting.congr rfl rfl rfl))).closeParen hclose

end Sound

end Parser

end Recognizer
