import Recognizer.Parse.IntervalNfa
import Recognizer.Parse.Repetition
import Recognizer.Parse.Rule

/-!
# What an interval admits

The bounds that `parse_interval_expression` has read decide which automaton it builds around
its operand, and that automaton how often the operand is gone through.
-/

namespace Recognizer

variable {c c' : NFACtrl} {live : Finset Addr} {rest : List Addr} {frag : Addr → Addr}
  {inside : Set Addr} {body t s i x : Addr} {k : Nat} {min max : Int}

section Constructors

variable {ns nb : NFA} {optional : Bool}

/-- A new pair of nodes lies around the operand. -/
theorem Wrapped.around (hw : Wrapped c c' live body t s ns nb)
    (ho : Owned c (body :: rest) live frag)
    (hoptional : optional = true → ns.type = .split ∧ ns.out1 = t ∧ ns.out2 = (c.heap body).parent)
    (hrequired : optional = false → ns.type = .epsilon ∧ ns.out2 = (c.heap body).parent) :
    Around c'.heap (nodesOf live frag body) body s t optional where
  start hs := hw.start hs.1
  stop ht := hw.root ht.1
  ne := hw.ne.symm
  ends := ⟨(ho.shape.root body (by simp)).1, (ho.shape.root body (by simp)).2.1⟩
  root := by rw [hw.root_eq]; rfl
  entry := by
    refine ⟨(c.heap body).parent, ho.shape.start_mem (by simp),
      (ho.shape.start body (by simp)).2.2, fun h => ?_, fun h => ?_⟩
    · obtain ⟨htype, hout1, hout2⟩ := hoptional h
      rw [hw.start_eq]
      exact ⟨htype, .inr ⟨hout1, hout2⟩⟩
    · rw [hw.start_eq]
      exact hrequired h

/-- `new_qmark_nfa` admits its operand at most once. -/
theorem Owned.repeats_newQmarkNfa (ho : Owned c (body :: rest) live frag)
    (hrun : c.newQmarkNfa body = (t, c')) :
    Repeats c'.heap (nodesOf live frag body) body (c'.heap t).parent k t ↔ k = 0 ∨ k = 1 := by
  obtain ⟨t', s, c'', hrun', hw⟩ := ho.alloc.newQmarkNfa
    (ho.shape.root body (by simp)).1 (ho.shape.start body (by simp)).1
  obtain ⟨rfl, rfl⟩ := Prod.mk.inj (hrun'.symm.trans hrun)
  have haround : Around c''.heap (nodesOf live frag body) body s t' true :=
    hw.around ho (by simp [NFA.renewed]) (by simp)
  have hparent : (c''.heap t').parent = s := by rw [hw.root_eq]
  rw [hparent, haround.once_iff (by rw [hw.body_eq]) (by rw [hw.body_eq])]
  simp

/-- `new_posclosure_nfa` admits its operand at least once. -/
theorem Owned.repeats_newPosclosureNfa (ho : Owned c (body :: rest) live frag)
    (hrun : c.newPosclosureNfa body = (t, c')) :
    Repeats c'.heap (nodesOf live frag body) body (c'.heap t).parent k t ↔ 1 ≤ k := by
  obtain ⟨t', s, c₃, c'', hrun', htight, hw⟩ := ho.alloc.newPosclosureNfa
    (ho.shape.root body (by simp)).1 (ho.shape.start body (by simp)).1
  obtain ⟨rfl, rfl⟩ := Prod.mk.inj (hrun'.symm.trans hrun)
  have haround : Around c''.heap (nodesOf live frag body) body s t' false :=
    hw.around ho (by simp) (by simp [NFA.renewed])
  have hparent : (c''.heap t').parent = s := by rw [hw.root_eq]
  rw [hparent, haround.loop_iff (by rw [hw.body_eq]) (by rw [hw.body_eq]) (by rw [hw.body_eq])
    (ho.tighten_mem htight)]
  simp

/-- `new_kleene_nfa` admits its operand any number of times. -/
theorem Owned.repeats_newKleeneNfa (ho : Owned c (body :: rest) live frag)
    (hrun : c.newKleeneNfa body = (t, c')) :
    Repeats c'.heap (nodesOf live frag body) body (c'.heap t).parent k t := by
  obtain ⟨t', s, c₃, c'', hrun', htight, hw⟩ := ho.alloc.newKleeneNfa
    (ho.shape.root body (by simp)).1 (ho.shape.start body (by simp)).1
  obtain ⟨rfl, rfl⟩ := Prod.mk.inj (hrun'.symm.trans hrun)
  have haround : Around c''.heap (nodesOf live frag body) body s t' true :=
    hw.around ho (by simp [NFA.renewed]) (by simp)
  have hparent : (c''.heap t').parent = s := by rw [hw.root_eq]
  rw [hparent, haround.loop_iff (by rw [hw.body_eq]) (by rw [hw.body_eq]) (by rw [hw.body_eq])
    (ho.tighten_mem htight)]
  exact .inl rfl

/-- The new nodes of an interval lie around the operand. -/
theorem Intervalled.around (hn : Intervalled c c' live frag body t s i x min max)
    (ho : Owned c (body :: rest) live frag) :
    Around c'.heap (nodesOf live frag body) body s t (decide (min = 0)) where
  start hs := hn.pair.start (Finset.mem_insert_of_mem hs.1)
  stop ht := hn.pair.root (Finset.mem_insert_of_mem ht.1)
  ne := hn.pair.ne.symm
  ends := ⟨(ho.shape.root body (by simp)).1, (ho.shape.root body (by simp)).2.1⟩
  root := by rw [hn.root]; rfl
  entry := by
    refine ⟨(c.heap body).parent, ho.shape.start_mem (by simp),
      (ho.shape.start body (by simp)).2.2, fun h => ?_, fun h => ?_⟩
    · obtain ⟨htype, hout1, hout2⟩ := hn.optional (of_decide_eq_true h)
      exact ⟨htype, .inl ⟨hout1, hout2⟩⟩
    · exact hn.required (of_decide_eq_false h)

/-- The automaton of an interval goes through its operand as often as its bounds say. -/
theorem Intervalled.bounded (hn : Intervalled c c' live frag body t s i x min max)
    (ho : Owned c (body :: rest) live frag) :
    Bounded c'.heap (nodesOf live frag body) body s i t (decide (min = 0)) where
  toAround := hn.around ho
  behind := hn.operand
  apart hi := hn.fresh hi.1
  node := ⟨hn.interval.1, hn.interval.2.2⟩

/-- Between the bounds of an interval whose lower bound is zero for a `'?'` split. -/
theorem within_of_bounds (hmin : 0 ≤ min) {m : Int} (hm : m = if min = 0 then 1 else min) :
    (decide (min = 0) = true ∧ k = 0) ∨ 1 ≤ k ∧ Within m max k ↔ Within min max k := by
  unfold Within
  by_cases hzero : min = 0
  · simp only [hzero, if_true] at hm
    simp only [hzero, hm, decide_true, true_and]
    omega
  · rw [if_neg hzero] at hm
    simp only [hzero, hm, decide_false, Bool.false_eq_true, false_and, false_or]
    omega

/-- The automaton of `new_interval_nfa` by itself. -/
theorem Intervalled.repeats_iff (hn : Intervalled c c' live frag body t s i x min max)
    (ho : Owned c (body :: rest) live frag) (hmin : 0 ≤ min) :
    Repeats c'.heap (nodesOf live frag body) body (c'.heap t).parent k t ↔ Within min max k := by
  have hparent : (c'.heap t).parent = s := by rw [hn.root]
  rw [hparent, (hn.bounded ho).repeats_iff, hn.bounds.2, within_of_bounds hmin hn.bounds.1]

/-- The automaton of `new_interval_nfa` behind another one, whose accepting node becomes its
start node. -/
theorem Intervalled.repeats_joined {c'' : NFACtrl} {left : Addr}
    (hn : Intervalled c c' live frag body t s i x min max)
    (ho : Owned c (body :: rest) live frag) (hmin : 0 ≤ min) (hleft : left ∈ live)
    (hfrag : frag left ≠ body) (hj : Joined c' c'' left t) :
    Repeats c''.heap (nodesOf live frag body) body left k t ↔ Within min max k := by
  have hparent : (c'.heap t).parent = s := by rw [hn.root]
  have hb := hn.bounded ho
  obtain ⟨hlt, hls, hli⟩ : left ≠ t ∧ left ≠ s ∧ left ≠ i :=
    ⟨fun h => hn.pair.root (h ▸ Finset.mem_insert_of_mem hleft),
      fun h => hn.pair.start (h ▸ Finset.mem_insert_of_mem hleft), fun h => hn.fresh (h ▸ hleft)⟩
  have hit : i ≠ t := fun h => hn.pair.root (h ▸ Finset.mem_insert_self i live)
  have his : i ≠ s := fun h => hn.pair.start (h ▸ Finset.mem_insert_self i live)
  have hstart : c''.heap left = c'.heap s := by rw [hj.prev_eq, hparent]
  have hinterval : c''.heap i = c'.heap i := hj.same i hli.symm hit (hparent.symm ▸ his)
  have hexit : c''.heap body = c'.heap body := by
    refine hj.same body (fun h => hfrag ?_) (fun h => hb.stop (h ▸ hb.ends)) fun h => ?_
    · rw [← h]
      exact hb.ends.2
    · rw [hparent] at h
      exact hb.start (h ▸ hb.ends)
  have hjoined : Bounded c''.heap (nodesOf live frag body) body left i t (decide (min = 0)) := by
    refine ⟨⟨fun h => hfrag h.2, hb.stop, hlt.symm, hb.ends, ?_, ?_⟩, ?_, hb.apart, ?_⟩
    · rw [hj.next_eq]
      exact hb.root
    · rw [hstart]
      exact hb.entry
    · rw [hexit]
      exact hb.behind
    · rw [hinterval]
      exact hb.node
  rw [hjoined.repeats_iff, hinterval, hn.bounds.2, within_of_bounds hmin hn.bounds.1]

end Constructors

namespace Parser

/-- What `parse_interval_expression` does with its operand and the bounds it has read. -/
def applyInterval (p : Parser) (target : Addr) (min max : Int) : Result := do
  if max > 0 then
    if min > max then
      p.parserFatal "Invalid interval, min > max" 2
    else if min = 0 ∧ max = 1 then do
      let p ← p.quantify NFACtrl.newQmarkNfa target
      .ok { p with intervalCount := p.intervalCount + 1 }
    else if min = 1 ∧ max = 1 then .ok (p.push target)
    else if target = 0 then .error .nullDeref
    else do
      let min := if min ≥ 0 then min else 0
      let (merged, p) ← p.mergeIntervals min max target
      if merged then .ok p
      else
        let (nfa, p) := p.addInterval target min max
        .ok (p.push nfa)
  else if min = 1 ∧ max = -1 then p.quantify NFACtrl.newPosclosureNfa target
  else if min > 0 ∧ max = -1 then
    if target = 0 then .error .nullDeref
    else
      let (nfa, p) := p.addInterval target min max
      let (left, p) := p.pop
      .ok (p.pushConcatenated left nfa)
  else if min = -1 ∧ max = -1 then p.quantify NFACtrl.newKleeneNfa target
  else .ok (p.dropOperand target)

/-- The operand starts with the interval built last, and nothing follows that one. -/
def Merges (p : Parser) (target : Addr) : Prop :=
  p.prevIntervalHead = p.ctrl.tighten (p.ctrl.heap target).parent ∧
    (p.ctrl.heap (p.ctrl.heap p.prevInterval).out2).out2 = 0

instance (p : Parser) (target : Addr) : Decidable (p.Merges target) := instDecidableAnd

/-- The bounds for which `parse_interval_expression` tries to merge. -/
def Merging (min max : Int) : Prop :=
  0 < max ∧ ¬ (min = 0 ∧ max = 1) ∧ ¬ (min = 1 ∧ max = 1)

instance (min max : Int) : Decidable (Merging min max) := instDecidableAnd

/-- The operand on top of the stack, whose nodes are `inside`. -/
def Operand (p : Parser) (inside : Set Addr) : Prop :=
  p.peek ≠ 0 ∧ ∃ live frag, Owned p.ctrl (p.symbolStack.filter (· ≠ 0)) live frag ∧
    inside = nodesOf live frag p.peek

/-- Where the automaton built for the operand on top of the stack of `p` starts in `q`: behind
the entry below if it has been joined to that one. -/
def entry (p q : Parser) : Addr :=
  let left := p.symbolStack.getD 1 0
  if left ≠ 0 ∧ q.symbolStack.length < p.symbolStack.length then left
  else (q.ctrl.heap q.peek).parent

/-- How often the automaton that `q` has on its stack for the operand of `p` goes through it:
not at all if nothing stands for it. -/
def Admits (p q : Parser) (inside : Set Addr) (k : Nat) : Prop :=
  if q.symbolStack = p.symbolStack.tail then k = 0
  else Repeats q.ctrl.heap inside p.peek (entry p q) k q.peek

/-- The numbers of repetitions for the bounds `parse_interval_expression` has read. -/
def Admitted (min max : Int) (k : Nat) : Prop :=
  if 0 < max then min ≤ k ∧ k ≤ max
  else if max = -1 ∧ min ≠ 0 then min ≤ k
  else k = 0

variable {fuel : Nat} {p q r : Parser} {balance : Bool}

theorem parseIntervalExpression_eq
    (hread : readIntervals fuel (-1) (-1) p.pop.2 = .ok (min, max, true, r)) :
    p.parseIntervalExpression fuel = r.applyInterval p.peek min max := by
  unfold parseIntervalExpression
  dsimp only
  rw [hread]
  rfl

/-- What `merge_intervals` writes over the interval built last, if nothing overflows. -/
def mergedBounds (min max : Int) (x : NFA) : NFA :=
  { x with
    minRep := if min = 0 ∨ x.minRep = 0 then x.minRep + min else x.minRep * min
    maxRep := if max = 0 ∨ x.maxRep = 0 then x.maxRep + max else x.maxRep * max }

/-- The values of an `int`. -/
def Fits (n : Int) : Prop := -2147483648 ≤ n ∧ n ≤ 2147483647

instance (n : Int) : Decidable (Fits n) := instDecidableAnd

theorem evalInt_eq_ok {m n : Int} : evalInt n = .ok m ↔ n = m ∧ Fits n := by
  unfold evalInt asInt Fits
  split
  · next hnone =>
    split at hnone
    · cases hnone
    · next hover => exact iff_of_false (fun h => by cases h) fun h => hover h.2
  · next hsome =>
    split at hsome
    · next hfits =>
      cases hsome
      exact ⟨fun h => ⟨Except.ok.inj h, hfits⟩, fun h => congrArg Except.ok h.1⟩
    · cases hsome

theorem evalInt_of_fits {n : Int} (hn : Fits n) : evalInt n = .ok n := evalInt_eq_ok.mpr ⟨rfl, hn⟩

/-- The interval built last takes over the bounds. -/
theorem mergeIntervals_of_merges (hmerges : p.Merges body) {merged : Bool} :
    p.mergeIntervals min max body = .ok (merged, q) ↔
      merged = true ∧ q = (p.modify p.prevInterval (mergedBounds min max)).push body ∧
        Fits (mergedBounds min max (p.ctrl.heap p.prevInterval)).minRep ∧
        Fits (mergedBounds min max (p.ctrl.heap p.prevInterval)).maxRep := by
  have hmodify : p.modify p.prevInterval (mergedBounds min max) =
      p.modify p.prevInterval fun x => { x with
        minRep := (mergedBounds min max (p.ctrl.heap p.prevInterval)).minRep
        maxRep := (mergedBounds min max (p.ctrl.heap p.prevInterval)).maxRep } := by
    simp only [modify, NFACtrl.modify, Heap.modify, mergedBounds]
  rw [hmodify]
  constructor
  · intro hrun
    have hrun : (mergeBound (p.ctrl.heap p.prevInterval).minRep min >>= fun minRep =>
        mergeBound (p.ctrl.heap p.prevInterval).maxRep max >>= fun maxRep =>
          .ok (true, (p.modify p.prevInterval fun x =>
            { x with minRep := minRep, maxRep := maxRep }).push body)) = .ok (merged, q) :=
      (if_pos hmerges).symm.trans hrun
    obtain ⟨minRep, hmin, hrun⟩ := bind_ok hrun
    obtain ⟨maxRep, hmax, hrun⟩ := bind_ok hrun
    obtain ⟨rfl, hmin'⟩ := evalInt_eq_ok.mp hmin
    obtain ⟨rfl, hmax'⟩ := evalInt_eq_ok.mp hmax
    obtain ⟨rfl, rfl⟩ := Prod.mk.inj (Except.ok.inj hrun)
    exact ⟨rfl, rfl, hmin', hmax'⟩
  · rintro ⟨rfl, rfl, hmin, hmax⟩
    have hmin' : mergeBound (p.ctrl.heap p.prevInterval).minRep min =
        .ok (mergedBounds min max (p.ctrl.heap p.prevInterval)).minRep := evalInt_of_fits hmin
    have hmax' : mergeBound (p.ctrl.heap p.prevInterval).maxRep max =
        .ok (mergedBounds min max (p.ctrl.heap p.prevInterval)).maxRep := evalInt_of_fits hmax
    refine (if_pos hmerges).trans ?_
    rw [hmin', hmax']
    rfl

theorem mergeIntervals_of_not_merges (hmerges : ¬ p.Merges body) (min max : Int) :
    p.mergeIntervals min max body = .ok (false, p) :=
  if_neg hmerges

section Apply

variable {r : Parser} {target : Addr}

/-- Where the interval built last takes over the bounds, nothing else changes. -/
theorem applyInterval_of_merges (hmerges : r.Merges target) (hzero : target ≠ 0)
    (hmerging : Merging min max) (hle : min ≤ max) :
    r.applyInterval target min max = .ok q ↔
      q = (r.modify r.prevInterval (mergedBounds (if min ≥ 0 then min else 0) max)).push target ∧
        Fits (mergedBounds (if min ≥ 0 then min else 0) max (r.ctrl.heap r.prevInterval)).minRep ∧
        Fits (mergedBounds (if min ≥ 0 then min else 0) max
          (r.ctrl.heap r.prevInterval)).maxRep := by
  obtain ⟨hmax, hopt, hone⟩ := hmerging
  rw [applyInterval, if_pos hmax, if_neg (by omega), if_neg hopt, if_neg hone, if_neg hzero]
  constructor
  · intro hrun
    obtain ⟨⟨merged, s⟩, hs, hrun⟩ := bind_ok hrun
    obtain ⟨rfl, rfl, hfits⟩ := (mergeIntervals_of_merges hmerges).mp hs
    exact ⟨(Except.ok.inj hrun).symm, hfits⟩
  · intro hq
    dsimp only
    have hmerged : r.mergeIntervals (if min ≥ 0 then min else 0) max target = .ok (true, q) :=
      (mergeIntervals_of_merges hmerges).mpr ⟨rfl, hq⟩
    rw [hmerged]
    rfl

/-- Where nothing is merged an interval is built around the operand. -/
theorem applyInterval_of_not_merges (hfree : ¬ r.Merges target) (hzero : target ≠ 0)
    (hmerging : Merging min max) (hle : min ≤ max) :
    r.applyInterval target min max =
      .ok ((r.addInterval target (if min ≥ 0 then min else 0) max).2.push
        (r.addInterval target (if min ≥ 0 then min else 0) max).1) := by
  obtain ⟨hmax, hopt, hone⟩ := hmerging
  rw [applyInterval, if_pos hmax, if_neg (by omega), if_neg hopt, if_neg hone, if_neg hzero]
  dsimp only
  rw [mergeIntervals_of_not_merges hfree]
  rfl

/-- With bounds in order, an automaton is built unless an interval overflows that takes over the
bounds. -/
theorem applyInterval_isOk (hzero : target ≠ 0) (hle : 0 < max → min ≤ max)
    (hfree : r.Merges target → ¬ Merging min max) :
    ∃ q, r.applyInterval target min max = .ok q := by
  have hquantify : ∀ build, ∃ q, r.quantify build target = .ok q := fun build => by
    rw [quantify, if_neg hzero]
    exact ⟨_, rfl⟩
  by_cases hmerging : Merging min max
  · exact ⟨_, applyInterval_of_not_merges (fun h => hfree h hmerging) hzero hmerging
      (hle hmerging.1)⟩
  rw [applyInterval]
  by_cases hmax : 0 < max
  · have hle := hle hmax
    rw [if_pos hmax, if_neg (by omega)]
    split
    · obtain ⟨s, hs⟩ := hquantify NFACtrl.newQmarkNfa
      rw [hs]
      exact ⟨_, rfl⟩
    · rename_i hopt
      rw [if_pos (by_contra fun hone => hmerging ⟨hmax, hopt, hone⟩)]
      exact ⟨_, rfl⟩
  · rw [if_neg hmax]
    split
    · exact hquantify _
    · split
      · exact ⟨_, rfl⟩
      · split
        · exact hquantify _
        · exact ⟨_, rfl⟩

end Apply

/-- An automaton pushed in place of the operand. -/
theorem admits_push (hpeek : p.peek ≠ 0) (hstack : q.symbolStack = t :: p.symbolStack.tail) :
    Admits p q inside k ↔
      Repeats q.ctrl.heap inside p.peek (q.ctrl.heap t).parent k t := by
  obtain ⟨e, l, hcons⟩ : ∃ e l, p.symbolStack = e :: l := by
    cases hs : p.symbolStack with
    | nil => simp [peek, hs] at hpeek
    | cons e l => exact ⟨e, l, rfl⟩
  have hne : q.symbolStack ≠ p.symbolStack.tail := by
    intro h
    have := congrArg List.length (hstack.symm.trans h)
    simp at this
  have hpeek' : q.peek = t := by simp [peek, hstack]
  have hentry : entry p q = (q.ctrl.heap t).parent := by
    simp [entry, hpeek', hstack, hcons]
  rw [Admits, if_neg hne, hentry, hpeek']

/-- The operand is the first of the automata on the stack. -/
theorem Operand.owned (hop : p.Operand inside) : ∃ l live frag, p.symbolStack = p.peek :: l ∧
    Owned p.ctrl (p.peek :: l.filter (· ≠ 0)) live frag ∧ inside = nodesOf live frag p.peek := by
  obtain ⟨hpeek, live, frag, ho, hinside⟩ := hop
  cases hs : p.symbolStack with
  | nil => simp [peek, hs] at hpeek
  | cons e l =>
    have he : p.peek = e := by simp [peek, hs]
    rw [he] at hpeek hinside ⊢
    refine ⟨l, live, frag, rfl, ?_, hinside⟩
    rw [hs, List.filter_cons_of_pos (by simpa using hpeek)] at ho
    exact ho

/-- A constructor of `nfa.c` on the operand. -/
theorem quantify_spec {build : NFACtrl → Addr → Addr × NFACtrl}
    (hr : Reads p.pop.2 r) (hrun : r.quantify build p.peek = .ok q) :
    ∃ t, q.symbolStack = t :: p.symbolStack.tail ∧ build p.ctrl p.peek = (t, q.ctrl) := by
  obtain ⟨sc, tok, -, rfl⟩ := hr
  unfold quantify at hrun
  split at hrun
  · cases hrun
  · cases hrun
    exact ⟨_, rfl, rfl⟩

/-- The interval around the operand, with what is kept of it. -/
theorem addInterval_spec {l : List Addr} (hr : Reads p.pop.2 r)
    (hcons : p.symbolStack = p.peek :: l) (ho : Owned p.ctrl (p.peek :: rest) live frag)
    (min max : Int) :
    ∃ t s i x r', r.addInterval p.peek min max = (t, r') ∧
      Intervalled p.ctrl r'.ctrl live frag p.peek t s i x min max ∧ r'.symbolStack = l ∧
      r'.prevInterval = i ∧ r'.prevIntervalHead = x := by
  obtain ⟨t, s, i, x, c', hrun, hn⟩ := ho.newIntervalNfa min max
  obtain ⟨sc, tok, -, rfl⟩ := hr
  refine ⟨t, s, i, x, _, by simp only [addInterval, pop, hrun]; rfl, hn, ?_, rfl, rfl⟩
  simp [hcons]

/-- The interval that is left by itself. -/
theorem Operand.admits_addInterval (hop : p.Operand inside) (hr : Reads p.pop.2 r)
    (hmin : 0 ≤ min) :
    Admits p ((r.addInterval p.peek min max).2.push (r.addInterval p.peek min max).1) inside k ↔
      Within min max k := by
  obtain ⟨l, live, frag, hcons, ho, rfl⟩ := hop.owned
  obtain ⟨t, s, i, x, r', hadd, hn, hstack, -⟩ := addInterval_spec hr hcons ho min max
  rw [hadd, admits_push (t := t) hop.1 (by simp [push, hstack, hcons])]
  exact hn.repeats_iff ho hmin

/-- The interval that is joined to the entry below it, if there is one. -/
theorem Operand.admits_joined (hop : p.Operand inside) (hr : Reads p.pop.2 r) (hmin : 0 ≤ min) :
    Admits p ((r.addInterval p.peek min max).2.pop.2.pushConcatenated
        (r.addInterval p.peek min max).2.pop.1 (r.addInterval p.peek min max).1) inside k ↔
      Within min max k := by
  obtain ⟨l, live, frag, hcons, ho, rfl⟩ := hop.owned
  obtain ⟨t, s, i, x, r', hadd, hn, hstack, -⟩ := addInterval_spec hr hcons ho min max
  have ht := hn.pair.nonzero
  have hparent : (r'.ctrl.heap t).parent = s := by rw [hn.root]
  have hpop : r'.pop.1 = l.headD 0 := by rw [pop, hstack]
  have htail : r'.pop.2.symbolStack = l.tail := by rw [pop, hstack]
  rw [hadd]
  dsimp only
  rw [hpop]
  by_cases hleft : l.headD 0 = 0
  · -- no entry below: the interval stays as it is
    have hconcat : r'.pop.2.ctrl.concatenateNfa 0 t = (t, r'.ctrl) := by
      rw [NFACtrl.concatenateNfa, if_neg ht, if_pos rfl]
      rfl
    have hpush : (r'.pop.2.pushConcatenated 0 t).symbolStack = t :: l.tail ∧
        (r'.pop.2.pushConcatenated 0 t).ctrl = r'.ctrl := by
      rw [pushConcatenated, hconcat]
      exact ⟨congrArg (t :: ·) htail, rfl⟩
    rw [hleft]
    generalize r'.pop.2.pushConcatenated 0 t = q at hpush
    obtain ⟨hqstack, hqctrl⟩ := hpush
    have hpeek : q.peek = t := by simp [peek, hqstack]
    have hne : q.symbolStack ≠ p.symbolStack.tail := by
      rw [hqstack, hcons, List.tail_cons]
      intro h
      rw [← h, List.headD_cons] at hleft
      exact ht hleft
    have hentry : entry p q = s := by
      have hzero : p.symbolStack.getD 1 0 = 0 := by
        rw [hcons, List.getD_cons_succ, List.getD_eq_getElem?_getD, ← List.head?_eq_getElem?,
          ← List.headD_eq_head?_getD, hleft]
      rw [entry, hzero, if_neg (fun h => h.1 rfl), hpeek, hqctrl, hparent]
    rw [Admits, if_neg hne, hentry, hpeek, hqctrl, ← hparent]
    exact hn.repeats_iff ho hmin
  · obtain ⟨left, l, rfl⟩ : ∃ left l', l = left :: l' := by
      cases l with
      | nil => exact absurd rfl hleft
      | cons left l => exact ⟨left, l, rfl⟩
    rw [List.headD_cons] at hleft ⊢
    have hroot := ho.shape.root left (by simp [hleft])
    have hfrag : frag left ≠ p.peek := by
      have hnodup := ho.shape.nodup
      rw [List.nodup_cons] at hnodup
      rw [hroot.2.1]
      rintro rfl
      exact hnodup.1 (by simp [hleft])
    have hlt : left ≠ t := fun h => hn.pair.root (h ▸ Finset.mem_insert_of_mem hroot.1)
    have hls : left ≠ s := fun h => hn.pair.start (h ▸ Finset.mem_insert_of_mem hroot.1)
    obtain ⟨c'', hconcat, hj⟩ := joined_concatenateNfa hleft ht hlt
      (hparent.symm ▸ hls.symm) (hparent.symm ▸ hn.pair.ne)
    have hpush : (r'.pop.2.pushConcatenated left t).symbolStack = t :: l ∧
        (r'.pop.2.pushConcatenated left t).ctrl = c'' := by
      have hctrl : r'.pop.2.ctrl = r'.ctrl := rfl
      rw [pushConcatenated, hctrl, hconcat]
      exact ⟨congrArg (t :: ·) htail, rfl⟩
    generalize r'.pop.2.pushConcatenated left t = q at hpush
    obtain ⟨hqstack, hqctrl⟩ := hpush
    have hpeek : q.peek = t := by simp [peek, hqstack]
    have hne : q.symbolStack ≠ p.symbolStack.tail := by
      rw [hqstack, hcons, List.tail_cons]
      intro h
      exact hlt (List.cons.inj h).1.symm
    have hentry : entry p q = left := by
      have hzero : p.symbolStack.getD 1 0 = left := by rw [hcons]; rfl
      rw [entry, hzero, if_pos ⟨hleft, by simp [hqstack, hcons]⟩]
    rw [Admits, if_neg hne, hentry, hpeek, hqctrl]
    exact hn.repeats_joined ho hmin hroot.1 hfrag hj

/-- What is left of an operand that has been dropped. -/
theorem Operand.admits_dropOperand (hop : p.Operand inside) (hr : Reads p.pop.2 r) :
    Admits p (r.dropOperand p.peek) inside k ↔ k = 0 := by
  obtain ⟨l, live, frag, hcons, ho, rfl⟩ := hop.owned
  obtain ⟨sc, tok, -, rfl⟩ := hr
  have hlive : p.peek ∈ live := (ho.shape.root p.peek (by simp)).1
  obtain ⟨a, c', hnew, ha, -, hheap, -⟩ := (ho.alloc.nfaDealloc hlive).newNfa .accepting
  by_cases hempty : l = [] ∧ p.inAlternation = 0
  · -- the new accepting node may be the one the operand had
    obtain ⟨rfl, hout⟩ := hempty
    have hpush : (dropOperand { p.pop.2 with scanner := sc, lookahead := tok } p.peek).ctrl.heap =
        c'.heap.modify a (fun x => { x with parent := a }) ∧
        (dropOperand { p.pop.2 with scanner := sc, lookahead := tok } p.peek).symbolStack =
          [a] := by
      simp [dropOperand, pop, push, hcons, hout, hnew]
    generalize dropOperand { p.pop.2 with scanner := sc, lookahead := tok } p.peek = q at hpush
    obtain ⟨hqheap, hqstack⟩ := hpush
    have hpeek : q.peek = a := by simp [peek, hqstack]
    have hentry : entry p q = a := by simp [entry, hcons, hpeek, hqheap]
    have htype : (q.ctrl.heap a).type = .accepting := by simp [hqheap, hheap]
    rw [Admits, if_neg (by simp [hqstack, hcons]), hentry, hpeek, repeats_accepting htype]
    · simp
    · intro hin
      by_contra hne
      exact ha (Finset.mem_erase.mpr ⟨hne, hin.1⟩)
  · have hstack : (dropOperand { p.pop.2 with scanner := sc, lookahead := tok } p.peek).symbolStack
        = p.symbolStack.tail := by
      by_cases halt : p.inAlternation = 0
      · have hbelow : l ≠ [] := fun h => hempty ⟨h, halt⟩
        simp [dropOperand, pop, hcons, halt, hbelow]
      · simp [dropOperand, pop, hcons, halt]
    rw [Admits, if_pos hstack]

/-- **The admitted numbers.** What `parse_interval_expression` builds for the bounds it has
read, unless the operand is an interval that is changed instead. -/
theorem Operand.admits_iff (hop : p.Operand inside) (hr : Reads p.pop.2 r)
    (hfree : p.Merges p.peek → ¬ Merging min max) (hmin : -1 ≤ min)
    (hrun : r.applyInterval p.peek min max = .ok q) :
    Admits p q inside k ↔ Admitted min max k := by
  obtain ⟨l, live, frag, hcons, ho, rfl⟩ := hop.owned
  unfold applyInterval at hrun
  unfold Admitted
  by_cases hmax : 0 < max
  · rw [if_pos hmax] at hrun ⊢
    split at hrun
    · cases hrun
    split at hrun
    · rename_i hbounds
      obtain ⟨r₁, hquantify, hrun⟩ := bind_ok hrun
      cases hrun
      obtain ⟨t, hstack, hbuild⟩ := quantify_spec hr hquantify
      have hcount := ho.repeats_newQmarkNfa hbuild (k := k)
      refine (admits_push (t := t) hop.1 hstack).trans (hcount.trans (by omega))
    split at hrun
    · rename_i hbounds
      cases hrun
      obtain ⟨sc, tok, -, rfl⟩ := hr
      obtain ⟨hlive, hfrag, hroot⟩ := ho.shape.root p.peek (by simp)
      rw [admits_push (t := p.peek) hop.1 rfl]
      refine (repeats_alone hroot (ho.shape.start_mem (by simp))
        (ho.shape.start p.peek (by simp)).2.2).trans (by omega)
    have hfree' : ¬ r.Merges p.peek := by
      intro hmerges
      obtain ⟨sc, tok, -, rfl⟩ := hr
      exact hfree hmerges ⟨hmax, by assumption, by assumption⟩
    rw [if_neg hop.1] at hrun
    dsimp only at hrun
    rw [mergeIntervals_of_not_merges hfree'] at hrun
    cases hrun
    rw [hop.admits_addInterval hr (by split <;> omega)]
    unfold Within
    split
    · omega
    · omega
  · rw [if_neg hmax] at hrun ⊢
    split at hrun
    · rename_i hbounds
      obtain ⟨t, hstack, hbuild⟩ := quantify_spec hr hrun
      have hcount := ho.repeats_newPosclosureNfa hbuild (k := k)
      rw [admits_push (t := t) hop.1 hstack, if_pos (by omega)]
      exact hcount.trans (by omega)
    split at hrun
    · rename_i hbounds
      rw [if_neg hop.1] at hrun
      have hq : q = (r.addInterval p.peek min max).2.pop.2.pushConcatenated
          (r.addInterval p.peek min max).2.pop.1 (r.addInterval p.peek min max).1 :=
        (Except.ok.inj hrun).symm
      rw [hq, hop.admits_joined hr (by omega), if_pos (by omega)]
      unfold Within
      omega
    split at hrun
    · rename_i hbounds
      obtain ⟨t, hstack, hbuild⟩ := quantify_spec hr hrun
      have hcount := ho.repeats_newKleeneNfa hbuild (k := k)
      rw [admits_push (t := t) hop.1 hstack, if_pos (by omega)]
      exact iff_of_true hcount (by omega)
    · cases hrun
      rw [hop.admits_dropOperand hr, if_neg (by omega)]

end Parser

end Recognizer
