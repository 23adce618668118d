import Recognizer.Parse.Interval

/-!
# Intervals that are merged

An interval behind an automaton that starts with the interval built last changes the bounds of
that one. If the automaton also ends with it, the products of the bounds stand for the numbers of
repetitions of the nested intervals unless these leave a gap or allow none; if it does not, the
automaton is not repeated at all.
-/

namespace Recognizer

open Scanner

variable {live : Finset Addr} {rest l : List Addr} {frag : Addr → Addr} {inside : Set Addr}
  {exit s i t : Addr} {k fuel : Nat} {min max m n : Int} {p q r p' : Parser}

/-- The bounds of a node do not matter for the way through it. -/
theorem Bounded.modify {h : Heap} {optional : Bool} (hb : Bounded h inside exit s i t optional)
    {f : NFA → NFA} (a : Addr)
    (hf : ∀ x, (f x).type = x.type ∧ (f x).out1 = x.out1 ∧ (f x).out2 = x.out2) :
    Bounded (h.modify a f) inside exit s i t optional := by
  have hsame : ∀ x, ((h.modify a f) x).type = (h x).type ∧ ((h.modify a f) x).out1 = (h x).out1 ∧
      ((h.modify a f) x).out2 = (h x).out2 := by
    intro x
    rw [Heap.modify_apply]
    split
    · rename_i heq
      subst heq
      exact hf _
    · exact ⟨rfl, rfl, rfl⟩
  obtain ⟨⟨hstart, hstop, hne, hends, hroot, b, hb, hbe, hoptional, hrequired⟩, hbehind, hapart,
    hnode⟩ := hb
  refine ⟨⟨hstart, hstop, hne, hends, ?_, b, hb, hbe, ?_, ?_⟩, ?_, hapart, ?_⟩
  · rwa [(hsame t).1]
  · rwa [(hsame s).1, (hsame s).2.1, (hsame s).2.2]
  · rwa [(hsame s).1, (hsame s).2.2]
  · rwa [(hsame exit).1, (hsame exit).2.2]
  · rwa [(hsame i).1, (hsame i).2.2]

namespace Parser

/-- How often the automaton on top of the stack goes through `inside`. -/
def Goes (q : Parser) (inside : Set Addr) (exit : Addr) (k : Nat) : Prop :=
  Repeats q.ctrl.heap inside exit (q.ctrl.heap q.peek).parent k q.peek

/-- The automaton on top of the stack is the interval built last, which has its bounds. -/
structure Group (p : Parser) (inside : Set Addr) (exit : Addr) (optional : Bool) (m n : Int) :
    Prop where
  bounded : Bounded p.ctrl.heap inside exit (p.ctrl.heap p.peek).parent p.prevInterval p.peek
    optional
  head : p.prevIntervalHead ≠ (p.ctrl.heap p.peek).parent
  nonzero : p.peek ≠ 0
  min_eq : (p.ctrl.heap p.prevInterval).minRep = m
  max_eq : (p.ctrl.heap p.prevInterval).maxRep = n

/-- Nothing has been added to the automaton on top of the stack. -/
structure SameOperand (p q : Parser) : Prop where
  ctrl : q.ctrl = p.ctrl
  peek : q.peek = p.peek
  prevInterval : q.prevInterval = p.prevInterval
  prevIntervalHead : q.prevIntervalHead = p.prevIntervalHead

theorem SameOperand.merges_iff (h : SameOperand p q) : q.Merges q.peek ↔ p.Merges p.peek := by
  rw [Merges, Merges, h.ctrl, h.peek, h.prevInterval, h.prevIntervalHead]

variable {optional : Bool}

/-- The end of a group adds nothing to the interval in it. -/
theorem Group.same (hg : p.Group inside exit optional m n) (h : SameOperand p q) :
    q.Group inside exit optional m n := by
  obtain ⟨hbounded, hhead, hzero, hmin, hmax⟩ := hg
  refine ⟨?_, ?_, ?_, ?_, ?_⟩
  · rwa [h.ctrl, h.peek, h.prevInterval]
  · rwa [h.ctrl, h.peek, h.prevIntervalHead]
  · rwa [h.peek]
  · rwa [h.ctrl, h.prevInterval]
  · rwa [h.ctrl, h.prevInterval]

/-- An interval that can be left out is not changed by another one. -/
theorem Group.required (hg : p.Group inside exit optional m n) (hmerges : p.Merges p.peek) :
    optional = false := by
  cases optional with
  | false => rfl
  | true =>
    obtain ⟨b, -, -, hsplit, -⟩ := hg.bounded.entry
    have htype := (hsplit rfl).1
    have htighten : p.ctrl.tighten (p.ctrl.heap p.peek).parent = (p.ctrl.heap p.peek).parent := by
      unfold NFACtrl.tighten
      cases p.ctrl.alloc.nextAddr with
      | zero => rfl
      | succ j =>
        rw [NFACtrl.skipEpsilon, if_neg]
        simp [htype]
    exact absurd (hmerges.1.trans htighten) hg.head

theorem mergedBounds_min {x : NFA} (hx : x.minRep = m) (hm : 1 ≤ m) :
    (mergedBounds (if min ≥ 0 then min else 0) max x).minRep =
      if min ≤ 0 then m else m * min := by
  subst hx
  by_cases hmin : min ≤ 0
  · have hzero : (if min ≥ 0 then min else 0) = 0 := by
      split
      · omega
      · rfl
    simp [mergedBounds, hzero, hmin]
  · rw [mergedBounds, if_pos (show min ≥ 0 by omega), if_neg hmin, if_neg (by omega)]

theorem mergedBounds_max {x : NFA} (hx : x.maxRep = n) (hn : n ≠ 0) (hmax : 0 < max) :
    (mergedBounds min max x).maxRep = n * max := by
  subst hx
  simp [mergedBounds, hn, hmax.ne']

/-- The interval built last has taken over the bounds, and nothing else has changed. -/
structure TakenOver (p q : Parser) (min max : Int) : Prop where
  heap : q.ctrl.heap = p.ctrl.heap.modify p.prevInterval
    (mergedBounds (if min ≥ 0 then min else 0) max)
  stack : q.symbolStack = p.peek :: p.symbolStack.tail
  prevInterval : q.prevInterval = p.prevInterval
  prevIntervalHead : q.prevIntervalHead = p.prevIntervalHead

theorem TakenOver.peek (h : TakenOver p q min max) : q.peek = p.peek := by
  rw [Parser.peek, h.stack]
  rfl

/-- What an interval that is merged does, unless a bound overflows. -/
theorem takenOver_of_merges (hr : Reads p.pop.2 r) (hmerges : p.Merges p.peek) (hzero : p.peek ≠ 0)
    (hmerging : Merging min max) (hle : min ≤ max)
    (hrun : r.applyInterval p.peek min max = .ok q) :
    TakenOver p q min max ∧
      Fits (mergedBounds (if min ≥ 0 then min else 0) max (p.ctrl.heap p.prevInterval)).minRep ∧
      Fits (mergedBounds (if min ≥ 0 then min else 0) max (p.ctrl.heap p.prevInterval)).maxRep := by
  have hmerges' : r.Merges p.peek := by
    obtain ⟨sc, tok, -, rfl⟩ := hr
    exact hmerges
  obtain ⟨rfl, hfits⟩ := (applyInterval_of_merges hmerges' hzero hmerging hle).mp hrun
  obtain ⟨sc, tok, -, rfl⟩ := hr
  exact ⟨⟨rfl, rfl, rfl, rfl⟩, hfits⟩

/-- Bounds that fit are taken over. -/
theorem applyInterval_of_fits (hr : Reads p.pop.2 r) (hmerges : p.Merges p.peek)
    (hzero : p.peek ≠ 0) (hmerging : Merging min max) (hle : min ≤ max)
    (hlow : Fits (mergedBounds (if min ≥ 0 then min else 0) max
      (p.ctrl.heap p.prevInterval)).minRep)
    (hhigh : Fits (mergedBounds (if min ≥ 0 then min else 0) max
      (p.ctrl.heap p.prevInterval)).maxRep) :
    ∃ q, r.applyInterval p.peek min max = .ok q := by
  have hmerges' : r.Merges p.peek := by
    obtain ⟨sc, tok, -, rfl⟩ := hr
    exact hmerges
  have hprev : r.ctrl.heap r.prevInterval = p.ctrl.heap p.prevInterval := by
    obtain ⟨sc, tok, -, rfl⟩ := hr
    rfl
  rw [← hprev] at hlow hhigh
  exact ⟨_, (applyInterval_of_merges hmerges' hzero hmerging hle).mpr ⟨rfl, hlow, hhigh⟩⟩

theorem TakenOver.parent (h : TakenOver p q min max) (a : Addr) :
    (q.ctrl.heap a).parent = (p.ctrl.heap a).parent := by
  rw [h.heap, Heap.modify_apply]
  split
  · rename_i heq
    rw [heq, mergedBounds]
  · rfl

theorem TakenOver.type (h : TakenOver p q min max) (a : Addr) :
    (q.ctrl.heap a).type = (p.ctrl.heap a).type := by
  rw [h.heap, Heap.modify_apply]
  split
  · rename_i heq
    rw [heq, mergedBounds]
  · rfl

/-- An interval that is merged keeps its place, with new bounds. -/
theorem Group.merge (hg : p.Group inside exit optional m n) (h : TakenOver p q min max)
    (hmerges : p.Merges p.peek) (hm : 1 ≤ m) (hn : n ≠ 0) (hmax : 0 < max) :
    q.Group inside exit false (if min ≤ 0 then m else m * min) (n * max) := by
  obtain rfl := hg.required hmerges
  refine ⟨?_, ?_, ?_, ?_, ?_⟩
  · have hbounded := hg.bounded.modify p.prevInterval
      (f := mergedBounds (if min ≥ 0 then min else 0) max) fun x => ⟨rfl, rfl, rfl⟩
    rwa [← h.heap, ← h.parent, ← h.peek, ← h.prevInterval] at hbounded
  · rw [h.parent, h.peek, h.prevIntervalHead]
    exact hg.head
  · rw [h.peek]
    exact hg.nonzero
  · rw [h.prevInterval, h.heap, Heap.modify_self]
    exact mergedBounds_min hg.min_eq hm
  · rw [h.prevInterval, h.heap, Heap.modify_self]
    exact mergedBounds_max hg.max_eq hn hmax

/-- The bounds of a merged interval, where they fit, and the interval is merged only there. -/
theorem Group.merge_isOk_iff (hg : p.Group inside exit optional m n) (hr : Reads p.pop.2 r)
    (hmerges : p.Merges p.peek) (hm : 1 ≤ m) (hn : n ≠ 0) (hmerging : Merging min max)
    (hle : min ≤ max) :
    (∃ q, r.applyInterval p.peek min max = .ok q) ↔
      Fits (if min ≤ 0 then m else m * min) ∧ Fits (n * max) := by
  have hlow : (mergedBounds (if min ≥ 0 then min else 0) max
      (p.ctrl.heap p.prevInterval)).minRep = if min ≤ 0 then m else m * min :=
    mergedBounds_min hg.min_eq hm
  have hhigh : (mergedBounds (if min ≥ 0 then min else 0) max
      (p.ctrl.heap p.prevInterval)).maxRep = n * max :=
    mergedBounds_max hg.max_eq hn hmerging.1
  rw [← hlow, ← hhigh]
  constructor
  · rintro ⟨q, hrun⟩
    exact (takenOver_of_merges hr hmerges hg.nonzero hmerging hle hrun).2
  · rintro ⟨hlow, hhigh⟩
    exact applyInterval_of_fits hr hmerges hg.nonzero hmerging hle hlow hhigh

/-- The interval that is built around an operand. -/
theorem Operand.group (hop : p.Operand inside) (hr : Reads p.pop.2 r) (hfree : ¬ p.Merges p.peek)
    (hmerging : Merging min max) (hle : min ≤ max)
    (hrun : r.applyInterval p.peek min max = .ok q) :
    q.Group inside p.peek (decide (min ≤ 0)) (if min ≤ 0 then 1 else min) max := by
  obtain ⟨l, live, frag, hcons, ho, rfl⟩ := hop.owned
  have hmax := hmerging.1
  have hfree' : ¬ r.Merges p.peek := by
    obtain ⟨sc, tok, -, rfl⟩ := hr
    exact hfree
  rw [applyInterval_of_not_merges hfree' hop.1 hmerging hle] at hrun
  obtain ⟨t, s, i, x, r', hadd, hn, hstack, hprev, hhead⟩ := addInterval_spec hr hcons ho
    (if min ≥ 0 then min else 0) max
  rw [hadd] at hrun
  cases hrun
  have hparent : (r'.ctrl.heap t).parent = s := by rw [hn.root]
  have hzero : (if min ≥ 0 then min else 0) = 0 ↔ min ≤ 0 := by
    split <;> omega
  refine ⟨?_, ?_, hn.pair.nonzero, ?_, ?_⟩
  · change Bounded r'.ctrl.heap _ _ (r'.ctrl.heap t).parent r'.prevInterval t _
    rw [hparent, hprev, ← decide_eq_decide.mpr hzero]
    exact hn.bounded ho
  · change r'.prevIntervalHead ≠ (r'.ctrl.heap t).parent
    rw [hparent, hhead]
    intro hxs
    rcases hn.head with hxi | ⟨hx, -⟩
    · exact hn.pair.start (Finset.mem_insert.mpr (.inl (hxs.symm.trans hxi)))
    · exact hn.pair.start (Finset.mem_insert_of_mem (hxs ▸ hx))
  · change (r'.ctrl.heap r'.prevInterval).minRep = _
    rw [hprev, hn.bounds.1]
    split <;> split <;> split <;> omega
  · change (r'.ctrl.heap r'.prevInterval).maxRep = _
    rw [hprev, hn.bounds.2]

/-- An interval that cannot be left out goes through its operand as often as its bounds say. -/
theorem Group.goes_iff (hg : q.Group inside exit false m n) :
    q.Goes inside exit k ↔ 1 ≤ k ∧ Within m n k := by
  rw [Goes, hg.bounded.repeats_iff, hg.min_eq, hg.max_eq]
  simp

end Parser

/-- Multiplied bounds admit the sums of the nested intervals exactly if these leave no gap. -/
theorem merged_iff_summed {a b : Int} {m₁ n₁ m₂ n₂ : Nat} (ha : 1 ≤ a) (hb : a ≤ b ∨ b < 0)
    (h₁ : m₁ ≤ n₁) (h₂ : m₂ ≤ n₂) (hpos : 1 ≤ m₁ * m₂) :
    (∀ k : Nat, 1 ≤ k ∧ Within (a * (m₁ * m₂ : Nat)) (b * (n₁ * n₂ : Nat)) k ↔
        Summed (Repeated m₁ n₁ m₂ n₂) (Within a b) k) ↔
      b < 0 ∨ Contiguous a.toNat b.toNat m₁ n₁ m₂ n₂ := by
  obtain ⟨c, rfl⟩ := Int.eq_ofNat_of_zero_le (show 0 ≤ a by omega)
  have hm₂ : 0 < m₂ := Nat.pos_of_ne_zero fun h => by simp [h] at hpos
  have hlow : 1 ≤ c * (m₁ * m₂) := Nat.mul_pos (by omega) hpos
  have hend : 1 ≤ n₁ * n₂ := hpos.trans (Nat.mul_le_mul h₁ h₂)
  have hcomm : m₁ * c * m₂ = c * (m₁ * m₂) := by rw [Nat.mul_comm m₁, Nat.mul_assoc]
  rcases hb with hb | hb
  · obtain ⟨d, rfl⟩ := Int.eq_ofNat_of_zero_le (show 0 ≤ b by omega)
    have hhigh : 1 ≤ d * (n₁ * n₂) := Nat.mul_pos (by omega) hend
    have hcomm' : n₁ * d * n₂ = d * (n₁ * n₂) := by rw [Nat.mul_comm n₁, Nat.mul_assoc]
    have hwithin : Within (c : Int) (d : Int) = fun x => c ≤ x ∧ x ≤ d := by
      ext x
      unfold Within
      omega
    have hrange : ∀ k : Nat, (1 ≤ k ∧ Within ((c : Int) * (m₁ * m₂ : Nat))
        ((d : Int) * (n₁ * n₂ : Nat)) k) ↔ m₁ * c * m₂ ≤ k ∧ k ≤ n₁ * d * n₂ := by
      intro k
      rw [hcomm, hcomm', ← Nat.cast_mul, ← Nat.cast_mul]
      unfold Within
      omega
    simp only [hrange, hwithin]
    rw [summed_iff_range (by omega) h₁ h₂ (by omega) hm₂]
    simp only [Int.toNat_natCast]
    exact ⟨.inr, fun h => h.resolve_left (by omega)⟩
  · have hneg : b * (n₁ * n₂ : Nat) < 0 := Int.mul_neg_of_neg_of_pos hb (by omega)
    have hwithin : Within (c : Int) b = fun x => c ≤ x := by
      ext x
      unfold Within
      omega
    have hrange : ∀ k : Nat, (1 ≤ k ∧ Within ((c : Int) * (m₁ * m₂ : Nat))
        (b * (n₁ * n₂ : Nat)) k) ↔ m₁ * c * m₂ ≤ k := by
      intro k
      rw [hcomm, ← Nat.cast_mul]
      unfold Within
      omega
    simp only [hrange, hwithin, summed_least_iff h₁ h₂ hpos]
    exact iff_of_true (fun _ => trivial) (.inl hb)

namespace Parser

/-- The bounds between a pair of braces, and the parser behind them. -/
def readBraces (fuel : Nat) (p : Parser) : Option (Int × Int × Parser) :=
  (p.readBound fuel).toOption.bind fun low =>
    (low.2.readUpperBound fuel).toOption.bind fun high =>
      if high.2.lookahead.type = .closebrace then some (low.1, high.1, high.2.consumeToken)
      else none

/-- A pair of braces, with the bounds between them. -/
def Braces (fuel : Nat) (p : Parser) (min max : Int) (q : Parser) : Prop :=
  p.readBraces fuel = some (min, max, q)

theorem ok_of_toOption {α : Type} {x : Except ParseError α} {a : α}
    (h : x.toOption = some a) : x = .ok a := by
  cases x with
  | error => cases h
  | ok b => exact congrArg Except.ok (Option.some.inj h)

theorem Braces.reads (h : Braces fuel p min max q) :
    ∃ r s, p.readBound fuel = .ok (min, r) ∧ r.readUpperBound fuel = .ok (max, s) ∧
      s.lookahead.type = .closebrace ∧ q = s.consumeToken := by
  obtain ⟨⟨m, r⟩, hlow, h⟩ := Option.bind_eq_some_iff.mp h
  obtain ⟨⟨n, s⟩, hhigh, h⟩ := Option.bind_eq_some_iff.mp h
  dsimp only at h
  split at h
  · rename_i hclose
    cases h
    exact ⟨r, s, ok_of_toOption hlow, ok_of_toOption hhigh, hclose, rfl⟩
  · cases h

/-- One round of the loop over adjacent intervals. -/
theorem readIntervals_braces (h : Braces (fuel + 1) p min max q) :
    readIntervals (fuel + 1) m n p =
      combineBound m min >>= fun m' => combineBound n max >>= fun n' =>
        if m' ≠ -1 ∧ q.lookahead.type = .openbrace then readIntervals fuel m' n' q
        else .ok (m', n', true, q) := by
  obtain ⟨r, s, hlow, hhigh, hclose, rfl⟩ := h.reads
  rw [readIntervals, hlow]
  dsimp only [bind, Except.bind]
  rw [hhigh]
  dsimp only
  refine congrArg (Except.bind (combineBound m min)) (funext fun m' => ?_)
  refine congrArg (Except.bind (combineBound n max)) (funext fun n' => ?_)
  simp only [hclose, decide_true, if_true, true_and]
  by_cases hminus : m' = -1
  · rw [if_pos hminus, if_neg fun h => h.1 hminus]
  · simp only [hminus, ne_eq, not_false_eq_true, true_and, if_false]

theorem combineBound_first : combineBound (-1) m = .ok m := if_pos rfl

theorem readIntervals_once (h : Braces (fuel + 1) p min max q)
    (hnext : q.lookahead.type ≠ .openbrace) :
    readIntervals (fuel + 1) (-1) (-1) p = .ok (min, max, true, q) := by
  rw [readIntervals_braces h, combineBound_first, combineBound_first]
  exact if_neg fun h => hnext h.2

/-- With an upper bound an automaton takes the place of the operand. -/
theorem applyInterval_pushes (hr : Reads p.pop.2 r)
    (hfree : p.Merges p.peek → ¬ Merging min max) (hmax : 0 < max)
    (hrun : r.applyInterval p.peek min max = .ok q) :
    ∃ t, q.symbolStack = t :: p.symbolStack.tail := by
  unfold applyInterval at hrun
  rw [if_pos hmax] at hrun
  split at hrun
  · cases hrun
  split at hrun
  · obtain ⟨r₁, hquantify, hrun⟩ := bind_ok hrun
    cases hrun
    obtain ⟨t, hstack, -⟩ := quantify_spec hr hquantify
    exact ⟨t, hstack⟩
  split at hrun
  · cases hrun
    obtain ⟨sc, tok, -, rfl⟩ := hr
    exact ⟨p.peek, rfl⟩
  have hfree' : ¬ r.Merges p.peek := by
    intro hmerges
    obtain ⟨sc, tok, -, rfl⟩ := hr
    exact hfree hmerges ⟨hmax, by assumption, by assumption⟩
  split at hrun
  · cases hrun
  dsimp only at hrun
  rw [mergeIntervals_of_not_merges hfree'] at hrun
  cases hrun
  obtain ⟨sc, tok, -, rfl⟩ := hr
  exact ⟨_, rfl⟩

/-- The automaton on top of the stack has kept its ends. -/
structure SameEnds (p q : Parser) : Prop where
  peek : q.peek = p.peek
  type : (q.ctrl.heap p.peek).type = (p.ctrl.heap p.peek).type
  parent : (q.ctrl.heap p.peek).parent = (p.ctrl.heap p.peek).parent

theorem SameEnds.trans (h : SameEnds p q) (h' : SameEnds q r) : SameEnds p r := by
  refine ⟨h'.peek.trans h.peek, ?_, ?_⟩
  · rw [← h.type, ← h.peek, h'.type]
  · rw [← h.parent, ← h.peek, h'.parent]

theorem SameOperand.ends (h : SameOperand p q) : SameEnds p q :=
  ⟨h.peek, by rw [h.ctrl], by rw [h.ctrl]⟩

theorem TakenOver.ends (h : TakenOver p q min max) : SameEnds p q :=
  ⟨h.peek, h.type _, h.parent _⟩

/-- An operand whose ends have been kept is gone through once. -/
theorem Operand.goes_once (hop : p.Operand inside) (h : SameEnds p q) :
    q.Goes inside p.peek k ↔ k = 1 := by
  obtain ⟨l, live, frag, hcons, ho, rfl⟩ := hop.owned
  obtain ⟨-, -, hroot⟩ := ho.shape.root p.peek (by simp)
  rw [Goes, h.peek, h.parent]
  exact repeats_alone (h.type.trans hroot) (ho.shape.start_mem (by simp))
    (ho.shape.start p.peek (by simp)).2.2

/-- The interval built last leads to the end of the automaton on top of the stack. -/
def EndsAtLast (p : Parser) : Prop := (p.ctrl.heap p.prevInterval).out2 = p.peek

instance (p : Parser) : Decidable p.EndsAtLast := instDecidableEqNat _ _

/-- A subexpression in front of an interval: the nodes `whole` of its automaton and, if that
ends with the interval built last and an interval behind it is merged, the operand `inner` of
that one and its bounds. -/
structure SubExpression (p : Parser) (whole inner : Set Addr) (exit : Addr) (a b : Int) : Prop where
  operand : p.Operand whole
  group : p.Merges p.peek → p.EndsAtLast → p.Group inner exit false a b
  lower : 1 ≤ a
  upper : a ≤ b ∨ b < 0

/-- A group that consists of an interval. -/
theorem Group.subExpression {a b : Int} {whole : Set Addr} {optional : Bool}
    (hg : p.Group inside exit optional a b)
    (hop : p.Operand whole) (hlower : 1 ≤ a) (hupper : a ≤ b ∨ b < 0) :
    p.SubExpression whole inside exit a b := by
  refine ⟨hop, fun hmerges _ => ?_, hlower, hupper⟩
  obtain rfl := hg.required hmerges
  exact hg

section Bounds

variable {a b : Int}

/-- The bounds of `{1,1}`, of which nothing is built, and those that are merged. -/
theorem once_or_merging (hmax : 1 ≤ max) (hopt : ¬ (min = 0 ∧ max = 1)) :
    (min = 1 ∧ max = 1) ∨ Merging min max := by
  refine or_iff_not_imp_left.mpr fun hone => ⟨by omega, hopt, hone⟩

theorem Group.goes_zero (hg : q.Group inside exit false m n) : ¬ q.Goes inside exit 0 := by
  rw [hg.goes_iff]
  omega

/-- An interval behind an automaton that it is merged with. -/
theorem Group.repeated (hg : p.Group inside exit false a b) (hr : Reads p.pop.2 r)
    (hmerges : p.Merges p.peek) (ha : 1 ≤ a) (hb : b ≠ 0) (hmax : 1 ≤ max) (hle : min ≤ max)
    (hopt : ¬ (min = 0 ∧ max = 1))
    (hrun : r.applyInterval p.peek min max = .ok q) :
    q.Group inside exit false (if min ≤ 0 then a else a * min) (b * max) ∧ SameEnds p q := by
  rcases once_or_merging hmax hopt with ⟨rfl, rfl⟩ | hmerging
  · obtain ⟨sc, tok, -, rfl⟩ := hr
    cases hrun
    rw [Int.mul_one, if_neg (by decide), Int.mul_one]
    have hsame : SameOperand p (push { p.pop.2 with scanner := sc, lookahead := tok } p.peek) :=
      ⟨rfl, rfl, rfl, rfl⟩
    exact ⟨hg.same hsame, hsame.ends⟩
  · obtain ⟨htaken, -⟩ := takenOver_of_merges hr hmerges hg.nonzero hmerging hle hrun
    exact ⟨hg.merge htaken hmerges ha hb (by omega), htaken.ends⟩

/-- Factors of a number that fits. -/
theorem Fits.of_mul (h : Fits (m * n)) (hn : 1 ≤ n) : Fits m := by
  obtain ⟨hlow, hhigh⟩ := h
  constructor
  · by_contra hless
    have hmul : m * n ≤ m * 1 := Int.mul_le_mul_of_nonpos_left (by omega) hn
    omega
  · by_contra hmore
    have hmul : m * 1 ≤ m * n := Int.mul_le_mul_of_nonneg_left hn (by omega)
    omega

/-- The ends of an automaton behind which an interval is merged are kept. -/
theorem sameEnds_of_merges (hr : Reads p.pop.2 r) (hmerges : p.Merges p.peek)
    (hzero : p.peek ≠ 0) (hmax : 1 ≤ max) (hle : min ≤ max) (hopt : ¬ (min = 0 ∧ max = 1))
    (hrun : r.applyInterval p.peek min max = .ok q) : SameEnds p q := by
  rcases once_or_merging hmax hopt with ⟨rfl, rfl⟩ | hmerging
  · obtain ⟨sc, tok, -, rfl⟩ := hr
    cases hrun
    exact (SameOperand.ends ⟨rfl, rfl, rfl, rfl⟩)
  · exact (takenOver_of_merges hr hmerges hzero hmerging hle hrun).1.ends

end Bounds

/-- The parser behind the letter `a` at the given offset of a pattern, which is the operand. -/
def behindLetter (pattern : List Int) (offset : Nat) : Parser :=
  let lit := (({} : NFACtrl).allocInit pattern.length).newLiteralNfa 97 .literal
  ({ scanner := { Scanner.initScanner pattern with readhead := offset + 1 }, ctrl := lit.2 } :
    Parser).consumeToken.push lit.1

theorem operand_behindLetter {pattern : List Int} (hpattern : 0 < pattern.length) (offset : Nat) :
    ∃ inside, (behindLetter pattern offset).Operand inside := by
  have hs := ((Built.init hpattern).literal 97).spelling
  have hnonzero : (behindLetter pattern offset).peek ≠ 0 :=
    hs.nonzero _ (List.mem_singleton.mpr rfl)
  obtain ⟨live, frag, ho⟩ := hs.owns
  exact ⟨_, hnonzero, live, frag, ho, rfl⟩

/-- The letter `a` in front of an interval. -/
theorem subExpression_behindLetter {pattern : List Int} (hpattern : 0 < pattern.length)
    (offset : Nat) (hsingle : ¬ (behindLetter pattern offset).Merges
      (behindLetter pattern offset).peek) :
    ∃ inside, (behindLetter pattern offset).SubExpression inside inside
      (behindLetter pattern offset).peek 1 1 := by
  obtain ⟨inside, hop⟩ := operand_behindLetter hpattern offset
  exact ⟨inside, hop, fun h => absurd h hsingle, le_rfl, .inl le_rfl⟩

/-- The interval that is built is an operand again. -/
theorem Operand.applyInterval (hop : p.Operand inside) (hr : Reads p.pop.2 r)
    (hfree : ¬ p.Merges p.peek) (hmerging : Merging min max) (hle : min ≤ max)
    (hrun : r.applyInterval p.peek min max = .ok q) : ∃ whole, q.Operand whole := by
  obtain ⟨l, live, frag, hcons, ho, rfl⟩ := hop.owned
  have hfree' : ¬ r.Merges p.peek := by
    obtain ⟨sc, tok, -, rfl⟩ := hr
    exact hfree
  rw [applyInterval_of_not_merges hfree' hop.1 hmerging hle] at hrun
  have howns : Owns p.ctrl (p.peek :: l) := by
    refine ⟨live, frag, ?_⟩
    rw [List.filter_cons_of_pos (by simpa using hop.1)]
    exact ho
  obtain ⟨t, x, i, c', hnew, ht, live', frag', ho'⟩ :=
    howns.newIntervalNfa hop.1 (if min ≥ 0 then min else 0) max
  obtain ⟨r', hadd, hctrl, hstack⟩ : ∃ r', r.addInterval p.peek (if min ≥ 0 then min else 0) max =
      (t, r') ∧ r'.ctrl = c' ∧ r'.symbolStack = l := by
    obtain ⟨sc, tok, -, rfl⟩ := hr
    exact ⟨_, by simp only [addInterval, pop, hnew]; rfl, rfl, by simp [hcons]⟩
  rw [hadd] at hrun
  cases hrun
  refine ⟨_, ht, live', frag', ?_, rfl⟩
  rw [push, hstack, hctrl]
  exact ho'

/-- The parser behind the letter `a` with an interval and the closing parenthesis of a group. -/
theorem subExpression_behindGroup {pattern : List Int} (hpattern : 0 < pattern.length)
    (offset fuel : Nat) {m n : Nat} (hm : 1 ≤ m) (hn : 2 ≤ n) (hle : m ≤ n)
    (hrun : (((behindLetter pattern offset).pop.2.readBraces (fuel + 1)).bind fun x =>
      ((behindLetter pattern offset).parseIntervalExpression (fuel + 1)).toOption.map fun _ =>
        decide (x.1 = m ∧ x.2.1 = n ∧ x.2.2.lookahead.type ≠ .openbrace ∧
          ¬ (behindLetter pattern offset).Merges (behindLetter pattern offset).peek)) =
      some true) :
    ∃ p₁ whole inner, (behindLetter pattern offset).parseIntervalExpression (fuel + 1) = .ok p₁ ∧
      p₁.consumeToken.SubExpression whole inner (behindLetter pattern offset).peek m n := by
  obtain ⟨inside, hop⟩ := operand_behindLetter hpattern offset
  obtain ⟨⟨x, y, r⟩, hinner, hrun⟩ := Option.bind_eq_some_iff.mp hrun
  obtain ⟨p₁, hrun₁, hcheck⟩ := Option.map_eq_some_iff.mp hrun
  obtain ⟨rfl, rfl, hend, hsingle⟩ := of_decide_eq_true hcheck
  have hrun₁ := ok_of_toOption hrun₁
  have hread := readIntervals_once hinner hend
  have happly := hrun₁
  rw [parseIntervalExpression_eq hread] at happly
  have hmerging : Merging m n := ⟨by omega, by omega, by omega⟩
  have hreads := reads_readIntervals hread
  obtain ⟨whole, hwhole⟩ := hop.applyInterval hreads hsingle hmerging (by omega) happly
  have hgroup := hop.group hreads hsingle hmerging (by omega) happly
  rw [if_neg (by omega)] at hgroup
  have hclosed : SameOperand p₁ p₁.consumeToken := ⟨rfl, rfl, rfl, rfl⟩
  exact ⟨p₁, whole, inside, hrun₁,
    (hgroup.same hclosed).subExpression hwhole (by omega) (.inl (by omega))⟩

end Parser

end Recognizer
