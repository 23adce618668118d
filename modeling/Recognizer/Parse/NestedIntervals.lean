import Recognizer.Parse.IntervalMerge

/-!
# Two intervals

The bounds of two intervals are multiplied, in adjacent braces by the loop that reads them and
behind a group by the interval at its end. The numbers of repetitions are those of the nested
intervals if the products fit an `int` and the sums leave no gap; a group that does not end with
the interval built last is not repeated at all.
-/

namespace Recognizer

open Scanner

variable {l : List Addr} {t : Addr} {k fuel : Nat} {min max m n : Int} {p q r : Parser}

namespace Parser

theorem combineBound_nonneg (hm : 0 ≤ m) (hn : 0 ≤ n) : combineBound m n = evalInt (m * n) := by
  rw [combineBound, if_neg (by omega), if_pos hn]

/-- Adjacent braces multiply their bounds. -/
theorem readIntervals_twice (hfirst : Braces (fuel + 2) p m n r)
    (hnext : r.lookahead.type = .openbrace) (hsecond : Braces (fuel + 1) r min max q)
    (hlast : q.lookahead.type ≠ .openbrace) (hm : 0 ≤ m) (hn : 0 ≤ n) (hmin : 0 ≤ min)
    (hmax : 0 ≤ max) :
    readIntervals (fuel + 2) (-1) (-1) p =
      evalInt (m * min) >>= fun m' => evalInt (n * max) >>= fun n' => .ok (m', n', true, q) := by
  have hround : readIntervals (fuel + 2) (-1) (-1) p = readIntervals (fuel + 1) m n r := by
    rw [readIntervals_braces hfirst, combineBound_first, combineBound_first]
    exact if_pos ⟨by omega, hnext⟩
  rw [hround, readIntervals_braces hsecond, combineBound_nonneg hm hmin,
    combineBound_nonneg hn hmax]
  refine congrArg (Except.bind (evalInt (m * min))) (funext fun m' => ?_)
  refine congrArg (Except.bind (evalInt (n * max))) (funext fun n' => ?_)
  exact if_neg fun h => hlast h.2

/-- The bounds of adjacent braces are multiplied if and only if the products fit. -/
theorem readIntervals_twice_iff {x : Int × Int × Bool × Parser} (hfirst : Braces (fuel + 2) p m n r)
    (hnext : r.lookahead.type = .openbrace) (hsecond : Braces (fuel + 1) r min max q)
    (hlast : q.lookahead.type ≠ .openbrace) (hm : 0 ≤ m) (hn : 0 ≤ n) (hmin : 0 ≤ min)
    (hmax : 0 ≤ max) :
    readIntervals (fuel + 2) (-1) (-1) p = .ok x ↔
      Fits (m * min) ∧ Fits (n * max) ∧ x = (m * min, n * max, true, q) := by
  rw [readIntervals_twice hfirst hnext hsecond hlast hm hn hmin hmax]
  constructor
  · intro hrun
    obtain ⟨m', hlow, hrun⟩ := bind_ok hrun
    obtain ⟨n', hhigh, hrun⟩ := bind_ok hrun
    obtain ⟨rfl, hlow'⟩ := evalInt_eq_ok.mp hlow
    obtain ⟨rfl, hhigh'⟩ := evalInt_eq_ok.mp hhigh
    exact ⟨hlow', hhigh', (Except.ok.inj hrun).symm⟩
  · rintro ⟨hlow, hhigh, rfl⟩
    rw [evalInt_of_fits hlow, evalInt_of_fits hhigh]
    rfl

/-- Separators below the automaton of a group are dropped. -/
theorem joinGroup_separators {j : Nat} (hstack : p.symbolStack = List.replicate j 0 ++ l)
    (ht : t ≠ 0) : joinGroup j t p = (t, { p with symbolStack := l }) := by
  induction j generalizing p with
  | zero =>
    obtain rfl : p.symbolStack = l := hstack
    rfl
  | succ j ih =>
    have hconcat : p.ctrl.concatenateNfa 0 t = (t, p.ctrl) := by
      rw [NFACtrl.concatenateNfa, if_neg ht, if_pos rfl]
    have hpop : p.pop = (0, { p with symbolStack := List.replicate j 0 ++ l }) := by
      rw [pop, hstack]
      rfl
    rw [joinGroup, hpop]
    dsimp only
    rw [hconcat]
    exact ih rfl

theorem leaveGroup_separators {j : Nat} (hstack : p.symbolStack = t :: (List.replicate j 0 ++ l))
    (ht : t ≠ 0) : p.leaveGroup false l.length = { p with symbolStack := t :: l } := by
  have hpop : p.pop = (t, { p with symbolStack := List.replicate j 0 ++ l }) := by
    rw [pop, hstack]
    rfl
  have hlength : (List.replicate j 0 ++ l).length - l.length = j := by simp
  rw [leaveGroup, hpop]
  dsimp only
  rw [hlength, joinGroup_separators rfl ht]
  rfl

/-- The end of a group that consists of one automaton and has no reference adds nothing. -/
theorem sameOperand_closeParen {j : Nat} {n : Int} {b : Bool}
    (hstack : p.symbolStack = t :: (List.replicate j 0 ++ l)) (ht : t ≠ 0)
    (hfree : p.cgrpHasBackref p.currentCgrp = false)
    (hrun : p.closeParen n b l.length = .ok q) : SameOperand p q := by
  unfold closeParen at hrun
  split at hrun
  · split at hrun
    · cases hrun
    · have htrack : p.trackCaptureGroup true =
          (false, { p with currentCgrp := p.currentCgrp - 1 }) := by
        simp [trackCaptureGroup, hfree]
      rw [htrack] at hrun
      dsimp only at hrun
      have hleave := leaveGroup_separators (p := updateCloseParenAccounting
        { p with currentCgrp := p.currentCgrp - 1 } n b) hstack ht
      rw [hleave] at hrun
      cases hrun
      exact ⟨rfl, by simp [peek, hstack], rfl, rfl⟩
  · cases hrun

/-- Two intervals behind an operand that the parser combines, and what it makes of them: in
adjacent braces, or the second one behind a group that ends with the first one. -/
inductive Combined (p : Parser) (m₁ n₁ m₂ n₂ : Nat) : Bool → Result → Prop where
  | backToBack {r s : Parser} {fuel : Nat} (hfirst : Braces (fuel + 2) p.pop.2 m₁ n₁ r)
      (hnext : r.lookahead.type = .openbrace) (hsecond : Braces (fuel + 1) r m₂ n₂ s)
      (hlast : s.lookahead.type ≠ .openbrace) :
    Combined p m₁ n₁ m₂ n₂ false (p.parseIntervalExpression (fuel + 2))
  | refused {r : Parser} {fuel : Nat} {e : ParseError}
      (hinner : Braces (fuel + 1) p.pop.2 m₁ n₁ r) (hend : r.lookahead.type ≠ .openbrace)
      (hbuilt : ¬ (m₁ = 0 ∧ n₁ = 1)) (hrun : p.parseIntervalExpression (fuel + 1) = .error e) :
    Combined p m₁ n₁ m₂ n₂ true (.error e)
  | grouped {p₁ p₂ r s : Parser} {fuel fuel' : Nat} (hinner : Braces (fuel + 1) p.pop.2 m₁ n₁ r)
      (hend : r.lookahead.type ≠ .openbrace) (hbuilt : ¬ (m₁ = 0 ∧ n₁ = 1))
      (hrun : p.parseIntervalExpression (fuel + 1) = .ok p₁) (hclosed : SameOperand p₁ p₂)
      (houter : Braces (fuel' + 1) p₂.pop.2 m₂ n₂ s) (hlast : s.lookahead.type ≠ .openbrace)
      (hopt : ¬ (m₂ = 0 ∧ n₂ = 1)) (hone : ¬ (m₂ = 1 ∧ n₂ = 1)) (hmerges : p₂.Merges p₂.peek) :
    Combined p m₁ n₁ m₂ n₂ true (p₂.parseIntervalExpression (fuel' + 1))

/-- The subexpression ends with an interval that takes over the bounds of both intervals. -/
def Absorbs (p : Parser) (m₁ n₁ m₂ n₂ : Nat) (grouped : Bool) : Prop :=
  p.Merges p.peek ∧ (grouped = true ∨ Merging (m₁ * m₂ : Nat) (n₁ * n₂ : Nat))

instance (p : Parser) (m₁ n₁ m₂ n₂ : Nat) (grouped : Bool) :
    Decidable (p.Absorbs m₁ n₁ m₂ n₂ grouped) := instDecidableAnd

/-- The automaton accepts the sums of the nested intervals as numbers of repetitions of the
subexpression; of the operand of the interval at its end where that one is changed. -/
def GoesNested (p : Parser) (whole inner : Set Addr) (exit : Addr) (a b : Int)
    (m₁ n₁ m₂ n₂ : Nat) (grouped : Bool) (result : Result) : Prop :=
  ∃ q, result = .ok q ∧
    if p.Absorbs m₁ n₁ m₂ n₂ grouped ∧ p.EndsAtLast then
      ∀ k, q.Goes inner exit k ↔ Summed (Repeated m₁ n₁ m₂ n₂) (Within a b) k
    else ∀ k, q.Goes whole p.peek k ↔ Repeated m₁ n₁ m₂ n₂ k

/-- The bounds whose products stand for the sums: they fit an `int`, no empty repetition is
lost and no number lies between the sums. -/
def Multiplied (p : Parser) (a b : Int) (m₁ n₁ m₂ n₂ : Nat) (grouped : Bool) : Prop :=
  if p.Absorbs m₁ n₁ m₂ n₂ grouped then
    p.EndsAtLast ∧ (grouped = false → Fits (n₁ * n₂ : Nat)) ∧ 1 ≤ m₁ * m₂ ∧
      Fits (a * (m₁ * m₂ : Nat)) ∧ Fits (b * (n₁ * n₂ : Nat)) ∧
      (b < 0 ∨ Contiguous a.toNat b.toNat m₁ n₁ m₂ n₂)
  else Fits (n₁ * n₂ : Nat) ∧ (grouped = true → 1 ≤ m₂) ∧ Gapless m₁ n₁ m₂ n₂

variable {m₁ n₁ m₂ n₂ : Nat} {grouped : Bool} {whole inner : Set Addr} {a b : Int}
  {result : Result}

/-- The bounds that adjacent braces are read as, if their products fit. -/
theorem parseIntervalExpression_twice {s : Parser} (hfirst : Braces (fuel + 2) p.pop.2 m₁ n₁ r)
    (hnext : r.lookahead.type = .openbrace) (hsecond : Braces (fuel + 1) r m₂ n₂ s)
    (hlast : s.lookahead.type ≠ .openbrace) (h₁ : m₁ ≤ n₁) (h₂ : m₂ ≤ n₂)
    (hhigh : Fits (n₁ * n₂ : Nat)) : Reads p.pop.2 s ∧
      p.parseIntervalExpression (fuel + 2) =
        s.applyInterval p.peek (m₁ * m₂ : Nat) (n₁ * n₂ : Nat) := by
  have hlow : Fits (m₁ * m₂ : Nat) := by
    have hmul := Nat.mul_le_mul h₁ h₂
    have hhigh' := hhigh.2
    exact ⟨by omega, by omega⟩
  rw [Nat.cast_mul] at hlow hhigh
  have hread := (readIntervals_twice_iff hfirst hnext hsecond hlast (by omega) (by omega)
    (by omega) (by omega)).mpr ⟨hlow, hhigh, rfl⟩
  rw [Nat.cast_mul, Nat.cast_mul]
  exact ⟨reads_readIntervals hread, parseIntervalExpression_eq hread⟩

/-- Adjacent braces are read only if the products of their bounds fit. -/
theorem fits_of_twice {s : Parser} (hfirst : Braces (fuel + 2) p.pop.2 m₁ n₁ r)
    (hnext : r.lookahead.type = .openbrace) (hsecond : Braces (fuel + 1) r m₂ n₂ s)
    (hlast : s.lookahead.type ≠ .openbrace)
    (hrun : p.parseIntervalExpression (fuel + 2) = .ok q) : Fits (n₁ * n₂ : Nat) := by
  obtain ⟨x, hread, -⟩ := bind_ok hrun
  have hread := (readIntervals_twice_iff hfirst hnext hsecond hlast (by omega) (by omega)
    (by omega) (by omega)).mp hread
  rw [Nat.cast_mul]
  exact hread.2.1

/-- What an interval with the multiplied bounds accepts of the operand of the one at its end. -/
theorem Group.goes_summed
    (hg : q.Group inner exit false (a * (m₁ * m₂ : Nat)) (b * (n₁ * n₂ : Nat))) (ha : 1 ≤ a) (hb : a ≤ b ∨ b < 0) (h₁ : m₁ ≤ n₁) (h₂ : m₂ ≤ n₂) (hpos : 1 ≤ m₁ * m₂) :
    (∀ k, q.Goes inner exit k ↔ Summed (Repeated m₁ n₁ m₂ n₂) (Within a b) k) ↔
      b < 0 ∨ Contiguous a.toNat b.toNat m₁ n₁ m₂ n₂ := by
  simp only [hg.goes_iff]
  exact merged_iff_summed ha hb h₁ h₂ hpos

/-- The subexpression is not changed, and what is built around it accepts the sums if there is
no gap. -/
theorem SubExpression.goes_alone {r : Parser} {m n : Nat}
    (hsub : p.SubExpression whole inner exit a b) (hr : Reads p.pop.2 r) (hfree : p.Merges p.peek → ¬ Merging m n) (hn : 1 ≤ n)
    (hrun : r.applyInterval p.peek m n = .ok q) : q.Goes whole p.peek k ↔ m ≤ k ∧ k ≤ n := by
  have hop := hsub.operand
  obtain ⟨t, hstack⟩ := applyInterval_pushes hr hfree (by omega) hrun
  have hadmits := hop.admits_iff hr hfree (by omega) hrun (k := k)
  have hpeek : q.peek = t := by simp [peek, hstack]
  rw [admits_push hop.1 hstack, Admitted, if_pos (by omega)] at hadmits
  rw [Goes, hpeek, hadmits]
  omega

/-- Where no interval takes over the bounds, they are not refused. -/
theorem SubExpression.isOk_alone {r : Parser} {m n : Nat}
    (hsub : p.SubExpression whole inner exit a b) (hr : Reads p.pop.2 r)
    (hfree : p.Merges p.peek → ¬ Merging m n) (hle : m ≤ n) :
    ∃ q, r.applyInterval p.peek m n = .ok q := by
  refine applyInterval_isOk hsub.operand.1 (fun _ => by omega) fun hmerges => hfree ?_
  obtain ⟨sc, tok, -, rfl⟩ := hr
  exact hmerges

/-- An automaton that is gone through once does not accept the sums of intervals that repeat. -/
theorem not_repeated_once (h₁ : m₁ ≤ n₁) (h₂ : m₂ ≤ n₂) (hn : 2 ≤ n₁ * n₂) :
    ¬ ∀ k, k = 1 ↔ Repeated m₁ n₁ m₂ n₂ k := by
  intro hall
  have hmost : Repeated m₁ n₁ m₂ n₂ (n₁ * n₂) :=
    ⟨n₂, h₂, le_rfl, (sumOf_iff h₁).mpr ⟨by
      rw [Nat.mul_comm]
      exact Nat.mul_le_mul_right n₂ h₁, (Nat.mul_comm n₁ n₂).le⟩⟩
  have hone := (hall _).mpr hmost
  omega

/-- Adjacent intervals behind an automaton that keeps its bounds. -/
theorem SubExpression.goesNested_backToBack_alone {s : Parser}
    (hsub : p.SubExpression whole inner exit a b) (hfirst : Braces (fuel + 2) p.pop.2 m₁ n₁ r)
    (hnext : r.lookahead.type = .openbrace) (hsecond : Braces (fuel + 1) r m₂ n₂ s)
    (hlast : s.lookahead.type ≠ .openbrace) (h₁ : m₁ ≤ n₁) (h₂ : m₂ ≤ n₂) (hn₁ : 1 ≤ n₁)
    (hn₂ : 1 ≤ n₂) (hfree : p.Merges p.peek → ¬ Merging (m₁ * m₂ : Nat) (n₁ * n₂ : Nat)) :
    (∃ q, p.parseIntervalExpression (fuel + 2) = .ok q ∧
        ∀ k, q.Goes whole p.peek k ↔ Repeated m₁ n₁ m₂ n₂ k) ↔
      Fits (n₁ * n₂ : Nat) ∧ Gapless m₁ n₁ m₂ n₂ := by
  have hn : 1 ≤ n₁ * n₂ := Nat.mul_pos hn₁ hn₂
  have hle := Nat.mul_le_mul h₁ h₂
  constructor
  · rintro ⟨q, hrun, hall⟩
    have hfits := fits_of_twice hfirst hnext hsecond hlast hrun
    obtain ⟨hreads, heq⟩ :=
      parseIntervalExpression_twice hfirst hnext hsecond hlast h₁ h₂ hfits
    simp only [hsub.goes_alone hreads hfree hn (heq ▸ hrun)] at hall
    exact ⟨hfits, (repeated_iff_range h₁ h₂).mp hall⟩
  · rintro ⟨hfits, hgap⟩
    obtain ⟨hreads, heq⟩ :=
      parseIntervalExpression_twice hfirst hnext hsecond hlast h₁ h₂ hfits
    obtain ⟨q, hrun⟩ := hsub.isOk_alone hreads hfree hle
    refine ⟨q, heq.trans hrun, fun k => ?_⟩
    rw [hsub.goes_alone hreads hfree hn hrun]
    exact (repeated_iff_range h₁ h₂).mpr hgap k

/-- Adjacent intervals whose product is taken over. -/
theorem SubExpression.goesNested_backToBack_taken {s : Parser}
    (hsub : p.SubExpression whole inner exit a b) (hfirst : Braces (fuel + 2) p.pop.2 m₁ n₁ r)
    (hnext : r.lookahead.type = .openbrace) (hsecond : Braces (fuel + 1) r m₂ n₂ s)
    (hlast : s.lookahead.type ≠ .openbrace) (h₁ : m₁ ≤ n₁) (h₂ : m₂ ≤ n₂)
    (hmerges : p.Merges p.peek) (hmerging : Merging (m₁ * m₂ : Nat) (n₁ * n₂ : Nat)) :
    (∃ q, p.parseIntervalExpression (fuel + 2) = .ok q ∧
        if p.EndsAtLast then ∀ k, q.Goes inner exit k ↔ Summed (Repeated m₁ n₁ m₂ n₂) (Within a b) k
        else ∀ k, q.Goes whole p.peek k ↔ Repeated m₁ n₁ m₂ n₂ k) ↔
      p.EndsAtLast ∧ Fits (n₁ * n₂ : Nat) ∧ 1 ≤ m₁ * m₂ ∧ Fits (a * (m₁ * m₂ : Nat)) ∧
        Fits (b * (n₁ * n₂ : Nat)) ∧ (b < 0 ∨ Contiguous a.toNat b.toNat m₁ n₁ m₂ n₂) := by
  have hzero := hsub.operand.1
  have hlower := hsub.lower
  have hupper := hsub.upper
  have hle : ((m₁ * m₂ : Nat) : Int) ≤ (n₁ * n₂ : Nat) := Int.ofNat_le.mpr (Nat.mul_le_mul h₁ h₂)
  have hmax := hmerging.1
  constructor
  · rintro ⟨q, hrun, hall⟩
    have hfits := fits_of_twice hfirst hnext hsecond hlast hrun
    obtain ⟨hreads, heq⟩ :=
      parseIntervalExpression_twice hfirst hnext hsecond hlast h₁ h₂ hfits
    rw [heq] at hrun
    obtain ⟨htaken, -⟩ := takenOver_of_merges hreads hmerges hzero hmerging hle hrun
    by_cases hends : p.EndsAtLast
    · rw [if_pos hends] at hall
      have hg := hsub.group hmerges hends
      have hgroup := hg.merge htaken hmerges hlower (by omega) hmax
      have hpos : 1 ≤ m₁ * m₂ := by
        by_contra hnone
        exact hgroup.goes_zero ((hall 0).mpr (summed_zero h₁ h₂ (by omega)))
      have hisOk := (hg.merge_isOk_iff hreads hmerges hlower (by omega) hmerging hle).mp ⟨q, hrun⟩
      rw [if_neg (by omega)] at hgroup hisOk
      exact ⟨hends, hfits, hpos, hisOk.1, hisOk.2,
        (hgroup.goes_summed hlower hupper h₁ h₂ hpos).mp hall⟩
    · rw [if_neg hends] at hall
      simp only [hsub.operand.goes_once htaken.ends] at hall
      refine absurd hall (not_repeated_once h₁ h₂ ?_)
      have hmore := hmerging.2
      omega
  · rintro ⟨hends, hfits, hpos, hlow, hhigh, hgap⟩
    obtain ⟨hreads, heq⟩ :=
      parseIntervalExpression_twice hfirst hnext hsecond hlast h₁ h₂ hfits
    have hg := hsub.group hmerges hends
    have hisOk := hg.merge_isOk_iff hreads hmerges hlower (by omega) hmerging hle
    rw [if_neg (by omega)] at hisOk
    obtain ⟨q, hrun⟩ := hisOk.mpr ⟨hlow, hhigh⟩
    obtain ⟨htaken, -⟩ := takenOver_of_merges hreads hmerges hzero hmerging hle hrun
    have hgroup := hg.merge htaken hmerges hlower (by omega) hmax
    rw [if_neg (by omega)] at hgroup
    refine ⟨q, heq.trans hrun, ?_⟩
    rw [if_pos hends]
    exact (hgroup.goes_summed hlower hupper h₁ h₂ hpos).mpr hgap

/-- The interval that is built for the inner bounds, found again behind the group. -/
theorem SubExpression.group_of_built {p₁ p₂ : Parser} (hsub : p.SubExpression whole inner exit a b)
    (hinner : Braces (fuel + 1) p.pop.2 m₁ n₁ r) (hend : r.lookahead.type ≠ .openbrace)
    (hbuilt : ¬ (m₁ = 0 ∧ n₁ = 1)) (hrun : p.parseIntervalExpression (fuel + 1) = .ok p₁)
    (hclosed : SameOperand p₁ p₂) (hmerges : p₂.Merges p₂.peek) (hsingle : ¬ p.Merges p.peek)
    (h₁ : m₁ ≤ n₁) (hn₁ : 1 ≤ n₁) : 1 ≤ m₁ ∧ p₂.Group whole p.peek false m₁ n₁ := by
  have hread := readIntervals_once hinner hend
  have hreads := reads_readIntervals hread
  rw [parseIntervalExpression_eq hread] at hrun
  have hfirst : Merging m₁ n₁ := by
    refine (once_or_merging (by omega) (by omega)).resolve_left fun honce => ?_
    -- nothing is built for `{1,1}`, so there is nothing to merge with
    have hsame : SameOperand p p₁ := by
      obtain ⟨hm, hn⟩ := honce
      rw [hm, hn] at hrun
      obtain ⟨sc, tok, -, rfl⟩ := hreads
      cases hrun
      exact ⟨rfl, rfl, rfl, rfl⟩
    exact hsingle (hsame.merges_iff.mp (hclosed.merges_iff.mp hmerges))
  have hgroup := (hsub.operand.group hreads hsingle hfirst (by omega) hrun).same hclosed
  have hm₁ : ¬ (m₁ : Int) ≤ 0 := of_decide_eq_false (hgroup.required hmerges)
  rw [if_neg hm₁, decide_eq_false hm₁] at hgroup
  exact ⟨by omega, hgroup⟩

/-- Merged with bounds that require a repetition, an interval has the products as its bounds. -/
theorem Group.goes_multiplied (hg : p.Group whole exit false m₁ n₁)
    (htaken : TakenOver p q m₂ n₂) (hmerges : p.Merges p.peek) (hlower : 1 ≤ m₁) (hn₁ : 1 ≤ n₁)
    (hpos : 1 ≤ m₂) (hn₂ : 1 ≤ n₂) :
    q.Goes whole exit k ↔ m₁ * m₂ ≤ k ∧ k ≤ n₁ * n₂ := by
  have hgroup := hg.merge htaken hmerges (by omega) (by omega) (by omega)
  rw [if_neg (by omega), ← Nat.cast_mul, ← Nat.cast_mul] at hgroup
  have hlow : 1 ≤ m₁ * m₂ := Nat.mul_pos hlower hpos
  have hhigh : 1 ≤ n₁ * n₂ := Nat.mul_pos hn₁ hn₂
  rw [hgroup.goes_iff, Within]
  omega

/-- The outer interval is merged with the one built for the inner one. -/
theorem SubExpression.goesNested_grouped_alone {p₁ p₂ s : Parser} {fuel' : Nat}
    (hsub : p.SubExpression whole inner exit a b) (hinner : Braces (fuel + 1) p.pop.2 m₁ n₁ r)
    (hend : r.lookahead.type ≠ .openbrace) (hbuilt : ¬ (m₁ = 0 ∧ n₁ = 1))
    (hrun₁ : p.parseIntervalExpression (fuel + 1) = .ok p₁) (hclosed : SameOperand p₁ p₂)
    (houter : Braces (fuel' + 1) p₂.pop.2 m₂ n₂ s) (hlast : s.lookahead.type ≠ .openbrace)
    (hopt : ¬ (m₂ = 0 ∧ n₂ = 1)) (hone : ¬ (m₂ = 1 ∧ n₂ = 1)) (hmerges : p₂.Merges p₂.peek)
    (hsingle : ¬ p.Merges p.peek) (h₁ : m₁ ≤ n₁) (h₂ : m₂ ≤ n₂) (hn₁ : 1 ≤ n₁) (hn₂ : 1 ≤ n₂) :
    (∃ q, p₂.parseIntervalExpression (fuel' + 1) = .ok q ∧
        ∀ k, q.Goes whole p.peek k ↔ Repeated m₁ n₁ m₂ n₂ k) ↔
      Fits (n₁ * n₂ : Nat) ∧ 1 ≤ m₂ ∧ Gapless m₁ n₁ m₂ n₂ := by
  have hread₂ := readIntervals_once houter hlast
  have hreads₂ := reads_readIntervals hread₂
  rw [parseIntervalExpression_eq hread₂]
  obtain ⟨hpos₁, hg⟩ :=
    hsub.group_of_built hinner hend hbuilt hrun₁ hclosed hmerges hsingle h₁ hn₁
  have hmerging : Merging m₂ n₂ := ⟨by omega, by omega, by omega⟩
  have hlower : (1 : Int) ≤ m₁ := by omega
  have hupper : (n₁ : Int) ≠ 0 := by omega
  have hle : (m₂ : Int) ≤ n₂ := by omega
  have hisOk := hg.merge_isOk_iff hreads₂ hmerges hlower hupper hmerging hle
  have htakes : ∀ {q : Parser}, s.applyInterval p₂.peek m₂ n₂ = .ok q → TakenOver p₂ q m₂ n₂ :=
    fun hrun => (takenOver_of_merges hreads₂ hmerges hg.nonzero hmerging hle hrun).1
  constructor
  · rintro ⟨q, hrun, hall⟩
    have hpos : 1 ≤ m₂ := by
      by_contra hnone
      have hgroup := hg.merge (htakes hrun) hmerges hlower hupper hmerging.1
      rw [if_pos (by omega)] at hgroup
      have hnothing : Repeated m₁ n₁ m₂ n₂ 0 :=
        ⟨0, by omega, by omega, (sumOf_iff h₁).mpr ⟨by omega, by omega⟩⟩
      exact hgroup.goes_zero ((hall 0).mpr hnothing)
    obtain ⟨-, hfits⟩ := hisOk.mp ⟨q, hrun⟩
    simp only [hg.goes_multiplied (htakes hrun) hmerges hpos₁ hn₁ hpos hn₂] at hall
    rw [Nat.cast_mul]
    exact ⟨hfits, hpos, (repeated_iff_range h₁ h₂).mp hall⟩
  · rintro ⟨hfits, hpos, hgap⟩
    rw [if_neg (by omega), ← Nat.cast_mul, ← Nat.cast_mul] at hisOk
    have hlow : Fits (m₁ * m₂ : Nat) := by
      have hmul := Nat.mul_le_mul h₁ h₂
      have hhigh := hfits.2
      exact ⟨by omega, by omega⟩
    obtain ⟨q, hrun⟩ := hisOk.mpr ⟨hlow, hfits⟩
    refine ⟨q, hrun, fun k => ?_⟩
    rw [hg.goes_multiplied (htakes hrun) hmerges hpos₁ hn₁ hpos hn₂]
    exact (repeated_iff_range h₁ h₂).mpr hgap k

/-- An interval that takes over the bounds of the inner interval and of the outer one. -/
theorem SubExpression.goesNested_grouped_taken {p₁ p₂ s : Parser} {fuel' : Nat}
    (hsub : p.SubExpression whole inner exit a b) (hinner : Braces (fuel + 1) p.pop.2 m₁ n₁ r)
    (hend : r.lookahead.type ≠ .openbrace) (hbuilt : ¬ (m₁ = 0 ∧ n₁ = 1))
    (hrun₁ : p.parseIntervalExpression (fuel + 1) = .ok p₁) (hclosed : SameOperand p₁ p₂)
    (houter : Braces (fuel' + 1) p₂.pop.2 m₂ n₂ s) (hlast : s.lookahead.type ≠ .openbrace)
    (hopt : ¬ (m₂ = 0 ∧ n₂ = 1)) (hone : ¬ (m₂ = 1 ∧ n₂ = 1)) (hmerges₂ : p₂.Merges p₂.peek)
    (hmerges : p.Merges p.peek) (h₁ : m₁ ≤ n₁) (h₂ : m₂ ≤ n₂) (hn₁ : 1 ≤ n₁) (hn₂ : 1 ≤ n₂) :
    (∃ q, p₂.parseIntervalExpression (fuel' + 1) = .ok q ∧
        if p.EndsAtLast then ∀ k, q.Goes inner exit k ↔ Summed (Repeated m₁ n₁ m₂ n₂) (Within a b) k
        else ∀ k, q.Goes whole p.peek k ↔ Repeated m₁ n₁ m₂ n₂ k) ↔
      p.EndsAtLast ∧ 1 ≤ m₁ * m₂ ∧ Fits (a * (m₁ * m₂ : Nat)) ∧ Fits (b * (n₁ * n₂ : Nat)) ∧
        (b < 0 ∨ Contiguous a.toNat b.toNat m₁ n₁ m₂ n₂) := by
  have hlower := hsub.lower
  have hupper := hsub.upper
  have hread₁ := readIntervals_once hinner hend
  have hreads₁ := reads_readIntervals hread₁
  rw [parseIntervalExpression_eq hread₁] at hrun₁
  have hread₂ := readIntervals_once houter hlast
  have hreads₂ := reads_readIntervals hread₂
  rw [parseIntervalExpression_eq hread₂]
  have hends₂ : SameEnds p p₂ :=
    (sameEnds_of_merges hreads₁ hmerges hsub.operand.1 (by omega) (by omega) (by omega)
      hrun₁).trans hclosed.ends
  have hzero₂ : p₂.peek ≠ 0 := by
    rw [hends₂.peek]
    exact hsub.operand.1
  have hmerging : Merging m₂ n₂ := ⟨by omega, by omega, by omega⟩
  have hle : (m₂ : Int) ≤ n₂ := by omega
  have hgroup : p.EndsAtLast →
      p₂.Group inner exit false (if (m₁ : Int) ≤ 0 then a else a * m₁) (b * n₁) := fun hends =>
    ((hsub.group hmerges hends).repeated hreads₁ hmerges hlower (by omega) (by omega) (by omega)
      (by omega) hrun₁).1.same hclosed
  have hmax : b * n₁ ≠ 0 := Int.mul_ne_zero (by omega) (by omega)
  have hmin : 1 ≤ if (m₁ : Int) ≤ 0 then a else a * m₁ := by
    split
    · exact hlower
    · exact Int.mul_pos (by omega) (by omega)
  have hfactors : a * m₁ * m₂ = a * (m₁ * m₂ : Nat) ∧ b * n₁ * n₂ = b * (n₁ * n₂ : Nat) := by
    rw [Nat.cast_mul, Nat.cast_mul, Int.mul_assoc, Int.mul_assoc]
    exact ⟨rfl, rfl⟩
  constructor
  · rintro ⟨q, hrun, hall⟩
    obtain ⟨htaken, -⟩ := takenOver_of_merges hreads₂ hmerges₂ hzero₂ hmerging hle hrun
    by_cases hends : p.EndsAtLast
    · rw [if_pos hends] at hall
      have hg := hgroup hends
      have hg' := hg.merge htaken hmerges₂ hmin hmax hmerging.1
      have hpos : 1 ≤ m₁ * m₂ := by
        by_contra hnone
        exact hg'.goes_zero ((hall 0).mpr (summed_zero h₁ h₂ (by omega)))
      have hpos₁ : 0 < m₁ := Nat.pos_of_mul_pos_right hpos
      have hpos₂ : 0 < m₂ := Nat.pos_of_mul_pos_left hpos
      have hisOk := (hg.merge_isOk_iff hreads₂ hmerges₂ hmin hmax hmerging hle).mp ⟨q, hrun⟩
      rw [if_neg (by omega), if_neg (by omega), hfactors.1, hfactors.2] at hg' hisOk
      exact ⟨hends, hpos, hisOk.1, hisOk.2, (hg'.goes_summed hlower hupper h₁ h₂ hpos).mp hall⟩
    · rw [if_neg hends] at hall
      simp only [hsub.operand.goes_once (hends₂.trans htaken.ends)] at hall
      refine absurd hall (not_repeated_once h₁ h₂ ?_)
      have hmul : n₂ ≤ n₁ * n₂ := Nat.le_mul_of_pos_left n₂ hn₁
      omega
  · rintro ⟨hends, hpos, hlow, hhigh, hgap⟩
    have hpos₁ : 0 < m₁ := Nat.pos_of_mul_pos_right hpos
    have hpos₂ : 0 < m₂ := Nat.pos_of_mul_pos_left hpos
    have hg := hgroup hends
    have hisOk := hg.merge_isOk_iff hreads₂ hmerges₂ hmin hmax hmerging hle
    rw [if_neg (by omega), if_neg (by omega), hfactors.1, hfactors.2] at hisOk
    obtain ⟨q, hrun⟩ := hisOk.mpr ⟨hlow, hhigh⟩
    obtain ⟨htaken, -⟩ := takenOver_of_merges hreads₂ hmerges₂ hzero₂ hmerging hle hrun
    have hg' := hg.merge htaken hmerges₂ hmin hmax hmerging.1
    rw [if_neg (by omega), if_neg (by omega), hfactors.1, hfactors.2] at hg'
    refine ⟨q, hrun, ?_⟩
    rw [if_pos hends]
    exact (hg'.goes_summed hlower hupper h₁ h₂ hpos).mpr hgap

/-- An inner interval is refused only if the bounds of the one it changes overflow. -/
theorem SubExpression.not_refused {e : ParseError} (hsub : p.SubExpression whole inner exit a b)
    (hinner : Braces (fuel + 1) p.pop.2 m₁ n₁ r) (hend : r.lookahead.type ≠ .openbrace)
    (hrun : p.parseIntervalExpression (fuel + 1) = .error e) (h₁ : m₁ ≤ n₁) (hn₂ : 1 ≤ n₂) :
    ¬ p.Multiplied a b m₁ n₁ m₂ n₂ true := by
  have hlower := hsub.lower
  have hupper := hsub.upper
  have hread := readIntervals_once hinner hend
  have hreads := reads_readIntervals hread
  rw [parseIntervalExpression_eq hread] at hrun
  have hbuild : (p.Merges p.peek → ¬ Merging m₁ n₁) → False := fun hfree => by
    obtain ⟨q, hok⟩ := hsub.isOk_alone hreads hfree h₁
    cases hrun.symm.trans hok
  intro hmultiplied
  by_cases hmerges : p.Merges p.peek
  · rw [Multiplied, if_pos ⟨hmerges, .inl rfl⟩] at hmultiplied
    obtain ⟨hends, -, hpos, hlow, hhigh, -⟩ := hmultiplied
    have hpos₁ : 0 < m₁ := Nat.pos_of_mul_pos_right hpos
    have hpos₂ : 0 < m₂ := Nat.pos_of_mul_pos_left hpos
    rw [Nat.cast_mul, ← Int.mul_assoc] at hlow hhigh
    by_cases hmerging : Merging m₁ n₁
    · have hisOk := (hsub.group hmerges hends).merge_isOk_iff hreads hmerges hlower (by omega)
        hmerging (by omega)
      rw [if_neg (by omega)] at hisOk
      obtain ⟨q, hok⟩ := hisOk.mpr ⟨hlow.of_mul (by omega), hhigh.of_mul (by omega)⟩
      cases hrun.symm.trans hok
    · exact hbuild fun _ => hmerging
  · exact hbuild fun hmerges' => absurd hmerges' hmerges

/-- **Combined intervals.** The automaton that is made of two intervals behind an operand
accepts the sums of the nested intervals exactly if the products of their bounds stand for them. -/
theorem combined_goes_iff (hsub : p.SubExpression whole inner exit a b)
    (hcombined : p.Combined m₁ n₁ m₂ n₂ grouped result) (h₁ : m₁ ≤ n₁) (h₂ : m₂ ≤ n₂)
    (hn₁ : 1 ≤ n₁) (hn₂ : 1 ≤ n₂) :
    p.GoesNested whole inner exit a b m₁ n₁ m₂ n₂ grouped result ↔
      p.Multiplied a b m₁ n₁ m₂ n₂ grouped := by
  cases hcombined with
  | backToBack hfirst hnext hsecond hlast =>
    by_cases htaken : p.Absorbs m₁ n₁ m₂ n₂ false
    · have hmerging := htaken.2.resolve_left Bool.false_ne_true
      have hiff := hsub.goesNested_backToBack_taken hfirst hnext hsecond hlast h₁ h₂ htaken.1
        hmerging
      simp only [GoesNested, Multiplied, htaken, true_and, if_true, hiff, true_imp_iff]
    · have hfree : p.Merges p.peek → ¬ Merging (m₁ * m₂ : Nat) (n₁ * n₂ : Nat) :=
        fun hmerges hmerging => htaken ⟨hmerges, .inr hmerging⟩
      have hiff := hsub.goesNested_backToBack_alone hfirst hnext hsecond hlast h₁ h₂ hn₁ hn₂ hfree
      simp only [GoesNested, Multiplied, htaken, false_and, if_false, hiff, Bool.false_eq_true,
        false_imp_iff, true_and]
  | refused hinner hend _ hrun =>
    refine iff_of_false ?_ (hsub.not_refused hinner hend hrun h₁ hn₂)
    rintro ⟨q, hq, -⟩
    cases hq
  | grouped hinner hend hbuilt hrun hclosed houter hlast hopt hone hmerges₂ =>
    by_cases hmerges : p.Merges p.peek
    · have htaken : p.Absorbs m₁ n₁ m₂ n₂ true := ⟨hmerges, .inl rfl⟩
      have hiff := hsub.goesNested_grouped_taken hinner hend hbuilt hrun hclosed houter hlast hopt
        hone hmerges₂ hmerges h₁ h₂ hn₁ hn₂
      simp only [GoesNested, Multiplied, htaken, true_and, if_true, hiff, Bool.true_eq_false,
        false_imp_iff]
    · have htaken : ¬ p.Absorbs m₁ n₁ m₂ n₂ true := fun h => hmerges h.1
      have hiff := hsub.goesNested_grouped_alone hinner hend hbuilt hrun hclosed houter hlast hopt
        hone hmerges₂ hmerges h₁ h₂ hn₁ hn₂
      simp only [GoesNested, Multiplied, htaken, false_and, if_false, hiff, true_imp_iff]

/-- Adjacent intervals of which the parser reads the given bounds. -/
theorem backToBack_of_reads (fuel : Nat) {m₁ n₁ m₂ n₂ : Nat}
    (hrun : ((p.pop.2.readBraces (fuel + 2)).bind fun x =>
      (x.2.2.readBraces (fuel + 1)).map fun y =>
        decide (x.1 = m₁ ∧ x.2.1 = n₁ ∧ x.2.2.lookahead.type = .openbrace ∧ y.1 = (m₂ : Int) ∧
          y.2.1 = (n₂ : Int) ∧ y.2.2.lookahead.type ≠ .openbrace)) = some true) :
    p.Combined m₁ n₁ m₂ n₂ false (p.parseIntervalExpression (fuel + 2)) := by
  obtain ⟨⟨m, n, r⟩, hfirst, hrun⟩ := Option.bind_eq_some_iff.mp hrun
  obtain ⟨⟨m', n', s⟩, hsecond, hcheck⟩ := Option.map_eq_some_iff.mp hrun
  obtain ⟨rfl, rfl, hnext, rfl, rfl, hlast⟩ := of_decide_eq_true hcheck
  exact .backToBack hfirst hnext hsecond hlast

/-- An interval of which the parser reads the given bounds, and another one behind the closing
parenthesis. -/
theorem grouped_of_reads (fuel : Nat) {m₁ n₁ m₂ n₂ : Nat}
    (hrun : ((p.pop.2.readBraces (fuel + 1)).bind fun x =>
      (p.parseIntervalExpression (fuel + 1)).toOption.bind fun p₁ =>
        (p₁.consumeToken.pop.2.readBraces (fuel + 1)).map fun y =>
          decide (x.1 = m₁ ∧ x.2.1 = n₁ ∧ x.2.2.lookahead.type ≠ .openbrace ∧ y.1 = (m₂ : Int) ∧
            y.2.1 = (n₂ : Int) ∧ y.2.2.lookahead.type ≠ .openbrace ∧ ¬ (m₁ = 0 ∧ n₁ = 1) ∧
            ¬ (m₂ = 0 ∧ n₂ = 1) ∧ ¬ (m₂ = 1 ∧ n₂ = 1) ∧
            p₁.consumeToken.Merges p₁.consumeToken.peek)) = some true) :
    ∃ result, p.Combined m₁ n₁ m₂ n₂ true result := by
  obtain ⟨⟨m, n, r⟩, hinner, hrun⟩ := Option.bind_eq_some_iff.mp hrun
  obtain ⟨p₁, hrun₁, hrun⟩ := Option.bind_eq_some_iff.mp hrun
  obtain ⟨⟨m', n', s⟩, houter, hcheck⟩ := Option.map_eq_some_iff.mp hrun
  obtain ⟨rfl, rfl, hend, rfl, rfl, hlast, hbuilt, hopt, hone, hmerges⟩ :=
    of_decide_eq_true hcheck
  have hclosed : SameOperand p₁ p₁.consumeToken := ⟨rfl, rfl, rfl, rfl⟩
  exact ⟨_, .grouped hinner hend hbuilt (ok_of_toOption hrun₁) hclosed houter hlast hopt hone
    hmerges⟩

/-- `(a{2,3}){1,2}` admits the sums of the nested intervals, and so does the interval in
`(a{2,3}){1,2}{2,2}` that takes over the bounds of the two behind it. -/
theorem combined_goes_iff_group :
    (∃ (inside : Set Addr) (result : Result),
      Combined (behindLetter (bytes "(a{2,3}){1,2}") 1) 2 3 1 2 true result ∧
        GoesNested (behindLetter (bytes "(a{2,3}){1,2}") 1) inside inside
          (behindLetter (bytes "(a{2,3}){1,2}") 1).peek 1 1 2 3 1 2 true result) ∧
      ∃ (p : Parser) (whole inner : Set Addr),
        (behindLetter (bytes "(a{2,3}){1,2}{2,2}") 1).parseIntervalExpression 12 = .ok p ∧
          p.consumeToken.Absorbs 1 2 2 2 false ∧
          p.consumeToken.Combined 1 2 2 2 false (p.consumeToken.parseIntervalExpression 12) ∧
          p.consumeToken.GoesNested whole inner
            (behindLetter (bytes "(a{2,3}){1,2}{2,2}") 1).peek 2 3 1 2 2 2 false
            (p.consumeToken.parseIntervalExpression 12) := by
  constructor
  · have hsingle : ¬ (behindLetter (bytes "(a{2,3}){1,2}") 1).Merges
        (behindLetter (bytes "(a{2,3}){1,2}") 1).peek := by decide +kernel
    obtain ⟨inside, hsub⟩ := subExpression_behindLetter (by decide) 1 hsingle
    obtain ⟨result, hcombined⟩ : ∃ result,
        Combined (behindLetter (bytes "(a{2,3}){1,2}") 1) 2 3 1 2 true result :=
      grouped_of_reads 11 (by decide +kernel)
    refine ⟨inside, result, hcombined, (combined_goes_iff hsub hcombined (by decide) (by decide)
      (by decide) (by decide)).mpr ?_⟩
    rw [Multiplied, if_neg fun h => hsingle h.1]
    decide
  · obtain ⟨p, whole, inner, hrun, hsub⟩ : ∃ (p : Parser) (whole inner : Set Addr),
        (behindLetter (bytes "(a{2,3}){1,2}{2,2}") 1).parseIntervalExpression 12 = .ok p ∧
          p.consumeToken.SubExpression whole inner
            (behindLetter (bytes "(a{2,3}){1,2}{2,2}") 1).peek (2 : Nat) (3 : Nat) :=
      subExpression_behindGroup (by decide) 1 11 (by decide) (by decide) (by decide)
        (by decide +kernel)
    have hchecks : ((behindLetter (bytes "(a{2,3}){1,2}{2,2}") 1).parseIntervalExpression
        12).toOption.map (fun q => decide (q.consumeToken.Absorbs 1 2 2 2 false) &&
          decide q.consumeToken.EndsAtLast &&
          decide (((q.consumeToken.pop.2.readBraces 12).bind fun x =>
            (x.2.2.readBraces 11).map fun y =>
              decide (x.1 = (1 : Nat) ∧ x.2.1 = (2 : Nat) ∧
                x.2.2.lookahead.type = .openbrace ∧ y.1 = ((2 : Nat) : Int) ∧
                y.2.1 = ((2 : Nat) : Int) ∧ y.2.2.lookahead.type ≠ .openbrace)) = some true)) =
        some true := by decide +kernel
    rw [hrun] at hchecks
    simp only [Except.toOption, Option.map_some, Option.some.injEq, Bool.and_eq_true,
      decide_eq_true_eq] at hchecks
    obtain ⟨⟨habsorbs, hends⟩, hreads⟩ := hchecks
    have hcombined := backToBack_of_reads 10 hreads
    refine ⟨p, whole, inner, hrun, habsorbs, hcombined, (combined_goes_iff hsub hcombined
      (by decide) (by decide) (by decide) (by decide)).mpr ?_⟩
    rw [Multiplied, if_pos habsorbs]
    exact ⟨hends, fun _ => by decide, by decide, by decide, by decide, .inr (by decide)⟩

/-- `a{2,2}{1,2}` admits three repetitions, which is no sum of twos. -/
theorem sum_of_twos_admits_three : ∃ (inside : Set Addr) (result : Result),
    SubExpression (behindLetter (bytes "a{2,2}{1,2}") 0) inside inside
        (behindLetter (bytes "a{2,2}{1,2}") 0).peek 1 1 ∧
      Combined (behindLetter (bytes "a{2,2}{1,2}") 0) 2 2 1 2 false result ∧
      (∃ q, result = .ok q ∧ q.Goes inside (behindLetter (bytes "a{2,2}{1,2}") 0).peek 3) ∧
      ¬ GoesNested (behindLetter (bytes "a{2,2}{1,2}") 0) inside inside
        (behindLetter (bytes "a{2,2}{1,2}") 0).peek 1 1 2 2 1 2 false result := by
  have hsingle : ¬ (behindLetter (bytes "a{2,2}{1,2}") 0).Merges
      (behindLetter (bytes "a{2,2}{1,2}") 0).peek := by decide +kernel
  obtain ⟨inside, hsub⟩ := subExpression_behindLetter (by decide) 0 hsingle
  obtain ⟨result, hcombined⟩ : ∃ result,
      Combined (behindLetter (bytes "a{2,2}{1,2}") 0) 2 2 1 2 false result :=
    ⟨_, backToBack_of_reads 10 (by decide +kernel)⟩
  refine ⟨inside, result, hsub, hcombined, ?_⟩
  cases hcombined with
  | backToBack hfirst hnext hsecond hlast =>
    have hfree : (behindLetter (bytes "a{2,2}{1,2}") 0).Merges
        (behindLetter (bytes "a{2,2}{1,2}") 0).peek → ¬ Merging (2 * 1 : Nat) (2 * 2 : Nat) :=
      fun h => absurd h hsingle
    obtain ⟨hreads, heq⟩ := parseIntervalExpression_twice hfirst hnext hsecond hlast (by decide)
      (by decide) (by decide)
    have hiff := hsub.goesNested_backToBack_alone hfirst hnext hsecond hlast (by decide)
      (by decide) (by decide) (by decide) hfree
    constructor
    · obtain ⟨q, hrun⟩ := hsub.isOk_alone hreads hfree (by decide)
      exact ⟨q, heq.trans hrun, (hsub.goes_alone hreads hfree (by decide) hrun).mpr (by decide)⟩
    · rintro ⟨q, hq, hall⟩
      rw [if_neg fun h => hsingle h.1.1] at hall
      exact absurd (hiff.mp ⟨q, hq, hall⟩).2 (by decide)

end Parser

end Recognizer
