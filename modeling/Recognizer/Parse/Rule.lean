import Recognizer.Source.Parser

/-!
# What holds along a run of the parser

The descent is made of moves: it reads the pattern, pushes the automata of
single operands and rewrites the top of the symbol stack. A relation that every
move keeps, and that survives alternatives and groups, holds between the state a
parsing routine starts in and the one it returns.
-/

namespace Recognizer

namespace Scanner

/-- Giving a byte back moves the reading head, never forward, and changes nothing else. -/
theorem unput_spec (s : Scanner) : s.unput.buffer = s.buffer ∧ s.unput.strBegin = s.strBegin ∧
    s.unput.seenNewline = s.seenNewline ∧ s.unput.readhead ≤ s.readhead := by
  unfold unput
  split
  · exact ⟨rfl, rfl, rfl, Nat.sub_le _ _⟩
  · exact ⟨rfl, rfl, rfl, le_rfl⟩

/-- Taking a byte leaves the pattern text as it is. -/
theorem nextChar_buffer (s : Scanner) : s.nextChar.2.buffer = s.buffer := by
  unfold nextChar
  dsimp only
  split <;> rfl

/-- Reading an escaped byte leaves the pattern text as it is. -/
theorem scanEscape_buffer (s : Scanner) : s.scanEscape.2.buffer = s.buffer := by
  unfold scanEscape
  split
  · dsimp only
    split
    · split <;> exact nextChar_buffer s
    · exact (unput_spec _).1.trans (nextChar_buffer s)
  · rfl

/-- Scanning one symbol leaves the pattern text as it is. -/
theorem regexScan_buffer (s : Scanner) : s.regexScan.buffer = s.buffer := by
  unfold regexScan
  split
  · rfl
  · dsimp only
    have hnext := nextChar_buffer s
    have hescape := (scanEscape_buffer s.nextChar.2).trans hnext
    repeat' split
    all_goals assumption

end Scanner

namespace Parser

/-- The moves of the parser outside alternatives, groups and intervals. -/
inductive Move : Parser → Parser → Prop where
  | read (p : Parser) (s : Scanner) (t : Token) (hbuffer : s.buffer = p.scanner.buffer) :
    Move p { p with scanner := s, lookahead := t }
  | separate (p : Parser) : Move p (p.push 0)
  | literal (p : Parser) (c : Int) {type : NfaType} (htype : type = .literal ∨ type = .any ∨
      type = .eolAnchor ∨ type = .bolAnchor) :
    Move p ({ p with ctrl := (p.ctrl.newLiteralNfa c type).2 }.push (p.ctrl.newLiteralNfa c type).1)
  | lliteral (p : Parser) (src : List Int) (hsrc : src ≠ []) :
    Move p ({ p with ctrl := (p.ctrl.newLliteralNfa src).2 }.push (p.ctrl.newLliteralNfa src).1)
  | range (p : Parser) (negate : Bool) :
    Move p ({ p with ctrl := (p.ctrl.newRangeNfa negate).2 }.push (p.ctrl.newRangeNfa negate).1)
  | setRange (p : Parser) (low high : Nat) (n : Addr) (negate : Bool) :
    Move p (p.updateRange low high n negate)
  | backreference (p : Parser) (hvalid : p.validateBackref = .ok ()) :
    Move p ({ p with ctrl := (p.ctrl.newBackreferenceNfa (p.lookahead.value - 1).toNat).2 }.push
      (p.ctrl.newBackreferenceNfa (p.lookahead.value - 1).toNat).1)
  | quantify {p q : Parser} {build : NFACtrl → Addr → Addr × NFACtrl}
      (hbuild : build = NFACtrl.newPosclosureNfa ∨ build = NFACtrl.newKleeneNfa ∨
        build = NFACtrl.newQmarkNfa)
      (hrun : p.pop.2.quantify build p.pop.1 = .ok q) : Move p q
  | unwrap (p : Parser) (hzero : p.pop.2.pop.1 = 0) : Move p (p.pop.2.pop.2.push p.pop.1)
  | join (p : Parser) : Move p p.concatenateTop

/-- What the parser does to an operand in front of an interval. -/
inductive IntervalMove : Parser → Parser → Prop where
  | count (p : Parser) : IntervalMove p { p with intervalCount := p.intervalCount + 1 }
  | keep (p : Parser) : IntervalMove p (p.pop.2.push p.pop.1)
  | merge {p q : Parser} (min max : Int) (hzero : p.pop.1 ≠ 0)
      (hrun : p.pop.2.mergeIntervals min max p.pop.1 = .ok (true, q)) : IntervalMove p q
  | interval (p : Parser) (min max : Int) (hzero : p.pop.1 ≠ 0) :
    IntervalMove p
      ((p.pop.2.addInterval p.pop.1 min max).2.push (p.pop.2.addInterval p.pop.1 min max).1)
  | drop (p : Parser) : IntervalMove p (p.pop.2.dropOperand p.pop.1)

/-- A relation that the moves outside intervals keep and that survives alternatives and groups. -/
structure PlainRule (R : Parser → Parser → Prop) : Prop where
  refl : ∀ p, R p p
  trans : ∀ {p q r}, R p q → R q r → R p r
  move : ∀ {p q}, Move p q → R p q
  alternative : ∀ {p q r s}, p.beginAlternative = .ok q → R q r → r.endAlternative = .ok s → R p s
  paren : ∀ {p q r}, R (p.updateOpenParenAccounting.2.consumeToken.push 0) q →
    q.closeParen p.updateOpenParenAccounting.1 p.updateOpenParenAccounting.2.inNewCgrp
      p.updateOpenParenAccounting.2.symbolStack.length = .ok r → R p r

/-- A relation that all moves keep and that survives alternatives and groups. -/
structure ParseRule (R : Parser → Parser → Prop) : Prop extends PlainRule R where
  intervalMove : ∀ {p q}, IntervalMove p q → R p q

/-- A sequence of two routines that returns has an intermediate result. -/
theorem bind_ok {α β : Type} {x : Except ParseError α} {f : α → Except ParseError β} {b : β}
    (h : (x >>= f) = .ok b) : ∃ a, x = .ok a ∧ f a = .ok b := by
  cases x with
  | error e => cases h
  | ok a => exact ⟨a, rfl, h⟩

section Reading

variable {p q r : Parser} {fuel : Nat}

/-- `q` is `p` after reading some of the pattern. -/
def Reads (p q : Parser) : Prop :=
  ∃ s t, s.buffer = p.scanner.buffer ∧ q = { p with scanner := s, lookahead := t }

/-- Doing nothing reads the pattern on. -/
theorem Reads.refl (p : Parser) : Reads p p := ⟨p.scanner, p.lookahead, rfl, rfl⟩

/-- Two stretches of reading make one. -/
theorem Reads.trans (h₁ : Reads p q) (h₂ : Reads q r) : Reads p r := by
  obtain ⟨s, t, hs, rfl⟩ := h₁
  obtain ⟨s', t', hs', rfl⟩ := h₂
  exact ⟨s', t', hs'.trans hs, rfl⟩

/-- `regex_parser_consume_token` only reads: it scans, folds the symbol and keeps it as the
lookahead. -/
theorem reads_consumeToken (p : Parser) : Reads p p.consumeToken :=
  ⟨_, _, Scanner.regexScan_buffer p.scanner, rfl⟩

/-- The token behind a new node is read before the node is pushed. -/
theorem reads_consumeToken_push (p : Parser) (nfa : Addr) :
    Reads (p.push nfa) (p.consumeToken.push nfa) :=
  ⟨_, _, Scanner.regexScan_buffer p.scanner, rfl⟩

/-- `parser_backtrack` only moves the scanner back. -/
theorem reads_backtrack (p : Parser) : Reads p p.backtrack := by
  refine ⟨_, _, ?_, rfl⟩
  rw [Scanner.regexScan_buffer, (Scanner.unput_spec _).1, (Scanner.unput_spec _).1]

/-- Escaping a symbol in the lookahead reads nothing and builds nothing. -/
theorem reads_setEscp (p : Parser) (on : Bool) : Reads p (p.setEscp on) :=
  ⟨{ p.scanner with escpSeq := on }, p.lookahead, rfl, rfl⟩

/-- Skipping blanks only reads, by induction on the loop's fuel. -/
theorem reads_discardWhitespace (hrun : p.discardWhitespace fuel = .ok q) : Reads p q := by
  induction fuel generalizing p with
  | zero => cases hrun
  | succ fuel ih =>
    rw [discardWhitespace] at hrun
    split at hrun
    · exact (reads_consumeToken p).trans (ih hrun)
    · cases hrun
      exact .refl _

/-- One digit of a bound is folded, or the digits have ended. -/
theorem convertToUint_cases {decPos interval n : Int}
    (hrun : convertToUint (fuel + 1) decPos interval p = .ok (n, q)) :
    (p.lookahead.type = .asciidigit ∧ ∃ state,
        foldDigit p.lookahead.value (decPos, interval) = some state ∧
          convertToUint fuel state.1 state.2 p.consumeToken = .ok (n, q)) ∨
      p.lookahead.type ≠ .asciidigit ∧ n = interval ∧ q = p := by
  rw [convertToUint] at hrun
  split at hrun
  · next hdigit =>
    split at hrun
    · cases hrun
    · next decPos interval hfold => exact .inl ⟨hdigit, (decPos, interval), hfold, hrun⟩
  · next hdigit =>
    cases hrun
    exact .inr ⟨hdigit, rfl, rfl⟩

/-- Reading one bound of an interval only reads, digit by digit. -/
theorem reads_convertToUint {decPos interval n : Int}
    (hrun : convertToUint fuel decPos interval p = .ok (n, q)) : Reads p q := by
  induction fuel generalizing p decPos interval with
  | zero => cases hrun
  | succ fuel ih =>
    rcases convertToUint_cases hrun with ⟨-, state, -, hrun⟩ | ⟨-, -, rfl⟩
    · exact (reads_consumeToken p).trans (ih hrun)
    · exact .refl _

/-- Reading a bound with the blanks around it only reads. -/
theorem reads_readBound {n : Int} (hrun : p.readBound fuel = .ok (n, q)) : Reads p q := by
  obtain ⟨p₁, h₁, hrun⟩ := bind_ok hrun
  obtain ⟨⟨m, p₂⟩, h₂, hrun⟩ := bind_ok hrun
  obtain ⟨p₃, h₃, hrun⟩ := bind_ok hrun
  cases hrun
  exact (reads_consumeToken p).trans ((reads_discardWhitespace h₁).trans
    ((reads_convertToUint h₂).trans (reads_discardWhitespace h₃)))

/-- Reading the upper bound only reads, whether a comma stands before it or not. -/
theorem reads_readUpperBound {n : Int} (hrun : p.readUpperBound fuel = .ok (n, q)) :
    Reads p q := by
  unfold readUpperBound at hrun
  split at hrun
  · exact reads_readBound hrun
  · cases hrun
    exact .refl _

/-- A round of the loop over adjacent intervals reads a pair of bounds and a closing brace, if
there is one, and then the next interval or nothing more. -/
theorem readIntervals_cases {min max min' max' : Int} {balance : Bool}
    (hrun : readIntervals (fuel + 1) min max p = .ok (min', max', balance, q)) :
    ∃ localMin localMax m n r s, p.readBound (fuel + 1) = .ok (localMin, r) ∧
      r.readUpperBound (fuel + 1) = .ok (localMax, s) ∧ combineBound min localMin = .ok m ∧
      combineBound max localMax = .ok n ∧
      ∃ u, u = (if s.lookahead.type = .closebrace then s.consumeToken else s) ∧
        (m = min' ∧ n = max' ∧ q = u ∨
          u.lookahead.type = .openbrace ∧
            readIntervals fuel m n u = .ok (min', max', balance, q)) := by
  rw [readIntervals] at hrun
  obtain ⟨⟨localMin, r⟩, hr, hrun⟩ := bind_ok hrun
  obtain ⟨⟨localMax, s⟩, hs, hrun⟩ := bind_ok hrun
  obtain ⟨m, hm, hrun⟩ := bind_ok hrun
  obtain ⟨n, hn, hrun⟩ := bind_ok hrun
  simp only [decide_eq_true_eq] at hrun
  refine ⟨localMin, localMax, m, n, r, s, hr, hs, hm, hn, _, rfl, ?_⟩
  generalize (if s.lookahead.type = .closebrace then s.consumeToken else s) = u at hrun ⊢
  split at hrun
  · cases hrun
    exact .inl ⟨rfl, rfl, rfl⟩
  · split at hrun
    · next hagain => exact .inr ⟨hagain.2, hrun⟩
    · cases hrun
      exact .inl ⟨rfl, rfl, rfl⟩

/-- The loop that reads a whole chain of intervals and multiplies their bounds only reads. -/
theorem reads_readIntervals {min max min' max' : Int} {balance : Bool}
    (hrun : readIntervals fuel min max p = .ok (min', max', balance, q)) : Reads p q := by
  induction fuel generalizing p min max with
  | zero => cases hrun
  | succ fuel ih =>
    obtain ⟨_, _, m, n, r, s, hr, hs, -, -, u, hu, hrest⟩ := readIntervals_cases hrun
    have hbounds : Reads p s := (reads_readBound hr).trans (reads_readUpperBound hs)
    have hreads : Reads p u := by
      rw [hu]
      split
      · exact hbounds.trans (reads_consumeToken s)
      · exact hbounds
    rcases hrest with ⟨-, -, rfl⟩ | ⟨-, hrun⟩
    · exact hreads
    · exact hreads.trans (ih hrun)

/-- The interval built last has new bounds and the operand is pushed back, or nothing has
changed. -/
theorem mergeIntervals_cases {min max : Int} {target : Addr} {merged : Bool}
    (hrun : p.mergeIntervals min max target = .ok (merged, q)) :
    (merged = true ∧ ∃ minRep maxRep, q = (p.modify p.prevInterval fun x =>
        { x with minRep := minRep, maxRep := maxRep }).push target) ∨ merged = false ∧ q = p := by
  unfold mergeIntervals at hrun
  dsimp only at hrun
  split at hrun
  · obtain ⟨minRep, -, hrun⟩ := bind_ok hrun
    obtain ⟨maxRep, -, hrun⟩ := bind_ok hrun
    cases hrun
    exact .inl ⟨rfl, minRep, maxRep, rfl⟩
  · cases hrun
    exact .inr ⟨rfl, rfl⟩

/-- The search for the end of a collation element only reads. -/
theorem reads_skipToDelimiter {delim : SymbolType} {prev prev' : Token}
    (hrun : skipToDelimiter delim fuel prev p = .ok (prev', q)) : Reads p q := by
  induction fuel generalizing p prev with
  | zero => cases hrun
  | succ fuel ih =>
    rw [skipToDelimiter] at hrun
    split at hrun
    · cases hrun
      exact .refl _
    · split at hrun
      · cases hrun
        exact .refl _
      · exact (reads_consumeToken p).trans (ih hrun)

/-- The loop that measures a literal run only reads: the node is made behind it. -/
theorem reads_scanLiteralRun {len len' : Nat} (hrun : scanLiteralRun fuel len p = .ok (len', q)) :
    Reads p q := by
  induction fuel generalizing p len with
  | zero => cases hrun
  | succ fuel ih =>
    have hback := reads_backtrack p
    have hback₂ := hback.trans (reads_backtrack _)
    rw [scanLiteralRun] at hrun
    split at hrun
    iterate 2
      split at hrun
      · cases hrun
        exact hback
      · exact (reads_consumeToken p).trans (ih hrun)
    iterate 4
      dsimp only at hrun
      split at hrun
      · cases hrun
        exact hback₂
      · cases hrun
        exact hback
    · cases hrun
      exact hback

end Reading

namespace PlainRule

variable {R : Parser → Parser → Prop} {fuel : Nat} {p q : Parser}

/-- A plain rule covers whatever only reads. -/
theorem reads (rule : PlainRule R) (h : Reads p q) : R p q := by
  obtain ⟨s, t, hbuffer, rfl⟩ := h
  exact rule.move (.read p s t hbuffer)

/-- Two moves with reading in front. -/
theorem step (rule : PlainRule R) {r : Parser} (h : R p q) (hm : Move q r) : R p r :=
  rule.trans h (rule.move hm)

/-- An operand that is popped is popped after reading, too. -/
theorem reads_pop (hreads : Reads p.pop.2 q) :
    ∃ p', Reads p p' ∧ p.symbolStack.headD 0 = p'.pop.1 ∧ p'.pop.2 = q := by
  obtain ⟨s, t, hbuffer, rfl⟩ := hreads
  exact ⟨{ p with scanner := s, lookahead := t }, ⟨s, t, hbuffer, rfl⟩, rfl, rfl⟩

/-- A collation element that is known changes the node under construction and nothing else. -/
theorem collation (rule : PlainRule R) {name : List Int} {n : Addr} {negate : Bool} {c : NFACtrl}
    (hrun : updateRangeWCollation p.ctrl name n negate = some c) : R p { p with ctrl := c } := by
  rw [updateRangeWCollation, Option.map_eq_some_iff] at hrun
  obtain ⟨e, -, rfl⟩ := hrun
  generalize e.2 = ranges
  induction ranges generalizing p with
  | nil => exact rule.refl p
  | cons r ranges ih =>
    exact rule.trans (rule.move (.setRange p r.1 r.2 n negate))
      (ih (p := p.updateRange r.1 r.2 n negate))

/-- The name of a collation element adds its ranges to the node. -/
theorem applyCollation (rule : PlainRule R) {delim : SymbolType} {name : List Int} {n : Addr}
    {negate : Bool} (hrun : p.applyCollation delim name n negate = .ok q) : R p q := by
  unfold Parser.applyCollation at hrun
  split at hrun
  · split at hrun
    · cases hrun
    · rename_i hsome
      cases hrun
      exact rule.collation hsome
  · cases hrun
    exact rule.refl _

/-- Opening a collation element only reads past the delimiter. -/
theorem openCollation (rule : PlainRule R) {prev : Token} {strStart : Nat}
    (hrun : p.openCollation = (prev, strStart, q)) : R p q := by
  have hread := rule.reads (reads_consumeToken p)
  unfold Parser.openCollation at hrun
  dsimp only at hrun
  split at hrun
  · cases hrun
    exact rule.trans (rule.step hread (.literal _ _ (Or.inl rfl)))
      (rule.reads (reads_consumeToken _))
  · cases hrun
    exact hread

/-- One item of a bracket, a symbol or a range, is a plain move. -/
theorem rangeBounds (rule : PlainRule R) {low : Int} {n : Addr} {negate : Bool}
    (hrun : p.parseRangeBounds low n negate = .ok q) : R p q := by
  have hread := rule.reads (reads_consumeToken p)
  have hset : ∀ lo hi, R p (p.consumeToken.updateRange lo hi n negate).consumeToken :=
    fun lo hi => rule.trans (rule.step hread (.setRange _ lo hi n negate))
      (rule.reads (reads_consumeToken _))
  unfold parseRangeBounds at hrun
  dsimp only at hrun
  split at hrun
  · split at hrun
    · split at hrun
      · cases hrun
      · cases hrun
        exact hset _ _
    · split at hrun
      · cases hrun
        exact rule.trans (rule.step (rule.step hread (.setRange _ _ _ n negate))
          (.setRange _ _ _ n negate)) (rule.reads (reads_consumeToken _))
      · cases hrun
  · split at hrun
    · split at hrun
      · split at hrun
        · cases hrun
          exact hset _ _
        · cases hrun
      · cases hrun
        exact hset _ _
    · cases hrun

/-- The list of a bracket expression: one item a round, by induction on the loop's fuel. -/
theorem matchingList (rule : PlainRule R) {len : Nat} {n : Addr} {negate : Bool}
    (hrun : parseMatchingList fuel len n negate p = .ok q) : R p q := by
  induction fuel generalizing p len with
  | zero => cases hrun
  | succ fuel ih =>
    have hread := rule.reads (reads_consumeToken p)
    rw [parseMatchingList] at hrun
    dsimp only at hrun
    split at hrun
    · cases hrun
      exact hread
    · split at hrun
      · rcases hopen : p.consumeToken.openCollation with ⟨prev, strStart, p₁⟩
        have hR₁ := rule.trans hread (rule.openCollation hopen)
        rw [hopen] at hrun
        obtain ⟨⟨prev', p₂⟩, h₂, hrun⟩ := bind_ok hrun
        have hR₂ := rule.trans hR₁ (rule.reads (reads_skipToDelimiter h₂))
        dsimp only at hrun
        split at hrun
        · cases hrun
        · split at hrun
          · cases hrun
            exact hR₂
          · obtain ⟨p₃, h₃, hrun⟩ := bind_ok hrun
            exact rule.trans (rule.trans hR₂ (rule.applyCollation h₃))
              (rule.trans (rule.reads (reads_consumeToken p₃)) (ih hrun))
      · split at hrun
        · cases hrun
          exact rule.trans hread (rule.reads (reads_backtrack _))
        · split at hrun
          · cases hrun
            exact hread
          · split at hrun
            · obtain ⟨p₁, h₁, hrun⟩ := bind_ok hrun
              exact rule.trans hread (rule.trans (rule.rangeBounds h₁) (ih hrun))
            · exact rule.trans (rule.step hread (.setRange _ _ _ n negate)) (ih hrun)

/-- A bracket expression as an operand: the node is made, filled and pushed. -/
theorem bracket (rule : PlainRule R) (hrun : p.bracketOperand fuel = .ok q) : R p q := by
  have hopen : R p ((p.push 0).setEscp false).consumeToken :=
    rule.trans (rule.move (.separate p))
      (rule.reads ((reads_setEscp _ false).trans (reads_consumeToken _)))
  unfold bracketOperand at hrun
  dsimp only at hrun
  generalize ((p.push 0).setEscp false).consumeToken = p₁ at hrun hopen
  generalize decide (p₁.lookahead.type = .circumflex) = negate at hrun
  have hnegate : R p (if negate = true then p₁.consumeToken else p₁) := by
    split
    · exact rule.trans hopen (rule.reads (reads_consumeToken p₁))
    · exact hopen
  generalize (if negate = true then p₁.consumeToken else p₁) = p₂ at hrun hnegate
  obtain ⟨p₃, h₃, hrun⟩ := bind_ok hrun
  have hlist := rule.trans (rule.step hnegate (.range p₂ negate)) (rule.matchingList h₃)
  split at hrun
  · cases hrun
  · have hclose := rule.trans hlist
      (rule.reads ((reads_setEscp p₃ true).trans (reads_consumeToken _)))
    split at hrun
    · cases hrun
    · rename_i hleft
      cases hrun
      exact rule.step hclose (.unwrap _ (by simpa using hleft))

/-- A run of literals as an operand: it is read, then its node is made and pushed. -/
theorem literalRun (rule : PlainRule R) {nfa : Addr}
    (hrun : p.parseLiteralRun fuel = .ok (nfa, q)) : R p (q.push nfa) := by
  obtain ⟨⟨len, p₁⟩, h₁, hrun⟩ := bind_ok hrun
  have hread := rule.reads ((reads_setEscp p false).trans ((reads_consumeToken _).trans
    ((reads_scanLiteralRun h₁).trans (reads_setEscp p₁ true))))
  dsimp only at hrun
  split at hrun
  · rename_i hlen
    cases hrun
    refine rule.trans (rule.step hread (.lliteral _ _ ?_))
      (rule.reads (reads_consumeToken_push _ _))
    simp only [ne_eq, List.map_eq_nil_iff, List.range_eq_nil]
    omega
  · cases hrun
    exact rule.trans (rule.step hread (.literal _ _ (Or.inl rfl)))
      (rule.reads (reads_consumeToken_push _ _))

/-- A dot or an anchor as an operand: one node is made and pushed. -/
theorem special (rule : PlainRule R) (p : Parser) {type : NfaType}
    (htype : type = .any ∨ type = .eolAnchor ∨ type = .bolAnchor) : R p (p.pushSpecial type) :=
  rule.trans (rule.move (.literal p p.lookahead.value (Or.inr htype)))
    (rule.reads (reads_consumeToken _))

end PlainRule

namespace ParseRule

variable {R : Parser → Parser → Prop} {fuel : Nat} {p q : Parser}

/-- One more interval. -/
theorem intervalStep (rule : ParseRule R) {r : Parser} (h : R p q) (hm : IntervalMove q r) :
    R p r :=
  rule.trans h (rule.intervalMove hm)

/-- An interval expression: its bounds are read, then its case is chosen by them. -/
theorem interval (rule : ParseRule R) (hrun : p.parseIntervalExpression fuel = .ok q) : R p q := by
  obtain ⟨⟨min, max, balance, p₁⟩, h₁, hrun⟩ := bind_ok hrun
  obtain ⟨p₂, hreads, htarget, rfl⟩ := PlainRule.reads_pop (reads_readIntervals h₁)
  have hR := rule.reads hreads
  rw [htarget] at hrun
  dsimp only at hrun
  split at hrun
  · split at hrun
    · split at hrun
      · cases hrun
      · split at hrun
        · obtain ⟨p₃, h₃, hrun⟩ := bind_ok hrun
          cases hrun
          exact rule.intervalStep (rule.step hR (.quantify (by simp) h₃)) (.count p₃)
        · split at hrun
          · cases hrun
            exact rule.intervalStep hR (.keep p₂)
          · split at hrun
            · cases hrun
            · rename_i hzero
              generalize (if min ≥ 0 then min else 0) = m at hrun
              obtain ⟨⟨merged, p₃⟩, h₃, hrun⟩ := bind_ok hrun
              cases merged with
              | true =>
                cases hrun
                exact rule.intervalStep hR (.merge m max hzero h₃)
              | false =>
                obtain ⟨-, rfl⟩ := (mergeIntervals_cases h₃).resolve_left fun h => by simp at h
                cases hrun
                exact rule.intervalStep hR (.interval p₂ m max hzero)
    · split at hrun
      · exact rule.step hR (.quantify (by simp) hrun)
      · split at hrun
        · split at hrun
          · cases hrun
          · rename_i hzero
            cases hrun
            exact rule.step (rule.intervalStep hR (.interval p₂ min max hzero)) (.join _)
        · split at hrun
          · exact rule.step hR (.quantify (by simp) hrun)
          · cases hrun
            exact rule.intervalStep hR (.drop p₂)
  · cases hrun

/-- The parsing routines keep a relation with a given budget. -/
structure Parses (R : Parser → Parser → Prop) (fuel : Nat) : Prop where
  quantifier : ∀ {p q}, parseQuantifierExpression fuel p = .ok q → R p q
  literal : ∀ {p q}, parseLiteralExpression fuel p = .ok q → R p q
  bracket : ∀ {p q}, parseBracketExpression fuel p = .ok q → R p q
  paren : ∀ {p q}, parseParenExpression fuel p = .ok q → R p q
  sub : ∀ {p q}, parseSubExpression fuel p = .ok q → R p q
  start : ∀ {p q}, regexParserStart fuel p = .ok q → R p q

/-- An operand followed by the rest of its branch, joined at the end. -/
theorem operand_then_rest (rule : ParseRule R) (ih : Parses R fuel) {first : Result} {p₀ : Parser}
    (hfirst : ∀ {r}, first = .ok r → R p₀ r)
    (hrun : (do
      let p ← first
      let p ← parseSubExpression fuel p
      .ok p.concatenateTop : Result) = .ok q) : R p₀ q := by
  obtain ⟨r, hr, hrun⟩ := bind_ok hrun
  obtain ⟨s, hs, hrun⟩ := bind_ok hrun
  cases hrun
  exact rule.step (rule.trans (hfirst hr) (ih.sub hs)) (.join s)

/-- The quantifiers behind one operand, given the rule for what follows them. -/
theorem quantifier_succ (rule : ParseRule R) (ih : Parses R fuel)
    (hrun : parseQuantifierExpression (fuel + 1) p = .ok q) : R p q := by
  have hread := rule.reads (reads_consumeToken p)
  have hquantify : ∀ {build}, build = NFACtrl.newPosclosureNfa ∨ build = NFACtrl.newKleeneNfa ∨
      build = NFACtrl.newQmarkNfa →
      (do
        let p ← p.consumeToken.pop.2.quantify build p.consumeToken.pop.1
        parseQuantifierExpression fuel p : Result) = .ok q → R p q := by
    intro build hbuild hrun
    obtain ⟨r, hr, hrun⟩ := bind_ok hrun
    exact rule.trans (rule.step hread (.quantify hbuild hr)) (ih.quantifier hrun)
  rw [parseQuantifierExpression] at hrun
  split at hrun
  · exact hquantify (Or.inl rfl) hrun
  · exact hquantify (Or.inr (Or.inl rfl)) hrun
  · exact hquantify (Or.inr (Or.inr rfl)) hrun
  · obtain ⟨r, hr, hrun⟩ := bind_ok hrun
    exact rule.trans (rule.interval hr) (ih.quantifier hrun)
  · obtain ⟨r, hr, hrun⟩ := bind_ok hrun
    obtain ⟨s, hs, hrun⟩ := bind_ok hrun
    exact rule.alternative hr (ih.sub hs) hrun
  · cases hrun
    exact rule.refl p

/-- A literal with what follows it, given the rule for the recursive calls. -/
theorem literal_succ (rule : ParseRule R) (ih : Parses R fuel)
    (hrun : parseLiteralExpression (fuel + 1) p = .ok q) : R p q := by
  rw [parseLiteralExpression] at hrun
  split at hrun
  · exact rule.trans (rule.special p (by simp)) (ih.quantifier hrun)
  · exact rule.trans (rule.special p (by simp)) (ih.quantifier hrun)
  · exact rule.trans (rule.special p (by simp)) (ih.quantifier hrun)
  · obtain ⟨⟨nfa, r⟩, hr, hrun⟩ := bind_ok hrun
    exact rule.trans (rule.literalRun hr) (ih.quantifier hrun)

/-- A group, its closing parenthesis and what follows, given the rule for the recursive calls. -/
theorem sub_succ (rule : ParseRule R) (ih : Parses R fuel)
    (hrun : parseSubExpression (fuel + 1) p = .ok q) : R p q := by
  rw [parseSubExpression] at hrun
  split at hrun
  iterate 6 exact rule.operand_then_rest ih ih.literal hrun
  · exact rule.trans (rule.move (.read p p.scanner _ rfl))
      (rule.operand_then_rest ih ih.literal hrun)
  · obtain ⟨r, hr, hrun⟩ := bind_ok hrun
    exact rule.trans (ih.paren hr) (ih.sub hrun)
  · exact rule.operand_then_rest ih ih.bracket hrun
  · obtain ⟨⟨⟩, hvalid, hrun⟩ := bind_ok hrun
    exact rule.trans (rule.trans (rule.move (.backreference p hvalid))
      (rule.reads (reads_consumeToken _))) (rule.operand_then_rest ih ih.quantifier hrun)
  · cases hrun
  · cases hrun
  · split at hrun
    · cases hrun
    · cases hrun
      exact rule.refl p
  · cases hrun
    exact rule.refl p

/-- **The rule of the descent.** -/
theorem parses (rule : ParseRule R) (fuel : Nat) : Parses R fuel := by
  induction fuel with
  | zero => constructor <;> intro p q hrun <;> cases hrun
  | succ fuel ih =>
    refine ⟨rule.quantifier_succ ih, rule.literal_succ ih, fun hrun => ?_, fun hrun => ?_,
      rule.sub_succ ih, fun hrun => ?_⟩
    · rw [parseBracketExpression] at hrun
      obtain ⟨r, hr, hrun⟩ := bind_ok hrun
      exact rule.trans (rule.bracket hr) (ih.quantifier hrun)
    · rw [parseParenExpression] at hrun
      obtain ⟨r, hr, hrun⟩ := bind_ok hrun
      obtain ⟨s, hs, hrun⟩ := bind_ok hrun
      exact rule.trans (rule.paren (ih.start hr) hs) (ih.quantifier hrun)
    · rw [regexParserStart] at hrun
      split at hrun
      · exact ih.sub hrun
      · cases hrun

end ParseRule

end Parser

/-- What an accepted pattern satisfies by computation. -/
theorem parsed_spec {pattern : List Int} {P : Parser → Bool}
    (h : (Parser.parseRegex fuel pattern false).toOption.map P = some true) :
    ∃ p, Parser.parseRegex fuel pattern false = .ok p ∧ P p = true := by
  obtain ⟨p, hp, hP⟩ := Option.map_eq_some_iff.mp h
  cases hparse : Parser.parseRegex fuel pattern false with
  | ok q =>
    rw [hparse] at hp
    cases hp
    exact ⟨p, rfl, hP⟩
  | error e =>
    rw [hparse] at hp
    cases hp

end Recognizer
