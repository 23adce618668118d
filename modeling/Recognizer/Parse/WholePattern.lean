import Recognizer.Parse.Blank
import Recognizer.Parse.Bracket
import Mathlib.Tactic.IntervalCases

/-!
# How much of the pattern the parser reads

`parse_sub_expression` returns at every token it does not know and leaves it to a caller
to read or reject. Outside parentheses nobody does: what stands directly behind `|` and is
no operand ends the parse, with the rest of the pattern unread.
-/

namespace Recognizer

namespace Parser

open Scanner

variable {p q r s : Parser} {text rest : List Int} {fuel n : Nat} {d : Int} {mark : Mark}

/-- Joining back to the separator reads nothing. -/
theorem idle_joinToSeparator (hrun : p.joinToSeparator fuel = .ok q) : Idle p q := by
  induction fuel generalizing p with
  | zero => cases hrun
  | succ fuel ih =>
    rw [joinToSeparator] at hrun
    split at hrun
    · cases hrun
      exact ⟨rfl, rfl, rfl⟩
    · dsimp only at hrun
      split at hrun
      · cases hrun
        exact ⟨rfl, rfl, rfl⟩
      · have hjoin := ih hrun
        exact ⟨hjoin.scanner, hjoin.lookahead, hjoin.parenCount⟩

/-- Joining a branch reads nothing. -/
theorem idle_joinBranch {right t : Addr} (hrun : p.joinBranch fuel right = .ok (t, q)) :
    Idle p q := by
  induction fuel generalizing p right with
  | zero => cases hrun
  | succ fuel ih =>
    rw [joinBranch] at hrun
    dsimp only at hrun
    split at hrun
    · cases hrun
      exact ⟨rfl, rfl, rfl⟩
    · have hjoin := ih hrun
      exact ⟨hjoin.scanner, hjoin.lookahead, hjoin.parenCount⟩

/-- The token behind `|` is read. -/
theorem idle_beginAlternative (hrun : p.beginAlternative = .ok q) : Idle p.consumeToken q := by
  obtain ⟨r, hr, hrun⟩ := bind_ok hrun
  have hjoin := idle_joinToSeparator hr
  cases hrun
  split <;> split <;> exact ⟨hjoin.scanner, hjoin.lookahead, hjoin.parenCount⟩

/-- Moving the last branch reads nothing. -/
theorem idle_moveLastBranch (hrun : p.moveLastBranch = .ok q) : Idle p q := by
  unfold moveLastBranch at hrun
  split at hrun
  · obtain ⟨⟨right, r⟩, hr, hrun⟩ := bind_ok hrun
    have hjoin := idle_joinBranch hr
    cases hrun
    exact ⟨hjoin.scanner, hjoin.lookahead, hjoin.parenCount⟩
  · cases hrun
    exact ⟨rfl, rfl, rfl⟩

/-- Building the alternation reads nothing. -/
theorem idle_pushAlternation (hrun : p.pushAlternation = .ok q) : Idle p q := by
  unfold pushAlternation at hrun
  dsimp only at hrun
  split at hrun
  · cases hrun
  · cases hrun
    split <;> exact ⟨rfl, rfl, rfl⟩

/-- The end of an alternation reads nothing. -/
theorem idle_endAlternative (hrun : p.endAlternative = .ok q) : Idle p q := by
  obtain ⟨r, hr, hrun⟩ := bind_ok hrun
  exact (idle_moveLastBranch hr).trans (idle_pushAlternation hrun)

/-- A marker of a group is built without reading. -/
theorem trackCaptureGroup_reads (p : Parser) (isEnd : Bool) :
    Idle p (p.trackCaptureGroup isEnd).2 := by
  unfold trackCaptureGroup
  dsimp only
  cases p.cgrpHasBackref p.currentCgrp <;> cases isEnd <;> exact ⟨rfl, rfl, rfl⟩

/-- A group is entered. -/
theorem updateOpenParenAccounting_reads (p : Parser) :
    p.updateOpenParenAccounting.2.scanner = p.scanner ∧
      p.updateOpenParenAccounting.2.lookahead = p.lookahead ∧
      p.updateOpenParenAccounting.2.parenCount = p.parenCount + 1 := by
  have htrack := trackCaptureGroup_reads { p with
    inNewCgrp := true
    parenCount := p.parenCount + 1
    cgrpCount := p.cgrpCount + 1
    currentCgrp := p.cgrpCount + 1
    parenStack := Function.update p.parenStack p.parenIdx (p.cgrpCount + 1)
    parenIdx := p.parenIdx + 1 } false
  exact ⟨htrack.scanner, htrack.lookahead, htrack.parenCount⟩

/-- Joining what a group pushed reads nothing. -/
theorem idle_joinGroup (n : Nat) (right : Addr) (p : Parser) : Idle p (joinGroup n right p).2 := by
  induction n generalizing right p with
  | zero => exact ⟨rfl, rfl, rfl⟩
  | succ n ih =>
    have hjoin := ih (p.pop.2.ctrl.concatenateNfa p.pop.1 right).1
      { p.pop.2 with ctrl := (p.pop.2.ctrl.concatenateNfa p.pop.1 right).2 }
    exact ⟨hjoin.scanner, hjoin.lookahead, hjoin.parenCount⟩

/-- Leaving a group reads nothing. -/
theorem idle_leaveGroup (p : Parser) (hasBackref : Bool) (n : Nat) :
    Idle p (p.leaveGroup hasBackref n) := by
  have hjoin := idle_joinGroup (p.pop.2.symbolStack.length - n) p.pop.1 p.pop.2
  unfold leaveGroup
  dsimp only
  split <;> exact ⟨hjoin.scanner, hjoin.lookahead, hjoin.parenCount⟩

/-- A group is left at its closing parenthesis. -/
theorem closeParen_reads {n : Int} {b : Bool} {k : Nat} (hrun : p.closeParen n b k = .ok q) :
    p.lookahead.type = .closeparen ∧ q.scanner = p.consumeToken.scanner ∧
      q.lookahead = p.consumeToken.lookahead ∧ q.parenCount = p.parenCount - 1 := by
  unfold closeParen at hrun
  split at hrun
  · rename_i hclose
    split at hrun
    · cases hrun
    · have htrack := trackCaptureGroup_reads p true
      dsimp only at hrun
      cases hrun
      have hleave := idle_leaveGroup
        ((p.trackCaptureGroup true).2.updateCloseParenAccounting n b) (p.trackCaptureGroup true).1 k
      refine ⟨hclose, hleave.scanner.trans ?_, hleave.lookahead.trans ?_,
        hleave.parenCount.trans ?_⟩
      · simp [updateCloseParenAccounting, consumeToken, htrack.scanner]
      · simp [updateCloseParenAccounting, consumeToken, htrack.scanner]
      · simp [updateCloseParenAccounting, consumeToken, htrack.parenCount]
  · cases hrun

/-- Every routine leaves as many groups as it enters. -/
theorem parenRule : ParseRule fun p q => q.parenCount = p.parenCount where
  refl _ := rfl
  trans h₁ h₂ := h₂.trans h₁
  move hm := by
    cases hm with
    | read | separate | literal | lliteral | range | setRange | backreference | unwrap | join => rfl
    | quantify _ hrun => exact (idle_quantify hrun).parenCount
  intervalMove hm := by
    cases hm with
    | count | keep | interval => rfl
    | merge _ _ _ hrun => exact (idle_mergeIntervals hrun).parenCount
    | drop => exact (idle_dropOperand _ _).parenCount
  alternative hbegin hinner hend :=
    (idle_endAlternative hend).parenCount.trans
      (hinner.trans (idle_beginAlternative hbegin).parenCount)
  paren {p q r} hinner hclose := by
    obtain ⟨-, -, -, hcount⟩ := closeParen_reads hclose
    obtain ⟨-, -, hopen⟩ := updateOpenParenAccounting_reads p
    rw [hcount, hinner]
    show p.updateOpenParenAccounting.2.parenCount - 1 = p.parenCount
    omega

/-! ## The descent -/

/-- A token with a character of its own is the lookahead of that character. -/
theorem At.of_charOf {k : Int} (hat : At p text) (hk : charOf p.lookahead.type = some k) :
    ∃ before rest, text = k :: rest ∧ p.scanner.Between (k :: before) rest ∧
      p.scanner.seenNewline = false ∧ rest ≠ [] := by
  obtain ⟨ht, -, hl⟩ := hat
  cases hl with
  | @char before rest c hpos hseen hends _ htype =>
    have hne := hpos.ne_nil ht (by rintro rfl; simp [endsText] at hends)
    rw [htype] at hk
    rcases typeOf_charType c with h | h | h
    · simp [h, charOf] at hk
    · simp [h, charOf] at hk
    · obtain rfl : c = k := Option.some.inj (h.symm.trans hk)
      exact ⟨before, rest, rfl, hpos, hseen, hne⟩
  | @escape _ _ e _ _ _ htype =>
    rw [htype] at hk
    cases hd : isdigit e <;> simp [hd, charOf] at hk
  | stop _ _ _ htoken => simp [htoken, charOf] at hk
  | dangling _ _ htoken => simp [htoken, charOf] at hk
  | newline _ _ _ htoken => simp [htoken, charOf] at hk

/-- The text behind a token with a character of its own. -/
theorem At.behind {k : Int} (hat : At p text) (hk : charOf p.lookahead.type = some k) :
    ∃ rest, text = k :: rest ∧ At p.consumeToken rest := by
  obtain ⟨before, rest, rfl, hpos, hseen, hne⟩ := hat.of_charOf hk
  exact ⟨rest, rfl, at_consumeToken hpos hat.terminated hat.escp hseen hne⟩

/-- A stray token has a character of its own. -/
theorem charOf_of_stray {t : SymbolType} (ht : t.stray = true) :
    ∃ k, charOf t = some k ∧ charType k = t := by
  cases t with
  | kleene => exact ⟨42, rfl, rfl⟩
  | plus => exact ⟨43, rfl, rfl⟩
  | qmark => exact ⟨63, rfl, rfl⟩
  | openbrace => exact ⟨123, rfl, rfl⟩
  | pipe => exact ⟨124, rfl, rfl⟩
  | _ => cases ht

/-- A stray token is told by its character. -/
theorem At.stray_iff (hat : At p text) :
    p.lookahead.type.stray = true ↔ (charType (text.headD 0)).stray = true := by
  constructor
  · intro hstray
    obtain ⟨k, hk, hchar⟩ := charOf_of_stray hstray
    obtain ⟨rest, rfl, -⟩ := hat.behind hk
    rwa [List.headD_cons, hchar]
  · obtain ⟨-, -, hl⟩ := hat
    intro hstray
    cases hl with
    | char _ _ _ _ htype => rwa [htype]
    | escape => cases hstray
    | @stop _ _ c _ _ hc => rcases hc with rfl | rfl <;> cases hstray
    | dangling => cases hstray
    | newline => cases hstray

/-- A `|` outside parentheses that stands directly in front of a stray token is marked. -/
def strayMark : Mark where
  marks d c r := decide (c = 124 ∧ d = 0) && (charType (r.headD 0)).stray
  not_plain h := by
    simp only [Bool.and_eq_true, decide_eq_true_eq] at h
    rw [h.1.1]
    rfl

/-- How far the parser has read, by some characters at least: up to a token that belongs to a
caller, or to a stray token behind `|`. -/
inductive Outcome (n : Nat) (d : Int) (text : List Int) (q : Parser) : Prop where
  | reads {rest : List Int} (hat : At q rest) (hlen : rest.length + n ≤ text.length)
      (hstray : q.lookahead.type.stray = false)
      (hsame : ∀ mark, meets mark .outside d rest = true → meets mark .outside d text = true)
  | strays (hstray : q.lookahead.type.stray = true)
      (hover : d = 0 → meets strayMark .outside d text = true)

/-- What is read behind a shorter rest is read behind the text. -/
theorem Outcome.after (h : Outcome 0 d rest q) (hlen : rest.length + n ≤ text.length)
    (hsame : ∀ mark, meets mark .outside d rest = true → meets mark .outside d text = true) :
    Outcome n d text q := by
  cases h with
  | reads hat hlen' hstray hsame' =>
    exact .reads hat (by omega) hstray fun mark h => hsame mark (hsame' mark h)
  | strays hstray hover => exact .strays hstray fun hd => hsame _ (hover hd)

/-- What reads nothing keeps the outcome. -/
theorem Outcome.idle (h : Outcome n d text q) (hidle : Idle q r) : Outcome n d text r := by
  cases h with
  | reads hat hlen hstray hsame =>
    exact .reads (hat.idle hidle) hlen (by rwa [hidle.lookahead]) hsame
  | strays hstray hover => exact .strays (by rwa [hidle.lookahead]) hover

/-- What `parse_sub_expression` returns at. -/
def Returns (q : Parser) : Prop :=
  q.lookahead.type = .eof ∨ q.lookahead.type = .closeparen ∧ q.parenCount ≠ 0 ∨
    q.lookahead.type.stray = true

/-- A stray token is left alone. -/
theorem sub_of_stray (hstray : p.lookahead.type.stray = true)
    (hrun : parseSubExpression fuel p = .ok q) : q = p := by
  cases fuel with
  | zero => cases hrun
  | succ fuel =>
    rw [parseSubExpression] at hrun
    split at hrun
    all_goals first
      | (rename_i htype; rw [htype] at hstray; cases hstray)
      | skip
    cases hrun
    rfl

/-- The parsing routines read as `meets` does. -/
structure ReadsOn (fuel : Nat) : Prop where
  quantifier : ∀ {p q text}, At p text → parseQuantifierExpression fuel p = .ok q →
    Outcome 0 p.parenCount text q
  literal : ∀ {p q text t}, At { p with lookahead := t } text → t.type.structural = false →
    (p.lookahead = t ∨ p.lookahead.type = .alpha) → parseLiteralExpression fuel p = .ok q →
    Outcome 1 p.parenCount text q
  bracket : ∀ {p q text}, At p text → p.lookahead.type = .openbracket →
    parseBracketExpression fuel p = .ok q → Outcome 1 p.parenCount text q
  paren : ∀ {p q text}, At p text → p.lookahead.type = .openparen →
    parseParenExpression fuel p = .ok q → Outcome 1 p.parenCount text q
  sub : ∀ {p q text}, At p text → p.lookahead.type.stray = false →
    parseSubExpression fuel p = .ok q → Outcome 0 p.parenCount text q ∧ Returns q
  start : ∀ {p q text}, At p text → regexParserStart fuel p = .ok q →
    Outcome 0 p.parenCount text q ∧ Returns q

/-- An operand or a quantifier is passed, then quantifiers are read. -/
theorem ReadsOn.passes_then (ih : ReadsOn fuel) (hpass : Passes p r) (hat : At p text)
    (hrun : parseQuantifierExpression fuel r = .ok q) : Outcome 0 p.parenCount text q := by
  obtain ⟨rest, hat', hlen, hsame⟩ := hpass.text hat
  have hout := ih.quantifier hat' hrun
  rw [hpass.parenCount] at hout
  exact hout.after hlen fun mark => hsame mark _

/-- A token is an operand, then quantifiers are read. -/
theorem ReadsOn.token_then (ih : ReadsOn fuel) (htype : p.lookahead.type.structural = false)
    (hvalue : p.lookahead.type = .alpha → p.lookahead.value ≠ 10) (hidle : Idle p.consumeToken r)
    (hat : At p text) (hrun : parseQuantifierExpression fuel r = .ok q) :
    Outcome 1 p.parenCount text q := by
  obtain ⟨rest, hat', hlen, hsame⟩ := hat.pass htype hvalue
  have hout := ih.quantifier (hat'.idle hidle) hrun
  rw [hidle.parenCount] at hout
  exact hout.after hlen fun mark => hsame mark _

/-- At a bar outside brackets a mark is met there or behind it. -/
theorem meets_pipe (d : Int) : meets mark .outside d (124 :: rest) =
    (mark.marks d 124 rest || meets mark .outside d rest) := by
  cases rest <;>
  · conv_lhs => rw [meets]
    rw [if_neg (by decide), if_neg (by decide), if_neg (by decide), if_neg (by decide),
      if_neg (by decide)]

/-- The quantifiers, intervals and bars behind an operand read on in the text. -/
theorem quantifier_reads (ih : ReadsOn fuel) (hat : At p text)
    (hrun : parseQuantifierExpression (fuel + 1) p = .ok q) : Outcome 0 p.parenCount text q := by
  have hquantify : ∀ {build}, p.lookahead.type = .plus ∨ p.lookahead.type = .kleene ∨
      p.lookahead.type = .qmark →
      (do
        let p ← p.consumeToken.pop.2.quantify build p.consumeToken.pop.1
        parseQuantifierExpression fuel p : Result) = .ok q → Outcome 0 p.parenCount text q := by
    intro build htype hrun
    obtain ⟨r, hr, hrun⟩ := bind_ok hrun
    have hidle := idle_quantify hr
    have hpass : Passes p p.consumeToken := passes_consumeToken
      (by rcases htype with h | h | h <;> rw [h] <;> rfl)
      fun h => by rcases htype with h' | h' | h' <;> simp [h'] at h
    exact ih.passes_then
      (hpass.trans (.idle ⟨hidle.scanner, hidle.lookahead, hidle.parenCount⟩)) hat hrun
  rw [parseQuantifierExpression] at hrun
  split at hrun
  · rename_i htype
    exact hquantify (Or.inl htype) hrun
  · rename_i htype
    exact hquantify (Or.inr (Or.inl htype)) hrun
  · rename_i htype
    exact hquantify (Or.inr (Or.inr htype)) hrun
  · rename_i htype
    obtain ⟨r, hr, hrun⟩ := bind_ok hrun
    exact ih.passes_then (passes_parseIntervalExpression htype hr) hat hrun
  · rename_i htype
    obtain ⟨rest, rfl, hbehind⟩ := hat.behind (k := 124) (by rw [htype]; rfl)
    obtain ⟨r, hr, hrun⟩ := bind_ok hrun
    obtain ⟨s, hs, hrun⟩ := bind_ok hrun
    have hbegin := idle_beginAlternative hr
    have hat' := hbehind.idle hbegin
    have hend := idle_endAlternative hrun
    cases hstray : r.lookahead.type.stray with
    | true =>
      -- The token behind `|` is left alone, and ends every branch of the descent.
      obtain rfl := sub_of_stray hstray hs
      refine .strays (by rwa [hend.lookahead]) fun hd => ?_
      rw [hd, meets_pipe, Bool.or_eq_true_iff]
      exact Or.inl (Bool.and_eq_true_iff.mpr ⟨rfl, hat'.stray_iff.mp hstray⟩)
    | false =>
      have hout := (ih.sub hat' hstray hs).1
      rw [hbegin.parenCount] at hout
      refine (hout.idle hend).after (Nat.le_succ _) fun mark h => ?_
      rw [meets_pipe, h, Bool.or_true]
  · rename_i hplus hkleene hqmark hbrace hpipe
    cases hrun
    refine .reads hat le_rfl ?_ fun _ h => h
    cases htype : p.lookahead.type with
    | kleene => exact absurd htype hkleene
    | plus => exact absurd htype hplus
    | qmark => exact absurd htype hqmark
    | openbrace => exact absurd htype hbrace
    | pipe => exact absurd htype hpipe
    | _ => rfl

/-- A literal with what follows it reads at least one character. -/
theorem literal_reads (ih : ReadsOn fuel) {t : Token} (hat : At { p with lookahead := t } text)
    (htype : t.type.structural = false) (htoken : p.lookahead = t ∨ p.lookahead.type = .alpha)
    (hrun : parseLiteralExpression (fuel + 1) p = .ok q) : Outcome 1 p.parenCount text q := by
  have hspecial : ∀ {type}, p.lookahead.type ≠ .alpha →
      parseQuantifierExpression fuel (p.pushSpecial type) = .ok q →
      Outcome 1 p.parenCount text q := by
    intro type halpha hrun
    obtain rfl := htoken.resolve_right halpha
    have hidle : Idle p.consumeToken (p.pushSpecial type) := ⟨rfl, rfl, rfl⟩
    exact ih.token_then htype (fun h => absurd h halpha) hidle hat hrun
  rw [parseLiteralExpression] at hrun
  split at hrun
  · rename_i h
    exact hspecial (by simp [h]) hrun
  · rename_i h
    exact hspecial (by simp [h]) hrun
  · rename_i h
    exact hspecial (by simp [h]) hrun
  · obtain ⟨⟨nfa, r⟩, hr, hrun⟩ := bind_ok hrun
    obtain ⟨rest, hat', hlen, hparen, hsame⟩ := hat.literalRun htype hr
    have hout := ih.quantifier (hat'.idle (q := r.push nfa) ⟨rfl, rfl, rfl⟩) hrun
    rw [show (r.push nfa).parenCount = p.parenCount from hparen] at hout
    exact hout.after hlen fun mark => hsame mark _

/-- A bracket expression with what follows it reads at least one character. -/
theorem bracket_reads (ih : ReadsOn fuel) (hat : At p text)
    (htype : p.lookahead.type = .openbracket)
    (hrun : parseBracketExpression (fuel + 1) p = .ok q) : Outcome 1 p.parenCount text q := by
  rw [parseBracketExpression] at hrun
  obtain ⟨r, hr, hrun⟩ := bind_ok hrun
  obtain ⟨rest, hat', hlen, hsame⟩ := hat.bracketOperand htype hr
  have hout := ih.quantifier hat' hrun
  rw [parenRule.bracket hr] at hout
  exact hout.after hlen fun mark => hsame mark _

/-- Behind an opening parenthesis one more is open. -/
theorem meets_open : meets mark .outside d (40 :: rest) = meets mark .outside (d + 1) rest := by
  cases rest <;>
  · conv_lhs => rw [meets]
    rw [if_neg (by decide), if_neg (by decide), if_neg (by decide), if_pos rfl]

/-- Behind a closing parenthesis one less is open. -/
theorem meets_close : meets mark .outside d (41 :: rest) = meets mark .outside (d - 1) rest := by
  cases rest <;>
  · conv_lhs => rw [meets]
    rw [if_neg (by decide), if_neg (by decide), if_neg (by decide), if_neg (by decide),
      if_pos rfl]

/-- A group with what follows it reads at least one character. -/
theorem paren_reads (ih : ReadsOn fuel) (hat : At p text) (htype : p.lookahead.type = .openparen)
    (hrun : parseParenExpression (fuel + 1) p = .ok q) : Outcome 1 p.parenCount text q := by
  obtain ⟨rest, rfl, hbehind⟩ := hat.behind (k := 40) (by rw [htype]; rfl)
  rw [parseParenExpression] at hrun
  obtain ⟨hscanner, -, hcount⟩ := updateOpenParenAccounting_reads p
  rcases hopen : p.updateOpenParenAccounting with ⟨saved, p₁⟩
  rw [hopen] at hrun hscanner hcount
  dsimp only at hrun hscanner hcount
  obtain ⟨r, hr, hrun⟩ := bind_ok hrun
  obtain ⟨s, hs, hrun⟩ := bind_ok hrun
  obtain ⟨hclose, hsscanner, hslookahead, hscount⟩ := closeParen_reads hs
  have hat' : At (p₁.consumeToken.push 0) rest := by
    refine hbehind.congr ?_ ?_ <;> simp [consumeToken, push, hscanner]
  have hentered : (p₁.consumeToken.push 0).parenCount = p.parenCount + 1 := hcount
  have hrcount := (parenRule.parses fuel).start hr
  have hout := (ih.start hat' hr).1
  rw [hentered] at hout hrcount
  cases hout with
  | strays hstray => rw [hclose] at hstray; cases hstray
  | @reads rest₁ hat₁ hlen₁ _ hsame₁ =>
    obtain ⟨rest₂, rfl, hbehind₂⟩ := hat₁.behind (k := 41) (by rw [hclose]; rfl)
    have hout₂ := ih.quantifier (hbehind₂.congr hsscanner hslookahead) hrun
    have hleft : s.parenCount = p.parenCount := by omega
    rw [hleft] at hout₂
    refine hout₂.after (by simp only [List.length_cons] at hlen₁ ⊢; omega) fun mark h => ?_
    rw [meets_open]
    apply hsame₁
    rwa [meets_close, add_sub_cancel_right]

/-- An operand and the rest of its branch. -/
theorem ReadsOn.operand_then_rest (ih : ReadsOn fuel) (hparen : r.parenCount = p.parenCount)
    (hout : Outcome 1 p.parenCount text r) (hrun : parseSubExpression fuel r = .ok s) :
    Outcome 0 p.parenCount text s ∧ Returns s := by
  cases hout with
  | @reads rest hat hlen hstray hsame =>
    obtain ⟨hout, hreturns⟩ := ih.sub hat hstray hrun
    rw [hparen] at hout
    exact ⟨hout.after (Nat.le_of_succ_le hlen) hsame, hreturns⟩
  | strays hstray hover =>
    obtain rfl := sub_of_stray hstray hrun
    exact ⟨.strays hstray hover, Or.inr (Or.inr hstray)⟩

theorem Returns.idle (h : Returns q) (hidle : Idle q r) : Returns r := by
  unfold Returns
  rw [hidle.lookahead, hidle.parenCount]
  exact h

theorem At.type_ne_equal (hat : At p text) : p.lookahead.type ≠ .equal := by
  obtain ⟨-, -, hl⟩ := hat
  intro htype
  cases hl with
  | @char _ _ c _ _ _ _ hchar =>
    rw [hchar] at htype
    cases eq_of_charType (t := .equal) htype (by decide) (by decide)
  | @escape _ _ e _ _ _ hchar =>
    rw [hchar] at htype
    split at htype <;> cases htype
  | stop _ _ _ htoken => simp [htoken] at htype
  | dangling _ _ htoken => simp [htoken] at htype
  | newline _ _ _ htoken => simp [htoken] at htype

/-- An expression reads its text up to a token that ends it. -/
theorem sub_reads (ih : ReadsOn fuel) (hat : At p text) (hstray : p.lookahead.type.stray = false)
    (hrun : parseSubExpression (fuel + 1) p = .ok q) :
    Outcome 0 p.parenCount text q ∧ Returns q := by
  have hjoin : ∀ {first : Result}, (∀ {r}, first = .ok r →
      Outcome 1 p.parenCount text r ∧ r.parenCount = p.parenCount) →
      (do
        let p ← first
        let p ← parseSubExpression fuel p
        .ok p.concatenateTop : Result) = .ok q →
      Outcome 0 p.parenCount text q ∧ Returns q := by
    intro first hfirst hrun
    obtain ⟨r, hr, hrun⟩ := bind_ok hrun
    obtain ⟨s, hs, hrun⟩ := bind_ok hrun
    cases hrun
    obtain ⟨hout, hparen⟩ := hfirst hr
    obtain ⟨hout', hreturns⟩ := ih.operand_then_rest hparen hout hs
    exact ⟨hout'.idle ⟨rfl, rfl, rfl⟩, hreturns.idle ⟨rfl, rfl, rfl⟩⟩
  have hcount := parenRule.parses fuel
  have hliteral : p.lookahead.type.structural = false → (do
      let p ← parseLiteralExpression fuel p
      let p ← parseSubExpression fuel p
      .ok p.concatenateTop : Result) = .ok q → Outcome 0 p.parenCount text q ∧ Returns q :=
    fun htype hrun => hjoin
      (fun hr => ⟨ih.literal (t := p.lookahead) hat htype (Or.inl rfl) hr, hcount.literal hr⟩) hrun
  rw [parseSubExpression] at hrun
  split at hrun
  iterate 6
    · rename_i htype
      exact hliteral (by rw [htype]; rfl) hrun
  · rename_i htype
    have hplain : p.lookahead.type.structural = false := by rw [htype]; rfl
    refine hjoin (fun {r} hr => ⟨?_, ?_⟩) hrun
    · exact ih.literal (p := { p with lookahead := { p.lookahead with type := .alpha } })
        (t := p.lookahead) hat hplain (Or.inr rfl) hr
    · have hsame := hcount.literal hr
      exact hsame
  · rename_i htype
    obtain ⟨r, hr, hrun⟩ := bind_ok hrun
    exact ih.operand_then_rest (hcount.paren hr) (ih.paren hat htype hr) hrun
  · rename_i htype
    exact hjoin (fun hr => ⟨ih.bracket hat htype hr, hcount.bracket hr⟩) hrun
  · rename_i htype
    obtain ⟨⟨⟩, -, hrun⟩ := bind_ok hrun
    generalize p.ctrl.newBackreferenceNfa (p.lookahead.value - 1).toNat = new at hrun
    obtain ⟨left, ctrl⟩ := new
    have hidle : Idle p.consumeToken ({ p with ctrl := ctrl }.push left).consumeToken :=
      ⟨rfl, rfl, rfl⟩
    refine hjoin (fun {r} hr => ⟨?_, ?_⟩) hrun
    · exact ih.token_then (by rw [htype]; rfl) (by simp [htype]) hidle hat hr
    · have hsame := hcount.quantifier hr
      exact hsame
  · cases hrun
  · cases hrun
  · rename_i htype
    split at hrun
    · cases hrun
    · rename_i hcount
      cases hrun
      exact ⟨.reads hat le_rfl hstray fun _ h => h, Or.inr (Or.inl ⟨htype, hcount⟩)⟩
  · cases hrun
    refine ⟨.reads hat le_rfl hstray fun _ h => h, Or.inl ?_⟩
    have hequal := hat.type_ne_equal
    cases htype : p.lookahead.type with
    | eof => rfl
    | equal => exact absurd htype hequal
    | kleene | plus | qmark | openbrace | pipe => rw [htype] at hstray; cases hstray
    | _ => exact absurd htype (by assumption)

/-- **The descent reads as `meets` does.** -/
theorem readsOn (fuel : Nat) : ReadsOn fuel := by
  induction fuel with
  | zero => constructor <;> intros <;> contradiction
  | succ fuel ih =>
    refine ⟨quantifier_reads ih, literal_reads ih, bracket_reads ih, paren_reads ih, sub_reads ih,
      fun {p q text} hat hrun => ?_⟩
    rw [regexParserStart] at hrun
    split at hrun
    · rename_i hstart
      refine ih.sub hat ?_ hrun
      cases htype : p.lookahead.type with
      | kleene | plus | qmark | openbrace | pipe => rw [htype] at hstart; cases hstart
      | _ => rfl
    · cases hrun

/-! ## The whole pattern -/

/-- The text in front of a character that ends it has been read: the read head is not in front
of that character, or it is a newline, and behind a newline nothing is read any more. -/
structure EndsAt (p : Parser) (before : List Int) (c : Int) (after : List Int) : Prop where
  buffer : p.scanner.buffer = before ++ c :: after
  ends : endsText c = true
  read : before.length ≤ p.scanner.readhead ∨ c = 10 ∧ p.scanner.seenNewline = true

/-- The parser stands at the end of its line: the lookahead is `__EOF`, and the text is read up
to a character that ends it. -/
def ReadLine (p : Parser) : Prop :=
  p.lookahead.type = .eof ∧ ∃ before c after, EndsAt p before c after

/-- At the lookahead `__EOF` the line is read. -/
theorem At.readLine (hat : At p text) (htype : p.lookahead.type = .eof) : ReadLine p := by
  obtain ⟨-, -, hl⟩ := hat
  refine ⟨htype, ?_⟩
  cases hl with
  | @char _ _ c _ _ _ _ hchar =>
    rw [hchar] at htype
    cases eq_of_charType (t := .eof) htype (by decide) (by decide)
  | @escape _ _ e _ _ _ hchar =>
    rw [hchar] at htype
    split at htype <;> cases htype
  | @stop before rest c hpos hseen hc =>
    refine ⟨before.reverse, c, rest, ?_, ?_, Or.inl ?_⟩
    · rw [hpos.buffer]
      simp
    · rcases hc with rfl | rfl <;> rfl
    · rw [hpos.readhead]
      simp
  | @dangling before rest hpos =>
    refine ⟨(92 :: before).reverse, eolSymbol, rest, hpos.buffer, rfl, Or.inl ?_⟩
    rw [hpos.readhead]
    simp
  | @newline before rest hbuffer hread hseen =>
    exact ⟨before.reverse, 10, rest, hbuffer, rfl, Or.inr ⟨rfl, hseen⟩⟩

/-- Where only the end of line symbol that closes the text ends it, the whole pattern is read. -/
theorem ReadLine.whole (h : ReadLine p)
    (hlast : ∀ c ∈ p.scanner.buffer.dropLast, endsText c = false)
    (hclosed : p.scanner.buffer.getLast? = some eolSymbol) :
    p.scanner.buffer.dropLast.length ≤ p.scanner.readhead := by
  obtain ⟨-, before, c, after, hbuffer, hends, hread⟩ := h
  have hafter : after = [] := by
    by_contra hne
    have hmem : c ∈ p.scanner.buffer.dropLast := by
      rw [hbuffer, List.dropLast_append_of_ne_nil (by simp), List.dropLast_cons_of_ne_nil hne]
      simp
    rw [hlast c hmem] at hends
    cases hends
  subst hafter
  rw [hbuffer, List.getLast?_append, List.getLast?_singleton, Option.some_or] at hclosed
  obtain rfl := Option.some.inj hclosed
  rw [hbuffer, List.dropLast_concat]
  exact hread.resolve_right fun h => absurd h.1 (by decide)

/-- A character that may have been put in upper case. -/
def Folded (c c' : Int) : Prop := c' = c ∨ c' = toupperChar c

theorem charType_toupperChar (c : Int) : charType (toupperChar c) = charType c := by
  unfold toupperChar
  split
  · rename_i hletter
    obtain ⟨hlo, hhi⟩ := hletter
    interval_cases c <;> rfl
  · rfl

theorem endsText_toupperChar (c : Int) : endsText (toupperChar c) = endsText c := by
  unfold toupperChar
  split
  · rw [Bool.eq_iff_iff]
    simp only [endsText, decide_eq_true_eq]
    simp only [EOF, eolSymbol]
    omega
  · rfl

/-- A folded character keeps its type. -/
theorem Folded.charType {c c' : Int} (h : Folded c c') : charType c' = charType c := by
  rcases h with rfl | rfl
  · rfl
  · exact charType_toupperChar c

theorem Folded.endsText {c c' : Int} (h : Folded c c') : endsText c' = endsText c := by
  rcases h with rfl | rfl
  · rfl
  · exact endsText_toupperChar c

/-- Only letters are put in upper case. -/
theorem Folded.eq_iff {c c' k : Int} (h : Folded c c') (hlo : k < 65 ∨ 90 < k)
    (hhi : k < 97 ∨ 122 < k) : c' = k ↔ c = k := by
  rcases h with rfl | rfl
  · rfl
  · unfold toupperChar
    split <;> omega

/-- Folding changes letters only. -/
theorem Folded.eq_of_charType {c c' : Int} (h : Folded c c') (htype : Scanner.charType c ≠ .alpha) :
    c' = c := by
  rcases h with rfl | rfl
  · rfl
  · unfold toupperChar
    split
    · rename_i hletter
      obtain ⟨hlo, hhi⟩ := hletter
      interval_cases c <;> exact absurd rfl htype
    · rfl

/-- Folding keeps the digits. -/
theorem Folded.isdigit {c c' : Int} (h : Folded c c') : isdigit c' = isdigit c := by
  rcases h with rfl | rfl
  · rfl
  · rw [Bool.eq_iff_iff]
    unfold toupperChar
    split <;> simp only [Recognizer.isdigit, decide_eq_true_eq]
    omega

theorem folded_mapIdx (l : List Int) (f : Nat → Int → Int) (hf : ∀ i c, Folded c (f i c)) :
    List.Forall₂ Folded l (l.mapIdx f) := by
  induction l generalizing f with
  | nil => exact .nil
  | cons c l ih =>
    rw [List.mapIdx_cons]
    exact .cons (hf 0 c) (ih _ fun i c => hf (i + 1) c)

/-- Folding keeps the end of line symbol at the end. -/
theorem folded_getLast {l l' : List Int} (h : List.Forall₂ Folded l l')
    (hlast : l.getLast? = some eolSymbol) : l'.getLast? = some eolSymbol := by
  have hrev := List.forall₂_reverse_iff.mpr h
  rw [List.getLast?_eq_head?_reverse] at hlast ⊢
  generalize l.reverse = k at hrev hlast
  generalize l'.reverse = k' at hrev
  cases hrev with
  | nil => cases hlast
  | cons hc _ =>
    obtain rfl := Option.some.inj hlast
    exact congrArg some ((hc.eq_iff (by decide) (by decide)).mpr rfl)

/-- Folding makes no `NUL`. -/
theorem folded_nul {l l' : List Int} (h : List.Forall₂ Folded l l') (hnul : 0 ∉ l) : 0 ∉ l' := by
  induction h with
  | nil => exact hnul
  | cons hc _ ih =>
    rw [List.mem_cons, not_or] at hnul ⊢
    refine ⟨fun h0 => hnul.1 ?_, ih hnul.2⟩
    exact ((hc.eq_iff (by decide) (by decide)).mp h0.symm).symm

theorem eq_nil_of_start {before rest : List Int} {c : Int}
    (h : c :: rest = before.reverse ++ c :: rest) : before = [] := by
  have hlen := congrArg List.length h
  simp at hlen
  exact hlen

/-- Case folding leaves the parser where it stands. -/
theorem At.fold (hat : At p p.scanner.buffer) {l : List Int}
    (hfold : List.Forall₂ Folded p.scanner.buffer l) :
    At { p with scanner := { p.scanner with buffer := l } } l := by
  obtain ⟨ht, hescp, hl⟩ := hat
  have ht' : Scanner.Terminated { p.scanner with buffer := l } :=
    ⟨ht.begins, folded_nul hfold ht.nul, folded_getLast hfold ht.last⟩
  refine ⟨ht', hescp, ?_⟩
  generalize htext : p.scanner.buffer = text at hl hfold
  cases hl with
  | @char before rest c hpos hseen hends h92 htype hvalue =>
    cases hfold with
    | @cons _ c' _ rest' hc hrest =>
      obtain rfl : before = [] :=
          eq_nil_of_start (htext.symm.trans (hpos.buffer.trans (by simp)))
      refine @Lexed.char _ [] rest' c' ⟨rfl, hpos.readhead⟩ hseen (hc.endsText.trans hends)
        (fun h => h92 ((hc.eq_iff (by decide) (by decide)).mp h)) (htype.trans hc.charType.symm)
        fun halpha => ?_
      rw [hc.eq_of_charType (htype ▸ halpha)]
      exact hvalue halpha
  | @escape before rest e hpos hseen he htype hnewline =>
    cases hfold with
    | cons hb htail =>
      cases htail with
      | @cons _ e' _ rest' hc hrest =>
        obtain rfl : before = [] :=
          eq_nil_of_start (htext.symm.trans (hpos.buffer.trans (by simp)))
        obtain rfl := (hb.eq_iff (by decide) (by decide)).mpr rfl
        refine @Lexed.escape _ [] rest' e' ⟨rfl, hpos.readhead⟩ hseen
          (fun h => he ((hc.eq_iff (by decide) (by decide)).mp h)) (by rw [hc.isdigit]; exact htype)
          fun h => hnewline ((hc.eq_iff (by decide) (by decide)).mp h)
  | @stop before rest c hpos hseen hend htoken =>
    cases hfold with
    | @cons _ c' _ rest' hc hrest =>
      obtain rfl : before = [] :=
          eq_nil_of_start (htext.symm.trans (hpos.buffer.trans (by simp)))
      refine @Lexed.stop _ [] rest' c' ⟨rfl, hpos.readhead⟩ hseen (hend.imp ?_ ?_) htoken
      · exact (hc.eq_iff (by decide) (by decide)).mpr
      · exact (hc.eq_iff (by decide) (by decide)).mpr
  | @dangling before rest hpos hseen htoken =>
    cases hfold with
    | cons hb htail =>
      cases htail with
      | @cons _ e' _ rest' hc hrest =>
        obtain rfl : before = [] :=
          eq_nil_of_start (htext.symm.trans (hpos.buffer.trans (by simp)))
        obtain rfl := (hb.eq_iff (by decide) (by decide)).mpr rfl
        obtain rfl := (hc.eq_iff (by decide) (by decide)).mpr rfl
        exact @Lexed.dangling _ [] rest' ⟨rfl, hpos.readhead⟩ hseen htoken
  | @newline before rest hbuffer hread hseen htoken =>
    cases hfold with
    | @cons _ c' _ rest' hc hrest =>
      obtain rfl : before = [] := eq_nil_of_start (htext.symm.trans hbuffer)
      obtain rfl := (hc.eq_iff (by decide) (by decide)).mpr rfl
      exact @Lexed.newline _ [] rest' rfl hread hseen htoken

/-- The text the parser is given. -/
theorem at_initParser {pattern : List Int} (hnul : 0 ∉ pattern) (ignoreCase : Bool) :
    At (initParser pattern ignoreCase) (initParser pattern ignoreCase).scanner.buffer := by
  have ht : (initScanner pattern).Terminated := by
    unfold initScanner
    split
    · exact ⟨rfl, by simpa [eolSymbol] using fun h => hnul (List.mem_of_mem_dropLast h), by simp⟩
    · exact ⟨rfl, by simpa [eolSymbol] using hnul, by simp⟩
  have hempty : (initScanner pattern).Between [] (initScanner pattern).buffer := by
    refine ⟨rfl, ?_⟩
    unfold initScanner
    split <;> rfl
  have hfresh : (initScanner pattern).escpSeq = true ∧ (initScanner pattern).seenNewline = false ∧
      (initScanner pattern).buffer ≠ [] := by
    unfold initScanner
    split <;> exact ⟨rfl, rfl, by simp⟩
  have hat : At ({ scanner := initScanner pattern : Parser }).consumeToken
      (initScanner pattern).buffer := at_consumeToken hempty ht hfresh.1 hfresh.2.1 hfresh.2.2
  have hbuffer : ({ scanner := initScanner pattern : Parser }).consumeToken.scanner.buffer =
      (initScanner pattern).buffer := regexScan_buffer _
  rw [← hbuffer] at hat
  unfold initParser
  cases ignoreCase with
  | false => exact hat
  | true =>
    refine hat.fold (folded_mapIdx _ _ fun i c => ?_)
    split
    · exact Or.inr rfl
    · exact Or.inl rfl

/-- Joining all automata reads nothing. -/
theorem idle_joinAll (n : Nat) (right : Addr) (p : Parser) : Idle p (joinAll n right p).2 := by
  induction n generalizing right p with
  | zero => exact ⟨rfl, rfl, rfl⟩
  | succ n ih =>
    have hjoin := ih (p.pop.2.ctrl.concatenateNfa p.pop.1 right).1
      { p.pop.2 with ctrl := (p.pop.2.ctrl.concatenateNfa p.pop.1 right).2 }
    exact ⟨hjoin.scanner, hjoin.lookahead, hjoin.parenCount⟩

/-- The new start node is built without reading. -/
theorem idle_insertEpsilonStart (p : Parser) : Idle p p.insertEpsilonStart := by
  unfold insertEpsilonStart
  dsimp only
  split <;> exact ⟨rfl, rfl, rfl⟩

/-- The concatenations behind the descent read nothing. -/
theorem idle_joined (p : Parser) : Idle p p.joined := by
  unfold joined
  split
  · have hjoin := idle_joinAll p.pop.2.symbolStack.length p.pop.1 p.pop.2
    exact ⟨hjoin.scanner, hjoin.lookahead, hjoin.parenCount⟩
  · exact ⟨rfl, rfl, rfl⟩

/-- The last steps of `parse_regex` read nothing. -/
theorem idle_complete (p : Parser) : Idle p p.complete := by
  have hend := idle_insertEpsilonStart { p with
    ctrl := p.ctrl.markNfa p.peek, totalNfaIds := (p.ctrl.markNfa p.peek).nextSeqId }
  exact ⟨hend.scanner, hend.lookahead, hend.parenCount⟩

/-- Behind the descent the parser reads nothing more. -/
theorem parseRegex_descends {pattern : List Int} {ignoreCase : Bool}
    (hparse : parseRegex fuel pattern ignoreCase = .ok p) :
    ∃ p₀ p₁, Idle (initParser pattern ignoreCase) p₀ ∧ regexParserStart fuel p₀ = .ok p₁ ∧
      Idle p₁ p := by
  obtain ⟨map, tokenCount, p₁, -, hstart, -, rfl⟩ := parseRegex_stages hparse
  exact ⟨prepared pattern ignoreCase map tokenCount, p₁, ⟨rfl, rfl, rfl⟩, hstart,
    (idle_joined p₁).trans (idle_complete _)⟩

/-- **Every accepted pattern is read to the end of its line**, unless a stray token stands
directly behind a `|` outside parentheses. -/
theorem readLine_of_parseRegex {pattern : List Int} {ignoreCase : Bool} (hnul : 0 ∉ pattern)
    (hparse : parseRegex fuel pattern ignoreCase = .ok p)
    (hclear : meets strayMark .outside 0 (initParser pattern ignoreCase).scanner.buffer = false) :
    ReadLine p := by
  have hat := at_initParser hnul ignoreCase
  have hcount : (initParser pattern ignoreCase).parenCount = 0 := by
    unfold initParser
    cases ignoreCase <;> rfl
  obtain ⟨p₀, p₁, hbegin, hstart, hend⟩ := parseRegex_descends hparse
  obtain ⟨hout, hreturns⟩ := (readsOn fuel).start (hat.idle hbegin) hstart
  have hcount₁ := (parenRule.parses fuel).start hstart
  rw [hbegin.parenCount, hcount] at hout hcount₁
  have hout' := hout.idle hend
  have hreturns' := hreturns.idle hend
  cases hout' with
  | @reads rest hat' _ hstray hsame =>
    rcases hreturns' with heof | ⟨-, hopen⟩ | hstray'
    · exact hat'.readLine heof
    · exact absurd (hend.parenCount.trans hcount₁) hopen
    · rw [hstray] at hstray'
      cases hstray'
  | strays hstray hover =>
    rw [hover rfl] at hclear
    cases hclear

end Parser

end Recognizer
