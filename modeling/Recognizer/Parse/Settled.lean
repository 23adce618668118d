import Recognizer.Parse.WholePattern

/-!
# The parser comes to an end

Every loop and every recursive call of the parser reads on in the text or pops a stack, so a
budget in proportion to the text is enough. The end of the text, which is read again and again,
ends each of the loops.
-/

namespace Recognizer

namespace Parser

open Scanner

variable {α β : Type} {p q r : Parser} {text rest before after : List Int} {fuel n : Nat}

/-- A routine ends within its budget. -/
structure Ends (x : Except ParseError α) : Prop where
  ne_hang : x ≠ .error .hang

/-- A result is an end. -/
theorem ends_ok (a : α) : Ends (.ok a : Except ParseError α) := ⟨by simp⟩

/-- An error is an end, unless it reports that the budget is used up. -/
theorem ends_error {e : ParseError} (he : e ≠ .hang) : Ends (.error e : Except ParseError α) :=
  ⟨fun h => he (Except.error.inj h)⟩

/-- Rejecting a pattern is an end. -/
theorem ends_parserFatal (p : Parser) (msg : String) (back : Nat) :
    Ends (p.parserFatal msg back) :=
  ends_error (by simp)

/-- A sequence ends when both of its parts do. -/
theorem Ends.bind {x : Except ParseError α} {f : α → Except ParseError β} (hx : Ends x)
    (hf : ∀ a, x = .ok a → Ends (f a)) : Ends (x >>= f) := by
  cases x with
  | error e =>
    refine ⟨fun h => hx.ne_hang ?_⟩
    exact congrArg Except.error (Except.error.inj h)
  | ok a => exact hf a rfl

/-- A choice ends when both of its branches do. -/
theorem Ends.ite {c : Prop} [Decidable c] {x y : Except ParseError α} (hx : Ends x)
    (hy : Ends y) : Ends (if c then x else y) := by
  split
  · exact hx
  · exact hy

/-! ## Intervals -/

theorem ends_evalInt (n : Int) : Ends (evalInt n) := by
  unfold evalInt
  split
  · exact ends_error (by simp)
  · exact ends_ok _

theorem ends_mergeIntervals (p : Parser) (min max : Int) (target : Addr) :
    Ends (p.mergeIntervals min max target) := by
  unfold mergeIntervals
  dsimp only
  split
  · exact (ends_evalInt _).bind fun _ _ => (ends_evalInt _).bind fun _ _ => ends_ok _
  · exact ends_ok _

theorem ends_combineBound (bound localBound : Int) : Ends (combineBound bound localBound) := by
  unfold combineBound
  split
  · exact ends_ok _
  · split
    · exact ends_evalInt _
    · exact ends_ok _

theorem ends_quantify (p : Parser) (build : NFACtrl → Addr → Addr × NFACtrl) (body : Addr) :
    Ends (p.quantify build body) := by
  unfold quantify
  split
  · exact ends_error (by simp)
  · exact ends_ok _

/-- Skipping blanks takes a character each round, up to the end of the text at most. -/
theorem At.ends_discardWhitespace (hat : At p text) (hfuel : text.length < fuel) :
    Ends (p.discardWhitespace fuel) := by
  induction fuel generalizing p text with
  | zero => omega
  | succ fuel ih =>
    rw [discardWhitespace]
    split
    · next hblank =>
      obtain ⟨rest, hnext, hlen, -⟩ := hat.pass
        (hat.not_structural (hblank.imp_right Or.inl))
        fun _ h => by rcases hblank with hv | hv <;> simp [h] at hv
      exact ih hnext (by omega)
    · exact ends_ok p

/-- Every digit of a bound is a character of the text. -/
theorem At.ends_convertToUint (hat : At p text) (hfuel : text.length < fuel) (decPos bound : Int) :
    Ends (convertToUint fuel decPos bound p) := by
  induction fuel generalizing p text decPos bound with
  | zero => omega
  | succ fuel ih =>
    rw [convertToUint]
    split
    · next hdigit =>
      split
      · exact ends_error (by simp)
      · obtain ⟨rest, hnext, hlen, -⟩ := hat.pass (by rw [hdigit]; rfl) (by simp [hdigit])
        exact ih hnext (by omega) _ _
    · exact ends_ok _

/-- A bound with blanks around it ends with the loops it is made of. -/
theorem At.ends_readBound (hat : At p.consumeToken text) (hfuel : text.length < fuel) :
    Ends (p.readBound fuel) := by
  refine (hat.ends_discardWhitespace hfuel).bind fun q hq => ?_
  obtain ⟨rest₁, hat₁, hlen₁, -⟩ := (passes_discardWhitespace hq).text hat
  refine (hat₁.ends_convertToUint (by omega) _ _).bind ?_
  rintro ⟨n, r⟩ hr
  obtain ⟨rest₂, hat₂, hlen₂, -⟩ := (passes_convertToUint hr).text hat₁
  exact (hat₂.ends_discardWhitespace (by omega)).bind fun _ _ => ends_ok _

/-- The upper bound ends, whether a comma stands in front of it or not. -/
theorem At.ends_readUpperBound (hat : At p text) (hfuel : text.length < fuel) :
    Ends (p.readUpperBound fuel) := by
  unfold readUpperBound
  split
  · next hcomma =>
    obtain ⟨rest, hnext, hlen, -⟩ := (passes_blank (Or.inr (Or.inr hcomma))).text hat
    exact hnext.ends_readBound (by omega)
  · exact ends_ok _

/-- The bounds of adjacent intervals are read behind the first brace. -/
theorem passes_intervals {min max min' max' : Int} {balance : Bool}
    (hrun : readIntervals fuel min max p = .ok (min', max', balance, q)) :
    Passes p.consumeToken q := by
  cases fuel with
  | zero => cases hrun
  | succ fuel =>
    obtain ⟨_, _, m, n, r, s, hr, hs, -, -, u, hu, hrest⟩ := readIntervals_cases hrun
    have hbehind : Passes p.consumeToken u := by
      rw [hu]
      split
      · next hbrace =>
        exact ((passes_bound hr).trans (passes_readUpperBound hs)).trans
          (passes_brace (Or.inr hbrace))
      · exact (passes_bound hr).trans (passes_readUpperBound hs)
    rcases hrest with ⟨-, -, rfl⟩ | ⟨hagain, hrun⟩
    · exact hbehind
    · exact hbehind.trans (passes_readIntervals hagain hrun)

/-- Each further pair of braces starts behind the one before it. -/
theorem At.ends_readIntervals (hat : At p text) (hopen : p.lookahead.type = .openbrace)
    (hfuel : text.length < fuel) (min max : Int) : Ends (readIntervals fuel min max p) := by
  induction fuel generalizing p text min max with
  | zero => omega
  | succ fuel ih =>
    obtain ⟨rest, hnext, hlen, -⟩ := hat.pass (by rw [hopen]; rfl) (by simp [hopen])
    rw [readIntervals]
    refine (hnext.ends_readBound (by omega)).bind ?_
    rintro ⟨localMin, r⟩ hr
    obtain ⟨rest₁, hat₁, hlen₁, -⟩ := (passes_bound hr).text hnext
    refine (hat₁.ends_readUpperBound (by omega)).bind ?_
    rintro ⟨localMax, s⟩ hs
    obtain ⟨rest₂, hat₂, hlen₂, -⟩ := (passes_readUpperBound hs).text hat₁
    refine (ends_combineBound _ _).bind fun m _ => (ends_combineBound _ _).bind fun n _ => ?_
    dsimp only
    have hbehind : ∃ rest₃, At (if decide (s.lookahead.type = .closebrace) then s.consumeToken
        else s) rest₃ ∧ rest₃.length ≤ rest₂.length := by
      split
      · next hbrace =>
        obtain ⟨rest₃, hat₃, hlen₃, -⟩ :=
          (passes_brace (Or.inr (of_decide_eq_true hbrace))).text hat₂
        exact ⟨rest₃, hat₃, hlen₃⟩
      · exact ⟨rest₂, hat₂, le_rfl⟩
    obtain ⟨rest₃, hat₃, hlen₃⟩ := hbehind
    generalize (if decide (s.lookahead.type = .closebrace) then s.consumeToken else s) = u at hat₃ ⊢
    split
    · exact ends_ok _
    · split
      · next hagain => exact ih hat₃ hagain.2 (by omega) m n
      · exact ends_ok _

/-- An interval expression ends with the chain of bounds it reads. -/
theorem At.ends_parseIntervalExpression (hat : At p text) (hopen : p.lookahead.type = .openbrace)
    (hfuel : text.length < fuel) : Ends (p.parseIntervalExpression fuel) := by
  have hpop : At p.pop.2 text := hat.idle ⟨rfl, rfl, rfl⟩
  refine (hpop.ends_readIntervals hopen hfuel _ _).bind ?_
  rintro ⟨min, max, balance, q⟩ _
  dsimp only
  split
  · split
    · split
      · exact ends_parserFatal ..
      · split
        · exact (ends_quantify ..).bind fun _ _ => ends_ok _
        · split
          · exact ends_ok _
          · split
            · exact ends_error (by simp)
            · refine (ends_mergeIntervals ..).bind ?_
              rintro ⟨merged, s⟩ _
              dsimp only
              split <;> exact ends_ok _
    · split
      · exact ends_quantify ..
      · split
        · split
          · exact ends_error (by simp)
          · exact ends_ok _
        · split
          · exact ends_quantify ..
          · exact ends_ok _
  · exact ends_parserFatal ..

/-! ## Literal runs -/

/-- A literal run takes a character each round. -/
theorem ends_scanLiteralRun {x : Int} {len : Nat} (hpos : p.scanner.Between before (x :: after))
    (ht : p.scanner.Terminated) (hseen : p.scanner.seenNewline = false)
    (hescp : p.scanner.escpSeq = false) (hfuel : after.length < fuel) :
    Ends (scanLiteralRun fuel len p.consumeToken) := by
  induction fuel generalizing p len before x after with
  | zero => omega
  | succ fuel ih =>
    have hread := consumeToken_char hpos ht hseen hescp
    have htoken : p.consumeToken.lookahead = tokenOf x := by rw [hread]
    have hmore : endsText x = false →
        Ends (scanLiteralRun fuel (len + 1) p.consumeToken.consumeToken) := by
      intro hends
      have hten : x ≠ 10 := by rintro rfl; simp [endsText] at hends
      have hpos' : p.consumeToken.scanner.Between (x :: before) after :=
        hpos.forward (by rw [hread]) (by rw [hread])
      have ht' : p.consumeToken.scanner.Terminated := ht.congr (by rw [hread]) (by rw [hread])
      have hne := hpos'.ne_nil ht' (by rintro rfl; simp [endsText] at hends)
      obtain ⟨y, after, rfl⟩ := List.exists_cons_of_ne_nil hne
      refine ih hpos' ht' (by rw [hread]; exact decide_eq_false hten)
        (by rw [hread]; exact hescp) ?_
      simp only [List.length_cons] at hfuel
      omega
    have hletter : p.consumeToken.lookahead.type = .asciidigit ∨
        p.consumeToken.lookahead.type = .alpha → endsText x = false := by
      intro htype
      cases hends : endsText x with
      | false => rfl
      | true =>
        rw [htoken, tokenOf, if_pos hends] at htype
        rcases htype with h | h <;> cases h
    rw [scanLiteralRun]
    split
    · next htype =>
      split
      · exact ends_ok _
      · exact hmore (hletter (Or.inl htype))
    · next htype =>
      split
      · exact ends_ok _
      · exact hmore (hletter (Or.inr htype))
    iterate 4
      dsimp only
      split <;> exact ends_ok _
    · exact ends_ok _

/-- A literal run, its first token read. -/
theorem At.ends_parseLiteralRun {t : Token} (hat : At { p with lookahead := t } text)
    (htype : t.type.structural = false) (hfuel : text.length ≤ fuel) :
    Ends (p.parseLiteralRun fuel) := by
  obtain ⟨ht, -, hl⟩ := hat
  have hscan : ∀ {x before rest}, p.scanner.Between (x :: before) rest →
      p.scanner.seenNewline = false → rest ≠ [] → rest.length < text.length →
      Ends (p.parseLiteralRun fuel) := by
    intro x before rest hpos hseen hne hlen
    obtain ⟨c, after, rfl⟩ := List.exists_cons_of_ne_nil hne
    have hpos' : (p.setEscp false).scanner.Between (x :: before) (c :: after) :=
      ⟨hpos.buffer, hpos.readhead⟩
    simp only [List.length_cons] at hlen
    refine (ends_scanLiteralRun hpos' (ht.congr rfl rfl) hseen rfl (by omega)).bind fun _ _ => ?_
    exact ends_ok _
  cases hl with
  | char hpos hseen hends =>
    exact hscan hpos hseen (hpos.ne_nil ht (by rintro rfl; simp [endsText] at hends)) (by simp)
  | escape hpos hseen he =>
    exact hscan hpos hseen (hpos.ne_nil ht he) (by simp only [List.length_cons]; omega)
  | stop _ _ _ htoken => simp [show t = _ from htoken, SymbolType.structural] at htype
  | dangling _ _ htoken => simp [show t = _ from htoken, SymbolType.structural] at htype
  | newline _ _ _ htoken => simp [show t = _ from htoken, SymbolType.structural] at htype

/-! ## Bracket expressions -/

/-- Between brackets, a bound on the tokens left in front of the end of the text. -/
inductive Remaining (n : Nat) (p : Parser) : Prop where
  | exhausted (h : Exhausted p)
  | inList {before rest : List Int} {c : Int} (h : InList p before c rest) (hlen : rest.length < n)

/-- One token is read. -/
theorem Remaining.next (h : Remaining n p) : Remaining (n - 1) p.consumeToken := by
  cases h with
  | exhausted h => exact .exhausted h.consumeToken
  | @inList before rest c h hlen =>
    by_cases hlast : c = 10 ∨ rest = []
    · exact .exhausted (h.exhausted hlast)
    · obtain ⟨hten, hne⟩ := not_or.mp hlast
      obtain ⟨e, rest, rfl⟩ := List.exists_cons_of_ne_nil hne
      simp only [List.length_cons] at hlen
      exact .inList (h.next hten) (by omega)

theorem Remaining.mono (h : Remaining n p) {m : Nat} (hle : n ≤ m) : Remaining m p := by
  cases h with
  | exhausted h => exact .exhausted h
  | inList h hlen => exact .inList h (by omega)

theorem Remaining.idle (h : Remaining n p) (hidle : Idle p q) : Remaining n q := by
  cases h with
  | exhausted h => exact .exhausted (h.idle hidle)
  | inList h hlen => exact .inList (h.idle hidle) hlen

/-- With no token left the end of the text is the lookahead. -/
theorem Remaining.eof (h : Remaining 0 p) : p.lookahead.type = .eof := by
  cases h with
  | exhausted h => exact h.lookahead
  | inList _ hlen => omega

/-- Skipping to a delimiter never goes back in the text. -/
theorem Remaining.skipToDelimiter {delim : SymbolType} {prev t : Token} (h : Remaining n p)
    (hrun : skipToDelimiter delim fuel prev p = .ok (t, q)) : Remaining n q := by
  induction fuel generalizing p prev n with
  | zero => cases hrun
  | succ fuel ih =>
    rw [Parser.skipToDelimiter] at hrun
    split at hrun
    · cases hrun
      exact h
    · split at hrun
      · cases hrun
        exact h
      · exact (ih h.next hrun).mono (Nat.sub_le n 1)

/-- Skipping to a delimiter takes a token each round, and the end of the text ends it. -/
theorem Remaining.ends_skipToDelimiter {delim : SymbolType} {prev : Token} (h : Remaining n p)
    (hfuel : n < fuel) : Ends (Parser.skipToDelimiter delim fuel prev p) := by
  induction fuel generalizing p prev n with
  | zero => omega
  | succ fuel ih =>
    rw [Parser.skipToDelimiter]
    split
    · exact ends_ok _
    · next hmore =>
      split
      · exact ends_ok _
      · have hpos : n ≠ 0 := by
          rintro rfl
          exact hmore h.eof
        exact ih h.next (by omega)

/-- The start of a class name reads a token or two. -/
theorem Remaining.openCollation (h : Remaining n p) : Remaining (n - 1) p.openCollation.2.2 := by
  unfold Parser.openCollation
  dsimp only
  split
  · have hidle : ∀ nfa ctrl, Idle p.consumeToken.consumeToken
        (({ p.consumeToken with ctrl := ctrl }.push nfa).consumeToken) := fun _ _ => ⟨rfl, rfl, rfl⟩
    exact (h.next.next.idle (hidle _ _)).mono (Nat.sub_le _ 1)
  · exact h.next

/-- An item of a bracket never goes back in the text. -/
theorem Remaining.parseRangeBounds {low : Int} {a : Addr} {negate : Bool} (h : Remaining n p)
    (hrun : p.parseRangeBounds low a negate = .ok q) : Remaining n q :=
  (h.next.next.idle (idle_parseRangeBounds hrun)).mono (by omega)

theorem ends_parseRangeBounds (p : Parser) (low : Int) (a : Addr) (negate : Bool) :
    Ends (p.parseRangeBounds low a negate) := by
  unfold Parser.parseRangeBounds
  dsimp only
  split
  · split
    · split
      · exact ends_parserFatal ..
      · exact ends_ok _
    · split
      · exact ends_ok _
      · exact ends_parserFatal ..
  · split
    · split
      · split
        · exact ends_ok _
        · exact ends_parserFatal ..
      · exact ends_ok _
    · exact ends_parserFatal ..

theorem ends_applyCollation (p : Parser) (delim : SymbolType) (name : List Int) (a : Addr)
    (negate : Bool) : Ends (p.applyCollation delim name a negate) := by
  unfold Parser.applyCollation
  split
  · split
    · exact ends_parserFatal ..
    · exact ends_ok _
  · exact ends_ok _

/-- A bracket list takes a token each round, and the end of the text rejects it. -/
theorem Remaining.ends_parseMatchingList {len : Nat} {a : Addr} {negate : Bool} (h : Remaining n p)
    (hfuel : n < fuel) : Ends (parseMatchingList fuel len a negate p) := by
  induction fuel generalizing p len n with
  | zero => omega
  | succ fuel ih =>
    rw [parseMatchingList]
    dsimp only
    split
    · exact ends_ok _
    · next hmore =>
      have hpos : n ≠ 0 := by
        rintro rfl
        exact hmore h.eof
      split
      · have hopened : Remaining (n - 1) p.consumeToken.openCollation.2.2 :=
          h.next.openCollation.mono (Nat.sub_le _ 1)
        refine (hopened.ends_skipToDelimiter (by omega)).bind ?_
        rintro ⟨t, q⟩ hq
        have hskipped := hopened.skipToDelimiter hq
        dsimp only
        split
        · exact ends_parserFatal ..
        · split
          · exact ends_ok _
          · refine (ends_applyCollation ..).bind fun r hr => ?_
            exact ih (hskipped.idle (idle_applyCollation hr)).next (by omega)
      · split
        · exact ends_ok _
        · split
          · exact ends_ok _
          · split
            · refine (ends_parseRangeBounds ..).bind fun r hr => ?_
              exact ih (h.next.parseRangeBounds hr) (by omega)
            · exact ih (h.next.idle ⟨rfl, rfl, rfl⟩) (by omega)

/-- A bracket expression ends with its list. -/
theorem At.ends_bracketOperand (hat : At p text) (htype : p.lookahead.type = .openbracket)
    (hfuel : text.length ≤ fuel) : Ends (p.bracketOperand fuel) := by
  obtain ⟨before, e, rest, rfl, hfirst⟩ := hat.firstItem htype
  have hwithin : Remaining (rest.length + 1) ((p.push 0).setEscp false).consumeToken :=
    .inList hfirst (Nat.lt_succ_self _)
  simp only [List.length_cons] at hfuel
  unfold Parser.bracketOperand
  dsimp only
  generalize ((p.push 0).setEscp false).consumeToken = p₁ at hwithin
  have hitems : Remaining (rest.length + 1)
      (if decide (p₁.lookahead.type = .circumflex) then p₁.consumeToken else p₁) := by
    split
    · exact hwithin.next.mono (Nat.sub_le _ 1)
    · exact hwithin
  refine Ends.bind (Remaining.ends_parseMatchingList (hitems.idle ⟨rfl, rfl, rfl⟩) (by omega))
    fun q _ => ?_
  split
  · exact ends_parserFatal ..
  · split
    · exact ends_error (by simp)
    · exact ends_ok _

/-! ## Alternatives -/

/-- The operands behind the separator are one less each round. -/
theorem ends_joinToSeparator (hfuel : p.symbolStack.length < fuel) :
    Ends (p.joinToSeparator fuel) := by
  induction fuel generalizing p with
  | zero => omega
  | succ fuel ih =>
    rw [joinToSeparator]
    split
    · exact ends_ok _
    · next hne =>
      dsimp only
      split
      · exact ends_ok _
      · next hleft =>
        refine ih ?_
        cases hstack : p.symbolStack with
        | nil => exact absurd hstack hne
        | cons right l =>
          rw [hstack] at hfuel
          cases l with
          | nil => simp [pop, hstack] at hleft
          | cons left l =>
            simp only [List.length_cons] at hfuel
            simp only [pop, pushConcatenated, push, hstack, List.tail_cons, List.length_cons]
            omega

/-- The operands of a branch are one less each round. -/
theorem ends_joinBranch {right : Addr} (hfuel : p.symbolStack.length < fuel) :
    Ends (p.joinBranch fuel right) := by
  induction fuel generalizing p right with
  | zero => omega
  | succ fuel ih =>
    rw [joinBranch]
    dsimp only
    split
    · exact ends_ok _
    · next hleft =>
      refine ih ?_
      cases hstack : p.symbolStack with
      | nil => simp [pop, hstack] at hleft
      | cons left l =>
        rw [hstack] at hfuel
        simp only [List.length_cons] at hfuel
        simp only [pop, hstack, List.tail_cons]
        omega

theorem ends_beginAlternative (p : Parser) : Ends p.beginAlternative := by
  unfold beginAlternative
  exact (ends_joinToSeparator (Nat.lt_succ_self _)).bind fun _ _ => ends_ok _

theorem ends_endAlternative (p : Parser) : Ends p.endAlternative := by
  have hmove : Ends p.moveLastBranch := by
    unfold moveLastBranch
    split
    · exact (ends_joinBranch (Nat.lt_succ_self _)).bind fun _ _ => ends_ok _
    · exact ends_ok _
  refine hmove.bind fun q _ => ?_
  unfold pushAlternation
  dsimp only
  split
  · exact ends_error (by simp)
  · exact ends_ok _

theorem ends_closeParen (p : Parser) (n : Int) (b : Bool) (k : Nat) :
    Ends (p.closeParen n b k) := by
  unfold closeParen
  split
  · split
    · exact ends_parserFatal ..
    · exact ends_ok _
  · exact ends_parserFatal ..

theorem ends_validateBackref (p : Parser) : Ends p.validateBackref := by
  unfold validateBackref
  dsimp only
  split
  · exact ends_error (by simp)
  · split
    · split
      · exact ends_error (by simp)
      · split
        · exact ends_error (by simp)
        · exact ends_ok _
    · exact ends_ok _

/-! ## The descent -/

/-- With three calls for each character of the text the routines end. -/
structure EndsOn (fuel : Nat) : Prop where
  quantifier : ∀ {p text}, At p text → 3 * text.length + 3 ≤ fuel →
    Ends (parseQuantifierExpression fuel p)
  literal : ∀ {p text t}, At { p with lookahead := t } text → t.type.structural = false →
    (p.lookahead = t ∨ p.lookahead.type = .alpha) → 3 * text.length + 2 ≤ fuel →
      Ends (parseLiteralExpression fuel p)
  bracket : ∀ {p text}, At p text → p.lookahead.type = .openbracket →
    3 * text.length + 2 ≤ fuel → Ends (parseBracketExpression fuel p)
  paren : ∀ {p text}, At p text → p.lookahead.type = .openparen →
    3 * text.length + 2 ≤ fuel → Ends (parseParenExpression fuel p)
  sub : ∀ {p text}, At p text → 3 * text.length + 3 ≤ fuel → Ends (parseSubExpression fuel p)
  start : ∀ {p text}, At p text → 3 * text.length + 4 ≤ fuel → Ends (regexParserStart fuel p)

/-- Behind one operand: a quantifier, an interval or a bar is taken before the next call. -/
theorem ends_quantifier (ih : EndsOn fuel) (hat : At p text)
    (hfuel : 3 * text.length + 3 ≤ fuel + 1) : Ends (parseQuantifierExpression (fuel + 1) p) := by
  have hquantify : ∀ {build}, p.lookahead.type = .plus ∨ p.lookahead.type = .kleene ∨
      p.lookahead.type = .qmark →
      Ends (do
        let p ← p.consumeToken.pop.2.quantify build p.consumeToken.pop.1
        parseQuantifierExpression fuel p : Result) := by
    intro build htype
    obtain ⟨rest, hnext, hlen, -⟩ := hat.pass
      (by rcases htype with h | h | h <;> rw [h] <;> rfl)
      fun h => by rcases htype with h' | h' | h' <;> simp [h'] at h
    refine (ends_quantify ..).bind fun q hq => ?_
    have hidle := idle_quantify hq
    exact ih.quantifier (hnext.congr hidle.scanner hidle.lookahead) (by omega)
  rw [parseQuantifierExpression]
  split
  · next htype => exact hquantify (Or.inl htype)
  · next htype => exact hquantify (Or.inr (Or.inl htype))
  · next htype => exact hquantify (Or.inr (Or.inr htype))
  · next htype =>
    refine (hat.ends_parseIntervalExpression htype (by omega)).bind fun q hq => ?_
    obtain ⟨min, max, balance, r, hr, hidle⟩ := readIntervals_of_intervalExpression hq
    obtain ⟨rest, hnext, hlen, -⟩ := hat.pass (by rw [htype]; rfl) (by simp [htype])
    obtain ⟨rest', hnext', hlen', -⟩ := (passes_intervals hr).text (hnext.idle ⟨rfl, rfl, rfl⟩)
    exact ih.quantifier (hnext'.idle hidle) (by omega)
  · next htype =>
    obtain ⟨rest, rfl, hbehind⟩ := hat.behind (k := 124) (by rw [htype]; rfl)
    simp only [List.length_cons] at hfuel
    refine (ends_beginAlternative p).bind fun q hq => ?_
    have hsub := ih.sub (hbehind.idle (idle_beginAlternative hq)) (by omega)
    exact hsub.bind fun r _ => ends_endAlternative r
  · exact ends_ok p

/-- A literal, an anchor or a backreference is taken before the quantifiers are read. -/
theorem ends_literal (ih : EndsOn fuel) {t : Token} (hat : At { p with lookahead := t } text)
    (htype : t.type.structural = false) (htoken : p.lookahead = t ∨ p.lookahead.type = .alpha)
    (hfuel : 3 * text.length + 2 ≤ fuel + 1) : Ends (parseLiteralExpression (fuel + 1) p) := by
  have hspecial : ∀ {type}, p.lookahead.type ≠ .alpha →
      Ends (parseQuantifierExpression fuel (p.pushSpecial type)) := by
    intro type halpha
    obtain rfl := htoken.resolve_right halpha
    obtain ⟨rest, hnext, hlen, -⟩ := hat.pass htype fun h => absurd h halpha
    exact ih.quantifier (hnext.congr rfl rfl) (by omega)
  rw [parseLiteralExpression]
  split
  · next h => exact hspecial (by simp [h])
  · next h => exact hspecial (by simp [h])
  · next h => exact hspecial (by simp [h])
  · refine (hat.ends_parseLiteralRun htype (by omega)).bind ?_
    rintro ⟨nfa, r⟩ hr
    obtain ⟨rest, hnext, hlen, -, -⟩ := hat.literalRun htype hr
    exact ih.quantifier (hnext.idle (q := r.push nfa) ⟨rfl, rfl, rfl⟩) (by omega)

/-- A bracket expression is taken before the quantifiers are read. -/
theorem ends_bracket (ih : EndsOn fuel) (hat : At p text) (htype : p.lookahead.type = .openbracket)
    (hfuel : 3 * text.length + 2 ≤ fuel + 1) : Ends (parseBracketExpression (fuel + 1) p) := by
  rw [parseBracketExpression]
  refine (hat.ends_bracketOperand htype (by omega)).bind fun q hq => ?_
  obtain ⟨rest, hnext, hlen, -⟩ := hat.bracketOperand htype hq
  exact ih.quantifier hnext (by omega)

/-- The parentheses are taken before and behind the text between them. -/
theorem ends_paren (ih : EndsOn fuel) (hat : At p text) (htype : p.lookahead.type = .openparen)
    (hfuel : 3 * text.length + 2 ≤ fuel + 1) : Ends (parseParenExpression (fuel + 1) p) := by
  obtain ⟨rest, rfl, hbehind⟩ := hat.behind (k := 40) (by rw [htype]; rfl)
  simp only [List.length_cons] at hfuel
  rw [parseParenExpression]
  obtain ⟨hscanner, -, -⟩ := updateOpenParenAccounting_reads p
  rcases hopen : p.updateOpenParenAccounting with ⟨saved, p₁⟩
  rw [hopen] at hscanner
  dsimp only at hscanner ⊢
  have hat' : At (p₁.consumeToken.push 0) rest := by
    refine hbehind.congr ?_ ?_ <;> simp [consumeToken, push, hscanner]
  refine (ih.start hat' (by omega)).bind fun q hq => (ends_closeParen ..).bind fun r hr => ?_
  obtain ⟨hclose, hrscanner, hrlookahead, -⟩ := closeParen_reads hr
  cases ((readsOn fuel).start hat' hq).1 with
  | strays hstray =>
    rw [hclose] at hstray
    cases hstray
  | @reads rest₁ hat₁ hlen₁ =>
    obtain ⟨rest₂, rfl, hbehind₂⟩ := hat₁.behind (k := 41) (by rw [hclose]; rfl)
    simp only [List.length_cons] at hlen₁
    exact ih.quantifier (hbehind₂.congr hrscanner hrlookahead) (by omega)

/-- A stray token is left alone at once. -/
theorem ends_sub_of_stray (hstray : p.lookahead.type.stray = true) (hfuel : 0 < fuel) :
    Ends (parseSubExpression fuel p) := by
  obtain ⟨fuel, rfl⟩ := Nat.exists_eq_succ_of_ne_zero hfuel.ne'
  rw [parseSubExpression]
  cases htype : p.lookahead.type with
  | kleene | plus | qmark | openbrace | pipe => exact ends_ok p
  | _ =>
    rw [htype] at hstray
    cases hstray

/-- An operand that ends, then the rest of its branch. -/
theorem EndsOn.operand_then_rest (ih : EndsOn fuel) {first : Result} {d : Int} (hends : Ends first)
    (hout : ∀ r, first = .ok r → Outcome 1 d text r) (hfuel : 3 * text.length ≤ fuel)
    (hpos : 0 < fuel) (f : Parser → Parser) :
    Ends (do
      let p ← first
      let p ← parseSubExpression fuel p
      .ok (f p) : Result) := by
  refine hends.bind fun r hr => Ends.bind ?_ fun s _ => ends_ok (f s)
  cases hout r hr with
  | reads hat hlen => exact ih.sub hat (by omega)
  | strays hstray => exact ends_sub_of_stray hstray hpos

/-- An expression takes at least one token before it calls itself. -/
theorem ends_sub (ih : EndsOn fuel) (hat : At p text)
    (hfuel : 3 * text.length + 3 ≤ fuel + 1) : Ends (parseSubExpression (fuel + 1) p) := by
  have hreads := readsOn fuel
  have hjoin : ∀ {first : Result}, Ends first →
      (∀ r, first = .ok r → Outcome 1 p.parenCount text r) →
      Ends (do
        let p ← first
        let p ← parseSubExpression fuel p
        .ok p.concatenateTop : Result) := fun hends hout =>
    ih.operand_then_rest hends hout (by omega) (by omega) concatenateTop
  have hliteral : p.lookahead.type.structural = false → Ends (do
      let p ← parseLiteralExpression fuel p
      let p ← parseSubExpression fuel p
      .ok p.concatenateTop : Result) := fun htype =>
    hjoin (ih.literal (t := p.lookahead) hat htype (Or.inl rfl) (by omega))
      fun r hr => hreads.literal (t := p.lookahead) hat htype (Or.inl rfl) hr
  rw [parseSubExpression]
  split
  iterate 6
    · next htype => exact hliteral (by rw [htype]; rfl)
  · next htype =>
    have hplain : p.lookahead.type.structural = false := by rw [htype]; rfl
    exact hjoin (ih.literal (t := p.lookahead) hat hplain (Or.inr rfl) (by omega))
      fun r hr => hreads.literal (p := { p with lookahead := { p.lookahead with type := .alpha } })
        (t := p.lookahead) hat hplain (Or.inr rfl) hr
  · next htype =>
    refine (ih.paren hat htype (by omega)).bind fun r hr => ?_
    cases hreads.paren hat htype hr with
    | reads hnext hlen => exact ih.sub hnext (by omega)
    | strays hstray => exact ends_sub_of_stray hstray (by omega)
  · next htype =>
    exact hjoin (ih.bracket hat htype (by omega)) fun r hr => hreads.bracket hat htype hr
  · next htype =>
    refine (ends_validateBackref p).bind fun _ _ => ?_
    generalize p.ctrl.newBackreferenceNfa (p.lookahead.value - 1).toNat = new
    obtain ⟨left, ctrl⟩ := new
    have hidle : Idle p.consumeToken ({ p with ctrl := ctrl }.push left).consumeToken :=
      ⟨rfl, rfl, rfl⟩
    have hplain : p.lookahead.type.structural = false := by rw [htype]; rfl
    have hletter : p.lookahead.type = .alpha → p.lookahead.value ≠ 10 := by simp [htype]
    obtain ⟨rest, hnext, hlen, -⟩ := hat.pass hplain hletter
    exact hjoin (ih.quantifier (hnext.idle hidle) (by omega))
      fun r hr => hreads.token_then hplain hletter hidle hat hr
  · exact ends_parserFatal ..
  · exact ends_parserFatal ..
  · split
    · exact ends_parserFatal ..
    · exact ends_ok p
  · exact ends_ok p

/-- **The descent ends.** -/
theorem endsOn (fuel : Nat) : EndsOn fuel := by
  induction fuel with
  | zero => constructor <;> intros <;> omega
  | succ fuel ih =>
    refine ⟨ends_quantifier ih, ends_literal ih, ends_bracket ih, ends_paren ih, ends_sub ih,
      fun {p text} hat hfuel => ?_⟩
    rw [regexParserStart]
    split
    · exact ih.sub hat (by omega)
    · exact ends_parserFatal ..

/-! ## The whole pattern -/

/-- The scan of `prescan_input` ends at the second end of line symbol at the latest. -/
theorem ends_prescanInput (text : List Int) (map : Nat → Bool) (count : Nat) :
    Ends (prescanInput (text ++ [eolSymbol, eolSymbol]) map count) := by
  induction hlen : text.length using Nat.strong_induction_on generalizing text map count with
  | _ n ih =>
    cases text with
    | nil =>
      rw [List.nil_append, prescanInput.eq_def]
      exact ends_ok _
    | cons c rest =>
      rw [List.length_cons] at hlen
      rw [List.cons_append, prescanInput.eq_def]
      dsimp only
      split
      · exact ends_ok _
      · split
        · cases rest with
          | nil =>
            -- the escape takes the first symbol
            rw [List.nil_append]
            dsimp only
            rw [prescanInput.eq_def]
            exact ends_ok _
          | cons d rest =>
            rw [List.length_cons] at hlen
            exact ih rest.length (by omega) rest _ _ rfl
        · exact ih rest.length (by omega) rest _ _ rfl

/-- The text of the pattern stays where `init_scanner` has put it. -/
theorem bufferRule : ParseRule fun p q => q.scanner.buffer = p.scanner.buffer where
  refl _ := rfl
  trans h₁ h₂ := h₂.trans h₁
  move hm := by
    cases hm with
    | read _ _ hbuffer => exact hbuffer
    | separate | literal | lliteral | range | setRange | backreference | unwrap | join => rfl
    | quantify _ hrun => exact congrArg Scanner.buffer (idle_quantify hrun).scanner
  intervalMove hm := by
    cases hm with
    | count | keep | interval => rfl
    | merge _ _ _ hrun => exact congrArg Scanner.buffer (idle_mergeIntervals hrun).scanner
    | drop => exact congrArg Scanner.buffer (idle_dropOperand _ _).scanner
  alternative {p q r s} hbegin hinner hend := by
    rw [(idle_endAlternative hend).scanner, hinner, (idle_beginAlternative hbegin).scanner]
    exact regexScan_buffer p.scanner
  paren {p q r} hinner hclose := by
    obtain ⟨-, hscanner, -⟩ := closeParen_reads hclose
    obtain ⟨hopen, -⟩ := updateOpenParenAccounting_reads p
    have hinner' : q.scanner.buffer = p.updateOpenParenAccounting.2.scanner.regexScan.buffer :=
      hinner
    rw [hscanner]
    exact (regexScan_buffer q.scanner).trans
      (hinner'.trans ((regexScan_buffer _).trans (congrArg Scanner.buffer hopen)))

/-- No routine writes to the text of the pattern. -/
theorem buffer_of_parseRegex {pattern : List Int} {ignoreCase : Bool}
    (hparse : parseRegex fuel pattern ignoreCase = .ok p) :
    p.scanner.buffer = (initParser pattern ignoreCase).scanner.buffer := by
  obtain ⟨p₀, p₁, hbegin, hstart, hend⟩ := parseRegex_descends hparse
  rw [hend.scanner, (bufferRule.parses fuel).start hstart, hbegin.scanner]

/-- The text of a pattern, which may be put in upper case, and the symbol that closes it. -/
theorem initParser_buffer {pattern : List Int} (hends : ∀ c ∈ pattern, endsText c = false)
    (ignoreCase : Bool) :
    ∃ text, (initParser pattern ignoreCase).scanner.buffer = text ++ [eolSymbol] ∧
      text.length = pattern.length ∧ ∀ c ∈ text, endsText c = false := by
  have hbuffer : (initScanner pattern).buffer = pattern ++ [eolSymbol] := by
    unfold initScanner
    rw [if_neg]
    intro hlast
    have hten := hends 10 (List.mem_of_getLast? hlast)
    cases hten
  have hread : ({ scanner := initScanner pattern : Parser }).consumeToken.scanner.buffer =
      pattern ++ [eolSymbol] := (regexScan_buffer _).trans hbuffer
  have hkept : ∃ f : Nat → Int → Int, (∀ i c, Folded c (f i c)) ∧
      (∀ i c, c = eolSymbol → f i c = c) ∧
      (initParser pattern ignoreCase).scanner.buffer = (pattern ++ [eolSymbol]).mapIdx f := by
    unfold initParser
    cases ignoreCase with
    | false =>
      refine ⟨fun _ c => c, fun _ c => Or.inl rfl, fun _ _ _ => rfl, ?_⟩
      exact hread.trans (List.ext_getElem (by simp) fun _ _ _ => by rw [List.getElem_mapIdx])
    | true =>
      generalize ({ scanner := initScanner pattern : Parser }).consumeToken = p at hread
      refine ⟨fun i c => if p.scanner.getCurPos ≤ i ∧ i < p.scanner.lineLen - 1 then toupperChar c
        else c, fun i c => ?_, fun i c hc => ?_, congrArg (List.mapIdx _) hread⟩
      · dsimp only
        split
        · exact Or.inr rfl
        · exact Or.inl rfl
      · dsimp only
        rw [hc]
        split <;> rfl
  obtain ⟨f, hfold, heol, hmap⟩ := hkept
  refine ⟨pattern.mapIdx f, ?_, by simp, fun c hc => ?_⟩
  · rw [hmap, List.mapIdx_append, List.mapIdx_singleton, heol _ _ rfl]
  · obtain ⟨i, hi, rfl⟩ := List.mem_mapIdx.mp hc
    rw [(hfold i _).endsText]
    exact hends _ (List.getElem_mem hi)

/-- A text that is closed by the end of line symbol gets another one. -/
theorem prescanBuffer_eq (ht : p.scanner.Terminated) :
    p.prescanBuffer = p.scanner.buffer.dropLast ++ [eolSymbol, eolSymbol] := by
  have hclosed : p.scanner.buffer = p.scanner.buffer.dropLast ++ [eolSymbol] :=
    (List.dropLast_append_getLast? _ ht.last).symm
  unfold prescanBuffer initScanner
  rw [if_neg (by rw [ht.last]; decide)]
  conv_lhs => rw [hclosed]
  simp

/-- The scanner adds at most one symbol to the pattern. -/
theorem length_initParser (pattern : List Int) (ignoreCase : Bool) :
    (initParser pattern ignoreCase).scanner.buffer.length ≤ pattern.length + 1 := by
  have hlen : (initScanner pattern).buffer.length ≤ pattern.length + 1 := by
    unfold initScanner
    split
    · simp only [List.length_append, List.length_dropLast, List.length_singleton]
      omega
    · simp
  have hread : ({ scanner := initScanner pattern : Parser }).consumeToken.scanner.buffer =
      (initScanner pattern).buffer := regexScan_buffer _
  unfold initParser
  cases ignoreCase with
  | false => exact hread ▸ hlen
  | true =>
    refine le_trans (le_of_eq ?_) hlen
    rw [← hread]
    exact List.length_mapIdx

/-- **Every pattern is read to the end of its line or rejected.** With a budget in proportion to
the pattern `parse_regex` ends; when it returns and no stray token stands directly behind a `|`
outside parentheses, the text is read up to a character that ends it, and a pattern without such
a character is read whole. -/
theorem parseRegex_readsLine {pattern : List Int} (hnul : 0 ∉ pattern) (ignoreCase : Bool)
    (hfuel : 3 * pattern.length + 7 ≤ fuel) :
    Ends (parseRegex fuel pattern ignoreCase) ∧
      ∀ p, parseRegex fuel pattern ignoreCase = .ok p →
        meets strayMark .outside 0 (initParser pattern ignoreCase).scanner.buffer = false →
          ReadLine p ∧ p.scanner.buffer = (initParser pattern ignoreCase).scanner.buffer ∧
            ((∀ c ∈ pattern, endsText c = false) → pattern.length ≤ p.scanner.readhead) := by
  have hat := at_initParser hnul ignoreCase
  constructor
  · have hends : Ends (prescanInput (initParser pattern ignoreCase).prescanBuffer
        (fun _ => false) 0) := by
      rw [prescanBuffer_eq hat.terminated]
      exact ends_prescanInput ..
    refine hends.bind ?_
    rintro ⟨map, count⟩ _
    refine Ends.bind ?_ fun q _ => ?_
    · exact (endsOn fuel).start (hat.congr rfl rfl) (by
        have hlen := length_initParser pattern ignoreCase
        omega)
    · exact Ends.ite (ends_error (by simp)) (ends_ok _)
  · intro p hparse hclear
    have hread := readLine_of_parseRegex hnul hparse hclear
    have hbuffer := buffer_of_parseRegex hparse
    refine ⟨hread, hbuffer, fun hends => ?_⟩
    obtain ⟨text, htext, hlen, hplain⟩ := initParser_buffer hends ignoreCase
    rw [htext] at hbuffer
    have hwhole := hread.whole (by rw [hbuffer, List.dropLast_concat]; exact hplain)
      (by rw [hbuffer]; simp)
    rw [hbuffer, List.dropLast_concat, hlen] at hwhole
    exact hwhole

/-- Alternatives in a group and outside of it are read whole. -/
theorem parseRegex_readsLine_alternatives : ∃ p,
    parseRegex 40 (bytes "(a|[|*])|b") false = .ok p ∧ ReadLine p ∧ 10 ≤ p.scanner.readhead := by
  have h : (parseRegex 40 (bytes "(a|[|*])|b") false).toOption.map (fun _ => true) =
      some true := by decide +kernel
  obtain ⟨p, hparse, -⟩ := parsed_spec h
  have hnul : 0 ∉ bytes "(a|[|*])|b" := by decide
  have henough : 3 * (bytes "(a|[|*])|b").length + 7 ≤ 40 := by decide
  have hreads := (parseRegex_readsLine hnul false henough).2 p hparse (by decide +kernel)
  exact ⟨p, hparse, hreads.1, hreads.2.2 (by decide)⟩

/-- The pattern of the lines `a` and `b` is accepted with the newline for its end: nothing reads
the `b` behind it. -/
theorem newline_ends_pattern : ∃ p, parseRegex 40 (bytes "a\nb") false = .ok p ∧
    p.lookahead.type = .eof ∧ p.scanner.readhead < (bytes "a\nb").length ∧
    ∀ a < p.ctrl.alloc.nextAddr, (p.ctrl.heap a).literal ≠ 98 := by
  have h : (parseRegex 40 (bytes "a\nb") false).toOption.map (fun p =>
      decide (p.lookahead.type = .eof ∧ p.scanner.readhead < (bytes "a\nb").length ∧
        ∀ a < p.ctrl.alloc.nextAddr, (p.ctrl.heap a).literal ≠ 98)) = some true := by
    decide +kernel
  obtain ⟨p, hparse, hp⟩ := parsed_spec h
  exact ⟨p, hparse, of_decide_eq_true hp⟩

end Parser

end Recognizer
