import Recognizer.Parse.Rule

/-!
# What the parser reads of its text

The read head stands between the characters read and those left. Each parsing routine
starts with a token scanned, the lookahead, and ends with one; in between it reads on
and now and then goes back. `meets` reads the text the same way, without building
anything, and says whether the parser comes to a character that is marked.
-/

namespace Recognizer

/-- A character `regex_scan` takes for the end of the text. -/
def endsText (c : Int) : Bool := decide (c = 10 ∨ c = EOF ∨ c = eolSymbol)

/-- A token that quantifies what stands in front of it. -/
def SymbolType.quantifies : SymbolType → Bool
  | .kleene | .plus | .qmark | .openbrace => true
  | _ => false

/-- A token `parse_sub_expression` returns at and no caller reads, unless it stands behind
an operand. -/
def SymbolType.stray (t : SymbolType) : Bool := t.quantifies || decide (t = .pipe)

/-- A token that ends the text, or begins or ends a group, a bracket expression or a
branch. -/
def SymbolType.structural : SymbolType → Bool
  | .eof | .openbracket | .openparen | .closeparen | .pipe => true
  | _ => false

/-- A character `parse_literal_expression` takes into a literal run. -/
def plain (c : Int) : Bool :=
  !endsText c && decide (c ≠ 92) &&
    decide (Scanner.charType c = .alpha ∨ Scanner.charType c = .asciidigit)

/-- The scan over a literal run that begins here goes back to the character in front. -/
def goesBack : List Int → Bool
  | [] => true
  | c :: rest => !plain c || (Scanner.charType (rest.headD 0)).quantifies

/-- Where a character stands: outside bracket expressions, between the items of one, or
in a class name behind its delimiter. -/
inductive Place where
  | outside
  | items (first : Bool)
  | className (delim prev : Int) (passed : Nat)
  deriving DecidableEq, Repr

/-- The delimiters of a class name that `regex_scan` tells from other characters. -/
def isDelimiter (c : Int) : Bool := decide (c = 46 ∨ c = 58)

/-- Marks on characters that no literal run takes, by the depth of parentheses they stand at
and the text behind them. -/
structure Mark where
  marks : Int → Int → List Int → Bool
  not_plain : ∀ {d c r}, marks d c r = true → plain c = false

/-- Between its operands the parser, reading the text at a depth of parentheses, comes to a
character that is marked. -/
def meets (mark : Mark) : Place → Int → List Int → Bool
  | _, _, [] => false
  | .outside, d, c :: r =>
    if endsText c then false
    else if c = 92 then
      match r with
      | [] => false
      | e :: r =>
        -- Read again without its backslash, a newline ends the text.
        if e = eolSymbol ∨ e = 10 ∧ goesBack r then false
        else meets mark .outside d r
    else if c = 91 then
      match r with
      | [] => false
      | e :: r' =>
        if e = 94 then meets mark (.items true) d r' else meets mark (.items true) d (e :: r')
    else if c = 40 then meets mark .outside (d + 1) r
    else if c = 41 then meets mark .outside (d - 1) r
    else mark.marks d c r || meets mark .outside d r
  | .items first, d, c :: r =>
    if endsText c then
      match r with
      | [] => false
      | e :: r => if e = 93 then meets mark .outside d r else false
    else if c = 91 ∧ isDelimiter (r.headD 0) then
      match r with
      | [] => false
      | delim :: r =>
        match r with
        | [] => false
        | e :: r' =>
          if e = 93 then meets mark (.className delim 93 0) d r'
          else meets mark (.className delim delim 0) d (e :: r')
    else if c = 93 ∧ !first then meets mark .outside d r
    else if r.headD 0 = 45 then
      match r with
      | [] => false
      | _ :: r =>
        match r with
        | [] => false
        | _ :: r => meets mark (.items false) d r
    else meets mark (.items false) d r
  | .className delim prev passed, d, c :: r =>
    if endsText c then
      if prev = delim ∧ 1 < passed then meets mark (.items false) d r else false
    else if c = 93 ∧ prev = delim then
      if passed ≤ 1 then meets mark .outside d r else meets mark (.items false) d r
    else meets mark (.className delim c (passed + 1)) d r

namespace Scanner

variable {s : Scanner} {before after : List Int} {c e : Int}

/-- The read head stands behind the characters read, the last of them first, and in
front of those left. -/
structure Between (s : Scanner) (before after : List Int) : Prop where
  buffer : s.buffer = before.reverse ++ after
  readhead : s.readhead = before.length

/-- A text without a `NUL` that ends in the end of line symbol. -/
structure Terminated (s : Scanner) : Prop where
  begins : s.strBegin = 0
  nul : 0 ∉ s.buffer
  last : s.buffer.getLast? = some eolSymbol

theorem Terminated.congr {s' : Scanner} (ht : s.Terminated) (hbuffer : s'.buffer = s.buffer)
    (hbegin : s'.strBegin = s.strBegin) : s'.Terminated :=
  ⟨hbegin.trans ht.begins, by rw [hbuffer]; exact ht.nul, by rw [hbuffer]; exact ht.last⟩

theorem Between.ne_zero (hpos : s.Between before (c :: after)) (ht : s.Terminated) : c ≠ 0 := by
  rintro rfl
  apply ht.nul
  rw [hpos.buffer]
  simp

/-- Only the end of line symbol has nothing behind it. -/
theorem Between.ne_nil (hpos : s.Between (c :: before) after) (ht : s.Terminated)
    (hc : c ≠ eolSymbol) : after ≠ [] := by
  rintro rfl
  have hlast := ht.last
  rw [hpos.buffer] at hlast
  simp at hlast
  exact hc hlast

theorem Between.forward (hpos : s.Between before (c :: after)) {s' : Scanner}
    (hbuffer : s'.buffer = s.buffer) (hread : s'.readhead = s.readhead + 1) :
    s'.Between (c :: before) after :=
  ⟨by rw [hbuffer, hpos.buffer]; simp, by rw [hread, hpos.readhead]; simp⟩

/-- The character behind the read head is read. -/
theorem Between.advance (hpos : s.Between before (c :: after)) :
    Scanner.Between { s with readhead := s.readhead + 1 } (c :: before) after :=
  hpos.forward rfl rfl

theorem Between.charAt (hpos : s.Between before (c :: after)) : s.charAt s.readhead = c := by
  simp [Scanner.charAt, hpos.buffer, hpos.readhead]

theorem Between.nextChar (hpos : s.Between before (c :: after)) (hc : c ≠ 0) :
    s.nextChar = (c, { s with readhead := s.readhead + 1 }) := by
  simp [Scanner.nextChar, hpos.charAt, hc]

theorem Between.unput (hpos : s.Between (c :: before) after) (hbegin : s.strBegin = 0) :
    s.unput = { s with readhead := before.length } ∧ s.unput.Between before (c :: after) := by
  have hunput : s.unput = { s with readhead := before.length } := by
    simp [Scanner.unput, hbegin, hpos.readhead]
  rw [hunput]
  exact ⟨rfl, by simp [hpos.buffer], rfl⟩

/-- The token a character is by itself. -/
def tokenOf (c : Int) : Token := if endsText c then ⟨0, .eof⟩ else ⟨c, charType c⟩

/-- A character that is not escaped. -/
theorem regexScan_char (hpos : s.Between before (c :: after)) (ht : s.Terminated)
    (hseen : s.seenNewline = false) (hescp : s.escpSeq = false ∨ c ≠ 92) :
    s.regexScan = { s with
      readhead := s.readhead + 1, seenNewline := decide (c = 10), curtoken := tokenOf c } := by
  have hc := hpos.ne_zero ht
  unfold regexScan
  rw [if_neg (by simp [hseen]), hpos.nextChar hc]
  by_cases h10 : c = 10
  · subst h10
    simp [tokenOf, endsText, updateToken, eolSymbol]
  by_cases heof : c = EOF
  · subst heof
    simp [tokenOf, endsText, updateToken, eolSymbol, EOF, hseen]
  by_cases h92 : c = 92
  · subst h92
    have hoff : s.escpSeq = false := hescp.resolve_right (by simp)
    simp [tokenOf, endsText, updateToken, scanEscape, eolSymbol, EOF, hseen, hoff, charType,
      isdigit]
  by_cases heol : c = eolSymbol
  · subst heol
    simp [tokenOf, endsText, updateToken, eolSymbol, EOF, hseen]
  · simp [tokenOf, endsText, updateToken, hc, h10, heof, heol, h92, hseen]

/-- Behind a newline nothing is read any more. -/
theorem regexScan_seen (hseen : s.seenNewline = true) : s.regexScan = s.updateToken 0 .eof := by
  rw [regexScan, if_pos hseen]

/-- At the end of the text the last token stays. -/
theorem regexScan_end (hpos : s.Between before []) (hseen : s.seenNewline = false) :
    s.regexScan = s := by
  have hnext : s.nextChar = (0, s) := by
    simp [Scanner.nextChar, Scanner.charAt, hpos.buffer, hpos.readhead]
  simp [regexScan, hseen, hnext, eolSymbol]

/-- An escaped character. -/
theorem regexScan_escape (hpos : s.Between before (92 :: e :: after)) (ht : s.Terminated)
    (hseen : s.seenNewline = false) (hescp : s.escpSeq = true) (he : e ≠ eolSymbol) :
    s.regexScan = { s with
      readhead := s.readhead + 2
      curtoken := if isdigit e then ⟨e - 48, .backreference⟩ else ⟨e, .alpha⟩ } := by
  have hnext := hpos.advance
  have he0 : e ≠ 0 := hnext.ne_zero (ht.congr rfl rfl)
  have hscan : ({ s with readhead := s.readhead + 1 } : Scanner).scanEscape = (e, { s with
      readhead := s.readhead + 2
      curtoken := if isdigit e then ⟨e - 48, .backreference⟩ else ⟨e, .alpha⟩ }) := by
    unfold scanEscape
    rw [if_pos hescp, hnext.nextChar he0]
    cases hd : isdigit e <;> simp [he, updateToken, hd]
  unfold regexScan
  rw [if_neg (by simp [hseen]), hpos.nextChar (by decide)]
  simp [hscan, he, EOF]

/-- A backslash in front of the end of line symbol. -/
theorem regexScan_dangling (hpos : s.Between before (92 :: eolSymbol :: after))
    (ht : s.Terminated) (hseen : s.seenNewline = false) (hescp : s.escpSeq = true) :
    s.regexScan = { s with readhead := s.readhead + 1, curtoken := ⟨0, .eof⟩ } := by
  have hnext := hpos.advance
  have hscan : ({ s with readhead := s.readhead + 1 } : Scanner).scanEscape =
      (eolSymbol, { s with readhead := s.readhead + 1 }) := by
    unfold scanEscape
    rw [if_pos hescp, hnext.nextChar (by decide)]
    simp [unput, ht.begins]
  unfold regexScan
  rw [if_neg (by simp [hseen]), hpos.nextChar (by decide)]
  simp [hscan, updateToken, EOF]

/-- The character of a token type that has just one. -/
def charOf : SymbolType → Option Int
  | .dollar => some 36
  | .circumflex => some 94
  | .dot => some 46
  | .kleene => some 42
  | .plus => some 43
  | .colon => some 58
  | .pipe => some 124
  | .qmark => some 63
  | .openparen => some 40
  | .closeparen => some 41
  | .hyphen => some 45
  | .openbracket => some 91
  | .closebracket => some 93
  | .openbrace => some 123
  | .closebrace => some 125
  | _ => none

/-- A letter's or a digit's type, or the type of this very character. -/
def TypeOf (c : Int) (t : SymbolType) : Prop :=
  t = .alpha ∨ t = .asciidigit ∨ charOf t = some c

private theorem typeOf_ite {k : Int} {t t' : SymbolType} (ht : charOf t = some k)
    (h : TypeOf c t') : TypeOf c (if c = k then t else t') := by
  by_cases hc : c = k
  · rw [if_pos hc, hc]
    exact Or.inr (Or.inr ht)
  · rwa [if_neg hc]

theorem typeOf_charType (c : Int) : TypeOf c (charType c) := by
  unfold charType
  by_cases hd : isdigit c = true
  · rw [if_pos hd]
    exact Or.inr (Or.inl rfl)
  · rw [if_neg hd]
    iterate 15 refine typeOf_ite rfl ?_
    exact Or.inl rfl

/-- A token type other than a letter's or a digit's tells the character. -/
theorem eq_of_charType {t : SymbolType} (htype : charType c = t) (ha : t ≠ .alpha)
    (hd : t ≠ .asciidigit) : charOf t = some c := by
  subst htype
  rcases typeOf_charType c with h | h | h
  · exact absurd h ha
  · exact absurd h hd
  · exact h

end Scanner

namespace Parser

open Scanner

variable {p q r : Parser} {text rest : List Int} {fuel : Nat}

/-- The lookahead is the token the parser reads where this text begins. -/
inductive Lexed (p : Parser) : List Int → Prop where
  | char {before rest : List Int} {c : Int} (hpos : p.scanner.Between (c :: before) rest)
      (hseen : p.scanner.seenNewline = false) (hends : endsText c = false) (hescp : c ≠ 92)
      (htype : p.lookahead.type = charType c)
      (hvalue : p.lookahead.type ≠ .alpha → p.lookahead.value = c) : Lexed p (c :: rest)
  | escape {before rest : List Int} {e : Int}
      (hpos : p.scanner.Between (e :: 92 :: before) rest) (hseen : p.scanner.seenNewline = false)
      (he : e ≠ eolSymbol)
      (htype : p.lookahead.type = if isdigit e then .backreference else .alpha)
      (hnewline : e = 10 → p.lookahead.value = 10) : Lexed p (92 :: e :: rest)
  | stop {before rest : List Int} {c : Int} (hpos : p.scanner.Between (c :: before) rest)
      (hseen : p.scanner.seenNewline = false) (hc : c = EOF ∨ c = eolSymbol)
      (htoken : p.lookahead = ⟨0, .eof⟩) : Lexed p (c :: rest)
  | dangling {before rest : List Int} (hpos : p.scanner.Between (92 :: before) (eolSymbol :: rest))
      (hseen : p.scanner.seenNewline = false) (htoken : p.lookahead = ⟨0, .eof⟩) :
    Lexed p (92 :: eolSymbol :: rest)
  | newline {before rest : List Int} (hbuffer : p.scanner.buffer = before.reverse ++ 10 :: rest)
      (hread : p.scanner.readhead ≤ before.length + 1) (hseen : p.scanner.seenNewline = true)
      (htoken : p.lookahead = ⟨0, .eof⟩) : Lexed p (10 :: rest)

/-- The parser stands at a text, outside bracket expressions and literal runs. -/
structure At (p : Parser) (text : List Int) : Prop where
  terminated : p.scanner.Terminated
  escp : p.scanner.escpSeq = true
  lexed : Lexed p text

/-- The parser has neither read nor entered or left a group. -/
structure Idle (p q : Parser) : Prop where
  scanner : q.scanner = p.scanner
  lookahead : q.lookahead = p.lookahead
  parenCount : q.parenCount = p.parenCount

theorem Idle.trans (h₁ : Idle p q) (h₂ : Idle q r) : Idle p r :=
  ⟨h₂.scanner.trans h₁.scanner, h₂.lookahead.trans h₁.lookahead,
    h₂.parenCount.trans h₁.parenCount⟩

theorem Lexed.congr (hl : Lexed p text) (hscanner : q.scanner = p.scanner)
    (hlookahead : q.lookahead = p.lookahead) : Lexed q text := by
  cases hl with
  | char hpos hseen hends hescp htype hvalue =>
    exact .char (by rwa [hscanner]) (by rwa [hscanner]) hends hescp (by rwa [hlookahead])
      (by rwa [hlookahead])
  | escape hpos hseen he htype hnewline =>
    exact .escape (by rwa [hscanner]) (by rwa [hscanner]) he (by rwa [hlookahead])
      (by rwa [hlookahead])
  | stop hpos hseen hc htoken =>
    exact .stop (by rwa [hscanner]) (by rwa [hscanner]) hc (by rwa [hlookahead])
  | dangling hpos hseen htoken =>
    exact .dangling (by rwa [hscanner]) (by rwa [hscanner]) (by rwa [hlookahead])
  | newline hbuffer hread hseen htoken =>
    exact .newline (by rwa [hscanner]) (by rwa [hscanner]) (by rwa [hscanner])
      (by rwa [hlookahead])

theorem At.congr (hat : At p text) (hscanner : q.scanner = p.scanner)
    (hlookahead : q.lookahead = p.lookahead) : At q text :=
  ⟨by rw [hscanner]; exact hat.terminated, by rw [hscanner]; exact hat.escp,
    hat.lexed.congr hscanner hlookahead⟩

theorem At.idle (hat : At p text) (h : Idle p q) : At q text :=
  hat.congr h.scanner h.lookahead

/-- The next token is read at the read head. -/
theorem at_consumeToken {before : List Int} (hpos : p.scanner.Between before text)
    (ht : p.scanner.Terminated) (hescp : p.scanner.escpSeq = true)
    (hseen : p.scanner.seenNewline = false) (hne : text ≠ []) : At p.consumeToken text := by
  obtain ⟨c, rest, rfl⟩ := List.exists_cons_of_ne_nil hne
  by_cases h92 : c = 92
  · subst h92
    obtain ⟨e, rest, rfl⟩ := List.exists_cons_of_ne_nil
      (hpos.advance.ne_nil (ht.congr rfl rfl) (by decide))
    by_cases he : e = eolSymbol
    · subst he
      have hscan := regexScan_dangling hpos ht hseen hescp
      refine ⟨ht.congr (by simp [consumeToken, hscan]) (by simp [consumeToken, hscan]),
        by simp [consumeToken, hscan, hescp], @Lexed.dangling _ before rest ?_ ?_ ?_⟩
      · exact hpos.forward (by simp [consumeToken, hscan]) (by simp [consumeToken, hscan])
      · simp [consumeToken, hscan, hseen]
      · simp [consumeToken, hscan]
    · have hscan := regexScan_escape hpos ht hseen hescp he
      refine ⟨ht.congr (by simp [consumeToken, hscan]) (by simp [consumeToken, hscan]),
        by simp [consumeToken, hscan, hescp], @Lexed.escape _ before rest e ?_ ?_ he ?_ ?_⟩
      · exact hpos.advance.forward (by simp [consumeToken, hscan]) (by simp [consumeToken, hscan])
      · simp [consumeToken, hscan, hseen]
      · cases hd : isdigit e <;> simp [consumeToken, hscan, hd]
      · rintro rfl
        simp [consumeToken, hscan, isdigit]
  · have hscan := regexScan_char hpos ht hseen (Or.inr h92)
    have hnext : p.consumeToken.scanner.Between (c :: before) rest :=
      hpos.forward (by simp [consumeToken, hscan]) (by simp [consumeToken, hscan])
    refine ⟨ht.congr (by simp [consumeToken, hscan]) (by simp [consumeToken, hscan]),
      by simp [consumeToken, hscan, hescp], ?_⟩
    by_cases h10 : c = 10
    · subst h10
      refine @Lexed.newline _ before rest ?_ ?_ ?_ ?_
      · simpa using hnext.buffer
      · simpa using hnext.readhead.le
      · simp [consumeToken, hscan]
      · simp [consumeToken, hscan, tokenOf, endsText]
    · cases hends : endsText c with
      | true =>
        refine .stop hnext ?_ ?_ ?_
        · simp [consumeToken, hscan, h10]
        · simpa [endsText, h10] using hends
        · simp [consumeToken, hscan, tokenOf, hends]
      | false =>
        refine .char hnext ?_ hends h92 ?_ fun _ => ?_
        · simp [consumeToken, hscan, h10]
        · simp [consumeToken, hscan, tokenOf, hends]
        · simp [consumeToken, hscan, tokenOf, hends]

/-- Nothing is met behind the end of the text. -/
theorem meets_ended {mark : Mark} {c : Int} (hends : endsText c = true) (d : Int) :
    meets mark .outside d (c :: rest) = false := by
  cases rest <;>
  · conv_lhs => rw [meets]
    rw [if_pos hends]

/-- What is marked in the rest is marked in the text. -/
def Continues (text rest : List Int) : Prop :=
  ∀ mark d, meets mark .outside d rest = true → meets mark .outside d text = true

theorem Continues.refl (text : List Int) : Continues text text := fun _ _ h => h

theorem Continues.trans {text₁ text₂ text₃ : List Int} (h₁ : Continues text₁ text₂)
    (h₂ : Continues text₂ text₃) : Continues text₁ text₃ :=
  fun mark d h => h₁ mark d (h₂ mark d h)

/-- A character that is neither escaped nor structural. -/
theorem continues_char {c : Int} (hends : endsText c = false) (hescp : c ≠ 92)
    (hplain : (charType c).structural = false) : Continues (c :: rest) rest := by
  have hne : ∀ k, (charType k).structural = true → c ≠ k := by
    rintro k hk rfl
    rw [hplain] at hk
    cases hk
  intro mark d h
  cases rest with
  | nil => cases h
  | cons e rest =>
    rw [meets, if_neg (by simp [hends]), if_neg hescp, if_neg (hne 91 (by decide)),
      if_neg (hne 40 (by decide)), if_neg (hne 41 (by decide)), h, Bool.or_true]

theorem continues_escape {e : Int} (he : e ≠ eolSymbol)
    (hnewline : ¬ (e = 10 ∧ goesBack rest = true)) : Continues (92 :: e :: rest) rest := by
  intro mark d h
  rwa [meets, if_neg (by decide), if_pos rfl, if_neg (not_or.mpr ⟨he, hnewline⟩)]

/-- The next token, behind one that is neither structural nor an escaped newline. -/
theorem At.pass (hat : At p text) (htype : p.lookahead.type.structural = false)
    (hvalue : p.lookahead.type = .alpha → p.lookahead.value ≠ 10) :
    ∃ rest, At p.consumeToken rest ∧ rest.length < text.length ∧ Continues text rest := by
  obtain ⟨ht, hescp, hl⟩ := hat
  cases hl with
  | @char before rest c hpos hseen hends h92 htoken =>
    rw [htoken] at htype
    have hne := hpos.ne_nil ht (by rintro rfl; simp [endsText] at hends)
    exact ⟨rest, at_consumeToken hpos ht hescp hseen hne, by simp,
      continues_char hends h92 htype⟩
  | @escape before rest e hpos hseen he htoken hnewline =>
    have hne := hpos.ne_nil ht he
    refine ⟨rest, at_consumeToken hpos ht hescp hseen hne, by simp only [List.length_cons]; omega,
      continues_escape he ?_⟩
    rintro ⟨rfl, -⟩
    exact hvalue (by simpa [isdigit] using htoken) (hnewline rfl)
  | stop _ _ _ htoken => simp [htoken, SymbolType.structural] at htype
  | dangling _ _ htoken => simp [htoken, SymbolType.structural] at htype
  | newline _ _ _ htoken => simp [htoken, SymbolType.structural] at htype

/-- The parser has read on. -/
structure Passes (p q : Parser) : Prop where
  parenCount : q.parenCount = p.parenCount
  text : ∀ {text}, At p text → ∃ rest, At q rest ∧ rest.length ≤ text.length ∧
    Continues text rest

theorem Passes.refl (p : Parser) : Passes p p :=
  ⟨rfl, fun {text} hat => ⟨text, hat, le_rfl, .refl text⟩⟩

theorem Passes.trans (h₁ : Passes p q) (h₂ : Passes q r) : Passes p r := by
  refine ⟨h₂.parenCount.trans h₁.parenCount, fun {text} hat => ?_⟩
  obtain ⟨rest₁, hat₁, hlen₁, hsame₁⟩ := h₁.text hat
  obtain ⟨rest₂, hat₂, hlen₂, hsame₂⟩ := h₂.text hat₁
  exact ⟨rest₂, hat₂, hlen₂.trans hlen₁, hsame₁.trans hsame₂⟩

theorem Passes.idle (h : Idle p q) : Passes p q :=
  ⟨h.parenCount, fun {text} hat => ⟨text, hat.idle h, le_rfl, .refl text⟩⟩

/-- One token is passed. -/
theorem passes_consumeToken (htype : p.lookahead.type.structural = false)
    (hvalue : p.lookahead.type = .alpha → p.lookahead.value ≠ 10) : Passes p p.consumeToken := by
  refine ⟨rfl, fun hat => ?_⟩
  obtain ⟨rest, hnext, hlen, hsame⟩ := hat.pass htype hvalue
  exact ⟨rest, hnext, hlen.le, hsame⟩

/-- White space and commas are no structural tokens. -/
theorem At.not_structural (hat : At p text)
    (hvalue : p.lookahead.value = 32 ∨ p.lookahead.value = 9 ∨ p.lookahead.value = 44) :
    p.lookahead.type.structural = false := by
  obtain ⟨-, -, hl⟩ := hat
  cases hl with
  | char _ _ _ _ htoken hchar =>
    by_cases ha : p.lookahead.type = .alpha
    · simp [ha, SymbolType.structural]
    · have hc := hchar ha
      rw [htoken, ← hc]
      rcases hvalue with h | h | h <;> rw [h] <;> decide
  | @escape _ _ e _ _ _ htoken =>
    rw [htoken]
    cases isdigit e <;> rfl
  | stop _ _ _ htoken => simp [htoken] at hvalue
  | dangling _ _ htoken => simp [htoken] at hvalue
  | newline _ _ _ htoken => simp [htoken] at hvalue

/-- White space or a comma is passed. -/
theorem passes_blank
    (hvalue : p.lookahead.value = 32 ∨ p.lookahead.value = 9 ∨ p.lookahead.value = 44) :
    Passes p p.consumeToken := by
  refine ⟨rfl, fun hat => ?_⟩
  exact (passes_consumeToken (hat.not_structural hvalue)
    fun _ h => by rcases hvalue with hv | hv | hv <;> simp [h] at hv).text hat

theorem passes_discardWhitespace (hrun : p.discardWhitespace fuel = .ok q) : Passes p q := by
  induction fuel generalizing p with
  | zero => cases hrun
  | succ fuel ih =>
    rw [discardWhitespace] at hrun
    split at hrun
    · rename_i hblank
      exact (passes_blank (hblank.imp_right Or.inl)).trans (ih hrun)
    · cases hrun
      exact .refl _

theorem passes_convertToUint {decPos interval n : Int}
    (hrun : convertToUint fuel decPos interval p = .ok (n, q)) : Passes p q := by
  induction fuel generalizing p decPos interval with
  | zero => cases hrun
  | succ fuel ih =>
    rcases convertToUint_cases hrun with ⟨hdigit, state, -, hrun⟩ | ⟨-, -, rfl⟩
    · exact (passes_consumeToken (by rw [hdigit]; rfl) (by simp [hdigit])).trans (ih hrun)
    · exact .refl _

/-- A bound of an interval, from the token behind a brace or a comma on. -/
theorem passes_bound {n : Int} (hrun : p.readBound fuel = .ok (n, q)) :
    Passes p.consumeToken q := by
  obtain ⟨r, hr, hrun⟩ := bind_ok hrun
  obtain ⟨⟨m, s⟩, hs, hrun⟩ := bind_ok hrun
  obtain ⟨u, hu, hrun⟩ := bind_ok hrun
  cases hrun
  exact ((passes_discardWhitespace hr).trans (passes_convertToUint hs)).trans
    (passes_discardWhitespace hu)

theorem passes_readBound {n : Int} (hfirst : Passes p p.consumeToken)
    (hrun : p.readBound fuel = .ok (n, q)) : Passes p q :=
  hfirst.trans (passes_bound hrun)

theorem passes_readUpperBound {n : Int} (hrun : p.readUpperBound fuel = .ok (n, q)) :
    Passes p q := by
  unfold readUpperBound at hrun
  split at hrun
  · rename_i hcomma
    exact passes_readBound (passes_blank (Or.inr (Or.inr hcomma))) hrun
  · cases hrun
    exact .refl p

/-- A brace is passed. -/
theorem passes_brace (htype : p.lookahead.type = .openbrace ∨ p.lookahead.type = .closebrace) :
    Passes p p.consumeToken :=
  passes_consumeToken (by rcases htype with h | h <;> rw [h] <;> rfl)
    fun h => by rcases htype with h' | h' <;> simp [h'] at h

theorem passes_readIntervals {min max min' max' : Int} {balance : Bool}
    (hopen : p.lookahead.type = .openbrace)
    (hrun : readIntervals fuel min max p = .ok (min', max', balance, q)) : Passes p q := by
  induction fuel generalizing p min max with
  | zero => cases hrun
  | succ fuel ih =>
    obtain ⟨_, _, m, n, r, s, hr, hs, -, -, u, hu, hrest⟩ := readIntervals_cases hrun
    have hbounds : Passes p s :=
      (passes_readBound (passes_brace (Or.inl hopen)) hr).trans (passes_readUpperBound hs)
    have hbehind : Passes p u := by
      rw [hu]
      split
      · rename_i hbrace
        exact hbounds.trans (passes_brace (Or.inr hbrace))
      · exact hbounds
    rcases hrest with ⟨-, -, rfl⟩ | ⟨hagain, hrun⟩
    · exact hbehind
    · exact hbehind.trans (ih hagain hrun)

theorem idle_quantify {build : NFACtrl → Addr → Addr × NFACtrl} {body : Addr}
    (hrun : p.quantify build body = .ok q) : Idle p q := by
  unfold quantify at hrun
  split at hrun
  · cases hrun
  · cases hrun
    exact ⟨rfl, rfl, rfl⟩

theorem idle_mergeIntervals {min max : Int} {target : Addr} {merged : Bool}
    (hrun : p.mergeIntervals min max target = .ok (merged, q)) : Idle p q := by
  rcases mergeIntervals_cases hrun with ⟨-, minRep, maxRep, rfl⟩ | ⟨-, rfl⟩
  · exact ⟨rfl, rfl, rfl⟩
  · exact ⟨rfl, rfl, rfl⟩

theorem idle_dropOperand (p : Parser) (target : Addr) : Idle p (p.dropOperand target) := by
  unfold dropOperand
  dsimp only
  split
  all_goals split <;> exact ⟨rfl, rfl, rfl⟩

/-- Behind the bounds of an interval nothing more is read. -/
theorem readIntervals_of_intervalExpression (hrun : p.parseIntervalExpression fuel = .ok q) :
    ∃ min max balance r,
      readIntervals fuel (-1) (-1) p.pop.2 = .ok (min, max, balance, r) ∧ Idle r q := by
  obtain ⟨⟨min, max, balance, r⟩, hr, hrun⟩ := bind_ok hrun
  refine ⟨min, max, balance, r, hr, ?_⟩
  dsimp only at hrun
  split at hrun
  · split at hrun
    · split at hrun
      · cases hrun
      · split at hrun
        · obtain ⟨s, hs, hrun⟩ := bind_ok hrun
          cases hrun
          exact (idle_quantify hs).trans ⟨rfl, rfl, rfl⟩
        · split at hrun
          · cases hrun
            exact ⟨rfl, rfl, rfl⟩
          · split at hrun
            · cases hrun
            · obtain ⟨⟨merged, s⟩, hs, hrun⟩ := bind_ok hrun
              have hmerge := idle_mergeIntervals hs
              cases merged with
              | true =>
                cases hrun
                exact hmerge
              | false =>
                cases hrun
                exact hmerge.trans ⟨rfl, rfl, rfl⟩
    · split at hrun
      · exact idle_quantify hrun
      · split at hrun
        · split at hrun
          · cases hrun
          · cases hrun
            exact ⟨rfl, rfl, rfl⟩
        · split at hrun
          · exact idle_quantify hrun
          · cases hrun
            exact idle_dropOperand r _
  · cases hrun

/-- An interval. -/
theorem passes_parseIntervalExpression (hopen : p.lookahead.type = .openbrace)
    (hrun : p.parseIntervalExpression fuel = .ok q) : Passes p q := by
  obtain ⟨min, max, balance, r, hr, hidle⟩ := readIntervals_of_intervalExpression hrun
  have hpop : Passes p p.pop.2 := .idle ⟨rfl, rfl, rfl⟩
  exact (hpop.trans (passes_readIntervals hopen hr)).trans (.idle hidle)

/-! ## Literal runs -/

section LiteralRun

variable {before after : List Int} {c x y : Int}

theorem consumeToken_char (hpos : p.scanner.Between before (c :: after))
    (ht : p.scanner.Terminated) (hseen : p.scanner.seenNewline = false)
    (hescp : p.scanner.escpSeq = false) :
    p.consumeToken = { p with
      scanner := { p.scanner with
        readhead := p.scanner.readhead + 1, seenNewline := decide (c = 10), curtoken := tokenOf c }
      lookahead := tokenOf c } := by
  unfold consumeToken
  rw [regexScan_char hpos ht hseen (Or.inl hescp)]

/-- Going back reads the character before the last once more, without its backslash. -/
theorem backtrack_char (hpos : p.scanner.Between (x :: y :: before) after)
    (ht : p.scanner.Terminated) (hseen : p.scanner.seenNewline = false)
    (hescp : p.scanner.escpSeq = false) :
    p.backtrack = { p with
      scanner := { p.scanner with
        readhead := before.length + 1, seenNewline := decide (y = 10), curtoken := tokenOf y }
      lookahead := tokenOf y } := by
  obtain ⟨hone, hposone⟩ := hpos.unput ht.begins
  have hbegin : p.scanner.unput.strBegin = 0 := by rw [hone]; exact ht.begins
  obtain ⟨htwo, hpostwo⟩ := hposone.unput hbegin
  have hsame : p.scanner.unput.unput = { p.scanner with readhead := before.length } := by
    rw [htwo, hone]
  unfold backtrack
  rw [hsame] at hpostwo ⊢
  exact consumeToken_char (p := { p with scanner := { p.scanner with readhead := before.length } })
    hpostwo (ht.congr rfl rfl) hseen hescp

/-- Behind a newline going back reads the end of the text once more. -/
theorem backtrack_seen (hseen : p.scanner.seenNewline = true) :
    p.backtrack = { p with
      scanner := { p.scanner.unput.unput with curtoken := ⟨0, .eof⟩ }
      lookahead := ⟨0, .eof⟩ } := by
  have hunput : ∀ s : Scanner, s.unput.seenNewline = s.seenNewline := fun s =>
    (unput_spec s).2.2.1
  unfold backtrack consumeToken
  rw [regexScan_seen (by simpa [hunput] using hseen)]
  rfl

theorem at_resume (hpos : q.scanner.Between before text) (ht : q.scanner.Terminated)
    (hseen : q.scanner.seenNewline = false) (hne : text ≠ []) :
    At (q.setEscp true).consumeToken text :=
  at_consumeToken ⟨hpos.buffer, hpos.readhead⟩ (ht.congr rfl rfl) rfl hseen hne

theorem at_resume_newline (hbuffer : q.scanner.buffer = before.reverse ++ 10 :: rest)
    (hread : q.scanner.readhead ≤ before.length + 1) (ht : q.scanner.Terminated)
    (hseen : q.scanner.seenNewline = true) : At (q.setEscp true).consumeToken (10 :: rest) := by
  have hresume : (q.setEscp true).consumeToken = { q with
      scanner := { q.scanner with escpSeq := true, curtoken := ⟨0, .eof⟩ }
      lookahead := ⟨0, .eof⟩ } := by
    unfold consumeToken
    rw [regexScan_seen (by exact hseen)]
    rfl
  rw [hresume]
  exact ⟨ht.congr rfl rfl, rfl, .newline hbuffer hread hseen rfl⟩

/-- The characters a literal run has taken: all but the first are plain. -/
structure Taken (len : Nat) (before : List Int) : Prop where
  two : 2 ≤ len
  length : len ≤ before.length + 1
  plain : ∀ i, i + 2 < len → plain (before.getD i 0) = true

/-- The scan goes back to a newline that was escaped in front of the run. -/
def Rereads (len : Nat) (before text : List Int) : Prop :=
  ∃ taken older, before = taken ++ 10 :: older ∧ len = taken.length + 2 ∧
    goesBack (taken.reverse ++ text) = true

/-- How a literal run is left: in front of its last character or behind it, or at a newline
that was escaped in front of the run. -/
inductive Left (len : Nat) (before text : List Int) (q : Parser) : Prop where
  | resumes {rest : List Int} (hstays : ¬ Rereads len before text)
      (hat : At (q.setEscp true).consumeToken rest) (hlen : rest.length + 2 ≤ text.length + len)
      (hsame : Continues text rest)
  | newline {taken older : List Int} (hbefore : before = taken ++ 10 :: older)
      (hlen : len = taken.length + 2) (hback : goesBack (taken.reverse ++ text) = true)
      (hat : At (q.setEscp true).consumeToken (10 :: (taken.reverse ++ text)))

theorem Taken.cons {len : Nat} (h : Taken len before) (hx : Recognizer.plain x = true) :
    Taken (len + 1) (x :: before) where
  two := Nat.le_succ_of_le h.two
  length := by simpa using h.length
  plain i hi := by
    cases i with
    | zero => exact hx
    | succ i => exact h.plain i (by omega)

theorem not_plain_newline : Recognizer.plain 10 = false := rfl

/-- No mark stands on a plain character. -/
theorem meets_plain {mark : Mark} (hx : Recognizer.plain x = true) (d : Int) :
    meets mark .outside d (x :: rest) = meets mark .outside d rest := by
  have hplain := hx
  simp only [Recognizer.plain, Bool.and_eq_true, Bool.not_eq_true', decide_eq_true_eq] at hx
  obtain ⟨⟨hends, h92⟩, htype⟩ := hx
  have hne : ∀ k, Recognizer.plain k = false → x ≠ k := by
    rintro k hk rfl
    rw [hk] at hplain
    cases hplain
  have hmark : mark.marks d x rest = false := by
    cases hmarked : mark.marks d x rest with
    | false => rfl
    | true => exact absurd rfl (hne x (mark.not_plain hmarked))
  cases rest <;>
  · conv_lhs => rw [meets]
    rw [if_neg (by simp [hends]), if_neg h92, if_neg (hne 91 rfl), if_neg (hne 40 rfl),
      if_neg (hne 41 rfl), hmark, Bool.false_or]

theorem not_plain_of_quantifies (hx : (charType x).quantifies = true) :
    Recognizer.plain x = false := by
  cases hplain : Recognizer.plain x with
  | false => rfl
  | true =>
    simp only [Recognizer.plain, Bool.and_eq_true, decide_eq_true_eq] at hplain
    rcases hplain.2 with htype | htype <;> rw [htype] at hx <;> cases hx

theorem Taken.of_rereads {len : Nat} {taken older : List Int} (h : Taken len before)
    (hbefore : before = taken ++ 10 :: older) (hlen : len = taken.length + 2) :
    ∀ z ∈ taken, Recognizer.plain z = true := by
  intro z hz
  obtain ⟨i, hi, rfl⟩ := List.mem_iff_getElem.mp hz
  have hplain := h.plain i (by omega)
  simpa [hbefore, List.getD_eq_getElem?_getD, List.getElem?_append_left hi,
    List.getElem?_eq_getElem hi] using hplain

/-- The scan goes back by two characters at most, and only for a quantifier by two. -/
theorem not_rereads {len : Nat} (h : Taken len before) (hone : len = 2 → before.getD 0 0 ≠ 10)
    (htwo : len = 3 → before.getD 1 0 ≠ 10 ∨ (charType x).quantifies = false) :
    ¬ Rereads len before (x :: after) := by
  rintro ⟨taken, older, hbefore, hlen, hback⟩
  have hplain := h.of_rereads hbefore hlen
  match taken with
  | [] => exact hone hlen (by rw [hbefore]; rfl)
  | [y] =>
    rcases htwo hlen with hten | hx
    · exact hten (by rw [hbefore]; rfl)
    · simp [goesBack, hplain y (by simp), hx] at hback
  | y :: z :: more =>
    obtain ⟨a, b, l, hl⟩ : ∃ a b l, (y :: z :: more).reverse = a :: b :: l := by
      match hrev : (y :: z :: more).reverse with
      | [] => simp at hrev
      | [_] => simpa using congrArg List.length hrev
      | a :: b :: l => exact ⟨a, b, l, rfl⟩
    have ha : Recognizer.plain a = true := hplain a (by rw [← List.mem_reverse, hl]; simp)
    have hb : Recognizer.plain b = true := hplain b (by rw [← List.mem_reverse, hl]; simp)
    rw [hl] at hback
    have hquant : (charType b).quantifies = false := by
      cases hq : (charType b).quantifies with
      | false => rfl
      | true => rw [not_plain_of_quantifies hq] at hb; cases hb
    simp [goesBack, ha, hquant] at hback

/-- Going back once, the parser resumes behind the character read again, unless that is a
newline. -/
theorem at_backtrack (hpos : p.scanner.Between (x :: y :: before) after)
    (ht : p.scanner.Terminated) (hseen : p.scanner.seenNewline = false)
    (hescp : p.scanner.escpSeq = false) :
    At (p.backtrack.setEscp true).consumeToken
      (if y = 10 then 10 :: x :: after else x :: after) := by
  have hbuffer : p.scanner.buffer = (y :: before).reverse ++ x :: after := by
    rw [hpos.buffer]
    simp
  rw [backtrack_char hpos ht hseen hescp]
  by_cases hy : y = 10
  · subst hy
    rw [if_pos rfl]
    rw [List.reverse_cons, List.append_assoc, List.singleton_append] at hbuffer
    exact at_resume_newline hbuffer le_rfl (ht.congr rfl rfl) rfl
  · rw [if_neg hy]
    exact at_resume ⟨hbuffer, by simp⟩ (ht.congr rfl rfl) (by simpa using hy) (by simp)

/-- The end of a run whose last character stays in it. -/
theorem left_of_backtrack {len : Nat} (h : Taken len before) (hx : Recognizer.plain x = false)
    (hpos : p.scanner.Between (x :: before) after) (ht : p.scanner.Terminated)
    (hseen : p.scanner.seenNewline = false) (hescp : p.scanner.escpSeq = false)
    (honce : len = 3 → (charType x).quantifies = false) :
    Left len before (x :: after) p.backtrack := by
  have htwo := h.two
  cases before with
  | nil => have := h.length; simp only [List.length_nil] at this; omega
  | cons y older =>
    have hat := at_backtrack hpos ht hseen hescp
    by_cases hy : y = 10
    · subst hy
      have hlen : len = 2 := by
        by_contra hne
        have hplain := h.plain 0 (by omega)
        rw [List.getD_cons_zero, not_plain_newline] at hplain
        cases hplain
      rw [if_pos rfl] at hat
      exact @Left.newline _ _ _ _ [] older rfl hlen (by simp [goesBack, hx]) hat
    · rw [if_neg hy] at hat
      exact .resumes (not_rereads h (fun _ => hy) fun hlen => Or.inr (honce hlen)) hat (by omega)
        (.refl _)

/-- The end of a run whose last character is left to a quantifier. -/
theorem left_of_quantifier {len : Nat} (h : Taken len before) (hmore : 2 < len)
    (hx : (charType x).quantifies = true) (hpos : p.scanner.Between (x :: before) after)
    (ht : p.scanner.Terminated) (hseen : p.scanner.seenNewline = false)
    (hescp : p.scanner.escpSeq = false) :
    Left len before (x :: after) p.backtrack.backtrack := by
  match before, h with
  | [], h => have := h.length; simp only [List.length_nil] at this; omega
  | [_], h => have := h.length; simp only [List.length_cons, List.length_nil] at this; omega
  | y :: z :: older, h =>
    have hy : Recognizer.plain y = true := h.plain 0 hmore
    have hynew : y ≠ 10 := by
      rintro rfl
      rw [not_plain_newline] at hy
      cases hy
    have hfirst := backtrack_char hpos ht hseen hescp
    have hposy : p.backtrack.scanner.Between (y :: z :: older) (x :: after) :=
      ⟨by rw [hfirst]; simpa using hpos.buffer, by rw [hfirst]; simp⟩
    have hat := at_backtrack hposy (ht.congr (by rw [hfirst]) (by rw [hfirst]))
      (by rw [hfirst]; simpa using hynew) (by rw [hfirst]; exact hescp)
    by_cases hz : z = 10
    · subst hz
      have hlen : len = 3 := by
        by_contra hne
        have hplain := h.plain 1 (by omega)
        rw [List.getD_cons_succ, List.getD_cons_zero, not_plain_newline] at hplain
        cases hplain
      rw [if_pos rfl] at hat
      exact @Left.newline _ _ _ _ [y] older rfl hlen (by simp [goesBack, hx]) hat
    · rw [if_neg hz] at hat
      refine .resumes (not_rereads h (fun _ => hynew) fun _ => Or.inl hz) hat (by simp only [List.length_cons]; omega)
        fun mark d h => (meets_plain hy d).symm.trans h

/-- The end of a run at a newline. -/
theorem left_of_newline {len : Nat} (h : Taken len before)
    (hpos : p.scanner.Between (10 :: before) after) (ht : p.scanner.Terminated)
    (hseen : p.scanner.seenNewline = true) : Left len before (10 :: after) p.backtrack := by
  obtain ⟨hone, hposone⟩ := hpos.unput ht.begins
  have hbegin : p.scanner.unput.strBegin = 0 := by rw [hone]; exact ht.begins
  obtain ⟨hbuf, hbegin₂, hsame, hle⟩ := unput_spec p.scanner.unput
  have ht₂ : p.scanner.unput.unput.Terminated :=
    ht.congr (hbuf.trans (by rw [hone])) (hbegin₂.trans (by rw [hone]))
  have hseen₂ : p.scanner.unput.unput.seenNewline = true := hsame.trans (by rw [hone]; exact hseen)
  rw [backtrack_seen hseen]
  by_cases hfirst : len = 2 ∧ before.getD 0 0 = 10
  · obtain ⟨rfl, hten⟩ := hfirst
    match before, h with
    | [], h => simp at hten
    | y :: older, h =>
      obtain rfl : y = 10 := hten
      refine @Left.newline _ _ _ _ [] older rfl rfl rfl
        (@at_resume_newline _ _ older ?_ ?_ ?_ ?_)
      · exact hbuf.trans (by simpa using hposone.buffer)
      · exact hle.trans (by simpa using hposone.readhead.le)
      · exact ht₂.congr rfl rfl
      · exact hseen₂
  · refine .resumes (not_rereads h (fun hlen hten => hfirst ⟨hlen, hten⟩) fun _ => Or.inr rfl)
      (@at_resume_newline _ after before ?_ ?_ ?_ ?_)
      (by have := h.two; omega) (.refl _)
    · exact hbuf.trans (by simpa using hposone.buffer)
    · exact hle.trans (by simpa using hposone.readhead.le.trans (Nat.le_succ _))
    · exact ht₂.congr rfl rfl
    · exact hseen₂

/-- One more character is taken. -/
theorem Left.cons {len : Nat} (h : Left (len + 1) (x :: before) text q)
    (hx : Recognizer.plain x = true) : Left len before (x :: text) q := by
  cases h with
  | resumes hstays hat hlen hsame =>
    refine .resumes ?_ hat (by simp only [List.length_cons]; omega) fun mark d h =>
      (meets_plain hx d).trans (hsame mark d h)
    rintro ⟨taken, older, rfl, rfl, hback⟩
    exact hstays ⟨x :: taken, older, rfl, by simp, by simpa using hback⟩
  | @newline taken older hbefore hlen hback hat =>
    cases taken with
    | nil =>
      obtain ⟨rfl, -⟩ := List.cons.inj hbefore
      rw [not_plain_newline] at hx
      cases hx
    | cons x' taken =>
      rw [List.cons_append] at hbefore
      obtain ⟨rfl, htail⟩ := List.cons.inj hbefore
      refine .newline htail (by simpa using hlen) ?_ ?_
      · simpa using hback
      · simpa using hat

/-- **The scan over a literal run.** -/
theorem left_of_scanLiteralRun {len n : Nat} (h : Taken len before)
    (hpos : p.scanner.Between before (x :: after)) (ht : p.scanner.Terminated)
    (hseen : p.scanner.seenNewline = false) (hescp : p.scanner.escpSeq = false)
    (hrun : scanLiteralRun fuel len p.consumeToken = .ok (n, q)) :
    Left len before (x :: after) q := by
  induction fuel generalizing p len before x after with
  | zero => cases hrun
  | succ fuel ih =>
    have hread := consumeToken_char hpos ht hseen hescp
    have hpos' : p.consumeToken.scanner.Between (x :: before) after :=
      hpos.forward (by rw [hread]) (by rw [hread])
    have ht' : p.consumeToken.scanner.Terminated := ht.congr (by rw [hread]) (by rw [hread])
    have hescp' : p.consumeToken.scanner.escpSeq = false := by rw [hread]; exact hescp
    have hseen' : p.consumeToken.scanner.seenNewline = decide (x = 10) := by rw [hread]
    have htoken : p.consumeToken.lookahead = tokenOf x := by rw [hread]
    by_cases hnew : x = 10
    · subst hnew
      have hended : p.consumeToken.lookahead.type = .eof := by rw [htoken]; rfl
      rw [scanLiteralRun, hended] at hrun
      cases hrun
      exact left_of_newline h hpos' ht' (by simpa using hseen')
    · rw [decide_eq_false hnew] at hseen'
      have hstop : Recognizer.plain x = false → (len = 3 → (charType x).quantifies = false) →
          Left len before (x :: after) p.consumeToken.backtrack := fun hx honce =>
        left_of_backtrack h hx hpos' ht' hseen' hescp' honce
      have hquantifier : (charType x).quantifies = true → (if len - 1 > 1 then
          (.ok (len - 2, p.consumeToken.backtrack.backtrack) : Except ParseError (Nat × Parser))
          else .ok (len - 1, p.consumeToken.backtrack)) = .ok (n, q) →
          Left len before (x :: after) q := by
        intro hx hrun
        split at hrun
        · cases hrun
          exact left_of_quantifier h (by omega) hx hpos' ht' hseen' hescp'
        · cases hrun
          exact hstop (not_plain_of_quantifies hx) (by omega)
      cases hends : endsText x with
      | true =>
        have hended : p.consumeToken.lookahead.type = .eof := by simp [htoken, tokenOf, hends]
        rw [scanLiteralRun, hended] at hrun
        cases hrun
        refine hstop (by simp [Recognizer.plain, hends]) fun _ => ?_
        simp only [endsText, decide_eq_true_eq] at hends
        rcases hends with rfl | rfl | rfl <;> rfl
      | false =>
        have htype : p.consumeToken.lookahead.type = charType x := by simp [htoken, tokenOf, hends]
        have hvalue : p.consumeToken.lookahead.value = x := by simp [htoken, tokenOf, hends]
        have hmore : charType x = .alpha ∨ charType x = .asciidigit → (if x = 92 then
            (.ok (len - 1, p.consumeToken.backtrack) : Except ParseError (Nat × Parser))
            else scanLiteralRun fuel (len + 1) p.consumeToken.consumeToken) = .ok (n, q) →
            Left len before (x :: after) q := by
          intro hx hrun
          split at hrun
          · rename_i h92
            cases hrun
            exact hstop (by simp [Recognizer.plain, h92]) fun _ => by rw [h92]; rfl
          · rename_i h92
            have hplain : Recognizer.plain x = true := by simp [Recognizer.plain, hends, h92, hx]
            have hne := hpos'.ne_nil ht' (by rintro rfl; simp [endsText] at hends)
            obtain ⟨x', after', rfl⟩ := List.exists_cons_of_ne_nil hne
            exact (ih (h.cons hplain) hpos' ht' hseen' hescp' hrun).cons hplain
        rw [scanLiteralRun, hvalue] at hrun
        split at hrun
        · rename_i hx
          exact hmore (Or.inr (htype ▸ hx)) hrun
        · rename_i hx
          exact hmore (Or.inl (htype ▸ hx)) hrun
        iterate 4
          · rename_i hx
            exact hquantifier (by rw [← htype, hx]; rfl) hrun
        · rename_i hdigit halpha hbrace hkleene hqmark hplus
          cases hrun
          rw [htype] at hdigit halpha hbrace hkleene hqmark hplus
          have hother : ¬ (charType x = .alpha ∨ charType x = .asciidigit) := not_or.mpr
            ⟨halpha, hdigit⟩
          refine hstop (by simp [Recognizer.plain, hother]) fun _ => ?_
          unfold SymbolType.quantifies
          split
          · rename_i hx; exact absurd hx hkleene
          · rename_i hx; exact absurd hx hplus
          · rename_i hx; exact absurd hx hqmark
          · rename_i hx; exact absurd hx hbrace
          · rfl

theorem parseLiteralRun_ok {nfa : Addr} (hrun : p.parseLiteralRun fuel = .ok (nfa, q)) :
    ∃ n r, scanLiteralRun fuel 2 (p.setEscp false).consumeToken = .ok (n, r) ∧
      Idle (r.setEscp true).consumeToken q := by
  obtain ⟨⟨n, r⟩, hr, hrun⟩ := bind_ok hrun
  obtain ⟨-, rfl⟩ := Prod.mk.inj (Except.ok.inj hrun)
  exact ⟨n, r, hr, rfl, rfl, rfl⟩

/-- A literal run behind its first character. -/
theorem left_of_parseLiteralRun {nfa : Addr} (hpos : p.scanner.Between (x :: before) text)
    (ht : p.scanner.Terminated) (hseen : p.scanner.seenNewline = false) (hne : text ≠ [])
    (hrun : p.parseLiteralRun fuel = .ok (nfa, q)) :
    ∃ r, Idle (r.setEscp true).consumeToken q ∧ r.parenCount = p.parenCount ∧
      Left 2 (x :: before) text r := by
  obtain ⟨n, r, hscan, hidle⟩ := parseLiteralRun_ok hrun
  obtain ⟨c, after, rfl⟩ := List.exists_cons_of_ne_nil hne
  have hparen : r.parenCount = p.parenCount := by
    obtain ⟨s, t', -, rfl⟩ := reads_scanLiteralRun hscan
    rfl
  have hpos' : (p.setEscp false).scanner.Between (x :: before) (c :: after) :=
    ⟨hpos.buffer, hpos.readhead⟩
  have htaken : Taken 2 (x :: before) := ⟨le_rfl, by simp, fun i hi => by omega⟩
  exact ⟨r, hidle, hparen,
    left_of_scanLiteralRun htaken hpos' (ht.congr rfl rfl) hseen rfl hscan⟩

/-- **A literal run.** Its first token has been read; as it was scanned it was `t`. -/
theorem At.literalRun {t : Token} {nfa : Addr} (hat : At { p with lookahead := t } text)
    (htype : t.type.structural = false) (hrun : p.parseLiteralRun fuel = .ok (nfa, q)) :
    ∃ rest, At q rest ∧ rest.length < text.length ∧ q.parenCount = p.parenCount ∧
      Continues text rest := by
  obtain ⟨ht, -, hl⟩ := hat
  cases hl with
  | @char older rest c hpos hseen hends h92 htoken =>
    have hne := hpos.ne_nil ht (by rintro rfl; simp [endsText] at hends)
    obtain ⟨r, hidle, hparen, hleft⟩ := left_of_parseLiteralRun hpos ht hseen hne hrun
    have hchar : Continues (c :: rest) rest :=
      continues_char hends h92 (by rw [← htoken]; exact htype)
    cases hleft with
    | @resumes rest' _ hat hlen hsame =>
      exact ⟨rest', hat.idle hidle, by simp only [List.length_cons]; omega, hidle.parenCount.trans hparen,
        hchar.trans hsame⟩
    | @newline taken _ hbefore hlen =>
      obtain rfl : taken = [] := List.eq_nil_of_length_eq_zero (by omega)
      obtain ⟨rfl, -⟩ := List.cons.inj hbefore
      simp [endsText] at hends
  | @escape older rest e hpos hseen he htoken =>
    have hne := hpos.ne_nil ht he
    obtain ⟨r, hidle, hparen, hleft⟩ := left_of_parseLiteralRun hpos ht hseen hne hrun
    cases hleft with
    | @resumes rest' hstays hat hlen hsame =>
      refine ⟨rest', hat.idle hidle, by simp only [List.length_cons]; omega,
        hidle.parenCount.trans hparen, .trans (continues_escape he ?_) hsame⟩
      rintro ⟨rfl, hback⟩
      exact hstays ⟨[], _, rfl, rfl, hback⟩
    | @newline taken _ hbefore hlen hback hat =>
      obtain rfl : taken = [] := List.eq_nil_of_length_eq_zero (by omega)
      obtain ⟨rfl, -⟩ := List.cons.inj hbefore
      refine ⟨10 :: rest, hat.idle hidle, by simp, hidle.parenCount.trans hparen, ?_⟩
      intro mark d h
      rw [meets_ended rfl] at h
      cases h
  | stop _ _ _ htoken => simp [show t = _ from htoken, SymbolType.structural] at htype
  | dangling _ _ htoken => simp [show t = _ from htoken, SymbolType.structural] at htype
  | newline _ _ _ htoken => simp [show t = _ from htoken, SymbolType.structural] at htype

end LiteralRun

end Parser

end Recognizer
