import Recognizer.Parse.Language
import Recognizer.Parse.Reading

/-!
# Literal runs

The default branch of `parse_literal_expression` reads ahead over letters and digits without
escapes, steps back to the last character it keeps and resumes with escapes. What it steps
back to is read once more, so that a newline that was escaped ends the pattern.
-/

namespace Recognizer

open Scanner

/-- The literal run that starts with a character. -/
def literalRun (c : Int) (text : List Int) : List Int := c :: text.takeWhile plain

/-- The run is followed by a quantifier. -/
def quantified (text : List Int) : Bool :=
  (charType ((text.dropWhile plain).headD 0)).quantifies

/-- The characters that go into one automaton: a quantifier takes the last one of several. -/
def takenOf (c : Int) (text : List Int) : List Int :=
  if 2 ≤ (literalRun c text).length ∧ quantified text = true then (literalRun c text).dropLast
  else literalRun c text

/-- What follows the characters taken. -/
def behindTaken (c : Int) (text : List Int) : List Int := (c :: text).drop (takenOf c text).length

/-- The token `regex_scan` reads with escapes in front of a text. -/
def nextToken : List Int → Token
  | [] => ⟨0, .eof⟩
  | c :: rest =>
    if c = 92 then
      if rest.headD 0 = eolSymbol then ⟨0, .eof⟩
      else if isdigit (rest.headD 0) then ⟨rest.headD 0 - 48, .backreference⟩
      else ⟨rest.headD 0, .alpha⟩
    else tokenOf c

section Split

variable {mid after : List Int} {c x y : Int}

/-- The plain characters that follow, up to the first other one. -/
theorem literalRun_split (hmid : ∀ z ∈ mid, plain z = true) (hx : plain x = false) :
    literalRun c (mid ++ x :: after) = c :: mid := by
  rw [literalRun, List.takeWhile_append_of_pos hmid, List.takeWhile_cons_of_neg (by simp [hx]),
    List.append_nil]

theorem quantified_split (hmid : ∀ z ∈ mid, plain z = true) (hx : plain x = false) :
    quantified (mid ++ x :: after) = (charType x).quantifies := by
  rw [quantified, List.dropWhile_append_of_pos hmid, List.dropWhile_cons_of_neg (by simp [hx]),
    List.headD_cons]

/-- The first character that is not plain. -/
theorem exists_split {text : List Int} (hx : x ∈ text) (hplain : plain x = false) :
    ∃ mid x after, text = mid ++ x :: after ∧ (∀ z ∈ mid, plain z = true) ∧ plain x = false := by
  induction text with
  | nil => exact absurd hx (List.not_mem_nil)
  | cons a text ih =>
    cases ha : plain a with
    | false => exact ⟨[], a, text, rfl, List.forall_mem_nil _, ha⟩
    | true =>
      have hmem : x ∈ text := by
        refine (List.mem_cons.mp hx).resolve_left ?_
        rintro rfl
        rw [hplain] at ha
        cases ha
      obtain ⟨mid, y, after, rfl, hmid, hy⟩ := ih hmem
      exact ⟨a :: mid, y, after, rfl, List.forall_mem_cons.mpr ⟨ha, hmid⟩, hy⟩

/-- The run is one character. -/
theorem takenOf_single (hx : plain x = false) : takenOf c (x :: after) = [c] := by
  have hrun : literalRun c ([] ++ x :: after) = [c] :=
    literalRun_split (List.forall_mem_nil _) hx
  rw [List.nil_append] at hrun
  rw [takenOf, hrun, if_neg fun h => by simp at h]

/-- The whole run of several characters. -/
theorem takenOf_whole (hmid : ∀ z ∈ mid, plain z = true) (hx : plain x = false)
    (hquantifies : (charType x).quantifies = false) :
    takenOf c (mid ++ x :: after) = c :: mid := by
  rw [takenOf, quantified_split hmid hx, literalRun_split hmid hx,
    if_neg fun h => by simp [hquantifies] at h]

/-- The run without the character a quantifier takes. -/
theorem takenOf_quantified (hmid : ∀ z ∈ mid ++ [y], plain z = true) (hx : plain x = false)
    (hquantifies : (charType x).quantifies = true) :
    takenOf c ((mid ++ [y]) ++ x :: after) = c :: mid := by
  rw [takenOf, quantified_split hmid hx, literalRun_split hmid hx,
    if_pos ⟨by simp, hquantifies⟩, ← List.cons_append, List.dropLast_concat]

/-- The scan over the whole run does not go back to the character in front of it. -/
theorem goesBack_whole (hmid : ∀ z ∈ mid, plain z = true) (hne : mid ≠ [])
    (hquantifies : (charType x).quantifies = false) :
    goesBack (mid ++ x :: after) = false := by
  match mid, hne with
  | [a], _ => simpa [goesBack, hquantifies] using hmid a (by simp)
  | a :: b :: mid, _ =>
    have hb : (charType b).quantifies = false := by
      by_contra hb
      have hplain := Parser.not_plain_of_quantifies (Bool.eq_true_of_not_eq_false hb)
      rw [hmid b (by simp)] at hplain
      cases hplain
    simpa [goesBack, hb] using hmid a (by simp)

/-- Nor does it in front of a quantifier, when the run has more than two characters. -/
theorem goesBack_long (hmid : ∀ z ∈ mid ++ [y], plain z = true) (hne : mid ≠ []) :
    goesBack ((mid ++ [y]) ++ x :: after) = false := by
  rw [List.append_assoc, List.singleton_append]
  refine goesBack_whole (fun z hz => hmid z (List.mem_append_left _ hz)) hne ?_
  by_contra hy
  have hplain := Parser.not_plain_of_quantifies (Bool.eq_true_of_not_eq_false hy)
  rw [hmid y (by simp)] at hplain
  cases hplain

/-- Where the scan goes back to the first character, that alone is taken. -/
theorem behindTaken_of_goesBack {text : List Int} (hmem : x ∈ text) (hplain : plain x = false)
    (hback : goesBack text = true) : behindTaken c text = text := by
  obtain ⟨mid, x, after, rfl, hmid, hx⟩ := exists_split hmem hplain
  rcases List.eq_nil_or_concat mid with rfl | ⟨init, y, rfl⟩
  · rw [behindTaken, List.nil_append, takenOf_single hx]
    rfl
  · rw [List.concat_eq_append] at *
    cases hquantifies : (charType x).quantifies with
    | true =>
      rcases eq_or_ne init [] with rfl | hne
      · rw [behindTaken, takenOf_quantified hmid hx hquantifies]
        rfl
      · rw [goesBack_long hmid hne] at hback
        cases hback
    | false =>
      rw [goesBack_whole hmid (by simp) hquantifies] at hback
      cases hback

end Split

/-- The token behind the characters taken; a newline that is read once more ends the text. -/
def resumed (c : Int) (text : List Int) : Token :=
  if c = 10 ∧ goesBack text = true then ⟨0, .eof⟩ else nextToken (behindTaken c text)

namespace Parser

variable {p q : Parser} {before older after text mid : List Int} {c x y z : Int}
  {fuel len : Nat}

/-- The read head stands in a text that is read without escapes. -/
structure Raw (p : Parser) (before text : List Int) : Prop where
  between : p.scanner.Between before text
  terminated : p.scanner.Terminated
  escp : p.scanner.escpSeq = false
  seen : p.scanner.seenNewline = false

/-- A character other than a newline is read. -/
theorem Raw.next (h : Raw p before (x :: text)) (hx : x ≠ 10) :
    Raw p.consumeToken (x :: before) text := by
  have hread := consumeToken_char h.between h.terminated h.seen h.escp
  refine ⟨h.between.forward (by rw [hread]) (by rw [hread]), ?_, ?_, ?_⟩
  · exact h.terminated.congr (by rw [hread]) (by rw [hread])
  · rw [hread]
    exact h.escp
  · rw [hread]
    exact decide_eq_false hx

theorem Raw.lookahead (h : Raw p before (x :: text)) : p.consumeToken.lookahead = tokenOf x := by
  rw [consumeToken_char h.between h.terminated h.seen h.escp]

/-- Going back reads a character other than a newline once more. -/
theorem Raw.back (h : Raw p (x :: y :: before) text) (hy : y ≠ 10) :
    Raw p.backtrack (y :: before) (x :: text) := by
  have hread := backtrack_char h.between h.terminated h.seen h.escp
  refine ⟨⟨?_, ?_⟩, ?_, ?_, ?_⟩
  · rw [hread]
    simpa using h.between.buffer
  · rw [hread]
    simp
  · exact h.terminated.congr (by rw [hread]) (by rw [hread])
  · rw [hread]
    exact h.escp
  · rw [hread]
    exact decide_eq_false hy

/-- Going back to a newline ends the pattern. -/
theorem Raw.back_newline (h : Raw p (x :: 10 :: before) text) :
    p.backtrack.scanner.seenNewline = true := by
  rw [backtrack_char h.between h.terminated h.seen h.escp]
  rfl

/-- The next token, with escapes again. -/
theorem Raw.resume (h : Raw p before text) (hne : text ≠ []) :
    (p.setEscp true).consumeToken.lookahead = nextToken text := by
  have hpos : (p.setEscp true).scanner.Between before text :=
    ⟨h.between.buffer, h.between.readhead⟩
  have ht : (p.setEscp true).scanner.Terminated := h.terminated.congr rfl rfl
  obtain ⟨c, rest, rfl⟩ := List.exists_cons_of_ne_nil hne
  unfold nextToken
  dsimp only
  by_cases h92 : c = 92
  · subst h92
    obtain ⟨e, rest, rfl⟩ := List.exists_cons_of_ne_nil
      (hpos.advance.ne_nil (ht.congr rfl rfl) (by decide))
    rw [if_pos rfl, List.headD_cons]
    by_cases he : e = eolSymbol
    · subst he
      rw [if_pos rfl, consumeToken, regexScan_dangling hpos ht h.seen rfl]
    · rw [if_neg he, consumeToken, regexScan_escape hpos ht h.seen rfl he]
  · rw [if_neg h92, consumeToken, regexScan_char hpos ht h.seen (.inr h92)]

/-- Behind a newline the pattern has ended. -/
theorem resume_seen (hseen : p.scanner.seenNewline = true) :
    (p.setEscp true).consumeToken.lookahead = ⟨0, .eof⟩ := by
  rw [consumeToken, regexScan_seen (by exact hseen)]
  rfl

/-- The scan takes the plain characters one after the other. -/
theorem scanLiteralRun_plain (h : Raw p before (mid ++ text)) (hmid : ∀ z ∈ mid, plain z = true) :
    ∃ p', Reads p p' ∧ Raw p' (mid.reverse ++ before) text ∧
      scanLiteralRun (fuel + mid.length) len p.consumeToken =
        scanLiteralRun fuel (len + mid.length) p'.consumeToken := by
  induction mid generalizing p before len with
  | nil => exact ⟨p, .refl p, h, rfl⟩
  | cons x mid ih =>
    have hx := hmid x List.mem_cons_self
    simp only [plain, Bool.and_eq_true, Bool.not_eq_true', decide_eq_true_eq] at hx
    obtain ⟨⟨hends, h92⟩, htype⟩ := hx
    have h10 : x ≠ 10 := by
      rintro rfl
      simp [endsText] at hends
    have htoken : p.consumeToken.lookahead = ⟨x, charType x⟩ := by
      rw [h.lookahead, tokenOf, hends]
      rfl
    obtain ⟨p', hreads, hraw, hrun⟩ := @ih p.consumeToken (x :: before) (len + 1)
      (h.next h10) fun z hz => hmid z (List.mem_cons_of_mem x hz)
    refine ⟨p', (reads_consumeToken p).trans hreads, by simpa using hraw, ?_⟩
    have hstep : scanLiteralRun (fuel + mid.length + 1) len p.consumeToken =
        scanLiteralRun (fuel + mid.length) (len + 1) p.consumeToken.consumeToken := by
      rw [scanLiteralRun, htoken]
      dsimp only
      rcases htype with htype | htype
      · rw [htype]
        exact if_neg h92
      · rw [htype]
        exact if_neg h92
    rw [List.length_cons, ← Nat.add_assoc, hstep, hrun]
    congr 1
    omega

/-- Behind the plain characters the scan steps back, once more for a quantifier. -/
theorem scanLiteralRun_stop (h : Raw p before (x :: after)) (hx : plain x = false) :
    scanLiteralRun (fuel + 1) len p.consumeToken =
      if (charType x).quantifies = true ∧ 1 < len - 1 then
        .ok (len - 2, p.consumeToken.backtrack.backtrack)
      else .ok (len - 1, p.consumeToken.backtrack) := by
  have htoken := h.lookahead
  cases hends : endsText x with
  | true =>
    have hquantifies : (charType x).quantifies = false := by
      simp only [endsText, decide_eq_true_eq] at hends
      rcases hends with rfl | rfl | rfl
      · rfl
      · rfl
      · rfl
    rw [if_neg (by simp [hquantifies]), scanLiteralRun, htoken, tokenOf, if_pos hends]
  | false =>
    rw [tokenOf, if_neg (by simp [hends])] at htoken
    rw [scanLiteralRun, htoken]
    dsimp only
    by_cases h92 : x = 92
    · subst h92
      rfl
    · have hother : ¬ (charType x = .alpha ∨ charType x = .asciidigit) := fun htype => by
        simp [plain, hends, h92, htype] at hx
      cases htype : charType x with
      | alpha => exact absurd (.inl htype) hother
      | asciidigit => exact absurd (.inr htype) hother
      | openbrace | kleene | qmark | plus =>
        change (if 1 < len - 1 then _ else _) = if true = true ∧ 1 < len - 1 then _ else _
        by_cases hlen : 1 < len - 1
        · rw [if_pos hlen, if_pos ⟨rfl, hlen⟩]
        · rw [if_neg hlen, if_neg fun h => hlen h.2]
      | _ => rfl

theorem consumeToken_buffer (p : Parser) : p.consumeToken.scanner.buffer = p.scanner.buffer :=
  regexScan_buffer p.scanner

theorem backtrack_buffer (p : Parser) : p.backtrack.scanner.buffer = p.scanner.buffer := by
  unfold backtrack
  rw [consumeToken_buffer]
  exact (unput_spec _).1.trans (unput_spec _).1

/-- Going back, the scan resumes in front of the last character, unless it comes to a newline. -/
theorem Raw.resume_back (h : Raw p (x :: y :: before) text) :
    (p.backtrack.setEscp true).consumeToken.lookahead =
      if y = 10 then ⟨0, .eof⟩ else nextToken (x :: text) := by
  by_cases hy : y = 10
  · subst hy
    rw [if_pos rfl]
    exact resume_seen h.back_newline
  · rw [if_neg hy]
    exact (h.back hy).resume (List.cons_ne_nil x text)

/-- A newline behind the run ends the pattern. -/
theorem Raw.resume_newline (h : Raw p before (10 :: text)) :
    (p.consumeToken.backtrack.setEscp true).consumeToken.lookahead = ⟨0, .eof⟩ := by
  have hseen : p.consumeToken.scanner.seenNewline = true := by
    rw [consumeToken_char h.between h.terminated h.seen h.escp]
    rfl
  refine resume_seen ?_
  rw [backtrack_seen hseen]
  exact ((unput_spec _).2.2.1.trans (unput_spec _).2.2.1).trans hseen

/-- A plain character is not a newline. -/
theorem ne_newline (hx : plain x = true) : x ≠ 10 := by
  rintro rfl
  rw [not_plain_newline] at hx
  cases hx

/-- The first character is read once more. -/
theorem Raw.resume_single (h : Raw p (c :: before) (x :: after)) (hx : plain x = false) :
    (p.consumeToken.backtrack.setEscp true).consumeToken.lookahead = resumed c (x :: after) := by
  have hback : goesBack (x :: after) = true := by simp [goesBack, hx]
  rw [resumed, hback, behindTaken, takenOf_single hx]
  by_cases h10 : x = 10
  · subst h10
    rw [h.resume_newline]
    split <;> rfl
  · exact ((h.next h10).resume_back).trans (by simp)

/-- The last character is read once more. -/
theorem Raw.resume_whole (h : Raw p (y :: older) (x :: after))
    (hmid : ∀ z ∈ mid ++ [y], plain z = true) (hx : plain x = false)
    (hquantifies : (charType x).quantifies = false) :
    (p.consumeToken.backtrack.setEscp true).consumeToken.lookahead =
      resumed c ((mid ++ [y]) ++ x :: after) := by
  have hrest : behindTaken c ((mid ++ [y]) ++ x :: after) = x :: after := by
    rw [behindTaken, takenOf_whole hmid hx hquantifies]
    simp
  rw [resumed, hrest, goesBack_whole hmid (by simp) hquantifies, if_neg fun h => by simp at h]
  by_cases h10 : x = 10
  · subst h10
    rw [h.resume_newline]
    rfl
  · rw [(h.next h10).resume_back, if_neg (ne_newline (hmid y (by simp)))]

/-- In front of a quantifier the last character but one is read once more. -/
theorem Raw.resume_quantified (h : Raw p (y :: (mid.reverse ++ c :: before)) (x :: after))
    (hmid : ∀ z ∈ mid ++ [y], plain z = true) (hx : plain x = false)
    (hquantifies : (charType x).quantifies = true) :
    (p.consumeToken.backtrack.backtrack.setEscp true).consumeToken.lookahead =
      resumed c ((mid ++ [y]) ++ x :: after) := by
  have h10 : x ≠ 10 := by
    rintro rfl
    cases hquantifies
  have hy : plain y = true := hmid y (by simp)
  have hback := (h.next h10).back (ne_newline hy)
  have hrest : behindTaken c ((mid ++ [y]) ++ x :: after) = y :: x :: after := by
    rw [behindTaken, takenOf_quantified hmid hx hquantifies]
    simp
  rw [resumed, hrest]
  rcases List.eq_nil_or_concat mid with rfl | ⟨init, z, rfl⟩
  · have hgoes : goesBack (([] ++ [y]) ++ x :: after) = true := by simp [goesBack, hquantifies]
    rw [hgoes, hback.resume_back]
    simp
  · rw [List.concat_eq_append] at *
    have hsecond : Raw p.consumeToken.backtrack (y :: z :: (init.reverse ++ c :: before))
        (x :: after) := by
      simpa using hback
    rw [hsecond.resume_back, if_neg (ne_newline (hmid z (by simp))),
      goesBack_long hmid (by simp), if_neg fun h => by simp at h]

/-- **The scan over a literal run.** It keeps the characters taken and resumes behind them,
unless the only one is a newline. -/
theorem scanLiteralRun_spec (h : Raw p (c :: before) (mid ++ x :: after))
    (hmid : ∀ z ∈ mid, plain z = true) (hx : plain x = false) :
    ∃ s, scanLiteralRun (fuel + 1 + mid.length) 2 p.consumeToken =
        .ok ((takenOf c (mid ++ x :: after)).length, s) ∧
      s.scanner.buffer = p.scanner.buffer ∧
      (s.setEscp true).consumeToken.lookahead = resumed c (mid ++ x :: after) := by
  obtain ⟨p', hreads, hraw, hscan⟩ := @scanLiteralRun_plain p (c :: before) (x :: after) mid
    (fuel + 1) 2 h hmid
  have hbuffer : p'.scanner.buffer = p.scanner.buffer := by
    rw [hraw.between.buffer, h.between.buffer]
    simp
  rw [hscan, scanLiteralRun_stop hraw hx]
  rcases List.eq_nil_or_concat mid with rfl | ⟨init, y, rfl⟩
  · refine ⟨p'.consumeToken.backtrack, ?_, ?_, hraw.resume_single hx⟩
    · rw [if_neg fun h => absurd h.2 (by simp), List.nil_append, takenOf_single hx]
      rfl
    · rw [backtrack_buffer, consumeToken_buffer, hbuffer]
  · rw [List.concat_eq_append] at *
    rw [List.reverse_append, List.reverse_singleton, List.singleton_append,
      List.cons_append] at hraw
    cases hquantifies : (charType x).quantifies with
    | true =>
      refine ⟨p'.consumeToken.backtrack.backtrack, ?_, ?_,
        hraw.resume_quantified hmid hx hquantifies⟩
      · rw [if_pos ⟨rfl, by simp; omega⟩, takenOf_quantified hmid hx hquantifies,
          List.length_append, List.length_cons]
        simp [Nat.add_comm]
      · rw [backtrack_buffer, backtrack_buffer, consumeToken_buffer, hbuffer]
    | false =>
      refine ⟨p'.consumeToken.backtrack, ?_, ?_, hraw.resume_whole hmid hx hquantifies⟩
      · rw [if_neg fun h => by simp at h, takenOf_whole hmid hx hquantifies, List.length_cons]
        congr 2
        omega
      · rw [backtrack_buffer, consumeToken_buffer, hbuffer]

/-- The parser has read the first character of a literal run, escaped or not. -/
structure AtRun (p : Parser) (c : Int) (text : List Int) : Prop where
  between : ∃ before, p.scanner.Between (c :: before) text
  terminated : p.scanner.Terminated
  escp : p.scanner.escpSeq = true
  seen : p.scanner.seenNewline = false
  char : c ≠ eolSymbol
  type : p.lookahead.type = .alpha ∨ p.lookahead.type = .asciidigit ∨ p.lookahead.type = .colon

/-- At an unescaped character; `parse_sub_expression` calls a hyphen a letter. -/
theorem At.atRun (hat : At p (c :: text)) (h92 : c ≠ 92) (hends : p.lookahead.type ≠ .eof)
    {t : Token} (htype : t.type = .alpha ∨ t.type = .asciidigit ∨ t.type = .colon) :
    AtRun { p with lookahead := t } c text := by
  cases hat.lexed with
  | char hpos hseen hplain =>
    refine ⟨⟨_, hpos⟩, hat.terminated, hat.escp, hseen, ?_, htype⟩
    rintro rfl
    cases hplain
  | escape | dangling => exact absurd rfl h92
  | stop _ _ _ htoken | newline _ _ _ htoken => exact absurd (by rw [htoken]) hends

/-- At an escaped character. -/
theorem At.atRun_escape (hat : At p (92 :: c :: text)) (htype : p.lookahead.type = .alpha) :
    AtRun p c text := by
  cases hat.lexed with
  | char _ _ _ h92 => exact absurd rfl h92
  | escape hpos hseen hc => exact ⟨⟨_, hpos⟩, hat.terminated, hat.escp, hseen, hc, .inl htype⟩
  | dangling _ _ htoken =>
    rw [htoken] at htype
    cases htype
  | stop _ _ hc => rcases hc with hc | hc <;> cases hc

/-- The end of the pattern is still to come. -/
theorem AtRun.mem_eolSymbol (hat : AtRun p c text) : eolSymbol ∈ text := by
  obtain ⟨before, hbetween⟩ := hat.between
  have hlast := hat.terminated.last
  obtain ⟨y, rest, rfl⟩ := List.exists_cons_of_ne_nil (hbetween.ne_nil hat.terminated hat.char)
  rw [hbetween.buffer, List.getLast?_append_cons] at hlast
  exact List.mem_of_getLast? hlast

/-- The automaton spells the characters taken, and the next token is the one behind them. -/
structure KeepsRun (q : Parser) (nfa : Addr) (c : Int) (text : List Int) : Prop where
  spelled : spelled q.ctrl nfa = {takenOf c text}
  lookahead : q.lookahead = nextToken (behindTaken c text)
  escp : q.scanner.escpSeq = true

/-- The characters taken stand in the text. -/
theorem takenOf_prefix (c : Int) (text : List Int) : takenOf c text <+: c :: text := by
  have hrun : literalRun c text <+: c :: text :=
    List.cons_prefix_cons.mpr ⟨rfl, List.takeWhile_prefix plain⟩
  unfold takenOf
  split
  · exact (List.dropLast_prefix _).trans hrun
  · exact hrun

theorem takenOf_ne_nil (c : Int) (text : List Int) : takenOf c text ≠ [] := by
  unfold takenOf
  split
  · rename_i h
    intro hnil
    have hlen := congrArg List.length hnil
    rw [List.length_dropLast] at hlen
    simp only [List.length_nil] at hlen
    omega
  · exact List.cons_ne_nil c _

/-- The source text of the automaton. -/
theorem map_charAt {s : Scanner} (hbuffer : s.buffer = before.reverse ++ text) {n : Nat}
    (hn : n ≤ text.length) :
    (List.range n).map (fun i => s.charAt (before.length + i)) = text.take n := by
  refine List.ext_getElem (by simp [hn]) fun i hi hi' => ?_
  have hlt : i < text.length := by
    simp only [List.length_map, List.length_range] at hi
    omega
  rw [List.getElem_map, List.getElem_range, List.getElem_take, charAt, hbuffer]
  simp [hlt]

/-- The automaton of some characters. -/
def literalNfa (c : NFACtrl) (chars : List Int) : Addr × NFACtrl :=
  if chars.length > 1 then c.newLliteralNfa chars
  else c.newLiteralNfa (chars.headD 0) .literal

theorem spelled_literalNfa {c : NFACtrl} {chars : List Int} (howns : Owns c [])
    (hne : chars ≠ []) : spelled (literalNfa c chars).2 (literalNfa c chars).1 = {chars} := by
  have hs : Spelling c [] := ⟨List.forall_mem_nil _, howns, List.forall_mem_nil _⟩
  obtain ⟨a, rest, rfl⟩ := List.exists_cons_of_ne_nil hne
  unfold literalNfa
  split
  · exact (hs.lliteral a rest).operand
  · rename_i hlen
    obtain rfl : rest = [] := List.eq_nil_of_length_eq_zero (by
      rw [List.length_cons] at hlen
      omega)
    exact (hs.literal a).operand

theorem nextChar_escpSeq (s : Scanner) : s.nextChar.2.escpSeq = s.escpSeq := by
  unfold nextChar
  dsimp only
  split <;> rfl

theorem scanEscape_escpSeq (s : Scanner) : s.scanEscape.2.escpSeq = s.escpSeq := by
  have hunput : s.nextChar.2.unput.escpSeq = s.nextChar.2.escpSeq := by
    unfold unput
    split <;> rfl
  unfold scanEscape
  split
  · dsimp only
    split
    · split <;> exact nextChar_escpSeq s
    · exact hunput.trans (nextChar_escpSeq s)
  · rfl

/-- The scanner leaves the flag for escapes as it is. -/
theorem regexScan_escpSeq (s : Scanner) : s.regexScan.escpSeq = s.escpSeq := by
  have hnext := nextChar_escpSeq s
  have hescape := (scanEscape_escpSeq s.nextChar.2).trans hnext
  unfold regexScan
  split
  · rfl
  · dsimp only
    repeat' split
    all_goals assumption

/-- **The default branch of `parse_literal_expression`.** -/
theorem parseLiteralRun_spec (hat : AtRun p c text)
    (hfuel : (text.takeWhile plain).length < fuel) :
    ∃ q, p.parseLiteralRun fuel = .ok ((literalNfa p.ctrl (takenOf c text)).1, q) ∧
      q.ctrl = (literalNfa p.ctrl (takenOf c text)).2 ∧ q.lookahead = resumed c text ∧
      q.scanner.escpSeq = true := by
  obtain ⟨before, hbetween⟩ := hat.between
  obtain ⟨mid, x, after, htext, hmid, hx⟩ := exists_split hat.mem_eolSymbol (by decide)
  rw [htext] at hbetween hfuel ⊢
  have hraw : Raw (p.setEscp false) (c :: before) (mid ++ x :: after) :=
    ⟨⟨hbetween.buffer, hbetween.readhead⟩, hat.terminated.congr rfl rfl, rfl, hat.seen⟩
  rw [List.takeWhile_append_of_pos hmid, List.takeWhile_cons_of_neg (by simp [hx]),
    List.append_nil] at hfuel
  obtain ⟨s, hscan, hbuffer, hnext⟩ := @scanLiteralRun_spec _ before after mid c x
    (fuel - 1 - mid.length) hraw hmid hx
  rw [show fuel - 1 - mid.length + 1 + mid.length = fuel by omega] at hscan
  have hctrl : s.ctrl = p.ctrl := by
    obtain ⟨sc, t, -, rfl⟩ := reads_scanLiteralRun hscan
    rfl
  have hsrc : p.scanner.getCurPos = before.length := by
    simp [getCurPos, hat.terminated.begins, hbetween.readhead]
  have htext' : s.scanner.buffer = before.reverse ++ (c :: (mid ++ x :: after)) := by
    rw [hbuffer]
    exact hbetween.buffer.trans (by simp)
  have hprefix := takenOf_prefix c (mid ++ x :: after)
  have hchars : (List.range (takenOf c (mid ++ x :: after)).length).map
      (fun i => s.scanner.charAt (before.length + i)) = takenOf c (mid ++ x :: after) := by
    rw [map_charAt htext' hprefix.length_le]
    exact (List.prefix_iff_eq_take.mp hprefix).symm
  have hfirst : s.scanner.charAt before.length = (takenOf c (mid ++ x :: after)).headD 0 := by
    obtain ⟨a, rest, htaken⟩ := List.exists_cons_of_ne_nil
      (takenOf_ne_nil c (mid ++ x :: after))
    rw [htaken] at hprefix ⊢
    rw [List.headD_cons, (List.cons_prefix_cons.mp hprefix).1, charAt, htext']
    simp
  refine ⟨{ s.setEscp true with
    ctrl := (literalNfa p.ctrl (takenOf c (mid ++ x :: after))).2 }.consumeToken, ?_, ?_, ?_, ?_⟩
  · have hnfa : (if (takenOf c (mid ++ x :: after)).length > 1 then
          s.ctrl.newLliteralNfa ((List.range (takenOf c (mid ++ x :: after)).length).map
            fun i => s.scanner.charAt (before.length + i))
        else s.ctrl.newLiteralNfa (s.scanner.charAt before.length) .literal) =
        literalNfa p.ctrl (takenOf c (mid ++ x :: after)) := by
      rw [hctrl, hchars, hfirst]
      rfl
    unfold parseLiteralRun
    rw [hscan, hsrc]
    exact congrArg (fun r : Addr × NFACtrl =>
      Except.ok (r.1, ({ s.setEscp true with ctrl := r.2 } : Parser).consumeToken)) hnfa
  · rfl
  · exact hnext
  · exact (regexScan_escpSeq _).trans rfl

/-- **Literal runs.** The default branch of `parse_literal_expression` pushes the automaton of
the characters taken and goes on with the token behind them, unless the only character taken is
an escaped newline and the text goes on. -/
theorem keepsRun_iff (hat : AtRun p c text) (howns : Owns p.ctrl [])
    (hfuel : (text.takeWhile plain).length < fuel) :
    ∃ nfa q, p.parseLiteralRun fuel = .ok (nfa, q) ∧
      parseLiteralExpression (fuel + 1) p = parseQuantifierExpression fuel (q.push nfa) ∧
      (KeepsRun q nfa c text ↔
        ¬ (c = 10 ∧ goesBack text = true ∧ nextToken text ≠ ⟨0, .eof⟩)) := by
  obtain ⟨q, hrun, hctrl, hlookahead, hescp⟩ := parseLiteralRun_spec hat hfuel
  refine ⟨_, q, hrun, ?_, ?_⟩
  · rw [parseLiteralExpression]
    rcases hat.type with htype | htype | htype <;> rw [htype, hrun] <;> rfl
  · have hspelled : spelled q.ctrl (literalNfa p.ctrl (takenOf c text)).1 = {takenOf c text} := by
      rw [hctrl]
      exact spelled_literalNfa howns (takenOf_ne_nil c text)
    have hnext : q.lookahead = nextToken (behindTaken c text) ↔
        ¬ (c = 10 ∧ goesBack text = true ∧ nextToken text ≠ ⟨0, .eof⟩) := by
      rw [hlookahead, resumed]
      by_cases hback : c = 10 ∧ goesBack text = true
      · rw [if_pos hback, behindTaken_of_goesBack hat.mem_eolSymbol (by decide) hback.2]
        constructor
        · exact fun heq h => h.2.2 heq.symm
        · exact fun h => by_contra fun hne => h ⟨hback.1, hback.2, fun heq => hne heq.symm⟩
      · rw [if_neg hback]
        exact iff_of_true rfl fun h => hback ⟨h.1, h.2.1⟩
    exact ⟨fun h => hnext.mp h.lookahead, fun h => ⟨hspelled, hnext.mpr h, hescp⟩⟩

/-- The parser in front of a pattern, with its first token read. -/
def inFront (pattern : List Int) : Parser :=
  ({ scanner := Scanner.initScanner pattern, ctrl := ({} : NFACtrl).allocInit pattern.length } :
    Parser).consumeToken

theorem at_inFront {pattern : List Int} (hnul : 0 ∉ pattern) (hlast : pattern.getLast? ≠ some 10) :
    At (inFront pattern) (pattern ++ [eolSymbol]) := by
  have hinit : Scanner.initScanner pattern =
      { buffer := pattern ++ [eolSymbol], lineLen := pattern.length + 1 } := if_neg hlast
  refine @at_consumeToken _ _ [] ⟨?_, ?_⟩ ⟨?_, ?_, ?_⟩ ?_ ?_ (by simp)
  all_goals simp [hinit, hnul, eolSymbol]

theorem owns_inFront {pattern : List Int} (hpattern : 0 < pattern.length) :
    Owns (inFront pattern).ctrl [] :=
  ((Built.init hpattern).spelling).owns

/-- In front of `ab*` the run is `ab`, of which the letter `a` is taken. -/
theorem keepsRun_iff_ab : ∃ nfa q, (inFront (bytes "ab*")).parseLiteralRun 2 = .ok (nfa, q) ∧
    KeepsRun q nfa 97 (bytes "b*" ++ [eolSymbol]) := by
  have hat : At (inFront (bytes "ab*")) (bytes "ab*" ++ [eolSymbol]) :=
    at_inFront (by decide) (by decide)
  have hrun : AtRun (inFront (bytes "ab*")) 97 (bytes "b*" ++ [eolSymbol]) :=
    hat.atRun (by decide) (by decide) (.inl (by decide))
  have hfuel : ((bytes "b*" ++ [eolSymbol]).takeWhile plain).length < 2 := by decide
  obtain ⟨nfa, q, hq, -, hkeeps⟩ := keepsRun_iff hrun (owns_inFront (by decide)) hfuel
  exact ⟨nfa, q, hq, hkeeps.mpr fun h => absurd h.1 (by decide)⟩

/-- An escaped newline in front of `(a)` ends the pattern. -/
theorem escaped_newline_ends : ∃ nfa q,
    AtRun (inFront (92 :: 10 :: bytes "(a)")) 10 (bytes "(a)" ++ [eolSymbol]) ∧
      (inFront (92 :: 10 :: bytes "(a)")).parseLiteralRun 1 = .ok (nfa, q) ∧
      ¬ KeepsRun q nfa 10 (bytes "(a)" ++ [eolSymbol]) := by
  have hat : At (inFront (92 :: 10 :: bytes "(a)")) (92 :: 10 :: bytes "(a)" ++ [eolSymbol]) :=
    at_inFront (by decide) (by decide)
  have hrun : AtRun (inFront (92 :: 10 :: bytes "(a)")) 10 (bytes "(a)" ++ [eolSymbol]) :=
    hat.atRun_escape (by decide)
  have hfuel : ((bytes "(a)" ++ [eolSymbol]).takeWhile plain).length < 1 := by decide
  obtain ⟨q, hq, -, hlookahead, -⟩ := parseLiteralRun_spec hrun hfuel
  refine ⟨_, q, hrun, hq, fun hkeeps => ?_⟩
  have hsame := hkeeps.lookahead.symm.trans hlookahead
  exact absurd hsame (by decide)

end Parser

end Recognizer
