import Recognizer.Parse.IntervalMerge
import Recognizer.Parse.Reading

/-!
# The forms of an interval

An interval is written with one bound or two, each of which may be missing. The digits are
read from the text, and a missing bound is told from one that is there by the value that
stays in its place; whether there is a comma is forgotten.
-/

namespace Recognizer

open Scanner

/-- A decimal number of at most two digits. -/
structure Numeral where
  digits : List Int
  nonempty : digits ≠ []
  short : digits.length ≤ 2
  decimal : ∀ d ∈ digits, isdigit d = true

/-- The number that is written. -/
def Numeral.value (n : Numeral) : Nat :=
  n.digits.foldl (fun value d => 10 * value + (d - 48).toNat) 0

private theorem isdigit_singleton (n : Fin 10) : ∀ d ∈ [48 + (n.val : Int)], isdigit d = true := by
  intro d hd
  obtain rfl := List.mem_singleton.mp hd
  simp [isdigit]
  omega

/-- A number of one digit. -/
def Numeral.digit (n : Fin 10) : Numeral :=
  ⟨[48 + (n.val : Int)], List.cons_ne_nil _ _, Nat.le_succ 1, isdigit_singleton n⟩

/-- An interval in braces. -/
inductive IntervalForm where
  | exactly (m : Numeral)
  | atLeast (m : Numeral)
  | atMost (n : Numeral)
  | between (m n : Numeral)
  | any

namespace IntervalForm

/-- The characters between the braces. -/
def inner : IntervalForm → List Int
  | exactly m => m.digits
  | atLeast m => m.digits ++ [44]
  | atMost n => 44 :: n.digits
  | between m n => m.digits ++ 44 :: n.digits
  | any => [44]

/-- The interval as it is written. -/
def text (form : IntervalForm) : List Int := 123 :: form.inner ++ [125]

/-- The bounds are in order. -/
def Ordered : IntervalForm → Prop
  | between m n => m.value ≤ n.value
  | _ => True

/-- The numbers of repetitions the form stands for. -/
def Means : IntervalForm → Nat → Prop
  | exactly m, k => k = m.value
  | atLeast m, k => m.value ≤ k
  | atMost n, k => k ≤ n.value
  | between m n, k => m.value ≤ k ∧ k ≤ n.value
  | any, _ => True

/-- The bounds `parse_interval_expression` reads. -/
def bounds : IntervalForm → Int × Int
  | exactly m => (m.value, -1)
  | atLeast m => (m.value, -1)
  | atMost n => (-1, n.value)
  | between m n => (m.value, n.value)
  | any => (-1, -1)

end IntervalForm

namespace Parser

variable {p q r : Parser} {before text rest : List Int} {c d : Int} {fuel : Nat}

/-- The read head stands in front of a text. -/
structure InFront (p : Parser) (text : List Int) : Prop where
  between : ∃ before, p.scanner.Between before text
  terminated : p.scanner.Terminated
  escp : p.scanner.escpSeq = true
  seen : p.scanner.seenNewline = false

/-- The lookahead is the character in front of a text. -/
structure Stands (p : Parser) (c : Int) (text : List Int) : Prop extends InFront p text where
  token : p.lookahead = ⟨c, charType c⟩

/-- A character that neither ends the text nor escapes the next one is read. -/
theorem InFront.next (h : InFront p (c :: text)) (hends : endsText c = false) (h92 : c ≠ 92) :
    Stands p.consumeToken c text := by
  obtain ⟨before, hpos⟩ := h.between
  have hscan := regexScan_char hpos h.terminated h.seen (.inr h92)
  have h10 : c ≠ 10 := fun h10 => by simp [h10, endsText] at hends
  refine ⟨⟨⟨c :: before, ?_⟩, ?_, ?_, ?_⟩, ?_⟩
  · exact hpos.forward (by simp [consumeToken, hscan]) (by simp [consumeToken, hscan])
  · exact h.terminated.congr (by simp [consumeToken, hscan]) (by simp [consumeToken, hscan])
  · simp [consumeToken, hscan, h.escp]
  · simp [consumeToken, hscan, h10]
  · simp [consumeToken, hscan, tokenOf, hends]

/-- Behind a character that is the lookahead. -/
theorem At.inFront (hat : At p (c :: text)) (hends : endsText c = false) (h92 : c ≠ 92) :
    InFront p text := by
  obtain ⟨hterminated, hescp, hlexed⟩ := hat
  cases hlexed with
  | char hpos hseen => exact ⟨⟨_, hpos⟩, hterminated, hescp, hseen⟩
  | escape => exact absurd rfl h92
  | stop hpos hseen hc =>
    rcases hc with rfl | rfl
    · simp [endsText] at hends
    · simp [endsText] at hends
  | dangling => exact absurd rfl h92
  | newline => simp [endsText] at hends

/-- The next token is no opening brace unless the next character is one. -/
theorem InFront.ne_openbrace (h : InFront p text) (hne : text ≠ [])
    (hhead : text.head? ≠ some 123) :
    p.consumeToken.lookahead.type ≠ .openbrace := by
  obtain ⟨before, hpos⟩ := h.between
  have hat := at_consumeToken hpos h.terminated h.escp h.seen hne
  intro htype
  obtain ⟨-, -, hlexed⟩ := hat
  cases hlexed with
  | char _ _ _ _ hchar =>
    have hcode := eq_of_charType (hchar.symm.trans htype) (by decide) (by decide)
    exact hhead (by rw [List.head?_cons]; exact hcode.symm)
  | escape _ _ _ hescape =>
    rw [htype] at hescape
    split at hescape
    · cases hescape
    · cases hescape
  | stop _ _ _ htoken => simp [htoken] at htype
  | dangling _ _ htoken => simp [htoken] at htype
  | newline _ _ _ htoken => simp [htoken] at htype

theorem isdigit_bounds (hd : isdigit d = true) : 0 ≤ d - 48 ∧ d - 48 ≤ 9 := by
  have hrange : 48 ≤ d ∧ d ≤ 57 := by simpa [isdigit] using hd
  omega

theorem asInt_of_bounds {m : Int} (hlow : 0 ≤ m) (hhigh : m ≤ 2147483647) : asInt m = some m :=
  if_pos ⟨by omega, hhigh⟩

/-- One digit, when nothing overflows. -/
theorem foldDigit_of_bounds (hd : isdigit d = true) (hpos : 0 ≤ decPos)
    (hfits : decPos * 10 + 1 ≤ 2147483647) (hlow : 0 ≤ value * (decPos * 10))
    (hhigh : value * (decPos * 10) + 9 ≤ 2147483647) :
    foldDigit d (decPos, value) =
      some (decPos * 10 + 1, value * (decPos * 10) + (d - 48)) := by
  have hbounds := isdigit_bounds hd
  rw [foldDigit, asInt_of_bounds (by omega) (by omega)]
  simp only [Option.bind_eq_bind, Option.bind_some]
  rw [asInt_of_bounds hlow (by omega)]
  simp only [Option.bind_some]
  rw [asInt_of_bounds (by omega) (by omega)]
  simp only [Option.bind_some]
  rw [asInt_of_bounds (by omega) hfits]
  rfl

theorem discardWhitespace_stays (hblank : ¬ (p.lookahead.value = 32 ∨ p.lookahead.value = 9)) :
    p.discardWhitespace (fuel + 1) = .ok p := by
  rw [discardWhitespace, if_neg hblank]

/-- A digit is folded into the variable. -/
theorem convertToUint_digit {decPos value decPos' value' : Int}
    (htype : p.lookahead.type = .asciidigit)
    (hfold : foldDigit p.lookahead.value (decPos, value) = some (decPos', value')) :
    convertToUint (fuel + 1) decPos value p = convertToUint fuel decPos' value' p.consumeToken := by
  rw [convertToUint, if_pos htype, hfold]

/-- A digit behind which the variable or `dec_pos` does not fit. -/
theorem convertToUint_overflows {decPos value : Int} (htype : p.lookahead.type = .asciidigit)
    (hfold : foldDigit p.lookahead.value (decPos, value) = none) :
    convertToUint (fuel + 1) decPos value p = .error .intOverflow := by
  rw [convertToUint, if_pos htype, hfold]

/-- Any other token ends the digits. -/
theorem convertToUint_stops {decPos value : Int} (htype : p.lookahead.type ≠ .asciidigit) :
    convertToUint (fuel + 1) decPos value p = .ok (value, p) := by
  rw [convertToUint, if_neg htype]

/-- A comma or a closing brace ends a bound. -/
def EndsBound (c : Int) : Prop := c = 44 ∨ c = 125

theorem EndsBound.plain (hc : EndsBound c) : endsText c = false ∧ c ≠ 92 := by
  rcases hc with rfl | rfl
  · exact ⟨rfl, by decide⟩
  · exact ⟨rfl, by decide⟩

theorem EndsBound.type (hc : EndsBound c) : charType c ≠ .asciidigit := by
  rcases hc with rfl | rfl
  · decide
  · decide

theorem EndsBound.blank (hc : EndsBound c) : ¬ (c = 32 ∨ c = 9) := by
  rcases hc with rfl | rfl
  · decide
  · decide

/-- A digit is read as itself. -/
theorem InFront.digit (h : InFront p (d :: text)) (hd : isdigit d = true) :
    Stands p.consumeToken d text ∧ p.consumeToken.lookahead.type = .asciidigit ∧
      p.consumeToken.lookahead.value = d ∧ ¬ (d = 32 ∨ d = 9) := by
  have hrange : 48 ≤ d ∧ d ≤ 57 := by simpa [isdigit] using hd
  have hstands := h.next (decide_eq_false (by simp only [eolSymbol, EOF]; omega))
    (by omega)
  refine ⟨hstands, ?_, ?_, by omega⟩
  · rw [hstands.token, charType, if_pos hd]
  · rw [hstands.token]

/-- The character that ends a bound ends its digits and is no blank. -/
theorem Stands.ends (h : Stands p c rest) (hc : EndsBound c) :
    p.lookahead.type ≠ .asciidigit ∧ ¬ (p.lookahead.value = 32 ∨ p.lookahead.value = 9) := by
  rw [h.token]
  exact ⟨hc.type, hc.blank⟩

/-- A bound is what `CONVERT_TO_UINT` leaves in front of the character that ends it. -/
theorem readBound_eq {n : Int} (hblank : ¬ (p.consumeToken.lookahead.value = 32 ∨
      p.consumeToken.lookahead.value = 9))
    (hrun : convertToUint (fuel + 1) 0 (-1) p.consumeToken = .ok (n, q))
    (hend : ¬ (q.lookahead.value = 32 ∨ q.lookahead.value = 9)) :
    p.readBound (fuel + 1) = .ok (n, q) := by
  rw [readBound, discardWhitespace_stays hblank]
  dsimp only [bind, Except.bind]
  rw [hrun]
  dsimp only
  rw [discardWhitespace_stays hend]

/-- A bound that is missing. -/
theorem InFront.readBound_none (h : InFront p (c :: rest)) (hc : EndsBound c) (fuel : Nat) :
    ∃ q, p.readBound (fuel + 1) = .ok (-1, q) ∧ Stands q c rest := by
  have hstands := h.next hc.plain.1 hc.plain.2
  obtain ⟨htype, hblank⟩ := hstands.ends hc
  exact ⟨_, readBound_eq hblank (convertToUint_stops htype) hblank, hstands⟩

/-- The first digit takes the place of the missing bound. -/
theorem foldDigit_first {d : Int} (hd : isdigit d = true) :
    foldDigit d (0, -1) = some (1, d - 48) := by
  have hfold : foldDigit d (0, -1) = some (0 * 10 + 1, -1 * (0 * 10) + (d - 48)) :=
    foldDigit_of_bounds hd le_rfl (by decide) (by decide) (by decide)
  rw [hfold]
  simp

/-- The second digit is read in decimal. -/
theorem foldDigit_second {d e : Int} (hd : isdigit d = true) (he : isdigit e = true) :
    foldDigit e (1, d - 48) = some (11, 10 * (d - 48) + (e - 48)) := by
  have hbounds := isdigit_bounds hd
  have hfold : foldDigit e (1, d - 48) = some (1 * 10 + 1, (d - 48) * (1 * 10) + (e - 48)) :=
    foldDigit_of_bounds he (by decide) (by decide) (by omega) (by omega)
  rw [hfold, Int.mul_comm (d - 48)]
  rfl

/-- A bound that is written. -/
theorem InFront.readBound_numeral {m : Numeral} (h : InFront p (m.digits ++ c :: rest))
    (hc : EndsBound c) (fuel : Nat) :
    ∃ q, p.readBound (fuel + 3) = .ok (m.value, q) ∧ Stands q c rest := by
  obtain ⟨digits, hne, hshort, hdecimal⟩ := m
  obtain ⟨d, ds, rfl⟩ := List.exists_cons_of_ne_nil hne
  have hd := hdecimal d (by simp)
  have hdbounds := isdigit_bounds hd
  obtain ⟨hstands, htype, hvalue, hblank⟩ := h.digit hd
  have hfirst : convertToUint (fuel + 3) 0 (-1) p.consumeToken =
      convertToUint (fuel + 2) 1 (d - 48) p.consumeToken.consumeToken :=
    convertToUint_digit htype (by rw [hvalue]; exact foldDigit_first hd)
  cases ds with
  | nil =>
    have hend := hstands.toInFront.next hc.plain.1 hc.plain.2
    obtain ⟨htype', hblank'⟩ := hend.ends hc
    rw [convertToUint_stops htype'] at hfirst
    refine ⟨_, ?_, hend⟩
    rw [readBound_eq (by rw [hvalue]; exact hblank) hfirst hblank']
    simp only [Numeral.value, List.foldl_cons, List.foldl_nil]
    rw [show ((10 * 0 + (d - 48).toNat : Nat) : Int) = d - 48 by omega]
  | cons e ds =>
    obtain rfl : ds = [] := List.eq_nil_of_length_eq_zero (by simpa using hshort)
    have he := hdecimal e (by simp)
    have hebounds := isdigit_bounds he
    obtain ⟨hstands', htype', hvalue', -⟩ := hstands.toInFront.digit he
    have hsecond : convertToUint (fuel + 2) 1 (d - 48) p.consumeToken.consumeToken =
        convertToUint (fuel + 1) 11 (10 * (d - 48) + (e - 48))
          p.consumeToken.consumeToken.consumeToken :=
      convertToUint_digit htype' (by rw [hvalue']; exact foldDigit_second hd he)
    have hend := hstands'.toInFront.next hc.plain.1 hc.plain.2
    obtain ⟨htype'', hblank'⟩ := hend.ends hc
    rw [hsecond, convertToUint_stops htype''] at hfirst
    refine ⟨_, ?_, hend⟩
    rw [readBound_eq (by rw [hvalue]; exact hblank) hfirst hblank']
    simp only [Numeral.value, List.foldl_cons, List.foldl_nil]
    rw [show ((10 * (10 * 0 + (d - 48).toNat) + (e - 48).toNat : Nat) : Int) =
      10 * (d - 48) + (e - 48) by omega]

theorem Stands.readUpperBound_comma (h : Stands p 44 text) :
    p.readUpperBound fuel = p.readBound fuel := by
  rw [readUpperBound, h.token, if_pos rfl]

theorem Stands.readUpperBound_brace (h : Stands p 125 text) :
    p.readUpperBound fuel = .ok (-1, p) := by
  rw [readUpperBound, h.token, if_neg (by decide)]

/-- What is read between the braces. -/
theorem InFront.readBounds {form : IntervalForm} (h : InFront p (form.inner ++ 125 :: rest))
    (fuel : Nat) : ∃ q r, p.readBound (fuel + 3) = .ok (form.bounds.1, q) ∧
      q.readUpperBound (fuel + 3) = .ok (form.bounds.2, r) ∧ Stands r 125 rest := by
  have hcomma : EndsBound 44 := .inl rfl
  have hbrace : EndsBound 125 := .inr rfl
  cases form with
  | exactly m =>
    obtain ⟨q, hlow, hq⟩ := InFront.readBound_numeral h hbrace fuel
    exact ⟨q, q, hlow, hq.readUpperBound_brace, hq⟩
  | atLeast m =>
    rw [IntervalForm.inner, List.append_assoc] at h
    obtain ⟨q, hlow, hq⟩ := InFront.readBound_numeral h hcomma fuel
    obtain ⟨r, hhigh, hr⟩ := hq.toInFront.readBound_none hbrace (fuel + 2)
    exact ⟨q, r, hlow, hq.readUpperBound_comma.trans hhigh, hr⟩
  | atMost n =>
    obtain ⟨q, hlow, hq⟩ := InFront.readBound_none h hcomma (fuel + 2)
    obtain ⟨r, hhigh, hr⟩ := hq.toInFront.readBound_numeral hbrace fuel
    exact ⟨q, r, hlow, hq.readUpperBound_comma.trans hhigh, hr⟩
  | between m n =>
    rw [IntervalForm.inner, List.append_assoc] at h
    obtain ⟨q, hlow, hq⟩ := InFront.readBound_numeral h hcomma fuel
    obtain ⟨r, hhigh, hr⟩ := hq.toInFront.readBound_numeral hbrace fuel
    exact ⟨q, r, hlow, hq.readUpperBound_comma.trans hhigh, hr⟩
  | any =>
    obtain ⟨q, hlow, hq⟩ := InFront.readBound_none h hcomma (fuel + 2)
    obtain ⟨r, hhigh, hr⟩ := hq.toInFront.readBound_none hbrace (fuel + 2)
    exact ⟨q, r, hlow, hq.readUpperBound_comma.trans hhigh, hr⟩

/-- The loop over adjacent intervals reads one interval as its bounds. -/
theorem At.readIntervals {form : IntervalForm} (hat : At p (form.text ++ rest))
    (hrest : rest.head? ≠ some 123) (fuel : Nat) :
    ∃ r, Parser.readIntervals (fuel + 3) (-1) (-1) p =
      .ok (form.bounds.1, form.bounds.2, true, r) := by
  have hfront : InFront p (form.inner ++ 125 :: rest) := by
    refine At.inFront (c := 123) ?_ rfl (by decide)
    simpa [IntervalForm.text] using hat
  obtain ⟨q, r, hlow, hhigh, hstands⟩ := hfront.readBounds fuel
  have hbraces : Braces (fuel + 3) p form.bounds.1 form.bounds.2 r.consumeToken := by
    have hclose : r.lookahead.type = .closebrace := by rw [hstands.token]; rfl
    simp [Braces, readBraces, hlow, hhigh, hclose, Except.toOption]
  have hne : rest ≠ [] := by
    rintro rfl
    obtain ⟨before, hpos⟩ := hfront.between
    have hlast := hfront.terminated.last
    rw [hpos.buffer] at hlast
    simp [eolSymbol] at hlast
  exact ⟨_, readIntervals_once hbraces (hstands.toInFront.ne_openbrace hne hrest)⟩

end Parser

namespace IntervalForm

/-- The form is told from the one with a comma in its place, or without one. -/
def Kept : IntervalForm → Prop
  | exactly m => m.value = 0
  | atLeast m => m.value ≠ 0
  | _ => True

variable {form : IntervalForm} {k : Nat}

/-- What is admitted for the bounds of a form is what the form stands for, unless the bounds are
those of another form. -/
theorem admitted_iff (hordered : form.Ordered) :
    (∀ k, Parser.Admitted form.bounds.1 form.bounds.2 k ↔ form.Means k) ↔ form.Kept := by
  cases form with
  | exactly m =>
    simp only [Parser.Admitted, bounds, Means, Kept]
    constructor
    · intro hall
      have hmore := hall (m.value + 1)
      simp at hmore
      omega
    · intro hzero k
      simp [hzero]
  | atLeast m =>
    simp only [Parser.Admitted, bounds, Means, Kept]
    constructor
    · intro hall hzero
      have hmore := hall 1
      simp [hzero] at hmore
    · intro hpos k
      simp [hpos]
  | atMost n =>
    refine iff_of_true (fun k => ?_) trivial
    change Parser.Admitted (-1) n.value k ↔ k ≤ n.value
    unfold Parser.Admitted
    by_cases hpos : 0 < (n.value : Int)
    · rw [if_pos hpos]
      omega
    · rw [if_neg hpos, if_neg (by omega)]
      omega
  | between m n =>
    have hle : m.value ≤ n.value := hordered
    refine iff_of_true (fun k => ?_) trivial
    change Parser.Admitted m.value n.value k ↔ m.value ≤ k ∧ k ≤ n.value
    unfold Parser.Admitted
    by_cases hpos : 0 < (n.value : Int)
    · rw [if_pos hpos]
      omega
    · rw [if_neg hpos, if_neg (by omega)]
      omega
  | any =>
    simp [Parser.Admitted, bounds, Means, Kept]

theorem neg_one_le_bounds (form : IntervalForm) : -1 ≤ form.bounds.1 := by
  cases form with
  | atMost n => exact le_rfl
  | any => exact le_rfl
  | exactly m | atLeast m | between m n =>
    simp only [bounds]
    omega

theorem bounds_le (hordered : form.Ordered) (hmax : 0 < form.bounds.2) :
    form.bounds.1 ≤ form.bounds.2 := by
  cases form with
  | exactly m => simp [bounds] at hmax
  | atLeast m => simp [bounds] at hmax
  | any => simp [bounds] at hmax
  | atMost n =>
    simp only [bounds]
    omega
  | between m n =>
    have hle : m.value ≤ n.value := hordered
    simp only [bounds]
    omega

/-- The bounds of a form that may be merged are its own. -/
theorem means_iff_of_merging (hordered : form.Ordered)
    (hmerging : Parser.Merging form.bounds.1 form.bounds.2) :
    form.bounds.1 ≤ form.bounds.2 ∧ form.Kept ∧
      ∀ k, form.Means k ↔ form.bounds.1 ≤ k ∧ (k : Int) ≤ form.bounds.2 := by
  obtain ⟨hpos, -, -⟩ := hmerging
  cases form with
  | exactly m => simp [bounds] at hpos
  | atLeast m => simp [bounds] at hpos
  | atMost n =>
    refine ⟨?_, trivial, fun k => ?_⟩
    · simp only [bounds]
      omega
    · simp only [Means, bounds]
      omega
  | between m n =>
    have hle : m.value ≤ n.value := hordered
    refine ⟨?_, trivial, fun k => ?_⟩
    · simp only [bounds]
      omega
    · simp only [Means, bounds]
      omega
  | any => simp [bounds] at hpos

end IntervalForm

namespace Parser

variable {whole inner : Set Addr} {exit : Addr} {a b : Int} {form : IntervalForm}
  {p q : Parser} {rest : List Int} {fuel : Nat}

/-- The interval at the start of the operand is changed instead of repeating the operand. -/
def TakesOver (p : Parser) (form : IntervalForm) : Prop :=
  p.Merges p.peek ∧ Merging form.bounds.1 form.bounds.2

instance (p : Parser) (form : IntervalForm) : Decidable (p.TakesOver form) := instDecidableAnd

/-- An automaton is built that admits as many repetitions of the subexpression as the form stands
for; of the operand of the interval at its end where that one is changed. -/
def Means (fuel : Nat) (p : Parser) (whole inner : Set Addr) (exit : Addr) (a b : Int)
    (form : IntervalForm) : Prop :=
  ∃ q, p.parseIntervalExpression fuel = .ok q ∧
    if p.TakesOver form ∧ p.EndsAtLast then
      ∀ k, q.Goes inner exit k ↔ Summed form.Means (Within a b) k
    else ∀ k, Admits p q whole k ↔ form.Means k

/-- The bounds whose products with those of the changed interval stand for the sums. -/
def Scales (a b min max : Int) : Prop :=
  1 ≤ min ∧ Fits (a * min) ∧ Fits (b * max) ∧
    (b < 0 ∨ Gapless a.toNat b.toNat min.toNat max.toNat)

/-- What an interval that is changed accepts. -/
theorem Group.goes_form {min max : Int} (hg : q.Group inner exit false (a * min) (b * max))
    (ha : 1 ≤ a) (hb : a ≤ b ∨ b < 0) (hmin : 1 ≤ min) (hle : min ≤ max)
    (hmeans : ∀ k, form.Means k ↔ min ≤ k ∧ (k : Int) ≤ max) :
    (∀ k, q.Goes inner exit k ↔ Summed form.Means (Within a b) k) ↔
      b < 0 ∨ Gapless a.toNat b.toNat min.toNat max.toNat := by
  obtain ⟨m, rfl⟩ := Int.eq_ofNat_of_zero_le (show 0 ≤ min by omega)
  obtain ⟨n, rfl⟩ := Int.eq_ofNat_of_zero_le (show 0 ≤ max by omega)
  have hform : form.Means = Repeated 1 1 m n := by
    ext k
    rw [hmeans, repeated_ones]
    omega
  have hsummed := merged_iff_summed ha hb le_rfl (show m ≤ n by omega)
    (show 1 ≤ 1 * m by omega)
  rw [Nat.one_mul, Nat.one_mul] at hsummed
  simp only [hg.goes_iff, hform, hsummed, Contiguous, Nat.one_mul, true_or, true_and,
    Int.toNat_natCast]

/-- An interval is changed that the operand ends with. -/
theorem SubExpression.means_merged {r : Parser} (hsub : p.SubExpression whole inner exit a b)
    (hr : Reads p.pop.2 r) (htakes : p.TakesOver form) (hends : p.EndsAtLast)
    (hordered : form.Ordered) :
    (∃ q, r.applyInterval p.peek form.bounds.1 form.bounds.2 = .ok q ∧
        ∀ k, q.Goes inner exit k ↔ Summed form.Means (Within a b) k) ↔
      Scales a b form.bounds.1 form.bounds.2 := by
  obtain ⟨hmerges, hmerging⟩ := htakes
  obtain ⟨hle, -, hmeans⟩ := IntervalForm.means_iff_of_merging hordered hmerging
  have hlower := hsub.lower
  have hupper := hsub.upper
  have hg := hsub.group hmerges hends
  have hisOk := hg.merge_isOk_iff hr hmerges hlower (by omega) hmerging hle
  have hgroup : ∀ {q : Parser}, r.applyInterval p.peek form.bounds.1 form.bounds.2 = .ok q →
      q.Group inner exit false (if form.bounds.1 ≤ 0 then a else a * form.bounds.1)
        (b * form.bounds.2) := fun hrun =>
    hg.merge (takenOver_of_merges hr hmerges hg.nonzero hmerging hle hrun).1 hmerges hlower
      (by omega) hmerging.1
  constructor
  · rintro ⟨q, hrun, hall⟩
    have hmin : 1 ≤ form.bounds.1 := by
      by_contra hnone
      -- no repetition at all is lost
      have hzero : form.Means 0 := (hmeans 0).mpr ⟨by omega, hmerging.1.le⟩
      exact (hgroup hrun).goes_zero ((hall 0).mpr ⟨0, hzero, [], rfl, List.forall_mem_nil _, rfl⟩)
    have hnew := hgroup hrun
    have hfits := hisOk.mp ⟨q, hrun⟩
    rw [if_neg (by omega)] at hnew hfits
    exact ⟨hmin, hfits.1, hfits.2, (hnew.goes_form hlower hupper hmin hle hmeans).mp hall⟩
  · rintro ⟨hmin, hlow, hhigh, hgap⟩
    rw [if_neg (by omega)] at hisOk
    obtain ⟨q, hrun⟩ := hisOk.mpr ⟨hlow, hhigh⟩
    have hnew := hgroup hrun
    rw [if_neg (by omega)] at hnew
    exact ⟨q, hrun, (hnew.goes_form hlower hupper hmin hle hmeans).mpr hgap⟩

/-- An operand that is not repeated does not mean a form whose interval is changed. -/
theorem SubExpression.not_means_once {r : Parser} (hsub : p.SubExpression whole inner exit a b)
    (hr : Reads p.pop.2 r) (htakes : p.TakesOver form) (hordered : form.Ordered)
    (hrun : r.applyInterval p.peek form.bounds.1 form.bounds.2 = .ok q) :
    ¬ ∀ k, Admits p q whole k ↔ form.Means k := by
  obtain ⟨hmerges, hmerging⟩ := htakes
  obtain ⟨hle, -, hmeans⟩ := IntervalForm.means_iff_of_merging hordered hmerging
  obtain ⟨htaken, -⟩ := takenOver_of_merges hr hmerges hsub.operand.1 hmerging hle hrun
  have honce : ∀ k, Admits p q whole k ↔ k = 1 := by
    intro k
    rw [admits_push hsub.operand.1 htaken.stack, ← hsub.operand.goes_once htaken.ends, Goes,
      htaken.peek]
  obtain ⟨hmax, hopt, hone⟩ := hmerging
  intro hall
  simp only [honce, hmeans] at hall
  obtain ⟨n, hn⟩ := Int.eq_ofNat_of_zero_le hmax.le
  have hzero := hall 0
  have hmost := hall n
  omega

/-- **The meaning of an interval.** -/
theorem means_iff (hsub : p.SubExpression whole inner exit a b) (hordered : form.Ordered)
    (hat : At p (form.text ++ rest)) (hrest : rest.head? ≠ some 123) (hfuel : 3 ≤ fuel) :
    Means fuel p whole inner exit a b form ↔
      form.Kept ∧ (p.TakesOver form →
        p.EndsAtLast ∧ Scales a b form.bounds.1 form.bounds.2) := by
  obtain ⟨fuel, rfl⟩ := Nat.exists_eq_add_of_le' hfuel
  have hat' : At p.pop.2 (form.text ++ rest) := hat.congr rfl rfl
  obtain ⟨r, hread⟩ := hat'.readIntervals hrest fuel
  have hreads := reads_readIntervals hread
  rw [Means, parseIntervalExpression_eq hread]
  by_cases htakes : p.TakesOver form
  · have hkept := (IntervalForm.means_iff_of_merging hordered htakes.2).2.1
    by_cases hends : p.EndsAtLast
    · have hmerged := hsub.means_merged hreads htakes hends hordered
      simp only [htakes, hends, true_and, if_true, hmerged, hkept, true_imp_iff]
    · simp only [htakes, hends, if_false, false_and, true_imp_iff, and_false, iff_false]
      rintro ⟨q, hrun, hall⟩
      exact hsub.not_means_once hreads htakes hordered hrun hall
  · have hfree : p.Merges p.peek → ¬ Merging form.bounds.1 form.bounds.2 :=
      fun hmerges hmerging => htakes ⟨hmerges, hmerging⟩
    obtain ⟨q, hrun⟩ : ∃ q, r.applyInterval p.peek form.bounds.1 form.bounds.2 = .ok q := by
      refine applyInterval_isOk hsub.operand.1 (IntervalForm.bounds_le hordered) fun hmerges => ?_
      refine hfree ?_
      obtain ⟨sc, tok, -, rfl⟩ := hreads
      exact hmerges
    have hadmits := fun k => hsub.operand.admits_iff hreads hfree form.neg_one_le_bounds hrun
      (k := k)
    have hkept := IntervalForm.admitted_iff hordered
    simp only [htakes, false_and, if_false, false_imp_iff, and_true]
    rw [← hkept]
    constructor
    · rintro ⟨q', hrun', hall⟩
      cases hrun.symm.trans hrun'
      simpa only [hadmits] using hall
    · intro hall
      exact ⟨q, hrun, fun k => (hadmits k).trans (hall k)⟩

/-- The parser behind the letter `a` at the start of a pattern reads what follows it. -/
theorem at_behindLetter {rest : List Int} (hnul : 0 ∉ rest) (hne : rest ≠ [])
    (hlast : rest.getLast? ≠ some 10) : At (behindLetter (97 :: rest) 0) (rest ++ [eolSymbol]) := by
  have hinit : Scanner.initScanner (97 :: rest) =
      { buffer := 97 :: rest ++ [eolSymbol], lineLen := rest.length + 2 } := by
    have hnewline : (97 :: rest).getLast? ≠ some 10 := by
      rwa [List.getLast?_cons_of_ne_nil hne]
    rw [Scanner.initScanner, if_neg hnewline]
    rfl
  have hbetween : Scanner.Between { Scanner.initScanner (97 :: rest) with readhead := 0 + 1 }
      [97] (rest ++ [eolSymbol]) := by
    rw [hinit]
    exact ⟨rfl, rfl⟩
  have hterminated :
      Scanner.Terminated { Scanner.initScanner (97 :: rest) with readhead := 0 + 1 } := by
    rw [hinit]
    exact ⟨rfl, by simp [hnul, eolSymbol], List.getLast?_concat⟩
  have hread : At (consumeToken
      { scanner := { Scanner.initScanner (97 :: rest) with readhead := 0 + 1 }
        ctrl := ((({} : NFACtrl).allocInit (97 :: rest).length).newLiteralNfa 97 .literal).2 })
      (rest ++ [eolSymbol]) := by
    refine at_consumeToken hbetween hterminated ?_ ?_ (by simp)
    · rw [hinit]
    · rw [hinit]
  exact hread.congr rfl rfl

/-- `a{2,3}` admits two or three repetitions, and in `(a{2,3}){2,2}` the interval that takes over
the bounds of the second one admits the sums of two such numbers. -/
theorem means_iff_two_to_three :
    (∃ inside : Set Addr, Means 3 (behindLetter (bytes "a{2,3}") 0) inside inside
      (behindLetter (bytes "a{2,3}") 0).peek 1 1 (.between (.digit 2) (.digit 3))) ∧
      ∃ (p : Parser) (whole inner : Set Addr),
        (behindLetter (bytes "(a{2,3}){2,2}") 1).parseIntervalExpression 12 = .ok p ∧
          p.consumeToken.TakesOver (.between (.digit 2) (.digit 2)) ∧
          Means 3 p.consumeToken whole inner (behindLetter (bytes "(a{2,3}){2,2}") 1).peek 2 3
            (.between (.digit 2) (.digit 2)) := by
  constructor
  · have hsingle : ¬ (behindLetter (bytes "a{2,3}") 0).Merges
        (behindLetter (bytes "a{2,3}") 0).peek := by decide +kernel
    obtain ⟨inside, hsub⟩ := subExpression_behindLetter (by decide) 0 hsingle
    have hat : At (behindLetter (bytes "a{2,3}") 0)
        (IntervalForm.text (.between (.digit 2) (.digit 3)) ++ [eolSymbol]) :=
      at_behindLetter (by decide) (by decide) (by decide)
    have hle : IntervalForm.Ordered (.between (.digit 2) (.digit 3)) :=
      show (Numeral.digit 2).value ≤ (Numeral.digit 3).value by decide
    exact ⟨inside, (means_iff hsub hle hat (by decide) le_rfl).mpr
      ⟨trivial, fun h => absurd h.1 hsingle⟩⟩
  · obtain ⟨p, whole, inner, hrun, hsub⟩ : ∃ (p : Parser) (whole inner : Set Addr),
        (behindLetter (bytes "(a{2,3}){2,2}") 1).parseIntervalExpression 12 = .ok p ∧
          p.consumeToken.SubExpression whole inner
            (behindLetter (bytes "(a{2,3}){2,2}") 1).peek (2 : Nat) (3 : Nat) :=
      subExpression_behindGroup (by decide) 1 11 (by decide) (by decide) (by decide)
        (by decide +kernel)
    have hchecks : ((behindLetter (bytes "(a{2,3}){2,2}") 1).parseIntervalExpression
        12).toOption.map (fun q => decide (q.consumeToken.Merges q.consumeToken.peek ∧
          q.consumeToken.EndsAtLast ∧ q.scanner.readhead = 8 ∧ q.scanner.escpSeq = true ∧
          q.scanner.seenNewline = false ∧ q.scanner.strBegin = 0 ∧
          q.scanner.buffer = bytes "(a{2,3}){2,2}" ++ [eolSymbol])) = some true := by
      decide +kernel
    rw [hrun] at hchecks
    obtain ⟨hmerges, hends, hread, hescp, hseen, hbegin, hbuffer⟩ :=
      of_decide_eq_true (Option.some.inj hchecks)
    have hbetween : p.scanner.Between (bytes "(a{2,3})").reverse
        (bytes "{2,2}" ++ [eolSymbol]) := ⟨hbuffer, hread⟩
    have hterminated : p.scanner.Terminated := by
      refine ⟨hbegin, ?_, ?_⟩
      · rw [hbuffer]
        decide
      · rw [hbuffer]
        decide
    have hat : At p.consumeToken
        (IntervalForm.text (.between (.digit 2) (.digit 2)) ++ [eolSymbol]) :=
      at_consumeToken hbetween hterminated hescp hseen (List.cons_ne_nil _ _)
    have htakes : p.consumeToken.TakesOver (.between (.digit 2) (.digit 2)) :=
      ⟨hmerges, show Merging 2 2 by decide⟩
    have hle : IntervalForm.Ordered (.between (.digit 2) (.digit 2)) :=
      show (Numeral.digit 2).value ≤ (Numeral.digit 2).value from le_rfl
    have hscales : Scales 2 3 2 2 := ⟨by decide, by decide, by decide, .inr (by decide)⟩
    exact ⟨p, whole, inner, hrun, htakes, (means_iff hsub hle hat (by decide) le_rfl).mpr
      ⟨trivial, fun _ => ⟨hends, hscales⟩⟩⟩

/-- `a{2}` admits three repetitions. -/
theorem exactly_two_admits_three : ∃ (q : Parser) (inside : Set Addr),
    (behindLetter (bytes "a{2}") 0).SubExpression inside inside
      (behindLetter (bytes "a{2}") 0).peek 1 1 ∧
    At (behindLetter (bytes "a{2}") 0)
      (IntervalForm.text (.exactly (.digit 2)) ++ [eolSymbol]) ∧
    (behindLetter (bytes "a{2}") 0).parseIntervalExpression 3 = .ok q ∧
    Admits (behindLetter (bytes "a{2}") 0) q inside 3 ∧
    ¬ Means 3 (behindLetter (bytes "a{2}") 0) inside inside
      (behindLetter (bytes "a{2}") 0).peek 1 1 (.exactly (.digit 2)) := by
  have hsingle : ¬ (behindLetter (bytes "a{2}") 0).Merges
      (behindLetter (bytes "a{2}") 0).peek := by decide +kernel
  obtain ⟨inside, hsub⟩ := subExpression_behindLetter (by decide) 0 hsingle
  have hat : At (behindLetter (bytes "a{2}") 0)
      (IntervalForm.text (.exactly (.digit 2)) ++ [eolSymbol]) :=
    at_behindLetter (by decide) (by decide) (by decide)
  have hat' : At (behindLetter (bytes "a{2}") 0).pop.2
      (IntervalForm.text (.exactly (.digit 2)) ++ [eolSymbol]) := hat.congr rfl rfl
  obtain ⟨r, hread⟩ := hat'.readIntervals (by decide) 0
  have hreads := reads_readIntervals hread
  obtain ⟨q, hrun⟩ : ∃ q, ((behindLetter (bytes "a{2}") 0).parseIntervalExpression
      3).toOption = some q := Option.isSome_iff_exists.mp (by decide +kernel)
  have hrun := ok_of_toOption hrun
  have happly := hrun
  rw [parseIntervalExpression_eq hread] at happly
  have hadmits := hsub.operand.admits_iff hreads (fun h => absurd h hsingle)
    (IntervalForm.neg_one_le_bounds _) happly (k := 3)
  have hthree : Admitted 2 (-1) 3 := by simp [Admitted]
  refine ⟨q, inside, hsub, hat, hrun, hadmits.mpr hthree, ?_⟩
  rintro ⟨q', hrun', hmeans⟩
  cases hrun.symm.trans hrun'
  rw [if_neg fun h => hsingle h.1.1] at hmeans
  have htwo : 3 = (Numeral.digit 2).value := (hmeans 3).mp (hadmits.mpr hthree)
  exact absurd htwo (by decide)

end Parser

end Recognizer
