import Recognizer.Parse.LiteralRun

/-!
# Patterns without alternation

The texts of letters, points, bracket expressions and groups with the quantifiers of one
character behind them, and the languages these texts stand for.
-/

namespace Recognizer

open Scanner
open scoped Computability

/-- The quantifiers of one character. -/
inductive Quantifier where
  | kleene | plus | qmark
  deriving DecidableEq, Repr

namespace Quantifier

/-- The character of a quantifier. -/
def sign : Quantifier → Int
  | .kleene => 42
  | .plus => 43
  | .qmark => 63

/-- What a quantifier makes of a language. -/
def apply (L : Language Int) : Quantifier → Language Int
  | .kleene => L∗
  | .plus => L * L∗
  | .qmark => 1 + L

end Quantifier

/-- Two bounds among the lower case letters, the upper case letters or the digits. -/
def inOrder (low high : Int) : Bool :=
  decide (low ≤ high ∧
    (97 ≤ low ∧ high ≤ 122 ∨ 65 ≤ low ∧ high ≤ 90 ∨ 48 ≤ low ∧ high ≤ 57))

/-- A character or a range between brackets. -/
inductive BracketItem where
  | char (c : Int) (hc : plain c = true) (hascii : 0 < c ∧ c < 128)
  | range (low high : Int) (h : inOrder low high = true)

namespace BracketItem

def text : BracketItem → List Int
  | .char c _ _ => [c]
  | .range low high _ => [low, 45, high]

/-- The bounds `update_range_nfa` is called with. -/
def bounds : BracketItem → Nat × Nat
  | .char c _ _ => (c.toNat, c.toNat)
  | .range low high _ => (low.toNat, high.toNat)

end BracketItem

/-- A letter, a point or a bracket expression. -/
inductive Atom where
  | char (c : Int) (hc : plain c = true) (hnul : c ≠ 0)
  | any
  | bracket (negate : Bool) (first : BracketItem) (rest : List BracketItem)

namespace Atom

def text : Atom → List Int
  | .char c _ _ => [c]
  | .any => [46]
  | .bracket negate first rest =>
    91 :: ((if negate then [94] else []) ++ (first :: rest).flatMap BracketItem.text ++ [93])

def language : Atom → Language Int
  | .char c _ _ => {[c]}
  | .any => {v | ∃ ch, ch ≠ eolSymbol ∧ v = [ch]}
  | .bracket negate first rest =>
    {v | ∃ ch, InRange negate ((first :: rest).map BracketItem.bounds) ch ∧ v = [ch]}

end Atom

/-- An operand with its quantifiers. A group is not empty. -/
inductive Piece where
  | single (atom : Atom) (quantifiers : List Quantifier)
  | group (first : Piece) (rest : List Piece) (quantifiers : List Quantifier)

mutual

def Piece.text : Piece → List Int
  | .single atom quantifiers => atom.text ++ quantifiers.map Quantifier.sign
  | .group first rest quantifiers =>
    40 :: (first.text ++ textOf rest ++ 41 :: quantifiers.map Quantifier.sign)

/-- The text of some pieces one behind the other. -/
def textOf : List Piece → List Int
  | [] => []
  | piece :: pieces => piece.text ++ textOf pieces

end

mutual

def Piece.language : Piece → Language Int
  | .single atom quantifiers => quantifiers.foldl Quantifier.apply atom.language
  | .group first rest quantifiers =>
    quantifiers.foldl Quantifier.apply (first.language * languageOf rest)

/-- The language of some pieces one behind the other. -/
def languageOf : List Piece → Language Int
  | [] => 1
  | piece :: pieces => piece.language * languageOf pieces

end

@[simp] theorem textOf_cons (piece : Piece) (pieces : List Piece) :
    textOf (piece :: pieces) = piece.text ++ textOf pieces := by rw [textOf]

@[simp] theorem languageOf_cons (piece : Piece) (pieces : List Piece) :
    languageOf (piece :: pieces) = piece.language * languageOf pieces := by rw [languageOf]

example : textOf [.group (.single (.char 97 (by decide) (by decide)) []) [.single .any [.plus]]
    [.kleene]] = bytes "(a.+)*" := by decide

/-- A character that neither ends a text nor escapes the next one. -/
def Printed (c : Int) : Prop := c ≠ 0 ∧ c ≠ 92 ∧ endsText c = false

theorem printed_of_plain {c : Int} (hc : plain c = true) (hnul : c ≠ 0) : Printed c := by
  simp only [plain, Bool.and_eq_true, Bool.not_eq_true', decide_eq_true_eq] at hc
  exact ⟨hnul, hc.1.2, hc.1.1⟩

theorem charType_of_plain {c : Int} (hc : plain c = true) :
    charType c = .alpha ∨ charType c = .asciidigit := by
  simp only [plain, Bool.and_eq_true, decide_eq_true_eq] at hc
  exact hc.2

/-- The bounds of a range are plain characters. -/
theorem plain_of_inOrder {low high c : Int} (h : inOrder low high = true)
    (hc : c = low ∨ c = high) : plain c = true ∧ 0 < c ∧ c < 128 := by
  simp only [inOrder, decide_eq_true_eq] at h
  have hrange : 97 ≤ c ∧ c ≤ 122 ∨ 65 ≤ c ∧ c ≤ 90 ∨ 48 ≤ c ∧ c ≤ 57 := by
    omega
  have hall : ∀ n : Nat, n < 128 → (97 ≤ n ∧ n ≤ 122 ∨ 65 ≤ n ∧ n ≤ 90 ∨ 48 ≤ n ∧ n ≤ 57) →
      plain (n : Int) = true := by decide
  obtain ⟨n, rfl⟩ := Int.eq_ofNat_of_zero_le (show 0 ≤ c by omega)
  exact ⟨hall n (by omega) (by omega), by omega, by omega⟩

theorem BracketItem.text_printed (item : BracketItem) : ∀ c ∈ item.text, Printed c := by
  cases item with
  | char c hc hascii => exact List.forall_mem_singleton.mpr (printed_of_plain hc (by omega))
  | range low high h =>
    obtain ⟨hlow, hlow0, -⟩ := plain_of_inOrder h (.inl rfl)
    obtain ⟨hhigh, hhigh0, -⟩ := plain_of_inOrder h (.inr rfl)
    refine List.forall_mem_cons.mpr ⟨printed_of_plain hlow hlow0.ne', ?_⟩
    refine List.forall_mem_cons.mpr ⟨⟨by decide, by decide, by decide⟩, ?_⟩
    exact List.forall_mem_singleton.mpr (printed_of_plain hhigh hhigh0.ne')

/-- Every item has a character of its own. -/
theorem BracketItem.length_le (items : List BracketItem) :
    items.length ≤ (items.flatMap BracketItem.text).length := by
  induction items with
  | nil => exact le_rfl
  | cons item items ih =>
    rw [List.flatMap_cons, List.length_append, List.length_cons]
    cases item <;> simp only [BracketItem.text, List.length_cons, List.length_nil] <;> omega

theorem Atom.text_printed (atom : Atom) : ∀ c ∈ atom.text, Printed c := by
  cases atom with
  | char c hc hnul => exact List.forall_mem_singleton.mpr (printed_of_plain hc hnul)
  | any => exact List.forall_mem_singleton.mpr ⟨by decide, by decide, by decide⟩
  | bracket negate first rest =>
    intro c hmem
    simp only [Atom.text, List.mem_cons, List.mem_append, List.mem_flatMap,
      List.not_mem_nil, or_false] at hmem
    rcases hmem with rfl | (hmem | ⟨item, -, hmem⟩) | rfl
    · exact ⟨by decide, by decide, by decide⟩
    · cases negate
      · cases hmem
      · rw [List.mem_singleton.mp hmem]
        exact ⟨by decide, by decide, by decide⟩
    · exact item.text_printed c hmem
    · exact ⟨by decide, by decide, by decide⟩

theorem Quantifier.signs_printed (quantifiers : List Quantifier) :
    ∀ c ∈ quantifiers.map Quantifier.sign, Printed c := by
  intro c hmem
  obtain ⟨q, -, rfl⟩ := List.mem_map.mp hmem
  cases q <;> exact ⟨by decide, by decide, by decide⟩

mutual

theorem Piece.text_printed : ∀ (piece : Piece), ∀ c ∈ piece.text, Printed c
  | .single atom quantifiers => by
    intro c hmem
    rw [Piece.text] at hmem
    rcases List.mem_append.mp hmem with hmem | hmem
    · exact atom.text_printed c hmem
    · exact Quantifier.signs_printed quantifiers c hmem
  | .group first rest quantifiers => by
    intro c hmem
    rw [Piece.text] at hmem
    simp only [List.mem_cons, List.mem_append] at hmem
    rcases hmem with rfl | (hmem | hmem) | rfl | hmem
    · exact ⟨by decide, by decide, by decide⟩
    · exact first.text_printed c hmem
    · exact textOf_printed rest c hmem
    · exact ⟨by decide, by decide, by decide⟩
    · exact Quantifier.signs_printed quantifiers c hmem

/-- No character of a pattern ends the text or is a backslash. -/
theorem textOf_printed : ∀ (pieces : List Piece), ∀ c ∈ textOf pieces, Printed c
  | [] => by
    intro c hmem
    rw [textOf] at hmem
    cases hmem
  | piece :: pieces => by
    intro c hmem
    rw [textOf] at hmem
    rcases List.mem_append.mp hmem with hmem | hmem
    · exact piece.text_printed c hmem
    · exact textOf_printed pieces c hmem

end

/-- A piece begins with a character that begins an expression. -/
theorem Piece.text_head (piece : Piece) : ∃ c tail, piece.text = c :: tail ∧
    Parser.startsExpression (charType c) = true ∧ (charType c).stray = false := by
  cases piece with
  | single atom quantifiers =>
    rw [Piece.text]
    cases atom with
    | char c hc hnul =>
      refine ⟨c, _, rfl, ?_⟩
      rcases charType_of_plain hc with htype | htype <;> rw [htype] <;> exact ⟨rfl, rfl⟩
    | any => exact ⟨46, _, rfl, rfl, rfl⟩
    | bracket negate first rest => exact ⟨91, _, rfl, rfl, rfl⟩
  | group first rest quantifiers =>
    rw [Piece.text]
    exact ⟨40, _, rfl, rfl, rfl⟩

/-! ## Literal runs -/

/-- The letters without quantifiers in front of some pieces. -/
def runOf : List Piece → List Int
  | .single (.char c _ _) [] :: pieces => c :: runOf pieces
  | _ => []

/-- The pieces behind these letters. -/
def behindRun : List Piece → List Piece
  | .single (.char _ _ _) [] :: pieces => behindRun pieces
  | pieces => pieces

/-- The run ends at the end, at a letter with a quantifier, or at a character that is not plain. -/
inductive RunEnds : List Piece → Prop where
  | nil : RunEnds []
  | quantified (c : Int) (hc : plain c = true) (hnul : c ≠ 0) (q : Quantifier)
      (quantifiers : List Quantifier) (pieces : List Piece) :
    RunEnds (.single (.char c hc hnul) (q :: quantifiers) :: pieces)
  | opens {piece : Piece} {c : Int} {tail : List Int} (htext : piece.text = c :: tail)
      (hplain : plain c = false) (pieces : List Piece) : RunEnds (piece :: pieces)

/-- The letters of a run are plain, and its language is their word. -/
theorem run_spec : ∀ (pieces : List Piece), (∀ z ∈ runOf pieces, plain z = true) ∧
    textOf pieces = runOf pieces ++ textOf (behindRun pieces) ∧
    languageOf pieces = {runOf pieces} * languageOf (behindRun pieces) ∧
    RunEnds (behindRun pieces)
  | [] => ⟨by simp [runOf], rfl, (one_mul _).symm, .nil⟩
  | .single (.char c hc hnul) [] :: pieces => by
    obtain ⟨hplain, htext, hlanguage, hends⟩ := run_spec pieces
    refine ⟨?_, ?_, ?_, ?_⟩
    · rw [runOf]
      exact List.forall_mem_cons.mpr ⟨hc, hplain⟩
    · rw [textOf_cons, htext, runOf, behindRun]
      rfl
    · rw [languageOf_cons, hlanguage, runOf, behindRun, ← mul_assoc]
      congr 1
      ext v
      show (∃ a, a = [c] ∧ ∃ b, b = runOf pieces ∧ a ++ b = v) ↔ v = c :: runOf pieces
      rw [exists_eq_left, exists_eq_left]
      exact eq_comm
    · rw [behindRun]
      exact hends
  | .single (.char c hc hnul) (q :: qs) :: pieces =>
    ⟨by simp [runOf], rfl, (one_mul _).symm, .quantified c hc hnul q qs pieces⟩
  | .single .any qs :: pieces =>
    ⟨by simp [runOf], rfl, (one_mul _).symm, .opens (by rw [Piece.text]; rfl) rfl pieces⟩
  | .single (.bracket negate first rest) qs :: pieces =>
    ⟨by simp [runOf], rfl, (one_mul _).symm, .opens (by rw [Piece.text]; rfl) rfl pieces⟩
  | .group first rest qs :: pieces =>
    ⟨by simp [runOf], rfl, (one_mul _).symm, .opens (by rw [Piece.text]) rfl pieces⟩

/-- The scan over a literal run stops at the first character that is not plain, and takes the
letters of the run. -/
theorem takenOf_textOf (c : Int) (pieces : List Piece) {x : Int} (hx : plain x = false)
    (hquantifies : (charType x).quantifies = false) (h10 : x ≠ 10) (after : List Int) :
    ∃ mid y after', textOf pieces ++ x :: after = mid ++ y :: after' ∧
      (∀ z ∈ mid, plain z = true) ∧ plain y = false ∧ y ≠ 10 ∧
      takenOf c (textOf pieces ++ x :: after) = c :: runOf pieces ∧
      behindTaken c (textOf pieces ++ x :: after) = textOf (behindRun pieces) ++ x :: after := by
  obtain ⟨hplain, htext, -, hends⟩ := run_spec pieces
  have hbehind : takenOf c (textOf pieces ++ x :: after) = c :: runOf pieces →
      behindTaken c (textOf pieces ++ x :: after) = textOf (behindRun pieces) ++ x :: after := by
    intro htaken
    rw [behindTaken, htaken, htext, List.append_assoc]
    simp
  rw [htext] at hbehind ⊢
  generalize runOf pieces = mid at hplain htext hbehind ⊢
  generalize behindRun pieces = others at hends htext hbehind ⊢
  rw [List.append_assoc] at hbehind ⊢
  cases hends with
  | nil =>
    have htaken : takenOf c (mid ++ x :: after) = c :: mid := takenOf_whole hplain hx hquantifies
    exact ⟨mid, x, after, rfl, hplain, hx, h10, htaken, hbehind htaken⟩
  | quantified d hd hnul q qs others =>
    have hsplit : mid ++ (textOf (.single (.char d hd hnul) (q :: qs) :: others) ++ x :: after) =
        (mid ++ [d]) ++ q.sign :: (qs.map Quantifier.sign ++ textOf others ++ x :: after) := by
      rw [textOf_cons, Piece.text]
      simp [Atom.text]
    have hmid : ∀ z ∈ mid ++ [d], plain z = true := by
      intro z hz
      rcases List.mem_append.mp hz with hz | hz
      · exact hplain z hz
      · rw [List.mem_singleton.mp hz]
        exact hd
    have hsign : plain q.sign = false ∧ (charType q.sign).quantifies = true ∧ q.sign ≠ 10 := by
      cases q <;> exact ⟨rfl, rfl, by decide⟩
    have htaken : takenOf c (mid ++ (textOf (.single (.char d hd hnul) (q :: qs) :: others) ++
        x :: after)) = c :: mid := by
      rw [hsplit]
      exact takenOf_quantified hmid hsign.1 hsign.2.1
    exact ⟨mid ++ [d], q.sign, _, hsplit, hmid, hsign.1, hsign.2.2, htaken, hbehind htaken⟩
  | @opens piece d tail hpiece hd others =>
    have hsplit : mid ++ (textOf (piece :: others) ++ x :: after) =
        mid ++ d :: (tail ++ textOf others ++ x :: after) := by
      rw [textOf_cons, hpiece]
      simp
    obtain ⟨d', tail', hhead, hstarts, hstray⟩ := piece.text_head
    obtain ⟨rfl, rfl⟩ := List.cons.inj (hhead.symm.trans hpiece)
    have hfree : (charType d').quantifies = false := by
      rw [SymbolType.stray, Bool.or_eq_false_iff] at hstray
      exact hstray.1
    have hne : d' ≠ 10 := by
      rintro rfl
      have := (piece.text_printed 10 (by rw [hpiece]; simp)).2.2
      cases this
    have htaken : takenOf c (mid ++ (textOf (piece :: others) ++ x :: after)) = c :: mid := by
      rw [hsplit]
      exact takenOf_whole hplain hd hfree
    exact ⟨mid, d', _, hsplit, hplain, hd, hne, htaken, hbehind htaken⟩

end Recognizer
