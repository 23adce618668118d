import Recognizer.Parse.Descent
import Recognizer.Parse.WholePattern

/-!
# The automaton of a pattern spells its language

A pattern without alternation is read to its end, and the automaton `parse_regex` leaves is that of
its language.
-/

namespace Recognizer

namespace Parser

open Scanner WordPath

variable {p : Parser} {fuel : Nat}

/-- No backreference is found in a text without backslashes, which is scanned up to the
first end of line symbol. -/
theorem prescanInput_printed {text : List Int} (htext : ∀ c ∈ text, Printed c) (rest : List Int)
    (map : Nat → Bool) (count : Nat) :
    prescanInput (text ++ eolSymbol :: rest) map count = .ok (map, count + text.length) := by
  induction text generalizing count with
  | nil =>
    rw [List.nil_append, prescanInput.eq_def]
    rfl
  | cons c text ih =>
    obtain ⟨⟨-, h92, hends⟩, hrest⟩ := List.forall_mem_cons.mp htext
    have hend : c ≠ eolSymbol := by
      rintro rfl
      cases hends
    rw [List.cons_append, prescanInput.eq_def]
    dsimp only
    rw [if_neg hend, if_neg h92, ih hrest, List.length_cons, Nat.add_assoc, Nat.add_comm 1]

/-- The text the parser is given goes on with the end of line symbol. -/
theorem buffer_initParser {text : List Int} (htext : ∀ c ∈ text, Printed c) :
    (initParser text false).scanner.buffer = text ++ [eolSymbol] := by
  have hlast : text.getLast? ≠ some 10 := by
    intro hlast
    have hends := (htext 10 (List.mem_of_getLast? hlast)).2.2
    cases hends
  refine (regexScan_buffer _).trans ?_
  show (initScanner text).buffer = _
  rw [initScanner, if_neg hlast]

/-- The copy `prescan_input` reads ends in two end of line symbols. -/
theorem prescanBuffer_initParser {text : List Int} (htext : ∀ c ∈ text, Printed c) :
    (initParser text false).prescanBuffer = text ++ [eolSymbol, eolSymbol] := by
  unfold prescanBuffer initScanner
  rw [buffer_initParser htext, if_neg (by simp [eolSymbol])]
  simp

/-- `parse_regex` begins the descent at the whole text. -/
theorem standsAt_initParser {text : List Int} (htext : ∀ c ∈ text, Printed c) (hne : text ≠ []) :
    StandsAt { initParser text false with
      cgrpMap := fun _ => false
      ctrl := (initParser text false).ctrl.allocInit text.length } 0 (text ++ [eolSymbol]) [] := by
  have hat := at_initParser (fun hmem => (htext 0 hmem).1 rfl) false
  rw [buffer_initParser htext] at hat
  refine ⟨hat.congr rfl rfl, ⟨rfl, ?_, by simp⟩, rfl, rfl⟩
  exact Grown.init (List.length_pos_of_ne_nil hne)

/-- What the descent pushed is joined behind it as at the end of a group. -/
theorem joined_eq_leaveGroup (hne : p.symbolStack ≠ []) :
    (if 1 < p.symbolStack.length then
      (joinAll p.pop.2.symbolStack.length p.pop.1 p.pop.2).2.push
        (joinAll p.pop.2.symbolStack.length p.pop.1 p.pop.2).1 else p) =
      p.leaveGroup false 0 := by
  split
  · rw [joinAll_eq]
    rfl
  · rename_i hlength
    obtain ⟨t, l, hstack⟩ := List.exists_cons_of_ne_nil hne
    obtain rfl : l = [] := List.eq_nil_of_length_eq_zero (by
      rw [hstack, List.length_cons] at hlength
      omega)
    have hjoined : p.leaveGroup false 0 = { p with symbolStack := [t] } := by
      unfold leaveGroup pop
      simp only [hstack]
      rfl
    rw [hjoined, ← hstack]

/-- Behind the descent the automaton of the pattern is alone on the stack, and is completed. -/
theorem parseRegex_textOf (first : Piece) (rest : List Piece)
    (hfuel : 2 * (textOf (first :: rest)).length + 3 ≤ fuel) : ∃ (q : Parser) (t : Addr),
      parseRegex fuel (textOf (first :: rest)) false = .ok q.complete ∧ q.symbolStack = [t] ∧
        Grown q.ctrl [(t, languageOf (first :: rest))] := by
  have hprinted := textOf_printed (first :: rest)
  have hpos := length_textOf_pos first rest
  obtain ⟨fuel, rfl⟩ := Nat.exists_eq_add_of_le' (show 1 ≤ fuel by omega)
  have hs := standsAt_initParser hprinted (List.ne_nil_of_length_pos hpos)
  obtain ⟨q, t, M, seg, hrun, ht, hs', hproduct⟩ := parsesBelow _ first rest hs (.inl rfl)
    le_rfl (Nat.lt_succ_self _) (show 2 * (textOf (first :: rest)).length + 2 ≤ fuel by omega)
  rw [List.tail_nil] at hs'
  obtain ⟨t', ht', hleft⟩ := hs'.leaveGroup ht
  rw [hproduct, List.take_nil, product, one_mul] at hleft
  refine ⟨q.leaveGroup false 0, t', ?_, hleft.holds.stack, ?_⟩
  · have hne : q.symbolStack ≠ [] := by
      rw [hs'.holds.stack]
      exact List.cons_ne_nil _ _
    have hpeek : (q.leaveGroup false 0).peek ≠ 0 := by
      rw [peek, show (q.leaveGroup false 0).symbolStack = [t'] from hleft.holds.stack]
      exact ht'
    have hprescan : prescanInput (initParser (textOf (first :: rest)) false).prescanBuffer
        (fun _ => false) 0 = .ok (fun _ => false, (textOf (first :: rest)).length) := by
      rw [prescanBuffer_initParser hprinted, prescanInput_printed hprinted, Nat.zero_add]
    unfold parseRegex
    dsimp only
    rw [hprescan]
    dsimp only [Bind.bind, Except.bind]
    rw [show regexParserStart (fuel + 1) { initParser (textOf (first :: rest)) false with
      cgrpMap := fun _ => false
      ctrl := (initParser (textOf (first :: rest)) false).ctrl.allocInit
        (textOf (first :: rest)).length } = .ok q from hs.start.trans hrun]
    refine (congrArg (fun r : Parser => if r.peek = 0 then Except.error ParseError.nullDeref else
      .ok r.complete) (joined_eq_leaveGroup hne)).trans ?_
    exact if_neg hpeek
  · have hg := hleft.holds.grown
    rwa [automata_cons ht'] at hg

/-- **The automaton of a pattern spells its language.** Every text of letters, points, bracket
expressions and nested groups, with any number of one-character quantifiers behind each of them, is
accepted. What `parse_regex` builds for it can be compiled, its stops read a letter or accept, and
its words are those of the text's language. -/
theorem parseRegex_spells (first : Piece) (rest : List Piece)
    (hfuel : 2 * (textOf (first :: rest)).length + 3 ≤ fuel) : ∃ p nodes,
      parseRegex fuel (textOf (first :: rest)) false = .ok p ∧
      Compilable p.ctrl.heap nodes (p.ctrl.heap p.peek).parent
        (p.totalNfaIds + p.intervalCount) ∧
      (∀ a ∈ nodes, ¬ Relation.TransGen (SynthEdge p.ctrl.heap) a a) ∧
      CoreGraph p.ctrl.heap (p.ctrl.heap p.peek).parent ∧
      ∀ w, (∃ e, (p.ctrl.heap e).type = .accepting ∧
        Spells (wordGraph p.ctrl.heap) (p.ctrl.heap p.peek).parent w e) ↔
          w ∈ languageOf (first :: rest) := by
  obtain ⟨q, t, hparse, hstack, hg⟩ := parseRegex_textOf first rest hfuel
  obtain ⟨nodes, ok, hloop, hgraph, hwords⟩ := hg.completes hstack
  exact ⟨q.complete, nodes, hparse, ok, hloop, hgraph, hwords⟩

/-- The first piece of `(a.+)*[^b-d]c?`. -/
def nestedFirst : Piece :=
  .group (.single (.char 97 (by decide) (by decide)) []) [.single .any [.plus]] [.kleene]

/-- The other pieces of `(a.+)*[^b-d]c?`. -/
def nestedRest : List Piece :=
  [.single (.bracket true (.range 98 100 (by decide)) []) [],
    .single (.char 99 (by decide) (by decide)) [.qmark]]

example : textOf (nestedFirst :: nestedRest) = bytes "(a.+)*[^b-d]c?" := by decide

/-- The automaton of `(a.+)*[^b-d]c?` spells its language. -/
theorem parseRegex_spells_nested : ∃ p nodes,
    parseRegex 31 (textOf (nestedFirst :: nestedRest)) false = .ok p ∧
    Compilable p.ctrl.heap nodes (p.ctrl.heap p.peek).parent (p.totalNfaIds + p.intervalCount) ∧
    (∀ a ∈ nodes, ¬ Relation.TransGen (SynthEdge p.ctrl.heap) a a) ∧
    CoreGraph p.ctrl.heap (p.ctrl.heap p.peek).parent ∧
    ∀ w, (∃ e, (p.ctrl.heap e).type = .accepting ∧
      Spells (wordGraph p.ctrl.heap) (p.ctrl.heap p.peek).parent w e) ↔
        w ∈ languageOf (nestedFirst :: nestedRest) :=
  parseRegex_spells nestedFirst nestedRest (by decide)

end Parser

end Recognizer
