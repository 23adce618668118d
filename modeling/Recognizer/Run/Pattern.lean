import Recognizer.Parse.PatternLanguage
import Recognizer.Run.Compiled

/-!
# From the text of a pattern to its matches

A pattern without alternation is parsed, compiled and run. What is reported are the leftmost
longest words of its language on the line.
-/

namespace Recognizer

variable {p p' : Parser} {fuel budget : Nat} {L : Language Int} {E : Env}

/-- A program reports the leftmost longest words of a language on its line, and its value says
whether there is a word, if only the empty one. -/
def ReportsLanguage (L : Language Int) (E : Env) : Prop :=
  ∃ (spans : List (Nat × Nat)) (value : Bool) (d : NFASimCtrl) (least : Nat),
    (∀ fuel, least ≤ fuel →
      runLine E fuel (newNfaSim E) = some (value, spans.map toMatch, d)) ∧
    LeftmostLongest (LanguageSpan L E.line) E.line.buffer spans ∧
    (value = true ↔ ∃ w, w <:+: E.line.text ∧ w ∈ L)

/-- No keyword is searched for, or a single one that begins every word of a language. -/
def SearchCovers (L : Language Int) (patterns : List (List Int)) : Prop :=
  patterns = [] ∨ ∃ keyword, patterns = [keyword] ∧ BMObj.Keyword keyword ∧
    ∀ w ∈ L, keyword <+: w

/-- A search that covers the language changes nothing. -/
theorem SearchCovers.reports {place : Nat → Nat} {flags : CtrlFlags} {line : Line}
    (hcovers : SearchCovers L p.synthPatterns)
    (hset : CoreSetting (Env.ofParser p place flags line).withoutSearch)
    (haccepts : ∀ w, (Env.ofParser p place flags line).withoutSearch.Accepts w ↔ w ∈ L) :
    ReportsLanguage L (Env.ofParser p place flags line) := by
  rcases hcovers with hnone | ⟨keyword, hone, hkey, hbegins⟩
  · have hsame : (Env.ofParser p place flags line).withoutSearch =
        Env.ofParser p place flags line := by
      unfold Env.withoutSearch Env.ofParser
      rw [hnone]
      rfl
    rw [hsame] at hset haccepts
    exact hset.runs haccepts (unused_newNfaSim _) rfl
  · have hsame : (Env.ofParser p place flags line).withoutSearch.withSearch
        (.bm (.bmInitObj keyword)) = Env.ofParser p place flags line := by
      unfold Env.withSearch Env.withoutSearch Env.ofParser
      rw [hone]
      rfl
    obtain ⟨spans, value, d, d', least, hspans, hvalue, hruns⟩ :=
      hset.prescan_beside hkey (fun w hw => hbegins w ((haccepts w).mp hw))
        (unused_newNfaSim (Env.ofParser p place flags line)) rfl
    rw [hsame] at hruns
    refine ⟨spans, value, d', least, fun fuel hle => (hruns fuel hle).2,
      CoreSetting.languageSpans haccepts hspans, hvalue.trans ?_⟩
    exact exists_congr fun w => and_congr_right fun _ => haccepts w

/-- **From the text of a pattern to its matches.** Every text of letters, points, bracket
expressions and nested groups with one-character quantifiers is parsed and compiled. With `-o` and
`-g` and without the prescan the leftmost longest words of its language are reported on every line;
also with the prescan if no keyword was found, or a single one that begins every word. -/
theorem pattern_reports_language (first : Piece) (rest : List Piece) (place : Nat → Nat)
    {flags : CtrlFlags} {line : Line} (hfuel : 2 * (textOf (first :: rest)).length + 3 ≤ fuel)
    (hmode : flags.individualMatches = true) (hglobal : flags.mglobal = true)
    (hcase : flags.ignoreCase = false) (hline : line.NulFree) : ∃ p least,
      Parser.parseRegex fuel (textOf (first :: rest)) false = .ok p ∧
      ∀ budget, least ≤ budget → ∃ p', compileRegex budget p = some p' ∧
        ReportsLanguage (languageOf (first :: rest))
          (Env.ofParser p' place flags line).withoutSearch ∧
        (SearchCovers (languageOf (first :: rest)) p'.synthPatterns →
          ReportsLanguage (languageOf (first :: rest)) (Env.ofParser p' place flags line)) := by
  obtain ⟨q, t, hparse, hstack, hg⟩ := Parser.parseRegex_textOf first rest hfuel
  obtain ⟨nodes, ok, hloop, hgraph, hwords⟩ := hg.completes hstack
  obtain ⟨hblank, hbranches⟩ := Parser.parseRegex_blank hparse
  refine ⟨q.complete, enough nodes, hparse, fun budget hbudget => ?_⟩
  obtain ⟨p', hrun⟩ := collectAdjacencies_isSome ok hblank hbranches hloop hbudget
  obtain ⟨hset, haccepts⟩ :=
    hgraph.accepting place hparse ok hwords hrun hmode hglobal hcase hline
  exact ⟨p', hrun, hset.runs haccepts (unused_newNfaSim _) rfl,
    fun hcovers => hcovers.reports hset haccepts⟩

/-- The matches of `(a.+)*[^b-d]c?`. -/
theorem pattern_reports_language_nested : ∃ p least,
    Parser.parseRegex 31 (textOf (Parser.nestedFirst :: Parser.nestedRest)) false = .ok p ∧
    ∀ budget, least ≤ budget → ∃ p', compileRegex budget p = some p' ∧
      ReportsLanguage (languageOf (Parser.nestedFirst :: Parser.nestedRest))
        (Env.ofParser p' (fun _ => 0) { mglobal := true, showMatchLine := false }
          twoMatches).withoutSearch ∧
      (SearchCovers (languageOf (Parser.nestedFirst :: Parser.nestedRest)) p'.synthPatterns →
        ReportsLanguage (languageOf (Parser.nestedFirst :: Parser.nestedRest))
          (Env.ofParser p' (fun _ => 0) { mglobal := true, showMatchLine := false }
            twoMatches)) :=
  pattern_reports_language Parser.nestedFirst Parser.nestedRest (fun _ => 0) (by decide) rfl rfl
    rfl (by unfold Line.NulFree; decide)

end Recognizer
