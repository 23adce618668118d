import Recognizer.Output.Modes
import Recognizer.Prescan.MultiPattern
import Recognizer.Prescan.Streams
import Recognizer.Run.Spans

/-!
# The spans that are reported lie in order

With `-o` an attempt reports its longest match when it ends, and the next attempt begins behind
that match, at the next position or at the next record of the keyword search. So the spans that
are reported lie on the line in their order and never overlap.
-/

namespace Recognizer

/-- A keyword search finds its matches in the order of their starts. -/
theorem KwSearch.search_sorted {kw : KwSearch} (hkw : kw.Built) (text : List Int) :
    (kw.search text).Pairwise fun r r' => r.beg ≤ r'.beg := by
  cases hkw with
  | bm pattern =>
    exact BMObj.searchLoop_sorted (BMObj.goodSuffix_nonneg pattern) text .nil (by simp)
  | @mpat _ _ obj _ =>
    have hinsert : ∀ (l : List MatchRecord) (r : MatchRecord),
        (l.Pairwise fun r r' => r.beg ≤ r'.beg) →
          (MPatObj.recordMatch l r).Pairwise fun r r' => r.beg ≤ r'.beg := by
      intro l r hsorted
      induction hsorted with
      | nil => exact List.pairwise_singleton _ _
      | @cons x l hx hsorted ih =>
        rw [MPatObj.recordMatch]
        split
        · next hlt =>
          refine .cons (fun y hy => ?_) ih
          rcases MPatObj.mem_recordMatch.mp hy with rfl | hy
          · exact hlt.le
          · exact hx y hy
        · next hge =>
          refine .cons (fun y hy => ?_) (.cons hx hsorted)
          rcases List.mem_cons.mp hy with rfl | hy
          · exact not_lt.mp hge
          · exact (not_lt.mp hge).trans (hx y hy)
    exact List.foldlRecOn (motive := fun l : List MatchRecord =>
      l.Pairwise fun r r' => r.beg ≤ r'.beg) _ _ .nil fun l hsorted r _ => hinsert l r hsorted

variable {E : Env} {l : Line} {s p fuel : Nat} {m : Match} {c d ctrl : NFASimCtrl}
  {st t : RunState} {o : Outcome} {mr : MatchRecord} {reports : List Match}

/-- The next record begins no earlier. -/
theorem AtRecord.next (h : AtRecord c mr)
    (hsorted : c.kwRecords.Pairwise fun r r' => r.beg ≤ r'.beg) {mr' : MatchRecord}
    (hnext : c.kwNextMatch = (some mr', d)) :
    AtRecord d mr' ∧ d.kwRecords = c.kwRecords ∧ mr.beg ≤ mr'.beg := by
  obtain ⟨i, hcursor, hmr⟩ := h
  unfold NFASimCtrl.kwNextMatch at hnext
  rw [hcursor] at hnext
  dsimp only at hnext
  split at hnext
  · cases hnext
  · next hmr' =>
    obtain ⟨hvalue, rfl⟩ := Prod.mk.inj hnext
    obtain rfl := Option.some.inj hvalue
    refine ⟨⟨i + 1, rfl, hmr'⟩, rfl, ?_⟩
    obtain ⟨hi, rfl⟩ := List.getElem?_eq_some_iff.mp hmr
    obtain ⟨hi', rfl⟩ := List.getElem?_eq_some_iff.mp hmr'
    exact List.pairwise_iff_getElem.mp hsorted i (i + 1) hi hi' (Nat.lt_succ_self i)

/-- The first record behind a position. -/
theorem kwSkipPast_cases {stop k : Nat} (h : c.kwSkipPast stop k = (some mr, d)) :
    AtRecord d mr ∧ d.kwRecords = c.kwRecords ∧ stop < mr.beg := by
  induction k generalizing c with
  | zero => cases h
  | succ k ih =>
    unfold NFASimCtrl.kwSkipPast at h
    split at h
    · next mr' c' hnext =>
      obtain ⟨hat, hsame⟩ := atRecord_kwNextMatch hnext
      split at h
      · obtain ⟨hat', hrecords, hlt⟩ := ih h
        exact ⟨hat', hrecords.trans hsame, hlt⟩
      · next hbehind =>
        obtain ⟨hvalue, rfl⟩ := Prod.mk.inj h
        obtain rfl := Option.some.inj hvalue
        exact ⟨hat, hsame, not_le.mp hbehind⟩
    · cases h

/-- The attempt at the position has been chosen by the keyword search, if there is one. -/
def ChosenBy (E : Env) (p : Nat) (c : NFASimCtrl) : Prop :=
  E.kw.isSome → (c.kwRecords.Pairwise fun r r' => r.beg ≤ r'.beg) ∧ ∃ mr, AtRecord c mr ∧ mr.beg = p

theorem ChosenBy.of_same (h : ChosenBy E p c) (hrecords : d.kwRecords = c.kwRecords)
    (hcursor : d.kwCursor = c.kwCursor) : ChosenBy E p d := by
  intro hkw
  obtain ⟨hsorted, mr, ⟨i, hi, hmr⟩, hbeg⟩ := h hkw
  rw [hrecords]
  exact ⟨hsorted, mr, ⟨i, hcursor.trans hi, hrecords ▸ hmr⟩, hbeg⟩

/-- **The next attempt** begins behind the match of the last one. -/
theorem updateInputPointer_behind (hchosen : ChosenBy E s c) (hs : 0 < s)
    (hspan : SpanAt E.line s s c.curMatch) {currentRun : Bool}
    (hfound : c.curMatch ≠ {} → currentRun = true)
    (hnext : updateInputPointer E currentRun s c = (p, d)) (hp : E.line.deref p ≠ 0) :
    ChosenBy E p d ∧ s ≤ p ∧ (c.curMatch ≠ {} → c.curMatch.stop < p) := by
  -- the attempt has matched a character exactly if its longest match ends somewhere
  have hmatched : (currentRun = false ∨ c.curMatch.stop = 0) ↔ c.curMatch = {} := by
    constructor
    · intro hnone
      by_contra hne
      have := (hspan.spansFrom hne).le
      rcases hnone with hrun | hstop
      · rw [hfound hne] at hrun
        cases hrun
      · omega
    · intro hempty
      rw [hempty]
      exact .inr rfl
  unfold updateInputPointer at hnext
  cases hkw : E.kw with
  | none =>
    rw [hkw] at hnext
    have hnone : ∀ q c', ChosenBy E q c' := by
      intro q c' hsome
      rw [hkw] at hsome
      cases hsome
    dsimp only [Option.isNone] at hnext
    rw [if_pos rfl] at hnext
    split at hnext
    · next hempty =>
      obtain ⟨rfl, rfl⟩ := Prod.mk.inj hnext
      exact ⟨hnone _ _, Nat.le_succ s, fun hne => absurd (hmatched.mp hempty) hne⟩
    · next hsome =>
      obtain ⟨rfl, rfl⟩ := Prod.mk.inj hnext
      have hne : c.curMatch ≠ {} := fun hempty => hsome (hmatched.mpr hempty)
      have := (hspan.spansFrom hne).le
      exact ⟨hnone _ _, by omega, fun _ => Nat.lt_succ_self _⟩
  | some kw =>
    rw [hkw] at hnext
    obtain ⟨hsorted, mr, hat, hbeg⟩ := hchosen (by rw [hkw]; rfl)
    have hend : E.line.deref nulString = 0 := E.line.deref_nulString
    dsimp only [Option.isNone] at hnext
    rw [if_neg Bool.false_ne_true] at hnext
    by_cases hempty : c.curMatch = {}
    · rw [if_pos (hmatched.mpr hempty)] at hnext
      split at hnext
      · next mr' hmr' =>
        obtain ⟨rfl, rfl⟩ := Prod.mk.inj hnext
        obtain ⟨hat', hrecords, hle⟩ := hat.next hsorted (Prod.ext hmr' rfl)
        refine ⟨fun _ => ⟨?_, mr', hat', rfl⟩, hbeg ▸ hle, fun hne => absurd hempty hne⟩
        rw [hrecords]
        exact hsorted
      · obtain ⟨rfl, -⟩ := Prod.mk.inj hnext
        exact absurd hend hp
    · rw [if_neg (fun hnone => hempty (hmatched.mp hnone))] at hnext
      split at hnext
      · next mr' hmr' =>
        obtain ⟨rfl, rfl⟩ := Prod.mk.inj hnext
        obtain ⟨hat', hrecords, hlt⟩ := kwSkipPast_cases (Prod.ext hmr' rfl)
        have := (hspan.spansFrom hempty).le
        refine ⟨fun _ => ⟨?_, mr', hat', rfl⟩, by omega, fun _ => hlt⟩
        rw [hrecords]
        exact hsorted
      · obtain ⟨rfl, -⟩ := Prod.mk.inj hnext
        exact absurd hend hp

/-- Spans on the line in their order, all of them in front of the position. -/
structure InOrder (l : Line) (p : Nat) (reports : List Match) : Prop where
  ordered : reports.Pairwise fun m m' => m.stop < m'.start
  inside : ∀ m ∈ reports, l.buffer ≤ m.start ∧ m.start ≤ m.stop ∧ m.stop ≤ l.eolPos
  before : ∀ m ∈ reports, m.stop < p

namespace InOrder

theorem nil : InOrder l p [] :=
  ⟨.nil, fun _ h => absurd h List.not_mem_nil, fun _ h => absurd h List.not_mem_nil⟩

theorem mono (h : InOrder l s reports) (hle : s ≤ p) : InOrder l p reports :=
  ⟨h.ordered, h.inside, fun m hm => (h.before m hm).trans_le hle⟩

/-- A span that begins at the position. -/
theorem append (h : InOrder l s reports) (hspan : SpansFrom l s m) (hs : l.buffer ≤ s)
    (hp : m.stop < p) : InOrder l p (reports ++ [m]) := by
  have hstart := hspan.start
  have hle := hspan.le
  refine ⟨List.pairwise_append.mpr ⟨h.ordered, List.pairwise_singleton _ _, ?_⟩, ?_, ?_⟩
  · intro m' hm' m'' hm''
    rw [List.mem_singleton.mp hm'', hstart]
    exact h.before m' hm'
  · intro m' hm'
    rcases List.mem_append.mp hm' with hold | hnew
    · exact h.inside m' hold
    · rw [List.mem_singleton.mp hnew, hstart]
      exact ⟨hs, hle, hspan.inside⟩
  · intro m' hm'
    rcases List.mem_append.mp hm' with hold | hnew
    · have := h.before m' hold
      omega
    · rw [List.mem_singleton.mp hnew]
      exact hp

end InOrder

/-- What is reported of the longest match: nothing if it is empty. -/
def reportOf (m : Match) : List Match := if m = {} then [] else [m]

/-- The control block with one more report. -/
def NFASimCtrl.report (c : NFASimCtrl) (m : Match) : NFASimCtrl :=
  { c with reports := c.reports ++ reportOf m }

/-- `new_match` with `-o`. -/
theorem newMatch_individual (hmode : E.flags.individualMatches = true)
    (hspan : SpanAt E.line s s c.curMatch) (hs : 0 < s) : newMatch E c = c.report c.curMatch := by
  unfold CtrlFlags.individualMatches at hmode
  simp only [Bool.not_eq_true', Bool.or_eq_false_iff] at hmode
  unfold NFASimCtrl.report reportOf
  split
  · next hempty => rw [newMatch_of_blank hempty, List.append_nil]
  · next hne =>
    have hfrom := hspan.spansFrom hne
    have hstart := hfrom.start
    have hle := hfrom.le
    unfold newMatch
    rw [if_pos ⟨hmode.1.1, by omega, by omega⟩, hmode.2]
    rfl

theorem InOrder.report (h : InOrder l s reports) (hspan : SpanAt l s s m) (hs : l.buffer ≤ s)
    (hle : s ≤ p) (hp : m ≠ {} → m.stop < p) : InOrder l p (reports ++ reportOf m) := by
  unfold reportOf
  split
  · rw [List.append_nil]
    exact h.mono hle
  · next hne => exact h.append (hspan.spansFrom hne) hs (hp hne)

/-- A state of an attempt whose earlier attempts have been reported in order. -/
structure Reporting (E : Env) (st : RunState) : Prop where
  spans : SpansAt E st
  found : st.ctrl.curMatch ≠ {} → st.currentRun = true
  chosen : ChosenBy E st.inputPointer st.ctrl
  reports : InOrder E.line st.inputPointer st.ctrl.reports

/-- The branch that starts at another position. -/
theorem restart_individual (hmode : E.flags.individualMatches = true) (hspans : SpansAt E st)
    (h : restart E fuel st = some o) : ∃ (pos : Nat) (d e : NFASimCtrl),
      updateInputPointer E st.currentRun st.inputPointer (st.ctrl.report st.ctrl.curMatch) =
        (pos, d) ∧
      loadStartStates E fuel pos (beginAttempt d pos) = some e ∧
        o = testInput E ((st.moveTo pos).hold e.shiftActive) := by
  have hline : E.flags.lineOrInvert = false := by
    unfold CtrlFlags.individualMatches at hmode
    simp only [Bool.not_eq_true', Bool.or_eq_false_iff] at hmode
    unfold CtrlFlags.lineOrInvert
    rw [hmode.1.2, hmode.2]
    rfl
  unfold restart resetThread at h
  rw [newMatch_individual hmode hspans.best hspans.zero_lt, hline] at h
  dsimp only at h
  rw [if_neg Bool.false_ne_true] at h
  split at h
  · cases h
  · next hreset =>
    split at hreset
    · cases hreset
    · obtain ⟨e, hload, rfl⟩ := Option.map_eq_some_iff.mp hreset
      exact ⟨_, _, e, rfl, hload, (Option.some.inj h).symm⟩

/-- The spans an outcome has reported, from left to right. -/
def ReportsInOrder (E : Env) : Outcome → Prop
  | .running st => Reporting E st
  | .released st => ∃ p, InOrder E.line p st.ctrl.reports

section Rounds

variable (hline : E.line.Ascii) (hmode : E.flags.individualMatches = true)
include hline hmode

omit hline in
/-- The longest match is reported, and the next attempt begins behind it. -/
theorem Reporting.restart (h : Reporting E st) (hrestart : restart E fuel st = some o)
    (hspans : ∀ st', o = .running st' → SpansAt E st') : ReportsInOrder E o := by
  obtain ⟨pos, d, e, hpointer, hload, rfl⟩ := restart_individual hmode h.spans hrestart
  have hframe := loadStartStates_frame hload
  have hreports : e.reports = st.ctrl.reports ++ reportOf st.ctrl.curMatch := by
    have hd := reports_updateInputPointer (E := E) st.currentRun st.inputPointer
      (st.ctrl.report st.ctrl.curMatch)
    rw [hpointer] at hd
    exact hframe.reports.trans hd
  by_cases hpos : E.line.deref pos ≠ 0
  · have ho : testInput E ((st.moveTo pos).hold e.shiftActive) =
        .running ((st.moveTo pos).hold e.shiftActive) := if_pos hpos
    obtain ⟨hchosen, hle, hbehind⟩ := updateInputPointer_behind
      (h.chosen.of_same (d := st.ctrl.report st.ctrl.curMatch) rfl rfl) h.spans.zero_lt h.spans.best
      h.found hpointer hpos
    rw [ho]
    refine ⟨hspans _ ho, fun hne => absurd hframe.curMatch hne,
      hchosen.of_same hframe.kwRecords hframe.kwCursor, ?_⟩
    change InOrder E.line pos e.reports
    rw [hreports]
    exact h.reports.report h.spans.best h.spans.start hle hbehind
  · have ho : testInput E ((st.moveTo pos).hold e.shiftActive) =
        .released ((st.moveTo pos).hold e.shiftActive) := if_neg hpos
    rw [ho]
    refine ⟨st.inputPointer + st.ctrl.curMatch.stop + 1, ?_⟩
    change InOrder E.line _ e.reports
    rw [hreports]
    exact h.reports.report h.spans.best h.spans.start (by omega) fun _ => by omega

/-- **Every round.** -/
theorem Reporting.round (h : Reporting E st) (hround : RoundTo E st o) : ReportsInOrder E o := by
  have hspans : ∀ st', o = .running st' → SpansAt E st' := by
    rintro st' rfl
    exact h.spans.round hline hround
  obtain ⟨fuel, hround⟩ := hround
  cases runStep_cases hround with
  | @matched sim sim' ctrl' hheld hstep hstatus =>
    have hframe := threadStep_frame hstep
    have hmerged : SpanAt E.line st.inputPointer st.inputPointer
        (updateLongestMatch ctrl'.curMatch sim'.curMatch) := by
      rw [threadStep_accepts E fuel sim st.ctrl (threadStep_matched hstep hstatus)] at hstep
      obtain ⟨rfl, rfl⟩ := Prod.mk.inj (Option.some.inj hstep)
      exact h.spans.best.updateLongestMatch h.spans.zero_lt (h.spans.held sim hheld).span
    revert hspans
    unfold matchCase
    dsimp only
    rw [if_pos hmode]
    split
    · intro hspans
      refine ⟨hspans _ rfl, fun _ => rfl, h.chosen.of_same hframe.kwRecords hframe.kwCursor, ?_⟩
      change InOrder E.line st.inputPointer ctrl'.reports
      rw [hframe.reports]
      exact h.reports
    · intro _
      refine ⟨st.inputPointer + (updateLongestMatch ctrl'.curMatch sim'.curMatch).stop + 1, ?_⟩
      rw [newMatch_individual hmode hmerged h.spans.zero_lt]
      change InOrder E.line _ (ctrl'.reports ++ _)
      rw [hframe.reports]
      exact h.reports.report hmerged h.spans.start (by omega) fun _ => by
        change (updateLongestMatch ctrl'.curMatch sim'.curMatch).stop < _
        omega
  | failed hheld hstep _ | kept hheld hstep _ _ =>
    have hframe := threadStep_frame hstep
    refine ⟨hspans _ rfl, fun hne => ?_, h.chosen.of_same hframe.kwRecords hframe.kwCursor, ?_⟩
    · exact h.found (hframe.curMatch ▸ hne)
    · exact hframe.reports ▸ h.reports
  | swapped hheld hnext =>
    unfold testInput at hspans ⊢
    split
    · next hinput =>
      rw [if_pos hinput] at hspans
      exact ⟨hspans _ rfl, h.found, h.chosen.of_same rfl rfl, h.reports⟩
    · exact ⟨_, h.reports⟩
  | restarted hheld hnext hrestart => exact h.restart hmode hrestart hspans

/-- A whole run. -/
theorem ReportsInOrder.runsTo (h : ReportsInOrder E o) (hruns : RunsTo E o t) :
    ∃ p, InOrder E.line p t.ctrl.reports := by
  induction hruns with
  | released => exact h
  | round hround _ ih => exact ih (h.round hline hmode hround)

end Rounds

/-- A keyword search, if there is one, was initialised for patterns. -/
def Env.KwBuilt (E : Env) : Prop := ∀ kw, E.kw = some kw → kw.Built

theorem kwBuilt_ofParser (q : Parser) (place : Nat → Nat) (flags : CtrlFlags) (line : Line) :
    (Env.ofParser q place flags line).KwBuilt := by
  intro kw hkw
  unfold Env.ofParser KwSearch.ofPatterns at hkw
  dsimp only at hkw
  split at hkw
  · cases hkw
  · obtain rfl := Option.some.inj hkw
    exact .bm _
  · obtain ⟨obj, hobj, rfl⟩ := Option.map_eq_some_iff.mp hkw
    exact .mpat hobj

theorem kwBuilt_compilePattern {pattern : List Int} {flags : CtrlFlags} {place : Nat → Nat}
    (h : compilePattern fuel pattern flags place l = some E) : E.KwBuilt := by
  unfold compilePattern at h
  split at h
  · cases h
  · obtain ⟨q, -, rfl⟩ := Option.map_eq_some_iff.mp h
    exact kwBuilt_ofParser q place flags l

/-- The first attempt is the first record of the keyword search. -/
theorem startRun_chosen (hkw : E.KwBuilt) (hactive : c.activeThreads = [])
    (h : startRun E fuel c = some (.running st)) : ChosenBy E st.inputPointer st.ctrl := by
  intro hsome
  obtain ⟨kw, hkw'⟩ := Option.isSome_iff_exists.mp hsome
  obtain ⟨mr, d, c₁, hnext, hload, rfl, -⟩ := startRun_search hkw' hactive h
  obtain ⟨⟨i, hcursor, hmr⟩, hsame⟩ := atRecord_kwNextMatch hnext
  have hframe := loadStartStates_frame hload
  have hrecords : c₁.kwRecords = d.kwRecords := hframe.kwRecords
  have hsorted : d.kwRecords.Pairwise fun r r' => r.beg ≤ r'.beg := by
    rw [hsame]
    refine List.pairwise_map.mpr ((KwSearch.search_sorted (hkw kw hkw') _).imp ?_)
    intro r r' hle
    exact Nat.add_le_add_left hle _
  have hat : AtRecord c₁ mr := ⟨i, hframe.kwCursor.trans hcursor, hrecords ▸ hmr⟩
  exact ⟨hrecords ▸ hsorted, mr, hat, hframe.curPos.symm⟩

/-- With `-o` the end of a run reports nothing. -/
theorem finishRun_individual (hmode : E.flags.individualMatches = true) :
    (finishRun E t).2.reports = t.ctrl.reports := by
  unfold CtrlFlags.individualMatches at hmode
  simp only [Bool.not_eq_true', Bool.or_eq_false_iff] at hmode
  unfold finishRun
  dsimp only
  simp only [hmode.1.2, hmode.2, Bool.false_eq_true, and_false, or_self, if_false]
  split
  · rfl
  · rfl

/-- **The matches of a line lie in order.** With `-o` the spans reported for a line begin behind
each other's ends and lie on the line. -/
theorem runLine_inOrder (hkw : E.KwBuilt) (hline : E.line.Ascii)
    (hmode : E.flags.individualMatches = true) (hactive : ctrl.activeThreads = [])
    (hnext : ctrl.nextThreads = []) {value : Bool} {spans : List Match}
    (h : runLine E fuel ctrl = some (value, spans, d)) :
    (spans.Pairwise fun m m' => m.stop < m'.start) ∧
      ∀ m ∈ spans, E.line.buffer ≤ m.start ∧ m.start ≤ m.stop ∧ m.stop ≤ E.line.eolPos := by
  obtain ⟨o, t, hstart, hruns, rfl, rfl, -⟩ := runLine_cases h
  have hfresh : OnBuffer E [] (freshLine E.line ctrl) := ⟨rfl, rfl, rfl⟩
  have hbegin : ReportsInOrder E o := by
    have hnone := (hfresh.startRun hstart).reports
    cases o with
    | running st =>
      have hactive' : (freshLine E.line ctrl).activeThreads = [] := hactive
      refine ⟨.startRun rfl hactive' hnext rfl rfl rfl hstart, fun hne => ?_,
        startRun_chosen hkw hactive' hstart, ?_⟩
      · exact absurd (startRun_blank rfl hstart).curMatch hne
      · exact (show st.ctrl.reports = [] from hnone) ▸ .nil
    | released st => exact ⟨0, (show st.ctrl.reports = [] from hnone) ▸ .nil⟩
  obtain ⟨p, hreports⟩ := hbegin.runsTo hline hmode hruns
  rw [finishRun_individual hmode]
  exact ⟨hreports.ordered, hreports.inside⟩

/-- The spans reported for a line lie on it, in their order and without overlaps. -/
def LiesInOrder (l : Line) (spans : List Match) : Prop :=
  (spans.Pairwise fun m m' => m.stop < m'.start) ∧
    ∀ m ∈ spans, l.buffer ≤ m.start ∧ m.start ≤ m.stop ∧ m.stop ≤ l.eolPos

/-- A line leaves the simulator idle. -/
theorem runLine_idle {value : Bool} {spans : List Match}
    (h : runLine E fuel ctrl = some (value, spans, d)) :
    d.activeThreads = [] ∧ d.nextThreads = [] := by
  obtain ⟨o, t, -, -, -, -, rfl⟩ := runLine_cases h
  exact finishRun_lists t

/-- **Every line of a file.** -/
theorem runLines_inOrder {pattern : List Int} {flags : CtrlFlags} {place : Nat → Nat}
    {lines : List Line} {results : List (Bool × List Match)}
    (hcompile : compilePattern fuel pattern flags place l = some E)
    (hmode : flags.individualMatches = true) (hlines : ∀ line ∈ lines, line.Ascii)
    (h : runLines E fuel lines (newNfaSim E) = some (results, d)) :
    List.Forall₂ (fun line result => LiesInOrder line result.2) lines results := by
  have hkw := kwBuilt_compilePattern hcompile
  have hflags : E.flags = flags := by
    unfold compilePattern at hcompile
    split at hcompile
    · cases hcompile
    · obtain ⟨q, -, rfl⟩ := Option.map_eq_some_iff.mp hcompile
      rfl
  suffices hall : ∀ (lines : List Line) (ctrl : NFASimCtrl) (results : List (Bool × List Match)),
      (∀ line ∈ lines, line.Ascii) → ctrl.activeThreads = [] → ctrl.nextThreads = [] →
        runLines E fuel lines ctrl = some (results, d) →
          List.Forall₂ (fun line result => LiesInOrder line result.2) lines results from
    hall lines _ results hlines rfl rfl h
  intro lines
  induction lines with
  | nil =>
    intro ctrl results _ _ _ h
    obtain ⟨rfl, -⟩ := Prod.mk.inj (Option.some.inj h)
    exact .nil
  | cons line lines ih =>
    intro ctrl results hlines hactive hnext h
    unfold runLines at h
    obtain ⟨⟨value, spans, c⟩, hline, h⟩ := Option.bind_eq_some_iff.mp h
    obtain ⟨⟨rest, c'⟩, hrest, h⟩ := Option.bind_eq_some_iff.mp h
    obtain ⟨rfl, rfl⟩ := Prod.mk.inj (Option.some.inj h)
    obtain ⟨hactive', hnext'⟩ := runLine_idle hline
    refine .cons ?_ (ih c rest (fun x hx => hlines x (.tail line hx)) hactive' hnext' hrest)
    refine runLine_inOrder (E := E.onLine line) hkw (hlines line List.mem_cons_self) ?_ hactive
      hnext hline
    exact hflags ▸ hmode

/-- Two lines with letters from a range. -/
theorem runLines_inOrder_letters : ∃ E results d,
    compilePattern 40 (bytes "[ab]") { mglobal := true, showMatchLine := false } (fun _ => 0)
        threeLetters = some E ∧
      runLines E 40 [threeLetters, threeLetters] (newNfaSim E) = some (results, d) ∧
        List.Forall₂ (fun line result => LiesInOrder line result.2) [threeLetters, threeLetters]
          results := by
  have h : ((compilePattern 40 (bytes "[ab]") { mglobal := true, showMatchLine := false }
      (fun _ => 0) threeLetters).bind fun E =>
        (runLines E 40 [threeLetters, threeLetters] (newNfaSim E)).map Prod.fst) =
      some [(true, [⟨2, 2⟩, ⟨3, 3⟩]), (true, [⟨2, 2⟩, ⟨3, 3⟩])] := by
    decide +kernel
  obtain ⟨E, hcompile, h⟩ := Option.bind_eq_some_iff.mp h
  obtain ⟨⟨results, d⟩, hruns, -⟩ := Option.map_eq_some_iff.mp h
  have hlines : ∀ line ∈ [threeLetters, threeLetters], line.Ascii := by
    intro line hline c hc
    obtain rfl : line = threeLetters := by simpa using hline
    exact (show ∀ c ∈ bytes "abc", 0 < c ∧ c < 128 by decide) c hc
  exact ⟨E, results, d, hcompile, hruns, runLines_inOrder hcompile rfl hlines hruns⟩

end Recognizer
