import Recognizer.Output.Events
import Recognizer.Run.Modes
import Recognizer.Run.Session

/-!
# A line is printed by one of two modes

Without `-o` the rounds of `run_nfa` report nothing; the line is reported at the end, as the mode
asks for it, and never if it is empty. From one simulator state the default mode and `-v` agree on
whether the line matches, so exactly one of the two prints it.
-/

namespace Recognizer

variable {E : Env} {fuel fuel' : Nat} {c d d' ctrl : NFASimCtrl} {s t : RunState} {o : Outcome}

/-- The whole line as a span. -/
def Line.whole (l : Line) : Match := ⟨l.buffer, l.eolPos - 1⟩

/-- What a mode without `-o` prints of a line. -/
def CtrlFlags.printed (f : CtrlFlags) (l : Line) (value : Bool) : List Match :=
  if f.silentMatch = false ∧ (value = false ∧ f.invertMatch ∨ value ∧ f.showMatchLine) ∧
      l.text ≠ [] then [l.whole]
  else []

/-- The default mode. -/
def CtrlFlags.showingLines (f : CtrlFlags) : CtrlFlags :=
  { f with silentMatch := false, invertMatch := false, showMatchLine := true }

/-- The mode of `-v`. -/
def CtrlFlags.inverted (f : CtrlFlags) : CtrlFlags :=
  { f with silentMatch := false, invertMatch := true, showMatchLine := false }

/-- The control block stands on the line and has reported the spans. -/
structure OnBuffer (E : Env) (reports : List Match) (c : NFASimCtrl) : Prop where
  bufferStart : c.bufferStart = E.line.buffer
  bufferEnd : c.bufferEnd = E.line.eolPos
  reports : c.reports = reports

namespace OnBuffer

variable {reports : List Match}

theorem of_frame (h : OnBuffer E reports c) (hframe : SameFrame c d) : OnBuffer E reports d :=
  ⟨hframe.bufferStart.trans h.bufferStart, hframe.bufferEnd.trans h.bufferEnd,
    hframe.reports.trans h.reports⟩

/-- Only `new_match` reports. -/
theorem of_same (h : OnBuffer E reports c) (hsame : SameThreads c d)
    (hreports : d.reports = c.reports) : OnBuffer E reports d :=
  ⟨hsame.bufferStart.trans h.bufferStart, hsame.bufferEnd.trans h.bufferEnd,
    hreports.trans h.reports⟩

end OnBuffer

section Rounds

variable {reports : List Match} (hquiet : E.flags.individualMatches = false)
include hquiet

/-- Without `-o` no round reports. -/
theorem newMatchEvents_of_quiet :
    (if E.flags.lineOrInvert then [] else newMatchEvents E [] 0 c) = [] := by
  unfold CtrlFlags.individualMatches at hquiet
  unfold CtrlFlags.lineOrInvert newMatchEvents
  cases hsilent : E.flags.silentMatch with
  | true => simp
  | false =>
    rw [hsilent] at hquiet
    cases hshow : E.flags.showMatchLine with
    | true => simp
    | false =>
      rw [hshow] at hquiet
      cases hinvert : E.flags.invertMatch with
      | true => simp
      | false =>
        rw [hinvert] at hquiet
        cases hquiet

theorem restart_reports (h : restart E fuel s = some o) :
    o.state.ctrl.reports = s.ctrl.reports := by
  have htells : Tells E [] 0 _ _ _ := tells_restart h
  obtain ⟨spans, hreports, hshown⟩ := htells
  rw [newMatchEvents_of_quiet hquiet, List.nil_append, reportsOf_loadEvents] at hshown
  rw [hreports, List.map_eq_nil_iff.mp hshown.symm, List.append_nil]

/-- A round reports nothing. -/
theorem OnBuffer.round (h : OnBuffer E reports s.ctrl) (hround : RoundTo E s o) :
    OnBuffer E reports o.state.ctrl := by
  obtain ⟨fuel, hround⟩ := hround
  cases runStep_cases hround with
  | @matched sim sim' ctrl' hheld hstep hstatus =>
    have hctrl := h.of_frame (threadStep_frame hstep)
    unfold matchCase
    rw [hquiet]
    dsimp only
    rw [if_neg Bool.false_ne_true]
    split
    · exact ⟨hctrl.bufferStart, hctrl.bufferEnd, hctrl.reports⟩
    · exact hctrl
  | failed hheld hstep _ | kept hheld hstep _ _ =>
    have hctrl := h.of_frame (threadStep_frame hstep)
    exact ⟨hctrl.bufferStart, hctrl.bufferEnd, hctrl.reports⟩
  | swapped hheld hnext =>
    rw [testInput_state]
    exact ⟨h.bufferStart, h.bufferEnd, h.reports⟩
  | restarted hheld hnext hrestart =>
    have hreports := restart_reports hquiet hrestart
    obtain ⟨pos, c, c', hsame, _, hload, rfl⟩ := restart_cases hrestart
    rw [testInput_state] at hreports ⊢
    have hframe := loadStartStates_frame hload
    exact ⟨(hframe.bufferStart.trans hsame.bufferStart).trans h.bufferStart,
      (hframe.bufferEnd.trans hsame.bufferEnd).trans h.bufferEnd, hreports.trans h.reports⟩

theorem OnBuffer.runsTo (h : OnBuffer E reports o.state.ctrl) (hruns : RunsTo E o t) :
    OnBuffer E reports t.ctrl := by
  induction hruns with
  | released => exact h
  | round hround _ ih => exact ih (h.round hquiet hround)

end Rounds

theorem reportsOf_startEvents (E : Env) (c : NFASimCtrl) : reportsOf (startEvents E c) = [] := by
  unfold startEvents
  split
  · split
    · rfl
    · exact reportsOf_loadEvents
  · exact reportsOf_loadEvents

/-- What comes before the loops reports nothing. -/
theorem OnBuffer.startRun {reports : List Match} (h : OnBuffer E reports c)
    (hstart : startRun E fuel c = some o) : OnBuffer E reports o.state.ctrl := by
  have htells : Tells E [] 0 _ _ _ := tells_startRun hstart
  obtain ⟨spans, hreports, hshown⟩ := htells
  rw [reportsOf_startEvents] at hshown
  rw [List.map_eq_nil_iff.mp hshown.symm, List.append_nil] at hreports
  obtain ⟨c₁, c₂, hsame, _, _, _, hload, ho⟩ := startRun_cases hstart
  have hbuffer : c₂.bufferStart = c.bufferStart ∧ c₂.bufferEnd = c.bufferEnd := by
    rcases hload with hload | ⟨rfl, -⟩
    · have hframe := loadStartStates_frame hload
      exact ⟨hframe.bufferStart.trans hsame.bufferStart, hframe.bufferEnd.trans hsame.bufferEnd⟩
    · exact ⟨hsame.bufferStart, hsame.bufferEnd⟩
  have hstate : o.state = enterLoops c₁.curPos c₂.shiftActive := by
    rcases ho with rfl | ⟨-, rfl⟩
    · exact testInput_state _
    · rfl
  rw [hstate] at hreports ⊢
  exact ⟨hbuffer.1.trans h.bufferStart, hbuffer.2.trans h.bufferEnd, hreports.trans h.reports⟩

/-- Reporting the whole line. -/
theorem newMatch_whole (hsilent : E.flags.silentMatch = false)
    (hstart : c.bufferStart = E.line.buffer) (hend : c.bufferEnd = E.line.eolPos) :
    (newMatch E (c.setMatch ⟨c.bufferStart, c.bufferEnd - 1⟩)).reports =
      c.reports ++ if E.line.text ≠ [] then [E.line.whole] else [] := by
  have hbuffer := E.line.one_lt_buffer
  unfold newMatch NFASimCtrl.setMatch
  dsimp only
  rw [hstart, hend]
  by_cases htext : E.line.text = []
  · -- the last position of an empty line is in front of its first one
    have hempty : E.line.eolPos = E.line.buffer := by
      rw [Line.eolPos, htext]
      rfl
    rw [if_neg (fun h => by omega), if_neg (fun h => h htext), List.append_nil]
  · have hlength := List.length_pos_of_ne_nil htext
    rw [if_pos ⟨hsilent, by omega, by unfold Line.eolPos; omega⟩, if_pos htext]
    split
    · rfl
    · rfl

/-- What the end of a run reports. -/
theorem finishRun_reports {reports : List Match} (h : OnBuffer E reports t.ctrl) :
    (finishRun E t).2.reports = reports ++ E.flags.printed E.line t.matchFound := by
  have hreleased : OnBuffer E reports (t.ctrl.releaseAllThreads t.thread) :=
    ⟨h.bufferStart, h.bufferEnd, h.reports⟩
  have hclear : (finishRun E t).2.reports =
      (if (t.matchFound = false ∧ E.flags.invertMatch) ∨ (t.matchFound ∧ E.flags.showMatchLine)
        then newMatch E ((t.ctrl.releaseAllThreads t.thread).setMatch
          ⟨(t.ctrl.releaseAllThreads t.thread).bufferStart,
            (t.ctrl.releaseAllThreads t.thread).bufferEnd - 1⟩)
        else t.ctrl.releaseAllThreads t.thread).reports := by
    unfold finishRun
    dsimp only
    split
    · rfl
    · rfl
  rw [hclear]
  unfold CtrlFlags.printed
  cases hsilent : E.flags.silentMatch with
  | true =>
    simp only [Bool.true_eq_false, false_and, if_false, List.append_nil]
    split
    · unfold newMatch
      rw [hsilent, if_neg (fun hprint => Bool.noConfusion hprint.1)]
      exact h.reports
    · exact h.reports
  | false =>
    by_cases hcond : (t.matchFound = false ∧ E.flags.invertMatch) ∨
        (t.matchFound ∧ E.flags.showMatchLine)
    · rw [if_pos hcond, newMatch_whole hsilent hreleased.bufferStart hreleased.bufferEnd,
        hreleased.reports]
      by_cases htext : E.line.text ≠ []
      · rw [if_pos htext, if_pos ⟨rfl, hcond, htext⟩]
      · rw [if_neg htext, if_neg fun hprint => htext hprint.2.2]
    · rw [if_neg hcond, if_neg (fun hprint => hcond hprint.2.1), List.append_nil]
      exact h.reports

/-- What a line returns comes from a run of its rounds. -/
theorem runLine_cases {value : Bool} {spans : List Match}
    (h : runLine E fuel ctrl = some (value, spans, d)) : ∃ o t,
      startRun E fuel (freshLine E.line ctrl) = some o ∧ RunsTo E o t ∧ value = t.matchFound ∧
        spans = (finishRun E t).2.reports ∧ d = (finishRun E t).2 := by
  unfold runLine at h
  obtain ⟨⟨v, c⟩, hrun, h⟩ := Option.bind_eq_some_iff.mp h
  obtain ⟨rfl, hrest⟩ := Prod.mk.inj (Option.some.inj h)
  obtain ⟨rfl, rfl⟩ := Prod.mk.inj hrest
  obtain ⟨o, t, hstart, hruns, rfl, rfl⟩ := runNfa_cases hrun
  exact ⟨o, t, hstart, hruns, rfl, rfl, rfl⟩

/-- **A line without `-o`.** It is printed as the mode asks for it, unless it is empty. -/
theorem runLine_prints {value : Bool} {spans : List Match}
    (hquiet : E.flags.individualMatches = false)
    (h : runLine E fuel ctrl = some (value, spans, d)) :
    spans = E.flags.printed E.line value := by
  obtain ⟨o, t, hstart, hruns, rfl, rfl, -⟩ := runLine_cases h
  have hfresh : OnBuffer E [] (freshLine E.line ctrl) := ⟨rfl, rfl, rfl⟩
  exact finishRun_reports ((hfresh.startRun hstart).runsTo hquiet hruns)

/-- The value of a line does not depend on the output mode. -/
theorem runLine_value {f : CtrlFlags} {value value' : Bool} {spans spans' : List Match}
    (hfold : f.ignoreCase = E.flags.ignoreCase)
    (h : runLine E fuel ctrl = some (value, spans, d))
    (h' : runLine (E.withFlags f) fuel' ctrl = some (value', spans', d')) : value' = value := by
  unfold runLine at h h'
  obtain ⟨⟨v, c⟩, hrun, h⟩ := Option.bind_eq_some_iff.mp h
  obtain ⟨⟨v', c'⟩, hrun', h'⟩ := Option.bind_eq_some_iff.mp h'
  obtain ⟨rfl, -⟩ := Prod.mk.inj (Option.some.inj h)
  obtain ⟨rfl, -⟩ := Prod.mk.inj (Option.some.inj h')
  exact runNfa_value_withFlags hfold rfl hrun hrun'

/-- A line with a letter between two others. -/
def threeLetters : Line := { buffer := 2, one_lt_buffer := Nat.one_lt_two, text := bytes "abc" }

/-- The flags of `-o` give the value of the default mode. -/
theorem runLine_value_letter : ∃ E value value' spans spans' d d',
    compilePattern 40 (bytes "b") {} (fun _ => 0) threeLetters = some E ∧
      runLine E 40 (newNfaSim E) = some (value, spans, d) ∧
        runLine (E.withFlags { showMatchLine := false, mglobal := true }) 60 (newNfaSim E) =
          some (value', spans', d') ∧ value' = value := by
  have h : ((compilePattern 40 (bytes "b") {} (fun _ => 0) threeLetters).bind fun E =>
      (runLine E 40 (newNfaSim E)).bind fun r =>
        (runLine (E.withFlags { showMatchLine := false, mglobal := true }) 60 (newNfaSim E)).map
          fun r' => (E.flags.ignoreCase, r.1, r'.1)) = some (false, true, true) := by
    decide +kernel
  obtain ⟨E, hcompile, h⟩ := Option.bind_eq_some_iff.mp h
  obtain ⟨⟨value, spans, d⟩, hline, h⟩ := Option.bind_eq_some_iff.mp h
  obtain ⟨⟨value', spans', d'⟩, hmatches, h⟩ := Option.map_eq_some_iff.mp h
  have hfold : E.flags.ignoreCase = false := (Prod.mk.inj h).1
  exact ⟨E, value, value', spans, spans', d, d', hcompile, hline, hmatches,
    runLine_value hfold.symm hline hmatches⟩

/-- **One of two modes prints a line.** From one state of the simulator the default mode and `-v`
answer the same; the first prints the line if it matches, the second if it does not, and neither
prints an empty line. -/
theorem printed_in_one_mode {value value' : Bool} {spans spans' : List Match}
    (h : runLine (E.withFlags E.flags.showingLines) fuel ctrl = some (value, spans, d))
    (h' : runLine (E.withFlags E.flags.inverted) fuel' ctrl = some (value', spans', d')) :
    value' = value ∧ (E.line.text = [] → spans = [] ∧ spans' = []) ∧
      (E.line.text ≠ [] → value = true ∧ spans = [E.line.whole] ∧ spans' = [] ∨
        value = false ∧ spans = [] ∧ spans' = [E.line.whole]) := by
  have hvalue : value' = value :=
    runLine_value (E := E.withFlags E.flags.showingLines) (f := E.flags.inverted) rfl h h'
  have hspans := runLine_prints rfl h
  have hspans' := runLine_prints rfl h'
  rw [hvalue] at hspans'
  refine ⟨hvalue, fun hempty => ⟨?_, ?_⟩, fun htext => ?_⟩
  · rw [hspans]
    exact if_neg fun hprint => hprint.2.2 hempty
  · rw [hspans']
    exact if_neg fun hprint => hprint.2.2 hempty
  · cases value with
    | true =>
      refine .inl ⟨rfl, ?_, ?_⟩
      · rw [hspans]
        exact if_pos ⟨rfl, .inr ⟨rfl, rfl⟩, htext⟩
      · rw [hspans']
        exact if_neg (by simp [Env.withFlags, CtrlFlags.inverted])
    | false =>
      refine .inr ⟨rfl, ?_, ?_⟩
      · rw [hspans]
        exact if_neg (by simp [Env.withFlags, CtrlFlags.showingLines])
      · rw [hspans']
        exact if_pos ⟨rfl, .inl ⟨rfl, rfl⟩, htext⟩

/-- The default mode prints the line, `-v` does not. -/
theorem printed_in_one_mode_letter : ∃ E value value' spans spans' d d',
    compilePattern 40 (bytes "b") {} (fun _ => 0) threeLetters = some E ∧
      runLine (E.withFlags E.flags.showingLines) 40 (newNfaSim E) = some (value, spans, d) ∧
        runLine (E.withFlags E.flags.inverted) 40 (newNfaSim E) = some (value', spans', d') ∧
          value' = value ∧ (E.line.text = [] → spans = [] ∧ spans' = []) ∧
            (E.line.text ≠ [] → value = true ∧ spans = [E.line.whole] ∧ spans' = [] ∨
              value = false ∧ spans = [] ∧ spans' = [E.line.whole]) := by
  have h : ((compilePattern 40 (bytes "b") {} (fun _ => 0) threeLetters).bind fun E =>
      (runLine (E.withFlags E.flags.showingLines) 40 (newNfaSim E)).bind fun r =>
        (runLine (E.withFlags E.flags.inverted) 40 (newNfaSim E)).map fun r' =>
          (r.1, r'.1)) = some (true, true) := by
    decide +kernel
  obtain ⟨E, hcompile, h⟩ := Option.bind_eq_some_iff.mp h
  obtain ⟨⟨value, spans, d⟩, hshow, h⟩ := Option.bind_eq_some_iff.mp h
  obtain ⟨⟨value', spans', d'⟩, hinvert, -⟩ := Option.map_eq_some_iff.mp h
  exact ⟨E, value, value', spans, spans', d, d', hcompile, hshow, hinvert,
    printed_in_one_mode hshow hinvert⟩

end Recognizer
