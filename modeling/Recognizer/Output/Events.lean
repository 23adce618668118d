import Recognizer.Source.Output
import Recognizer.Run.Start

/-!
# The events of a run and its reports

The events are read off the states of a run. They tell the reports the run collects, one by one,
with the bytes of the spans.
-/

namespace Recognizer

variable {fuel : Nat} {E : Env} {filename : List Int} {lineNo : Nat}
  {xs ys events : List OutputEvent} {o : Outcome} {s s' : RunState} {c d e ctrl ctrl' : NFASimCtrl}

/-- The report an event makes. -/
def OutputEvent.report? : OutputEvent → Option Report
  | .report r => some r
  | _ => none

/-- The reports among events. -/
def reportsOf (events : List OutputEvent) : List Report := events.filterMap OutputEvent.report?

/-- The reports of two stretches of events are those of the one and then the other. -/
theorem reportsOf_append : reportsOf (xs ++ ys) = reportsOf xs ++ reportsOf ys :=
  List.filterMap_append

/-- What a report shows. -/
def Report.shown (r : Report) : List Int × Nat × List Int := (r.filename, r.lineNo, r.text)

/-- What a report on a span of the line shows. -/
def shownAt (E : Env) (filename : List Int) (lineNo : Nat) (span : Match) :
    List Int × Nat × List Int :=
  (filename, lineNo, E.line.textOf span)

/-- Events tell the reports that were collected meanwhile. -/
def Tells (E : Env) (filename : List Int) (lineNo : Nat) (c d : NFASimCtrl)
    (events : List OutputEvent) : Prop :=
  ∃ spans, d.reports = c.reports ++ spans ∧
    (reportsOf events).map Report.shown = spans.map (shownAt E filename lineNo)

/-- Where nothing is reported and no event is a report, the events tell it. -/
theorem tells_of_same (hreports : d.reports = c.reports) (hevents : reportsOf events = []) :
    Tells E filename lineNo c d events := by
  refine ⟨[], ?_, ?_⟩
  · rw [hreports, List.append_nil]
  · rw [hevents]
    rfl

/-- Two stretches of a run tell their events one after the other. -/
theorem Tells.trans (h : Tells E filename lineNo c d xs) (h' : Tells E filename lineNo d e ys) :
    Tells E filename lineNo c e (xs ++ ys) := by
  obtain ⟨spans, hreports, hshown⟩ := h
  obtain ⟨spans', hreports', hshown'⟩ := h'
  refine ⟨spans ++ spans', ?_, ?_⟩
  · rw [hreports', hreports, List.append_assoc]
  · rw [reportsOf_append, List.map_append, List.map_append, hshown, hshown']

/-- Neither side looks at the other members. -/
theorem Tells.congr (h : Tells E filename lineNo c d events) (hc : c.reports = ctrl.reports)
    (hd : ctrl'.reports = d.reports) : Tells E filename lineNo ctrl ctrl' events := by
  obtain ⟨spans, hreports, hshown⟩ := h
  exact ⟨spans, by rw [hd, hreports, hc], hshown⟩

/-- `new_match` tells the report it makes, if any. -/
theorem tells_newMatch (E : Env) (filename : List Int) (lineNo : Nat) (c : NFASimCtrl) :
    Tells E filename lineNo c (newMatch E c) (newMatchEvents E filename lineNo c) := by
  unfold newMatch newMatchEvents
  split
  · exact ⟨[shownSpan E c], rfl, rfl⟩
  · exact tells_of_same rfl rfl

/-- Loading tells no report. -/
theorem reportsOf_loadEvents : reportsOf (loadEvents E) = [] := by
  unfold loadEvents
  split
  · rfl
  · rfl

/-- Taking a record off the search reports nothing. -/
theorem reports_kwNextMatch (c : NFASimCtrl) : c.kwNextMatch.2.reports = c.reports := by
  unfold NFASimCtrl.kwNextMatch
  dsimp only
  split
  · rfl
  · rfl

/-- Skipping records reports nothing. -/
theorem reports_kwSkipPast (stop k : Nat) (c : NFASimCtrl) :
    (c.kwSkipPast stop k).2.reports = c.reports := by
  induction k generalizing c with
  | zero => rfl
  | succ k ih =>
    have hone := reports_kwNextMatch c
    unfold NFASimCtrl.kwSkipPast
    split
    · next heq =>
      rw [heq] at hone
      split
      · rw [ih, hone]
      · exact hone
    · next heq =>
      rw [heq] at hone
      exact hone

/-- Moving the input pointer reports nothing. -/
theorem reports_updateInputPointer (currentRun : Bool) (p : Nat) (c : NFASimCtrl) :
    (updateInputPointer E currentRun p c).2.reports = c.reports := by
  unfold updateInputPointer
  split
  · split
    · rfl
    · rfl
  · dsimp only
    split
    · split
      · exact reports_kwNextMatch c
      · exact reports_kwSkipPast _ _ c
    · split
      · exact reports_kwNextMatch c
      · exact reports_kwSkipPast _ _ c

/-- An accepted thread tells the report of `-o` without `-g`, or none. -/
theorem tells_matchCase {sim : NFASim} :
    Tells E filename lineNo ctrl (matchCase E s sim ctrl).state.ctrl
      (matchCaseEvents E filename lineNo sim ctrl) := by
  unfold matchCase matchCaseEvents
  dsimp only
  cases hindividual : E.flags.individualMatches with
  | false =>
    have hnone : ¬ (false = true ∧ E.flags.mglobal = false) := fun h => Bool.false_ne_true h.1
    rw [if_neg Bool.false_ne_true, if_neg hnone]
    split
    · exact tells_of_same rfl rfl
    · exact tells_of_same rfl rfl
  | true =>
    rw [if_pos rfl]
    cases hglobal : E.flags.mglobal with
    | true =>
      have hnone : ¬ (true = true ∧ true = false) := fun h => Bool.false_ne_true h.2.symm
      rw [if_pos rfl, if_neg hnone]
      exact tells_of_same rfl rfl
    | false =>
      rw [if_neg Bool.false_ne_true, if_pos ⟨rfl, rfl⟩]
      exact (tells_newMatch E filename lineNo _).congr rfl rfl

/-- Another attempt tells the match of the one before, except in the line modes. -/
theorem tells_restart (h : restart E fuel s = some o) :
    Tells E filename lineNo s.ctrl o.state.ctrl
      ((if E.flags.lineOrInvert then [] else newMatchEvents E filename lineNo s.ctrl) ++
        loadEvents E) := by
  unfold restart at h
  dsimp only at h
  obtain ⟨c, hc⟩ : ∃ c, c = if E.flags.lineOrInvert then s.ctrl else newMatch E s.ctrl := ⟨_, rfl⟩
  have htells : Tells E filename lineNo s.ctrl c
      (if E.flags.lineOrInvert then [] else newMatchEvents E filename lineNo s.ctrl) := by
    rw [hc]
    split
    · exact tells_of_same rfl rfl
    · exact tells_newMatch E filename lineNo s.ctrl
  rw [← hc] at h
  refine htells.trans ?_
  split at h
  · cases h
  · next p hreset =>
    obtain rfl := Option.some.inj h
    unfold resetThread at hreset
    split at hreset
    · cases hreset
    · obtain ⟨c', hload, rfl⟩ := Option.map_eq_some_iff.mp hreset
      have hloaded := (loadStartStates_frame hload).reports
      refine tells_of_same ?_ reportsOf_loadEvents
      rw [testInput_state]
      exact hloaded.trans (reports_updateInputPointer s.currentRun s.inputPointer c)

/-- One round. -/
theorem tells_runStep (h : runStep E fuel s = some o) :
    Tells E filename lineNo s.ctrl o.state.ctrl (stepEvents E filename lineNo fuel s) := by
  unfold runStep at h
  unfold stepEvents
  cases hthread : s.thread with
  | some sim =>
    rw [hthread] at h
    dsimp only at h ⊢
    unfold innerRound at h
    cases hstep : threadStep E fuel sim s.ctrl with
    | none =>
      rw [hstep] at h
      cases h
    | some p =>
      have hframe := (threadStep_frame hstep).reports
      rw [hstep] at h
      dsimp only at h ⊢
      by_cases hmatch : p.1.status = 1
      · rw [if_pos hmatch] at h ⊢
        obtain rfl := Option.some.inj h
        exact tells_matchCase.congr hframe rfl
      · rw [if_neg hmatch] at h ⊢
        split at h
        · obtain rfl := Option.some.inj h
          exact tells_of_same hframe rfl
        · obtain rfl := Option.some.inj h
          exact tells_of_same hframe rfl
  | none =>
    rw [hthread] at h
    dsimp only at h ⊢
    unfold outerRound at h
    split
    · next hnext =>
      rw [if_pos hnext] at h
      obtain rfl := Option.some.inj h
      refine tells_of_same ?_ rfl
      rw [testInput_state]
      rfl
    · next hnext =>
      rw [if_neg hnext] at h
      exact tells_restart h

/-- The loops. -/
theorem tells_runLoop {k : Nat} (h : runLoop E fuel k o = some s) :
    Tells E filename lineNo o.state.ctrl s.ctrl (loopEvents E filename lineNo fuel k o) := by
  induction k generalizing o with
  | zero =>
    cases o with
    | running s' => cases h
    | released s' =>
      obtain rfl := Option.some.inj h
      exact tells_of_same rfl rfl
  | succ k ih =>
    cases o with
    | released s' =>
      obtain rfl := Option.some.inj h
      exact tells_of_same rfl rfl
    | running s' =>
      unfold runLoop at h
      unfold loopEvents
      cases hstep : runStep E fuel s' with
      | none =>
        rw [hstep] at h
        cases h
      | some o' =>
        rw [hstep] at h
        exact (tells_runStep hstep).trans (ih h)

/-- The part before the loops tells no report. -/
theorem tells_startRun (h : startRun E fuel ctrl = some o) :
    Tells E filename lineNo ctrl o.state.ctrl (startEvents E ctrl) := by
  have hevents : reportsOf (startEvents E ctrl) = [] := by
    unfold startEvents
    split
    · split
      · rfl
      · exact reportsOf_loadEvents
    · exact reportsOf_loadEvents
  refine tells_of_same ?_ hevents
  unfold startRun at h
  dsimp only at h
  split at h
  · next kw hkw =>
    split at h
    · cases h
    · next ctrl₁ hfind =>
      have hstate : o.state.ctrl.reports = ctrl₁.reports := by
        obtain rfl := Option.some.inj h
        split
        · rfl
        · rw [testInput_state]
          rfl
      rw [hstate]
      unfold findKeywordStartPos at hfind
      dsimp only at hfind
      split at hfind
      · obtain rfl := Option.some.inj hfind
        rfl
      · split at hfind
        · cases hfind
        · next heq =>
          have hnext := reports_kwNextMatch (searchLine E kw (beginRun ctrl))
          rw [heq] at hnext
          exact (loadStartStates_frame hfind).reports.trans hnext
  · split at h
    · cases h
    · next hload =>
      obtain rfl := Option.some.inj h
      rw [testInput_state]
      exact (loadStartStates_frame hload).reports

/-- The part behind the loops tells the report of the whole line, in the line modes. -/
theorem tells_finishRun :
    Tells E filename lineNo s.ctrl (finishRun E s).2 (finishEvents E filename lineNo s) := by
  have hinner : Tells E filename lineNo s.ctrl
      (if (s.matchFound = false ∧ E.flags.invertMatch) ∨ (s.matchFound ∧ E.flags.showMatchLine) then
        newMatch E ((s.ctrl.releaseAllThreads s.thread).setMatch
          ⟨(s.ctrl.releaseAllThreads s.thread).bufferStart,
            (s.ctrl.releaseAllThreads s.thread).bufferEnd - 1⟩)
      else s.ctrl.releaseAllThreads s.thread)
      (finishEvents E filename lineNo s) := by
    unfold finishEvents
    dsimp only
    split
    · exact (tells_newMatch E filename lineNo _).congr rfl rfl
    · exact tells_of_same rfl rfl
  unfold finishRun
  dsimp only
  refine hinner.congr rfl ?_
  split
  · rfl
  · rfl

/-- **A line.** The events of a line tell the spans `run_nfa` reports for it. -/
theorem lineEvents_shown (filename : List Int) (lineNo : Nat) {value : Bool} {spans : List Match}
    (h : runLine E fuel ctrl = some (value, spans, ctrl')) :
    (reportsOf (lineEvents E filename lineNo fuel ctrl)).map Report.shown =
      spans.map (shownAt E filename lineNo) := by
  unfold runLine at h
  obtain ⟨⟨v, c⟩, hrun, h⟩ := Option.bind_eq_some_iff.mp h
  obtain ⟨-, hrest⟩ := Prod.mk.inj (Option.some.inj h)
  obtain ⟨rfl, -⟩ := Prod.mk.inj hrest
  unfold runNfa at hrun
  obtain ⟨o, hstart, hrun⟩ := Option.bind_eq_some_iff.mp hrun
  obtain ⟨s, hloop, hrun⟩ := Option.bind_eq_some_iff.mp hrun
  have hc : c = (finishRun E s).2 := by rw [Option.some.inj hrun]
  have htells : Tells E filename lineNo (resetNfaSim E.line { ctrl with reports := [] }) c
      (runEvents E filename lineNo fuel (resetNfaSim E.line { ctrl with reports := [] })) := by
    unfold runEvents
    rw [hstart, hc]
    dsimp only
    rw [hloop]
    exact (tells_startRun hstart).trans ((tells_runLoop hloop).trans tells_finishRun)
  obtain ⟨spans, hreports, hshown⟩ := htells
  have hspans : c.reports = spans := hreports
  rw [hspans]
  exact hshown

end Recognizer
