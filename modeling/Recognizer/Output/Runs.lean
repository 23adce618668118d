import Recognizer.Output.Lines
import Recognizer.Output.Events

/-!
# What whole runs print

Between two reports of `run_nfa` stands a load of the start states or the beginning of a line.
Both clear `last_match_end`, so no match is joined to the one before it.
-/

namespace Recognizer

variable {size fuel : Nat} {E : Env} {flags : CtrlFlags} {filename : List Int} {lineNo : Nat}
  {b : Bool} {xs ys events : List OutputEvent} {o : Outcome} {s s' : RunState}
  {ctrl ctrl' : NFASimCtrl}

/-- Reports one by one, each behind an event that clears `last_match_end`; the first argument
says whether the last one already stands behind such an event. -/
def Spaced : Bool → List OutputEvent → Prop
  | _, [] => True
  | _, .resetNfaSim :: es => Spaced true es
  | _, .loadStartStates :: es => Spaced true es
  | b, .report _ :: es => b = true ∧ Spaced false es
  | b, .endOfFile :: es => Spaced b es

/-- Whether `last_match_end` is clear behind events. -/
def clearBehind : Bool → List OutputEvent → Bool
  | b, [] => b
  | _, .resetNfaSim :: es => clearBehind true es
  | _, .loadStartStates :: es => clearBehind true es
  | _, .report _ :: es => clearBehind false es
  | b, .endOfFile :: es => clearBehind b es

theorem spaced_append :
    Spaced b (xs ++ ys) ↔ Spaced b xs ∧ Spaced (clearBehind b xs) ys := by
  induction xs generalizing b with
  | nil => simp [Spaced, clearBehind]
  | cons e xs ih => cases e <;> simp [Spaced, clearBehind, ih, and_assoc]

theorem clearBehind_append :
    clearBehind b (xs ++ ys) = clearBehind (clearBehind b xs) ys := by
  induction xs generalizing b with
  | nil => rfl
  | cons e xs ih => cases e <;> exact ih

section Trace

/-- Events that keep reports apart, from a clear `last_match_end` on. -/
def Clears (events : List OutputEvent) : Prop := Spaced true events ∧ clearBehind true events = true

theorem clears_nil : Clears [] := ⟨trivial, rfl⟩

theorem Clears.append (hx : Clears xs) (hy : Clears ys) : Clears (xs ++ ys) := by
  refine ⟨spaced_append.mpr ⟨hx.1, ?_⟩, ?_⟩
  · rw [hx.2]
    exact hy.1
  · rw [clearBehind_append, hx.2, hy.2]

theorem Clears.spaced (hx : Clears xs) (hy : Spaced true ys) : Spaced true (xs ++ ys) := by
  refine spaced_append.mpr ⟨hx.1, ?_⟩
  rw [hx.2]
  exact hy

theorem clears_loadEvents : Clears (loadEvents E) := by
  unfold loadEvents
  split
  · exact clears_nil
  · exact ⟨trivial, rfl⟩

theorem spaced_newMatchEvents : Spaced true (newMatchEvents E filename lineNo ctrl) := by
  unfold newMatchEvents
  split
  · exact ⟨rfl, trivial⟩
  · trivial

theorem newMatchEvents_of_unset (h : ctrl.curMatch.start = 0) :
    newMatchEvents E filename lineNo ctrl = [] := by
  unfold newMatchEvents
  exact if_neg fun hreport => hreport.2.1 h

theorem clears_startEvents : Clears (startEvents E ctrl) := by
  unfold startEvents
  split
  · split
    · exact clears_nil
    · exact clears_loadEvents
  · exact clears_loadEvents

/-- Nothing is loaded and nothing has matched. -/
structure Barren (s : RunState) : Prop where
  live : s.live = []
  unset : s.ctrl.curMatch.start = 0

theorem loadStartStates_of_nil (hnil : (E.heap E.startState).reachable = []) {la : Nat}
    (h : loadStartStates E fuel la ctrl = some ctrl') : ctrl' = ctrl := by
  unfold loadStartStates at h
  rw [hnil] at h
  exact (Option.some.inj h).symm

/-- Without start states a run stays barren. -/
theorem Barren.restart (h : Barren s) (hnil : (E.heap E.startState).reachable = [])
    (hstep : Recognizer.restart E fuel s = some o) : Barren o.state := by
  obtain ⟨pos, c, ctrl', hsame, -, hload, rfl⟩ := restart_cases hstep
  obtain rfl := loadStartStates_of_nil hnil hload
  have hlive := List.append_eq_nil_iff.mp h.live
  have hactive := (List.append_eq_nil_iff.mp hlive.1).2
  have ha : c.activeThreads = [] := by rw [hsame.activeThreads, hactive]
  have hn : c.nextThreads = [] := by rw [hsame.nextThreads, hlive.2]
  rw [testInput_state]
  refine ⟨?_, rfl⟩
  apply List.eq_nil_iff_forall_not_mem.mpr
  intro sim hsim
  rw [mem_live_hold_shiftActive] at hsim
  simp [beginAttempt, ha, hn] at hsim

/-- The `MATCH` case reports only where it leaves the loops. -/
theorem matchCaseEvents_cases (s : RunState) (sim : NFASim) :
    matchCaseEvents E filename lineNo sim ctrl = [] ∨
      ∃ s', matchCase E s sim ctrl = .released s' := by
  unfold matchCaseEvents
  split
  · next hflags =>
    right
    unfold matchCase
    dsimp only
    rw [if_pos hflags.1, if_neg (by simp [hflags.2])]
    exact ⟨_, rfl⟩
  · exact .inl rfl

theorem spaced_matchCaseEvents {sim : NFASim} :
    Spaced true (matchCaseEvents E filename lineNo sim ctrl) := by
  unfold matchCaseEvents
  split
  · exact spaced_newMatchEvents
  · trivial

/-- A round of the inner loop that goes on reports nothing. -/
theorem stepEvents_of_running {sim : NFASim} (hthread : s.thread = some sim)
    (hstep : runStep E fuel s = some (.running s')) :
    stepEvents E filename lineNo fuel s = [] := by
  unfold runStep at hstep
  unfold stepEvents
  rw [hthread] at hstep ⊢
  dsimp only at hstep ⊢
  unfold innerRound at hstep
  cases hthreadStep : threadStep E fuel sim s.ctrl with
  | none => rfl
  | some p =>
    rw [hthreadStep] at hstep
    dsimp only at hstep ⊢
    by_cases hmatch : p.1.status = 1
    · rw [if_pos hmatch] at hstep ⊢
      rcases matchCaseEvents_cases s p.1 with hnone | ⟨s'', hreleased⟩
      · exact hnone
      · rw [hreleased] at hstep
        cases hstep
    · exact if_neg hmatch

/-- The events of a round with a thread. -/
theorem stepEvents_of_some {sim : NFASim} (hthread : s.thread = some sim) :
    stepEvents E filename lineNo fuel s = [] ∨
      ∃ sim' c, stepEvents E filename lineNo fuel s = matchCaseEvents E filename lineNo sim' c := by
  unfold stepEvents
  rw [hthread]
  dsimp only
  cases threadStep E fuel sim s.ctrl with
  | none => exact .inl rfl
  | some p =>
    dsimp only
    split
    · exact .inr ⟨_, _, rfl⟩
    · exact .inl rfl

/-- The events of a round without a thread. -/
theorem stepEvents_of_none (hthread : s.thread = none) :
    stepEvents E filename lineNo fuel s =
      if s.ctrl.nextThreads ≠ [] then []
      else
        (if E.flags.lineOrInvert then [] else newMatchEvents E filename lineNo s.ctrl) ++
          loadEvents E := by
  unfold stepEvents
  rw [hthread]

/-- A load behind a report keeps it apart from the next one. -/
theorem spaced_then_load (h : Spaced true xs) : Spaced true (xs ++ loadEvents E) := by
  refine spaced_append.mpr ⟨h, ?_⟩
  unfold loadEvents
  split
  · trivial
  · trivial

theorem spaced_stepEvents : Spaced true (stepEvents E filename lineNo fuel s) := by
  cases hthread : s.thread with
  | some sim =>
    rcases stepEvents_of_some hthread with hnone | ⟨sim', c, hcase⟩
    · rw [hnone]
      trivial
    · rw [hcase]
      exact spaced_matchCaseEvents
  | none =>
    rw [stepEvents_of_none hthread]
    split
    · trivial
    · apply spaced_then_load
      split
      · trivial
      · exact spaced_newMatchEvents

/-- Where a run stands: without start states it is barren. -/
def Fed (E : Env) (s : RunState) : Prop := (E.heap E.startState).reachable = [] → Barren s

/-- A round that goes on leaves `last_match_end` clear. -/
theorem Fed.clears (h : Fed E s) (hstep : runStep E fuel s = some (.running s')) :
    Clears (stepEvents E filename lineNo fuel s) := by
  cases hthread : s.thread with
  | some sim =>
    rw [stepEvents_of_running hthread hstep]
    exact clears_nil
  | none =>
    refine ⟨spaced_stepEvents, ?_⟩
    rw [stepEvents_of_none hthread]
    split
    · rfl
    · by_cases hnil : (E.heap E.startState).reachable = []
      · rw [newMatchEvents_of_unset (h hnil).unset, ite_self]
        exact clears_loadEvents.2
      · -- the load behind the report clears again
        have hload : loadEvents E = [.loadStartStates] := if_neg hnil
        rw [hload, clearBehind_append]
        rfl

theorem Fed.runStep (h : Fed E s) (hstep : Recognizer.runStep E fuel s = some o) :
    Fed E o.state := by
  intro hnil
  have hbarren := h hnil
  have hlive := List.append_eq_nil_iff.mp hbarren.live
  have hthread : s.thread = none := by
    have hsome := (List.append_eq_nil_iff.mp hlive.1).1
    cases hs : s.thread with
    | none => rfl
    | some sim =>
      rw [hs] at hsome
      cases hsome
  unfold Recognizer.runStep at hstep
  rw [hthread] at hstep
  dsimp only at hstep
  unfold outerRound at hstep
  rw [if_neg (not_not.mpr hlive.2)] at hstep
  exact hbarren.restart hnil hstep

theorem loopEvents_released {k : Nat} :
    loopEvents E filename lineNo fuel k (.released s) = [] := by
  cases k with
  | zero => rfl
  | succ k => rfl

/-- The loops of a run. -/
theorem Fed.loopEvents {k : Nat} (h : Fed E o.state) :
    Spaced true (Recognizer.loopEvents E filename lineNo fuel k o) := by
  induction k generalizing o with
  | zero =>
    cases o with
    | running s => trivial
    | released s => trivial
  | succ k ih =>
    cases o with
    | released s => trivial
    | running s =>
      have hs : Fed E s := h
      unfold Recognizer.loopEvents
      cases hstep : Recognizer.runStep E fuel s with
      | none =>
        rw [List.append_nil]
        exact spaced_stepEvents
      | some o' =>
        cases o' with
        | running s' => exact (hs.clears hstep).spaced (ih (hs.runStep hstep))
        | released s' =>
          dsimp only
          rw [loopEvents_released, List.append_nil]
          exact spaced_stepEvents

/-- A run that prints whole lines reports nothing in its loops. -/
theorem clears_stepEvents (hflags : E.flags.lineOrInvert = true) :
    Clears (stepEvents E filename lineNo fuel s) := by
  have hindividual : ¬ (E.flags.individualMatches = true ∧ E.flags.mglobal = false) := by
    simp only [CtrlFlags.lineOrInvert, CtrlFlags.individualMatches, Bool.or_eq_true] at hflags ⊢
    rcases hflags with hline | hinvert
    · simp [hline]
    · simp [hinvert]
  cases hthread : s.thread with
  | some sim =>
    rcases stepEvents_of_some hthread with hnone | ⟨sim', c, hcase⟩
    · rw [hnone]
      exact clears_nil
    · rw [hcase, matchCaseEvents, if_neg hindividual]
      exact clears_nil
  | none =>
    rw [stepEvents_of_none hthread]
    split
    · exact clears_nil
    · exact clears_nil.append clears_loadEvents

theorem clears_loopEvents (hflags : E.flags.lineOrInvert = true) {k : Nat} :
    Clears (loopEvents E filename lineNo fuel k o) := by
  induction k generalizing o with
  | zero =>
    cases o with
    | running s => exact clears_nil
    | released s => exact clears_nil
  | succ k ih =>
    cases o with
    | released s => exact clears_nil
    | running s =>
      unfold loopEvents
      apply (clears_stepEvents hflags).append
      cases runStep E fuel s with
      | none => exact clears_nil
      | some o' => exact ih

theorem spaced_finishEvents : Spaced true (finishEvents E filename lineNo s) := by
  unfold finishEvents
  dsimp only
  split
  · exact spaced_newMatchEvents
  · trivial

/-- Only a run that prints whole lines reports behind its loops. -/
theorem finishEvents_eq_nil (hflags : E.flags.lineOrInvert = false) :
    finishEvents E filename lineNo s = [] := by
  have hboth := Bool.or_eq_false_iff.mp hflags
  unfold finishEvents
  dsimp only
  rw [if_neg]
  simp [hboth.1, hboth.2]

/-- The start of a run on a simulator without threads. -/
theorem fed_startRun (hactive : ctrl.activeThreads = []) (hnext : ctrl.nextThreads = [])
    (hunset : ctrl.curMatch.start = 0) (hstart : startRun E fuel ctrl = some o) :
    Fed E o.state := by
  intro hnil
  obtain ⟨c, ctrl', hsame, hmatch, -, -, hload, hout⟩ := startRun_cases hstart
  have heq : ctrl' = c := by
    rcases hload with hload | ⟨heq, -⟩
    · exact loadStartStates_of_nil hnil hload
    · exact heq
  have hstate : o.state = enterLoops c.curPos ctrl'.shiftActive := by
    rcases hout with rfl | ⟨-, rfl⟩
    · exact testInput_state _
    · rfl
  rw [hstate, heq]
  refine ⟨?_, ?_⟩
  · apply List.eq_nil_iff_forall_not_mem.mpr
    intro sim hsim
    rw [mem_live_enterLoops, hsame.activeThreads, hsame.nextThreads, hactive, hnext] at hsim
    cases hsim
  · change c.curMatch.start = 0
    rw [hmatch, hunset]

/-- The events of `run_nfa`. -/
theorem spaced_runEvents (hactive : ctrl.activeThreads = []) (hnext : ctrl.nextThreads = [])
    (hunset : ctrl.curMatch.start = 0) : Spaced true (runEvents E filename lineNo fuel ctrl) := by
  unfold runEvents
  apply clears_startEvents.spaced
  cases hstart : startRun E fuel ctrl with
  | none => trivial
  | some o =>
    dsimp only
    cases hflags : E.flags.lineOrInvert with
    | true =>
      apply (clears_loopEvents hflags).spaced
      cases runLoop E fuel fuel o with
      | none => trivial
      | some s => exact spaced_finishEvents
    | false =>
      have hloops := fed_startRun hactive hnext hunset hstart
      cases runLoop E fuel fuel o with
      | none =>
        rw [List.append_nil]
        exact hloops.loopEvents
      | some s =>
        dsimp only
        rw [finishEvents_eq_nil hflags, List.append_nil]
        exact hloops.loopEvents

/-- The events of a line start anew. -/
theorem spaced_lineEvents (hactive : ctrl.activeThreads = []) (hnext : ctrl.nextThreads = []) :
    Spaced b (lineEvents E filename lineNo fuel ctrl) :=
  show Spaced true (runEvents E filename lineNo fuel
    (resetNfaSim E.line { ctrl with reports := [] })) from spaced_runEvents hactive hnext rfl

theorem runLine_lists {p : Bool × List Match × NFASimCtrl} (h : runLine E fuel ctrl = some p) :
    p.2.2.activeThreads = [] ∧ p.2.2.nextThreads = [] := by
  unfold runLine at h
  obtain ⟨⟨value, c⟩, hrun, h⟩ := Option.bind_eq_some_iff.mp h
  obtain rfl := Option.some.inj h
  unfold runNfa at hrun
  obtain ⟨o, -, hrun⟩ := Option.bind_eq_some_iff.mp hrun
  obtain ⟨s, -, hrun⟩ := Option.bind_eq_some_iff.mp hrun
  have hfinish := finishRun_lists (E := E) s
  rw [Option.some.inj hrun] at hfinish
  exact hfinish

/-- The lines of a file. -/
theorem processLines_spaced {n : Nat} {lines : List Line}
    (hactive : ctrl.activeThreads = []) (hnext : ctrl.nextThreads = [])
    (h : processLines E filename fuel n lines ctrl = some (events, ctrl')) :
    Spaced b events ∧ ctrl'.activeThreads = [] ∧ ctrl'.nextThreads = [] := by
  induction lines generalizing n ctrl b events with
  | nil =>
    obtain ⟨rfl, rfl⟩ := Prod.mk.inj (Option.some.inj h)
    exact ⟨trivial, hactive, hnext⟩
  | cons line rest ih =>
    unfold processLines at h
    obtain ⟨⟨value, spans, c⟩, hline, h⟩ := Option.bind_eq_some_iff.mp h
    dsimp only at h
    obtain ⟨hc, hc'⟩ := runLine_lists hline
    have hspaced : Spaced b (lineEvents (E.onLine line) filename n fuel ctrl) :=
      spaced_lineEvents hactive hnext
    split at h
    · obtain ⟨rfl, rfl⟩ := Prod.mk.inj (Option.some.inj h)
      exact ⟨hspaced, hc, hc'⟩
    · obtain ⟨⟨more, c'⟩, hmore, h⟩ := Option.bind_eq_some_iff.mp h
      obtain ⟨rfl, rfl⟩ := Prod.mk.inj (Option.some.inj h)
      obtain ⟨hspaced', hlists⟩ := ih hc hc' hmore
      exact ⟨spaced_append.mpr ⟨hspaced, hspaced'⟩, hlists⟩

/-- The files of a run. -/
theorem processFiles_spaced {files : List TextFile}
    (hactive : ctrl.activeThreads = []) (hnext : ctrl.nextThreads = [])
    (h : processFiles E fuel files ctrl = some (events, ctrl')) :
    Spaced b events ∧ (events = [] ∨ ∃ es, events = es ++ [.endOfFile]) := by
  induction files generalizing ctrl b events with
  | nil =>
    obtain ⟨rfl, -⟩ := Prod.mk.inj (Option.some.inj h)
    exact ⟨trivial, .inl rfl⟩
  | cons file rest ih =>
    unfold processFiles at h
    obtain ⟨⟨xs, c⟩, hlines, h⟩ := Option.bind_eq_some_iff.mp h
    obtain ⟨⟨more, c'⟩, hmore, h⟩ := Option.bind_eq_some_iff.mp h
    obtain ⟨rfl, rfl⟩ := Prod.mk.inj (Option.some.inj h)
    obtain ⟨hspaced, hc, hc'⟩ := processLines_spaced (b := b) hactive hnext hlines
    obtain ⟨hspaced', hend⟩ := ih (b := clearBehind b xs) hc hc' hmore
    refine ⟨spaced_append.mpr ⟨hspaced, hspaced'⟩, .inr ?_⟩
    rcases hend with rfl | ⟨es, rfl⟩
    · exact ⟨xs, rfl⟩
    · exact ⟨xs ++ .endOfFile :: es, by simp⟩

end Trace

namespace Output

/-- What the output is behind events. -/
def handleAll (size : Nat) (flags : CtrlFlags) (events : List OutputEvent) (o : Output) : Output :=
  events.foldl (handle size flags) o

/-- The lines of the reports among events, one after the other. -/
def linesOf (flags : CtrlFlags) (events : List OutputEvent) : List Int :=
  (reportsOf events).flatMap (printedLine flags)

variable {o : Output} {out cs : List Int}

/-- Clearing `last_match_end` leaves the buffer as it is. -/
theorem Holds.clear (h : Holds size o out cs) : Holds size { o with lastMatchEnd := 0 } out cs where
  stdout := h.stdout
  idx := h.idx
  stored := h.stored
  clean := h.clean
  room := h.room
  terminated := h.terminated

/-- The end of a file. -/
theorem Holds.endOfFile (h : Holds size o out cs) (flags : CtrlFlags) :
    Holds size (o.handle size flags .endOfFile) (out ++ cs) [] ∧
      (InBounds size (o.handle size flags .endOfFile) ↔ InBounds size o) ∧
      (o.lastMatchEnd = 0 → (o.handle size flags .endOfFile).lastMatchEnd = 0) := by
  rw [handle]
  by_cases hidx : o.matchIdx = 0
  · obtain rfl := h.matchIdx_eq_zero_iff.mp hidx
    rw [if_neg (not_not.mpr hidx), List.append_nil]
    exact ⟨h, Iff.rfl, id⟩
  · rw [if_pos hidx]
    exact ⟨h.flushed (mt h.matchIdx_eq_zero_iff.mpr hidx), inBounds_flush, fun _ => rfl⟩

theorem matchIdx_endOfFile (size : Nat) (flags : CtrlFlags) (o : Output) :
    (o.handle size flags .endOfFile).matchIdx = 0 := by
  rw [handle]
  by_cases hidx : o.matchIdx = 0
  · rw [if_neg (not_not.mpr hidx), hidx]
  · rw [if_pos hidx]
    rfl

/-- **Events.** Reports that are kept apart are printed one behind the other. -/
theorem Holds.handleAll (h : Holds size o out cs) (flags : CtrlFlags) (hsize : 3 ≤ size)
    (hclear : b = true → o.lastMatchEnd = 0) (hspaced : Spaced b events)
    (hproper : ∀ r ∈ reportsOf events, Proper r) :
    ∃ out' cs', Holds size (Output.handleAll size flags events o) out' cs' ∧
      out' ++ cs' = out ++ cs ++ linesOf flags events ∧
      (InBounds size (Output.handleAll size flags events o) ↔
        InBounds size o ∧ ∀ r ∈ reportsOf events, ¬ size - 1 ∣ r.text.length) := by
  induction events generalizing o out cs b with
  | nil => exact ⟨out, cs, h, by simp [linesOf, reportsOf], by simp [Output.handleAll, reportsOf]⟩
  | cons e events ih =>
    cases e with
    | resetNfaSim => exact ih h.clear (fun _ => rfl) hspaced hproper
    | loadStartStates => exact ih h.clear (fun _ => rfl) hspaced hproper
    | endOfFile =>
      obtain ⟨hend, hbounds, hkeeps⟩ := h.endOfFile flags
      obtain ⟨out', cs', hholds, hout, hbounds'⟩ :=
        ih hend (fun hb => hkeeps (hclear hb)) hspaced hproper
      rw [List.append_nil] at hout
      rw [hbounds] at hbounds'
      exact ⟨out', cs', hholds, hout, hbounds'⟩
    | report r =>
      obtain ⟨out₁, cs₁, h₁, hout₁, hbounds₁⟩ :=
        h.newMatch flags hsize (hproper r List.mem_cons_self) (hclear hspaced.1)
      obtain ⟨out', cs', hholds, hout, hbounds'⟩ :=
        ih (b := false) h₁ (fun hb => absurd hb Bool.false_ne_true) hspaced.2
          fun r' hr' => hproper r' (List.mem_cons_of_mem r hr')
      refine ⟨out', cs', hholds, ?_, ?_⟩
      · rw [hout, hout₁, List.append_assoc]
        rfl
      · rw [hbounds₁] at hbounds'
        refine hbounds'.trans ?_
        rw [and_assoc]
        refine and_congr_right fun _ => ?_
        exact (List.forall_mem_cons (p := fun r : Report => ¬ size - 1 ∣ r.text.length)).symm

/-- An output before the first line. -/
theorem holds_init (hsize : 3 ≤ size) : Holds size {} [] [] where
  stdout := rfl
  idx := rfl
  stored := trivial
  clean := List.not_mem_nil
  room := by
    rw [List.length_nil]
    omega
  terminated hne := absurd rfl hne

end Output

/-- The reports of a file name it. -/
theorem filename_of_processLines {n : Nat} {lines : List Line} {r : Report}
    (h : processLines E filename fuel n lines ctrl = some (events, ctrl'))
    (hr : r ∈ reportsOf events) : r.filename = filename := by
  have hline : ∀ {F : Env} {n : Nat} {c : NFASimCtrl} {p : Bool × List Match × NFASimCtrl},
      runLine F fuel c = some p → ∀ r ∈ reportsOf (lineEvents F filename n fuel c),
        r.filename = filename := by
    intro F n c p hrun r hr
    have hshown := lineEvents_shown filename n hrun
    have hin : r.shown ∈ p.2.1.map (shownAt F filename n) := by
      rw [← hshown]
      exact List.mem_map_of_mem hr
    obtain ⟨span, -, heq⟩ := List.mem_map.mp hin
    exact (congrArg Prod.fst heq).symm
  induction lines generalizing n ctrl ctrl' events with
  | nil =>
    obtain ⟨rfl, -⟩ := Prod.mk.inj (Option.some.inj h)
    cases hr
  | cons line rest ih =>
    unfold processLines at h
    obtain ⟨⟨value, spans, c⟩, hrun, h⟩ := Option.bind_eq_some_iff.mp h
    dsimp only at h
    split at h
    · obtain ⟨rfl, -⟩ := Prod.mk.inj (Option.some.inj h)
      exact hline hrun r hr
    · obtain ⟨⟨more, c'⟩, hmore, h⟩ := Option.bind_eq_some_iff.mp h
      obtain ⟨rfl, -⟩ := Prod.mk.inj (Option.some.inj h)
      rw [reportsOf_append] at hr
      rcases List.mem_append.mp hr with hr | hr
      · exact hline hrun r hr
      · exact ih hmore hr

theorem filename_of_processFiles {files : List TextFile} {r : Report}
    (h : processFiles E fuel files ctrl = some (events, ctrl')) (hr : r ∈ reportsOf events) :
    ∃ file ∈ files, r.filename = file.name := by
  induction files generalizing ctrl ctrl' events with
  | nil =>
    obtain ⟨rfl, -⟩ := Prod.mk.inj (Option.some.inj h)
    cases hr
  | cons file rest ih =>
    unfold processFiles at h
    obtain ⟨⟨xs, c⟩, hlines, h⟩ := Option.bind_eq_some_iff.mp h
    obtain ⟨⟨more, c'⟩, hmore, h⟩ := Option.bind_eq_some_iff.mp h
    obtain ⟨rfl, -⟩ := Prod.mk.inj (Option.some.inj h)
    rw [reportsOf_append] at hr
    rcases List.mem_append.mp hr with hr | hr
    · exact ⟨file, List.mem_cons_self, filename_of_processLines hlines hr⟩
    · have hr' : r ∈ reportsOf more := hr
      obtain ⟨file', hfile', hname⟩ := ih hmore hr'
      exact ⟨file', List.mem_cons_of_mem file hfile', hname⟩

/-- The output of a run: every store was to a cell of the array, and the lines of the matches were
printed one after the other. -/
structure PrintedFaithfully (size : Nat) (flags : CtrlFlags) (events : List OutputEvent) :
    Prop where
  inBounds : ∀ i ∈ (Output.handleAll size flags events {}).stores, 0 ≤ i ∧ i < size
  printed : (Output.handleAll size flags events {}).stdout = Output.linesOf flags events

/-- Events that end with the end of a file, with the reports kept apart. -/
theorem printedFaithfully_iff (hsize : 3 ≤ size) (hspaced : Spaced true events)
    (hend : events = [] ∨ ∃ es, events = es ++ [.endOfFile])
    (hproper : ∀ r ∈ reportsOf events, Output.Proper r) :
    PrintedFaithfully size flags events ↔
      ∀ r ∈ reportsOf events, ¬ size - 1 ∣ r.text.length := by
  obtain ⟨out, cs, hholds, hout, hbounds⟩ := (Output.holds_init hsize).handleAll flags
    hsize (fun _ => rfl) hspaced hproper
  have hstart : Output.InBounds size {} := fun i hi => nomatch hi
  have hempty : cs = [] := by
    rcases hend with rfl | ⟨es, rfl⟩
    · exact hholds.matchIdx_eq_zero_iff.mp rfl
    · apply hholds.matchIdx_eq_zero_iff.mp
      rw [Output.handleAll, List.foldl_append]
      exact Output.matchIdx_endOfFile size flags _
  constructor
  · exact fun h => (hbounds.mp h.inBounds).2
  · intro h
    refine ⟨hbounds.mpr ⟨hstart, h⟩, ?_⟩
    rw [hempty, List.append_nil] at hout
    rw [hholds.stdout, hout]
    rfl

/-- **The printed lines.** Over any files the matches are printed in order and within the array
exactly if no text is made of whole pieces of the length of the array without its last cell. -/
theorem runs_print_faithfully_iff (hsize : 3 ≤ size) {files : List TextFile}
    (hrun : processFiles E fuel files (newNfaSim E) = some (events, ctrl'))
    (htexts : ∀ r ∈ reportsOf events, r.text ≠ [] ∧ 0 ∉ r.text) :
    PrintedFaithfully size E.flags events ↔
      ∀ r ∈ reportsOf events, ¬ size - 1 ∣ r.text.length := by
  obtain ⟨hspaced, hend⟩ := processFiles_spaced (b := true) rfl rfl hrun
  refine printedFaithfully_iff hsize hspaced hend fun r hr => ?_
  obtain ⟨file, -, hname⟩ := filename_of_processFiles hrun hr
  obtain ⟨htext, hclean⟩ := htexts r hr
  exact ⟨hname ▸ file.name_ne_nil, hname ▸ file.zero_notMem_name, htext, hclean⟩

private theorem zero_ne_letter : (0 : Int) ≠ 102 := by decide

/-- A file of one line. -/
def oneLine (text : List Int) : TextFile where
  name := [102]
  name_ne_nil := List.cons_ne_nil 102 []
  zero_notMem_name := mt List.mem_singleton.mp zero_ne_letter
  lines := [{ buffer := 2, one_lt_buffer := Nat.one_lt_two, text := text }]

/-- A match longer than the smallest buffer, behind the file's name and the line's number. -/
theorem runs_print_faithfully_iff_letters : ∃ E events ctrl,
    compilePattern 40 (bytes "abcde")
        { showMatchLine := false, showFileName := true, showLineno := true } (fun _ => 0)
        { buffer := 2, one_lt_buffer := Nat.one_lt_two, text := bytes "abcde" } = some E ∧
      processFiles E 40 [oneLine (bytes "abcde")] (newNfaSim E) = some (events, ctrl) ∧
      reportsOf events = [⟨[102], 1, 2, 6, bytes "abcde"⟩] ∧
      (PrintedFaithfully 3 E.flags events ↔
        ∀ r ∈ reportsOf events, ¬ 3 - 1 ∣ r.text.length) := by
  have h : ((compilePattern 40 (bytes "abcde")
      { showMatchLine := false, showFileName := true, showLineno := true } (fun _ => 0)
      { buffer := 2, one_lt_buffer := Nat.one_lt_two, text := bytes "abcde" }).bind fun E =>
        (processFiles E 40 [oneLine (bytes "abcde")] (newNfaSim E)).map
          fun p => decide (reportsOf p.1 = [⟨[102], 1, 2, 6, bytes "abcde"⟩])) = some true := by
    decide +kernel
  obtain ⟨E, hcompile, hrun⟩ := Option.bind_eq_some_iff.mp h
  obtain ⟨⟨events, ctrl⟩, hrun, hreports⟩ := Option.map_eq_some_iff.mp hrun
  have heq : reportsOf events = [⟨[102], 1, 2, 6, bytes "abcde"⟩] := of_decide_eq_true hreports
  refine ⟨E, events, ctrl, hcompile, hrun, heq, runs_print_faithfully_iff (by decide) hrun ?_⟩
  rw [heq]
  simp only [List.mem_singleton, forall_eq]
  decide

/-- Two letters fill the smallest buffer, and the terminator is stored behind it. -/
theorem terminator_behind_array : ∃ E events ctrl,
    compilePattern 40 (bytes "ab") { showMatchLine := false, mglobal := true } (fun _ => 0)
        { buffer := 2, one_lt_buffer := Nat.one_lt_two, text := bytes "ab" } = some E ∧
      processFiles E 40 [oneLine (bytes "ab")] (newNfaSim E) =
        some (events, ctrl) ∧
      (∀ r ∈ reportsOf events, r.text ≠ [] ∧ 0 ∉ r.text) ∧
      ¬ PrintedFaithfully 3 E.flags events := by
  have h : ((compilePattern 40 (bytes "ab") { showMatchLine := false, mglobal := true }
      (fun _ => 0) { buffer := 2, one_lt_buffer := Nat.one_lt_two, text := bytes "ab" }).bind fun E =>
        (processFiles E 40 [oneLine (bytes "ab")] (newNfaSim E)).map
          fun p => decide (reportsOf p.1 = [⟨[102], 1, 2, 3, bytes "ab"⟩]) &&
            decide (3 ∈ (Output.handleAll 3 E.flags p.1 {}).stores)) = some true := by
    decide +kernel
  obtain ⟨E, hcompile, hrun⟩ := Option.bind_eq_some_iff.mp h
  obtain ⟨⟨events, ctrl⟩, hrun, hboth⟩ := Option.map_eq_some_iff.mp hrun
  obtain ⟨hreports, hstore⟩ := Bool.and_eq_true_iff.mp hboth
  have heq : reportsOf events = [⟨[102], 1, 2, 3, bytes "ab"⟩] := of_decide_eq_true hreports
  refine ⟨E, events, ctrl, hcompile, hrun, ?_, fun hprinted => ?_⟩
  · rw [heq]
    simp only [List.mem_singleton, forall_eq]
    decide
  · have hbound := (hprinted.inBounds 3 (of_decide_eq_true hstore)).2
    omega

end Recognizer
