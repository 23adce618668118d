import Recognizer.Source.Compile
import Recognizer.Source.Simulator

/-!
# The main loop, `run_nfa`, and lines run one after another

The two nested loops of `run_nfa` form one step relation: while a thread is held
a step is one round of the inner loop, and otherwise it is the rest of the outer
round with the test of `*input_pointer` that follows. Leaving the loops, by that
test or by a `goto`, is the outcome `released`.
-/

namespace Recognizer

/-- The local variables of `run_nfa` with the control block. -/
structure RunState where
  ctrl : NFASimCtrl
  thread : Option NFASim := none
  inputPointer : Nat
  currentRun : Bool := false
  matchFound : Bool := false

/-- What one round leads to: another round, or the label `RELEASE_ALL_THREADS`. -/
inductive Outcome where
  | running (s : RunState)
  | released (s : RunState)

/-- The state an outcome holds. -/
def Outcome.state : Outcome → RunState
  | running s => s
  | released s => s

namespace NFASimCtrl

/-- `swap_next_w_active`. -/
def swapNextWActive (ctrl : NFASimCtrl) : NFASimCtrl :=
  { ctrl with activeThreads := ctrl.nextThreads, nextThreads := [] }

/-- `release_all_threads`. -/
def releaseAllThreads (ctrl : NFASimCtrl) (thread : Option NFASim) : NFASimCtrl :=
  { ctrl with
    threadPool := ctrl.threadPool ++ ctrl.activeThreads ++ ctrl.nextThreads ++ thread.toList
    activeThreads := [], nextThreads := [] }

/-- `kw_next_match`: after the last record it answers `NULL` once and starts again. -/
def kwNextMatch (ctrl : NFASimCtrl) : Option MatchRecord × NFASimCtrl :=
  let i := match ctrl.kwCursor with
    | none => 0
    | some i => i + 1
  match ctrl.kwRecords[i]? with
  | none => (none, { ctrl with kwCursor := none })
  | some mr => (some mr, { ctrl with kwCursor := some i })

/-- The loop of `update_input_pointer` over the records that begin inside the match. -/
def kwSkipPast (stop : Nat) : Nat → NFASimCtrl → Option MatchRecord × NFASimCtrl
  | 0, ctrl => (none, ctrl)
  | fuel + 1, ctrl =>
    match ctrl.kwNextMatch with
    | (some mr, ctrl) => if mr.beg ≤ stop then kwSkipPast stop fuel ctrl else (some mr, ctrl)
    | (none, ctrl) => (none, ctrl)

/-- `kw_clear_matches`. -/
def kwClearMatches (ctrl : NFASimCtrl) : NFASimCtrl :=
  { ctrl with kwRecords := [], kwCursor := none }

end NFASimCtrl

/-- `update_longest_match`. -/
def updateLongestMatch (m nm : Match) : Match :=
  if m.stop = 0 ∨ (m.stop : Int) - m.start < (nm.stop : Int) - nm.start then nm
  else if (nm.start : Int) - m.stop > -1 ∧ (nm.start : Int) - m.stop ≤ 1 then
    { m with stop := nm.stop }
  else m

/-- `new_match`: the span handed to `fill_output_buffer`. -/
def newMatch (E : Env) (ctrl : NFASimCtrl) : NFASimCtrl :=
  if E.flags.silentMatch = false ∧ ctrl.curMatch.start ≠ 0 ∧
      ctrl.curMatch.start ≤ ctrl.curMatch.stop then
    let span : Match :=
      if E.flags.showMatchLine then ⟨ctrl.bufferStart, ctrl.bufferEnd - 1⟩ else ctrl.curMatch
    { ctrl with reports := ctrl.reports ++ [span] }
  else ctrl

/-- The assignment `ctrl->cur_pos = pos`. -/
def seek (ctrl : NFASimCtrl) (pos : Nat) : NFASimCtrl := { ctrl with curPos := pos }

/-- The keyword search on the line's buffer, with the position moved behind the line. -/
def searchLine (E : Env) (kw : KwSearch) (ctrl : NFASimCtrl) : NFASimCtrl :=
  { ctrl with
    kwRecords := (kw.search (E.line.text ++ [eolSymbol])).map fun r =>
      ⟨ctrl.bufferStart + r.beg, ctrl.bufferStart + r.stop⟩
    curPos := ctrl.bufferEnd + 1 }

/-- `find_keyword_start_pos`; the match count is the number of records. -/
def findKeywordStartPos (E : Env) (kw : KwSearch) (fuel : Nat) (ctrl : NFASimCtrl) :
    Option NFASimCtrl :=
  let ctrl := searchLine E kw ctrl
  if ctrl.kwRecords = [] then some ctrl
  else
    match ctrl.kwNextMatch with
    | (none, _) => none
    | (some mr, ctrl) => loadStartStates E fuel mr.beg (seek ctrl mr.beg)

/-- `update_input_pointer`. -/
def updateInputPointer (E : Env) (currentRun : Bool) (inputPointer : Nat) (ctrl : NFASimCtrl) :
    Nat × NFASimCtrl :=
  if E.kw.isNone then
    if currentRun = false ∨ ctrl.curMatch.stop = 0 then (inputPointer + 1, ctrl)
    else (ctrl.curMatch.stop + 1, ctrl)
  else
    let (mr, ctrl) :=
      if currentRun = false ∨ ctrl.curMatch.stop = 0 then ctrl.kwNextMatch
      else ctrl.kwSkipPast ctrl.curMatch.stop (ctrl.kwRecords.length + 1)
    match mr with
    | some mr => (mr.beg, ctrl)
    | none => (nulString, ctrl)

/-- `reset_thread`. -/
def resetThread (E : Env) (fuel : Nat) (startPos : Nat) (ctrl : NFASimCtrl) :
    Option (Option NFASim × NFASimCtrl) :=
  if ctrl.threadPool = [] then none
  else (loadStartStates E fuel startPos ctrl).map NFASimCtrl.shiftActive

/-- `release_thread`. -/
def releaseThread (ctrl : NFASimCtrl) (sim : NFASim) : Option NFASim × NFASimCtrl :=
  (ctrl.release sim).shiftActive

/-- Go on with the thread taken from a list. -/
def RunState.hold (s : RunState) (p : Option NFASim × NFASimCtrl) : RunState :=
  { s with thread := p.1, ctrl := p.2 }

/-- The assignment `current_run = match_found = 1`. -/
def RunState.markFound (s : RunState) : RunState :=
  { s with currentRun := true, matchFound := true }

/-- The variables for an attempt at another position. -/
def RunState.moveTo (s : RunState) (pos : Nat) : RunState :=
  { s with inputPointer := pos, currentRun := false }

/-- The `MATCH` case of the inner loop of `run_nfa`, which falls through to the
release of the thread unless it leaves the loops. -/
def matchCase (E : Env) (s : RunState) (sim : NFASim) (ctrl : NFASimCtrl) : Outcome :=
  let s := s.markFound
  if E.flags.individualMatches then
    let ctrl := ctrl.setMatch (updateLongestMatch ctrl.curMatch sim.curMatch)
    if E.flags.mglobal then .running (s.hold (releaseThread ctrl sim))
    else .released (s.hold (some sim, newMatch E ctrl))
  else if E.flags.bailEarly then .running (s.hold (releaseThread ctrl sim))
  else .released (s.hold (some sim, ctrl))

/-- One round of the inner loop of `run_nfa` on the thread it holds. -/
def innerRound (E : Env) (fuel : Nat) (s : RunState) (sim : NFASim) : Option Outcome :=
  match threadStep E fuel sim s.ctrl with
  | none => none
  | some (sim, ctrl) =>
    if sim.status = 1 then some (matchCase E s sim ctrl)
    else if sim.status = -1 then some (.running (s.hold (releaseThread ctrl sim)))
    else some (.running (s.hold ctrl.shiftActive))

/-- The test of the outer loop. -/
def testInput (E : Env) (s : RunState) : Outcome :=
  if E.line.deref s.inputPointer ≠ 0 then .running s else .released s

/-- The assignments before an attempt at another position. -/
def beginAttempt (ctrl : NFASimCtrl) (pos : Nat) : NFASimCtrl :=
  { ctrl with lastIntervalPos := 0, curMatch := {}, curPos := pos }

/-- The branch of the outer loop that starts at another position of the line. -/
def restart (E : Env) (fuel : Nat) (s : RunState) : Option Outcome :=
  let ctrl := if E.flags.lineOrInvert then s.ctrl else newMatch E s.ctrl
  let (pos, ctrl) := updateInputPointer E s.currentRun s.inputPointer ctrl
  match resetThread E fuel pos (beginAttempt ctrl pos) with
  | none => none
  | some p => some (testInput E ((s.moveTo pos).hold p))

/-- The rest of the outer round, once the inner loop has run out of threads. -/
def outerRound (E : Env) (fuel : Nat) (s : RunState) : Option Outcome :=
  if s.ctrl.nextThreads ≠ [] then
    let (thread, ctrl) := s.ctrl.swapNextWActive.shiftActive
    some (testInput E (s.hold (thread, { ctrl with curPos := ctrl.curPos + 1 })))
  else restart E fuel s

/-- One round of `run_nfa`. -/
def runStep (E : Env) (fuel : Nat) (s : RunState) : Option Outcome :=
  match s.thread with
  | some sim => innerRound E fuel s sim
  | none => outerRound E fuel s

/-- The local variables of `run_nfa` when the loops are reached. -/
def enterLoops (inputPointer : Nat) (p : Option NFASim × NFASimCtrl) : RunState :=
  { thread := p.1, ctrl := p.2, inputPointer := inputPointer }

/-- The assignment `ctrl->last_interval_pos = 0`. -/
def beginRun (ctrl : NFASimCtrl) : NFASimCtrl := { ctrl with lastIntervalPos := 0 }

/-- The part of `run_nfa` before its loops. -/
def startRun (E : Env) (fuel : Nat) (ctrl : NFASimCtrl) : Option Outcome :=
  let ctrl := beginRun ctrl
  match E.kw with
  | some kw =>
    match findKeywordStartPos E kw fuel ctrl with
    | none => none
    | some ctrl =>
      let s := enterLoops ctrl.curPos ctrl.shiftActive
      some (if s.thread.isNone then .released s else testInput E s)
  | none =>
    match loadStartStates E fuel ctrl.curPos ctrl with
    | none => none
    | some ctrl' => some (testInput E (enterLoops ctrl.curPos ctrl'.shiftActive))

/-- The loops of `run_nfa`, with the number of rounds bounded. -/
def runLoop (E : Env) (fuel : Nat) : Nat → Outcome → Option RunState
  | _, .released s => some s
  | 0, .running _ => none
  | k + 1, .running s =>
    match runStep E fuel s with
    | none => none
    | some o => runLoop E fuel k o

/-- The part of `run_nfa` after its loops. -/
def finishRun (E : Env) (s : RunState) : Bool × NFASimCtrl :=
  let ctrl := s.ctrl.releaseAllThreads s.thread
  let ctrl :=
    if (s.matchFound = false ∧ E.flags.invertMatch) ∨ (s.matchFound ∧ E.flags.showMatchLine) then
      newMatch E (ctrl.setMatch ⟨ctrl.bufferStart, ctrl.bufferEnd - 1⟩)
    else ctrl
  (s.matchFound, if E.kw.isSome then ctrl.kwClearMatches else ctrl)

/-- `run_nfa`; `fuel` bounds the nesting of loads and the number of rounds. -/
def runNfa (E : Env) (fuel : Nat) (ctrl : NFASimCtrl) : Option (Bool × NFASimCtrl) := do
  let o ← startRun E fuel ctrl
  let s ← runLoop E fuel fuel o
  some (finishRun E s)

/-- `new_nfa_sim`: the pool holds one cleared thread, and the cursors of the
reachable lists stand where the compiler left them. -/
def newNfaSim (E : Env) : NFASimCtrl :=
  { threadPool := [{}], iterIdx := fun a => (E.heap a).iterIdx }

/-- `reset_nfa_sim` on a line that was just read. -/
def resetNfaSim (line : Line) (ctrl : NFASimCtrl) : NFASimCtrl :=
  { ctrl with
    bufferStart := line.buffer, bufferEnd := line.eolPos, curPos := line.buffer, curMatch := {} }

/-- The environment `new_nfa_sim` sets up from a compiled pattern, on a line. -/
def Env.ofParser (p : Parser) (place : Nat → Nat) (flags : CtrlFlags) (line : Line) : Env where
  heap := p.ctrl.heap
  startState := (p.ctrl.heap p.peek).parent
  flags := flags
  kw := KwSearch.ofPatterns p.synthPatterns place
  line := line

/-- The same program on another line. -/
def Env.onLine (E : Env) (line : Line) : Env := { E with line := line }

/-- One line through `reset_nfa_sim` and `run_nfa`: the value returned, the spans
reported for this line, and the simulator afterwards. -/
def runLine (E : Env) (fuel : Nat) (ctrl : NFASimCtrl) :
    Option (Bool × List Match × NFASimCtrl) := do
  let (value, ctrl) ← runNfa E fuel (resetNfaSim E.line { ctrl with reports := [] })
  some (value, ctrl.reports, ctrl)

/-- The loop of `process_file` on lines read one after another. -/
def runLines (E : Env) (fuel : Nat) : List Line → NFASimCtrl →
    Option (List (Bool × List Match) × NFASimCtrl)
  | [], ctrl => some ([], ctrl)
  | line :: rest, ctrl => do
    let (value, reports, ctrl) ← runLine (E.onLine line) fuel ctrl
    let (results, ctrl) ← runLines E fuel rest ctrl
    some ((value, reports) :: results, ctrl)

/-- `parse_regex` and `compile_regex`, which give the environment of a pattern. -/
def compilePattern (fuel : Nat) (pattern : List Int) (flags : CtrlFlags) (place : Nat → Nat)
    (line : Line) : Option Env :=
  match Parser.parseRegex fuel pattern flags.ignoreCase with
  | .error _ => none
  | .ok p => (compileRegex fuel p).map fun p => Env.ofParser p place flags line

end Recognizer
