import Recognizer.Core.CString
import Recognizer.Source.Run

/-!
# The output buffer, `fill_output_buffer`, `new_match` and `flush_matches`

The array `matches` is a memory of cells without bounds; every place that is stored to is kept,
so that a store behind the array is seen. What `printf` prints is kept as well.
-/

namespace Recognizer

/-- The members of `NFASimCtrl` the output uses, the bytes printed so far and the places in
`matches` that were stored to. -/
structure Output where
  matchBuf : Int → Int := fun _ => 0
  matchIdx : Int := 0
  lastMatchEnd : Nat := 0
  stdout : List Int := []
  stores : List Int := []

/-- What `new_match` reads: the name of the file, the number of the line, the match and the bytes
from `begin` to `end`. -/
structure Report where
  filename : List Int
  lineNo : Nat
  start : Nat
  stop : Nat
  text : List Int
  deriving DecidableEq, Repr

namespace Output

/-- Stores to the cells of `matches` from a place on. -/
def write (o : Output) (i : Int) (cs : List Int) : Output :=
  { o with
    matchBuf := CString.writeAll o.matchBuf i cs
    stores := o.stores ++ (List.range cs.length).map fun k : Nat => i + (k : Int) }

/-- The macro `APPEND_NEWLINE`. -/
def appendNewline (o : Output) : Output :=
  { o.write o.matchIdx [10] with matchIdx := o.matchIdx + 1 }

/-- The macro `APPEND_NULL`. -/
def appendNull (stop : Nat) (o : Output) : Output :=
  { o.write o.matchIdx [0] with lastMatchEnd := stop }

/-- The assignment `ctrl->match_idx = i`. -/
def seek (i : Int) (o : Output) : Output := { o with matchIdx := i }

/-- `printf` of bytes. -/
def print (cs : List Int) (o : Output) : Output := { o with stdout := o.stdout ++ cs }

/-- `flush_matches`; no cell behind the first one past the array is ever stored to. -/
def flushMatches (size : Nat) (o : Output) : Output :=
  { o.print (CString.read o.matchBuf (size + 1) 0) with matchIdx := 0, lastMatchEnd := 0 }

/-- `fill_output_buffer` where the buffer holds something and the text does not fit behind it;
behind it `fill_size` is one less than the size. -/
def fillFirst (size stop : Nat) (text : List Int) (o : Output) : List Int × Output :=
  let fillSize : Int := size - o.matchIdx - 1
  if o.matchIdx ≠ 0 then
    if fillSize < 1 then (text, o.flushMatches size)
    else
      (text.drop fillSize.toNat,
        (((o.write o.matchIdx (text.take fillSize.toNat)).seek (size - 1)).appendNull
          stop).flushMatches size)
  else (text, o)

/-- The loop of `fill_output_buffer`; a round takes at least one byte off the text, whose length
is the first argument. -/
def fillLoop (size stop : Nat) : Nat → List Int → Output → List Int × Output
  | 0, text, o => (text, o)
  | n + 1, text, o =>
    if size - 1 < text.length then
      fillLoop size stop n (text.drop (size - 1))
        ((((o.write o.matchIdx (text.take (size - 1))).seek (size - 1)).appendNull
          stop).flushMatches size)
    else (text, o)

/-- The end of `fill_output_buffer` for a text that did not fit. -/
def fillLast (size stop : Nat) (text : List Int) (o : Output) : Output :=
  if text.length = 0 then o
  else
    let (remainOut, o) :=
      if text.length = size then
        (text.length - (size - 1),
          (((o.write 0 (text.take (size - 1))).seek (size - 1)).appendNull stop).flushMatches size)
      else (text.length, o)
    ((((o.write 0 (text.take remainOut)).seek remainOut).appendNewline).appendNull
      stop).flushMatches size

/-- `fill_output_buffer`; `sz` is the length of the text. -/
def fillOutputBuffer (size stop : Nat) (text : List Int) (flushBuffer : Bool) (o : Output) :
    Output :=
  if o.matchIdx + text.length + 1 ≥ size then
    let (text, o) := fillFirst size stop text o
    let (text, o) := fillLoop size stop text.length text o
    fillLast size stop text o
  else
    let o := (((o.write o.matchIdx text).seek (o.matchIdx + text.length)).appendNewline).appendNull
      stop
    if flushBuffer then o.flushMatches size else o

/-- The loop of `new_match` that counts the digits of the line number. -/
def widthLoop : Nat → Nat → Nat → Nat
  | 0, _, w => w
  | n + 1, tmp, w => if tmp / 10 > 0 then widthLoop n (tmp / 10) (w + 1) else w

/-- The variable `w` of `new_match`. -/
def width (lineNo : Nat) : Nat := widthLoop lineNo lineNo 1

/-- The variable `sz` of `new_match`, with the file name and the line number. -/
def totalSize (flags : CtrlFlags) (r : Report) : Int :=
  r.text.length +
    (if flags.showFileName ∧ r.filename.length > 0 then r.filename.length + 1 else 0) +
    (if flags.showLineno then width r.lineNo + 1 else 0)

/-- The part of `new_match` that joins a match to the one before it. -/
def joinAdjacent (r : Report) (o : Output) : Output :=
  if o.lastMatchEnd ≠ 0 then
    let o := if (r.start : Int) - o.lastMatchEnd = 0 then o.seek (o.matchIdx - 2) else o
    if (r.start : Int) - o.lastMatchEnd = 1 then o.seek (o.matchIdx - 1) else o
  else o

/-- The condition `input_too_big`. -/
def TooBig (size : Nat) (sz : Int) (o : Output) : Prop := o.matchIdx + sz + 1 ≥ size

instance (size : Nat) (sz : Int) (o : Output) : Decidable (o.TooBig size sz) :=
  inferInstanceAs (Decidable (_ ≥ _))

/-- The flush of `new_match`. -/
def makeRoom (size : Nat) (sz : Int) (o : Output) : Output :=
  if o.matchIdx ≠ 0 ∧ o.TooBig size sz then o.flushMatches size else o

/-- `snprintf` to `matches` at the index, with room for `n` bytes. -/
def snprintf (n : Nat) (cs : List Int) (o : Output) : Output :=
  o.write o.matchIdx (cs.take (n - 1) ++ [0])

/-- The file name in front of a match; the second component is `flush_buffer`. -/
def showName (flags : CtrlFlags) (r : Report) (inputTooBig : Prop) [Decidable inputTooBig]
    (o : Output) : Output × Bool :=
  if flags.showFileName ∧ r.filename.length > 0 then
    if inputTooBig then (o.print (r.filename ++ [58]), true)
    else
      ((o.snprintf (r.filename.length + 2) (r.filename ++ [58])).seek
        (o.matchIdx + (r.filename.length + 1)), false)
  else (o, false)

/-- The line number in front of a match. -/
def showLineNo (flags : CtrlFlags) (r : Report) (inputTooBig : Prop) [Decidable inputTooBig]
    (p : Output × Bool) : Output × Bool :=
  if flags.showLineno then
    if inputTooBig then (p.1.print (bytes (toString r.lineNo) ++ [58]), true)
    else
      ((p.1.snprintf (r.filename.length + width r.lineNo + 1)
        (bytes (toString r.lineNo) ++ [58])).seek (p.1.matchIdx + (width r.lineNo + 1)), p.2)
  else p

/-- `new_match` on a match that it reports. -/
def newMatch (size : Nat) (flags : CtrlFlags) (r : Report) (o : Output) : Output :=
  let sz := totalSize flags r
  let o := (o.joinAdjacent r).makeRoom size sz
  let p := showLineNo flags r (o.TooBig size sz) (showName flags r (o.TooBig size sz) o)
  p.1.fillOutputBuffer size r.stop r.text p.2

end Output

/-- What the output sees of a run. -/
inductive OutputEvent where
  | resetNfaSim
  | loadStartStates
  | report (r : Report)
  | endOfFile
  deriving DecidableEq, Repr

/-- Both `reset_nfa_sim` and `load_start_states` clear `last_match_end`; the end of a file is the
last `flush_matches` of `process_file`. -/
def Output.handle (size : Nat) (flags : CtrlFlags) (o : Output) : OutputEvent → Output
  | .resetNfaSim => { o with lastMatchEnd := 0 }
  | .loadStartStates => { o with lastMatchEnd := 0 }
  | .report r => o.newMatch size flags r
  | .endOfFile => if o.matchIdx ≠ 0 then o.flushMatches size else o

/-- The bytes of a line from the start to the end of a span. -/
def Line.textOf (l : Line) (span : Match) : List Int :=
  (List.range (span.stop + 1 - span.start)).map fun k => l.deref (span.start + k)

section Events

variable (E : Env) (filename : List Int) (lineNo : Nat)

/-- The span whose bytes `new_match` prints. -/
def shownSpan (ctrl : NFASimCtrl) : Match :=
  if E.flags.showMatchLine then ⟨ctrl.bufferStart, ctrl.bufferEnd - 1⟩ else ctrl.curMatch

/-- A call of `new_match`. -/
def newMatchEvents (ctrl : NFASimCtrl) : List OutputEvent :=
  if E.flags.silentMatch = false ∧ ctrl.curMatch.start ≠ 0 ∧
      ctrl.curMatch.start ≤ ctrl.curMatch.stop then
    [.report ⟨filename, lineNo, ctrl.curMatch.start, ctrl.curMatch.stop,
      E.line.textOf (shownSpan E ctrl)⟩]
  else []

/-- A call of `load_start_states`; its loop clears `last_match_end` for every start state. -/
def loadEvents : List OutputEvent :=
  if (E.heap E.startState).reachable = [] then [] else [.loadStartStates]

/-- The events of the `MATCH` case. -/
def matchCaseEvents (sim : NFASim) (ctrl : NFASimCtrl) : List OutputEvent :=
  if E.flags.individualMatches ∧ E.flags.mglobal = false then
    newMatchEvents E filename lineNo (ctrl.setMatch (updateLongestMatch ctrl.curMatch sim.curMatch))
  else []

/-- The events of one round. -/
def stepEvents (fuel : Nat) (s : RunState) : List OutputEvent :=
  match s.thread with
  | some sim =>
    match threadStep E fuel sim s.ctrl with
    | some (sim, ctrl) => if sim.status = 1 then matchCaseEvents E filename lineNo sim ctrl else []
    | none => []
  | none =>
    if s.ctrl.nextThreads ≠ [] then []
    else
      (if E.flags.lineOrInvert then [] else newMatchEvents E filename lineNo s.ctrl) ++ loadEvents E

/-- The events before the loops. -/
def startEvents (ctrl : NFASimCtrl) : List OutputEvent :=
  match E.kw with
  | some kw => if (searchLine E kw (beginRun ctrl)).kwRecords = [] then [] else loadEvents E
  | none => loadEvents E

/-- The events of the loops. -/
def loopEvents (fuel : Nat) : Nat → Outcome → List OutputEvent
  | _, .released _ => []
  | 0, .running _ => []
  | k + 1, .running s =>
    stepEvents E filename lineNo fuel s ++
      match runStep E fuel s with
      | none => []
      | some o => loopEvents fuel k o

/-- The events behind the loops. -/
def finishEvents (s : RunState) : List OutputEvent :=
  let ctrl := s.ctrl.releaseAllThreads s.thread
  if (s.matchFound = false ∧ E.flags.invertMatch) ∨ (s.matchFound ∧ E.flags.showMatchLine) then
    newMatchEvents E filename lineNo (ctrl.setMatch ⟨ctrl.bufferStart, ctrl.bufferEnd - 1⟩)
  else []

/-- The events of `run_nfa`. -/
def runEvents (fuel : Nat) (ctrl : NFASimCtrl) : List OutputEvent :=
  startEvents E ctrl ++
    match startRun E fuel ctrl with
    | none => []
    | some o =>
      loopEvents E filename lineNo fuel fuel o ++
        match runLoop E fuel fuel o with
        | none => []
        | some s => finishEvents E filename lineNo s

/-- The events of one line. -/
def lineEvents (fuel : Nat) (ctrl : NFASimCtrl) : List OutputEvent :=
  .resetNfaSim ::
    runEvents E filename lineNo fuel (resetNfaSim E.line { ctrl with reports := [] })

end Events

/-- The loop of `process_file`, from a line number on. -/
def processLines (E : Env) (filename : List Int) (fuel : Nat) :
    Nat → List Line → NFASimCtrl → Option (List OutputEvent × NFASimCtrl)
  | _, [], ctrl => some ([], ctrl)
  | n, line :: rest, ctrl => do
    let (value, _, ctrl') ← runLine (E.onLine line) fuel ctrl
    let events := lineEvents (E.onLine line) filename n fuel ctrl
    if value ∧ E.flags.silentMatch then some (events, ctrl')
    else
      let (more, ctrl'') ← processLines E filename fuel (n + 1) rest ctrl'
      some (events ++ more, ctrl'')

/-- A file under the path it was opened under. -/
structure TextFile where
  name : List Int
  name_ne_nil : name ≠ []
  zero_notMem_name : 0 ∉ name
  lines : List Line

/-- `process_file` on the files one after the other. -/
def processFiles (E : Env) (fuel : Nat) :
    List TextFile → NFASimCtrl → Option (List OutputEvent × NFASimCtrl)
  | [], ctrl => some ([], ctrl)
  | file :: rest, ctrl => do
    let (events, ctrl) ← processLines E file.name fuel 1 file.lines ctrl
    let (more, ctrl) ← processFiles E fuel rest ctrl
    some (events ++ .endOfFile :: more, ctrl)

end Recognizer
