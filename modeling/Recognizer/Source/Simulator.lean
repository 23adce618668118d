import Recognizer.Source.Nfa
import Recognizer.Source.Search

/-!
# Threads and their loading, `recognizer.c`

Pointers into the line are addresses: the line's buffer starts above one, zero
is `NULL`, and one is the string `"\0"` that makes the main loop stop. A thread
sits in exactly one list or in a local variable, so lists of threads are lists
of values.

`load_next`, `process_adjacents` and `thread_clone` call each other. The latter
two are written over the loader they call, and `loadNext` closes the knot with a
budget; `none` stands for a spent budget, a dereference of `NULL` or `fatal`.

Three members are history and never read: the `trail` of a thread, and the
records of threads acquired and of threads dropped as duplicates.
-/

namespace Recognizer

/-- The address of the string constant `"\0"` in `update_input_pointer`. -/
def nulString : Nat := 1

/-- The line buffer after `reset_scanner`: `text` without its newline, followed
by the end of line symbol and a `NUL`. At the other addresses lies what earlier
lines left in the buffer of `getline`, or what other objects hold; a backreference
reads it through a capture that is stale. -/
structure Line where
  buffer : Nat
  one_lt_buffer : 1 < buffer
  text : List Int
  elsewhere : Nat → Int := fun _ => 0

namespace Line

/-- The address of the end of line symbol. -/
def eolPos (l : Line) : Nat := l.buffer + l.text.length

/-- The character at an address. -/
def deref (l : Line) (p : Nat) : Int :=
  if p = nulString then 0
  else if l.buffer ≤ p ∧ p ≤ l.eolPos + 1 then (l.text ++ [eolSymbol]).getD (p - l.buffer) 0
  else l.elsewhere p

end Line

/-- `Match`; `last_match_end` belongs to the output buffer. -/
structure Match where
  start : Nat := 0
  stop : Nat := 0
  deriving DecidableEq, Repr

/-- `NFASim`, a thread. `trail` lists the nodes it was loaded through since the
current start position, each with the lookahead, the latest first. -/
structure NFASim where
  brefPtr : Nat := 0
  ip : Addr := 0
  curMatch : Match := {}
  status : Int := 0
  trackingIntervals : Int := 0
  trackingBackrefs : Bool := false
  intervalCount : Int := 0
  backrefMatch : Nat → Match := fun _ => {}
  loopRecord : Nat → Int := fun _ => 0
  trail : List (Addr × Nat) := []

/-- A thread taken for a new use: the pooled thread it came from, if any, and
the thread that is cloned, if it is not a start state's. -/
structure Acquisition where
  recycled : Option NFASim
  source : Option NFASim

/-- A thread `load_next` drops because its node is stamped with the lookahead,
and the threads then waiting in `active_threads` and `next_threads`. -/
structure Drop where
  thread : NFASim
  node : Addr
  lookahead : Nat
  pending : List NFASim

/-- `NFASimCtrl`. The cursors of the reachable lists are kept here, `reports`
holds the spans handed to the output buffer, latest last, and `kwRecords` with
`kwCursor` are the matches of the keyword search and their iterator. -/
structure NFASimCtrl where
  curPos : Nat := 0
  bufferStart : Nat := 0
  bufferEnd : Nat := 0
  lastIntervalPos : Nat := 0
  threadPool : List NFASim := []
  activeThreads : List NFASim := []
  nextThreads : List NFASim := []
  activeThreadsSp : Nat → Nat := fun _ => 0
  iterIdx : Addr → Int := fun _ => 0
  curMatch : Match := {}
  reports : List Match := []
  kwRecords : List MatchRecord := []
  kwCursor : Option Nat := none
  acquired : List Acquisition := []
  dropped : List Drop := []

/-- What stays fixed while a line is run: the compiled nodes, the flags, the
keyword search and the line. -/
structure Env where
  heap : Heap
  startState : Addr
  flags : CtrlFlags
  kw : Option KwSearch
  line : Line

/-- The two lists `load_next` is asked to append to. -/
inductive Dst where
  | active
  | next
  deriving DecidableEq, Repr

namespace NFASimCtrl

/-- `sim_pool_append` to one of the two run lists. -/
def append (ctrl : NFASimCtrl) (dst : Dst) (sim : NFASim) : NFASimCtrl :=
  match dst with
  | .active => { ctrl with activeThreads := ctrl.activeThreads ++ [sim] }
  | .next => { ctrl with nextThreads := ctrl.nextThreads ++ [sim] }

/-- `sim_pool_append` to the thread pool. -/
def release (ctrl : NFASimCtrl) (sim : NFASim) : NFASimCtrl :=
  { ctrl with threadPool := ctrl.threadPool ++ [sim] }

/-- `sim_pool_shift` of the thread pool, for a clone of the given thread or for a
start state. -/
def acquire (ctrl : NFASimCtrl) (source : Option NFASim) : NFASimCtrl :=
  { ctrl with
    threadPool := ctrl.threadPool.tail
    acquired := ctrl.acquired ++ [⟨ctrl.threadPool.head?, source⟩] }

/-- `sim_pool_shift` of the active list. -/
def shiftActive (ctrl : NFASimCtrl) : Option NFASim × NFASimCtrl :=
  (ctrl.activeThreads.head?, { ctrl with activeThreads := ctrl.activeThreads.tail })

/-- Write `active_threads_sp`. -/
def stamp (ctrl : NFASimCtrl) (id pos : Nat) : NFASimCtrl :=
  { ctrl with activeThreadsSp := Function.update ctrl.activeThreadsSp id pos }

/-- Move the cursor of a reachable list. -/
def setCursor (ctrl : NFASimCtrl) (nfa : Addr) (idx : Int) : NFASimCtrl :=
  { ctrl with iterIdx := Function.update ctrl.iterIdx nfa idx }

/-- Write `last_interval_pos`. -/
def setIntervalPos (ctrl : NFASimCtrl) (pos : Nat) : NFASimCtrl :=
  { ctrl with lastIntervalPos := pos }

/-- Write `match`. -/
def setMatch (ctrl : NFASimCtrl) (m : Match) : NFASimCtrl := { ctrl with curMatch := m }

/-- Record a dropped thread. -/
def noteDrop (ctrl : NFASimCtrl) (sim : NFASim) (nfa : Addr) (lookahead : Nat) : NFASimCtrl :=
  { ctrl with
    dropped := ctrl.dropped ++ [⟨sim, nfa, lookahead, ctrl.activeThreads ++ ctrl.nextThreads⟩] }

end NFASimCtrl

/-- `is_literal_in_range`. -/
def isLiteralInRange (range : BitVec 128) (c : Int) : Bool :=
  decide (0 ≤ c ∧ c < 128) && range.getLsbD c.toNat

namespace Env

/-- `INPUT`. -/
def input (E : Env) (ctrl : NFASimCtrl) : Int :=
  let c := E.line.deref ctrl.curPos
  if E.flags.ignoreCase then toupper c else c

/-- `INST_TOKEN`. -/
def instToken (E : Env) (n : NFA) : Int :=
  if E.flags.ignoreCase then toupper n.literal else n.literal

/-- The test of a literal or range node on the lookahead, without case folding. -/
def passesLookahead (E : Env) (n : NFA) (lookahead : Nat) : Bool :=
  match n.type with
  | .literal => decide (n.literal = E.line.deref lookahead)
  | .range => isLiteralInRange n.range (E.line.deref lookahead)
  | _ => true

end Env

/-- The assignments of `thread_clone` to the memory of the clone. The counters are
copied from a thread that tracks intervals and otherwise cleared in a recycled
thread that tracked some; the captures are copied into recycled threads only. -/
def cloneFrom (clone : NFASim) (newThread : Bool) (sim : NFASim) (nfa : Addr) : NFASim where
  status := 0
  ip := nfa
  brefPtr := 0
  curMatch := sim.curMatch
  trackingBackrefs := sim.trackingBackrefs
  intervalCount := sim.intervalCount
  loopRecord :=
    if sim.trackingIntervals ≠ 0 then sim.loopRecord
    else if newThread = false ∧ clone.trackingIntervals ≠ 0 then fun _ => 0
    else clone.loopRecord
  trackingIntervals :=
    if sim.trackingIntervals ≠ 0 then sim.trackingIntervals
    else if newThread = false ∧ clone.trackingIntervals ≠ 0 then 0
    else clone.trackingIntervals
  backrefMatch :=
    if sim.trackingBackrefs ∧ newThread = false then sim.backrefMatch else clone.backrefMatch
  trail := sim.trail

/-- A clone in the memory of a recycled thread, or in fresh memory, which `xmalloc` clears. -/
def cloneMemory (recycled : Option NFASim) (sim : NFASim) (nfa : Addr) : NFASim :=
  match recycled with
  | some t => cloneFrom t false sim nfa
  | none => cloneFrom {} true sim nfa

/-- The clone and what is left of the pool. -/
def acquireClone (ctrl : NFASimCtrl) (sim : NFASim) (nfa : Addr) : NFASim × NFASimCtrl :=
  (cloneMemory ctrl.threadPool.head? sim nfa, ctrl.acquire (some sim))

/-- The assignment `sim->status = status`. -/
def setStatus (sim : NFASim) (status : Int) : NFASim := { sim with status := status }

/-- The assignments `sim->ip = nfa` and `sim->status = 0`. -/
def settle (sim : NFASim) (nfa : Addr) : NFASim := { sim with ip := nfa, status := 0 }

/-- The type of `load_next`: the thread with its new status, and the control block. -/
abbrev Loader := NFASim → Addr → Dst → Nat → NFASimCtrl → Option (NFASim × NFASimCtrl)

section Load

variable (E : Env) (load : Loader)

/-- `thread_clone`. A clone that could not be loaded goes back to the pool. -/
def threadClone (nfa : Addr) (sim : NFASim) (dst : Dst) (lookahead : Nat) (ctrl : NFASimCtrl) :
    Option NFASimCtrl :=
  if E.passesLookahead (E.heap nfa) lookahead then
    let (clone, ctrl) := acquireClone ctrl sim nfa
    match load clone nfa dst lookahead ctrl with
    | none => none
    | some (clone, ctrl) => some (if clone.status = -1 then ctrl.release clone else ctrl)
  else some ctrl

/-- `thread_clone` for each of the given nodes. -/
def cloneEach (sim : NFASim) (dst : Dst) (lookahead : Nat) : List Addr → NFASimCtrl →
    Option NFASimCtrl
  | [], ctrl => some ctrl
  | nfa :: rest, ctrl =>
    match threadClone E load nfa sim dst lookahead ctrl with
    | none => none
    | some ctrl => cloneEach sim dst lookahead rest ctrl

/-- `load_next` at an index of a reachable list, where `NULL` is read past its end. -/
def loadAt (sim : NFASim) (xs : List Addr) (i : Nat) (dst : Dst) (lookahead : Nat)
    (ctrl : NFASimCtrl) : Option (NFASim × NFASimCtrl) :=
  match xs[i]? with
  | none => none
  | some nfa => load sim nfa dst lookahead ctrl

/-- `process_adjacents`. -/
def processAdjacents (sim : NFASim) (nfa : Addr) (dst : Dst) (lookahead : Nat)
    (ctrl : NFASimCtrl) : Option (NFASim × NFASimCtrl) :=
  let xs := (E.heap nfa).reachable
  match cloneEach E load sim dst lookahead xs.tail ctrl with
  | none => none
  | some ctrl => loadAt load sim xs 0 dst lookahead ctrl

/-- `list_set_iterator` on a reachable list. -/
def setIterator (nfa : Addr) (indx : Nat) (ctrl : NFASimCtrl) : NFASimCtrl :=
  if (E.heap nfa).reachable.length ≤ indx then ctrl
  else ctrl.setCursor nfa indx

/-- The loop of `list_for_each` with `thread_clone` as its body, on the cursor
every user of the list shares. -/
def forEachLoop (nfa : Addr) (finish : Nat) (sim : NFASim) (dst : Dst) (lookahead : Nat) :
    Nat → NFASimCtrl → Option NFASimCtrl
  | 0, _ => none
  | fuel + 1, ctrl =>
    let xs := (E.heap nfa).reachable
    let idx := ctrl.iterIdx nfa
    if (xs.length : Int) ≤ idx ∨ idx < 0 then some ctrl
    else
      let ctrl := ctrl.setCursor nfa (idx + 1)
      if idx + 1 ≤ finish then
        match threadClone E load (xs.getD idx.toNat 0) sim dst lookahead ctrl with
        | none => none
        | some ctrl => forEachLoop nfa finish sim dst lookahead fuel ctrl
      else some ctrl

/-- `list_for_each(tmp, &(nfa->reachable), start, finish) thread_clone(tmp, ...)`. -/
def forEach (fuel : Nat) (nfa : Addr) (start finish : Nat) (sim : NFASim) (dst : Dst)
    (lookahead : Nat) (ctrl : NFASimCtrl) : Option NFASimCtrl :=
  forEachLoop E load nfa finish sim dst lookahead fuel (setIterator E nfa start ctrl)

/-- The exit of an interval: clones for all exit nodes but the first, which the
thread itself takes. -/
def loadExit (fuel : Nat) (sim : NFASim) (nfa : Addr) (dst : Dst) (lookahead : Nat)
    (ctrl : NFASimCtrl) : Option (NFASim × NFASimCtrl) :=
  let n := E.heap nfa
  match forEach E load fuel nfa (n.splitIdx + 1) n.reachable.length sim dst lookahead ctrl with
  | none => none
  | some ctrl => loadAt load sim n.reachable n.splitIdx dst lookahead ctrl

/-- Set the count of an interval in a thread. -/
def setCount (sim : NFASim) (id : Nat) (count : Int) : NFASim :=
  { sim with loopRecord := Function.update sim.loopRecord id count }

/-- Add to `tracking_intervals`. -/
def track (sim : NFASim) (d : Int) : NFASim :=
  { sim with trackingIntervals := sim.trackingIntervals + d }

/-- The `NFA_INTERVAL` case of `load_next`. -/
def loadInterval (fuel : Nat) (sim : NFASim) (nfa : Addr) (dst : Dst) (lookahead : Nat)
    (ctrl : NFASimCtrl) : Option (NFASim × NFASimCtrl) :=
  let n := E.heap nfa
  let xs := n.reachable
  let count := sim.loopRecord n.id + 1
  let sim := setCount { sim with intervalCount := sim.intervalCount + 1 } n.id count
  if count < n.minRep then
    let sim := track sim 1
    match forEach E load fuel nfa 1 n.splitIdx sim dst lookahead ctrl with
    | none => none
    | some ctrl => loadAt load sim xs 0 dst lookahead ctrl
  else if 0 < n.maxRep then
    if count < n.maxRep then
      let sim := track sim 1
      if n.cycleFlag ∧ ctrl.lastIntervalPos = lookahead then
        loadExit E load fuel (track (setCount sim n.id 0) (-1)) nfa dst lookahead ctrl
      else
        let ctrl := if n.cycleFlag then ctrl.setIntervalPos lookahead else ctrl
        match forEach E load fuel nfa 0 n.splitIdx sim dst lookahead ctrl with
        | none => none
        | some ctrl =>
          loadExit E load fuel (track (setCount sim n.id 0) (-1)) nfa dst lookahead ctrl
    else
      let sim := setCount (track sim (-1)) n.id 0
      if n.cycleFlag then
        match forEach E load fuel nfa 1 xs.length sim dst lookahead ctrl with
        | none => none
        | some ctrl => loadAt load sim xs 0 dst lookahead ctrl
      else loadExit E load fuel sim nfa dst lookahead ctrl
  else
    -- unbounded upper limit
    let sim := track sim 1
    match forEach E load fuel nfa 0 n.splitIdx sim dst lookahead ctrl with
    | none => none
    | some ctrl =>
      loadExit E load fuel (if n.acceptsFlag then sim else setCount sim n.id 0) nfa dst lookahead
        ctrl

/-- The default case of `load_next`. The thread fails when its node is stamped
with the lookahead, or when the node does not match the lookahead. -/
def loadDefault (sim : NFASim) (nfa : Addr) (dst : Dst) (lookahead : Nat) (ctrl : NFASimCtrl) :
    NFASim × NFASimCtrl :=
  let n := E.heap nfa
  if sim.trackingIntervals ≠ 0 ∨ ctrl.activeThreadsSp n.id ≠ lookahead then
    if E.passesLookahead n lookahead then
      (settle sim nfa, (ctrl.stamp n.id lookahead).append dst (settle sim nfa))
    else (setStatus sim (-1), ctrl)
  else (setStatus sim (-1), ctrl.noteDrop sim nfa lookahead)

/-- A thread on its way through a node, for its history. -/
def visit (sim : NFASim) (nfa : Addr) (lookahead : Nat) : NFASim :=
  { sim with trail := (nfa, lookahead) :: sim.trail }

/-- The assignments of the `NFA_CAPTUREGRP_BEGIN` case. -/
def beginGroup (sim : NFASim) (id lookahead : Nat) : NFASim :=
  { sim with
    trackingBackrefs := true
    backrefMatch := Function.update sim.backrefMatch id ⟨lookahead, 0⟩ }

/-- The assignment of the `NFA_CAPTUREGRP_END` case. -/
def endGroup (sim : NFASim) (id lookahead : Nat) : NFASim :=
  { sim with
    backrefMatch :=
      Function.update sim.backrefMatch id ⟨(sim.backrefMatch id).start, lookahead - 1⟩ }

/-- One call of `load_next` over the loader its own calls use. -/
def loadNextBody (fuel : Nat) (sim : NFASim) (nfa : Addr) (dst : Dst) (lookahead : Nat)
    (ctrl : NFASimCtrl) : Option (NFASim × NFASimCtrl) :=
  let n := E.heap nfa
  let sim := visit sim nfa lookahead
  match n.type with
  | .capturegrpBegin =>
    processAdjacents E load (beginGroup sim n.id lookahead) nfa dst lookahead ctrl
  | .capturegrpEnd =>
    processAdjacents E load (endGroup sim n.id lookahead) nfa dst lookahead ctrl
  | .interval => loadInterval E load fuel sim nfa dst lookahead ctrl
  | .accepting => some (settle sim nfa, ctrl.append .active (settle sim nfa))
  | _ => some (loadDefault E sim nfa dst lookahead ctrl)

end Load

/-- `load_next`, with the number of nested calls bounded. -/
def loadNext (E : Env) : Nat → Loader
  | 0 => fun _ _ _ _ _ => none
  | fuel + 1 => loadNextBody E (loadNext E fuel) fuel

/-- `update_match`. -/
def updateMatch (sim : NFASim) (curPos : Nat) : NFASim :=
  if sim.curMatch.start = 0 then { sim with curMatch := ⟨curPos, curPos⟩ }
  else { sim with curMatch := { sim.curMatch with stop := curPos } }

/-- `process_adjacents` as `thread_step` calls it. -/
def stepAdjacents (E : Env) (fuel : Nat) (sim : NFASim) (dst : Dst) (lookahead : Nat)
    (ctrl : NFASimCtrl) : Option (NFASim × NFASimCtrl) :=
  processAdjacents E (loadNext E fuel) sim sim.ip dst lookahead ctrl

/-- The first statements of the `NFA_BACKREFERENCE` case: a thread that is not
inside a span yet starts at the span's first character. -/
def openBackreference (E : Env) (sim : NFASim) (curPos : Nat) : NFASim :=
  if sim.brefPtr = 0 then
    { updateMatch sim curPos with brefPtr := (sim.backrefMatch (E.heap sim.ip).id).start }
  else sim

/-- A thread inside a span moves on to the span's next character. -/
def nextInSpan (sim : NFASim) : NFASim := { sim with brefPtr := sim.brefPtr + 1, status := 0 }

/-- The assignments after the last character of a span. -/
def closeBackreference (sim : NFASim) (curPos : Nat) : NFASim :=
  { updateMatch sim curPos with brefPtr := 0 }

/-- The `NFA_BACKREFERENCE` case of `thread_step`. -/
def stepBackreference (E : Env) (fuel : Nat) (sim : NFASim) (ctrl : NFASimCtrl) :
    Option (NFASim × NFASimCtrl) :=
  let sim := openBackreference E sim ctrl.curPos
  if sim.brefPtr ≠ 0 ∧ E.input ctrl = E.line.deref sim.brefPtr then
    if sim.brefPtr = (sim.backrefMatch (E.heap sim.ip).id).stop then
      stepAdjacents E fuel (closeBackreference sim ctrl.curPos) .next (ctrl.curPos + 1) ctrl
    else some (nextInSpan sim, ctrl.append .next (nextInSpan sim))
  else some (setStatus sim (-1), ctrl)

/-- `thread_step`. -/
def threadStep (E : Env) (fuel : Nat) (sim : NFASim) (ctrl : NFASimCtrl) :
    Option (NFASim × NFASimCtrl) :=
  let n := E.heap sim.ip
  let ctrl := ctrl.stamp n.id 0
  let fail := some (setStatus sim (-1), ctrl)
  let consume := stepAdjacents E fuel (updateMatch sim ctrl.curPos) .next (ctrl.curPos + 1) ctrl
  if E.input ctrl ≠ 0 then
    match n.type with
    | .any => if E.input ctrl ≠ eolSymbol then consume else fail
    | .literal => if E.input ctrl = E.instToken n then consume else fail
    | .range =>
      if E.input ctrl ≠ eolSymbol ∧ isLiteralInRange n.range (E.input ctrl) then consume else fail
    | .backreference => stepBackreference E fuel sim ctrl
    | .bolAnchor =>
      if ctrl.curPos = E.line.buffer then stepAdjacents E fuel sim .active ctrl.curPos ctrl
      else fail
    | .eolAnchor =>
      if E.input ctrl = eolSymbol then stepAdjacents E fuel sim .next ctrl.curPos ctrl else fail
    | .accepting => some (setStatus sim 1, ctrl)
    | _ => fail
  else some (setStatus sim 1, ctrl)

/-- The assignments of `load_start_states` to the memory of a start state's thread. -/
def startFrom (clone : NFASim) (nfa : Addr) : NFASim :=
  { clone with
    ip := nfa, status := 0, brefPtr := 0, curMatch := {}, intervalCount := 0
    trackingBackrefs := false, trail := [] }

/-- A start state's thread; the loop records of a recycled thread are cleared. -/
def startMemory (recycled : Option NFASim) (nfa : Addr) : NFASim :=
  match recycled with
  | some t => startFrom { t with loopRecord := fun _ => 0 } nfa
  | none => startFrom {} nfa

/-- The start state's thread and what is left of the pool. -/
def acquireStart (ctrl : NFASimCtrl) (nfa : Addr) : NFASim × NFASimCtrl :=
  (startMemory ctrl.threadPool.head? nfa, ctrl.acquire none)

/-- The body of the loop of `load_start_states`. -/
def loadStartState (E : Env) (fuel : Nat) (lookahead : Nat) (nfa : Addr) (ctrl : NFASimCtrl) :
    Option NFASimCtrl :=
  let (clone, ctrl) := acquireStart ctrl nfa
  if (E.heap nfa).type = .range then
    if isLiteralInRange (E.heap nfa).range (E.line.deref lookahead) then
      some (ctrl.append .active (visit clone nfa lookahead))
    else some (ctrl.release clone)
  else
    match loadNext E fuel clone nfa .active lookahead ctrl with
    | none => none
    | some (clone, ctrl) => some (if clone.status = -1 then ctrl.release clone else ctrl)

/-- `load_start_states`. The start state is never an interval, so no call below
moves the cursor of its list and the loop is a walk along it. -/
def loadStartStates (E : Env) (fuel : Nat) (lookahead : Nat) (ctrl : NFASimCtrl) :
    Option NFASimCtrl :=
  (E.heap E.startState).reachable.foldlM (fun ctrl nfa => loadStartState E fuel lookahead nfa ctrl)
    ctrl

end Recognizer
