import Recognizer.Source.Run

/-!
# Threads as linked objects, `recognizer.c`

`Simulator` and `Run` keep the threads of a list as values. Here a thread is an object with a
`next` member, a list has a head and a tail, and a function changes the thread it is given in
place. Zero is `NULL`, and `xmalloc` returns the addresses one, two, and so on. The assignments
to the members of one thread are those of `Simulator`, and the members of the control block
other than the lists are those of `NFASimCtrl`.
-/

namespace Recognizer

/-- `SimPoolList`. -/
structure SimPoolList where
  head : Nat := 0
  tail : Nat := 0
  deriving DecidableEq, Repr

/-- The lists of the control block: `thread_pool`, `active_threads` and `next_threads`. -/
inductive ThreadList where
  | pool
  | active
  | next
  deriving DecidableEq, Repr

/-- The list a load appends to. -/
def Dst.list : Dst → ThreadList
  | .active => .active
  | .next => .next

/-- The threads in memory with the control block. The lists of values in `ctrl` stay empty, and
`allocated` is the number of threads obtained from `xmalloc`. -/
structure ThreadMem where
  ctrl : NFASimCtrl := {}
  lists : ThreadList → SimPoolList := fun _ => {}
  sims : Nat → NFASim := fun _ => {}
  next : Nat → Nat := fun _ => 0
  allocated : Nat := 0

namespace ThreadMem

/-- Write the head and the tail of a list. -/
def setList (m : ThreadMem) (l : ThreadList) (pool : SimPoolList) : ThreadMem :=
  { m with lists := Function.update m.lists l pool }

/-- The assignment `a->next = b`. -/
def link (m : ThreadMem) (a b : Nat) : ThreadMem :=
  { m with next := Function.update m.next a b }

/-- Assignments to the members of one thread. -/
def modify (m : ThreadMem) (sim : Nat) (f : NFASim → NFASim) : ThreadMem :=
  { m with sims := Function.update m.sims sim (f (m.sims sim)) }

/-- Assignments to the members of the control block other than the lists. -/
def onCtrl (m : ThreadMem) (f : NFASimCtrl → NFASimCtrl) : ThreadMem :=
  { m with ctrl := f m.ctrl }

/-- `swap_next_w_active`. -/
def swapNextWActive (m : ThreadMem) : ThreadMem :=
  (m.setList .active (m.lists .next)).setList .next ⟨0, 0⟩

/-- `sim_pool_shift`. -/
def simPoolShift (m : ThreadMem) (l : ThreadList) : Nat × ThreadMem :=
  let pool := m.lists l
  if pool.head ≠ 0 then
    let ret := pool.head
    let m :=
      if pool.head = pool.tail then m.setList l ⟨0, 0⟩
      else m.setList l { pool with head := m.next ret }
    (ret, m.link ret 0)
  else (0, m)

/-- `sim_pool_append`. -/
def simPoolAppend (m : ThreadMem) (l : ThreadList) (thread : Nat) : ThreadMem :=
  let pool := m.lists l
  let m :=
    if pool.head = 0 then m.setList l ⟨thread, thread⟩
    else (m.link pool.tail thread).setList l { pool with tail := thread }
  m.link thread 0

/-- `thread_pool.tail->next = chain.head` and `thread_pool.tail = chain.tail`. -/
def splice (m : ThreadMem) (chain : SimPoolList) : ThreadMem :=
  let pool := m.lists .pool
  (m.link pool.tail chain.head).setList .pool { pool with tail := chain.tail }

/-- `release_all_threads`. -/
def releaseAllThreads (m : ThreadMem) (thread : Nat) : ThreadMem :=
  let active := m.lists .active
  let next := m.lists .next
  let m :=
    if (m.lists .pool).head = 0 then
      if active.head ≠ 0 then
        let m := m.setList .pool active
        let m := if next.head ≠ 0 then m.splice next else m
        if thread ≠ 0 then m.splice ⟨thread, thread⟩ else m
      else
        -- `thread_pool` and `active_threads` are empty
        if next.head ≠ 0 then
          let m := m.setList .pool next
          if thread ≠ 0 then m.splice ⟨thread, thread⟩ else m
        else
          -- all pools are empty
          if thread ≠ 0 then m.setList .pool ⟨thread, thread⟩ else m
    else
      -- `thread_pool` is not empty
      let m :=
        if active.head ≠ 0 then
          let m := m.splice active
          if next.head ≠ 0 then m.splice next else m
        else
          if next.head ≠ 0 then m.splice next else m
      if thread ≠ 0 then m.splice ⟨thread, thread⟩ else m
  let m := if thread ≠ 0 then m.link thread 0 else m
  (m.setList .next ⟨0, 0⟩).setList .active ⟨0, 0⟩

/-- A thread for a new use and whether it is new: the first one of the pool, or else one from
`xmalloc`, which clears it. -/
def takeThread (m : ThreadMem) : Nat × Bool × ThreadMem :=
  if (m.lists .pool).head ≠ 0 then
    let (sim, m) := m.simPoolShift .pool
    (sim, false, m)
  else
    let sim := m.allocated + 1
    (sim, true, { (m.modify sim fun _ => {}).link sim 0 with allocated := sim })

/-- The type of `load_next` on a thread in memory. -/
abbrev MemLoader := Nat → Addr → Dst → Nat → ThreadMem → Option ThreadMem

section Load

variable (E : Env) (load : MemLoader)

/-- `thread_clone`. -/
def threadClone (nfa : Addr) (sim : Nat) (dst : Dst) (lookahead : Nat) (m : ThreadMem) :
    Option ThreadMem :=
  if E.passesLookahead (E.heap nfa) lookahead then
    let (clone, newThread, m) := m.takeThread
    let m := m.modify clone fun t => cloneFrom t newThread (m.sims sim) nfa
    match load clone nfa dst lookahead m with
    | none => none
    | some m => some (if (m.sims clone).status = -1 then m.simPoolAppend .pool clone else m)
  else some m

/-- `thread_clone` for each of the given nodes. -/
def cloneEach (sim : Nat) (dst : Dst) (lookahead : Nat) : List Addr → ThreadMem → Option ThreadMem
  | [], m => some m
  | nfa :: rest, m =>
    match threadClone E load nfa sim dst lookahead m with
    | none => none
    | some m => cloneEach sim dst lookahead rest m

/-- `load_next` at an index of a reachable list, where `NULL` is read past its end. -/
def loadAt (sim : Nat) (xs : List Addr) (i : Nat) (dst : Dst) (lookahead : Nat) (m : ThreadMem) :
    Option ThreadMem :=
  match xs[i]? with
  | none => none
  | some nfa => load sim nfa dst lookahead m

/-- `process_adjacents`. -/
def processAdjacents (sim : Nat) (nfa : Addr) (dst : Dst) (lookahead : Nat) (m : ThreadMem) :
    Option ThreadMem :=
  let xs := (E.heap nfa).reachable
  match cloneEach E load sim dst lookahead xs.tail m with
  | none => none
  | some m => loadAt load sim xs 0 dst lookahead m

/-- The loop of `list_for_each` with `thread_clone` as its body. -/
def forEachLoop (nfa : Addr) (finish : Nat) (sim : Nat) (dst : Dst) (lookahead : Nat) :
    Nat → ThreadMem → Option ThreadMem
  | 0, _ => none
  | fuel + 1, m =>
    let xs := (E.heap nfa).reachable
    let idx := m.ctrl.iterIdx nfa
    if (xs.length : Int) ≤ idx ∨ idx < 0 then some m
    else
      let m := m.onCtrl fun c => c.setCursor nfa (idx + 1)
      if idx + 1 ≤ finish then
        match threadClone E load (xs.getD idx.toNat 0) sim dst lookahead m with
        | none => none
        | some m => forEachLoop nfa finish sim dst lookahead fuel m
      else some m

/-- `list_for_each(tmp, &(nfa->reachable), start, finish) thread_clone(tmp, ...)`. -/
def forEach (fuel : Nat) (nfa : Addr) (start finish : Nat) (sim : Nat) (dst : Dst)
    (lookahead : Nat) (m : ThreadMem) : Option ThreadMem :=
  forEachLoop E load nfa finish sim dst lookahead fuel (m.onCtrl (setIterator E nfa start))

/-- The exit of an interval: clones for all exit nodes but the first, which the
thread itself takes. -/
def loadExit (fuel : Nat) (sim : Nat) (nfa : Addr) (dst : Dst) (lookahead : Nat) (m : ThreadMem) :
    Option ThreadMem :=
  let n := E.heap nfa
  match forEach E load fuel nfa (n.splitIdx + 1) n.reachable.length sim dst lookahead m with
  | none => none
  | some m => loadAt load sim n.reachable n.splitIdx dst lookahead m

/-- The `NFA_INTERVAL` case of `load_next`. -/
def loadInterval (fuel : Nat) (sim : Nat) (nfa : Addr) (dst : Dst) (lookahead : Nat)
    (m : ThreadMem) : Option ThreadMem :=
  let n := E.heap nfa
  let xs := n.reachable
  let count := (m.sims sim).loopRecord n.id + 1
  let m := m.modify sim fun t =>
    setCount { t with intervalCount := t.intervalCount + 1 } n.id count
  if count < n.minRep then
    let m := m.modify sim (track · 1)
    match forEach E load fuel nfa 1 n.splitIdx sim dst lookahead m with
    | none => none
    | some m => loadAt load sim xs 0 dst lookahead m
  else if 0 < n.maxRep then
    if count < n.maxRep then
      let m := m.modify sim (track · 1)
      if n.cycleFlag ∧ m.ctrl.lastIntervalPos = lookahead then
        loadExit E load fuel sim nfa dst lookahead
          (m.modify sim fun t => track (setCount t n.id 0) (-1))
      else
        let m := if n.cycleFlag then m.onCtrl fun c => c.setIntervalPos lookahead else m
        match forEach E load fuel nfa 0 n.splitIdx sim dst lookahead m with
        | none => none
        | some m =>
          loadExit E load fuel sim nfa dst lookahead
            (m.modify sim fun t => track (setCount t n.id 0) (-1))
    else
      let m := m.modify sim fun t => setCount (track t (-1)) n.id 0
      if n.cycleFlag then
        match forEach E load fuel nfa 1 xs.length sim dst lookahead m with
        | none => none
        | some m => loadAt load sim xs 0 dst lookahead m
      else loadExit E load fuel sim nfa dst lookahead m
  else
    -- unbounded upper limit
    let m := m.modify sim (track · 1)
    match forEach E load fuel nfa 0 n.splitIdx sim dst lookahead m with
    | none => none
    | some m =>
      loadExit E load fuel sim nfa dst lookahead
        (if n.acceptsFlag then m else m.modify sim (setCount · n.id 0))

/-- The default case of `load_next`. -/
def loadDefault (sim : Nat) (nfa : Addr) (dst : Dst) (lookahead : Nat) (m : ThreadMem) :
    ThreadMem :=
  let n := E.heap nfa
  let m := m.modify sim (setStatus · (-1))
  if (m.sims sim).trackingIntervals ≠ 0 ∨ m.ctrl.activeThreadsSp n.id ≠ lookahead then
    if E.passesLookahead n lookahead then
      ((m.onCtrl fun c => c.stamp n.id lookahead).modify sim (settle · nfa)).simPoolAppend dst.list
        sim
    else m
  else m

/-- One call of `load_next` over the loader its own calls use. -/
def loadNextBody (fuel : Nat) (sim : Nat) (nfa : Addr) (dst : Dst) (lookahead : Nat)
    (m : ThreadMem) : Option ThreadMem :=
  let n := E.heap nfa
  let m := m.modify sim (visit · nfa lookahead)
  match n.type with
  | .capturegrpBegin =>
    processAdjacents E load sim nfa dst lookahead (m.modify sim (beginGroup · n.id lookahead))
  | .capturegrpEnd =>
    processAdjacents E load sim nfa dst lookahead (m.modify sim (endGroup · n.id lookahead))
  | .interval => loadInterval E load fuel sim nfa dst lookahead m
  | .accepting => some ((m.modify sim (settle · nfa)).simPoolAppend .active sim)
  | _ => some (loadDefault E sim nfa dst lookahead m)

end Load

/-- `load_next`, with the number of nested calls bounded. -/
def loadNext (E : Env) : Nat → MemLoader
  | 0 => fun _ _ _ _ _ => none
  | fuel + 1 => loadNextBody E (loadNext E fuel) fuel

/-- `process_adjacents` as `thread_step` calls it. -/
def stepAdjacents (E : Env) (fuel : Nat) (sim : Nat) (dst : Dst) (lookahead : Nat)
    (m : ThreadMem) : Option ThreadMem :=
  processAdjacents E (loadNext E fuel) sim (m.sims sim).ip dst lookahead m

/-- The `NFA_BACKREFERENCE` case of `thread_step`. -/
def stepBackreference (E : Env) (fuel : Nat) (sim : Nat) (m : ThreadMem) : Option ThreadMem :=
  let m := m.modify sim (openBackreference E · m.ctrl.curPos)
  let t := m.sims sim
  if t.brefPtr ≠ 0 ∧ E.input m.ctrl = E.line.deref t.brefPtr then
    if t.brefPtr = (t.backrefMatch (E.heap t.ip).id).stop then
      stepAdjacents E fuel sim .next (m.ctrl.curPos + 1)
        (m.modify sim (closeBackreference · m.ctrl.curPos))
    else some ((m.modify sim nextInSpan).simPoolAppend .next sim)
  else some (m.modify sim (setStatus · (-1)))

/-- `thread_step`. -/
def threadStep (E : Env) (fuel : Nat) (sim : Nat) (m : ThreadMem) : Option ThreadMem :=
  let n := E.heap (m.sims sim).ip
  let m := m.onCtrl fun c => c.stamp n.id 0
  let input := E.input m.ctrl
  let curPos := m.ctrl.curPos
  let fail := some (m.modify sim (setStatus · (-1)))
  let consume := stepAdjacents E fuel sim .next (curPos + 1) (m.modify sim (updateMatch · curPos))
  if input ≠ 0 then
    match n.type with
    | .any => if input ≠ eolSymbol then consume else fail
    | .literal => if input = E.instToken n then consume else fail
    | .range =>
      if input ≠ eolSymbol ∧ isLiteralInRange n.range input then consume else fail
    | .backreference => stepBackreference E fuel sim m
    | .bolAnchor =>
      if curPos = E.line.buffer then stepAdjacents E fuel sim .active curPos m else fail
    | .eolAnchor => if input = eolSymbol then stepAdjacents E fuel sim .next curPos m else fail
    | .accepting => some (m.modify sim (setStatus · 1))
    | _ => fail
  else some (m.modify sim (setStatus · 1))

/-- The body of the loop of `load_start_states`; the loop records of a thread from the pool are
cleared. -/
def loadStartState (E : Env) (fuel : Nat) (lookahead : Nat) (nfa : Addr) (m : ThreadMem) :
    Option ThreadMem :=
  let (clone, newThread, m) := m.takeThread
  let m := if newThread then m else m.modify clone fun t => { t with loopRecord := fun _ => 0 }
  let m := m.modify clone (startFrom · nfa)
  if (E.heap nfa).type = .range then
    if isLiteralInRange (E.heap nfa).range (E.line.deref lookahead) then
      some ((m.modify clone (visit · nfa lookahead)).simPoolAppend .active clone)
    else some (m.simPoolAppend .pool clone)
  else
    match loadNext E fuel clone nfa .active lookahead m with
    | none => none
    | some m => some (if (m.sims clone).status = -1 then m.simPoolAppend .pool clone else m)

/-- `load_start_states`. -/
def loadStartStates (E : Env) (fuel : Nat) (lookahead : Nat) (m : ThreadMem) : Option ThreadMem :=
  (E.heap E.startState).reachable.foldlM (fun m nfa => loadStartState E fuel lookahead nfa m) m

/-- `find_keyword_start_pos`. -/
def findKeywordStartPos (E : Env) (kw : KwSearch) (fuel : Nat) (m : ThreadMem) :
    Option ThreadMem :=
  let m := m.onCtrl (searchLine E kw)
  if m.ctrl.kwRecords = [] then some m
  else
    let (mr, ctrl) := m.ctrl.kwNextMatch
    match mr with
    | none => none
    | some mr => loadStartStates E fuel mr.beg { m with ctrl := seek ctrl mr.beg }

/-- `reset_thread`, which fails when there is no thread in the pool. -/
def resetThread (E : Env) (fuel : Nat) (startPos : Nat) (m : ThreadMem) :
    Option (Nat × ThreadMem) :=
  if (m.lists .pool).head = 0 then none
  else (loadStartStates E fuel startPos m).map (simPoolShift · .active)

/-- `release_thread`. -/
def releaseThread (m : ThreadMem) (sim : Nat) : Nat × ThreadMem :=
  (m.simPoolAppend .pool sim).simPoolShift .active

end ThreadMem

/-- The local variables of `run_nfa` with the memory of the threads. -/
structure ThreadRun where
  mem : ThreadMem
  thread : Nat := 0
  inputPointer : Nat
  currentRun : Bool := false
  matchFound : Bool := false

namespace ThreadRun

/-- What one round leads to: another round, or the label `RELEASE_ALL_THREADS`. -/
inductive Outcome where
  | running (s : ThreadRun)
  | released (s : ThreadRun)

/-- Go on with the thread taken from a list. -/
def hold (s : ThreadRun) (p : Nat × ThreadMem) : ThreadRun :=
  { s with thread := p.1, mem := p.2 }

/-- The assignment `current_run = match_found = 1`. -/
def markFound (s : ThreadRun) : ThreadRun := { s with currentRun := true, matchFound := true }

/-- The variables for an attempt at another position. -/
def moveTo (s : ThreadRun) (pos : Nat) : ThreadRun :=
  { s with inputPointer := pos, currentRun := false }

/-- The `MATCH` case of the inner loop of `run_nfa`. -/
def matchCase (E : Env) (s : ThreadRun) (m : ThreadMem) : Outcome :=
  let sim := s.thread
  let s := s.markFound
  if E.flags.individualMatches then
    let m := m.onCtrl fun c => c.setMatch (updateLongestMatch c.curMatch (m.sims sim).curMatch)
    if E.flags.mglobal then .running (s.hold (m.releaseThread sim))
    else .released (s.hold (sim, m.onCtrl (newMatch E)))
  else if E.flags.bailEarly then .running (s.hold (m.releaseThread sim))
  else .released (s.hold (sim, m))

/-- One round of the inner loop of `run_nfa` on the thread it holds. -/
def innerRound (E : Env) (fuel : Nat) (s : ThreadRun) : Option Outcome :=
  match s.mem.threadStep E fuel s.thread with
  | none => none
  | some m =>
    let status := (m.sims s.thread).status
    if status = 1 then some (matchCase E s m)
    else if status = -1 then some (.running (s.hold (m.releaseThread s.thread)))
    else some (.running (s.hold (m.simPoolShift .active)))

/-- The test of the outer loop. -/
def testInput (E : Env) (s : ThreadRun) : Outcome :=
  if E.line.deref s.inputPointer ≠ 0 then .running s else .released s

/-- The branch of the outer loop that starts at another position of the line. -/
def restart (E : Env) (fuel : Nat) (s : ThreadRun) : Option Outcome :=
  let m := if E.flags.lineOrInvert then s.mem else s.mem.onCtrl (newMatch E)
  let (pos, ctrl) := updateInputPointer E s.currentRun s.inputPointer m.ctrl
  match ThreadMem.resetThread E fuel pos { m with ctrl := beginAttempt ctrl pos } with
  | none => none
  | some p => some (testInput E ((s.moveTo pos).hold p))

/-- The rest of the outer round, once the inner loop has run out of threads. -/
def outerRound (E : Env) (fuel : Nat) (s : ThreadRun) : Option Outcome :=
  if (s.mem.lists .next).head ≠ 0 then
    let (thread, m) := s.mem.swapNextWActive.simPoolShift .active
    some (testInput E (s.hold (thread, m.onCtrl fun c => { c with curPos := c.curPos + 1 })))
  else restart E fuel s

/-- One round of `run_nfa`. -/
def runStep (E : Env) (fuel : Nat) (s : ThreadRun) : Option Outcome :=
  if s.thread ≠ 0 then innerRound E fuel s else outerRound E fuel s

/-- The part of `run_nfa` before its loops. -/
def startRun (E : Env) (fuel : Nat) (m : ThreadMem) : Option Outcome :=
  let m := m.onCtrl beginRun
  match E.kw with
  | some kw =>
    match m.findKeywordStartPos E kw fuel with
    | none => none
    | some m =>
      let (thread, m') := m.simPoolShift .active
      let s : ThreadRun := { mem := m', thread := thread, inputPointer := m.ctrl.curPos }
      some (if thread = 0 then .released s else testInput E s)
  | none =>
    match m.loadStartStates E fuel m.ctrl.curPos with
    | none => none
    | some m' =>
      let (thread, m') := m'.simPoolShift .active
      some (testInput E { mem := m', thread := thread, inputPointer := m.ctrl.curPos })

/-- The loops of `run_nfa`, with the number of rounds bounded. -/
def runLoop (E : Env) (fuel : Nat) : Nat → Outcome → Option ThreadRun
  | _, .released s => some s
  | 0, .running _ => none
  | k + 1, .running s =>
    match runStep E fuel s with
    | none => none
    | some o => runLoop E fuel k o

/-- The part of `run_nfa` after its loops. -/
def finishRun (E : Env) (s : ThreadRun) : Bool × ThreadMem :=
  let m := s.mem.releaseAllThreads s.thread
  let m :=
    if (s.matchFound = false ∧ E.flags.invertMatch) ∨ (s.matchFound ∧ E.flags.showMatchLine) then
      m.onCtrl fun c => newMatch E (c.setMatch ⟨c.bufferStart, c.bufferEnd - 1⟩)
    else m
  (s.matchFound, if E.kw.isSome then m.onCtrl NFASimCtrl.kwClearMatches else m)

end ThreadRun

namespace ThreadMem

/-- `run_nfa`; `fuel` bounds the nesting of loads and the number of rounds. -/
def runNfa (E : Env) (fuel : Nat) (m : ThreadMem) : Option (Bool × ThreadMem) := do
  let o ← ThreadRun.startRun E fuel m
  let s ← ThreadRun.runLoop E fuel fuel o
  some (s.finishRun E)

/-- `new_nfa_sim`: the pool holds one thread, whose node is the start state. -/
def newNfaSim (E : Env) : ThreadMem :=
  ({ ctrl := { iterIdx := fun a => (E.heap a).iterIdx }
     sims := Function.update (fun _ => {}) 1 { ip := E.startState }
     allocated := 1 } : ThreadMem).setList .pool ⟨1, 1⟩

/-- One line through `reset_nfa_sim` and `run_nfa`. -/
def runLine (E : Env) (fuel : Nat) (m : ThreadMem) : Option (Bool × List Match × ThreadMem) := do
  let (value, m) ← runNfa E fuel (m.onCtrl fun c => resetNfaSim E.line { c with reports := [] })
  some (value, m.ctrl.reports, m)

/-- The loop of `process_file` on lines read one after another. -/
def runLines (E : Env) (fuel : Nat) :
    List Line → ThreadMem → Option (List (Bool × List Match) × ThreadMem)
  | [], m => some ([], m)
  | line :: rest, m => do
    let (value, reports, m) ← runLine (E.onLine line) fuel m
    let (results, m) ← runLines E fuel rest m
    some ((value, reports) :: results, m)

/-- The loop of `free_nfa_sim`, which takes threads from the pool until it answers `NULL`; the
addresses given to `free`, in order. -/
def freePool : Nat → ThreadMem → Option (List Nat × ThreadMem)
  | 0, _ => none
  | fuel + 1, m =>
    let (tmp, m) := m.simPoolShift .pool
    if tmp ≠ 0 then
      match freePool fuel m with
      | none => none
      | some (freed, m) => some (tmp :: freed, m)
    else some ([], m)

/-- `free_nfa_sim` up to the keyword search and the control block: the threads it frees. -/
def freeNfaSim (fuel : Nat) (m : ThreadMem) : Option (List Nat) :=
  let m := m.releaseAllThreads 0
  if (m.lists .pool).head ≠ 0 then (freePool fuel m).map Prod.fst else some []

end ThreadMem

end Recognizer
