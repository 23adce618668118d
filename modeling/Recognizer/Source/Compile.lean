import Recognizer.Source.Parser

/-!
# Compilation of the graph, `compile.c`

`collect_adjacencies_helper` walks the graph below a node and collects the nodes
a thread can stop at next; `synthesize_pattern` reads keyword prefixes off the
same graph. Both are recursions over a cyclic graph, so they carry a budget and
return `none` when it is spent or when `NULL` would be read.
-/

namespace Recognizer

/-- Add a node to the reachable list of `current` unless it is there. -/
def addReachable (h : Heap) (current visiting : Addr) : Heap :=
  if visiting ∈ (h current).reachable then h
  else h.modify current fun x => { x with reachable := x.reachable ++ [visiting] }

/-- `SET_NFA_VISITED_FLAG` and `CLEAR_NFA_VISITED_FLAG`. -/
def setVisited (h : Heap) (n : Addr) (on : Bool) : Heap :=
  h.modify n fun x => { x with visitedFlag := on }

/-- The last statement of `collect_adjacencies_helper`. -/
def noteAccepts (h : Heap) (current visiting : Addr) : Heap :=
  if (h visiting).type = .accepting then h.modify current fun x => { x with acceptsFlag := true }
  else h

/-- `collect_adjacencies_helper`. The static counter `recursion` is an argument:
every call restores it before it returns. -/
def collectAdjacenciesHelper : Nat → Addr → Addr → Addr → Nat → Heap → Option Heap
  | 0, _, _, _, _, _ => none
  | fuel + 1, current, visiting, forbidden, recursion, h =>
    if visiting = forbidden then some (h.modify current fun x => { x with cycleFlag := true })
    else if visiting = 0 then none
    else
      let walked : Option Heap :=
        if (h visiting).type = .epsilon then do
          let h ← collectAdjacenciesHelper fuel current (h visiting).out2 forbidden (recursion + 1)
            (setVisited h visiting true)
          some (setVisited h visiting false)
        else if (h visiting).visitedFlag then
          match (h visiting).type with
          | .tree | .split => some h
          | _ => some (addReachable h current visiting)
        else
          match (h visiting).type with
          | .tree => do
            let branches := (h visiting).branches
            let h ← (List.range branches.size).foldlM (fun h i =>
              collectAdjacenciesHelper fuel current (branches.getAt i) forbidden (recursion + 1) h)
              (setVisited h visiting true)
            some (setVisited h visiting false)
          | .split =>
            if (h current).type = .interval then do
              let h ← collectAdjacenciesHelper fuel current (h visiting).out1 (h current).out1
                recursion h
              collectAdjacenciesHelper fuel current (h visiting).out2 forbidden recursion h
            else do
              let out2 := (h visiting).out2
              let h ← collectAdjacenciesHelper fuel current (h visiting).out1 forbidden
                (recursion + 1) (setVisited h visiting true)
              let h ← collectAdjacenciesHelper fuel current out2 forbidden (recursion + 1) h
              some (setVisited h visiting false)
          | _ =>
            if current = visiting ∧ recursion = 0 then
              collectAdjacenciesHelper fuel current (h visiting).out2 forbidden (recursion + 1) h
            else some (addReachable h current visiting)
      walked.map fun h => noteAccepts h current visiting

/-- The variables `synthesize_pattern` shares between its calls: the buffer
`root`, the static `print` and the list of patterns. -/
structure Synthesis where
  root : Nat → Int := fun _ => 0
  print : Bool := false
  patterns : List (List Int) := []

/-- `strndup(root, i)`. -/
def strndup (root : Nat → Int) (i : Nat) : List Int :=
  ((List.range i).map root).takeWhile (· ≠ 0)

/-- The part of `synthesize_pattern` after its `switch`; its result is never `-1`. -/
def emitPattern (s : Synthesis) (i : Nat) : Synthesis :=
  let s := if s.print then
    { s with patterns := s.patterns ++ [strndup s.root i], print := false } else s
  { s with root := Function.update s.root i 0 }

/-- `synthesize_pattern`. -/
def synthesizePattern (h : Heap) : Nat → Addr → Nat → Synthesis → Option Synthesis
  | 0, _, _, _ => none
  | fuel + 1, nfa, i, s =>
    if nfa = 0 then none
    else
      match (h nfa).type with
      | .literal => do
        let s := { s with root := Function.update s.root i (h nfa).literal, print := true }
        let s ← synthesizePattern h fuel (h nfa).out2 (i + 1) s
        some (emitPattern s (i + 1))
      | .epsilon | .capturegrpBegin | .capturegrpEnd => do
        let s ← synthesizePattern h fuel (h nfa).out2 i s
        some (emitPattern s i)
      | .tree => do
        let s ← (h nfa).branches.items.foldlM (fun s b => synthesizePattern h fuel b i s) s
        some (emitPattern s i)
      | .split =>
        if (h nfa).literal = 63 then do
          let s ← synthesizePattern h fuel (h nfa).out1 i s
          let s ← synthesizePattern h fuel (h nfa).out2 i s
          some (emitPattern s i)
        else some (emitPattern s i)
      | _ => some (emitPattern { s with print := true } i)

/-- The loop of `compute_mpat_tables` over the start node's reachable list. It
leaves at the first node that is neither a literal nor accepting; the patterns
found before stay. -/
def computeMpatTables (h : Heap) (fuel : Nat) : List Addr → Synthesis → Option Synthesis
  | [], s => some s
  | nfa :: rest, s =>
    match (h nfa).type with
    | .literal => do
      let s ← synthesizePattern h fuel nfa 0 s
      computeMpatTables h fuel rest s
    | .accepting => computeMpatTables h fuel rest s
    | _ => some s

/-- The body of the work list loop for a newly found node. -/
def expandNode (fuel : Nat) (visiting : Addr) (h : Heap) : Option Heap := do
  let h := setVisited h visiting true
  let h ←
    if (h visiting).type = .interval then do
      let h ← collectAdjacenciesHelper fuel visiting (h visiting).out1 0 0 h
      let loopPart := (h visiting).reachable
      let h := h.modify visiting fun x =>
        { x with splitIdx := loopPart.length, reachable := []
                 iterIdx := if loopPart = [] then x.iterIdx else -1 }
      let h ← collectAdjacenciesHelper fuel visiting (h visiting).out2 0 0 h
      some (h.modify visiting fun x =>
        { x with reachable := loopPart ++ x.reachable
                 iterIdx := if x.reachable = [] then x.iterIdx else -1 })
    else if (h visiting).type = .split then do
      let h ← collectAdjacenciesHelper fuel visiting (h visiting).out1 0 0 h
      collectAdjacenciesHelper fuel visiting (h visiting).out2 0 0 h
    else collectAdjacenciesHelper fuel visiting (h visiting).out2 0 0 h
  some (setVisited h visiting false)

/-- The inner loop of `collect_adjacencies` over the reachable list of `current`. -/
def expandReachable (fuel : Nat) (current : Addr) :
    List Addr → List Addr → Heap → Option (List Addr × Heap)
  | [], l, h => some (l, h)
  | visiting :: rest, l, h =>
    if (h visiting).doneFlag then expandReachable fuel current rest l h
    else do
      let h := h.modify visiting fun x => { x with doneFlag := true }
      if current ≠ visiting ∧ (h visiting).type ≠ .accepting then
        let h ← expandNode fuel visiting h
        expandReachable fuel current rest (l ++ [visiting]) h
      else expandReachable fuel current rest l h

/-- The outer loop of `collect_adjacencies`; `i` is both the index into the work
list and the counter compared with `total_collectables`. -/
def expandAll (fuel total : Nat) : Nat → Nat → List Addr → Heap → Option (List Addr × Heap)
  | 0, _, _, _ => none
  | k + 1, i, l, h =>
    if l.length ≤ i ∨ total < i then some (l, h)
    else do
      let current := l.getD i 0
      let (l, h) ← expandReachable fuel current (h current).reachable l h
      expandAll fuel total k (i + 1) l h

/-- `collect_adjacencies`, with the branch stack as the work list. -/
def collectAdjacencies (fuel : Nat) (p : Parser) (start : Addr) (total : Nat) : Option Parser := do
  let h ← collectAdjacenciesHelper fuel start start 0 0 p.ctrl.heap
  let s ← computeMpatTables h fuel (h start).reachable { patterns := p.synthPatterns }
  let (l, h) ← expandAll fuel total (total + 2) 0 (p.branchStack ++ [start]) h
  some { p with ctrl := { p.ctrl with heap := h }, branchStack := l, synthPatterns := s.patterns }

/-- `compile_regex`. -/
def compileRegex (fuel : Nat) (p : Parser) : Option Parser :=
  collectAdjacencies fuel p (p.ctrl.heap p.peek).parent (p.totalNfaIds + p.intervalCount)

end Recognizer
