import Recognizer.Source.Misc

/-!
# NFA nodes, their allocator and the constructors of `nfa.c`

Nodes live in a heap indexed by address. The allocator keeps its free ring as
the list of its members starting at `free`; the rings of all pools are one,
since a released node always joins the newest. A branch list of a `TREE` node
records its chain, its size and its tail separately, because `list_transfer`
appends through the tail pointer and `list_transfer_on_match` may leave it on a
released item.
-/

namespace Recognizer

/-- The node types the parser can produce. -/
inductive NfaType where
  | any | literal | range | split | epsilon | accepting | bolAnchor | eolAnchor
  | interval | backreference | capturegrpEnd | capturegrpBegin | tree
  deriving DecidableEq, Repr

/-- A `List` of branches: `items` is the chain from `head`. While `attached`
holds, `tail` is the last item of that chain. -/
structure BranchList where
  items : List Addr := []
  size : Nat := 0
  tail : Addr := 0
  attached : Bool := true
  deriving DecidableEq, Repr

namespace BranchList

/-- `list_get_at`: the last index answers from the tail pointer, the others walk
the chain, which may be shorter than `size`. -/
def getAt (l : BranchList) (idx : Nat) : Addr :=
  if l.items = [] ∨ l.size ≤ idx then 0
  else if idx = 0 then l.items.headD 0
  else if idx = l.size - 1 then l.tail
  else l.items.getD idx 0

/-- `list_transfer`. An append through a tail that is not on the chain is lost
to every walk from `head`. -/
def transfer (dst src : BranchList) : BranchList :=
  if src.items = [] then dst
  else if dst.items = [] then
    { src with size := dst.size + src.size }
  else
    { items := if dst.attached then dst.items ++ src.items else dst.items
      size := dst.size + src.size
      tail := src.tail
      attached := dst.attached && src.attached }

end BranchList

/-- An `NFA` node. The union of `value` is kept as separate members, of which
the node's type selects the ones the source reads. -/
structure NFA where
  parent : Addr := 0
  out1 : Addr := 0
  out2 : Addr := 0
  doneFlag : Bool := false
  cycleFlag : Bool := false
  visitedFlag : Bool := false
  acceptsFlag : Bool := false
  reachable : List Addr := []
  iterIdx : Int := 0
  id : Nat := 0
  type : NfaType := .any
  minRep : Int := 0
  maxRep : Int := 0
  splitIdx : Nat := 0
  range : BitVec 128 := 0
  branches : BranchList := {}
  literal : Int := 0
  deriving DecidableEq, Repr

/-- Contents of the node memory. -/
abbrev Heap := Addr → NFA

namespace Heap

/-- Overwrite members of the node at `a`. -/
def modify (h : Heap) (a : Addr) (f : NFA → NFA) : Heap := Function.update h a (f (h a))

@[simp] theorem modify_self (h : Heap) (a : Addr) (f : NFA → NFA) : h.modify a f a = f (h a) := by
  simp [modify]

theorem modify_of_ne (h : Heap) {a b : Addr} (hne : b ≠ a) (f : NFA → NFA) :
    h.modify a f b = h b := by
  simp [modify, hne]

theorem modify_apply (h : Heap) (a b : Addr) (f : NFA → NFA) :
    h.modify a f b = if b = a then f (h a) else h b := by
  by_cases hb : b = a
  · subst hb
    simp
  · simp [hb, modify_of_ne]

end Heap

/-- `NFAlloc`: the free ring, the size of the newest pool and the first address
no pool has used yet. -/
structure NFAlloc where
  free : List Addr
  poolSize : Nat
  nextAddr : Addr
  deriving DecidableEq, Repr

/-- `NFACtrl` together with the memory of its nodes. -/
structure NFACtrl where
  heap : Heap := fun _ => {}
  alloc : NFAlloc := ⟨[], 0, 1⟩
  nextSeqId : Nat := 1
  nextIntervalSeqId : Nat := 0

namespace NFACtrl

/-- `nfa_alloc_init`: one ring of `num` nodes in address order. -/
def allocInit (c : NFACtrl) (num : Nat) : NFACtrl :=
  { c with alloc := ⟨List.range' 1 num, num, num + 1⟩ }

/-- `nfa_alloc_expand`: the upper half of a pool of twice the size becomes the ring. -/
def allocExpand (a : NFAlloc) : NFAlloc :=
  ⟨List.range' a.nextAddr a.poolSize, 2 * a.poolSize, a.nextAddr + a.poolSize⟩

/-- `nfa_alloc`. -/
def nfaAlloc (c : NFACtrl) : Addr × NFACtrl :=
  let a := if c.alloc.free = [] then allocExpand c.alloc else c.alloc
  match a.free with
  | [] => (0, { c with alloc := a })
  | n :: rest => (n, { c with alloc := { a with free := rest } })

/-- `nfa_dealloc`: the node enters the ring behind its head. -/
def nfaDealloc (c : NFACtrl) (n : Addr) : NFACtrl :=
  if n = 0 then c
  else
    match c.alloc.free with
    | [] => { c with alloc := { c.alloc with free := [n] } }
    | f :: rest => { c with alloc := { c.alloc with free := f :: n :: rest } }

/-- Overwrite members of a node. -/
def modify (c : NFACtrl) (a : Addr) (f : NFA → NFA) : NFACtrl :=
  { c with heap := c.heap.modify a f }

/-- `new_nfa`: `flags`, `reachable` and the rest of `value` keep what the memory held. -/
def newNfa (c : NFACtrl) (type : NfaType) : Addr × NFACtrl :=
  let (n, c) := c.nfaAlloc
  (n, c.modify n fun x => { x with id := 0, type := type, parent := 0, out1 := 0, out2 := 0 })

/-- `mark_nfa`. -/
def markNfa (c : NFACtrl) (n : Addr) : NFACtrl :=
  if (c.heap n).id = 0 then
    { c.modify n fun x => { x with id := c.nextSeqId } with nextSeqId := c.nextSeqId + 1 }
  else c

/-- `mark_interval_nfa`. -/
def markIntervalNfa (c : NFACtrl) (n : Addr) : NFACtrl :=
  if (c.heap n).id = 0 then
    { c.modify n fun x => { x with id := c.nextIntervalSeqId } with
      nextIntervalSeqId := c.nextIntervalSeqId + 1 }
  else c

/-- `new_literal_nfa`; the accepting node is allocated first. -/
def newLiteralNfa (c : NFACtrl) (literal : Int) (type : NfaType) : Addr × NFACtrl :=
  let (accept, c) := c.newNfa .accepting
  let (start, c) := c.newNfa type
  let c := c.markNfa start
  let c := c.modify start fun x => { x with literal := literal, out1 := accept, out2 := accept }
  (accept, c.modify accept fun x => { x with parent := start })

/-- `new_range_nfa`. -/
def newRangeNfa (c : NFACtrl) (negate : Bool) : Addr × NFACtrl :=
  let (start, c) := c.newNfa .range
  let (accept, c) := c.newNfa .accepting
  let c := c.markNfa start
  let c := c.modify start fun x =>
    { x with range := if negate then BitVec.allOnes 128 else 0 }
  let c := c.modify accept fun x => { x with parent := start }
  (accept, c.modify start fun x => { x with out1 := accept, out2 := accept })

/-- `update_range_nfa`: the loop sets or clears one bit for each value from `low` to `high`. -/
def updateRangeNfa (c : NFACtrl) (low high : Nat) (n : Addr) (negate : Bool) : NFACtrl :=
  (List.range' low (high + 1 - low)).foldl (fun c i =>
    c.modify n fun x =>
      { x with range := if negate then x.range &&& ~~~(1#128 <<< i) else x.range ||| (1#128 <<< i) }) c

/-- `new_backreference_nfa`: the identifier is the group's, no sequence number is drawn. -/
def newBackreferenceNfa (c : NFACtrl) (captureGroupId : Nat) : Addr × NFACtrl :=
  let (start, c) := c.newNfa .backreference
  let (accept, c) := c.newNfa .accepting
  let c := c.modify start fun x => { x with id := captureGroupId, out1 := accept, out2 := accept }
  (accept, c.modify accept fun x => { x with parent := start })

/-- The loop `while((target->value.type == NFA_EPSILON) && (target = target->out2));`. -/
def skipEpsilon (h : Heap) : Nat → Addr → Addr
  | 0, target => target
  | fuel + 1, target =>
    if (h target).type = .epsilon then
      if (h target).out2 = 0 then 0 else skipEpsilon h fuel (h target).out2
    else target

/-- As many steps as there are node addresses leave every chain of `EPSILON` nodes. -/
def tighten (c : NFACtrl) (target : Addr) : Addr := skipEpsilon c.heap c.alloc.nextAddr target

/-- `new_kleene_nfa`. -/
def newKleeneNfa (c : NFACtrl) (body : Addr) : Addr × NFACtrl :=
  let (start, c) := c.newNfa .split
  let (accept, c) := c.newNfa .accepting
  let bodyStart := (c.heap body).parent
  let c := c.modify start fun x =>
    { x with id := (c.heap bodyStart).id, literal := 63, out1 := accept, out2 := bodyStart }
  let c := c.modify body fun x => { x with type := .split, literal := 42, out2 := accept }
  let c := c.modify body fun x => { x with out1 := c.tighten bodyStart }
  (accept, c.modify accept fun x => { x with parent := start })

/-- `new_qmark_nfa`. -/
def newQmarkNfa (c : NFACtrl) (body : Addr) : Addr × NFACtrl :=
  let (start, c) := c.newNfa .split
  let (accept, c) := c.newNfa .accepting
  let bodyStart := (c.heap body).parent
  let c := c.modify start fun x =>
    { x with id := (c.heap bodyStart).id, out1 := accept, out2 := bodyStart, literal := 63 }
  let c := c.modify body fun x => { x with type := .epsilon, out1 := accept, out2 := accept }
  (accept, c.modify accept fun x => { x with parent := start })

/-- `new_posclosure_nfa`. -/
def newPosclosureNfa (c : NFACtrl) (body : Addr) : Addr × NFACtrl :=
  let (start, c) := c.newNfa .epsilon
  let (accept, c) := c.newNfa .accepting
  let bodyStart := (c.heap body).parent
  let c := c.modify start fun x =>
    { x with id := (c.heap bodyStart).id, out1 := bodyStart, out2 := bodyStart }
  let c := c.modify body fun x => { x with type := .split, literal := 43 }
  let c := c.modify body fun x => { x with out1 := c.tighten bodyStart }
  let c := c.modify body fun x => { x with out2 := accept }
  (accept, c.modify accept fun x => { x with parent := start })

/-- `new_interval_nfa`; the last two components are `*t_reachable` and `*ret_interval`. -/
def newIntervalNfa (c : NFACtrl) (target : Addr) (min max : Int) :
    Addr × Addr × Addr × NFACtrl :=
  let (start, c) := c.newNfa .epsilon
  let (accept, c) := c.newNfa .accepting
  let (newInterval, c) := c.newNfa .interval
  let bodyStart := (c.heap target).parent
  let c :=
    if min = 0 then
      c.modify start fun x =>
        { x with type := .split, literal := 63, out1 := bodyStart, out2 := accept }
    else c.modify start fun x => { x with out1 := bodyStart, out2 := bodyStart }
  let min := if min = 0 then min + 1 else min
  let c := c.modify start fun x => { x with id := (c.heap bodyStart).id }
  let c := c.modify target fun x => { x with type := .epsilon, out2 := newInterval }
  let c := c.markIntervalNfa newInterval
  let c := c.modify newInterval fun x => { x with minRep := min, maxRep := max, splitIdx := 0 }
  let tmp := c.tighten bodyStart
  let c := c.modify newInterval fun x => { x with out1 := tmp, out2 := accept }
  (accept, tmp, newInterval, c.modify accept fun x => { x with parent := start })

/-- `concatenate_nfa`: the first node of `next` is copied over the accepting node
of `prev` and released. -/
def concatenateNfa (c : NFACtrl) (prev next : Addr) : Addr × NFACtrl :=
  if next = 0 then (prev, c)
  else if prev = 0 then (next, c)
  else
    let discardNode := (c.heap next).parent
    let tmp := (c.heap prev).parent
    let c := c.modify prev fun _ => c.heap discardNode
    let c := c.modify next fun x => { x with parent := tmp }
    let c := c.modify discardNode fun x =>
      { x with parent := discardNode, out1 := 0, out2 := 0, literal := 0 }
    (next, c.nfaDealloc discardNode)

/-- One round of the loop of `new_lliteral_nfa`. -/
def appendLiteral (t : Addr × NFACtrl) (s : Int) : Addr × NFACtrl :=
  let (right, c) := t.2.newLiteralNfa s .literal
  c.concatenateNfa t.1 right

/-- `new_lliteral_nfa` on the characters `src`. For no characters it is `NULL` here, where
the source reads `src[0]`; every caller passes at least one. -/
def newLliteralNfa (c : NFACtrl) : List Int → Addr × NFACtrl
  | [] => (0, c)
  | s :: src =>
    src.foldl appendLiteral (c.newLiteralNfa s .literal)

/-- The loop of `list_transfer_on_match` with `is_nfa_tree` as its comparison:
accepting nodes of trees are redirected to `terminator`, their branch lists are
collected and their `TREE` nodes released; the other items stay. -/
def collectTrees (c : NFACtrl) (terminator : Addr) : List Addr → List Addr × List BranchList × NFACtrl
  | [] => ([], [], c)
  | nfa :: rest =>
    let p := (c.heap nfa).parent
    if p ≠ 0 ∧ (c.heap p).type = .tree then
      let c := c.modify nfa fun x => { x with type := .epsilon, out2 := terminator }
      let sub := (c.heap p).branches
      let (items, subs, c) := collectTrees (c.nfaDealloc p) terminator rest
      (items, sub :: subs, c)
    else
      let (items, subs, c) := collectTrees c terminator rest
      (nfa :: items, subs, c)

/-- Whether the accepting node `nfa` belongs to a tree. -/
def isNfaTree (c : NFACtrl) (nfa : Addr) : Bool :=
  decide ((c.heap nfa).parent ≠ 0 ∧ (c.heap (c.heap nfa).parent).type = .tree)

/-- The remaining items of `new_alternation_nfa` become their start nodes, and
their accepting nodes lead to the terminator. -/
def redirectBranches (c : NFACtrl) (terminator : Addr) : List Addr → List Addr × NFACtrl
  | [] => ([], c)
  | nfa :: rest =>
    let c := c.modify nfa fun x => { x with type := .epsilon, out2 := terminator }
    let (starts, c') := redirectBranches c terminator rest
    ((c.heap nfa).parent :: starts, c')

/-- `new_alternation_nfa` with a `NULL` terminator. The second component is the
branch stack that is left; an empty stack makes `list_transfer_on_match` read
through `NULL`. -/
def newAlternationNfa (c : NFACtrl) (branchesList : List Addr) (numBranches : Nat) :
    Option (Addr × List Addr × NFACtrl) :=
  if numBranches < 2 then
    some (branchesList.headD 0, branchesList.tail, c)
  else if branchesList = [] then none
  else
    let (start, c) := c.newNfa .tree
    let (terminator, c) := c.newNfa .accepting
    let c := c.modify terminator fun x => { x with parent := terminator }
    let chopped := branchesList.take numBranches
    -- with two or more items left, the tail pointer is not moved off a removed last item
    let lastIsTree := c.isNfaTree (chopped.getLastD 0)
    let (items, subs, c) := c.collectTrees terminator chopped
    let (starts, c) := c.redirectBranches terminator items
    let own : BranchList :=
      { items := starts, size := starts.length, tail := starts.getLastD 0
        attached := !(decide (2 ≤ starts.length) && lastIsTree) }
    let c := c.modify start fun x => { x with branches := subs.foldl BranchList.transfer own }
    let c := c.modify terminator fun x => { x with parent := start }
    some (terminator, branchesList.drop numBranches, c)

end NFACtrl

end Recognizer
