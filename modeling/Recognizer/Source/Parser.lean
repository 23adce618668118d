import Recognizer.Source.Scanner
import Recognizer.Source.Nfa

/-!
# The pattern parser of `regex_parser.c`

The parser's record, its capture group accounting, interval and bracket
expressions and the mutually recursive descent. Stack entries are addresses of
accepting nodes, with zero for the `NULL` separators. A run ends in a parser
state, in one of the program's two exits, in a dereference of `NULL`, in the
overflow of an `int`, or, when the recursion budget is spent, in `hang`.
-/

namespace Recognizer

/-- How a run of the parser can fail to return. -/
inductive ParseError where
  | parserFatal (msg : String) (here : Nat)
  | fatal (msg : String)
  | nullDeref
  | intOverflow
  | hang
  deriving DecidableEq, Repr

/-- `CaptureGrpRecord`; the member `end` is the offset of the closing parenthesis. -/
structure CaptureGrpRecord where
  nextId : Nat := 0
  stop : Option Nat := none
  deriving DecidableEq, Repr

/-- `Parser`. -/
structure Parser where
  scanner : Scanner
  ctrl : NFACtrl := {}
  symbolStack : List Addr := []
  branchStack : List Addr := []
  lookahead : Token := {}
  synthPatterns : List (List Int) := []
  parenStack : Nat → Int := fun _ => 0
  prevInterval : Addr := 0
  prevIntervalHead : Addr := 0
  parenCount : Int := 0
  subtreeBranchCount : Int := 0
  cgrpCount : Int := 0
  currentCgrp : Int := 0
  inNewCgrp : Bool := false
  parenIdx : Nat := 0
  inAlternation : Nat := 0
  treeCount : Nat := 0
  branch : Nat := 0
  lowestIdOnBranch : Nat := 0
  intervalCount : Nat := 0
  totalNfaIds : Nat := 0
  capgrpRecord : Nat → CaptureGrpRecord := fun _ => {}
  cgrpMap : Nat → Bool := fun _ => false

namespace Parser

/-- The result of a parsing routine. -/
abbrev Result := Except ParseError Parser

/-- Overwrite members of a node. -/
def modify (p : Parser) (a : Addr) (f : NFA → NFA) : Parser := { p with ctrl := p.ctrl.modify a f }

/-- `parser_fatal` at the read head moved back by `back`. -/
def parserFatal (p : Parser) (msg : String) (back : Nat := 0) : Result :=
  .error (.parserFatal msg (p.scanner.readhead - back))

/-- `push` on the symbol stack. -/
def push (p : Parser) (n : Addr) : Parser := { p with symbolStack := n :: p.symbolStack }

/-- `pop` of the symbol stack, `NULL` when it is empty. -/
def pop (p : Parser) : Addr × Parser :=
  (p.symbolStack.headD 0, { p with symbolStack := p.symbolStack.tail })

/-- `peek`. -/
def peek (p : Parser) : Addr := p.symbolStack.headD 0

/-- `push(s, concatenate_nfa(left, right))`. -/
def pushConcatenated (p : Parser) (left right : Addr) : Parser :=
  let (nfa, ctrl) := p.ctrl.concatenateNfa left right
  { p with ctrl := ctrl }.push nfa

/-- The sequence `right = pop; left = pop; push(concatenate_nfa(left, right))`. -/
def concatenateTop (p : Parser) : Parser :=
  let (right, p) := p.pop
  let (left, p) := p.pop
  p.pushConcatenated left right

/-- Push the automaton a constructor of `nfa.c` builds on an operand, which it
reads through. -/
def quantify (p : Parser) (build : NFACtrl → Addr → Addr × NFACtrl) (body : Addr) : Result :=
  if body = 0 then .error .nullDeref
  else
    let (nfa, ctrl) := build p.ctrl body
    .ok ({ p with ctrl := ctrl }.push nfa)

/-- `parser_consume_token`. -/
def consumeToken (p : Parser) : Parser :=
  let s := p.scanner.regexScan
  { p with scanner := s, lookahead := s.curtoken }

/-- `parser_backtrack`. -/
def backtrack (p : Parser) : Parser :=
  { p with scanner := p.scanner.unput.unput }.consumeToken

/-- `CLEAR_ESCP_FLAG` and `SET_ESCP_FLAG`. -/
def setEscp (p : Parser) (on : Bool) : Parser :=
  { p with scanner := { p.scanner with escpSeq := on } }

/-- `cgrp_has_backref`. -/
def cgrpHasBackref (p : Parser) (i : Int) : Bool :=
  if 0 < i ∧ i ≤ 9 then p.cgrpMap i.toNat else false

/-- `track_capture_group`; `isEnd` selects the type of the marker. -/
def trackCaptureGroup (p : Parser) (isEnd : Bool) : Bool × Parser :=
  let ret := p.cgrpHasBackref p.currentCgrp
  let k := (p.currentCgrp - 1).toNat
  let p :=
    if ret then
      let (right, ctrl) :=
        p.ctrl.newLiteralNfa 2 (if isEnd then .capturegrpEnd else .capturegrpBegin)
      let (left, p) := { p with ctrl := ctrl }.pop
      let marker := (p.ctrl.heap right).parent
      let p :=
        if isEnd then p
        else
          let record := { p.capgrpRecord k with nextId := (p.ctrl.heap marker).id }
          { p with capgrpRecord := Function.update p.capgrpRecord k record }
      let p := p.modify marker fun x =>
        { x with id := (p.parenStack (p.parenIdx - 1) - 1).toNat }
      p.pushConcatenated left right
    else p
  if isEnd then
    let p :=
      if ret then
        let record := { p.capgrpRecord k with stop := some p.scanner.getCurPos }
        { p with capgrpRecord := Function.update p.capgrpRecord k record }
      else p
    (ret, { p with currentCgrp := p.currentCgrp - 1 })
  else (ret, p)

/-- The value of an `int` expression; its overflow leaves it undefined. -/
def asInt (n : Int) : Option Int := if -2147483648 ≤ n ∧ n ≤ 2147483647 then some n else none

/-- An `int` expression; a run in which it overflows has no defined result. -/
def evalInt (n : Int) : Except ParseError Int :=
  match asInt n with
  | none => .error .intOverflow
  | some n => .ok n

/-- A bound of the interval built last, changed by a bound of the next one. -/
def mergeBound (rep bound : Int) : Except ParseError Int :=
  evalInt (if bound = 0 ∨ rep = 0 then rep + bound else rep * bound)

/-- `merge_intervals`. -/
def mergeIntervals (p : Parser) (min max : Int) (target : Addr) :
    Except ParseError (Bool × Parser) :=
  let tmp := p.ctrl.tighten (p.ctrl.heap target).parent
  let prev := p.ctrl.heap p.prevInterval
  if p.prevIntervalHead = tmp ∧ (p.ctrl.heap prev.out2).out2 = 0 then do
    let minRep ← mergeBound prev.minRep min
    let maxRep ← mergeBound prev.maxRep max
    let p := p.modify p.prevInterval fun x => { x with minRep := minRep, maxRep := maxRep }
    .ok (true, p.push target)
  else .ok (false, p)

/-- `DISCARD_WHITESPACE`. -/
def discardWhitespace : Nat → Parser → Result
  | 0, _ => .error .hang
  | fuel + 1, p =>
    if p.lookahead.value = 32 ∨ p.lookahead.value = 9 then discardWhitespace fuel p.consumeToken
    else .ok p

/-- One digit, from `dec_pos` and the variable, in `int` arithmetic. -/
def foldDigit (d : Int) (state : Int × Int) : Option (Int × Int) := do
  let decPos ← asInt (state.1 * 10)
  let scaled ← asInt (state.2 * decPos)
  let interval ← asInt (scaled + (d - 48))
  let decPos ← asInt (decPos + 1)
  some (decPos, interval)

/-- `CONVERT_TO_UINT` from the current values of `dec_pos` and the variable. -/
def convertToUint : Nat → Int → Int → Parser → Except ParseError (Int × Parser)
  | 0, _, _, _ => .error .hang
  | fuel + 1, decPos, interval, p =>
    if p.lookahead.type = .asciidigit then
      match foldDigit p.lookahead.value (decPos, interval) with
      | none => .error .intOverflow
      | some (decPos, interval) => convertToUint fuel decPos interval p.consumeToken
    else .ok (interval, p)

/-- One bound of an interval, behind an opening brace or a comma. -/
def readBound (fuel : Nat) (p : Parser) : Except ParseError (Int × Parser) := do
  let p ← p.consumeToken.discardWhitespace fuel
  let (bound, p) ← convertToUint fuel 0 (-1) p
  let p ← p.discardWhitespace fuel
  .ok (bound, p)

/-- The upper bound of an interval, if there is a comma. -/
def readUpperBound (fuel : Nat) (p : Parser) : Except ParseError (Int × Parser) :=
  if p.lookahead.value = 44 then p.readBound fuel else .ok (-1, p)

/-- A bound of adjacent intervals, with the next one read; a missing one is -1. -/
def combineBound (bound localBound : Int) : Except ParseError Int :=
  if bound = -1 then .ok localBound
  else if localBound ≥ 0 then evalInt (bound * localBound)
  else .ok bound

/-- The `do` loop of `parse_interval_expression`: the combined bounds and the
brace balance of adjacent intervals. -/
def readIntervals : Nat → Int → Int → Parser → Except ParseError (Int × Int × Bool × Parser)
  | 0, _, _, _ => .error .hang
  | fuel + 1, min, max, p => do
    let (localMin, p) ← p.readBound (fuel + 1)
    let (localMax, p) ← p.readUpperBound (fuel + 1)
    let min ← combineBound min localMin
    let max ← combineBound max localMax
    let balance := decide (p.lookahead.type = .closebrace)
    let p := if balance then p.consumeToken else p
    if min = -1 then .ok (min, max, balance, p)
    else if balance ∧ p.lookahead.type = .openbrace then readIntervals fuel min max p
    else .ok (min, max, balance, p)

/-- `new_interval_nfa` with the bookkeeping its two call sites share. -/
def addInterval (p : Parser) (target : Addr) (min max : Int) : Addr × Parser :=
  let (nfa, head, interval, ctrl) := p.ctrl.newIntervalNfa target min max
  (nfa, { p with ctrl := ctrl, prevIntervalHead := head, prevInterval := interval
                 intervalCount := p.intervalCount + 1 })

/-- The last branch of `parse_interval_expression`: with nothing to match the
operand is released. -/
def dropOperand (p : Parser) (target : Addr) : Parser :=
  let p := { p with ctrl := p.ctrl.nfaDealloc target }
  let p :=
    if p.inAlternation ≠ 0 then { p with subtreeBranchCount := p.subtreeBranchCount - 1 } else p
  if p.symbolStack = [] ∧ p.inAlternation = 0 then
    let (accept, ctrl) := p.ctrl.newNfa .accepting
    { p with ctrl := ctrl.modify accept fun x => { x with parent := accept } }.push accept
  else p

/-- `parse_interval_expression`. -/
def parseIntervalExpression (fuel : Nat) (p : Parser) : Result := do
  let (target, p) := p.pop
  let (min, max, balance, p) ← readIntervals fuel (-1) (-1) p
  if balance then
    if max > 0 then
      if min > max then
        p.parserFatal "Invalid interval, min > max" 2
      else if min = 0 ∧ max = 1 then do
        let p ← p.quantify NFACtrl.newQmarkNfa target
        .ok { p with intervalCount := p.intervalCount + 1 }
      else if min = 1 ∧ max = 1 then .ok (p.push target)
      else if target = 0 then .error .nullDeref
      else do
        let min := if min ≥ 0 then min else 0
        let (merged, p) ← p.mergeIntervals min max target
        if merged then .ok p
        else
          let (nfa, p) := p.addInterval target min max
          .ok (p.push nfa)
    else if min = 1 ∧ max = -1 then p.quantify NFACtrl.newPosclosureNfa target
    else if min > 0 ∧ max = -1 then
      if target = 0 then .error .nullDeref
      else
        let (nfa, p) := p.addInterval target min max
        let (left, p) := p.pop
        .ok (p.pushConcatenated left nfa)
    else if min = -1 ∧ max = -1 then p.quantify NFACtrl.newKleeneNfa target
    else .ok (p.dropOperand target)
  else p.parserFatal "Missing closing brace"

/-- `collations[]` of `collations.c`. -/
def collations : List (String × List (Nat × Nat)) :=
  [("alnum", [(65, 90), (97, 122), (48, 57)]), ("alpha", [(65, 90), (97, 122)]),
   ("blank", [(32, 32), (11, 11)]), ("cntrl", [(0, 31), (127, 127)]), ("digit", [(48, 57)]),
   ("graph", [(33, 126)]), ("lower", [(97, 122)]), ("print", [(32, 126)]),
   ("punct", [(33, 47), (58, 64), (91, 96), (123, 126)]), ("space", [(9, 13), (2, 32)]),
   ("upper", [(65, 90)]), ("xdigit", [(65, 78), (97, 102)])]

/-- `update_range_w_collation`: the first class whose name starts with the string. -/
def updateRangeWCollation (c : NFACtrl) (name : List Int) (n : Addr) (negate : Bool) :
    Option NFACtrl :=
  (collations.find? fun e => name.isPrefixOf (bytes e.1)).map fun e =>
    e.2.foldl (fun c r => c.updateRangeNfa r.1 r.2 n negate) c

/-- `update_range_nfa` on the parser's nodes. -/
def updateRange (p : Parser) (low high : Nat) (n : Addr) (negate : Bool) : Parser :=
  { p with ctrl := p.ctrl.updateRangeNfa low high n negate }

/-- The range case of `parse_matching_list`, from the lower bound to the token
after the upper one. -/
def parseRangeBounds (p : Parser) (low : Int) (n : Addr) (negate : Bool) : Result :=
  let p := p.consumeToken
  let lo := toUnsigned low
  let hi := toUnsigned p.lookahead.value
  let invalid := p.parserFatal "Invalid range expression where low_bound > high_bound"
  if 97 ≤ lo ∧ lo ≤ 122 then
    if 97 ≤ hi ∧ hi ≤ 122 then
      if lo > hi then invalid else .ok (p.updateRange lo hi n negate).consumeToken
    else if 65 ≤ hi ∧ hi ≤ 90 then
      .ok ((p.updateRange lo 122 n negate).updateRange 65 hi n negate).consumeToken
    else invalid
  else if lo ≤ hi then
    if 65 ≤ lo ∧ lo ≤ 90 then
      if 65 ≤ hi ∧ hi ≤ 90 then .ok (p.updateRange lo hi n negate).consumeToken else invalid
    else .ok (p.updateRange lo hi n negate).consumeToken
  else invalid

/-- The loop that looks for the closing delimiter of a class name. -/
def skipToDelimiter (delim : SymbolType) : Nat → Token → Parser →
    Except ParseError (Token × Parser)
  | 0, _, _ => .error .hang
  | fuel + 1, prev, p =>
    if p.lookahead.type = .eof then .ok (prev, p)
    else if p.lookahead.type = .closebracket ∧ prev.type = delim then .ok (prev, p)
    else skipToDelimiter delim fuel p.lookahead p.consumeToken

/-- The start of a class name: a closing bracket right behind the delimiter is
skipped, with an automaton for it left on the stack. -/
def openCollation (p : Parser) : Token × Nat × Parser :=
  let prev := p.lookahead
  let strStart := p.scanner.readhead
  let p := p.consumeToken
  if p.lookahead.type = .closebracket then
    let (nfa, ctrl) := p.ctrl.newLiteralNfa p.lookahead.value .literal
    (p.lookahead, p.scanner.readhead, ({ p with ctrl := ctrl }.push nfa).consumeToken)
  else (prev, strStart, p)

/-- The `switch` over the delimiters of a class name. -/
def applyCollation (p : Parser) (delim : SymbolType) (name : List Int) (n : Addr)
    (negate : Bool) : Result :=
  if delim = .colon then
    match updateRangeWCollation p.ctrl name n negate with
    | none => p.parserFatal "Unrecognized character-class"
    | some ctrl => .ok { p with ctrl := ctrl }
  else .ok p

/-- `parse_matching_list`; `len` is the static `matching_list_len`. -/
def parseMatchingList : Nat → Nat → Addr → Bool → Parser → Result
  | 0, _, _, _, _ => .error .hang
  | fuel + 1, len, n, negate, p => do
    let prev := p.lookahead
    let p := p.consumeToken
    let lookahead := p.lookahead
    if prev.type = .eof then .ok p
    else if prev.type = .openbracket ∧
        (lookahead.type = .dot ∨ lookahead.type = .colon ∨ lookahead.type = .equal) then
      let delim := lookahead.type
      let (prev, strStart, p) := p.openCollation
      let (prev, p) ← skipToDelimiter delim (fuel + 1) prev p
      if p.lookahead.type ≠ .closebracket ∧ prev.type ≠ delim then
        p.parserFatal "Malformed bracket expression; missing '.]', ':]' or '=]'"
      else if p.scanner.readhead ≤ strStart + 2 then .ok p
      else
        let name := (p.scanner.buffer.drop strStart).take (p.scanner.readhead - strStart - 2)
        let p ← p.applyCollation delim name n negate
        parseMatchingList fuel (len + 1) n negate p.consumeToken
    else if prev.type = .closebracket ∧ 0 < len then .ok p.backtrack
    else if lookahead.type = .eof then .ok p
    else if lookahead.type = .hyphen then
      let p ← p.parseRangeBounds prev.value n negate
      parseMatchingList fuel (len + 1) n negate p
    else
      let v := toUnsigned prev.value
      parseMatchingList fuel (len + 1) n negate (p.updateRange v v n negate)

/-- The scan of `parse_literal_expression` over a literal run. The result is the
number of characters taken. -/
def scanLiteralRun : Nat → Nat → Parser → Except ParseError (Nat × Parser)
  | 0, _, _ => .error .hang
  | fuel + 1, len, p =>
    match p.lookahead.type with
    | .asciidigit | .alpha =>
      if p.lookahead.value = 92 then .ok (len - 1, p.backtrack)
      else scanLiteralRun fuel (len + 1) p.consumeToken
    | .openbrace | .kleene | .qmark | .plus =>
      let p := p.backtrack
      if len - 1 > 1 then .ok (len - 2, p.backtrack) else .ok (len - 1, p)
    | _ => .ok (len - 1, p.backtrack)

/-- The default branch of `parse_literal_expression`: the accepting node of the
automaton of the characters taken, with the next token as lookahead. -/
def parseLiteralRun (fuel : Nat) (p : Parser) : Except ParseError (Addr × Parser) := do
  let src := p.scanner.getCurPos
  let (len, p) ← scanLiteralRun fuel 2 (p.setEscp false).consumeToken
  let p := p.setEscp true
  let (nfa, ctrl) :=
    if len > 1 then p.ctrl.newLliteralNfa ((List.range len).map fun i => p.scanner.charAt (src + i))
    else p.ctrl.newLiteralNfa (p.scanner.charAt src) .literal
  .ok (nfa, { p with ctrl := ctrl }.consumeToken)

/-- A node of one character in `parse_literal_expression`. -/
def pushSpecial (p : Parser) (type : NfaType) : Parser :=
  let (nfa, ctrl) := p.ctrl.newLiteralNfa p.lookahead.value type
  { p with ctrl := ctrl }.consumeToken.push nfa

/-- The loop of the `PIPE` case that joins everything down to a separator. -/
def joinToSeparator : Nat → Parser → Result
  | 0, _ => .error .hang
  | fuel + 1, p =>
    if p.symbolStack = [] then .ok p
    else
      let (right, p) := p.pop
      let (left, p) := p.pop
      if left = 0 then .ok ((p.push 0).push right)
      else joinToSeparator fuel (p.pushConcatenated left right)

/-- The loop that joins the nodes of the last branch; the result is its automaton. -/
def joinBranch : Nat → Addr → Parser → Except ParseError (Addr × Parser)
  | 0, _, _ => .error .hang
  | fuel + 1, right, p =>
    let (left, p) := p.pop
    if left = 0 then .ok (right, p)
    else
      let (right, ctrl) := p.ctrl.concatenateNfa left right
      joinBranch fuel right { p with ctrl := ctrl }

/-- The loop of `parse_paren_expression` that joins what the group pushed. -/
def joinGroup : Nat → Addr → Parser → Addr × Parser
  | 0, right, p => (right, p)
  | n + 1, right, p =>
    let (left, p) := p.pop
    let (right, ctrl) := p.ctrl.concatenateNfa left right
    joinGroup n right { p with ctrl := ctrl }

/-- The `PIPE` case up to the recursive call: the left operand moves to the
branch stack and a separator is pushed. -/
def beginAlternative (p : Parser) : Result := do
  let p := { p with
    treeCount := p.treeCount + (if p.inAlternation ≠ 0 then 0 else 1)
    branch := p.branch + 1
    inAlternation := p.inAlternation + 1
    lowestIdOnBranch := p.ctrl.nextSeqId }.consumeToken
  let p ← p.joinToSeparator (p.symbolStack.length + 1)
  let (left, p) := p.pop
  let p := if left ≠ 0 then { p with branchStack := left :: p.branchStack } else p
  let p :=
    if p.inNewCgrp then { p with subtreeBranchCount := 2, inNewCgrp := false }
    else { p with subtreeBranchCount := p.subtreeBranchCount + 1 }
  .ok (p.push 0)

/-- The last branch of an alternation moves to the branch stack. -/
def moveLastBranch (p : Parser) : Result :=
  if p.peek ≠ 0 then do
    let (right, p) := p.pop
    let (right, p) ← p.joinBranch (p.symbolStack.length + 1) right
    .ok { p.push 0 with branchStack := right :: p.branchStack }
  else .ok p

/-- The alternation of the branches on the branch stack is pushed. -/
def pushAlternation (p : Parser) : Result :=
  let p := { p with inAlternation := p.inAlternation - 1 }
  let numBranches :=
    if p.inAlternation = 0 then p.branchStack.length else toUnsigned p.subtreeBranchCount
  match p.ctrl.newAlternationNfa p.branchStack numBranches with
  | none => .error .nullDeref
  | some (left, branchStack, ctrl) =>
    let p := { p with ctrl := ctrl, branchStack := branchStack, subtreeBranchCount := 0 }.push left
    .ok (if p.inAlternation = 0 then { p with branch := 0 } else p)

/-- The `PIPE` case after the recursive call. -/
def endAlternative (p : Parser) : Result := do
  let p ← p.moveLastBranch
  p.pushAlternation

/-- `update_open_paren_accounting`; the first component is the saved branch count. -/
def updateOpenParenAccounting (p : Parser) : Int × Parser :=
  let p := { p with
    inNewCgrp := true
    parenCount := p.parenCount + 1
    cgrpCount := p.cgrpCount + 1
    currentCgrp := p.cgrpCount + 1
    parenStack := Function.update p.parenStack p.parenIdx (p.cgrpCount + 1)
    parenIdx := p.parenIdx + 1 }
  let (_, p) := p.trackCaptureGroup false
  (p.subtreeBranchCount, { p with subtreeBranchCount := 0 })

/-- The accounting of `parse_paren_expression` at the closing parenthesis. -/
def updateCloseParenAccounting (p : Parser) (subtreeBranchCount : Int) (inNewCgrp : Bool) :
    Parser :=
  let p := { p with parenCount := p.parenCount - 1 }.consumeToken
  { p with
    subtreeBranchCount := subtreeBranchCount, parenIdx := p.parenIdx - 1
    inNewCgrp := inNewCgrp }

/-- What the group pushed is joined, with the opening marker of a tracked group
in front. -/
def leaveGroup (p : Parser) (hasBackref : Bool) (precedingStackSize : Nat) : Parser :=
  let (right, p) := p.pop
  let (right, p) := joinGroup (p.symbolStack.length - precedingStackSize) right p
  if hasBackref then
    let (left, p) := p.pop
    p.pushConcatenated left right
  else p.push right

/-- The part of `parse_paren_expression` after its recursive call, up to the
quantifier. -/
def closeParen (p : Parser) (subtreeBranchCount : Int) (inNewCgrp : Bool)
    (precedingStackSize : Nat) : Result :=
  if p.lookahead.type = .closeparen then
    if p.parenCount = 0 then p.parserFatal "Missing closing paren"
    else
      let (hasBackref, p) := p.trackCaptureGroup true
      .ok ((p.updateCloseParenAccounting subtreeBranchCount inNewCgrp).leaveGroup hasBackref
        precedingStackSize)
  else p.parserFatal "Missing closing paren"

/-- The part of `parse_bracket_expression` in front of the quantifier. -/
def bracketOperand (fuel : Nat) (p : Parser) : Result := do
  let p := ((p.push 0).setEscp false).consumeToken
  let negate := decide (p.lookahead.type = .circumflex)
  let p := if negate then p.consumeToken else p
  let (rangeNfa, ctrl) := p.ctrl.newRangeNfa negate
  let p := { p with ctrl := ctrl }.push rangeNfa
  let p ← parseMatchingList fuel 0 (p.ctrl.heap rangeNfa).parent negate p
  if p.lookahead.type ≠ .closebracket then p.parserFatal "Missing closing bracket"
  else
    let (right, p) := (p.setEscp true).consumeToken.pop
    let (left, p) := p.pop
    if left ≠ 0 then .error (.fatal "Error parsing bracket expression\n")
    else .ok (p.push right)

/-- `validate_backref`. -/
def validateBackref (p : Parser) : Except ParseError Unit :=
  let val := p.lookahead.value
  let invalid : Except ParseError Unit :=
    .error (.parserFatal "Invalid back-reference" p.scanner.readhead)
  let record := p.capgrpRecord (val - 1).toNat
  if val = 0 ∨ 9 < val ∨ record.stop = none then invalid
  else if p.inAlternation ≠ 0 then
    let tmp := p.branchStack.getLastD 0
    if tmp = 0 ∨ (p.ctrl.heap tmp).parent = 0 then .error .nullDeref
    else
      let lowestIdOnTree := (p.ctrl.heap (p.ctrl.heap tmp).parent).id
      if lowestIdOnTree ≤ record.nextId ∧ record.nextId < p.lowestIdOnBranch then invalid
      else .ok ()
  else .ok ()

/-- The token types `regex_parser_start` accepts. -/
def startsExpression : SymbolType → Bool
  | .alpha | .asciidigit | .backreference | .circumflex | .dollar | .dot | .openbracket
  | .openparen => true
  | _ => false

mutual

/-- `parse_quantifier_expression`. -/
def parseQuantifierExpression : Nat → Parser → Result
  | 0, _ => .error .hang
  | fuel + 1, p =>
    match p.lookahead.type with
    | .plus => do
      let (nfa, p) := p.consumeToken.pop
      let p ← p.quantify NFACtrl.newPosclosureNfa nfa
      parseQuantifierExpression fuel p
    | .kleene => do
      let (nfa, p) := p.consumeToken.pop
      let p ← p.quantify NFACtrl.newKleeneNfa nfa
      parseQuantifierExpression fuel p
    | .qmark => do
      let (nfa, p) := p.consumeToken.pop
      let p ← p.quantify NFACtrl.newQmarkNfa nfa
      parseQuantifierExpression fuel p
    | .openbrace => do
      let p ← p.parseIntervalExpression fuel
      parseQuantifierExpression fuel p
    | .pipe => do
      let p ← p.beginAlternative
      let p ← parseSubExpression fuel p
      p.endAlternative
    | _ => .ok p

/-- `parse_literal_expression`. -/
def parseLiteralExpression : Nat → Parser → Result
  | 0, _ => .error .hang
  | fuel + 1, p =>
    match p.lookahead.type with
    | .dot => parseQuantifierExpression fuel (p.pushSpecial .any)
    | .dollar => parseQuantifierExpression fuel (p.pushSpecial .eolAnchor)
    | .circumflex => parseQuantifierExpression fuel (p.pushSpecial .bolAnchor)
    | _ => do
      let (nfa, p) ← p.parseLiteralRun fuel
      parseQuantifierExpression fuel (p.push nfa)

/-- `parse_bracket_expression`. -/
def parseBracketExpression : Nat → Parser → Result
  | 0, _ => .error .hang
  | fuel + 1, p => do
    let p ← p.bracketOperand fuel
    parseQuantifierExpression fuel p

/-- `parse_paren_expression`. -/
def parseParenExpression : Nat → Parser → Result
  | 0, _ => .error .hang
  | fuel + 1, p => do
    let (subtreeBranchCount, p) := p.updateOpenParenAccounting
    let inNewCgrp := p.inNewCgrp
    let precedingStackSize := p.symbolStack.length
    let p ← regexParserStart fuel (p.consumeToken.push 0)
    let p ← p.closeParen subtreeBranchCount inNewCgrp precedingStackSize
    parseQuantifierExpression fuel p

/-- `parse_sub_expression`; a hyphen is retried as an `ALPHA` token. -/
def parseSubExpression : Nat → Parser → Result
  | 0, _ => .error .hang
  | fuel + 1, p =>
    match p.lookahead.type with
    | .dot | .colon | .alpha | .dollar | .circumflex | .asciidigit => do
      let p ← parseLiteralExpression fuel p
      let p ← parseSubExpression fuel p
      .ok p.concatenateTop
    | .hyphen => do
      let p ← parseLiteralExpression fuel { p with lookahead := { p.lookahead with type := .alpha } }
      let p ← parseSubExpression fuel p
      .ok p.concatenateTop
    | .openparen => do
      let p ← parseParenExpression fuel p
      parseSubExpression fuel p
    | .openbracket => do
      let p ← parseBracketExpression fuel p
      let p ← parseSubExpression fuel p
      .ok p.concatenateTop
    | .backreference => do
      p.validateBackref
      let (left, ctrl) := p.ctrl.newBackreferenceNfa (p.lookahead.value - 1).toNat
      let p := ({ p with ctrl := ctrl }.push left).consumeToken
      let p ← parseQuantifierExpression fuel p
      let p ← parseSubExpression fuel p
      .ok p.concatenateTop
    | .closebrace => p.parserFatal "Missing opening brace"
    | .closebracket => p.parserFatal "Missing opening bracket"
    | .closeparen => if p.parenCount = 0 then p.parserFatal "Missing opening paren" else .ok p
    | _ => .ok p

/-- `regex_parser_start`. -/
def regexParserStart : Nat → Parser → Result
  | 0, _ => .error .hang
  | fuel + 1, p =>
    if startsExpression p.lookahead.type then parseSubExpression fuel p
    else p.parserFatal "Expected char or '('"

end

/-- The scan of `prescan_input` over the text it is given: which groups a
backreference names and how many characters were read. At the `NUL` it reads on
without end. -/
def prescanInput : List Int → (Nat → Bool) → Nat → Except ParseError ((Nat → Bool) × Nat)
  | [], _, _ => .error .hang
  | c :: rest, map, count =>
    if c = eolSymbol then .ok (map, count)
    else if c = 92 then
      match rest with
      | [] => .error .hang
      | d :: rest =>
        let map := if isdigit d ∧ d ≠ 48 then Function.update map (d - 48).toNat true else map
        prescanInput rest map (count + 1)
    else prescanInput rest map (count + 1)

/-- The buffer of the scanner `prescan_input` sets up on a copy of the text. Its
`reset_scanner` finds no newline in front of the `NUL` and appends a second end of
line symbol, at which an escape of the first one ends. -/
def prescanBuffer (p : Parser) : List Int := (Scanner.initScanner p.scanner.buffer).buffer

/-- The concatenations of `parse_regex` after the descent. -/
def joinAll : Nat → Addr → Parser → Addr × Parser
  | 0, right, p => (right, p)
  | n + 1, right, p =>
    let (left, p) := p.pop
    let (right, ctrl) := p.ctrl.concatenateNfa left right
    joinAll n right { p with ctrl := ctrl }

/-- `insert_epsilon_start`. -/
def insertEpsilonStart (p : Parser) : Parser :=
  let startType := (p.ctrl.heap (p.ctrl.heap p.peek).parent).type
  if startType ≠ .split ∧ startType ≠ .epsilon then
    let (startNode, ctrl) := p.ctrl.newNfa .epsilon
    let (right, p) := { p with ctrl := ctrl }.pop
    let first := (p.ctrl.heap right).parent
    let p := p.modify startNode fun x => { x with out1 := first, out2 := first }
    (p.modify right fun x => { x with parent := startNode }).push right
  else p

/-- `init_parser` on a fresh scanner: the first token is read and, when case is
ignored, the text from the current position on is put in upper case. -/
def initParser (pattern : List Int) (ignoreCase : Bool) : Parser :=
  let p : Parser := { scanner := Scanner.initScanner pattern : Parser }.consumeToken
  if ignoreCase then
    let s := p.scanner
    let fold := s.buffer.mapIdx fun i c =>
      if s.getCurPos ≤ i ∧ i < s.lineLen - 1 then toupperChar c else c
    { p with scanner := { s with buffer := fold } }
  else p

/-- `parse_regex` before `compile_regex`. -/
def parseRegex (fuel : Nat) (pattern : List Int) (ignoreCase : Bool) : Result := do
  let p := initParser pattern ignoreCase
  let (map, tokenCount) ← prescanInput p.prescanBuffer (fun _ => false) 0
  let p := { p with cgrpMap := map, ctrl := p.ctrl.allocInit tokenCount }
  let p ← regexParserStart fuel p
  let p :=
    if 1 < p.symbolStack.length then
      let (right, p) := p.pop
      let (right, p) := joinAll p.symbolStack.length right p
      p.push right
    else p
  if p.peek = 0 then .error .nullDeref
  else
    let p := { p with ctrl := p.ctrl.markNfa p.peek }
    .ok ({ p with totalNfaIds := p.ctrl.nextSeqId }.insertEpsilonStart)

end Parser

end Recognizer
