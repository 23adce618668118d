import Recognizer.Source.Search
import Recognizer.Source.Rbtree

/-!
# The match streams of `match_record.c`, `boyer_moore.c` and `mpat.c`

The searches hand their matches over one by one; here are the memory they are kept in and
the cursors that read them. Addresses are numbers and `0` is `NULL`; reading or writing
through `NULL` gives `none`.
-/

namespace Recognizer

/-- A text in memory: its first address and its bytes up to the inclusive end. -/
structure Text where
  input : Nat
  bytes : List Int
  input_ne : input ≠ 0

/-- A record with offsets into a text as one with addresses. -/
def Text.place (text : Text) (r : MatchRecord) : MatchRecord :=
  ⟨text.input + r.beg, text.input + r.stop⟩

/-- `MatchRecord` of `match_record.c` with its links. -/
structure RecordCell where
  beg : Nat := 0
  stop : Nat := 0
  next : Nat := 0
  prev : Nat := 0
  deriving DecidableEq, Repr

/-- `MatchRecordObj` with the records and the next fresh address. -/
structure MatchRecordObj where
  cells : Nat → RecordCell := fun _ => {}
  fresh : Nat := 1
  head : Nat := 0
  pool : Nat := 0
  matchCount : Int := 0

namespace MatchRecordObj

variable (m : MatchRecordObj)

/-- Write to members of a record. -/
def write (a : Nat) (f : RecordCell → RecordCell) : Option MatchRecordObj :=
  if a = 0 then none
  else some { m with cells := Function.update m.cells a (f (m.cells a)) }

/-- The part of `new_match_record` that takes a record out of the pool or allocates one. -/
def takeRecord : Option (Nat × MatchRecordObj) :=
  if m.pool = 0 then some (m.fresh, { m with fresh := m.fresh + 1 })
  else if (m.cells m.pool).next = m.pool then some (m.pool, { m with pool := 0 })
  else do
    let pool := m.pool
    let m ← m.write (m.cells pool).prev fun x => { x with next := (m.cells pool).next }
    let m ← m.write (m.cells pool).next fun x => { x with prev := (m.cells pool).prev }
    some (pool, { m with pool := (m.cells pool).next })

/-- The part of `new_match_record` that links a record in behind the last one. -/
def linkRecord (new : Nat) : Option MatchRecordObj :=
  if m.head = 0 then do
    let m ← m.write new fun x => { x with next := new }
    let m ← m.write new fun x => { x with prev := new }
    some { m with head := new }
  else do
    let m ← m.write new fun x => { x with next := m.head }
    let m ← m.write new fun x => { x with prev := (m.cells m.head).prev }
    let m ← m.write (m.cells m.head).prev fun x => { x with next := new }
    m.write m.head fun x => { x with prev := new }

/-- `new_match_record`. -/
def newMatchRecord (beg stop : Nat) : Option MatchRecordObj :=
  if beg = 0 ∨ stop = 0 then some m
  else do
    let (new, m) ← m.takeRecord
    let m ← m.linkRecord new
    let m ← m.write new fun x => { x with beg := beg, stop := stop }
    some { m with matchCount := m.matchCount + 1 }

/-- The part of `match_record_clear` that connects the list with the pool. -/
def splice : Option MatchRecordObj :=
  let head := m.head
  let pool := m.pool
  if (m.cells head).next = head then do
    let m ← m.write head fun x => { x with prev := (m.cells pool).prev }
    let m ← m.write (m.cells pool).prev fun x => { x with next := head }
    let m ← m.write head fun x => { x with next := pool }
    m.write pool fun x => { x with prev := head }
  else do
    let tmp := (m.cells head).prev
    let m ← m.write (m.cells head).prev fun x => { x with next := pool }
    let m ← m.write (m.cells pool).prev fun x => { x with next := head }
    let m ← m.write head fun x => { x with prev := (m.cells pool).prev }
    m.write pool fun x => { x with prev := tmp }

/-- `match_record_clear`. -/
def matchRecordClear : Option MatchRecordObj :=
  if m.head = 0 then some m
  else do
    let m ← if m.pool = 0 then some { m with pool := m.head } else m.splice
    some { m with head := 0, matchCount := 0 }

end MatchRecordObj

/-- The `matches` of a `BMObj`. The cursor `iter` points to the link of a record; it is the
address of this record here. -/
structure BMMatches where
  recorded : MatchRecordObj := {}
  iter : Nat := 0

namespace BMMatches

/-- The calls of `new_match_record` in `bm_search`. -/
def recordAll (s : BMMatches) : List MatchRecord → Option BMMatches
  | [] => some s
  | r :: rs => do
    let m ← s.recorded.newMatchRecord r.beg r.stop
    recordAll { s with recorded := m } rs

/-- `bm_next_match`; the result is the address of a record. -/
def bmNextMatch (s : BMMatches) : Nat × BMMatches :=
  let head := s.recorded.head
  if head ≠ 0 then
    if s.iter = 0 then (head, { s with iter := head })
    else
      let next := (s.recorded.cells s.iter).next
      if next = head then (0, { s with iter := 0 }) else (next, { s with iter := next })
  else (0, s)

/-- `bm_clear_matches`. -/
def bmClearMatches (s : BMMatches) : Option BMMatches := do
  let m ← s.recorded.matchRecordClear
  some { recorded := m, iter := 0 }

end BMMatches

/-- The matches of an `MPatObj`; the data of a node is the address of its record. -/
structure MPatMatches where
  matchList : Rbtree.RBTreeCtrl := {}
  records : Nat → MatchRecord := fun _ => ⟨0, 0⟩
  fresh : Nat := 1
  curMr : Nat := 0

namespace MPatMatches

open Rbtree.RBTreeCtrl (rbtreeInsert)

/-- `record_match`. -/
def recordMatch (s : MPatMatches) (b e : Nat) : Option MPatMatches := do
  let (node, m) ← s.matchList.rbtreeInsert b 0 true
  if (m.nodes node).data = 0 then
    some { s with
      matchList := m.set node fun x => { x with data := s.fresh }
      records := Function.update s.records s.fresh ⟨b, e⟩
      fresh := s.fresh + 1 }
  else
    some { s with
      matchList := m
      records := Function.update s.records (m.nodes node).data ⟨b, e⟩ }

/-- The calls of `record_match` in `mpat_search`. -/
def recordAll (s : MPatMatches) : List MatchRecord → Option MPatMatches
  | [] => some s
  | r :: rs => do
    let s ← s.recordMatch r.beg r.stop
    recordAll s rs

/-- `mpat_next_match`; the result is the address of a record. -/
def mpatNextMatch (s : MPatMatches) : Option (Nat × MPatMatches) :=
  if s.matchList.root = 0 then some (0, s)
  else do
    let cur ←
      if s.curMr = 0 then s.matchList.rbtreeMin s.matchList.root
      else s.matchList.rbtreeSuccessor s.curMr
    some (if cur = 0 then 0 else (s.matchList.nodes cur).data, { s with curMr := cur })

/-- `mpat_clear_matches`. -/
def mpatClearMatches (s : MPatMatches) : Option MPatMatches :=
  if s.matchList.root = 0 then some s
  else do
    let m ← s.matchList.rbtreeClear
    some { s with matchList := m, curMr := 0 }

end MPatMatches

/-- A search object with its matches. -/
inductive KwObj where
  | bm (obj : BMObj) (s : BMMatches)
  | mpat (obj : MPatObj) (s : MPatMatches)

namespace KwSearch

/-- A new search object. -/
def start : KwSearch → KwObj
  | bm obj => .bm obj {}
  | mpat obj => .mpat obj {}

/-- The records that a search of a text makes, in the order it makes them. -/
def records (text : Text) : KwSearch → List MatchRecord
  | bm obj => (obj.bmSearch text.bytes).map text.place
  | mpat obj => (obj.mpatRecords text.bytes).map text.place

end KwSearch

namespace KwObj

/-- `kw_search` through the engine's function pointer. -/
def kwSearch (text : Text) : KwObj → Option KwObj
  | bm obj s => (s.recordAll ((obj.bmSearch text.bytes).map text.place)).map (bm obj)
  | mpat obj s => (s.recordAll ((obj.mpatRecords text.bytes).map text.place)).map (mpat obj)

/-- `kw_next_match` through the engine's function pointer, with the members of the record
that its result points to. -/
def kwNextMatch : KwObj → Option (Option MatchRecord × KwObj)
  | bm obj s =>
    let (a, s) := s.bmNextMatch
    let cell := s.recorded.cells a
    some (if a = 0 then none else some ⟨cell.beg, cell.stop⟩, bm obj s)
  | mpat obj s => do
    let (a, s) ← s.mpatNextMatch
    some (if a = 0 then none else some (s.records a), mpat obj s)

/-- `kw_clear_matches` through the engine's function pointer. -/
def kwClearMatches : KwObj → Option KwObj
  | bm obj s => s.bmClearMatches.map (bm obj)
  | mpat obj s => s.mpatClearMatches.map (mpat obj)

/-- The results of `k` calls of `kw_next_match`. -/
def nextMatches : Nat → KwObj → Option (List (Option MatchRecord) × KwObj)
  | 0, kw => some ([], kw)
  | k + 1, kw => do
    let (r, kw) ← kw.kwNextMatch
    let (rs, kw) ← nextMatches k kw
    some (r :: rs, kw)

/-- One line: the search, `k` calls of `kw_next_match` and the clearing. -/
def processLine (text : Text) (k : Nat) (kw : KwObj) :
    Option (List (Option MatchRecord) × KwObj) := do
  let kw ← kw.kwSearch text
  let (rs, kw) ← kw.nextMatches k
  let kw ← kw.kwClearMatches
  some (rs, kw)

/-- A sequence of lines. -/
def processLines : List (Text × Nat) → KwObj → Option (List (List (Option MatchRecord)) × KwObj)
  | [], kw => some ([], kw)
  | (text, k) :: lines, kw => do
    let (rs, kw) ← kw.processLine text k
    let (rest, kw) ← processLines lines kw
    some (rs :: rest, kw)

end KwObj

end Recognizer
