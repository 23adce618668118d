import Recognizer.Source.Misc

/-!
# The pattern scanner

The scanner keeps its read head as an offset into the pattern's buffer, which
ends in the end of line symbol and a `NUL`. Reading past the `NUL` is never
attempted by the source; `charAt` yields zero there.
-/

namespace Recognizer

/-- `symbol_type`, restricted to the tokens the scanner or the parser produce. -/
inductive SymbolType where
  | alpha | asciidigit | backreference | circumflex | closebrace | closebracket
  | closeparen | colon | dot | dollar | equal | hyphen | kleene | openbrace
  | openbracket | openparen | pipe | plus | qmark | eof
  deriving DecidableEq, Repr

/-- A token with the value it carries. -/
structure Token where
  value : Int := 0
  type : SymbolType := .alpha
  deriving DecidableEq, Repr

/-- The part of `Scanner` that reading a pattern uses. The static variable
`seen_newline` of `regex_scan` is kept beside it. -/
structure Scanner where
  buffer : List Int
  readhead : Nat := 0
  strBegin : Nat := 0
  lineLen : Nat
  escpSeq : Bool := true
  seenNewline : Bool := false
  curtoken : Token := {}
  deriving DecidableEq, Repr

namespace Scanner

/-- The byte at an offset of the buffer. -/
def charAt (s : Scanner) (i : Nat) : Int := s.buffer.getD i 0

/-- `init_scanner` followed by `reset_scanner` on a NUL-terminated pattern: a
final newline is replaced by the end of line symbol, otherwise the symbol is
appended. -/
def initScanner (pattern : List Int) : Scanner :=
  if pattern.getLast? = some 10 then
    { buffer := pattern.dropLast ++ [eolSymbol], lineLen := pattern.length }
  else
    { buffer := pattern ++ [eolSymbol], lineLen := pattern.length + 1 }

/-- `get_cur_pos`. -/
def getCurPos (s : Scanner) : Nat :=
  if s.readhead > s.strBegin then s.readhead - 1 else s.readhead

/-- `unput`. -/
def unput (s : Scanner) : Scanner :=
  if s.readhead - s.strBegin > 0 then { s with readhead := s.readhead - 1 } else s

/-- `next_char`: the `NUL` is returned without moving. -/
def nextChar (s : Scanner) : Int × Scanner :=
  let nc := s.charAt s.readhead
  if nc ≠ 0 then (nc, { s with readhead := s.readhead + 1 }) else (nc, s)

/-- `update_token` on the current token. -/
def updateToken (s : Scanner) (c : Int) (type : SymbolType) : Scanner :=
  { s with curtoken := ⟨c, type⟩ }

/-- The token type the `switch` of `regex_scan` gives a character other than a
newline, `EOF` or a backslash. -/
def charType (c : Int) : SymbolType :=
  if isdigit c then .asciidigit
  else if c = 36 then .dollar        -- '$'
  else if c = 94 then .circumflex    -- '^'
  else if c = 46 then .dot           -- '.'
  else if c = 42 then .kleene        -- '*'
  else if c = 43 then .plus          -- '+'
  else if c = 58 then .colon         -- ':'
  else if c = 124 then .pipe         -- '|'
  else if c = 63 then .qmark         -- '?'
  else if c = 40 then .openparen     -- '('
  else if c = 41 then .closeparen    -- ')'
  else if c = 45 then .hyphen        -- '-'
  else if c = 91 then .openbracket   -- '['
  else if c = 93 then .closebracket  -- ']'
  else if c = 123 then .openbrace    -- '{'
  else if c = 125 then .closebrace   -- '}'
  else .alpha

/-- The `'\\'` case of `regex_scan`; the first component is the character last read. -/
def scanEscape (s : Scanner) : Int × Scanner :=
  if s.escpSeq then
    let (c, s) := s.nextChar
    if c ≠ eolSymbol then
      if isdigit c then (c, s.updateToken (c - 48) .backreference)
      else (c, s.updateToken c .alpha)
    else (c, s.unput)
  else (92, s.updateToken 92 .alpha)

/-- `regex_scan`. Every case of its `switch` ends the loop after one character,
and the loop is skipped at the `NUL`. -/
def regexScan (s : Scanner) : Scanner :=
  if s.seenNewline then s.updateToken 0 .eof
  else
    let (c, s) := s.nextChar
    let (c, s) :=
      if c = 0 then (c, s)
      else if c = 10 then (c, { s with seenNewline := true }.updateToken 0 .eof)
      else if c = EOF then (c, s.updateToken 0 .eof)
      else if c = 92 then s.scanEscape
      else (c, s.updateToken c (charType c))
    if c = eolSymbol then s.updateToken 0 .eof else s

end Scanner

end Recognizer
