import Mathlib.Logic.Function.Basic
import Mathlib.Data.BitVec

/-!
# Characters, addresses and control flags

Bytes of the program are the integers a C `char` is promoted to, so the end of
line symbol is `-2` and never meets an ASCII character. Addresses are natural
numbers with zero for `NULL`; the flag word of `misc.h` is a record of its bits.
-/

namespace Recognizer

/-- The address of an object; zero is `NULL`. -/
abbrev Addr := Nat

/-- The value `reset_scanner` writes over the newline, `(EOF < -1) ? -1 : -2`. -/
def eolSymbol : Int := -2

/-- The C library's `EOF`. -/
def EOF : Int := -1

/-- The `char` that `*c = toupper(*c)` stores: the conversion back to `char` takes
a byte above 127 to the negative value it came from. -/
def toupperChar (c : Int) : Int := if 97 ≤ c ∧ c ≤ 122 then c - 32 else c

/-- `toupper` in the C locale. Its table holds the bytes above 127 at their negative
`char` values too, so the end of line symbol becomes 254; only `EOF` stays. -/
def toupper (c : Int) : Int := if -128 ≤ c ∧ c ≤ -2 then c + 256 else toupperChar c

/-- `isdigit` in the C locale. -/
def isdigit (c : Int) : Bool := decide (48 ≤ c ∧ c ≤ 57)

/-- The conversion of a promoted `char` to `unsigned int`. -/
def toUnsigned (c : Int) : Nat := (c % 4294967296).toNat

/-- The bytes of a string constant. -/
def bytes (s : String) : List Int := s.toList.map fun c => (c.toNat : Int)

/-- The run-time bits of `ctrl_flags`. The bits the scanner toggles while it
reads the pattern live in the scanner's own state. -/
structure CtrlFlags where
  mglobal : Bool := false
  showLineno : Bool := false
  showFileName : Bool := false
  ignoreCase : Bool := false
  silentMatch : Bool := false
  invertMatch : Bool := false
  showMatchLine : Bool := true
  deriving DecidableEq, Repr

namespace CtrlFlags

/-- `INDIVIDUAL_MATCHES`: none of the silent, inverted and whole-line bits is set. -/
def individualMatches (f : CtrlFlags) : Bool :=
  !(f.silentMatch || f.invertMatch || f.showMatchLine)

/-- `BAIL_EARLY`. -/
def bailEarly (f : CtrlFlags) : Bool := f.invertMatch || f.mglobal

/-- `LINE_OR_INVERT`. -/
def lineOrInvert (f : CtrlFlags) : Bool := f.showMatchLine || f.invertMatch

end CtrlFlags

end Recognizer
