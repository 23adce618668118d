import Recognizer.Source.Misc

/-!
# The keyword searches of `boyer_moore.c` and `mpat.c`

A text is a list of bytes and positions are offsets into it. The shift and hash
tables are red-black trees keyed by numbers that are only searched, inserted
into and asked for their extreme keys, so they are association lists here; the
tree of matches is only walked in order, so it is the list of that walk.
-/

namespace Recognizer

/-- `MatchRecord`: an occurrence from `beg` to the inclusive `stop`. -/
structure MatchRecord where
  beg : Nat
  stop : Nat
  deriving DecidableEq, Repr

/-- The bytes of a `NUL` terminated text. -/
def word (xs : List Int) (i : Nat) : Int := xs.getD i 0

/-- Conversion of an `int` to a C `char`. -/
def toChar (x : Int) : Int := (x + 128) % 256 - 128

/-- `BMObj` without its matches. -/
structure BMObj where
  pattern : List Int
  goodSuffix : List Int
  badChar : List (Int × Int)
  deriving DecidableEq, Repr

namespace BMObj

/-- The byte of a pattern or text at an index, which the source keeps in range. -/
def byteAt (xs : List Int) (i : Int) : Int := xs.getD i.toNat 0

/-- The inner `while` of `compute_suffix`. -/
def extendSuffix (pattern : List Int) (m f : Int) : Nat → Int → Int
  | 0, g => g
  | fuel + 1, g =>
    if 0 ≤ g ∧ byteAt pattern g = byteAt pattern (g + m - 1 - f) then
      extendSuffix pattern m f fuel (g - 1)
    else g

/-- The `for` loop of `compute_suffix` from `i` down to zero. -/
def suffixLoop (pattern : List Int) (m : Int) : Nat → Int → Int → List Int → List Int
  | 0, _, _, suff => suff
  | k + 1, f, g, suff =>
    let i : Int := k
    if i > g ∧ byteAt suff (i + m - 1 - f) < i - g then
      suffixLoop pattern m k f g (suff.set k (byteAt suff (i + m - 1 - f)))
    else
      let g := extendSuffix pattern m i pattern.length (if i < g then i else g)
      suffixLoop pattern m k i g (suff.set k (toChar (i - g)))

/-- `compute_suffix`: the entries are stored as `char`. -/
def computeSuffix (pattern : List Int) : List Int :=
  let m := pattern.length
  let suff := (List.replicate m 0).set (m - 1) (toChar m)
  suffixLoop pattern m (m - 1) (m - 2) (m - 1) suff

/-- The innermost loop of `compute_good_suffix`: `n` entries from `j` on that are
still `m` become `shift`. -/
def fillRange (m shift j n : Nat) (good : List Int) : List Int :=
  (List.range n).foldl (fun good d =>
    if good.getD (j + d) 0 = m then good.set (j + d) shift else good) good

/-- The body of the second loop of `compute_good_suffix` for one `i`. -/
def fillPrefix (m : Nat) (suffix : List Int) (acc : Nat × List Int) (i : Nat) : Nat × List Int :=
  let (j, good) := acc
  if suffix.getD i 0 = i + 1 then
    (max j (m - 1 - i), fillRange m (m - 1 - i) j (m - 1 - i - j) good)
  else acc

/-- `compute_good_suffix`. -/
def computeGoodSuffix (pattern : List Int) : List Int :=
  let m := pattern.length
  let suffix := computeSuffix pattern
  let good := List.replicate m (m : Int)
  let (_, good) := (List.range m).reverse.foldl (fillPrefix m suffix) (0, good)
  (List.range (m - 1)).foldl (fun good i =>
    good.set (m - 1 - suffix.getD i 0).toNat (m - 1 - i : Nat)) good

/-- `compute_bad_char`. -/
def computeBadChar (pattern : List Int) : List (Int × Int) :=
  (List.range (pattern.length - 1)).foldl (fun t (i : Nat) =>
    (byteAt pattern i, ((pattern.length - i - 1 : Nat) : Int)) ::
      t.filter fun e => e.1 ≠ byteAt pattern i) []

/-- `bm_init_obj` on a new object. -/
def bmInitObj (pattern : List Int) : BMObj :=
  ⟨pattern, computeGoodSuffix pattern, computeBadChar pattern⟩

/-- `bm_get_char_shift`; the argument is converted to `unsigned char`. -/
def bmGetCharShift (obj : BMObj) (c : Int) : Int :=
  match obj.badChar.find? fun e => e.1 = c % 256 with
  | none => obj.pattern.length
  | some e => e.2

/-- The inner `for` of `bm_search`: the last mismatching index, or `-1`. -/
def compareFrom (pattern text : List Int) (j : Int) : Nat → Int
  | 0 => -1
  | k + 1 =>
    if byteAt pattern k = byteAt text (k + j) then compareFrom pattern text j k else k

/-- The `while` of `bm_search`. -/
def searchLoop (obj : BMObj) (text : List Int) : Nat → Int → List MatchRecord → List MatchRecord
  | 0, _, acc => acc
  | fuel + 1, j, acc =>
    let m : Int := obj.pattern.length
    if j ≤ text.length - m then
      let i := compareFrom obj.pattern text j obj.pattern.length
      if i < 0 then
        searchLoop obj text fuel (j + obj.goodSuffix.getD 0 0)
          (acc ++ [⟨j.toNat, (j + m - 1).toNat⟩])
      else
        let badCharShift := obj.bmGetCharShift (byteAt text (i + j)) - m + i + 1
        if badCharShift = m then searchLoop obj text fuel (j + badCharShift) acc
        else
          let goodSuffixShift := obj.goodSuffix.getD i.toNat 0
          searchLoop obj text fuel
            (j + if goodSuffixShift ≥ badCharShift then goodSuffixShift else badCharShift) acc
    else acc

/-- `bm_search` on the text from `input` to the inclusive `input_end`; every
shift is positive, so the text's length bounds the number of rounds. -/
def bmSearch (obj : BMObj) (text : List Int) : List MatchRecord :=
  searchLoop obj text (text.length + 1) 0 []

end BMObj

/-- `PrefixPattern` with the address its record was allocated at. -/
structure PrefixPattern where
  key : Int
  pattern : List Int
  addr : Nat
  deriving DecidableEq, Repr

/-- `MPatObj` without its matches. -/
structure MPatObj where
  hash : List (Int × List PrefixPattern)
  shift : List (Int × Int)
  m : Nat
  minKey : Int
  maxKey : Int
  deriving DecidableEq, Repr

namespace MPatObj

/-- The block length `B`. -/
def blockLen : Nat := 2

/-- `COMPUTE_SUFFIX_HASH` at an index. -/
def suffixHash (xs : List Int) (i : Nat) : Int := xs.getD i 0 * 32 + xs.getD (i - 1) 0

/-- `COMPUTE_PREFIX_HASH` at the last index of a window of `m` bytes. -/
def prefixHash (xs : List Int) (i m : Nat) : Int :=
  xs.getD (i + 1 - m) 0 * 256 + xs.getD (i + 2 - m) 0

/-- `insert_shift_record`: the smallest shift of a key stays. -/
def insertShiftRecord (t : List (Int × Int)) (key shift : Int) : List (Int × Int) :=
  match t.find? fun e => e.1 = key with
  | none => t ++ [(key, shift)]
  | some _ => t.map fun e => if e.1 = key ∧ e.2 > shift then (key, shift) else e

/-- `insert_hash_record`. -/
def insertHashRecord (t : List (Int × List PrefixPattern)) (key : Int) (r : PrefixPattern) :
    List (Int × List PrefixPattern) :=
  match t.find? fun e => e.1 = key with
  | none => t ++ [(key, [r])]
  | some _ => t.map fun e => if e.1 = key then (key, e.2 ++ [r]) else e

/-- `hash_substrings` on the first `m` bytes of a pattern: `tmp` runs from the
last but one index of the window down to the second. -/
def hashSubstrings (t : List (Int × Int)) (pattern : List Int) (m : Nat) : List (Int × Int) :=
  (List.range (m - blockLen)).foldl (fun t d =>
    let tmp := m - blockLen - d
    insertShiftRecord t (suffixHash pattern tmp) ((m - 1 - tmp : Nat) : Int)) t

/-- The body of the loop of `mpat_init` for a pattern and the index of its record. -/
def addPattern (m : Nat) (place : Nat → Nat)
    (tables : List (Int × List PrefixPattern) × List (Int × Int)) (e : List Int × Nat) :
    List (Int × List PrefixPattern) × List (Int × Int) :=
  let suffix := suffixHash e.1 (m - 1)
  (insertHashRecord tables.1 suffix ⟨prefixHash e.1 (m - 1) m, e.1, place e.2⟩,
    hashSubstrings (insertShiftRecord tables.2 suffix 0) e.1 m)

/-- `mpat_init`; `place` gives the address of each pattern's record. `none`
stands for the result `0`. -/
def mpatInit (patterns : List (List Int)) (place : Nat → Nat) : Option MPatObj :=
  let m := (patterns.map List.length).foldl min (patterns.headD []).length
  if m < 3 then none
  else
    let (hash, shift) := patterns.zipIdx.foldl (addPattern m place) ([], [])
    let keys := shift.map Prod.fst
    some ⟨hash, shift, m, keys.foldl min (keys.headD 0), keys.foldl max (keys.headD 0)⟩

/-- `get_shift`. -/
def getShift (obj : MPatObj) (k : Int) : Int :=
  let defaultShift : Int := obj.m - blockLen + 1
  if obj.minKey > k ∨ obj.maxKey < k then defaultShift
  else
    match obj.shift.find? fun e => e.1 = k with
    | none => defaultShift
    | some e => e.2

/-- The comparison `while((*pat_ptr != '\0') && *(pat_ptr++) == *(prefix++));`
from the given offsets; the result holds the offsets reached. -/
def compareLoop (pattern text : List Int) : Nat → Nat → Nat → Nat × Nat
  | 0, i, j => (i, j)
  | fuel + 1, i, j =>
    if pattern.getD i 0 ≠ 0 then
      if pattern.getD i 0 = text.getD j 0 then compareLoop pattern text fuel (i + 1) (j + 1)
      else (i + 1, j + 1)
    else (i, j)

/-- The `for` of `mpat_search` over the patterns of one bucket, at the window
that starts at `beg`. `prev` is the pointer `prev_pat_ptr`; the result holds the
arguments of the calls of `record_match`, in order. -/
def scanBucket (text : List Int) (beg : Nat) (prefixKey : Int) :
    List PrefixPattern → Nat → List MatchRecord → List MatchRecord
  | [], _, acc => acc
  | hr :: rest, prev, acc =>
    if hr.key = prefixKey then
      let (i, j) := compareLoop hr.pattern text (hr.pattern.length + 1) (blockLen - 1)
        (beg + blockLen - 1)
      if hr.pattern.getD i 0 = 0 then
        scanBucket text beg prefixKey rest prev (acc ++ [⟨beg, j - 2⟩])
      else if hr.addr + i < prev then acc
      else scanBucket text beg prefixKey rest (hr.addr + i) acc
    else scanBucket text beg prefixKey rest prev acc

/-- The `while` of `mpat_search`. -/
def searchLoop (obj : MPatObj) (text : List Int) : Nat → Nat → List MatchRecord → List MatchRecord
  | 0, _, acc => acc
  | fuel + 1, ptr, acc =>
    if ptr < text.length then
      let suffix := suffixHash text ptr
      let shift := obj.getShift suffix
      if shift = 0 then
        let bucket := ((obj.hash.find? fun e => e.1 = suffix).map Prod.snd).getD []
        searchLoop obj text fuel (ptr + 1)
          (scanBucket text (ptr + 1 - obj.m) (prefixHash text ptr obj.m) bucket 0 acc)
      else searchLoop obj text fuel (ptr + shift.toNat) acc
    else acc

/-- `mpat_search` on the text up to the inclusive `text_end`: the calls of
`record_match` it makes. -/
def mpatRecords (obj : MPatObj) (text : List Int) : List MatchRecord :=
  if text.length - 1 < obj.m then []
  else searchLoop obj text (text.length + 1) (obj.m - 1) []

/-- `record_match`: the walk in key order meets a new record before the records
with its key. -/
def recordMatch : List MatchRecord → MatchRecord → List MatchRecord
  | [], r => [r]
  | x :: xs, r => if x.beg < r.beg then x :: recordMatch xs r else r :: x :: xs

/-- The matches of `mpat_search` in the order `mpat_next_match` walks them. -/
def mpatSearch (obj : MPatObj) (text : List Int) : List MatchRecord :=
  (obj.mpatRecords text).foldl recordMatch []

end MPatObj

/-- The object behind `kw_search_obj`. -/
inductive KwSearch where
  | bm (obj : BMObj)
  | mpat (obj : MPatObj)
  deriving DecidableEq, Repr

namespace KwSearch

/-- `kw_search` through the engine's function pointer. -/
def search : KwSearch → List Int → List MatchRecord
  | bm obj, text => obj.bmSearch text
  | mpat obj, text => obj.mpatSearch text

/-- The choice of `new_nfa_sim` from the synthesised patterns. -/
def ofPatterns (patterns : List (List Int)) (place : Nat → Nat) : Option KwSearch :=
  match patterns with
  | [] => none
  | [kw] => some (bm (BMObj.bmInitObj kw))
  | _ => (MPatObj.mpatInit patterns place).map mpat

end KwSearch

end Recognizer
