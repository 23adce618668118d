import Recognizer.Output.Buffer

/-!
# One match after the other

A match whose text, with what stands in front of it, does not fit into the empty buffer is
printed at once; any other one is added to the buffer, which is flushed before when it has to be.
-/

namespace Recognizer

namespace Output

variable {size : Nat} {o : Output} {out cs : List Int} {flags : CtrlFlags} {r : Report}

/-- The file name in front of a match. -/
def namePart (flags : CtrlFlags) (r : Report) : List Int :=
  if flags.showFileName then r.filename ++ [58] else []

/-- The line number in front of a match. -/
def lineNoPart (flags : CtrlFlags) (r : Report) : List Int :=
  if flags.showLineno then bytes (toString r.lineNo) ++ [58] else []

/-- What stands in front of a match. -/
def linePrefix (flags : CtrlFlags) (r : Report) : List Int := namePart flags r ++ lineNoPart flags r

/-- The line of a match. -/
def printedLine (flags : CtrlFlags) (r : Report) : List Int := linePrefix flags r ++ r.text ++ [10]

/-- A report names its file, and neither the name nor the text has a terminator in it. -/
structure Proper (r : Report) : Prop where
  named : r.filename ≠ []
  name : 0 ∉ r.filename
  text_ne : r.text ≠ []
  text : 0 ∉ r.text

theorem widthLoop_eq (n m w : Nat) (hn : m ≤ n) :
    widthLoop n m w + 1 = w + (Nat.toDigits 10 m).length := by
  induction n generalizing m w with
  | zero =>
    obtain rfl := Nat.le_zero.mp hn
    rw [widthLoop, Nat.toDigits_zero]
    rfl
  | succ n ih =>
    rw [widthLoop, Nat.toDigits_eq_if (by decide)]
    by_cases hten : m < 10
    · rw [if_pos hten, if_neg (by omega)]
      rfl
    · rw [if_neg hten, if_pos (by omega), ih _ _ (by omega), List.length_append,
        List.length_singleton]
      omega

theorem length_bytes (s : String) : (bytes s).length = s.toList.length := List.length_map _

/-- The variable `w` is the number of digits. -/
theorem width_eq (lineNo : Nat) : width lineNo = (bytes (toString lineNo)).length := by
  have hloop := widthLoop_eq lineNo lineNo 1 (Nat.le_refl lineNo)
  have hdigits : (toString lineNo).toList = Nat.toDigits 10 lineNo := Nat.toList_repr
  rw [length_bytes, hdigits, width]
  omega

/-- No digit is a terminator. -/
theorem zero_notMem_digits (lineNo : Nat) : 0 ∉ bytes (toString lineNo) := by
  intro hin
  obtain ⟨c, hc, heq⟩ := List.mem_map.mp hin
  have hdigits : (toString lineNo).toList = Nat.toDigits 10 lineNo := Nat.toList_repr
  rw [hdigits] at hc
  have hdigit := Nat.isDigit_of_mem_toDigits (by decide) (by decide) hc
  have hlow : 48 ≤ c.toNat := (Char.isDigit_iff_toNat.mp hdigit).1
  omega

theorem zero_notMem_colon {cs : List Int} (hcs : 0 ∉ cs) : 0 ∉ cs ++ [58] := by
  rw [List.mem_append]
  exact fun hin => hin.elim hcs (by decide)

/-- The variable `sz`. -/
theorem totalSize_eq (flags : CtrlFlags) (h : Proper r) :
    totalSize flags r = (linePrefix flags r).length + r.text.length := by
  have hpos : 0 < r.filename.length := List.length_pos_iff.mpr h.named
  rw [totalSize, linePrefix, List.length_append, namePart, lineNoPart, width_eq]
  cases flags.showFileName <;> cases flags.showLineno <;> simp [hpos] <;> omega

/-- Behind the flush nothing is in the buffer in front of a match that is too big for it. -/
theorem Holds.makeRoom (h : Holds size o out cs) (sz : Int) :
    ∃ out' cs', Holds size (Output.makeRoom size sz o) out' cs' ∧ out' ++ cs' = out ++ cs ∧
      ((Output.makeRoom size sz o).TooBig size sz → cs' = []) ∧
      (InBounds size (Output.makeRoom size sz o) ↔ InBounds size o) := by
  rw [Output.makeRoom]
  split
  · next hflush =>
    have hcs : cs ≠ [] := mt h.matchIdx_eq_zero_iff.mpr hflush.1
    exact ⟨out ++ cs, [], h.flushed hcs, List.append_nil _, fun _ => rfl, Iff.rfl⟩
  · next hkeep =>
    refine ⟨out, cs, h, rfl, fun hbig => ?_, Iff.rfl⟩
    by_contra hcs
    exact hkeep ⟨mt h.matchIdx_eq_zero_iff.mp hcs, hbig⟩

/-- Printing goes past the buffer. -/
theorem Holds.print (h : Holds size o out []) (ys : List Int) :
    Holds size (o.print ys) (out ++ ys) [] where
  stdout := by
    change o.stdout ++ ys = out ++ ys
    rw [h.stdout]
  idx := h.idx
  stored := h.stored
  clean := h.clean
  room := h.room
  terminated := h.terminated

/-- `snprintf` with room for all bytes and the terminator. -/
theorem Holds.snprintf (h : Holds size o out cs) {ys : List Int} {n : Nat} {k : Int}
    (hys : 0 ∉ ys) (hn : ys.length + 1 ≤ n) (hk : k = o.matchIdx + ys.length)
    (hfits : cs.length + ys.length + 1 ≤ size) :
    Holds size ((o.snprintf n ys).seek k) out (cs ++ ys) ∧
      (InBounds size ((o.snprintf n ys).seek k) ↔ InBounds size o) := by
  have htake : ys.take (n - 1) = ys := List.take_of_length_le (by omega)
  have hplace : o.matchIdx = 0 + (cs.length : Int) := by rw [h.idx, Int.zero_add]
  have hbuf : ((o.snprintf n ys).seek k).matchBuf =
      CString.writeAll o.matchBuf (0 + (cs.length : Int)) (ys ++ [0]) := by
    rw [Output.snprintf, htake, ← hplace]
    rfl
  have hall : CString.Stored ((o.snprintf n ys).seek k).matchBuf 0 (cs ++ ys ++ [0]) := by
    rw [hbuf, List.append_assoc]
    exact h.stored.writeAll
  obtain ⟨hstored, hend, -⟩ := CString.stored_append.mp hall
  rw [Int.zero_add] at hend
  have hclean : 0 ∉ cs ++ ys := by
    rw [List.mem_append]
    exact fun hin => hin.elim h.clean hys
  have hidx : k = ((cs ++ ys).length : Int) := by
    rw [hk, h.idx, List.length_append]
    omega
  refine ⟨⟨⟨h.stdout, hidx, hstored, hclean⟩, ?_, fun _ => hend⟩, ?_⟩
  · rw [List.length_append]
    omega
  · have hne : ys ++ [0] ≠ [] := List.append_ne_nil_of_right_ne_nil ys (List.cons_ne_nil 0 [])
    rw [inBounds_seek, Output.snprintf, htake, h.toFills.inBounds_write hne, List.length_append,
      List.length_singleton]
    exact ⟨fun hin => hin.1, fun hin => ⟨hin, by omega⟩⟩

theorem print_nil : o.print [] = o := by
  rw [Output.print, List.append_nil]

section Prefix

variable {big : Prop} [Decidable big] {flushBuffer : Bool}

/-- The name in front of a match that is too big. -/
theorem showName_big (hr : Proper r) (hbig : big) :
    showName flags r big o = (o.print (namePart flags r), flags.showFileName) := by
  have hpos : 0 < r.filename.length := List.length_pos_iff.mpr hr.named
  rw [showName, namePart]
  cases flags.showFileName with
  | false => rw [if_neg (by simp), if_neg (by simp), print_nil]
  | true => rw [if_pos ⟨rfl, hpos⟩, if_pos hbig, if_pos rfl]

theorem showLineNo_big (hbig : big) :
    showLineNo flags r big (o, flushBuffer) =
      (o.print (lineNoPart flags r), flags.showLineno || flushBuffer) := by
  rw [showLineNo, lineNoPart]
  cases flags.showLineno with
  | false => rw [if_neg (by simp), if_neg (by simp), print_nil, Bool.false_or]
  | true => rw [if_pos rfl, if_pos hbig, if_pos rfl, Bool.true_or]

/-- The name in front of a match that fits. -/
theorem Holds.showName (h : Holds size o out cs) (flags : CtrlFlags) (hr : Proper r)
    (hbig : ¬ big)
    (hfits : cs.length + (namePart flags r).length + 1 ≤ size) :
    ∃ o', Output.showName flags r big o = (o', false) ∧
      Holds size o' out (cs ++ namePart flags r) ∧ (InBounds size o' ↔ InBounds size o) := by
  have hpos : 0 < r.filename.length := List.length_pos_iff.mpr hr.named
  rw [Output.showName]
  rw [namePart] at hfits ⊢
  cases hshow : flags.showFileName with
  | false =>
    rw [if_neg (by simp), if_neg (by simp), List.append_nil]
    exact ⟨o, rfl, h, Iff.rfl⟩
  | true =>
    rw [hshow, if_pos rfl] at hfits
    rw [if_pos ⟨rfl, hpos⟩, if_neg hbig, if_pos rfl]
    have hlength : (r.filename ++ [58]).length = r.filename.length + 1 := List.length_append
    exact ⟨_, rfl, h.snprintf (zero_notMem_colon hr.name) (by omega) (by omega) hfits⟩

theorem Holds.showLineNo (h : Holds size o out cs) (flags : CtrlFlags) (flushBuffer : Bool)
    (hr : Proper r) (hbig : ¬ big)
    (hfits : cs.length + (lineNoPart flags r).length + 1 ≤ size) :
    ∃ o', Output.showLineNo flags r big (o, flushBuffer) = (o', flushBuffer) ∧
      Holds size o' out (cs ++ lineNoPart flags r) ∧ (InBounds size o' ↔ InBounds size o) := by
  have hpos : 0 < r.filename.length := List.length_pos_iff.mpr hr.named
  rw [Output.showLineNo]
  rw [lineNoPart] at hfits ⊢
  cases hshow : flags.showLineno with
  | false =>
    rw [if_neg (by simp), if_neg (by simp), List.append_nil]
    exact ⟨o, rfl, h, Iff.rfl⟩
  | true =>
    rw [hshow, if_pos rfl] at hfits
    rw [if_pos rfl, if_neg hbig, if_pos rfl]
    dsimp only
    have hlength : (bytes (toString r.lineNo) ++ [58]).length = width r.lineNo + 1 := by
      rw [List.length_append, width_eq]
      rfl
    exact ⟨_, rfl, h.snprintf (zero_notMem_colon (zero_notMem_digits r.lineNo)) (by omega)
      (by omega) hfits⟩

end Prefix

/-- A short text does not end with a whole piece. -/
theorem not_dvd_of_short (hr : Proper r) (hshort : r.text.length + 1 < size) :
    ¬ size - 1 ∣ r.text.length := by
  intro hdvd
  have hpos : 0 < r.text.length := List.length_pos_iff.mpr hr.text_ne
  have hle := Nat.le_of_dvd hpos hdvd
  omega

/-- **`new_match`.** The line of a match is printed behind the others, at once or later; it is
only a text of whole pieces whose terminator is stored behind the array. -/
theorem Holds.newMatch (h : Holds size o out cs) (flags : CtrlFlags) (hsize : 3 ≤ size)
    (hr : Proper r) (hlast : o.lastMatchEnd = 0) :
    ∃ out' cs', Holds size (o.newMatch size flags r) out' cs' ∧
      out' ++ cs' = out ++ cs ++ printedLine flags r ∧
      (InBounds size (o.newMatch size flags r) ↔
        InBounds size o ∧ ¬ size - 1 ∣ r.text.length) := by
  have hjoin : o.joinAdjacent r = o := by
    rw [joinAdjacent, if_neg (not_not.mpr hlast)]
  obtain ⟨out₁, cs₁, h₁, hout₁, hempty, hbounds₁⟩ := h.makeRoom (totalSize flags r)
  have htotal := totalSize_eq flags hr
  rw [Output.newMatch, hjoin, ← hout₁]
  generalize Output.makeRoom size (totalSize flags r) o = o₁ at h₁ hempty hbounds₁ ⊢
  have hidx := h₁.idx
  rw [← hbounds₁, printedLine, linePrefix]
  rw [linePrefix, List.length_append] at htotal
  by_cases hbig : o₁.TooBig size (totalSize flags r)
  · obtain rfl := hempty hbig
    rw [showName_big hr hbig, showLineNo_big hbig]
    have hprinted := (h₁.print (namePart flags r)).print (lineNoPart flags r)
    by_cases hlong : size ≤ r.text.length + 1
    · obtain ⟨hholds, hbounds⟩ := hprinted.fillOutputBuffer_long r.stop hsize hr.text
        hlong (flags.showLineno || flags.showFileName)
      exact ⟨_, [], hholds, by simp, hbounds⟩
    · obtain ⟨out', cs', hholds, hout, hbounds⟩ := hprinted.fillOutputBuffer_short r.stop
        hr.text hr.text_ne (by rw [List.length_nil]; omega) (flags.showLineno || flags.showFileName)
      refine ⟨out', cs', hholds, by rw [hout]; simp, hbounds.trans ?_⟩
      exact (and_iff_left (not_dvd_of_short hr (by omega))).symm
  · have hfits : o₁.matchIdx + totalSize flags r + 1 < size := Int.not_le.mp hbig
    obtain ⟨o₂, hname, h₂, hbounds₂⟩ := h₁.showName flags hr hbig (by omega)
    have hlength : (cs₁ ++ namePart flags r).length = cs₁.length + (namePart flags r).length :=
      List.length_append
    obtain ⟨o₃, hlineNo, h₃, hbounds₃⟩ := h₂.showLineNo flags false hr hbig (by omega)
    rw [hname, hlineNo]
    have hlength' : (cs₁ ++ namePart flags r ++ lineNoPart flags r).length =
        cs₁.length + (namePart flags r).length + (lineNoPart flags r).length := by
      rw [List.length_append, hlength]
    obtain ⟨out', cs', hholds, hout, hbounds⟩ := h₃.fillOutputBuffer_short r.stop hr.text
      hr.text_ne (by omega) false
    refine ⟨out', cs', hholds, by rw [hout]; simp, ?_⟩
    rw [hbounds, hbounds₃, hbounds₂]
    exact (and_iff_left (not_dvd_of_short hr (by omega))).symm

end Output

end Recognizer
