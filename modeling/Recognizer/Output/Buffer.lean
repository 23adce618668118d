import Recognizer.Source.Output

/-!
# The output buffer is filled and flushed

Between two matches the buffer holds a string that was not printed yet. A text that does not
fit is printed in pieces; the last piece is followed by a newline and a terminator, which leaves
the array when the piece has the length of all the others.
-/

namespace Recognizer

namespace Output

variable {size stop n : Nat} {o : Output} {out cs ys text : List Int} {i k : Int}

/-- Every store was to a cell of the array. -/
def InBounds (size : Nat) (o : Output) : Prop := ∀ i ∈ o.stores, 0 ≤ i ∧ i < size

/-- What was printed, and what the buffer holds in front of the index. -/
structure Fills (o : Output) (out cs : List Int) : Prop where
  stdout : o.stdout = out
  idx : o.matchIdx = cs.length
  stored : CString.Stored o.matchBuf 0 cs
  clean : 0 ∉ cs

/-- Between two matches what the buffer holds is a string. -/
structure Holds (size : Nat) (o : Output) (out cs : List Int) : Prop extends Fills o out cs where
  room : cs.length < size
  terminated : cs ≠ [] → o.matchBuf cs.length = 0

/-- Stores to neighbouring cells. -/
theorem inBounds_write (hi : 0 ≤ i) (hcs : cs ≠ []) :
    InBounds size (o.write i cs) ↔ InBounds size o ∧ i + cs.length ≤ size := by
  have hpos : 0 < cs.length := List.length_pos_iff.mpr hcs
  constructor
  · intro h
    refine ⟨fun j hj => h j (List.mem_append_left _ hj), ?_⟩
    have hlast : i + ((cs.length - 1 : Nat) : Int) ∈ (o.write i cs).stores :=
      List.mem_append_right _ (List.mem_map.mpr
        ⟨cs.length - 1, List.mem_range.mpr (by omega), rfl⟩)
    have hbound := (h _ hlast).2
    omega
  · rintro ⟨h, hfits⟩ j hj
    rcases List.mem_append.mp hj with hj | hj
    · exact h j hj
    · obtain ⟨k, hk, rfl⟩ := List.mem_map.mp hj
      have hlt := List.mem_range.mp hk
      omega

theorem inBounds_seek : InBounds size (o.seek i) ↔ InBounds size o := Iff.rfl

theorem inBounds_flush : InBounds size (o.flushMatches size) ↔ InBounds size o := Iff.rfl

theorem Fills.idx_nonneg (h : Fills o out cs) : 0 ≤ o.matchIdx := by
  rw [h.idx]
  exact Int.natCast_nonneg _

theorem Fills.inBounds_write (h : Fills o out cs) (hys : ys ≠ []) :
    InBounds size (o.write o.matchIdx ys) ↔ InBounds size o ∧ cs.length + ys.length ≤ size := by
  rw [Output.inBounds_write h.idx_nonneg hys, h.idx]
  refine and_congr_right fun _ => ?_
  omega

theorem Fills.inBounds_appendNull (h : Fills o out cs) (stop : Nat) :
    InBounds size (o.appendNull stop) ↔ InBounds size o ∧ cs.length + 1 ≤ size :=
  h.inBounds_write (List.cons_ne_nil 0 [])

theorem Fills.inBounds_appendNewline (h : Fills o out cs) :
    InBounds size o.appendNewline ↔ InBounds size o ∧ cs.length + 1 ≤ size :=
  h.inBounds_write (List.cons_ne_nil 10 [])

/-- Bytes behind the index. -/
theorem Fills.write (h : Fills o out cs) (hys : 0 ∉ ys) (hk : k = o.matchIdx + ys.length) :
    Fills ((o.write o.matchIdx ys).seek k) out (cs ++ ys) where
  stdout := h.stdout
  idx := by
    rw [List.length_append, Int.natCast_add, ← h.idx]
    exact hk
  stored := by
    have hplace : o.matchIdx = 0 + (cs.length : Int) := by rw [h.idx, Int.zero_add]
    change CString.Stored (CString.writeAll o.matchBuf o.matchIdx ys) 0 (cs ++ ys)
    rw [hplace]
    exact h.stored.writeAll
  clean := by
    rw [List.mem_append]
    exact fun hin => hin.elim h.clean hys

theorem Fills.appendNewline (h : Fills o out cs) : Fills o.appendNewline out (cs ++ [10]) :=
  h.write (by decide) rfl

/-- A terminator behind the index. -/
theorem Fills.appendNull (h : Fills o out cs) (stop : Nat) :
    Fills (o.appendNull stop) out cs ∧ (o.appendNull stop).matchBuf cs.length = 0 := by
  have hplace : o.matchIdx = cs.length := h.idx
  have hbuf : (o.appendNull stop).matchBuf = CString.writeAll o.matchBuf cs.length [0] := by
    rw [← hplace]
    rfl
  refine ⟨⟨h.stdout, h.idx, ?_, h.clean⟩, ?_⟩
  · rw [hbuf]
    refine h.stored.congr fun j hlow hhigh => ?_
    exact CString.writeAll_of_outside (.inl (by omega))
  · have hnull : CString.Stored (CString.writeAll o.matchBuf cs.length [0]) cs.length [0] :=
      CString.stored_writeAll
    rw [hbuf]
    exact hnull.1

/-- `flush_matches` prints the string. -/
theorem Fills.flush (h : Fills o out cs) (hend : o.matchBuf cs.length = 0)
    (hlength : cs.length ≤ size) (hsize : 0 < size) :
    Holds size (o.flushMatches size) (out ++ cs) [] := by
  have hread : CString.read o.matchBuf (size + 1) 0 = cs :=
    h.stored.read (by rw [Int.zero_add, hend]) h.clean (by omega)
  refine ⟨⟨?_, rfl, trivial, List.not_mem_nil⟩, hsize, fun hne => absurd rfl hne⟩
  change o.stdout ++ CString.read o.matchBuf (size + 1) 0 = out ++ cs
  rw [hread, h.stdout]

/-- A string that is flushed behind its terminator. -/
theorem Fills.appendNull_flush (h : Fills o out cs) (stop : Nat) (hlength : cs.length ≤ size)
    (hsize : 0 < size) :
    Holds size ((o.appendNull stop).flushMatches size) (out ++ cs) [] ∧
      (InBounds size ((o.appendNull stop).flushMatches size) ↔
        InBounds size o ∧ cs.length + 1 ≤ size) := by
  obtain ⟨hfills, hend⟩ := h.appendNull stop
  exact ⟨hfills.flush hend hlength hsize, h.inBounds_appendNull stop⟩

/-- An empty buffer starts anywhere. -/
theorem Holds.flushed (h : Holds size o out cs) (hcs : cs ≠ []) :
    Holds size (o.flushMatches size) (out ++ cs) [] :=
  h.toFills.flush (h.terminated hcs) (Nat.le_of_lt h.room) (by have := h.room; omega)

theorem Holds.matchIdx_eq_zero_iff (h : Holds size o out cs) : o.matchIdx = 0 ↔ cs = [] := by
  rw [h.idx, Int.natCast_eq_zero, List.length_eq_zero_iff]

/-- One piece of a long text. -/
theorem Holds.piece (h : Holds size o out []) (stop : Nat) (hys : 0 ∉ ys)
    (hne : ys ≠ []) (hlength : ys.length = size - 1) (hsize : 3 ≤ size) (hk : k = size - 1) :
    Holds size ((((o.write o.matchIdx ys).seek k).appendNull stop).flushMatches size)
        (out ++ ys) [] ∧
      (InBounds size ((((o.write o.matchIdx ys).seek k).appendNull stop).flushMatches size) ↔
        InBounds size o) := by
  have hidx : o.matchIdx = 0 := h.matchIdx_eq_zero_iff.mpr rfl
  have hwrite : Fills ((o.write o.matchIdx ys).seek k) out ([] ++ ys) :=
    h.toFills.write hys (by omega)
  have hfits : ([] ++ ys).length ≤ size := by
    rw [List.nil_append]
    omega
  obtain ⟨hholds, hbounds⟩ := hwrite.appendNull_flush stop hfits (by omega)
  refine ⟨hholds, ?_⟩
  rw [hbounds, inBounds_seek, h.toFills.inBounds_write hne, List.nil_append, List.length_nil]
  exact ⟨fun hin => hin.1.1, fun hin => ⟨⟨hin, by omega⟩, by omega⟩⟩

/-- The loop prints pieces of full length until the rest has at most that length. -/
theorem Holds.fillLoop (h : Holds size o out []) (stop : Nat) (hsize : 3 ≤ size)
    (hn : text.length ≤ n) (htext : 0 ∉ text) (hne : text ≠ []) :
    ∃ sent rest o', Output.fillLoop size stop n text o = (rest, o') ∧ text = sent ++ rest ∧
      rest ≠ [] ∧ rest.length ≤ size - 1 ∧ size - 1 ∣ sent.length ∧
      Holds size o' (out ++ sent) [] ∧ (InBounds size o' ↔ InBounds size o) := by
  induction n generalizing text o out with
  | zero => exact absurd (List.length_eq_zero_iff.mp (Nat.le_zero.mp hn)) hne
  | succ n ih =>
    rw [Output.fillLoop]
    by_cases hlong : size - 1 < text.length
    · rw [if_pos hlong]
      have htake : (text.take (size - 1)).length = size - 1 := by
        rw [List.length_take]
        omega
      have hdrop : (text.drop (size - 1)).length = text.length - (size - 1) := List.length_drop
      have hpiece : text.take (size - 1) ≠ [] := by
        rw [← List.length_pos_iff, htake]
        omega
      obtain ⟨hholds, hbounds⟩ := h.piece stop (k := size - 1)
        (fun hin => htext (List.mem_of_mem_take hin)) hpiece htake hsize rfl
      have hmore : text.drop (size - 1) ≠ [] := by
        rw [← List.length_pos_iff, hdrop]
        omega
      have hfewer : (text.drop (size - 1)).length ≤ n := by omega
      obtain ⟨sent, rest, o', hloop, hsplit, hrest, hshort, hdvd, hholds', hbounds'⟩ :=
        ih hholds hfewer (fun hin => htext (List.mem_of_mem_drop hin)) hmore
      refine ⟨text.take (size - 1) ++ sent, rest, o', hloop, ?_, hrest, hshort, ?_, ?_,
        hbounds'.trans hbounds⟩
      · rw [List.append_assoc, ← hsplit, List.take_append_drop]
      · rw [List.length_append, htake]
        exact (Nat.dvd_add_right (Nat.dvd_refl _)).mpr hdvd
      · rw [← List.append_assoc]
        exact hholds'
    · rw [if_neg hlong]
      refine ⟨[], text, o, rfl, rfl, hne, by omega, Nat.dvd_zero _, ?_, Iff.rfl⟩
      rw [List.append_nil]
      exact h

/-- A text with its newline and a terminator. -/
theorem Fills.fillLine (h : Fills o out cs) (size : Nat) (htext : 0 ∉ text) (hne : text ≠ [])
    (hk : k = o.matchIdx + text.length) :
    Fills ((o.write o.matchIdx text).seek k).appendNewline out (cs ++ text ++ [10]) ∧
      (InBounds size ((o.write o.matchIdx text).seek k).appendNewline ↔
        InBounds size o ∧ cs.length + text.length + 1 ≤ size) := by
  have hwrite := h.write htext hk
  refine ⟨hwrite.appendNewline, ?_⟩
  rw [hwrite.inBounds_appendNewline, inBounds_seek, h.inBounds_write hne, List.length_append]
  exact ⟨fun hin => ⟨hin.1.1, hin.2⟩, fun hin => ⟨⟨hin.1, by omega⟩, hin.2⟩⟩

/-- The last piece. -/
theorem Holds.fillLast (h : Holds size o out []) (stop : Nat) (hsize : 3 ≤ size)
    (htext : 0 ∉ text) (hne : text ≠ []) (hshort : text.length ≤ size - 1) :
    Holds size (Output.fillLast size stop text o) (out ++ text ++ [10]) [] ∧
      (InBounds size (Output.fillLast size stop text o) ↔
        InBounds size o ∧ text.length ≠ size - 1) := by
  have hidx : o.matchIdx = 0 := h.matchIdx_eq_zero_iff.mpr rfl
  have hpos : 0 < text.length := List.length_pos_iff.mpr hne
  rw [Output.fillLast, if_neg (by omega), if_neg (by omega)]
  dsimp only
  rw [List.take_length, ← hidx]
  obtain ⟨hfills, hbounds⟩ := h.toFills.fillLine size htext hne
    (show (text.length : Int) = o.matchIdx + text.length by omega)
  have hlength : ([] ++ text ++ [10]).length = text.length + 1 := by simp
  have hroom : ([] ++ text ++ [10]).length ≤ size := by omega
  obtain ⟨hholds, hbounds'⟩ := hfills.appendNull_flush stop hroom (by omega)
  refine ⟨?_, ?_⟩
  · rw [List.append_assoc]
    exact hholds
  · rw [hbounds', hbounds, hlength, List.length_nil]
    exact ⟨fun hin => ⟨hin.1.1, by have := hin.2; omega⟩,
      fun hin => ⟨⟨hin.1, by omega⟩, by have := hin.2; omega⟩⟩

/-- A text whose length is not a multiple of the length of a piece ends in the array. -/
theorem dvd_length_iff {sent rest : List Int} (hrest : rest ≠ [])
    (hshort : rest.length ≤ size - 1) (hdvd : size - 1 ∣ sent.length) :
    size - 1 ∣ (sent ++ rest).length ↔ rest.length = size - 1 := by
  have hpos : 0 < rest.length := List.length_pos_iff.mpr hrest
  rw [List.length_append, Nat.dvd_add_right hdvd]
  constructor
  · intro h
    have hle := Nat.le_of_dvd hpos h
    omega
  · intro h
    rw [h]

/-- `fill_output_buffer` on a text that does not fit into the empty buffer. -/
theorem Holds.fillOutputBuffer_long (h : Holds size o out []) (stop : Nat) (hsize : 3 ≤ size)
    (htext : 0 ∉ text) (hlong : size ≤ text.length + 1) (flushBuffer : Bool) :
    Holds size (fillOutputBuffer size stop text flushBuffer o) (out ++ text ++ [10]) [] ∧
      (InBounds size (fillOutputBuffer size stop text flushBuffer o) ↔
        InBounds size o ∧ ¬ size - 1 ∣ text.length) := by
  have hidx : o.matchIdx = 0 := h.matchIdx_eq_zero_iff.mpr rfl
  have hne : text ≠ [] := by
    rw [← List.length_pos_iff]
    omega
  have hfirst : fillFirst size stop text o = (text, o) := by
    rw [fillFirst, if_neg (by simp [hidx])]
  obtain ⟨sent, rest, o', hloop, rfl, hrest, hshort, hdvd, hholds, hbounds⟩ :=
    h.fillLoop stop hsize (Nat.le_refl _) htext hne
  have hclean : 0 ∉ rest := fun hin => htext (List.mem_append_right _ hin)
  rw [fillOutputBuffer, if_pos (by omega), hfirst]
  dsimp only
  rw [hloop]
  obtain ⟨hlast, hbounds'⟩ := hholds.fillLast stop hsize hclean hrest hshort
  refine ⟨?_, ?_⟩
  · rw [← List.append_assoc]
    exact hlast
  · rw [hbounds', hbounds, dvd_length_iff hrest hshort hdvd]

/-- `fill_output_buffer` on a text that fits. -/
theorem Holds.fillOutputBuffer_short (h : Holds size o out cs) (stop : Nat) (htext : 0 ∉ text)
    (hne : text ≠ [])
    (hfits : cs.length + text.length + 1 < size) (flushBuffer : Bool) :
    ∃ out' cs', Holds size (fillOutputBuffer size stop text flushBuffer o) out' cs' ∧
      out' ++ cs' = out ++ (cs ++ text ++ [10]) ∧
      (InBounds size (fillOutputBuffer size stop text flushBuffer o) ↔ InBounds size o) := by
  have hidx := h.idx
  rw [fillOutputBuffer, if_neg (by omega)]
  dsimp only
  obtain ⟨hfills, hbounds⟩ := h.toFills.fillLine size htext hne
    (show o.matchIdx + text.length = o.matchIdx + text.length from rfl)
  have hlength : (cs ++ text ++ [10]).length = cs.length + text.length + 1 := by
    simp [Nat.add_assoc]
  cases flushBuffer with
  | false =>
    rw [if_neg Bool.false_ne_true]
    obtain ⟨hnull, hend⟩ := hfills.appendNull stop
    refine ⟨out, cs ++ text ++ [10], ⟨hnull, by omega, fun _ => hend⟩, rfl, ?_⟩
    rw [hfills.inBounds_appendNull, hbounds, hlength]
    exact ⟨fun hin => hin.1.1, fun hin => ⟨⟨hin, by omega⟩, by omega⟩⟩
  | true =>
    rw [if_pos rfl]
    have hroom : (cs ++ text ++ [10]).length ≤ size := by omega
    obtain ⟨hholds, hbounds'⟩ := hfills.appendNull_flush stop hroom (by omega)
    refine ⟨_, [], hholds, List.append_nil _, ?_⟩
    rw [hbounds', hbounds, hlength]
    exact ⟨fun hin => hin.1.1, fun hin => ⟨⟨hin, by omega⟩, by omega⟩⟩

end Output

end Recognizer
