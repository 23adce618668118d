import Mathlib.Data.Nat.Init
import Mathlib.Tactic.Common

/-!
# Shifts of a window over a text

A word of length `m` is compared with the window of a text from the right end.
After a mismatch at index `i` the window moves by some `s`. An occurrence inside
that move asks the word to agree with itself at distance `s` behind `i` and to
differ from itself at `i`. Such distances are suffix lengths of the word: how far
its prefix that ends at an index agrees with its own end.
-/

namespace WindowShift

variable {α : Type*} {p t : Nat → α} {m i j k n s : Nat}

/-- The word `p` of length `m` occurs in `t` at `j`. -/
def Occurs (p : Nat → α) (m : Nat) (t : Nat → α) (j : Nat) : Prop :=
  ∀ k < m, t (j + k) = p k

/-- The window at `j` agrees with the word behind index `i`. -/
def AgreesBehind (p : Nat → α) (m : Nat) (t : Nat → α) (j i : Nat) : Prop :=
  ∀ k, i < k → k < m → t (j + k) = p k

/-- The word agrees with itself at distance `s` behind index `i`, and not at `i`. -/
structure Fits (p : Nat → α) (m i s : Nat) : Prop where
  behind : ∀ k, i < k → k < m → s ≤ k → p (k - s) = p k
  differs : s ≤ i → p (i - s) ≠ p i

/-- An occurrence ahead of a mismatching window lies at a fitting distance. -/
theorem Occurs.fits (hbehind : AgreesBehind p m t j i) (hne : t (j + i) ≠ p i) (hi : i < m)
    (hocc : Occurs p m t (j + s)) : Fits p m i s := by
  have hshift : ∀ k, k < m → s ≤ k → t (j + k) = p (k - s) := by
    intro k hk hsk
    have h := hocc (k - s) (by omega)
    rwa [show j + s + (k - s) = j + k by omega] at h
  refine ⟨fun k hik hk hsk => ?_, fun hsi heq => ?_⟩
  · rw [← hshift k hk hsk, hbehind k hik hk]
  · exact hne ((hshift i hi hsi).trans heq)

/-- An occurrence ahead of a matching window lies at a distance that fits behind index `0`. -/
theorem Occurs.fits_zero (hhere : Occurs p m t j) (hs : 0 < s) (hocc : Occurs p m t (j + s)) :
    Fits p m 0 s := by
  refine ⟨fun k _ hk hsk => ?_, fun hzero => ?_⟩
  · have h := hocc (k - s) (by omega)
    rw [show j + s + (k - s) = j + k by omega, hhere k hk] at h
    exact h.symm
  · omega

/-- The `n` symbols of the word up to index `i` are its last `n` symbols. -/
def AgreesWithEnd (p : Nat → α) (m i n : Nat) : Prop :=
  ∀ d < n, p (i - d) = p (m - 1 - d)

/-- `n` is the largest number of symbols up to index `i` that agree with the end. -/
structure SuffixLength (p : Nat → α) (m i n : Nat) : Prop where
  le : n ≤ i + 1
  agrees : AgreesWithEnd p m i n
  maximal : n ≤ i → p (i - n) ≠ p (m - 1 - n)

namespace SuffixLength

/-- The suffix length is unique. -/
theorem unique {n' : Nat} (h : SuffixLength p m i n) (h' : SuffixLength p m i n') : n = n' := by
  rcases Nat.lt_trichotomy n n' with hlt | heq | hgt
  · exact absurd (h'.agrees n hlt) (h.maximal (by have := h'.le; omega))
  · exact heq
  · exact absurd (h.agrees n' hgt) (h'.maximal (by have := h.le; omega))

/-- The whole word agrees with its end. -/
theorem last (hm : 0 < m) : SuffixLength p m (m - 1) m :=
  ⟨by omega, fun _ _ => rfl, fun h => by omega⟩

/-- Inside a stretch that repeats the end of the word, a suffix length shorter
than the rest of the stretch is the one at the repeated index. -/
theorem copy {f g : Nat} (hstretch : AgreesWithEnd p m f (f + 1 - g)) (hif : i < f)
    (hfm : f < m) (hg : g ≤ i) (h : SuffixLength p m (i + (m - 1 - f)) n) (hn : n < i + 1 - g) :
    SuffixLength p m i n := by
  have hmove : ∀ d < i + 1 - g, p (i - d) = p (i + (m - 1 - f) - d) := by
    intro d hd
    have hs := hstretch (f - i + d) (by omega)
    rwa [show f - (f - i + d) = i - d by omega,
      show m - 1 - (f - i + d) = i + (m - 1 - f) - d by omega] at hs
  refine ⟨by omega, fun d hd => ?_, fun _ => ?_⟩
  · rw [hmove d (by omega)]
    exact h.agrees d hd
  · rw [hmove n hn]
    exact h.maximal (by omega)

/-- A suffix length that reaches the end of the stretch gives agreement up to there. -/
theorem reaches {f g : Nat} (hstretch : AgreesWithEnd p m f (f + 1 - g)) (hif : i < f)
    (hfm : f < m) (h : SuffixLength p m (i + (m - 1 - f)) n) (hn : i + 1 - g ≤ n) :
    AgreesWithEnd p m i (i + 1 - g) := by
  intro d hd
  have hs := hstretch (f - i + d) (by omega)
  rw [show f - (f - i + d) = i - d by omega,
    show m - 1 - (f - i + d) = i + (m - 1 - f) - d by omega] at hs
  rw [hs]
  exact h.agrees d (by omega)

end SuffixLength

/-- A fitting distance up to the mismatch is the distance to an index whose
suffix length ends at the mismatch. -/
theorem Fits.suffixLength (h : Fits p m i s) (hs : 0 < s) (hsi : s ≤ i) (hi : i < m) :
    SuffixLength p m (m - 1 - s) (m - 1 - i) := by
  refine ⟨by omega, fun d hd => ?_, fun _ => ?_⟩
  · have hb := h.behind (m - 1 - d) (by omega) (by omega) (by omega)
    rwa [show m - 1 - d - s = m - 1 - s - d by omega] at hb
  · rw [show m - 1 - s - (m - 1 - i) = i - s by omega, show m - 1 - (m - 1 - i) = i by omega]
    exact h.differs hsi

/-- A fitting distance past the mismatch leaves a prefix of the word that is its end. -/
theorem Fits.suffixLength_prefix (h : Fits p m i s) (his : i < s) (hs : s < m) :
    SuffixLength p m (m - 1 - s) (m - s) := by
  refine ⟨by omega, fun d hd => ?_, fun _ => by omega⟩
  have hb := h.behind (m - 1 - d) (by omega) (by omega) (by omega)
  rwa [show m - 1 - d - s = m - 1 - s - d by omega] at hb

end WindowShift
