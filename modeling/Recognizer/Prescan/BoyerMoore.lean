import Mathlib.Data.List.Basic
import Recognizer.Core.WindowShift
import Recognizer.Source.Search

/-!
# Boyer-Moore search is exact

`compute_suffix` computes the suffix lengths of the pattern, three passes turn
them into the good suffix table, and no shift of `bm_search` passes an
occurrence.
-/

namespace Recognizer

namespace BMObj

open WindowShift

variable {pattern text suff : List Int} {m i k : Nat}

theorem byteAt_natCast (xs : List Int) (i : Nat) : byteAt xs i = word xs i := rfl

theorem byteAt_of_eq (xs : List Int) {x : Int} (hx : x = (i : Int)) : byteAt xs x = word xs i := by
  rw [hx, byteAt_natCast]

/-- Small numbers keep their value as a `char`. -/
theorem toChar_of_le {x : Int} (hlow : 0 ≤ x) (hhigh : x ≤ 127) : toChar x = x := by
  unfold toChar
  omega

/-- The inner loop of `compute_suffix` walks down to the end of the agreement.
`e` is the index above `g`. -/
theorem extendSuffix_spec {f : Nat} (hf : f < m) {fuel e : Nat} (hfuel : e ≤ fuel)
    (he : e ≤ f + 1) (hagree : AgreesWithEnd (word pattern) m f (f + 1 - e)) :
    ∃ e' : Nat, e' ≤ e ∧ extendSuffix pattern m f fuel ((e : Int) - 1) = (e' : Int) - 1 ∧
      SuffixLength (word pattern) m f (f + 1 - e') := by
  induction fuel generalizing e with
  | zero =>
    obtain rfl : e = 0 := by omega
    exact ⟨0, le_rfl, rfl, by omega, hagree, fun h => by omega⟩
  | succ fuel ih =>
    rw [extendSuffix]
    cases e with
    | zero =>
      rw [if_neg (by omega)]
      exact ⟨0, le_rfl, rfl, by omega, hagree, fun h => by omega⟩
    | succ x =>
      have hleft : byteAt pattern (((x + 1 : Nat) : Int) - 1) = word pattern x :=
        byteAt_of_eq pattern (by omega)
      have hright : byteAt pattern (((x + 1 : Nat) : Int) - 1 + m - 1 - f) =
          word pattern (x + (m - 1 - f)) := byteAt_of_eq pattern (by omega)
      rw [hleft, hright]
      split
      · rename_i hcond
        have hmore : AgreesWithEnd (word pattern) m f (f + 1 - x) := by
          intro d hd
          rcases Nat.lt_or_ge d (f + 1 - (x + 1)) with hlt | hge
          · exact hagree d hlt
          · rw [show f - d = x by omega, show m - 1 - d = x + (m - 1 - f) by omega]
            exact hcond.2
        obtain ⟨e', hle, hrun, hlen⟩ := ih (by omega) (by omega) hmore
        refine ⟨e', by omega, ?_, hlen⟩
        rw [← hrun]
        congr 1
        omega
      · rename_i hcond
        refine ⟨x + 1, le_rfl, rfl, by omega, hagree, fun _ => ?_⟩
        rw [show f - (f + 1 - (x + 1)) = x by omega,
          show m - 1 - (f + 1 - (x + 1)) = x + (m - 1 - f) by omega]
        intro heq
        exact hcond ⟨by omega, heq⟩

/-- What the loop of `compute_suffix` has established when the indices below `k`
remain: the entries from `k` on are suffix lengths, and if the agreement found
last reaches below `k`, it is the stretch from `g` to `f`. -/
structure SuffixesFrom (pattern : List Int) (k : Nat) (f g : Int) (suff : List Int) : Prop where
  length : suff.length = pattern.length
  entries : ∀ i, k ≤ i → i < pattern.length →
    ∃ n : Nat, word suff i = n ∧ SuffixLength (word pattern) pattern.length i n
  lower : -1 ≤ g
  upper : g < pattern.length
  stretch : g + 1 < k → ∃ e f' : Nat, g = e - 1 ∧ f = f' ∧ k ≤ f' ∧ f' + 1 < pattern.length ∧
    AgreesWithEnd (word pattern) pattern.length f' (f' + 1 - e)

theorem word_set_self {x : Int} (hi : i < suff.length) : word (suff.set i x) i = x := by
  simp [word, List.getD_eq_getElem?_getD, hi]

theorem word_set_ne {x : Int} {j : Nat} (hne : i ≠ j) : word (suff.set i x) j = word suff j := by
  simp [word, List.getD_eq_getElem?_getD, List.getElem?_set_ne hne]

/-- Filling in the entry at `k`. -/
theorem SuffixesFrom.fill {f g f' g' : Int} {n : Nat} (h : SuffixesFrom pattern (k + 1) f g suff)
    (hn : SuffixLength (word pattern) pattern.length k n) (hlower : -1 ≤ g')
    (hupper : g' < pattern.length)
    (hstretch : g' + 1 < k → ∃ e x : Nat, g' = e - 1 ∧ f' = x ∧ k ≤ x ∧ x + 1 < pattern.length ∧
      AgreesWithEnd (word pattern) pattern.length x (x + 1 - e)) :
    SuffixesFrom pattern k f' g' (suff.set k n) := by
  refine ⟨by rw [List.length_set, h.length], fun i hki him => ?_, hlower, hupper, hstretch⟩
  rcases Nat.eq_or_lt_of_le hki with rfl | hlt
  · exact ⟨n, word_set_self (by rwa [h.length]), hn⟩
  · rw [word_set_ne (by omega)]
    exact h.entries i hlt him

/-- The loop of `compute_suffix`. -/
theorem suffixLoop_spec (hm : pattern.length ≤ 127) {f g : Int}
    (h : SuffixesFrom pattern k f g suff) (hk : k < pattern.length) :
    ∃ f' g', SuffixesFrom pattern 0 f' g' (suffixLoop pattern pattern.length k f g suff) := by
  induction k generalizing f g suff with
  | zero => exact ⟨f, g, h⟩
  | succ k ih =>
    have hkm : k < pattern.length := by omega
    rw [suffixLoop]
    dsimp only
    split
    · rename_i hcond
      obtain ⟨e, f', rfl, rfl, hkf, hfm, hagree⟩ := h.stretch (by omega)
      obtain ⟨n, hn, hlen⟩ := h.entries (k + (pattern.length - 1 - f')) (by omega) (by omega)
      have hread : byteAt suff ((k : Int) + pattern.length - 1 - f') = n := by
        rw [byteAt_of_eq suff (i := k + (pattern.length - 1 - f')) (by omega), hn]
      rw [hread] at hcond ⊢
      refine ih (h.fill ?_ h.lower h.upper fun _ => ⟨e, f', rfl, rfl, by omega, hfm, hagree⟩)
        hkm
      exact hlen.copy hagree (by omega) (by omega) (by omega) (by omega)
    · rename_i hcond
      have hstart : ∃ e : Nat, e ≤ k + 1 ∧ (if (k : Int) < g then (k : Int) else g) = e - 1 ∧
          AgreesWithEnd (word pattern) pattern.length k (k + 1 - e) := by
        rcases lt_or_ge g (k : Int) with hlt | hge
        · obtain ⟨e, f', rfl, rfl, hkf, hfm, hagree⟩ := h.stretch (by omega)
          obtain ⟨n, hn, hlen⟩ := h.entries (k + (pattern.length - 1 - f')) (by omega) (by omega)
          have hread : byteAt suff ((k : Int) + pattern.length - 1 - f') = n := by
            rw [byteAt_of_eq suff (i := k + (pattern.length - 1 - f')) (by omega), hn]
          rw [hread] at hcond
          refine ⟨e, by omega, by rw [if_neg (by omega)], ?_⟩
          exact hlen.reaches hagree (by omega) (by omega) (by omega)
        · refine ⟨k + 1, le_rfl, ?_, fun d hd => by omega⟩
          split <;> omega
      obtain ⟨e, he, hg, hagree⟩ := hstart
      rw [hg]
      have hfuel : e ≤ pattern.length := by omega
      obtain ⟨e', hle, hrun, hlen⟩ := extendSuffix_spec hkm hfuel he hagree
      rw [hrun, show (k : Int) - ((e' : Int) - 1) = ((k + 1 - e' : Nat) : Int) by omega,
        toChar_of_le (by omega) (by omega)]
      refine ih (h.fill hlen (by omega) (by omega) fun _ => ?_) hkm
      exact ⟨e', k, rfl, rfl, le_rfl, hk, hlen.agrees⟩

/-- **`compute_suffix` computes the suffix lengths.** -/
theorem computeSuffix_spec (hpos : 0 < pattern.length) (hm : pattern.length ≤ 127) :
    (computeSuffix pattern).length = pattern.length ∧ ∀ i < pattern.length,
      ∃ n : Nat, word (computeSuffix pattern) i = n ∧
        SuffixLength (word pattern) pattern.length i n := by
  have hinit : SuffixesFrom pattern (pattern.length - 1) ((pattern.length : Int) - 2)
      ((pattern.length : Int) - 1)
      ((List.replicate pattern.length 0).set (pattern.length - 1) (toChar pattern.length)) := by
    refine ⟨by simp, fun i hi him => ?_, by omega, by omega, by omega⟩
    obtain rfl : i = pattern.length - 1 := by omega
    refine ⟨pattern.length, ?_, .last hpos⟩
    rw [word_set_self (by simp; omega), toChar_of_le (by omega) (by omega)]
  obtain ⟨f, g, h⟩ := suffixLoop_spec hm hinit (by omega)
  exact ⟨h.length, fun i hi => h.entries i (Nat.zero_le i) hi⟩

/-- The loop of `compute_suffix` keeps the entries it has passed. -/
theorem suffixLoop_keeps {f g : Int} {k i : Nat} (hi : k ≤ i) :
    word (suffixLoop pattern m k f g suff) i = word suff i := by
  induction k generalizing f g suff with
  | zero => rfl
  | succ k ih =>
    rw [suffixLoop]
    dsimp only
    split
    · rw [ih (by omega), word_set_ne (by omega)]
    · rw [ih (by omega), word_set_ne (by omega)]

/-- The last entry of `compute_suffix` is the length of the pattern as a `char`. -/
theorem computeSuffix_last (hpos : 0 < pattern.length) :
    word (computeSuffix pattern) (pattern.length - 1) = toChar pattern.length := by
  unfold computeSuffix
  dsimp only
  rw [suffixLoop_keeps le_rfl, word_set_self]
  rw [List.length_replicate]
  omega

/-- Every entry of `compute_suffix` is the length of the longest common suffix of
the pattern up to its index and the pattern, and the last pass of
`compute_good_suffix` writes inside its table. -/
structure TablesRight (pattern : List Int) : Prop where
  entries : ∀ i < pattern.length, ∃ n : Nat, word (computeSuffix pattern) i = n ∧
    SuffixLength (word pattern) pattern.length i n
  indices : ∀ i < pattern.length - 1,
    0 ≤ (pattern.length : Int) - 1 - word (computeSuffix pattern) i ∧
      (pattern.length : Int) - 1 - word (computeSuffix pattern) i ≤ pattern.length - 1

/-- **The tables are right as long as the length of the pattern fits a `char`.** -/
theorem tablesRight_iff (hpos : 0 < pattern.length) :
    TablesRight pattern ↔ pattern.length ≤ 127 := by
  constructor
  · intro h
    obtain ⟨n, hn, hlen⟩ := h.entries (pattern.length - 1) (by omega)
    rw [computeSuffix_last hpos, hlen.unique (.last hpos)] at hn
    unfold toChar at hn
    omega
  · intro hm
    obtain ⟨-, hentries⟩ := computeSuffix_spec hpos hm
    refine ⟨hentries, fun i hi => ?_⟩
    obtain ⟨n, hn, hlen⟩ := hentries i (by omega)
    have hle := hlen.le
    rw [hn]
    omega

theorem tablesRight_aba : TablesRight (bytes "aba") := (tablesRight_iff (by decide)).mpr (by decide)

/-- The entry of a pattern of `129` bytes for the whole pattern is `-127`. -/
theorem tablesRight_fails :
    ¬ ∀ pattern : List Int, 0 < pattern.length → TablesRight pattern := by
  intro h
  obtain ⟨n, hn, -⟩ := (h (List.replicate 129 97) (by simp)).entries 128 (by simp)
  have hlast := @computeSuffix_last (List.replicate 129 97) (by simp)
  rw [List.length_replicate] at hlast
  rw [hlast] at hn
  have hchar : toChar (129 : Nat) = -127 := by decide
  omega

/-- One run of the inner loop of the second pass. -/
theorem fillRange_spec (good : List Int) (shift j n : Nat) (hn : j + n ≤ good.length) :
    (fillRange m shift j n good).length = good.length ∧
      ∀ idx, word (fillRange m shift j n good) idx =
        if j ≤ idx ∧ idx < j + n ∧ word good idx = m then (shift : Int) else word good idx := by
  induction n with
  | zero =>
    refine ⟨rfl, fun idx => ?_⟩
    rw [if_neg (by omega)]
    rfl
  | succ n ih =>
    obtain ⟨hlen, hword⟩ := ih (by omega)
    have hstep : fillRange m shift j (n + 1) good =
        if word (fillRange m shift j n good) (j + n) = m then
          (fillRange m shift j n good).set (j + n) shift
        else fillRange m shift j n good := by
      simp only [fillRange, List.range_succ, List.foldl_append, List.foldl_cons, List.foldl_nil]
      rfl
    rw [hstep]
    generalize fillRange m shift j n good = filled at hlen hword ⊢
    have hlast : word filled (j + n) = word good (j + n) := by
      rw [hword, if_neg (by omega)]
    have hother : ∀ idx, idx ≠ j + n → word filled idx =
        if j ≤ idx ∧ idx < j + (n + 1) ∧ word good idx = m then (shift : Int)
        else word good idx := by
      intro idx hne
      rw [hword]
      exact if_congr (by omega) rfl rfl
    split
    · rename_i hm
      refine ⟨by rw [List.length_set, hlen], fun idx => ?_⟩
      by_cases hidx : idx = j + n
      · subst hidx
        rw [word_set_self (by omega), if_pos ⟨by omega, by omega, hlast.symm.trans hm⟩]
      · rw [word_set_ne (Ne.symm hidx), hother idx hidx]
    · rename_i hm
      refine ⟨hlen, fun idx => ?_⟩
      by_cases hidx : idx = j + n
      · subst hidx
        rw [hlast, if_neg fun h => hm (hlast.trans h.2.2)]
      · exact hother idx hidx

/-- What the second pass has established when the indices below `r` remain: all
entries are shifts, and those a prefix at or above `r` asks for are small enough. -/
structure PrefixesFrom (m : Nat) (suffix : List Int) (r : Nat) (acc : Nat × List Int) :
    Prop where
  length : acc.2.length = m
  bound : acc.1 ≤ m
  pos : ∀ i < m, 1 ≤ word acc.2 i
  le : ∀ i < m, word acc.2 i ≤ m
  filled : ∀ i < acc.1, word acc.2 i ≠ m
  small : ∀ i < m, word acc.2 i = m ∨ word acc.2 i + r + 1 ≤ m
  prefixes : ∀ k, r ≤ k → k < m → word suffix k = k + 1 → ∀ i, i + k + 1 < m →
    word acc.2 i + k + 1 ≤ m

/-- One round of the second pass. -/
theorem PrefixesFrom.step {suffix : List Int} {r : Nat} {acc : Nat × List Int}
    (h : PrefixesFrom m suffix (r + 1) acc) (hr : r < m) :
    PrefixesFrom m suffix r (fillPrefix m suffix acc r) := by
  obtain ⟨j, good⟩ := acc
  obtain ⟨hlength, hbound, hpos, hle, hfilled, hsmall, hprefixes⟩ := h
  dsimp only at hlength hbound hpos hle hfilled hsmall hprefixes
  unfold fillPrefix
  dsimp only
  split
  · obtain ⟨hlen, hword⟩ := fillRange_spec (m := m) good (m - 1 - r) j (m - 1 - r - j) (by omega)
    generalize fillRange m (m - 1 - r) j (m - 1 - r - j) good = new at hlen hword ⊢
    refine ⟨hlen.trans hlength, by simp only; omega, fun i hi => ?_, fun i hi => ?_, fun i hi => ?_,
      fun i hi => ?_, fun k hrk hk hfull i hi => ?_⟩
    all_goals
      dsimp only at hi ⊢
      rw [hword]
    · have := hpos i hi
      split <;> omega
    · have := hle i hi
      split <;> omega
    · split
      · omega
      · rename_i hnot
        rcases Nat.lt_or_ge i j with hlt | hge
        · exact hfilled i hlt
        · exact fun hm => hnot ⟨hge, by omega, hm⟩
    · have := hsmall i hi
      split <;> omega
    · rcases Nat.eq_or_lt_of_le hrk with rfl | hlt
      · have hs := hsmall i (by omega)
        split
        · omega
        · rename_i hnot
          rcases Nat.lt_or_ge i j with hij | hij
          · have := hfilled i hij
            omega
          · have : word good i ≠ m := fun hm => hnot ⟨hij, by omega, hm⟩
            omega
      · have : word good i + k + 1 ≤ m := hprefixes k hlt hk hfull i hi
        split <;> omega
  · rename_i hnot
    refine ⟨hlength, hbound, hpos, hle, hfilled, fun i hi => ?_, fun k hrk hk hfull i hi => ?_⟩
    · have hs : word good i = m ∨ word good i + ((r + 1 : Nat) : Int) + 1 ≤ m := hsmall i hi
      show word good i = m ∨ word good i + r + 1 ≤ m
      omega
    · rcases Nat.eq_or_lt_of_le hrk with rfl | hlt
      · exact absurd hfull hnot
      · exact hprefixes k hlt hk hfull i hi

/-- The second pass. -/
theorem prefixPass_spec {suffix : List Int} {r : Nat} {acc : Nat × List Int}
    (h : PrefixesFrom m suffix r acc) (hr : r ≤ m) :
    PrefixesFrom m suffix 0 ((List.range r).reverse.foldl (fillPrefix m suffix) acc) := by
  induction r generalizing acc with
  | zero => exact h
  | succ r ih =>
    rw [List.range_succ, List.reverse_append, List.reverse_singleton, List.singleton_append,
      List.foldl_cons]
    exact ih (h.step (by omega)) (by omega)

/-- What the third pass has established behind its first `n` rounds on the table `old`. -/
structure SuffixesTo (m : Nat) (suffix old : List Int) (n : Nat) (good : List Int) : Prop where
  length : good.length = m
  entries : ∀ k < n, ∀ i < m, word suffix k = (m - 1 - i : Nat) → word good i + k + 1 ≤ m
  origin : ∀ i < m, word good i = word old i ∨
    ∃ k < n, word suffix k = (m - 1 - i : Nat) ∧ word good i + k + 1 = m

/-- The third pass. -/
theorem suffixPass_spec {suffix old : List Int} {n : Nat} (hlen : old.length = m) (hn : n < m)
    (hsuffix : ∀ k < n, ∃ l : Nat, word suffix k = l ∧ l ≤ k + 1) :
    SuffixesTo m suffix old n ((List.range n).foldl (fun good i =>
      good.set ((m : Int) - 1 - suffix.getD i 0).toNat (m - 1 - i : Nat)) old) := by
  induction n with
  | zero => exact ⟨hlen, fun k hk => by omega, fun i _ => Or.inl rfl⟩
  | succ n ih =>
    obtain ⟨hlength, hentries, horigin⟩ := ih (by omega) fun k hk => hsuffix k (by omega)
    obtain ⟨l, hl, hle⟩ := hsuffix n (by omega)
    simp only [List.range_succ, List.foldl_append, List.foldl_cons, List.foldl_nil]
    generalize (List.range n).foldl _ old = good at hlength hentries horigin ⊢
    have hindex : ((m : Int) - 1 - suffix.getD n 0).toNat = m - 1 - l := by
      rw [show suffix.getD n 0 = (l : Int) from hl]
      omega
    rw [hindex]
    have hself : word (good.set (m - 1 - l) ((m - 1 - n : Nat) : Int)) (m - 1 - l) =
        ((m - 1 - n : Nat) : Int) := word_set_self (by omega)
    refine ⟨by rw [List.length_set, hlength], fun k hk i hi hki => ?_, fun i hi => ?_⟩
    · by_cases hil : i = m - 1 - l
      · subst hil
        rw [hself]
        omega
      · rw [word_set_ne (Ne.symm hil)]
        rcases Nat.eq_or_lt_of_le (Nat.le_of_lt_succ hk) with rfl | hlt
        · omega
        · exact hentries k hlt i hi hki
    · by_cases hil : i = m - 1 - l
      · subst hil
        rw [hself]
        exact Or.inr ⟨n, by omega, by omega, by omega⟩
      · rw [word_set_ne (Ne.symm hil)]
        rcases horigin i hi with h | ⟨k, hk, hki, hval⟩
        · exact Or.inl h
        · exact Or.inr ⟨k, by omega, hki, hval⟩

/-- **No good suffix shift passes a fitting distance**, and all of them move the window. -/
theorem computeGoodSuffix_spec (hpos : 0 < pattern.length) (hm : pattern.length ≤ 127)
    (hi : i < pattern.length) :
    1 ≤ word (computeGoodSuffix pattern) i ∧ ∀ s : Nat, 0 < s →
      Fits (word pattern) pattern.length i s → word (computeGoodSuffix pattern) i ≤ s := by
  obtain ⟨hlen, hsuffix⟩ := computeSuffix_spec hpos hm
  have hinit : PrefixesFrom pattern.length (computeSuffix pattern) pattern.length
      (0, List.replicate pattern.length (pattern.length : Int)) := by
    have hword : ∀ i < pattern.length,
        word (List.replicate pattern.length (pattern.length : Int)) i = pattern.length := by
      intro i hi
      simp [word, List.getD_eq_getElem?_getD, hi]
    refine ⟨by simp, Nat.zero_le _, fun i hi => ?_, fun i hi => ?_, fun i hi => ?_,
      fun i hi => Or.inl (hword i hi), fun k hk hkm => by omega⟩
    · rw [hword i hi]
      omega
    · rw [hword i hi]
    · omega
  have hprefix := prefixPass_spec hinit le_rfl
  unfold computeGoodSuffix
  dsimp only
  generalize (List.range pattern.length).reverse.foldl _ _ = acc at hprefix ⊢
  obtain ⟨j, old⟩ := acc
  have hpass := suffixPass_spec (n := pattern.length - 1) hprefix.length (by omega) fun k hk => by
    obtain ⟨l, hl, hlen⟩ := hsuffix k (by omega)
    exact ⟨l, hl, hlen.le⟩
  dsimp only at hpass ⊢
  generalize (List.range (pattern.length - 1)).foldl _ old = good at hpass ⊢
  have hold : 1 ≤ word old i := hprefix.pos i hi
  have hle : word old i ≤ pattern.length := hprefix.le i hi
  refine ⟨?_, fun s hs hfits => ?_⟩
  · rcases hpass.origin i hi with h | ⟨k, hk, -, hval⟩ <;> omega
  rcases Nat.lt_or_ge s pattern.length with hsm | hge
  · rcases Nat.lt_or_ge i s with his | hsi
    · -- the distance leaves a prefix: the second pass set the entry, or the third a smaller one
      obtain ⟨n, hn, hlen⟩ := hsuffix (pattern.length - 1 - s) (by omega)
      have hfull := hlen.unique (hfits.suffixLength_prefix his hsm)
      have hshift := hprefix.prefixes (pattern.length - 1 - s) (Nat.zero_le _) (by omega)
        (by rw [hn, hfull]; omega) i (by omega)
      rcases hpass.origin i hi with h | ⟨k, hk, hki, hval⟩
      · dsimp only at hshift
        omega
      · obtain ⟨l, hl, hlength⟩ := hsuffix k (by omega)
        have hlk := hlength.le
        omega
    · obtain ⟨n, hn, hlen⟩ := hsuffix (pattern.length - 1 - s) (by omega)
      have hexact := hlen.unique (hfits.suffixLength hs hsi hi)
      have hentry := hpass.entries (pattern.length - 1 - s) (by omega) i hi
        (by rw [hn, hexact])
      omega
  · rcases hpass.origin i hi with h | ⟨k, hk, -, hval⟩
    · omega
    · omega

/-- Replacing a record of the bad character table. -/
theorem find?_replace (t : List (Int × Int)) (b c shift : Int) :
    ((b, shift) :: t.filter fun e => e.1 ≠ b).find? (fun e => e.1 = c) =
      if b = c then some (b, shift) else t.find? fun e => e.1 = c := by
  rw [List.find?_cons]
  split
  · rename_i hbc
    rw [if_pos (by simpa using hbc)]
  · rename_i hbc
    have hne : ¬ b = c := by simpa using hbc
    rw [if_neg hne, List.find?_filter]
    congr 1
    funext e
    by_cases hec : e.1 = c
    · simp [hec, Ne.symm hne]
    · simp [hec]

/-- No bad character shift passes an occurrence of the character. -/
theorem bmGetCharShift_spec (pattern : List Int) (c : Int) :
    (bmInitObj pattern).bmGetCharShift c ≤ pattern.length ∧
      ∀ k, k + 1 < pattern.length → word pattern k = c % 256 →
        (bmInitObj pattern).bmGetCharShift c + k + 1 ≤ pattern.length := by
  have hfold : ∀ n, n + 1 ≤ pattern.length ∨ n = 0 → ∀ entry : Option (Int × Int),
      entry = ((List.range n).foldl (fun t (i : Nat) =>
        (byteAt pattern i, ((pattern.length - i - 1 : Nat) : Int)) ::
          t.filter fun e => e.1 ≠ byteAt pattern i) []).find? (fun e => e.1 = c % 256) →
      (entry.elim (pattern.length : Int) Prod.snd) ≤ pattern.length ∧
        ∀ k < n, word pattern k = c % 256 →
          (entry.elim (pattern.length : Int) Prod.snd) + k + 1 ≤ pattern.length := by
    intro n
    induction n with
    | zero =>
      rintro - entry rfl
      exact ⟨le_rfl, fun k hk => by omega⟩
    | succ n ih =>
      intro hn entry hentry
      simp only [List.range_succ, List.foldl_append, List.foldl_cons, List.foldl_nil,
        find?_replace] at hentry
      by_cases hc : byteAt pattern n = c % 256
      · rw [if_pos hc] at hentry
        subst hentry
        have hshift : (some (byteAt pattern n, ((pattern.length - n - 1 : Nat) : Int))).elim
            (pattern.length : Int) Prod.snd = ((pattern.length - n - 1 : Nat) : Int) := rfl
        rw [hshift]
        exact ⟨by omega, fun k hk _ => by omega⟩
      · rw [if_neg hc] at hentry
        obtain ⟨hle, hkeys⟩ := ih (by omega) entry hentry
        refine ⟨hle, fun k hk hkc => hkeys k ?_ hkc⟩
        rcases Nat.lt_succ_iff_lt_or_eq.mp hk with hlt | rfl
        · exact hlt
        · exact absurd hkc hc
  obtain ⟨hle, hkeys⟩ := hfold (pattern.length - 1) (by omega) _ rfl
  unfold bmGetCharShift bmInitObj computeBadChar
  dsimp only
  split
  · rename_i hnone
    rw [hnone] at hle hkeys
    exact ⟨hle, fun k hk => hkeys k (by omega)⟩
  · rename_i e hsome
    rw [hsome] at hle hkeys
    exact ⟨hle, fun k hk => hkeys k (by omega)⟩

/-- The comparison of `bm_search` stops at the last index that differs. -/
theorem compareFrom_spec (pattern text : List Int) (j n : Nat) :
    (compareFrom pattern text j n = -1 ∧ ∀ k < n, word text (j + k) = word pattern k) ∨
      ∃ i < n, compareFrom pattern text j n = (i : Int) ∧ word text (j + i) ≠ word pattern i ∧
        ∀ k, i < k → k < n → word text (j + k) = word pattern k := by
  induction n with
  | zero => exact Or.inl ⟨rfl, fun k hk => by omega⟩
  | succ n ih =>
    have hread : byteAt text ((n : Int) + j) = word text (j + n) := byteAt_of_eq text (by omega)
    rw [compareFrom, byteAt_natCast, hread]
    split
    · rename_i heq
      rcases ih with ⟨hrun, hall⟩ | ⟨i, hi, hrun, hne, hbehind⟩
      · refine Or.inl ⟨hrun, fun k hk => ?_⟩
        rcases Nat.lt_succ_iff_lt_or_eq.mp hk with hlt | rfl
        · exact hall k hlt
        · exact heq.symm
      · refine Or.inr ⟨i, by omega, hrun, hne, fun k hik hk => ?_⟩
        rcases Nat.lt_succ_iff_lt_or_eq.mp hk with hlt | rfl
        · exact hbehind k hik hlt
        · exact heq.symm
    · rename_i hne
      exact Or.inr ⟨n, by omega, rfl, fun h => hne h.symm, fun k hik hk => by omega⟩

/-- A pattern as `bm_init_obj` receives it: a keyword without `NUL`, in ASCII, no
longer than a `char` can count. -/
structure Keyword (pattern : List Int) : Prop where
  nonempty : 0 < pattern.length
  length_le : pattern.length ≤ 127
  ascii : ∀ c ∈ pattern, 1 ≤ c ∧ c ≤ 127

/-- The start positions of the pattern in a text from `j` on, of `n` positions. -/
def occurrences (pattern text : List Int) (j n : Nat) : List MatchRecord :=
  ((List.range' j n).filter fun i =>
    i + pattern.length ≤ text.length ∧ ∀ k < pattern.length, word text (i + k) = word pattern k).map
    fun i => ⟨i, i + pattern.length - 1⟩

/-- Positions without an occurrence can be left out. -/
theorem occurrences_skip {j n s : Nat} (hs : s ≤ n) (hskip : ∀ d < s,
    ¬ (j + d + pattern.length ≤ text.length ∧
      Occurs (word pattern) pattern.length (word text) (j + d))) :
    occurrences pattern text j n = occurrences pattern text (j + s) (n - s) := by
  have hsplit : List.range' j n = List.range' j s ++ List.range' (j + s) (n - s) := by
    rw [List.range'_append_1]
    congr 1
    omega
  unfold occurrences
  rw [hsplit, List.filter_append, List.filter_eq_nil_iff.mpr, List.nil_append]
  intro i hi
  obtain ⟨d, hd, rfl⟩ := List.mem_range'.mp hi
  have := hskip d hd
  simpa [Occurs, Nat.one_mul] using this

/-- A move of the window that passes no occurrence. -/
theorem occurrences_move {j s : Nat} (hs : 0 < s)
    (hpass : ∀ d, 0 < d → d < s → ¬ Occurs (word pattern) pattern.length (word text) (j + d)) :
    occurrences pattern text (j + 1) (text.length - (j + 1)) =
      occurrences pattern text (j + s) (text.length - (j + s)) := by
  have hskip : ∀ r, r < s → r ≤ text.length - (j + 1) →
      occurrences pattern text (j + 1) (text.length - (j + 1)) =
        occurrences pattern text (j + 1 + r) (text.length - (j + 1) - r) := by
    intro r hr hle
    refine occurrences_skip hle fun d hd hocc => hpass (d + 1) (by omega) (by omega) ?_
    rw [show j + (d + 1) = j + 1 + d by omega]
    exact hocc.2
  rcases Nat.le_total (j + s) text.length with hle | hge
  · rw [hskip (s - 1) (by omega) (by omega)]
    congr 1 <;> omega
  · rw [hskip (text.length - (j + 1)) (by omega) le_rfl, Nat.sub_self,
      Nat.sub_eq_zero_of_le hge]
    rfl

/-- The window at `j` is an occurrence. -/
theorem occurrences_of_occurs {j : Nat} (hpos : 0 < pattern.length)
    (hj : j + pattern.length ≤ text.length)
    (hocc : Occurs (word pattern) pattern.length (word text) j) :
    occurrences pattern text j (text.length - j) =
      ⟨j, j + pattern.length - 1⟩ :: occurrences pattern text (j + 1) (text.length - (j + 1)) := by
  have hrange : List.range' j (text.length - j) =
      j :: List.range' (j + 1) (text.length - (j + 1)) := by
    rw [← List.range'_succ]
    congr 1
    omega
  unfold occurrences
  rw [hrange, List.filter_cons_of_pos, List.map_cons]
  simpa [hj, Occurs] using hocc

/-- The window at `j` is no occurrence. -/
theorem occurrences_of_not_occurs {j : Nat} (hpos : 0 < pattern.length)
    (hj : j + pattern.length ≤ text.length)
    (hocc : ¬ Occurs (word pattern) pattern.length (word text) j) :
    occurrences pattern text j (text.length - j) =
      occurrences pattern text (j + 1) (text.length - (j + 1)) := by
  rw [occurrences_skip (s := 1) (by omega)]
  · congr 1
  · intro d hd h
    obtain rfl : d = 0 := by omega
    exact hocc h.2

/-- The bad character shift passes no occurrence. -/
theorem charShift_le {j i s : Nat} (hkw : Keyword pattern) (hi : i < pattern.length) (hs : 0 < s)
    (hocc : Occurs (word pattern) pattern.length (word text) (j + s)) :
    (bmInitObj pattern).bmGetCharShift (word text (j + i)) - pattern.length + i + 1 ≤ s := by
  obtain ⟨hle, hkeys⟩ := bmGetCharShift_spec pattern (word text (j + i))
  rcases Nat.lt_or_ge i s with his | hsi
  · omega
  · have hread := hocc (i - s) (by omega)
    rw [show j + s + (i - s) = j + i by omega] at hread
    have hmem : word pattern (i - s) ∈ pattern := by
      have hlt : i - s < pattern.length := by omega
      simp [word, List.getD_eq_getElem?_getD, hlt]
    have hascii := hkw.ascii _ hmem
    have hshift := hkeys (i - s) (by omega) (by omega)
    omega

/-- The loop of `bm_search` records the occurrences ahead of the window. -/
theorem searchLoop_spec (hkw : Keyword pattern) {fuel j : Nat} (hfuel : text.length < j + fuel)
    (acc : List MatchRecord) :
    searchLoop (bmInitObj pattern) text fuel j acc =
      acc ++ occurrences pattern text j (text.length - j) := by
  induction fuel generalizing j acc with
  | zero =>
    have hend : text.length - j = 0 := by omega
    simp [searchLoop, occurrences, hend]
  | succ fuel ih =>
    have hpos := hkw.nonempty
    have hmove : ∀ {x : Int} (acc : List MatchRecord), 1 ≤ x →
        (∀ s : Nat, 0 < s → Occurs (word pattern) pattern.length (word text) (j + s) → x ≤ s) →
        searchLoop (bmInitObj pattern) text fuel (j + x) acc =
          acc ++ occurrences pattern text (j + 1) (text.length - (j + 1)) := by
      intro x acc hx hsafe
      obtain ⟨s, rfl⟩ : ∃ s : Nat, x = s := ⟨x.toNat, by omega⟩
      have hpass : ∀ d, 0 < d → d < s →
          ¬ Occurs (word pattern) pattern.length (word text) (j + d) := fun d hd hds hocc => by
        have := hsafe d hd hocc
        omega
      rw [occurrences_move (by omega) hpass, ← Nat.cast_add]
      exact ih (by omega) acc
    rw [searchLoop]
    dsimp only
    have hpattern : (bmInitObj pattern).pattern = pattern := rfl
    have hgood : (bmInitObj pattern).goodSuffix = computeGoodSuffix pattern := rfl
    rw [hpattern, hgood]
    split
    · rename_i hwindow
      have hj : j + pattern.length ≤ text.length := by omega
      rcases compareFrom_spec pattern text j pattern.length with
        ⟨hrun, hall⟩ | ⟨i, hi, hrun, hne, hbehind⟩
      · -- a match: the window moves by the smallest distance that fits the whole word
        obtain ⟨hone, hgoodLe⟩ := computeGoodSuffix_spec hpos hkw.length_le hpos
        have hindex : (computeGoodSuffix pattern).getD 0 0 = word (computeGoodSuffix pattern) 0 :=
          rfl
        rw [hrun, if_pos (by omega), hindex, hmove _ hone fun s hs hocc => hgoodLe s hs
          (Occurs.fits_zero hall hs hocc), occurrences_of_occurs hpos hj hall, List.append_assoc,
          show ((j : Int) + pattern.length - 1).toNat = j + pattern.length - 1 by omega]
        rfl
      · -- a mismatch at `i`: neither table passes an occurrence
        obtain ⟨hone, hgoodLe⟩ := computeGoodSuffix_spec hkw.nonempty hkw.length_le hi
        have hgoodSafe : ∀ s : Nat, 0 < s →
            Occurs (word pattern) pattern.length (word text) (j + s) →
            word (computeGoodSuffix pattern) i ≤ s := fun s hs hocc =>
          hgoodLe s hs (hocc.fits hbehind hne hi)
        have hcharSafe : ∀ s : Nat, 0 < s →
            Occurs (word pattern) pattern.length (word text) (j + s) → _ ≤ (s : Int) :=
          fun s hs hocc => charShift_le hkw hi hs hocc
        have hread : byteAt text ((i : Int) + j) = word text (j + i) :=
          byteAt_of_eq text (by omega)
        have hindex : (computeGoodSuffix pattern).getD ((i : Int)).toNat 0 =
            word (computeGoodSuffix pattern) i := rfl
        rw [hrun, if_neg (by omega), hread, hindex,
          occurrences_of_not_occurs hpos hj fun hocc => hne (hocc i hi)]
        generalize (bmInitObj pattern).bmGetCharShift (word text (j + i)) - pattern.length + i + 1 =
          charShift at hcharSafe ⊢
        split
        · exact hmove acc (by omega) hcharSafe
        · refine hmove acc ?_ ?_
          · split <;> omega
          · split
            · exact hgoodSafe
            · exact hcharSafe
    · rename_i hwindow
      have hnone : occurrences pattern text j (text.length - j) = [] := by
        rw [occurrences_skip le_rfl fun d hd => by omega]
        simp [occurrences]
      rw [hnone, List.append_nil]

/-- **Boyer-Moore search is exact.** The records are the occurrences of the
keyword, each once, in increasing order. -/
theorem bmSearch_exact (hkw : Keyword pattern) (text : List Int) :
    (bmInitObj pattern).bmSearch text = occurrences pattern text 0 text.length := by
  unfold bmSearch
  rw [show (0 : Int) = ((0 : Nat) : Int) from rfl, searchLoop_spec hkw (by omega), List.nil_append,
    Nat.sub_zero]

/-- Overlapping occurrences are all recorded. -/
theorem bmSearch_exact_aba : Keyword (bytes "aba") ∧
    (bmInitObj (bytes "aba")).bmSearch (bytes "ababa") = [⟨0, 2⟩, ⟨2, 4⟩] := by
  have hkw : Keyword (bytes "aba") := ⟨by decide, by decide, by decide⟩
  exact ⟨hkw, (bmSearch_exact hkw (bytes "ababa")).trans (by decide)⟩

end BMObj

end Recognizer
