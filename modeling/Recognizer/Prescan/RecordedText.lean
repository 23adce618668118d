import Recognizer.Prescan.MultiPattern

/-!
# What the records of multi-pattern search hold

A pattern is recorded where its bytes but the last agree with the text, and the
end that is recorded leaves the last byte out. So the text of a record is always
a pattern without its last byte.
-/

namespace Recognizer

namespace MPatObj

open WindowShift

variable {patterns : List (List Int)} {place : Nat → Nat} {obj : MPatObj} {text p : List Int}
  {b m : Nat}

/-- The text from the start of a record to its inclusive end. -/
def recordText (text : List Int) (r : MatchRecord) : List Int :=
  (text.drop r.beg).take (r.stop + 1 - r.beg)

/-- The address behind the mismatch of a record at `b`. -/
def stopAddress (text : List Int) (b : Nat) (hr : PrefixPattern) : Nat :=
  hr.addr + (agreement hr.pattern text b + 2)

/-- The records of a bucket that agree up to their last byte, as far as the
addresses behind the mismatches do not descend. -/
def met (text : List Int) (b : Nat) : List PrefixPattern → Nat → List PrefixPattern
  | [], _ => []
  | hr :: rest, prev =>
    if AlmostAt hr.pattern text b then hr :: met text b rest prev
    else if stopAddress text b hr < prev then []
    else met text b rest (stopAddress text b hr)

/-- The two pointers of the comparison of `mpat_search` advance together. -/
theorem compareLoop_offsets (p text : List Int) (fuel i j : Nat) :
    (compareLoop p text fuel i j).2 + i = (compareLoop p text fuel i j).1 + j := by
  induction fuel generalizing i j with
  | zero => exact Nat.add_comm j i
  | succ fuel ih =>
    rw [compareLoop]
    split
    · split
      · have := ih (i + 1) (j + 1)
        omega
      · dsimp only
        omega
    · exact Nat.add_comm j i

/-- Behind its first byte a pattern is compared up to its end or behind its first mismatch. -/
theorem compareLoop_pattern (hlen : 0 < p.length) (hnul : ∀ c ∈ p, c ≠ 0) :
    compareLoop p text (p.length + 1) 1 (b + 1) =
      if AlmostAt p text b then (p.length, b + p.length)
      else (agreement p text b + 2, b + agreement p text b + 2) := by
  have hfst : (compareLoop p text (p.length + 1) 1 (b + 1)).1 = _ :=
    compareLoop_spec hnul (by omega) (by omega)
  rw [show commonPrefix (p.drop 1) (text.drop (b + 1)) = agreement p text b from rfl] at hfst
  have hsnd := compareLoop_offsets p text (p.length + 1) 1 (b + 1)
  by_cases halmost : AlmostAt p text b
  · rw [if_pos halmost]
    unfold AlmostAt at halmost
    split at hfst
    · exact Prod.ext hfst (by dsimp only; omega)
    · exact Prod.ext (by dsimp only; omega) (by dsimp only; omega)
  · rw [if_neg halmost]
    unfold AlmostAt at halmost
    rw [if_neg (by omega)] at hfst
    exact Prod.ext (by dsimp only; omega) (by dsimp only; omega)

/-- The scan of a bucket adds the records it meets, with ends that leave out a byte. -/
theorem scanBucket_eq {beg : Nat} {key : Int} {l : List PrefixPattern}
    (hl : ∀ hr ∈ l, 0 < hr.pattern.length ∧ ∀ c ∈ hr.pattern, c ≠ 0) (prev : Nat)
    (acc : List MatchRecord) :
    scanBucket text beg key l prev acc = acc ++
      (met text beg (l.filter fun hr => hr.key = key) prev).map fun hr =>
        ⟨beg, beg + hr.pattern.length - 2⟩ := by
  induction l generalizing prev acc with
  | nil => simp [scanBucket, met]
  | cons hr l ih =>
    obtain ⟨hlen, hnul⟩ := hl hr (by simp)
    have ih' := ih fun hr' hmem => hl hr' (by simp [hmem])
    rw [scanBucket]
    by_cases hkey : hr.key = key
    · rw [if_pos hkey, List.filter_cons_of_pos (by simpa using hkey), met,
        show beg + blockLen - 1 = beg + 1 from rfl, show blockLen - 1 = 1 from rfl,
        compareLoop_pattern hlen hnul]
      by_cases halmost : AlmostAt hr.pattern text beg
      · rw [if_pos halmost, if_pos halmost]
        dsimp only
        rw [if_pos (by simp), ih', List.append_assoc, List.map_cons, List.singleton_append]
      · rw [if_neg halmost, if_neg halmost]
        have hne : hr.pattern.getD (agreement hr.pattern text beg + 2) 0 ≠ 0 := by
          refine (word_ne_zero hnul).mpr ?_
          unfold AlmostAt at halmost
          omega
        dsimp only
        rw [if_neg hne, show hr.addr + (agreement hr.pattern text beg + 2) =
          stopAddress text beg hr from rfl]
        split
        · rw [List.map_nil, List.append_nil]
        · exact ih' _ acc
    · rw [if_neg hkey, List.filter_cons_of_neg (by simpa using hkey)]
      exact ih' prev acc

/-- Which records are met. -/
theorem mem_met {l : List PrefixPattern} {prev : Nat} {hr : PrefixPattern} :
    hr ∈ met text b l prev ↔ AlmostAt hr.pattern text b ∧ ∃ front back, l = front ++ hr :: back ∧
      (prev :: (front.filter fun hr => ¬ AlmostAt hr.pattern text b).map
        (stopAddress text b)).Pairwise (· ≤ ·) := by
  induction l generalizing prev with
  | nil => simp [met]
  | cons x l ih =>
    rw [met]
    have hback : ∀ {front back : List PrefixPattern}, x :: l = front ++ hr :: back →
        ¬ AlmostAt x.pattern text b → AlmostAt hr.pattern text b →
        ∃ rest, front = x :: rest ∧ l = rest ++ hr :: back := by
      intro front back hsplit hx halmost
      cases front with
      | nil =>
        obtain ⟨rfl, -⟩ := List.cons.inj hsplit
        exact absurd halmost hx
      | cons y rest =>
        obtain ⟨rfl, hl⟩ := List.cons.inj hsplit
        exact ⟨rest, rfl, hl⟩
    split
    · rename_i hx
      rw [List.mem_cons, ih]
      constructor
      · rintro (rfl | ⟨halmost, front, back, rfl, hpair⟩)
        · exact ⟨hx, [], l, rfl, List.pairwise_singleton ..⟩
        · refine ⟨halmost, x :: front, back, rfl, ?_⟩
          rwa [List.filter_cons_of_neg (by simpa using hx)]
      · rintro ⟨halmost, front, back, hsplit, hpair⟩
        cases front with
        | nil =>
          obtain ⟨rfl, -⟩ := List.cons.inj hsplit
          exact Or.inl rfl
        | cons y front =>
          obtain ⟨rfl, rfl⟩ := List.cons.inj hsplit
          rw [List.filter_cons_of_neg (by simpa using hx)] at hpair
          exact Or.inr ⟨halmost, front, back, rfl, hpair⟩
    · rename_i hx
      split
      · rename_i hlt
        simp only [List.not_mem_nil, false_iff]
        rintro ⟨halmost, front, back, hsplit, hpair⟩
        obtain ⟨rest, rfl, -⟩ := hback hsplit hx halmost
        rw [List.filter_cons_of_pos (by simpa using hx), List.map_cons] at hpair
        have hle := List.rel_of_pairwise_cons hpair (List.mem_cons_self ..)
        omega
      · rename_i hge
        rw [ih]
        refine and_congr_right fun halmost => ?_
        constructor
        · rintro ⟨front, back, rfl, hpair⟩
          refine ⟨x :: front, back, rfl, ?_⟩
          rw [List.filter_cons_of_pos (by simpa using hx), List.map_cons]
          refine List.pairwise_cons.mpr ⟨fun y hy => ?_, hpair⟩
          rcases List.mem_cons.mp hy with rfl | hy
          · omega
          · have := List.rel_of_pairwise_cons hpair hy
            omega
        · rintro ⟨front, back, hsplit, hpair⟩
          obtain ⟨rest, rfl, rfl⟩ := hback hsplit hx halmost
          rw [List.filter_cons_of_pos (by simpa using hx), List.map_cons] at hpair
          exact ⟨rest, back, rfl, (List.pairwise_cons.mp hpair).2⟩

theorem word_of_lt_commonPrefix {xs ys : List Int} {k : Nat} (hk : k < commonPrefix xs ys) :
    word ys k = word xs k := by
  induction xs generalizing ys k with
  | nil => exact absurd hk (Nat.not_lt_zero k)
  | cons x xs ih =>
    cases ys with
    | nil => exact absurd hk (Nat.not_lt_zero k)
    | cons y ys =>
      rw [commonPrefix] at hk
      split at hk
      · rename_i heq
        cases k with
        | zero => exact heq.symm
        | succ k => exact ih (Nat.lt_of_succ_lt_succ hk)
      · exact absurd hk (Nat.not_lt_zero k)

/-- A candidate that agrees up to its last byte lies in the text, the last byte apart. -/
theorem candidate_reads {i : Nat} (hm : 3 ≤ m) (hlen : m ≤ p.length)
    (hcand : (p, i) ∈ candidates patterns m text b) (halmost : AlmostAt p text b) :
    (∀ k, k + 1 < p.length → word text (b + k) = word p k) ∧
      ∀ k < m, word text (b + k) = word p k := by
  obtain ⟨hsuffix, hprefix⟩ := of_decide_eq_true (List.mem_filter.mp hcand).2
  have hmiddle : ∀ k, 1 ≤ k → k + 1 < p.length → word text (b + k) = word p k := by
    intro k hk hkp
    have hagree : k - 1 < commonPrefix (p.drop 1) (text.drop (b + 1)) := by
      unfold AlmostAt agreement at halmost
      omega
    have hread := word_of_lt_commonPrefix hagree
    unfold word at hread ⊢
    rw [List.getD_eq_getElem?_getD, List.getD_eq_getElem?_getD, List.getElem?_drop,
      List.getElem?_drop, show b + 1 + (k - 1) = b + k by omega,
      show 1 + (k - 1) = k by omega] at hread
    rwa [List.getD_eq_getElem?_getD, List.getD_eq_getElem?_getD]
  have hsecond := hmiddle 1 le_rfl (by omega)
  unfold word at hmiddle hsecond ⊢
  have hfirst : text.getD (b + 0) 0 = p.getD 0 0 := by
    simp only [prefixHash] at hprefix
    rw [show b + m - 1 + 1 - m = b + 0 by omega, show b + m - 1 + 2 - m = b + 1 by omega,
      show m - 1 + 1 - m = 0 by omega, show m - 1 + 2 - m = 1 by omega, hsecond] at hprefix
    omega
  have hshort : ∀ k, k + 1 < p.length → text.getD (b + k) 0 = p.getD k 0 := by
    intro k hk
    rcases Nat.eq_zero_or_pos k with rfl | hpos
    · exact hfirst
    · exact hmiddle k hpos hk
  refine ⟨hshort, fun k hk => ?_⟩
  rcases Nat.lt_or_ge (k + 1) p.length with hlt | hge
  · exact hshort k hlt
  · -- the window ends with the pattern, whose last byte is part of the suffix hash
    have hbefore := hshort (m - 2) (by omega)
    simp only [suffixHash] at hsuffix
    rw [show b + m - 1 - 1 = b + (m - 2) by omega, show m - 1 - 1 = m - 2 by omega,
      hbefore] at hsuffix
    rw [show b + k = b + m - 1 by omega, show k = m - 1 by omega]
    omega

/-- The pattern is among the candidates of the window at `b`, agrees there up to
its last byte, and the addresses behind the mismatches of the candidates in front
of it do not descend. -/
def MetAt (patterns : List (List Int)) (place : Nat → Nat) (m : Nat) (text : List Int) (b : Nat)
    (p : List Int) : Prop :=
  AlmostAt p text b ∧ ∃ front i back, candidates patterns m text b = front ++ (p, i) :: back ∧
    ((front.filter fun e => ¬ AlmostAt e.1 text b).map fun e =>
      place e.2 + (agreement e.1 text b + 2)).Pairwise (· ≤ ·)

/-- The records of the window at `b`. -/
theorem mem_window_iff (hinit : mpatInit patterns place = some obj)
    (hnul : ∀ p ∈ patterns, ∀ c ∈ p, c ≠ 0) {acc : List MatchRecord} {r : MatchRecord} :
    r ∈ scanBucket text b (prefixHash text (b + obj.m - 1) obj.m)
        ((lookup obj.hash (suffixHash text (b + obj.m - 1))).getD []) 0 acc ↔
      r ∈ acc ∨ ∃ p, MetAt patterns place obj.m text b p ∧ r = ⟨b, b + p.length - 2⟩ := by
  obtain ⟨hm, hshort, htables, -⟩ := mpatInit_spec hinit
  have hbucket : ∀ hr ∈ (lookup obj.hash (suffixHash text (b + obj.m - 1))).getD [],
      0 < hr.pattern.length ∧ ∀ c ∈ hr.pattern, c ≠ 0 := by
    intro hr hmem
    rw [htables.buckets] at hmem
    obtain ⟨e, he, rfl⟩ := List.mem_map.mp hmem
    have hpat := List.fst_mem_of_mem_zipIdx (List.mem_of_mem_filter he)
    have := hshort e.1 hpat
    exact ⟨by dsimp only; omega, hnul e.1 hpat⟩
  rw [scanBucket_eq hbucket, bucket_eq hinit, List.mem_append, List.mem_map]
  refine or_congr_right ?_
  constructor
  · rintro ⟨hr, hmet, rfl⟩
    obtain ⟨halmost, front, back, hsplit, hpair⟩ := mem_met.mp hmet
    obtain ⟨front', rest, hsplit', rfl, hrest⟩ := List.map_eq_append_iff.mp hsplit
    obtain ⟨e, back', rfl, rfl, rfl⟩ := List.map_eq_cons_iff.mp hrest
    refine ⟨e.1, ⟨halmost, front', e.2, back', hsplit', ?_⟩, rfl⟩
    have hpair' := (List.pairwise_cons.mp hpair).2
    rw [List.filter_map, List.map_map] at hpair'
    exact hpair'
  · rintro ⟨p, ⟨halmost, front, i, back, hsplit, hpair⟩, rfl⟩
    let toRecord := fun e : List Int × Nat =>
      (⟨prefixHash e.1 (obj.m - 1) obj.m, e.1, place e.2⟩ : PrefixPattern)
    refine ⟨toRecord (p, i), mem_met.mpr ⟨halmost, front.map toRecord, back.map toRecord, ?_, ?_⟩,
      rfl⟩
    · rw [hsplit, List.map_append, List.map_cons]
    · refine List.pairwise_cons.mpr ⟨fun _ _ => Nat.zero_le _, ?_⟩
      rw [List.filter_map, List.map_map]
      exact hpair

/-- No shift of `mpat_search` passes a window with records. -/
theorem searchLoop_iff (hinit : mpatInit patterns place = some obj)
    (hnul : ∀ p ∈ patterns, ∀ c ∈ p, c ≠ 0) {fuel ptr : Nat} (hlow : obj.m ≤ ptr + 1)
    (hfuel : text.length < ptr + fuel) {acc : List MatchRecord} {r : MatchRecord} :
    r ∈ searchLoop obj text fuel ptr acc ↔ r ∈ acc ∨
      (ptr + 1 ≤ r.beg + obj.m ∧ r.beg + obj.m ≤ text.length ∧
        ∃ p, MetAt patterns place obj.m text r.beg p ∧ r.stop = r.beg + p.length - 2) := by
  obtain ⟨hm, hshort, -, -⟩ := mpatInit_spec hinit
  induction fuel generalizing ptr acc with
  | zero =>
    rw [searchLoop]
    exact ⟨Or.inl, fun h => h.elim id fun h => by omega⟩
  | succ fuel ih =>
    rw [searchLoop]
    split
    · dsimp only
      rw [show ((obj.hash.find? fun e => e.1 = suffixHash text ptr).map Prod.snd) =
        lookup obj.hash (suffixHash text ptr) from rfl]
      obtain ⟨hnonneg, hlt, hsafe⟩ := getShift_spec hinit (suffixHash text ptr)
      split
      · rw [ih (by omega) (by omega)]
        obtain ⟨b, rfl⟩ : ∃ b, ptr = b + obj.m - 1 := ⟨ptr + 1 - obj.m, by omega⟩
        rw [show b + obj.m - 1 + 1 - obj.m = b by omega, mem_window_iff hinit hnul, or_assoc]
        refine or_congr_right ?_
        constructor
        · rintro (⟨p, hmet, rfl⟩ | ⟨hptr, hend, hmet⟩)
          · exact ⟨by dsimp only; omega, by dsimp only; omega, p, hmet, rfl⟩
          · exact ⟨by omega, hend, hmet⟩
        · rintro ⟨hptr, hend, p, hmet, hstop⟩
          rcases Nat.eq_or_lt_of_le (show b ≤ r.beg by omega) with heq | hahead
          · refine Or.inl ⟨p, heq ▸ hmet, ?_⟩
            rw [heq, ← hstop]
          · exact Or.inr ⟨by omega, hend, p, hmet, hstop⟩
      · rename_i hshift
        rw [ih (by omega) (by omega)]
        refine or_congr_right ?_
        constructor
        · rintro ⟨hptr, hend, hmet⟩
          exact ⟨by omega, hend, hmet⟩
        · rintro ⟨hptr, hend, p, hmet, hstop⟩
          refine ⟨?_, hend, p, hmet, hstop⟩
          obtain ⟨halmost, front, i, back, hsplit, -⟩ := hmet
          have hcand : (p, i) ∈ candidates patterns obj.m text r.beg := by
            rw [hsplit]
            simp
          have hp : p ∈ patterns :=
            List.fst_mem_of_mem_zipIdx (List.mem_of_mem_filter hcand)
          obtain ⟨-, hread⟩ := candidate_reads hm (hshort p hp) hcand halmost
          unfold word at hread
          -- the block in front of `ptr` is one of the pattern's blocks
          rcases Nat.lt_or_ge ptr (r.beg + 1) with hfar | hnear
          · omega
          · have hblock : suffixHash p (ptr - r.beg) = suffixHash text ptr := by
              unfold suffixHash
              rw [← hread (ptr - r.beg) (by omega), ← hread (ptr - r.beg - 1) (by omega)]
              congr 2
              · congr 1
                omega
              · omega
            have := hsafe p hp (ptr - r.beg) (by omega) (by omega) hblock
            omega
    · exact ⟨Or.inl, fun h => h.elim id fun h => by omega⟩

/-- The text of a record is a pattern without its last byte. -/
theorem recordText_of_metAt (hm : 3 ≤ m) (hlen : m ≤ p.length)
    (hnul : ∀ c ∈ p, c ≠ 0) (hmet : MetAt patterns place m text b p) :
    recordText text ⟨b, b + p.length - 2⟩ = p.dropLast := by
  obtain ⟨halmost, front, i, back, hsplit, -⟩ := hmet
  have hcand : (p, i) ∈ candidates patterns m text b := by
    rw [hsplit]
    simp
  obtain ⟨hread, -⟩ := candidate_reads hm hlen hcand halmost
  have hinside : ∀ k, k + 1 < p.length → b + k < text.length := by
    intro k hk
    have hne := (word_ne_zero hnul).mpr (show k < p.length by omega)
    rw [← hread k hk] at hne
    by_contra hge
    refine hne ?_
    unfold word
    rw [List.getD_eq_getElem?_getD, List.getElem?_eq_none (by omega)]
    rfl
  have hlast := hinside (p.length - 2) (by omega)
  unfold recordText
  dsimp only
  refine List.ext_getElem (by simp; omega) fun k hk hk' => ?_
  rw [List.length_dropLast] at hk'
  have hk'' := hread k (by omega)
  unfold word at hk''
  rw [List.getElem_take, List.getElem_drop, List.getElem_dropLast]
  rw [List.getD_eq_getElem?_getD, List.getD_eq_getElem?_getD,
    List.getElem?_eq_getElem (by omega), List.getElem?_eq_getElem (by omega)] at hk''
  exact hk''

/-- **When the records of multi-pattern search are occurrences.** The text of every
record is one of the patterns if and only if every pattern that is met is still a
pattern without its last byte. -/
theorem mpatSearch_real_iff (hinit : mpatInit patterns place = some obj)
    (hascii : ∀ p ∈ patterns, ∀ c ∈ p, 1 ≤ c ∧ c ≤ 127) (line : List Int) :
    (∀ r ∈ obj.mpatSearch (line ++ [eolSymbol]),
      recordText (line ++ [eolSymbol]) r ∈ patterns) ↔
    ∀ b p, b + obj.m ≤ line.length + 1 → obj.m ≤ line.length →
      MetAt patterns place obj.m (line ++ [eolSymbol]) b p → p.dropLast ∈ patterns := by
  obtain ⟨hm, hshort, -, -⟩ := mpatInit_spec hinit
  have hnul : ∀ p ∈ patterns, ∀ c ∈ p, c ≠ 0 := by
    intro p hp c hc
    have := hascii p hp c hc
    omega
  have hlen : (line ++ [eolSymbol]).length = line.length + 1 := by simp
  have hrecords : ∀ r, r ∈ obj.mpatSearch (line ++ [eolSymbol]) ↔
      obj.m ≤ line.length ∧ r.beg + obj.m ≤ line.length + 1 ∧
        ∃ p, MetAt patterns place obj.m (line ++ [eolSymbol]) r.beg p ∧
          r.stop = r.beg + p.length - 2 := by
    intro r
    rw [mem_mpatSearch, mpatRecords]
    split
    · simp only [List.not_mem_nil, false_iff]
      omega
    · rw [searchLoop_iff hinit hnul (by omega) (by omega), hlen]
      simp only [List.not_mem_nil, false_or]
      exact ⟨fun ⟨_, hend, hmet⟩ => ⟨by omega, hend, hmet⟩,
        fun ⟨_, hend, hmet⟩ => ⟨by omega, hend, hmet⟩⟩
  have htext : ∀ b p, MetAt patterns place obj.m (line ++ [eolSymbol]) b p →
      recordText (line ++ [eolSymbol]) ⟨b, b + p.length - 2⟩ = p.dropLast := by
    intro b p hmet
    have hp : p ∈ patterns := by
      obtain ⟨-, front, i, back, hsplit, -⟩ := hmet
      have hcand : (p, i) ∈ candidates patterns obj.m (line ++ [eolSymbol]) b := by
        rw [hsplit]
        simp
      exact List.fst_mem_of_mem_zipIdx (List.mem_of_mem_filter hcand)
    exact recordText_of_metAt hm (hshort p hp) (hnul p hp) hmet
  constructor
  · intro h b p hend hfits hmet
    have := h ⟨b, b + p.length - 2⟩ ((hrecords _).mpr ⟨hfits, hend, p, hmet, rfl⟩)
    rwa [htext b p hmet] at this
  · intro h r hr
    obtain ⟨hfits, hend, p, hmet, hstop⟩ := (hrecords r).mp hr
    have hrec : r = ⟨r.beg, r.beg + p.length - 2⟩ := by rw [← hstop]
    rw [hrec, htext r.beg p hmet]
    exact h r.beg p hend hfits hmet

/-- A line whose one record holds a pattern: with the records of the second and the third
pattern in descending order, what is met is not the last pattern but the first. -/
theorem mpatSearch_real_xabcz : ∃ obj,
    mpatInit [bytes "abcd", bytes "abcef", bytes "abcgh", bytes "abc"] (fun i => 1000 - 100 * i) =
        some obj ∧
      obj.mpatSearch (bytes "xabcz" ++ [eolSymbol]) = [⟨1, 3⟩] ∧
      ∀ b p, b + obj.m ≤ (bytes "xabcz").length + 1 → obj.m ≤ (bytes "xabcz").length →
        MetAt [bytes "abcd", bytes "abcef", bytes "abcgh", bytes "abc"] (fun i => 1000 - 100 * i)
          obj.m (bytes "xabcz" ++ [eolSymbol]) b p →
        p.dropLast ∈ [bytes "abcd", bytes "abcef", bytes "abcgh", bytes "abc"] := by
  have h : (mpatInit [bytes "abcd", bytes "abcef", bytes "abcgh", bytes "abc"]
      (fun i => 1000 - 100 * i)).map (fun obj =>
        decide (obj.mpatSearch (bytes "xabcz" ++ [eolSymbol]) = [⟨1, 3⟩])) = some true := by
    decide +kernel
  obtain ⟨obj, hinit, hdecide⟩ := Option.map_eq_some_iff.mp h
  have hrecords : obj.mpatSearch (bytes "xabcz" ++ [eolSymbol]) = [⟨1, 3⟩] :=
    of_decide_eq_true hdecide
  refine ⟨obj, hinit, hrecords, (mpatSearch_real_iff hinit (by decide) (bytes "xabcz")).mp ?_⟩
  rw [hrecords]
  decide

/-- The record of `abc` in the line `abc` holds `ab`. -/
theorem mpatSearch_records_ab :
    ¬ ∀ (patterns : List (List Int)) (place : Nat → Nat) (obj : MPatObj) (line : List Int),
      mpatInit patterns place = some obj → (∀ p ∈ patterns, ∀ c ∈ p, 1 ≤ c ∧ c ≤ 127) →
      ∀ r ∈ obj.mpatSearch (line ++ [eolSymbol]),
        recordText (line ++ [eolSymbol]) r ∈ patterns := by
  intro h
  have hinit : ∃ obj, mpatInit [bytes "abc", bytes "xyz"] (fun i => 100 * i) = some obj ∧
      ⟨0, 1⟩ ∈ obj.mpatSearch (bytes "abc" ++ [eolSymbol]) := ⟨_, rfl, by decide⟩
  obtain ⟨obj, hinit, hrec⟩ := hinit
  have hmem := h _ _ obj (bytes "abc") hinit (by decide) _ hrec
  exact absurd hmem (by decide)

end MPatObj

end Recognizer
