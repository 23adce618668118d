import Recognizer.Core.WindowShift
import Recognizer.Prescan.Tables

/-!
# What multi-pattern search finds

No shift of `mpat_search` passes an occurrence, so the window stops at every
occurrence. The scan of the bucket there leaves early when the pointer behind a
mismatch is lower than the one of the mismatch before, although the two point
into different records.
-/

namespace Recognizer

namespace MPatObj

open WindowShift

variable {patterns : List (List Int)} {place : Nat → Nat} {obj : MPatObj} {text p : List Int}
  {b : Nat}

/-- A pattern occurs in a text at `b`. -/
def OccursAt (p text : List Int) (b : Nat) : Prop := Occurs (word p) p.length (word text) b

instance (p text : List Int) (b : Nat) : Decidable (OccursAt p text b) := by
  unfold OccursAt Occurs
  infer_instance

/-- The number of leading elements in which two lists agree. -/
def commonPrefix : List Int → List Int → Nat
  | x :: xs, y :: ys => if x = y then commonPrefix xs ys + 1 else 0
  | _, _ => 0

/-- How far a pattern agrees with a text at `b` behind its first byte. -/
def agreement (p text : List Int) (b : Nat) : Nat := commonPrefix (p.drop 1) (text.drop (b + 1))

/-- Behind its first byte a pattern agrees with a text at `b` up to its last byte. -/
def AlmostAt (p text : List Int) (b : Nat) : Prop := p.length ≤ agreement p text b + 2

instance (p text : List Int) (b : Nat) : Decidable (AlmostAt p text b) := by
  unfold AlmostAt
  infer_instance

/-- The patterns with the suffix and prefix hash of the window at `b`, each with
the index of its record. -/
def candidates (patterns : List (List Int)) (m : Nat) (text : List Int) (b : Nat) :
    List (List Int × Nat) :=
  patterns.zipIdx.filter fun e => suffixHash e.1 (m - 1) = suffixHash text (b + m - 1) ∧
    prefixHash e.1 (m - 1) m = prefixHash text (b + m - 1) m

/-- The addresses behind the mismatches of the candidates in front of the first
that agrees up to its last byte do not descend. -/
def Ordered (patterns : List (List Int)) (place : Nat → Nat) (m : Nat) (text : List Int)
    (b : Nat) : Prop :=
  (((candidates patterns m text b).takeWhile fun e => ¬ AlmostAt e.1 text b).map fun e =>
    place e.2 + agreement e.1 text b + 2).Pairwise (· ≤ ·)

instance (patterns : List (List Int)) (place : Nat → Nat) (m : Nat) (text : List Int) (b : Nat) :
    Decidable (Ordered patterns place m text b) := by
  unfold Ordered
  infer_instance

theorem word_ne_zero {i : Nat} (hp : ∀ c ∈ p, c ≠ 0) : word p i ≠ 0 ↔ i < p.length := by
  unfold word
  constructor
  · intro hne
    by_contra hge
    exact hne (by simp [List.getD_eq_getElem?_getD, List.getElem?_eq_none (Nat.le_of_not_lt hge)])
  · intro hi
    have hget : p.getD i 0 = p[i] := by simp [List.getD_eq_getElem?_getD, hi]
    rw [hget]
    exact hp _ (List.getElem_mem hi)

/-- The comparison of `mpat_search` stops behind the first mismatch or at the end
of the pattern. -/
theorem compareLoop_spec (hp : ∀ c ∈ p, c ≠ 0) {fuel i j : Nat} (hi : i ≤ p.length)
    (hfuel : p.length < i + fuel) :
    (compareLoop p text fuel i j).1 =
      if p.length ≤ i + commonPrefix (p.drop i) (text.drop j) then p.length
      else i + commonPrefix (p.drop i) (text.drop j) + 1 := by
  induction fuel generalizing i j with
  | zero => omega
  | succ fuel ih =>
    rw [compareLoop]
    rcases Nat.eq_or_lt_of_le hi with rfl | hlt
    · have hend : ¬ p.getD p.length 0 ≠ 0 := fun h => by simpa using (word_ne_zero hp).mp h
      rw [if_neg hend, if_pos (by omega)]
    · have hne : p.getD i 0 ≠ 0 := (word_ne_zero hp).mpr hlt
      have hdrop : p.drop i = p.getD i 0 :: p.drop (i + 1) := by
        rw [List.drop_eq_getElem_cons hlt]
        simp [List.getD_eq_getElem?_getD, hlt]
      rw [if_pos hne]
      split
      · rename_i heq
        have hj : j < text.length := by
          by_contra hge
          rw [heq] at hne
          exact hne (by simp [List.getD_eq_getElem?_getD,
            List.getElem?_eq_none (Nat.le_of_not_lt hge)])
        have hdrop' : text.drop j = p.getD i 0 :: text.drop (j + 1) := by
          rw [List.drop_eq_getElem_cons hj, heq]
          simp [List.getD_eq_getElem?_getD, hj]
        rw [ih (by omega) (by omega), hdrop, hdrop', commonPrefix, if_pos rfl]
        exact if_congr (by omega) rfl (by omega)
      · rename_i hneq
        have hzero : commonPrefix (p.drop i) (text.drop j) = 0 := by
          rw [hdrop]
          rcases Nat.lt_or_ge j text.length with hj | hj
          · rw [List.drop_eq_getElem_cons hj, commonPrefix, if_neg]
            simpa [List.getD_eq_getElem?_getD, hj] using hneq
          · rw [List.drop_eq_nil_of_le hj]
            rfl
        rw [hzero, if_neg (by omega)]

/-- The scan of a bucket keeps the records it starts with and adds records of its window. -/
theorem scanBucket_mem (text : List Int) (beg : Nat) (key : Int) (l : List PrefixPattern)
    (prev : Nat) (acc : List MatchRecord) :
    (∀ r ∈ acc, r ∈ scanBucket text beg key l prev acc) ∧
      ∀ r ∈ scanBucket text beg key l prev acc, r ∈ acc ∨ r.beg = beg := by
  induction l generalizing prev acc with
  | nil => exact ⟨fun _ => id, fun _ => Or.inl⟩
  | cons hr l ih =>
    rw [scanBucket]
    dsimp only
    split
    · split
      · obtain ⟨hkeep, honly⟩ := ih prev (acc ++ [⟨beg, (compareLoop hr.pattern text
          (hr.pattern.length + 1) (blockLen - 1) (beg + blockLen - 1)).2 - 2⟩])
        refine ⟨fun r hr' => hkeep r (List.mem_append_left _ hr'), fun r hr' => ?_⟩
        rcases honly r hr' with hmem | hbeg
        · rcases List.mem_append.mp hmem with hold | hnew
          · exact Or.inl hold
          · rw [List.mem_singleton.mp hnew]
            exact Or.inr rfl
        · exact Or.inr hbeg
      · split
        · exact ⟨fun _ => id, fun _ => Or.inl⟩
        · exact ih _ acc
    · exact ih prev acc

/-- The scan of a bucket records its window if and only if it meets a pattern that
agrees up to its last byte before the addresses descend. -/
theorem scanBucket_records {beg : Nat} {key : Int} {l : List PrefixPattern}
    (hl : ∀ hr ∈ l, 0 < hr.pattern.length ∧ ∀ c ∈ hr.pattern, c ≠ 0) (prev : Nat)
    {acc : List MatchRecord} (hacc : ∀ r ∈ acc, r.beg ≠ beg) :
    (∃ r ∈ scanBucket text beg key l prev acc, r.beg = beg) ↔
      (∃ hr ∈ l.filter fun hr => hr.key = key, AlmostAt hr.pattern text beg) ∧
      (prev :: ((l.filter fun hr => hr.key = key).takeWhile fun hr =>
        ¬ AlmostAt hr.pattern text beg).map fun hr =>
          hr.addr + agreement hr.pattern text beg + 2).Pairwise (· ≤ ·) := by
  induction l generalizing prev with
  | nil =>
    simp only [scanBucket]
    constructor
    · rintro ⟨r, hr, hbeg⟩
      exact absurd hbeg (hacc r hr)
    · rintro ⟨⟨hr, hmem, -⟩, -⟩
      simp at hmem
  | cons hr l ih =>
    obtain ⟨hlen, hnul⟩ := hl hr (by simp)
    have ih' := ih fun hr' hmem => hl hr' (by simp [hmem])
    have hcompare : (compareLoop hr.pattern text (hr.pattern.length + 1) 1 (beg + 1)).1 = _ :=
      compareLoop_spec hnul (by omega) (by omega)
    rw [show commonPrefix (hr.pattern.drop 1) (text.drop (beg + 1)) =
      agreement hr.pattern text beg from rfl] at hcompare
    rw [scanBucket]
    dsimp only [blockLen]
    rw [show beg + 2 - 1 = beg + 1 by omega, show 2 - 1 = 1 from rfl]
    by_cases hkey : hr.key = key
    · rw [if_pos hkey, List.filter_cons_of_pos (by simpa using hkey)]
      by_cases halmost : AlmostAt hr.pattern text beg
      · have hzero : hr.pattern.getD (compareLoop hr.pattern text (hr.pattern.length + 1) 1
            (beg + 1)).1 0 = 0 := by
          by_contra hne
          have hlt := (word_ne_zero hnul).mp hne
          unfold AlmostAt at halmost
          rw [hcompare] at hlt
          split at hlt <;> omega
        rw [if_pos hzero]
        constructor
        · intro _
          refine ⟨⟨hr, by simp, halmost⟩, ?_⟩
          simp [halmost]
        · intro _
          exact ⟨_, (scanBucket_mem ..).1 _ (List.mem_append_right _ (List.mem_singleton.mpr rfl)),
            rfl⟩
      · have hshort : ¬ hr.pattern.length ≤ 1 + agreement hr.pattern text beg := by
          unfold AlmostAt at halmost
          omega
        rw [if_neg hshort] at hcompare
        have hne : hr.pattern.getD (compareLoop hr.pattern text (hr.pattern.length + 1) 1
            (beg + 1)).1 0 ≠ 0 := by
          rw [hcompare]
          refine (word_ne_zero hnul).mpr ?_
          unfold AlmostAt at halmost
          omega
        rw [if_neg hne, hcompare, List.takeWhile_cons_of_pos (by simpa using halmost),
          List.map_cons]
        have hex : (∃ hr' ∈ hr :: l.filter fun hr => hr.key = key, AlmostAt hr'.pattern text beg) ↔
            ∃ hr' ∈ l.filter fun hr => hr.key = key, AlmostAt hr'.pattern text beg := by
          simp [halmost]
        rw [hex]
        generalize hstop : hr.addr + (1 + agreement hr.pattern text beg + 1) = stop
        rw [show hr.addr + agreement hr.pattern text beg + 2 = stop by omega]
        split
        · rename_i hlt
          constructor
          · rintro ⟨r, hmem, hbeg⟩
            exact absurd hbeg (hacc r hmem)
          · rintro ⟨-, hpair⟩
            have hle := List.rel_of_pairwise_cons hpair (List.mem_cons_self ..)
            omega
        · rename_i hge
          rw [ih' stop]
          refine and_congr_right fun _ => ?_
          constructor
          · intro hpair
            refine List.pairwise_cons.mpr ⟨fun x hx => ?_, hpair⟩
            rcases List.mem_cons.mp hx with rfl | hx
            · omega
            · have := List.rel_of_pairwise_cons hpair hx
              omega
          · exact fun hpair => (List.pairwise_cons.mp hpair).2
    · rw [if_neg hkey, List.filter_cons_of_neg (by simpa using hkey)]
      exact ih' prev

theorem commonPrefix_of_prefix {xs ys : List Int} (hxs : ∀ c ∈ xs, c ≠ 0)
    (h : ∀ k < xs.length, word ys k = word xs k) : commonPrefix xs ys = xs.length := by
  induction xs generalizing ys with
  | nil => rfl
  | cons x xs ih =>
    have hhead : word ys 0 = x := h 0 (by simp)
    cases ys with
    | nil =>
      have hx : x = 0 := hhead.symm
      exact absurd hx (hxs x (by simp))
    | cons y ys =>
      have hy : y = x := hhead
      rw [commonPrefix, if_pos hy.symm, List.length_cons]
      congr 1
      refine ih (fun c hc => hxs c (by simp [hc])) fun k hk => ?_
      have := h (k + 1) (by simpa using hk)
      simpa [word] using this

/-- A pattern occurs inside the text. -/
theorem OccursAt.le_length (hnul : ∀ c ∈ p, c ≠ 0) (hocc : OccursAt p text b) (hb : 0 < p.length) :
    b + p.length ≤ text.length := by
  have hlast := hocc (p.length - 1) (by omega)
  have hne : word text (b + (p.length - 1)) ≠ 0 := by
    rw [hlast]
    exact (word_ne_zero hnul).mpr (by omega)
  by_contra hover
  refine hne ?_
  unfold word
  rw [List.getD_eq_getElem?_getD, List.getElem?_eq_none (by omega)]
  rfl

/-- A pattern that occurs agrees with the text up to its last byte. -/
theorem OccursAt.almostAt (hnul : ∀ c ∈ p, c ≠ 0) (hocc : OccursAt p text b) :
    AlmostAt p text b := by
  have hagree : agreement p text b = (p.drop 1).length := by
    refine commonPrefix_of_prefix (fun c hc => hnul c (List.mem_of_mem_drop hc)) fun k hk => ?_
    rw [List.length_drop] at hk
    have hread := hocc (k + 1) (by omega)
    rw [show b + (k + 1) = b + 1 + k by omega] at hread
    simpa [word, Nat.add_comm 1 k] using hread
  unfold AlmostAt
  rw [hagree, List.length_drop]
  omega

/-- A pattern that occurs is a candidate of its window. -/
theorem OccursAt.mem_candidates {m : Nat} (hm : 2 ≤ m) (hlen : m ≤ p.length)
    (hocc : OccursAt p text b) (hp : p ∈ patterns) :
    ∃ i, (p, i) ∈ candidates patterns m text b := by
  obtain ⟨i, hi, rfl⟩ := List.mem_iff_getElem.mp hp
  have hread : ∀ k < m, word text (b + k) = word patterns[i] k := fun k hk => hocc k (by omega)
  have hlast := hread (m - 1) (by omega)
  have hbefore := hread (m - 2) (by omega)
  have hfirst := hread 0 (by omega)
  have hsecond := hread 1 (by omega)
  unfold word at hlast hbefore hfirst hsecond
  have hsuffix : suffixHash patterns[i] (m - 1) = suffixHash text (b + m - 1) := by
    unfold suffixHash
    rw [show b + m - 1 - 1 = b + (m - 2) by omega, show b + m - 1 = b + (m - 1) by omega,
      show m - 1 - 1 = m - 2 by omega, hlast, hbefore]
  have hprefix : prefixHash patterns[i] (m - 1) m = prefixHash text (b + m - 1) m := by
    unfold prefixHash
    rw [show b + m - 1 + 1 - m = b + 0 by omega, show b + m - 1 + 2 - m = b + 1 by omega,
      show m - 1 + 1 - m = 0 by omega, show m - 1 + 2 - m = 1 by omega, hfirst, hsecond]
  refine ⟨i, List.mem_filter.mpr ⟨by simp [List.mem_zipIdx_iff_getElem?, hi], ?_⟩⟩
  exact decide_eq_true ⟨hsuffix, hprefix⟩

/-- The records of the buckets are the candidates. -/
theorem bucket_eq (hinit : mpatInit patterns place = some obj) (text : List Int) (b : Nat) :
    ((lookup obj.hash (suffixHash text (b + obj.m - 1))).getD []).filter
        (fun hr => hr.key = prefixHash text (b + obj.m - 1) obj.m) =
      (candidates patterns obj.m text b).map fun e =>
        ⟨prefixHash e.1 (obj.m - 1) obj.m, e.1, place e.2⟩ := by
  obtain ⟨-, -, htables, -⟩ := mpatInit_spec hinit
  rw [htables.buckets, List.filter_map, candidates, List.filter_filter]
  congr 2
  funext e
  simp [and_comm]

/-- A record that `mpat_search` finds at `b` comes from the visit of its window. -/
theorem searchLoop_behind {fuel ptr : Nat} (hptr : b + obj.m ≤ ptr)
    (acc : List MatchRecord) :
    (∃ r ∈ searchLoop obj text fuel ptr acc, r.beg = b) ↔ ∃ r ∈ acc, r.beg = b := by
  induction fuel generalizing ptr acc with
  | zero => rfl
  | succ fuel ih =>
    rw [searchLoop]
    split
    · dsimp only
      split
      · rw [ih (by omega)]
        obtain ⟨hkeep, honly⟩ := scanBucket_mem text (ptr + 1 - obj.m) (prefixHash text ptr obj.m)
          (((obj.hash.find? fun e => e.1 = suffixHash text ptr).map Prod.snd).getD []) 0 acc
        constructor
        · rintro ⟨r, hr, hbeg⟩
          rcases honly r hr with hmem | hwin
          · exact ⟨r, hmem, hbeg⟩
          · omega
        · rintro ⟨r, hr, hbeg⟩
          exact ⟨r, hkeep r hr, hbeg⟩
      · exact ih (by omega) acc
    · rfl

/-- **The window stops at every occurrence**, and there the scan decides. -/
theorem searchLoop_records (hinit : mpatInit patterns place = some obj)
    (hnul : ∀ p ∈ patterns, ∀ c ∈ p, c ≠ 0) (hp : p ∈ patterns) (hocc : OccursAt p text b)
    (hb : b + obj.m ≤ text.length) {fuel ptr : Nat} (hptr : ptr + 1 ≤ b + obj.m)
    (hlow : obj.m ≤ ptr + 1) (hfuel : text.length < ptr + fuel) {acc : List MatchRecord}
    (hacc : ∀ r ∈ acc, r.beg ≠ b) :
    (∃ r ∈ searchLoop obj text fuel ptr acc, r.beg = b) ↔
      Ordered patterns place obj.m text b := by
  obtain ⟨hm, hshort, htables, -⟩ := mpatInit_spec hinit
  have hplen := hshort p hp
  have hread : ∀ k < p.length, text.getD (b + k) 0 = p.getD k 0 := hocc
  induction fuel generalizing ptr acc with
  | zero => omega
  | succ fuel ih =>
    obtain ⟨hnonneg, hlt, hsafe⟩ := getShift_spec hinit (suffixHash text ptr)
    rw [searchLoop, if_pos (by omega)]
    dsimp only
    rw [show ((obj.hash.find? fun e => e.1 = suffixHash text ptr).map Prod.snd) =
      lookup obj.hash (suffixHash text ptr) from rfl]
    rcases Nat.eq_or_lt_of_le hptr with heq | hahead
    · obtain rfl : ptr = b + obj.m - 1 := by omega
      have hblock : suffixHash p (obj.m - 1) = suffixHash text (b + obj.m - 1) := by
        unfold suffixHash
        rw [← hread (obj.m - 1) (by omega), ← hread (obj.m - 1 - 1) (by omega)]
        congr 2
        · congr 1
          omega
        · omega
      have hzero : obj.getShift (suffixHash text (b + obj.m - 1)) = 0 := by
        have := hsafe p hp (obj.m - 1) (by omega) (by omega) hblock
        omega
      rw [if_pos hzero, searchLoop_behind (by omega),
        show b + obj.m - 1 + 1 - obj.m = b by omega]
      have hbucket : ∀ hr ∈ (lookup obj.hash (suffixHash text (b + obj.m - 1))).getD [],
          0 < hr.pattern.length ∧ ∀ c ∈ hr.pattern, c ≠ 0 := by
        intro hr hmem
        rw [htables.buckets] at hmem
        obtain ⟨e, he, rfl⟩ := List.mem_map.mp hmem
        have hpat := List.fst_mem_of_mem_zipIdx (List.mem_of_mem_filter he)
        have := hshort e.1 hpat
        exact ⟨by dsimp only; omega, hnul e.1 hpat⟩
      rw [scanBucket_records hbucket 0 hacc, bucket_eq hinit, List.takeWhile_map, List.map_map]
      obtain ⟨i, hmem⟩ := hocc.mem_candidates (by omega) hplen hp
      constructor
      · exact fun h => (List.pairwise_cons.mp h.2).2
      · intro h
        refine ⟨⟨_, List.mem_map_of_mem hmem, hocc.almostAt (hnul p hp)⟩, ?_⟩
        exact List.pairwise_cons.mpr ⟨fun _ _ => Nat.zero_le _, h⟩
    · have hmove : ∀ s : Nat, ptr + s + 1 ≤ b + obj.m → 0 < s → ∀ acc, (∀ r ∈ acc, r.beg ≠ b) →
          ((∃ r ∈ searchLoop obj text fuel (ptr + s) acc, r.beg = b) ↔
            Ordered patterns place obj.m text b) :=
        fun s hs hpos acc hacc => ih hs (by omega) (by omega) hacc
      split
      · refine hmove 1 (by omega) (by omega) _ fun r hr hbeg => ?_
        rcases (scanBucket_mem ..).2 r hr with hmem | hwin
        · exact hacc r hmem hbeg
        · omega
      · rename_i hshift
        refine hmove _ ?_ (by omega) acc hacc
        -- the block of the window at distance `s` to the occurrence is one of the pattern's blocks
        rcases Nat.lt_or_ge (ptr + 1) (b + 2) with hfar | hnear
        · omega
        · have hblock : suffixHash p (ptr - b) = suffixHash text ptr := by
            unfold suffixHash
            rw [← hread (ptr - b) (by omega), ← hread (ptr - b - 1) (by omega)]
            congr 2
            · congr 1
              omega
            · omega
          have := hsafe p hp (ptr - b) (by omega) (by omega) hblock
          omega

theorem mem_recordMatch {l : List MatchRecord} {r x : MatchRecord} :
    x ∈ recordMatch l r ↔ x = r ∨ x ∈ l := by
  induction l with
  | nil => simp [recordMatch]
  | cons y l ih =>
    rw [recordMatch]
    split
    · rw [List.mem_cons, ih, List.mem_cons]
      tauto
    · rw [List.mem_cons]

theorem mem_mpatSearch (obj : MPatObj) (text : List Int) (r : MatchRecord) :
    r ∈ obj.mpatSearch text ↔ r ∈ obj.mpatRecords text := by
  suffices h : ∀ (rs l : List MatchRecord), r ∈ rs.foldl recordMatch l ↔ r ∈ rs ∨ r ∈ l by
    simpa [mpatSearch] using h (obj.mpatRecords text) []
  intro rs
  induction rs with
  | nil => simp
  | cons x rs ih =>
    intro l
    rw [List.foldl_cons, ih, mem_recordMatch, List.mem_cons]
    tauto

/-- **When multi-pattern search misses nothing.** Every position at which a pattern
occurs is recorded if and only if no scan of a bucket leaves early in front of a
pattern that agrees with the text there. -/
theorem mpatSearch_complete_iff (hinit : mpatInit patterns place = some obj)
    (hascii : ∀ p ∈ patterns, ∀ c ∈ p, 1 ≤ c ∧ c ≤ 127) (line : List Int) :
    (∀ b, (∃ p ∈ patterns, OccursAt p (line ++ [eolSymbol]) b) →
      ∃ r ∈ obj.mpatSearch (line ++ [eolSymbol]), r.beg = b) ↔
    ∀ b, (∃ p ∈ patterns, OccursAt p (line ++ [eolSymbol]) b) →
      Ordered patterns place obj.m (line ++ [eolSymbol]) b := by
  obtain ⟨hm, hshort, -, -⟩ := mpatInit_spec hinit
  have hnul : ∀ p ∈ patterns, ∀ c ∈ p, c ≠ 0 := by
    intro p hp c hc
    have := hascii p hp c hc
    omega
  refine forall_congr' fun b => forall_congr' ?_
  rintro ⟨p, hp, hocc⟩
  have hplen := hshort p hp
  have hlen : (line ++ [eolSymbol]).length = line.length + 1 := by simp
  have hinside := hocc.le_length (hnul p hp) (by omega)
  -- the occurrence ends in front of the end of line symbol
  have hfits : b + p.length ≤ line.length := by
    by_contra hover
    have hlast := hocc (p.length - 1) (by omega)
    rw [show b + (p.length - 1) = line.length by omega] at hlast
    have heol : word (line ++ [eolSymbol]) line.length = eolSymbol := by simp [word]
    have hmem : word p (p.length - 1) ∈ p := by
      have hlt : p.length - 1 < p.length := by omega
      simp [word, List.getD_eq_getElem?_getD, hlt]
    have hbyte := hascii p hp _ hmem
    rw [← hlast, heol] at hbyte
    exact absurd hbyte.1 (by decide)
  have hrecords : (∃ r ∈ obj.mpatSearch (line ++ [eolSymbol]), r.beg = b) ↔
      ∃ r ∈ obj.mpatRecords (line ++ [eolSymbol]), r.beg = b := by
    simp only [mem_mpatSearch]
  rw [hrecords]
  unfold mpatRecords
  rw [if_neg (by omega)]
  exact searchLoop_records hinit hnul hp hocc (by omega) (by omega) (by omega) (by omega) (by simp)

/-- The condition holds of records allocated at rising addresses. -/
theorem mpatSearch_complete_rising :
    ∃ obj, mpatInit [bytes "qqq", bytes "abcxx", bytes "abcyy"] (fun i => 100 * i) = some obj ∧
      ∃ r ∈ obj.mpatSearch (bytes "abcyy" ++ [eolSymbol]), r.beg = 0 := by
  have hinit : ∃ obj, mpatInit [bytes "qqq", bytes "abcxx", bytes "abcyy"] (fun i => 100 * i) =
      some obj ∧ obj.m = 3 := ⟨_, rfl, rfl⟩
  obtain ⟨obj, hinit, hm⟩ := hinit
  refine ⟨obj, hinit, (mpatSearch_complete_iff hinit (by decide) (bytes "abcyy")).mpr ?_ 0
    ⟨bytes "abcyy", by simp, by decide⟩⟩
  rintro b ⟨p, hp, hocc⟩
  have hpatterns : ∀ p ∈ [bytes "qqq", bytes "abcxx", bytes "abcyy"],
      (∀ c ∈ p, c ≠ 0) ∧ 0 < p.length := by decide
  have hb : b < 6 := by
    have hinside := hocc.le_length (hpatterns p hp).1 (hpatterns p hp).2
    have hpos := (hpatterns p hp).2
    have hlen : (bytes "abcyy" ++ [eolSymbol]).length = 6 := rfl
    omega
  have hordered : ∀ b < 6, Ordered [bytes "qqq", bytes "abcxx", bytes "abcyy"]
      (fun i => 100 * i) 3 (bytes "abcyy" ++ [eolSymbol]) b := by decide
  rw [hm]
  exact hordered b hb

/-- Records at descending addresses hide the third pattern with a common prefix. -/
theorem mpatSearch_misses_third :
    ¬ ∀ (patterns : List (List Int)) (place : Nat → Nat) (obj : MPatObj) (line : List Int),
      mpatInit patterns place = some obj → (∀ p ∈ patterns, ∀ c ∈ p, 1 ≤ c ∧ c ≤ 127) →
      ∀ b, (∃ p ∈ patterns, OccursAt p (line ++ [eolSymbol]) b) →
        ∃ r ∈ obj.mpatSearch (line ++ [eolSymbol]), r.beg = b := by
  intro h
  have hinit : ∃ obj, mpatInit [bytes "qqq", bytes "abcxx", bytes "abcyy", bytes "abczz"]
      (fun i => 1000 - 100 * i) = some obj ∧
        obj.mpatSearch (bytes "abczz" ++ [eolSymbol]) = [] := ⟨_, rfl, by decide⟩
  obtain ⟨obj, hinit, hnone⟩ := hinit
  obtain ⟨r, hr, -⟩ := h _ _ obj (bytes "abczz") hinit (by decide) 0
    ⟨bytes "abczz", by simp, by decide⟩
  rw [hnone] at hr
  exact absurd hr List.not_mem_nil

end MPatObj

end Recognizer
