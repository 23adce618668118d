import Recognizer.Prescan.RecordList
import Recognizer.Prescan.RecordTree
import Mathlib.Data.List.Forall2

/-!
# The streams of matches

Whatever was searched before, the calls of `kw_next_match` for a line read the records of
the line's own search in the order of their starts, and then `NULL`.
-/

namespace Recognizer

namespace BMObj

/-- No shift of the good suffix table is negative. -/
theorem goodSuffix_nonneg (pattern : List Int) : ∀ x ∈ computeGoodSuffix pattern, 0 ≤ x := by
  have hset : ∀ (good : List Int) (i : Nat) (shift : Nat), (∀ x ∈ good, 0 ≤ x) →
      ∀ x ∈ good.set i (shift : Int), 0 ≤ x := by
    intro good i shift hgood x hx
    rcases List.mem_or_eq_of_mem_set hx with hx | rfl
    · exact hgood x hx
    · exact Int.natCast_nonneg shift
  have hrange : ∀ (m shift j n : Nat) (good : List Int), (∀ x ∈ good, 0 ≤ x) →
      ∀ x ∈ fillRange m shift j n good, 0 ≤ x := by
    intro m shift j n good hgood
    rw [fillRange]
    refine List.foldlRecOn (motive := fun good : List Int => ∀ x ∈ good, 0 ≤ x) _ _ hgood
      fun good hgood d _ => ?_
    split
    · exact hset good _ shift hgood
    · exact hgood
  have hprefix : ∀ x ∈ ((List.range pattern.length).reverse.foldl
      (fillPrefix pattern.length (computeSuffix pattern))
        (0, List.replicate pattern.length (pattern.length : Int))).2, 0 ≤ x := by
    refine List.foldlRecOn (motive := fun acc : Nat × List Int => ∀ x ∈ acc.2, 0 ≤ x) _ _ ?_ ?_
    · intro x hx
      rw [List.eq_of_mem_replicate hx]
      exact Int.natCast_nonneg _
    · intro acc hacc i _
      rw [fillPrefix]
      split
      · exact hrange _ _ _ _ _ hacc
      · exact hacc
  rw [computeGoodSuffix]
  exact List.foldlRecOn (motive := fun good : List Int => ∀ x ∈ good, 0 ≤ x) _ _ hprefix
    fun good hgood i _ => hset good _ _ hgood

/-- The search records its matches from left to right. -/
theorem searchLoop_sorted {obj : BMObj} (hgood : ∀ x ∈ obj.goodSuffix, 0 ≤ x) (text : List Int)
    {fuel : Nat} {j : Int} {acc : List MatchRecord}
    (hacc : acc.Pairwise fun r r' => r.beg ≤ r'.beg) (hj : ∀ r ∈ acc, r.beg ≤ j.toNat) :
    (searchLoop obj text fuel j acc).Pairwise fun r r' => r.beg ≤ r'.beg := by
  have hget : ∀ i, 0 ≤ obj.goodSuffix.getD i 0 := by
    intro i
    rw [List.getD_eq_getElem?_getD]
    cases hx : obj.goodSuffix[i]? with
    | none => simp
    | some x => exact hgood x (List.mem_of_getElem? hx)
  induction fuel generalizing j acc with
  | zero => exact hacc
  | succ fuel ih =>
    simp only [searchLoop]
    split
    · split
      · refine ih ?_ ?_
        · refine List.pairwise_append.mpr ⟨hacc, List.pairwise_singleton _ _, ?_⟩
          intro r hr r' hr'
          rw [List.mem_singleton.mp hr']
          exact hj r hr
        · intro r hr
          have hshift := hget 0
          rcases List.mem_append.mp hr with hr | hr
          · have hle := hj r hr
            omega
          · rw [List.mem_singleton.mp hr]
            show j.toNat ≤ _
            omega
      · split
        · refine ih hacc fun r hr => ?_
          have hle := hj r hr
          omega
        · refine ih hacc fun r hr => ?_
          have hle := hj r hr
          have hshift := hget (compareFrom obj.pattern text j obj.pattern.length).toNat
          split <;> omega
    · exact hacc

end BMObj

/-- A search object as `new_nfa_sim` initialises it. -/
inductive KwSearch.Built : KwSearch → Prop where
  | bm (pattern : List Int) : Built (.bm (BMObj.bmInitObj pattern))
  | mpat {patterns : List (List Int)} {place : Nat → Nat} {obj : MPatObj} :
    MPatObj.mpatInit patterns place = some obj → Built (.mpat obj)

namespace KwObj

/-- The records `l` are read from the index `j` on. -/
inductive Reads (l : List MatchRecord) (j : Nat) : KwSearch → KwObj → Prop where
  | bm {obj : BMObj} {s : BMMatches} : s.Reads l j → Reads l j (.bm obj) (.bm obj s)
  | mpat {obj : MPatObj} {s : MPatMatches} : s.Reads l j → Reads l j (.mpat obj) (.mpat obj s)

variable {kw : KwSearch} {o : KwObj} {l : List MatchRecord} {j : Nat} {text : Text}

/-- A new search object has no records. -/
theorem reads_start (kw : KwSearch) : Reads [] 0 kw kw.start := by
  cases kw with
  | bm obj => exact .bm BMMatches.idle_init
  | mpat obj => exact .mpat MPatMatches.idle_init

/-- A search makes its records readable in order. -/
theorem kwSearch_at (text : Text) (hkw : kw.Built) (h : Reads [] 0 kw o) :
    ∃ o' l, o.kwSearch text = some o' ∧ Reads l 0 kw o' ∧ l.Perm (kw.records text) ∧
      l.Pairwise fun r r' => r.beg ≤ r'.beg := by
  have hplace : ∀ rs : List MatchRecord, ∀ r ∈ rs.map text.place, r.beg ≠ 0 ∧ r.stop ≠ 0 := by
    intro rs r hr
    obtain ⟨r₀, -, rfl⟩ := List.mem_map.mp hr
    have hne := text.input_ne
    simp only [Text.place]
    omega
  cases h with
  | @bm obj s hs =>
    obtain ⟨s', hrecord, hreads⟩ := BMMatches.Idle.recordAll hs (hplace (obj.bmSearch text.bytes))
    refine ⟨.bm obj s', _, ?_, .bm hreads, .refl _, ?_⟩
    · rw [kwSearch, hrecord, Option.map_some]
    · cases hkw with
      | bm pattern =>
        have hsorted : ((BMObj.bmInitObj pattern).bmSearch text.bytes).Pairwise
            fun r r' => r.beg ≤ r'.beg :=
          BMObj.searchLoop_sorted (BMObj.goodSuffix_nonneg pattern) text.bytes .nil (by simp)
        refine List.pairwise_map.mpr (hsorted.imp ?_)
        intro r r' hle
        exact Nat.add_le_add_left hle text.input
  | @mpat obj s hs =>
    obtain ⟨s', l, hrecord, hreads, hperm⟩ :=
      MPatMatches.Idle.recordAll ((obj.mpatRecords text.bytes).map text.place) hs
    refine ⟨.mpat obj s', l, ?_, .mpat hreads, hperm, hreads.sorted⟩
    rw [kwSearch, hrecord, Option.map_some]

/-- `kw_next_match` reads the next record. -/
theorem kwNextMatch_at (h : Reads l j kw o) :
    ∃ o', o.kwNextMatch = some (l[j]?, o') ∧ Reads l ((j + 1) % (l.length + 1)) kw o' := by
  cases h with
  | @bm obj s hs =>
    obtain ⟨hvalue, hreads, hsame⟩ := BMMatches.bmNextMatch_at hs
    refine ⟨.bm obj s.bmNextMatch.2, ?_, .bm hreads⟩
    rw [← hvalue, ← hsame]
    rfl
  | @mpat obj s hs =>
    obtain ⟨a, s', hnext, hvalue, hreads⟩ := MPatMatches.mpatNextMatch_at hs
    refine ⟨.mpat obj s', ?_, .mpat hreads⟩
    rw [← hvalue]
    simp only [kwNextMatch, hnext, Option.bind_eq_bind, Option.bind_some]

/-- The calls of `kw_next_match` read the records one after another, and `NULL` behind the
last one. -/
theorem nextMatches_at (k : Nat) (hj : j ≤ l.length) (h : Reads l j kw o) :
    ∃ o' j', o.nextMatches k =
        some ((List.range k).map fun i => l[(j + i) % (l.length + 1)]?, o') ∧ Reads l j' kw o' := by
  induction k generalizing o j with
  | zero => exact ⟨o, j, rfl, h⟩
  | succ k ih =>
    obtain ⟨o₁, hnext, h₁⟩ := kwNextMatch_at h
    have hj₁ : (j + 1) % (l.length + 1) ≤ l.length :=
      Nat.le_of_lt_succ (Nat.mod_lt _ (Nat.succ_pos _))
    obtain ⟨o', j', hrest, h'⟩ := ih hj₁ h₁
    refine ⟨o', j', ?_, h'⟩
    simp only [nextMatches, hnext, hrest, Option.bind_eq_bind, Option.bind_some]
    have hfirst : (j + 0) % (l.length + 1) = j := Nat.mod_eq_of_lt (Nat.lt_succ_of_le hj)
    rw [List.range_succ_eq_map, List.map_cons, List.map_map, hfirst]
    have hindex : ∀ i, ((j + 1) % (l.length + 1) + i) % (l.length + 1) =
        (j + (i + 1)) % (l.length + 1) := by
      intro i
      rw [Nat.mod_add_mod, Nat.add_assoc, Nat.add_comm 1 i]
    simp only [hindex]
    rfl

/-- `kw_clear_matches` leaves no record behind. -/
theorem kwClearMatches_at (h : Reads l j kw o) :
    ∃ o', o.kwClearMatches = some o' ∧ Reads [] 0 kw o' := by
  cases h with
  | @bm obj s hs =>
    obtain ⟨s', hclear, hidle⟩ := BMMatches.bmClearMatches_at hs
    exact ⟨.bm obj s', by rw [kwClearMatches, hclear, Option.map_some], .bm hidle⟩
  | @mpat obj s hs =>
    obtain ⟨s', hclear, hidle⟩ := MPatMatches.mpatClearMatches_at hs
    exact ⟨.mpat obj s', by rw [kwClearMatches, hclear, Option.map_some], .mpat hidle⟩

/-- The results of `kw_next_match` for one line: the records of its search in the order of
their starts, then `NULL`, and so on from the first one. -/
def Streams (kw : KwSearch) (line : Text × Nat) (results : List (Option MatchRecord)) : Prop :=
  ∃ l : List MatchRecord, l.Perm (kw.records line.1) ∧
    (l.Pairwise fun r r' => r.beg ≤ r'.beg) ∧
    results = (List.range line.2).map fun i => l[i % (l.length + 1)]?

/-- One line. -/
theorem processLine_at (text : Text) (k : Nat) (hkw : kw.Built) (h : Reads [] 0 kw o) :
    ∃ results o', o.processLine text k = some (results, o') ∧ Streams kw (text, k) results ∧
      Reads [] 0 kw o' := by
  obtain ⟨o₁, l, hsearch, h₁, hperm, hsorted⟩ := kwSearch_at text hkw h
  obtain ⟨o₂, j, hnext, h₂⟩ := nextMatches_at k (Nat.zero_le _) h₁
  obtain ⟨o', hclear, h'⟩ := kwClearMatches_at h₂
  refine ⟨_, o', ?_, ⟨l, hperm, hsorted, rfl⟩, h'⟩
  simp only [processLine, hsearch, hnext, hclear, Option.bind_eq_bind, Option.bind_some,
    Nat.zero_add]

/-- **Match streams are exact across lines.** -/
theorem streams_exact (hkw : kw.Built) (lines : List (Text × Nat)) :
    ∃ results o, kw.start.processLines lines = some (results, o) ∧
      List.Forall₂ (Streams kw) lines results := by
  suffices hrun : ∀ o, Reads [] 0 kw o → ∃ results o', o.processLines lines = some (results, o') ∧
      List.Forall₂ (Streams kw) lines results by
    exact hrun kw.start (reads_start kw)
  induction lines with
  | nil => exact fun o _ => ⟨[], o, rfl, .nil⟩
  | cons line lines ih =>
    intro o h
    obtain ⟨results, o₁, hline, hstreams, h₁⟩ := processLine_at line.1 line.2 hkw h
    obtain ⟨rest, o', hrest, hall⟩ := ih o₁ h₁
    refine ⟨results :: rest, o', ?_, .cons hstreams hall⟩
    simp only [processLines, hline, hrest, Option.bind_eq_bind, Option.bind_some]

/-- The overlapping occurrences of a keyword in two lines. -/
theorem streams_exact_aba :
    (KwSearch.bm (BMObj.bmInitObj (bytes "aba"))).Built ∧
      ∃ results o, (KwSearch.bm (BMObj.bmInitObj (bytes "aba"))).start.processLines
          [(⟨100, bytes "ababa", by decide⟩, 1), (⟨200, bytes "xaba", by decide⟩, 3)] =
            some (results, o) ∧
        List.Forall₂ (Streams (.bm (BMObj.bmInitObj (bytes "aba"))))
          [(⟨100, bytes "ababa", by decide⟩, 1), (⟨200, bytes "xaba", by decide⟩, 3)] results :=
  ⟨.bm _, streams_exact (.bm _) _⟩

end KwObj

end Recognizer
