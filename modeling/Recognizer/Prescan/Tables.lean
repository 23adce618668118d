import Mathlib.Data.List.Basic
import Recognizer.Source.Search

/-!
# The tables of `mpat_init`

A lookup after an insertion, and what the two tables hold once all patterns are
in: no shift passes a pattern, and a bucket lists its patterns in order.
-/

namespace Recognizer

namespace MPatObj

variable {α : Type*} {m : Nat}

/-- The value a table holds for a key. -/
def lookup (t : List (Int × α)) (key : Int) : Option α :=
  (t.find? fun e => e.1 = key).map Prod.snd

theorem lookup_append_new {t : List (Int × α)} {key : Int} (k : Int) (x : α)
    (hnew : t.find? (fun e => e.1 = key) = none) :
    lookup (t ++ [(key, x)]) k = if k = key then some x else lookup t k := by
  unfold lookup
  rw [List.find?_append]
  by_cases hk : k = key
  · subst hk
    rw [hnew, if_pos rfl]
    simp
  · rw [if_neg hk]
    have hlast : List.find? (fun e : Int × α => decide (e.1 = k)) [(key, x)] = none := by
      simp [Ne.symm hk]
    rw [hlast, Option.or_none]

theorem lookup_map {t : List (Int × α)} (k : Int) (f : Int × α → Int × α)
    (hkey : ∀ e, (f e).1 = e.1) :
    lookup (t.map f) k = (t.find? fun e => e.1 = k).map fun e => (f e).2 := by
  have hpred : ((fun e : Int × α => decide (e.1 = k)) ∘ f) = fun e => decide (e.1 = k) := by
    funext e
    simp [hkey]
  unfold lookup
  rw [List.find?_map, hpred, Option.map_map]
  rfl

/-- The smaller of a shift and the one a table already holds. -/
def minShift (old : Option Int) (shift : Int) : Int :=
  match old with
  | none => shift
  | some x => if x > shift then shift else x

theorem lookup_insertShiftRecord (t : List (Int × Int)) (key shift k : Int) :
    lookup (insertShiftRecord t key shift) k =
      if k = key then some (minShift (lookup t key) shift) else lookup t k := by
  unfold insertShiftRecord
  split
  · rename_i hnone
    rw [lookup_append_new k shift hnone]
    simp [lookup, hnone, minShift]
  · rename_i e hsome
    rw [lookup_map k _ fun e => by split <;> simp_all]
    by_cases hk : k = key
    · subst hk
      have hke : e.1 = k := by simpa using List.find?_some hsome
      simp only [hsome, Option.map_some, if_true, lookup, minShift, hke, true_and]
      split <;> rfl
    · rw [if_neg hk]
      unfold lookup
      cases hfind : t.find? fun e => e.1 = k with
      | none => rfl
      | some e' =>
        have hke : e'.1 = k := by simpa using List.find?_some hfind
        simp [hke, hk]

theorem lookup_insertHashRecord (t : List (Int × List PrefixPattern)) (key : Int)
    (r : PrefixPattern) (k : Int) :
    (lookup (insertHashRecord t key r) k).getD [] =
      (lookup t k).getD [] ++ if k = key then [r] else [] := by
  unfold insertHashRecord
  split
  · rename_i hnone
    rw [lookup_append_new k [r] hnone]
    split
    · rename_i hk
      subst hk
      simp [lookup, hnone]
    · rw [List.append_nil]
  · rename_i e hsome
    rw [lookup_map k _ fun e => by split <;> simp_all]
    by_cases hk : k = key
    · subst hk
      have hke : e.1 = k := by simpa using List.find?_some hsome
      simp [hsome, lookup, hke]
    · rw [if_neg hk, List.append_nil]
      unfold lookup
      cases hfind : t.find? fun e => e.1 = k with
      | none => rfl
      | some e' =>
        have hke : e'.1 = k := by simpa using List.find?_some hfind
        simp [hke, hk]

/-- A table holds a shift of at most `d` for a key. -/
def Bounds (t : List (Int × Int)) (key d : Int) : Prop := ∃ x, lookup t key = some x ∧ x ≤ d

/-- All shifts of a table move the window by less than `m`. -/
def Ranges (m : Nat) (t : List (Int × Int)) : Prop :=
  ∀ key x, lookup t key = some x → 0 ≤ x ∧ x < m

theorem minShift_le (old : Option Int) (shift : Int) : minShift old shift ≤ shift := by
  unfold minShift
  split
  · exact le_rfl
  · split <;> omega

theorem minShift_le_old {old : Option Int} {x : Int} (h : old = some x) (shift : Int) :
    minShift old shift ≤ x := by
  subst h
  unfold minShift
  dsimp only
  split <;> omega

theorem Bounds.insert_self (t : List (Int × Int)) (key d : Int) :
    Bounds (insertShiftRecord t key d) key d :=
  ⟨_, (lookup_insertShiftRecord t key d key).trans (if_pos rfl), minShift_le _ d⟩

/-- Another record only lowers a bound. -/
theorem Bounds.insert {t : List (Int × Int)} {k d : Int} (h : Bounds t k d) (key shift : Int) :
    Bounds (insertShiftRecord t key shift) k d := by
  obtain ⟨x, hx, hle⟩ := h
  by_cases hk : k = key
  · subst hk
    exact ⟨_, (lookup_insertShiftRecord t k shift k).trans (if_pos rfl),
      (minShift_le_old hx shift).trans hle⟩
  · exact ⟨x, (lookup_insertShiftRecord t key shift k).trans ((if_neg hk).trans hx), hle⟩

theorem Ranges.insert {t : List (Int × Int)} (h : Ranges m t) (key : Int) {shift : Int}
    (hlow : 0 ≤ shift) (hhigh : shift < m) : Ranges m (insertShiftRecord t key shift) := by
  intro k x hx
  rw [lookup_insertShiftRecord] at hx
  split at hx
  · cases hx
    unfold minShift
    split
    · exact ⟨hlow, hhigh⟩
    · rename_i y hy
      have hrange := h key y hy
      split <;> omega
  · exact h k x hx

/-- `hash_substrings` enters the distance of every block to the end of the window. -/
theorem hashSubstrings_spec {t : List (Int × Int)} (hrange : Ranges m t) (hm : 2 ≤ m)
    (pattern : List Int) :
    Ranges m (hashSubstrings t pattern m) ∧
      (∀ key d, Bounds t key d → Bounds (hashSubstrings t pattern m) key d) ∧
      ∀ i, 1 ≤ i → i + 1 < m →
        Bounds (hashSubstrings t pattern m) (suffixHash pattern i) ((m - 1 - i : Nat) : Int) := by
  unfold hashSubstrings
  dsimp only
  suffices hfold : ∀ n, n + 2 ≤ m →
      Ranges m ((List.range n).foldl (fun t d => insertShiftRecord t
        (suffixHash pattern (m - blockLen - d)) ((m - 1 - (m - blockLen - d) : Nat) : Int)) t) ∧
      (∀ key d, Bounds t key d → Bounds ((List.range n).foldl (fun t d => insertShiftRecord t
        (suffixHash pattern (m - blockLen - d)) ((m - 1 - (m - blockLen - d) : Nat) : Int)) t)
        key d) ∧
      ∀ i, m ≤ i + n + 1 → i + 1 < m → Bounds ((List.range n).foldl (fun t d => insertShiftRecord t
        (suffixHash pattern (m - blockLen - d)) ((m - 1 - (m - blockLen - d) : Nat) : Int)) t)
        (suffixHash pattern i) ((m - 1 - i : Nat) : Int) by
    obtain ⟨h₁, h₂, h₃⟩ := hfold (m - blockLen) (by unfold blockLen; omega)
    exact ⟨h₁, h₂, fun i hi him => h₃ i (by unfold blockLen; omega) him⟩
  intro n
  induction n with
  | zero => exact fun _ => ⟨hrange, fun _ _ => id, fun i hi him => by omega⟩
  | succ n ih =>
    intro hn
    obtain ⟨h₁, h₂, h₃⟩ := ih (by omega)
    simp only [List.range_succ, List.foldl_append, List.foldl_cons, List.foldl_nil]
    generalize (List.range n).foldl _ t = t' at h₁ h₂ h₃ ⊢
    refine ⟨h₁.insert _ (by omega) (by omega), fun key d h => (h₂ key d h).insert _ _,
      fun i hi him => ?_⟩
    rcases Nat.lt_or_ge (i + n + 1) m with hlt | hge
    · obtain rfl : i = m - blockLen - n := by unfold blockLen; omega
      exact .insert_self _ _ _
    · exact (h₃ i hge him).insert _ _

/-- What the tables hold once some patterns are in, each with the index of its record. -/
structure Tables (m : Nat) (place : Nat → Nat) (patterns : List (List Int × Nat))
    (hash : List (Int × List PrefixPattern)) (shift : List (Int × Int)) : Prop where
  range : Ranges m shift
  bounds : ∀ e ∈ patterns, ∀ i, 1 ≤ i → i < m →
    Bounds shift (suffixHash e.1 i) ((m - 1 - i : Nat) : Int)
  buckets : ∀ key, (lookup hash key).getD [] =
    (patterns.filter fun e => suffixHash e.1 (m - 1) = key).map fun e =>
      ⟨prefixHash e.1 (m - 1) m, e.1, place e.2⟩

/-- One round of the loop of `mpat_init`. -/
theorem Tables.step {place : Nat → Nat} {patterns : List (List Int × Nat)}
    {tables : List (Int × List PrefixPattern) × List (Int × Int)}
    (h : Tables m place patterns tables.1 tables.2) (hm : 2 ≤ m) (e : List Int × Nat) :
    Tables m place (patterns ++ [e]) (addPattern m place tables e).1
      (addPattern m place tables e).2 := by
  obtain ⟨hrange, hkeep, hnew⟩ :=
    hashSubstrings_spec (h.range.insert (suffixHash e.1 (m - 1)) le_rfl (by omega)) hm e.1
  refine ⟨hrange, fun e' he' i hi him => ?_, fun key => ?_⟩
  · rcases List.mem_append.mp he' with hold | hlast
    · exact hkeep _ _ ((h.bounds e' hold i hi him).insert _ _)
    · obtain rfl := List.mem_singleton.mp hlast
      rcases Nat.eq_or_lt_of_le (Nat.le_of_lt_succ (Nat.lt_succ_of_lt him)) with heq | hlt
      · omega
      · by_cases hend : i + 1 = m
        · obtain rfl : i = m - 1 := by omega
          have hself := Bounds.insert_self tables.2 (suffixHash e'.1 (m - 1)) 0
          rw [Nat.sub_self]
          exact hkeep _ _ hself
        · exact hnew i hi (by omega)
  · rw [addPattern, lookup_insertHashRecord, h.buckets, List.filter_append, List.map_append]
    congr 1
    by_cases hkey : key = suffixHash e.1 (m - 1)
    · simp [hkey]
    · simp [hkey, Ne.symm hkey]

/-- The least of a list and a start is below all of them; in the dual order it is the greatest. -/
theorem foldl_min_le {α : Type} [LinearOrder α] (l : List α) (a : α) :
    l.foldl min a ≤ a ∧ ∀ x ∈ l, l.foldl min a ≤ x := by
  induction l generalizing a with
  | nil => simp
  | cons b l ih =>
    obtain ⟨ha, hl⟩ := ih (min a b)
    refine ⟨ha.trans (min_le_left a b), fun x hx => ?_⟩
    rcases List.mem_cons.mp hx with rfl | hx
    · exact ha.trans (min_le_right a x)
    · exact hl x hx

/-- **What `mpat_init` leaves behind.** -/
theorem mpatInit_spec {patterns : List (List Int)} {place : Nat → Nat} {obj : MPatObj}
    (h : mpatInit patterns place = some obj) :
    3 ≤ obj.m ∧ (∀ p ∈ patterns, obj.m ≤ p.length) ∧
      Tables obj.m place patterns.zipIdx obj.hash obj.shift ∧
      ∀ key x, lookup obj.shift key = some x → obj.minKey ≤ key ∧ key ≤ obj.maxKey := by
  unfold mpatInit at h
  dsimp only at h
  generalize hm : (patterns.map List.length).foldl min (patterns.headD []).length = m at h
  split at h
  · cases h
  · rename_i hthree
    have htables : ∀ (rest done : List (List Int × Nat)) tables,
        Tables m place done tables.1 tables.2 →
        Tables m place (done ++ rest) (rest.foldl (addPattern m place) tables).1
          (rest.foldl (addPattern m place) tables).2 := by
      intro rest
      induction rest with
      | nil => simp
      | cons e rest ih =>
        intro done tables htables
        have hnext := ih (done ++ [e]) _ (htables.step (by omega) e)
        rwa [List.append_assoc] at hnext
    have hall := htables patterns.zipIdx [] ([], [])
      ⟨fun key x hx => by simp [lookup] at hx, fun e he => by simp at he, fun key => rfl⟩
    cases h
    dsimp only
    refine ⟨by omega, fun p hp => ?_, hall, fun key x hx => ?_⟩
    · rw [← hm]
      exact (foldl_min_le _ _).2 _ (List.mem_map_of_mem hp)
    · obtain ⟨e, he, -⟩ := Option.map_eq_some_iff.mp hx
      have hkey : e.1 = key := by simpa using List.find?_some he
      have hmem := List.mem_map_of_mem (f := Prod.fst) (List.mem_of_find?_eq_some he)
      rw [hkey] at hmem
      exact ⟨(foldl_min_le _ _).2 key hmem, (foldl_min_le (α := OrderDual Int) _ _).2 key hmem⟩

/-- A shift is at most the distance of the block to the end of a pattern, and at most `m - 1`. -/
theorem getShift_spec {patterns : List (List Int)} {place : Nat → Nat} {obj : MPatObj}
    (h : mpatInit patterns place = some obj) (key : Int) :
    0 ≤ obj.getShift key ∧ obj.getShift key + 1 ≤ obj.m ∧
      ∀ p ∈ patterns, ∀ i, 1 ≤ i → i < obj.m → suffixHash p i = key →
        obj.getShift key + i + 1 ≤ obj.m := by
  obtain ⟨hm, -, htables, hkeys⟩ := mpatInit_spec h
  have hbound : ∀ p ∈ patterns, ∀ i, 1 ≤ i → i < obj.m → suffixHash p i = key →
      ∃ x, lookup obj.shift key = some x ∧ x ≤ ((obj.m - 1 - i : Nat) : Int) := by
    intro p hp i hi him hkey
    obtain ⟨n, hn, rfl⟩ := List.mem_iff_getElem.mp hp
    have hmem : (patterns[n], n) ∈ patterns.zipIdx := by
      simp [List.mem_zipIdx_iff_getElem?, hn]
    exact hkey ▸ htables.bounds _ hmem i hi him
  unfold getShift blockLen
  dsimp only
  split
  · rename_i hout
    refine ⟨by omega, by omega, fun p hp i hi him hkey => ?_⟩
    obtain ⟨x, hx, -⟩ := hbound p hp i hi him hkey
    have := hkeys key x hx
    omega
  · split
    · rename_i hnone
      refine ⟨by omega, by omega, fun p hp i hi him hkey => ?_⟩
      obtain ⟨x, hx, -⟩ := hbound p hp i hi him hkey
      simp [lookup, hnone] at hx
    · rename_i e hsome
      have hlookup : lookup obj.shift key = some e.2 := by simp [lookup, hsome]
      obtain ⟨hlow, hhigh⟩ := htables.range key e.2 hlookup
      refine ⟨hlow, by omega, fun p hp i hi him hkey => ?_⟩
      obtain ⟨x, hx, hle⟩ := hbound p hp i hi him hkey
      rw [hlookup] at hx
      cases hx
      omega

end MPatObj

end Recognizer
