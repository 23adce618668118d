import Recognizer.Parse.IntervalForms
import Recognizer.Parse.LiteralRun
import Mathlib.Order.Monotone.Basic

/-!
# The digits of a bound

`CONVERT_TO_UINT` multiplies by a factor that it updates with every digit: zero for the first
one, which absorbs the value of a missing bound, ten for the second, and 110, 1110 and so on
from the third one on. The value of a longer bound is decimal only where nothing but zeros
stands in front of its last digit.
-/

namespace Recognizer

open Scanner

/-- The number that decimal digits stand for. -/
def decimal (digits : List Int) : Int := digits.foldl (fun value d => 10 * value + (d - 48)) 0

/-- What is to be read of the digits of a bound; a bound without digits is missing. -/
def boundOf (digits : List Int) : Int := if digits = [] then -1 else decimal digits

/-- The digits whose bound is read in decimal. -/
def ReadAsDecimal (digits : List Int) : Prop :=
  digits.length ≤ 2 ∨ digits.length ≤ 10 ∧ ∀ d ∈ digits.dropLast, d = 48

/-- A number written in ones, the value of `dec_pos` behind so many digits. -/
def repunit : Nat → Int
  | 0 => 0
  | n + 1 => repunit n * 10 + 1

namespace Parser

section Fold

variable {digits : List Int} {d decPos value : Int} {n : Nat}

theorem decimal_concat (digits : List Int) (d : Int) :
    decimal (digits ++ [d]) = 10 * decimal digits + (d - 48) := by
  simp [decimal]

theorem boundOf_concat (digits : List Int) (d : Int) :
    boundOf (digits ++ [d]) = 10 * decimal digits + (d - 48) := by
  rw [boundOf, if_neg (by simp), decimal_concat]

theorem decimal_nonneg (hdigits : ∀ d ∈ digits, isdigit d = true) : 0 ≤ decimal digits := by
  induction digits using List.reverseRecOn with
  | nil => exact le_rfl
  | append_singleton digits d ih =>
    have hrest := ih fun e he => hdigits e (List.mem_append_left _ he)
    have hd := isdigit_bounds (hdigits d (by simp))
    rw [decimal_concat]
    omega

/-- Only zeros stand for zero. -/
theorem zeros_of_decimal (hdigits : ∀ d ∈ digits, isdigit d = true) (hzero : decimal digits = 0) :
    ∀ d ∈ digits, d = 48 := by
  induction digits using List.reverseRecOn with
  | nil => exact List.forall_mem_nil _
  | append_singleton digits d ih =>
    have hinit : ∀ e ∈ digits, isdigit e = true := fun e he =>
      hdigits e (List.mem_append_left _ he)
    have hrest := decimal_nonneg hinit
    have hd := isdigit_bounds (hdigits d (by simp))
    rw [decimal_concat] at hzero
    intro e he
    rcases List.mem_append.mp he with he | he
    · exact ih hinit (by omega) e he
    · obtain rfl := List.mem_singleton.mp he
      omega

theorem repunit_mono {i j : Nat} (hij : i ≤ j) : repunit i ≤ repunit j := by
  refine monotone_nat_of_le_succ (fun n => ?_) hij
  have hnonneg : 0 ≤ repunit n := by
    induction n with
    | zero => exact le_rfl
    | succ n ih =>
      rw [repunit]
      omega
  rw [repunit]
  omega

theorem repunit_pos (hn : 2 ≤ n) : 11 ≤ repunit n := repunit_mono hn

theorem asInt_eq_some {m : Int} (h : asInt m = some value) : value = m ∧ m ≤ 2147483647 := by
  unfold asInt at h
  split at h
  · next hfits => exact ⟨(Option.some.inj h).symm, hfits.2⟩
  · cases h

/-- What one digit does where nothing overflows. -/
theorem foldDigit_eq_some {state : Int × Int} (h : foldDigit d state = some (decPos, value)) :
    decPos = state.1 * 10 + 1 ∧ value = state.2 * (state.1 * 10) + (d - 48) ∧
      decPos ≤ 2147483647 := by
  obtain ⟨factor, hfactor, h⟩ := Option.bind_eq_some_iff.mp h
  obtain ⟨scaled, hscaled, h⟩ := Option.bind_eq_some_iff.mp h
  obtain ⟨sum, hsum, h⟩ := Option.bind_eq_some_iff.mp h
  obtain ⟨next, hnext, h⟩ := Option.bind_eq_some_iff.mp h
  obtain ⟨rfl, rfl⟩ := Prod.mk.inj (Option.some.inj h)
  obtain ⟨rfl, -⟩ := asInt_eq_some hfactor
  obtain ⟨rfl, -⟩ := asInt_eq_some hscaled
  obtain ⟨rfl, -⟩ := asInt_eq_some hsum
  obtain ⟨rfl, hfits⟩ := asInt_eq_some hnext
  exact ⟨rfl, rfl, hfits⟩

/-- A digit behind nothing but zeros, as long as `dec_pos` fits. -/
theorem foldDigit_zero (hd : isdigit d = true) (hfits : repunit (n + 1) ≤ 2147483647)
    (hvalue : value * (repunit n * 10) = 0) :
    foldDigit d (repunit n, value) = some (repunit (n + 1), d - 48) := by
  have hnonneg : 0 ≤ repunit n := repunit_mono (Nat.zero_le n)
  have hfold := foldDigit_of_bounds hd hnonneg hfits hvalue.ge (by omega)
  rw [hfold, hvalue, Int.zero_add, repunit]

/-- The two variables of the macro behind the digits, when nothing has overflowed. -/
def folded (digits : List Int) : Option (Int × Int) :=
  digits.foldlM (fun state d => foldDigit d state) (0, -1)

theorem folded_concat (digits : List Int) (d : Int) :
    folded (digits ++ [d]) = (folded digits).bind (foldDigit d) := by
  rw [folded, List.foldlM_append]
  simp [folded]

/-- The factor depends on the number of digits only, and the value is never too small. -/
theorem folded_spec (hdigits : ∀ d ∈ digits, isdigit d = true)
    (h : folded digits = some (decPos, value)) :
    decPos = repunit digits.length ∧ (digits ≠ [] → decimal digits ≤ value) ∧
      decPos ≤ 2147483647 := by
  induction digits using List.reverseRecOn generalizing decPos value with
  | nil =>
    obtain ⟨rfl, rfl⟩ := Prod.mk.inj (Option.some.inj h)
    exact ⟨rfl, fun hne => absurd rfl hne, by decide⟩
  | append_singleton digits d ih =>
    have hinit : ∀ e ∈ digits, isdigit e = true := fun e he =>
      hdigits e (List.mem_append_left _ he)
    rw [folded_concat] at h
    obtain ⟨⟨pos, old⟩, hold, h⟩ := Option.bind_eq_some_iff.mp h
    obtain ⟨rfl, hle, -⟩ := ih hinit hold
    obtain ⟨rfl, rfl, hfits⟩ := foldDigit_eq_some h
    refine ⟨by simp [repunit], fun _ => ?_, hfits⟩
    rw [decimal_concat]
    rcases eq_or_ne digits [] with rfl | hne
    · simp [decimal, repunit]
    · have hfactor : (1 : Int) ≤ repunit digits.length :=
        repunit_mono (List.length_pos_of_ne_nil hne)
      have hscaled : decimal digits * 10 ≤ old * (repunit digits.length * 10) := by
        have hnonneg := decimal_nonneg hinit
        have hle := hle hne
        exact Int.mul_le_mul hle (by omega) (by decide) (by omega)
      dsimp only
      omega

/-- Zeros leave a zero. -/
theorem folded_zeros (hzeros : ∀ d ∈ digits, d = 48) (hlength : digits.length ≤ 10) :
    folded digits = some (repunit digits.length, if digits = [] then -1 else 0) := by
  induction digits using List.reverseRecOn with
  | nil => rfl
  | append_singleton digits d ih =>
    obtain rfl := hzeros d (by simp)
    have hlength' : digits.length + 1 ≤ 10 := by simpa using hlength
    have hold := ih (fun e he => hzeros e (List.mem_append_left _ he)) (by omega)
    have hfits : repunit (digits.length + 1) ≤ 2147483647 :=
      (repunit_mono hlength').trans (by decide)
    rw [folded_concat, hold, Option.bind_some, foldDigit_zero rfl hfits]
    · simp
    · rcases eq_or_ne digits [] with rfl | hne
      · rfl
      · simp [hne]

/-- A digit behind zeros. -/
theorem folded_zeros_concat (hzeros : ∀ d ∈ digits, d = 48) (hlength : digits.length + 1 ≤ 10)
    (hd : isdigit d = true) : (folded (digits ++ [d])).map Prod.snd = some (d - 48) := by
  have hfits : repunit (digits.length + 1) ≤ 2147483647 :=
    (repunit_mono hlength).trans (by decide)
  rw [folded_concat, folded_zeros hzeros (by omega), Option.bind_some, foldDigit_zero hd hfits]
  · rfl
  · rcases eq_or_ne digits [] with rfl | hne
    · rfl
    · simp [hne]

theorem decimal_zeros (hzeros : ∀ d ∈ digits, d = 48) : decimal digits = 0 := by
  induction digits using List.reverseRecOn with
  | nil => rfl
  | append_singleton digits d ih =>
    obtain rfl := hzeros d (by simp)
    rw [decimal_concat, ih fun e he => hzeros e (List.mem_append_left _ he)]
    rfl

/-- The digits behind which a bound is read in decimal. -/
theorem readAsDecimal_concat (hdigits : ∀ e ∈ digits ++ [d], isdigit e = true) :
    (folded (digits ++ [d])).map Prod.snd = some (boundOf (digits ++ [d])) ↔
      ReadAsDecimal (digits ++ [d]) := by
  have hinit : ∀ e ∈ digits, isdigit e = true := fun e he =>
    hdigits e (List.mem_append_left _ he)
  have hd := hdigits d (by simp)
  rw [boundOf_concat, ReadAsDecimal, List.dropLast_concat, List.length_append,
    List.length_singleton]
  constructor
  · intro h
    obtain ⟨⟨decPos, value⟩, hfolded, hvalue⟩ := Option.map_eq_some_iff.mp h
    refine or_iff_not_imp_left.mpr fun hlong => ?_
    obtain ⟨hpos, -, hfits⟩ := folded_spec hdigits hfolded
    rw [folded_concat] at hfolded
    obtain ⟨⟨pos, old⟩, hold, hlast⟩ := Option.bind_eq_some_iff.mp hfolded
    obtain ⟨rfl, hle, -⟩ := folded_spec hinit hold
    obtain ⟨-, hfactor, -⟩ := foldDigit_eq_some hlast
    have hle := hle (by rintro rfl; simp at hlong)
    have hnonneg := decimal_nonneg hinit
    have heleven : 11 ≤ repunit digits.length := repunit_pos (by omega)
    constructor
    · by_contra hmany
      have hlarge : repunit 11 ≤ repunit (digits.length + 1) := repunit_mono (by omega)
      have hpos' : decPos = repunit (digits.length + 1) := by simpa using hpos
      rw [← hpos'] at hlarge
      exact absurd (hlarge.trans hfits) (by decide)
    · refine zeros_of_decimal hinit ?_
      -- ten times the decimal value is a hundred and ten times it, or more
      have hscaled : decimal digits * 110 ≤ old * (repunit digits.length * 10) :=
        Int.mul_le_mul hle (by omega) (by decide) (by omega)
      dsimp only at hvalue hfactor
      omega
  · rintro (hshort | ⟨hlength, hzeros⟩)
    · match digits, hshort with
      | [], _ =>
        have hone := folded_zeros_concat (List.forall_mem_nil fun d => d = 48) (by decide) hd
        simpa [decimal] using hone
      | [e], _ =>
        have he := hinit e (by simp)
        have hbounds := isdigit_bounds he
        have hfirst : folded [e] = some (repunit 1, e - 48) := by
          have hsentinel : (-1 : Int) * (repunit 0 * 10) = 0 := rfl
          exact (folded_concat [] e).trans (foldDigit_zero he (by decide) hsentinel)
        have hsecond : foldDigit d (repunit 1, e - 48) = some (11, (e - 48) * 10 + (d - 48)) :=
          foldDigit_of_bounds hd (by decide) (by decide) (by simp [repunit]; omega)
            (by simp [repunit]; omega)
        rw [folded_concat, hfirst, Option.bind_some, hsecond]
        simp [decimal]
        omega
    · rw [folded_zeros_concat hzeros hlength hd, decimal_zeros hzeros]
      simp

end Fold

section Loop

variable {p q : Parser} {digits text rest : List Int} {d n : Int} {fuel : Nat}
  {state : Option (Int × Int)}

private theorem ite_ne_asciidigit {k : Int} {t t' : SymbolType} (ht : t ≠ .asciidigit)
    (ht' : t' ≠ .asciidigit) : (if d = k then t else t') ≠ .asciidigit := by
  by_cases hk : d = k
  · rwa [if_pos hk]
  · rwa [if_neg hk]

/-- Only a digit is of the type of digits. -/
theorem isdigit_of_charType (hd : charType d = .asciidigit) : isdigit d = true := by
  by_contra hother
  refine absurd hd ?_
  rw [charType, if_neg hother]
  iterate 15 refine ite_ne_asciidigit (by decide) ?_
  decide

/-- A digit is read as itself. -/
theorem At.digit (hat : At p (d :: text)) (hd : isdigit d = true) :
    p.lookahead.type = .asciidigit ∧ p.lookahead.value = d ∧ At p.consumeToken text := by
  cases hat.lexed with
  | char hpos hseen hends hescp htype hvalue =>
    have hdigit : charType d = .asciidigit := if_pos hd
    have hne : d ≠ eolSymbol := by
      rintro rfl
      cases hd
    refine ⟨htype.trans hdigit, hvalue ?_, ?_⟩
    · rw [htype, hdigit]
      decide
    · exact at_consumeToken hpos hat.terminated hat.escp hseen (hpos.ne_nil hat.terminated hne)
  | escape | dangling | newline => cases hd
  | stop _ _ hc =>
    rcases hc with rfl | rfl
    · cases hd
    · cases hd

/-- Any other character ends the bound, as it stands or escaped. -/
theorem At.not_digit (hat : At p text) (hhead : ∀ c ∈ text.head?, isdigit c = false) :
    p.lookahead.type ≠ .asciidigit := by
  intro htype
  cases hat.lexed with
  | char hpos hseen hends hescp hchar =>
    have hdigit := isdigit_of_charType (hchar.symm.trans htype)
    rw [hhead _ rfl] at hdigit
    cases hdigit
  | escape hpos hseen he hescape =>
    rw [htype] at hescape
    split at hescape
    · cases hescape
    · cases hescape
  | stop _ _ _ htoken => simp [htoken] at htype
  | dangling _ _ htoken => simp [htoken] at htype
  | newline _ _ _ htoken => simp [htoken] at htype

/-- The loop folds the digits in front of any other character and stops there, unless one of
them overflows. -/
theorem At.convertToUint (hat : At p (digits ++ rest)) (hdigits : ∀ d ∈ digits, isdigit d = true)
    (hrest : ∀ c ∈ rest.head?, isdigit c = false) (hfuel : digits.length < fuel)
    (decPos value : Int) :
    ∃ q, At q rest ∧ Parser.convertToUint fuel decPos value p =
      (digits.foldlM (fun state d => foldDigit d state) (decPos, value)).elim
        (.error .intOverflow) fun state => .ok (state.2, q) := by
  induction digits generalizing p fuel decPos value with
  | nil =>
    obtain ⟨fuel, rfl⟩ := Nat.exists_eq_add_one_of_ne_zero (Nat.ne_zero_of_lt hfuel)
    exact ⟨p, hat, convertToUint_stops (hat.not_digit hrest)⟩
  | cons d digits ih =>
    obtain ⟨fuel, rfl⟩ := Nat.exists_eq_add_one_of_ne_zero (Nat.ne_zero_of_lt hfuel)
    obtain ⟨htype, hvalue, hnext⟩ := At.digit hat (hdigits d (by simp))
    rw [List.foldlM_cons]
    cases hfold : foldDigit d (decPos, value) with
    | none =>
      -- the bound is not read any further, so the rest is stood at by its characters alone
      obtain ⟨q, hq, -⟩ := ih hnext (fun e he => hdigits e (List.mem_cons_of_mem d he))
        (by simpa using hfuel) decPos value
      exact ⟨q, hq, convertToUint_overflows htype (by rw [hvalue]; exact hfold)⟩
    | some state =>
      obtain ⟨q, hq, hrun⟩ := ih hnext (fun e he => hdigits e (List.mem_cons_of_mem d he))
        (by simpa using hfuel) state.1 state.2
      exact ⟨q, hq, (convertToUint_digit htype (by rw [hvalue]; exact hfold)).trans hrun⟩

/-- The bound is left in the variable and exactly its digits are consumed. -/
def ReadsBound (p : Parser) (digits rest : List Int) (fuel : Nat) : Prop :=
  ∃ q, convertToUint fuel 0 (-1) p = .ok (boundOf digits, q) ∧ At q rest

/-- What is read is what the digits are folded to. -/
theorem readsBound_iff_folded (hat : At p (digits ++ rest))
    (hdigits : ∀ d ∈ digits, isdigit d = true) (hrest : ∀ c ∈ rest.head?, isdigit c = false)
    (hfuel : digits.length < fuel) :
    ReadsBound p digits rest fuel ↔ (folded digits).map Prod.snd = some (boundOf digits) := by
  obtain ⟨q, hq, hrun⟩ := At.convertToUint hat hdigits hrest hfuel 0 (-1)
  rw [← folded] at hrun
  constructor
  · rintro ⟨q', hrun', -⟩
    rw [hrun] at hrun'
    cases hfolded : folded digits with
    | none =>
      rw [hfolded] at hrun'
      cases hrun'
    | some state =>
      rw [hfolded] at hrun'
      exact congrArg some (Prod.mk.inj (Except.ok.inj hrun')).1
  · intro hvalue
    obtain ⟨state, hfolded, hbound⟩ := Option.map_eq_some_iff.mp hvalue
    refine ⟨q, ?_, hq⟩
    rw [hrun, hfolded, ← hbound]
    rfl

/-- **The digits of a bound.** `CONVERT_TO_UINT` leaves the decimal value of the digits, and
nothing where there are none, and consumes exactly them, if and only if there are at most two,
or at most ten of which all but the last are zeros. -/
theorem readsBound_iff (hat : At p (digits ++ rest)) (hdigits : ∀ d ∈ digits, isdigit d = true)
    (hrest : ∀ c ∈ rest.head?, isdigit c = false) (hfuel : digits.length < fuel) :
    ReadsBound p digits rest fuel ↔ ReadAsDecimal digits := by
  rw [readsBound_iff_folded hat hdigits hrest hfuel]
  rcases List.eq_nil_or_concat digits with rfl | ⟨init, d, rfl⟩
  · exact iff_of_true rfl (.inl (Nat.zero_le 2))
  · rw [List.concat_eq_append] at *
    exact readAsDecimal_concat hdigits

/-- The bound of `{12}` and the missing bound of `{,}`. -/
theorem readsBound_iff_twelve :
    ReadsBound (inFront (bytes "12\x7d")) (bytes "12") (bytes "\x7d" ++ [eolSymbol]) 3 ∧
      ReadsBound (inFront (bytes ",\x7d")) [] (bytes ",\x7d" ++ [eolSymbol]) 1 := by
  have htwelve : At (inFront (bytes "12\x7d")) (bytes "12" ++ (bytes "\x7d" ++ [eolSymbol])) :=
    at_inFront (by decide) (by decide)
  have hnone : At (inFront (bytes ",\x7d")) ([] ++ (bytes ",\x7d" ++ [eolSymbol])) :=
    at_inFront (by decide) (by decide)
  have hbrace : ∀ c ∈ (bytes "\x7d" ++ [eolSymbol]).head?, isdigit c = false := by decide
  have hcomma : ∀ c ∈ (bytes ",\x7d" ++ [eolSymbol]).head?, isdigit c = false := by decide
  exact ⟨(readsBound_iff htwelve (by decide) hbrace (by decide)).mpr (.inl (by decide)),
    (readsBound_iff hnone (List.forall_mem_nil _) hcomma (by decide)).mpr (.inl (by decide))⟩

/-- The bound of `{100}` is read as 1100. -/
theorem hundred_read_as_eleven_hundred : ∃ q,
    convertToUint 4 0 (-1) (inFront (bytes "100\x7d")) = .ok (1100, q) ∧
      At q (bytes "\x7d" ++ [eolSymbol]) ∧ boundOf (bytes "100") = 100 ∧
      ¬ ReadsBound (inFront (bytes "100\x7d")) (bytes "100") (bytes "\x7d" ++ [eolSymbol]) 4 := by
  have hat : At (inFront (bytes "100\x7d")) (bytes "100" ++ (bytes "\x7d" ++ [eolSymbol])) :=
    at_inFront (by decide) (by decide)
  have hbrace : ∀ c ∈ (bytes "\x7d" ++ [eolSymbol]).head?, isdigit c = false := by decide
  obtain ⟨q, hq, hrun⟩ := @At.convertToUint _ _ _ 4 hat (by decide) hbrace (by decide) 0 (-1)
  have hfolded : (bytes "100").foldlM (fun state d => foldDigit d state) (0, -1) =
      some (111, 1100) := by decide
  rw [hfolded] at hrun
  refine ⟨q, hrun, hq, by decide, ?_⟩
  rintro ⟨q', hrun', -⟩
  have hsame := (Prod.mk.inj (Except.ok.inj (hrun.symm.trans hrun'))).1
  exact absurd hsame (by decide)

end Loop

end Parser

end Recognizer
