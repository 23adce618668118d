import Recognizer.Parse.Reading

/-!
# What the parser reads of a bracket expression

Between brackets a backslash is a character like others, and so is the end of the text as
long as no newline ends it: `parse_matching_list` returns one character behind it.
-/

namespace Recognizer

namespace Parser

open Scanner

variable {p q r : Parser} {text rest before after : List Int} {fuel len strStart n : Nat}
  {a : Addr} {negate : Bool} {c delim prev : Int} {mark : Mark}

/-- The lookahead is the character the text begins with. -/
structure InList (p : Parser) (before : List Int) (c : Int) (rest : List Int) : Prop where
  terminated : p.scanner.Terminated
  escp : p.scanner.escpSeq = false
  pos : p.scanner.Between (c :: before) rest
  seen : p.scanner.seenNewline = decide (c = 10)
  token : p.lookahead = tokenOf c
  current : p.scanner.curtoken = tokenOf c

/-- Every further token ends the text. -/
structure Exhausted (p : Parser) : Prop where
  lookahead : p.lookahead.type = .eof
  current : p.scanner.curtoken.type = .eof
  stays : p.scanner.seenNewline = true ∨
    p.scanner.seenNewline = false ∧ ∃ before, p.scanner.Between before []

/-- A bracket expression is closed in front of this text. -/
structure Closed (p : Parser) (text : List Int) : Prop where
  terminated : p.scanner.Terminated
  seen : p.scanner.seenNewline = false
  pos : ∃ before, p.scanner.Between before text
  ne_nil : text ≠ []

theorem Exhausted.consumeToken (h : Exhausted p) : Exhausted p.consumeToken := by
  rcases h.stays with hseen | ⟨hseen, before, hpos⟩
  · have hscan := regexScan_seen hseen
    refine ⟨?_, ?_, Or.inl ?_⟩
    · simp [Parser.consumeToken, hscan, updateToken]
    · simp [Parser.consumeToken, hscan, updateToken]
    · simpa [Parser.consumeToken, hscan, updateToken] using hseen
  · have hscan := regexScan_end hpos hseen
    refine ⟨?_, ?_, Or.inr ⟨?_, before, ?_⟩⟩
    · simpa [Parser.consumeToken, hscan] using h.current
    · simpa [Parser.consumeToken, hscan] using h.current
    · simpa [Parser.consumeToken, hscan] using hseen
    · simpa [Parser.consumeToken, hscan] using hpos

/-- One character further on. -/
theorem InList.next {e : Int} (h : InList p before c (e :: rest)) (hc : c ≠ 10) :
    InList p.consumeToken (c :: before) e rest := by
  have hseen : p.scanner.seenNewline = false := h.seen.trans (decide_eq_false hc)
  have hread := consumeToken_char h.pos h.terminated hseen h.escp
  refine ⟨h.terminated.congr (by rw [hread]) (by rw [hread]), by rw [hread]; exact h.escp,
    h.pos.forward (by rw [hread]) (by rw [hread]), by rw [hread], by rw [hread], by rw [hread]⟩

/-- Behind a newline or the last character there is nothing to read. -/
theorem InList.exhausted (h : InList p before c rest) (hlast : c = 10 ∨ rest = []) :
    Exhausted p.consumeToken := by
  refine Exhausted.consumeToken ?_
  have hends : endsText c = true := by
    by_contra hends
    rcases hlast with rfl | rfl
    · exact hends rfl
    · exact h.pos.ne_nil h.terminated (by rintro rfl; exact hends rfl) rfl
  have hended : (tokenOf c).type = .eof := by simp [tokenOf, hends]
  refine ⟨by rw [h.token, hended], by rw [h.current, hended], ?_⟩
  by_cases hc : c = 10
  · exact Or.inl (by simp [h.seen, hc])
  · obtain rfl := hlast.resolve_left hc
    exact Or.inr ⟨by simp [h.seen, hc], _, h.pos⟩

theorem InList.closed (h : InList p before c rest) (hends : endsText c = false) :
    Closed p rest := by
  have hne : c ≠ eolSymbol := by rintro rfl; simp [endsText] at hends
  have hten : c ≠ 10 := by rintro rfl; simp [endsText] at hends
  exact ⟨h.terminated, h.seen.trans (decide_eq_false hten), ⟨_, h.pos⟩,
    h.pos.ne_nil h.terminated hne⟩

/-- The character in front of a token type that has just one. -/
theorem eq_of_tokenOf {t : SymbolType} (htype : (tokenOf c).type = t) (ha : t ≠ .alpha)
    (hd : t ≠ .asciidigit) (heof : t ≠ .eof) : endsText c = false ∧ charOf t = some c := by
  unfold tokenOf at htype
  split at htype
  · exact absurd htype.symm heof
  · rename_i hends
    exact ⟨by simpa using hends, eq_of_charType htype ha hd⟩

/-- The bracket that closes the expression is the lookahead. -/
theorem InList.of_closebracket (h : InList p before c rest)
    (htype : p.lookahead.type = .closebracket) : c = 93 ∧ Closed p rest := by
  rw [h.token] at htype
  obtain ⟨hends, hchar⟩ := eq_of_tokenOf htype (by decide) (by decide) (by decide)
  exact ⟨(Option.some.inj hchar).symm, h.closed hends⟩

/-- At the end of the text `parse_matching_list` returns with no bracket. -/
theorem Exhausted.matchingList (h : Exhausted p)
    (hrun : parseMatchingList fuel len a negate p = .ok q) : q.lookahead.type = .eof := by
  cases fuel with
  | zero => cases hrun
  | succ fuel =>
    rw [parseMatchingList] at hrun
    dsimp only at hrun
    rw [if_pos h.lookahead] at hrun
    cases hrun
    exact h.consumeToken.lookahead

theorem idle_applyCollation {t : SymbolType} {name : List Int}
    (hrun : p.applyCollation t name a negate = .ok q) : Idle p q := by
  unfold applyCollation at hrun
  split at hrun
  · split at hrun
    · cases hrun
    · cases hrun
      exact ⟨rfl, rfl, rfl⟩
  · cases hrun
    exact ⟨rfl, rfl, rfl⟩

/-- A range is read by two tokens. -/
theorem idle_parseRangeBounds {low : Int} (hrun : p.parseRangeBounds low a negate = .ok q) :
    Idle p.consumeToken.consumeToken q := by
  unfold parseRangeBounds at hrun
  dsimp only at hrun
  split at hrun
  · split at hrun
    · split at hrun
      · cases hrun
      · cases hrun
        exact ⟨rfl, rfl, rfl⟩
    · split at hrun
      · cases hrun
        exact ⟨rfl, rfl, rfl⟩
      · cases hrun
  · split at hrun
    · split at hrun
      · split at hrun
        · cases hrun
          exact ⟨rfl, rfl, rfl⟩
        · cases hrun
      · cases hrun
        exact ⟨rfl, rfl, rfl⟩
    · cases hrun

theorem InList.idle (h : InList p before c rest) (hidle : Idle p q) : InList q before c rest :=
  ⟨by rw [hidle.scanner]; exact h.terminated, by rw [hidle.scanner]; exact h.escp,
    by rw [hidle.scanner]; exact h.pos, by rw [hidle.scanner]; exact h.seen,
    by rw [hidle.lookahead]; exact h.token, by rw [hidle.scanner]; exact h.current⟩

theorem Exhausted.idle (h : Exhausted p) (hidle : Idle p q) : Exhausted q :=
  ⟨by rw [hidle.lookahead]; exact h.lookahead, by rw [hidle.scanner]; exact h.current,
    by rw [hidle.scanner]; exact h.stays⟩

/-- Where the loop over a class name stops: at the end of the text or at a bracket behind the
delimiter. -/
structure Stopped (delim prev : Int) (passed strStart : Nat) (text : List Int) (t : Token)
    (q : Parser) : Prop where
  stops : ∃ before c rest last n, InList q before c rest ∧ t = tokenOf last ∧
    endsText last = false ∧ q.scanner.readhead = strStart + n + 1 ∧
    (endsText c = true ∨ c = 93 ∧ last = delim) ∧ (c :: rest).length ≤ text.length ∧
    ∀ {mark} d, meets mark (.className delim prev passed) d text =
      meets mark (.className delim last n) d (c :: rest)

theorem tokenOf_type_eof : (tokenOf c).type = .eof ↔ endsText c = true := by
  unfold tokenOf
  split
  · rename_i hends
    exact ⟨fun _ => hends, fun _ => rfl⟩
  · rename_i hends
    refine ⟨fun htype => ?_, fun h => absurd h hends⟩
    cases eq_of_charType (t := .eof) htype (by decide) (by decide)

theorem tokenOf_type_eq_iff (hdelim : isDelimiter delim = true) (hprev : endsText prev = false) :
    (tokenOf prev).type = charType delim ↔ prev = delim := by
  simp only [isDelimiter, decide_eq_true_eq] at hdelim
  constructor
  · intro htype
    rcases hdelim with rfl | rfl
    · obtain ⟨-, hchar⟩ := eq_of_tokenOf (t := .dot) htype (by decide) (by decide) (by decide)
      exact (Option.some.inj hchar).symm
    · obtain ⟨-, hchar⟩ := eq_of_tokenOf (t := .colon) htype (by decide) (by decide) (by decide)
      exact (Option.some.inj hchar).symm
  · rintro rfl
    simp [tokenOf, hprev]

/-- A character of a class name. -/
theorem meets_className {x : Int} (hends : endsText x = false)
    (hmore : ¬ (x = 93 ∧ prev = delim)) (d : Int) :
    meets mark (.className delim prev n) d (x :: rest) =
      meets mark (.className delim x (n + 1)) d rest := by
  rw [meets, if_neg (by simp [hends]), if_neg hmore]

/-- **The loop over a class name.** -/
theorem stopped_of_skipToDelimiter {t : Token} (hdelim : isDelimiter delim = true)
    (hprev : endsText prev = false) (hin : InList p before c rest)
    (hread : p.scanner.readhead = strStart + n + 1)
    (hrun : skipToDelimiter (charType delim) fuel (tokenOf prev) p = .ok (t, q)) :
    Stopped delim prev n strStart (c :: rest) t q := by
  induction fuel generalizing p before c rest prev n with
  | zero => cases hrun
  | succ fuel ih =>
    have hiff := tokenOf_type_eq_iff hdelim hprev
    rw [skipToDelimiter, hin.token] at hrun
    cases hends : endsText c with
    | true =>
      rw [if_pos (tokenOf_type_eof.mpr hends)] at hrun
      cases hrun
      exact ⟨_, c, rest, prev, n, hin, rfl, hprev, hread, Or.inl hends, le_rfl, fun _ => rfl⟩
    | false =>
      rw [if_neg (by simp [tokenOf_type_eof, hends])] at hrun
      by_cases hstop : (tokenOf c).type = .closebracket ∧ (tokenOf prev).type = charType delim
      · rw [if_pos hstop] at hrun
        cases hrun
        have hc : c = 93 := (hin.of_closebracket (by rw [hin.token]; exact hstop.1)).1
        exact ⟨_, c, rest, prev, n, hin, rfl, hprev, hread, Or.inr ⟨hc, hiff.mp hstop.2⟩, le_rfl,
          fun _ => rfl⟩
      · rw [if_neg hstop] at hrun
        have hten : c ≠ 10 := by rintro rfl; simp [endsText] at hends
        obtain ⟨e, rest, rfl⟩ := List.exists_cons_of_ne_nil (hin.closed hends).ne_nil
        have hnext := hin.next hten
        have hmore : ¬ (c = 93 ∧ prev = delim) := fun h =>
          hstop ⟨by rw [h.1]; rfl, hiff.mpr h.2⟩
        have hread' : p.consumeToken.scanner.readhead = strStart + (n + 1) + 1 := by
          have hone := hin.pos.readhead
          rw [hnext.pos.readhead, List.length_cons]
          omega
        obtain ⟨before', x, rest', last, m, hin', ht, hlast, hstart, hstops, hlen, hsame⟩ :=
          (ih hends hnext hread' hrun).stops
        exact ⟨before', x, rest', last, m, hin', ht, hlast, hstart, hstops,
          hlen.trans (Nat.le_succ _), fun d => (meets_className hends hmore d).trans (hsame d)⟩

/-! ## The items -/

theorem tokenOf_type_closebracket : (tokenOf c).type = .closebracket ↔ c = 93 := by
  constructor
  · intro htype
    obtain ⟨-, hchar⟩ := eq_of_tokenOf htype (by decide) (by decide) (by decide)
    exact (Option.some.inj hchar).symm
  · rintro rfl
    rfl

theorem meets_items_close (d : Int) :
    meets mark (.items false) d (93 :: rest) = meets mark .outside d rest := by
  match rest with
  | [] => rfl
  | [e] =>
    conv_lhs => rw [meets]
    rfl
  | e :: f :: rest =>
    conv_lhs => rw [meets]
    rfl

/-- Behind the end of the text only a bracket is read. -/
theorem meets_items_end (first : Bool) (hends : endsText c = true) (d : Int) :
    meets mark (.items first) d (c :: 93 :: rest) = meets mark .outside d rest := by
  cases rest <;>
  · conv_lhs => rw [meets]
    rw [if_pos hends, if_pos rfl]

section Item

variable {first : Bool} {e f : Int} (hends : endsText c = false)
  (hclass : ¬ (c = 91 ∧ isDelimiter e = true)) (hclose : ¬ (c = 93 ∧ (!first) = true))

include hends hclass hclose

theorem meets_items_range (he : e = 45) (d : Int) :
    meets mark (.items first) d (c :: e :: f :: rest) = meets mark (.items false) d rest := by
  rw [meets, if_neg (by simp [hends]), if_neg (by simpa using hclass), if_neg hclose,
    if_pos (by simpa using he)]

theorem meets_items_item (he : e ≠ 45) (d : Int) :
    meets mark (.items first) d (c :: e :: rest) = meets mark (.items false) d (e :: rest) := by
  cases rest <;>
  · conv_lhs => rw [meets]
    rw [if_neg (by simp [hends]), if_neg (by simpa using hclass), if_neg hclose,
      if_neg (by simpa using he)]

end Item

theorem meets_items_class {first : Bool} {e f : Int} (he : isDelimiter e = true) (d : Int) :
    meets mark (.items first) d (91 :: e :: f :: rest) =
      if f = 93 then meets mark (.className e 93 0) d rest
      else meets mark (.className e e 0) d (f :: rest) := by
  rw [meets, if_neg (by decide), if_pos ⟨rfl, by simpa using he⟩]

/-- What `parse_matching_list` returns when it has found the closing bracket. -/
structure Closes (first : Bool) (text : List Int) (q : Parser) : Prop where
  rest : ∃ rest, Closed q rest ∧ rest.length < text.length ∧
    ∀ {mark} d, meets mark (.items first) d text = meets mark .outside d rest

/-- A class name is opened. -/
theorem inList_openCollation {e f : Int} (hin : InList p before e (f :: rest))
    (he : isDelimiter e = true) {t : Token} (hopen : p.openCollation = (t, strStart, q)) :
    ∃ before' last x rest', InList q before' x rest' ∧ t = tokenOf last ∧ endsText last = false ∧
      q.scanner.readhead = strStart + 0 + 1 ∧ (x :: rest').length ≤ (f :: rest).length ∧
      ∀ {mark} first d, meets mark (.items first) d (91 :: e :: f :: rest) =
        meets mark (.className e last 0) d (x :: rest') := by
  have hends : endsText e = false := by
    simp only [isDelimiter, decide_eq_true_eq] at he
    rcases he with rfl | rfl <;> rfl
  have hten : e ≠ 10 := by rintro rfl; simp [endsText] at hends
  have hnext := hin.next hten
  unfold openCollation at hopen
  dsimp only at hopen
  by_cases hf : f = 93
  · subst hf
    obtain ⟨g, rest, rfl⟩ := List.exists_cons_of_ne_nil (hnext.closed rfl).ne_nil
    rw [if_pos (by rw [hnext.token]; rfl)] at hopen
    obtain ⟨htoken, hopen⟩ := Prod.mk.inj hopen
    obtain ⟨rfl, rfl⟩ := Prod.mk.inj hopen
    have hskip := hnext.next (by decide)
    have hidle : Idle p.consumeToken.consumeToken (({ p.consumeToken with
        ctrl := (p.consumeToken.ctrl.newLiteralNfa p.consumeToken.lookahead.value .literal).2 }.push
        (p.consumeToken.ctrl.newLiteralNfa p.consumeToken.lookahead.value .literal).1)
        ).consumeToken := ⟨rfl, rfl, rfl⟩
    refine ⟨_, 93, g, rest, hskip.idle hidle, htoken.symm.trans hnext.token, rfl, ?_, by simp,
      fun first d => ?_⟩
    · rw [(hskip.idle hidle).pos.readhead, hnext.pos.readhead]
      simp
    · rw [meets_items_class he, if_pos rfl]
  · rw [if_neg (by rw [hnext.token, tokenOf_type_closebracket]; exact hf)] at hopen
    obtain ⟨htoken, hopen⟩ := Prod.mk.inj hopen
    obtain ⟨rfl, rfl⟩ := Prod.mk.inj hopen
    refine ⟨_, e, f, rest, hnext, htoken.symm.trans hin.token, hends, ?_, le_rfl,
      fun first d => ?_⟩
    · rw [hnext.pos.readhead, hin.pos.readhead]
      simp
    · rw [meets_items_class he, if_neg hf]

/-- Behind a class name. -/
theorem meets_className_stop {last : Int} (hstop : endsText c = true ∨ c = 93)
    (hlast : last = delim) (hlong : 1 < n) (d : Int) :
    meets mark (.className delim last n) d (c :: rest) = meets mark (.items false) d rest := by
  rw [meets]
  cases hends : endsText c with
  | true => rw [if_pos rfl, if_pos ⟨hlast, hlong⟩]
  | false =>
    have hc : c = 93 := hstop.resolve_left (by simp [hends])
    rw [if_neg (by simp), if_pos ⟨hc, hlast⟩, if_neg (by omega)]

/-- Two characters make no class name: its bracket closes the expression. -/
theorem meets_className_short (hshort : n ≤ 1) (d : Int) :
    meets mark (.className delim delim n) d (93 :: rest) = meets mark .outside d rest := by
  rw [meets, if_neg (by decide), if_pos ⟨rfl, rfl⟩, if_pos hshort]

theorem not_class_of_tokens {e : Int} (hclass : ¬ (c = 91 ∧ isDelimiter e = true)) :
    ¬ ((tokenOf c).type = .openbracket ∧ ((tokenOf e).type = .dot ∨ (tokenOf e).type = .colon ∨
      (tokenOf e).type = .equal)) := by
  rintro ⟨hopen, hdelim⟩
  obtain ⟨-, hc⟩ := eq_of_tokenOf hopen (by decide) (by decide) (by decide)
  refine hclass ⟨(Option.some.inj hc).symm, ?_⟩
  rcases hdelim with h | h | h
  all_goals obtain ⟨-, he⟩ := eq_of_tokenOf h (by decide) (by decide) (by decide)
  · rw [← Option.some.inj he]
    rfl
  · rw [← Option.some.inj he]
    rfl
  · cases he

/-- **The items of a bracket expression.** -/
theorem closes_of_parseMatchingList (hin : InList p before c rest)
    (hrun : parseMatchingList fuel len a negate p = .ok q)
    (hclose : q.lookahead.type = .closebracket) : Closes (decide (len = 0)) (c :: rest) q := by
  induction fuel generalizing p before c rest len with
  | zero => cases hrun
  | succ fuel ih =>
    have hdead : ∀ {r}, Exhausted r → parseMatchingList fuel (len + 1) a negate r ≠ .ok q :=
      fun hr hrun => by
        rw [hr.matchingList hrun] at hclose
        cases hclose
    -- What is left behind an item is read by the recursive call.
    have hmore : ∀ {r b x l}, InList r b x l →
        parseMatchingList fuel (len + 1) a negate r = .ok q → Closes false (x :: l) q :=
      fun hr hrun => ih hr hrun
    rw [parseMatchingList, hin.token] at hrun
    dsimp only at hrun
    cases hends : endsText c with
    | true =>
      rw [if_pos (tokenOf_type_eof.mpr hends)] at hrun
      cases hrun
      by_cases hlast : c = 10 ∨ rest = []
      · rw [(hin.exhausted hlast).lookahead] at hclose
        cases hclose
      · obtain ⟨hten, hne⟩ := not_or.mp hlast
        obtain ⟨e, rest, rfl⟩ := List.exists_cons_of_ne_nil hne
        obtain ⟨rfl, hclosed⟩ := (hin.next hten).of_closebracket hclose
        exact ⟨rest, hclosed, by simp only [List.length_cons]; omega, meets_items_end _ hends⟩
    | false =>
      rw [if_neg (by simp [tokenOf_type_eof, hends])] at hrun
      have hten : c ≠ 10 := by rintro rfl; simp [endsText] at hends
      obtain ⟨e, rest, rfl⟩ := List.exists_cons_of_ne_nil (hin.closed hends).ne_nil
      have hnext := hin.next hten
      have htype : (tokenOf c).type = charType c := by simp [tokenOf, hends]
      by_cases hclass : c = 91 ∧ isDelimiter e = true
      · obtain ⟨rfl, he⟩ := hclass
        have hendsE : endsText e = false := by
          simp only [isDelimiter, decide_eq_true_eq] at he
          rcases he with rfl | rfl <;> rfl
        have htypeE : (tokenOf e).type = charType e := by simp [tokenOf, hendsE]
        have hdelim : charType e = .dot ∨ charType e = .colon ∨ charType e = .equal := by
          simp only [isDelimiter, decide_eq_true_eq] at he
          rcases he with rfl | rfl
          · exact Or.inl rfl
          · exact Or.inr (Or.inl rfl)
        obtain ⟨f, rest, rfl⟩ := List.exists_cons_of_ne_nil (hnext.closed hendsE).ne_nil
        rw [hnext.token, htypeE, if_pos ⟨rfl, hdelim⟩] at hrun
        rcases hopen : p.consumeToken.openCollation with ⟨t, strStart, p₁⟩
        rw [hopen] at hrun
        obtain ⟨b, last, x, l, hin₁, rfl, hlast, hread, hlen, hsame⟩ :=
          inList_openCollation hnext he hopen
        obtain ⟨⟨t', p₂⟩, hskip, hrun⟩ := bind_ok hrun
        obtain ⟨b', y, m, last', n, hin₂, rfl, hlast', hread', hstop, hlen', hsame'⟩ :=
          (stopped_of_skipToDelimiter (n := 0) he hlast hin₁ hread hskip).stops
        have hpassed : ∀ {mark} d, meets mark (.items (decide (len = 0))) d (91 :: e :: f :: rest) =
            meets mark (.className e last' n) d (y :: m) := fun d =>
          (hsame _ d).trans (hsame' d)
        have hlens : m.length + 2 < (91 :: e :: f :: rest).length := by
          simp only [List.length_cons] at hlen hlen' ⊢
          omega
        have hiff := tokenOf_type_eq_iff he hlast'
        dsimp only at hrun
        split at hrun
        · cases hrun
        · rename_i hfatal
          have hlastE : last' = e := by
            rcases hstop with hend | ⟨-, h⟩
            · by_contra hne
              refine hfatal ⟨?_, fun h => hne (hiff.mp h)⟩
              rw [hin₂.token, tokenOf_type_eof.mpr hend]
              decide
            · exact h
          split at hrun
          · rename_i hshort
            cases hrun
            obtain ⟨rfl, hclosed⟩ := hin₂.of_closebracket hclose
            refine ⟨m, hclosed, by omega, fun d => (hpassed d).trans ?_⟩
            rw [hlastE]
            exact meets_className_short (by omega) d
          · rename_i hlong
            obtain ⟨p₃, happly, hrun⟩ := bind_ok hrun
            have hidle := idle_applyCollation happly
            have hin₃ := hin₂.idle hidle
            by_cases hfinal : y = 10 ∨ m = []
            · exact absurd hrun (hdead (hin₃.exhausted hfinal))
            · obtain ⟨hy, hm⟩ := not_or.mp hfinal
              obtain ⟨g, m, rfl⟩ := List.exists_cons_of_ne_nil hm
              obtain ⟨rest', hclosed, hlen₃, hsame₃⟩ := (hmore (hin₃.next hy) hrun).rest
              refine ⟨rest', hclosed, by omega, fun d => (hpassed d).trans ?_⟩
              exact (meets_className_stop (hstop.imp_right And.left) hlastE (by omega) d).trans
                (hsame₃ d)
      · rw [hnext.token] at hrun
        rw [if_neg (not_class_of_tokens hclass)] at hrun
        split at hrun
        · rename_i hbracket
          cases hrun
          obtain rfl : c = 93 := tokenOf_type_closebracket.mp hbracket.1
          by_cases he : e = 10
          · rw [backtrack_seen (by rw [hnext.seen, decide_eq_true he])] at hclose
            cases hclose
          · have hback := backtrack_char hnext.pos hnext.terminated
              (by rw [hnext.seen, decide_eq_false he]) hnext.escp
            refine ⟨e :: rest, ⟨?_, ?_, ⟨93 :: before, ?_⟩, by simp⟩, by simp, fun d => ?_⟩
            · exact hnext.terminated.congr (by rw [hback]) (by rw [hback])
            · rw [hback]
              rfl
            · rw [hback]
              exact ⟨by simpa using hnext.pos.buffer, by simp⟩
            · rw [decide_eq_false (by omega)]
              exact meets_items_close d
        · rename_i hbracket
          have hclosing : ¬ (c = 93 ∧ (!decide (len = 0)) = true) := by
            rintro ⟨rfl, hlen⟩
            exact hbracket ⟨rfl, Nat.pos_of_ne_zero (by simpa using hlen)⟩
          split at hrun
          · rename_i hended
            cases hrun
            rw [hnext.token, hended] at hclose
            cases hclose
          · rename_i hgoes
            have hendsE : endsText e = false := by simpa [tokenOf_type_eof] using hgoes
            split at hrun
            · rename_i hhyphen
              obtain ⟨-, hchar⟩ := eq_of_tokenOf hhyphen (by decide) (by decide) (by decide)
              obtain rfl : 45 = e := Option.some.inj hchar
              obtain ⟨p₁, hrange, hrun⟩ := bind_ok hrun
              have hidle := idle_parseRangeBounds hrange
              obtain ⟨f, rest, rfl⟩ := List.exists_cons_of_ne_nil (hnext.closed hendsE).ne_nil
              have hbound := hnext.next (by decide)
              by_cases hfinal : f = 10 ∨ rest = []
              · exact absurd hrun (hdead ((hbound.exhausted hfinal).idle hidle))
              · obtain ⟨hf, hne⟩ := not_or.mp hfinal
                obtain ⟨g, rest, rfl⟩ := List.exists_cons_of_ne_nil hne
                obtain ⟨rest', hclosed, hlen, hsame⟩ :=
                  (hmore ((hbound.next hf).idle hidle) hrun).rest
                exact ⟨rest', hclosed, by simp only [List.length_cons] at hlen ⊢; omega, fun d =>
                  (meets_items_range hends hclass hclosing rfl d).trans (hsame d)⟩
            · rename_i hhyphen
              have he : e ≠ 45 := by rintro rfl; exact hhyphen rfl
              have hidle : ∀ v, Idle p.consumeToken (p.consumeToken.updateRange v v a negate) :=
                fun _ => ⟨rfl, rfl, rfl⟩
              obtain ⟨rest', hclosed, hlen, hsame⟩ := (hmore (hnext.idle (hidle _)) hrun).rest
              exact ⟨rest', hclosed, by simp only [List.length_cons] at hlen ⊢; omega, fun d =>
                (meets_items_item hends hclass hclosing he d).trans (hsame d)⟩

theorem meets_bracket {e : Int} (d : Int) : meets mark .outside d (91 :: e :: rest) =
    if e = 94 then meets mark (.items true) d rest else meets mark (.items true) d (e :: rest) := by
  conv_lhs => rw [meets]
  rw [if_neg (by decide), if_neg (by decide), if_pos rfl]

/-- Behind the closing bracket. -/
theorem Closed.at (h : Closed p text) : At (p.setEscp true).consumeToken text := by
  obtain ⟨ht, hseen, ⟨before, hpos⟩, hne⟩ := h
  exact at_resume hpos ht hseen hne

/-- The first item, with the sign of negation in front of it. -/
theorem At.firstItem (hat : At p text) (htype : p.lookahead.type = .openbracket) :
    ∃ before e rest, text = 91 :: e :: rest ∧
      InList ((p.push 0).setEscp false).consumeToken before e rest := by
  obtain ⟨ht, -, hl⟩ := hat
  cases hl with
  | @char before rest c hpos hseen hends h92 htoken =>
    rw [htoken] at htype
    obtain rfl : 91 = c := Option.some.inj (eq_of_charType htype (by decide) (by decide))
    obtain ⟨e, rest, rfl⟩ := List.exists_cons_of_ne_nil (hpos.ne_nil ht (by decide))
    have hpos' : ((p.push 0).setEscp false).scanner.Between (91 :: before) (e :: rest) :=
      ⟨hpos.buffer, hpos.readhead⟩
    have hread := consumeToken_char hpos' (ht.congr rfl rfl) hseen rfl
    refine ⟨_, e, rest, rfl, ht.congr (by rw [hread]; rfl) (by rw [hread]; rfl), by rw [hread]; rfl,
      hpos'.forward (by rw [hread]) (by rw [hread]), by rw [hread], by rw [hread], by rw [hread]⟩
  | @escape _ _ e _ _ _ htoken =>
    rw [htoken] at htype
    split at htype <;> cases htype
  | stop _ _ _ htoken => simp [htoken] at htype
  | dangling _ _ htoken => simp [htoken] at htype
  | newline _ _ _ htoken => simp [htoken] at htype

/-- **A bracket expression.** -/
theorem At.bracketOperand (hat : At p text) (htype : p.lookahead.type = .openbracket)
    (hrun : p.bracketOperand fuel = .ok q) :
    ∃ rest, At q rest ∧ rest.length < text.length ∧ Continues text rest := by
  obtain ⟨before, e, rest, rfl, hfirst⟩ := hat.firstItem htype
  unfold Parser.bracketOperand at hrun
  dsimp only at hrun
  generalize ((p.push 0).setEscp false).consumeToken = p₁ at hrun hfirst
  have hnegate : p₁.lookahead.type = .circumflex ↔ e = 94 := by
    rw [hfirst.token]
    constructor
    · intro h
      obtain ⟨-, hchar⟩ := eq_of_tokenOf h (by decide) (by decide) (by decide)
      exact (Option.some.inj hchar).symm
    · rintro rfl
      rfl
  -- Where the items begin.
  obtain ⟨b, x, l, hitems, hlen, htext⟩ : ∃ b x l,
      InList (if decide (p₁.lookahead.type = .circumflex) then p₁.consumeToken else p₁) b x l ∧
        (x :: l).length < (91 :: e :: rest).length ∧
        ∀ {mark} d,
          meets mark .outside d (91 :: e :: rest) = meets mark (.items true) d (x :: l) := by
    by_cases he : e = 94
    · subst he
      obtain ⟨f, rest, rfl⟩ := List.exists_cons_of_ne_nil (hfirst.closed rfl).ne_nil
      rw [decide_eq_true (hnegate.mpr rfl), if_pos rfl]
      exact ⟨_, f, rest, hfirst.next (by decide), by simp, fun d => meets_bracket d⟩
    · rw [decide_eq_false (fun h => he (hnegate.mp h)), if_neg (by simp)]
      exact ⟨_, e, rest, hfirst, by simp, fun d => (meets_bracket d).trans (if_neg he)⟩
  generalize (if decide (p₁.lookahead.type = .circumflex) then p₁.consumeToken else p₁) = p₂
    at hrun hitems
  obtain ⟨p₃, hlist, hrun⟩ := bind_ok hrun
  split at hrun
  · cases hrun
  · rename_i hclose
    have hidle : ∀ b, Idle p₂ ({ p₂ with ctrl := (p₂.ctrl.newRangeNfa b).2 }.push
        (p₂.ctrl.newRangeNfa b).1) := fun _ => ⟨rfl, rfl, rfl⟩
    obtain ⟨rest', hclosed, hlen', hsame⟩ :=
      (closes_of_parseMatchingList (hitems.idle (hidle _)) hlist (by simpa using hclose)).rest
    split at hrun
    · cases hrun
    · cases hrun
      exact ⟨rest', hclosed.at.idle ⟨rfl, rfl, rfl⟩, by omega,
        fun mark d h => ((htext d).trans (hsame d)).trans h⟩

end Parser

end Recognizer
