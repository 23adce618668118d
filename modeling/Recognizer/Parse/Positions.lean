import Recognizer.Parse.Pattern

/-!
# Where the parser stands

A token that is no escape is passed with the text behind it; a literal run ends behind the letters
it takes, and a bracket expression behind its closing bracket.
-/

namespace Recognizer

namespace Parser

open Scanner

variable {p q : Parser} {before older after text mid : List Int} {c x : Int} {fuel : Nat}

/-- The lookahead is the token of the first character, unless that is a backslash. -/
theorem At.token_type (hat : At p (c :: text)) (h92 : c ≠ 92) :
    p.lookahead.type = (tokenOf c).type := by
  unfold tokenOf
  cases hat.lexed with
  | char _ _ hends _ htype => rw [hends, htype]; rfl
  | escape | dangling => exact absurd rfl h92
  | stop _ _ hc htoken => rcases hc with rfl | rfl <;> rw [htoken] <;> rfl
  | newline _ _ _ htoken => rw [htoken]; rfl

/-- A printed character is passed. -/
theorem At.step (hat : At p (c :: text)) (hc : Printed c) :
    p.lookahead.type = charType c ∧ At p.consumeToken text := by
  obtain ⟨-, h92, hends⟩ := hc
  refine ⟨(hat.token_type h92).trans (by rw [tokenOf, hends]; rfl), ?_⟩
  cases hat.lexed with
  | char hpos hseen _ _ =>
    refine at_consumeToken hpos hat.terminated hat.escp hseen (hpos.ne_nil hat.terminated ?_)
    rintro rfl
    simp [endsText] at hends
  | escape | dangling => exact absurd rfl h92
  | stop _ _ hc => rcases hc with rfl | rfl <;> cases hends
  | newline => cases hends

/-- A text read without escapes goes on with escapes. -/
theorem Raw.at_resume (h : Raw p before text) (hne : text ≠ []) :
    At (p.setEscp true).consumeToken text :=
  Parser.at_resume h.between h.terminated h.seen hne

/-- The scan over a literal run stands behind the characters it takes. -/
theorem scanLiteralRun_rests (h : Raw p (c :: before) (mid ++ x :: after)) (hc : c ≠ 10)
    (hmid : ∀ z ∈ mid, plain z = true) (hx : plain x = false) (h10 : x ≠ 10) :
    ∃ s older, scanLiteralRun (fuel + 1 + mid.length) 2 p.consumeToken =
        .ok ((takenOf c (mid ++ x :: after)).length, s) ∧
      Reads p s ∧ Raw s older (behindTaken c (mid ++ x :: after)) := by
  obtain ⟨p', hreads, hraw, hscan⟩ := @scanLiteralRun_plain p (c :: before) (x :: after) mid
    (fuel + 1) 2 h hmid
  have hread : Reads p p'.consumeToken.backtrack :=
    (hreads.trans (reads_consumeToken p')).trans (reads_backtrack _)
  rw [hscan, scanLiteralRun_stop hraw hx]
  rcases List.eq_nil_or_concat mid with rfl | ⟨init, y, rfl⟩
  · rw [List.nil_append] at *
    refine ⟨p'.consumeToken.backtrack, c :: before, ?_, hread, ?_⟩
    · rw [if_neg fun h => absurd h.2 (by simp), takenOf_single hx]
      rfl
    · rw [behindTaken, takenOf_single hx]
      exact (hraw.next h10).back hc
  · rw [List.concat_eq_append] at *
    have hy : plain y = true := hmid y (by simp)
    rw [List.reverse_append, List.reverse_singleton, List.singleton_append,
      List.cons_append] at hraw
    have hback := (hraw.next h10).back (ne_newline hy)
    cases hquantifies : (charType x).quantifies with
    | true =>
      refine ⟨p'.consumeToken.backtrack.backtrack, init.reverse ++ c :: before, ?_,
        hread.trans (reads_backtrack _), ?_⟩
      · rw [if_pos ⟨rfl, by simp; omega⟩, takenOf_quantified hmid hx hquantifies,
          List.length_append, List.length_cons]
        simp [Nat.add_comm]
      · have hrest : behindTaken c ((init ++ [y]) ++ x :: after) = y :: x :: after := by
          rw [behindTaken, takenOf_quantified hmid hx hquantifies]
          simp
        rw [hrest]
        rcases List.eq_nil_or_concat init with rfl | ⟨init, z, rfl⟩
        · exact hback.back hc
        · rw [List.concat_eq_append] at *
          have hz : plain z = true := hmid z (by simp)
          rw [List.reverse_append, List.reverse_singleton, List.singleton_append,
            List.cons_append] at hback ⊢
          exact hback.back (ne_newline hz)
    | false =>
      refine ⟨p'.consumeToken.backtrack, y :: (init.reverse ++ c :: before), ?_, hread, ?_⟩
      · rw [if_neg fun h => by simp at h, takenOf_whole hmid hx hquantifies, List.length_cons]
        congr 2
        omega
      · have hrest : behindTaken c ((init ++ [y]) ++ x :: after) = x :: after := by
          rw [behindTaken, takenOf_whole hmid hx hquantifies]
          simp
        rw [hrest]
        exact hback

/-- The default branch of `parse_literal_expression` builds the automaton of the characters taken
and stands behind them. -/
theorem parseLiteralRun_rests (hat : AtRun p c text) (hc : c ≠ 10)
    (htext : text = mid ++ x :: after) (hmid : ∀ z ∈ mid, plain z = true) (hx : plain x = false)
    (h10 : x ≠ 10) (hfuel : mid.length < fuel) : ∃ s t,
      p.parseLiteralRun fuel = .ok ((literalNfa p.ctrl (takenOf c text)).1,
        { p with scanner := s, lookahead := t, ctrl := (literalNfa p.ctrl (takenOf c text)).2 }) ∧
      At { p with scanner := s, lookahead := t, ctrl := (literalNfa p.ctrl (takenOf c text)).2 }
        (behindTaken c text) := by
  have hrun : (text.takeWhile plain).length < fuel := by
    rw [htext, List.takeWhile_append_of_pos hmid, List.takeWhile_cons_of_neg (by simp [hx]),
      List.append_nil]
    exact hfuel
  obtain ⟨q, hq, hctrl, -⟩ := parseLiteralRun_spec hat hrun
  obtain ⟨before, hbetween⟩ := hat.between
  have hraw : Raw (p.setEscp false) (c :: before) (mid ++ x :: after) :=
    ⟨⟨htext ▸ hbetween.buffer, hbetween.readhead⟩, hat.terminated.congr rfl rfl, rfl, hat.seen⟩
  obtain ⟨s, older, hscan, ⟨sc, t, -, rfl⟩, hrests⟩ := @scanLiteralRun_rests _ before after mid c x
    (fuel - 1 - mid.length) hraw hc hmid hx h10
  rw [show fuel - 1 - mid.length + 1 + mid.length = fuel by omega, ← htext] at hscan
  rw [← htext] at hrests
  have hne : behindTaken c text ≠ [] := by
    have hlen : (takenOf c text).length ≤ (literalRun c text).length := by
      unfold takenOf
      split
      · exact (List.dropLast_prefix _).length_le
      · exact le_rfl
    rw [htext, literalRun_split hmid hx, ← htext] at hlen
    intro hnil
    rw [behindTaken, List.drop_eq_nil_iff] at hnil
    rw [htext] at hnil hlen
    simp only [List.length_cons, List.length_append] at hnil hlen
    omega
  have hat' := hrests.at_resume hne
  refine ⟨q.scanner, q.lookahead, ?_⟩
  suffices hsame : q = { p with
      scanner := q.scanner, lookahead := q.lookahead
      ctrl := (literalNfa p.ctrl (takenOf c text)).2 } ∧ At q (behindTaken c text) by
    rw [← hsame.1]
    exact ⟨hq, hsame.2⟩
  unfold parseLiteralRun at hq
  rw [hscan] at hq
  dsimp only [Bind.bind, Except.bind] at hq
  rw [← hctrl]
  generalize (if (takenOf c text).length > 1 then _ else _ : Addr × NFACtrl) = r at hq
  obtain ⟨-, rfl⟩ := Prod.mk.inj (Except.ok.inj hq)
  exact ⟨rfl, hat'.congr rfl rfl⟩

/-! ## Bracket expressions -/

/-- The lookahead is the token of the first character of a text read without escapes. -/
structure RawAt (p : Parser) (text : List Int) : Prop where
  raw : ∃ before c rest, text = c :: rest ∧ Raw p (c :: before) rest
  lookahead : p.lookahead = tokenOf (text.headD 0)

theorem RawAt.congr (h : RawAt p text) (hscanner : q.scanner = p.scanner)
    (hlookahead : q.lookahead = p.lookahead) : RawAt q text := by
  obtain ⟨⟨before, c, rest, rfl, hraw⟩, htoken⟩ := h
  refine ⟨⟨before, c, rest, rfl, ?_⟩, hlookahead.trans htoken⟩
  exact ⟨hscanner ▸ hraw.between, hscanner ▸ hraw.terminated, hscanner ▸ hraw.escp,
    hscanner ▸ hraw.seen⟩

theorem RawAt.step (h : RawAt p (c :: x :: text)) (hx : x ≠ 10) :
    RawAt p.consumeToken (x :: text) := by
  obtain ⟨⟨before, _, rest, heq, hraw⟩, -⟩ := h
  obtain ⟨rfl, rfl⟩ := List.cons.inj heq
  exact ⟨⟨_, _, _, rfl, hraw.next hx⟩, hraw.lookahead⟩

/-- One character behind, the parser comes back. -/
theorem RawAt.back (h : RawAt p (c :: x :: text)) (hc : c ≠ 10) (hx : x ≠ 10) :
    RawAt p.consumeToken.backtrack (c :: x :: text) := by
  obtain ⟨⟨before, _, rest, heq, hraw⟩, -⟩ := h
  obtain ⟨rfl, rfl⟩ := List.cons.inj heq
  have hnext := hraw.next hx
  refine ⟨⟨_, _, _, rfl, hnext.back hc⟩, ?_⟩
  rw [backtrack_char hnext.between hnext.terminated hnext.seen hnext.escp]
  rfl

/-- The first character of an item, and the token behind the item. -/
theorem tokenOf_plain (hc : plain c = true) : (tokenOf c).value = c ∧
    ((tokenOf c).type = .alpha ∨ (tokenOf c).type = .asciidigit) := by
  have hends : endsText c = false := by
    simp only [plain, Bool.and_eq_true, Bool.not_eq_true'] at hc
    exact hc.1.1
  rw [tokenOf, hends]
  exact ⟨rfl, charType_of_plain hc⟩

theorem toUnsigned_eq (hlow : 0 ≤ c) (hhigh : c < 128) : toUnsigned c = c.toNat := by
  unfold toUnsigned
  omega

/-- A character behind which an item begins or the list ends. -/
def Begins (c : Int) : Prop := plain c = true ∨ c = 93

theorem Begins.spec (hc : Begins c) : c ≠ 10 ∧ (tokenOf c).type ≠ .eof ∧
    (tokenOf c).type ≠ .hyphen := by
  rcases hc with hc | rfl
  · refine ⟨ne_newline hc, ?_⟩
    rcases (tokenOf_plain hc).2 with htype | htype <;> rw [htype] <;> exact ⟨by decide, by decide⟩
  · exact ⟨by decide, by decide, by decide⟩

/-- What follows an item begins another one or closes the list. -/
theorem begins_items (items : List BracketItem) (after : List Int) :
    ∃ d rest, items.flatMap BracketItem.text ++ 93 :: after = d :: rest ∧ Begins d := by
  cases items with
  | nil => exact ⟨93, after, rfl, .inr rfl⟩
  | cons item items =>
    cases item with
    | char c hc hascii => exact ⟨c, _, rfl, .inl hc⟩
    | range low high h => exact ⟨low, _, rfl, .inl (plain_of_inOrder h (.inl rfl)).1⟩

/-- A range sets or clears the bits between its bounds. -/
theorem parseRangeBounds_rests {low high : Int} (h : inOrder low high = true) (n : Addr)
    (negate : Bool) (hat : RawAt p (45 :: high :: x :: text)) (hx : x ≠ 10) :
    p.parseRangeBounds low n negate =
        .ok (p.consumeToken.updateRange low.toNat high.toNat n negate).consumeToken ∧
      RawAt p.consumeToken.consumeToken (x :: text) := by
  obtain ⟨hplain, hlow, hhigh⟩ := plain_of_inOrder h (.inr rfl)
  obtain ⟨-, hlow', hhigh'⟩ := plain_of_inOrder h (.inl rfl)
  have hnext := hat.step (ne_newline hplain)
  refine ⟨?_, hnext.step hx⟩
  have hvalue : p.consumeToken.lookahead.value = high := by
    rw [hnext.lookahead]
    exact (tokenOf_plain hplain).1
  simp only [inOrder, decide_eq_true_eq] at h
  unfold parseRangeBounds
  simp only [hvalue, toUnsigned_eq hlow.le hhigh, toUnsigned_eq hlow'.le hhigh']
  rcases h with ⟨hle, h | h | h⟩
  · rw [if_pos (by omega), if_pos (by omega), if_neg (by omega)]
  · rw [if_neg (by omega), if_pos (by omega), if_pos (by omega), if_pos (by omega)]
  · rw [if_neg (by omega), if_pos (by omega), if_neg (by omega)]

/-- The items of a bracket expression are applied one after the other, and the list ends at its
closing bracket. -/
theorem parseMatchingList_rests {n : Addr} {negate : Bool} (items : List BracketItem) {len : Nat}
    (hat : RawAt p (items.flatMap BracketItem.text ++ 93 :: x :: after)) (hx : x ≠ 10)
    (hlen : 0 < len ∨ items ≠ []) (hfuel : items.length < fuel) : ∃ s t,
      parseMatchingList fuel len n negate p = .ok { p with
        scanner := s, lookahead := t
        ctrl := (items.map BracketItem.bounds).foldl
          (fun c b => c.updateRangeNfa b.1 b.2 n negate) p.ctrl } ∧
      RawAt { p with
        scanner := s, lookahead := t
        ctrl := (items.map BracketItem.bounds).foldl
          (fun c b => c.updateRangeNfa b.1 b.2 n negate) p.ctrl } (93 :: x :: after) := by
  induction items generalizing p len fuel with
  | nil =>
    obtain ⟨fuel, rfl⟩ := Nat.exists_eq_succ_of_ne_zero (Nat.ne_of_gt hfuel)
    have htype : p.lookahead.type = .closebracket := by
      rw [hat.lookahead]
      rfl
    refine ⟨p.consumeToken.backtrack.scanner, p.consumeToken.backtrack.lookahead, ?_, ?_⟩
    · rw [parseMatchingList]
      simp only [htype]
      rw [if_neg (by decide), if_neg (by simp), if_pos ⟨trivial, hlen.resolve_right (by simp)⟩]
      rfl
    · exact hat.back (by decide) hx
  | cons item items ih =>
    obtain ⟨fuel, rfl⟩ := Nat.exists_eq_succ_of_ne_zero (Nat.ne_of_gt (Nat.zero_lt_of_lt hfuel))
    rw [List.length_cons, Nat.succ_lt_succ_iff] at hfuel
    obtain ⟨d, rest, hrest, hd⟩ := begins_items items (x :: after)
    obtain ⟨hd10, hdeof, hdhyphen⟩ := hd.spec
    cases item with
    | char c hc hascii =>
      rw [List.flatMap_cons, List.append_assoc, hrest] at hat
      have hnext := hat.step hd10
      obtain ⟨hvalue, htype⟩ : p.lookahead.value = c ∧
          (p.lookahead.type = .alpha ∨ p.lookahead.type = .asciidigit) := by
        rw [hat.lookahead]
        exact tokenOf_plain hc
      have hahead : p.consumeToken.lookahead.type = (tokenOf d).type := by
        rw [hnext.lookahead]
        rfl
      rw [← hrest] at hnext
      obtain ⟨s, t, hrun, hat'⟩ := @ih (p.consumeToken.updateRange c.toNat c.toNat n negate) fuel
        (len + 1) (hnext.congr rfl rfl) (.inl (by omega)) hfuel
      refine ⟨s, t, ?_, hat'⟩
      rw [parseMatchingList]
      have hplain : p.lookahead.type ≠ .eof ∧ p.lookahead.type ≠ .openbracket ∧
          p.lookahead.type ≠ .closebracket := by
        rcases htype with htype | htype <;> simp [htype]
      rw [if_neg hplain.1, if_neg fun h => hplain.2.1 h.1, if_neg fun h => hplain.2.2 h.1,
        if_neg (by rw [hahead]; exact hdeof), if_neg (by rw [hahead]; exact hdhyphen), hvalue,
        toUnsigned_eq (by omega) (by omega)]
      exact hrun
    | range low high h =>
      obtain ⟨hplow, -⟩ := plain_of_inOrder h (.inl rfl)
      obtain ⟨hvalue, htype⟩ : p.lookahead.value = low ∧
          (p.lookahead.type = .alpha ∨ p.lookahead.type = .asciidigit) := by
        rw [hat.lookahead]
        exact tokenOf_plain hplow
      rw [List.flatMap_cons, List.append_assoc, hrest] at hat
      have hnext := hat.step (by decide)
      have hahead : p.consumeToken.lookahead.type = .hyphen := by
        rw [hnext.lookahead]
        rfl
      obtain ⟨hrange, hbehind⟩ := parseRangeBounds_rests h n negate hnext hd10
      rw [← hrest] at hbehind
      obtain ⟨s, t, hrun, hat'⟩ := @ih
        (p.consumeToken.consumeToken.updateRange low.toNat high.toNat n negate).consumeToken fuel
        (len + 1) (hbehind.congr rfl rfl) (.inl (by omega)) hfuel
      refine ⟨s, t, ?_, hat'⟩
      rw [parseMatchingList]
      have hplain : p.lookahead.type ≠ .eof ∧ p.lookahead.type ≠ .openbracket ∧
          p.lookahead.type ≠ .closebracket := by
        rcases htype with htype | htype <;> simp [htype]
      rw [if_neg hplain.1, if_neg fun h => hplain.2.1 h.1, if_neg fun h => hplain.2.2 h.1,
        if_neg (by rw [hahead]; decide), if_pos hahead, hvalue, hrange]
      exact hrun

/-- The calls of `update_range_nfa` do not move the start node they write. -/
theorem rangeNfa_eq (c : NFACtrl) (negate : Bool) (bounds : List (Nat × Nat)) :
    rangeNfa c negate bounds = ((c.newRangeNfa negate).1, bounds.foldl (fun c' b =>
      c'.updateRangeNfa b.1 b.2 ((c.newRangeNfa negate).2.heap (c.newRangeNfa negate).1).parent
        negate) (c.newRangeNfa negate).2) := by
  unfold rangeNfa
  dsimp only
  congr 1
  generalize (c.newRangeNfa negate).1 = t
  generalize hs : ((c.newRangeNfa negate).2.heap t).parent = s
  generalize (c.newRangeNfa negate).2 = c' at hs
  induction bounds generalizing c' with
  | nil => rfl
  | cons b bounds ih =>
    rw [List.foldl_cons, List.foldl_cons, hs]
    refine ih _ ?_
    rw [updateRangeNfa_eq, NFACtrl.heap_modify, Heap.modify_apply]
    split
    · rename_i hts
      exact (congrArg (fun a => (c'.heap a).parent) hts).symm.trans hs
    · exact hs

/-- Behind an opening bracket the text is read without escapes. -/
theorem At.openBracket (hat : At p (91 :: x :: text)) (hx : x ≠ 10) :
    RawAt ((p.push 0).setEscp false).consumeToken (x :: text) := by
  cases hat.lexed with
  | char hpos hseen =>
    have hraw : Raw ((p.push 0).setEscp false) _ (x :: text) :=
      ⟨⟨hpos.buffer, hpos.readhead⟩, hat.terminated.congr rfl rfl, rfl, hseen⟩
    exact ⟨⟨_, _, _, rfl, hraw.next hx⟩, hraw.lookahead⟩
  | stop _ _ hc => rcases hc with hc | hc <;> cases hc

/-- At its closing bracket a bracket expression is left. -/
theorem RawAt.closeBracket (h : RawAt p (93 :: x :: text)) :
    At (p.setEscp true).consumeToken (x :: text) := by
  obtain ⟨⟨before, _, rest, heq, hraw⟩, -⟩ := h
  obtain ⟨rfl, rfl⟩ := List.cons.inj heq
  exact hraw.at_resume (List.cons_ne_nil x text)

/-- A bracket expression pushes the automaton of its range and is read up to its end. -/
theorem bracketOperand_rests {negate : Bool} {first : BracketItem} {rest : List BracketItem}
    (hat : At p ((Atom.bracket negate first rest).text ++ x :: after)) (hx : x ≠ 10)
    (hfuel : (first :: rest).length < fuel) : ∃ s t,
      p.bracketOperand fuel = .ok ({ p with
        scanner := s, lookahead := t
        ctrl := (rangeNfa p.ctrl negate ((first :: rest).map BracketItem.bounds)).2 }.push
          (rangeNfa p.ctrl negate ((first :: rest).map BracketItem.bounds)).1) ∧
      At ({ p with
        scanner := s, lookahead := t
        ctrl := (rangeNfa p.ctrl negate ((first :: rest).map BracketItem.bounds)).2 }.push
          (rangeNfa p.ctrl negate ((first :: rest).map BracketItem.bounds)).1) (x :: after) := by
  have htext : (Atom.bracket negate first rest).text ++ x :: after =
      91 :: ((if negate then [94] else []) ++
        ((first :: rest).flatMap BracketItem.text ++ 93 :: x :: after)) := by
    simp [Atom.text]
  rw [htext] at hat
  obtain ⟨d, others, hitems, hd⟩ := begins_items (first :: rest) (x :: after)
  -- behind the sign of a complement the items begin
  have hopen : ∃ s t, RawAt { p.push 0 with scanner := s, lookahead := t }
        ((first :: rest).flatMap BracketItem.text ++ 93 :: x :: after) ∧
      ((p.push 0).setEscp false).consumeToken.lookahead.type =
        (if negate then .circumflex else (tokenOf d).type) ∧
      (if negate then ((p.push 0).setEscp false).consumeToken.consumeToken
        else ((p.push 0).setEscp false).consumeToken) =
          { p.push 0 with scanner := s, lookahead := t } := by
    rw [hitems] at hat ⊢
    cases negate with
    | true =>
      have hcircumflex := hat.openBracket (x := 94) (by decide)
      exact ⟨_, _, (hcircumflex.step hd.spec.1).congr rfl rfl, by rw [hcircumflex.lookahead]; rfl,
        rfl⟩
    | false =>
      have hbegin := hat.openBracket (x := d) hd.spec.1
      exact ⟨_, _, hbegin.congr rfl rfl, by rw [hbegin.lookahead]; rfl, rfl⟩
  obtain ⟨s, t, hraw, htype, hsame⟩ := hopen
  have hnegate : decide (((p.push 0).setEscp false).consumeToken.lookahead.type = .circumflex) =
      negate := by
    rw [htype]
    cases negate with
    | true => rfl
    | false =>
      refine decide_eq_false ?_
      rcases hd with hd | rfl
      · rcases (tokenOf_plain hd).2 with htype | htype <;> simp [htype]
      · decide
  rcases hnew : p.ctrl.newRangeNfa negate with ⟨r, c⟩
  have hrange := rangeNfa_eq p.ctrl negate ((first :: rest).map BracketItem.bounds)
  rw [hnew] at hrange
  obtain ⟨s', t', hlist, hraw'⟩ := @parseMatchingList_rests
    (({ p.push 0 with scanner := s, lookahead := t, ctrl := c } : Parser).push r) after x fuel
    (c.heap r).parent negate (first :: rest) 0 (hraw.congr rfl rfl) hx (.inr (by simp)) hfuel
  rw [hrange]
  refine ⟨{ s' with escpSeq := true }.regexScan, { s' with escpSeq := true }.regexScan.curtoken,
    ?_, hraw'.closeBracket.congr rfl rfl⟩
  have hclose : t'.type = .closebracket := congrArg Token.type hraw'.lookahead
  have hnew' : (p.push 0).ctrl.newRangeNfa negate = (r, c) := hnew
  unfold bracketOperand
  dsimp only
  rw [hnegate, hsame]
  dsimp only
  rw [hnew']
  dsimp only
  refine (congrArg (· >>= _) hlist).trans ?_
  refine (if_neg (not_not.mpr hclose)).trans ?_
  exact (if_neg (not_not.mpr rfl)).trans rfl

end Parser

end Recognizer
