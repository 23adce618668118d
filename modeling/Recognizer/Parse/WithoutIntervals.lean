import Recognizer.Parse.WholePattern

/-!
# Patterns without intervals

Where no bare opening brace stands outside bracket expressions, the descent never comes to
`parse_interval_expression`. A relation that the other moves keep and that survives alternatives
and groups then holds between the state a parsing routine starts in and the one it returns.
-/

namespace Recognizer

/-- The opening braces are marked. -/
def braceMark : Mark where
  marks _ c _ := decide (c = 123)
  not_plain h := by
    rw [of_decide_eq_true h]
    rfl

namespace Parser

variable {R : Parser → Parser → Prop} {p q r s : Parser} {text rest : List Int} {fuel : Nat}

/-- No interval stands in the text that is left. -/
def NoInterval (p : Parser) (text : List Int) : Prop :=
  meets braceMark .outside p.parenCount text = false

theorem NoInterval.continues (h : p.NoInterval text) (hsame : ∀ mark,
      meets mark .outside p.parenCount rest = true → meets mark .outside p.parenCount text = true)
    (hparen : r.parenCount = p.parenCount) : r.NoInterval rest := by
  unfold NoInterval at h ⊢
  rw [Bool.eq_false_iff] at h ⊢
  rw [hparen]
  exact fun hmeets => h (hsame braceMark hmeets)

/-- At an opening brace there is an interval. -/
theorem At.not_openbrace (hat : At p text) (hclean : p.NoInterval text) :
    p.lookahead.type ≠ .openbrace := by
  intro htype
  obtain ⟨rest, rfl, -⟩ := hat.behind (k := 123) (by rw [htype]; rfl)
  have hmeets : meets braceMark .outside p.parenCount (123 :: rest) = true := by
    cases rest <;>
    · rw [meets]
      simp [endsText, braceMark, EOF, eolSymbol]
  rw [NoInterval, hmeets] at hclean
  cases hclean

/-- The parsing routines keep a relation where no interval is left, with a given budget. -/
structure PlainParses (R : Parser → Parser → Prop) (fuel : Nat) : Prop where
  quantifier : ∀ {p q text}, At p text → p.NoInterval text →
    parseQuantifierExpression fuel p = .ok q → R p q
  literal : ∀ {p q text t}, At { p with lookahead := t } text → p.NoInterval text →
    t.type.structural = false → (p.lookahead = t ∨ p.lookahead.type = .alpha) →
    parseLiteralExpression fuel p = .ok q → R p q
  bracket : ∀ {p q text}, At p text → p.NoInterval text → p.lookahead.type = .openbracket →
    parseBracketExpression fuel p = .ok q → R p q
  paren : ∀ {p q text}, At p text → p.NoInterval text → p.lookahead.type = .openparen →
    parseParenExpression fuel p = .ok q → R p q
  sub : ∀ {p q text}, At p text → p.NoInterval text → parseSubExpression fuel p = .ok q → R p q
  start : ∀ {p q text}, At p text → p.NoInterval text → regexParserStart fuel p = .ok q → R p q

namespace PlainParses

/-- Quantifiers are read behind an operand. -/
theorem behind (rule : PlainRule R) (ih : PlainParses R fuel) (hR : R p r) (hat : At r rest)
    (hclean : p.NoInterval text) (hsame : Continues text rest)
    (hparen : r.parenCount = p.parenCount)
    (hrun : parseQuantifierExpression fuel r = .ok q) : R p q :=
  rule.trans hR (ih.quantifier hat (hclean.continues (fun mark => hsame mark _) hparen) hrun)

/-- The rest of a branch is read behind its first operand. -/
theorem rest_of (ih : PlainParses R fuel) (rule : PlainRule R) {n : Nat}
    (hout : Outcome n p.parenCount text r) (hclean : p.NoInterval text)
    (hparen : r.parenCount = p.parenCount) (hrun : parseSubExpression fuel r = .ok s) : R r s := by
  cases hout with
  | reads hat _ _ hsame => exact ih.sub hat (hclean.continues hsame hparen) hrun
  | strays hstray =>
    obtain rfl := sub_of_stray hstray hrun
    exact rule.refl s

theorem quantifier_succ (rule : PlainRule R) (ih : PlainParses R fuel) (hat : At p text)
    (hclean : p.NoInterval text) (hrun : parseQuantifierExpression (fuel + 1) p = .ok q) :
    R p q := by
  have hread := rule.reads (reads_consumeToken p)
  have hquantify : ∀ {build}, build = NFACtrl.newPosclosureNfa ∨ build = NFACtrl.newKleeneNfa ∨
      build = NFACtrl.newQmarkNfa → p.lookahead.type.structural = false →
      p.lookahead.type ≠ .alpha →
      (do
        let p ← p.consumeToken.pop.2.quantify build p.consumeToken.pop.1
        parseQuantifierExpression fuel p : Result) = .ok q → R p q := by
    intro build hbuild hplain halpha hrun
    obtain ⟨r, hr, hrun⟩ := bind_ok hrun
    obtain ⟨rest, hat', -, hsame⟩ := hat.pass hplain fun h => absurd h halpha
    have hidle := idle_quantify hr
    exact ih.behind rule (rule.step hread (.quantify hbuild hr))
      (hat'.congr hidle.scanner hidle.lookahead) hclean hsame hidle.parenCount hrun
  rw [parseQuantifierExpression] at hrun
  split at hrun
  iterate 3
    · rename_i htype
      exact hquantify (by simp) (by rw [htype]; rfl) (by simp [htype]) hrun
  · rename_i htype
    exact absurd htype (hat.not_openbrace hclean)
  · rename_i htype
    obtain ⟨rest, rfl, hbehind⟩ := hat.behind (k := 124) (by rw [htype]; rfl)
    obtain ⟨r, hr, hrun⟩ := bind_ok hrun
    obtain ⟨s, hs, hrun⟩ := bind_ok hrun
    have hbegin := idle_beginAlternative hr
    refine rule.alternative hr (ih.sub (hbehind.idle hbegin) ?_ hs) hrun
    refine hclean.continues (fun mark h => ?_) hbegin.parenCount
    rw [meets_pipe, h, Bool.or_true]
  · cases hrun
    exact rule.refl p

theorem literal_succ (rule : PlainRule R) (ih : PlainParses R fuel) {t : Token}
    (hat : At { p with lookahead := t } text) (hclean : p.NoInterval text)
    (hplain : t.type.structural = false) (htoken : p.lookahead = t ∨ p.lookahead.type = .alpha)
    (hrun : parseLiteralExpression (fuel + 1) p = .ok q) : R p q := by
  have hspecial : ∀ {type}, type = .any ∨ type = .eolAnchor ∨ type = .bolAnchor →
      p.lookahead.type ≠ .alpha → parseQuantifierExpression fuel (p.pushSpecial type) = .ok q →
      R p q := by
    intro type htype halpha hrun
    obtain rfl := htoken.resolve_right halpha
    obtain ⟨rest, hat', -, hsame⟩ := hat.pass hplain fun h => absurd h halpha
    exact ih.behind rule (rule.special p htype) (hat'.congr rfl rfl) hclean hsame rfl hrun
  rw [parseLiteralExpression] at hrun
  split at hrun
  iterate 3
    · rename_i htype
      exact hspecial (by simp) (by simp [htype]) hrun
  · obtain ⟨⟨nfa, r⟩, hr, hrun⟩ := bind_ok hrun
    obtain ⟨rest, hat', -, hparen, hsame⟩ := hat.literalRun hplain hr
    exact ih.behind rule (rule.literalRun hr) (hat'.congr rfl rfl) hclean hsame hparen hrun

theorem bracket_succ (rule : PlainRule R) (ih : PlainParses R fuel) (hat : At p text)
    (hclean : p.NoInterval text) (htype : p.lookahead.type = .openbracket)
    (hrun : parseBracketExpression (fuel + 1) p = .ok q) : R p q := by
  rw [parseBracketExpression] at hrun
  obtain ⟨r, hr, hrun⟩ := bind_ok hrun
  obtain ⟨rest, hat', -, hsame⟩ := hat.bracketOperand htype hr
  exact ih.behind rule (rule.bracket hr) hat' hclean hsame (parenRule.bracket hr) hrun

theorem paren_succ (rule : PlainRule R) (ih : PlainParses R fuel) (hat : At p text)
    (hclean : p.NoInterval text) (htype : p.lookahead.type = .openparen)
    (hrun : parseParenExpression (fuel + 1) p = .ok q) : R p q := by
  obtain ⟨rest, rfl, hbehind⟩ := hat.behind (k := 40) (by rw [htype]; rfl)
  obtain ⟨hscanner, -, hcount⟩ := updateOpenParenAccounting_reads p
  rw [parseParenExpression] at hrun
  obtain ⟨r, hr, hrun⟩ := bind_ok hrun
  obtain ⟨s, hs, hrun⟩ := bind_ok hrun
  change regexParserStart fuel (p.updateOpenParenAccounting.2.consumeToken.push 0) = .ok r at hr
  obtain ⟨hclose, hsscanner, hslookahead, hscount⟩ := closeParen_reads hs
  have hat' : At (p.updateOpenParenAccounting.2.consumeToken.push 0) rest := by
    refine hbehind.congr ?_ ?_ <;> simp [consumeToken, push, hscanner]
  have hentered : (p.updateOpenParenAccounting.2.consumeToken.push 0).parenCount =
      p.parenCount + 1 := hcount
  have hinner : (p.updateOpenParenAccounting.2.consumeToken.push 0).NoInterval rest := by
    rw [NoInterval, hentered, ← meets_open]
    exact hclean
  have hrcount := (parenRule.parses fuel).start hr
  have hout := ((readsOn fuel).start hat' hr).1
  rw [hentered] at hout hrcount
  have hleft : s.parenCount = p.parenCount := by omega
  refine rule.trans (rule.paren (ih.start hat' hinner hr) hs) ?_
  cases hout with
  | strays hstray => rw [hclose] at hstray; cases hstray
  | reads hat₁ _ _ hsame₁ =>
    obtain ⟨rest₂, rfl, hbehind₂⟩ := hat₁.behind (k := 41) (by rw [hclose]; rfl)
    refine ih.quantifier (hbehind₂.congr hsscanner hslookahead) ?_ hrun
    rw [NoInterval, hleft, Bool.eq_false_iff]
    intro hmeets
    have hmark := hsame₁ braceMark (by rwa [meets_close, add_sub_cancel_right])
    rw [NoInterval, meets_open, hmark] at hclean
    cases hclean

theorem sub_succ (rule : PlainRule R) (ih : PlainParses R fuel) (hat : At p text)
    (hclean : p.NoInterval text) (hrun : parseSubExpression (fuel + 1) p = .ok q) : R p q := by
  have hcount := parenRule.parses fuel
  have hreads := readsOn fuel
  have hjoin : ∀ {first : Result} (p' : Parser), (∀ {r}, first = .ok r →
      R p' r ∧ Outcome 1 p.parenCount text r ∧ r.parenCount = p.parenCount) →
      (do
        let p ← first
        let p ← parseSubExpression fuel p
        .ok p.concatenateTop : Result) = .ok q → R p' q := by
    intro first p' hfirst hrun
    obtain ⟨r, hr, hrun⟩ := bind_ok hrun
    obtain ⟨s, hs, hrun⟩ := bind_ok hrun
    cases hrun
    obtain ⟨hR, hout, hparen⟩ := hfirst hr
    exact rule.step (rule.trans hR (ih.rest_of rule hout hclean hparen hs)) (.join s)
  have hliteral : p.lookahead.type.structural = false → (do
      let p ← parseLiteralExpression fuel p
      let p ← parseSubExpression fuel p
      .ok p.concatenateTop : Result) = .ok q → R p q :=
    fun htype hrun => hjoin p (fun hr =>
      ⟨ih.literal (t := p.lookahead) hat hclean htype (.inl rfl) hr,
        hreads.literal (t := p.lookahead) hat htype (.inl rfl) hr, hcount.literal hr⟩) hrun
  rw [parseSubExpression] at hrun
  split at hrun
  iterate 6
    · rename_i htype
      exact hliteral (by rw [htype]; rfl) hrun
  · rename_i htype
    -- the hyphen is read as a letter
    have hplain : p.lookahead.type.structural = false := by rw [htype]; rfl
    refine rule.trans (rule.move (.read p p.scanner _ rfl))
      (hjoin { p with lookahead := { p.lookahead with type := .alpha } }
        (fun {r} hr => ⟨?_, ?_, ?_⟩) hrun)
    · exact ih.literal (p := { p with lookahead := { p.lookahead with type := .alpha } })
        (t := p.lookahead) hat hclean hplain (.inr rfl) hr
    · exact hreads.literal (p := { p with lookahead := { p.lookahead with type := .alpha } })
        (t := p.lookahead) hat hplain (.inr rfl) hr
    · have hsame := hcount.literal hr
      exact hsame
  · rename_i htype
    obtain ⟨r, hr, hrun⟩ := bind_ok hrun
    exact rule.trans (ih.paren hat hclean htype hr)
      (ih.rest_of rule (hreads.paren hat htype hr) hclean (hcount.paren hr) hrun)
  · rename_i htype
    exact hjoin p (fun hr => ⟨ih.bracket hat hclean htype hr, hreads.bracket hat htype hr,
      hcount.bracket hr⟩) hrun
  · rename_i htype
    obtain ⟨⟨⟩, hvalid, hrun⟩ := bind_ok hrun
    have hplain : p.lookahead.type.structural = false := by rw [htype]; rfl
    obtain ⟨rest, hat', -, hsame⟩ := hat.pass hplain (by simp [htype])
    have hpush : R p ({ p with ctrl := (p.ctrl.newBackreferenceNfa
        (p.lookahead.value - 1).toNat).2 }.push
          (p.ctrl.newBackreferenceNfa (p.lookahead.value - 1).toNat).1).consumeToken :=
      rule.trans (rule.move (.backreference p hvalid)) (rule.reads (reads_consumeToken _))
    generalize p.ctrl.newBackreferenceNfa (p.lookahead.value - 1).toNat = new at hrun hpush
    obtain ⟨left, ctrl⟩ := new
    have hidle : Idle p.consumeToken ({ p with ctrl := ctrl }.push left).consumeToken :=
      ⟨rfl, rfl, rfl⟩
    refine hjoin p (fun {r} hr => ⟨?_, ?_, ?_⟩) hrun
    · exact ih.behind rule hpush (hat'.idle hidle) hclean hsame rfl hr
    · exact hreads.token_then hplain (by simp [htype]) hidle hat hr
    · have hparen := hcount.quantifier hr
      exact hparen
  · cases hrun
  · cases hrun
  · split at hrun
    · cases hrun
    · cases hrun
      exact rule.refl p
  · cases hrun
    exact rule.refl p

end PlainParses

/-- **The rule of the descent without intervals.** -/
theorem PlainRule.parses (rule : PlainRule R) (fuel : Nat) : PlainParses R fuel := by
  induction fuel with
  | zero => constructor <;> intros <;> contradiction
  | succ fuel ih =>
    refine ⟨PlainParses.quantifier_succ rule ih, PlainParses.literal_succ rule ih,
      PlainParses.bracket_succ rule ih, PlainParses.paren_succ rule ih,
      PlainParses.sub_succ rule ih, fun {p q text} hat hclean hrun => ?_⟩
    rw [regexParserStart] at hrun
    split at hrun
    · exact ih.sub hat hclean hrun
    · cases hrun

end Parser

end Recognizer
