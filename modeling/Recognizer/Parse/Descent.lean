import Recognizer.Parse.Completed
import Recognizer.Parse.Positions

/-!
# The descent builds the automaton of its text

On a text without alternation every parsing routine returns. It leaves the parser behind the text,
and the automata on the symbol stack, joined from the bottom to the top, spell the language of the
text. A separator counts as the empty word.
-/

namespace Recognizer

namespace Parser

open Scanner
open scoped Computability

variable {p q : Parser} {es : List (Addr × Language Int)} {text rest after : List Int}
  {L M N : Language Int} {t x : Addr} {c : NFACtrl} {d : Int} {fuel : Nat}

/-- The language of the entries of a stack, joined from the bottom to the top. -/
def product : List (Addr × Language Int) → Language Int
  | [] => 1
  | e :: es => product es * e.2

theorem product_append (es es' : List (Addr × Language Int)) :
    product (es ++ es') = product es' * product es := by
  induction es with
  | nil => exact (mul_one _).symm
  | cons e es ih => rw [List.cons_append, product, product, ih, mul_assoc]

/-- The entries that are not `NULL`. -/
abbrev automata (es : List (Addr × Language Int)) : List (Addr × Language Int) :=
  es.filter fun e => e.1 ≠ 0

/-- The symbol stack holds automata of the languages `es`, and separators. -/
structure Holds (p : Parser) (es : List (Addr × Language Int)) : Prop where
  stack : p.symbolStack = es.map Prod.fst
  grown : Grown p.ctrl (automata es)
  separator : ∀ e ∈ es, e.1 = 0 → e.2 = 1

theorem automata_cons (ht : t ≠ 0) : automata ((t, L) :: es) = (t, L) :: automata es :=
  List.filter_cons_of_pos (by simpa using ht)

theorem Holds.congr (hh : Holds p es) (hstack : q.symbolStack = p.symbolStack)
    (hctrl : q.ctrl = p.ctrl) : Holds q es :=
  ⟨hstack.trans hh.stack, hctrl ▸ hh.grown, hh.separator⟩

/-- A new automaton is pushed. -/
theorem Holds.push (hh : Holds p es) (hg : Grown q.ctrl ((t, L) :: automata es))
    (hstack : q.symbolStack = t :: p.symbolStack) : Holds q ((t, L) :: es) := by
  have ht : t ≠ 0 := hg.nonzero (t, L) (by simp)
  refine ⟨hstack.trans (congrArg (t :: ·) hh.stack), ?_, List.forall_mem_cons.mpr ⟨?_, ?_⟩⟩
  · rw [automata_cons ht]
    exact hg
  · exact fun hzero => absurd hzero ht
  · exact hh.separator

/-- The topmost entry is replaced. -/
theorem Holds.replace (hh : Holds p ((x, N) :: es)) (hg : Grown q.ctrl ((t, M) :: automata es))
    (hstack : q.symbolStack = t :: p.symbolStack.tail) : Holds q ((t, M) :: es) := by
  have ht : t ≠ 0 := hg.nonzero (t, M) (by simp)
  refine ⟨hstack.trans (congrArg (t :: ·) (congrArg List.tail hh.stack)), ?_,
    List.forall_mem_cons.mpr ⟨?_, ?_⟩⟩
  · rw [automata_cons ht]
    exact hg
  · exact fun hzero => absurd hzero ht
  · exact (List.forall_mem_cons.mp hh.separator).2

/-- A separator is pushed. -/
theorem Holds.separate (hh : Holds p es) : Holds (p.push 0) ((0, 1) :: es) :=
  ⟨congrArg (0 :: ·) hh.stack, hh.grown, List.forall_mem_cons.mpr ⟨fun _ => rfl, hh.separator⟩⟩

/-- `concatenate_nfa` with the automaton on the top joins two entries. -/
theorem concatenate_entry (hg : Grown c ((t, M) :: automata ((x, N) :: es)))
    (hsep : x = 0 → N = 1) :
    Grown (c.concatenateNfa x t).2 (((c.concatenateNfa x t).1, N * M) :: automata es) := by
  have ht : t ≠ 0 := hg.nonzero (t, M) (by simp)
  by_cases hx : x = 0
  · have hsame : c.concatenateNfa x t = (t, c) := by
      rw [NFACtrl.concatenateNfa, if_neg ht, if_pos hx]
    have hskip : automata ((x, N) :: es) = automata es :=
      List.filter_cons_of_neg (by simp [hx])
    rw [hsame, hsep hx, one_mul, ← hskip]
    exact hg
  · rw [automata_cons hx] at hg
    exact (hg.perm (List.Perm.swap _ _ _)).concatenate

/-- The two topmost entries are joined; below a single entry nothing is found. -/
theorem Holds.concatenateTop (hh : Holds p ((t, M) :: es)) (ht : t ≠ 0) : ∃ t', t' ≠ 0 ∧
    Holds p.concatenateTop ((t', product (es.take 1) * M) :: es.tail) := by
  have hg := hh.grown
  rw [automata_cons ht] at hg
  have hsep := (List.forall_mem_cons.mp hh.separator).2
  have hright : p.symbolStack.headD 0 = t := by rw [hh.stack]; rfl
  have hleft : p.symbolStack.tail.headD 0 = (es.map Prod.fst).headD 0 := by rw [hh.stack]; rfl
  have hbelow : p.symbolStack.tail.tail = (es.map Prod.fst).tail := by rw [hh.stack]; rfl
  have hrun : Parser.concatenateTop p =
      { p with
        ctrl := (p.ctrl.concatenateNfa ((es.map Prod.fst).headD 0) t).2
        symbolStack := (p.ctrl.concatenateNfa ((es.map Prod.fst).headD 0) t).1 ::
          (es.map Prod.fst).tail } := by
    unfold Parser.concatenateTop pushConcatenated pop Parser.push
    dsimp only
    rw [hright, hleft, hbelow]
  rw [hrun]
  cases es with
  | nil =>
    have hsame : p.ctrl.concatenateNfa 0 t = (t, p.ctrl) := by
      rw [NFACtrl.concatenateNfa, if_neg ht, if_pos rfl]
    refine ⟨t, ht, ⟨?_, ?_, ?_⟩⟩
    · simp [hsame]
    · simpa [hsame, product, ht] using hg
    · simp [ht]
  | cons e es =>
    have hjoin := concatenate_entry hg (hsep e (by simp))
    have hnew : (p.ctrl.concatenateNfa e.1 t).1 ≠ 0 :=
      hjoin.nonzero ((p.ctrl.concatenateNfa e.1 t).1, e.2 * M) (by simp)
    have hproduct : product ((e :: es).take 1) = e.2 := one_mul e.2
    refine ⟨_, hnew, ⟨rfl, ?_, ?_⟩⟩
    · rw [automata_cons hnew, hproduct]
      exact hjoin
    · refine List.forall_mem_cons.mpr ⟨fun hzero => absurd hzero hnew, fun e' he' => ?_⟩
      exact hsep e' (List.mem_cons_of_mem _ he')

/-- What a group or the whole pattern pushed is joined. -/
theorem Holds.joinGroup {seg : List (Addr × Language Int)}
    (hstack : p.symbolStack = (seg ++ es).map Prod.fst)
    (hg : Grown p.ctrl ((t, M) :: automata (seg ++ es)))
    (hsep : ∀ e ∈ seg ++ es, e.1 = 0 → e.2 = 1) : ∃ t' c,
      Parser.joinGroup seg.length t p =
        (t', { p with ctrl := c, symbolStack := es.map Prod.fst }) ∧
      Grown c ((t', product ((t, M) :: seg)) :: automata es) := by
  induction seg generalizing p t M with
  | nil =>
    refine ⟨t, p.ctrl, ?_, by simpa [product] using hg⟩
    rw [← show p.symbolStack = es.map Prod.fst from hstack]
    rfl
  | cons e seg ih =>
    obtain ⟨hsepe, hsep⟩ := List.forall_mem_cons.mp hsep
    have hjoin := concatenate_entry hg hsepe
    have hleft : p.symbolStack.headD 0 = e.1 := by rw [hstack]; rfl
    have hbelow : p.symbolStack.tail = (seg ++ es).map Prod.fst := by rw [hstack]; rfl
    obtain ⟨t', c, hrun, hg'⟩ := @ih
      { p with
        ctrl := (p.ctrl.concatenateNfa e.1 t).2, symbolStack := (seg ++ es).map Prod.fst }
      _ _ rfl hjoin hsep
    refine ⟨t', c, ?_, ?_⟩
    · rw [List.length_cons, Parser.joinGroup]
      unfold pop
      dsimp only
      rw [hleft, hbelow]
      exact hrun
    · simp only [product] at hg' ⊢
      rwa [mul_assoc]

theorem joinAll_eq (n : Nat) (right : Addr) (p : Parser) :
    joinAll n right p = Parser.joinGroup n right p := by
  induction n generalizing right p with
  | zero => rfl
  | succ n ih =>
    rw [joinAll, Parser.joinGroup]
    exact ih _ _

/-- The parser stands at a text, at a depth of parentheses, with automata of the languages `es` on
its stack. No backreference names a group. -/
structure StandsAt (p : Parser) (d : Int) (text : List Int) (es : List (Addr × Language Int)) :
    Prop where
  position : At p text
  holds : Holds p es
  untracked : p.cgrpMap = fun _ => false
  depth : p.parenCount = d

/-- The character behind a branch: the end of the pattern, or the closing parenthesis of a group
that was entered. -/
def BranchEnd (d x : Int) : Prop := x = eolSymbol ∨ x = 41 ∧ d ≠ 0

/-- A character that neither quantifies nor begins an alternative. -/
def Rests (x : Int) : Prop := x ≠ 92 ∧ (tokenOf x).type.stray = false

variable {y : Int}

theorem BranchEnd.rests (hx : BranchEnd d y) : Rests y := by
  rcases hx with rfl | ⟨rfl, -⟩ <;> exact ⟨by decide, by decide⟩

/-- At the character behind it a branch ends. -/
theorem StandsAt.branchEnd (hs : StandsAt p d (y :: after) es) (hy : BranchEnd d y) :
    parseSubExpression (fuel + 1) p = .ok p := by
  have htype := hs.position.token_type hy.rests.1
  rw [parseSubExpression]
  rcases hy with rfl | ⟨rfl, hd⟩
  · rw [htype]
    rfl
  · rw [htype]
    exact if_neg (by rwa [hs.depth])

/-- One quantifier is applied to the automaton on the top. -/
theorem StandsAt.quantify {build : NFACtrl → Addr → Addr × NFACtrl}
    (hs : StandsAt p d (y :: text) ((t, L) :: es)) (hy : Printed y) (ht : t ≠ 0)
    (hbuild : Grown p.ctrl ((t, L) :: automata es) →
      Grown (build p.ctrl t).2 (((build p.ctrl t).1, M) :: automata es)) :
    ∃ q t', p.consumeToken.pop.2.quantify build p.consumeToken.pop.1 = .ok q ∧ t' ≠ 0 ∧
      StandsAt q d text ((t', M) :: es) := by
  have hg := hs.holds.grown
  rw [automata_cons ht] at hg
  have hnew := hbuild hg
  have htop : p.consumeToken.pop.1 = t := by
    show p.symbolStack.headD 0 = t
    rw [hs.holds.stack]
    rfl
  refine ⟨{ p.consumeToken.pop.2 with ctrl := (build p.ctrl t).2 }.push (build p.ctrl t).1,
    (build p.ctrl t).1, ?_, hnew.nonzero ((build p.ctrl t).1, M) (by simp),
    ⟨(hs.position.step hy).2.congr rfl rfl, hs.holds.replace hnew rfl, hs.untracked, hs.depth⟩⟩
  rw [htop, Parser.quantify, if_neg ht]
  rfl

/-- Quantifiers are applied one after the other. -/
theorem StandsAt.quantifiers (quantifiers : List Quantifier)
    (hs : StandsAt p d (quantifiers.map Quantifier.sign ++ y :: after) ((t, L) :: es)) (ht : t ≠ 0)
    (hy : Rests y) (hfuel : quantifiers.length < fuel) :
    ∃ q t', parseQuantifierExpression fuel p = .ok q ∧ t' ≠ 0 ∧
      StandsAt q d (y :: after) ((t', quantifiers.foldl Quantifier.apply L) :: es) := by
  induction quantifiers generalizing p t L fuel with
  | nil =>
    obtain ⟨fuel, rfl⟩ := Nat.exists_eq_succ_of_ne_zero (Nat.ne_of_gt hfuel)
    refine ⟨p, t, ?_, ht, hs⟩
    have htype := hs.position.token_type hy.1
    have hrest := hy.2
    rw [← htype] at hrest
    rw [parseQuantifierExpression]
    split
    · rename_i h; rw [h] at hrest; cases hrest
    · rename_i h; rw [h] at hrest; cases hrest
    · rename_i h; rw [h] at hrest; cases hrest
    · rename_i h; rw [h] at hrest; cases hrest
    · rename_i h; rw [h] at hrest; cases hrest
    · rfl
  | cons k quantifiers ih =>
    obtain ⟨fuel, rfl⟩ := Nat.exists_eq_succ_of_ne_zero (Nat.ne_of_gt (Nat.zero_lt_of_lt hfuel))
    have hprinted : Printed k.sign := Quantifier.signs_printed [k] _ (by simp)
    have htype := (hs.position.step hprinted).1
    have hfuel' : quantifiers.length < fuel := Nat.succ_lt_succ_iff.mp hfuel
    cases k with
    | kleene =>
      obtain ⟨r, t', hr, ht', hs'⟩ := hs.quantify hprinted ht Grown.kleene
      obtain ⟨q, t'', hq, ht'', hs''⟩ := ih hs' ht' hfuel'
      refine ⟨q, t'', ?_, ht'', hs''⟩
      rw [parseQuantifierExpression, htype]
      exact (congrArg (· >>= _) hr).trans hq
    | plus =>
      obtain ⟨r, t', hr, ht', hs'⟩ := hs.quantify hprinted ht Grown.posclosure
      obtain ⟨q, t'', hq, ht'', hs''⟩ := ih hs' ht' hfuel'
      refine ⟨q, t'', ?_, ht'', hs''⟩
      rw [parseQuantifierExpression, htype]
      exact (congrArg (· >>= _) hr).trans hq
    | qmark =>
      obtain ⟨r, t', hr, ht', hs'⟩ := hs.quantify hprinted ht Grown.qmark
      obtain ⟨q, t'', hq, ht'', hs''⟩ := ih hs' ht' hfuel'
      refine ⟨q, t'', ?_, ht'', hs''⟩
      rw [parseQuantifierExpression, htype]
      exact (congrArg (· >>= _) hr).trans hq

/-- The automaton of the letters of a run. -/
theorem grown_literalNfa {fs : List (Addr × Language Int)} {chars : List Int} (hg : Grown c fs)
    (hne : chars ≠ []) (hchars : ∀ z ∈ chars, z ≠ eolSymbol) :
    Grown (literalNfa c chars).2 (((literalNfa c chars).1, {chars}) :: fs) := by
  obtain ⟨a, rest, rfl⟩ := List.exists_cons_of_ne_nil hne
  unfold literalNfa
  split
  · exact hg.lliteral hchars
  · rename_i hlen
    obtain rfl : rest = [] := List.eq_nil_of_length_eq_zero (by
      rw [List.length_cons] at hlen
      omega)
    exact hg.literal (hchars a (by simp))

/-- A branch goes on behind its first operand. -/
def BehindOperand (fuel : Nat) (q : Parser) : Result := do
  let p ← parseQuantifierExpression fuel q
  let p ← parseSubExpression (fuel + 1) p
  .ok p.concatenateTop

/-- The letters of a run become one operand. -/
theorem StandsAt.literal {mid : List Int} {z : Int} (hs : StandsAt p d (y :: text) es)
    (hy : plain y = true) (hnul : y ≠ 0) (htext : text = mid ++ z :: after)
    (hmid : ∀ z ∈ mid, plain z = true) (hz : plain z = false) (h10 : z ≠ 10)
    (htaken : ∀ z ∈ takenOf y text, plain z = true) (hfuel : mid.length < fuel) :
    ∃ q t, parseSubExpression (fuel + 2) p = BehindOperand fuel q ∧ t ≠ 0 ∧
      StandsAt q d (behindTaken y text) ((t, {takenOf y text}) :: es) := by
  have hprinted := printed_of_plain hy hnul
  have htype := (hs.position.step hprinted).1
  have hkind := charType_of_plain hy
  rw [← htype] at hkind
  have hat : AtRun p y text := hs.position.atRun hprinted.2.1
    (by rcases hkind with h | h <;> simp [h]) (hkind.imp_right .inl)
  obtain ⟨s, k, hrun, hat'⟩ := parseLiteralRun_rests hat (ne_newline hy) htext hmid hz h10 hfuel
  have hg := grown_literalNfa hs.holds.grown (takenOf_ne_nil y text) fun z hz => by
    rintro rfl
    cases htaken _ hz
  refine ⟨{ p with
        scanner := s, lookahead := k
        ctrl := (literalNfa p.ctrl (takenOf y text)).2 }.push
      (literalNfa p.ctrl (takenOf y text)).1, (literalNfa p.ctrl (takenOf y text)).1, ?_,
    hg.nonzero _ List.mem_cons_self,
    ⟨hat'.congr rfl rfl, hs.holds.push hg rfl, hs.untracked, hs.depth⟩⟩
  rcases hkind with hkind | hkind
  · rw [parseSubExpression, hkind]
    dsimp only
    rw [parseLiteralExpression, hkind]
    dsimp only
    rw [hrun]
    rfl
  · rw [parseSubExpression, hkind]
    dsimp only
    rw [parseLiteralExpression, hkind]
    dsimp only
    rw [hrun]
    rfl

variable (fuel) in
/-- A point becomes one operand. -/
theorem StandsAt.any (hs : StandsAt p d (46 :: text) es) : ∃ q t,
    parseSubExpression (fuel + 2) p = BehindOperand fuel q ∧ t ≠ 0 ∧
      StandsAt q d text ((t, Atom.any.language) :: es) := by
  obtain ⟨htype, hat⟩ := hs.position.step ⟨by decide, by decide, by decide⟩
  have hg := hs.holds.grown.any p.lookahead.value
  refine ⟨p.pushSpecial .any, (p.ctrl.newLiteralNfa p.lookahead.value .any).1, ?_,
    hg.nonzero _ List.mem_cons_self,
    ⟨hat.congr rfl rfl, hs.holds.push hg rfl, hs.untracked, hs.depth⟩⟩
  rw [parseSubExpression, htype]
  dsimp only [charType]
  rw [parseLiteralExpression, htype]
  rfl

/-- A bracket expression becomes one operand. -/
theorem StandsAt.bracket {negate : Bool} {first : BracketItem} {items : List BracketItem}
    (hs : StandsAt p d ((Atom.bracket negate first items).text ++ y :: after) es) (hy : y ≠ 10)
    (hfuel : (first :: items).length < fuel) : ∃ q t,
    parseSubExpression (fuel + 2) p = BehindOperand fuel q ∧ t ≠ 0 ∧
      StandsAt q d (y :: after) ((t, (Atom.bracket negate first items).language) :: es) := by
  have htype : p.lookahead.type = .openbracket :=
    (hs.position.step ⟨by decide, by decide, by decide⟩).1
  obtain ⟨s, k, hrun, hat⟩ := bracketOperand_rests hs.position hy hfuel
  have hg := hs.holds.grown.rangeNfa negate ((first :: items).map BracketItem.bounds)
  refine ⟨_, _, ?_, hg.nonzero _ List.mem_cons_self,
    ⟨hat, hs.holds.push hg rfl, hs.untracked, hs.depth⟩⟩
  rw [parseSubExpression, htype]
  dsimp only
  rw [parseBracketExpression, hrun]
  rfl

/-- What stands in front of the character behind a branch begins with neither a quantifier nor an
alternative. -/
theorem BranchEnd.begins (hy : BranchEnd d y) (pieces : List Piece) (after : List Int) :
    ∃ x rest, textOf pieces ++ y :: after = x :: rest ∧ Rests x ∧ x ≠ 10 := by
  cases pieces with
  | nil =>
    refine ⟨y, after, rfl, hy.rests, ?_⟩
    rcases hy with rfl | ⟨rfl, -⟩ <;> decide
  | cons piece pieces =>
    obtain ⟨x, tail, htext, -, hstray⟩ := piece.text_head
    obtain ⟨-, h92, hends⟩ := piece.text_printed x (by rw [htext]; exact List.mem_cons_self)
    refine ⟨x, tail ++ textOf pieces ++ y :: after, ?_, ⟨h92, ?_⟩, ?_⟩
    · rw [textOf_cons, htext]
      simp
    · rw [tokenOf, hends]
      exact hstray
    · rintro rfl
      cases hends

/-- The scan over the letters stops in front of the character behind the branch. -/
theorem BranchEnd.scan_length {l mid after' : List Int} {z : Int} (hy : BranchEnd d y)
    (hsplit : l ++ y :: after = mid ++ z :: after') (hmid : ∀ z ∈ mid, plain z = true) :
    mid.length ≤ l.length := by
  have hplain : plain y = false := by
    rcases hy with rfl | ⟨rfl, -⟩ <;> rfl
  rcases List.append_eq_append_iff.mp hsplit with ⟨more, rfl, hmore⟩ | ⟨left, rfl, -⟩
  · cases more with
    | nil => simp
    | cons u more =>
      obtain ⟨rfl, -⟩ := List.cons.inj hmore
      have := hmid y (by simp)
      rw [hplain] at this
      cases this
  · rw [List.length_append]
    exact Nat.le_add_right _ _

/-- The parse of a branch begins: an operand of the language `L` is pushed, in front of some
quantifiers and the rest of the branch. -/
def Opens (fuel : Nat) (p : Parser) (d : Int) (tail : List Int) (es : List (Addr × Language Int))
    (pieces : List Piece) : Prop :=
  ∃ (q : Parser) (t : Addr) (L : Language Int) (ks : List Quantifier) (others : List Piece),
    parseSubExpression (fuel + 2) p = BehindOperand fuel q ∧ t ≠ 0 ∧
    StandsAt q d (ks.map Quantifier.sign ++ (textOf others ++ tail)) ((t, L) :: es) ∧
    languageOf pieces = ks.foldl Quantifier.apply L * languageOf others ∧
    ks.length + (textOf others).length < (textOf pieces).length

theorem textOf_single (atom : Atom) (ks : List Quantifier) (others : List Piece)
    (tail : List Int) : textOf (.single atom ks :: others) ++ tail =
      atom.text ++ (ks.map Quantifier.sign ++ (textOf others ++ tail)) := by
  rw [textOf_cons, Piece.text]
  simp

theorem length_textOf_single (atom : Atom) (ks : List Quantifier) (others : List Piece) :
    (textOf (.single atom ks :: others)).length =
      atom.text.length + (ks.length + (textOf others).length) := by
  rw [textOf_cons, Piece.text]
  simp

/-- Letters without quantifiers are taken together. -/
theorem StandsAt.opens_run {l : Int} {hl : plain l = true} {hnul : l ≠ 0} {others : List Piece}
    (hs : StandsAt p d (textOf (.single (.char l hl hnul) [] :: others) ++ y :: after) es)
    (hy : BranchEnd d y) (hfuel : (textOf (.single (.char l hl hnul) [] :: others)).length < fuel) :
    Opens fuel p d (y :: after) es (.single (.char l hl hnul) [] :: others) := by
  rw [textOf_single] at hs
  rw [length_textOf_single] at hfuel
  have hclose : plain y = false ∧ (charType y).quantifies = false ∧ y ≠ 10 := by
    rcases hy with rfl | ⟨rfl, -⟩ <;> exact ⟨by decide, by decide, by decide⟩
  obtain ⟨mid, z, after', hsplit, hmid, hz, hz10, htaken, hbehind⟩ :=
    takenOf_textOf l others hclose.1 hclose.2.1 hclose.2.2 after
  obtain ⟨hplain, htext, -, -⟩ := run_spec others
  obtain ⟨-, -, hlanguage, -⟩ := run_spec (.single (.char l hl hnul) [] :: others)
  have hshort : (textOf (behindRun others)).length ≤ (textOf others).length := by
    rw [htext, List.length_append]
    exact Nat.le_add_left _ _
  have hscan := hy.scan_length hsplit hmid
  have hletters : ∀ z ∈ takenOf l (textOf others ++ y :: after), plain z = true := by
    rw [htaken]
    exact List.forall_mem_cons.mpr ⟨hl, hplain⟩
  obtain ⟨q, t, hq, ht, hs'⟩ := StandsAt.literal hs hl hnul hsplit hmid hz hz10 hletters
    (show mid.length < fuel by omega)
  have hword : takenOf l ([].append (List.map Quantifier.sign [] ++ (textOf others ++ y :: after)))
      = l :: runOf others := htaken
  refine ⟨q, t, {l :: runOf others}, [], behindRun others, hq, ht, ?_, hlanguage, ?_⟩
  · rw [hword] at hs'
    rw [List.map_nil, List.nil_append, ← hbehind]
    exact hs'
  · rw [length_textOf_single]
    simp only [Atom.text, List.length_cons, List.length_nil]
    omega

/-- A letter with quantifiers is an operand of its own. -/
theorem StandsAt.opens_letter {l : Int} {hl : plain l = true} {hnul : l ≠ 0} {k : Quantifier}
    {ks : List Quantifier} {others : List Piece}
    (hs : StandsAt p d (textOf (.single (.char l hl hnul) (k :: ks) :: others) ++ y :: after) es)
    (hfuel : 0 < fuel) :
    Opens fuel p d (y :: after) es (.single (.char l hl hnul) (k :: ks) :: others) := by
  rw [textOf_single] at hs
  have hsign : plain k.sign = false ∧ k.sign ≠ 10 := by
    cases k <;> exact ⟨rfl, by decide⟩
  have htaken : takenOf l (k.sign :: (ks.map Quantifier.sign ++ (textOf others ++ y :: after))) =
      [l] := takenOf_single hsign.1
  have hletters : ∀ z ∈ takenOf l (k.sign :: (ks.map Quantifier.sign ++
      (textOf others ++ y :: after))), plain z = true := by
    rw [htaken]
    exact List.forall_mem_singleton.mpr hl
  obtain ⟨q, t, hq, ht, hs'⟩ := StandsAt.literal hs hl hnul (List.nil_append _).symm
    (List.forall_mem_nil _) hsign.1 hsign.2 hletters hfuel
  refine ⟨q, t, {[l]}, k :: ks, others, hq, ht, ?_, ?_, ?_⟩
  · have hword : takenOf l ([].append ((k :: ks).map Quantifier.sign ++
        (textOf others ++ y :: after))) = [l] := htaken
    rw [behindTaken, hword] at hs'
    exact hs'
  · rw [languageOf_cons, Piece.language]
    rfl
  · rw [length_textOf_single]
    exact Nat.lt_add_of_pos_left Nat.one_pos

/-- The first operand of a branch that does not begin with a group. -/
theorem StandsAt.opens {atom : Atom} {ks : List Quantifier} {others : List Piece}
    (hs : StandsAt p d (textOf (.single atom ks :: others) ++ y :: after) es) (hy : BranchEnd d y)
    (hfuel : (textOf (.single atom ks :: others)).length < fuel) :
    Opens fuel p d (y :: after) es (.single atom ks :: others) := by
  have hlanguage : languageOf (.single atom ks :: others) =
      ks.foldl Quantifier.apply atom.language * languageOf others := by
    rw [languageOf_cons, Piece.language]
  cases atom with
  | char l hl hnul =>
    cases ks with
    | nil => exact hs.opens_run hy hfuel
    | cons k ks => exact hs.opens_letter (Nat.zero_lt_of_lt hfuel)
  | any =>
    rw [textOf_single] at hs
    obtain ⟨q, t, hq, ht, hs'⟩ := StandsAt.any fuel hs
    refine ⟨q, t, _, ks, others, hq, ht, hs', hlanguage, ?_⟩
    rw [length_textOf_single]
    exact Nat.lt_add_of_pos_left Nat.one_pos
  | bracket negate first items =>
    rw [textOf_single] at hs
    rw [length_textOf_single] at hfuel
    have hbehind : ∃ x rest, ks.map Quantifier.sign ++ (textOf others ++ y :: after) = x :: rest ∧
        x ≠ 10 := by
      cases ks with
      | nil =>
        obtain ⟨x, rest, hnext, -, hx10⟩ := hy.begins others after
        exact ⟨x, rest, hnext, hx10⟩
      | cons k ks => exact ⟨k.sign, _, rfl, by cases k <;> decide⟩
    obtain ⟨x, rest, hx, hx10⟩ := hbehind
    rw [hx] at hs
    have hitems : (first :: items).length < fuel := by
      have := BracketItem.length_le (first :: items)
      simp only [Atom.text, List.length_cons, List.length_append] at this hfuel ⊢
      omega
    obtain ⟨q, t, hq, ht, hs'⟩ := hs.bracket hx10 hitems
    rw [← hx] at hs'
    refine ⟨q, t, _, ks, others, hq, ht, hs', hlanguage, ?_⟩
    rw [length_textOf_single]
    exact Nat.lt_add_of_pos_left (by simp [Atom.text])

/-- A group no backreference names is not marked. -/
theorem trackCaptureGroup_untracked (hmap : p.cgrpMap = fun _ => false) (isEnd : Bool) :
    p.trackCaptureGroup isEnd =
      (false, if isEnd then { p with currentCgrp := p.currentCgrp - 1 } else p) := by
  have hret : p.cgrpHasBackref p.currentCgrp = false := by
    rw [cgrpHasBackref, hmap]
    exact ite_self _
  unfold trackCaptureGroup
  rw [hret]
  cases isEnd <;> rfl

/-- Behind its opening parenthesis a group begins with a separator. -/
theorem StandsAt.openParen (hs : StandsAt p d (40 :: text) es) :
    StandsAt (p.updateOpenParenAccounting.2.consumeToken.push 0) (d + 1) text ((0, 1) :: es) ∧
      p.updateOpenParenAccounting.2.symbolStack.length = es.length := by
  have hopen : p.updateOpenParenAccounting.2 = { p with
      inNewCgrp := true
      parenCount := p.parenCount + 1
      cgrpCount := p.cgrpCount + 1
      currentCgrp := p.cgrpCount + 1
      parenStack := Function.update p.parenStack p.parenIdx (p.cgrpCount + 1)
      parenIdx := p.parenIdx + 1
      subtreeBranchCount := 0 } :=
    congrArg (fun r : Bool × Parser => { r.2 with subtreeBranchCount := 0 })
      (trackCaptureGroup_untracked (p := { p with
        inNewCgrp := true
        parenCount := p.parenCount + 1
        cgrpCount := p.cgrpCount + 1
        currentCgrp := p.cgrpCount + 1
        parenStack := Function.update p.parenStack p.parenIdx (p.cgrpCount + 1)
        parenIdx := p.parenIdx + 1 }) hs.untracked false)
  have hat := (hs.position.step ⟨by decide, by decide, by decide⟩).2
  rw [hopen]
  refine ⟨⟨hat.congr rfl rfl, hs.holds.separate.congr rfl rfl, hs.untracked, ?_⟩, ?_⟩
  · exact congrArg (· + 1) hs.depth
  · exact (congrArg List.length hs.holds.stack).trans (List.length_map _)

/-- What a group pushed is joined to one operand. -/
theorem StandsAt.leaveGroup {seg : List (Addr × Language Int)}
    (hs : StandsAt p d text ((t, M) :: (seg ++ es))) (ht : t ≠ 0) : ∃ t', t' ≠ 0 ∧
      StandsAt (p.leaveGroup false es.length) d text ((t', product ((t, M) :: seg)) :: es) := by
  have hg := hs.holds.grown
  rw [automata_cons ht] at hg
  have hbelow : p.symbolStack.tail = (seg ++ es).map Prod.fst :=
    congrArg List.tail hs.holds.stack
  have htop : p.symbolStack.headD 0 = t := by
    rw [hs.holds.stack]
    rfl
  have hlength : p.symbolStack.tail.length - es.length = seg.length := by
    rw [hbelow, List.length_map, List.length_append]
    omega
  have hsep := (List.forall_mem_cons.mp hs.holds.separator).2
  obtain ⟨t', c, hjoin, hg'⟩ := Holds.joinGroup (p := p.pop.2) hbelow hg hsep
  have ht' : t' ≠ 0 := hg'.nonzero (t', product ((t, M) :: seg)) (by simp)
  have hleave : p.leaveGroup false es.length =
      { p.pop.2 with ctrl := c, symbolStack := es.map Prod.fst }.push t' := by
    have hrun : Parser.joinGroup (p.symbolStack.tail.length - es.length) (p.symbolStack.headD 0)
        p.pop.2 = (t', { p.pop.2 with ctrl := c, symbolStack := es.map Prod.fst }) := by
      rw [hlength, htop]
      exact hjoin
    exact congrArg (fun r : Addr × Parser => r.2.push r.1) hrun
  refine ⟨t', ht', ?_⟩
  rw [hleave]
  refine ⟨hs.position.congr rfl rfl, ⟨rfl, ?_, ?_⟩, hs.untracked, hs.depth⟩
  · rw [automata_cons ht']
    exact hg'
  · refine List.forall_mem_cons.mpr ⟨fun hzero => absurd hzero ht', fun e he => ?_⟩
    exact hsep e (List.mem_append_right _ he)

/-- At its closing parenthesis a group is left. -/
theorem StandsAt.closeParen {seg : List (Addr × Language Int)} (saved : Int) (entered : Bool)
    (hs : StandsAt p (d + 1) (41 :: text) ((t, M) :: (seg ++ es))) (ht : t ≠ 0) (hd : 0 ≤ d) :
    ∃ q t', p.closeParen saved entered es.length = .ok q ∧ t' ≠ 0 ∧
      StandsAt q d text ((t', product ((t, M) :: seg)) :: es) := by
  obtain ⟨htype, hat⟩ := hs.position.step ⟨by decide, by decide, by decide⟩
  have hcount : p.parenCount ≠ 0 := by
    rw [hs.depth]
    omega
  have hs' : StandsAt (({ p with currentCgrp := p.currentCgrp - 1 } :
      Parser).updateCloseParenAccounting saved entered) d text ((t, M) :: (seg ++ es)) := by
    refine ⟨hat.congr rfl rfl, hs.holds.congr rfl rfl, hs.untracked, ?_⟩
    show p.parenCount - 1 = d
    rw [hs.depth]
    omega
  obtain ⟨t', ht', hleft⟩ := hs'.leaveGroup ht
  refine ⟨_, t', ?_, ht', hleft⟩
  rw [Parser.closeParen, if_pos (show p.lookahead.type = .closeparen from htype), if_neg hcount,
    trackCaptureGroup_untracked hs.untracked]
  rfl

/-! ## Branches -/

/-- A branch is parsed up to the character behind it. The automata above the entries `es` spell the
language `N`. -/
def Parsed (fuel : Nat) (p : Parser) (d : Int) (tail : List Int)
    (es : List (Addr × Language Int)) (N : Language Int) : Prop :=
  ∃ (q : Parser) (t : Addr) (M : Language Int) (seg : List (Addr × Language Int)),
    parseSubExpression fuel p = .ok q ∧ t ≠ 0 ∧ StandsAt q d tail ((t, M) :: (seg ++ es)) ∧
    product ((t, M) :: seg) = N

/-- The branches whose text is shorter than `n` are parsed. -/
def ParsesBelow (n : Nat) : Prop :=
  ∀ {fuel : Nat} {p : Parser} {d y : Int} {es : List (Addr × Language Int)} {after : List Int}
    (first : Piece) (others : List Piece),
    StandsAt p d (textOf (first :: others) ++ y :: after) es → BranchEnd d y → 0 ≤ d →
    (textOf (first :: others)).length < n → 2 * (textOf (first :: others)).length + 2 ≤ fuel →
    Parsed fuel p d (y :: after) es.tail (product (es.take 1) * languageOf (first :: others))

/-- The rest of a branch behind one of its operands. -/
theorem ParsesBelow.behind {n : Nat} (ih : ParsesBelow n) {others : List Piece}
    (hs : StandsAt p d (textOf others ++ y :: after) ((t, L) :: es)) (ht : t ≠ 0)
    (hy : BranchEnd d y) (hd : 0 ≤ d) (hlen : (textOf others).length < n)
    (hfuel : 2 * (textOf others).length + 2 ≤ fuel) :
    Parsed fuel p d (y :: after) es (L * languageOf others) := by
  cases others with
  | nil =>
    obtain ⟨fuel, rfl⟩ := Nat.exists_eq_add_of_le' (Nat.one_le_of_lt hfuel)
    refine ⟨p, t, L, [], hs.branchEnd hy, ht, hs, ?_⟩
    rw [product, product, one_mul, languageOf, mul_one]
  | cons first others =>
    have hrest := ih first others hs hy hd hlen hfuel
    rwa [List.take_succ_cons, List.take_zero, product, product, one_mul, List.tail_cons] at hrest

theorem take_one_append_tail {α : Type} (l : List α) : l.take 1 ++ l.tail = l := by
  cases l <;> rfl

/-- The operand on the top and the one below are joined behind every operand but a group. -/
theorem StandsAt.joinTop {seg : List (Addr × Language Int)}
    (hs : StandsAt p d text ((t, M) :: (seg ++ es))) (ht : t ≠ 0) :
    ∃ t' M' seg', t' ≠ 0 ∧ StandsAt p.concatenateTop d text ((t', M') :: (seg' ++ es.tail)) ∧
      product ((t', M') :: seg') = product (es.take 1) * product ((t, M) :: seg) := by
  obtain ⟨t', ht', hjoin⟩ := hs.holds.concatenateTop ht
  have hstands : StandsAt p.concatenateTop d text
      ((t', product ((seg ++ es).take 1) * M) :: (seg ++ es).tail) :=
    ⟨hs.position.congr rfl rfl, hjoin, hs.untracked, hs.depth⟩
  cases seg with
  | nil =>
    refine ⟨t', product (es.take 1) * M, [], ht', hstands, ?_⟩
    rw [product, product, product, product, one_mul, one_mul]
  | cons e seg =>
    refine ⟨t', e.2 * M, seg ++ es.take 1, ht', ?_, ?_⟩
    · have hone : product ((e :: seg ++ es).take 1) = e.2 := one_mul e.2
      rw [hone] at hstands
      rw [List.append_assoc, take_one_append_tail]
      exact hstands
    · simp only [product, product_append, mul_assoc]

theorem length_textOf_pos (first : Piece) (others : List Piece) :
    0 < (textOf (first :: others)).length := by
  obtain ⟨x, tail, htext, -⟩ := first.text_head
  rw [textOf_cons, htext]
  exact Nat.succ_pos _

/-- A branch may begin an expression. -/
theorem StandsAt.start {first : Piece} {others : List Piece}
    (hs : StandsAt p d (textOf (first :: others) ++ text) es) :
    regexParserStart (fuel + 1) p = parseSubExpression fuel p := by
  obtain ⟨x, tail, htext, hstarts, -⟩ := first.text_head
  have hprinted := first.text_printed x (by rw [htext]; exact List.mem_cons_self)
  rw [textOf_cons, htext] at hs
  have htype := (At.step hs.position hprinted).1
  rw [regexParserStart, htype, if_pos hstarts]

/-- A branch that begins with a letter, a point or a bracket expression. -/
theorem ParsesBelow.single {n : Nat} (ih : ParsesBelow n) {atom : Atom} {ks : List Quantifier}
    {others : List Piece}
    (hs : StandsAt p d (textOf (.single atom ks :: others) ++ y :: after) es) (hy : BranchEnd d y)
    (hd : 0 ≤ d) (hlen : (textOf (.single atom ks :: others)).length ≤ n)
    (hfuel : 2 * (textOf (.single atom ks :: others)).length + 2 ≤ fuel) :
    Parsed fuel p d (y :: after) es.tail
      (product (es.take 1) * languageOf (.single atom ks :: others)) := by
  obtain ⟨fuel, rfl⟩ := Nat.exists_eq_add_of_le' (show 2 ≤ fuel by omega)
  have hpos := length_textOf_pos (.single atom ks) others
  obtain ⟨q, t, L, ks', others', hrun, ht, hs₁, hlanguage, hshort⟩ :=
    hs.opens hy (show (textOf (.single atom ks :: others)).length < fuel by omega)
  obtain ⟨x, rest, hx, hrests, -⟩ := hy.begins others' after
  rw [hx] at hs₁
  obtain ⟨q₂, t₂, hquantify, ht₂, hs₂⟩ := hs₁.quantifiers ks' ht hrests
    (show ks'.length < fuel by omega)
  rw [← hx] at hs₂
  obtain ⟨q₃, t₃, M, seg, hrest, ht₃, hs₃, hproduct⟩ :=
    ih.behind hs₂ ht₂ hy hd (by omega)
      (show 2 * (textOf others').length + 2 ≤ fuel + 1 by omega)
  obtain ⟨t', M', seg', ht', hs', hproduct'⟩ := hs₃.joinTop ht₃
  refine ⟨q₃.concatenateTop, t', M', seg', ?_, ht', hs', ?_⟩
  · rw [hrun, BehindOperand, hquantify]
    exact congrArg (· >>= fun p => Except.ok (Parser.concatenateTop p)) hrest
  · rw [hproduct', hproduct, hlanguage]

/-- A branch that begins with a group. -/
theorem ParsesBelow.group {n : Nat} (ih : ParsesBelow n) {first : Piece} {inner : List Piece}
    {ks : List Quantifier} {others : List Piece}
    (hs : StandsAt p d (textOf (.group first inner ks :: others) ++ y :: after) es)
    (hy : BranchEnd d y) (hd : 0 ≤ d) (hlen : (textOf (.group first inner ks :: others)).length ≤ n)
    (hfuel : 2 * (textOf (.group first inner ks :: others)).length + 2 ≤ fuel) :
    Parsed fuel p d (y :: after) es.tail
      (product (es.take 1) * languageOf (.group first inner ks :: others)) := by
  have htext : textOf (.group first inner ks :: others) ++ y :: after =
      40 :: (textOf (first :: inner) ++
        41 :: (ks.map Quantifier.sign ++ (textOf others ++ y :: after))) := by
    rw [textOf_cons, Piece.text, textOf_cons]
    simp
  have hlength : (textOf (.group first inner ks :: others)).length =
      (textOf (first :: inner)).length + ks.length + (textOf others).length + 2 := by
    rw [textOf_cons, Piece.text, textOf_cons]
    simp
    omega
  have hlanguage : languageOf (.group first inner ks :: others) =
      ks.foldl Quantifier.apply (languageOf (first :: inner)) * languageOf others := by
    rw [languageOf_cons, Piece.language, languageOf_cons]
  obtain ⟨fuel, rfl⟩ := Nat.exists_eq_add_of_le' (show 4 ≤ fuel by omega)
  rw [htext] at hs
  have htype : p.lookahead.type = .openparen :=
    (hs.position.step ⟨by decide, by decide, by decide⟩).1
  obtain ⟨hs₁, hsize⟩ := hs.openParen
  -- the branch inside the group
  obtain ⟨q₂, t₂, M₂, seg₂, hinner, ht₂, hs₂, hproduct₂⟩ :=
    ih first inner hs₁ (.inr ⟨rfl, by omega⟩) (by omega) (by omega)
      (show 2 * (textOf (first :: inner)).length + 2 ≤ fuel + 1 by omega)
  rw [List.tail_cons] at hs₂
  obtain ⟨q₃, t₃, hclose, ht₃, hs₃⟩ := hs₂.closeParen p.updateOpenParenAccounting.1
    p.updateOpenParenAccounting.2.inNewCgrp ht₂ hd
  rw [hproduct₂, List.take_succ_cons, List.take_zero, product, product, one_mul, one_mul] at hs₃
  obtain ⟨x, rest, hx, hrests, -⟩ := hy.begins others after
  rw [hx] at hs₃
  obtain ⟨q₄, t₄, hquantify, ht₄, hs₄⟩ := hs₃.quantifiers ks ht₃ hrests
    (show ks.length < fuel + 2 by omega)
  rw [← hx] at hs₄
  -- the rest of the branch behind the group
  obtain ⟨q, t, M, seg, hrest, ht, hs₅, hproduct⟩ :=
    ih.behind hs₄ ht₄ hy hd (by omega)
      (show 2 * (textOf others).length + 2 ≤ fuel + 3 by omega)
  refine ⟨q, t, M, seg ++ es.take 1, ?_, ht, ?_, ?_⟩
  · have hstart : regexParserStart (fuel + 2)
        (p.updateOpenParenAccounting.2.consumeToken.push 0) = .ok q₂ := by
      rw [hs₁.start]
      exact hinner
    have hparen : parseParenExpression (fuel + 3) p = .ok q₄ := by
      rw [parseParenExpression]
      refine (congrArg (· >>= _) hstart).trans ?_
      rw [← hsize] at hclose
      exact (congrArg (· >>= _) hclose).trans hquantify
    rw [parseSubExpression, htype]
    exact (congrArg (· >>= _) hparen).trans hrest
  · rw [List.append_assoc, take_one_append_tail]
    exact hs₅
  · rw [product] at hproduct
    rw [product, product_append, mul_assoc, hproduct, hlanguage]

/-- A branch is parsed whatever stands behind it. -/
theorem parsesBelow (n : Nat) : ParsesBelow n := by
  induction n with
  | zero => exact fun _ _ _ _ _ hlen => absurd hlen (Nat.not_lt_zero _)
  | succ n ih =>
    intro fuel p d y es after first others hs hy hd hlen hfuel
    cases first with
    | single atom ks => exact ih.single hs hy hd (Nat.le_of_lt_succ hlen) hfuel
    | group first inner ks => exact ih.group hs hy hd (Nat.le_of_lt_succ hlen) hfuel

end Parser

end Recognizer
