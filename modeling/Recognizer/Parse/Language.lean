import Recognizer.Core.WordPath
import Recognizer.Parse.Constructors
import Recognizer.Source.Simulator

/-!
# The constructors build the automaton of the expression

Automata are built bottom-up on one allocator, each used once. An automaton spells
the language of the expression it was built for; the nodes that its operands share
with nobody are the reason why writing to them changes no other automaton.
-/

namespace Recognizer

open WordPath
open scoped Computability

variable {c c' : NFACtrl} {h h' : Heap} {live : Finset Addr} {roots rest : List Addr}
  {frag : Addr → Addr} {r s t body : Addr}

/-- The test of `thread_step` on a character, without case folding. -/
def NFA.Reads (n : NFA) (ch : Int) : Prop :=
  match n.type with
  | .any => ch ≠ eolSymbol
  | .literal => ch = n.literal
  | .range => ch ≠ eolSymbol ∧ isLiteralInRange n.range ch = true
  | _ => False

instance (n : NFA) (ch : Int) : Decidable (n.Reads ch) :=
  decidable_of_iff (n.type = .any ∧ ch ≠ eolSymbol ∨ n.type = .literal ∧ ch = n.literal ∨
      n.type = .range ∧ ch ≠ eolSymbol ∧ isLiteralInRange n.range ch = true) <| by
    unfold NFA.Reads
    cases n.type <;> simp

/-- The successors of a node without a character: `out2` of an `EPSILON` node, both of
a `SPLIT` node. -/
def NFA.Silent (n : NFA) (b : Addr) : Prop :=
  n.type = .epsilon ∧ b = n.out2 ∨ n.type = .split ∧ (b = n.out1 ∨ b = n.out2)

/-- The automaton in the memory of the nodes. -/
def patternGraph (h : Heap) : WordPath.Graph Addr Int where
  silent a b := (h a).Silent b
  reads a ch b := (h a).Reads ch ∧ b = (h a).out2

/-- The words between the start node of an automaton and its accepting node. -/
def spelled (c : NFACtrl) (t : Addr) : Language Int :=
  language (patternGraph c.heap) (c.heap t).parent t

/-- `thread_step` goes on to the successors exactly when the node reads the character. -/
theorem threadStep_reads (E : Env) (fuel : Nat) (sim : NFASim) (ctrl : NFASimCtrl)
    (hcase : E.flags.ignoreCase = false) (hinput : E.input ctrl ≠ 0)
    (htype : (E.heap sim.ip).type = .any ∨ (E.heap sim.ip).type = .literal ∨
      (E.heap sim.ip).type = .range) :
    threadStep E fuel sim ctrl =
      if (E.heap sim.ip).Reads (E.input ctrl) then
        stepAdjacents E fuel (updateMatch sim ctrl.curPos) .next (ctrl.curPos + 1)
          (ctrl.stamp (E.heap sim.ip).id 0)
      else some (setStatus sim (-1), ctrl.stamp (E.heap sim.ip).id 0) := by
  have hin : E.input (ctrl.stamp (E.heap sim.ip).id 0) = E.input ctrl := rfl
  have hpos : (ctrl.stamp (E.heap sim.ip).id 0).curPos = ctrl.curPos := rfl
  unfold threadStep
  rcases htype with ht | ht | ht
  all_goals simp [ht, hin, hpos, hinput, NFA.Reads, Env.instToken, hcase]

/-- Nodes of one type with the same pointers and labels have the same edges. -/
theorem sameEdgesAt_of_eq {a b : Addr} (htype : (h' a).type = (h b).type)
    (hout1 : (h' a).out1 = (h b).out1) (hout2 : (h' a).out2 = (h b).out2)
    (hliteral : (h' a).literal = (h b).literal) (hrange : (h' a).range = (h b).range) :
    SameEdgesAt (patternGraph h') (patternGraph h) a b := by
  constructor
  · intro x
    simp only [patternGraph, NFA.Silent, htype, hout1, hout2]
  · intro ch x
    simp only [patternGraph, NFA.Reads, htype, hout2, hliteral, hrange]

theorem sameEdgesAt_of_heap_eq {a b : Addr} (heq : h' a = h b) :
    SameEdgesAt (patternGraph h') (patternGraph h) a b :=
  sameEdgesAt_of_eq (by rw [heq]) (by rw [heq]) (by rw [heq]) (by rw [heq]) (by rw [heq])

/-- The edges of the automaton are pointers of its nodes. -/
theorem mem_targets_of_edge {a b : Addr}
    (hedge : (patternGraph h).silent a b ∨ ∃ ch, (patternGraph h).reads a ch b) :
    b ∈ (h a).targets := by
  rcases hedge with hsilent | ⟨ch, hreads, rfl⟩
  · rcases hsilent with ⟨ht, rfl⟩ | ⟨ht, rfl | rfl⟩
    all_goals simp [NFA.targets, ht]
  · unfold NFA.Reads at hreads
    unfold NFA.targets
    cases ht : (h a).type
    all_goals simp_all

theorem final_of_accepting {a : Addr} (ht : (h a).type = .accepting) :
    Final (patternGraph h) a :=
  ⟨fun _ hedge => by simpa [NFA.targets, ht] using mem_targets_of_edge (Or.inl hedge),
    fun ch _ hedge => by simpa [NFA.targets, ht] using mem_targets_of_edge (Or.inr ⟨ch, hedge⟩)⟩

/-- The nodes of an automaton. -/
def nodesOf (live : Finset Addr) (frag : Addr → Addr) (r : Addr) : Set Addr :=
  {a | a ∈ live ∧ frag a = r}

namespace Shape

/-- An automaton is a region that ends at its accepting node. -/
theorem region (hS : Shape h roots live frag) (hr : r ∈ roots) :
    Region (patternGraph h) (nodesOf live frag r) r := by
  obtain ⟨hlive, hfrag, htype⟩ := hS.root r hr
  have hclosed : ∀ a ∈ nodesOf live frag r, ∀ b ∈ (h a).targets, b ∈ nodesOf live frag r := by
    rintro a ⟨hal, haf⟩ b hb
    obtain ⟨hbl, hbf, -⟩ := hS.target a hal b hb
    exact ⟨hbl, hbf.trans haf⟩
  exact ⟨⟨hlive, hfrag⟩, final_of_accepting htype,
    fun a ha b hedge => hclosed a ha b (mem_targets_of_edge (Or.inl hedge)),
    fun a ha ch b hedge => hclosed a ha b (mem_targets_of_edge (Or.inr ⟨ch, hedge⟩))⟩

theorem start_mem (hS : Shape h roots live frag) (hr : r ∈ roots) :
    (h r).parent ∈ nodesOf live frag r :=
  ⟨(hS.start r hr).1, (hS.start r hr).2.1⟩

end Shape

/-- An automaton whose nodes are not written keeps its language. -/
theorem Owned.spelled_eq (ho : Owned c roots live frag) (hr : r ∈ roots)
    (hsame : ∀ a ∈ live, frag a = r → c'.heap a = c.heap a) : spelled c' r = spelled c r := by
  have hroot := ho.shape.root r hr
  unfold spelled
  rw [hsame r hroot.1 hroot.2.1]
  refine (ho.shape.region hr).language_congr (fun a ha _ => ?_) ?_ (ho.shape.start_mem hr)
  · exact sameEdgesAt_of_heap_eq (hsame a ha.1 ha.2)
  · refine final_of_accepting ?_
    rw [hsame r hroot.1 hroot.2.1]
    exact hroot.2.2

/-- What a fresh pair of nodes leaves of the automata there are. -/
theorem Owned.spelled_newPair (ho : Owned c roots live frag) (hnew : NewPair c' live t s)
    (hsame : ∀ x, x ≠ t → x ≠ s → c'.heap x = c.heap x) (hr : r ∈ roots) :
    spelled c' r = spelled c r :=
  ho.spelled_eq hr fun a ha _ =>
    hsame a (fun h => hnew.root (h ▸ ha)) fun h => hnew.start (h ▸ ha)

/-- A start node that reads a letter and leads to the accepting node. -/
theorem spelled_atom (ht : (c'.heap t).type = .accepting) (hparent : (c'.heap t).parent = s)
    (hout : (c'.heap s).out2 = t) (hne : s ≠ t)
    (htype : (c'.heap s).type = .any ∨ (c'.heap s).type = .literal ∨ (c'.heap s).type = .range) :
    spelled c' t = {v | ∃ ch, (c'.heap s).Reads ch ∧ v = [ch]} := by
  have hfinal : Final (patternGraph c'.heap) t := final_of_accepting ht
  unfold spelled
  rw [hparent]
  refine language_read (fun y hedge => ?_) (fun ch y => ?_) hfinal hne
  · rcases htype with h | h | h <;> simp [patternGraph, NFA.Silent, h] at hedge
  · simp only [patternGraph, hout]

section Wrapped

variable {ns nb : NFA} (ho : Owned c (body :: rest) live frag)
  (hw : Wrapped c c' live body t s ns nb)

include ho hw

/-- Wrapping an operand leaves the other automata. -/
theorem Owned.spelled_wrapped_rest (hr : r ∈ rest) : spelled c' r = spelled c r := by
  have hbody := ho.shape.root body (by simp)
  have hne : r ≠ body := fun hrb => (List.nodup_cons.mp ho.shape.nodup).1 (hrb ▸ hr)
  refine ho.spelled_eq (List.mem_cons_of_mem _ hr) fun a ha haf => hw.same a ?_ ?_ ?_
  · exact fun h => hw.root (h ▸ ha)
  · exact fun h => hw.start (h ▸ ha)
  · rintro rfl
    exact hne (haf.symm.trans hbody.2.1)

omit ho in
/-- Inside a wrapped operand only the edges of its accepting node have changed. -/
theorem Wrapped.sameEdgesAt (a : Addr) (ha : a ∈ nodesOf live frag body) (hne : a ≠ body) :
    SameEdgesAt (patternGraph c'.heap) (patternGraph c.heap) a a :=
  sameEdgesAt_of_heap_eq (hw.same a (fun h => hw.root (h ▸ ha.1)) (fun h => hw.start (h ▸ ha.1)) hne)

omit ho in
theorem Wrapped.final : Final (patternGraph c'.heap) t :=
  final_of_accepting (by rw [hw.root_eq]; rfl)

/-- From its start node, a wrapped operand spells its words and goes on behind them. -/
theorem Owned.language_wrapped :
    language (patternGraph c'.heap) (c.heap body).parent t =
      spelled c body * language (patternGraph c'.heap) body t :=
  (ho.shape.region (by simp)).language_exit (Wrapped.sameEdgesAt hw) (ho.shape.start_mem (by simp))
    fun ht => hw.root ht.1

/-- An operand in a loop behind a `'?'` split or an `EPSILON` node. -/
theorem Owned.language_looped {x : Addr} (hx : x ∈ nodesOf live frag body)
    (hback : language (patternGraph c.heap) x body = spelled c body) (htype : nb.type = .split)
    (hout1 : nb.out1 = x) (hout2 : nb.out2 = t) :
    language (patternGraph c'.heap) body t = (spelled c body)∗ := by
  refine (ho.shape.region (by simp)).language_loop (Wrapped.sameEdgesAt hw) hx hback (fun y => ?_)
    (fun ch y hedge => ?_) (Wrapped.final hw) fun ht => hw.root ht.1
  · simp [patternGraph, NFA.Silent, hw.body_eq, htype, hout1, hout2]
  · simp [patternGraph, NFA.Reads, hw.body_eq, htype] at hedge

omit ho in
/-- A new `'?'` split in front of an operand. -/
theorem Wrapped.spelled_split (htype : ns.type = .split) (hout1 : ns.out1 = t)
    (hout2 : ns.out2 = (c.heap body).parent) :
    spelled c' t = 1 + language (patternGraph c'.heap) (c.heap body).parent t := by
  have hparent : (c'.heap t).parent = s := by rw [hw.root_eq]
  unfold spelled
  rw [hparent, ← language_final (Wrapped.final hw)]
  refine language_split (fun y => ?_) (fun ch y hedge => ?_) hw.ne
  · simp [patternGraph, NFA.Silent, hw.start_eq, htype, hout1, hout2]
  · simp [patternGraph, NFA.Reads, hw.start_eq, htype] at hedge

end Wrapped

/-- The head of an operand's loop spells what the operand's start node spells. -/
theorem Owned.tighten_spelled {c₃ : NFACtrl} (ho : Owned c (body :: rest) live frag)
    (ht : Tightens c c₃ live body) :
    c₃.tighten (c.heap body).parent ∈ nodesOf live frag body ∧
      language (patternGraph c.heap) (c₃.tighten (c.heap body).parent) body = spelled c body := by
  refine skipEpsilon_mem (S := fun a => a ∈ nodesOf live frag body ∧
    language (patternGraph c.heap) a body = spelled c body) ?_ _
    ⟨ho.shape.start_mem (by simp), rfl⟩
  rintro a ⟨⟨hal, haf⟩, hlang⟩ htype
  have hab : a ≠ body := fun h => ht.2 (h ▸ htype)
  rw [ht.1 a hal hab] at htype ⊢
  obtain ⟨hbl, hbf, -⟩ := ho.shape.target a hal (c.heap a).out2 (by simp [NFA.targets, htype])
  refine ⟨fun h => ho.alloc.zero_notMem (h ▸ hbl), ⟨hbl, hbf.trans haf⟩, ?_⟩
  rw [← hlang]
  refine (language_silent (fun y => ?_) (fun ch y hedge => ?_) hab).symm
  · simp [patternGraph, NFA.Silent, htype]
  · simp [patternGraph, NFA.Reads, htype] at hedge

section Constructors

variable (ho : Owned c (body :: rest) live frag)

include ho

/-- `new_kleene_nfa` iterates the language of its operand. -/
theorem Owned.spelled_newKleeneNfa (hrun : c.newKleeneNfa body = (t, c')) :
    spelled c' t = (spelled c body)∗ ∧ ∀ r ∈ rest, spelled c' r = spelled c r := by
  obtain ⟨t', s, c₃, c'', hrun', htight, hw⟩ := ho.alloc.newKleeneNfa
    (ho.shape.root body (by simp)).1 (ho.shape.start body (by simp)).1
  cases hrun.symm.trans hrun'
  refine ⟨?_, fun r hr => ho.spelled_wrapped_rest hw hr⟩
  obtain ⟨hmem, hback⟩ := ho.tighten_spelled htight
  rw [Wrapped.spelled_split hw rfl rfl rfl, ho.language_wrapped hw,
    ho.language_looped hw hmem hback rfl rfl rfl, Language.one_add_self_mul_kstar_eq_kstar]

/-- `new_posclosure_nfa` iterates the language of its operand at least once. -/
theorem Owned.spelled_newPosclosureNfa (hrun : c.newPosclosureNfa body = (t, c')) :
    spelled c' t = spelled c body * (spelled c body)∗ ∧
      ∀ r ∈ rest, spelled c' r = spelled c r := by
  obtain ⟨t', s, c₃, c'', hrun', htight, hw⟩ := ho.alloc.newPosclosureNfa
    (ho.shape.root body (by simp)).1 (ho.shape.start body (by simp)).1
  cases hrun.symm.trans hrun'
  refine ⟨?_, fun r hr => ho.spelled_wrapped_rest hw hr⟩
  obtain ⟨hmem, hback⟩ := ho.tighten_spelled htight
  have hparent : (c'.heap t).parent = s := by rw [hw.root_eq]
  unfold spelled
  rw [hparent, language_silent (x := (c.heap body).parent) (fun y => ?_) (fun ch y hedge => ?_) hw.ne,
    ho.language_wrapped hw, ho.language_looped hw hmem hback rfl rfl rfl, spelled]
  · simp [patternGraph, NFA.Silent, hw.start_eq, NFA.renewed]
  · simp [patternGraph, NFA.Reads, hw.start_eq, NFA.renewed] at hedge

/-- `new_qmark_nfa` adds the empty word to the language of its operand. -/
theorem Owned.spelled_newQmarkNfa (hrun : c.newQmarkNfa body = (t, c')) :
    spelled c' t = 1 + spelled c body ∧ ∀ r ∈ rest, spelled c' r = spelled c r := by
  obtain ⟨t', s, c'', hrun', hw⟩ := ho.alloc.newQmarkNfa
    (ho.shape.root body (by simp)).1 (ho.shape.start body (by simp)).1
  cases hrun.symm.trans hrun'
  refine ⟨?_, fun r hr => ho.spelled_wrapped_rest hw hr⟩
  have hbt : body ≠ t := fun h => hw.root (h ▸ (ho.shape.root body (by simp)).1)
  have hthrough : language (patternGraph c'.heap) body t = 1 := by
    rw [language_silent (x := t) (fun y => ?_) (fun ch y hedge => ?_) hbt,
      language_final (Wrapped.final hw)]
    · simp [patternGraph, NFA.Silent, hw.body_eq]
    · simp [patternGraph, NFA.Reads, hw.body_eq] at hedge
  rw [Wrapped.spelled_split hw rfl rfl rfl, ho.language_wrapped hw, hthrough, mul_one]

end Constructors

/-- What `concatenate_nfa` writes. -/
structure Joined (c c' : NFACtrl) (prev next : Addr) : Prop where
  same : ∀ x, x ≠ prev → x ≠ next → x ≠ (c.heap next).parent → c'.heap x = c.heap x
  prev_eq : c'.heap prev = c.heap (c.heap next).parent
  next_eq : c'.heap next = { c.heap next with parent := (c.heap prev).parent }

theorem joined_concatenateNfa {prev next : Addr} (hp : prev ≠ 0) (hn : next ≠ 0)
    (hne : prev ≠ next) (hdp : (c.heap next).parent ≠ prev) (hdn : (c.heap next).parent ≠ next) :
    ∃ c', c.concatenateNfa prev next = (next, c') ∧ Joined c c' prev next := by
  refine ⟨_, by simp only [NFACtrl.concatenateNfa, if_neg hn, if_neg hp]; rfl, ?_, ?_, ?_⟩
  · intro x hxp hxn hxd
    simp [Heap.modify_of_ne, hxp, hxn, hxd]
  · simp [Heap.modify_of_ne, hne, hdp.symm]
  · simp [Heap.modify_of_ne, hne.symm, hdn.symm]

/-- Behind its start node an automaton is a region of its own. -/
theorem Shape.region_behind (hS : Shape h roots live frag) (hr : r ∈ roots) :
    Region (patternGraph h) (nodesOf live frag r \ {(h r).parent}) r := by
  have hregion := hS.region hr
  have hback : ∀ a ∈ nodesOf live frag r, ∀ b ∈ (h a).targets, b ≠ (h r).parent := by
    rintro a ⟨hal, haf⟩ b hb
    rw [← haf]
    exact (hS.target a hal b hb).2.2
  exact ⟨⟨hregion.root, (hS.start r hr).2.2.symm⟩, hregion.final,
    fun a ha b hedge => ⟨hregion.silent a ha.1 b hedge,
      hback a ha.1 b (mem_targets_of_edge (Or.inl hedge))⟩,
    fun a ha ch b hedge => ⟨hregion.reads a ha.1 ch b hedge,
      hback a ha.1 b (mem_targets_of_edge (Or.inr ⟨ch, hedge⟩))⟩⟩

/-- `concatenate_nfa` appends the language of its second operand. -/
theorem Owned.spelled_concatenateNfa {prev next : Addr}
    (ho : Owned c (prev :: next :: rest) live frag) (hp : prev ≠ 0) (hn : next ≠ 0)
    (hrun : c.concatenateNfa prev next = (t, c')) :
    t = next ∧ spelled c' t = spelled c prev * spelled c next ∧
      ∀ r ∈ rest, spelled c' r = spelled c r := by
  obtain ⟨hpl, hpf, -⟩ := ho.shape.root prev (by simp)
  obtain ⟨hnl, hnf, hnt⟩ := ho.shape.root next (by simp)
  obtain ⟨hdl, hdf, hdn⟩ := ho.shape.start next (by simp)
  obtain ⟨hne, hrest⟩ : prev ≠ next ∧ prev ∉ rest ∧ next ∉ rest := by
    have := ho.shape.nodup
    simp only [List.nodup_cons, List.mem_cons, not_or] at this
    exact ⟨this.1.1, this.1.2, this.2.1⟩
  have hdp : (c.heap next).parent ≠ prev := fun h => hne (by rw [← hpf, ← h, hdf])
  obtain ⟨c'', hrun', hj⟩ := joined_concatenateNfa hp hn hne hdp hdn
  obtain ⟨rfl, rfl⟩ : next = t ∧ c'' = c' := Prod.mk.inj (hrun'.symm.trans hrun)
  have hother : ∀ a ∈ live, frag a ≠ next → a ≠ prev → c''.heap a = c.heap a := by
    intro a _ haf hap
    exact hj.same a hap (fun h => haf (h ▸ hnf)) fun h => haf (h ▸ hdf)
  refine ⟨rfl, ?_, fun r hr => ?_⟩
  · have hbehind := ho.shape.region_behind (r := next) (by simp)
    have hfinal : Final (patternGraph c''.heap) next :=
      final_of_accepting (by rw [hj.next_eq]; exact hnt)
    have hstart : spelled c'' next = language (patternGraph c''.heap) (c.heap prev).parent next := by
      rw [spelled, hj.next_eq]
    have hmoved : language (patternGraph c''.heap) prev next = spelled c next := by
      refine language_of_sameEdgesAt (sameEdgesAt_of_heap_eq hj.prev_eq) hne hdn fun x hx => ?_
      refine hbehind.language_congr (fun a ha hat => ?_) hfinal ?_
      · refine sameEdgesAt_of_heap_eq (hj.same a (fun h => hne ?_) hat fun h => ha.2 h)
        rw [← hpf, ← h, ha.1.2]
      · obtain ⟨hxl, hxf, hxs⟩ := ho.shape.target _ hdl x (mem_targets_of_edge hx)
        rw [hdf] at hxf hxs
        exact ⟨⟨hxl, hxf⟩, hxs⟩
    have hsame : ∀ a ∈ nodesOf live frag prev, a ≠ prev →
        SameEdgesAt (patternGraph c''.heap) (patternGraph c.heap) a a := fun a ha hap =>
      sameEdgesAt_of_heap_eq (hother a ha.1 (fun h => hne (ha.2.symm.trans h)) hap)
    rw [hstart, (ho.shape.region (by simp)).language_exit hsame (ho.shape.start_mem (by simp))
      (fun hin => hne (hin.2.symm.trans hnf)), hmoved]
    rfl
  · refine ho.spelled_eq (by simp [hr]) fun a ha haf => hother a ha (fun h => hrest.2 ?_) fun h =>
      hrest.1 ?_
    · rwa [← haf, h] at hr
    · rw [h, hpf] at haf
      rwa [haf]

/-- An expression over the constructors. A range is given by the pairs of bounds
`update_range_nfa` is called with. -/
inductive Expression where
  | literal (ch : Int)
  | any
  | range (negate : Bool) (bounds : List (Nat × Nat))
  | lliteral (ch : Int) (src : List Int)
  | concatenate (e e' : Expression)
  | kleene (e : Expression)
  | posclosure (e : Expression)
  | qmark (e : Expression)

/-- Whether a character is in a range. -/
def InRange (negate : Bool) (bounds : List (Nat × Nat)) (ch : Int) : Prop :=
  0 ≤ ch ∧ ch < 128 ∧
    if negate then ∀ b ∈ bounds, ¬ ((b.1 : Int) ≤ ch ∧ ch ≤ b.2)
    else ∃ b ∈ bounds, (b.1 : Int) ≤ ch ∧ ch ≤ b.2

/-- The language of an expression. -/
def Expression.language : Expression → Language Int
  | .literal ch => {[ch]}
  | .any => {v | ∃ ch, ch ≠ eolSymbol ∧ v = [ch]}
  | .range negate bounds => {v | ∃ ch, InRange negate bounds ch ∧ v = [ch]}
  | .lliteral ch src => {ch :: src}
  | .concatenate e e' => e.language * e'.language
  | .kleene e => e.language∗
  | .posclosure e => e.language * e.language∗
  | .qmark e => 1 + e.language

/-- `new_range_nfa`, and `update_range_nfa` on its start node for each pair of bounds. -/
def rangeNfa (c : NFACtrl) (negate : Bool) (bounds : List (Nat × Nat)) : Addr × NFACtrl :=
  let t := (c.newRangeNfa negate).1
  (t, bounds.foldl (fun c b => c.updateRangeNfa b.1 b.2 (c.heap t).parent negate)
    (c.newRangeNfa negate).2)

/-- The bits of a range after `update_range_nfa` has set or cleared those of `is`. -/
def updateBits (negate : Bool) (is : List Nat) (r : BitVec 128) : BitVec 128 :=
  is.foldl (fun r i => if negate then r &&& ~~~(1#128 <<< i) else r ||| (1#128 <<< i)) r

theorem getLsbD_updateBits (negate : Bool) (is : List Nat) (r : BitVec 128) {k : Nat}
    (hk : k < 128) :
    (updateBits negate is r).getLsbD k =
      if negate then r.getLsbD k && decide (k ∉ is) else r.getLsbD k || decide (k ∈ is) := by
  induction is generalizing r with
  | nil => cases negate <;> simp [updateBits]
  | cons i is ih =>
    have hstep : updateBits negate (i :: is) r = updateBits negate is
        (if negate then r &&& ~~~(1#128 <<< i) else r ||| (1#128 <<< i)) := rfl
    have hbit : (1#128 <<< i).getLsbD k = decide (k = i) := by
      rw [BitVec.getLsbD_shiftLeft, BitVec.getLsbD_one]
      by_cases hki : k = i
      · simp [hki, hki ▸ hk]
      · by_cases hlt : k < i
        · simp [hlt, hki]
        · simp [hlt, hki, hk]
          omega
    rw [hstep, ih]
    cases negate
    · simp [BitVec.getLsbD_or, hbit, Bool.or_assoc]
    · simp only [if_true, BitVec.getLsbD_and, BitVec.getLsbD_not, hbit]
      simp [hk, Bool.and_assoc]

theorem NFACtrl.modify_modify (c : NFACtrl) (a : Addr) (f g : NFA → NFA) :
    (c.modify a f).modify a g = c.modify a fun x => g (f x) := by
  simp [NFACtrl.modify, Heap.modify]

theorem updateRangeNfa_eq (c : NFACtrl) (low high : Nat) (n : Addr) (negate : Bool) :
    c.updateRangeNfa low high n negate = c.modify n fun x =>
      { x with range := updateBits negate (List.range' low (high + 1 - low)) x.range } := by
  unfold NFACtrl.updateRangeNfa
  generalize List.range' low (high + 1 - low) = is
  induction is generalizing c with
  | nil => simp [NFACtrl.modify, Heap.modify, updateBits]
  | cons i is ih =>
    rw [List.foldl_cons, ih, NFACtrl.modify_modify]
    rfl
/-- The values between the bounds of a list of calls. -/
def boundValues (bounds : List (Nat × Nat)) : List Nat :=
  bounds.flatMap fun b => List.range' b.1 (b.2 + 1 - b.1)

/-- All calls together write the range of the start node. -/
theorem updateRanges_eq (hts : t ≠ s) (hparent : (c.heap t).parent = s) {negate : Bool}
    {bounds : List (Nat × Nat)} :
    bounds.foldl (fun c b => c.updateRangeNfa b.1 b.2 (c.heap t).parent negate) c =
      c.modify s fun x => { x with range := updateBits negate (boundValues bounds) x.range } := by
  induction bounds generalizing c with
  | nil => simp [NFACtrl.modify, Heap.modify, updateBits, boundValues]
  | cons b bounds ih =>
    rw [List.foldl_cons, updateRangeNfa_eq, hparent, ih, NFACtrl.modify_modify]
    · simp only [updateBits, boundValues, List.flatMap_cons, List.foldl_append]
    · rw [NFACtrl.heap_modify, Heap.modify_of_ne _ hts, hparent]

/-- A range node reads the characters of its range. -/
theorem inRange_iff (negate : Bool) (bounds : List (Nat × Nat)) (ch : Int) :
    (ch ≠ eolSymbol ∧ isLiteralInRange (updateBits negate (boundValues bounds)
      (if negate then BitVec.allOnes 128 else 0)) ch = true) ↔ InRange negate bounds ch := by
  have hvalue : ∀ k : Nat, k ∈ boundValues bounds ↔ ∃ b ∈ bounds, b.1 ≤ k ∧ k ≤ b.2 := by
    intro k
    simp only [boundValues, List.mem_flatMap, List.mem_range'_1]
    refine exists_congr fun b => and_congr_right fun _ => ?_
    omega
  unfold isLiteralInRange InRange
  rw [Bool.and_eq_true, decide_eq_true_iff]
  constructor
  · rintro ⟨-, ⟨hlow, hhigh⟩, hbit⟩
    refine ⟨hlow, hhigh, ?_⟩
    obtain ⟨k, rfl⟩ := Int.eq_ofNat_of_zero_le hlow
    rw [Int.toNat_natCast, getLsbD_updateBits _ _ _ (by omega)] at hbit
    cases negate
    · simpa [hvalue] using hbit
    · rw [if_pos rfl, if_pos rfl, BitVec.getLsbD_allOnes, Bool.and_eq_true] at hbit
      simpa [hvalue] using hbit.2
  · rintro ⟨hlow, hhigh, hmem⟩
    obtain ⟨k, rfl⟩ := Int.eq_ofNat_of_zero_le hlow
    refine ⟨fun h => by simp [eolSymbol] at h, ⟨hlow, hhigh⟩, ?_⟩
    rw [Int.toNat_natCast, getLsbD_updateBits _ _ _ (by omega)]
    cases negate
    · simpa [hvalue] using hmem
    · rw [if_pos rfl, if_pos rfl, BitVec.getLsbD_allOnes, Bool.and_eq_true]
      exact ⟨decide_eq_true (by omega), by simpa [hvalue] using hmem⟩

/-- Automata built bottom-up on one allocator, in any order, with the expressions they
are built for. Each operand is used up. -/
inductive Built : NFACtrl → List (Addr × Expression) → Prop where
  | init {num : Nat} (hnum : 0 < num) : Built (({} : NFACtrl).allocInit num) []
  | perm {c : NFACtrl} {fs fs' : List (Addr × Expression)} (h : Built c fs) (hperm : fs.Perm fs') :
    Built c fs'
  | literal {c : NFACtrl} {fs : List (Addr × Expression)} (ch : Int) (h : Built c fs) :
    Built (c.newLiteralNfa ch .literal).2 (((c.newLiteralNfa ch .literal).1, .literal ch) :: fs)
  | any {c : NFACtrl} {fs : List (Addr × Expression)} (ch : Int) (h : Built c fs) :
    Built (c.newLiteralNfa ch .any).2 (((c.newLiteralNfa ch .any).1, .any) :: fs)
  | range {c : NFACtrl} {fs : List (Addr × Expression)} (negate : Bool) (bounds : List (Nat × Nat))
      (h : Built c fs) :
    Built (rangeNfa c negate bounds).2
      (((rangeNfa c negate bounds).1, .range negate bounds) :: fs)
  | lliteral {c : NFACtrl} {fs : List (Addr × Expression)} (ch : Int) (src : List Int)
      (h : Built c fs) :
    Built (c.newLliteralNfa (ch :: src)).2
      (((c.newLliteralNfa (ch :: src)).1, .lliteral ch src) :: fs)
  | concatenate {c : NFACtrl} {prev next : Addr} {e e' : Expression} {fs : List (Addr × Expression)}
      (h : Built c ((prev, e) :: (next, e') :: fs)) :
    Built (c.concatenateNfa prev next).2
      (((c.concatenateNfa prev next).1, .concatenate e e') :: fs)
  | kleene {c : NFACtrl} {body : Addr} {e : Expression} {fs : List (Addr × Expression)}
      (h : Built c ((body, e) :: fs)) :
    Built (c.newKleeneNfa body).2 (((c.newKleeneNfa body).1, .kleene e) :: fs)
  | posclosure {c : NFACtrl} {body : Addr} {e : Expression} {fs : List (Addr × Expression)}
      (h : Built c ((body, e) :: fs)) :
    Built (c.newPosclosureNfa body).2 (((c.newPosclosureNfa body).1, .posclosure e) :: fs)
  | qmark {c : NFACtrl} {body : Addr} {e : Expression} {fs : List (Addr × Expression)}
      (h : Built c ((body, e) :: fs)) :
    Built (c.newQmarkNfa body).2 (((c.newQmarkNfa body).1, .qmark e) :: fs)

/-- Automata that own their nodes and spell given languages. -/
structure Spelling (c : NFACtrl) (fs : List (Addr × Language Int)) : Prop where
  nonzero : ∀ p ∈ fs, p.1 ≠ 0
  owns : Owns c (fs.map Prod.fst)
  spelled : ∀ p ∈ fs, spelled c p.1 = p.2

namespace Spelling

variable {fs fs' : List (Addr × Language Int)} {L L' : Language Int}

theorem owned (hs : Spelling c fs) : ∃ live frag, Owned c (fs.map Prod.fst) live frag := by
  obtain ⟨live, frag, ho⟩ := hs.owns
  refine ⟨live, frag, ?_⟩
  rwa [List.filter_eq_self.mpr fun a ha => ?_] at ho
  obtain ⟨p, hp, rfl⟩ := List.mem_map.mp ha
  exact decide_eq_true (hs.nonzero p hp)

theorem perm (hs : Spelling c fs) (hperm : fs.Perm fs') : Spelling c fs' where
  nonzero p hp := hs.nonzero p (hperm.mem_iff.mpr hp)
  owns := hs.owns.subperm (hperm.symm.map Prod.fst).subperm
  spelled p hp := hs.spelled p (hperm.mem_iff.mpr hp)

theorem operand (hs : Spelling c ((body, L) :: fs)) : Recognizer.spelled c body = L :=
  hs.spelled (body, L) (by simp)

/-- A new automaton next to old ones that keep their languages. -/
theorem cons (hs : ∀ p ∈ fs, p.1 ≠ 0 ∧ Recognizer.spelled c' p.1 = p.2) (ht : t ≠ 0)
    (ho : Owns c' (t :: fs.map Prod.fst)) (hL : Recognizer.spelled c' t = L) :
    Spelling c' ((t, L) :: fs) where
  nonzero := List.forall_mem_cons.mpr ⟨ht, fun p hp => (hs p hp).1⟩
  owns := ho
  spelled := List.forall_mem_cons.mpr ⟨hL, fun p hp => (hs p hp).2⟩

/-- One operand becomes an automaton. -/
theorem wrap {build : NFACtrl → Addr → Addr × NFACtrl} (hs : Spelling c ((body, L) :: fs))
    (howns : ∃ t c', build c body = (t, c') ∧ t ≠ 0 ∧ Owns c' (t :: fs.map Prod.fst))
    (hspelled : ∀ live frag t c', Owned c (body :: fs.map Prod.fst) live frag →
      build c body = (t, c') → Recognizer.spelled c' t = L' ∧
        ∀ r ∈ fs.map Prod.fst, Recognizer.spelled c' r = Recognizer.spelled c r) :
    Spelling (build c body).2 (((build c body).1, L') :: fs) := by
  obtain ⟨t, c', hrun, ht, ho'⟩ := howns
  obtain ⟨live, frag, ho⟩ := hs.owned
  obtain ⟨hL, hrest⟩ := hspelled live frag t c' ho hrun
  rw [hrun]
  refine cons (fun p hp => ⟨hs.nonzero p (by simp [hp]), ?_⟩) ht ho' hL
  rw [hrest p.1 (List.mem_map_of_mem hp)]
  exact hs.spelled p (by simp [hp])

theorem kleene (hs : Spelling c ((body, L) :: fs)) :
    Spelling (c.newKleeneNfa body).2 (((c.newKleeneNfa body).1, L∗) :: fs) :=
  hs.wrap (hs.owns.newKleeneNfa (hs.nonzero _ (by simp))) fun _ _ _ _ ho hrun =>
    hs.operand ▸ ho.spelled_newKleeneNfa hrun

theorem posclosure (hs : Spelling c ((body, L) :: fs)) :
    Spelling (c.newPosclosureNfa body).2 (((c.newPosclosureNfa body).1, L * L∗) :: fs) :=
  hs.wrap (hs.owns.newPosclosureNfa (hs.nonzero _ (by simp))) fun _ _ _ _ ho hrun =>
    hs.operand ▸ ho.spelled_newPosclosureNfa hrun

theorem qmark (hs : Spelling c ((body, L) :: fs)) :
    Spelling (c.newQmarkNfa body).2 (((c.newQmarkNfa body).1, 1 + L) :: fs) :=
  hs.wrap (hs.owns.newQmarkNfa (hs.nonzero _ (by simp))) fun _ _ _ _ ho hrun =>
    hs.operand ▸ ho.spelled_newQmarkNfa hrun

theorem concatenate {prev next : Addr} (hs : Spelling c ((prev, L) :: (next, L') :: fs)) :
    Spelling (c.concatenateNfa prev next).2 (((c.concatenateNfa prev next).1, L * L') :: fs) := by
  have hn : next ≠ 0 := hs.nonzero (next, L') (by simp)
  obtain ⟨t, c', hrun, ht, ho'⟩ := hs.owns.concatenateNfa
  obtain ⟨live, frag, ho⟩ := hs.owned
  obtain ⟨-, hL, hrest⟩ := ho.spelled_concatenateNfa (hs.nonzero (prev, L) (by simp)) hn hrun
  rw [hs.operand, hs.spelled (next, L') (by simp)] at hL
  rw [hrun]
  refine cons (fun p hp => ⟨hs.nonzero p (by simp [hp]), ?_⟩) (ht hn) ho' hL
  rw [hrest p.1 (List.mem_map_of_mem hp)]
  exact hs.spelled p (by simp [hp])

/-- A fresh pair of nodes of which the start reads one letter. -/
theorem newPair (hs : Spelling c fs) (hold : Owned c (fs.map Prod.fst) live frag)
    (hnew : NewPair c' live t s) (hsame : ∀ x, x ≠ t → x ≠ s → c'.heap x = c.heap x)
    (ht : (c'.heap t).type = .accepting) (hparent : (c'.heap t).parent = s)
    (hout : (c'.heap s).out2 = t)
    (htype : (c'.heap s).type = .any ∨ (c'.heap s).type = .literal ∨ (c'.heap s).type = .range)
    (ho : Owns c' (t :: fs.map Prod.fst))
    (hL : ∀ v, v ∈ L ↔ ∃ ch, (c'.heap s).Reads ch ∧ v = [ch]) :
    Spelling c' ((t, L) :: fs) := by
  refine cons (fun p hp => ⟨hs.nonzero p hp, ?_⟩) hnew.nonzero ho ?_
  · rw [hold.spelled_newPair hnew hsame (List.mem_map_of_mem hp)]
    exact hs.spelled p hp
  · rw [spelled_atom ht hparent hout hnew.ne htype]
    exact Language.ext fun v => (hL v).symm

theorem newLiteralNfa (hs : Spelling c fs) (ch : Int) {type : NfaType}
    (htype : type = .any ∨ type = .literal)
    (hL : ∀ v, v ∈ L ↔ ∃ x, NFA.Reads { type := type, literal := ch } x ∧ v = [x]) :
    Spelling (c.newLiteralNfa ch type).2 (((c.newLiteralNfa ch type).1, L) :: fs) := by
  obtain ⟨live, frag, ho⟩ := hs.owned
  obtain ⟨t, s, c', hrun, hnew, ht, hstart, hsame, -⟩ := ho.alloc.newLiteralNfa ch type
  obtain ⟨t', c'', hrun', -, ho'⟩ :=
    hs.owns.newLiteralNfa ch type (by rcases htype with rfl | rfl <;> simp)
  obtain ⟨rfl, rfl⟩ : t = t' ∧ c' = c'' := Prod.mk.inj (hrun.symm.trans hrun')
  rw [hrun]
  have hreads : ∀ x, (c'.heap s).Reads x ↔ NFA.Reads { type := type, literal := ch } x := by
    intro x
    rw [hstart]
    rcases htype with rfl | rfl <;> rfl
  refine hs.newPair ho hnew hsame (by rw [ht]; rfl) (by rw [ht]) (by rw [hstart]) ?_ ho' fun v => ?_
  · rw [hstart]
    exact htype.imp_right Or.inl
  · simp only [hL, hreads]

theorem literal (hs : Spelling c fs) (ch : Int) :
    Spelling (c.newLiteralNfa ch .literal).2 (((c.newLiteralNfa ch .literal).1, {[ch]}) :: fs) :=
  hs.newLiteralNfa ch (Or.inr rfl) fun v => by
    change v = [ch] ↔ ∃ x, x = ch ∧ v = [x]
    rw [exists_eq_left]

theorem rangeNfa (hs : Spelling c fs) (negate : Bool) (bounds : List (Nat × Nat)) :
    Spelling (rangeNfa c negate bounds).2 (((Recognizer.rangeNfa c negate bounds).1,
      {v | ∃ ch, InRange negate bounds ch ∧ v = [ch]}) :: fs) := by
  obtain ⟨live, frag, ho⟩ := hs.owned
  obtain ⟨t, s, c', hrun, hnew, ht, hstart, hsame, -⟩ := ho.alloc.newRangeNfa negate
  obtain ⟨t', c'', hrun', -, ho'⟩ := hs.owns.newRangeNfa negate
  obtain ⟨rfl, rfl⟩ : t = t' ∧ c' = c'' := Prod.mk.inj (hrun.symm.trans hrun')
  have hparent : (c'.heap t).parent = s := by rw [ht]
  have hts : t ≠ s := hnew.ne.symm
  unfold Recognizer.rangeNfa
  rw [hrun]
  dsimp only
  rw [updateRanges_eq hts hparent]
  refine hs.newPair ho ⟨hnew.root, hnew.start, hnew.ne, hnew.nonzero, hnew.alloc.congr rfl⟩
    (fun x hxt hxs => ?_) ?_ ?_ ?_ ?_ (ho'.modify s fun _ => rfl) fun v => ?_
  · rw [NFACtrl.heap_modify, Heap.modify_of_ne _ hxs, hsame x hxt hxs]
  · rw [NFACtrl.heap_modify, Heap.modify_of_ne _ hts, ht]
    rfl
  · rw [NFACtrl.heap_modify, Heap.modify_of_ne _ hts, hparent]
  · rw [NFACtrl.heap_modify, Heap.modify_self, hstart]
  · rw [NFACtrl.heap_modify, Heap.modify_self, hstart]
    exact Or.inr (Or.inr rfl)
  · rw [NFACtrl.heap_modify, Heap.modify_self, hstart]
    refine exists_congr fun ch => and_congr_left fun _ => ?_
    exact (inRange_iff negate bounds ch).symm

/-- `new_lliteral_nfa` appends one literal after the other. -/
theorem lliteral (hs : Spelling c fs) (ch : Int) (src : List Int) :
    Spelling (c.newLliteralNfa (ch :: src)).2
      (((c.newLliteralNfa (ch :: src)).1, {ch :: src}) :: fs) := by
  suffices hfold : ∀ (src pre : List Int) (r : Addr × NFACtrl),
      Spelling r.2 ((r.1, ({pre} : Language Int)) :: fs) →
      Spelling (src.foldl NFACtrl.appendLiteral r).2
        (((src.foldl NFACtrl.appendLiteral r).1, {pre ++ src}) :: fs) from
    hfold src [ch] _ (hs.literal ch)
  intro src
  induction src with
  | nil => exact fun pre r hr => by simpa using hr
  | cons x src ih =>
    intro pre r hr
    have hnext := ((hr.literal x).perm (List.Perm.swap _ _ _)).concatenate
    have hword : ({pre} : Language Int) * {[x]} = {pre ++ [x]} := by
      ext v
      change (∃ a, a = pre ∧ ∃ b, b = [x] ∧ a ++ b = v) ↔ v = pre ++ [x]
      rw [exists_eq_left, exists_eq_left]
      exact eq_comm
    rw [hword] at hnext
    have hrest := ih (pre ++ [x]) (NFACtrl.appendLiteral r x) hnext
    rwa [List.append_assoc] at hrest

end Spelling

/-- Automata built bottom-up spell the languages of their expressions. -/
theorem Built.spelling {fs : List (Addr × Expression)} (hb : Built c fs) :
    Spelling c (fs.map fun p => (p.1, p.2.language)) := by
  induction hb with
  | init hnum =>
    refine ⟨by simp, ⟨∅, id, AllocOk.allocInit hnum _, ?_,
      lt_of_le_of_lt (Finset.card_filter_le _ _) Nat.one_pos, fun _ => ⟨rfl, rfl, rfl⟩⟩, by simp⟩
    exact ⟨by simp, by simp, by simp, by simp, by simp, id, by simp⟩
  | perm _ hperm ih => exact ih.perm (hperm.map _)
  | literal ch _ ih => exact ih.literal ch
  | any ch _ ih => exact ih.newLiteralNfa ch (Or.inl rfl) fun v => Iff.rfl
  | range negate bounds _ ih => exact ih.rangeNfa negate bounds
  | lliteral ch src _ ih => exact ih.lliteral ch src
  | concatenate _ ih => exact ih.concatenate
  | kleene _ ih => exact ih.kleene
  | posclosure _ ih => exact ih.posclosure
  | qmark _ ih => exact ih.qmark

/-- No pointer leads out of an automaton. -/
theorem Owned.reachable_mem (ho : Owned c roots live frag) (ht : t ∈ roots) {a : Addr}
    (hpath : Relation.ReflTransGen (fun a b => b ∈ (c.heap a).targets) (c.heap t).parent a) :
    a ∈ live := by
  induction hpath with
  | refl => exact (ho.shape.start t ht).1
  | tail _ hedge ih => exact (ho.shape.target _ ih _ hedge).1

/-- **The constructors preserve languages.** An automaton built bottom-up spells exactly
the language of its expression, and no node reachable from its start is on the free ring. -/
theorem built_language {fs : List (Addr × Expression)} (hb : Built c fs) {e : Expression}
    (hmem : (t, e) ∈ fs) :
    (∀ v, Spells (patternGraph c.heap) (c.heap t).parent v t ↔ v ∈ e.language) ∧
      ∀ a, Relation.ReflTransGen (fun a b => b ∈ (c.heap a).targets) (c.heap t).parent a →
        a ∉ c.alloc.free := by
  have hs := hb.spelling
  have hmem' : (t, e.language) ∈ fs.map fun p => (p.1, p.2.language) :=
    List.mem_map_of_mem (f := fun p : Addr × Expression => (p.1, p.2.language)) hmem
  constructor
  · intro v
    have heq : spelled c t = e.language := hs.spelled _ hmem'
    rw [← heq]
    exact Iff.rfl
  · obtain ⟨live, frag, ho⟩ := hs.owned
    intro a hpath
    exact ho.alloc.apart a (ho.reachable_mem (List.mem_map_of_mem (f := Prod.fst) hmem') hpath)

/-- Two letters of which the first may be missing, joined and then repeated. -/
def repeatedPair : Addr × NFACtrl :=
  let a := (({} : NFACtrl).allocInit 4).newLiteralNfa 97 .literal
  let a := a.2.newQmarkNfa a.1
  let b := a.2.newLiteralNfa 98 .literal
  let ab := b.2.concatenateNfa a.1 b.1
  ab.2.newKleeneNfa ab.1

/-- The automaton of the repeated pair spells its language. -/
theorem built_language_repeatedPair :
    (∀ v, Spells (patternGraph repeatedPair.2.heap)
        (repeatedPair.2.heap repeatedPair.1).parent v repeatedPair.1 ↔
      v ∈ (Expression.kleene (.concatenate (.qmark (.literal 97)) (.literal 98))).language) ∧
      ∀ a, Relation.ReflTransGen (fun a b => b ∈ (repeatedPair.2.heap a).targets)
          (repeatedPair.2.heap repeatedPair.1).parent a → a ∉ repeatedPair.2.alloc.free :=
  built_language
    (.kleene (.concatenate (.perm (.literal 98 (.qmark (.literal 97 (.init (by decide)))))
      (List.Perm.swap _ _ _))))
    (List.mem_singleton.mpr rfl)

end Recognizer
