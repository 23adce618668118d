import Recognizer.Parse.CoreNodes
import Recognizer.Parse.Finished

/-!
# The automaton of the whole pattern

`parse_regex` numbers the accepting node of the last automaton and puts an `EPSILON` node in front
of a start node that reads a letter. Nothing else is written, so that the graph is one the compiler
can walk, every stop is a letter or the accepting node, and the words are those of the automaton.
-/

namespace Recognizer

open WordPath PathSearch

variable {c : NFACtrl} {h h' : Heap} {live : Finset Addr} {frag : Addr → Addr} {t s a b : Addr}
  {L : Language Int} {p : Parser}

/-- The accepting node has been numbered, and the start node is walked through or has a new
`EPSILON` node in front of it. -/
structure Completed (c : NFACtrl) (h' : Heap) (live : Finset Addr) (t s : Addr) : Prop
    extends Ended c h' live t s where
  id : (h' t).id = c.nextSeqId

open Classical in
/-- The nodes of the whole automaton. -/
noncomputable def Completed.nodes (c : NFACtrl) (live : Finset Addr) (t s : Addr) : Finset Addr :=
  insert s (live.filter (Belongs c.heap [t]))

theorem Completed.mem_nodes : a ∈ Completed.nodes c live t s ↔
    a = s ∨ a ∈ live ∧ Belongs c.heap [t] a := by
  simp only [Completed.nodes, Finset.mem_insert, Finset.mem_filter]

/-- From an automaton with regular nodes one comes to its accepting node. -/
theorem Regular.root_belongs (hr : Regular c [t]) : Belongs c.heap [t] t := by
  obtain ⟨f, hf⟩ := hr.exits
  suffices hall : ∀ k a, f a = k → Belongs c.heap [t] a → Belongs c.heap [t] t from
    hall _ _ rfl (.start (List.mem_singleton.mpr rfl))
  intro k
  induction k using Nat.strong_induction_on with
  | _ k ih =>
    rintro a rfl ha
    by_cases hat : a = t
    · exact hat ▸ ha
    · have hnot : a ∉ [t] := by simpa using hat
      exact ih _ (hf ha hnot) _ rfl (ha.next (hr.inner ha hnot).out2_mem)

/-- Outside `TREE` nodes the compiler walks the silent edges. -/
theorem walkEdge_iff_silent (htree : (h a).type ≠ .tree) : WalkEdge h a b ↔ (h a).Silent b := by
  unfold NFA.Silent
  constructor
  · intro hedge
    cases hedge with
    | epsilon ht => exact .inl ⟨ht, rfl⟩
    | splitLeft ht => exact .inr ⟨ht, .inl rfl⟩
    | splitRight ht => exact .inr ⟨ht, .inr rfl⟩
    | branch ht => exact absurd ht htree
  · rintro (⟨ht, rfl⟩ | ⟨ht, rfl | rfl⟩)
    · exact .epsilon ht
    · exact .splitLeft ht
    · exact .splitRight ht

theorem NFA.Inner.ne_tree {n : NFA} (hn : n.Inner) : n.type ≠ .tree ∧ n.type ≠ .interval ∧
    n.type ≠ .accepting ∧ n.type ≠ .backreference := by
  rcases hn.1 with ht | ht | ht | ht | ht <;> simp [ht]

namespace Completed

variable (hd : Completed c h' live t s) (hr : Regular c [t]) (ho : Owned c [t] live frag)

include hd ho

include hr

/-- A node of the automaton is new, or the accepting node, or an inner node that was kept. -/
theorem cases_node (ha : a ∈ nodes c live t s) :
    a = t ∨ (h' a).Inner ∧ (a = s ∧ s ∉ live ∨ a ∈ live ∧ Belongs c.heap [t] a ∧ a ≠ t ∧
      h' a = c.heap a) := by
  have hstart := ho.shape.start t (by simp)
  have hkept : a ∈ live → Belongs c.heap [t] a → a = t ∨ (h' a).Inner ∧ (a = s ∧ s ∉ live ∨
      a ∈ live ∧ Belongs c.heap [t] a ∧ a ≠ t ∧ h' a = c.heap a) := by
    intro hal hin
    by_cases hat : a = t
    · exact .inl hat
    · have heq := hd.same a hal hat
      refine .inr ⟨?_, .inr ⟨hal, hin, hat, heq⟩⟩
      rw [heq]
      exact hr.inner hin (by simpa using hat)
  rcases mem_nodes.mp ha with rfl | ⟨hal, hin⟩
  · rcases hd.start with ⟨rfl, -⟩ | ⟨hnew, -, htype, -⟩
    · exact hkept hstart.1 (.start (by simp))
    · exact .inr ⟨⟨.inl htype, by simp [htype]⟩, .inl ⟨rfl, hnew⟩⟩
  · exact hkept hal hin

/-- No edge leaves the nodes of the automaton. -/
theorem targets_mem (ha : a ∈ nodes c live t s) (hb : b ∈ (h' a).targets) :
    b ∈ nodes c live t s := by
  have hmem : ∀ {x}, Belongs c.heap [t] x → x ∈ nodes c live t s := fun hx =>
    mem_nodes.mpr (.inr ⟨ho.belongs_mem hx, hx⟩)
  rcases hd.cases_node hr ho ha with rfl | ⟨-, ⟨rfl, hnew⟩ | ⟨-, hin, -, heq⟩⟩
  · simp [NFA.targets, hd.type] at hb
  · rcases hd.start with ⟨rfl, -⟩ | ⟨-, -, htype, hout⟩
    · exact absurd (ho.shape.start t (by simp)).1 hnew
    · simp only [NFA.targets, htype, List.mem_singleton] at hb
      rw [hb, hout]
      exact hmem (.start (by simp))
  · rw [heq] at hb
    exact hmem (hin.next hb)

theorem mem_of_inGraph (hin : InGraph h' s a) : a ∈ nodes c live t s := by
  induction hin with
  | refl => exact mem_nodes.mpr (.inl rfl)
  | tail _ hlead ih => exact hd.targets_mem hr ho ih hlead.mem_targets

/-- A measure that falls along kept nodes falls along all nodes. -/
theorem measure_new {f : Addr → Nat} {g : NFA → List Addr} (hg : ∀ n, g n ⊆ n.targets)
    (hnil : ∀ n : NFA, n.type = .accepting → g n = [])
    (hf : ∀ a, Belongs c.heap [t] a → a ≠ t → ∀ b ∈ g (c.heap a), f b < f a)
    (ha : a ∈ nodes c live t s) (hb : b ∈ g (h' a)) :
    (if b ∈ live then f b else f (c.heap t).parent + 1) <
      if a ∈ live then f a else f (c.heap t).parent + 1 := by
  rcases hd.cases_node hr ho ha with rfl | ⟨-, ⟨rfl, hnew⟩ | ⟨hal, hin, hat, heq⟩⟩
  · rw [hnil _ hd.type] at hb
    cases hb
  · have hb' := hg _ hb
    rw [hd.targets_of_new ho hnew, List.mem_singleton] at hb'
    rw [hb', if_pos (ho.shape.start t (by simp)).1, if_neg hnew]
    omega
  · rw [heq] at hb
    have hbl := ho.belongs_mem (hin.next (hg _ hb))
    rw [if_pos hbl, if_pos hal]
    exact hf a hin hat b hb

omit hr in
/-- The forward edges close no loop. -/
theorem exists_height : ∃ f : Addr → Nat, ∀ a ∈ nodes c live t s, ∀ b ∈ (h' a).forward,
    f b < f a := by
  obtain ⟨f, hf⟩ := hd.toEnded.exists_height ho
  refine ⟨f, fun a ha => hf a ?_⟩
  rcases mem_nodes.mp ha with rfl | ⟨hlive, -⟩
  · exact Finset.mem_insert_self a live
  · exact Finset.mem_insert_of_mem hlive

/-- The compiler can walk the graph. -/
theorem compilable {total : Nat} (htotal : c.nextSeqId < total) :
    Compilable h' (nodes c live t s) s total where
  nonzero hmem := by
    rcases mem_nodes.mp hmem with hzero | ⟨hlive, -⟩
    · rcases hd.start with ⟨heq, -⟩ | ⟨-, hne, -⟩
      · exact ho.alloc.zero_notMem (hzero ▸ heq ▸ (ho.shape.start t (by simp)).1)
      · exact hne hzero.symm
    · exact ho.alloc.zero_notMem hlive
  closed a ha b hedge := hd.targets_mem hr ho ha (Leads.walk hedge).mem_targets
  acyclic := by
    obtain ⟨f, hf⟩ := hd.exists_height ho
    refine no_loop_of_measure f fun a ha b hedge => ?_
    obtain ⟨htype, -, rfl⟩ := hedge
    have hforward : (h' a).out2 ∈ (h' a).forward := by simp [NFA.forward, htype]
    exact ⟨hd.targets_mem hr ho ha ((h' a).forward_subset hforward), hf a ha _ hforward⟩
  branches a ha htree := by
    rcases hd.cases_node hr ho ha with rfl | ⟨hinner, -⟩
    · simp [hd.type] at htree
    · exact absurd htree hinner.ne_tree.1
  start_mem := mem_nodes.mpr (.inl rfl)
  start_passes := hd.passes_start
  out2_mem a ha hstop hacc := hd.targets_mem hr ho ha (Leads.out2 hstop hacc).mem_targets
  no_interval a ha hinterval := by
    rcases hd.cases_node hr ho ha with rfl | ⟨hinner, -⟩
    · simp [hd.type] at hinterval
    · exact hinner.ne_tree.2.1 hinterval
  collectables := by
    refine lt_of_le_of_lt (Finset.card_le_card fun a ha => ?_) (ho.count.trans htotal)
    obtain ⟨ha, hcollectable⟩ := Finset.mem_filter.mp ha
    rcases hd.cases_node hr ho ha with rfl | ⟨hinner, ⟨rfl, -⟩ | ⟨hal, -, -, heq⟩⟩
    · exact absurd hd.type hcollectable.2
    · exact absurd (hd.passes_start) hcollectable.1
    · refine Finset.mem_filter.mpr ⟨hal, ?_⟩
      rw [← heq]
      exact ⟨hcollectable, hinner.ne_tree.2.1, hinner.ne_tree.2.2.2⟩

/-- The stops are letters and the accepting node, each with an id of its own. -/
theorem coreGraph : CoreGraph h' s := by
  have hkind : ∀ a ∈ nodes c live t s, Passes (h' a) ∨ (h' a).Core := by
    intro a ha
    rcases hd.cases_node hr ho ha with rfl | ⟨⟨hkind, -⟩, -⟩
    · exact .inr (.inr (.inr (.inr hd.type)))
    · rcases hkind with ht | ht | ht | ht | ht
      · exact .inl (.inl ht)
      · exact .inl (.inr (.inl ht))
      · exact .inr (.inl ht)
      · exact .inr (.inr (.inl ht))
      · exact .inr (.inr (.inr (.inl ht)))
  -- a stop is the accepting node or was counted
  have hstop : ∀ a ∈ nodes c live t s, ¬ Passes (h' a) → a = t ∨
      Belongs c.heap [t] a ∧ Counted (c.heap a) ∧ h' a = c.heap a := by
    intro a ha hnot
    rcases hd.cases_node hr ho ha with rfl | ⟨hinner, ⟨rfl, -⟩ | ⟨-, hin, -, heq⟩⟩
    · exact .inl rfl
    · exact absurd (hd.passes_start) hnot
    · refine .inr ⟨hin, ?_, heq⟩
      rw [← heq]
      exact ⟨⟨hnot, hinner.ne_tree.2.2.1⟩, hinner.ne_tree.2.1, hinner.ne_tree.2.2.2⟩
  obtain ⟨f, hf⟩ := hr.exits
  refine CoreGraph.of_nodes (hd.passes_start) (mem_nodes.mpr (.inl rfl))
    (fun a ha b hb => hd.targets_mem hr ho ha hb) hkind ?_ ?_ ?_
  · intro a ha b hb hna hnb heq
    rcases hstop a ha hna with rfl | ⟨hina, hca, hsa⟩
    · rcases hstop b hb hnb with rfl | ⟨hinb, hcb, hsb⟩
      · rfl
      · have := hr.numbered hinb hcb
        rw [hd.id, hsb] at heq
        omega
    · rcases hstop b hb hnb with rfl | ⟨hinb, hcb, hsb⟩
      · have := hr.numbered hina hca
        rw [hd.id, hsa] at heq
        omega
      · rw [hsa, hsb] at heq
        exact hr.ids hina hinb hca hcb heq
  · intro a ha
    refine leads_accepting_of_measure
      (fun a => if a ∈ live then f a else f (c.heap t).parent + 1)
      (fun a ha b hb => hd.targets_mem hr ho ha hb) hkind (fun a ha => ?_) ha
    rcases hd.cases_node hr ho ha with rfl | ⟨hinner, -⟩
    · exact .inl hd.type
    · refine .inr ⟨_, hinner.out2_mem, ?_⟩
      refine hd.measure_new hr ho
        (g := fun n => if n.type = .accepting then [] else [n.out2].filter (· ∈ n.targets))
        (fun n => ?_) (fun n ht => if_pos ht) (fun a hin hat b hb => ?_) ha ?_
      · split
        · exact List.nil_subset _
        · intro x hx
          exact of_decide_eq_true (List.mem_filter.mp hx).2
      · have hnot : a ∉ [t] := by simpa using hat
        rw [if_neg (hr.inner hin hnot).ne_tree.2.2.1] at hb
        rw [List.mem_singleton.mp (List.mem_filter.mp hb).1]
        exact hf hin hnot
      · rw [if_neg hinner.ne_tree.2.2.1]
        exact List.mem_filter.mpr ⟨List.mem_singleton.mpr rfl, decide_eq_true hinner.out2_mem⟩
  · intro a ha htype
    rcases hd.cases_node hr ho ha with rfl | ⟨hinner, -⟩
    · simp [hd.type] at htype
    · exact hinner.2 htype

/-- The accepting node is the only one. -/
theorem eq_of_accepting (ha : a ∈ nodes c live t s) (htype : (h' a).type = .accepting) : a = t := by
  rcases hd.cases_node hr ho ha with rfl | ⟨hinner, -⟩
  · rfl
  · exact absurd htype hinner.ne_tree.2.2.1

/-- From the new start node the words of the automaton are spelled. -/
theorem language_eq : language (wordGraph h') s t = spelled c t := by
  have hroot := hr.root_belongs
  have htlive := (ho.shape.root t (by simp)).1
  have hregion : Region (patternGraph c.heap) {a | Belongs c.heap [t] a} t :=
    ⟨hroot, final_of_accepting (ho.shape.root t (by simp)).2.2,
      fun a ha b hedge => ha.next (mem_targets_of_edge (.inl hedge)),
      fun a ha ch b hedge => ha.next (mem_targets_of_edge (.inr ⟨ch, hedge⟩))⟩
  have hfinal : Final (wordGraph h') t := by
    constructor
    · intro b hedge
      have hmem := (Leads.walk hedge).mem_targets
      simp [NFA.targets, hd.type] at hmem
    · rintro ch b ⟨hreads, -⟩
      exact hreads.stops.2 hd.type
  have hold : language (wordGraph h') (c.heap t).parent t = spelled c t := by
    refine hregion.language_congr (fun a ha hat => ?_) hfinal (.start (by simp))
    have heq := hd.same a (ho.belongs_mem ha) hat
    have hinner := hr.inner ha (by simpa using hat)
    constructor
    · intro b
      show WalkEdge h' a b ↔ (c.heap a).Silent b
      rw [walkEdge_iff_silent (by rw [heq]; exact hinner.ne_tree.1), heq]
    · intro ch b
      show (h' a).Reads ch ∧ b = (h' a).out2 ↔ _
      rw [heq]
      rfl
  rcases hd.start with ⟨rfl, -⟩ | ⟨hnew, -, htype, hout⟩
  · exact hold
  · rw [← hold]
    refine language_silent (fun b => ?_) (fun ch b hedge => ?_) fun hst => hnew (hst ▸ htlive)
    · show WalkEdge h' s b ↔ _
      rw [walkEdge_iff_silent (by simp [htype])]
      simp [NFA.Silent, htype, hout]
    · simp [wordGraph, NFA.Reads, htype] at hedge

/-- The words on the way to an accepting node are those of the automaton. -/
theorem spells_iff {w : List Int} :
    (∃ e, (h' e).type = .accepting ∧ Spells (wordGraph h') s w e) ↔ w ∈ spelled c t := by
  rw [← hd.language_eq hr ho]
  constructor
  · rintro ⟨e, htype, hspells⟩
    have hmem := hd.mem_of_inGraph hr ho (.of_spells .refl hspells)
    rw [hd.eq_of_accepting hr ho hmem htype] at hspells
    exact hspells
  · exact fun hspells => ⟨t, hd.type, hspells⟩

end Completed

/-- The last steps of `parse_regex` number the accepting node. -/
theorem completed_complete (hg : Grown p.ctrl [(t, L)]) (hstack : p.symbolStack = [t]) :
    ∃ live frag, Owned p.ctrl [t] live frag ∧
      Completed p.ctrl p.complete.ctrl.heap live t
        (p.complete.ctrl.heap p.complete.peek).parent ∧
      p.ctrl.nextSeqId < p.complete.totalNfaIds := by
  obtain ⟨live, frag, ho⟩ := hg.owned
  obtain ⟨hd, hid, htotal⟩ := ended_complete ho hstack
  have hmark := NFACtrl.markNfa_of_zero (hg.regular.unnumbered t (by simp))
  refine ⟨live, frag, ho, ⟨hd, ?_⟩, ?_⟩
  · rw [hid, hmark]
    simp only [NFACtrl.heap_modify, Heap.modify_self]
  · rw [htotal, hmark]
    exact Nat.lt_succ_self _

/-- **The automaton of a pattern is a core graph.** Automata with regular nodes, completed as
`parse_regex` does, give a graph that can be compiled, whose stops read a letter or accept, and
whose words are those of the automaton. -/
theorem Grown.completes (hg : Grown p.ctrl [(t, L)]) (hstack : p.symbolStack = [t]) :
    ∃ nodes, Compilable p.complete.ctrl.heap nodes
        (p.complete.ctrl.heap p.complete.peek).parent
        (p.complete.totalNfaIds + p.complete.intervalCount) ∧
      (∀ a ∈ nodes, ¬ Relation.TransGen (SynthEdge p.complete.ctrl.heap) a a) ∧
      CoreGraph p.complete.ctrl.heap (p.complete.ctrl.heap p.complete.peek).parent ∧
      ∀ w, (∃ e, (p.complete.ctrl.heap e).type = .accepting ∧
        Spells (wordGraph p.complete.ctrl.heap)
          (p.complete.ctrl.heap p.complete.peek).parent w e) ↔ w ∈ L := by
  obtain ⟨live, frag, ho, hd, htotal⟩ := completed_complete hg hstack
  refine ⟨_, hd.compilable hg.regular ho (htotal.trans_le (Nat.le_add_right _ _)), ?_,
    hd.coreGraph hg.regular ho, fun w => ?_⟩
  · obtain ⟨f, hf⟩ := hd.exists_height ho
    refine no_loop_of_measure f fun a ha b hedge => ?_
    have hforward := hedge.mem_forward
    exact ⟨hd.targets_mem hg.regular ho ha (NFA.forward_subset _ hforward), hf a ha b hforward⟩
  · rw [hd.spells_iff hg.regular ho, hg.operand]

/-- No literal is the end of line symbol. -/
def Expression.NoEol : Expression → Prop
  | .literal ch => ch ≠ eolSymbol
  | .any | .range _ _ => True
  | .lliteral ch src => ∀ x ∈ ch :: src, x ≠ eolSymbol
  | .concatenate e e' => e.NoEol ∧ e'.NoEol
  | .kleene e | .posclosure e | .qmark e => e.NoEol

/-- Automata built bottom-up have regular nodes. -/
theorem Built.grown {fs : List (Addr × Expression)} (hb : Built c fs) (heol : ∀ p ∈ fs, p.2.NoEol) :
    Grown c (fs.map fun p => (p.1, p.2.language)) := by
  induction hb with
  | init hnum => exact .init hnum
  | perm _ hperm ih =>
    exact (ih fun p hp => heol p (hperm.subset hp)).perm (hperm.map _)
  | literal ch _ ih =>
    rw [List.forall_mem_cons] at heol
    exact (ih heol.2).literal heol.1
  | any ch _ ih => exact (ih fun p hp => heol p (by simp [hp])).any ch
  | range negate bounds _ ih =>
    exact (ih fun p hp => heol p (by simp [hp])).rangeNfa negate bounds
  | lliteral ch src _ ih =>
    rw [List.forall_mem_cons] at heol
    exact (ih heol.2).lliteral heol.1
  | concatenate _ ih =>
    rw [List.forall_mem_cons] at heol
    refine (ih ?_).concatenate
    exact List.forall_mem_cons.mpr ⟨heol.1.1, List.forall_mem_cons.mpr ⟨heol.1.2, heol.2⟩⟩
  | kleene _ ih => exact (ih (List.forall_mem_cons.mpr (List.forall_mem_cons.mp heol))).kleene
  | posclosure _ ih =>
    exact (ih (List.forall_mem_cons.mpr (List.forall_mem_cons.mp heol))).posclosure
  | qmark _ ih => exact (ih (List.forall_mem_cons.mpr (List.forall_mem_cons.mp heol))).qmark

/-- **Automata built bottom-up are core graphs.** Completed as `parse_regex` does, the automaton of
an expression can be compiled, its stops read a letter or accept under ids of their own, and the
words spelled up to an accepting node are those of the expression. -/
theorem built_completes {e : Expression} (hb : Built p.ctrl [(t, e)]) (heol : e.NoEol)
    (hstack : p.symbolStack = [t]) :
    ∃ nodes, Compilable p.complete.ctrl.heap nodes
        (p.complete.ctrl.heap p.complete.peek).parent
        (p.complete.totalNfaIds + p.complete.intervalCount) ∧
      (∀ a ∈ nodes, ¬ Relation.TransGen (SynthEdge p.complete.ctrl.heap) a a) ∧
      CoreGraph p.complete.ctrl.heap (p.complete.ctrl.heap p.complete.peek).parent ∧
      ∀ w, (∃ r, (p.complete.ctrl.heap r).type = .accepting ∧
        Spells (wordGraph p.complete.ctrl.heap)
          (p.complete.ctrl.heap p.complete.peek).parent w r) ↔ w ∈ e.language :=
  (hb.grown (List.forall_mem_singleton.mpr heol)).completes hstack

/-- A parser that holds the automaton of the repeated pair. -/
def repeatedPairParser : Parser :=
  { scanner := Scanner.initScanner (bytes "(a?b)*"), ctrl := repeatedPair.2
    symbolStack := [repeatedPair.1] }

/-- The automaton of the repeated pair is a core graph. -/
theorem built_completes_repeatedPair :
    ∃ nodes, Compilable repeatedPairParser.complete.ctrl.heap nodes
        (repeatedPairParser.complete.ctrl.heap repeatedPairParser.complete.peek).parent
        (repeatedPairParser.complete.totalNfaIds + repeatedPairParser.complete.intervalCount) ∧
      (∀ a ∈ nodes, ¬ Relation.TransGen (SynthEdge repeatedPairParser.complete.ctrl.heap) a a) ∧
      CoreGraph repeatedPairParser.complete.ctrl.heap
        (repeatedPairParser.complete.ctrl.heap repeatedPairParser.complete.peek).parent ∧
      ∀ w, (∃ r, (repeatedPairParser.complete.ctrl.heap r).type = .accepting ∧
        Spells (wordGraph repeatedPairParser.complete.ctrl.heap)
          (repeatedPairParser.complete.ctrl.heap repeatedPairParser.complete.peek).parent w r) ↔
        w ∈ (Expression.kleene (.concatenate (.qmark (.literal 97)) (.literal 98))).language := by
  have hb : Built repeatedPair.2
      [(repeatedPair.1, .kleene (.concatenate (.qmark (.literal 97)) (.literal 98)))] :=
    .kleene (.concatenate (.perm (.literal 98 (.qmark (.literal 97 (.init (by decide)))))
      (List.Perm.swap _ _ _)))
  have heol : (Expression.kleene (.concatenate (.qmark (.literal 97)) (.literal 98))).NoEol :=
    ⟨show (97 : Int) ≠ eolSymbol by decide, show (98 : Int) ≠ eolSymbol by decide⟩
  have hstack : repeatedPairParser.symbolStack = [repeatedPair.1] := rfl
  exact built_completes (p := repeatedPairParser) hb heol hstack

end Recognizer
