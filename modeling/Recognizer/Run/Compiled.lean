import Recognizer.Compile.CompileRegex
import Recognizer.Core.WordPath
import Recognizer.Run.Prescan

/-!
# From the pattern graph to the matches

`compile_regex` lists for every stop the stops behind it, and `run_nfa` goes from stop to stop.
So what is reported for a line are the leftmost longest parts of it that are spelled on the way
from the start node of the pattern graph to an accepting node.
-/

namespace Recognizer

open WordPath PathSearch

variable {h : Heap} {E : Env} {start m n : Addr} {w : List Int} {nodes : Finset Addr}
  {total fuel budget : Nat} {p p' : Parser}

/-- The pattern graph: the edges the compiler walks are silent, and a stop reads the characters
of its test. -/
def wordGraph (h : Heap) : WordPath.Graph Addr Int where
  silent := WalkEdge h
  reads a ch b := (h a).Reads ch ∧ b = (h a).out2

/-- A node of the pattern graph. -/
def InGraph (h : Heap) (start n : Addr) : Prop := Relation.ReflTransGen (Leads h) start n

/-- A pattern graph whose stops read a character or accept, each with an id of its own; an
accepting node lies behind every node. -/
structure CoreGraph (h : Heap) (start : Addr) : Prop where
  passes : Passes (h start)
  kind : ∀ {n}, InGraph h start n → ¬ Passes (h n) → (h n).Core
  ids : ∀ {m n}, InGraph h start m → InGraph h start n → ¬ Passes (h m) → ¬ Passes (h n) →
    (h m).id = (h n).id → m = n
  ends : ∀ {n}, InGraph h start n →
    ∃ t, Relation.ReflTransGen (Leads h) n t ∧ (h t).type = .accepting
  literal : ∀ {n}, InGraph h start n → (h n).type = .literal → (h n).literal ≠ eolSymbol

/-- The nodes hold the graph, and the lists of the start node and of the stops are closures. -/
structure CompiledFrom (h : Heap) (E : Env) : Prop where
  graph : SameGraph h E.heap
  lists : ∀ {n}, InGraph h E.startState n → n = E.startState ∨ ¬ Passes (h n) →
    ListsClosure h E.heap n

/-- Where a node of the core points to, an edge leads. -/
theorem leads_of_mem_targets {a b : Addr} (hkind : Passes (h a) ∨ (h a).Core)
    (hb : b ∈ (h a).targets) : Leads h a b := by
  unfold NFA.targets at hb
  rcases hkind with (ht | ht | ht) | ht | ht | ht | ht
  · simp only [ht, List.mem_singleton] at hb
    exact hb ▸ .walk (.epsilon ht)
  · simp only [ht, List.mem_cons, List.not_mem_nil, or_false] at hb
    rcases hb with rfl | rfl
    · exact .walk (.splitLeft ht)
    · exact .walk (.splitRight ht)
  · simp only [ht] at hb
    exact .walk (.branch ht hb)
  · simp only [ht, List.mem_singleton] at hb
    exact hb ▸ .out2 (by simp [Passes, ht]) (by simp [ht])
  · simp only [ht, List.mem_singleton] at hb
    exact hb ▸ .out2 (by simp [Passes, ht]) (by simp [ht])
  · simp only [ht, List.mem_singleton] at hb
    exact hb ▸ .out2 (by simp [Passes, ht]) (by simp [ht])
  · simp [ht] at hb

/-- A finite set of nodes that no edge leaves holds the graph. -/
theorem CoreGraph.of_nodes (hpass : Passes (h start)) (hstart : start ∈ nodes)
    (hclosed : ∀ a ∈ nodes, ∀ b ∈ (h a).targets, b ∈ nodes)
    (hkind : ∀ a ∈ nodes, Passes (h a) ∨ (h a).Core)
    (hids : ∀ a ∈ nodes, ∀ b ∈ nodes, ¬ Passes (h a) → ¬ Passes (h b) →
      (h a).id = (h b).id → a = b)
    (hends : ∀ a ∈ nodes,
      ∃ t, Relation.ReflTransGen (Leads h) a t ∧ (h t).type = .accepting)
    (hliteral : ∀ a ∈ nodes, (h a).type = .literal → (h a).literal ≠ eolSymbol) :
    CoreGraph h start := by
  have hmem : ∀ {n}, InGraph h start n → n ∈ nodes := by
    intro n hn
    induction hn with
    | refl => exact hstart
    | tail _ hlead ih => exact hclosed _ ih _ hlead.mem_targets
  exact ⟨hpass, fun hn hstop => (hkind _ (hmem hn)).resolve_left hstop,
    fun hm hn => hids _ (hmem hm) _ (hmem hn), fun hn => hends _ (hmem hn),
    fun hn => hliteral _ (hmem hn)⟩

/-- Following smaller and smaller nodes one comes to an accepting node. -/
theorem leads_accepting_of_measure (f : Addr → Nat)
    (hclosed : ∀ a ∈ nodes, ∀ b ∈ (h a).targets, b ∈ nodes)
    (hkind : ∀ a ∈ nodes, Passes (h a) ∨ (h a).Core)
    (hless : ∀ a ∈ nodes, (h a).type = .accepting ∨ ∃ b ∈ (h a).targets, f b < f a) {a : Addr}
    (ha : a ∈ nodes) : ∃ t, Relation.ReflTransGen (Leads h) a t ∧ (h t).type = .accepting := by
  induction hk : f a using Nat.strong_induction_on generalizing a with
  | _ k ih =>
    rcases hless a ha with hacc | ⟨b, hb, hlt⟩
    · exact ⟨a, .refl, hacc⟩
    · obtain ⟨t, hpath, hacc⟩ := ih (f b) (hk ▸ hlt) (hclosed a ha b hb) rfl
      exact ⟨t, .head (leads_of_mem_targets (hkind a ha) hb) hpath, hacc⟩

/-- A node that reads a character is a stop that does not accept. -/
theorem NFA.Reads.stops {x : NFA} {ch : Int} (hreads : x.Reads ch) :
    ¬ Passes x ∧ x.type ≠ .accepting := by
  unfold NFA.Reads at hreads
  unfold Passes
  cases ht : x.type
  all_goals simp_all

/-- A path that spells a word stays in the graph. -/
theorem InGraph.of_spells (hn : InGraph h start m) (hspells : Spells (wordGraph h) m w n) :
    InGraph h start n := by
  induction hspells with
  | nil => exact hn
  | silent hedge _ ih => exact ih (hn.tail (.walk hedge))
  | read hedge _ ih =>
    obtain ⟨hreads, rfl⟩ := hedge
    exact ih (hn.tail (.out2 hreads.stops.1 hreads.stops.2))

/-- The nodes in the closure of a node are in the graph. -/
theorem InGraph.closure (hn : InGraph h start m) (hclosure : Closure h m n) :
    InGraph h start n := by
  obtain ⟨-, b, hlead, hpath⟩ := hclosure
  exact (hn.tail hlead).trans (hpath.lift id fun _ _ hedge => .walk hedge)

namespace SameGraph

variable {g : Heap} (hs : SameGraph h g) (a : Addr)
include hs

theorem id : (g a).id = (h a).id := by
  simpa only [NFA.graph] using congrArg NFA.id (hs a)

theorem range : (g a).range = (h a).range := by
  simpa only [NFA.graph] using congrArg NFA.range (hs a)

theorem parent : (g a).parent = (h a).parent := by
  simpa only [NFA.graph] using congrArg NFA.parent (hs a)

theorem reads_iff {ch : Int} : (g a).Reads ch ↔ (h a).Reads ch := by
  unfold NFA.Reads
  rw [hs.type a, hs.literal a, hs.range a]

end SameGraph

section Automaton

variable (hgraph : CoreGraph h E.startState) (hcompiled : CompiledFrom h E)
include hgraph hcompiled

/-- The automaton comes to the stops that the graph spells the word to. -/
theorem CoreGraph.arrives_iff :
    Arrives E w n ↔ ¬ Passes (h n) ∧ Spells (wordGraph h) E.startState w n := by
  have hstart := hcompiled.lists .refl (.inl rfl)
  constructor
  · intro harrives
    induction harrives with
    | start hn =>
      obtain ⟨hstop, b, hlead, hpath⟩ := (hstart.2 _).mp hn
      refine ⟨hstop, spells_nil_iff.mpr ?_⟩
      cases hlead with
      | walk hedge => exact .head hedge hpath
      | out2 hnot => exact absurd hgraph.passes hnot
    | @read w m n c _ hreads hn ih =>
      obtain ⟨hstop, hspells⟩ := ih
      have hlists := hcompiled.lists (InGraph.of_spells .refl hspells) (.inr hstop)
      obtain ⟨hstop', b, hlead, hpath⟩ := (hlists.2 _).mp hn
      refine ⟨hstop', spells_append_singleton_iff.mpr ⟨m, b, hspells, ?_, hpath⟩⟩
      cases hlead with
      | walk hedge => exact absurd hedge.passes hstop
      | out2 => exact ⟨(hcompiled.graph.reads_iff m).mp hreads, rfl⟩
  · rintro ⟨hstop, hspells⟩
    induction w using List.reverseRecOn generalizing n with
    | nil =>
      refine .start ((hstart.2 n).mpr ⟨hstop, ?_⟩)
      rcases (Relation.ReflTransGen.cases_head_iff.mp (spells_nil_iff.mp hspells)) with
        rfl | ⟨b, hedge, hpath⟩
      · exact absurd hgraph.passes hstop
      · exact ⟨b, .walk hedge, hpath⟩
    | append_singleton w c ih =>
      obtain ⟨m, b, hm, hread, hpath⟩ := spells_append_singleton_iff.mp hspells
      obtain ⟨hreads, rfl⟩ := hread
      obtain ⟨hstop', hacc⟩ := hreads.stops
      have hlists := hcompiled.lists (InGraph.of_spells .refl hm) (.inr hstop')
      refine .read (ih hstop' hm) ((hcompiled.graph.reads_iff m).mpr hreads) ?_
      exact (hlists.2 n).mpr ⟨hstop, _, .out2 hstop' hacc, hpath⟩

/-- The words that are accepted are those spelled on the way to an accepting node. -/
theorem CoreGraph.accepts_iff : E.Accepts w ↔
    ∃ t, (h t).type = .accepting ∧ Spells (wordGraph h) E.startState w t := by
  unfold Env.Accepts
  simp only [hcompiled.graph.type]
  constructor
  · rintro ⟨t, ht, hkind⟩
    exact ⟨t, hkind, ((hgraph.arrives_iff hcompiled).mp ht).2⟩
  · rintro ⟨t, hkind, hspells⟩
    exact ⟨t, (hgraph.arrives_iff hcompiled).mpr ⟨by simp [Passes, hkind], hspells⟩, hkind⟩

omit hgraph in
/-- The nodes below the start node are the stops of the graph. -/
theorem CompiledFrom.below (hn : Below E n) : InGraph h E.startState n ∧ ¬ Passes (h n) := by
  induction hn with
  | single hn =>
    have hclosure := ((hcompiled.lists .refl (.inl rfl)).2 _).mp hn
    exact ⟨InGraph.closure .refl hclosure, hclosure.1⟩
  | tail _ hn ih =>
    have hclosure := ((hcompiled.lists ih.1 (.inr ih.2)).2 _).mp hn
    exact ⟨ih.1.closure hclosure, hclosure.1⟩

omit hcompiled in
/-- Some stop lies behind every node. -/
theorem CoreGraph.exists_stop (hn : InGraph h E.startState n) :
    ∃ s, ¬ Passes (h s) ∧ Relation.ReflTransGen (WalkEdge h) n s := by
  obtain ⟨t, hpath, hkind⟩ := hgraph.ends hn
  clear hn
  induction hpath using Relation.ReflTransGen.head_induction_on with
  | refl => exact ⟨t, by simp [Passes, hkind], .refl⟩
  | @head a b hlead _ ih =>
    by_cases hpass : Passes (h a)
    · cases hlead with
      | walk hedge =>
        obtain ⟨s, hstop, hpath⟩ := ih
        exact ⟨s, hstop, .head hedge hpath⟩
      | out2 hnot => exact absurd hpass hnot
    · exact ⟨a, hpass, .refl⟩

theorem CoreGraph.coreAutomaton : CoreAutomaton E where
  kind hn := by
    obtain ⟨hin, hstop⟩ := hcompiled.below hn
    unfold NFA.Core
    rw [hcompiled.graph.type]
    exact hgraph.kind hin hstop
  ids hm hn hid := by
    obtain ⟨hinm, hstopm⟩ := hcompiled.below hm
    obtain ⟨hinn, hstopn⟩ := hcompiled.below hn
    rw [hcompiled.graph.id, hcompiled.graph.id] at hid
    exact hgraph.ids hinm hinn hstopm hstopn hid
  leads := by
    intro n hn hacc hnil
    obtain ⟨hin, hstop⟩ := hcompiled.below hn
    rw [hcompiled.graph.type] at hacc
    obtain ⟨s, hstop', hpath⟩ := hgraph.exists_stop (hin.tail (.out2 hstop hacc))
    have hmem := ((hcompiled.lists hin (.inr hstop)).2 s).mpr ⟨hstop', _, .out2 hstop hacc, hpath⟩
    rw [hnil] at hmem
    cases hmem
  literal hn htype := by
    obtain ⟨hin, -⟩ := hcompiled.below hn
    rw [hcompiled.graph.type] at htype
    rw [hcompiled.graph.literal]
    exact hgraph.literal hin htype

end Automaton

/-- `compile_regex` keeps the graph and its start, and leaves closures on the lists. -/
theorem compiledFrom_compileRegex {pattern : List Int} {ignoreCase : Bool}
    (hparse : Parser.parseRegex fuel pattern ignoreCase = .ok p)
    (ok : Compilable p.ctrl.heap nodes (p.ctrl.heap p.peek).parent
      (p.totalNfaIds + p.intervalCount)) (hrun : compileRegex budget p = some p')
    (place : Nat → Nat) (flags : CtrlFlags) (line : Line) :
    CompiledFrom p.ctrl.heap (Env.ofParser p' place flags line) ∧
      (Env.ofParser p' place flags line).startState = (p.ctrl.heap p.peek).parent := by
  obtain ⟨hblank, hstack⟩ := Parser.parseRegex_blank hparse
  have hlists := fun {n} => collectAdjacencies_lists (n := n) ok hblank hstack hrun
  unfold compileRegex at hrun
  simp only [collectAdjacencies, Option.bind_eq_bind, Option.bind_eq_some_iff] at hrun
  obtain ⟨h₁, hwalk, s, -, ⟨l, h₂⟩, hall, hrun⟩ := hrun
  rw [hstack, List.nil_append] at hall
  obtain ⟨hx, -⟩ := expandAll_spec ok (expanded_start ok hblank hwalk) (by simp [Processed]) hall
  cases hrun
  have hstart : (Env.ofParser
      { p with
        ctrl := { p.ctrl with heap := h₂ }
        branchStack := l
        synthPatterns := s.patterns } place flags line).startState = (p.ctrl.heap p.peek).parent :=
    hx.graph.parent p.peek
  refine ⟨⟨hx.graph, fun hin hn => ?_⟩, hstart⟩
  rw [hstart] at hin hn
  exact hlists hin hn

/-- The text from one position to another one, both included, is spelled on the way to an
accepting node. -/
def GraphSpan (h : Heap) (start : Addr) (l : Line) (i j : Nat) : Prop :=
  l.buffer ≤ i ∧ i ≤ j ∧ j < l.eolPos ∧
    ∃ t, (h t).type = .accepting ∧ Spells (wordGraph h) start (l.slice i (j + 1)) t

/-- The same program without its keyword search. -/
def Env.withoutSearch (E : Env) : Env := { E with kw := none }

/-- A compiled core graph, run on a line with `-o` and `-g`. -/
theorem CoreGraph.setting {flags : CtrlFlags} {line : Line} {place : Nat → Nat}
    (hgraph : CoreGraph h (Env.ofParser p' place flags line).startState)
    (hcompiled : CompiledFrom h (Env.ofParser p' place flags line))
    (hmode : flags.individualMatches = true) (hglobal : flags.mglobal = true)
    (hcase : flags.ignoreCase = false) (hline : line.NulFree) :
    CoreSetting (Env.ofParser p' place flags line).withoutSearch where
  automaton := CoreGraph.coreAutomaton (E := (Env.ofParser p' place flags line).withoutSearch)
    hgraph ⟨hcompiled.graph, hcompiled.lists⟩
  kw := rfl
  individualMatches := hmode
  mglobal := hglobal
  ignoreCase := hcase
  line := hline

theorem unused_newNfaSim (E : Env) : Unused (newNfaSim E) :=
  ⟨rfl, rfl, fun _ => rfl, List.cons_ne_nil _ _⟩

/-- The text from one position to another one, both included, is a word of a language. -/
def LanguageSpan (L : Language Int) (l : Line) (i j : Nat) : Prop :=
  l.buffer ≤ i ∧ i ≤ j ∧ j < l.eolPos ∧ l.slice i (j + 1) ∈ L

/-- The compiled graph of a language, run on a line with `-o` and `-g`, accepts this language. -/
theorem CoreGraph.accepting {pattern : List Int} {ignoreCase : Bool} {flags : CtrlFlags}
    {line : Line} {L : Language Int} (hgraph : CoreGraph p.ctrl.heap (p.ctrl.heap p.peek).parent)
    (place : Nat → Nat) (hparse : Parser.parseRegex fuel pattern ignoreCase = .ok p)
    (ok : Compilable p.ctrl.heap nodes (p.ctrl.heap p.peek).parent
      (p.totalNfaIds + p.intervalCount))
    (hL : ∀ w, (∃ t, (p.ctrl.heap t).type = .accepting ∧
      Spells (wordGraph p.ctrl.heap) (p.ctrl.heap p.peek).parent w t) ↔ w ∈ L)
    (hrun : compileRegex budget p = some p') (hmode : flags.individualMatches = true)
    (hglobal : flags.mglobal = true) (hcase : flags.ignoreCase = false) (hline : line.NulFree) :
    CoreSetting (Env.ofParser p' place flags line).withoutSearch ∧
      ∀ w, (Env.ofParser p' place flags line).withoutSearch.Accepts w ↔ w ∈ L := by
  obtain ⟨hcompiled, hstart⟩ := compiledFrom_compileRegex hparse ok hrun place flags line
  rw [← hstart] at hgraph hL
  have hcompiled' : CompiledFrom p.ctrl.heap (Env.ofParser p' place flags line).withoutSearch :=
    ⟨hcompiled.graph, hcompiled.lists⟩
  have hgraph' : CoreGraph p.ctrl.heap
      (Env.ofParser p' place flags line).withoutSearch.startState := hgraph
  exact ⟨hgraph.setting hcompiled hmode hglobal hcase hline,
    fun w => (CoreGraph.accepts_iff hgraph' hcompiled').trans (hL w)⟩

theorem CoreSetting.languageSpans {E : Env} {L : Language Int}
    (haccepts : ∀ w, E.Accepts w ↔ w ∈ L) {spans : List (Nat × Nat)}
    (hspans : LeftmostLongest E.Span E.line.buffer spans) :
    LeftmostLongest (LanguageSpan L E.line) E.line.buffer spans := by
  refine hspans.congr fun i j => ?_
  exact and_congr_right fun _ => and_congr_right fun _ => and_congr_right fun _ =>
    (haccepts _).symm

/-- Without a prescan the leftmost longest words of an accepted language are reported. -/
theorem CoreSetting.runs {E : Env} {L : Language Int} {ctrl : NFASimCtrl} (hset : CoreSetting E)
    (haccepts : ∀ w, E.Accepts w ↔ w ∈ L) (hunused : Unused ctrl)
    (hcursor : ctrl.kwCursor = none) : ∃ spans value d least,
    (∀ fuel, least ≤ fuel → runLine E fuel ctrl = some (value, spans.map toMatch, d)) ∧
      LeftmostLongest (LanguageSpan L E.line) E.line.buffer spans ∧
        (value = true ↔ ∃ w, w <:+: E.line.text ∧ w ∈ L) := by
  have hfresh := FreshOn.of_reset (E := E) hunused hcursor
  obtain ⟨st, least, hruns, spans, hreports, hspans, hfound⟩ := hfresh.plain hset
  refine ⟨spans, st.matchFound, _, least, fun fuel hle =>
    runLine_of_runNfa hset.individualMatches (hruns fuel hle) hreports,
    languageSpans haccepts hspans, ?_⟩
  rw [hfound, ← exists_infix_accepted_iff]
  exact exists_congr fun w => and_congr_right fun _ => haccepts w

/-- **A compiled pattern reports what its graph spells.** With `-o` and `-g` and without a prescan
the leftmost longest parts of the line that are spelled on the way from the start node to an
accepting node are reported, and the value says whether there is such a part, if only the empty
one. -/
theorem compiled_reports_spelled {pattern : List Int} {ignoreCase : Bool} {place : Nat → Nat}
    {flags : CtrlFlags} {line : Line}
    (hparse : Parser.parseRegex fuel pattern ignoreCase = .ok p)
    (ok : Compilable p.ctrl.heap nodes (p.ctrl.heap p.peek).parent
      (p.totalNfaIds + p.intervalCount))
    (hgraph : CoreGraph p.ctrl.heap (p.ctrl.heap p.peek).parent)
    (hrun : compileRegex budget p = some p')
    (hmode : flags.individualMatches = true) (hglobal : flags.mglobal = true)
    (hcase : flags.ignoreCase = false) (hline : line.NulFree) : ∃ spans value d least,
    (∀ fuel, least ≤ fuel →
      runLine (Env.ofParser p' place flags line).withoutSearch fuel
        (newNfaSim (Env.ofParser p' place flags line).withoutSearch) =
          some (value, spans.map toMatch, d)) ∧
      LeftmostLongest (GraphSpan p.ctrl.heap (p.ctrl.heap p.peek).parent line) line.buffer spans ∧
        (value = true ↔ ∃ w t, w <:+: line.text ∧ (p.ctrl.heap t).type = .accepting ∧
          Spells (wordGraph p.ctrl.heap) (p.ctrl.heap p.peek).parent w t) := by
  obtain ⟨hset, haccepts⟩ := hgraph.accepting place
    (L := {w | ∃ t, (p.ctrl.heap t).type = .accepting ∧
      Spells (wordGraph p.ctrl.heap) (p.ctrl.heap p.peek).parent w t})
    hparse ok (fun _ => Iff.rfl) hrun hmode hglobal hcase hline
  obtain ⟨spans, value, d, least, hruns, hspans, hvalue⟩ :=
    hset.runs haccepts (unused_newNfaSim _) rfl
  refine ⟨spans, value, d, least, hruns, hspans, hvalue.trans (exists_congr fun w => ?_)⟩
  exact exists_and_left.symm

/-- How far the nodes of `(a|b)*c` are from the accepting node. -/
def letterDistances (a : Addr) : Nat := [0, 3, 4, 3, 4, 5, 2, 2, 1, 0].getD a 0

/-- The heights of the nodes of `(a|b)*c`. -/
def letterHeights (a : Addr) : Nat := [0, 1, 2, 1, 2, 3, 0, 4, 1, 0].getD a 0

/-- The nodes of `(a|b)*c`. -/
def letterNodes : Finset Addr := {1, 2, 3, 4, 5, 6, 7, 8, 9}

/-- The matches of `(a|b)*c` are those its graph spells. -/
theorem compiled_reports_spelled_letters : ∃ p p',
    Parser.parseRegex 40 (bytes "(a|b)*c") false = .ok p ∧ compileRegex 2000 p = some p' ∧
      ∃ spans value d least,
        (∀ fuel, least ≤ fuel →
          runLine (Env.ofParser p' (fun _ => 0) { mglobal := true, showMatchLine := false }
              twoMatches).withoutSearch fuel
            (newNfaSim (Env.ofParser p' (fun _ => 0)
              { mglobal := true, showMatchLine := false } twoMatches).withoutSearch) =
                some (value, spans.map toMatch, d)) ∧
          LeftmostLongest (GraphSpan p.ctrl.heap (p.ctrl.heap p.peek).parent twoMatches)
            twoMatches.buffer spans ∧
            (value = true ↔ ∃ w t, w <:+: twoMatches.text ∧ (p.ctrl.heap t).type = .accepting ∧
              Spells (wordGraph p.ctrl.heap) (p.ctrl.heap p.peek).parent w t) := by
  have hcheck : ((Parser.parseRegex 40 (bytes "(a|b)*c") false).toOption.map fun p =>
      decide (((p.ctrl.heap p.peek).parent ∈ letterNodes ∧
        Passes (p.ctrl.heap (p.ctrl.heap p.peek).parent) ∧
        (letterNodes.filter fun a => Collectable (p.ctrl.heap a)).card <
          p.totalNfaIds + p.intervalCount ∧
        (∀ a ∈ letterNodes, ∀ b ∈ (p.ctrl.heap a).targets, b ∈ letterNodes) ∧
        (∀ a ∈ letterNodes, (p.ctrl.heap a).type ≠ .interval) ∧
        (∀ a ∈ letterNodes, (p.ctrl.heap a).branches.size = (p.ctrl.heap a).branches.items.length ∧
          (p.ctrl.heap a).branches.tail = (p.ctrl.heap a).branches.items.getLastD 0) ∧
        ∀ a ∈ letterNodes, ∀ b ∈ (p.ctrl.heap a).forward, letterHeights b < letterHeights a) ∧
        (∀ a ∈ letterNodes, Passes (p.ctrl.heap a) ∨ (p.ctrl.heap a).Core) ∧
        (∀ a ∈ letterNodes, ∀ b ∈ letterNodes, ¬ Passes (p.ctrl.heap a) →
          ¬ Passes (p.ctrl.heap b) → (p.ctrl.heap a).id = (p.ctrl.heap b).id → a = b) ∧
        (∀ a ∈ letterNodes, (p.ctrl.heap a).type = .accepting ∨
          ∃ b ∈ (p.ctrl.heap a).targets, letterDistances b < letterDistances a) ∧
        ∀ a ∈ letterNodes, (p.ctrl.heap a).type = .literal →
          (p.ctrl.heap a).literal ≠ eolSymbol)) = some true := by decide +kernel
  rcases hparse : Parser.parseRegex 40 (bytes "(a|b)*c") false with e | p
  · rw [hparse] at hcheck
    cases hcheck
  · rw [hparse] at hcheck
    simp only [Except.toOption, Option.map_some, Option.some.injEq, decide_eq_true_eq] at hcheck
    obtain ⟨⟨hstart, hpass, hcount, hclosed, hkind, hbranches, hheight⟩, hcore, hids, hless,
      hliteral⟩ := hcheck
    have ok : Compilable p.ctrl.heap letterNodes (p.ctrl.heap p.peek).parent
        (p.totalNfaIds + p.intervalCount) :=
      .of_targets (by decide) hstart hpass hclosed hkind hbranches letterHeights hheight hcount
    have hgraph : CoreGraph p.ctrl.heap (p.ctrl.heap p.peek).parent :=
      .of_nodes hpass hstart hclosed hcore hids
        (fun a ha => leads_accepting_of_measure letterDistances hclosed hcore hless ha) hliteral
    have hloop : ∀ a ∈ letterNodes, ¬ Relation.TransGen (SynthEdge p.ctrl.heap) a a :=
      no_loop_of_measure letterHeights fun a ha b hedge =>
        ⟨hclosed a ha b ((p.ctrl.heap a).forward_subset hedge.mem_forward),
          hheight a ha b hedge.mem_forward⟩
    obtain ⟨hblank, hstack⟩ := Parser.parseRegex_blank hparse
    obtain ⟨p', hrun⟩ := collectAdjacencies_isSome ok hblank hstack hloop
      (show enough letterNodes ≤ 2000 by decide)
    exact ⟨p, p', rfl, hrun,
      compiled_reports_spelled hparse ok hgraph hrun rfl rfl rfl (by unfold Line.NulFree; decide)⟩

end Recognizer
