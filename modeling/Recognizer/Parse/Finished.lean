import Recognizer.Compile.CompileRegex
import Recognizer.Parse.Settled
import Recognizer.Parse.Stacks
import Recognizer.Run.Compiled

/-!
# The automaton that `parse_regex` hands over

`parse_regex` numbers the accepting node of the last automaton and puts an `EPSILON` node in front
of a start node that reads a letter. The automaton of a pattern without intervals owns its nodes,
so the compiler can walk it, and the ids that were handed out are more than the nodes that have a
list of their own.
-/

namespace Recognizer

open PathSearch

variable {c : NFACtrl} {h h' : Heap} {live : Finset Addr} {frag : Addr → Addr} {t s a b : Addr}
  {p p' : Parser} {rest : List Addr} {fuel : Nat}

/-- The accepting node may have got a number, and the start node is walked through or has a new
`EPSILON` node in front of it. -/
structure Ended (c : NFACtrl) (h' : Heap) (live : Finset Addr) (t s : Addr) : Prop where
  same : ∀ a ∈ live, a ≠ t → h' a = c.heap a
  type : (h' t).type = .accepting
  start : s = (c.heap t).parent ∧ Passes (h' s) ∨
    s ∉ live ∧ s ≠ 0 ∧ (h' s).type = .epsilon ∧ (h' s).out2 = (c.heap t).parent

/-- `mark_nfa` writes a number, at most. -/
theorem NFACtrl.markNfa_spec (c : NFACtrl) (t : Addr) :
    (∀ a, a ≠ t → (c.markNfa t).heap a = c.heap a) ∧
      (∃ id, (c.markNfa t).heap t = { c.heap t with id := id }) ∧
      c.nextSeqId ≤ (c.markNfa t).nextSeqId ∧ (c.markNfa t).alloc = c.alloc := by
  unfold NFACtrl.markNfa
  split
  · refine ⟨fun a ha => ?_, ⟨c.nextSeqId, ?_⟩, Nat.le_succ _, rfl⟩
    · rw [heap_modify, Heap.modify_of_ne _ ha]
    · rw [heap_modify, Heap.modify_self]
  · exact ⟨fun _ _ => rfl, ⟨(c.heap t).id, rfl⟩, le_rfl, rfl⟩

/-- What the last steps of `parse_regex` write. -/
theorem ended_complete (ho : Owned p.ctrl [t] live frag) (hstack : p.symbolStack = t :: rest) :
    Ended p.ctrl p.complete.ctrl.heap live t (p.complete.ctrl.heap p.complete.peek).parent ∧
      (p.complete.ctrl.heap t).id = ((p.ctrl.markNfa t).heap t).id ∧
      p.complete.totalNfaIds = (p.ctrl.markNfa t).nextSeqId := by
  obtain ⟨htlive, -, htype⟩ := ho.shape.root t (by simp)
  obtain ⟨hslive, -, hst⟩ := ho.shape.start t (by simp)
  have hpeek : p.peek = t := by rw [Parser.peek, hstack, List.headD_cons]
  obtain ⟨hkept, ⟨id, hroot⟩, -, halloc⟩ := p.ctrl.markNfa_spec t
  have hok : AllocOk (p.ctrl.markNfa t) live := ho.alloc.congr halloc
  unfold Parser.complete
  rw [hpeek]
  generalize p.ctrl.markNfa t = c at hkept hroot hok
  have hfirst : (c.heap t).parent = (p.ctrl.heap t).parent := by rw [hroot]
  have hpeek' : ({ p with ctrl := c, totalNfaIds := c.nextSeqId } : Parser).peek = t := hpeek
  unfold Parser.insertEpsilonStart
  rw [hpeek']
  dsimp only
  rw [hfirst, hkept _ hst]
  split
  · rename_i hpass
    obtain ⟨n, c', hrun, hn, hok', hheap, -⟩ := hok.newNfa .epsilon
    have hnt : n ≠ t := fun h => hn (h ▸ htlive)
    have hnz : n ≠ 0 := fun h => hok'.zero_notMem (h ▸ Finset.mem_insert_self n live)
    rw [hrun]
    simp only [Parser.pop, Parser.push, Parser.peek, Parser.modify, hstack, List.headD_cons,
      NFACtrl.heap_modify, Heap.modify_self, hheap, Heap.modify_of_ne _ hnt.symm, hfirst]
    refine ⟨⟨fun a ha hat => ?_, ?_, .inr ⟨hn, hnz, ?_, ?_⟩⟩, ?_, trivial⟩
    · have han : a ≠ n := fun h => hn (h ▸ ha)
      rw [Heap.modify_of_ne _ hat, Heap.modify_of_ne _ han, Heap.modify_of_ne _ han, hkept a hat]
    · rw [Heap.modify_self, Heap.modify_of_ne _ hnt.symm, Heap.modify_of_ne _ hnt.symm, hroot]
      exact htype
    · rw [Heap.modify_of_ne _ hnt, Heap.modify_self, Heap.modify_self]
    · rw [Heap.modify_of_ne _ hnt, Heap.modify_self]
    · trivial
  · rename_i hpass
    rw [not_and_or, not_not, not_not] at hpass
    rw [hpeek', hfirst]
    refine ⟨⟨fun a _ hat => hkept a hat, ?_, .inl ⟨rfl, ?_⟩⟩, rfl, rfl⟩
    · rw [hroot]
      exact htype
    · rw [hkept _ hst]
      exact hpass.elim (fun ht => .inr (.inl ht)) .inl

namespace Ended

variable (hd : Ended c h' live t s) (ho : Owned c [t] live frag)

include hd

theorem passes_start : Passes (h' s) := by
  rcases hd.start with ⟨-, hpass⟩ | ⟨-, -, htype, -⟩
  · exact hpass
  · exact .inl htype

include ho

/-- The new node points to the old start node. -/
theorem targets_of_new (hnew : s ∉ live) : (h' s).targets = [(c.heap t).parent] := by
  rcases hd.start with ⟨rfl, -⟩ | ⟨-, -, htype, hout⟩
  · exact absurd (ho.shape.start t (by simp)).1 hnew
  · simp [NFA.targets, htype, hout]

/-- The edges lead to nodes of the automaton. -/
theorem targets_live (ha : a ∈ insert s live) (hb : b ∈ (h' a).targets) : b ∈ live := by
  by_cases hlive : a ∈ live
  · by_cases hat : a = t
    · rw [hat, NFA.targets, hd.type] at hb
      cases hb
    · rw [hd.same a hlive hat] at hb
      exact (ho.shape.target a hlive b hb).1
  · obtain rfl := (Finset.mem_insert.mp ha).resolve_right hlive
    rw [hd.targets_of_new ho hlive, List.mem_singleton] at hb
    exact hb ▸ (ho.shape.start t (by simp)).1

theorem mem_of_inGraph (hin : InGraph h' s a) : a ∈ insert s live := by
  induction hin with
  | refl => exact Finset.mem_insert_self s live
  | tail _ hlead ih => exact Finset.mem_insert_of_mem (hd.targets_live ho ih hlead.mem_targets)

/-- The forward edges close no loop. -/
theorem exists_height : ∃ f : Addr → Nat, ∀ a ∈ insert s live, ∀ b ∈ (h' a).forward, f b < f a := by
  obtain ⟨height, hh⟩ := ho.shape.height
  refine ⟨fun a => if a ∈ live then height a else height (c.heap t).parent + 1, fun a ha b hb => ?_⟩
  have hbl := hd.targets_live ho ha ((h' a).forward_subset hb)
  show (if b ∈ live then height b else _) < if a ∈ live then height a else _
  rw [if_pos hbl]
  by_cases hlive : a ∈ live
  · rw [if_pos hlive]
    by_cases hat : a = t
    · rw [hat, NFA.forward, hd.type] at hb
      cases hb
    · rw [hd.same a hlive hat] at hb
      exact hh a hlive b hb
  · rw [if_neg hlive]
    obtain rfl := (Finset.mem_insert.mp ha).resolve_right hlive
    have hb' := (h' a).forward_subset hb
    rw [hd.targets_of_new ho hlive, List.mem_singleton] at hb'
    rw [hb']
    exact Nat.lt_succ_self _

/-- **The compiler can walk the graph** of an automaton without intervals and backreferences, if
the branch lists are well formed: its nodes with a list of their own are fewer than the ids. -/
theorem compilable {total : Nat} (htotal : c.nextSeqId ≤ total) (hplain : NoIntervals h')
    (hbackref : ∀ a, InGraph h' s a → (h' a).type ≠ .backreference)
    (hbranches : ∀ a, InGraph h' s a → (h' a).type = .tree → (h' a).branches.WellFormed) :
    ∃ nodes ⊆ insert s live, Compilable h' nodes s total := by
  classical
  have hmem : ∀ {a b}, InGraph h' s a → Leads h' a b → b ∈ (insert s live).filter (InGraph h' s) :=
    fun ha hlead => Finset.mem_filter.mpr ⟨hd.mem_of_inGraph ho (ha.tail hlead), ha.tail hlead⟩
  refine ⟨_, Finset.filter_subset (InGraph h' s) (insert s live), ?_⟩
  refine { nonzero := fun hzero => ?_, closed := fun a ha b hedge => ?_, acyclic := ?_
           branches := fun a ha => hbranches a (Finset.mem_filter.mp ha).2
           start_mem := Finset.mem_filter.mpr ⟨Finset.mem_insert_self s live, .refl⟩
           start_passes := hd.passes_start
           out2_mem := fun a ha hstop hacc => hmem (Finset.mem_filter.mp ha).2 (.out2 hstop hacc)
           no_interval := fun a _ => hplain a
           collectables := ?_ }
  · rcases Finset.mem_insert.mp (Finset.mem_filter.mp hzero).1 with hs | hlive
    · rcases hd.start with ⟨heq, -⟩ | ⟨-, hne, -⟩
      · exact ho.alloc.zero_notMem (hs ▸ heq ▸ (ho.shape.start t (by simp)).1)
      · exact hne hs.symm
    · exact ho.alloc.zero_notMem hlive
  · exact hmem (Finset.mem_filter.mp ha).2 (.walk hedge)
  · obtain ⟨f, hf⟩ := hd.exists_height ho
    refine no_loop_of_measure f fun a ha b hedge => ?_
    obtain ⟨htype, -, rfl⟩ := hedge
    have hlead : Leads h' a (h' a).out2 := .walk (.epsilon htype)
    have hforward : (h' a).out2 ∈ (h' a).forward := by simp [NFA.forward, htype]
    exact ⟨hmem (Finset.mem_filter.mp ha).2 hlead, hf a (Finset.mem_filter.mp ha).1 _ hforward⟩
  · refine lt_of_le_of_lt (Finset.card_le_card fun a ha => ?_) (ho.count.trans_le htotal)
    obtain ⟨ha, hcollectable⟩ := Finset.mem_filter.mp ha
    obtain ⟨ha, hin⟩ := Finset.mem_filter.mp ha
    have hlive : a ∈ live := by
      by_contra hnot
      obtain rfl := (Finset.mem_insert.mp ha).resolve_right hnot
      exact hcollectable.1 hd.passes_start
    have hat : a ≠ t := fun heq => hcollectable.2 (heq ▸ hd.type)
    refine Finset.mem_filter.mpr ⟨hlive, ?_⟩
    rw [← hd.same a hlive hat]
    exact ⟨hcollectable, hplain a, hbackref a hin⟩

/-- The synthesis of keywords closes no loop. -/
theorem no_synthesis_loop : ∀ a ∈ insert s live, ¬ Relation.TransGen (SynthEdge h') a a := by
  obtain ⟨f, hf⟩ := hd.exists_height ho
  refine no_loop_of_measure f fun a ha b hedge => ?_
  have hforward := hedge.mem_forward
  exact ⟨Finset.mem_insert_of_mem (hd.targets_live ho ha ((h' a).forward_subset hforward)),
    hf a ha b hforward⟩

end Ended

/-! ## Patterns without intervals -/

namespace Parser

variable {text : List Int} {map m : Nat → Bool} {tokenCount n : Nat} {pattern : List Int}
  {ignoreCase : Bool}

/-- The first token of an expression is not the end of the text. -/
theorem At.starts (hat : At p text) (hstart : startsExpression p.lookahead.type = true) :
    ∃ c rest, text = c :: rest ∧ c ≠ eolSymbol := by
  obtain ⟨-, -, hl⟩ := hat
  cases hl with
  | @char _ rest c _ _ hends =>
    refine ⟨c, rest, rfl, ?_⟩
    rintro rfl
    cases hends
  | @escape _ rest e => exact ⟨92, e :: rest, rfl, by decide⟩
  | stop _ _ _ htoken => rw [htoken] at hstart; cases hstart
  | dangling _ _ htoken => rw [htoken] at hstart; cases hstart
  | newline _ _ _ htoken => rw [htoken] at hstart; cases hstart

/-- The scan for backreferences counts the characters it reads. -/
theorem le_prescanInput (hscan : prescanInput text map n = .ok (m, tokenCount)) :
    n ≤ tokenCount := by
  induction hlen : text.length using Nat.strong_induction_on generalizing text map n with
  | _ k ih =>
    subst hlen
    rw [prescanInput.eq_def] at hscan
    split at hscan
    · cases hscan
    · rename_i c rest
      split at hscan
      · cases hscan
        exact le_rfl
      · split at hscan
        · split at hscan
          · cases hscan
          · refine (Nat.le_succ n).trans (ih _ ?_ hscan rfl)
            simp only [List.length_cons]
            omega
        · exact (Nat.le_succ n).trans (ih _ (by simp) hscan rfl)

/-- The text of an accepted pattern has a character at least. -/
theorem tokenCount_pos (hnul : 0 ∉ pattern)
    (hscan : prescanInput (initParser pattern ignoreCase).prescanBuffer (fun _ => false) 0 =
      .ok (m, tokenCount))
    (hstart : startsExpression (initParser pattern ignoreCase).lookahead.type = true) :
    0 < tokenCount := by
  have hat := at_initParser hnul ignoreCase
  obtain ⟨c, rest, htext, hc⟩ := hat.starts hstart
  have hrest : rest ≠ [] := by
    rintro rfl
    have hlast := hat.terminated.last
    rw [htext] at hlast
    exact hc (Option.some.inj hlast)
  rw [prescanBuffer_eq hat.terminated, htext, List.dropLast_cons_of_ne_nil hrest,
    prescanInput.eq_def, List.cons_append] at hscan
  dsimp only at hscan
  rw [if_neg hc] at hscan
  split at hscan
  · split at hscan
    · cases hscan
    · exact le_prescanInput hscan
  · exact le_prescanInput hscan

theorem Sound.joined (h : p.Sound []) : p.joined.Sound [] := by
  unfold Parser.joined
  split
  · exact (h.pop.joinAll _).push
  · exact h

/-- **Without intervals** one automaton is completed, whose nodes are its own and no intervals. -/
theorem completes_of_parseRegex (hnul : 0 ∉ pattern)
    (hparse : parseRegex fuel pattern ignoreCase = .ok p)
    (hplain : (initParser pattern ignoreCase).NoInterval
      (initParser pattern ignoreCase).scanner.buffer) :
    NoIntervals p.ctrl.heap ∧ ∃ (q : Parser) (t : Addr) (rest : List Addr) (live : Finset Addr)
      (frag : Addr → Addr), p = q.complete ∧ q.symbolStack = t :: rest ∧
      Owned q.ctrl [t] live frag := by
  have hat := at_initParser hnul ignoreCase
  obtain ⟨map, tokenCount, p₁, hscan, hstart, hpeek, rfl⟩ := parseRegex_stages hparse
  have hat' : At (prepared pattern ignoreCase map tokenCount)
      (initParser pattern ignoreCase).scanner.buffer := hat.congr rfl rfl
  have hbegins : startsExpression (initParser pattern ignoreCase).lookahead.type = true := by
    cases fuel with
    | zero => cases hstart
    | succ fuel =>
      rw [regexParserStart] at hstart
      split at hstart
      · assumption
      · cases hstart
  have hempty : (prepared pattern ignoreCase map tokenCount).Sound [] := by
    have hinit := (Grown.init (tokenCount_pos hnul hscan hbegins)).owns
    cases ignoreCase <;> exact ⟨hinit, List.not_mem_nil⟩
  have hsound := ((Sound.plainRule.parses fuel).start hat' hplain hstart hempty).joined
  refine ⟨?_, p₁.joined, p₁.joined.peek, p₁.joined.symbolStack.tail, ?_⟩
  · exact (Keeps.parsed survives_noIntervals (fun _ => by simp)
      (((Keeps.plainRule survives_noIntervals).parses fuel).start hat' hplain hstart)).1
  · obtain ⟨t, rest, hstack⟩ : ∃ t rest, p₁.joined.symbolStack = t :: rest := by
      cases hs : p₁.joined.symbolStack with
      | nil => simp [Parser.peek, hs] at hpeek
      | cons t rest => exact ⟨t, rest, rfl⟩
    have hhead : p₁.joined.peek = t := by rw [Parser.peek, hstack, List.headD_cons]
    rw [hhead] at hpeek ⊢
    have howns := hsound.owns
    rw [hstack] at howns
    have htop : Owns p₁.joined.ctrl [t] := howns.subperm (List.Sublist.subperm (by simp))
    obtain ⟨live, frag, ho⟩ := htop
    rw [List.filter_cons_of_pos (by simpa using hpeek), List.filter_nil] at ho
    exact ⟨live, frag, rfl, by rw [hstack, List.tail_cons], ho⟩

end Parser

/-- **Compilation computes closures.** A pattern is parsed that has no intervals and whose graph
has no backreferences. Unless a branch list is malformed, `compile_regex` returns, and whenever it
does, the reachable lists of the start node and of every stop below it are closures. -/
theorem compileRegex_closures {pattern : List Int} {ignoreCase : Bool} (hnul : 0 ∉ pattern)
    (hparse : Parser.parseRegex fuel pattern ignoreCase = .ok p)
    (hplain : (Parser.initParser pattern ignoreCase).NoInterval
      (Parser.initParser pattern ignoreCase).scanner.buffer)
    (hbackref : ∀ n, Relation.ReflTransGen (Leads p.ctrl.heap) (p.ctrl.heap p.peek).parent n →
      (p.ctrl.heap n).type ≠ .backreference)
    (hbranches : ∀ n, Relation.ReflTransGen (Leads p.ctrl.heap) (p.ctrl.heap p.peek).parent n →
      (p.ctrl.heap n).type = .tree → (p.ctrl.heap n).branches.WellFormed) :
    (∀ budget p', compileRegex budget p = some p' → ∀ n,
      Relation.ReflTransGen (Leads p.ctrl.heap) (p.ctrl.heap p.peek).parent n →
      (n = (p.ctrl.heap p.peek).parent ∨ ¬ Passes (p.ctrl.heap n)) →
      ListsClosure p.ctrl.heap p'.ctrl.heap n) ∧
    ∃ bound, ∀ budget, bound ≤ budget → ∃ p', compileRegex budget p = some p' := by
  obtain ⟨hblank, hstack⟩ := Parser.parseRegex_blank hparse
  obtain ⟨hinterval, q, t, rest, live, frag, rfl, hsymbols, ho⟩ :=
    Parser.completes_of_parseRegex hnul hparse hplain
  obtain ⟨hd, -, htotal⟩ := ended_complete ho hsymbols
  have hids : q.ctrl.nextSeqId ≤ q.complete.totalNfaIds + q.complete.intervalCount := by
    rw [htotal]
    exact (q.ctrl.markNfa_spec t).2.2.1.trans (Nat.le_add_right _ _)
  obtain ⟨nodes, hsub, ok⟩ := hd.compilable ho hids hinterval hbackref hbranches
  refine ⟨fun budget p' hrun n hreach hn => ?_, enough nodes, fun budget hbudget => ?_⟩
  · exact collectAdjacencies_lists ok hblank hstack hrun hreach hn
  · exact collectAdjacencies_isSome ok hblank hstack
      (fun a ha => hd.no_synthesis_loop ho a (hsub ha)) hbudget

/-- The lists of `(a|b)*c` are closures. -/
theorem compileRegex_closures_letters : ∃ p p' budget,
    Parser.parseRegex 40 (bytes "(a|b)*c") false = .ok p ∧ compileRegex budget p = some p' ∧
      ListsClosure p.ctrl.heap p'.ctrl.heap (p.ctrl.heap p.peek).parent := by
  have hcheck : ((Parser.parseRegex 40 (bytes "(a|b)*c") false).toOption.map fun p =>
      decide ((p.ctrl.heap p.peek).parent ∈ letterNodes ∧
        ∀ a ∈ letterNodes, (p.ctrl.heap a).type ≠ .backreference ∧
          ((p.ctrl.heap a).branches.size = (p.ctrl.heap a).branches.items.length ∧
            (p.ctrl.heap a).branches.tail = (p.ctrl.heap a).branches.items.getLastD 0) ∧
          ∀ b ∈ (p.ctrl.heap a).targets, b ∈ letterNodes)) = some true := by decide +kernel
  have hplain : (Parser.initParser (bytes "(a|b)*c") false).NoInterval
      (Parser.initParser (bytes "(a|b)*c") false).scanner.buffer := by
    unfold Parser.NoInterval
    decide +kernel
  obtain ⟨p, hparse, hp⟩ := parsed_spec hcheck
  obtain ⟨hstart, hnodes⟩ := of_decide_eq_true hp
  have hmem : ∀ n, Relation.ReflTransGen (Leads p.ctrl.heap) (p.ctrl.heap p.peek).parent n →
      n ∈ letterNodes := by
    intro n hreach
    induction hreach with
    | refl => exact hstart
    | tail _ hlead ih => exact (hnodes _ ih).2.2 _ hlead.mem_targets
  obtain ⟨hlists, bound, hreturns⟩ := compileRegex_closures (by decide) hparse hplain
    (fun n hreach => (hnodes n (hmem n hreach)).1)
    (fun n hreach _ => (hnodes n (hmem n hreach)).2.1)
  obtain ⟨p', hrun⟩ := hreturns bound le_rfl
  exact ⟨p, p', bound, hparse, hrun, hlists bound p' hrun _ .refl (.inl rfl)⟩

end Recognizer
