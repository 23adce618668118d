import Mathlib.Data.Finset.Prod
import Mathlib.Data.Finset.Union
import Recognizer.Compile.Calls
import Recognizer.Compile.Coverage
import Recognizer.Core.MarkedRecursion

/-!
# When the walks of `collect_adjacencies` end

Below an ordinary node every `SPLIT` and `TREE` node is marked while the walk is
below it. Below an interval the `SPLIT` nodes are not marked: there the walk only
refuses to enter the first node of the loop again, once it has taken an `out1`. It
returns unless it can come back to a place along moves without a mark.
-/

namespace Recognizer

open MarkedRecursion BreadthFirst

variable {h h' g g' : Heap} {current v f start : Addr} {fuel recursion total : Nat} {M : Set Addr}

/-- A place in a walk: the node visited and the node not to be entered. -/
abbrev Spot := Addr × Addr

/-- The moves of a walk that mark no node, or an `EPSILON` node, whose mark is not
looked at. -/
inductive Slips (h : Heap) (current : Addr) : Spot → Spot → Prop where
  | epsilon {v f : Addr} (hv : v ≠ f) (hnull : v ≠ 0) (htype : (h v).type = .epsilon) :
    Slips h current (v, f) ((h v).out2, f)
  | splitLeft {v f : Addr} (hv : v ≠ f) (hnull : v ≠ 0) (htype : (h v).type = .split)
      (hcur : (h current).type = .interval) :
    Slips h current (v, f) ((h v).out1, (h current).out1)
  | splitRight {v f : Addr} (hv : v ≠ f) (hnull : v ≠ 0) (htype : (h v).type = .split)
      (hcur : (h current).type = .interval) :
    Slips h current (v, f) ((h v).out2, f)

/-- The moves of a walk under a mark on the node it leaves. -/
inductive Enters (h : Heap) (current : Addr) : Spot → Spot → Prop where
  | branch {v f : Addr} {i : Nat} (hv : v ≠ f) (hnull : v ≠ 0) (htype : (h v).type = .tree)
      (hi : i < (h v).branches.size) : Enters h current (v, f) ((h v).branches.getAt i, f)
  | splitLeft {v f : Addr} (hv : v ≠ f) (hnull : v ≠ 0) (htype : (h v).type = .split)
      (hcur : (h current).type ≠ .interval) : Enters h current (v, f) ((h v).out1, f)
  | splitRight {v f : Addr} (hv : v ≠ f) (hnull : v ≠ 0) (htype : (h v).type = .split)
      (hcur : (h current).type ≠ .interval) : Enters h current (v, f) ((h v).out2, f)

/-- The graph a walk for the current node recurses over; at `NULL` it dies. -/
def walkGraph (h : Heap) (current : Addr) : MarkedRecursion.Graph Spot Addr where
  slip := Slips h current
  enter := Enters h current
  node := Prod.fst
  dead s := s.1 ≠ s.2 ∧ s.1 = 0

/-- No move leaves a node the walk does not walk through. -/
theorem halts_of_stop (hstop : ¬ Passes (h v)) (hnull : v ≠ 0) :
    Halts (walkGraph h current) M (v, f) := by
  refine .intro (fun hdead => hnull hdead.2) ?_ fun _ => ?_
  · rintro t (⟨-, -, ht⟩ | ⟨-, -, ht, -⟩ | ⟨-, -, ht, -⟩)
    all_goals exact absurd (by simp [Passes, ht]) hstop
  · rintro t (⟨-, -, ht, -⟩ | ⟨-, -, ht, -⟩ | ⟨-, -, ht, -⟩)
    all_goals exact absurd (by simp [Passes, ht]) hstop

/-- A walk that returns recurses over moves that end. -/
theorem halts_of_collectAdjacenciesHelper (hw : Walking h current M g)
    (hrun : collectAdjacenciesHelper fuel current v f recursion g = some g') :
    Halts (walkGraph h current) M (v, f) := by
  induction fuel generalizing v f recursion g g' M with
  | zero => simp [collectAdjacenciesHelper] at hrun
  | succ fuel ih =>
    have htype := hw.edges.type v
    have hout2 := hw.edges.out2 v
    cases collectAdjacenciesHelper_cases hrun with
    | forbidden hv =>
      refine .intro (fun hdead => hdead.1 hv) ?_ fun _ => ?_
      · rintro t (⟨hne, -, -⟩ | ⟨hne, -, -, -⟩ | ⟨hne, -, -, -⟩)
        all_goals exact absurd hv hne
      · rintro t (⟨hne, -, -, -⟩ | ⟨hne, -, -, -⟩ | ⟨hne, -, -, -⟩)
        all_goals exact absurd hv hne
    | epsilon hv hnull ht hnext =>
      have hnext' := ih (hw.epsilon ht) hnext
      rw [htype] at ht
      refine .intro (fun hdead => hnull hdead.2) ?_ fun _ => ?_
      · rintro t (⟨-, -, -⟩ | ⟨-, -, ht', -⟩ | ⟨-, -, ht', -⟩)
        · exact hout2 ▸ hnext'
        all_goals exact absurd (ht.symm.trans ht') (by simp)
      · rintro t (⟨-, -, ht', -⟩ | ⟨-, -, ht', -⟩ | ⟨-, -, ht', -⟩)
        all_goals exact absurd (ht.symm.trans ht') (by simp)
    | seen hv hnull ht hflag =>
      have hmem := (hw.mem_iff ht).mpr hflag
      rw [htype] at ht
      refine .intro (fun hdead => hnull hdead.2) ?_ fun hnew => absurd hmem hnew
      rintro t (⟨-, -, ht'⟩ | ⟨-, -, ht', hcur⟩ | ⟨-, -, ht', hcur⟩)
      · exact absurd ht' (by rcases ht with ht | ht <;> simp [ht])
      all_goals exact absurd ht' (hw.splits hcur v hmem)
    | tree hv hnull ht hflag hfold =>
      have hmark := hw.mark (v := v) (Or.inl ht)
      rw [htype] at ht
      rw [hw.edges.branches] at hfold
      refine .intro (fun hdead => hnull hdead.2) ?_ fun _ => ?_
      · rintro t (⟨-, -, ht'⟩ | ⟨-, -, ht', -⟩ | ⟨-, -, ht', -⟩)
        all_goals exact absurd (ht.symm.trans ht') (by simp)
      · rintro t (⟨-, -, -, hi⟩ | ⟨-, -, ht', -⟩ | ⟨-, -, ht', -⟩)
        · obtain ⟨g₁, g₂, hadds, hwalk, -⟩ :=
            walkBranches_walked hfold (List.mem_range.mpr hi)
          exact ih (hmark.adds hadds) hwalk
        all_goals exact absurd (ht.symm.trans ht') (by simp)
    | @splitInterval g₁ g₂ hv hnull ht hflag hcur hleft hright =>
      have hleft' := ih hw hleft
      have hadds := collectAdjacenciesHelper_addsStops hleft
      have hright' := ih (hw.adds hadds) hright
      rw [htype] at ht
      rw [hw.edges.type] at hcur
      rw [hw.edges.out1, hw.edges.out1] at hleft'
      rw [(hw.adds hadds).edges.out2] at hright'
      refine .intro (fun hdead => hnull hdead.2) ?_ fun _ => ?_
      · rintro t (⟨-, -, ht'⟩ | ⟨-, -, -, -⟩ | ⟨-, -, -, -⟩)
        · exact absurd (ht.symm.trans ht') (by simp)
        · exact hleft'
        · exact hright'
      · rintro t (⟨-, -, ht', -⟩ | ⟨-, -, -, hcur'⟩ | ⟨-, -, -, hcur'⟩)
        · exact absurd (ht.symm.trans ht') (by simp)
        all_goals exact absurd hcur hcur'
    | split hv hnull ht hflag hcur hleft hright =>
      rw [hw.edges.type] at hcur
      have hmark := hw.mark (v := v) (Or.inr ⟨ht, hcur⟩)
      have hleft' := ih hmark hleft
      have hright' := ih (hmark.adds (collectAdjacenciesHelper_addsStops hleft)) hright
      rw [htype] at ht
      rw [hw.edges.out1] at hleft'
      rw [hout2] at hright'
      refine .intro (fun hdead => hnull hdead.2) ?_ fun _ => ?_
      · rintro t (⟨-, -, ht'⟩ | ⟨-, -, -, hcur'⟩ | ⟨-, -, -, hcur'⟩)
        · exact absurd (ht.symm.trans ht') (by simp)
        all_goals exact absurd hcur' hcur
      · rintro t (⟨-, -, ht', -⟩ | ⟨-, -, -, -⟩ | ⟨-, -, -, -⟩)
        · exact absurd (ht.symm.trans ht') (by simp)
        · exact hleft'
        · exact hright'
    | self hv hnull hstop hflag hself =>
      obtain ⟨rfl, -⟩ := hself
      rw [hw.edges.passes] at hstop
      exact absurd hflag (by simp [hw.noSelf.resolve_left hstop])
    | stop hv hnull hstop =>
      rw [hw.edges.passes] at hstop
      exact halts_of_stop hstop hnull

/-- The walk over branches whose walks return. -/
theorem walkBranches_returns {branches : BranchList} {idxs : List Nat} (hw : Walking h current M g)
    (hall : ∀ i ∈ idxs, ∀ g, Walking h current M g →
      ∃ fuel g', collectAdjacenciesHelper fuel current (branches.getAt i) f (recursion + 1) g =
        some g') :
    ∃ fuel g', walkBranches fuel current f recursion branches idxs g = some g' := by
  induction idxs generalizing g with
  | nil => exact ⟨0, g, rfl⟩
  | cons i idxs ih =>
    obtain ⟨fuel₁, g₁, hone⟩ := hall i (by simp) g hw
    obtain ⟨fuel₂, g', hrest⟩ := ih (hw.adds (collectAdjacenciesHelper_addsStops hone))
      fun j hj => hall j (by simp [hj])
    refine ⟨max fuel₁ fuel₂, g', ?_⟩
    simp only [walkBranches, List.foldlM_cons, Option.bind_eq_bind, Option.bind_eq_some_iff]
    refine ⟨g₁, collectAdjacenciesHelper_le (le_max_left _ _) hone, ?_⟩
    exact foldlM_mono (fun _ _ _ => collectAdjacenciesHelper_le (le_max_right _ _)) _ _ _ hrest

/-- Two walks that return do so with one budget. -/
theorem walkBoth_returns {a b f' : Addr} (hw : Walking h current M g)
    (hleft : ∃ fuel g', collectAdjacenciesHelper fuel current a f' recursion g = some g')
    (hright : ∀ g, Walking h current M g →
      ∃ fuel g', collectAdjacenciesHelper fuel current b f recursion g = some g') :
    ∃ fuel g₁ g₂, collectAdjacenciesHelper fuel current a f' recursion g = some g₁ ∧
      collectAdjacenciesHelper fuel current b f recursion g₁ = some g₂ ∧
      Walking h current M g₁ := by
  obtain ⟨fuel₁, g₁, hleft⟩ := hleft
  have hw₁ := hw.adds (collectAdjacenciesHelper_addsStops hleft)
  obtain ⟨fuel₂, g₂, hright⟩ := hright g₁ hw₁
  exact ⟨max fuel₁ fuel₂, g₁, g₂, collectAdjacenciesHelper_le (le_max_left _ _) hleft,
    collectAdjacenciesHelper_le (le_max_right _ _) hright, hw₁⟩

/-- A walk whose moves end returns. -/
theorem collectAdjacenciesHelper_of_halts {s : Spot} (hhalts : Halts (walkGraph h current) M s)
    (hw : Walking h current M g) (recursion : Nat) :
    ∃ fuel g', collectAdjacenciesHelper fuel current s.1 s.2 recursion g = some g' := by
  induction hhalts generalizing g recursion with
  | @intro M s halive hslip henter ihslip ihenter =>
    obtain ⟨v, f⟩ := s
    dsimp only
    by_cases hv : v = f
    · exact ⟨0 + 1, _, (HelperStep.forbidden hv).run⟩
    have hnull : v ≠ 0 := fun hnull => halive ⟨hv, hnull⟩
    have htype := hw.edges.type v
    by_cases heps : (g v).type = .epsilon
    · obtain ⟨fuel, g₁, hnext⟩ := ihslip _ (.epsilon hv hnull (htype ▸ heps)) (hw.epsilon heps)
        (recursion + 1)
      rw [← hw.edges.out2] at hnext
      exact ⟨fuel + 1, _, (HelperStep.epsilon hv hnull heps hnext).run⟩
    by_cases hpass : (g v).type = .split ∨ (g v).type = .tree
    · cases hflag : (g v).visitedFlag with
      | true => exact ⟨0 + 1, _, (HelperStep.seen hv hnull hpass hflag).run⟩
      | false =>
        have hnew : v ∉ M := fun hmem => by simp [(hw.mem_iff hpass).mp hmem] at hflag
        rcases hpass with hsplit | htree
        · have hsplit' := htype ▸ hsplit
          by_cases hcur : (h current).type = .interval
          · obtain ⟨fuel, g₁, g₂, hleft, hright, hw₁⟩ := walkBoth_returns hw
              (ihslip _ (.splitLeft hv hnull hsplit' hcur) hw recursion)
              fun g hg => ihslip _ (.splitRight hv hnull hsplit' hcur) hg recursion
            rw [← hw.edges.out1, ← hw.edges.out1] at hleft
            rw [← hw₁.edges.out2] at hright
            exact ⟨fuel + 1, _, (HelperStep.splitInterval hv hnull hsplit hflag
              ((hw.edges.type current).trans hcur) hleft hright).run⟩
          · have hmark := hw.mark (v := v) (Or.inr ⟨hsplit, hcur⟩)
            obtain ⟨fuel, g₁, g₂, hleft, hright, -⟩ := walkBoth_returns hmark
              (ihenter hnew _ (.splitLeft hv hnull hsplit' hcur) hmark (recursion + 1))
              fun g hg => ihenter hnew _ (.splitRight hv hnull hsplit' hcur) hg (recursion + 1)
            rw [← hw.edges.out1] at hleft
            rw [← hw.edges.out2] at hright
            exact ⟨fuel + 1, _, (HelperStep.split hv hnull hsplit hflag
              (by rwa [hw.edges.type current]) hleft hright).run⟩
        · have hmark := hw.mark (v := v) (Or.inl htree)
          have hbranch : ∀ i ∈ List.range (h v).branches.size, ∀ g,
              Walking h current (insert v M) g → ∃ fuel g', collectAdjacenciesHelper fuel current
                ((h v).branches.getAt i) f (recursion + 1) g = some g' := fun i hi g hg =>
            ihenter hnew _ (.branch hv hnull (htype ▸ htree) (List.mem_range.mp hi)) hg
              (recursion + 1)
          obtain ⟨fuel, g₁, hfold⟩ := walkBranches_returns hmark hbranch
          rw [← hw.edges.branches] at hfold
          exact ⟨fuel + 1, _, (HelperStep.tree hv hnull htree hflag hfold).run⟩
    · have hstop : ¬ Passes (g v) := fun hp => hp.elim heps hpass
      refine ⟨0 + 1, _, (HelperStep.stop hv hnull hstop ?_).run⟩
      by_cases hself : current = v
      · subst hself
        exact Or.inl (hw.noSelf.resolve_left (by rwa [← hw.edges.passes]))
      · exact Or.inr fun hboth => hself hboth.1

/-- Moves leave nodes that are walked through, and change the forbidden node to the
first node of the loop only. -/
theorem move_cases {s t : Spot} (hmove : Slips h current s t ∨ Enters h current s t) :
    Passes (h s.1) ∧ t.1 ∈ successors h s.1 ∧ (t.2 = s.2 ∨ t.2 = (h current).out1) := by
  unfold successors Passes
  rcases hmove with hslip | henter
  · cases hslip with
    | epsilon _ _ ht => simp [ht]
    | splitLeft _ _ ht => simp [ht]
    | splitRight _ _ ht => simp [ht]
  · cases henter with
    | branch _ _ ht hi =>
      refine ⟨Or.inr (Or.inr ht), ?_, Or.inl rfl⟩
      refine Finset.mem_insert_of_mem (Finset.mem_insert_of_mem ?_)
      exact Finset.mem_image_of_mem _ (Finset.mem_range.mpr hi)
    | splitLeft _ _ ht => simp [ht]
    | splitRight _ _ ht => simp [ht]

/-- A walk of a finite graph can only come to finitely many places. -/
theorem finitely_many_spots (hfin : FinitelyMany h) (current : Addr) (s : Spot) :
    ∃ spots : Finset Spot, s ∈ spots ∧
      ∀ a ∈ spots, ∀ b, Slips h current a b ∨ Enters h current a b → b ∈ spots := by
  obtain ⟨n, hn⟩ := hfin
  refine ⟨insert s.1 ((Finset.range n).biUnion (successors h)) ×ˢ {s.2, (h current).out1}, ?_, ?_⟩
  · simp [Finset.mem_product]
  · intro a ha b hmove
    obtain ⟨hpass, hnext, hforb⟩ := move_cases hmove
    rw [Finset.mem_product] at ha ⊢
    constructor
    · refine Finset.mem_insert_of_mem (Finset.mem_biUnion.mpr ⟨a.1, ?_, hnext⟩)
      rw [Finset.mem_range]
      by_contra hge
      simp [Passes, hn a.1 (Nat.le_of_not_lt hge)] at hpass
    · rcases hforb with hforb | hforb
      · exact hforb ▸ ha.2
      · simp [hforb]

/-- **Walks that return**: a walk returns exactly when it is not trapped. -/
theorem collectAdjacenciesHelper_returns_iff (hfin : FinitelyMany h) (hw : Walking h current M g)
    (v f : Addr) (recursion : Nat) :
    (∃ fuel g', collectAdjacenciesHelper fuel current v f recursion g = some g') ↔
      ¬ Trapped (walkGraph h current) M (v, f) := by
  obtain ⟨spots, hmem, hclosed⟩ := finitely_many_spots hfin current (v, f)
  rw [← halts_iff_not_trapped (G := walkGraph h current) hclosed hmem]
  constructor
  · rintro ⟨fuel, g', hrun⟩
    exact halts_of_collectAdjacenciesHelper hw hrun
  · exact fun hhalts => collectAdjacenciesHelper_of_halts hhalts hw recursion

/-- A call of the helper on the graph of `h` is finite exactly when it is not trapped. -/
theorem HelperCall.finite_iff {c : HelperCall} (hfin : FinitelyMany h)
    (hw : Walking h c.current ∅ c.heap) :
    c.Finite ↔ ¬ Trapped (walkGraph h c.current) ∅ (c.visiting, 0) := by
  rw [← collectAdjacenciesHelper_returns_iff hfin hw _ _ 0]
  exact exists_comm

/-- The places of the graph at which walks start: the start node, and for each
collectable node what it points to. -/
inductive WalkStart (h : Heap) (start : Addr) : Addr → Addr → Prop where
  | start : WalkStart h start start start
  | body {n : Addr} (hn : n ∈ collectables h start) (htype : (h n).type = .interval) :
    WalkStart h start n (h n).out1
  | next {n : Addr} (hn : n ∈ collectables h start) : WalkStart h start n (h n).out2

variable {h₀ : Heap} {rest l : List Addr} {i : Nat} {p : Parser}

/-- The calls for a collectable node begin at its places. -/
theorem NodeCall.walkStart {c : HelperCall} (hn : v ∈ collectables h₀ start)
    (hedges : SameEdges h₀ h) (hunmarked : ∀ a, (h₀ a).type ≠ .epsilon → (h a).visitedFlag = false)
    (hc : NodeCall v h c) :
    WalkStart h₀ start c.current c.visiting ∧ Walking h₀ c.current ∅ c.heap := by
  have hstop := stop_of_transGen hn.1
  have hw := walking_stop hedges hunmarked hstop
  have htype := hedges.type v
  have hnot : (h v).type ≠ .split := fun ht => hstop (Or.inr (Or.inl (htype ▸ ht)))
  cases hc with
  | body hint =>
    rw [hedges.out1]
    exact ⟨.body hn (htype ▸ hint), hw⟩
  | exit hint hbody =>
    obtain ⟨fuel, hrun⟩ := hbody
    have hw₁ := hw.adds (collectAdjacenciesHelper_addsStops hrun)
    dsimp only
    rw [hw₁.edges.out2]
    exact ⟨.next hn, hw₁.of_flags (sameEdges_stashList _ v) (visitedFlag_stashList _ v)⟩
  | left hsplit => exact absurd hsplit hnot
  | right hsplit => exact absurd hsplit hnot
  | next =>
    rw [hedges.out2]
    exact ⟨.next hn, hw⟩

/-- The loops are on the graph the parser left: its lists are filled so far, and what
is still to be looked at lies behind the start node. -/
structure OnCourse (h₀ : Heap) (start current : Addr) (rest l : List Addr) (h : Heap) : Prop where
  spread : ∃ fuel, Spread fuel h₀ start l h
  current_mem : current ∈ l
  listed : ∀ a ∈ l, a = start ∨ a ∈ collectables h₀ start
  behind : ∀ x ∈ rest, Relation.TransGen (Onward h₀) start x

/-- Every state of the loops is on course. -/
theorem LoopState.onCourse (hpass : Passes (p.ctrl.heap start)) (hblank : Blank p.ctrl.heap)
    (hstack : p.branchStack = []) (hs : LoopState p start total i current rest l h) :
    OnCourse p.ctrl.heap start current rest l h := by
  induction hs with
  | begin hwalk =>
    obtain ⟨fuel, hwalk⟩ := hwalk
    rw [hstack, List.nil_append]
    exact ⟨⟨fuel, spread_start hpass hblank hwalk⟩, List.mem_singleton.mpr rfl,
      fun a ha => Or.inl (List.mem_singleton.mp ha), by simp⟩
  | @round i current l h _ hi _ ih =>
    obtain ⟨⟨fuel, hx⟩, -, hlisted, -⟩ := ih
    have hmem : l.getD i 0 ∈ l := by simp [List.getD_eq_getElem?_getD, hi]
    refine ⟨⟨fuel, hx⟩, hmem, hlisted, fun x hxl => ?_⟩
    rw [hx.lists _ hmem] at hxl
    rcases hlisted _ hmem with hstart | hcoll
    · rw [hstart] at hxl
      exact .single (onward_of_mem_adjacents hpass hblank (Or.inl rfl) hxl)
    · exact hcoll.1.tail (onward_of_mem_adjacents hpass hblank
        (Or.inr ⟨stop_of_transGen hcoll.1, hcoll.2⟩) hxl)
  | known _ _ ih =>
    exact ⟨ih.spread, ih.current_mem, ih.listed, (List.forall_mem_cons.mp ih.behind).2⟩
  | @noted i current v rest l h _ hdone hskip ih =>
    obtain ⟨⟨fuel, hx⟩, hcur, hlisted, hbehind⟩ := ih
    obtain ⟨hv, hrest⟩ := List.forall_mem_cons.mp hbehind
    have hacc : (p.ctrl.heap v).type = .accepting := by
      by_contra hne
      have hnew := hx.done v (stop_of_transGen hv) hne
      refine hskip ⟨fun heq => ?_, by rwa [hx.edges.type]⟩
      simp [hnew.mpr (heq ▸ hcur)] at hdone
    exact ⟨⟨fuel, hx.accept hacc⟩, hcur, hlisted, hrest⟩
  | @found i current v rest l h g _ hdone hnew hexp ih =>
    obtain ⟨⟨fuel, hx⟩, hcur, hlisted, hbehind⟩ := ih
    obtain ⟨hv, hrest⟩ := List.forall_mem_cons.mp hbehind
    obtain ⟨fuel', hexp⟩ := hexp
    have hacc : (p.ctrl.heap v).type ≠ .accepting := by
      rw [← hx.edges.type]
      exact hnew.2
    have hnotin : v ∉ l := fun hmem => by
      simp [(hx.done v (stop_of_transGen hv) hacc).mpr hmem] at hdone
    refine ⟨⟨max fuel fuel', (hx.mono (le_max_left _ _)).expand hpass hblank (stop_of_transGen hv)
      hacc hnotin (expandNode_le (le_max_right _ _) hexp)⟩, List.mem_append_left _ hcur,
      fun a ha => ?_, hrest⟩
    rcases List.mem_append.mp ha with ha | ha
    · exact hlisted a ha
    · rw [List.mem_singleton] at ha
      exact ha ▸ Or.inr ⟨hv, hacc⟩

/-- Every call of a run begins at a place of the graph, and meets the graph without marks. -/
theorem CallMade.walkStart {c : HelperCall} (hpass : Passes (p.ctrl.heap start))
    (hblank : Blank p.ctrl.heap) (hstack : p.branchStack = []) (hc : CallMade p start total c) :
    WalkStart p.ctrl.heap start c.current c.visiting ∧ Walking p.ctrl.heap c.current ∅ c.heap := by
  cases hc with
  | first => exact ⟨.start, walking_start hpass hblank⟩
  | @node i current v rest l h _ hs _ hnew hnode =>
    obtain ⟨⟨fuel, hx⟩, -, -, hbehind⟩ := hs.onCourse hpass hblank hstack
    have hv := hbehind v List.mem_cons_self
    have hcoll : v ∈ collectables p.ctrl.heap start := by
      refine ⟨hv, ?_⟩
      rw [← hx.edges.type]
      exact hnew.2
    refine hnode.walkStart hcoll (hx.edges.trans (.of_graph (sameGraph_setDone h v))) fun a ha => ?_
    rw [visitedFlag_setDone]
    exact hx.unmarked a ha

/-- The walks of a node that is expanded are not trapped. -/
theorem not_trapped_of_expandNode (hfin : FinitelyMany h) (hblank : Blank h) {n : Addr}
    (hne : n ≠ start) (hrun : expandNode fuel n h = some g) (hb : WalkStart h start n v) :
    ¬ Trapped (walkGraph h n) ∅ (v, 0) := by
  have hcalls := expandNode_finite_iff.mp ⟨fuel, g, hrun⟩
  have hunmarked : ∀ a, (h a).type ≠ .epsilon → (h a).visitedFlag = false := fun a _ => (hblank a).1
  have hfree : ∀ c, n ∈ collectables h start → NodeCall n h c →
      ¬ Trapped (walkGraph h c.current) ∅ (c.visiting, 0) := fun c hn hc =>
    (HelperCall.finite_iff hfin (hc.walkStart hn (.refl h) hunmarked).2).mp (hcalls c hc)
  cases hb with
  | start => exact absurd rfl hne
  | body hn htype => exact hfree _ hn (.body htype)
  | next hn =>
    have hstop := stop_of_transGen hn.1
    by_cases htype : (h n).type = .interval
    · obtain ⟨g₁, hbody⟩ := hcalls _ (.body htype)
      have hnext := hfree _ hn (.exit htype hbody)
      obtain ⟨fuel₁, hwalk⟩ := hbody
      have hw := (walking_stop (.refl h) hunmarked hstop).adds
        (collectAdjacenciesHelper_addsStops hwalk)
      rwa [hw.edges.out2] at hnext
    · exact hfree _ hn (.next htype fun ht => hstop (Or.inr (Or.inl ht)))

/-- On the work list of a run that returned every node was expanded. -/
theorem spread_of_collectWalks {r : List Addr × Heap} (hpass : Passes (p.ctrl.heap start))
    (hblank : Blank p.ctrl.heap) (hstack : p.branchStack = [])
    (hrun : collectWalks fuel p start total = some r) :
    Spread fuel p.ctrl.heap start
      (workList (expandable fuel p.ctrl.heap start) start (total + 1)) r.2 := by
  obtain ⟨l', h'⟩ := r
  simp only [collectWalks, Option.bind_eq_bind, Option.bind_eq_some_iff, hstack,
    List.nil_append] at hrun
  obtain ⟨h₁, hwalk, hall⟩ := hrun
  obtain ⟨rfl, hx⟩ := expandAll_workList hpass hblank (Nat.zero_le _)
    (spread_start hpass hblank hwalk) rfl hall
  exact hx

/-- The calls return exactly when none of them is trapped. -/
theorem collectWalks_returns_iff (hfin : FinitelyMany p.ctrl.heap)
    (hpass : Passes (p.ctrl.heap start)) (hblank : Blank p.ctrl.heap)
    (hstack : p.branchStack = []) :
    (∃ fuel r, collectWalks fuel p start total = some r) ↔
      ∀ c, CallMade p start total c →
        ¬ Trapped (walkGraph p.ctrl.heap c.current) ∅ (c.visiting, 0) := by
  rw [collectWalks_finite_iff]
  exact forall₂_congr fun c hc =>
    HelperCall.finite_iff hfin (hc.walkStart hpass hblank hstack).2

/-- Where the cut-off leaves no node out, the calls return exactly when no place of the
graph is trapped. -/
theorem collectWalks_returns_iff_of_encard (hfin : FinitelyMany p.ctrl.heap)
    (hpass : Passes (p.ctrl.heap start)) (hblank : Blank p.ctrl.heap) (hstack : p.branchStack = [])
    (hcount : (collectables p.ctrl.heap start).encard ≤ total) :
    (∃ fuel r, collectWalks fuel p start total = some r) ↔
      ∀ n v, WalkStart p.ctrl.heap start n v → ¬ Trapped (walkGraph p.ctrl.heap n) ∅ (v, 0) := by
  constructor
  · intro hreturns n v hb
    by_cases hn : n = start
    · subst hn
      cases hb with
      | start => exact (collectWalks_returns_iff hfin hpass hblank hstack).mp hreturns _ .first
      | body hmem | next hmem => exact absurd hmem (start_notMem_collectables hpass)
    · obtain ⟨fuel, r, hrun⟩ := hreturns
      have hx := spread_of_collectWalks hpass hblank hstack hrun
      have hmem : n ∈ collectables p.ctrl.heap start := by
        cases hb with
        | start => exact absurd rfl hn
        | body hmem | next hmem => exact hmem
      have hlisted := hx.collectables_subset hpass hblank
        ((hx.length_le_iff hpass hblank).mpr hcount) hmem
      obtain ⟨g, hexp⟩ := Option.isSome_iff_exists.mp (hx.walked n hlisted)
      rw [walkFrom, if_neg hn] at hexp
      exact not_trapped_of_expandNode hfin hblank hn hexp hb
  · intro hfree
    exact (collectWalks_returns_iff hfin hpass hblank hstack).mpr fun c hc =>
      hfree _ _ (hc.walkStart hpass hblank hstack).1

/-- For every accepted pattern, the calls of `collect_adjacencies_helper` that are made
all return exactly when none of them is trapped: it does not come, under its marks, to
a place to which moves without a mark lead back, nor to `NULL`. As long as the graph has
no more collectable nodes than are counted, this is so exactly when no walk that begins at
the start node or at what a collectable node points to is trapped. -/
theorem collectAdjacencies_terminates_iff {pattern : List Int} {ignoreCase : Bool}
    (hparse : Parser.parseRegex fuel pattern ignoreCase = .ok p) (total : Nat) :
    ((∃ fuel' r, collectWalks fuel' p (p.ctrl.heap p.peek).parent total = some r) ↔
      ∀ c, CallMade p (p.ctrl.heap p.peek).parent total c →
        ¬ Trapped (walkGraph p.ctrl.heap c.current) ∅ (c.visiting, 0)) ∧
    ((collectables p.ctrl.heap (p.ctrl.heap p.peek).parent).encard ≤ total →
      ((∃ fuel' r, collectWalks fuel' p (p.ctrl.heap p.peek).parent total = some r) ↔
        ∀ n v, WalkStart p.ctrl.heap (p.ctrl.heap p.peek).parent n v →
          ¬ Trapped (walkGraph p.ctrl.heap n) ∅ (v, 0))) := by
  obtain ⟨hblank, hstack⟩ := Parser.parseRegex_blank hparse
  have hfin := Parser.parseRegex_finitelyMany hparse
  have hpass := parseRegex_start_passes hparse
  exact ⟨collectWalks_returns_iff hfin hpass hblank hstack,
    collectWalks_returns_iff_of_encard hfin hpass hblank hstack⟩

/-- The first nodes of the heap point to each other only, and no more of them are
collectable than are counted. -/
def fitsWithin (n : Nat) (p : Parser) : Bool :=
  let h := p.ctrl.heap
  decide ((h p.peek).parent < n ∧ (∀ a ∈ Finset.range n, successors h a ⊆ Finset.range n) ∧
    ((Finset.range n).filter fun a => a ≠ 0 ∧ Collectable (h a)).card ≤
      p.totalNfaIds + p.intervalCount)

/-- The equivalences for a letter that may be repeated within an interval. -/
theorem collectAdjacencies_terminates_letters : ∃ p,
    Parser.parseRegex 60 (bytes "(ab*){2}") false = .ok p ∧
      ((∃ fuel' r, collectWalks fuel' p (p.ctrl.heap p.peek).parent
          (p.totalNfaIds + p.intervalCount) = some r) ↔
        ∀ c, CallMade p (p.ctrl.heap p.peek).parent (p.totalNfaIds + p.intervalCount) c →
          ¬ Trapped (walkGraph p.ctrl.heap c.current) ∅ (c.visiting, 0)) ∧
      ((∃ fuel' r, collectWalks fuel' p (p.ctrl.heap p.peek).parent
          (p.totalNfaIds + p.intervalCount) = some r) ↔
        ∀ n v, WalkStart p.ctrl.heap (p.ctrl.heap p.peek).parent n v →
          ¬ Trapped (walkGraph p.ctrl.heap n) ∅ (v, 0)) := by
  have h : (Parser.parseRegex 60 (bytes "(ab*){2}") false).toOption.map (fitsWithin 9) =
      some true := by decide +kernel
  obtain ⟨p, hparse, hfits⟩ := parsed_spec h
  obtain ⟨hstart, hclosed, hcard⟩ := of_decide_eq_true hfits
  have hcount := (encard_collectables_le (Finset.mem_range.mpr hstart) hclosed).trans
    (Nat.cast_le.mpr hcard)
  obtain ⟨hcalls, hplaces⟩ := collectAdjacencies_terminates_iff hparse _
  exact ⟨p, hparse, hcalls, hplaces hcount⟩

/-- The interval of nested repetitions: node 9 repeats the graph at node 5, where the
`SPLIT` nodes 3 and 4 lead to each other by `out1`. -/
def nestedRepetition (p : Parser) : Bool :=
  let h := p.ctrl.heap
  let start := (h p.peek).parent
  decide (9 ∈ expandable 60 h start start ∧
    (h 9).type = .interval ∧ (h 9).out1 = 5 ∧ (h 5).type = .split ∧ (h 5).out2 = 3 ∧
    (h 3).type = .split ∧ (h 3).out1 = 4 ∧ (h 4).type = .split ∧ (h 4).out1 = 3)

/-- For an interval over nested repetitions the calls return with no budget. -/
theorem nested_repetition_diverges : ∃ p,
    Parser.parseRegex 60 (bytes "((a*)*){2}") false = .ok p ∧
      ∀ fuel, collectWalks fuel p (p.ctrl.heap p.peek).parent
        (p.totalNfaIds + p.intervalCount) = none := by
  have h : (Parser.parseRegex 60 (bytes "((a*)*){2}") false).toOption.map nestedRepetition =
      some true := by decide +kernel
  obtain ⟨p, hparse, hfacts⟩ := parsed_spec h
  obtain ⟨hlist, hint, hout, h5, h53, h3, h34, h4, h43⟩ := of_decide_eq_true hfacts
  refine ⟨p, hparse, fun fuel => Option.eq_none_iff_forall_ne_some.mpr fun r hrun => ?_⟩
  obtain ⟨hblank, hstack⟩ := Parser.parseRegex_blank hparse
  have hpass := parseRegex_start_passes hparse
  obtain ⟨hadj, hacc⟩ := mem_expandable_iff.mp hlist
  have honward := onward_of_mem_adjacents hpass hblank (Or.inl rfl) hadj
  have hcoll : 9 ∈ collectables p.ctrl.heap (p.ctrl.heap p.peek).parent := ⟨.single honward, hacc⟩
  have hne : 9 ≠ (p.ctrl.heap p.peek).parent := fun heq =>
    start_notMem_collectables hpass (heq ▸ hcoll)
  -- The list of the start node is looked at in the first round.
  have hx := spread_of_collectWalks hpass hblank hstack hrun
  have hlisted := hx.listed_of_onward_start hpass hblank honward hacc
  obtain ⟨g, hexp⟩ := Option.isSome_iff_exists.mp (hx.walked 9 hlisted)
  rw [walkFrom, if_neg hne] at hexp
  refine not_trapped_of_expandNode (Parser.parseRegex_finitelyMany hparse) hblank hne hexp
    (.body hcoll hint) (hout ▸ ?_)
  -- With the first node of the loop forbidden, nodes 4 and 3 lead to each other.
  have hback : Slips p.ctrl.heap 9 (4, 5) (3, 5) := by
    have hmove := Slips.splitLeft (f := 5) (show (4 : Addr) ≠ 5 by decide) (by decide) h4 hint
    rwa [h43, hout] at hmove
  have hforth : Slips p.ctrl.heap 9 (3, 5) (4, 5) := by
    have hmove := Slips.splitLeft (f := 5) (show (3 : Addr) ≠ 5 by decide) (by decide) h3 hint
    rwa [h34, hout] at hmove
  have hfirst : Slips p.ctrl.heap 9 (5, 0) (3, 0) := by
    have hmove := Slips.splitRight (f := 0) (show (5 : Addr) ≠ 0 by decide) (by decide) h5 hint
    rwa [h53] at hmove
  have hsecond : Slips p.ctrl.heap 9 (3, 0) (4, 5) := by
    have hmove := Slips.splitLeft (f := 0) (show (3 : Addr) ≠ 0 by decide) (by decide) h3 hint
    rwa [h34, hout] at hmove
  exact .slip hfirst (.slip hsecond (.loop (.tail (.single hback) hforth)))

end Recognizer
