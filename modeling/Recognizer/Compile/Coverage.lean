import Mathlib.Data.Set.Card
import Recognizer.Compile.Expansion

/-!
# How much of the graph the work list covers

The loop of `collect_adjacencies` is cut off after `total_collectables + 1` rounds. It
comes to every node it finds exactly when the graph has no more than
`total_collectables` stops, those that no count includes among them.
-/

namespace Recognizer

open BreadthFirst

variable {h h' g : Heap} {v x start : Addr} {fuel total : Nat}

/-- Every non-accepting node on the list of the start node, or in turn on the list
of a node found so, has been given a list. -/
def CoversAutomaton (h : Heap) (start : Addr) : Prop :=
  ∀ n, Relation.TransGen (fun a b => b ∈ (h a).reachable) start n → (h n).type ≠ .accepting →
    (h n).reachable ≠ []

/-- The stops behind a node: the start node is walked through itself, a stop is left
by `out2` and an interval also by `out1`. -/
inductive Onward (h : Heap) (a x : Addr) : Prop where
  | start (hpass : Passes (h a)) (hs : Sights h ∅ a x)
  | loop (htype : (h a).type = .interval) (hs : Sights h ∅ (h a).out1 x)
  | next (hcoll : Collectable (h a)) (hs : Sights h ∅ (h a).out2 x)

/-- The stops that do not accept and that edges of the graph lead to from the start:
the nodes that are to get a list, whatever number they carry. -/
def collectables (h : Heap) (start : Addr) : Set Addr :=
  {n | Relation.TransGen (Onward h) start n ∧ (h n).type ≠ .accepting}

theorem Onward.stop (ho : Onward h v x) : ¬ Passes (h x) := by
  cases ho with
  | start _ hs | loop _ hs | next _ hs => exact hs.1.not_pass

theorem Onward.not_accepting (ho : Onward h v x) : (h v).type ≠ .accepting := by
  intro hacc
  cases ho with
  | start hpass => simp [Passes, hacc] at hpass
  | loop htype => simp [hacc] at htype
  | next hcoll => exact hcoll.2 hacc

theorem stop_of_transGen (hpath : Relation.TransGen (Onward h) start x) : ¬ Passes (h x) := by
  cases hpath with
  | single ho | tail _ ho => exact ho.stop

/-- The nodes that moves out of a node can lead to. -/
def successors (h : Heap) (a : Addr) : Finset Addr :=
  insert (h a).out1 (insert (h a).out2
    ((Finset.range (h a).branches.size).image (h a).branches.getAt))

theorem Crosses.mem_successors {b : Addr} (hmove : Crosses h v b) : b ∈ successors h v := by
  unfold successors
  cases hmove with
  | epsilon | splitRight => simp
  | splitLeft => simp
  | branch _ _ hi =>
    refine Finset.mem_insert_of_mem (Finset.mem_insert_of_mem ?_)
    exact Finset.mem_image_of_mem _ (Finset.mem_range.mpr hi)

/-- What lies behind the nodes of a closed set belongs to it. -/
theorem Onward.mem_of_closed {nodes : Finset Addr} (hclosed : ∀ a ∈ nodes, successors h a ⊆ nodes)
    (ho : Onward h v x) (hv : v ∈ nodes) : x ∈ nodes ∧ x ≠ 0 := by
  have hsights : ∀ a y, Sights h ∅ a y → a ∈ nodes → y ∈ nodes := by
    rintro a y ⟨hfound, -⟩ ha
    induction hfound with
    | stop => exact ha
    | step _ _ hmove _ ih => exact ih (hclosed _ ha hmove.mem_successors)
  cases ho with
  | start _ hs => exact ⟨hsights _ _ hs hv, hs.2⟩
  | loop _ hs => exact ⟨hsights _ _ hs (hclosed v hv (by simp [successors])), hs.2⟩
  | next _ hs => exact ⟨hsights _ _ hs (hclosed v hv (by simp [successors])), hs.2⟩

/-- A closed set of nodes bounds the number of collectable ones. -/
theorem encard_collectables_le {nodes : Finset Addr} (hstart : start ∈ nodes)
    (hclosed : ∀ a ∈ nodes, successors h a ⊆ nodes) :
    (collectables h start).encard ≤ (nodes.filter fun n => n ≠ 0 ∧ Collectable (h n)).card := by
  have hmem : ∀ n, Relation.TransGen (Onward h) start n → n ∈ nodes ∧ n ≠ 0 := by
    intro n hpath
    induction hpath with
    | single ho => exact ho.mem_of_closed hclosed hstart
    | tail _ ho ih => exact ho.mem_of_closed hclosed ih.1
  rw [← Set.encard_coe_eq_coe_finsetCard]
  refine Set.encard_le_encard fun n hn => ?_
  obtain ⟨hin, hnull⟩ := hmem n hn.1
  exact Finset.mem_coe.mpr (Finset.mem_filter.mpr ⟨hin, hnull, stop_of_transGen hn.1, hn.2⟩)

/-- The list of an interval holds what its two walks find. -/
theorem mem_expandInterval_iff (hblank : Blank h) (htype : (h v).type = .interval)
    (hrun : expandNode fuel v h = some g) :
    x ∈ (g v).reachable ↔ Sights h ∅ (h v).out1 x ∨ Sights h ∅ (h v).out2 x := by
  have hstop : ¬ Passes (h v) := by simp [Passes, htype]
  have hw : Walking h v ∅ (setVisited h v true) :=
    walking_stop (.refl h) (fun a _ => (hblank a).1) hstop
  have hempty : (setVisited h v true v).reachable = [] :=
    (reachable_setVisited ..).trans (hblank v).2.2
  rw [expandNode_interval htype] at hrun
  simp only [Option.bind_eq_some_iff, Option.map_eq_some_iff] at hrun
  obtain ⟨g₁, hleft, g₂, hright, rfl⟩ := hrun
  have hw₁ := hw.adds (collectAdjacenciesHelper_addsStops hleft)
  have hw₂ : Walking h v ∅ (stashList g₁ v) :=
    hw₁.of_flags (sameEdges_stashList g₁ v) (visitedFlag_stashList g₁ v)
  rw [hw₁.edges.out2] at hright
  have hlist : (setVisited (restoreList g₂ v (g₁ v).reachable) v false v).reachable =
      (g₁ v).reachable ++ (g₂ v).reachable := by
    rw [reachable_setVisited]
    simp [restoreList]
  rw [hlist, List.mem_append]
  constructor
  · rintro (hx | hx)
    · exact Or.inl ((collectAdjacenciesHelper_sights hw hleft hx).resolve_left (by simp [hempty]))
    · exact Or.inr ((collectAdjacenciesHelper_sights hw₂ hright hx).resolve_left
        (by simp [stashList]))
  · rintro (hs | hs)
    · exact Or.inl (finds_of_loopStart hw htype hleft hs)
    · rcases finds_or_loopStart hw₂ htype hright hs with hx | hs
      · exact Or.inr hx
      · exact Or.inl (finds_of_loopStart hw htype hleft hs)

/-- The list of another stop holds what its walk finds. -/
theorem mem_expandStop_iff (hblank : Blank h) (hstop : ¬ Passes (h v))
    (htype : (h v).type ≠ .interval) (hrun : expandNode fuel v h = some g) :
    x ∈ (g v).reachable ↔ Sights h ∅ (h v).out2 x := by
  have hw : Walking h v ∅ (setVisited h v true) :=
    walking_stop (.refl h) (fun a _ => (hblank a).1) hstop
  have hempty : (setVisited h v true v).reachable = [] :=
    (reachable_setVisited ..).trans (hblank v).2.2
  rw [expandNode_stop hstop htype, Option.map_eq_some_iff] at hrun
  obtain ⟨g₁, hwalk, rfl⟩ := hrun
  rw [reachable_setVisited]
  exact ⟨fun hx => (collectAdjacenciesHelper_sights hw hwalk hx).resolve_left (by simp [hempty]),
    finds_of_not_interval hw htype hwalk⟩

/-- **Lists are complete**: a walk that returns lists the stops behind its node. -/
theorem mem_walkFrom_iff (hpass : Passes (h start)) (hblank : Blank h)
    (hv : v = start ∨ Collectable (h v)) (hrun : walkFrom fuel h start v = some g) :
    x ∈ (g v).reachable ↔ Onward h v x := by
  unfold walkFrom at hrun
  split at hrun
  · rename_i hstart
    subst hstart
    have hw := walking_start hpass hblank
    have hcur : (h v).type ≠ .interval := fun ht => by simp [Passes, ht] at hpass
    constructor
    · intro hx
      exact .start hpass ((collectAdjacenciesHelper_sights hw hrun hx).resolve_left
        (by simp [(hblank v).2.2]))
    · rintro (⟨-, hs⟩ | ⟨htype, -⟩ | ⟨hcoll, -⟩)
      · exact finds_of_not_interval hw hcur hrun hs
      · exact absurd htype hcur
      · exact absurd hpass hcoll.1
  · rename_i hstart
    have hcoll := hv.resolve_left hstart
    by_cases htype : (h v).type = .interval
    · rw [mem_expandInterval_iff hblank htype hrun]
      constructor
      · rintro (hs | hs)
        · exact .loop htype hs
        · exact .next hcoll hs
      · rintro (⟨hpass, -⟩ | ⟨-, hs⟩ | ⟨-, hs⟩)
        · exact absurd hpass hcoll.1
        · exact Or.inl hs
        · exact Or.inr hs
    · rw [mem_expandStop_iff hblank hcoll.1 htype hrun]
      constructor
      · exact .next hcoll
      · rintro (⟨hpass, -⟩ | ⟨htype', -⟩ | ⟨-, hs⟩)
        · exact absurd hpass hcoll.1
        · exact absurd htype' htype
        · exact hs

theorem onward_of_mem_adjacents (hpass : Passes (h start)) (hblank : Blank h)
    (hv : v = start ∨ Collectable (h v)) (hx : x ∈ adjacents fuel h start v) : Onward h v x := by
  unfold adjacents at hx
  cases hrun : walkFrom fuel h start v with
  | none => simp [hrun] at hx
  | some g => exact (mem_walkFrom_iff hpass hblank hv hrun).mp (by simpa [hrun] using hx)

theorem mem_expandable_iff {n : Addr} :
    x ∈ expandable fuel h start n ↔ x ∈ adjacents fuel h start n ∧ (h x).type ≠ .accepting := by
  rw [expandable, List.mem_filter, decide_eq_true_iff]

theorem start_notMem_collectables (hpass : Passes (h start)) : start ∉ collectables h start :=
  fun hmem => stop_of_transGen hmem.1 hpass

/-- The nodes on the work list are the start node and stops behind it. -/
theorem mem_collectables_of_workList {k : Nat} (hpass : Passes (h start)) (hblank : Blank h)
    (hv : v ∈ workList (expandable fuel h start) start k) :
    v = start ∨ v ∈ collectables h start := by
  refine forall_mem_workList (fun a ha x hx => ?_) hv
  obtain ⟨hadj, hacc⟩ := mem_expandable_iff.mp hx
  rcases ha with rfl | ha
  · exact ⟨.single (onward_of_mem_adjacents hpass hblank (Or.inl rfl) hadj), hacc⟩
  · have hcoll : Collectable (h a) := ⟨stop_of_transGen ha.1, ha.2⟩
    exact ⟨ha.1.tail (onward_of_mem_adjacents hpass hblank (Or.inr hcoll) hadj), hacc⟩

namespace Spread

variable (hpass : Passes (h start)) (hblank : Blank h)
  (hx : Spread fuel h start (workList (expandable fuel h start) start (total + 1)) h')

include hpass hblank hx

/-- A node on the work list was given the stops behind it. -/
theorem mem_adjacents_iff (hv : v ∈ workList (expandable fuel h start) start (total + 1)) :
    x ∈ adjacents fuel h start v ↔ Onward h v x := by
  obtain ⟨g, hg⟩ := Option.isSome_iff_exists.mp (hx.walked v hv)
  have hcoll : v = start ∨ Collectable (h v) := by
    by_cases hvs : v = start
    · exact Or.inl hvs
    · exact Or.inr (hx.stops v hv hvs)
  simpa [adjacents, hg] using mem_walkFrom_iff hpass hblank hcoll hg

/-- A work list that ran out holds every collectable node. -/
theorem collectables_subset
    (hlen : (workList (expandable fuel h start) start (total + 1)).length ≤ total + 1)
    (hv : v ∈ collectables h start) :
    v ∈ workList (expandable fuel h start) start (total + 1) := by
  obtain ⟨hpath, hacc⟩ := hv
  induction hpath with
  | single ho =>
    have hstart : start ∈ workList (expandable fuel h start) start (total + 1) :=
      start_mem_workList _
    exact next_mem_of_length_le hlen hstart
      (mem_expandable_iff.mpr ⟨(hx.mem_adjacents_iff hpass hblank hstart).mpr ho, hacc⟩)
  | tail _ ho ih =>
    have hlisted := ih ho.not_accepting
    exact next_mem_of_length_le hlen hlisted
      (mem_expandable_iff.mpr ⟨(hx.mem_adjacents_iff hpass hblank hlisted).mpr ho, hacc⟩)

/-- What the list of the start node holds is listed in the first round. -/
theorem listed_of_onward_start (ho : Onward h start x) (hacc : (h x).type ≠ .accepting) :
    x ∈ workList (expandable fuel h start) start (total + 1) := by
  have hmem : start ∈ workList (expandable fuel h start) start (total + 1) := start_mem_workList _
  have hlisted := mem_expandable_iff.mpr ⟨(hx.mem_adjacents_iff hpass hblank hmem).mpr ho, hacc⟩
  refine workList_subset (k := 1) (by omega) ?_
  rw [workList_succ_of_some (k := 0) (a := start) rfl]
  exact mem_addNew.mpr (Or.inr hlisted)

/-- The loop comes to all of its work list exactly when the graph has no more
collectable nodes than it counts. -/
theorem length_le_iff :
    (workList (expandable fuel h start) start (total + 1)).length ≤ total + 1 ↔
      (collectables h start).encard ≤ total := by
  have hcard : ((workList (expandable fuel h start) start (total + 1)).toFinset.erase start).card =
      (workList (expandable fuel h start) start (total + 1)).length - 1 := by
    rw [Finset.card_erase_of_mem (List.mem_toFinset.mpr (start_mem_workList _)),
      List.toFinset_card_of_nodup (nodup_workList _ _ _)]
  constructor
  · intro hlen
    have hsub : collectables h start ⊆
        ((workList (expandable fuel h start) start (total + 1)).toFinset.erase start :
          Finset Addr) := by
      intro n hn
      refine Finset.mem_coe.mpr (Finset.mem_erase.mpr ⟨?_, List.mem_toFinset.mpr ?_⟩)
      · rintro rfl
        exact start_notMem_collectables hpass hn
      · exact hx.collectables_subset hpass hblank hlen hn
    refine (Set.encard_le_encard hsub).trans ?_
    rw [Set.encard_coe_eq_coe_finsetCard, hcard]
    exact_mod_cast Nat.sub_le_of_le_add hlen
  · intro hcount
    have hsub : (((workList (expandable fuel h start) start (total + 1)).toFinset.erase start :
        Finset Addr) : Set Addr) ⊆ collectables h start := by
      intro n hn
      obtain ⟨hne, hmem⟩ := Finset.mem_erase.mp (Finset.mem_coe.mp hn)
      exact (mem_collectables_of_workList hpass hblank (List.mem_toFinset.mp hmem)).resolve_left hne
    have hle := (Set.encard_le_encard hsub).trans hcount
    rw [Set.encard_coe_eq_coe_finsetCard, hcard] at hle
    exact Nat.le_add_of_sub_le (by exact_mod_cast hle)

/-- A node that has a list is on the work list, and its list leads to the stops behind it. -/
theorem onward_of_mem_reachable (hmem : x ∈ (h' v).reachable) : Onward h v x := by
  have hlisted := not_imp_comm.mp (hx.blank v) (List.ne_nil_of_mem hmem)
  rw [hx.lists v hlisted] at hmem
  exact (hx.mem_adjacents_iff hpass hblank hlisted).mp hmem

/-- With the lists of the work list filled, the lists cover the automaton and no node
was left without its round exactly when the count of stops suffices and each of them
leads on. -/
theorem covers_iff :
    (CoversAutomaton h' start ∧
        (workList (expandable fuel h start) start (total + 1)).length ≤ total + 1) ↔
      (collectables h start).encard ≤ total ∧ ∀ n ∈ collectables h start, ∃ m, Onward h n m := by
  have htype := fun a => hx.edges.type a
  rw [hx.length_le_iff hpass hblank, and_comm]
  refine and_congr_right fun hcount => ?_
  have hlen := (hx.length_le_iff hpass hblank).mpr hcount
  constructor
  · intro hcovers n hn
    have hpath : Relation.TransGen (fun a b => b ∈ (h' a).reachable) start n := by
      have hedge : ∀ a ∈ workList (expandable fuel h start) start (total + 1), ∀ b,
          Onward h a b → b ∈ (h' a).reachable := fun a ha b ho => by
        rw [hx.lists a ha]
        exact (hx.mem_adjacents_iff hpass hblank ha).mpr ho
      obtain ⟨hpath, -⟩ := hn
      induction hpath with
      | single ho => exact .single (hedge _ (start_mem_workList _) _ ho)
      | tail hbefore ho ih =>
        exact ih.tail (hedge _ (hx.collectables_subset hpass hblank hlen
          ⟨hbefore, ho.not_accepting⟩) _ ho)
    obtain ⟨m, hm⟩ := List.exists_mem_of_ne_nil _ (hcovers n hpath (by rw [htype]; exact hn.2))
    exact ⟨m, hx.onward_of_mem_reachable hpass hblank hm⟩
  · intro hleads n hpath hacc
    have hn : n ∈ collectables h start :=
      ⟨Relation.TransGen.mono (fun _ _ => hx.onward_of_mem_reachable hpass hblank) _ _ hpath,
        by rwa [htype] at hacc⟩
    obtain ⟨m, hm⟩ := hleads n hn
    have hlisted := hx.collectables_subset hpass hblank hlen hn
    rw [hx.lists n hlisted]
    exact List.ne_nil_of_mem ((hx.mem_adjacents_iff hpass hblank hlisted).mpr hm)

end Spread

/-- For every accepted pattern whose compilation returns, every node found is expanded
and none is left on the work list when the loop ends, exactly when the graph has no
more collectable nodes than `total_collectables`, and each of them leads to a stop. -/
theorem compileRegex_covers_iff {p p' : Parser} {pattern : List Int} {ignoreCase : Bool}
    {fuel fuel' : Nat} (hparse : Parser.parseRegex fuel pattern ignoreCase = .ok p)
    (hrun : compileRegex fuel' p = some p') :
    (CoversAutomaton p'.ctrl.heap (p.ctrl.heap p.peek).parent ∧
        p'.branchStack.length ≤ p.totalNfaIds + p.intervalCount + 1) ↔
      (collectables p.ctrl.heap (p.ctrl.heap p.peek).parent).encard ≤
          ((p.totalNfaIds + p.intervalCount : Nat) : ENat) ∧
        ∀ n ∈ collectables p.ctrl.heap (p.ctrl.heap p.peek).parent, ∃ m,
          Onward p.ctrl.heap n m := by
  obtain ⟨hblank, hstack⟩ := Parser.parseRegex_blank hparse
  have hpass := parseRegex_start_passes hparse
  simp only [compileRegex, collectAdjacencies, Option.bind_eq_bind, Option.bind_eq_some_iff] at hrun
  obtain ⟨h₁, hwalk, s, -, ⟨l, h₂⟩, hall, hrun⟩ := hrun
  cases hrun
  rw [hstack, List.nil_append] at hall
  have hspread := spread_start hpass hblank hwalk
  obtain ⟨rfl, hx⟩ := expandAll_workList hpass hblank (Nat.zero_le _) hspread rfl hall
  exact hx.covers_iff hpass hblank

/-- The lists of the given nodes, of the nodes on them, and so on. -/
def furtherLists (h : Heap) : Nat → List Addr → List Addr
  | 0, l => l
  | k + 1, l => furtherLists h k (l.flatMap fun a => (h a).reachable)

/-- A pattern that compiles. -/
def compiled (fuel : Nat) (pattern : List Int) : Option (Parser × Parser) :=
  match Parser.parseRegex fuel pattern false with
  | .ok p => (compileRegex fuel p).map fun p' => (p, p')
  | .error _ => none

theorem compiled_spec {pattern : List Int} {q : Parser × Parser}
    (h : compiled fuel pattern = some q) :
    Parser.parseRegex fuel pattern false = .ok q.1 ∧ compileRegex fuel q.1 = some q.2 := by
  unfold compiled at h
  split at h
  · rename_i p hp
    obtain ⟨p', hp', rfl⟩ := Option.map_eq_some_iff.mp h
    exact ⟨hp, hp'⟩
  · cases h

/-- The equivalence for the pattern of a letter in a group that is named again. -/
theorem compileRegex_covers_letterAgain : ∃ p p',
    Parser.parseRegex 40 (bytes "(a)\\1") false = .ok p ∧ compileRegex 40 p = some p' ∧
      ((CoversAutomaton p'.ctrl.heap (p.ctrl.heap p.peek).parent ∧
          p'.branchStack.length ≤ p.totalNfaIds + p.intervalCount + 1) ↔
        (collectables p.ctrl.heap (p.ctrl.heap p.peek).parent).encard ≤
            ((p.totalNfaIds + p.intervalCount : Nat) : ENat) ∧
          ∀ n ∈ collectables p.ctrl.heap (p.ctrl.heap p.peek).parent, ∃ m,
            Onward p.ctrl.heap n m) := by
  have h : (compiled 40 (bytes "(a)\\1")).isSome = true := by decide +kernel
  obtain ⟨⟨p, p'⟩, hq⟩ := Option.isSome_iff_exists.mp h
  obtain ⟨hparse, hrun⟩ := compiled_spec hq
  exact ⟨p, p', hparse, hrun, compileRegex_covers_iff hparse hrun⟩

theorem transGen_of_mem_furtherLists {k : Nat} {l : List Addr} {n : Addr}
    (hl : ∀ a ∈ l, Relation.TransGen (fun a b => b ∈ (h a).reachable) start a)
    (hn : n ∈ furtherLists h k l) :
    Relation.TransGen (fun a b => b ∈ (h a).reachable) start n := by
  induction k generalizing l with
  | zero => exact hl n hn
  | succ k ih =>
    refine ih (fun b hb => ?_) hn
    obtain ⟨a, ha, hab⟩ := List.mem_flatMap.mp hb
    exact (hl a ha).tail hab

/-- A node that the lists lead to within some steps has none and does not accept. -/
def leftOut (k : Nat) (q : Parser × Parser) : Bool :=
  (furtherLists q.2.ctrl.heap k (q.2.ctrl.heap (q.1.ctrl.heap q.1.peek).parent).reachable).any
    fun n => decide ((q.2.ctrl.heap n).type ≠ .accepting ∧ (q.2.ctrl.heap n).reachable = [])

/-- The walk for a captured letter that is named four times again is cut off before
it has expanded the last one. -/
theorem four_backreferences_not_covered : ∃ p p',
    Parser.parseRegex 40 (bytes "(a)\\1\\1\\1\\1") false = .ok p ∧ compileRegex 40 p = some p' ∧
      ¬ CoversAutomaton p'.ctrl.heap (p.ctrl.heap p.peek).parent := by
  have h : (compiled 40 (bytes "(a)\\1\\1\\1\\1")).map (leftOut 6) = some true := by
    decide +kernel
  obtain ⟨⟨p, p'⟩, hq, hleft⟩ := Option.map_eq_some_iff.mp h
  obtain ⟨hparse, hrun⟩ := compiled_spec hq
  refine ⟨p, p', hparse, hrun, fun hall => ?_⟩
  obtain ⟨n, hn, hbare⟩ := List.any_eq_true.mp hleft
  obtain ⟨htype, hempty⟩ := of_decide_eq_true hbare
  exact hall n (transGen_of_mem_furtherLists (fun a ha => .single ha) hn) htype hempty

end Recognizer
