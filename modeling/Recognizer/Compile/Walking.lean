import Recognizer.Compile.Frame

/-!
# What a walk that returns has found

A walk of `collect_adjacencies_helper` that returns has added to the list of the
current node every stop its moves lead to, and no other. The marks it sets cost it
nothing; below an interval the node it is told not to enter is the first node of the
loop, and what lies behind that node is found by the walk that begins there.
-/

namespace Recognizer

open PathSearch

variable {h h' g g' : Heap} {current v w x f start : Addr} {fuel recursion : Nat}
  {M B : Set Addr}

/-- A walk meets the graph of `h` under the marks of `M`, and would stop at the
current node; below an interval no `SPLIT` node is marked. -/
structure Walking (h : Heap) (current : Addr) (M : Set Addr) (g : Heap) : Prop where
  edges : SameEdges h g
  marks : marks g = M
  noSelf : Passes (h current) ∨ (g current).visitedFlag = true
  splits : (h current).type = .interval → ∀ a ∈ M, (h a).type ≠ .split

namespace Walking

/-- Walks leave the marks. -/
theorem adds (hw : Walking h current M g) (ha : AddsStops g g' current) :
    Walking h current M g' := by
  obtain ⟨S, hc, -⟩ := ha
  refine ⟨hw.edges.trans (.of_graph hc.graph), hc.marks_eq.trans hw.marks, ?_, hw.splits⟩
  rcases hw.noSelf with hpass | hflag
  · exact Or.inl hpass
  · by_cases heps : (g current).type = .epsilon
    · exact Or.inl (Or.inl ((hw.edges.type current).symm.trans heps))
    · exact Or.inr ((hc.flags current heps).trans hflag)

theorem setVisited (hw : Walking h current M g) (v : Addr) {M' : Set Addr}
    (hmarks : Recognizer.marks (setVisited g v true) = M')
    (hsplit : (h current).type = .interval → ∀ a ∈ M', (h a).type ≠ .split) :
    Walking h current M' (setVisited g v true) := by
  refine ⟨hw.edges.trans (.modify g v fun _ => rfl), hmarks, hw.noSelf.imp_right fun hflag => ?_,
    hsplit⟩
  unfold Recognizer.setVisited
  rw [Heap.modify_apply]
  split
  · rfl
  · exact hflag

/-- Under the mark of an `EPSILON` node. -/
theorem epsilon (hw : Walking h current M g) (htype : (g v).type = .epsilon) :
    Walking h current M (Recognizer.setVisited g v true) :=
  hw.setVisited v ((marks_setVisited_epsilon htype).trans hw.marks) hw.splits

/-- Under the mark of a `TREE` node or, outside intervals, of a `SPLIT` node. -/
theorem mark (hw : Walking h current M g)
    (htype : (g v).type = .tree ∨ (g v).type = .split ∧ (h current).type ≠ .interval) :
    Walking h current (insert v M) (Recognizer.setVisited g v true) := by
  have hmark : (g v).type = .split ∨ (g v).type = .tree :=
    htype.elim Or.inr fun hs => Or.inl hs.1
  refine hw.setVisited v ((marks_setVisited hmark).trans (by rw [hw.marks])) fun hcur a ha => ?_
  rcases Set.mem_insert_iff.mp ha with rfl | ha
  · rw [← hw.edges.type]
    rcases htype with ht | ht
    · simp [ht]
    · exact absurd hcur ht.2
  · exact hw.splits hcur a ha

theorem mem_iff (hw : Walking h current M g) (htype : (g v).type = .split ∨ (g v).type = .tree) :
    v ∈ M ↔ (g v).visitedFlag = true := by
  rw [← hw.marks]
  exact and_iff_right htype

theorem of_flags (hw : Walking h current M g) (hedges : SameEdges g g')
    (hflags : ∀ a, (g' a).visitedFlag = (g a).visitedFlag) : Walking h current M g' := by
  refine ⟨hw.edges.trans hedges, ?_, by rw [hflags]; exact hw.noSelf, hw.splits⟩
  rw [← hw.marks]
  ext a
  simp only [Recognizer.marks, Set.mem_ofPred_eq, hedges.type, hflags]

end Walking

/-- On a graph without marks, from a start node that is walked through. -/
theorem walking_start (hpass : Passes (h start)) (hblank : Blank h) : Walking h start ∅ h := by
  refine ⟨.refl h, Set.eq_empty_of_forall_notMem ?_, Or.inl hpass, by simp⟩
  rintro a ⟨-, hflag⟩
  rw [(hblank a).1] at hflag
  cases hflag

/-- Under the mark of a stop on a graph without marks. -/
theorem walking_stop (hedges : SameEdges h g)
    (hunmarked : ∀ a, (h a).type ≠ .epsilon → (g a).visitedFlag = false) (hstop : ¬ Passes (h v)) :
    Walking h v ∅ (setVisited g v true) := by
  refine ⟨hedges.trans (.modify g v fun _ => rfl), ?_, Or.inr (by simp [setVisited]), by simp⟩
  apply Set.eq_empty_of_forall_notMem
  rintro a ⟨htype, hflag⟩
  have hpass : Passes (h a) := by
    rw [((hedges.trans (.modify g v fun _ => rfl) : SameEdges h (setVisited g v true))).type]
      at htype
    exact Or.inr htype
  have hne : a ≠ v := fun hav => hstop (hav ▸ hpass)
  rw [setVisited, Heap.modify_of_ne _ hne, hunmarked a ?_] at hflag
  · cases hflag
  · rw [← hedges.type]
    rw [setVisited, Heap.modify_of_ne _ hne] at htype
    rcases htype with ht | ht <;> simp [ht]

/-- Every branch of a walked list was walked, between walks of other branches. -/
theorem walkBranches_walked {branches : BranchList} {idxs : List Nat}
    (hrun : walkBranches fuel current f recursion branches idxs h = some h') {i : Nat}
    (hi : i ∈ idxs) : ∃ g g', AddsStops h g current ∧
      collectAdjacenciesHelper fuel current (branches.getAt i) f (recursion + 1) g = some g' ∧
      AddsStops g' h' current := by
  induction idxs generalizing h with
  | nil => simp at hi
  | cons j idxs ih =>
    simp only [walkBranches, List.foldlM_cons, Option.bind_eq_bind, Option.bind_eq_some_iff] at hrun
    obtain ⟨h₁, hone, hrest⟩ := hrun
    rcases List.mem_cons.mp hi with rfl | hi
    · exact ⟨h, h₁, .refl h current, hone, addsStops_walkBranches hrest⟩
    · obtain ⟨g, g', hadds, hwalk, hafter⟩ := ih hrest hi
      exact ⟨g, g', (collectAdjacenciesHelper_addsStops hone).trans hadds, hwalk, hafter⟩

/-- The moves of a walk; the branches are read as `list_get_at` reads them. -/
inductive Crosses (h : Heap) : Addr → Addr → Prop where
  | epsilon {a : Addr} (hnull : a ≠ 0) (htype : (h a).type = .epsilon) : Crosses h a (h a).out2
  | splitLeft {a : Addr} (hnull : a ≠ 0) (htype : (h a).type = .split) : Crosses h a (h a).out1
  | splitRight {a : Addr} (hnull : a ≠ 0) (htype : (h a).type = .split) : Crosses h a (h a).out2
  | branch {a : Addr} {i : Nat} (hnull : a ≠ 0) (htype : (h a).type = .tree)
      (hi : i < (h a).branches.size) : Crosses h a ((h a).branches.getAt i)

/-- The stops that moves lead to from a node while the nodes of `P` are not moved from. -/
def Sights (h : Heap) (P : Set Addr) (a x : Addr) : Prop :=
  Found (Crosses h) (fun a => Passes (h a)) P a x ∧ x ≠ 0

theorem Sights.mono {P Q : Set Addr} (hs : Sights h P v x) (hsub : Q ⊆ P) : Sights h Q v x :=
  ⟨hs.1.mono hsub, hs.2⟩

/-- A move and what is found behind it. -/
theorem Sights.head (hpass : Passes (h v)) (hmove : Crosses h v w) (hs : Sights h ∅ w x) :
    Sights h ∅ v x :=
  ⟨.step hpass (Set.notMem_empty v) hmove hs.1, hs.2⟩

/-- No move leaves `NULL`. -/
theorem not_sights_null {P : Set Addr} : ¬ Sights h P 0 x := by
  rintro ⟨hfound, hx⟩
  cases hfound with
  | stop => exact hx rfl
  | step _ _ hmove _ => cases hmove <;> exact absurd rfl ‹(0 : Addr) ≠ 0›

theorem reachable_setVisited (h : Heap) (v : Addr) (on : Bool) (a : Addr) :
    (setVisited h v on a).reachable = (h a).reachable := by
  unfold setVisited
  rw [Heap.modify_apply]
  split
  · rename_i ha
    rw [ha]
  · rfl

theorem mem_noteAccepts (h : Heap) (current v : Addr) :
    x ∈ (noteAccepts h current v current).reachable ↔ x ∈ (h current).reachable := by
  simpa using (Collects.noteAccepts h current v).mem x

theorem AddsStops.keeps (ha : AddsStops h h' current) (hx : x ∈ (h current).reachable) :
    x ∈ (h' current).reachable := by
  obtain ⟨S, hc, -⟩ := ha
  exact (hc.mem x).mpr (Or.inl hx)

/-- What every walk of a branch puts on the list, the walk over the branches does. -/
theorem sights_branches {branches : BranchList} {idxs : List Nat} {S : Prop}
    (ih : ∀ i ∈ idxs, ∀ g g', Walking h current M g →
      collectAdjacenciesHelper fuel current (branches.getAt i) f (recursion + 1) g = some g' →
      x ∈ (g' current).reachable → x ∈ (g current).reachable ∨ S)
    (hw : Walking h current M g)
    (hrun : walkBranches fuel current f recursion branches idxs g = some g')
    (hx : x ∈ (g' current).reachable) : x ∈ (g current).reachable ∨ S := by
  induction idxs generalizing g with
  | nil =>
    simp only [walkBranches, List.foldlM_nil, Option.pure_def, Option.some.injEq] at hrun
    exact Or.inl (hrun ▸ hx)
  | cons i idxs ihi =>
    simp only [walkBranches, List.foldlM_cons, Option.bind_eq_bind, Option.bind_eq_some_iff] at hrun
    obtain ⟨g₁, hone, hrest⟩ := hrun
    have hw₁ := hw.adds (collectAdjacenciesHelper_addsStops hone)
    rcases ihi (fun j hj => ih j (List.mem_cons_of_mem i hj)) hw₁ hrest with hold | hnew
    · exact ih i List.mem_cons_self g g₁ hw hone hold
    · exact Or.inr hnew

/-- A walk lists nothing but stops its moves lead to. -/
theorem collectAdjacenciesHelper_sights (hw : Walking h current M g)
    (hrun : collectAdjacenciesHelper fuel current v f recursion g = some g')
    (hx : x ∈ (g' current).reachable) : x ∈ (g current).reachable ∨ Sights h ∅ v x := by
  induction fuel generalizing v f recursion g g' M with
  | zero => simp [collectAdjacenciesHelper] at hrun
  | succ fuel ih =>
    have htype := hw.edges.type v
    have hpass := hw.edges.passes v
    cases collectAdjacenciesHelper_cases hrun with
    | forbidden => exact Or.inl (by simpa using hx)
    | epsilon _ hnull ht hnext =>
      rw [mem_noteAccepts, reachable_setVisited] at hx
      rcases ih (hw.epsilon ht) hnext hx with hold | hnew
      · exact Or.inl (by rwa [reachable_setVisited] at hold)
      · rw [hw.edges.out2] at hnew
        rw [htype] at ht
        exact Or.inr (hnew.head (Or.inl ht) (.epsilon hnull ht))
    | seen => exact Or.inl ((mem_noteAccepts ..).mp hx)
    | tree _ hnull ht _ hfold =>
      rw [mem_noteAccepts, reachable_setVisited] at hx
      have hfound := sights_branches (S := Sights h ∅ v x) (fun i hi g₁ g₂ hw₁ hone hx₁ => by
        refine (ih hw₁ hone hx₁).imp_right fun hnew => ?_
        rw [hw.edges.branches] at hnew hi
        rw [htype] at ht
        exact hnew.head (Or.inr (Or.inr ht)) (.branch hnull ht (List.mem_range.mp hi)))
        (hw.mark (Or.inl ht)) hfold hx
      rwa [reachable_setVisited] at hfound
    | splitInterval _ hnull ht _ _ hleft hright =>
      rw [mem_noteAccepts] at hx
      have hw₁ := hw.adds (collectAdjacenciesHelper_addsStops hleft)
      have ht' := htype ▸ ht
      rcases ih hw₁ hright hx with hold | hnew
      · rcases ih hw hleft hold with hold | hnew
        · exact Or.inl hold
        · rw [hw.edges.out1] at hnew
          exact Or.inr (hnew.head (Or.inr (Or.inl ht')) (.splitLeft hnull ht'))
      · rw [hw₁.edges.out2] at hnew
        exact Or.inr (hnew.head (Or.inr (Or.inl ht')) (.splitRight hnull ht'))
    | split _ hnull ht _ hcur hleft hright =>
      rw [mem_noteAccepts, reachable_setVisited] at hx
      rw [hw.edges.type] at hcur
      have hmark := hw.mark (v := v) (Or.inr ⟨ht, hcur⟩)
      have hw₁ := hmark.adds (collectAdjacenciesHelper_addsStops hleft)
      have ht' := htype ▸ ht
      rcases ih hw₁ hright hx with hold | hnew
      · rcases ih hmark hleft hold with hold | hnew
        · exact Or.inl (by rwa [reachable_setVisited] at hold)
        · rw [hw.edges.out1] at hnew
          exact Or.inr (hnew.head (Or.inr (Or.inl ht')) (.splitLeft hnull ht'))
      · rw [hw.edges.out2] at hnew
        exact Or.inr (hnew.head (Or.inr (Or.inl ht')) (.splitRight hnull ht'))
    | self hv hnull hstop hflag hself =>
      obtain ⟨rfl, -⟩ := hself
      rw [hpass] at hstop
      exact absurd hflag (by simp [hw.noSelf.resolve_left hstop])
    | stop _ hnull hstop =>
      rw [mem_noteAccepts, (Collects.addReachable ..).mem] at hx
      rw [hpass] at hstop
      refine hx.imp_right fun hnew => ?_
      subst hnew
      exact ⟨.stop hstop, hnull⟩

/-- The node that a walk below an interval may be told not to enter. -/
def loopStart (h : Heap) (current : Addr) : Set Addr :=
  {a | (h current).type = .interval ∧ a = (h current).out1}

/-- Every walk of a budget that returns finds the stops behind its first node, but not
past a mark or the first node of the loop. -/
def FindsAll (fuel : Nat) (h : Heap) (current : Addr) : Prop :=
  ∀ (M : Set Addr) (g g' : Heap) (v f recursion x : Addr), Walking h current M g →
    f = 0 ∨ f ∈ loopStart h current →
    collectAdjacenciesHelper fuel current v f recursion g = some g' →
    Sights h (M ∪ loopStart h current) v x → x ∉ loopStart h current → x ∈ (g' current).reachable

theorem Crosses.passes (hmove : Crosses h v w) : Passes (h v) := by
  cases hmove with
  | epsilon _ ht => exact Or.inl ht
  | splitLeft _ ht | splitRight _ ht => exact Or.inr (Or.inl ht)
  | branch _ ht => exact Or.inr (Or.inr ht)

/-- A walk that begins at a stop puts it on the list. -/
theorem finds_stop (hw : Walking h current M g) (hv : v ≠ f) (hstop : ¬ Passes (h v))
    (hrun : collectAdjacenciesHelper (fuel + 1) current v f recursion g = some g') :
    v ∈ (g' current).reachable := by
  have hpass := hw.edges.passes v
  cases collectAdjacenciesHelper_cases hrun with
  | forbidden hvf => exact absurd hvf hv
  | epsilon _ _ ht => exact absurd (hpass.mp (Or.inl ht)) hstop
  | seen _ _ ht => exact absurd (hpass.mp (Or.inr ht)) hstop
  | tree _ _ ht => exact absurd (hpass.mp (Or.inr (Or.inr ht))) hstop
  | splitInterval _ _ ht | split _ _ ht =>
    exact absurd (hpass.mp (Or.inr (Or.inl ht))) hstop
  | self _ _ _ hflag hself =>
    obtain ⟨rfl, -⟩ := hself
    exact absurd hflag (by simp [hw.noSelf.resolve_left hstop])
  | stop =>
    rw [mem_noteAccepts, (Collects.addReachable ..).mem]
    exact Or.inr rfl

/-- A walk that enters a node finds what the walks behind its moves find. -/
theorem finds_behind (ih : FindsAll fuel h current) (hw : Walking h current M g)
    (hf : f = 0 ∨ f ∈ loopStart h current) (hv : v ≠ f) (hnew : v ∉ M)
    (hrun : collectAdjacenciesHelper (fuel + 1) current v f recursion g = some g')
    (hmove : Crosses h v w) (hs : Sights h (insert v (M ∪ loopStart h current)) w x)
    (hx : x ∉ loopStart h current) : x ∈ (g' current).reachable := by
  have htype := hw.edges.type v
  have hpass := (hw.edges.passes v).mpr hmove.passes
  have hkeep := hs.mono (Set.subset_insert v _)
  rw [← Set.insert_union] at hs
  cases collectAdjacenciesHelper_cases hrun with
  | forbidden hvf => exact absurd hvf hv
  | epsilon _ _ ht hnext =>
    rw [mem_noteAccepts, reachable_setVisited]
    rw [hw.edges.out2] at hnext
    rw [htype] at ht
    cases hmove with
    | epsilon => exact ih _ _ _ _ _ _ _ (hw.epsilon (htype.trans ht)) hf hnext hkeep hx
    | splitLeft _ ht' | splitRight _ ht' | branch _ ht' =>
      exact absurd (ht.symm.trans ht') (by simp)
  | seen _ _ ht hflag => exact absurd ((hw.mem_iff ht).mpr hflag) hnew
  | tree _ _ ht _ hfold =>
    rw [mem_noteAccepts, reachable_setVisited]
    have hmark := hw.mark (v := v) (Or.inl ht)
    rw [hw.edges.branches] at hfold
    rw [htype] at ht
    cases hmove with
    | branch _ _ hi =>
      obtain ⟨g₁, g₂, hbefore, hone, hafter⟩ := walkBranches_walked hfold (List.mem_range.mpr hi)
      exact hafter.keeps (ih _ _ _ _ _ _ _ (hmark.adds hbefore) hf hone hs hx)
    | epsilon _ ht' | splitLeft _ ht' | splitRight _ ht' =>
      exact absurd (ht.symm.trans ht') (by simp)
  | splitInterval _ _ ht _ hcur hleft hright =>
    rw [mem_noteAccepts]
    have hadds := collectAdjacenciesHelper_addsStops hleft
    have hw₁ := hw.adds hadds
    rw [hw.edges.type] at hcur
    rw [hw.edges.out1, hw.edges.out1] at hleft
    rw [hw₁.edges.out2] at hright
    rw [htype] at ht
    cases hmove with
    | splitLeft =>
      refine (collectAdjacenciesHelper_addsStops hright).keeps ?_
      exact ih _ _ _ _ _ _ _ hw (Or.inr ⟨hcur, rfl⟩) hleft hkeep hx
    | splitRight => exact ih _ _ _ _ _ _ _ hw₁ hf hright hkeep hx
    | epsilon _ ht' | branch _ ht' => exact absurd (ht.symm.trans ht') (by simp)
  | split _ _ ht _ hcur hleft hright =>
    rw [mem_noteAccepts, reachable_setVisited]
    rw [hw.edges.type] at hcur
    have hmark := hw.mark (v := v) (Or.inr ⟨ht, hcur⟩)
    have hw₁ := hmark.adds (collectAdjacenciesHelper_addsStops hleft)
    rw [hw.edges.out1] at hleft
    rw [hw.edges.out2] at hright
    rw [htype] at ht
    cases hmove with
    | splitLeft =>
      refine (collectAdjacenciesHelper_addsStops hright).keeps ?_
      exact ih _ _ _ _ _ _ _ hmark hf hleft hs hx
    | splitRight => exact ih _ _ _ _ _ _ _ hw₁ hf hright hs hx
    | epsilon _ ht' | branch _ ht' => exact absurd (ht.symm.trans ht') (by simp)
  | self _ _ hstop => exact absurd hpass hstop
  | stop _ _ hstop => exact absurd hpass hstop

/-- **Walks find everything**: by induction on the budget, a search that comes back to
its first node is cut to start behind its last visit there. -/
theorem findsAll (fuel : Nat) (h : Heap) (current : Addr) : FindsAll fuel h current := by
  induction fuel with
  | zero =>
    intro M g g' v f recursion x _ _ hrun
    simp [collectAdjacenciesHelper] at hrun
  | succ fuel ih =>
    intro M g g' v f recursion x hw hf hrun hs hx
    obtain ⟨hfound, hnull⟩ := hs
    have hv : v ≠ f := by
      rintro rfl
      rcases hf with rfl | hloop
      · exact not_sights_null ⟨hfound, hnull⟩
      · cases hfound with
        | stop => exact hx hloop
        | step _ hnot => exact hnot (Or.inr hloop)
    cases hfound with
    | stop hstop => exact finds_stop hw hv hstop hrun
    | step hpass hnot hmove hrest =>
      have hnew : v ∉ M := fun hmem => hnot (Or.inl hmem)
      rcases hrest.avoid_or_restart v with havoid | ⟨w, hmove', hrestart⟩
      · exact finds_behind ih hw hf hv hnew hrun hmove ⟨havoid, hnull⟩ hx
      · exact finds_behind ih hw hf hv hnew hrun hmove' ⟨hrestart, hnull⟩ hx

/-- Outside intervals one walk finds all stops. -/
theorem finds_of_not_interval (hw : Walking h current ∅ g) (hcur : (h current).type ≠ .interval)
    (hrun : collectAdjacenciesHelper fuel current v 0 recursion g = some g')
    (hs : Sights h ∅ v x) : x ∈ (g' current).reachable := by
  have hloop : loopStart h current = ∅ := Set.eq_empty_of_forall_notMem fun a ha => hcur ha.1
  exact findsAll fuel h current ∅ g g' v 0 recursion x hw (Or.inl rfl) hrun
    (by simpa [hloop] using hs) (by simp [hloop])

theorem loopStart_of_interval (hcur : (h current).type = .interval) :
    loopStart h current = {(h current).out1} := by
  ext a
  simp [loopStart, hcur]

/-- The walk at the first node of the loop finds all stops behind it. -/
theorem finds_of_loopStart (hw : Walking h current ∅ g) (hcur : (h current).type = .interval)
    (hrun : collectAdjacenciesHelper fuel current (h current).out1 0 recursion g = some g')
    (hs : Sights h ∅ (h current).out1 x) : x ∈ (g' current).reachable := by
  have hloop := loopStart_of_interval hcur
  have hv : (h current).out1 ≠ 0 := by
    intro hzero
    rw [hzero] at hs
    exact not_sights_null hs
  obtain ⟨hfound, hnull⟩ := hs
  cases fuel with
  | zero => simp [collectAdjacenciesHelper] at hrun
  | succ fuel =>
    cases hfound with
    | stop hstop => exact finds_stop hw hv hstop hrun
    | step hpass hnot hmove hrest =>
      have hx : x ∉ loopStart h current := by
        rw [hloop, Set.mem_singleton_iff]
        rintro rfl
        exact hrest.not_pass hpass
      have hset : insert (h current).out1 (∅ ∪ loopStart h current) =
          insert (h current).out1 ∅ := by
        rw [hloop]
        simp
      rcases hrest.avoid_or_restart (h current).out1 with havoid | ⟨w, hmove', hrestart⟩
      · exact finds_behind (findsAll fuel h current) hw (Or.inl rfl) hv hnot hrun hmove
          (hset ▸ ⟨havoid, hnull⟩) hx
      · exact finds_behind (findsAll fuel h current) hw (Or.inl rfl) hv hnot hrun hmove'
          (hset ▸ ⟨hrestart, hnull⟩) hx

/-- What another walk below an interval does not find lies behind the first node of
the loop. -/
theorem finds_or_loopStart (hw : Walking h current ∅ g) (hcur : (h current).type = .interval)
    (hrun : collectAdjacenciesHelper fuel current v 0 recursion g = some g')
    (hs : Sights h ∅ v x) : x ∈ (g' current).reachable ∨ Sights h ∅ (h current).out1 x := by
  have hloop := loopStart_of_interval hcur
  obtain ⟨hfound, hnull⟩ := hs
  rcases hfound.avoid_or_restart (h current).out1 with havoid | ⟨w, hmove, hrestart⟩
  · by_cases hx : x = (h current).out1
    · subst hx
      exact Or.inr ⟨.stop hfound.not_pass, hnull⟩
    · refine Or.inl (findsAll fuel h current ∅ g g' v 0 recursion x hw (Or.inl rfl) hrun ?_ ?_)
      · rw [hloop, Set.empty_union]
        exact ⟨by simpa using havoid, hnull⟩
      · rwa [hloop, Set.mem_singleton_iff]
  · have hbehind : Sights h _ w x := ⟨hrestart, hnull⟩
    exact Or.inr ((hbehind.mono (Set.empty_subset _)).head hmove.passes hmove)

end Recognizer
