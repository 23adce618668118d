import Recognizer.Compile.Closure

/-!
# What any walk of `collect_adjacencies_helper` leaves alone

Whatever the graph, a walk that returns has only added stops to the reachable list
of the current node, and has restored every mark that a later walk looks at. Its
result depends on the graph, on those marks and on that list alone.
-/

namespace Recognizer

variable {h h' g g' : Heap} {current v forbidden : Addr} {fuel recursion : Nat}

/-- The walk over the branches of a `TREE` node. -/
abbrev walkBranches (fuel : Nat) (current forbidden : Addr) (recursion : Nat) (branches : BranchList)
    (idxs : List Nat) (h : Heap) : Option Heap :=
  idxs.foldlM (fun h i =>
    collectAdjacenciesHelper fuel current (branches.getAt i) forbidden (recursion + 1) h) h

/-- The ways in which a call of `collect_adjacencies_helper` returns. -/
inductive HelperStep (fuel : Nat) (current v forbidden : Addr) (recursion : Nat) (h : Heap) :
    Heap → Prop where
  | forbidden (hv : v = forbidden) :
    HelperStep fuel current v forbidden recursion h
      (h.modify current fun x => { x with cycleFlag := true })
  | epsilon {g : Heap} (hv : v ≠ forbidden) (hnull : v ≠ 0) (htype : (h v).type = .epsilon)
      (hnext : collectAdjacenciesHelper fuel current (h v).out2 forbidden (recursion + 1)
        (setVisited h v true) = some g) :
    HelperStep fuel current v forbidden recursion h (noteAccepts (setVisited g v false) current v)
  | seen (hv : v ≠ forbidden) (hnull : v ≠ 0)
      (htype : (h v).type = .split ∨ (h v).type = .tree) (hflag : (h v).visitedFlag = true) :
    HelperStep fuel current v forbidden recursion h (noteAccepts h current v)
  | tree {g : Heap} (hv : v ≠ forbidden) (hnull : v ≠ 0) (htype : (h v).type = .tree)
      (hflag : (h v).visitedFlag = false)
      (hfold : walkBranches fuel current forbidden recursion (h v).branches
        (List.range (h v).branches.size) (setVisited h v true) = some g) :
    HelperStep fuel current v forbidden recursion h (noteAccepts (setVisited g v false) current v)
  | splitInterval {g g' : Heap} (hv : v ≠ forbidden) (hnull : v ≠ 0) (htype : (h v).type = .split)
      (hflag : (h v).visitedFlag = false) (hcur : (h current).type = .interval)
      (hleft : collectAdjacenciesHelper fuel current (h v).out1 (h current).out1 recursion h =
        some g)
      (hright : collectAdjacenciesHelper fuel current (g v).out2 forbidden recursion g = some g') :
    HelperStep fuel current v forbidden recursion h (noteAccepts g' current v)
  | split {g g' : Heap} (hv : v ≠ forbidden) (hnull : v ≠ 0) (htype : (h v).type = .split)
      (hflag : (h v).visitedFlag = false) (hcur : (h current).type ≠ .interval)
      (hleft : collectAdjacenciesHelper fuel current (h v).out1 forbidden (recursion + 1)
        (setVisited h v true) = some g)
      (hright : collectAdjacenciesHelper fuel current (h v).out2 forbidden (recursion + 1) g =
        some g') :
    HelperStep fuel current v forbidden recursion h (noteAccepts (setVisited g' v false) current v)
  | self {g : Heap} (hv : v ≠ forbidden) (hnull : v ≠ 0) (hstop : ¬ Passes (h v))
      (hflag : (h v).visitedFlag = false) (hself : current = v ∧ recursion = 0)
      (hnext : collectAdjacenciesHelper fuel current (h v).out2 forbidden (recursion + 1) h =
        some g) :
    HelperStep fuel current v forbidden recursion h (noteAccepts g current v)
  | stop (hv : v ≠ forbidden) (hnull : v ≠ 0) (hstop : ¬ Passes (h v))
      (hother : (h v).visitedFlag = true ∨ ¬ (current = v ∧ recursion = 0)) :
    HelperStep fuel current v forbidden recursion h
      (noteAccepts (addReachable h current v) current v)

/-- A stop has none of the types that are walked through. -/
private theorem not_passes_cases {n : NFA} (h : ¬ Passes n) :
    n.type ≠ .epsilon ∧ n.type ≠ .split ∧ n.type ≠ .tree :=
  ⟨fun ht => h (Or.inl ht), fun ht => h (Or.inr (Or.inl ht)), fun ht => h (Or.inr (Or.inr ht))⟩

/-- A call returns in one of the listed ways. -/
theorem collectAdjacenciesHelper_cases
    (hrun : collectAdjacenciesHelper (fuel + 1) current v forbidden recursion h = some h') :
    HelperStep fuel current v forbidden recursion h h' := by
  rw [collectAdjacenciesHelper] at hrun
  by_cases hv : v = forbidden
  · rw [if_pos hv, Option.some.injEq] at hrun
    exact hrun ▸ .forbidden hv
  by_cases hnull : v = 0
  · rw [if_neg hv, if_pos hnull] at hrun
    cases hrun
  rw [if_neg hv, if_neg hnull] at hrun
  simp only [Option.map_eq_some_iff] at hrun
  obtain ⟨g, hg, rfl⟩ := hrun
  by_cases heps : (h v).type = .epsilon
  · rw [if_pos heps] at hg
    simp only [Option.bind_eq_bind, Option.bind_eq_some_iff, Option.some.injEq] at hg
    obtain ⟨a, ha, rfl⟩ := hg
    exact .epsilon hv hnull heps ha
  rw [if_neg heps] at hg
  cases hflag : (h v).visitedFlag with
  | true =>
    rw [if_pos hflag] at hg
    by_cases hmark : (h v).type = .split ∨ (h v).type = .tree
    · have hgh : h = g := by
        rcases hmark with ht | ht <;> simpa [ht] using hg
      exact hgh ▸ .seen hv hnull hmark hflag
    · have hgh : addReachable h current v = g := by
        cases ht : (h v).type <;> simp_all
      exact hgh ▸ .stop hv hnull (fun hp => hmark (hp.resolve_left heps)) (Or.inl hflag)
  | false =>
    rw [if_neg (by simp [hflag])] at hg
    split at hg
    · rename_i ht
      simp only [Option.bind_eq_bind, Option.bind_eq_some_iff, Option.some.injEq] at hg
      obtain ⟨a, ha, rfl⟩ := hg
      exact .tree hv hnull ht hflag ha
    · rename_i ht
      split at hg
      · rename_i hint
        simp only [Option.bind_eq_bind, Option.bind_eq_some_iff] at hg
        obtain ⟨a, ha, hg⟩ := hg
        exact .splitInterval hv hnull ht hflag hint ha hg
      · rename_i hint
        simp only [Option.bind_eq_bind, Option.bind_eq_some_iff, Option.some.injEq] at hg
        obtain ⟨a, ha, b, hb, rfl⟩ := hg
        exact .split hv hnull ht hflag hint ha hb
    · rename_i htree hsplit
      have hstop : ¬ Passes (h v) := fun hp =>
        (hp.resolve_left heps).elim hsplit htree
      split at hg
      · rename_i hself
        exact .self hv hnull hstop hflag hself hg
      · rename_i hself
        rw [Option.some.injEq] at hg
        exact hg ▸ .stop hv hnull hstop (Or.inr hself)

/-- Each of the listed ways is one in which a call returns. -/
theorem HelperStep.run (hstep : HelperStep fuel current v forbidden recursion h h') :
    collectAdjacenciesHelper (fuel + 1) current v forbidden recursion h = some h' := by
  rw [collectAdjacenciesHelper]
  cases hstep with
  | forbidden hv => rw [if_pos hv]
  | epsilon hv hnull htype hnext =>
    rw [if_neg hv, if_neg hnull]
    simp [htype, hnext]
  | seen hv hnull htype hflag =>
    rw [if_neg hv, if_neg hnull]
    rcases htype with ht | ht <;> simp [ht, hflag]
  | tree hv hnull htype hflag hfold =>
    rw [if_neg hv, if_neg hnull]
    simp only [walkBranches] at hfold
    simp [htype, hflag, hfold]
  | splitInterval hv hnull htype hflag hcur hleft hright =>
    rw [if_neg hv, if_neg hnull]
    simp [htype, hflag, hcur, hleft, hright]
  | split hv hnull htype hflag hcur hleft hright =>
    rw [if_neg hv, if_neg hnull]
    simp [htype, hflag, hcur, hleft, hright]
  | self hv hnull hstop hflag hself hnext =>
    rw [if_neg hv, if_neg hnull]
    obtain ⟨heps, hsplit, htree⟩ := not_passes_cases hstop
    cases ht : (h v).type <;> simp_all
  | stop hv hnull hstop hother =>
    rw [if_neg hv, if_neg hnull]
    obtain ⟨heps, hsplit, htree⟩ := not_passes_cases hstop
    cases hflag : (h v).visitedFlag with
    | true => cases ht : (h v).type <;> simp_all
    | false =>
      have hself : ¬ (current = v ∧ recursion = 0) := hother.resolve_left (by simp [hflag])
      cases ht : (h v).type <;> simp_all [-not_and]

/-- A walk that adds stops to the list of the current node. -/
def AddsStops (h h' : Heap) (current : Addr) : Prop :=
  ∃ S : Addr → Prop, Collects h h' current S ∧ ∀ x, S x → ¬ Passes (h x)

namespace AddsStops

/-- No call at all adds no stops. -/
theorem refl (h : Heap) (current : Addr) : AddsStops h h current :=
  ⟨_, .refl h current, fun _ => False.elim⟩

/-- Walks one after the other add the stops of both. -/
theorem trans (h₁ : AddsStops h g current) (h₂ : AddsStops g h' current) :
    AddsStops h h' current := by
  obtain ⟨S₁, hc₁, hs₁⟩ := h₁
  obtain ⟨S₂, hc₂, hs₂⟩ := h₂
  refine ⟨_, hc₁.trans hc₂, fun x hx => ?_⟩
  rcases hx with hx | hx
  · exact hs₁ x hx
  · have hstop := hs₂ x hx
    unfold Passes at hstop ⊢
    rwa [hc₁.graph.type] at hstop

/-- Noting that the current node accepts adds no stops. -/
theorem noteAccepts (h : Heap) (current v : Addr) :
    AddsStops h (Recognizer.noteAccepts h current v) current :=
  ⟨_, .noteAccepts h current v, fun _ => False.elim⟩

/-- Listing a stop adds that stop. -/
theorem addReachable (hstop : ¬ Passes (h v)) :
    AddsStops h (Recognizer.addReachable h current v) current :=
  ⟨_, .addReachable h current v, fun _ hx => hx ▸ hstop⟩

/-- Noting a cycle adds no stops. -/
theorem setCycle (h : Heap) (current : Addr) :
    AddsStops h (h.modify current fun x => { x with cycleFlag := true }) current :=
  ⟨fun _ => False, .modify_current h (fun _ => rfl) (fun _ => rfl) (fun _ => rfl) id (by simp),
    fun _ => False.elim⟩

/-- A walk under the mark of a node adds the same stops once the mark is gone. -/
theorem unmark (hv : (h v).type = .epsilon ∨ (h v).visitedFlag = false)
    (hc : AddsStops (setVisited h v true) g current) :
    AddsStops h (setVisited g v false) current := by
  obtain ⟨S, hc, hs⟩ := hc
  refine ⟨S, hc.unmark hv, fun x hx => ?_⟩
  have hstop := hs x hx
  unfold Passes at hstop ⊢
  rwa [(sameGraph_setVisited h v true).type] at hstop

end AddsStops

/-- A walk over branches adds stops only, if the walk of each branch does. -/
private theorem addsStops_branches {branches : BranchList} {idxs : List Nat}
    (ih : ∀ v h h', collectAdjacenciesHelper fuel current v forbidden (recursion + 1) h = some h' →
      AddsStops h h' current)
    (hrun : walkBranches fuel current forbidden recursion branches idxs h = some h') :
    AddsStops h h' current := by
  induction idxs generalizing h with
  | nil =>
    simp only [walkBranches, List.foldlM_nil, Option.pure_def, Option.some.injEq] at hrun
    exact hrun ▸ .refl h current
  | cons i idxs ihi =>
    simp only [walkBranches, List.foldlM_cons, Option.bind_eq_bind, Option.bind_eq_some_iff] at hrun
    obtain ⟨g, hone, hrest⟩ := hrun
    exact (ih _ _ _ hone).trans (ihi hrest)

/-- **Any walk that returns** only adds stops to the list of the current node. -/
theorem collectAdjacenciesHelper_addsStops
    (hrun : collectAdjacenciesHelper fuel current v forbidden recursion h = some h') :
    AddsStops h h' current := by
  induction fuel generalizing v forbidden recursion h h' with
  | zero => simp [collectAdjacenciesHelper] at hrun
  | succ fuel ih =>
    cases collectAdjacenciesHelper_cases hrun with
    | forbidden => exact .setCycle h current
    | epsilon _ _ htype hnext => exact ((ih hnext).unmark (Or.inl htype)).trans (.noteAccepts ..)
    | seen => exact .noteAccepts ..
    | tree _ _ _ hflag hfold =>
      have hbranches := addsStops_branches (fun _ _ _ => ih) hfold
      exact (hbranches.unmark (Or.inr hflag)).trans (.noteAccepts ..)
    | splitInterval _ _ _ _ _ hleft hright =>
      exact ((ih hleft).trans (ih hright)).trans (.noteAccepts ..)
    | split _ _ _ hflag _ hleft hright =>
      exact (((ih hleft).trans (ih hright)).unmark (Or.inr hflag)).trans (.noteAccepts ..)
    | self _ _ _ _ _ hnext => exact (ih hnext).trans (.noteAccepts ..)
    | stop _ _ hstop => exact (AddsStops.addReachable hstop).trans (.noteAccepts ..)

/-- The walk over the branches of a list only adds stops, too. -/
theorem addsStops_walkBranches {branches : BranchList} {idxs : List Nat}
    (hrun : walkBranches fuel current forbidden recursion branches idxs h = some h') :
    AddsStops h h' current :=
  addsStops_branches (fun _ _ _ => collectAdjacenciesHelper_addsStops) hrun

/-- What a walk reads of a node that no walk writes. -/
def NFA.edges (n : NFA) : NfaType × Addr × Addr × BranchList := (n.type, n.out1, n.out2, n.branches)

/-- Two heaps have the same edges. -/
def SameEdges (h g : Heap) : Prop := ∀ a, (g a).edges = (h a).edges

namespace SameEdges

/-- A heap has its own edges. -/
@[refl] theorem refl (h : Heap) : SameEdges h h := fun _ => rfl

/-- Having the same edges is transitive. -/
theorem trans (h₁ : SameEdges h g) (h₂ : SameEdges g g') : SameEdges h g' :=
  fun a => (h₂ a).trans (h₁ a)

/-- Having the same edges is symmetric. -/
theorem symm (hs : SameEdges h g) : SameEdges g h := fun a => (hs a).symm

/-- What keeps the graph keeps its edges. -/
theorem of_graph (hs : SameGraph h g) : SameEdges h g := by
  intro a
  unfold NFA.edges
  rw [hs.type, hs.out1, hs.out2, hs.branches]

/-- A write that leaves the edges of every node keeps them. -/
theorem modify (h : Heap) (a : Addr) {f : NFA → NFA} (hf : ∀ n, (f n).edges = n.edges) :
    SameEdges h (h.modify a f) := by
  intro b
  rw [Heap.modify_apply]
  split
  · rename_i hb
    rw [hf, hb]
  · rfl

variable (hs : SameEdges h g) (a : Addr)

include hs

/-- Nodes with the same edges have the same type. -/
theorem type : (g a).type = (h a).type := congrArg Prod.fst (hs a)

/-- Nodes with the same edges have the same first successor. -/
theorem out1 : (g a).out1 = (h a).out1 := congrArg (fun e => e.2.1) (hs a)

/-- Nodes with the same edges have the same second successor. -/
theorem out2 : (g a).out2 = (h a).out2 := congrArg (fun e => e.2.2.1) (hs a)

/-- Nodes with the same edges have the same branches. -/
theorem branches : (g a).branches = (h a).branches := congrArg (fun e => e.2.2.2) (hs a)

/-- The same nodes are walked through. -/
theorem passes : Passes (g a) ↔ Passes (h a) := by
  unfold Passes
  rw [hs.type]

end SameEdges

/-- Two heaps a walk for the current node cannot tell apart: the same edges, the
same marks on the nodes whose marks are looked at, and the same list. -/
structure Agrees (current : Addr) (h g : Heap) : Prop where
  edges : SameEdges h g
  flags : ∀ a, (h a).type ≠ .epsilon → (g a).visitedFlag = (h a).visitedFlag
  list : (g current).reachable = (h current).reachable

namespace Agrees

/-- A write of the same members on both sides. -/
theorem modify (ha : Agrees current h g) (a : Addr) {f : NFA → NFA}
    (hedges : ∀ n, (f n).edges = n.edges)
    (hflag : ∀ n m : NFA, n.visitedFlag = m.visitedFlag → (f n).visitedFlag = (f m).visitedFlag)
    (hlist : ∀ n m : NFA, n.reachable = m.reachable → (f n).reachable = (f m).reachable) :
    Agrees current (h.modify a f) (g.modify a f) where
  edges := (SameEdges.modify h a hedges).symm.trans (ha.edges.trans (.modify g a hedges))
  flags b hne := by
    rw [(SameEdges.modify h a hedges).type] at hne
    rw [Heap.modify_apply, Heap.modify_apply]
    split
    · rename_i hb
      exact hflag _ _ (ha.flags a (hb ▸ hne))
    · exact ha.flags b hne
  list := by
    rw [Heap.modify_apply, Heap.modify_apply]
    split
    · rename_i hb
      exact hlist _ _ (hb ▸ ha.list)
    · exact ha.list

/-- Marking the same node on both sides. -/
theorem setVisited (ha : Agrees current h g) (v : Addr) (on : Bool) :
    Agrees current (setVisited h v on) (setVisited g v on) :=
  ha.modify v (fun _ => rfl) (fun _ _ _ => rfl) (fun _ _ => id)

/-- Listing the same node on both sides. -/
theorem addReachable (ha : Agrees current h g) (v : Addr) :
    Agrees current (addReachable h current v) (addReachable g current v) := by
  unfold Recognizer.addReachable
  rw [ha.list]
  split
  · exact ha
  · exact ha.modify current (fun _ => rfl) (fun _ _ => id) (fun _ _ hr => by rw [hr])

/-- Noting on both sides that the current node accepts. -/
theorem noteAccepts (ha : Agrees current h g) (v : Addr) :
    Agrees current (noteAccepts h current v) (noteAccepts g current v) := by
  unfold Recognizer.noteAccepts
  rw [ha.edges.type v]
  split
  · exact ha.modify current (fun _ => rfl) (fun _ _ => id) (fun _ _ => id)
  · exact ha

end Agrees

/-- A walk over branches takes the same course on heaps it cannot tell apart. -/
private theorem agrees_branches {branches : BranchList} {idxs : List Nat}
    (ih : ∀ v h h' g, Agrees current h g →
      collectAdjacenciesHelper fuel current v forbidden (recursion + 1) h = some h' →
      ∃ g', collectAdjacenciesHelper fuel current v forbidden (recursion + 1) g = some g' ∧
        Agrees current h' g')
    (ha : Agrees current h g)
    (hrun : walkBranches fuel current forbidden recursion branches idxs h = some h') :
    ∃ g', walkBranches fuel current forbidden recursion branches idxs g = some g' ∧
      Agrees current h' g' := by
  induction idxs generalizing h g with
  | nil =>
    simp only [walkBranches, List.foldlM_nil, Option.pure_def, Option.some.injEq] at hrun
    exact ⟨g, rfl, hrun ▸ ha⟩
  | cons i idxs ihi =>
    simp only [walkBranches, List.foldlM_cons, Option.bind_eq_bind, Option.bind_eq_some_iff] at hrun
    obtain ⟨h₁, hone, hrest⟩ := hrun
    obtain ⟨g₁, hone', ha₁⟩ := ih _ _ _ _ ha hone
    obtain ⟨g', hrest', ha'⟩ := ihi ha₁ hrest
    refine ⟨g', ?_, ha'⟩
    simp only [walkBranches, List.foldlM_cons, Option.bind_eq_bind, Option.bind_eq_some_iff]
    exact ⟨g₁, hone', hrest'⟩

/-- A walk takes the same course on heaps it cannot tell apart. -/
theorem collectAdjacenciesHelper_agrees (ha : Agrees current h g)
    (hrun : collectAdjacenciesHelper fuel current v forbidden recursion h = some h') :
    ∃ g', collectAdjacenciesHelper fuel current v forbidden recursion g = some g' ∧
      Agrees current h' g' := by
  induction fuel generalizing v forbidden recursion h h' g with
  | zero => simp [collectAdjacenciesHelper] at hrun
  | succ fuel ih =>
    have htype := ha.edges.type v
    have hpass := ha.edges.passes v
    cases collectAdjacenciesHelper_cases hrun with
    | forbidden hv =>
      exact ⟨_, (HelperStep.forbidden hv).run,
        ha.modify current (fun _ => rfl) (fun _ _ => id) (fun _ _ => id)⟩
    | epsilon hv hnull ht hnext =>
      obtain ⟨g₁, hnext', ha₁⟩ := ih (ha.setVisited v true) hnext
      rw [← ha.edges.out2 v] at hnext'
      exact ⟨_, (HelperStep.epsilon hv hnull (htype.trans ht) hnext').run,
        (ha₁.setVisited v false).noteAccepts v⟩
    | seen hv hnull ht hflag =>
      have hflag' : (g v).visitedFlag = true :=
        (ha.flags v (by rcases ht with ht | ht <;> simp [ht])).trans hflag
      exact ⟨_, (HelperStep.seen hv hnull (htype ▸ ht) hflag').run, ha.noteAccepts v⟩
    | tree hv hnull ht hflag hfold =>
      have hflag' : (g v).visitedFlag = false := (ha.flags v (by simp [ht])).trans hflag
      obtain ⟨g₁, hfold', ha₁⟩ :=
        agrees_branches (fun _ _ _ _ => ih) (ha.setVisited v true) hfold
      rw [← ha.edges.branches v] at hfold'
      exact ⟨_, (HelperStep.tree hv hnull (htype.trans ht) hflag' hfold').run,
        (ha₁.setVisited v false).noteAccepts v⟩
    | @splitInterval h₁ h₂ hv hnull ht hflag hcur hleft hright =>
      have hflag' : (g v).visitedFlag = false := (ha.flags v (by simp [ht])).trans hflag
      obtain ⟨g₁, hleft', ha₁⟩ := ih ha hleft
      obtain ⟨g₂, hright', ha₂⟩ := ih ha₁ hright
      rw [← ha.edges.out1 v, ← ha.edges.out1 current] at hleft'
      rw [← ha₁.edges.out2 v] at hright'
      exact ⟨_, (HelperStep.splitInterval hv hnull (htype.trans ht) hflag'
        ((ha.edges.type current).trans hcur) hleft' hright').run, ha₂.noteAccepts v⟩
    | split hv hnull ht hflag hcur hleft hright =>
      have hflag' : (g v).visitedFlag = false := (ha.flags v (by simp [ht])).trans hflag
      obtain ⟨g₁, hleft', ha₁⟩ := ih (ha.setVisited v true) hleft
      obtain ⟨g₂, hright', ha₂⟩ := ih ha₁ hright
      rw [← ha.edges.out1 v] at hleft'
      rw [← ha.edges.out2 v] at hright'
      exact ⟨_, (HelperStep.split hv hnull (htype.trans ht) hflag'
        (by rwa [ha.edges.type current]) hleft' hright').run,
        (ha₂.setVisited v false).noteAccepts v⟩
    | self hv hnull hstop hflag hself hnext =>
      have hflag' : (g v).visitedFlag = false :=
        (ha.flags v fun ht => hstop (Or.inl ht)).trans hflag
      obtain ⟨g₁, hnext', ha₁⟩ := ih ha hnext
      rw [← ha.edges.out2 v] at hnext'
      exact ⟨_, (HelperStep.self hv hnull (by rwa [hpass]) hflag' hself hnext').run,
        ha₁.noteAccepts v⟩
    | stop hv hnull hstop hother =>
      have hflag := ha.flags v fun ht => hstop (Or.inl ht)
      exact ⟨_, (HelperStep.stop hv hnull (by rwa [hpass]) (hflag ▸ hother)).run,
        (ha.addReachable v).noteAccepts v⟩

end Recognizer
