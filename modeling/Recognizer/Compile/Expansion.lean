import Recognizer.Compile.CompileRegex
import Recognizer.Compile.Walking
import Recognizer.Core.BreadthFirst

/-!
# How the work list grows

Expanding a node gives it the same list whenever it happens, so the work list of
`collect_adjacencies` grows breadth-first over a fixed graph of lists, until it runs
out or the loop is cut off after `total_collectables + 1` rounds.
-/

namespace Recognizer

open BreadthFirst

variable {h h' g g' h₀ : Heap} {current v start : Addr} {fuel total : Nat} {l : List Addr}

/-- Writes to the list of one node, of stops only, and to nothing else that a
later walk reads. -/
structure Touches (h h' : Heap) (v : Addr) : Prop where
  edges : SameEdges h h'
  flags : ∀ a, (h a).type ≠ .epsilon → (h' a).visitedFlag = (h a).visitedFlag
  done : ∀ a, (h' a).doneFlag = (h a).doneFlag
  others : ∀ a, a ≠ v → (h' a).reachable = (h a).reachable
  stops : ∀ x ∈ (h' v).reachable, x ∈ (h v).reachable ∨ ¬ Passes (h x)

theorem AddsStops.touches (hadds : AddsStops h h' v) : Touches h h' v := by
  obtain ⟨S, hc, hs⟩ := hadds
  exact ⟨.of_graph hc.graph, hc.flags, hc.done, hc.others,
    fun x hx => ((hc.mem x).mp hx).imp_right (hs x)⟩

namespace Touches

theorem trans (h₁ : Touches h g v) (h₂ : Touches g h' v) : Touches h h' v where
  edges := h₁.edges.trans h₂.edges
  flags a ha := (h₂.flags a (h₁.edges.type a ▸ ha)).trans (h₁.flags a ha)
  done a := (h₂.done a).trans (h₁.done a)
  others a ha := (h₂.others a ha).trans (h₁.others a ha)
  stops x hx := by
    rcases h₂.stops x hx with hold | hstop
    · exact h₁.stops x hold
    · exact Or.inr fun hp => hstop ((h₁.edges.passes x).mpr hp)

/-- A write of the node itself that leaves its edges and marks. -/
theorem modify_self (h : Heap) (v : Addr) {f : NFA → NFA} (hedges : ∀ n, (f n).edges = n.edges)
    (hflag : ∀ n, (f n).visitedFlag = n.visitedFlag) (hdone : ∀ n, (f n).doneFlag = n.doneFlag)
    (hstops : ∀ x ∈ (f (h v)).reachable, x ∈ (h v).reachable ∨ ¬ Passes (h x)) :
    Touches h (h.modify v f) v where
  edges := .modify h v hedges
  flags a _ := by
    rw [Heap.modify_apply]
    split
    · rename_i ha
      rw [hflag, ha]
    · rfl
  done a := by
    rw [Heap.modify_apply]
    split
    · rename_i ha
      rw [hdone, ha]
    · rfl
  others a ha := by rw [Heap.modify_of_ne _ ha]
  stops x hx := by
    rw [Heap.modify_self] at hx
    exact hstops x hx

/-- A walk under the mark of the node is a walk without it, once the mark is gone. -/
theorem unmark (hflag : (h v).visitedFlag = false) (ht : Touches (setVisited h v true) g v) :
    Touches h (setVisited g v false) v := by
  have hedges : ∀ (k : Heap) (on : Bool), SameEdges k (setVisited k v on) :=
    fun k on => .modify k v fun _ => rfl
  have hlist : ∀ (k : Heap) (on : Bool) (a : Addr),
      ((setVisited k v on) a).reachable = (k a).reachable ∧
        ((setVisited k v on) a).doneFlag = (k a).doneFlag := by
    intro k on a
    unfold setVisited
    rw [Heap.modify_apply]
    split
    · rename_i ha
      exact ha ▸ ⟨rfl, rfl⟩
    · exact ⟨rfl, rfl⟩
  refine ⟨((hedges h true).trans ht.edges).trans (hedges g false), fun a ha => ?_, fun a => ?_,
    fun a ha => ?_, fun x hx => ?_⟩
  · by_cases hav : a = v
    · subst hav
      simpa [setVisited] using hflag.symm
    · have hkept := ht.flags a (by rwa [(hedges h true).type a])
      simpa [setVisited, Heap.modify_of_ne, hav] using hkept
  · rw [(hlist g false a).2, ht.done, (hlist h true a).2]
  · rw [(hlist g false a).1, ht.others a ha, (hlist h true a).1]
  · rw [(hlist g false v).1] at hx
    have hstops := ht.stops x hx
    rwa [(hlist h true v).1, (hedges h true).passes x] at hstops

end Touches

/-- The writes between the two walks of an interval. -/
def stashList (h : Heap) (v : Addr) : Heap :=
  h.modify v fun x =>
    { x with splitIdx := (h v).reachable.length, reachable := []
             iterIdx := if (h v).reachable = [] then x.iterIdx else -1 }

/-- The writes after the second walk of an interval. -/
def restoreList (h : Heap) (v : Addr) (loopPart : List Addr) : Heap :=
  h.modify v fun x =>
    { x with reachable := loopPart ++ x.reachable
             iterIdx := if x.reachable = [] then x.iterIdx else -1 }

/-- Expanding an interval takes two walks. -/
theorem expandNode_interval (htype : (h v).type = .interval) :
    expandNode fuel v h =
      (collectAdjacenciesHelper fuel v (h v).out1 0 0 (setVisited h v true)).bind fun g =>
        (collectAdjacenciesHelper fuel v (g v).out2 0 0 (stashList g v)).map fun g' =>
          setVisited (restoreList g' v (g v).reachable) v false := by
  have hint : (setVisited h v true v).type = .interval := by simpa [setVisited] using htype
  have hout : (setVisited h v true v).out1 = (h v).out1 := by simp [setVisited]
  unfold expandNode stashList restoreList
  simp [hint, hout, Option.map_eq_bind]

/-- Expanding a `SPLIT` node takes two walks that share a list. -/
theorem expandNode_split (htype : (h v).type = .split) :
    expandNode fuel v h =
      (collectAdjacenciesHelper fuel v (h v).out1 0 0 (setVisited h v true)).bind fun g =>
        (collectAdjacenciesHelper fuel v (g v).out2 0 0 g).map fun g' => setVisited g' v false := by
  have hsplit : (setVisited h v true v).type = .split := by simpa [setVisited] using htype
  have hout : (setVisited h v true v).out1 = (h v).out1 := by simp [setVisited]
  unfold expandNode
  simp [hsplit, hout, Option.map_eq_bind]

/-- Expanding another node takes one walk. -/
theorem expandNode_other (hint : (h v).type ≠ .interval) (hsplit : (h v).type ≠ .split) :
    expandNode fuel v h =
      (collectAdjacenciesHelper fuel v (h v).out2 0 0 (setVisited h v true)).map fun g =>
        setVisited g v false := by
  unfold expandNode
  simp [setVisited, hint, hsplit, Option.map_eq_bind]

theorem expandNode_stop (hstop : ¬ Passes (h v)) (htype : (h v).type ≠ .interval) :
    expandNode fuel v h =
      (collectAdjacenciesHelper fuel v (h v).out2 0 0 (setVisited h v true)).map fun g =>
        setVisited g v false :=
  expandNode_other htype fun ht => hstop (Or.inr (Or.inl ht))

/-- Expanding a stop writes its list only. -/
theorem expandNode_touches (hstop : ¬ Passes (h v)) (hflag : (h v).visitedFlag = false)
    (hrun : expandNode fuel v h = some h') : Touches h h' v := by
  by_cases htype : (h v).type = .interval
  · rw [expandNode_interval htype] at hrun
    simp only [Option.bind_eq_some_iff, Option.map_eq_some_iff] at hrun
    obtain ⟨g, hleft, g', hright, rfl⟩ := hrun
    have hfirst := (collectAdjacenciesHelper_addsStops hleft).touches
    have hstash : Touches g (stashList g v) v :=
      .modify_self g v (fun _ => rfl) (fun _ => rfl) (fun _ => rfl) (by simp)
    have hsecond := (collectAdjacenciesHelper_addsStops hright).touches
    have hwalks := (hfirst.trans hstash).trans hsecond
    refine Touches.unmark hflag ⟨hwalks.edges.trans (.modify _ _ fun _ => rfl), ?_, ?_, ?_, ?_⟩
    · intro a ha
      rw [← hwalks.flags a ha, restoreList, Heap.modify_apply]
      split
      · rename_i hav
        exact hav ▸ rfl
      · rfl
    · intro a
      rw [← hwalks.done a, restoreList, Heap.modify_apply]
      split
      · rename_i hav
        exact hav ▸ rfl
      · rfl
    · intro a ha
      rw [restoreList, Heap.modify_of_ne _ ha]
      exact hwalks.others a ha
    · intro x hx
      simp only [restoreList, Heap.modify_self, List.mem_append] at hx
      rcases hx with hx | hx
      · exact hfirst.stops x hx
      · exact hwalks.stops x hx
  · rw [expandNode_stop hstop htype, Option.map_eq_some_iff] at hrun
    obtain ⟨g, hwalk, rfl⟩ := hrun
    exact (collectAdjacenciesHelper_addsStops hwalk).touches.unmark hflag

theorem sameEdges_stashList (h : Heap) (v : Addr) : SameEdges h (stashList h v) := by
  unfold stashList
  exact .modify h v fun _ => rfl

theorem visitedFlag_stashList (h : Heap) (v a : Addr) :
    (stashList h v a).visitedFlag = (h a).visitedFlag := by
  rw [stashList, Heap.modify_apply]
  split
  · rename_i ha
    rw [ha]
  · rfl

theorem Agrees.stashList (ha : Agrees v h g) : Agrees v (stashList h v) (stashList g v) where
  edges := (sameEdges_stashList h v).symm.trans (ha.edges.trans (sameEdges_stashList g v))
  flags a hne := by
    rw [(sameEdges_stashList h v).type] at hne
    rw [Recognizer.stashList, Recognizer.stashList, Heap.modify_apply, Heap.modify_apply]
    split
    · rename_i hav
      exact ha.flags v (hav ▸ hne)
    · exact ha.flags a hne
  list := by simp [Recognizer.stashList]

/-- Expanding a stop takes the same course on heaps it cannot tell apart. -/
theorem expandNode_agrees (hstop : ¬ Passes (h v)) (ha : Agrees v h g)
    (hrun : expandNode fuel v h = some h') :
    ∃ g', expandNode fuel v g = some g' ∧ (g' v).reachable = (h' v).reachable := by
  have hlist : ∀ k : Heap, ((setVisited k v false) v).reachable = (k v).reachable := by
    intro k
    simp [setVisited]
  by_cases htype : (h v).type = .interval
  · rw [expandNode_interval htype] at hrun
    simp only [Option.bind_eq_some_iff, Option.map_eq_some_iff] at hrun
    obtain ⟨h₁, hleft, h₂, hright, rfl⟩ := hrun
    obtain ⟨g₁, hleft', ha₁⟩ := collectAdjacenciesHelper_agrees (ha.setVisited v true) hleft
    obtain ⟨g₂, hright', ha₂⟩ := collectAdjacenciesHelper_agrees ha₁.stashList hright
    refine ⟨setVisited (restoreList g₂ v (g₁ v).reachable) v false, ?_, ?_⟩
    · rw [expandNode_interval ((ha.edges.type v).trans htype), ha.edges.out1 v, hleft',
        Option.bind_some, ha₁.edges.out2 v, hright', Option.map_some]
    · rw [hlist, hlist]
      simp [restoreList, ha₁.list, ha₂.list]
  · rw [expandNode_stop hstop htype, Option.map_eq_some_iff] at hrun
    obtain ⟨h₁, hwalk, rfl⟩ := hrun
    obtain ⟨g₁, hwalk', ha₁⟩ := collectAdjacenciesHelper_agrees (ha.setVisited v true) hwalk
    refine ⟨setVisited g₁ v false, ?_, ?_⟩
    · rw [expandNode_stop (by rwa [ha.edges.passes v]) (by rwa [ha.edges.type v]),
        ha.edges.out2 v, hwalk', Option.map_some]
    · rw [hlist, hlist, ha₁.list]

/-- The first walk that fills the list of a node, on the graph the parser left: the
start node by the walk before the loop, any other when it is expanded. -/
def walkFrom (fuel : Nat) (h : Heap) (start n : Addr) : Option Heap :=
  if n = start then collectAdjacenciesHelper fuel start start 0 0 h else expandNode fuel n h

/-- The reachable list a node gets on the graph the parser left. -/
def adjacents (fuel : Nat) (h : Heap) (start n : Addr) : List Addr :=
  (walkFrom fuel h start n).elim [] fun g => (g n).reachable

/-- The nodes of that list that are to be expanded in turn. -/
def expandable (fuel : Nat) (h : Heap) (start n : Addr) : List Addr :=
  (adjacents fuel h start n).filter fun m => (h m).type ≠ .accepting

/-- The state of the loops over the work list `l`: its nodes have their lists. -/
structure Spread (fuel : Nat) (h₀ : Heap) (start : Addr) (l : List Addr) (h : Heap) : Prop where
  edges : SameEdges h₀ h
  unmarked : ∀ a, (h₀ a).type ≠ .epsilon → (h a).visitedFlag = false
  start_mem : start ∈ l
  stops : ∀ a ∈ l, a ≠ start → ¬ Passes (h₀ a) ∧ (h₀ a).type ≠ .accepting
  done : ∀ a, ¬ Passes (h₀ a) → (h₀ a).type ≠ .accepting → ((h a).doneFlag = true ↔ a ∈ l)
  walked : ∀ a ∈ l, (walkFrom fuel h₀ start a).isSome
  lists : ∀ a ∈ l, (h a).reachable = adjacents fuel h₀ start a
  leads : ∀ a ∈ l, ∀ x ∈ (h a).reachable, ¬ Passes (h₀ x)
  blank : ∀ a, a ∉ l → (h a).reachable = []

/-- After the first walk the work list holds the start node. -/
theorem spread_start (hpass : Passes (h₀ start)) (hblank : Blank h₀)
    (hrun : collectAdjacenciesHelper fuel start start 0 0 h₀ = some h) :
    Spread fuel h₀ start [start] h := by
  have ht := (collectAdjacenciesHelper_addsStops hrun).touches
  refine ⟨ht.edges, fun a ha => (ht.flags a ha).trans (hblank a).1, List.mem_singleton.mpr rfl,
    fun a ha hne => absurd (List.mem_singleton.mp ha) hne, fun a hstop _ => ?_, fun a ha => ?_,
    fun a ha => ?_, fun a ha x hx => ?_, fun a ha => ?_⟩
  · rw [ht.done, (hblank a).2.1, List.mem_singleton]
    exact iff_of_false (by simp) fun ha => hstop (ha ▸ hpass)
  · rw [List.mem_singleton] at ha
    simp [walkFrom, ha, hrun]
  · rw [List.mem_singleton] at ha
    simp [adjacents, walkFrom, ha, hrun]
  · rw [List.mem_singleton] at ha
    subst ha
    exact (ht.stops x hx).resolve_left (by simp [(hblank a).2.2])
  · rw [ht.others a (by simpa using ha), (hblank a).2.2]

namespace Spread

variable (hx : Spread fuel h₀ start l h)

include hx

/-- An accepting node is done as soon as it is found. -/
theorem accept (hacc : (h₀ v).type = .accepting) : Spread fuel h₀ start l (setDone h v) where
  edges := hx.edges.trans (.of_graph (sameGraph_setDone h v))
  unmarked a ha := (visitedFlag_setDone h v a).trans (hx.unmarked a ha)
  start_mem := hx.start_mem
  stops := hx.stops
  done a hstop hne := by
    rw [doneFlag_setDone, hx.done a hstop hne]
    exact ⟨fun ha => ha.resolve_left fun hav => hne (hav ▸ hacc), Or.inr⟩
  walked := hx.walked
  lists a ha := (reachable_setDone h v a).trans (hx.lists a ha)
  leads a ha := by
    rw [reachable_setDone]
    exact hx.leads a ha
  blank a ha := (reachable_setDone h v a).trans (hx.blank a ha)

/-- Another stop joins the work list with its list. -/
theorem expand (hpass : Passes (h₀ start)) (hblank : Blank h₀) (hstop : ¬ Passes (h₀ v))
    (hacc : (h₀ v).type ≠ .accepting) (hnew : v ∉ l)
    (hrun : expandNode fuel v (setDone h v) = some h') : Spread fuel h₀ start (l ++ [v]) h' := by
  have hedges := hx.edges.trans (.of_graph (sameGraph_setDone h v))
  have hflags : ∀ a, (h₀ a).type ≠ .epsilon → (setDone h v a).visitedFlag = false := fun a ha =>
    (visitedFlag_setDone h v a).trans (hx.unmarked a ha)
  have hstop' : ¬ Passes (setDone h v v) := by rwa [hedges.passes v]
  have ht := expandNode_touches hstop' (hflags v fun he => hstop (Or.inl he)) hrun
  have hempty : (setDone h v v).reachable = [] := by rw [reachable_setDone, hx.blank v hnew]
  have hsame : ∀ a, a ≠ v → (h' a).reachable = (h a).reachable := fun a ha =>
    (ht.others a ha).trans (reachable_setDone h v a)
  have hagree : Agrees v (setDone h v) h₀ :=
    ⟨hedges.symm, fun a ha => by
      rw [hflags a (by rwa [hedges.type a] at ha), (hblank a).1], by rw [hempty, (hblank v).2.2]⟩
  obtain ⟨g', hrun', hg'⟩ := expandNode_agrees hstop' hagree hrun
  have hwalk : walkFrom fuel h₀ start v = some g' := by
    rw [walkFrom, if_neg fun (heq : v = start) => hstop (heq ▸ hpass), hrun']
  refine ⟨hedges.trans ht.edges, fun a ha => ?_, List.mem_append_left _ hx.start_mem,
    fun a ha hne => ?_, fun a hs ha => ?_, fun a ha => ?_, fun a ha => ?_, fun a ha x hxa => ?_,
    fun a ha => ?_⟩
  · rw [ht.flags a (by rwa [hedges.type a])]
    exact hflags a ha
  · rcases List.mem_append.mp ha with ha | ha
    · exact hx.stops a ha hne
    · rw [List.mem_singleton] at ha
      exact ha ▸ ⟨hstop, hacc⟩
  · rw [ht.done, doneFlag_setDone, hx.done a hs ha, List.mem_append, List.mem_singleton]
    exact or_comm
  · by_cases hav : a = v
    · simp [hav, hwalk]
    · exact hx.walked a (by simpa [hav] using ha)
  · by_cases hav : a = v
    · simp [hav, adjacents, hwalk, hg']
    · rw [hsame a hav]
      exact hx.lists a (by simpa [hav] using ha)
  · by_cases hav : a = v
    · subst hav
      have hs := (ht.stops x hxa).resolve_left (by rw [hempty]; exact List.not_mem_nil)
      rwa [hedges.passes x] at hs
    · rw [hsame a hav] at hxa
      exact hx.leads a (by simpa [hav] using ha) x hxa
  · have hne : a ≠ v := fun hav => ha (by simp [hav])
    rw [hsame a hne]
    exact hx.blank a fun hmem => ha (List.mem_append_left _ hmem)

end Spread

/-- The inner loop appends the new nodes of a list that do not accept. -/
theorem expandReachable_addNew (hpass : Passes (h₀ start)) (hblank : Blank h₀) {rest l' : List Addr}
    (hx : Spread fuel h₀ start l h) (hcur : current ∈ l) (hrest : ∀ s ∈ rest, ¬ Passes (h₀ s))
    (hrun : expandReachable fuel current rest l h = some (l', h')) :
    Spread fuel h₀ start l' h' ∧
      l' = addNew l (rest.filter fun m => (h₀ m).type ≠ .accepting) := by
  induction rest generalizing l h with
  | nil =>
    cases hrun
    exact ⟨hx, rfl⟩
  | cons v rest ih =>
    obtain ⟨hstop, htail⟩ := List.forall_mem_cons.mp hrest
    rw [expandReachable] at hrun
    by_cases hacc : (h₀ v).type = .accepting
    · rw [List.filter_cons_of_neg (by simp [hacc])]
      split at hrun
      · exact ih hx hcur htail hrun
      · have htype := ((hx.accept hacc).edges.type v).trans hacc
        rw [if_neg fun hif => hif.2 htype] at hrun
        exact ih (hx.accept hacc) hcur htail hrun
    · rw [List.filter_cons_of_pos (by simp [hacc])]
      have hdone := hx.done v hstop hacc
      split at hrun
      · rename_i hflag
        rw [addNew_cons_of_mem (hdone.mp hflag)]
        exact ih hx hcur htail hrun
      · rename_i hflag
        have hnew : v ∉ l := fun hmem => hflag (hdone.mpr hmem)
        rw [addNew_cons_of_notMem hnew]
        have htype : (setDone h v v).type ≠ .accepting := by
          rw [(sameGraph_setDone h v).type, hx.edges.type v]
          exact hacc
        rw [if_pos ⟨fun heq => hnew (heq ▸ hcur), htype⟩] at hrun
        simp only [Option.bind_eq_bind, Option.bind_eq_some_iff] at hrun
        obtain ⟨g, hexp, hrun⟩ := hrun
        exact ih (hx.expand hpass hblank hstop hacc hnew hexp) (List.mem_append_left _ hcur) htail
          hrun

/-- The outer loop ends with the work list of `total + 1` rounds. -/
theorem expandAll_workList (hpass : Passes (h₀ start)) (hblank : Blank h₀) {k i : Nat}
    {l' : List Addr} (hi : i ≤ total + 1) (hx : Spread fuel h₀ start l h)
    (hl : l = workList (expandable fuel h₀ start) start i)
    (hrun : expandAll fuel total k i l h = some (l', h')) :
    l' = workList (expandable fuel h₀ start) start (total + 1) ∧ Spread fuel h₀ start l' h' := by
  induction k generalizing i l h with
  | zero => simp [expandAll] at hrun
  | succ k ih =>
    rw [expandAll] at hrun
    split at hrun
    · rename_i hend
      cases hrun
      have hlast : workList (expandable fuel h₀ start) start (total + 1) = l' := by
        rcases Nat.lt_or_ge total i with hlt | hle
        · rw [hl, show total + 1 = i by omega]
        · have hlen : (workList (expandable fuel h₀ start) start i).length ≤ i := by
            rw [← hl]
            omega
          rw [show total + 1 = i + (total + 1 - i) by omega, workList_of_length_le hlen, hl]
      exact ⟨hlast.symm, hx⟩
    · rename_i hend
      simp only [Option.bind_eq_bind, Option.bind_eq_some_iff] at hrun
      obtain ⟨⟨l₁, g⟩, hstep, hrun⟩ := hrun
      have hlt : i < l.length := by omega
      have hget : l.getD i 0 = l[i] := by simp [List.getD_eq_getElem?_getD, hlt]
      have hcur : l.getD i 0 ∈ l := hget ▸ List.getElem_mem hlt
      obtain ⟨hx', hl'⟩ := expandReachable_addNew hpass hblank hx hcur (hx.leads _ hcur) hstep
      refine ih (by omega) hx' ?_ hrun
      have hsome : (workList (expandable fuel h₀ start) start i)[i]? = some (l.getD i 0) := by
        rw [← hl, hget]
        exact List.getElem?_eq_getElem hlt
      rw [workList_succ_of_some hsome, hl', ← hl, hx.lists _ hcur, expandable]

/-- `insert_epsilon_start` puts a node to walk through at the start. -/
theorem insertEpsilonStart_passes (p : Parser) :
    Passes (p.insertEpsilonStart.ctrl.heap
      (p.insertEpsilonStart.ctrl.heap p.insertEpsilonStart.peek).parent) := by
  unfold Parser.insertEpsilonStart
  dsimp only
  split
  · rcases hnew : p.ctrl.newNfa .epsilon with ⟨s, c⟩
    have htype : (c.heap s).type = .epsilon := by
      have hs : c = (p.ctrl.newNfa .epsilon).2 := by rw [hnew]
      have hn : s = (p.ctrl.newNfa .epsilon).1 := by rw [hnew]
      rw [hs, hn]
      simp [NFACtrl.newNfa, NFACtrl.modify]
    left
    simp only [Parser.peek, Parser.push, Parser.pop, Parser.modify, NFACtrl.modify,
      List.headD_cons, Heap.modify_self]
    rw [Heap.modify_apply]
    split
    · rename_i heq
      rw [← heq, Heap.modify_self]
      exact htype
    · rw [Heap.modify_self]
      exact htype
  · rename_i hstart
    rw [not_and_or, not_not, not_not] at hstart
    exact hstart.elim (fun ht => Or.inr (Or.inl ht)) Or.inl

/-- The walk of the compiler starts at a node it walks through. -/
theorem parseRegex_start_passes {p : Parser} {pattern : List Int} {ignoreCase : Bool}
    (hparse : Parser.parseRegex fuel pattern ignoreCase = .ok p) :
    Passes (p.ctrl.heap (p.ctrl.heap p.peek).parent) := by
  unfold Parser.parseRegex at hparse
  obtain ⟨⟨map, count⟩, -, hparse⟩ := Parser.bind_ok hparse
  obtain ⟨p₁, -, hparse⟩ := Parser.bind_ok hparse
  dsimp only at hparse
  generalize (if 1 < p₁.symbolStack.length then
    (Parser.joinAll p₁.pop.2.symbolStack.length p₁.pop.1 p₁.pop.2).2.push
      (Parser.joinAll p₁.pop.2.symbolStack.length p₁.pop.1 p₁.pop.2).1 else p₁) = p₂ at hparse
  split at hparse
  · cases hparse
  · cases hparse
    exact insertEpsilonStart_passes _

end Recognizer
