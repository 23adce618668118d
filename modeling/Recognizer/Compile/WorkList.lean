import Recognizer.Compile.Closure

/-!
# The work list of `collect_adjacencies`

The work list starts with the start node and grows by every stop found on a
reachable list. When the loop ends, the reachable list of each of its nodes is
the closure of the node, and each stop that can be reached is on the list or
accepts.
-/

namespace Recognizer

open PathSearch

variable {h h₁ h₂ h₀ : Heap} {nodes : Finset Addr} {start : Addr} {total : Nat} {l : List Addr}

/-- The stop `s` can be reached from a successor of `a` by `EPSILON`, `SPLIT` and
`TREE` edges. -/
def Closure (h : Heap) (a s : Addr) : Prop :=
  ¬ Passes (h s) ∧ ∃ b, Leads h a b ∧ Relation.ReflTransGen (WalkEdge h) b s

/-- The reachable list of `a` is its closure, without repetition. -/
def ListsClosure (h₀ h : Heap) (a : Addr) : Prop :=
  (h a).reachable.Nodup ∧ ∀ s, s ∈ (h a).reachable ↔ Closure h₀ a s

theorem found_iff {b s : Addr} :
    Found (WalkEdge h) (fun a => Passes (h a)) ∅ b s ↔
      ¬ Passes (h s) ∧ Relation.ReflTransGen (WalkEdge h) b s := by
  have hsame : (fun a b => Passes (h a) ∧ WalkEdge h a b) = WalkEdge h := by
    funext a b
    exact propext ⟨And.right, fun hedge => ⟨hedge.passes, hedge⟩⟩
  rw [Found.iff_reflTransGen, hsame]

theorem closure_iff {a s : Addr} :
    Closure h a s ↔ ∃ b, Leads h a b ∧ Found (WalkEdge h) (fun a => Passes (h a)) ∅ b s := by
  constructor
  · rintro ⟨hstop, b, hlead, hpath⟩
    exact ⟨b, hlead, found_iff.mpr ⟨hstop, hpath⟩⟩
  · rintro ⟨b, hlead, hfound⟩
    obtain ⟨hstop, hpath⟩ := found_iff.mp hfound
    exact ⟨hstop, b, hlead, hpath⟩

/-- The closure of a node the compiler walks through is what the search finds below it. -/
theorem closure_iff_of_passes {a s : Addr} (hpass : Passes (h a)) :
    Closure h a s ↔ Found (WalkEdge h) (fun a => Passes (h a)) ∅ a s := by
  have hstep : Found (WalkEdge h) (fun a => Passes (h a)) ∅ a s ↔
      ∃ w, WalkEdge h a w ∧ Found (WalkEdge h) (fun a => Passes (h a)) ∅ w s :=
    Found.iff_step hpass (Set.notMem_empty a)
  rw [closure_iff, hstep]
  refine exists_congr fun b => and_congr_left fun _ => ?_
  constructor
  · rintro (hedge | hstop)
    · exact hedge
    · exact absurd hpass hstop
  · exact .walk

/-- The closure of a stop is what the search finds below its successor. -/
theorem closure_iff_of_stop {a s : Addr} (hstop : ¬ Passes (h a))
    (hacc : (h a).type ≠ .accepting) :
    Closure h a s ↔ Found (WalkEdge h) (fun a => Passes (h a)) ∅ (h a).out2 s := by
  rw [closure_iff]
  constructor
  · rintro ⟨b, hlead, hfound⟩
    cases hlead with
    | walk hedge => exact absurd hedge.passes hstop
    | out2 => exact hfound
  · exact fun hfound => ⟨_, .out2 hstop hacc, hfound⟩

/-- An accepting node has no successors. -/
theorem not_closure_of_accepting {a s : Addr} (hacc : (h a).type = .accepting) :
    ¬ Closure h a s := by
  rintro ⟨-, b, hlead, -⟩
  cases hlead with
  | walk hedge => exact absurd hedge.passes (by simp [Passes, hacc])
  | out2 _ hnot => exact hnot hacc

/-- A graph for `collect_adjacencies`: its edges stay in a finite set of nodes
without intervals, it starts with a node to walk through, and fewer than `total`
of its nodes have a reachable list of their own. -/
structure Compilable (h : Heap) (nodes : Finset Addr) (start : Addr) (total : Nat) : Prop
    extends GraphOk h nodes where
  start_mem : start ∈ nodes
  start_passes : Passes (h start)
  out2_mem : ∀ a ∈ nodes, ¬ Passes (h a) → (h a).type ≠ .accepting → (h a).out2 ∈ nodes
  no_interval : ∀ a ∈ nodes, (h a).type ≠ .interval
  collectables : (nodes.filter fun a => Collectable (h a)).card < total

/-- The edges of a compilable graph stay among its nodes. -/
theorem Compilable.leads_mem (ok : Compilable h nodes start total) {a b : Addr} (ha : a ∈ nodes)
    (hlead : Leads h a b) : b ∈ nodes := by
  cases hlead with
  | walk hedge => exact ok.closed a ha b hedge
  | out2 hstop hacc => exact ok.out2_mem a ha hstop hacc

theorem Compilable.closure_mem (ok : Compilable h nodes start total) {a s : Addr} (ha : a ∈ nodes)
    (hclosure : Closure h a s) : s ∈ nodes := by
  obtain ⟨-, b, hlead, hpath⟩ := hclosure
  induction hpath with
  | refl => exact ok.leads_mem ha hlead
  | tail _ hedge ih => exact ok.closed _ ih _ hedge

/-- No node the search may pass is marked. -/
def Unmarked (h₀ h : Heap) : Prop := ∀ a, (h₀ a).type ≠ .epsilon → (h a).visitedFlag = false

theorem Unmarked.marks (hs : SameGraph h₀ h) (hm : Unmarked h₀ h) : Recognizer.marks h = ∅ := by
  ext a
  simp only [Recognizer.marks, Set.mem_ofPred_eq, Set.mem_empty_iff_false, iff_false, not_and,
    hs.type a]
  intro htype
  simp [hm a (by rcases htype with ht | ht <;> simp [ht])]

/-- The mark of a stop does not restrict the search. -/
theorem Unmarked.marks_setVisited (hs : SameGraph h₀ h) (hm : Unmarked h₀ h) {v : Addr}
    (hstop : ¬ Passes (h₀ v)) : Recognizer.marks (setVisited h v true) = ∅ := by
  ext a
  simp only [Recognizer.marks, Set.mem_ofPred_eq, Set.mem_empty_iff_false, iff_false, not_and]
  intro htype
  rw [(sameGraph_setVisited h v true).type, hs.type] at htype
  have hne : a ≠ v := by
    rintro rfl
    exact hstop (Or.inr htype)
  have hflag := hm a (by rcases htype with ht | ht <;> simp [ht])
  simp [setVisited, Heap.modify_of_ne, hne, hflag]

section ExpandNode

variable {v : Addr} {fuel : Nat}

/-- A stop that is no interval is expanded from its successor. -/
theorem expandNode_eq (hs : SameGraph h₀ h) (hstop : ¬ Passes (h₀ v))
    (hint : (h₀ v).type ≠ .interval) :
    expandNode fuel v h =
      (collectAdjacenciesHelper fuel v (h₀ v).out2 0 0 (setVisited h v true)).map
        fun h => setVisited h v false := by
  have htype := (hs.trans (sameGraph_setVisited h v true)).type v
  have hsplit : (h₀ v).type ≠ .split := fun ht => hstop (Or.inr (Or.inl ht))
  have hout : (setVisited h v true v).out2 = (h₀ v).out2 :=
    (hs.trans (sameGraph_setVisited h v true)).out2 v
  simp [expandNode, htype, hint, hsplit, hout, Option.map_eq_bind]

/-- Expanding a stop adds its closure to its list. -/
theorem expandNode_collects (ok : Compilable h₀ nodes start total) (hs : SameGraph h₀ h)
    (hm : Unmarked h₀ h) (hv : v ∈ nodes) (hstop : ¬ Passes (h₀ v))
    (hacc : (h₀ v).type ≠ .accepting) {h' : Heap} (hrun : expandNode fuel v h = some h') :
    Collects h h' v (Closure h₀ v) := by
  rw [expandNode_eq hs hstop (ok.no_interval v hv), Option.map_eq_some_iff] at hrun
  obtain ⟨g, hg, rfl⟩ := hrun
  have hc := collectAdjacenciesHelper_collects ok.toGraphOk
    (hs.trans (sameGraph_setVisited h v true)) (ok.no_interval v hv)
    (ok.out2_mem v hv hstop hacc) (fun heq _ => Or.inr (by simp [setVisited, ← heq])) hg
  have hflag : (h v).visitedFlag = false := hm v fun ht => hstop (Or.inl ht)
  refine (hc.unmark (Or.inr hflag)).congr fun x => ?_
  rw [Finds, hm.marks_setVisited hs hstop, closure_iff_of_stop hstop hacc]

/-- A budget that is enough for any walk of a graph. -/
def enough (nodes : Finset Addr) : Nat :=
  nodes.card * (nodes.card + 3) + (nodes.card + 2)

theorem need_le_enough (h₀ h : Heap) (nodes : Finset Addr) (v : Addr) :
    need h₀ nodes (room h nodes) v ≤ enough nodes := by
  have hroom : room h nodes ≤ nodes.card := Finset.card_filter_le _ _
  have hmul := Nat.mul_le_mul_right (nodes.card + 3) hroom
  have hneed := need_le h₀ nodes (room h nodes) v
  unfold enough
  omega

/-- Expanding a stop returns. -/
theorem expandNode_isSome (ok : Compilable h₀ nodes start total) (hs : SameGraph h₀ h)
    (hv : v ∈ nodes) (hstop : ¬ Passes (h₀ v)) (hacc : (h₀ v).type ≠ .accepting)
    (hfuel : enough nodes ≤ fuel) : ∃ h', expandNode fuel v h = some h' := by
  obtain ⟨g, hg, -⟩ := walks ok.toGraphOk fuel v (h₀ v).out2 0 (setVisited h v true)
    (hs.trans (sameGraph_setVisited h v true)) (ok.no_interval v hv)
    (ok.out2_mem v hv hstop hacc) (fun heq _ => Or.inr (by simp [setVisited, ← heq]))
    ((need_le_enough ..).trans hfuel)
  exact ⟨_, by rw [expandNode_eq hs hstop (ok.no_interval v hv), hg]; rfl⟩

end ExpandNode

/-- The state between two steps of the loops over the work list `l`. -/
structure Expanded (h₀ : Heap) (nodes : Finset Addr) (start : Addr) (l : List Addr) (h : Heap) :
    Prop where
  graph : SameGraph h₀ h
  unmarked : Unmarked h₀ h
  start_mem : start ∈ l
  nodup : l.Nodup
  mem_nodes : ∀ a ∈ l, a ∈ nodes
  listed : ∀ a ∈ l, a ≠ start → (h a).doneFlag = true ∧ (h₀ a).type ≠ .accepting
  done : ∀ a, (h a).doneFlag = true → ¬ Passes (h₀ a) ∧ ((h₀ a).type ≠ .accepting → a ∈ l)
  lists : ∀ a ∈ l, ListsClosure h₀ h a
  blank : ∀ a, a ∉ l → (h a).reachable = []

/-- What a step of the loops keeps: the nodes on the work list with their
reachable lists, and the nodes that are done. -/
structure Grows (l l' : List Addr) (h h' : Heap) : Prop where
  list : l <+: l'
  same : ∀ a ∈ l, (h' a).reachable = (h a).reachable
  done : ∀ a, (h a).doneFlag = true → (h' a).doneFlag = true

@[refl] theorem Grows.refl (l : List Addr) (h : Heap) : Grows l l h h :=
  ⟨List.prefix_refl l, fun _ _ => rfl, fun _ => id⟩

theorem Grows.trans {l₁ l₂ l₃ : List Addr} (h₁₂ : Grows l₁ l₂ h h₁) (h₂₃ : Grows l₂ l₃ h₁ h₂) :
    Grows l₁ l₃ h h₂ :=
  ⟨h₁₂.list.trans h₂₃.list,
    fun a ha => (h₂₃.same a (h₁₂.list.subset ha)).trans (h₁₂.same a ha),
    fun a ha => h₂₃.done a (h₁₂.done a ha)⟩

/-- `SET_NFA_DONE_FLAG`. -/
abbrev setDone (h : Heap) (v : Addr) : Heap := h.modify v fun x => { x with doneFlag := true }

theorem sameGraph_setDone (h : Heap) (v : Addr) : SameGraph h (setDone h v) :=
  .modify _ _ fun _ => rfl

theorem reachable_setDone (h : Heap) (v a : Addr) : (setDone h v a).reachable = (h a).reachable := by
  rw [setDone, Heap.modify_apply]
  split
  · rename_i ha
    rw [ha]
  · rfl

theorem visitedFlag_setDone (h : Heap) (v a : Addr) :
    (setDone h v a).visitedFlag = (h a).visitedFlag := by
  rw [setDone, Heap.modify_apply]
  split
  · rename_i ha
    rw [ha]
  · rfl

theorem doneFlag_setDone (h : Heap) (v a : Addr) :
    (setDone h v a).doneFlag = true ↔ a = v ∨ (h a).doneFlag = true := by
  rw [setDone, Heap.modify_apply]
  split
  · rename_i ha
    simp [ha]
  · rename_i ha
    simp [ha]

namespace Expanded

variable {v : Addr}

/-- A node on the work list that is not done is the start node. -/
theorem eq_start (hx : Expanded h₀ nodes start l h) (hv : v ∈ l)
    (hdone : (h v).doneFlag = false) : v = start := by
  by_contra hne
  have := (hx.listed v hv hne).1
  simp [hdone] at this

/-- An accepting node is done as soon as it is found. -/
theorem accept (hx : Expanded h₀ nodes start l h) (hv : ¬ Passes (h₀ v))
    (hacc : (h₀ v).type = .accepting) :
    Expanded h₀ nodes start l (setDone h v) ∧ Grows l l h (setDone h v) := by
  refine ⟨{ hx with
    graph := hx.graph.trans (sameGraph_setDone h v)
    unmarked := fun a ha => (visitedFlag_setDone h v a).trans (hx.unmarked a ha)
    listed := fun a ha hne => ?_
    done := fun a ha => ?_
    lists := fun a ha => ?_
    blank := fun a ha => (reachable_setDone h v a).trans (hx.blank a ha) }, ?_⟩
  · obtain ⟨hdone, htype⟩ := hx.listed a ha hne
    exact ⟨(doneFlag_setDone h v a).mpr (Or.inr hdone), htype⟩
  · rcases (doneFlag_setDone h v a).mp ha with rfl | hdone
    · exact ⟨hv, fun hnot => absurd hacc hnot⟩
    · exact hx.done a hdone
  · unfold ListsClosure
    rw [reachable_setDone]
    exact hx.lists a ha
  · exact ⟨List.prefix_refl l, fun a _ => reachable_setDone h v a,
      fun a ha => (doneFlag_setDone h v a).mpr (Or.inr ha)⟩

/-- Another stop joins the work list with its closure. -/
theorem expand (ok : Compilable h₀ nodes start total) (hx : Expanded h₀ nodes start l h)
    (hv : v ∈ nodes) (hstop : ¬ Passes (h₀ v)) (hacc : (h₀ v).type ≠ .accepting)
    (hdone : (h v).doneFlag = false) {fuel : Nat} {h' : Heap}
    (hrun : expandNode fuel v (setDone h v) = some h') :
    Expanded h₀ nodes start (l ++ [v]) h' ∧ Grows l (l ++ [v]) h h' := by
  have hnot : v ∉ l := fun hmem =>
    hstop (hx.eq_start hmem hdone ▸ ok.start_passes)
  have hgraph := hx.graph.trans (sameGraph_setDone h v)
  have hm : Unmarked h₀ (setDone h v) := fun a ha =>
    (visitedFlag_setDone h v a).trans (hx.unmarked a ha)
  have hc := expandNode_collects ok hgraph hm hv hstop hacc hrun
  have hsame : ∀ a, a ≠ v → (h' a).reachable = (h a).reachable := fun a ha =>
    (hc.others a ha).trans (reachable_setDone h v a)
  have hkeep : ∀ a, (h' a).doneFlag = true ↔ a = v ∨ (h a).doneFlag = true := fun a => by
    rw [hc.done, doneFlag_setDone]
  have hempty : (setDone h v v).reachable = [] := by
    rw [reachable_setDone, hx.blank v hnot]
  constructor
  · refine ⟨hgraph.trans hc.graph, fun a ha => ?_, ?_, ?_, fun a ha => ?_, fun a ha hne => ?_,
      fun a ha => ?_, fun a ha => ?_, fun a ha => ?_⟩
    · rw [hc.flags a (by rwa [hgraph.type a])]
      exact hm a ha
    · exact List.mem_append_left _ hx.start_mem
    · exact List.nodup_append.mpr ⟨hx.nodup, by simp, by
        rintro a ha b hb rfl
        rw [List.mem_singleton] at hb
        exact hnot (hb ▸ ha)⟩
    · rcases List.mem_append.mp ha with ha | ha
      · exact hx.mem_nodes a ha
      · rw [List.mem_singleton] at ha
        exact ha ▸ hv
    · rw [hkeep]
      rcases List.mem_append.mp ha with ha | ha
      · obtain ⟨hd, htype⟩ := hx.listed a ha hne
        exact ⟨Or.inr hd, htype⟩
      · rw [List.mem_singleton] at ha
        exact ⟨Or.inl ha, ha ▸ hacc⟩
    · rcases (hkeep a).mp ha with rfl | hd
      · exact ⟨hstop, fun _ => by simp⟩
      · obtain ⟨hpass, hmem⟩ := hx.done a hd
        exact ⟨hpass, fun htype => List.mem_append_left _ (hmem htype)⟩
    · by_cases hav : a = v
      · subst hav
        refine ⟨hc.nodup (by rw [hempty]; exact List.nodup_nil), fun s => ?_⟩
        rw [hc.mem, hempty]
        simp
      · have hal : a ∈ l := by simpa [hav] using ha
        unfold ListsClosure
        rw [hsame a hav]
        exact hx.lists a hal
    · have hne : a ≠ v := fun heq => ha (by simp [heq])
      rw [hsame a hne]
      exact hx.blank a fun hmem => ha (List.mem_append_left _ hmem)
  · refine ⟨List.prefix_append l [v], fun a ha => hsame a ?_, fun a ha => (hkeep a).mpr (Or.inr ha)⟩
    rintro rfl
    exact hnot ha

end Expanded

/-- One step of the inner loop, at a stop on the list of a node of the work list. -/
theorem expandReachable_cons (ok : Compilable h₀ nodes start total) {fuel : Nat}
    {current v : Addr} {rest : List Addr} (hx : Expanded h₀ nodes start l h) (hcur : current ∈ l)
    (hstop : ¬ Passes (h₀ v)) :
    expandReachable fuel current (v :: rest) l h =
      if (h v).doneFlag = true then expandReachable fuel current rest l h
      else if (h₀ v).type = .accepting then expandReachable fuel current rest l (setDone h v)
      else (expandNode fuel v (setDone h v)).bind fun g =>
        expandReachable fuel current rest (l ++ [v]) g := by
  rw [expandReachable]
  by_cases hdone : (h v).doneFlag = true
  · rw [if_pos hdone, if_pos hdone]
  rw [if_neg hdone, if_neg hdone]
  rw [Bool.not_eq_true] at hdone
  have hne : current ≠ v := by
    rintro rfl
    exact hstop (hx.eq_start hcur hdone ▸ ok.start_passes)
  have htype : (setDone h v v).type = (h₀ v).type :=
    (hx.graph.trans (sameGraph_setDone h v)).type v
  by_cases hacc : (h₀ v).type = .accepting
  · rw [if_pos hacc, if_neg fun hif => hif.2 (htype.trans hacc)]
  · rw [if_neg hacc, if_pos ⟨hne, by rwa [htype]⟩]
    rfl

/-- The inner loop: every stop on the list of `current` is done. -/
theorem expandReachable_spec (ok : Compilable h₀ nodes start total) {fuel : Nat} {current : Addr}
    {rest l l' : List Addr} {h h' : Heap} (hx : Expanded h₀ nodes start l h) (hcur : current ∈ l)
    (hrest : ∀ s ∈ rest, s ∈ nodes ∧ ¬ Passes (h₀ s))
    (hrun : expandReachable fuel current rest l h = some (l', h')) :
    Expanded h₀ nodes start l' h' ∧ Grows l l' h h' ∧ ∀ s ∈ rest, (h' s).doneFlag = true := by
  induction rest generalizing l h with
  | nil =>
    cases hrun
    exact ⟨hx, .refl _ _, by simp⟩
  | cons v rest ih =>
    have htail : ∀ s ∈ rest, s ∈ nodes ∧ ¬ Passes (h₀ s) := fun s hs => hrest s (by simp [hs])
    obtain ⟨hv, hstop⟩ := hrest v (by simp)
    rw [expandReachable_cons ok hx hcur hstop] at hrun
    split at hrun
    · rename_i hdone
      obtain ⟨hx', hgrow, hall⟩ := ih hx hcur htail hrun
      exact ⟨hx', hgrow, List.forall_mem_cons.mpr ⟨hgrow.done v hdone, hall⟩⟩
    · rename_i hdone
      rw [Bool.not_eq_true] at hdone
      split at hrun
      · rename_i hacc
        obtain ⟨hx₁, hgrow₁⟩ := hx.accept hstop hacc
        obtain ⟨hx', hgrow, hall⟩ := ih hx₁ hcur htail hrun
        refine ⟨hx', hgrow₁.trans hgrow, List.forall_mem_cons.mpr ⟨?_, hall⟩⟩
        exact hgrow.done v ((doneFlag_setDone h v v).mpr (Or.inl rfl))
      · rename_i hacc
        rw [Option.bind_eq_some_iff] at hrun
        obtain ⟨g, hg, hrun⟩ := hrun
        obtain ⟨hx₁, hgrow₁⟩ := hx.expand ok hv hstop hacc hdone hg
        obtain ⟨hx', hgrow, hall⟩ := ih hx₁ (List.mem_append_left _ hcur) htail hrun
        refine ⟨hx', hgrow₁.trans hgrow, List.forall_mem_cons.mpr ⟨?_, hall⟩⟩
        have hlast : v ≠ start := by
          rintro rfl
          exact hstop ok.start_passes
        exact hgrow.done v (hx₁.listed v (by simp) hlast).1

/-- The inner loop returns. -/
theorem expandReachable_isSome (ok : Compilable h₀ nodes start total) {fuel : Nat} {current : Addr}
    {rest l : List Addr} {h : Heap} (hfuel : enough nodes ≤ fuel)
    (hx : Expanded h₀ nodes start l h) (hcur : current ∈ l)
    (hrest : ∀ s ∈ rest, s ∈ nodes ∧ ¬ Passes (h₀ s)) :
    ∃ l' h', expandReachable fuel current rest l h = some (l', h') := by
  induction rest generalizing l h with
  | nil => exact ⟨l, h, rfl⟩
  | cons v rest ih =>
    have htail : ∀ s ∈ rest, s ∈ nodes ∧ ¬ Passes (h₀ s) := fun s hs => hrest s (by simp [hs])
    obtain ⟨hv, hstop⟩ := hrest v (by simp)
    rw [expandReachable_cons ok hx hcur hstop]
    split
    · exact ih hx hcur htail
    · rename_i hdone
      rw [Bool.not_eq_true] at hdone
      split
      · rename_i hacc
        exact ih (hx.accept hstop hacc).1 hcur htail
      · rename_i hacc
        obtain ⟨g, hg⟩ := expandNode_isSome ok (hx.graph.trans (sameGraph_setDone h v)) hv hstop
          hacc hfuel
        rw [hg]
        exact ih (hx.expand ok hv hstop hacc hdone hg).1 (List.mem_append_left _ hcur) htail

/-- The nodes of the work list are no more than `total`. -/
theorem Expanded.length_le (ok : Compilable h₀ nodes start total)
    (hx : Expanded h₀ nodes start l h) : l.length ≤ total := by
  have hsub : l.toFinset.erase start ⊆ nodes.filter fun a => Collectable (h₀ a) := by
    intro a ha
    obtain ⟨hne, hmem⟩ := Finset.mem_erase.mp ha
    have hal := List.mem_toFinset.mp hmem
    obtain ⟨hdone, hacc⟩ := hx.listed a hal hne
    exact Finset.mem_filter.mpr ⟨hx.mem_nodes a hal, (hx.done a hdone).1, hacc⟩
  have hcard := Finset.card_le_card hsub
  rw [Finset.card_erase_of_mem (List.mem_toFinset.mpr hx.start_mem),
    List.toFinset_card_of_nodup hx.nodup] at hcard
  have := ok.collectables
  omega

/-- The stops on the lists of the first `i` nodes of the work list are done. -/
def Processed (i : Nat) (l : List Addr) (h : Heap) : Prop :=
  ∀ j < i, ∀ a, l[j]? = some a → ∀ s ∈ (h a).reachable, (h s).doneFlag = true

/-- One step of the outer loop. -/
theorem Expanded.step (ok : Compilable h₀ nodes start total) (hx : Expanded h₀ nodes start l h)
    {i fuel : Nat} (hi : i < l.length) (hp : Processed i l h) {l' : List Addr} {h' : Heap}
    (hrun : expandReachable fuel (l.getD i 0) (h (l.getD i 0)).reachable l h = some (l', h')) :
    Expanded h₀ nodes start l' h' ∧ Processed (i + 1) l' h' := by
  have hcur : l.getD i 0 ∈ l := by simp [List.getD_eq_getElem?_getD, hi]
  have hrest : ∀ s ∈ (h (l.getD i 0)).reachable, s ∈ nodes ∧ ¬ Passes (h₀ s) := by
    intro s hs
    have hclosure := ((hx.lists _ hcur).2 s).mp hs
    exact ⟨ok.closure_mem (hx.mem_nodes _ hcur) hclosure, hclosure.1⟩
  obtain ⟨hx', hgrow, hall⟩ := expandReachable_spec ok hx hcur hrest hrun
  refine ⟨hx', fun j hj a ha s hs => ?_⟩
  have hjl : j < l.length := by omega
  obtain ⟨t, rfl⟩ := hgrow.list
  rw [List.getElem?_append_left hjl] at ha
  have hal : a ∈ l := List.mem_of_getElem? ha
  rw [hgrow.same a hal] at hs
  by_cases hji : j = i
  · subst hji
    have hget : l.getD j 0 = a := by simp [List.getD_eq_getElem?_getD, ha]
    exact hall s (hget ▸ hs)
  · exact hgrow.done s (hp j (by omega) a ha s hs)

/-- The outer loop ends with every list of the work list processed. -/
theorem expandAll_spec (ok : Compilable h₀ nodes start total) {fuel : Nat}
    {k i : Nat} {l l' : List Addr} {h h' : Heap} (hx : Expanded h₀ nodes start l h)
    (hp : Processed i l h) (hrun : expandAll fuel total k i l h = some (l', h')) :
    Expanded h₀ nodes start l' h' ∧ Processed l'.length l' h' := by
  induction k generalizing i l h with
  | zero => simp [expandAll] at hrun
  | succ k ih =>
    rw [expandAll] at hrun
    have hlen := hx.length_le ok
    split at hrun
    · rename_i hend
      cases hrun
      exact ⟨hx, fun j hj => hp j (by omega)⟩
    · rename_i hend
      simp only [Option.bind_eq_bind, Option.bind_eq_some_iff] at hrun
      obtain ⟨⟨l', g⟩, hstep, hrun⟩ := hrun
      obtain ⟨hx', hp'⟩ := hx.step ok (by omega) hp hstep
      exact ih hx' hp' hrun

/-- The outer loop returns within as many steps as there are numbers. -/
theorem expandAll_isSome (ok : Compilable h₀ nodes start total) {fuel : Nat}
    (hfuel : enough nodes ≤ fuel) {k i : Nat} {l : List Addr} {h : Heap}
    (hx : Expanded h₀ nodes start l h) (hp : Processed i l h) (hk : total + 1 ≤ k + i)
    (hpos : 0 < k) : ∃ r, expandAll fuel total k i l h = some r := by
  induction k generalizing i l h with
  | zero => omega
  | succ k ih =>
    have hlen := hx.length_le ok
    rw [expandAll]
    split
    · exact ⟨(l, h), rfl⟩
    · rename_i hend
      have hi : i < l.length := by omega
      have hcur : l.getD i 0 ∈ l := by simp [List.getD_eq_getElem?_getD, hi]
      have hrest : ∀ s ∈ (h (l.getD i 0)).reachable, s ∈ nodes ∧ ¬ Passes (h₀ s) := fun s hs =>
        have hclosure := ((hx.lists _ hcur).2 s).mp hs
        ⟨ok.closure_mem (hx.mem_nodes _ hcur) hclosure, hclosure.1⟩
      obtain ⟨l', g, hstep⟩ := expandReachable_isSome ok hfuel hx hcur hrest
      obtain ⟨hx', hp'⟩ := hx.step ok hi hp hstep
      obtain ⟨r, hrun⟩ := ih hx' hp' (by omega) (by omega)
      exact ⟨r, by simp only [hstep]; exact hrun⟩

/-- When every list is processed, the stops that can be reached are done. -/
theorem Expanded.complete (ok : Compilable h₀ nodes start total)
    (hx : Expanded h₀ nodes start l h) (hp : Processed l.length l h) {n : Addr}
    (hreach : Relation.ReflTransGen (Leads h₀) start n) (hn : n = start ∨ ¬ Passes (h₀ n)) :
    ListsClosure h₀ h n := by
  have hdone : ∀ a ∈ l, ∀ s, Closure h₀ a s → (h s).doneFlag = true := by
    intro a ha s hs
    obtain ⟨j, hj, hget⟩ := List.mem_iff_getElem.mp ha
    exact hp j hj a (by simp [hj, hget]) s (((hx.lists a ha).2 s).mpr hs)
  have hfound : ∀ a, Relation.ReflTransGen (Leads h₀) start a → ∀ s,
      Found (WalkEdge h₀) (fun a => Passes (h₀ a)) ∅ a s →
        (a = start ∧ ¬ Passes (h₀ a)) ∨ (h s).doneFlag = true := by
    intro a ha
    induction ha with
    | refl =>
      intro s hs
      exact Or.inr (hdone start hx.start_mem s ((closure_iff_of_passes ok.start_passes).mpr hs))
    | @tail a b _ hlead ih =>
      intro s hs
      right
      cases hlead with
      | walk hedge =>
        have hstep : Found (WalkEdge h₀) (fun a => Passes (h₀ a)) ∅ a s :=
          .step hedge.passes (Set.notMem_empty a) hedge hs
        exact (ih s hstep).resolve_left fun h' => h'.2 hedge.passes
      | out2 hstop hacc =>
        have hself := ih a (.stop hstop)
        have hda : (h a).doneFlag = true := by
          refine hself.resolve_left ?_
          rintro ⟨rfl, -⟩
          exact hstop ok.start_passes
        exact hdone a ((hx.done a hda).2 hacc) s ((closure_iff_of_stop hstop hacc).mpr hs)
  by_cases hstart : n = start
  · exact hstart ▸ hx.lists start hx.start_mem
  · have hstop := hn.resolve_left hstart
    have hdn : (h n).doneFlag = true :=
      (hfound n hreach n (.stop hstop)).resolve_left fun h' => hstart h'.1
    by_cases hacc : (h₀ n).type = .accepting
    · have hnot : n ∉ l := fun hmem => (hx.listed n hmem hstart).2 hacc
      have hblank := hx.blank n hnot
      refine ⟨by simp [hblank], fun s => ?_⟩
      rw [hblank]
      exact iff_of_false (by simp) (not_closure_of_accepting hacc)
    · exact hx.lists n ((hx.done n hdn).2 hacc)

end Recognizer
