import Mathlib.Data.Finset.Card
import Mathlib.Data.Finset.Insert
import Recognizer.Core.PathSearch
import Recognizer.Compile.Graph
import Recognizer.Source.Compile

/-!
# `collect_adjacencies_helper` computes closures

On a graph without `NULL` successors, without loops of `EPSILON` nodes and with
sound branch lists, the walk below a node ends, restores the marks it sets and
adds to the reachable list of the current node exactly the stops the search
finds, each once.
-/

namespace Recognizer

open PathSearch

variable {h h₁ h₂ : Heap} {current : Addr} {nodes : Finset Addr}

/-- The edge from one `EPSILON` node to the next. -/
def EpsilonEdge (h : Heap) (a b : Addr) : Prop :=
  (h a).type = .epsilon ∧ (h b).type = .epsilon ∧ b = (h a).out2

/-- A finite graph the compiler can walk: no successor is `NULL`, no loop has
`EPSILON` nodes only, and the branch lists are well formed. -/
structure GraphOk (h : Heap) (nodes : Finset Addr) : Prop where
  nonzero : 0 ∉ nodes
  closed : ∀ a ∈ nodes, ∀ b, WalkEdge h a b → b ∈ nodes
  acyclic : ∀ a ∈ nodes, ¬ Relation.TransGen (EpsilonEdge h) a a
  branches : ∀ a ∈ nodes, (h a).type = .tree → (h a).branches.WellFormed

/-- What the compiler does not write in a node. -/
def NFA.graph (n : NFA) : NFA :=
  { n with
    doneFlag := false, cycleFlag := false, visitedFlag := false, acceptsFlag := false
    reachable := [], iterIdx := 0 }

/-- Two heaps hold the same graph. -/
def SameGraph (h h' : Heap) : Prop := ∀ a, (h' a).graph = (h a).graph

namespace SameGraph

@[refl] theorem refl (h : Heap) : SameGraph h h := fun _ => rfl

theorem trans (h₁₂ : SameGraph h h₁) (h₂₃ : SameGraph h₁ h₂) : SameGraph h h₂ :=
  fun a => (h₂₃ a).trans (h₁₂ a)

theorem symm (hs : SameGraph h h₁) : SameGraph h₁ h := fun a => (hs a).symm

theorem modify (h : Heap) (a : Addr) {f : NFA → NFA} (hf : ∀ n, (f n).graph = n.graph) :
    SameGraph h (h.modify a f) := by
  intro b
  rw [Heap.modify_apply]
  split
  · rename_i hb
    rw [hf, hb]
  · rfl

variable (hs : SameGraph h h₁) (a : Addr)

include hs

theorem type : (h₁ a).type = (h a).type := by
  simpa only [NFA.graph] using congrArg NFA.type (hs a)

theorem out1 : (h₁ a).out1 = (h a).out1 := by
  simpa only [NFA.graph] using congrArg NFA.out1 (hs a)

theorem out2 : (h₁ a).out2 = (h a).out2 := by
  simpa only [NFA.graph] using congrArg NFA.out2 (hs a)

theorem branches : (h₁ a).branches = (h a).branches := by
  simpa only [NFA.graph] using congrArg NFA.branches (hs a)

theorem literal : (h₁ a).literal = (h a).literal := by
  simpa only [NFA.graph] using congrArg NFA.literal (hs a)

end SameGraph

/-- The nodes the search may not enter again. -/
def marks (h : Heap) : Set Addr :=
  {a | ((h a).type = .split ∨ (h a).type = .tree) ∧ (h a).visitedFlag = true}

/-- The number of nodes the search can still mark. -/
def room (h : Heap) (nodes : Finset Addr) : Nat :=
  (nodes.filter fun a =>
    ((h a).type = .split ∨ (h a).type = .tree) ∧ (h a).visitedFlag = false).card

/-- A walk from one heap to another that adds the nodes of `S` to the reachable
list of the current node and leaves everything else as it was. -/
structure Collects (h h' : Heap) (current : Addr) (S : Addr → Prop) : Prop where
  graph : SameGraph h h'
  flags : ∀ a, (h a).type ≠ .epsilon → (h' a).visitedFlag = (h a).visitedFlag
  done : ∀ a, (h' a).doneFlag = (h a).doneFlag
  others : ∀ a, a ≠ current → (h' a).reachable = (h a).reachable
  nodup : (h current).reachable.Nodup → (h' current).reachable.Nodup
  mem : ∀ x, x ∈ (h' current).reachable ↔ x ∈ (h current).reachable ∨ S x

namespace Collects

variable {S S₁ S₂ : Addr → Prop}

theorem refl (h : Heap) (current : Addr) : Collects h h current fun _ => False :=
  ⟨.refl h, fun _ _ => rfl, fun _ => rfl, fun _ _ => rfl, id, fun _ => by simp⟩

theorem congr (hc : Collects h h₁ current S) (hS : ∀ x, S x ↔ S₁ x) :
    Collects h h₁ current S₁ :=
  { hc with mem := fun x => (hc.mem x).trans (or_congr_right (hS x)) }

theorem trans (hc : Collects h h₁ current S₁) (hc' : Collects h₁ h₂ current S₂) :
    Collects h h₂ current fun x => S₁ x ∨ S₂ x where
  graph := hc.graph.trans hc'.graph
  flags a ha := (hc'.flags a (hc.graph.type a ▸ ha)).trans (hc.flags a ha)
  done a := (hc'.done a).trans (hc.done a)
  others a ha := (hc'.others a ha).trans (hc.others a ha)
  nodup hn := hc'.nodup (hc.nodup hn)
  mem x := by rw [hc'.mem, hc.mem, or_assoc]

theorem marks_eq (hc : Collects h h₁ current S) : marks h₁ = marks h := by
  ext a
  simp only [marks, Set.mem_ofPred_eq, hc.graph.type a]
  refine and_congr_right fun htype => ?_
  rw [hc.flags a (by rcases htype with ht | ht <;> simp [ht])]

theorem room_eq (hc : Collects h h₁ current S) : room h₁ nodes = room h nodes := by
  unfold room
  congr 1
  refine Finset.filter_congr fun a _ => ?_
  simp only [hc.graph.type a]
  refine and_congr_right fun htype => ?_
  rw [hc.flags a (by rcases htype with ht | ht <;> simp [ht])]

/-- A write to the current node that keeps its graph, its marks and what it lists. -/
theorem modify_current (h : Heap) {f : NFA → NFA} (hgraph : ∀ n, (f n).graph = n.graph)
    (hflag : ∀ n, (f n).visitedFlag = n.visitedFlag) (hdone : ∀ n, (f n).doneFlag = n.doneFlag)
    (hnodup : (h current).reachable.Nodup → (f (h current)).reachable.Nodup)
    (hmem : ∀ x, x ∈ (f (h current)).reachable ↔ x ∈ (h current).reachable ∨ S x) :
    Collects h (h.modify current f) current S := by
  refine ⟨.modify _ _ hgraph, fun a _ => ?_, fun a => ?_, fun a ha => ?_, fun hn => ?_,
    fun x => ?_⟩
  · rw [Heap.modify_apply]
    split
    · rename_i ha
      rw [hflag, ha]
    · rfl
  · rw [Heap.modify_apply]
    split
    · rename_i ha
      rw [hdone, ha]
    · rfl
  · rw [Heap.modify_of_ne _ ha]
  · simpa using hnodup hn
  · simpa using hmem x

/-- `list_append` of a stop that may be on the list already. -/
theorem addReachable (h : Heap) (current visiting : Addr) :
    Collects h (Recognizer.addReachable h current visiting) current (· = visiting) := by
  unfold Recognizer.addReachable
  split
  · rename_i hmem
    exact { refl h current with mem := fun x => ⟨Or.inl, fun hx => hx.elim id (· ▸ hmem)⟩ }
  · rename_i hmem
    refine modify_current h (fun _ => rfl) (fun _ => rfl) (fun _ => rfl) (fun hn => ?_)
      fun x => by simp
    simpa [List.nodup_append] using ⟨hn, fun x hx heq => hmem (heq ▸ hx)⟩

theorem noteAccepts (h : Heap) (current visiting : Addr) :
    Collects h (Recognizer.noteAccepts h current visiting) current fun _ => False := by
  unfold Recognizer.noteAccepts
  split
  · exact modify_current h (fun _ => rfl) (fun _ => rfl) (fun _ => rfl) id fun x => by simp
  · exact refl h current

/-- A walk under the mark of a node is a walk without it, once the mark is gone. -/
theorem unmark {v : Addr} (hv : (h v).type = .epsilon ∨ (h v).visitedFlag = false)
    (hc : Collects (setVisited h v true) h₁ current S) :
    Collects h (setVisited h₁ v false) current S := by
  have hin : ∀ (g : Heap) (on : Bool) (a : Addr), ((setVisited g v on) a).reachable =
      (g a).reachable ∧ ((setVisited g v on) a).doneFlag = (g a).doneFlag := by
    intro g on a
    unfold setVisited
    rw [Heap.modify_apply]
    split
    · rename_i ha
      subst ha
      exact ⟨rfl, rfl⟩
    · exact ⟨rfl, rfl⟩
  have hgraph : ∀ (g : Heap) (on : Bool), SameGraph g (setVisited g v on) :=
    fun g on => .modify _ _ fun _ => rfl
  refine ⟨(hgraph h true).trans (hc.graph.trans (hgraph h₁ false)), fun a ha => ?_, fun a => ?_,
    fun a ha => ?_, fun hn => ?_, fun x => ?_⟩
  · by_cases hav : a = v
    · subst hav
      simpa [setVisited] using (hv.resolve_left ha).symm
    · have hflag := hc.flags a (by rwa [(hgraph h true).type a])
      simpa [setVisited, Heap.modify_of_ne, hav] using hflag
  · rw [(hin h₁ false a).2, hc.done, (hin h true a).2]
  · rw [(hin h₁ false a).1, hc.others a ha, (hin h true a).1]
  · rw [(hin h₁ false current).1]
    exact hc.nodup (by rwa [(hin h true current).1])
  · rw [(hin h₁ false current).1, hc.mem, (hin h true current).1]

end Collects

theorem sameGraph_setVisited (h : Heap) (v : Addr) (on : Bool) :
    SameGraph h (setVisited h v on) :=
  .modify _ _ fun _ => rfl

/-- Marking an `EPSILON` node does not restrict the search. -/
theorem marks_setVisited_epsilon {v : Addr} (hv : (h v).type = .epsilon) :
    marks (setVisited h v true) = marks h := by
  ext a
  by_cases hav : a = v
  · subst hav
    simp [marks, setVisited, hv]
  · simp [marks, setVisited, Heap.modify_of_ne, hav]

/-- Marking a `SPLIT` or a `TREE` node adds it to the marks. -/
theorem marks_setVisited {v : Addr} (hv : (h v).type = .split ∨ (h v).type = .tree) :
    marks (setVisited h v true) = insert v (marks h) := by
  ext a
  by_cases hav : a = v
  · subst hav
    simp [marks, setVisited, hv]
  · simp [marks, setVisited, Heap.modify_of_ne, hav]

theorem room_setVisited_epsilon {v : Addr} (hv : (h v).type = .epsilon) :
    room (setVisited h v true) nodes = room h nodes := by
  unfold room
  congr 1
  refine Finset.filter_congr fun a _ => ?_
  by_cases hav : a = v
  · subst hav
    simp [setVisited, hv]
  · simp [setVisited, Heap.modify_of_ne, hav]

/-- Marking a node that was not marked uses up room. -/
theorem room_setVisited (nodes : Finset Addr) {v : Addr} (hv : (h v).type = .split ∨ (h v).type = .tree)
    (hmem : v ∈ nodes) (hflag : (h v).visitedFlag = false) :
    room (setVisited h v true) nodes + 1 ≤ room h nodes := by
  unfold room
  refine Finset.card_lt_card (Finset.ssubset_iff_of_subset (fun a ha => ?_) |>.mpr ⟨v, ?_, ?_⟩)
  · rw [Finset.mem_filter] at ha ⊢
    by_cases hav : a = v
    · subst hav
      simp [setVisited] at ha
    · simpa [setVisited, Heap.modify_of_ne, hav] using ha
  · simp [hmem, hv, hflag]
  · rw [Finset.mem_filter]
    simp [setVisited]

/-- A budget that is enough to walk below a node while `r` nodes can be marked. -/
noncomputable def need (h : Heap) (nodes : Finset Addr) (r : Nat) (v : Addr) : Nat :=
  r * (nodes.card + 3) + if (h v).type = .epsilon then rank (EpsilonEdge h) nodes v + 2 else 1

theorem need_pos (h : Heap) (nodes : Finset Addr) (r : Nat) (v : Addr) :
    0 < need h nodes r v := by
  unfold need
  split <;> omega

theorem need_le (h : Heap) (nodes : Finset Addr) (r : Nat) (v : Addr) :
    need h nodes r v ≤ r * (nodes.card + 3) + (nodes.card + 2) := by
  have := rank_le (EpsilonEdge h) nodes v
  unfold need
  split <;> omega

/-- The successor of an `EPSILON` node needs less. -/
theorem need_epsilon (ok : GraphOk h nodes) {v : Addr} (hv : v ∈ nodes)
    (htype : (h v).type = .epsilon) (r : Nat) :
    need h nodes r (h v).out2 + 1 ≤ need h nodes r v := by
  unfold need
  rw [if_pos htype]
  split
  · rename_i hnext
    have hmem := ok.closed v hv _ (.epsilon htype)
    have := rank_lt (v := v) (ok.acyclic _ hmem) hmem ⟨htype, hnext, rfl⟩
    omega
  · omega

/-- With one node less to mark every node needs less than a marked node did. -/
theorem need_mark (h : Heap) (nodes : Finset Addr) {r r' : Nat} (hr : r' + 1 ≤ r) (v w : Addr) :
    need h nodes r' w + 1 ≤ need h nodes r v := by
  have hw := need_le h nodes r' w
  have hv : r * (nodes.card + 3) + 1 ≤ need h nodes r v := by
    unfold need
    split <;> omega
  have hmul : (r' + 1) * (nodes.card + 3) ≤ r * (nodes.card + 3) := Nat.mul_le_mul_right _ hr
  rw [Nat.add_mul] at hmul
  omega

/-- Indexing a well-formed branch list is indexing its chain. -/
theorem BranchList.map_getAt {l : BranchList} (hl : l.WellFormed) :
    (List.range l.size).map l.getAt = l.items := by
  obtain ⟨hsize, htail⟩ := hl
  refine List.ext_getElem (by simp [hsize]) fun i hi hi' => ?_
  have hne : l.items ≠ [] := by
    rintro hnil
    simp [hnil] at hi'
  simp only [List.getElem_map, List.getElem_range, BranchList.getAt]
  rw [if_neg (by simp [hne, hsize, hi'])]
  split
  · rename_i hzero
    subst hzero
    simp [List.headD_eq_head?_getD, List.head?_eq_getElem?, hi']
  · split
    · rename_i hlast
      rw [htail, List.getLastD_eq_getLast?, List.getLast?_eq_getElem?]
      have hidx : l.items.length - 1 = i := by rw [← hsize, hlast]
      simp [hidx, hi']
    · simp [List.getD_eq_getElem?_getD, hi']

section Budget

/-- A loop whose body returns more often returns at least as often. -/
theorem foldlM_mono {α β : Type} {f g : β → α → Option β}
    (hle : ∀ b a c, f b a = some c → g b a = some c) (l : List α) (b c : β)
    (h : l.foldlM f b = some c) : l.foldlM g b = some c := by
  induction l generalizing b with
  | nil => exact h
  | cons a l ih =>
    simp only [List.foldlM_cons, Option.bind_eq_bind, Option.bind_eq_some_iff] at h ⊢
    obtain ⟨d, hd, hrest⟩ := h
    exact ⟨d, hle _ _ _ hd, ih d hrest⟩

/-- A larger budget does not change the result of the helper. -/
theorem collectAdjacenciesHelper_succ {fuel : Nat} {current v forbidden : Addr} {recursion : Nat}
    {h h' : Heap} (hrun : collectAdjacenciesHelper fuel current v forbidden recursion h = some h') :
    collectAdjacenciesHelper (fuel + 1) current v forbidden recursion h = some h' := by
  induction fuel generalizing current v forbidden recursion h h' with
  | zero => simp [collectAdjacenciesHelper] at hrun
  | succ fuel ih =>
    rw [collectAdjacenciesHelper] at hrun ⊢
    by_cases hforb : v = forbidden
    · simpa [hforb] using hrun
    by_cases hnull : v = 0
    · rw [if_neg hforb, if_pos hnull] at hrun
      cases hrun
    rw [if_neg hforb, if_neg hnull] at hrun ⊢
    simp only [Option.map_eq_some_iff] at hrun ⊢
    obtain ⟨g, hg, rfl⟩ := hrun
    refine ⟨g, ?_, rfl⟩
    split at hg
    · rename_i heps
      rw [if_pos heps]
      simp only [Option.bind_eq_bind, Option.bind_eq_some_iff] at hg ⊢
      obtain ⟨a, ha, hg⟩ := hg
      exact ⟨a, ih ha, hg⟩
    · rename_i heps
      rw [if_neg heps]
      split at hg
      · rename_i hflag
        rw [if_pos hflag]
        exact hg
      · rename_i hflag
        rw [if_neg hflag]
        split at hg
        · simp only [Option.bind_eq_bind, Option.bind_eq_some_iff] at hg ⊢
          obtain ⟨a, ha, hg⟩ := hg
          exact ⟨a, foldlM_mono (fun _ _ _ => ih) _ _ _ ha, hg⟩
        · split at hg
          · rename_i hint
            rw [if_pos hint]
            simp only [Option.bind_eq_bind, Option.bind_eq_some_iff] at hg ⊢
            obtain ⟨a, ha, hg⟩ := hg
            exact ⟨a, ih ha, ih hg⟩
          · rename_i hint
            rw [if_neg hint]
            simp only [Option.bind_eq_bind, Option.bind_eq_some_iff] at hg ⊢
            obtain ⟨a, ha, b, hb, hg⟩ := hg
            exact ⟨a, ih ha, b, ih hb, hg⟩
        · split at hg
          · rename_i hself
            rw [if_pos hself]
            exact ih hg
          · rename_i hself
            rw [if_neg hself]
            exact hg
theorem collectAdjacenciesHelper_le {fuel fuel' : Nat} (hle : fuel ≤ fuel')
    {current v forbidden : Addr} {recursion : Nat} {h h' : Heap}
    (hrun : collectAdjacenciesHelper fuel current v forbidden recursion h = some h') :
    collectAdjacenciesHelper fuel' current v forbidden recursion h = some h' := by
  induction hle with
  | refl => exact hrun
  | step _ ih => exact collectAdjacenciesHelper_succ ih

end Budget

section Walk

variable {h₀ : Heap}

/-- The stops the search below a node finds under the marks of a heap. -/
abbrev Finds (h₀ h : Heap) : Addr → Addr → Prop :=
  Found (WalkEdge h₀) (fun a => Passes (h₀ a)) (marks h)

/-- What `collect_adjacencies_helper` does below a node. -/
def Walks (h₀ : Heap) (nodes : Finset Addr) (fuel : Nat) : Prop :=
  ∀ current visiting recursion h, SameGraph h₀ h → (h₀ current).type ≠ .interval →
    visiting ∈ nodes →
    (current = visiting → recursion = 0 →
      Passes (h₀ visiting) ∨ (h visiting).visitedFlag = true) →
    need h₀ nodes (room h nodes) visiting ≤ fuel →
    ∃ h', collectAdjacenciesHelper fuel current visiting 0 recursion h = some h' ∧
      Collects h h' current (Finds h₀ h visiting)

/-- The loop over the branches of a `TREE` node. -/
theorem walks_branches {fuel : Nat} (recursion : Nat) (hwalk : Walks h₀ nodes fuel) {bs : List Addr}
    (hbs : ∀ b ∈ bs, b ∈ nodes) (hs : SameGraph h₀ h) (hcur : (h₀ current).type ≠ .interval)
    (hfuel : ∀ b ∈ bs, need h₀ nodes (room h nodes) b ≤ fuel) :
    ∃ h', bs.foldlM (fun h b =>
        collectAdjacenciesHelper fuel current b 0 (recursion + 1) h) h = some h' ∧
      Collects h h' current fun x => ∃ b ∈ bs, Finds h₀ h b x := by
  induction bs generalizing h with
  | nil => exact ⟨h, rfl, (Collects.refl h current).congr (by simp)⟩
  | cons b bs ih =>
    obtain ⟨h₁, hone, hc₁⟩ := hwalk current b (recursion + 1) h hs hcur (hbs b (by simp))
      (by simp) (hfuel b (by simp))
    obtain ⟨h₂, hrest, hc₂⟩ := ih (h := h₁) (fun c hc => hbs c (by simp [hc]))
      (hs.trans hc₁.graph) (fun c hc => by rw [hc₁.room_eq]; exact hfuel c (by simp [hc]))
    refine ⟨h₂, ?_, (hc₁.trans hc₂).congr fun x => ?_⟩
    · simp [hone, hrest]
    · simp [Finds, hc₁.marks_eq]

/-- A walk of an `EPSILON` node goes on to its successor. -/
theorem walks_epsilon (ok : GraphOk h₀ nodes) {fuel : Nat} (hwalk : Walks h₀ nodes fuel)
    {v : Addr} {recursion : Nat} (hs : SameGraph h₀ h) (hcur : (h₀ current).type ≠ .interval)
    (hv : v ∈ nodes) (htype : (h₀ v).type = .epsilon)
    (hfuel : need h₀ nodes (room h nodes) v ≤ fuel + 1) :
    ∃ h', collectAdjacenciesHelper (fuel + 1) current v 0 recursion h = some h' ∧
      Collects h h' current (Finds h₀ h v) := by
  have hne : v ≠ 0 := fun hzero => ok.nonzero (hzero ▸ hv)
  have htype' : (h v).type = .epsilon := (hs.type v).trans htype
  have hneed := need_epsilon ok hv htype (room h nodes)
  obtain ⟨h₁, hwalked, hc⟩ := hwalk current (h₀ v).out2 (recursion + 1) (setVisited h v true)
    (hs.trans (sameGraph_setVisited h v true)) hcur (ok.closed v hv _ (.epsilon htype)) (by simp)
    (by rw [room_setVisited_epsilon htype']; omega)
  have hclosed := hc.unmark (Or.inl htype')
  refine ⟨noteAccepts (setVisited h₁ v false) current v, ?_, ?_⟩
  · rw [collectAdjacenciesHelper, if_neg hne, if_neg hne]
    simp [htype', hs.out2 v, hwalked]
  · refine (hclosed.trans (.noteAccepts ..)).congr fun x => ?_
    have hmark : v ∉ marks h := by simp [marks, htype']
    have hstep : Finds h₀ h v x ↔ ∃ w, WalkEdge h₀ v w ∧ Finds h₀ h w x :=
      Found.iff_step (Or.inl htype) hmark
    rw [or_false, Finds, marks_setVisited_epsilon htype']
    refine Iff.trans ?_ hstep.symm
    constructor
    · exact fun hx => ⟨_, .epsilon htype, hx⟩
    · rintro ⟨w, hedge, hx⟩
      cases hedge with
      | epsilon => exact hx
      | splitLeft ht | splitRight ht | branch ht => simp [htype] at ht

/-- A walk of an unmarked `SPLIT` node takes both its successors under its mark. -/
theorem walks_split (ok : GraphOk h₀ nodes) {fuel : Nat} (hwalk : Walks h₀ nodes fuel)
    {v : Addr} {recursion : Nat} (hs : SameGraph h₀ h) (hcur : (h₀ current).type ≠ .interval)
    (hv : v ∈ nodes) (htype : (h₀ v).type = .split) (hflag : (h v).visitedFlag = false)
    (hfuel : need h₀ nodes (room h nodes) v ≤ fuel + 1) :
    ∃ h', collectAdjacenciesHelper (fuel + 1) current v 0 recursion h = some h' ∧
      Collects h h' current (Finds h₀ h v) := by
  have hne : v ≠ 0 := fun hzero => ok.nonzero (hzero ▸ hv)
  have htype' : (h v).type = .split := (hs.type v).trans htype
  have hroom := room_setVisited nodes (Or.inl htype') hv hflag
  have hs' := hs.trans (sameGraph_setVisited h v true)
  have hneed : ∀ w, need h₀ nodes (room (setVisited h v true) nodes) w ≤ fuel := fun w => by
    have := need_mark h₀ nodes hroom v w
    omega
  obtain ⟨h₁, hleft, hc₁⟩ := hwalk current (h₀ v).out1 (recursion + 1) (setVisited h v true) hs'
    hcur (ok.closed v hv _ (.splitLeft htype)) (by simp) (hneed _)
  obtain ⟨h₂, hright, hc₂⟩ := hwalk current (h₀ v).out2 (recursion + 1) h₁
    (hs'.trans hc₁.graph) hcur (ok.closed v hv _ (.splitRight htype)) (by simp)
    (by rw [hc₁.room_eq]; exact hneed _)
  have hclosed := (hc₁.trans hc₂).unmark (Or.inr hflag)
  refine ⟨noteAccepts (setVisited h₂ v false) current v, ?_, ?_⟩
  · rw [collectAdjacenciesHelper, if_neg hne, if_neg hne]
    simp [htype', hflag, (hs.type current).trans_ne hcur, hs.out1 v, hs.out2 v, hleft, hright]
  · refine (hclosed.trans (.noteAccepts ..)).congr fun x => ?_
    have hmark : v ∉ marks h := by simp [marks, hflag]
    have hstep : Finds h₀ h v x ↔ ∃ w, WalkEdge h₀ v w ∧
        Found (WalkEdge h₀) (fun a => Passes (h₀ a)) (insert v (marks h)) w x :=
      Found.iff_mark (Or.inr (Or.inl htype)) hmark
    rw [or_false, Finds, Finds, hc₁.marks_eq, marks_setVisited (Or.inl htype')]
    refine Iff.trans ?_ hstep.symm
    constructor
    · rintro (hx | hx)
      · exact ⟨_, .splitLeft htype, hx⟩
      · exact ⟨_, .splitRight htype, hx⟩
    · rintro ⟨w, hedge, hx⟩
      cases hedge with
      | splitLeft => exact Or.inl hx
      | splitRight => exact Or.inr hx
      | epsilon ht | branch ht => simp [htype] at ht

/-- A walk of an unmarked `TREE` node takes all its branches under its mark. -/
theorem walks_tree (ok : GraphOk h₀ nodes) {fuel : Nat} (hwalk : Walks h₀ nodes fuel)
    {v : Addr} {recursion : Nat} (hs : SameGraph h₀ h) (hcur : (h₀ current).type ≠ .interval)
    (hv : v ∈ nodes) (htype : (h₀ v).type = .tree) (hflag : (h v).visitedFlag = false)
    (hfuel : need h₀ nodes (room h nodes) v ≤ fuel + 1) :
    ∃ h', collectAdjacenciesHelper (fuel + 1) current v 0 recursion h = some h' ∧
      Collects h h' current (Finds h₀ h v) := by
  have hne : v ≠ 0 := fun hzero => ok.nonzero (hzero ▸ hv)
  have htype' : (h v).type = .tree := (hs.type v).trans htype
  have hroom := room_setVisited nodes (Or.inr htype') hv hflag
  have hitems := BranchList.map_getAt (ok.branches v hv htype)
  obtain ⟨h₁, hfold, hc⟩ := walks_branches (h := setVisited h v true) recursion
    hwalk (fun b hb => ok.closed v hv _ (.branch htype hb))
    (hs.trans (sameGraph_setVisited h v true)) hcur
    (fun b _ => by have := need_mark h₀ nodes hroom v b; omega)
  have hclosed := hc.unmark (Or.inr hflag)
  refine ⟨noteAccepts (setVisited h₁ v false) current v, ?_, ?_⟩
  · rw [← hitems, List.foldlM_map] at hfold
    rw [collectAdjacenciesHelper, if_neg hne, if_neg hne]
    simp [htype', hflag, hs.branches v, hfold]
  · refine (hclosed.trans (.noteAccepts ..)).congr fun x => ?_
    have hmark : v ∉ marks h := by simp [marks, hflag]
    have hstep : Finds h₀ h v x ↔ ∃ w, WalkEdge h₀ v w ∧
        Found (WalkEdge h₀) (fun a => Passes (h₀ a)) (insert v (marks h)) w x :=
      Found.iff_mark (Or.inr (Or.inr htype)) hmark
    simp only [or_false, Finds, marks_setVisited (Or.inr htype')]
    refine Iff.trans ?_ hstep.symm
    constructor
    · rintro ⟨b, hb, hx⟩
      exact ⟨b, .branch htype hb, hx⟩
    · rintro ⟨w, hedge, hx⟩
      cases hedge with
      | branch _ hb => exact ⟨w, hb, hx⟩
      | epsilon ht | splitLeft ht | splitRight ht => simp [htype] at ht

/-- A walk that comes to a marked node, or to a stop, ends there. -/
theorem walks_end {fuel : Nat} {v : Addr} {recursion : Nat} (hne : v ≠ 0)
    (hs : SameGraph h₀ h) (heps : (h₀ v).type ≠ .epsilon)
    (hend : Passes (h₀ v) → (h v).visitedFlag = true)
    (hself : current = v → recursion = 0 → Passes (h₀ v) ∨ (h v).visitedFlag = true) :
    ∃ h', collectAdjacenciesHelper (fuel + 1) current v 0 recursion h = some h' ∧
      Collects h h' current (Finds h₀ h v) := by
  have heps' : (h v).type ≠ .epsilon := by rwa [hs.type v]
  by_cases hpass : Passes (h₀ v)
  · have hmarked : v ∈ marks h := by
      refine ⟨?_, hend hpass⟩
      rw [hs.type v]
      exact hpass.resolve_left heps
    refine ⟨noteAccepts h current v, ?_, (Collects.noteAccepts ..).congr fun x => ?_⟩
    · rw [collectAdjacenciesHelper, if_neg hne, if_neg hne]
      rcases hmarked.1 with ht | ht
      · simp [ht, hmarked.2]
      · simp [ht, hmarked.2]
    · exact iff_of_false id (Found.not_of_mem hpass hmarked)
  · have hnosplit : (h v).type ≠ .split ∧ (h v).type ≠ .tree := by
      rw [hs.type v]
      exact ⟨fun ht => hpass (Or.inr (Or.inl ht)), fun ht => hpass (Or.inr (Or.inr ht))⟩
    refine ⟨noteAccepts (addReachable h current v) current v, ?_, ?_⟩
    · rw [collectAdjacenciesHelper, if_neg hne, if_neg hne]
      have hnoself : (h v).visitedFlag = false → ¬ (current = v ∧ recursion = 0) := by
        rintro hflag ⟨rfl, hrec⟩
        rcases hself rfl hrec with h' | h'
        · exact hpass h'
        · rw [hflag] at h'
          exact absurd h' (by decide)
      cases hflag : (h v).visitedFlag with
      | true => cases ht : (h v).type <;> simp_all
      | false =>
        have hif := hnoself hflag
        cases ht : (h v).type <;> simp_all [-not_and]
    · refine ((Collects.addReachable h current v).trans (.noteAccepts ..)).congr fun x => ?_
      rw [or_false]
      have hstop : Finds h₀ h v x ↔ x = v := Found.iff_of_not_pass hpass
      exact hstop.symm

/-- **The helper computes closures**, whatever the marks it starts with. -/
theorem walks (ok : GraphOk h₀ nodes) (fuel : Nat) : Walks h₀ nodes fuel := by
  induction fuel with
  | zero =>
    intro current v recursion h _ _ _ _ hfuel
    have := need_pos h₀ nodes (room h nodes) v
    omega
  | succ fuel ih =>
    intro current v recursion h hs hcur hv hself hfuel
    have hne : v ≠ 0 := fun hzero => ok.nonzero (hzero ▸ hv)
    by_cases heps : (h₀ v).type = .epsilon
    · exact walks_epsilon ok ih hs hcur hv heps hfuel
    · by_cases hpass : Passes (h₀ v) ∧ (h v).visitedFlag = false
      · obtain ⟨hpass, hflag⟩ := hpass
        rcases hpass.resolve_left heps with htype | htype
        · exact walks_split ok ih hs hcur hv htype hflag hfuel
        · exact walks_tree ok ih hs hcur hv htype hflag hfuel
      · exact walks_end hne hs heps (fun h' => by simpa [h'] using hpass) hself

/-- Whatever the budget, a walk that returns adds what the search finds. -/
theorem collectAdjacenciesHelper_collects (ok : GraphOk h₀ nodes) {fuel : Nat} {v : Addr}
    {recursion : Nat} {h' : Heap} (hs : SameGraph h₀ h) (hcur : (h₀ current).type ≠ .interval)
    (hv : v ∈ nodes)
    (hself : current = v → recursion = 0 → Passes (h₀ v) ∨ (h v).visitedFlag = true)
    (hrun : collectAdjacenciesHelper fuel current v 0 recursion h = some h') :
    Collects h h' current (Finds h₀ h v) := by
  obtain ⟨h'', hrun', hc⟩ := walks ok (fuel + need h₀ nodes (room h nodes) v) current v recursion h
    hs hcur hv hself (by omega)
  have heq := collectAdjacenciesHelper_le
    (Nat.le_add_right fuel (need h₀ nodes (room h nodes) v)) hrun
  rw [hrun', Option.some.injEq] at heq
  exact heq ▸ hc

end Walk

end Recognizer
