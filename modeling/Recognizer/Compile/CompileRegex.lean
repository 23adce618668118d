import Recognizer.Compile.WorkList
import Recognizer.Parse.Blank

/-!
# What `compile_regex` leaves behind

The first walk fills the list of the start node, the synthesis of keywords only
reads the graph, and the work list does the rest.
-/

namespace Recognizer

open PathSearch

variable {h h₁ h₀ : Heap} {nodes : Finset Addr} {start : Addr} {total fuel : Nat} {p p' : Parser}

/-- After the first walk the work list holds the start node only. -/
theorem expanded_start (ok : Compilable h₀ nodes start total) (hblank : Blank h₀)
    (hrun : collectAdjacenciesHelper fuel start start 0 0 h₀ = some h) :
    Expanded h₀ nodes start [start] h := by
  have hc := collectAdjacenciesHelper_collects ok.toGraphOk (.refl h₀)
    (ok.no_interval start ok.start_mem) ok.start_mem (fun _ _ => Or.inl ok.start_passes) hrun
  have hm : Unmarked h₀ h₀ := fun a _ => (hblank a).1
  have hnone : ∀ a, (h a).doneFlag = false := fun a => (hc.done a).trans (hblank a).2.1
  refine ⟨hc.graph, fun a ha => (hc.flags a ha).trans (hm a ha), by simp, by simp, ?_, ?_, ?_, ?_,
    ?_⟩
  · simpa using ok.start_mem
  · simp
  · simp [hnone]
  · intro a ha
    rw [List.mem_singleton] at ha
    subst ha
    refine ⟨hc.nodup (by simp [(hblank a).2.2]), fun s => ?_⟩
    rw [hc.mem, (hblank a).2.2, closure_iff_of_passes ok.start_passes, Finds,
      hm.marks (.refl h₀)]
    simp
  · intro a ha
    rw [hc.others a (by simpa using ha), (hblank a).2.2]

/-- `collect_adjacencies` leaves closures on the reachable lists. -/
theorem collectAdjacencies_lists (ok : Compilable p.ctrl.heap nodes start total)
    (hblank : Blank p.ctrl.heap) (hstack : p.branchStack = [])
    (hrun : collectAdjacencies fuel p start total = some p') {n : Addr}
    (hreach : Relation.ReflTransGen (Leads p.ctrl.heap) start n)
    (hn : n = start ∨ ¬ Passes (p.ctrl.heap n)) :
    ListsClosure p.ctrl.heap p'.ctrl.heap n := by
  simp only [collectAdjacencies, Option.bind_eq_bind, Option.bind_eq_some_iff] at hrun
  obtain ⟨h₁, hwalk, s, -, ⟨l, h₂⟩, hall, hrun⟩ := hrun
  cases hrun
  rw [hstack, List.nil_append] at hall
  obtain ⟨hx, hp⟩ := expandAll_spec ok (expanded_start ok hblank hwalk) (by simp [Processed]) hall
  exact hx.complete ok hp hreach hn

/-- The edges `synthesize_pattern` follows. -/
inductive SynthEdge (h : Heap) : Addr → Addr → Prop where
  | next {a : Addr} (htype : (h a).type = .literal ∨ (h a).type = .epsilon ∨
      (h a).type = .capturegrpBegin ∨ (h a).type = .capturegrpEnd) : SynthEdge h a (h a).out2
  | branch {a b : Addr} (htype : (h a).type = .tree) (hb : b ∈ (h a).branches.items) :
    SynthEdge h a b
  | skip {a : Addr} (htype : (h a).type = .split) (hlit : (h a).literal = 63) :
    SynthEdge h a (h a).out1
  | take {a : Addr} (htype : (h a).type = .split) (hlit : (h a).literal = 63) :
    SynthEdge h a (h a).out2

/-- The synthesis follows edges of the graph. -/
theorem SynthEdge.leads {a b : Addr} (hedge : SynthEdge h a b) : Leads h a b := by
  cases hedge with
  | next htype =>
    by_cases heps : (h a).type = .epsilon
    · exact .walk (.epsilon heps)
    · refine .out2 ?_ ?_
      · rcases htype with ht | ht | ht | ht <;> simp [Passes, ht] at heps ⊢
      · rcases htype with ht | ht | ht | ht <;> simp [ht]
  | branch htype hb => exact .walk (.branch htype hb)
  | skip htype => exact .walk (.splitLeft htype)
  | take htype => exact .walk (.splitRight htype)

theorem SameGraph.synthEdge (hs : SameGraph h₀ h) {a b : Addr} (hedge : SynthEdge h a b) :
    SynthEdge h₀ a b := by
  cases hedge with
  | next htype =>
    rw [hs.out2]
    exact .next (by rwa [hs.type] at htype)
  | branch htype hb =>
    rw [hs.type] at htype
    rw [hs.branches] at hb
    exact .branch htype hb
  | skip htype hlit =>
    rw [hs.type] at htype
    rw [hs.literal] at hlit
    rw [hs.out1]
    exact .skip htype hlit
  | take htype hlit =>
    rw [hs.type] at htype
    rw [hs.literal] at hlit
    rw [hs.out2]
    exact .take htype hlit

/-- The synthesis returns when no loop of the graph avoids the `'*'` and `'+'` splits. -/
theorem synthesizePattern_isSome (hnull : 0 ∉ nodes)
    (hclosed : ∀ a ∈ nodes, ∀ b, SynthEdge h a b → b ∈ nodes)
    (hloop : ∀ a ∈ nodes, ¬ Relation.TransGen (SynthEdge h) a a) {v : Addr} (hv : v ∈ nodes)
    (hfuel : rank (SynthEdge h) nodes v < fuel) (i : Nat) (s : Synthesis) :
    ∃ s', synthesizePattern h fuel v i s = some s' := by
  induction fuel generalizing v i s with
  | zero => omega
  | succ fuel ih =>
    have hne : v ≠ 0 := fun hzero => hnull (hzero ▸ hv)
    have hnext : ∀ b, SynthEdge h v b → ∀ i s, ∃ s', synthesizePattern h fuel b i s = some s' := by
      intro b hedge i s
      have hlt := rank_lt (hloop b (hclosed v hv b hedge)) (hclosed v hv b hedge) hedge
      exact ih (hclosed v hv b hedge) (by omega) i s
    rw [synthesizePattern, if_neg hne]
    split
    · rename_i htype
      obtain ⟨s', hs'⟩ := hnext _ (.next (Or.inl htype)) (i + 1)
        { s with root := Function.update s.root i (h v).literal, print := true }
      exact ⟨emitPattern s' (i + 1), by simp [hs']⟩
    · rename_i htype
      obtain ⟨s', hs'⟩ := hnext _ (.next (by simp [htype])) i s
      exact ⟨emitPattern s' i, by simp [hs']⟩
    · rename_i htype
      obtain ⟨s', hs'⟩ := hnext _ (.next (by simp [htype])) i s
      exact ⟨emitPattern s' i, by simp [hs']⟩
    · rename_i htype
      obtain ⟨s', hs'⟩ := hnext _ (.next (by simp [htype])) i s
      exact ⟨emitPattern s' i, by simp [hs']⟩
    · rename_i htype
      have hfold : ∀ bs : List Addr, (∀ b ∈ bs, b ∈ (h v).branches.items) → ∀ s : Synthesis,
          ∃ s', bs.foldlM (fun s b => synthesizePattern h fuel b i s) s = some s' := by
        intro bs
        induction bs with
        | nil => exact fun _ s => ⟨s, rfl⟩
        | cons b bs ihb =>
          intro hmem s
          obtain ⟨s₁, hs₁⟩ := hnext b (.branch htype (hmem b (by simp))) i s
          obtain ⟨s₂, hs₂⟩ := ihb (fun c hc => hmem c (by simp [hc])) s₁
          exact ⟨s₂, by simp [hs₁, hs₂]⟩
      obtain ⟨s', hs'⟩ := hfold _ (fun _ => id) s
      exact ⟨emitPattern s' i, by simp [hs']⟩
    · rename_i htype
      split
      · rename_i hlit
        obtain ⟨s₁, hs₁⟩ := hnext _ (.skip htype hlit) i s
        obtain ⟨s₂, hs₂⟩ := hnext _ (.take htype hlit) i s₁
        exact ⟨emitPattern s₂ i, by simp [hs₁, hs₂]⟩
      · exact ⟨_, rfl⟩
    · exact ⟨_, rfl⟩

theorem computeMpatTables_isSome (hnull : 0 ∉ nodes)
    (hclosed : ∀ a ∈ nodes, ∀ b, SynthEdge h a b → b ∈ nodes)
    (hloop : ∀ a ∈ nodes, ¬ Relation.TransGen (SynthEdge h) a a) (hfuel : nodes.card < fuel)
    {l : List Addr} (hl : ∀ a ∈ l, a ∈ nodes) (s : Synthesis) :
    ∃ s', computeMpatTables h fuel l s = some s' := by
  induction l generalizing s with
  | nil => exact ⟨s, rfl⟩
  | cons a l ih =>
    have htail : ∀ b ∈ l, b ∈ nodes := fun b hb => hl b (by simp [hb])
    rw [computeMpatTables]
    split
    · have hrank := rank_le (SynthEdge h) nodes a
      have hrankFuel : rank (SynthEdge h) nodes a < fuel := by omega
      obtain ⟨s₁, hs₁⟩ := synthesizePattern_isSome hnull hclosed hloop (hl a (by simp)) hrankFuel 0 s
      obtain ⟨s₂, hs₂⟩ := ih htail s₁
      exact ⟨s₂, by simp [hs₁, hs₂]⟩
    · exact ih htail s
    · exact ⟨s, rfl⟩

/-- `collect_adjacencies` returns when no loop of the graph avoids the `'*'` and
`'+'` splits. -/
theorem collectAdjacencies_isSome (ok : Compilable p.ctrl.heap nodes start total)
    (hblank : Blank p.ctrl.heap) (hstack : p.branchStack = [])
    (hloop : ∀ a ∈ nodes, ¬ Relation.TransGen (SynthEdge p.ctrl.heap) a a)
    (hfuel : enough nodes ≤ fuel) : ∃ p', collectAdjacencies fuel p start total = some p' := by
  have hm : Unmarked p.ctrl.heap p.ctrl.heap := fun a _ => (hblank a).1
  obtain ⟨h₁, hwalk, -⟩ := walks ok.toGraphOk fuel start start 0 p.ctrl.heap (.refl _)
    (ok.no_interval start ok.start_mem) ok.start_mem (fun _ _ => Or.inl ok.start_passes)
    ((need_le_enough ..).trans hfuel)
  have hx := expanded_start ok hblank hwalk
  have hcard : nodes.card < fuel := by
    unfold enough at hfuel
    omega
  obtain ⟨s, hs⟩ := computeMpatTables_isSome (h := h₁) ok.nonzero
    (fun a ha b hedge => ok.leads_mem ha (hx.graph.synthEdge hedge).leads)
    (fun a ha hcycle => hloop a ha (hcycle.lift id fun _ _ => hx.graph.synthEdge)) hcard
    (l := (h₁ start).reachable)
    (fun a ha => ok.closure_mem ok.start_mem (((hx.lists start hx.start_mem).2 a).mp ha))
    { patterns := p.synthPatterns }
  obtain ⟨⟨l, h₂⟩, hall⟩ := expandAll_isSome ok hfuel hx (k := total + 2) (i := 0)
    (by simp [Processed]) (by omega) (by omega)
  exact ⟨_, by simp [collectAdjacencies, hwalk, hs, hstack, hall]; rfl⟩

/-- A graph is compilable when its nodes point to each other and a measure
descends along the edges that close no loop. -/
theorem Compilable.of_targets (hnull : 0 ∉ nodes) (hstart : start ∈ nodes)
    (hpass : Passes (h start)) (hclosed : ∀ a ∈ nodes, ∀ b ∈ (h a).targets, b ∈ nodes)
    (hkind : ∀ a ∈ nodes, (h a).type ≠ .interval)
    (hbranches : ∀ a ∈ nodes, (h a).branches.WellFormed) (f : Addr → Nat)
    (hheight : ∀ a ∈ nodes, ∀ b ∈ (h a).forward, f b < f a)
    (hcount : (nodes.filter fun a => Collectable (h a)).card < total) :
    Compilable h nodes start total where
  nonzero := hnull
  closed a ha b hedge := hclosed a ha b (Leads.walk hedge).mem_targets
  acyclic := by
    refine no_loop_of_measure f fun a ha b hedge => ?_
    obtain ⟨htype, -, rfl⟩ := hedge
    have hforward : (h a).out2 ∈ (h a).forward := by simp [NFA.forward, htype]
    exact ⟨hclosed a ha _ ((h a).forward_subset hforward), hheight a ha _ hforward⟩
  branches a ha _ := hbranches a ha
  start_mem := hstart
  start_passes := hpass
  out2_mem a ha hstop hacc := hclosed a ha _ (Leads.out2 hstop hacc).mem_targets
  no_interval := hkind
  collectables := hcount

/-- The synthesis closes no loop. -/
theorem SynthEdge.mem_forward {a b : Addr} (hedge : SynthEdge h a b) : b ∈ (h a).forward := by
  cases hedge with
  | next htype => rcases htype with ht | ht | ht | ht <;> simp [NFA.forward, ht]
  | branch ht hb => simpa [NFA.forward, ht] using hb
  | skip ht hlit | take ht hlit => simp [NFA.forward, ht, hlit]

end Recognizer
