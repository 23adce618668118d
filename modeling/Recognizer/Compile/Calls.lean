import Recognizer.Compile.Expansion

/-!
# The calls `collect_adjacencies` makes

Each call of `collect_adjacencies_helper` is made on the heap the calls before it left,
once they have returned. The calls of a run are those its loops come to that way, and
the run returns exactly when each of them does.
-/

namespace Recognizer

variable {h h' g : Heap} {v current start : Addr} {fuel fuel' total i : Nat}
  {l rest : List Addr} {p : Parser}

/-- A call of the helper by `collect_adjacencies`: no node is forbidden, and the counter
`recursion` is zero. -/
structure HelperCall where
  current : Addr
  visiting : Addr
  heap : Heap

/-- The call returns and leaves a heap. -/
def HelperCall.Returns (c : HelperCall) (h' : Heap) : Prop :=
  ∃ fuel, collectAdjacenciesHelper fuel c.current c.visiting 0 0 c.heap = some h'

/-- The recursion of the call comes to an end. -/
def HelperCall.Finite (c : HelperCall) : Prop := ∃ h', c.Returns h'

/-- The calls for a newly found node; the second of two is made when the first has
returned. -/
inductive NodeCall (v : Addr) (h : Heap) : HelperCall → Prop where
  | body (htype : (h v).type = .interval) : NodeCall v h ⟨v, (h v).out1, setVisited h v true⟩
  | exit {g : Heap} (htype : (h v).type = .interval)
      (hbody : HelperCall.Returns ⟨v, (h v).out1, setVisited h v true⟩ g) :
    NodeCall v h ⟨v, (g v).out2, stashList g v⟩
  | left (htype : (h v).type = .split) : NodeCall v h ⟨v, (h v).out1, setVisited h v true⟩
  | right {g : Heap} (htype : (h v).type = .split)
      (hleft : HelperCall.Returns ⟨v, (h v).out1, setVisited h v true⟩ g) :
    NodeCall v h ⟨v, (g v).out2, g⟩
  | next (hint : (h v).type ≠ .interval) (hsplit : (h v).type ≠ .split) :
    NodeCall v h ⟨v, (h v).out2, setVisited h v true⟩

/-- The states of the loops: the next round, the current node, what is left of its
list, the work list and the heap. -/
inductive LoopState (p : Parser) (start : Addr) (total : Nat) :
    Nat → Addr → List Addr → List Addr → Heap → Prop where
  | begin {h : Heap} (hwalk : HelperCall.Returns ⟨start, start, p.ctrl.heap⟩ h) :
    LoopState p start total 0 start [] (p.branchStack ++ [start]) h
  | round {i : Nat} {current : Addr} {l : List Addr} {h : Heap}
      (hs : LoopState p start total i current [] l h) (hi : i < l.length) (htotal : i ≤ total) :
    LoopState p start total (i + 1) (l.getD i 0) (h (l.getD i 0)).reachable l h
  | known {i : Nat} {current v : Addr} {rest l : List Addr} {h : Heap}
      (hs : LoopState p start total i current (v :: rest) l h) (hdone : (h v).doneFlag = true) :
    LoopState p start total i current rest l h
  | noted {i : Nat} {current v : Addr} {rest l : List Addr} {h : Heap}
      (hs : LoopState p start total i current (v :: rest) l h) (hdone : (h v).doneFlag = false)
      (hskip : ¬ (current ≠ v ∧ (h v).type ≠ .accepting)) :
    LoopState p start total i current rest l (setDone h v)
  | found {i : Nat} {current v : Addr} {rest l : List Addr} {h g : Heap}
      (hs : LoopState p start total i current (v :: rest) l h) (hdone : (h v).doneFlag = false)
      (hnew : current ≠ v ∧ (h v).type ≠ .accepting)
      (hexp : ∃ fuel, expandNode fuel v (setDone h v) = some g) :
    LoopState p start total i current rest (l ++ [v]) g

/-- The calls of a run of `collect_adjacencies`. -/
inductive CallMade (p : Parser) (start : Addr) (total : Nat) : HelperCall → Prop where
  | first : CallMade p start total ⟨start, start, p.ctrl.heap⟩
  | node {i : Nat} {current v : Addr} {rest l : List Addr} {h : Heap} {c : HelperCall}
      (hs : LoopState p start total i current (v :: rest) l h) (hdone : (h v).doneFlag = false)
      (hnew : current ≠ v ∧ (h v).type ≠ .accepting) (hc : NodeCall v (setDone h v) c) :
    CallMade p start total c

/-- The calls of `collect_adjacencies_helper` that `collect_adjacencies` makes, in their
order; the pattern tables computed after the first change no node. -/
def collectWalks (fuel : Nat) (p : Parser) (start : Addr) (total : Nat) :
    Option (List Addr × Heap) := do
  let h ← collectAdjacenciesHelper fuel start start 0 0 p.ctrl.heap
  expandAll fuel total (total + 2) 0 (p.branchStack ++ [start]) h

/-- Computing the pattern tables between them changes no node. -/
theorem collectWalks_of_collectAdjacencies {p' : Parser}
    (hrun : collectAdjacencies fuel p start total = some p') :
    collectWalks fuel p start total = some (p'.branchStack, p'.ctrl.heap) := by
  simp only [collectAdjacencies, Option.bind_eq_bind, Option.bind_eq_some_iff] at hrun
  obtain ⟨h₁, hwalk, s, -, ⟨l, h₂⟩, hall, hrun⟩ := hrun
  cases hrun
  simp only [collectWalks, Option.bind_eq_bind, Option.bind_eq_some_iff]
  exact ⟨h₁, hwalk, hall⟩

theorem HelperCall.Returns.unique {c : HelperCall} (h₁ : c.Returns h) (h₂ : c.Returns h') :
    h = h' := by
  obtain ⟨fuel₁, h₁⟩ := h₁
  obtain ⟨fuel₂, h₂⟩ := h₂
  have hmax := collectAdjacenciesHelper_le (le_max_left fuel₁ fuel₂) h₁
  rwa [collectAdjacenciesHelper_le (le_max_right fuel₁ fuel₂) h₂, Option.some.injEq,
    eq_comm] at hmax

/-- A larger budget does not change how a node is expanded. -/
theorem expandNode_le (hle : fuel ≤ fuel') (hrun : expandNode fuel v h = some h') :
    expandNode fuel' v h = some h' := by
  by_cases hint : (h v).type = .interval
  · rw [expandNode_interval hint] at hrun ⊢
    simp only [Option.bind_eq_some_iff, Option.map_eq_some_iff] at hrun ⊢
    obtain ⟨g, hleft, g', hright, rfl⟩ := hrun
    exact ⟨g, collectAdjacenciesHelper_le hle hleft, g', collectAdjacenciesHelper_le hle hright,
      rfl⟩
  by_cases hsplit : (h v).type = .split
  · rw [expandNode_split hsplit] at hrun ⊢
    simp only [Option.bind_eq_some_iff, Option.map_eq_some_iff] at hrun ⊢
    obtain ⟨g, hleft, g', hright, rfl⟩ := hrun
    exact ⟨g, collectAdjacenciesHelper_le hle hleft, g', collectAdjacenciesHelper_le hle hright,
      rfl⟩
  · rw [expandNode_other hint hsplit, Option.map_eq_some_iff] at hrun ⊢
    obtain ⟨g, hwalk, rfl⟩ := hrun
    exact ⟨g, collectAdjacenciesHelper_le hle hwalk, rfl⟩

theorem walkFrom_le {h₀ : Heap} {n : Addr} (hle : fuel ≤ fuel')
    (hrun : walkFrom fuel h₀ start n = some g) : walkFrom fuel' h₀ start n = some g := by
  unfold walkFrom at hrun ⊢
  split
  · rename_i hstart
    rw [if_pos hstart] at hrun
    exact collectAdjacenciesHelper_le hle hrun
  · rename_i hstart
    rw [if_neg hstart] at hrun
    exact expandNode_le hle hrun

/-- The lists of the work list do not depend on the budget. -/
theorem Spread.mono {h₀ : Heap} (hx : Spread fuel h₀ start l h) (hle : fuel ≤ fuel') :
    Spread fuel' h₀ start l h := by
  have hsame : ∀ a ∈ l, walkFrom fuel' h₀ start a = walkFrom fuel h₀ start a := fun a ha => by
    obtain ⟨g, hg⟩ := Option.isSome_iff_exists.mp (hx.walked a ha)
    rw [hg, walkFrom_le hle hg]
  refine { hx with walked := fun a ha => ?_, lists := fun a ha => ?_ }
  · rw [hsame a ha]
    exact hx.walked a ha
  · rw [adjacents, hsame a ha]
    exact hx.lists a ha

theorem expandReachable_le {r : List Addr × Heap} (hle : fuel ≤ fuel')
    (hrun : expandReachable fuel current rest l h = some r) :
    expandReachable fuel' current rest l h = some r := by
  induction rest generalizing l h with
  | nil => exact hrun
  | cons v rest ih =>
    rw [expandReachable] at hrun ⊢
    split at hrun
    · rename_i hdone
      rw [if_pos hdone]
      exact ih hrun
    · rename_i hdone
      rw [if_neg hdone]
      dsimp only at hrun ⊢
      split at hrun
      · rename_i hnew
        rw [if_pos hnew]
        simp only [Option.bind_eq_bind, Option.bind_eq_some_iff] at hrun ⊢
        obtain ⟨g, hexp, hrun⟩ := hrun
        exact ⟨g, expandNode_le hle hexp, ih hrun⟩
      · rename_i hnew
        rw [if_neg hnew]
        exact ih hrun

theorem expandAll_le {k : Nat} {r : List Addr × Heap} (hle : fuel ≤ fuel')
    (hrun : expandAll fuel total k i l h = some r) : expandAll fuel' total k i l h = some r := by
  induction k generalizing i l h with
  | zero => simp [expandAll] at hrun
  | succ k ih =>
    rw [expandAll] at hrun ⊢
    split at hrun
    · rename_i hend
      rwa [if_pos hend]
    · rename_i hend
      rw [if_neg hend]
      simp only [Option.bind_eq_bind, Option.bind_eq_some_iff] at hrun ⊢
      obtain ⟨q, hstep, hrun⟩ := hrun
      exact ⟨q, expandReachable_le hle hstep, ih hrun⟩

/-- A node is expanded exactly when the calls for it return. -/
theorem expandNode_finite_iff :
    (∃ fuel g, expandNode fuel v h = some g) ↔ ∀ c, NodeCall v h c → c.Finite := by
  constructor
  · rintro ⟨fuel, g, hrun⟩ c hc
    cases hc with
    | body htype =>
      rw [expandNode_interval htype] at hrun
      simp only [Option.bind_eq_some_iff, Option.map_eq_some_iff] at hrun
      obtain ⟨g₁, hleft, -⟩ := hrun
      exact ⟨g₁, fuel, hleft⟩
    | exit htype hbody =>
      rw [expandNode_interval htype] at hrun
      simp only [Option.bind_eq_some_iff, Option.map_eq_some_iff] at hrun
      obtain ⟨g₁, hleft, g₂, hright, -⟩ := hrun
      rw [hbody.unique ⟨fuel, hleft⟩]
      exact ⟨g₂, fuel, hright⟩
    | left htype =>
      rw [expandNode_split htype] at hrun
      simp only [Option.bind_eq_some_iff, Option.map_eq_some_iff] at hrun
      obtain ⟨g₁, hleft, -⟩ := hrun
      exact ⟨g₁, fuel, hleft⟩
    | right htype hleft' =>
      rw [expandNode_split htype] at hrun
      simp only [Option.bind_eq_some_iff, Option.map_eq_some_iff] at hrun
      obtain ⟨g₁, hleft, g₂, hright, -⟩ := hrun
      rw [hleft'.unique ⟨fuel, hleft⟩]
      exact ⟨g₂, fuel, hright⟩
    | next hint hsplit =>
      rw [expandNode_other hint hsplit, Option.map_eq_some_iff] at hrun
      obtain ⟨g₁, hwalk, -⟩ := hrun
      exact ⟨g₁, fuel, hwalk⟩
  · intro hall
    by_cases hint : (h v).type = .interval
    · obtain ⟨g₁, hbody⟩ := hall _ (.body hint)
      obtain ⟨g₂, fuel₂, hright⟩ := hall _ (.exit hint hbody)
      obtain ⟨fuel₁, hleft⟩ := hbody
      refine ⟨max fuel₁ fuel₂, setVisited (restoreList g₂ v (g₁ v).reachable) v false, ?_⟩
      rw [expandNode_interval hint, collectAdjacenciesHelper_le (le_max_left _ _) hleft,
        Option.bind_some, collectAdjacenciesHelper_le (le_max_right _ _) hright, Option.map_some]
    by_cases hsplit : (h v).type = .split
    · obtain ⟨g₁, hfirst⟩ := hall _ (.left hsplit)
      obtain ⟨g₂, fuel₂, hright⟩ := hall _ (.right hsplit hfirst)
      obtain ⟨fuel₁, hleft⟩ := hfirst
      refine ⟨max fuel₁ fuel₂, setVisited g₂ v false, ?_⟩
      rw [expandNode_split hsplit, collectAdjacenciesHelper_le (le_max_left _ _) hleft,
        Option.bind_some, collectAdjacenciesHelper_le (le_max_right _ _) hright, Option.map_some]
    · obtain ⟨g₁, fuel, hwalk⟩ := hall _ (.next hint hsplit)
      refine ⟨fuel, setVisited g₁ v false, ?_⟩
      rw [expandNode_other hint hsplit, hwalk, Option.map_some]

/-- The rest of a run: what is left of the current list, then the rounds still to come. -/
def remainingRun (fuel total k i : Nat) (current : Addr) (rest l : List Addr) (h : Heap) :
    Option (List Addr × Heap) :=
  (expandReachable fuel current rest l h).bind fun r => expandAll fuel total k i r.1 r.2

theorem remainingRun_known {k : Nat} (hdone : (h v).doneFlag = true) :
    remainingRun fuel total k i current (v :: rest) l h =
      remainingRun fuel total k i current rest l h := by
  rw [remainingRun, expandReachable, if_pos hdone, remainingRun]

theorem remainingRun_noted {k : Nat} (hdone : (h v).doneFlag = false)
    (hskip : ¬ (current ≠ v ∧ (h v).type ≠ .accepting)) :
    remainingRun fuel total k i current (v :: rest) l h =
      remainingRun fuel total k i current rest l (setDone h v) := by
  have htype : (setDone h v v).type = (h v).type := (sameGraph_setDone h v).type v
  rw [remainingRun, expandReachable, if_neg (by simp [hdone])]
  dsimp only
  rw [if_neg (by rwa [htype]), remainingRun]

theorem remainingRun_found {k : Nat} (hdone : (h v).doneFlag = false)
    (hnew : current ≠ v ∧ (h v).type ≠ .accepting) :
    remainingRun fuel total k i current (v :: rest) l h =
      (expandNode fuel v (setDone h v)).bind fun g =>
        remainingRun fuel total k i current rest (l ++ [v]) g := by
  have htype : (setDone h v v).type = (h v).type := (sameGraph_setDone h v).type v
  rw [remainingRun, expandReachable, if_neg (by simp [hdone])]
  dsimp only
  rw [if_pos (by rwa [htype])]
  simp only [Option.bind_eq_bind, Option.bind_assoc, remainingRun]

theorem remainingRun_round {k : Nat} (hi : i < l.length) (htotal : i ≤ total) :
    remainingRun fuel total (k + 1) i current [] l h =
      remainingRun fuel total k (i + 1) (l.getD i 0) (h (l.getD i 0)).reachable l h := by
  rw [remainingRun, expandReachable, Option.bind_some, expandAll]
  dsimp only
  rw [if_neg (by omega)]
  rfl

theorem remainingRun_le {k : Nat} {r : List Addr × Heap} (hle : fuel ≤ fuel')
    (hrun : remainingRun fuel total k i current rest l h = some r) :
    remainingRun fuel' total k i current rest l h = some r := by
  rw [remainingRun, Option.bind_eq_some_iff] at hrun ⊢
  obtain ⟨q, hstep, hrun⟩ := hrun
  exact ⟨q, expandReachable_le hle hstep, expandAll_le hle hrun⟩

/-- From every state that a run which returns comes to, the rest of the run returns. -/
theorem LoopState.runs {r : List Addr × Heap} (hrun : collectWalks fuel p start total = some r)
    (hs : LoopState p start total i current rest l h) :
    ∃ k, remainingRun fuel total k i current rest l h = some r := by
  induction hs with
  | begin hwalk =>
    simp only [collectWalks, Option.bind_eq_bind, Option.bind_eq_some_iff] at hrun
    obtain ⟨h₁, hwalk', hall⟩ := hrun
    rw [hwalk.unique ⟨fuel, hwalk'⟩]
    exact ⟨total + 2, hall⟩
  | round _ hi htotal ih =>
    obtain ⟨k, hk⟩ := ih
    cases k with
    | zero => simp [remainingRun, expandReachable, expandAll] at hk
    | succ k => exact ⟨k, remainingRun_round hi htotal ▸ hk⟩
  | known _ hdone ih =>
    obtain ⟨k, hk⟩ := ih
    exact ⟨k, remainingRun_known hdone ▸ hk⟩
  | noted _ hdone hskip ih =>
    obtain ⟨k, hk⟩ := ih
    exact ⟨k, remainingRun_noted hdone hskip ▸ hk⟩
  | found _ hdone hnew hexp ih =>
    obtain ⟨k, hk⟩ := ih
    rw [remainingRun_found hdone hnew, Option.bind_eq_some_iff] at hk
    obtain ⟨g₁, hexp₁, hk⟩ := hk
    obtain ⟨fuel', hexp⟩ := hexp
    have hmax := expandNode_le (le_max_left fuel fuel') hexp₁
    rw [expandNode_le (le_max_right fuel fuel') hexp, Option.some.injEq] at hmax
    exact ⟨k, hmax ▸ hk⟩

/-- When the calls for its nodes are finite, a round comes to the end of its list. -/
theorem LoopState.returns_of_nil (hall : ∀ c, CallMade p start total c → c.Finite) {k : Nat}
    (hnil : ∀ l h, LoopState p start total i current [] l h →
      ∃ fuel r, remainingRun fuel total k i current [] l h = some r)
    (hs : LoopState p start total i current rest l h) :
    ∃ fuel r, remainingRun fuel total k i current rest l h = some r := by
  induction rest generalizing l h with
  | nil => exact hnil l h hs
  | cons v rest ih =>
    cases hdone : (h v).doneFlag with
    | true =>
      obtain ⟨fuel, r, hrun⟩ := ih (hs.known hdone)
      exact ⟨fuel, r, (remainingRun_known hdone).trans hrun⟩
    | false =>
      by_cases hnew : current ≠ v ∧ (h v).type ≠ .accepting
      · obtain ⟨fuel₁, g, hexp⟩ :=
          expandNode_finite_iff.mpr fun c hc => hall c (.node hs hdone hnew hc)
        obtain ⟨fuel₂, r, hrun⟩ := ih (hs.found hdone hnew ⟨fuel₁, hexp⟩)
        refine ⟨max fuel₁ fuel₂, r, ?_⟩
        rw [remainingRun_found hdone hnew, expandNode_le (le_max_left _ _) hexp, Option.bind_some]
        exact remainingRun_le (le_max_right _ _) hrun
      · obtain ⟨fuel, r, hrun⟩ := ih (hs.noted hdone hnew)
        exact ⟨fuel, r, (remainingRun_noted hdone hnew).trans hrun⟩

/-- When every call of a run is finite, the run returns from each state it comes to; by
induction on the rounds that are left. -/
theorem LoopState.returns (hall : ∀ c, CallMade p start total c → c.Finite) {k : Nat}
    (hk : total + 1 ≤ k + i) (hs : LoopState p start total i current rest l h) :
    ∃ fuel r, remainingRun fuel total (k + 1) i current rest l h = some r := by
  induction k generalizing i current rest l h with
  | zero =>
    refine hs.returns_of_nil hall fun l h _ => ⟨0, (l, h), ?_⟩
    rw [remainingRun, expandReachable, Option.bind_some, expandAll, if_pos (by omega)]
  | succ k ih =>
    refine hs.returns_of_nil hall fun l h hs => ?_
    by_cases hend : l.length ≤ i ∨ total < i
    · refine ⟨0, (l, h), ?_⟩
      rw [remainingRun, expandReachable, Option.bind_some, expandAll, if_pos hend]
    · obtain ⟨hi, htotal⟩ := not_or.mp hend
      rw [not_le] at hi
      rw [not_lt] at htotal
      obtain ⟨fuel, r, hrun⟩ := ih (by omega) (hs.round hi htotal)
      exact ⟨fuel, r, (remainingRun_round hi htotal).trans hrun⟩

/-- **Runs that return**: the calls of a run return exactly when each of them is finite. -/
theorem collectWalks_finite_iff :
    (∃ fuel r, collectWalks fuel p start total = some r) ↔
      ∀ c, CallMade p start total c → c.Finite := by
  constructor
  · rintro ⟨fuel, r, hrun⟩ c hc
    cases hc with
    | first =>
      simp only [collectWalks, Option.bind_eq_bind, Option.bind_eq_some_iff] at hrun
      obtain ⟨h₁, hwalk, -⟩ := hrun
      exact ⟨h₁, fuel, hwalk⟩
    | node hs hdone hnew hc =>
      obtain ⟨k, hk⟩ := hs.runs hrun
      rw [remainingRun_found hdone hnew, Option.bind_eq_some_iff] at hk
      obtain ⟨g, hexp, -⟩ := hk
      exact expandNode_finite_iff.mp ⟨fuel, g, hexp⟩ c hc
  · intro hall
    obtain ⟨h₁, fuel₁, hwalk⟩ := hall _ .first
    obtain ⟨fuel₂, r, hrun⟩ :=
      (LoopState.begin ⟨fuel₁, hwalk⟩).returns hall (k := total + 1) (Nat.le_refl _)
    refine ⟨max fuel₁ fuel₂, r, ?_⟩
    simp only [collectWalks, Option.bind_eq_bind, Option.bind_eq_some_iff]
    exact ⟨h₁, collectAdjacenciesHelper_le (le_max_left _ _) hwalk,
      remainingRun_le (le_max_right _ _) hrun⟩

end Recognizer
