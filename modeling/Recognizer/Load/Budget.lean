import Recognizer.Source.Run

/-!
# A larger budget changes no result

The budgets of the loaders and of the loops stand for the stack and the time of the program. A
call that returns with one budget returns the same with every larger one, so what `run_nfa`
returns does not depend on the budget it is computed with.
-/

namespace Recognizer

variable {E : Env} {load load' : Loader} {dst : Dst} {la fuel fuel' : Nat} {n : Addr}
  {sim sim' : NFASim} {c d : NFASimCtrl}

/-- Wherever one loader returns, the other one returns the same. -/
def Loader.AgreesWith (load load' : Loader) : Prop :=
  ∀ sim n dst la c r, load sim n dst la c = some r → load' sim n dst la c = some r

/-- A budget that is larger than a successor is one itself. -/
private theorem exists_succ_of_succ_le {m n : Nat} (hle : m + 1 ≤ n) :
    ∃ k, n = k + 1 ∧ m ≤ k := by
  cases n with
  | zero => omega
  | succ k => exact ⟨k, rfl, Nat.le_of_succ_le_succ hle⟩

section Load

variable (hload : load.AgreesWith load')
include hload

/-- `thread_clone` returns the same with the larger loader. -/
theorem threadClone_agrees (h : threadClone E load n sim dst la c = some d) :
    threadClone E load' n sim dst la c = some d := by
  unfold threadClone at h ⊢
  split at h
  · next hpasses =>
    rw [if_pos hpasses]
    dsimp only at h ⊢
    split at h
    · cases h
    · next hclone =>
      rw [hload _ _ _ _ _ _ hclone]
      exact h
  · next hfails =>
    rw [if_neg hfails]
    exact h

/-- The clones for a list of nodes are the same with the larger loader. -/
theorem cloneEach_agrees {xs : List Addr} (h : cloneEach E load sim dst la xs c = some d) :
    cloneEach E load' sim dst la xs c = some d := by
  induction xs generalizing c with
  | nil => exact h
  | cons n xs ih =>
    unfold cloneEach at h ⊢
    split at h
    · cases h
    · next hclone =>
      rw [threadClone_agrees hload hclone]
      exact ih h

/-- The load of the thread itself is the same with the larger loader. -/
theorem loadAt_agrees {xs : List Addr} {i : Nat} {r : NFASim × NFASimCtrl}
    (h : loadAt load sim xs i dst la c = some r) : loadAt load' sim xs i dst la c = some r := by
  unfold loadAt at h ⊢
  split at h
  · cases h
  · exact hload _ _ _ _ _ _ h

/-- `process_adjacents` returns the same with the larger loader. -/
theorem processAdjacents_agrees {r : NFASim × NFASimCtrl}
    (h : processAdjacents E load sim n dst la c = some r) :
    processAdjacents E load' sim n dst la c = some r := by
  unfold processAdjacents at h ⊢
  dsimp only at h ⊢
  split at h
  · cases h
  · next hclones =>
    rw [cloneEach_agrees hload hclones]
    exact loadAt_agrees hload h

/-- The loop of `list_for_each` clones the same with the larger loader and budget. -/
theorem forEachLoop_agrees {finish : Nat} (hle : fuel ≤ fuel')
    (h : forEachLoop E load n finish sim dst la fuel c = some d) :
    forEachLoop E load' n finish sim dst la fuel' c = some d := by
  induction fuel generalizing fuel' c with
  | zero => cases h
  | succ fuel ih =>
    obtain ⟨k, rfl, hle'⟩ := exists_succ_of_succ_le hle
    unfold forEachLoop at h ⊢
    dsimp only at h ⊢
    split at h
    · next hout =>
      rw [if_pos hout]
      exact h
    · next hin =>
      rw [if_neg hin]
      split at h
      · next hbefore =>
        rw [if_pos hbefore]
        split at h
        · cases h
        · next hclone =>
          rw [threadClone_agrees hload hclone]
          exact ih hle' h
      · next hpast =>
        rw [if_neg hpast]
        exact h

/-- `list_for_each` clones the same for a slice of the list. -/
theorem forEach_agrees {start finish : Nat} (hle : fuel ≤ fuel')
    (h : forEach E load fuel n start finish sim dst la c = some d) :
    forEach E load' fuel' n start finish sim dst la c = some d :=
  forEachLoop_agrees hload hle h

/-- Leaving an interval is the same with the larger loader and budget. -/
theorem loadExit_agrees {r : NFASim × NFASimCtrl} (hle : fuel ≤ fuel')
    (h : loadExit E load fuel sim n dst la c = some r) :
    loadExit E load' fuel' sim n dst la c = some r := by
  unfold loadExit at h ⊢
  dsimp only at h ⊢
  split at h
  · cases h
  · next hclones =>
    rw [forEach_agrees hload hle hclones]
    exact loadAt_agrees hload h

/-- Clones for a slice, then a load at an index. -/
theorem forEach_loadAt_agrees {start finish i : Nat} {xs : List Addr} {r : NFASim × NFASimCtrl}
    (hle : fuel ≤ fuel')
    (h : (match forEach E load fuel n start finish sim dst la c with
      | none => none
      | some c => loadAt load sim' xs i dst la c) = some r) :
    (match forEach E load' fuel' n start finish sim dst la c with
      | none => none
      | some c => loadAt load' sim' xs i dst la c) = some r := by
  split at h
  · cases h
  · next hclones =>
    rw [forEach_agrees hload hle hclones]
    exact loadAt_agrees hload h

/-- Clones for a slice, then the exit of the interval. -/
theorem forEach_loadExit_agrees {start finish : Nat} {r : NFASim × NFASimCtrl}
    (hle : fuel ≤ fuel')
    (h : (match forEach E load fuel n start finish sim dst la c with
      | none => none
      | some c => loadExit E load fuel sim' n dst la c) = some r) :
    (match forEach E load' fuel' n start finish sim dst la c with
      | none => none
      | some c => loadExit E load' fuel' sim' n dst la c) = some r := by
  split at h
  · cases h
  · next hclones =>
    rw [forEach_agrees hload hle hclones]
    exact loadExit_agrees hload hle h

/-- The case of an interval is the same with the larger loader and budget. -/
theorem loadInterval_agrees {r : NFASim × NFASimCtrl} (hle : fuel ≤ fuel')
    (h : loadInterval E load fuel sim n dst la c = some r) :
    loadInterval E load' fuel' sim n dst la c = some r := by
  unfold loadInterval at h ⊢
  dsimp only at h ⊢
  split at h
  · next hmin =>
    rw [if_pos hmin]
    exact forEach_loadAt_agrees hload hle h
  · next hmin =>
    rw [if_neg hmin]
    split at h
    · next hbounded =>
      rw [if_pos hbounded]
      split at h
      · next hmore =>
        rw [if_pos hmore]
        split at h
        · next hagain =>
          rw [if_pos hagain]
          exact loadExit_agrees hload hle h
        · next hfirst =>
          rw [if_neg hfirst]
          exact forEach_loadExit_agrees hload hle h
      · next hlast =>
        rw [if_neg hlast]
        split at h
        · next hcycle =>
          rw [if_pos hcycle]
          exact forEach_loadAt_agrees hload hle h
        · next hcycle =>
          rw [if_neg hcycle]
          exact loadExit_agrees hload hle h
    · next hunbounded =>
      rw [if_neg hunbounded]
      exact forEach_loadExit_agrees hload hle h

/-- One level of `load_next` returns the same with the larger loader and budget. -/
theorem loadNextBody_agrees (hle : fuel ≤ fuel') :
    Loader.AgreesWith (loadNextBody E load fuel) (loadNextBody E load' fuel') := by
  intro sim n dst la c r h
  unfold loadNextBody at h ⊢
  dsimp only at h ⊢
  split at h
  · exact processAdjacents_agrees hload h
  · exact processAdjacents_agrees hload h
  · exact loadInterval_agrees hload hle h
  · exact h
  · exact h

end Load

/-- `load_next` returns the same with a larger budget. -/
theorem loadNext_agrees (hle : fuel ≤ fuel') :
    Loader.AgreesWith (loadNext E fuel) (loadNext E fuel') := by
  induction fuel generalizing fuel' with
  | zero =>
    intro sim n dst la c r h
    cases h
  | succ fuel ih =>
    obtain ⟨k, rfl, hle'⟩ := exists_succ_of_succ_le hle
    exact loadNextBody_agrees (ih hle') hle'

/-- The successors a step loads are the same with the larger budget. -/
theorem stepAdjacents_agrees {r : NFASim × NFASimCtrl} (hle : fuel ≤ fuel')
    (h : stepAdjacents E fuel sim dst la c = some r) :
    stepAdjacents E fuel' sim dst la c = some r :=
  processAdjacents_agrees (loadNext_agrees hle) h

/-- A step at a backreference returns the same with the larger budget. -/
theorem stepBackreference_agrees {r : NFASim × NFASimCtrl} (hle : fuel ≤ fuel')
    (h : stepBackreference E fuel sim c = some r) : stepBackreference E fuel' sim c = some r := by
  unfold stepBackreference at h ⊢
  dsimp only at h ⊢
  split at h
  · next hopen =>
    rw [if_pos hopen]
    split at h
    · next hlast =>
      rw [if_pos hlast]
      exact stepAdjacents_agrees hle h
    · next hinside =>
      rw [if_neg hinside]
      exact h
  · next hclosed =>
    rw [if_neg hclosed]
    exact h

/-- `thread_step` returns the same with a larger budget. -/
theorem threadStep_agrees {r : NFASim × NFASimCtrl} (hle : fuel ≤ fuel')
    (h : threadStep E fuel sim c = some r) : threadStep E fuel' sim c = some r := by
  unfold threadStep at h ⊢
  dsimp only at h ⊢
  split at h
  · next hinput =>
    rw [if_pos hinput]
    cases htype : (E.heap sim.ip).type with
    | any | literal | range =>
      simp only [htype] at h ⊢
      split at h
      · next hreads =>
        rw [if_pos hreads]
        exact stepAdjacents_agrees hle h
      · next hfails =>
        rw [if_neg hfails]
        exact h
    | backreference =>
      simp only [htype] at h ⊢
      exact stepBackreference_agrees hle h
    | bolAnchor | eolAnchor =>
      simp only [htype] at h ⊢
      split at h
      · next hpos =>
        rw [if_pos hpos]
        exact stepAdjacents_agrees hle h
      · next hfails =>
        rw [if_neg hfails]
        exact h
    | accepting | split | epsilon | interval | capturegrpEnd | capturegrpBegin | tree =>
      simp only [htype] at h ⊢
      exact h
  · next hinput =>
    rw [if_neg hinput]
    exact h

/-- A start state is loaded the same way with the larger budget. -/
theorem loadStartState_agrees (hle : fuel ≤ fuel') (h : loadStartState E fuel la n c = some d) :
    loadStartState E fuel' la n c = some d := by
  unfold loadStartState at h ⊢
  dsimp only at h ⊢
  split at h
  · next hrange =>
    rw [if_pos hrange]
    exact h
  · next hother =>
    rw [if_neg hother]
    split at h
    · cases h
    · next hload =>
      rw [loadNext_agrees hle _ _ _ _ _ _ hload]
      exact h

/-- `load_start_states` returns the same with the larger budget. -/
theorem loadStartStates_agrees (hle : fuel ≤ fuel') (h : loadStartStates E fuel la c = some d) :
    loadStartStates E fuel' la c = some d := by
  unfold loadStartStates at h ⊢
  generalize (E.heap E.startState).reachable = nodes at h ⊢
  induction nodes generalizing c with
  | nil => exact h
  | cons n nodes ih =>
    rw [List.foldlM_cons] at h ⊢
    obtain ⟨c', hone, hrest⟩ := Option.bind_eq_some_iff.mp h
    exact Option.bind_eq_some_iff.mpr ⟨c', loadStartState_agrees hle hone, ih hrest⟩

variable {s s' : RunState} {o : Outcome}

/-- `reset_thread` returns the same with the larger budget. -/
theorem resetThread_agrees {p : Option NFASim × NFASimCtrl} (hle : fuel ≤ fuel')
    (h : resetThread E fuel la c = some p) : resetThread E fuel' la c = some p := by
  unfold resetThread at h ⊢
  split at h
  · cases h
  · next hpool =>
    obtain ⟨d, hload, hshift⟩ := Option.map_eq_some_iff.mp h
    rw [if_neg hpool, loadStartStates_agrees hle hload, Option.map_some, hshift]

/-- A new attempt starts the same way with the larger budget. -/
theorem restart_agrees (hle : fuel ≤ fuel') (h : restart E fuel s = some o) :
    restart E fuel' s = some o := by
  unfold restart at h ⊢
  dsimp only at h ⊢
  split at h
  · cases h
  · next hreset =>
    rw [resetThread_agrees hle hreset]
    exact h

/-- A round of `run_nfa` leads to the same with a larger budget. -/
theorem runStep_agrees (hle : fuel ≤ fuel') (h : runStep E fuel s = some o) :
    runStep E fuel' s = some o := by
  unfold runStep at h ⊢
  split at h
  · unfold innerRound at h ⊢
    split at h
    · cases h
    · next hstep =>
      rw [threadStep_agrees hle hstep]
      exact h
  · unfold outerRound at h ⊢
    split at h
    · next hnext =>
      rw [if_pos hnext]
      exact h
    · next hnext =>
      rw [if_neg hnext]
      exact restart_agrees hle h

/-- A run starts the same way with the larger budget. -/
theorem startRun_agrees (hle : fuel ≤ fuel') (h : startRun E fuel c = some o) :
    startRun E fuel' c = some o := by
  unfold startRun at h ⊢
  dsimp only at h ⊢
  split at h
  · unfold findKeywordStartPos at h ⊢
    dsimp only at h ⊢
    split at h
    · cases h
    · next hfind =>
      split at hfind
      · next hnone =>
        rw [if_pos hnone]
        obtain rfl := Option.some.inj hfind
        exact h
      · next hsome =>
        rw [if_neg hsome]
        split at hfind
        · cases hfind
        · rw [loadStartStates_agrees hle hfind]
          exact h
  · split at h
    · cases h
    · next hload =>
      rw [loadStartStates_agrees hle hload]
      exact h

/-- The loops end in the same state with the larger budgets, by induction on the rounds. -/
theorem runLoop_agrees {k k' : Nat} (hle : fuel ≤ fuel') (hrounds : k ≤ k')
    (h : runLoop E fuel k o = some s) : runLoop E fuel' k' o = some s := by
  induction k generalizing k' o with
  | zero =>
    cases o with
    | running t => cases h
    | released t =>
      cases k' with
      | zero => exact h
      | succ k' => exact h
  | succ k ih =>
    obtain ⟨j, rfl, hle'⟩ := exists_succ_of_succ_le hrounds
    cases o with
    | released t => exact h
    | running t =>
      unfold runLoop at h ⊢
      split at h
      · cases h
      · next hround =>
        rw [runStep_agrees hle hround]
        exact ih hle' h

/-- **`run_nfa` returns the same with every larger budget.** -/
theorem runNfa_agrees {r : Bool × NFASimCtrl} (hle : fuel ≤ fuel')
    (h : runNfa E fuel c = some r) : runNfa E fuel' c = some r := by
  unfold runNfa at h ⊢
  obtain ⟨o, hstart, h⟩ := Option.bind_eq_some_iff.mp h
  obtain ⟨s, hloop, h⟩ := Option.bind_eq_some_iff.mp h
  refine Option.bind_eq_some_iff.mpr ⟨o, startRun_agrees hle hstart, ?_⟩
  exact Option.bind_eq_some_iff.mpr ⟨s, runLoop_agrees hle hle hloop, h⟩

end Recognizer
