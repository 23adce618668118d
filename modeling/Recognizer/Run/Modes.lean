import Recognizer.Load.Budget
import Recognizer.Run.Start

/-!
# The output modes make the same rounds up to the first match

The flags decide where `run_nfa` stops and what it prints, not which threads there are. Until a
thread is accepted every mode makes the same rounds; from then on the line counts as matched,
whatever follows.
-/

namespace Recognizer

variable {E : Env} {f : CtrlFlags} {fuel fuel' la : Nat} {sim sim' : NFASim}
  {c d ctrl ctrl' : NFASimCtrl} {s s' : RunState} {o : Outcome}

/-- The same program with other flags. -/
def Env.withFlags (E : Env) (f : CtrlFlags) : Env := { E with flags := f }

/-- The same program with other flags and another keyword search. -/
def Env.withOptions (E : Env) (f : CtrlFlags) (kw : Option KwSearch) : Env :=
  { E with flags := f, kw := kw }

section Options

variable {kw : Option KwSearch}

theorem cloneEach_withOptions (load : Loader) {dst : Dst} {xs : List Addr} :
    cloneEach (E.withOptions f kw) load sim dst la xs c = cloneEach E load sim dst la xs c := by
  induction xs generalizing c with
  | nil => rfl
  | cons n xs ih =>
    unfold cloneEach
    simp only [ih]
    rfl

theorem processAdjacents_withOptions (load : Loader) {dst : Dst} {n : Addr} :
    processAdjacents (E.withOptions f kw) load sim n dst la c =
      processAdjacents E load sim n dst la c := by
  unfold processAdjacents
  simp only [cloneEach_withOptions]
  rfl

theorem forEachLoop_withOptions (load : Loader) {dst : Dst} {n : Addr} {finish : Nat} :
    forEachLoop (E.withOptions f kw) load n finish sim dst la fuel c =
      forEachLoop E load n finish sim dst la fuel c := by
  induction fuel generalizing c with
  | zero => rfl
  | succ fuel ih =>
    unfold forEachLoop
    simp only [ih]
    rfl

theorem loadInterval_withOptions (load : Loader) {dst : Dst} {n : Addr} :
    loadInterval (E.withOptions f kw) load fuel sim n dst la c =
      loadInterval E load fuel sim n dst la c := by
  unfold loadInterval loadExit forEach
  simp only [forEachLoop_withOptions]
  rfl

/-- The loads look at no option. -/
theorem loadNext_withOptions (E : Env) (f : CtrlFlags) (kw : Option KwSearch) (fuel : Nat) :
    loadNext (E.withOptions f kw) fuel = loadNext E fuel := by
  induction fuel with
  | zero => rfl
  | succ fuel ih =>
    funext sim n dst la c
    unfold loadNext loadNextBody
    simp only [ih, processAdjacents_withOptions, loadInterval_withOptions]
    rfl

theorem stepAdjacents_withOptions {dst : Dst} :
    stepAdjacents (E.withOptions f kw) fuel sim dst la c =
      stepAdjacents E fuel sim dst la c := by
  unfold stepAdjacents
  rw [loadNext_withOptions]
  exact processAdjacents_withOptions _

theorem loadStartStates_withOptions :
    loadStartStates (E.withOptions f kw) fuel la c = loadStartStates E fuel la c := by
  have hone : ∀ n c, loadStartState (E.withOptions f kw) fuel la n c =
      loadStartState E fuel la n c := by
    intro n c
    unfold loadStartState
    rw [loadNext_withOptions]
    rfl
  unfold loadStartStates
  simp only [hone]
  rfl

theorem loadStartStates_withFlags :
    loadStartStates (E.withFlags f) fuel la c = loadStartStates E fuel la c :=
  show loadStartStates (E.withOptions f E.kw) fuel la c = _ from loadStartStates_withOptions

section Fold

variable (hfold : f.ignoreCase = E.flags.ignoreCase)
include hfold

theorem input_withOptions : (E.withOptions f kw).input c = E.input c := by
  unfold Env.input
  simp only [Env.withOptions, hfold]

theorem instToken_withOptions (n : NFA) :
    (E.withOptions f kw).instToken n = E.instToken n := by
  unfold Env.instToken
  simp only [Env.withOptions, hfold]

/-- A step of a thread looks at no option but the one for case folding. -/
theorem threadStep_withOptions :
    threadStep (E.withOptions f kw) fuel sim c = threadStep E fuel sim c := by
  unfold threadStep stepBackreference
  simp only [input_withOptions hfold, instToken_withOptions hfold, stepAdjacents_withOptions]
  rfl

theorem threadStep_withFlags :
    threadStep (E.withFlags f) fuel sim c = threadStep E fuel sim c :=
  show threadStep (E.withOptions f E.kw) fuel sim c = _ from threadStep_withOptions hfold

end Fold

end Options

/-- The next round steps a thread that is accepted with the span `m`. -/
def RunState.Accepts (E : Env) (s : RunState) (m : Match) : Prop :=
  ∃ sim, s.thread = some sim ∧
    (E.line.deref s.ctrl.curPos = 0 ∨ (E.heap sim.ip).type = .accepting) ∧ sim.curMatch = m

/-- Without an accepted thread no status is that of a match. -/
theorem status_ne_of_not_accepts (hheld : s.thread = some sim) (hno : ∀ m, ¬ s.Accepts E m)
    (hstep : threadStep E fuel sim s.ctrl = some (sim', ctrl')) : sim'.status ≠ 1 :=
  fun hstatus => hno _ ⟨sim, hheld, threadStep_matched hstep hstatus, rfl⟩

/-- The round of an accepted thread. -/
theorem runStep_accepts {m : Match} (h : s.Accepts E m) : ∃ sim, s.thread = some sim ∧
    sim.curMatch = m ∧ ∀ fuel, runStep E fuel s =
      some (matchCase E s (setStatus sim 1) (eraseStamp E sim s.ctrl)) := by
  obtain ⟨sim, hheld, haccepts, hspan⟩ := h
  refine ⟨sim, hheld, hspan, fun fuel => ?_⟩
  rw [runStep, hheld]
  dsimp only
  rw [innerRound, threadStep_accepts E fuel sim s.ctrl haccepts]
  rfl

/-- Nothing has been matched so far. -/
structure RunState.Blank (s : RunState) : Prop where
  curMatch : s.ctrl.curMatch = {}
  currentRun : s.currentRun = false
  matchFound : s.matchFound = false

theorem newMatch_of_blank (h : c.curMatch = {}) : newMatch E c = c := by
  rw [newMatch, h]
  exact if_neg fun hspan => hspan.2.1 rfl

/-- The restart behind an attempt without a match. -/
theorem restart_of_blank (h : s.ctrl.curMatch = {}) : restart E fuel s =
    (resetThread E fuel (updateInputPointer E s.currentRun s.inputPointer s.ctrl).1
        (beginAttempt (updateInputPointer E s.currentRun s.inputPointer s.ctrl).2
          (updateInputPointer E s.currentRun s.inputPointer s.ctrl).1)).map fun p =>
      testInput E
        ((s.moveTo (updateInputPointer E s.currentRun s.inputPointer s.ctrl).1).hold p) := by
  unfold restart
  simp only [newMatch_of_blank h, ite_self]
  split
  · next hnone =>
    rw [hnone]
    rfl
  · next p hsome =>
    rw [hsome]
    rfl

/-- A round without an accepted thread looks at no flag but the one for case folding. -/
theorem runStep_withFlags (hfold : f.ignoreCase = E.flags.ignoreCase)
    (hmatch : s.ctrl.curMatch = {}) (hno : ∀ m, ¬ s.Accepts E m) :
    runStep (E.withFlags f) fuel s = runStep E fuel s := by
  unfold runStep
  split
  · next sim hheld =>
    unfold innerRound
    rw [threadStep_withFlags hfold]
    split
    · rfl
    · next sim' ctrl' hstep =>
      have hstatus := status_ne_of_not_accepts hheld hno hstep
      rw [if_neg hstatus, if_neg hstatus]
  · unfold outerRound
    split
    · rfl
    · rw [restart_of_blank hmatch, restart_of_blank hmatch]
      unfold resetThread
      simp only [loadStartStates_withFlags]
      rfl

/-- The same holds of what comes before the loops. -/
theorem startRun_withFlags : startRun (E.withFlags f) fuel c = startRun E fuel c := by
  unfold startRun findKeywordStartPos
  simp only [loadStartStates_withFlags]
  rfl

/-- The loops are entered in the same way whatever the budget. -/
theorem startRun_unique {o' : Outcome} (h : startRun E fuel c = some o)
    (h' : startRun E fuel' c = some o') : o = o' := by
  have hmax := startRun_agrees (le_max_left fuel fuel') h
  rw [startRun_agrees (le_max_right fuel fuel') h'] at hmax
  exact (Option.some.inj hmax).symm

/-- One round leads to an outcome. -/
def RoundTo (E : Env) (s : RunState) (o : Outcome) : Prop := ∃ fuel, runStep E fuel s = some o

theorem RoundTo.unique {o' : Outcome} (h : RoundTo E s o) (h' : RoundTo E s o') : o = o' := by
  obtain ⟨fuel, h⟩ := h
  obtain ⟨fuel', h'⟩ := h'
  have hmax := runStep_agrees (le_max_left fuel fuel') h
  rw [runStep_agrees (le_max_right fuel fuel') h'] at hmax
  exact (Option.some.inj hmax).symm

/-- The rounds from an outcome end with a state. -/
inductive RunsTo (E : Env) : Outcome → RunState → Prop where
  | released (s : RunState) : RunsTo E (.released s) s
  | round {s t : RunState} {o : Outcome} (h : RoundTo E s o) (hrest : RunsTo E o t) :
    RunsTo E (.running s) t

/-- Rounds in which no thread is accepted. -/
inductive Unmatched (E : Env) : Outcome → Outcome → Prop where
  | refl (o : Outcome) : Unmatched E o o
  | round {s : RunState} {o o' : Outcome} (hno : ∀ m, ¬ s.Accepts E m) (h : RoundTo E s o)
      (hrest : Unmatched E o o') : Unmatched E (.running s) o'

theorem runsTo_of_runLoop {k : Nat} {t : RunState} (h : runLoop E fuel k o = some t) :
    RunsTo E o t := by
  induction k generalizing o with
  | zero =>
    cases o with
    | running s => cases h
    | released s =>
      obtain rfl := Option.some.inj h
      exact .released s
  | succ k ih =>
    cases o with
    | released s =>
      obtain rfl := Option.some.inj h
      exact .released s
    | running s =>
      unfold runLoop at h
      split at h
      · cases h
      · next hround => exact .round ⟨fuel, hround⟩ (ih h)

namespace RunsTo

variable {t t' : RunState} {o' : Outcome}

/-- A run goes on from every outcome it comes to. -/
theorem of_unmatched (h : RunsTo E o t) (hun : Unmatched E o o') : RunsTo E o' t := by
  induction hun with
  | refl => exact h
  | round _ hround _ ih =>
    cases h with
    | round hround' hrest =>
      obtain rfl := hround.unique hround'
      exact ih hrest

/-- A run ends without a match, or comes to the round of its first accepted thread. -/
theorem first_match (h : RunsTo E o t) : Unmatched E o (.released t) ∨
    ∃ s m, Unmatched E o (.running s) ∧ s.Accepts E m ∧ RunsTo E (.running s) t := by
  induction h with
  | released s => exact .inl (.refl _)
  | @round s t o hround hrest ih =>
    by_cases hsome : ∃ m, s.Accepts E m
    · obtain ⟨m, haccepts⟩ := hsome
      exact .inr ⟨s, m, .refl _, haccepts, .round hround hrest⟩
    · have hno : ∀ m, ¬ s.Accepts E m := fun m haccepts => hsome ⟨m, haccepts⟩
      rcases ih with hend | ⟨s', m, hun, haccepts, hrest'⟩
      · exact .inl (.round hno hround hend)
      · exact .inr ⟨s', m, .round hno hround hun, haccepts, hrest'⟩

end RunsTo

/-- A round without an accepted thread matches nothing. -/
theorem RunState.Blank.round (h : s.Blank) (hno : ∀ m, ¬ s.Accepts E m) (hround : RoundTo E s o) :
    o.state.Blank := by
  obtain ⟨fuel, hround⟩ := hround
  cases runStep_cases hround with
  | matched hheld hstep hstatus => exact absurd hstatus (status_ne_of_not_accepts hheld hno hstep)
  | failed hheld hstep _ | kept hheld hstep _ _ =>
    exact ⟨(threadStep_frame hstep).curMatch.trans h.curMatch, h.currentRun, h.matchFound⟩
  | swapped hheld hnext =>
    rw [testInput_state]
    exact ⟨h.curMatch, h.currentRun, h.matchFound⟩
  | restarted hheld hnext hrestart =>
    obtain ⟨pos, c, c', _, _, hload, rfl⟩ := restart_cases hrestart
    rw [testInput_state]
    exact ⟨(loadStartStates_frame hload).curMatch, rfl, h.matchFound⟩

/-- As long as nothing is matched, all flags lead to the same outcome. -/
theorem Unmatched.withFlags {o' : Outcome} (h : Unmatched E o o') (hblank : o.state.Blank)
    (hfold : f.ignoreCase = E.flags.ignoreCase) :
    Unmatched (E.withFlags f) o o' ∧ o'.state.Blank := by
  induction h with
  | refl => exact ⟨.refl _, hblank⟩
  | @round s o o' hno hround hrest ih =>
    obtain ⟨hrest', hblank'⟩ := ih (hblank.round hno hround)
    refine ⟨.round hno ?_ hrest', hblank'⟩
    obtain ⟨fuel, hround⟩ := hround
    exact ⟨fuel, (runStep_withFlags hfold hblank.curMatch hno).trans hround⟩

/-- A match that was found stays found. -/
theorem matchFound_round (hround : RoundTo E s o) (h : s.matchFound = true) :
    o.state.matchFound = true := by
  obtain ⟨fuel, hround⟩ := hround
  cases runStep_cases hround with
  | matched hheld hstep hstatus =>
    unfold matchCase
    dsimp only
    split
    · split
      · rfl
      · rfl
    · split
      · rfl
      · rfl
  | failed | kept => exact h
  | swapped =>
    rw [testInput_state]
    exact h
  | restarted _ _ hrestart =>
    obtain ⟨pos, c, c', _, _, _, rfl⟩ := restart_cases hrestart
    rw [testInput_state]
    exact h

theorem RunsTo.matchFound {t : RunState} (h : RunsTo E o t) (hfound : o.state.matchFound = true) :
    t.matchFound = true := by
  induction h with
  | released => exact hfound
  | round hround _ ih => exact ih (matchFound_round hround hfound)

/-- Behind the round of an accepted thread a match has been found. -/
theorem RunsTo.matchFound_of_accepts {t : RunState} {m : Match} (h : RunsTo E (.running s) t)
    (haccepts : s.Accepts E m) : t.matchFound = true := by
  cases h with
  | round hround hrest =>
    apply hrest.matchFound
    obtain ⟨sim, -, -, hmatch⟩ := runStep_accepts haccepts
    obtain ⟨fuel, hround⟩ := hround
    rw [hmatch] at hround
    obtain rfl := Option.some.inj hround
    unfold matchCase
    dsimp only
    split
    · split
      · rfl
      · rfl
    · split
      · rfl
      · rfl

/-- The loops begin with nothing matched. -/
theorem startRun_blank (hmatch : c.curMatch = {}) (h : startRun E fuel c = some o) :
    o.state.Blank := by
  obtain ⟨c₁, c₂, _, hmatch₁, _, _, hload, ho⟩ := startRun_cases h
  have hmatch₂ : c₂.curMatch = {} := by
    rcases hload with hload | ⟨rfl, -⟩
    · rw [(loadStartStates_frame hload).curMatch, hmatch₁, hmatch]
    · rw [hmatch₁, hmatch]
  rcases ho with rfl | ⟨-, rfl⟩
  · rw [testInput_state]
    exact ⟨hmatch₂, rfl, rfl⟩
  · exact ⟨hmatch₂, rfl, rfl⟩

/-- What `run_nfa` returns comes from a run of its rounds. -/
theorem runNfa_cases {value : Bool} (h : runNfa E fuel c = some (value, d)) : ∃ o t,
    startRun E fuel c = some o ∧ RunsTo E o t ∧ value = t.matchFound ∧ d = (finishRun E t).2 := by
  unfold runNfa at h
  obtain ⟨o, hstart, h⟩ := Option.bind_eq_some_iff.mp h
  obtain ⟨t, hloop, h⟩ := Option.bind_eq_some_iff.mp h
  have hfinish := Option.some.inj h
  exact ⟨o, t, hstart, runsTo_of_runLoop hloop, (congrArg Prod.fst hfinish).symm,
    (congrArg Prod.snd hfinish).symm⟩

/-- **The value of `run_nfa` does not depend on the output mode.** -/
theorem runNfa_value_withFlags {value value' : Bool} (hfold : f.ignoreCase = E.flags.ignoreCase)
    (hmatch : c.curMatch = {}) (h : runNfa E fuel c = some (value, d))
    (h' : runNfa (E.withFlags f) fuel' c = some (value', ctrl')) : value' = value := by
  obtain ⟨o, t, hstart, hruns, rfl, -⟩ := runNfa_cases h
  obtain ⟨o', t', hstart', hruns', rfl, -⟩ := runNfa_cases h'
  rw [startRun_withFlags] at hstart'
  obtain rfl := startRun_unique hstart hstart'
  have hblank := startRun_blank hmatch hstart
  rcases hruns.first_match with hun | ⟨s, m, hun, haccepts, hrest⟩
  · have hrest' := hruns'.of_unmatched (hun.withFlags hblank hfold).1
    cases hrest'
    rfl
  · have hrest' := hruns'.of_unmatched (hun.withFlags hblank hfold).1
    rw [hrest.matchFound_of_accepts haccepts, hrest'.matchFound_of_accepts haccepts]

end Recognizer
