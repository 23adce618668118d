import Recognizer.Run.Session
import Recognizer.Run.Start

/-!
# The history of a session only grows

Acquisitions and drops are recorded at the end of their lists, so the history of
a state contains that of every state before it. A property of all threads taken
in a run is therefore one property of the last state's history.
-/

namespace Recognizer

variable {E : Env} {L : Line → Prop} {fuel la : Nat} {sim sim' : NFASim} {ctrl ctrl' : NFASimCtrl}

/-- What leaves the threads as they are continues the history. -/
theorem SameThreads.extends {c d : NFASimCtrl} (h : SameThreads c d) : Extends c d :=
  .of_eq h.acquired h.dropped

namespace Extends

theorem setMatch (c : NFASimCtrl) (m : Match) : Extends c (c.setMatch m) := .of_eq rfl rfl

theorem shiftActive (c : NFASimCtrl) : Extends c c.shiftActive.2 := .of_eq rfl rfl

theorem releaseThread (c : NFASimCtrl) (sim : NFASim) :
    Extends c (Recognizer.releaseThread c sim).2 :=
  .of_eq rfl rfl

/-- A finished match takes no thread and drops none. -/
theorem newMatch (E : Env) (c : NFASimCtrl) : Extends c (Recognizer.newMatch E c) :=
  (SameThreads.newMatch E c).extends

/-- Loading the start states continues the history. -/
theorem loadStartStates (h : Recognizer.loadStartStates E fuel la ctrl = some ctrl') :
    Extends ctrl ctrl' :=
  ((frameStartRule E la ctrl).loadStartStates h).1

/-- A step of a thread continues the history: it clones, drops or waits. -/
theorem threadStep (h : Recognizer.threadStep E fuel sim ctrl = some (sim', ctrl')) :
    Extends ctrl ctrl' := by
  have herase : Extends ctrl (eraseStamp E sim ctrl) := .stamp ..
  cases threadStep_cases h with
  | matched | failed | failedBackreference => exact herase
  | waited => exact herase.trans (.append ..)
  | @loaded sim₁ dst la _ _ _ _ hload =>
    exact herase.trans ((frameRule E dst la ctrl).stepAdjacents hload).1

/-- What follows an accepted thread continues the history. -/
theorem matchCase {s : RunState} : Extends ctrl (matchCase E s sim ctrl).state.ctrl := by
  unfold Recognizer.matchCase
  simp only
  split
  · have hset := setMatch ctrl (updateLongestMatch ctrl.curMatch sim.curMatch)
    split
    · exact hset.trans (releaseThread ..)
    · exact hset.trans (newMatch ..)
  · split
    · exact releaseThread ..
    · exact refl _

/-- The part after the loops continues the history. -/
theorem finishRun (s : RunState) : Extends s.ctrl (finishRun E s).2 := by
  have hall : Extends s.ctrl (s.ctrl.releaseAllThreads s.thread) := .of_eq rfl rfl
  have hclear : ∀ c : NFASimCtrl, Extends c c.kwClearMatches := fun _ => .of_eq rfl rfl
  unfold Recognizer.finishRun
  have hnew := (hall.trans (setMatch _ ⟨s.ctrl.bufferStart, s.ctrl.bufferEnd - 1⟩)).trans
    (newMatch E _)
  simp only
  split
  · split
    · exact hnew.trans (hclear _)
    · exact hall.trans (hclear _)
  · split
    · exact hnew
    · exact hall

/-- A round continues the history. -/
theorem runStep {s : RunState} {o : Outcome} (h : Recognizer.runStep E fuel s = some o) :
    Extends s.ctrl o.state.ctrl := by
  cases runStep_cases h with
  | matched _ hstep _ => exact (threadStep hstep).trans matchCase
  | failed _ hstep _ => exact (threadStep hstep).trans (releaseThread ..)
  | kept _ hstep _ _ => exact (threadStep hstep).trans (shiftActive _)
  | swapped =>
    rw [testInput_state]
    exact .of_eq rfl rfl
  | restarted _ _ hrestart =>
    obtain ⟨pos, c, c', hsame, _, hload, rfl⟩ := restart_cases hrestart
    rw [testInput_state]
    exact ((hsame.trans (.beginAttempt ..)).extends.trans (loadStartStates hload)).trans
      (shiftActive _)

/-- The part before the loops continues the history. -/
theorem startRun {o : Outcome} (h : Recognizer.startRun E fuel ctrl = some o) :
    Extends ctrl o.state.ctrl := by
  obtain ⟨c, c', hsame, _, _, _, hload, ho⟩ := startRun_cases h
  have hc : Extends ctrl c' := by
    rcases hload with hload | ⟨rfl, _⟩
    · exact hsame.extends.trans (loadStartStates hload)
    · exact hsame.extends
  rcases ho with rfl | ⟨_, rfl⟩
  · rw [testInput_state]
    exact hc.trans (shiftActive _)
  · exact hc.trans (shiftActive _)

end Extends

/-- The control block of a phase. -/
def Phase.control : Phase → NFASimCtrl
  | .idle ctrl => ctrl
  | .busy _ o => o.state.ctrl

/-- Every step of a session continues the history. -/
theorem SimStep.extends {p q : Phase} (h : SimStep E L p q) : Extends p.control q.control := by
  cases h with
  | @start line ctrl _ _ _ h =>
    have hfresh : Extends ctrl (freshLine line ctrl) := .of_eq rfl rfl
    exact hfresh.trans (.startRun h)
  | round h => exact .runStep h
  | finish => exact .finishRun _

end Recognizer
