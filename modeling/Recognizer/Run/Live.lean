import Recognizer.Run.Session
import Recognizer.Run.Start

/-!
# Invariants of the live threads

A property that every step hands on from the threads that wait and the thread
that is stepped to the threads that wait afterwards, and that holds of the start
states' threads, holds of every live thread of a run. The threads that wait stay
what they are until they are stepped.
-/

namespace Recognizer

open TransitionSystem

variable {E : Env} {L : Line → Prop} {fuel la : Nat} {sim sim' t : NFASim}
  {ctrl ctrl' : NFASimCtrl} {P : NFASim → Prop}

/-- All threads in the run lists have the property. -/
def AllQueued (P : NFASim → Prop) (c : NFASimCtrl) : Prop :=
  ∀ sim ∈ c.activeThreads ++ c.nextThreads, P sim

namespace AllQueued

theorem append (h : AllQueued P ctrl) (dst : Dst) (hs : P sim) :
    AllQueued P (ctrl.append dst sim) := by
  intro t ht
  have ht' : t ∈ ctrl.activeThreads ++ ctrl.nextThreads ∨ t = sim := by
    cases dst with
    | active | next =>
      simp only [NFASimCtrl.append, List.mem_append, List.mem_singleton] at ht ⊢
      tauto
  rcases ht' with hold | rfl
  · exact h t hold
  · exact hs

theorem of_same {c d : NFASimCtrl} (h : AllQueued P c) (hsame : SameThreads c d) :
    AllQueued P d := by
  intro t ht
  rw [hsame.activeThreads, hsame.nextThreads] at ht
  exact h t ht

theorem nil (hactive : ctrl.activeThreads = []) (hnext : ctrl.nextThreads = []) :
    AllQueued P ctrl := by
  intro t ht
  rw [hactive, hnext] at ht
  simp at ht

end AllQueued

/-- What every step and every load of the start states preserve of the threads. -/
structure LiveRule (E : Env) (P : NFASim → Prop) : Prop where
  step : ∀ {line fuel sim ctrl sim' ctrl'}, P sim → AllQueued P ctrl →
    threadStep (E.onLine line) fuel sim ctrl = some (sim', ctrl') → AllQueued P ctrl'
  start : ∀ {line fuel la ctrl ctrl'}, AllQueued P ctrl →
    loadStartStates (E.onLine line) fuel la ctrl = some ctrl' → AllQueued P ctrl'

/-- What holds of the phases of a session that follows the rule. -/
def LiveInv (P : NFASim → Prop) : Phase → Prop
  | .idle ctrl => ctrl.activeThreads = [] ∧ ctrl.nextThreads = []
  | .busy _ (.running s) => ∀ sim ∈ s.live, P sim
  | .busy _ (.released _) => True

namespace LiveRule

/-- Going on with the first active thread, whatever else the control block got. -/
private theorem hold {line : Line} {s : RunState} {c : NFASimCtrl} (c' : NFASimCtrl)
    (h : AllQueued P c) (hactive : c'.activeThreads = c.activeThreads)
    (hnext : c'.nextThreads = c.nextThreads) :
    LiveInv P (.busy line (.running (s.hold c'.shiftActive))) := by
  intro sim hsim
  rw [mem_live_hold_shiftActive, hactive, hnext] at hsim
  exact h sim hsim

private theorem testInput {line : Line} {s : RunState} (h : ∀ sim ∈ s.live, P sim) :
    LiveInv P (.busy line (testInput (E.onLine line) s)) := by
  unfold Recognizer.testInput
  split
  · exact h
  · trivial

private theorem startRun (rule : LiveRule E P) {line : Line} {o : Outcome}
    (hidle : LiveInv P (.idle ctrl))
    (h : startRun (E.onLine line) fuel (freshLine line ctrl) = some o) :
    LiveInv P (.busy line o) := by
  obtain ⟨c, c', hsame, _, _, _, hload, ho⟩ := startRun_cases h
  have hfresh : AllQueued P (freshLine line ctrl) := .nil hidle.1 hidle.2
  have hc' : AllQueued P c' := by
    rcases hload with hload | ⟨rfl, _⟩
    · exact rule.start (hfresh.of_same hsame) hload
    · exact hfresh.of_same hsame
  rcases ho with rfl | ⟨_, rfl⟩
  · exact testInput fun sim hsim => hc' sim (mem_live_enterLoops.mp hsim)
  · trivial

private theorem runStep (rule : LiveRule E P) {line : Line} {s : RunState} {o : Outcome}
    (hi : ∀ sim ∈ s.live, P sim) (h : runStep (E.onLine line) fuel s = some o) :
    LiveInv P (.busy line o) := by
  have hlists : AllQueued P s.ctrl := fun sim hsim =>
    hi sim (by simpa [RunState.live, or_assoc] using Or.inr (by simpa using hsim))
  have hstepped : ∀ {sim sim' ctrl'}, s.thread = some sim →
      threadStep (E.onLine line) fuel sim s.ctrl = some (sim', ctrl') → AllQueued P ctrl' :=
    fun hheld hstep => rule.step (hi _ (by simp [RunState.live, hheld])) hlists hstep
  cases runStep_cases h with
  | @matched sim sim' ctrl' hheld hstep _ =>
    have hlists' := hstepped hheld hstep
    unfold matchCase
    simp only
    split
    · split
      · exact hold ((ctrl'.setMatch _).release sim') hlists' rfl rfl
      · trivial
    · split
      · exact hold (ctrl'.release sim') hlists' rfl rfl
      · trivial
  | @failed sim sim' ctrl' hheld hstep _ =>
    exact hold (ctrl'.release sim') (hstepped hheld hstep) rfl rfl
  | kept hheld hstep _ _ => exact hold _ (hstepped hheld hstep) rfl rfl
  | swapped hheld hnext =>
    refine testInput fun sim hsim => hlists sim ?_
    cases hwait : s.ctrl.nextThreads with
    | nil => exact absurd hwait hnext
    | cons t rest =>
      simp only [RunState.live, RunState.hold, hwait, List.head?_cons, Option.toList_some,
        List.tail_cons, List.append_nil, List.singleton_append, List.mem_cons] at hsim
      simp [hsim]
  | restarted _ _ hrestart =>
    obtain ⟨pos, c, c', hsame, _, hload, rfl⟩ := restart_cases hrestart
    have hc := hlists.of_same (hsame.trans (.beginAttempt c pos))
    exact testInput fun sim hsim =>
      rule.start hc hload sim (mem_live_hold_shiftActive.mp hsim)

/-- Every live thread of every state of a session has the property. -/
theorem live (rule : LiveRule E P) {line : Line} {s : RunState} (hreach : Reaches E L line s) :
    ∀ sim ∈ s.live, P sim := by
  have hinv : LiveInv P (.busy line (.running s)) := by
    refine hreach.invariant ?_ fun p q hi h => ?_
    · rintro p rfl
      exact ⟨rfl, rfl⟩
    · cases h with
      | start _ h => exact rule.startRun hi h
      | round h => exact rule.runStep hi h
      | finish => exact finishRun_lists _
  exact hinv

end LiveRule

/-- Loads append to the run lists. -/
theorem appendRule (E : Env) (dst : Dst) (la : Nat) (c : NFASimCtrl) :
    LoadRule E dst la (fun _ => True)
      (fun d => c.activeThreads <+: d.activeThreads ∧ c.nextThreads <+: d.nextThreads)
      (fun _ _ => True) (fun _ => True) where
  mono _ _ := trivial
  clone _ hi _ := ⟨trivial, hi⟩
  release _ _ hi _ := hi
  cursor _ _ hi _ := hi
  intervalPos _ hi _ := hi
  groupBegin _ _ _ _ := trivial
  groupEnd _ _ _ _ := trivial
  interval _ _ _ _ _ _ _ := trivial
  accepting _ _ hi _ := ⟨⟨hi.1.trans (List.prefix_append ..), hi.2⟩, trivial⟩
  queue := by
    intro sim nfa ctrl _ _ _ _ _ hi _ _ _
    refine ⟨?_, trivial⟩
    cases dst with
    | active => exact ⟨hi.1.trans (List.prefix_append ..), hi.2⟩
    | next => exact ⟨hi.1, hi.2.trans (List.prefix_append ..)⟩
  mismatch _ := trivial
  drop _ hi _ _ _ := hi

/-- A step leaves the threads that wait in their lists. -/
theorem threadStep_appends (h : threadStep E fuel sim ctrl = some (sim', ctrl')) :
    ctrl.activeThreads <+: ctrl'.activeThreads ∧ ctrl.nextThreads <+: ctrl'.nextThreads := by
  cases threadStep_cases h with
  | matched | failed | failedBackreference => exact ⟨List.prefix_rfl, List.prefix_rfl⟩
  | waited => exact ⟨List.prefix_rfl, List.prefix_append ..⟩
  | @loaded sim₁ dst la _ _ _ _ hload =>
    exact (((appendRule E dst la (eraseStamp E sim ctrl)).stepAdjacents hload).2
      (fun _ _ => trivial) ⟨List.prefix_rfl, List.prefix_rfl⟩ trivial).1

/-- The thread is to be stepped at the position. -/
def Pending (t : NFASim) (q : Nat) (s : RunState) : Prop :=
  (t ∈ s.ctrl.nextThreads ∧ s.ctrl.curPos + 1 = q) ∨
    ((s.thread = some t ∨ t ∈ s.ctrl.activeThreads) ∧ s.ctrl.curPos = q)

/-- Going on with the first active thread leaves the pending ones pending. -/
private theorem pending_hold {s : RunState} {q : Nat} (c : NFASimCtrl)
    (h : (t ∈ c.nextThreads ∧ c.curPos + 1 = q) ∨ (t ∈ c.activeThreads ∧ c.curPos = q)) :
    Pending t q (s.hold c.shiftActive) := by
  rcases h with ⟨hnext, hpos⟩ | ⟨hactive, hpos⟩
  · exact Or.inl ⟨hnext, hpos⟩
  · refine Or.inr ⟨?_, hpos⟩
    unfold RunState.hold NFASimCtrl.shiftActive
    cases hlist : c.activeThreads with
    | nil => simp [hlist] at hactive
    | cons u rest =>
      rw [hlist, List.mem_cons] at hactive
      exact hactive.imp (fun h => by simp [h]) (fun h => by simpa using h)

/-- Once no thread is held, none is active. -/
def DrainedWhenIdle : Phase → Prop
  | .busy _ (.running s) => s.thread = none → s.ctrl.activeThreads = []
  | _ => True

theorem drained_hold {line : Line} {s : RunState} (c : NFASimCtrl) :
    DrainedWhenIdle (.busy line (.running (s.hold c.shiftActive))) := by
  intro hnone
  have hhead : c.activeThreads = [] := List.head?_eq_none_iff.mp hnone
  simp [RunState.hold, NFASimCtrl.shiftActive, hhead]

private theorem drained_testInput {line : Line} {s : RunState}
    (h : DrainedWhenIdle (.busy line (.running s))) :
    DrainedWhenIdle (.busy line (testInput (E.onLine line) s)) := by
  unfold testInput
  split
  · exact h
  · trivial

/-- Every step of a session drains the active list before it lets go of a thread. -/
theorem drained_step {p q : Phase} (h : SimStep E L p q) : DrainedWhenIdle q := by
  cases h with
  | @start line ctrl _ _ _ h =>
    obtain ⟨c, c', _, _, _, _, _, ho⟩ := startRun_cases h
    rcases ho with rfl | ⟨_, rfl⟩
    · exact drained_testInput (drained_hold (s := enterLoops c.curPos c'.shiftActive) c')
    · trivial
  | @round line s _ _ h =>
    cases runStep_cases h with
    | matched =>
      unfold matchCase
      simp only
      split
      · split
        · exact drained_hold _
        · trivial
      · split
        · exact drained_hold _
        · trivial
    | failed => exact drained_hold _
    | kept => exact drained_hold _
    | swapped =>
      apply drained_testInput
      intro hnone
      have hhead : s.ctrl.nextThreads = [] := List.head?_eq_none_iff.mp hnone
      simp [RunState.hold, hhead]
    | restarted _ _ hrestart =>
      obtain ⟨pos, c, c', _, _, _, rfl⟩ := restart_cases hrestart
      exact drained_testInput (drained_hold _)
  | finish => trivial

/-- A state of a session that holds no thread has none in its active list. -/
theorem Reaches.drained {line : Line} {s : RunState} (hreach : Reaches E L line s)
    (hnone : s.thread = none) : s.ctrl.activeThreads = [] := by
  have hinv : DrainedWhenIdle (.busy line (.running s)) := by
    refine hreach.invariant ?_ fun _ _ _ h => drained_step h
    rintro p rfl
    trivial
  exact hinv hnone

private theorem eq_of_testInput {s s' : RunState} (h : testInput E s = .running s') : s = s' := by
  have hstate := testInput_state (E := E) s
  rw [h] at hstate
  exact hstate.symm

/-- A thread that is to be stepped at a position of a run stays the same thread
until the round that steps it there. -/
theorem Pending.round {line : Line} {s s' : RunState} {q : Nat} (hpending : Pending t q s)
    (hreach : Reaches E L line s) (h : runStep (E.onLine line) fuel s = some (.running s')) :
    Pending t q s' ∨ s.thread = some t ∧ s.ctrl.curPos = q := by
  by_cases hnow : s.thread = some t ∧ s.ctrl.curPos = q
  · exact Or.inr hnow
  refine Or.inl ?_
  have hlists : (t ∈ s.ctrl.nextThreads ∧ s.ctrl.curPos + 1 = q) ∨
      (t ∈ s.ctrl.activeThreads ∧ s.ctrl.curPos = q) := by
    unfold Pending at hpending
    tauto
  have hstepped : ∀ {sim sim' ctrl'},
      threadStep (E.onLine line) fuel sim s.ctrl = some (sim', ctrl') →
      (t ∈ ctrl'.nextThreads ∧ ctrl'.curPos + 1 = q) ∨
        (t ∈ ctrl'.activeThreads ∧ ctrl'.curPos = q) := by
    intro sim sim' ctrl' hstep
    obtain ⟨hactive, hnext⟩ := threadStep_appends hstep
    rw [(threadStep_frame hstep).curPos]
    exact hlists.imp (And.imp_left fun h => hnext.subset h) (And.imp_left fun h => hactive.subset h)
  generalize ho : Outcome.running s' = o at h
  cases runStep_cases h with
  | @matched sim sim' ctrl' hheld hstep _ =>
    unfold matchCase at ho
    simp only at ho
    split at ho
    · split at ho
      · injection ho with ho
        have hkept := hstepped hstep
        exact ho ▸ pending_hold ((ctrl'.setMatch _).release sim') hkept
      · cases ho
    · split at ho
      · injection ho with ho
        have hkept := hstepped hstep
        exact ho ▸ pending_hold (ctrl'.release sim') hkept
      · cases ho
  | @failed sim sim' ctrl' _ hstep _ =>
    injection ho with ho
    have hkept := hstepped hstep
    exact ho ▸ pending_hold (ctrl'.release sim') hkept
  | kept _ hstep _ _ =>
    injection ho with ho
    exact ho ▸ pending_hold _ (hstepped hstep)
  | swapped hheld hnext =>
    rw [← eq_of_testInput ho.symm]
    refine Or.inr ?_
    rcases hlists with ⟨hwait, hpos⟩ | ⟨hactive, -⟩
    · refine ⟨?_, hpos⟩
      cases hlist : s.ctrl.nextThreads with
      | nil => exact absurd hlist hnext
      | cons u rest =>
        rw [hlist, List.mem_cons] at hwait
        exact hwait.imp (fun h => by simp [RunState.hold, h]) (fun h => by simpa [RunState.hold])
    · rw [hreach.drained hheld] at hactive
      exact absurd hactive List.not_mem_nil
  | restarted hheld hnext hrestart =>
    rcases hlists with ⟨hwait, -⟩ | ⟨hactive, -⟩
    · rw [hnext] at hwait
      exact absurd hwait List.not_mem_nil
    · rw [hreach.drained hheld] at hactive
      exact absurd hactive List.not_mem_nil

end Recognizer
