import Recognizer.Run.Start
import Recognizer.Threads.Step

/-!
# Runs in memory

`run_nfa` on linked threads makes the same rounds as `run_nfa` on lists of values, so it finds
the same matches on every line, and it gives every thread back to the pool. The active list may
be replaced by the next one because it has run empty by then.
-/

namespace Recognizer

open Lockstep ThreadMem

variable {E : Env} {fuel : Nat} {m m' : ThreadMem} {ctrl ctrl' : NFASimCtrl} {s : RunState}
  {t : ThreadRun}

theorem SameThreads.threadsOf {c d : NFASimCtrl} (h : SameThreads c d) :
    d.threadsOf = c.threadsOf := by
  funext l
  cases l
  · exact h.threadPool
  · exact h.activeThreads
  · exact h.nextThreads

namespace NFASimCtrl

theorem curMatch_others (ctrl : NFASimCtrl) : ctrl.others.curMatch = ctrl.curMatch := rfl

theorem kwRecords_others (ctrl : NFASimCtrl) : ctrl.others.kwRecords = ctrl.kwRecords := rfl

theorem newMatch_others (E : Env) (ctrl : NFASimCtrl) :
    newMatch E ctrl.others = (newMatch E ctrl).others := by
  unfold newMatch
  rw [curMatch_others]
  by_cases hshown : E.flags.silentMatch = false ∧ ctrl.curMatch.start ≠ 0 ∧
      ctrl.curMatch.start ≤ ctrl.curMatch.stop
  · rw [if_pos hshown, if_pos hshown]
    rfl
  · rw [if_neg hshown, if_neg hshown]

theorem kwNextMatch_others (ctrl : NFASimCtrl) :
    ctrl.others.kwNextMatch = (ctrl.kwNextMatch.1, ctrl.kwNextMatch.2.others) := by
  unfold kwNextMatch
  dsimp only [others]
  split <;> rfl

theorem kwSkipPast_others (stop k : Nat) (ctrl : NFASimCtrl) :
    ctrl.others.kwSkipPast stop k =
      ((ctrl.kwSkipPast stop k).1, (ctrl.kwSkipPast stop k).2.others) := by
  induction k generalizing ctrl with
  | zero => rfl
  | succ k ih =>
    unfold kwSkipPast
    rw [kwNextMatch_others]
    cases hnext : ctrl.kwNextMatch with
    | mk mr ctrl' =>
      cases mr with
      | none => rfl
      | some mr =>
        dsimp only
        split
        · exact ih ctrl'
        · rfl

/-- The input pointer moves by the other members alone. -/
theorem updateInputPointer_others (E : Env) (currentRun : Bool) (p : Nat) (ctrl : NFASimCtrl) :
    updateInputPointer E currentRun p ctrl.others =
      ((updateInputPointer E currentRun p ctrl).1,
        (updateInputPointer E currentRun p ctrl).2.others) := by
  unfold updateInputPointer
  rw [curMatch_others, kwRecords_others]
  by_cases hempty : currentRun = false ∨ ctrl.curMatch.stop = 0
  · by_cases hkw : E.kw.isNone = true
    · rw [if_pos hkw, if_pos hkw, if_pos hempty, if_pos hempty]
    · rw [if_neg hkw, if_neg hkw, if_pos hempty, if_pos hempty, kwNextMatch_others]
      cases hnext : ctrl.kwNextMatch with
      | mk mr ctrl' => cases mr <;> rfl
  · by_cases hkw : E.kw.isNone = true
    · rw [if_pos hkw, if_pos hkw, if_neg hempty, if_neg hempty]
    · rw [if_neg hkw, if_neg hkw, if_neg hempty, if_neg hempty, kwSkipPast_others]
      cases hskip : ctrl.kwSkipPast ctrl.curMatch.stop (ctrl.kwRecords.length + 1) with
      | mk mr ctrl' => cases mr <;> rfl

end NFASimCtrl

theorem ThreadMem.Represents.newMatch {held : List Nat} (E : Env) (h : Represents m ctrl held) :
    Represents (m.onCtrl (Recognizer.newMatch E)) (Recognizer.newMatch E ctrl) held :=
  h.onCtrl (SameThreads.newMatch E ctrl).threadsOf (NFASimCtrl.newMatch_others E ctrl)

namespace ThreadRun

/-- The variables of two runs other than the thread. -/
structure SameLocals (s : RunState) (t : ThreadRun) : Prop where
  inputPointer : t.inputPointer = s.inputPointer
  currentRun : t.currentRun = s.currentRun
  matchFound : t.matchFound = s.matchFound

/-- A run on linked threads in the state of a run on lists of values. -/
structure Tracks (s : RunState) (t : ThreadRun) : Prop where
  locals : SameLocals s t
  represents : Represents t.mem s.ctrl (inVariable t.thread)
  thread : s.thread = if t.thread = 0 then none else some (t.mem.sims t.thread)

/-- Once no thread is held, none is active. -/
structure Ready (s : RunState) (t : ThreadRun) : Prop extends Tracks s t where
  drained : t.thread = 0 → s.ctrl.activeThreads = []

/-- Both runs go on, or both have left the loops. -/
inductive SameOutcome : Recognizer.Outcome → Outcome → Prop where
  | running {s : RunState} {t : ThreadRun} (h : Ready s t) : SameOutcome (.running s) (.running t)
  | released {s : RunState} {t : ThreadRun} (h : Tracks s t) :
    SameOutcome (.released s) (.released t)

/-- Both runs go on with the first thread of the active list. -/
theorem SameLocals.next (h : SameLocals s t) (hrep : Represents m ctrl []) :
    Ready (s.hold ctrl.shiftActive) (t.hold (m.simPoolShift .active)) := by
  obtain ⟨hshift, hthread⟩ := hrep.shiftActive
  rw [List.append_nil] at hshift
  refine ⟨⟨⟨h.inputPointer, h.currentRun, h.matchFound⟩, hshift, ?_⟩, ?_⟩
  · dsimp only [RunState.hold, hold]
    rw [simPoolShift_sims]
    exact hthread
  · intro hzero
    have hzero' : (m.simPoolShift .active).1 = 0 := hzero
    have hnone : ctrl.activeThreads.head? = none := hthread.trans (if_pos hzero')
    dsimp only [RunState.hold, NFASimCtrl.shiftActive]
    rw [List.head?_eq_none_iff.mp hnone, List.tail_nil]

/-- Both runs give the thread back and go on. -/
theorem SameLocals.release {sim : Nat} (h : SameLocals s t) (hrep : Represents m ctrl [sim]) :
    Ready (s.hold (releaseThread ctrl (m.sims sim))) (t.hold (m.releaseThread sim)) :=
  h.next (hrep.put .pool)

/-- Both runs leave the loops with the thread they hold. -/
theorem SameLocals.keep {sim : Nat} (h : SameLocals s t) (hrep : Represents m ctrl [sim]) :
    Tracks (s.hold (some (m.sims sim), ctrl)) (t.hold (sim, m)) := by
  have hne : sim ≠ 0 := hrep.ne_zero
  refine ⟨⟨h.inputPointer, h.currentRun, h.matchFound⟩, ?_, ?_⟩
  · dsimp only [RunState.hold, hold, inVariable]
    rw [if_neg hne]
    exact hrep
  · exact (if_neg hne).symm

theorem SameLocals.matchCase (h : SameLocals s t)
    (hrep : Represents m ctrl [t.thread]) :
    SameOutcome (Recognizer.matchCase E s (m.sims t.thread) ctrl) (matchCase E t m) := by
  have hmark : SameLocals s.markFound t.markFound := ⟨h.inputPointer, rfl, rfl⟩
  unfold Recognizer.matchCase ThreadRun.matchCase
  dsimp only
  split
  · have hmatch : Represents
        (m.onCtrl fun c => c.setMatch (updateLongestMatch c.curMatch (m.sims t.thread).curMatch))
        (ctrl.setMatch (updateLongestMatch ctrl.curMatch (m.sims t.thread).curMatch))
        [t.thread] := hrep.onCtrl rfl rfl
    split
    · exact .running (hmark.release hmatch)
    · exact .released (hmark.keep (hmatch.newMatch E))
  · split
    · exact .running (hmark.release hrep)
    · exact .released (hmark.keep hrep)

theorem Ready.testInput (E : Env) (h : Ready s t) :
    SameOutcome (Recognizer.testInput E s) (testInput E t) := by
  unfold Recognizer.testInput ThreadRun.testInput
  rw [h.locals.inputPointer]
  split
  · exact .running h
  · exact .released h.toTracks

/-- The round of the inner loop on the thread both runs hold. -/
theorem Tracks.innerRound (E : Env) (fuel : Nat) (h : Tracks s t) (hne : t.thread ≠ 0) :
    Option.Rel SameOutcome (Recognizer.innerRound E fuel s (t.mem.sims t.thread))
      (innerRound E fuel t) := by
  have hrep : Represents t.mem s.ctrl [t.thread] := by
    have hrep := h.represents
    unfold inVariable at hrep
    rwa [if_neg hne] at hrep
  unfold Recognizer.innerRound ThreadRun.innerRound
  rcases rel_cases (hrep.threadStep E fuel) with ⟨hv, hm⟩ | ⟨⟨sim, ctrl'⟩, m', hv, hm, hr⟩
  · rw [hv, hm]
    exact .none
  · rw [hv, hm]
    dsimp only
    have hvalue : m'.sims t.thread = sim := hr.value
    rw [hvalue]
    rcases hr.place with ⟨hstatus, hplace⟩ | ⟨hstatus, hplace⟩
    · have hzero : sim.status = 0 := hstatus
      rw [if_neg (by rw [hzero]; decide), if_neg (by rw [hzero]; decide),
        if_neg (by rw [hzero]; decide), if_neg (by rw [hzero]; decide)]
      exact .some (.running (h.locals.next hplace))
    · rw [← hvalue]
      split
      · exact .some (h.locals.matchCase hplace)
      · split
        · exact .some (.running (h.locals.release hplace))
        · next hone hfail =>
          rw [← hvalue] at hstatus
          exact absurd hstatus (not_or.mpr ⟨hfail, hone⟩)

/-- The pool is empty in both. -/
theorem head_pool_iff (h : Represents m ctrl []) :
    (m.lists .pool).head = 0 ↔ ctrl.threadPool = [] := by
  obtain ⟨xs, h⟩ := h
  have hvalues : ctrl.threadPool.map ThreadList.pool.view =
      (xs .pool).map fun a => ThreadList.pool.view (m.sims a) := h.values .pool
  rw [h.placed.head_eq_zero_iff]
  constructor
  · intro hxs
    simpa [hxs] using hvalues
  · intro hpool
    simpa [hpool] using hvalues.symm

/-- The next list is empty in both. -/
theorem head_next_iff {held : List Nat} (h : Represents m ctrl held) :
    (m.lists .next).head = 0 ↔ ctrl.nextThreads = [] := by
  obtain ⟨xs, h⟩ := h
  rw [h.placed.head_eq_zero_iff, h.nextThreads, List.map_eq_nil_iff]

/-- Another attempt at a position of the line. -/
theorem SameLocals.resetThread (E : Env) (fuel pos : Nat) (h : SameLocals s t)
    (hrep : Represents m ctrl []) :
    Option.Rel (fun p q => Ready (s.hold p) (t.hold q)) (Recognizer.resetThread E fuel pos ctrl)
      (ThreadMem.resetThread E fuel pos m) := by
  unfold Recognizer.resetThread ThreadMem.resetThread
  by_cases hpool : ctrl.threadPool = []
  · rw [if_pos hpool, if_pos ((head_pool_iff hrep).mpr hpool)]
    exact .none
  · rw [if_neg hpool, if_neg (fun hhead => hpool ((head_pool_iff hrep).mp hhead))]
    exact rel_map (hrep.loadStartStates E fuel pos) fun _ _ hloaded => h.next hloaded

theorem Ready.restart (E : Env) (fuel : Nat) (h : Ready s t) (hzero : t.thread = 0) :
    Option.Rel SameOutcome (Recognizer.restart E fuel s) (restart E fuel t) := by
  have hrep : Represents t.mem s.ctrl [] := by
    have hrep := h.represents
    unfold inVariable at hrep
    rwa [if_pos hzero] at hrep
  unfold Recognizer.restart ThreadRun.restart
  dsimp only
  set c₁ := if E.flags.lineOrInvert = true then s.ctrl else newMatch E s.ctrl with hc₁
  set m₁ := if E.flags.lineOrInvert = true then t.mem else t.mem.onCtrl (newMatch E) with hm₁
  have h₁ : Represents m₁ c₁ [] := by
    rw [hm₁, hc₁]
    split
    · exact hrep
    · exact hrep.newMatch E
  rw [h.locals.inputPointer, h.locals.currentRun, h₁.others, NFASimCtrl.updateInputPointer_others]
  have hthreads := (SameThreads.updateInputPointer E s.currentRun s.inputPointer c₁).threadsOf
  cases hupdate : updateInputPointer E s.currentRun s.inputPointer c₁ with
  | mk pos c₂ =>
    rw [hupdate] at hthreads
    have h₂ : Represents { m₁ with ctrl := beginAttempt c₂.others pos }
        (beginAttempt c₂ pos) [] := by
      have hbegin : (beginAttempt c₂ pos).threadsOf = c₁.threadsOf := hthreads
      exact h₁.setCtrl hbegin
    have hlocals : SameLocals (s.moveTo pos) (t.moveTo pos) := ⟨rfl, rfl, h.locals.matchFound⟩
    dsimp only
    rcases rel_cases (hlocals.resetThread E fuel pos h₂) with ⟨hv, hm⟩ | ⟨p, q, hv, hm, hready⟩
    · rw [hv, hm]
      exact .none
    · rw [hv, hm]
      exact .some (hready.testInput E)

/-- The position moves on in both runs. -/
theorem Ready.advance (h : Ready s t) :
    Ready { s with ctrl := { s.ctrl with curPos := s.ctrl.curPos + 1 } }
      { t with mem := t.mem.onCtrl fun c => { c with curPos := c.curPos + 1 } } :=
  ⟨⟨⟨h.locals.inputPointer, h.locals.currentRun, h.locals.matchFound⟩,
    h.represents.onCtrl (g := fun c => { c with curPos := c.curPos + 1 }) rfl rfl, h.thread⟩,
    h.drained⟩

theorem Ready.outerRound (E : Env) (fuel : Nat) (h : Ready s t) (hzero : t.thread = 0) :
    Option.Rel SameOutcome (Recognizer.outerRound E fuel s) (outerRound E fuel t) := by
  have hrep : Represents t.mem s.ctrl [] := by
    have hrep := h.represents
    unfold inVariable at hrep
    rwa [if_pos hzero] at hrep
  unfold Recognizer.outerRound ThreadRun.outerRound
  by_cases hnext : s.ctrl.nextThreads = []
  · rw [if_neg (not_not.mpr hnext), if_neg (not_not.mpr ((head_next_iff hrep).mpr hnext))]
    exact h.restart E fuel hzero
  · rw [if_pos hnext, if_pos (fun hhead => hnext ((head_next_iff hrep).mp hhead))]
    have hready := h.locals.next (hrep.swap (h.drained hzero))
    exact .some (hready.advance.testInput E)

/-- Both runs make the same round. -/
theorem Ready.runStep (E : Env) (fuel : Nat) (h : Ready s t) :
    Option.Rel SameOutcome (Recognizer.runStep E fuel s) (runStep E fuel t) := by
  unfold Recognizer.runStep ThreadRun.runStep
  rw [h.thread]
  by_cases hzero : t.thread = 0
  · rw [if_pos hzero, if_neg (not_not.mpr hzero)]
    exact h.outerRound E fuel hzero
  · rw [if_neg hzero, if_pos hzero]
    exact h.innerRound E fuel hzero

theorem findKeywordStartPos_represents (E : Env) (kw : KwSearch) (fuel : Nat)
    (h : Represents m ctrl []) :
    Option.Rel (fun c m' => Represents m' c [])
      (Recognizer.findKeywordStartPos E kw fuel ctrl) (m.findKeywordStartPos E kw fuel) := by
  have h₁ : Represents (m.onCtrl (searchLine E kw)) (searchLine E kw ctrl) [] := h.onCtrl rfl rfl
  unfold Recognizer.findKeywordStartPos ThreadMem.findKeywordStartPos
  dsimp only
  rw [h₁.others, NFASimCtrl.kwRecords_others, NFASimCtrl.kwNextMatch_others]
  split
  · exact .some h₁
  · have hthreads := (SameThreads.kwNextMatch (searchLine E kw ctrl)).threadsOf
    cases hnext : (searchLine E kw ctrl).kwNextMatch with
    | mk mr c =>
      rw [hnext] at hthreads
      cases mr with
      | none => exact .none
      | some mr =>
        have hseek : (seek c mr.beg).threadsOf = (searchLine E kw ctrl).threadsOf := hthreads
        exact (h₁.setCtrl hseek).loadStartStates E fuel mr.beg

/-- Both runs enter their loops with the first thread of the active list. -/
theorem enterLoops_ready (pos : Nat) (h : Represents m ctrl []) :
    Ready (enterLoops pos ctrl.shiftActive)
      { mem := (m.simPoolShift .active).2, thread := (m.simPoolShift .active).1
        inputPointer := pos } := by
  have hlocals : SameLocals { ctrl := ctrl, inputPointer := pos }
      { mem := m, inputPointer := pos } := ⟨rfl, rfl, rfl⟩
  exact hlocals.next h

/-- Both runs reach their loops alike. -/
theorem startRun_sameOutcome (E : Env) (fuel : Nat) (h : Represents m ctrl []) :
    Option.Rel SameOutcome (Recognizer.startRun E fuel ctrl) (startRun E fuel m) := by
  have hbegin : Represents (m.onCtrl beginRun) (beginRun ctrl) [] := h.onCtrl rfl rfl
  unfold Recognizer.startRun ThreadRun.startRun
  dsimp only
  cases E.kw with
  | some kw =>
    dsimp only
    rcases rel_cases (findKeywordStartPos_represents E kw fuel hbegin) with
      ⟨hv, hm⟩ | ⟨c, m', hv, hm, hrep⟩
    · rw [hv, hm]
      exact .none
    · rw [hv, hm]
      dsimp only
      rw [hrep.curPos]
      have hready := enterLoops_ready c.curPos hrep
      rw [hready.thread]
      by_cases hzero : (m'.simPoolShift .active).1 = 0
      · rw [if_pos hzero, if_pos hzero]
        exact .some (.released hready.toTracks)
      · rw [if_neg hzero, if_neg hzero]
        exact .some (hready.testInput E)
  | none =>
    dsimp only
    rw [hbegin.curPos]
    rcases rel_cases (hbegin.loadStartStates E fuel (beginRun ctrl).curPos) with
      ⟨hv, hm⟩ | ⟨c, m', hv, hm, hrep⟩
    · rw [hv, hm]
      exact .none
    · rw [hv, hm]
      exact .some ((enterLoops_ready (beginRun ctrl).curPos hrep).testInput E)

/-- Both runs leave their loops alike. -/
theorem SameOutcome.runLoop (E : Env) (fuel k : Nat) {o : Recognizer.Outcome} {o' : Outcome}
    (h : SameOutcome o o') :
    Option.Rel Tracks (Recognizer.runLoop E fuel k o) (runLoop E fuel k o') := by
  induction k generalizing o o' with
  | zero =>
    cases h with
    | running h => exact .none
    | released h => exact .some h
  | succ k ih =>
    cases h with
    | running h =>
      unfold Recognizer.runLoop ThreadRun.runLoop
      rcases rel_cases (h.runStep E fuel) with ⟨hv, hm⟩ | ⟨o, o', hv, hm, ho⟩
      · rw [hv, hm]
        exact .none
      · rw [hv, hm]
        exact ih ho
    | released h => exact .some h

end ThreadRun

/-- Between two lines both run lists are empty. -/
structure AtRest (m : ThreadMem) (ctrl : NFASimCtrl) : Prop where
  represents : Represents m ctrl []
  activeThreads : ctrl.activeThreads = []
  nextThreads : ctrl.nextThreads = []

/-- Both runs end with the same value, and all threads are in the pool. -/
theorem ThreadRun.Tracks.finishRun (E : Env) (h : Tracks s t) :
    (t.finishRun E).1 = (Recognizer.finishRun E s).1 ∧
      AtRest (t.finishRun E).2 (Recognizer.finishRun E s).2 := by
  refine ⟨h.locals.matchFound, ?_, (finishRun_lists s).1, (finishRun_lists s).2⟩
  have hrelease : Represents (t.mem.releaseAllThreads t.thread)
      (s.ctrl.releaseAllThreads s.thread) [] := by
    rw [h.thread]
    exact h.represents.releaseAllThreads
  unfold ThreadRun.finishRun Recognizer.finishRun
  dsimp only
  rw [h.locals.matchFound]
  set c₁ := s.ctrl.releaseAllThreads s.thread
  set m₁ := t.mem.releaseAllThreads t.thread
  have hline : Represents (m₁.onCtrl fun c =>
      newMatch E (c.setMatch ⟨c.bufferStart, c.bufferEnd - 1⟩))
      (newMatch E (c₁.setMatch ⟨c₁.bufferStart, c₁.bufferEnd - 1⟩)) [] := by
    have hmatch : Represents
        (m₁.onCtrl fun c => c.setMatch ⟨c.bufferStart, c.bufferEnd - 1⟩)
        (c₁.setMatch ⟨c₁.bufferStart, c₁.bufferEnd - 1⟩) [] := hrelease.onCtrl rfl rfl
    exact hmatch.newMatch E
  have hclear {m : ThreadMem} {c : NFASimCtrl} (hrep : Represents m c []) :
      Represents (if E.kw.isSome = true then m.onCtrl NFASimCtrl.kwClearMatches else m)
        (if E.kw.isSome = true then c.kwClearMatches else c) [] := by
    split
    · exact hrep.onCtrl rfl rfl
    · exact hrep
  apply hclear
  split
  · exact hline
  · exact hrelease

namespace ThreadMem

theorem Represents.runNfa (E : Env) (fuel : Nat) (h : Represents m ctrl []) :
    Option.Rel (fun a b => b.1 = a.1 ∧ AtRest b.2 a.2) (Recognizer.runNfa E fuel ctrl)
      (ThreadMem.runNfa E fuel m) := by
  unfold Recognizer.runNfa ThreadMem.runNfa
  simp only [Option.bind_eq_bind]
  refine rel_bind (ThreadRun.startRun_sameOutcome E fuel h) fun o o' ho => ?_
  refine rel_bind (ho.runLoop E fuel fuel) fun s t ht => ?_
  exact .some (ht.finishRun E)

/-- The memory a line starts with. -/
theorem Represents.freshLine (line : Line) (h : Represents m ctrl []) :
    Represents (m.onCtrl fun c => resetNfaSim line { c with reports := [] })
      (resetNfaSim line { ctrl with reports := [] }) [] :=
  h.onCtrl rfl rfl

/-- A line in memory gives the value and the spans it gives on lists of values. -/
theorem Represents.runLine (E : Env) (fuel : Nat) (h : Represents m ctrl []) :
    Option.Rel (fun a b => b.1 = a.1 ∧ b.2.1 = a.2.1 ∧ AtRest b.2.2 a.2.2)
      (Recognizer.runLine E fuel ctrl) (ThreadMem.runLine E fuel m) := by
  unfold Recognizer.runLine ThreadMem.runLine
  simp only [Option.bind_eq_bind]
  refine rel_bind ((h.freshLine E.line).runNfa E fuel) fun a b hab => ?_
  exact .some ⟨hab.1, hab.2.represents.read (·.reports) rfl, hab.2⟩

/-- Lines in memory give the results they give on lists of values. -/
theorem runLines_atRest (E : Env) (fuel : Nat) (lines : List Line)
    (h : AtRest m ctrl) :
    Option.Rel (fun a b => b.1 = a.1 ∧ AtRest b.2 a.2)
      (Recognizer.runLines E fuel lines ctrl) (ThreadMem.runLines E fuel lines m) := by
  induction lines generalizing m ctrl with
  | nil => exact .some ⟨rfl, h⟩
  | cons line rest ih =>
    unfold Recognizer.runLines ThreadMem.runLines
    simp only [Option.bind_eq_bind]
    refine rel_bind (h.represents.runLine (E.onLine line) fuel) fun a b hab => ?_
    refine rel_bind (ih hab.2.2) fun a' b' hab' => ?_
    rw [hab.1, hab.2.1, hab'.1]
    exact .some ⟨rfl, hab'.2⟩

/-- The first thread of a new simulator is in the pool. -/
theorem atRest_newNfaSim (E : Env) :
    AtRest (ThreadMem.newNfaSim E) (Recognizer.newNfaSim E) := by
  refine ⟨⟨Function.update (fun _ => []) .pool [1], ⟨?_, ?_, Nat.one_pos⟩, ?_, rfl⟩, rfl, rfl⟩
  · intro l
    cases l
    · exact ⟨⟨rfl, rfl⟩, rfl, by decide⟩
    · exact Queue.nil
    · exact Queue.nil
  · exact List.Perm.refl _
  · intro l
    cases l <;> rfl

end ThreadMem

end Recognizer
