import Recognizer.Load.Acquire
import Recognizer.Run.Frame

/-!
# Starting and restarting a run

Every load of the start states follows one rule, which adds the threads taken
for start states to the moves of a load. The beginning of `run_nfa` and the
branch that goes to another start position both lead through such a load; the
rest of what they write is listed here once.
-/

namespace Recognizer

variable {E : Env} {fuel la : Nat} {Ok I : NFASimCtrl → Prop} {T : NFASim → Addr → Prop}
  {R : NFASim → Prop} {ctrl ctrl' : NFASimCtrl}

/-- What the moves of `load_start_states` preserve. -/
structure StartRule (E : Env) (la : Nat) (Ok I : NFASimCtrl → Prop) (T : NFASim → Addr → Prop)
    (R : NFASim → Prop) : Prop extends LoadRule E .active la Ok I T R where
  start : ∀ {n ctrl}, n ∈ (E.heap E.startState).reachable → I ctrl → Ok (ctrl.acquire none) →
    T (startMemory ctrl.threadPool.head? n) n ∧ I (ctrl.acquire none)
  range : ∀ {sim n ctrl}, T sim n → sim.ip = n → sim.status = 0 → (E.heap n).type = .range →
    isLiteralInRange (E.heap n).range (E.line.deref la) → I ctrl → Ok ctrl →
    I (ctrl.append .active (visit sim n la))
  skip : ∀ {sim n ctrl}, T sim n → I ctrl → Ok ctrl → I (ctrl.release sim)

namespace StartRule

/-- The load of one start state follows the rule: a thread is taken, and queued or given back. -/
theorem loadStartState (rule : StartRule E la Ok I T R) {n : Addr}
    (hn : n ∈ (E.heap E.startState).reachable)
    (h : Recognizer.loadStartState E fuel la n ctrl = some ctrl') :
    Extends ctrl ctrl' ∧ (I ctrl → Ok ctrl' → I ctrl') := by
  unfold Recognizer.loadStartState at h
  simp only [acquireStart] at h
  split at h
  · rename_i htype
    split at h
    · rename_i hrange
      simp only [Option.some.injEq] at h
      subst h
      refine ⟨(Extends.acquire ..).trans (.append ..), fun hi hok => ?_⟩
      have hok' := rule.mono (.append ..) hok
      obtain ⟨hthread, hacq⟩ := rule.start hn hi hok'
      exact rule.range hthread startMemory_ip startMemory_status htype hrange hacq hok'
    · simp only [Option.some.injEq] at h
      subst h
      refine ⟨(Extends.acquire ..).trans (.release ..), fun hi hok => ?_⟩
      have hok' := rule.mono (.release ..) hok
      obtain ⟨hthread, hacq⟩ := rule.start hn hi hok'
      exact rule.skip hthread hacq hok'
  · split at h
    · simp at h
    · rename_i clone ctrl₁ hload
      obtain ⟨hext, hr⟩ := rule.loadNext fuel _ _ _ _ _ hload
      have hone : I ctrl → Ok ctrl₁ → I ctrl₁ ∧ R clone := by
        intro hi hok
        obtain ⟨hthread, hacq⟩ := rule.start hn hi (rule.mono hext hok)
        exact hr hthread hacq hok
      simp only [Option.some.injEq] at h
      subst h
      split
      · rename_i hstatus
        refine ⟨((Extends.acquire ..).trans hext).trans (.release ..), fun hi hok => ?_⟩
        have hok₁ := rule.mono (.release ..) hok
        obtain ⟨h₁, hr'⟩ := hone hi hok₁
        exact rule.release hr' hstatus h₁ hok₁
      · exact ⟨(Extends.acquire ..).trans hext, fun hi hok => (hone hi hok).1⟩

/-- The rule holds of `load_start_states`. -/
theorem loadStartStates (rule : StartRule E la Ok I T R)
    (h : Recognizer.loadStartStates E fuel la ctrl = some ctrl') :
    Extends ctrl ctrl' ∧ (I ctrl → Ok ctrl' → I ctrl') := by
  unfold Recognizer.loadStartStates at h
  have hstart : ∀ xs : List Addr, (∀ n ∈ xs, n ∈ (E.heap E.startState).reachable) → ∀ ctrl,
      xs.foldlM (fun ctrl nfa => Recognizer.loadStartState E fuel la nfa ctrl) ctrl =
        some ctrl' → Extends ctrl ctrl' ∧ (I ctrl → Ok ctrl' → I ctrl') := by
    intro xs
    induction xs with
    | nil =>
      intro _ ctrl h
      simp only [List.foldlM_nil, Option.pure_def, Option.some.injEq] at h
      exact h ▸ ⟨.refl _, fun hi _ => hi⟩
    | cons n xs ih =>
      intro hsub ctrl h
      simp only [List.foldlM_cons, Option.bind_eq_bind, Option.bind_eq_some_iff] at h
      obtain ⟨ctrl₁, hone, hrest⟩ := h
      obtain ⟨hext₁, h₁⟩ := rule.loadStartState (hsub n (by simp)) hone
      obtain ⟨hext, h'⟩ := ih (fun m hm => hsub m (by simp [hm])) ctrl₁ hrest
      exact ⟨hext₁.trans hext, fun hi hok => h' (h₁ hi (rule.mono hext hok)) hok⟩
  exact hstart _ (fun _ hn => hn) ctrl h

end StartRule

/-- Loading the start states keeps the frame. -/
theorem frameStartRule (E : Env) (la : Nat) (c : NFASimCtrl) :
    StartRule E la (fun _ => True) (SameFrame c) (fun _ _ => True)
      (fun sim => sim.status = 0 ∨ sim.status = -1) where
  toLoadRule := frameRule E .active la c
  start _ hi _ := ⟨trivial, hi.trans (.acquire ..)⟩
  range _ _ _ _ _ hi _ := hi.trans (.append ..)
  skip _ hi _ := hi.trans (.release ..)

/-- Loading the start states keeps the frame. -/
theorem loadStartStates_frame (h : loadStartStates E fuel la ctrl = some ctrl') :
    SameFrame ctrl ctrl' :=
  ((frameStartRule E la ctrl).loadStartStates h).2 (.refl _) trivial

/-- The members of the control block that only loads and steps write. -/
structure SameThreads (c d : NFASimCtrl) : Prop where
  threadPool : d.threadPool = c.threadPool
  activeThreads : d.activeThreads = c.activeThreads
  nextThreads : d.nextThreads = c.nextThreads
  activeThreadsSp : d.activeThreadsSp = c.activeThreadsSp
  iterIdx : d.iterIdx = c.iterIdx
  acquired : d.acquired = c.acquired
  dropped : d.dropped = c.dropped
  bufferStart : d.bufferStart = c.bufferStart
  bufferEnd : d.bufferEnd = c.bufferEnd

namespace SameThreads

/-- A control block has its own threads. -/
@[refl] theorem refl (c : NFASimCtrl) : SameThreads c c :=
  ⟨rfl, rfl, rfl, rfl, rfl, rfl, rfl, rfl, rfl⟩

/-- Having the same threads is transitive. -/
theorem trans {a b c : NFASimCtrl} (h : SameThreads a b) (h' : SameThreads b c) :
    SameThreads a c :=
  ⟨h'.1.trans h.1, h'.2.trans h.2, h'.3.trans h.3, h'.4.trans h.4, h'.5.trans h.5, h'.6.trans h.6,
    h'.7.trans h.7, h'.8.trans h.8, h'.9.trans h.9⟩

/-- The beginning of a run moves no thread. -/
theorem beginRun (c : NFASimCtrl) : SameThreads c (Recognizer.beginRun c) :=
  ⟨rfl, rfl, rfl, rfl, rfl, rfl, rfl, rfl, rfl⟩

/-- Moving the input pointer moves no thread. -/
theorem seek (c : NFASimCtrl) (pos : Nat) : SameThreads c (Recognizer.seek c pos) :=
  ⟨rfl, rfl, rfl, rfl, rfl, rfl, rfl, rfl, rfl⟩

/-- Searching the line for keywords moves no thread. -/
theorem searchLine (E : Env) (kw : KwSearch) (c : NFASimCtrl) :
    SameThreads c (Recognizer.searchLine E kw c) :=
  ⟨rfl, rfl, rfl, rfl, rfl, rfl, rfl, rfl, rfl⟩

/-- The beginning of an attempt moves no thread. -/
theorem beginAttempt (c : NFASimCtrl) (pos : Nat) :
    SameThreads c (Recognizer.beginAttempt c pos) :=
  ⟨rfl, rfl, rfl, rfl, rfl, rfl, rfl, rfl, rfl⟩

/-- Reporting a match moves no thread. -/
theorem newMatch (E : Env) (c : NFASimCtrl) : SameThreads c (Recognizer.newMatch E c) := by
  unfold Recognizer.newMatch
  split <;> exact ⟨rfl, rfl, rfl, rfl, rfl, rfl, rfl, rfl, rfl⟩

/-- Taking the next keyword moves no thread. -/
theorem kwNextMatch (c : NFASimCtrl) : SameThreads c c.kwNextMatch.2 := by
  unfold NFASimCtrl.kwNextMatch
  simp only
  split <;> exact ⟨rfl, rfl, rfl, rfl, rfl, rfl, rfl, rfl, rfl⟩

/-- Skipping keywords moves no thread. -/
theorem kwSkipPast (stop k : Nat) (c : NFASimCtrl) : SameThreads c (c.kwSkipPast stop k).2 := by
  induction k generalizing c with
  | zero => exact .refl c
  | succ k ih =>
    have hone := kwNextMatch c
    simp only [NFASimCtrl.kwSkipPast]
    split
    · rename_i heq
      rw [heq] at hone
      split
      · exact hone.trans (ih _)
      · exact hone
    · rename_i heq
      rw [heq] at hone
      exact hone

/-- Updating the input pointer moves no thread. -/
theorem updateInputPointer (E : Env) (currentRun : Bool) (p : Nat) (c : NFASimCtrl) :
    SameThreads c (Recognizer.updateInputPointer E currentRun p c).2 := by
  unfold Recognizer.updateInputPointer
  split
  · split <;> exact .refl c
  · simp only
    split
    · split
      · exact kwNextMatch c
      · exact kwSkipPast ..
    · split
      · exact kwNextMatch c
      · exact kwSkipPast ..

end SameThreads

/-- Taking the next keyword leaves the match and the interval position. -/
theorem kwNextMatch_frame (c : NFASimCtrl) :
    c.kwNextMatch.2.curMatch = c.curMatch ∧ c.kwNextMatch.2.lastIntervalPos = c.lastIntervalPos := by
  unfold NFASimCtrl.kwNextMatch
  simp only
  split <;> exact ⟨rfl, rfl⟩

/-- `reset_thread` loads the start states and goes on with the first active thread. -/
private theorem resetThread_cases {pos : Nat} {p : Option NFASim × NFASimCtrl}
    (h : resetThread E fuel pos ctrl = some p) :
    ctrl.threadPool ≠ [] ∧
      ∃ ctrl', loadStartStates E fuel pos ctrl = some ctrl' ∧ p = ctrl'.shiftActive := by
  unfold resetThread at h
  split at h
  · simp at h
  · rename_i hpool
    obtain ⟨ctrl', hload, rfl⟩ := Option.map_eq_some_iff.mp h
    exact ⟨hpool, ctrl', hload, rfl⟩

/-- A restart moves the input pointer and loads the start states there. -/
theorem restart_pointer {s : RunState} {o : Outcome} (h : restart E fuel s = some o) :
    ∃ (pos : Nat) (c ctrl' : NFASimCtrl),
      updateInputPointer E s.currentRun s.inputPointer
          (if E.flags.lineOrInvert then s.ctrl else newMatch E s.ctrl) = (pos, c) ∧
        (beginAttempt c pos).threadPool ≠ [] ∧
        loadStartStates E fuel pos (beginAttempt c pos) = some ctrl' ∧
        o = testInput E ((s.moveTo pos).hold ctrl'.shiftActive) := by
  unfold restart at h
  simp only at h
  split at h
  · simp at h
  · rename_i p hreset
    obtain ⟨hpool, ctrl', hload, rfl⟩ := resetThread_cases hreset
    simp only [Option.some.injEq] at h
    exact ⟨_, _, ctrl', rfl, hpool, hload, h.symm⟩

/-- A restart loads the start states at the new input pointer. -/
theorem restart_cases {s : RunState} {o : Outcome} (h : restart E fuel s = some o) :
    ∃ (pos : Nat) (c ctrl' : NFASimCtrl), SameThreads s.ctrl c ∧
      (beginAttempt c pos).threadPool ≠ [] ∧
      loadStartStates E fuel pos (beginAttempt c pos) = some ctrl' ∧
      o = testInput E ((s.moveTo pos).hold ctrl'.shiftActive) := by
  obtain ⟨pos, c, ctrl', hpointer, hpool, hload, ho⟩ := restart_pointer h
  refine ⟨pos, c, ctrl', ?_, hpool, hload, ho⟩
  have hsame := SameThreads.updateInputPointer E s.currentRun s.inputPointer
    (if E.flags.lineOrInvert then s.ctrl else newMatch E s.ctrl)
  rw [hpointer] at hsame
  refine SameThreads.trans ?_ hsame
  split
  · exact .refl _
  · exact .newMatch ..

/-- A run begins with a load of the start states, unless the keyword search finds
nothing, in which case the position is behind the line. -/
theorem startRun_cases {o : Outcome} (h : startRun E fuel ctrl = some o) :
    ∃ c ctrl' : NFASimCtrl, SameThreads ctrl c ∧ c.curMatch = ctrl.curMatch ∧
      c.lastIntervalPos = 0 ∧ (E.kw = none → c.curPos = ctrl.curPos) ∧
      (loadStartStates E fuel c.curPos c = some ctrl' ∨
        ctrl' = c ∧ c.curPos = ctrl.bufferEnd + 1) ∧
      (o = testInput E (enterLoops c.curPos ctrl'.shiftActive) ∨
        ctrl'.activeThreads = [] ∧ o = .released (enterLoops c.curPos ctrl'.shiftActive)) := by
  unfold startRun at h
  simp only at h
  split at h
  · rename_i kw hkw
    split at h
    · simp at h
    · rename_i ctrl₁ hfind
      have hout : ∀ pos, ctrl₁.curPos = pos →
          o = testInput E (enterLoops pos ctrl₁.shiftActive) ∨
            ctrl₁.activeThreads = [] ∧ o = .released (enterLoops pos ctrl₁.shiftActive) := by
        rintro pos rfl
        split at h
        · rename_i hnone
          simp only [Option.some.injEq] at h
          refine Or.inr ⟨?_, h.symm⟩
          simpa [enterLoops, NFASimCtrl.shiftActive] using hnone
        · simp only [Option.some.injEq] at h
          exact Or.inl h.symm
      unfold findKeywordStartPos at hfind
      simp only at hfind
      split at hfind
      · simp only [Option.some.injEq] at hfind
        subst hfind
        exact ⟨searchLine E kw (beginRun ctrl), _, (SameThreads.beginRun _).trans (.searchLine ..),
          rfl, rfl, by simp [hkw], Or.inr ⟨rfl, rfl⟩, hout _ rfl⟩
      · split at hfind
        · simp at hfind
        · rename_i mr c hnext
          have hsame := SameThreads.kwNextMatch (searchLine E kw (beginRun ctrl))
          have hframe := kwNextMatch_frame (searchLine E kw (beginRun ctrl))
          rw [hnext] at hsame hframe
          refine ⟨seek c mr.beg, ctrl₁, ?_, hframe.1, hframe.2, by simp [hkw], Or.inl hfind,
            hout _ (loadStartStates_frame hfind).curPos⟩
          exact ((SameThreads.beginRun _).trans (.searchLine ..)).trans (hsame.trans (.seek ..))
  · split at h
    · simp at h
    · rename_i ctrl' hload
      simp only [Option.some.injEq] at h
      exact ⟨beginRun ctrl, ctrl', .beginRun _, rfl, rfl, fun _ => rfl, Or.inl hload,
        Or.inl h.symm⟩

/-- Threads that are held or wait in one of the run lists. -/
def RunState.live (s : RunState) : List NFASim :=
  s.thread.toList ++ s.ctrl.activeThreads ++ s.ctrl.nextThreads

/-- Holding the first active thread keeps the threads that wait. -/
theorem mem_live_hold_shiftActive {s : RunState} {c : NFASimCtrl} {sim : NFASim} :
    sim ∈ (s.hold c.shiftActive).live ↔ sim ∈ c.activeThreads ++ c.nextThreads := by
  unfold RunState.live RunState.hold NFASimCtrl.shiftActive
  cases c.activeThreads with
  | nil => simp
  | cons t rest => simp

/-- The threads that are live when the loops begin are those that were queued. -/
theorem mem_live_enterLoops {p : Nat} {c : NFASimCtrl} {sim : NFASim} :
    sim ∈ (enterLoops p c.shiftActive).live ↔ sim ∈ c.activeThreads ++ c.nextThreads := by
  unfold RunState.live enterLoops NFASimCtrl.shiftActive
  cases c.activeThreads with
  | nil => simp
  | cons t rest => simp

/-- The test of the outer loop keeps the state. -/
theorem testInput_state (s : RunState) : (testInput E s).state = s := by
  unfold testInput
  split <;> rfl

/-- `run_nfa` ends with both run lists empty. -/
theorem finishRun_lists (s : RunState) :
    (finishRun E s).2.activeThreads = [] ∧ (finishRun E s).2.nextThreads = [] := by
  have hnew : ∀ c : NFASimCtrl, (newMatch E c).activeThreads = c.activeThreads ∧
      (newMatch E c).nextThreads = c.nextThreads :=
    fun c => ⟨(SameThreads.newMatch E c).activeThreads, (SameThreads.newMatch E c).nextThreads⟩
  unfold finishRun
  simp only
  split
  · split
    · exact hnew _
    · exact ⟨rfl, rfl⟩
  · split
    · exact hnew _
    · exact ⟨rfl, rfl⟩

end Recognizer
