import Recognizer.Source.Run

/-!
# What one step of a thread can do

`Stepped` lists the outcomes of `thread_step` and `Advance` the ways in which a
thread goes on to the reachable list of its node. Later proofs take their case
analysis from here and do not unfold the step function.
-/

namespace Recognizer

variable {E : Env} {fuel : Nat} {sim sim' : NFASim} {ctrl ctrl' : NFASimCtrl}

/-- A node that reads a character accepts the input. -/
def Consumes (E : Env) (ctrl : NFASimCtrl) (n : NFA) : Prop :=
  match n.type with
  | .any => E.input ctrl ≠ eolSymbol
  | .literal => E.input ctrl = E.instToken n
  | .range => E.input ctrl ≠ eolSymbol ∧ isLiteralInRange n.range (E.input ctrl)
  | _ => False

instance (E : Env) (ctrl : NFASimCtrl) (n : NFA) : Decidable (Consumes E ctrl n) := by
  unfold Consumes
  split <;> infer_instance

/-- The control block after the first statement of `thread_step`. -/
def eraseStamp (E : Env) (sim : NFASim) (ctrl : NFASimCtrl) : NFASimCtrl :=
  ctrl.stamp (E.heap sim.ip).id 0

/-- The thread, destination and lookahead with which a step loads the successors
of its node. -/
inductive Advance (E : Env) (sim : NFASim) (ctrl : NFASimCtrl) : NFASim → Dst → Nat → Prop where
  | consume (h : Consumes E ctrl (E.heap sim.ip)) :
    Advance E sim ctrl (updateMatch sim ctrl.curPos) .next (ctrl.curPos + 1)
  | closeBackreference (htype : (E.heap sim.ip).type = .backreference)
      (hopen : (openBackreference E sim ctrl.curPos).brefPtr ≠ 0)
      (hinput : E.input ctrl = E.line.deref (openBackreference E sim ctrl.curPos).brefPtr)
      (hstop : (openBackreference E sim ctrl.curPos).brefPtr =
        ((openBackreference E sim ctrl.curPos).backrefMatch (E.heap sim.ip).id).stop) :
    Advance E sim ctrl
      (closeBackreference (openBackreference E sim ctrl.curPos) ctrl.curPos) .next
      (ctrl.curPos + 1)
  | bol (htype : (E.heap sim.ip).type = .bolAnchor) (hpos : ctrl.curPos = E.line.buffer) :
    Advance E sim ctrl sim .active ctrl.curPos
  | eol (htype : (E.heap sim.ip).type = .eolAnchor) (hinput : E.input ctrl = eolSymbol) :
    Advance E sim ctrl sim .next ctrl.curPos

/-- A backreference has read a character of its span that is not the last one. -/
structure Waits (E : Env) (sim : NFASim) (ctrl : NFASimCtrl) : Prop where
  type : (E.heap sim.ip).type = .backreference
  opened : (openBackreference E sim ctrl.curPos).brefPtr ≠ 0
  input : E.input ctrl = E.line.deref (openBackreference E sim ctrl.curPos).brefPtr
  inside : (openBackreference E sim ctrl.curPos).brefPtr ≠
    ((openBackreference E sim ctrl.curPos).backrefMatch (E.heap sim.ip).id).stop

/-- The outcomes of `thread_step`. -/
inductive Stepped (E : Env) (fuel : Nat) (sim : NFASim) (ctrl : NFASimCtrl) :
    NFASim → NFASimCtrl → Prop where
  | matched (h : E.input ctrl = 0 ∨ (E.heap sim.ip).type = .accepting) :
    Stepped E fuel sim ctrl (setStatus sim 1) (eraseStamp E sim ctrl)
  | failed : Stepped E fuel sim ctrl (setStatus sim (-1)) (eraseStamp E sim ctrl)
  | failedBackreference (htype : (E.heap sim.ip).type = .backreference) :
    Stepped E fuel sim ctrl (setStatus (openBackreference E sim ctrl.curPos) (-1))
      (eraseStamp E sim ctrl)
  | waited (h : Waits E sim ctrl) :
    Stepped E fuel sim ctrl (nextInSpan (openBackreference E sim ctrl.curPos))
      ((eraseStamp E sim ctrl).append .next (nextInSpan (openBackreference E sim ctrl.curPos)))
  | loaded {sim₁ : NFASim} {dst : Dst} {la : Nat} {sim' : NFASim} {ctrl' : NFASimCtrl}
      (hinput : E.input ctrl ≠ 0) (hadv : Advance E sim ctrl sim₁ dst la)
      (hload : stepAdjacents E fuel sim₁ dst la (eraseStamp E sim ctrl) = some (sim', ctrl')) :
    Stepped E fuel sim ctrl sim' ctrl'

@[simp] theorem eraseStamp_curPos : (eraseStamp E sim ctrl).curPos = ctrl.curPos := rfl

@[simp] theorem eraseStamp_nextThreads :
    (eraseStamp E sim ctrl).nextThreads = ctrl.nextThreads := rfl

@[simp] theorem eraseStamp_activeThreads :
    (eraseStamp E sim ctrl).activeThreads = ctrl.activeThreads := rfl

@[simp] theorem eraseStamp_threadPool :
    (eraseStamp E sim ctrl).threadPool = ctrl.threadPool := rfl

@[simp] theorem input_eraseStamp : E.input (eraseStamp E sim ctrl) = E.input ctrl := rfl

/-- Without case folding the input is the character at the position. -/
theorem input_of_exact (hfold : E.flags.ignoreCase = false) :
    E.input ctrl = E.line.deref ctrl.curPos := by
  simp [Env.input, hfold]

@[simp] theorem updateMatch_ip (p : Nat) : (updateMatch sim p).ip = sim.ip := by
  unfold updateMatch
  split <;> rfl

/-- Opening a span leaves the thread at its node. -/
@[simp] theorem openBackreference_ip (p : Nat) : (openBackreference E sim p).ip = sim.ip := by
  unfold openBackreference updateMatch
  split
  · split <;> rfl
  · rfl

private theorem some_cases {a a' : NFASim} {b b' : NFASimCtrl} {P : NFASim → NFASimCtrl → Prop}
    (hp : P a b) (h : some (a, b) = some (a', b')) : P a' b' := by
  simp only [Option.some.injEq, Prod.mk.injEq] at h
  exact h.1 ▸ h.2 ▸ hp

private theorem stepBackreference_cases (htype : (E.heap sim.ip).type = .backreference)
    (hinput : E.input ctrl ≠ 0)
    (h : stepBackreference E fuel sim (eraseStamp E sim ctrl) = some (sim', ctrl')) :
    Stepped E fuel sim ctrl sim' ctrl' := by
  unfold stepBackreference at h
  simp only [eraseStamp_curPos, openBackreference_ip] at h
  split at h
  · rename_i hb
    split at h
    · rename_i hstop
      exact .loaded hinput (.closeBackreference htype hb.1 hb.2 hstop) h
    · rename_i hstop
      exact some_cases (.waited ⟨htype, hb.1, hb.2, hstop⟩) h
  · exact some_cases (.failedBackreference htype) h

/-- Every result of `thread_step` is one of the listed outcomes. -/
theorem threadStep_cases (h : threadStep E fuel sim ctrl = some (sim', ctrl')) :
    Stepped E fuel sim ctrl sim' ctrl' := by
  unfold threadStep at h
  simp only at h
  rw [show ctrl.stamp (E.heap sim.ip).id 0 = eraseStamp E sim ctrl from rfl] at h
  by_cases hinput : E.input (eraseStamp E sim ctrl) ≠ 0
  · rw [if_pos hinput] at h
    cases htype : (E.heap sim.ip).type with
    | any | literal | range =>
      simp only [htype] at h
      split at h
      · exact .loaded hinput (.consume (by simpa [Consumes, htype] using ‹_›)) h
      · exact some_cases .failed h
    | backreference =>
      simp only [htype] at h
      exact stepBackreference_cases htype hinput h
    | bolAnchor =>
      simp only [htype] at h
      split at h
      · exact .loaded hinput (.bol htype ‹_›) h
      · exact some_cases .failed h
    | eolAnchor =>
      simp only [htype] at h
      split at h
      · exact .loaded hinput (.eol htype ‹_›) h
      · exact some_cases .failed h
    | accepting =>
      simp only [htype] at h
      exact some_cases (.matched (Or.inr htype)) h
    | split | epsilon | interval | capturegrpEnd | capturegrpBegin | tree =>
      simp only [htype] at h
      exact some_cases .failed h
  · rw [if_neg hinput] at h
    exact some_cases (.matched (Or.inl (not_not.mp hinput))) h

/-- The outcomes of one round of `run_nfa`. A thread that matched or failed is
released; one that was queued again stays in its list. -/
inductive Round (E : Env) (fuel : Nat) (s : RunState) : Outcome → Prop where
  | matched {sim sim' : NFASim} {ctrl' : NFASimCtrl} (hheld : s.thread = some sim)
      (hstep : threadStep E fuel sim s.ctrl = some (sim', ctrl')) (hstatus : sim'.status = 1) :
    Round E fuel s (matchCase E s sim' ctrl')
  | failed {sim sim' : NFASim} {ctrl' : NFASimCtrl} (hheld : s.thread = some sim)
      (hstep : threadStep E fuel sim s.ctrl = some (sim', ctrl')) (hstatus : sim'.status = -1) :
    Round E fuel s (.running (s.hold (releaseThread ctrl' sim')))
  | kept {sim sim' : NFASim} {ctrl' : NFASimCtrl} (hheld : s.thread = some sim)
      (hstep : threadStep E fuel sim s.ctrl = some (sim', ctrl')) (hmatch : sim'.status ≠ 1)
      (hfail : sim'.status ≠ -1) :
    Round E fuel s (.running (s.hold ctrl'.shiftActive))
  | swapped (hheld : s.thread = none) (hnext : s.ctrl.nextThreads ≠ []) :
    Round E fuel s (testInput E (s.hold (s.ctrl.nextThreads.head?, { s.ctrl with
      activeThreads := s.ctrl.nextThreads.tail, nextThreads := [], curPos := s.ctrl.curPos + 1 })))
  | restarted {o : Outcome} (hheld : s.thread = none) (hnext : s.ctrl.nextThreads = [])
      (h : restart E fuel s = some o) : Round E fuel s o

/-- Every result of a round is one of the listed outcomes. -/
theorem runStep_cases {s : RunState} {o : Outcome} (h : runStep E fuel s = some o) :
    Round E fuel s o := by
  unfold runStep at h
  cases hheld : s.thread with
  | some sim =>
    simp only [hheld, innerRound] at h
    split at h
    · simp at h
    · rename_i sim' ctrl' hstep
      split at h
      · simp only [Option.some.injEq] at h
        exact h ▸ .matched hheld hstep ‹_›
      · split at h
        · simp only [Option.some.injEq] at h
          exact h ▸ .failed hheld hstep ‹_›
        · simp only [Option.some.injEq] at h
          exact h ▸ .kept hheld hstep ‹_› ‹_›
  | none =>
    simp only [hheld, outerRound] at h
    split at h
    · rename_i hnext
      simp only [Option.some.injEq] at h
      exact h ▸ .swapped hheld hnext
    · rename_i hnext
      exact .restarted hheld (not_not.mp hnext) h

end Recognizer
