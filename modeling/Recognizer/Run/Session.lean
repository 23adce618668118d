import Recognizer.Core.Transition
import Recognizer.Source.Run

/-!
# Runs of the simulator over lines

A session is the life of one simulator: it is idle between lines, and busy with
a line while `run_nfa` makes its rounds. Every property of the reachable states
of `run_nfa` is stated over the states a session reaches.
-/

namespace Recognizer

open TransitionSystem

/-- Where a simulator is: between two lines, or in `run_nfa` on a line. -/
inductive Phase where
  | idle (ctrl : NFASimCtrl)
  | busy (line : Line) (o : Outcome)

/-- The control block a line starts with. -/
def freshLine (line : Line) (ctrl : NFASimCtrl) : NFASimCtrl :=
  resetNfaSim line { ctrl with reports := [] }

/-- The steps of a simulator that is fed lines from `L`. -/
inductive SimStep (E : Env) (L : Line → Prop) : Phase → Phase → Prop where
  | start {line : Line} {ctrl : NFASimCtrl} {fuel : Nat} {o : Outcome} (hline : L line)
      (h : startRun (E.onLine line) fuel (freshLine line ctrl) = some o) :
    SimStep E L (.idle ctrl) (.busy line o)
  | round {line : Line} {s : RunState} {fuel : Nat} {o : Outcome}
      (h : runStep (E.onLine line) fuel s = some o) :
    SimStep E L (.busy line (.running s)) (.busy line o)
  | finish {line : Line} {s : RunState} :
    SimStep E L (.busy line (.released s)) (.idle (finishRun (E.onLine line) s).2)

/-- The session of a new simulator. -/
def session (E : Env) (L : Line → Prop) : System Phase where
  init p := p = .idle (newNfaSim E)
  step := SimStep E L

/-- The states of `run_nfa` on a line, in a session. -/
def Reaches (E : Env) (L : Line → Prop) (line : Line) (s : RunState) : Prop :=
  Reachable (session E L) (.busy line (.running s))

variable {E : Env} {L : Line → Prop} {fuel : Nat}

/-- The rounds of a bounded loop are steps of the session. -/
theorem chain_runLoop {line : Line} {k : Nat} {o : Outcome} {s : RunState}
    (h : runLoop (E.onLine line) fuel k o = some s) :
    Relation.ReflTransGen (SimStep E L) (.busy line o) (.busy line (.released s)) := by
  induction k generalizing o with
  | zero =>
    cases o with
    | running s' => simp [runLoop] at h
    | released s' =>
      simp only [runLoop, Option.some.injEq] at h
      exact h ▸ .refl
  | succ k ih =>
    cases o with
    | running s' =>
      simp only [runLoop] at h
      split at h
      · simp at h
      · rename_i o' heq
        exact .head (.round heq) (ih h)
    | released s' =>
      simp only [runLoop, Option.some.injEq] at h
      exact h ▸ .refl

/-- One line processed by `run_nfa` is a stretch of a session. -/
theorem chain_runLine {line : Line} (hline : L line) {ctrl ctrl' : NFASimCtrl} {value : Bool}
    {reports : List Match}
    (h : runLine (E.onLine line) fuel ctrl = some (value, reports, ctrl')) :
    Relation.ReflTransGen (SimStep E L) (.idle ctrl) (.idle ctrl') := by
  simp only [runLine, runNfa, Option.bind_eq_bind, Option.bind_eq_some_iff, Option.some.injEq,
    Prod.mk.injEq, Prod.exists] at h
  obtain ⟨v, c, ⟨o, hstart, s, hloop, hfinish⟩, rfl, rfl, rfl⟩ := h
  have hc : c = (finishRun (E.onLine line) s).2 := by rw [hfinish]
  refine .head (.start hline hstart) ((chain_runLoop hloop).tail ?_)
  exact hc ▸ .finish

/-- Lines processed one after another are a stretch of a session. -/
theorem chain_runLines {lines : List Line} (hlines : ∀ l ∈ lines, L l) {ctrl ctrl' : NFASimCtrl}
    {results : List (Bool × List Match)}
    (h : runLines E fuel lines ctrl = some (results, ctrl')) :
    Relation.ReflTransGen (SimStep E L) (.idle ctrl) (.idle ctrl') := by
  induction lines generalizing ctrl results with
  | nil =>
    simp only [runLines, Option.some.injEq, Prod.mk.injEq] at h
    exact h.2 ▸ .refl
  | cons line rest ih =>
    simp only [runLines, Option.bind_eq_bind, Option.bind_eq_some_iff, Option.some.injEq,
      Prod.mk.injEq, Prod.exists] at h
    obtain ⟨v, r, c, hline, rs, c', hrest, _, rfl⟩ := h
    exact (chain_runLine (hlines line (by simp)) hline).trans
      (ih (fun l hl => hlines l (by simp [hl])) hrest)

/-- A line of the given characters. -/
def lineOf (s : String) : Line := { buffer := 2, one_lt_buffer := Nat.one_lt_two, text := bytes s }

/-- The first `k` rounds of `run_nfa` on a line, from an idle simulator. -/
def roundsFrom (E : Env) (fuel : Nat) (line : Line) (ctrl : NFASimCtrl) : Nat → Option Outcome
  | 0 => startRun (E.onLine line) fuel (freshLine line ctrl)
  | k + 1 =>
    match roundsFrom E fuel line ctrl k with
    | some (.running s) => runStep (E.onLine line) fuel s
    | o => o

/-- The rounds computed from an idle simulator of a session are reached by it. -/
theorem reachable_roundsFrom {line : Line} (hline : L line) {ctrl : NFASimCtrl}
    (hctrl : Reachable (session E L) (.idle ctrl)) {k : Nat} {o : Outcome}
    (h : roundsFrom E fuel line ctrl k = some o) : Reachable (session E L) (.busy line o) := by
  induction k generalizing o with
  | zero => exact hctrl.step (.start hline h)
  | succ k ih =>
    simp only [roundsFrom] at h
    split at h
    · rename_i s heq
      exact (ih heq).step (.round h)
    · exact ih h

end Recognizer
