import Recognizer.Threads.Load

/-!
# Steps and start states in memory

`thread_step` leaves the thread in its variable when it failed or matched, and has put it into
a list otherwise. `load_start_states` gives every thread it takes to a list.
-/

namespace Recognizer

namespace ThreadMem

open Lockstep

variable {E : Env} {m m' : ThreadMem} {ctrl ctrl' : NFASimCtrl} {sim : Nat} {nfa : Addr}
  {dst : Dst} {la fuel : Nat} {r : NFASim × NFASimCtrl}

/-- A thread after its step: in a list, or still in its variable. -/
structure Stepped (sim : Nat) (r : NFASim × NFASimCtrl) (m' : ThreadMem) : Prop where
  value : m'.sims sim = r.1
  place : r.1.status = 0 ∧ Represents m' r.2 [] ∨
    (r.1.status = -1 ∨ r.1.status = 1) ∧ Represents m' r.2 [sim]

/-- A thread that was loaded during a step has been stepped. -/
theorem Loaded.stepped (h : Loaded [] m sim r m') : Stepped sim r m' := by
  refine ⟨h.value, ?_⟩
  rcases h.place with ⟨hstatus, hrep⟩ | ⟨hstatus, hrep⟩
  · exact .inr ⟨.inl hstatus, hrep⟩
  · exact .inl ⟨hstatus, hrep⟩

/-- Clones of the stepped thread are made for all adjacents but the first, which it takes itself. -/
theorem Represents.stepAdjacents (E : Env) (fuel : Nat) (dst : Dst) (la : Nat)
    (h : Represents m ctrl [sim]) :
    Option.Rel (Stepped sim) (Recognizer.stepAdjacents E fuel (m.sims sim) dst la ctrl)
      (ThreadMem.stepAdjacents E fuel sim dst la m) :=
  rel_imp (h.processAdjacents (mirrors_loadNext E fuel) E (m.sims sim).ip dst la)
    fun _ _ hl => hl.stepped

/-- A thread that keeps its variable and gets a status other than zero. -/
theorem Represents.stop (h : Represents m ctrl [sim]) {status : Int}
    (hstatus : status = -1 ∨ status = 1) :
    Stepped sim (setStatus (m.sims sim) status, ctrl) (m.modify sim (setStatus · status)) :=
  ⟨modify_sims_self, .inr ⟨hstatus, h.modify⟩⟩

/-- The byte under the position is the same for both simulators. -/
theorem Represents.input (h : Represents m ctrl [sim]) : E.input m.ctrl = E.input ctrl :=
  h.read E.input rfl

/-- The position is the same for both simulators. -/
theorem Represents.curPos {held : List Nat} (h : Represents m ctrl held) :
    m.ctrl.curPos = ctrl.curPos :=
  h.read (·.curPos) rfl

/-- A backreference is waited on, passed or failed by both simulators alike. -/
theorem Represents.stepBackreference (E : Env) (fuel : Nat) (h : Represents m ctrl [sim]) :
    Option.Rel (Stepped sim) (Recognizer.stepBackreference E fuel (m.sims sim) ctrl)
      (ThreadMem.stepBackreference E fuel sim m) := by
  unfold Recognizer.stepBackreference ThreadMem.stepBackreference
  dsimp only
  rw [h.curPos]
  set m₁ := m.modify sim (openBackreference E · ctrl.curPos) with hm₁
  have hvalue : m₁.sims sim = openBackreference E (m.sims sim) ctrl.curPos := modify_sims_self
  have h₁ : Represents m₁ ctrl [sim] := h.modify
  rw [← hvalue, h₁.input, h₁.curPos]
  split
  · split
    · have hclosed := (h₁.modify (f := (closeBackreference · ctrl.curPos))).stepAdjacents E fuel
        .next (ctrl.curPos + 1)
      rw [modify_sims_self] at hclosed
      exact hclosed
    · have hmoved := (h₁.modify (f := nextInSpan)).put .next
      rw [modify_sims_self] at hmoved
      refine .some ⟨?_, .inl ⟨rfl, hmoved⟩⟩
      rw [simPoolAppend_sims]
      exact modify_sims_self
  · exact .some (h₁.stop (.inl rfl))

/-- One `thread_step` of a linked thread is one `threadStep` of its contents. -/
theorem Represents.threadStep (E : Env) (fuel : Nat) (h : Represents m ctrl [sim]) :
    Option.Rel (Stepped sim) (Recognizer.threadStep E fuel (m.sims sim) ctrl)
      (ThreadMem.threadStep E fuel sim m) := by
  unfold Recognizer.threadStep ThreadMem.threadStep
  dsimp only
  set n := E.heap (m.sims sim).ip
  set m₁ := m.onCtrl fun c => c.stamp n.id 0 with hm₁
  have h₁ : Represents m₁ (ctrl.stamp n.id 0) [sim] := h.onCtrl rfl rfl
  have hfail : Option.Rel (Stepped sim) (some (setStatus (m.sims sim) (-1), ctrl.stamp n.id 0))
      (some (m₁.modify sim (setStatus · (-1)))) := .some (h₁.stop (.inl rfl))
  have hconsume := (h₁.modify (f := (updateMatch · (ctrl.stamp n.id 0).curPos))).stepAdjacents E
    fuel .next ((ctrl.stamp n.id 0).curPos + 1)
  rw [modify_sims_self] at hconsume
  rw [h₁.input, h₁.curPos]
  split
  · cases n.type with
    | any =>
      dsimp only
      split
      · exact hconsume
      · exact hfail
    | literal =>
      dsimp only
      split
      · exact hconsume
      · exact hfail
    | range =>
      dsimp only
      split
      · exact hconsume
      · exact hfail
    | backreference => exact h₁.stepBackreference E fuel
    | bolAnchor =>
      dsimp only
      split
      · exact h₁.stepAdjacents E fuel .active _
      · exact hfail
    | eolAnchor =>
      dsimp only
      split
      · exact h₁.stepAdjacents E fuel .next _
      · exact hfail
    | accepting => exact .some (h₁.stop (.inr rfl))
    | _ => exact hfail
  · exact .some (h₁.stop (.inr rfl))

/-- One start state is loaded alike: the thread comes from the pool of either simulator. -/
theorem Represents.loadStartState (E : Env) (fuel la : Nat) (nfa : Addr)
    (h : Represents m ctrl []) :
    Option.Rel (fun c m' => Represents m' c [])
      (Recognizer.loadStartState E fuel la nfa ctrl)
      (ThreadMem.loadStartState E fuel la nfa m) := by
  unfold Recognizer.loadStartState ThreadMem.loadStartState
  obtain ⟨clone, newThread, m₁, htake, h₁, -, -, hstart⟩ := h.takeThread none
  rw [htake]
  dsimp only [acquireStart]
  set m₂ := if newThread = true then m₁
    else m₁.modify clone fun t => { t with loopRecord := fun _ => 0 } with hm₂
  have h₂ : Represents m₂ (ctrl.acquire none) [clone] := by
    rw [hm₂]
    split
    · exact h₁
    · exact h₁.modify
  have h₃ : Represents (m₂.modify clone (startFrom · nfa)) (ctrl.acquire none) [clone] := h₂.modify
  have hvalue : (m₂.modify clone (startFrom · nfa)).sims clone =
      startMemory ctrl.threadPool.head? nfa := by
    rw [modify_sims_self, ← hstart nfa, hm₂]
    split
    · rfl
    · rw [modify_sims_self]
  rw [← hvalue]
  split
  · split
    · have hput := (h₃.modify (f := (visit · nfa la))).put .active
      rw [modify_sims_self] at hput
      exact .some hput
    · exact .some (h₃.put .pool)
  · rcases rel_cases (mirrors_loadNext E fuel nfa .active la h₃) with ⟨hv, hm⟩ | ⟨r, m', hv, hm, hr⟩
    · rw [hv, hm]
      exact .none
    · rw [hv, hm]
      exact .some hr.release.represents

/-- All start states are loaded alike, by induction on their list. -/
theorem Represents.loadStartStates (E : Env) (fuel la : Nat) (h : Represents m ctrl []) :
    Option.Rel (fun c m' => Represents m' c [])
      (Recognizer.loadStartStates E fuel la ctrl) (ThreadMem.loadStartStates E fuel la m) :=
  rel_foldlM (fun nfa _ _ hrep => hrep.loadStartState E fuel la nfa) _ h

end ThreadMem

end Recognizer
