import Recognizer.Core.Lockstep
import Recognizer.Threads.Represents

/-!
# Loading a thread in memory

`load_next` changes the thread it is given in place, while `thread_clone` writes to a thread
that no variable holds. So the threads in variables of the calls in progress stay as they are,
and the loads of threads in memory and of threads as values run in lockstep.
-/

namespace Recognizer

namespace ThreadMem

open Lockstep

variable {E : Env} {load : Loader} {mload : MemLoader} {m m' m'' : ThreadMem}
  {ctrl ctrl' : NFASimCtrl} {held : List Nat} {sim : Nat} {nfa : Addr} {dst : Dst} {la : Nat}
  {fuel : Nat} {r : NFASim × NFASimCtrl}

/-- The memory still represents the control block, and the held threads are as they were. -/
structure Tracked (held : List Nat) (m : ThreadMem) (ctrl' : NFASimCtrl) (m' : ThreadMem) :
    Prop where
  represents : Represents m' ctrl' held
  keeps : Keeps held m m'

/-- A step that keeps the held threads may be put before a tracked one. -/
theorem Tracked.after (hkeeps : Keeps held m m') (h : Tracked held m' ctrl' m'') :
    Tracked held m ctrl' m'' :=
  ⟨h.represents, hkeeps.trans h.keeps⟩

/-- A loaded thread holds the value that was loaded; it is in a list unless it failed. -/
structure Loaded (held : List Nat) (m : ThreadMem) (sim : Nat) (r : NFASim × NFASimCtrl)
    (m' : ThreadMem) : Prop where
  value : m'.sims sim = r.1
  keeps : Keeps held m m'
  place : r.1.status = -1 ∧ Represents m' r.2 (sim :: held) ∨
    r.1.status = 0 ∧ Represents m' r.2 held

/-- A step that keeps the held threads may be put before a loaded one. -/
theorem Loaded.after (hkeeps : Keeps held m m') (h : Loaded held m' sim r m'') :
    Loaded held m sim r m'' :=
  ⟨h.value, hkeeps.trans h.keeps, h.place⟩

/-- A load in memory does to the held thread what the load of its value does. -/
def Mirrors (load : Loader) (mload : MemLoader) : Prop :=
  ∀ {m : ThreadMem} {ctrl : NFASimCtrl} {sim : Nat} {held : List Nat} (nfa : Addr) (dst : Dst)
    (la : Nat), Represents m ctrl (sim :: held) →
    Option.Rel (Loaded held m sim) (load (m.sims sim) nfa dst la ctrl) (mload sim nfa dst la m)

/-- What becomes of a thread after its load: a failed one goes back to the pool. -/
theorem Loaded.release (h : Loaded held m sim r m') :
    Tracked held m (if r.1.status = -1 then r.2.release r.1 else r.2)
      (if (m'.sims sim).status = -1 then m'.simPoolAppend .pool sim else m') := by
  rw [h.value]
  rcases h.place with ⟨hstatus, hrep⟩ | ⟨hstatus, hrep⟩
  · rw [if_pos hstatus, if_pos hstatus]
    refine ⟨?_, h.keeps.trans (Keeps.of_sims simPoolAppend_sims)⟩
    rw [← h.value]
    exact hrep.put .pool
  · rw [if_neg (by rw [hstatus]; decide), if_neg (by rw [hstatus]; decide)]
    exact ⟨hrep, h.keeps⟩

/-- A thread that gets its node and is put into a list. -/
theorem Represents.settle (h : Represents m ctrl (sim :: held)) (nfa : Addr) (l : ThreadList) :
    Loaded held m sim (Recognizer.settle (m.sims sim) nfa,
      ctrl.put l (Recognizer.settle (m.sims sim) nfa))
      ((m.modify sim (Recognizer.settle · nfa)).simPoolAppend l sim) := by
  have hput := (h.modify (f := (Recognizer.settle · nfa))).put l
  rw [modify_sims_self] at hput
  refine ⟨?_, ?_, .inr ⟨rfl, hput⟩⟩
  · rw [simPoolAppend_sims]
    exact modify_sims_self
  · exact h.keeps_modify.trans (Keeps.of_sims simPoolAppend_sims)

/-- A thread that failed. -/
theorem Represents.fail (h : Represents m ctrl (sim :: held)) :
    Loaded held m sim (setStatus (m.sims sim) (-1), ctrl) (m.modify sim (setStatus · (-1))) :=
  ⟨modify_sims_self, h.keeps_modify, .inl ⟨rfl, h.modify⟩⟩

/-- At a node of no special kind the thread is put on its list, or fails and is still held. -/
theorem Represents.loadDefault (E : Env) (nfa : Addr) (dst : Dst) (la : Nat)
    (h : Represents m ctrl (sim :: held)) :
    Loaded held m sim (Recognizer.loadDefault E (m.sims sim) nfa dst la ctrl)
      (ThreadMem.loadDefault E sim nfa dst la m) := by
  have hstamp : m.ctrl.activeThreadsSp (E.heap nfa).id = ctrl.activeThreadsSp (E.heap nfa).id :=
    h.read (·.activeThreadsSp (E.heap nfa).id) rfl
  unfold Recognizer.loadDefault ThreadMem.loadDefault
  dsimp only
  rw [modify_sims_self, modify_ctrl, hstamp, show (setStatus (m.sims sim) (-1)).trackingIntervals =
    (m.sims sim).trackingIntervals from rfl]
  split
  · split
    · have hfailed : Represents (m.modify sim (setStatus · (-1))) ctrl (sim :: held) := h.modify
      have hstamped : Represents ((m.modify sim (setStatus · (-1))).onCtrl
          fun c => c.stamp (E.heap nfa).id la) (ctrl.stamp (E.heap nfa).id la) (sim :: held) :=
        hfailed.onCtrl rfl rfl
      have hsettled := hstamped.settle nfa dst.list
      rw [onCtrl_sims, modify_sims_self, NFASimCtrl.put_dst] at hsettled
      have hkeeps : Keeps held m ((m.modify sim (setStatus · (-1))).onCtrl
          fun c => c.stamp (E.heap nfa).id la) :=
        (h.keeps_modify (f := (setStatus · (-1)))).trans (Keeps.of_sims rfl)
      exact hsettled.after hkeeps
    · exact h.fail
  · have hdropped : Represents m (ctrl.noteDrop (m.sims sim) nfa la) (sim :: held) :=
      h.of_others rfl rfl
    exact hdropped.fail

section Load

variable (hload : Mirrors load mload)

include hload

/-- A clone takes a thread from the pool, copies the slots and loads it. -/
theorem Represents.threadClone (E : Env) (nfa : Addr) (dst : Dst) (la : Nat)
    (h : Represents m ctrl held) (hsim : sim ∈ held) :
    Option.Rel (Tracked held m) (Recognizer.threadClone E load nfa (m.sims sim) dst la ctrl)
      (ThreadMem.threadClone E mload nfa sim dst la m) := by
  unfold Recognizer.threadClone ThreadMem.threadClone
  split
  · obtain ⟨clone, newThread, m₁, htake, hrep, hkeeps, hclone, -⟩ :=
      h.takeThread (some (m.sims sim))
    rw [htake]
    dsimp only [acquireClone]
    have hloaded := hload nfa dst la
      (hrep.modify (f := fun t => cloneFrom t newThread (m₁.sims sim) nfa))
    rw [modify_sims_self, hclone, hkeeps sim hsim] at hloaded
    have hafter : Keeps held m (m₁.modify clone fun t => cloneFrom t newThread (m₁.sims sim) nfa) :=
      hkeeps.trans hrep.keeps_modify
    rw [hkeeps sim hsim] at hafter ⊢
    rcases rel_cases hloaded with ⟨hv, hm⟩ | ⟨r, m', hv, hm, hr⟩
    · rw [hv, hm]
      exact .none
    · rw [hv, hm]
      exact .some ((hr.after hafter).release)
  · exact .some ⟨h, Keeps.refl held m⟩

/-- Clones for every adjacent of a list, by induction on the list. -/
theorem Represents.cloneEach (E : Env) (dst : Dst) (la : Nat) (xs : List Addr)
    (h : Represents m ctrl held) (hsim : sim ∈ held) :
    Option.Rel (Tracked held m) (Recognizer.cloneEach E load (m.sims sim) dst la xs ctrl)
      (ThreadMem.cloneEach E mload sim dst la xs m) := by
  induction xs generalizing m ctrl with
  | nil => exact .some ⟨h, Keeps.refl held m⟩
  | cons nfa xs ih =>
    unfold Recognizer.cloneEach ThreadMem.cloneEach
    rcases rel_cases (h.threadClone hload E nfa dst la hsim) with
      ⟨hv, hm⟩ | ⟨c, m₁, hv, hm, hr⟩
    · rw [hv, hm]
      exact .none
    · rw [hv, hm]
      have hrest := ih hr.represents
      rw [hr.keeps sim hsim] at hrest
      exact rel_imp hrest fun _ _ ht => ht.after hr.keeps

/-- The thread itself goes to the adjacent at one index. -/
theorem Represents.loadAt (xs : List Addr) (i : Nat) (dst : Dst) (la : Nat)
    (h : Represents m ctrl (sim :: held)) :
    Option.Rel (Loaded held m sim) (Recognizer.loadAt load (m.sims sim) xs i dst la ctrl)
      (ThreadMem.loadAt mload sim xs i dst la m) := by
  unfold Recognizer.loadAt ThreadMem.loadAt
  cases xs[i]? with
  | none => exact .none
  | some nfa => exact hload nfa dst la h

/-- A load at an index after clones for other nodes. -/
theorem Tracked.loadAt (xs : List Addr) (i : Nat) (dst : Dst) (la : Nat)
    (h : Tracked (sim :: held) m ctrl m') :
    Option.Rel (Loaded held m sim) (Recognizer.loadAt load (m.sims sim) xs i dst la ctrl)
      (ThreadMem.loadAt mload sim xs i dst la m') := by
  have hlast := h.represents.loadAt hload xs i dst la
  rw [h.keeps sim List.mem_cons_self] at hlast
  exact rel_imp hlast fun _ _ hl => hl.after h.keeps.of_cons

/-- Clones go to all adjacents but the first, which the thread takes itself. -/
theorem Represents.processAdjacents (E : Env) (nfa : Addr) (dst : Dst) (la : Nat)
    (h : Represents m ctrl (sim :: held)) :
    Option.Rel (Loaded held m sim)
      (Recognizer.processAdjacents E load (m.sims sim) nfa dst la ctrl)
      (ThreadMem.processAdjacents E mload sim nfa dst la m) := by
  unfold Recognizer.processAdjacents ThreadMem.processAdjacents
  dsimp only
  rcases rel_cases (h.cloneEach hload E dst la (E.heap nfa).reachable.tail List.mem_cons_self) with
    ⟨hv, hm⟩ | ⟨c, m₁, hv, hm, hr⟩
  · rw [hv, hm]
    exact .none
  · rw [hv, hm]
    exact hr.loadAt hload (E.heap nfa).reachable 0 dst la

/-- One round of `list_for_each` after another, by induction on the loop's fuel. -/
theorem Represents.forEachLoop (E : Env) (nfa : Addr) (finish : Nat) (dst : Dst) (la fuel : Nat)
    (h : Represents m ctrl held) (hsim : sim ∈ held) :
    Option.Rel (Tracked held m)
      (Recognizer.forEachLoop E load nfa finish (m.sims sim) dst la fuel ctrl)
      (ThreadMem.forEachLoop E mload nfa finish sim dst la fuel m) := by
  induction fuel generalizing m ctrl with
  | zero => exact .none
  | succ fuel ih =>
    have hidx : m.ctrl.iterIdx nfa = ctrl.iterIdx nfa := h.read (·.iterIdx nfa) rfl
    unfold Recognizer.forEachLoop ThreadMem.forEachLoop
    dsimp only
    rw [hidx]
    have hcursor : Represents (m.onCtrl fun c => c.setCursor nfa (ctrl.iterIdx nfa + 1))
        (ctrl.setCursor nfa (ctrl.iterIdx nfa + 1)) held := h.onCtrl rfl rfl
    split
    · exact .some ⟨h, Keeps.refl held m⟩
    · split
      · rcases rel_cases (hcursor.threadClone hload E
          ((E.heap nfa).reachable.getD (ctrl.iterIdx nfa).toNat 0) dst la hsim) with
          ⟨hv, hm⟩ | ⟨c, m₁, hv, hm, hr⟩
        · rw [onCtrl_sims] at hv
          rw [hv, hm]
          exact .none
        · rw [onCtrl_sims] at hv
          rw [hv, hm]
          have hkeeps : Keeps held m m₁ := hr.keeps
          have hrest := ih hr.represents
          rw [hkeeps sim hsim] at hrest
          exact rel_imp hrest fun _ _ ht => ht.after hkeeps
      · exact .some ⟨hcursor, Keeps.refl held m⟩

/-- The whole of `list_for_each` between two indices. -/
theorem Represents.forEach (E : Env) (fuel : Nat) (nfa : Addr) (start finish : Nat) (dst : Dst)
    (la : Nat) (h : Represents m ctrl held) (hsim : sim ∈ held) :
    Option.Rel (Tracked held m)
      (Recognizer.forEach E load fuel nfa start finish (m.sims sim) dst la ctrl)
      (ThreadMem.forEach E mload fuel nfa start finish sim dst la m) := by
  have hset : Represents (m.onCtrl (setIterator E nfa start)) (setIterator E nfa start ctrl)
      held := by
    refine h.onCtrl ?_ ?_
    · unfold setIterator
      split <;> rfl
    · unfold setIterator
      split <;> rfl
  have hkeeps : Keeps held m (m.onCtrl (setIterator E nfa start)) := Keeps.of_sims rfl
  exact rel_imp (hset.forEachLoop hload E nfa finish dst la fuel hsim) fun _ _ ht =>
    ht.after hkeeps

/-- Clones go to all exits of an interval but the first, which the thread takes itself. -/
theorem Represents.loadExit (E : Env) (fuel : Nat) (nfa : Addr) (dst : Dst) (la : Nat)
    (h : Represents m ctrl (sim :: held)) :
    Option.Rel (Loaded held m sim)
      (Recognizer.loadExit E load fuel (m.sims sim) nfa dst la ctrl)
      (ThreadMem.loadExit E mload fuel sim nfa dst la m) := by
  unfold Recognizer.loadExit ThreadMem.loadExit
  dsimp only
  rcases rel_cases (h.forEach hload E fuel nfa ((E.heap nfa).splitIdx + 1)
    (E.heap nfa).reachable.length dst la List.mem_cons_self) with ⟨hv, hm⟩ | ⟨c, m₁, hv, hm, hr⟩
  · rw [hv, hm]
    exact .none
  · rw [hv, hm]
    exact hr.loadAt hload (E.heap nfa).reachable (E.heap nfa).splitIdx dst la

/-- The exit of an interval after clones, with an assignment to the thread before it. -/
theorem Tracked.loadExit (E : Env) (fuel : Nat) (nfa : Addr) (dst : Dst) (la : Nat)
    (f : NFASim → NFASim) (h : Tracked (sim :: held) m ctrl m') :
    Option.Rel (Loaded held m sim)
      (Recognizer.loadExit E load fuel (f (m.sims sim)) nfa dst la ctrl)
      (ThreadMem.loadExit E mload fuel sim nfa dst la (m'.modify sim f)) := by
  have hexit := (h.represents.modify (f := f)).loadExit hload E fuel nfa dst la
  rw [modify_sims_self, h.keeps sim List.mem_cons_self] at hexit
  exact rel_imp hexit fun _ _ hl => hl.after (h.keeps.of_cons.trans h.represents.keeps_modify)

/-- At an interval the count is advanced, and the thread goes into the body, out of it or both. -/
theorem Represents.loadInterval (E : Env) (fuel : Nat) (nfa : Addr) (dst : Dst) (la : Nat)
    (h : Represents m ctrl (sim :: held)) :
    Option.Rel (Loaded held m sim)
      (Recognizer.loadInterval E load fuel (m.sims sim) nfa dst la ctrl)
      (ThreadMem.loadInterval E mload fuel sim nfa dst la m) := by
  have hpos : m.ctrl.lastIntervalPos = ctrl.lastIntervalPos := h.read (·.lastIntervalPos) rfl
  unfold Recognizer.loadInterval ThreadMem.loadInterval
  dsimp only
  set n := E.heap nfa
  set count := (m.sims sim).loopRecord n.id + 1
  set m₁ := m.modify sim fun t =>
    setCount { t with intervalCount := t.intervalCount + 1 } n.id count with hm₁
  have hvalue : m₁.sims sim =
      setCount { m.sims sim with intervalCount := (m.sims sim).intervalCount + 1 } n.id count :=
    modify_sims_self
  have h₁ : Represents m₁ ctrl (sim :: held) := h.modify
  have hkeeps : Keeps held m m₁ := h.keeps_modify
  rw [← hvalue]
  -- the thread with another loop counted
  set m₂ := m₁.modify sim (track · 1) with hm₂
  have hmore : m₂.sims sim = track (m₁.sims sim) 1 := modify_sims_self
  have h₂ : Represents m₂ ctrl (sim :: held) := h₁.modify
  have hkeeps₂ : Keeps held m m₂ := hkeeps.trans h₁.keeps_modify
  have hpos₂ : m₂.ctrl.lastIntervalPos = ctrl.lastIntervalPos := hpos
  rw [← hmore]
  split
  · -- fewer loops than the minimum
    rcases rel_cases (h₂.forEach hload E fuel nfa 1 n.splitIdx dst la List.mem_cons_self) with
      ⟨hv, hm⟩ | ⟨c, m', hv, hm, hr⟩
    · rw [hv, hm]
      exact .none
    · rw [hv, hm]
      exact rel_imp (hr.loadAt hload n.reachable 0 dst la) fun _ _ hl => hl.after hkeeps₂
  · split
    · split
      · rw [hpos₂]
        split
        · -- the loop has read nothing since the last one
          have hexit := (h₂.modify (f := fun t => track (setCount t n.id 0) (-1))).loadExit hload E
            fuel nfa dst la
          rw [modify_sims_self] at hexit
          exact rel_imp hexit fun _ _ hl => hl.after (hkeeps₂.trans h₂.keeps_modify)
        · set m₃ := if n.cycleFlag then m₂.onCtrl fun c => c.setIntervalPos la else m₂ with hm₃
          have hsims : m₃.sims = m₂.sims := by
            rw [hm₃]
            split <;> rfl
          have h₃ : Represents m₃ (if n.cycleFlag then ctrl.setIntervalPos la else ctrl)
              (sim :: held) := by
            rw [hm₃]
            split
            · exact h₂.onCtrl rfl rfl
            · exact h₂
          rw [← hsims]
          rcases rel_cases (h₃.forEach hload E fuel nfa 0 n.splitIdx dst la List.mem_cons_self) with
            ⟨hv, hm⟩ | ⟨c, m', hv, hm, hr⟩
          · rw [hv, hm]
            exact .none
          · rw [hv, hm]
            exact rel_imp (hr.loadExit hload E fuel nfa dst la
              fun t => track (setCount t n.id 0) (-1)) fun _ _ hl =>
                hl.after (hkeeps₂.trans (Keeps.of_sims hsims))
      · -- the last loop of a bounded interval
        set m₃ := m₁.modify sim fun t => setCount (track t (-1)) n.id 0 with hm₃
        have hlast : m₃.sims sim = setCount (track (m₁.sims sim) (-1)) n.id 0 := modify_sims_self
        have h₃ : Represents m₃ ctrl (sim :: held) := h₁.modify
        have hkeeps₃ : Keeps held m m₃ := hkeeps.trans h₁.keeps_modify
        rw [← hlast]
        split
        · rcases rel_cases (h₃.forEach hload E fuel nfa 1 n.reachable.length dst la
            List.mem_cons_self) with ⟨hv, hm⟩ | ⟨c, m', hv, hm, hr⟩
          · rw [hv, hm]
            exact .none
          · rw [hv, hm]
            exact rel_imp (hr.loadAt hload n.reachable 0 dst la) fun _ _ hl => hl.after hkeeps₃
        · exact rel_imp (h₃.loadExit hload E fuel nfa dst la) fun _ _ hl => hl.after hkeeps₃
    · -- no upper limit
      rcases rel_cases (h₂.forEach hload E fuel nfa 0 n.splitIdx dst la List.mem_cons_self) with
        ⟨hv, hm⟩ | ⟨c, m', hv, hm, hr⟩
      · rw [hv, hm]
        exact .none
      · rw [hv, hm]
        dsimp only
        by_cases haccepts : n.acceptsFlag = true
        · rw [if_pos haccepts, if_pos haccepts]
          have hexit := hr.represents.loadExit hload E fuel nfa dst la
          rw [hr.keeps sim List.mem_cons_self] at hexit
          exact rel_imp hexit fun _ _ hl => hl.after (hkeeps₂.trans hr.keeps.of_cons)
        · rw [if_neg haccepts, if_neg haccepts]
          exact rel_imp (hr.loadExit hload E fuel nfa dst la (setCount · n.id 0)) fun _ _ hl =>
            hl.after hkeeps₂

/-- One unfolding of `load_next`: its cases agree when the recursive calls do. -/
theorem Represents.loadNextBody (E : Env) (fuel : Nat) (nfa : Addr) (dst : Dst) (la : Nat)
    (h : Represents m ctrl (sim :: held)) :
    Option.Rel (Loaded held m sim)
      (Recognizer.loadNextBody E load fuel (m.sims sim) nfa dst la ctrl)
      (ThreadMem.loadNextBody E mload fuel sim nfa dst la m) := by
  unfold Recognizer.loadNextBody ThreadMem.loadNextBody
  dsimp only
  set m₁ := m.modify sim (visit · nfa la) with hm₁
  have hvalue : m₁.sims sim = visit (m.sims sim) nfa la := modify_sims_self
  have h₁ : Represents m₁ ctrl (sim :: held) := h.modify
  have hkeeps : Keeps held m m₁ := h.keeps_modify
  rw [← hvalue]
  cases (E.heap nfa).type with
  | capturegrpBegin =>
    have hgroup := (h₁.modify (f := (beginGroup · (E.heap nfa).id la))).processAdjacents hload E
      nfa dst la
    rw [modify_sims_self] at hgroup
    exact rel_imp hgroup fun _ _ hl => hl.after (hkeeps.trans h₁.keeps_modify)
  | capturegrpEnd =>
    have hgroup := (h₁.modify (f := (endGroup · (E.heap nfa).id la))).processAdjacents hload E
      nfa dst la
    rw [modify_sims_self] at hgroup
    exact rel_imp hgroup fun _ _ hl => hl.after (hkeeps.trans h₁.keeps_modify)
  | interval =>
    exact rel_imp (h₁.loadInterval hload E fuel nfa dst la) fun _ _ hl => hl.after hkeeps
  | accepting => exact .some ((h₁.settle nfa .active).after hkeeps)
  | _ => exact .some ((h₁.loadDefault E nfa dst la).after hkeeps)

end Load

/-- `load_next` on a thread in memory mirrors `load_next` on its value. -/
theorem mirrors_loadNext (E : Env) (fuel : Nat) :
    Mirrors (Recognizer.loadNext E fuel) (ThreadMem.loadNext E fuel) := by
  induction fuel with
  | zero => exact fun _ _ _ _ => .none
  | succ fuel ih => exact fun nfa dst la h => h.loadNextBody ih E fuel nfa dst la

end ThreadMem

end Recognizer
