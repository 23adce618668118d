import Recognizer.Run.EndOfLine
import Recognizer.Run.Captures

/-!
# One thread a node for the next position

Without intervals the stamps alone keep a load from queueing a second thread at a
node. A step erases the stamp of its own node first, although another thread of
the same round may have stamped it for the next position already. As long as
every load finds the stamps of the threads that wait, they wait at different nodes.
-/

namespace Recognizer

open TransitionSystem

variable {E : Env} {L : Line → Prop} {fuel la : Nat} {sim sim' : NFASim} {ctrl ctrl' : NFASimCtrl}

/-- No thread waits in `next_threads` at a node another one waits at. -/
def OneEach (ctrl : NFASimCtrl) : Prop := (ctrl.nextThreads.map NFASim.ip).Nodup

/-- A thread waits in `next_threads` at the node. -/
def WaitsAt (ctrl : NFASimCtrl) (k : Addr) : Prop := k ∈ ctrl.nextThreads.map NFASim.ip

/-- The nodes of the reachable list of a node whose loads can queue a thread, in a
graph without intervals. -/
def QueuesFrom (E : Env) (la : Nat) (nfa k : Addr) : Prop :=
  ∃ n ∈ (E.heap nfa).reachable, LoadsTo E n false k ∧ Stops (E.heap k) ∧
    E.passesLookahead (E.heap k) la = true

/-- A step of the thread finds every thread that waits where the step would queue
one: the load finds its stamp, and a backreference that reads on finds none. -/
structure StampsHold (E : Env) (sim : NFASim) (ctrl : NFASimCtrl) : Prop where
  loads : E.input ctrl ≠ 0 → ∀ sim₁ la, Advance E sim ctrl sim₁ .next la →
    ∀ k, QueuesFrom E la sim₁.ip k → WaitsAt ctrl k →
      (eraseStamp E sim ctrl).activeThreadsSp (E.heap k).id = la
  waits : Waits E sim ctrl → ¬ WaitsAt ctrl sim.ip

/-- The guard of the runs with one thread a node. -/
def StampGuard (E : Env) : Phase → Prop
  | .busy line (.running s) => ∀ sim, s.thread = some sim → StampsHold (E.onLine line) sim s.ctrl
  | _ => True

/-- Each time the active list has been exhausted, `next_threads` holds at most one
thread for each node. -/
def OneThreadEachNode (S : System Phase) : Prop :=
  ∀ line s, Reachable S (.busy line (.running s)) → s.thread = none → OneEach s.ctrl

/-- No thread counts the loops of an interval. -/
def Untracked (ctrl : NFASimCtrl) : Prop :=
  ∀ sim ∈ ctrl.threadPool ++ ctrl.activeThreads ++ ctrl.nextThreads, sim.trackingIntervals = 0

namespace Untracked

theorem append (h : Untracked ctrl) (dst : Dst) (hs : sim.trackingIntervals = 0) :
    Untracked (ctrl.append dst sim) := by
  intro t ht
  have ht' : t ∈ ctrl.threadPool ++ ctrl.activeThreads ++ ctrl.nextThreads ∨ t = sim := by
    cases dst with
    | active | next =>
      simp only [NFASimCtrl.append, List.mem_append, List.mem_singleton] at ht ⊢
      tauto
  rcases ht' with hold | rfl
  · exact h t hold
  · exact hs

theorem release (h : Untracked ctrl) (hs : sim.trackingIntervals = 0) :
    Untracked (ctrl.release sim) := by
  intro t ht
  have ht' : t ∈ ctrl.threadPool ++ ctrl.activeThreads ++ ctrl.nextThreads ∨ t = sim := by
    simp only [NFASimCtrl.release, List.mem_append, List.mem_singleton] at ht ⊢
    tauto
  rcases ht' with hold | rfl
  · exact h t hold
  · exact hs

theorem acquire (h : Untracked ctrl) (source : Option NFASim) :
    Untracked (ctrl.acquire source) := by
  intro t ht
  apply h t
  simp only [NFASimCtrl.acquire, List.mem_append] at ht ⊢
  rcases ht with (hpool | hactive) | hnext
  · exact Or.inl (Or.inl (List.mem_of_mem_tail hpool))
  · exact Or.inl (Or.inr hactive)
  · exact Or.inr hnext

/-- A start state's thread tracks what the memory it was given tracked. -/
theorem startMemory (h : Untracked ctrl) (n : Addr) :
    (startMemory ctrl.threadPool.head? n).trackingIntervals = 0 := by
  cases hpool : ctrl.threadPool with
  | nil => rfl
  | cons t rest => exact h t (by simp [hpool])

/-- Only the members of the three lists matter. -/
theorem of_subset {c d : NFASimCtrl} (h : Untracked c)
    (hsub : ∀ sim ∈ d.threadPool ++ d.activeThreads ++ d.nextThreads,
      sim ∈ c.threadPool ++ c.activeThreads ++ c.nextThreads) : Untracked d :=
  fun sim hsim => h sim (hsub sim hsim)

theorem of_same {c d : NFASimCtrl} (h : Untracked c) (hsame : SameThreads c d) : Untracked d := by
  apply h.of_subset
  intro sim hsim
  rwa [hsame.threadPool, hsame.activeThreads, hsame.nextThreads] at hsim

end Untracked

theorem updateMatch_trackingIntervals (sim : NFASim) (p : Nat) :
    (updateMatch sim p).trackingIntervals = sim.trackingIntervals := by
  unfold updateMatch
  split <;> rfl

theorem openBackreference_trackingIntervals (sim : NFASim) (p : Nat) :
    (openBackreference E sim p).trackingIntervals = sim.trackingIntervals := by
  unfold openBackreference
  split
  · exact updateMatch_trackingIntervals sim p
  · rfl

/-- A step hands on what its thread tracks. -/
theorem Advance.trackingIntervals {sim₁ : NFASim} {dst : Dst} (h : Advance E sim ctrl sim₁ dst la) :
    sim₁.trackingIntervals = sim.trackingIntervals := by
  cases h with
  | consume => exact updateMatch_trackingIntervals ..
  | closeBackreference =>
    exact (updateMatch_trackingIntervals ..).trans (openBackreference_trackingIntervals ..)
  | bol | eol => rfl

/-- Loads over a graph without intervals keep every thread untracked. -/
theorem untrackedRule (E : Env) (hfree : ∀ a, (E.heap a).type ≠ .interval) (dst : Dst) (la : Nat) :
    LoadRule E dst la (fun _ => True) Untracked (fun sim _ => sim.trackingIntervals = 0)
      (fun sim => sim.trackingIntervals = 0) where
  mono _ _ := trivial
  clone ht hi _ := ⟨by simpa using ht, hi.acquire _⟩
  release hr _ hi _ := hi.release hr
  cursor _ _ hi _ := hi
  intervalPos _ hi _ := hi
  groupBegin ht _ _ _ := ht
  groupEnd ht _ _ _ := ht
  interval _ htype := absurd htype (hfree _)
  accepting ht _ hi _ := ⟨hi.append .active ht, ht⟩
  queue := by
    intro sim nfa ctrl ht _ _ _ _ hi _ _ _
    have hstamp : Untracked (ctrl.stamp (E.heap nfa).id la) := hi
    exact ⟨hstamp.append dst ht, ht⟩
  mismatch ht := ht
  drop _ hi _ _ _ := hi

theorem untrackedStartRule (E : Env) (hfree : ∀ a, (E.heap a).type ≠ .interval) (la : Nat) :
    StartRule E la (fun _ => True) Untracked (fun sim _ => sim.trackingIntervals = 0)
      (fun sim => sim.trackingIntervals = 0) where
  toLoadRule := untrackedRule E hfree .active la
  start _ hi _ := ⟨hi.startMemory _, hi.acquire _⟩
  range ht _ _ _ _ hi _ := hi.append .active ht
  skip ht hi _ := hi.release ht

/-- A step keeps every thread untracked. -/
theorem Untracked.threadStep (hfree : ∀ a, (E.heap a).type ≠ .interval) (h : Untracked ctrl)
    (hs : sim.trackingIntervals = 0) (hstep : threadStep E fuel sim ctrl = some (sim', ctrl')) :
    Untracked ctrl' ∧ sim'.trackingIntervals = 0 := by
  have herase : Untracked (eraseStamp E sim ctrl) := h
  have hopen : (openBackreference E sim ctrl.curPos).trackingIntervals = 0 :=
    (openBackreference_trackingIntervals ..).trans hs
  cases threadStep_cases hstep with
  | matched | failed => exact ⟨herase, hs⟩
  | failedBackreference => exact ⟨herase, hopen⟩
  | waited => exact ⟨herase.append .next hopen, hopen⟩
  | @loaded sim₁ dst la _ _ _ hadv hload =>
    have hrule := ((untrackedRule E hfree dst la).stepAdjacents hload).2
    exact hrule (fun _ _ => hadv.trackingIntervals.trans hs) herase trivial

/-- The threads that wait where a load can queue one have its lookahead's stamp,
and no two wait at one node. -/
structure Stamped (E : Env) (la : Nat) (reached : Addr → Prop) (ctrl : NFASimCtrl) : Prop where
  oneEach : OneEach ctrl
  stamps : ∀ k, reached k → WaitsAt ctrl k → ctrl.activeThreadsSp (E.heap k).id = la

/-- A thread queued at an unstamped node is the only one there. -/
theorem Stamped.queue {reached : Addr → Prop} {nfa : Addr} (h : Stamped E la reached ctrl)
    (hnfa : reached nfa) (hstamp : ctrl.activeThreadsSp (E.heap nfa).id ≠ la) :
    Stamped E la reached ((ctrl.stamp (E.heap nfa).id la).append .next (settle sim nfa)) := by
  have hnew : ¬ WaitsAt ctrl nfa := fun hwait => hstamp (h.stamps nfa hnfa hwait)
  constructor
  · have happ : (ctrl.nextThreads.map NFASim.ip ++ [nfa]).Nodup :=
      List.nodup_append.mpr ⟨h.oneEach, List.nodup_singleton _, fun a ha b hb hab =>
        hnew (by rwa [← List.mem_singleton.mp hb, ← hab])⟩
    simpa [OneEach, NFASimCtrl.append, NFASimCtrl.stamp, settle] using happ
  · intro k hk hwait
    by_cases hid : (E.heap k).id = (E.heap nfa).id
    · simp [NFASimCtrl.append, NFASimCtrl.stamp, hid]
    · have hold : WaitsAt ctrl k := by
        have hor : WaitsAt ctrl k ∨ k = nfa := by
          simpa [WaitsAt, NFASimCtrl.append, NFASimCtrl.stamp, settle] using hwait
        exact hor.resolve_right fun hkn => hid (hkn ▸ rfl)
      simpa [NFASimCtrl.append, NFASimCtrl.stamp, hid] using h.stamps k hk hold

/-- What an untracked thread's load at a node can queue lies among the given nodes. -/
def LoadsWithin (E : Env) (la : Nat) (reached : Addr → Prop) (sim : NFASim) (n : Addr) : Prop :=
  sim.trackingIntervals = 0 ∧ ∀ k, LoadsTo E n false k → Stops (E.heap k) →
    E.passesLookahead (E.heap k) la = true → reached k

/-- A load into the next list, over a graph without intervals, queues at most one
thread a node. -/
theorem stampedRule (E : Env) (hfree : ∀ a, (E.heap a).type ≠ .interval) (la : Nat)
    (reached : Addr → Prop) :
    LoadRule E .next la (fun _ => True) (Stamped E la reached) (LoadsWithin E la reached)
      (fun _ => True) where
  mono _ _ := trivial
  clone ht hi _ := ⟨⟨by simpa using ht.1, ht.2⟩, hi.1, hi.2⟩
  release _ _ hi _ := ⟨hi.1, hi.2⟩
  cursor _ _ hi _ := ⟨hi.1, hi.2⟩
  intervalPos _ hi _ := ⟨hi.1, hi.2⟩
  groupBegin ht htype _ hn := ⟨ht.1, fun k hk => ht.2 k (.marker (Or.inl htype) hn hk)⟩
  groupEnd ht htype _ hn := ⟨ht.1, fun k hk => ht.2 k (.marker (Or.inr htype) hn hk)⟩
  interval _ htype := absurd htype (hfree _)
  accepting _ _ hi _ := ⟨⟨hi.1, hi.2⟩, trivial⟩
  queue := by
    intro sim nfa ctrl ht hb he hv ha hi _ hstamp hpass
    have hunstamped := hstamp.resolve_left (not_not.mpr ht.1)
    exact ⟨hi.queue (ht.2 nfa (.here nfa) ⟨hb, he, hv, ha⟩ hpass) hunstamped, trivial⟩
  mismatch _ := trivial
  drop _ hi _ _ _ := ⟨hi.1, hi.2⟩

/-- A step that finds the stamps of the waiting threads queues one thread a node. -/
theorem OneEach.threadStep (hfree : ∀ a, (E.heap a).type ≠ .interval) (h : OneEach ctrl)
    (hs : sim.trackingIntervals = 0) (hguard : StampsHold E sim ctrl)
    (hstep : threadStep E fuel sim ctrl = some (sim', ctrl')) : OneEach ctrl' := by
  have herase : OneEach (eraseStamp E sim ctrl) := h
  cases threadStep_cases hstep with
  | matched | failed | failedBackreference => exact herase
  | waited hwait =>
    have hnew := hguard.waits hwait
    have happ : (ctrl.nextThreads.map NFASim.ip ++ [sim.ip]).Nodup :=
      List.nodup_append.mpr ⟨h, List.nodup_singleton _, fun a ha b hb hab =>
        hnew (by rwa [WaitsAt, ← List.mem_singleton.mp hb, ← hab])⟩
    simpa [OneEach, NFASimCtrl.append, nextInSpan] using happ
  | @loaded sim₁ dst la _ _ hinput hadv hload =>
    have hs₁ : sim₁.trackingIntervals = 0 := hadv.trackingIntervals.trans hs
    cases dst with
    | active =>
      have hkept := ((activeRule E la ctrl.nextThreads).stepAdjacents hload).2
        (fun _ _ => trivial) rfl trivial
      rw [OneEach, hkept.1]
      exact h
    | next =>
      have hstamped : Stamped E la (QueuesFrom E la sim₁.ip) (eraseStamp E sim ctrl) :=
        ⟨herase, fun k hk hwait => hguard.loads hinput sim₁ la hadv k hk hwait⟩
      have hwithin : ∀ n ∈ (E.heap sim₁.ip).reachable,
          LoadsWithin E la (QueuesFrom E la sim₁.ip) sim₁ n :=
        fun n hn => ⟨hs₁, fun k hk hstop hpass => ⟨n, hn, hk, hstop, hpass⟩⟩
      exact (((stampedRule E hfree la _).stepAdjacents hload).2 hwithin hstamped trivial).1.oneEach

/-- What holds between two steps of a guarded session. -/
def StampInv : Phase → Prop
  | .idle ctrl => Untracked ctrl ∧ ctrl.nextThreads = []
  | .busy _ (.running s) => Untracked s.ctrl ∧ (∀ sim, s.thread = some sim →
      sim.trackingIntervals = 0) ∧ OneEach s.ctrl
  | .busy _ (.released s) => Untracked s.ctrl ∧ ∀ sim, s.thread = some sim →
      sim.trackingIntervals = 0

theorem oneEach_of_nil (h : ctrl.nextThreads = []) : OneEach ctrl := by
  rw [OneEach, h]
  exact List.nodup_nil

/-- Taking the first active thread keeps all threads untracked. -/
theorem Untracked.shiftActive (h : Untracked ctrl) :
    Untracked ctrl.shiftActive.2 ∧
      ∀ sim, ctrl.shiftActive.1 = some sim → sim.trackingIntervals = 0 := by
  constructor
  · apply h.of_subset
    intro sim hsim
    simp only [NFASimCtrl.shiftActive, List.mem_append] at hsim ⊢
    rcases hsim with (hpool | hactive) | hnext
    · exact Or.inl (Or.inl hpool)
    · exact Or.inl (Or.inr (List.mem_of_mem_tail hactive))
    · exact Or.inr hnext
  · intro sim hsim
    apply h sim
    simp only [List.mem_append]
    exact Or.inl (Or.inr (List.mem_of_mem_head? hsim))

/-- The test of the outer loop keeps the invariant. -/
theorem stampInv_testInput {line : Line} {s : RunState} (h : StampInv (.busy line (.running s))) :
    StampInv (.busy line (testInput (E.onLine line) s)) := by
  unfold testInput
  split
  · exact h
  · exact ⟨h.1, h.2.1⟩

/-- Going on with the first active thread keeps the invariant. -/
theorem stampInv_hold {line : Line} {s : RunState} (h : Untracked ctrl) (hone : OneEach ctrl) :
    StampInv (.busy line (.running (s.hold ctrl.shiftActive))) :=
  ⟨h.shiftActive.1, h.shiftActive.2, hone⟩

private theorem stampInv_matchCase {line : Line} {s : RunState} (h : Untracked ctrl)
    (hs : sim.trackingIntervals = 0) (hone : OneEach ctrl) :
    StampInv (.busy line (matchCase (E.onLine line) s sim ctrl)) := by
  have hset : ∀ m, Untracked (ctrl.setMatch m) := fun _ => h
  unfold matchCase
  simp only
  split
  · split
    · exact stampInv_hold ((hset _).release hs) hone
    · refine ⟨(hset _).of_same (.newMatch ..), ?_⟩
      rintro t ⟨⟩
      exact hs
  · split
    · exact stampInv_hold (h.release hs) hone
    · refine ⟨h, ?_⟩
      rintro t ⟨⟩
      exact hs

private theorem stampInv_start {line : Line} {o : Outcome}
    (hfree : ∀ a, (E.heap a).type ≠ .interval) (hidle : StampInv (.idle ctrl))
    (h : startRun (E.onLine line) fuel (freshLine line ctrl) = some o) :
    StampInv (.busy line o) := by
  obtain ⟨c, c', hsame, _, _, _, hload, ho⟩ := startRun_cases h
  have hfresh : Untracked (freshLine line ctrl) := hidle.1
  have hc : Untracked c := hfresh.of_same hsame
  have hnext : c.nextThreads = [] := hsame.nextThreads.trans hidle.2
  have hc' : Untracked c' ∧ c'.nextThreads = [] := by
    rcases hload with hload | ⟨rfl, _⟩
    · exact ⟨((untrackedStartRule (E.onLine line) hfree _).loadStartStates hload).2 hc trivial,
        ((activeRule _ _ []).loadStartStates hload).2 hnext trivial⟩
    · exact ⟨hc, hnext⟩
  have hshift := hc'.1.shiftActive
  rcases ho with rfl | ⟨_, rfl⟩
  · exact stampInv_testInput ⟨hshift.1, hshift.2, oneEach_of_nil hc'.2⟩
  · exact hshift

private theorem stampInv_round {line : Line} {s : RunState} {o : Outcome}
    (hfree : ∀ a, (E.heap a).type ≠ .interval) (hi : StampInv (.busy line (.running s)))
    (hguard : StampGuard E (.busy line (.running s)))
    (h : runStep (E.onLine line) fuel s = some o) : StampInv (.busy line o) := by
  obtain ⟨huntracked, hheldTrack, hone⟩ := hi
  have hstepped : ∀ {sim sim' ctrl'}, s.thread = some sim →
      threadStep (E.onLine line) fuel sim s.ctrl = some (sim', ctrl') →
      (Untracked ctrl' ∧ sim'.trackingIntervals = 0) ∧ OneEach ctrl' := by
    intro sim sim' ctrl' hheld hstep
    have hs := hheldTrack sim hheld
    exact ⟨huntracked.threadStep (E := E.onLine line) hfree hs hstep,
      hone.threadStep (E := E.onLine line) hfree hs (hguard sim hheld) hstep⟩
  cases runStep_cases h with
  | matched hheld hstep _ =>
    obtain ⟨⟨hu, hs⟩, hone'⟩ := hstepped hheld hstep
    exact stampInv_matchCase hu hs hone'
  | failed hheld hstep _ =>
    obtain ⟨⟨hu, hs⟩, hone'⟩ := hstepped hheld hstep
    exact stampInv_hold (hu.release hs) hone'
  | kept hheld hstep _ _ =>
    obtain ⟨⟨hu, _⟩, hone'⟩ := hstepped hheld hstep
    exact stampInv_hold hu hone'
  | swapped hheld hnext =>
    apply stampInv_testInput
    refine ⟨?_, ?_, List.nodup_nil⟩
    · apply huntracked.of_subset
      intro sim hsim
      simp only [RunState.hold, List.mem_append, List.not_mem_nil, or_false] at hsim ⊢
      rcases hsim with hpool | hactive
      · exact Or.inl (Or.inl hpool)
      · exact Or.inr (List.mem_of_mem_tail hactive)
    · intro sim hsim
      apply huntracked sim
      exact List.mem_append_right _ (List.mem_of_mem_head? hsim)
  | restarted hheld hnext hrestart =>
    obtain ⟨pos, c, c', hsame, _, hload, rfl⟩ := restart_cases hrestart
    have hsame' := hsame.trans (.beginAttempt c pos)
    have hc' := ((untrackedStartRule (E.onLine line) hfree _).loadStartStates hload).2
      (huntracked.of_same hsame') trivial
    have hnext' := ((activeRule _ _ []).loadStartStates hload).2
      (hsame'.nextThreads.trans hnext) trivial
    exact stampInv_testInput ⟨hc'.shiftActive.1, hc'.shiftActive.2, oneEach_of_nil hnext'⟩

/-- The part of `run_nfa` after its loops puts all threads into the pool. -/
theorem Untracked.finishRun {s : RunState} (h : Untracked s.ctrl)
    (hs : ∀ sim, s.thread = some sim → sim.trackingIntervals = 0) :
    Untracked (finishRun E s).2 := by
  have hall : Untracked (s.ctrl.releaseAllThreads s.thread) := by
    intro sim hsim
    simp only [NFASimCtrl.releaseAllThreads, List.append_nil, List.mem_append,
      Option.mem_toList] at hsim
    rcases hsim with hlist | hheld
    · exact h sim (by simpa only [List.mem_append] using hlist)
    · exact hs sim hheld
  have hnew : ∀ m, Untracked (newMatch E ((s.ctrl.releaseAllThreads s.thread).setMatch m)) := by
    intro m
    have hset : Untracked ((s.ctrl.releaseAllThreads s.thread).setMatch m) := hall
    exact hset.of_same (.newMatch ..)
  unfold Recognizer.finishRun
  simp only
  split
  · split
    · exact hnew _
    · exact hall
  · split
    · exact hnew _
    · exact hall

/-- Every step of a guarded session keeps the invariant. -/
theorem stampInv_step (hfree : ∀ a, (E.heap a).type ≠ .interval) {p q : Phase} (hi : StampInv p)
    (hguard : StampGuard E p) (h : SimStep E L p q) : StampInv q := by
  cases h with
  | start _ h => exact stampInv_start hfree hi h
  | round h => exact stampInv_round hfree hi hguard h
  | finish => exact ⟨Untracked.finishRun hi.1 hi.2, (finishRun_lists _).2⟩

/-- On runs whose steps all find the stamps of the waiting threads, a graph
without intervals has at most one thread a node for the next position. -/
theorem oneThreadEachNode_of_guard (E : Env) (hfree : ∀ a, (E.heap a).type ≠ .interval) :
    OneThreadEachNode ((session E (fun _ => True)).guard (StampGuard E)) := by
  intro line s hreach _
  have hinv : StampInv (.busy line (.running s)) := by
    refine hreach.guarded_invariant ?_ fun p q hi hg h => stampInv_step hfree hi hg h
    rintro p rfl
    exact ⟨by simp [Untracked, newNfaSim], rfl⟩
  exact hinv.2.2

/-- The hypothesis holds of the graph of a captured letter that is named again. -/
theorem oneThreadEachNode_letterAgain :
    OneThreadEachNode ((session letterAgain (fun _ => True)).guard (StampGuard letterAgain)) := by
  apply oneThreadEachNode_of_guard
  intro a
  unfold letterAgain
  simp only
  split <;> simp

/-- No thread is held and two wait at one node. -/
def waitTwice : Outcome → Bool
  | .running s => s.thread.isNone && !decide (s.ctrl.nextThreads.map NFASim.ip).Nodup
  | .released _ => false

theorem not_oneThreadEachNode {line : Line} {o : Outcome}
    (hreach : Reachable (session E L) (.busy line o)) (h : waitTwice o = true) :
    ¬ OneThreadEachNode (session E L) := by
  intro hall
  cases o with
  | released s => simp [waitTwice] at h
  | running s =>
    simp only [waitTwice, Bool.and_eq_true, Option.isNone_iff_eq_none, Bool.not_eq_true',
      decide_eq_false_iff_not] at h
    exact h.2 (hall line s hreach h.1)

/-- The first thread of a loop over two alternatives stamps both for the next
position, and the step of the second erases the stamp of its own node. -/
theorem alternatives_waitTwice : ∃ E,
    compilePattern 40 (bytes "([ab]|a)*c") {} (fun _ => 0) (lineOf "aac") = some E ∧
      ¬ OneThreadEachNode (session E (fun _ => True)) := by
  have h : ((compilePattern 40 (bytes "([ab]|a)*c") {} (fun _ => 0) (lineOf "aac")).bind fun E =>
      (roundsFrom E 40 (lineOf "aac") (newNfaSim E) 2).map waitTwice) = some true := by
    decide +kernel
  obtain ⟨E, hcompile, hrounds⟩ := Option.bind_eq_some_iff.mp h
  obtain ⟨o, hround, hwait⟩ := Option.map_eq_some_iff.mp hrounds
  have hreach := reachable_roundsFrom (L := fun _ => True) trivial (.init rfl) hround
  exact ⟨E, hcompile, not_oneThreadEachNode hreach hwait⟩

end Recognizer
