import Recognizer.Run.History

/-!
# Captures along a thread's path

The markers on a thread's path determine the spans of its groups. A thread's
slots agree with them as long as the threads it was cloned through were taken
faithfully: `thread_clone` copies the slots into recycled memory only, and
`load_start_states` keeps the slots of the memory it recycles.
-/

namespace Recognizer

open TransitionSystem

variable {E : Env} {heap : Heap} {L : Line → Prop} {fuel la : Nat} {sim sim' : NFASim} {ctrl ctrl' : NFASimCtrl}

/-- The spans of all groups after a path, whose latest node comes first. A begin
marker opens a span at its lookahead, an end marker closes it before its own. -/
def capturesOf (heap : Heap) : List (Addr × Nat) → Nat → Match
  | [], _ => {}
  | (n, la) :: path, k =>
    if k = (heap n).id then
      match (heap n).type with
      | .capturegrpBegin => ⟨la, 0⟩
      | .capturegrpEnd => ⟨(capturesOf heap path k).start, la - 1⟩
      | _ => capturesOf heap path k
    else capturesOf heap path k

/-- Some backreference names the group in a slot. -/
def Named (heap : Heap) (k : Nat) : Prop :=
  ∃ a, (heap a).type = .backreference ∧ (heap a).id = k

/-- The slots of named groups hold the spans of the thread's own path. -/
def FollowsPath (heap : Heap) (sim : NFASim) : Prop :=
  ∀ k, Named heap k → sim.backrefMatch k = capturesOf heap sim.trail k

/-- A thread was taken into memory whose slots are those its path asks for: a
recycled thread has unset slots for a start state, and the source's slots for a
source whose captures are not copied; fresh memory suits a source without captures. -/
def Acquisition.Faithful (heap : Heap) (a : Acquisition) : Prop :=
  ∀ k, Named heap k →
    match a.source, a.recycled with
    | none, none => True
    | none, some t => t.backrefMatch k = {}
    | some sim, none => sim.backrefMatch k = {}
    | some sim, some t => sim.trackingBackrefs = false → t.backrefMatch k = sim.backrefMatch k

/-- All threads were taken faithfully so far. -/
def FaithfulSoFar (heap : Heap) (ctrl : NFASimCtrl) : Prop := ∀ a ∈ ctrl.acquired, a.Faithful heap

/-- Every live thread has the captures of its own path. -/
def CapturesFollowPaths (heap : Heap) (s : RunState) : Prop := ∀ sim ∈ s.live, FollowsPath heap sim

theorem FaithfulSoFar.mono {c d : NFASimCtrl} (h : Extends c d) (hd : FaithfulSoFar heap d) :
    FaithfulSoFar heap c :=
  fun a ha => hd a (h.acquired.subset ha)

theorem FaithfulSoFar.acquire {c : NFASimCtrl} {source : Option NFASim}
    (h : FaithfulSoFar heap (c.acquire source)) :
    Acquisition.Faithful heap ⟨c.threadPool.head?, source⟩ :=
  h _ (List.mem_append_right _ (List.mem_singleton.mpr rfl))

/-- A node that is no marker leaves the spans of a path alone. -/
theorem capturesOf_cons {n : Addr} {path : List (Addr × Nat)}
    (hb : (heap n).type ≠ .capturegrpBegin) (he : (heap n).type ≠ .capturegrpEnd) (k : Nat) :
    capturesOf heap ((n, la) :: path) k = capturesOf heap path k := by
  rw [capturesOf]
  split
  · split
    · exact absurd ‹_› hb
    · exact absurd ‹_› he
    · rfl
  · rfl

/-- A faithful clone has the captures of its source. -/
theorem Acquisition.Faithful.cloneMemory {recycled : Option NFASim} {n : Addr}
    (h : Acquisition.Faithful heap ⟨recycled, some sim⟩) (hs : FollowsPath heap sim) :
    FollowsPath heap (cloneMemory recycled sim n) := by
  intro k hk
  have hk' := h k hk
  rw [cloneMemory_trail, ← hs k hk]
  cases recycled with
  | none => simpa [Recognizer.cloneMemory, cloneFrom] using hk'.symm
  | some t =>
    cases htrack : sim.trackingBackrefs with
    | true => simp [Recognizer.cloneMemory, cloneFrom, htrack]
    | false => simpa [Recognizer.cloneMemory, cloneFrom, htrack] using hk' htrack

/-- A faithfully taken start state's thread has no captures. -/
theorem Acquisition.Faithful.startMemory {recycled : Option NFASim} {n : Addr}
    (h : Acquisition.Faithful heap ⟨recycled, none⟩) : FollowsPath heap (startMemory recycled n) := by
  intro k hk
  rw [startMemory_trail]
  cases recycled with
  | none => rfl
  | some t => exact h k hk

theorem FollowsPath.beginGroup {n : Addr} (h : FollowsPath heap sim)
    (htype : (heap n).type = .capturegrpBegin) :
    FollowsPath heap (beginGroup (visit sim n la) (heap n).id la) := by
  intro k hk
  by_cases hid : k = (heap n).id
  · simp [Recognizer.beginGroup, visit, capturesOf, hid, htype]
  · simpa [Recognizer.beginGroup, visit, capturesOf, hid] using h k hk

theorem FollowsPath.endGroup {n : Addr} (h : FollowsPath heap sim)
    (htype : (heap n).type = .capturegrpEnd) :
    FollowsPath heap (endGroup (visit sim n la) (heap n).id la) := by
  intro k hk
  by_cases hid : k = (heap n).id
  · subst hid
    simp [Recognizer.endGroup, visit, capturesOf, htype, h _ hk]
  · simpa [Recognizer.endGroup, visit, capturesOf, hid] using h k hk

/-- Settling at a node that is no marker keeps the captures of the path. -/
theorem FollowsPath.settle {n : Addr} (h : FollowsPath heap sim)
    (hb : (heap n).type ≠ .capturegrpBegin) (he : (heap n).type ≠ .capturegrpEnd) :
    FollowsPath heap (settle (visit sim n la) n) := by
  intro k hk
  exact (h k hk).trans (capturesOf_cons hb he k).symm

theorem followsPath_updateMatch {p : Nat} (h : FollowsPath E.heap sim) :
    FollowsPath E.heap (updateMatch sim p) := by
  unfold updateMatch
  split <;> exact h

theorem followsPath_openBackreference {p : Nat} (h : FollowsPath E.heap sim) :
    FollowsPath E.heap (openBackreference E sim p) := by
  unfold openBackreference
  split
  · exact followsPath_updateMatch h
  · exact h

/-- The threads in the run lists have the captures of their paths. -/
def ListsFollow (heap : Heap) (c : NFASimCtrl) : Prop :=
  ∀ sim ∈ c.activeThreads ++ c.nextThreads, FollowsPath heap sim

theorem ListsFollow.append {dst : Dst} (h : ListsFollow E.heap ctrl) (hs : FollowsPath E.heap sim) :
    ListsFollow E.heap (ctrl.append dst sim) := by
  intro t ht
  have ht' : t ∈ ctrl.activeThreads ++ ctrl.nextThreads ∨ t = sim := by
    cases dst with
    | active | next =>
      simp only [NFASimCtrl.append, List.mem_append, List.mem_singleton] at ht ⊢
      tauto
  rcases ht' with hold | rfl
  · exact h t hold
  · exact hs

/-- Loads with faithful acquisitions keep the captures of all threads. -/
theorem captureRule (E : Env) (dst : Dst) (la : Nat) :
    LoadRule E dst la (FaithfulSoFar E.heap) (ListsFollow E.heap) (fun sim _ => FollowsPath E.heap sim)
      (fun _ => True) where
  mono := .mono
  clone ht hi hok := ⟨hok.acquire.cloneMemory ht, hi⟩
  release _ _ hi _ := hi
  cursor _ _ hi _ := hi
  intervalPos _ hi _ := hi
  groupBegin ht htype _ _ := ht.beginGroup htype
  groupEnd ht htype _ _ := ht.endGroup htype
  interval ht htype _ _ _ _ _ := fun k hk =>
    (ht k hk).trans (capturesOf_cons (by simp [htype]) (by simp [htype]) k).symm
  accepting ht htype hi _ :=
    ⟨hi.append (ht.settle (by simp [htype]) (by simp [htype])), trivial⟩
  queue ht hb he _ _ hi _ _ _ := ⟨ListsFollow.append hi (ht.settle hb he), trivial⟩
  mismatch _ := trivial
  drop _ hi _ _ _ := hi

theorem captureStartRule (E : Env) (la : Nat) :
    StartRule E la (FaithfulSoFar E.heap) (ListsFollow E.heap) (fun sim _ => FollowsPath E.heap sim)
      (fun _ => True) where
  toLoadRule := captureRule E .active la
  start _ hi hok := ⟨hok.acquire.startMemory, hi⟩
  range ht _ _ htype _ hi _ := ListsFollow.append hi fun k hk =>
    (ht k hk).trans (capturesOf_cons (by simp [htype]) (by simp [htype]) k).symm
  skip _ hi _ := hi

/-- A step with faithful acquisitions keeps the captures of all threads. -/
theorem ListsFollow.threadStep (hi : ListsFollow E.heap ctrl) (hs : FollowsPath E.heap sim)
    (h : threadStep E fuel sim ctrl = some (sim', ctrl')) (hok : FaithfulSoFar E.heap ctrl') :
    ListsFollow E.heap ctrl' := by
  cases threadStep_cases h with
  | matched | failed | failedBackreference => exact hi
  | waited => exact ListsFollow.append hi (followsPath_openBackreference hs)
  | @loaded sim₁ dst la _ _ _ hadv hload =>
    have hs₁ : FollowsPath E.heap sim₁ := by
      cases hadv with
      | consume => exact followsPath_updateMatch hs
      | closeBackreference =>
        exact followsPath_updateMatch (followsPath_openBackreference hs)
      | bol | eol => exact hs
    exact (((captureRule E dst la).stepAdjacents hload).2 (fun _ _ => hs₁) hi hok).1

/-- What holds of the phases of a session as long as threads are taken faithfully. -/
def CaptureInv (E : Env) : Phase → Prop
  | .idle ctrl => ctrl.activeThreads = [] ∧ ctrl.nextThreads = []
  | .busy _ (.running s) => FaithfulSoFar E.heap s.ctrl → CapturesFollowPaths E.heap s
  | .busy _ (.released _) => True

/-- A state whose threads were just taken from the lists. -/
theorem captureInv_testInput {line : Line} {s : RunState} {c : NFASimCtrl}
    (hlive : ∀ sim ∈ s.live, sim ∈ c.activeThreads ++ c.nextThreads)
    (hext : Extends c s.ctrl) (h : FaithfulSoFar E.heap c → ListsFollow E.heap c) :
    CaptureInv E (.busy line (testInput (E.onLine line) s)) := by
  unfold testInput
  split
  · exact fun hok sim hsim => h (hok.mono hext) sim (hlive sim hsim)
  · trivial

/-- Going on with the first active thread, whatever else the control block got. -/
theorem captureInv_hold {line : Line} {s : RunState} {c : NFASimCtrl} (c' : NFASimCtrl)
    (h : FaithfulSoFar E.heap c → ListsFollow E.heap c) (hacq : c'.acquired = c.acquired)
    (hactive : c'.activeThreads = c.activeThreads) (hnext : c'.nextThreads = c.nextThreads) :
    CaptureInv E (.busy line (.running (s.hold c'.shiftActive))) := by
  intro hok sim hsim
  rw [mem_live_hold_shiftActive, hactive, hnext] at hsim
  have hok' : FaithfulSoFar E.heap c := by
    intro a ha
    exact hok a (by simpa [RunState.hold, NFASimCtrl.shiftActive, hacq] using ha)
  exact h hok' sim hsim

private theorem captureInv_start {line : Line} {o : Outcome}
    (hidle : ctrl.activeThreads = [] ∧ ctrl.nextThreads = [])
    (h : startRun (E.onLine line) fuel (freshLine line ctrl) = some o) :
    CaptureInv E (.busy line o) := by
  obtain ⟨c, c', hsame, _, _, _, hload, ho⟩ := startRun_cases h
  have hc : ListsFollow E.heap c := by
    intro sim hsim
    rw [hsame.activeThreads, hsame.nextThreads] at hsim
    simp [freshLine, resetNfaSim, hidle.1, hidle.2] at hsim
  have hc' : FaithfulSoFar E.heap c' → ListsFollow E.heap c' := by
    rcases hload with hload | ⟨rfl, _⟩
    · exact ((captureStartRule (E.onLine line) _).loadStartStates hload).2 hc
    · exact fun _ => hc
  rcases ho with rfl | ⟨_, rfl⟩
  · exact captureInv_testInput (fun sim => mem_live_enterLoops.mp) (.shiftActive _) hc'
  · trivial

private theorem captureInv_round {line : Line} {s : RunState} {o : Outcome}
    (hi : FaithfulSoFar E.heap s.ctrl → CapturesFollowPaths E.heap s)
    (h : runStep (E.onLine line) fuel s = some o) : CaptureInv E (.busy line o) := by
  have hlists : FaithfulSoFar E.heap s.ctrl → ListsFollow E.heap s.ctrl := fun hok sim hsim =>
    hi hok sim (by simpa [RunState.live, or_assoc] using Or.inr (by simpa using hsim))
  have hstepped : ∀ {sim sim' ctrl'}, s.thread = some sim →
      threadStep (E.onLine line) fuel sim s.ctrl = some (sim', ctrl') →
      FaithfulSoFar E.heap ctrl' → ListsFollow E.heap ctrl' := by
    intro sim sim' ctrl' hheld hstep hok
    have hok₀ := hok.mono (.threadStep hstep)
    have hsim : FollowsPath E.heap sim := hi hok₀ sim (by simp [RunState.live, hheld])
    exact (hlists hok₀).threadStep (E := E.onLine line) hsim hstep hok
  cases runStep_cases h with
  | @matched sim sim' ctrl' hheld hstep _ =>
    have hlists' := hstepped hheld hstep
    unfold matchCase
    simp only
    split
    · split
      · exact captureInv_hold ((ctrl'.setMatch _).release sim') hlists' rfl rfl rfl
      · trivial
    · split
      · exact captureInv_hold (ctrl'.release sim') hlists' rfl rfl rfl
      · trivial
  | @failed sim sim' ctrl' hheld hstep _ =>
    exact captureInv_hold (ctrl'.release sim') (hstepped hheld hstep) rfl rfl rfl
  | kept hheld hstep _ _ => exact captureInv_hold _ (hstepped hheld hstep) rfl rfl rfl
  | swapped hheld hnext =>
    refine captureInv_testInput (c := s.ctrl) (fun sim hsim => ?_) (.of_eq rfl rfl) hlists
    cases hwait : s.ctrl.nextThreads with
    | nil => exact absurd hwait hnext
    | cons t rest =>
      simp only [RunState.live, RunState.hold, hwait, List.head?_cons, Option.toList_some,
        List.tail_cons, List.append_nil, List.singleton_append, List.mem_cons] at hsim
      simp [hsim]
  | restarted _ _ hrestart =>
    obtain ⟨pos, c, c', hsame, _, hload, rfl⟩ := restart_cases hrestart
    have hc : FaithfulSoFar E.heap (beginAttempt c pos) → ListsFollow E.heap (beginAttempt c pos) := by
      intro hok sim hsim
      have hsame' := hsame.trans (.beginAttempt c pos)
      rw [hsame'.activeThreads, hsame'.nextThreads] at hsim
      exact hlists (hok.mono hsame'.extends) sim hsim
    refine captureInv_testInput (c := c') (fun sim hsim => ?_) (.shiftActive _) fun hok => ?_
    · exact mem_live_hold_shiftActive.mp hsim
    · have hrule := (captureStartRule (E.onLine line) _).loadStartStates hload
      exact hrule.2 (hc (hok.mono hrule.1)) hok

/-- Every step of a session keeps the invariant. -/
theorem captureInv_step {p q : Phase} (hi : CaptureInv E p) (h : SimStep E L p q) :
    CaptureInv E q := by
  cases h with
  | start _ h => exact captureInv_start hi h
  | round h => exact captureInv_round hi h
  | finish => exact finishRun_lists _

/-- In every run whose threads were all taken faithfully, the captures of a live
thread are those of its own path. -/
theorem captures_follow_paths (E : Env) (L : Line → Prop) {line : Line} {s : RunState}
    (hreach : Reaches E L line s) (hfaithful : FaithfulSoFar E.heap s.ctrl) :
    CapturesFollowPaths E.heap s := by
  have hinv : CaptureInv E (.busy line (.running s)) := by
    refine hreach.invariant ?_ fun p q hi h => captureInv_step hi h
    rintro p rfl
    exact ⟨rfl, rfl⟩
  exact hinv hfaithful

/-- The compiled graph of a captured letter that is named again. -/
def letterAgain : Env where
  heap
    | 1 => { type := .epsilon, reachable := [2] }
    | 2 => { type := .capturegrpBegin, reachable := [3] }
    | 3 => { type := .literal, id := 1, literal := 97, reachable := [4] }
    | 4 => { type := .capturegrpEnd, reachable := [5] }
    | 5 => { type := .backreference, reachable := [6] }
    | 6 => { type := .accepting, id := 2 }
    | _ => {}
  startState := 1
  flags := {}
  kw := none
  line := lineOf ""

/-- The compiled graph of any character and `z`, or else a captured letter and then that
letter again or any character. -/
def letterAgainOr : Env where
  heap
    | 1 => { type := .epsilon, reachable := [7, 2] }
    | 2 => { type := .capturegrpBegin, reachable := [3] }
    | 3 => { type := .literal, id := 1, literal := 97, reachable := [4] }
    | 4 => { type := .capturegrpEnd, reachable := [5, 8] }
    | 5 => { type := .backreference, reachable := [6] }
    | 6 => { type := .accepting, id := 5 }
    | 7 => { type := .any, id := 2, reachable := [9] }
    | 8 => { type := .any, id := 3, reachable := [6] }
    | 9 => { type := .literal, id := 4, literal := 122, reachable := [6] }
    | _ => {}
  startState := 1
  flags := {}
  kw := none
  line := lineOf ""

theorem named_letterAgainOr {k : Nat} (h : Named letterAgainOr.heap k) : k = 0 := by
  obtain ⟨a, htype, rfl⟩ := h
  unfold letterAgainOr at htype ⊢
  simp only at htype ⊢
  split at htype <;> simp_all

/-- What a faithful acquisition asks of the slot for one group. -/
def Acquisition.faithfulAt (k : Nat) (a : Acquisition) : Bool :=
  match a.source, a.recycled with
  | none, none => true
  | none, some t => decide (t.backrefMatch k = {})
  | some sim, none => decide (sim.backrefMatch k = {})
  | some sim, some t => sim.trackingBackrefs || decide (t.backrefMatch k = sim.backrefMatch k)

theorem Acquisition.faithful_of_faithfulAt {a : Acquisition}
    (h : ∀ k, Named heap k → a.faithfulAt k = true) : a.Faithful heap := by
  intro k hk
  have hat := h k hk
  unfold Acquisition.faithfulAt at hat
  split at hat
  · trivial
  · exact of_decide_eq_true hat
  · exact of_decide_eq_true hat
  · intro htrack
    simpa [htrack] using hat

/-- A clone into recycled memory was taken, all threads faithfully, and two are live. -/
def clonedFaithfully : Outcome → Bool
  | .running s => decide (s.live.length = 2) && s.ctrl.acquired.all (Acquisition.faithfulAt 0) &&
      s.ctrl.acquired.any fun a => a.source.isSome && a.recycled.isSome
  | .released _ => false

/-- The hypotheses hold when the thread behind the group was cloned into the memory of the
thread that failed before it. -/
theorem captures_follow_paths_letters : ∃ s,
    Reaches letterAgainOr Line.NulFree (lineOf "aa") s ∧ s.live.length = 2 ∧
      (∃ a ∈ s.ctrl.acquired, a.source.isSome ∧ a.recycled.isSome) ∧
      CapturesFollowPaths letterAgainOr.heap s := by
  have h : (roundsFrom letterAgainOr 20 (lineOf "aa") (newNfaSim letterAgainOr) 4).map
      clonedFaithfully = some true := by
    decide +kernel
  obtain ⟨o, hround, hcloned⟩ := Option.map_eq_some_iff.mp h
  cases o with
  | released s => simp [clonedFaithfully] at hcloned
  | running s =>
    simp only [clonedFaithfully, Bool.and_eq_true, decide_eq_true_eq, List.all_eq_true,
      List.any_eq_true] at hcloned
    obtain ⟨⟨hlive, hall⟩, hclone⟩ := hcloned
    have hreach : Reaches letterAgainOr Line.NulFree (lineOf "aa") s :=
      reachable_roundsFrom (show ∀ c ∈ bytes "aa", c ≠ 0 by decide) (.init rfl) hround
    refine ⟨s, hreach, hlive, hclone, captures_follow_paths letterAgainOr _ hreach fun a ha => ?_⟩
    exact Acquisition.faithful_of_faithfulAt fun k hk => named_letterAgainOr hk ▸ hall a ha

/-- A live thread whose slot for the group of the backreference at the address
differs from what its path asks for. -/
def strays (heap : Heap) (a : Addr) : Outcome → Bool
  | .running s => decide ((heap a).type = .backreference) && s.live.any fun sim =>
      decide (sim.backrefMatch (heap a).id ≠ capturesOf heap sim.trail (heap a).id)
  | .released _ => false

/-- Cloned into fresh memory, the thread at the first alternative of a group
loses the span that is open. -/
theorem group_of_letters_strays : ∃ E s,
    compilePattern 40 (bytes "(a|b)\\1") {} (fun _ => 0) (lineOf "aa") = some E ∧
      Reaches E Line.NulFree (lineOf "aa") s ∧ ¬ CapturesFollowPaths E.heap s := by
  have h : ((compilePattern 40 (bytes "(a|b)\\1") {} (fun _ => 0) (lineOf "aa")).bind fun E =>
      (roundsFrom E 40 (lineOf "aa") (newNfaSim E) 0).map fun o =>
        (List.range 64).any fun a => strays E.heap a o) = some true := by
    decide +kernel
  obtain ⟨E, hcompile, hrounds⟩ := Option.bind_eq_some_iff.mp h
  obtain ⟨o, hround, hstray⟩ := Option.map_eq_some_iff.mp hrounds
  obtain ⟨a, _, hstray⟩ := List.any_eq_true.mp hstray
  cases o with
  | released s => simp [strays] at hstray
  | running s =>
    simp only [strays, Bool.and_eq_true, decide_eq_true_eq, List.any_eq_true] at hstray
    obtain ⟨htype, sim, hlive, hne⟩ := hstray
    refine ⟨E, s, hcompile, reachable_roundsFrom ?_ (.init rfl) hround, fun hall => ?_⟩
    · show ∀ c ∈ bytes "aa", c ≠ 0
      decide
    · exact hne (hall sim hlive _ ⟨a, htype, rfl⟩)

end Recognizer
