import Recognizer.Run.Positions

/-!
# Matches at the end of a line

`thread_step` turns every thread that reads the `NUL` behind a line into a match.
A position moves only while threads wait in `next_threads`, so a run stays on its
line as long as no thread that reads the end of line symbol queues one there.
-/

namespace Recognizer

open TransitionSystem

variable {E : Env} {L : Line → Prop} {fuel la : Nat} {sim sim' : NFASim} {ctrl ctrl' : NFASimCtrl}

/-- The node types a thread is queued at by the default case of `load_next`. -/
def Stops (n : NFA) : Prop :=
  n.type ≠ .capturegrpBegin ∧ n.type ≠ .capturegrpEnd ∧ n.type ≠ .interval ∧ n.type ≠ .accepting

/-- The nodes a load that begins at a node can come to; the flag tells whether an
interval was passed. -/
inductive LoadsTo (E : Env) : Addr → Bool → Addr → Prop where
  | here (n : Addr) : LoadsTo E n false n
  | marker {n m k : Addr} {b : Bool}
      (htype : (E.heap n).type = .capturegrpBegin ∨ (E.heap n).type = .capturegrpEnd)
      (hm : m ∈ (E.heap n).reachable) (h : LoadsTo E m b k) : LoadsTo E n b k
  | interval {n m k : Addr} {b : Bool} (htype : (E.heap n).type = .interval)
      (hm : m ∈ (E.heap n).reachable) (h : LoadsTo E m b k) : LoadsTo E n true k

/-- A load of the thread at the node queues nothing: each node it can come to
accepts, or does not take the lookahead, or is stamped with it. -/
def Spent (E : Env) (la : Nat) (stamps : Nat → Nat) (sim : NFASim) (n : Addr) : Prop :=
  ∀ b k, LoadsTo E n b k → Stops (E.heap k) → E.passesLookahead (E.heap k) la = true →
    b = false ∧ sim.trackingIntervals = 0 ∧ stamps (E.heap k).id = la

/-- A thread that reads the end of line symbol is not queued for a further position. -/
structure EndsHere (E : Env) (sim : NFASim) (ctrl : NFASimCtrl) : Prop where
  noWait : ¬ Waits E sim ctrl
  spent : ∀ sim₁ la, Advance E sim ctrl sim₁ .next la →
    ∀ n ∈ (E.heap sim₁.ip).reachable, Spent E la (eraseStamp E sim ctrl).activeThreadsSp sim₁ n

/-- The guard of the runs on which matches are sound. -/
def EolGuard (E : Env) : Phase → Prop
  | .busy line (.running s) => ∀ sim, s.thread = some sim → s.ctrl.curPos = line.eolPos →
      EndsHere (E.onLine line) sim s.ctrl
  | _ => True

/-- A match is only reported from an accepting node, and no thread is stepped
behind the end of line symbol at any other node. -/
def MatchesAtAccepting (E : Env) (S : System Phase) : Prop :=
  ∀ line s sim fuel sim' ctrl', Reachable S (.busy line (.running s)) → s.thread = some sim →
    threadStep (E.onLine line) fuel sim s.ctrl = some (sim', ctrl') →
    (sim'.status = 1 → (E.heap sim.ip).type = .accepting) ∧
      (line.eolPos < s.ctrl.curPos → (E.heap sim.ip).type = .accepting)

/-- The position is on the line, and nothing waits for a position behind it. -/
structure OnLine (line : Line) (ctrl : NFASimCtrl) : Prop where
  le : ctrl.curPos ≤ line.eolPos
  last : ctrl.curPos = line.eolPos → ctrl.nextThreads = []

/-- Loads into the active list leave the next list alone. -/
theorem activeRule (E : Env) (la : Nat) (waiting : List NFASim) :
    StartRule E la (fun _ => True) (fun c => c.nextThreads = waiting) (fun _ _ => True)
      (fun _ => True) where
  mono _ _ := trivial
  clone _ hi _ := ⟨trivial, hi⟩
  release _ _ hi _ := hi
  cursor _ _ hi _ := hi
  intervalPos _ hi _ := hi
  groupBegin _ _ _ _ := trivial
  groupEnd _ _ _ _ := trivial
  interval _ _ _ _ _ _ _ := trivial
  accepting _ _ hi _ := ⟨hi, trivial⟩
  queue _ _ _ _ _ hi _ _ _ := ⟨hi, trivial⟩
  mismatch _ := trivial
  drop _ hi _ _ _ := hi
  start _ hi _ := ⟨trivial, hi⟩
  range _ _ _ _ _ hi _ := hi
  skip _ hi _ := hi

/-- A spent load into the next list leaves the list and the stamps alone. -/
theorem spentRule (E : Env) (la : Nat) (waiting : List NFASim) (stamps : Nat → Nat) :
    LoadRule E .next la (fun _ => True)
      (fun c => c.nextThreads = waiting ∧ c.activeThreadsSp = stamps) (Spent E la stamps)
      (fun _ => True) where
  mono _ _ := trivial
  clone ht hi _ := ⟨fun b k hk hs hp => by simpa using ht b k hk hs hp, hi⟩
  release _ _ hi _ := hi
  cursor _ _ hi _ := hi
  intervalPos _ hi _ := hi
  groupBegin ht htype n hn := fun b k hk hs hp => ht b k (.marker (Or.inl htype) hn hk) hs hp
  groupEnd ht htype n hn := fun b k hk hs hp => ht b k (.marker (Or.inr htype) hn hk) hs hp
  interval ht htype n hn _ _ _ := fun _ k hk hs hp => by
    simpa using (ht true k (.interval htype hn hk) hs hp).1
  accepting _ _ hi _ := ⟨hi, trivial⟩
  queue := by
    intro sim nfa ctrl ht hb he hv ha hi _ hstamp hpass
    obtain ⟨_, htrack, hsp⟩ := ht false nfa (.here nfa) ⟨hb, he, hv, ha⟩ hpass
    rw [hi.2] at hstamp
    exact absurd hstamp (by simp [htrack, hsp])
  mismatch _ := trivial
  drop _ hi _ _ _ := hi

/-- A step of a thread on its line keeps the next list empty at the end of the line. -/
theorem OnLine.threadStep {line : Line} (h : OnLine line ctrl)
    (hguard : ctrl.curPos = line.eolPos → EndsHere (E.onLine line) sim ctrl)
    (hstep : threadStep (E.onLine line) fuel sim ctrl = some (sim', ctrl')) :
    OnLine line ctrl' := by
  have hpos := (threadStep_frame hstep).curPos
  refine ⟨hpos ▸ h.le, fun hlast => ?_⟩
  rw [hpos] at hlast
  have hnone : (eraseStamp (E.onLine line) sim ctrl).nextThreads = [] := h.last hlast
  cases threadStep_cases hstep with
  | matched | failed | failedBackreference => exact hnone
  | waited hwait => exact absurd hwait (hguard hlast).noWait
  | @loaded sim₁ dst la _ _ _ hadv hload =>
    cases dst with
    | active =>
      exact (((activeRule _ la []).stepAdjacents hload).2 (fun _ _ => trivial) hnone trivial).1
    | next =>
      have hspent := (hguard hlast).spent sim₁ la hadv
      exact (((spentRule _ la [] _).stepAdjacents hload).2 hspent ⟨hnone, rfl⟩ trivial).1.1

/-- What holds between two steps of a guarded session. -/
def EolInv (E : Env) : Phase → Prop
  | .idle ctrl => ctrl.activeThreads = [] ∧ ctrl.nextThreads = []
  | .busy line (.running s) =>
    line.NulFree ∧ ReadsLine (E.onLine line) s ∧ OnLine line s.ctrl
  | .busy line (.released _) => line.NulFree

/-- An attempt begins on the line. -/
private theorem onLine_begin {line : Line} {s : RunState} (h : ReadsLine (E.onLine line) s)
    (hcur : s.ctrl.curPos = s.inputPointer) (hnext : s.ctrl.nextThreads = []) :
    OnLine line s.ctrl :=
  ⟨hcur ▸ h.inside, fun _ => hnext⟩

private theorem onLine_start {line : Line} {s : RunState}
    (hreads : ReadsLine (E.onLine line) s) (hidle : ctrl.nextThreads = [])
    (h : startRun (E.onLine line) fuel (freshLine line ctrl) = some (.running s)) :
    OnLine line s.ctrl := by
  obtain ⟨c, c', hsame, _, _, _, hload, ho⟩ := startRun_cases h
  have hc : c.nextThreads = [] := hsame.nextThreads.trans hidle
  have hc' : c'.curPos = c.curPos ∧ c'.nextThreads = [] := by
    rcases hload with hload | ⟨rfl, _⟩
    · exact ⟨(loadStartStates_frame hload).curPos,
        ((activeRule _ _ []).loadStartStates hload).2 hc trivial⟩
    · exact ⟨rfl, hc⟩
  rcases ho with ho | ⟨-, ho⟩
  · obtain ⟨rfl, -⟩ := testInput_running ho.symm
    exact onLine_begin hreads hc'.1 hc'.2
  · cases ho

/-- One round of `run_nfa` stays on the line. -/
theorem onLine_round {line : Line} {s s' : RunState} (h : OnLine line s.ctrl)
    (hreads : ReadsLine (E.onLine line) s') (hguard : EolGuard E (.busy line (.running s)))
    (hround : runStep (E.onLine line) fuel s = some (.running s')) : OnLine line s'.ctrl := by
  have hstepped : ∀ {sim sim' ctrl'}, s.thread = some sim →
      threadStep (E.onLine line) fuel sim s.ctrl = some (sim', ctrl') → OnLine line ctrl' :=
    fun hheld hstep => h.threadStep (hguard _ hheld) hstep
  generalize ho : Outcome.running s' = o at hround
  cases runStep_cases hround with
  | matched hheld hstep _ =>
    have hs := hstepped hheld hstep
    unfold matchCase at ho
    dsimp only at ho
    split at ho
    · split at ho
      · injection ho with ho
        exact ho ▸ ⟨hs.le, hs.last⟩
      · cases ho
    · split at ho
      · injection ho with ho
        exact ho ▸ ⟨hs.le, hs.last⟩
      · cases ho
  | failed hheld hstep _ =>
    have hs := hstepped hheld hstep
    injection ho with ho
    exact ho ▸ ⟨hs.le, hs.last⟩
  | kept hheld hstep _ _ =>
    have hs := hstepped hheld hstep
    injection ho with ho
    exact ho ▸ ⟨hs.le, hs.last⟩
  | swapped hheld hnext =>
    obtain ⟨rfl, -⟩ := testInput_running ho.symm
    exact ⟨Nat.lt_of_le_of_ne h.le fun hlast => hnext (h.last hlast), fun _ => rfl⟩
  | restarted hheld hnext hrestart =>
    obtain ⟨pos, c, c', hsame, _, hload, rfl⟩ := restart_cases hrestart
    obtain ⟨rfl, -⟩ := testInput_running ho.symm
    have hc : (beginAttempt c pos).nextThreads = [] := hsame.nextThreads.trans hnext
    exact onLine_begin hreads (loadStartStates_frame hload).curPos
      (((activeRule _ _ []).loadStartStates hload).2 hc trivial)

/-- Every step of a guarded session keeps the run on its line. -/
theorem eolInv_step (hL : ∀ l, L l → l.NulFree) {p q : Phase} (hi : EolInv E p)
    (hguard : EolGuard E p) (h : SimStep E L p q) : EolInv E q := by
  cases h with
  | @start line ctrl fuel o hline h =>
    cases o with
    | running s =>
      have hreads := ReadsLine.startRun (E := E.onLine line) (c := freshLine line ctrl) rfl hi.1
        hi.2 rfl rfl h
      exact ⟨hL _ hline, hreads, onLine_start hreads hi.2 h⟩
    | released s => exact hL _ hline
  | @round line s fuel o h =>
    cases o with
    | running s' =>
      have hreads := hi.2.1.round h
      exact ⟨hi.1, hreads, onLine_round hi.2.2 hreads hguard h⟩
    | released s' => exact hi.1
  | finish => exact finishRun_lists _

/-- At the end of the line the thread held in a state can only accept. -/
def onlyAccepts (E : Env) (line : Line) : Outcome → Bool
  | .running s =>
    match s.thread with
    | some sim => decide (s.ctrl.curPos = line.eolPos → (E.heap sim.ip).type ≠ .backreference ∧
        ∀ n ∈ (E.heap sim.ip).reachable, (E.heap n).type = .accepting)
    | none => true
  | .released _ => true

/-- From an accepting node a load comes to no other node. -/
theorem LoadsTo.of_accepting {n k : Addr} {b : Bool} (h : LoadsTo E n b k)
    (haccepting : (E.heap n).type = .accepting) : k = n := by
  cases h with
  | here => rfl
  | marker htype =>
    rw [haccepting] at htype
    rcases htype with htype | htype <;> cases htype
  | interval htype =>
    rw [haccepting] at htype
    cases htype

/-- A thread goes on at its node. -/
theorem Advance.ip {sim₁ : NFASim} {dst : Dst} (h : Advance E sim ctrl sim₁ dst la) :
    sim₁.ip = sim.ip := by
  cases h with
  | consume => exact updateMatch_ip _
  | closeBackreference => exact (updateMatch_ip _).trans (openBackreference_ip _)
  | bol | eol => rfl

/-- A state whose thread can only accept at the end of the line meets the guard. -/
theorem eolGuard_of_onlyAccepts {line : Line} {o : Outcome} (h : onlyAccepts E line o = true) :
    EolGuard E (.busy line o) := by
  cases o with
  | released s => trivial
  | running s =>
    intro sim hheld hlast
    simp only [onlyAccepts, hheld] at h
    obtain ⟨hbref, haccepting⟩ := of_decide_eq_true h hlast
    refine ⟨fun hwait => hbref hwait.type, fun sim₁ la hadv n hn b k hk hstops _ => ?_⟩
    rw [hadv.ip] at hn
    obtain rfl := hk.of_accepting (haccepting n hn)
    exact absurd (haccepting k hn) hstops.2.2.2

/-- Rounds whose states all meet the guard are a guarded run. -/
theorem guarded_roundsFrom {line : Line} (hline : L line) {k : Nat} {o : Outcome}
    (hguard : ∀ j < k, ∀ o', roundsFrom E fuel line (newNfaSim E) j = some o' →
      EolGuard E (.busy line o'))
    (h : roundsFrom E fuel line (newNfaSim E) k = some o) :
    Reachable ((session E L).guard (EolGuard E)) (.busy line o) := by
  induction k generalizing o with
  | zero => exact Reachable.step (.init rfl) ⟨trivial, .start hline h⟩
  | succ k ih =>
    have hprev := fun o' => ih (o := o') fun j hj => hguard j (Nat.lt_succ_of_lt hj)
    simp only [roundsFrom] at h
    split at h
    · next s heq => exact (hprev _ heq).step ⟨hguard k (Nat.lt_succ_self k) _ heq, .round h⟩
    · exact hprev o h

/-- The thread held in a state matches at the end of the line. -/
def matchesAtEol (E : Env) (fuel : Nat) (line : Line) : Outcome → Bool
  | .running s =>
    match s.thread with
    | some sim =>
      match threadStep (E.onLine line) fuel sim s.ctrl with
      | some (sim', _) => decide (sim'.status = 1 ∧ s.ctrl.curPos = line.eolPos)
      | none => false
    | none => false
  | .released _ => false

/-- On guarded runs over lines without `NUL`, only accepting nodes match. -/
theorem matchesAtAccepting_of_guard (E : Env) :
    MatchesAtAccepting E ((session E Line.NulFree).guard (EolGuard E)) := by
  intro line s sim fuel sim' ctrl' hreach hheld hstep
  have hinv : EolInv E (.busy line (.running s)) := by
    refine hreach.guarded_invariant ?_ fun p q hi hg h => eolInv_step (fun _ h => h) hi hg h
    rintro p rfl
    exact ⟨rfl, rfl⟩
  obtain ⟨hline, hreads, hon⟩ := hinv
  have hchar : line.deref s.ctrl.curPos ≠ 0 := hline.deref_ne_zero hreads.ge hon.le
  refine ⟨fun hstatus => ?_, fun hpast => absurd hon.le (not_le.mpr hpast)⟩
  exact (threadStep_matched hstep hstatus).resolve_left hchar

/-- The run of alternatives in front of an end of line anchor meets the guard, and matches
past the anchor. -/
theorem matchesAtAccepting_anchored : ∃ E s sim sim' ctrl',
    compilePattern 40 (bytes "(a|ab)$") {} (fun _ => 0) (lineOf "ab") = some E ∧
      Reachable ((session E Line.NulFree).guard (EolGuard E)) (.busy (lineOf "ab") (.running s)) ∧
      s.thread = some sim ∧ s.ctrl.curPos = (lineOf "ab").eolPos ∧
      threadStep (E.onLine (lineOf "ab")) 40 sim s.ctrl = some (sim', ctrl') ∧
      sim'.status = 1 ∧ (E.heap sim.ip).type = .accepting := by
  have h : ((compilePattern 40 (bytes "(a|ab)$") {} (fun _ => 0) (lineOf "ab")).bind fun E =>
      (roundsFrom E 40 (lineOf "ab") (newNfaSim E) 7).map fun o =>
        (matchesAtEol E 40 (lineOf "ab") o, (List.range 7).all fun j =>
          (roundsFrom E 40 (lineOf "ab") (newNfaSim E) j).all (onlyAccepts E (lineOf "ab")))) =
        some (true, true) := by
    decide +kernel
  obtain ⟨E, hcompile, hrounds⟩ := Option.bind_eq_some_iff.mp h
  obtain ⟨o, hround, hchecks⟩ := Option.map_eq_some_iff.mp hrounds
  obtain ⟨hmatch, hguard⟩ := Prod.mk.inj hchecks
  have hreach :
      Reachable ((session E Line.NulFree).guard (EolGuard E)) (.busy (lineOf "ab") o) := by
    refine guarded_roundsFrom (show ∀ c ∈ bytes "ab", c ≠ 0 by decide) ?_ hround
    intro j hj o' ho'
    have hj := List.all_eq_true.mp hguard j (List.mem_range.mpr hj)
    rw [ho'] at hj
    exact eolGuard_of_onlyAccepts hj
  unfold matchesAtEol at hmatch
  split at hmatch
  · rename_i s
    split at hmatch
    · rename_i sim hheld
      split at hmatch
      · rename_i sim' ctrl' hstep
        obtain ⟨hstatus, hlast⟩ := of_decide_eq_true hmatch
        exact ⟨E, s, sim, sim', ctrl', hcompile, hreach, hheld, hlast, hstep, hstatus,
          (matchesAtAccepting_of_guard E _ s sim 40 sim' ctrl' hreach hheld hstep).1 hstatus⟩
      · cases hmatch
    · cases hmatch
  · cases hmatch

/-- The thread held in a state matches at a node that does not accept. -/
def matchesElsewhere (E : Env) (fuel : Nat) (line : Line) : Outcome → Bool
  | .running s =>
    match s.thread with
    | some sim =>
      match threadStep (E.onLine line) fuel sim s.ctrl with
      | some (sim', _) => decide (sim'.status = 1 ∧ (E.heap sim.ip).type ≠ .accepting)
      | none => false
    | none => false
  | .released _ => false

theorem not_matchesAtAccepting {line : Line} {o : Outcome}
    (hreach : Reachable (session E L) (.busy line o)) (h : matchesElsewhere E fuel line o = true) :
    ¬ MatchesAtAccepting E (session E L) := by
  intro hall
  unfold matchesElsewhere at h
  split at h
  · rename_i s
    split at h
    · rename_i sim hheld
      split at h
      · rename_i sim' ctrl' hstep
        obtain ⟨hstatus, htype⟩ := of_decide_eq_true h
        exact htype ((hall line s sim fuel sim' ctrl' hreach hheld hstep).1 hstatus)
      · simp at h
    · simp at h
  · simp at h

/-- An empty line. -/
def emptyLine : Line := { buffer := 2, one_lt_buffer := Nat.one_lt_two, text := [] }

/-- The pattern with an end of line anchor before a dot matches an empty line at
the dot, which is stepped behind the end of line symbol. -/
theorem eolAnchor_any_matches : ∃ E, compilePattern 40 (bytes "$.") {} (fun _ => 0) emptyLine =
    some E ∧ ¬ MatchesAtAccepting E (session E Line.NulFree) := by
  have h : ((compilePattern 40 (bytes "$.") {} (fun _ => 0) emptyLine).bind fun E =>
      (roundsFrom E 40 emptyLine (newNfaSim E) 2).map (matchesElsewhere E 40 emptyLine)) =
        some true := by
    decide +kernel
  obtain ⟨E, hcompile, hrounds⟩ := Option.bind_eq_some_iff.mp h
  obtain ⟨o, hround, hmatch⟩ := Option.map_eq_some_iff.mp hrounds
  refine ⟨E, hcompile, not_matchesAtAccepting (reachable_roundsFrom ?_ (.init rfl) hround) hmatch⟩
  intro c hc
  simp [emptyLine] at hc

end Recognizer
