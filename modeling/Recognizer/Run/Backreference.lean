import Recognizer.Run.Captures
import Recognizer.Run.Live
import Recognizer.Run.Positions

/-!
# What a backreference reads

A thread at a backreference reads one character of its group's span a step and
waits in between, so the comparison is spread over several positions while other
threads are stepped. A waiting thread is a value in a list that nobody writes:
what it reads depends on the positions alone. A span whose last position lies
before its first is never left, and `NUL` ends a thread before it is compared.
-/

namespace Recognizer

open TransitionSystem

variable {E : Env} {L : Line → Prop} {fuel la p : Nat} {sim sim' t : NFASim}
  {ctrl ctrl' : NFASimCtrl} {found : Nat → NFASimCtrl} {w : List Int}

namespace Line

variable {l : Line}

/-- The characters from an address to the end of line symbol. -/
def inputFrom (l : Line) (p : Nat) : List Int := (l.text ++ [eolSymbol]).drop (p - l.buffer)

theorem inputFrom_eq_nil (h : l.eolPos < p) : l.inputFrom p = [] := by
  unfold eolPos at h
  apply List.drop_eq_nil_of_le
  simp only [List.length_append, List.length_singleton]
  omega

/-- The input from an address of the line begins with the character there. -/
theorem inputFrom_eq_cons (hge : l.buffer ≤ p) (hle : p ≤ l.eolPos) :
    l.inputFrom p = l.deref p :: l.inputFrom (p + 1) := by
  have hlt : p - l.buffer < (l.text ++ [eolSymbol]).length := by
    unfold eolPos at hle
    simp only [List.length_append, List.length_singleton]
    omega
  unfold inputFrom
  rw [deref_of_mem hge (hle.trans (Nat.le_succ _)), List.drop_eq_getElem_cons hlt,
    List.getD_eq_getElem?_getD, List.getElem?_eq_getElem hlt, Option.getD_some,
    Nat.sub_add_comm hge]

/-- The input starts with a character and a text exactly when it shows the
character there and starts with the text behind it. -/
theorem cons_prefix_inputFrom {c : Int} (hge : l.buffer ≤ p) :
    c :: w <+: l.inputFrom p ↔ p ≤ l.eolPos ∧ l.deref p = c ∧ w <+: l.inputFrom (p + 1) := by
  rcases Nat.lt_or_ge l.eolPos p with hlt | hle
  · simp [inputFrom_eq_nil hlt, not_le.mpr hlt]
  · rw [inputFrom_eq_cons hge hle, List.cons_prefix_cons]
    exact ⟨fun h => ⟨hle, h.1.symm, h.2⟩, fun h => ⟨h.2.1.symm, h.2.2⟩⟩

end Line

/-- The span of a group holds the text; its last position lies before its first
one when the text is empty. -/
structure Captured (l : Line) (m : Match) (w : List Int) : Prop where
  inside : l.buffer ≤ m.start
  stop : m.stop + 1 = m.start + w.length
  text : w <+: l.inputFrom m.start

/-- A thread comes to a backreference to a group that captured the text. -/
structure ArrivesWith (E : Env) (sim : NFASim) (w : List Int) : Prop where
  type : (E.heap sim.ip).type = .backreference
  unopened : sim.brefPtr = 0
  captured : Captured E.line (sim.backrefMatch (E.heap sim.ip).id) w

/-- The thread, stepped at a position and, as long as it waits, at the positions
behind it, loads the successors of its node with the lookahead. At each position
it finds the control block that the other threads have left there. -/
inductive PassesOn (E : Env) (found : Nat → NFASimCtrl) : NFASim → Nat → Nat → Prop where
  | now {sim sim₁ : NFASim} {p la : Nat} {dst : Dst} (hinput : E.input (found p) ≠ 0)
      (hadv : Advance E sim (found p) sim₁ dst la) : PassesOn E found sim p la
  | later {sim : NFASim} {p la : Nat} (hinput : E.input (found p) ≠ 0)
      (hwait : Waits E sim (found p))
      (hrest : PassesOn E found (nextInSpan (openBackreference E sim p)) (p + 1) la) :
    PassesOn E found sim p la

/-- The thread passes on exactly when the input from the position starts with the
text, and then with the lookahead behind as many characters. -/
def ConsumesCapture (E : Env) (found : Nat → NFASimCtrl) (sim : NFASim) (w : List Int)
    (p : Nat) : Prop :=
  ∀ la, PassesOn E found sim p la ↔ w <+: E.line.inputFrom p ∧ la = p + w.length

@[simp] theorem updateMatch_backrefMatch : (updateMatch sim p).backrefMatch = sim.backrefMatch := by
  unfold updateMatch
  split <;> rfl

@[simp] theorem updateMatch_brefPtr : (updateMatch sim p).brefPtr = sim.brefPtr := by
  unfold updateMatch
  split <;> rfl

@[simp] theorem openBackreference_backrefMatch :
    (openBackreference E sim p).backrefMatch = sim.backrefMatch := by
  unfold openBackreference
  split
  · exact updateMatch_backrefMatch
  · rfl

theorem openBackreference_unopened (h : sim.brefPtr = 0) :
    (openBackreference E sim p).brefPtr = (sim.backrefMatch (E.heap sim.ip).id).start := by
  simp [openBackreference, h]

/-- A thread that moved on inside its span is open already. -/
theorem openBackreference_nextInSpan : openBackreference E (nextInSpan sim) p = nextInSpan sim := by
  simp [openBackreference, nextInSpan]

/-- A step that is to advance loads the successors. -/
theorem threadStep_of_advance {sim₁ : NFASim} {dst : Dst} (hinput : E.input ctrl ≠ 0)
    (h : Advance E sim ctrl sim₁ dst la) :
    threadStep E fuel sim ctrl = stepAdjacents E fuel sim₁ dst la (eraseStamp E sim ctrl) := by
  unfold threadStep
  simp only
  rw [show ctrl.stamp (E.heap sim.ip).id 0 = eraseStamp E sim ctrl from rfl,
    if_pos (by simpa using hinput)]
  cases h with
  | consume h =>
    unfold Consumes at h
    cases htype : (E.heap sim.ip).type <;> simp_all
  | closeBackreference htype hopen hmatch hstop =>
    simp_all [stepBackreference]
  | bol htype hpos => simp [htype, hpos]
  | eol htype hmatch => simp [htype, hmatch]

/-- A step that is to wait appends the thread to the next list. -/
theorem threadStep_of_waits (hinput : E.input ctrl ≠ 0) (h : Waits E sim ctrl) :
    threadStep E fuel sim ctrl = some (nextInSpan (openBackreference E sim ctrl.curPos),
      (eraseStamp E sim ctrl).append .next (nextInSpan (openBackreference E sim ctrl.curPos))) := by
  obtain ⟨htype, hopen, hmatch, hinside⟩ := h
  unfold threadStep
  simp only
  rw [show ctrl.stamp (E.heap sim.ip).id 0 = eraseStamp E sim ctrl from rfl,
    if_pos (by simpa using hinput)]
  simp_all [stepBackreference]

/-- Inside a span with text left to read, the thread passes on exactly when the
input starts with that text, without a `NUL`. -/
theorem passesOn_iff_of_open (hfold : E.flags.ignoreCase = false)
    (hfound : ∀ q, (found q).curPos = q) (hw : w ≠ []) {sim : NFASim} {p b : Nat}
    (htype : (E.heap sim.ip).type = .backreference)
    (hopen : (openBackreference E sim p).brefPtr = b) (hb : E.line.buffer ≤ b)
    (hstop : (sim.backrefMatch (E.heap sim.ip).id).stop + 1 = b + w.length)
    (htext : w <+: E.line.inputFrom b) (hp : E.line.buffer ≤ p) (hend : p ≤ E.line.eolPos + 1) :
    PassesOn E found sim p la ↔ w <+: E.line.inputFrom p ∧ 0 ∉ w ∧ la = p + w.length := by
  induction w generalizing sim p b with
  | nil => exact absurd rfl hw
  | cons c w ih =>
    obtain ⟨-, hc, htext'⟩ := (Line.cons_prefix_inputFrom hb).mp htext
    have hbuffer := E.line.one_lt_buffer
    have hne : (openBackreference E sim p).brefPtr ≠ 0 := by omega
    have hinput : E.input (found p) = E.line.deref p := by
      rw [input_of_exact hfold, hfound]
    have hnext : (openBackreference E (nextInSpan (openBackreference E sim p)) (p + 1)).brefPtr =
        b + 1 := by
      rw [openBackreference_nextInSpan]
      simp [nextInSpan, hopen]
    rw [List.length_cons] at hstop
    have htype' : (E.heap (nextInSpan (openBackreference E sim p)).ip).type = .backreference := by
      simpa [nextInSpan] using htype
    have hstop' : ((nextInSpan (openBackreference E sim p)).backrefMatch
        (E.heap (nextInSpan (openBackreference E sim p)).ip).id).stop + 1 = b + 1 + w.length := by
      simp only [nextInSpan, openBackreference_backrefMatch, openBackreference_ip]
      omega
    have hrest (hw' : w ≠ []) (hle : p ≤ E.line.eolPos) :=
      ih hw' htype' hnext (by omega) hstop' htext' (Nat.le_succ_of_le hp) (Nat.succ_le_succ hle)
    -- at the `NUL` behind the line the thread is stopped
    have hinside : E.line.deref p ≠ 0 → p ≤ E.line.eolPos := fun hnul =>
      (Line.Holds.inside (.inr ⟨hp, hend⟩) hnul).2
    have hlast : b = (sim.backrefMatch (E.heap sim.ip).id).stop ↔ w = [] := by
      rw [← List.length_eq_zero_iff]
      omega
    rw [Line.cons_prefix_inputFrom hp]
    constructor
    · intro h
      cases h with
      | now hnul hadv =>
        cases hadv with
        | consume h => simp [Consumes, htype] at h
        | bol htype' => simp [htype] at htype'
        | eol htype' => simp [htype] at htype'
        | closeBackreference _ _ hmatch hlastPos =>
          rw [hfound, openBackreference_backrefMatch, hopen] at hlastPos
          rw [hfound, hopen, hinput, hc] at hmatch
          rw [hinput] at hnul
          have hle := hinside hnul
          rw [hmatch] at hnul
          obtain rfl := hlast.mp hlastPos
          exact ⟨⟨hle, hmatch, List.nil_prefix⟩, by simpa using hnul.symm, by simp [hfound]⟩
      | later hnul hwait hpass =>
        have hmatch := hwait.input
        have hbefore := hwait.inside
        rw [hfound, openBackreference_backrefMatch, hopen] at hbefore
        rw [hfound, hopen, hinput, hc] at hmatch
        rw [hinput] at hnul
        have hle := hinside hnul
        rw [hmatch] at hnul
        obtain ⟨hpre, hzero, hla⟩ := (hrest (fun hnil => hbefore (hlast.mpr hnil)) hle).mp hpass
        refine ⟨⟨hle, hmatch, hpre⟩, ?_, ?_⟩
        · simpa [hzero] using hnul.symm
        · rw [List.length_cons]
          omega
    · rintro ⟨⟨hle, hmatch, hpre⟩, hzero, rfl⟩
      simp only [List.mem_cons, not_or] at hzero
      obtain ⟨hc0, hzero⟩ := hzero
      have hnul : E.input (found p) ≠ 0 := by
        rw [hinput, hmatch]
        exact Ne.symm hc0
      have hsame : E.input (found p) =
          E.line.deref (openBackreference E sim (found p).curPos).brefPtr := by
        rw [hinput, hmatch, hfound, hopen, hc]
      by_cases hnil : w = []
      · have hend : (openBackreference E sim (found p).curPos).brefPtr =
            ((openBackreference E sim (found p).curPos).backrefMatch (E.heap sim.ip).id).stop := by
          rw [hfound, openBackreference_backrefMatch, hopen]
          exact hlast.mpr hnil
        have hadv := Advance.closeBackreference htype (by rwa [hfound]) hsame hend
        rw [hfound] at hadv
        simpa [hnil] using PassesOn.now hnul hadv
      · refine .later hnul ⟨htype, by rwa [hfound], hsame, ?_⟩
          ((hrest hnil hle).mpr ⟨hpre, hzero, ?_⟩)
        · rw [hfound, openBackreference_backrefMatch, hopen]
          exact fun hend => hnil (hlast.mp hend)
        · rw [List.length_cons]
          omega

/-- A thread that is behind the last position of its span never passes on. -/
theorem not_passesOn_of_past (hfound : ∀ q, (found q).curPos = q)
    (h : PassesOn E found sim p la) (htype : (E.heap sim.ip).type = .backreference)
    (hpast : (sim.backrefMatch (E.heap sim.ip).id).stop < (openBackreference E sim p).brefPtr) :
    False := by
  induction h with
  | now _ hadv =>
    cases hadv with
    | consume h => simp [Consumes, htype] at h
    | bol htype' => simp [htype] at htype'
    | eol htype' => simp [htype] at htype'
    | closeBackreference _ _ _ hstop =>
      rw [hfound, openBackreference_backrefMatch] at hstop
      omega
  | later _ _ _ ih =>
    apply ih (by simpa [nextInSpan] using htype)
    rw [openBackreference_nextInSpan]
    simpa [nextInSpan] using Nat.lt_succ_of_lt hpast

/-- A thread whose group captured the empty text never passes on. -/
theorem not_passesOn_of_empty (hfound : ∀ q, (found q).curPos = q)
    (harrives : ArrivesWith E sim []) : ¬ PassesOn E found sim p la := by
  intro h
  refine not_passesOn_of_past hfound h harrives.type ?_
  rw [openBackreference_unopened harrives.unopened]
  have := harrives.captured.stop
  simp only [List.length_nil] at this
  omega

/-- At any position and under any interleaving, a backreference consumes exactly
the captured text if and only if that text is not empty, and has no `NUL` where
the input starts with it. -/
theorem consumesCapture_iff (hfold : E.flags.ignoreCase = false)
    (hfound : ∀ q, (found q).curPos = q) (harrives : ArrivesWith E sim w)
    (hp : E.line.buffer ≤ p) (hend : p ≤ E.line.eolPos + 1) :
    ConsumesCapture E found sim w p ↔ w ≠ [] ∧ (w <+: E.line.inputFrom p → 0 ∉ w) := by
  by_cases hw : w = []
  · subst hw
    refine ⟨fun h => ?_, fun h => absurd rfl h.1⟩
    exact absurd ((h p).mpr ⟨List.nil_prefix, by simp⟩) (not_passesOn_of_empty hfound harrives)
  · have hiff (la : Nat) : PassesOn E found sim p la ↔
        w <+: E.line.inputFrom p ∧ 0 ∉ w ∧ la = p + w.length :=
      passesOn_iff_of_open hfold hfound hw harrives.type
        (openBackreference_unopened harrives.unopened) harrives.captured.inside
        harrives.captured.stop harrives.captured.text hp hend
    constructor
    · intro h
      exact ⟨hw, fun hpre => ((hiff _).mp ((h _).mpr ⟨hpre, rfl⟩)).2.1⟩
    · rintro ⟨-, hzero⟩ la
      rw [hiff]
      exact ⟨fun h => ⟨h.1, h.2.2⟩, fun h => ⟨h.1, hzero h.1, h.2⟩⟩

/-- A loaded thread is outside of any span. -/
theorem unopenedRule (E : Env) (dst : Dst) (la : Nat) {P : NFASim → Prop}
    (hP : ∀ t, t.brefPtr = 0 → P t) :
    LoadRule E dst la (fun _ => True) (AllQueued P) (fun sim _ => sim.brefPtr = 0)
      (fun _ => True) where
  mono _ _ := trivial
  clone _ hi _ := ⟨cloneMemory_brefPtr, hi⟩
  release _ _ hi _ := hi
  cursor _ _ hi _ := hi
  intervalPos _ hi _ := hi
  groupBegin ht _ _ _ := ht
  groupEnd ht _ _ _ := ht
  interval ht _ _ _ _ _ _ := ht
  accepting ht _ hi _ := ⟨hi.append .active (hP _ ht), trivial⟩
  queue := by
    intro sim nfa ctrl ht _ _ _ _ hi _ _ _
    have hstamp : AllQueued P (ctrl.stamp (E.heap nfa).id la) := hi
    exact ⟨hstamp.append dst (hP _ ht), trivial⟩
  mismatch _ := trivial
  drop _ hi _ _ _ := hi

theorem unopenedStartRule (E : Env) (la : Nat) {P : NFASim → Prop}
    (hP : ∀ t, t.brefPtr = 0 → P t) :
    StartRule E la (fun _ => True) (AllQueued P) (fun sim _ => sim.brefPtr = 0)
      (fun _ => True) where
  toLoadRule := unopenedRule E .active la hP
  start _ hi _ := ⟨startMemory_brefPtr, hi⟩
  range ht _ _ _ _ hi _ := hi.append .active (hP _ ht)
  skip _ hi _ := hi

/-- A thread inside a span is at a backreference. -/
def OpenAtBackreference (heap : Heap) (sim : NFASim) : Prop :=
  sim.brefPtr ≠ 0 → (heap sim.ip).type = .backreference

/-- A thread that goes on to the successors of its node is outside of any span. -/
theorem Advance.unopened {sim₁ : NFASim} {dst : Dst} (h : Advance E sim ctrl sim₁ dst la)
    (hs : OpenAtBackreference E.heap sim) : sim₁.brefPtr = 0 := by
  cases h with
  | consume h =>
    rw [updateMatch_brefPtr]
    by_contra hopen
    simp [Consumes, hs hopen] at h
  | closeBackreference => rfl
  | bol htype | eol htype =>
    by_contra hopen
    simp [hs hopen] at htype

/-- The threads a step queues are new arrivals, outside of any span, or the
stepped thread that waits for the next character of its span. -/
theorem threadStep_arrivals (hs : OpenAtBackreference E.heap sim)
    (h : threadStep E fuel sim ctrl = some (sim', ctrl')) :
    AllQueued (fun t => t ∈ ctrl.activeThreads ++ ctrl.nextThreads ∨ t.brefPtr = 0 ∨
      Waits E sim ctrl ∧ t = nextInSpan (openBackreference E sim ctrl.curPos)) ctrl' := by
  have herase : AllQueued (fun t => t ∈ ctrl.activeThreads ++ ctrl.nextThreads ∨ t.brefPtr = 0 ∨
      Waits E sim ctrl ∧ t = nextInSpan (openBackreference E sim ctrl.curPos))
      (eraseStamp E sim ctrl) := fun t ht => Or.inl ht
  cases threadStep_cases h with
  | matched | failed | failedBackreference => exact herase
  | waited hwait => exact herase.append .next (Or.inr (Or.inr ⟨hwait, rfl⟩))
  | @loaded sim₁ dst la _ _ _ hadv hload =>
    exact (((unopenedRule E dst la fun t ht => Or.inr (Or.inl ht)).stepAdjacents hload).2
      (fun _ _ => hadv.unopened hs) herase trivial).1

theorem openAtBackreference_liveRule (E : Env) : LiveRule E (OpenAtBackreference E.heap) where
  step := by
    intro line _ _ _ _ _ hs hlists hstep t ht
    have harrivals := threadStep_arrivals (E := E.onLine line) hs hstep
    rcases harrivals t ht with hold | hzero | ⟨hwait, rfl⟩
    · exact hlists t hold
    · exact fun hopen => absurd hzero hopen
    · intro _
      rw [show (nextInSpan (openBackreference (E.onLine line) _ _)).ip = _ from
        openBackreference_ip _]
      exact hwait.type
  start hlists hload :=
    ((unopenedStartRule _ _ fun _ ht hopen => absurd ht hopen).loadStartStates hload).2
      hlists trivial

/-- In every state of a session only threads at a backreference are inside a span. -/
theorem Reaches.openAtBackreference {line : Line} {s : RunState} (hreach : Reaches E L line s) :
    ∀ sim ∈ s.live, OpenAtBackreference E.heap sim :=
  (openAtBackreference_liveRule E).live hreach

/-- In every session a thread that comes to a backreference is outside of its
span: only a thread that waits there is inside. -/
theorem Reaches.arrivals {line : Line} {s : RunState} (hreach : Reaches E L line s)
    (hheld : s.thread = some sim)
    (hstep : threadStep (E.onLine line) fuel sim s.ctrl = some (sim', ctrl')) :
    AllQueued (fun t => t ∈ s.ctrl.activeThreads ++ s.ctrl.nextThreads ∨ t.brefPtr = 0 ∨
      Waits (E.onLine line) sim s.ctrl ∧
        t = nextInSpan (openBackreference (E.onLine line) sim s.ctrl.curPos)) ctrl' := by
  apply threadStep_arrivals _ hstep
  exact hreach.openAtBackreference sim (by simp [RunState.live, hheld])

/-- A thread that waits inside its span is pending for the next position. -/
theorem Waits.pending {s s' : RunState} (hwait : Waits E sim s.ctrl) (hheld : s.thread = some sim)
    (hinput : E.input s.ctrl ≠ 0) (h : runStep E fuel s = some (.running s')) :
    Pending (nextInSpan (openBackreference E sim s.ctrl.curPos)) (s.ctrl.curPos + 1) s' := by
  simp only [runStep, hheld, innerRound, threadStep_of_waits hinput hwait] at h
  rw [if_neg (by simp [nextInSpan]), if_neg (by simp [nextInSpan])] at h
  simp only [Option.some.injEq, Outcome.running.injEq] at h
  subst h
  refine Or.inl ⟨?_, rfl⟩
  exact List.mem_append_right _ (List.mem_singleton.mpr rfl)

instance (l : Line) (m : Match) (w : List Int) : Decidable (Captured l m w) :=
  decidable_of_iff
    (l.buffer ≤ m.start ∧ m.stop + 1 = m.start + w.length ∧ w <+: l.inputFrom m.start)
    ⟨fun h => ⟨h.1, h.2.1, h.2.2⟩, fun h => ⟨h.inside, h.stop, h.text⟩⟩

instance (E : Env) (sim : NFASim) (w : List Int) : Decidable (ArrivesWith E sim w) :=
  decidable_of_iff ((E.heap sim.ip).type = .backreference ∧ sim.brefPtr = 0 ∧
      Captured E.line (sim.backrefMatch (E.heap sim.ip).id) w)
    ⟨fun h => ⟨h.1, h.2.1, h.2.2⟩, fun h => ⟨h.type, h.unopened, h.captured⟩⟩

instance (E : Env) (sim : NFASim) (ctrl : NFASimCtrl) : Decidable (Waits E sim ctrl) :=
  decidable_of_iff ((E.heap sim.ip).type = .backreference ∧
      (openBackreference E sim ctrl.curPos).brefPtr ≠ 0 ∧
      E.input ctrl = E.line.deref (openBackreference E sim ctrl.curPos).brefPtr ∧
      (openBackreference E sim ctrl.curPos).brefPtr ≠
        ((openBackreference E sim ctrl.curPos).backrefMatch (E.heap sim.ip).id).stop)
    ⟨fun h => ⟨h.1, h.2.1, h.2.2.1, h.2.2.2⟩, fun h => ⟨h.type, h.opened, h.input, h.inside⟩⟩

/-- The held thread of a run passes a test. -/
def heldThread (test : RunState → NFASim → Bool) : Outcome → Bool
  | .running s => s.thread.any (test s)
  | .released _ => false

theorem heldThread_spec {test : RunState → NFASim → Bool} {o : Outcome}
    (h : heldThread test o = true) :
    ∃ s sim, o = .running s ∧ s.thread = some sim ∧ test s sim = true := by
  cases o with
  | released s => simp [heldThread] at h
  | running s =>
    obtain ⟨sim, hheld, htest⟩ := (Option.any_eq_true _ _).mp h
    exact ⟨s, sim, rfl, hheld, htest⟩

/-- The equivalence at the thread that comes to a group of two letters again, and waits
between them. -/
theorem consumesCapture_letters : ∃ E s sim,
    compilePattern 40 (bytes "(ab)\\1") {} (fun _ => 0) (lineOf "abab") = some E ∧
      Reaches E (fun _ => True) (lineOf "abab") s ∧ s.thread = some sim ∧
      Waits (E.onLine (lineOf "abab")) sim s.ctrl ∧
      (ConsumesCapture (E.onLine (lineOf "abab")) (fun q => { curPos := q }) sim [97, 98]
          s.ctrl.curPos ↔
        [(97 : Int), 98] ≠ [] ∧
          ([97, 98] <+: (lineOf "abab").inputFrom s.ctrl.curPos → (0 : Int) ∉ [97, 98])) := by
  have h : ((compilePattern 40 (bytes "(ab)\\1") {} (fun _ => 0) (lineOf "abab")).bind fun E =>
      (roundsFrom E 40 (lineOf "abab") (newNfaSim E) 4).map (heldThread fun s sim =>
        decide (E.flags.ignoreCase = false ∧ (lineOf "abab").buffer ≤ s.ctrl.curPos ∧
          s.ctrl.curPos ≤ (lineOf "abab").eolPos + 1 ∧
          ArrivesWith (E.onLine (lineOf "abab")) sim [97, 98] ∧
          Waits (E.onLine (lineOf "abab")) sim s.ctrl))) = some true := by
    decide +kernel
  obtain ⟨E, hcompile, hrounds⟩ := Option.bind_eq_some_iff.mp h
  obtain ⟨o, hround, hheld⟩ := Option.map_eq_some_iff.mp hrounds
  obtain ⟨s, sim, rfl, hthread, htest⟩ := heldThread_spec hheld
  obtain ⟨hfold, hp, hend, harrives, hwaits⟩ := of_decide_eq_true htest
  exact ⟨E, s, sim, hcompile, reachable_roundsFrom (L := fun _ => True) trivial (.init rfl) hround,
    hthread, hwaits, consumesCapture_iff (E := E.onLine (lineOf "abab")) hfold (fun _ => rfl)
      harrives hp hend⟩

/-- A backreference to a starred letter that matched nothing holds its thread back. -/
theorem empty_capture_not_consumed : ∃ E s sim,
    compilePattern 40 (bytes "(a*)\\1b") {} (fun _ => 0) (lineOf "b") = some E ∧
      Reaches E (fun _ => True) (lineOf "b") s ∧ s.thread = some sim ∧
      ArrivesWith (E.onLine (lineOf "b")) sim [] ∧
      ∀ found : Nat → NFASimCtrl, (∀ q, (found q).curPos = q) →
        ¬ ConsumesCapture (E.onLine (lineOf "b")) found sim [] s.ctrl.curPos := by
  have h : ((compilePattern 40 (bytes "(a*)\\1b") {} (fun _ => 0) (lineOf "b")).bind fun E =>
      (roundsFrom E 40 (lineOf "b") (newNfaSim E) 0).map (heldThread fun _ sim =>
        decide (ArrivesWith (E.onLine (lineOf "b")) sim []))) = some true := by
    decide +kernel
  obtain ⟨E, hcompile, hrounds⟩ := Option.bind_eq_some_iff.mp h
  obtain ⟨o, hround, hempty⟩ := Option.map_eq_some_iff.mp hrounds
  obtain ⟨s, sim, rfl, hheld, htest⟩ := heldThread_spec hempty
  have harrives : ArrivesWith (E.onLine (lineOf "b")) sim [] := of_decide_eq_true htest
  have hreach := reachable_roundsFrom (L := fun _ => True) trivial (.init rfl) hround
  refine ⟨E, s, sim, hcompile, hreach, hheld, harrives, fun found hfound hall => ?_⟩
  have hpass := (hall s.ctrl.curPos).mpr ⟨List.nil_prefix, rfl⟩
  exact not_passesOn_of_empty hfound harrives hpass

end Recognizer
