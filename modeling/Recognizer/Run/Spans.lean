import Recognizer.Run.Modes
import Recognizer.Run.Positions

/-!
# The spans of the live threads

Whatever nodes a pattern has, the span of a thread begins where its attempt began: a thread that
has read nothing yet stands at the start position, or behind the line, where it can read nothing.
So all matches of one attempt begin at one position, and a longer one is one that ends later.
-/

namespace Recognizer

variable {E : Env} {l : Line} {dst : Dst} {s p fuel la : Nat} {m m' : Match} {sim sim' : NFASim}
  {c d ctrl ctrl' : NFASimCtrl} {st : RunState} {o : Outcome}

/-- A nonempty span from `s` on, on the line. -/
structure SpansFrom (l : Line) (s : Nat) (m : Match) : Prop where
  start : m.start = s
  le : s ≤ m.stop
  inside : m.stop ≤ l.eolPos

/-- The span of a thread that is stepped at `p` in the attempt from `s`. -/
def SpanAt (l : Line) (s p : Nat) (m : Match) : Prop :=
  m = {} ∧ (p = s ∨ l.eolPos < p) ∨ SpansFrom l s m

/-- The thread is stepped at `p` in the attempt from `s`; inside the span of a backreference it
has read a character. -/
structure StepsAt (l : Line) (s p : Nat) (sim : NFASim) : Prop where
  span : SpanAt l s p sim.curMatch
  inside : sim.brefPtr ≠ 0 → sim.curMatch ≠ {}

/-- The threads of the run lists of the attempt from `s` in the round at `p`. -/
structure ListsAt (l : Line) (s p : Nat) (c : NFASimCtrl) : Prop where
  active : ∀ sim ∈ c.activeThreads, StepsAt l s p sim
  next : ∀ sim ∈ c.nextThreads, StepsAt l s (p + 1) sim

/-- A state of an attempt. -/
structure SpansAt (E : Env) (st : RunState) : Prop where
  reads : ReadsLine E st
  le : st.inputPointer ≤ st.ctrl.curPos
  held : ∀ sim, st.thread = some sim → StepsAt E.line st.inputPointer st.ctrl.curPos sim
  lists : ListsAt E.line st.inputPointer st.ctrl.curPos st.ctrl
  best : SpanAt E.line st.inputPointer st.inputPointer st.ctrl.curMatch

/-- Only the end of the line shows the end of line symbol. -/
theorem Line.Ascii.eq_eolPos (h : l.Ascii) (hpos : l.Holds p) (hp : l.deref p = eolSymbol) :
    p = l.eolPos := by
  have hne : l.deref p ≠ 0 := by
    rw [hp]
    decide
  obtain ⟨hge, hle⟩ := hpos.inside hne
  obtain ⟨i, rfl⟩ := Nat.exists_eq_add_of_le hge
  unfold eolPos at hle ⊢
  rcases Nat.lt_or_ge i l.text.length with hi | hi
  · rw [deref_text hi] at hp
    have := h _ (List.getElem_mem hi)
    rw [hp] at this
    exact absurd this.1 (by decide)
  · omega

theorem SpansFrom.ne_empty (h : SpansFrom l s m) (hs : 0 < s) : m ≠ {} := by
  rintro rfl
  exact hs.ne' h.start.symm

theorem SpanAt.of_spansFrom (h : SpansFrom l s m) (p : Nat) : SpanAt l s p m := .inr h

theorem SpanAt.spansFrom (h : SpanAt l s p m) (hne : m ≠ {}) : SpansFrom l s m :=
  h.resolve_left fun hempty => hne hempty.1

/-- A thread in front of a character of the line has a span behind it. -/
theorem SpanAt.updateMatch (h : SpanAt l s p sim.curMatch) (hs : 0 < s) (hle : s ≤ p)
    (hp : p ≤ l.eolPos) : SpansFrom l s (updateMatch sim p).curMatch := by
  unfold Recognizer.updateMatch
  rcases h with ⟨hempty, hpos⟩ | hspan
  · obtain rfl : p = s := by omega
    rw [if_pos (by rw [hempty])]
    exact ⟨rfl, le_rfl, hp⟩
  · rw [if_neg (by rw [hspan.start]; omega)]
    exact ⟨hspan.start, hle, hp⟩

/-- Of two spans of one attempt the longer one is kept. -/
theorem SpansFrom.updateLongestMatch (h : SpansFrom l s m) (hs : 0 < s)
    (h' : SpanAt l s p m') : updateLongestMatch m m' = if m.stop < m'.stop then m' else m := by
  have hstart := h.start
  have hle := h.le
  unfold Recognizer.updateLongestMatch
  rcases h' with ⟨rfl, -⟩ | hspan
  · rw [if_neg (by simp; omega), if_neg (by simp; omega), if_neg (by simp)]
  · have hstart' := hspan.start
    have hle' := hspan.le
    by_cases hlonger : m.stop < m'.stop
    · rw [if_pos (by omega), if_pos hlonger]
    · rw [if_neg (by omega), if_neg hlonger]
      split
      · obtain ⟨start, stop⟩ := m
        dsimp only at *
        congr 1
        omega
      · rfl

/-- The first span of an attempt is taken. -/
theorem updateLongestMatch_empty (m : Match) : updateLongestMatch {} m = m := by
  rw [updateLongestMatch, if_pos (.inl rfl)]

theorem SpanAt.updateLongestMatch (h : SpanAt l s s m) (hs : 0 < s) (h' : SpanAt l s p m') :
    SpanAt l s s (updateLongestMatch m m') := by
  rcases h with ⟨rfl, -⟩ | hspan
  · rw [updateLongestMatch_empty]
    rcases h' with ⟨rfl, -⟩ | hspan'
    · exact .inl ⟨rfl, .inl rfl⟩
    · exact .inr hspan'
  · rw [hspan.updateLongestMatch hs h']
    split
    · next hlonger =>
      refine .inr (h'.spansFrom ?_)
      rintro rfl
      exact Nat.not_lt_zero _ hlonger
    · exact .inr hspan

namespace StepsAt

theorem of_same (h : StepsAt l s p sim) (hspan : sim'.curMatch = sim.curMatch)
    (hptr : sim'.brefPtr = sim.brefPtr) : StepsAt l s p sim' :=
  ⟨hspan ▸ h.span, by rw [hspan, hptr]; exact h.inside⟩

/-- Outside of a backreference only the span matters. -/
theorem of_span (h : StepsAt l s p sim) (hspan : sim'.curMatch = sim.curMatch)
    (hptr : sim'.brefPtr = 0) : StepsAt l s p sim' :=
  ⟨hspan ▸ h.span, fun hne => absurd hptr hne⟩

end StepsAt

namespace ListsAt

theorem of_same (h : ListsAt l s p c) (hactive : d.activeThreads = c.activeThreads)
    (hnext : d.nextThreads = c.nextThreads) : ListsAt l s p d :=
  ⟨fun sim hsim => h.active sim (hactive ▸ hsim), fun sim hsim => h.next sim (hnext ▸ hsim)⟩

theorem append (h : ListsAt l s p c) (hactive : StepsAt l s p sim)
    (hnext : dst = .next → StepsAt l s (p + 1) sim) : ListsAt l s p (c.append dst sim) := by
  cases dst with
  | active =>
    refine ⟨fun t hmem => ?_, h.next⟩
    rcases List.mem_append.mp hmem with hold | hnew
    · exact h.active t hold
    · exact List.mem_singleton.mp hnew ▸ hactive
  | next =>
    refine ⟨h.active, fun t hmem => ?_⟩
    rcases List.mem_append.mp hmem with hold | hnew
    · exact h.next t hold
    · exact List.mem_singleton.mp hnew ▸ hnext rfl

end ListsAt

/-- A load hands the span of its thread on. -/
theorem spansRule (E : Env) (dst : Dst) (la : Nat) (l : Line) (s p : Nat) :
    LoadRule E dst la (fun _ => True) (ListsAt l s p)
      (fun sim _ => StepsAt l s p sim ∧ (dst = .next → StepsAt l s (p + 1) sim))
      (fun _ => True) where
  mono _ _ := trivial
  clone ht hi _ :=
    ⟨⟨ht.1.of_span cloneMemory_curMatch cloneMemory_brefPtr,
      fun hdst => (ht.2 hdst).of_span cloneMemory_curMatch cloneMemory_brefPtr⟩,
      hi.of_same rfl rfl⟩
  release _ _ hi _ := hi.of_same rfl rfl
  cursor _ _ hi _ := hi.of_same rfl rfl
  intervalPos _ hi _ := hi.of_same rfl rfl
  groupBegin ht _ _ _ := ⟨ht.1.of_same rfl rfl, fun hdst => (ht.2 hdst).of_same rfl rfl⟩
  groupEnd ht _ _ _ := ⟨ht.1.of_same rfl rfl, fun hdst => (ht.2 hdst).of_same rfl rfl⟩
  interval ht _ _ _ _ _ _ := ⟨ht.1.of_same rfl rfl, fun hdst => (ht.2 hdst).of_same rfl rfl⟩
  accepting ht _ hi _ := ⟨hi.append (ht.1.of_same rfl rfl) Dst.noConfusion, trivial⟩
  queue {sim nfa ctrl} ht _ _ _ _ hi _ _ _ := by
    have hstamped : ListsAt l s p (ctrl.stamp (E.heap nfa).id la) := hi.of_same rfl rfl
    exact ⟨hstamped.append (ht.1.of_same rfl rfl) fun hdst => (ht.2 hdst).of_same rfl rfl,
      trivial⟩
  mismatch _ := trivial
  drop _ hi _ _ _ := hi.of_same rfl rfl

/-- The threads of the start states have read nothing. -/
theorem spansStartRule (E : Env) (la : Nat) (l : Line) (s : Nat) :
    StartRule E la (fun _ => True) (ListsAt l s s)
      (fun sim _ => StepsAt l s s sim ∧ (Dst.active = .next → StepsAt l s (s + 1) sim))
      (fun _ => True) where
  toLoadRule := spansRule E .active la l s s
  start _ hi _ := by
    refine ⟨⟨⟨.inl ⟨startMemory_curMatch, .inl rfl⟩, ?_⟩, Dst.noConfusion⟩, hi.of_same rfl rfl⟩
    exact fun hne => absurd startMemory_brefPtr hne
  range ht _ _ _ _ hi _ := hi.append (ht.1.of_same rfl rfl) Dst.noConfusion
  skip _ hi _ := hi.of_same rfl rfl

theorem StepsAt.of_spansFrom (h : SpansFrom l s sim.curMatch) (hs : 0 < s) (p : Nat) :
    StepsAt l s p sim :=
  ⟨.inr h, fun _ => h.ne_empty hs⟩

/-- Case folding keeps the end of line symbol apart from every other character. -/
theorem Env.input_eq_eolSymbol (h : E.input c = eolSymbol) :
    E.line.deref c.curPos = eolSymbol := by
  unfold Env.input at h
  dsimp only at h
  split at h
  · unfold toupper toupperChar eolSymbol at h
    split at h
    · omega
    · split at h
      · omega
      · exact h
  · exact h

/-- A thread that enters or is inside the span of a backreference has read a character. -/
theorem StepsAt.openBackreference (h : StepsAt l s p sim) (hs : 0 < s) (hle : s ≤ p)
    (hp : p ≤ l.eolPos) : SpansFrom l s (openBackreference E sim p).curMatch := by
  unfold Recognizer.openBackreference
  split
  · exact h.span.updateMatch hs hle hp
  · next hinside => exact h.span.spansFrom (h.inside hinside)

section Step

variable (hline : E.line.Ascii)
include hline

/-- The thread a step loads. -/
theorem StepsAt.advance {sim₁ : NFASim} (h : StepsAt E.line s p sim) (hpos : ctrl.curPos = p)
    (hs : 0 < s) (hle : s ≤ p) (hge : E.line.buffer ≤ p) (hp : p ≤ E.line.eolPos)
    (hadv : Advance E sim ctrl sim₁ dst la) :
    StepsAt E.line s p sim₁ ∧ (dst = .next → StepsAt E.line s (p + 1) sim₁) := by
  subst hpos
  cases hadv with
  | consume =>
    have hspan := h.span.updateMatch hs hle hp
    exact ⟨.of_spansFrom hspan hs _, fun _ => .of_spansFrom hspan hs _⟩
  | closeBackreference =>
    have hspan : SpansFrom E.line s
        (closeBackreference (Recognizer.openBackreference E sim ctrl.curPos)
          ctrl.curPos).curMatch :=
      SpanAt.updateMatch (.inr (h.openBackreference hs hle hp)) hs hle hp
    exact ⟨.of_spansFrom hspan hs _, fun _ => .of_spansFrom hspan hs _⟩
  | bol => exact ⟨h, Dst.noConfusion⟩
  | eol _ hinput =>
    -- behind the end of line symbol nothing more can be read
    have hend := hline.eq_eolPos (.inr ⟨hge, hp.trans (Nat.le_succ _)⟩)
      (Env.input_eq_eolSymbol hinput)
    refine ⟨h, fun _ => ⟨?_, h.inside⟩⟩
    exact h.span.imp_left fun hempty => ⟨hempty.1, .inr (by omega)⟩

/-- A step of a thread. -/
theorem ListsAt.threadStep (h : ListsAt E.line s p ctrl) (hsim : StepsAt E.line s p sim)
    (hpos : ctrl.curPos = p) (hs : 0 < s) (hle : s ≤ p) (hge : E.line.buffer ≤ p)
    (hend : p ≤ E.line.eolPos + 1) (hstep : threadStep E fuel sim ctrl = some (sim', ctrl')) :
    ListsAt E.line s p ctrl' := by
  have herased : ListsAt E.line s p (eraseStamp E sim ctrl) := h.of_same rfl rfl
  by_cases hnul : E.line.deref ctrl.curPos = 0
  · rw [threadStep_accepts E fuel sim ctrl (.inl hnul)] at hstep
    obtain ⟨-, rfl⟩ := Prod.mk.inj (Option.some.inj hstep)
    exact herased
  · have hp : p ≤ E.line.eolPos :=
      (Line.Holds.inside (.inr ⟨hge, hend⟩) (hpos ▸ hnul)).2
    cases threadStep_cases hstep with
    | matched | failed | failedBackreference => exact herased
    | waited =>
      have hspan : SpansFrom E.line s
          (nextInSpan (Recognizer.openBackreference E sim ctrl.curPos)).curMatch :=
        hpos ▸ hsim.openBackreference hs hle hp
      exact herased.append (.of_spansFrom hspan hs _) fun _ => .of_spansFrom hspan hs _
    | @loaded sim₁ dst la _ _ _ hadv hload =>
      exact (((spansRule E dst la E.line s p).stepAdjacents hload).2
        (fun _ _ => hsim.advance hline hpos hs hle hge hp hadv) herased trivial).1

omit hline in
/-- The first thread of the active list is held. -/
theorem SpansAt.hold (hreads : ReadsLine E (st.hold c.shiftActive))
    (hle : st.inputPointer ≤ c.curPos) (hlists : ListsAt E.line st.inputPointer c.curPos c)
    (hbest : SpanAt E.line st.inputPointer st.inputPointer c.curMatch) :
    SpansAt E (st.hold c.shiftActive) where
  reads := hreads
  le := hle
  held sim hheld := hlists.active sim (List.mem_of_head? hheld)
  lists := ⟨fun sim hsim => hlists.active sim (List.mem_of_mem_tail hsim), hlists.next⟩
  best := hbest

omit hline in
theorem SpansAt.start (h : SpansAt E st) : E.line.buffer ≤ st.inputPointer := h.reads.start

omit hline in
theorem SpansAt.zero_lt (h : SpansAt E st) : 0 < st.inputPointer :=
  (Nat.zero_lt_one.trans E.line.one_lt_buffer).trans_le h.start

omit hline in
/-- The threads of an attempt that begins at a position of the line. -/
theorem SpansAt.begin (st : RunState) {pos : Nat} (hreads : ReadsLine E (st.hold d.shiftActive))
    (hip : st.inputPointer = pos) (hcur : c.curPos = pos) (hmatch : c.curMatch = {})
    (hactive : c.activeThreads = []) (hnext : c.nextThreads = [])
    (hload : loadStartStates E fuel pos c = some d) : SpansAt E (st.hold d.shiftActive) := by
  subst hip
  have hframe := loadStartStates_frame hload
  have hempty : ListsAt E.line st.inputPointer st.inputPointer c :=
    ⟨fun sim hsim => absurd (hactive ▸ hsim) List.not_mem_nil,
      fun sim hsim => absurd (hnext ▸ hsim) List.not_mem_nil⟩
  have hlists := ((spansStartRule E _ E.line _).loadStartStates hload).2 hempty trivial
  have hd : d.curPos = st.inputPointer := hframe.curPos.trans hcur
  refine .hold hreads hd.ge (hd ▸ hlists) (.inl ⟨?_, .inl rfl⟩)
  rw [hframe.curMatch, hmatch]

/-- **Every round of an attempt.** -/
theorem SpansAt.round {st' : RunState} (h : SpansAt E st) (hround : RoundTo E st (.running st')) :
    SpansAt E st' := by
  obtain ⟨fuel, hround⟩ := hround
  have hreads := h.reads.round hround
  have hs := h.zero_lt
  have hstepped : ∀ {sim sim' ctrl'}, st.thread = some sim →
      threadStep E fuel sim st.ctrl = some (sim', ctrl') →
        ListsAt E.line st.inputPointer ctrl'.curPos ctrl' ∧ st.inputPointer ≤ ctrl'.curPos ∧
          SpanAt E.line st.inputPointer st.inputPointer ctrl'.curMatch := by
    intro sim sim' ctrl' hheld hstep
    have hframe := threadStep_frame hstep
    rw [hframe.curPos, hframe.curMatch]
    exact ⟨h.lists.threadStep hline (h.held sim hheld) rfl hs h.le h.reads.ge h.reads.le hstep,
      h.le, h.best⟩
  generalize ho : Outcome.running st' = o at hround
  cases runStep_cases hround with
  | @matched sim sim' ctrl' hheld hstep hstatus =>
    obtain ⟨hlists, hle, hbest⟩ := hstepped hheld hstep
    rw [threadStep_accepts E fuel sim st.ctrl (threadStep_matched hstep hstatus)] at hstep
    obtain ⟨rfl, rfl⟩ := Prod.mk.inj (Option.some.inj hstep)
    have hmerged := hbest.updateLongestMatch hs (h.held sim hheld).span
    unfold matchCase at ho
    dsimp only at ho
    split at ho
    · split at ho
      · injection ho with ho
        subst ho
        exact .hold hreads hle (hlists.of_same rfl rfl) hmerged
      · cases ho
    · split at ho
      · injection ho with ho
        subst ho
        exact .hold hreads hle (hlists.of_same rfl rfl) hbest
      · cases ho
  | failed hheld hstep _ =>
    obtain ⟨hlists, hle, hbest⟩ := hstepped hheld hstep
    injection ho with ho
    subst ho
    exact .hold hreads hle (hlists.of_same rfl rfl) hbest
  | kept hheld hstep _ _ =>
    obtain ⟨hlists, hle, hbest⟩ := hstepped hheld hstep
    injection ho with ho
    subst ho
    exact .hold hreads hle hlists hbest
  | swapped hheld hnext =>
    obtain ⟨rfl, -⟩ := testInput_running ho.symm
    refine ⟨hreads, Nat.le_succ_of_le h.le, fun sim hsim => ?_, ⟨fun sim hsim => ?_, ?_⟩, h.best⟩
    · exact h.lists.next sim (List.mem_of_head? hsim)
    · exact h.lists.next sim (List.mem_of_mem_tail hsim)
    · exact fun sim hsim => absurd hsim List.not_mem_nil
  | restarted hheld hnext hrestart =>
    obtain ⟨pos, c, c', hsame, _, hload, rfl⟩ := restart_cases hrestart
    obtain ⟨rfl, -⟩ := testInput_running ho.symm
    refine .begin _ hreads rfl rfl rfl ?_ ?_ hload
    · exact hsame.activeThreads.trans (h.reads.drained hheld)
    · exact hsame.nextThreads.trans hnext

omit hline in
/-- The loops begin with an attempt. -/
theorem SpansAt.startRun (hmatch : c.curMatch = {}) (hactive : c.activeThreads = [])
    (hnext : c.nextThreads = []) (hbegin : c.bufferStart = E.line.buffer)
    (hend : c.bufferEnd = E.line.eolPos) (hcur : c.curPos = E.line.buffer)
    (hstart : startRun E fuel c = some (.running st)) : SpansAt E st := by
  have hreads := ReadsLine.startRun hmatch hactive hnext hbegin hcur hstart
  obtain ⟨c₁, c₂, hsame, hmatch₁, _, _, hload, ho⟩ := startRun_cases hstart
  rcases ho with ho | ⟨-, ho⟩
  · obtain ⟨rfl, hpos⟩ := testInput_running ho.symm
    rcases hload with hload | ⟨rfl, hbehind⟩
    · exact .begin (enterLoops c₁.curPos c₂.shiftActive) hreads rfl rfl (hmatch₁.trans hmatch)
        (hsame.activeThreads.trans hactive) (hsame.nextThreads.trans hnext) hload
    · refine absurd hreads.inside (not_le.mpr ?_)
      change E.line.eolPos < c₂.curPos
      omega
  · cases ho

end Step

end Recognizer
