import Recognizer.Run.Session
import Recognizer.Run.Start

/-!
# The positions of a run

The loops and the steps read the line at the input pointer, at the current position and at the
lookahead. None of them passes the `NUL` behind the line: a thread that reads it queues nothing,
a span ends at a character that was read, and a keyword search finds nothing that starts behind
the text. So only a backreference reads what lies elsewhere.
-/

namespace Recognizer

variable {E : Env} {l : Line} {dst : Dst} {fuel la p pos : Nat} {sim sim' : NFASim}
  {c d ctrl ctrl' : NFASimCtrl} {st : RunState} {o : Outcome}

/-- Boyer-Moore records start on the text. -/
theorem BMObj.searchLoop_beg_le (obj : BMObj) (text : List Int) {fuel : Nat} {j : Int}
    {acc : List MatchRecord} (hacc : ∀ r ∈ acc, r.beg ≤ text.length) :
    ∀ r ∈ obj.searchLoop text fuel j acc, r.beg ≤ text.length := by
  induction fuel generalizing j acc with
  | zero => exact hacc
  | succ fuel ih =>
    unfold BMObj.searchLoop
    dsimp only
    split
    · split
      · refine ih fun r hr => ?_
        rcases List.mem_append.mp hr with hold | hnew
        · exact hacc r hold
        · rw [List.mem_singleton.mp hnew]
          dsimp only
          omega
      · split
        · exact ih hacc
        · exact ih hacc
    · exact hacc

/-- The records of a bucket start at the window. -/
theorem MPatObj.scanBucket_beg {text : List Int} {beg : Nat} {key : Int} {l : List PrefixPattern}
    {prev : Nat} {acc : List MatchRecord} {n : Nat} (hbeg : beg ≤ n) (hacc : ∀ r ∈ acc, r.beg ≤ n) :
    ∀ r ∈ MPatObj.scanBucket text beg key l prev acc, r.beg ≤ n := by
  induction l generalizing prev acc with
  | nil => exact hacc
  | cons hr rest ih =>
    unfold MPatObj.scanBucket
    dsimp only
    split
    · split
      · refine ih fun r hr => ?_
        rcases List.mem_append.mp hr with hold | hnew
        · exact hacc r hold
        · rw [List.mem_singleton.mp hnew]
          exact hbeg
      · split
        · exact hacc
        · exact ih hacc
    · exact ih hacc

/-- Multi-pattern records start on the text. -/
theorem MPatObj.searchLoop_beg_le (obj : MPatObj) (text : List Int) {fuel ptr : Nat}
    {acc : List MatchRecord} (hacc : ∀ r ∈ acc, r.beg ≤ text.length) :
    ∀ r ∈ obj.searchLoop text fuel ptr acc, r.beg ≤ text.length := by
  induction fuel generalizing ptr acc with
  | zero => exact hacc
  | succ fuel ih =>
    unfold MPatObj.searchLoop
    dsimp only
    split
    · split
      · exact ih (MPatObj.scanBucket_beg (by omega) hacc)
      · exact ih hacc
    · exact hacc

/-- A keyword search finds no match that starts behind the text. -/
theorem KwSearch.search_beg_le (kw : KwSearch) (text : List Int) :
    ∀ r ∈ kw.search text, r.beg ≤ text.length := by
  cases kw with
  | bm obj => exact obj.searchLoop_beg_le text (by simp)
  | mpat obj =>
    have hrecords : ∀ r ∈ obj.mpatRecords text, r.beg ≤ text.length := by
      unfold MPatObj.mpatRecords
      split
      · simp
      · exact obj.searchLoop_beg_le text (by simp)
    have hmem : ∀ (l : List MatchRecord) (r x : MatchRecord),
        x ∈ MPatObj.recordMatch l r → x = r ∨ x ∈ l := by
      intro l r x
      induction l with
      | nil => simp [MPatObj.recordMatch]
      | cons y l ih =>
        unfold MPatObj.recordMatch
        split
        · grind
        · grind
    refine List.foldlRecOn (motive := fun l : List MatchRecord => ∀ r ∈ l, r.beg ≤ text.length)
      _ _ (by simp) fun l hl r hr x hx => ?_
    rcases hmem l r x hx with rfl | hold
    · exact hrecords x hr
    · exact hl x hold

/-- A span is empty or ends on the line. -/
def EndsOn (l : Line) (m : Match) : Prop := m.stop = 0 ∨ l.buffer ≤ m.stop ∧ m.stop ≤ l.eolPos

/-- The spans of the threads in the run lists end on the line, and threads wait for a further
position at a character only. -/
structure ListsOn (l : Line) (c : NFASimCtrl) : Prop where
  active : ∀ sim ∈ c.activeThreads, EndsOn l sim.curMatch
  next : ∀ sim ∈ c.nextThreads, EndsOn l sim.curMatch ∧ c.curPos ≤ l.eolPos

/-- A state of the loops reads its line only. -/
structure ReadsLine (E : Env) (st : RunState) : Prop where
  input : E.line.deref st.inputPointer ≠ 0
  start : E.line.buffer ≤ st.inputPointer
  inside : st.inputPointer ≤ E.line.eolPos
  ge : E.line.buffer ≤ st.ctrl.curPos
  le : st.ctrl.curPos ≤ E.line.eolPos + 1
  held : ∀ sim, st.thread = some sim → EndsOn E.line sim.curMatch
  lists : ListsOn E.line st.ctrl
  best : EndsOn E.line st.ctrl.curMatch
  records : E.kw.isSome → ∀ r ∈ st.ctrl.kwRecords, E.line.Holds r.beg
  drained : st.thread = none → st.ctrl.activeThreads = []

namespace ListsOn

theorem of_same (h : ListsOn l c) (hactive : d.activeThreads = c.activeThreads)
    (hnext : d.nextThreads = c.nextThreads) (hpos : d.curPos = c.curPos) : ListsOn l d :=
  ⟨fun t ht => h.active t (hactive ▸ ht), fun t ht => hpos ▸ h.next t (hnext ▸ ht)⟩

theorem append (h : ListsOn l c) (hsim : EndsOn l sim.curMatch)
    (hnext : dst = .next → c.curPos ≤ l.eolPos) : ListsOn l (c.append dst sim) := by
  cases dst with
  | active =>
    refine ⟨fun t hmem => ?_, h.next⟩
    rcases List.mem_append.mp hmem with hold | hnew
    · exact h.active t hold
    · exact List.mem_singleton.mp hnew ▸ hsim
  | next =>
    refine ⟨h.active, fun t hmem => ?_⟩
    rcases List.mem_append.mp hmem with hold | hnew
    · exact h.next t hold
    · rw [List.mem_singleton.mp hnew]
      exact ⟨hsim, hnext rfl⟩

theorem of_nil (hactive : c.activeThreads = []) (hnext : c.nextThreads = []) : ListsOn l c :=
  ⟨fun _ ht => absurd (hactive ▸ ht) List.not_mem_nil,
    fun _ ht => absurd (hnext ▸ ht) List.not_mem_nil⟩

end ListsOn

/-- A load hands the span of its thread on. -/
theorem endsOnRule (E : Env) (dst : Dst) (la : Nat) (l : Line) :
    LoadRule E dst la (fun _ => True)
      (fun c => ListsOn l c ∧ (dst = .next → c.curPos ≤ l.eolPos))
      (fun sim _ => EndsOn l sim.curMatch) (fun _ => True) where
  mono _ _ := trivial
  clone ht hi _ := by
    refine ⟨?_, hi.1.of_same rfl rfl rfl, hi.2⟩
    rw [cloneMemory_curMatch]
    exact ht
  release _ _ hi _ := ⟨hi.1.of_same rfl rfl rfl, hi.2⟩
  cursor _ _ hi _ := ⟨hi.1.of_same rfl rfl rfl, hi.2⟩
  intervalPos _ hi _ := ⟨hi.1.of_same rfl rfl rfl, hi.2⟩
  groupBegin ht _ _ _ := ht
  groupEnd ht _ _ _ := ht
  interval ht _ _ _ _ _ _ := ht
  accepting ht _ hi _ := ⟨⟨hi.1.append ht Dst.noConfusion, hi.2⟩, trivial⟩
  queue {sim nfa ctrl} ht _ _ _ _ hi _ _ _ := by
    have hstamped : ListsOn l (ctrl.stamp (E.heap nfa).id la) := hi.1.of_same rfl rfl rfl
    refine ⟨⟨hstamped.append ht hi.2, fun hdst => ?_⟩, trivial⟩
    rw [(SameFrame.append ..).curPos]
    exact hi.2 hdst
  mismatch _ := trivial
  drop _ hi _ _ _ := ⟨hi.1.of_same rfl rfl rfl, hi.2⟩

/-- The threads of the start states have read nothing. -/
theorem endsOnStartRule (E : Env) (la : Nat) (l : Line) :
    StartRule E la (fun _ => True)
      (fun c => ListsOn l c ∧ (Dst.active = .next → c.curPos ≤ l.eolPos))
      (fun sim _ => EndsOn l sim.curMatch) (fun _ => True) where
  toLoadRule := endsOnRule E .active la l
  start _ hi _ := by
    refine ⟨?_, hi.1.of_same rfl rfl rfl, Dst.noConfusion⟩
    rw [startMemory_curMatch]
    exact .inl rfl
  range ht _ _ _ _ hi _ := ⟨hi.1.append ht Dst.noConfusion, Dst.noConfusion⟩
  skip _ hi _ := ⟨hi.1.of_same rfl rfl rfl, Dst.noConfusion⟩

/-- A span that is brought up to a position of the line ends there. -/
theorem endsOn_updateMatch (sim : NFASim) (hge : l.buffer ≤ p) (hp : p ≤ l.eolPos) :
    EndsOn l (updateMatch sim p).curMatch := by
  unfold updateMatch
  split <;> exact .inr ⟨hge, hp⟩

theorem endsOn_openBackreference (h : EndsOn l sim.curMatch) (hge : l.buffer ≤ p)
    (hp : p ≤ l.eolPos) : EndsOn l (openBackreference E sim p).curMatch := by
  unfold openBackreference
  split
  · exact endsOn_updateMatch sim hge hp
  · exact h

/-- The thread a step loads, at a character of the line. -/
theorem endsOn_advance {sim₁ : NFASim} (h : EndsOn l sim.curMatch) (hge : l.buffer ≤ ctrl.curPos)
    (hp : ctrl.curPos ≤ l.eolPos) (hadv : Advance E sim ctrl sim₁ dst la) :
    EndsOn l sim₁.curMatch := by
  cases hadv with
  | consume => exact endsOn_updateMatch sim hge hp
  | closeBackreference => exact endsOn_updateMatch (openBackreference E sim ctrl.curPos) hge hp
  | bol | eol => exact h

/-- A step of a thread. -/
theorem ListsOn.threadStep (h : ListsOn E.line ctrl) (hsim : EndsOn E.line sim.curMatch)
    (hge : E.line.buffer ≤ ctrl.curPos) (hle : ctrl.curPos ≤ E.line.eolPos + 1)
    (hstep : threadStep E fuel sim ctrl = some (sim', ctrl')) : ListsOn E.line ctrl' := by
  have herased : ListsOn E.line (eraseStamp E sim ctrl) := h.of_same rfl rfl rfl
  by_cases hnul : E.line.deref ctrl.curPos = 0
  · rw [threadStep_accepts E fuel sim ctrl (.inl hnul)] at hstep
    obtain ⟨-, rfl⟩ := Prod.mk.inj (Option.some.inj hstep)
    exact herased
  · have hp : ctrl.curPos ≤ E.line.eolPos := by
      refine Nat.le_of_lt_succ (Nat.lt_of_le_of_ne hle fun heq => hnul ?_)
      rw [heq]
      exact E.line.deref_behind
    cases threadStep_cases hstep with
    | matched | failed | failedBackreference => exact herased
    | waited => exact herased.append (endsOn_openBackreference hsim hge hp) fun _ => hp
    | @loaded sim₁ dst la _ _ _ hadv hload =>
      exact (((endsOnRule E dst la E.line).stepAdjacents hload).2
        (fun _ _ => endsOn_advance hsim hge hp hadv) ⟨herased, fun _ => hp⟩ trivial).1.1

/-- Of two spans that end on the line one that ends there is kept. -/
theorem endsOn_updateLongestMatch {m m' : Match} (h : EndsOn l m) (h' : EndsOn l m') :
    EndsOn l (updateLongestMatch m m') := by
  unfold updateLongestMatch
  split
  · exact h'
  · split
    · exact h'
    · exact h

/-- The cursor of the keyword matches stands at the record. -/
def AtRecord (c : NFASimCtrl) (mr : MatchRecord) : Prop :=
  ∃ i, c.kwCursor = some i ∧ c.kwRecords[i]? = some mr

/-- The cursor moves to the record that is handed out. -/
theorem atRecord_kwNextMatch {mr : MatchRecord} (h : c.kwNextMatch = (some mr, d)) :
    AtRecord d mr ∧ d.kwRecords = c.kwRecords := by
  unfold NFASimCtrl.kwNextMatch at h
  dsimp only at h
  split at h
  · cases h
  · next hmr =>
    obtain ⟨hvalue, rfl⟩ := Prod.mk.inj h
    obtain rfl := Option.some.inj hvalue
    exact ⟨⟨_, rfl, hmr⟩, rfl⟩

/-- The next record is one of the records. -/
theorem kwNextMatch_mem {mr : MatchRecord} (h : c.kwNextMatch = (some mr, d)) :
    mr ∈ c.kwRecords ∧ d.kwRecords = c.kwRecords := by
  obtain ⟨⟨i, -, hmr⟩, hrecords⟩ := atRecord_kwNextMatch h
  exact ⟨hrecords ▸ List.mem_of_getElem? hmr, hrecords⟩

/-- So is the first record behind a position. -/
theorem kwSkipPast_mem {mr : MatchRecord} {stop k : Nat} (h : c.kwSkipPast stop k = (some mr, d)) :
    mr ∈ c.kwRecords := by
  induction k generalizing c with
  | zero => cases h
  | succ k ih =>
    unfold NFASimCtrl.kwSkipPast at h
    split at h
    · next mr' c' hnext =>
      obtain ⟨hmem, hrecords⟩ := kwNextMatch_mem hnext
      split at h
      · exact hrecords ▸ ih h
      · obtain ⟨hvalue, rfl⟩ := Prod.mk.inj h
        exact Option.some.inj hvalue ▸ hmem
    · cases h

/-- The records stay while the input pointer moves. -/
theorem kwRecords_updateInputPointer (E : Env) (currentRun : Bool) (p : Nat) (c : NFASimCtrl) :
    (updateInputPointer E currentRun p c).2.kwRecords = c.kwRecords := by
  have hone : ∀ c : NFASimCtrl, c.kwNextMatch.2.kwRecords = c.kwRecords := by
    intro c
    unfold NFASimCtrl.kwNextMatch
    dsimp only
    split <;> rfl
  have hskip : ∀ (stop k : Nat) (c : NFASimCtrl), (c.kwSkipPast stop k).2.kwRecords =
      c.kwRecords := by
    intro stop k
    induction k with
    | zero => exact fun _ => rfl
    | succ k ih =>
      intro c
      have hc := hone c
      unfold NFASimCtrl.kwSkipPast
      split
      · next heq =>
        rw [heq] at hc
        split
        · exact (ih _).trans hc
        · exact hc
      · next heq =>
        rw [heq] at hc
        exact hc
  unfold updateInputPointer
  split
  · split <;> rfl
  · dsimp only
    split
    · split
      · exact hone c
      · exact hskip ..
    · split
      · exact hone c
      · exact hskip ..

/-- The input pointer moves along the positions of a run. -/
theorem updateInputPointer_holds {currentRun : Bool} (hge : l.buffer ≤ p) (hle : p ≤ l.eolPos)
    (hmatch : EndsOn l c.curMatch) (hrecords : E.kw.isSome → ∀ r ∈ c.kwRecords, l.Holds r.beg)
    (h : updateInputPointer E currentRun p c = (pos, d)) : l.Holds pos := by
  unfold updateInputPointer at h
  cases hkw : E.kw with
  | none =>
    rw [hkw] at h
    dsimp only [Option.isNone] at h
    rw [if_pos rfl] at h
    split at h
    · obtain ⟨rfl, -⟩ := Prod.mk.inj h
      exact .inr ⟨hge.trans (Nat.le_succ p), Nat.succ_le_succ hle⟩
    · next hfound =>
      obtain ⟨rfl, -⟩ := Prod.mk.inj h
      obtain ⟨hge', hle'⟩ := hmatch.resolve_left fun hzero => hfound (.inr hzero)
      exact .inr ⟨hge'.trans (Nat.le_succ _), Nat.succ_le_succ hle'⟩
  | some kw =>
    rw [hkw] at h hrecords
    have hall := hrecords rfl
    dsimp only [Option.isNone] at h
    rw [if_neg Bool.false_ne_true] at h
    by_cases hfound : currentRun = false ∨ c.curMatch.stop = 0
    · rw [if_pos hfound] at h
      split at h
      · next mr hmr =>
        obtain ⟨rfl, -⟩ := Prod.mk.inj h
        exact hall mr (kwNextMatch_mem (Prod.ext hmr rfl)).1
      · exact .inl (Prod.mk.inj h).1.symm
    · rw [if_neg hfound] at h
      split at h
      · next mr hmr =>
        obtain ⟨rfl, -⟩ := Prod.mk.inj h
        exact hall mr (kwSkipPast_mem (Prod.ext hmr rfl))
      · exact .inl (Prod.mk.inj h).1.symm

/-- A state goes on where its input is not at its end. -/
theorem testInput_running {st' : RunState} (h : testInput E st = .running st') :
    st' = st ∧ E.line.deref st.inputPointer ≠ 0 := by
  unfold testInput at h
  split at h
  · next hinput =>
    injection h with h
    exact ⟨h.symm, hinput⟩
  · cases h

/-- A position that does not show `NUL` is on the line. -/
theorem Line.Holds.inside (h : l.Holds p) (hp : l.deref p ≠ 0) : l.buffer ≤ p ∧ p ≤ l.eolPos := by
  rcases h with rfl | ⟨hge, hle⟩
  · exact absurd l.deref_nulString hp
  · refine ⟨hge, Nat.le_of_lt_succ (Nat.lt_of_le_of_ne hle fun heq => hp ?_)⟩
    rw [heq]
    exact l.deref_behind

/-- The first thread of the active list is held. -/
theorem ReadsLine.hold (hinput : E.line.deref st.inputPointer ≠ 0)
    (h : E.line.buffer ≤ st.inputPointer ∧ st.inputPointer ≤ E.line.eolPos)
    (hge : E.line.buffer ≤ c.curPos) (hle : c.curPos ≤ E.line.eolPos + 1)
    (hlists : ListsOn E.line c) (hbest : EndsOn E.line c.curMatch)
    (hrecords : E.kw.isSome → ∀ r ∈ c.kwRecords, E.line.Holds r.beg) :
    ReadsLine E (st.hold c.shiftActive) where
  input := hinput
  start := h.1
  inside := h.2
  ge := hge
  le := hle
  held sim hheld := hlists.active sim (List.mem_of_head? hheld)
  lists := ⟨fun sim hsim => hlists.active sim (List.mem_of_mem_tail hsim), hlists.next⟩
  best := hbest
  records := hrecords
  drained hnone := by
    have hnil : c.activeThreads = [] := List.head?_eq_none_iff.mp hnone
    simp [RunState.hold, NFASimCtrl.shiftActive, hnil]

/-- An attempt begins at a position of the run. -/
theorem ReadsLine.begin (st : RunState) (hpos : E.line.Holds pos) (hinput : E.line.deref pos ≠ 0)
    (hip : st.inputPointer = pos) (hcur : c.curPos = pos) (hmatch : c.curMatch = {})
    (hactive : c.activeThreads = []) (hnext : c.nextThreads = [])
    (hrecords : E.kw.isSome → ∀ r ∈ c.kwRecords, E.line.Holds r.beg)
    (hload : loadStartStates E fuel pos c = some d) : ReadsLine E (st.hold d.shiftActive) := by
  subst hip
  have hframe := loadStartStates_frame hload
  have hinside := hpos.inside hinput
  have hd : d.curPos = st.inputPointer := hframe.curPos.trans hcur
  have hlists := ((endsOnStartRule E _ E.line).loadStartStates hload).2
    ⟨.of_nil hactive hnext, Dst.noConfusion⟩ trivial
  refine .hold hinput hinside (hd ▸ hinside.1) (hd ▸ hinside.2.trans (Nat.le_succ _)) hlists.1 ?_ ?_
  · rw [hframe.curMatch, hmatch]
    exact .inl rfl
  · rw [hframe.kwRecords]
    exact hrecords

/-- A step that leaves the loops running is followed by the first thread of the active list. -/
theorem ReadsLine.next {s : RunState} (h : ReadsLine E st) (hheld : st.thread = some sim)
    (hstep : threadStep E fuel sim st.ctrl = some (sim', ctrl'))
    (hactive : c.activeThreads = ctrl'.activeThreads) (hnext : c.nextThreads = ctrl'.nextThreads)
    (hpos : c.curPos = ctrl'.curPos) (hbest : EndsOn E.line c.curMatch)
    (hrecords : c.kwRecords = ctrl'.kwRecords) (hs : s.inputPointer = st.inputPointer) :
    ReadsLine E (s.hold c.shiftActive) := by
  have hlists := h.lists.threadStep (h.held _ hheld) h.ge h.le hstep
  have hframe := threadStep_frame hstep
  have hc : c.curPos = st.ctrl.curPos := hpos.trans hframe.curPos
  refine .hold (hs ▸ h.input) (hs ▸ ⟨h.start, h.inside⟩) (hc ▸ h.ge) (hc ▸ h.le)
    (hlists.of_same hactive hnext hpos) hbest ?_
  rw [hrecords, hframe.kwRecords]
  exact h.records

/-- An accepted thread is released, or the loops are left. -/
theorem ReadsLine.matched {st' : RunState} (h : ReadsLine E st) (hheld : st.thread = some sim)
    (hstep : threadStep E fuel sim st.ctrl = some (sim', ctrl')) (hstatus : sim'.status = 1)
    (ho : matchCase E st sim' ctrl' = .running st') : ReadsLine E st' := by
  have hbest : EndsOn E.line ctrl'.curMatch := (threadStep_frame hstep).curMatch ▸ h.best
  have haccepts := threadStep_accepts E fuel sim st.ctrl (threadStep_matched hstep hstatus)
  obtain ⟨rfl, rfl⟩ := Prod.mk.inj (Option.some.inj (haccepts.symm.trans hstep))
  have hmerged := endsOn_updateLongestMatch hbest (h.held sim hheld)
  unfold matchCase at ho
  dsimp only at ho
  split at ho
  · split at ho
    · injection ho with ho
      rw [← ho]
      exact h.next (c := ((eraseStamp E sim st.ctrl).setMatch _).release _) hheld hstep rfl rfl rfl
        hmerged rfl rfl
    · cases ho
  · split at ho
    · injection ho with ho
      rw [← ho]
      exact h.next (c := (eraseStamp E sim st.ctrl).release _) hheld hstep rfl rfl rfl hbest rfl rfl
    · cases ho

/-- The threads that wait are behind a character of the line, so the position moves on it. -/
theorem ReadsLine.swap (h : ReadsLine E st) (hnext : st.ctrl.nextThreads ≠ []) :
    ReadsLine E (st.hold (NFASimCtrl.shiftActive
      { st.ctrl.swapNextWActive with curPos := st.ctrl.swapNextWActive.curPos + 1 })) := by
  obtain ⟨t, ht⟩ := List.exists_mem_of_ne_nil _ hnext
  exact
    { input := h.input
      start := h.start
      inside := h.inside
      ge := Nat.le_succ_of_le h.ge
      le := Nat.succ_le_succ (h.lists.next t ht).2
      held := fun sim hsim => (h.lists.next sim (List.mem_of_head? hsim)).1
      lists := ⟨fun sim hsim => (h.lists.next sim (List.mem_of_mem_tail hsim)).1,
        fun _ hsim => absurd hsim List.not_mem_nil⟩
      best := h.best
      records := h.records
      drained := fun hnone => absurd (List.head?_eq_none_iff.mp hnone) hnext }

/-- Before another attempt `new_match` writes the reports only. -/
theorem exists_reports_newMatch (E : Env) (c : NFASimCtrl) :
    ∃ reports, (if E.flags.lineOrInvert then c else newMatch E c) =
      { c with reports := reports } := by
  unfold newMatch
  split
  · exact ⟨c.reports, rfl⟩
  · split
    · exact ⟨_, rfl⟩
    · exact ⟨c.reports, rfl⟩

/-- Another attempt begins at a position of the run. -/
theorem ReadsLine.restart {st' : RunState} (h : ReadsLine E st) (hheld : st.thread = none)
    (hnext : st.ctrl.nextThreads = []) (hrestart : restart E fuel st = some (.running st')) :
    ReadsLine E st' := by
  obtain ⟨pos, c, c', hpointer, _, hload, ho⟩ := restart_pointer hrestart
  obtain ⟨rfl, hpos⟩ := testInput_running ho.symm
  obtain ⟨reports, hreports⟩ := exists_reports_newMatch E st.ctrl
  rw [hreports] at hpointer
  have hc := SameThreads.updateInputPointer E st.currentRun st.inputPointer
    { st.ctrl with reports := reports }
  have hkept := kwRecords_updateInputPointer E st.currentRun st.inputPointer
    { st.ctrl with reports := reports }
  rw [hpointer] at hc hkept
  have hrecords : E.kw.isSome → ∀ r ∈ c.kwRecords, E.line.Holds r.beg := hkept ▸ h.records
  refine .begin (c := beginAttempt c pos) (st.moveTo pos) ?_ hpos rfl rfl rfl
    (hc.activeThreads.trans (h.drained hheld)) (hc.nextThreads.trans hnext) hrecords hload
  exact updateInputPointer_holds (c := { st.ctrl with reports := reports }) h.start h.inside h.best
    h.records hpointer

/-- **Every round** reads the line only. -/
theorem ReadsLine.round {st' : RunState} (h : ReadsLine E st)
    (hround : runStep E fuel st = some (.running st')) : ReadsLine E st' := by
  generalize ho : Outcome.running st' = o at hround
  cases runStep_cases hround with
  | matched hheld hstep hstatus => exact h.matched hheld hstep hstatus ho.symm
  | @failed sim sim' ctrl' hheld hstep _ =>
    injection ho with ho
    rw [ho]
    exact h.next (c := ctrl'.release sim') hheld hstep rfl rfl rfl
      ((threadStep_frame hstep).curMatch ▸ h.best) rfl rfl
  | @kept sim sim' ctrl' hheld hstep _ _ =>
    injection ho with ho
    rw [ho]
    exact h.next hheld hstep rfl rfl rfl ((threadStep_frame hstep).curMatch ▸ h.best) rfl rfl
  | swapped hheld hnext =>
    obtain ⟨rfl, -⟩ := testInput_running ho.symm
    exact h.swap hnext
  | restarted hheld hnext hrestart =>
    subst ho
    exact h.restart hheld hnext hrestart

/-- The records of a keyword search start on the line or at its end. -/
theorem holds_searchLine (kw : KwSearch) (hbegin : c.bufferStart = E.line.buffer) :
    ∀ r ∈ (searchLine E kw c).kwRecords, E.line.Holds r.beg := by
  intro r hr
  obtain ⟨r', hr', rfl⟩ := List.mem_map.mp hr
  have hle := kw.search_beg_le _ r' hr'
  rw [List.length_append, List.length_singleton] at hle
  refine .inr ⟨hbegin.ge.trans (Nat.le_add_right _ _), ?_⟩
  change c.bufferStart + r'.beg ≤ _
  rw [hbegin]
  unfold Line.eolPos
  omega

/-- With a keyword search the loops are entered behind an attempt at its first record. -/
theorem startRun_search {kw : KwSearch} (hkw : E.kw = some kw) (hactive : c.activeThreads = [])
    (hstart : startRun E fuel c = some (.running st)) :
    ∃ mr c₁ d, (searchLine E kw (beginRun c)).kwNextMatch = (some mr, c₁) ∧
      loadStartStates E fuel mr.beg (seek c₁ mr.beg) = some d ∧
      st = enterLoops d.curPos d.shiftActive ∧ E.line.deref d.curPos ≠ 0 := by
  unfold startRun at hstart
  rw [hkw] at hstart
  dsimp only at hstart
  split at hstart
  · cases hstart
  · next d hfind =>
    unfold findKeywordStartPos at hfind
    dsimp only at hfind
    split at hfind
    · -- without a record no thread is loaded
      obtain rfl := Option.some.inj hfind
      rw [if_pos] at hstart
      · cases hstart
      · change (c.activeThreads.head?).isNone = true
        rw [hactive]
        rfl
    · split at hfind
      · cases hfind
      · next mr c₁ hmr =>
        split at hstart
        · cases hstart
        · obtain ⟨rfl, hinput⟩ := testInput_running (Option.some.inj hstart)
          exact ⟨mr, c₁, d, hmr, hfind, rfl, hinput⟩

/-- The first record of a keyword search is a position of the run. -/
theorem ReadsLine.startRun_search {kw : KwSearch} (hkw : E.kw = some kw) (hmatch : c.curMatch = {})
    (hactive : c.activeThreads = []) (hnext : c.nextThreads = [])
    (hbegin : c.bufferStart = E.line.buffer) (hstart : startRun E fuel c = some (.running st)) :
    ReadsLine E st := by
  obtain ⟨mr, c₁, d, hmr, hload, rfl, hinput⟩ := Recognizer.startRun_search hkw hactive hstart
  have hsearch := holds_searchLine (c := beginRun c) kw hbegin
  obtain ⟨hmem, hrecords⟩ := kwNextMatch_mem hmr
  have hsame := SameThreads.kwNextMatch (searchLine E kw (beginRun c))
  have hframe := kwNextMatch_frame (searchLine E kw (beginRun c))
  rw [hmr] at hsame hframe
  have hip : d.curPos = mr.beg := (loadStartStates_frame hload).curPos
  refine .begin (c := seek c₁ mr.beg) (enterLoops d.curPos d.shiftActive)
    (hsearch mr hmem) (hip ▸ hinput) hip rfl (hframe.1.trans hmatch)
    (hsame.activeThreads.trans hactive) (hsame.nextThreads.trans hnext) ?_ hload
  intro _ r hr
  exact hsearch r (hrecords ▸ hr)

/-- The loops begin with an attempt. -/
theorem ReadsLine.startRun (hmatch : c.curMatch = {}) (hactive : c.activeThreads = [])
    (hnext : c.nextThreads = []) (hbegin : c.bufferStart = E.line.buffer)
    (hcur : c.curPos = E.line.buffer)
    (hstart : startRun E fuel c = some (.running st)) : ReadsLine E st := by
  cases hkw : E.kw with
  | some kw => exact startRun_search hkw hmatch hactive hnext hbegin hstart
  | none =>
    unfold Recognizer.startRun at hstart
    rw [hkw] at hstart
    dsimp only at hstart
    split at hstart
    · cases hstart
    · next d hload =>
      obtain ⟨rfl, hpos⟩ := testInput_running (Option.some.inj hstart)
      have hfirst : E.line.Holds (beginRun c).curPos := by
        refine .inr ⟨hcur.ge, ?_⟩
        change c.curPos ≤ _
        rw [hcur]
        unfold Line.eolPos
        omega
      refine .begin (c := beginRun c) (enterLoops c.curPos d.shiftActive) hfirst hpos rfl rfl hmatch
        hactive hnext ?_ hload
      intro hsome
      rw [hkw] at hsome
      cases hsome

/-- What holds of the phases of a session that reads its lines only. -/
def LineInv (E : Env) : Phase → Prop
  | .idle ctrl => ctrl.activeThreads = [] ∧ ctrl.nextThreads = []
  | .busy line (.running s) => ReadsLine (E.onLine line) s
  | .busy _ (.released _) => True

/-- **Every state** of a session reads its line only. -/
theorem Reaches.readsLine {L : Line → Prop} {line : Line} {s : RunState}
    (hreach : Reaches E L line s) : ReadsLine (E.onLine line) s := by
  have hinv : LineInv E (.busy line (.running s)) := by
    refine hreach.invariant ?_ fun p q hi h => ?_
    · rintro p rfl
      exact ⟨rfl, rfl⟩
    · cases h with
      | @start line ctrl fuel o _ h =>
        cases o with
        | running s => exact .startRun (c := freshLine line ctrl) rfl hi.1 hi.2 rfl rfl h
        | released s => trivial
      | @round line s fuel o h =>
        cases o with
        | running s' => exact hi.round h
        | released s' => trivial
      | finish => exact finishRun_lists _
  exact hinv

end Recognizer
