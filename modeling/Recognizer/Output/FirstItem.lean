import Recognizer.Output.Ordered
import Mathlib.Logic.Relation

/-!
# What `-o` prints without `-g`

Without `-g` the run ends with the first thread that is accepted, and what it has read is printed.
With `-g` the attempt goes on and its longest match is printed; if that is empty, later attempts
may find others. So the line of `-o` is the first one of `-o -g` exactly if no thread that is
accepted later, in the attempt or, behind an empty match, on the line, has read more.
-/

namespace Recognizer

variable {E : Env} {s p fuel fuel' : Nat} {m m' : Match} {c d d' ctrl : NFASimCtrl}
  {st st' t : RunState} {o : Outcome}

/-- The mode of `-o` without `-g`. -/
def CtrlFlags.firstOnly (f : CtrlFlags) : CtrlFlags := { f with mglobal := false }

/-- How many characters a span has. -/
def Match.size (m : Match) : Nat := if m.start = 0 then 0 else m.stop + 1 - m.start

/-- The round ends an attempt. -/
def RunState.EndsAttempt (st : RunState) : Prop := st.thread = none ∧ st.ctrl.nextThreads = []

/-- A round to another state. -/
def Next (E : Env) (st st' : RunState) : Prop := RoundTo E st (.running st')

/-- A round that stays in the attempt. -/
def NextInAttempt (E : Env) (st st' : RunState) : Prop := Next E st st' ∧ ¬ st.EndsAttempt

/-- A state behind the one that accepts `m`, in the same attempt unless `m` is empty. -/
def Behind (E : Env) (m : Match) : RunState → RunState → Prop :=
  Relation.TransGen (if m = {} then Next E else NextInAttempt E)

/-- The first thread that is accepted on the line has read the span `m`. -/
def FirstAccepts (E : Env) (ctrl : NFASimCtrl) (st : RunState) (m : Match) : Prop :=
  ∃ fuel o, startRun E fuel (freshLine E.line ctrl) = some o ∧ Unmatched E o (.running st) ∧
    st.Accepts E m

/-- No thread that is accepted behind the first one has read more. -/
def FirstIsLongest (E : Env) (ctrl : NFASimCtrl) : Prop :=
  ∀ st m t m', FirstAccepts E ctrl st m → Behind E m st t → t.Accepts E m' → m'.size ≤ m.size

theorem SpansFrom.size_eq {l : Line} (h : SpansFrom l s m) (hs : 0 < s) :
    m.size = m.stop + 1 - s := by
  rw [Match.size, h.start, if_neg hs.ne']

/-- A span of an attempt is no longer than another one if it ends no later. -/
theorem SpansFrom.size_le_iff {l : Line} (h : SpansFrom l s m) (hs : 0 < s)
    (h' : SpanAt l s p m') : m'.size ≤ m.size ↔ ¬ m.stop < m'.stop := by
  rw [h.size_eq hs]
  have hle := h.le
  rcases h' with ⟨rfl, -⟩ | hspan
  · exact iff_of_true (Nat.zero_le _) (Nat.not_lt_zero _)
  · have hle' := hspan.le
    rw [hspan.size_eq hs]
    omega

theorem SpanAt.size_eq_zero_iff {l : Line} (h : SpanAt l s p m) (hs : 0 < s) :
    m.size ≤ 0 ↔ m = {} := by
  constructor
  · intro hsize
    by_contra hne
    have hspan := h.spansFrom hne
    have hle := hspan.le
    rw [hspan.size_eq hs] at hsize
    omega
  · rintro rfl
    rfl

/-- What is accepted is a span of the attempt. -/
theorem RunState.Accepts.spanAt (h : st.Accepts E m) (hspans : SpansAt E st) :
    SpanAt E.line st.inputPointer st.ctrl.curPos m := by
  obtain ⟨sim, hheld, -, rfl⟩ := h
  exact (hspans.held sim hheld).span

/-- A thread that is accepted is held. -/
theorem RunState.Accepts.not_endsAttempt (h : st.Accepts E m) : ¬ st.EndsAttempt := by
  obtain ⟨sim, hheld, -⟩ := h
  rintro ⟨hnone, -⟩
  rw [hheld] at hnone
  cases hnone

theorem RunState.Accepts.unique (h : st.Accepts E m) (h' : st.Accepts E m') : m = m' := by
  obtain ⟨sim, hheld, -, rfl⟩ := h
  obtain ⟨sim', hheld', -, rfl⟩ := h'
  rw [hheld] at hheld'
  rw [Option.some.inj hheld']

theorem Next.unique (h : Next E st st') (h' : Next E st t) : st' = t := by
  have := RoundTo.unique h h'
  injection this

/-- From a state with one successor a property holds on if it holds of the state, and on from its
successor. -/
theorem forall_reflTransGen_iff {α : Type} {r : α → α → Prop} {P : α → Prop} {a b : α}
    (hab : r a b) (hunique : ∀ c, r a c → c = b) :
    (∀ c, Relation.ReflTransGen r a c → P c) ↔ P a ∧ ∀ c, Relation.ReflTransGen r b c → P c := by
  constructor
  · exact fun h => ⟨h a .refl, fun c hc => h c (.head hab hc)⟩
  · rintro ⟨ha, h⟩ c hc
    rcases Relation.ReflTransGen.cases_head hc with rfl | ⟨c', hc', hrest⟩
    · exact ha
    · exact h c (hunique c' hc' ▸ hrest)

/-- No thread that is accepted from the state on has read more than the span. -/
def NoLonger (E : Env) (r : RunState → RunState → Prop) (m : Match) (st : RunState) : Prop :=
  ∀ t, Relation.ReflTransGen r st t → ∀ m', t.Accepts E m' → m'.size ≤ m.size

/-- Behind a round. -/
theorem noLonger_iff {r : RunState → RunState → Prop} (hround : RoundTo E st (.running st'))
    (hr : r st st') (hnext : ∀ t, r st t → Next E st t) :
    NoLonger E r m st ↔ (∀ m', st.Accepts E m' → m'.size ≤ m.size) ∧ NoLonger E r m st' :=
  forall_reflTransGen_iff hr fun t ht => ((hnext t ht).unique hround)

section Rounds

variable (hline : E.line.Ascii) (hmode : E.flags.individualMatches = true)
  (hglobal : E.flags.mglobal = true)

include hmode hglobal

/-- With `-g` the round of an accepted thread merges its span. -/
theorem RoundTo.of_accepts (haccepts : st.Accepts E m) (hround : RoundTo E st o) :
    ∃ st', o = .running st' ∧ st'.ctrl.curMatch = updateLongestMatch st.ctrl.curMatch m ∧
      st'.ctrl.reports = st.ctrl.reports ∧ st'.inputPointer = st.inputPointer := by
  obtain ⟨sim, -, rfl, hmatch⟩ := runStep_accepts haccepts
  obtain ⟨fuel, hround⟩ := hround
  rw [hmatch fuel] at hround
  obtain rfl := Option.some.inj hround
  refine ⟨st.markFound.hold (releaseThread ((eraseStamp E sim st.ctrl).setMatch
    (updateLongestMatch st.ctrl.curMatch sim.curMatch)) (setStatus sim 1)), ?_, rfl, rfl, rfl⟩
  unfold matchCase
  dsimp only
  rw [if_pos hmode, if_pos hglobal]
  rfl

omit hmode hglobal in
/-- Without an accepted thread the attempt goes on, or it ends. -/
theorem RoundTo.of_not_accepts (hspans : SpansAt E st) (hno : ∀ m, ¬ st.Accepts E m)
    (hends : ¬ st.EndsAttempt) (hround : RoundTo E st o) :
    ∃ st', o = .running st' ∧ st'.ctrl.curMatch = st.ctrl.curMatch ∧
      st'.ctrl.reports = st.ctrl.reports ∧ st'.inputPointer = st.inputPointer := by
  obtain ⟨fuel, hround⟩ := hround
  cases runStep_cases hround with
  | matched hheld hstep hstatus => exact absurd hstatus (status_ne_of_not_accepts hheld hno hstep)
  | failed hheld hstep _ | kept hheld hstep _ _ =>
    have hframe := threadStep_frame hstep
    exact ⟨_, rfl, hframe.curMatch, hframe.reports, rfl⟩
  | swapped hheld hnext =>
    exact ⟨_, if_pos hspans.reads.input, rfl, rfl, rfl⟩
  | restarted hheld hnext _ => exact absurd ⟨hheld, hnext⟩ hends

omit hglobal in
/-- In the round behind an attempt its longest match is reported. -/
theorem RoundTo.of_endsAttempt (hspans : SpansAt E st) (hends : st.EndsAttempt)
    (hround : RoundTo E st o) :
    o.state.ctrl.reports = st.ctrl.reports ++ reportOf st.ctrl.curMatch ∧
      o.state.ctrl.curMatch = {} := by
  obtain ⟨fuel, hround⟩ := hround
  cases runStep_cases hround with
  | matched hheld | failed hheld | kept hheld =>
    rw [hends.1] at hheld
    cases hheld
  | swapped hheld hnext => exact absurd hends.2 hnext
  | restarted hheld hnext hrestart =>
    obtain ⟨pos, d, e, hpointer, hload, rfl⟩ := restart_individual hmode hspans hrestart
    have hframe := loadStartStates_frame hload
    have hreports := reports_updateInputPointer (E := E) st.currentRun st.inputPointer
      (st.ctrl.report st.ctrl.curMatch)
    rw [hpointer] at hreports
    rw [testInput_state]
    exact ⟨hframe.reports.trans hreports, hframe.curMatch⟩

omit hmode hglobal in
/-- Reports are never taken back. -/
theorem RunsTo.reports_append (hruns : RunsTo E o t) :
    ∃ more, t.ctrl.reports = o.state.ctrl.reports ++ more := by
  induction hruns with
  | released => exact ⟨[], (List.append_nil _).symm⟩
  | round hround _ ih =>
    obtain ⟨fuel, hround⟩ := hround
    have htells : Tells E [] 0 _ _ _ := tells_runStep hround
    obtain ⟨spans, hreports, -⟩ := htells
    obtain ⟨more, hmore⟩ := ih
    exact ⟨spans ++ more, by rw [hmore, hreports, List.append_assoc]; rfl⟩

include hline

/-- **The longest match of an attempt** is the one it has already if no thread that is accepted
later in the attempt has read more. -/
theorem RunsTo.longest_of_attempt (hspans : SpansAt E st) (hne : st.ctrl.curMatch ≠ {})
    (hruns : RunsTo E (.running st) t) : ∃ M more,
      t.ctrl.reports = st.ctrl.reports ++ M :: more ∧ st.ctrl.curMatch.size ≤ M.size ∧
        (M = st.ctrl.curMatch ↔ NoLonger E (NextInAttempt E) st.ctrl.curMatch st) := by
  generalize ho : Outcome.running st = o at hruns
  induction hruns generalizing st with
  | released => cases ho
  | @round s t o hround hrest ih =>
    injection ho with ho
    subst ho
    have hs := hspans.zero_lt
    have hbest := hspans.best.spansFrom hne
    by_cases hends : st.EndsAttempt
    · obtain ⟨hreports, -⟩ := hround.of_endsAttempt hmode hspans hends
      obtain ⟨more, hmore⟩ := hrest.reports_append
      refine ⟨st.ctrl.curMatch, more, ?_, le_rfl, iff_of_true rfl ?_⟩
      · rw [hmore, hreports, reportOf, if_neg hne, List.append_assoc]
        rfl
      · intro u hu m' haccepts
        rcases Relation.ReflTransGen.cases_head hu with rfl | ⟨u', hu', -⟩
        · exact absurd hends haccepts.not_endsAttempt
        · exact absurd hends hu'.2
    · by_cases hsome : ∃ m', st.Accepts E m'
      · obtain ⟨m', haccepts⟩ := hsome
        obtain ⟨st', rfl, hmatch, hreports, hpointer⟩ := hround.of_accepts hmode hglobal haccepts
        have hnow : (∀ m, st.Accepts E m → m.size ≤ st.ctrl.curMatch.size) ↔
            ¬ st.ctrl.curMatch.stop < m'.stop := by
          rw [← hbest.size_le_iff hs (haccepts.spanAt hspans)]
          exact ⟨fun h => h m' haccepts, fun h m hm => hm.unique haccepts ▸ h⟩
        rw [hbest.updateLongestMatch hs (haccepts.spanAt hspans)] at hmatch
        have hspans' := hspans.round hline hround
        rw [noLonger_iff hround ⟨hround, hends⟩ fun t ht => ht.1, hnow]
        by_cases hlonger : st.ctrl.curMatch.stop < m'.stop
        · rw [if_pos hlonger] at hmatch
          have hlt : st.ctrl.curMatch.size < m'.size :=
            not_le.mp fun hle => (hbest.size_le_iff hs (haccepts.spanAt hspans)).mp hle hlonger
          have hne' : st'.ctrl.curMatch ≠ {} := by
            rw [hmatch]
            rintro rfl
            exact Nat.not_lt_zero _ hlonger
          obtain ⟨M, more, hM, hle, -⟩ := ih hspans' hne' rfl
          rw [hmatch] at hle
          refine ⟨M, more, hM.trans (by rw [hreports]), hlt.le.trans hle, ?_⟩
          refine iff_of_false ?_ fun h => h.1 hlonger
          rintro rfl
          omega
        · rw [if_neg hlonger] at hmatch
          obtain ⟨M, more, hM, hle, hiff⟩ := ih hspans' (hmatch ▸ hne) rfl
          rw [hmatch] at hle hiff
          refine ⟨M, more, hM.trans (by rw [hreports]), hle, hiff.trans ?_⟩
          exact ⟨fun h => ⟨hlonger, h⟩, fun h => h.2⟩
      · have hno : ∀ m', ¬ st.Accepts E m' := fun m' haccepts => hsome ⟨m', haccepts⟩
        obtain ⟨st', rfl, hmatch, hreports, -⟩ := hround.of_not_accepts hspans hno hends
        obtain ⟨M, more, hM, hle, hiff⟩ := ih (hspans.round hline hround) (hmatch ▸ hne) rfl
        rw [hmatch] at hle hiff
        refine ⟨M, more, hM.trans (by rw [hreports]), hle, hiff.trans ?_⟩
        rw [noLonger_iff hround ⟨hround, hends⟩ fun t ht => ht.1]
        exact ⟨fun h => ⟨fun m' haccepts => absurd haccepts (hno m'), h⟩, fun h => h.2⟩

/-- **Behind an empty match** something is reported exactly if a thread is accepted that has read
a character. -/
theorem RunsTo.reports_behind_empty (hspans : SpansAt E st) (hempty : st.ctrl.curMatch = {})
    (hruns : RunsTo E (.running st) t) : ∃ more, t.ctrl.reports = st.ctrl.reports ++ more ∧
      (more = [] ↔ NoLonger E (Next E) {} st) := by
  generalize ho : Outcome.running st = o at hruns
  induction hruns generalizing st with
  | released => cases ho
  | @round s t o hround hrest ih =>
    injection ho with ho
    subst ho
    have hs := hspans.zero_lt
    by_cases hsome : ∃ m', st.Accepts E m'
    · obtain ⟨m', haccepts⟩ := hsome
      obtain ⟨st', rfl, hmatch, hreports, hpointer⟩ := hround.of_accepts hmode hglobal haccepts
      rw [hempty, updateLongestMatch_empty] at hmatch
      have hspans' := hspans.round hline hround
      rw [noLonger_iff hround hround fun t ht => ht]
      by_cases hm' : m' = {}
      · obtain ⟨more, hmore, hiff⟩ := ih hspans' (hmatch.trans hm') rfl
        refine ⟨more, hmore.trans (by rw [hreports]), hiff.trans ?_⟩
        exact ⟨fun h => ⟨fun m hm => (hm.unique haccepts).trans hm' ▸ le_rfl, h⟩, fun h => h.2⟩
      · obtain ⟨M, more, hM, -, -⟩ :=
          hrest.longest_of_attempt hline hmode hglobal hspans' (hmatch ▸ hm')
        refine ⟨M :: more, hM.trans (by rw [hreports]), iff_of_false (List.cons_ne_nil _ _) ?_⟩
        exact fun h => hm' (((haccepts.spanAt hspans).size_eq_zero_iff hs).mp (h.1 m' haccepts))
    · have hno : ∀ m', ¬ st.Accepts E m' := fun m' haccepts => hsome ⟨m', haccepts⟩
      have hround' : o.state.ctrl.reports = st.ctrl.reports ∧ o.state.ctrl.curMatch = {} := by
        by_cases hends : st.EndsAttempt
        · obtain ⟨hreports, hmatch⟩ := hround.of_endsAttempt hmode hspans hends
          rw [reportOf, if_pos hempty, List.append_nil] at hreports
          exact ⟨hreports, hmatch⟩
        · obtain ⟨st', rfl, hmatch, hreports, -⟩ := hround.of_not_accepts hspans hno hends
          exact ⟨hreports, hmatch.trans hempty⟩
      cases o with
      | released st' =>
        cases hrest
        refine ⟨[], (hround'.1.trans (List.append_nil _).symm), iff_of_true rfl ?_⟩
        intro u hu m' haccepts
        rcases Relation.ReflTransGen.cases_head hu with rfl | ⟨u', hu', -⟩
        · exact absurd haccepts (hno m')
        · cases RoundTo.unique hround hu'
      | running st' =>
        obtain ⟨more, hmore, hiff⟩ := ih (hspans.round hline hround) hround'.2 rfl
        refine ⟨more, hmore.trans (by rw [← hround'.1]; rfl), hiff.trans ?_⟩
        rw [noLonger_iff hround hround fun t ht => ht]
        exact ⟨fun h => ⟨fun m' haccepts => absurd haccepts (hno m'), h⟩, fun h => h.2⟩

end Rounds

/-- Only one thread of a line is accepted first. -/
theorem Unmatched.unique {st₁ st₂ : RunState} (h : Unmatched E o (.running st₁))
    (h' : Unmatched E o (.running st₂)) (haccepts : st₁.Accepts E m)
    (haccepts' : st₂.Accepts E m') : st₁ = st₂ := by
  generalize ho : Outcome.running st₁ = o₁ at h
  generalize ho' : Outcome.running st₂ = o₂ at h'
  induction h with
  | refl =>
    subst ho
    cases h' with
    | refl => injection ho'.symm
    | round hno => exact absurd haccepts (hno m)
  | round hno hround _ ih =>
    cases h' with
    | refl =>
      injection ho' with ho'
      exact absurd (ho' ▸ haccepts') (hno m')
    | round _ hround' hrest' =>
      obtain rfl := hround.unique hround'
      exact ih ho hrest'

/-- On a line without a match no thread is accepted. -/
theorem Unmatched.not_accepts (h : Unmatched E o (.released t)) (h' : Unmatched E o (.running st)) :
    ¬ st.Accepts E m := by
  intro haccepts
  generalize ho : Outcome.running st = o' at h'
  induction h' with
  | refl =>
    subst ho
    cases h with
    | round hno => exact hno m haccepts
  | round hno hround _ ih =>
    cases h with
    | round _ hround' hrest =>
      obtain rfl := hround.unique hround'
      exact ih hrest ho

/-- An outcome of a run that has matched and reported nothing. -/
structure Silent (E : Env) (o : Outcome) : Prop where
  blank : o.state.Blank
  reports : o.state.ctrl.reports = []
  spans : ∀ st, o = .running st → SpansAt E st

section Silent

variable (hline : E.line.Ascii) (hmode : E.flags.individualMatches = true)
include hline hmode

/-- Rounds without an accepted thread report nothing. -/
theorem Silent.unmatched (h : Silent E o) (hrounds : Unmatched E o o') : Silent E o' := by
  induction hrounds with
  | refl => exact h
  | @round st o o' hno hround _ ih =>
    have hspans := h.spans st rfl
    refine ih ⟨h.blank.round hno hround, ?_, ?_⟩
    · by_cases hends : st.EndsAttempt
      · have hmatch : st.ctrl.curMatch = {} := h.blank.curMatch
        rw [(hround.of_endsAttempt hmode hspans hends).1, reportOf, if_pos hmatch, List.append_nil]
        exact h.reports
      · obtain ⟨st', rfl, -, hreports, -⟩ := hround.of_not_accepts hspans hno hends
        exact hreports.trans h.reports
    · rintro st' rfl
      exact hspans.round hline hround

omit hline hmode in
/-- A line begins with nothing matched. -/
theorem Silent.start (hactive : ctrl.activeThreads = []) (hnext : ctrl.nextThreads = [])
    (hstart : startRun E fuel (freshLine E.line ctrl) = some o) : Silent E o := by
  have hfresh : OnBuffer E [] (freshLine E.line ctrl) := ⟨rfl, rfl, rfl⟩
  refine ⟨startRun_blank rfl hstart, (hfresh.startRun hstart).reports, ?_⟩
  rintro st rfl
  have hactive' : (freshLine E.line ctrl).activeThreads = [] := hactive
  exact .startRun rfl hactive' hnext rfl rfl rfl hstart

omit hline in
/-- Without `-g` the first span that is accepted is all that is printed. -/
theorem reports_of_first (hlocal : E.flags.mglobal = false) (h : Silent E (.running st))
    (haccepts : st.Accepts E m) (hruns : RunsTo E (.running st) t) :
    t.ctrl.reports = reportOf m := by
  have hspans := h.spans st rfl
  cases hruns with
  | round hround hrest =>
    obtain ⟨sim, -, rfl, hmatch⟩ := runStep_accepts haccepts
    obtain ⟨fuel, hround⟩ := hround
    rw [hmatch fuel] at hround
    obtain rfl := Option.some.inj hround
    have hmerged : updateLongestMatch st.ctrl.curMatch sim.curMatch = sim.curMatch := by
      rw [show st.ctrl.curMatch = {} from h.blank.curMatch, updateLongestMatch_empty]
    have hspan : SpanAt E.line st.inputPointer st.inputPointer sim.curMatch := by
      rw [← hmerged]
      exact hspans.best.updateLongestMatch hspans.zero_lt (haccepts.spanAt hspans)
    unfold matchCase at hrest
    dsimp only at hrest
    rw [if_pos hmode, if_neg (by rw [hlocal]; exact Bool.false_ne_true)] at hrest
    cases hrest
    change (newMatch E ((eraseStamp E sim st.ctrl).setMatch
      (updateLongestMatch st.ctrl.curMatch sim.curMatch))).reports = _
    rw [hmerged, newMatch_individual hmode hspan hspans.zero_lt]
    change st.ctrl.reports ++ reportOf sim.curMatch = _
    rw [show st.ctrl.reports = [] from h.reports, List.nil_append]

end Silent

/-- What is accepted behind the first thread is what is accepted from its round on. -/
theorem firstIsLongest_iff (hstart : startRun E fuel (freshLine E.line ctrl) = some o)
    (hfirst : Unmatched E o (.running st)) (haccepts : st.Accepts E m)
    (hround : RoundTo E st (.running st')) : FirstIsLongest E ctrl ↔
      NoLonger E (if m = {} then Next E else NextInAttempt E) m st' := by
  have hnext : (if m = {} then Next E else NextInAttempt E) st st' := by
    split
    · exact hround
    · exact ⟨hround, haccepts.not_endsAttempt⟩
  have hunique : ∀ u, (if m = {} then Next E else NextInAttempt E) st u → st' = u := by
    intro u hu
    split at hu
    · exact Next.unique hround hu
    · exact Next.unique hround hu.1
  constructor
  · intro h t ht m' hm'
    exact h st m t m' ⟨fuel, o, hstart, hfirst, haccepts⟩ (.head' hnext ht) hm'
  · rintro h st₁ m₁ t m' ⟨fuel₁, o₁, hstart₁, hfirst₁, haccepts₁⟩ hbehind hm'
    obtain rfl := startRun_unique hstart hstart₁
    obtain rfl := hfirst.unique hfirst₁ haccepts haccepts₁
    obtain rfl := haccepts.unique haccepts₁
    obtain ⟨u, hu, hrest⟩ := Relation.TransGen.head'_iff.mp hbehind
    exact h t (hunique u hu ▸ hrest) m' hm'

/-- **The first item of `-o -g`.** Without `-g` the line prints the first span of `-o -g`, or
nothing, exactly if no thread that is accepted behind the first one has read more. -/
theorem first_item_iff {value value' : Bool} {spans spans' : List Match} (hline : E.line.Ascii)
    (hmode : E.flags.individualMatches = true) (hglobal : E.flags.mglobal = true)
    (hactive : ctrl.activeThreads = []) (hnext : ctrl.nextThreads = [])
    (h : runLine E fuel ctrl = some (value, spans, d))
    (h' : runLine (E.withFlags E.flags.firstOnly) fuel' ctrl =
      some (value', spans', d')) :
    spans' = spans.take 1 ↔ FirstIsLongest E ctrl := by
  obtain ⟨o, t, hstart, hruns, -, rfl, -⟩ := runLine_cases h
  obtain ⟨o', t', hstart', hruns', -, rfl, -⟩ := runLine_cases h'
  have hmode' : (E.withFlags E.flags.firstOnly).flags.individualMatches = true := hmode
  have hline' : (E.withFlags E.flags.firstOnly).line.Ascii := hline
  rw [finishRun_individual hmode, finishRun_individual hmode']
  have hsilent' : Silent (E.withFlags E.flags.firstOnly) o' :=
    .start hactive hnext hstart'
  rw [startRun_withFlags] at hstart'
  obtain rfl := startRun_unique hstart hstart'
  have hsilent : Silent E o := .start hactive hnext hstart
  rcases hruns.first_match with hun | ⟨st, m, hun, haccepts, hrest⟩
  · have hend := hruns'.of_unmatched (hun.withFlags (f := E.flags.firstOnly) hsilent.blank rfl).1
    cases hend
    have hnone : t.ctrl.reports = [] := (hsilent.unmatched hline hmode hun).reports
    rw [hnone]
    refine iff_of_true rfl ?_
    rintro st m u m' ⟨fuel₁, o₁, hstart₁, hfirst, haccepts⟩ - -
    obtain rfl := startRun_unique hstart hstart₁
    exact absurd haccepts (hun.not_accepts hfirst)
  · have hst := hsilent.unmatched hline hmode hun
    have hun' := (hun.withFlags (f := E.flags.firstOnly) hsilent.blank rfl).1
    rw [reports_of_first (E := E.withFlags E.flags.firstOnly) hmode' rfl
      (hsilent'.unmatched hline' hmode' hun') haccepts (hruns'.of_unmatched hun')]
    cases hrest with
    | round hround hrest =>
      obtain ⟨st', rfl, hmatch, hreports, -⟩ := hround.of_accepts hmode hglobal haccepts
      have hspans := (hst.spans st rfl).round hline hround
      rw [(show st.ctrl.curMatch = {} from hst.blank.curMatch), updateLongestMatch_empty] at hmatch
      rw [(show st.ctrl.reports = [] from hst.reports)] at hreports
      rw [firstIsLongest_iff hstart hun haccepts hround]
      by_cases hm : m = {}
      · obtain ⟨more, hmore, hiff⟩ :=
          hrest.reports_behind_empty hline hmode hglobal hspans (hmatch.trans hm)
        rw [hmore, hreports, List.nil_append, reportOf, if_pos hm, if_pos hm, hm, ← hiff]
        cases more with
        | nil => exact iff_of_true rfl rfl
        | cons M more => exact iff_of_false (List.cons_ne_nil _ _).symm (List.cons_ne_nil _ _)
      · obtain ⟨M, more, hM, -, hiff⟩ :=
          hrest.longest_of_attempt hline hmode hglobal hspans (hmatch ▸ hm)
        rw [hmatch] at hiff
        rw [hM, hreports, reportOf, if_neg hm, if_neg hm, ← hiff, List.nil_append, List.take_one]
        exact ⟨fun h => (List.cons.inj h).1.symm, fun h => by rw [h]; rfl⟩

/-- Without `-g` the shorter alternative is printed, which is read first. -/
theorem first_item_iff_alternatives : ∃ E value value' spans spans' d d',
    compilePattern 40 (bytes "a|ab") { mglobal := true, showMatchLine := false } (fun _ => 0)
        threeLetters = some E ∧
      runLine E 40 (newNfaSim E) = some (value, spans, d) ∧
        runLine (E.withFlags E.flags.firstOnly) 40 (newNfaSim E) = some (value', spans', d') ∧
          (spans' = spans.take 1 ↔ FirstIsLongest E (newNfaSim E)) ∧
            ¬ FirstIsLongest E (newNfaSim E) := by
  have h : ((compilePattern 40 (bytes "a|ab") { mglobal := true, showMatchLine := false }
      (fun _ => 0) threeLetters).bind fun E => (runLine E 40 (newNfaSim E)).bind fun r =>
        (runLine (E.withFlags E.flags.firstOnly) 40 (newNfaSim E)).map fun r' =>
          ((E.flags.individualMatches, E.flags.mglobal, E.line.text), r.2.1, r'.2.1)) =
      some ((true, true, bytes "abc"), [⟨2, 3⟩], [⟨2, 2⟩]) := by
    decide +kernel
  obtain ⟨E, hcompile, h⟩ := Option.bind_eq_some_iff.mp h
  obtain ⟨⟨value, spans, d⟩, hall, h⟩ := Option.bind_eq_some_iff.mp h
  obtain ⟨⟨value', spans', d'⟩, hone, h⟩ := Option.map_eq_some_iff.mp h
  obtain ⟨hflags, hspans⟩ := Prod.mk.inj h
  obtain ⟨hmode, hflags⟩ := Prod.mk.inj hflags
  obtain ⟨hglobal, htext⟩ := Prod.mk.inj hflags
  have hline : E.line.Ascii := by
    intro c hc
    rw [htext] at hc
    exact (show ∀ c ∈ bytes "abc", 0 < c ∧ c < 128 by decide) c hc
  have hiff := first_item_iff hline hmode hglobal rfl rfl hall hone
  refine ⟨E, value, value', spans, spans', d, d', hcompile, hall, hone, hiff, fun hlongest => ?_⟩
  have hfirst := hiff.mpr hlongest
  obtain ⟨rfl, rfl⟩ := Prod.mk.inj hspans
  exact absurd hfirst (by decide)

end Recognizer
