import Recognizer.Output.Ordered
import Recognizer.Prescan.BoyerMoore
import Recognizer.Run.LeftmostLongest

/-!
# The search with a prescan

With a keyword search an attempt begins at the records of the search only, one after the other,
and those inside a match are passed over. So the matches that are reported are the leftmost
longest ones among those that begin at a record.
-/

namespace Recognizer

/-- The same program with a keyword search. -/
def Env.withSearch (E : Env) (kw : KwSearch) : Env := { E with kw := some kw }

/-- The records of a search of the line. -/
def Env.records (E : Env) (kw : KwSearch) : List MatchRecord :=
  (kw.search (E.line.text ++ [eolSymbol])).map fun r =>
    ⟨E.line.buffer + r.beg, E.line.buffer + r.stop⟩

/-- The records begin on the line or at its end. -/
theorem beg_of_mem_records {E : Env} {kw : KwSearch} {r : MatchRecord} (h : r ∈ E.records kw) :
    E.line.buffer ≤ r.beg ∧ r.beg ≤ E.line.eolPos + 1 := by
  obtain ⟨r', hr', rfl⟩ := List.mem_map.mp h
  have hle := kw.search_beg_le _ r' hr'
  rw [List.length_append, List.length_singleton] at hle
  refine ⟨Nat.le_add_right _ _, ?_⟩
  unfold Line.eolPos
  dsimp only
  omega

/-- The keyword search has a record that begins at the position. -/
def Env.Recorded (E : Env) (kw : KwSearch) (i : Nat) : Prop := ∃ r ∈ E.records kw, r.beg = i

/-- The cursor goes on from the record `i` to the first later record that is not passed over. -/
inductive GoesOn (passed : MatchRecord → Prop) (i : Nat) (c : NFASimCtrl) :
    Option MatchRecord × NFASimCtrl → Prop where
  | record {j : Nat} {mr : MatchRecord} (hlt : i < j) (hmr : c.kwRecords[j]? = some mr)
      (hstop : ¬ passed mr)
      (hpassed : ∀ k r, i < k → k < j → c.kwRecords[k]? = some r → passed r) :
    GoesOn passed i c (some mr, { c with kwCursor := some j })
  | ends {cursor : Option Nat} (hpassed : ∀ k r, i < k → c.kwRecords[k]? = some r → passed r) :
    GoesOn passed i c (none, { c with kwCursor := cursor })

variable {E : Env} {kw : KwSearch} {found : Bool} {reports : List Match} {s p q i fuel : Nat}
  {st st' : RunState} {sim : NFASim} {c d ctrl : NFASimCtrl}

theorem kwNextMatch_goesOn (hcursor : c.kwCursor = some i) :
    GoesOn (fun _ => False) i c c.kwNextMatch := by
  unfold NFASimCtrl.kwNextMatch
  rw [hcursor]
  dsimp only
  split
  · next hnone =>
    refine .ends fun k r hlt hr => ?_
    have := List.getElem?_eq_none_iff.mp hnone
    obtain ⟨hk, -⟩ := List.getElem?_eq_some_iff.mp hr
    omega
  · next mr hmr => exact .record (Nat.lt_succ_self i) hmr id fun k r hlt hlt' => by omega

/-- The cursor begins at the first record. -/
theorem kwNextMatch_first {mr : MatchRecord} (hcursor : c.kwCursor = none)
    (hmr : c.kwRecords[0]? = some mr) :
    c.kwNextMatch = (some mr, { c with kwCursor := some 0 }) := by
  unfold NFASimCtrl.kwNextMatch
  rw [hcursor]
  dsimp only
  rw [hmr]

/-- The records that begin inside a match are passed over. -/
theorem kwSkipPast_goesOn {stop k : Nat} (hcursor : c.kwCursor = some i)
    (hfuel : c.kwRecords.length ≤ i + k) :
    GoesOn (fun r => r.beg ≤ stop) i c (c.kwSkipPast stop k) := by
  induction k generalizing i c with
  | zero =>
    refine @GoesOn.ends _ i c c.kwCursor fun k r hlt hr => ?_
    obtain ⟨hk, -⟩ := List.getElem?_eq_some_iff.mp hr
    omega
  | succ k ih =>
    unfold NFASimCtrl.kwSkipPast
    have hnext := kwNextMatch_goesOn hcursor
    split
    · next mr d hmatch =>
      rw [hmatch] at hnext
      cases hnext with
      | @record j _ hlt hmr _ hpassed =>
        have hfirst : j = i + 1 := by
          by_contra hne
          obtain ⟨hj, -⟩ := List.getElem?_eq_some_iff.mp hmr
          exact hpassed (i + 1) _ (by omega) (by omega)
            (List.getElem?_eq_getElem (show i + 1 < c.kwRecords.length by omega))
        subst hfirst
        split
        · next hinside =>
          have hrest := ih (i := i + 1) (c := { c with kwCursor := some (i + 1) }) rfl
            (show c.kwRecords.length ≤ i + 1 + k by omega)
          have hone : ∀ k r, i < k → ¬ i + 1 < k → c.kwRecords[k]? = some r → r.beg ≤ stop := by
            intro k r hlt hge hr
            obtain rfl : k = i + 1 := by omega
            rw [hmr] at hr
            exact Option.some.inj hr ▸ hinside
          generalize hend : NFASimCtrl.kwSkipPast _ _ _ = e at hrest
          cases hrest with
          | record hlt' hmr' hstop hpassed' =>
            exact .record (by omega) hmr' hstop fun k r hk hk' hr => by
              by_cases hbehind : i + 1 < k
              · exact hpassed' k r hbehind hk' hr
              · exact hone k r hk hbehind hr
          | ends hpassed' =>
            exact .ends fun k r hk hr => by
              by_cases hbehind : i + 1 < k
              · exact hpassed' k r hbehind hr
              · exact hone k r hk hbehind hr
        · next hbehind => exact .record hlt hmr hbehind fun k r hk hk' => by omega
    · next d hmatch =>
      rw [hmatch] at hnext
      cases hnext with
      | ends hpassed => exact .ends fun k r hk hr => (hpassed k r hk hr).elim

/-- Without a match the cursor goes on to the next record. -/
theorem updateInputPointer_next (E : Env) (kw : KwSearch) {run : Bool} (ip : Nat)
    (hnone : run = false ∨ c.curMatch.stop = 0) :
    updateInputPointer (E.withSearch kw) run ip c =
      (c.kwNextMatch.1.elim nulString MatchRecord.beg, c.kwNextMatch.2) := by
  unfold updateInputPointer
  rw [if_neg (show ¬ (E.withSearch kw).kw.isNone = true from Bool.false_ne_true), if_pos hnone]
  obtain ⟨mr, d⟩ := c.kwNextMatch
  cases mr <;> rfl

/-- Behind a match the cursor goes on past the records inside it. -/
theorem updateInputPointer_skips (E : Env) (kw : KwSearch) {run : Bool} (ip : Nat)
    (hsome : ¬ (run = false ∨ c.curMatch.stop = 0)) :
    updateInputPointer (E.withSearch kw) run ip c =
      ((c.kwSkipPast c.curMatch.stop (c.kwRecords.length + 1)).1.elim nulString MatchRecord.beg,
        (c.kwSkipPast c.curMatch.stop (c.kwRecords.length + 1)).2) := by
  unfold updateInputPointer
  rw [if_neg (show ¬ (E.withSearch kw).kw.isNone = true from Bool.false_ne_true), if_neg hsome]
  obtain ⟨mr, d⟩ := c.kwSkipPast c.curMatch.stop (c.kwRecords.length + 1)
  cases mr <;> rfl

@[simp] theorem curMatch_newMatch (E : Env) (c : NFASimCtrl) :
    (newMatch E c).curMatch = c.curMatch := by
  unfold newMatch
  split <;> rfl

@[simp] theorem kwRecords_newMatch (E : Env) (c : NFASimCtrl) :
    (newMatch E c).kwRecords = c.kwRecords := by
  unfold newMatch
  split <;> rfl

@[simp] theorem kwCursor_newMatch (E : Env) (c : NFASimCtrl) :
    (newMatch E c).kwCursor = c.kwCursor := by
  unfold newMatch
  split <;> rfl

/-- The cursor of the keyword matches and the records it stands on. -/
structure SameRecords (c d : NFASimCtrl) : Prop where
  records : d.kwRecords = c.kwRecords
  cursor : d.kwCursor = c.kwCursor

namespace SameRecords

@[refl] theorem refl (c : NFASimCtrl) : SameRecords c c := ⟨rfl, rfl⟩

theorem trans {e : NFASimCtrl} (h : SameRecords c d) (h' : SameRecords d e) : SameRecords c e :=
  ⟨h'.records.trans h.records, h'.cursor.trans h.cursor⟩

end SameRecords

/-- Within an attempt a round does not look at the keyword search. -/
theorem runStep_withSearch (hbusy : st.thread ≠ none ∨ st.ctrl.nextThreads ≠ []) :
    runStep (E.withSearch kw) fuel st = runStep E fuel st := by
  unfold runStep
  split
  · unfold innerRound
    rw [show E.withSearch kw = E.withOptions E.flags (some kw) from rfl,
      threadStep_withOptions rfl]
    rfl
  · next hidle =>
    unfold outerRound
    rw [if_pos (hbusy.resolve_left fun hne => hne hidle),
      if_pos (hbusy.resolve_left fun hne => hne hidle)]
    rfl

/-- Within an attempt the records stay. -/
theorem runStep_records (hbusy : st.thread ≠ none ∨ st.ctrl.nextThreads ≠ [])
    (hstep : runStep E fuel st = some (.running st')) : SameRecords st.ctrl st'.ctrl := by
  generalize ho : Outcome.running st' = o at hstep
  cases runStep_cases hstep with
  | matched _ hthread _ =>
    have hframe := threadStep_frame hthread
    unfold matchCase at ho
    dsimp only at ho
    split at ho
    · split at ho
      · injection ho with ho
        rw [ho]
        exact ⟨hframe.kwRecords, hframe.kwCursor⟩
      · cases ho
    · split at ho
      · injection ho with ho
        rw [ho]
        exact ⟨hframe.kwRecords, hframe.kwCursor⟩
      · cases ho
  | failed _ hthread _ | kept _ hthread _ _ =>
    have hframe := threadStep_frame hthread
    injection ho with ho
    rw [ho]
    exact ⟨hframe.kwRecords, hframe.kwCursor⟩
  | swapped =>
    obtain ⟨rfl, -⟩ := testInput_running ho.symm
    exact ⟨rfl, rfl⟩
  | restarted hheld hnext =>
    rcases hbusy with hbusy | hbusy
    · exact absurd hheld hbusy
    · exact absurd hnext hbusy

section Search

variable (hset : CoreSetting E)
include hset

/-- The inner loop comes to its end. -/
theorem Attempt.drain_withSearch (kw : KwSearch) (hatt : Attempt E found reports s p st) : ∃ st',
    LoopsTo (E.withSearch kw) st (.running st') ∧ Attempt E found reports s p st' ∧
      st'.thread = none ∧ SameRecords st.ctrl st'.ctrl := by
  induction hw : weight E st.queue using Nat.strong_induction_on generalizing st with
  | _ w ih =>
    cases hheld : st.thread with
    | none => exact ⟨st, .refl st, hatt, hheld, .refl _⟩
    | some sim =>
      obtain ⟨st₁, hrun, hatt₁, hlt⟩ := hatt.step hset hheld
      have hbusy : st.thread ≠ none ∨ st.ctrl.nextThreads ≠ [] :=
        .inl fun hnone => by rw [hheld] at hnone; cases hnone
      obtain ⟨st', hloops, hatt', hidle, hsame⟩ := ih _ (hw ▸ hlt) hatt₁ rfl
      refine ⟨st', LoopsTo.trans (LoopsTo.step fun fuel => ?_) hloops, hatt', hidle,
        (runStep_records hbusy (hrun 0)).trans hsame⟩
      rw [runStep_withSearch hbusy, hrun]

/-- An attempt comes to its end. -/
theorem Attempt.finish_withSearch (kw : KwSearch) (hatt : Attempt E found reports s p st) : ∃ p' st',
    LoopsTo (E.withSearch kw) st (.running st') ∧ Attempt E found reports s p' st' ∧
      st'.thread = none ∧ st'.ctrl.nextThreads = [] ∧ SameRecords st.ctrl st'.ctrl := by
  induction hk : E.line.eolPos - p using Nat.strong_induction_on generalizing p st with
  | _ k ih =>
    obtain ⟨st₁, hloops₁, hatt₁, hidle₁, hsame₁⟩ := hatt.drain_withSearch hset kw
    by_cases hnext : st₁.ctrl.nextThreads = []
    · exact ⟨p, st₁, hloops₁, hatt₁, hidle₁, hnext, hsame₁⟩
    · obtain ⟨st₂, hrun, hatt₂⟩ := hatt₁.advance hset hidle₁ hnext
      have hinside := hatt₂.inside
      obtain ⟨p', st', hloops, hatt', hidle, hend, hsame⟩ := ih _ (by omega) hatt₂ rfl
      refine ⟨p', st', hloops₁.trans (LoopsTo.trans (LoopsTo.step fun fuel => ?_) hloops), hatt',
        hidle, hend, hsame₁.trans ((runStep_records (.inr hnext) (hrun 0)).trans hsame)⟩
      rw [runStep_withSearch (.inr hnext), hrun]

/-- The next attempt begins at the record the cursor goes on to, and the run ends behind the
last one. -/
theorem CoreSetting.goesOn (hunused : Unused st.ctrl) (hidle : st.thread = none)
    (hnew : Unused (newMatch E st.ctrl)) {mr : Option MatchRecord} {passed : MatchRecord → Prop}
    (hpointer : updateInputPointer (E.withSearch kw) st.currentRun st.inputPointer
      (newMatch E st.ctrl) = (mr.elim nulString MatchRecord.beg, c))
    (hgoes : GoesOn passed i (newMatch E st.ctrl) (mr, c))
    (hge : ∀ r ∈ st.ctrl.kwRecords, E.line.buffer ≤ r.beg) : ∃ st',
    (∀ fuel, runStep (E.withSearch kw) (fuel + 1) st = some (testInput E st')) ∧
      st'.inputPointer = mr.elim nulString MatchRecord.beg ∧
      st'.matchFound = st.matchFound ∧ st'.ctrl.reports = (newMatch E st.ctrl).reports ∧
        SameRecords c st'.ctrl ∧ ∀ r, mr = some r → r.beg ≤ E.line.eolPos →
          Attempt E st.matchFound (newMatch E st.ctrl).reports r.beg r.beg st' := by
  have hsame : Unused c ∧ c.reports = (newMatch E st.ctrl).reports := by
    cases hgoes with
    | record | ends => exact ⟨⟨hnew.active, hnew.next, hnew.stamps, hnew.pool⟩, rfl⟩
  obtain ⟨d, as, ns, hload, hqueues⟩ :=
    hset.loads (mr.elim nulString MatchRecord.beg) (beginAttempt c (mr.elim nulString MatchRecord.beg))
  have hline : E.flags.lineOrInvert = false := by
    rw [CtrlFlags.lineOrInvert, hset.showMatchLine, hset.invertMatch]
    rfl
  refine ⟨(st.moveTo (mr.elim nulString MatchRecord.beg)).hold d.shiftActive, fun fuel => ?_, rfl,
    rfl, hqueues.frame.reports.trans hsame.2, ⟨hqueues.frame.kwRecords, hqueues.frame.kwCursor⟩,
    fun r hr hle => ?_⟩
  · have hpool : (beginAttempt c (mr.elim nulString MatchRecord.beg)).threadPool ≠ [] :=
      hsame.1.pool
    have hmatch : newMatch (E.withSearch kw) st.ctrl = newMatch E st.ctrl := rfl
    have hflags : (E.withSearch kw).flags.lineOrInvert = false := hline
    rw [runStep, hidle]
    dsimp only
    rw [outerRound, if_neg (fun hne => hne hunused.next), restart]
    dsimp only
    rw [hflags, if_neg Bool.false_ne_true, hmatch, hpointer]
    dsimp only
    rw [resetThread, if_neg hpool,
      show E.withSearch kw = E.withOptions E.flags (some kw) from rfl, loadStartStates_withOptions,
      hload]
    rfl
  · subst hr
    have hmem : E.line.buffer ≤ r.beg := by
      have hrecords : (newMatch E st.ctrl).kwRecords = st.ctrl.kwRecords := by
        unfold newMatch
        split <;> rfl
      cases hgoes with
      | record _ hmr => exact hge r (hrecords ▸ List.mem_of_getElem? hmr)
    have hbegin : Unused (beginAttempt c r.beg) :=
      ⟨hsame.1.active, hsame.1.next, hsame.1.stamps, hsame.1.pool⟩
    exact hsame.2 ▸ hbegin.attempt (st.moveTo r.beg) rfl rfl hmem hle hqueues rfl rfl

/-- A match that begins at a record. -/
def RecordSpan (E : Env) (records : List MatchRecord) (a b : Nat) : Prop :=
  E.Span a b ∧ ∃ r ∈ records, r.beg = a

/-- The later records at which something, if only the empty word, is accepted. -/
def AcceptedFrom (E : Env) (records : List MatchRecord) (i : Nat) : Prop :=
  ∃ (k : Nat) (r : MatchRecord) (q : Nat),
    i ≤ k ∧ records[k]? = some r ∧ AcceptedAt E r.beg q

/-- The search from a state on: it takes the matches that begin at a record from `t` on, and
something is found exactly if it was before or something is accepted at a record from `i` on. -/
def Searches (E : Env) (kw : KwSearch) (records : List MatchRecord) (t i : Nat) (found : Bool)
    (reports : List Match) (st : RunState) : Prop :=
  ∃ st' spans, LoopsTo (E.withSearch kw) st (.released st') ∧
    LeftmostLongest (RecordSpan E records) t spans ∧
      st'.ctrl.reports = reports ++ spans.map toMatch ∧
        (st'.matchFound = true ↔ found = true ∨ AcceptedFrom E records i)

section Records

variable {records : List MatchRecord} {mr : MatchRecord} {t : Nat}
  (hsorted : records.Pairwise fun r r' => r.beg ≤ r'.beg)
include hsorted

omit hset in
theorem beg_le_beg {j k : Nat} {r r' : MatchRecord} (hjk : j ≤ k) (hr : records[j]? = some r)
    (hr' : records[k]? = some r') : r.beg ≤ r'.beg := by
  obtain ⟨hj, rfl⟩ := List.getElem?_eq_some_iff.mp hr
  obtain ⟨hk, rfl⟩ := List.getElem?_eq_some_iff.mp hr'
  rcases Nat.lt_or_eq_of_le hjk with hlt | rfl
  · exact List.pairwise_iff_getElem.mp hsorted j k hj hk hlt
  · exact le_rfl

omit hset in
/-- A match that begins at a record from `t` on begins at one from the record `j` on, if the
records between are passed over and none begins at `s`. -/
theorem RecordSpan.behind {j a b : Nat} (hspan : RecordSpan E records a b)
    (hmr : records[i]? = some mr) (hst : mr.beg ≤ t) (hclear : t ≤ mr.beg → ∀ b, ¬ E.Span t b)
    (hpassed : ∀ k r, i < k → k < j → records[k]? = some r → r.beg < t) (hta : t ≤ a) :
    ∃ (k : Nat) (r : MatchRecord), j ≤ k ∧ records[k]? = some r ∧ r.beg = a := by
  obtain ⟨hspan, r, hr, rfl⟩ := hspan
  obtain ⟨k, hk⟩ := List.mem_iff_getElem?.mp hr
  refine ⟨k, r, ?_, hk, rfl⟩
  by_contra hlt
  rcases Nat.lt_or_ge i k with hik | hki
  · have := hpassed k r hik (by omega) hk
    omega
  · have hle := beg_le_beg hsorted hki hk hmr
    obtain rfl : r.beg = t := by omega
    exact hclear hle b hspan

/-- Behind an attempt at the record `i` the search goes on from the next record that is not
passed over, to which the induction hypothesis applies. -/
theorem searches_of_goesOn (hmr : records[i]? = some mr) (hst : mr.beg ≤ t)
    (hge : ∀ r ∈ records, E.line.buffer ≤ r.beg ∧ r.beg ≤ E.line.eolPos + 1)
    (hrecords : (newMatch E st.ctrl).kwRecords = records)
    (hunused : Unused st.ctrl) (hidle : st.thread = none) (hnew : Unused (newMatch E st.ctrl))
    (hclear : t ≤ mr.beg → ∀ b, ¬ E.Span t b) (hnone : t ≤ mr.beg ∨ st.matchFound = true)
    {passed : MatchRecord → Prop} {next : Option MatchRecord}
    (hpasses : ∀ k r, i < k → records[k]? = some r → (passed r ↔ r.beg < t))
    (hpointer : updateInputPointer (E.withSearch kw) st.currentRun st.inputPointer
      (newMatch E st.ctrl) = (next.elim nulString MatchRecord.beg, c))
    (hgoes : GoesOn passed i (newMatch E st.ctrl) (next, c))
    (ih : ∀ {j : Nat} {r : MatchRecord} {st' : RunState}, i < j → records[j]? = some r →
      Attempt E st.matchFound (newMatch E st.ctrl).reports r.beg r.beg st' →
      st'.ctrl.kwRecords = records → st'.ctrl.kwCursor = some j →
        Searches E kw records r.beg j st.matchFound (newMatch E st.ctrl).reports st') :
    Searches E kw records t (i + 1) st.matchFound (newMatch E st.ctrl).reports st := by
  obtain ⟨st', hrun, hinput, hfound, hreports, hsame, hbegins⟩ :=
    hset.goesOn hunused hidle hnew hpointer hgoes fun r hr => by
      rw [← kwRecords_newMatch E, hrecords] at hr
      exact (hge r hr).1
  -- a record at which something is accepted is not passed over before the first match
  have hkept : ∀ {k : Nat} {r : MatchRecord}, i < k → records[k]? = some r →
      ¬ st.matchFound = true → ¬ r.beg < t := by
    intro k r hik hr hno hlt
    have := beg_le_beg hsorted hik.le hmr hr
    have := hnone.resolve_right hno
    omega
  cases hgoes with
  | ends hpassed =>
    rw [hrecords] at hpassed
    have hreleased : testInput E st' = .released st' := by
      rw [testInput, if_neg]
      rw [hinput]
      exact fun hne => hne E.line.deref_nulString
    refine ⟨st', [], .step (hreleased ▸ hrun), .done fun a b hta hspan => ?_, ?_, ?_⟩
    · obtain ⟨k, r, hle, hk, -⟩ := hspan.behind (j := records.length) hsorted hmr hst hclear
        (fun k r hik _ hr => (hpasses k r hik hr).mp (hpassed k r hik hr)) hta
      have := (List.getElem?_eq_some_iff.mp hk).1
      omega
    · rw [hreports, List.map_nil, List.append_nil]
    · rw [hfound]
      refine ⟨.inl, fun h => by_contra fun hno => ?_⟩
      obtain ⟨k, r, q, hik, hr, -⟩ := h.resolve_left hno
      exact hkept hik hr hno ((hpasses k r hik hr).mp (hpassed k r hik hr))
  | @record j r hij hr hstop hpassed =>
    rw [hrecords] at hr hpassed
    have hle : t ≤ r.beg := not_lt.mp fun hlt => hstop ((hpasses j r hij hr).mpr hlt)
    have hbehind : ∀ {a b : Nat}, RecordSpan E records a b → t ≤ a → r.beg ≤ a := by
      intro a b hspan hta
      obtain ⟨k, r', hjk, hr', rfl⟩ := hspan.behind hsorted hmr hst hclear
        (fun k r hik hkj hr => (hpasses k r hik hr).mp (hpassed k r hik hkj hr)) hta
      exact beg_le_beg hsorted hjk hr hr'
    have hfirst : AcceptedFrom E records (i + 1) → ¬ st.matchFound = true →
        AcceptedFrom E records j := by
      rintro ⟨k, r', q, hik, hr', haccepted⟩ hno
      refine ⟨k, r', q, not_lt.mp fun hkj => ?_, hr', haccepted⟩
      exact hkept hik hr' hno ((hpasses k r' hik hr').mp (hpassed k r' hik hkj hr'))
    have hlater : AcceptedFrom E records j → AcceptedFrom E records (i + 1) := by
      rintro ⟨k, r', q, hjk, h⟩
      exact ⟨k, r', q, hij.trans_le hjk, h⟩
    by_cases hinside : r.beg ≤ E.line.eolPos
    · have hrunning : testInput E st' = .running st' := by
        rw [testInput, if_pos]
        rw [hinput]
        exact hset.line.deref_ne_zero (hge r (List.mem_of_getElem? hr)).1 hinside
      obtain ⟨st'', spans, hloops, hspans, hreports', hfound'⟩ :=
        ih hij hr (hbegins r rfl hinside) (hsame.records.trans hrecords) hsame.cursor
      refine ⟨st'', spans, (LoopsTo.step (hrunning ▸ hrun)).trans hloops,
        hspans.skipTo hle fun a b hta hlt hspan => ?_, hreports', hfound'.trans ⟨?_, fun h => ?_⟩⟩
      · have := hbehind hspan hta
        omega
      · exact fun h => h.imp_right hlater
      · exact or_iff_not_imp_left.mpr fun hno => hfirst (h.resolve_left hno) hno
    · have hreleased : testInput E st' = .released st' := by
        rw [testInput, if_neg]
        rw [hinput, Option.elim_some,
          hset.line.deref_ne_zero_iff (.inr (hge r (List.mem_of_getElem? hr)))]
        exact fun h => hinside h.2
      refine ⟨st', [], .step (hreleased ▸ hrun), .done fun a b hta hspan => ?_, ?_, ?_⟩
      · have := hbehind hspan hta
        obtain ⟨-, hab, hb, -⟩ := hspan.1
        omega
      · rw [hreports, List.map_nil, List.append_nil]
      · rw [hfound]
        refine ⟨.inl, fun h => by_contra fun hno => ?_⟩
        obtain ⟨k, r', q, hjk, hr', n, hn, -⟩ := hfirst (h.resolve_left hno) hno
        have := beg_le_beg hsorted hjk hr hr'
        have := hn.le
        have := hn.inside
        omega

/-- **The search from record to record.** -/
theorem Attempt.searches (hatt : Attempt E found reports mr.beg mr.beg st)
    (hrecords : st.ctrl.kwRecords = records) (hcursor : st.ctrl.kwCursor = some i)
    (hmr : records[i]? = some mr)
    (hge : ∀ r ∈ records, E.line.buffer ≤ r.beg ∧ r.beg ≤ E.line.eolPos + 1) :
    Searches E kw records mr.beg i found reports st := by
  induction hk : records.length - i using Nat.strong_induction_on
    generalizing i st found reports mr with
  | _ k ih =>
    obtain ⟨p, st₁, hloops, hatt₁, hidle, hnext, hsame⟩ := hatt.finish_withSearch hset kw
    have hunused := hatt₁.unused hidle hnext
    have hi : i < records.length := (List.getElem?_eq_some_iff.mp hmr).1
    have hrecords₁ : (newMatch E st₁.ctrl).kwRecords = records :=
      (kwRecords_newMatch E st₁.ctrl).trans (hsame.records.trans hrecords)
    have hcursor₁ : (newMatch E st₁.ctrl).kwCursor = some i :=
      (kwCursor_newMatch E st₁.ctrl).trans (hsame.cursor.trans hcursor)
    have hfound : st₁.matchFound = true ↔ found = true ∨ ∃ q, AcceptedAt E mr.beg q := by
      rw [hatt₁.found, Bool.or_eq_true]
      refine or_congr_right ⟨hatt₁.run, ?_⟩
      rintro ⟨q, haccepted⟩
      exact (hatt₁.merged_all hset hidle hnext haccepted).1
    have hrest : ∀ {j : Nat} {r : MatchRecord} {st' : RunState}, i < j → records[j]? = some r →
        Attempt E st₁.matchFound (newMatch E st₁.ctrl).reports r.beg r.beg st' →
        st'.ctrl.kwRecords = records → st'.ctrl.kwCursor = some j →
          Searches E kw records r.beg j st₁.matchFound (newMatch E st₁.ctrl).reports st' := by
      intro j r st' hij hr hatt' hrecords' hcursor'
      exact ih _ (by omega) hatt' hrecords' hcursor' hr rfl
    rcases hatt₁.best with hmatch | ⟨q, hlt, haccepted, hmatch⟩
    · -- without a match the search goes on at the next record
      obtain ⟨hnone, hreports, hnew, -⟩ := hatt₁.skips hset hidle hnext hmatch
      have hpointer := updateInputPointer_next E kw st₁.inputPointer
        (show st₁.currentRun = false ∨ (newMatch E st₁.ctrl).curMatch.stop = 0 from
          .inr (by rw [curMatch_newMatch, hmatch]))
      obtain ⟨st', spans, hloops', hspans, hreports', hfound'⟩ :=
        searches_of_goesOn hset hsorted hmr le_rfl hge hrecords₁ hunused hidle hnew
          (fun _ => hnone) (.inl le_rfl)
          (fun k r hik hr => iff_of_false id (not_lt.mpr (beg_le_beg hsorted hik.le hmr hr)))
          hpointer (kwNextMatch_goesOn hcursor₁) hrest
      refine ⟨st', spans, hloops.trans hloops', hspans, hreports ▸ hreports', ?_⟩
      rw [hfound', hfound, or_assoc]
      refine or_congr_right ⟨?_, ?_⟩
      · rintro (⟨q, haccepted⟩ | ⟨k, r, q, hik, h⟩)
        · exact ⟨i, mr, q, le_rfl, hmr, haccepted⟩
        · exact ⟨k, r, q, Nat.le_of_succ_le hik, h⟩
      · rintro ⟨k, r, q, hik, hr, haccepted⟩
        rcases Nat.lt_or_eq_of_le hik with hlt | rfl
        · exact .inr ⟨k, r, q, hlt, hr, haccepted⟩
        · rw [hmr] at hr
          obtain rfl := Option.some.inj hr
          exact .inl ⟨q, haccepted⟩
    · -- behind a match it goes on at the next record behind the match
      obtain ⟨hspan, hlong, hreports, hnew, -⟩ :=
        hatt₁.takes hset hidle hnext hlt haccepted hmatch
      have hrun := (hatt₁.merged_all hset hidle hnext haccepted).1
      have hzero := hatt₁.zero_lt_start
      have hsome : st₁.matchFound = true := hfound.mpr (.inr ⟨q, haccepted⟩)
      have hpointer := updateInputPointer_skips E kw st₁.inputPointer
        (show ¬ (st₁.currentRun = false ∨ (newMatch E st₁.ctrl).curMatch.stop = 0) by
          rw [curMatch_newMatch, hmatch, hrun, not_or]
          exact ⟨Bool.noConfusion, by dsimp only; omega⟩)
      rw [curMatch_newMatch, hmatch] at hpointer
      have hskips : GoesOn (fun r => r.beg ≤ q - 1) i (newMatch E st₁.ctrl)
          ((newMatch E st₁.ctrl).kwSkipPast (q - 1)
            ((newMatch E st₁.ctrl).kwRecords.length + 1)) :=
        kwSkipPast_goesOn hcursor₁ (by omega)
      obtain ⟨st', spans, hloops', hspans, hreports', hfound'⟩ :=
        searches_of_goesOn hset hsorted hmr hlt.le hge hrecords₁ hunused hidle hnew
          (fun hle => absurd hlt (not_lt.mpr hle)) (.inr hsome) (fun k r _ _ => by omega) hpointer
          hskips hrest
      have hbehind : LeftmostLongest (RecordSpan E records) (q - 1 + 1) spans := by
        rwa [Nat.sub_add_cancel (by omega)]
      have hrecorded : ∃ r ∈ records, r.beg = mr.beg := ⟨mr, List.mem_of_getElem? hmr, rfl⟩
      refine ⟨st', (mr.beg, q - 1) :: spans, hloops.trans hloops',
        .found le_rfl ⟨hspan, hrecorded⟩ (fun i' j' hi' _ => hi') (fun j' h => hlong j' h.1)
          hbehind, ?_, ?_⟩
      · rw [hreports', hreports, List.append_assoc, List.map_cons, List.singleton_append]
      · exact iff_of_true (hfound'.mpr (.inl hsome)) (.inr ⟨i, mr, q, le_rfl, hmr, haccepted⟩)

end Records

/-- Some start state can be loaded at the position. -/
def Env.Loads (E : Env) (i : Nat) : Prop :=
  ∃ n ∈ (E.heap E.startState).reachable, E.passesLookahead (E.heap n) i = true

instance (E : Env) (i : Nat) : Decidable (E.Loads i) :=
  inferInstanceAs (Decidable (∃ n ∈ (E.heap E.startState).reachable, _ = true))

omit hset in
/-- A start state that does not pass the lookahead is not loaded. -/
theorem loadStartState_fails {n : Addr} {la : Nat} (hcore : (E.heap n).Core)
    (hfails : ¬ E.passesLookahead (E.heap n) la = true)
    (hload : loadStartState E (fuel + 1) la n c = some d) : d.activeThreads = c.activeThreads := by
  unfold loadStartState at hload
  dsimp only at hload
  by_cases hrange : (E.heap n).type = .range
  · have hin : ¬ isLiteralInRange (E.heap n).range (E.line.deref la) = true := by
      simpa [Env.passesLookahead, hrange] using hfails
    rw [if_pos hrange, if_neg hin] at hload
    exact Option.some.inj hload ▸ rfl
  · have hkind : ¬ (E.heap n).type = .accepting := fun hkind =>
      hfails (by simp [Env.passesLookahead, hkind])
    rw [if_neg hrange, loadNext_core hcore, loadCore, if_neg hkind, loadDefault] at hload
    dsimp only at hload
    split at hload
    · exact Option.some.inj hload ▸ rfl
    · exact Option.some.inj hload ▸ rfl

/-- A thread is loaded exactly if some start state passes the lookahead. -/
theorem CoreSetting.loads_iff {la : Nat} {as ns : List NFASim} (hunused : Unused c) (hla : 0 < la)
    (hload : loadStartStates E (fuel + 1) la c = some d)
    (hqueues : Queues E .active la {} (E.heap E.startState).reachable c d as ns) :
    d.shiftActive.1 ≠ none ↔ E.Loads la := by
  have hempty : d.shiftActive.1 ≠ none ↔ d.activeThreads ≠ [] := by
    unfold NFASimCtrl.shiftActive
    cases d.activeThreads <;> simp
  rw [hempty]
  constructor
  · intro hne
    by_contra hno
    have hfails : ∀ n ∈ (E.heap E.startState).reachable, ¬ E.passesLookahead (E.heap n) la = true :=
      fun n hn hpasses => hno ⟨n, hn, hpasses⟩
    have hkinds : ∀ n ∈ (E.heap E.startState).reachable, (E.heap n).Core :=
      fun n hn => hset.automaton.kind (.single hn)
    refine hne (Eq.trans ?_ hunused.active)
    unfold loadStartStates at hload
    clear hne hno hqueues hempty hunused
    revert hkinds hfails hload
    generalize (E.heap E.startState).reachable = nodes
    intro hload hfails hkinds
    induction nodes generalizing c with
    | nil => exact (congrArg NFASimCtrl.activeThreads (Option.some.inj hload)).symm
    | cons n nodes ih =>
      rw [List.foldlM_cons] at hload
      obtain ⟨e, hone, hrest⟩ := Option.bind_eq_some_iff.mp hload
      refine (ih hrest (fun k hk => hfails k (.tail n hk)) fun k hk => hkinds k (.tail n hk)).trans ?_
      exact loadStartState_fails (hkinds n List.mem_cons_self) (hfails n List.mem_cons_self) hone
  · rintro ⟨n, hn, hpasses⟩ hnil
    rcases hqueues.covers n hn hpasses with ⟨t, ht, -⟩ | ⟨-, hstamp⟩
    · rcases List.mem_append.mp ht with ht | ht
      · rw [hqueues.active, List.append_eq_nil_iff] at hnil
        rw [hnil.2] at ht
        cases ht
      · cases (hqueues.nextKind t ht).1
    · have := hunused.stamps (E.heap n).id
      omega

/-- A simulator in front of a line. -/
structure FreshOn (E : Env) (c : NFASimCtrl) : Prop where
  unused : Unused c
  curPos : c.curPos = E.line.buffer
  curMatch : c.curMatch = {}
  bufferStart : c.bufferStart = E.line.buffer
  kwCursor : c.kwCursor = none

omit hset in
theorem FreshOn.searchLine (hfresh : FreshOn E ctrl) (kw : KwSearch) :
    (searchLine (E.withSearch kw) kw (beginRun ctrl)).kwRecords = E.records kw := by
  unfold Recognizer.searchLine Env.records
  rw [show (beginRun ctrl).bufferStart = E.line.buffer from hfresh.bufferStart]
  rfl

omit hset in
/-- Without records nothing is tried. -/
theorem FreshOn.startRun_nil (hfresh : FreshOn E ctrl) (hnone : E.records kw = []) : ∃ st,
    (∀ fuel, startRun (E.withSearch kw) fuel ctrl = some (.released st)) ∧
      st.matchFound = false ∧ st.ctrl.reports = ctrl.reports := by
  refine ⟨enterLoops (ctrl.bufferEnd + 1)
    (Recognizer.searchLine (E.withSearch kw) kw (beginRun ctrl)).shiftActive, fun fuel => ?_, rfl,
    rfl⟩
  have hidle : (Recognizer.searchLine (E.withSearch kw) kw (beginRun ctrl)).shiftActive.1 = none := by
    change ctrl.activeThreads.head? = none
    rw [hfresh.unused.active]
    rfl
  unfold startRun
  rw [show (E.withSearch kw).kw = some kw from rfl]
  dsimp only
  rw [findKeywordStartPos, if_pos (hfresh.searchLine kw ▸ hnone)]
  dsimp only
  rw [show (enterLoops _ (Recognizer.searchLine (E.withSearch kw) kw
    (beginRun ctrl)).shiftActive).thread.isNone = true from by
      rw [enterLoops, hidle]
      rfl, if_pos rfl]
  rfl

/-- The first attempt begins at the first record, and there is none if nothing can be loaded
there. -/
theorem FreshOn.startRun_cons (hfresh : FreshOn E ctrl) {mr : MatchRecord}
    {rest : List MatchRecord} (hrecords : E.records kw = mr :: rest) : ∃ st,
    (∀ fuel, startRun (E.withSearch kw) (fuel + 1) ctrl =
      some (if E.Loads mr.beg ∧ mr.beg ≤ E.line.eolPos then .running st else .released st)) ∧
      st.matchFound = false ∧ st.ctrl.reports = ctrl.reports ∧
        st.ctrl.kwRecords = E.records kw ∧ st.ctrl.kwCursor = some 0 ∧
          (mr.beg ≤ E.line.eolPos → Attempt E false ctrl.reports mr.beg mr.beg st) := by
  have hmem : mr ∈ E.records kw := hrecords ▸ List.mem_cons_self
  obtain ⟨hge, hend⟩ := beg_of_mem_records hmem
  let c := seek { Recognizer.searchLine (E.withSearch kw) kw (beginRun ctrl) with
    kwCursor := some 0 } mr.beg
  have hunused : Unused c := ⟨hfresh.unused.active, hfresh.unused.next, hfresh.unused.stamps,
    hfresh.unused.pool⟩
  obtain ⟨d, as, ns, hload, hqueues⟩ := hset.loads mr.beg c
  have hfind : ∀ fuel, findKeywordStartPos (E.withSearch kw) kw (fuel + 1) (beginRun ctrl) =
      some d := by
    intro fuel
    have hsearch := hfresh.searchLine kw
    rw [hrecords] at hsearch
    have hmr : (Recognizer.searchLine (E.withSearch kw) kw (beginRun ctrl)).kwRecords[0]? =
        some mr := by
      rw [hsearch]
      rfl
    have hnext := kwNextMatch_first
      (show (Recognizer.searchLine (E.withSearch kw) kw (beginRun ctrl)).kwCursor = none from
        hfresh.kwCursor) hmr
    unfold findKeywordStartPos
    dsimp only
    rw [if_neg (by rw [hsearch]; exact List.cons_ne_nil _ _), hnext]
    dsimp only
    rw [show E.withSearch kw = E.withOptions E.flags (some kw) from rfl, loadStartStates_withOptions]
    exact hload fuel
  have hpos : d.curPos = mr.beg := hqueues.frame.curPos
  refine ⟨enterLoops mr.beg d.shiftActive, fun fuel => ?_, rfl, hqueues.frame.reports,
    hqueues.frame.kwRecords.trans (hfresh.searchLine kw), hqueues.frame.kwCursor, fun hle => ?_⟩
  · have hloads := CoreSetting.loads_iff hset hunused (show 0 < mr.beg by
      have := E.line.one_lt_buffer
      omega) (hload 0) hqueues
    have hderef : E.line.deref mr.beg ≠ 0 ↔ mr.beg ≤ E.line.eolPos := by
      rw [hset.line.deref_ne_zero_iff (.inr ⟨hge, hend⟩)]
      exact and_iff_right hge
    unfold startRun
    rw [show (E.withSearch kw).kw = some kw from rfl]
    dsimp only
    rw [hfind fuel]
    dsimp only
    rw [hpos]
    by_cases hthread : E.Loads mr.beg
    · have hsome : (enterLoops mr.beg d.shiftActive).thread.isNone = false := by
        rw [Option.isNone_eq_false_iff, Option.isSome_iff_ne_none]
        exact hloads.mpr hthread
      rw [hsome, if_neg Bool.false_ne_true, testInput]
      by_cases hinside : mr.beg ≤ E.line.eolPos
      · rw [if_pos (show (E.withSearch kw).line.deref (enterLoops mr.beg
          d.shiftActive).inputPointer ≠ 0 from hderef.mpr hinside), if_pos ⟨hthread, hinside⟩]
      · rw [if_neg (show ¬ (E.withSearch kw).line.deref (enterLoops mr.beg
          d.shiftActive).inputPointer ≠ 0 from fun h => hinside (hderef.mp h)),
          if_neg fun h => hinside h.2]
    · have hnone : (enterLoops mr.beg d.shiftActive).thread.isNone = true := by
        rw [Option.isNone_iff_eq_none]
        exact not_not.mp fun h => hthread (hloads.mp h)
      rw [hnone, if_pos rfl, if_neg fun h => hthread h.1]
  · let st₀ : RunState := { ctrl := ctrl, inputPointer := mr.beg }
    exact hunused.attempt st₀ rfl hfresh.curMatch (by omega) hle hqueues rfl rfl

omit hset in
/-- A run whose loops come to their end returns. -/
theorem LoopsTo.runNfa {F : Env} (hstart : ∀ fuel, startRun F (fuel + 1) ctrl = some (.running st))
    (hloops : LoopsTo F st (.released st')) :
    ∃ least, ∀ fuel, least ≤ fuel → Recognizer.runNfa F fuel ctrl = some (finishRun F st') := by
  obtain ⟨k, hk⟩ := hloops
  refine ⟨k + 1, fun fuel hfuel => ?_⟩
  obtain ⟨rounds, rfl⟩ := Nat.exists_eq_add_of_le hfuel
  have hloop : runLoop F (k + rounds + 1) (k + (rounds + 1)) (.running st) = some st' := by
    rw [hk]
    rfl
  rw [Recognizer.runNfa, show k + 1 + rounds = k + rounds + 1 by omega, hstart]
  dsimp only [Option.bind_eq_bind, Option.bind_some]
  rw [show k + rounds + 1 = k + (rounds + 1) from rfl] at hloop ⊢
  rw [hloop]
  rfl

omit hset in
/-- A run that is given up returns. -/
theorem runNfa_of_startRun {F : Env}
    (hstart : ∀ fuel, startRun F (fuel + 1) ctrl = some (.released st)) (hle : 1 ≤ fuel) :
    Recognizer.runNfa F fuel ctrl = some (finishRun F st) := by
  obtain ⟨k, rfl⟩ := Nat.exists_eq_add_of_le' hle
  rw [Recognizer.runNfa, hstart]
  rfl

omit hset in
theorem FreshOn.of_reset (hunused : Unused ctrl) (hcursor : ctrl.kwCursor = none) :
    FreshOn E (resetNfaSim E.line { ctrl with reports := [] }) :=
  ⟨⟨hunused.active, hunused.next, hunused.stamps, hunused.pool⟩, rfl, rfl, rfl, hcursor⟩

/-- Without a prescan the leftmost longest matches are reported. -/
theorem FreshOn.plain (hfresh : FreshOn E ctrl) : ∃ st least,
    (∀ fuel, least ≤ fuel → runNfa E fuel ctrl = some (finishRun E st)) ∧ ∃ spans,
      st.ctrl.reports = ctrl.reports ++ spans.map toMatch ∧
        LeftmostLongest E.Span E.line.buffer spans ∧
          (st.matchFound = true ↔ ∃ i q, E.line.buffer ≤ i ∧ AcceptedAt E i q) := by
  have hle : E.line.buffer ≤ E.line.eolPos := Nat.le_add_right _ _
  have hbegin : Unused (beginRun ctrl) := ⟨hfresh.unused.active, hfresh.unused.next,
    hfresh.unused.stamps, hfresh.unused.pool⟩
  obtain ⟨d, as, ns, hload, hqueues⟩ := hset.loads E.line.buffer (beginRun ctrl)
  let st₀ : RunState := { ctrl := ctrl, inputPointer := E.line.buffer }
  have hatt : Attempt E false ctrl.reports E.line.buffer E.line.buffer
      (enterLoops E.line.buffer d.shiftActive) :=
    hbegin.attempt st₀ hfresh.curPos hfresh.curMatch le_rfl hle hqueues rfl rfl
  have hstart : ∀ fuel, startRun E (fuel + 1) ctrl =
      some (.running (enterLoops E.line.buffer d.shiftActive)) := by
    intro fuel
    unfold startRun
    rw [hset.kw]
    dsimp only
    rw [show (beginRun ctrl).curPos = E.line.buffer from hfresh.curPos, hload]
    dsimp only
    rw [testInput]
    exact congrArg some (if_pos (hset.line.deref_ne_zero le_rfl hle))
  obtain ⟨st, spans, hloops, hspans, hreports, hfound⟩ := hatt.search hset
  obtain ⟨least, hrun⟩ := hloops.runNfa hstart
  refine ⟨st, least, hrun, spans, hreports, hspans, hfound.trans (or_iff_right ?_)⟩
  exact Bool.false_ne_true

omit hset in
/-- Something can be loaded at the first record. -/
def Env.Tried (E : Env) (kw : KwSearch) : Prop := ∃ mr ∈ (E.records kw).head?, E.Loads mr.beg

/-- With a prescan the leftmost longest matches among those that begin at a record are reported,
if the first record is tried. -/
theorem FreshOn.prescan (hfresh : FreshOn E ctrl) (hkw : kw.Built) : ∃ st least,
    (∀ fuel, least ≤ fuel → runNfa (E.withSearch kw) fuel ctrl =
      some (finishRun (E.withSearch kw) st)) ∧ ∃ spans,
      st.ctrl.reports = ctrl.reports ++ spans.map toMatch ∧
        (E.Tried kw → LeftmostLongest (RecordSpan E (E.records kw)) E.line.buffer spans) ∧
          (¬ E.Tried kw → spans = []) ∧
            (st.matchFound = true ↔ E.Tried kw ∧ AcceptedFrom E (E.records kw) 0) := by
  have hsorted : (E.records kw).Pairwise fun r r' => r.beg ≤ r'.beg := by
    refine List.pairwise_map.mpr ((KwSearch.search_sorted hkw _).imp ?_)
    intro r r' hle
    exact Nat.add_le_add_left hle _
  have hge : ∀ r ∈ E.records kw, E.line.buffer ≤ r.beg ∧ r.beg ≤ E.line.eolPos + 1 :=
    fun r hr => beg_of_mem_records hr
  cases hrecords : E.records kw with
  | nil =>
    obtain ⟨st, hstart, hfound, hreports⟩ := hfresh.startRun_nil hrecords
    have hno : ¬ E.Tried kw := by
      rintro ⟨mr, hmr, -⟩
      rw [hrecords] at hmr
      cases hmr
    refine ⟨st, 1, fun fuel hle => runNfa_of_startRun (fun fuel => hstart _) hle, [], ?_,
      fun h => absurd h hno, fun _ => rfl, ?_⟩
    · rw [hreports, List.map_nil, List.append_nil]
    · rw [hfound]
      exact iff_of_false Bool.false_ne_true fun h => hno h.1
  | cons mr rest =>
    obtain ⟨st, hstart, hfound, hreports, hsame, hcursor, hbegins⟩ :=
      hfresh.startRun_cons hset hrecords
    have htried : E.Tried kw ↔ E.Loads mr.beg := by
      unfold Env.Tried
      rw [hrecords]
      simp
    have hfirst : (E.records kw)[0]? = some mr := by
      rw [hrecords]
      rfl
    rw [← hrecords]
    by_cases hruns : E.Loads mr.beg ∧ mr.beg ≤ E.line.eolPos
    · simp only [if_pos hruns] at hstart
      obtain ⟨st', spans, hloops, hspans, hreports', hfound'⟩ :=
        (hbegins hruns.2).searches hset hsorted hsame hcursor hfirst hge
      obtain ⟨least, hrun⟩ := hloops.runNfa hstart
      refine ⟨st', least, hrun, spans, hreports', fun _ => ?_, fun hno => ?_, ?_⟩
      · refine hspans.skipTo (hge mr (List.mem_of_getElem? hfirst)).1 fun i j _ hlt hspan => ?_
        obtain ⟨-, r, hr, rfl⟩ := hspan
        obtain ⟨k, hk⟩ := List.mem_iff_getElem?.mp hr
        have := beg_le_beg hsorted (Nat.zero_le k) hfirst hk
        omega
      · exact absurd (htried.mpr hruns.1) hno
      · rw [hfound', htried]
        simp [hruns.1]
    · simp only [if_neg hruns] at hstart
      have houtside : E.Loads mr.beg → ∀ r ∈ E.records kw, E.line.eolPos < r.beg := by
        intro hloads r hr
        obtain ⟨k, hk⟩ := List.mem_iff_getElem?.mp hr
        have := beg_le_beg hsorted (Nat.zero_le k) hfirst hk
        have := not_le.mp fun hle => hruns ⟨hloads, hle⟩
        omega
      refine ⟨st, 1, fun fuel hle => runNfa_of_startRun hstart hle, [], ?_, fun hyes => ?_,
        fun _ => rfl, ?_⟩
      · rw [hreports, List.map_nil, List.append_nil]
      · refine .done fun i j _ hspan => ?_
        obtain ⟨⟨-, hij, hj, -⟩, r, hr, rfl⟩ := hspan
        have := houtside (htried.mp hyes) r hr
        omega
      · rw [hfound]
        refine iff_of_false Bool.false_ne_true ?_
        rintro ⟨hyes, k, r, q, -, hk, n, hn, -⟩
        have := houtside (htried.mp hyes) r (List.mem_of_getElem? hk)
        have := hn.le
        have := hn.inside
        omega

omit hset in
/-- With `-o` a line gives the value and the spans of its run. -/
theorem runLine_of_runNfa {F : Env} {spans : List (Nat × Nat)}
    (hmode : F.flags.individualMatches = true)
    (hrun : runNfa F fuel (resetNfaSim F.line { ctrl with reports := [] }) = some (finishRun F st))
    (hreports : st.ctrl.reports = [] ++ spans.map toMatch) :
    runLine F fuel ctrl = some (st.matchFound, spans.map toMatch, (finishRun F st).2) := by
  rw [runLine, hrun]
  dsimp only [Option.bind_eq_bind, Option.bind_some]
  rw [finishRun_individual hmode, hreports]
  rfl

omit hset in
theorem acceptedFrom_zero_iff :
    AcceptedFrom E (E.records kw) 0 ↔ ∃ i q, E.Recorded kw i ∧ AcceptedAt E i q := by
  constructor
  · rintro ⟨k, r, q, -, hr, haccepted⟩
    exact ⟨r.beg, q, ⟨r, List.mem_of_getElem? hr, rfl⟩, haccepted⟩
  · rintro ⟨_, q, ⟨r, hr, rfl⟩, haccepted⟩
    obtain ⟨k, hk⟩ := List.mem_iff_getElem?.mp hr
    exact ⟨k, r, q, Nat.zero_le k, hk, haccepted⟩

/-- **The prescan agrees with the plain search.** With a prescan the matches of a line are the
leftmost longest ones among those that begin at a record, if something can be loaded at the first
record, and otherwise there are none. So they are the ones of the plain search exactly if each of
those begins at a record, and the first record is tried or there are none. -/
theorem prescan_agrees_iff (hkw : kw.Built) (hunused : Unused ctrl)
    (hcursor : ctrl.kwCursor = none) : ∃ spans spans' value value' d d' least,
    (∀ fuel, least ≤ fuel → runLine E fuel ctrl = some (value, spans.map toMatch, d) ∧
      runLine (E.withSearch kw) fuel ctrl = some (value', spans'.map toMatch, d')) ∧
      LeftmostLongest E.Span E.line.buffer spans ∧
        (E.Tried kw →
          LeftmostLongest (fun i j => E.Span i j ∧ E.Recorded kw i) E.line.buffer spans') ∧
          (¬ E.Tried kw → spans' = []) ∧
            (value' = true ↔ E.Tried kw ∧ ∃ i q, E.Recorded kw i ∧ AcceptedAt E i q) ∧
              (spans' = spans ↔
                (∀ a ∈ spans, E.Recorded kw a.1) ∧ (E.Tried kw ∨ spans = [])) := by
  have hfresh := FreshOn.of_reset (E := E) hunused hcursor
  have hmode : (E.withSearch kw).flags.individualMatches = true := hset.individualMatches
  obtain ⟨st, least, hrun, spans, hreports, hspans, -⟩ := hfresh.plain hset
  obtain ⟨st', least', hrun', spans', hreports', htried, huntried, hfound⟩ :=
    hfresh.prescan hset hkw
  refine ⟨spans, spans', st.matchFound, st'.matchFound, (finishRun E st).2,
    (finishRun (E.withSearch kw) st').2, max least least', fun fuel hle => ?_, hspans, htried,
    huntried, hfound.trans (and_congr_right fun _ => acceptedFrom_zero_iff), ?_⟩
  · obtain ⟨hle, hle'⟩ := max_le_iff.mp hle
    exact ⟨runLine_of_runNfa hset.individualMatches (hrun fuel hle) hreports,
      runLine_of_runNfa hmode (hrun' fuel hle') hreports'⟩
  · by_cases hyes : E.Tried kw
    · have hrestricted := htried hyes
      rw [and_iff_left (Or.inl hyes)]
      constructor
      · rintro rfl
        exact hspans.restrict_iff.mp hrestricted
      · exact fun hall => hrestricted.unique (hspans.restrict_iff.mpr hall)
    · rw [huntried hyes, or_iff_right hyes]
      constructor
      · rintro rfl
        exact ⟨fun a ha => (List.not_mem_nil ha).elim, rfl⟩
      · exact fun h => h.2.symm

end Search

/-- A line in which a keyword begins two matches. -/
def keywordLine : Line where
  buffer := 2
  one_lt_buffer := Nat.one_lt_two
  text := bytes "xabcdyabd"

/-- The keyword of a pattern begins each of its matches. -/
theorem prescan_agrees_iff_keyword : ∃ E kw, compilePattern 60 (bytes "ab[cd]+")
    { mglobal := true, showMatchLine := false } (fun _ => 0) keywordLine = some (E.withSearch kw) ∧
    ∃ spans spans' value value' d d' least,
      (∀ fuel, least ≤ fuel →
        runLine E fuel (newNfaSim E) = some (value, spans.map toMatch, d) ∧
          runLine (E.withSearch kw) fuel (newNfaSim E) =
            some (value', spans'.map toMatch, d')) ∧
        LeftmostLongest E.Span E.line.buffer spans ∧
          (E.Tried kw →
            LeftmostLongest (fun i j => E.Span i j ∧ E.Recorded kw i) E.line.buffer spans') ∧
            (¬ E.Tried kw → spans' = []) ∧
              (value' = true ↔ E.Tried kw ∧ ∃ i q, E.Recorded kw i ∧ AcceptedAt E i q) ∧
                (spans' = spans ↔
                  (∀ a ∈ spans, E.Recorded kw a.1) ∧ (E.Tried kw ∨ spans = [])) := by
  have h : (compilePattern 60 (bytes "ab[cd]+") { mglobal := true, showMatchLine := false }
      (fun _ => 0) keywordLine).map (fun E => ({ E with kw := none } : Env).coreWithin &&
        E.kw.isSome && decide (E.flags = { mglobal := true, showMatchLine := false }) &&
          decide (∀ c ∈ E.line.text, c ≠ 0)) = some true := by
    decide +kernel
  obtain ⟨F, hcompile, hcheck⟩ := Option.map_eq_some_iff.mp h
  simp only [Bool.and_eq_true, decide_eq_true_eq, Option.isSome_iff_exists] at hcheck
  obtain ⟨⟨⟨hcore, kw, hkw⟩, hflags⟩, hline⟩ := hcheck
  have hset : CoreSetting { F with kw := none } := ⟨coreAutomaton_of_coreWithin hcore, rfl, by
    rw [hflags]; rfl, by rw [hflags], by rw [hflags], hline⟩
  have hsame : F = ({ F with kw := none } : Env).withSearch kw := by
    rw [Env.withSearch, ← hkw]
  have hunused : Unused (newNfaSim { F with kw := none }) :=
    ⟨rfl, rfl, fun _ => rfl, List.cons_ne_nil _ _⟩
  exact ⟨_, kw, hcompile.trans (congrArg some hsame),
    prescan_agrees_iff hset (kwBuilt_compilePattern hcompile kw hkw) hunused rfl⟩

/-- The nodes are literals that spell the keyword, whichever way is taken. -/
def Env.SpelledFrom (E : Env) : List Int → List Addr → Prop
  | [], _ => True
  | x :: xs, nodes => ∀ n ∈ nodes,
    (E.heap n).type = .literal ∧ (E.heap n).literal = x ∧ E.SpelledFrom xs (E.heap n).reachable

instance Env.decidableSpelledFrom (E : Env) :
    (pattern : List Int) → (nodes : List Addr) → Decidable (E.SpelledFrom pattern nodes)
  | [], _ => .isTrue trivial
  | _ :: xs, nodes =>
    have := fun n => E.decidableSpelledFrom xs (E.heap n).reachable
    inferInstanceAs (Decidable (∀ n ∈ nodes, _ ∧ _ ∧ _))

/-- A keyword that the first nodes spell begins every accepted word. -/
theorem Env.SpelledFrom.prefix_of_accepts {pattern w : List Int}
    (h : E.SpelledFrom pattern (E.heap E.startState).reachable) (haccepts : E.Accepts w) :
    pattern <+: w := by
  -- on the way a part of the keyword is read, and the nodes behind spell its rest
  have hway : ∀ {w n}, Arrives E w n → pattern <+: w ∨
      ∃ x xs, pattern = w ++ x :: xs ∧ E.SpelledFrom (x :: xs) [n] := by
    intro w n harrives
    induction harrives with
    | @start n hn =>
      cases pattern with
      | nil => exact .inl List.nil_prefix
      | cons x xs =>
        refine .inr ⟨x, xs, rfl, fun k hk => ?_⟩
        rw [List.mem_singleton.mp hk]
        exact h n hn
    | @read w m n y harrives hreads hn ih =>
      rcases ih with hbegins | ⟨x, xs, hpattern, hspelled⟩
      · exact .inl (hbegins.trans (List.prefix_append w [y]))
      · obtain ⟨htype, hliteral, hrest⟩ := hspelled m List.mem_cons_self
        obtain rfl : x = y := by
          unfold NFA.Reads at hreads
          rw [htype] at hreads
          exact hliteral.symm.trans hreads.symm
        cases xs with
        | nil => exact .inl (hpattern ▸ List.prefix_rfl)
        | cons z zs =>
          refine .inr ⟨z, zs, hpattern.trans (List.append_assoc w [x] (z :: zs)).symm,
            fun k hk => ?_⟩
          rw [List.mem_singleton.mp hk]
          exact hrest n hn
  obtain ⟨n, hn, hkind⟩ := haccepts
  refine (hway hn).resolve_right ?_
  rintro ⟨x, xs, -, hspelled⟩
  have htype := (hspelled n List.mem_cons_self).1
  rw [hkind] at htype
  cases htype

section Keyword

variable {pattern : List Int} (hkey : BMObj.Keyword pattern)
include hkey

/-- The records of a keyword are its occurrences on the line. -/
theorem recorded_keyword_iff : E.Recorded (.bm (.bmInitObj pattern)) (E.line.buffer + i) ↔
    i + pattern.length ≤ E.line.text.length + 1 ∧
      ∀ k < pattern.length, E.line.deref (E.line.buffer + i + k) = word pattern k := by
  have hword : ∀ k, i + k ≤ E.line.text.length + 1 →
      word (E.line.text ++ [eolSymbol]) (i + k) = E.line.deref (E.line.buffer + i + k) := by
    intro k hk
    rw [Line.deref_of_mem (by omega) (by unfold Line.eolPos; omega), word,
      show E.line.buffer + i + k - E.line.buffer = i + k by omega]
  have hlength : (E.line.text ++ [eolSymbol]).length = E.line.text.length + 1 := by simp
  have hpos := hkey.nonempty
  unfold Env.Recorded Env.records KwSearch.search
  dsimp only
  unfold BMObj.bmSearch
  rw [show (0 : Int) = ((0 : Nat) : Int) from rfl, BMObj.searchLoop_spec hkey (by omega),
    List.nil_append, Nat.sub_zero, hlength, BMObj.occurrences]
  constructor
  · rintro ⟨_, hmem, hbeg⟩
    obtain ⟨r, hr, rfl⟩ := List.mem_map.mp hmem
    obtain ⟨j, hj, rfl⟩ := List.mem_map.mp hr
    obtain rfl : j = i := Nat.add_left_cancel hbeg
    have hocc := of_decide_eq_true (List.mem_filter.mp hj).2
    rw [hlength] at hocc
    exact ⟨hocc.1, fun k hk => (hword k (by omega)).symm.trans (hocc.2 k hk)⟩
  · rintro ⟨hinside, hocc⟩
    refine ⟨_, List.mem_map.mpr ⟨_, List.mem_map.mpr ⟨i, List.mem_filter.mpr ⟨?_, ?_⟩, rfl⟩,
      rfl⟩, rfl⟩
    · exact List.mem_range'_1.mpr ⟨Nat.zero_le i, by omega⟩
    · refine decide_eq_true ⟨hlength ▸ hinside, fun k hk => ?_⟩
      rw [hword k (by omega)]
      exact hocc k hk

/-- A keyword that begins every accepted word is found where one begins, and the first record is
tried. -/
theorem recorded_of_prefix (hset : CoreSetting E)
    (hbegins : ∀ w, E.Accepts w → pattern <+: w) {i q : Nat} (hi : E.line.buffer ≤ i) (haccepted : AcceptedAt E i q) :
    E.Tried (.bm (.bmInitObj pattern)) ∧ E.Recorded (.bm (.bmInitObj pattern)) i := by
  obtain ⟨n, hn, hkind⟩ := haccepted
  obtain ⟨o, rfl⟩ := Nat.exists_eq_add_of_le hi
  have hpre := hbegins _ ⟨n, hn.arrives, hkind⟩
  have hpos := hkey.nonempty
  have hrecord : E.Recorded (.bm (.bmInitObj pattern)) (E.line.buffer + o) := by
    rw [recorded_keyword_iff hkey]
    have hslice : pattern <+: E.line.text.drop o := by
      refine hpre.trans ?_
      rw [Line.slice, Nat.add_sub_cancel_left]
      exact List.take_prefix _ _
    obtain ⟨rest, hrest⟩ := hslice
    have hlength := congrArg List.length hrest
    rw [List.length_append, List.length_drop] at hlength
    refine ⟨by omega, fun k hk => ?_⟩
    rw [Nat.add_assoc, Line.deref_text (by omega), word, List.getD_eq_getElem?_getD,
      List.getElem?_eq_getElem hk, Option.getD_some]
    have hget : (E.line.text.drop o)[k]? = pattern[k]? := by
      rw [← hrest, List.getElem?_append_left hk]
    rw [List.getElem?_drop, List.getElem?_eq_getElem (by omega), List.getElem?_eq_getElem hk] at hget
    exact Option.some.inj hget
  refine ⟨?_, hrecord⟩
  obtain ⟨r, hr, -⟩ := id hrecord
  cases hrecords : E.records (.bm (.bmInitObj pattern)) with
  | nil =>
    rw [hrecords] at hr
    cases hr
  | cons mr rest =>
    refine ⟨mr, by rw [hrecords]; rfl, ?_⟩
    obtain ⟨j, hj⟩ : ∃ j, mr.beg = E.line.buffer + j := by
      have hmem : mr ∈ E.records (.bm (.bmInitObj pattern)) := hrecords ▸ List.mem_cons_self
      obtain ⟨r, -, rfl⟩ := List.mem_map.mp hmem
      exact ⟨r.beg, rfl⟩
    have hfirst : E.Recorded (.bm (.bmInitObj pattern)) (E.line.buffer + j) :=
      ⟨mr, hrecords ▸ List.mem_cons_self, hj⟩
    -- both records show the first character of the keyword
    have hsame : E.line.deref (E.line.buffer + j) = E.line.deref (E.line.buffer + o) :=
      (((recorded_keyword_iff hkey).mp hfirst).2 0 hpos).trans
        (((recorded_keyword_iff hkey).mp hrecord).2 0 hpos).symm
    have hlt : E.line.buffer + o < q := by
      refine lt_of_le_of_ne hn.le fun heq => ?_
      rw [← heq, Line.slice_self] at hpre
      have := hpre.length_le
      rw [List.length_nil] at this
      omega
    obtain ⟨m, hm, hreads⟩ := hset.automaton.exists_reads hi le_rfl hlt hn
    refine ⟨m, (comesTo_start_iff (hn.le.trans hn.inside)).mp hm, (passesLookahead_of_reads ?_).2⟩
    rw [hj, hsame]
    exact hreads

/-- The prescan for a keyword that begins every accepted word, beside the plain search. -/
theorem CoreSetting.prescan_beside (hset : CoreSetting E)
    (hbegins : ∀ w, E.Accepts w → pattern <+: w) (hunused : Unused ctrl)
    (hcursor : ctrl.kwCursor = none) : ∃ spans value d d' least,
    LeftmostLongest E.Span E.line.buffer spans ∧
      (value = true ↔ ∃ w, w <:+: E.line.text ∧ E.Accepts w) ∧ ∀ fuel, least ≤ fuel →
      runLine E fuel ctrl = some (value, spans.map toMatch, d) ∧
        runLine (E.withSearch (.bm (.bmInitObj pattern))) fuel ctrl =
          some (value, spans.map toMatch, d') := by
  have hfresh := FreshOn.of_reset (E := E) hunused hcursor
  have hmode : (E.withSearch (.bm (.bmInitObj pattern))).flags.individualMatches = true :=
    hset.individualMatches
  obtain ⟨st, least, hrun, spans, hreports, hspans, hfound⟩ := hfresh.plain hset
  obtain ⟨st', least', hrun', spans', hreports', htried, huntried, hfound'⟩ :=
    hfresh.prescan hset (.bm pattern)
  have hrecorded : ∀ i q, E.line.buffer ≤ i → AcceptedAt E i q →
      E.Tried (.bm (.bmInitObj pattern)) ∧ E.Recorded (.bm (.bmInitObj pattern)) i :=
    fun i q hi haccepted => recorded_of_prefix hkey hset hbegins hi haccepted
  have hspans' : spans' = spans := by
    by_cases hyes : E.Tried (.bm (.bmInitObj pattern))
    · refine (htried hyes).unique (hspans.restrict_iff.mpr fun a ha => ?_)
      obtain ⟨-, hspan⟩ := hspans.span_of_mem (fun i j h => h.2.1) (i := a.1) (j := a.2) ha
      obtain ⟨hi, -, haccepted⟩ := span_iff.mp hspan
      exact (hrecorded a.1 _ hi haccepted).2
    · rw [huntried hyes]
      by_contra hne
      obtain ⟨i, j, -, hspan⟩ := hspans.ne_nil_iff.mp (Ne.symm hne)
      obtain ⟨hi, -, haccepted⟩ := span_iff.mp hspan
      exact hyes (hrecorded i _ hi haccepted).1
  have hvalue : st'.matchFound = st.matchFound := by
    rw [Bool.eq_iff_iff, hfound, hfound', acceptedFrom_zero_iff]
    constructor
    · rintro ⟨-, i, q, ⟨r, hr, rfl⟩, haccepted⟩
      obtain ⟨r, -, rfl⟩ := List.mem_map.mp hr
      exact ⟨_, q, Nat.le_add_right _ _, haccepted⟩
    · rintro ⟨i, q, hi, haccepted⟩
      obtain ⟨htries, hrecord⟩ := hrecorded i q hi haccepted
      exact ⟨htries, i, q, hrecord, haccepted⟩
  refine ⟨spans, st.matchFound, (finishRun E st).2,
    (finishRun (E.withSearch (.bm (.bmInitObj pattern))) st').2, max least least', hspans, ?_,
    fun fuel hle => ?_⟩
  · rw [hfound, ← exists_infix_accepted_iff]
  · obtain ⟨hle, hle'⟩ := max_le_iff.mp hle
    have hwith := runLine_of_runNfa hmode (hrun' fuel hle') hreports'
    rw [hspans', hvalue] at hwith
    exact ⟨runLine_of_runNfa hset.individualMatches (hrun fuel hle) hreports, hwith⟩

/-- **A prescan for a keyword that begins every accepted word changes nothing.** The value and
the matches of a line are those of the plain search, the leftmost longest ones. -/
theorem prescan_agrees_of_prefix (hset : CoreSetting E)
    (hbegins : ∀ w, E.Accepts w → pattern <+: w) (hunused : Unused ctrl)
    (hcursor : ctrl.kwCursor = none) : ∃ spans value d d' least,
    LeftmostLongest E.Span E.line.buffer spans ∧ ∀ fuel, least ≤ fuel →
      runLine E fuel ctrl = some (value, spans.map toMatch, d) ∧
        runLine (E.withSearch (.bm (.bmInitObj pattern))) fuel ctrl =
          some (value, spans.map toMatch, d') := by
  obtain ⟨spans, value, d, d', least, hspans, -, hruns⟩ :=
    hset.prescan_beside hkey hbegins hunused hcursor
  exact ⟨spans, value, d, d', least, hspans, hruns⟩

end Keyword

/-- The letters in front of a range are a keyword that begins every match. -/
theorem prescan_agrees_of_prefix_letters : ∃ E, compilePattern 60 (bytes "ab[cd]+")
    { mglobal := true, showMatchLine := false } (fun _ => 0) keywordLine =
      some (E.withSearch (.bm (.bmInitObj (bytes "ab")))) ∧
    ∃ spans value d d' least, LeftmostLongest E.Span E.line.buffer spans ∧
      ∀ fuel, least ≤ fuel →
        runLine E fuel (newNfaSim E) = some (value, spans.map toMatch, d) ∧
          runLine (E.withSearch (.bm (.bmInitObj (bytes "ab")))) fuel (newNfaSim E) =
            some (value, spans.map toMatch, d') := by
  have h : (compilePattern 60 (bytes "ab[cd]+") { mglobal := true, showMatchLine := false }
      (fun _ => 0) keywordLine).map (fun E => ({ E with kw := none } : Env).coreWithin &&
        decide (E.kw = some (.bm (.bmInitObj (bytes "ab")))) &&
          decide (E.flags = { mglobal := true, showMatchLine := false }) &&
            decide (∀ c ∈ E.line.text, c ≠ 0) &&
              decide (E.SpelledFrom (bytes "ab") (E.heap E.startState).reachable)) =
      some true := by
    decide +kernel
  obtain ⟨F, hcompile, hcheck⟩ := Option.map_eq_some_iff.mp h
  simp only [Bool.and_eq_true, decide_eq_true_eq] at hcheck
  obtain ⟨⟨⟨⟨hcore, hkw⟩, hflags⟩, hline⟩, hspelled⟩ := hcheck
  have hset : CoreSetting { F with kw := none } := ⟨coreAutomaton_of_coreWithin hcore, rfl, by
    rw [hflags]; rfl, by rw [hflags], by rw [hflags], hline⟩
  have hsame : F = ({ F with kw := none } : Env).withSearch (.bm (.bmInitObj (bytes "ab"))) := by
    rw [Env.withSearch, ← hkw]
  have hspelled' : ({ F with kw := none } : Env).SpelledFrom (bytes "ab")
      (F.heap F.startState).reachable := hspelled
  have hunused : Unused (newNfaSim { F with kw := none }) :=
    ⟨rfl, rfl, fun _ => rfl, List.cons_ne_nil _ _⟩
  have hkey : BMObj.Keyword (bytes "ab") := ⟨by decide, by decide, by decide⟩
  exact ⟨_, hcompile.trans (congrArg some hsame),
    prescan_agrees_of_prefix hkey hset (fun w => hspelled'.prefix_of_accepts) hunused rfl⟩

end Recognizer
