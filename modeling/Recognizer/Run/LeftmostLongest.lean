import Recognizer.Run.CoreSearch
import Recognizer.Run.Session

/-!
# `run_nfa` reports the leftmost longest matches

Every attempt leaves the longest match from its start position, if there is one, and the next
attempt starts behind it; so with `-o` and `-g` the matches of a line are reported from left to
right. Every start position is tried as long as nothing but empty matches has been found.
-/

namespace Recognizer

variable {E : Env} {found : Bool} {reports : List Match} {s p q : Nat} {st : RunState}
  {ctrl : NFASimCtrl}

/-- A span as it is reported. -/
def toMatch (a : Nat × Nat) : Match := ⟨a.1, a.2⟩

/-- The spans that are reported are matches in their order, without overlaps; there are none
exactly if there is no match, and they are determined. -/
theorem reported_spans {spans : List (Nat × Nat)} (h : LeftmostLongest E.Span p spans) :
    (∀ a ∈ spans, p ≤ a.1 ∧ E.Span a.1 a.2) ∧ (spans.Pairwise fun a b => a.2 < b.1) ∧
      (spans ≠ [] ↔ ∃ i j, p ≤ i ∧ E.Span i j) ∧
        ∀ spans', LeftmostLongest E.Span p spans' → spans' = spans := by
  have hle : ∀ i j, E.Span i j → i ≤ j := fun i j hspan => hspan.2.1
  exact ⟨fun a ha => h.span_of_mem hle (i := a.1) (j := a.2) ha, h.ordered hle, h.ne_nil_iff,
    fun spans' h' => h'.unique h⟩

section Search

variable (hset : CoreSetting E)
include hset

theorem CoreSetting.silentMatch : E.flags.silentMatch = false := by
  have h := hset.individualMatches
  unfold CtrlFlags.individualMatches at h
  simp only [Bool.not_eq_true', Bool.or_eq_false_iff] at h
  exact h.1.1

theorem CoreSetting.invertMatch : E.flags.invertMatch = false := by
  have h := hset.individualMatches
  unfold CtrlFlags.individualMatches at h
  simp only [Bool.not_eq_true', Bool.or_eq_false_iff] at h
  exact h.1.2

theorem CoreSetting.showMatchLine : E.flags.showMatchLine = false := by
  have h := hset.individualMatches
  unfold CtrlFlags.individualMatches at h
  simp only [Bool.not_eq_true', Bool.or_eq_false_iff] at h
  exact h.2

/-- The start states can be loaded at every position. -/
theorem CoreSetting.loads (la : Nat) (c : NFASimCtrl) : ∃ d as ns,
    (∀ fuel, loadStartStates E (fuel + 1) la c = some d) ∧
      Queues E .active la {} (E.heap E.startState).reachable c d as ns :=
  foldlM_loadStartState_queues (fun _ hn => hset.automaton.kind (.single hn))
    (fun _ ha _ hb => hset.automaton.ids (.single ha) (.single hb)) la c

/-- The branch of the outer loop behind an attempt begins the next one, or ends the run where
the line ends. -/
theorem CoreSetting.restarts (hunused : Unused st.ctrl) (hidle : st.thread = none)
    {c : NFASimCtrl} (hpos : updateInputPointer E st.currentRun st.inputPointer
      (newMatch E st.ctrl) = (p, c)) (hc : Unused c) (hge : E.line.buffer ≤ p) : ∃ st',
    (∀ fuel, runStep E (fuel + 1) st = some (testInput E st')) ∧ st'.inputPointer = p ∧
      st'.matchFound = st.matchFound ∧ st'.ctrl.reports = c.reports ∧
        (p ≤ E.line.eolPos → Attempt E st.matchFound c.reports p p st') := by
  obtain ⟨d, as, ns, hload, hqueues⟩ := hset.loads p (beginAttempt c p)
  have hline : E.flags.lineOrInvert = false := by
    rw [CtrlFlags.lineOrInvert, hset.showMatchLine, hset.invertMatch]
    rfl
  have hnew : (if E.flags.lineOrInvert = true then st.ctrl else newMatch E st.ctrl) =
      newMatch E st.ctrl := by
    rw [hline]
    rfl
  refine ⟨(st.moveTo p).hold d.shiftActive, fun fuel => ?_, rfl, rfl, hqueues.frame.reports,
    fun hle => ?_⟩
  · rw [runStep, hidle]
    dsimp only
    rw [outerRound, if_neg (fun hne => hne hunused.next), restart]
    dsimp only
    rw [hnew, hpos]
    dsimp only
    rw [resetThread, if_neg (show (beginAttempt c p).threadPool ≠ [] from hc.pool), hload]
    rfl
  · have hbegin : Unused (beginAttempt c p) := ⟨hc.active, hc.next, hc.stamps, hc.pool⟩
    exact hbegin.attempt (st.moveTo p) rfl rfl hge hle hqueues rfl rfl

/-- Where no match begins the search goes on at the next position. -/
theorem Attempt.skips (hatt : Attempt E found reports s p st) (hidle : st.thread = none)
    (hnext : st.ctrl.nextThreads = []) (hmatch : st.ctrl.curMatch = {}) :
    (∀ j, ¬ E.Span s j) ∧ (newMatch E st.ctrl).reports = reports ∧
      Unused (newMatch E st.ctrl) ∧
        updateInputPointer E st.currentRun st.inputPointer (newMatch E st.ctrl) =
          (s + 1, newMatch E st.ctrl) := by
  have hnew : newMatch E st.ctrl = st.ctrl := by
    rw [newMatch, hmatch]
    exact if_neg fun h => h.2.1 rfl
  rw [hnew]
  refine ⟨fun j hspan => ?_, hatt.reported, hatt.unused hidle hnext, ?_⟩
  · obtain ⟨-, hle, haccepted⟩ := span_iff.mp hspan
    have hreach := (hatt.merged_all hset hidle hnext haccepted).2 (by omega)
    rw [hmatch] at hreach
    have := hatt.zero_lt_start
    simp at hreach
    omega
  · rw [updateInputPointer, hset.kw, hmatch, hatt.inputPointer]
    exact (if_pos rfl).trans (if_pos (.inr rfl))

/-- The longest match is reported, and the search goes on behind it. -/
theorem Attempt.takes (hatt : Attempt E found reports s p st) (hidle : st.thread = none)
    (hnext : st.ctrl.nextThreads = []) (hlt : s < q) (haccepted : AcceptedAt E s q)
    (hmatch : st.ctrl.curMatch = ⟨s, q - 1⟩) :
    E.Span s (q - 1) ∧ (∀ j, E.Span s j → j ≤ q - 1) ∧
      (newMatch E st.ctrl).reports = reports ++ [toMatch (s, q - 1)] ∧
        Unused (newMatch E st.ctrl) ∧
          updateInputPointer E st.currentRun st.inputPointer (newMatch E st.ctrl) =
            (q, newMatch E st.ctrl) := by
  have hpositive := hatt.zero_lt_start
  have hunused := hatt.unused hidle hnext
  have hnew : newMatch E st.ctrl = { st.ctrl with
      reports := st.ctrl.reports ++ [toMatch (s, q - 1)] } := by
    have hcond : E.flags.silentMatch = false ∧ st.ctrl.curMatch.start ≠ 0 ∧
        st.ctrl.curMatch.start ≤ st.ctrl.curMatch.stop := by
      rw [hmatch]
      exact ⟨hset.silentMatch, hpositive.ne', Nat.le_sub_one_of_lt hlt⟩
    have hspan : (if E.flags.showMatchLine = true then
        (⟨st.ctrl.bufferStart, st.ctrl.bufferEnd - 1⟩ : Match) else st.ctrl.curMatch) =
        toMatch (s, q - 1) := by
      rw [hset.showMatchLine, hmatch]
      rfl
    rw [newMatch, if_pos hcond, hspan]
  have hrun := (hatt.merged_all hset hidle hnext haccepted).1
  refine ⟨span_iff.mpr ⟨hatt.start, by omega, ?_⟩, fun j hspan => ?_, ?_, ?_, ?_⟩
  · rwa [Nat.sub_add_cancel (by omega)]
  · obtain ⟨-, hle, haccepted'⟩ := span_iff.mp hspan
    have hreach := (hatt.merged_all hset hidle hnext haccepted').2 (by omega)
    rw [hmatch] at hreach
    dsimp only at hreach
    omega
  · rw [hnew, hatt.reported]
  · rw [hnew]
    exact ⟨hunused.active, hunused.next, hunused.stamps, hunused.pool⟩
  · rw [updateInputPointer, hset.kw, hnew]
    dsimp only [Option.isNone]
    rw [if_pos rfl, if_neg, hmatch, Nat.sub_add_cancel (by omega)]
    rw [hrun, hmatch, not_or]
    exact ⟨Bool.noConfusion, by dsimp only; omega⟩

/-- **The search.** From an attempt on, the leftmost longest matches are reported. -/
theorem Attempt.search (hatt : Attempt E found reports s s st) : ∃ st' spans,
    LoopsTo E st (.released st') ∧ LeftmostLongest E.Span s spans ∧
      st'.ctrl.reports = reports ++ spans.map toMatch ∧
        (st'.matchFound = true ↔ found = true ∨ ∃ i q, s ≤ i ∧ AcceptedAt E i q) := by
  induction hk : E.line.eolPos + 1 - s using Nat.strong_induction_on
    generalizing s st found reports with
  | _ k ih =>
    obtain ⟨p, st₁, hloops, hatt₁, hidle, hnext⟩ := hatt.finish hset
    have hinside := hatt.inside
    -- a match is found in the attempt exactly if some end is accepted
    have hfound : st₁.matchFound = true ↔ found = true ∨ ∃ q, AcceptedAt E s q := by
      rw [hatt₁.found, Bool.or_eq_true]
      refine or_congr_right ⟨hatt₁.run, ?_⟩
      rintro ⟨q, haccepted⟩
      exact (hatt₁.merged_all hset hidle hnext haccepted).1
    -- from the next start position on the induction hypothesis holds
    have hgoes : ∀ q, s < q → q ≤ E.line.eolPos + 1 → Unused (newMatch E st₁.ctrl) →
        updateInputPointer E st₁.currentRun st₁.inputPointer (newMatch E st₁.ctrl) =
          (q, newMatch E st₁.ctrl) →
        ∃ st' spans, LoopsTo E st₁ (.released st') ∧ LeftmostLongest E.Span q spans ∧
          st'.ctrl.reports = (newMatch E st₁.ctrl).reports ++ spans.map toMatch ∧
            (st'.matchFound = true ↔
              st₁.matchFound = true ∨ ∃ i q', q ≤ i ∧ AcceptedAt E i q') := by
      intro q hq hbound hunused hpos
      have hge : E.line.buffer ≤ q := hatt.start.trans hq.le
      obtain ⟨st₂, hrun, hinput, hfound₂, hreports₂, hbegins⟩ :=
        hset.restarts (hatt₁.unused hidle hnext) hidle hpos hunused hge
      by_cases hle : q ≤ E.line.eolPos
      · have hrunning : testInput E st₂ = .running st₂ := by
          rw [testInput, if_pos (hinput ▸ hset.line.deref_ne_zero hge hle)]
        obtain ⟨st', spans, hloops', hspans, h⟩ := ih _ (by omega) (hbegins hle) rfl
        exact ⟨st', spans, (LoopsTo.step (hrunning ▸ hrun)).trans hloops', hspans, h⟩
      · have hreleased : testInput E st₂ = .released st₂ := by
          rw [testInput, if_neg]
          rw [hinput, hset.line.deref_ne_zero_iff (.inr ⟨hge, hbound⟩)]
          exact fun h => hle h.2
        refine ⟨st₂, [], .step (hreleased ▸ hrun), .done fun i j hi hspan => ?_, ?_, ?_⟩
        · obtain ⟨-, hij, hj, -⟩ := hspan
          omega
        · rw [hreports₂, List.map_nil, List.append_nil]
        · rw [hfound₂]
          refine (or_iff_left ?_).symm
          rintro ⟨i, q', hi, n, hn, -⟩
          have := hn.le
          have := hn.inside
          omega
    rcases hatt₁.best with hmatch | ⟨q, hlt, haccepted, hmatch⟩
    · obtain ⟨hnone, hreports, hunused, hpos⟩ := hatt₁.skips hset hidle hnext hmatch
      obtain ⟨st', spans, hloops', hspans, hreports', hfound'⟩ :=
        hgoes (s + 1) (Nat.lt_succ_self s) (Nat.succ_le_succ hinside) hunused hpos
      refine ⟨st', spans, hloops.trans hloops', hspans.skip hnone, hreports ▸ hreports', ?_⟩
      rw [hfound', hfound, or_assoc]
      refine or_congr_right ⟨?_, ?_⟩
      · rintro (⟨q, haccepted⟩ | ⟨i, q, hi, haccepted⟩)
        · exact ⟨s, q, le_rfl, haccepted⟩
        · exact ⟨i, q, Nat.le_of_succ_le hi, haccepted⟩
      · rintro ⟨i, q, hi, haccepted⟩
        rcases Nat.lt_or_eq_of_le hi with hlt | rfl
        · exact .inr ⟨i, q, hlt, haccepted⟩
        · exact .inl ⟨q, haccepted⟩
    · obtain ⟨hspan, hlong, hreports, hunused, hpos⟩ :=
        hatt₁.takes hset hidle hnext hlt haccepted hmatch
      have hbound : q ≤ E.line.eolPos + 1 := by
        obtain ⟨n, hn, -⟩ := haccepted
        exact hn.inside.trans (Nat.le_succ _)
      obtain ⟨st', spans, hloops', hspans, hreports', hfound'⟩ := hgoes q hlt hbound hunused hpos
      have hrest : LeftmostLongest E.Span (q - 1 + 1) spans := by
        rwa [Nat.sub_add_cancel (by omega)]
      refine ⟨st', (s, q - 1) :: spans, hloops.trans hloops',
        .found le_rfl hspan (fun i' j' hi' _ => hi') hlong hrest, ?_, ?_⟩
      · rw [hreports', hreports, List.append_assoc, List.map_cons, List.singleton_append]
      · have hsome : st₁.matchFound = true := hfound.mpr (.inr ⟨q, haccepted⟩)
        exact iff_of_true (hfound'.mpr (.inl hsome)) (.inr ⟨s, q, le_rfl, haccepted⟩)

/-- **`run_nfa` on automata that read at every node.** With `-o` and `-g` the leftmost longest
nonempty matches of the line are reported in their order, and the value says whether some part of
the line, which may be empty, is accepted. -/
theorem runNfa_leftmost_longest (hunused : Unused ctrl) (hpos : ctrl.curPos = E.line.buffer)
    (hmatch : ctrl.curMatch = {}) : ∃ spans value ctrl' least,
      LeftmostLongest E.Span E.line.buffer spans ∧
        (∀ fuel, least ≤ fuel → runNfa E fuel ctrl = some (value, ctrl')) ∧
          ctrl'.reports = ctrl.reports ++ spans.map toMatch ∧
            (value = true ↔ ∃ w, w <:+: E.line.text ∧ E.Accepts w) := by
  have hle : E.line.buffer ≤ E.line.eolPos := Nat.le_add_right _ _
  obtain ⟨d, as, ns, hload, hqueues⟩ := hset.loads E.line.buffer (beginRun ctrl)
  have hbegin : Unused (beginRun ctrl) :=
    ⟨hunused.active, hunused.next, hunused.stamps, hunused.pool⟩
  let st₀ : RunState := { ctrl := ctrl, inputPointer := E.line.buffer }
  have hatt : Attempt E false ctrl.reports E.line.buffer E.line.buffer
      (enterLoops E.line.buffer d.shiftActive) :=
    hbegin.attempt st₀ hpos hmatch le_rfl hle hqueues rfl rfl
  obtain ⟨st', spans, ⟨k, hk⟩, hspans, hreports, hfound⟩ := hatt.search hset
  refine ⟨spans, (finishRun E st').1, (finishRun E st').2, k + 1, hspans, fun fuel hfuel => ?_,
    ?_, ?_⟩
  · obtain ⟨rounds, rfl⟩ := Nat.exists_eq_add_of_le hfuel
    have hstart : startRun E (k + 1 + rounds) ctrl =
        some (.running (enterLoops E.line.buffer d.shiftActive)) := by
      rw [startRun, hset.kw]
      dsimp only
      rw [show k + 1 + rounds = k + rounds + 1 by omega, show (beginRun ctrl).curPos =
        E.line.buffer from hpos, hload]
      dsimp only
      rw [testInput]
      exact congrArg some (if_pos (hset.line.deref_ne_zero le_rfl hle))
    have hloop : runLoop E (k + 1 + rounds) (k + 1 + rounds)
        (.running (enterLoops E.line.buffer d.shiftActive)) = some st' := by
      have hbudget : k + 1 + rounds = k + rounds + 1 := by omega
      have hrounds : k + 1 + rounds = k + (rounds + 1) := by omega
      calc runLoop E (k + 1 + rounds) (k + 1 + rounds) _
          = runLoop E (k + rounds + 1) (k + (rounds + 1)) _ := by rw [← hbudget, ← hrounds]
        _ = some st' := by
          rw [hk]
          rfl
    rw [runNfa, hstart]
    dsimp only [Option.bind_eq_bind, Option.bind_some]
    rw [hloop]
    rfl
  · simp [finishRun, hset.kw, hset.showMatchLine, hset.invertMatch,
      NFASimCtrl.releaseAllThreads, hreports]
  · rw [exists_infix_accepted_iff]
    exact hfound.trans (by simp)

end Search

/-- The nodes within some steps of the start node. -/
def Env.nodesWithin (E : Env) : Nat → List Addr
  | 0 => (E.heap E.startState).reachable
  | k + 1 => (E.nodesWithin k ++ (E.nodesWithin k).flatMap fun a => (E.heap a).reachable).dedup

/-- An automaton whose nodes all lie within three steps of the start node. -/
def Env.coreWithin (E : Env) : Bool :=
  decide (∀ n ∈ (E.heap E.startState).reachable, n ∈ E.nodesWithin 3) &&
    decide (∀ m ∈ E.nodesWithin 3, ∀ n ∈ (E.heap m).reachable, n ∈ E.nodesWithin 3) &&
      decide (∀ n ∈ E.nodesWithin 3, (E.heap n).Core) &&
        decide (∀ m ∈ E.nodesWithin 3, ∀ n ∈ E.nodesWithin 3,
          (E.heap m).id = (E.heap n).id → m = n) &&
          decide (∀ n ∈ E.nodesWithin 3, (E.heap n).type ≠ .accepting →
            (E.heap n).reachable ≠ []) &&
            decide (∀ n ∈ E.nodesWithin 3, (E.heap n).type = .literal →
              (E.heap n).literal ≠ eolSymbol)

theorem coreAutomaton_of_coreWithin (h : E.coreWithin = true) : CoreAutomaton E := by
  simp only [Env.coreWithin, Bool.and_eq_true, decide_eq_true_eq] at h
  obtain ⟨⟨⟨⟨⟨hstart, hclosed⟩, hkind⟩, hids⟩, hleads⟩, hliteral⟩ := h
  exact .of_closed hstart hclosed hkind hids hleads hliteral

/-- A line with two matches of different lengths. -/
def twoMatches : Line := { buffer := 2, one_lt_buffer := Nat.one_lt_two, text := bytes "xabcbyc" }

/-- A repeated range with an optional letter behind it. -/
theorem runNfa_leftmost_longest_letters : ∃ E spans value ctrl' least,
    compilePattern 60 (bytes "[ab]+c?") { mglobal := true, showMatchLine := false } (fun _ => 0)
        twoMatches = some E ∧
      LeftmostLongest E.Span E.line.buffer spans ∧
        (∀ fuel, least ≤ fuel →
          runNfa E fuel (freshLine E.line (newNfaSim E)) = some (value, ctrl')) ∧
          ctrl'.reports = (freshLine E.line (newNfaSim E)).reports ++ spans.map toMatch ∧
            (value = true ↔ ∃ w, w <:+: E.line.text ∧ E.Accepts w) := by
  have h : (compilePattern 60 (bytes "[ab]+c?") { mglobal := true, showMatchLine := false }
      (fun _ => 0) twoMatches).map (fun E => E.coreWithin && E.kw.isNone &&
        decide (E.flags = { mglobal := true, showMatchLine := false }) &&
          decide (∀ c ∈ E.line.text, c ≠ 0)) = some true := by
    decide +kernel
  obtain ⟨E, hcompile, hcheck⟩ := Option.map_eq_some_iff.mp h
  simp only [Bool.and_eq_true, decide_eq_true_eq, Option.isNone_iff_eq_none] at hcheck
  obtain ⟨⟨⟨hcore, hkw⟩, hflags⟩, hline⟩ := hcheck
  have hset : CoreSetting E := ⟨coreAutomaton_of_coreWithin hcore, hkw, by rw [hflags]; rfl,
    by rw [hflags], by rw [hflags], hline⟩
  have hunused : Unused (freshLine E.line (newNfaSim E)) :=
    ⟨rfl, rfl, fun _ => rfl, List.cons_ne_nil _ _⟩
  obtain ⟨spans, value, ctrl', least, hrun⟩ := runNfa_leftmost_longest hset hunused rfl rfl
  exact ⟨E, spans, value, ctrl', least, hcompile, hrun⟩

example : ((compilePattern 60 (bytes "[ab]+c?") { mglobal := true, showMatchLine := false }
    (fun _ => 0) twoMatches).bind fun E =>
      (runNfa E 60 (freshLine E.line (newNfaSim E))).map fun r => (r.1, r.2.reports)) =
    some (true, [⟨3, 5⟩, ⟨6, 6⟩]) := by decide +kernel

end Recognizer
