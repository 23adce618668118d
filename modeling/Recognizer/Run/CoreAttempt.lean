import Recognizer.Run.CoreLoad
import Recognizer.Run.Start

/-!
# An attempt at one start position

While `run_nfa` tries a start position, the threads stand in front of the nodes the automaton
can come to. A node whose thread has been stepped has passed on to all its successors, a stamp
stands for a thread that waits at its node, and every accepted end has been merged into the
longest match or waits to be.
-/

namespace Recognizer

/-- An automaton that reads at every node, run with `-o` and `-g`, without case folding and
without a prescan. -/
structure CoreSetting (E : Env) : Prop where
  automaton : CoreAutomaton E
  kw : E.kw = none
  individualMatches : E.flags.individualMatches = true
  mglobal : E.flags.mglobal = true
  ignoreCase : E.flags.ignoreCase = false
  line : E.line.NulFree

/-- The threads of a round that are still to be stepped, the held one first. -/
def RunState.queue (st : RunState) : List NFASim := st.thread.toList ++ st.ctrl.activeThreads

/-- The span of a thread in front of the position `p`. -/
def spanTo (s p : Nat) : Match := if p = s then {} else ⟨s, p - 1⟩

/-- The thread has come from `s` to a node in front of the position `p`. -/
structure CameTo (E : Env) (s p : Nat) (sim : NFASim) : Prop where
  node : ComesTo E s p sim.ip
  span : sim.curMatch = spanTo s p

/-- The longest match reaches the position `q`. -/
def Merged (s q : Nat) (st : RunState) : Prop :=
  st.currentRun = true ∧ (s < q → q ≤ st.ctrl.curMatch.stop + 1)

/-- The end `q` has been merged or its thread is still to be stepped. -/
def Seen (E : Env) (s q : Nat) (st : RunState) : Prop :=
  Merged s q st ∨ ∃ sim ∈ st.queue, (E.heap sim.ip).type = .accepting ∧ CameTo E s q sim

/-- What is behind the position has come to the node, if it can go on from there. -/
structure Ahead (E : Env) (s p : Nat) (st : RunState) (n : Addr) : Prop where
  accepting : (E.heap n).type = .accepting → Seen E s (p + 1) st
  reading : (E.heap n).type ≠ .accepting → E.passesLookahead (E.heap n) (p + 1) = true →
    ∃ sim ∈ st.ctrl.nextThreads, sim.ip = n

/-- A round at the position `p` of the attempt from `s`; before the attempt a match was found
or not and `reports` had been reported. -/
structure Attempt (E : Env) (found : Bool) (reports : List Match) (s p : Nat) (st : RunState) :
    Prop where
  curPos : st.ctrl.curPos = p
  inputPointer : st.inputPointer = s
  start : E.line.buffer ≤ s
  le : s ≤ p
  inside : p ≤ E.line.eolPos
  idle : st.thread = none → st.ctrl.activeThreads = []
  queued : ∀ sim ∈ st.queue, (E.heap sim.ip).type ≠ .accepting ∧ CameTo E s p sim ∨
    (E.heap sim.ip).type = .accepting ∧ ∃ q, CameTo E s q sim
  waiting : ∀ sim ∈ st.ctrl.nextThreads,
    (E.heap sim.ip).type ≠ .accepting ∧ CameTo E s (p + 1) sim
  reads : ∀ m, ComesTo E s p m → (E.heap m).Reads (E.line.deref p) →
    (∃ sim ∈ st.queue, sim.ip = m) ∨ ∀ n ∈ (E.heap m).reachable, Ahead E s p st n
  seen : ∀ q, q ≤ p → AcceptedAt E s q → Seen E s q st
  best : st.ctrl.curMatch = {} ∨ ∃ q, s < q ∧ AcceptedAt E s q ∧ st.ctrl.curMatch = ⟨s, q - 1⟩
  run : st.currentRun = true → ∃ q, AcceptedAt E s q
  stamps : ∀ id, st.ctrl.activeThreadsSp id ≠ 0 →
    st.ctrl.activeThreadsSp id = p ∧ (∃ sim ∈ st.queue, (E.heap sim.ip).id = id) ∨
      st.ctrl.activeThreadsSp id = p + 1 ∧ ∃ sim ∈ st.ctrl.nextThreads, (E.heap sim.ip).id = id
  pool : st.ctrl.threadPool ≠ [] ∨ st.queue ≠ [] ∨ st.ctrl.nextThreads ≠ []
  found : st.matchFound = (found || st.currentRun)
  reported : st.ctrl.reports = reports

/-- What stepping the held thread `sim` leaves: it queues `as` and `ns`. -/
structure StepsTo (E : Env) (s p : Nat) (sim : NFASim) (rest as ns : List NFASim)
    (st st' : RunState) : Prop where
  queue : st'.queue = rest ++ as
  next : st'.ctrl.nextThreads = st.ctrl.nextThreads ++ ns
  idle : st'.thread = none → st'.ctrl.activeThreads = []
  curPos : st'.ctrl.curPos = st.ctrl.curPos
  inputPointer : st'.inputPointer = st.inputPointer
  reports : st'.ctrl.reports = st.ctrl.reports
  active : ∀ t ∈ as, (E.heap t.ip).type = .accepting ∧ CameTo E s (p + 1) t
  waiting : ∀ t ∈ ns, (E.heap t.ip).type ≠ .accepting ∧ CameTo E s (p + 1) t
  covers : (E.heap sim.ip).Reads (E.line.deref p) → ∀ n ∈ (E.heap sim.ip).reachable,
    E.passesLookahead (E.heap n) (p + 1) = true → (∃ t ∈ as ++ ns, t.ip = n) ∨
      (E.heap n).type ≠ .accepting ∧ (E.heap n).id ≠ (E.heap sim.ip).id ∧
        st.ctrl.activeThreadsSp (E.heap n).id = p + 1
  stamps : ∀ id, st'.ctrl.activeThreadsSp id = 0 ∨
    id ≠ (E.heap sim.ip).id ∧ st'.ctrl.activeThreadsSp id = st.ctrl.activeThreadsSp id ∨
      st'.ctrl.activeThreadsSp id = p + 1 ∧ ∃ t ∈ ns, (E.heap t.ip).id = id
  merged : ∀ q, Merged s q st → Merged s q st'
  merges : (E.heap sim.ip).type = .accepting → ∀ q, CameTo E s q sim → Merged s q st'
  best : st'.ctrl.curMatch = {} ∨ ∃ q, s < q ∧ AcceptedAt E s q ∧ st'.ctrl.curMatch = ⟨s, q - 1⟩
  run : st'.currentRun = true → ∃ q, AcceptedAt E s q
  pool : st'.ctrl.threadPool ≠ [] ∨ as ++ ns ≠ []
  found : ∀ f : Bool, st.matchFound = (f || st.currentRun) →
    st'.matchFound = (f || st'.currentRun)

variable {E : Env} {found : Bool} {reports : List Match} {s p q : Nat} {st st' : RunState}
  {sim : NFASim} {rest as ns : List NFASim} {c : NFASimCtrl}

@[simp] theorem queue_hold_shiftActive (st : RunState) (c : NFASimCtrl) :
    (st.hold c.shiftActive).queue = c.activeThreads := by
  unfold RunState.queue RunState.hold NFASimCtrl.shiftActive
  cases c.activeThreads <;> rfl

theorem idle_hold_shiftActive (st : RunState) (c : NFASimCtrl)
    (h : (st.hold c.shiftActive).thread = none) :
    (st.hold c.shiftActive).ctrl.activeThreads = [] := by
  unfold RunState.hold NFASimCtrl.shiftActive at *
  cases hactive : c.activeThreads with
  | nil => simp
  | cons t rest => simp [hactive] at h

theorem CameTo.isBelow (h : CameTo E s p sim) : Below E sim.ip := h.node.isBelow

namespace StepsTo

theorem seen (h : StepsTo E s p sim rest as ns st st') (hqueue : st.queue = sim :: rest)
    (hseen : Seen E s q st) : Seen E s q st' := by
  rcases hseen with hmerged | ⟨t, ht, hkind, hcame⟩
  · exact .inl (h.merged q hmerged)
  · rw [hqueue] at ht
    rcases List.mem_cons.mp ht with rfl | ht
    · exact .inl (h.merges hkind q hcame)
    · exact .inr ⟨t, h.queue ▸ List.mem_append_left as ht, hkind, hcame⟩

theorem ahead (h : StepsTo E s p sim rest as ns st st') (hqueue : st.queue = sim :: rest)
    {n : Addr} (hahead : Ahead E s p st n) : Ahead E s p st' n where
  accepting hkind := h.seen hqueue (hahead.accepting hkind)
  reading hkind hpasses := by
    obtain ⟨t, ht, htn⟩ := hahead.reading hkind hpasses
    exact ⟨t, h.next ▸ List.mem_append_left ns ht, htn⟩

/-- A node that reads the character at the position has passed on behind the step of its
thread. -/
theorem ahead_of_reads (h : StepsTo E s p sim rest as ns st st') (hcore : CoreAutomaton E)
    (hatt : Attempt E found reports s p st) (hbelow : Below E sim.ip)
    (hreads : (E.heap sim.ip).Reads (E.line.deref p)) {n : Addr}
    (hn : n ∈ (E.heap sim.ip).reachable) : Ahead E s p st' n := by
  constructor
  · intro hkind
    have hpasses : E.passesLookahead (E.heap n) (p + 1) = true := by
      simp [Env.passesLookahead, hkind]
    rcases h.covers hreads n hn hpasses with ⟨t, ht, rfl⟩ | ⟨hother, -⟩
    · rcases List.mem_append.mp ht with ht | ht
      · exact .inr ⟨t, h.queue ▸ List.mem_append_right rest ht, h.active t ht⟩
      · exact absurd hkind (h.waiting t ht).1
    · exact absurd hkind hother
  · intro hkind hpasses
    rw [h.next]
    rcases h.covers hreads n hn hpasses with ⟨t, ht, rfl⟩ | ⟨-, -, hstamp⟩
    · rcases List.mem_append.mp ht with ht | ht
      · exact absurd (h.active t ht).1 hkind
      · exact ⟨t, List.mem_append_right _ ht, rfl⟩
    · -- the stamp stands for a thread that waits at the node
      rcases hatt.stamps (E.heap n).id (by omega) with ⟨hhere, -⟩ | ⟨-, t, ht, hid⟩
      · omega
      · have hnode := hcore.ids (hatt.waiting t ht).2.isBelow (hbelow.next hn) hid
        exact ⟨t, List.mem_append_left ns ht, hnode⟩

/-- **One step of the inner loop.** -/
theorem attempt (h : StepsTo E s p sim rest as ns st st') (hcore : CoreAutomaton E)
    (hatt : Attempt E found reports s p st) (hqueue : st.queue = sim :: rest)
    (hbelow : Below E sim.ip) : Attempt E found reports s p st' where
  curPos := h.curPos.trans hatt.curPos
  inputPointer := h.inputPointer.trans hatt.inputPointer
  start := hatt.start
  le := hatt.le
  inside := hatt.inside
  idle := h.idle
  queued t ht := by
    rw [h.queue] at ht
    rcases List.mem_append.mp ht with ht | ht
    · exact hatt.queued t (hqueue ▸ List.mem_cons_of_mem sim ht)
    · exact .inr ⟨(h.active t ht).1, p + 1, (h.active t ht).2⟩
  waiting t ht := by
    rw [h.next] at ht
    rcases List.mem_append.mp ht with ht | ht
    · exact hatt.waiting t ht
    · exact h.waiting t ht
  reads m hm hreads := by
    rcases hatt.reads m hm hreads with ⟨t, ht, rfl⟩ | hahead
    · rw [hqueue] at ht
      rcases List.mem_cons.mp ht with rfl | ht
      · exact .inr fun n hn => h.ahead_of_reads hcore hatt hbelow hreads hn
      · exact .inl ⟨t, h.queue ▸ List.mem_append_left as ht, rfl⟩
    · exact .inr fun n hn => h.ahead hqueue (hahead n hn)
  seen q hq haccepted := h.seen hqueue (hatt.seen q hq haccepted)
  best := h.best
  run := h.run
  stamps id hid := by
    rcases h.stamps id with hzero | ⟨hne, hsame⟩ | ⟨hstamp, t, ht, htid⟩
    · exact absurd hzero hid
    · rw [hsame] at hid ⊢
      rcases hatt.stamps id hid with ⟨hstamp, t, ht, htid⟩ | ⟨hstamp, t, ht, htid⟩
      · rw [hqueue] at ht
        rcases List.mem_cons.mp ht with rfl | ht
        · exact absurd htid.symm hne
        · exact .inl ⟨hstamp, t, h.queue ▸ List.mem_append_left as ht, htid⟩
      · exact .inr ⟨hstamp, t, h.next ▸ List.mem_append_left ns ht, htid⟩
    · exact .inr ⟨hstamp, t, h.next ▸ List.mem_append_right _ ht, htid⟩
  pool := by
    rcases h.pool with hpool | hqueued
    · exact .inl hpool
    · rw [h.queue, h.next]
      simp only [ne_eq, List.append_eq_nil_iff, not_and_or] at hqueued ⊢
      tauto
  found := h.found found hatt.found
  reported := h.reports.trans hatt.reported

end StepsTo

/-- Reading a character makes the span longer by one position. -/
theorem updateMatch_spanTo (hs : 0 < s) (hle : s ≤ p) (hspan : sim.curMatch = spanTo s p) :
    (updateMatch sim p).curMatch = spanTo s (p + 1) := by
  unfold updateMatch
  rw [hspan]
  unfold spanTo
  rw [if_neg (show p + 1 ≠ s by omega), Nat.add_sub_cancel]
  by_cases hp : p = s
  · subst hp
    simp
  · rw [if_neg hp, if_neg (by simpa using hs.ne')]

/-- Merging a span keeps the longest match or makes it longer. -/
theorem updateLongestMatch_spanTo {m : Match} (hs : 0 < s) (hle : s ≤ q)
    (hm : m = {} ∨ ∃ q', s < q' ∧ m = ⟨s, q' - 1⟩) :
    (updateLongestMatch m (spanTo s q) = m ∨
        s < q ∧ updateLongestMatch m (spanTo s q) = ⟨s, q - 1⟩) ∧
      m.stop ≤ (updateLongestMatch m (spanTo s q)).stop ∧
        (s < q → q ≤ (updateLongestMatch m (spanTo s q)).stop + 1) := by
  by_cases hq : q = s
  · -- an empty span changes nothing
    have hsame : updateLongestMatch m (spanTo s q) = m := by
      rw [spanTo, if_pos hq, updateLongestMatch]
      rcases hm with rfl | ⟨q', hq', rfl⟩
      · rfl
      · rw [if_neg (by simp; omega), if_neg (by simp; omega)]
    rw [hsame]
    exact ⟨.inl rfl, le_rfl, fun hlt => by omega⟩
  · rw [spanTo, if_neg hq, updateLongestMatch]
    rcases hm with rfl | ⟨q', hq', rfl⟩
    · rw [if_pos (.inl rfl)]
      exact ⟨.inr ⟨by omega, rfl⟩, Nat.zero_le _, fun _ => by dsimp only; omega⟩
    · split
      · next hlonger =>
        dsimp only at hlonger ⊢
        exact ⟨.inr ⟨by omega, rfl⟩, by omega, fun _ => by omega⟩
      · next hshorter =>
        dsimp only at hshorter ⊢
        split
        · exact ⟨.inr ⟨by omega, rfl⟩, by dsimp only; omega, fun _ => by dsimp only; omega⟩
        · exact ⟨.inl rfl, le_rfl, fun _ => by dsimp only; omega⟩

/-- The stamps behind the first statement of `thread_step`. -/
theorem eraseStamp_stamps (E : Env) (sim : NFASim) (c : NFASimCtrl) (id : Nat) :
    (eraseStamp E sim c).activeThreadsSp id = 0 ∨ id ≠ (E.heap sim.ip).id ∧
      (eraseStamp E sim c).activeThreadsSp id = c.activeThreadsSp id := by
  by_cases hid : id = (E.heap sim.ip).id
  · subst hid
    exact .inl (Function.update_self _ _ _)
  · exact .inr ⟨hid, Function.update_of_ne hid _ _⟩

section Step

variable (hset : CoreSetting E) (hatt : Attempt E found reports s p st)
  (hheld : st.thread = some sim)
include hset hatt

omit hset in
theorem Attempt.zero_lt_start : 0 < s := by
  have := hatt.start
  have := E.line.one_lt_buffer
  omega

theorem Attempt.input_eq : E.input st.ctrl = E.line.deref p := by
  rw [input_of_exact hset.ignoreCase, hatt.curPos]

theorem Attempt.input_ne_zero : E.input st.ctrl ≠ 0 := by
  rw [hatt.input_eq hset]
  exact hset.line.deref_ne_zero (hatt.start.trans hatt.le) hatt.inside

include hheld

omit hset hatt in
theorem queue_of_held : st.queue = sim :: st.ctrl.activeThreads := by
  rw [RunState.queue, hheld]
  rfl

omit hset in
theorem Attempt.held : (E.heap sim.ip).type ≠ .accepting ∧ CameTo E s p sim ∨
    (E.heap sim.ip).type = .accepting ∧ ∃ q, CameTo E s q sim :=
  hatt.queued sim (queue_of_held hheld ▸ List.mem_cons_self)

omit hset hatt in
theorem runStep_held {fuel : Nat} {sim' : NFASim}
    (hstep : threadStep E fuel sim st.ctrl = some (sim', c)) :
    runStep E fuel st = some (if sim'.status = 1 then matchCase E st sim' c
      else if sim'.status = -1 then .running (st.hold (releaseThread c sim'))
      else .running (st.hold c.shiftActive)) := by
  rw [runStep, hheld]
  dsimp only
  rw [innerRound, hstep]
  dsimp only
  split
  · rfl
  · split <;> rfl

/-- An accepting thread is merged and released. -/
theorem Attempt.steps_accepting (hkind : (E.heap sim.ip).type = .accepting) : ∃ st',
    (∀ fuel, runStep E (fuel + 1) st = some (.running st')) ∧
      StepsTo E s p sim st.ctrl.activeThreads [] [] st st' := by
  have hstep : ∀ fuel, threadStep E fuel sim st.ctrl =
      some (setStatus sim 1, eraseStamp E sim st.ctrl) := by
    intro fuel
    unfold threadStep
    dsimp only
    rw [if_pos (show E.input (st.ctrl.stamp (E.heap sim.ip).id 0) ≠ 0 from
      hatt.input_ne_zero hset), hkind]
    rfl
  have hbest : st.ctrl.curMatch = {} ∨ ∃ q', s < q' ∧ st.ctrl.curMatch = ⟨s, q' - 1⟩ := by
    rcases hatt.best with hnone | ⟨q', hlt, -, hmatch⟩
    · exact .inl hnone
    · exact .inr ⟨q', hlt, hmatch⟩
  obtain ⟨-, q, hcame⟩ := (hatt.held hheld).resolve_left fun h => h.1 hkind
  obtain ⟨hresult, hkeeps, hreaches⟩ :=
    updateLongestMatch_spanTo hatt.zero_lt_start hcame.node.le hbest
  rw [← hcame.span] at hresult hkeeps
  have haccepted : AcceptedAt E s q := ⟨sim.ip, hcame.node, hkind⟩
  refine ⟨st.markFound.hold (releaseThread ((eraseStamp E sim st.ctrl).setMatch
    (updateLongestMatch st.ctrl.curMatch sim.curMatch)) (setStatus sim 1)), fun fuel => ?_,
    { queue := (queue_hold_shiftActive _ _).trans (List.append_nil _).symm
      next := (List.append_nil _).symm
      idle := idle_hold_shiftActive _ _
      curPos := rfl
      inputPointer := rfl
      reports := rfl
      active := fun t ht => absurd ht List.not_mem_nil
      waiting := fun t ht => absurd ht List.not_mem_nil
      covers := fun hreads => ?_
      stamps := fun id => (eraseStamp_stamps E sim st.ctrl id).imp_right .inl
      merged := fun q' hmerged => ⟨rfl, fun hlt => (hmerged.2 hlt).trans (by
        exact Nat.succ_le_succ hkeeps)⟩
      merges := fun _ q' hcame' => ⟨rfl, fun hlt => ?_⟩
      best := ?_
      run := fun _ => ⟨q, haccepted⟩
      pool := .inl (by simp [releaseThread, NFASimCtrl.release, NFASimCtrl.shiftActive,
        RunState.hold])
      found := fun f _ => by simp [RunState.hold, RunState.markFound] }⟩
  · rw [runStep_held hheld (hstep _), if_pos (show (setStatus sim 1).status = 1 from rfl),
      matchCase]
    dsimp only
    rw [if_pos hset.individualMatches, if_pos hset.mglobal]
    rfl
  · unfold NFA.Reads at hreads
    rw [hkind] at hreads
    exact hreads.elim
  · have h := (updateLongestMatch_spanTo hatt.zero_lt_start hcame'.node.le hbest).2.2 hlt
    rw [← hcame'.span] at h
    exact h
  · rcases hresult with hsame | ⟨hlt, hnew⟩
    · change updateLongestMatch st.ctrl.curMatch sim.curMatch = {} ∨ _
      rw [hsame]
      exact hatt.best
    · exact .inr ⟨q, hlt, haccepted, hnew⟩

omit hatt hheld in
theorem CoreSetting.reading (hkind : (E.heap sim.ip).type ≠ .accepting) (hbelow : Below E sim.ip) :
    (E.heap sim.ip).type = .any ∨ (E.heap sim.ip).type = .literal ∨
      (E.heap sim.ip).type = .range := by
  rcases hset.automaton.kind hbelow with htype | htype | htype | htype
  · exact .inr (.inl htype)
  · exact .inr (.inr htype)
  · exact .inl htype
  · exact absurd htype hkind

/-- A thread that cannot read the character is released. -/
theorem Attempt.steps_fails (hkind : (E.heap sim.ip).type ≠ .accepting)
    (hcame : CameTo E s p sim) (hfails : ¬ (E.heap sim.ip).Reads (E.line.deref p)) : ∃ st',
    (∀ fuel, runStep E (fuel + 1) st = some (.running st')) ∧
      StepsTo E s p sim st.ctrl.activeThreads [] [] st st' := by
  have hstep : ∀ fuel, threadStep E fuel sim st.ctrl =
      some (setStatus sim (-1), eraseStamp E sim st.ctrl) := by
    intro fuel
    rw [threadStep_reads E fuel sim st.ctrl hset.ignoreCase (hatt.input_ne_zero hset)
      (hset.reading hkind hcame.isBelow), hatt.input_eq hset, if_neg hfails]
    rfl
  refine ⟨st.hold (releaseThread (eraseStamp E sim st.ctrl) (setStatus sim (-1))),
    fun fuel => ?_,
    { queue := (queue_hold_shiftActive _ _).trans (List.append_nil _).symm
      next := (List.append_nil _).symm
      idle := idle_hold_shiftActive _ _
      curPos := rfl
      inputPointer := rfl
      reports := rfl
      active := fun t ht => absurd ht List.not_mem_nil
      waiting := fun t ht => absurd ht List.not_mem_nil
      covers := fun hreads => absurd hreads hfails
      stamps := fun id => (eraseStamp_stamps E sim st.ctrl id).imp_right .inl
      merged := fun _ hmerged => hmerged
      merges := fun haccepting => absurd haccepting hkind
      best := hatt.best
      run := hatt.run
      pool := .inl (by simp [releaseThread, NFASimCtrl.release, NFASimCtrl.shiftActive,
        RunState.hold])
      found := fun _ h => h }⟩
  rw [runStep_held hheld (hstep _),
    if_neg (show (setStatus sim (-1)).status ≠ 1 by simp [setStatus]),
    if_pos (show (setStatus sim (-1)).status = -1 from rfl)]

/-- A thread that reads the character passes on to the successors of its node. -/
theorem Attempt.steps_reads (hkind : (E.heap sim.ip).type ≠ .accepting)
    (hcame : CameTo E s p sim) (hreads : (E.heap sim.ip).Reads (E.line.deref p)) :
    ∃ st' as ns, (∀ fuel, runStep E (fuel + 1) st = some (.running st')) ∧
      StepsTo E s p sim st.ctrl.activeThreads as ns st st' ∧
        as.length ≤ (E.heap sim.ip).reachable.length := by
  have hbelow := hcame.isBelow
  have hcore := hset.automaton
  have hlt := hcore.lt_eolPos hcame.node hreads
  have hspan := updateMatch_spanTo hatt.zero_lt_start hatt.le hcame.span
  obtain ⟨sim', d, as, ns, hrun, hqueues, hstatus⟩ := processAdjacents_queues
    (hcore.leads hbelow hkind) (fun n hn => hcore.kind (hbelow.next hn))
    (fun a ha b hb => hcore.ids (hbelow.next ha) (hbelow.next hb)) (updateMatch sim p) .next (p + 1)
    (eraseStamp E sim st.ctrl)
  rw [hspan] at hqueues
  have hstep : ∀ fuel, threadStep E (fuel + 1) sim st.ctrl = some (sim', d) := by
    intro fuel
    rw [threadStep_reads E (fuel + 1) sim st.ctrl hset.ignoreCase (hatt.input_ne_zero hset)
      (hset.reading hkind hbelow), hatt.input_eq hset, if_pos hreads, hatt.curPos, stepAdjacents,
      updateMatch_ip]
    exact hrun fuel
  -- whether it is queued itself or released, the thread is gone from the queue
  obtain ⟨c, hrunStep, hactive, hnext, hstamps, hframe, hpool⟩ : ∃ c : NFASimCtrl,
      (∀ fuel, runStep E (fuel + 1) st = some (.running (st.hold c.shiftActive))) ∧
        c.activeThreads = d.activeThreads ∧ c.nextThreads = d.nextThreads ∧
          c.activeThreadsSp = d.activeThreadsSp ∧ SameFrame d c ∧
            (c.threadPool ≠ [] ∨ as ++ ns ≠ []) := by
    rcases hstatus with hfailed | ⟨hqueued, hne⟩
    · refine ⟨d.release sim', fun fuel => ?_, rfl, rfl, rfl, .release d sim',
        .inl (by simp [NFASimCtrl.release])⟩
      rw [runStep_held hheld (hstep _), if_neg (by omega), if_pos hfailed]
      rfl
    · refine ⟨d, fun fuel => ?_, rfl, rfl, rfl, .refl d, .inr hne⟩
      rw [runStep_held hheld (hstep _), if_neg (by omega), if_neg (by omega)]
  have hframe' : SameFrame (eraseStamp E sim st.ctrl) c := hqueues.frame.trans hframe
  have hcame' : ∀ t ∈ as ++ ns, CameTo E s (p + 1) t := by
    intro t ht
    obtain ⟨htspan, hmem⟩ := hqueues.comes t ht
    exact ⟨(hcore.comesTo_succ_iff hatt.start hatt.le).mpr ⟨_, hcame.node, hreads, hmem⟩, htspan⟩
  refine ⟨st.hold c.shiftActive, as, ns, hrunStep,
    { queue := ?_
      next := hnext.trans hqueues.next
      idle := idle_hold_shiftActive _ _
      curPos := hframe'.curPos
      inputPointer := rfl
      reports := hframe'.reports
      active := fun t ht => ⟨(hqueues.activeKind t ht).resolve_left Dst.noConfusion,
        hcame' t (List.mem_append_left ns ht)⟩
      waiting := fun t ht => ⟨(hqueues.nextKind t ht).2, hcame' t (List.mem_append_right as ht)⟩
      covers := fun _ n hn hpasses => (hqueues.covers n hn hpasses).imp_right ?_
      stamps := fun id => ?_
      merged := fun q hmerged => ⟨hmerged.1, fun hle => ?_⟩
      merges := fun haccepting => absurd haccepting hkind
      best := ?_
      run := hatt.run
      pool := ?_
      found := fun _ h => h }, hqueues.short⟩
  · rw [queue_hold_shiftActive, hactive, hqueues.active]
    rfl
  · rintro ⟨hreading, hstamp⟩
    rcases eraseStamp_stamps E sim st.ctrl (E.heap n).id with hzero | ⟨hne, hkept⟩
    · omega
    · exact ⟨hreading, hne, hkept ▸ hstamp⟩
  · have hheldStamps : (st.hold c.shiftActive).ctrl.activeThreadsSp = d.activeThreadsSp := hstamps
    rw [hheldStamps]
    rcases hqueues.stamps id with hkept | ⟨hstamp, t, ht, hreading, hid⟩
    · rw [hkept]
      exact (eraseStamp_stamps E sim st.ctrl id).imp_right .inl
    · refine .inr (.inr ⟨hstamp, t, ?_, hid⟩)
      rcases List.mem_append.mp ht with ht | ht
      · exact absurd ((hqueues.activeKind t ht).resolve_left Dst.noConfusion) hreading
      · exact ht
  · change q ≤ c.curMatch.stop + 1
    rw [hframe'.curMatch]
    exact hmerged.2 hle
  · change c.curMatch = {} ∨ ∃ q, s < q ∧ AcceptedAt E s q ∧ c.curMatch = ⟨s, q - 1⟩
    rw [hframe'.curMatch]
    exact hatt.best
  · rcases hpool with hne | hqueued
    · exact .inl hne
    · exact .inr hqueued

end Step

end Recognizer
