import Recognizer.Run.CoreAttempt

/-!
# The search for the leftmost longest matches

The inner loop of `run_nfa` comes to its end, since a step queues at most as many accepting
threads as its node has successors; an attempt comes to its end with the line. What it leaves
is the longest match from its start position, from which the next attempt follows.
-/

namespace Recognizer

variable {E : Env} {found : Bool} {reports : List Match} {s p q : Nat} {st st' : RunState}
  {sim : NFASim} {o o' : Outcome}

/-- The loops of `run_nfa` lead from a state to an outcome, whatever the budget of a load. -/
def LoopsTo (E : Env) (st : RunState) (o : Outcome) : Prop :=
  ∃ k, ∀ fuel rounds,
    runLoop E (fuel + 1) (k + rounds) (.running st) = runLoop E (fuel + 1) rounds o

namespace LoopsTo

theorem refl (st : RunState) : LoopsTo E st (.running st) :=
  ⟨0, fun fuel rounds => by rw [Nat.zero_add]⟩

/-- One round. -/
theorem step (hstep : ∀ fuel, runStep E (fuel + 1) st = some o) : LoopsTo E st o := by
  refine ⟨1, fun fuel rounds => ?_⟩
  rw [Nat.add_comm 1 rounds, runLoop, hstep]

theorem trans (h : LoopsTo E st (.running st')) (h' : LoopsTo E st' o) : LoopsTo E st o := by
  obtain ⟨k, hk⟩ := h
  obtain ⟨k', hk'⟩ := h'
  refine ⟨k + k', fun fuel rounds => ?_⟩
  rw [Nat.add_assoc, hk, hk']

end LoopsTo

/-- How many steps the threads of a queue can take before it is empty. -/
def weight (E : Env) : List NFASim → Nat
  | [] => 0
  | sim :: rest =>
    (if (E.heap sim.ip).type = .accepting then 1 else (E.heap sim.ip).reachable.length + 2) +
      weight E rest

theorem weight_append (E : Env) (l l' : List NFASim) :
    weight E (l ++ l') = weight E l + weight E l' := by
  induction l with
  | nil => simp [weight]
  | cons sim rest ih => simp [weight, ih, Nat.add_assoc]

theorem weight_of_accepting {l : List NFASim} (h : ∀ sim ∈ l, (E.heap sim.ip).type = .accepting) :
    weight E l = l.length := by
  induction l with
  | nil => rfl
  | cons sim rest ih =>
    rw [weight, if_pos (h sim List.mem_cons_self), ih fun t ht => h t (.tail sim ht),
      List.length_cons, Nat.add_comm]

section Attempt

variable (hset : CoreSetting E)
include hset

/-- One round of the inner loop. -/
theorem Attempt.step (hatt : Attempt E found reports s p st) (hheld : st.thread = some sim) :
    ∃ st', (∀ fuel, runStep E (fuel + 1) st = some (.running st')) ∧
      Attempt E found reports s p st' ∧ weight E st'.queue < weight E st.queue := by
  have hqueue := queue_of_held hheld
  have hdone : ∀ {st' : RunState} {as ns : List NFASim}, Below E sim.ip →
      StepsTo E s p sim st.ctrl.activeThreads as ns st st' →
        as.length < weight E [sim] →
          Attempt E found reports s p st' ∧ weight E st'.queue < weight E st.queue := by
    intro st' as ns hbelow hsteps hlight
    refine ⟨hsteps.attempt hset.automaton hatt hqueue hbelow, ?_⟩
    rw [hsteps.queue, hqueue, weight_append, ← List.singleton_append, weight_append,
      weight_of_accepting fun t ht => (hsteps.active t ht).1]
    omega
  have hpositive : 0 < weight E [sim] := by
    rw [weight]
    split <;> omega
  rcases hatt.held hheld with ⟨hkind, hcame⟩ | ⟨hkind, q, hcame⟩
  · by_cases hreads : (E.heap sim.ip).Reads (E.line.deref p)
    · obtain ⟨st', as, ns, hrun, hsteps, hshort⟩ := hatt.steps_reads hset hheld hkind hcame hreads
      refine ⟨st', hrun, hdone hcame.isBelow hsteps ?_⟩
      rw [weight, if_neg hkind]
      omega
    · obtain ⟨st', hrun, hsteps⟩ := hatt.steps_fails hset hheld hkind hcame hreads
      exact ⟨st', hrun, hdone hcame.isBelow hsteps hpositive⟩
  · obtain ⟨st', hrun, hsteps⟩ := hatt.steps_accepting hset hheld hkind
    exact ⟨st', hrun, hdone hcame.isBelow hsteps hpositive⟩

/-- The inner loop comes to its end. -/
theorem Attempt.drain (hatt : Attempt E found reports s p st) : ∃ st',
    LoopsTo E st (.running st') ∧ Attempt E found reports s p st' ∧ st'.thread = none := by
  induction hw : weight E st.queue using Nat.strong_induction_on generalizing st with
  | _ w ih =>
    cases hheld : st.thread with
    | none => exact ⟨st, .refl st, hatt, hheld⟩
    | some sim =>
      obtain ⟨st₁, hrun, hatt₁, hlt⟩ := hatt.step hset hheld
      obtain ⟨st', hloops, hatt', hidle⟩ := ih _ (hw ▸ hlt) hatt₁ rfl
      exact ⟨st', (LoopsTo.step hrun).trans hloops, hatt', hidle⟩

omit hset in
theorem Attempt.queue_eq_nil (hatt : Attempt E found reports s p st) (hidle : st.thread = none) :
    st.queue = [] := by
  rw [RunState.queue, hidle, hatt.idle hidle]
  rfl

omit hset in
/-- With an empty queue every end that was seen has been merged. -/
theorem Attempt.merged_of_seen (hatt : Attempt E found reports s p st) (hidle : st.thread = none)
    (hseen : Seen E s q st) : Merged s q st := by
  rcases hseen with hmerged | ⟨t, ht, -⟩
  · exact hmerged
  · rw [hatt.queue_eq_nil hidle] at ht
    cases ht

/-- With an empty queue every node that reads the character has passed on. -/
theorem Attempt.ahead (hatt : Attempt E found reports s p st) (hidle : st.thread = none)
    {n : Addr} (hn : ComesTo E s (p + 1) n) : Ahead E s p st n := by
  obtain ⟨m, hm, hreads, hmn⟩ := (hset.automaton.comesTo_succ_iff hatt.start hatt.le).mp hn
  rcases hatt.reads m hm hreads with ⟨t, ht, -⟩ | hahead
  · rw [hatt.queue_eq_nil hidle] at ht
    cases ht
  · exact hahead n hmn

/-- Every end up to behind the position has been merged. -/
theorem Attempt.merged (hatt : Attempt E found reports s p st) (hidle : st.thread = none)
    (hq : q ≤ p + 1) (haccepted : AcceptedAt E s q) : Merged s q st := by
  apply hatt.merged_of_seen hidle
  rcases Nat.lt_or_eq_of_le hq with hlt | rfl
  · exact hatt.seen q (Nat.le_of_lt_succ hlt) haccepted
  · obtain ⟨n, hn, hkind⟩ := haccepted
    exact (hatt.ahead hset hidle hn).accepting hkind

omit hset in
/-- A node that reads the character passes the test of the lookahead, and does not accept. -/
theorem passesLookahead_of_reads {n : NFA} (hreads : n.Reads (E.line.deref p)) :
    n.type ≠ .accepting ∧ E.passesLookahead n p = true := by
  unfold NFA.Reads at hreads
  unfold Env.passesLookahead
  cases htype : n.type with
  | any => exact ⟨NfaType.noConfusion, rfl⟩
  | literal =>
    rw [htype] at hreads
    exact ⟨NfaType.noConfusion, decide_eq_true hreads.symm⟩
  | range =>
    rw [htype] at hreads
    exact ⟨NfaType.noConfusion, hreads.2⟩
  | _ =>
    rw [htype] at hreads
    exact hreads.elim

/-- A node that reads the character at the next position has a thread that waits there. -/
theorem Attempt.waits (hatt : Attempt E found reports s p st) (hidle : st.thread = none)
    {n : Addr} (hn : ComesTo E s (p + 1) n) (hreads : (E.heap n).Reads (E.line.deref (p + 1))) :
    ∃ sim ∈ st.ctrl.nextThreads, sim.ip = n := by
  obtain ⟨hkind, hpasses⟩ := passesLookahead_of_reads hreads
  exact (hatt.ahead hset hidle hn).reading hkind hpasses

/-- The next position of an attempt. -/
theorem Attempt.advance (hatt : Attempt E found reports s p st) (hidle : st.thread = none)
    (hnext : st.ctrl.nextThreads ≠ []) : ∃ st',
      (∀ fuel, runStep E (fuel + 1) st = some (.running st')) ∧
        Attempt E found reports s (p + 1) st' := by
  obtain ⟨sim, hsim⟩ := List.exists_mem_of_ne_nil _ hnext
  have hqueue : (st.hold (seek st.ctrl.swapNextWActive (p + 1)).shiftActive).queue =
      st.ctrl.nextThreads := queue_hold_shiftActive _ _
  have hmerged : ∀ q, q ≤ p + 1 → AcceptedAt E s q → Merged s q st :=
    fun q hq haccepted => hatt.merged hset hidle hq haccepted
  refine ⟨st.hold (seek st.ctrl.swapNextWActive (p + 1)).shiftActive, fun fuel => ?_,
    { curPos := rfl
      inputPointer := hatt.inputPointer
      start := hatt.start
      le := hatt.le.trans (Nat.le_succ p)
      inside := (hatt.waiting sim hsim).2.node.inside
      idle := idle_hold_shiftActive _ _
      queued := fun t ht => .inl (hatt.waiting t (hqueue ▸ ht))
      waiting := fun t ht => absurd ht List.not_mem_nil
      reads := fun m hm hreads => .inl (hqueue ▸ hatt.waits hset hidle hm hreads)
      seen := fun q hq haccepted => .inl (hmerged q hq haccepted)
      best := hatt.best
      run := hatt.run
      stamps := fun id hid => ?_
      pool := .inr (.inl (hqueue ▸ hnext))
      found := hatt.found
      reported := hatt.reported }⟩
  · have hderef : E.line.deref st.inputPointer ≠ 0 := by
      rw [hatt.inputPointer]
      exact hset.line.deref_ne_zero hatt.start (hatt.le.trans hatt.inside)
    rw [runStep, hidle]
    dsimp only
    rw [outerRound, if_pos hnext]
    dsimp only
    rw [testInput]
    refine congrArg some ((if_pos hderef).trans ?_)
    rw [← hatt.curPos]
    rfl
  · rcases hatt.stamps id hid with ⟨-, t, ht, -⟩ | ⟨hstamp, hwaits⟩
    · rw [hatt.queue_eq_nil hidle] at ht
      cases ht
    · exact .inl ⟨hstamp, hqueue ▸ hwaits⟩

/-- An attempt comes to its end. -/
theorem Attempt.finish (hatt : Attempt E found reports s p st) : ∃ p' st',
    LoopsTo E st (.running st') ∧ Attempt E found reports s p' st' ∧ st'.thread = none ∧
      st'.ctrl.nextThreads = [] := by
  induction hk : E.line.eolPos - p using Nat.strong_induction_on generalizing p st with
  | _ k ih =>
    obtain ⟨st₁, hloops₁, hatt₁, hidle₁⟩ := hatt.drain hset
    by_cases hnext : st₁.ctrl.nextThreads = []
    · exact ⟨p, st₁, hloops₁, hatt₁, hidle₁, hnext⟩
    · obtain ⟨st₂, hrun, hatt₂⟩ := hatt₁.advance hset hidle₁ hnext
      have hinside := hatt₂.inside
      obtain ⟨p', st', hloops, h⟩ := ih _ (by omega) hatt₂ rfl
      exact ⟨p', st', hloops₁.trans ((LoopsTo.step hrun).trans hloops), h⟩

/-- Where no thread waits any more, every end has been merged. -/
theorem Attempt.merged_all (hatt : Attempt E found reports s p st) (hidle : st.thread = none)
    (hnext : st.ctrl.nextThreads = []) (haccepted : AcceptedAt E s q) : Merged s q st := by
  by_cases hq : q ≤ p + 1
  · exact hatt.merged hset hidle hq haccepted
  · obtain ⟨n, hn, -⟩ := haccepted
    obtain ⟨m, hm, hreads⟩ := hset.automaton.exists_reads hatt.start
      (hatt.le.trans (Nat.le_succ p)) (by omega) hn
    obtain ⟨t, ht, -⟩ := hatt.waits hset hidle hm hreads
    rw [hnext] at ht
    cases ht

end Attempt

/-- No thread is in use and no stamp is set. -/
structure Unused (c : NFASimCtrl) : Prop where
  active : c.activeThreads = []
  next : c.nextThreads = []
  stamps : ∀ id, c.activeThreadsSp id = 0
  pool : c.threadPool ≠ []

theorem Attempt.unused (hatt : Attempt E found reports s p st) (hidle : st.thread = none)
    (hnext : st.ctrl.nextThreads = []) : Unused st.ctrl where
  active := hatt.idle hidle
  next := hnext
  stamps id := by
    by_contra hid
    rcases hatt.stamps id hid with ⟨-, t, ht, -⟩ | ⟨-, t, ht, -⟩
    · rw [hatt.queue_eq_nil hidle] at ht
      cases ht
    · rw [hnext] at ht
      cases ht
  pool := by
    rcases hatt.pool with hpool | hqueue | hwaiting
    · exact hpool
    · exact absurd (hatt.queue_eq_nil hidle) hqueue
    · exact absurd hnext hwaiting

/-- Behind the load of the start states an attempt begins. -/
theorem Unused.attempt (st : RunState) {c d : NFASimCtrl} {as ns : List NFASim}
    (hunused : Unused c)
    (hpos : c.curPos = s) (hmatch : c.curMatch = {}) (hge : E.line.buffer ≤ s)
    (hle : s ≤ E.line.eolPos)
    (hqueues : Queues E .active s {} (E.heap E.startState).reachable c d as ns)
    (hinput : st.inputPointer = s) (hrun : st.currentRun = false) :
    Attempt E st.matchFound c.reports s s (st.hold d.shiftActive) := by
  have hnone : ns = [] := by
    by_contra hne
    obtain ⟨t, ht⟩ := List.exists_mem_of_ne_nil _ hne
    cases (hqueues.nextKind t ht).1
  subst hnone
  have hactive : (st.hold d.shiftActive).queue = as := by
    rw [queue_hold_shiftActive, hqueues.active, hunused.active]
    rfl
  have hwaiting : (st.hold d.shiftActive).ctrl.nextThreads = [] := by
    change d.nextThreads = []
    rw [hqueues.next, hunused.next]
    rfl
  have hcame : ∀ t ∈ as, CameTo E s s t := by
    intro t ht
    obtain ⟨hspan, hmem⟩ := hqueues.comes t (List.mem_append_left [] ht)
    exact ⟨(comesTo_start_iff hle).mpr hmem, by rw [hspan, spanTo, if_pos rfl]⟩
  have hloaded : ∀ n, ComesTo E s s n → E.passesLookahead (E.heap n) s = true →
      ∃ t ∈ as, t.ip = n := by
    intro n hn hpasses
    rcases hqueues.covers n ((comesTo_start_iff hle).mp hn) hpasses with ⟨t, ht, htn⟩ | ⟨-, hstamp⟩
    · exact ⟨t, by simpa using ht, htn⟩
    · have := hunused.stamps (E.heap n).id
      have := E.line.one_lt_buffer
      omega
  exact {
    curPos := hqueues.frame.curPos.trans hpos
    inputPointer := hinput
    start := hge
    le := le_rfl
    inside := hle
    idle := idle_hold_shiftActive _ _
    queued := fun t ht => by
      by_cases hkind : (E.heap t.ip).type = .accepting
      · exact .inr ⟨hkind, s, hcame t (hactive ▸ ht)⟩
      · exact .inl ⟨hkind, hcame t (hactive ▸ ht)⟩
    waiting := fun t ht => by
      rw [hwaiting] at ht
      cases ht
    reads := fun m hm hreads => by
      rw [hactive]
      exact .inl (hloaded m hm (passesLookahead_of_reads hreads).2)
    seen := fun q hq haccepted => by
      obtain ⟨n, hn, hkind⟩ := haccepted
      obtain rfl := le_antisymm hq hn.le
      obtain ⟨t, ht, rfl⟩ := hloaded n hn (by simp [Env.passesLookahead, hkind])
      exact .inr ⟨t, hactive ▸ ht, hkind, hcame t ht⟩
    best := .inl (hqueues.frame.curMatch.trans hmatch)
    run := fun h => by
      have h' : st.currentRun = true := h
      rw [hrun] at h'
      cases h'
    stamps := fun id hid => by
      have hsame : (st.hold d.shiftActive).ctrl.activeThreadsSp = d.activeThreadsSp := rfl
      rw [hsame] at hid ⊢
      rcases hqueues.stamps id with hkept | ⟨hstamp, t, ht, -, htid⟩
      · rw [hkept, hunused.stamps id] at hid
        exact absurd rfl hid
      · exact .inl ⟨hstamp, t, hactive ▸ by simpa using ht, htid⟩
    pool := by
      rw [hactive]
      rcases hqueues.pool hunused.pool with hpool | hqueued
      · exact .inl hpool
      · exact .inr (.inl (by simpa using hqueued))
    found := by
      change st.matchFound = (st.matchFound || st.currentRun)
      rw [hrun, Bool.or_false]
    reported := hqueues.frame.reports }

end Recognizer
