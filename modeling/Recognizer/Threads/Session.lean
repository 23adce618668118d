import Recognizer.Run.Captures
import Recognizer.Threads.Run

/-!
# The life of the linked threads

The states a simulator with linked threads reaches on any lines are states of the simulator on
lists of values. In each of them every thread that was allocated is in exactly one place, and
there is always one in the pool when another attempt begins. After the last line all of them
are in the pool, and `free_nfa_sim` frees each of them once.
-/

namespace Recognizer

open Lockstep ThreadMem TransitionSystem

variable {E : Env} {L : Line → Prop} {fuel : Nat} {m : ThreadMem} {t : ThreadRun} {line : Line}

/-- Where a simulator with linked threads is: between two lines, or in `run_nfa` on a line. -/
inductive ThreadPhase where
  | idle (m : ThreadMem)
  | busy (line : Line) (o : ThreadRun.Outcome)

/-- The steps of a simulator with linked threads that is fed lines from `L`. -/
inductive ThreadStep (E : Env) (L : Line → Prop) : ThreadPhase → ThreadPhase → Prop where
  | start {line : Line} {m : ThreadMem} {fuel : Nat} {o : ThreadRun.Outcome} (hline : L line)
      (h : ThreadRun.startRun (E.onLine line) fuel
        (m.onCtrl fun c => resetNfaSim line { c with reports := [] }) = some o) :
    ThreadStep E L (.idle m) (.busy line o)
  | round {line : Line} {t : ThreadRun} {fuel : Nat} {o : ThreadRun.Outcome}
      (h : ThreadRun.runStep (E.onLine line) fuel t = some o) :
    ThreadStep E L (.busy line (.running t)) (.busy line o)
  | finish {line : Line} {t : ThreadRun} :
    ThreadStep E L (.busy line (.released t)) (.idle (t.finishRun (E.onLine line)).2)

/-- The session of a new simulator with linked threads. -/
def threadSession (E : Env) (L : Line → Prop) : System ThreadPhase where
  init p := p = .idle (ThreadMem.newNfaSim E)
  step := ThreadStep E L

/-- Both simulators are at the same place. -/
inductive SamePhase : Phase → ThreadPhase → Prop where
  | idle {ctrl : NFASimCtrl} {m : ThreadMem} (h : AtRest m ctrl) : SamePhase (.idle ctrl) (.idle m)
  | busy {line : Line} {o : Outcome} {o' : ThreadRun.Outcome} (h : ThreadRun.SameOutcome o o') :
    SamePhase (.busy line o) (.busy line o')

/-- A step with linked threads is a step with lists of values. -/
theorem SamePhase.step {p : Phase} {q q' : ThreadPhase} (h : SamePhase p q)
    (hstep : ThreadStep E L q q') : ∃ p', SimStep E L p p' ∧ SamePhase p' q' := by
  cases hstep with
  | @start line m fuel o hline hstart =>
    cases h with
    | idle h =>
      have hrel := ThreadRun.startRun_sameOutcome (E.onLine line) fuel (h.represents.freshLine line)
      rw [hstart] at hrel
      obtain ⟨o, ho, hsame⟩ := rel_some_right hrel
      exact ⟨_, .start hline ho, .busy hsame⟩
  | @round line t fuel o hround =>
    cases h with
    | busy h =>
      cases h with
      | running h =>
        have hrel := h.runStep (E.onLine line) fuel
        rw [hround] at hrel
        obtain ⟨o, ho, hsame⟩ := rel_some_right hrel
        exact ⟨_, .round ho, .busy hsame⟩
  | @finish line t =>
    cases h with
    | busy h =>
      cases h with
      | released h => exact ⟨_, .finish, .idle (h.finishRun (E.onLine line)).2⟩

/-- A session with linked threads is a session with lists of values. -/
theorem reachable_samePhase {q : ThreadPhase} (h : Reachable (threadSession E L) q) :
    ∃ p, Reachable (session E L) p ∧ SamePhase p q := by
  refine reachable_matched ?_ (fun _ _ _ hsame hstep => hsame.step hstep) h
  rintro _ rfl
  exact ⟨_, rfl, .idle (atRest_newNfaSim E)⟩

/-- All threads are linked into the pool. -/
def ThreadMem.AllPooled (m : ThreadMem) : Prop :=
  ∃ pooled, Placed m [] (Function.update (fun _ => []) .pool pooled)

theorem AtRest.allPooled {ctrl : NFASimCtrl} (h : AtRest m ctrl) : m.AllPooled := by
  obtain ⟨xs, hshows⟩ := h.represents
  have hactive : xs .active = [] :=
    List.map_eq_nil_iff.mp (hshows.activeThreads.symm.trans h.activeThreads)
  have hnext : xs .next = [] :=
    List.map_eq_nil_iff.mp (hshows.nextThreads.symm.trans h.nextThreads)
  have hxs : xs = Function.update (fun _ => []) .pool (xs .pool) := by
    funext l
    cases l
    · rfl
    · exact hactive
    · exact hnext
  exact ⟨xs .pool, hxs ▸ hshows.placed⟩

/-- On any lines the linked threads find what lists of values find, and go back to the pool. -/
theorem runLines_linked (E : Env) (fuel : Nat) (lines : List Line) :
    Option.Rel (fun a b => b.1 = a.1 ∧ b.2.AllPooled)
      (runLines E fuel lines (newNfaSim E))
      (ThreadMem.runLines E fuel lines (ThreadMem.newNfaSim E)) :=
  rel_imp (runLines_atRest E fuel lines (atRest_newNfaSim E)) fun _ _ h => ⟨h.1, h.2.allPooled⟩

/-- At the head of a loop every thread is in one place; the active list has run empty once no
thread is held, and when none waits either, all threads are in the pool. -/
theorem ThreadRun.Ready.places {s : RunState} (h : ThreadRun.Ready s t) :
    ∃ xs, Placed t.mem (inVariable t.thread) xs ∧ (t.thread = 0 → xs .active = []) ∧
      (t.thread = 0 → (t.mem.lists .next).head = 0 → (t.mem.lists .pool).head ≠ 0) := by
  obtain ⟨xs, hshows⟩ := h.represents
  have hactive : t.thread = 0 → xs .active = [] := fun hzero =>
    List.map_eq_nil_iff.mp (hshows.activeThreads.symm.trans (h.drained hzero))
  refine ⟨xs, hshows.placed, hactive, fun hzero hnext hpool => ?_⟩
  have hnone := hshows.placed.places_ne_nil
  apply hnone
  simp [ThreadMem.places, inVariable, hzero, hactive hzero,
    (hshows.placed.head_eq_zero_iff .next).mp hnext,
    (hshows.placed.head_eq_zero_iff .pool).mp hpool]

/-- Whenever `run_nfa` is at the head of a loop, every thread is in exactly one place, and the
pool is not empty when another attempt begins. -/
theorem threads_in_one_place (h : Reachable (threadSession E L) (.busy line (.running t))) :
    ∃ xs, Placed t.mem (inVariable t.thread) xs ∧ (t.thread = 0 → xs .active = []) ∧
      (t.thread = 0 → (t.mem.lists .next).head = 0 → (t.mem.lists .pool).head ≠ 0) := by
  obtain ⟨p, -, hsame⟩ := reachable_samePhase h
  cases hsame with
  | busy hsame =>
    cases hsame with
    | running hready => exact hready.places

/-- What a round leads to when no thread waits: another attempt. -/
def attemptsAgain : ThreadRun.Outcome → Bool
  | .running t => decide (t.thread = 0 ∧ (t.mem.lists .next).head = 0)
  | .released _ => false

/-- The first attempt on a line that begins with another letter loads no thread. -/
theorem threads_in_one_place_letter : ∃ t,
    Reachable (threadSession letterAgain Line.NulFree) (.busy (lineOf "ba") (.running t)) ∧
      t.thread = 0 ∧ (t.mem.lists .next).head = 0 ∧ (t.mem.lists .pool).head ≠ 0 := by
  have h : (ThreadRun.startRun (letterAgain.onLine (lineOf "ba")) 10
      ((ThreadMem.newNfaSim letterAgain).onCtrl fun c =>
        resetNfaSim (lineOf "ba") { c with reports := [] })).map attemptsAgain = some true := by
    decide +kernel
  obtain ⟨o, hstart, hagain⟩ := Option.map_eq_some_iff.mp h
  cases o with
  | released t => simp [attemptsAgain] at hagain
  | running t =>
    obtain ⟨hzero, hnext⟩ := of_decide_eq_true hagain
    have hreach : Reachable (threadSession letterAgain Line.NulFree)
        (.busy (lineOf "ba") (.running t)) :=
      (Reachable.init rfl).step (.start (show ∀ c ∈ bytes "ba", c ≠ 0 by decide) hstart)
    obtain ⟨_, _, _, hpool⟩ := threads_in_one_place hreach
    exact ⟨t, hreach, hzero, hnext, hpool hzero hnext⟩

/-- The position and the memory with which `run_nfa` calls `reset_thread`. -/
def ThreadRun.resetArguments (E : Env) (t : ThreadRun) : Nat × ThreadMem :=
  let m := if E.flags.lineOrInvert then t.mem else t.mem.onCtrl (newMatch E)
  let (pos, ctrl) := updateInputPointer E t.currentRun t.inputPointer m.ctrl
  (pos, { m with ctrl := beginAttempt ctrl pos })

/-- Another attempt is a call of `reset_thread` with these arguments. -/
theorem ThreadRun.restart_eq (E : Env) (fuel : Nat) (t : ThreadRun) :
    t.restart E fuel =
      (ThreadMem.resetThread E fuel (t.resetArguments E).1 (t.resetArguments E).2).map fun p =>
        testInput E ((t.moveTo (t.resetArguments E).1).hold p) := by
  unfold restart resetArguments
  dsimp only
  split
  · next hreset => rw [hreset, Option.map_none]
  · next hreset => rw [hreset, Option.map_some]

/-- `reset_thread` finds the lists of the threads as the round left them. -/
theorem ThreadRun.resetArguments_lists (E : Env) (t : ThreadRun) :
    (t.resetArguments E).2.lists = t.mem.lists := by
  unfold resetArguments
  dsimp only
  split <;> rfl

/-- Where the threads are in a phase. In `run_nfa` each is in one of the lists or in the variable,
in no two of them, and `reset_thread` is not called with an empty pool; between two lines all of
them are in the pool. -/
def ThreadPhase.Partitioned (E : Env) : ThreadPhase → Prop
  | .idle m => m.AllPooled
  | .busy line (.running t) =>
    (∃ xs, Placed t.mem (inVariable t.thread) xs) ∧
      (t.thread = 0 → (t.mem.lists .next).head = 0 →
        ((t.resetArguments (E.onLine line)).2.lists .pool).head ≠ 0)
  | .busy _ (.released t) => ∃ xs, Placed t.mem (inVariable t.thread) xs

/-- **Every thread is in exactly one place.** In every state of a session on any lines the threads
that were allocated are divided among the pool, the active list, the next list and the thread
variable, each list being linked from its head to its tail; all of them are in the pool when
`run_nfa` has returned, and `reset_thread` never fails for the want of one. -/
theorem threads_partitioned {q : ThreadPhase} (h : Reachable (threadSession E L) q) :
    q.Partitioned E := by
  obtain ⟨p, -, hsame⟩ := reachable_samePhase h
  cases hsame with
  | idle hrest => exact hrest.allPooled
  | busy hsame =>
    cases hsame with
    | running hready =>
      obtain ⟨xs, hplaced, -, hpool⟩ := hready.places
      refine ⟨⟨xs, hplaced⟩, fun hzero hnext => ?_⟩
      rw [ThreadRun.resetArguments_lists]
      exact hpool hzero hnext
    | released htracks =>
      obtain ⟨xs, hshows⟩ := htracks.represents
      exact ⟨xs, hshows.placed⟩

/-- The first `k` rounds of `run_nfa` on a line, from a new simulator. -/
def ThreadRun.rounds (E : Env) (fuel : Nat) (line : Line) : Nat → Option ThreadRun.Outcome
  | 0 => ThreadRun.startRun (E.onLine line) fuel
      ((ThreadMem.newNfaSim E).onCtrl fun c => resetNfaSim line { c with reports := [] })
  | k + 1 =>
    match ThreadRun.rounds E fuel line k with
    | some (.running t) => ThreadRun.runStep (E.onLine line) fuel t
    | o => o

/-- The rounds that are computed from a new simulator belong to its session. -/
theorem ThreadRun.reachable_rounds (hline : L line) {k : Nat} {o : ThreadRun.Outcome}
    (h : ThreadRun.rounds E fuel line k = some o) :
    Reachable (threadSession E L) (.busy line o) := by
  induction k generalizing o with
  | zero => exact (Reachable.init rfl).step (.start hline h)
  | succ k ih =>
    simp only [ThreadRun.rounds] at h
    split at h
    · next heq => exact (ih heq).step (.round h)
    · exact ih h

/-- A thread is held, another one is active and a third one is in the pool. -/
def usesThreePlaces : ThreadRun.Outcome → Bool
  | .running t => decide (t.thread ≠ 0 ∧ (t.mem.lists .active).head ≠ 0 ∧
      (t.mem.lists .pool).head ≠ 0)
  | .released _ => false

/-- The loops of `run_nfa` have been left. -/
def leftLoops : ThreadRun.Outcome → Bool
  | .running _ => false
  | .released _ => true

/-- Three threads on a line whose first letter starts no match: in the second attempt they are in
three places, and the next round leaves the loops. -/
theorem threads_partitioned_letters : ∃ t m,
    Reachable (threadSession letterAgainOr Line.NulFree) (.busy (lineOf "baz") (.running t)) ∧
      t.thread ≠ 0 ∧ (t.mem.lists .active).head ≠ 0 ∧ (t.mem.lists .pool).head ≠ 0 ∧
      (∃ xs, Placed t.mem (inVariable t.thread) xs) ∧
      Reachable (threadSession letterAgainOr Line.NulFree) (.idle m) ∧ m.AllPooled := by
  have hline : (lineOf "baz").NulFree := show ∀ c ∈ bytes "baz", c ≠ 0 by decide
  have hplaces : (ThreadRun.rounds letterAgainOr 20 (lineOf "baz") 8).map usesThreePlaces =
      some true := by
    decide +kernel
  have hleft : (ThreadRun.rounds letterAgainOr 20 (lineOf "baz") 9).map leftLoops = some true := by
    decide +kernel
  obtain ⟨o, hround, huses⟩ := Option.map_eq_some_iff.mp hplaces
  obtain ⟨o', hround', hreleased⟩ := Option.map_eq_some_iff.mp hleft
  cases o with
  | released t => simp [usesThreePlaces] at huses
  | running t =>
    cases o' with
    | running t' => simp [leftLoops] at hreleased
    | released t' =>
      obtain ⟨hthread, hactive, hpool⟩ := of_decide_eq_true huses
      have hreach := ThreadRun.reachable_rounds hline hround
      have hidle := (ThreadRun.reachable_rounds hline hround').step .finish
      exact ⟨t, _, hreach, hthread, hactive, hpool, (threads_partitioned hreach).1, hidle,
        threads_partitioned hidle⟩

/-- The pool is taken apart from its front. -/
private theorem freePool_spec {held ps : List Nat} {xs : ThreadList → List Nat}
    (h : Placed m held xs) (hps : xs .pool = ps) (hfuel : ps.length < fuel) :
    ∃ m', freePool fuel m = some (ps, m') := by
  induction ps generalizing m held xs fuel with
  | nil =>
    cases fuel with
    | zero => exact absurd hfuel (Nat.not_lt_zero _)
    | succ fuel =>
      refine ⟨m, ?_⟩
      unfold freePool
      rw [h.shift_nil hps]
      rfl
  | cons a ps ih =>
    cases fuel with
    | zero => exact absurd hfuel (Nat.not_lt_zero _)
    | succ fuel =>
      obtain ⟨hfirst, hplaced⟩ := h.shift hps
      obtain ⟨m', hrest⟩ := ih hplaced (Function.update_self ThreadList.pool ps xs)
        (Nat.lt_of_succ_lt_succ hfuel)
      refine ⟨m', ?_⟩
      unfold freePool
      dsimp only
      rw [hfirst, if_pos hplaced.held_ne_zero, hrest]

/-- Between two lines `free_nfa_sim` frees every thread, each of them once. -/
theorem ThreadMem.AllPooled.freed (h : m.AllPooled) :
    ∃ freed, m.freeNfaSim (m.allocated + 1) = some freed ∧
      freed.Perm (List.range' 1 m.allocated) := by
  obtain ⟨pooled, h⟩ := h
  have hidle : Placed m (inVariable 0) (Function.update (fun _ => []) .pool pooled) := h
  have hperm : pooled.Perm (List.range' 1 m.allocated) := by
    simpa [places] using h.perm
  have hfuel : pooled.length < m.allocated + 1 := by
    rw [hperm.length_eq, List.length_range']
    omega
  obtain ⟨m', hfreed⟩ := freePool_spec hidle.releaseAllThreads
    (by simp [inVariable]) hfuel
  refine ⟨pooled, ?_, hperm⟩
  unfold freeNfaSim
  dsimp only
  rw [hfreed]
  split
  · rfl
  · next hhead =>
    have hempty := (hidle.releaseAllThreads.head_eq_zero_iff .pool).mp (not_not.mp hhead)
    have hnil : pooled = [] := by simpa [inVariable] using hempty
    rw [hnil]

/-- After any lines `free_nfa_sim` frees every thread `xmalloc` has returned, each of them
once. -/
theorem threads_freed_once (E : Env) (fuel : Nat) (lines : List Line)
    {results : List (Bool × List Match)}
    (h : ThreadMem.runLines E fuel lines (ThreadMem.newNfaSim E) = some (results, m)) :
    ∃ freed, m.freeNfaSim (m.allocated + 1) = some freed ∧
      freed.Perm (List.range' 1 m.allocated) := by
  have hrel := runLines_atRest E fuel lines (atRest_newNfaSim E)
  rw [h] at hrel
  obtain ⟨_, _, _, hrest⟩ := rel_some_right hrel
  exact hrest.allPooled.freed

/-- Two lines of a captured letter. -/
theorem threads_freed_once_letters : ∃ results m,
    ThreadMem.runLines letterAgain 20 [lineOf "aa", lineOf "ba"]
        (ThreadMem.newNfaSim letterAgain) = some (results, m) ∧
      ∃ freed, m.freeNfaSim (m.allocated + 1) = some freed ∧
        freed.Perm (List.range' 1 m.allocated) := by
  have h : (ThreadMem.runLines letterAgain 20 [lineOf "aa", lineOf "ba"]
      (ThreadMem.newNfaSim letterAgain)).isSome = true := by
    decide +kernel
  obtain ⟨⟨results, m⟩, hrun⟩ := Option.isSome_iff_exists.mp h
  exact ⟨results, m, hrun, threads_freed_once letterAgain 20 _ hrun⟩

end Recognizer
