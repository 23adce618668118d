import Mathlib.Data.List.GetD
import Recognizer.Source.Simulator

/-!
# The invariant rule for loading a thread

`load_next`, `process_adjacents` and `thread_clone` change the control block and
hand a thread on from node to node. A `LoadRule` names an invariant `I` of the
control block, a condition `T` on a thread about to be loaded at a node, and a
condition `R` on a thread that comes back; its fields are the single moves of a
load. They may assume a condition `Ok` on the history of the control block, which
only grows. The rule is proved by induction on the nesting of the calls.
-/

namespace Recognizer

variable {E : Env} {load : Loader} {dst : Dst} {la : Nat}
  {Ok I : NFASimCtrl → Prop} {T : NFASim → Addr → Prop} {R : NFASim → Prop}

/-- The history of one control block continues that of another. -/
structure Extends (c d : NFASimCtrl) : Prop where
  acquired : c.acquired <+: d.acquired
  dropped : c.dropped <+: d.dropped

namespace Extends

/-- The history of a control block extends itself. -/
@[refl] theorem refl (c : NFASimCtrl) : Extends c c := ⟨List.prefix_rfl, List.prefix_rfl⟩

/-- Extensions of the history compose. -/
theorem trans {a b c : NFASimCtrl} (h : Extends a b) (h' : Extends b c) : Extends a c :=
  ⟨h.1.trans h'.1, h.2.trans h'.2⟩

/-- A write that leaves both histories extends them. -/
theorem of_eq {c d : NFASimCtrl} (ha : d.acquired = c.acquired) (hd : d.dropped = c.dropped) :
    Extends c d :=
  ⟨ha ▸ List.prefix_rfl, hd ▸ List.prefix_rfl⟩

/-- Queueing a thread leaves the histories. -/
theorem append (c : NFASimCtrl) (dst : Dst) (sim : NFASim) : Extends c (c.append dst sim) := by
  cases dst <;> exact of_eq rfl rfl

/-- Taking a thread records one acquisition more. -/
theorem acquire (c : NFASimCtrl) (source : Option NFASim) : Extends c (c.acquire source) :=
  ⟨List.prefix_append .., List.prefix_rfl⟩

/-- Returning a thread to the pool leaves the histories. -/
theorem release (c : NFASimCtrl) (sim : NFASim) : Extends c (c.release sim) := of_eq rfl rfl

/-- Stamping a node leaves the histories. -/
theorem stamp (c : NFASimCtrl) (id pos : Nat) : Extends c (c.stamp id pos) := of_eq rfl rfl

/-- Moving the cursor of an interval leaves the histories. -/
theorem setCursor (c : NFASimCtrl) (nfa : Addr) (i : Int) : Extends c (c.setCursor nfa i) :=
  of_eq rfl rfl

/-- Noting where an interval was passed leaves the histories. -/
theorem setIntervalPos (c : NFASimCtrl) (p : Nat) : Extends c (c.setIntervalPos p) :=
  of_eq rfl rfl

/-- A dropped thread is recorded as one drop more. -/
theorem noteDrop (c : NFASimCtrl) (sim : NFASim) (nfa : Addr) (la : Nat) :
    Extends c (c.noteDrop sim nfa la) :=
  ⟨List.prefix_rfl, List.prefix_append ..⟩

end Extends

/-- What the moves of a load with a fixed destination and lookahead preserve. -/
structure LoadRule (E : Env) (dst : Dst) (la : Nat) (Ok I : NFASimCtrl → Prop)
    (T : NFASim → Addr → Prop) (R : NFASim → Prop) : Prop where
  mono : ∀ {c d}, Extends c d → Ok d → Ok c
  clone : ∀ {sim n ctrl}, T sim n → I ctrl → Ok (ctrl.acquire (some sim)) →
    T (cloneMemory ctrl.threadPool.head? sim n) n ∧ I (ctrl.acquire (some sim))
  release : ∀ {sim ctrl}, R sim → sim.status = -1 → I ctrl → Ok ctrl → I (ctrl.release sim)
  cursor : ∀ {ctrl} (nfa : Addr) (i : Int), I ctrl → Ok ctrl → I (ctrl.setCursor nfa i)
  intervalPos : ∀ {ctrl} (p : Nat), I ctrl → Ok ctrl → I (ctrl.setIntervalPos p)
  groupBegin : ∀ {sim nfa}, T sim nfa → (E.heap nfa).type = .capturegrpBegin →
    ∀ n ∈ (E.heap nfa).reachable, T (beginGroup (visit sim nfa la) (E.heap nfa).id la) n
  groupEnd : ∀ {sim nfa}, T sim nfa → (E.heap nfa).type = .capturegrpEnd →
    ∀ n ∈ (E.heap nfa).reachable, T (endGroup (visit sim nfa la) (E.heap nfa).id la) n
  interval : ∀ {sim nfa}, T sim nfa → (E.heap nfa).type = .interval →
    ∀ n ∈ (E.heap nfa).reachable, ∀ (count tracking loops : Int),
      T { visit sim nfa la with
            loopRecord := Function.update sim.loopRecord (E.heap nfa).id count
            trackingIntervals := tracking, intervalCount := loops } n
  accepting : ∀ {sim nfa ctrl}, T sim nfa → (E.heap nfa).type = .accepting → I ctrl → Ok ctrl →
    I (ctrl.append .active (settle (visit sim nfa la) nfa)) ∧ R (settle (visit sim nfa la) nfa)
  queue : ∀ {sim nfa ctrl}, T sim nfa → (E.heap nfa).type ≠ .capturegrpBegin →
    (E.heap nfa).type ≠ .capturegrpEnd → (E.heap nfa).type ≠ .interval →
    (E.heap nfa).type ≠ .accepting → I ctrl → Ok ctrl →
    sim.trackingIntervals ≠ 0 ∨ ctrl.activeThreadsSp (E.heap nfa).id ≠ la →
    E.passesLookahead (E.heap nfa) la = true →
    I ((ctrl.stamp (E.heap nfa).id la).append dst (settle (visit sim nfa la) nfa)) ∧
      R (settle (visit sim nfa la) nfa)
  mismatch : ∀ {sim nfa}, T sim nfa → R (setStatus (visit sim nfa la) (-1))
  drop : ∀ {sim nfa ctrl}, T sim nfa → I ctrl → sim.trackingIntervals = 0 →
    ctrl.activeThreadsSp (E.heap nfa).id = la →
    Ok (ctrl.noteDrop (visit sim nfa la) nfa la) → I (ctrl.noteDrop (visit sim nfa la) nfa la)

/-- What a rule says of a loader. -/
def Loads (load : Loader) (dst : Dst) (la : Nat) (Ok I : NFASimCtrl → Prop)
    (T : NFASim → Addr → Prop) (R : NFASim → Prop) : Prop :=
  ∀ sim nfa ctrl sim' ctrl', load sim nfa dst la ctrl = some (sim', ctrl') →
    Extends ctrl ctrl' ∧ (T sim nfa → I ctrl → Ok ctrl' → I ctrl' ∧ R sim')

namespace LoadRule

variable (rule : LoadRule E dst la Ok I T R) (hload : Loads load dst la Ok I T R)

include rule hload

/-- `thread_clone` follows the rule: the clone loads its node, or goes back to the pool. -/
theorem threadClone {sim : NFASim} {n : Addr} {ctrl ctrl' : NFASimCtrl}
    (h : Recognizer.threadClone E load n sim dst la ctrl = some ctrl') :
    Extends ctrl ctrl' ∧ (T sim n → I ctrl → Ok ctrl' → I ctrl') := by
  unfold Recognizer.threadClone at h
  split at h
  · simp only [acquireClone] at h
    split at h
    · simp at h
    · rename_i sim' ctrl₁ heq
      obtain ⟨hext, hr⟩ := hload _ _ _ _ _ heq
      have hacq : Extends ctrl ctrl₁ := (Extends.acquire ..).trans hext
      have hone : T sim n → I ctrl → Ok ctrl₁ → I ctrl₁ ∧ R sim' := by
        intro ht hi hok
        obtain ⟨hclone, hi'⟩ := rule.clone ht hi (rule.mono hext hok)
        exact hr hclone hi' hok
      simp only [Option.some.injEq] at h
      subst h
      split
      · rename_i hstatus
        refine ⟨hacq.trans (.release ..), fun ht hi hok => ?_⟩
        have hok₁ := rule.mono (.release ..) hok
        obtain ⟨h₁, hr'⟩ := hone ht hi hok₁
        exact rule.release hr' hstatus h₁ hok₁
      · exact ⟨hacq, fun ht hi hok => (hone ht hi hok).1⟩
  · simp only [Option.some.injEq] at h
    exact h ▸ ⟨.refl _, fun _ hi _ => hi⟩

/-- The clones for a list of nodes follow the rule, by induction on the list. -/
theorem cloneEach {sim : NFASim} {xs : List Addr} {ctrl ctrl' : NFASimCtrl}
    (h : Recognizer.cloneEach E load sim dst la xs ctrl = some ctrl') :
    Extends ctrl ctrl' ∧ ((∀ n ∈ xs, T sim n) → I ctrl → Ok ctrl' → I ctrl') := by
  induction xs generalizing ctrl with
  | nil =>
    simp only [Recognizer.cloneEach, Option.some.injEq] at h
    exact h ▸ ⟨.refl _, fun _ hi _ => hi⟩
  | cons n xs ih =>
    simp only [Recognizer.cloneEach] at h
    split at h
    · simp at h
    · rename_i ctrl₁ heq
      obtain ⟨hext₁, h₁⟩ := rule.threadClone hload heq
      obtain ⟨hext, hrest⟩ := ih h
      refine ⟨hext₁.trans hext, fun ht hi hok => ?_⟩
      exact hrest (fun m hm => ht m (by simp [hm])) (h₁ (ht n (by simp)) hi (rule.mono hext hok)) hok

omit rule in
/-- The load of the thread itself follows the rule and answers as the rule says. -/
theorem loadAt {sim sim' : NFASim} {xs : List Addr} {i : Nat} {ctrl ctrl' : NFASimCtrl}
    (h : Recognizer.loadAt load sim xs i dst la ctrl = some (sim', ctrl')) :
    Extends ctrl ctrl' ∧ ((∀ n ∈ xs, T sim n) → I ctrl → Ok ctrl' → I ctrl' ∧ R sim') := by
  unfold Recognizer.loadAt at h
  split at h
  · simp at h
  · rename_i n heq
    obtain ⟨hext, hr⟩ := hload _ _ _ _ _ h
    exact ⟨hext, fun ht => hr (ht n (List.mem_of_getElem? heq))⟩

/-- `process_adjacents` follows the rule: clones for the nodes behind the first, then a load. -/
theorem processAdjacents {sim sim' : NFASim} {nfa : Addr} {ctrl ctrl' : NFASimCtrl}
    (h : Recognizer.processAdjacents E load sim nfa dst la ctrl = some (sim', ctrl')) :
    Extends ctrl ctrl' ∧
      ((∀ n ∈ (E.heap nfa).reachable, T sim n) → I ctrl → Ok ctrl' → I ctrl' ∧ R sim') := by
  unfold Recognizer.processAdjacents at h
  simp only at h
  split at h
  · simp at h
  · rename_i ctrl₁ heq
    obtain ⟨hext₁, h₁⟩ := rule.cloneEach hload heq
    obtain ⟨hext, hr⟩ := loadAt hload h
    refine ⟨hext₁.trans hext, fun ht hi hok => hr ht ?_ hok⟩
    exact h₁ (fun n hn => ht n (List.mem_of_mem_tail hn)) hi (rule.mono hext hok)

/-- The loop of `list_for_each` follows the rule, by induction on its budget. -/
theorem forEachLoop {sim : NFASim} {nfa : Addr} {finish k : Nat} {ctrl ctrl' : NFASimCtrl}
    (h : Recognizer.forEachLoop E load nfa finish sim dst la k ctrl = some ctrl') :
    Extends ctrl ctrl' ∧
      ((∀ n ∈ (E.heap nfa).reachable, T sim n) → I ctrl → Ok ctrl' → I ctrl') := by
  induction k generalizing ctrl with
  | zero => simp [Recognizer.forEachLoop] at h
  | succ k ih =>
    simp only [Recognizer.forEachLoop] at h
    split at h
    · simp only [Option.some.injEq] at h
      exact h ▸ ⟨.refl _, fun _ hi _ => hi⟩
    · rename_i hidx
      have hlt : (ctrl.iterIdx nfa).toNat < (E.heap nfa).reachable.length := by omega
      have hmem : (E.heap nfa).reachable.getD (ctrl.iterIdx nfa).toNat 0 ∈
          (E.heap nfa).reachable := by
        rw [List.getD_eq_getElem _ _ hlt]
        exact List.getElem_mem hlt
      split at h
      · split at h
        · simp at h
        · rename_i ctrl₁ heq
          obtain ⟨hext₁, h₁⟩ := rule.threadClone hload heq
          obtain ⟨hext, hrest⟩ := ih h
          have hmove := (Extends.setCursor ctrl nfa (ctrl.iterIdx nfa + 1)).trans hext₁
          refine ⟨hmove.trans hext, fun ht hi hok => hrest ht ?_ hok⟩
          have hok₁ := rule.mono hext hok
          exact h₁ (ht _ hmem) (rule.cursor _ _ hi (rule.mono hmove hok₁)) hok₁
      · simp only [Option.some.injEq] at h
        subst h
        exact ⟨.setCursor .., fun _ hi hok => rule.cursor _ _ hi (rule.mono (.setCursor ..) hok)⟩

/-- `list_for_each` over a slice of the reachable list follows the rule. -/
theorem forEach {sim : NFASim} {nfa : Addr} {fuel start finish : Nat} {ctrl ctrl' : NFASimCtrl}
    (h : Recognizer.forEach E load fuel nfa start finish sim dst la ctrl = some ctrl') :
    Extends ctrl ctrl' ∧
      ((∀ n ∈ (E.heap nfa).reachable, T sim n) → I ctrl → Ok ctrl' → I ctrl') := by
  obtain ⟨hext, hrest⟩ := rule.forEachLoop hload h
  unfold setIterator at hext hrest
  split at hext
  · rename_i hlen
    rw [if_pos hlen] at hrest
    exact ⟨hext, hrest⟩
  · rename_i hlen
    rw [if_neg hlen] at hrest
    have hmove := (Extends.setCursor ctrl nfa start).trans hext
    exact ⟨hmove, fun ht hi hok => hrest ht (rule.cursor _ _ hi (rule.mono hmove hok)) hok⟩

/-- Clones for a slice of the list, then the thread itself at an index of it. -/
theorem forEach_loadAt {sim sim₁ sim' : NFASim} {nfa : Addr} {fuel start finish i : Nat}
    {ctrl ctrl' : NFASimCtrl}
    (h : (match Recognizer.forEach E load fuel nfa start finish sim dst la ctrl with
      | none => none
      | some ctrl => Recognizer.loadAt load sim₁ (E.heap nfa).reachable i dst la ctrl) =
        some (sim', ctrl')) :
    Extends ctrl ctrl' ∧ ((∀ n ∈ (E.heap nfa).reachable, T sim n) →
      (∀ n ∈ (E.heap nfa).reachable, T sim₁ n) → I ctrl → Ok ctrl' → I ctrl' ∧ R sim') := by
  split at h
  · simp at h
  · rename_i ctrl₁ heq
    obtain ⟨hext₁, h₁⟩ := rule.forEach hload heq
    obtain ⟨hext, hr⟩ := loadAt hload h
    exact ⟨hext₁.trans hext, fun ht ht₁ hi hok => hr ht₁ (h₁ ht hi (rule.mono hext hok)) hok⟩

/-- Leaving an interval follows the rule. -/
theorem loadExit {sim sim' : NFASim} {nfa : Addr} {fuel : Nat} {ctrl ctrl' : NFASimCtrl}
    (h : Recognizer.loadExit E load fuel sim nfa dst la ctrl = some (sim', ctrl')) :
    Extends ctrl ctrl' ∧
      ((∀ n ∈ (E.heap nfa).reachable, T sim n) → I ctrl → Ok ctrl' → I ctrl' ∧ R sim') := by
  obtain ⟨hext, hr⟩ := rule.forEach_loadAt hload h
  exact ⟨hext, fun ht => hr ht ht⟩

/-- Clones for the loop part of an interval, then its exit. -/
theorem forEach_loadExit {sim sim₁ sim' : NFASim} {nfa : Addr} {fuel start finish : Nat}
    {ctrl ctrl' : NFASimCtrl}
    (h : (match Recognizer.forEach E load fuel nfa start finish sim dst la ctrl with
      | none => none
      | some ctrl => Recognizer.loadExit E load fuel sim₁ nfa dst la ctrl) =
        some (sim', ctrl')) :
    Extends ctrl ctrl' ∧ ((∀ n ∈ (E.heap nfa).reachable, T sim n) →
      (∀ n ∈ (E.heap nfa).reachable, T sim₁ n) → I ctrl → Ok ctrl' → I ctrl' ∧ R sim') := by
  split at h
  · simp at h
  · rename_i ctrl₁ heq
    obtain ⟨hext₁, h₁⟩ := rule.forEach hload heq
    obtain ⟨hext, hr⟩ := rule.loadExit hload h
    exact ⟨hext₁.trans hext, fun ht ht₁ hi hok => hr ht₁ (h₁ ht hi (rule.mono hext hok)) hok⟩

/-- The case of an interval follows the rule, whichever of its branches is taken. -/
theorem loadInterval {sim sim' : NFASim} {nfa : Addr} {fuel : Nat} {ctrl ctrl' : NFASimCtrl}
    (htype : (E.heap nfa).type = .interval)
    (h : Recognizer.loadInterval E load fuel (visit sim nfa la) nfa dst la ctrl =
      some (sim', ctrl')) :
    Extends ctrl ctrl' ∧ (T sim nfa → I ctrl → Ok ctrl' → I ctrl' ∧ R sim') := by
  -- every thread the case hands on differs from `sim` in its counters only
  have hsim : T sim nfa → ∀ count tracking loops : Int, ∀ n ∈ (E.heap nfa).reachable,
      T { visit sim nfa la with
            loopRecord := Function.update sim.loopRecord (E.heap nfa).id count
            trackingIntervals := tracking, intervalCount := loops } n :=
    fun ht count tracking loops n hn => rule.interval ht htype n hn count tracking loops
  unfold Recognizer.loadInterval at h
  simp only [track, setCount, Function.update_idem] at h
  split at h
  · obtain ⟨hext, hr⟩ := rule.forEach_loadAt hload h
    exact ⟨hext, fun ht => hr (hsim ht _ _ _) (hsim ht _ _ _)⟩
  · split at h
    · split at h
      · split at h
        · obtain ⟨hext, hr⟩ := rule.loadExit hload h
          exact ⟨hext, fun ht => hr (hsim ht _ _ _)⟩
        · obtain ⟨hext, hr⟩ := rule.forEach_loadExit hload h
          split at hext
          · rename_i hcycle
            rw [if_pos hcycle] at hr
            have hext₀ := (Extends.setIntervalPos ctrl la).trans hext
            refine ⟨hext₀, fun ht hi hok => hr (hsim ht _ _ _) (hsim ht _ _ _) ?_ hok⟩
            exact rule.intervalPos _ hi (rule.mono hext₀ hok)
          · rename_i hcycle
            rw [if_neg hcycle] at hr
            exact ⟨hext, fun ht => hr (hsim ht _ _ _) (hsim ht _ _ _)⟩
      · split at h
        · obtain ⟨hext, hr⟩ := rule.forEach_loadAt hload h
          exact ⟨hext, fun ht => hr (hsim ht _ _ _) (hsim ht _ _ _)⟩
        · obtain ⟨hext, hr⟩ := rule.loadExit hload h
          exact ⟨hext, fun ht => hr (hsim ht _ _ _)⟩
    · obtain ⟨hext, hr⟩ := rule.forEach_loadExit hload h
      refine ⟨hext, fun ht => hr (hsim ht _ _ _) ?_⟩
      split
      · exact hsim ht _ _ _
      · exact hsim ht _ _ _

omit hload in
/-- The default case of `load_next` follows the rule: the thread is queued or dropped. -/
theorem loadDefault (sim : NFASim) {nfa : Addr} (ctrl : NFASimCtrl)
    (hb : (E.heap nfa).type ≠ .capturegrpBegin) (he : (E.heap nfa).type ≠ .capturegrpEnd)
    (hv : (E.heap nfa).type ≠ .interval) (ha : (E.heap nfa).type ≠ .accepting) :
    Extends ctrl (Recognizer.loadDefault E (visit sim nfa la) nfa dst la ctrl).2 ∧
      (T sim nfa → I ctrl → Ok (Recognizer.loadDefault E (visit sim nfa la) nfa dst la ctrl).2 →
        I (Recognizer.loadDefault E (visit sim nfa la) nfa dst la ctrl).2 ∧
          R (Recognizer.loadDefault E (visit sim nfa la) nfa dst la ctrl).1) := by
  unfold Recognizer.loadDefault
  simp only
  split
  · rename_i hstamp
    split
    · have hext := (Extends.stamp ctrl (E.heap nfa).id la).trans
        (.append _ dst (settle (visit sim nfa la) nfa))
      exact ⟨hext, fun ht hi hok =>
        rule.queue ht hb he hv ha hi (rule.mono hext hok) hstamp ‹_›⟩
    · exact ⟨.refl _, fun ht hi _ => ⟨hi, rule.mismatch ht⟩⟩
  · rename_i hstamp
    obtain ⟨htrack, hsp⟩ := not_or.mp hstamp
    refine ⟨.noteDrop .., fun ht hi hok => ?_⟩
    exact ⟨rule.drop ht hi (not_not.mp htrack) (not_not.mp hsp) hok, rule.mismatch ht⟩

/-- One level of `load_next` follows the rule, one case for each type of node. -/
theorem loadNextBody (fuel : Nat) :
    Loads (Recognizer.loadNextBody E load fuel) dst la Ok I T R := by
  intro sim nfa ctrl sim' ctrl' h
  unfold Recognizer.loadNextBody at h
  simp only at h
  split at h
  · rename_i htype
    obtain ⟨hext, hr⟩ := rule.processAdjacents hload h
    exact ⟨hext, fun ht => hr (rule.groupBegin ht htype)⟩
  · rename_i htype
    obtain ⟨hext, hr⟩ := rule.processAdjacents hload h
    exact ⟨hext, fun ht => hr (rule.groupEnd ht htype)⟩
  · rename_i htype
    exact rule.loadInterval hload htype h
  · rename_i htype
    simp only [Option.some.injEq, Prod.mk.injEq] at h
    obtain ⟨rfl, rfl⟩ := h
    exact ⟨.append .., fun ht hi hok => rule.accepting ht htype hi (rule.mono (.append ..) hok)⟩
  · rename_i hb he hv ha
    simp only [Option.some.injEq] at h
    have hdefault := rule.loadDefault sim ctrl hb he hv ha
    rwa [h] at hdefault

omit hload in
/-- The rule holds of `load_next` at every budget. -/
theorem loadNext (fuel : Nat) : Loads (Recognizer.loadNext E fuel) dst la Ok I T R := by
  induction fuel with
  | zero =>
    intro sim nfa ctrl sim' ctrl' h
    simp [Recognizer.loadNext] at h
  | succ fuel ih => exact rule.loadNextBody ih fuel

end LoadRule

end Recognizer
