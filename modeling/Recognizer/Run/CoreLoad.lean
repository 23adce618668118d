import Recognizer.Load.Acquire
import Recognizer.Run.CoreAutomaton

/-!
# Loading threads without nested loads

At a node that reads a character or accepts, `load_next` calls nothing further, so a budget of
one is enough. What loads leave behind composes: the threads they queue come to the nodes that
pass the lookahead, but for those that were stamped with it before.
-/

namespace Recognizer

/-- What loads of a thread with the span `m` at some nodes do to the control block: they queue
the threads `as` and `ns`. -/
structure Queues (E : Env) (dst : Dst) (la : Nat) (m : Match) (nodes : List Addr)
    (c d : NFASimCtrl) (as ns : List NFASim) : Prop where
  active : d.activeThreads = c.activeThreads ++ as
  next : d.nextThreads = c.nextThreads ++ ns
  frame : SameFrame c d
  pool : c.threadPool ≠ [] → d.threadPool ≠ [] ∨ as ++ ns ≠ []
  comes : ∀ t ∈ as ++ ns, t.curMatch = m ∧ t.ip ∈ nodes
  activeKind : ∀ t ∈ as, dst = .active ∨ (E.heap t.ip).type = .accepting
  nextKind : ∀ t ∈ ns, dst = .next ∧ (E.heap t.ip).type ≠ .accepting
  covers : ∀ n ∈ nodes, E.passesLookahead (E.heap n) la = true →
    (∃ t ∈ as ++ ns, t.ip = n) ∨
      (E.heap n).type ≠ .accepting ∧ c.activeThreadsSp (E.heap n).id = la
  stamps : ∀ id, d.activeThreadsSp id = c.activeThreadsSp id ∨
    d.activeThreadsSp id = la ∧ ∃ t ∈ as ++ ns, (E.heap t.ip).type ≠ .accepting ∧
      (E.heap t.ip).id = id
  short : as.length ≤ nodes.length

variable {E : Env} {fuel la : Nat} {dst : Dst} {m : Match} {nodes nodes' : List Addr}
  {c d e : NFASimCtrl} {as ns as' ns' : List NFASim} {sim : NFASim} {n : Addr}

namespace Queues

theorem nil (c : NFASimCtrl) : Queues E dst la m [] c c [] [] where
  active := (List.append_nil _).symm
  next := (List.append_nil _).symm
  frame := .refl c
  pool := .inl
  comes _ ht := by cases ht
  activeKind _ ht := by cases ht
  nextKind _ ht := by cases ht
  covers _ hn := by cases hn
  stamps _ := .inl rfl
  short := le_rfl

/-- Loads at the nodes of one list after another. -/
theorem trans (h : Queues E dst la m nodes c d as ns) (h' : Queues E dst la m nodes' d e as' ns')
    (hids : ∀ a ∈ nodes, ∀ b ∈ nodes', (E.heap a).id = (E.heap b).id → a = b) :
    Queues E dst la m (nodes ++ nodes') c e (as ++ as') (ns ++ ns') where
  active := by rw [h'.active, h.active, List.append_assoc]
  next := by rw [h'.next, h.next, List.append_assoc]
  frame := h.frame.trans h'.frame
  pool hpool := by
    rcases h.pool hpool with hd | hqueued
    · rcases h'.pool hd with he | hqueued
      · exact .inl he
      · simp only [ne_eq, List.append_eq_nil_iff, not_and_or] at hqueued ⊢
        tauto
    · simp only [ne_eq, List.append_eq_nil_iff, not_and_or] at hqueued ⊢
      tauto
  comes t ht := by
    have hcases : t ∈ as ++ ns ∨ t ∈ as' ++ ns' := by
      simp only [List.mem_append] at ht ⊢
      tauto
    rcases hcases with ht | ht
    · exact ⟨(h.comes t ht).1, List.mem_append_left _ (h.comes t ht).2⟩
    · exact ⟨(h'.comes t ht).1, List.mem_append_right _ (h'.comes t ht).2⟩
  activeKind t ht := by
    rcases List.mem_append.mp ht with ht | ht
    · exact h.activeKind t ht
    · exact h'.activeKind t ht
  nextKind t ht := by
    rcases List.mem_append.mp ht with ht | ht
    · exact h.nextKind t ht
    · exact h'.nextKind t ht
  covers n hn hpasses := by
    have hfirst : ∀ t ∈ as ++ ns, t ∈ as ++ as' ++ (ns ++ ns') := by
      intro t ht
      simp only [List.mem_append] at ht ⊢
      tauto
    have hsecond : ∀ t ∈ as' ++ ns', t ∈ as ++ as' ++ (ns ++ ns') := by
      intro t ht
      simp only [List.mem_append] at ht ⊢
      tauto
    rcases List.mem_append.mp hn with hn | hn
    · rcases h.covers n hn hpasses with ⟨t, ht, htn⟩ | hstamp
      · exact .inl ⟨t, hfirst t ht, htn⟩
      · exact .inr hstamp
    · rcases h'.covers n hn hpasses with ⟨t, ht, htn⟩ | ⟨hkind, hstamp⟩
      · exact .inl ⟨t, hsecond t ht, htn⟩
      · -- a stamp of the loads before stands for a thread at the same node
        rcases h.stamps (E.heap n).id with hsame | ⟨-, t, ht, -, hid⟩
        · exact .inr ⟨hkind, hsame ▸ hstamp⟩
        · exact .inl ⟨t, hfirst t ht, hids _ (h.comes t ht).2 n hn hid⟩
  stamps id := by
    rcases h'.stamps id with hsame | ⟨hstamp, t, ht, hkind, hid⟩
    · rw [hsame]
      rcases h.stamps id with hsame' | ⟨hstamp, t, ht, hkind, hid⟩
      · exact .inl hsame'
      · refine .inr ⟨hstamp, t, ?_, hkind, hid⟩
        simp only [List.mem_append] at ht ⊢
        tauto
    · refine .inr ⟨hstamp, t, ?_, hkind, hid⟩
      simp only [List.mem_append] at ht ⊢
      tauto
  short := by
    rw [List.length_append, List.length_append]
    exact Nat.add_le_add h.short h'.short

/-- The order of the nodes plays no part. -/
theorem perm (h : Queues E dst la m nodes c d as ns) (hperm : nodes.Perm nodes') :
    Queues E dst la m nodes' c d as ns :=
  { h with
    comes := fun t ht => ⟨(h.comes t ht).1, hperm.mem_iff.mp (h.comes t ht).2⟩
    covers := fun n hn => h.covers n (hperm.mem_iff.mpr hn)
    short := hperm.length_eq ▸ h.short }

end Queues

/-- One load, without its budget. -/
def loadCore (E : Env) (sim : NFASim) (n : Addr) (dst : Dst) (la : Nat) (c : NFASimCtrl) :
    NFASim × NFASimCtrl :=
  if (E.heap n).type = .accepting then
    (settle (visit sim n la) n, c.append .active (settle (visit sim n la) n))
  else loadDefault E (visit sim n la) n dst la c

theorem loadNext_core (hcore : (E.heap n).Core) :
    loadNext E (fuel + 1) sim n dst la c = some (loadCore E sim n dst la c) := by
  rw [loadNext, loadNextBody, loadCore]
  rcases hcore with htype | htype | htype | htype
  all_goals simp [htype]

/-- Nothing is queued. -/
theorem queues_none (hactive : d.activeThreads = c.activeThreads)
    (hnext : d.nextThreads = c.nextThreads) (hframe : SameFrame c d)
    (hpool : c.threadPool ≠ [] → d.threadPool ≠ [])
    (hstamps : d.activeThreadsSp = c.activeThreadsSp)
    (hcovers : E.passesLookahead (E.heap n) la = true →
      (E.heap n).type ≠ .accepting ∧ c.activeThreadsSp (E.heap n).id = la) :
    Queues E dst la m [n] c d [] [] where
  active := by rw [hactive, List.append_nil]
  next := by rw [hnext, List.append_nil]
  frame := hframe
  pool h := .inl (hpool h)
  comes _ ht := by cases ht
  activeKind _ ht := by cases ht
  nextKind _ ht := by cases ht
  covers k hk hpasses := by
    obtain rfl := List.mem_singleton.mp hk
    exact .inr (hcovers hpasses)
  stamps id := .inl (congrFun hstamps id)
  short := Nat.zero_le _

/-- A thread is queued in the active list. -/
theorem queues_active (sim : NFASim) (hactive : d.activeThreads = c.activeThreads ++ [sim])
    (hnext : d.nextThreads = c.nextThreads) (hframe : SameFrame c d) (hip : sim.ip = n)
    (hspan : sim.curMatch = m) (hkind : dst = .active ∨ (E.heap n).type = .accepting)
    (hstamps : ∀ id, d.activeThreadsSp id = c.activeThreadsSp id ∨
      d.activeThreadsSp id = la ∧ (E.heap n).type ≠ .accepting ∧ (E.heap n).id = id) :
    Queues E dst la m [n] c d [sim] [] where
  active := hactive
  next := by rw [hnext, List.append_nil]
  frame := hframe
  pool _ := .inr (List.cons_ne_nil _ _)
  comes t ht := by
    obtain rfl := List.mem_singleton.mp ht
    exact ⟨hspan, List.mem_singleton.mpr hip⟩
  activeKind t ht := by
    obtain rfl := List.mem_singleton.mp ht
    rwa [hip]
  nextKind _ ht := by cases ht
  covers k hk _ := by
    obtain rfl := List.mem_singleton.mp hk
    exact .inl ⟨sim, List.mem_singleton_self sim, hip⟩
  stamps id := by
    refine (hstamps id).imp_right ?_
    rintro ⟨hstamp, hkind, hid⟩
    exact ⟨hstamp, sim, List.mem_singleton_self sim, hip ▸ hkind, hip ▸ hid⟩
  short := le_rfl

/-- A thread is queued for the next position. -/
theorem queues_next (hactive : d.activeThreads = c.activeThreads)
    (hnext : d.nextThreads = c.nextThreads ++ [sim]) (hframe : SameFrame c d) (hip : sim.ip = n)
    (hspan : sim.curMatch = m) (hkind : dst = .next ∧ (E.heap n).type ≠ .accepting)
    (hstamps : ∀ id, d.activeThreadsSp id = c.activeThreadsSp id ∨
      d.activeThreadsSp id = la ∧ (E.heap n).id = id) :
    Queues E dst la m [n] c d [] [sim] where
  active := by rw [hactive, List.append_nil]
  next := hnext
  frame := hframe
  pool _ := .inr (List.cons_ne_nil _ _)
  comes t ht := by
    obtain rfl := List.mem_singleton.mp ht
    exact ⟨hspan, List.mem_singleton.mpr hip⟩
  activeKind _ ht := by cases ht
  nextKind t ht := by
    obtain rfl := List.mem_singleton.mp ht
    rwa [hip]
  covers k hk _ := by
    obtain rfl := List.mem_singleton.mp hk
    exact .inl ⟨sim, List.mem_singleton_self sim, hip⟩
  stamps id := by
    refine (hstamps id).imp_right ?_
    rintro ⟨hstamp, hid⟩
    exact ⟨hstamp, sim, List.mem_singleton_self sim, hip ▸ hkind.2, hip ▸ hid⟩
  short := Nat.zero_le _

/-- A load queues the thread, or fails and queues nothing. -/
def Settles (sim : NFASim) (as ns : List NFASim) : Prop :=
  sim.status = -1 ∧ as = [] ∧ ns = [] ∨ sim.status = 0 ∧ as ++ ns ≠ []

theorem loadDefault_queues (sim : NFASim) (hkind : (E.heap n).type ≠ .accepting) : ∃ as ns,
    Queues E dst la sim.curMatch [n] c (loadDefault E sim n dst la c).2 as ns ∧
      Settles (loadDefault E sim n dst la c).1 as ns := by
  have hstamps : ∀ dst' id,
      ((c.stamp (E.heap n).id la).append dst' (settle sim n)).activeThreadsSp id =
          c.activeThreadsSp id ∨
        ((c.stamp (E.heap n).id la).append dst' (settle sim n)).activeThreadsSp id = la ∧
          (E.heap n).id = id := by
    intro dst' id
    have hsp : ((c.stamp (E.heap n).id la).append dst' (settle sim n)).activeThreadsSp =
        Function.update c.activeThreadsSp (E.heap n).id la := by
      cases dst' <;> rfl
    rw [hsp]
    by_cases hid : (E.heap n).id = id
    · subst hid
      exact .inr ⟨Function.update_self _ _ _, rfl⟩
    · exact .inl (Function.update_of_ne (Ne.symm hid) _ _)
  have hframe : ∀ dst', SameFrame c ((c.stamp (E.heap n).id la).append dst' (settle sim n)) :=
    fun dst' => (SameFrame.stamp c (E.heap n).id la).trans (.append _ dst' (settle sim n))
  unfold loadDefault
  dsimp only
  split
  · split
    · cases dst with
      | active =>
        refine ⟨_, _, queues_active _ rfl rfl (hframe .active) rfl rfl (.inl rfl) fun id => ?_,
          .inr ⟨rfl, List.cons_ne_nil _ _⟩⟩
        refine (hstamps .active id).imp_right fun hstamp => ⟨hstamp.1, hkind, hstamp.2⟩
      | next =>
        exact ⟨_, _, queues_next rfl rfl (hframe .next) rfl rfl ⟨rfl, hkind⟩ (hstamps .next),
          .inr ⟨rfl, List.cons_ne_nil _ _⟩⟩
    · next hfails =>
      exact ⟨_, _, queues_none rfl rfl (.refl c) id rfl fun hpasses => absurd hpasses hfails,
        .inl ⟨rfl, rfl, rfl⟩⟩
  · next hstamped =>
    have hstamp := not_not.mp (not_or.mp hstamped).2
    exact ⟨_, _, queues_none rfl rfl (.noteDrop c sim n la) id rfl fun _ => ⟨hkind, hstamp⟩,
      .inl ⟨rfl, rfl, rfl⟩⟩

/-- What one load does. -/
theorem loadCore_queues (E : Env) (sim : NFASim) (n : Addr) (dst : Dst) (la : Nat)
    (c : NFASimCtrl) : ∃ as ns,
      Queues E dst la sim.curMatch [n] c (loadCore E sim n dst la c).2 as ns ∧
        Settles (loadCore E sim n dst la c).1 as ns := by
  unfold loadCore
  split
  · next hkind =>
    exact ⟨_, _, queues_active _ rfl rfl (.append c .active _) rfl rfl (.inr hkind) fun _ => .inl rfl,
      .inr ⟨rfl, List.cons_ne_nil _ _⟩⟩
  · next hkind => exact loadDefault_queues (visit sim n la) hkind

/-- A thread that was taken from the pool is queued or goes back. -/
theorem Queues.of_acquire {source : Option NFASim}
    (h : Queues E dst la m nodes (c.acquire source) d as ns) (hsettles : Settles sim as ns) :
    Queues E dst la m nodes c (if sim.status = -1 then d.release sim else d) as ns := by
  have hframe : SameFrame c d := (SameFrame.acquire c source).trans h.frame
  rcases hsettles with ⟨hstatus, rfl, rfl⟩ | ⟨hstatus, hqueued⟩
  · rw [if_pos hstatus]
    exact { h with
      frame := hframe.trans (.release d sim)
      pool := fun _ => .inl (by simp [NFASimCtrl.release]) }
  · rw [if_neg (by omega)]
    exact { h with
      frame := hframe
      pool := fun _ => .inr hqueued }

/-- `thread_clone`. -/
theorem threadClone_queues (hcore : (E.heap n).Core) (sim : NFASim) (dst : Dst) (la : Nat)
    (c : NFASimCtrl) : ∃ d as ns,
      (∀ fuel, threadClone E (loadNext E (fuel + 1)) n sim dst la c = some d) ∧
        Queues E dst la sim.curMatch [n] c d as ns := by
  by_cases hpasses : E.passesLookahead (E.heap n) la = true
  · obtain ⟨as, ns, hqueues, hsettles⟩ := loadCore_queues E (acquireClone c sim n).1 n dst la
      (acquireClone c sim n).2
    refine ⟨_, as, ns, fun fuel => ?_, (cloneMemory_curMatch ▸ hqueues).of_acquire hsettles⟩
    rw [threadClone, if_pos hpasses]
    dsimp only
    rw [loadNext_core hcore]
  · refine ⟨c, [], [], fun fuel => ?_, queues_none rfl rfl (.refl c) id rfl fun h => absurd h hpasses⟩
    rw [threadClone, if_neg hpasses]

/-- `thread_clone` for each node of a list. -/
theorem cloneEach_queues (hcore : ∀ n ∈ nodes, (E.heap n).Core)
    (hids : ∀ a ∈ nodes, ∀ b ∈ nodes, (E.heap a).id = (E.heap b).id → a = b) (sim : NFASim)
    (dst : Dst) (la : Nat) (c : NFASimCtrl) : ∃ d as ns,
      (∀ fuel, cloneEach E (loadNext E (fuel + 1)) sim dst la nodes c = some d) ∧
        Queues E dst la sim.curMatch nodes c d as ns := by
  induction nodes generalizing c with
  | nil => exact ⟨c, [], [], fun _ => rfl, .nil c⟩
  | cons n nodes ih =>
    obtain ⟨d, as, ns, hrun, hqueues⟩ :=
      threadClone_queues (hcore n List.mem_cons_self) sim dst la c
    obtain ⟨e, as', ns', hrest, hqueues'⟩ := ih (fun k hk => hcore k (.tail n hk))
      (fun a ha b hb => hids a (.tail n ha) b (.tail n hb)) d
    refine ⟨e, as ++ as', ns ++ ns', fun fuel => ?_, hqueues.trans hqueues' ?_⟩
    · rw [cloneEach, hrun]
      exact hrest fuel
    · intro a ha b hb
      exact hids a (List.mem_singleton.mp ha ▸ List.mem_cons_self) b (.tail n hb)

/-- `process_adjacents`. -/
theorem processAdjacents_queues {k : Addr} (hleads : (E.heap k).reachable ≠ [])
    (hcore : ∀ n ∈ (E.heap k).reachable, (E.heap n).Core)
    (hids : ∀ a ∈ (E.heap k).reachable, ∀ b ∈ (E.heap k).reachable,
      (E.heap a).id = (E.heap b).id → a = b) (sim : NFASim) (dst : Dst) (la : Nat)
    (c : NFASimCtrl) : ∃ sim' d as ns,
      (∀ fuel, processAdjacents E (loadNext E (fuel + 1)) sim k dst la c = some (sim', d)) ∧
        Queues E dst la sim.curMatch (E.heap k).reachable c d as ns ∧
        (sim'.status = -1 ∨ sim'.status = 0 ∧ as ++ ns ≠ []) := by
  obtain ⟨first, rest, hlist⟩ := List.exists_cons_of_ne_nil hleads
  rw [hlist] at hcore hids
  obtain ⟨d, as, ns, hrun, hqueues⟩ := cloneEach_queues (fun n hn => hcore n (.tail first hn))
    (fun a ha b hb => hids a (.tail first ha) b (.tail first hb)) sim dst la c
  obtain ⟨as', ns', hqueues', hsettles⟩ := loadCore_queues E sim first dst la d
  refine ⟨(loadCore E sim first dst la d).1, (loadCore E sim first dst la d).2, as ++ as',
    ns ++ ns', fun fuel => ?_, ?_, ?_⟩
  · rw [processAdjacents, hlist, List.tail_cons, hrun]
    exact loadNext_core (hcore first List.mem_cons_self)
  · rw [hlist]
    refine (hqueues.trans hqueues' fun a ha b hb => ?_).perm List.perm_append_comm
    exact hids a (.tail first ha) b (List.mem_singleton.mp hb ▸ List.mem_cons_self)
  · rcases hsettles with ⟨hstatus, -, -⟩ | ⟨hstatus, hqueued⟩
    · exact .inl hstatus
    · refine .inr ⟨hstatus, ?_⟩
      simp only [ne_eq, List.append_eq_nil_iff, not_and_or] at hqueued ⊢
      tauto

/-- The load of one start state. A range that does not pass the lookahead is not loaded. -/
theorem loadStartState_queues (hcore : (E.heap n).Core) (la : Nat) (c : NFASimCtrl) :
    ∃ d as ns, (∀ fuel, loadStartState E (fuel + 1) la n c = some d) ∧
      Queues E .active la {} [n] c d as ns := by
  by_cases hrange : (E.heap n).type = .range
  · by_cases hin : isLiteralInRange (E.heap n).range (E.line.deref la) = true
    · refine ⟨(c.acquire none).append .active (visit (acquireStart c n).1 n la), _, _,
        fun fuel => ?_, queues_active (visit (acquireStart c n).1 n la) rfl rfl
        ((SameFrame.acquire c none).trans (.append _ .active _)) startMemory_ip
        startMemory_curMatch (.inl rfl) fun _ => .inl rfl⟩
      rw [loadStartState]
      dsimp only
      rw [if_pos hrange, if_pos hin]
      rfl
    · have hqueues : Queues E .active la {} [n] (c.acquire none) (c.acquire none) [] [] :=
        queues_none rfl rfl (.refl _) id rfl fun hpasses => by
          simp [Env.passesLookahead, hrange, hin] at hpasses
      refine ⟨(c.acquire none).release (acquireStart c n).1, _, _, fun fuel => ?_, { hqueues with
        frame := (SameFrame.acquire c none).trans (.release _ (acquireStart c n).1)
        pool := fun _ => .inl (by simp [NFASimCtrl.release]) }⟩
      rw [loadStartState]
      dsimp only
      rw [if_pos hrange, if_neg hin]
      rfl
  · obtain ⟨as, ns, hqueues, hsettles⟩ := loadCore_queues E (acquireStart c n).1 n .active la
      (acquireStart c n).2
    refine ⟨_, as, ns, fun fuel => ?_, (startMemory_curMatch ▸ hqueues).of_acquire hsettles⟩
    rw [loadStartState]
    dsimp only
    rw [if_neg hrange, loadNext_core hcore]

/-- The loop of `load_start_states`. -/
theorem foldlM_loadStartState_queues (hcore : ∀ n ∈ nodes, (E.heap n).Core)
    (hids : ∀ a ∈ nodes, ∀ b ∈ nodes, (E.heap a).id = (E.heap b).id → a = b) (la : Nat)
    (c : NFASimCtrl) : ∃ d as ns,
      (∀ fuel, nodes.foldlM (fun c n => loadStartState E (fuel + 1) la n c) c = some d) ∧
        Queues E .active la {} nodes c d as ns := by
  induction nodes generalizing c with
  | nil => exact ⟨c, [], [], fun _ => rfl, .nil c⟩
  | cons n nodes ih =>
    obtain ⟨d, as, ns, hrun, hqueues⟩ := loadStartState_queues (hcore n List.mem_cons_self) la c
    obtain ⟨e, as', ns', hrest, hqueues'⟩ := ih (fun k hk => hcore k (.tail n hk))
      (fun a ha b hb => hids a (.tail n ha) b (.tail n hb)) d
    refine ⟨e, as ++ as', ns ++ ns', fun fuel => ?_, hqueues.trans hqueues' ?_⟩
    · rw [List.foldlM_cons, hrun]
      exact hrest fuel
    · intro a ha b hb
      exact hids a (List.mem_singleton.mp ha ▸ List.mem_cons_self) b (.tail n hb)

end Recognizer
