import Recognizer.Threads.Placed

/-!
# Linked threads stand for lists of values

The linked lists of threads represent a control block with lists of values when each list holds
the same threads in the same order and the other members agree. The history of a control block
is not represented, and neither is the node of a thread in the pool, which is written before it
is read.
-/

namespace Recognizer

/-- What a list shows of a thread. -/
def ThreadList.view : ThreadList → NFASim → NFASim
  | .pool, t => { t with ip := 0 }
  | .active, t => t
  | .next, t => t

namespace NFASimCtrl

variable (ctrl : NFASimCtrl)

/-- The threads in a list. -/
def threadsOf : ThreadList → List NFASim
  | .pool => ctrl.threadPool
  | .active => ctrl.activeThreads
  | .next => ctrl.nextThreads

/-- `sim_pool_append` to any of the lists. -/
def put (l : ThreadList) (sim : NFASim) : NFASimCtrl :=
  match l with
  | .pool => ctrl.release sim
  | .active => ctrl.append .active sim
  | .next => ctrl.append .next sim

/-- The members other than the lists and the history. -/
def others : NFASimCtrl :=
  { ctrl with
    threadPool := [], activeThreads := [], nextThreads := [], acquired := [], dropped := [] }

theorem put_dst (dst : Dst) (sim : NFASim) : ctrl.put dst.list sim = ctrl.append dst sim := by
  cases dst <;> rfl

theorem threadsOf_put (l : ThreadList) (sim : NFASim) :
    (ctrl.put l sim).threadsOf =
      Function.update ctrl.threadsOf l (ctrl.threadsOf l ++ [sim]) := by
  funext l'
  cases l <;> cases l' <;> rfl

@[simp] theorem others_put (l : ThreadList) (sim : NFASim) :
    (ctrl.put l sim).others = ctrl.others := by
  cases l <;> rfl

end NFASimCtrl

namespace ThreadMem

variable {m m' m'' : ThreadMem} {ctrl ctrl' : NFASimCtrl} {held : List Nat}
  {xs : ThreadList → List Nat} {l : ThreadList} {a : Nat} {f : NFASim → NFASim}

@[simp] theorem simPoolAppend_sims : (m.simPoolAppend l a).sims = m.sims := by
  unfold simPoolAppend
  dsimp only
  split <;> rfl

@[simp] theorem simPoolAppend_ctrl : (m.simPoolAppend l a).ctrl = m.ctrl := by
  unfold simPoolAppend
  dsimp only
  split <;> rfl

@[simp] theorem simPoolShift_sims : (m.simPoolShift l).2.sims = m.sims := by
  unfold simPoolShift
  dsimp only
  split
  · split <;> rfl
  · rfl

@[simp] theorem simPoolShift_ctrl : (m.simPoolShift l).2.ctrl = m.ctrl := by
  unfold simPoolShift
  dsimp only
  split
  · split <;> rfl
  · rfl

theorem gather_sims {pool : SimPoolList} : (m.gather pool).sims = m.sims := by
  unfold gather
  split
  · rfl
  · split <;> rfl

theorem gather_ctrl {pool : SimPoolList} : (m.gather pool).ctrl = m.ctrl := by
  unfold gather
  split
  · rfl
  · split <;> rfl

@[simp] theorem releaseAllThreads_sims : (m.releaseAllThreads a).sims = m.sims := by
  have hgather : m.gatherAll.sims = m.sims := gather_sims.trans gather_sims
  rw [releaseAllThreads_eq]
  split
  · exact hgather
  · exact simPoolAppend_sims.trans hgather

@[simp] theorem releaseAllThreads_ctrl : (m.releaseAllThreads a).ctrl = m.ctrl := by
  have hgather : m.gatherAll.ctrl = m.ctrl := gather_ctrl.trans gather_ctrl
  rw [releaseAllThreads_eq]
  split
  · exact hgather
  · exact simPoolAppend_ctrl.trans hgather

/-- The threads of each list, in order, are the objects at these addresses. -/
structure Shows (m : ThreadMem) (ctrl : NFASimCtrl) (held : List Nat)
    (xs : ThreadList → List Nat) : Prop where
  placed : Placed m held xs
  values : ∀ l, (ctrl.threadsOf l).map l.view = (xs l).map fun a => l.view (m.sims a)
  others : m.ctrl = ctrl.others

theorem Shows.activeThreads (h : Shows m ctrl held xs) :
    ctrl.activeThreads = (xs .active).map m.sims :=
  (List.map_id ctrl.activeThreads).symm.trans (h.values .active)

theorem Shows.nextThreads (h : Shows m ctrl held xs) :
    ctrl.nextThreads = (xs .next).map m.sims :=
  (List.map_id ctrl.nextThreads).symm.trans (h.values .next)

/-- The memory represents the control block, with the held threads in variables. -/
def Represents (m : ThreadMem) (ctrl : NFASimCtrl) (held : List Nat) : Prop :=
  ∃ xs, Shows m ctrl held xs

/-- The held threads are as they were. -/
def Keeps (held : List Nat) (m m' : ThreadMem) : Prop := ∀ a ∈ held, m'.sims a = m.sims a

theorem Keeps.refl (held : List Nat) (m : ThreadMem) : Keeps held m m := fun _ _ => rfl

theorem Keeps.trans (h : Keeps held m m') (h' : Keeps held m' m'') : Keeps held m m'' :=
  fun a ha => (h' a ha).trans (h a ha)

theorem Keeps.of_sims (h : m'.sims = m.sims) : Keeps held m m' := fun a _ => congrFun h a

theorem Keeps.of_cons (h : Keeps (a :: held) m m') : Keeps held m m' :=
  fun b hb => h b (List.mem_cons_of_mem a hb)

namespace Represents

theorem others (h : Represents m ctrl held) : m.ctrl = ctrl.others := by
  obtain ⟨xs, h⟩ := h
  exact h.others

/-- What is read off the other members is the same. -/
theorem read {β : Type} (h : Represents m ctrl held) (g : NFASimCtrl → β)
    (hg : g ctrl.others = g ctrl) : g m.ctrl = g ctrl :=
  (congrArg g h.others).trans hg

theorem nodup (h : Represents m ctrl held) : held.Nodup := by
  obtain ⟨xs, h⟩ := h
  exact h.placed.nodup_held

theorem ne_zero (h : Represents m ctrl (a :: held)) : a ≠ 0 := by
  obtain ⟨xs, h⟩ := h
  exact h.placed.held_ne_zero

/-- An assignment to one held thread leaves the others alone. -/
theorem keeps_modify (h : Represents m ctrl (a :: held)) : Keeps held m (m.modify a f) := by
  intro b hb
  have hne : b ≠ a := fun heq => (List.nodup_cons.mp h.nodup).1 (heq ▸ hb)
  exact modify_sims_of_ne hne

theorem modify (h : Represents m ctrl (a :: held)) :
    Represents (m.modify a f) ctrl (a :: held) := by
  obtain ⟨xs, h⟩ := h
  refine ⟨xs, h.placed.of_same rfl rfl rfl, fun l => ?_, h.others⟩
  rw [h.values l]
  apply List.map_congr_left
  intro b hb
  have hne : b ≠ a := fun heq => h.placed.notMem_of_held List.mem_cons_self l (heq ▸ hb)
  rw [modify_sims_of_ne hne]

/-- Assignments to the other members of the control block. -/
theorem setCtrl (h : Represents m ctrl held) (hthreads : ctrl'.threadsOf = ctrl.threadsOf) :
    Represents { m with ctrl := ctrl'.others } ctrl' held := by
  obtain ⟨xs, h⟩ := h
  refine ⟨xs, h.placed.of_same rfl rfl rfl, fun l => ?_, rfl⟩
  rw [hthreads]
  exact h.values l

/-- A function that does not see the lists and the history, on the control block. -/
theorem onCtrl (h : Represents m ctrl held) {g : NFASimCtrl → NFASimCtrl}
    (hthreads : (g ctrl).threadsOf = ctrl.threadsOf) (hothers : g ctrl.others = (g ctrl).others) :
    Represents (m.onCtrl g) (g ctrl) held := by
  have hset := h.setCtrl hthreads
  unfold ThreadMem.onCtrl
  rw [h.others, hothers]
  exact hset

/-- Only the history differs. -/
theorem of_others (h : Represents m ctrl held) (hthreads : ctrl'.threadsOf = ctrl.threadsOf)
    (hothers : ctrl'.others = ctrl.others) : Represents m ctrl' held := by
  obtain ⟨xs, h⟩ := h
  refine ⟨xs, h.placed, fun l => ?_, h.others.trans hothers.symm⟩
  rw [hthreads]
  exact h.values l

/-- A held thread is put behind the last one of a list. -/
theorem put (h : Represents m ctrl (a :: held)) (l : ThreadList) :
    Represents (m.simPoolAppend l a) (ctrl.put l (m.sims a)) held := by
  obtain ⟨xs, h⟩ := h
  refine ⟨_, h.placed.append l, fun l' => ?_, ?_⟩
  · rw [NFASimCtrl.threadsOf_put, simPoolAppend_sims]
    by_cases hll : l' = l
    · subst hll
      rw [Function.update_self, Function.update_self, List.map_append, List.map_append,
        h.values l']
      rfl
    · rw [Function.update_of_ne hll, Function.update_of_ne hll]
      exact h.values l'
  · rw [simPoolAppend_ctrl, NFASimCtrl.others_put]
    exact h.others

/-- The first thread of the active list is taken from it, if there is one. -/
theorem shiftActive (h : Represents m ctrl held) :
    Represents (m.simPoolShift .active).2 ctrl.shiftActive.2
        (inVariable (m.simPoolShift .active).1 ++ held) ∧
      ctrl.shiftActive.1 = if (m.simPoolShift .active).1 = 0 then none
        else some (m.sims (m.simPoolShift .active).1) := by
  obtain ⟨xs, h⟩ := h
  have hactive := h.activeThreads
  cases hxs : xs .active with
  | nil =>
    rw [hxs] at hactive
    rw [h.placed.shift_nil hxs]
    refine ⟨⟨xs, h.placed, fun l => ?_, h.others⟩, ?_⟩
    · have hvalues := h.values l
      cases l
      · exact hvalues
      · simp [NFASimCtrl.shiftActive, NFASimCtrl.threadsOf, hactive, hxs]
      · exact hvalues
    · simp [NFASimCtrl.shiftActive, hactive]
  | cons b rest =>
    rw [hxs] at hactive
    obtain ⟨hfirst, hplaced⟩ := h.placed.shift hxs
    have hb : b ≠ 0 := hplaced.held_ne_zero
    rw [hfirst]
    unfold inVariable
    rw [if_neg hb, if_neg hb]
    refine ⟨⟨_, hplaced, fun l => ?_, ?_⟩, ?_⟩
    · have hvalues := h.values l
      rw [simPoolShift_sims]
      cases l
      · exact hvalues
      · simp [NFASimCtrl.shiftActive, NFASimCtrl.threadsOf, hactive, ThreadList.view]
      · exact hvalues
    · rw [simPoolShift_ctrl]
      exact h.others
    · simp [NFASimCtrl.shiftActive, hactive]

/-- A thread for a new use: the first one of the pool, whose node is not known, or a new one. -/
theorem takeThread (h : Represents m ctrl held) (source : Option NFASim) :
    ∃ clone newThread m', m.takeThread = (clone, newThread, m') ∧
      Represents m' (ctrl.acquire source) (clone :: held) ∧ Keeps held m m' ∧
      (∀ t nfa, cloneFrom (m'.sims clone) newThread t nfa =
        cloneMemory ctrl.threadPool.head? t nfa) ∧
      ∀ nfa, startFrom (if newThread then m'.sims clone
        else { m'.sims clone with loopRecord := fun _ => 0 }) nfa =
          startMemory ctrl.threadPool.head? nfa := by
  obtain ⟨xs, h⟩ := h
  have hpool : ctrl.threadPool.map ThreadList.pool.view =
      (xs .pool).map fun a => ThreadList.pool.view (m.sims a) := h.values .pool
  unfold ThreadMem.takeThread
  cases hxs : xs .pool with
  | nil =>
    have hempty : ctrl.threadPool = [] := by simpa [hxs] using hpool
    rw [if_neg (not_not.mpr ((h.placed.head_eq_zero_iff .pool).mpr hxs))]
    have hnew : m.allocated + 1 ∉ places held xs := by
      rw [h.placed.mem_iff]
      omega
    have hkeeps : ∀ b ∈ places held xs,
        (m.modify (m.allocated + 1) fun _ => {}).sims b = m.sims b :=
      fun b hb => modify_sims_of_ne fun heq => hnew (heq ▸ hb)
    refine ⟨_, _, _, rfl, ⟨xs, h.placed.allocate _, fun l => ?_, ?_⟩, ?_, ?_⟩
    · have hvalues : ((ctrl.acquire source).threadsOf l).map l.view =
          (xs l).map fun a => l.view (m.sims a) := by
        have hl := h.values l
        cases l
        · simp [NFASimCtrl.acquire, NFASimCtrl.threadsOf, hempty, hxs]
        · exact hl
        · exact hl
      rw [hvalues]
      apply List.map_congr_left
      intro b hb
      exact congrArg l.view (hkeeps b (mem_places.mpr (.inr ⟨l, hb⟩))).symm
    · exact h.others
    · intro b hb
      exact hkeeps b (mem_places.mpr (.inl hb))
    · have hcleared : (m.modify (m.allocated + 1) fun _ => {}).sims (m.allocated + 1) = {} :=
        modify_sims_self
      rw [hempty]
      exact ⟨fun t nfa => congrArg (cloneFrom · true t nfa) hcleared,
        fun nfa => congrArg (startFrom · nfa) hcleared⟩
  | cons b rest =>
    obtain ⟨hfirst, hplaced⟩ := h.placed.shift hxs
    have hhead : (m.lists .pool).head ≠ 0 := by
      rw [ne_eq, h.placed.head_eq_zero_iff, hxs]
      exact List.cons_ne_nil b rest
    rw [if_pos hhead]
    obtain ⟨t, ts, hts⟩ : ∃ t ts, ctrl.threadPool = t :: ts := by
      cases hcase : ctrl.threadPool with
      | nil => simp [hcase, hxs] at hpool
      | cons t ts => exact ⟨t, ts, rfl⟩
    rw [hts, hxs] at hpool
    obtain ⟨ht, hrest⟩ := List.cons.inj hpool
    refine ⟨b, false, (m.simPoolShift .pool).2, ?_, ⟨_, hplaced, fun l => ?_, ?_⟩, ?_, ?_⟩
    · rw [← hfirst]
    · have hvalues := h.values l
      rw [simPoolShift_sims]
      cases l
      · rw [Function.update_self]
        simpa [NFASimCtrl.acquire, NFASimCtrl.threadsOf, hts] using hrest
      · exact hvalues
      · exact hvalues
    · rw [simPoolShift_ctrl]
      exact h.others
    · exact Keeps.of_sims simPoolShift_sims
    · have hview : ThreadList.pool.view (m.sims b) = ThreadList.pool.view t := ht.symm
      rw [hts, simPoolShift_sims]
      constructor
      · intro t' nfa
        have hclone := congrArg (cloneFrom · false t' nfa) hview
        exact hclone
      · intro nfa
        have hstart := congrArg (fun u => startFrom { u with loopRecord := fun _ => 0 } nfa) hview
        exact hstart

/-- The next list becomes the active one, which has run out of threads. -/
theorem swap (h : Represents m ctrl held) (hactive : ctrl.activeThreads = []) :
    Represents m.swapNextWActive ctrl.swapNextWActive held := by
  obtain ⟨xs, h⟩ := h
  have hxs : xs .active = [] := by
    have hvalues := h.values .active
    simpa [NFASimCtrl.threadsOf, hactive] using hvalues.symm
  refine ⟨_, h.placed.swap hxs, fun l => ?_, h.others⟩
  cases l
  · exact h.values .pool
  · exact h.values .next
  · rfl

/-- All threads go to the pool. -/
theorem releaseAllThreads {thread : Nat} (h : Represents m ctrl (inVariable thread)) :
    Represents (m.releaseAllThreads thread) (ctrl.releaseAllThreads
      (if thread = 0 then none else some (m.sims thread))) [] := by
  obtain ⟨xs, h⟩ := h
  refine ⟨_, h.placed.releaseAllThreads, fun l => ?_, ?_⟩
  · rw [releaseAllThreads_sims]
    cases l
    · have hthread : (if thread = 0 then none else some (m.sims thread)).toList =
          (inVariable thread).map m.sims := by
        unfold inVariable
        split <;> rfl
      have hpool := h.values .pool
      simp only [NFASimCtrl.threadsOf] at hpool
      simp only [NFASimCtrl.threadsOf, NFASimCtrl.releaseAllThreads, Function.update_self,
        List.map_append, hpool, h.activeThreads, h.nextThreads, hthread, List.map_map,
        Function.comp_def]
    · rfl
    · rfl
  · rw [releaseAllThreads_ctrl]
    exact h.others

end Represents

end ThreadMem

end Recognizer
