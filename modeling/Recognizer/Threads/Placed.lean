import Recognizer.Core.Queue
import Recognizer.Source.Threads

/-!
# Every thread is in one place

A thread that was allocated is in one of the three lists or in a variable, and in no two of
them. The operations on the lists move threads from one place to another one.
-/

namespace Recognizer

namespace ThreadMem

variable {m : ThreadMem} {held : List Nat} {xs : ThreadList → List Nat} {l l' : ThreadList}
  {a b sim : Nat} {rest : List Nat} {f : NFASim → NFASim} {g : NFASimCtrl → NFASimCtrl}
  {pool : SimPoolList}

@[simp] theorem setList_lists : (m.setList l pool).lists = Function.update m.lists l pool := rfl

@[simp] theorem setList_next : (m.setList l pool).next = m.next := rfl

@[simp] theorem link_lists : (m.link a b).lists = m.lists := rfl

@[simp] theorem link_next : (m.link a b).next = Function.update m.next a b := rfl

@[simp] theorem modify_ctrl : (m.modify sim f).ctrl = m.ctrl := rfl

@[simp] theorem modify_sims_self : (m.modify sim f).sims sim = f (m.sims sim) := by
  simp [modify]

theorem modify_sims_of_ne (hne : a ≠ sim) : (m.modify sim f).sims a = m.sims a := by
  simp [modify, Function.update_of_ne hne]

@[simp] theorem onCtrl_sims : (m.onCtrl g).sims = m.sims := rfl

@[simp] theorem onCtrl_ctrl : (m.onCtrl g).ctrl = g m.ctrl := rfl

/-- Hanging a thread into a list allocates nothing. -/
theorem simPoolAppend_allocated : (m.simPoolAppend l a).allocated = m.allocated := by
  unfold simPoolAppend
  dsimp only
  split <;> rfl

/-- The first thread of a list is its head and its tail. -/
theorem simPoolAppend_of_empty (hhead : (m.lists l).head = 0) :
    m.simPoolAppend l a = (m.setList l ⟨a, a⟩).link a 0 := by
  simp [simPoolAppend, hhead]

/-- A further thread is linked behind the tail. -/
theorem simPoolAppend_of_ne (hhead : (m.lists l).head ≠ 0) :
    m.simPoolAppend l a =
      ((m.link (m.lists l).tail a).setList l ⟨(m.lists l).head, a⟩).link a 0 := by
  simp [simPoolAppend, hhead]

/-- A list hung behind the pool, or put in the place of an empty pool. -/
def gather (m : ThreadMem) (chain : SimPoolList) : ThreadMem :=
  if chain.head = 0 then m
  else if (m.lists .pool).head = 0 then m.setList .pool chain
  else m.splice chain

/-- The memory with the two run lists emptied. -/
def clear (m : ThreadMem) : ThreadMem := (m.setList .next ⟨0, 0⟩).setList .active ⟨0, 0⟩

/-- The memory with the threads of the run lists in the pool. -/
def gatherAll (m : ThreadMem) : ThreadMem :=
  ((m.gather (m.lists .active)).gather (m.lists .next)).clear

/-- An empty pool takes over the list. -/
theorem gather_of_empty (hpool : (m.lists .pool).head = 0) :
    m.gather pool = if pool.head ≠ 0 then m.setList .pool pool else m := by
  by_cases hhead : pool.head = 0
  · simp [gather, hhead]
  · simp [gather, hhead, hpool]

/-- A pool with threads gets the list linked behind its tail. -/
theorem gather_of_ne (hpool : (m.lists .pool).head ≠ 0) :
    m.gather pool = if pool.head ≠ 0 then m.splice pool else m := by
  by_cases hhead : pool.head = 0
  · simp [gather, hhead]
  · simp [gather, hhead, hpool]

theorem splice_head : ((m.splice pool).lists .pool).head = (m.lists .pool).head := by
  simp [splice]

private theorem allocated_gather : (m.gather pool).allocated = m.allocated := by
  unfold gather
  split
  · rfl
  · split <;> rfl

/-- Gathering the lists allocates nothing. -/
theorem allocated_gatherAll : m.gatherAll.allocated = m.allocated :=
  allocated_gather.trans allocated_gather

@[simp] theorem clear_pool : m.clear.lists .pool = m.lists .pool := by
  simp [clear]

/-- Emptying the run lists does not touch the pool. -/
theorem clear_simPoolAppend (ha : a ≠ 0) :
    m.clear.simPoolAppend .pool a = ((m.gather ⟨a, a⟩).link a 0).clear := by
  by_cases hhead : (m.lists .pool).head = 0
  · rw [simPoolAppend_of_empty (by simpa using hhead), gather_of_empty hhead, if_pos ha]
    unfold clear setList link
    congr 1
    funext l
    cases l <;> simp
  · rw [simPoolAppend_of_ne (by simpa using hhead), gather_of_ne hhead, if_pos ha, clear_pool]
    unfold clear splice setList link
    congr 1
    funext l
    cases l <;> simp

/-- In each of its cases `release_all_threads` gathers the lists and appends the thread. -/
theorem releaseAllThreads_eq (m : ThreadMem) (thread : Nat) :
    m.releaseAllThreads thread =
      if thread = 0 then m.gatherAll else m.gatherAll.simPoolAppend .pool thread := by
  have hcases : m.releaseAllThreads thread =
      (if thread = 0 then (m.gather (m.lists .active)).gather (m.lists .next)
        else (((m.gather (m.lists .active)).gather (m.lists .next)).gather
          ⟨thread, thread⟩).link thread 0).clear := by
    unfold releaseAllThreads clear
    dsimp only
    congr 2
    -- which of the lists have threads, and whether a thread is held
    by_cases hpool : (m.lists .pool).head = 0 <;> by_cases hactive : (m.lists .active).head = 0 <;>
      by_cases hnext : (m.lists .next).head = 0 <;> by_cases hthread : thread = 0 <;>
      simp [gather, splice_head, hpool, hactive, hnext, hthread]
  rw [hcases]
  unfold gatherAll
  split
  · rfl
  · next hthread => rw [clear_simPoolAppend hthread]

/-- The addresses in variables and in the lists. -/
def places (held : List Nat) (xs : ThreadList → List Nat) : List Nat :=
  held ++ (xs .pool ++ (xs .active ++ xs .next))

/-- A place is a variable or a position in a list. -/
theorem mem_places : a ∈ places held xs ↔ a ∈ held ∨ ∃ l, a ∈ xs l := by
  simp only [places, List.mem_append]
  constructor
  · rintro (h | h | h | h)
    · exact .inl h
    · exact .inr ⟨.pool, h⟩
    · exact .inr ⟨.active, h⟩
    · exact .inr ⟨.next, h⟩
  · rintro (h | ⟨l, h⟩)
    · exact .inl h
    · cases l
      · exact .inr (.inl h)
      · exact .inr (.inr (.inl h))
      · exact .inr (.inr (.inr h))

/-- The thread a variable points to, if any. -/
def inVariable (thread : Nat) : List Nat := if thread = 0 then [] else [thread]

/-- The same places, where only one list differs. -/
theorem places_update_perm {ys zs : List Nat} (hys : (held ++ xs l).Perm (ys ++ zs)) :
    (places held xs).Perm (places ys (Function.update xs l zs)) := by
  rw [List.perm_iff_count] at hys ⊢
  intro a
  have ha := hys a
  simp only [List.count_append] at ha
  cases l <;> simp only [places, List.count_append, Function.update_self, ne_eq, reduceCtorEq,
    not_false_eq_true, Function.update_of_ne] <;> omega

/-- Where every thread is: `xs` are the addresses in each list, and `held` those in variables.
The lists are linked and without a cycle, each allocated thread is at one place, and the thread
`new_nfa_sim` makes is among them. -/
structure Placed (m : ThreadMem) (held : List Nat) (xs : ThreadList → List Nat) : Prop where
  queue : ∀ l, Queue 0 m.next (m.lists l).head (m.lists l).tail (xs l)
  perm : (places held xs).Perm (List.range' 1 m.allocated)
  allocated_pos : 0 < m.allocated

namespace Placed

/-- No thread is in two places. -/
theorem nodup (h : Placed m held xs) : (places held xs).Nodup :=
  h.perm.nodup_iff.mpr List.nodup_range'

/-- The allocated threads are those at some place. -/
theorem mem_iff (h : Placed m held xs) : a ∈ places held xs ↔ 0 < a ∧ a ≤ m.allocated := by
  rw [h.perm.mem_iff, List.mem_range'_1]
  omega

/-- There is a thread somewhere. -/
theorem places_ne_nil (h : Placed m held xs) : places held xs ≠ [] := by
  have hone : 1 ∈ places held xs := h.mem_iff.mpr ⟨Nat.one_pos, h.allocated_pos⟩
  exact List.ne_nil_of_mem hone

/-- No list names a thread twice. -/
theorem nodup_list (h : Placed m held xs) (l : ThreadList) : (xs l).Nodup := by
  have hall := h.nodup
  simp only [places, List.nodup_append] at hall
  cases l
  · exact hall.2.1.1
  · exact hall.2.1.2.1.1
  · exact hall.2.1.2.1.2.1

/-- No thread is in two lists. -/
theorem notMem_of_ne (h : Placed m held xs) (hne : l ≠ l') (ha : a ∈ xs l) : a ∉ xs l' := by
  have hall := h.nodup
  simp only [places, List.nodup_append, List.mem_append] at hall
  obtain ⟨-, ⟨-, ⟨-, -, hactive⟩, hpool⟩, -⟩ := hall
  intro ha'
  cases l <;> cases l'
  · exact hne rfl
  · exact hpool a ha a (.inl ha') rfl
  · exact hpool a ha a (.inr ha') rfl
  · exact hpool a ha' a (.inl ha) rfl
  · exact hne rfl
  · exact hactive a ha a ha' rfl
  · exact hpool a ha' a (.inr ha) rfl
  · exact hactive a ha' a ha rfl
  · exact hne rfl

/-- A thread in a variable is in no list. -/
theorem notMem_of_held (h : Placed m held xs) (ha : a ∈ held) (l : ThreadList) : a ∉ xs l := by
  have hall := (List.nodup_append.mp h.nodup).2.2
  intro hl
  refine hall a ha a ?_ rfl
  cases l <;> simp [hl]

/-- No two variables name one thread. -/
theorem nodup_held (h : Placed m held xs) : held.Nodup := (List.nodup_append.mp h.nodup).1

/-- The null address is in no place. -/
theorem ne_zero (h : Placed m held xs) (ha : a ∈ places held xs) : a ≠ 0 := by
  have := h.mem_iff.mp ha
  omega

theorem held_ne_zero (h : Placed m (a :: held) xs) : a ≠ 0 :=
  h.ne_zero (mem_places.mpr (.inl List.mem_cons_self))

/-- The lists and their links are all that matters. -/
theorem of_same {m' : ThreadMem} (h : Placed m held xs) (hlists : m'.lists = m.lists)
    (hnext : m'.next = m.next) (hallocated : m'.allocated = m.allocated) : Placed m' held xs := by
  refine ⟨fun l => ?_, ?_, ?_⟩
  · rw [hlists, hnext]
    exact h.queue l
  · rw [hallocated]
    exact h.perm
  · rw [hallocated]
    exact h.allocated_pos

/-- The head of an empty list is `NULL`. -/
theorem head_eq_zero_iff (h : Placed m held xs) (l : ThreadList) :
    (m.lists l).head = 0 ↔ xs l = [] :=
  (h.queue l).head_eq_null_iff

/-- An empty list gives no thread. -/
theorem shift_nil (h : Placed m held xs) (hl : xs l = []) : m.simPoolShift l = (0, m) := by
  have hhead := (h.head_eq_zero_iff l).mpr hl
  simp [simPoolShift, hhead]

/-- The first thread of a list is taken from it. -/
theorem shift (h : Placed m held xs) (hl : xs l = a :: rest) :
    (m.simPoolShift l).1 = a ∧
      Placed (m.simPoolShift l).2 (a :: held) (Function.update xs l rest) := by
  have hqueue : Queue 0 m.next (m.lists l).head (m.lists l).tail (a :: rest) := hl ▸ h.queue l
  have hnodup : (a :: rest).Nodup := hl ▸ h.nodup_list l
  have hhead : (m.lists l).head = a := hqueue.head_eq
  have hne : a ≠ 0 := h.ne_zero (mem_places.mpr (.inr ⟨l, by simp [hl]⟩))
  have hshift : m.simPoolShift l = (a, ((m.setList l ⟨if a = (m.lists l).tail then 0 else m.next a,
      if a = (m.lists l).tail then 0 else (m.lists l).tail⟩).link a 0)) := by
    unfold simPoolShift
    simp only [hhead]
    rw [if_pos hne]
    split <;> rfl
  rw [hshift]
  refine ⟨rfl, fun l' => ?_, ?_, h.allocated_pos⟩
  · by_cases hll : l' = l
    · subst hll
      have hrest := hqueue.shift hnodup
      rw [hhead] at hrest
      simpa using hrest
    · simp only [link_lists, link_next, setList_lists, setList_next, Function.update_of_ne hll]
      exact (h.queue l').update_of_notMem
        (h.notMem_of_ne (Ne.symm hll) (by rw [hl]; exact List.mem_cons_self))
  · refine (places_update_perm ?_).symm.trans h.perm
    rw [hl]
    exact List.perm_middle

/-- A thread in a variable is put behind the last one of a list. -/
theorem append (h : Placed m (a :: held) xs) (l : ThreadList) :
    Placed (m.simPoolAppend l a) held (Function.update xs l (xs l ++ [a])) := by
  have ha (l' : ThreadList) : a ∉ xs l' := h.notMem_of_held List.mem_cons_self l'
  refine ⟨fun l' => ?_, ?_, ?_⟩
  · by_cases hempty : xs l = []
    · rw [simPoolAppend_of_empty ((h.head_eq_zero_iff l).mpr hempty)]
      by_cases hll : l' = l
      · subst hll
        simpa [hempty] using Queue.singleton h.held_ne_zero
      · simp only [link_lists, link_next, setList_lists, setList_next, Function.update_of_ne hll]
        exact (h.queue l').update_of_notMem (ha l')
    · rw [simPoolAppend_of_ne (fun hhead => hempty ((h.head_eq_zero_iff l).mp hhead))]
      by_cases hll : l' = l
      · subst hll
        simpa using (h.queue l').append hempty h.held_ne_zero (ha l') (h.nodup_list l')
      · simp only [link_lists, link_next, setList_lists, setList_next, Function.update_of_ne hll]
        have htail := (h.queue l).tail_mem hempty
        exact ((h.queue l').update_of_notMem (h.notMem_of_ne (Ne.symm hll) htail)).update_of_notMem
          (ha l')
  · rw [simPoolAppend_allocated]
    refine (places_update_perm ?_).symm.trans h.perm
    simpa using (List.perm_append_singleton a (held ++ xs l)).symm
  · rw [simPoolAppend_allocated]
    exact h.allocated_pos

/-- A list hung behind the pool; the links of other threads stay. -/
private theorem queue_gather {ps ys : List Nat}
    (hpool : Queue 0 m.next (m.lists .pool).head (m.lists .pool).tail ps)
    (hchain : Queue 0 m.next pool.head pool.tail ys) (hnodup : (ps ++ ys).Nodup) :
    Queue 0 (m.gather pool).next ((m.gather pool).lists .pool).head
      ((m.gather pool).lists .pool).tail (ps ++ ys) := by
  by_cases hys : ys = []
  · have hhead := hchain.head_eq_null_iff.mpr hys
    simpa [gather, hhead, hys] using hpool
  · have hhead : pool.head ≠ 0 := fun hzero => hys (hchain.head_eq_null_iff.mp hzero)
    by_cases hps : ps = []
    · rw [gather_of_empty (hpool.head_eq_null_iff.mpr hps), if_pos hhead, hps, List.nil_append]
      simpa using hchain
    · rw [gather_of_ne (fun hzero => hps (hpool.head_eq_null_iff.mp hzero)), if_pos hhead]
      simpa [splice] using hpool.splice hchain hps hys hnodup

private theorem gather_next {ps : List Nat}
    (hpool : Queue 0 m.next (m.lists .pool).head (m.lists .pool).tail ps) (ha : a ∉ ps) :
    (m.gather pool).next a = m.next a := by
  by_cases hhead : (m.lists .pool).head = 0
  · rw [gather_of_empty hhead]
    split <;> rfl
  · rw [gather_of_ne hhead]
    split
    · have htail := hpool.tail_mem fun hps => hhead (hpool.head_eq_null_iff.mpr hps)
      have hne : a ≠ (m.lists .pool).tail := fun heq => ha (heq ▸ htail)
      exact Function.update_of_ne hne pool.head m.next
    · rfl

/-- All threads of the lists go to the pool. -/
theorem gatherAll (h : Placed m held xs) :
    Placed m.gatherAll held (Function.update (fun _ => []) .pool
      (xs .pool ++ xs .active ++ xs .next)) := by
  have hall := (List.nodup_append.mp h.nodup).2.1
  rw [← List.append_assoc] at hall
  have hnext : Queue 0 (m.gather (m.lists .active)).next (m.lists .next).head
      (m.lists .next).tail (xs .next) :=
    (h.queue .next).congr fun a ha =>
      gather_next (h.queue .pool) (h.notMem_of_ne (by decide) ha)
  have hfirst := queue_gather (h.queue .pool) (h.queue .active) (List.nodup_append.mp hall).1
  have hboth := queue_gather hfirst hnext hall
  refine ⟨fun l => ?_, ?_, ?_⟩
  · cases l
    · simpa [ThreadMem.gatherAll, ThreadMem.clear] using hboth
    · simpa [ThreadMem.gatherAll, ThreadMem.clear] using Queue.nil
    · simpa [ThreadMem.gatherAll, ThreadMem.clear] using Queue.nil
  · rw [allocated_gatherAll]
    refine List.Perm.trans (List.Perm.of_eq ?_) h.perm
    simp [places]
  · rw [allocated_gatherAll]
    exact h.allocated_pos

/-- All threads go to the pool, also the one in a variable. -/
theorem releaseAllThreads {thread : Nat} (h : Placed m (inVariable thread) xs) :
    Placed (m.releaseAllThreads thread) [] (Function.update (fun _ => []) .pool
      (xs .pool ++ xs .active ++ xs .next ++ inVariable thread)) := by
  rw [releaseAllThreads_eq]
  unfold inVariable at h ⊢
  by_cases hthread : thread = 0
  · rw [if_pos hthread] at h
    rw [if_pos hthread, if_pos hthread, List.append_nil]
    exact h.gatherAll
  · rw [if_neg hthread] at h
    rw [if_neg hthread, if_neg hthread]
    simpa using h.gatherAll.append .pool

/-- The next list becomes the active one, which has run out of threads. -/
theorem swap (h : Placed m held xs) (hactive : xs .active = []) :
    Placed m.swapNextWActive held
      (Function.update (Function.update xs .active (xs .next)) .next []) := by
  refine ⟨fun l => ?_, ?_, h.allocated_pos⟩
  · cases l
    · simpa [swapNextWActive] using h.queue .pool
    · simpa [swapNextWActive] using h.queue .next
    · simpa [swapNextWActive] using Queue.nil
  · refine List.Perm.trans (List.Perm.of_eq ?_) h.perm
    simp [places, hactive]

/-- A new thread is at an address no other one has. -/
theorem allocate (h : Placed m held xs) (f : NFASim → NFASim) :
    Placed { (m.modify (m.allocated + 1) f).link (m.allocated + 1) 0 with
      allocated := m.allocated + 1 } ((m.allocated + 1) :: held) xs := by
  have hnew : m.allocated + 1 ∉ places held xs := by
    rw [h.mem_iff]
    omega
  refine ⟨fun l => ?_, ?_, Nat.succ_pos m.allocated⟩
  · exact (h.queue l).update_of_notMem fun hl => hnew (mem_places.mpr (.inr ⟨l, hl⟩))
  · change List.Perm ((m.allocated + 1) :: places held xs) (List.range' 1 (m.allocated + 1))
    rw [List.range'_concat, Nat.one_mul, Nat.add_comm 1]
    exact ((List.perm_append_singleton _ _).trans (h.perm.symm.cons _)).symm

end Placed

end ThreadMem

end Recognizer
