import Recognizer.Slist.Refine

/-!
# The pool of a list conserves its items

Items go back to the pool of a list one at a time, by a shift, or as a whole chain, by a
clear. The number of items in the chain and in the pool of a list, and the number of items
that were ever allocated, change together.
-/

namespace Recognizer

namespace Slist

open ListMem

/-- The calls on one list that take items from its pool and put them back. -/
inductive ItemOp where
  | push (d : Nat)
  | append (d : Nat)
  | insertAt (d : Nat) (idx : Int)
  | shift
  | clear

/-- The call on a list. -/
def ItemOp.on (l : Nat) : ItemOp → Op
  | .push d => .push l d
  | .append d => .append l d
  | .insertAt d idx => .insertAt l d idx
  | .shift => .shift l
  | .clear => .clear l

section Counters

variable {m m' mf : ListMem} {l d item : Nat}

/-- An operation counts as many items of a list more as it takes from the heap, which it uses
only when the pool is empty. -/
structure Counts (m m' : ListMem) (l : Nat) : Prop where
  total : (m'.lists l).size + (m'.lists l).poolSize - m'.nextItem =
    (m.lists l).size + (m.lists l).poolSize - m.nextItem
  heap : m'.nextItem ≠ m.nextItem → (m.lists l).poolSize ≤ 0

theorem Counts.refl (m : ListMem) (l : Nat) : Counts m m l := ⟨rfl, fun hne => absurd rfl hne⟩

/-- A new item is taken from the pool or from the heap; it is not counted in the list yet. -/
structure TakesItem (m m' : ListMem) (l : Nat) : Prop where
  poolSize : (m'.lists l).poolSize - m'.nextItem = (m.lists l).poolSize - m.nextItem - 1
  size : (m'.lists l).size = (m.lists l).size
  heap : m'.nextItem ≠ m.nextItem → (m.lists l).poolSize ≤ 0

theorem takesItem_newListItem (hitem : m.newListItem l d = (item, m')) : TakesItem m m' l := by
  unfold ListMem.newListItem at hitem
  by_cases hpool : (m.lists l).poolSize > 0
  · rw [if_pos hpool] at hitem
    obtain ⟨-, rfl⟩ := Prod.mk.inj hitem
    refine ⟨?_, ?_, fun hne => absurd rfl hne⟩
    · simp
      omega
    · simp
  · rw [if_neg hpool] at hitem
    obtain ⟨-, rfl⟩ := Prod.mk.inj hitem
    refine ⟨?_, rfl, fun _ => not_lt.mp hpool⟩
    simp
    omega

/-- The item is counted when it is linked into the list. -/
theorem TakesItem.counts (h : TakesItem m m' l) (hsize : (mf.lists l).size = (m'.lists l).size + 1)
    (hpool : (mf.lists l).poolSize = (m'.lists l).poolSize) (hnext : mf.nextItem = m'.nextItem) :
    Counts m mf l := by
  refine ⟨?_, ?_⟩
  · have htaken := h.poolSize
    rw [hsize, hpool, hnext, h.size]
    omega
  · rw [hnext]
    exact h.heap

theorem counts_listPush (m : ListMem) (l d : Nat) : Counts m (m.listPush l d) l := by
  obtain ⟨item, m', hitem⟩ : ∃ item m', m.newListItem l d = (item, m') := ⟨_, _, rfl⟩
  unfold ListMem.listPush
  rw [hitem]
  dsimp only
  apply (takesItem_newListItem hitem).counts
  all_goals split <;> simp

theorem counts_listAppend (hrun : m.listAppend l d = some mf) : Counts m mf l := by
  obtain ⟨item, m', hitem⟩ : ∃ item m', m.newListItem l d = (item, m') := ⟨_, _, rfl⟩
  unfold ListMem.listAppend at hrun
  rw [hitem] at hrun
  split at hrun
  · obtain rfl := Option.some.inj hrun
    apply (takesItem_newListItem hitem).counts
    all_goals simp
  · split at hrun
    · cases hrun
    · obtain rfl := Option.some.inj hrun
      apply (takesItem_newListItem hitem).counts
      all_goals simp

theorem counts_listInsertAt (m : ListMem) (l d : Nat) (idx : Int) :
    Counts m (m.listInsertAt l d idx).2 l := by
  obtain ⟨item, m', hitem⟩ : ∃ item m', m.newListItem l d = (item, m') := ⟨_, _, rfl⟩
  unfold ListMem.listInsertAt
  rw [hitem]
  dsimp only
  split
  · exact .refl m l
  · rw [ite_setTail]
    generalize htail : (m'.setList l _) = mt
    have hsize : (mt.lists l).size = (m'.lists l).size := by simp [← htail]
    have hpool : (mt.lists l).poolSize = (m'.lists l).poolSize := by simp [← htail]
    have hnext : mt.nextItem = m'.nextItem := by simp [← htail]
    apply (takesItem_newListItem hitem).counts
    all_goals
      split
      · simp [hsize, hpool, hnext]
      · split <;> simp [hsize, hpool, hnext]

theorem counts_listShift (m : ListMem) (l : Nat) : Counts m (m.listShift l).2 l := by
  unfold ListMem.listShift
  split
  · exact .refl m l
  · refine ⟨?_, fun hne => absurd rfl hne⟩
    simp [ListMem.releaseToPool]

theorem counts_listClear (hrun : m.listClear l = some mf) : Counts m mf l := by
  unfold ListMem.listClear at hrun
  dsimp only at hrun
  split at hrun
  · obtain rfl := Option.some.inj hrun
    exact .refl m l
  · split at hrun
    · obtain rfl := Option.some.inj hrun
      refine ⟨?_, fun hne => absurd rfl hne⟩
      simp [add_comm]
    · obtain ⟨dst, -, hrun⟩ := Option.bind_eq_some_iff.mp hrun
      obtain rfl := Option.some.inj hrun
      refine ⟨?_, fun hne => absurd rfl hne⟩
      simp [add_comm]

/-- Every call keeps the counters in step. -/
theorem counts_step (op : ItemOp) (hrun : m.step (op.on l) = some mf) : Counts m mf l := by
  cases op with
  | push d =>
    obtain rfl := Option.some.inj hrun
    exact counts_listPush m l d
  | append d => exact counts_listAppend hrun
  | insertAt d idx =>
    obtain rfl := Option.some.inj hrun
    exact counts_listInsertAt m l d idx
  | shift =>
    obtain rfl := Option.some.inj hrun
    exact counts_listShift m l
  | clear => exact counts_listClear hrun

end Counters

/-- The chain and the pool of a list contain every item from an address on. -/
structure Conserves (m : ListMem) (l first : Nat) (live pool : List Nat) : Prop where
  chain : Chain m.next (m.lists l).head live 0
  poolChain : Chain m.next (m.lists l).pool pool 0
  zero : 0 ∉ live ++ pool
  disjoint : (live ++ pool).Nodup
  size : (m.lists l).size = live.length
  poolSize : (m.lists l).poolSize = pool.length
  allocated : ∀ a, a ∈ live ++ pool ↔ first ≤ a ∧ a < m.nextItem

/-- What a run of calls on one list keeps. -/
structure Accounted (m : ListMem) (l first : Nat) (cs ps xs : List Nat) : Prop
    extends Holds m l cs ps xs where
  first_le : ∀ a ∈ cs ++ ps, first ≤ a
  total : (m.lists l).size + (m.lists l).poolSize = m.nextItem - first

section Run

variable {m mf : ListMem} {l first : Nat} {cs ps xs : List Nat}

/-- As many different items between two addresses as there are, are all of them. -/
theorem mem_iff_of_length {items : List Nat} {k n : Nat} (hnodup : items.Nodup)
    (hbounds : ∀ a ∈ items, k ≤ a ∧ a < n) (hlength : (items.length : Int) = n - k) (a : Nat) :
    a ∈ items ↔ k ≤ a ∧ a < n := by
  have hsubset : items ⊆ List.range' k (n - k) := by
    intro b hb
    have hbound := hbounds b hb
    rw [List.mem_range'_1]
    omega
  have hperm : items.Perm (List.range' k (n - k)) := by
    refine (List.subperm_of_subset hnodup hsubset).perm_of_length_le ?_
    rw [List.length_range']
    omega
  rw [hperm.mem_iff, List.mem_range'_1]
  omega

/-- The items counted are the items allocated. -/
theorem Accounted.conserves (h : Accounted m l first cs ps xs) : Conserves m l first cs ps where
  chain := h.chain
  poolChain := h.pool
  zero hmem := (h.bound 0 hmem).1 rfl
  disjoint := h.nodup
  size := h.size
  poolSize := h.poolSize
  allocated := by
    refine mem_iff_of_length h.nodup (fun a ha => ⟨h.first_le a ha, (h.bound a ha).2⟩) ?_
    have htotal := h.total
    rw [h.size, h.poolSize] at htotal
    rw [List.length_append]
    exact_mod_cast htotal

/-- A list takes items from the heap only while its pool is empty. -/
theorem Conserves.heap {live pool : List Nat} (h : Conserves m l first live pool) (op : ItemOp)
    (hrun : m.step (op.on l) = some mf) (hne : mf.nextItem ≠ m.nextItem) :
    pool = [] ∧ (m.lists l).pool = 0 := by
  have hsize := (counts_step op hrun).heap hne
  rw [h.poolSize] at hsize
  obtain rfl := List.eq_nil_of_length_eq_zero (by omega : pool.length = 0)
  exact ⟨rfl, h.poolChain⟩

/-- One call. -/
theorem Accounted.step (h : Accounted m l first cs ps xs) (hfirst : first ≤ m.nextItem)
    (op : ItemOp) : ∃ mf cs' ps' xs', m.step (op.on l) = some mf ∧
      Accounted mf l first cs' ps' xs' ∧ m.nextItem ≤ mf.nextItem := by
  have hkeep : ∀ {mf cs' ps' xs'}, m.step (op.on l) = some mf → Holds mf l cs' ps' xs' →
      Touches m mf [l] (cs ++ ps) (cs' ++ ps') → ∃ mf cs' ps' xs', m.step (op.on l) = some mf ∧
        Accounted mf l first cs' ps' xs' ∧ m.nextItem ≤ mf.nextItem := by
    intro mf cs' ps' xs' hrun hholds ht
    refine ⟨mf, cs', ps', xs', hrun, ⟨hholds, ?_, ?_⟩, ht.nextItem⟩
    · intro a ha
      rcases ht.cells a ha with hold | hfresh
      · exact h.first_le a hold
      · exact hfirst.trans hfresh
    · have htotal := (counts_step op hrun).total
      have hold := h.total
      omega
  cases op with
  | push d =>
    obtain ⟨cs', ps', hf, ht⟩ := h.toHolds.listPush d
    exact hkeep rfl hf ht
  | append d =>
    obtain ⟨mf, ps', item, heq, hf, ht⟩ := h.toHolds.listAppend d
    exact hkeep heq hf ht
  | insertAt d idx =>
    by_cases hidx : 0 ≤ idx
    · obtain ⟨cs', ps', hf, ht⟩ := h.toHolds.listInsertAt d hidx
      exact hkeep rfl hf ht
    · have hsame : (m.listInsertAt l d idx).2 = m := by
        rw [ListMem.listInsertAt, if_pos (not_le.mp hidx)]
      exact hkeep (congrArg some hsame) h.toHolds (Touches.refl m [l] _)
  | shift =>
    obtain ⟨-, cs', ps', hf, ht⟩ := h.toHolds.listShift
    exact hkeep rfl hf ht
  | clear =>
    obtain ⟨mf, cs', ps', heq, hf, ht⟩ := h.toHolds.listClear
    exact hkeep heq hf ht

/-- A sequence of calls. -/
theorem Accounted.run (h : Accounted m l first cs ps xs) (hfirst : first ≤ m.nextItem)
    (ops : List ItemOp) : ∃ mf cs' ps' xs', m.run (ops.map (ItemOp.on l)) = some mf ∧
      Accounted mf l first cs' ps' xs' := by
  induction ops generalizing m cs ps xs with
  | nil => exact ⟨m, cs, ps, xs, rfl, h⟩
  | cons op ops ih =>
    obtain ⟨m₁, cs₁, ps₁, xs₁, hstep, h₁, hnext⟩ := h.step hfirst op
    obtain ⟨mf, cs', ps', xs', hrun, hf⟩ := ih h₁ (hfirst.trans hnext)
    refine ⟨mf, cs', ps', xs', ?_, hf⟩
    rw [List.map_cons, ListMem.run, hstep, Option.bind_some, hrun]

/-- A new list has no items. -/
theorem accounted_newList (hpos : 0 < m.nextItem) :
    Accounted m.newList.2 m.nextList m.nextItem [] [] [] := by
  refine ⟨⟨⟨?_, ?_, ?_, ?_, ?_, ?_, hpos⟩, rfl, ?_, ?_, ?_⟩, ?_, ?_⟩
  · simp [Seg]
  all_goals simp

end Run

/-- **The pool of a list conserves its items.** Behind every sequence of calls on a new list
its chain and its pool are disjoint and end, the two counters are their lengths, together
they contain every item allocated since the list was made, and the next call allocates an
item only when the pool is empty. -/
theorem run_conserves {m : ListMem} (hpos : 0 < m.nextItem) (ops : List ItemOp) :
    ∃ mf live pool, m.newList.2.run (ops.map (ItemOp.on m.nextList)) = some mf ∧
      Conserves mf m.nextList m.nextItem live pool ∧
      ∀ op m', mf.step (ItemOp.on m.nextList op) = some m' → m'.nextItem ≠ mf.nextItem →
        pool = [] ∧ (mf.lists m.nextList).pool = 0 := by
  obtain ⟨mf, cs, ps, xs, hrun, h⟩ := (accounted_newList hpos).run (le_refl _) ops
  exact ⟨mf, cs, ps, hrun, h.conserves, fun op _ hstep hne => h.conserves.heap op hstep hne⟩

/-- A list that is cleared twice. -/
theorem run_conserves_cleared : ∃ mf live pool, ({} : ListMem).newList.2.run
      ([.push 5, .append 6, .shift, .clear, .insertAt 7 0, .append 8, .append 9,
        .clear].map (ItemOp.on ({} : ListMem).nextList)) = some mf ∧
      Conserves mf ({} : ListMem).nextList ({} : ListMem).nextItem live pool ∧
      ∀ op m', mf.step (ItemOp.on ({} : ListMem).nextList op) = some m' →
        m'.nextItem ≠ mf.nextItem → pool = [] ∧ (mf.lists ({} : ListMem).nextList).pool = 0 :=
  run_conserves Nat.zero_lt_one _

end Slist

end Recognizer
