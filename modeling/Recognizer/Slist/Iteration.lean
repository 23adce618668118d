import Recognizer.Slist.Cursor

/-!
# Iterating over a list

`list_set_iterator` goes on from where the cursor stands, so the element it comes to is the
requested one only if the link of the cursor belongs to its index; and it leaves the cursor
where it is when the requested index is not in the list, which `list_for_each` does not
notice.
-/

namespace Recognizer

namespace Slist

open ListMem

/-- The elements from one index up to another one. -/
def slice (xs : List Nat) (start finish : Int) : List Nat :=
  (xs.drop start.toNat).take (finish - start).toNat

/-- From the cursor `list_set_iterator` comes to the element at the index `k`. -/
def ListMem.LeadsTo (m : ListMem) (l : Nat) (k : Int) : Prop :=
  (m.lists l).iterIdx < 0 ∨ k < (m.lists l).iterIdx ∨ k = 0 ∧ (m.lists l).iterIdx = 0 ∨
    m.read (m.lists l).iter = (m.nth (m.lists l).iterIdx.toNat (m.lists l).head).2

/-- The cursor stands at no element, or where the loop ends at once. -/
def ListMem.StandsOutside (m : ListMem) (l : Nat) (finish : Int) : Prop :=
  (m.lists l).iterIdx < 0 ∨ (m.lists l).size ≤ (m.lists l).iterIdx ∨
    finish ≤ (m.lists l).iterIdx ∧
      ((m.lists l).iterIdx = 0 ∨ m.read (m.lists l).iter ≠ 0)

/-- The list, which stands for a sequence, may be iterated over from `start` to `finish`. -/
structure ListMem.Iterable (m : ListMem) (l : Nat) (xs : List Nat) (start finish : Int) :
    Prop where
  inside : start < (m.lists l).size → m.LeadsTo l start
  outside : (m.lists l).size ≤ start → m.StandsOutside l finish
  elements : 0 ∉ slice xs start finish

/-- `list_for_each` visits the elements of the slice in order, up to the one in which its
body leaves the loop. -/
def ListMem.VisitsSlice (m : ListMem) (l : Nat) (xs : List Nat) (start finish : Int) : Prop :=
  ∀ n, ∃ m', m.listForEach l start finish n = some ((slice xs start finish).take (n + 1), m')

/-- `list_set_iterator` makes the next `list_get_next` return the element at the index. -/
def ListMem.GivesElement (m : ListMem) (l : Nat) (xs : List Nat) (k : Int) : Prop :=
  ∃ m₁ m₂, m.listSetIterator l k = some (1, m₁) ∧
    m₁.listGetNext l = some (xs.getD k.toNat 0, m₂)

/-- The cursor stands at an index, with the link in front of the item there. -/
structure CursorAt (m : ListMem) (l : Nat) (cs : List Nat) (k : Nat) : Prop where
  idx : (m.lists l).iterIdx = k
  link : k = 0 ∨ m.read (m.lists l).iter = (cs.drop k).headD 0

section Iterate

variable {m m' : ListMem} {l k n : Nat} {cs ps xs : List Nat} {iter : Link} {finish : Int}

/-- What the items of a list are does not depend on its cursor. -/
theorem chain_of_atHeads (h : Holds m.atHeads l cs ps xs) :
    Chain m.next (m.lists l).head cs 0 := h.chain

theorem size_of_atHeads (h : Holds m.atHeads l cs ps xs) : (m.lists l).size = cs.length := h.size

theorem data_of_atHeads (h : Holds m.atHeads l cs ps xs) : cs.map m.data = xs := h.data

theorem ne_zero_of_atHeads (h : Holds m.atHeads l cs ps xs) {a : Nat} (ha : a ∈ cs) : a ≠ 0 :=
  (h.bound a (List.mem_append_left ps ha)).1

theorem head_ne_zero_of_atHeads (h : Holds m.atHeads l cs ps xs) (hk : k < cs.length) :
    (m.lists l).head ≠ 0 := by
  obtain ⟨c, cs, rfl⟩ := List.exists_cons_of_length_pos (Nat.zero_lt_of_lt hk)
  rw [Chain.start_eq (chain_of_atHeads h)]
  exact ne_zero_of_atHeads h List.mem_cons_self

/-- Calls that move cursors keep what a list holds. -/
theorem holds_atHeads_of_agree (h : Holds m.atHeads l cs ps xs) (hagree : Agree m m') :
    Holds m'.atHeads l cs ps xs :=
  h.agree (((agree_atHeads m).symm.trans hagree).trans (agree_atHeads m')) rfl

/-- The item at an index, and the one its link leads to. -/
theorem item_at (h : Holds m.atHeads l cs ps xs) (hk : k < cs.length) :
    ∃ a, (cs.drop k).headD 0 = a ∧ a ≠ 0 ∧ m.next a = (cs.drop (k + 1)).headD 0 ∧
      m.data a = xs.getD k 0 ∧ (m.nth k (m.lists l).head).2 = a ∧
      (k = 0 → (m.lists l).head = a) := by
  obtain ⟨as, a, bs, rfl, rfl⟩ := exists_split hk
  have hchain := chain_of_atHeads h
  obtain ⟨b, hfirst, rfl, hrest⟩ := Chain.append_iff.mp hchain
  have hzero : 0 ∉ as ++ b :: bs := fun hmem => ne_zero_of_atHeads h hmem rfl
  refine ⟨b, by simp, ne_zero_of_atHeads h (by simp), ?_, ?_, ?_, ?_⟩
  · rw [Chain.start_eq hrest, ← List.drop_drop]
    simp
  · rw [← data_of_atHeads h]
    simp
  · rw [nth_eq hchain hzero]
  · intro hnil
    obtain rfl := List.eq_nil_of_length_eq_zero hnil
    exact hfirst

/-- `list_get_next` gives the element at the cursor. -/
theorem CursorAt.listGetNext (hc : CursorAt m l cs k) (h : Holds m.atHeads l cs ps xs)
    (hk : k < cs.length) : ∃ m', m.listGetNext l = some (xs.getD k 0, m') ∧
      CursorAt m' l cs (k + 1) ∧ Agree m m' := by
  obtain ⟨a, ha, hne, hnext, hdata, -, hfirst⟩ := item_at h hk
  have hhead := head_ne_zero_of_atHeads h hk
  have hret : (if (m.lists l).iterIdx = 0 then (m.lists l).head else m.read (m.lists l).iter) =
      a := by
    rw [hc.idx]
    split
    · next hzero => exact hfirst (by omega)
    · next hzero =>
      rw [← ha]
      exact hc.link.resolve_left (by omega)
  unfold ListMem.listGetNext
  dsimp only
  rw [if_neg (by rw [hc.idx, size_of_atHeads h]; omega), hret, if_neg hne]
  refine ⟨_, congrArg (fun d => some (d, _)) hdata, ⟨?_, ?_⟩, (Agree.refl m).setCursor fun _ => rfl⟩
  · rw [setList_self, hc.idx]
    simp
  · rw [setList_self]
    exact .inr hnext

/-- Behind the last element `list_get_next` gives `NULL`. -/
theorem listGetNext_outside (hout : (m.lists l).head = 0 ∨ (m.lists l).iterIdx ≥ (m.lists l).size ∨
    (m.lists l).iterIdx < 0) : m.listGetNext l = some (0, m) := if_pos hout

/-- The iterator is taken over the items between two indices. -/
theorem advance_eq (h : Holds m.atHeads l cs ps xs) (hread : m.read iter = (cs.drop k).headD 0)
    (hn : k + n ≤ cs.length) :
    ∃ iter', m.advance n iter = some iter' ∧ m.read iter' = (cs.drop (k + n)).headD 0 := by
  induction n generalizing iter k with
  | zero => exact ⟨iter, rfl, hread⟩
  | succ n ih =>
    obtain ⟨a, ha, hne, hnext, -⟩ := item_at h (show k < cs.length by omega)
    rw [ha] at hread
    have hstep : m.read (.next (m.read iter)) = (cs.drop (k + 1)).headD 0 := by
      rw [hread]
      exact hnext
    obtain ⟨iter', hrun, hiter'⟩ := ih hstep (by omega)
    refine ⟨iter', ?_, ?_⟩
    · rw [advance, if_neg (by rw [hread]; exact hne), hrun]
    · rw [hiter']
      congr 2
      omega

/-- `list_set_iterator` comes to the element at the index. -/
theorem listSetIterator_inside (h : Holds m.atHeads l cs ps xs) (hk : k < cs.length)
    (hleads : m.LeadsTo l k) :
    ∃ m', m.listSetIterator l k = some (1, m') ∧ CursorAt m' l cs k ∧ Agree m m' := by
  have hsize := size_of_atHeads h
  have hhead := head_ne_zero_of_atHeads h hk
  -- from a link that belongs to an index the loop comes to the requested one
  have hwalk : ∀ i iter, i ≤ k → m.read iter = (cs.drop i).headD 0 →
      ∃ m', (m.advance (k - i) iter).map (fun iter =>
        ((1 : Int), m.setList l fun x => { x with iter := iter, iterIdx := k })) = some (1, m') ∧
          CursorAt m' l cs k ∧ Agree m m' := by
    intro i iter hi hread
    obtain ⟨iter', hrun, hiter'⟩ := advance_eq h hread (show i + (k - i) ≤ cs.length by omega)
    have hagree : Agree m (m.setList l fun x => { x with iter := iter', iterIdx := k }) :=
      (Agree.refl m).setCursor fun _ => rfl
    refine ⟨_, by rw [hrun, Option.map_some], ⟨?_, .inr ?_⟩, hagree⟩
    · rw [setList_self]
    · rw [hagree.read, setList_self, hiter', Nat.add_sub_cancel' hi]
  have hstart : m.read (.head l) = (cs.drop 0).headD 0 := Chain.start_eq (chain_of_atHeads h)
  unfold ListMem.listSetIterator
  dsimp only
  rw [if_neg (by rw [hsize]; omega)]
  split
  · next hsame =>
    refine ⟨m, rfl, ⟨hsame, ?_⟩, .refl m⟩
    rcases hleads with hneg | hlt | ⟨hzero, -⟩ | hread
    · omega
    · omega
    · exact .inl (by omega)
    · right
      obtain ⟨a, ha, -, -, -, hnth, -⟩ := item_at h hk
      rw [hread, hsame, Int.toNat_natCast, hnth, ha]
  · next hother =>
    split
    · obtain ⟨m', hrun, hm'⟩ := hwalk 0 (.head l) (Nat.zero_le k) hstart
      refine ⟨m', ?_, hm'⟩
      rw [if_neg (by omega)]
      exact hrun
    · next hfurther =>
      obtain ⟨i, hi⟩ : ∃ i : Nat, (m.lists l).iterIdx = i := ⟨(m.lists l).iterIdx.toNat, by omega⟩
      have hik : i ≤ k := by omega
      have hread : m.read (m.lists l).iter = (cs.drop i).headD 0 := by
        obtain ⟨a, ha, -, -, -, hnth, -⟩ := item_at h (show i < cs.length by omega)
        rcases hleads with hneg | hlt | ⟨hzero, hidx⟩ | hread
        · omega
        · omega
        · omega
        · rw [hread, hi, Int.toNat_natCast, hnth, ha]
      obtain ⟨m', hrun, hm'⟩ := hwalk i _ hik hread
      refine ⟨m', ?_, hm'⟩
      dsimp only
      rw [hi, if_neg (by omega), ← hrun]
      congr 2
      omega

/-- An index outside the list leaves the cursor alone. -/
theorem listSetIterator_outside {start : Int} (hout : (m.lists l).size ≤ start) :
    m.listSetIterator l start = some (0, m) := if_pos (.inr hout)

/-- The loop ends at the end of the slice or of the list. -/
theorem forEachLoop_stop {x : Nat} (hrun : m.listGetNext l = some (x, m'))
    (hstop : ¬ (x ≠ 0 ∧ (m'.lists l).iterIdx ≤ finish)) (n : Nat) :
    ListMem.forEachLoop l finish n m = some ([], m') := by
  unfold ListMem.forEachLoop
  rw [hrun, Option.bind_eq_bind, Option.bind_some]
  exact if_neg hstop

theorem slice_cons (hk : k < xs.length) (hfinish : (k : Int) < finish) :
    slice xs k finish = xs.getD k 0 :: slice xs (k + 1 : Nat) finish := by
  obtain ⟨j, hj⟩ : ∃ j : Nat, finish - (k : Int) = (j + 1 : Nat) :=
    ⟨(finish - (k : Int)).toNat - 1, by omega⟩
  have hj' : finish - ((k + 1 : Nat) : Int) = j := by omega
  rw [slice, slice, hj, hj', Int.toNat_natCast, Int.toNat_natCast, Int.toNat_natCast,
    Int.toNat_natCast, List.drop_eq_getElem_cons hk, List.take_succ_cons]
  simp [hk]

theorem slice_of_finish_le {start : Int} (hfinish : finish ≤ start) :
    slice xs start finish = [] := by
  rw [slice, Int.toNat_of_nonpos (by omega), List.take_zero]

theorem slice_of_length_le {start : Int} (hstart : (xs.length : Int) ≤ start) :
    slice xs start finish = [] := by
  rw [slice, List.drop_of_length_le (by omega), List.take_nil]

/-- Either nothing of the slice is left or its next element is visited. -/
theorem CursorAt.next (hc : CursorAt m l cs k) (h : Holds m.atHeads l cs ps xs) (finish : Int) :
    (slice xs k finish = [] ∧ ∃ m', (∀ n, ListMem.forEachLoop l finish n m = some ([], m')) ∧
        Agree m m') ∨
      ∃ m', slice xs k finish = xs.getD k 0 :: slice xs (k + 1 : Nat) finish ∧
        m.listGetNext l = some (xs.getD k 0, m') ∧ (m'.lists l).iterIdx ≤ finish ∧
        CursorAt m' l cs (k + 1) ∧ Agree m m' := by
  have hlength : xs.length = cs.length := h.length_eq
  by_cases hk : k < cs.length
  · obtain ⟨m', hrun, hc', hagree⟩ := hc.listGetNext h hk
    by_cases hfinish : (k : Int) < finish
    · refine .inr ⟨m', slice_cons (by omega) hfinish, hrun, ?_, hc', hagree⟩
      rw [hc'.idx]
      omega
    · refine .inl ⟨slice_of_finish_le (not_lt.mp hfinish), m', forEachLoop_stop hrun ?_, hagree⟩
      rw [hc'.idx]
      omega
  · refine .inl ⟨slice_of_length_le (by omega), m, forEachLoop_stop (x := 0) ?_ ?_, .refl m⟩
    · refine listGetNext_outside (.inr (.inl ?_))
      rw [hc.idx, size_of_atHeads h]
      omega
    · exact fun hstop => hstop.1 rfl

/-- The loop visits what is left of the slice. -/
theorem CursorAt.forEachLoop (hc : CursorAt m l cs k) (h : Holds m.atHeads l cs ps xs)
    (helements : 0 ∉ slice xs k finish) (n : Nat) :
    ∃ m', ListMem.forEachLoop l finish n m = some ((slice xs k finish).take (n + 1), m') ∧
      Agree m m' := by
  induction n generalizing m k with
  | zero =>
    rcases hc.next h finish with ⟨hnil, m', hrun, hagree⟩ | ⟨m', hcons, hrun, hle, -, hagree⟩
    · exact ⟨m', by rw [hrun, hnil, List.take_nil], hagree⟩
    · rw [hcons] at helements ⊢
      have hne : xs.getD k 0 ≠ 0 := fun hzero => helements (by rw [hzero]; exact .head _)
      refine ⟨m', ?_, hagree⟩
      unfold ListMem.forEachLoop
      rw [hrun, Option.bind_eq_bind, Option.bind_some]
      exact if_pos ⟨hne, hle⟩
  | succ n ih =>
    rcases hc.next h finish with ⟨hnil, m', hrun, hagree⟩ | ⟨m', hcons, hrun, hle, hc', hagree⟩
    · exact ⟨m', by rw [hrun, hnil, List.take_nil], hagree⟩
    · rw [hcons] at helements ⊢
      have hne : xs.getD k 0 ≠ 0 := fun hzero => helements (by rw [hzero]; exact .head _)
      obtain ⟨mf, hrest, hagree'⟩ := ih hc' (holds_atHeads_of_agree h hagree) fun hzero => helements (.tail _ hzero)
      refine ⟨mf, ?_, hagree.trans hagree'⟩
      unfold ListMem.forEachLoop
      rw [hrun, Option.bind_eq_bind, Option.bind_some]
      refine (if_pos ⟨hne, hle⟩).trans ?_
      dsimp only
      rw [hrest]
      rfl

/-- `list_get_next` reads through the link of the cursor only at an index of the list other
than the first one. -/
theorem listGetNext_defined
    (hread : (m.lists l).iterIdx ≤ 0 ∨ (m.lists l).size ≤ (m.lists l).iterIdx ∨
      m.read (m.lists l).iter ≠ 0) :
    ∃ x m', m.listGetNext l = some (x, m') ∧ Agree m m' ∧
      (x = 0 ∨ 0 ≤ (m.lists l).iterIdx ∧ (m.lists l).iterIdx < (m.lists l).size ∧
        (m'.lists l).iterIdx = (m.lists l).iterIdx + 1) := by
  by_cases hout : (m.lists l).head = 0 ∨ (m.lists l).iterIdx ≥ (m.lists l).size ∨
      (m.lists l).iterIdx < 0
  · exact ⟨0, m, listGetNext_outside hout, .refl m, .inl rfl⟩
  · obtain ⟨hhead, hlt, hnonneg⟩ : (m.lists l).head ≠ 0 ∧
        (m.lists l).iterIdx < (m.lists l).size ∧ 0 ≤ (m.lists l).iterIdx := by
      refine ⟨fun hzero => hout (.inl hzero), ?_, ?_⟩
      · by_contra hge
        exact hout (.inr (.inl (not_lt.mp hge)))
      · by_contra hneg
        exact hout (.inr (.inr (not_le.mp hneg)))
    have hret : (if (m.lists l).iterIdx = 0 then (m.lists l).head
        else m.read (m.lists l).iter) ≠ 0 := by
      split
      · exact hhead
      · next hne => exact (hread.resolve_left (by omega)).resolve_left (by omega)
    unfold ListMem.listGetNext
    dsimp only
    rw [if_neg hout, if_neg hret]
    refine ⟨_, _, rfl, (Agree.refl m).setCursor fun _ => rfl, .inr ⟨hnonneg, hlt, ?_⟩⟩
    rw [setList_self]

/-- From a cursor that stands outside, the loop ends at once. -/
theorem ListMem.StandsOutside.forEachLoop (hout : m.StandsOutside l finish) (n : Nat) :
    ∃ m', ListMem.forEachLoop l finish n m = some ([], m') ∧ Agree m m' := by
  have hread : (m.lists l).iterIdx ≤ 0 ∨ (m.lists l).size ≤ (m.lists l).iterIdx ∨
      m.read (m.lists l).iter ≠ 0 := by
    rcases hout with hneg | hsize | ⟨-, hzero | hread⟩
    · exact .inl hneg.le
    · exact .inr (.inl hsize)
    · exact .inl hzero.le
    · exact .inr (.inr hread)
  obtain ⟨x, m', hrun, hagree, hx⟩ := listGetNext_defined hread
  refine ⟨m', forEachLoop_stop hrun ?_ n, hagree⟩
  rintro ⟨hne, hle⟩
  obtain ⟨hnonneg, hlt, hidx⟩ := hx.resolve_left hne
  rcases hout with hneg | hsize | ⟨hfinish, -⟩
  · omega
  · omega
  · omega

/-- **Iterating over a slice.** -/
theorem ListMem.Iterable.visits {start : Int} (hiter : m.Iterable l xs start finish)
    (h : Holds m.atHeads l cs ps xs) (hstart : 0 ≤ start) (n : Nat) :
    ∃ m', m.listForEach l start finish n = some ((slice xs start finish).take (n + 1), m') ∧
      Agree m m' := by
  have hlength : xs.length = cs.length := h.length_eq
  have hsize := size_of_atHeads h
  obtain ⟨k, rfl⟩ : ∃ k : Nat, start = k := ⟨start.toNat, by omega⟩
  by_cases hk : k < cs.length
  · obtain ⟨m₁, hset, hc, hagree⟩ :=
      listSetIterator_inside h hk (hiter.inside (by rw [hsize]; omega))
    obtain ⟨m', hrun, hagree'⟩ :=
      hc.forEachLoop (holds_atHeads_of_agree h hagree) hiter.elements n
    refine ⟨m', ?_, hagree.trans hagree'⟩
    rw [ListMem.listForEach, hset]
    exact hrun
  · have hout : (m.lists l).size ≤ k := by omega
    have hnil : slice xs k finish = [] := slice_of_length_le (by omega)
    rw [hnil, List.take_nil, ListMem.listForEach, listSetIterator_outside hout]
    exact (hiter.outside hout).forEachLoop n

/-- **Seeking an element.** -/
theorem ListMem.LeadsTo.givesElement {i : Int} (hleads : m.LeadsTo l i)
    (h : Holds m.atHeads l cs ps xs) (hpos : 0 ≤ i) (hlt : i < xs.length) :
    m.GivesElement l xs i := by
  have hlength : xs.length = cs.length := h.length_eq
  obtain ⟨k, rfl⟩ : ∃ k : Nat, i = k := ⟨i.toNat, by omega⟩
  obtain ⟨m₁, hset, hc, hagree⟩ := listSetIterator_inside h (by omega) hleads
  obtain ⟨m₂, hnext, -, -⟩ := hc.listGetNext (holds_atHeads_of_agree h hagree) (by omega)
  exact ⟨m₁, m₂, hset, hnext⟩

end Iterate

/-- The calls of a run that iterates over its lists. -/
inductive Call where
  | op (op : Op)
  | setIterator (l : Nat) (k : Int)
  | getNext (l : Nat)
  | forEach (l : Nat) (start finish : Int) (n : Nat)

/-- What a call does to the memory. -/
def ListMem.call (m : ListMem) : Call → Option ListMem
  | .op op => m.step op
  | .setIterator l k => (m.listSetIterator l k).map Prod.snd
  | .getNext l => (m.listGetNext l).map Prod.snd
  | .forEach l start finish n => (m.listForEach l start finish n).map Prod.snd

/-- What a call does to the sequences: iterating changes none. -/
def Seqs.call (s : Seqs) : Call → Seqs
  | .op op => s.step op
  | .setIterator _ _ | .getNext _ | .forEach _ _ _ _ => s

/-- A sequence of calls. -/
def ListMem.calls (m : ListMem) : List Call → Option ListMem
  | [] => some m
  | call :: rest => (m.call call).bind fun m => m.calls rest

/-- What a sequence of calls does to the sequences. -/
def Seqs.calls (s : Seqs) : List Call → Seqs
  | [] => s
  | call :: rest => (s.call call).calls rest

/-- The call keeps to what the cursors can do. -/
def ListMem.Suits (m : ListMem) (s : Seqs) : Call → Prop
  | .op (.transfer dst src) => dst ≠ src ∧ m.ClearsNothing dst src
  | .op .newList | .op (.push _ _) | .op (.append _ _) | .op (.shift _) | .op (.clear _) => True
  | .op _ => False
  | .setIterator l k => 0 ≤ k ∧ (k < (m.lists l).size → m.LeadsTo l k)
  | .getNext l => (m.lists l).iterIdx ≤ 0 ∨ (m.lists l).size ≤ (m.lists l).iterIdx ∨
      m.read (m.lists l).iter ≠ 0
  | .forEach l start finish _ => 0 ≤ start ∧ m.Iterable l (s.seqs l) start finish

/-- The lists a call is given. -/
def Call.lists : Call → List Nat
  | .op o => o.lists
  | .setIterator l _ | .getNext l | .forEach l _ _ _ => [l]

/-- Every call is given lists that were made before and suits the cursors it finds. -/
def ListMem.AllSuit (m : ListMem) (s : Seqs) : List Call → Prop
  | [] => True
  | call :: rest => (∀ l ∈ call.lists, 0 < l ∧ l < s.next) ∧ m.Suits s call ∧
      (m.call call).elim True fun m => m.AllSuit (s.call call) rest

instance decidableLeadsTo (m : ListMem) (l : Nat) (k : Int) : Decidable (m.LeadsTo l k) :=
  inferInstanceAs (Decidable ((m.lists l).iterIdx < 0 ∨ k < (m.lists l).iterIdx ∨
    k = 0 ∧ (m.lists l).iterIdx = 0 ∨
      m.read (m.lists l).iter = (m.nth (m.lists l).iterIdx.toNat (m.lists l).head).2))

instance decidableStandsOutside (m : ListMem) (l : Nat) (finish : Int) :
    Decidable (m.StandsOutside l finish) :=
  inferInstanceAs (Decidable ((m.lists l).iterIdx < 0 ∨
    (m.lists l).size ≤ (m.lists l).iterIdx ∨ finish ≤ (m.lists l).iterIdx ∧
      ((m.lists l).iterIdx = 0 ∨ m.read (m.lists l).iter ≠ 0)))

instance decidableIterable (m : ListMem) (l : Nat) (xs : List Nat) (start finish : Int) :
    Decidable (m.Iterable l xs start finish) :=
  decidable_of_iff ((start < (m.lists l).size → m.LeadsTo l start) ∧
    ((m.lists l).size ≤ start → m.StandsOutside l finish) ∧ 0 ∉ slice xs start finish)
    ⟨fun h => ⟨h.1, h.2.1, h.2.2⟩, fun h => ⟨h.inside, h.outside, h.elements⟩⟩

instance decidableClearsNothing (m : ListMem) (dst src : Nat) :
    Decidable (m.ClearsNothing dst src) :=
  inferInstanceAs (Decidable ((m.lists src).head = 0 ∨ (m.lists src).iter = .head src ∨
    m.read (m.lists src).iter = 0 ∧ (m.lists src).iter ≠ .head dst ∧
      ((m.lists dst).head = 0 ∨ (m.lists src).iter ≠ .next (m.lists dst).tail)))

instance decidableSuits (m : ListMem) (s : Seqs) : (call : Call) → Decidable (m.Suits s call)
  | .op (.transfer dst src) =>
    inferInstanceAs (Decidable (dst ≠ src ∧ m.ClearsNothing dst src))
  | .op .newList | .op (.push _ _) | .op (.append _ _) | .op (.shift _) | .op (.clear _) =>
    .isTrue trivial
  | .op (.insertAt _ _ _) | .op (.removeAt _ _) | .op (.chop _ _)
  | .op (.transferOnMatch _ _ _ _) => .isFalse id
  | .setIterator l k =>
    inferInstanceAs (Decidable (0 ≤ k ∧ (k < (m.lists l).size → m.LeadsTo l k)))
  | .getNext l =>
    inferInstanceAs (Decidable ((m.lists l).iterIdx ≤ 0 ∨
      (m.lists l).size ≤ (m.lists l).iterIdx ∨ m.read (m.lists l).iter ≠ 0))
  | .forEach l start finish _ =>
    inferInstanceAs (Decidable (0 ≤ start ∧ m.Iterable l (s.seqs l) start finish))

instance decidableAllSuit (m : ListMem) (s : Seqs) : (calls : List Call) →
    Decidable (m.AllSuit s calls)
  | [] => .isTrue trivial
  | call :: rest =>
    have : Decidable ((m.call call).elim True fun m => m.AllSuit (s.call call) rest) :=
      match m.call call with
      | none => .isTrue trivial
      | some m' => decidableAllSuit m' (s.call call) rest
    inferInstanceAs (Decidable ((∀ l ∈ call.lists, 0 < l ∧ l < s.next) ∧ m.Suits s call ∧
      (m.call call).elim True fun m => m.AllSuit (s.call call) rest))

section Run

variable {m m' mf : ListMem} {s : Seqs} {chain pool : Nat → List Nat}

/-- A call that changes the lists does to them what it does when all cursors stand at the
heads. -/
theorem agree_step {op : Op} (hsuits : m.Suits s (.op op)) (hrun : m.atHeads.step op = some mf) :
    ∃ mf', m.step op = some mf' ∧ Agree mf mf' := by
  have h := (agree_atHeads m).symm
  cases op with
  | newList =>
    obtain rfl := Option.some.inj hrun
    exact ⟨_, rfl, h.newList⟩
  | push l d =>
    obtain rfl := Option.some.inj hrun
    exact ⟨_, rfl, h.listPush l d⟩
  | append l d => exact h.listAppend hrun
  | shift l =>
    obtain rfl := Option.some.inj hrun
    exact ⟨_, rfl, h.listShift l⟩
  | transfer dst src => exact agree_listTransfer hsuits.1 hsuits.2 hrun
  | clear l => exact h.listClear hrun
  | insertAt | removeAt | chop | transferOnMatch => exact hsuits.elim

/-- One call. -/
theorem Refines.call (h : Refines m.atHeads s chain pool) {call : Call}
    (hlists : ∀ l ∈ call.lists, 0 < l ∧ l < s.next) (hsuits : m.Suits s call) :
    ∃ mf chain' pool', m.call call = some mf ∧
      Refines mf.atHeads (s.call call) chain' pool' := by
  have hsame : ∀ {mf}, m.call call = some mf → Agree m mf → s.call call = s →
      ∃ mf chain' pool', m.call call = some mf ∧
        Refines mf.atHeads (s.call call) chain' pool' := by
    intro mf hrun hagree hseqs
    rw [hseqs]
    exact ⟨mf, chain, pool, hrun,
      h.agree (((agree_atHeads m).symm.trans hagree).trans (agree_atHeads mf)) fun _ => rfl⟩
  have hholds : ∀ l ∈ call.lists, Holds m.atHeads l (chain l) (pool l) (s.seqs l) := by
    intro l hl
    have hnext : m.nextList = s.next := h.next
    exact h.holds l (hlists l hl).1 (hnext ▸ (hlists l hl).2)
  cases call with
  | op op =>
    have hends : s.Ends op ∧ s.KeepsTail op := by
      cases op with
      | insertAt | removeAt | chop | transferOnMatch => exact hsuits.elim
      | _ => exact ⟨trivial, trivial⟩
    obtain ⟨mf, chain', pool', hrun, hf⟩ := h.step hlists hends.1 hends.2
    obtain ⟨mf', hrun', hagree⟩ := agree_step hsuits hrun
    exact ⟨mf', chain', pool', hrun', hf.agree (hagree.trans (agree_atHeads mf')) fun _ => rfl⟩
  | setIterator l k =>
    have hl : Holds m.atHeads l (chain l) (pool l) (s.seqs l) :=
      hholds l (List.mem_singleton_self l)
    by_cases hout : (m.lists l).size ≤ k
    · refine hsame ?_ (.refl m) rfl
      rw [ListMem.call, listSetIterator_outside hout, Option.map_some]
    · have hsize := size_of_atHeads hl
      obtain ⟨i, rfl⟩ : ∃ i : Nat, k = i := ⟨k.toNat, by have := hsuits.1; omega⟩
      obtain ⟨m', hrun, -, hagree⟩ :=
        listSetIterator_inside hl (by omega) (hsuits.2 (not_le.mp hout))
      refine hsame ?_ hagree rfl
      rw [ListMem.call, hrun, Option.map_some]
  | getNext l =>
    obtain ⟨x, m', hrun, hagree, -⟩ := listGetNext_defined hsuits
    refine hsame ?_ hagree rfl
    rw [ListMem.call, hrun, Option.map_some]
  | forEach l start finish n =>
    have hl : Holds m.atHeads l (chain l) (pool l) (s.seqs l) :=
      hholds l (List.mem_singleton_self l)
    obtain ⟨m', hrun, hagree⟩ := hsuits.2.visits hl hsuits.1 n
    refine hsame ?_ hagree rfl
    rw [ListMem.call, hrun, Option.map_some]

/-- A sequence of calls. -/
theorem Refines.calls (h : Refines m.atHeads s chain pool) {calls : List Call}
    (hsuit : m.AllSuit s calls) : ∃ mf chain' pool', m.calls calls = some mf ∧
      Refines mf.atHeads (s.calls calls) chain' pool' := by
  induction calls generalizing m s chain pool with
  | nil => exact ⟨m, chain, pool, rfl, h⟩
  | cons call rest ih =>
    obtain ⟨hlists, hcall, hrest⟩ := hsuit
    obtain ⟨m₁, chain₁, pool₁, hrun, h₁⟩ := h.call hlists hcall
    rw [hrun] at hrest
    obtain ⟨mf, chain', pool', hruns, hf⟩ := ih h₁ hrest
    refine ⟨mf, chain', pool', ?_, hf⟩
    rw [ListMem.calls, hrun, Option.bind_some, hruns]

theorem refines_atHeads_init : Refines ({} : ListMem).atHeads {} (fun _ => []) (fun _ => []) :=
  refines_init.agree (agree_atHeads {}) fun _ => rfl

/-- **Iterating over lists.** In a run whose calls suit the cursors they find, every list
is iterated over and sought in as its sequence says, wherever its cursor leads to the start
of the slice, or stands outside when the slice starts behind the list. -/
theorem calls_visit {calls : List Call} (hsuit : ({} : ListMem).AllSuit {} calls) :
    ∃ m, ({} : ListMem).calls calls = some m ∧ ∀ l, 0 < l → l < m.nextList →
      (∀ start finish, 0 ≤ start →
        m.Iterable l ((({} : Seqs).calls calls).seqs l) start finish →
          m.VisitsSlice l ((({} : Seqs).calls calls).seqs l) start finish) ∧
      ∀ k : Int, 0 ≤ k → k < ((({} : Seqs).calls calls).seqs l).length → m.LeadsTo l k →
        m.GivesElement l ((({} : Seqs).calls calls).seqs l) k := by
  obtain ⟨m, chain, pool, hrun, h⟩ := refines_atHeads_init.calls hsuit
  refine ⟨m, hrun, fun l hpos hlt => ?_⟩
  have hl := h.holds l hpos hlt
  refine ⟨fun start finish hstart hiter n => ?_, fun k hk hlen hleads =>
    hleads.givesElement hl hk hlen⟩
  obtain ⟨m', hvisits, -⟩ := hiter.visits hl hstart n
  exact ⟨m', hvisits⟩

end Run

/-- Two lists, one of which is iterated over in parts before it is moved. -/
def partCalls : List Call :=
  [.op .newList, .op .newList, .op (.append 1 10), .op (.append 1 20), .op (.append 1 30),
    .forEach 1 0 1 0, .forEach 1 1 3 5, .op (.push 1 5), .op (.shift 1), .setIterator 1 2,
    .getNext 1, .op (.transfer 2 1), .op (.append 1 40), .forEach 2 1 2 5]

theorem calls_visit_parts : ∃ m, ({} : ListMem).calls partCalls = some m ∧
    ∀ l, 0 < l → l < m.nextList →
      (∀ start finish, 0 ≤ start →
        m.Iterable l ((({} : Seqs).calls partCalls).seqs l) start finish →
          m.VisitsSlice l ((({} : Seqs).calls partCalls).seqs l) start finish) ∧
      ∀ k : Int, 0 ≤ k → k < ((({} : Seqs).calls partCalls).seqs l).length → m.LeadsTo l k →
        m.GivesElement l ((({} : Seqs).calls partCalls).seqs l) k :=
  calls_visit (by decide +kernel)

theorem not_visitsSlice {m : ListMem} {l n : Nat} {xs visited : List Nat} {start finish : Int}
    (hrun : (m.listForEach l start finish n).map Prod.fst = some visited)
    (hne : visited ≠ (slice xs start finish).take (n + 1)) : ¬ m.VisitsSlice l xs start finish := by
  intro hvisits
  obtain ⟨m', hslice⟩ := hvisits n
  rw [hslice, Option.map_some] at hrun
  exact hne (Option.some.inj hrun).symm

/-- A slice behind the list is visited from where an iteration over a part has left the cursor,
and a slice of a list that was pushed to and then appended to starts at the head. -/
theorem slice_visited_elsewhere :
    (∃ m, ({} : ListMem).calls [.op .newList, .op (.append 1 10), .op (.append 1 20),
        .op (.append 1 30), .forEach 1 0 1 5] = some m ∧
      ¬ m.VisitsSlice 1 [10, 20, 30] 3 3) ∧
    ∃ m, ({} : ListMem).calls [.op .newList, .op (.push 1 10), .op (.append 1 20)] = some m ∧
      ¬ m.VisitsSlice 1 [10, 20] 1 2 := by
  constructor
  · have hrun : (({} : ListMem).calls [.op .newList, .op (.append 1 10), .op (.append 1 20),
        .op (.append 1 30), .forEach 1 0 1 5]).bind
          (fun m => (m.listForEach 1 3 3 5).map Prod.fst) = some [30] := by decide +kernel
    obtain ⟨m, hm, hvisited⟩ := Option.bind_eq_some_iff.mp hrun
    exact ⟨m, hm, not_visitsSlice hvisited (by decide)⟩
  · have hrun : (({} : ListMem).calls [.op .newList, .op (.push 1 10), .op (.append 1 20)]).bind
          (fun m => (m.listForEach 1 1 2 5).map Prod.fst) = some [10] := by decide +kernel
    obtain ⟨m, hm, hvisited⟩ := Option.bind_eq_some_iff.mp hrun
    exact ⟨m, hm, not_visitsSlice hvisited (by decide)⟩

end Slist

end Recognizer
