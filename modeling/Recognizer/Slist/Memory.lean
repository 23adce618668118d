import Recognizer.Source.Slist
import Recognizer.Core.Chain

/-!
# Lists in memory

What reads and writes of the list module do to the chains of a list. A list holds a
chain of items from its head and a second one, its pool; both end in `NULL`.
-/

namespace Recognizer

namespace Slist

namespace ListMem

variable (m : ListMem)

/-- The `next` members. -/
def next (a : Nat) : Nat := (m.items a).next

/-- The `data` members. -/
def data (a : Nat) : Nat := (m.items a).data

section Fields

variable {m}
variable {l k a b v : Nat} {f : SList → SList} {g : ListItem → ListItem} {p : Link}

@[simp] theorem setList_self : (m.setList l f).lists l = f (m.lists l) := by
  simp [setList]

@[simp] theorem setList_of_ne (h : k ≠ l) : (m.setList l f).lists k = m.lists k := by
  simp [setList, h]

@[simp] theorem setList_items : (m.setList l f).items = m.items := rfl

@[simp] theorem setList_next : (m.setList l f).next = m.next := rfl

@[simp] theorem setList_data : (m.setList l f).data = m.data := rfl

@[simp] theorem setList_nextItem : (m.setList l f).nextItem = m.nextItem := rfl

@[simp] theorem setList_nextList : (m.setList l f).nextList = m.nextList := rfl

@[simp] theorem setItem_lists : (m.setItem a g).lists = m.lists := rfl

@[simp] theorem setItem_nextItem : (m.setItem a g).nextItem = m.nextItem := rfl

@[simp] theorem setItem_nextList : (m.setItem a g).nextList = m.nextList := rfl

@[simp] theorem setItem_self : (m.setItem a g).items a = g (m.items a) := by
  simp [setItem]

@[simp] theorem setItem_of_ne (h : b ≠ a) : (m.setItem a g).items b = m.items b := by
  simp [setItem, h]

/-- A write to the tail that is made on a condition. -/
theorem ite_setTail (c : Prop) [Decidable c] :
    (if c then m.setList l fun x => { x with tail := v } else m) =
      m.setList l fun x => { x with tail := if c then v else x.tail } := by
  split
  · rfl
  · simp [setList]

/-- A write to the index of the iterator that is made on a condition. -/
theorem ite_setIterIdx (c : Prop) [Decidable c] (i : Int) :
    (if c then m.setList l fun x => { x with iterIdx := i } else m) =
      m.setList l fun x => { x with iterIdx := if c then i else x.iterIdx } := by
  split
  · rfl
  · simp [setList]

theorem setItem_next :
    (m.setItem a g).next = Function.update m.next a (g (m.items a)).next := by
  funext b
  by_cases hb : b = a
  · subst hb
    simp [next]
  · simp [next, hb]

theorem setItem_data :
    (m.setItem a g).data = Function.update m.data a (g (m.items a)).data := by
  funext b
  by_cases hb : b = a
  · subst hb
    simp [data]
  · simp [data, hb]

@[simp] theorem newList_fst : m.newList.1 = m.nextList := rfl

@[simp] theorem newList_items : m.newList.2.items = m.items := rfl

@[simp] theorem newList_next : m.newList.2.next = m.next := rfl

@[simp] theorem newList_data : m.newList.2.data = m.data := rfl

@[simp] theorem newList_nextItem : m.newList.2.nextItem = m.nextItem := rfl

@[simp] theorem newList_nextList : m.newList.2.nextList = m.nextList + 1 := rfl

@[simp] theorem newList_self :
    m.newList.2.lists m.nextList = { iterIdx := -1, iter := .head m.nextList } := by
  simp [newList]

@[simp] theorem newList_of_ne (h : k ≠ m.nextList) : m.newList.2.lists k = m.lists k := by
  simp [newList, h]

@[simp] theorem write_nextItem : (m.write v p).nextItem = m.nextItem := by
  cases p <;> rfl

@[simp] theorem write_nextList : (m.write v p).nextList = m.nextList := by
  cases p <;> rfl

@[simp] theorem write_data : (m.write v p).data = m.data := by
  cases p with
  | head l => rfl
  | next a => simp [write, setItem_data, data]

/-- A write through a link changes the head of a list at most. -/
theorem write_lists_eq (k : Nat) :
    ∃ h, (m.write v p).lists k = { m.lists k with head := h } := by
  cases p with
  | head l =>
    by_cases hk : k = l
    · subst hk
      refine ⟨v, ?_⟩
      simp only [write]
      exact setList_self
    · refine ⟨(m.lists k).head, ?_⟩
      simp only [write]
      exact setList_of_ne hk
  | next a => exact ⟨(m.lists k).head, rfl⟩

@[simp] theorem write_size : ((m.write v p).lists k).size = (m.lists k).size := by
  obtain ⟨h, heq⟩ := m.write_lists_eq (v := v) (p := p) k
  rw [heq]

@[simp] theorem write_tail : ((m.write v p).lists k).tail = (m.lists k).tail := by
  obtain ⟨h, heq⟩ := m.write_lists_eq (v := v) (p := p) k
  rw [heq]

@[simp] theorem write_pool : ((m.write v p).lists k).pool = (m.lists k).pool := by
  obtain ⟨h, heq⟩ := m.write_lists_eq (v := v) (p := p) k
  rw [heq]

@[simp] theorem write_poolSize : ((m.write v p).lists k).poolSize = (m.lists k).poolSize := by
  obtain ⟨h, heq⟩ := m.write_lists_eq (v := v) (p := p) k
  rw [heq]

@[simp] theorem write_iter : ((m.write v p).lists k).iter = (m.lists k).iter := by
  obtain ⟨h, heq⟩ := m.write_lists_eq (v := v) (p := p) k
  rw [heq]

end Fields

end ListMem

open ListMem

/-- The link behind the items `xs` of a list. -/
def linkAfter (l : Nat) (xs : List Nat) : Link := xs.getLast?.elim (.head l) .next

@[simp] theorem linkAfter_nil (l : Nat) : linkAfter l [] = .head l := rfl

@[simp] theorem linkAfter_concat (l : Nat) (xs : List Nat) (a : Nat) :
    linkAfter l (xs ++ [a]) = .next a := by
  simp [linkAfter]

/-- The items a list starts with, up to the address `b`. -/
def Seg (m : ListMem) (l : Nat) (xs : List Nat) (b : Nat) : Prop :=
  Chain m.next (m.lists l).head xs b

section Links

variable {m : ListMem} {l b v : Nat} {xs ys : List Nat}

/-- The link behind the first items holds what follows them. -/
theorem Seg.read_linkAfter (h : Seg m l xs b) : m.read (linkAfter l xs) = b := by
  rcases List.eq_nil_or_concat' xs with rfl | ⟨zs, a, rfl⟩
  · exact h
  · rw [linkAfter_concat]
    exact (Chain.concat_iff.mp h).2

/-- A write to the link behind the first items ends them elsewhere. -/
theorem Seg.write_linkAfter (h : Seg m l xs b) (hnodup : xs.Nodup) :
    Seg (m.write v (linkAfter l xs)) l xs v := by
  rcases List.eq_nil_or_concat' xs with rfl | ⟨zs, a, rfl⟩
  · simp [Seg, ListMem.write]
  · have ha : a ∉ zs := by
      have hdisjoint := (List.nodup_append.mp hnodup).2.2
      exact fun hmem => hdisjoint a hmem a (by simp) rfl
    rw [linkAfter_concat]
    unfold Seg
    simp only [ListMem.write, setItem_next, setItem_lists]
    exact Chain.update_concat h ha

/-- A write to the link behind the first items is not seen by other chains. -/
theorem Chain.write_linkAfter {c : Nat} (h : Chain m.next c ys b) (hys : ∀ a ∈ xs, a ∉ ys) :
    Chain (m.write v (linkAfter l xs)).next c ys b := by
  rcases List.eq_nil_or_concat' xs with rfl | ⟨zs, a, rfl⟩
  · exact h
  · rw [linkAfter_concat]
    simp only [ListMem.write, setItem_next]
    exact h.update_of_notMem (hys a (by simp))

/-- The items behind the first ones stay what they were. -/
theorem items_write_linkAfter {a : Nat} (ha : a ∉ xs) :
    (m.write v (linkAfter l xs)).items a = m.items a := by
  rcases List.eq_nil_or_concat' xs with rfl | ⟨zs, c, rfl⟩
  · rfl
  · rw [linkAfter_concat, ListMem.write]
    exact setItem_of_ne fun hac : a = c => ha (by simp [hac])

/-- Other lists stay what they were. -/
theorem lists_write_linkAfter {k : Nat} (hk : k ≠ l) :
    (m.write v (linkAfter l xs)).lists k = m.lists k := by
  rcases List.eq_nil_or_concat' xs with rfl | ⟨zs, c, rfl⟩
  · rw [linkAfter_nil, ListMem.write]
    exact setList_of_ne hk
  · rw [linkAfter_concat]
    rfl

end Links

/-- A list with its items and its pool. -/
structure Held (m : ListMem) (l : Nat) (cs ps : List Nat) : Prop where
  chain : Seg m l cs 0
  pool : Chain m.next (m.lists l).pool ps 0
  poolSize : (m.lists l).poolSize = ps.length
  iter : (m.lists l).iter = .head l
  nodup : (cs ++ ps).Nodup
  bound : ∀ a ∈ cs ++ ps, a ≠ 0 ∧ a < m.nextItem
  pos : 0 < m.nextItem

/-- A list that stands for a sequence. -/
structure Holds (m : ListMem) (l : Nat) (cs ps xs : List Nat) : Prop
    extends Held m l cs ps where
  data : cs.map m.data = xs
  size : (m.lists l).size = cs.length
  tail : ∀ a ∈ cs.getLast?, (m.lists l).tail = a
  spare : cs = [] →
    (m.lists l).tail = 0 ∨ (m.lists l).tail ∈ ps ∧ m.data (m.lists l).tail = 0

/-- What an operation may do to the memory when it works on the lists `ls`, which
own the items `cells` before and `cells'` afterwards. -/
structure Touches (m m' : ListMem) (ls cells cells' : List Nat) : Prop where
  items : ∀ a < m.nextItem, a ∉ cells → m'.items a = m.items a
  lists : ∀ k ∉ ls, m'.lists k = m.lists k
  cells : ∀ a ∈ cells', a ∈ cells ∨ m.nextItem ≤ a
  nextItem : m.nextItem ≤ m'.nextItem
  nextList : m'.nextList = m.nextList

section Frame

variable {m m' m'' : ListMem} {l : Nat} {cs ps xs ls cells cells' cells'' : List Nat}

/-- What a list holds depends on its links and its items alone. -/
theorem Held.congr (h : Held m l cs ps) (hhead : (m'.lists l).head = (m.lists l).head)
    (hpool : (m'.lists l).pool = (m.lists l).pool)
    (hpoolSize : (m'.lists l).poolSize = (m.lists l).poolSize)
    (hiter : (m'.lists l).iter = .head l) (hitems : ∀ a ∈ cs ++ ps, m'.items a = m.items a)
    (hnext : m.nextItem ≤ m'.nextItem) : Held m' l cs ps where
  chain := by
    unfold Seg
    rw [hhead]
    refine Chain.congr h.chain fun a ha => ?_
    simp only [next, hitems a (List.mem_append_left _ ha)]
  pool := by
    rw [hpool]
    refine h.pool.congr fun a ha => ?_
    simp only [next, hitems a (List.mem_append_right _ ha)]
  poolSize := by rw [hpoolSize, h.poolSize]
  iter := hiter
  nodup := h.nodup
  bound a ha := ⟨(h.bound a ha).1, lt_of_lt_of_le (h.bound a ha).2 hnext⟩
  pos := lt_of_lt_of_le h.pos hnext

/-- A list nobody wrote to keeps its items. -/
theorem Held.frame (h : Held m l cs ps) (hlist : m'.lists l = m.lists l)
    (hitems : ∀ a ∈ cs ++ ps, m'.items a = m.items a)
    (hnext : m.nextItem ≤ m'.nextItem) : Held m' l cs ps :=
  h.congr (by rw [hlist]) (by rw [hlist]) (by rw [hlist]) (by rw [hlist, h.iter]) hitems hnext

/-- A list nobody wrote to stands for the same sequence. -/
theorem Holds.frame (h : Holds m l cs ps xs) (hlist : m'.lists l = m.lists l)
    (hitems : ∀ a ∈ cs ++ ps, m'.items a = m.items a)
    (hnext : m.nextItem ≤ m'.nextItem) : Holds m' l cs ps xs where
  toHeld := h.toHeld.frame hlist hitems hnext
  data := by
    rw [← h.data]
    refine List.map_congr_left fun a ha => ?_
    simp only [ListMem.data, hitems a (List.mem_append_left _ ha)]
  size := by rw [hlist, h.size]
  tail := by rw [hlist]; exact h.tail
  spare hnil := by
    rw [hlist]
    rcases h.spare hnil with hzero | ⟨hmem, hdata⟩
    · exact .inl hzero
    · refine .inr ⟨hmem, ?_⟩
      rw [← hdata]
      simp only [ListMem.data, hitems _ (List.mem_append_right _ hmem)]

theorem Touches.refl (m : ListMem) (ls cells : List Nat) : Touches m m ls cells cells where
  items _ _ _ := rfl
  lists _ _ := rfl
  cells _ ha := .inl ha
  nextItem := le_refl _
  nextList := rfl

theorem Touches.trans (h : Touches m m' ls cells cells')
    (h' : Touches m' m'' ls cells' cells'') : Touches m m'' ls cells cells'' where
  items a hlt ha := by
    have ha' : a ∉ cells' := fun hmem => by
      rcases h.cells a hmem with hold | hfresh
      · exact ha hold
      · omega
    rw [h'.items a (lt_of_lt_of_le hlt h.nextItem) ha', h.items a hlt ha]
  lists k hk := by rw [h'.lists k hk, h.lists k hk]
  cells a ha := by
    rcases h'.cells a ha with hmem | hfresh
    · exact h.cells a hmem
    · exact .inr (le_trans h.nextItem hfresh)
  nextItem := le_trans h.nextItem h'.nextItem
  nextList := h'.nextList.trans h.nextList

end Frame

end Slist

end Recognizer
