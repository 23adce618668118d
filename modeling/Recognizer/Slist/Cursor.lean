import Recognizer.Slist.Refine

/-!
# The cursor of a list

The cursor of a list is an index and a link. The operations that change a list read neither,
apart from a transfer, which writes through the link of the list it empties; so what a list
holds does not depend on where its cursor stands.
-/

namespace Recognizer

namespace Slist

open ListMem

/-- A list without its cursor. -/
def SList.rest (x : SList) : SList := { x with iter := .head 0, iterIdx := 0 }

theorem rest_eq_iff {x y : SList} : x.rest = y.rest ↔ x.size = y.size ∧
    x.poolSize = y.poolSize ∧ x.head = y.head ∧ x.pool = y.pool ∧ x.tail = y.tail := by
  simp [SList.rest]

/-- Two memories that differ in the cursors of their lists only. -/
structure Agree (m m' : ListMem) : Prop where
  items : m'.items = m.items
  lists : ∀ k, (m'.lists k).rest = (m.lists k).rest
  nextItem : m'.nextItem = m.nextItem
  nextList : m'.nextList = m.nextList

/-- The memory with the cursors of all lists at their heads. -/
def ListMem.atHeads (m : ListMem) : ListMem :=
  { m with lists := fun k => { m.lists k with iter := .head k } }

section Agree

variable {m m' m'' mf : ListMem} {l k a d v n item : Nat} {p : Link}

theorem Agree.refl (m : ListMem) : Agree m m := ⟨rfl, fun _ => rfl, rfl, rfl⟩

theorem Agree.symm (h : Agree m m') : Agree m' m :=
  ⟨h.items.symm, fun k => (h.lists k).symm, h.nextItem.symm, h.nextList.symm⟩

theorem Agree.trans (h : Agree m m') (h' : Agree m' m'') : Agree m m'' :=
  ⟨h'.items.trans h.items, fun k => (h'.lists k).trans (h.lists k),
    h'.nextItem.trans h.nextItem, h'.nextList.trans h.nextList⟩

theorem agree_atHeads (m : ListMem) : Agree m m.atHeads := ⟨rfl, fun _ => rfl, rfl, rfl⟩

theorem Agree.size (h : Agree m m') (k : Nat) : (m'.lists k).size = (m.lists k).size :=
  (rest_eq_iff.mp (h.lists k)).1

theorem Agree.poolSize (h : Agree m m') (k : Nat) :
    (m'.lists k).poolSize = (m.lists k).poolSize := (rest_eq_iff.mp (h.lists k)).2.1

theorem Agree.head (h : Agree m m') (k : Nat) : (m'.lists k).head = (m.lists k).head :=
  (rest_eq_iff.mp (h.lists k)).2.2.1

theorem Agree.pool (h : Agree m m') (k : Nat) : (m'.lists k).pool = (m.lists k).pool :=
  (rest_eq_iff.mp (h.lists k)).2.2.2.1

theorem Agree.tail (h : Agree m m') (k : Nat) : (m'.lists k).tail = (m.lists k).tail :=
  (rest_eq_iff.mp (h.lists k)).2.2.2.2

/-- A link other than a cursor holds the same. -/
theorem Agree.read (h : Agree m m') (p : Link) : m'.read p = m.read p := by
  cases p with
  | head k => exact h.head k
  | next a => rw [ListMem.read, h.items, ListMem.read]

/-- Writes to a list that do not depend on its cursor. -/
theorem Agree.setList (h : Agree m m') {f g : SList → SList}
    (hfg : ∀ x y, y.rest = x.rest → (g y).rest = (f x).rest) :
    Agree (m.setList l f) (m'.setList l g) := by
  refine ⟨h.items, fun k => ?_, h.nextItem, h.nextList⟩
  by_cases hk : k = l
  · subst hk
    rw [setList_self, setList_self]
    exact hfg _ _ (h.lists k)
  · rw [setList_of_ne hk, setList_of_ne hk]
    exact h.lists k

/-- A write to the cursor of a list. -/
theorem Agree.setCursor (h : Agree m m') {g : SList → SList} (hg : ∀ y, (g y).rest = y.rest) :
    Agree m (m'.setList l g) := by
  refine ⟨h.items, fun k => ?_, h.nextItem, h.nextList⟩
  by_cases hk : k = l
  · subst hk
    rw [setList_self, hg]
    exact h.lists k
  · rw [setList_of_ne hk]
    exact h.lists k

theorem Agree.setItem (h : Agree m m') (a : Nat) (f : ListItem → ListItem) :
    Agree (m.setItem a f) (m'.setItem a f) := by
  refine ⟨?_, h.lists, h.nextItem, h.nextList⟩
  rw [ListMem.setItem, ListMem.setItem, h.items]

theorem Agree.newListItem (h : Agree m m') (l d : Nat) :
    ∃ item m₁ m₁', m.newListItem l d = (item, m₁) ∧ m'.newListItem l d = (item, m₁') ∧
      Agree m₁ m₁' := by
  have hfresh : Agree { m with nextItem := m.nextItem + 1 }
      { m' with nextItem := m'.nextItem + 1 } :=
    ⟨h.items, h.lists, congrArg (fun n => n + 1) h.nextItem, h.nextList⟩
  unfold ListMem.newListItem
  rw [h.poolSize l, h.pool l]
  split
  · refine ⟨_, _, _, rfl, rfl, Agree.setItem (h.setList fun x y hxy => ?_) _ _⟩
    simp only [rest_eq_iff] at hxy ⊢
    simp [hxy, h.items]
  · refine ⟨_, _, _, rfl, ?_, hfresh.setItem m.nextItem fun _ => { next := 0, data := d }⟩
    rw [h.nextItem]

theorem Agree.newList (h : Agree m m') : Agree m.newList.2 m'.newList.2 := by
  unfold ListMem.newList
  dsimp only
  rw [h.nextList]
  have hnext : Agree { m with nextList := m.nextList + 1 }
      { m' with nextList := m.nextList + 1 } := ⟨h.items, h.lists, h.nextItem, rfl⟩
  exact hnext.setList fun _ _ _ => rfl

theorem Agree.listPush (h : Agree m m') (l d : Nat) :
    Agree (m.listPush l d) (m'.listPush l d) := by
  obtain ⟨item, m₁, m₁', hitem, hitem', h₁⟩ := h.newListItem l d
  unfold ListMem.listPush
  rw [hitem, hitem']
  dsimp only
  rw [h₁.head l]
  have h₂ := (h₁.setItem item fun x => { x with next := (m₁.lists l).head }).setList (l := l)
    (f := fun x => { x with head := item }) (g := fun x => { x with head := item })
    fun x y hxy => by
      simp only [rest_eq_iff] at hxy ⊢
      simp [hxy]
  rw [h₂.size l]
  split
  · refine (h₂.setList fun x y hxy => ?_).setList fun x y hxy => ?_
    · simp only [rest_eq_iff] at hxy ⊢
      simp [hxy]
    · simp only [rest_eq_iff] at hxy ⊢
      simp [hxy]
  · refine h₂.setList fun x y hxy => ?_
    simp only [rest_eq_iff] at hxy ⊢
    simp [hxy]

theorem Agree.listAppend (h : Agree m m') {l d : Nat} (hrun : m.listAppend l d = some mf) :
    ∃ mf', m'.listAppend l d = some mf' ∧ Agree mf mf' := by
  obtain ⟨item, m₁, m₁', hitem, hitem', h₁⟩ := h.newListItem l d
  unfold ListMem.listAppend at hrun ⊢
  rw [hitem] at hrun
  rw [hitem', h.head l, h.tail l]
  split at hrun
  · next hhead =>
    obtain rfl := Option.some.inj hrun
    rw [if_pos hhead]
    refine ⟨_, rfl, h₁.setList fun x y hxy => ?_⟩
    simp only [rest_eq_iff] at hxy ⊢
    simp [hxy]
  · next hhead =>
    rw [if_neg hhead]
    split at hrun
    · cases hrun
    · next htail =>
      obtain rfl := Option.some.inj hrun
      rw [if_neg htail]
      refine ⟨_, rfl, (h₁.setItem _ _).setList fun x y hxy => ?_⟩
      simp only [rest_eq_iff] at hxy ⊢
      simp [hxy]

theorem Agree.listShift (h : Agree m m') (l : Nat) :
    Agree (m.listShift l).2 (m'.listShift l).2 := by
  unfold ListMem.listShift
  rw [h.head l]
  split
  · exact h
  · have hstep := h.setList (l := l) (f := fun x =>
      { x with
        head := (m.items (m.lists l).head).next
        tail := if (m.lists l).head = x.tail then 0 else x.tail
        iterIdx := x.iterIdx - 1 })
      (g := fun x =>
      { x with
        head := (m'.items (m.lists l).head).next
        tail := if (m.lists l).head = x.tail then 0 else x.tail
        iterIdx := x.iterIdx - 1 }) fun x y hxy => by
      simp only [rest_eq_iff] at hxy ⊢
      simp [hxy, h.items]
    unfold ListMem.releaseToPool
    dsimp only
    rw [hstep.pool l]
    refine (hstep.setItem _ _).setList fun x y hxy => ?_
    simp only [rest_eq_iff] at hxy ⊢
    simp [hxy]

theorem Agree.lastItem (h : Agree m m') (n a : Nat) : m'.lastItem n a = m.lastItem n a := by
  induction n generalizing a with
  | zero => rfl
  | succ n ih =>
    rw [ListMem.lastItem, ListMem.lastItem, h.items]
    split
    · rfl
    · split
      · exact ih _
      · rfl

theorem Agree.listClear (h : Agree m m') {l : Nat} (hrun : m.listClear l = some mf) :
    ∃ mf', m'.listClear l = some mf' ∧ Agree mf mf' := by
  unfold ListMem.listClear at hrun ⊢
  dsimp only at hrun ⊢
  rw [h.size l, h.poolSize l, h.head l, h.pool l, h.nextItem]
  split at hrun
  · next hsize =>
    obtain rfl := Option.some.inj hrun
    rw [if_pos hsize]
    exact ⟨m', rfl, h⟩
  · next hsize =>
    rw [if_neg hsize]
    split at hrun
    · next hpool =>
      obtain rfl := Option.some.inj hrun
      rw [if_pos hpool]
      refine ⟨_, rfl, (h.setList fun x y hxy => ?_).setList fun x y hxy => ?_⟩
      · simp only [rest_eq_iff] at hxy ⊢
        simp [hxy]
      · simp only [rest_eq_iff] at hxy ⊢
        simp [hxy]
    · next hpool =>
      rw [if_neg hpool]
      obtain ⟨dst, hdst, hrun⟩ := Option.bind_eq_some_iff.mp hrun
      obtain rfl := Option.some.inj hrun
      rw [h.lastItem, hdst]
      refine ⟨_, rfl, ((h.setItem _ _).setList fun x y hxy => ?_).setList fun x y hxy => ?_⟩
      · simp only [rest_eq_iff] at hxy ⊢
        simp [hxy]
      · simp only [rest_eq_iff] at hxy ⊢
        simp [hxy]

/-- A write of what a link holds already. -/
theorem agree_write (hread : m.read p = v) : Agree m (m.write v p) := by
  cases p with
  | head k =>
    refine ⟨rfl, fun j => ?_, rfl, rfl⟩
    by_cases hj : j = k
    · subst hj
      rw [ListMem.read] at hread
      simp [ListMem.write, rest_eq_iff, hread]
    · rw [ListMem.write, setList_of_ne hj]
  | next a =>
    rw [ListMem.write, setItem_next_self hread]
    exact .refl m

end Agree

/-- The link that a transfer clears holds nothing anyway, or is the head of the list that is
emptied. -/
def ListMem.ClearsNothing (m : ListMem) (dst src : Nat) : Prop :=
  (m.lists src).head = 0 ∨ (m.lists src).iter = .head src ∨
    m.read (m.lists src).iter = 0 ∧ (m.lists src).iter ≠ .head dst ∧
      ((m.lists dst).head = 0 ∨ (m.lists src).iter ≠ .next (m.lists dst).tail)

/-- What a transfer does behind the join of the chains, but for the cleared link. -/
def ListMem.moved (m : ListMem) (dst src : Nat) : ListMem :=
  (m.setList dst fun x => { x with size := x.size + (m.lists src).size }).setList src fun x =>
    { x with head := 0, tail := 0 }

/-- What a transfer does behind the join of the chains. -/
def ListMem.emptied (m : ListMem) (dst src : Nat) : ListMem :=
  ((m.moved dst src).write 0 ((m.moved dst src).lists src).iter).setList src fun x =>
    { x with iterIdx := -1, size := 0 }

section Transfer

variable {m m' mf : ListMem} {dst src : Nat} {p : Link}

/-- The join of the chains. -/
theorem Agree.moved (h : Agree m m') (dst src : Nat) :
    Agree (m.moved dst src) (m'.moved dst src) := by
  refine (h.setList fun x y hxy => ?_).setList fun x y hxy => ?_
  · simp only [rest_eq_iff] at hxy ⊢
    simp [hxy, h.size src]
  · simp only [rest_eq_iff] at hxy ⊢
    simp [hxy]

/-- Clearing the link changes nothing when it holds nothing anyway. -/
theorem Agree.emptied (h : Agree m m')
    (hread : (m.moved dst src).read ((m.moved dst src).lists src).iter = 0)
    (hread' : (m'.moved dst src).read ((m'.moved dst src).lists src).iter = 0) :
    Agree (m.emptied dst src) (m'.emptied dst src) := by
  have hmoved := ((agree_write hread).symm.trans (h.moved dst src)).trans (agree_write hread')
  refine hmoved.setList fun x y hxy => ?_
  simp only [rest_eq_iff] at hxy ⊢
  simp [hxy]

theorem moved_iter (hne : dst ≠ src) : ((m.moved dst src).lists src).iter = (m.lists src).iter := by
  simp [ListMem.moved, hne.symm]

theorem moved_read_head (m : ListMem) (dst src : Nat) :
    (m.moved dst src).read (.head src) = 0 := by
  simp [ListMem.moved, ListMem.read]

theorem moved_read (hread : m.read p = 0) : (m.moved dst src).read p = 0 := by
  cases p with
  | head k =>
    by_cases hk : k = src
    · subst hk
      exact moved_read_head m dst k
    · rw [ListMem.read] at hread ⊢
      rw [ListMem.moved, setList_of_ne hk]
      by_cases hd : k = dst
      · subst hd
        rw [setList_self]
        exact hread
      · rw [setList_of_ne hd]
        exact hread
  | next a => exact hread

/-- The link may be cleared behind the join. -/
theorem ListMem.ClearsNothing.moved (hclear : m.ClearsNothing dst src) (hne : dst ≠ src)
    (hhead : (m.lists src).head ≠ 0) (hiter : (m'.lists src).iter = (m.lists src).iter)
    (hlists : ∀ k ≠ dst, m'.lists k = m.lists k)
    (hitems : ∀ a, (m.lists dst).head = 0 ∨ a ≠ (m.lists dst).tail → m'.items a = m.items a) :
    (m'.moved dst src).read ((m'.moved dst src).lists src).iter = 0 := by
  rw [moved_iter hne, hiter]
  rcases hclear with hnone | hown | ⟨hread, hdst, htail⟩
  · exact absurd hnone hhead
  · rw [hown]
    exact moved_read_head m' dst src
  · apply moved_read
    cases hlink : (m.lists src).iter with
    | head k =>
      rw [hlink] at hread hdst
      rw [ListMem.read] at hread ⊢
      rw [hlists k fun heq => hdst (congrArg Link.head heq)]
      exact hread
    | next a =>
      rw [hlink] at hread htail
      rw [ListMem.read] at hread ⊢
      rw [hitems a (htail.imp_right fun hne heq => hne (congrArg Link.next heq))]
      exact hread

/-- A transfer that clears no link in use does to the lists what it does when all cursors
stand at the heads. -/
theorem agree_listTransfer (hne : dst ≠ src) (hclear : m.ClearsNothing dst src)
    (hrun : m.atHeads.listTransfer dst src = some mf) :
    ∃ mf', m.listTransfer dst src = some mf' ∧ Agree mf mf' := by
  have h := agree_atHeads m
  have hheads : m.atHeads.ClearsNothing dst src := .inr (.inl rfl)
  unfold ListMem.listTransfer at hrun ⊢
  rw [h.head src, h.head dst, h.tail src, h.tail dst] at hrun
  split at hrun
  · next hnone =>
    obtain rfl := Option.some.inj hrun
    rw [if_pos hnone]
    exact ⟨m, rfl, h.symm⟩
  · next hsome =>
    rw [if_neg hsome]
    split at hrun
    · next hempty =>
      obtain rfl := Option.some.inj hrun
      rw [if_pos hempty]
      refine ⟨_, rfl, Agree.emptied (h.symm.setList fun x y hxy => ?_) ?_ ?_⟩
      · simp only [rest_eq_iff] at hxy ⊢
        simp [hxy]
      · refine hheads.moved hne hsome ?_ (fun k hk => setList_of_ne hk) fun _ _ => rfl
        rw [setList_of_ne hne.symm]
      · refine hclear.moved hne hsome ?_ (fun k hk => setList_of_ne hk) fun _ _ => rfl
        rw [setList_of_ne hne.symm]
    · next hfull =>
      rw [if_neg hfull]
      split at hrun
      · cases hrun
      · next htail =>
        obtain rfl := Option.some.inj hrun
        rw [if_neg htail]
        refine ⟨_, rfl, Agree.emptied ((h.symm.setItem _ _).setList fun x y hxy => ?_) ?_ ?_⟩
        · simp only [rest_eq_iff] at hxy ⊢
          simp [hxy]
        · refine hheads.moved hne hsome ?_ (fun k hk => setList_of_ne hk) fun a ha => ?_
          · rw [setList_of_ne hne.symm]
            rfl
          · rw [setList_items]
            exact setItem_of_ne (ha.resolve_left hfull)
        · refine hclear.moved hne hsome ?_ (fun k hk => setList_of_ne hk) fun a ha => ?_
          · rw [setList_of_ne hne.symm]
            rfl
          · rw [setList_items]
            exact setItem_of_ne (ha.resolve_left hfull)

end Transfer

section Refine

variable {m m' mf : ListMem} {l : Nat} {cs ps xs : List Nat} {s : Seqs}
  {chain pool : Nat → List Nat}

/-- What a list holds depends on its cursor only in that it must stand at the head. -/
theorem Holds.agree (h : Holds m l cs ps xs) (ha : Agree m m')
    (hiter : (m'.lists l).iter = .head l) : Holds m' l cs ps xs where
  toHeld := h.toHeld.congr (ha.head l) (ha.pool l) (ha.poolSize l) hiter
    (fun a _ => by rw [ha.items]) ha.nextItem.ge
  data := by
    rw [← h.data]
    refine List.map_congr_left fun a _ => ?_
    simp only [ListMem.data, ha.items]
  size := by rw [ha.size l, h.size]
  tail := by
    rw [ha.tail l]
    exact h.tail
  spare hnil := by
    rw [ha.tail l]
    refine (h.spare hnil).imp_right fun hspare => ⟨hspare.1, ?_⟩
    rw [← hspare.2]
    simp only [ListMem.data, ha.items]

theorem Refines.agree (h : Refines m s chain pool) (ha : Agree m m')
    (hiter : ∀ l, (m'.lists l).iter = .head l) : Refines m' s chain pool where
  holds l hpos hlt := (h.holds l hpos (ha.nextList ▸ hlt)).agree ha (hiter l)
  disjoint k l hkpos hklt hlpos hllt :=
    h.disjoint k l hkpos (ha.nextList ▸ hklt) hlpos (ha.nextList ▸ hllt)
  next := ha.nextList.trans h.next
  posList := by
    rw [ha.nextList]
    exact h.posList
  posItem := by
    rw [ha.nextItem]
    exact h.posItem

end Refine

end Slist

end Recognizer
