import Recognizer.Slist.Memory

/-!
# The operations on one list

Every operation takes a list that stands for a sequence to a list that stands for the
new sequence, and leaves the items of other lists alone.
-/

namespace Recognizer

namespace Slist

open ListMem

variable {m m' : ListMem} {l : Nat} {cs ps xs : List Nat}

/-- What `new_list_item` does: an item of the pool or a fresh one, that no chain contains. -/
structure NewItem (m : ListMem) (l d : Nat) (cs ps : List Nat) (item : Nat) (m' : ListMem)
    (ps' : List Nat) : Prop where
  held : Held m' l cs ps'
  notMem : item ∉ cs ++ ps'
  ne_zero : item ≠ 0
  lt : item < m'.nextItem
  next_eq : m'.next item = 0
  data_eq : m'.data item = d
  source : item ∈ ps ∨ m.nextItem ≤ item
  pool : ps' ⊆ ps
  items : ∀ a ≠ item, m'.items a = m.items a
  lists : ∀ k ≠ l, m'.lists k = m.lists k
  size_eq : (m'.lists l).size = (m.lists l).size
  head_eq : (m'.lists l).head = (m.lists l).head
  tail_eq : (m'.lists l).tail = (m.lists l).tail
  nextItem : m.nextItem ≤ m'.nextItem
  nextList : m'.nextList = m.nextList

/-- `new_list_item` takes the first item of the pool if there is one. -/
theorem Held.newListItem (h : Held m l cs ps) (d : Nat) :
    ∃ item m' ps', m.newListItem l d = (item, m') ∧ NewItem m l d cs ps item m' ps' := by
  unfold ListMem.newListItem
  cases ps with
  | nil =>
    have hsize : ¬ (m.lists l).poolSize > 0 := by
      rw [h.poolSize]
      simp
    have hfresh : m.nextItem ∉ cs := fun hmem => by
      have := (h.bound m.nextItem (by simp [hmem])).2
      omega
    rw [if_neg hsize]
    refine ⟨_, _, [], rfl, ?_⟩
    constructor
    · refine h.frame rfl (fun a ha => ?_) ?_
      · have hne : a ≠ m.nextItem := fun heq => hfresh (by simpa [heq] using ha)
        simp [setItem, hne]
      · simp
    · simpa using hfresh
    · exact Nat.pos_iff_ne_zero.mp h.pos
    · simp
    · simp [next]
    · simp [ListMem.data]
    · exact .inr (le_refl _)
    · simp
    · intro a ha
      simp [setItem, ha]
    · intro k _
      rfl
    · rfl
    · rfl
    · rfl
    · simp
    · rfl
  | cons item ps =>
    have hsize : (m.lists l).poolSize > 0 := by
      rw [h.poolSize]
      simp only [List.length_cons, Nat.cast_add, Nat.cast_one]
      omega
    obtain ⟨hpool, hrest⟩ := h.pool
    have hitem := h.bound item (by simp)
    have hnodup : item ∉ cs ++ ps ∧ (cs ++ ps).Nodup :=
      List.nodup_cons.mp (List.nodup_middle.mp h.nodup)
    have hne : ∀ a ∈ cs ++ ps, a ≠ item := fun a ha heq => hnodup.1 (heq ▸ ha)
    rw [if_pos hsize, hpool]
    refine ⟨_, _, ps, rfl, ?_⟩
    constructor
    · constructor
      · unfold Seg
        simp only [setItem_lists, setList_self, setItem_next, setList_next]
        exact Chain.update_of_notMem h.chain fun hmem => hne item (by simp [hmem]) rfl
      · simp only [setItem_lists, setList_self, setItem_next, setList_next]
        exact hrest.update_of_notMem fun hmem => hne item (by simp [hmem]) rfl
      · simp [h.poolSize]
      · simp [h.iter]
      · exact hnodup.2
      · exact fun a ha => h.bound a (by
          rcases List.mem_append.mp ha with hcs | hps
          · exact List.mem_append_left _ hcs
          · exact List.mem_append_right _ (List.mem_cons_of_mem item hps))
      · exact h.pos
    · exact hnodup.1
    · exact hitem.1
    · exact hitem.2
    · simp [next]
    · simp [ListMem.data]
    · exact .inl List.mem_cons_self
    · exact List.subset_cons_self item ps
    · intro a ha
      simp [setItem, ha]
    · intro k hk
      simp [hk]
    · simp
    · simp
    · simp
    · exact le_refl _
    · rfl

/-- Linking a new item into a chain, behind the items `cs`. -/
def linked (m : ListMem) (l item : Nat) (cs ds : List Nat) : ListMem :=
  (m.setItem item fun x => { x with next := ds.headD 0 }).write item (linkAfter l cs)

section Linked

variable {mf : ListMem} {ds ps' : List Nat} {d item : Nat}

theorem linked_items (h : mf.items = m.items) :
    (linked mf l item cs ds).items = (linked m l item cs ds).items := by
  rcases cs.eq_nil_or_concat' with rfl | ⟨bs, t, rfl⟩
  · simp [linked, ListMem.write, setItem, h]
  · simp [linked, ListMem.write, setItem, h]

theorem linked_lists_self : (linked m l item cs ds).lists l =
    { m.lists l with head := if cs = [] then item else (m.lists l).head } := by
  rcases cs.eq_nil_or_concat' with rfl | ⟨bs, t, rfl⟩
  · simp [linked, ListMem.write]
  · simp [linked, ListMem.write]

/-- The chain of a list into which an item was linked. -/
theorem Held.linked (h : Held m l (cs ++ ds) ps) (hmem : item ∉ cs ++ ds ++ ps)
    (hzero : item ≠ 0) (hlt : item < m.nextItem) :
    Held (linked m l item cs ds) l (cs ++ item :: ds) ps := by
  have hcs : cs.Nodup := (List.nodup_append.mp (List.nodup_append.mp h.nodup).1).1
  have hsplit := List.nodup_append.mp h.nodup
  have hne : ∀ a ∈ cs ++ ds ++ ps, a ≠ item := fun a ha heq => hmem (heq ▸ ha)
  obtain ⟨b, hfirst, hsecond⟩ := Chain.append_iff.mp h.chain
  set m₁ := m.setItem item fun x => { x with next := ds.headD 0 } with hm₁
  have hnext : m₁.next = Function.update m.next item (ds.headD 0) := setItem_next
  have hfirst' : Seg m₁ l cs b := by
    unfold Seg
    rw [hnext]
    exact Chain.update_of_notMem hfirst fun hin => hne item (by simp [hin]) rfl
  have hsecond' : Chain m₁.next item (item :: ds) 0 := by
    refine ⟨rfl, ?_⟩
    rw [hnext, Function.update_self]
    have hstart : Chain m.next (ds.headD 0) ds 0 := hsecond.start_eq ▸ hsecond
    exact hstart.update_of_notMem fun hin => hne item (by simp [hin]) rfl
  have hdisjoint : ∀ a ∈ cs, a ∉ item :: ds := by
    intro a ha hin
    rcases List.mem_cons.mp hin with rfl | hds
    · exact hne a (by simp [ha]) rfl
    · exact (List.nodup_append.mp hsplit.1).2.2 a ha a hds rfl
  constructor
  · exact Chain.append_iff.mpr ⟨item, hfirst'.write_linkAfter hcs,
      Chain.write_linkAfter hsecond' hdisjoint⟩
  · simp only [Slist.linked, write_pool]
    refine Chain.write_linkAfter ?_ fun a ha hin => hsplit.2.2 a (by simp [ha]) a hin rfl
    rw [← hm₁, hnext]
    exact h.pool.update_of_notMem fun hin => hne item (by simp [hin]) rfl
  · simp [Slist.linked, h.poolSize]
  · simp [Slist.linked, h.iter]
  · have hperm : (item :: (cs ++ ds ++ ps)).Perm (cs ++ item :: ds ++ ps) := by
      simp only [List.append_assoc, List.cons_append]
      exact List.perm_middle.symm
    exact hperm.nodup_iff.mp (List.nodup_cons.mpr ⟨hmem, h.nodup⟩)
  · intro a ha
    by_cases hai : a = item
    · subst hai
      exact ⟨hzero, by simpa [Slist.linked] using hlt⟩
    · have hold : a ∈ cs ++ ds ++ ps := by
        simp only [List.append_assoc, List.cons_append, List.mem_append, List.mem_cons] at ha ⊢
        rcases ha with hin | hin | hin | hin
        · exact .inl hin
        · exact absurd hin hai
        · exact .inr (.inl hin)
        · exact .inr (.inr hin)
      simpa [Slist.linked] using h.bound a hold
  · simpa [Slist.linked] using h.pos

/-- An operation that links a new item behind the items `cs` and sets the tail
when nothing follows it inserts into the sequence. -/
theorem Holds.insert (h : Holds m l (cs ++ ds) ps xs)
    (hn : NewItem m l d (cs ++ ds) ps item m' ps')
    (hitems : mf.items = (linked m' l item cs ds).items)
    (hlists : ∀ k ≠ l, mf.lists k = m'.lists k)
    (hlist : mf.lists l = { (linked m' l item cs ds).lists l with
      size := (m.lists l).size + 1, iterIdx := (mf.lists l).iterIdx, iter := .head l
      tail := if ds = [] then item else (m.lists l).tail })
    (hnextItem : mf.nextItem = m'.nextItem) (hnextList : mf.nextList = m'.nextList) :
    Holds mf l (cs ++ item :: ds) ps' (xs.take cs.length ++ d :: xs.drop cs.length) ∧
      Touches m mf [l] (cs ++ ds ++ ps) (cs ++ item :: ds ++ ps') := by
  have hdata : mf.data = m'.data := by
    have hlinked : (linked m' l item cs ds).data = m'.data := by
      rw [Slist.linked, write_data, setItem_data]
      exact Function.update_eq_self item m'.data
    rw [← hlinked]
    funext a
    simp only [ListMem.data, hitems]
  have hold : ∀ a ∈ cs ++ ds, m'.data a = m.data a := by
    intro a ha
    have hne : a ≠ item := fun heq => hn.notMem (heq ▸ List.mem_append_left ps' ha)
    simp only [ListMem.data, hn.items a hne]
  refine ⟨⟨?_, ?_, ?_, ?_, ?_⟩, ?_, ?_, ?_, ?_, ?_⟩
  · refine (hn.held.linked hn.notMem hn.ne_zero hn.lt).congr ?_ ?_ ?_ ?_ ?_ ?_
    · rw [hlist]
    · rw [hlist]
    · rw [hlist]
    · rw [hlist]
    · exact fun a _ => by rw [hitems]
    · simp [Slist.linked, hnextItem]
  · rw [hdata, ← h.data]
    simp only [List.map_append, List.map_cons, hn.data_eq]
    rw [List.map_congr_left fun a ha => hold a (List.mem_append_left ds ha),
      List.map_congr_left fun a ha => hold a (List.mem_append_right cs ha)]
    congr 1
    · exact (List.take_left' (List.length_map _)).symm
    · exact congrArg _ (List.drop_left' (List.length_map _)).symm
  · rw [hlist, h.size]
    simp only [List.length_append, List.length_cons]
    omega
  · intro a ha
    rw [hlist]
    rcases ds.eq_nil_or_concat' with rfl | ⟨es, e, rfl⟩
    · simpa using ha
    · have hlast := h.tail e (by simp)
      have hae : a = e := by
        rw [List.append_cons, ← List.append_assoc, List.getLast?_concat] at ha
        simpa using ha.symm
      simp [hae, hlast]
  · simp
  · intro a hlt ha
    have hai : a ≠ item := by
      rintro rfl
      rcases hn.source with hpool | hfresh
      · exact ha (by simp [hpool])
      · omega
    have hacs : a ∉ cs := fun hin => ha (by simp [hin])
    rw [hitems, Slist.linked, items_write_linkAfter hacs, setItem_of_ne hai, hn.items a hai]
  · intro k hk
    have hkl : k ≠ l := by simpa using hk
    rw [hlists k hkl, hn.lists k hkl]
  · intro a ha
    simp only [List.append_assoc, List.cons_append, List.mem_append, List.mem_cons] at ha ⊢
    rcases ha with hin | rfl | hin | hin
    · exact .inl (.inl hin)
    · rcases hn.source with hpool | hfresh
      · exact .inl (.inr (.inr hpool))
      · exact .inr hfresh
    · exact .inl (.inr (.inl hin))
    · exact .inl (.inr (.inr (hn.pool hin)))
  · rw [hnextItem]
    exact hn.nextItem
  · rw [hnextList, hn.nextList]

end Linked

section Insert

variable {d : Nat}

theorem Holds.head_eq (h : Holds m l cs ps xs) : (m.lists l).head = cs.headD 0 :=
  Chain.start_eq h.chain

theorem Holds.size_eq_zero_iff (h : Holds m l cs ps xs) : (m.lists l).size = 0 ↔ cs = [] := by
  rw [h.size]
  simp

theorem Holds.head_eq_zero_iff (h : Holds m l cs ps xs) : (m.lists l).head = 0 ↔ cs = [] := by
  rw [h.head_eq]
  cases cs with
  | nil => simp
  | cons c cs => simpa using (h.bound c (by simp)).1

theorem Holds.length_eq (h : Holds m l cs ps xs) : xs.length = cs.length := by
  rw [← h.data, List.length_map]

/-- `list_push` puts the new element in front. -/
theorem Holds.listPush (h : Holds m l cs ps xs) (d : Nat) :
    ∃ cs' ps', Holds (m.listPush l d) l cs' ps' (d :: xs) ∧
      Touches m (m.listPush l d) [l] (cs ++ ps) (cs' ++ ps') := by
  obtain ⟨item, m', ps', hitem, hn⟩ := h.newListItem d
  simp only [ListMem.listPush, hitem]
  have hfront : Holds m l ([] ++ cs) ps xs := h
  have hhead : (m'.lists l).head = cs.headD 0 := hn.head_eq.trans h.head_eq
  refine ⟨item :: cs, ps', hfront.insert hn ?_ ?_ ?_ ?_ ?_⟩
  · simp only [hhead, Slist.linked, linkAfter_nil, ListMem.write]
    split <;> rfl
  · intro k hk
    simp only [hhead]
    split <;> simp [hk]
  · have hempty := h.size_eq_zero_iff
    by_cases hcs : cs = []
    · simp [hhead, Slist.linked, ListMem.write, hn.size_eq, hempty, hcs]
    · simp [hhead, Slist.linked, ListMem.write, hn.size_eq, hempty, hcs, hn.held.iter,
        hn.tail_eq]
  · simp only [hhead]
    split <;> simp
  · simp only [hhead]
    split <;> simp

/-- Writing what a link holds changes nothing. -/
theorem setItem_next_self {a v : Nat} (h : m.next a = v) :
    (m.setItem a fun x => { x with next := v }) = m := by
  have hcell : (⟨v, (m.items a).data⟩ : ListItem) = m.items a := by
    have hnext : (m.items a).next = v := h
    rw [← hnext]
  have hitems : Function.update m.items a ⟨v, (m.items a).data⟩ = m.items := by
    rw [hcell, Function.update_eq_self]
  calc m.setItem a _
      = { m with items := Function.update m.items a ⟨v, (m.items a).data⟩ } := rfl
    _ = m := by rw [hitems]

/-- `list_append` puts the new element behind the others. -/
theorem Holds.listAppend (h : Holds m l cs ps xs) (d : Nat) :
    ∃ mf ps' item, m.listAppend l d = some mf ∧ Holds mf l (cs ++ [item]) ps' (xs ++ [d]) ∧
      Touches m mf [l] (cs ++ ps) (cs ++ [item] ++ ps') := by
  obtain ⟨item, m', ps', hitem, hn⟩ := h.newListItem d
  have hback : Holds m l (cs ++ []) ps xs := by rwa [List.append_nil]
  have hnback : NewItem m l d (cs ++ []) ps item m' ps' := by rwa [List.append_nil]
  have hseq : xs.take cs.length ++ d :: xs.drop cs.length = xs ++ [d] := by
    simp [← h.length_eq]
  simp only [ListMem.listAppend, hitem, h.head_eq_zero_iff]
  rcases cs.eq_nil_or_concat' with rfl | ⟨bs, t, rfl⟩
  · rw [if_pos rfl]
    refine ⟨_, ps', item, rfl, ?_⟩
    rw [← hseq]
    refine hback.insert hnback ?_ ?_ ?_ ?_ ?_
    · simp [Slist.linked, setItem_next_self hn.next_eq, ListMem.write]
    · intro k hk
      simp [hk]
    · simp [Slist.linked, setItem_next_self hn.next_eq, ListMem.write, hn.size_eq]
    · simp
    · simp
  · have htail : (m.lists l).tail = t := h.tail t (by simp)
    have hzero : t ≠ 0 := (h.bound t (by simp)).1
    rw [if_neg (by simp), htail, if_neg hzero]
    refine ⟨_, ps', item, rfl, ?_⟩
    rw [← hseq]
    have hcells : bs ++ [t] ++ ps = bs ++ [t] ++ [] ++ ps := by rw [List.append_nil]
    rw [hcells]
    refine hback.insert hnback ?_ ?_ ?_ ?_ ?_
    · simp [Slist.linked, setItem_next_self hn.next_eq, ListMem.write]
    · intro k hk
      simp [hk]
    · simp [Slist.linked, setItem_next_self hn.next_eq, ListMem.write, hn.size_eq, hn.held.iter]
    · simp
    · simp

end Insert

section Walk

variable {ds : List Nat}

/-- The walk of `list_insert_at` stops before the link of the last item. -/
theorem walk_eq (h : Seg m l (cs ++ ds) 0) (hzero : 0 ∉ ds) (n i : Nat) :
    m.walk n (linkAfter l cs) i =
      (linkAfter l (cs ++ ds.take (min n (ds.length - 1))), i + min n (ds.length - 1)) := by
  induction n generalizing cs ds i with
  | zero => simp [walk]
  | succ n ih =>
    obtain ⟨b, hfirst, hsecond⟩ := Chain.append_iff.mp h
    rw [walk, Seg.read_linkAfter hfirst]
    rcases ds with _ | ⟨a, _ | ⟨a', es⟩⟩
    · have hb : b = 0 := hsecond
      simp [hb]
    · obtain ⟨rfl, hend⟩ := hsecond
      have hlast : (m.items b).next = 0 := hend
      simp [hlast]
    · obtain ⟨rfl, hnext, -⟩ := hsecond
      have hcond : b ≠ 0 ∧ (m.items b).next ≠ 0 := by
        have hnext' : (m.items b).next = a' := hnext
        rw [hnext']
        simp only [List.mem_cons, not_or] at hzero
        exact ⟨Ne.symm hzero.1, Ne.symm hzero.2.1⟩
      have hstep : Seg m l ((cs ++ [b]) ++ a' :: es) 0 := by simpa using h
      have hrest := ih hstep (fun hmem => hzero (List.mem_cons_of_mem b hmem)) (i + 1)
      rw [if_pos hcond]
      rw [linkAfter_concat] at hrest
      rw [hrest]
      have hmin : min (n + 1) ((b :: a' :: es).length - 1) =
          min n ((a' :: es).length - 1) + 1 := by
        simp only [List.length_cons]
        omega
      rw [hmin]
      simp only [List.take_succ_cons, List.append_assoc, List.cons_append, List.nil_append]
      congr 1
      omega

/-- A list longer than `k` has a cell number `k`. -/
theorem exists_split {k : Nat} (h : k < cs.length) :
    ∃ as a bs, cs = as ++ a :: bs ∧ as.length = k :=
  ⟨cs.take k, cs[k], cs.drop (k + 1), by simp, by simp [le_of_lt h]⟩

/-- The walk of `list_insert_at` ends in front of the link behind the index, or of the
last link. -/
private theorem split_at_walk {as bs : List Nat} {a idx : Nat} (hidx : 0 < idx)
    (hk : as.length = min (idx - 1) ((as ++ a :: bs).length - 1)) :
    (as ++ a :: bs).take idx = as ++ [a] ∧ (as ++ a :: bs).drop idx = bs := by
  simp only [List.length_append, List.length_cons] at hk
  by_cases hle : idx = as.length + 1
  · subst hle
    simp [List.take_append, List.drop_append]
  · have hbs : bs.length = 0 := by omega
    obtain rfl := List.length_eq_zero_iff.mp hbs
    refine ⟨List.take_of_length_le ?_, List.drop_of_length_le ?_⟩
    · simp only [List.length_append, List.length_singleton]
      omega
    · simp only [List.length_append, List.length_singleton]
      omega

/-- `list_insert_at` puts the new element at the index, or at the end when the list
is shorter. -/
theorem Holds.listInsertAt (h : Holds m l cs ps xs) (d : Nat) {idx : Int} (hidx : 0 ≤ idx) :
    ∃ cs' ps', Holds (m.listInsertAt l d idx).2 l cs' ps'
        (xs.take idx.toNat ++ d :: xs.drop idx.toNat) ∧
      Touches m (m.listInsertAt l d idx).2 [l] (cs ++ ps) (cs' ++ ps') := by
  obtain ⟨item, m', ps', hitem, hn⟩ := h.newListItem d
  have hzero : 0 ∉ cs := fun hmem => (h.bound 0 (by simp [hmem])).1 rfl
  have hwalk : m.walk (idx - 1).toNat (.head l) 0 =
      (linkAfter l (cs.take (min (idx - 1).toNat (cs.length - 1))),
        0 + min (idx - 1).toNat (cs.length - 1)) :=
    walk_eq (show Seg m l ([] ++ cs) 0 from h.chain) hzero (idx - 1).toNat 0
  -- The tail is written before the links are.
  obtain ⟨m₁, hm₁⟩ : ∃ m₁, m₁ = m'.setList l fun x =>
    { x with tail := if idx ≥ (m'.lists l).size then item else x.tail } := ⟨_, rfl⟩
  have hitems₁ : m₁.items = m'.items := by rw [hm₁]; rfl
  have hlists₁ : ∀ k ≠ l, m₁.lists k = m'.lists k := by
    intro k hk
    rw [hm₁, setList_of_ne hk]
  have hnextItem₁ : m₁.nextItem = m'.nextItem := by rw [hm₁]; rfl
  have hnextList₁ : m₁.nextList = m'.nextList := by rw [hm₁]; rfl
  have hlist₁ : m₁.lists l = { m'.lists l with
      tail := if idx ≥ (m.lists l).size then item else (m.lists l).tail } := by
    simp [hm₁, hn.size_eq, hn.tail_eq]
  simp only [ListMem.listInsertAt, if_neg (not_lt.mpr hidx), hwalk, hitem, ite_setTail, ← hm₁]
  have hseg₁ : Seg m₁ l cs 0 := by
    have hseg := hn.held.chain
    unfold Seg at hseg ⊢
    have hnext : m₁.next = m'.next := by
      funext a
      simp only [next, hitems₁]
    rwa [hnext, hlist₁]
  -- The three ways of setting the links are one.
  obtain ⟨c, hlinked⟩ : ∃ c, (if idx = 0 then
        (0 + min (idx - 1).toNat (cs.length - 1),
          (m₁.setItem item fun x => { x with next := (m₁.lists l).head }).setList l
            fun x => { x with head := item })
      else if m₁.read (linkAfter l (cs.take (min (idx - 1).toNat (cs.length - 1)))) ≠ 0 then
        let prev := m₁.read (linkAfter l (cs.take (min (idx - 1).toNat (cs.length - 1))))
        (0 + min (idx - 1).toNat (cs.length - 1) + 1,
          (m₁.setItem item fun x => { x with next := (m₁.items prev).next }).setItem prev
            fun x => { x with next := item })
      else (0 + min (idx - 1).toNat (cs.length - 1),
        m₁.write item (linkAfter l (cs.take (min (idx - 1).toNat (cs.length - 1)))))) =
      (c, linked m₁ l item (cs.take idx.toNat) (cs.drop idx.toNat)) := by
    by_cases hfront : idx = 0
    · have hhead : (m₁.lists l).head = cs.headD 0 := Chain.start_eq hseg₁
      rw [if_pos hfront]
      refine ⟨_, Prod.ext rfl ?_⟩
      simp [hfront, linked, hhead, ListMem.write]
    · rw [if_neg hfront]
      rcases Nat.eq_zero_or_pos cs.length with hnil | hpos
      · obtain rfl := List.length_eq_zero_iff.mp hnil
        have hread : m₁.read (.head l) = 0 := hseg₁
        have hcell : m₁.next item = 0 := by
          rw [← hn.next_eq]
          simp only [next, hitems₁]
        simp [hread, linked, setItem_next_self hcell]
      · have hlt : min (idx - 1).toNat (cs.length - 1) < cs.length := by omega
        obtain ⟨as, a, bs, hcs, hlen⟩ := exists_split hlt
        obtain ⟨b, hfirst, rfl, hrest⟩ := Chain.append_iff.mp (hcs ▸ hseg₁ : Seg m₁ l _ 0)
        have hread : m₁.read (linkAfter l as) = b := Seg.read_linkAfter hfirst
        have hb : b ≠ 0 := (h.bound b (by simp [hcs])).1
        have hnext : (m₁.items b).next = bs.headD 0 := hrest.start_eq
        have htake : cs.take (min (idx - 1).toNat (cs.length - 1)) = as := by
          rw [← hlen, hcs, List.take_left]
        have hstop : as.length = min (idx.toNat - 1) ((as ++ b :: bs).length - 1) := by
          rw [← hcs, hlen]
          congr 1
          omega
        have hpos' : 0 < idx.toNat := by omega
        obtain ⟨hfst, hsnd⟩ := split_at_walk hpos' hstop
        rw [htake, hread, if_pos hb, hcs, hfst, hsnd]
        refine ⟨_, Prod.ext rfl ?_⟩
        simp [linked, ListMem.write, hnext]
  simp only [hlinked]
  have hsplit : Holds m l (cs.take idx.toNat ++ cs.drop idx.toNat) ps xs := by
    rwa [List.take_append_drop]
  have hnsplit : NewItem m l d (cs.take idx.toNat ++ cs.drop idx.toNat) ps item m' ps' := by
    rwa [List.take_append_drop]
  refine ⟨cs.take idx.toNat ++ item :: cs.drop idx.toNat, ps', ?_⟩
  have hseq : xs.take idx.toNat ++ d :: xs.drop idx.toNat =
      xs.take (cs.take idx.toNat).length ++ d :: xs.drop (cs.take idx.toNat).length := by
    rw [List.length_take, ← h.length_eq]
    rcases le_total idx.toNat xs.length with hle | hle
    · rw [min_eq_left hle]
    · rw [min_eq_right hle, List.take_of_length_le hle, List.drop_of_length_le hle,
        List.take_length, List.drop_length]
  have hcells : cs ++ ps = cs.take idx.toNat ++ cs.drop idx.toNat ++ ps := by
    rw [List.take_append_drop]
  have hlast : idx ≥ (m.lists l).size ↔ cs.drop idx.toNat = [] := by
    rw [h.size, List.drop_eq_nil_iff]
    omega
  rw [hseq, hcells]
  refine hsplit.insert hnsplit ?_ ?_ ?_ ?_ ?_
  · exact linked_items hitems₁
  · intro k hk
    rw [setList_of_ne hk, linked, lists_write_linkAfter hk]
    exact hlists₁ k hk
  · simp [linked_lists_self, hlist₁, hlast, hn.size_eq, hn.held.iter]
  · simp [linked, hnextItem₁]
  · simp [linked, hnextList₁]

end Walk

section Remove

variable {mf : ListMem} {ds : List Nat} {a : Nat}

/-- Unlinking an item from a chain. -/
theorem Held.unlink (h : Held m l (cs ++ a :: ds) ps) :
    Held (m.write (m.next a) (linkAfter l cs)) l (cs ++ ds) ps := by
  have hsplit := List.nodup_append.mp h.nodup
  have hcs := List.nodup_append.mp hsplit.1
  obtain ⟨b, hfirst, rfl, hrest⟩ := Chain.append_iff.mp h.chain
  have hsub : ∀ c ∈ cs ++ ds ++ ps, c ∈ cs ++ b :: ds ++ ps := by
    intro c hc
    simp only [List.append_assoc, List.cons_append, List.mem_append, List.mem_cons] at hc ⊢
    rcases hc with hin | hin | hin
    · exact .inl hin
    · exact .inr (.inr (.inl hin))
    · exact .inr (.inr (.inr hin))
  constructor
  · exact Chain.append_iff.mpr ⟨m.next b, Seg.write_linkAfter hfirst hcs.1,
      Chain.write_linkAfter hrest fun c hc hin =>
        hcs.2.2 c hc c (List.mem_cons_of_mem b hin) rfl⟩
  · rw [write_pool]
    exact Chain.write_linkAfter h.pool fun c hc hin => hsplit.2.2 c (by simp [hc]) c hin rfl
  · rw [write_poolSize, h.poolSize]
  · rw [write_iter, h.iter]
  · have hperm : (b :: (cs ++ ds ++ ps)).Perm (cs ++ b :: ds ++ ps) := by
      simp only [List.append_assoc, List.cons_append]
      exact List.perm_middle.symm
    exact (List.nodup_cons.mp (hperm.nodup_iff.mpr h.nodup)).2
  · intro c hc
    simpa using h.bound c (hsub c hc)
  · simpa using h.pos

/-- An item that left the chain is not on it. -/
theorem Held.notMem_unlink (h : Held m l (cs ++ a :: ds) ps) : a ∉ cs ++ ds ++ ps := by
  have hperm : (a :: (cs ++ ds ++ ps)).Perm (cs ++ a :: ds ++ ps) := by
    simp only [List.append_assoc, List.cons_append]
    exact List.perm_middle.symm
  exact (List.nodup_cons.mp (hperm.nodup_iff.mpr h.nodup)).1

/-- `release_to_pool` puts an item in front of the pool. -/
theorem Held.releaseToPool (h : Held m l cs ps) (hmem : a ∉ cs ++ ps) (hzero : a ≠ 0)
    (hlt : a < m.nextItem) : Held (m.releaseToPool l a) l cs (a :: ps) := by
  have hne : ∀ c ∈ cs ++ ps, c ≠ a := fun c hc heq => hmem (heq ▸ hc)
  have hnext : (m.releaseToPool l a).next = Function.update m.next a (m.lists l).pool := by
    simp [ListMem.releaseToPool, setItem_next]
  constructor
  · unfold Seg
    rw [hnext]
    simp only [ListMem.releaseToPool, setList_self, setItem_lists]
    exact Chain.update_of_notMem h.chain fun hin => hne a (by simp [hin]) rfl
  · rw [hnext]
    refine ⟨by simp [ListMem.releaseToPool], ?_⟩
    rw [Function.update_self]
    exact h.pool.update_of_notMem fun hin => hne a (by simp [hin]) rfl
  · simp [ListMem.releaseToPool, h.poolSize]
  · simp [ListMem.releaseToPool, h.iter]
  · exact List.nodup_middle.mpr (List.nodup_cons.mpr ⟨hmem, h.nodup⟩)
  · intro c hc
    have hc' : c = a ∨ c ∈ cs ++ ps := by
      simp only [List.mem_append, List.mem_cons] at hc ⊢
      rcases hc with hin | hin | hin
      · exact .inr (.inl hin)
      · exact .inl hin
      · exact .inr (.inr hin)
    rcases hc' with rfl | hin
    · exact ⟨hzero, hlt⟩
    · exact h.bound c hin
  · exact h.pos

/-- An operation that unlinks the item behind the items `cs` and puts it into the pool
removes its element from the sequence. -/
theorem Holds.remove (h : Holds m l (cs ++ a :: ds) ps xs)
    (hmf : mf.items = ((m.write (m.next a) (linkAfter l cs)).releaseToPool l a).items)
    (hlists : ∀ k ≠ l, mf.lists k = m.lists k)
    (hlist : mf.lists l = { ((m.write (m.next a) (linkAfter l cs)).releaseToPool l a).lists l with
      iterIdx := (mf.lists l).iterIdx, tail := (mf.lists l).tail })
    (htail : ∀ b ∈ (cs ++ ds).getLast?, (mf.lists l).tail = b)
    (hspare : cs ++ ds = [] → (mf.lists l).tail = 0 ∨ (mf.lists l).tail = a)
    (hnextItem : mf.nextItem = m.nextItem) (hnextList : mf.nextList = m.nextList) :
    Holds mf l (cs ++ ds) (a :: ps) (xs.eraseIdx cs.length) ∧
      Touches m mf [l] (cs ++ a :: ds ++ ps) (cs ++ ds ++ a :: ps) := by
  have hbound := h.bound a (by simp)
  have hmem := h.notMem_unlink
  have hheld := h.unlink.releaseToPool hmem hbound.1 (by simpa using hbound.2)
  have hitem : ∀ c, c ≠ a → c ∉ cs → mf.items c = m.items c := by
    intro c hca hcs
    rw [hmf, ListMem.releaseToPool, setList_items, setItem_of_ne hca, items_write_linkAfter hcs]
  have hdata : mf.data = Function.update m.data a 0 := by
    have hdata' : mf.data = ((m.write (m.next a) (linkAfter l cs)).releaseToPool l a).data := by
      funext c
      simp only [ListMem.data, hmf]
    rw [hdata', ListMem.releaseToPool, setList_data, setItem_data, write_data]
  refine ⟨⟨?_, ?_, ?_, htail, ?_⟩, ?_, ?_, ?_, ?_, ?_⟩
  · refine hheld.congr ?_ ?_ ?_ ?_ ?_ ?_
    · rw [hlist]
    · rw [hlist]
    · rw [hlist]
    · rw [hlist]
      exact hheld.iter
    · exact fun c _ => by rw [hmf]
    · simp [ListMem.releaseToPool, hnextItem]
  · have hold : (cs ++ ds).map mf.data = (cs ++ ds).map m.data := by
      refine List.map_congr_left fun c hc => ?_
      have hca : c ≠ a := fun heq => hmem (heq ▸ List.mem_append_left ps hc)
      rw [hdata, Function.update_of_ne hca]
    rw [hold, ← h.data]
    simp [List.eraseIdx_append_of_length_le]
  · rw [hlist]
    simp only [ListMem.releaseToPool, setList_self, setItem_lists, write_size, h.size,
      List.length_append, List.length_cons]
    omega
  · intro hnil
    rcases hspare hnil with hzero | ha
    · exact .inl hzero
    · rw [ha, hdata, Function.update_self]
      exact .inr ⟨List.mem_cons_self, rfl⟩
  · intro c _ hc
    refine hitem c (fun hca => hc (by simp [hca])) fun hin => hc (by simp [hin])
  · intro k hk
    exact hlists k (by simpa using hk)
  · intro c hc
    simp only [List.append_assoc, List.cons_append, List.mem_append, List.mem_cons] at hc ⊢
    rcases hc with hin | hin | hin | hin
    · exact .inl (.inl hin)
    · exact .inl (.inr (.inr (.inl hin)))
    · exact .inl (.inr (.inl hin))
    · exact .inl (.inr (.inr (.inr hin)))
  · rw [hnextItem]
  · exact hnextList

/-- `list_shift` takes the first element away. -/
theorem Holds.listShift (h : Holds m l cs ps xs) :
    (m.listShift l).1 = xs.headD 0 ∧ ∃ cs' ps', Holds (m.listShift l).2 l cs' ps' xs.tail ∧
      Touches m (m.listShift l).2 [l] (cs ++ ps) (cs' ++ ps') := by
  simp only [ListMem.listShift, h.head_eq_zero_iff]
  cases cs with
  | nil =>
    obtain rfl : xs = [] := h.data.symm
    rw [if_pos rfl]
    exact ⟨rfl, [], ps, h, Touches.refl m [l] _⟩
  | cons a ds =>
    have hhead : (m.lists l).head = a := h.head_eq
    have hfront : Holds m l ([] ++ a :: ds) ps xs := h
    have hxs : xs = m.data a :: ds.map m.data := h.data.symm
    rw [if_neg (by simp), hhead]
    refine ⟨?_, ds, a :: ps, ?_⟩
    · rw [hxs]
      rfl
    · rw [← List.eraseIdx_zero]
      refine hfront.remove ?_ ?_ ?_ ?_ ?_ ?_ ?_
      · simp [ListMem.releaseToPool, ListMem.write, next, setItem]
      · intro k hk
        simp [ListMem.releaseToPool, hk]
      · simp [ListMem.releaseToPool, ListMem.write, next]
      · intro b hb
        have htail : (m.lists l).tail = b := by
          refine h.tail b ?_
          cases ds with
          | nil => simp at hb
          | cons c es => simpa using hb
        have hab : a ≠ b := by
          rintro rfl
          have hnodup : a ∉ ds ++ ps := (List.nodup_cons.mp h.nodup).1
          exact hnodup (List.mem_append_left ps (List.mem_of_getLast? hb))
        simp [ListMem.releaseToPool, htail, hab]
      · intro hnil
        have htail : (m.lists l).tail = a := h.tail a (by simp_all)
        simp [ListMem.releaseToPool, htail]
      · rfl
      · rfl

end Remove

section RemoveAt

variable {ds : List Nat}

/-- The walk of `list_remove_at` keeps the item in front of the last link it took. -/
theorem walkRemove_eq (h : Seg m l (cs ++ ds) 0) (hzero : 0 ∉ ds) (n tmp : Nat) :
    m.walkRemove n tmp (linkAfter l cs) =
      ((ds.take (min n (ds.length - 1))).getLastD tmp,
        linkAfter l (cs ++ ds.take (min n (ds.length - 1)))) := by
  induction n generalizing cs ds tmp with
  | zero => simp [walkRemove]
  | succ n ih =>
    obtain ⟨b, hfirst, hsecond⟩ := Chain.append_iff.mp h
    rw [walkRemove, Seg.read_linkAfter hfirst]
    rcases ds with _ | ⟨a, _ | ⟨a', es⟩⟩
    · have hb : b = 0 := hsecond
      simp [hb]
    · obtain ⟨rfl, hend⟩ := hsecond
      have hlast : (m.items b).next = 0 := hend
      simp [hlast]
    · obtain ⟨rfl, hnext, -⟩ := hsecond
      have hcond : b ≠ 0 ∧ (m.items b).next ≠ 0 := by
        have hnext' : (m.items b).next = a' := hnext
        rw [hnext']
        simp only [List.mem_cons, not_or] at hzero
        exact ⟨Ne.symm hzero.1, Ne.symm hzero.2.1⟩
      have hstep : Seg m l ((cs ++ [b]) ++ a' :: es) 0 := by simpa using h
      have hrest := ih hstep (fun hmem => hzero (List.mem_cons_of_mem b hmem)) b
      rw [if_pos hcond]
      rw [linkAfter_concat] at hrest
      rw [hrest]
      have hmin : min (n + 1) ((b :: a' :: es).length - 1) =
          min n ((a' :: es).length - 1) + 1 := by
        simp only [List.length_cons]
        omega
      rw [hmin]
      simp only [List.take_succ_cons, List.getLastD_cons, List.append_assoc, List.cons_append,
        List.nil_append]

/-- `list_remove_at` leaves the list alone when the index is out of range. -/
theorem Holds.listRemoveAt_out (h : Holds m l cs ps xs) {idx : Int}
    (hidx : idx < 0 ∨ (xs.length : Int) ≤ idx) : m.listRemoveAt l idx = some (0, m) := by
  have hsize : (m.lists l).size = xs.length := by rw [h.size, h.length_eq]
  rw [ListMem.listRemoveAt, if_pos (by omega)]

/-- `list_remove_at` takes the element at the index away, unless that is the last one of
three or more. -/
theorem Holds.listRemoveAt (h : Holds m l cs ps xs) {idx : Nat} (hidx : idx < xs.length)
    (hlast : idx + 1 = xs.length → idx < 2) :
    ∃ mf cs' ps', m.listRemoveAt l idx = some (xs.getD idx 0, mf) ∧
      Holds mf l cs' ps' (xs.eraseIdx idx) ∧ Touches m mf [l] (cs ++ ps) (cs' ++ ps') := by
  have hsize : (m.lists l).size = xs.length := by rw [h.size, h.length_eq]
  have hzero : 0 ∉ cs := fun hmem => (h.bound 0 (by simp [hmem])).1 rfl
  rw [h.length_eq] at hidx hlast hsize
  have hwalk : m.walkRemove (idx - 1) (m.lists l).head (.head l) =
      ((cs.take (min (idx - 1) (cs.length - 1))).getLastD (m.lists l).head,
        linkAfter l (cs.take (min (idx - 1) (cs.length - 1)))) :=
    walkRemove_eq (show Seg m l ([] ++ cs) 0 from h.chain) hzero _ _
  have hmin : min (idx - 1) (cs.length - 1) = idx - 1 := by omega
  have htoNat : ((idx : Int) - 1).toNat = idx - 1 := by omega
  obtain ⟨as, a, bs, rfl, hlen⟩ := exists_split hidx
  have ha : a ≠ 0 := (h.bound a (by simp)).1
  obtain ⟨b, hfirst, rfl, -⟩ := Chain.append_iff.mp h.chain
  -- The link that is written, and the item kept as the new tail.
  obtain ⟨tmp, link, hpair, hguard, hlink, htmp, hempty⟩ : ∃ tmp link,
      m.walkRemove (idx - 1) (m.lists l).head (.head l) = (tmp, link) ∧
      ¬ (0 < (idx : Int) ∧ m.read link = 0) ∧
      (if 0 < (idx : Int) then Link.next (m.read link) else link) = linkAfter l as ∧
      (idx < 2 → ∀ c ∈ as.getLast?, tmp = c) ∧ (as = [] → tmp = b) := by
    refine ⟨_, _, hwalk, ?_⟩
    rw [hmin]
    rcases as.eq_nil_or_concat' with rfl | ⟨as₀, c, rfl⟩
    · obtain rfl : idx = 0 := by simpa using hlen.symm
      have hhead : (m.lists l).head = b := hfirst
      simp [hhead]
    · have hidx' : idx - 1 = as₀.length := by
        rw [← hlen, List.length_append, List.length_singleton, Nat.add_sub_cancel]
      have htake : (as₀ ++ [c] ++ b :: bs).take (idx - 1) = as₀ := by
        rw [hidx', List.append_assoc, List.take_left]
      obtain ⟨hfirst₀, -⟩ := Chain.concat_iff.mp hfirst
      have hread : m.read (linkAfter l as₀) = c := Seg.read_linkAfter hfirst₀
      have hc : c ≠ 0 := (h.bound c (by simp)).1
      have hpos : 0 < (idx : Int) := by
        rw [← hlen, List.length_append, List.length_singleton]
        omega
      rw [htake, hread, if_pos hpos, linkAfter_concat]
      refine ⟨fun hand => hc hand.2, rfl, fun hlt c' hc' => ?_, fun hnil => by simp at hnil⟩
      have hnil : as₀ = [] := List.length_eq_zero_iff.mp (by omega)
      obtain rfl : c = c' := by simpa using hc'
      subst hnil
      exact hfirst₀
  have hread : m.read (linkAfter l as) = b := Seg.read_linkAfter hfirst
  have hout : ¬ ((idx : Int) < 0 ∨ (idx : Int) ≥ (m.lists l).size) := by
    rw [hsize]
    omega
  have hdata : m.data b = xs.getD idx 0 := by
    rw [← h.data, ← hlen]
    simp
  have htail : ∀ c ∈ (b :: bs).getLast?, (m.lists l).tail = c := fun c hc =>
    h.tail c (by rw [List.getLast?_append_of_ne_nil _ (by simp)]; exact hc)
  simp only [ListMem.listRemoveAt, if_neg hout, htoNat, hpair, if_neg hguard, hlink, hread,
    if_neg ha, ite_setTail, ite_setIterIdx]
  refine ⟨_, as ++ bs, b :: ps, congrArg some (Prod.ext ?_ rfl), ?_⟩
  · rw [← hdata]
    exact congrFun write_data b
  · rw [← hlen]
    refine h.remove ?_ ?_ ?_ ?_ ?_ ?_ ?_
    · simp [ListMem.releaseToPool, next, setItem]
    · intro k hk
      simp [ListMem.releaseToPool, hk, lists_write_linkAfter]
    · simp [ListMem.releaseToPool, next]
    · intro c hc
      simp only [ListMem.releaseToPool, setList_self, setItem_lists, write_tail]
      rcases bs.eq_nil_or_concat' with rfl | ⟨es, e, rfl⟩
      · have hb : (m.lists l).tail = b := htail b rfl
        rw [if_pos hb.symm]
        refine htmp (hlast ?_) c (by simpa using hc)
        simp [← hlen]
      · have he : (m.lists l).tail = e := htail e (by
        rw [← List.cons_append, List.getLast?_concat]
        rfl)
        have hbe : b ≠ e := by
          rintro rfl
          exact h.notMem_unlink (by simp)
        rw [he, if_neg hbe]
        simpa [← List.append_assoc] using hc
    · intro hnil
      obtain ⟨rfl, rfl⟩ := List.append_eq_nil_iff.mp hnil
      have hb : (m.lists l).tail = b := htail b rfl
      simp [ListMem.releaseToPool, hb, hempty rfl]
    · simp [ListMem.releaseToPool]
    · simp [ListMem.releaseToPool]

end RemoveAt

section Clear

variable {a t n : Nat}

/-- A list holds fewer items than were ever allocated. -/
theorem Held.length_lt (h : Held m l cs ps) : (cs ++ ps).length < m.nextItem :=
  length_lt_of_nodup h.nodup (fun hmem => (h.bound 0 hmem).1 rfl) (fun a ha => (h.bound a ha).2)
    h.pos

/-- The loop of `list_clear` stops at the last item. -/
theorem lastItem_eq (h : Chain m.next a (xs ++ [t]) 0) (hzero : 0 ∉ xs ++ [t])
    (hn : xs.length < n) : m.lastItem n a = some t := by
  induction n generalizing a xs with
  | zero => omega
  | succ n ih =>
    rw [lastItem]
    cases xs with
    | nil =>
      obtain ⟨rfl, hend⟩ := h
      have ha : a ≠ 0 := fun heq => hzero (by simp [heq])
      have hlast : (m.items a).next = 0 := hend
      simp [ha, hlast]
    | cons x xs =>
      obtain ⟨rfl, hrest⟩ := h
      have ha : a ≠ 0 := fun heq => hzero (by simp [heq])
      have hzero' : 0 ∉ xs ++ [t] := fun hmem => hzero (List.mem_cons_of_mem a hmem)
      have hnext : (m.items a).next ≠ 0 := by
        intro heq
        have hstart : (m.items a).next = (xs ++ [t]).headD 0 := Chain.start_eq hrest
        rw [heq] at hstart
        cases xs with
        | nil => exact hzero' (by simp [show (0 : Nat) = t from hstart])
        | cons y ys => exact hzero' (by simp [show (0 : Nat) = y from hstart])
      rw [if_neg ha, if_pos hnext]
      exact ih hrest hzero' (by simpa using hn)

/-- An operation that puts all items of a list into the pool empties it. -/
theorem Holds.cleared {mf : ListMem} {qs : List Nat} (h : Holds m l cs ps xs)
    (hpool : Chain mf.next (mf.lists l).pool qs 0) (hperm : qs.Perm (cs ++ ps))
    (hitems : ∀ a ∉ cs ++ ps, mf.items a = m.items a) (hlists : ∀ k ≠ l, mf.lists k = m.lists k)
    (hlist : mf.lists l = { m.lists l with
      head := 0, tail := 0, iter := .head l, iterIdx := -1, size := 0, pool := (mf.lists l).pool
      poolSize := (m.lists l).poolSize + (m.lists l).size })
    (hnextItem : mf.nextItem = m.nextItem) (hnextList : mf.nextList = m.nextList) :
    Holds mf l [] qs [] ∧ Touches m mf [l] (cs ++ ps) ([] ++ qs) := by
  refine ⟨⟨⟨?_, hpool, ?_, ?_, ?_, ?_, ?_⟩, rfl, ?_, ?_, ?_⟩, ?_, ?_, ?_, ?_, hnextList⟩
  · unfold Seg
    rw [hlist]
    rfl
  · rw [hlist, h.poolSize, h.size, hperm.length_eq, List.length_append]
    push_cast
    omega
  · rw [hlist]
  · exact hperm.nodup_iff.mpr h.nodup
  · intro a ha
    rw [hnextItem]
    exact h.bound a (hperm.mem_iff.mp ha)
  · rw [hnextItem]
    exact h.pos
  · rw [hlist]
    rfl
  · simp
  · intro _
    rw [hlist]
    exact .inl rfl
  · exact fun a _ ha => hitems a ha
  · exact fun k hk => hlists k (by simpa using hk)
  · exact fun a ha => .inl (hperm.mem_iff.mp ha)
  · rw [hnextItem]

/-- `list_clear` empties the list. -/
theorem Holds.listClear (h : Holds m l cs ps xs) :
    ∃ mf cs' ps', m.listClear l = some mf ∧ Holds mf l cs' ps' [] ∧
      Touches m mf [l] (cs ++ ps) (cs' ++ ps') := by
  have hzero : 0 ∉ cs ++ ps := fun hmem => (h.bound 0 hmem).1 rfl
  have hlength := h.length_lt
  have hsplit := List.nodup_append.mp h.nodup
  rw [List.length_append] at hlength
  by_cases hcs : cs = []
  · subst hcs
    obtain rfl : xs = [] := h.data.symm
    refine ⟨m, [], ps, ?_, h, Touches.refl m [l] _⟩
    rw [ListMem.listClear, if_pos (h.size_eq_zero_iff.mpr rfl)]
  · have hsize : ¬ (m.lists l).size = 0 := fun heq => hcs (h.size_eq_zero_iff.mp heq)
    simp only [ListMem.listClear, if_neg hsize, Option.bind_eq_bind]
    by_cases hps : ps = []
    · subst hps
      have hpoolSize : (m.lists l).poolSize = 0 := h.poolSize
      rw [if_pos hpoolSize, Option.bind_some]
      refine ⟨_, [], cs, rfl, h.cleared ?_ ?_ ?_ ?_ ?_ ?_ ?_⟩
      · simp only [setList_self, setList_next]
        exact h.chain
      · simp
      · exact fun a _ => rfl
      · intro k hk
        simp [hk]
      · simp
      · rfl
      · rfl
    · have hpoolSize : ¬ (m.lists l).poolSize = 0 := by
        rw [h.poolSize]
        simpa using hps
      rw [if_neg hpoolSize]
      by_cases hlt : (m.lists l).size < (m.lists l).poolSize
      · obtain ⟨bs, t, rfl⟩ := cs.eq_nil_or_concat'.resolve_left hcs
        have hlastItem : m.lastItem m.nextItem (m.lists l).head = some t :=
          lastItem_eq h.chain (fun hmem => hzero (List.mem_append_left ps hmem)) (by
            rw [List.length_append, List.length_singleton] at hlength
            omega)
        simp only [if_pos hlt, hlastItem, Option.bind_some]
        refine ⟨_, [], bs ++ [t] ++ ps, rfl, h.cleared ?_ ?_ ?_ ?_ ?_ ?_ ?_⟩
        · simp only [setList_self, setList_next, setItem_next]
          exact Chain.join h.chain h.pool h.nodup
        · exact List.Perm.refl _
        · intro a ha
          simp only [setList_items]
          exact setItem_of_ne fun heq : a = t => ha (by simp [heq])
        · intro k hk
          simp [hk]
        · simp
        · rfl
        · rfl
      · obtain ⟨bs, t, rfl⟩ := ps.eq_nil_or_concat'.resolve_left hps
        have hlastItem : m.lastItem m.nextItem (m.lists l).pool = some t :=
          lastItem_eq h.pool (fun hmem => hzero (List.mem_append_right cs hmem)) (by
            rw [List.length_append, List.length_singleton] at hlength
            omega)
        have hperm : (bs ++ [t] ++ cs).Perm (cs ++ (bs ++ [t])) := List.perm_append_comm
        simp only [if_neg hlt, hlastItem, Option.bind_some]
        refine ⟨_, [], bs ++ [t] ++ cs, rfl, h.cleared ?_ hperm ?_ ?_ ?_ ?_ ?_⟩
        · simp only [setList_self, setList_next, setItem_next]
          exact Chain.join h.pool h.chain (hperm.nodup_iff.mpr h.nodup)
        · intro a ha
          simp only [setList_items]
          exact setItem_of_ne fun heq : a = t => ha (by simp [heq])
        · intro k hk
          simp [hk]
        · simp
        · rfl
        · rfl

end Clear

section Get

/-- `list_get_head` gives the first element. -/
theorem Holds.listGetHead (h : Holds m l cs ps xs) : m.listGetHead l = xs.headD 0 := by
  rw [ListMem.listGetHead, h.head_eq, ← h.data]
  cases cs with
  | nil => simp
  | cons a as =>
    have ha : a ≠ 0 := (h.bound a (by simp)).1
    simp [ha, ListMem.data]

/-- `list_get_tail` gives the last element. -/
theorem Holds.listGetTail (h : Holds m l cs ps xs) : m.listGetTail l = xs.getLastD 0 := by
  rw [ListMem.listGetTail, ← h.data]
  rcases cs.eq_nil_or_concat' with rfl | ⟨as, t, rfl⟩
  · rcases h.spare rfl with hzero | ⟨-, hdata⟩
    · simp [hzero]
    · have hcell : (m.items (m.lists l).tail).data = 0 := hdata
      simp [hcell]
  · have ht : t ≠ 0 := (h.bound t (by simp)).1
    have htail : (m.lists l).tail = t := h.tail t (by simp)
    simp [htail, ht, ListMem.data]

/-- The walk of `list_get_at` ends at the item with the index. -/
theorem nth_eq {as bs : List Nat} {a b : Nat} (h : Chain m.next a (as ++ b :: bs) 0)
    (hzero : 0 ∉ as ++ b :: bs) : m.nth as.length a = (as.length, b) := by
  induction as generalizing a with
  | nil =>
    obtain ⟨rfl, -⟩ := h
    rfl
  | cons x as ih =>
    obtain ⟨rfl, hrest⟩ := h
    have hzero' : 0 ∉ as ++ b :: bs := fun hmem => hzero (List.mem_cons_of_mem a hmem)
    have hnext : (m.items a).next ≠ 0 := by
      intro heq
      obtain hnil := Chain.eq_nil (a := (m.items a).next) (heq ▸ hrest) (heq ▸ hzero')
      simp at hnil
    rw [List.length_cons, nth, if_pos hnext]
    have hrest' : m.nth as.length (m.items a).next = (as.length, b) := ih hrest hzero'
    rw [hrest']

/-- `list_get_at` gives the element at the index, and `NULL` outside the list. -/
theorem Holds.listGetAt (h : Holds m l cs ps xs) (idx : Int) :
    m.listGetAt l idx = some (if 0 ≤ idx then xs.getD idx.toNat 0 else 0) := by
  have hsize : (m.lists l).size = xs.length := by rw [h.size, h.length_eq]
  have hzero : 0 ∉ cs := fun hmem => (h.bound 0 (by simp [hmem])).1 rfl
  unfold ListMem.listGetAt
  by_cases hout : (m.lists l).head = 0 ∨ idx < 0 ∨ idx ≥ (m.lists l).size
  · rw [if_pos hout]
    by_cases hneg : 0 ≤ idx
    · have hlen : xs.length ≤ idx.toNat := by
        rcases hout with hhead | hlt | hge
        · obtain rfl := h.head_eq_zero_iff.mp hhead
          rw [h.length_eq]
          exact Nat.zero_le _
        · omega
        · omega
      rw [if_pos hneg, List.getD_eq_getElem?_getD, List.getElem?_eq_none hlen]
      rfl
    · rw [if_neg hneg]
  · obtain ⟨n, rfl⟩ : ∃ n : Nat, idx = n := ⟨idx.toNat, by omega⟩
    have hn : n < cs.length := by
      rw [← h.length_eq]
      omega
    obtain ⟨as, a, bs, rfl, rfl⟩ := exists_split hn
    have ha : a ≠ 0 := (h.bound a (by simp)).1
    have hget : xs.getD as.length 0 = (m.items a).data := by
      rw [← h.data]
      simp [ListMem.data]
    rw [if_neg hout, if_pos (Int.natCast_nonneg _), Int.toNat_natCast, hget]
    split
    · rename_i hfirst
      obtain rfl : as = [] := List.length_eq_zero_iff.mp (by omega)
      rw [h.head_eq]
      rfl
    · split
      · rename_i hlast
        obtain rfl : bs = [] := by
          rw [hsize, h.length_eq, List.length_append, List.length_cons] at hlast
          exact List.length_eq_zero_iff.mp (by omega)
        have htail : (m.lists l).tail = a := h.tail a (by simp)
        rw [htail, if_neg ha]
      · rw [nth_eq h.chain hzero]
        simp

end Get

end Slist

end Recognizer
