import Recognizer.Slist.Operations

/-!
# The operations on two lists

Transfers move items from one chain to another, so the lists involved must not share
items, and a list that loses items may lose the one its tail points to.
-/

namespace Recognizer

namespace Slist

open ListMem

variable {m m' mf : ListMem} {l dst src : Nat} {cs ds ps pd xs xd ls ls' : List Nat}

/-- An operation leaves alone what it does not touch. -/
theorem Touches.mono {cells cells' : List Nat} (h : Touches m m' ls cells cells')
    (hls : ls ⊆ ls') (extra : List Nat) :
    Touches m m' ls' (cells ++ extra) (cells' ++ extra) where
  items a hlt ha := h.items a hlt fun hin => ha (List.mem_append_left extra hin)
  lists k hk := h.lists k fun hin => hk (hls hin)
  cells a ha := by
    rcases List.mem_append.mp ha with hin | hin
    · rcases h.cells a hin with hold | hfresh
      · exact .inl (List.mem_append_left extra hold)
      · exact .inr hfresh
    · exact .inl (List.mem_append_right cells hin)
  nextItem := h.nextItem
  nextList := h.nextList

/-- A list whose chain was replaced and whose pool was left alone. -/
theorem Held.rechain {cs' : List Nat} (h : Held m l cs ps) (hchain : Seg mf l cs' 0)
    (hpool : (mf.lists l).pool = (m.lists l).pool)
    (hpoolSize : (mf.lists l).poolSize = (m.lists l).poolSize)
    (hiter : (mf.lists l).iter = .head l) (hitems : ∀ a ∈ ps, mf.items a = m.items a)
    (hnodup : (cs' ++ ps).Nodup) (hbound : ∀ a ∈ cs', a ≠ 0 ∧ a < m.nextItem)
    (hnext : m.nextItem ≤ mf.nextItem) : Held mf l cs' ps where
  chain := hchain
  pool := by
    rw [hpool]
    refine h.pool.congr fun a ha => ?_
    simp only [next, hitems a ha]
  poolSize := by rw [hpoolSize, h.poolSize]
  iter := hiter
  nodup := hnodup
  bound a ha := by
    rcases List.mem_append.mp ha with hin | hin
    · exact ⟨(hbound a hin).1, lt_of_lt_of_le (hbound a hin).2 hnext⟩
    · have hold := h.bound a (List.mem_append_right cs hin)
      exact ⟨hold.1, lt_of_lt_of_le hold.2 hnext⟩
  pos := lt_of_lt_of_le h.pos hnext

/-- An operation that joins the chain of `src` to the one of `dst`. -/
theorem Holds.joined (hd : Holds m dst ds pd xd) (hs : Holds m src cs ps xs)
    (hdisjoint : ∀ a ∈ ds ++ pd, a ∉ cs ++ ps) (hcs : cs ≠ [])
    (hchain : Seg mf dst (ds ++ cs) 0) (hitems : ∀ a ∉ ds, mf.items a = m.items a)
    (hdata : mf.data = m.data) (hlists : ∀ k, k ≠ dst → k ≠ src → mf.lists k = m.lists k)
    (hdst : mf.lists dst = { m.lists dst with
      head := (mf.lists dst).head, tail := (m.lists src).tail
      size := (m.lists dst).size + (m.lists src).size })
    (hsrc : mf.lists src = { m.lists src with head := 0, tail := 0, size := 0, iterIdx := -1 })
    (hnextItem : mf.nextItem = m.nextItem) (hnextList : mf.nextList = m.nextList) :
    Holds mf dst (ds ++ cs) pd (xd ++ xs) ∧ Holds mf src [] ps [] ∧
      Touches m mf [dst, src] (ds ++ pd ++ (cs ++ ps)) (ds ++ cs ++ pd ++ ([] ++ ps)) := by
  have hdsplit := List.nodup_append.mp hd.nodup
  have hssplit := List.nodup_append.mp hs.nodup
  have hnodup : (ds ++ cs ++ pd).Nodup := by
    have hall : (ds ++ pd ++ cs).Nodup := List.nodup_append.mpr
      ⟨hd.nodup, hssplit.1, fun a ha b hb hab =>
        hdisjoint a ha (List.mem_append_left ps (hab ▸ hb))⟩
    have hperm : (ds ++ pd ++ cs).Perm (ds ++ cs ++ pd) := by
      simp only [List.append_assoc]
      exact List.perm_append_comm.append_left ds
    exact hperm.nodup_iff.mp hall
  have hps : ∀ a ∈ ps, mf.items a = m.items a := fun a ha =>
    hitems a fun hin => hdisjoint a (List.mem_append_left pd hin) (List.mem_append_right cs ha)
  have hpd : ∀ a ∈ pd, mf.items a = m.items a := fun a ha =>
    hitems a fun hin => hdsplit.2.2 a hin a ha rfl
  have hbound : ∀ a ∈ ds ++ cs, a ≠ 0 ∧ a < m.nextItem := by
    intro a ha
    rcases List.mem_append.mp ha with hin | hin
    · exact hd.bound a (List.mem_append_left pd hin)
    · exact hs.bound a (List.mem_append_left ps hin)
  refine ⟨⟨?_, ?_, ?_, ?_, ?_⟩, ⟨?_, rfl, ?_, ?_, ?_⟩, ?_, ?_, ?_, ?_, hnextList⟩
  · refine hd.toHeld.rechain hchain ?_ ?_ ?_ hpd hnodup hbound hnextItem.ge
    · rw [hdst]
    · rw [hdst]
    · rw [hdst]
      exact hd.iter
  · rw [List.map_append, hdata, hd.data, hs.data]
  · rw [hdst, hd.size, hs.size, List.length_append]
    push_cast
    rfl
  · intro a ha
    rw [List.getLast?_append_of_ne_nil ds hcs] at ha
    rw [hdst]
    exact hs.tail a ha
  · intro hnil
    exact absurd (List.append_eq_nil_iff.mp hnil).2 hcs
  · refine hs.toHeld.rechain ?_ ?_ ?_ ?_ hps hssplit.2.1 (by simp) hnextItem.ge
    · unfold Seg
      rw [hsrc]
      rfl
    · rw [hsrc]
    · rw [hsrc]
    · rw [hsrc]
      exact hs.iter
  · rw [hsrc]
    rfl
  · simp
  · intro _
    rw [hsrc]
    exact .inl rfl
  · intro a _ ha
    exact hitems a fun hin => ha (by simp [hin])
  · intro k hk
    simp only [List.mem_cons, List.not_mem_nil, or_false, not_or] at hk
    exact hlists k hk.1 hk.2
  · intro a ha
    refine .inl ?_
    simp only [List.append_assoc, List.mem_append, List.nil_append] at ha ⊢
    tauto
  · exact hnextItem.ge

/-- `list_transfer` joins the two chains. -/
theorem Holds.listTransfer (hd : Holds m dst ds pd xd) (hs : Holds m src cs ps xs)
    (hne : dst ≠ src) (hdisjoint : ∀ a ∈ ds ++ pd, a ∉ cs ++ ps) :
    ∃ mf, m.listTransfer dst src = some mf ∧ Holds mf dst (ds ++ cs) pd (xd ++ xs) ∧
      Holds mf src [] ps [] ∧
      Touches m mf [dst, src] (ds ++ pd ++ (cs ++ ps)) (ds ++ cs ++ pd ++ ([] ++ ps)) := by
  unfold ListMem.listTransfer
  by_cases hcs : cs = []
  · subst hcs
    obtain rfl : xs = [] := hs.data.symm
    rw [if_pos (hs.head_eq_zero_iff.mpr rfl), List.append_nil, List.append_nil]
    exact ⟨m, rfl, hd, hs, Touches.refl m _ _⟩
  have hhead : ¬ (m.lists src).head = 0 := fun heq => hcs (hs.head_eq_zero_iff.mp heq)
  rw [if_neg hhead]
  by_cases hds : ds = []
  · subst hds
    rw [if_pos (hd.head_eq_zero_iff.mpr rfl)]
    refine ⟨_, rfl, hd.joined hs hdisjoint hcs ?_ ?_ ?_ ?_ ?_ ?_ ?_ ?_⟩
    · have hchain := hs.chain
      unfold Seg at hchain ⊢
      simpa [hne, hne.symm, hs.iter, ListMem.write] using hchain
    · intro a _
      simp [hne.symm, hs.iter, ListMem.write]
    · simp
    · intro k hkd hks
      simp [hne.symm, hs.iter, ListMem.write, hkd, hks]
    · simp [hne, hne.symm, hs.iter, ListMem.write]
    · simp [hne.symm, hs.iter, ListMem.write]
    · simp
    · simp
  · obtain ⟨bs, t, rfl⟩ := ds.eq_nil_or_concat'.resolve_left hds
    have htail : (m.lists dst).tail = t := hd.tail t (by simp)
    have ht : t ≠ 0 := (hd.bound t (by simp)).1
    have hdhead : ¬ (m.lists dst).head = 0 := fun heq => hds (hd.head_eq_zero_iff.mp heq)
    rw [if_neg hdhead, htail, if_neg ht]
    refine ⟨_, rfl, hd.joined hs hdisjoint hcs ?_ ?_ ?_ ?_ ?_ ?_ ?_ ?_⟩
    · have hnodup : (bs ++ [t] ++ cs).Nodup := List.nodup_append.mpr
        ⟨(List.nodup_append.mp hd.nodup).1, (List.nodup_append.mp hs.nodup).1,
          fun a ha b hb hab => hdisjoint a (List.mem_append_left pd ha)
            (List.mem_append_left ps (hab ▸ hb))⟩
      have hchain := Chain.join hd.chain hs.chain hnodup
      unfold Seg
      simpa [hne, hne.symm, hs.iter, ListMem.write, setItem_next] using hchain
    · intro a ha
      have hat : a ≠ t := fun heq => ha (by simp [heq])
      simp [hne.symm, hs.iter, ListMem.write, setItem, hat]
    · have hcell : (m.items t).data = m.data t := rfl
      simp [setItem_data, hcell]
    · intro k hkd hks
      simp [hne.symm, hs.iter, ListMem.write, hkd, hks]
    · simp [hne, hne.symm, hs.iter, ListMem.write]
    · simp [hne.symm, hs.iter, ListMem.write]
    · simp
    · simp

/-- `list_transfer` of a list to itself empties it. -/
theorem Holds.listTransfer_self (h : Holds m l cs ps xs) :
    ∃ mf, m.listTransfer l l = some mf ∧ Holds mf l [] ps [] ∧
      Touches m mf [l] (cs ++ ps) ([] ++ ps) := by
  unfold ListMem.listTransfer
  by_cases hcs : cs = []
  · subst hcs
    obtain rfl : xs = [] := h.data.symm
    rw [if_pos (h.head_eq_zero_iff.mpr rfl)]
    exact ⟨m, rfl, h, Touches.refl m [l] _⟩
  · have hhead : ¬ (m.lists l).head = 0 := fun heq => hcs (h.head_eq_zero_iff.mp heq)
    obtain ⟨bs, t, rfl⟩ := cs.eq_nil_or_concat'.resolve_left hcs
    have htail : (m.lists l).tail = t := h.tail t (by simp)
    have ht : t ≠ 0 := (h.bound t (by simp)).1
    have hsplit := List.nodup_append.mp h.nodup
    rw [if_neg hhead, if_neg hhead, htail, if_neg ht]
    refine ⟨_, rfl, ⟨?_, rfl, ?_, ?_, ?_⟩, ?_, ?_, ?_, ?_, ?_⟩
    · refine h.toHeld.rechain ?_ ?_ ?_ ?_ ?_ hsplit.2.1 (by simp) ?_
      · simp [Seg, h.iter, ListMem.write]
      · simp [h.iter, ListMem.write]
      · simp [h.iter, ListMem.write]
      · simp [h.iter, ListMem.write]
      · intro a ha
        have hat : a ≠ t := fun heq => hsplit.2.2 t (by simp) a ha heq.symm
        simp [h.iter, ListMem.write, setItem, hat]
      · simp
    · simp [h.iter, ListMem.write]
    · simp
    · intro _
      simp [h.iter, ListMem.write]
    · intro a _ ha
      have hat : a ≠ t := fun heq => ha (by simp [heq])
      simp [h.iter, ListMem.write, setItem, hat]
    · intro k hk
      simp only [List.mem_singleton] at hk
      simp [h.iter, ListMem.write, hk]
    · intro a ha
      exact .inl (List.mem_append_right _ (by simpa using ha))
    · simp
    · simp

/-- `list_chop` leaves the list alone when it is empty or nothing is to be cut off. -/
theorem Holds.listChop_none (h : Holds m l cs ps xs) {sz : Nat} (hsz : xs = [] ∨ sz = 0) :
    m.listChop l sz = some (0, m) := by
  have hguard : (m.lists l).head = 0 ∨ sz < 1 := by
    rcases hsz with rfl | rfl
    · exact .inl (h.head_eq_zero_iff.mpr (List.map_eq_nil_iff.mp h.data))
    · exact .inr Nat.zero_lt_one
  rw [ListMem.listChop, if_pos hguard]

/-- The loop of `list_chop` walks over as many items as are to be cut off. -/
theorem chopLoop_eq {as bs : List Nat} (h : Seg m l (cs ++ as ++ bs) 0)
    (hzero : 0 ∉ as ++ bs) (t : Nat) :
    m.chopLoop as.length (linkAfter l cs) t = some (linkAfter l (cs ++ as), as.getLastD t) := by
  induction as generalizing cs t with
  | nil => simp [chopLoop]
  | cons a as ih =>
    have hsplit : Seg m l (cs ++ (a :: as ++ bs)) 0 := by rwa [← List.append_assoc]
    obtain ⟨b, hfirst, rfl, -⟩ := Chain.append_iff.mp hsplit
    have hb : b ≠ 0 := fun heq => hzero (by simp [heq])
    have hstep : Seg m l (cs ++ [b] ++ as ++ bs) 0 := by simpa using h
    have hrest := ih hstep (fun hmem => hzero (List.mem_cons_of_mem b hmem)) b
    rw [linkAfter_concat] at hrest
    rw [List.length_cons, chopLoop, Seg.read_linkAfter hfirst, if_neg hb, hrest]
    simp only [List.append_assoc, List.cons_append, List.nil_append, List.getLastD_cons]

/-- An operation that gives the first items of a list to a list without items. -/
theorem Holds.chopped {k : Nat} {as bs : List Nat} (h : Holds m l (as ++ bs) ps xs)
    (has : as ≠ []) (hfirst : Seg mf k as 0) (hsecond : Seg mf l bs 0)
    (hitems : ∀ a ∉ as, mf.items a = m.items a) (hdata : mf.data = m.data)
    (hk : mf.lists k = { size := as.length, iterIdx := -1, iter := .head k
                         head := (mf.lists k).head, tail := as.getLastD 0 })
    (hl : mf.lists l = { m.lists l with
      head := (mf.lists l).head, size := bs.length
      tail := if bs = [] then 0 else (m.lists l).tail })
    (hnextItem : mf.nextItem = m.nextItem) :
    Holds mf k as [] (xs.take as.length) ∧ Holds mf l bs ps (xs.drop as.length) := by
  have hsplit := List.nodup_append.mp h.nodup
  have hbs := List.nodup_append.mp hsplit.1
  have hps : ∀ a ∈ ps, mf.items a = m.items a := fun a ha =>
    hitems a fun hin => hsplit.2.2 a (List.mem_append_left bs hin) a ha rfl
  have hnodup : (bs ++ ps).Nodup := by
    have hall := h.nodup
    rw [List.append_assoc] at hall
    exact (List.nodup_append.mp hall).2.1
  have hlength : (as.map m.data).length = as.length := List.length_map _
  refine ⟨⟨⟨hfirst, ?_, ?_, ?_, ?_, ?_, ?_⟩, ?_, ?_, ?_, ?_⟩, ⟨?_, ?_, ?_, ?_, ?_⟩⟩
  · rw [hk]
    rfl
  · rw [hk]
    rfl
  · rw [hk]
  · simpa using hbs.1
  · intro a ha
    rw [hnextItem]
    exact h.bound a (by simpa using Or.inl (List.append_nil as ▸ ha))
  · rw [hnextItem]
    exact h.pos
  · rw [hdata, ← h.data, List.map_append, ← hlength, List.take_left]
  · rw [hk]
  · intro a ha
    have hlast : as.getLast? = some a := ha
    rw [hk, List.getLastD_eq_getLast?, hlast]
    rfl
  · exact fun hnil => absurd hnil has
  · refine h.toHeld.rechain hsecond ?_ ?_ ?_ hps hnodup ?_ hnextItem.ge
    · rw [hl]
    · rw [hl]
    · rw [hl]
      exact h.iter
    · exact fun a ha => h.bound a (by simp [ha])
  · rw [hdata, ← h.data, List.map_append, ← hlength, List.drop_left]
  · rw [hl]
  · intro a ha
    have hne : bs ≠ [] := by
      rintro rfl
      simp at ha
    have htail : (m.lists l).tail = a := h.tail a (by rwa [List.getLast?_append_of_ne_nil as hne])
    rw [hl, if_neg hne, htail]
  · intro hnil
    rw [hl, if_pos hnil]
    exact .inl rfl

/-- `list_chop` cuts the first elements off into a new list. -/
theorem Holds.listChop (h : Holds m l cs ps xs) {sz : Nat} (hxs : xs ≠ []) (hsz : 0 < sz)
    (hnew : l ≠ m.nextList) :
    ∃ mf, m.listChop l sz = some (m.nextList, mf) ∧
      Holds mf m.nextList (cs.take sz) [] (xs.take sz) ∧
      Holds mf l (cs.drop sz) ps (xs.drop sz) ∧
      Touches m.newList.2 mf [m.nextList, l] (cs ++ ps)
        (cs.take sz ++ [] ++ (cs.drop sz ++ ps)) := by
  have hcs : cs ≠ [] := fun heq => hxs (by rw [← h.data, heq]; rfl)
  have hhead : (m.lists l).head ≠ 0 := fun heq => hcs (h.head_eq_zero_iff.mp heq)
  have hguard : ¬ ((m.lists l).head = 0 ∨ sz < 1) := by
    rintro (heq | hlt)
    · exact hhead heq
    · omega
  have hzero : 0 ∉ cs := fun hmem => (h.bound 0 (by simp [hmem])).1 rfl
  simp only [ListMem.listChop, if_neg hguard, newList_fst]
  by_cases hge : (sz : Int) ≥ (m.lists l).size
  · have hle : cs.length ≤ sz := by
      have hsize := h.size
      omega
    have hlex : xs.length ≤ sz := by rwa [h.length_eq]
    have hall : Holds m l (cs ++ []) ps xs := by rwa [List.append_nil]
    obtain ⟨bs, t, hlast⟩ := cs.eq_nil_or_concat'.resolve_left hcs
    have htail : (m.lists l).tail = cs.getLastD 0 := by
      rw [h.tail t (by simp [hlast]), hlast]
      simp
    have hxs' : xs.take sz = xs.take cs.length ∧ xs.drop sz = xs.drop cs.length := by
      rw [← h.length_eq, List.take_of_length_le hlex, List.drop_of_length_le hlex]
      simp
    rw [if_pos hge, List.take_of_length_le hle, List.drop_of_length_le hle, hxs'.1, hxs'.2]
    refine ⟨_, rfl, ?_⟩
    rw [← and_assoc]
    refine ⟨hall.chopped hcs ?_ ?_ ?_ ?_ ?_ ?_ ?_, ?_, ?_, ?_, ?_, ?_⟩
    · have hchain := h.chain
      unfold Seg at hchain ⊢
      simpa [hnew, hnew.symm] using hchain
    · simp [Seg]
    · simp
    · simp
    · simp [hnew.symm, h.size, htail]
    · simp [hnew]
    · simp
    · simp
    · intro k hk
      simp only [List.mem_cons, List.not_mem_nil, or_false, not_or] at hk
      simp [hk]
    · exact fun a ha => .inl (by simpa using ha)
    · simp
    · simp
  · have hlt : sz < cs.length := by
      have hsize := h.size
      omega
    obtain ⟨as, b, bs, rfl, rfl⟩ := exists_split hlt
    have has : as ≠ [] := List.ne_nil_of_length_pos hsz
    -- The new list starts where the old one does.
    obtain ⟨m₁, hm₁⟩ : ∃ m₁, m₁ = m.newList.2.setList m.nextList fun x =>
      { x with head := (m.lists l).head } := ⟨_, rfl⟩
    have hold : m₁.lists l = m.lists l := by simp [hm₁, hnew]
    have hchain₁ : Seg m₁ l (as ++ b :: bs) 0 := by
      have hchain := h.chain
      unfold Seg at hchain ⊢
      rw [hold, hm₁]
      exact hchain
    have hloop : m₁.chopLoop as.length (.head l) (m.lists l).head =
        some (linkAfter l as, as.getLastD (m.lists l).head) :=
      chopLoop_eq (show Seg m₁ l ([] ++ as ++ b :: bs) 0 from hchain₁) hzero (m.lists l).head
    obtain ⟨as₀, t, rfl⟩ := as.eq_nil_or_concat'.resolve_left has
    obtain ⟨c, hfirst, rfl, hsecond⟩ := Chain.append_iff.mp hchain₁
    have ht : t ∉ as₀ ∧ t ∉ c :: bs := by
      have hsplit := List.nodup_append.mp (List.nodup_append.mp h.nodup).1
      exact ⟨fun hin => (List.nodup_append.mp hsplit.1).2.2 t hin t (by simp) rfl,
        fun hin => hsplit.2.2 t (by simp) t hin rfl⟩
    have hread : (m₁.items t).next = c := (Chain.concat_iff.mp hfirst).2
    rw [if_neg hge, ← hm₁, hloop, List.take_left, List.drop_left, linkAfter_concat]
    simp only [Option.bind_eq_bind, Option.bind_some, ListMem.write, ListMem.read]
    refine ⟨_, rfl, ?_⟩
    rw [← and_assoc]
    have hnew₁ : m₁.lists m.nextList =
        { iterIdx := -1, iter := .head m.nextList, head := (m.lists l).head } := by
      simp [hm₁]
    have hitems₁ : m₁.items = m.items := by
      rw [hm₁]
      rfl
    have hfst : (m₁.lists l).head = (m.lists l).head := by rw [hold]
    refine ⟨h.chopped has ?_ ?_ ?_ ?_ ?_ ?_ ?_, ?_, ?_, ?_, ?_, ?_⟩
    · unfold Seg
      simp only [setItem_lists, setList_self, setItem_next, setList_next, setList_of_ne hnew.symm,
        hnew₁]
      rw [← hfst]
      exact Chain.update_concat hfirst ht.1
    · unfold Seg
      simp only [setItem_lists, setList_self, setItem_next, setList_next, setList_of_ne hnew,
        setList_items, hread]
      have hchain₂ : Chain m₁.next c (c :: bs) 0 := ⟨rfl, hsecond⟩
      exact hchain₂.update_of_notMem ht.2
    · intro a ha
      have hat : a ≠ t := fun heq => ha (by simp [heq])
      rw [setItem_of_ne hat]
      simp [hitems₁]
    · have hcell : (m₁.items t).data = m₁.data t := rfl
      simp [setItem_data, hcell]
      simp [hm₁]
    · simp [hnew.symm, hnew₁]
    · have hsize := h.size
      simp [hnew, hold, hsize]
    · simp [hm₁]
    · intro a _ ha
      have hat : a ≠ t := fun heq => ha (by simp [heq])
      rw [setItem_of_ne hat]
      simp [hitems₁]
    · intro k hk
      simp only [List.mem_cons, List.not_mem_nil, or_false, not_or] at hk
      simp [hk, hm₁]
    · exact fun a ha => .inl (by simpa using ha)
    · simp [hm₁]
    · simp [hm₁]

end Slist

end Recognizer
