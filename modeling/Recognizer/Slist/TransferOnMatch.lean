import Recognizer.Slist.Transfer

/-!
# `list_transfer_on_match`

The loop moves the elements the comparison selects, one at a time. The elements that
stay keep their order, and so do those that go.
-/

namespace Recognizer

namespace Slist

open ListMem

section Sequences

variable {α : Type*}

/-- What the comparison gives for the elements it selects, from call number `n` on. -/
def matched (compare : Nat → Nat → Nat) : Nat → List Nat → List Nat
  | _, [] => []
  | n, x :: xs =>
    if compare n x ≠ 0 then compare n x :: matched compare (n + 1) xs
    else matched compare (n + 1) xs

/-- The elements the comparison does not select. -/
def kept (compare : Nat → α → Nat) : Nat → List α → List α
  | _, [] => []
  | n, x :: xs =>
    if compare n x ≠ 0 then kept compare (n + 1) xs else x :: kept compare (n + 1) xs

/-- The elements of a list whose selected elements go to its own end, where the loop
meets them again. -/
def requeued (compare : Nat → Nat → Nat) : Nat → Nat → List Nat → List Nat → Option (List Nat)
  | 0, _, _, _ => none
  | _ + 1, _, done, [] => some done
  | fuel + 1, n, done, x :: xs =>
    if compare n x ≠ 0 then requeued compare fuel (n + 1) done (xs ++ [compare n x])
    else requeued compare fuel (n + 1) (done ++ [x]) xs

theorem kept_map {β : Type*} (compare : Nat → β → Nat) (f : α → β) (n : Nat) (xs : List α) :
    kept compare n (xs.map f) = (kept (fun n a => compare n (f a)) n xs).map f := by
  induction xs generalizing n with
  | nil => rfl
  | cons x xs ih =>
    simp only [List.map_cons, kept, ih]
    split
    · rfl
    · rfl

theorem kept_congr {compare compare' : Nat → α → Nat} {xs : List α}
    (h : ∀ n, ∀ x ∈ xs, compare n x = compare' n x) (n : Nat) :
    kept compare n xs = kept compare' n xs := by
  induction xs generalizing n with
  | nil => rfl
  | cons x xs ih =>
    have hrest := ih (fun n y hy => h n y (List.mem_cons_of_mem x hy)) (n + 1)
    simp only [kept, h n x List.mem_cons_self, hrest]

/-- The last element stays the last one if it stays. -/
theorem kept_getLast (compare : Nat → α → Nat) (n : Nat) (xs : List α)
    (h : ∀ x ∈ xs.getLast?, compare (n + (xs.length - 1)) x = 0) :
    (kept compare n xs).getLast? = xs.getLast? := by
  induction xs generalizing n with
  | nil => rfl
  | cons x xs ih =>
    rcases xs.eq_nil_or_concat' with rfl | ⟨ys, y, rfl⟩
    · have hx : compare n x = 0 := h x rfl
      simp [kept, hx]
    · have hlast : (x :: (ys ++ [y])).getLast? = (ys ++ [y]).getLast? := by
        rw [← List.cons_append, List.getLast?_concat, List.getLast?_concat]
      have hrest := ih (n + 1) (fun z hz => by
        have := h z (by rwa [hlast])
        simpa [Nat.add_assoc, Nat.add_comm 1] using this)
      have hne : kept compare (n + 1) (ys ++ [y]) ≠ [] := by
        intro hnil
        rw [hnil, List.getLast?_concat] at hrest
        exact absurd hrest (by simp)
      rw [hlast, ← hrest, kept]
      split
      · rfl
      · exact List.getLast?_append_of_ne_nil [x] hne

end Sequences

variable {m m' mf : ListMem} {l dst src : Nat} {cs ds ps pd xs xd ks rs : List Nat}

/-- The end of `list_transfer_on_match` writes to a list of at most one item only. -/
theorem transferEnd_items (hiter : (m.lists l).iter = .head l) :
    (m.transferEnd l).items = m.items := by
  unfold ListMem.transferEnd
  split
  · simp [hiter, ListMem.write]
  · split
    · simp [hiter, ListMem.write]
    · rfl

theorem transferEnd_lists (hiter : (m.lists l).iter = .head l) {k : Nat} (hk : k ≠ l) :
    (m.transferEnd l).lists k = m.lists k := by
  unfold ListMem.transferEnd
  split
  · simp [hk, hiter, ListMem.write]
  · split
    · simp [hk, hiter, ListMem.write]
    · rfl

theorem transferEnd_nextItem : (m.transferEnd l).nextItem = m.nextItem := by
  unfold ListMem.transferEnd
  split
  · simp
  · split <;> simp

theorem transferEnd_nextList : (m.transferEnd l).nextList = m.nextList := by
  unfold ListMem.transferEnd
  split
  · simp
  · split <;> simp

/-- The members of a list that the end of `list_transfer_on_match` may set. -/
theorem Held.transferEnd_self (h : Held m l cs ps) (hsize : (m.lists l).size = cs.length)
    (htail : 2 ≤ cs.length → ∀ a ∈ cs.getLast?, (m.lists l).tail = a) :
    ∃ i, (m.transferEnd l).lists l =
      { m.lists l with iterIdx := i, tail := cs.getLastD 0 } := by
  have hhead : (m.lists l).head = cs.headD 0 := Chain.start_eq h.chain
  unfold ListMem.transferEnd
  rcases cs with _ | ⟨a, _ | ⟨b, bs⟩⟩
  · have hzero : (m.lists l).size = 0 := hsize
    have hnil : (m.lists l).head = 0 := hhead
    rw [if_pos hzero]
    refine ⟨-1, ?_⟩
    simp [h.iter, ListMem.write, hnil]
  · have hone : (m.lists l).size = 1 := hsize
    have hfst : (m.lists l).head = a := hhead
    rw [if_neg (by omega), if_pos hone]
    refine ⟨0, ?_⟩
    simp [h.iter, ListMem.write, hfst]
  · simp only [List.length_cons] at hsize
    rw [if_neg (by omega), if_neg (by omega)]
    refine ⟨(m.lists l).iterIdx, ?_⟩
    obtain ⟨c, hc⟩ : ∃ c, (a :: b :: bs).getLast? = some c := ⟨_, List.getLast?_eq_some_getLast (by simp)⟩
    have hlast := htail (by simp) c hc
    rw [List.getLastD_eq_getLast?, hc, ← hlast]
    rfl

/-- The end of `list_transfer_on_match` sets the tail of a list with one element. -/
theorem Held.transferEnd (h : Held m l cs ps) (hsize : (m.lists l).size = cs.length)
    (htail : 2 ≤ cs.length → ∀ a ∈ cs.getLast?, (m.lists l).tail = a) :
    Holds (m.transferEnd l) l cs ps (cs.map m.data) ∧
      Touches m (m.transferEnd l) [l] (cs ++ ps) (cs ++ ps) := by
  obtain ⟨i, hself⟩ := h.transferEnd_self hsize htail
  have hitems := transferEnd_items h.iter
  refine ⟨⟨?_, ?_, ?_, ?_, ?_⟩, ?_, ?_, ?_, ?_, ?_⟩
  · refine h.congr ?_ ?_ ?_ ?_ (fun a _ => by rw [hitems]) transferEnd_nextItem.ge
    · rw [hself]
    · rw [hself]
    · rw [hself]
    · rw [hself]
      exact h.iter
  · refine List.map_congr_left fun a _ => ?_
    simp only [ListMem.data, hitems]
  · rw [hself]
    exact hsize
  · intro a ha
    have hlast : cs.getLast? = some a := ha
    rw [hself, List.getLastD_eq_getLast?, hlast]
    rfl
  · rintro rfl
    rw [hself]
    exact .inl rfl
  · exact fun a _ _ => by rw [hitems]
  · exact fun k hk => transferEnd_lists h.iter (by simpa using hk)
  · exact fun a ha => .inl ha
  · exact transferEnd_nextItem.ge
  · exact transferEnd_nextList

/-- An item that leaves a chain without going to the pool. -/
theorem Held.discard {a : Nat} (h : Held m l (ks ++ a :: rs) ps) :
    Held ((m.write (m.next a) (linkAfter l ks)).setList l fun x => { x with size := x.size - 1 })
      l (ks ++ rs) ps := by
  refine h.unlink.congr ?_ ?_ ?_ ?_ ?_ ?_
  · simp
  · simp
  · simp
  · simp [h.iter]
  · exact fun _ _ => rfl
  · simp

/-- What an item that leaves a chain changes. -/
theorem touches_discard {a : Nat} :
    Touches m ((m.write (m.next a) (linkAfter l ks)).setList l fun x =>
      { x with size := x.size - 1 }) [l] (ks ++ a :: rs ++ ps) (ks ++ rs ++ ps) where
  items c _ hc := by
    rw [setList_items]
    exact items_write_linkAfter fun hin => hc (by simp [hin])
  lists k hk := by
    have hkl : k ≠ l := by simpa using hk
    rw [setList_of_ne hkl, lists_write_linkAfter hkl]
  cells c hc := by
    refine .inl ?_
    simp only [List.append_assoc, List.cons_append, List.mem_append, List.mem_cons] at hc ⊢
    tauto
  nextItem := by simp
  nextList := by simp

/-- A list keeps its other elements when an item leaves that is not the last one. -/
theorem Holds.discard {a : Nat} (h : Holds m l (ks ++ a :: rs) ps xs) (hrs : rs ≠ []) :
    Holds ((m.write (m.next a) (linkAfter l ks)).setList l fun x => { x with size := x.size - 1 })
      l (ks ++ rs) ps (xs.eraseIdx ks.length) := by
  refine ⟨h.toHeld.discard, ?_, ?_, ?_, ?_⟩
  · simp only [setList_data, write_data, ← h.data]
    simp [List.eraseIdx_append_of_length_le]
  · simp only [setList_self, write_size, h.size, List.length_append, List.length_cons]
    omega
  · intro c hc
    simp only [setList_self, write_tail]
    refine h.tail c ?_
    rw [List.getLast?_append_of_ne_nil ks hrs] at hc
    rw [List.getLast?_append_of_ne_nil ks (by simp)]
    rw [← List.getLast?_append_of_ne_nil [a] hrs] at hc
    exact hc
  · intro hnil
    exact absurd (List.append_eq_nil_iff.mp hnil).2 hrs

/-- The loop of `list_transfer_on_match` within one list. -/
theorem transferLoop_self (compare : Nat → Nat → Nat) (fuel n : Nat) {done rest ys : List Nat}
    (h : Holds m l (ks ++ rs) ps (done ++ rest)) (hdone : done.length = ks.length)
    (hys : requeued compare fuel n done rest = some ys) :
    ∃ mf cs' ps', transferLoop compare l l fuel n (linkAfter l ks) m = some mf ∧
      Holds mf l cs' ps' ys ∧ Touches m mf [l] (ks ++ rs ++ ps) (cs' ++ ps') := by
  induction fuel generalizing m n ks rs ps done rest with
  | zero => simp [requeued] at hys
  | succ fuel ih =>
    obtain ⟨b, hfirst, hsecond⟩ := Chain.append_iff.mp h.chain
    have hdata : ks.map m.data ++ rs.map m.data = done ++ rest := by
      rw [← List.map_append, h.data]
    obtain ⟨hks, hrs⟩ := List.append_inj hdata (by rw [List.length_map, hdone])
    rw [transferLoop, Seg.read_linkAfter hfirst]
    cases rs with
    | nil =>
      obtain rfl : b = 0 := hsecond
      obtain rfl : rest = [] := hrs.symm
      obtain rfl : done = ys := by simpa [requeued] using hys
      refine ⟨m, ks ++ [], ps, by simp, ?_, Touches.refl m _ _⟩
      simpa using h
    | cons a rs =>
      obtain ⟨rfl, hrest⟩ := hsecond
      have hb : b ≠ 0 := (h.bound b (by simp)).1
      obtain rfl : rest = m.data b :: rs.map m.data := hrs.symm
      have hcell : (m.items b).data = m.data b := rfl
      simp only [if_neg hb, hcell]
      rw [requeued] at hys
      by_cases hmatch : compare n (m.data b) ≠ 0
      · rw [if_pos hmatch] at hys ⊢
        obtain ⟨m₁, ps₁, item, happend, h₁, ht₁⟩ := h.listAppend (compare n (m.data b))
        have h₁' : Holds m₁ l (ks ++ b :: (rs ++ [item])) ps₁
            (done ++ m.data b :: (rs.map m.data ++ [compare n (m.data b)])) := by
          simpa using h₁
        have hread : m₁.read (linkAfter l ks) = b := by
          obtain ⟨c, hfst, rfl, -⟩ := Chain.append_iff.mp h₁'.chain
          exact Seg.read_linkAfter hfst
        have h₂ := h₁'.discard (by simp)
        have ht₂ : Touches m₁ _ [l] (ks ++ b :: (rs ++ [item]) ++ ps₁)
            (ks ++ (rs ++ [item]) ++ ps₁) := touches_discard
        have hseq : (done ++ m.data b :: (rs.map m.data ++ [compare n (m.data b)])).eraseIdx
            ks.length = done ++ (rs.map m.data ++ [compare n (m.data b)]) := by
          rw [← hdone]
          simp [List.eraseIdx_append_of_length_le]
        rw [hseq] at h₂
        obtain ⟨mf, cs', ps', hloop, hf, ht⟩ := ih (n + 1) h₂ hdone hys
        refine ⟨mf, cs', ps', ?_, hf, ?_⟩
        · simp only [happend, Option.bind_eq_bind, Option.bind_some, hread]
          exact hloop
        · have ht₁' : Touches m m₁ [l] (ks ++ b :: rs ++ ps) (ks ++ b :: (rs ++ [item]) ++ ps₁) := by
            simpa using ht₁
          exact (ht₁'.trans ht₂).trans ht
      · rw [if_neg hmatch] at hys ⊢
        have hstep : Holds m l ((ks ++ [b]) ++ rs) ps ((done ++ [m.data b]) ++ rs.map m.data) := by
          simpa using h
        obtain ⟨mf, cs', ps', hloop, hf, ht⟩ := ih (n + 1) hstep (by simp [hdone]) hys
        rw [linkAfter_concat] at hloop
        exact ⟨mf, cs', ps', hloop, hf, by simpa using ht⟩

/-- What the loop of `list_transfer_on_match` between two lists leaves behind: `ds'` and `rs'`
are the items the lists then have. -/
structure Moved (m mf : ListMem) (d s : Nat) (ds pd ks rs ps ds' pd' xd' rs' : List Nat) :
    Prop where
  dst : Holds mf d ds' pd' xd'
  src : Held mf s (ks ++ rs') ps
  size : (mf.lists s).size = (ks ++ rs').length
  tail : (mf.lists s).tail = (m.lists s).tail
  data : ∀ a ∈ ks ++ rs, mf.data a = m.data a
  sub : rs'.Sublist rs
  fresh : ∀ a ∈ ds' ++ pd', a ∈ ds ++ pd ∨ m.nextItem ≤ a
  items : ∀ a < m.nextItem, a ∉ ds ++ pd → a ∉ ks ++ rs → mf.items a = m.items a
  lists : ∀ k, k ≠ d → k ≠ s → mf.lists k = m.lists k
  nextItem : m.nextItem ≤ mf.nextItem
  nextList : mf.nextList = m.nextList

/-- The loop of `list_transfer_on_match` between two lists. -/
theorem transferLoop_ne (compare : Nat → Nat → Nat) (fuel n : Nat) (hne : dst ≠ src)
    (hd : Holds m dst ds pd xd) (hs : Held m src (ks ++ rs) ps)
    (hsize : (m.lists src).size = (ks ++ rs).length)
    (hdisjoint : ∀ a ∈ ds ++ pd, a ∉ ks ++ rs ++ ps) (hfuel : rs.length < fuel) :
    ∃ mf ds' pd', transferLoop compare dst src fuel n (linkAfter src ks) m = some mf ∧
      Moved m mf dst src ds pd ks rs ps ds' pd' (xd ++ matched compare n (rs.map m.data))
        (kept (fun n a => compare n (m.data a)) n rs) := by
  induction fuel generalizing m n ks rs ds pd xd with
  | zero => omega
  | succ fuel ih =>
    obtain ⟨b, hfirst, hsecond⟩ := Chain.append_iff.mp hs.chain
    rw [transferLoop, Seg.read_linkAfter hfirst]
    cases rs with
    | nil =>
      obtain rfl : b = 0 := hsecond
      refine ⟨m, ds, pd, by simp, ?_, hs, hsize, rfl, fun _ _ => rfl, List.Sublist.refl [],
        fun a ha => .inl ha, fun _ _ _ _ => rfl, fun _ _ _ => rfl, le_refl _, rfl⟩
      simpa [matched] using hd
    | cons a rs =>
      obtain ⟨rfl, hrest⟩ := hsecond
      have hb : b ≠ 0 := (hs.bound b (by simp)).1
      have hcell : (m.items b).data = m.data b := rfl
      simp only [if_neg hb, hcell, List.map_cons, matched, kept]
      by_cases hmatch : compare n (m.data b) ≠ 0
      · rw [if_pos hmatch, if_pos hmatch, if_pos hmatch]
        obtain ⟨m₁, pd₁, item, happend, h₁, ht₁⟩ := hd.listAppend (compare n (m.data b))
        have hsame : ∀ a ∈ ks ++ b :: rs ++ ps, m₁.items a = m.items a := fun a ha =>
          ht₁.items a (hs.bound a ha).2 fun hin => hdisjoint a hin ha
        have hlist : m₁.lists src = m.lists src := ht₁.lists src (by simpa using hne.symm)
        have hs₁ : Held m₁ src (ks ++ b :: rs) ps := hs.frame hlist hsame ht₁.nextItem
        have hread : m₁.read (linkAfter src ks) = b := by
          obtain ⟨c, hfst, rfl, -⟩ := Chain.append_iff.mp hs₁.chain
          exact Seg.read_linkAfter hfst
        have hnew : ∀ a ∈ ds ++ [item] ++ pd₁, a ∉ ks ++ b :: rs ++ ps := by
          intro a ha hin
          rcases ht₁.cells a ha with hold | hfresh
          · exact hdisjoint a hold hin
          · exact absurd (hs.bound a hin).2 (by omega)
        -- The item leaves the chain of `src`.
        obtain ⟨m₂, hm₂⟩ : ∃ m₂, m₂ = (m₁.write (m₁.next b) (linkAfter src ks)).setList src
          fun x => { x with size := x.size - 1 } := ⟨_, rfl⟩
        have hs₂ : Held m₂ src (ks ++ rs) ps := hm₂ ▸ hs₁.discard
        have hitems₂ : ∀ a ∉ ks, m₂.items a = m₁.items a := fun a ha => by
          rw [hm₂, setList_items, items_write_linkAfter ha]
        have hlists₂ : ∀ k ≠ src, m₂.lists k = m₁.lists k := fun k hk => by
          rw [hm₂, setList_of_ne hk, lists_write_linkAfter hk]
        have hdata₂ : m₂.data = m₁.data := by rw [hm₂, setList_data, write_data]
        have hnext₂ : m₂.nextItem = m₁.nextItem := by simp [hm₂]
        have h₂ : Holds m₂ dst (ds ++ [item]) pd₁ (xd ++ [compare n (m.data b)]) :=
          h₁.frame (hlists₂ dst hne)
            (fun a ha => hitems₂ a fun hin => hnew a ha (by simp [hin])) hnext₂.ge
        have hsize₂ : (m₂.lists src).size = (ks ++ rs).length := by
          rw [hm₂, setList_self]
          simp only [write_size, hlist, hsize, List.length_append, List.length_cons]
          omega
        have hsub : ∀ a ∈ ks ++ rs ++ ps, a ∈ ks ++ b :: rs ++ ps := by
          intro a ha
          simp only [List.append_assoc, List.cons_append, List.mem_append, List.mem_cons] at ha ⊢
          tauto
        obtain ⟨mf, ds', pd', hloop, hmoved⟩ := ih (n + 1) h₂ hs₂ hsize₂
          (fun a ha hin => hnew a ha (hsub a hin)) (by simpa using hfuel)
        have hdata : ∀ a ∈ ks ++ rs, m₂.data a = m.data a := by
          intro a ha
          have hin : a ∈ ks ++ b :: rs ++ ps := hsub a (List.mem_append_left ps ha)
          rw [hdata₂]
          simp only [ListMem.data, hsame a hin]
        have hmap : rs.map m₂.data = rs.map m.data :=
          List.map_congr_left fun a ha => hdata a (List.mem_append_right ks ha)
        have hkept : kept (fun n a => compare n (m₂.data a)) (n + 1) rs =
            kept (fun n a => compare n (m.data a)) (n + 1) rs :=
          kept_congr (fun k a ha => by rw [hdata a (List.mem_append_right ks ha)]) (n + 1)
        rw [hmap, hkept] at hmoved
        refine ⟨mf, ds', pd', ?_, ?_⟩
        · simp only [happend, Option.bind_eq_bind, Option.bind_some, hread]
          rw [← hloop, hm₂]
          rfl
        have hold : ∀ a < m.nextItem, a ∉ ds ++ pd → a ∉ ds ++ [item] ++ pd₁ := by
          intro a hlt ha hin
          rcases ht₁.cells a hin with hmem | hfresh
          · exact ha hmem
          · omega
        have hle : m.nextItem ≤ m₂.nextItem := hnext₂ ▸ ht₁.nextItem
        refine ⟨by simpa using hmoved.dst, hmoved.src, hmoved.size, ?_, ?_, hmoved.sub.cons b, ?_,
          ?_, ?_, le_trans hle hmoved.nextItem, ?_⟩
        · rw [hmoved.tail, hm₂, setList_self]
          simp only [write_tail, hlist]
        · intro a ha
          by_cases hab : a = b
          · have hmem := hs.notMem_unlink
            have hbound := hs.bound b (by simp)
            have hbks : b ∉ ks := fun hin => hmem (by simp [hin])
            subst hab
            simp only [ListMem.data]
            rw [hmoved.items a (lt_of_lt_of_le hbound.2 hle) (fun hin => hnew a hin (by simp))
              (fun hin => hmem (List.mem_append_left ps hin)), hitems₂ a hbks, hsame a (by simp)]
          · have hin : a ∈ ks ++ rs := by
              simp only [List.mem_append, List.mem_cons] at ha ⊢
              tauto
            rw [hmoved.data a hin, hdata a hin]
        · intro a ha
          rcases hmoved.fresh a ha with hin | hfresh
          · exact ht₁.cells a hin
          · exact .inr (le_trans hle hfresh)
        · intro a hlt ha hin
          have hks : a ∉ ks := fun hmem => hin (by simp [hmem])
          have hrs : a ∉ ks ++ rs := fun hmem => hin (by
            simp only [List.mem_append, List.mem_cons] at hmem ⊢
            tauto)
          rw [hmoved.items a (lt_of_lt_of_le hlt hle) (hold a hlt ha) hrs, hitems₂ a hks,
            ht₁.items a hlt ha]
        · intro k hkd hks
          rw [hmoved.lists k hkd hks, hlists₂ k hks, ht₁.lists k (by simpa using hkd)]
        · rw [hmoved.nextList, hm₂]
          simp only [setList_nextList, write_nextList]
          exact ht₁.nextList
      · rw [if_neg hmatch, if_neg hmatch, if_neg hmatch]
        have hs' : Held m src ((ks ++ [b]) ++ rs) ps := by simpa using hs
        have hdisjoint' : ∀ a ∈ ds ++ pd, a ∉ (ks ++ [b]) ++ rs ++ ps := by simpa using hdisjoint
        obtain ⟨mf, ds', pd', hloop, hmoved⟩ := ih (n + 1) hd hs' (by simpa using hsize) hdisjoint'
          (by simpa using hfuel)
        rw [linkAfter_concat] at hloop
        refine ⟨mf, ds', pd', hloop, ?_⟩
        exact {
          dst := hmoved.dst
          src := by simpa using hmoved.src
          size := by simpa using hmoved.size
          tail := hmoved.tail
          data := by simpa using hmoved.data
          sub := hmoved.sub.cons_cons b
          fresh := hmoved.fresh
          items := by simpa using hmoved.items
          lists := hmoved.lists
          nextItem := hmoved.nextItem
          nextList := hmoved.nextList }

/-- `list_transfer_on_match` within one list, when its loop ends. -/
theorem Holds.listTransferOnMatch_self (h : Holds m l cs ps xs) (compare : Nat → Nat → Nat)
    {fuel : Nat} {ys : List Nat} (hys : requeued compare fuel 0 [] xs = some ys) :
    ∃ mf cs' ps', m.listTransferOnMatch fuel compare l l = some mf ∧ Holds mf l cs' ps' ys ∧
      Touches m mf [l] (cs ++ ps) (cs' ++ ps') := by
  have hall : Holds m l ([] ++ cs) ps ([] ++ xs) := h
  obtain ⟨m₁, cs₁, ps₁, hloop, h₁, ht₁⟩ := transferLoop_self compare fuel 0 hall rfl hys
  have hend := h₁.toHeld.transferEnd h₁.size fun _ => h₁.tail
  rw [h₁.data] at hend
  refine ⟨m₁.transferEnd l, cs₁, ps₁, ?_, hend.1, ht₁.trans hend.2⟩
  rw [ListMem.listTransferOnMatch]
  rw [linkAfter_nil] at hloop
  rw [hloop, Option.map_some]

/-- `list_transfer_on_match` between two lists, unless the last element of the source goes
while two or more stay. -/
theorem Holds.listTransferOnMatch (hd : Holds m dst ds pd xd) (hs : Holds m src cs ps xs)
    (compare : Nat → Nat → Nat) (hne : dst ≠ src) (hdisjoint : ∀ a ∈ ds ++ pd, a ∉ cs ++ ps)
    {fuel : Nat} (hfuel : xs.length < fuel)
    (hlast : 2 ≤ (kept compare 0 xs).length → ∀ x ∈ xs.getLast?, compare (xs.length - 1) x = 0) :
    ∃ mf ds' pd' cs', m.listTransferOnMatch fuel compare dst src = some mf ∧
      Holds mf dst ds' pd' (xd ++ matched compare 0 xs) ∧
      Holds mf src cs' ps (kept compare 0 xs) ∧
      (∀ a ∈ ds' ++ pd', a ∉ cs' ++ ps) ∧
      Touches m mf [dst, src] (ds ++ pd ++ (cs ++ ps)) (ds' ++ pd' ++ (cs' ++ ps)) := by
  have hall : Held m src ([] ++ cs) ps := hs.toHeld
  obtain ⟨m₁, ds', pd', hloop, hmoved⟩ := transferLoop_ne compare fuel 0 hne hd hall hs.size
    hdisjoint (by rwa [← hs.length_eq])
  rw [hs.data] at hmoved
  have hkept : kept compare 0 xs =
      (kept (fun n a => compare n (m.data a)) 0 cs).map m.data := by
    rw [← hs.data, kept_map]
  have hsrc : Held m₁ src (kept (fun n a => compare n (m.data a)) 0 cs) ps := hmoved.src
  obtain ⟨hend, ht⟩ := hsrc.transferEnd hmoved.size (by
    intro hlen a ha
    rw [hmoved.tail]
    refine hs.tail a ?_
    rw [← kept_getLast (fun n a => compare n (m.data a)) 0 cs]
    · exact ha
    · intro c hc
      rw [hkept, List.length_map] at hlast
      have hx := hlast hlen (m.data c) (by
        have hlastc : cs.getLast? = some c := hc
        rw [← hs.data, List.getLast?_map, hlastc]
        rfl)
      rwa [hs.length_eq, ← Nat.zero_add (cs.length - 1)] at hx)
  have hsub : ∀ a ∈ kept (fun n a => compare n (m.data a)) 0 cs ++ ps, a ∈ cs ++ ps := by
    intro a ha
    rcases List.mem_append.mp ha with hin | hin
    · exact List.mem_append_left ps (hmoved.sub.subset hin)
    · exact List.mem_append_right cs hin
  have hmap : (kept (fun n a => compare n (m.data a)) 0 cs).map m₁.data = kept compare 0 xs := by
    rw [hkept]
    exact List.map_congr_left fun a ha => hmoved.data a (hmoved.sub.subset ha)
  rw [hmap] at hend
  have hitems := transferEnd_items hsrc.iter
  refine ⟨m₁.transferEnd src, ds', pd', _, ?_, ?_, hend, ?_, ?_, ?_, ?_, ?_, ?_⟩
  · rw [linkAfter_nil] at hloop
    rw [ListMem.listTransferOnMatch, hloop, Option.map_some]
  · exact hmoved.dst.frame (transferEnd_lists hsrc.iter hne) (fun a _ => by rw [hitems])
      transferEnd_nextItem.ge
  · intro a ha hin
    rcases hmoved.fresh a ha with hold | hfresh
    · exact hdisjoint a hold (hsub a hin)
    · exact absurd (hs.bound a (hsub a hin)).2 (by omega)
  · intro a hlt ha
    simp only [List.mem_append, not_or] at ha
    rw [hitems]
    exact hmoved.items a hlt (by simp [ha]) (by simp [ha])
  · intro k hk
    simp only [List.mem_cons, List.not_mem_nil, or_false, not_or] at hk
    rw [transferEnd_lists hsrc.iter hk.2, hmoved.lists k hk.1 hk.2]
  · intro a ha
    rcases List.mem_append.mp ha with hin | hin
    · rcases hmoved.fresh a hin with hold | hfresh
      · exact .inl (List.mem_append_left _ hold)
      · exact .inr hfresh
    · exact .inl (List.mem_append_right _ (hsub a hin))
  · exact le_trans hmoved.nextItem transferEnd_nextItem.ge
  · exact transferEnd_nextList.trans hmoved.nextList

end Slist

end Recognizer
