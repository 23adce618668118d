import Recognizer.Slist.TransferOnMatch

/-!
# The list module refines sequences

A run of the module keeps one sequence for every list. The tail of a list is lost by
two operations: removing the last of three or more elements, and moving the last
element of a list away while two or more others stay.
-/

namespace Recognizer

namespace Slist

/-- The calls of the module. -/
inductive Op where
  | newList
  | push (l d : Nat)
  | append (l d : Nat)
  | insertAt (l d : Nat) (idx : Int)
  | shift (l : Nat)
  | removeAt (l : Nat) (idx : Int)
  | chop (l sz : Nat)
  | transfer (dst src : Nat)
  | transferOnMatch (fuel : Nat) (compare : Nat → Nat → Nat) (dst src : Nat)
  | clear (l : Nat)

/-- The lists a call is given. -/
def Op.lists : Op → List Nat
  | .newList => []
  | .push l _ => [l]
  | .append l _ => [l]
  | .insertAt l _ _ => [l]
  | .shift l => [l]
  | .removeAt l _ => [l]
  | .chop l _ => [l]
  | .transfer dst src => [dst, src]
  | .transferOnMatch _ _ dst src => [dst, src]
  | .clear l => [l]

/-- A call. -/
def ListMem.step (m : ListMem) : Op → Option ListMem
  | .newList => some m.newList.2
  | .push l d => some (m.listPush l d)
  | .append l d => m.listAppend l d
  | .insertAt l d idx => some (m.listInsertAt l d idx).2
  | .shift l => some (m.listShift l).2
  | .removeAt l idx => (m.listRemoveAt l idx).map Prod.snd
  | .chop l sz => (m.listChop l sz).map Prod.snd
  | .transfer dst src => m.listTransfer dst src
  | .transferOnMatch fuel compare dst src => m.listTransferOnMatch fuel compare dst src
  | .clear l => m.listClear l

/-- A sequence of calls. -/
def ListMem.run (m : ListMem) : List Op → Option ListMem
  | [] => some m
  | op :: ops => (m.step op).bind fun m => m.run ops

/-- Sequences, one for every list. -/
structure Seqs where
  seqs : Nat → List Nat := fun _ => []
  next : Nat := 1

namespace Seqs

variable (s : Seqs)

/-- The sequence of one list is another one. -/
def set (l : Nat) (xs : List Nat) : Seqs := { s with seqs := Function.update s.seqs l xs }

/-- What the operations do to sequences. -/
def step : Op → Seqs
  | .newList => { s.set s.next [] with next := s.next + 1 }
  | .push l d => s.set l (d :: s.seqs l)
  | .append l d => s.set l (s.seqs l ++ [d])
  | .insertAt l d idx =>
    if 0 ≤ idx then s.set l ((s.seqs l).take idx.toNat ++ d :: (s.seqs l).drop idx.toNat) else s
  | .shift l => s.set l (s.seqs l).tail
  | .removeAt l idx => if 0 ≤ idx then s.set l ((s.seqs l).eraseIdx idx.toNat) else s
  | .chop l sz =>
    if s.seqs l = [] ∨ sz = 0 then s
    else { (s.set s.next ((s.seqs l).take sz)).set l ((s.seqs l).drop sz) with
      next := s.next + 1 }
  | .transfer dst src => (s.set dst (s.seqs dst ++ s.seqs src)).set src []
  | .transferOnMatch fuel compare dst src =>
    if dst = src then s.set src ((requeued compare fuel 0 [] (s.seqs src)).getD [])
    else (s.set dst (s.seqs dst ++ matched compare 0 (s.seqs src))).set src
      (kept compare 0 (s.seqs src))
  | .clear l => s.set l []

/-- A sequence of calls. -/
def run (s : Seqs) : List Op → Seqs
  | [] => s
  | op :: ops => run (s.step op) ops

/-- The loop of `list_transfer_on_match` ends within its budget. -/
def Ends : Op → Prop
  | .transferOnMatch fuel compare dst src =>
    if dst = src then requeued compare fuel 0 [] (s.seqs src) ≠ none
    else (s.seqs src).length < fuel
  | _ => True

/-- Every call is given lists that were made before, and ends. -/
def Valid (s : Seqs) : List Op → Prop
  | [] => True
  | op :: ops => (∀ l ∈ op.lists, 0 < l ∧ l < s.next) ∧ s.Ends op ∧ Valid (s.step op) ops

/-- A call that does not lose the tail of a list. -/
def KeepsTail : Op → Prop
  | .removeAt l idx => idx + 1 = (s.seqs l).length → idx < 2
  | .transferOnMatch _ compare dst src =>
    dst ≠ src → 2 ≤ (kept compare 0 (s.seqs src)).length →
      ∀ x ∈ (s.seqs src).getLast?, compare ((s.seqs src).length - 1) x = 0
  | _ => True

/-- No call loses the tail of a list. -/
def KeepTails (s : Seqs) : List Op → Prop
  | [] => True
  | op :: ops => s.KeepsTail op ∧ KeepTails (s.step op) ops

instance decidableEnds : (op : Op) → Decidable (s.Ends op)
  | .transferOnMatch fuel compare dst src =>
    inferInstanceAs (Decidable (if dst = src then requeued compare fuel 0 [] (s.seqs src) ≠ none
      else (s.seqs src).length < fuel))
  | .newList | .push _ _ | .append _ _ | .insertAt _ _ _ | .shift _ | .removeAt _ _
  | .chop _ _ | .transfer _ _ | .clear _ => .isTrue trivial

instance decidableValid (s : Seqs) : (ops : List Op) → Decidable (s.Valid ops)
  | [] => .isTrue trivial
  | op :: ops =>
    have := decidableValid (s.step op) ops
    inferInstanceAs (Decidable ((∀ l ∈ op.lists, 0 < l ∧ l < s.next) ∧ s.Ends op ∧
      (s.step op).Valid ops))

instance decidableKeepsTail : (op : Op) → Decidable (s.KeepsTail op)
  | .removeAt l idx => inferInstanceAs (Decidable (idx + 1 = (s.seqs l).length → idx < 2))
  | .transferOnMatch _ compare dst src =>
    inferInstanceAs (Decidable (dst ≠ src → 2 ≤ (kept compare 0 (s.seqs src)).length →
      ∀ x ∈ (s.seqs src).getLast?, compare ((s.seqs src).length - 1) x = 0))
  | .newList | .push _ _ | .append _ _ | .insertAt _ _ _ | .shift _ | .chop _ _
  | .transfer _ _ | .clear _ => .isTrue trivial

instance decidableKeepTails (s : Seqs) : (ops : List Op) → Decidable (s.KeepTails ops)
  | [] => .isTrue trivial
  | op :: ops =>
    have := decidableKeepTails (s.step op) ops
    inferInstanceAs (Decidable (s.KeepsTail op ∧ (s.step op).KeepTails ops))

end Seqs

/-- What a list shows of the sequence it stands for. -/
structure Shows (m : ListMem) (l : Nat) (xs : List Nat) : Prop where
  chain : ∃ items, Chain m.next (m.lists l).head items 0 ∧ 0 ∉ items ∧
    items.map m.data = xs ∧ (m.lists l).size = items.length ∧
    ∀ a ∈ items.getLast?, m.next a = 0 ∧ (m.lists l).tail = a
  getAt (idx : Int) : m.listGetAt l idx = some (if 0 ≤ idx then xs.getD idx.toNat 0 else 0)
  getHead : m.listGetHead l = xs.headD 0
  getTail : m.listGetTail l = xs.getLastD 0

/-- A list that stands for a sequence shows it. -/
theorem Holds.shows {m : ListMem} {l : Nat} {cs ps xs : List Nat} (h : Holds m l cs ps xs) :
    Shows m l xs where
  chain := by
    refine ⟨cs, h.chain, fun hmem => (h.bound 0 (by simp [hmem])).1 rfl, h.data, h.size, ?_⟩
    intro a ha
    refine ⟨?_, h.tail a ha⟩
    obtain ⟨bs, rfl⟩ := List.getLast?_eq_some_iff.mp ha
    exact (Chain.concat_iff.mp h.chain).2
  getAt := h.listGetAt
  getHead := h.listGetHead
  getTail := h.listGetTail

/-- Every list stands for its sequence, and no two lists share an item. -/
structure Refines (m : ListMem) (s : Seqs) (chain pool : Nat → List Nat) : Prop where
  holds : ∀ l, 0 < l → l < m.nextList → Holds m l (chain l) (pool l) (s.seqs l)
  disjoint : ∀ k l, 0 < k → k < m.nextList → 0 < l → l < m.nextList → k ≠ l →
    ∀ a ∈ chain k ++ pool k, a ∉ chain l ++ pool l
  next : m.nextList = s.next
  posList : 0 < m.nextList
  posItem : 0 < m.nextItem

section Touch

variable {m mf : ListMem} {s s' : Seqs} {chain pool chain' pool' : Nat → List Nat}

/-- An operation on some lists leaves the other ones alone. -/
theorem Refines.touch (h : Refines m s chain pool) (ls : List Nat)
    (hls : ∀ l ∈ ls, 0 < l ∧ l < m.nextList)
    (hholds : ∀ l ∈ ls, Holds mf l (chain' l) (pool' l) (s'.seqs l))
    (hother : ∀ k ∉ ls, chain' k = chain k ∧ pool' k = pool k ∧ s'.seqs k = s.seqs k)
    (hdisjoint : ∀ k ∈ ls, ∀ l ∈ ls, k ≠ l → ∀ a ∈ chain' k ++ pool' k, a ∉ chain' l ++ pool' l)
    (ht : Touches m mf ls (ls.flatMap fun l => chain l ++ pool l)
      (ls.flatMap fun l => chain' l ++ pool' l)) (hnext : s'.next = s.next) :
    Refines mf s' chain' pool' := by
  have hbound : ∀ l, 0 < l → l < m.nextList → ∀ a ∈ chain l ++ pool l, a < m.nextItem :=
    fun l hpos hlt a ha => ((h.holds l hpos hlt).bound a ha).2
  have hkeep : ∀ l ∉ ls, 0 < l → l < m.nextList → ∀ a ∈ chain l ++ pool l,
      a ∉ ls.flatMap fun l => chain l ++ pool l := by
    intro l hl hpos hlt a ha hin
    obtain ⟨k, hk, hak⟩ := List.mem_flatMap.mp hin
    exact h.disjoint k l (hls k hk).1 (hls k hk).2 hpos hlt (fun heq => hl (heq ▸ hk)) a hak ha
  have hcross : ∀ k ∈ ls, ∀ l ∉ ls, 0 < l → l < m.nextList →
      ∀ a ∈ chain' k ++ pool' k, a ∉ chain l ++ pool l := by
    intro k hk l hl hpos hlt a ha hin
    rcases ht.cells a (List.mem_flatMap.mpr ⟨k, hk, ha⟩) with hold | hfresh
    · exact hkeep l hl hpos hlt a hin hold
    · exact absurd (hbound l hpos hlt a hin) (by omega)
  have hcells : ∀ k ∉ ls, chain' k ++ pool' k = chain k ++ pool k := fun k hk => by
    rw [(hother k hk).1, (hother k hk).2.1]
  refine ⟨?_, ?_, ?_, ?_, lt_of_lt_of_le h.posItem ht.nextItem⟩
  · intro l hpos hlt
    by_cases hl : l ∈ ls
    · exact hholds l hl
    · have hlt' : l < m.nextList := ht.nextList ▸ hlt
      obtain ⟨hchain, hpool, hseq⟩ := hother l hl
      rw [hchain, hpool, hseq]
      exact (h.holds l hpos hlt').frame (ht.lists l hl)
        (fun a ha => ht.items a (hbound l hpos hlt' a ha) (hkeep l hl hpos hlt' a ha)) ht.nextItem
  · intro k l hkpos hklt hlpos hllt hkl a ha hin
    rw [ht.nextList] at hklt hllt
    by_cases hk : k ∈ ls
    · by_cases hl : l ∈ ls
      · exact hdisjoint k hk l hl hkl a ha hin
      · rw [hcells l hl] at hin
        exact hcross k hk l hl hlpos hllt a ha hin
    · rw [hcells k hk] at ha
      by_cases hl : l ∈ ls
      · exact hcross l hl k hk hkpos hklt a hin ha
      · rw [hcells l hl] at hin
        exact h.disjoint k l hkpos hklt hlpos hllt hkl a ha hin
  · rw [ht.nextList, h.next, hnext]
  · rw [ht.nextList]
    exact h.posList

/-- An operation on one list. -/
theorem Refines.touch_one {l : Nat} {cs ps xs : List Nat} (h : Refines m s chain pool)
    (hl : 0 < l ∧ l < m.nextList) (hholds : Holds mf l cs ps xs)
    (ht : Touches m mf [l] (chain l ++ pool l) (cs ++ ps)) :
    Refines mf (s.set l xs) (Function.update chain l cs) (Function.update pool l ps) := by
  refine h.touch [l] (by simpa using hl) ?_ ?_ ?_ (by simpa using ht) rfl
  · simpa [Seqs.set] using hholds
  · intro k hk
    have hkl : k ≠ l := by simpa using hk
    simp [Seqs.set, hkl]
  · intro k hk l' hl' hne
    exact absurd ((List.mem_singleton.mp hk).trans (List.mem_singleton.mp hl').symm) hne

/-- An operation on two lists. -/
theorem Refines.touch_two {d e : Nat} {ds pd xd cs ps xs : List Nat} (h : Refines m s chain pool)
    (hd : 0 < d ∧ d < m.nextList) (he : 0 < e ∧ e < m.nextList) (hne : d ≠ e)
    (hdst : Holds mf d ds pd xd) (hsrc : Holds mf e cs ps xs)
    (hdisjoint : ∀ a ∈ ds ++ pd, a ∉ cs ++ ps)
    (ht : Touches m mf [d, e] (chain d ++ pool d ++ (chain e ++ pool e))
      (ds ++ pd ++ (cs ++ ps))) :
    Refines mf ((s.set d xd).set e xs) (Function.update (Function.update chain d ds) e cs)
      (Function.update (Function.update pool d pd) e ps) := by
  refine h.touch [d, e] ?_ ?_ ?_ ?_ ?_ rfl
  · simpa using ⟨hd, he⟩
  · simpa [Seqs.set, hne] using ⟨hdst, hsrc⟩
  · intro k hk
    simp only [List.mem_cons, List.not_mem_nil, or_false, not_or] at hk
    simp [Seqs.set, hk]
  · intro k hk l hl hkl
    have hcases : (k = d ∧ l = e) ∨ (k = e ∧ l = d) := by
      simp only [List.mem_cons, List.not_mem_nil, or_false] at hk hl
      rcases hk with rfl | rfl <;> rcases hl with rfl | rfl
      · exact absurd rfl hkl
      · exact .inl ⟨rfl, rfl⟩
      · exact .inr ⟨rfl, rfl⟩
      · exact absurd rfl hkl
    rcases hcases with ⟨rfl, rfl⟩ | ⟨rfl, rfl⟩
    · simpa [hne] using hdisjoint
    · have hdisjoint' : ∀ a ∈ cs ++ ps, a ∉ ds ++ pd := fun a ha hin => hdisjoint a hin ha
      simpa [hne.symm, hne] using hdisjoint'
  · simpa [hne] using ht

/-- A new list has no items. -/
theorem Refines.newList (h : Refines m s chain pool) :
    Refines m.newList.2 { s.set s.next [] with next := s.next + 1 }
      (Function.update chain m.nextList []) (Function.update pool m.nextList []) := by
  have hold : ∀ l, 0 < l → l < m.nextList + 1 → l ≠ m.nextList → l < m.nextList := by omega
  have hnew : Holds m.newList.2 m.nextList [] [] [] := by
    refine ⟨⟨?_, ?_, ?_, ?_, ?_, ?_, ?_⟩, ?_, ?_, ?_, ?_⟩
    · simp [Seg]
    · simp
    · simp
    · simp
    · simp
    · simp
    · exact h.posItem
    · rfl
    · simp
    · simp
    · simp
  refine ⟨?_, ?_, ?_, ?_, h.posItem⟩
  · intro l hpos hlt
    by_cases hl : l = m.nextList
    · subst hl
      simpa [Seqs.set, h.next] using hnew
    · have hl' : l ≠ s.next := by rwa [← h.next]
      have hframe : Holds m.newList.2 l (chain l) (pool l) (s.seqs l) :=
        (h.holds l hpos (hold l hpos hlt hl)).frame (ListMem.newList_of_ne hl) (fun a _ => rfl) (le_refl _)
      simpa [Seqs.set, hl, hl'] using hframe
  · intro k l hkpos hklt hlpos hllt hkl
    by_cases hk : k = m.nextList
    · simp [hk]
    · by_cases hl : l = m.nextList
      · simp [hl]
      · simpa [hk, hl] using h.disjoint k l hkpos (hold k hkpos hklt hk) hlpos
          (hold l hlpos hllt hl) hkl
  · simp [h.next]
  · exact Nat.succ_pos _

end Touch

section Step

variable {m : ListMem} {s : Seqs} {chain pool : Nat → List Nat}

/-- Writing the sequence a list has changes nothing. -/
theorem Seqs.set_self (l : Nat) : s.set l (s.seqs l) = s := by
  simp [Seqs.set]

/-- What a call does in the memory it does to the sequences. -/
theorem Refines.step (h : Refines m s chain pool) {op : Op}
    (hlists : ∀ l ∈ op.lists, 0 < l ∧ l < s.next) (hends : s.Ends op) (hkeeps : s.KeepsTail op) :
    ∃ mf chain' pool', m.step op = some mf ∧ Refines mf (s.step op) chain' pool' := by
  rw [← h.next] at hlists
  have hone : ∀ l ∈ op.lists, Holds m l (chain l) (pool l) (s.seqs l) := fun l hl =>
    h.holds l (hlists l hl).1 (hlists l hl).2
  cases op with
  | newList => exact ⟨_, _, _, rfl, h.newList⟩
  | push l d =>
    have hl : l ∈ (Op.push l d).lists := List.mem_singleton_self l
    obtain ⟨cs, ps, hf, ht⟩ := (hone l hl).listPush d
    exact ⟨_, _, _, rfl, h.touch_one (hlists l hl) hf ht⟩
  | append l d =>
    have hl : l ∈ (Op.append l d).lists := List.mem_singleton_self l
    obtain ⟨mf, ps, item, heq, hf, ht⟩ := (hone l hl).listAppend d
    exact ⟨_, _, _, heq, h.touch_one (hlists l hl) hf ht⟩
  | insertAt l d idx =>
    have hl : l ∈ (Op.insertAt l d idx).lists := List.mem_singleton_self l
    by_cases hidx : 0 ≤ idx
    · obtain ⟨cs, ps, hf, ht⟩ := (hone l hl).listInsertAt d hidx
      simp only [Seqs.step, if_pos hidx]
      exact ⟨_, _, _, rfl, h.touch_one (hlists l hl) hf ht⟩
    · simp only [Seqs.step, if_neg hidx]
      refine ⟨m, chain, pool, ?_, h⟩
      rw [ListMem.step, ListMem.listInsertAt, if_pos (not_le.mp hidx)]
  | shift l =>
    have hl : l ∈ (Op.shift l).lists := List.mem_singleton_self l
    obtain ⟨-, cs, ps, hf, ht⟩ := (hone l hl).listShift
    exact ⟨_, _, _, rfl, h.touch_one (hlists l hl) hf ht⟩
  | removeAt l idx =>
    have hl : l ∈ (Op.removeAt l idx).lists := List.mem_singleton_self l
    by_cases hout : idx < 0 ∨ ((s.seqs l).length : Int) ≤ idx
    · have hsame : s.step (.removeAt l idx) = s := by
        rw [Seqs.step]
        split
        · rw [List.eraseIdx_of_length_le (by omega), Seqs.set_self]
        · rfl
      rw [hsame]
      refine ⟨m, chain, pool, ?_, h⟩
      rw [ListMem.step, (hone l hl).listRemoveAt_out hout, Option.map_some]
    · obtain ⟨n, rfl⟩ : ∃ n : Nat, idx = n := ⟨idx.toNat, by omega⟩
      have hkeeps' : (n : Int) + 1 = (s.seqs l).length → (n : Int) < 2 := hkeeps
      have hlt : n < (s.seqs l).length := by omega
      obtain ⟨mf, cs, ps, heq, hf, ht⟩ := (hone l hl).listRemoveAt hlt (by omega)
      simp only [Seqs.step, if_pos (Int.natCast_nonneg n), Int.toNat_natCast]
      refine ⟨mf, _, _, ?_, h.touch_one (hlists l hl) hf ht⟩
      rw [ListMem.step, heq, Option.map_some]
  | chop l sz =>
    have hl : l ∈ (Op.chop l sz).lists := List.mem_singleton_self l
    by_cases hnone : s.seqs l = [] ∨ sz = 0
    · simp only [Seqs.step, if_pos hnone]
      refine ⟨m, chain, pool, ?_, h⟩
      rw [ListMem.step, (hone l hl).listChop_none hnone, Option.map_some]
    · obtain ⟨hxs, hsz⟩ := not_or.mp hnone
      have hnew : l ≠ m.nextList := (hlists l hl).2.ne
      obtain ⟨mf, heq, hfirst, hrest, ht⟩ :=
        (hone l hl).listChop hxs (Nat.pos_of_ne_zero hsz) hnew
      have hpos : 0 < m.nextList ∧ m.nextList < m.newList.2.nextList := ⟨h.posList, by simp⟩
      have hold : 0 < l ∧ l < m.newList.2.nextList :=
        ⟨(hlists l hl).1, lt_of_lt_of_le (hlists l hl).2 (by simp)⟩
      have hdisjoint : ∀ a ∈ (chain l).take sz ++ [], a ∉ (chain l).drop sz ++ pool l := by
        have hnodup := (hone l hl).nodup
        rw [← List.take_append_drop sz (chain l), List.append_assoc] at hnodup
        intro a ha hin
        rw [List.append_nil] at ha
        exact (List.nodup_append.mp hnodup).2.2 a ha a hin rfl
      have htwo := h.newList.touch_two hpos hold hnew.symm hfirst hrest hdisjoint
        (by simpa [hnew] using ht)
      have hseqs : (({ s.set s.next [] with next := s.next + 1 } : Seqs).set m.nextList
          ((s.seqs l).take sz)).set l ((s.seqs l).drop sz) = s.step (.chop l sz) := by
        simp [Seqs.step, Seqs.set, hnone, h.next]
      rw [hseqs] at htwo
      refine ⟨mf, _, _, ?_, htwo⟩
      rw [ListMem.step, heq, Option.map_some]
  | transfer dst src =>
    have hd : dst ∈ (Op.transfer dst src).lists := by simp [Op.lists]
    have hs : src ∈ (Op.transfer dst src).lists := by simp [Op.lists]
    by_cases hne : dst = src
    · subst hne
      obtain ⟨mf, heq, hf, ht⟩ := (hone dst hd).listTransfer_self
      have hseqs : s.step (.transfer dst dst) = s.set dst [] := by
        simp [Seqs.step, Seqs.set]
      rw [hseqs]
      exact ⟨mf, _, _, heq, h.touch_one (hlists dst hd) hf ht⟩
    · have hold := h.disjoint dst src (hlists dst hd).1 (hlists dst hd).2 (hlists src hs).1
        (hlists src hs).2 hne
      obtain ⟨mf, heq, hdst, hsrc, ht⟩ := (hone dst hd).listTransfer (hone src hs) hne hold
      have hdisjoint : ∀ a ∈ chain dst ++ chain src ++ pool dst, a ∉ [] ++ pool src := by
        intro a ha hin
        rw [List.nil_append] at hin
        have hcases : a ∈ chain dst ++ pool dst ∨ a ∈ chain src := by
          simp only [List.mem_append] at ha ⊢
          tauto
        rcases hcases with hmem | hmem
        · exact hold a hmem (List.mem_append_right _ hin)
        · exact (List.nodup_append.mp (hone src hs).nodup).2.2 a hmem a hin rfl
      exact ⟨mf, _, _, heq, h.touch_two (hlists dst hd) (hlists src hs) hne hdst hsrc hdisjoint ht⟩
  | transferOnMatch fuel compare dst src =>
    have hd : dst ∈ (Op.transferOnMatch fuel compare dst src).lists := by simp [Op.lists]
    have hs : src ∈ (Op.transferOnMatch fuel compare dst src).lists := by simp [Op.lists]
    by_cases hne : dst = src
    · subst hne
      have hends' : requeued compare fuel 0 [] (s.seqs dst) ≠ none := by
        simpa [Seqs.Ends] using hends
      obtain ⟨ys, hys⟩ := Option.ne_none_iff_exists'.mp hends'
      obtain ⟨mf, cs, ps, heq, hf, ht⟩ := (hone dst hd).listTransferOnMatch_self compare hys
      simp only [Seqs.step, if_true, hys, Option.getD_some]
      exact ⟨mf, _, _, heq, h.touch_one (hlists dst hd) hf ht⟩
    · have hfuel : (s.seqs src).length < fuel := by simpa [Seqs.Ends, hne] using hends
      obtain ⟨mf, ds, pd, cs, heq, hdst, hsrc, hdisjoint, ht⟩ :=
        (hone dst hd).listTransferOnMatch (hone src hs) compare hne
          (h.disjoint dst src (hlists dst hd).1 (hlists dst hd).2 (hlists src hs).1
            (hlists src hs).2 hne) hfuel (hkeeps hne)
      simp only [Seqs.step, if_neg hne]
      exact ⟨mf, _, _, heq, h.touch_two (hlists dst hd) (hlists src hs) hne hdst hsrc hdisjoint ht⟩
  | clear l =>
    have hl : l ∈ (Op.clear l).lists := List.mem_singleton_self l
    obtain ⟨mf, cs, ps, heq, hf, ht⟩ := (hone l hl).listClear
    exact ⟨_, _, _, heq, h.touch_one (hlists l hl) hf ht⟩

/-- A run of calls. -/
theorem Refines.run (h : Refines m s chain pool) {ops : List Op} (hvalid : s.Valid ops)
    (hkeep : s.KeepTails ops) :
    ∃ mf chain' pool', m.run ops = some mf ∧ Refines mf (s.run ops) chain' pool' := by
  induction ops generalizing m s chain pool with
  | nil => exact ⟨m, chain, pool, rfl, h⟩
  | cons op ops ih =>
    obtain ⟨hlists, hends, hvalid'⟩ := hvalid
    obtain ⟨hop, hkeep'⟩ := hkeep
    obtain ⟨m₁, chain₁, pool₁, hstep, h₁⟩ := h.step hlists hends hop
    obtain ⟨mf, chain', pool', hrun, hf⟩ := ih h₁ hvalid' hkeep'
    refine ⟨mf, chain', pool', ?_, hf⟩
    rw [ListMem.run, hstep, Option.bind_some, hrun]

/-- Before the first call there is no list. -/
theorem refines_init : Refines {} {} (fun _ => []) (fun _ => []) where
  holds l hpos hlt := by
    have hlt' : l < 1 := hlt
    omega
  disjoint k l hkpos hklt := by
    have hklt' : k < 1 := hklt
    omega
  next := rfl
  posList := Nat.zero_lt_one
  posItem := Nat.zero_lt_one

end Step

/-- As long as no call loses the tail of a list, every call ends and every list shows the
sequence that the operations define. -/
theorem run_shows {ops : List Op} (hvalid : ({} : Seqs).Valid ops)
    (hkeep : ({} : Seqs).KeepTails ops) :
    ∃ m, ({} : ListMem).run ops = some m ∧ m.nextList = (({} : Seqs).run ops).next ∧
      ∀ l, 0 < l → l < m.nextList → Shows m l ((({} : Seqs).run ops).seqs l) := by
  obtain ⟨m, chain, pool, hrun, h⟩ := refines_init.run hvalid hkeep
  exact ⟨m, hrun, h.next, fun l hpos hlt => (h.holds l hpos hlt).shows⟩

/-- Two lists, one of which takes the odd elements of the other after some removals. -/
def oddOps : List Op :=
  [.newList, .newList, .append 1 3, .push 1 2, .insertAt 1 4 1, .append 1 5, .removeAt 1 1,
    .transferOnMatch 5 (fun _ x => if x % 2 = 1 then x else 0) 2 1, .shift 1, .chop 2 1,
    .transfer 2 3, .clear 2]

theorem run_shows_odd : ∃ m, ({} : ListMem).run oddOps = some m ∧
    m.nextList = (({} : Seqs).run oddOps).next ∧
      ∀ l, 0 < l → l < m.nextList → Shows m l ((({} : Seqs).run oddOps).seqs l) :=
  run_shows (by decide) (by decide)

/-- Removing the last of three elements leaves the tail at the first one. -/
theorem run_loses_tail : ¬ ∀ ops : List Op, ({} : Seqs).Valid ops →
    ∃ m, ({} : ListMem).run ops = some m ∧
      ∀ l, 0 < l → l < m.nextList → Shows m l ((({} : Seqs).run ops).seqs l) := by
  intro h
  obtain ⟨m, hrun, hshows⟩ :=
    h [.newList, .append 1 10, .append 1 20, .append 1 30, .removeAt 1 2] (by decide)
  have htail : (({} : ListMem).run
      [.newList, .append 1 10, .append 1 20, .append 1 30, .removeAt 1 2]).map
        (fun m => (m.nextList, m.listGetTail 1)) = some (2, 10) := by decide
  rw [hrun] at htail
  obtain ⟨hnext, hget⟩ : m.nextList = 2 ∧ m.listGetTail 1 = 10 := by simpa using htail
  have hshow := (hshows 1 (by decide) (by omega)).getTail
  rw [hget] at hshow
  exact absurd hshow (by decide)

end Slist

end Recognizer
