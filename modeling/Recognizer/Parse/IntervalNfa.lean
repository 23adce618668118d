import Recognizer.Parse.Constructors

/-!
# `new_interval_nfa` keeps the ownership of nodes

The operand's accepting node leads to the interval, whose loop may start at the
operand or, when the operand consists of `EPSILON` nodes, at the interval itself.
-/

namespace Recognizer

variable {c c' : NFACtrl} {live : Finset Addr} {rest l : List Addr} {frag : Addr → Addr}

/-- An operand between a new start node and an interval in front of a new
accepting node is an automaton. -/
theorem Owned.interval {target t s i x : Addr} (ho : Owned c (target :: rest) live frag)
    (hnew : NewPair c' (insert i live) t s) (hi : i ∉ live)
    (hsame : ∀ y, y ≠ t → y ≠ s → y ≠ i → y ≠ target → c'.heap y = c.heap y)
    (ht : c'.heap t = { (c.heap t).renewed .accepting with parent := s })
    (hstart : ∀ b ∈ (c'.heap s).targets, b = t ∨ b = (c.heap target).parent)
    (hpass : Passes (c'.heap s))
    (htarget : (c'.heap target).type = .epsilon ∧ (c'.heap target).out2 = i)
    (hint : (c'.heap i).type = .interval ∧ (c'.heap i).out1 = x ∧ (c'.heap i).out2 = t)
    (hx : x = i ∨ x ∈ live ∧ frag x = target) (hseq : c'.nextSeqId = c.nextSeqId)
    (hmark : ∀ y, y = s ∨ y = i ∨ y = target →
      (c'.heap y).visitedFlag = (c.heap y).visitedFlag ∧
        (c'.heap y).doneFlag = (c.heap y).doneFlag ∧ (c'.heap y).reachable = (c.heap y).reachable) :
    ∃ live' frag', Owned c' (t :: rest) live' frag' := by
  have htlive : t ∉ live := fun h => hnew.root (Finset.mem_insert_of_mem h)
  have hslive : s ∉ live := fun h => hnew.start (Finset.mem_insert_of_mem h)
  have hit : i ≠ t := fun h => hnew.root (by simp [h])
  have his : i ≠ s := fun h => hnew.start (by simp [h])
  have hti : target ≠ i := fun h => hi (h ▸ (ho.shape.root target (by simp)).1)
  obtain ⟨hbl, hbf, -⟩ := ho.shape.start target (by simp)
  have hnone : (c'.heap t).targets = [] := by simp [NFA.targets, ht, NFA.renewed]
  have hitargets : (c'.heap i).targets = [x, t] := by simp [NFA.targets, hint]
  have htargets : (c'.heap target).targets = [i] := by simp [NFA.targets, htarget]
  refine ho.join [target] {t, s, i} ∅ (s := s) (t := t)
    (List.Perm.refl _) (by simp [htlive, hslive, hi]) (by simp) (by simp) hnew.ne (by simp) ?_
    (by simp [ht, NFA.renewed]) (by simp [ht]) ?_ ?_ ?_ ?_ ?_ ?_ ?_
  · intro y hy hyu _
    exact hsame y (fun h => htlive (h ▸ hy)) (fun h => hslive (h ▸ hy)) (fun h => hi (h ▸ hy))
      (by simpa using hyu)
  · intro a ha b hb
    have hown : b = t ∨ b = i ∨ b ∈ live ∧ frag b = target := by
      simp only [Finset.mem_insert, Finset.mem_singleton, List.mem_singleton] at ha
      rcases ha with (rfl | rfl | rfl) | rfl
      · simp [hnone] at hb
      · rcases hstart b hb with rfl | rfl
        · exact Or.inl rfl
        · exact Or.inr (Or.inr ⟨hbl, hbf⟩)
      · rw [hitargets, List.mem_pair] at hb
        rcases hb with rfl | rfl
        · exact Or.inr hx
        · exact Or.inl rfl
      · rw [htargets, List.mem_singleton] at hb
        exact Or.inr (Or.inl hb)
    rcases hown with rfl | rfl | ⟨hl, hf⟩
    · exact ⟨hnew.ne.symm, Or.inl (by simp)⟩
    · exact ⟨his, Or.inl (by simp)⟩
    · exact ⟨fun h => hslive (h ▸ hl), Or.inr ⟨hl, by simp [hf], by simp⟩⟩
  · intro a ha has
    simp only [Finset.mem_insert, Finset.mem_singleton] at ha
    rcases ha with rfl | rfl | rfl
    · simp [NFA.forward, ht, NFA.renewed]
    · exact absurd rfl has
    · simp [NFA.forward, hint]
  · intro a ha b hb
    rw [List.mem_singleton] at ha
    subst ha
    have := (c'.heap a).forward_subset hb
    rw [htargets, List.mem_singleton] at this
    simp [this]
  · refine hnew.alloc.mono fun y hy => ?_
    simp only [Finset.mem_union, Finset.mem_insert, Finset.mem_singleton, Finset.mem_sdiff] at hy ⊢
    grind
  · have hcounted : ({t, s, i} : Finset Addr).filter (fun a => Counted (c'.heap a)) = ∅ := by
      refine Finset.filter_eq_empty_iff.mpr fun y hy hcounted => ?_
      simp only [Finset.mem_insert, Finset.mem_singleton] at hy
      rcases hy with rfl | rfl | rfl
      · exact hcounted.1.2 (by simp [ht, NFA.renewed])
      · exact hcounted.1.1 hpass
      · exact hcounted.2.1 hint.1
    simp [hcounted, hseq]
  · intro a ha hcounted
    rw [List.mem_singleton] at ha
    exact hcounted.1.1 (Or.inl (ha ▸ htarget.1))
  · refine ho.blank.of_forall fun a => ⟨a, ?_⟩
    by_cases hat : a = t
    · subst hat
      simp [ht, NFA.renewed]
    by_cases hm : a = s ∨ a = i ∨ a = target
    · exact hmark a hm
    · simp only [not_or] at hm
      simp [hsame a hat hm.1 hm.2.1 hm.2.2]

/-- The new nodes of `new_interval_nfa` around the operand `target`; `x` is the head of the
loop. -/
structure Intervalled (c c' : NFACtrl) (live : Finset Addr) (frag : Addr → Addr)
    (target t s i x : Addr) (min max : Int) : Prop where
  pair : NewPair c' (insert i live) t s
  fresh : i ∉ live
  same : ∀ y, y ≠ t → y ≠ s → y ≠ i → y ≠ target → c'.heap y = c.heap y
  root : c'.heap t = { (c.heap t).renewed .accepting with parent := s }
  optional : min = 0 → (c'.heap s).type = .split ∧ (c'.heap s).out1 = (c.heap target).parent ∧
    (c'.heap s).out2 = t
  required : min ≠ 0 → (c'.heap s).type = .epsilon ∧ (c'.heap s).out2 = (c.heap target).parent
  operand : (c'.heap target).type = .epsilon ∧ (c'.heap target).out2 = i
  interval : (c'.heap i).type = .interval ∧ (c'.heap i).out1 = x ∧ (c'.heap i).out2 = t
  bounds : (c'.heap i).minRep = (if min = 0 then 1 else min) ∧ (c'.heap i).maxRep = max
  head : x = i ∨ x ∈ live ∧ frag x = target
  seq : c'.nextSeqId = c.nextSeqId
  marks : ∀ y, y = s ∨ y = i ∨ y = target →
    (c'.heap y).visitedFlag = (c.heap y).visitedFlag ∧
      (c'.heap y).doneFlag = (c.heap y).doneFlag ∧ (c'.heap y).reachable = (c.heap y).reachable

/-- `new_interval_nfa`. -/
theorem Owned.newIntervalNfa {target : Addr} (ho : Owned c (target :: rest) live frag)
    (min max : Int) : ∃ t s i x c', c.newIntervalNfa target min max = (t, x, i, c') ∧
      Intervalled c c' live frag target t s i x min max := by
  obtain ⟨s, t, c₁, c₂, hrun₁, hrun₂, hs, ht, hne, hsz, htz, ok₂, hheaps, hheapt, hsame, hseq⟩ :=
    ho.alloc.newNfa_newNfa .epsilon .accepting
  obtain ⟨i, c₃, hrun₃, hi, ok₃, hheap₃, hseq₃⟩ := ok₂.newNfa .interval
  obtain ⟨his, hit, hi⟩ : i ≠ s ∧ i ≠ t ∧ i ∉ live := by simpa using hi
  have htl := (ho.shape.root target (by simp)).1
  obtain ⟨hbl, hbf, -⟩ := ho.shape.start target (by simp)
  have hout : ∀ x ∈ live, x ≠ s ∧ x ≠ t ∧ x ≠ i := fun x hx =>
    ⟨fun h => hs (h ▸ hx), fun h => ht (h ▸ hx), fun h => hi (h ▸ hx)⟩
  have hold : ∀ x ∈ live, c₃.heap x = c.heap x := fun x hx => by
    rw [hheap₃, Heap.modify_of_ne _ (hout x hx).2.2, hsame x (hout x hx).1 (hout x hx).2.1]
  obtain ⟨hts, htt, hti⟩ := hout target htl
  have htarget := hold target htl
  have hid : (c₃.heap i).id = 0 := by simp [hheap₃]
  -- the loop is tightened after the operand's accepting node has become an `EPSILON` node
  have htighten : ∀ c₅ : NFACtrl, (∀ x ∈ live, x ≠ target → c₅.heap x = c.heap x) →
      (c₅.heap target).out2 = i → (c₅.heap i).type = .interval →
      c₅.tighten (c.heap target).parent = i ∨
        c₅.tighten (c.heap target).parent ∈ live ∧
          frag (c₅.tighten (c.heap target).parent) = target := by
    intro c₅ hsame₅ hout₅ hi₅
    refine skipEpsilon_mem (S := fun a => a = i ∨ a ∈ live ∧ frag a = target) ?_ _
      (Or.inr ⟨hbl, hbf⟩)
    rintro a (rfl | ⟨hal, haf⟩) htype
    · simp [hi₅] at htype
    · by_cases hat : a = target
      · subst hat
        rw [hout₅]
        exact ⟨fun h => ok₃.zero_notMem (by simp [← h]), Or.inl rfl⟩
      · rw [hsame₅ a hal hat] at htype ⊢
        obtain ⟨hl, hf, -⟩ := ho.shape.target a hal (c.heap a).out2 (by simp [NFA.targets, htype])
        exact ⟨fun h => ho.alloc.zero_notMem (h ▸ hl), Or.inr ⟨hl, hf.trans haf⟩⟩
  -- the new start node, as a `'?'` split or as an `EPSILON` node
  obtain ⟨c₄, hc₄, halloc₄, hseq₄, hsame₄, hzero₄, hpos₄, hmark₄⟩ : ∃ c₄,
      (if min = 0 then c₃.modify s fun x => { x with
          type := .split, literal := 63, out1 := (c₃.heap target).parent, out2 := t }
        else c₃.modify s fun x => { x with
          out1 := (c₃.heap target).parent, out2 := (c₃.heap target).parent }) = c₄ ∧
      c₄.alloc = c₃.alloc ∧ c₄.nextSeqId = c₃.nextSeqId ∧
      (∀ x, x ≠ s → c₄.heap x = c₃.heap x) ∧
      (min = 0 → (c₄.heap s).type = .split ∧ (c₄.heap s).out1 = (c.heap target).parent ∧
        (c₄.heap s).out2 = t) ∧
      (min ≠ 0 → (c₄.heap s).type = .epsilon ∧ (c₄.heap s).out2 = (c.heap target).parent) ∧
      (c₄.heap s).visitedFlag = (c.heap s).visitedFlag ∧
      (c₄.heap s).doneFlag = (c.heap s).doneFlag ∧
      (c₄.heap s).reachable = (c.heap s).reachable := by
    have hs₃ : c₃.heap s = (c.heap s).renewed .epsilon := by
      rw [hheap₃, Heap.modify_of_ne _ his.symm, hheaps]
    refine ⟨_, rfl, ?_⟩
    split
    · rename_i hmin
      refine ⟨rfl, rfl, fun x hx => by simp [Heap.modify_of_ne, hx], ?_, ?_, ?_⟩
      · simp [htarget]
      · exact fun hne => absurd hmin hne
      · simp [hs₃, NFA.renewed]
    · rename_i hmin
      refine ⟨rfl, rfl, fun x hx => by simp [Heap.modify_of_ne, hx], ?_, ?_, ?_⟩
      · exact fun heq => absurd heq hmin
      · simp [hs₃, NFA.renewed, htarget]
      · simp [hs₃, NFA.renewed]
  have hid₄ : (c₄.heap i).id = 0 := by rw [hsame₄ i his, hid]
  refine ⟨t, s, i, _, _, by simp only [NFACtrl.newIntervalNfa, hrun₁, hrun₂, hrun₃, hc₄]; rfl, ?_⟩
  rw [htarget]
  rw [NFACtrl.markIntervalNfa_of_zero]
  · generalize hx : NFACtrl.tighten _ _ = x
    have hxm : x = i ∨ x ∈ live ∧ frag x = target := by
      rw [← hx]
      refine htighten _ (fun y hy hyt => ?_) ?_ ?_
      · obtain ⟨hys, -, hyi⟩ := hout y hy
        simp [Heap.modify_of_ne, hyi, hyt, hys, hsame₄, hold y hy]
      · simp [Heap.modify_of_ne, hti]
      · simp [Heap.modify_of_ne, hti.symm, his, hsame₄, hheap₃]
    clear hx
    refine ⟨⟨?_, ?_, hne, htz, ?_⟩, hi, ?_, ?_, ?_, ?_, ?_, ?_, ?_, hxm, ?_, ?_⟩
    · simp [ht, hit.symm]
    · simp [hs, his.symm]
    · refine (ok₃.mono fun y hy => ?_).congr (by simp [halloc₄])
      simp only [Finset.mem_union, Finset.mem_insert, Finset.mem_singleton] at hy ⊢
      grind
    · intro y hyt hys hyi hyu
      simp [Heap.modify_of_ne, hyi, hyt, hyu, hys, hsame₄, hheap₃, hsame]
    · simp [Heap.modify_of_ne, hit.symm, htt.symm, hne.symm, hsame₄, hheap₃, hheapt]
    · simpa [Heap.modify_of_ne, hne, his.symm, hts.symm] using hzero₄
    · simpa [Heap.modify_of_ne, hne, his.symm, hts.symm] using hpos₄
    · simp [Heap.modify_of_ne, hti, htt]
    · simp [Heap.modify_of_ne, hit, hti.symm, his, hsame₄, hheap₃]
    · by_cases hmin : min = 0
      · simp [Heap.modify_of_ne, hit, hmin]
      · simp [Heap.modify_of_ne, hit, hmin]
    · simp [hseq₄, hseq₃, hseq]
    · rintro y (rfl | rfl | rfl)
      · simpa [Heap.modify_of_ne, hne, his.symm, hts.symm] using hmark₄
      · simp [Heap.modify_of_ne, hit, hti.symm, his, hsame₄, hheap₃, hsame]
      · simp [Heap.modify_of_ne, hti, htt, hts, hsame₄, htarget]
  · simp [Heap.modify_of_ne, hti.symm, his, hid₄]

/-- `new_interval_nfa` turns its operand into one automaton. -/
theorem Owns.newIntervalNfa {target : Addr} (ho : Owns c (target :: l)) (hzero : target ≠ 0)
    (min max : Int) : ∃ t x i c', c.newIntervalNfa target min max = (t, x, i, c') ∧ t ≠ 0 ∧
      Owns c' (t :: l) := by
  obtain ⟨live, frag, ho⟩ := ho.cons hzero
  obtain ⟨t, s, i, x, c', hrun, hnodes⟩ := ho.newIntervalNfa min max
  refine ⟨t, x, i, c', hrun, hnodes.pair.nonzero, .of_cons hnodes.pair.nonzero ?_⟩
  have hstart : (∀ b ∈ (c'.heap s).targets, b = t ∨ b = (c.heap target).parent) ∧
      Passes (c'.heap s) := by
    by_cases hmin : min = 0
    · obtain ⟨htype, hout1, hout2⟩ := hnodes.optional hmin
      simp [NFA.targets, Passes, htype, hout1, hout2]
    · obtain ⟨htype, hout2⟩ := hnodes.required hmin
      simp [NFA.targets, Passes, htype, hout2]
  exact ho.interval hnodes.pair hnodes.fresh hnodes.same hnodes.root hstart.1 hstart.2
    hnodes.operand hnodes.interval hnodes.head hnodes.seq hnodes.marks

end Recognizer
