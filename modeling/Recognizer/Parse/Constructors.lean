import Recognizer.Parse.Owns

/-!
# Constructors keep the ownership of nodes

For each constructor of `nfa.c`, the nodes it writes, and that the automata on
the stacks with the one it returns still own their nodes.
-/

namespace Recognizer

variable {c c' : NFACtrl} {live : Finset Addr} {roots rest l l' : List Addr} {frag : Addr → Addr}

namespace NFACtrl

@[simp] theorem heap_modify (c : NFACtrl) (a : Addr) (f : NFA → NFA) :
    (c.modify a f).heap = c.heap.modify a f := rfl

@[simp] theorem alloc_modify (c : NFACtrl) (a : Addr) (f : NFA → NFA) :
    (c.modify a f).alloc = c.alloc := rfl

@[simp] theorem nextSeqId_modify (c : NFACtrl) (a : Addr) (f : NFA → NFA) :
    (c.modify a f).nextSeqId = c.nextSeqId := rfl

@[simp] theorem heap_nfaDealloc (c : NFACtrl) (a : Addr) : (c.nfaDealloc a).heap = c.heap := by
  unfold nfaDealloc
  repeat' split <;> try rfl

@[simp] theorem nextSeqId_nfaDealloc (c : NFACtrl) (a : Addr) :
    (c.nfaDealloc a).nextSeqId = c.nextSeqId := by
  unfold nfaDealloc
  repeat' split <;> try rfl

theorem markNfa_of_zero {c : NFACtrl} {n : Addr} (hid : (c.heap n).id = 0) :
    c.markNfa n =
      { c.modify n fun x => { x with id := c.nextSeqId } with nextSeqId := c.nextSeqId + 1 } :=
  if_pos hid

theorem markIntervalNfa_of_zero {c : NFACtrl} {n : Addr} (hid : (c.heap n).id = 0) :
    c.markIntervalNfa n =
      { c.modify n fun x => { x with id := c.nextIntervalSeqId } with
        nextIntervalSeqId := c.nextIntervalSeqId + 1 } :=
  if_pos hid

end NFACtrl

/-- What `new_nfa` makes of the memory of a node. -/
def NFA.renewed (n : NFA) (type : NfaType) : NFA :=
  { n with id := 0, type := type, parent := 0, out1 := 0, out2 := 0 }

/-- Two calls of `new_nfa` hand out two nodes that were not in use. -/
theorem AllocOk.newNfa_newNfa (ok : AllocOk c live) (type type' : NfaType) :
    ∃ a b c₁ c', c.newNfa type = (a, c₁) ∧ c₁.newNfa type' = (b, c') ∧ a ∉ live ∧ b ∉ live ∧
      a ≠ b ∧ a ≠ 0 ∧ b ≠ 0 ∧ AllocOk c' (live ∪ {a, b}) ∧
      c'.heap a = (c.heap a).renewed type ∧ c'.heap b = (c.heap b).renewed type' ∧
      (∀ x, x ≠ a → x ≠ b → c'.heap x = c.heap x) ∧ c'.nextSeqId = c.nextSeqId := by
  obtain ⟨a, c₁, hrun₁, ha, ok₁, hheap₁, hseq₁⟩ := ok.newNfa type
  obtain ⟨b, c₂, hrun₂, hb, ok₂, hheap₂, hseq₂⟩ := ok₁.newNfa type'
  obtain ⟨hne, hb⟩ : b ≠ a ∧ b ∉ live := by simpa using hb
  refine ⟨a, b, c₁, c₂, hrun₁, hrun₂, ha, hb, hne.symm, fun heq => ok₂.zero_notMem (by simp [heq]),
    fun heq => ok₂.zero_notMem (by simp [heq]), ok₂.mono ?_, ?_, ?_, fun x hxa hxb => ?_,
    hseq₂.trans hseq₁⟩
  · intro x
    simp only [Finset.mem_union, Finset.mem_insert, Finset.mem_singleton]
    tauto
  · rw [hheap₂, Heap.modify_of_ne _ hne.symm, hheap₁, Heap.modify_self]
    rfl
  · rw [hheap₂, Heap.modify_self, hheap₁, Heap.modify_of_ne _ hne]
    rfl
  · rw [hheap₂, Heap.modify_of_ne _ hxb, hheap₁, Heap.modify_of_ne _ hxa]

/-- Two nodes that were not in use: the accepting node of an automaton and its start. -/
structure NewPair (c' : NFACtrl) (live : Finset Addr) (t s : Addr) : Prop where
  root : t ∉ live
  start : s ∉ live
  ne : s ≠ t
  nonzero : t ≠ 0
  alloc : AllocOk c' (live ∪ {t, s})

/-- Marks survive when each node keeps its own or takes another's. -/
theorem Blank.of_forall {h h' : Heap} (hb : Blank h)
    (hsame : ∀ a, ∃ b, (h' a).visitedFlag = (h b).visitedFlag ∧ (h' a).doneFlag = (h b).doneFlag ∧
      (h' a).reachable = (h b).reachable) : Blank h' := by
  intro a
  obtain ⟨b, hv, hd, hr⟩ := hsame a
  unfold NFA.Blank
  rw [hv, hd, hr]
  exact hb b

section Atoms

/-- `new_literal_nfa`: a numbered start node in front of the accepting node. -/
theorem AllocOk.newLiteralNfa (ok : AllocOk c live) (literal : Int) (type : NfaType) :
    ∃ t s c', c.newLiteralNfa literal type = (t, c') ∧ NewPair c' live t s ∧
      c'.heap t = { (c.heap t).renewed .accepting with parent := s } ∧
      c'.heap s = { (c.heap s).renewed type with
        id := c.nextSeqId, literal := literal, out1 := t, out2 := t } ∧
      (∀ x, x ≠ t → x ≠ s → c'.heap x = c.heap x) ∧ c'.nextSeqId = c.nextSeqId + 1 := by
  obtain ⟨t, s, c₁, c₂, hrun₁, hrun₂, ht, hs, hne, hzero, -, ok₂, hheapt, hheaps, hsame, hseq⟩ :=
    ok.newNfa_newNfa .accepting type
  have hid : (c₂.heap s).id = 0 := by simp [hheaps, NFA.renewed]
  refine ⟨t, s, _, by simp only [NFACtrl.newLiteralNfa, hrun₁, hrun₂]; rfl,
    ⟨ht, hs, hne.symm, hzero, ok₂.congr ?_⟩, ?_, ?_, fun x hxt hxs => ?_, ?_⟩
  · simp [NFACtrl.markNfa_of_zero hid]
  · simp [NFACtrl.markNfa_of_zero hid, Heap.modify_of_ne, hne, hheapt]
  · simp [NFACtrl.markNfa_of_zero hid, Heap.modify_of_ne, hne.symm, hheaps, hseq]
  · simp [NFACtrl.markNfa_of_zero hid, Heap.modify_of_ne, hxt, hxs, hsame]
  · simp [NFACtrl.markNfa_of_zero hid, hseq]

/-- `new_range_nfa`: a numbered start node with all or none of the bits set. -/
theorem AllocOk.newRangeNfa (ok : AllocOk c live) (negate : Bool) :
    ∃ t s c', c.newRangeNfa negate = (t, c') ∧ NewPair c' live t s ∧
      c'.heap t = { (c.heap t).renewed .accepting with parent := s } ∧
      c'.heap s = { (c.heap s).renewed .range with
        id := c.nextSeqId, range := if negate then BitVec.allOnes 128 else 0,
        out1 := t, out2 := t } ∧
      (∀ x, x ≠ t → x ≠ s → c'.heap x = c.heap x) ∧ c'.nextSeqId = c.nextSeqId + 1 := by
  obtain ⟨s, t, c₁, c₂, hrun₁, hrun₂, hs, ht, hne, -, hzero, ok₂, hheaps, hheapt, hsame, hseq⟩ :=
    ok.newNfa_newNfa .range .accepting
  have hid : (c₂.heap s).id = 0 := by simp [hheaps, NFA.renewed]
  rw [Finset.pair_comm] at ok₂
  refine ⟨t, s, _, by simp only [NFACtrl.newRangeNfa, hrun₁, hrun₂]; rfl,
    ⟨ht, hs, hne, hzero, ok₂.congr ?_⟩, ?_, ?_, fun x hxt hxs => ?_, ?_⟩
  · simp [NFACtrl.markNfa_of_zero hid]
  · simp [NFACtrl.markNfa_of_zero hid, Heap.modify_of_ne, hne.symm, hheapt]
  · simp [NFACtrl.markNfa_of_zero hid, Heap.modify_of_ne, hne, hheaps, hseq]
  · simp [NFACtrl.markNfa_of_zero hid, Heap.modify_of_ne, hxt, hxs, hsame]
  · simp [NFACtrl.markNfa_of_zero hid, hseq]

/-- `new_backreference_nfa`: a start node with the number of its group. -/
theorem AllocOk.newBackreferenceNfa (ok : AllocOk c live) (group : Nat) :
    ∃ t s c', c.newBackreferenceNfa group = (t, c') ∧ NewPair c' live t s ∧
      c'.heap t = { (c.heap t).renewed .accepting with parent := s } ∧
      c'.heap s = { (c.heap s).renewed .backreference with id := group, out1 := t, out2 := t } ∧
      (∀ x, x ≠ t → x ≠ s → c'.heap x = c.heap x) ∧ c'.nextSeqId = c.nextSeqId := by
  obtain ⟨s, t, c₁, c₂, hrun₁, hrun₂, hs, ht, hne, -, hzero, ok₂, hheaps, hheapt, hsame, hseq⟩ :=
    ok.newNfa_newNfa .backreference .accepting
  rw [Finset.pair_comm] at ok₂
  refine ⟨t, s, _, by simp only [NFACtrl.newBackreferenceNfa, hrun₁, hrun₂]; rfl,
    ⟨ht, hs, hne, hzero, ok₂.congr (by simp)⟩, ?_, ?_, fun x hxt hxs => ?_, by simp [hseq]⟩
  · simp [Heap.modify_of_ne, hne.symm, hheapt]
  · simp [Heap.modify_of_ne, hne, hheaps]
  · simp [Heap.modify_of_ne, hxt, hxs, hsame]

/-- A new pair of nodes of which the start points to the accepting node only. -/
theorem Owned.newPair (ho : Owned c roots live frag) {t s : Addr} {ns : NFA}
    (hnew : NewPair c' live t s)
    (ht : c'.heap t = { (c.heap t).renewed .accepting with parent := s }) (hs : c'.heap s = ns)
    (hns : ns.targets = [t]) (hmark : ns.visitedFlag = (c.heap s).visitedFlag ∧
      ns.doneFlag = (c.heap s).doneFlag ∧ ns.reachable = (c.heap s).reachable)
    (hsame : ∀ x, x ≠ t → x ≠ s → c'.heap x = c.heap x)
    (hseq : (if Counted ns then 1 else 0) + c.nextSeqId ≤ c'.nextSeqId) :
    ∃ live' frag', Owned c' (t :: roots) live' frag' := by
  subst hs
  refine ho.atom hnew.start hnew.root hnew.ne hnew.alloc hsame (by simp [ht, NFA.renewed])
    (by simp [ht]) hns hseq (ho.blank.of_forall fun a => ⟨a, ?_⟩)
  by_cases hat : a = t
  · subst hat
    simp [ht, NFA.renewed]
  by_cases has : a = s
  · exact has ▸ hmark
  · simp [hsame a hat has]

private theorem count_one (p : Prop) [Decidable p] (n : Nat) :
    (if p then 1 else 0) + n ≤ n + 1 := by
  split <;> omega

theorem Owns.of_cons {t : Addr} (hzero : t ≠ 0)
    (ho : ∃ live frag, Owned c (t :: l.filter (· ≠ 0)) live frag) : Owns c (t :: l) := by
  obtain ⟨live, frag, ho⟩ := ho
  exact ⟨live, frag, by simpa [hzero] using ho⟩

theorem Owns.newLiteralNfa (ho : Owns c l) (literal : Int) (type : NfaType)
    (htype : type ≠ .accepting ∧ type ≠ .split ∧ type ≠ .tree ∧ type ≠ .interval) :
    ∃ t c', c.newLiteralNfa literal type = (t, c') ∧ t ≠ 0 ∧ Owns c' (t :: l) := by
  obtain ⟨live, frag, ho⟩ := ho
  obtain ⟨t, s, c', hrun, hnew, ht, hs, hsame, hseq⟩ := ho.alloc.newLiteralNfa literal type
  refine ⟨t, c', hrun, hnew.nonzero, .of_cons hnew.nonzero ?_⟩
  refine ho.newPair hnew ht hs ?_ (by simp [NFA.renewed]) hsame (hseq ▸ count_one _ _)
  rw [NFA.targets_eq (by simpa [NFA.renewed] using htype)]

theorem Owns.newRangeNfa (ho : Owns c l) (negate : Bool) :
    ∃ t c', c.newRangeNfa negate = (t, c') ∧ t ≠ 0 ∧ Owns c' (t :: l) := by
  obtain ⟨live, frag, ho⟩ := ho
  obtain ⟨t, s, c', hrun, hnew, ht, hs, hsame, hseq⟩ := ho.alloc.newRangeNfa negate
  refine ⟨t, c', hrun, hnew.nonzero, .of_cons hnew.nonzero ?_⟩
  refine ho.newPair hnew ht hs ?_ (by simp [NFA.renewed]) hsame (hseq ▸ count_one _ _)
  rw [NFA.targets_eq (by simp [NFA.renewed])]

theorem Owns.newBackreferenceNfa (ho : Owns c l) (group : Nat) :
    ∃ t c', c.newBackreferenceNfa group = (t, c') ∧ t ≠ 0 ∧ Owns c' (t :: l) := by
  obtain ⟨live, frag, ho⟩ := ho
  obtain ⟨t, s, c', hrun, hnew, ht, hs, hsame, hseq⟩ := ho.alloc.newBackreferenceNfa group
  refine ⟨t, c', hrun, hnew.nonzero, .of_cons hnew.nonzero ?_⟩
  refine ho.newPair hnew ht hs ?_ (by simp [NFA.renewed]) hsame ?_
  · rw [NFA.targets_eq (by simp [NFA.renewed])]
  · simp [Counted, NFA.renewed, hseq]

end Atoms

section Operands

/-- A new pair of nodes around an operand; `ns` and `nb` are what its start and
the operand's accepting node become. -/
structure Wrapped (c c' : NFACtrl) (live : Finset Addr) (body t s : Addr) (ns nb : NFA) : Prop
    extends NewPair c' live t s where
  root_eq : c'.heap t = { (c.heap t).renewed .accepting with parent := s }
  start_eq : c'.heap s = ns
  body_eq : c'.heap body = nb
  same : ∀ x, x ≠ t → x ≠ s → x ≠ body → c'.heap x = c.heap x
  seq : c'.nextSeqId = c.nextSeqId

/-- A heap in which the loop of an operand is tightened: only the new nodes and
the operand's accepting node, which is no `EPSILON` node, have changed. -/
def Tightens (c c₃ : NFACtrl) (live : Finset Addr) (body : Addr) : Prop :=
  (∀ x ∈ live, x ≠ body → c₃.heap x = c.heap x) ∧ (c₃.heap body).type ≠ .epsilon

/-- `new_kleene_nfa`. -/
theorem AllocOk.newKleeneNfa (ok : AllocOk c live) {body : Addr} (hbl : body ∈ live)
    (hstart : (c.heap body).parent ∈ live) :
    ∃ t s c₃ c', c.newKleeneNfa body = (t, c') ∧ Tightens c c₃ live body ∧
      Wrapped c c' live body t s
        { (c.heap s).renewed .split with
          id := (c.heap (c.heap body).parent).id, literal := 63, out1 := t
          out2 := (c.heap body).parent }
        { c.heap body with
          type := .split, literal := 42, out1 := c₃.tighten (c.heap body).parent, out2 := t } := by
  obtain ⟨s, t, c₁, c₂, hrun₁, hrun₂, hs, ht, hne, -, htz, ok₂, hheaps, hheapt, hsame, hseq⟩ :=
    ok.newNfa_newNfa .split .accepting
  rw [Finset.pair_comm] at ok₂
  have hout : ∀ x ∈ live, x ≠ s ∧ x ≠ t := fun x hx => ⟨fun h => hs (h ▸ hx), fun h => ht (h ▸ hx)⟩
  have hold : ∀ x ∈ live, c₂.heap x = c.heap x := fun x hx => hsame x (hout x hx).1 (hout x hx).2
  have hbody := hold body hbl
  have hid := hold _ hstart
  obtain ⟨hbs, hbt⟩ := hout body hbl
  refine ⟨t, s, (c₂.modify s fun x => { x with
    id := (c₂.heap (c₂.heap body).parent).id, literal := 63, out1 := t,
    out2 := (c₂.heap body).parent }).modify body fun x => { x with
      type := .split, literal := 42, out2 := t }, _,
    by simp only [NFACtrl.newKleeneNfa, hrun₁, hrun₂]; rfl, ⟨fun x hx hxb => ?_, ?_⟩,
    ⟨⟨ht, hs, hne, htz, ok₂.congr (by simp)⟩, ?_, ?_, ?_, fun x hxt hxs hxb => ?_, by simp [hseq]⟩⟩
  · simp [Heap.modify_of_ne, (hout x hx).1, hxb, hold x hx]
  · simp
  · simp [Heap.modify_of_ne, hne.symm, hbt.symm, hheapt]
  · simp [Heap.modify_of_ne, hne, hbs.symm, hheaps, hbody, hid]
  · simp [Heap.modify_of_ne, hbt, hbs, hbody]
  · simp [Heap.modify_of_ne, hxt, hxs, hxb, hsame]

/-- `new_posclosure_nfa`. -/
theorem AllocOk.newPosclosureNfa (ok : AllocOk c live) {body : Addr} (hbl : body ∈ live)
    (hstart : (c.heap body).parent ∈ live) :
    ∃ t s c₃ c', c.newPosclosureNfa body = (t, c') ∧ Tightens c c₃ live body ∧
      Wrapped c c' live body t s
        { (c.heap s).renewed .epsilon with
          id := (c.heap (c.heap body).parent).id, out1 := (c.heap body).parent
          out2 := (c.heap body).parent }
        { c.heap body with
          type := .split, literal := 43, out1 := c₃.tighten (c.heap body).parent, out2 := t } := by
  obtain ⟨s, t, c₁, c₂, hrun₁, hrun₂, hs, ht, hne, -, htz, ok₂, hheaps, hheapt, hsame, hseq⟩ :=
    ok.newNfa_newNfa .epsilon .accepting
  rw [Finset.pair_comm] at ok₂
  have hout : ∀ x ∈ live, x ≠ s ∧ x ≠ t := fun x hx => ⟨fun h => hs (h ▸ hx), fun h => ht (h ▸ hx)⟩
  have hold : ∀ x ∈ live, c₂.heap x = c.heap x := fun x hx => hsame x (hout x hx).1 (hout x hx).2
  have hbody := hold body hbl
  have hid := hold _ hstart
  obtain ⟨hbs, hbt⟩ := hout body hbl
  refine ⟨t, s, (c₂.modify s fun x => { x with
    id := (c₂.heap (c₂.heap body).parent).id, out1 := (c₂.heap body).parent,
    out2 := (c₂.heap body).parent }).modify body fun x => { x with type := .split, literal := 43 },
    _, by simp only [NFACtrl.newPosclosureNfa, hrun₁, hrun₂]; rfl, ⟨fun x hx hxb => ?_, ?_⟩,
    ⟨⟨ht, hs, hne, htz, ok₂.congr (by simp)⟩, ?_, ?_, ?_, fun x hxt hxs hxb => ?_, by simp [hseq]⟩⟩
  · simp [Heap.modify_of_ne, (hout x hx).1, hxb, hold x hx]
  · simp
  · simp [Heap.modify_of_ne, hne.symm, hbt.symm, hheapt]
  · simp [Heap.modify_of_ne, hne, hbs.symm, hheaps, hbody, hid]
  · simp [Heap.modify_of_ne, hbt, hbs, hbody]
  · simp [Heap.modify_of_ne, hxt, hxs, hxb, hsame]

/-- `new_qmark_nfa`. -/
theorem AllocOk.newQmarkNfa (ok : AllocOk c live) {body : Addr} (hbl : body ∈ live)
    (hstart : (c.heap body).parent ∈ live) :
    ∃ t s c', c.newQmarkNfa body = (t, c') ∧
      Wrapped c c' live body t s
        { (c.heap s).renewed .split with
          id := (c.heap (c.heap body).parent).id, literal := 63, out1 := t
          out2 := (c.heap body).parent }
        { c.heap body with type := .epsilon, out1 := t, out2 := t } := by
  obtain ⟨s, t, c₁, c₂, hrun₁, hrun₂, hs, ht, hne, -, htz, ok₂, hheaps, hheapt, hsame, hseq⟩ :=
    ok.newNfa_newNfa .split .accepting
  rw [Finset.pair_comm] at ok₂
  have hout : ∀ x ∈ live, x ≠ s ∧ x ≠ t := fun x hx => ⟨fun h => hs (h ▸ hx), fun h => ht (h ▸ hx)⟩
  have hold : ∀ x ∈ live, c₂.heap x = c.heap x := fun x hx => hsame x (hout x hx).1 (hout x hx).2
  have hbody := hold body hbl
  have hid := hold _ hstart
  obtain ⟨hbs, hbt⟩ := hout body hbl
  refine ⟨t, s, _, by simp only [NFACtrl.newQmarkNfa, hrun₁, hrun₂]; rfl,
    ⟨⟨ht, hs, hne, htz, ok₂.congr (by simp)⟩, ?_, ?_, ?_, fun x hxt hxs hxb => ?_, by simp [hseq]⟩⟩
  · simp [Heap.modify_of_ne, hne.symm, hbt.symm, hheapt]
  · simp [Heap.modify_of_ne, hne, hbs.symm, hheaps, hbody, hid]
  · simp [Heap.modify_of_ne, hbt, hbs, hbody]
  · simp [Heap.modify_of_ne, hxt, hxs, hxb, hsame]

/-- Skipping `EPSILON` nodes stays in a set closed under their edges. -/
theorem skipEpsilon_mem {h : Heap} {S : Addr → Prop}
    (hS : ∀ a, S a → (h a).type = .epsilon → (h a).out2 ≠ 0 ∧ S (h a).out2) (n : Nat) {a : Addr}
    (ha : S a) : S (NFACtrl.skipEpsilon h n a) := by
  induction n generalizing a with
  | zero => exact ha
  | succ n ih =>
    rw [NFACtrl.skipEpsilon]
    split
    · rename_i htype
      obtain ⟨hne, hnext⟩ := hS a ha htype
      rw [if_neg hne]
      exact ih hnext
    · exact ha

/-- The head of an operand's loop belongs to the operand. -/
theorem Owned.tighten_mem {body : Addr} {c₃ : NFACtrl} (ho : Owned c (body :: rest) live frag)
    (ht : Tightens c c₃ live body) :
    c₃.tighten (c.heap body).parent ∈ live ∧ frag (c₃.tighten (c.heap body).parent) = body := by
  obtain ⟨hlive, hfrag, -⟩ := ho.shape.start body (by simp)
  refine skipEpsilon_mem (S := fun a => a ∈ live ∧ frag a = body) ?_ _ ⟨hlive, hfrag⟩
  rintro a ⟨hal, haf⟩ htype
  have hab : a ≠ body := fun h => ht.2 (h ▸ htype)
  rw [ht.1 a hal hab] at htype ⊢
  obtain ⟨hbl, hbf, -⟩ := ho.shape.target a hal (c.heap a).out2 (by simp [NFA.targets, htype])
  exact ⟨fun h => ho.alloc.zero_notMem (h ▸ hbl), hbl, hbf.trans haf⟩

/-- A wrapped operand owns its nodes. -/
theorem Owned.wrapped {body t s : Addr} {ns nb : NFA} (ho : Owned c (body :: rest) live frag)
    (hw : Wrapped c c' live body t s ns nb)
    (hstart : ∀ b ∈ ns.targets, b = t ∨ b = (c.heap body).parent)
    (hbody : ∀ b ∈ nb.targets, b = t ∨ b ∈ live ∧ frag b = body) (hforward : ∀ b ∈ nb.forward, b = t)
    (hpass : Passes ns) (hpass' : Passes nb)
    (hmark : ns.visitedFlag = (c.heap s).visitedFlag ∧ ns.doneFlag = (c.heap s).doneFlag ∧
      ns.reachable = (c.heap s).reachable)
    (hmark' : nb.visitedFlag = (c.heap body).visitedFlag ∧ nb.doneFlag = (c.heap body).doneFlag ∧
      nb.reachable = (c.heap body).reachable) :
    ∃ live' frag', Owned c' (t :: rest) live' frag' := by
  obtain ⟨hnew, ht, rfl, rfl, hsame, hseq⟩ := hw
  refine ho.wrap hnew.start hnew.root hnew.ne hnew.alloc hsame (by simp [ht, NFA.renewed])
    (by simp [ht]) hstart hbody hforward hpass hpass' hseq.ge (ho.blank.of_forall fun a => ⟨a, ?_⟩)
  by_cases hat : a = t
  · subst hat
    simp [ht, NFA.renewed]
  by_cases has : a = s
  · exact has ▸ hmark
  by_cases hab : a = body
  · exact hab ▸ hmark'
  · simp [hsame a hat has hab]

theorem Owns.cons {body : Addr} (ho : Owns c (body :: l)) (hbody : body ≠ 0) :
    ∃ live frag, Owned c (body :: l.filter (· ≠ 0)) live frag := by
  obtain ⟨live, frag, ho⟩ := ho
  exact ⟨live, frag, by simpa [hbody] using ho⟩

theorem Owns.newKleeneNfa {body : Addr} (ho : Owns c (body :: l)) (hzero : body ≠ 0) :
    ∃ t c', c.newKleeneNfa body = (t, c') ∧ t ≠ 0 ∧ Owns c' (t :: l) := by
  obtain ⟨live, frag, ho⟩ := ho.cons hzero
  obtain ⟨t, s, c₃, c', hrun, htight, hw⟩ := ho.alloc.newKleeneNfa
    (ho.shape.root body (by simp)).1 (ho.shape.start body (by simp)).1
  have hx := ho.tighten_mem htight
  refine ⟨t, c', hrun, hw.nonzero, .of_cons hw.nonzero (ho.wrapped hw ?_ ?_ ?_ ?_ ?_ ?_ ?_)⟩
  · simp [NFA.targets, NFA.renewed]
  · simp [NFA.targets, hx]
  · simp [NFA.forward]
  · simp [Passes, NFA.renewed]
  · simp [Passes]
  · simp [NFA.renewed]
  · simp

theorem Owns.newPosclosureNfa {body : Addr} (ho : Owns c (body :: l)) (hzero : body ≠ 0) :
    ∃ t c', c.newPosclosureNfa body = (t, c') ∧ t ≠ 0 ∧ Owns c' (t :: l) := by
  obtain ⟨live, frag, ho⟩ := ho.cons hzero
  obtain ⟨t, s, c₃, c', hrun, htight, hw⟩ := ho.alloc.newPosclosureNfa
    (ho.shape.root body (by simp)).1 (ho.shape.start body (by simp)).1
  have hx := ho.tighten_mem htight
  refine ⟨t, c', hrun, hw.nonzero, .of_cons hw.nonzero (ho.wrapped hw ?_ ?_ ?_ ?_ ?_ ?_ ?_)⟩
  · simp [NFA.targets, NFA.renewed]
  · simp [NFA.targets, hx]
  · simp [NFA.forward]
  · simp [Passes, NFA.renewed]
  · simp [Passes]
  · simp [NFA.renewed]
  · simp

theorem Owns.newQmarkNfa {body : Addr} (ho : Owns c (body :: l)) (hzero : body ≠ 0) :
    ∃ t c', c.newQmarkNfa body = (t, c') ∧ t ≠ 0 ∧ Owns c' (t :: l) := by
  obtain ⟨live, frag, ho⟩ := ho.cons hzero
  obtain ⟨t, s, c', hrun, hw⟩ := ho.alloc.newQmarkNfa
    (ho.shape.root body (by simp)).1 (ho.shape.start body (by simp)).1
  refine ⟨t, c', hrun, hw.nonzero, .of_cons hw.nonzero (ho.wrapped hw ?_ ?_ ?_ ?_ ?_ ?_ ?_)⟩
  · simp [NFA.targets, NFA.renewed]
  · simp [NFA.targets]
  · simp [NFA.forward]
  · simp [Passes, NFA.renewed]
  · simp [Passes]
  · simp [NFA.renewed]
  · simp

/-- `concatenate_nfa`; a `NULL` operand leaves the other one. -/
theorem Owns.concatenateNfa {prev next : Addr} (ho : Owns c (prev :: next :: l)) :
    ∃ t c', c.concatenateNfa prev next = (t, c') ∧ (next ≠ 0 → t ≠ 0) ∧ Owns c' (t :: l) := by
  by_cases hn : next = 0
  · subst hn
    refine ⟨prev, c, by simp [NFACtrl.concatenateNfa], fun h => absurd rfl h, ?_⟩
    exact ho.subperm (List.Sublist.subperm (by simp))
  by_cases hp : prev = 0
  · subst hp
    refine ⟨next, c, by simp [NFACtrl.concatenateNfa, hn], fun h => h, ?_⟩
    exact ho.subperm (List.Sublist.subperm (by simp))
  obtain ⟨live, frag, ho⟩ := ho.cons hp
  simp only [List.filter_cons, hn, ne_eq, not_false_eq_true, decide_true, if_true] at ho
  obtain ⟨hdl, hdf, hdne⟩ := ho.shape.start next (by simp)
  have hne : prev ≠ next := by
    have := ho.shape.nodup
    simp only [List.nodup_cons, List.mem_cons, not_or] at this
    exact this.1.1
  have hpf := (ho.shape.root prev (by simp)).2.1
  have hdp : (c.heap next).parent ≠ prev := fun h => hne (by rw [← hpf, ← h, hdf])
  refine ⟨next, _, by simp only [NFACtrl.concatenateNfa, if_neg hn, if_neg hp]; rfl, fun h => h,
    .of_cons hn (ho.concatenate ((ho.alloc.congr ?_).nfaDealloc hdl) ?_ ?_ ?_ ?_ ?_ ?_)⟩
  · simp
  · intro x hxp hxn hxd
    simp [Heap.modify_of_ne, hxp, hxn, hxd]
  · simp [Heap.modify_of_ne, hne, hdp.symm]
  · simp [Heap.modify_of_ne, hne.symm, hdne.symm, (ho.shape.root next (by simp)).2.2]
  · simp [Heap.modify_of_ne, hdne.symm]
  · simp
  · simp only [NFACtrl.heap_nfaDealloc, NFACtrl.heap_modify]
    refine Blank.modify (Blank.modify (fun a => ?_) _ ?_) _ ?_
    · rw [Heap.modify_apply]
      split
      · exact ho.blank _
      · exact ho.blank a
    · exact fun _ h => h
    · exact fun _ h => h

end Operands

section Others

/-- `new_lliteral_nfa` adds one automaton. -/
theorem Owns.newLliteralNfa (ho : Owns c l) (src : List Int) :
    ∃ t c', c.newLliteralNfa src = (t, c') ∧ (src ≠ [] → t ≠ 0) ∧ Owns c' (t :: l) := by
  cases src with
  | nil => exact ⟨0, c, rfl, fun h => absurd rfl h, by simpa [Owns] using ho⟩
  | cons s src =>
    obtain ⟨t, c₁, hrun, ht, ho₁⟩ := ho.newLiteralNfa s .literal (by simp)
    suffices hfold : ∀ (src : List Int) (t : Addr) (c : NFACtrl), t ≠ 0 → Owns c (t :: l) →
        ∃ t' c', src.foldl NFACtrl.appendLiteral (t, c) = (t', c') ∧ t' ≠ 0 ∧ Owns c' (t' :: l) by
      obtain ⟨t', c', hrun', ht', ho'⟩ := hfold src t c₁ ht ho₁
      exact ⟨t', c', by simp only [NFACtrl.newLliteralNfa, hrun, hrun'], fun _ => ht', ho'⟩
    intro src
    induction src with
    | nil => exact fun t c ht ho => ⟨t, c, rfl, ht, ho⟩
    | cons s src ih =>
      intro t c ht ho
      obtain ⟨r, c₁, hrun₁, hr, ho₁⟩ := ho.newLiteralNfa s .literal (by simp)
      obtain ⟨t', c₂, hrun₂, ht', ho₂⟩ := (ho₁.subperm (List.Perm.swap r t l).subperm).concatenateNfa
      obtain ⟨t'', c₃, hrun₃, ht'', ho₃⟩ := ih t' c₂ (ht' hr) ho₂
      exact ⟨t'', c₃, by simp only [List.foldl_cons, NFACtrl.appendLiteral, hrun₁, hrun₂, hrun₃], ht'', ho₃⟩

/-- What of a node matters to the ownership. -/
def NFA.links (n : NFA) : NFA :=
  { n with
    cycleFlag := false, acceptsFlag := false, iterIdx := 0, id := 0, minRep := 0, maxRep := 0
    splitIdx := 0, range := 0 }

theorem NFA.links_eq {n n' : NFA} (heq : n'.links = n.links) :
    n'.type = n.type ∧ n'.parent = n.parent ∧ n'.targets = n.targets ∧ n'.forward = n.forward ∧
      (n.Blank → n'.Blank) := by
  simp only [NFA.links, NFA.mk.injEq] at heq
  simp only [NFA.targets, NFA.forward, NFA.Blank]
  simp_all

/-- A write that keeps the links of a node keeps the ownership. -/
theorem Owns.modify (ho : Owns c l) (a : Addr) {f : NFA → NFA}
    (hf : ∀ n, (f n).links = n.links) : Owns (c.modify a f) l := by
  obtain ⟨live, frag, ho⟩ := ho
  have hlinks : ∀ x, ((c.modify a f).heap x).links = (c.heap x).links := by
    intro x
    rw [NFACtrl.heap_modify, Heap.modify_apply]
    split
    · rename_i hx
      rw [hf, hx]
    · rfl
  have hall := fun x => NFA.links_eq (hlinks x)
  refine ⟨live, frag, ho.alloc.congr rfl, ho.shape.congr fun x _ =>
    ⟨(hall x).1, (hall x).2.1, (hall x).2.2.1, (hall x).2.2.2.1⟩, ?_,
    fun x => (hall x).2.2.2.2 (ho.blank x)⟩
  simp only [Counted, Collectable, Passes, fun x => (hall x).1]
  exact ho.count

theorem Owns.updateRangeNfa (ho : Owns c l) (low high : Nat) (n : Addr) (negate : Bool) :
    Owns (c.updateRangeNfa low high n negate) l := by
  unfold NFACtrl.updateRangeNfa
  generalize List.range' low (high + 1 - low) = is
  induction is generalizing c with
  | nil => exact ho
  | cons i is ih => exact ih (ho.modify n fun _ => rfl)

end Others

end Recognizer
