import Mathlib.Data.Finset.Card
import Mathlib.Data.Finset.Lattice.Fold
import Mathlib.Data.List.Perm.Subperm
import Recognizer.Compile.Graph

/-!
# The parser's automata own their nodes

Every finished automaton is known by its accepting node and owns the nodes
below its start node. The automata on the stacks are disjoint, no pointer leads
out of an automaton, to its start node or to a released node, and every loop
goes through a `'*'` or `'+'` split or an interval.
-/

namespace Recognizer

variable {c c' : NFACtrl} {h h' : Heap} {live live' : Finset Addr} {roots rest used : List Addr}
  {frag : Addr → Addr}

/-- The allocator hands out nodes that are not in use. -/
structure AllocOk (c : NFACtrl) (live : Finset Addr) : Prop where
  pool : 0 < c.alloc.poolSize
  next : (0 : Nat) < c.alloc.nextAddr
  nodup : c.alloc.free.Nodup
  free : ∀ a : Nat, a ∈ c.alloc.free → 0 < a ∧ a < c.alloc.nextAddr
  bound : ∀ a : Nat, a ∈ live → 0 < a ∧ a < c.alloc.nextAddr
  apart : ∀ a ∈ live, a ∉ c.alloc.free

namespace AllocOk

theorem mono (ok : AllocOk c live) (hsub : live' ⊆ live) : AllocOk c live' :=
  { ok with
    bound := fun a ha => ok.bound a (hsub ha)
    apart := fun a ha => ok.apart a (hsub ha) }

/-- Only the allocator of a record is read. -/
theorem congr (ok : AllocOk c live) (halloc : c'.alloc = c.alloc) : AllocOk c' live := by
  obtain ⟨hp, hn, hnd, hf, hl, ha⟩ := ok
  rw [← halloc] at hp hn hnd hf hl ha
  exact ⟨hp, hn, hnd, hf, hl, ha⟩

theorem zero_notMem (ok : AllocOk c live) : 0 ∉ live := fun h => absurd (ok.bound 0 h).1 (Nat.lt_irrefl 0)

/-- A fresh ring of nodes. -/
theorem allocInit {num : Nat} (hnum : 0 < num) (c : NFACtrl) : AllocOk (c.allocInit num) ∅ where
  pool := hnum
  next := by simp [NFACtrl.allocInit]
  nodup := List.nodup_range'
  free a ha := by
    simp only [NFACtrl.allocInit, List.mem_range'_1] at ha ⊢
    omega
  bound := by simp
  apart := by simp

/-- The ring after an expansion is made of new nodes. -/
theorem expand (ok : AllocOk c live) :
    AllocOk { c with alloc := NFACtrl.allocExpand c.alloc } live ∧
      (NFACtrl.allocExpand c.alloc).free ≠ [] := by
  have hpool := ok.pool
  have hnext := ok.next
  constructor
  · refine ⟨?_, ?_, List.nodup_range', fun a ha => ?_, fun a ha => ?_, fun a ha hmem => ?_⟩
    · simp [NFACtrl.allocExpand, hpool]
    · simp only [NFACtrl.allocExpand]
      omega
    · simp only [NFACtrl.allocExpand, List.mem_range'_1] at ha ⊢
      omega
    · have := ok.bound a ha
      simp only [NFACtrl.allocExpand]
      omega
    · have := ok.bound a ha
      simp only [NFACtrl.allocExpand, List.mem_range'_1] at hmem
      omega
  · simp only [NFACtrl.allocExpand, ne_eq, List.range'_eq_nil_iff]
    omega

/-- `nfa_alloc` hands out a node that was not in use. -/
theorem nfaAlloc (ok : AllocOk c live) :
    ∃ n c', c.nfaAlloc = (n, c') ∧ n ∉ live ∧ AllocOk c' (insert n live) ∧ c'.heap = c.heap ∧
      c'.nextSeqId = c.nextSeqId := by
  obtain ⟨a, ha, hok⟩ : ∃ a, (if c.alloc.free = [] then NFACtrl.allocExpand c.alloc else c.alloc) = a ∧
      (AllocOk { c with alloc := a } live ∧ a.free ≠ []) := by
    refine ⟨_, rfl, ?_⟩
    split
    · exact ok.expand
    · rename_i hfree
      exact ⟨ok, hfree⟩
  obtain ⟨hok, hne⟩ := hok
  obtain ⟨n, rest, hcons⟩ := List.exists_cons_of_ne_nil hne
  have hnodup : (n :: rest).Nodup := hcons ▸ hok.nodup
  have hmem : n ∈ a.free := by simp [hcons]
  refine ⟨n, { c with alloc := { a with free := rest } }, ?_, fun hn => hok.apart n hn hmem, ?_,
    rfl, rfl⟩
  · simp only [NFACtrl.nfaAlloc, ha, hcons]
  · refine ⟨hok.pool, hok.next, (List.nodup_cons.mp hnodup).2,
      fun b hb => hok.free b (by simp [hcons, hb]), fun b hb => ?_, fun b hb hrest => ?_⟩
    · rcases Finset.mem_insert.mp hb with rfl | hb
      · exact hok.free b hmem
      · exact hok.bound b hb
    · rcases Finset.mem_insert.mp hb with rfl | hb
      · exact (List.nodup_cons.mp hnodup).1 hrest
      · exact hok.apart b hb (by simp [hcons, hrest])

/-- `new_nfa` hands out a node that was not in use. -/
theorem newNfa (ok : AllocOk c live) (type : NfaType) :
    ∃ n c', c.newNfa type = (n, c') ∧ n ∉ live ∧ AllocOk c' (insert n live) ∧
      c'.heap = c.heap.modify n (fun x =>
        { x with id := 0, type := type, parent := 0, out1 := 0, out2 := 0 }) ∧
      c'.nextSeqId = c.nextSeqId := by
  obtain ⟨n, c', hrun, hn, hok, hheap, hseq⟩ := ok.nfaAlloc
  refine ⟨n, c'.modify n fun x =>
    { x with id := 0, type := type, parent := 0, out1 := 0, out2 := 0 }, ?_, hn, hok.congr rfl, ?_,
    hseq⟩
  · simp only [NFACtrl.newNfa, hrun]
  · simp [NFACtrl.modify, hheap]

/-- `nfa_dealloc` takes a node out of use. -/
theorem nfaDealloc (ok : AllocOk c live) {n : Addr} (hn : n ∈ live) :
    AllocOk (c.nfaDealloc n) (live.erase n) := by
  have hnot := ok.apart n hn
  have hzero : n ≠ 0 := fun heq => ok.zero_notMem (heq ▸ hn)
  unfold NFACtrl.nfaDealloc
  rw [if_neg hzero]
  split
  · rename_i hfree
    refine ⟨ok.pool, ok.next, by simp, fun a ha => ?_, fun a ha => ?_, fun a ha => ?_⟩
    · rw [List.mem_singleton] at ha
      exact ha ▸ ok.bound n hn
    · exact ok.bound a (Finset.mem_of_mem_erase ha)
    · simpa using Finset.ne_of_mem_erase ha
  · rename_i f rest hfree
    have hnodup : (f :: rest).Nodup := hfree ▸ ok.nodup
    have hold : ∀ a, a ∈ f :: n :: rest → a = n ∨ a ∈ c.alloc.free := by
      intro a ha
      simp only [List.mem_cons] at ha
      simp only [hfree, List.mem_cons]
      tauto
    refine ⟨ok.pool, ok.next, ?_, fun a ha => ?_, fun a ha => ?_, fun a ha hmem => ?_⟩
    · rw [hfree] at hnot
      simp only [List.nodup_cons, List.mem_cons, not_or] at hnodup hnot ⊢
      exact ⟨⟨Ne.symm hnot.1, hnodup.1⟩, hnot.2, hnodup.2⟩
    · rcases hold a ha with rfl | ha
      · exact ok.bound a hn
      · exact ok.free a ha
    · exact ok.bound a (Finset.mem_of_mem_erase ha)
    · rcases hold a hmem with rfl | hmem
      · exact Finset.ne_of_mem_erase ha rfl
      · exact ok.apart a (Finset.mem_of_mem_erase ha) hmem

end AllocOk

/-- The automata known by `roots` in a heap: each live node belongs to one of
them, and its pointers stay there and off the start node. -/
structure Shape (h : Heap) (roots : List Addr) (live : Finset Addr) (frag : Addr → Addr) :
    Prop where
  nodup : roots.Nodup
  root : ∀ r ∈ roots, r ∈ live ∧ frag r = r ∧ (h r).type = .accepting
  start : ∀ r ∈ roots, (h r).parent ∈ live ∧ frag (h r).parent = r ∧ (h r).parent ≠ r
  owner : ∀ a ∈ live, frag a ∈ roots
  target : ∀ a ∈ live, ∀ b ∈ (h a).targets, b ∈ live ∧ frag b = frag a ∧ b ≠ (h (frag a)).parent
  height : ∃ height : Addr → Nat, ∀ a ∈ live, ∀ b ∈ (h a).forward, height b < height a

namespace Shape

/-- Automata can be forgotten. -/
theorem subperm (hS : Shape h roots live frag) (hsub : rest.Subperm roots) :
    Shape h rest (live.filter fun a => frag a ∈ rest) frag := by
  have hmem : ∀ r ∈ rest, r ∈ roots := fun r hr => hsub.subset hr
  obtain ⟨height, hheight⟩ := hS.height
  refine ⟨?_, fun r hr => ?_, fun r hr => ?_, fun a ha => (Finset.mem_filter.mp ha).2,
    fun a ha b hb => ?_, height, fun a ha => hheight a (Finset.mem_filter.mp ha).1⟩
  · obtain ⟨l, hperm, hl⟩ := hsub
    exact hperm.nodup_iff.mp (hl.nodup hS.nodup)
  · obtain ⟨hlive, hfrag, htype⟩ := hS.root r (hmem r hr)
    exact ⟨Finset.mem_filter.mpr ⟨hlive, hfrag.symm ▸ hr⟩, hfrag, htype⟩
  · obtain ⟨hlive, hfrag, hne⟩ := hS.start r (hmem r hr)
    exact ⟨Finset.mem_filter.mpr ⟨hlive, hfrag.symm ▸ hr⟩, hfrag, hne⟩
  · obtain ⟨hlive, hin⟩ := Finset.mem_filter.mp ha
    obtain ⟨hb, hfrag, hne⟩ := hS.target a hlive b hb
    exact ⟨Finset.mem_filter.mpr ⟨hb, hfrag.symm ▸ hin⟩, hfrag, hne⟩

/-- Only the types, the pointers and the literals of live nodes matter. -/
theorem congr (hS : Shape h roots live frag)
    (hsame : ∀ a ∈ live, (h' a).type = (h a).type ∧ (h' a).parent = (h a).parent ∧
      (h' a).targets = (h a).targets ∧ (h' a).forward = (h a).forward) :
    Shape h' roots live frag := by
  obtain ⟨height, hheight⟩ := hS.height
  refine ⟨hS.nodup, fun r hr => ?_, fun r hr => ?_, hS.owner, fun a ha b hb => ?_, height,
    fun a ha b hb => ?_⟩
  · obtain ⟨hlive, hfrag, htype⟩ := hS.root r hr
    exact ⟨hlive, hfrag, (hsame r hlive).1.trans htype⟩
  · rw [(hsame r (hS.root r hr).1).2.1]
    exact hS.start r hr
  · have hroot := hS.root _ (hS.owner a ha)
    rw [(hsame a ha).2.2.1] at hb
    rw [(hsame _ hroot.1).2.1]
    exact hS.target a ha b hb
  · rw [(hsame a ha).2.2.2] at hb
    exact hheight a ha b hb

/-- **Building.** The automata of `used` and fresh nodes become one automaton
whose nodes are `own`; the automata of `rest` stay as they are. -/
theorem build (hS : Shape h roots live frag) (h' : Heap) (own : Finset Addr)
    (height' : Addr → Nat) (hroots : (used ++ rest).Perm roots) {s t : Addr}
    (hown : ∀ a ∈ own, a ∈ live → frag a ∈ used)
    (hrest : ∀ a ∈ live, frag a ∈ rest → h' a = h a)
    (ht : t ∈ own) (htype : (h' t).type = .accepting) (hparent : (h' t).parent = s)
    (hs : s ∈ own) (hne : s ≠ t)
    (htarget : ∀ a ∈ own, ∀ b ∈ (h' a).targets, b ∈ own ∧ b ≠ s)
    (hheight : ∀ a ∈ own, ∀ b ∈ (h' a).forward, height' b < height' a) :
    Shape h' (t :: rest) (own ∪ live.filter fun a => frag a ∈ rest)
      fun a => if a ∈ own then t else frag a := by
  have hnodup : (used ++ rest).Nodup := hroots.nodup_iff.mpr hS.nodup
  have hdisj : ∀ r ∈ used, r ∉ rest := fun r hr hr' =>
    (List.nodup_append.mp hnodup).2.2 r hr r hr' rfl
  have hold : ∀ r ∈ rest, r ∈ roots := fun r hr => hroots.subset (List.mem_append_right _ hr)
  have hout : ∀ a ∈ live, frag a ∈ rest → a ∉ own := fun a ha hfrag hmem =>
    hdisj _ (hown a hmem ha) hfrag
  have hkeep : ∀ r ∈ rest, r ∈ live ∧ frag r = r ∧ r ∉ own ∧ h' r = h r := by
    intro r hr
    obtain ⟨hlive, hfrag, -⟩ := hS.root r (hold r hr)
    have hfrag' : frag r ∈ rest := hfrag.symm ▸ hr
    exact ⟨hlive, hfrag, hout r hlive hfrag', hrest r hlive hfrag'⟩
  obtain ⟨height, hh⟩ := hS.height
  refine ⟨?_, ?_, ?_, ?_, ?_, fun a => if a ∈ own then height' a else height a, ?_⟩
  · refine List.nodup_cons.mpr ⟨fun hmem => ?_, (List.nodup_append.mp hnodup).2.1⟩
    exact (hkeep t hmem).2.2.1 ht
  · intro r hr
    rcases List.mem_cons.mp hr with rfl | hr
    · exact ⟨Finset.mem_union_left _ ht, if_pos ht, htype⟩
    · obtain ⟨hlive, hfrag, hnot, hsame⟩ := hkeep r hr
      refine ⟨Finset.mem_union_right _ (Finset.mem_filter.mpr ⟨hlive, hfrag.symm ▸ hr⟩), ?_, ?_⟩
      · rw [if_neg hnot, hfrag]
      · rw [hsame]
        exact (hS.root r (hold r hr)).2.2
  · intro r hr
    rcases List.mem_cons.mp hr with rfl | hr
    · rw [hparent]
      exact ⟨Finset.mem_union_left _ hs, if_pos hs, hne⟩
    · obtain ⟨hlive, hfrag, hnot, hsame⟩ := hkeep r hr
      obtain ⟨hlive', hfrag', hne'⟩ := hS.start r (hold r hr)
      rw [hsame]
      have hin : frag (h r).parent ∈ rest := hfrag'.symm ▸ hr
      refine ⟨Finset.mem_union_right _ (Finset.mem_filter.mpr ⟨hlive', hin⟩), ?_, hne'⟩
      rw [if_neg (hout _ hlive' hin), hfrag']
  · intro a ha
    rcases Finset.mem_union.mp ha with ha | ha
    · simp [ha]
    · obtain ⟨hlive, hin⟩ := Finset.mem_filter.mp ha
      rw [if_neg (hout a hlive hin)]
      exact List.mem_cons_of_mem _ hin
  · intro a ha b hb
    by_cases hao : a ∈ own
    · obtain ⟨hbo, hbs⟩ := htarget a hao b hb
      rw [if_pos hao, if_pos hbo, hparent]
      exact ⟨Finset.mem_union_left _ hbo, rfl, hbs⟩
    · obtain ⟨hlive, hin⟩ := Finset.mem_filter.mp ((Finset.mem_union.mp ha).resolve_left hao)
      rw [hrest a hlive hin] at hb
      obtain ⟨hbl, hfrag, hbs⟩ := hS.target a hlive b hb
      have hin' : frag b ∈ rest := hfrag.symm ▸ hin
      rw [if_neg hao, if_neg (hout b hbl hin'), (hkeep _ hin).2.2.2]
      exact ⟨Finset.mem_union_right _ (Finset.mem_filter.mpr ⟨hbl, hin'⟩), hfrag, hbs⟩
  · intro a ha b hb
    by_cases hao : a ∈ own
    · have hbo := (htarget a hao b ((h' a).forward_subset hb)).1
      simp only [if_pos hao, if_pos hbo]
      exact hheight a hao b hb
    · obtain ⟨hlive, hin⟩ := Finset.mem_filter.mp ((Finset.mem_union.mp ha).resolve_left hao)
      rw [hrest a hlive hin] at hb
      obtain ⟨hbl, hfrag, -⟩ := hS.target a hlive b ((h a).forward_subset hb)
      simp only [if_neg hao, if_neg (hout b hbl (hfrag.symm ▸ hin))]
      exact hh a hlive b hb

end Shape

end Recognizer
