import Mathlib.Data.List.Nodup
import Recognizer.Parse.Blank
import Recognizer.Parse.Language

/-!
# Alternations

`new_alternation_nfa` puts the branches under one `TREE` node. An entry of the branch stack that
begins with a `TREE` node of its own gives up its branches, which are transferred behind the
starts of the other entries. When such an entry is the last one and two others are left, the
tail pointer still stands at its item, and nothing can be appended any more.
-/

namespace Recognizer

variable {c c' : NFACtrl} {live : Finset Addr} {frag : Addr → Addr}
  {entries branches roots others : List Addr} {t s r : Addr}

/-! ## Branch lists -/

namespace BranchList

variable {l src : BranchList} {srcs : List BranchList}

/-- The size and the tail belong to the chain, and the tail is on it. -/
structure Intact (l : BranchList) : Prop where
  size : l.size = l.items.length
  tail : l.tail = l.items.getLastD 0
  attached : l.attached = true

/-- A transfer appends the items. -/
theorem Intact.transfer (hl : l.Intact) (hsrc : src.Intact) :
    (l.transfer src).Intact ∧ (l.transfer src).items = l.items ++ src.items := by
  unfold BranchList.transfer
  by_cases hnone : src.items = []
  · rw [if_pos hnone, hnone, List.append_nil]
    exact ⟨hl, rfl⟩
  · rw [if_neg hnone]
    by_cases hempty : l.items = []
    · rw [if_pos hempty, hempty, List.nil_append]
      refine ⟨⟨?_, hsrc.tail, hsrc.attached⟩, rfl⟩
      rw [hl.size, hempty, hsrc.size]
      exact Nat.zero_add _
    · rw [if_neg hempty, if_pos hl.attached]
      refine ⟨⟨?_, ?_, ?_⟩, rfl⟩
      · rw [List.length_append, hl.size, hsrc.size]
      · rw [hsrc.tail, List.getLastD_eq_getLast?, List.getLastD_eq_getLast?,
          List.getLast?_append_of_ne_nil _ hnone]
      · rw [hl.attached, hsrc.attached]
        rfl

/-- Several transfers append all items. -/
theorem Intact.foldl_transfer (hl : l.Intact) (hsrcs : ∀ src ∈ srcs, src.Intact) :
    (srcs.foldl BranchList.transfer l).Intact ∧
      (srcs.foldl BranchList.transfer l).items = l.items ++ srcs.flatMap items := by
  induction srcs generalizing l with
  | nil => exact ⟨hl, (List.append_nil _).symm⟩
  | cons src srcs ih =>
    obtain ⟨hsrc, hrest⟩ := List.forall_mem_cons.mp hsrcs
    obtain ⟨hnext, hitems⟩ := hl.transfer hsrc
    obtain ⟨hall, heq⟩ := ih hnext hrest
    refine ⟨hall, ?_⟩
    rw [List.foldl_cons, heq, hitems, List.flatMap_cons, List.append_assoc]

/-- No other items come in. -/
theorem foldl_transfer_subset :
    (srcs.foldl BranchList.transfer l).items ⊆ l.items ++ srcs.flatMap items := by
  induction srcs generalizing l with
  | nil => exact List.subset_append_left _ _
  | cons src srcs ih =>
    have hstep : (l.transfer src).items ⊆ l.items ++ src.items := by
      unfold BranchList.transfer
      split
      · exact List.subset_append_left _ _
      · split
        · exact List.subset_append_right _ _
        · dsimp only
          split
          · exact List.Subset.refl _
          · exact List.subset_append_left _ _
    rw [List.foldl_cons, List.flatMap_cons, ← List.append_assoc]
    refine List.Subset.trans ih (List.append_subset.mpr ⟨?_, List.subset_append_right _ _⟩)
    exact List.Subset.trans hstep (List.subset_append_left _ _)

/-- A tail that is not on the chain stays off it. -/
theorem foldl_transfer_detached (hitems : l.items ≠ []) (hl : l.attached = false) :
    (srcs.foldl BranchList.transfer l).attached = false := by
  induction srcs generalizing l with
  | nil => exact hl
  | cons src srcs ih =>
    rw [List.foldl_cons]
    unfold BranchList.transfer
    by_cases hnone : src.items = []
    · rw [if_pos hnone]
      exact ih hitems hl
    · rw [if_neg hnone, if_neg hitems]
      refine ih ?_ ?_
      · rw [if_neg (by simp [hl])]
        exact hitems
      · rw [hl]
        rfl

end BranchList

/-! ## The loops of the constructor -/

namespace NFACtrl

/-- The branches an entry gives to the alternation. -/
def branchesFrom (c : NFACtrl) (r : Addr) : List Addr :=
  if c.isNfaTree r then (c.heap (c.heap r).parent).branches.items else [(c.heap r).parent]

/-- What becomes of an accepting node. -/
def redirected (x : NFA) (terminator : Addr) : NFA := { x with type := .epsilon, out2 := terminator }

/-- Different accepting nodes, none of which begins another entry. -/
structure Separate (c : NFACtrl) (entries : List Addr) : Prop where
  nodup : entries.Nodup
  apart : ∀ r ∈ entries, ∀ r' ∈ entries, (c.heap r).parent ≠ r'

theorem Separate.of_cons (h : c.Separate (r :: entries)) : c.Separate entries :=
  ⟨(List.nodup_cons.mp h.nodup).2, fun a ha b hb =>
    h.apart a (List.mem_cons_of_mem r ha) b (List.mem_cons_of_mem r hb)⟩

/-- The first entry can be redirected without a change to the others. -/
theorem Separate.tail (h : c.Separate (r :: entries))
    (hheap : c'.heap = c.heap.modify r fun x => redirected x t) :
    c'.Separate entries ∧ (∀ a ∈ entries, c'.isNfaTree a = c.isNfaTree a) ∧
      ∀ a ∈ entries, c'.heap a = c.heap a ∧
        c'.heap (c.heap a).parent = c.heap (c.heap a).parent := by
  obtain ⟨hnot, hnodup⟩ := List.nodup_cons.mp h.nodup
  have hsame : ∀ a ∈ entries, c'.heap a = c.heap a ∧
      c'.heap (c.heap a).parent = c.heap (c.heap a).parent := by
    intro a ha
    have hne : a ≠ r := fun heq => hnot (heq ▸ ha)
    rw [hheap, Heap.modify_of_ne _ hne, Heap.modify_of_ne _ (h.apart a (by simp [ha]) r (by simp))]
    exact ⟨rfl, rfl⟩
  refine ⟨⟨hnodup, fun a ha b hb => ?_⟩, fun a ha => ?_, hsame⟩
  · rw [(hsame a ha).1]
    exact h.apart a (List.mem_cons_of_mem r ha) b (List.mem_cons_of_mem r hb)
  · unfold isNfaTree
    rw [(hsame a ha).1, (hsame a ha).2]

/-- One entry that begins with a `TREE` node is redirected, and the node is released. -/
def releaseTree (c : NFACtrl) (t r : Addr) : NFACtrl :=
  (c.modify r fun x => redirected x t).nfaDealloc (c.heap r).parent

theorem heap_releaseTree (c : NFACtrl) (t r : Addr) :
    (c.releaseTree t r).heap = c.heap.modify r fun x => redirected x t := heap_nfaDealloc _ _

theorem collectTrees_tree (htree : c.isNfaTree r = true) :
    c.collectTrees t (r :: entries) = (((c.releaseTree t r).collectTrees t entries).1,
      ((c.releaseTree t r).heap (c.heap r).parent).branches ::
        ((c.releaseTree t r).collectTrees t entries).2.1,
      ((c.releaseTree t r).collectTrees t entries).2.2) := by
  rw [collectTrees, heap_releaseTree]
  exact if_pos (of_decide_eq_true htree)

theorem collectTrees_other (hother : c.isNfaTree r = false) :
    c.collectTrees t (r :: entries) = (r :: (c.collectTrees t entries).1,
      (c.collectTrees t entries).2.1, (c.collectTrees t entries).2.2) := by
  rw [collectTrees]
  exact if_neg (of_decide_eq_false hother)

/-- **Collecting the trees.** The entries that begin with a `TREE` node are redirected to the
terminator and give up their branch lists, the others stay. -/
theorem collectTrees_spec (h : c.Separate entries) :
    (c.collectTrees t entries).1 = entries.filter (fun r => !c.isNfaTree r) ∧
      (c.collectTrees t entries).2.1 =
        (entries.filter c.isNfaTree).map (fun r => (c.heap (c.heap r).parent).branches) ∧
      ∀ a, (c.collectTrees t entries).2.2.heap a =
        if a ∈ entries.filter c.isNfaTree then redirected (c.heap a) t else c.heap a := by
  induction entries generalizing c with
  | nil => exact ⟨rfl, rfl, fun a => (if_neg List.not_mem_nil).symm⟩
  | cons r entries ih =>
    obtain ⟨hnot, hnodup⟩ := List.nodup_cons.mp h.nodup
    cases htree : c.isNfaTree r with
    | true =>
      have hheap := heap_releaseTree c t r
      obtain ⟨hsep, hsame, hold⟩ := h.tail hheap
      obtain ⟨hitems, hsubs, hnew⟩ := ih hsep
      have hfilter : entries.filter (c.releaseTree t r).isNfaTree = entries.filter c.isNfaTree :=
        List.filter_congr fun a ha => hsame a ha
      rw [collectTrees_tree htree, List.filter_cons_of_pos htree,
        List.filter_cons_of_neg (by simp [htree])]
      refine ⟨?_, ?_, fun a => ?_⟩
      · rw [hitems]
        exact List.filter_congr fun a ha => by rw [hsame a ha]
      · dsimp only
        rw [hsubs, hfilter, List.map_cons, hheap,
          Heap.modify_of_ne _ (h.apart r (by simp) r (by simp))]
        refine congrArg _ (List.map_congr_left fun a ha => ?_)
        rw [← hheap, (hold a (List.mem_of_mem_filter ha)).1, (hold a (List.mem_of_mem_filter ha)).2]
      · rw [hnew a, hfilter, hheap]
        by_cases har : a = r
        · subst har
          rw [if_neg fun ha => hnot (List.mem_of_mem_filter ha), Heap.modify_self,
            if_pos List.mem_cons_self]
        · rw [Heap.modify_of_ne _ har]
          simp [har]
    | false =>
      obtain ⟨hitems, hsubs, hnew⟩ := ih h.of_cons
      have htrees : (r :: entries).filter c.isNfaTree = entries.filter c.isNfaTree :=
        List.filter_cons_of_neg (by simp [htree])
      rw [collectTrees_other htree, htrees, List.filter_cons_of_pos (by simp [htree])]
      exact ⟨congrArg (r :: ·) hitems, hsubs, hnew⟩

theorem nextSeqId_collectTrees (c : NFACtrl) (t : Addr) (entries : List Addr) :
    (c.collectTrees t entries).2.2.nextSeqId = c.nextSeqId := by
  induction entries generalizing c with
  | nil => rfl
  | cons r entries ih =>
    cases htree : c.isNfaTree r with
    | true =>
      rw [collectTrees_tree htree]
      exact (ih _).trans (nextSeqId_nfaDealloc _ _)
    | false =>
      rw [collectTrees_other htree]
      exact ih c

/-- The allocator takes the `TREE` nodes of the entries out of use. -/
theorem collectTrees_alloc (h : c.Separate entries) (ok : AllocOk c live)
    (hstart : ∀ r ∈ entries, (c.heap r).parent ∈ live)
    (hne : (entries.map fun r => (c.heap r).parent).Nodup) :
    AllocOk (c.collectTrees t entries).2.2
      (live \ ((entries.filter c.isNfaTree).map fun r => (c.heap r).parent).toFinset) := by
  induction entries generalizing c live with
  | nil =>
    rw [List.filter_nil, List.map_nil, List.toFinset_nil, Finset.sdiff_empty]
    exact ok
  | cons r entries ih =>
    obtain ⟨hparent, hrest⟩ := List.nodup_cons.mp hne
    cases htree : c.isNfaTree r with
    | true =>
      have hheap := heap_releaseTree c t r
      obtain ⟨hsep, hsame, hold⟩ := h.tail hheap
      have hmap : ∀ l, l ⊆ entries → (l.map fun a => ((c.releaseTree t r).heap a).parent) =
          l.map fun a => (c.heap a).parent :=
        fun l hl => List.map_congr_left fun a ha => by rw [(hold a (hl ha)).1]
      have hok : AllocOk (c.releaseTree t r) (live.erase (c.heap r).parent) :=
        AllocOk.nfaDealloc (c := c.modify r fun x => redirected x t) (ok.congr rfl)
          (hstart r (by simp))
      have hfilter : entries.filter (c.releaseTree t r).isNfaTree = entries.filter c.isNfaTree :=
        List.filter_congr fun a ha => hsame a ha
      have hall := ih hsep hok (fun a ha => ?_) (by rwa [hmap _ (List.Subset.refl _)])
      · rw [hfilter, hmap _ (List.filter_subset_self _)] at hall
        rw [collectTrees_tree htree, List.filter_cons_of_pos htree, List.map_cons,
          List.toFinset_cons]
        have hsdiff : live \ insert (c.heap r).parent
            ((entries.filter c.isNfaTree).map fun r => (c.heap r).parent).toFinset =
            live.erase (c.heap r).parent \
              ((entries.filter c.isNfaTree).map fun r => (c.heap r).parent).toFinset := by
          ext a
          simp only [Finset.mem_sdiff, Finset.mem_insert, Finset.mem_erase, not_or]
          tauto
        rw [hsdiff]
        exact hall
      · rw [(hold a ha).1]
        refine Finset.mem_erase.mpr ⟨fun heq => hparent ?_, hstart a (by simp [ha])⟩
        exact List.mem_map.mpr ⟨a, ha, heq⟩
    | false =>
      rw [collectTrees_other htree, List.filter_cons_of_neg (by simp [htree])]
      exact ih h.of_cons ok (fun a ha => hstart a (by simp [ha])) hrest

/-- **Redirecting the others.** -/
theorem redirectBranches_spec (c : NFACtrl) (t : Addr) (entries : List Addr) :
    (c.redirectBranches t entries).1 = entries.map (fun r => (c.heap r).parent) ∧
      (c.redirectBranches t entries).2.alloc = c.alloc ∧
      (c.redirectBranches t entries).2.nextSeqId = c.nextSeqId ∧
      ∀ a, (c.redirectBranches t entries).2.heap a =
        if a ∈ entries then redirected (c.heap a) t else c.heap a := by
  induction entries generalizing c with
  | nil => exact ⟨rfl, rfl, rfl, fun a => (if_neg List.not_mem_nil).symm⟩
  | cons r entries ih =>
    obtain ⟨hstarts, halloc, hseq, hheap⟩ := ih (c.modify r fun x => redirected x t)
    have hparent : ∀ a, ((c.modify r fun x => redirected x t).heap a).parent =
        (c.heap a).parent := by
      intro a
      rw [heap_modify, Heap.modify_apply]
      split
      · rename_i har
        rw [har]
        rfl
      · rfl
    refine ⟨?_, halloc, hseq, fun a => ?_⟩
    · have hhead : ((c.modify r fun x => redirected x t).heap r).parent = (c.heap r).parent :=
        hparent r
      rw [List.map_cons, ← hhead, ← funext hparent]
      exact congrArg _ hstarts
    · refine (hheap a).trans ?_
      rw [heap_modify]
      by_cases har : a = r
      · subst har
        rw [Heap.modify_self, if_pos List.mem_cons_self]
        split <;> rfl
      · rw [Heap.modify_of_ne _ har]
        simp [har]

/-- The list of the entries that do not begin with a `TREE` node. -/
def ownBranches (c : NFACtrl) (entries : List Addr) : BranchList :=
  let starts := (entries.filter fun r => !c.isNfaTree r).map fun r => (c.heap r).parent
  { items := starts, size := starts.length, tail := starts.getLastD 0
    attached := !(decide (2 ≤ starts.length) && c.isNfaTree (entries.getLastD 0)) }

/-- The lists the other entries give up. -/
def subTrees (c : NFACtrl) (entries : List Addr) : List BranchList :=
  (entries.filter c.isNfaTree).map fun r => (c.heap (c.heap r).parent).branches

/-- What `new_alternation_nfa` makes of the first entries of the branch stack. -/
structure Alternates (c c' : NFACtrl) (live : Finset Addr) (entries : List Addr) (t s : Addr) :
    Prop where
  root : t ∉ live
  start : s ∉ live
  ne : s ≠ t
  accepting : (c'.heap t).type = .accepting
  parent : (c'.heap t).parent = s
  tree : (c'.heap s).type = .tree
  branches : (c'.heap s).branches = (c.subTrees entries).foldl BranchList.transfer
    (c.ownBranches entries)
  entry : ∀ r ∈ entries, c'.heap r = redirected (c.heap r) t
  old : ∀ a ∈ live, a ∉ entries → c'.heap a = c.heap a
  alloc : AllocOk c' ((live ∪ {s, t}) \
    ((entries.filter c.isNfaTree).map fun r => (c.heap r).parent).toFinset)
  next : c'.nextSeqId = c.nextSeqId

theorem separate_of_shape (hS : Shape c.heap branches live frag) (hsub : entries ⊆ branches)
    (hnodup : entries.Nodup) : c.Separate entries := by
  refine ⟨hnodup, fun r hr r' hr' heq => ?_⟩
  obtain ⟨-, hfrag, hne⟩ := hS.start r (hsub hr)
  rw [heq, (hS.root r' (hsub hr')).2.1] at hfrag
  exact hne (heq.trans hfrag)

/-- Only the entries and their first nodes are read. -/
theorem isNfaTree_congr (hold : ∀ a ∈ live, c'.heap a = c.heap a) (hr : r ∈ live)
    (hparent : (c.heap r).parent ∈ live) : c'.isNfaTree r = c.isNfaTree r := by
  unfold isNfaTree
  rw [hold r hr, hold _ hparent]

/-- The two loops together. -/
theorem redirectAll_spec {c₄ c₅ : NFACtrl} (h : c.Separate entries)
    (h₄ : (c.collectTrees t entries).2.2 = c₄)
    (h₅ : (c₄.redirectBranches t (c.collectTrees t entries).1).2 = c₅) :
    (c₄.redirectBranches t (c.collectTrees t entries).1).1 =
        ((entries.filter fun r => !c.isNfaTree r).map fun r => (c.heap r).parent) ∧
      c₅.alloc = c₄.alloc ∧ c₅.nextSeqId = c.nextSeqId ∧
      ∀ a, c₅.heap a = if a ∈ entries then redirected (c.heap a) t else c.heap a := by
  obtain ⟨hitems, -, hheap₄⟩ := @collectTrees_spec c entries t h
  obtain ⟨hstarts, halloc, hseq, hheap₅⟩ :=
    redirectBranches_spec c₄ t (c.collectTrees t entries).1
  rw [h₄] at hheap₄
  rw [h₅] at halloc hseq hheap₅
  have hseq₄ : c₄.nextSeqId = c.nextSeqId := h₄ ▸ nextSeqId_collectTrees c t entries
  refine ⟨?_, halloc, hseq.trans hseq₄, fun a => ?_⟩
  · rw [hstarts, hitems]
    refine List.map_congr_left fun a _ => ?_
    rw [hheap₄ a]
    split <;> rfl
  · rw [hheap₅, hitems, hheap₄]
    by_cases ha : a ∈ entries
    · cases htree : c.isNfaTree a with
      | true => simp [ha, htree]
      | false => simp [ha, htree]
    · simp [ha]

/-- **`new_alternation_nfa`.** -/
theorem newAlternationNfa_spec {n : Nat} (ok : AllocOk c live)
    (hS : Shape c.heap roots live frag) (hroots : branches.Sublist roots) (htwo : 2 ≤ n)
    (hne : branches ≠ []) :
    ∃ t s c', c.newAlternationNfa branches n = some (t, branches.drop n, c') ∧
      Alternates c c' live (branches.take n) t s := by
  obtain ⟨s, t, c₁, c₂, hrun₁, hrun₂, hs, ht, hst, hs0, ht0, ok₂, hheaps, hheapt, hsame, hseq⟩ :=
    ok.newNfa_newNfa .tree .accepting
  have hentriesSub : (branches.take n).Sublist roots := (List.take_sublist n branches).trans hroots
  have hsub : branches.take n ⊆ roots := hentriesSub.subset
  have hnil : branches.take n ≠ [] := by
    rw [Ne, List.take_eq_nil_iff]
    rintro (h | h)
    · omega
    · exact hne h
  have hsep := separate_of_shape hS hsub (hS.nodup.sublist hentriesSub)
  have hlive : ∀ r ∈ branches.take n, r ∈ live ∧ (c.heap r).parent ∈ live := fun r hr =>
    ⟨(hS.root r (hsub hr)).1, (hS.start r (hsub hr)).1⟩
  obtain ⟨entries, hentries⟩ : ∃ entries, branches.take n = entries := ⟨_, rfl⟩
  rw [hentries] at hsub hnil hsep hlive ⊢
  have hparents : (entries.map fun r => (c.heap r).parent).Nodup := by
    refine List.Nodup.map_on (fun r hr r' hr' heq => ?_) hsep.nodup
    rw [← (hS.start r (hsub hr)).2.1, heq, (hS.start r' (hsub hr')).2.1]
  obtain ⟨c₃, hc₃⟩ : ∃ c₃, c₂.modify t (fun x => { x with parent := t }) = c₃ := ⟨_, rfl⟩
  have hold : ∀ a ∈ live, c₃.heap a = c.heap a := by
    intro a ha
    have hat : a ≠ t := fun heq => ht (heq ▸ ha)
    have has : a ≠ s := fun heq => hs (heq ▸ ha)
    rw [← hc₃, heap_modify, Heap.modify_of_ne _ hat, hsame a has hat]
  have htree : ∀ r ∈ entries, c₃.isNfaTree r = c.isNfaTree r := fun r hr =>
    isNfaTree_congr hold (hlive r hr).1 (hlive r hr).2
  have hsep₃ : c₃.Separate entries := by
    refine ⟨hsep.nodup, fun r hr => ?_⟩
    rw [hold r (hlive r hr).1]
    exact hsep.apart r hr
  obtain ⟨c₄, h₄⟩ : ∃ c₄, (c₃.collectTrees t entries).2.2 = c₄ := ⟨_, rfl⟩
  obtain ⟨c₅, h₅⟩ : ∃ c₅, (c₄.redirectBranches t (c₃.collectTrees t entries).1).2 = c₅ :=
    ⟨_, rfl⟩
  obtain ⟨hstarts, halloc₅, hseq₅, hheap₅⟩ := redirectAll_spec hsep₃ h₄ h₅
  obtain ⟨-, hsubs, -⟩ := @collectTrees_spec c₃ entries t hsep₃
  obtain ⟨own, hown⟩ : ∃ own : BranchList, own = (c.subTrees entries).foldl BranchList.transfer
    (c.ownBranches entries) := ⟨_, rfl⟩
  have hown₃ : c₃.ownBranches entries = c.ownBranches entries := by
    have hmap : ((entries.filter fun r => !c₃.isNfaTree r).map fun r => (c₃.heap r).parent) =
        (entries.filter fun r => !c.isNfaTree r).map fun r => (c.heap r).parent := by
      rw [List.filter_congr fun r hr => congrArg (!·) (htree r hr)]
      exact List.map_congr_left fun r hr => by rw [hold r (hlive r (List.mem_of_mem_filter hr)).1]
    have hlast : c₃.isNfaTree (entries.getLastD 0) = c.isNfaTree (entries.getLastD 0) := by
      rw [List.getLastD_eq_getLast?, List.getLast?_eq_some_getLast hnil]
      exact htree _ (List.getLast_mem hnil)
    unfold ownBranches
    rw [hmap, hlast]
  have hsubs₃ : c₃.subTrees entries = c.subTrees entries := by
    unfold subTrees
    rw [List.filter_congr fun r hr => htree r hr]
    refine List.map_congr_left fun r hr => ?_
    obtain ⟨hr, hp⟩ := hlive r (List.mem_of_mem_filter hr)
    rw [hold r hr, hold _ hp]
  refine ⟨t, s, (c₅.modify s fun x => { x with branches := own }).modify t
    fun x => { x with parent := s }, ?_, ?_⟩
  · have hrun : c.newAlternationNfa branches n = some (t, branches.drop n,
        (c₅.modify s fun x => { x with branches :=
          (c₃.collectTrees t entries).2.1.foldl BranchList.transfer (c₃.ownBranches entries) }).modify
            t fun x => { x with parent := s }) := by
      unfold newAlternationNfa
      rw [if_neg (by omega), if_neg hne, hrun₁]
      dsimp only
      rw [hrun₂]
      dsimp only
      rw [hc₃, hentries, h₄, h₅, hstarts]
      rfl
    rw [hrun, hsubs, hown, ← hsubs₃, ← hown₃]
    rfl
  · have hheap : ∀ a, a ≠ s → a ≠ t → ((c₅.modify s fun x => { x with branches := own }).modify t
        fun x => { x with parent := s }).heap a =
          if a ∈ entries then redirected (c₃.heap a) t else c₃.heap a := by
      intro a has hat
      rw [heap_modify, Heap.modify_of_ne _ hat, heap_modify, Heap.modify_of_ne _ has, hheap₅]
    have hs₅ : c₅.heap s = c₂.heap s := by
      rw [hheap₅, if_neg fun h => hs (hlive s h).1, ← hc₃, heap_modify, Heap.modify_of_ne _ hst]
    have ht₅ : c₅.heap t = { c₂.heap t with parent := t } := by
      rw [hheap₅, if_neg fun h => ht (hlive t h).1, ← hc₃, heap_modify, Heap.modify_self]
    have hstarts₃ : ((entries.filter c₃.isNfaTree).map fun r => (c₃.heap r).parent) =
        (entries.filter c.isNfaTree).map fun r => (c.heap r).parent := by
      rw [List.filter_congr fun r hr => htree r hr]
      exact List.map_congr_left fun r hr => by rw [hold r (hlive r (List.mem_of_mem_filter hr)).1]
    refine ⟨ht, hs, hst, ?_, ?_, ?_, ?_, fun r hr => ?_, fun a ha hnot => ?_, ?_, ?_⟩
    · rw [heap_modify, Heap.modify_self, heap_modify, Heap.modify_of_ne _ hst.symm, ht₅, hheapt]
      rfl
    · rw [heap_modify, Heap.modify_self]
    · rw [heap_modify, Heap.modify_of_ne _ hst, heap_modify, Heap.modify_self, hs₅, hheaps]
      rfl
    · rw [heap_modify, Heap.modify_of_ne _ hst, heap_modify, Heap.modify_self, hown]
    · have hr' := (hlive r hr).1
      rw [hheap r (fun h => hs (h ▸ hr')) (fun h => ht (h ▸ hr')), if_pos hr, hold r hr']
    · rw [hheap a (fun h => hs (h ▸ ha)) (fun h => ht (h ▸ ha)), if_neg hnot, hold a ha]
    · have ok₃ : AllocOk c₃ (live ∪ {s, t}) := ok₂.congr (by rw [← hc₃]; rfl)
      have ok₄ := collectTrees_alloc (t := t) hsep₃ ok₃ (fun r hr => ?_) ?_
      · rw [hstarts₃, h₄] at ok₄
        exact ok₄.congr halloc₅
      · rw [hold r (hlive r hr).1]
        exact Finset.mem_union_left _ (hlive r hr).2
      · rw [List.map_congr_left fun r hr => by rw [hold r (hlive r hr).1]]
        exact hparents
    · have hseq₃ : c₃.nextSeqId = c₂.nextSeqId := by rw [← hc₃]; rfl
      exact (hseq₅.trans hseq₃).trans hseq

/-- The branches come from the entries. -/
theorem mem_branches {a : Addr} (ha : a ∈ ((c.subTrees entries).foldl BranchList.transfer
    (c.ownBranches entries)).items) : ∃ r ∈ entries, a ∈ c.branchesFrom r := by
  rcases List.mem_append.mp (BranchList.foldl_transfer_subset ha) with ha | ha
  · obtain ⟨r, hr, rfl⟩ := List.mem_map.mp ha
    obtain ⟨hr, hother⟩ := List.mem_filter.mp hr
    refine ⟨r, hr, ?_⟩
    rw [branchesFrom, if_neg (by simpa using hother)]
    exact List.mem_singleton.mpr rfl
  · obtain ⟨src, hsrc, ha⟩ := List.mem_flatMap.mp ha
    obtain ⟨r, hr, rfl⟩ := List.mem_map.mp hsrc
    obtain ⟨hr, htree⟩ := List.mem_filter.mp hr
    refine ⟨r, hr, ?_⟩
    rwa [branchesFrom, if_pos htree]

/-- The branches of an entry are nodes of its own. -/
theorem branchesFrom_owned (hS : Shape c.heap branches live frag) (hr : r ∈ branches) {a : Addr}
    (ha : a ∈ c.branchesFrom r) : a ∈ live ∧ frag a = r ∧
      (c.isNfaTree r = true → a ≠ (c.heap r).parent) := by
  obtain ⟨hlive, hfrag, -⟩ := hS.start r hr
  unfold branchesFrom at ha
  split at ha
  · rename_i htree
    have htargets : (c.heap (c.heap r).parent).targets =
        (c.heap (c.heap r).parent).branches.items := by
      rw [NFA.targets, (of_decide_eq_true htree).2]
    obtain ⟨hal, haf, hne⟩ := hS.target _ hlive a (htargets ▸ ha)
    rw [hfrag] at haf hne
    exact ⟨hal, haf, fun _ => hne⟩
  · rename_i hother
    rw [List.mem_singleton.mp ha]
    exact ⟨hlive, hfrag, fun htree => absurd htree hother⟩

end NFACtrl

/-- **Alternations own their nodes.** The terminator and the entries that are left own the nodes
in use, among which the `TREE` nodes of the entries no longer are. -/
theorem Owned.alternate {n : Nat} (ho : Owned c (branches ++ others) live frag) (htwo : 2 ≤ n)
    (hne : branches ≠ []) : ∃ t s c', c.newAlternationNfa branches n =
      some (t, branches.drop n, c') ∧ c.Alternates c' live (branches.take n) t s ∧
        ∃ live' frag', Owned c' (t :: (branches.drop n ++ others)) live' frag' := by
  obtain ⟨t, s, c', hrun, halt⟩ := NFACtrl.newAlternationNfa_spec (c := c) ho.alloc ho.shape
    (List.sublist_append_left branches others) htwo hne
  refine ⟨t, s, c', hrun, halt, ?_⟩
  have hsub : branches.take n ⊆ branches ++ others := fun _ h =>
    List.mem_append_left _ (List.mem_of_mem_take h)
  have hS := ho.shape
  have hentry : ∀ r ∈ branches.take n, (c'.heap r).type = .epsilon ∧ (c'.heap r).out2 = t :=
    fun r hr => by rw [halt.entry r hr]; exact ⟨rfl, rfl⟩
  have htargets : ∀ r ∈ branches.take n, (c'.heap r).targets = [t] ∧ (c'.heap r).forward = [t] :=
    fun r hr => by simp [NFA.targets, NFA.forward, hentry r hr]
  have hstart : (c'.heap s).targets = (c'.heap s).branches.items := by
    rw [NFA.targets, halt.tree]
  have hroot : (c'.heap t).targets = [] ∧ (c'.heap t).forward = [] := by
    simp [NFA.targets, NFA.forward, halt.accepting]
  refine ho.join (branches.take n) {s, t} ((((branches.take n).filter c.isNfaTree).map
    fun r => (c.heap r).parent).toFinset) ?_ (s := s) (t := t) ?_ ?_ ?_ halt.ne ?_ ?_ halt.accepting
    halt.parent ?_ ?_ ?_ halt.alloc ?_ ?_ ?_
  · rw [← List.append_assoc, List.take_append_drop]
  · simp only [Finset.mem_insert, Finset.mem_singleton]
    rintro a (rfl | rfl)
    · exact halt.start
    · exact halt.root
  · exact Finset.mem_insert_self s _
  · exact Finset.mem_insert_of_mem (Finset.mem_singleton_self t)
  · intro a ha
    obtain ⟨r, hr, rfl⟩ := List.mem_map.mp (List.mem_toFinset.mp ha)
    exact ⟨r, List.mem_of_mem_filter hr, rfl⟩
  · exact fun a ha hnot _ => halt.old a ha hnot
  · rintro a (ha | ha) b hb
    · rcases Finset.mem_insert.mp ha with rfl | ha
      · rw [hstart, halt.branches] at hb
        obtain ⟨r, hr, hb⟩ := NFACtrl.mem_branches hb
        obtain ⟨hlive, hfrag, hstay⟩ := NFACtrl.branchesFrom_owned hS (hsub hr) hb
        refine ⟨fun heq => halt.start (heq ▸ hlive), .inr ⟨hlive, hfrag.symm ▸ hr, fun hdead => ?_⟩⟩
        obtain ⟨r', hr', rfl⟩ := List.mem_map.mp (List.mem_toFinset.mp hdead)
        obtain ⟨hr', htree⟩ := List.mem_filter.mp hr'
        obtain rfl : r' = r := (hS.start r' (hsub hr')).2.1.symm.trans hfrag
        exact hstay htree rfl
      · rw [Finset.mem_singleton.mp ha, hroot.1] at hb
        cases hb
    · rw [(htargets a ha).1, List.mem_singleton] at hb
      subst hb
      exact ⟨halt.ne.symm, .inl (Finset.mem_insert_of_mem (Finset.mem_singleton_self b))⟩
  · intro a ha has
    rcases Finset.mem_insert.mp ha with rfl | ha
    · exact absurd rfl has
    · rw [Finset.mem_singleton.mp ha, hroot.2]
  · intro a ha b hb
    rw [(htargets a ha).2, List.mem_singleton] at hb
    rw [hb]
    exact Finset.mem_insert_of_mem (Finset.mem_singleton_self t)
  · have hnone : (({s, t} : Finset Addr).filter fun a => Counted (c'.heap a)) = ∅ := by
      refine Finset.filter_eq_empty_iff.mpr fun a ha hcounted => ?_
      rcases Finset.mem_insert.mp ha with rfl | ha
      · exact hcounted.1.1 (.inr (.inr halt.tree))
      · rw [Finset.mem_singleton.mp ha] at hcounted
        exact hcounted.1.2 halt.accepting
    rw [hnone, Finset.card_empty, Nat.zero_add, halt.next]
  · exact fun a ha hcounted => hcounted.1.1 (.inl (hentry a ha).1)
  · exact survives_blank.newAlternationNfa ho.blank hrun

theorem Owned.newAlternationNfa {n : Nat} (ho : Owned c branches live frag) (htwo : 2 ≤ n)
    (hne : branches ≠ []) : ∃ t s c', c.newAlternationNfa branches n =
      some (t, branches.drop n, c') ∧ c.Alternates c' live (branches.take n) t s ∧
        ∃ live' frag', Owned c' (t :: branches.drop n) live' frag' := by
  rw [← List.append_nil branches] at ho
  obtain ⟨t, s, c', hrun, halt, hown⟩ := ho.alternate htwo hne
  rw [List.append_nil] at hown
  exact ⟨t, s, c', hrun, halt, hown⟩

/-! ## The branches of an alternation -/

/-- A branch stack of finished automata, whose trees have their branches in order. -/
structure BranchStack (c : NFACtrl) (branches : List Addr) : Prop where
  owned : ∃ live frag, Owned c branches live frag
  intact : ∀ r ∈ branches, c.isNfaTree r = true → (c.heap (c.heap r).parent).branches.Intact
  nodup : ∀ r ∈ branches, c.isNfaTree r = true → (c.heap (c.heap r).parent).branches.items.Nodup

/-- The alternation `t` has every branch of the entries once, and all entries lead to `t`. -/
structure KeepsBranches (c c' : NFACtrl) (entries : List Addr) (t : Addr) : Prop where
  accepting : (c'.heap t).type = .accepting
  tree : (c'.heap (c'.heap t).parent).type = .tree
  intact : (c'.heap (c'.heap t).parent).branches.Intact
  items : (c'.heap (c'.heap t).parent).branches.items.Perm (entries.flatMap c.branchesFrom)
  nodup : (c'.heap (c'.heap t).parent).branches.items.Nodup
  leads : ∀ r ∈ entries, (c'.heap r).type = .epsilon ∧ (c'.heap r).out2 = t

/-- The last entry begins with a `TREE` node and two others do not. -/
def KeepsTail (c : NFACtrl) (entries : List Addr) : Prop :=
  2 ≤ (entries.filter fun r => !c.isNfaTree r).length ∧ c.isNfaTree (entries.getLastD 0) = true

instance (c : NFACtrl) (entries : List Addr) : Decidable (KeepsTail c entries) := by
  unfold KeepsTail
  infer_instance

namespace BranchStack

variable {n : Nat}

/-- No branch comes from two entries. -/
theorem nodup_flatMap (hb : BranchStack c branches) (hsub : entries.Sublist branches) :
    (entries.flatMap c.branchesFrom).Nodup := by
  obtain ⟨live, frag, ho⟩ := hb.owned
  refine List.nodup_flatMap.mpr ⟨fun r hr => ?_, ?_⟩
  · unfold NFACtrl.branchesFrom
    split
    · rename_i htree
      exact hb.nodup r (hsub.subset hr) htree
    · exact List.nodup_singleton _
  · refine (ho.shape.nodup.sublist hsub).pairwise_of_forall_ne fun r hr r' hr' hne a ha ha' =>
      hne ?_
    rw [← (NFACtrl.branchesFrom_owned ho.shape (hsub.subset hr) ha).2.1]
    exact (NFACtrl.branchesFrom_owned ho.shape (hsub.subset hr') ha').2.1

/-- The starts and the lists of the trees hold the branches. -/
theorem items_perm (c : NFACtrl) (entries : List Addr) :
    ((c.ownBranches entries).items ++ (c.subTrees entries).flatMap BranchList.items).Perm
      (entries.flatMap c.branchesFrom) := by
  have hown : (c.ownBranches entries).items =
      (entries.filter fun r => !c.isNfaTree r).flatMap c.branchesFrom := by
    refine List.map_eq_flatMap.trans (List.flatMap_congr fun r hr => ?_)
    have hother := (List.mem_filter.mp hr).2
    exact (if_neg (by simpa using hother)).symm
  have hsubs : (c.subTrees entries).flatMap BranchList.items =
      (entries.filter c.isNfaTree).flatMap c.branchesFrom := by
    rw [NFACtrl.subTrees, List.flatMap_map]
    refine List.flatMap_congr fun r hr => ?_
    exact (if_pos (List.mem_filter.mp hr).2).symm
  rw [hown, hsubs, ← List.flatMap_append]
  exact (List.perm_append_comm.trans (List.filter_append_perm c.isNfaTree entries)).flatMap_right _

theorem ownBranches_attached (c : NFACtrl) (entries : List Addr) :
    (c.ownBranches entries).attached = true ↔ ¬ KeepsTail c entries := by
  simp only [NFACtrl.ownBranches, KeepsTail, List.length_map, Bool.not_eq_true',
    Bool.and_eq_false_iff, decide_eq_false_iff_not, not_and, Bool.not_eq_true]
  exact or_iff_not_imp_left.trans (by rw [not_not])

theorem ownBranches_ne_nil (h : KeepsTail c entries) : (c.ownBranches entries).items ≠ [] := by
  intro hnil
  have hlen := h.1
  rw [List.map_eq_nil_iff.mp hnil] at hlen
  simp at hlen

/-- The alternation has every branch once. -/
theorem keepsBranches (hb : BranchStack c branches) (hsub : entries.Sublist branches)
    (halt : c.Alternates c' live entries t s) (hgood : ¬ KeepsTail c entries) :
    KeepsBranches c c' entries t := by
  have hown : (c.ownBranches entries).Intact := ⟨rfl, rfl, (ownBranches_attached c _).mpr hgood⟩
  obtain ⟨hintact, hitems⟩ := @BranchList.Intact.foldl_transfer _ (c.subTrees entries) hown
    fun src hsrc => by
      obtain ⟨r, hr, rfl⟩ := List.mem_map.mp hsrc
      obtain ⟨hr, htree⟩ := List.mem_filter.mp hr
      exact hb.intact r (hsub.subset hr) htree
  have hperm := items_perm c entries
  rw [← hitems, ← halt.branches] at hperm
  rw [← halt.branches] at hintact
  refine ⟨halt.accepting, ?_, ?_, ?_, ?_, fun r hr => ?_⟩
  · rw [halt.parent]
    exact halt.tree
  · rw [halt.parent]
    exact hintact
  · rw [halt.parent]
    exact hperm
  · rw [halt.parent]
    exact hperm.nodup_iff.mpr (hb.nodup_flatMap hsub)
  · rw [halt.entry r hr]
    exact ⟨rfl, rfl⟩

/-- The tail pointer is lost. -/
theorem not_keepsBranches (halt : c.Alternates c' live entries t s) (hbad : KeepsTail c entries) :
    ¬ KeepsBranches c c' entries t := by
  intro hkeeps
  have hattached := hkeeps.intact.attached
  rw [halt.parent, halt.branches, BranchList.foldl_transfer_detached (ownBranches_ne_nil hbad)
    (Bool.eq_false_iff.mpr fun h => (ownBranches_attached c _).mp h hbad)] at hattached
  cases hattached

/-- A new automaton next to old ones that keep their nodes. -/
theorem cons {rest : List Addr} (hb : BranchStack c branches) (hsub : rest ⊆ branches)
    (hsame : ∀ r ∈ rest, c'.heap r = c.heap r ∧ c'.heap (c.heap r).parent = c.heap (c.heap r).parent)
    (howned : ∃ live frag, Owned c' (t :: rest) live frag)
    (ht : c'.isNfaTree t = true → (c'.heap (c'.heap t).parent).branches.Intact ∧
      (c'.heap (c'.heap t).parent).branches.items.Nodup) : BranchStack c' (t :: rest) := by
  have htree : ∀ r ∈ rest, c'.isNfaTree r = true → c.isNfaTree r = true := by
    intro r hr htree
    unfold NFACtrl.isNfaTree at htree ⊢
    rwa [(hsame r hr).1, (hsame r hr).2] at htree
  refine ⟨howned, ?_, ?_⟩
  · refine List.forall_mem_cons.mpr ⟨fun h => (ht h).1, fun r hr h => ?_⟩
    rw [(hsame r hr).1, (hsame r hr).2]
    exact hb.intact r (hsub hr) (htree r hr h)
  · refine List.forall_mem_cons.mpr ⟨fun h => (ht h).2, fun r hr h => ?_⟩
    rw [(hsame r hr).1, (hsame r hr).2]
    exact hb.nodup r (hsub hr) (htree r hr h)

/-- The alternation and the entries that are left are a branch stack again. -/
theorem newAlternationNfa (hb : BranchStack c branches) (htwo : 2 ≤ n) (hne : branches ≠ [])
    (hgood : ¬ KeepsTail c (branches.take n)) :
    ∃ t c', c.newAlternationNfa branches n = some (t, branches.drop n, c') ∧
      KeepsBranches c c' (branches.take n) t ∧ BranchStack c' (t :: branches.drop n) := by
  obtain ⟨live, frag, ho⟩ := hb.owned
  obtain ⟨t, s, c', hrun, halt, howned⟩ := ho.newAlternationNfa htwo hne
  have hkeeps := hb.keepsBranches (List.take_sublist n branches) halt hgood
  have hS := ho.shape
  have hsplit : (branches.take n ++ branches.drop n).Nodup := by
    rw [List.take_append_drop]
    exact hS.nodup
  refine ⟨t, c', hrun, hkeeps, hb.cons (List.drop_subset n branches) (fun r hr => ?_) howned
    fun _ => ⟨hkeeps.intact, hkeeps.nodup⟩⟩
  have hmem := List.mem_of_mem_drop hr
  obtain ⟨hstart, hfrag, hne'⟩ := hS.start r hmem
  refine ⟨halt.old r (hS.root r hmem).1 fun hr' => ?_, halt.old _ hstart fun hr' => hne' ?_⟩
  · exact (List.nodup_append.mp hsplit).2.2 r hr' r hr rfl
  · exact (hS.root _ (List.mem_of_mem_take hr')).2.1.symm.trans hfrag

/-- A literal goes onto the stack. -/
theorem newLiteralNfa (hb : BranchStack c branches) (ch : Int) :
    BranchStack (c.newLiteralNfa ch .literal).2 ((c.newLiteralNfa ch .literal).1 :: branches) := by
  obtain ⟨live, frag, ho⟩ := hb.owned
  obtain ⟨t, s, c', hrun, hnew, ht, hs, hsame, hseq⟩ := ho.alloc.newLiteralNfa ch .literal
  have howned : ∃ live' frag', Owned c' (t :: branches) live' frag' := by
    refine ho.newPair hnew ht hs ?_ (by simp [NFA.renewed]) hsame ?_
    · rw [NFA.targets_eq (by simp [NFA.renewed])]
    · rw [hseq]
      split <;> omega
  rw [hrun]
  refine hb.cons (List.Subset.refl branches) (fun r hr => ?_) howned fun htree => ?_
  · have hold : ∀ a ∈ live, c'.heap a = c.heap a := fun a ha =>
      hsame a (fun h => hnew.root (h ▸ ha)) fun h => hnew.start (h ▸ ha)
    exact ⟨hold r (ho.shape.root r hr).1, hold _ (ho.shape.start r hr).1⟩
  · have hparent : (c'.heap t).parent = s := by rw [ht]
    have htype := (of_decide_eq_true htree).2
    rw [hparent, hs] at htype
    cases htype

end BranchStack

/-- **Alternations.** The alternation keeps every branch, unless the last of the entries begins
with a `TREE` node and at least two of them do not. -/
theorem newAlternationNfa_keeps_iff {n : Nat} (hb : BranchStack c branches) (htwo : 2 ≤ n)
    (hn : n ≤ branches.length) : ∃ t rest c', c.newAlternationNfa branches n = some (t, rest, c') ∧
      (KeepsBranches c c' (branches.take n) t ∧ rest = branches.drop n ↔
        ¬ KeepsTail c (branches.take n)) := by
  obtain ⟨live, frag, ho⟩ := hb.owned
  have hne : branches ≠ [] := by
    rintro rfl
    simp only [List.length_nil] at hn
    omega
  obtain ⟨t, s, c', hrun, halt, -⟩ := ho.newAlternationNfa htwo hne
  refine ⟨t, _, c', hrun, fun h hbad => BranchStack.not_keepsBranches halt hbad h.1,
    fun hgood => ⟨?_, rfl⟩⟩
  exact hb.keepsBranches (List.take_sublist n branches) halt hgood

/-- A letter goes onto a branch stack. -/
def pushLetter (p : List Addr × NFACtrl) (ch : Int) : List Addr × NFACtrl :=
  ((p.2.newLiteralNfa ch .literal).1 :: p.1, (p.2.newLiteralNfa ch .literal).2)

/-- The branch stack of the letters of a text. -/
def letterStack (text : List Int) : List Addr × NFACtrl :=
  text.foldl pushLetter ([], ({} : NFACtrl).allocInit 20)

theorem branchStack_foldl {p : List Addr × NFACtrl} (hb : BranchStack p.2 p.1) (text : List Int) :
    BranchStack (text.foldl pushLetter p).2 (text.foldl pushLetter p).1 := by
  induction text generalizing p with
  | nil => exact hb
  | cons ch text ih => exact ih (hb.newLiteralNfa ch)

theorem branchStack_letterStack (text : List Int) :
    BranchStack (letterStack text).2 (letterStack text).1 := by
  apply branchStack_foldl
  exact ⟨(Built.init (by decide)).spelling.owned, List.forall_mem_nil _, List.forall_mem_nil _⟩

/-- The alternation of `a` and `b`. -/
theorem newAlternationNfa_keeps_iff_letters : ∃ t rest c',
    (letterStack (bytes "ab")).2.newAlternationNfa (letterStack (bytes "ab")).1 2 =
        some (t, rest, c') ∧
      KeepsBranches (letterStack (bytes "ab")).2 c' ((letterStack (bytes "ab")).1.take 2) t := by
  obtain ⟨t, rest, c', hrun, hkeeps⟩ := newAlternationNfa_keeps_iff
    (branchStack_letterStack (bytes "ab")) (le_refl 2) (by decide)
  exact ⟨t, rest, c', hrun, (hkeeps.mpr (by decide +kernel)).1⟩

/-- The branch stack of `(a|b)`, `d` and `e`, as it is at the end of `((a|b)|d|e)`. -/
def nestedStack : Option (List Addr × NFACtrl) :=
  ((letterStack (bytes "ab")).2.newAlternationNfa (letterStack (bytes "ab")).1 2).map fun r =>
    (bytes "de").foldl pushLetter (r.1 :: r.2.1, r.2.2)

/-- Two letters in front of an alternation make it lose its branches. -/
theorem nested_alternation_lost : ∃ c branches t rest c', BranchStack c branches ∧
    branches.length = 3 ∧ c.newAlternationNfa branches 3 = some (t, rest, c') ∧
      ¬ KeepsBranches c c' (branches.take 3) t := by
  have hcheck : nestedStack.map (fun p => decide (p.1.length = 3 ∧ KeepsTail p.2 p.1)) =
      some true := by decide +kernel
  obtain ⟨p, hp, hcheck⟩ := Option.map_eq_some_iff.mp hcheck
  obtain ⟨hlen, hbad⟩ := of_decide_eq_true hcheck
  obtain ⟨t, c', hrun, -, hstack⟩ := (branchStack_letterStack (bytes "ab")).newAlternationNfa
    (le_refl 2) (by decide) (by decide +kernel)
  have hb : BranchStack p.2 p.1 := by
    unfold nestedStack at hp
    rw [hrun] at hp
    obtain rfl := Option.some.inj hp
    exact branchStack_foldl hstack (bytes "de")
  obtain ⟨live, frag, ho⟩ := hb.owned
  have hne : p.1 ≠ [] := fun h => by simp [h] at hlen
  obtain ⟨t', s, c'', hrun', halt, -⟩ := ho.newAlternationNfa (n := 3) (by decide) hne
  refine ⟨p.2, p.1, t', _, c'', hb, hlen, hrun', BranchStack.not_keepsBranches halt ?_⟩
  rwa [← hlen, List.take_length]

end Recognizer
