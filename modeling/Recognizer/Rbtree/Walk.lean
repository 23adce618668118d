import Recognizer.Rbtree.Shape
import Mathlib.Data.List.Perm.Basic

/-!
# Reading a tree in memory

The least and the greatest node, the neighbours of a node in order, and the search.
-/

namespace Recognizer

namespace Rbtree

open RedBlack (Color RbTree Ctx)

variable {m : RBTreeCtrl} {t : RbTree Nat} {ctx up : Ctx Nat} {a p root : Nat}

/-- The loop of `rbtree_min` ends at the first node of a tree. -/
theorem minLoop_at {fuel : Nat} (h : At m.nodes t a p) (hfuel : t.toList.length < fuel) :
    m.minLoop fuel a = some (t.toList.headD 0) := by
  induction t generalizing a p fuel with
  | nil =>
    obtain ⟨k, rfl⟩ : ∃ k, fuel = k + 1 := ⟨fuel - 1, by omega⟩
    have ha : a = 0 := h
    rw [RBTreeCtrl.minLoop, if_neg fun hne => hne.1 ha, ha]
    rfl
  | node c l x r ihl _ =>
    obtain ⟨k, rfl⟩ : ∃ k, fuel = k + 1 := ⟨fuel - 1, by omega⟩
    obtain ⟨rfl, ha, -, -, hl, -⟩ := h
    rw [RedBlack.RbTree.toList_node, List.length_append, List.length_cons] at hfuel
    rw [RBTreeCtrl.minLoop]
    cases l with
    | nil =>
      have hleft : (m.nodes a).left = 0 := hl
      rw [if_neg fun hne => hne.2 hleft]
      rfl
    | node c' l' y r' =>
      rw [if_pos ⟨ha, hl.1 ▸ hl.2.1⟩, ihl hl (by omega)]
      cases hlist : l'.toList with
      | nil => simp [hlist]
      | cons z zs => simp [hlist]

/-- The loop of `rbtree_max` ends at the last node of a tree. -/
theorem maxLoop_at {fuel : Nat} (h : At m.nodes t a p) (hfuel : t.toList.length < fuel) :
    m.maxLoop fuel a = some (t.toList.getLastD 0) := by
  induction t generalizing a p fuel with
  | nil =>
    obtain ⟨k, rfl⟩ : ∃ k, fuel = k + 1 := ⟨fuel - 1, by omega⟩
    have ha : a = 0 := h
    rw [RBTreeCtrl.maxLoop, if_neg fun hne => hne.1 ha, ha]
    rfl
  | node c l x r _ ihr =>
    obtain ⟨k, rfl⟩ : ∃ k, fuel = k + 1 := ⟨fuel - 1, by omega⟩
    obtain ⟨rfl, ha, -, -, -, hr⟩ := h
    rw [RedBlack.RbTree.toList_node, List.length_append, List.length_cons] at hfuel
    rw [RBTreeCtrl.maxLoop]
    cases r with
    | nil =>
      have hright : (m.nodes a).right = 0 := hr
      rw [if_neg fun hne => hne.2 hright]
      simp
    | node c' l' y r' =>
      rw [if_pos ⟨ha, hr.1 ▸ hr.2.1⟩, ihr hr (by omega)]
      simp [List.getLast?_cons]

/-- The climb of `rbtree_successor` ends at the first node behind a subtree. -/
theorem climbRight_at {fuel : Nat} (h : At m.nodes (ctx.plug t) root 0)
    (hnodup : (ctx.plug t).toList.Nodup) (ht : rootOf t ≠ 0)
    (hfuel : (ctx.before ++ ctx.after).length < fuel) :
    m.climbRight fuel (rootOf t) (parentOf ctx) = some (ctx.after.headD 0) := by
  induction ctx generalizing t fuel with
  | root =>
    obtain ⟨k, rfl⟩ : ∃ k, fuel = k + 1 := ⟨fuel - 1, by omega⟩
    rw [RBTreeCtrl.climbRight, if_neg fun hne => hne.1 rfl]
    rfl
  | left c q r up _ =>
    obtain ⟨k, rfl⟩ : ∃ k, fuel = k + 1 := ⟨fuel - 1, by omega⟩
    obtain ⟨-, -, hright⟩ := onSide_rootOf h hnodup ht
    rw [RBTreeCtrl.climbRight, if_neg fun hne => hright hne.2.symm]
    rfl
  | right c l q up ih =>
    obtain ⟨k, rfl⟩ : ∃ k, fuel = k + 1 := ⟨fuel - 1, by omega⟩
    obtain ⟨hq, -, hright, -, hparent, -⟩ := (at_plug_iff.mp h).1
    rw [RBTreeCtrl.climbRight, parentOf, if_pos ⟨hq, hright.symm⟩, hparent]
    have hk : (up.before ++ up.after).length < k := by
      simp only [RedBlack.Ctx.before, RedBlack.Ctx.after, List.length_append] at hfuel ⊢
      simp only [List.length_cons] at hfuel
      omega
    exact ih h hnodup (show rootOf (.node c l q t) ≠ 0 from hq) hk

/-- The climb of `rbtree_predecessor` ends at the last node in front of a subtree. -/
theorem climbLeft_at {fuel : Nat} (h : At m.nodes (ctx.plug t) root 0)
    (hnodup : (ctx.plug t).toList.Nodup) (ht : rootOf t ≠ 0)
    (hfuel : (ctx.before ++ ctx.after).length < fuel) :
    m.climbLeft fuel (rootOf t) (parentOf ctx) = some (ctx.before.getLastD 0) := by
  induction ctx generalizing t fuel with
  | root =>
    obtain ⟨k, rfl⟩ : ∃ k, fuel = k + 1 := ⟨fuel - 1, by omega⟩
    rw [RBTreeCtrl.climbLeft, if_neg fun hne => hne.1 rfl]
    rfl
  | left c q r up ih =>
    obtain ⟨k, rfl⟩ : ∃ k, fuel = k + 1 := ⟨fuel - 1, by omega⟩
    obtain ⟨hq, -, hright⟩ := onSide_rootOf h hnodup ht
    obtain ⟨-, -, -, -, hparent, -⟩ := (at_plug_iff.mp h).1
    rw [RBTreeCtrl.climbLeft, parentOf, if_pos ⟨hq, hright.symm⟩, hparent]
    have hk : (up.before ++ up.after).length < k := by
      simp only [RedBlack.Ctx.before, RedBlack.Ctx.after, List.length_append] at hfuel ⊢
      simp only [List.length_cons] at hfuel
      omega
    exact ih h hnodup (show rootOf (.node c t q r) ≠ 0 from hq) hk
  | right c l q up _ =>
    obtain ⟨k, rfl⟩ : ∃ k, fuel = k + 1 := ⟨fuel - 1, by omega⟩
    obtain ⟨-, hright, -⟩ := onSide_rootOf h hnodup ht
    rw [RBTreeCtrl.climbLeft, if_neg fun hne => hne.2 hright.symm]
    simp [parentOf, RedBlack.Ctx.before]

/-- `rbtree_successor` finds the next node of a tree. -/
theorem rbtreeSuccessor_at {xs ys : List Nat} {x : Nat} (h : At m.nodes t root 0)
    (hnodup : t.toList.Nodup) (hlist : t.toList = xs ++ x :: ys)
    (hnext : t.toList.length < m.next) : m.rbtreeSuccessor x = some (ys.headD 0) := by
  obtain ⟨ctx, c, l, r, rfl, -, rfl⟩ := RedBlack.Ctx.exists_plug hlist
  have hsub := (at_plug_iff.mp h).2
  obtain ⟨-, hx, -, hparent, -, hr⟩ := hsub
  rw [RedBlack.Ctx.toList_plug, RedBlack.RbTree.toList_node] at hnext
  simp only [List.length_append, List.length_cons] at hnext
  rw [RBTreeCtrl.rbtreeSuccessor, if_neg hx]
  cases r with
  | nil =>
    have hright : (m.nodes x).right = 0 := hr
    rw [if_neg fun hne => hne hright, hparent]
    have hfuel : (ctx.before ++ ctx.after).length < m.next := by
      rw [List.length_append]
      omega
    have hclimb : m.climbRight m.next x (parentOf ctx) = some (ctx.after.headD 0) :=
      climbRight_at h hnodup hx hfuel
    simpa using hclimb
  | node c' l' y r' =>
    rw [if_pos (hr.1 ▸ hr.2.1), RBTreeCtrl.rbtreeMin, minLoop_at hr (by omega)]
    cases hl' : l'.toList with
    | nil => simp [hl']
    | cons z zs => simp [hl']

/-- `rbtree_predecessor` finds the node before a node of a tree. -/
theorem rbtreePredecessor_at {xs ys : List Nat} {x : Nat} (h : At m.nodes t root 0)
    (hnodup : t.toList.Nodup) (hlist : t.toList = xs ++ x :: ys)
    (hnext : t.toList.length < m.next) : m.rbtreePredecessor x = some (xs.getLastD 0) := by
  obtain ⟨ctx, c, l, r, rfl, rfl, -⟩ := RedBlack.Ctx.exists_plug hlist
  have hsub := (at_plug_iff.mp h).2
  obtain ⟨-, hx, -, hparent, hl, -⟩ := hsub
  rw [RedBlack.Ctx.toList_plug, RedBlack.RbTree.toList_node] at hnext
  simp only [List.length_append, List.length_cons] at hnext
  rw [RBTreeCtrl.rbtreePredecessor, if_neg hx]
  cases l with
  | nil =>
    have hleft : (m.nodes x).left = 0 := hl
    have hfuel : (ctx.before ++ ctx.after).length < m.next := by
      rw [List.length_append]
      omega
    have hclimb : m.climbLeft m.next x (parentOf ctx) = some (ctx.before.getLastD 0) :=
      climbLeft_at h hnodup hx hfuel
    rw [if_neg fun hne => hne hleft, hparent]
    have hside := onSide_rootOf h hnodup hx
    cases ctx with
    | root => rfl
    | left c' q r' up =>
      rw [parentOf, if_pos ⟨hside.1, hside.2.1.symm⟩]
      simpa [parentOf] using hclimb
    | right c' l' q up =>
      rw [parentOf, if_neg fun hne => hside.2.2 hne.2.symm]
      simp [RedBlack.Ctx.before]
  | node c' l' y r' =>
    rw [if_pos (hl.1 ▸ hl.2.1), RBTreeCtrl.rbtreeMax, maxLoop_at hl (by omega)]
    simp [List.getLast?_cons]

/-- The nodes that a way through the tree visits from `a` on. -/
def walk (step : Nat → Option Nat) : Nat → Nat → Option (List Nat)
  | 0, _ => none
  | n + 1, a =>
    if a = 0 then some []
    else do
      let b ← step a
      let rest ← walk step n b
      some (a :: rest)

/-- The walk of `rbtree_successor` from `rbtree_min` on. -/
def ascending (m : RBTreeCtrl) : Option (List Nat) := do
  let a ← m.rbtreeMin m.root
  walk m.rbtreeSuccessor m.next a

/-- The walk of `rbtree_predecessor` from `rbtree_max` on. -/
def descending (m : RBTreeCtrl) : Option (List Nat) := do
  let a ← m.rbtreeMax m.root
  walk m.rbtreePredecessor m.next a

/-- A walk whose steps go from each element of a list to the next visits the list. -/
theorem walk_eq {step : Nat → Option Nat} {l : List Nat} (hzero : 0 ∉ l)
    (hstep : ∀ xs x ys, l = xs ++ x :: ys → step x = some (ys.headD 0))
    {fuel : Nat} (hfuel : l.length < fuel) : walk step fuel (l.headD 0) = some l := by
  induction l generalizing fuel with
  | nil =>
    obtain ⟨k, rfl⟩ : ∃ k, fuel = k + 1 := ⟨fuel - 1, by omega⟩
    rfl
  | cons x l ih =>
    obtain ⟨k, rfl⟩ : ∃ k, fuel = k + 1 := ⟨fuel - 1, by omega⟩
    rw [List.length_cons] at hfuel
    have hx : x ≠ 0 := fun heq => hzero (heq ▸ List.mem_cons_self)
    have hrest := ih (fun hin => hzero (List.mem_cons_of_mem x hin))
      (fun xs y ys heq => hstep (x :: xs) y ys (by rw [heq]; rfl)) (show l.length < k by omega)
    simp only [walk, List.headD_cons, if_neg hx, hstep [] x l rfl, hrest, Option.bind_eq_bind,
      Option.bind_some]

/-- The successors walk through the tree in order. -/
theorem ascending_at (h : At m.nodes t m.root 0) (hnodup : t.toList.Nodup)
    (hnext : t.toList.length < m.next) : ascending m = some t.toList := by
  have hmin : m.rbtreeMin m.root = some (t.toList.headD 0) := minLoop_at h hnext
  have hwalk := walk_eq h.zero_notMem
    (fun _ _ _ hlist => rbtreeSuccessor_at h hnodup hlist hnext) hnext
  simp only [ascending, hmin, Option.bind_eq_bind, Option.bind_some, hwalk]

/-- The predecessors walk through the tree in reverse. -/
theorem descending_at (h : At m.nodes t m.root 0) (hnodup : t.toList.Nodup)
    (hnext : t.toList.length < m.next) : descending m = some t.toList.reverse := by
  have hhead : ∀ l : List Nat, l.reverse.headD 0 = l.getLastD 0 := fun l => by
    rw [List.headD_eq_head?_getD, List.head?_reverse, List.getLastD_eq_getLast?]
  have hmax : m.rbtreeMax m.root = some (t.toList.reverse.headD 0) := by
    rw [hhead]
    exact maxLoop_at h hnext
  have hstep : ∀ xs x ys, t.toList.reverse = xs ++ x :: ys →
      m.rbtreePredecessor x = some (ys.headD 0) := by
    intro xs x ys hlist
    have hsplit : t.toList = ys.reverse ++ x :: xs.reverse := by
      rw [← List.reverse_reverse t.toList, hlist]
      simp
    rw [rbtreePredecessor_at h hnodup hsplit hnext, ← hhead, List.reverse_reverse]
  have hwalk : walk m.rbtreePredecessor m.next (t.toList.reverse.headD 0) =
      some t.toList.reverse :=
    walk_eq (by simpa using h.zero_notMem) hstep (by simpa using hnext)
  simp only [descending, hmax, Option.bind_eq_bind, Option.bind_some, hwalk]

/-- The loop of `rbtree_search` finds a node with the key exactly if there is one. -/
theorem searchLoop_at {key : Int} {fuel : Nat} (h : At m.nodes t a p)
    (hsorted : t.toList.Pairwise fun x y => (m.nodes x).key ≤ (m.nodes y).key)
    (hfuel : t.toList.length < fuel) :
    ∃ x, m.searchLoop key fuel a = some x ∧
      ((x = 0 ∧ ∀ y ∈ t.toList, (m.nodes y).key ≠ key) ∨
        (x ∈ t.toList ∧ (m.nodes x).key = key)) := by
  induction t generalizing a p fuel with
  | nil =>
    obtain ⟨k, rfl⟩ : ∃ k, fuel = k + 1 := ⟨fuel - 1, by omega⟩
    have ha : a = 0 := h
    refine ⟨a, ?_, .inl ⟨ha, by simp⟩⟩
    rw [RBTreeCtrl.searchLoop, if_neg fun hne => hne.1 ha]
  | node c l x r ihl ihr =>
    obtain ⟨k, rfl⟩ : ∃ k, fuel = k + 1 := ⟨fuel - 1, by omega⟩
    obtain ⟨rfl, ha, -, -, hl, hr⟩ := h
    rw [RedBlack.RbTree.toList_node, List.length_append, List.length_cons] at hfuel
    rw [RedBlack.RbTree.toList_node, List.pairwise_append, List.pairwise_cons] at hsorted
    obtain ⟨hsl, ⟨har, hsr⟩, hlr⟩ := hsorted
    by_cases hkey : (m.nodes a).key = key
    · refine ⟨a, ?_, .inr ⟨by simp, hkey⟩⟩
      rw [RBTreeCtrl.searchLoop, if_neg fun hne => hne.2 hkey]
    by_cases hlt : key < (m.nodes a).key
    · obtain ⟨x, hx, hcase⟩ := ihl hl hsl (show l.toList.length < k by omega)
      refine ⟨x, ?_, ?_⟩
      · rw [RBTreeCtrl.searchLoop, if_pos ⟨ha, hkey⟩, if_pos hlt, hx]
      · rcases hcase with ⟨rfl, hnone⟩ | ⟨hin, hxkey⟩
        · refine .inl ⟨rfl, fun y hy => ?_⟩
          rw [RedBlack.RbTree.toList_node, List.mem_append, List.mem_cons] at hy
          rcases hy with hy | rfl | hy
          · exact hnone y hy
          · exact hkey
          · have hle := har y hy
            omega
        · exact .inr ⟨by simp [hin], hxkey⟩
    · obtain ⟨x, hx, hcase⟩ := ihr hr hsr (show r.toList.length < k by omega)
      refine ⟨x, ?_, ?_⟩
      · rw [RBTreeCtrl.searchLoop, if_pos ⟨ha, hkey⟩, if_neg hlt, hx]
      · rcases hcase with ⟨rfl, hnone⟩ | ⟨hin, hxkey⟩
        · refine .inl ⟨rfl, fun y hy => ?_⟩
          rw [RedBlack.RbTree.toList_node, List.mem_append, List.mem_cons] at hy
          rcases hy with hy | rfl | hy
          · have hle := hlr y hy a List.mem_cons_self
            omega
          · exact hkey
          · exact hnone y hy
        · exact .inr ⟨by simp [hin], hxkey⟩

/-- `rbtree_search` finds the keys of the tree and no others. -/
theorem rbtreeSearch_at (key : Int) (h : At m.nodes t m.root 0)
    (hsorted : t.toList.Pairwise fun x y => (m.nodes x).key ≤ (m.nodes y).key)
    (hnext : t.toList.length < m.next) :
    ∃ x, m.rbtreeSearch m.root key = some x ∧
      ((x = 0 ∧ ∀ y ∈ t.toList, (m.nodes y).key ≠ key) ∨
        (x ∈ t.toList ∧ (m.nodes x).key = key)) :=
  searchLoop_at h hsorted hnext

end Rbtree

end Recognizer
