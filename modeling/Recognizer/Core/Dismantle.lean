import Recognizer.Core.RedBlack
import Mathlib.Data.List.Nodup

/-!
# Taking a tree apart

A tree is taken apart from the left with a cursor that is at a node without a left child.
The node at the cursor goes together with all that hangs below it on the right, so the order
in which the cursor visits the nodes decides which ones are left over.
-/

namespace Recognizer

namespace RedBlack

open RbTree (node)

variable {α : Type*}

/-- A place in a tree that has no left child. -/
structure Cursor (α : Type*) where
  ctx : Ctx α
  color : Color
  val : α
  right : RbTree α

namespace RbTree

/-- The node at the root has a right child but no left one. -/
def bare : RbTree α → Bool
  | node _ .nil _ (node ..) => true
  | _ => false

/-- No left child has a right child but no left one. -/
def NoBareLeft : RbTree α → Prop
  | .nil => True
  | node _ l _ r => l.bare = false ∧ l.NoBareLeft ∧ r.NoBareLeft

/-- What is left over of a tree that the cursor enters; the flag says that the cursor comes
from above on its way down to the left and does not turn to the right any more. -/
def leftover : Bool → RbTree α → List α
  | _, .nil => []
  | goingLeft, node _ .nil _ r => if goingLeft then r.toList else leftover false r
  | _, node _ (node c l x s) _ r => leftover true (node c l x s) ++ leftover false r

@[simp] theorem leftover_nil (b : Bool) : leftover b (.nil : RbTree α) = [] := rfl

/-- Only nodes of the tree are left over. -/
theorem leftover_subset (b : Bool) (t : RbTree α) : leftover b t ⊆ t.toList := by
  induction b, t using leftover.induct with
  | case1 => simp
  | case2 c x r =>
    rw [leftover, if_pos rfl]
    exact fun y hy => by simp [hy]
  | case3 b c x r hb ih =>
    rw [leftover, if_neg hb]
    exact fun y hy => by simp [ih hy]
  | case4 _ c x r c' l y s ihl ihr =>
    rw [leftover]
    intro z hz
    rw [toList_node, List.mem_append, List.mem_cons]
    rcases List.mem_append.mp hz with hz | hz
    · exact .inl (ihl hz)
    · exact .inr (.inr (ihr hz))

/-- Nothing is left over exactly if no left child is bare. -/
theorem leftover_eq_nil_iff (b : Bool) (t : RbTree α) :
    leftover b t = [] ↔ (b = true → t.bare = false) ∧ t.NoBareLeft := by
  induction b, t using leftover.induct with
  | case1 => simp [bare, NoBareLeft]
  | case2 c x r =>
    rw [leftover, if_pos rfl]
    cases r with
    | nil => simp [bare, NoBareLeft]
    | node c' l' x' r' => simp [bare]
  | case3 b c x r hb ih =>
    rw [leftover, if_neg hb, ih]
    simp [hb, bare, NoBareLeft]
  | case4 _ c x r c' l y s ihl ihr =>
    rw [leftover, List.append_eq_nil_iff, ihl, ihr]
    simp [bare, NoBareLeft, and_assoc]

end RbTree

namespace Ctx

/-- There is nothing on the left of the way to the hole. -/
def LeftGone : Ctx α → Prop
  | root => True
  | left _ _ _ up => up.LeftGone
  | right _ l _ up => l = .nil ∧ up.LeftGone

/-- The hole is a left child. -/
def IsLeft : Ctx α → Prop
  | left .. => True
  | _ => False

/-- No left child in what is still to be entered is bare. -/
def NoBareLeft : Ctx α → Prop
  | root => True
  | left _ _ r up => r.NoBareLeft ∧ up.NoBareLeft
  | right _ _ _ up => up.NoBareLeft

/-- What is left over of the subtrees that are still to be entered. -/
def leftover : Ctx α → List α
  | root => []
  | left _ _ r up => r.leftover false ++ up.leftover
  | right _ _ _ up => up.leftover

theorem leftover_subset (ctx : Ctx α) : ctx.leftover ⊆ ctx.after := by
  induction ctx with
  | root => simp [leftover]
  | left c p r up ih =>
    intro y hy
    rw [after, List.mem_append, List.mem_cons]
    rcases List.mem_append.mp hy with hy | hy
    · exact .inl (.inr (r.leftover_subset false hy))
    · exact .inr (ih hy)
  | right c l p up ih => exact ih

theorem leftover_eq_nil_iff (ctx : Ctx α) : ctx.leftover = [] ↔ ctx.NoBareLeft := by
  induction ctx with
  | root => simp [leftover, NoBareLeft]
  | left c p r up ih =>
    rw [leftover, List.append_eq_nil_iff, RbTree.leftover_eq_nil_iff, ih]
    simp [NoBareLeft]
  | right c l p up ih => exact ih

end Ctx

namespace Cursor

variable {ctx : Ctx α} {c : Color} {x a : α} {l r t : RbTree α} {z z' : Cursor α}

/-- The tree the cursor is in. -/
def tree (z : Cursor α) : RbTree α := z.ctx.plug (node z.color .nil z.val z.right)

/-- Down to the left as far as possible. -/
def leftmost : Ctx α → Color → RbTree α → α → RbTree α → Cursor α
  | ctx, c, .nil, x, r => ⟨ctx, c, x, r⟩
  | ctx, c, node c' l y s, x, r => leftmost (.left c x r ctx) c' l y s

/-- Down to the right while there is no left child, and then to the left. -/
def settle : Ctx α → RbTree α → Option (Cursor α)
  | _, .nil => none
  | ctx, node c .nil x .nil => some ⟨ctx, c, x, .nil⟩
  | ctx, node c .nil x (node c' l y s) => settle (.right c .nil x ctx) (node c' l y s)
  | ctx, node c (node c' l y s) x r => some (leftmost ctx c (node c' l y s) x r)

/-- The cursor once its node is taken. -/
def advance (z : Cursor α) : Option (Cursor α) :=
  match z.ctx with
  | .root => settle .root z.right
  | .left c p r up => some ((settle (.right c .nil p up) r).getD ⟨up, c, p, .nil⟩)
  | .right c _ p up => some ⟨up, c, p, .nil⟩

/-- The tree that is left once the node at the cursor is taken with all that hangs below it. -/
def rest (z : Cursor α) : RbTree α :=
  match z.ctx with
  | .root => z.right
  | ctx => ctx.plug .nil

/-- How the cursor comes to its place. -/
structure Settled (z : Cursor α) : Prop where
  leftGone : z.ctx.LeftGone
  leaf : z.right = .nil ∨ z.ctx.IsLeft

/-- What is left over in the end. -/
def leftover (z : Cursor α) : List α := z.right.toList ++ z.ctx.leftover

/-- Neither the node at the cursor nor a left child that is still to be entered is bare. -/
def Unstranded (z : Cursor α) : Prop := z.right = .nil ∧ z.ctx.NoBareLeft

theorem leftover_eq_nil_iff (z : Cursor α) : z.leftover = [] ↔ z.Unstranded := by
  rw [leftover, List.append_eq_nil_iff, Ctx.leftover_eq_nil_iff, Unstranded]
  cases z.right with
  | nil => simp
  | node c l x r => simp

theorem toList_tree (z : Cursor α) :
    z.tree.toList = z.ctx.before ++ (z.val :: z.right.toList ++ z.ctx.after) := by
  rw [tree, Ctx.toList_plug]
  rfl

theorem val_mem (z : Cursor α) : z.val ∈ z.tree.toList := by
  simp [toList_tree]

/-- The node at the cursor is not left over. -/
theorem val_notMem_leftover (hnodup : z.tree.toList.Nodup) : z.val ∉ z.leftover := by
  rw [toList_tree, List.nodup_append] at hnodup
  have hval := (List.nodup_cons.mp hnodup.2.1).1
  intro hin
  rcases List.mem_append.mp hin with hin | hin
  · exact hval (List.mem_append_left _ hin)
  · exact hval (List.mem_append_right _ (z.ctx.leftover_subset hin))

section Leftmost

theorem tree_leftmost : (leftmost ctx c l x r).tree = ctx.plug (node c l x r) := by
  induction l generalizing ctx c x r with
  | nil => rfl
  | node c' l' y s ih _ => exact ih

theorem leftover_leftmost :
    (leftmost ctx c l x r).leftover = (node c l x r).leftover true ++ ctx.leftover := by
  induction l generalizing ctx c x r with
  | nil => rfl
  | node c' l' y s ih _ =>
    rw [leftmost, ih, Ctx.leftover, RbTree.leftover, List.append_assoc]

theorem settled_leftmost (hctx : ctx.LeftGone) (h : (leftmost ctx c l x r).right = .nil ∨
    ctx.IsLeft ∨ l ≠ .nil) : (leftmost ctx c l x r).Settled := by
  induction l generalizing ctx c x r with
  | nil => exact ⟨hctx, by simpa [leftmost] using h⟩
  | node c' l' y s ih _ => exact ih hctx (.inr (.inl trivial))

theorem leftGone_leftmost (hctx : ctx.LeftGone) : (leftmost ctx c l x r).ctx.LeftGone := by
  induction l generalizing ctx c x r with
  | nil => exact hctx
  | node c' l' y s ih _ => exact ih hctx

/-- The value at the cursor does not depend on the context. -/
theorem val_leftmost (d : α) : (leftmost ctx c l x r).val = (node c l x r).toList.headD d := by
  induction l generalizing ctx c x r with
  | nil => rfl
  | node c' l' y s ih _ =>
    rw [leftmost, ih, RbTree.toList_node c]
    cases hlist : (node c' l' y s).toList with
    | nil => simp at hlist
    | cons a as => rfl

end Leftmost

section Settle

/-- A tree with a node has a place for the cursor. -/
theorem exists_settle (ctx : Ctx α) (ht : t ≠ .nil) : ∃ z, settle ctx t = some z := by
  induction ctx, t using settle.induct with
  | case1 => exact absurd rfl ht
  | case2 ctx c x => exact ⟨_, rfl⟩
  | case3 ctx c x c' l y s ih => exact ih nofun
  | case4 ctx c c' l y s x r => exact ⟨_, rfl⟩

theorem tree_settle (h : settle ctx t = some z) : z.tree = ctx.plug t := by
  induction ctx, t using settle.induct with
  | case1 => cases h
  | case2 ctx c x =>
    obtain rfl := Option.some.inj h
    rfl
  | case3 ctx c x c' l y s ih => exact ih h
  | case4 ctx c c' l y s x r =>
    obtain rfl := Option.some.inj h
    exact tree_leftmost

theorem leftover_settle (h : settle ctx t = some z) :
    z.leftover = t.leftover false ++ ctx.leftover := by
  induction ctx, t using settle.induct with
  | case1 => cases h
  | case2 ctx c x =>
    obtain rfl := Option.some.inj h
    rfl
  | case3 ctx c x c' l y s ih =>
    rw [ih h, RbTree.leftover, if_neg Bool.false_ne_true]
    rfl
  | case4 ctx c c' l y s x r =>
    obtain rfl := Option.some.inj h
    rw [leftover_leftmost, RbTree.leftover, RbTree.leftover]

theorem settled_settle (hctx : ctx.LeftGone) (h : settle ctx t = some z) : z.Settled := by
  induction ctx, t using settle.induct with
  | case1 => cases h
  | case2 ctx c x =>
    obtain rfl := Option.some.inj h
    exact ⟨hctx, .inl rfl⟩
  | case3 ctx c x c' l y s ih => exact ih ⟨rfl, hctx⟩ h
  | case4 ctx c c' l y s x r =>
    obtain rfl := Option.some.inj h
    exact settled_leftmost hctx (.inr (.inr nofun))

end Settle

section Advance

/-- The cursor goes on in the tree that is left. -/
theorem tree_advance (hz : z.Settled) (h : z.advance = some z') : z'.tree = z.rest := by
  obtain ⟨ctx, c, x, r⟩ := z
  cases ctx with
  | root => exact tree_settle h
  | left c' p s up =>
    obtain rfl := Option.some.inj h
    cases hsettle : settle (.right c' .nil p up) s with
    | none =>
      have hnil : s = .nil := by
        by_contra hne
        obtain ⟨z, hz⟩ := exists_settle (.right c' .nil p up) hne
        rw [hz] at hsettle
        cases hsettle
      subst hnil
      rfl
    | some z =>
      have htree : z.tree = (Ctx.right c' .nil p up).plug s := tree_settle hsettle
      exact htree
  | right c' l p up =>
    obtain rfl := Option.some.inj h
    obtain ⟨rfl, -⟩ := hz.leftGone
    rfl

theorem settled_advance (hz : z.Settled) (h : z.advance = some z') : z'.Settled := by
  obtain ⟨ctx, c, x, r⟩ := z
  cases ctx with
  | root =>
    have hroot : (Ctx.root : Ctx α).LeftGone := trivial
    exact settled_settle hroot h
  | left c' p s up =>
    obtain rfl := Option.some.inj h
    cases hsettle : settle (.right c' .nil p up) s with
    | none => exact ⟨hz.leftGone, .inl rfl⟩
    | some z =>
      have hgone : (Ctx.right c' .nil p up).LeftGone := ⟨rfl, hz.leftGone⟩
      exact settled_settle hgone hsettle
  | right c' l p up =>
    obtain rfl := Option.some.inj h
    exact ⟨hz.leftGone.2, .inl rfl⟩

/-- What is left over does not change, except that what hangs below the taken node is out of
reach from then on. -/
theorem leftover_advance (hz : z.Settled) (h : z.advance = some z') :
    z.leftover = z.right.toList ++ z'.leftover := by
  obtain ⟨ctx, c, x, r⟩ := z
  cases ctx with
  | root =>
    have hnil : r = .nil := hz.leaf.resolve_right id
    subst hnil
    cases h
  | left c' p s up =>
    obtain rfl := Option.some.inj h
    cases hsettle : settle (.right c' .nil p up) s with
    | none =>
      have hnil : s = .nil := by
        by_contra hne
        obtain ⟨z, hz⟩ := exists_settle (.right c' .nil p up) hne
        rw [hz] at hsettle
        cases hsettle
      subst hnil
      rfl
    | some z =>
      rw [Option.getD_some, leftover_settle hsettle]
      rfl
  | right c' l p up =>
    obtain rfl := Option.some.inj h
    rfl

/-- The cursor comes to an end with the last node. -/
theorem advance_eq_none (hz : z.Settled) (h : z.advance = none) :
    z.ctx = .root ∧ z.right = .nil := by
  obtain ⟨ctx, c, x, r⟩ := z
  cases ctx with
  | root => exact ⟨rfl, hz.leaf.resolve_right id⟩
  | left c' p s up => cases h
  | right c' l p up => cases h

/-- The nodes of the tree are the taken one, those below it and the rest. -/
theorem perm_rest (hz : z.Settled) :
    z.tree.toList.Perm (z.val :: (z.right.toList ++ z.rest.toList)) := by
  obtain ⟨ctx, c, x, r⟩ := z
  have hplug : (ctx.before ++ (x :: r.toList ++ ctx.after)).Perm
      (x :: (r.toList ++ (ctx.plug .nil).toList)) := by
    rw [Ctx.toList_plug, RbTree.toList_nil, List.nil_append]
    refine List.perm_middle.trans (List.Perm.cons x ?_)
    exact List.perm_append_comm_assoc _ _ _
  rw [toList_tree]
  cases ctx with
  | root =>
    have hnil : r = .nil := hz.leaf.resolve_right id
    subst hnil
    exact hplug
  | left c' p s up => exact hplug
  | right c' l p up => exact hplug

end Advance

end Cursor

end RedBlack

end Recognizer
