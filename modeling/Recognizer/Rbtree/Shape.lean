import Recognizer.Source.Rbtree
import Mathlib.Data.List.Nodup

/-!
# Trees in memory

The nodes of a tree hold its colours and its links, those to the parents included.
A tree is often looked at from one of its subtrees; what is around it is a context.
-/

namespace Recognizer

namespace Rbtree

open RedBlack (Color RbTree Ctx)

/-- The address of the root of a tree. -/
def rootOf : RbTree Nat → Nat
  | .nil => 0
  | .node _ _ x _ => x

/-- The address of the node the hole hangs off. -/
def parentOf : Ctx Nat → Nat
  | .root => 0
  | .left _ p _ _ => p
  | .right _ _ p _ => p

/-- The nodes hold the tree at `a`, below the node `p`. -/
def At (nodes : Nat → Node) : RbTree Nat → Nat → Nat → Prop
  | .nil, a, _ => a = 0
  | .node c l x r, a, p =>
    a = x ∧ x ≠ 0 ∧ (nodes x).color = c ∧ (nodes x).parent = p ∧
      At nodes l (nodes x).left x ∧ At nodes r (nodes x).right x

/-- The nodes hold the context of a subtree at `a` in a tree at `root`. -/
def CtxAt (nodes : Nat → Node) : Ctx Nat → Nat → Nat → Prop
  | .root, a, root => a = root
  | .left c p r up, a, root =>
    p ≠ 0 ∧ (nodes p).color = c ∧ (nodes p).left = a ∧ At nodes r (nodes p).right p ∧
      (nodes p).parent = parentOf up ∧ CtxAt nodes up p root
  | .right c l p up, a, root =>
    p ≠ 0 ∧ (nodes p).color = c ∧ (nodes p).right = a ∧ At nodes l (nodes p).left p ∧
      (nodes p).parent = parentOf up ∧ CtxAt nodes up p root

section

variable {nodes nodes' : Nat → Node} {t l r : RbTree Nat} {ctx up : Ctx Nat} {c : Color}
  {a b p q x root root' : Nat}

theorem At.eq_rootOf (h : At nodes t a p) : a = rootOf t := by
  cases t with
  | nil => exact h
  | node c l x r => exact h.1

/-- There is no tree at `NULL`. -/
theorem At.eq_nil (h : At nodes t a p) (ha : a = 0) : t = .nil := by
  cases t with
  | nil => rfl
  | node c l x r => exact absurd (h.1.symm.trans ha) h.2.1

/-- Zero is not a node. -/
theorem At.zero_notMem (h : At nodes t a p) : 0 ∉ t.toList := by
  induction t generalizing a p with
  | nil => simp
  | node c l x r ihl ihr =>
    obtain ⟨-, hx, -, -, hl, hr⟩ := h
    simp only [RedBlack.RbTree.toList_node, List.mem_append, List.mem_cons, not_or]
    exact ⟨ihl hl, Ne.symm hx, ihr hr⟩

/-- Only the nodes of a tree matter to it. -/
theorem At.congr (h : At nodes t a p) (hnodes : ∀ x ∈ t.toList, nodes' x = nodes x) :
    At nodes' t a p := by
  induction t generalizing a p with
  | nil => exact h
  | node c l x r ihl ihr =>
    obtain ⟨hax, hx, hc, hp, hl, hr⟩ := h
    have hsame : nodes' x = nodes x := hnodes x (by simp)
    refine ⟨hax, hx, ?_, ?_, ?_, ?_⟩
    · rw [hsame, hc]
    · rw [hsame, hp]
    · rw [hsame]
      exact ihl hl fun y hy => hnodes y (by simp [hy])
    · rw [hsame]
      exact ihr hr fun y hy => hnodes y (by simp [hy])

/-- Only the links and the colours of the nodes matter to a tree. -/
theorem At.of_links (h : At nodes t a p) (hleft : ∀ x, (nodes' x).left = (nodes x).left)
    (hright : ∀ x, (nodes' x).right = (nodes x).right)
    (hparent : ∀ x, (nodes' x).parent = (nodes x).parent)
    (hcolor : ∀ x, (nodes' x).color = (nodes x).color) : At nodes' t a p := by
  induction t generalizing a p with
  | nil => exact h
  | node c l x r ihl ihr =>
    obtain ⟨hax, hx, hc, hp, hl, hr⟩ := h
    refine ⟨hax, hx, (hcolor x).trans hc, (hparent x).trans hp, ?_, ?_⟩
    · rw [hleft]
      exact ihl hl
    · rw [hright]
      exact ihr hr

/-- Only the nodes of a context matter to it. -/
theorem CtxAt.congr (h : CtxAt nodes ctx a root)
    (hnodes : ∀ x ∈ ctx.before ++ ctx.after, nodes' x = nodes x) : CtxAt nodes' ctx a root := by
  induction ctx generalizing a with
  | root => exact h
  | left c p r up ih =>
    obtain ⟨hp, hc, hl, hr, hparent, hup⟩ := h
    have hsame : nodes' p = nodes p := hnodes p (by simp [RedBlack.Ctx.after])
    refine ⟨hp, by rw [hsame, hc], by rw [hsame, hl], ?_, by rw [hsame, hparent], ?_⟩
    · rw [hsame]
      exact hr.congr fun y hy => hnodes y (by simp [RedBlack.Ctx.after, hy])
    · refine ih hup fun y hy => hnodes y ?_
      simp only [RedBlack.Ctx.before, RedBlack.Ctx.after, List.mem_append, List.mem_cons] at hy ⊢
      tauto
  | right c l p up ih =>
    obtain ⟨hp, hc, hr, hl, hparent, hup⟩ := h
    have hsame : nodes' p = nodes p := hnodes p (by simp [RedBlack.Ctx.before])
    refine ⟨hp, by rw [hsame, hc], by rw [hsame, hr], ?_, by rw [hsame, hparent], ?_⟩
    · rw [hsame]
      exact hl.congr fun y hy => hnodes y (by simp [RedBlack.Ctx.before, hy])
    · refine ih hup fun y hy => hnodes y ?_
      simp only [RedBlack.Ctx.before, RedBlack.Ctx.after, List.mem_append, List.mem_cons] at hy ⊢
      tauto

/-- A tree is a subtree in its context. -/
theorem at_plug_iff :
    At nodes (ctx.plug t) root 0 ↔
      CtxAt nodes ctx (rootOf t) root ∧ At nodes t (rootOf t) (parentOf ctx) := by
  induction ctx generalizing t with
  | root =>
    constructor
    · intro h
      have hroot : root = rootOf t := At.eq_rootOf h
      subst hroot
      exact ⟨rfl, h⟩
    · rintro ⟨rfl, h⟩
      exact h
  | left c p r up ih =>
    rw [RedBlack.Ctx.plug, ih]
    constructor
    · rintro ⟨hup, -, hp, hc, hparent, hl, hr⟩
      obtain heq := hl.eq_rootOf
      exact ⟨⟨hp, hc, heq, hr, hparent, hup⟩, heq ▸ hl⟩
    · rintro ⟨⟨hp, hc, hl, hr, hparent, hup⟩, ht⟩
      exact ⟨hup, rfl, hp, hc, hparent, hl ▸ ht, hr⟩
  | right c l p up ih =>
    rw [RedBlack.Ctx.plug, ih]
    constructor
    · rintro ⟨hup, -, hp, hc, hparent, hl, hr⟩
      obtain heq := hr.eq_rootOf
      exact ⟨⟨hp, hc, heq, hl, hparent, hup⟩, heq ▸ hr⟩
    · rintro ⟨⟨hp, hc, hr, hl, hparent, hup⟩, ht⟩
      exact ⟨hup, rfl, hp, hc, hparent, hl, hr ▸ ht⟩

/-- A tree whose root was moved below another node. -/
theorem At.reparent (h : At nodes t a p) (hnodup : t.toList.Nodup)
    (hroot : a ≠ 0 → nodes' a = { nodes a with parent := q })
    (hother : ∀ x ∈ t.toList, x ≠ a → nodes' x = nodes x) : At nodes' t a q := by
  cases t with
  | nil => exact h
  | node c l x r =>
    obtain ⟨rfl, hx, hc, hp, hl, hr⟩ := h
    have hsame := hroot hx
    rw [RedBlack.RbTree.toList_node, List.nodup_middle, List.nodup_cons, List.mem_append,
      not_or] at hnodup
    refine ⟨rfl, hx, by rw [hsame, hc], by rw [hsame], ?_, ?_⟩
    · rw [hsame]
      exact hl.congr fun y hy => hother y (by simp [hy]) fun heq => hnodup.1.1 (heq ▸ hy)
    · rw [hsame]
      exact hr.congr fun y hy => hother y (by simp [hy]) fun heq => hnodup.1.2 (heq ▸ hy)

/-- The node the hole hangs off, with another child. -/
def relink (b : Nat) : Ctx Nat → Node → Node
  | .root, x => x
  | .left _ _ _ _, x => { x with left := b }
  | .right _ _ _ _, x => { x with right := b }

/-- A context whose hole was filled with another subtree. -/
theorem CtxAt.relink (h : CtxAt nodes ctx a root) (hnodup : (ctx.before ++ ctx.after).Nodup)
    (hparent : parentOf ctx ≠ 0 → nodes' (parentOf ctx) = Rbtree.relink b ctx (nodes (parentOf ctx)))
    (hother : ∀ x ∈ ctx.before ++ ctx.after, x ≠ parentOf ctx → nodes' x = nodes x)
    (hroot : root' = if parentOf ctx = 0 then b else root) : CtxAt nodes' ctx b root' := by
  cases ctx with
  | root => exact hroot.symm
  | left c p r up =>
    obtain ⟨hp, hc, hl, hr, hup, hctx⟩ := h
    have hsame : nodes' p = { nodes p with left := b } := hparent hp
    have hp' : parentOf (.left c p r up) ≠ 0 := hp
    rw [if_neg hp'] at hroot
    subst hroot
    have hmem : ∀ y, y ∈ r.toList ∨ y ∈ up.before ++ up.after → y ≠ p := by
      rintro y hy rfl
      have hmiddle : (up.before ++ y :: (r.toList ++ up.after)).Nodup := by
        simpa [RedBlack.Ctx.before, RedBlack.Ctx.after] using hnodup
      have hrest := (List.nodup_cons.mp (List.nodup_middle.mp hmiddle)).1
      simp only [List.mem_append] at hy hrest
      tauto
    refine ⟨hp, by rw [hsame, hc], by rw [hsame], ?_, by rw [hsame, hup], ?_⟩
    · rw [hsame]
      refine hr.congr fun y hy => hother y (by simp [RedBlack.Ctx.after, hy]) (hmem y (.inl hy))
    · refine hctx.congr fun y hy => hother y ?_ (hmem y (.inr hy))
      simp only [RedBlack.Ctx.before, RedBlack.Ctx.after, List.mem_append, List.mem_cons] at hy ⊢
      tauto
  | right c l p up =>
    obtain ⟨hp, hc, hr, hl, hup, hctx⟩ := h
    have hsame : nodes' p = { nodes p with right := b } := hparent hp
    have hp' : parentOf (.right c l p up) ≠ 0 := hp
    rw [if_neg hp'] at hroot
    subst hroot
    have hmem : ∀ y, y ∈ l.toList ∨ y ∈ up.before ++ up.after → y ≠ p := by
      rintro y hy rfl
      have hmiddle : ((up.before ++ l.toList) ++ y :: up.after).Nodup := by
        simpa [RedBlack.Ctx.before, RedBlack.Ctx.after] using hnodup
      have hrest := (List.nodup_cons.mp (List.nodup_middle.mp hmiddle)).1
      simp only [List.mem_append] at hy hrest
      tauto
    refine ⟨hp, by rw [hsame, hc], by rw [hsame], ?_, by rw [hsame, hup], ?_⟩
    · rw [hsame]
      refine hl.congr fun y hy => hother y (by simp [RedBlack.Ctx.before, hy]) (hmem y (.inl hy))
    · refine hctx.congr fun y hy => hother y ?_ (hmem y (.inr hy))
      simp only [RedBlack.Ctx.before, RedBlack.Ctx.after, List.mem_append, List.mem_cons] at hy ⊢
      tauto

theorem rootOf_mem (h : rootOf t ≠ 0) : rootOf t ∈ t.toList := by
  cases t with
  | nil => exact absurd rfl h
  | node c l x r => simp [rootOf]

theorem parentOf_mem (h : parentOf ctx ≠ 0) : parentOf ctx ∈ ctx.before ++ ctx.after := by
  cases ctx with
  | root => exact absurd rfl h
  | left c p r up => simp [parentOf, RedBlack.Ctx.after]
  | right c l p up => simp [parentOf, RedBlack.Ctx.before]

/-- The nodes of a subtree are not in its context. -/
theorem notMem_ctx (hnodup : (ctx.plug t).toList.Nodup) (hx : x ∈ t.toList) :
    x ∉ ctx.before ++ ctx.after := by
  rw [RedBlack.Ctx.toList_plug] at hnodup
  have hsplit := List.nodup_append.mp hnodup
  have hsplit' := List.nodup_append.mp hsplit.2.1
  intro hin
  rcases List.mem_append.mp hin with hbefore | hafter
  · exact hsplit.2.2 x hbefore x (List.mem_append_left _ hx) rfl
  · exact hsplit'.2.2 x hx x hafter rfl

/-- The nodes of a context are distinct. -/
theorem nodup_ctx (hnodup : (ctx.plug t).toList.Nodup) : (ctx.before ++ ctx.after).Nodup := by
  rw [RedBlack.Ctx.toList_plug] at hnodup
  refine hnodup.sublist ?_
  exact (List.Sublist.refl _).append (List.sublist_append_right _ _)

/-- The nodes of a subtree are distinct. -/
theorem nodup_subtree (hnodup : (ctx.plug t).toList.Nodup) : t.toList.Nodup := by
  rw [RedBlack.Ctx.toList_plug] at hnodup
  exact (List.nodup_append.mp (List.nodup_append.mp hnodup).2.1).1

/-- The node above a subtree is not in it. -/
theorem parentOf_notMem (h : At nodes (ctx.plug t) root 0)
    (hnodup : (ctx.plug t).toList.Nodup) : parentOf ctx ∉ t.toList := by
  intro hin
  by_cases hp : parentOf ctx = 0
  · exact (at_plug_iff.mp h).2.zero_notMem (hp ▸ hin)
  · exact notMem_ctx hnodup hin (parentOf_mem hp)

/-- The subtree at `a` is where the hole of the context is. -/
def OnSide (nodes : Nat → Node) (a : Nat) : Ctx Nat → Prop
  | .root => True
  | .left _ p _ _ => p ≠ 0 ∧ (nodes p).left = a ∧ (nodes p).right ≠ a
  | .right _ _ p _ => p ≠ 0 ∧ (nodes p).right = a ∧ (nodes p).left ≠ a

theorem OnSide.congr (h : OnSide nodes a ctx)
    (hsame : parentOf ctx ≠ 0 → nodes' (parentOf ctx) = nodes (parentOf ctx)) :
    OnSide nodes' a ctx := by
  cases ctx with
  | root => trivial
  | left c p r up =>
    have hp : nodes' p = nodes p := hsame h.1
    exact ⟨h.1, by rw [hp]; exact h.2.1, by rw [hp]; exact h.2.2⟩
  | right c l p up =>
    have hp : nodes' p = nodes p := hsame h.1
    exact ⟨h.1, by rw [hp]; exact h.2.1, by rw [hp]; exact h.2.2⟩

theorem OnSide.parentOf_ne_zero (h : OnSide nodes a ctx) (hroot : ctx ≠ .root) :
    parentOf ctx ≠ 0 := by
  cases ctx with
  | root => exact absurd rfl hroot
  | left c p r up => exact h.1
  | right c l p up => exact h.1

/-- A subtree is on one side of the node above it. -/
theorem onSide_rootOf (h : At nodes (ctx.plug t) root 0) (hnodup : (ctx.plug t).toList.Nodup)
    (ht : rootOf t ≠ 0) : OnSide nodes (rootOf t) ctx := by
  have hnotMem := notMem_ctx hnodup (rootOf_mem ht)
  obtain ⟨hctx, -⟩ := at_plug_iff.mp h
  have hother : ∀ {s : RbTree Nat} {b q : Nat}, At nodes s b q →
      (∀ y ∈ s.toList, y ∈ ctx.before ++ ctx.after) → b ≠ rootOf t := by
    intro s b q hs hmem heq
    rw [hs.eq_rootOf] at heq
    have hin := hmem _ (rootOf_mem (heq ▸ ht))
    exact hnotMem (heq ▸ hin)
  cases ctx with
  | root => trivial
  | left c p r up =>
    obtain ⟨hp, -, hl, hr, -, -⟩ := hctx
    exact ⟨hp, hl, hother hr fun y hy => by simp [RedBlack.Ctx.after, hy]⟩
  | right c l p up =>
    obtain ⟨hp, -, hr, hl, -, -⟩ := hctx
    exact ⟨hp, hr, hother hl fun y hy => by simp [RedBlack.Ctx.before, hy]⟩

end

end Rbtree

end Recognizer
