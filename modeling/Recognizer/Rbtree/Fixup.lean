import Recognizer.Rbtree.Rotate

/-!
# The repair after an insertion

The loop of `rbtree_fixup` on the nodes of a tree does what the repair of a context
does, case by case.
-/

namespace Recognizer

namespace Rbtree

open RedBlack (Color RbTree Ctx)
open RedBlack.RbTree (node)

variable {m : RBTreeCtrl} {ctx up : Ctx Nat} {t : RbTree Nat} {n : Nat}

section Recolor

variable {cg cp cu : Color} {A B C D : RbTree Nat} {p g u : Nat}

/-- What recolouring keeps. -/
theorem keeps_recolor {cells : List Nat} (hp : p ∈ cells) (hu : u ∈ cells) (hg : g ∈ cells) :
    Keeps m (m.recolor p u g) cells := by
  have hpaint : Keeps m (m.set p fun x => { x with color := .black }) cells :=
    keeps_set hp (fun _ => rfl) fun _ => rfl
  have huncle : Keeps _ ((m.set p fun x => { x with color := .black }).set u fun x =>
      { x with color := .black }) cells := keeps_set hu (fun _ => rfl) fun _ => rfl
  have hroot : Keeps _ (m.recolor p u g) cells :=
    keeps_set (f := fun x => { x with color := .red }) hg (fun _ => rfl) fun _ => rfl
  exact (hpaint.trans huncle).trans hroot

/-- Recolouring a node and its children, of which the left one is the parent. -/
theorem recolor_left
    (h : At m.nodes (up.plug (node cg (node cp A p B) g (node cu C u D))) m.root 0)
    (hnodup : (up.plug (node cg (node cp A p B) g (node cu C u D))).toList.Nodup) :
    At (m.recolor p u g).nodes
        (up.plug (node .red (node .black A p B) g (node .black C u D))) (m.recolor p u g).root 0 ∧
      Keeps m (m.recolor p u g)
        (up.plug (node cg (node cp A p B) g (node cu C u D))).toList := by
  have hp : At (m.set p fun x => { x with color := .black }).nodes
      ((Ctx.left cg g (node cu C u D) up).plug (node .black A p B)) m.root 0 :=
    paint_at h hnodup
  have hpnodup : ((Ctx.left cg g (node cu C u D) up).plug (node .black A p B)).toList.Nodup := by
    simpa [RedBlack.Ctx.toList_plug, RedBlack.Ctx.before, RedBlack.Ctx.after] using hnodup
  have hu : At ((m.set p fun x => { x with color := .black }).set u fun x =>
      { x with color := .black }).nodes
      ((Ctx.right cg (node .black A p B) g up).plug (node .black C u D)) m.root 0 :=
    paint_at hp hpnodup
  have hunodup :
      ((Ctx.right cg (node .black A p B) g up).plug (node .black C u D)).toList.Nodup := by
    simpa [RedBlack.Ctx.toList_plug, RedBlack.Ctx.before, RedBlack.Ctx.after] using hnodup
  have hg : At (m.recolor p u g).nodes
      (up.plug (node .red (node .black A p B) g (node .black C u D))) (m.recolor p u g).root 0 :=
    paint_at hu hunodup
  refine ⟨hg, keeps_recolor ?_ ?_ ?_⟩
  · simp [RedBlack.Ctx.toList_plug]
  · simp [RedBlack.Ctx.toList_plug]
  · simp [RedBlack.Ctx.toList_plug]

/-- Recolouring a node and its children, of which the right one is the parent. -/
theorem recolor_right
    (h : At m.nodes (up.plug (node cg (node cu C u D) g (node cp A p B))) m.root 0)
    (hnodup : (up.plug (node cg (node cu C u D) g (node cp A p B))).toList.Nodup) :
    At (m.recolor p u g).nodes
        (up.plug (node .red (node .black C u D) g (node .black A p B))) (m.recolor p u g).root 0 ∧
      Keeps m (m.recolor p u g)
        (up.plug (node cg (node cu C u D) g (node cp A p B))).toList := by
  have hp : At (m.set p fun x => { x with color := .black }).nodes
      ((Ctx.right cg (node cu C u D) g up).plug (node .black A p B)) m.root 0 :=
    paint_at h hnodup
  have hpnodup : ((Ctx.right cg (node cu C u D) g up).plug (node .black A p B)).toList.Nodup := by
    simpa [RedBlack.Ctx.toList_plug, RedBlack.Ctx.before, RedBlack.Ctx.after] using hnodup
  have hu : At ((m.set p fun x => { x with color := .black }).set u fun x =>
      { x with color := .black }).nodes
      ((Ctx.left cg g (node .black A p B) up).plug (node .black C u D)) m.root 0 :=
    paint_at hp hpnodup
  have hunodup :
      ((Ctx.left cg g (node .black A p B) up).plug (node .black C u D)).toList.Nodup := by
    simpa [RedBlack.Ctx.toList_plug, RedBlack.Ctx.before, RedBlack.Ctx.after] using hnodup
  have hg : At (m.recolor p u g).nodes
      (up.plug (node .red (node .black C u D) g (node .black A p B))) (m.recolor p u g).root 0 :=
    paint_at hu hunodup
  refine ⟨hg, keeps_recolor ?_ ?_ ?_⟩
  · simp [RedBlack.Ctx.toList_plug]
  · simp [RedBlack.Ctx.toList_plug]
  · simp [RedBlack.Ctx.toList_plug]

end Recolor

section Below

variable {cg cp cx : Color} {A B C D : RbTree Nat} {p g x : Nat}

/-- The last rotation below a left child: the parent takes the place of the grandparent. -/
theorem turnRight_at
    (h : At m.nodes (up.plug (node cg (node cp A p B) g D)) m.root 0)
    (hnodup : (up.plug (node cg (node cp A p B) g D)).toList.Nodup) :
    ∃ m', ((m.set p fun x => { x with color := .black }).set g fun x =>
        { x with color := .red }).rightRotate g = some m' ∧
      At m'.nodes (up.plug (node .black A p (node .red B g D))) m'.root 0 ∧
      Keeps m m' (up.plug (node cg (node cp A p B) g D)).toList := by
  have hp : At (m.set p fun x => { x with color := .black }).nodes
      ((Ctx.left cg g D up).plug (node .black A p B)) m.root 0 := paint_at h hnodup
  have hpnodup : (up.plug (node cg (node .black A p B) g D)).toList.Nodup := by
    simpa [RedBlack.Ctx.toList_plug] using hnodup
  have hg : At ((m.set p fun x => { x with color := .black }).set g fun x =>
      { x with color := .red }).nodes (up.plug (node .red (node .black A p B) g D)) m.root 0 :=
    paint_at hp hpnodup
  have hgnodup : (up.plug (node .red (node .black A p B) g D)).toList.Nodup := by
    simpa [RedBlack.Ctx.toList_plug] using hnodup
  obtain ⟨m', hrotate, hat, hkeeps⟩ := rightRotate_at hg hgnodup
  refine ⟨m', hrotate, hat, ?_⟩
  have hlist : (up.plug (node .red (node .black A p B) g D)).toList =
      (up.plug (node cg (node cp A p B) g D)).toList := by
    simp [RedBlack.Ctx.toList_plug]
  rw [hlist] at hkeeps
  have hpaint : Keeps m (m.set p fun x => { x with color := .black })
      (up.plug (node cg (node cp A p B) g D)).toList :=
    keeps_set (by simp [RedBlack.Ctx.toList_plug]) (fun _ => rfl) fun _ => rfl
  have hroot : Keeps (m.set p fun x => { x with color := .black })
      ((m.set p fun x => { x with color := .black }).set g fun x => { x with color := .red })
      (up.plug (node cg (node cp A p B) g D)).toList :=
    keeps_set (by simp [RedBlack.Ctx.toList_plug]) (fun _ => rfl) fun _ => rfl
  exact (hpaint.trans hroot).trans hkeeps

/-- The last rotation below a right child. -/
theorem turnLeft_at
    (h : At m.nodes (up.plug (node cg D g (node cp B p A))) m.root 0)
    (hnodup : (up.plug (node cg D g (node cp B p A))).toList.Nodup) :
    ∃ m', ((m.set p fun x => { x with color := .black }).set g fun x =>
        { x with color := .red }).leftRotate g = some m' ∧
      At m'.nodes (up.plug (node .black (node .red D g B) p A)) m'.root 0 ∧
      Keeps m m' (up.plug (node cg D g (node cp B p A))).toList := by
  have hp : At (m.set p fun x => { x with color := .black }).nodes
      ((Ctx.right cg D g up).plug (node .black B p A)) m.root 0 := paint_at h hnodup
  have hpnodup : (up.plug (node cg D g (node .black B p A))).toList.Nodup := by
    simpa [RedBlack.Ctx.toList_plug] using hnodup
  have hg : At ((m.set p fun x => { x with color := .black }).set g fun x =>
      { x with color := .red }).nodes (up.plug (node .red D g (node .black B p A))) m.root 0 :=
    paint_at hp hpnodup
  have hgnodup : (up.plug (node .red D g (node .black B p A))).toList.Nodup := by
    simpa [RedBlack.Ctx.toList_plug] using hnodup
  obtain ⟨m', hrotate, hat, hkeeps⟩ := leftRotate_at hg hgnodup
  refine ⟨m', hrotate, hat, ?_⟩
  have hlist : (up.plug (node .red D g (node .black B p A))).toList =
      (up.plug (node cg D g (node cp B p A))).toList := by
    simp [RedBlack.Ctx.toList_plug]
  rw [hlist] at hkeeps
  have hpaint : Keeps m (m.set p fun x => { x with color := .black })
      (up.plug (node cg D g (node cp B p A))).toList :=
    keeps_set (by simp [RedBlack.Ctx.toList_plug]) (fun _ => rfl) fun _ => rfl
  have hroot : Keeps (m.set p fun x => { x with color := .black })
      ((m.set p fun x => { x with color := .black }).set g fun x => { x with color := .red })
      (up.plug (node cg D g (node cp B p A))).toList :=
    keeps_set (by simp [RedBlack.Ctx.toList_plug]) (fun _ => rfl) fun _ => rfl
  exact (hpaint.trans hroot).trans hkeeps

/-- One rotation suffices for a left child of a left child. -/
theorem rotateBelowLeft_outer
    (h : At m.nodes (up.plug (node cg (node cp A p B) g D)) m.root 0)
    (hnodup : (up.plug (node cg (node cp A p B) g D)).toList.Nodup) (hA : rootOf A ≠ 0) :
    ∃ m', m.rotateBelowLeft (rootOf A) p g = some (rootOf A, p, m') ∧
      At m'.nodes (up.plug (node .black A p (node .red B g D))) m'.root 0 ∧
      Keeps m m' (up.plug (node cg (node cp A p B) g D)).toList := by
  obtain ⟨m', hrotate, hat, hkeeps⟩ := turnRight_at h hnodup
  have hside : OnSide m.nodes (rootOf A) (.left cp p B (.left cg g D up)) :=
    onSide_rootOf (t := A) h hnodup hA
  refine ⟨m', ?_, hat, hkeeps⟩
  have hne : ¬ rootOf A = (m.nodes p).right := fun heq => hside.2.2 heq.symm
  simp only [RBTreeCtrl.rotateBelowLeft, if_neg hne, Option.bind_eq_bind, Option.bind_some,
    hrotate]

/-- Two rotations are needed for a right child of a left child. -/
theorem rotateBelowLeft_inner
    (h : At m.nodes (up.plug (node cg (node cp A p (node cx B x C)) g D)) m.root 0)
    (hnodup : (up.plug (node cg (node cp A p (node cx B x C)) g D)).toList.Nodup) :
    ∃ m', m.rotateBelowLeft x p g = some (p, x, m') ∧
      At m'.nodes (up.plug (node .black (node cp A p B) x (node .red C g D))) m'.root 0 ∧
      Keeps m m' (up.plug (node cg (node cp A p (node cx B x C)) g D)).toList := by
  have hfocus : At m.nodes ((Ctx.left cg g D up).plug (node cp A p (node cx B x C))) m.root 0 := h
  obtain ⟨m₁, hfirst, hat₁, hkeeps₁⟩ := leftRotate_at hfocus hnodup
  have hat₁' : At m₁.nodes (up.plug (node cg (node cx (node cp A p B) x C) g D)) m₁.root 0 := hat₁
  have hnodup₁ : (up.plug (node cg (node cx (node cp A p B) x C) g D)).toList.Nodup := by
    simpa [RedBlack.Ctx.toList_plug] using hnodup
  obtain ⟨m', hrotate, hat, hkeeps⟩ := turnRight_at hat₁' hnodup₁
  have hx : (m.nodes p).right = x := (at_plug_iff.mp h).2.2.2.2.2.1.2.2.2.2.2.1
  obtain ⟨hctx, -, -, -, -, ⟨-, -, -, hparent, ⟨-, -, -, hchild, -⟩, -⟩, -⟩ := at_plug_iff.mp hat₁'
  have hlist : (up.plug (node cg (node cx (node cp A p B) x C) g D)).toList =
      (up.plug (node cg (node cp A p (node cx B x C)) g D)).toList := by
    simp [RedBlack.Ctx.toList_plug]
  refine ⟨m', ?_, hat, hkeeps₁.trans (hlist ▸ hkeeps)⟩
  simp only [RBTreeCtrl.rotateBelowLeft, hx, if_true, hfirst, Option.bind_eq_bind,
    Option.bind_some, hchild, hparent, hrotate]

/-- One rotation suffices for a right child of a right child. -/
theorem rotateBelowRight_outer
    (h : At m.nodes (up.plug (node cg D g (node cp B p A))) m.root 0)
    (hnodup : (up.plug (node cg D g (node cp B p A))).toList.Nodup) (hA : rootOf A ≠ 0) :
    ∃ m', m.rotateBelowRight (rootOf A) p g = some (rootOf A, p, m') ∧
      At m'.nodes (up.plug (node .black (node .red D g B) p A)) m'.root 0 ∧
      Keeps m m' (up.plug (node cg D g (node cp B p A))).toList := by
  obtain ⟨m', hrotate, hat, hkeeps⟩ := turnLeft_at h hnodup
  have hside : OnSide m.nodes (rootOf A) (.right cp B p (.right cg D g up)) :=
    onSide_rootOf (t := A) h hnodup hA
  refine ⟨m', ?_, hat, hkeeps⟩
  have hne : ¬ rootOf A = (m.nodes p).left := fun heq => hside.2.2 heq.symm
  simp only [RBTreeCtrl.rotateBelowRight, if_neg hne, Option.bind_eq_bind, Option.bind_some,
    hrotate]

/-- Two rotations are needed for a left child of a right child. -/
theorem rotateBelowRight_inner
    (h : At m.nodes (up.plug (node cg D g (node cp (node cx C x B) p A))) m.root 0)
    (hnodup : (up.plug (node cg D g (node cp (node cx C x B) p A))).toList.Nodup) :
    ∃ m', m.rotateBelowRight x p g = some (p, x, m') ∧
      At m'.nodes (up.plug (node .black (node .red D g C) x (node cp B p A))) m'.root 0 ∧
      Keeps m m' (up.plug (node cg D g (node cp (node cx C x B) p A))).toList := by
  have hfocus : At m.nodes ((Ctx.right cg D g up).plug (node cp (node cx C x B) p A)) m.root 0 := h
  obtain ⟨m₁, hfirst, hat₁, hkeeps₁⟩ := rightRotate_at hfocus hnodup
  have hat₁' : At m₁.nodes (up.plug (node cg D g (node cx C x (node cp B p A)))) m₁.root 0 := hat₁
  have hnodup₁ : (up.plug (node cg D g (node cx C x (node cp B p A)))).toList.Nodup := by
    simpa [RedBlack.Ctx.toList_plug] using hnodup
  obtain ⟨m', hrotate, hat, hkeeps⟩ := turnLeft_at hat₁' hnodup₁
  have hx : (m.nodes p).left = x := (at_plug_iff.mp h).2.2.2.2.2.2.2.2.2.2.1.1
  obtain ⟨hctx, -, -, -, -, -, -, -, -, hparent, -, -, -, -, hchild, -⟩ := at_plug_iff.mp hat₁'
  have hlist : (up.plug (node cg D g (node cx C x (node cp B p A)))).toList =
      (up.plug (node cg D g (node cp (node cx C x B) p A))).toList := by
    simp [RedBlack.Ctx.toList_plug]
  refine ⟨m', ?_, hat, hkeeps₁.trans (hlist ▸ hkeeps)⟩
  simp only [RBTreeCtrl.rotateBelowRight, hx, if_true, hfirst, Option.bind_eq_bind,
    Option.bind_some, hchild, hparent, hrotate]

end Below

/-- The number of nodes of a context. -/
def around (ctx : Ctx Nat) : Nat := (ctx.before ++ ctx.after).length

theorem around_left {c : Color} {p : Nat} {r : RbTree Nat} :
    around (.left c p r up) = around up + (r.toList.length + 1) := by
  simp only [around, RedBlack.Ctx.before, RedBlack.Ctx.after, List.length_append,
    List.length_cons]
  omega

theorem around_right {c : Color} {p : Nat} {l : RbTree Nat} :
    around (.right c l p up) = around up + (l.toList.length + 1) := by
  simp only [around, RedBlack.Ctx.before, RedBlack.Ctx.after, List.length_append,
    List.length_cons, List.length_nil]
  omega

/-- The test for a red uncle. -/
theorem red_iff {nodes : Nat → Node} {a p : Nat} (h : At nodes t a p) :
    (a ≠ 0 ∧ (nodes a).color = .red) ↔ t.isRed = true := by
  cases t with
  | nil =>
    have ha : a = 0 := h
    simp [ha, RedBlack.RbTree.isRed]
  | node c l x r =>
    obtain ⟨rfl, hx, hc, -⟩ := h
    simp [hx, hc, RedBlack.RbTree.isRed]

theorem rootOf_of_red {nodes : Nat → Node} {a p : Nat} (h : At nodes t a p)
    (hred : t.isRed = true) : rootOf t ≠ 0 := by
  cases t with
  | nil => cases hred
  | node c l x r => exact h.2.1

/-- The loop ends below a black node, and nothing follows it there. -/
theorem fixupLoop_black {p : Nat} {A B : RbTree Nat} (fuel child : Nat)
    (h : At m.nodes (up.plug (node .black A p B)) m.root 0) :
    RBTreeCtrl.fixupLoop (fuel + 1) child p m = some (child, p, m) ∧ m.fixupEnd child p = m := by
  obtain ⟨-, -, hp, hblack, -⟩ := at_plug_iff.mp h
  constructor
  · have hstop : ¬ (p ≠ 0 ∧ (m.nodes p).color = .red) := by
      rintro ⟨-, hred⟩
      rw [hblack] at hred
      cases hred
    rw [RBTreeCtrl.fixupLoop, if_neg hstop]
  · rw [RBTreeCtrl.fixupEnd, if_neg hp]

section Step

variable {c : Color} {u : RbTree Nat} {p g : Nat}

/-- The loop below a red left child. -/
theorem fixupLoop_left (fuel child : Nat) (h : CtxAt m.nodes (.left c g u up) p m.root)
    (hp : p ≠ 0) (hred : (m.nodes p).color = .red) (hparent : (m.nodes p).parent = g) :
    RBTreeCtrl.fixupLoop (fuel + 1) child p m =
      if u.isRed = true then
        RBTreeCtrl.fixupLoop fuel g ((m.recolor p (rootOf u) g).nodes g).parent
          (m.recolor p (rootOf u) g)
      else (m.rotateBelowLeft child p g).bind fun x =>
        RBTreeCtrl.fixupLoop fuel x.1 x.2.1 x.2.2 := by
  obtain ⟨hg, -, hleft, hu, -, -⟩ := h
  have huncle := red_iff hu
  have hroot := hu.eq_rootOf
  rw [RBTreeCtrl.fixupLoop, if_pos ⟨hp, hred⟩]
  simp only [hparent, if_neg hg, hleft, if_true, hroot]
  rw [hroot] at huncle
  by_cases hur : u.isRed = true
  · rw [if_pos (huncle.mpr hur), if_pos hur]
  · rw [if_neg (mt huncle.mp hur), if_neg hur]
    rfl

/-- The loop below a red right child. -/
theorem fixupLoop_right (fuel child : Nat) (h : CtxAt m.nodes (.right c u g up) p m.root)
    (hp : p ≠ 0) (hred : (m.nodes p).color = .red) (hparent : (m.nodes p).parent = g)
    (hside : (m.nodes g).left ≠ p) :
    RBTreeCtrl.fixupLoop (fuel + 1) child p m =
      if u.isRed = true then
        RBTreeCtrl.fixupLoop fuel g ((m.recolor p (rootOf u) g).nodes g).parent
          (m.recolor p (rootOf u) g)
      else (m.rotateBelowRight child p g).bind fun x =>
        RBTreeCtrl.fixupLoop fuel x.1 x.2.1 x.2.2 := by
  obtain ⟨hg, -, hright, hu, -, -⟩ := h
  have huncle := red_iff hu
  have hroot := hu.eq_rootOf
  rw [RBTreeCtrl.fixupLoop, if_pos ⟨hp, hred⟩]
  rw [hroot] at huncle hside
  simp only [hparent, if_neg hg, hroot, if_neg hside.symm]
  by_cases hur : u.isRed = true
  · rw [if_pos (huncle.mpr hur), if_pos hur]
  · rw [if_neg (mt huncle.mp hur), if_neg hur]
    rfl

end Step

/-- What `rbtree_fixup` makes of a tree: what its loop and the lines behind it leave. -/
def Repairs (m : RBTreeCtrl) (fuel child parent : Nat) (t : RbTree Nat) (cells : List Nat) : Prop :=
  ∃ child' parent' m', RBTreeCtrl.fixupLoop fuel child parent m = some (child', parent', m') ∧
    At (m'.fixupEnd child' parent').nodes t (m'.fixupEnd child' parent').root 0 ∧
    Keeps m (m'.fixupEnd child' parent') cells

/-- After the rotations below a left child the loop ends. -/
theorem repairs_rotated {m' : RBTreeCtrl} {fuel child child' p : Nat} {A B : RbTree Nat}
    {cells : List Nat} {rotated : Option (Nat × Nat × RBTreeCtrl)}
    (hrotated : rotated = some (child', p, m'))
    (h : At m'.nodes (up.plug (node .black A p B)) m'.root 0) (hkeeps : Keeps m m' cells)
    {parent : Nat} (hstep : RBTreeCtrl.fixupLoop (fuel + 2) child parent m =
      rotated.bind fun x => RBTreeCtrl.fixupLoop (fuel + 1) x.1 x.2.1 x.2.2) :
    Repairs m (fuel + 2) child parent (up.plug (node .black A p B)) cells := by
  obtain ⟨hloop, hend⟩ := fixupLoop_black fuel child' h
  refine ⟨child', p, m', ?_, ?_, ?_⟩
  · rw [hstep, hrotated, Option.bind_some, hloop]
  · rw [hend]
    exact h
  · rw [hend]
    exact hkeeps

section Cases

variable {c : Color} {A B u T : RbTree Nat} {p g fuel child : Nat} {cells : List Nat}

/-- Below a left child with a red uncle the repair goes on two levels further up. -/
theorem repairs_recolor_left
    (h : At m.nodes (up.plug (node c (node .red A p B) g u)) m.root 0)
    (hnodup : (up.plug (node c (node .red A p B) g u)).toList.Nodup) (hu : u.isRed = true)
    (ih : ∀ m' : RBTreeCtrl,
      At m'.nodes (up.plug (node .red (node .black A p B) g (u.paint .black))) m'.root 0 →
        (up.plug (node .red (node .black A p B) g (u.paint .black))).toList.Nodup →
          Repairs m' fuel g (parentOf up) T
            (up.plug (node .red (node .black A p B) g (u.paint .black))).toList) :
    Repairs m (fuel + 1) child p T (up.plug (node c (node .red A p B) g u)).toList := by
  have hlist : (up.plug (node .red (node .black A p B) g (u.paint .black))).toList =
      (up.plug (node c (node .red A p B) g u)).toList := by simp [RedBlack.Ctx.toList_plug]
  cases u with
  | nil => cases hu
  | node cu C y D =>
    have hfocus : At m.nodes ((Ctx.left c g (node cu C y D) up).plug (node .red A p B)) m.root 0 := h
    obtain ⟨hctx, -, hp, hcp, hparent, -, -⟩ := at_plug_iff.mp hfocus
    have hstep := fixupLoop_left fuel child hctx hp hcp hparent
    rw [if_pos hu] at hstep
    obtain ⟨hat, hkeeps⟩ := recolor_left h hnodup
    have hup : ((m.recolor p y g).nodes g).parent = parentOf up :=
      (at_plug_iff.mp hat).2.2.2.2.1
    simp only [rootOf, hup] at hstep
    obtain ⟨child', parent', m₁, hloop, hat₁, hkeeps₁⟩ := ih _ hat (hlist ▸ hnodup)
    exact ⟨child', parent', m₁, hstep.trans hloop, hat₁, hkeeps.trans (hlist ▸ hkeeps₁)⟩

/-- Below a right child with a red uncle the repair goes on two levels further up. -/
theorem repairs_recolor_right
    (h : At m.nodes (up.plug (node c u g (node .red A p B))) m.root 0)
    (hnodup : (up.plug (node c u g (node .red A p B))).toList.Nodup) (hu : u.isRed = true)
    (ih : ∀ m' : RBTreeCtrl,
      At m'.nodes (up.plug (node .red (u.paint .black) g (node .black A p B))) m'.root 0 →
        (up.plug (node .red (u.paint .black) g (node .black A p B))).toList.Nodup →
          Repairs m' fuel g (parentOf up) T
            (up.plug (node .red (u.paint .black) g (node .black A p B))).toList) :
    Repairs m (fuel + 1) child p T (up.plug (node c u g (node .red A p B))).toList := by
  have hlist : (up.plug (node .red (u.paint .black) g (node .black A p B))).toList =
      (up.plug (node c u g (node .red A p B))).toList := by simp [RedBlack.Ctx.toList_plug]
  cases u with
  | nil => cases hu
  | node cu C y D =>
    have hfocus : At m.nodes ((Ctx.right c (node cu C y D) g up).plug (node .red A p B)) m.root 0 :=
      h
    obtain ⟨hctx, -, hp, hcp, hparent, -, -⟩ := at_plug_iff.mp hfocus
    have hside := onSide_rootOf hfocus hnodup hp
    have hstep := fixupLoop_right fuel child hctx hp hcp hparent hside.2.2
    rw [if_pos hu] at hstep
    obtain ⟨hat, hkeeps⟩ := recolor_right h hnodup
    have hup : ((m.recolor p y g).nodes g).parent = parentOf up :=
      (at_plug_iff.mp hat).2.2.2.2.1
    simp only [rootOf, hup] at hstep
    obtain ⟨child', parent', m₁, hloop, hat₁, hkeeps₁⟩ := ih _ hat (hlist ▸ hnodup)
    exact ⟨child', parent', m₁, hstep.trans hloop, hat₁, hkeeps.trans (hlist ▸ hkeeps₁)⟩

/-- Below a left child with a black uncle the rotations end the repair. -/
theorem repairs_rotate_left
    (h : At m.nodes (up.plug (node c (node .red A p B) g u)) m.root 0) (hu : ¬ u.isRed = true)
    {child' q : Nat} {m' : RBTreeCtrl} {A' B' : RbTree Nat}
    (hrotate : m.rotateBelowLeft child p g = some (child', q, m'))
    (hat : At m'.nodes (up.plug (node .black A' q B')) m'.root 0) (hkeeps : Keeps m m' cells) :
    Repairs m (fuel + 2) child p (up.plug (node .black A' q B')) cells := by
  have hfocus : At m.nodes ((Ctx.left c g u up).plug (node .red A p B)) m.root 0 := h
  obtain ⟨hctx, -, hp, hcp, hparent, -, -⟩ := at_plug_iff.mp hfocus
  have hstep := fixupLoop_left (fuel + 1) child hctx hp hcp hparent
  rw [if_neg hu] at hstep
  exact repairs_rotated hrotate hat hkeeps hstep

/-- Below a right child with a black uncle the rotations end the repair. -/
theorem repairs_rotate_right
    (h : At m.nodes (up.plug (node c u g (node .red A p B))) m.root 0)
    (hnodup : (up.plug (node c u g (node .red A p B))).toList.Nodup) (hu : ¬ u.isRed = true)
    {child' q : Nat} {m' : RBTreeCtrl} {A' B' : RbTree Nat}
    (hrotate : m.rotateBelowRight child p g = some (child', q, m'))
    (hat : At m'.nodes (up.plug (node .black A' q B')) m'.root 0) (hkeeps : Keeps m m' cells) :
    Repairs m (fuel + 2) child p (up.plug (node .black A' q B')) cells := by
  have hfocus : At m.nodes ((Ctx.right c u g up).plug (node .red A p B)) m.root 0 := h
  obtain ⟨hctx, -, hp, hcp, hparent, -, -⟩ := at_plug_iff.mp hfocus
  have hside := onSide_rootOf hfocus hnodup hp
  have hstep := fixupLoop_right (fuel + 1) child hctx hp hcp hparent hside.2.2
  rw [if_neg hu] at hstep
  exact repairs_rotated hrotate hat hkeeps hstep

end Cases

/-- At the root the lines behind the loop paint the tree black. -/
theorem repairs_root {fuel : Nat} (hred : t.isRed = true) (h : At m.nodes t m.root 0)
    (hnodup : t.toList.Nodup) :
    Repairs m (fuel + 1) (rootOf t) 0 (t.paint .black) t.toList := by
  cases t with
  | nil => cases hred
  | node c l x r =>
    have hroot : m.root = x := h.1
    have hstop : RBTreeCtrl.fixupLoop (fuel + 1) x 0 m = some (x, 0, m) := by
      rw [RBTreeCtrl.fixupLoop, if_neg fun hzero => hzero.1 rfl]
    have hend : m.fixupEnd x 0 = m.set x fun n => { n with color := .black } := by
      rw [RBTreeCtrl.fixupEnd, if_pos rfl, ← hroot]
    refine ⟨x, 0, m, hstop, ?_, ?_⟩
    · rw [hend]
      have hfocus : At m.nodes (Ctx.root.plug (node c l x r)) m.root 0 := h
      exact paint_at hfocus hnodup
    · rw [hend]
      exact keeps_set (by simp) (fun _ => rfl) fun _ => rfl

/-- Below a black node nothing is repaired. -/
theorem repairs_black {fuel : Nat} (hblack : ctx.UnderBlack)
    (h : At m.nodes (ctx.plug t) m.root 0) :
    Repairs m (fuel + 1) (rootOf t) (parentOf ctx) (ctx.plug t) (ctx.plug t).toList := by
  cases ctx with
  | root => cases hblack
  | left c p r up =>
    cases hblack
    obtain ⟨hloop, hend⟩ := fixupLoop_black fuel (rootOf t) h
    refine ⟨_, _, m, hloop, ?_, ?_⟩
    · rw [hend]
      exact h
    · rw [hend]
      exact .refl _ _
  | right c l p up =>
    cases hblack
    obtain ⟨hloop, hend⟩ := fixupLoop_black fuel (rootOf t) h
    refine ⟨_, _, m, hloop, ?_, ?_⟩
    · rw [hend]
      exact h
    · rw [hend]
      exact .refl _ _

/-- The loop does the repair of a context. -/
theorem repairs_fix {fuel : Nat} (hfits : ctx.Fits n) (hred : t.isRed = true)
    (h : At m.nodes (ctx.plug t) m.root 0) (hnodup : (ctx.plug t).toList.Nodup)
    (hfuel : around ctx ≤ fuel) :
    Repairs m (fuel + 2) (rootOf t) (parentOf ctx) (ctx.fix t) (ctx.plug t).toList := by
  induction ctx, t using Recognizer.RedBlack.Ctx.fix.induct generalizing n m fuel with
  | case1 t => exact repairs_root hred h hnodup
  | case2 p r c g u up t hu ih =>
    obtain ⟨-, -, hblack, hfits'⟩ := hfits.left_red
    obtain ⟨-, hup⟩ := hfits'.left_black hblack
    rw [around_left, around_left] at hfuel
    obtain ⟨k, rfl⟩ : ∃ k, fuel = k + 1 := ⟨fuel - 1, by omega⟩
    simp only [Ctx.fix, if_pos hu]
    exact repairs_recolor_left h hnodup hu fun m' hat hnodup' =>
      ih hup rfl hat hnodup' (by omega)
  | case3 p r c g u up t hu =>
    have hchild := rootOf_of_red (at_plug_iff.mp h).2 hred
    obtain ⟨m', hrotate, hat, hkeeps⟩ := rotateBelowLeft_outer h hnodup hchild
    simp only [Ctx.fix, if_neg hu]
    exact repairs_rotate_left h hu hrotate hat hkeeps
  | case4 l p c g u up t hu ih =>
    obtain ⟨-, -, hblack, hfits'⟩ := hfits.right_red
    obtain ⟨-, hup⟩ := hfits'.left_black hblack
    rw [around_right, around_left] at hfuel
    obtain ⟨k, rfl⟩ : ∃ k, fuel = k + 1 := ⟨fuel - 1, by omega⟩
    simp only [Ctx.fix, if_pos hu]
    exact repairs_recolor_left h hnodup hu fun m' hat hnodup' =>
      ih hup rfl hat hnodup' (by omega)
  | case5 l p c g u up hu => cases hred
  | case6 l p c g u up hu c' b x d =>
    obtain ⟨m', hrotate, hat, hkeeps⟩ := rotateBelowLeft_inner h hnodup
    simp only [Ctx.fix, if_neg hu]
    exact repairs_rotate_left h hu hrotate hat hkeeps
  | case7 l p c u g up t hu ih =>
    obtain ⟨-, -, hblack, hfits'⟩ := hfits.right_red
    obtain ⟨-, hup⟩ := hfits'.right_black hblack
    rw [around_right, around_right] at hfuel
    obtain ⟨k, rfl⟩ : ∃ k, fuel = k + 1 := ⟨fuel - 1, by omega⟩
    simp only [Ctx.fix, if_pos hu]
    exact repairs_recolor_right h hnodup hu fun m' hat hnodup' =>
      ih hup rfl hat hnodup' (by omega)
  | case8 l p c u g up t hu =>
    have hchild := rootOf_of_red (at_plug_iff.mp h).2 hred
    obtain ⟨m', hrotate, hat, hkeeps⟩ := rotateBelowRight_outer h hnodup hchild
    simp only [Ctx.fix, if_neg hu]
    exact repairs_rotate_right h hnodup hu hrotate hat hkeeps
  | case9 p r c u g up t hu ih =>
    obtain ⟨-, -, hblack, hfits'⟩ := hfits.left_red
    obtain ⟨-, hup⟩ := hfits'.right_black hblack
    rw [around_left, around_right] at hfuel
    obtain ⟨k, rfl⟩ : ∃ k, fuel = k + 1 := ⟨fuel - 1, by omega⟩
    simp only [Ctx.fix, if_pos hu]
    exact repairs_recolor_right h hnodup hu fun m' hat hnodup' =>
      ih hup rfl hat hnodup' (by omega)
  | case10 p r c u g up hu => cases hred
  | case11 p r c u g up hu c' b x d =>
    obtain ⟨m', hrotate, hat, hkeeps⟩ := rotateBelowRight_inner h hnodup
    simp only [Ctx.fix, if_neg hu]
    exact repairs_rotate_right h hnodup hu hrotate hat hkeeps
  | case12 ctx t hnroot hll hrl hrr hlr =>
    have hblack := hfits.underBlack (fun heq => hnroot heq) hll hrl hrr hlr
    rw [hblack.fix]
    exact repairs_black hblack h

/-- `rbtree_fixup` does the repair of a context. -/
theorem rbtreeFixup_at (hfits : ctx.Fits n) (hred : t.isRed = true)
    (h : At m.nodes (ctx.plug t) m.root 0) (hnodup : (ctx.plug t).toList.Nodup)
    (hfuel : around ctx + 2 ≤ m.next) :
    ∃ m', m.rbtreeFixup (rootOf t) = some m' ∧ At m'.nodes (ctx.fix t) m'.root 0 ∧
      Keeps m m' (ctx.plug t).toList := by
  obtain ⟨k, hk⟩ : ∃ k, m.next = k + 2 := ⟨m.next - 2, by omega⟩
  have hparent : (m.nodes (rootOf t)).parent = parentOf ctx := by
    cases t with
    | nil => cases hred
    | node c l x r => exact (at_plug_iff.mp h).2.2.2.2.1
  obtain ⟨child, parent, m₁, hloop, hat, hkeeps⟩ := repairs_fix hfits hred h hnodup
    (show around ctx ≤ k by omega)
  refine ⟨m₁.fixupEnd child parent, ?_, hat, hkeeps⟩
  simp only [RBTreeCtrl.rbtreeFixup, hparent, hk, hloop, Option.bind_eq_bind, Option.bind_some]

end Rbtree

end Recognizer
