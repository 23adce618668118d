import Recognizer.Rbtree.Shape

/-!
# Rotations and colours

A rotation turns one subtree of a tree in memory, wherever it is, and writes to nodes
of the tree only.
-/

namespace Recognizer

namespace Rbtree

open RedBlack (Color RbTree Ctx)

variable {m m' m'' : RBTreeCtrl} {cells : List Nat}

/-- What an operation on the links and colours of some nodes leaves alone. -/
structure Keeps (m m' : RBTreeCtrl) (cells : List Nat) : Prop where
  nodes : ∀ a ∉ cells, m'.nodes a = m.nodes a
  key : ∀ a, (m'.nodes a).key = (m.nodes a).key
  data : ∀ a, (m'.nodes a).data = (m.nodes a).data
  next : m'.next = m.next
  count : m'.count = m.count
  poolRoot : m'.poolRoot = m.poolRoot
  poolPtr : m'.poolPtr = m.poolPtr

theorem Keeps.refl (m : RBTreeCtrl) (cells : List Nat) : Keeps m m cells :=
  ⟨fun _ _ => rfl, fun _ => rfl, fun _ => rfl, rfl, rfl, rfl, rfl⟩

theorem Keeps.trans (h : Keeps m m' cells) (h' : Keeps m' m'' cells) : Keeps m m'' cells where
  nodes a ha := (h'.nodes a ha).trans (h.nodes a ha)
  key a := (h'.key a).trans (h.key a)
  data a := (h'.data a).trans (h.data a)
  next := h'.next.trans h.next
  count := h'.count.trans h.count
  poolRoot := h'.poolRoot.trans h.poolRoot
  poolPtr := h'.poolPtr.trans h.poolPtr

theorem Keeps.mono {cells' : List Nat} (h : Keeps m m' cells) (hsub : cells ⊆ cells') :
    Keeps m m' cells' :=
  ⟨fun a ha => h.nodes a fun hin => ha (hsub hin), h.key, h.data, h.next, h.count, h.poolRoot,
    h.poolPtr⟩

section Set

variable {a b : Nat} {f : Node → Node}

@[simp] theorem set_self : (m.set a f).nodes a = f (m.nodes a) := by
  simp [RBTreeCtrl.set]

@[simp] theorem set_of_ne (h : b ≠ a) : (m.set a f).nodes b = m.nodes b := by
  simp [RBTreeCtrl.set, h]

@[simp] theorem set_next : (m.set a f).next = m.next := rfl

@[simp] theorem set_count : (m.set a f).count = m.count := rfl

@[simp] theorem set_root : (m.set a f).root = m.root := rfl

@[simp] theorem set_poolRoot : (m.set a f).poolRoot = m.poolRoot := rfl

@[simp] theorem set_poolPtr : (m.set a f).poolPtr = m.poolPtr := rfl

/-- A write that keeps the key and the data of a node. -/
theorem keeps_set (ha : a ∈ cells) (hkey : ∀ x, (f x).key = x.key)
    (hdata : ∀ x, (f x).data = x.data) : Keeps m (m.set a f) cells where
  nodes b hb := set_of_ne fun heq => hb (heq ▸ ha)
  key b := by
    by_cases hb : b = a
    · subst hb
      rw [set_self, hkey]
    · rw [set_of_ne hb]
  data b := by
    by_cases hb : b = a
    · subst hb
      rw [set_self, hdata]
    · rw [set_of_ne hb]
  next := rfl
  count := rfl
  poolRoot := rfl
  poolPtr := rfl

end Set

section Paint

variable {ctx : Ctx Nat} {c c' : Color} {l r : RbTree Nat} {x : Nat}

/-- Painting a node of a tree. -/
theorem paint_at (h : At m.nodes (ctx.plug (.node c l x r)) m.root 0)
    (hnodup : (ctx.plug (.node c l x r)).toList.Nodup) :
    At (m.set x fun n => { n with color := c' }).nodes (ctx.plug (.node c' l x r)) m.root 0 := by
  rw [RedBlack.Ctx.toList_plug, RedBlack.RbTree.toList_node, List.append_assoc, List.cons_append,
    ← List.append_assoc, List.nodup_middle, List.nodup_cons] at hnodup
  have hx := hnodup.1
  simp only [List.mem_append, not_or] at hx
  obtain ⟨hctx, -, hzero, -, hp, hl, hr⟩ := at_plug_iff.mp h
  refine at_plug_iff.mpr ⟨hctx.congr fun y hy => set_of_ne ?_, rfl, hzero, ?_, ?_, ?_, ?_⟩
  · rintro rfl
    simp only [List.mem_append] at hy
    tauto
  · simp
  · simp [hp]
  · simp only [set_self]
    exact hl.congr fun y hy => set_of_ne fun heq => hx.1.2 (heq ▸ hy)
  · simp only [set_self]
    exact hr.congr fun y hy => set_of_ne fun heq => hx.2.1 (heq ▸ hy)

end Paint

section Turn

variable {ctx : Ctx Nat} {t tmp b a : Nat} {f g : Node → Node}

/-- Put a subtree into the hole of the context. -/
def hang (m : RBTreeCtrl) (tmp : Nat) : Ctx Nat → RBTreeCtrl
  | .root => { m with root := tmp }
  | .left _ p _ _ => m.set p fun x => { x with left := tmp }
  | .right _ _ p _ => m.set p fun x => { x with right := tmp }

theorem replaceLeft_eq (hp : (m.nodes t).parent = parentOf ctx) (hside : OnSide m.nodes t ctx) :
    m.replaceLeft t tmp = hang m tmp ctx := by
  unfold RBTreeCtrl.replaceLeft
  rw [hp]
  cases ctx with
  | root => rfl
  | left c p r up =>
    obtain ⟨hzero, hleft, -⟩ := hside
    simp [parentOf, hang, hzero, hleft]
  | right c l p up =>
    obtain ⟨hzero, -, hleft⟩ := hside
    simp [parentOf, hang, hzero, hleft.symm]

theorem replaceRight_eq (hp : (m.nodes t).parent = parentOf ctx) (hside : OnSide m.nodes t ctx) :
    m.replaceRight t tmp = hang m tmp ctx := by
  unfold RBTreeCtrl.replaceRight
  rw [hp]
  cases ctx with
  | root => rfl
  | left c p r up =>
    obtain ⟨hzero, -, hright⟩ := hside
    simp [parentOf, hang, hzero, hright.symm]
  | right c l p up =>
    obtain ⟨hzero, hright, -⟩ := hside
    simp [parentOf, hang, hzero, hright]

theorem hang_of_ne (ha : a ≠ parentOf ctx) : (hang m tmp ctx).nodes a = m.nodes a := by
  cases ctx with
  | root => rfl
  | left c p r up =>
    rw [hang]
    exact set_of_ne ha
  | right c l p up =>
    rw [hang]
    exact set_of_ne ha

theorem hang_parentOf (hp : parentOf ctx ≠ 0) :
    (hang m tmp ctx).nodes (parentOf ctx) = relink tmp ctx (m.nodes (parentOf ctx)) := by
  cases ctx with
  | root => exact absurd rfl hp
  | left c p r up =>
    rw [hang]
    exact set_self
  | right c l p up =>
    rw [hang]
    exact set_self

theorem hang_root (hside : ctx ≠ .root → parentOf ctx ≠ 0) :
    (hang m tmp ctx).root = if parentOf ctx = 0 then tmp else m.root := by
  cases ctx with
  | root => rfl
  | left c p r up => exact (if_neg (hside nofun)).symm
  | right c l p up => exact (if_neg (hside nofun)).symm

theorem adopt_of_ne (ha : a ≠ b) : (m.adopt b t).nodes a = m.nodes a := by
  unfold RBTreeCtrl.adopt
  split
  · exact set_of_ne ha
  · rfl

theorem adopt_self (hb : b ≠ 0) : (m.adopt b t).nodes b = { m.nodes b with parent := t } := by
  rw [RBTreeCtrl.adopt, if_pos hb]
  exact set_self

theorem adopt_root : (m.adopt b t).root = m.root := by
  unfold RBTreeCtrl.adopt
  split <;> rfl

/-- The writes of a rotation at `t`, whose child `tmp` gives its inner subtree `b` away. -/
def turn (m : RBTreeCtrl) (ctx : Ctx Nat) (t tmp b : Nat) (f g : Node → Node) : RBTreeCtrl :=
  let m := hang ((m.set t f).adopt b t) tmp ctx
  let m := m.set tmp fun x => { g x with parent := parentOf ctx }
  m.set t fun x => { x with parent := tmp }

/-- The nodes after a rotation. -/
structure Turned (m m' : RBTreeCtrl) (ctx : Ctx Nat) (t tmp b : Nat) (f g : Node → Node) :
    Prop where
  top : m'.nodes t = { f (m.nodes t) with parent := tmp }
  pivot : m'.nodes tmp = { g (m.nodes tmp) with parent := parentOf ctx }
  inner : b ≠ 0 → m'.nodes b = { m.nodes b with parent := t }
  up : parentOf ctx ≠ 0 →
    m'.nodes (parentOf ctx) = relink tmp ctx (m.nodes (parentOf ctx))
  other : ∀ a, a ≠ t → a ≠ tmp → a ≠ b → a ≠ parentOf ctx → m'.nodes a = m.nodes a
  root : m'.root = if parentOf ctx = 0 then tmp else m.root

theorem turned_turn (htmp : t ≠ tmp) (hbt : b ≠ t) (hbtmp : b ≠ tmp) (hpt : parentOf ctx ≠ t)
    (hptmp : parentOf ctx ≠ tmp) (hpb : parentOf ctx ≠ 0 → parentOf ctx ≠ b)
    (hside : OnSide m.nodes t ctx) : Turned m (turn m ctx t tmp b f g) ctx t tmp b f g where
  top := by
    simp only [turn, set_self, set_of_ne htmp, hang_of_ne hpt.symm, adopt_of_ne hbt.symm]
  pivot := by
    simp only [turn, set_self, set_of_ne htmp.symm, hang_of_ne hptmp.symm,
      adopt_of_ne hbtmp.symm]
  inner hb := by
    by_cases hp : parentOf ctx = 0
    · have hbp : b ≠ parentOf ctx := fun heq => hb (heq.trans hp)
      simp only [turn, set_of_ne hbt, set_of_ne hbtmp, hang_of_ne hbp, adopt_self hb]
    · simp only [turn, set_of_ne hbt, set_of_ne hbtmp, hang_of_ne (hpb hp).symm, adopt_self hb]
  up hp := by
    simp only [turn, set_of_ne hpt, set_of_ne hptmp, hang_parentOf hp, adopt_of_ne (hpb hp)]
  other a hat hatmp hab hap := by
    simp only [turn, set_of_ne hat, set_of_ne hatmp, hang_of_ne hap, adopt_of_ne hab]
  root := by
    simp only [turn, set_root]
    rw [hang_root hside.parentOf_ne_zero, adopt_root, set_root]

theorem keeps_adopt (hb : b ≠ 0 → b ∈ cells) : Keeps m (m.adopt b t) cells := by
  unfold RBTreeCtrl.adopt
  split
  · rename_i hne
    exact keeps_set (hb hne) (fun _ => rfl) fun _ => rfl
  · exact .refl m cells

theorem keeps_hang (hp : ctx ≠ .root → parentOf ctx ∈ cells) : Keeps m (hang m tmp ctx) cells := by
  cases ctx with
  | root => exact ⟨fun _ _ => rfl, fun _ => rfl, fun _ => rfl, rfl, rfl, rfl, rfl⟩
  | left c p r up =>
    rw [hang]
    exact keeps_set (hp nofun) (fun _ => rfl) fun _ => rfl
  | right c l p up =>
    rw [hang]
    exact keeps_set (hp nofun) (fun _ => rfl) fun _ => rfl

/-- A rotation keeps the keys and the data. -/
theorem keeps_turn (ht : t ∈ cells) (htmp : tmp ∈ cells) (hb : b ≠ 0 → b ∈ cells)
    (hp : ctx ≠ .root → parentOf ctx ∈ cells) (hf : ∀ x, (f x).key = x.key ∧ (f x).data = x.data)
    (hg : ∀ x, (g x).key = x.key ∧ (g x).data = x.data) :
    Keeps m (turn m ctx t tmp b f g) cells := by
  have hset : Keeps m (m.set t f) cells := keeps_set ht (fun x => (hf x).1) fun x => (hf x).2
  have hadopt : Keeps (m.set t f) ((m.set t f).adopt b t) cells := keeps_adopt hb
  have hhang : Keeps ((m.set t f).adopt b t) (hang ((m.set t f).adopt b t) tmp ctx) cells :=
    keeps_hang hp
  have hpivot : Keeps _ ((hang ((m.set t f).adopt b t) tmp ctx).set tmp fun x =>
      { g x with parent := parentOf ctx }) cells :=
    keeps_set htmp (fun x => (hg x).1) fun x => (hg x).2
  have htop : Keeps _ (turn m ctx t tmp b f g) cells :=
    keeps_set (f := fun x => { x with parent := tmp }) ht (fun _ => rfl) fun _ => rfl
  exact (((hset.trans hadopt).trans hhang).trans hpivot).trans htop

end Turn

section Rotate

variable {ctx : Ctx Nat} {cx cy : Color} {T A B C : RbTree Nat} {x y : Nat}

/-- How the nodes of a rotation are distinct. -/
structure Parts (ctx : Ctx Nat) (A B C : RbTree Nat) (x y : Nat) : Prop where
  ne : x ≠ y
  inner_left : rootOf B ≠ x
  inner_right : rootOf B ≠ y
  up_left : parentOf ctx ≠ x
  up_right : parentOf ctx ≠ y
  up_inner : parentOf ctx ≠ 0 → parentOf ctx ≠ rootOf B
  outer : ∀ z, z ∈ A.toList ∨ z ∈ C.toList →
    z ≠ x ∧ z ≠ y ∧ z ≠ rootOf B ∧ z ≠ parentOf ctx
  inner : ∀ z ∈ B.toList, z ≠ x ∧ z ≠ y ∧ z ≠ parentOf ctx
  around : ∀ z ∈ ctx.before ++ ctx.after, z ≠ x ∧ z ≠ y ∧ z ≠ rootOf B
  nodup : B.toList.Nodup
  around_nodup : (ctx.before ++ ctx.after).Nodup

/-- The nodes of a rotation are distinct. -/
theorem parts (h : At m.nodes (ctx.plug T) m.root 0) (hnodup : (ctx.plug T).toList.Nodup)
    (hT : T.toList = A.toList ++ x :: (B.toList ++ y :: C.toList)) : Parts ctx A B C x y := by
  have hzero := At.zero_notMem h
  have hp := parentOf_notMem h hnodup
  have hctx := fun z => notMem_ctx (x := z) hnodup
  have hTnodup := nodup_subtree hnodup
  rw [RedBlack.Ctx.toList_plug, hT] at hzero
  rw [hT] at hp hctx hTnodup
  rw [List.nodup_append, List.nodup_cons, List.nodup_append, List.nodup_cons] at hTnodup
  obtain ⟨-, ⟨hx, hB, ⟨hy, -⟩, hBC⟩, hA⟩ := hTnodup
  simp only [List.mem_append, List.mem_cons, not_or] at hzero hp hx hA hBC
  have hroot : ∀ z, z ≠ 0 → z ∉ B.toList → z ≠ rootOf B := by
    rintro z hz hmem rfl
    exact hmem (rootOf_mem hz)
  have hx0 : x ≠ 0 := Ne.symm hzero.2.1.2.1
  have hy0 : y ≠ 0 := Ne.symm hzero.2.1.2.2.2.1
  have hyB : y ∉ B.toList := fun hin => hBC y hin y (.inl rfl) rfl
  refine ⟨hx.2.1, (hroot x hx0 hx.1).symm, (hroot y hy0 hyB).symm, hp.2.1, hp.2.2.2.1,
    fun hne => hroot _ hne hp.2.2.1, ?_, ?_, ?_, hB, nodup_ctx hnodup⟩
  · rintro z (hz | hz)
    · have hz0 : z ≠ 0 := fun heq => hzero.2.1.1 (heq ▸ hz)
      exact ⟨hA z hz x (.inl rfl), hA z hz y (.inr (.inr (.inl rfl))),
        hroot z hz0 fun hin => hA z hz z (.inr (.inl hin)) rfl, fun heq => hp.1 (heq ▸ hz)⟩
    · have hz0 : z ≠ 0 := fun heq => hzero.2.1.2.2.2.2 (heq ▸ hz)
      exact ⟨fun heq => hx.2.2 (heq ▸ hz), fun heq => hy (heq ▸ hz),
        hroot z hz0 fun hin => hBC z hin z (.inr hz) rfl, fun heq => hp.2.2.2.2 (heq ▸ hz)⟩
  · intro z hz
    exact ⟨fun heq => hx.1 (heq ▸ hz), fun heq => hyB (heq ▸ hz), fun heq => hp.2.2.1 (heq ▸ hz)⟩
  · intro z hz
    have hz0 : z ≠ 0 := by
      rintro rfl
      rcases List.mem_append.mp hz with hin | hin
      · exact hzero.1 hin
      · exact hzero.2.2 hin
    exact ⟨fun heq => hctx x (by simp) (heq ▸ hz), fun heq => hctx y (by simp) (heq ▸ hz),
      hroot z hz0 fun hmem => hctx z (by simp [hmem]) hz⟩

/-- The context of a rotation. -/
theorem turned_ctx {m' : RBTreeCtrl} {t tmp : Nat} {f g : Node → Node}
    (h : Turned m m' ctx t tmp (rootOf B) f g) (hctx : CtxAt m.nodes ctx t m.root)
    (hparts : Parts ctx A B C x y) (hxy : (t = x ∧ tmp = y) ∨ (t = y ∧ tmp = x)) :
    CtxAt m'.nodes ctx tmp m'.root := by
  refine hctx.relink hparts.around_nodup h.up (fun z hz hzp => ?_) h.root
  obtain ⟨hzx, hzy, hzb⟩ := hparts.around z hz
  rcases hxy with ⟨rfl, rfl⟩ | ⟨rfl, rfl⟩
  · exact h.other z hzx hzy hzb hzp
  · exact h.other z hzy hzx hzb hzp

/-- A rotation at `x` to the left. -/
theorem leftRotate_eq (h : At m.nodes (ctx.plug (.node cx A x (.node cy B y C))) m.root 0)
    (hnodup : (ctx.plug (.node cx A x (.node cy B y C))).toList.Nodup) :
    m.leftRotate x = some (turn m ctx x y (rootOf B) (fun n => { n with right := rootOf B })
      fun n => { n with left := x }) := by
  have hparts := parts (A := A) (B := B) (C := C) (x := x) (y := y) h hnodup rfl
  obtain ⟨hctx, -, hx, -, hparent, -, hright, hy, -, -, hB, -⟩ := at_plug_iff.mp h
  have hside : OnSide m.nodes x ctx := onSide_rootOf h hnodup hx
  have hb : (m.nodes y).left = rootOf B := hB.eq_rootOf
  have hright' : (m.nodes x).right = y := hright
  obtain ⟨m₁, hm₁⟩ : ∃ m₁, m₁ = (m.set x fun n => { n with right := rootOf B }).adopt (rootOf B) x :=
    ⟨_, rfl⟩
  have hx₁ : (m₁.nodes x).parent = parentOf ctx := by
    rw [hm₁, adopt_of_ne hparts.inner_left.symm, set_self]
    exact hparent
  have hside₁ : OnSide m₁.nodes x ctx := by
    refine hside.congr fun hzero => ?_
    rw [hm₁, adopt_of_ne (hparts.up_inner hzero), set_of_ne hparts.up_left]
  have hx₂ : ((hang m₁ y ctx).nodes x).parent = parentOf ctx := by
    rw [hang_of_ne hparts.up_left.symm, hx₁]
  simp only [RBTreeCtrl.leftRotate, if_neg hx, hright', if_neg hy, set_of_ne hparts.ne.symm, hb,
    ← hm₁, replaceLeft_eq hx₁ hside₁, hx₂]
  rw [turn, ← hm₁]

/-- A rotation at `y` to the right. -/
theorem rightRotate_eq (h : At m.nodes (ctx.plug (.node cy (.node cx A x B) y C)) m.root 0)
    (hnodup : (ctx.plug (.node cy (.node cx A x B) y C)).toList.Nodup) :
    m.rightRotate y = some (turn m ctx y x (rootOf B) (fun n => { n with left := rootOf B })
      fun n => { n with right := y }) := by
  have hparts := parts (A := A) (B := B) (C := C) (x := x) (y := y) h hnodup (by simp)
  obtain ⟨hctx, -, hy, -, hparent, ⟨hleft, hx, -, -, -, hB⟩, -⟩ := at_plug_iff.mp h
  have hside : OnSide m.nodes y ctx := onSide_rootOf h hnodup hy
  have hb : (m.nodes x).right = rootOf B := hB.eq_rootOf
  obtain ⟨m₁, hm₁⟩ : ∃ m₁, m₁ = (m.set y fun n => { n with left := rootOf B }).adopt (rootOf B) y :=
    ⟨_, rfl⟩
  have hy₁ : (m₁.nodes y).parent = parentOf ctx := by
    rw [hm₁, adopt_of_ne hparts.inner_right.symm, set_self]
    exact hparent
  have hside₁ : OnSide m₁.nodes y ctx := by
    refine hside.congr fun hzero => ?_
    rw [hm₁, adopt_of_ne (hparts.up_inner hzero), set_of_ne hparts.up_right]
  have hy₂ : ((hang m₁ x ctx).nodes y).parent = parentOf ctx := by
    rw [hang_of_ne hparts.up_right.symm, hy₁]
  simp only [RBTreeCtrl.rightRotate, if_neg hy, hleft, if_neg hx, set_of_ne hparts.ne, hb,
    ← hm₁, replaceRight_eq hy₁ hside₁, hy₂]
  rw [turn, ← hm₁]

/-- What a rotation keeps. -/
theorem keeps_rotate {t tmp : Nat} {f g : Node → Node} (hside : OnSide m.nodes t ctx)
    (hT : T.toList = A.toList ++ x :: (B.toList ++ y :: C.toList))
    (hxy : (t = x ∧ tmp = y) ∨ (t = y ∧ tmp = x))
    (hf : ∀ x, (f x).key = x.key ∧ (f x).data = x.data)
    (hg : ∀ x, (g x).key = x.key ∧ (g x).data = x.data) :
    Keeps m (turn m ctx t tmp (rootOf B) f g) (ctx.plug T).toList := by
  have hmem : x ∈ (ctx.plug T).toList ∧ y ∈ (ctx.plug T).toList := by
    simp [RedBlack.Ctx.toList_plug, hT]
  refine keeps_turn ?_ ?_ (fun hb => ?_) (fun hroot => ?_) hf hg
  · rcases hxy with ⟨rfl, -⟩ | ⟨rfl, -⟩
    · exact hmem.1
    · exact hmem.2
  · rcases hxy with ⟨-, rfl⟩ | ⟨-, rfl⟩
    · exact hmem.2
    · exact hmem.1
  · simp [RedBlack.Ctx.toList_plug, hT, rootOf_mem hb]
  · have hin := parentOf_mem (hside.parentOf_ne_zero hroot)
    simp only [RedBlack.Ctx.toList_plug, List.mem_append] at hin ⊢
    tauto

/-- `left_rotate` turns a subtree to the left. -/
theorem leftRotate_at (h : At m.nodes (ctx.plug (.node cx A x (.node cy B y C))) m.root 0)
    (hnodup : (ctx.plug (.node cx A x (.node cy B y C))).toList.Nodup) :
    ∃ m', m.leftRotate x = some m' ∧
      At m'.nodes (ctx.plug (.node cy (.node cx A x B) y C)) m'.root 0 ∧
      Keeps m m' (ctx.plug (.node cx A x (.node cy B y C))).toList := by
  have hparts := parts (A := A) (B := B) (C := C) (x := x) (y := y) h hnodup rfl
  obtain ⟨hctx, -, hx, hcx, -, hA, -, hy, hcy, -, hB, hC⟩ := at_plug_iff.mp h
  have hside : OnSide m.nodes x ctx := onSide_rootOf h hnodup hx
  have hturned := turned_turn (f := fun n => { n with right := rootOf B })
    (g := fun n => { n with left := x }) hparts.ne hparts.inner_left hparts.inner_right
    hparts.up_left hparts.up_right hparts.up_inner hside
  have hsame : ∀ z, z ∈ A.toList ∨ z ∈ C.toList → _ := fun z hz =>
    hturned.other z (hparts.outer z hz).1 (hparts.outer z hz).2.1 (hparts.outer z hz).2.2.1
      (hparts.outer z hz).2.2.2
  refine ⟨_, leftRotate_eq h hnodup, at_plug_iff.mpr ⟨?_, ?_⟩, ?_⟩
  · exact turned_ctx hturned hctx hparts (.inl ⟨rfl, rfl⟩)
  · refine ⟨rfl, hy, ?_, ?_, ?_, ?_⟩
    · rw [hturned.pivot]
      exact hcy
    · rw [hturned.pivot]
    · rw [hturned.pivot]
      refine ⟨rfl, hx, ?_, ?_, ?_, ?_⟩
      · rw [hturned.top]
        exact hcx
      · rw [hturned.top]
      · rw [hturned.top]
        exact hA.congr fun z hz => hsame z (.inl hz)
      · rw [hturned.top]
        have hB' : At m.nodes B (rootOf B) y := hB.eq_rootOf ▸ hB
        exact hB'.reparent hparts.nodup hturned.inner fun z hz hzb =>
          hturned.other z (hparts.inner z hz).1 (hparts.inner z hz).2.1 hzb (hparts.inner z hz).2.2
    · rw [hturned.pivot]
      exact hC.congr fun z hz => hsame z (.inr hz)
  · exact keeps_rotate hside rfl (.inl ⟨rfl, rfl⟩) (fun _ => ⟨rfl, rfl⟩) fun _ => ⟨rfl, rfl⟩

/-- `right_rotate` turns a subtree to the right. -/
theorem rightRotate_at (h : At m.nodes (ctx.plug (.node cy (.node cx A x B) y C)) m.root 0)
    (hnodup : (ctx.plug (.node cy (.node cx A x B) y C)).toList.Nodup) :
    ∃ m', m.rightRotate y = some m' ∧
      At m'.nodes (ctx.plug (.node cx A x (.node cy B y C))) m'.root 0 ∧
      Keeps m m' (ctx.plug (.node cy (.node cx A x B) y C)).toList := by
  have hlist : (RbTree.node cy (.node cx A x B) y C).toList =
      A.toList ++ x :: (B.toList ++ y :: C.toList) := by simp
  have hparts := parts h hnodup hlist
  obtain ⟨hctx, -, hy, hcy, -, ⟨-, hx, hcx, -, hA, hB⟩, hC⟩ := at_plug_iff.mp h
  have hside : OnSide m.nodes y ctx := onSide_rootOf h hnodup hy
  have hturned := turned_turn (f := fun n => { n with left := rootOf B })
    (g := fun n => { n with right := y }) hparts.ne.symm hparts.inner_right hparts.inner_left
    hparts.up_right hparts.up_left hparts.up_inner hside
  have hsame : ∀ z, z ∈ A.toList ∨ z ∈ C.toList → _ := fun z hz =>
    hturned.other z (hparts.outer z hz).2.1 (hparts.outer z hz).1 (hparts.outer z hz).2.2.1
      (hparts.outer z hz).2.2.2
  refine ⟨_, rightRotate_eq h hnodup, at_plug_iff.mpr ⟨?_, ?_⟩, ?_⟩
  · exact turned_ctx hturned hctx hparts (.inr ⟨rfl, rfl⟩)
  · refine ⟨rfl, hx, ?_, ?_, ?_, ?_⟩
    · rw [hturned.pivot]
      exact hcx
    · rw [hturned.pivot]
    · rw [hturned.pivot]
      exact hA.congr fun z hz => hsame z (.inl hz)
    · rw [hturned.pivot]
      refine ⟨rfl, hy, ?_, ?_, ?_, ?_⟩
      · rw [hturned.top]
        exact hcy
      · rw [hturned.top]
      · rw [hturned.top]
        have hB' : At m.nodes B (rootOf B) x := hB.eq_rootOf ▸ hB
        exact hB'.reparent hparts.nodup hturned.inner fun z hz hzb =>
          hturned.other z (hparts.inner z hz).2.1 (hparts.inner z hz).1 hzb (hparts.inner z hz).2.2
      · rw [hturned.top]
        exact hC.congr fun z hz => hsame z (.inr hz)
  · exact keeps_rotate hside hlist (.inr ⟨rfl, rfl⟩) (fun _ => ⟨rfl, rfl⟩) fun _ => ⟨rfl, rfl⟩

end Rotate

end Rbtree

end Recognizer
