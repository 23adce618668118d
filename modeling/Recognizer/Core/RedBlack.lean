import Mathlib.Data.List.Basic

/-!
# Red-black trees and their contexts

A context is a tree with a hole: the path from the hole to the root, with the subtrees
that hang off it. Insertion descends to an empty hole, fills it with a red node and
repairs the path upwards.
-/

namespace Recognizer

namespace RedBlack

/-- The colour of a node. -/
inductive Color where
  | red
  | black
  deriving DecidableEq, Repr

/-- A binary tree of coloured nodes. -/
inductive RbTree (α : Type*) where
  | nil
  | node (color : Color) (left : RbTree α) (val : α) (right : RbTree α)

/-- A tree with a hole. -/
inductive Ctx (α : Type*) where
  | root
  | left (color : Color) (val : α) (right : RbTree α) (up : Ctx α)
  | right (color : Color) (left : RbTree α) (val : α) (up : Ctx α)

variable {α : Type*}

namespace RbTree

/-- The values in order. -/
def toList : RbTree α → List α
  | nil => []
  | node _ l a r => l.toList ++ a :: r.toList

/-- The root is a red node. -/
def isRed : RbTree α → Bool
  | nil => false
  | node c _ _ _ => c == .red

/-- The same tree with another colour at the root. -/
def paint (c : Color) : RbTree α → RbTree α
  | nil => nil
  | node _ l a r => node c l a r

/-- No red node has a red child. -/
def NoRedRed : RbTree α → Prop
  | nil => True
  | node c l _ r =>
    (c = .red → l.isRed = false ∧ r.isRed = false) ∧ l.NoRedRed ∧ r.NoRedRed

/-- The numbers of black nodes on the paths from the root to the leaves. -/
def blackCounts : RbTree α → List Nat
  | nil => [0]
  | node c l _ r =>
    (l.blackCounts ++ r.blackCounts).map fun n => if c = .black then n + 1 else n

/-- A tree without a red node above a red one, with `n` black nodes on every path. -/
inductive Balanced : RbTree α → Nat → Prop where
  | nil : Balanced nil 0
  | red {l r : RbTree α} {a : α} {n : Nat} : Balanced l n → Balanced r n → l.isRed = false →
    r.isRed = false → Balanced (node .red l a r) n
  | black {l r : RbTree α} {a : α} {n : Nat} : Balanced l n → Balanced r n →
    Balanced (node .black l a r) (n + 1)

/-- A red-black tree. -/
def IsRedBlack (t : RbTree α) : Prop := t.isRed = false ∧ ∃ n, t.Balanced n

@[simp] theorem toList_nil : (nil : RbTree α).toList = [] := rfl

@[simp] theorem toList_node (c : Color) (l r : RbTree α) (a : α) :
    (node c l a r).toList = l.toList ++ a :: r.toList := rfl

@[simp] theorem toList_paint (c : Color) (t : RbTree α) : (t.paint c).toList = t.toList := by
  cases t <;> rfl

theorem Balanced.noRedRed {t : RbTree α} {n : Nat} (h : t.Balanced n) : t.NoRedRed := by
  induction h with
  | nil => trivial
  | red _ _ hl hr ihl ihr => exact ⟨fun _ => ⟨hl, hr⟩, ihl, ihr⟩
  | black _ _ ihl ihr => exact ⟨(fun hc => nomatch hc), ihl, ihr⟩

theorem Balanced.blackCounts {t : RbTree α} {n : Nat} (h : t.Balanced n) :
    ∀ k ∈ t.blackCounts, k = n := by
  induction h with
  | nil => simp [RbTree.blackCounts]
  | red _ _ _ _ ihl ihr =>
    intro k hk
    simp only [RbTree.blackCounts, List.mem_map, List.mem_append] at hk
    obtain ⟨j, hj, rfl⟩ := hk
    rcases hj with hj | hj
    · simpa using ihl j hj
    · simpa using ihr j hj
  | black _ _ ihl ihr =>
    intro k hk
    simp only [RbTree.blackCounts, List.mem_map, List.mem_append] at hk
    obtain ⟨j, hj, rfl⟩ := hk
    rcases hj with hj | hj
    · simpa using ihl j hj
    · simpa using ihr j hj

theorem isRed_paint_black (t : RbTree α) : (t.paint .black).isRed = false := by
  cases t <;> rfl

/-- A tree whose root is painted black is a red-black tree. -/
theorem Balanced.paint_black {t : RbTree α} {n : Nat} (h : t.Balanced n) :
    (t.paint .black).IsRedBlack := by
  cases h with
  | nil => exact ⟨rfl, 0, .nil⟩
  | red hl hr _ _ => exact ⟨rfl, _, .black hl hr⟩
  | black hl hr => exact ⟨rfl, _, .black hl hr⟩

theorem Balanced.children_of_red {c : Color} {l r : RbTree α} {a : α} {n : Nat}
    (h : (node c l a r).Balanced n) (hred : (node c l a r).isRed = true) :
    l.Balanced n ∧ r.Balanced n ∧ l.isRed = false ∧ r.isRed = false := by
  cases h with
  | red hl hr hlb hrb => exact ⟨hl, hr, hlb, hrb⟩
  | black _ _ => cases hred

/-- Painting a red root black adds one black node to every path. -/
theorem Balanced.paint_of_red {t : RbTree α} {n : Nat} (h : t.Balanced n) (hred : t.isRed = true) :
    (t.paint .black).Balanced (n + 1) := by
  cases h with
  | nil => cases hred
  | red hl hr _ _ => exact .black hl hr
  | black _ _ => cases hred

end RbTree

open RbTree

namespace Ctx

/-- Fill the hole. -/
def plug : Ctx α → RbTree α → RbTree α
  | root, t => t
  | left c a r up, t => up.plug (node c t a r)
  | right c l a up, t => up.plug (node c l a t)

/-- The values in front of the hole. -/
def before : Ctx α → List α
  | root => []
  | left _ _ _ up => up.before
  | right _ l a up => up.before ++ (l.toList ++ [a])

/-- The values behind the hole. -/
def after : Ctx α → List α
  | root => []
  | left _ a r up => a :: r.toList ++ up.after
  | right _ _ _ up => up.after

/-- The hole is the child of a black node. -/
def UnderBlack : Ctx α → Prop
  | root => False
  | left c _ _ _ => c = .black
  | right c _ _ _ => c = .black

/-- The hole can be filled with a balanced tree of `n` black nodes on every path, except for
a red root under a red node. -/
inductive Fits : Ctx α → Nat → Prop where
  | root (n : Nat) : Fits root n
  | leftRed {a : α} {r : RbTree α} {up : Ctx α} {n : Nat} : r.Balanced n → r.isRed = false →
    up.UnderBlack → Fits up n → Fits (left .red a r up) n
  | leftBlack {a : α} {r : RbTree α} {up : Ctx α} {n : Nat} : r.Balanced n → Fits up (n + 1) →
    Fits (left .black a r up) n
  | rightRed {a : α} {l : RbTree α} {up : Ctx α} {n : Nat} : l.Balanced n → l.isRed = false →
    up.UnderBlack → Fits up n → Fits (right .red l a up) n
  | rightBlack {a : α} {l : RbTree α} {up : Ctx α} {n : Nat} : l.Balanced n → Fits up (n + 1) →
    Fits (right .black l a up) n

theorem toList_plug (ctx : Ctx α) (t : RbTree α) :
    (ctx.plug t).toList = ctx.before ++ (t.toList ++ ctx.after) := by
  induction ctx generalizing t with
  | root => simp [plug, before, after]
  | left c a r up ih => simp [plug, before, after, ih]
  | right c l a up ih => simp [plug, before, after, ih]

/-- Filling a hole gives a red-black tree. -/
theorem Fits.plug {ctx : Ctx α} {n : Nat} (h : ctx.Fits n) {t : RbTree α} (ht : t.Balanced n)
    (hroot : t.isRed = false ∨ ctx.UnderBlack) : (ctx.plug t).IsRedBlack := by
  induction h generalizing t with
  | root n => exact ⟨hroot.resolve_right id, n, ht⟩
  | leftRed hr hred hup _ ih =>
    have hblack : t.isRed = false := hroot.resolve_right fun hc => nomatch hc
    exact ih (.red ht hr hblack hred) (.inr hup)
  | leftBlack hr _ ih => exact ih (.black ht hr) (.inl rfl)
  | rightRed hl hred hup _ ih =>
    have hblack : t.isRed = false := hroot.resolve_right fun hc => nomatch hc
    exact ih (.red hl ht hred hblack) (.inr hup)
  | rightBlack hl _ ih => exact ih (.black hl ht) (.inl rfl)

/-- The repair after a red tree was put into a hole: a red uncle moves the trouble two levels
up, a black one ends it with one or two rotations. -/
def fix : Ctx α → RbTree α → RbTree α
  | root, t => t.paint .black
  | left .red p r (left _ g u up), t =>
    if u.isRed then fix up (node .red (node .black t p r) g (u.paint .black))
    else up.plug (node .black t p (node .red r g u))
  | right .red l p (left _ g u up), t =>
    if u.isRed then fix up (node .red (node .black l p t) g (u.paint .black))
    else match t with
      | nil => up.plug (node .black l p (node .red nil g u))
      | node _ b x d => up.plug (node .black (node .red l p b) x (node .red d g u))
  | right .red l p (right _ u g up), t =>
    if u.isRed then fix up (node .red (u.paint .black) g (node .black l p t))
    else up.plug (node .black (node .red u g l) p t)
  | left .red p r (right _ u g up), t =>
    if u.isRed then fix up (node .red (u.paint .black) g (node .black t p r))
    else match t with
      | nil => up.plug (node .black (node .red u g nil) p r)
      | node _ b x d => up.plug (node .black (node .red u g b) x (node .red d p r))
  | ctx, t => ctx.plug t

/-- The repair keeps the order. -/
theorem toList_fix (ctx : Ctx α) (t : RbTree α) : (ctx.fix t).toList = (ctx.plug t).toList := by
  induction ctx, t using fix.induct <;> simp_all [fix, toList_plug, plug]

theorem Fits.left_red {p : α} {r : RbTree α} {up : Ctx α} {n : Nat}
    (h : (left .red p r up).Fits n) :
    r.Balanced n ∧ r.isRed = false ∧ up.UnderBlack ∧ up.Fits n := by
  cases h with
  | leftRed hr hred hup hfits => exact ⟨hr, hred, hup, hfits⟩

theorem Fits.right_red {p : α} {l : RbTree α} {up : Ctx α} {n : Nat}
    (h : (right .red l p up).Fits n) :
    l.Balanced n ∧ l.isRed = false ∧ up.UnderBlack ∧ up.Fits n := by
  cases h with
  | rightRed hl hred hup hfits => exact ⟨hl, hred, hup, hfits⟩

theorem Fits.left_black {c : Color} {g : α} {u : RbTree α} {up : Ctx α} {n : Nat}
    (h : (left c g u up).Fits n) (hc : (left c g u up).UnderBlack) :
    u.Balanced n ∧ up.Fits (n + 1) := by
  cases h with
  | leftRed _ _ _ _ => cases hc
  | leftBlack hu hup => exact ⟨hu, hup⟩

theorem Fits.right_black {c : Color} {g : α} {u : RbTree α} {up : Ctx α} {n : Nat}
    (h : (right c u g up).Fits n) (hc : (right c u g up).UnderBlack) :
    u.Balanced n ∧ up.Fits (n + 1) := by
  cases h with
  | rightRed _ _ _ _ => cases hc
  | rightBlack hu hup => exact ⟨hu, hup⟩

/-- A context that is neither empty nor below a red node with a node above it is below a
black one. -/
theorem Fits.underBlack {ctx : Ctx α} {n : Nat} (h : ctx.Fits n) (hroot : ctx ≠ .root)
    (hll : ∀ p r c g u up, ctx = .left .red p r (.left c g u up) → False)
    (hrl : ∀ l p c g u up, ctx = .right .red l p (.left c g u up) → False)
    (hrr : ∀ l p c u g up, ctx = .right .red l p (.right c u g up) → False)
    (hlr : ∀ p r c u g up, ctx = .left .red p r (.right c u g up) → False) :
    ctx.UnderBlack := by
  cases h with
  | root => exact absurd rfl hroot
  | @leftRed p r up _ _ _ hup _ =>
    cases up with
    | root => cases hup
    | left c g u up => exact (hll p r c g u up rfl).elim
    | right c u g up => exact (hlr p r c u g up rfl).elim
  | leftBlack _ _ => rfl
  | @rightRed p l up _ _ _ hup _ =>
    cases up with
    | root => cases hup
    | left c g u up => exact (hrl l p c g u up rfl).elim
    | right c u g up => exact (hrr l p c u g up rfl).elim
  | rightBlack _ _ => rfl

/-- Below a black node there is nothing to repair. -/
theorem UnderBlack.fix {ctx : Ctx α} {t : RbTree α} (h : ctx.UnderBlack) :
    ctx.fix t = ctx.plug t := by
  cases ctx with
  | root => cases h
  | left c a r up =>
    cases h
    simp [Ctx.fix]
  | right c l a up =>
    cases h
    simp [Ctx.fix]

/-- The repair gives a red-black tree again. -/
theorem Fits.fix {ctx : Ctx α} {n : Nat} (h : ctx.Fits n) {t : RbTree α} (ht : t.Balanced n)
    (hroot : t.isRed = true) : (ctx.fix t).IsRedBlack := by
  induction ctx, t using Ctx.fix.induct generalizing n with
  | case1 t => exact ht.paint_black
  | case2 p r c g u up t hu ih =>
    obtain ⟨hr, -, hblack, hfits⟩ := h.left_red
    obtain ⟨hg, hup⟩ := hfits.left_black hblack
    simp only [Ctx.fix, if_pos hu]
    exact ih hup (.red (.black ht hr) (hg.paint_of_red hu) rfl (isRed_paint_black u)) rfl
  | case3 p r c g u up t hu =>
    obtain ⟨hr, hred, hblack, hfits⟩ := h.left_red
    obtain ⟨hg, hup⟩ := hfits.left_black hblack
    simp only [Ctx.fix, if_neg hu]
    exact hup.plug (.black ht (.red hr hg hred (by simpa using hu))) (.inl rfl)
  | case4 l p c g u up t hu ih =>
    obtain ⟨hl, -, hblack, hfits⟩ := h.right_red
    obtain ⟨hg, hup⟩ := hfits.left_black hblack
    simp only [Ctx.fix, if_pos hu]
    exact ih hup (.red (.black hl ht) (hg.paint_of_red hu) rfl (isRed_paint_black u)) rfl
  | case5 l p c g u up hu => cases hroot
  | case6 l p c g u up hu c' b x d =>
    obtain ⟨hl, hred, hblack, hfits⟩ := h.right_red
    obtain ⟨hg, hup⟩ := hfits.left_black hblack
    obtain ⟨hb, hd, hbr, hdr⟩ := ht.children_of_red hroot
    simp only [Ctx.fix, if_neg hu]
    exact hup.plug (.black (.red hl hb hred hbr) (.red hd hg hdr (by simpa using hu))) (.inl rfl)
  | case7 l p c u g up t hu ih =>
    obtain ⟨hl, -, hblack, hfits⟩ := h.right_red
    obtain ⟨hg, hup⟩ := hfits.right_black hblack
    simp only [Ctx.fix, if_pos hu]
    exact ih hup (.red (hg.paint_of_red hu) (.black hl ht) (isRed_paint_black u) rfl) rfl
  | case8 l p c u g up t hu =>
    obtain ⟨hl, hred, hblack, hfits⟩ := h.right_red
    obtain ⟨hg, hup⟩ := hfits.right_black hblack
    simp only [Ctx.fix, if_neg hu]
    exact hup.plug (.black (.red hg hl (by simpa using hu) hred) ht) (.inl rfl)
  | case9 p r c u g up t hu ih =>
    obtain ⟨hr, -, hblack, hfits⟩ := h.left_red
    obtain ⟨hg, hup⟩ := hfits.right_black hblack
    simp only [Ctx.fix, if_pos hu]
    exact ih hup (.red (hg.paint_of_red hu) (.black ht hr) (isRed_paint_black u) rfl) rfl
  | case10 p r c u g up hu => cases hroot
  | case11 p r c u g up hu c' b x d =>
    obtain ⟨hr, hred, hblack, hfits⟩ := h.left_red
    obtain ⟨hg, hup⟩ := hfits.right_black hblack
    obtain ⟨hb, hd, hbr, hdr⟩ := ht.children_of_red hroot
    simp only [Ctx.fix, if_neg hu]
    exact hup.plug (.black (.red hg hb (by simpa using hu) hbr) (.red hd hr hdr hred)) (.inl rfl)
  | case12 ctx t hnroot hll hrl hrr hlr =>
    -- The parent is black, since a red one is not the root.
    have hblack := h.underBlack (fun heq => hnroot heq) hll hrl hrr hlr
    rw [hblack.fix]
    exact h.plug ht (.inr hblack)

/-- The way down to an empty hole: to the right of a value that `goRight` accepts, and to the
left of the others. -/
def descend (goRight : α → Bool) : RbTree α → Ctx α → Ctx α
  | .nil, ctx => ctx
  | .node c l a r, ctx =>
    if goRight a then descend goRight r (right c l a ctx) else descend goRight l (left c a r ctx)

/-- The way down ends in a hole of the same tree. -/
theorem plug_descend (goRight : α → Bool) (t : RbTree α) (ctx : Ctx α) :
    (descend goRight t ctx).plug .nil = ctx.plug t := by
  induction t generalizing ctx with
  | nil => rfl
  | node c l a r ihl ihr =>
    rw [descend]
    split
    · exact ihr (right c l a ctx)
    · exact ihl (left c a r ctx)

/-- The hole is on the side of the value above it that `goRight` says. -/
def Agrees (goRight : α → Bool) : Ctx α → Prop
  | root => True
  | left _ a _ _ => goRight a = false
  | right _ _ a _ => goRight a = true

theorem agrees_descend {goRight : α → Bool} {t : RbTree α} {ctx : Ctx α} (h : ctx.Agrees goRight) :
    (descend goRight t ctx).Agrees goRight := by
  induction t generalizing ctx with
  | nil => exact h
  | node c l a r ihl ihr =>
    rw [descend]
    by_cases ha : goRight a = true
    · rw [if_pos ha]
      exact ihr (show (right c l a ctx).Agrees goRight from ha)
    · rw [if_neg ha]
      exact ihl (show (left c a r ctx).Agrees goRight from by simpa [Agrees] using ha)

/-- The way down in a balanced tree ends in a hole without black nodes below. -/
theorem Fits.descend {goRight : α → Bool} {t : RbTree α} {ctx : Ctx α} {n : Nat} (h : ctx.Fits n)
    (ht : t.Balanced n) (hroot : t.isRed = false ∨ ctx.UnderBlack) :
    (descend goRight t ctx).Fits 0 := by
  induction ht generalizing ctx with
  | nil => exact h
  | red hl hr hlb hrb ihl ihr =>
    have hup : ctx.UnderBlack := hroot.resolve_left (by simp [isRed])
    rw [Ctx.descend]
    split
    · exact ihr (.rightRed hl hlb hup h) (.inl hrb)
    · exact ihl (.leftRed hr hrb hup h) (.inl hlb)
  | black hl hr ihl ihr =>
    rw [Ctx.descend]
    split
    · exact ihr (.rightBlack hl h) (.inr rfl)
    · exact ihl (.leftBlack hr h) (.inr rfl)

/-- In an ordered tree the hole parts the values that `goRight` accepts from the others. -/
theorem descend_split {goRight : α → Bool} {t : RbTree α} (ctx : Ctx α)
    (hmono : t.toList.Pairwise fun a b => goRight b = true → goRight a = true) :
    (descend goRight t ctx).before = ctx.before ++ t.toList.filter goRight ∧
      (descend goRight t ctx).after = (t.toList.filter fun a => !goRight a) ++ ctx.after := by
  induction t generalizing ctx with
  | nil => simp [descend]
  | node c l a r ihl ihr =>
    rw [toList_node, List.pairwise_append, List.pairwise_cons] at hmono
    obtain ⟨hl, ⟨har, hr⟩, hlr⟩ := hmono
    rw [descend]
    split
    · rename_i ha
      obtain ⟨hbefore, hafter⟩ := ihr (right c l a ctx) hr
      have hall : l.toList.filter goRight = l.toList :=
        List.filter_eq_self.mpr fun b hb => hlr b hb a List.mem_cons_self ha
      have hnone : l.toList.filter (fun b => !goRight b) = [] :=
        List.filter_eq_nil_iff.mpr fun b hb => by simp [hlr b hb a List.mem_cons_self ha]
      simp [hbefore, hafter, before, after, hall, hnone, ha]
    · rename_i ha
      obtain ⟨hbefore, hafter⟩ := ihl (left c a r ctx) hl
      have hfalse : ∀ b ∈ r.toList, goRight b = false := fun b hb => by
        rw [Bool.eq_false_iff]
        exact fun hb' => ha (har b hb hb')
      have hnone : r.toList.filter goRight = [] :=
        List.filter_eq_nil_iff.mpr fun b hb => by simp [hfalse b hb]
      have hall : r.toList.filter (fun b => !goRight b) = r.toList :=
        List.filter_eq_self.mpr fun b hb => by simp [hfalse b hb]
      simp [hbefore, hafter, before, after, hall, hnone, ha]

/-- Every place of the list of a tree is a place of the tree. -/
theorem exists_plug_of_ctx {t : RbTree α} (ctx : Ctx α) {xs ys : List α} {a : α}
    (h : t.toList = xs ++ a :: ys) :
    ∃ (ctx' : Ctx α) (c : Color) (l r : RbTree α), ctx.plug t = ctx'.plug (node c l a r) ∧
      ctx.before ++ xs = ctx'.before ++ l.toList ∧ ys ++ ctx.after = r.toList ++ ctx'.after := by
  induction t generalizing ctx xs ys with
  | nil => simp at h
  | node c l b r ihl ihr =>
    rw [toList_node] at h
    rcases List.append_eq_append_iff.mp h with ⟨as, rfl, has⟩ | ⟨bs, hl, hbs⟩
    · cases as with
      | nil =>
        obtain ⟨rfl, rfl⟩ := List.cons.inj has
        exact ⟨ctx, c, l, r, rfl, by simp, rfl⟩
      | cons b' as =>
        obtain ⟨rfl, hr⟩ := List.cons.inj has
        obtain ⟨ctx', c', l', r', hplug, hbefore, hafter⟩ := ihr (right c l b ctx) hr
        refine ⟨ctx', c', l', r', hplug, ?_, hafter⟩
        rw [← hbefore]
        simp [before]
    · cases bs with
      | nil =>
        obtain ⟨rfl, rfl⟩ := List.cons.inj hbs
        exact ⟨ctx, c, l, r, rfl, by simp [hl], rfl⟩
      | cons a' bs =>
        obtain ⟨rfl, rfl⟩ := List.cons.inj hbs
        obtain ⟨ctx', c', l', r', hplug, hbefore, hafter⟩ := ihl (left c b r ctx) hl
        refine ⟨ctx', c', l', r', hplug, hbefore, ?_⟩
        rw [← hafter]
        simp [after]

theorem exists_plug {t : RbTree α} {xs ys : List α} {a : α} (h : t.toList = xs ++ a :: ys) :
    ∃ (ctx : Ctx α) (c : Color) (l r : RbTree α), t = ctx.plug (node c l a r) ∧
      xs = ctx.before ++ l.toList ∧ ys = r.toList ++ ctx.after := by
  obtain ⟨ctx, c, l, r, hplug, hbefore, hafter⟩ := exists_plug_of_ctx .root h
  refine ⟨ctx, c, l, r, hplug, hbefore, ?_⟩
  rw [← hafter]
  simp [after]

end Ctx

/-- Insertion behind the values that `goRight` accepts. -/
def insert (goRight : α → Bool) (a : α) (t : RbTree α) : RbTree α :=
  (Ctx.descend goRight t .root).fix (.node .red .nil a .nil)

/-- Insertion keeps red-black trees. -/
theorem IsRedBlack.insert {goRight : α → Bool} {a : α} {t : RbTree α} (h : t.IsRedBlack) :
    (RedBlack.insert goRight a t).IsRedBlack := by
  obtain ⟨hroot, n, hn⟩ := h
  have hfits : (Ctx.descend goRight t .root).Fits 0 := (Ctx.Fits.root n).descend hn (.inl hroot)
  exact hfits.fix (.red .nil .nil rfl rfl) rfl

/-- Insertion puts the value behind the ones that `goRight` accepts. -/
theorem toList_insert {goRight : α → Bool} {a : α} {t : RbTree α}
    (hmono : t.toList.Pairwise fun a b => goRight b = true → goRight a = true) :
    (RedBlack.insert goRight a t).toList =
      t.toList.filter goRight ++ a :: t.toList.filter fun b => !goRight b := by
  obtain ⟨hbefore, hafter⟩ := Ctx.descend_split .root hmono
  rw [RedBlack.insert, Ctx.toList_fix, Ctx.toList_plug, hbefore, hafter]
  simp [Ctx.before, Ctx.after]

end RedBlack

end Recognizer
