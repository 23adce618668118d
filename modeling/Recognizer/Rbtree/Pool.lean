import Recognizer.Rbtree.Rotate
import Recognizer.Rbtree.Walk
import Recognizer.Core.Chain
import Recognizer.Core.Dismantle

/-!
# The pool of nodes

A cleared tree is kept and hung below the node the pool pointer is at. Nodes are taken
from there one by one, and what hangs below a taken node is lost to the pool.
-/

namespace Recognizer

namespace Rbtree

open RedBlack (Color RbTree Ctx Cursor)
open RedBlack.RbTree (node)

variable {m m' : RBTreeCtrl} {live pool t : RbTree Nat} {ctx : Ctx Nat} {a p new : Nat}

/-- The nodes hold a live tree and a pool apart from it. -/
structure Holds (m : RBTreeCtrl) (live pool : RbTree Nat) : Prop where
  atRoot : At m.nodes live m.root 0
  atPool : At m.nodes pool m.poolRoot 0
  nodup : (live.toList ++ pool.toList).Nodup
  bound : ∀ x ∈ live.toList ++ pool.toList, x < m.next
  next : 0 < m.next
  ptr : m.poolPtr ∈ pool.toList ∨ (m.poolPtr = 0 ∧ pool = .nil)

namespace Holds

theorem live_nodup (h : Holds m live pool) : live.toList.Nodup := (List.nodup_append.mp h.nodup).1

theorem pool_nodup (h : Holds m live pool) : pool.toList.Nodup :=
  (List.nodup_append.mp h.nodup).2.1

theorem apart (h : Holds m live pool) {x : Nat} (hx : x ∈ live.toList) : x ∉ pool.toList :=
  fun hin => (List.nodup_append.mp h.nodup).2.2 x hx x hin rfl

theorem live_length (h : Holds m live pool) : live.toList.length < m.next :=
  length_lt_of_nodup h.live_nodup h.atRoot.zero_notMem
    (fun x hx => h.bound x (List.mem_append_left _ hx)) h.next

theorem pool_length (h : Holds m live pool) : pool.toList.length < m.next :=
  length_lt_of_nodup h.pool_nodup h.atPool.zero_notMem
    (fun x hx => h.bound x (List.mem_append_right _ hx)) h.next

/-- The node the pool pointer is at has a place in the pool. -/
theorem exists_ptr (h : Holds m live pool) (hptr : m.poolPtr ≠ 0) :
    ∃ (ctx : Ctx Nat) (c : Color) (l r : RbTree Nat), pool = ctx.plug (node c l m.poolPtr r) := by
  have hin := h.ptr.resolve_right fun hzero => hptr hzero.1
  obtain ⟨xs, ys, hlist⟩ := List.append_of_mem hin
  obtain ⟨ctx, c, l, r, hplug, -, -⟩ := RedBlack.Ctx.exists_plug hlist
  exact ⟨ctx, c, l, r, hplug⟩

end Holds

/-- The first loop of `reset_pool_ptr` ends at a subtree, where the second one begins. -/
theorem skipLoop_at {fuel : Nat} (h : At m.nodes t a p) (ht : t ≠ .nil)
    (hfuel : t.toList.length < fuel) :
    ∃ c l x r b q, m.skipLoop fuel a = some b ∧ At m.nodes (node c l x r) b q ∧
      (node c l x r).toList.Sublist t.toList ∧
      ∀ ctx, ∃ ctx', Cursor.settle ctx t = some (Cursor.leftmost ctx' c l x r) := by
  induction t generalizing a p fuel with
  | nil => exact absurd rfl ht
  | node c l x r _ ihr =>
    obtain ⟨k, rfl⟩ : ∃ k, fuel = k + 1 := ⟨fuel - 1, by omega⟩
    have hnode := h
    obtain ⟨rfl, ha, -, -, hl, hr⟩ := h
    by_cases hleft : (m.nodes a).left = 0
    · have hlnil := hl.eq_nil hleft
      subst hlnil
      by_cases hright : (m.nodes a).right = 0
      · have hrnil := hr.eq_nil hright
        subst hrnil
        refine ⟨c, .nil, a, .nil, a, p, ?_, hnode, .refl _, fun ctx => ⟨ctx, rfl⟩⟩
        rw [RBTreeCtrl.skipLoop, if_pos ⟨ha, hleft⟩, if_pos hright]
      · have hrnil : r ≠ .nil := by
          rintro rfl
          exact hright hr
        rw [RedBlack.RbTree.toList_node, List.length_append, List.length_cons] at hfuel
        obtain ⟨c', l', x', r', b, q, hloop, hs, hsub, hsettle⟩ :=
          ihr hr hrnil (show r.toList.length < k by omega)
        refine ⟨c', l', x', r', b, q, ?_, hs, ?_, fun ctx => ?_⟩
        · rw [RBTreeCtrl.skipLoop, if_pos ⟨ha, hleft⟩, if_neg hright, hloop]
        · exact (hsub.cons a).trans (List.sublist_append_right _ _)
        · obtain ⟨ctx', hctx'⟩ := hsettle (.right c .nil a ctx)
          cases r with
          | nil => exact absurd rfl hrnil
          | node c₁ l₁ x₁ r₁ => exact ⟨ctx', hctx'⟩
    · refine ⟨c, l, a, r, a, p, ?_, hnode, .refl _, fun ctx => ⟨ctx, ?_⟩⟩
      · rw [RBTreeCtrl.skipLoop, if_neg fun hne => hleft hne.2]
      · cases l with
        | nil => exact absurd hl hleft
        | node c₁ l₁ x₁ r₁ => rfl

/-- `reset_pool_ptr` goes where the cursor of the pool goes. -/
theorem resetPoolPtr_at (h : At m.nodes t a p) (ht : t ≠ .nil)
    (hnext : t.toList.length < m.next) :
    ∃ b, m.resetPoolPtr a = some b ∧ b ∈ t.toList ∧
      ∀ ctx z, Cursor.settle ctx t = some z → z.val = b := by
  obtain ⟨c, l, x, r, b, q, hloop, hs, hsub, hsettle⟩ := skipLoop_at h ht hnext
  have hmin := minLoop_at hs (Nat.lt_of_le_of_lt hsub.length_le hnext)
  refine ⟨(node c l x r).toList.headD 0, ?_, ?_, ?_⟩
  · rw [RBTreeCtrl.resetPoolPtr, hloop, Option.bind_some, hmin]
  · refine hsub.subset ?_
    rw [RedBlack.RbTree.toList_node]
    cases hl : l.toList with
    | nil => simp
    | cons y ys => simp
  · intro ctx z hz
    obtain ⟨ctx', hctx'⟩ := hsettle ctx
    obtain rfl := Option.some.inj (hz.symm.trans hctx')
    exact Cursor.val_leftmost 0

section Clear

/-- What `rbtree_clear` does to the memory. -/
structure Clears (m m' : RBTreeCtrl) (live pool pool' : RbTree Nat) : Prop where
  holds : Holds m' .nil pool'
  sub : pool'.toList ⊆ live.toList ++ pool.toList
  data : ∀ a, (m'.nodes a).data = (m.nodes a).data
  next : m'.next = m.next
  count : m.count = live.toList.length → m'.count = 0

/-- The place in the pool a cleared tree is hung into. -/
def HangsAt (m : RBTreeCtrl) (pool : RbTree Nat) (ctx : Ctx Nat) : Prop :=
  (pool = .nil ∧ ctx = .root) ∨
    ∃ up c l r, pool = up.plug (node c l m.poolPtr r) ∧ ctx = .left c m.poolPtr r up

theorem Holds.exists_hangsAt (h : Holds m live pool) : ∃ ctx, HangsAt m pool ctx := by
  by_cases hptr : m.poolPtr = 0
  · have hnil := (h.ptr.resolve_left fun hin => h.atPool.zero_notMem (hptr ▸ hin)).2
    exact ⟨.root, .inl ⟨hnil, rfl⟩⟩
  · obtain ⟨up, c, l, r, hpool⟩ := h.exists_ptr hptr
    exact ⟨_, .inr ⟨up, c, l, r, hpool, rfl⟩⟩

/-- Hanging the live tree below a node of the pool. -/
theorem hang_live {c : Color} {l r : RbTree Nat}
    (h : Holds m live (ctx.plug (node c l m.poolPtr r))) (hlive : live ≠ .nil) :
    At ((m.set m.poolPtr fun x => { x with left := m.root }).set m.root fun x =>
        { x with parent := m.poolPtr }).nodes (ctx.plug (node c live m.poolPtr r)) m.poolRoot 0 ∧
      At ((m.set m.poolPtr fun x => { x with left := m.root }).set m.root fun x =>
        { x with parent := m.poolPtr }).nodes live m.root m.poolPtr ∧
      (ctx.plug (node c live m.poolPtr r)).toList ⊆
        live.toList ++ (ctx.plug (node c l m.poolPtr r)).toList ∧
      (ctx.plug (node c live m.poolPtr r)).toList.Nodup := by
  obtain ⟨q, hq⟩ : ∃ q, q = m.poolPtr := ⟨_, rfl⟩
  rw [← hq] at h ⊢
  have hroot : m.root ≠ 0 := fun hzero => hlive (h.atRoot.eq_nil hzero)
  have hrootmem : m.root ∈ live.toList := by
    rw [h.atRoot.eq_rootOf] at hroot ⊢
    exact rootOf_mem hroot
  have hqmem : q ∈ (ctx.plug (node c l q r)).toList := by simp [RedBlack.Ctx.toList_plug]
  have hqlive : q ∉ live.toList := fun hin => h.apart hin hqmem
  have hother : ∀ x ∈ (ctx.plug (node c l q r)).toList, x ≠ q →
      ((m.set q fun x => { x with left := m.root }).set m.root fun x =>
        { x with parent := q }).nodes x = m.nodes x := by
    intro x hx hxq
    have hxroot : x ≠ m.root := fun heq => h.apart hrootmem (heq ▸ hx)
    rw [set_of_ne hxroot, set_of_ne hxq]
  have hqroot : q ≠ m.root := fun heq => hqlive (heq ▸ hrootmem)
  obtain ⟨hctx, -, hptr, hc, hparent, -, hr⟩ := at_plug_iff.mp h.atPool
  have hnotMem := notMem_ctx (x := q) h.pool_nodup (by simp)
  have hsub := nodup_subtree h.pool_nodup
  rw [RedBlack.RbTree.toList_node, List.nodup_middle, List.nodup_cons, List.mem_append,
    not_or] at hsub
  have hlive' : At ((m.set q fun x => { x with left := m.root }).set m.root fun x =>
      { x with parent := q }).nodes live m.root q := by
    refine h.atRoot.reparent h.live_nodup (fun _ => ?_) fun x hx hxroot => ?_
    · rw [set_self, set_of_ne hqroot.symm]
    · have hxq : x ≠ q := fun heq => hqlive (heq ▸ hx)
      rw [set_of_ne hxroot, set_of_ne hxq]
  have hperm : (ctx.plug (node c live q r)).toList.Perm
      (live.toList ++ (ctx.before ++ (q :: r.toList ++ ctx.after))) := by
    rw [RedBlack.Ctx.toList_plug, RedBlack.RbTree.toList_node, List.append_assoc]
    exact List.perm_append_comm_assoc _ _ _
  have hpool : (ctx.before ++ (q :: r.toList ++ ctx.after)).Sublist
      (ctx.plug (node c l q r)).toList := by
    rw [RedBlack.Ctx.toList_plug, RedBlack.RbTree.toList_node, List.append_assoc]
    exact (List.Sublist.refl _).append (List.sublist_append_right _ _)
  refine ⟨at_plug_iff.mpr ⟨?_, rfl, hptr, ?_, ?_, ?_, ?_⟩, hlive', ?_, ?_⟩
  · refine hctx.congr fun x hx => hother x ?_ fun heq => hnotMem (heq ▸ hx)
    simp only [RedBlack.Ctx.toList_plug, List.mem_append] at hx ⊢
    tauto
  · rw [set_of_ne hqroot, set_self]
    exact hc
  · rw [set_of_ne hqroot, set_self]
    exact hparent
  · rw [set_of_ne hqroot, set_self]
    exact hlive'
  · rw [set_of_ne hqroot, set_self]
    refine hr.congr fun x hx => hother x ?_ fun heq => hsub.1.2 (heq ▸ hx)
    simp [RedBlack.Ctx.toList_plug, hx]
  · exact fun x hx => ((List.Sublist.refl _).append hpool).subset (hperm.subset hx)
  · exact hperm.nodup_iff.mpr (h.nodup.sublist ((List.Sublist.refl _).append hpool))

/-- The memory once the live tree hangs in the pool. -/
theorem toPool_at (h : Holds m live pool) (hlive : live ≠ .nil) (hctx : HangsAt m pool ctx) :
    ∃ m', m.toPool = some m' ∧ At m'.nodes (ctx.plug live) m'.poolRoot 0 ∧
      (∃ q, At m'.nodes live m'.root q) ∧
      (ctx.plug live).toList ⊆ live.toList ++ pool.toList ∧ (ctx.plug live).toList.Nodup ∧
      m'.next = m.next ∧ (∀ a, (m'.nodes a).data = (m.nodes a).data) := by
  rcases hctx with ⟨rfl, rfl⟩ | ⟨up, c, l, r, rfl, rfl⟩
  · have hpoolRoot : m.poolRoot = 0 := h.atPool
    exact ⟨{ m with poolRoot := m.root }, by rw [RBTreeCtrl.toPool, if_pos hpoolRoot],
      h.atRoot, ⟨0, h.atRoot⟩, fun _ hx => List.mem_append_left _ hx, h.live_nodup, rfl,
      fun _ => rfl⟩
  · have hptr : m.poolPtr ≠ 0 := (at_plug_iff.mp h.atPool).2.2.1
    have hpoolRoot : m.poolRoot ≠ 0 := by
      intro hzero
      have hnil := congrArg RedBlack.RbTree.toList (h.atPool.eq_nil hzero)
      simp [RedBlack.Ctx.toList_plug] at hnil
    obtain ⟨hpool, hat, hsub, hnodup⟩ := hang_live h hlive
    refine ⟨_, by rw [RBTreeCtrl.toPool, if_neg hpoolRoot, if_neg hptr], hpool, ⟨_, hat⟩,
      hsub, hnodup, rfl, fun a => ?_⟩
    have hkeeps : Keeps m (m.set m.poolPtr fun x => { x with left := m.root })
        [m.poolPtr, m.root] := keeps_set (by simp) (fun _ => rfl) fun _ => rfl
    have hkeeps' : Keeps (m.set m.poolPtr fun x => { x with left := m.root })
        ((m.set m.poolPtr fun x => { x with left := m.root }).set m.root fun x =>
          { x with parent := m.poolPtr }) [m.poolPtr, m.root] :=
      keeps_set (by simp) (fun _ => rfl) fun _ => rfl
    exact (hkeeps.trans hkeeps').data a

/-- Where the cursor begins in a cleared tree: it is set back from the least node. -/
def cleared (ctx : Ctx Nat) : RbTree Nat → Option (Cursor Nat)
  | .nil => none
  | .node c l x r =>
    let least := Cursor.leftmost ctx c l x r
    Cursor.settle least.ctx (node least.color .nil least.val least.right)

/-- The pointer set back from the least node of a subtree of the pool stays in the pool. -/
theorem resetPoolPtr_min (hpool : At m.nodes (ctx.plug live) m.poolRoot 0)
    (hat : At m.nodes live a p) (hlive : live ≠ .nil)
    (hlength : live.toList.length < m.next) (hpoolLength : (ctx.plug live).toList.length < m.next) :
    ∃ x b, m.rbtreeMin a = some x ∧ m.resetPoolPtr x = some b ∧ b ∈ (ctx.plug live).toList ∧
      ∀ z, cleared ctx live = some z → z.val = b := by
  cases live with
  | nil => exact absurd rfl hlive
  | node c l y r =>
    obtain ⟨least, hleast⟩ : ∃ least, least = Cursor.leftmost ctx c l y r := ⟨_, rfl⟩
    have hmin : m.rbtreeMin a = some least.val := by
      rw [hleast, Cursor.val_leftmost 0]
      exact minLoop_at hat hlength
    have htree : least.tree = ctx.plug (node c l y r) := by
      rw [hleast, Cursor.tree_leftmost]
    rw [← htree] at hpool hpoolLength ⊢
    have hsubLength : (node least.color .nil least.val least.right).toList.length < m.next := by
      rw [Cursor.tree, RedBlack.Ctx.toList_plug, List.length_append, List.length_append]
        at hpoolLength
      omega
    have hnode : node least.color .nil least.val least.right ≠ .nil := by simp
    obtain ⟨b, hreset, hb, hval⟩ := resetPoolPtr_at (at_plug_iff.mp hpool).2 hnode hsubLength
    refine ⟨least.val, b, hmin, hreset, ?_, fun z hz => ?_⟩
    · rw [Cursor.tree, RedBlack.Ctx.toList_plug]
      exact List.mem_append_right _ (List.mem_append_left _ hb)
    · rw [cleared, ← hleast] at hz
      exact hval _ z hz

/-- Clearing an empty tree does nothing. -/
theorem rbtreeClear_nil (h : Holds m .nil pool) : m.rbtreeClear = some m := by
  have hroot : m.root = 0 := h.atRoot
  rw [RBTreeCtrl.rbtreeClear, if_pos hroot]

/-- `rbtree_clear` hands all nodes over to the pool. -/
theorem rbtreeClear_cons (h : Holds m live pool) (hlive : live ≠ .nil)
    (hctx : HangsAt m pool ctx) :
    ∃ m', m.rbtreeClear = some m' ∧ Clears m m' live pool (ctx.plug live) ∧
      ∀ z, cleared ctx live = some z → z.val = m'.poolPtr := by
  have hroot : m.root ≠ 0 := fun hzero => hlive (h.atRoot.eq_nil hzero)
  obtain ⟨m₁, hm₁, hpool, ⟨q, hat⟩, hsub, hnodup, hnext, hdata⟩ := toPool_at h hlive hctx
  have hbound : ∀ y ∈ (ctx.plug live).toList, y < m₁.next :=
    fun y hy => hnext ▸ h.bound y (hsub hy)
  have hpos : 0 < m₁.next := hnext ▸ h.next
  obtain ⟨x, b, hmin, hreset, hb, hval⟩ := resetPoolPtr_min hpool hat hlive
    (hnext ▸ h.live_length) (length_lt_of_nodup hnodup hpool.zero_notMem hbound hpos)
  refine ⟨{ m₁ with poolPtr := b, count := 0, root := 0 }, ?_,
    ⟨⟨rfl, hpool, hnodup, hbound, hpos, .inl hb⟩, hsub, hdata, hnext, fun _ => rfl⟩, hval⟩
  rw [RBTreeCtrl.rbtreeClear, if_neg hroot]
  simp only [hm₁, Option.bind_eq_bind, Option.bind_some, hmin, hreset]

/-- `rbtree_clear` always hands all nodes over. -/
theorem rbtreeClear_at (h : Holds m live pool) :
    ∃ m' pool', m.rbtreeClear = some m' ∧ Clears m m' live pool pool' := by
  cases live with
  | nil => exact ⟨m, pool, rbtreeClear_nil h, h, fun _ hx => hx, fun _ => rfl, rfl, id⟩
  | node c l x r =>
    obtain ⟨ctx, hctx⟩ := h.exists_hangsAt
    obtain ⟨m', hclear, hm', -⟩ := rbtreeClear_cons h nofun hctx
    exact ⟨m', _, hclear, hm'⟩

end Clear

end Rbtree

end Recognizer
