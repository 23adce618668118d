import Recognizer.Rbtree.Fixup
import Recognizer.Rbtree.Pool

/-!
# Insertion

A node is taken out of the pool or allocated, hung into the place the way down ends at,
and the tree is repaired.
-/

namespace Recognizer

namespace Rbtree

open RedBlack (Color RbTree Ctx Cursor)
open RedBlack.RbTree (node)

variable {m m' : RBTreeCtrl} {live pool pool' t : RbTree Nat} {ctx up : Ctx Nat}
  {a p root new : Nat}

section Take

/-- What taking a node does to the memory. -/
structure Takes (m m' : RBTreeCtrl) (pool pool' : RbTree Nat) (new : Nat) : Prop where
  atPool : At m'.nodes pool' m'.poolRoot 0
  ptr : m'.poolPtr ∈ pool'.toList ∨ (m'.poolPtr = 0 ∧ pool' = .nil)
  nodup : (new :: pool'.toList).Nodup
  subset : pool'.toList ⊆ pool.toList
  other : ∀ a ∉ pool.toList, a ≠ new → m'.nodes a = m.nodes a
  data : ∀ a ≠ new, (m'.nodes a).data = (m.nodes a).data
  source : (new ∈ pool.toList ∧ (m'.nodes new).data = (m.nodes new).data ∧ m'.next = m.next) ∨
    (new = m.next ∧ (m'.nodes new).data = 0 ∧ m'.next = m.next + 1)
  root : m'.root = m.root
  count : m'.count = m.count

/-- A subtree is unhooked from the node above it. -/
theorem unhook_at (h : At m.nodes (ctx.plug t) root 0) (hnodup : (ctx.plug t).toList.Nodup)
    (hctx : ctx ≠ .root) (ht : rootOf t ≠ 0) :
    At (m.set (parentOf ctx) (relink 0 ctx)).nodes (ctx.plug .nil) root 0 := by
  have hp := (onSide_rootOf h hnodup ht).parentOf_ne_zero hctx
  refine at_plug_iff.mpr ⟨?_, rfl⟩
  refine (at_plug_iff.mp h).1.relink (nodup_ctx hnodup) (fun _ => set_self)
    (fun x _ hx => set_of_ne hx) ?_
  rw [if_neg hp]

theorem nodup_unhook {c : Color} {l r : RbTree Nat} {x : Nat}
    (hnodup : (ctx.plug (node c l x r)).toList.Nodup) :
    (x :: (ctx.plug .nil).toList).Nodup := by
  have hnil : (ctx.plug .nil).toList = ctx.before ++ ctx.after := by
    simp [RedBlack.Ctx.toList_plug]
  rw [hnil]
  exact List.nodup_cons.mpr ⟨notMem_ctx hnodup (by simp), nodup_ctx hnodup⟩

theorem subset_unhook : (ctx.plug .nil).toList ⊆ (ctx.plug t).toList := by
  intro x hx
  simp only [RedBlack.Ctx.toList_plug, RedBlack.RbTree.toList_nil, List.nil_append,
    List.mem_append] at hx ⊢
  tauto

/-- Taking the root of the pool. -/
theorem takeNode_root {c : Color} {l r : RbTree Nat}
    (h : Holds m live (node c l m.poolPtr r)) (hptr : m.poolPtr ≠ 0) :
    ∃ m', m.takeNode = some (m.poolPtr, m') ∧ Takes m m' (node c l m.poolPtr r) r m.poolPtr ∧
      ∀ z, Cursor.settle .root r = some z → z.val = m'.poolPtr := by
  obtain ⟨q, hq⟩ : ∃ q, q = m.poolPtr := ⟨_, rfl⟩
  rw [← hq] at hptr h ⊢
  have hnodup := h.pool_nodup
  have hlength := h.pool_length
  rw [RedBlack.RbTree.toList_node, List.nodup_append, List.nodup_cons] at hnodup
  rw [RedBlack.RbTree.toList_node, List.length_append, List.length_cons] at hlength
  obtain ⟨-, ⟨hqr, hrnodup⟩, -⟩ := hnodup
  obtain ⟨-, -, -, hparent, -, hr⟩ := h.atPool
  have hsub : r.toList ⊆ (node c l q r).toList := fun x hx => by simp [hx]
  have hqmem : q ∈ (node c l q r).toList := by simp
  by_cases hright : (m.nodes q).right = 0
  · have hnil := hr.eq_nil hright
    subst hnil
    refine ⟨{ m with poolPtr := (m.nodes q).right, poolRoot := (m.nodes q).right }, ?_,
      ⟨hr, .inr ⟨hright, rfl⟩, List.nodup_singleton q, hsub, fun _ _ _ => rfl, fun _ _ => rfl,
        .inl ⟨hqmem, rfl, rfl⟩, rfl, rfl⟩, nofun⟩
    simp only [RBTreeCtrl.takeNode, ← hq, if_pos hptr, hparent, if_true, hright, ne_eq,
      not_true_eq_false, if_false]
  · have hmem : (m.nodes q).right ∈ r.toList := by
      rw [hr.eq_rootOf] at hright ⊢
      exact rootOf_mem hright
    obtain ⟨x, hx⟩ : ∃ x, x = (m.nodes q).right := ⟨_, rfl⟩
    rw [← hx] at hright hmem hr
    have hr' : At (m.set x fun n => { n with parent := 0 }).nodes r x 0 :=
      hr.reparent hrnodup (fun _ => set_self) fun y _ hy => set_of_ne hy
    have hother : ∀ y, y ≠ x → (m.set x fun n => { n with parent := 0 }).nodes y = m.nodes y :=
      fun y hy => set_of_ne hy
    have hdata : ∀ y, ((m.set x fun n => { n with parent := 0 }).nodes y).data =
        (m.nodes y).data := by
      intro y
      by_cases hyx : y = x
      · subst hyx
        rw [set_self]
      · rw [hother y hyx]
    have hrnil : r ≠ .nil := by
      rintro rfl
      cases hmem
    obtain ⟨b, hreset, hb, hval⟩ := resetPoolPtr_at
      (m := { m.set x fun n => { n with parent := 0 } with poolPtr := x, poolRoot := x })
      hr' hrnil (show r.toList.length < m.next by omega)
    refine ⟨{ m.set x fun n => { n with parent := 0 } with poolPtr := b, poolRoot := x }, ?_,
      ⟨hr', .inl hb, List.nodup_cons.mpr ⟨hqr, hrnodup⟩, hsub, ?_, ?_, .inl ⟨hqmem, ?_, rfl⟩, rfl,
        rfl⟩, hval .root⟩
    · simp only [RBTreeCtrl.takeNode, ← hq, if_pos hptr, hparent, if_true, ← hx, ne_eq, hright,
        not_false_eq_true]
      have hreset' : RBTreeCtrl.resetPoolPtr (RBTreeCtrl.set
          { m with poolPtr := x, poolRoot := x } x fun n => { n with parent := 0 }) x = some b :=
        hreset
      simp only [Option.bind_eq_bind, set_poolPtr, hreset', Option.bind_some]
      rfl
    · intro y hy _
      have hyx : y ≠ x := fun heq => hy (hsub (heq ▸ hmem))
      exact hother y hyx
    · intro y _
      exact hdata y
    · exact hdata q

/-- Taking a node below another node of the pool. -/
theorem takeNode_below {c : Color} {l r : RbTree Nat}
    (h : Holds m live (ctx.plug (node c l m.poolPtr r))) (hptr : m.poolPtr ≠ 0)
    (hctx : ctx ≠ .root) :
    ∃ m', m.takeNode = some (m.poolPtr, m') ∧
      Takes m m' (ctx.plug (node c l m.poolPtr r)) (ctx.plug .nil) m.poolPtr ∧
      ∀ z, Cursor.advance ⟨ctx, c, m.poolPtr, r⟩ = some z → z.val = m'.poolPtr := by
  obtain ⟨q, hq⟩ : ∃ q, q = m.poolPtr := ⟨_, rfl⟩
  rw [← hq] at hptr h ⊢
  have hside : OnSide m.nodes q ctx := onSide_rootOf h.atPool h.pool_nodup hptr
  have hp := hside.parentOf_ne_zero hctx
  have hpmem : parentOf ctx ∈ (ctx.plug .nil).toList := by
    simpa [RedBlack.Ctx.toList_plug] using parentOf_mem hp
  have hqp : q ≠ parentOf ctx := by
    rintro heq
    exact parentOf_notMem h.atPool h.pool_nodup (heq ▸ by simp)
  have hunhook := unhook_at h.atPool h.pool_nodup hctx hptr
  have hparent : (m.nodes q).parent = parentOf ctx := (at_plug_iff.mp h.atPool).2.2.2.2.1
  have hnodup := nodup_unhook h.pool_nodup
  have hother : ∀ y, y ≠ parentOf ctx →
      (m.set (parentOf ctx) (relink 0 ctx)).nodes y = m.nodes y := fun y hy => set_of_ne hy
  have hdata : ∀ y, ((m.set (parentOf ctx) (relink 0 ctx)).nodes y).data =
      (m.nodes y).data := by
    intro y
    by_cases hy : y = parentOf ctx
    · subst hy
      rw [set_self]
      cases ctx <;> rfl
    · rw [hother y hy]
  -- Only the pointer is still to be chosen.
  suffices hchoice : ∃ b, m.takeNode =
      some (q, { m.set (parentOf ctx) (relink 0 ctx) with poolPtr := b }) ∧
        b ∈ (ctx.plug .nil).toList ∧
        ∀ z, Cursor.advance ⟨ctx, c, q, r⟩ = some z → z.val = b by
    obtain ⟨b, htake, hb, hval⟩ := hchoice
    refine ⟨_, htake, ⟨hunhook, .inl hb, hnodup, subset_unhook, ?_, fun y _ => hdata y,
      .inl ⟨by simp [RedBlack.Ctx.toList_plug], hdata q, rfl⟩, rfl, rfl⟩, hval⟩
    intro y hy _
    exact hother y fun heq => hy (subset_unhook (heq ▸ hpmem))
  cases ctx with
  | root => exact absurd rfl hctx
  | left c' p r' up =>
    obtain ⟨hp0, hleft, -⟩ := hside
    obtain ⟨-, -, -, hr', -, -⟩ := (at_plug_iff.mp hunhook).1
    have hright : ((m.set p fun n => { n with left := 0 }).nodes p).right = (m.nodes p).right := by
      rw [set_self]
    by_cases hzero : (m.nodes p).right = 0
    · have hr'nil := hr'.eq_nil (hright.trans hzero)
      subst hr'nil
      refine ⟨p, ?_, hpmem, fun z hz => by rw [← Option.some.inj hz]; rfl⟩
      simp only [RBTreeCtrl.takeNode, ← hq, ne_eq, hptr, not_false_eq_true, if_true, hparent,
        parentOf, hp0, if_false, hleft, hright, hzero, not_true_eq_false]
      rfl
    · have hr'' : At (m.set p fun n => { n with left := 0 }).nodes r' (m.nodes p).right p :=
        hright ▸ hr'
      have hr'nil : r' ≠ .nil := by
        rintro rfl
        exact hzero hr''
      have hlength : r'.toList.length < m.next := by
        have hpool := h.pool_length
        rw [RedBlack.Ctx.toList_plug] at hpool
        simp only [RedBlack.Ctx.after, List.length_append, List.length_cons] at hpool
        omega
      obtain ⟨b, hreset, hb, hval⟩ := resetPoolPtr_at
        (m := { m.set p fun n => { n with left := 0 } with poolPtr := p }) hr'' hr'nil hlength
      refine ⟨b, ?_, ?_, fun z hz => ?_⟩
      · have hreset' : RBTreeCtrl.resetPoolPtr { m.set p fun n => { n with left := 0 } with
            poolPtr := p } (m.nodes p).right = some b := hreset
        simp only [RBTreeCtrl.takeNode, ← hq, ne_eq, hptr, not_false_eq_true, if_true, hparent,
          parentOf, hp0, if_false, hleft, hright, hzero, hreset', Option.bind_eq_bind,
          Option.bind_some]
        rfl
      · simp [RedBlack.Ctx.toList_plug, RedBlack.Ctx.after, hb]
      · obtain ⟨z', hz'⟩ := Cursor.exists_settle (.right c' .nil p up) hr'nil
        have heq : z' = z := by
          have hsome := Option.some.inj hz
          rwa [hz', Option.getD_some] at hsome
        exact heq ▸ hval _ z' hz'
  | right c' l' p up =>
    obtain ⟨hp0, -, hleft⟩ := hside
    refine ⟨p, ?_, hpmem, fun z hz => by rw [← Option.some.inj hz]⟩
    simp only [RBTreeCtrl.takeNode, ← hq, ne_eq, hptr, not_false_eq_true, if_true, hparent,
      parentOf, hp0, if_false, hleft.symm]
    rfl

/-- `new_rbtree_node` finds a node, in the pool or a new one. -/
theorem takeNode_at (h : Holds m live pool) :
    ∃ new m' pool', m.takeNode = some (new, m') ∧ Takes m m' pool pool' new := by
  by_cases hptr : m.poolPtr = 0
  · obtain ⟨-, rfl⟩ := h.ptr.resolve_left fun hin => h.atPool.zero_notMem (hptr ▸ hin)
    have htake : m.takeNode = some (m.next,
        { m with next := m.next + 1, nodes := Function.update m.nodes m.next {} }) := by
      rw [RBTreeCtrl.takeNode, if_neg fun hne => hne hptr]
    refine ⟨m.next, _, .nil, htake, h.atPool, .inr ⟨hptr, rfl⟩, List.nodup_singleton _,
      fun _ hx => hx, ?_, ?_, .inr ⟨rfl, ?_, rfl⟩, rfl, rfl⟩
    · intro a _ ha
      exact Function.update_of_ne ha _ _
    · intro a ha
      exact congrArg Node.data (Function.update_of_ne ha _ _)
    · simp
  · obtain ⟨ctx, c, l, r, rfl⟩ := h.exists_ptr hptr
    by_cases hctx : ctx = .root
    · subst hctx
      obtain ⟨m', htake, htakes, -⟩ := takeNode_root h hptr
      exact ⟨_, m', r, htake, htakes⟩
    · obtain ⟨m', htake, htakes, -⟩ := takeNode_below h hptr hctx
      exact ⟨_, m', _, htake, htakes⟩

/-- Taking the node at the cursor of the pool moves the cursor on. -/
theorem takeNode_cursor {z : Cursor Nat} (h : Holds m live z.tree) (hval : z.val = m.poolPtr) :
    ∃ m', m.takeNode = some (z.val, m') ∧ Takes m m' z.tree z.rest z.val ∧
      ∀ z', z.advance = some z' → z'.val = m'.poolPtr := by
  obtain ⟨ctx, c, x, r⟩ := z
  obtain rfl : x = m.poolPtr := hval
  have hptr : m.poolPtr ≠ 0 := (at_plug_iff.mp h.atPool).2.2.1
  cases ctx with
  | root => exact takeNode_root h hptr
  | left c' p s up => exact takeNode_below h hptr nofun
  | right c' l p up => exact takeNode_below h hptr nofun

namespace Takes

variable (h : Takes m m' pool pool' new) (hm : Holds m live pool)

include h hm

theorem new_ne_zero : new ≠ 0 := by
  rcases h.source with ⟨hin, -⟩ | ⟨rfl, -⟩
  · exact fun heq => hm.atPool.zero_notMem (heq ▸ hin)
  · exact Nat.ne_of_gt hm.next

theorem new_notMem : new ∉ live.toList := by
  rcases h.source with ⟨hin, -⟩ | ⟨rfl, -⟩
  · exact fun hlive => hm.apart hlive hin
  · exact fun hlive => Nat.lt_irrefl _ (hm.bound _ (List.mem_append_left _ hlive))

theorem next_le : m.next ≤ m'.next ∧ new < m'.next := by
  rcases h.source with ⟨hin, -, hnext⟩ | ⟨rfl, -, hnext⟩
  · exact ⟨by omega, hnext ▸ hm.bound _ (List.mem_append_right _ hin)⟩
  · omega

/-- Taking a node does not touch the live tree. -/
theorem live_same {x : Nat} (hx : x ∈ live.toList) : m'.nodes x = m.nodes x :=
  h.other x (hm.apart hx) fun heq => h.new_notMem hm (heq ▸ hx)

/-- The memory once a node is taken. -/
theorem holds : Holds m' live pool' where
  atRoot := h.root ▸ hm.atRoot.congr fun _ hx => h.live_same hm hx
  atPool := h.atPool
  nodup := by
    refine List.nodup_append.mpr ⟨hm.live_nodup, (List.nodup_cons.mp h.nodup).2, ?_⟩
    intro x hx y hy heq
    exact hm.apart hx (h.subset (heq ▸ hy))
  bound x hx := by
    have hle := (h.next_le hm).1
    rcases List.mem_append.mp hx with hx | hx
    · exact Nat.lt_of_lt_of_le (hm.bound x (List.mem_append_left _ hx)) hle
    · exact Nat.lt_of_lt_of_le (hm.bound x (List.mem_append_right _ (h.subset hx))) hle
  next := Nat.lt_of_lt_of_le hm.next (h.next_le hm).1
  ptr := h.ptr

end Takes

end Take

section Link

/-- The way down of `rbtree_insert` ends at the node above the hole. -/
theorem walkDown_at {key : Int} {goRight : Nat → Bool} {fuel : Nat} (h : At m.nodes t a p)
    (hp : p = parentOf ctx) (hgo : ∀ x ∈ t.toList, goRight x = decide ((m.nodes x).key < key))
    (hfuel : t.toList.length < fuel) :
    m.walkDown key fuel a p = some (parentOf (RedBlack.Ctx.descend goRight t ctx)) := by
  induction t generalizing a p fuel ctx with
  | nil =>
    obtain ⟨k, rfl⟩ : ∃ k, fuel = k + 1 := ⟨fuel - 1, by omega⟩
    have ha : a = 0 := h
    rw [RBTreeCtrl.walkDown, if_neg fun hne => hne ha, hp]
    rfl
  | node c l x r ihl ihr =>
    obtain ⟨k, rfl⟩ : ∃ k, fuel = k + 1 := ⟨fuel - 1, by omega⟩
    obtain ⟨rfl, ha, -, -, hl, hr⟩ := h
    rw [RedBlack.RbTree.toList_node, List.length_append, List.length_cons] at hfuel
    have hgo' := hgo a (by simp)
    rw [RBTreeCtrl.walkDown, if_pos ha, RedBlack.Ctx.descend, hgo']
    by_cases hlt : (m.nodes a).key < key
    · rw [if_pos hlt, if_pos (decide_eq_true hlt)]
      exact ihr hr rfl (fun y hy => hgo y (by simp [hy])) (by omega)
    · rw [if_neg hlt, if_neg (by simpa using hlt)]
      exact ihl hl rfl (fun y hy => hgo y (by simp [hy])) (by omega)

/-- The writes that put a red node into a hole. -/
def link (m : RBTreeCtrl) (ctx : Ctx Nat) (new : Nat) : RBTreeCtrl :=
  (m.set (parentOf ctx) (relink new ctx)).set new fun x => { x with color := .red }

theorem keeps_link {cells : List Nat} (hparent : parentOf ctx ∈ new :: cells) :
    Keeps m (link m ctx new) (new :: cells) := by
  have hrelink : Keeps m (m.set (parentOf ctx) (relink new ctx)) (new :: cells) := by
    refine keeps_set hparent (fun _ => ?_) fun _ => ?_
    · cases ctx <;> rfl
    · cases ctx <;> rfl
  have hpaint : Keeps (m.set (parentOf ctx) (relink new ctx)) (link m ctx new) (new :: cells) :=
    keeps_set List.mem_cons_self (fun _ => rfl) fun _ => rfl
  exact hrelink.trans hpaint

/-- A new node is in the hole. -/
theorem link_at (h : At m.nodes (ctx.plug .nil) m.root 0) (hnodup : (ctx.plug .nil).toList.Nodup)
    (hctx : parentOf ctx ≠ 0) (hzero : new ≠ 0) (hnew : new ∉ (ctx.plug .nil).toList)
    (hnode : (m.nodes new).left = 0 ∧ (m.nodes new).right = 0 ∧
      (m.nodes new).parent = parentOf ctx) :
    At (link m ctx new).nodes (ctx.plug (node .red .nil new .nil)) m.root 0 := by
  have hlist : (ctx.plug .nil).toList = ctx.before ++ ctx.after := by
    simp [RedBlack.Ctx.toList_plug]
  rw [hlist] at hnew
  have hnp : new ≠ parentOf ctx := fun heq => hnew (heq ▸ parentOf_mem hctx)
  have hsame : ∀ x ∈ ctx.before ++ ctx.after, x ≠ new := fun x hx heq => hnew (heq ▸ hx)
  obtain ⟨hctxAt, -⟩ := at_plug_iff.mp h
  refine at_plug_iff.mpr ⟨hctxAt.relink (nodup_ctx hnodup) (fun _ => ?_) (fun x hx hxp => ?_) ?_,
    rfl, hzero, ?_, ?_, ?_, ?_⟩
  · rw [link, set_of_ne hnp.symm, set_self]
    rfl
  · rw [link, set_of_ne (hsame x hx), set_of_ne hxp]
  · rw [if_neg hctx]
  · rw [link, set_self]
  · rw [link, set_self, set_of_ne hnp]
    exact hnode.2.2
  · rw [link, set_self, set_of_ne hnp]
    exact hnode.1
  · rw [link, set_self, set_of_ne hnp]
    exact hnode.2.1

/-- The counter is not part of the memory. -/
theorem Holds.withCount (h : Holds m live pool) :
    Holds { m with count := m.count + 1 } live pool :=
  ⟨h.atRoot, h.atPool, h.nodup, h.bound, h.next, h.ptr⟩

/-- What `rbtree_insert` does to the memory. -/
structure Inserts (m m' : RBTreeCtrl) (live pool pool' : RbTree Nat) (key : Int) (data : Nat)
    (reuseData : Bool) (new : Nat) : Prop where
  holds : Holds m' (RedBlack.insert (fun x => decide ((m.nodes x).key < key)) new live) pool'
  fresh : new ∉ live.toList
  subset : pool'.toList ⊆ pool.toList
  key_new : (m'.nodes new).key = key
  key_old : ∀ x ∈ live.toList, (m'.nodes x).key = (m.nodes x).key
  data_new : (new ∈ pool.toList ∧
      (m'.nodes new).data = if reuseData then (m.nodes new).data else data) ∨
    (m.next ≤ new ∧ (m'.nodes new).data = if reuseData then 0 else data)
  data_old : ∀ x ≠ new, (m'.nodes x).data = (m.nodes x).data
  count : m'.count = m.count + 1

/-- A taken node as `new_rbtree_node` fills it in, below the node the way down ends at. -/
def fresh (key : Int) (data : Nat) (reuseData : Bool) (parent : Nat) (x : Node) : Node :=
  { x with
    data := if reuseData then x.data else data
    key := key, left := 0, right := 0, parent := parent }

/-- The tree behind an insertion, before it is repaired. -/
def unbalanced (goRight : Nat → Bool) (new : Nat) (live : RbTree Nat) : RbTree Nat :=
  (RedBlack.Ctx.descend goRight live .root).plug (node .red .nil new .nil)

/-- The new node is linked in. -/
theorem linked_at {goRight : Nat → Bool} {f : Node → Node} (hm : Holds m live pool)
    (hzero : new ≠ 0) (hlive : new ∉ live.toList)
    (hctx : parentOf (RedBlack.Ctx.descend goRight live .root) ≠ 0)
    (hf : ∀ x, (f x).left = 0 ∧ (f x).right = 0 ∧
      (f x).parent = parentOf (RedBlack.Ctx.descend goRight live .root)) :
    At (link (m.set new f) (RedBlack.Ctx.descend goRight live .root) new).nodes
      (unbalanced goRight new live) m.root 0 := by
  have hplug := RedBlack.Ctx.plug_descend goRight live .root
  have hset : At (m.set new f).nodes
      ((RedBlack.Ctx.descend goRight live .root).plug .nil) m.root 0 := by
    rw [hplug]
    exact hm.atRoot.congr fun x hx => set_of_ne fun heq => hlive (heq ▸ hx)
  refine link_at (m := m.set new f) hset ?_ hctx hzero ?_ ?_
  · rw [hplug]
    exact hm.live_nodup
  · rw [hplug]
    exact hlive
  · rw [set_self]
    exact hf _

theorem toList_unbalanced {goRight : Nat → Bool} :
    (unbalanced goRight new live).toList.Perm (new :: live.toList) := by
  have hplug := RedBlack.Ctx.plug_descend goRight live .root
  have hlist : live.toList = ((RedBlack.Ctx.descend goRight live .root).plug .nil).toList := by
    rw [hplug]
    rfl
  rw [hlist, unbalanced, RedBlack.Ctx.toList_plug, RedBlack.Ctx.toList_plug]
  exact List.perm_middle

theorem set_set {f g : Node → Node} : (m.set a f).set a g = m.set a fun x => g (f x) := by
  simp [RBTreeCtrl.set]

/-- An insertion, up to what the tree looks like in the end. -/
theorem inserts_of_keeps {m₁ : RBTreeCtrl} {key : Int} {data parent : Nat} {reuseData : Bool}
    (hm : Holds m live pool) (htakes : Takes { m with count := m.count + 1 } m₁ pool pool' new)
    (hat : At m'.nodes (RedBlack.insert (fun x => decide ((m.nodes x).key < key)) new live)
      m'.root 0)
    (hkeeps : Keeps (m₁.set new (fresh key data reuseData parent)) m' (new :: live.toList)) :
    Inserts m m' live pool pool' key data reuseData new := by
  have hm₀ := hm.withCount
  have hm₁ := htakes.holds hm₀
  have hnew := htakes.new_notMem hm₀
  have hnewPool := (List.nodup_cons.mp htakes.nodup).1
  have hperm : (RedBlack.insert (fun x => decide ((m.nodes x).key < key)) new live).toList.Perm
      (new :: live.toList) := by
    rw [RedBlack.insert, RedBlack.Ctx.toList_fix]
    exact toList_unbalanced
  have hset : ∀ x ≠ new, (m₁.set new (fresh key data reuseData parent)).nodes x = m₁.nodes x :=
    fun x hx => set_of_ne hx
  refine ⟨⟨hat, ?_, ?_, ?_, ?_, ?_⟩, hnew, htakes.subset, ?_, ?_, ?_, ?_, ?_⟩
  · have hpool : At m'.nodes pool' m₁.poolRoot 0 := by
      refine hm₁.atPool.congr fun x hx => ?_
      have hxnew : x ≠ new := fun heq => hnewPool (heq ▸ hx)
      rw [hkeeps.nodes x ?_, hset x hxnew]
      rw [List.mem_cons, not_or]
      exact ⟨hxnew, fun hlive => hm₁.apart hlive hx⟩
    exact hkeeps.poolRoot ▸ hpool
  · refine (hperm.append_right _).nodup_iff.mpr ?_
    rw [List.cons_append, List.nodup_cons, List.mem_append, not_or]
    exact ⟨⟨hnew, hnewPool⟩, hm₁.nodup⟩
  · intro x hx
    have hx' := (hperm.append_right _).subset hx
    rw [hkeeps.next]
    rw [List.cons_append, List.mem_cons] at hx'
    rcases hx' with rfl | hx'
    · exact (htakes.next_le hm₀).2
    · exact hm₁.bound x hx'
  · rw [hkeeps.next]
    exact hm₁.next
  · rw [hkeeps.poolPtr]
    exact hm₁.ptr
  · rw [hkeeps.key, set_self]
    rfl
  · intro x hx
    have hxnew : x ≠ new := fun heq => hnew (heq ▸ hx)
    rw [hkeeps.key, hset x hxnew, htakes.live_same hm₀ hx]
  · have hdata : (m'.nodes new).data = if reuseData then (m₁.nodes new).data else data := by
      rw [hkeeps.data, set_self]
      rfl
    rcases htakes.source with ⟨hin, hsame, -⟩ | ⟨heq, hzero, -⟩
    · exact .inl ⟨hin, by rw [← hsame]; exact hdata⟩
    · exact .inr ⟨Nat.le_of_eq heq.symm, by rw [← hzero]; exact hdata⟩
  · intro x hx
    rw [hkeeps.data, hset x hx, htakes.data x hx]
  · rw [hkeeps.count, set_count, htakes.count]

/-- `rbtree_insert` once a node is taken and the way down is known. -/
theorem rbtreeInsert_eq {m₁ : RBTreeCtrl} {key : Int} {data parent : Nat} {reuseData : Bool}
    (htake : RBTreeCtrl.takeNode { m with count := m.count + 1 } = some (new, m₁))
    (hwalk : (m₁.set new (fresh key data reuseData 0)).walkDown key m₁.next m₁.root 0 =
      some parent) :
    m.rbtreeInsert key data reuseData =
      let m := m₁.set new (fresh key data reuseData parent)
      if parent = 0 then
        some (new, { m with root := new }.set new fun x => { x with color := .black })
      else
        let m :=
          if (m.nodes parent).key < key then m.set parent fun x => { x with right := new }
          else m.set parent fun x => { x with left := new }
        let m := m.set new fun x => { x with color := .red }
        (m.rbtreeFixup new).bind fun m => some (new, m) := by
  have hnode : RBTreeCtrl.newRbtreeNode { m with count := m.count + 1 } key data reuseData =
      some (new, m₁.set new (fresh key data reuseData 0)) := by
    simp only [RBTreeCtrl.newRbtreeNode, htake, Option.bind_eq_bind, Option.bind_some]
    rfl
  have hparent : (m₁.set new (fresh key data reuseData 0)).set new
      (fun x => { x with parent := parent }) = m₁.set new (fresh key data reuseData parent) :=
    set_set
  simp only [RBTreeCtrl.rbtreeInsert, hnode, Option.bind_eq_bind, Option.bind_some, set_next,
    set_root, hwalk, hparent]

section Taken

variable {m₁ : RBTreeCtrl} {key : Int} {data : Nat} {reuseData : Bool}

theorem key_fresh (hm : Holds m live pool)
    (htakes : Takes { m with count := m.count + 1 } m₁ pool pool' new) (parent : Nat) {x : Nat}
    (hx : x ∈ live.toList) :
    ((m₁.set new (fresh key data reuseData parent)).nodes x).key = (m.nodes x).key := by
  have hnew := htakes.new_notMem hm.withCount
  have hxnew : x ≠ new := fun heq => hnew (heq ▸ hx)
  rw [set_of_ne hxnew, htakes.live_same hm.withCount hx]

/-- The way down once a node is taken. -/
theorem walkDown_fresh (hm : Holds m live pool)
    (htakes : Takes { m with count := m.count + 1 } m₁ pool pool' new) :
    (m₁.set new (fresh key data reuseData 0)).walkDown key m₁.next m₁.root 0 =
      some (parentOf (RedBlack.Ctx.descend (fun x => decide ((m.nodes x).key < key)) live
        .root)) := by
  have hm₁ := htakes.holds hm.withCount
  have hnew := htakes.new_notMem hm.withCount
  have hat : At (m₁.set new (fresh key data reuseData 0)).nodes live m₁.root 0 :=
    hm₁.atRoot.congr fun x hx => set_of_ne fun heq => hnew (heq ▸ hx)
  exact walkDown_at hat rfl (fun x hx => by rw [key_fresh hm htakes 0 hx]) hm₁.live_length

/-- `rbtree_insert` into an empty tree. -/
theorem rbtreeInsert_empty (hm : Holds m .nil pool)
    (htake : RBTreeCtrl.takeNode { m with count := m.count + 1 } = some (new, m₁))
    (htakes : Takes { m with count := m.count + 1 } m₁ pool pool' new) :
    ∃ m', m.rbtreeInsert key data reuseData = some (new, m') ∧
      Inserts m m' .nil pool pool' key data reuseData new ∧ m'.poolPtr = m₁.poolPtr ∧
      m'.next = m₁.next := by
  have hzero := htakes.new_ne_zero hm.withCount
  obtain ⟨m₂, hm₂⟩ : ∃ m₂ : RBTreeCtrl, m₂ =
      { m₁.set new (fresh key data reuseData 0) with root := new } := ⟨_, rfl⟩
  have hnode : m₂.nodes new = fresh key data reuseData 0 (m₁.nodes new) := by
    rw [hm₂]
    exact set_self
  have hroot : m₂.root = new := by rw [hm₂]
  have hkeeps : Keeps (m₁.set new (fresh key data reuseData 0)) m₂ [new] := by
    rw [hm₂]
    exact ⟨fun _ _ => rfl, fun _ => rfl, fun _ => rfl, rfl, rfl, rfl, rfl⟩
  have hpaint : Keeps m₂ (m₂.set new fun x => { x with color := .black }) [new] :=
    keeps_set List.mem_cons_self (fun _ => rfl) fun _ => rfl
  have hkept := hkeeps.trans hpaint
  refine ⟨m₂.set new fun x => { x with color := .black }, ?_,
    inserts_of_keeps hm htakes ?_ hkept, hkept.poolPtr, hkept.next⟩
  · rw [rbtreeInsert_eq htake (walkDown_fresh hm htakes), hm₂]
    rfl
  · rw [set_root, hroot]
    refine ⟨rfl, hzero, ?_, ?_, ?_, ?_⟩
    · rw [set_self]
    · rw [set_self, hnode]
      rfl
    · rw [set_self, hnode]
      rfl
    · rw [set_self, hnode]
      rfl

/-- The writes of `rbtree_insert` below an inner node. -/
theorem link_eq {goRight : Nat → Bool} (hagrees : ctx.Agrees goRight) (hctx : parentOf ctx ≠ 0)
    (hgo : goRight (parentOf ctx) = decide ((m.nodes (parentOf ctx)).key < key)) :
    (if (m.nodes (parentOf ctx)).key < key then
        m.set (parentOf ctx) fun x => { x with right := new }
      else m.set (parentOf ctx) fun x => { x with left := new }).set new
        (fun x => { x with color := .red }) = link m ctx new := by
  cases ctx with
  | root => exact absurd rfl hctx
  | left c q r up =>
    have hnot : ¬ (m.nodes q).key < key := by
      have hfalse : goRight q = false := hagrees
      rw [parentOf, hfalse] at hgo
      exact of_decide_eq_false hgo.symm
    rw [parentOf, if_neg hnot]
    rfl
  | right c l q up =>
    have hlt : (m.nodes q).key < key := by
      have htrue : goRight q = true := hagrees
      rw [parentOf, htrue] at hgo
      exact of_decide_eq_true hgo.symm
    rw [parentOf, if_pos hlt]
    rfl

/-- The way down in a tree that is not empty ends below a node of it. -/
theorem parentOf_descend (goRight : Nat → Bool) (hm : Holds m live pool) (hlive : live ≠ .nil) :
    parentOf (RedBlack.Ctx.descend goRight live .root) ≠ 0 ∧
      parentOf (RedBlack.Ctx.descend goRight live .root) ∈ live.toList := by
  have hplug := RedBlack.Ctx.plug_descend goRight live .root
  have hlist : (RedBlack.Ctx.descend goRight live .root).before ++
      (RedBlack.Ctx.descend goRight live .root).after = live.toList := by
    have hfull := congrArg RedBlack.RbTree.toList hplug
    simpa [RedBlack.Ctx.toList_plug, RedBlack.Ctx.plug] using hfull
  have hne : parentOf (RedBlack.Ctx.descend goRight live .root) ≠ 0 := by
    have hat : At m.nodes ((RedBlack.Ctx.descend goRight live .root).plug .nil) m.root 0 := by
      rw [hplug]
      exact hm.atRoot
    have hctxAt := (at_plug_iff.mp hat).1
    cases hctx : RedBlack.Ctx.descend goRight live .root with
    | root =>
      rw [hctx] at hplug
      exact absurd hplug.symm hlive
    | left c q r up =>
      rw [hctx] at hctxAt
      exact hctxAt.1
    | right c l q up =>
      rw [hctx] at hctxAt
      exact hctxAt.1
  refine ⟨hne, ?_⟩
  rw [← hlist]
  exact parentOf_mem hne

/-- `rbtree_insert` puts the node it takes behind the smaller keys. -/
theorem rbtreeInsert_takes (key : Int) (data : Nat) (reuseData : Bool) (hm : Holds m live pool)
    (hlive : live.IsRedBlack)
    (htake : RBTreeCtrl.takeNode { m with count := m.count + 1 } = some (new, m₁))
    (htakes : Takes { m with count := m.count + 1 } m₁ pool pool' new) :
    ∃ m', m.rbtreeInsert key data reuseData = some (new, m') ∧
      Inserts m m' live pool pool' key data reuseData new ∧ m'.poolPtr = m₁.poolPtr ∧
      m'.next = m₁.next := by
  by_cases hnil : live = .nil
  · subst hnil
    exact rbtreeInsert_empty hm htake htakes
  have hm₁ := htakes.holds hm.withCount
  have hzero := htakes.new_ne_zero hm.withCount
  have hnew := htakes.new_notMem hm.withCount
  obtain ⟨goRight, hgo⟩ : ∃ goRight : Nat → Bool,
      goRight = fun x => decide ((m.nodes x).key < key) := ⟨_, rfl⟩
  obtain ⟨ctx, hctx⟩ : ∃ ctx, ctx = RedBlack.Ctx.descend goRight live .root := ⟨_, rfl⟩
  obtain ⟨hparent, hparentMem⟩ := parentOf_descend goRight hm hnil
  have hagrees : ctx.Agrees goRight := hctx ▸ RedBlack.Ctx.agrees_descend trivial
  have hwalk : (m₁.set new (fresh key data reuseData 0)).walkDown key m₁.next m₁.root 0 =
      some (parentOf ctx) := by
    rw [hctx, hgo]
    exact walkDown_fresh hm htakes
  rw [← hctx] at hparent hparentMem
  -- The tree with the new node linked in.
  obtain ⟨m₂, hm₂⟩ : ∃ m₂, m₂ = m₁.set new (fresh key data reuseData (parentOf ctx)) := ⟨_, rfl⟩
  have hlinked : At (link m₂ ctx new).nodes (ctx.plug (node .red .nil new .nil)) m₂.root 0 := by
    rw [hm₂, hctx]
    exact linked_at hm₁ hzero hnew (hctx ▸ hparent) fun _ => ⟨rfl, rfl, by rw [← hctx]; rfl⟩
  have hperm : (ctx.plug (node .red .nil new .nil)).toList.Perm (new :: live.toList) := by
    rw [hctx]
    exact toList_unbalanced
  have hnodup : (ctx.plug (node .red .nil new .nil)).toList.Nodup :=
    hperm.nodup_iff.mpr (List.nodup_cons.mpr ⟨hnew, hm₁.live_nodup⟩)
  have hnext : (link m₂ ctx new).next = m₁.next := by
    rw [hm₂]
    rfl
  have hlength : (ctx.plug (node .red .nil new .nil)).toList.length < (link m₂ ctx new).next := by
    refine length_lt_of_nodup hnodup hlinked.zero_notMem (fun x hx => ?_) (hnext ▸ hm₁.next)
    rw [hnext]
    rcases List.mem_cons.mp (hperm.subset hx) with rfl | hx
    · exact (htakes.next_le hm.withCount).2
    · exact hm₁.bound x (List.mem_append_left _ hx)
  have hfuel : around ctx + 2 ≤ (link m₂ ctx new).next := by
    rw [RedBlack.Ctx.toList_plug] at hlength
    simp only [List.length_append, RedBlack.RbTree.toList_node, List.length_cons] at hlength
    rw [around, List.length_append]
    omega
  obtain ⟨hroot, n, hn⟩ := hlive
  have hfits : ctx.Fits 0 := hctx ▸ (RedBlack.Ctx.Fits.root n).descend hn (.inl hroot)
  obtain ⟨m', hfixup, hat, hkeeps⟩ := rbtreeFixup_at hfits rfl hlinked hnodup hfuel
  have hkept : Keeps (m₁.set new (fresh key data reuseData (parentOf ctx))) m'
      (new :: live.toList) := by
    rw [← hm₂]
    exact (keeps_link (List.mem_cons_of_mem _ hparentMem)).trans (hkeeps.mono hperm.subset)
  refine ⟨m', ?_, inserts_of_keeps hm htakes ?_ hkept, hkept.poolPtr, hkept.next⟩
  · have hside : goRight (parentOf ctx) = decide ((m₂.nodes (parentOf ctx)).key < key) := by
      rw [hgo, hm₂, key_fresh hm htakes _ hparentMem]
    rw [rbtreeInsert_eq htake hwalk, ← hm₂]
    simp only [if_neg hparent, link_eq hagrees hparent hside]
    have hfixup' : (link m₂ ctx new).rbtreeFixup new = some m' := hfixup
    rw [hfixup', Option.bind_some]
  · rw [← hgo, RedBlack.insert, ← hctx]
    exact hat

/-- `rbtree_insert` keeps red-black trees. -/
theorem rbtreeInsert_at (key : Int) (data : Nat) (reuseData : Bool) (hm : Holds m live pool)
    (hlive : live.IsRedBlack) :
    ∃ new m' pool', m.rbtreeInsert key data reuseData = some (new, m') ∧
      Inserts m m' live pool pool' key data reuseData new := by
  obtain ⟨new, m₁, pool', htake, htakes⟩ := takeNode_at hm.withCount
  obtain ⟨m', hinsert, hm', -⟩ := rbtreeInsert_takes key data reuseData hm hlive htake htakes
  exact ⟨new, m', pool', hinsert, hm'⟩

end Taken

end Link

end Rbtree

end Recognizer
