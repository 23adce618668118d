import Recognizer.Rbtree.History

/-!
# Which nodes come back

The pool is the cleared trees, and its cursor goes through them as in taking a tree apart.
A node that hangs below the one that is handed out is never handed out itself.
-/

namespace Recognizer

namespace Rbtree

open RedBlack (Color RbTree Ctx Cursor)
open RedBlack.RbTree (node)

/-- Insertions after `s`, with the pool not yet used up, hand out the node `a`. -/
def HandedOut (s : History) (a : Nat) : Prop :=
  ∃ ops s' key data reuseData m, (∀ op ∈ ops, op ≠ .clear) ∧ s.run ops = some s' ∧
    s'.ctrl.poolPtr ≠ 0 ∧ s'.ctrl.rbtreeInsert key data reuseData = some (a, m)

/-- The nodes ever allocated are those of the tree and those that are still handed out, no
node of the tree is handed out again, and memory is allocated only if all are in the tree. -/
structure LosesNothing (s : History) (live : RbTree Nat) : Prop where
  union : ∀ a, (a ≠ 0 ∧ a < s.ctrl.next) ↔ (a ∈ live.toList ∨ HandedOut s a)
  apart : ∀ a ∈ live.toList, ¬ HandedOut s a
  fresh : ∀ key data reuseData new m, s.ctrl.rbtreeInsert key data reuseData = some (new, m) →
    m.next ≠ s.ctrl.next → ∀ a, a ≠ 0 → a < s.ctrl.next → a ∈ live.toList

/-- Every insertion finds nothing on the right of the node it takes from the pool. -/
def Careful (s : History) : List Op → Prop
  | [] => True
  | op :: ops =>
    (op ≠ .clear → s.ctrl.poolPtr ≠ 0 → (s.ctrl.nodes s.ctrl.poolPtr).right = 0) ∧
      ∀ s', s.step op = some s' → Careful s' ops

/-- The tree a cursor is in; there is none without a cursor. -/
def treeOf (z : Option (Cursor Nat)) : RbTree Nat := z.elim .nil Cursor.tree

/-- What hangs below the node at the cursor. -/
def hanging (z : Option (Cursor Nat)) : List Nat := z.elim [] fun z => z.right.toList

/-- What is left over once the cursor has gone through the tree. -/
def leftoverOf (z : Option (Cursor Nat)) : List Nat := z.elim [] Cursor.leftover

/-- The pool has a cursor, and every node is in the tree, in the pool or lost. -/
structure Pooled (s : History) (live : RbTree Nat) (z : Option (Cursor Nat)) (lost : List Nat) :
    Prop where
  valid : Valid s live (treeOf z)
  ptr : ∀ c, z = some c → c.val = s.ctrl.poolPtr
  settled : ∀ c, z = some c → c.Settled
  all : ∀ a, a ≠ 0 → a < s.ctrl.next → a ∈ live.toList ∨ a ∈ (treeOf z).toList ∨ a ∈ lost
  lost : ∀ a ∈ lost, (a ≠ 0 ∧ a < s.ctrl.next) ∧ a ∉ live.toList ∧ a ∉ (treeOf z).toList

variable {s s' : History} {live live' : RbTree Nat} {z z' : Option (Cursor Nat)}
  {lost lost' : List Nat} {c : Cursor Nat} {a : Nat}

theorem pooled_init : Pooled {} .nil none [] where
  valid := valid_init
  ptr := nofun
  settled := nofun
  all a ha hlt := absurd (Nat.lt_one_iff.mp hlt) ha
  lost := by simp

namespace Pooled

/-- Without a cursor the pool is empty. -/
theorem ptr_eq_zero_iff (h : Pooled s live z lost) : s.ctrl.poolPtr = 0 ↔ z = none := by
  cases z with
  | none =>
    have hnil := h.valid.holds.ptr.resolve_left (by simp [treeOf])
    simp [hnil.1]
  | some c =>
    have hne : c.val ≠ 0 := (at_plug_iff.mp h.valid.holds.atPool).2.2.1
    rw [h.ptr c rfl] at hne
    simp [hne]

/-- The node at the cursor has on its right what hangs there. -/
theorem right_eq_zero_iff (h : Pooled s live (some c) lost) :
    (s.ctrl.nodes s.ctrl.poolPtr).right = 0 ↔ c.right = .nil := by
  have hright := (at_plug_iff.mp h.valid.holds.atPool).2.2.2.2.2.2
  rw [h.ptr c rfl] at hright
  constructor
  · exact hright.eq_nil
  · intro hnil
    rw [hnil] at hright
    exact hright

/-- What an insertion does to the pool. -/
structure Inserted (live live' : RbTree Nat) (z z' : Option (Cursor Nat)) (new : Nat) : Prop where
  live : live'.toList.Perm (new :: live.toList)
  pool : (treeOf z').toList ⊆ (treeOf z).toList
  new : ∀ c, z = some c → c.val = new
  leftover : leftoverOf z = hanging z ++ leftoverOf z'
  length : z ≠ none → (treeOf z').toList.length < (treeOf z).toList.length

theorem treeOf_advance (hc : c.Settled) : treeOf c.advance = c.rest := by
  cases hadvance : c.advance with
  | none =>
    obtain ⟨hctx, hright⟩ := Cursor.advance_eq_none hc hadvance
    rw [Cursor.rest, hctx]
    exact hright.symm
  | some c' => exact Cursor.tree_advance hc hadvance

theorem leftoverOf_advance (hc : c.Settled) :
    c.leftover = c.right.toList ++ leftoverOf c.advance := by
  cases hadvance : c.advance with
  | none =>
    obtain ⟨hctx, -⟩ := Cursor.advance_eq_none hc hadvance
    rw [Cursor.leftover, hctx]
    rfl
  | some c' => exact Cursor.leftover_advance hc hadvance

/-- An insertion from the pool moves the cursor on. -/
theorem insert_some (key : Int) (data : Nat) (reuseData : Bool)
    (h : Pooled s live (some c) lost) :
    ∃ m live', s.ctrl.rbtreeInsert key data reuseData = some (c.val, m) ∧
      Pooled ⟨m, (c.val, key) :: s.inserted⟩ live' c.advance (lost ++ c.right.toList) ∧
      Inserted live live' (some c) c.advance c.val ∧ m.next = s.ctrl.next := by
  have hsettled := h.settled c rfl
  have htree := treeOf_advance hsettled
  obtain ⟨m₁, htake, htakes, hnext⟩ := takeNode_cursor h.valid.holds.withCount (h.ptr c rfl)
  obtain ⟨m, hinsert, hm, hptr, hsame⟩ :=
    rbtreeInsert_takes key data reuseData h.valid.holds h.valid.redBlack htake htakes
  have hperm := perm_insert c.val key h.valid.sorted
  have hrest := Cursor.perm_rest hsettled
  have hnodup := hrest.nodup_iff.mp h.valid.holds.pool_nodup
  obtain ⟨hval, hparts⟩ := List.nodup_cons.mp hnodup
  have hmnext : m.next = s.ctrl.next := by
    rcases htakes.source with ⟨-, -, hkeep⟩ | ⟨heq, -, -⟩
    · rw [hsame, hkeep]
    · have hlt := h.valid.holds.bound c.val (List.mem_append_right _ c.val_mem)
      have heq : c.val = s.ctrl.next := heq
      omega
  have hmem : ∀ a, a ∈ c.tree.toList ↔ a = c.val ∨ a ∈ c.right.toList ∨ a ∈ c.rest.toList := by
    intro a
    rw [hrest.mem_iff, List.mem_cons, List.mem_append]
  have hliveMem := fun a => (hperm.mem_iff (a := a)).trans List.mem_cons
  refine ⟨m, _, hinsert, ⟨htree ▸ h.valid.insert hm, ?_, ?_, ?_, ?_⟩, ⟨hperm, ?_, ?_, ?_, ?_⟩,
    hmnext⟩
  · intro c' hc'
    rw [hnext c' hc', hptr]
  · exact fun c' hc' => Cursor.settled_advance hsettled hc'
  · intro a ha hlt
    rw [hliveMem, htree, List.mem_append]
    have hcase := h.all a ha (hmnext ▸ hlt)
    have hpool : a ∈ (treeOf (some c)).toList ↔ _ := hmem a
    rw [hpool] at hcase
    grind
  · intro a ha
    rw [hliveMem, htree]
    have happart : a ∈ c.tree.toList → a ∉ live.toList := fun hpool hlive =>
      h.valid.holds.apart hlive hpool
    rcases List.mem_append.mp ha with ha | ha
    · obtain ⟨hbound, hlive, hpool⟩ := h.lost a ha
      have hpool : a ∉ c.tree.toList := hpool
      rw [hmem] at hpool
      exact ⟨hmnext ▸ hbound, by tauto, by tauto⟩
    · have hin : a ∈ c.tree.toList := (hmem a).mpr (.inr (.inl ha))
      have hne : a ≠ c.val := fun heq => hval (heq ▸ List.mem_append_left _ ha)
      have hnotRest : a ∉ c.rest.toList := fun hr =>
        (List.nodup_append.mp hparts).2.2 a ha a hr rfl
      have hzero : a ≠ 0 := fun heq => h.valid.holds.atPool.zero_notMem (heq ▸ hin)
      have hlt := h.valid.holds.bound a (List.mem_append_right _ hin)
      exact ⟨⟨hzero, hmnext ▸ hlt⟩, not_or.mpr ⟨hne, happart hin⟩, hnotRest⟩
  · rw [htree]
    exact fun a ha => (hmem a).mpr (.inr (.inr ha))
  · rintro c' ⟨⟩
    rfl
  · exact leftoverOf_advance hsettled
  · intro _
    rw [htree]
    have hlength := hrest.length_eq
    rw [List.length_cons, List.length_append] at hlength
    show _ < c.tree.toList.length
    omega

/-- An insertion without a pool allocates its node. -/
theorem insert_none (key : Int) (data : Nat) (reuseData : Bool) (h : Pooled s live none lost) :
    ∃ m live', s.ctrl.rbtreeInsert key data reuseData = some (s.ctrl.next, m) ∧
      Pooled ⟨m, (s.ctrl.next, key) :: s.inserted⟩ live' none lost ∧
      live'.toList.Perm (s.ctrl.next :: live.toList) := by
  obtain ⟨new, m₁, pool', htake, htakes⟩ := takeNode_at h.valid.holds.withCount
  obtain ⟨m, hinsert, hm, hptr, hsame⟩ :=
    rbtreeInsert_takes key data reuseData h.valid.holds h.valid.redBlack htake htakes
  obtain ⟨hnew, hnext⟩ : new = s.ctrl.next ∧ m₁.next = s.ctrl.next + 1 := by
    rcases htakes.source with ⟨hin, -⟩ | ⟨hnew, -, hnext⟩
    · cases hin
    · exact ⟨hnew, hnext⟩
  subst hnew
  have hnil : pool' = .nil := by
    cases pool' with
    | nil => rfl
    | node c l x r =>
      have hin : x ∈ (treeOf none).toList := htakes.subset (by simp)
      cases hin
  subst hnil
  have hperm := perm_insert s.ctrl.next key h.valid.sorted
  have hliveMem := fun a => (hperm.mem_iff (a := a)).trans List.mem_cons
  refine ⟨m, _, hinsert, ⟨h.valid.insert hm, nofun, nofun, ?_, ?_⟩, hperm⟩
  · intro a ha hlt
    rw [hliveMem]
    have hlt : a < s.ctrl.next + 1 := hnext ▸ hsame ▸ hlt
    by_cases hnewest : a = s.ctrl.next
    · exact .inl (.inl hnewest)
    · have hcase := h.all a ha (by omega)
      grind
  · intro a ha
    obtain ⟨⟨hzero, hlt⟩, hlive, hpool⟩ := h.lost a ha
    have hbound : a < m.next := by
      rw [hsame, hnext]
      omega
    rw [hliveMem]
    exact ⟨⟨hzero, hbound⟩, not_or.mpr ⟨Nat.ne_of_lt hlt, hlive⟩, hpool⟩

/-- The place a cleared tree is hung into is at the cursor. -/
def hole (z : Option (Cursor Nat)) : Ctx Nat :=
  z.elim .root fun c => .left c.color c.val c.right c.ctx

theorem hangsAt_hole (h : Pooled s live z lost) : HangsAt s.ctrl (treeOf z) (hole z) := by
  cases z with
  | none => exact .inl ⟨rfl, rfl⟩
  | some c =>
    obtain ⟨ctx, color, x, r⟩ := c
    obtain rfl : x = s.ctrl.poolPtr := h.ptr _ rfl
    exact .inr ⟨ctx, color, .nil, r, rfl, rfl⟩

/-- The pool with the cleared tree in it. -/
theorem perm_hole (z : Option (Cursor Nat)) (live : RbTree Nat) :
    ((hole z).plug live).toList.Perm (live.toList ++ (treeOf z).toList) := by
  cases z with
  | none =>
    show live.toList.Perm _
    simp [treeOf]
  | some c =>
    show ((Ctx.left c.color c.val c.right c.ctx).plug live).toList.Perm _
    rw [RedBlack.Ctx.toList_plug]
    refine (List.perm_append_comm_assoc _ _ _).trans (List.Perm.append_left _ ?_)
    show (c.ctx.before ++ (c.val :: c.right.toList ++ c.ctx.after)).Perm c.tree.toList
    rw [Cursor.toList_tree]

/-- Clearing hands the tree over to the pool and loses nothing. -/
theorem clear (h : Pooled s live z lost) :
    ∃ m z', s.ctrl.rbtreeClear = some m ∧ Pooled ⟨m, []⟩ .nil z' lost := by
  cases hlive : live with
  | nil =>
    subst hlive
    have hinserted : s.inserted = [] := List.perm_nil.mp h.valid.perm.symm
    refine ⟨s.ctrl, z, rbtreeClear_nil h.valid.holds, ?_⟩
    rw [← hinserted]
    exact h
  | node c l x r =>
    have hne : live ≠ .nil := hlive ▸ nofun
    obtain ⟨m, hclear, hm, hval⟩ := rbtreeClear_cons h.valid.holds hne h.hangsAt_hole
    obtain ⟨z', hz'⟩ : ∃ z', cleared (hole z) live = some z' := by
      rw [hlive]
      exact Cursor.exists_settle _ nofun
    have hgone : (hole z).LeftGone := by
      cases z with
      | none => exact trivial
      | some c' => exact (h.settled c' rfl).leftGone
    have htree : z'.tree = (hole z).plug live ∧ z'.Settled := by
      rw [hlive] at hz' ⊢
      exact ⟨(Cursor.tree_settle hz').trans Cursor.tree_leftmost,
        Cursor.settled_settle (Cursor.leftGone_leftmost hgone) hz'⟩
    have hmem : ∀ a, a ∈ z'.tree.toList ↔ a ∈ live.toList ∨ a ∈ (treeOf z).toList := by
      intro a
      rw [htree.1, (perm_hole z live).mem_iff, List.mem_append]
    refine ⟨m, some z', hclear, ⟨⟨?_, ⟨rfl, 0, .nil⟩, List.Pairwise.nil, .refl _,
      hm.count h.valid.count⟩, ?_, ?_, ?_, ?_⟩⟩
    · show Holds m .nil z'.tree
      rw [htree.1]
      exact hm.holds
    · rintro c' ⟨⟩
      exact hval _ hz'
    · rintro c' ⟨⟩
      exact htree.2
    · intro a ha hlt
      have hcase := h.all a ha (hm.next ▸ hlt)
      have hpool : a ∈ (treeOf (some z')).toList ↔ _ := hmem a
      rw [hpool]
      grind
    · intro a ha
      obtain ⟨hbound, hlive, hpool⟩ := h.lost a ha
      have hpool' : a ∈ (treeOf (some z')).toList ↔ _ := hmem a
      rw [hpool']
      exact ⟨hm.next ▸ hbound, by simp, not_or.mpr ⟨hlive, hpool⟩⟩

/-- A call loses nodes exactly if it hands out one with something on its right. -/
theorem step (h : Pooled s live z lost) (op : Op) :
    ∃ s' live' z' lost', s.step op = some s' ∧ Pooled s' live' z' lost' ∧
      (lost' = [] ↔ lost = [] ∧ (op ≠ .clear → s.ctrl.poolPtr ≠ 0 →
        (s.ctrl.nodes s.ctrl.poolPtr).right = 0)) := by
  cases op with
  | insert key data reuseData =>
    cases z with
    | none =>
      obtain ⟨m, live', hinsert, hm, -⟩ := h.insert_none key data reuseData
      refine ⟨_, live', none, lost, ?_, hm, ?_⟩
      · simp only [History.step, hinsert, Option.bind_eq_bind, Option.bind_some]
      · simp [h.ptr_eq_zero_iff.mpr rfl]
    | some c =>
      obtain ⟨m, live', hinsert, hm, -⟩ := h.insert_some key data reuseData
      refine ⟨_, live', c.advance, lost ++ c.right.toList, ?_, hm, ?_⟩
      · simp only [History.step, hinsert, Option.bind_eq_bind, Option.bind_some]
      · have hptr : s.ctrl.poolPtr ≠ 0 := by simp [h.ptr_eq_zero_iff]
        have hright : c.right.toList = [] ↔ c.right = .nil := by cases c.right <;> simp
        rw [List.append_eq_nil_iff, h.right_eq_zero_iff, hright]
        simp [hptr]
  | clear =>
    obtain ⟨m, z', hclear, hm⟩ := h.clear
    refine ⟨_, .nil, z', lost, ?_, hm, by simp⟩
    simp only [History.step, hclear, Option.bind_eq_bind, Option.bind_some]

/-- A run loses nodes exactly if it is not careful. -/
theorem run (h : Pooled s live z lost) (ops : List Op) :
    ∃ s' live' z' lost', s.run ops = some s' ∧ Pooled s' live' z' lost' ∧
      (lost' = [] ↔ lost = [] ∧ Careful s ops) := by
  induction ops generalizing s live z lost with
  | nil => exact ⟨s, live, z, lost, rfl, h, by simp [Careful]⟩
  | cons op ops ih =>
    obtain ⟨s₁, live₁, z₁, lost₁, hstep, h₁, hlost₁⟩ := h.step op
    obtain ⟨s', live', z', lost', hrun, h', hlost'⟩ := ih h₁
    refine ⟨s', live', z', lost', by rw [History.run, hstep, Option.bind_some, hrun], h', ?_⟩
    have hrest : Careful s₁ ops ↔ ∀ s', s.step op = some s' → Careful s' ops := by
      constructor
      · intro hcareful s₂ hs₂
        exact Option.some.inj (hstep.symm.trans hs₂) ▸ hcareful
      · exact fun hcareful => hcareful s₁ hstep
    rw [hlost', hlost₁, hrest, Careful, and_assoc]

/-- A node that is not in the pool, or left over there, stays so as long as nodes are
inserted. -/
theorem run_inserts {ops : List Op} (h : Pooled s live z lost)
    (hops : ∀ op ∈ ops, op ≠ .clear) (hrun : s.run ops = some s')
    (ha : a ∈ (treeOf z).toList → a ∈ leftoverOf z) :
    ∃ live' z' lost', Pooled s' live' z' lost' ∧
      (a ∈ (treeOf z').toList → a ∈ leftoverOf z') := by
  induction ops generalizing s live z lost with
  | nil => exact ⟨live, z, lost, Option.some.inj hrun ▸ h, ha⟩
  | cons op ops ih =>
    have hrest : ∀ op ∈ ops, op ≠ .clear := fun op hop => hops op (List.mem_cons_of_mem _ hop)
    cases op with
    | clear => exact absurd rfl (hops .clear List.mem_cons_self)
    | insert key data reuseData =>
      cases z with
      | none =>
        obtain ⟨m, live', hinsert, hm, -⟩ := h.insert_none key data reuseData
        refine ih hm hrest ?_ ha
        simpa only [History.run, History.step, hinsert, Option.bind_eq_bind, Option.bind_some]
          using hrun
      | some c =>
        obtain ⟨m, live', hinsert, hm, hinserted, -⟩ := h.insert_some key data reuseData
        refine ih hm hrest ?_ fun hin => ?_
        · simpa only [History.run, History.step, hinsert, Option.bind_eq_bind, Option.bind_some]
            using hrun
        · have hleft := ha (hinserted.pool hin)
          rw [hinserted.leftover, List.mem_append] at hleft
          exact hleft.resolve_left fun hhang =>
            (hm.lost a (List.mem_append_right _ hhang)).2.2 hin

/-- Only nodes of the pool that are not left over are handed out. -/
theorem of_handedOut (h : Pooled s live z lost) (ha : HandedOut s a) :
    a ∈ (treeOf z).toList ∧ a ∉ leftoverOf z := by
  by_contra hnot
  obtain ⟨ops, s', key, data, reuseData, m, hops, hrun, hptr, hinsert⟩ := ha
  have hkeeps : a ∈ (treeOf z).toList → a ∈ leftoverOf z := by tauto
  obtain ⟨live', z', lost', h', hkeeps'⟩ := h.run_inserts hops hrun hkeeps
  cases z' with
  | none => exact hptr (h'.ptr_eq_zero_iff.mpr rfl)
  | some c =>
    obtain ⟨m', live'', hinsert', -⟩ := h'.insert_some key data reuseData
    obtain rfl : c.val = a := congrArg Prod.fst (Option.some.inj (hinsert'.symm.trans hinsert))
    exact Cursor.val_notMem_leftover h'.valid.holds.pool_nodup (hkeeps' c.val_mem)

/-- A node that is handed out after one more insertion is handed out. -/
theorem handedOut_cons {key : Int} {data new : Nat} {reuseData : Bool} {m : RBTreeCtrl}
    (hinsert : s.ctrl.rbtreeInsert key data reuseData = some (new, m))
    (ha : HandedOut ⟨m, (new, key) :: s.inserted⟩ a) : HandedOut s a := by
  obtain ⟨ops, s', key', data', reuseData', m', hops, hrun, hrest⟩ := ha
  refine ⟨.insert key data reuseData :: ops, s', key', data', reuseData', m', ?_, ?_, hrest⟩
  · intro op hop
    rcases List.mem_cons.mp hop with rfl | hop
    · nofun
    · exact hops op hop
  · simpa only [History.run, History.step, hinsert, Option.bind_eq_bind, Option.bind_some]
      using hrun

/-- If nothing is left over, all nodes of the pool are handed out. -/
theorem handedOut (h : Pooled s live z lost) (hleft : leftoverOf z = [])
    (ha : a ∈ (treeOf z).toList) : HandedOut s a := by
  obtain ⟨n, hn⟩ : ∃ n, (treeOf z).toList.length ≤ n := ⟨_, Nat.le_refl _⟩
  induction n generalizing s live z lost with
  | zero =>
    rw [List.length_eq_zero_iff.mp (Nat.le_zero.mp hn)] at ha
    cases ha
  | succ n ih =>
    cases z with
    | none => cases ha
    | some c =>
      obtain ⟨m, live', hinsert, hm, hinserted, -⟩ := h.insert_some 0 0 false
      by_cases hval : a = c.val
      · refine ⟨[], s, 0, 0, false, m, by simp, rfl, ?_, hval ▸ hinsert⟩
        exact fun hzero => nomatch h.ptr_eq_zero_iff.mp hzero
      · have hsettled := h.settled c rfl
        have hparts := hinserted.leftover
        rw [hleft] at hparts
        obtain ⟨hhanging, hleft'⟩ := List.append_eq_nil_iff.mp hparts.symm
        have hin : a ∈ (treeOf c.advance).toList := by
          have hcase := (Cursor.perm_rest hsettled).subset ha
          have hnil : c.right.toList = [] := hhanging
          rw [hnil, List.nil_append, List.mem_cons] at hcase
          rw [treeOf_advance hsettled]
          exact hcase.resolve_left hval
        have hlength := hinserted.length nofun
        exact handedOut_cons hinsert (ih hm hleft' hin (by omega))

/-- In a state nothing is lost exactly if nothing was lost before and nothing is left over. -/
theorem losesNothing_iff (h : Pooled s live z lost) :
    LosesNothing s live ↔ lost = [] ∧ leftoverOf z = [] := by
  constructor
  · intro hnothing
    refine ⟨List.eq_nil_iff_forall_not_mem.mpr fun a ha => ?_,
      List.eq_nil_iff_forall_not_mem.mpr fun a ha => ?_⟩
    · obtain ⟨hbound, hlive, hpool⟩ := h.lost a ha
      rcases (hnothing.union a).mp hbound with hin | hout
      · exact hlive hin
      · exact hpool (h.of_handedOut hout).1
    · have hin : a ∈ (treeOf z).toList := by
        cases z with
        | none => cases ha
        | some c =>
          show a ∈ c.tree.toList
          rw [Cursor.toList_tree]
          rcases List.mem_append.mp ha with ha | ha
          · simp [ha]
          · simp [c.ctx.leftover_subset ha]
      have hzero : a ≠ 0 := fun heq => h.valid.holds.atPool.zero_notMem (heq ▸ hin)
      have hlt := h.valid.holds.bound a (List.mem_append_right _ hin)
      rcases (hnothing.union a).mp ⟨hzero, hlt⟩ with hlive | hout
      · exact h.valid.holds.apart hlive hin
      · exact (h.of_handedOut hout).2 ha
  · rintro ⟨rfl, hleft⟩
    have hall : ∀ a, a ≠ 0 → a < s.ctrl.next → a ∈ live.toList ∨ a ∈ (treeOf z).toList := by
      intro a ha hlt
      have hcase := h.all a ha hlt
      simpa using hcase
    refine ⟨fun a => ⟨fun ha => ?_, fun ha => ?_⟩, fun a ha hout => ?_, ?_⟩
    · exact (hall a ha.1 ha.2).imp_right fun hin => h.handedOut hleft hin
    · have hin : a ∈ live.toList ++ (treeOf z).toList := by
        rcases ha with hlive | hout
        · exact List.mem_append_left _ hlive
        · exact List.mem_append_right _ (h.of_handedOut hout).1
      refine ⟨fun heq => ?_, h.valid.holds.bound a hin⟩
      rcases List.mem_append.mp hin with hin | hin
      · exact h.valid.holds.atRoot.zero_notMem (heq ▸ hin)
      · exact h.valid.holds.atPool.zero_notMem (heq ▸ hin)
    · exact h.valid.holds.apart ha (h.of_handedOut hout).1
    · intro key data reuseData new m hinsert hnext a ha hlt
      cases z with
      | none => simpa [treeOf] using hall a ha hlt
      | some c =>
        obtain ⟨m', live', hinsert', -, -, hsame⟩ := h.insert_some key data reuseData
        obtain rfl : m' = m := congrArg Prod.snd (Option.some.inj (hinsert'.symm.trans hinsert))
        exact absurd hsame hnext

end Pooled

/-- The pool of an `RBTreeCtrl` with its pointer as a tree with a cursor. -/
def PoolAt (m : RBTreeCtrl) (z : Option (Cursor Nat)) : Prop :=
  At m.nodes (treeOf z) m.poolRoot 0 ∧ m.poolPtr = z.elim 0 Cursor.val

/-- After any calls nothing is lost exactly if every insertion found nothing on the right of
the node it took from the pool, and neither the node at the pool pointer nor a left child that
is still to be entered has a right child without a left one. -/
theorem run_losesNothing_iff (ops : List Op) :
    ∃ s live z, History.run {} ops = some s ∧ At s.ctrl.nodes live s.ctrl.root 0 ∧
      PoolAt s.ctrl z ∧
      (LosesNothing s live ↔ Careful {} ops ∧ ∀ c, z = some c → c.Unstranded) := by
  obtain ⟨s, live, z, lost, hrun, h, hlost⟩ := pooled_init.run ops
  refine ⟨s, live, z, hrun, h.valid.holds.atRoot, ⟨h.valid.holds.atPool, ?_⟩, ?_⟩
  · cases z with
    | none => exact h.ptr_eq_zero_iff.mpr rfl
    | some c => exact (h.ptr c rfl).symm
  · have hleft : leftoverOf z = [] ↔ ∀ c, z = some c → c.Unstranded := by
      cases z with
      | none => simp [leftoverOf]
      | some c =>
        have hc := Cursor.leftover_eq_nil_iff c
        simpa [leftoverOf] using hc
    rw [h.losesNothing_iff, hlost, hleft]
    simp

/-- Six nodes are cleared, and the sixth insertion from then on allocates, although one of
the six is neither in the tree nor handed out. -/
theorem right_child_lost :
    ∃ s live, History.run {} ([10, 5, 20, 25, 15, 17].map (fun key => .insert key 0 false) ++
        .clear :: [1, 2, 3, 4, 5].map fun key => .insert key 0 false) = some s ∧
      At s.ctrl.nodes live s.ctrl.root 0 ∧ ¬ LosesNothing s live := by
  obtain ⟨s, live, pool, hrun, h⟩ := valid_init.run
    ([10, 5, 20, 25, 15, 17].map (fun key => .insert key 0 false) ++
      .clear :: [1, 2, 3, 4, 5].map fun key => .insert key 0 false)
  refine ⟨s, live, hrun, h.holds.atRoot, fun hnothing => ?_⟩
  have hstate : ((History.run {} ([10, 5, 20, 25, 15, 17].map (fun key => .insert key 0 false) ++
      .clear :: [1, 2, 3, 4, 5].map fun key => .insert key 0 false)).map fun s =>
        (s.inserted.map Prod.fst, s.ctrl.next,
          (s.ctrl.rbtreeInsert 6 0 false).map fun r => (r.1, r.2.next))) =
      some ([1, 3, 4, 5, 2], 7, some (7, 8)) := by decide +kernel
  rw [hrun, Option.map_some, Option.some.injEq, Prod.mk.injEq, Prod.mk.injEq] at hstate
  obtain ⟨hinserted, hnext, hinsert⟩ := hstate
  obtain ⟨⟨new, m⟩, hinsert, hm⟩ := Option.map_eq_some_iff.mp hinsert
  have hmnext : m.next = 8 := congrArg Prod.snd hm
  have hlive := hnothing.fresh 6 0 false new m hinsert (by omega) 6 (by omega) (by omega)
  have hin : 6 ∈ s.inserted.map Prod.fst := by
    refine List.mem_map.mpr ⟨(6, (s.ctrl.nodes 6).key), h.perm.subset ?_, rfl⟩
    exact List.mem_map.mpr ⟨6, hlive, rfl⟩
  rw [hinserted] at hin
  simp at hin

end Rbtree

end Recognizer
