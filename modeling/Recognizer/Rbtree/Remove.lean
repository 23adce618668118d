import Recognizer.Rbtree.History

/-!
# Removal

`rbtree_remove` rearranges links and colours and never touches the counter, while
`rbtree_insert` counts up. So no removal leaves the tree with the counter it should have.
-/

namespace Recognizer

namespace Rbtree

open RedBlack (Color RbTree)

variable {m m' : RBTreeCtrl} {a t u v tmp root fuel : Nat} {f : Node → Node} {near far : Node → Nat}

section Count

theorem count_setAt (h : m.setAt a f = some m') : m'.count = m.count := by
  rw [RBTreeCtrl.setAt] at h
  split at h
  · cases h
  · rw [← Option.some.inj h, set_count]

theorem count_adopt (m : RBTreeCtrl) (a t : Nat) : (m.adopt a t).count = m.count := by
  rw [RBTreeCtrl.adopt]
  split
  · rw [set_count]
  · rfl

theorem count_leftRotate (h : m.leftRotate t = some m') : m'.count = m.count := by
  rw [RBTreeCtrl.leftRotate] at h
  split at h
  · rw [← Option.some.inj h]
  · simp only at h
    split at h
    · cases h
    · rw [← Option.some.inj h, set_count, set_count, RBTreeCtrl.replaceLeft]
      split_ifs
      · rw [set_count, count_adopt, set_count]
      · rw [set_count, count_adopt, set_count]
      · show ((m.set t _).adopt _ t).count = m.count
        rw [count_adopt, set_count]

theorem count_rightRotate (h : m.rightRotate t = some m') : m'.count = m.count := by
  rw [RBTreeCtrl.rightRotate] at h
  split at h
  · rw [← Option.some.inj h]
  · simp only at h
    split at h
    · cases h
    · rw [← Option.some.inj h, set_count, set_count, RBTreeCtrl.replaceRight]
      split_ifs
      · rw [set_count, count_adopt, set_count]
      · rw [set_count, count_adopt, set_count]
      · show ((m.set t _).adopt _ t).count = m.count
        rw [count_adopt, set_count]

theorem count_rbtreeTransplant (m : RBTreeCtrl) (u v : Nat) :
    (m.rbtreeTransplant u v).count = m.count := by
  rw [RBTreeCtrl.rbtreeTransplant, count_adopt]
  split_ifs
  · rfl
  · rfl
  · rw [set_count]
  · rw [set_count]

theorem count_turnSibling (h : m.turnSibling far t tmp = some (a, m')) : m'.count = m.count := by
  simp only [RBTreeCtrl.turnSibling, Option.bind_eq_bind, Option.bind_eq_some_iff] at h
  obtain ⟨m₁, hm₁, m₂, hm₂, m₃, hm₃, h⟩ := h
  split at h
  · cases h
  · obtain ⟨-, rfl⟩ := Prod.mk.inj (Option.some.inj h)
    rw [count_leftRotate hm₃, count_setAt hm₂,
      count_setAt hm₁]

theorem count_turnTwice (h : m.turnTwice near far t tmp = some (a, m')) :
    m'.count = m.count := by
  simp only [RBTreeCtrl.turnTwice, Option.bind_eq_bind, Option.bind_eq_some_iff] at h
  obtain ⟨m₁, hm₁, m₂, hm₂, m₃, hm₃, h⟩ := h
  split at h
  · cases h
  · simp only [Option.bind_eq_some_iff] at h
    obtain ⟨m₄, hm₄, m₅, hm₅, m₆, hm₆, m₇, hm₇, h⟩ := h
    obtain ⟨-, rfl⟩ := Prod.mk.inj (Option.some.inj h)
    rw [count_leftRotate hm₇, count_setAt hm₆,
      count_setAt hm₅, count_setAt hm₄, count_rightRotate hm₃, count_setAt hm₂, count_setAt hm₁]

/-- A branch of the repair keeps the counter. -/
theorem count_removeFixupBranch (h : m.removeFixupBranch near far t = some (a, m')) :
    m'.count = m.count := by
  simp only [RBTreeCtrl.removeFixupBranch, Option.bind_eq_bind, Option.bind_eq_some_iff] at h
  obtain ⟨color, -, ⟨tmp, m₁⟩, hsibling, nearColor, -, farColor, -, h⟩ := h
  have hfirst : m₁.count = m.count := by
    split at hsibling
    · exact count_turnSibling hsibling
    · obtain ⟨-, rfl⟩ := Prod.mk.inj (Option.some.inj hsibling)
      rfl
  split at h
  · obtain ⟨-, rfl⟩ := Prod.mk.inj (Option.some.inj h)
    rw [set_count, hfirst]
  split at h
  · rw [count_turnTwice h, hfirst]
  · obtain ⟨-, rfl⟩ := Prod.mk.inj (Option.some.inj h)
    rw [hfirst]

theorem count_removeFixupPass (h : m.removeFixupPass t = some (a, m')) :
    m'.count = m.count := by
  simp only [RBTreeCtrl.removeFixupPass] at h
  split_ifs at h
  · exact count_removeFixupBranch h
  · exact count_removeFixupBranch h

/-- The repair keeps the counter, however long it takes. -/
theorem count_removeFixupLoop (h : RBTreeCtrl.removeFixupLoop root fuel t m = some m') :
    m'.count = m.count := by
  induction fuel generalizing t m with
  | zero => cases h
  | succ fuel ih =>
    rw [RBTreeCtrl.removeFixupLoop] at h
    split at h
    · rw [Option.some.inj h]
    simp only [Option.bind_eq_bind, Option.bind_eq_some_iff] at h
    obtain ⟨color, -, h⟩ := h
    split at h
    · simp only [Option.bind_eq_some_iff] at h
      obtain ⟨⟨t', m₁⟩, hpass, hloop⟩ := h
      rw [ih hloop, count_removeFixupPass hpass]
    · rw [Option.some.inj h]

theorem count_replaceNode (h : m.replaceNode t tmp = some m') : m'.count = m.count := by
  simp only [RBTreeCtrl.replaceNode, Option.bind_eq_bind, Option.bind_eq_some_iff] at h
  obtain ⟨m₁, hcut, m₂, hm₂, hend⟩ := h
  have hfirst : m₁.count = m.count := by
    rw [RBTreeCtrl.cutSuccessor] at hcut
    split at hcut
    · rw [← Option.some.inj hcut, count_adopt]
    · rw [count_setAt hcut, set_count, count_rbtreeTransplant]
  rw [← Option.some.inj hend, set_count, count_setAt hm₂, set_count, count_rbtreeTransplant, hfirst]

/-- A removal keeps the counter. -/
theorem count_rbtreeRemove (h : m.rbtreeRemove fuel t = some m') : m'.count = m.count := by
  rw [RBTreeCtrl.rbtreeRemove] at h
  split at h
  · rw [Option.some.inj h]
  simp only [Option.bind_eq_bind, Option.bind_eq_some_iff] at h
  obtain ⟨⟨tmp2, origColor, m₁⟩, hunlink, hlast⟩ := h
  have hfirst : m₁.count = m.count := by
    simp only [RBTreeCtrl.unlinkNode] at hunlink
    split_ifs at hunlink
    · obtain ⟨-, -, rfl⟩ : _ ∧ _ ∧ _ := by simpa using hunlink
      rw [count_rbtreeTransplant]
    · obtain ⟨-, -, rfl⟩ : _ ∧ _ ∧ _ := by simpa using hunlink
      rw [count_rbtreeTransplant]
    · simp only [Option.bind_eq_bind, Option.bind_eq_some_iff] at hunlink
      obtain ⟨tmp, -, m₂, hm₂, hend⟩ := hunlink
      obtain ⟨-, -, rfl⟩ : _ ∧ _ ∧ _ := by simpa using hend
      rw [count_replaceNode hm₂]
  simp only at hlast
  split at hlast
  · rw [RBTreeCtrl.rbtreeRemoveFixup] at hlast
    split at hlast
    · rw [← Option.some.inj hlast, hfirst]
    · rw [count_removeFixupLoop hlast, hfirst]
  · rw [← Option.some.inj hlast, hfirst]

end Count

/-- What the removal of a node should do to a red-black tree. -/
def Removes (m : RBTreeCtrl) (live : RbTree Nat) (t : Nat) : Prop :=
  ∃ fuel m' live', m.rbtreeRemove fuel t = some m' ∧ At m'.nodes live' m'.root 0 ∧
    live'.toList = live.toList.erase t ∧ live'.isRed = false ∧ live'.NoRedRed ∧
    (∃ n, ∀ k ∈ live'.blackCounts, k = n) ∧ m'.rbtreeNodeCount = m.rbtreeNodeCount - 1

theorem not_removes (m : RBTreeCtrl) (live : RbTree Nat) (t : Nat) : ¬ Removes m live t := by
  rintro ⟨fuel, m', live', hremove, -, -, -, -, -, hcount⟩
  have hsame := count_rbtreeRemove hremove
  rw [RBTreeCtrl.rbtreeNodeCount, RBTreeCtrl.rbtreeNodeCount] at hcount
  omega

/-- In no tree that is reached is any node removed as it should be: whenever the removal
returns, the counter is what it was. -/
theorem rbtreeRemove_keeps_count (ops : List Op) :
    ∃ s live, History.run {} ops = some s ∧ At s.ctrl.nodes live s.ctrl.root 0 ∧
      ∀ t ∈ live.toList, ¬ Removes s.ctrl live t ∧
        ∀ fuel m', s.ctrl.rbtreeRemove fuel t = some m' →
          m'.rbtreeNodeCount = s.ctrl.rbtreeNodeCount := by
  obtain ⟨s, live, pool, hrun, h⟩ := valid_init.run ops
  exact ⟨s, live, hrun, h.holds.atRoot, fun t _ => ⟨not_removes s.ctrl live t, fun fuel m' hm' =>
    count_rbtreeRemove hm'⟩⟩

/-- The only node of a tree is removed, and the counter still says one. -/
theorem removed_node_counted :
    ∃ s live, History.run {} [.insert 5 0 false] = some s ∧
      At s.ctrl.nodes live s.ctrl.root 0 ∧ s.ctrl.root ∈ live.toList ∧
      ¬ Removes s.ctrl live s.ctrl.root ∧
      (s.ctrl.rbtreeRemove 1 s.ctrl.root).map (fun m' => (m'.root, m'.rbtreeNodeCount)) =
        some (0, 1) := by
  refine ⟨_, .node .black .nil 1 .nil, rfl, ⟨rfl, ?_, rfl, rfl, rfl, rfl⟩, ?_, not_removes _ _ _, ?_⟩
  · decide
  · decide
  · decide

end Rbtree

end Recognizer
