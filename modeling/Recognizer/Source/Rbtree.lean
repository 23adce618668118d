import Recognizer.Core.RedBlack

/-!
# The red-black trees of `rbtree.c`

Nodes live at addresses, `0` is `NULL`; the state is that of one `RBTreeCtrl`. An
operation that would read or write through `NULL` returns `none`, and so does a loop
that takes more steps than there are nodes.
-/

namespace Recognizer

namespace Rbtree

open RedBlack (Color)

/-- `RBTree`; all nodes belong to the one `RBTreeCtrl`. -/
structure Node where
  key : Int := 0
  left : Nat := 0
  right : Nat := 0
  parent : Nat := 0
  data : Nat := 0
  color : Color := .red
  deriving DecidableEq, Repr

/-- `RBTreeCtrl` with the nodes and the next fresh address. -/
structure RBTreeCtrl where
  nodes : Nat → Node := fun _ => {}
  next : Nat := 1
  count : Int := 0
  root : Nat := 0
  poolRoot : Nat := 0
  poolPtr : Nat := 0

namespace RBTreeCtrl

variable (m : RBTreeCtrl)

/-- Write to members of a node. -/
def set (a : Nat) (f : Node → Node) : RBTreeCtrl :=
  { m with nodes := Function.update m.nodes a (f (m.nodes a)) }

/-- `rbtree_node_count`. -/
def rbtreeNodeCount : Int := m.count

/-- The loop of `rbtree_min`, also the second one of `reset_pool_ptr`. -/
def minLoop : Nat → Nat → Option Nat
  | 0, _ => none
  | n + 1, t =>
    if t ≠ 0 ∧ (m.nodes t).left ≠ 0 then minLoop n (m.nodes t).left else some t

/-- `rbtree_min`. -/
def rbtreeMin (t : Nat) : Option Nat := m.minLoop m.next t

/-- The loop of `rbtree_max`. -/
def maxLoop : Nat → Nat → Option Nat
  | 0, _ => none
  | n + 1, t =>
    if t ≠ 0 ∧ (m.nodes t).right ≠ 0 then maxLoop n (m.nodes t).right else some t

/-- `rbtree_max`. -/
def rbtreeMax (t : Nat) : Option Nat := m.maxLoop m.next t

/-- The first loop of `reset_pool_ptr`. -/
def skipLoop : Nat → Nat → Option Nat
  | 0, _ => none
  | n + 1, ptr =>
    if ptr ≠ 0 ∧ (m.nodes ptr).left = 0 then
      if (m.nodes ptr).right = 0 then some ptr else skipLoop n (m.nodes ptr).right
    else some ptr

/-- `reset_pool_ptr`; the result is the new value of the pointer. -/
def resetPoolPtr (ptr : Nat) : Option Nat :=
  (m.skipLoop m.next ptr).bind (m.minLoop m.next)

/-- The part of `rbtree_clear` that hangs the live tree into the pool. -/
def toPool : Option RBTreeCtrl :=
  if m.poolRoot = 0 then some { m with poolRoot := m.root }
  else if m.poolPtr = 0 then none
  else
    let m' := m.set m.poolPtr fun x => { x with left := m.root }
    some (m'.set m.root fun x => { x with parent := m.poolPtr })

/-- `rbtree_clear`. -/
def rbtreeClear : Option RBTreeCtrl :=
  if m.root = 0 then some m
  else do
    let m ← m.toPool
    let ptr ← m.rbtreeMin m.root
    let ptr ← m.resetPoolPtr ptr
    some { m with poolPtr := ptr, count := 0, root := 0 }

/-- The part of `new_rbtree_node` that takes a node out of the pool or allocates one. -/
def takeNode : Option (Nat × RBTreeCtrl) :=
  let tn := m.poolPtr
  if tn ≠ 0 then
    if (m.nodes tn).parent = 0 then
      let m := { m with poolPtr := (m.nodes tn).right, poolRoot := (m.nodes tn).right }
      if m.poolPtr ≠ 0 then do
        let m := m.set m.poolPtr fun x => { x with parent := 0 }
        let ptr ← m.resetPoolPtr m.poolPtr
        some (tn, { m with poolPtr := ptr })
      else some (tn, m)
    else
      let parent := (m.nodes tn).parent
      if tn = (m.nodes parent).left then
        let m := m.set parent fun x => { x with left := 0 }
        let m := { m with poolPtr := parent }
        if (m.nodes parent).right ≠ 0 then do
          let ptr ← m.resetPoolPtr (m.nodes parent).right
          some (tn, { m with poolPtr := ptr })
        else some (tn, m)
      else
        let m := m.set parent fun x => { x with right := 0 }
        some (tn, { m with poolPtr := parent })
  else
    some (m.next, { m with next := m.next + 1, nodes := Function.update m.nodes m.next {} })

/-- `new_rbtree_node`. -/
def newRbtreeNode (key : Int) (data : Nat) (reuseData : Bool) : Option (Nat × RBTreeCtrl) := do
  let (tn, m) ← m.takeNode
  some (tn, m.set tn fun x =>
    { x with
      data := if reuseData then x.data else data
      key := key, left := 0, right := 0, parent := 0 })

/-- The loop of `rbtree_search`. -/
def searchLoop (key : Int) : Nat → Nat → Option Nat
  | 0, _ => none
  | n + 1, t =>
    if t ≠ 0 ∧ (m.nodes t).key ≠ key then
      if key < (m.nodes t).key then searchLoop key n (m.nodes t).left
      else searchLoop key n (m.nodes t).right
    else some t

/-- `rbtree_search`. -/
def rbtreeSearch (t : Nat) (key : Int) : Option Nat := m.searchLoop key m.next t

/-- `if(a != NULL) { a->parent = t; }` -/
def adopt (a t : Nat) : RBTreeCtrl :=
  if a ≠ 0 then m.set a fun x => { x with parent := t } else m

/-- The part of `left_rotate` that puts `tmp` where `t` was. -/
def replaceLeft (t tmp : Nat) : RBTreeCtrl :=
  let parent := (m.nodes t).parent
  if parent ≠ 0 then
    if t = (m.nodes parent).left then m.set parent fun x => { x with left := tmp }
    else m.set parent fun x => { x with right := tmp }
  else { m with root := tmp }

/-- The part of `right_rotate` that puts `tmp` where `t` was. -/
def replaceRight (t tmp : Nat) : RBTreeCtrl :=
  let parent := (m.nodes t).parent
  if parent ≠ 0 then
    if t = (m.nodes parent).right then m.set parent fun x => { x with right := tmp }
    else m.set parent fun x => { x with left := tmp }
  else { m with root := tmp }

/-- `left_rotate`. -/
def leftRotate (t : Nat) : Option RBTreeCtrl :=
  if t = 0 then some m
  else
    let tmp := (m.nodes t).right
    if tmp = 0 then none
    else
      let m := m.set t fun x => { x with right := (m.nodes tmp).left }
      let m := m.adopt (m.nodes tmp).left t
      let m := m.replaceLeft t tmp
      let m := m.set tmp fun x => { x with parent := (m.nodes t).parent, left := t }
      some (m.set t fun x => { x with parent := tmp })

/-- `right_rotate`. -/
def rightRotate (t : Nat) : Option RBTreeCtrl :=
  if t = 0 then some m
  else
    let tmp := (m.nodes t).left
    if tmp = 0 then none
    else
      let m := m.set t fun x => { x with left := (m.nodes tmp).right }
      let m := m.adopt (m.nodes tmp).right t
      let m := m.replaceRight t tmp
      let m := m.set tmp fun x => { x with parent := (m.nodes t).parent, right := t }
      some (m.set t fun x => { x with parent := tmp })

/-- `parent->color = BLACK; uncle->color = BLACK; gparent->color = RED`. -/
def recolor (parent uncle gparent : Nat) : RBTreeCtrl :=
  let m := m.set parent fun x => { x with color := .black }
  let m := m.set uncle fun x => { x with color := .black }
  m.set gparent fun x => { x with color := .red }

/-- The rotations of `rbtree_fixup` below a left child with a black uncle; the result is
`child` and `parent` behind them. -/
def rotateBelowLeft (child parent gparent : Nat) : Option (Nat × Nat × RBTreeCtrl) := do
  let (child, parent, gparent, m) ←
    if child = (m.nodes parent).right then do
      let m ← m.leftRotate parent
      let up := (m.nodes parent).parent
      some (parent, up, (m.nodes up).parent, m)
    else some (child, parent, gparent, m)
  let m := m.set parent fun x => { x with color := .black }
  let m := m.set gparent fun x => { x with color := .red }
  let m ← m.rightRotate gparent
  some (child, parent, m)

/-- The rotations of `rbtree_fixup` below a right child with a black uncle. -/
def rotateBelowRight (child parent gparent : Nat) : Option (Nat × Nat × RBTreeCtrl) := do
  let (child, parent, gparent, m) ←
    if child = (m.nodes parent).left then do
      let m ← m.rightRotate parent
      let up := (m.nodes parent).parent
      some (parent, up, (m.nodes up).parent, m)
    else some (child, parent, gparent, m)
  let m := m.set parent fun x => { x with color := .black }
  let m := m.set gparent fun x => { x with color := .red }
  let m ← m.leftRotate gparent
  some (child, parent, m)

/-- The loop of `rbtree_fixup`; the result is `child` and `parent` behind it. -/
def fixupLoop : Nat → Nat → Nat → RBTreeCtrl → Option (Nat × Nat × RBTreeCtrl)
  | 0, _, _, _ => none
  | fuel + 1, child, parent, m =>
    if parent ≠ 0 ∧ (m.nodes parent).color = .red then
      let gparent := (m.nodes parent).parent
      if gparent = 0 then none
      else if parent = (m.nodes gparent).left then
        let uncle := (m.nodes gparent).right
        if uncle ≠ 0 ∧ (m.nodes uncle).color = .red then
          let m := m.recolor parent uncle gparent
          fixupLoop fuel gparent (m.nodes gparent).parent m
        else do
          let (child, parent, m) ← m.rotateBelowLeft child parent gparent
          fixupLoop fuel child parent m
      else
        let uncle := (m.nodes gparent).left
        if uncle ≠ 0 ∧ (m.nodes uncle).color = .red then
          let m := m.recolor parent uncle gparent
          fixupLoop fuel gparent (m.nodes gparent).parent m
        else do
          let (child, parent, m) ← m.rotateBelowRight child parent gparent
          fixupLoop fuel child parent m
    else some (child, parent, m)

/-- The part of `rbtree_fixup` behind its loop. -/
def fixupEnd (child parent : Nat) : RBTreeCtrl :=
  if parent = 0 then
    { m with root := child }.set child fun x => { x with color := .black }
  else m

/-- `rbtree_fixup`. -/
def rbtreeFixup (t : Nat) : Option RBTreeCtrl := do
  let (child, parent, m) ← fixupLoop m.next t (m.nodes t).parent m
  some (m.fixupEnd child parent)

/-- The loop of `rbtree_insert`; the result is `prev`. -/
def walkDown (key : Int) : Nat → Nat → Nat → Option Nat
  | 0, _, _ => none
  | n + 1, walker, prev =>
    if walker ≠ 0 then
      if (m.nodes walker).key < key then walkDown key n (m.nodes walker).right walker
      else walkDown key n (m.nodes walker).left walker
    else some prev

/-- `rbtree_insert`; the first component is the new node. -/
def rbtreeInsert (key : Int) (data : Nat) (reuseData : Bool) : Option (Nat × RBTreeCtrl) := do
  let m := { m with count := m.count + 1 }
  let (new, m) ← m.newRbtreeNode key data reuseData
  let prev ← m.walkDown key m.next m.root 0
  let m := m.set new fun x => { x with parent := prev }
  if prev = 0 then
    some (new, { m with root := new }.set new fun x => { x with color := .black })
  else
    let m :=
      if (m.nodes prev).key < key then m.set prev fun x => { x with right := new }
      else m.set prev fun x => { x with left := new }
    let m := m.set new fun x => { x with color := .red }
    let m ← m.rbtreeFixup new
    some (new, m)

/-- Write to members of a node that may be `NULL`. -/
def setAt (a : Nat) (f : Node → Node) : Option RBTreeCtrl :=
  if a = 0 then none else some (m.set a f)

/-- The colour of a node that may be `NULL`. -/
def colorAt (a : Nat) : Option Color :=
  if a = 0 then none else some (m.nodes a).color

/-- `rbtree_transplant`. -/
def rbtreeTransplant (u v : Nat) : RBTreeCtrl :=
  let parent := (m.nodes u).parent
  let m :=
    if u = 0 then m
    else if parent = 0 then { m with root := v }
    else if u = (m.nodes parent).left then m.set parent fun x => { x with left := v }
    else m.set parent fun x => { x with right := v }
  m.adopt v (if u = 0 then 0 else parent)

/-- The part of `rbtree_remove_fixup` for a red sibling; `far` is the side the sibling is on,
and the result is the sibling behind it. -/
def turnSibling (far : Node → Nat) (t tmp : Nat) : Option (Nat × RBTreeCtrl) := do
  let m ← m.setAt tmp fun x => { x with color := .black }
  let m ← m.setAt (m.nodes t).parent fun x => { x with color := .red }
  let m ← m.leftRotate (m.nodes t).parent
  let tmp := far (m.nodes (m.nodes t).parent)
  if (m.nodes t).parent = 0 ∨ tmp = 0 then none else some (tmp, m)

/-- The part of `rbtree_remove_fixup` that rotates twice; the result is the next `t`. -/
def turnTwice (near far : Node → Nat) (t tmp : Nat) : Option (Nat × RBTreeCtrl) := do
  let m ← m.setAt (near (m.nodes tmp)) fun x => { x with color := .black }
  let m ← m.setAt tmp fun x => { x with color := .red }
  let m ← m.rightRotate tmp
  let parent := (m.nodes t).parent
  if parent = 0 then none
  else do
    let tmp := far (m.nodes parent)
    let m ← m.setAt tmp fun x => { x with color := (m.nodes parent).color }
    let m ← m.setAt parent fun x => { x with color := .black }
    let m ← m.setAt (far (m.nodes tmp)) fun x => { x with color := .black }
    let m ← m.leftRotate parent
    some (m.root, m)

/-- One branch of `rbtree_remove_fixup`; `near` is the side `t` is on and `far` the other one.
Both branches rotate the same way. The result is the next `t`. -/
def removeFixupBranch (near far : Node → Nat) (t : Nat) : Option (Nat × RBTreeCtrl) := do
  let tmp := far (m.nodes (m.nodes t).parent)
  let color ← m.colorAt tmp
  let sibling := if color = .red then m.turnSibling far t tmp else some (tmp, m)
  let (tmp, m) ← sibling
  let nearColor ← m.colorAt (near (m.nodes tmp))
  let farColor ← m.colorAt (far (m.nodes tmp))
  if nearColor = .red ∧ farColor = .black then
    some ((m.nodes t).parent, m.set tmp fun x => { x with color := .red })
  else if farColor = .black then m.turnTwice near far t tmp
  -- With two red children nothing changes, and the loop goes on with the same node.
  else some (t, m)

/-- One pass of the loop of `rbtree_remove_fixup`. -/
def removeFixupPass (t : Nat) : Option (Nat × RBTreeCtrl) :=
  let parent := (m.nodes t).parent
  if parent = 0 then none
  else if t = (m.nodes parent).left then m.removeFixupBranch Node.left Node.right t
  else m.removeFixupBranch Node.right Node.left t

/-- The loop of `rbtree_remove_fixup`; it has no bound. -/
def removeFixupLoop (root : Nat) : Nat → Nat → RBTreeCtrl → Option RBTreeCtrl
  | 0, _, _ => none
  | fuel + 1, t, m =>
    if t = root then some m
    else do
      let color ← m.colorAt t
      if color = .black then do
        let (t, m) ← m.removeFixupPass t
        removeFixupLoop root fuel t m
      else some m

/-- `rbtree_remove_fixup`. -/
def rbtreeRemoveFixup (fuel t : Nat) : Option RBTreeCtrl :=
  if t = 0 then some m else removeFixupLoop m.root fuel t m

/-- The part of `rbtree_remove` that cuts the successor `tmp` of `t` out of the tree. -/
def cutSuccessor (t tmp : Nat) : Option RBTreeCtrl :=
  if (m.nodes tmp).parent = t then some (m.adopt (m.nodes tmp).right tmp)
  else
    let m := m.rbtreeTransplant tmp (m.nodes tmp).right
    let m := m.set tmp fun x => { x with right := (m.nodes t).right }
    m.setAt (m.nodes t).right fun x => { x with parent := tmp }

/-- The part of `rbtree_remove` that puts the successor `tmp` of `t` in its place. -/
def replaceNode (t tmp : Nat) : Option RBTreeCtrl := do
  let m ← m.cutSuccessor t tmp
  let m := m.rbtreeTransplant t tmp
  let m := m.set tmp fun x => { x with left := (m.nodes t).left }
  let m ← m.setAt (m.nodes tmp).left fun x => { x with parent := tmp }
  some (m.set tmp fun x => { x with color := (m.nodes t).color })

/-- The part of `rbtree_remove` before the repair; the result is `tmp2` and `orig_color`. -/
def unlinkNode (t : Nat) : Option (Nat × Color × RBTreeCtrl) :=
  let left := (m.nodes t).left
  let right := (m.nodes t).right
  if left = 0 then some (right, (m.nodes t).color, m.rbtreeTransplant t right)
  else if right = 0 then some (left, (m.nodes t).color, m.rbtreeTransplant t left)
  else do
    let tmp ← m.rbtreeMin right
    let m' ← m.replaceNode t tmp
    some ((m.nodes tmp).right, (m.nodes tmp).color, m')

/-- `rbtree_remove`. -/
def rbtreeRemove (fuel t : Nat) : Option RBTreeCtrl :=
  if t = 0 then some m
  else do
    let (tmp2, origColor, m) ← m.unlinkNode t
    if origColor = .black then m.rbtreeRemoveFixup fuel tmp2 else some m

/-- The loop of `rbtree_successor`. -/
def climbRight : Nat → Nat → Nat → Option Nat
  | 0, _, _ => none
  | n + 1, t, ret =>
    if ret ≠ 0 ∧ t = (m.nodes ret).right then climbRight n ret (m.nodes ret).parent
    else some ret

/-- `rbtree_successor`. -/
def rbtreeSuccessor (t : Nat) : Option Nat :=
  if t = 0 then some 0
  else if (m.nodes t).right ≠ 0 then m.rbtreeMin (m.nodes t).right
  else m.climbRight m.next t (m.nodes t).parent

/-- The loop of `rbtree_predecessor`. -/
def climbLeft : Nat → Nat → Nat → Option Nat
  | 0, _, _ => none
  | n + 1, t, ret =>
    if ret ≠ 0 ∧ t ≠ (m.nodes ret).right then climbLeft n ret (m.nodes ret).parent
    else some ret

/-- `rbtree_predecessor`. -/
def rbtreePredecessor (t : Nat) : Option Nat :=
  if t = 0 then some 0
  else if (m.nodes t).left ≠ 0 then m.rbtreeMax (m.nodes t).left
  else
    let ret := (m.nodes t).parent
    if ret ≠ 0 ∧ t = (m.nodes ret).left then m.climbLeft m.next t ret else some ret

end RBTreeCtrl

end Rbtree

end Recognizer
