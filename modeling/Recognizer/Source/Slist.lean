import Recognizer.Source.Misc

/-!
# The list module, `slist.c`

Lists and items live at addresses, `0` is `NULL`. An operation that would read or
write through `NULL`, or walk a cycle for ever, returns `none`. Memory that is
allocated is fresh.
-/

namespace Recognizer

namespace Slist

/-- `ListItem`. -/
structure ListItem where
  next : Nat := 0
  data : Nat := 0
  deriving DecidableEq, Repr

/-- A `ListItem **`: the `head` member of a list or the `next` member of an item. -/
inductive Link where
  | head (list : Nat)
  | next (item : Nat)
  deriving DecidableEq, Repr

/-- `List`. -/
structure SList where
  size : Int := 0
  poolSize : Int := 0
  iterIdx : Int := 0
  iter : Link := .head 0
  head : Nat := 0
  pool : Nat := 0
  tail : Nat := 0
  deriving DecidableEq, Repr

/-- The memory of the module, with the next fresh addresses. -/
structure ListMem where
  items : Nat → ListItem := fun _ => {}
  lists : Nat → SList := fun _ => {}
  nextItem : Nat := 1
  nextList : Nat := 1

namespace ListMem

variable (m : ListMem)

/-- Write to members of a list. -/
def setList (l : Nat) (f : SList → SList) : ListMem :=
  { m with lists := Function.update m.lists l (f (m.lists l)) }

/-- Write to members of an item. -/
def setItem (a : Nat) (f : ListItem → ListItem) : ListMem :=
  { m with items := Function.update m.items a (f (m.items a)) }

/-- Read through a `ListItem **`. -/
def read : Link → Nat
  | .head l => (m.lists l).head
  | .next a => (m.items a).next

/-- Write through a `ListItem **`. -/
def write (v : Nat) : Link → ListMem
  | .head l => m.setList l fun x => { x with head := v }
  | .next a => m.setItem a fun x => { x with next := v }

/-- `release_to_pool`. -/
def releaseToPool (l item : Nat) : ListMem :=
  (m.setItem item fun _ => { next := (m.lists l).pool, data := 0 }).setList l fun x =>
    { x with pool := item, poolSize := x.poolSize + 1, size := x.size - 1 }

/-- `new_list_item` with `allocate_from_pool`. -/
def newListItem (l data : Nat) : Nat × ListMem :=
  if (m.lists l).poolSize > 0 then
    let item := (m.lists l).pool
    (item, (m.setList l fun x =>
      { x with pool := (m.items item).next, poolSize := x.poolSize - 1 }).setItem item
        fun _ => { next := 0, data := data })
  else
    (m.nextItem, { m with nextItem := m.nextItem + 1 }.setItem m.nextItem
      fun _ => { next := 0, data := data })

/-- `new_list`. -/
def newList : Nat × ListMem :=
  (m.nextList, { m with nextList := m.nextList + 1 }.setList m.nextList
    fun _ => { iterIdx := -1, iter := .head m.nextList })

/-- `list_append`. -/
def listAppend (l data : Nat) : Option ListMem :=
  if (m.lists l).head = 0 then
    let (item, m) := m.newListItem l data
    some (m.setList l fun x =>
      { x with head := item, tail := item, iter := .head l, size := x.size + 1 })
  else if (m.lists l).tail = 0 then none
  else
    let tail := (m.lists l).tail
    let (item, m) := m.newListItem l data
    some ((m.setItem tail fun x => { x with next := item }).setList l fun x =>
      { x with tail := item, size := x.size + 1 })

/-- `list_push`. -/
def listPush (l data : Nat) : ListMem :=
  let (item, m) := m.newListItem l data
  let m := m.setItem item fun x => { x with next := (m.lists l).head }
  let m := m.setList l fun x => { x with head := item }
  let m :=
    if (m.lists l).size = 0 then
      m.setList l fun x => { x with iter := .head l, tail := item, iterIdx := 0 }
    else m
  m.setList l fun x =>
    { x with iterIdx := if x.iterIdx ≥ 0 then x.iterIdx + 1 else x.iterIdx, size := x.size + 1 }

/-- `list_shift`; the first component is the result. -/
def listShift (l : Nat) : Nat × ListMem :=
  if (m.lists l).head = 0 then (0, m)
  else
    let oldHead := (m.lists l).head
    let m := m.setList l fun x =>
      { x with
        head := (m.items oldHead).next
        tail := if oldHead = x.tail then 0 else x.tail
        iterIdx := x.iterIdx - 1 }
    ((m.items oldHead).data, m.releaseToPool l oldHead)

/-- The loop of `list_insert_at`, which ends after `idx - 1` steps at the latest. -/
def walk : Nat → Link → Nat → Link × Nat
  | 0, itemPp, curIdx => (itemPp, curIdx)
  | n + 1, itemPp, curIdx =>
    if m.read itemPp ≠ 0 ∧ (m.items (m.read itemPp)).next ≠ 0 then
      walk n (.next (m.read itemPp)) (curIdx + 1)
    else (itemPp, curIdx)

/-- `list_insert_at`; the first component is the result. -/
def listInsertAt (l data : Nat) (idx : Int) : Int × ListMem :=
  if idx < 0 then (-1, m)
  else
    let (itemPp, curIdx) := m.walk (idx - 1).toNat (.head l) 0
    let (item, m) := m.newListItem l data
    let m := if idx ≥ (m.lists l).size then m.setList l fun x => { x with tail := item } else m
    let (curIdx, m) :=
      if idx = 0 then
        (curIdx, (m.setItem item fun x => { x with next := (m.lists l).head }).setList l
          fun x => { x with head := item })
      else if m.read itemPp ≠ 0 then
        let prev := m.read itemPp
        (curIdx + 1, (m.setItem item fun x => { x with next := (m.items prev).next }).setItem prev
          fun x => { x with next := item })
      else (curIdx, m.write item itemPp)
    ((curIdx : Int), m.setList l fun x => { x with size := x.size + 1 })

/-- The loop of `list_remove_at`, which keeps the item in front in `tmp_tail`. -/
def walkRemove : Nat → Nat → Link → Nat × Link
  | 0, tmpTail, itemPp => (tmpTail, itemPp)
  | n + 1, tmpTail, itemPp =>
    if m.read itemPp ≠ 0 ∧ (m.items (m.read itemPp)).next ≠ 0 then
      walkRemove n (m.read itemPp) (.next (m.read itemPp))
    else (tmpTail, itemPp)

/-- `list_remove_at`; the first component is the result. -/
def listRemoveAt (l : Nat) (idx : Int) : Option (Nat × ListMem) :=
  if idx < 0 ∨ idx ≥ (m.lists l).size then some (0, m)
  else
    let (tmpTail, itemPp) := m.walkRemove (idx - 1).toNat (m.lists l).head (.head l)
    if 0 < idx ∧ m.read itemPp = 0 then none
    else
      let itemPp := if 0 < idx then .next (m.read itemPp) else itemPp
      let removed := m.read itemPp
      if removed = 0 then none
      else
        let m := m.write (m.items removed).next itemPp
        let m := if removed = (m.lists l).tail then m.setList l fun x => { x with tail := tmpTail }
          else m
        let data := (m.items removed).data
        let m := if data = m.read (m.lists l).iter then m.setList l fun x => { x with iterIdx := -1 }
          else m
        some (data, m.releaseToPool l removed)

/-- The loop of `list_get_at`. -/
def nth : Nat → Nat → Nat × Nat
  | 0, iter => (0, iter)
  | n + 1, iter =>
    if (m.items iter).next ≠ 0 then
      let (steps, item) := nth n (m.items iter).next
      (steps + 1, item)
    else (0, iter)

/-- `list_get_at`. -/
def listGetAt (l : Nat) (idx : Int) : Option Nat :=
  if (m.lists l).head = 0 ∨ idx < 0 ∨ idx ≥ (m.lists l).size then some 0
  else if idx = 0 then some (m.items (m.lists l).head).data
  else if idx = (m.lists l).size - 1 then
    if (m.lists l).tail = 0 then none else some (m.items (m.lists l).tail).data
  else
    let (curIdx, iter) := m.nth idx.toNat (m.lists l).head
    some (if (curIdx : Int) = idx then (m.items iter).data else 0)

/-- `list_get_head`. -/
def listGetHead (l : Nat) : Nat :=
  if (m.lists l).head ≠ 0 then (m.items (m.lists l).head).data else 0

/-- `list_get_tail`. -/
def listGetTail (l : Nat) : Nat :=
  if (m.lists l).tail ≠ 0 then (m.items (m.lists l).tail).data else 0

/-- The loop of `list_clear` to the last item of a chain. -/
def lastItem : Nat → Nat → Option Nat
  | 0, _ => none
  | n + 1, dst =>
    if dst = 0 then none
    else if (m.items dst).next ≠ 0 then lastItem n (m.items dst).next
    else some dst

/-- `list_clear`; a chain without a cycle has at most as many items as were allocated. -/
def listClear (l : Nat) : Option ListMem :=
  let list := m.lists l
  if list.size = 0 then some m
  else do
    let m ←
      if list.poolSize = 0 then some (m.setList l fun x => { x with pool := list.head })
      else do
        let (start, src) :=
          if list.size < list.poolSize then (list.head, list.pool) else (list.pool, list.head)
        let dst ← m.lastItem m.nextItem start
        some ((m.setItem dst fun x => { x with next := src }).setList l
          fun x => { x with pool := start })
    some (m.setList l fun x =>
      { x with
        head := 0, tail := 0, iter := .head l, poolSize := x.poolSize + x.size, size := 0
        iterIdx := -1 })

/-- `list_transfer`. -/
def listTransfer (dst src : Nat) : Option ListMem :=
  if (m.lists src).head = 0 then some m
  else do
    let m ←
      if (m.lists dst).head = 0 then
        some (m.setList dst fun x =>
          { x with head := (m.lists src).head, tail := (m.lists src).tail })
      else if (m.lists dst).tail = 0 then none
      else
        some ((m.setItem (m.lists dst).tail fun x => { x with next := (m.lists src).head }).setList
          dst fun x => { x with tail := (m.lists src).tail })
    let m := m.setList dst fun x => { x with size := x.size + (m.lists src).size }
    let m := m.setList src fun x => { x with head := 0, tail := 0 }
    let m := m.write 0 (m.lists src).iter
    some (m.setList src fun x => { x with iterIdx := -1, size := 0 })

/-- The loop of `list_transfer_on_match`. The comparison may depend on how often
it was called; the first argument counts down. -/
def transferLoop (compare : Nat → Nat → Nat) (dst src : Nat) :
    Nat → Nat → Link → ListMem → Option ListMem
  | 0, _, _, _ => none
  | fuel + 1, calls, iter, m =>
    let item := m.read iter
    if item = 0 then some m
    else
      let res := compare calls (m.items item).data
      if res ≠ 0 then do
        let m ← m.listAppend dst res
        let m := m.write (m.items (m.read iter)).next iter
        transferLoop compare dst src fuel (calls + 1) iter
          (m.setList src fun x => { x with size := x.size - 1 })
      else transferLoop compare dst src fuel (calls + 1) (.next item) m

/-- What `list_transfer_on_match` does after its loop. -/
def transferEnd (src : Nat) : ListMem :=
  if (m.lists src).size = 0 then
    let m := m.setList src fun x => { x with head := 0, tail := 0 }
    let m := m.write 0 (m.lists src).iter
    m.setList src fun x => { x with iterIdx := -1 }
  else if (m.lists src).size = 1 then
    let m := m.setList src fun x => { x with tail := x.head }
    let m := m.write (m.lists src).head (m.lists src).iter
    m.setList src fun x => { x with iterIdx := 0 }
  else m

/-- `list_transfer_on_match` with a budget for its loop. -/
def listTransferOnMatch (fuel : Nat) (compare : Nat → Nat → Nat) (dst src : Nat) :
    Option ListMem :=
  (transferLoop compare dst src fuel 0 (.head src) m).map fun m => m.transferEnd src

/-- The loop of `list_chop`: the link behind `sz` items and the item it belongs to. -/
def chopLoop : Nat → Link → Nat → Option (Link × Nat)
  | 0, newHead, chopTail => some (newHead, chopTail)
  | n + 1, newHead, _ =>
    if m.read newHead = 0 then none
    else chopLoop n (.next (m.read newHead)) (m.read newHead)

/-- `list_chop`; the first component is the new list. -/
def listChop (l sz : Nat) : Option (Nat × ListMem) :=
  if (m.lists l).head = 0 ∨ sz < 1 then some (0, m)
  else
    let list := m.lists l
    let (chopped, m) := m.newList
    let m := m.setList chopped fun x => { x with head := list.head }
    if (sz : Int) ≥ list.size then
      let m := m.setList chopped fun x => { x with size := list.size, tail := list.tail }
      some (chopped, m.setList l fun x => { x with head := 0, tail := 0, size := 0 })
    else do
      let (newHead, chopTail) ← m.chopLoop sz (.head l) list.head
      let m := m.setList chopped fun x => { x with size := sz }
      let m := m.setList l fun x => { x with head := m.read newHead, size := x.size - sz }
      let m := m.setList chopped fun x => { x with tail := chopTail }
      some (chopped, m.write 0 newHead)

/-- The loop of `list_set_iterator`, which takes the iterator over so many items. -/
def advance : Nat → Link → Option Link
  | 0, iter => some iter
  | n + 1, iter => if m.read iter = 0 then none else advance n (.next (m.read iter))

/-- `list_set_iterator`; the first component is the result. The loop never comes to a
negative index. -/
def listSetIterator (l : Nat) (indx : Int) : Option (Int × ListMem) :=
  let list := m.lists l
  if list.head = 0 ∨ indx ≥ list.size then some (0, m)
  else if list.iterIdx = indx then some (1, m)
  else
    let (iter, iterIdx) :=
      if list.iterIdx > indx ∨ list.iterIdx < 0 then (.head l, 0) else (list.iter, list.iterIdx)
    if indx < iterIdx then none
    else
      (m.advance (indx - iterIdx).toNat iter).map fun iter =>
        (1, m.setList l fun x => { x with iter := iter, iterIdx := indx })

/-- `list_get_next`; the first component is the result. -/
def listGetNext (l : Nat) : Option (Nat × ListMem) :=
  let list := m.lists l
  if list.head = 0 ∨ list.iterIdx ≥ list.size ∨ list.iterIdx < 0 then some (0, m)
  else
    let ret := if list.iterIdx = 0 then list.head else m.read list.iter
    if ret = 0 then none
    else
      some ((m.items ret).data,
        m.setList l fun x => { x with iter := .next ret, iterIdx := x.iterIdx + 1 })

/-- The loop of `list_for_each`, whose body leaves it in the element after so many ones. -/
def forEachLoop (l : Nat) (finish : Int) : Nat → ListMem → Option (List Nat × ListMem)
  | n, m => do
    let (tmp, m) ← m.listGetNext l
    if tmp ≠ 0 ∧ (m.lists l).iterIdx ≤ finish then
      match n with
      | 0 => some ([tmp], m)
      | n + 1 => do
        let (visited, m) ← forEachLoop l finish n m
        some (tmp :: visited, m)
    else some ([], m)

/-- `list_for_each` with a body that leaves the loop in the element after `n` ones; the first
component is what it visits. -/
def listForEach (l : Nat) (start finish : Int) (n : Nat) : Option (List Nat × ListMem) := do
  let (_, m) ← m.listSetIterator l start
  forEachLoop l finish n m

end ListMem

end Slist

end Recognizer
