import Mathlib.Logic.Function.Basic

/-!
# The node allocator, `nfa_alloc.c`

Pool nodes and allocators live at addresses, `0` is `NULL`, and the elements of an array
follow each other. The address of a pool node stands for the node and for the `NFA` in it.
Memory that is allocated is fresh and zeroed.
-/

namespace Recognizer

namespace NfaAlloc

/-- `NFAPool`, without the `NFA` it holds. -/
structure NFAPool where
  free : Nat := 0
  next : Nat := 0
  prev : Nat := 0
  deriving DecidableEq, Repr

/-- `NFAlloc`. -/
structure NFAlloc where
  free : Nat := 0
  pool : Nat := 0
  next : Nat := 0
  prev : Nat := 0
  poolSize : Nat := 0
  deriving DecidableEq, Repr

/-- The memory of the allocator, with the next fresh addresses and the `alloc` member of the
`NFACtrl`. -/
structure PoolMem where
  nodes : Nat → NFAPool := fun _ => {}
  allocs : Nat → NFAlloc := fun _ => {}
  nextNode : Nat := 1
  nextAlloc : Nat := 1
  alloc : Nat := 0

namespace PoolMem

variable (m : PoolMem)

/-- Write to members of a pool node. -/
def setNode (a : Nat) (f : NFAPool → NFAPool) : PoolMem :=
  { m with nodes := Function.update m.nodes a (f (m.nodes a)) }

/-- Write to members of an allocator. -/
def setAlloc (a : Nat) (f : NFAlloc → NFAlloc) : PoolMem :=
  { m with allocs := Function.update m.allocs a (f (m.allocs a)) }

/-- `calloc` of an array of pool nodes. -/
def callocPool (num : Nat) : Nat × PoolMem :=
  (m.nextNode, { m with
    nodes := fun a => if m.nextNode ≤ a ∧ a < m.nextNode + num then {} else m.nodes a
    nextNode := m.nextNode + num })

/-- `calloc` of an array of allocators. -/
def callocAlloc (num : Nat) : Nat × PoolMem :=
  (m.nextAlloc, { m with
    allocs := fun a => if m.nextAlloc ≤ a ∧ a < m.nextAlloc + num then {} else m.allocs a
    nextAlloc := m.nextAlloc + num })

/-- The loops that link a node of a pool to the one before it and to the next address; the
first component is `prev` behind the loop. -/
def linkLoop : Nat → Nat → Nat → PoolMem → Nat × PoolMem
  | 0, _, prev, m => (prev, m)
  | n + 1, a, prev, m =>
    linkLoop n (a + 1) a (m.setNode a fun x => { x with free := 1, next := a + 1, prev := prev })

/-- `nfa_alloc_init`. -/
def nfaAllocInit (num : Nat) : PoolMem :=
  if num < 1 then m
  else
    let (alloc, m) := m.callocAlloc num
    let m := { m with alloc := alloc }
    let (pool, m) := m.callocPool num
    let m := m.setAlloc alloc fun x => { x with pool := pool, poolSize := num }
    let m := m.setNode pool fun x => { x with free := 1 }
    let m :=
      if num = 1 then m.setNode pool fun x => { x with free := 1, next := pool, prev := pool }
      else
        let m := m.setNode pool fun x =>
          { x with free := 1, next := pool + 1, prev := pool + (num - 1) }
        let (prev, m) := linkLoop (num - 2) (pool + 1) pool m
        m.setNode (pool + (num - 1)) fun x => { x with free := 1, next := pool, prev := prev }
    m.setAlloc alloc fun x => { x with free := pool, next := alloc, prev := alloc }

/-- `nfa_dealloc`. -/
def nfaDealloc (alloc nfa : Nat) : PoolMem :=
  if alloc = 0 ∨ nfa = 0 then m
  else
    let m := m.setNode nfa fun x => { x with free := 1 }
    let free := (m.allocs alloc).free
    if free = 0 then
      (m.setAlloc alloc fun x => { x with free := nfa }).setNode nfa fun x =>
        { x with next := nfa, prev := nfa }
    else
      let m := m.setNode nfa fun x => { x with prev := free, next := (m.nodes free).next }
      let m := m.setNode (m.nodes free).next fun x => { x with prev := nfa }
      m.setNode free fun x => { x with next := nfa }

/-- `nfa_alloc_expand`. -/
def nfaAllocExpand : PoolMem :=
  let old := m.alloc
  let size := (m.allocs old).poolSize
  let (newAlloc, m) := m.callocAlloc 1
  let m := m.setAlloc newAlloc fun x => { x with prev := old, next := (m.allocs old).next }
  let m := m.setAlloc (m.allocs old).next fun x => { x with prev := newAlloc }
  let m := m.setAlloc old fun x => { x with next := newAlloc }
  let m := { m with alloc := newAlloc }
  let (pool, m) := m.callocPool (2 * size)
  let m := m.setAlloc newAlloc fun x => { x with pool := pool }
  let m := m.setNode (pool + size) fun x => { x with free := 1 }
  let m :=
    if 2 * size - size = 1 then
      m.setNode (pool + size) fun x => { x with prev := pool + size, next := pool + size }
    else
      let m := m.setNode (pool + size) fun x =>
        { x with prev := pool + (2 * size - 1), next := pool + size + 1 }
      (linkLoop (2 * size - (size + 1)) (pool + size + 1) (pool + size) m).2
  m.setAlloc newAlloc fun x => { x with free := pool + size, poolSize := 2 * size }

/-- `nfa_alloc`; the first component is the result. -/
def nfaAlloc : Nat × PoolMem :=
  if m.alloc = 0 then (0, m)
  else
    let m := if (m.allocs m.alloc).free = 0 then m.nfaAllocExpand else m
    let free := (m.allocs m.alloc).free
    let m := m.setNode free fun x => { x with free := 0 }
    if (m.nodes free).prev = free then (free, m.setAlloc m.alloc fun x => { x with free := 0 })
    else
      let m := m.setNode (m.nodes free).next fun x => { x with prev := (m.nodes free).prev }
      let m := m.setNode (m.nodes free).prev fun x => { x with next := (m.nodes free).next }
      (free, m.setAlloc m.alloc fun x => { x with free := (m.nodes free).next })

end PoolMem

end NfaAlloc

end Recognizer
