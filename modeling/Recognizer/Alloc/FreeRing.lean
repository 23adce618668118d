import Recognizer.Core.Ring
import Recognizer.Source.NfaAlloc
import Mathlib.Data.Finset.Basic

/-!
# The ring of free nodes

The `free` member of an allocator is `NULL` or leads to a ring of the nodes that may be handed
out. An expansion leaves a ring whose last node leads past the end of the pool; the node that
is handed out at once is cut out by links that repair it.
-/

namespace Recognizer

namespace NfaAlloc

namespace PoolMem

variable {m : PoolMem} {a b n p : Nat} {f : NFAPool → NFAPool} {g : NFAlloc → NFAlloc}

/-- The `next` members of the nodes. -/
def next (m : PoolMem) (a : Nat) : Nat := (m.nodes a).next

/-- The `prev` members of the nodes. -/
def prev (m : PoolMem) (a : Nat) : Nat := (m.nodes a).prev

/-- The head of the ring of free nodes. -/
def head (m : PoolMem) : Nat := (m.allocs m.alloc).free

@[simp] theorem setNode_allocs : (m.setNode a f).allocs = m.allocs := rfl

@[simp] theorem setNode_alloc : (m.setNode a f).alloc = m.alloc := rfl

@[simp] theorem setNode_nextNode : (m.setNode a f).nextNode = m.nextNode := rfl

@[simp] theorem setNode_nextAlloc : (m.setNode a f).nextAlloc = m.nextAlloc := rfl

@[simp] theorem setNode_head : (m.setNode a f).head = m.head := rfl

@[simp] theorem setAlloc_next : (m.setAlloc a g).next = m.next := rfl

@[simp] theorem setAlloc_prev : (m.setAlloc a g).prev = m.prev := rfl

@[simp] theorem setAlloc_alloc : (m.setAlloc a g).alloc = m.alloc := rfl

@[simp] theorem setAlloc_nextNode : (m.setAlloc a g).nextNode = m.nextNode := rfl

@[simp] theorem setAlloc_nextAlloc : (m.setAlloc a g).nextAlloc = m.nextAlloc := rfl

@[simp] theorem setAlloc_self : (m.setAlloc a g).allocs a = g (m.allocs a) := by
  simp [setAlloc]

theorem setNode_next : (m.setNode a f).next = Function.update m.next a (f (m.nodes a)).next := by
  funext b
  by_cases hb : b = a
  · subst hb
    simp [next, setNode]
  · simp [next, setNode, hb]

theorem setNode_prev : (m.setNode a f).prev = Function.update m.prev a (f (m.nodes a)).prev := by
  funext b
  by_cases hb : b = a
  · subst hb
    simp [prev, setNode]
  · simp [prev, setNode, hb]

end PoolMem

open PoolMem

/-- What the loops leave: a row of nodes linked in both directions. -/
structure Linked (m m' : PoolMem) (n a p : Nat) : Prop where
  next : ∀ b, m'.next b = if a ≤ b ∧ b < a + n then b + 1 else m.next b
  prev : ∀ b, m'.prev b = if a ≤ b ∧ b < a + n then if b = a then p else b - 1 else m.prev b
  allocs : m'.allocs = m.allocs
  alloc : m'.alloc = m.alloc
  nextNode : m'.nextNode = m.nextNode
  nextAlloc : m'.nextAlloc = m.nextAlloc

/-- One loop. -/
theorem linkLoop_spec (n a p : Nat) (m : PoolMem) :
    (linkLoop n a p m).1 = (if n = 0 then p else a + n - 1) ∧
      Linked m (linkLoop n a p m).2 n a p := by
  induction n generalizing a p m with
  | zero =>
    refine ⟨rfl, ⟨fun b => ?_, fun b => ?_, rfl, rfl, rfl, rfl⟩⟩
    · rw [if_neg (by omega)]
      rfl
    · rw [if_neg (by omega)]
      rfl
  | succ n ih =>
    obtain ⟨hprev, h⟩ := ih (a + 1) a (m.setNode a fun x =>
      { x with free := 1, next := a + 1, prev := p })
    rw [linkLoop]
    refine ⟨?_, ⟨fun b => ?_, fun b => ?_, h.allocs, h.alloc, h.nextNode, h.nextAlloc⟩⟩
    · rw [hprev, if_neg (Nat.succ_ne_zero n)]
      split
      · omega
      · omega
    · rw [h.next, setNode_next]
      by_cases hb : b = a
      · subst hb
        rw [if_neg (by omega), if_pos (by omega), Function.update_self]
      · rw [Function.update_of_ne hb]
        by_cases hin : a + 1 ≤ b ∧ b < a + 1 + n
        · rw [if_pos hin, if_pos (by omega)]
        · rw [if_neg hin, if_neg (by omega)]
    · rw [h.prev, setNode_prev]
      by_cases hb : b = a
      · subst hb
        rw [if_neg (by omega), if_pos (by omega), if_pos rfl, Function.update_self]
      · rw [Function.update_of_ne hb]
        by_cases hin : a + 1 ≤ b ∧ b < a + 1 + n
        · have hin' : a ≤ b ∧ b < a + (n + 1) := by omega
          rw [if_pos hin, if_pos hin', if_neg hb]
          by_cases hsecond : b = a + 1
          · rw [if_pos hsecond]
            omega
          · rw [if_neg hsecond]
        · rw [if_neg hin, if_neg (by omega)]

/-- The nodes of a ring and the allocator in use are somewhere in the memory. -/
structure Stocked (m : PoolMem) (ring : List Nat) : Prop where
  nodup : ring.Nodup
  bound : ∀ a ∈ ring, 0 < a ∧ a < m.nextNode
  size : 0 < (m.allocs m.alloc).poolSize
  alloc : 0 < m.alloc ∧ m.alloc < m.nextAlloc
  node : 0 < m.nextNode

/-- The ring of free nodes of the allocator in use, the node that is handed out next first. -/
structure FreeRing (m : PoolMem) (ring : List Nat) : Prop extends Stocked m ring where
  links : m.head = 0 ∧ ring = [] ∨ Ring m.next m.prev m.head ring

/-- A ring but for the link of its last node, which may lead elsewhere. -/
structure OpenRing (m : PoolMem) (ring : List Nat) : Prop extends Stocked m ring where
  links : Ring (Function.update m.next (m.prev m.head) m.head) m.prev m.head ring

section Alloc

variable {m m' : PoolMem} {ring ring' : List Nat} {a n : Nat} {f : NFAPool → NFAPool}

theorem Stocked.congr (h : Stocked m ring) (hring : ring'.Nodup)
    (hsub : ∀ a ∈ ring', a ∈ ring ∨ 0 < a ∧ a < m.nextNode)
    (hnode : m'.nextNode = m.nextNode) (hnext : m'.nextAlloc = m.nextAlloc)
    (halloc : m'.alloc = m.alloc)
    (hsize : (m'.allocs m.alloc).poolSize = (m.allocs m.alloc).poolSize) : Stocked m' ring' where
  nodup := hring
  bound a ha := by
    rw [hnode]
    exact (hsub a ha).elim (h.bound a) id
  size := by
    rw [halloc, hsize]
    exact h.size
  alloc := by
    rw [halloc, hnext]
    exact h.alloc
  node := by
    rw [hnode]
    exact h.node

/-- Only an empty ring has no head. -/
theorem FreeRing.head_eq_zero_iff (h : FreeRing m ring) : m.head = 0 ↔ ring = [] := by
  rcases h.links with ⟨hzero, hnil⟩ | hring
  · exact iff_of_true hzero hnil
  · have hmem := hring.head_mem
    have hpos := (h.bound _ hmem).1
    refine iff_of_false (by omega) ?_
    rintro rfl
    cases hmem

/-- In a ring the last node leads to the head. -/
theorem FreeRing.openRing (h : FreeRing m ring) (hne : ring ≠ []) : OpenRing m ring where
  toStocked := h.toStocked
  links := by
    have hring := h.links.resolve_left fun hnil => hne hnil.2
    have hsame : Function.update m.next (m.prev m.head) m.head = m.next := by
      rw [Function.update_eq_self_iff]
      exact hring.next_prev_head.symm
    rwa [hsame]

/-- Writes to other members leave the links as they are. -/
theorem setNode_next_of_eq (hf : (f (m.nodes a)).next = m.next a) :
    (m.setNode a f).next = m.next := by
  rw [setNode_next, hf, Function.update_eq_self]

theorem setNode_prev_of_eq (hf : (f (m.nodes a)).prev = m.prev a) :
    (m.setNode a f).prev = m.prev := by
  rw [setNode_prev, hf, Function.update_eq_self]

/-- `nfa_alloc` behind the expansion. -/
def takeHead (m : PoolMem) : Nat × PoolMem :=
  let m₁ := m.setNode m.head fun x => { x with free := 0 }
  if m₁.prev m.head = m.head then (m.head, m₁.setAlloc m.alloc fun x => { x with free := 0 })
  else
    let m₂ := m₁.setNode (m₁.next m.head) fun x => { x with prev := m₁.prev m.head }
    let m₃ := m₂.setNode (m₂.prev m.head) fun x => { x with next := m₂.next m.head }
    (m.head, m₃.setAlloc m.alloc fun x => { x with free := m₃.next m.head })

theorem nfaAlloc_eq (halloc : m.alloc ≠ 0) :
    m.nfaAlloc = takeHead (if m.head = 0 then m.nfaAllocExpand else m) := by
  rw [PoolMem.nfaAlloc, if_neg halloc]
  rfl

/-- The node at the head is cut out, whatever the link of the last one was. -/
theorem OpenRing.takeHead (h : OpenRing m (n :: ring)) :
    (takeHead m).1 = n ∧ FreeRing (takeHead m).2 ring ∧ (takeHead m).2.nextNode = m.nextNode ∧
      ((takeHead m).2.allocs (takeHead m).2.alloc).poolSize = (m.allocs m.alloc).poolSize := by
  obtain rfl : n = m.head := h.links.around.1.symm
  have hnodup := List.nodup_cons.mp h.nodup
  unfold NfaAlloc.takeHead
  dsimp only
  rw [setNode_prev_of_eq rfl, setNode_next_of_eq rfl]
  cases ring with
  | nil =>
    rw [if_pos ((Ring.prev_eq_head_iff h.links h.nodup).mpr rfl)]
    refine ⟨rfl, ⟨h.toStocked.congr List.nodup_nil (by simp) rfl rfl rfl (by simp), .inl ?_⟩, rfl,
      by simp⟩
    simp [head]
  | cons q t =>
    have hother : m.prev m.head ≠ m.head := by
      intro hself
      cases (Ring.prev_eq_head_iff h.links h.nodup).mp hself
    have hnext : m.next m.head = q := by
      have hq := h.links.next_of_head
      rwa [Function.update_of_ne hother.symm] at hq
    have hne : m.head ≠ m.next m.head := by
      rw [hnext]
      exact fun heq => hnodup.1 (heq ▸ List.mem_cons_self)
    have htail := h.links.tail h.nodup
    rw [Function.update_idem, Function.update_of_ne hother.symm] at htail
    rw [if_neg hother]
    -- neither write is to the node that is cut out
    generalize hm₁ : m.setNode m.head (fun x => { x with free := 0 }) = m₁
    have hprev₁ : m₁.prev = m.prev := by rw [← hm₁, setNode_prev_of_eq rfl]
    have hnext₁ : m₁.next = m.next := by rw [← hm₁, setNode_next_of_eq rfl]
    have hprev₂ : (m₁.setNode (m.next m.head) fun x => { x with prev := m.prev m.head }).prev =
        Function.update m.prev (m.next m.head) (m.prev m.head) := by
      rw [setNode_prev, hprev₁]
    have hnext₂ : (m₁.setNode (m.next m.head) fun x => { x with prev := m.prev m.head }).next =
        m.next := by
      rw [setNode_next_of_eq rfl, hnext₁]
    rw [hprev₂, hnext₂, Function.update_of_ne hne]
    generalize hm₂ : m₁.setNode (m.next m.head) _ = m₂ at hprev₂ hnext₂
    have hnext₃ : (m₂.setNode (m.prev m.head) fun x => { x with next := m.next m.head }).next =
        Function.update m.next (m.prev m.head) (m.next m.head) := by
      rw [setNode_next, hnext₂]
    have hprev₃ : (m₂.setNode (m.prev m.head) fun x => { x with next := m.next m.head }).prev =
        Function.update m.prev (m.next m.head) (m.prev m.head) := by
      rw [setNode_prev_of_eq rfl, hprev₂]
    rw [hnext₃, Function.update_of_ne hother.symm]
    have hrest : m₂.allocs = m.allocs ∧ m₂.alloc = m.alloc ∧ m₂.nextNode = m.nextNode ∧
        m₂.nextAlloc = m.nextAlloc := by
      rw [← hm₂, ← hm₁]
      exact ⟨rfl, rfl, rfl, rfl⟩
    obtain ⟨hallocs, halloc, hnode, hnextAlloc⟩ := hrest
    refine ⟨rfl, ⟨h.toStocked.congr hnodup.2 (fun a ha => .inl (.tail _ ha)) hnode hnextAlloc
      halloc (by simp [hallocs]), .inr ?_⟩, hnode, by simp [halloc, hallocs]⟩
    rw [setAlloc_next, setAlloc_prev, hnext₃, hprev₃]
    simpa [head, halloc] using htail

/-- A row of nodes behind the loop that links all but the first one. -/
theorem ring_of_linked {s k : Nat} (hlinked : Linked m m' k (s + 1) s) (hnext : m.next s = s + 1)
    (hprev : m.prev s = s + k) :
    Ring (Function.update m'.next (s + k) s) m'.prev s (List.range' s (k + 1)) := by
  refine Ring.range (fun b hlow hhigh => ?_) (Function.update_self _ _ _)
    (fun b hlow hhigh => ?_) ?_
  · rw [Function.update_of_ne (by omega), hlinked.next]
    by_cases hb : b = s
    · subst hb
      rw [if_neg (by omega), hnext]
    · rw [if_pos (by omega)]
  · rw [hlinked.prev, if_pos (by omega)]
    by_cases hb : b = s
    · subst hb
      rw [if_pos rfl]
    · rw [if_neg (by omega)]
      omega
  · rw [hlinked.prev, if_neg (by omega), hprev]

/-- The first part of an expansion: a new allocator behind the one in use. -/
def PoolMem.newAllocator (m : PoolMem) : PoolMem :=
  let m₁ := (m.callocAlloc 1).2
  let m₂ := m₁.setAlloc m.nextAlloc fun x =>
    { x with prev := m.alloc, next := (m₁.allocs m.alloc).next }
  let m₃ := m₂.setAlloc (m₂.allocs m.alloc).next fun x => { x with prev := m.nextAlloc }
  { m₃.setAlloc m.alloc fun x => { x with next := m.nextAlloc } with alloc := m.nextAlloc }

/-- The second part: a pool of twice the size. -/
def PoolMem.freshPool (m : PoolMem) (size : Nat) : PoolMem :=
  ((m.newAllocator.callocPool (2 * size)).2.setAlloc m.nextAlloc fun x =>
    { x with pool := m.nextNode }).setNode (m.nextNode + size) fun x => { x with free := 1 }

/-- The third part: the links of the upper half of the pool. -/
def PoolMem.linkUpper (m : PoolMem) (pool size : Nat) : PoolMem :=
  if 2 * size - size = 1 then
    m.setNode (pool + size) fun x => { x with prev := pool + size, next := pool + size }
  else
    (linkLoop (2 * size - (size + 1)) (pool + size + 1) (pool + size)
      (m.setNode (pool + size) fun x =>
        { x with prev := pool + (2 * size - 1), next := pool + size + 1 })).2

/-- The links of the upper half of a pool. -/
theorem linkUpper_spec (m : PoolMem) (pool : Nat) {size : Nat} (hsize : 0 < size) :
    (linkUpper m pool size).prev (pool + size) = pool + size + (size - 1) ∧
      Ring (Function.update (linkUpper m pool size).next (pool + size + (size - 1)) (pool + size))
        (linkUpper m pool size).prev (pool + size) (List.range' (pool + size) size) ∧
      (linkUpper m pool size).allocs = m.allocs ∧ (linkUpper m pool size).alloc = m.alloc ∧
      (linkUpper m pool size).nextNode = m.nextNode ∧
      (linkUpper m pool size).nextAlloc = m.nextAlloc := by
  unfold PoolMem.linkUpper
  split
  · next hone =>
    obtain rfl : size = 1 := by omega
    refine ⟨?_, ?_, rfl, rfl, rfl, rfl⟩
    · rw [setNode_prev, Function.update_self]
    · rw [setNode_prev, setNode_next, Nat.sub_self, Nat.add_zero, Function.update_idem]
      exact Ring.single
  · next hmore =>
    obtain ⟨k, rfl⟩ : ∃ k, size = k + 1 := ⟨size - 1, by omega⟩
    rw [show 2 * (k + 1) - (k + 1 + 1) = k by omega,
      show pool + (2 * (k + 1) - 1) = pool + (k + 1) + k by omega, Nat.add_sub_cancel]
    generalize pool + (k + 1) = s
    have hlinked := (linkLoop_spec k (s + 1) s
      (m.setNode s fun x => { x with prev := s + k, next := s + 1 })).2
    have hnext : (m.setNode s fun x => { x with prev := s + k, next := s + 1 }).next s = s + 1 := by
      rw [setNode_next, Function.update_self]
    have hprev : (m.setNode s fun x => { x with prev := s + k, next := s + 1 }).prev s = s + k := by
      rw [setNode_prev, Function.update_self]
    refine ⟨?_, ring_of_linked hlinked hnext hprev, hlinked.allocs, hlinked.alloc,
      hlinked.nextNode, hlinked.nextAlloc⟩
    rw [hlinked.prev, if_neg (by omega), hprev]

theorem nfaAllocExpand_eq {size : Nat} (hsize : (m.allocs m.alloc).poolSize = size) :
    m.nfaAllocExpand =
      ((m.freshPool size).linkUpper m.nextNode size).setAlloc m.nextAlloc fun x =>
        { x with free := m.nextNode + size, poolSize := 2 * size } := by
  subst hsize
  rfl

/-- What an expansion leaves: the upper half of a pool of twice the size. -/
structure Expanded (m m' : PoolMem) (size : Nat) : Prop where
  ring : OpenRing m' (List.range' (m.nextNode + size) size)
  head : m'.head = m.nextNode + size
  poolSize : (m'.allocs m'.alloc).poolSize = 2 * size
  node : m'.nextNode = m.nextNode + 2 * size

/-- An expansion. -/
theorem Stocked.nfaAllocExpand (h : Stocked m ring) :
    Expanded m m.nfaAllocExpand (m.allocs m.alloc).poolSize := by
  obtain ⟨size, hsize⟩ : ∃ size, (m.allocs m.alloc).poolSize = size := ⟨_, rfl⟩
  have hpos : 0 < size := hsize ▸ h.size
  obtain ⟨hprev, hring, -, halloc, hnode, hnextAlloc⟩ :=
    linkUpper_spec (m.freshPool size) m.nextNode hpos
  rw [nfaAllocExpand_eq hsize, hsize]
  generalize (m.freshPool size).linkUpper m.nextNode size = mp at *
  have halloc' : mp.alloc = m.nextAlloc := halloc
  have hnode' : mp.nextNode = m.nextNode + 2 * size := hnode
  have hnextAlloc' : mp.nextAlloc = m.nextAlloc + 1 := hnextAlloc
  have hhead : (mp.setAlloc m.nextAlloc fun x =>
      { x with free := m.nextNode + size, poolSize := 2 * size }).head = m.nextNode + size := by
    simp [head, halloc']
  have hpoolSize : ((mp.setAlloc m.nextAlloc fun x =>
      { x with free := m.nextNode + size, poolSize := 2 * size }).allocs mp.alloc).poolSize =
        2 * size := by
    simp [halloc']
  refine ⟨⟨⟨List.nodup_range', fun a ha => ?_, ?_, ?_, ?_⟩, ?_⟩, hhead, hpoolSize, hnode'⟩
  · rw [List.mem_range'_1] at ha
    rw [setAlloc_nextNode, hnode']
    have := h.node
    omega
  · rw [setAlloc_alloc, hpoolSize]
    omega
  · rw [setAlloc_alloc, setAlloc_nextAlloc, halloc', hnextAlloc']
    have := h.alloc
    omega
  · rw [setAlloc_nextNode, hnode']
    omega
  · rw [hhead, setAlloc_prev, setAlloc_next, hprev]
    exact hring

/-- The nodes that may be handed out: those of the ring, or else of a new pool. -/
def offered (m : PoolMem) (ring : List Nat) : List Nat :=
  if ring = [] then
    List.range' (m.nextNode + (m.allocs m.alloc).poolSize) (m.allocs m.alloc).poolSize
  else ring

/-- What `nfa_alloc` does: the first node that may be handed out is. -/
structure HandsOut (m m' : PoolMem) (ring ring' : List Nat) (n : Nat) : Prop where
  free : FreeRing m' ring'
  offered : offered m ring = n :: ring'
  nextNode : m'.nextNode =
    if ring = [] then m.nextNode + 2 * (m.allocs m.alloc).poolSize else m.nextNode
  poolSize : (m'.allocs m'.alloc).poolSize =
    if ring = [] then 2 * (m.allocs m.alloc).poolSize else (m.allocs m.alloc).poolSize

/-- **`nfa_alloc`.** -/
theorem FreeRing.nfaAlloc (h : FreeRing m ring) :
    ∃ n ring' m', m.nfaAlloc = (n, m') ∧ HandsOut m m' ring ring' n := by
  rw [nfaAlloc_eq (Nat.pos_iff_ne_zero.mp h.alloc.1)]
  by_cases hnil : ring = []
  · rw [if_pos (h.head_eq_zero_iff.mpr hnil)]
    have hexpanded := h.toStocked.nfaAllocExpand
    have hsize := h.size
    generalize m.nfaAllocExpand = mx at *
    obtain ⟨n, ring', hring⟩ := List.exists_cons_of_ne_nil
      (show List.range' (m.nextNode + (m.allocs m.alloc).poolSize) (m.allocs m.alloc).poolSize ≠ []
        from fun heq => by
          have := List.range'_eq_nil_iff.mp heq
          omega)
    obtain ⟨hn, hfree, hnode, hpool⟩ := (hring ▸ hexpanded.ring).takeHead
    refine ⟨n, ring', (takeHead mx).2, Prod.ext hn rfl, hfree, ?_, ?_, ?_⟩
    · rw [NfaAlloc.offered, if_pos hnil, hring]
    · rw [if_pos hnil, hnode, hexpanded.node]
    · rw [if_pos hnil, hpool, hexpanded.poolSize]
  · rw [if_neg (mt h.head_eq_zero_iff.mp hnil)]
    obtain ⟨n, ring', rfl⟩ := List.exists_cons_of_ne_nil hnil
    obtain ⟨hn, hfree, hnode, hpool⟩ := (h.openRing hnil).takeHead
    refine ⟨n, ring', (takeHead m).2, Prod.ext hn rfl, hfree, ?_, ?_, ?_⟩
    · rw [NfaAlloc.offered, if_neg hnil]
    · rw [if_neg hnil, hnode]
    · rw [if_neg hnil, hpool]

/-- The ring a node enters behind its head. -/
def entered (ring : List Nat) (n : Nat) : List Nat :=
  match ring with
  | [] => [n]
  | h :: t => h :: n :: t

/-- What `nfa_dealloc` does: the node enters the ring. -/
structure TakesBack (m m' : PoolMem) (ring : List Nat) (n : Nat) : Prop where
  free : FreeRing m' (entered ring n)
  nextNode : m'.nextNode = m.nextNode
  poolSize : (m'.allocs m'.alloc).poolSize = (m.allocs m.alloc).poolSize

/-- The node that starts a ring. -/
theorem FreeRing.nfaDealloc_nil (h : FreeRing m []) (hpos : 0 < n) (hlt : n < m.nextNode) :
    TakesBack m (m.nfaDealloc m.alloc n) [] n := by
  have halloc := h.alloc
  have hzero : (m.allocs m.alloc).free = 0 := h.head_eq_zero_iff.mpr rfl
  obtain ⟨m₁, hm₁⟩ : ∃ m₁, m₁ = m.setNode n fun x => { x with free := 1 } := ⟨_, rfl⟩
  have hallocs₁ : m₁.allocs = m.allocs := by rw [hm₁, setNode_allocs]
  have hself : m₁.alloc = m.alloc := by rw [hm₁, setNode_alloc]
  have hnode₁ : m₁.nextNode = m.nextNode := by rw [hm₁, setNode_nextNode]
  have hnext₁ : m₁.nextAlloc = m.nextAlloc := by rw [hm₁, setNode_nextAlloc]
  unfold PoolMem.nfaDealloc
  rw [if_neg (by omega), ← hm₁]
  dsimp only
  rw [hallocs₁, if_pos hzero]
  refine ⟨⟨h.toStocked.congr (List.nodup_singleton n) (fun a ha => ?_) hnode₁ hnext₁ hself ?_,
    .inr ?_⟩, hnode₁, ?_⟩
  · obtain rfl := List.mem_singleton.mp ha
    exact .inr ⟨hpos, hlt⟩
  · simp [hallocs₁]
  · have hhead : ((m₁.setAlloc m.alloc fun x => { x with free := n }).setNode n fun x =>
        { x with next := n, prev := n }).head = n := by
      simp [head, hself]
    rw [hhead, setNode_next, setNode_prev]
    exact Ring.single
  · simp [hallocs₁, hself]

/-- The four writes that link a node in behind the head. -/
theorem FreeRing.nfaDealloc_cons (h : FreeRing m (a :: ring)) (hn : n ∉ a :: ring) (hpos : 0 < n)
    (hlt : n < m.nextNode) : TakesBack m (m.nfaDealloc m.alloc n) (a :: ring) n := by
  have halloc := h.alloc
  have hlinks := h.links.resolve_left fun hnil => nomatch hnil.2
  obtain rfl : a = m.head := hlinks.around.1.symm
  have hsome : (m.allocs m.alloc).free ≠ 0 := mt h.head_eq_zero_iff.mp (List.cons_ne_nil _ _)
  have hne : m.head ≠ n := fun heq => hn (heq ▸ List.mem_cons_self)
  obtain ⟨m₁, hm₁⟩ : ∃ m₁, m₁ = m.setNode n fun x => { x with free := 1 } := ⟨_, rfl⟩
  have hnext₁ : m₁.next = m.next := by rw [hm₁, setNode_next_of_eq rfl]
  have hprev₁ : m₁.prev = m.prev := by rw [hm₁, setNode_prev_of_eq rfl]
  have hallocs₁ : m₁.allocs = m.allocs := by rw [hm₁, setNode_allocs]
  have hhead : (m.allocs m.alloc).free = m.head := rfl
  have hfwd : (m₁.nodes m.head).next = m.next m.head := congrFun hnext₁ m.head
  unfold PoolMem.nfaDealloc
  rw [if_neg (by omega), ← hm₁]
  dsimp only
  rw [hallocs₁, if_neg hsome, hhead, hfwd]
  obtain ⟨m₂, hm₂⟩ : ∃ m₂, m₂ = m₁.setNode n fun x =>
    { x with prev := m.head, next := m.next m.head } := ⟨_, rfl⟩
  have hnext₂ : m₂.next = Function.update m.next n (m.next m.head) := by
    rw [hm₂, setNode_next, hnext₁]
  have hprev₂ : m₂.prev = Function.update m.prev n m.head := by
    rw [hm₂, setNode_prev, hprev₁]
  have hallocs₂ : m₂.allocs = m.allocs := by rw [hm₂, setNode_allocs, hallocs₁]
  have halloc₂ : m₂.alloc = m.alloc := by rw [hm₂, hm₁, setNode_alloc, setNode_alloc]
  have hnode₂ : m₂.nextNode = m.nextNode := by
    rw [hm₂, hm₁, setNode_nextNode, setNode_nextNode]
  have hnextAlloc₂ : m₂.nextAlloc = m.nextAlloc := by
    rw [hm₂, hm₁, setNode_nextAlloc, setNode_nextAlloc]
  -- the neighbour is read again behind the first write, which was not to the head
  have hfwd₂ : (m₂.nodes m.head).next = m.next m.head :=
    (congrFun hnext₂ m.head).trans (Function.update_of_ne hne _ _)
  rw [← hm₂, hfwd₂]
  have hin := List.nodup_cons.mp h.nodup
  have hnt : n ∉ ring := fun hmem => hn (List.mem_cons_of_mem _ hmem)
  have hnodup : (m.head :: n :: ring).Nodup := by
    rw [List.nodup_cons, List.mem_cons, not_or, List.nodup_cons]
    exact ⟨⟨hne, hin.1⟩, hnt, hin.2⟩
  refine ⟨⟨h.toStocked.congr hnodup (fun a ha => ?_) hnode₂ hnextAlloc₂ halloc₂ ?_, .inr ?_⟩,
    hnode₂, ?_⟩
  · rcases List.mem_cons.mp ha with rfl | ha
    · exact .inl List.mem_cons_self
    · rcases List.mem_cons.mp ha with rfl | ha
      · exact .inr ⟨hpos, hlt⟩
      · exact .inl (List.mem_cons_of_mem _ ha)
  · simp [hallocs₂]
  · have hkeep : ((m₂.setNode (m.next m.head) fun x => { x with prev := n }).setNode m.head
        fun x => { x with next := n }).head = m.head := by
      simp [head, halloc₂, hallocs₂]
    rw [hkeep, setNode_next, setNode_prev_of_eq rfl, setNode_next_of_eq rfl, setNode_prev,
      hnext₂, hprev₂]
    exact hlinks.insert h.nodup hn
  · simp [halloc₂, hallocs₂]

/-- **`nfa_dealloc`.** -/
theorem FreeRing.nfaDealloc (h : FreeRing m ring) (hn : n ∉ ring) (hpos : 0 < n)
    (hlt : n < m.nextNode) : TakesBack m (m.nfaDealloc m.alloc n) ring n := by
  cases ring with
  | nil => exact h.nfaDealloc_nil hpos hlt
  | cons a ring => exact h.nfaDealloc_cons hn hpos hlt

/-- The first part of `nfa_alloc_init`. -/
def PoolMem.initAllocator (m : PoolMem) (num : Nat) : PoolMem :=
  let m₁ := { (m.callocAlloc num).2 with alloc := m.nextAlloc }
  ((m₁.callocPool num).2.setAlloc m.nextAlloc fun x =>
    { x with pool := m.nextNode, poolSize := num }).setNode m.nextNode fun x => { x with free := 1 }

/-- The second part: the links of the pool. -/
def PoolMem.linkAll (m : PoolMem) (pool num : Nat) : PoolMem :=
  if num = 1 then m.setNode pool fun x => { x with free := 1, next := pool, prev := pool }
  else
    let m₁ := m.setNode pool fun x =>
      { x with free := 1, next := pool + 1, prev := pool + (num - 1) }
    (linkLoop (num - 2) (pool + 1) pool m₁).2.setNode (pool + (num - 1)) fun x =>
      { x with free := 1, next := pool, prev := (linkLoop (num - 2) (pool + 1) pool m₁).1 }

theorem nfaAllocInit_eq {num : Nat} (hnum : 1 ≤ num) :
    m.nfaAllocInit num = ((m.initAllocator num).linkAll m.nextNode num).setAlloc m.nextAlloc
      fun x => { x with free := m.nextNode, next := m.nextAlloc, prev := m.nextAlloc } := by
  rw [PoolMem.nfaAllocInit, if_neg (by omega)]
  rfl

/-- The links of a pool. -/
theorem linkAll_spec (m : PoolMem) (pool : Nat) {num : Nat} (hnum : 1 ≤ num) :
    Ring (m.linkAll pool num).next (m.linkAll pool num).prev pool (List.range' pool num) ∧
      (m.linkAll pool num).allocs = m.allocs ∧ (m.linkAll pool num).alloc = m.alloc ∧
      (m.linkAll pool num).nextNode = m.nextNode ∧
      (m.linkAll pool num).nextAlloc = m.nextAlloc := by
  unfold PoolMem.linkAll
  split
  · next hone =>
    subst hone
    refine ⟨?_, rfl, rfl, rfl, rfl⟩
    rw [setNode_next, setNode_prev]
    exact Ring.single
  · next hmore =>
    obtain ⟨k, rfl⟩ : ∃ k, num = k + 2 := ⟨num - 2, by omega⟩
    rw [Nat.add_sub_cancel, show k + 2 - 1 = k + 1 by omega]
    dsimp only
    obtain ⟨hlast, hlinked⟩ := linkLoop_spec k (pool + 1) pool
      (m.setNode pool fun x => { x with free := 1, next := pool + 1, prev := pool + (k + 1) })
    have hp : (linkLoop k (pool + 1) pool (m.setNode pool fun x =>
        { x with free := 1, next := pool + 1, prev := pool + (k + 1) })).1 = pool + k := by
      rw [hlast]
      split
      · omega
      · omega
    rw [hp]
    generalize (linkLoop k (pool + 1) pool _).2 = ml at *
    refine ⟨?_, hlinked.allocs, hlinked.alloc, hlinked.nextNode, hlinked.nextAlloc⟩
    rw [setNode_next, setNode_prev]
    refine Ring.range (fun b hlow hhigh => ?_) (Function.update_self _ _ _)
      (fun b hlow hhigh => ?_) ?_
    · rw [Function.update_of_ne (by omega), hlinked.next]
      by_cases hb : b = pool
      · subst hb
        rw [if_neg (by omega), setNode_next, Function.update_self]
      · rw [if_pos (by omega)]
    · by_cases hend : b = pool + k
      · subst hend
        rw [show pool + k + 1 = pool + (k + 1) by omega, Function.update_self]
      · rw [Function.update_of_ne (by omega), hlinked.prev, if_pos (by omega)]
        by_cases hb : b = pool
        · rw [if_pos (by omega), hb]
        · rw [if_neg (by omega)]
          omega
    · rw [Function.update_of_ne (by omega), hlinked.prev, if_neg (by omega), setNode_prev,
        Function.update_self]

/-- **`nfa_alloc_init`.** -/
theorem freeRing_nfaAllocInit {num : Nat} (hnum : 1 ≤ num) (hnode : 0 < m.nextNode)
    (hnext : 0 < m.nextAlloc) :
    FreeRing (m.nfaAllocInit num) (List.range' m.nextNode num) ∧
      (m.nfaAllocInit num).nextNode = m.nextNode + num ∧
      ((m.nfaAllocInit num).allocs (m.nfaAllocInit num).alloc).poolSize = num := by
  obtain ⟨hring, hallocs, halloc, hnode', hnext'⟩ :=
    linkAll_spec (m.initAllocator num) m.nextNode hnum
  rw [nfaAllocInit_eq hnum]
  have hsize : ((m.initAllocator num).allocs m.nextAlloc).poolSize = num := by
    simp [PoolMem.initAllocator]
  generalize (m.initAllocator num).linkAll m.nextNode num = mp at *
  have halloc₁ : mp.alloc = m.nextAlloc := halloc
  have hnode₁ : mp.nextNode = m.nextNode + num := hnode'
  have hnext₁ : mp.nextAlloc = m.nextAlloc + num := hnext'
  have hpool : ((mp.setAlloc m.nextAlloc fun x =>
      { x with free := m.nextNode, next := m.nextAlloc, prev := m.nextAlloc }).allocs
        mp.alloc).poolSize = num := by
    simp [halloc₁, hallocs, hsize]
  refine ⟨⟨⟨List.nodup_range', fun a ha => ?_, ?_, ?_, ?_⟩, .inr ?_⟩, hnode₁, hpool⟩
  · rw [List.mem_range'_1] at ha
    rw [setAlloc_nextNode, hnode₁]
    omega
  · rw [setAlloc_alloc, hpool]
    omega
  · rw [setAlloc_alloc, setAlloc_nextAlloc, halloc₁, hnext₁]
    omega
  · rw [setAlloc_nextNode, hnode₁]
    omega
  · simpa [head, halloc₁] using hring

end Alloc

end NfaAlloc

end Recognizer
